import FsCache.Fs

/- Which directories the watcher is told of (fuse/read.rs).

   A lookup that finds a directory in the backing sends a touch. But a path that is in the
   cache is answered for before that, and a directory is there as soon as a file below it is
   cached. It has no row, so its attributes come from a stat of the backing: the answer is the
   directory, and nothing is sent.

   `seeds_iff`: a lookup that is answered with a directory sends a touch exactly when it is not
   of such a path. -/

namespace FsCache
open Lib

/-- The three times of a stat fit a `SystemTime`. -/
def Stat.Fits (s : Stat) : Prop :=
  (sinceEpoch (asU64 s.stAtime) (asU32 s.stAtimeNsec)).isSome ∧
    (sinceEpoch (asU64 s.stMtime) (asU32 s.stMtimeNsec)).isSome ∧
    (sinceEpoch (asU64 s.stCtime) (asU32 s.stCtimeNsec)).isSome

theorem statToAttr_isSome_iff {s : Stat} (ino : Nat) : (statToAttr ino s).isSome ↔ s.Fits := by
  unfold statToAttr Stat.Fits
  cases sinceEpoch (asU64 s.stAtime) (asU32 s.stAtimeNsec) <;>
    cases sinceEpoch (asU64 s.stMtime) (asU32 s.stMtimeNsec) <;>
    cases sinceEpoch (asU64 s.stCtime) (asU32 s.stCtimeNsec) <;> simp

theorem modeToFiletype_eq_directory {mode : Nat} :
    modeToFiletype mode = .directory ↔ mode &&& S_IFMT = S_IFDIR := by
  unfold modeToFiletype
  split <;> simp_all [S_IFDIR]

namespace Fs

variable {cfg : FsConfig} {s : Fs} {k : FsKernel} {parent : Nat} {name : Name}

/-- The lookup is answered with a directory, and the watcher is told. -/
def Seeds (cfg : FsConfig) (s : Fs) (k : FsKernel) (parent : Nat) (name : Name) : Prop :=
  ∀ attr, (s.handle cfg k (.lookup parent name)).2 = .ok (.plain (.entry attr)) →
    attr.kind = .directory →
    ∃ child, s.inodes.childPath parent name = some child ∧
      (s.handle cfg k (.lookup parent name)).1.touches = s.touches ++ [⟨child, attr.ino⟩]

/-- Something is cached at the path, without a snapshot, and a stat of the backing finds a
directory there. -/
def CachedDirectory (cfg : FsConfig) (s : Fs) (k : FsKernel) (path : RelPath) : Prop :=
  cfg.caching = true ∧ isCached s.dir path = true ∧ s.db.sourceMetadataRow path cfg.mount = none ∧
    ∃ st, k.stat 0 s.disk path = some st ∧ st.stMode &&& S_IFMT = S_IFDIR ∧ st.Fits

/-! ## What a lookup answers -/

theorem sent_eq_entry {o : Option FileAttr} {attr : FileAttr} :
    (sent .entry o).map Answer.plain = .ok (.plain (.entry attr)) ↔ o = some attr := by
  cases o <;> simp [sent, Reply.map]

/-- The cache answers with a directory for a cached directory, and for nothing else. -/
theorem cachedDirectory_iff {path : RelPath} (ino : Nat) : s.CachedDirectory cfg k path ↔
    ∃ attr, s.fastAttr cfg k path ino = some (some attr) ∧ attr.kind = .directory := by
  unfold CachedDirectory fastAttr
  constructor
  · rintro ⟨hcache, hcached, hnone, st, hst, hmode, hfits⟩
    obtain ⟨attr, hattr⟩ := Option.isSome_iff_exists.mp ((statToAttr_isSome_iff ino).mpr hfits)
    refine ⟨attr, ?_, (of_statToAttr hattr).1.trans (modeToFiletype_eq_directory.mpr hmode)⟩
    rw [if_pos ⟨hcache, hcached⟩, hnone, hst]
    exact congrArg some hattr
  · rintro ⟨attr, hfast, hkind⟩
    split at hfast
    · next hc =>
      refine ⟨hc.1, hc.2, ?_⟩
      split at hfast
      · -- what has a snapshot is a regular file
        have hregular := (of_sourceMetadataToAttr (Option.some.inj hfast)).1
        exact absurd (hkind.symm.trans hregular) (by decide)
      · next hnone =>
        obtain ⟨st, hst, hattr⟩ := Option.map_eq_some_iff.mp hfast
        refine ⟨hnone, st, hst, ?_, (statToAttr_isSome_iff ino).mp (Option.isSome_of_mem hattr)⟩
        exact modeToFiletype_eq_directory.mp ((of_statToAttr hattr).1.symm.trans hkind)
    · exact absurd hfast (by simp)

/-- A lookup that is answered with a directory sends a touch with its path and its inode
exactly when the path is not a cached directory. -/
theorem seeds_iff (cfg : FsConfig) (s : Fs) (k : FsKernel) (parent : Nat) (name : Name)
    (hw : cfg.backingWatch = true) :
    s.Seeds cfg k parent name ↔
      ∀ child, s.inodes.childPath parent name = some child → ¬s.CachedDirectory cfg k child := by
  unfold Seeds
  simp only [handle]
  cases hp : s.inodes.childPath parent name with
  | none => simp [doLookup, hp]
  | some child =>
    rw [doLookup_of_child hp]
    simp only [Option.some.injEq, forall_eq', exists_eq_left', attrAnswer, seeded]
    rw [cachedDirectory_iff (s.inodes.getOrCreate child).2]
    constructor
    · rintro hseeds ⟨attr, hfast, hkind⟩
      simp only [hfast] at hseeds
      exact absurd (hseeds attr (sent_eq_entry.mpr rfl) hkind) (by simp)
    · intro hnot attr hreply hkind
      cases hfast : s.fastAttr cfg k child (s.inodes.getOrCreate child).2 with
      | some o =>
        rw [hfast] at hreply
        exact absurd ⟨attr, by rw [hfast, sent_eq_entry.mp hreply], hkind⟩ hnot
      | none =>
        cases hst : k.stat 1 s.disk child with
        | none =>
          rw [hfast, hst] at hreply
          exact absurd hreply (by simp)
        | some st =>
          rw [hfast, hst] at hreply
          have hattr := sent_eq_entry.mp hreply
          have hmode := modeToFiletype_eq_directory.mp ((of_statToAttr hattr).1.symm.trans hkind)
          rw [ino_of_statToAttr hattr]
          exact if_pos ⟨hmode, hw⟩

section Album

def albumName : Name := ⟨[97, 108], Eq.refl true⟩
def trackName : Name := ⟨[116, 114], Eq.refl true⟩

def albumStat : Stat := ⟨4096, 8, 1, 0, 1, 0, 1, 0, 0o040755, 2, 0, 0, 0, 4096⟩

/-- A backing with one directory. -/
def albumDisk : Disk where
  backing := Backing.empty.setNode [albumName] (some (.dir albumStat)) (by simp)
  sizes := by
    intro p st hst
    simp only [Backing.stat, Backing.setNode, Backing.empty, Function.update_apply] at hst
    by_cases hp : p = [albumName]
    · simp only [hp, if_true] at hst
      obtain rfl : albumStat = st := by simpa using hst
      decide
    · simp only [hp, if_false] at hst
      exact absurd hst (by simp)

def albumConfig : FsConfig := ⟨[109], false, true, true, true⟩

/-- Nothing is cached. -/
def albumStart : Fs := start albumDisk Files.empty ⟨∅, ∅⟩

theorem album_seeds : albumStart.Seeds albumConfig (.readOnly 3) rootIno albumName := by
  refine (seeds_iff albumConfig albumStart (.readOnly 3) rootIno albumName rfl).mpr ?_
  rintro child hp ⟨-, hcached, -⟩
  obtain rfl := Option.some.inj hp
  exact absurd hcached (by decide)

/-- A file of the directory is in the cache. -/
def albumCached : Fs := { albumStart with
  dir := match (Files.createDirAll Files.empty [albumName]).bind (·.openTrunc [albumName, trackName]) with
    | some (dir, _) => dir
    | none => Files.empty }

/-- The lookup is answered with the directory, and nothing is sent. -/
theorem album_not_seeded : ∃ attr,
    (albumCached.handle albumConfig (.readOnly 3) (.lookup rootIno albumName)).2 = .ok (.plain (.entry attr)) ∧
    attr.kind = .directory ∧
    (albumCached.handle albumConfig (.readOnly 3) (.lookup rootIno albumName)).1.touches = [] ∧
    ¬albumCached.Seeds albumConfig (.readOnly 3) rootIno albumName := by
  refine ⟨_, rfl, rfl, rfl, fun h => ?_⟩
  obtain ⟨child, -, hsent⟩ := h _ rfl rfl
  exact absurd hsent (List.cons_ne_nil _ _).symm

end Album

end Fs

end FsCache
