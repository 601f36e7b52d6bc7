import FsCache.Seeding

/- Passthrough mode (fuse/fusefs.rs, fuse/read.rs).

   An open looks at the mode before it looks at the cache. A lookup and a getattr do not: what
   is cached is answered for by its row, or by a stat of the backing that brings the row up to
   date. `Bypasses` says when that comes to the same.

   `passthrough_is_no_cache`: as long as it does, a mount in passthrough mode answers every
   request that reads as one without a cache, and leaves the cache alone. `stale_in_passthrough`
   is a mount where it does not. -/

namespace FsCache
open Lib

def FsConfig.withoutCache (cfg : FsConfig) : FsConfig := { cfg with caching := false }

/-- A lookup, a getattr, an open, a read or a release; or a change of the backing by others. -/
def FsRequest.Reads : FsRequest → Prop
  | .lookup .. | .getattr .. | .openFile .. | .read .. | .release .. | .outside .. => True
  | _ => False

/-- A refresh from the stat writes a snapshot to a row that has none. -/
def Heals (db : CacheDb) (mount : MountId) (p : RelPath) (st : Stat) : Prop :=
  ∃ fp, db.fingerprintRow p mount = some fp ∧ fp.isZero = false ∧ contentMatches fp st = true

theorem refresh_of_not_heals {db : CacheDb} {mount : MountId} {p : RelPath} {st : Stat}
    (h : ¬Heals db mount p st) : refreshSourceMetadata db mount p st = db := by
  unfold refreshSourceMetadata
  split
  · next db' hs =>
    cases refreshMove_of_step hs with
    | stop => rfl
  · next db' pc hs =>
    cases refreshMove_of_step hs with
    | agree hfp hzero hmatch => exact absurd ⟨_, hfp, hzero, hmatch⟩ h

namespace Fs

/-- The path and the inode that a request asks the attributes of. -/
def attrPath (s : Fs) : FsRequest → Option (RelPath × Nat)
  | .lookup parent name =>
    (s.inodes.childPath parent name).map fun child => (child, (s.inodes.getOrCreate child).2)
  | .getattr ino => (s.inodes.getPath ino).map fun path => (path, ino)
  | _ => none

/-- The cache is not asked for attributes, or has the backing's, and it is not changed. -/
def Bypasses (cfg : FsConfig) (s : Fs) (r : FsKernel × FsRequest) : Prop :=
  ∀ path ino, s.attrPath r.2 = some (path, ino) → cfg.caching = true → isCached s.dir path = true →
    match s.db.sourceMetadataRow path cfg.mount with
    | some m => ∃ st, r.1.stat 1 s.disk path = some st ∧ sourceMetadataToAttr ino m = statToAttr ino st
    | none => ∀ st, r.1.stat 0 s.disk path = some st →
        r.1.stat 1 s.disk path = some st ∧ ¬Heals s.db cfg.mount path st

/-- The two mounts differ in the cache and in what the watcher is told. -/
def SameButCache (s t : Fs) : Prop :=
  ∃ dir db touches, t = { s with dir := dir, db := db, touches := touches }

/-- No descriptor is of a cache file. -/
def Uncached (s : Fs) : Prop :=
  ∀ fh o file, s.fds.lookup fh = some o → o.file = some file → ∃ h, file = .backing h

variable {cfg : FsConfig} {s t : Fs} {k : FsKernel} {r : FsRequest}

/-- The handlers of both mounts do the same, and the first one leaves its cache alone. -/
def Agree (s : Fs) (x y : Fs × Reply Answer) : Prop :=
  SameButCache x.1 y.1 ∧ x.2 = y.2 ∧ x.1.dir = s.dir ∧ x.1.db = s.db ∧ Uncached x.1

/-! ## Attributes -/

/-- The fast path says what the slow path would, and the database stays. -/
theorem attr_bypassed {path : RelPath} {ino : Nat} (f : FileAttr → Sent)
    (hr : s.attrPath r = some (path, ino)) (hok : Bypasses cfg s (k, r)) (ht : SameButCache s t) :
    s.attrAnswer cfg k f path ino = t.attrAnswer cfg.withoutCache k f path ino ∧
      s.fastDb cfg k path = s.db := by
  obtain ⟨dir, db, touches, rfl⟩ := ht
  have hslow : fastAttr cfg.withoutCache { s with dir := dir, db := db, touches := touches } k path ino =
      none := by
    simp [fastAttr, FsConfig.withoutCache]
  simp only [attrAnswer, hslow, fastDb]
  by_cases hc : cfg.caching = true ∧ isCached s.dir path = true
  · have hok := hok path ino hr hc.1 hc.2
    simp only [fastAttr, if_pos hc]
    cases hm : s.db.sourceMetadataRow path cfg.mount with
    | some m =>
      simp only [hm] at hok
      obtain ⟨st, hst, hattr⟩ := hok
      simp only [hst, hattr, and_self]
    | none =>
      simp only [hm] at hok
      cases hst : k.stat 0 s.disk path with
      | none => simp
      | some st =>
        obtain ⟨hst', hheals⟩ := hok st hst
        simp only [Option.map_some, hst']
        exact ⟨trivial, refresh_of_not_heals hheals⟩
  · simp only [fastAttr, if_neg hc, and_true]

/-! ## The handlers -/

theorem agree_lookup {parent : Nat} {name : Name} (hu : Uncached s) (ht : SameButCache s t)
    (hok : Bypasses cfg s (k, .lookup parent name)) :
    Agree s (s.doLookup cfg k parent name) (t.doLookup cfg.withoutCache k parent name) := by
  have hti : t.inodes = s.inodes := by
    obtain ⟨dir, db, touches, rfl⟩ := ht
    rfl
  cases hp : s.inodes.childPath parent name with
  | none =>
    simp only [doLookup, hti, hp]
    exact ⟨ht, rfl, rfl, rfl, hu⟩
  | some child =>
    rw [doLookup_of_child hp, doLookup_of_child (hti ▸ hp), hti]
    obtain ⟨hattr, hdb⟩ := attr_bypassed .entry (by rw [attrPath, hp]; rfl) hok ht
    obtain ⟨dir, db, touches, rfl⟩ := ht
    exact ⟨⟨dir, _, _, rfl⟩, hattr, rfl, hdb, hu⟩

theorem agree_getattr {ino : Nat} (hu : Uncached s) (ht : SameButCache s t)
    (hok : Bypasses cfg s (k, .getattr ino)) :
    Agree s (s.doGetattr cfg k ino) (t.doGetattr cfg.withoutCache k ino) := by
  have hti : t.inodes = s.inodes := by
    obtain ⟨dir, db, touches, rfl⟩ := ht
    rfl
  cases hp : s.inodes.getPath ino with
  | none =>
    simp only [doGetattr, hti, hp]
    exact ⟨ht, rfl, rfl, rfl, hu⟩
  | some path =>
    rw [doGetattr_of_path hp, doGetattr_of_path (hti ▸ hp)]
    obtain ⟨hattr, hdb⟩ := attr_bypassed .attr (by rw [attrPath, hp]; rfl) hok ht
    obtain ⟨dir, db, touches, rfl⟩ := ht
    exact ⟨⟨dir, _, _, rfl⟩, hattr, rfl, hdb, hu⟩

theorem Uncached.insert (hu : Uncached s) {fd : Nat} {o : Opened} {u : Fs}
    (hfds : u.fds = s.fds.insert fd o) (ho : ∀ file, o.file = some file → ∃ h, file = .backing h) :
    Uncached u := by
  intro fh o' file hl hfile
  rw [hfds, Map.lookup_insert_if] at hl
  split at hl
  · exact ho file (Option.some.inj hl ▸ hfile)
  · exact hu fh o' file hl hfile

/-- In passthrough mode only the backing is opened. -/
theorem tryOpen_passthrough (b : Backing) (dir : CacheDir) (db : CacheDb) (mount : MountId)
    (filtered : Bool) (p : RelPath) (now : Nat) :
    FsCache.tryOpen b dir db mount true filtered p now =
      (db, (b.openFile p).map fun h => (.backing h, if filtered then .filtered else .miss)) := by
  simp [FsCache.tryOpen]

theorem agree_open {ino flags : Nat} (hpass : cfg.passthroughMode = true) (hu : Uncached s)
    (ht : SameButCache s t) :
    Agree s (s.doOpen cfg k ino flags) (t.doOpen cfg.withoutCache k ino flags) := by
  have hpass' : cfg.withoutCache.passthroughMode = true := hpass
  obtain ⟨dir, db, touches, rfl⟩ := ht
  cases hp : s.inodes.getPath ino with
  | none =>
    simp only [doOpen, hp]
    exact ⟨⟨dir, db, touches, rfl⟩, rfl, rfl, rfl, hu⟩
  | some path =>
    simp only [doOpen, hp]
    split
    · simp only [openWriteHandle]
      cases (k.openFileWithFlags path flags 0).run.run s.disk with
      | mk result disk =>
        cases result with
        | error e => exact ⟨⟨dir, db, touches, rfl⟩, rfl, rfl, rfl, hu⟩
        | ok fd =>
          refine ⟨⟨dir, db, touches, rfl⟩, rfl, rfl, rfl, hu.insert rfl ?_⟩
          intro file hfile
          obtain ⟨h, -, rfl⟩ := Option.map_eq_some_iff.mp hfile
          exact ⟨h, rfl⟩
    · simp only [openForRead, tryOpen, hpass, hpass', Bool.true_or, tryOpen_passthrough]
      cases s.disk.backing.openFile path with
      | none => exact ⟨⟨dir, db, touches, rfl⟩, rfl, rfl, rfl, hu⟩
      | some h =>
        simp only [Option.map_some]
        cases k.openFails with
        | some e => exact ⟨⟨dir, db, touches, rfl⟩, rfl, rfl, rfl, hu⟩
        | none =>
          have hevent : engineEvent cfg k.filtered (if k.filtered then .filtered else .miss) = none := by
            cases hf : k.filtered <;> simp [engineEvent, hpass]
          have hevent' : engineEvent cfg.withoutCache k.filtered (if k.filtered then .filtered else .miss) =
              none := hevent
          simp only [hevent, hevent']
          refine ⟨⟨dir, db, touches, rfl⟩, rfl, rfl, rfl, hu.insert rfl ?_⟩
          intro file hfile
          exact ⟨h, (Option.some.inj hfile).symm⟩

/-- Descriptors of the backing are read alike. -/
theorem pread_same (hu : Uncached s) (ht : SameButCache s t) (fh offset size : Nat) :
    s.pread k fh offset size = t.pread k fh offset size := by
  obtain ⟨dir, db, touches, rfl⟩ := ht
  simp only [pread]
  cases k.preadFails with
  | some e => rfl
  | none =>
    cases hl : s.fds.lookup fh with
    | none => rfl
    | some o =>
      have hfile : (o.file.bind fun file => FsCache.doRead s.disk.backing s.dir file offset size) =
          o.file.bind fun file => FsCache.doRead s.disk.backing dir file offset size := by
        cases hf : o.file with
        | none => rfl
        | some file =>
          obtain ⟨h, rfl⟩ := hu fh o file hl hf
          cases h <;> rfl
      simp only [hfile]

theorem agree_read {fh offset size : Nat} (hu : Uncached s) (ht : SameButCache s t) :
    Agree s (s.doRead k fh offset size) (t.doRead k fh offset size) := by
  have hsame := pread_same (k := k) hu ht fh offset size
  simp only [doRead, ← hsame]
  obtain ⟨dir, db, touches, rfl⟩ := ht
  cases s.pread k fh offset size <;> exact ⟨⟨dir, db, touches, rfl⟩, rfl, rfl, rfl, hu⟩

theorem agree_release {fh : Nat} (hu : Uncached s) (ht : SameButCache s t) :
    Agree s (s.doRelease cfg fh) (t.doRelease cfg.withoutCache fh) := by
  obtain ⟨dir, db, touches, rfl⟩ := ht
  have hclosed : ∀ u : Fs, u.fds = s.fds.erase fh → Uncached u := by
    intro u hfds fh' o file hl hfile
    rw [hfds, Map.lookup_erase_if] at hl
    split at hl
    · exact absurd hl (by simp)
    · exact hu fh' o file hl hfile
  simp only [doRelease]
  cases s.writePaths.lookup fh with
  | some path => exact ⟨⟨dir, db, touches, rfl⟩, rfl, rfl, rfl, hclosed _ rfl⟩
  | none =>
    simp only
    cases s.openPaths.lookup fh with
    | none => exact ⟨⟨dir, db, touches, rfl⟩, rfl, rfl, rfl, hclosed _ rfl⟩
    | some path =>
      have htx : cfg.withoutCache.accessTx = cfg.accessTx := rfl
      simp only [send, htx]
      cases cfg.accessTx <;> exact ⟨⟨dir, db, touches, rfl⟩, rfl, rfl, rfl, hclosed _ rfl⟩

/-- A request that reads is handled alike. -/
theorem agree_handle (hpass : cfg.passthroughMode = true) (hu : Uncached s) (ht : SameButCache s t)
    (hreads : r.Reads) (hok : Bypasses cfg s (k, r)) :
    Agree s (s.handle cfg k r) (t.handle cfg.withoutCache k r) := by
  cases r with
  | lookup parent name => exact agree_lookup hu ht hok
  | getattr ino => exact agree_getattr hu ht hok
  | openFile ino flags => exact agree_open hpass hu ht
  | read fh offset size => exact agree_read hu ht
  | release fh => exact agree_release hu ht
  | outside disk =>
    obtain ⟨dir, db, touches, rfl⟩ := ht
    exact ⟨⟨dir, db, touches, rfl⟩, rfl, rfl, rfl, hu⟩
  | forget | readdir | mknod | mkdir | symlink | mutate => exact absurd hreads (by simp [FsRequest.Reads])

/-! ## Runs -/

theorem admitted_iff (ht : SameButCache s t) : t.Admitted k r ↔ s.Admitted k r := by
  obtain ⟨dir, db, touches, rfl⟩ := ht
  cases r with
  | mutate r => cases r <;> rfl
  | _ => rfl

/-- Both mounts on their way, and the cache as it was. -/
structure Abreast (cfg : FsConfig) (disk : Disk) (dir : CacheDir) (db : CacheDb)
    (rs : List (FsKernel × FsRequest)) (s : Fs) : Prop where
  other : ∃ t, run (step cfg.withoutCache) (start disk Files.empty ⟨∅, ∅⟩) rs = some t ∧ SameButCache s t
  uncached : Uncached s
  dir : s.dir = dir
  db : s.db = db

theorem abreast_run {disk : Disk} {dir : CacheDir} {db : CacheDb} {rs : List (FsKernel × FsRequest)}
    (hpass : cfg.passthroughMode = true) (hrun : run (step cfg) (start disk dir db) rs = some s)
    (hreads : ∀ x ∈ rs, x.2.Reads) (hok : Along (step cfg) (Bypasses cfg) (start disk dir db) rs) :
    Abreast cfg disk dir db rs s := by
  induction rs using List.reverseRecOn generalizing s with
  | nil =>
    obtain rfl := Option.some.inj hrun
    exact ⟨⟨_, rfl, Files.empty, ⟨∅, ∅⟩, [], rfl⟩, fun fh o file hl => absurd hl (by simp [start]), rfl, rfl⟩
  | append_singleton rs x ih =>
    obtain ⟨u, hu, hx⟩ := run_append.mp hrun
    obtain ⟨s', hs, he⟩ := run_cons.mp hx
    obtain rfl := Option.some.inj he
    obtain ⟨hoks, hokx⟩ := along_append hok hu
    have hab := ih hu (fun y hy => hreads y (List.mem_append_left _ hy)) hoks
    obtain ⟨t, hrt, ht⟩ := hab.other
    obtain ⟨k, r⟩ := x
    have hagree := agree_handle hpass hab.uncached ht (hreads (k, r) (by simp)) hokx.1
    obtain ⟨hsame, hreply, hdir, hdb, hun⟩ := hagree
    simp only [step] at hs
    split at hs
    · next hadm =>
      split at hs
      · exact absurd hs (by simp)
      · next u' reply hnopanic hhandle =>
        obtain rfl := Option.some.inj hs
        rw [hhandle] at hsame hreply hdir hdb hun
        refine ⟨⟨(t.handle cfg.withoutCache k r).1, run_append.mpr ⟨t, hrt, run_cons.mpr ⟨_, ?_, rfl⟩⟩, hsame⟩,
          hun, hdir.trans hab.dir, hdb.trans hab.db⟩
        simp only [step, if_pos ((admitted_iff ht).mpr hadm)]
        cases hth : t.handle cfg.withoutCache k r with
        | mk t' reply' =>
          rw [hth] at hreply
          obtain rfl : reply = reply' := hreply
          cases reply with
          | panic => exact absurd rfl hnopanic
          | ok x => rfl
          | error e => rfl
    · exact absurd hs (by simp)

/-- In passthrough mode, as long as what is cached has the backing's attributes: every request
that reads is answered as without a cache, and the cache is as it was. -/
theorem passthrough_is_no_cache (cfg : FsConfig) (hpass : cfg.passthroughMode = true) (disk : Disk)
    (dir : CacheDir) (db : CacheDb) (rs : List (FsKernel × FsRequest)) (k : FsKernel) (r : FsRequest)
    (s : Fs) (hrun : run (step cfg) (start disk dir db) rs = some s)
    (hreads : ∀ x ∈ rs ++ [(k, r)], x.2.Reads)
    (hok : Along (step cfg) (Bypasses cfg) (start disk dir db) (rs ++ [(k, r)])) :
    ∃ t, run (step cfg.withoutCache) (start disk Files.empty ⟨∅, ∅⟩) rs = some t ∧
      (s.handle cfg k r).2 = (t.handle cfg.withoutCache k r).2 ∧
      (s.handle cfg k r).1.dir = dir ∧ (s.handle cfg k r).1.db = db := by
  obtain ⟨hoks, hokr⟩ := along_append hok hrun
  have hab := abreast_run hpass hrun (fun y hy => hreads y (List.mem_append_left _ hy)) hoks
  obtain ⟨t, hrt, ht⟩ := hab.other
  obtain ⟨-, hreply, hdir, hdb, -⟩ :=
    agree_handle hpass hab.uncached ht (hreads (k, r) (by simp)) hokr.1
  exact ⟨t, hrt, hreply, hdir.trans hab.dir, hdb.trans hab.db⟩

section Stale

private def single : Name := ⟨[115, 105], Eq.refl true⟩

def bypassConfig : FsConfig := { albumConfig with passthroughMode := true }

/-- A file of the root that the backing no longer has. -/
def singleCached : CacheDir × CacheDb :=
  (match Files.openTrunc Files.empty [single] with
    | some (dir, _) => dir
    | none => Files.empty,
   CacheDb.markCached ⟨∅, ∅⟩ [single] [109] (SourceMetadata.fromStat (BFile.of [82] 1 (by decide)).stat) 9)

/-- What is not cached is looked up and opened as without a cache. -/
theorem album_passes : ∃ s t,
    run (step bypassConfig) (start albumDisk singleCached.1 singleCached.2)
      [(.readOnly 3, .lookup rootIno albumName)] = some s ∧
    run (step bypassConfig.withoutCache) (start albumDisk Files.empty ⟨∅, ∅⟩)
      [(.readOnly 3, .lookup rootIno albumName)] = some t ∧
    (s.handle bypassConfig (.readOnly 3) (.openFile 2 0)).2 =
      (t.handle bypassConfig.withoutCache (.readOnly 3) (.openFile 2 0)).2 := by
  have hok : Along (step bypassConfig) (Bypasses bypassConfig)
      (start albumDisk singleCached.1 singleCached.2)
      ([(.readOnly 3, .lookup rootIno albumName)] ++ [(.readOnly 3, .openFile 2 0)]) := by
    refine ⟨fun path ino hp _ hc => ?_, fun s' _ => ⟨fun path ino hp => absurd hp (by simp [attrPath]), ?_⟩⟩
    · obtain ⟨rfl, -⟩ := Prod.mk.inj (Option.some.inj hp)
      exact absurd hc (by decide)
    · exact fun _ _ => trivial
  obtain ⟨t, ht, hreply, -⟩ := passthrough_is_no_cache bypassConfig rfl albumDisk singleCached.1 singleCached.2
    [(.readOnly 3, .lookup rootIno albumName)] (.readOnly 3) (.openFile 2 0) _ rfl
    (by simp [FsRequest.Reads]) hok
  exact ⟨_, t, rfl, ht, hreply⟩

/-- In passthrough mode the file is there, and without a cache it is not. -/
theorem stale_in_passthrough :
    (∃ attr, ((start albumDisk singleCached.1 singleCached.2).handle bypassConfig (.readOnly 3)
      (.lookup rootIno single)).2 = .ok (.plain (.entry attr))) ∧
    ((start albumDisk Files.empty ⟨∅, ∅⟩).handle bypassConfig.withoutCache (.readOnly 3)
      (.lookup rootIno single)).2 = .error ENOENT :=
  ⟨⟨_, rfl⟩, rfl⟩

end Stale

end Fs

end FsCache
