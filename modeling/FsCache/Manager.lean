import FsCache.Lib.Files
import FsCache.Backing

/- The cache manager (cache/manager.rs), and the two walks over the cache
   directory it starts with (cache/db.rs, utils.rs).

   A mount's cache directory is a tree of files; every byte in it carries the
   number of the copy that wrote it, which nothing in the daemon reads. 0 stands
   for bytes no copy of these runs has written. `is_stale` and its callers take
   the outcome of the backing stat as an argument, since that is where the
   backing comes in.

   `refresh_source_metadata` is two queries and a statement, each under its own
   database lock: `refreshStep` is one of the three.

   The size, expiry and capacity rules of eviction are left out; what an eviction
   does to one file is `removeFile` and `CacheDb.remove`.

   Correspondence (Rust ↔ Lean):
     `cache_path`, `is_cached`                  ↔ a path of `CacheDir`, `isCached`
     `is_stale`, `is_stale_with_fingerprint`    ↔ `isStale`, `isStaleWithFingerprint`
     `refresh_source_metadata`                  ↔ `refreshStep`, `refreshSourceMetadata`
     `drop_stale`, `backfill_fingerprint`       ↔ `dropStale`, `backfillFingerprint`
     `content_matches`                          ↔ `contentMatches`
     `reconcile_with_disk`, `remove_partials`   ↔ `reconcileWithDisk`, `removePartials`
     `collect_cache_files`, `is_non_media_file` ↔ `collectCacheFiles`, `isNonMediaFile` -/

namespace FsCache
open Lib

/-- A byte of a cache file, with the copy that wrote it. -/
structure CacheByte where
  val : UInt8
  writer : Nat
  deriving DecidableEq

abbrev CacheDir := Files Name CacheByte

/-- What a copy writes. -/
def written (task : Nat) (bs : List UInt8) : List CacheByte := bs.map fun b => ⟨b, task⟩

/-- What a gap in a file reads as. -/
def zeroByte : CacheByte := ⟨0, 0⟩

/-- A copy that goes on where it was. -/
theorem data_written_end {dir : CacheDir} {i task : Nat} {bs chunk : List UInt8}
    (h : dir.data i = written task bs) :
    (dir.writeAt zeroByte i bs.length (written task chunk)).data i = written task (bs ++ chunk) := by
  have hlen : bs.length = (dir.data i).length := by rw [h, written, List.length_map]
  rw [Files.data_writeAt_end hlen, h, written, written, written, List.map_append]

/-- The bytes a reader of the cache file at `p` gets. -/
def CacheDir.bytesAt (dir : CacheDir) (p : RelPath) : Option (List UInt8) :=
  (dir.contents p).map fun bs => bs.map CacheByte.val

theorem map_val_written (task : Nat) (bs : List UInt8) :
    (written task bs).map CacheByte.val = bs := by
  simp [written, Function.comp_def]

theorem CacheDir.bytesAt_written {dir : CacheDir} {p : RelPath} {task : Nat} {bs : List UInt8}
    (h : dir.contents p = some (written task bs)) : dir.bytesAt p = some bs := by
  rw [CacheDir.bytesAt, h, Option.map_some, map_val_written]

/-- Fast path: filesystem existence check. A directory exists, too. -/
def isCached (dir : CacheDir) (relPath : RelPath) : Bool :=
  (dir.lookup relPath).isSome && extension relPath != some partialExt

/-- Result of a staleness check against the backing store. -/
inductive StaleResult where
  | fresh (live : Stat)
  | stale
  | backingGone
  | notTracked
  | needsBackfill (live : Stat)
  deriving DecidableEq

def contentMatches (fp : Fingerprint) (live : Stat) : Bool :=
  fp.sourceMtimeSecs == live.stMtime && fp.sourceMtimeNsecs == live.stMtimeNsec &&
    fp.sizeBytes == asU64 live.stSize

/-- `live` is what `BackingStore::stat` answered. -/
def isStaleWithFingerprint (live : Option Stat) (fp : Fingerprint) : StaleResult :=
  match live with
  | none => .backingGone
  | some live =>
    if fp.isZero then .needsBackfill live
    else if contentMatches fp live then .fresh live
    else .stale

def isStale (db : CacheDb) (mount : MountId) (relPath : RelPath) (live : Option Stat) :
    StaleResult :=
  match db.fingerprintRow relPath mount with
  | some fp => isStaleWithFingerprint live fp
  | none => .notTracked

/-- Where a `refresh_source_metadata` stands. -/
inductive RefreshPc where
  | readFingerprint (live : Stat)
  | readAttrs (live : Stat)
  | update (live : Stat)
  deriving DecidableEq

/-- One statement of `refresh_source_metadata`; `none`: it has returned. -/
def refreshStep (db : CacheDb) (mount : MountId) (relPath : RelPath) :
    RefreshPc → CacheDb × Option RefreshPc
  | .readFingerprint live =>
    match db.fingerprintRow relPath mount with
    | none => (db, none)
    | some fp =>
      if fp.isZero then (db, none)
      else if !contentMatches fp live then (db, none)
      else (db, some (.readAttrs live))
  | .readAttrs live =>
    match db.sourceMetadataRow relPath mount with
    | none => (db, some (.update live))
    | some stored =>
      if stored.attrsMatch (SourceMetadata.fromStat live) then (db, none)
      else (db, some (.update live))
  | .update live => (db.updateSourceMetadata relPath mount (SourceMetadata.fromStat live), none)

/-- What one statement of `refresh_source_metadata` can do. -/
inductive RefreshMove (db : CacheDb) (mount : MountId) (relPath : RelPath) :
    RefreshPc → CacheDb → Option RefreshPc → Prop
  | stop (pc : RefreshPc) : RefreshMove db mount relPath pc db none
  | agree {live : Stat} {fp : Fingerprint} (hfp : db.fingerprintRow relPath mount = some fp)
      (hzero : fp.isZero = false) (h : contentMatches fp live = true) :
      RefreshMove db mount relPath (.readFingerprint live) db (some (.readAttrs live))
  | differs (live : Stat) : RefreshMove db mount relPath (.readAttrs live) db (some (.update live))
  | update (live : Stat) :
      RefreshMove db mount relPath (.update live)
        (db.updateSourceMetadata relPath mount (SourceMetadata.fromStat live)) none

theorem refreshMove_of_step {db db' : CacheDb} {mount : MountId} {relPath : RelPath}
    {pc : RefreshPc} {next : Option RefreshPc} (h : refreshStep db mount relPath pc = (db', next)) :
    RefreshMove db mount relPath pc db' next := by
  cases pc with
  | readFingerprint live =>
    simp only [refreshStep] at h
    split at h
    · obtain ⟨rfl, rfl⟩ := Prod.mk.inj h
      exact .stop _
    · next fp hfp =>
      by_cases hz : fp.isZero = true
      · rw [if_pos hz] at h
        obtain ⟨rfl, rfl⟩ := Prod.mk.inj h
        exact .stop _
      · rw [if_neg hz] at h
        by_cases hc : contentMatches fp live = true
        · rw [hc] at h
          obtain ⟨rfl, rfl⟩ := Prod.mk.inj h
          exact .agree hfp (by simpa using hz) hc
        · rw [if_pos (by simpa using hc)] at h
          obtain ⟨rfl, rfl⟩ := Prod.mk.inj h
          exact .stop _
  | readAttrs live =>
    simp only [refreshStep] at h
    split at h
    · obtain ⟨rfl, rfl⟩ := Prod.mk.inj h
      exact .differs live
    · split at h
      · obtain ⟨rfl, rfl⟩ := Prod.mk.inj h
        exact .stop _
      · obtain ⟨rfl, rfl⟩ := Prod.mk.inj h
        exact .differs live
  | update live =>
    obtain ⟨rfl, rfl⟩ := Prod.mk.inj h
    exact .update live

/-- The three statements, with nothing in between. -/
def refreshSourceMetadata (db : CacheDb) (mount : MountId) (relPath : RelPath) (live : Stat) :
    CacheDb :=
  match refreshStep db mount relPath (.readFingerprint live) with
  | (db, none) => db
  | (db, some pc) =>
    match refreshStep db mount relPath pc with
    | (db, none) => db
    | (db, some pc) => (refreshStep db mount relPath pc).1

/-- `std::fs::remove_file`, its error ignored. -/
def removeFile (dir : CacheDir) (relPath : RelPath) : CacheDir := (dir.remove relPath).getD dir

def dropStale (dir : CacheDir) (db : CacheDb) (mount : MountId) (relPath : RelPath) :
    CacheDir × CacheDb :=
  (removeFile dir relPath, db.remove relPath mount)

def backfillFingerprint (db : CacheDb) (mount : MountId) (relPath : RelPath) (st : Stat)
    (now : Nat) : CacheDb :=
  db.markCached relPath mount (SourceMetadata.fromStat st) now

/-! ## Startup -/

def dotDb : List UInt8 := [46, 100, 98]
def dotDbWal : List UInt8 := [46, 100, 98, 45, 119, 97, 108]
def dotDbShm : List UInt8 := [46, 100, 98, 45, 115, 104, 109]

/-- Files that are excluded from cache accounting. A name that is not UTF-8 has
no `to_str`, and is not. -/
def isNonMediaFile (p : RelPath) : Bool :=
  match p.getLast? with
  | none => false
  | some n =>
    decide (IsUtf8 [n]) &&
      (dotPartial.isSuffixOf n.bytes || dotDb.isSuffixOf n.bytes || dotDbWal.isSuffixOf n.bytes ||
        dotDbShm.isSuffixOf n.bytes)

def isPartial (p : RelPath) : Bool := extension p == some partialExt

/-- The names of the directory's regular files. -/
def filesOf (dir : CacheDir) : List RelPath := dir.node.keys.filter fun p => (dir.fileAt p).isSome

def removePartials (dir : CacheDir) : CacheDir :=
  ((filesOf dir).filter isPartial).foldl removeFile dir

def collectCacheFiles (dir : CacheDir) : List RelPath :=
  (filesOf dir).filter fun p => !isNonMediaFile p

/-- Step 2: remove rows whose files no longer exist on disk. -/
def removeOrphans (dir : CacheDir) (db : CacheDb) (mount : MountId) : CacheDb :=
  { db with
    cacheFiles := (db.cacheFiles.keys.filter fun k =>
      k.2 = mount ∧ (dir.lookup (pathOfKey k.1)).isNone).foldl (fun m k => m.erase k) db.cacheFiles }

/-- Step 3: insert a row for a file that has none. -/
def insertRecovered (dir : CacheDir) (mount : MountId) (now : Nat) (db : CacheDb) (p : RelPath) :
    CacheDb :=
  match db.row p mount with
  | some _ => db
  | none =>
    let size := ((dir.contents p).map List.length).getD 0
    { db with cacheFiles := db.cacheFiles.insert (rowKey p, mount) (Row.recovered size now) }

def reconcileWithDisk (dir : CacheDir) (db : CacheDb) (mount : MountId) (now : Nat) :
    CacheDir × CacheDb :=
  let dir := removePartials dir
  let db := removeOrphans dir db mount
  (dir, (collectCacheFiles dir).foldl (insertRecovered dir mount now) db)

/-! ## The staleness test -/

theorem contentMatches_iff {fp : Fingerprint} {live : Stat} (h0 : 0 ≤ live.stSize)
    (h : live.stSize < 2^63) : contentMatches fp live = true ↔ fp.version = live.version := by
  simp only [contentMatches, Bool.and_eq_true, beq_iff_eq, Fingerprint.version, Stat.version,
    Version.mk.injEq, asU64_of_nonneg h0 h]
  constructor
  · rintro ⟨⟨h₁, h₂⟩, h₃⟩
    exact ⟨h₁, h₂, by rw [h₃, Int.toNat_of_nonneg h0]⟩
  · rintro ⟨h₁, h₂, h₃⟩
    exact ⟨⟨h₁, h₂⟩, by rw [← h₃, Int.toNat_natCast]⟩

theorem isStaleWithFingerprint_fresh_iff {live : Option Stat} {fp : Fingerprint} {st : Stat} :
    isStaleWithFingerprint live fp = .fresh st ↔
      live = some st ∧ fp.isZero = false ∧ contentMatches fp st = true := by
  cases live with
  | none => simp [isStaleWithFingerprint]
  | some l =>
    rw [isStaleWithFingerprint, Option.some.injEq]
    by_cases hz : fp.isZero = true
    · simp [hz]
    · rw [if_neg hz]
      by_cases hm : contentMatches fp l = true
      · rw [if_pos hm, StaleResult.fresh.injEq]
        constructor
        · rintro rfl
          exact ⟨rfl, by simpa using hz, hm⟩
        · exact fun h => h.1
      · rw [if_neg hm]
        constructor
        · intro e; exact absurd e (by simp)
        · rintro ⟨rfl, -, hc⟩; exact absurd hc hm

/-! ## Cached paths -/

theorem isCached_of_fileAt {dir : CacheDir} {p : RelPath} {i : Nat} (h : dir.fileAt p = some i)
    (hp : extension p ≠ some partialExt) : isCached dir p = true := by
  simpa [isCached, Files.fileAt_eq_some.mp h] using hp

theorem extension_of_cached {dir : CacheDir} {p : RelPath} (h : isCached dir p = true) :
    extension p ≠ some partialExt := by
  simp only [isCached, Bool.and_eq_true, bne_iff_ne] at h
  exact h.2

/-! ## Files after a removal -/

theorem fileAt_removeFile (dir : CacheDir) (p q : RelPath) :
    (removeFile dir p).fileAt q = if q = p then none else dir.fileAt q := by
  unfold removeFile
  cases h : dir.remove p with
  | some dir' => exact Files.fileAt_remove h q
  | none =>
    simp only [Option.getD_none]
    split
    · next hq =>
      subst hq
      unfold Files.remove at h
      split at h
      · assumption
      · exact absurd h (by simp)
    · rfl

@[simp] theorem data_removeFile (dir : CacheDir) (p : RelPath) :
    (removeFile dir p).data = dir.data := by
  unfold removeFile
  cases h : dir.remove p with
  | some dir' => exact (Files.remove_spec h).1
  | none => rfl

@[simp] theorem next_removeFile (dir : CacheDir) (p : RelPath) :
    (removeFile dir p).next = dir.next := by
  unfold removeFile
  cases h : dir.remove p with
  | some dir' => exact (Files.remove_spec h).2.1
  | none => rfl

theorem lookup_removeFile_of_ne (dir : CacheDir) {p q : RelPath} (h : q ≠ p) :
    (removeFile dir p).lookup q = dir.lookup q := by
  unfold removeFile
  cases hr : dir.remove p with
  | some dir' => exact ((Files.remove_spec hr).2.2 q).trans (if_neg h)
  | none => rfl

/-- Removing a list of names. -/
theorem foldl_removeFile (l : List RelPath) (dir : CacheDir) :
    (l.foldl removeFile dir).data = dir.data ∧ (l.foldl removeFile dir).next = dir.next ∧
      ∀ q, (l.foldl removeFile dir).fileAt q = if q ∈ l then none else dir.fileAt q := by
  induction l generalizing dir with
  | nil => simp
  | cons p l ih =>
    obtain ⟨hdata, hnext, hfile⟩ := ih (removeFile dir p)
    refine ⟨by simpa using hdata, by simpa using hnext, fun q => ?_⟩
    rw [List.foldl_cons, hfile, fileAt_removeFile]
    by_cases hl : q ∈ l
    · simp [hl]
    · by_cases hq : q = p <;> simp [hl, hq]

theorem mem_filesOf {dir : CacheDir} {p : RelPath} : p ∈ filesOf dir ↔ ∃ i, dir.fileAt p = some i := by
  rw [filesOf, List.mem_filter, Map.mem_keys_iff, Option.isSome_iff_exists]
  refine ⟨fun h => h.2, fun ⟨i, hi⟩ => ⟨⟨_, (Files.node_of_fileAt hi).2⟩, i, hi⟩⟩

/-- A startup leaves no temporary file, and every other file as it was. -/
theorem fileAt_removePartials (dir : CacheDir) (q : RelPath) :
    (removePartials dir).fileAt q = if isPartial q then none else dir.fileAt q := by
  rw [removePartials, (foldl_removeFile _ dir).2.2 q]
  by_cases hp : isPartial q = true
  · rw [if_pos hp]
    split
    · rfl
    · next hm =>
      by_contra hc
      exact hm (List.mem_filter.mpr ⟨mem_filesOf.mpr (Option.ne_none_iff_exists'.mp hc), hp⟩)
  · rw [if_neg hp, if_neg fun hm => hp (List.mem_filter.mp hm).2]

theorem lookup_removePartials (dir : CacheDir) {q : RelPath} (hq : isPartial q = false) :
    (removePartials dir).lookup q = dir.lookup q := by
  have hall : ∀ (l : List RelPath) (dir : CacheDir), (∀ p ∈ l, isPartial p = true) →
      (l.foldl removeFile dir).lookup q = dir.lookup q := by
    intro l
    induction l with
    | nil => exact fun _ _ => rfl
    | cons p l ih =>
      intro dir hl
      rw [List.foldl_cons, ih _ fun x hx => hl x (List.mem_cons_of_mem p hx)]
      refine lookup_removeFile_of_ne dir ?_
      rintro rfl
      exact absurd (hl q List.mem_cons_self) (by simp [hq])
  exact hall _ dir fun p hp => (List.mem_filter.mp hp).2

theorem contents_removePartials (dir : CacheDir) (q : RelPath) :
    (removePartials dir).contents q = if isPartial q then none else dir.contents q := by
  have hdata : (removePartials dir).data = dir.data := (foldl_removeFile _ dir).1
  rw [Files.contents, fileAt_removePartials, hdata]
  split <;> rfl

/-! ## Rows after a startup -/

theorem row_removeOrphans (dir : CacheDir) (db : CacheDb) (mount : MountId) (p : RelPath) :
    (removeOrphans dir db mount).row p mount =
      if (dir.lookup (pathOfKey (rowKey p))).isNone then none else db.row p mount := by
  rw [CacheDb.row, removeOrphans, Map.lookup_foldl_erase, ← CacheDb.row]
  split
  · next hm =>
    have := (List.mem_filter.mp hm).2
    simp only [decide_eq_true_eq] at this
    rw [if_pos this.2]
  · next hm =>
    split
    · next hn =>
      by_contra hc
      obtain ⟨r, hr⟩ := Option.ne_none_iff_exists'.mp hc
      refine hm (List.mem_filter.mpr ⟨Map.mem_keys_iff.mpr ⟨r, hr⟩, ?_⟩)
      simpa using hn
    · rfl

/-- A startup inserts rows, with every source column at its default, and
changes none that is there. -/
theorem row_insertRecovered (dir : CacheDir) (mount : MountId) (now : Nat) (db : CacheDb)
    (p q : RelPath) :
    (insertRecovered dir mount now db p).row q mount = db.row q mount ∨
      ∃ size, db.row q mount = none ∧ rowKey q = rowKey p ∧
        (insertRecovered dir mount now db p).row q mount = some (Row.recovered size now) := by
  unfold insertRecovered
  cases h : db.row p mount with
  | some r => exact .inl rfl
  | none =>
    by_cases hq : rowKey q = rowKey p
    · refine .inr ⟨((dir.contents p).map List.length).getD 0, ?_, hq, ?_⟩
      · rw [CacheDb.row, hq, ← CacheDb.row, h]
      · simp only [CacheDb.row, Map.lookup_insert_if, hq, if_true]
    · left
      simp only [CacheDb.row, Map.lookup_insert_if, Prod.mk.injEq, and_true, if_neg hq]

theorem row_foldl_insertRecovered (dir : CacheDir) (mount : MountId) (now : Nat) (l : List RelPath)
    (db : CacheDb) (q : RelPath) :
    (l.foldl (insertRecovered dir mount now) db).row q mount = db.row q mount ∨
      ∃ size, db.row q mount = none ∧
        (l.foldl (insertRecovered dir mount now) db).row q mount = some (Row.recovered size now) := by
  induction l generalizing db with
  | nil => exact .inl rfl
  | cons p l ih =>
    rw [List.foldl_cons]
    rcases row_insertRecovered dir mount now db p q with h | ⟨size, hnone, -, h⟩
    · rw [← h]
      exact ih _
    · rcases ih (insertRecovered dir mount now db p) with h' | ⟨s, hn, -⟩
      · exact .inr ⟨size, hnone, h'.trans h⟩
      · rw [h] at hn
        exact absurd hn (by simp)

/-- After a startup a row is one that was there before, or a recovered one. -/
theorem row_reconcileWithDisk (dir : CacheDir) (db : CacheDb) (mount : MountId) (now : Nat)
    {p : RelPath} {r : Row} (h : (reconcileWithDisk dir db mount now).2.row p mount = some r) :
    db.row p mount = some r ∨ ∃ size, r = Row.recovered size now := by
  rcases row_foldl_insertRecovered (removePartials dir) mount now
    (collectCacheFiles (removePartials dir)) (removeOrphans (removePartials dir) db mount) p with
    hs | ⟨size, -, hs⟩
  · left
    rw [reconcileWithDisk, hs, row_removeOrphans] at h
    split at h
    · exact absurd h (by simp)
    · exact h
  · right
    rw [reconcileWithDisk, hs] at h
    exact ⟨size, (Option.some.inj h).symm⟩

end FsCache
