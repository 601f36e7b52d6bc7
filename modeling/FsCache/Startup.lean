import FsCache.Agreement
import FsCache.EvictPass

/- What a startup leaves of a cache directory and of the rows of its mount
   (`reconcile_with_disk`, `startup_cleanup`).

   Three passes go over the directory or the table: `remove_partials` by the extension of a
   name, the purge by whether a path exists, and the recovery by `is_non_media_file`.

     1. `reconciled`: what the three come to, and that a second startup finds nothing to do.
     2. `inAccounts_of_cached`: a file that is served after it, and whose name is not one of
        those that are left out of accounting, has its row; and if the name is UTF-8 the file
        is in the sum, among the eviction candidates and among what is validated.

   `thumbnails_unaccounted`: a `.db` file that is served has no row, and a name that is not
   UTF-8 has one that leads to another path.

   Given for the first: the names of the directory are UTF-8, and the keys of the table are
   those of paths.

   Correspondence (Rust ↔ Lean):
     `remove_partials`, `collect_cache_files`        ↔ `removePartials`, `collectCacheFiles`
     `CacheDb::reconcile_with_disk`, `startup_cleanup` ↔ `reconcileWithDisk`
     `is_cached`, `is_non_media_file`                ↔ `isCached`, `isNonMediaFile`
     `submit_maintenance_validation`                 ↔ `CacheDb.allFingerprints` -/

namespace FsCache
open Lib Evictors

/-- What a startup leaves. -/
structure Reconciled (dir : CacheDir) (db : CacheDb) (mount : MountId) (now : Nat) (dir' : CacheDir)
    (db' : CacheDb) : Prop where
  noPartial : ∀ p, (dir'.fileAt p).isSome = true → extension p ≠ some partialExt
  otherFiles : ∀ p, extension p ≠ some partialExt →
    dir'.lookup p = dir.lookup p ∧ dir'.contents p = dir.contents p
  named : ∀ key row, db'.cacheFiles.lookup (key, mount) = some row →
    (dir'.lookup (pathOfKey key)).isSome = true
  oneRow : ∀ p, (dir'.fileAt p).isSome = true → isNonMediaFile p = false →
    ∃! key, (db'.cacheFiles.lookup (key, mount)).isSome = true ∧ pathOfKey key = p
  kept : ∀ key row, db.cacheFiles.lookup (key, mount) = some row →
    (dir'.lookup (pathOfKey key)).isSome = true → db'.cacheFiles.lookup (key, mount) = some row
  new : ∀ key row, db'.cacheFiles.lookup (key, mount) = some row →
    db.cacheFiles.lookup (key, mount) = some row ∨
      ∃ bs, dir'.contents (pathOfKey key) = some bs ∧ row = Row.recovered bs.length now ∧
        (bs.length < 2^63 → row.sizeBytes = bs.length) ∧ row.fingerprint.isZero = true
  others : ∀ key m, m ≠ mount → db'.cacheFiles.lookup (key, m) = db.cacheFiles.lookup (key, m)
  again : ∀ now', reconcileWithDisk dir' db' mount now' = (dir', db')

section Rows

variable {dir : CacheDir} {db : CacheDb} {mount m : MountId} {now : Nat} {p q : RelPath}

/-! ## The rows of a startup -/

theorem keyed_removeOrphans (hk : Keyed db) : Keyed (removeOrphans dir db mount) := by
  intro key row hrow
  rw [removeOrphans, Map.lookup_foldl_erase] at hrow
  split at hrow
  · cases hrow
  · exact hk key row hrow

theorem lookup_removeOrphans_of_ne (h : m ≠ mount) (key : RowKey) :
    (removeOrphans dir db mount).cacheFiles.lookup (key, m) = db.cacheFiles.lookup (key, m) := by
  rw [removeOrphans, Map.lookup_foldl_erase, if_neg]
  intro hmem
  exact h (of_decide_eq_true (List.mem_filter.mp hmem).2).1

theorem lookup_insertRecovered (key : RowKey) :
    (insertRecovered dir mount now db p).cacheFiles.lookup (key, m) =
      if key = rowKey p ∧ m = mount ∧ db.row p mount = none then
        some (Row.recovered (((dir.contents p).map List.length).getD 0) now)
      else db.cacheFiles.lookup (key, m) := by
  unfold insertRecovered
  cases hrow : db.row p mount with
  | some row => simp
  | none => simp [Map.lookup_insert_if]

/-- A row that is there stays. -/
theorem lookup_insertRecovered_of_some {key : RowKey} {row : Row}
    (h : db.cacheFiles.lookup (key, m) = some row) :
    (insertRecovered dir mount now db p).cacheFiles.lookup (key, m) = some row := by
  rw [lookup_insertRecovered, if_neg, h]
  intro hnew
  obtain ⟨rfl, rfl, hnone⟩ := hnew
  cases hnone.symm.trans h

theorem lookup_foldl_insertRecovered_of_some {key : RowKey} {row : Row} (l : List RelPath) {db : CacheDb}
    (h : db.cacheFiles.lookup (key, m) = some row) :
    (l.foldl (insertRecovered dir mount now) db).cacheFiles.lookup (key, m) = some row := by
  induction l generalizing db with
  | nil => exact h
  | cons p l ih => exact ih (lookup_insertRecovered_of_some h)

/-- A row that is not there before it is that of a file. -/
theorem lookup_foldl_insertRecovered {key : RowKey} {row : Row} (l : List RelPath) (db : CacheDb)
    (h : (l.foldl (insertRecovered dir mount now) db).cacheFiles.lookup (key, m) = some row) :
    db.cacheFiles.lookup (key, m) = some row ∨
      m = mount ∧ ∃ p ∈ l, key = rowKey p ∧
        row = Row.recovered (((dir.contents p).map List.length).getD 0) now := by
  induction l generalizing db with
  | nil => exact .inl h
  | cons p l ih =>
    obtain hold | ⟨hm, q, hq, hkey, hrow⟩ := ih _ h
    · rw [lookup_insertRecovered] at hold
      split at hold
      · next hnew => exact .inr ⟨hnew.2.1, p, List.mem_cons_self, hnew.1, (Option.some.inj hold).symm⟩
      · exact .inl hold
    · exact .inr ⟨hm, q, List.mem_cons_of_mem p hq, hkey, hrow⟩

theorem lookup_foldl_insertRecovered_of_ne (hm : m ≠ mount) (key : RowKey) (l : List RelPath) (db : CacheDb) :
    (l.foldl (insertRecovered dir mount now) db).cacheFiles.lookup (key, m) =
      db.cacheFiles.lookup (key, m) := by
  induction l generalizing db with
  | nil => rfl
  | cons p l ih =>
    rw [List.foldl_cons, ih, lookup_insertRecovered, if_neg]
    exact fun hnew => hm hnew.2.1

theorem foldl_insertRecovered_eq_self (l : List RelPath) (h : ∀ p ∈ l, (db.row p mount).isSome = true) :
    l.foldl (insertRecovered dir mount now) db = db := by
  induction l with
  | nil => rfl
  | cons p l ih =>
    have hsame : insertRecovered dir mount now db p = db := by
      obtain ⟨row, hrow⟩ := Option.isSome_iff_exists.mp (h p List.mem_cons_self)
      rw [insertRecovered, hrow]
    rw [List.foldl_cons, hsame]
    exact ih fun q hq => h q (List.mem_cons_of_mem p hq)

theorem removePartials_eq_self (h : ∀ p, (dir.fileAt p).isSome = true → extension p ≠ some partialExt) :
    removePartials dir = dir := by
  have hnone : (filesOf dir).filter isPartial = [] := by
    refine List.filter_eq_nil_iff.mpr fun p hp => ?_
    obtain ⟨i, hi⟩ := mem_filesOf.mp hp
    rw [isPartial, beq_iff_eq]
    exact h p (by rw [hi]; rfl)
  rw [removePartials, hnone, List.foldl_nil]

theorem removeOrphans_eq_self (h : ∀ key row, db.cacheFiles.lookup (key, mount) = some row →
    (dir.lookup (pathOfKey key)).isSome = true) : removeOrphans dir db mount = db := by
  have hnone : (db.cacheFiles.keys.filter fun k =>
      k.2 = mount ∧ (dir.lookup (pathOfKey k.1)).isNone) = [] := by
    refine List.filter_eq_nil_iff.mpr fun k hk => ?_
    obtain ⟨row, hrow⟩ := Map.mem_keys_iff.mp hk
    obtain ⟨key, m⟩ := k
    rw [decide_eq_true_eq]
    intro horphan
    obtain ⟨rfl, hgone⟩ := horphan
    have hthere := h key row hrow
    rw [Option.isNone_iff_eq_none.mp hgone] at hthere
    cases hthere
  rw [removeOrphans, hnone, List.foldl_nil]

theorem fileAt_of_removePartials {i : Nat} (h : (removePartials dir).fileAt p = some i) :
    isPartial p = false ∧ dir.fileAt p = some i := by
  rw [fileAt_removePartials] at h
  split at h
  · cases h
  · next hp => exact ⟨Bool.eq_false_iff.mpr hp, h⟩

theorem mem_collectCacheFiles :
    p ∈ collectCacheFiles dir ↔ (∃ i, dir.fileAt p = some i) ∧ isNonMediaFile p = false := by
  rw [collectCacheFiles, List.mem_filter, mem_filesOf, Bool.not_eq_true']

/-- A file that is not left out has its row. -/
theorem row_of_file (hfile : ((reconcileWithDisk dir db mount now).1.fileAt p).isSome = true)
    (hmedia : isNonMediaFile p = false) :
    ((reconcileWithDisk dir db mount now).2.row p mount).isSome = true := by
  rw [reconcileWithDisk, row_isSome_foldl_insertRecovered]
  exact .inr ⟨p, mem_collectCacheFiles.mpr ⟨Option.isSome_iff_exists.mp hfile, hmedia⟩, rfl⟩

theorem named_reconcile (hutf8 : ∀ p ∈ filesOf dir, IsUtf8 p) {key : RowKey} {row : Row}
    (h : (reconcileWithDisk dir db mount now).2.cacheFiles.lookup (key, mount) = some row) :
    ((removePartials dir).lookup (pathOfKey key)).isSome = true := by
  obtain hold | ⟨-, p, hp, rfl, -⟩ := lookup_foldl_insertRecovered _ _ h
  · rw [removeOrphans, Map.lookup_foldl_erase] at hold
    split at hold
    · cases hold
    · next hkept =>
      by_contra hgone
      refine hkept (List.mem_filter.mpr ⟨Map.mem_keys_iff.mpr ⟨row, hold⟩, decide_eq_true ⟨rfl, ?_⟩⟩)
      simpa using hgone
  · obtain ⟨⟨i, hi⟩, -⟩ := mem_collectCacheFiles.mp hp
    rw [pathOfKey_rowKey (hutf8 p (mem_filesOf.mpr ⟨i, (fileAt_of_removePartials hi).2⟩)),
      Files.fileAt_eq_some.mp hi]
    rfl

theorem keyed_reconcile (hk : Keyed db) : Keyed (reconcileWithDisk dir db mount now).2 := by
  intro key row h
  obtain ⟨key, m⟩ := key
  obtain hold | ⟨-, p, -, rfl, -⟩ := lookup_foldl_insertRecovered _ _ h
  · exact keyed_removeOrphans hk (key, m) row hold
  · exact ⟨p, rfl⟩

/-- One startup, and another one after it. -/
theorem reconciled (dir : CacheDir) (db : CacheDb) (mount : MountId) (now : Nat) (hk : Keyed db)
    (hutf8 : ∀ p ∈ filesOf dir, IsUtf8 p) :
    Reconciled dir db mount now (reconcileWithDisk dir db mount now).1
      (reconcileWithDisk dir db mount now).2 := by
  have hnoPartial : ∀ p, ((removePartials dir).fileAt p).isSome = true → extension p ≠ some partialExt := by
    intro p hp
    obtain ⟨i, hi⟩ := Option.isSome_iff_exists.mp hp
    have hfinal := (fileAt_of_removePartials hi).1
    rw [isPartial, beq_eq_false_iff_ne] at hfinal
    exact hfinal
  have hutf8' : ∀ p i, (removePartials dir).fileAt p = some i → IsUtf8 p := fun p i hi =>
    hutf8 p (mem_filesOf.mpr ⟨i, (fileAt_of_removePartials hi).2⟩)
  have hnamed : ∀ key row, (reconcileWithDisk dir db mount now).2.cacheFiles.lookup (key, mount) = some row →
      ((removePartials dir).lookup (pathOfKey key)).isSome = true := fun _ _ h => named_reconcile hutf8 h
  refine ⟨hnoPartial, fun p hp => ?_, hnamed, fun p hfile hmedia => ?_, fun key row h hthere => ?_,
    fun key row h => ?_, fun key m hm => ?_, fun now' => ?_⟩
  · have hfinal : isPartial p = false := by rwa [isPartial, beq_eq_false_iff_ne]
    refine ⟨lookup_removePartials dir hfinal, ?_⟩
    rw [show (reconcileWithDisk dir db mount now).1 = removePartials dir from rfl, contents_removePartials,
      if_neg (by rw [hfinal]; exact Bool.false_ne_true)]
  · obtain ⟨i, hi⟩ := Option.isSome_iff_exists.mp hfile
    refine ⟨rowKey p, ⟨row_of_file hfile hmedia, pathOfKey_rowKey (hutf8' p i hi)⟩, fun key hkey => ?_⟩
    obtain ⟨row, hrow⟩ := Option.isSome_iff_exists.mp hkey.1
    obtain ⟨q, rfl⟩ : ∃ q, key = rowKey q := keyed_reconcile hk (key, mount) row hrow
    rw [← hkey.2, rowKey_pathOfKey_rowKey]
  · refine lookup_foldl_insertRecovered_of_some _ ?_
    rw [removeOrphans, Map.lookup_foldl_erase, if_neg, h]
    intro horphan
    have hgone := (of_decide_eq_true (List.mem_filter.mp horphan).2).2
    cases hthere.symm.trans (congrArg Option.isSome (Option.isNone_iff_eq_none.mp hgone))
  · obtain hold | ⟨-, p, hp, rfl, rfl⟩ := lookup_foldl_insertRecovered _ _ h
    · rw [removeOrphans, Map.lookup_foldl_erase] at hold
      split at hold
      · cases hold
      · exact .inl hold
    · obtain ⟨⟨i, hi⟩, -⟩ := mem_collectCacheFiles.mp hp
      have hcontents : (removePartials dir).contents p = some ((removePartials dir).data i) := by
        rw [Files.contents, hi]
        rfl
      rw [hcontents]
      refine .inr ⟨(removePartials dir).data i, ?_, rfl, asI64_of_lt, rfl⟩
      rw [pathOfKey_rowKey (hutf8' p i hi)]
      exact hcontents
  · exact (lookup_foldl_insertRecovered_of_ne hm key _ _).trans (lookup_removeOrphans_of_ne hm key)
  · have hdir : removePartials (removePartials dir) = removePartials dir := removePartials_eq_self hnoPartial
    have hdb : removeOrphans (removePartials dir) (reconcileWithDisk dir db mount now).2 mount =
        (reconcileWithDisk dir db mount now).2 := removeOrphans_eq_self hnamed
    show reconcileWithDisk (removePartials dir) (reconcileWithDisk dir db mount now).2 mount now' = _
    rw [reconcileWithDisk, hdir, hdb, foldl_insertRecovered_eq_self]
    · rfl
    · intro p hp
      obtain ⟨⟨i, hi⟩, hmedia⟩ := mem_collectCacheFiles.mp hp
      exact row_of_file (Option.isSome_iff_exists.mpr ⟨i, hi⟩) hmedia

private def media : MountId := [109]

/-- `thumbs.db` -/
private def thumbs : RelPath := [⟨[116, 104, 117, 109, 98, 115, 46, 100, 98], Eq.refl true⟩]

/-- A byte that is not UTF-8. -/
private def latin : RelPath := [⟨[228], Eq.refl true⟩]

/-- `film.partial` -/
private def moviePartial : RelPath := [⟨[102, 105, 108, 109, 46, 112, 97, 114, 116, 105, 97, 108], Eq.refl true⟩]

private def movie : RelPath := [⟨[102, 105, 108, 109], Eq.refl true⟩]

private def stored (dir : CacheDir) (p : RelPath) : CacheDir := ((dir.openTrunc p).map Prod.fst).getD dir

/-- What a crash has left. -/
private def tidy : CacheDir := stored (stored (stored Files.empty thumbs) movie) moviePartial

private def leftover : CacheDir := stored tidy latin

/-- The row of a file that is gone. -/
private def ledger : CacheDb :=
  CacheDb.markCached ⟨∅, ∅⟩ [⟨[103], Eq.refl true⟩] media ⟨7, 1, 1, 0, 1, 0, 1, 0, 0o100644, 1, 0, 0, 0, 4096⟩ 1

theorem keyed_ledger : Keyed ledger := by
  have hkeys : ∀ key ∈ ledger.cacheFiles.keys, key.1 = rowKey [⟨[103], Eq.refl true⟩] := by decide
  exact fun key row hrow => ⟨_, hkeys key (Map.mem_keys_iff.mpr ⟨row, hrow⟩)⟩

/-- The temporary file and the row go, `film` gets a row, and `thumbs.db` stays without. -/
theorem ledger_reconciled :
    Reconciled tidy ledger media 5 (reconcileWithDisk tidy ledger media 5).1
      (reconcileWithDisk tidy ledger media 5).2 ∧
    (reconcileWithDisk tidy ledger media 5).2.cacheFiles.keys = [(rowKey movie, media)] :=
  ⟨reconciled tidy ledger media 5 keyed_ledger (by decide), by decide⟩

/-! ## What is served and what is accounted for -/

/-- The file's row is in the sum, it can be evicted, and it is validated in its turn. -/
structure InAccounts (db : CacheDb) (mount : MountId) (p : RelPath) : Prop where
  counted : ∃ row, db.row p mount = some row ∧
    Map.total (fun _ row => row.sizeBytes) db.cacheFiles =
      row.sizeBytes + Map.total (fun _ row => row.sizeBytes) (db.remove p mount).cacheFiles
  candidate : p ∈ (evictionCandidates db mount).map Prod.fst
  validated : p ∈ (db.allFingerprints mount).map Prod.fst

theorem inAccounts_of_row (hp : IsUtf8 p) (hrow : (db.row p mount).isSome = true) :
    InAccounts db mount p := by
  obtain ⟨row, hrow⟩ := Option.isSome_iff_exists.mp hrow
  have hentry : ⟨(rowKey p, mount), row⟩ ∈ db.cacheFiles.entries := AList.mem_lookup_iff.mp hrow
  refine ⟨⟨row, hrow, Map.total_erase _ hrow⟩, ?_, ?_⟩
  · refine List.mem_map.mpr ⟨_, List.mem_map.mpr ⟨⟨(rowKey p, mount), row⟩, ?_, rfl⟩, pathOfKey_rowKey hp⟩
    exact (List.mem_insertionSort _).mpr (List.mem_filter.mpr ⟨hentry, decide_eq_true rfl⟩)
  · refine List.mem_map.mpr ⟨(p, row.fingerprint), List.mem_filterMap.mpr ⟨_, hentry, ?_⟩, rfl⟩
    rw [if_pos rfl, pathOfKey_rowKey hp]

/-- What is served after a startup has its row, unless its name is left out of accounting. -/
theorem inAccounts_of_cached (dir : CacheDir) (db : CacheDb) (mount : MountId) (now : Nat) (p : RelPath)
    (hfile : ((reconcileWithDisk dir db mount now).1.fileAt p).isSome = true)
    (_ : isCached (reconcileWithDisk dir db mount now).1 p = true) (hmedia : isNonMediaFile p = false) :
    ((reconcileWithDisk dir db mount now).2.row p mount).isSome = true ∧
      (IsUtf8 p → InAccounts (reconcileWithDisk dir db mount now).2 mount p) :=
  have hrow := row_of_file hfile hmedia
  ⟨hrow, fun hp => inAccounts_of_row hp hrow⟩

/-- `thumbs.db` and `ä` are served: the one has no row, and that of the other leads elsewhere. -/
theorem thumbnails_unaccounted :
    (((reconcileWithDisk leftover ledger media 5).1.fileAt thumbs).isSome = true ∧
      isCached (reconcileWithDisk leftover ledger media 5).1 thumbs = true ∧
      (reconcileWithDisk leftover ledger media 5).2.row thumbs media = none) ∧
    ((reconcileWithDisk leftover ledger media 5).1.fileAt latin).isSome = true ∧
      isCached (reconcileWithDisk leftover ledger media 5).1 latin = true ∧
      latin ∉ (evictionCandidates (reconcileWithDisk leftover ledger media 5).2 media).map Prod.fst := by
  decide

theorem movie_in_accounts :
    ((reconcileWithDisk leftover ledger media 5).2.row movie media).isSome = true ∧
      (IsUtf8 movie → InAccounts (reconcileWithDisk leftover ledger media 5).2 media movie) :=
  inAccounts_of_cached leftover ledger media 5 movie (by decide) (by decide) (by decide)

end Rows

end FsCache
