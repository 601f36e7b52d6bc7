import FsCache.Refresh
import FsCache.Eviction

/- What validation does to the usage columns of a row (`validate_worker` in cache/io.rs, `sweep_stale`
   in cache/manager.rs).

   An entry is kept if the verdict on it is Fresh or NeedsBackfill. A fresh one is refreshed, by an
   UPDATE of the source columns. A backfill is a `mark_cached`: it replaces the row, and the file counts
   as cached and hit at that moment, once. `keep_iff` is this for one entry; `validation_iff` is it for a
   validation and for a whole sweep, where the entries come from one query before the first of them.

   The answers of the backing and of the clock are parameters, one for each entry. That the steps of a
   sweep are interleaved with others is left to `sweepStep`.

   Correspondence (Rust ↔ Lean):
     the match of `validate_worker`  ↔ `validateWorker`
     the loop of `sweep_stale`       ↔ `sweepEntry`, `sweepStale`
     `backfill_fingerprint`          ↔ `backfillFingerprint` -/

namespace FsCache
open Lib

/-- The entry is kept. -/
def StaleResult.Keeps : StaleResult → Prop
  | .fresh _ | .needsBackfill _ => True
  | .stale | .backingGone | .notTracked => False

instance : (v : StaleResult) → Decidable v.Keeps
  | .fresh _ | .needsBackfill _ => isTrue trivial
  | .stale | .backingGone | .notTracked => isFalse id

/-- What is done about a verdict. The Replace of a stale entry is the queue's. -/
def validateWorker (dir : CacheDir) (db : CacheDb) (mount : MountId) (p : RelPath) (live : Option Stat)
    (now : Nat) : CacheDir × CacheDb :=
  match isStale db mount p live with
  | .fresh st => (dir, refreshSourceMetadata db mount p st)
  | .notTracked => (dir, db)
  | .needsBackfill st => (dir, backfillFingerprint db mount p st now)
  | .backingGone => dropStale dir db mount p
  | .stale => (dir, db)

/-- What a sweep has come to: the counts are `checked` and `dropped`. -/
structure StaleSweep where
  dir : CacheDir
  db : CacheDb
  checked : Nat
  dropped : Nat

/-- One pass of the loop; `live` and `now` are the answers to it. -/
def sweepEntry (mount : MountId) (s : StaleSweep) (e : RelPath × Fingerprint) (live : Option Stat)
    (now : Nat) : StaleSweep :=
  match isStaleWithFingerprint live e.2 with
  | .stale | .backingGone =>
    let (dir, db) := dropStale s.dir s.db mount e.1
    ⟨dir, db, s.checked + 1, s.dropped + 1⟩
  | .needsBackfill st => { s with db := backfillFingerprint s.db mount e.1 st now, checked := s.checked + 1 }
  | .fresh st => { s with db := refreshSourceMetadata s.db mount e.1 st, checked := s.checked + 1 }
  | .notTracked => { s with checked := s.checked + 1 }

/-- The loop over the rows from the `n`-th on. -/
def sweepFrom (mount : MountId) (answer : Nat → Option Stat × Nat) (n : Nat) (s : StaleSweep) :
    List (RelPath × Fingerprint) → StaleSweep
  | [] => s
  | e :: rest => sweepFrom mount answer (n + 1) (sweepEntry mount s e (answer n).1 (answer n).2) rest

def sweepStale (dir : CacheDir) (db : CacheDb) (mount : MountId) (answer : Nat → Option Stat × Nat) : StaleSweep :=
  sweepFrom mount answer 0 ⟨dir, db, 0, 0⟩ (db.allFingerprints mount)

/-- What a `mark_cached` at this time says of the use. -/
def Usage.justCached (now : Nat) : Usage := ⟨asI64 now, asI64 now, 1⟩

/-- The table after a verdict that keeps the entry. -/
def keep (db : CacheDb) (mount : MountId) (p : RelPath) (now : Nat) : StaleResult → CacheDb
  | .fresh st => refreshSourceMetadata db mount p st
  | .needsBackfill st => backfillFingerprint db mount p st now
  | .stale | .backingGone | .notTracked => db

/-! ## One entry -/

section Keep

variable {db : CacheDb} {mount : MountId} {p q : RelPath} {now : Nat} {dir : CacheDir} {live : Option Stat}

theorem usageRow_refresh (db : CacheDb) (mount : MountId) (p : RelPath) (live : Stat) :
    (refreshSourceMetadata db mount p live).usageRow p mount = db.usageRow p mount := by
  have hkept := congrArg (Option.map Prod.snd) (keptColumns_refresh db mount p live)
  rw [Option.map_map, Option.map_map] at hkept
  exact hkept

theorem usageRow_backfill (db : CacheDb) (mount : MountId) (p : RelPath) (st : Stat) (now : Nat) :
    (backfillFingerprint db mount p st now).usageRow p mount = some (.justCached now) := by
  rw [CacheDb.usageRow, backfillFingerprint, CacheDb.row_markCached, if_pos rfl]
  rfl

theorem keepsOthers_keep (db : CacheDb) (mount : MountId) (p : RelPath) (now : Nat) (v : StaleResult) :
    db.KeepsOthers (keep db mount p now v) p mount := by
  cases v with
  | fresh st => exact keepsOthers_refresh db mount p st
  | needsBackfill st => exact fun key hkey => (Map.lookup_insert_if _ _ _ _).trans (if_neg hkey)
  | stale | backingGone | notTracked => exact fun _ _ => rfl

/-- The usage after a verdict that keeps the entry. -/
theorem usageRow_keep (db : CacheDb) (mount : MountId) (p : RelPath) (now : Nat) {fp : Fingerprint}
    (hkeeps : (isStaleWithFingerprint live fp).Keeps) :
    (keep db mount p now (isStaleWithFingerprint live fp)).usageRow p mount =
      if fp.isZero = true then some (.justCached now) else db.usageRow p mount := by
  cases live with
  | none => exact hkeeps.elim
  | some st =>
    revert hkeeps
    rw [isStaleWithFingerprint]
    split
    · exact fun _ => usageRow_backfill db mount p st now
    · split
      · exact fun _ => usageRow_refresh db mount p st
      · exact False.elim

/-- A backfill leaves the usage only where it was what it writes. -/
theorem keep_iff (db : CacheDb) (mount : MountId) (p : RelPath) (now : Nat) {fp : Fingerprint}
    (hkeeps : (isStaleWithFingerprint live fp).Keeps) :
    (keep db mount p now (isStaleWithFingerprint live fp)).usageRow p mount = db.usageRow p mount ↔
      (fp.isZero = true → db.usageRow p mount = some (.justCached now)) := by
  rw [usageRow_keep db mount p now hkeeps]
  split
  · next hz => exact ⟨fun h _ => h.symm, fun h => (h hz).symm⟩
  · next hz => exact ⟨fun _ h => absurd h hz, fun _ => rfl⟩

theorem db_validateWorker (h : (isStale db mount p live).Keeps) :
    (validateWorker dir db mount p live now).2 = keep db mount p now (isStale db mount p live) := by
  unfold validateWorker
  cases hv : isStale db mount p live with
  | fresh st => rfl
  | needsBackfill st => rfl
  | stale | backingGone | notTracked =>
    rw [hv] at h
    exact h.elim

theorem db_sweepEntry {s : StaleSweep} {e : RelPath × Fingerprint} (h : (isStaleWithFingerprint live e.2).Keeps) :
    (sweepEntry mount s e live now).db = keep s.db mount e.1 now (isStaleWithFingerprint live e.2) := by
  unfold sweepEntry
  cases hv : isStaleWithFingerprint live e.2 with
  | fresh st => rfl
  | needsBackfill st => rfl
  | stale | backingGone | notTracked =>
    rw [hv] at h
    exact h.elim

/-- An entry that is dropped is no other row, either. -/
theorem keepsOthers_sweepEntry (s : StaleSweep) (e : RelPath × Fingerprint) (live : Option Stat) (now : Nat) :
    s.db.KeepsOthers (sweepEntry mount s e live now).db e.1 mount := by
  by_cases h : (isStaleWithFingerprint live e.2).Keeps
  · rw [db_sweepEntry h]
    exact keepsOthers_keep s.db mount e.1 now _
  · unfold sweepEntry
    cases hv : isStaleWithFingerprint live e.2 with
    | fresh st | needsBackfill st =>
      rw [hv] at h
      exact absurd trivial h
    | stale | backingGone => exact fun key hkey => (Map.lookup_erase_if _ _ _).trans (if_neg hkey)
    | notTracked => exact fun _ _ => rfl

end Keep

/-! ## The whole sweep -/

section Sweep

variable {db : CacheDb} {mount : MountId} {answer : Nat → Option Stat × Nat} {s : StaleSweep} {n : Nat}
  {rows l₁ l₂ : List (RelPath × Fingerprint)} {e : RelPath × Fingerprint} {key : RowKey × MountId}

theorem lookup_sweepFrom (hoff : ∀ e ∈ rows, key ≠ (rowKey e.1, mount)) :
    (sweepFrom mount answer n s rows).db.cacheFiles.lookup key = s.db.cacheFiles.lookup key := by
  induction rows generalizing n s with
  | nil => rfl
  | cons e rows ih =>
    rw [sweepFrom, ih fun e' he' => hoff e' (List.mem_cons_of_mem e he')]
    exact keepsOthers_sweepEntry s e _ _ key (hoff e List.mem_cons_self)

theorem row_sweepFrom {p : RelPath} (hoff : ∀ e ∈ rows, rowKey p ≠ rowKey e.1) :
    (sweepFrom mount answer n s rows).db.row p mount = s.db.row p mount :=
  lookup_sweepFrom fun e he h => hoff e he (Prod.mk.inj h).1

theorem sweepFrom_append (l l' : List (RelPath × Fingerprint)) :
    sweepFrom mount answer n s (l ++ l') =
      sweepFrom mount answer (n + l.length) (sweepFrom mount answer n s l) l' := by
  induction l generalizing n s with
  | nil => rfl
  | cons e l ih =>
    rw [List.cons_append, sweepFrom, ih, sweepFrom, List.length_cons, Nat.add_right_comm, Nat.add_assoc]

/-- No two rows of the query are for one key. -/
theorem nodup_allFingerprints (hk : Evictors.Keyed db) (mount : MountId) :
    ((db.allFingerprints mount).map fun e => rowKey e.1).Nodup := by
  have hkeys : (db.allFingerprints mount).map (fun e => rowKey e.1) =
      (db.cacheFiles.entries.filter fun x => x.1.2 = mount).map fun x => x.1.1 := by
    rw [CacheDb.allFingerprints, List.map_filterMap, ← List.filterMap_eq_map, List.filterMap_filter]
    refine List.filterMap_congr fun x hx => ?_
    obtain ⟨q, hq⟩ := hk x.1 x.2 (AList.mem_lookup_iff.mpr hx)
    by_cases hm : x.1.2 = mount
    · rw [if_pos hm, if_pos (decide_eq_true hm), Option.map_some, hq, rowKey_pathOfKey_rowKey, Function.comp_apply,
        hq]
    · rw [if_neg hm, if_neg (by simpa using hm), Option.map_none]
  rw [hkeys]
  refine List.Nodup.map_on (fun x hx y hy hkey => ?_) (db.cacheFiles.nodupKeys.nodup.filter _)
  obtain ⟨hx, hmx⟩ := List.mem_filter.mp hx
  obtain ⟨hy, hmy⟩ := List.mem_filter.mp hy
  have hplace : x.1 = y.1 := Prod.ext hkey ((of_decide_eq_true hmx).trans (of_decide_eq_true hmy).symm)
  exact List.NodupKeys.eq_of_fst_eq db.cacheFiles.nodupKeys hx hy hplace

theorem off_of_nodup (h : ((l₁ ++ e :: l₂).map fun e => rowKey e.1).Nodup) :
    (∀ e' ∈ l₁, rowKey e.1 ≠ rowKey e'.1) ∧ ∀ e' ∈ l₂, rowKey e.1 ≠ rowKey e'.1 := by
  rw [List.map_append, List.map_cons, List.nodup_append, List.nodup_cons] at h
  obtain ⟨-, ⟨hafter, -⟩, hbefore⟩ := h
  constructor
  · exact fun e' he' hkey => hbefore _ (List.mem_map_of_mem he') _ List.mem_cons_self hkey.symm
  · exact fun e' he' hkey => hafter (hkey ▸ List.mem_map_of_mem he')

/-- Each entry finds its row as it was before the sweep. -/
theorem usageRow_before (h : ((l₁ ++ e :: l₂).map fun e => rowKey e.1).Nodup) :
    (sweepFrom mount answer n s l₁).db.usageRow e.1 mount = s.db.usageRow e.1 mount := by
  rw [CacheDb.usageRow, row_sweepFrom (off_of_nodup h).1, CacheDb.usageRow]

/-- None that comes later touches the row. -/
theorem usageRow_after (h : ((l₁ ++ e :: l₂).map fun e => rowKey e.1).Nodup) :
    (sweepFrom mount answer n s (l₁ ++ e :: l₂)).db.usageRow e.1 mount =
      (sweepEntry mount (sweepFrom mount answer n s l₁) e (answer (n + l₁.length)).1
        (answer (n + l₁.length)).2).db.usageRow e.1 mount := by
  rw [sweepFrom_append, sweepFrom, CacheDb.usageRow, row_sweepFrom (off_of_nodup h).2, CacheDb.usageRow]

end Sweep

/-- The use of the row is as it was, and so is every other row. -/
def CacheDb.KeepsUse (db db' : CacheDb) (p : RelPath) (mount : MountId) : Prop :=
  db'.usageRow p mount = db.usageRow p mount ∧ db.KeepsOthers db' p mount

section Validation

variable {db : CacheDb} {mount : MountId}

theorem keepsUse_keep_iff (db : CacheDb) (mount : MountId) (p : RelPath) (now : Nat) {live : Option Stat}
    {fp : Fingerprint} (hkeeps : (isStaleWithFingerprint live fp).Keeps) :
    db.KeepsUse (keep db mount p now (isStaleWithFingerprint live fp)) p mount ↔
      (fp.isZero = true → db.usageRow p mount = some (.justCached now)) := by
  rw [CacheDb.KeepsUse, and_iff_left (keepsOthers_keep db mount p now _), keep_iff db mount p now hkeeps]

theorem keepsUse_validate_iff (dir : CacheDir) {p : RelPath} {live : Option Stat} (now : Nat)
    (hkeeps : (isStale db mount p live).Keeps) :
    db.KeepsUse (validateWorker dir db mount p live now).2 p mount ↔
      ∀ fp, db.fingerprintRow p mount = some fp → fp.isZero = true →
        db.usageRow p mount = some (.justCached now) := by
  rw [db_validateWorker hkeeps]
  rw [isStale] at hkeeps ⊢
  cases hfp : db.fingerprintRow p mount with
  | none =>
    rw [hfp] at hkeeps
    exact hkeeps.elim
  | some fp =>
    rw [hfp] at hkeeps
    refine (keepsUse_keep_iff db mount p now hkeeps).trans ?_
    simp only [Option.some.injEq, forall_eq']

/-- In every validation and in every pass of a sweep, an entry that is kept has the use it had, and no
other row changes, if and only if its time is not zero, or the use is what a `mark_cached` writes. What a
pass has left is there when the sweep is over. -/
theorem validation_iff (hk : Evictors.Keyed db) (dir : CacheDir) :
    (∀ p live now, (isStale db mount p live).Keeps →
      (db.KeepsUse (validateWorker dir db mount p live now).2 p mount ↔
        ∀ fp, db.fingerprintRow p mount = some fp → fp.isZero = true →
          db.usageRow p mount = some (.justCached now))) ∧
    ∀ answer l₁ e l₂, db.allFingerprints mount = l₁ ++ e :: l₂ →
      (isStaleWithFingerprint (answer l₁.length).1 e.2).Keeps →
      ((sweepFrom mount answer 0 ⟨dir, db, 0, 0⟩ l₁).db.KeepsUse
          (sweepFrom mount answer 0 ⟨dir, db, 0, 0⟩ (l₁ ++ [e])).db e.1 mount ↔
        (e.2.isZero = true → db.usageRow e.1 mount = some (.justCached (answer l₁.length).2))) ∧
      ((sweepStale dir db mount answer).db.usageRow e.1 mount = db.usageRow e.1 mount ↔
        (e.2.isZero = true → db.usageRow e.1 mount = some (.justCached (answer l₁.length).2))) := by
  refine ⟨fun p live now hkeeps => keepsUse_validate_iff dir now hkeeps, fun answer l₁ e l₂ hrows hkeeps => ?_⟩
  have hnodup := nodup_allFingerprints hk mount
  rw [hrows] at hnodup
  have hbefore : (sweepFrom mount answer 0 ⟨dir, db, 0, 0⟩ l₁).db.usageRow e.1 mount = db.usageRow e.1 mount :=
    usageRow_before hnodup
  constructor
  · have hpass : sweepFrom mount answer 0 ⟨dir, db, 0, 0⟩ (l₁ ++ [e]) =
        sweepEntry mount (sweepFrom mount answer 0 ⟨dir, db, 0, 0⟩ l₁) e (answer l₁.length).1
          (answer l₁.length).2 := by
      rw [sweepFrom_append, Nat.zero_add]
      rfl
    rw [hpass, db_sweepEntry hkeeps, keepsUse_keep_iff _ _ _ _ hkeeps, hbefore]
  · rw [sweepStale, hrows, usageRow_after hnodup, Nat.zero_add, db_sweepEntry hkeeps]
    have hpass := keep_iff (sweepFrom mount answer 0 ⟨dir, db, 0, 0⟩ l₁).db mount e.1 (answer l₁.length).2 hkeeps
    rwa [hbefore] at hpass

end Validation

section Attic

private def trunk : RelPath := [⟨[116], Eq.refl true⟩]
private def attic : MountId := [97]

/-- A row of before the migration: cached at 10, hit three times since, last at 20. -/
private def oldRow : Row := { Row.recovered 7 10 with lastHitAt := 20, hitCount := 3 }

private def packed : CacheDb := { cacheFiles := AList.insert (rowKey trunk, attic) oldRow ∅, deferredEvents := ∅ }

private theorem packed_keyed : Evictors.Keyed packed := by
  intro key row hrow
  rw [packed, Map.lookup_insert_if] at hrow
  split at hrow
  · next hkey => exact ⟨trunk, congrArg Prod.fst hkey⟩
  · cases hrow

/-- Only a row that says so already keeps its use in a backfill. -/
theorem trunk_kept : CacheDb.KeepsUse packed
    (validateWorker Files.empty packed attic trunk (some (statOf ⟨1, 2, 7⟩)) 10).2 trunk attic ↔
      ∀ fp, packed.fingerprintRow trunk attic = some fp → fp.isZero = true →
        packed.usageRow trunk attic = some (.justCached 10) :=
  (validation_iff packed_keyed Files.empty).1 trunk _ 10 (by decide)

/-- A validation at 90 keeps the entry, and then it is cached and hit at 90, and once. -/
theorem trunk_renewed : (isStale packed attic trunk (some (statOf ⟨1, 2, 7⟩))).Keeps ∧
    packed.usageRow trunk attic = some ⟨10, 20, 3⟩ ∧
    (validateWorker Files.empty packed attic trunk (some (statOf ⟨1, 2, 7⟩)) 90).2.usageRow trunk attic =
      some ⟨90, 90, 1⟩ ∧
    (sweepStale Files.empty packed attic fun _ => (some (statOf ⟨1, 2, 7⟩), 90)).db.usageRow trunk attic =
      some ⟨90, 90, 1⟩ := by
  decide

end Attic

end FsCache
