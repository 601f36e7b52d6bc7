import FsCache.Lib.Run
import FsCache.Lib.Schema
import FsCache.Snapshot

/- The migrations of the cache database (`CacheDb::open_with_config`, cache/db.rs), under the daemons
   that use it meanwhile.

   An open creates `cache_files` where there is none, and adds fifteen columns one by one; what each
   ALTER answers is ignored. So a database of an earlier version is one whose table lacks columns, and
   any number of them may be missing for as long as some ALTER was refused (a lock that is held by
   another process) or the process died between two. A statement that names a missing column fails to
   be prepared, and its caller ignores that, too.

   What is proved:
     1. `serves_step`, `serves_run`: the table always stands for one map of rows, on which ALTER is no
        step at all, and a write either does all that `CacheDb` says of it, or nothing.
     2. `migrated_serves`: once one open has gone through without a refused ALTER, every write of
        every process takes effect, and the queries answer from the rows of the earlier versions and
        all that was written since.
     3. `zero_of_unmigrated`: a row from before the columns of the modification time is one that a
        validation backfills.

   Several processes may have the database open, each at its own place (`Database.conns`). SQLite
   orders their statements.

   Correspondence (Rust ↔ Lean):
     the CREATE of `open_with_config`          ↔ `createdColumns`, `DbAction.connect`
     the ALTERs of `open_with_config`          ↔ `migrations`, `DbAction.alter`
     `let _ = conn.prepare_cached(..)`         ↔ `Write.execute`
     `mark_hit`, `remove`                      ↔ `hitSettings`, `whereKey`
     the INSERT of `reconcile_with_disk`       ↔ `recoverSettings` -/

namespace FsCache
open Lib Lib.Sql
open List

/-! ## The statements -/

/-- The columns of the CREATE. -/
def createdColumns : List Column := [.relPath, .mountId, .sizeBytes, .cachedAt, .lastHitAt, .hitCount]

/-- The ALTERs, in their order. -/
def migrations : List Column :=
  [.hitCount, .sourceMtimeSecs, .sourceMtimeNsecs, .sourceSizeBytes, .sourceBlocks, .sourceAtimeSec, .sourceAtimeNsec,
    .sourceCtimeSec, .sourceCtimeNsec, .sourceMode, .sourceNlink, .sourceUid, .sourceGid, .sourceRdev, .sourceBlksize]

/-- What no ALTER adds. -/
def legacyColumns : List Column := [.relPath, .mountId, .sizeBytes, .cachedAt, .lastHitAt]

inductive Write where
  | markCached (p : RelPath) (mount : MountId) (source : SourceMetadata) (now : Nat)
  | updateSourceMetadata (p : RelPath) (mount : MountId) (source : SourceMetadata)
  | markHit (p : RelPath) (mount : MountId) (now : Nat)
  | remove (p : RelPath) (mount : MountId)
  /-- the INSERT OR IGNORE of a startup, for a file that has no row -/
  | recover (p : RelPath) (mount : MountId) (size now : Nat)
  deriving DecidableEq

def hitParams (p : RelPath) (mount : MountId) (now : Nat) : List Value :=
  [.integer (asI64 now), .path (rowKey p), .name mount]

/-- `v + 1` in SQL. -/
def Value.succ : Value → Option Value
  | .integer i => some (.integer (i + 1))
  | .path _ | .name _ => none

/-- `SET last_hit_at = ?1, hit_count = hit_count + 1` -/
def hitSettings (params : List Value) : List (Column × Expr Column Value) :=
  [(.lastHitAt, (Term.param 1).expr params), (.hitCount, fun r => (r .hitCount).bind Value.succ)]

/-- `WHERE rel_path = ?2 AND mount_id = ?3` -/
def whereHit : List (Column × Term Value) := [(.relPath, .param 2), (.mountId, .param 3)]

def recoverParams (p : RelPath) (mount : MountId) (size now : Nat) : List Value :=
  [.path (rowKey p), .name mount, .integer (asI64 size), .integer (asI64 now)]

def recoverSettings : List (Column × Term Value) :=
  [(.relPath, .param 1), (.mountId, .param 2), (.sizeBytes, .param 3), (.cachedAt, .param 4), (.lastHitAt, .param 4)]

namespace Write

/-- On the table as it is; a statement that cannot be prepared does nothing. -/
def execute (t : StoredTable Column Value) : Write → StoredTable Column Value
  | .markCached p mount source now =>
    t.insertOrReplace primaryKey (markCachedParams p mount source now) (markCachedColumns.zip markCachedValues) defaults
  | .updateSourceMetadata p mount source =>
    t.update (updateParams p mount source) (StoredTable.constants (updateParams p mount source) updateSettings) whereKey
  | .markHit p mount now => t.update (hitParams p mount now) (hitSettings (hitParams p mount now)) whereHit
  | .remove p mount => t.delete [.path (rowKey p), .name mount] whereKey
  | .recover p mount size now => t.insertOrIgnore primaryKey (recoverParams p mount size now) recoverSettings defaults

/-- The columns it names. -/
def columns : Write → List Column
  | .markCached .. => markCachedColumns
  | .updateSourceMetadata .. => updateSettings.map Prod.fst ++ whereKey.map Prod.fst
  | .markHit .. => [.lastHitAt, .hitCount, .relPath, .mountId]
  | .remove .. => [.relPath, .mountId]
  | .recover .. => recoverSettings.map Prod.fst

/-- On the rows. -/
def apply (db : CacheDb) : Write → CacheDb
  | .markCached p mount source now => db.markCached p mount source now
  | .updateSourceMetadata p mount source => db.updateSourceMetadata p mount source
  | .markHit p mount now => db.markHit p mount now
  | .remove p mount => db.remove p mount
  | .recover p mount size now =>
    match db.row p mount with
    | some _ => db
    | none => { db with cacheFiles := db.cacheFiles.insert (rowKey p, mount) (Row.recovered size now) }

end Write

/-- The first row of the result, where the query can be prepared. -/
def storedSourceMetadata (t : StoredTable Column Value) (p : RelPath) (mount : MountId) : Option SourceMetadata :=
  ((t.select [.path (rowKey p), .name mount] sourceColumns whereKey).bind fun rows => rows.head?.bind readSource).filter
    SourceMetadata.hasSnapshot

def storedFingerprint (t : StoredTable Column Value) (p : RelPath) (mount : MountId) : Option Fingerprint :=
  (t.select [.path (rowKey p), .name mount] fingerprintColumns whereKey).bind fun rows =>
    rows.head?.bind readFingerprint

/-! ## The database file and the processes that have it open -/

structure Database where
  table : Option (StoredTable Column Value)
  /-- what the open of a process has still to add; nothing, when it is through -/
  conns : Nat → Option (List Column)

inductive DbAction where
  /-- the connection, and the batch of the CREATEs, which may fail after the first of them -/
  | connect (i : Nat) (created ok : Bool)
  | alter (i : Nat) (ok : Bool)
  /-- the process exits, or is killed -/
  | close (i : Nat)
  | write (i : Nat) (ok : Bool) (w : Write)
  deriving DecidableEq

namespace Database

def step (s : Database) : DbAction → Option Database
  | .connect i created ok =>
    match s.conns i with
    | some _ => none
    | none => some {
        table := if created || ok then some (s.table.getD (.empty fun c => createdColumns.contains c)) else s.table
        conns := if ok then Function.update s.conns i (some migrations) else s.conns }
  | .alter i ok =>
    match s.conns i, s.table with
    | some (c :: rest), some t => some {
        table := some (if ok then (t.addColumn c (defaults c)).getD t else t)
        conns := Function.update s.conns i (some rest) }
    | _, _ => none
  | .close i =>
    match s.conns i with
    | some _ => some { s with conns := Function.update s.conns i none }
    | none => none
  | .write i ok w =>
    match s.conns i, s.table with
    | some [], some t => some { s with table := some (if ok then w.execute t else t) }
    | _, _ => none

end Database

/-! ## A statement on a table that stands for the rows -/

/-- The rows that the table holds, with each missing column at its default. -/
def Carries (t : StoredTable Column Value) (db : CacheDb) : Prop := t.reads defaults ~ db.table

section Statements

variable {t : StoredTable Column Value} {db : CacheDb} {p : RelPath} {mount : MountId} {w : Write}

theorem holds_whereHit (now : Nat) (key : RowKey × MountId) (row : Row) :
    holds (hitParams p mount now) whereHit (row.record key) = decide (key = (rowKey p, mount)) := by
  have hconds : holds (hitParams p mount now) whereHit (row.record key) =
      (some (.path (rowKey p)) == some (Value.path key.1) && (some (.name mount) == some (Value.name key.2) && true)) :=
    rfl
  rw [hconds, Bool.eq_iff_iff, decide_eq_true_eq, Prod.ext_iff]
  simp only [Bool.and_true, Bool.and_eq_true, beq_iff_eq, Option.some.injEq, Value.path.injEq, Value.name.injEq]
  exact and_congr eq_comm eq_comm

/-- The record after a hit. -/
def hitRecord (now : Nat) (r : Record Column Value) : Record Column Value
  | .lastHitAt => .integer (asI64 now)
  | .hitCount => (r .hitCount).succ.getD (r .hitCount)
  | c => r c

theorem fill_hit {r : Record Column (Option Value)} (hr : r ∈ t.records) (now : Nat)
    (h : t.prepares [.lastHitAt, .hitCount] = true) :
    fill defaults (StoredTable.put (hitSettings (hitParams p mount now)) r) = hitRecord now (fill defaults r) := by
  obtain ⟨last, hlast⟩ := StoredTable.value_of_mem (c := .lastHitAt) hr (StoredTable.prepares_mem h (by simp))
  obtain ⟨count, hcount⟩ := StoredTable.value_of_mem (c := .hitCount) hr (StoredTable.prepares_mem h (by simp))
  funext c
  cases c with
  | lastHitAt =>
    rw [fill, StoredTable.put, hlast]
    rfl
  | hitCount =>
    have hset : fill defaults (StoredTable.put (hitSettings (hitParams p mount now)) r) .hitCount =
        ((r .hitCount).map fun v => ((r .hitCount).bind Value.succ).getD v).getD (.integer 0) := rfl
    rw [hset, hcount, hitRecord, fill, hcount]
    rfl
  | relPath | mountId | sizeBytes | cachedAt | sourceMtimeSecs | sourceMtimeNsecs | sourceSizeBytes | sourceBlocks
  | sourceAtimeSec | sourceAtimeNsec | sourceCtimeSec | sourceCtimeNsec | sourceMode | sourceNlink | sourceUid
  | sourceGid | sourceRdev | sourceBlksize =>
    show ((r _).map id).getD _ = (r _).getD _
    rw [Option.map_id, id]

theorem table_updateRow {cond : Record Column Value → Bool} {g : Record Column Value → Record Column Value}
    {f : Row → Row} (hcond : ∀ key row, cond (Row.record key row) = decide (key = (rowKey p, mount)))
    (hset : ∀ row, g (Row.record (rowKey p, mount) row) = (f row).record (rowKey p, mount)) :
    (db.updateRow p mount f).table ~ db.table.map fun r => if cond r then g r else r := by
  unfold CacheDb.updateRow
  cases h : db.row p mount with
  | none => exact Perm.of_eq (records_modify_of_none hcond h).symm
  | some row => exact records_modify hcond hset h

theorem table_recover (size now : Nat) (h : db.row p mount = none) :
    ((Write.recover p mount size now).apply db).table = (Row.recovered size now).record (rowKey p, mount) :: db.table := by
  have hinsert : ((Write.recover p mount size now).apply db).table =
      Sql.insertOrReplace primaryKey ((Row.recovered size now).record (rowKey p, mount)) db.table := by
    rw [Write.apply, h]
    exact records_insert fun key row => primaryKey_record key _ row _
  rw [hinsert, Sql.insertOrReplace]
  congr 1
  refine List.filter_eq_self.mpr fun r hr => ?_
  obtain ⟨key, row, hrow, rfl⟩ := mem_table.mp hr
  rw [primaryKey_record, Bool.not_eq_true', decide_eq_false_iff_not]
  intro hkey
  rw [CacheDb.row, ← hkey, hrow] at h
  exact absurd h (by simp)

theorem any_table (r : Row) :
    (db.table.any fun r' => primaryKey.all fun c => r' c == r.record (rowKey p, mount) c) = (db.row p mount).isSome := by
  rw [Bool.eq_iff_iff, List.any_eq_true, Option.isSome_iff_exists]
  constructor
  · intro h
    obtain ⟨r', hr', hsame⟩ := h
    obtain ⟨key, row, hrow, rfl⟩ := mem_table.mp hr'
    rw [primaryKey_record, decide_eq_true_eq] at hsame
    rw [hsame] at hrow
    exact ⟨row, hrow⟩
  · intro h
    obtain ⟨row, hrow⟩ := h
    exact ⟨_, mem_table.mpr ⟨_, row, hrow, rfl⟩, by rw [primaryKey_record]; exact decide_eq_true rfl⟩

theorem record_recovered (size now : Nat) :
    assign (recoverParams p mount size now) recoverSettings defaults =
      (Row.recovered size now).record (rowKey p, mount) := by
  funext c
  cases c <;> rfl

/-- A statement that can be prepared does to the rows what `CacheDb` says. -/
theorem execute_carries (h : Carries t db) (hkey : t.prepares primaryKey = true) (hw : t.prepares w.columns = true) :
    Carries (w.execute t) (w.apply db) := by
  cases w with
  | markCached p mount source now =>
    rw [Carries, Write.execute, StoredTable.reads_insertOrReplace hw hkey, Write.apply, table_markCached,
      markCachedStatement]
    exact (h.filter _).cons _
  | updateSourceMetadata p mount source =>
    have hnames := StoredTable.prepares_append.mp hw
    rw [Carries, Write.execute, StoredTable.reads_update (f := assign (updateParams p mount source) updateSettings) hw
      (fun r hr => StoredTable.fill_put hr hnames.1)]
    exact (h.map _).trans table_updateSourceMetadata.symm
  | markHit p mount now =>
    -- its parameters are in `SET` and in `WHERE`
    have hboth : t.prepares ([Column.lastHitAt, Column.hitCount] ++ [Column.relPath, Column.mountId]) = true := hw
    have hnames := StoredTable.prepares_append.mp hboth
    rw [Carries, Write.execute, StoredTable.reads_update hw fun r hr => fill_hit hr now hnames.1]
    exact (h.map _).trans (table_updateRow (holds_whereHit now) fun row => by funext c; cases c <;> rfl).symm
  | remove p mount =>
    rw [Carries, Write.execute, StoredTable.reads_delete hw]
    exact (h.filter _).trans (Perm.of_eq (records_erase (holds_whereKey [])).symm)
  | recover p mount size now =>
    rw [Carries, Write.execute, StoredTable.reads_insertOrIgnore hw hkey, record_recovered, h.any_eq, any_table]
    cases hrow : db.row p mount with
    | none =>
      rw [if_neg (by simp), table_recover size now hrow]
      exact h.cons _
    | some row =>
      rw [Option.isSome_some, if_pos rfl, Write.apply, hrow]
      exact h

/-- One that cannot be prepared does nothing. -/
theorem execute_of_not_prepares (hw : ¬ t.prepares w.columns = true) : w.execute t = t := by
  cases w with
  | markCached | updateSourceMetadata | markHit | remove | recover => exact if_neg hw

theorem columns_execute : (w.execute t).columns = t.columns := by
  cases w with
  | markCached => exact StoredTable.columns_insertOrReplace
  | updateSourceMetadata | markHit => exact StoredTable.columns_update
  | remove => exact StoredTable.columns_delete
  | recover => exact StoredTable.columns_insertOrIgnore

theorem storedSourceMetadata_eq (h : Carries t db)
    (hq : t.prepares (sourceColumns ++ whereKey.map Prod.fst) = true) :
    storedSourceMetadata t p mount = db.sourceMetadataRow p mount := by
  have hquery : storedSourceMetadata t p mount = sourceMetadataQuery (t.reads defaults) p mount := by
    rw [storedSourceMetadata, StoredTable.select_reads hq]
    rfl
  rw [hquery, sourceMetadataQuery_perm rfl h.symm, sourceMetadataQuery_table]

theorem storedFingerprint_eq (h : Carries t db)
    (hq : t.prepares (fingerprintColumns ++ whereKey.map Prod.fst) = true) :
    storedFingerprint t p mount = db.fingerprintRow p mount := by
  have hquery : storedFingerprint t p mount =
      (select [.path (rowKey p), .name mount] fingerprintColumns whereKey (t.reads defaults)).head?.bind
        readFingerprint := by
    rw [storedFingerprint, StoredTable.select_reads hq]
    rfl
  rw [hquery, select_perm h (holds_whereKey []), ← fingerprintQuery_table, fingerprintQuery, CacheDb.table,
    select_records (holds_whereKey [])]

/-- A row of a table that has no modification times yet is one that a validation backfills. -/
theorem zero_of_unmigrated {row : Row} (h : Carries t db) (hsecs : t.columns .sourceMtimeSecs = false)
    (hnsecs : t.columns .sourceMtimeNsecs = false) (hrow : db.row p mount = some row) :
    row.fingerprint.isZero = true := by
  obtain ⟨r, hr, hread⟩ := List.mem_map.mp (h.mem_iff.mpr (mem_table.mpr ⟨_, row, hrow, rfl⟩))
  have zero : ∀ c, t.columns c = false → row.record (rowKey p, mount) c = .integer 0 := by
    intro c hc
    rw [← hread, fill, StoredTable.absent_of_mem hr hc]
    rfl
  have hzero : row.sourceMtimeSecs = 0 := Value.integer.inj (zero _ hsecs)
  have hzero' : row.sourceMtimeNsecs = 0 := Value.integer.inj (zero _ hnsecs)
  simp [Fingerprint.isZero, Row.fingerprint, hzero, hzero']

end Statements

/-! ## The runs of the processes -/

namespace Database

variable {s s' : Database} {a : DbAction} {db : CacheDb} {i : Nat}

/-- The table, if there is one, has what no ALTER adds, and holds these rows. -/
structure Serves (s : Database) (db : CacheDb) : Prop where
  legacy : ∀ t ∈ s.table, ∀ c ∈ legacyColumns, t.columns c = true
  rows : ∀ t ∈ s.table, Carries t db
  empty : s.table = none → db.table = []

/-- Every column is there. -/
def Migrated (s : Database) : Prop := ∃ t ∈ s.table, ∀ c, t.columns c = true

/-- The write that takes effect in this step. -/
def effect (s : Database) : DbAction → List Write
  | .write _ ok w => if ok && s.table.any fun t => t.prepares w.columns then [w] else []
  | _ => []

def effects : Database → List DbAction → List Write
  | _, [] => []
  | s, a :: as => s.effect a ++ (step s a).elim [] fun s' => effects s' as

/-- The write that SQLite does not refuse, as far as it can be prepared. -/
def issued : DbAction → Option Write
  | .write _ true w => some w
  | _ => none

/-- What a step does to the table. -/
inductive TableMove (s : Database) (a : DbAction) : Option (StoredTable Column Value) → Prop
  | same (he : s.effect a = []) : TableMove s a s.table
  | created (h : s.table = none) (he : s.effect a = []) :
      TableMove s a (some (.empty fun c => createdColumns.contains c))
  | added {t t' : StoredTable Column Value} {c : Column} (h : s.table = some t) (hc : t.addColumn c (defaults c) = some t')
      (he : s.effect a = []) : TableMove s a (some t')
  | written {t : StoredTable Column Value} {w : Write} (h : s.table = some t) (hw : t.prepares w.columns = true)
      (he : s.effect a = [w]) : TableMove s a (some (w.execute t))

/-- A write that cannot be prepared changes nothing, as one that SQLite refuses. -/
theorem tableMove_write {t : StoredTable Column Value} (ht : s.table = some t) (ok : Bool) (w : Write) :
    TableMove s (.write i ok w) (some (if ok then w.execute t else t)) := by
  by_cases hw : (ok && t.prepares w.columns) = true
  · have he : s.effect (.write i ok w) = [w] := by
      rw [effect, ht, Option.any_some, if_pos hw]
    rw [Bool.and_eq_true] at hw
    rw [if_pos hw.1]
    exact .written ht hw.2 he
  · -- refused by SQLite, or by the columns
    have he : s.effect (.write i ok w) = [] := by
      rw [effect, ht, Option.any_some, if_neg hw]
    have hsame : (if ok then w.execute t else t) = t := by
      cases ok with
      | false => rfl
      | true => exact execute_of_not_prepares (by simpa using hw)
    rw [hsame]
    exact ht ▸ .same he

theorem tableMove_of_step (h : step s a = some s') : TableMove s a s'.table := by
  cases a with
  | connect i created ok =>
    simp only [step] at h
    split at h
    · exact absurd h (by simp)
    · obtain rfl := Option.some.inj h
      by_cases hmade : (created || ok) = true
      · simp only [hmade, if_true]
        cases ht : s.table with
        | none => exact .created ht rfl
        | some t => exact ht ▸ .same rfl
      · simp only [hmade]
        exact .same rfl
  | alter i ok =>
    simp only [step] at h
    split at h
    · next c rest t hconn ht =>
      obtain rfl := Option.some.inj h
      have same : TableMove s (.alter i ok) (some t) := ht ▸ .same rfl
      cases ok with
      | false => exact same
      | true =>
        show TableMove s (.alter i true) (some ((t.addColumn c (defaults c)).getD t))
        cases hc : t.addColumn c (defaults c) with
        | none => exact same
        | some t' => exact .added ht hc rfl
    · exact absurd h (by simp)
  | close i =>
    simp only [step] at h
    split at h
    · obtain rfl := Option.some.inj h
      exact .same rfl
    · exact absurd h (by simp)
  | write i ok w =>
    simp only [step] at h
    split at h
    · next t hconn ht =>
      obtain rfl := Option.some.inj h
      exact tableMove_write ht ok w
    · exact absurd h (by simp)

/-- No column goes. -/
theorem columns_step (h : step s a = some s') {t : StoredTable Column Value} (ht : s.table = some t) :
    ∃ t', s'.table = some t' ∧ ∀ c, t.columns c = true → t'.columns c = true := by
  have hm := tableMove_of_step h
  generalize s'.table = table at hm
  cases hm with
  | same => exact ⟨t, ht, fun c hc => hc⟩
  | created hnone => exact absurd (ht.symm.trans hnone) (by simp)
  | @added t₁ t' c₁ ht₁ hadded =>
    obtain rfl := Option.some.inj (ht.symm.trans ht₁)
    refine ⟨t', rfl, fun c hc => ?_⟩
    rw [StoredTable.columns_addColumn hadded, Function.update_apply]
    split
    · rfl
    · exact hc
  | @written t₁ w ht₁ =>
    obtain rfl := Option.some.inj (ht.symm.trans ht₁)
    exact ⟨w.execute t, rfl, fun c hc => by rwa [columns_execute]⟩

/-- What the table holds is changed by the write that takes effect, and by nothing else. -/
theorem Serves.step (hi : s.Serves db) (h : s.step a = some s') :
    s'.Serves ((s.effect a).foldl Write.apply db) := by
  have hm := tableMove_of_step h
  have legacy : ∀ t, s.table = some t → ∀ t' ∈ s'.table, ∀ c ∈ legacyColumns, t'.columns c = true := by
    intro t ht t' ht' c hc
    obtain ⟨t'', ht'', hkept⟩ := columns_step h ht
    obtain rfl := Option.some.inj (ht'.symm.trans ht'')
    exact hkept c (hi.legacy t ht c hc)
  generalize htable : s'.table = table at hm
  cases hm with
  | same he =>
    rw [he]
    exact ⟨fun t ht => hi.legacy t (htable ▸ ht), fun t ht => hi.rows t (htable ▸ ht),
      fun hn => hi.empty (htable ▸ hn)⟩
  | created hnone he =>
    rw [he]
    refine ⟨fun t ht c hc => ?_, fun t ht => ?_, fun hn => absurd (htable.symm.trans hn) (by simp)⟩
    · obtain rfl := Option.some.inj (htable.symm.trans ht)
      simp only [legacyColumns, List.mem_cons, List.not_mem_nil, or_false] at hc
      obtain rfl | rfl | rfl | rfl | rfl := hc <;> rfl
    · obtain rfl := Option.some.inj (htable.symm.trans ht)
      rw [Carries, List.foldl_nil, hi.empty hnone]
      exact Perm.nil
  | @added t t' c ht hadded he =>
    rw [he]
    refine ⟨legacy t ht, fun t₁ ht₁ => ?_, fun hn => absurd (htable.symm.trans hn) (by simp)⟩
    obtain rfl := Option.some.inj (htable.symm.trans ht₁)
    rw [Carries, StoredTable.reads_addColumn hadded]
    exact hi.rows t ht
  | @written t w ht hw he =>
    rw [he]
    refine ⟨legacy t ht, fun t₁ ht₁ => ?_, fun hn => absurd (htable.symm.trans hn) (by simp)⟩
    obtain rfl := Option.some.inj (htable.symm.trans ht₁)
    have hkey : t.prepares primaryKey = true :=
      List.all_eq_true.mpr fun c hc =>
        hi.legacy t ht c (List.mem_append_left [Column.sizeBytes, .cachedAt, .lastHitAt] hc)
    exact execute_carries (hi.rows t ht) hkey hw

theorem serves_run {as : List DbAction} (hi : s.Serves db) (h : run step s as = some s') :
    s'.Serves ((effects s as).foldl Write.apply db) := by
  induction as generalizing s db with
  | nil =>
    obtain rfl := Option.some.inj h
    exact hi
  | cons a as ih =>
    obtain ⟨s₁, hs, hrun⟩ := run_cons.mp h
    rw [effects, hs, Option.elim_some, List.foldl_append]
    exact ih (hi.step hs) hrun

/-- Only what was issued takes effect. -/
theorem effects_sublist (s : Database) (as : List DbAction) : effects s as <+ as.filterMap issued := by
  induction as generalizing s with
  | nil => exact Sublist.slnil
  | cons a as ih =>
    have hhead : s.effect a <+ (issued a).toList := by
      cases a with
      | write i ok w =>
        cases ok with
        | false => exact Sublist.slnil
        | true =>
          rw [effect]
          split
          · exact Sublist.refl _
          · exact nil_sublist _
      | connect | alter | close => exact Sublist.slnil
    have hrest : (step s a).elim [] (fun s' => effects s' as) <+ as.filterMap issued := by
      cases step s a with
      | none => exact nil_sublist _
      | some s' => exact ih s'
    have hissued : (a :: as).filterMap issued = (issued a).toList ++ as.filterMap issued := by
      rw [List.filterMap_cons]
      cases issued a <;> rfl
    rw [hissued]
    exact hhead.append hrest

theorem Migrated.step (hi : s.Migrated) (h : s.step a = some s') : s'.Migrated := by
  obtain ⟨t, ht, hall⟩ := hi
  obtain ⟨t', ht', hkept⟩ := columns_step h ht
  exact ⟨t', ht', fun c => hkept c (hall c)⟩

theorem prepares_of_migrated {t : StoredTable Column Value} (h : ∀ c, t.columns c = true) (names : List Column) :
    t.prepares names = true := List.all_eq_true.mpr fun c _ => h c

/-- With every column there, all that is issued takes effect. -/
theorem effects_of_migrated {as : List DbAction} (hi : s.Migrated) (h : run step s as = some s') :
    effects s as = as.filterMap issued ∧ s'.Migrated := by
  induction as generalizing s with
  | nil =>
    obtain rfl := Option.some.inj h
    exact ⟨rfl, hi⟩
  | cons a as ih =>
    obtain ⟨s₁, hs, hrun⟩ := run_cons.mp h
    obtain ⟨hrest, hmigrated⟩ := ih (hi.step hs) hrun
    refine ⟨?_, hmigrated⟩
    obtain ⟨t, ht, hall⟩ := hi
    have hhead : s.effect a = (issued a).toList := by
      cases a with
      | write i ok w =>
        rw [effect, Option.mem_def.mp ht, Option.any_some, prepares_of_migrated hall]
        cases ok <;> rfl
      | connect | alter | close => rfl
    rw [effects, hs, Option.elim_some, hrest, hhead, List.filterMap_cons]
    cases issued a <;> rfl

/-- What an open has still to add, or has added. -/
def Adding (i : Nat) (s : Database) : Prop :=
  ∀ rest, s.conns i = some rest → ∃ t ∈ s.table, ∀ c, c ∈ migrations → c ∈ rest ∨ t.columns c = true

/-- Others take no column away. -/
theorem Adding.unmoved (hi : s.Adding i) (h : s.step a = some s') (e : s'.conns i = s.conns i) : s'.Adding i := by
  intro rest hrest
  obtain ⟨t, ht, hall⟩ := hi rest (e.symm.trans hrest)
  obtain ⟨t', ht', hkept⟩ := columns_step h ht
  exact ⟨t', ht', fun c hc => (hall c hc).imp_right (hkept c)⟩

/-- The column that is added, or was there, need not be added any more. -/
theorem Adding.altered {c : Column} {rest : List Column} {t : StoredTable Column Value} (hi : s.Adding i)
    (hconn : s.conns i = some (c :: rest)) (ht : s.table = some t) (h : s.step (.alter i true) = some s')
    (htable : s'.table = some ((t.addColumn c (defaults c)).getD t))
    (hrest : s'.conns i = some rest) : s'.Adding i := by
  obtain ⟨t₁, ht₁, hall⟩ := hi (c :: rest) hconn
  obtain rfl := Option.some.inj (ht.symm.trans ht₁)
  obtain ⟨t', ht', hkept⟩ := columns_step h ht
  obtain rfl := Option.some.inj (htable.symm.trans ht')
  intro rest' hrest'
  obtain rfl := Option.some.inj (hrest.symm.trans hrest')
  refine ⟨_, htable, fun c' hc' => ?_⟩
  rcases hall c' hc' with hmem | hold
  · rcases List.mem_cons.mp hmem with rfl | hmem
    · exact .inr StoredTable.columns_getD_addColumn
    · exact .inl hmem
  · exact .inr (hkept c' hold)

theorem Adding.step (hi : s.Adding i) (hok : a ≠ .alter i false) (h : s.step a = some s') : s'.Adding i := by
  have h₀ := h
  cases a with
  | connect j created ok =>
    simp only [Database.step] at h
    split at h
    · exact absurd h (by simp)
    · obtain rfl := Option.some.inj h
      by_cases hj : ok = true ∧ i = j
      · -- the CREATE is through, and all ALTERs are to come
        obtain ⟨rfl, rfl⟩ := hj
        intro rest hrest
        have hrest : Function.update s.conns i (some migrations) i = some rest := hrest
        rw [Function.update_self, Option.some.injEq] at hrest
        refine ⟨s.table.getD (.empty fun c => createdColumns.contains c), ?_, fun c hc => .inl (hrest ▸ hc)⟩
        exact if_pos (Bool.or_true created)
      · refine hi.unmoved h₀ ?_
        show (if ok then Function.update s.conns j (some migrations) else s.conns) i = s.conns i
        split
        · next hok' => exact Function.update_of_ne (fun hij => hj ⟨hok', hij⟩) _ _
        · rfl
  | alter j ok =>
    simp only [Database.step] at h
    split at h
    · next c rest t hconn ht =>
      obtain rfl := Option.some.inj h
      by_cases hj : i = j
      · subst hj
        cases ok with
        | false => exact absurd rfl hok
        | true => exact hi.altered hconn ht h₀ rfl (Function.update_self _ _ _)
      · exact hi.unmoved h₀ (Function.update_of_ne hj _ _)
    · exact absurd h (by simp)
  | close j =>
    simp only [Database.step] at h
    split at h
    · obtain rfl := Option.some.inj h
      by_cases hj : i = j
      · subst hj
        intro rest hrest
        have hrest : Function.update s.conns i none i = some rest := hrest
        rw [Function.update_self] at hrest
        exact absurd hrest (by simp)
      · exact hi.unmoved h₀ (Function.update_of_ne hj _ _)
    · exact absurd h (by simp)
  | write j ok w =>
    simp only [Database.step] at h
    split at h
    · obtain rfl := Option.some.inj h
      exact hi.unmoved h₀ rfl
    · exact absurd h (by simp)

theorem mem_columns (c : Column) : c ∈ legacyColumns ∨ c ∈ migrations := by
  cases c <;> decide

/-- An open that was refused no ALTER leaves every column there. -/
theorem migrated_of_open {bs : List DbAction} (hserves : s.Serves db) (hclosed : s.conns i = none)
    (h : run step s bs = some s') (hok : DbAction.alter i false ∉ bs) (hopen : s'.conns i = some []) :
    s'.Migrated := by
  have hadding : s'.Adding i :=
    run_invariant_along (Adding i) (fun _ _ _ hi ha hs => hi.step ha hs) h
      (Along.of_mem fun a ha e => hok (e ▸ ha)) fun rest hrest => absurd (hclosed.symm.trans hrest) (by simp)
  obtain ⟨t, ht, hall⟩ := hadding [] hopen
  refine ⟨t, ht, fun c => ?_⟩
  rcases mem_columns c with hc | hc
  · exact (serves_run hserves h).legacy t ht c hc
  · exact (hall c hc).resolve_left List.not_mem_nil

end Database

open Database

/-- Whatever table an earlier version has left, and whatever opens were cut short: from where one
process has gone through all ALTERs and was refused none, each write of any process takes effect, and
the queries answer from the earlier rows and the writes that have taken effect. -/
theorem migrated_serves {s₀ s₁ s₂ s : Database} {db : CacheDb} {as bs cs : List DbAction} {i : Nat}
    (h₀ : s₀.Serves db) (h₁ : run step s₀ as = some s₁) (hclosed : s₁.conns i = none)
    (h₂ : run step s₁ bs = some s₂) (hok : DbAction.alter i false ∉ bs) (hopen : s₂.conns i = some [])
    (h₃ : run step s₂ cs = some s) :
    effects s₀ (as ++ bs) <+ (as ++ bs).filterMap issued ∧ ∃ t, s.table = some t ∧
      let served := (effects s₀ (as ++ bs) ++ cs.filterMap issued).foldl Write.apply db
      Carries t served ∧ ∀ p mount, storedSourceMetadata t p mount = served.sourceMetadataRow p mount ∧
        storedFingerprint t p mount = served.fingerprintRow p mount := by
  have hbefore : s₂.Serves ((effects s₀ (as ++ bs)).foldl Write.apply db) :=
    serves_run h₀ (run_append.mpr ⟨s₁, h₁, h₂⟩)
  have hmigrated : s₂.Migrated := migrated_of_open (serves_run h₀ h₁) hclosed h₂ hok hopen
  obtain ⟨hall, t, ht, hcolumns⟩ := effects_of_migrated hmigrated h₃
  have hholds : Carries t ((effects s₀ (as ++ bs) ++ cs.filterMap issued).foldl Write.apply db) := by
    rw [List.foldl_append, ← hall]
    exact (serves_run hbefore h₃).rows t ht
  refine ⟨effects_sublist s₀ _, t, ht, hholds, fun p mount => ⟨?_, ?_⟩⟩
  · exact storedSourceMetadata_eq hholds (prepares_of_migrated hcolumns _)
  · exact storedFingerprint_eq hholds (prepares_of_migrated hcolumns _)

/-! ## A database of an earlier version -/

section Legacy

private def older : RelPath := [⟨[111], Eq.refl true⟩]

private def newer : RelPath := [⟨[110], Eq.refl true⟩]

def legacyRow : Row := .recovered 7 5

def legacyRows : CacheDb := ⟨(∅ : Map (RowKey × MountId) Row).insert (rowKey older, [109]) legacyRow, ∅⟩

def legacyDatabase : Database where
  table := some ((StoredTable.empty fun c => legacyColumns.contains c).consRecord (legacyRow.record (rowKey older, [109])))
  conns _ := none

def newSource : SourceMetadata := .fromStat ⟨9, 1, 3, 0, 3, 0, 3, 0, 0o100644, 1, 0, 0, 0, 4096⟩

/-- One process is killed after three ALTERs; another is refused the fifth, and hits a row and writes
one. -/
def halfMigrated : List DbAction :=
  .connect 0 false true :: List.replicate 3 (.alter 0 true) ++ [.close 0, .connect 1 false true] ++
    List.replicate 4 (.alter 1 true) ++ .alter 1 false :: List.replicate 10 (.alter 1 true) ++
    [.write 1 true (.markHit older [109] 8), .write 1 true (.markCached newer [109] newSource 8)]

def openedAgain : List DbAction := .connect 0 false true :: List.replicate 15 (.alter 0 true)

theorem serves_legacy : legacyDatabase.Serves legacyRows where
  legacy t ht c hc := by
    obtain rfl := Option.some.inj ht
    exact List.contains_iff_mem.mpr hc
  rows t ht := by
    obtain rfl := Option.some.inj ht
    refine Perm.of_eq (congrArg (· :: []) (funext fun c => ?_))
    cases c <;> rfl
  empty h := absurd h (by simp [legacyDatabase])

/-- The hit takes effect and the row does not; it does when it is written again. -/
theorem legacy_served : ∃ s₁ s₂ s t,
    run step legacyDatabase halfMigrated = some s₁ ∧ run step s₁ openedAgain = some s₂ ∧
    run step s₂ [.write 1 true (.markCached newer [109] newSource 9)] = some s ∧ s.table = some t ∧
    effects legacyDatabase (halfMigrated ++ openedAgain) = [.markHit older [109] 8] ∧
    storedFingerprint t older [109] = some ⟨0, 0, 7⟩ ∧ storedFingerprint t newer [109] = some ⟨3, 0, 9⟩ := by
  have hrun : ((run step legacyDatabase halfMigrated).any fun s₁ =>
      (s₁.conns 0).isNone && (run step s₁ openedAgain).any fun s₂ =>
        s₂.conns 0 = some [] &&
          (run step s₂ [.write 1 true (.markCached newer [109] newSource 9)]).isSome) = true := by decide +kernel
  obtain ⟨s₁, h₁, h⟩ := (Option.any_eq_true _ _).mp hrun
  rw [Bool.and_eq_true, Option.isNone_iff_eq_none] at h
  obtain ⟨s₂, h₂, h'⟩ := (Option.any_eq_true _ _).mp h.2
  rw [Bool.and_eq_true, decide_eq_true_eq, Option.isSome_iff_exists] at h'
  obtain ⟨hopen, s, h₃⟩ := h'
  have heffects : effects legacyDatabase (halfMigrated ++ openedAgain) = [.markHit older [109] 8] := by
    decide +kernel
  obtain ⟨-, t, ht, -, hquery⟩ := migrated_serves serves_legacy h₁ h.1 h₂ (by decide) hopen h₃
  rw [heffects] at hquery
  exact ⟨s₁, s₂, s, t, h₁, h₂, h₃, ht, heffects, (hquery older [109]).2, (hquery newer [109]).2⟩

end Legacy

end FsCache
