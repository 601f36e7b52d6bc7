import FsCache.Lib.Sql
import FsCache.Verdict

/- The snapshot columns of `cache_files`, as the prepared statements of cache/db.rs write and read
   them: by position. Two statements write the fourteen fields of a `SourceMetadata`, in different
   orders, and two queries read them back, in a third and a fourth.

   What is proved:
     1. `table_markCached`, `table_updateSourceMetadata`: on the records of the table the statements do
        what `CacheDb.markCached` and `CacheDb.updateSourceMetadata` do on the rows;
        `sourceMetadataQuery_table`, `fingerprintQuery_table`: so do the queries.
     2. `snapshot_roundtrip`: what either statement has written, the queries return, and no other
        record changes.

   Parameters are bound in the order of `params!`, `?1` first. A `u64` goes in `as i64` and comes
   back as `max(0) as u64`, so the fields of that type make the way only below 2^63.

   Correspondence (Rust ↔ Lean):
     `CREATE TABLE cache_files`, the migrations ↔ `Column`, `defaults`, `primaryKey`
     the SQL of `mark_cached`                   ↔ `markCachedColumns`, `markCachedValues`
     the SQL of `update_source_metadata`        ↔ `updateSettings`
     `params![..]`                              ↔ `markCachedParams`, `updateParams`
     `source_metadata_row`, `fingerprint_row`   ↔ `sourceMetadataQuery`, `fingerprintQuery`
     `row.get(i)?`                              ↔ `integerAt` -/

namespace FsCache
open Lib Lib.Sql
open List

inductive Column where
  | relPath
  | mountId
  | sizeBytes
  | cachedAt
  | lastHitAt
  | hitCount
  | sourceMtimeSecs
  | sourceMtimeNsecs
  | sourceSizeBytes
  | sourceBlocks
  | sourceAtimeSec
  | sourceAtimeNsec
  | sourceCtimeSec
  | sourceCtimeNsec
  | sourceMode
  | sourceNlink
  | sourceUid
  | sourceGid
  | sourceRdev
  | sourceBlksize
  deriving DecidableEq

/-- The TEXT of a path key, that of a mount, or an INTEGER. -/
inductive Value where
  | path (key : RowKey)
  | name (mount : MountId)
  | integer (i : Int)
  deriving DecidableEq

/-- `DEFAULT 0`; an INSERT names the two columns that have no default. -/
def defaults : Record Column Value := fun _ => .integer 0

def primaryKey : List Column := [.relPath, .mountId]

def Row.record (key : RowKey × MountId) (row : Row) : Record Column Value
  | .relPath => .path key.1
  | .mountId => .name key.2
  | .sizeBytes => .integer row.sizeBytes
  | .cachedAt => .integer row.cachedAt
  | .lastHitAt => .integer row.lastHitAt
  | .hitCount => .integer row.hitCount
  | .sourceMtimeSecs => .integer row.sourceMtimeSecs
  | .sourceMtimeNsecs => .integer row.sourceMtimeNsecs
  | .sourceSizeBytes => .integer row.sourceSizeBytes
  | .sourceBlocks => .integer row.sourceBlocks
  | .sourceAtimeSec => .integer row.sourceAtimeSec
  | .sourceAtimeNsec => .integer row.sourceAtimeNsec
  | .sourceCtimeSec => .integer row.sourceCtimeSec
  | .sourceCtimeNsec => .integer row.sourceCtimeNsec
  | .sourceMode => .integer row.sourceMode
  | .sourceNlink => .integer row.sourceNlink
  | .sourceUid => .integer row.sourceUid
  | .sourceGid => .integer row.sourceGid
  | .sourceRdev => .integer row.sourceRdev
  | .sourceBlksize => .integer row.sourceBlksize

/-- `cache_files` with its records. -/
def CacheDb.table (db : CacheDb) : Table Column Value := records Row.record db.cacheFiles

/-! ## The statements -/

/-- `WHERE rel_path = ?1 AND mount_id = ?2` -/
def whereKey : List (Column × Term Value) := [(.relPath, .param 1), (.mountId, .param 2)]

def markCachedColumns : List Column :=
  [.relPath, .mountId, .sizeBytes, .cachedAt, .lastHitAt, .hitCount,
    .sourceMtimeSecs, .sourceMtimeNsecs, .sourceSizeBytes, .sourceBlocks,
    .sourceAtimeSec, .sourceAtimeNsec, .sourceCtimeSec, .sourceCtimeNsec,
    .sourceMode, .sourceNlink, .sourceUid, .sourceGid, .sourceRdev, .sourceBlksize]

def markCachedValues : List (Term Value) :=
  [.param 1, .param 2, .param 3, .param 4, .param 4, .lit (.integer 1), .param 5, .param 6, .param 3,
    .param 7, .param 8, .param 9, .param 10, .param 11, .param 12, .param 13, .param 14, .param 15,
    .param 16, .param 17]

def markCachedParams (p : RelPath) (mount : MountId) (source : SourceMetadata) (now : Nat) : List Value :=
  [.path (rowKey p), .name mount, .integer (asI64 source.size), .integer (asI64 now),
    .integer source.mtimeSec, .integer source.mtimeNsec,
    .integer (asI64 source.blocks), .integer source.atimeSec, .integer source.atimeNsec,
    .integer source.ctimeSec, .integer source.ctimeNsec,
    .integer source.mode, .integer (asI64 source.nlink), .integer source.uid, .integer source.gid,
    .integer (asI64 source.rdev), .integer source.blksize]

def markCachedStatement (t : Table Column Value) (p : RelPath) (mount : MountId) (source : SourceMetadata)
    (now : Nat) : Table Column Value :=
  insertOrReplace primaryKey
    (assign (markCachedParams p mount source now) (markCachedColumns.zip markCachedValues) defaults) t

def updateSettings : List (Column × Term Value) :=
  [(.sourceMtimeSecs, .param 3), (.sourceMtimeNsecs, .param 4), (.sourceSizeBytes, .param 5),
    (.sourceBlocks, .param 6),
    (.sourceAtimeSec, .param 7), (.sourceAtimeNsec, .param 8), (.sourceCtimeSec, .param 9),
    (.sourceCtimeNsec, .param 10),
    (.sourceMode, .param 11), (.sourceNlink, .param 12), (.sourceUid, .param 13), (.sourceGid, .param 14),
    (.sourceRdev, .param 15),
    (.sourceBlksize, .param 16)]

def updateParams (p : RelPath) (mount : MountId) (source : SourceMetadata) : List Value :=
  [.path (rowKey p), .name mount, .integer source.mtimeSec, .integer source.mtimeNsec,
    .integer (asI64 source.size),
    .integer (asI64 source.blocks), .integer source.atimeSec, .integer source.atimeNsec,
    .integer source.ctimeSec, .integer source.ctimeNsec,
    .integer source.mode, .integer (asI64 source.nlink), .integer source.uid, .integer source.gid,
    .integer (asI64 source.rdev), .integer source.blksize]

def updateStatement (t : Table Column Value) (p : RelPath) (mount : MountId) (source : SourceMetadata) :
    Table Column Value :=
  update (updateParams p mount source) updateSettings whereKey t

/-! ## The queries -/

/-- A column of a result, as an `i64`. -/
def integerAt (result : List Value) (i : Nat) : Option Int :=
  match result[i]? with
  | some (.integer v) => some v
  | _ => none

def sourceColumns : List Column :=
  [.sourceSizeBytes, .sourceBlocks, .sourceAtimeSec, .sourceAtimeNsec,
    .sourceMtimeSecs, .sourceMtimeNsecs, .sourceCtimeSec, .sourceCtimeNsec,
    .sourceMode, .sourceNlink, .sourceUid, .sourceGid, .sourceRdev, .sourceBlksize]

def readSource (result : List Value) : Option SourceMetadata := do
  let size ← integerAt result 0
  let blocks ← integerAt result 1
  let atimeSec ← integerAt result 2
  let atimeNsec ← integerAt result 3
  let mtimeSec ← integerAt result 4
  let mtimeNsec ← integerAt result 5
  let ctimeSec ← integerAt result 6
  let ctimeNsec ← integerAt result 7
  let mode ← integerAt result 8
  let nlink ← integerAt result 9
  let uid ← integerAt result 10
  let gid ← integerAt result 11
  let rdev ← integerAt result 12
  let blksize ← integerAt result 13
  return {
    size := size.toNat
    blocks := blocks.toNat
    atimeSec
    atimeNsec
    mtimeSec
    mtimeNsec
    ctimeSec
    ctimeNsec
    mode := mode.toNat % 2^32
    nlink := nlink.toNat
    uid := uid.toNat % 2^32
    gid := gid.toNat % 2^32
    rdev := rdev.toNat
    blksize := blksize.toNat % 2^32 }

/-- `query_row` takes the first row of the result, and fails where there is none. -/
def sourceMetadataQuery (t : Table Column Value) (p : RelPath) (mount : MountId) : Option SourceMetadata :=
  ((select [.path (rowKey p), .name mount] sourceColumns whereKey t).head?.bind readSource).filter
    SourceMetadata.hasSnapshot

def fingerprintColumns : List Column := [.sourceMtimeSecs, .sourceMtimeNsecs, .sizeBytes]

def readFingerprint (result : List Value) : Option Fingerprint := do
  let secs ← integerAt result 0
  let nsecs ← integerAt result 1
  let size ← integerAt result 2
  return { sourceMtimeSecs := secs, sourceMtimeNsecs := nsecs, sizeBytes := size.toNat }

def fingerprintQuery (t : Table Column Value) (p : RelPath) (mount : MountId) : Option Fingerprint :=
  (select [.path (rowKey p), .name mount] fingerprintColumns whereKey t).head?.bind readFingerprint

/-! ## What they do on the rows -/

section Rows

variable {db : CacheDb} {p : RelPath} {mount : MountId} {source : SourceMetadata}

/-- Whatever the parameters after the second are. -/
theorem holds_whereKey (params : List Value) (key : RowKey × MountId) (row : Row) :
    holds (.path (rowKey p) :: .name mount :: params) whereKey (row.record key) =
      decide (key = (rowKey p, mount)) := by
  obtain ⟨k, m⟩ := key
  have hconds : holds (.path (rowKey p) :: .name mount :: params) whereKey (row.record (k, m)) =
      (some (.path (rowKey p)) == some (Value.path k) &&
        (some (.name mount) == some (Value.name m) && true)) := rfl
  rw [hconds, Bool.eq_iff_iff, decide_eq_true_eq, Prod.mk.injEq]
  simp only [Bool.and_true, Bool.and_eq_true, beq_iff_eq, Option.some.injEq, Value.path.injEq,
    Value.name.injEq]
  exact and_congr eq_comm eq_comm

theorem primaryKey_record (key key' : RowKey × MountId) (row row' : Row) :
    (primaryKey.all fun c => row.record key c == row'.record key' c) = decide (key = key') := by
  rw [Bool.eq_iff_iff, decide_eq_true_eq, Prod.ext_iff]
  simp [primaryKey, Row.record]

theorem record_cached (source : SourceMetadata) (now : Nat) :
    assign (markCachedParams p mount source now) (markCachedColumns.zip markCachedValues) defaults =
      (Row.cached source now).record (rowKey p, mount) := by
  funext c
  cases c <;> rfl

theorem record_withSource (row : Row) (source : SourceMetadata) :
    assign (updateParams p mount source) updateSettings (row.record (rowKey p, mount)) =
      (row.withSource source).record (rowKey p, mount) := by
  funext c
  cases c <;> rfl

theorem table_markCached (now : Nat) :
    (db.markCached p mount source now).table = markCachedStatement db.table p mount source now := by
  rw [markCachedStatement, record_cached]
  exact records_insert fun key row => primaryKey_record key _ row _

theorem table_updateSourceMetadata :
    (db.updateSourceMetadata p mount source).table ~ updateStatement db.table p mount source := by
  rw [CacheDb.updateSourceMetadata, CacheDb.updateRow]
  cases h : db.row p mount with
  | none =>
    refine List.Perm.of_eq ?_
    exact (records_update_of_none (holds_whereKey _) h).symm
  | some row =>
    exact records_update (holds_whereKey _) (fun row => record_withSource row source) h

theorem readSource_record (key : RowKey × MountId) (row : Row) :
    readSource (sourceColumns.map (row.record key)) = some row.sourceMetadata := rfl

theorem readFingerprint_record (key : RowKey × MountId) (row : Row) :
    readFingerprint (fingerprintColumns.map (row.record key)) = some row.fingerprint := rfl

theorem sourceMetadataQuery_table : sourceMetadataQuery db.table p mount = db.sourceMetadataRow p mount := by
  rw [sourceMetadataQuery, CacheDb.table, select_records (holds_whereKey []), CacheDb.sourceMetadataRow,
    ← CacheDb.row]
  cases db.row p mount with
  | none => rfl
  | some row =>
    rw [Option.toList_some, List.map_singleton, List.head?_singleton, Option.bind_some, readSource_record]
    cases hs : row.sourceMetadata.hasSnapshot <;> simp [hs]

theorem fingerprintQuery_table : fingerprintQuery db.table p mount = db.fingerprintRow p mount := by
  rw [fingerprintQuery, CacheDb.table, select_records (holds_whereKey []), CacheDb.fingerprintRow,
    ← CacheDb.row]
  cases db.row p mount with
  | none => rfl
  | some row =>
    rw [Option.toList_some, List.map_singleton, List.head?_singleton, Option.bind_some, readFingerprint_record,
      Option.map_some]

end Rows

/-! ## The way there and back -/

/-- What the columns can hold: `u32` fields, and `u64` fields that are no negative `i64`. -/
structure SourceMetadata.Storable (m : SourceMetadata) : Prop where
  size : m.size < 2^63
  blocks : m.blocks < 2^63
  nlink : m.nlink < 2^63
  rdev : m.rdev < 2^63
  mode : m.mode < 2^32
  uid : m.uid < 2^32
  gid : m.gid < 2^32
  blksize : m.blksize < 2^32

/-- The columns that belong to the copy and its use, and not to the snapshot. -/
def usageColumns : List Column := [.sizeBytes, .cachedAt, .lastHitAt, .hitCount]

/-- The record of this key. -/
def IsAt (p : RelPath) (mount : MountId) (r : Record Column Value) : Prop :=
  r .relPath = .path (rowKey p) ∧ r .mountId = .name mount

def OthersKept (p : RelPath) (mount : MountId) (t t' : Table Column Value) : Prop :=
  ∀ r, ¬ IsAt p mount r → (r ∈ t' ↔ r ∈ t)

section RoundTrip

variable {db : CacheDb} {p : RelPath} {mount : MountId} {source : SourceMetadata} {row : Row}

theorem sourceMetadata_withSource (h : source.Storable) (row : Row) :
    (row.withSource source).sourceMetadata = source := by
  simp only [Row.withSource, Row.sourceMetadata, asI64_of_lt h.size, asI64_of_lt h.blocks, asI64_of_lt h.nlink,
    asI64_of_lt h.rdev, Int.toNat_natCast, Nat.mod_eq_of_lt h.mode, Nat.mod_eq_of_lt h.uid,
    Nat.mod_eq_of_lt h.gid, Nat.mod_eq_of_lt h.blksize]

/-- Both statements put the same values in the source columns. -/
theorem sourceMetadata_cached (h : source.Storable) (now : Nat) :
    (Row.cached source now).sourceMetadata = source :=
  sourceMetadata_withSource h (Row.cached source now)

theorem sourceMetadataRow_of_row (hmode : source.mode ≠ 0) (hrow : db.row p mount = some row)
    (hsource : row.sourceMetadata = source) : db.sourceMetadataRow p mount = some source := by
  rw [CacheDb.sourceMetadataRow, hrow, Option.bind_some, hsource, SourceMetadata.hasSnapshot,
    if_pos (bne_iff_ne.mpr hmode)]

theorem isAt_record {key : RowKey × MountId} :
    IsAt p mount (row.record key) ↔ key = (rowKey p, mount) := by
  rw [Prod.ext_iff, IsAt]
  simp only [Row.record, Value.path.injEq, Value.name.injEq]

theorem mem_table {r : Record Column Value} :
    r ∈ db.table ↔ ∃ key row, db.cacheFiles.lookup key = some row ∧ r = row.record key := by
  rw [CacheDb.table, records, List.mem_map]
  constructor
  · intro h
    obtain ⟨e, he, hr⟩ := h
    exact ⟨e.1, e.2, AList.mem_lookup_iff.mpr he, hr.symm⟩
  · intro h
    obtain ⟨key, row, hrow, hr⟩ := h
    exact ⟨⟨key, row⟩, AList.mem_lookup_iff.mp hrow, hr.symm⟩

theorem row_of_isAt {r : Record Column Value} (hr : r ∈ db.table) (hat : IsAt p mount r) :
    ∃ row, db.row p mount = some row ∧ r = row.record (rowKey p, mount) := by
  obtain ⟨key, row, hrow, rfl⟩ := mem_table.mp hr
  obtain rfl := isAt_record.mp hat
  exact ⟨row, hrow, rfl⟩

/-- Maps that agree elsewhere have the same other records. -/
theorem othersKept_of_lookup {db' : CacheDb} (h : ∀ key, key ≠ (rowKey p, mount) →
    db'.cacheFiles.lookup key = db.cacheFiles.lookup key) : OthersKept p mount db.table db'.table := by
  intro r hr
  rw [mem_table, mem_table]
  refine exists_congr fun key => exists_congr fun row => ?_
  rw [and_congr_left_iff]
  intro hrow
  subst hrow
  rw [h key fun hkey => hr (isAt_record.mpr hkey)]

theorem lookup_updateRow_of_ne (f : Row → Row) {key : RowKey × MountId} (h : key ≠ (rowKey p, mount)) :
    (db.updateRow p mount f).cacheFiles.lookup key = db.cacheFiles.lookup key := by
  unfold CacheDb.updateRow
  cases db.row p mount with
  | none => rfl
  | some row => exact (Map.lookup_insert_if _ _ _ _).trans (if_neg h)

/-- A permutation of the records is the same table to a query by the key. -/
theorem sourceMetadataQuery_perm {t t' : Table Column Value} (ht : t = db.table) (h : t ~ t') :
    sourceMetadataQuery t' p mount = sourceMetadataQuery t p mount := by
  have hsel : select [.path (rowKey p), .name mount] sourceColumns whereKey t ~
      select [.path (rowKey p), .name mount] sourceColumns whereKey t' := (h.filter _).map _
  rw [sourceMetadataQuery, sourceMetadataQuery]
  rw [ht, CacheDb.table, select_records (holds_whereKey [])] at hsel ⊢
  cases hrow : db.cacheFiles.lookup (rowKey p, mount) with
  | none =>
    rw [hrow] at hsel
    rw [List.nil_perm.mp hsel]
    rfl
  | some row =>
    rw [hrow, Option.toList_some, List.map_singleton] at hsel
    rw [← List.singleton_perm.mp hsel]
    rfl

/-- What `mark_cached` and `update_source_metadata` have stored of a snapshot comes back as it was. -/
theorem snapshot_roundtrip (h : source.Storable) (hmode : source.mode ≠ 0) (db : CacheDb) (p : RelPath)
    (mount : MountId) (now : Nat) :
    sourceMetadataQuery (markCachedStatement db.table p mount source now) p mount = some source ∧
    fingerprintQuery (markCachedStatement db.table p mount source now) p mount =
      some ⟨source.mtimeSec, source.mtimeNsec, source.size⟩ ∧
    (∀ r ∈ db.table, IsAt p mount r →
      sourceMetadataQuery (updateStatement db.table p mount source) p mount = some source ∧
      ∀ r' ∈ updateStatement db.table p mount source, IsAt p mount r' → ∀ c ∈ usageColumns, r' c = r c) ∧
    ((∀ r ∈ db.table, ¬ IsAt p mount r) → updateStatement db.table p mount source = db.table) ∧
    OthersKept p mount db.table (markCachedStatement db.table p mount source now) ∧
    OthersKept p mount db.table (updateStatement db.table p mount source) := by
  have hperm : (db.updateSourceMetadata p mount source).table ~ updateStatement db.table p mount source :=
    table_updateSourceMetadata
  have hcached : (db.markCached p mount source now).row p mount = some (Row.cached source now) := by
    rw [CacheDb.row_markCached, if_pos rfl]
  rw [← table_markCached, sourceMetadataQuery_table, fingerprintQuery_table]
  refine ⟨sourceMetadataRow_of_row hmode hcached (sourceMetadata_cached h now), ?_, ?_, ?_, ?_, ?_⟩
  · rw [CacheDb.fingerprintRow, hcached]
    simp only [Option.map_some, Row.fingerprint, Row.cached, asI64_of_lt h.size, Int.toNat_natCast]
  · intro r hr hat
    obtain ⟨row, hrow, rfl⟩ := row_of_isAt hr hat
    have hupdated : (db.updateSourceMetadata p mount source).row p mount = some (row.withSource source) := by
      rw [CacheDb.updateSourceMetadata, CacheDb.row_updateRow, if_pos rfl, hrow, Option.map_some]
    constructor
    · rw [sourceMetadataQuery_perm rfl hperm, sourceMetadataQuery_table]
      exact sourceMetadataRow_of_row hmode hupdated (sourceMetadata_withSource h row)
    · intro r' hr' hat' c hc
      obtain ⟨row', hrow', rfl⟩ := row_of_isAt (hperm.mem_iff.mpr hr') hat'
      obtain rfl := Option.some.inj (hupdated.symm.trans hrow')
      -- each of the four columns is none of those the statement sets
      simp only [usageColumns, List.mem_cons, List.not_mem_nil, or_false] at hc
      obtain rfl | rfl | rfl | rfl := hc <;> rfl
  · intro hnone
    refine records_update_of_none (holds_whereKey _) ?_
    rw [← Option.not_isSome_iff_eq_none, Option.isSome_iff_exists]
    intro hsome
    obtain ⟨row, hrow⟩ := hsome
    exact hnone _ (mem_table.mpr ⟨_, row, hrow, rfl⟩) (isAt_record.mpr rfl)
  · exact othersKept_of_lookup fun key hkey => (Map.lookup_insert_if _ _ _ _).trans (if_neg hkey)
  · intro r hr
    rw [← hperm.mem_iff]
    exact othersKept_of_lookup (fun key hkey => lookup_updateRow_of_ne _ hkey) r hr

end RoundTrip

section Portrait

private def portrait : RelPath := [⟨[112], Eq.refl true⟩]
private def gallery : MountId := [103]

/-- Every field has a value of its own. -/
private def framed : SourceMetadata where
  size := 2^63 - 1
  blocks := 2
  atimeSec := -3
  atimeNsec := 4
  mtimeSec := -5
  mtimeNsec := 6
  ctimeSec := 7
  ctimeNsec := 8
  mode := 2^32 - 1
  nlink := 10
  uid := 11
  gid := 12
  rdev := 13
  blksize := 14

private theorem framed_storable : framed.Storable :=
  ⟨by decide, by decide, by decide, by decide, by decide, by decide, by decide, by decide⟩

theorem portrait_roundtrip :
    sourceMetadataQuery (markCachedStatement (CacheDb.table ⟨∅, ∅⟩) portrait gallery framed 9) portrait gallery =
      some framed :=
  (snapshot_roundtrip framed_storable (by decide) ⟨∅, ∅⟩ portrait gallery 9).1

end Portrait

end FsCache
