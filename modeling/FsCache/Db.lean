import FsCache.Lib.Assoc
import FsCache.Path

/- The cache database (cache/db.rs) and the records that go in and out of it.

   The `cache_files` table is a map from (path key, mount) to rows, the
   `deferred_events` table a map from path key to (path, timestamp). SQLite
   INTEGER columns hold an `i64`; the conversions from and to Rust's unsigned
   types are `asI64` and `Int.toNat`. Statements are taken to succeed. The
   tables of process discovery and the read-only client queries are left out.

   A `Version` is what identifies the content of a backing file to the daemon:
   modification time and size. `fingerprint_cached` says that a row carries the
   version of the snapshot it was written with.

   Correspondence (Rust ↔ Lean):
     `libc::stat`, `SourceMetadata`, `Fingerprint` ↔ `Stat`, `SourceMetadata`, `Fingerprint`
     `from_metadata`, `from_stat`                  ↔ `SourceMetadata.fromMetadata`, `fromStat`
     `has_snapshot`, `attrs_match`                 ↔ `hasSnapshot`, `attrsMatch`
     `CacheDb::mark_cached`, …, `remove_deferred`  ↔ `CacheDb.markCached`, …, `removeDeferred` -/

namespace FsCache
open Lib

/-- `x as i64` of an unsigned value. -/
def asI64 (n : Nat) : Int := (BitVec.ofNat 64 n).toInt

/-- `x as u64` of a signed value. -/
def asU64 (i : Int) : Nat := (BitVec.ofInt 64 i).toNat

/-- `x as u32` of a signed value. -/
def asU32 (i : Int) : Nat := (BitVec.ofInt 32 i).toNat

theorem asI64_of_lt {n : Nat} (h : n < 2^63) : asI64 n = n := by
  rw [asI64, BitVec.toInt_ofNat']
  rw [Int.bmod_eq_of_le] <;> omega

theorem asI64_of_ge {n : Nat} (h : n < 2^64) (hge : 2^63 ≤ n) : asI64 n = (n : Int) - 2^64 := by
  rw [asI64, BitVec.toInt_eq_toNat_cond, BitVec.toNat_ofNat, Nat.mod_eq_of_lt h, if_neg (by omega)]
  rfl

theorem asU64_of_nonneg {i : Int} (h0 : 0 ≤ i) (h : i < 2^63) : asU64 i = i.toNat := by
  rw [asU64, BitVec.toNat_ofInt]
  have : i % ((2^64 : Nat) : Int) = i := Int.emod_eq_of_lt h0 (by omega)
  rw [this]

/-- `libc::stat`, less the device and inode numbers, which nothing reads. -/
structure Stat where
  stSize : Int
  stBlocks : Int
  stAtime : Int
  stAtimeNsec : Int
  stMtime : Int
  stMtimeNsec : Int
  stCtime : Int
  stCtimeNsec : Int
  stMode : Nat
  stNlink : Nat
  stUid : Nat
  stGid : Nat
  stRdev : Nat
  stBlksize : Int
  deriving DecidableEq

/-- What tells two contents of a path apart: modification time and size. -/
structure Version where
  mtimeSec : Int
  mtimeNsec : Int
  size : Int
  deriving DecidableEq

def Stat.version (st : Stat) : Version := ⟨st.stMtime, st.stMtimeNsec, st.stSize⟩

/-- Snapshot of a file's source-side identity at copy time. -/
structure Fingerprint where
  sourceMtimeSecs : Int
  sourceMtimeNsecs : Int
  sizeBytes : Nat
  deriving DecidableEq

def Fingerprint.version (fp : Fingerprint) : Version :=
  ⟨fp.sourceMtimeSecs, fp.sourceMtimeNsecs, fp.sizeBytes⟩

/-- A fingerprint that `is_stale` takes for a pre-migration row: it looks at the
modification time only. -/
def Fingerprint.isZero (fp : Fingerprint) : Bool :=
  fp.sourceMtimeSecs == 0 && fp.sourceMtimeNsecs == 0

/-- Source-side metadata captured at copy/populate time. -/
structure SourceMetadata where
  size : Nat
  blocks : Nat
  atimeSec : Int
  atimeNsec : Int
  mtimeSec : Int
  mtimeNsec : Int
  ctimeSec : Int
  ctimeNsec : Int
  mode : Nat
  nlink : Nat
  uid : Nat
  gid : Nat
  rdev : Nat
  blksize : Nat
  deriving DecidableEq

namespace SourceMetadata

/-- From the `std::fs::Metadata` of an open descriptor. -/
def fromMetadata (st : Stat) : SourceMetadata where
  size := asU64 st.stSize
  blocks := asU64 st.stBlocks
  atimeSec := st.stAtime
  atimeNsec := st.stAtimeNsec
  mtimeSec := st.stMtime
  mtimeNsec := st.stMtimeNsec
  ctimeSec := st.stCtime
  ctimeNsec := st.stCtimeNsec
  mode := st.stMode
  nlink := st.stNlink
  uid := st.stUid
  gid := st.stGid
  rdev := st.stRdev
  blksize := asU32 st.stBlksize

def fromStat (st : Stat) : SourceMetadata where
  size := st.stSize.toNat
  blocks := st.stBlocks.toNat
  atimeSec := st.stAtime
  atimeNsec := st.stAtimeNsec
  mtimeSec := st.stMtime
  mtimeNsec := st.stMtimeNsec
  ctimeSec := st.stCtime
  ctimeNsec := st.stCtimeNsec
  mode := st.stMode
  nlink := st.stNlink
  uid := st.stUid
  gid := st.stGid
  rdev := st.stRdev
  blksize := asU32 st.stBlksize

def hasSnapshot (m : SourceMetadata) : Bool := m.mode != 0

def attrsMatch (m other : SourceMetadata) : Bool :=
  m.mode == other.mode && m.uid == other.uid && m.gid == other.gid && m.nlink == other.nlink &&
    m.ctimeSec == other.ctimeSec && m.ctimeNsec == other.ctimeNsec

def version (m : SourceMetadata) : Version := ⟨m.mtimeSec, m.mtimeNsec, m.size⟩

end SourceMetadata

/-- The TEXT key of a path, component by component. -/
abbrev RowKey := List (List UInt8)

abbrev MountId := List UInt8

/-- A row of `cache_files`, less its key. -/
structure Row where
  sizeBytes : Int
  cachedAt : Int
  lastHitAt : Int
  hitCount : Int
  sourceMtimeSecs : Int
  sourceMtimeNsecs : Int
  sourceSizeBytes : Int
  sourceBlocks : Int
  sourceAtimeSec : Int
  sourceAtimeNsec : Int
  sourceCtimeSec : Int
  sourceCtimeNsec : Int
  sourceMode : Int
  sourceNlink : Int
  sourceUid : Int
  sourceGid : Int
  sourceRdev : Int
  sourceBlksize : Int
  deriving DecidableEq

namespace Row

/-- The row `mark_cached` writes. -/
def cached (source : SourceMetadata) (now : Nat) : Row where
  sizeBytes := asI64 source.size
  cachedAt := asI64 now
  lastHitAt := asI64 now
  hitCount := 1
  sourceMtimeSecs := source.mtimeSec
  sourceMtimeNsecs := source.mtimeNsec
  sourceSizeBytes := asI64 source.size
  sourceBlocks := asI64 source.blocks
  sourceAtimeSec := source.atimeSec
  sourceAtimeNsec := source.atimeNsec
  sourceCtimeSec := source.ctimeSec
  sourceCtimeNsec := source.ctimeNsec
  sourceMode := source.mode
  sourceNlink := asI64 source.nlink
  sourceUid := source.uid
  sourceGid := source.gid
  sourceRdev := asI64 source.rdev
  sourceBlksize := source.blksize

/-- The row a startup inserts for a file that has none: every source column is
at its default. -/
def recovered (size now : Nat) : Row where
  sizeBytes := asI64 size
  cachedAt := asI64 now
  lastHitAt := asI64 now
  hitCount := 0
  sourceMtimeSecs := 0
  sourceMtimeNsecs := 0
  sourceSizeBytes := 0
  sourceBlocks := 0
  sourceAtimeSec := 0
  sourceAtimeNsec := 0
  sourceCtimeSec := 0
  sourceCtimeNsec := 0
  sourceMode := 0
  sourceNlink := 0
  sourceUid := 0
  sourceGid := 0
  sourceRdev := 0
  sourceBlksize := 0

/-- The columns `update_source_metadata` sets; `size_bytes` is not one of them. -/
def withSource (row : Row) (source : SourceMetadata) : Row :=
  { row with
    sourceMtimeSecs := source.mtimeSec
    sourceMtimeNsecs := source.mtimeNsec
    sourceSizeBytes := asI64 source.size
    sourceBlocks := asI64 source.blocks
    sourceAtimeSec := source.atimeSec
    sourceAtimeNsec := source.atimeNsec
    sourceCtimeSec := source.ctimeSec
    sourceCtimeNsec := source.ctimeNsec
    sourceMode := source.mode
    sourceNlink := asI64 source.nlink
    sourceUid := source.uid
    sourceGid := source.gid
    sourceRdev := asI64 source.rdev
    sourceBlksize := source.blksize }

def fingerprint (row : Row) : Fingerprint where
  sourceMtimeSecs := row.sourceMtimeSecs
  sourceMtimeNsecs := row.sourceMtimeNsecs
  sizeBytes := row.sizeBytes.toNat

def sourceMetadata (row : Row) : SourceMetadata where
  size := row.sourceSizeBytes.toNat
  blocks := row.sourceBlocks.toNat
  atimeSec := row.sourceAtimeSec
  atimeNsec := row.sourceAtimeNsec
  mtimeSec := row.sourceMtimeSecs
  mtimeNsec := row.sourceMtimeNsecs
  ctimeSec := row.sourceCtimeSec
  ctimeNsec := row.sourceCtimeNsec
  mode := row.sourceMode.toNat % 2^32
  nlink := row.sourceNlink.toNat
  uid := row.sourceUid.toNat % 2^32
  gid := row.sourceGid.toNat % 2^32
  rdev := row.sourceRdev.toNat
  blksize := row.sourceBlksize.toNat % 2^32

end Row

structure CacheDb where
  cacheFiles : Map (RowKey × MountId) Row
  deferredEvents : Map RowKey (RowKey × Int)

namespace CacheDb

def row (db : CacheDb) (relPath : RelPath) (mount : MountId) : Option Row :=
  db.cacheFiles.lookup (rowKey relPath, mount)

def markCached (db : CacheDb) (relPath : RelPath) (mount : MountId) (source : SourceMetadata)
    (now : Nat) : CacheDb :=
  { db with cacheFiles := db.cacheFiles.insert (rowKey relPath, mount) (Row.cached source now) }

def updateRow (db : CacheDb) (relPath : RelPath) (mount : MountId) (f : Row → Row) : CacheDb :=
  match db.row relPath mount with
  | none => db
  | some row => { db with cacheFiles := db.cacheFiles.insert (rowKey relPath, mount) (f row) }

def updateSourceMetadata (db : CacheDb) (relPath : RelPath) (mount : MountId)
    (source : SourceMetadata) : CacheDb :=
  db.updateRow relPath mount fun row => row.withSource source

/-- Update the last-hit timestamp for a file (called on cache hit in FUSE open). -/
def markHit (db : CacheDb) (relPath : RelPath) (mount : MountId) (now : Nat) : CacheDb :=
  db.updateRow relPath mount fun row =>
    { row with lastHitAt := asI64 now, hitCount := row.hitCount + 1 }

def remove (db : CacheDb) (relPath : RelPath) (mount : MountId) : CacheDb :=
  { db with cacheFiles := db.cacheFiles.erase (rowKey relPath, mount) }

def fingerprintRow (db : CacheDb) (relPath : RelPath) (mount : MountId) : Option Fingerprint :=
  (db.row relPath mount).map Row.fingerprint

/-- None for missing or pre-snapshot rows. -/
def sourceMetadataRow (db : CacheDb) (relPath : RelPath) (mount : MountId) :
    Option SourceMetadata :=
  (db.row relPath mount).bind fun row =>
    if row.sourceMetadata.hasSnapshot then some row.sourceMetadata else none

/-- Fingerprints for all tracked files in a mount; the query names no order. -/
def allFingerprints (db : CacheDb) (mount : MountId) : List (RelPath × Fingerprint) :=
  db.cacheFiles.entries.filterMap fun e =>
    if e.1.2 = mount then some (pathOfKey e.1.1, e.2.fingerprint) else none

/-- `SUM(size_bytes)` over the rows of a mount; the sum does not overflow. -/
def totalCachedBytes (db : CacheDb) (mount : MountId) : Nat :=
  (Map.total (fun key row => if key.2 = mount then row.sizeBytes else 0) db.cacheFiles).toNat

/-- Total bytes across all mounts. -/
def totalCachedBytesGlobal (db : CacheDb) : Nat :=
  (Map.total (fun _ row => row.sizeBytes) db.cacheFiles).toNat

def saveDeferred (db : CacheDb) (key path : RelPath) (timestamp : Nat) : CacheDb :=
  { db with deferredEvents := db.deferredEvents.insert (rowKey key) (rowKey path, asI64 timestamp) }

/-- `now - ttl_minutes * 60`, in `u64` arithmetic. -/
def ttlCutoff (ttlMinutes now : Nat) : Nat := now - ttlMinutes * 60 % 2^64

/-- Load deferred events, discarding entries older than `ttl_minutes`; the query
names no order. -/
def loadDeferred (db : CacheDb) (ttlMinutes now : Nat) : List (RelPath × Nat) :=
  db.deferredEvents.entries.filterMap fun e =>
    if asI64 (ttlCutoff ttlMinutes now) ≤ e.2.2 then some (pathOfKey e.2.1, asU64 e.2.2) else none

def removeDeferred (db : CacheDb) (key : RelPath) : CacheDb :=
  { db with deferredEvents := db.deferredEvents.erase (rowKey key) }

/-! ## Rows and fingerprints after each statement -/

variable {db : CacheDb} {p q : RelPath} {mount : MountId}

theorem row_updateRow (f : Row → Row) :
    (db.updateRow p mount f).row q mount =
      if rowKey q = rowKey p then (db.row p mount).map f else db.row q mount := by
  unfold updateRow
  cases h : db.row p mount with
  | none =>
    simp only [Option.map_none]
    by_cases hq : rowKey q = rowKey p
    · rw [if_pos hq, row, hq, ← row, h]
    · rw [if_neg hq]
  | some r =>
    simp only [row, Map.lookup_insert_if, Prod.mk.injEq, and_true, Option.map_some]

theorem row_markCached (source : SourceMetadata) (now : Nat) :
    (db.markCached p mount source now).row q mount =
      if rowKey q = rowKey p then some (Row.cached source now) else db.row q mount := by
  simp only [markCached, row, Map.lookup_insert_if, Prod.mk.injEq, and_true]

theorem row_remove :
    (db.remove p mount).row q mount = if rowKey q = rowKey p then none else db.row q mount := by
  simp only [remove, row, Map.lookup_erase_if, Prod.mk.injEq, and_true]

@[simp] theorem row_saveDeferred (key path : RelPath) (ts : Nat) :
    (db.saveDeferred key path ts).row q mount = db.row q mount := rfl

@[simp] theorem row_removeDeferred (key : RelPath) :
    (db.removeDeferred key).row q mount = db.row q mount := rfl

/-- A hit leaves every fingerprint as it is. -/
theorem fingerprintRow_markHit (now : Nat) :
    (db.markHit p mount now).fingerprintRow q mount = db.fingerprintRow q mount := by
  rw [fingerprintRow, markHit, row_updateRow, fingerprintRow]
  split
  · next hq =>
    rw [show db.row q mount = db.row p mount by rw [row, row, hq], Option.map_map]
    rfl
  · rfl

/-- No row has a negative size. -/
def Sized (db : CacheDb) : Prop := ∀ key row, db.cacheFiles.lookup key = some row → 0 ≤ row.sizeBytes

theorem sized_markCached (h : db.Sized) {source : SourceMetadata} (hsize : source.size < 2^63)
    (now : Nat) : (db.markCached p mount source now).Sized := by
  intro key row hrow
  rw [markCached, Map.lookup_insert_if] at hrow
  split at hrow
  · obtain rfl := Option.some.inj hrow
    show 0 ≤ asI64 source.size
    rw [asI64_of_lt hsize]
    exact Int.natCast_nonneg _
  · exact h key row hrow

theorem sized_remove (h : db.Sized) : (db.remove p mount).Sized := by
  intro key row hrow
  rw [remove, Map.lookup_erase_if] at hrow
  split at hrow
  · exact absurd hrow (by simp)
  · exact h key row hrow

/-- The weight of a row in the total of its mount. -/
theorem total_erase_le (h : db.Sized) (m : MountId) (key : RowKey × MountId) :
    Map.total (fun key row => if key.2 = m then row.sizeBytes else 0) (db.cacheFiles.erase key) ≤
      Map.total (fun key row => if key.2 = m then row.sizeBytes else 0) db.cacheFiles := by
  cases hrow : db.cacheFiles.lookup key with
  | none => rw [Map.erase_of_none hrow]
  | some row =>
    rw [Map.total_erase _ hrow]
    have hsize := h key row hrow
    split <;> omega

theorem totalCachedBytes_remove_le (h : db.Sized) (m : MountId) :
    (db.remove p mount).totalCachedBytes m ≤ db.totalCachedBytes m :=
  Int.toNat_le_toNat (total_erase_le h m _)

theorem totalCachedBytes_markCached_le (h : db.Sized) {source : SourceMetadata}
    (hsize : source.size < 2^63) (now : Nat) :
    (db.markCached p mount source now).totalCachedBytes mount ≤ db.totalCachedBytes mount + source.size := by
  have hle := total_erase_le h mount (rowKey p, mount)
  have hnew : (Row.cached source now).sizeBytes = source.size := asI64_of_lt hsize
  rw [totalCachedBytes, markCached, Map.total_insert, if_pos rfl, hnew, totalCachedBytes]
  omega

end CacheDb

/-- A row carries the version it was written with. -/
theorem fingerprint_cached {source : SourceMetadata} (h : source.size < 2^63) (now : Nat) :
    (Row.cached source now).fingerprint.version = source.version := by
  simp only [Row.cached, Row.fingerprint, Fingerprint.version, SourceMetadata.version,
    asI64_of_lt h, Int.toNat_natCast]

/-- A refresh of the metadata leaves the size the row was written with. -/
theorem fingerprint_withSource (row : Row) (source : SourceMetadata) :
    (row.withSource source).fingerprint.version =
      ⟨source.mtimeSec, source.mtimeNsec, row.fingerprint.sizeBytes⟩ := rfl

theorem fromMetadata_eq_fromStat_size {st : Stat} (h0 : 0 ≤ st.stSize) (h : st.stSize < 2^63) :
    (SourceMetadata.fromMetadata st).size = (SourceMetadata.fromStat st).size :=
  asU64_of_nonneg h0 h

theorem version_fromStat {st : Stat} (h0 : 0 ≤ st.stSize) :
    (SourceMetadata.fromStat st).version = st.version := by
  simp only [SourceMetadata.fromStat, SourceMetadata.version, Stat.version, Int.toNat_of_nonneg h0]

theorem version_fromMetadata {st : Stat} (h0 : 0 ≤ st.stSize) (h : st.stSize < 2^63) :
    (SourceMetadata.fromMetadata st).version = st.version := by
  have hs : ((SourceMetadata.fromMetadata st).size : Int) = st.stSize := by
    rw [fromMetadata_eq_fromStat_size h0 h]
    exact Int.toNat_of_nonneg h0
  simp only [SourceMetadata.version, hs]
  rfl

end FsCache
