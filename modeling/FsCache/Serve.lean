import FsCache.InodeRun
import FsCache.Manager

/- What the mount answers to a lookup, a getattr, an open for reading and a read
   (fuse/fusefs.rs, fuse/read.rs).

   Attributes of a cached path come from the snapshot in its row, and of a path without
   one from a stat of the backing. An open serves what is at the path in the cache, and
   otherwise the backing. The two look at the cache separately, and neither at the type
   of what it finds there.

   `BackingStore::stat` is asked once by `cached_regular_attr` and once by its caller;
   `live` and `live'` are the two answers. A `Duration` that does not fit a `SystemTime`
   panics, which is a reply of its own. Opening what is there in the cache is taken to
   succeed. The watcher's touch, the access events and the log are left out.

   Correspondence (Rust ↔ Lean):
     `mode_to_filetype`, `stat_to_attr`          ↔ `modeToFiletype`, `statToAttr`
     `source_metadata_to_attr`                   ↔ `sourceMetadataToAttr`
     `cached_regular_attr`                       ↔ `cachedRegularAttr`
     `do_lookup`, `do_getattr`, less the inodes  ↔ `attrReply`
     `do_lookup`, `do_getattr`                   ↔ `doLookup`, `doGetattr`
     `try_open`, `do_read`                       ↔ `tryOpen`, `doRead` -/

namespace FsCache
open Lib

abbrev Errno := Nat

def ENOENT : Errno := 2
def EIO : Errno := 5
def ENOTDIR : Errno := 20

inductive FileType where
  | namedPipe
  | charDevice
  | blockDevice
  | directory
  | regularFile
  | symlink
  | socket
  deriving DecidableEq

/-- The bits of a mode that hold the type. -/
def S_IFMT : Nat := 0o170000

def modeToFiletype (mode : Nat) : FileType :=
  match mode &&& S_IFMT with
  | 0o040000 => .directory
  | 0o120000 => .symlink
  | 0o060000 => .blockDevice
  | 0o020000 => .charDevice
  | 0o010000 => .namedPipe
  | 0o140000 => .socket
  | _ => .regularFile

/-- A time since the epoch. -/
structure SystemTime where
  secs : Nat
  nanos : Nat
  deriving DecidableEq

/-- `UNIX_EPOCH + Duration::new(secs, nanos)`; `none`: it overflows, and panics. -/
def sinceEpoch (secs nanos : Nat) : Option SystemTime :=
  if secs + nanos / 10^9 < 2^63 then some ⟨secs + nanos / 10^9, nanos % 10^9⟩ else none

structure FileAttr where
  ino : Nat
  size : Nat
  blocks : Nat
  atime : SystemTime
  mtime : SystemTime
  ctime : SystemTime
  crtime : SystemTime
  kind : FileType
  perm : Nat
  nlink : Nat
  uid : Nat
  gid : Nat
  rdev : Nat
  blksize : Nat
  flags : Nat
  deriving DecidableEq

def statToAttr (ino : Nat) (s : Stat) : Option FileAttr :=
  (sinceEpoch (asU64 s.stAtime) (asU32 s.stAtimeNsec)).bind fun atime =>
  (sinceEpoch (asU64 s.stMtime) (asU32 s.stMtimeNsec)).bind fun mtime =>
  (sinceEpoch (asU64 s.stCtime) (asU32 s.stCtimeNsec)).map fun ctime =>
    { ino := ino
      size := asU64 s.stSize
      blocks := asU64 s.stBlocks
      atime := atime
      mtime := mtime
      ctime := ctime
      crtime := ⟨0, 0⟩
      kind := modeToFiletype s.stMode
      perm := s.stMode &&& 0o7777
      nlink := s.stNlink % 2^32
      uid := s.stUid
      gid := s.stGid
      rdev := s.stRdev % 2^32
      blksize := asU32 s.stBlksize
      flags := 0 }

def sourceMetadataToAttr (ino : Nat) (m : SourceMetadata) : Option FileAttr :=
  (sinceEpoch m.atimeSec.toNat (m.atimeNsec.toNat % 2^32)).bind fun atime =>
  (sinceEpoch m.mtimeSec.toNat (m.mtimeNsec.toNat % 2^32)).bind fun mtime =>
  (sinceEpoch m.ctimeSec.toNat (m.ctimeNsec.toNat % 2^32)).map fun ctime =>
    { ino := ino
      size := m.size
      blocks := m.blocks
      atime := atime
      mtime := mtime
      ctime := ctime
      crtime := ⟨0, 0⟩
      kind := .regularFile
      perm := m.mode &&& 0o7777
      nlink := m.nlink % 2^32
      uid := m.uid
      gid := m.gid
      rdev := m.rdev % 2^32
      blksize := m.blksize
      flags := 0 }

/-- The row of a cached path, if it has a snapshot; else the backing, and the row is
refreshed from it. -/
def cachedRegularAttr (dir : CacheDir) (db : CacheDb) (mount : MountId) (p : RelPath) (ino : Nat)
    (live : Option Stat) : CacheDb × Option (Option FileAttr) :=
  if isCached dir p then
    match db.sourceMetadataRow p mount with
    | some snapshot => (db, some (sourceMetadataToAttr ino snapshot))
    | none =>
      match live with
      | none => (db, none)
      | some st => (refreshSourceMetadata db mount p st, some (statToAttr ino st))
  else (db, none)

inductive Reply (α : Type) where
  | ok (a : α)
  | error (e : Errno)
  | panic
  deriving DecidableEq

def Reply.ofAttr : Option FileAttr → Reply FileAttr
  | some attr => .ok attr
  | none => .panic

def attrReply (dir : CacheDir) (db : CacheDb) (mount : MountId) (p : RelPath) (ino : Nat)
    (live live' : Option Stat) : CacheDb × Reply FileAttr :=
  match cachedRegularAttr dir db mount p ino live with
  | (db, some attr) => (db, .ofAttr attr)
  | (db, none) =>
    match live' with
    | none => (db, .error ENOENT)
    | some st => (db, .ofAttr (statToAttr ino st))

def doLookup (t : InodeTable) (dir : CacheDir) (db : CacheDb) (mount : MountId) (parent : Nat)
    (name : Name) (live live' : Option Stat) : InodeTable × CacheDb × Reply FileAttr :=
  match t.childPath parent name with
  | none => (t, db, .error ENOENT)
  | some child =>
    match t.getOrCreate child with
    | (t, ino) => (t, attrReply dir db mount child ino live live')

def doGetattr (t : InodeTable) (dir : CacheDir) (db : CacheDb) (mount : MountId) (ino : Nat)
    (live live' : Option Stat) : CacheDb × Reply FileAttr :=
  match t.getPath ino with
  | none => (db, .error ENOENT)
  | some path => attrReply dir db mount path ino live live'

/-- Outcome of a FUSE open() call. -/
inductive OpenOutcome where
  | hit
  | miss
  | filtered
  deriving DecidableEq

/-- What the descriptor of an open for reading is of. -/
inductive ReadFd where
  | cacheFile (ino : Nat)
  | cacheDir
  | backing (h : Handle)
  deriving DecidableEq

/-- `none`: the backing refused. -/
def tryOpen (b : Backing) (dir : CacheDir) (db : CacheDb) (mount : MountId)
    (passthroughMode filtered : Bool) (p : RelPath) (now : Nat) :
    CacheDb × Option (ReadFd × OpenOutcome) :=
  match if !passthroughMode && isCached dir p then dir.lookup p else none with
  | some (.file i) => (db.markHit p mount now, some (.cacheFile i, .hit))
  | some .dir => (db.markHit p mount now, some (.cacheDir, .hit))
  | none => (db, (b.openFile p).map fun h => (.backing h, if filtered then .filtered else .miss))

/-- The bytes behind a descriptor; a directory cannot be read. -/
def ReadFd.bytes (b : Backing) (dir : CacheDir) : ReadFd → Option (List UInt8)
  | .cacheFile i => some ((dir.data i).map CacheByte.val)
  | .cacheDir => none
  | .backing (.file i) => some (b.file i).bytes
  | .backing (.dir _) => none

/-- `none`: EISDIR. -/
def doRead (b : Backing) (dir : CacheDir) (fd : ReadFd) (offset size : Nat) : Option (List UInt8) :=
  (fd.bytes b dir).map fun bytes => (bytes.drop offset).take size

/-- The descriptor is of a regular file. -/
def ReadFd.isRegular : ReadFd → Bool
  | .cacheFile _ | .backing (.file _) => true
  | .cacheDir | .backing (.dir _) => false

/-! ## Sizes and kinds of attributes -/

theorem of_statToAttr {ino : Nat} {s : Stat} {attr : FileAttr} (h : statToAttr ino s = some attr) :
    attr.kind = modeToFiletype s.stMode ∧ attr.size = asU64 s.stSize := by
  obtain ⟨atime, -, h⟩ := Option.bind_eq_some_iff.mp h
  obtain ⟨mtime, -, h⟩ := Option.bind_eq_some_iff.mp h
  obtain ⟨ctime, -, rfl⟩ := Option.map_eq_some_iff.mp h
  exact ⟨rfl, rfl⟩

theorem of_sourceMetadataToAttr {ino : Nat} {m : SourceMetadata} {attr : FileAttr}
    (h : sourceMetadataToAttr ino m = some attr) : attr.kind = .regularFile ∧ attr.size = m.size := by
  obtain ⟨atime, -, h⟩ := Option.bind_eq_some_iff.mp h
  obtain ⟨mtime, -, h⟩ := Option.bind_eq_some_iff.mp h
  obtain ⟨ctime, -, rfl⟩ := Option.map_eq_some_iff.mp h
  exact ⟨rfl, rfl⟩

theorem ino_of_statToAttr {ino : Nat} {s : Stat} {attr : FileAttr} (h : statToAttr ino s = some attr) :
    attr.ino = ino := by
  obtain ⟨atime, -, h⟩ := Option.bind_eq_some_iff.mp h
  obtain ⟨mtime, -, h⟩ := Option.bind_eq_some_iff.mp h
  obtain ⟨ctime, -, rfl⟩ := Option.map_eq_some_iff.mp h
  rfl

theorem ino_of_sourceMetadataToAttr {ino : Nat} {m : SourceMetadata} {attr : FileAttr}
    (h : sourceMetadataToAttr ino m = some attr) : attr.ino = ino := by
  obtain ⟨atime, -, h⟩ := Option.bind_eq_some_iff.mp h
  obtain ⟨mtime, -, h⟩ := Option.bind_eq_some_iff.mp h
  obtain ⟨ctime, -, rfl⟩ := Option.map_eq_some_iff.mp h
  rfl

theorem ofAttr_eq_ok {o : Option FileAttr} {attr : FileAttr} :
    Reply.ofAttr o = .ok attr ↔ o = some attr := by
  cases o <;> simp [Reply.ofAttr]

theorem ofAttr_ne_error {o : Option FileAttr} {e : Errno} : Reply.ofAttr o ≠ .error e := by
  cases o <;> simp [Reply.ofAttr]

/-- The seconds and nanoseconds of a time that fits. -/
def Dated (secs nanos : Int) : Prop := 0 ≤ secs ∧ secs < 2^63 ∧ 0 ≤ nanos ∧ nanos < 10^9

instance (secs nanos : Int) : Decidable (Dated secs nanos) := inferInstanceAs (Decidable (_ ∧ _))

/-- The three times of a stat fit: none is before the epoch. -/
def Stat.Dated (s : Stat) : Prop :=
  FsCache.Dated s.stAtime s.stAtimeNsec ∧ FsCache.Dated s.stMtime s.stMtimeNsec ∧
    FsCache.Dated s.stCtime s.stCtimeNsec

instance (s : Stat) : Decidable s.Dated := inferInstanceAs (Decidable (_ ∧ _))

theorem sinceEpoch_isSome {secs nanos : Int} (h : Dated secs nanos) :
    (sinceEpoch (asU64 secs) (asU32 nanos)).isSome = true := by
  obtain ⟨h0, h1, h2, h3⟩ := h
  have hnanos : asU32 nanos = nanos.toNat := by
    have : nanos % ((2^32 : Nat) : Int) = nanos := Int.emod_eq_of_lt h2 (by omega)
    rw [asU32, BitVec.toNat_ofInt, this]
  have hcarry : nanos.toNat / 10^9 = 0 := Nat.div_eq_of_lt (by omega)
  rw [sinceEpoch, asU64_of_nonneg h0 h1, hnanos, hcarry, if_pos (by omega)]
  rfl

theorem statToAttr_isSome {s : Stat} (h : s.Dated) (ino : Nat) : (statToAttr ino s).isSome = true := by
  obtain ⟨atime, hatime⟩ := Option.isSome_iff_exists.mp (sinceEpoch_isSome h.1)
  obtain ⟨mtime, hmtime⟩ := Option.isSome_iff_exists.mp (sinceEpoch_isSome h.2.1)
  obtain ⟨ctime, hctime⟩ := Option.isSome_iff_exists.mp (sinceEpoch_isSome h.2.2)
  rw [statToAttr, hatime, hmtime, hctime]
  rfl

/-- The three times of a snapshot fit; one before the epoch is taken for the epoch. -/
def SourceMetadata.Dated (m : SourceMetadata) : Prop :=
  (m.atimeSec < 2^63 ∧ m.atimeNsec < 10^9) ∧ (m.mtimeSec < 2^63 ∧ m.mtimeNsec < 10^9) ∧
    m.ctimeSec < 2^63 ∧ m.ctimeNsec < 10^9

instance (m : SourceMetadata) : Decidable m.Dated := inferInstanceAs (Decidable (_ ∧ _))

theorem sinceEpoch_toNat_isSome {secs nanos : Int} (h : secs < 2^63 ∧ nanos < 10^9) :
    (sinceEpoch secs.toNat (nanos.toNat % 2^32)).isSome = true := by
  obtain ⟨hs, hn⟩ := h
  have hnanos : nanos.toNat % 2^32 = nanos.toNat := Nat.mod_eq_of_lt (by omega)
  have hcarry : nanos.toNat / 10^9 = 0 := Nat.div_eq_of_lt (by omega)
  rw [sinceEpoch, hnanos, hcarry, if_pos (by omega)]
  rfl

theorem sourceMetadataToAttr_isSome {m : SourceMetadata} (h : m.Dated) (ino : Nat) :
    (sourceMetadataToAttr ino m).isSome = true := by
  obtain ⟨atime, hatime⟩ := Option.isSome_iff_exists.mp (sinceEpoch_toNat_isSome h.1)
  obtain ⟨mtime, hmtime⟩ := Option.isSome_iff_exists.mp (sinceEpoch_toNat_isSome h.2.1)
  obtain ⟨ctime, hctime⟩ := Option.isSome_iff_exists.mp (sinceEpoch_toNat_isSome h.2.2)
  rw [sourceMetadataToAttr, hatime, hmtime, hctime]
  rfl

/-! ## Where a reply comes from -/

section Replies

variable {b : Backing} {dir : CacheDir} {db : CacheDb} {mount : MountId} {p : RelPath} {ino now : Nat}
  {live live' : Option Stat}

/-- A path that is not cached is answered for by the backing. -/
theorem attrReply_of_not_cached (h : isCached dir p = false) :
    attrReply dir db mount p ino live live' =
      (db, match live' with
        | none => .error ENOENT
        | some st => .ofAttr (statToAttr ino st)) := by
  simp only [attrReply, cachedRegularAttr, h, Bool.false_eq_true, if_false]
  cases live' <;> rfl

/-- A cached path with a snapshot is answered for by its row. -/
theorem attrReply_of_snapshot (h : isCached dir p = true) {m : SourceMetadata}
    (hm : db.sourceMetadataRow p mount = some m) :
    attrReply dir db mount p ino live live' = (db, .ofAttr (sourceMetadataToAttr ino m)) := by
  simp only [attrReply, cachedRegularAttr, h, hm, if_true]

/-- A cached path without a snapshot is answered for by the backing. -/
theorem attrReply_of_no_snapshot (h : isCached dir p = true)
    (hm : db.sourceMetadataRow p mount = none) :
    (attrReply dir db mount p ino live live').2 =
      match live, live' with
      | some st, _ => .ofAttr (statToAttr ino st)
      | none, some st => .ofAttr (statToAttr ino st)
      | none, none => .error ENOENT := by
  simp only [attrReply, cachedRegularAttr, h, hm, if_true]
  cases live with
  | some st => rfl
  | none => cases live' <;> rfl

theorem tryOpen_of_not_cached (h : isCached dir p = false) :
    tryOpen b dir db mount false false p now =
      (db, (b.openFile p).map fun h => (.backing h, .miss)) := by
  simp [tryOpen, h]

theorem tryOpen_of_file (h : isCached dir p = true) {i : Nat} (hi : dir.fileAt p = some i) :
    tryOpen b dir db mount false false p now =
      (db.markHit p mount now, some (.cacheFile i, .hit)) := by
  simp [tryOpen, h, Files.fileAt_eq_some.mp hi]

theorem tryOpen_of_dir (h : isCached dir p = true) (hd : dir.isDir p = true) :
    tryOpen b dir db mount false false p now = (db.markHit p mount now, some (.cacheDir, .hit)) := by
  have hl : dir.lookup p = some .dir := by simpa [Files.isDir] using hd
  simp [tryOpen, h, hl]

/-- What is cached is a file or a directory. -/
theorem file_or_dir_of_cached (h : isCached dir p = true) :
    (∃ i, dir.fileAt p = some i) ∨ dir.isDir p = true := by
  rw [isCached, Bool.and_eq_true] at h
  obtain ⟨n, hn⟩ := Option.isSome_iff_exists.mp h.1
  cases n with
  | file i => exact .inl ⟨i, Files.fileAt_eq_some.mpr hn⟩
  | dir => exact .inr (by simp [Files.isDir, hn])

end Replies

end FsCache
