import FsCache.Lib.Run
import FsCache.Mount
import FsCache.BackingWatch

/- The mount as a whole (fuse/fusefs.rs, fuse/read.rs, fuse/write.rs): its configuration, the
   four tables of open handles, and what each request does to them.

   `fds` are the descriptors that the handlers have open, and what each is of. The events sent
   to the engine and the touches sent to the watcher are kept in the order they are sent.
   The log, the discovery and the replies' time to live are left out, and so is what a readdir
   lists; `bytes_read` is a `u64`, and unbounded here.

   A `FsKernel` is what the system answers while one request is handled. It never hands out a
   descriptor that is open, and a request names a handle that is. A request that panics ends
   the session, so no step follows. Between two requests the backing may change (`outside`).

   Correspondence (Rust ↔ Lean):
     `FsCache`                              ↔ `FsConfig`, `Fs`
     `cached_regular_attr`                  ↔ `Fs.cachedRegularAttr`
     `do_lookup`, `do_getattr`              ↔ `Fs.doLookup`, `Fs.doGetattr`
     `try_open`, `open`, `open_write_handle` ↔ `Fs.tryOpen`, `Fs.doOpen`, `Fs.openWriteHandle`
     `do_read`, `release`                   ↔ `Fs.doRead`, `Fs.doRelease`
     `do_mknod`, `do_mkdir`, `do_symlink`   ↔ `Mounted.doMknod`, `doMkdir`, `doSymlink`
     `AccessEvent`, `EventKind`             ↔ the same -/

namespace FsCache
open Lib

def EBADF : Errno := 9
def EROFS : Errno := 30
def O_RDWR : Nat := 0o2
def O_ACCMODE : Nat := 0o3
def O_TRUNC : Nat := 0o1000
def S_IFDIR : Nat := 0o040000

/-- Which preset handler this event should invoke. -/
inductive EventKind where
  | miss
  | hit
  | close (bytesRead : Nat)
  deriving DecidableEq

structure AccessEvent where
  relativePath : RelPath
  kind : EventKind
  deriving DecidableEq

structure FsConfig where
  mount : MountId
  passthroughMode : Bool
  /-- There is a cache. -/
  caching : Bool
  /-- There is a channel to the engine. -/
  accessTx : Bool
  backingWatch : Bool

/-- What a descriptor is of, and the flags it was opened with. -/
structure Opened where
  file : Option ReadFd
  flags : Nat

structure Fs extends Mounted where
  fds : Map Nat Opened
  openBytes : Map Nat Nat
  openPaths : Map Nat RelPath
  events : List AccessEvent
  touches : List WdEntry

structure FsKernel extends Kernel where
  mknod : RelPath → Nat → Nat → Syscalls Unit
  mkdir : RelPath → Nat → Syscalls Unit
  symlink : List UInt8 → RelPath → Syscalls Unit
  /-- the descriptor of an open for reading -/
  fd : Nat
  /-- What is in the cache can be opened. -/
  cacheOpens : Bool
  /-- why the backing refuses an open for reading, and a descriptor a read -/
  openFails : Option Errno
  preadFails : Option Errno
  /-- `should_filter` of the requester -/
  filtered : Bool

/-- What is sent to the kernel. -/
inductive Answer where
  | plain (x : Sent)
  | opened (fh : Nat)
  | data (bytes : List UInt8)
  deriving DecidableEq

def Reply.map {α β : Type} (f : α → β) : Reply α → Reply β
  | .ok a => .ok (f a)
  | .error e => .error e
  | .panic => .panic

def isWriteIntent (flags : Nat) : Bool :=
  flags &&& O_ACCMODE == O_WRONLY || flags &&& O_ACCMODE == O_RDWR || flags &&& (O_TRUNC ||| O_APPEND) != 0

namespace Mounted

/-- What the three have in common. -/
def makeNode (s : Mounted) (k : Kernel) (parent : Nat) (name : Name) (uid gid : Nat)
    (calls : RelPath → Syscalls Unit) : Mounted × Reply Sent :=
  match s.inodes.childPath parent name with
  | none => (s, .error ENOENT)
  | some path => s.call (calls path) .error fun _ s =>
    let s := s.ignore (k.chown path (some uid) (s.requesterGid k 0 path gid))
    match s.freshAttrForPath k 1 path with
    | (s, none) => (s, .error ENOENT)
    | (s, some attr) => (s, sent .entry attr)

def doMknod (s : Mounted) (k : FsKernel) (parent : Nat) (name : Name) (mode umask rdev uid gid : Nat) :
    Mounted × Reply Sent :=
  s.makeNode k.toKernel parent name uid gid fun path => k.mknod path (applyUmask mode umask) rdev

def doMkdir (s : Mounted) (k : FsKernel) (parent : Nat) (name : Name) (mode umask uid gid : Nat) :
    Mounted × Reply Sent :=
  s.makeNode k.toKernel parent name uid gid fun path => k.mkdir path (applyUmask mode umask)

def doSymlink (s : Mounted) (k : FsKernel) (parent : Nat) (linkName : Name) (target : List UInt8)
    (uid gid : Nat) : Mounted × Reply Sent :=
  s.makeNode k.toKernel parent linkName uid gid fun path => k.symlink target path

end Mounted

inductive FsRequest where
  | lookup (parent : Nat) (name : Name)
  | forget (ino nlookup : Nat)
  | getattr (ino : Nat)
  | readdir (ino : Nat) (names : List Name)
  | openFile (ino flags : Nat)
  | read (fh offset size : Nat)
  | release (fh : Nat)
  | mknod (parent : Nat) (name : Name) (mode umask rdev uid gid : Nat)
  | mkdir (parent : Nat) (name : Name) (mode umask uid gid : Nat)
  | symlink (parent : Nat) (linkName : Name) (target : List UInt8) (uid gid : Nat)
  /-- the requests of `Mount.lean` -/
  | mutate (r : Request)
  /-- no request: others have changed the backing -/
  | outside (disk : Disk)

/-- A system that lets nothing be changed, and gives out `fd`. -/
def FsKernel.readOnly (fd : Nat) : FsKernel where
  unlinkFile _ := throw EROFS
  rmdir _ := throw EROFS
  rename _ _ _ := throw EROFS
  link _ _ := throw EROFS
  openFileWithFlags _ _ _ := throw EROFS
  fchown _ _ _ := throw EROFS
  chmod _ _ := throw EROFS
  chown _ _ _ := throw EROFS
  ftruncate _ _ := throw EROFS
  utimens _ _ _ := throw EROFS
  write _ _ := throw EROFS
  pwrite _ _ _ := throw EROFS
  statFails _ := false
  now := ⟨0, 0⟩
  mknod _ _ _ := throw EROFS
  mkdir _ _ := throw EROFS
  symlink _ _ := throw EROFS
  fd := fd
  cacheOpens := true
  openFails := none
  preadFails := none
  filtered := false

namespace Fs

/-- A new mount over a backing. -/
def start (disk : Disk) (dir : CacheDir) (db : CacheDb) : Fs where
  disk := disk
  inodes := .new
  dir := dir
  db := db
  writePaths := ∅
  appendHandles := []
  fds := ∅
  openBytes := ∅
  openPaths := ∅
  events := []
  touches := []

def cachedRegularAttr (cfg : FsConfig) (s : Fs) (k : FsKernel) (path : RelPath) (ino : Nat) :
    Fs × Option (Option FileAttr) :=
  if cfg.caching then
    match FsCache.cachedRegularAttr s.dir s.db cfg.mount path ino (k.stat 0 s.disk path) with
    | (db, attr) => ({ s with db := db }, attr)
  else (s, none)

def doLookup (cfg : FsConfig) (s : Fs) (k : FsKernel) (parent : Nat) (name : Name) : Fs × Reply Answer :=
  match s.inodes.childPath parent name with
  | none => (s, .error ENOENT)
  | some child =>
    match s.inodes.getOrCreate child with
    | (t, ino) =>
      match { s with inodes := t }.cachedRegularAttr cfg k child ino with
      | (s, some attr) => (s, (sent .entry attr).map .plain)
      | (s, none) =>
        match k.stat 1 s.disk child with
        | none => (s, .error ENOENT)
        | some st =>
          ({ s with touches :=
              if st.stMode &&& S_IFMT = S_IFDIR ∧ cfg.backingWatch then s.touches ++ [⟨child, ino⟩]
              else s.touches },
            (sent .entry (statToAttr ino st)).map .plain)

def doGetattr (cfg : FsConfig) (s : Fs) (k : FsKernel) (ino : Nat) : Fs × Reply Answer :=
  match s.inodes.getPath ino with
  | none => (s, .error ENOENT)
  | some path =>
    match s.cachedRegularAttr cfg k path ino with
    | (s, some attr) => (s, (sent .attr attr).map .plain)
    | (s, none) =>
      match k.stat 1 s.disk path with
      | none => (s, .error ENOENT)
      | some st => (s, (sent .attr (statToAttr ino st)).map .plain)

/-- What is opened for writing at a path. -/
def writer (s : Fs) (path : RelPath) (flags : Nat) : Opened :=
  ⟨(s.disk.backing.openFile path).map .backing, flags⟩

def openWriteHandle (s : Fs) (k : FsKernel) (path : RelPath) (flags mode : Nat) : Fs × Except Errno Nat :=
  match (k.openFileWithFlags path flags mode).run.run s.disk with
  | (.error e, disk) => ({ s with disk := disk }, .error e)
  | (.ok fd, disk) =>
    let s := { s with disk := disk }
    ({ s with toMounted := s.writeHandle fd flags path, fds := s.fds.insert fd (s.writer path flags) }, .ok fd)

/-- Without a cache, or in passthrough mode, only the backing is opened; and when what is in
the cache cannot be. -/
def tryOpen (cfg : FsConfig) (s : Fs) (k : FsKernel) (path : RelPath) :
    Fs × Except Errno (ReadFd × OpenOutcome) :=
  match FsCache.tryOpen s.disk.backing s.dir s.db cfg.mount
      (cfg.passthroughMode || !cfg.caching || !k.cacheOpens) k.filtered path k.now.secs with
  | (db, some (.backing h, outcome)) =>
    ({ s with db := db }, match k.openFails with
      | some e => .error e
      | none => .ok (.backing h, outcome))
  | (db, some (fd, outcome)) => ({ s with db := db }, .ok (fd, outcome))
  | (db, none) => ({ s with db := db }, .error (k.openFails.getD ENOENT))

/-- Filtered opens never notify the engine, and neither do misses in passthrough mode. -/
def engineEvent (cfg : FsConfig) (filtered : Bool) (outcome : OpenOutcome) : Option EventKind :=
  if filtered then none
  else
    match outcome with
    | .hit => some .hit
    | .miss => if cfg.passthroughMode then none else some .miss
    | .filtered => none

def send (cfg : FsConfig) (s : Fs) (event : AccessEvent) : Fs :=
  if cfg.accessTx then { s with events := s.events ++ [event] } else s

def openForRead (cfg : FsConfig) (s : Fs) (k : FsKernel) (path : RelPath) (flags : Nat) :
    Fs × Reply Answer :=
  match s.tryOpen cfg k path with
  | (s, .error e) => (s, .error e)
  | (s, .ok (file, outcome)) =>
    let s := { s with fds := s.fds.insert k.fd ⟨some file, flags⟩ }
    let s :=
      match engineEvent cfg k.filtered outcome with
      | some kind => { s.send cfg ⟨path, kind⟩ with openPaths := s.openPaths.insert k.fd path }
      | none => s
    ({ s with openBytes := s.openBytes.insert k.fd 0 }, .ok (.opened k.fd))

def doOpen (cfg : FsConfig) (s : Fs) (k : FsKernel) (ino flags : Nat) : Fs × Reply Answer :=
  match s.inodes.getPath ino with
  | none => (s, .error ENOENT)
  | some path =>
    if isWriteIntent flags then
      match s.openWriteHandle k path flags 0 with
      | (s, .ok fd) => (s, .ok (.opened fd))
      | (s, .error e) => (s, .error e)
    else s.openForRead cfg k path flags

/-- pread(2) -/
def pread (s : Fs) (k : FsKernel) (fh offset size : Nat) : Except Errno (List UInt8) :=
  match k.preadFails, s.fds.lookup fh with
  | some e, _ => .error e
  | none, none => .error EBADF
  | none, some o =>
    if o.flags &&& O_ACCMODE = O_WRONLY then .error EBADF
    else
      match o.file.bind fun file => FsCache.doRead s.disk.backing s.dir file offset size with
      | none => .error EISDIR
      | some bytes => .ok bytes

def doRead (s : Fs) (k : FsKernel) (fh offset size : Nat) : Fs × Reply Answer :=
  match s.pread k fh offset size with
  | .error e => (s, .error e)
  | .ok bytes =>
    ({ s with openBytes :=
        match s.openBytes.lookup fh with
        | some n => s.openBytes.insert fh (n + bytes.length)
        | none => s.openBytes }, .ok (.data bytes))

def doRelease (cfg : FsConfig) (s : Fs) (fh : Nat) : Fs × Reply Answer :=
  let u :=
    match s.writePaths.lookup fh with
    | some _ =>
      { s with
        writePaths := s.writePaths.erase fh
        appendHandles := s.appendHandles.filter (· ≠ fh) }
    | none =>
      let u := { s with openBytes := s.openBytes.erase fh, openPaths := s.openPaths.erase fh }
      match s.openPaths.lookup fh with
      | some path => u.send cfg ⟨path, .close ((s.openBytes.lookup fh).getD 0)⟩
      | none => u
  ({ u with fds := u.fds.erase fh }, .ok (.plain .ok))

/-- The descriptor that an open for writing is answered with. -/
def newFd (s : Fs) (k : FsKernel) (path : RelPath) (flags mode : Nat) : Option Nat :=
  ((k.openFileWithFlags path flags mode).run.run s.disk).1.toOption

/-- The descriptors after a create: the new one is closed again if the reply is an error. -/
def created (s : Fs) (k : FsKernel) (m : Mounted) (parent : Nat) (name : Name) (mode umask flags : Nat)
    (reply : Reply Sent) : Map Nat Opened :=
  match s.inodes.childPath parent name with
  | none => s.fds
  | some path =>
    match s.newFd k path (flags ||| O_CREAT ||| O_EXCL) (applyUmask mode umask) with
    | none => s.fds
    | some fd =>
      let fds := s.fds.insert fd ⟨(m.disk.backing.openFile path).map .backing, flags⟩
      match reply with
      | .error _ => fds.erase fd
      | _ => fds

def mutate (cfg : FsConfig) (s : Fs) (k : FsKernel) (r : Request) : Fs × Reply Answer :=
  match s.toMounted.handle cfg.mount k.toKernel r with
  | (m, reply) =>
    ({ s with
        toMounted := if cfg.caching then m else { m with db := s.db }
        fds :=
          match r with
          | .create parent name mode umask flags _ _ => s.created k m parent name mode umask flags reply
          | _ => s.fds }, reply.map .plain)

/-- A request that is answered by the backing and the inode table. -/
def lift (s : Fs) (r : Mounted × Reply Sent) : Fs × Reply Answer :=
  ({ s with toMounted := r.1 }, r.2.map .plain)

def handle (cfg : FsConfig) (s : Fs) (k : FsKernel) : FsRequest → Fs × Reply Answer
  | .lookup parent name => s.doLookup cfg k parent name
  | .forget ino nlookup => ({ s with inodes := s.inodes.forget ino nlookup }, .ok (.plain .ok))
  | .getattr ino => s.doGetattr cfg k ino
  | .readdir ino names => ({ s with inodes := s.inodes.doReaddir ino names }, .ok (.plain .ok))
  | .openFile ino flags => s.doOpen cfg k ino flags
  | .read fh offset size => s.doRead k fh offset size
  | .release fh => s.doRelease cfg fh
  | .mknod parent name mode umask rdev uid gid =>
    s.lift (s.toMounted.doMknod k parent name mode umask rdev uid gid)
  | .mkdir parent name mode umask uid gid => s.lift (s.toMounted.doMkdir k parent name mode umask uid gid)
  | .symlink parent linkName target uid gid =>
    s.lift (s.toMounted.doSymlink k parent linkName target uid gid)
  | .mutate r => s.mutate cfg k r
  | .outside disk => ({ s with disk := disk }, .ok (.plain .ok))

/-- The descriptor is not open. -/
def Free (s : Fs) (fd : Nat) : Prop := s.fds.lookup fd = none

instance (s : Fs) (fd : Nat) : Decidable (s.Free fd) := inferInstanceAs (Decidable (_ = _))

/-- No descriptor is handed out twice, and a handle that is named is open. -/
def Admitted (s : Fs) (k : FsKernel) : FsRequest → Prop
  | .openFile ino flags =>
    ∀ path ∈ s.inodes.getPath ino,
      if isWriteIntent flags then ∀ fd ∈ s.newFd k path flags 0, s.Free fd else s.Free k.fd
  | .mutate (.create parent name mode umask flags _ _) =>
    ∀ path ∈ s.inodes.childPath parent name,
      ∀ fd ∈ s.newFd k path (flags ||| O_CREAT ||| O_EXCL) (applyUmask mode umask), s.Free fd
  | .read fh _ _ | .release fh | .mutate (.write fh _ _ _) => ¬ s.Free fh
  | _ => True

instance (s : Fs) (k : FsKernel) : (r : FsRequest) → Decidable (s.Admitted k r)
  | .openFile ino flags => inferInstanceAs (Decidable (∀ path ∈ s.inodes.getPath ino,
      if isWriteIntent flags then ∀ fd ∈ s.newFd k path flags 0, s.Free fd else s.Free k.fd))
  | .mutate (.create parent name mode umask flags _ _) =>
    inferInstanceAs (Decidable (∀ path ∈ s.inodes.childPath parent name,
      ∀ fd ∈ s.newFd k path (flags ||| O_CREAT ||| O_EXCL) (applyUmask mode umask), s.Free fd))
  | .read fh _ _ | .release fh | .mutate (.write fh _ _ _) => inferInstanceAs (Decidable (¬ s.Free fh))
  | .lookup _ _ | .forget _ _ | .getattr _ | .readdir _ _ | .mknod .. | .mkdir .. | .symlink ..
  | .outside _ | .mutate (.unlink ..) | .mutate (.rmdir ..) | .mutate (.rename ..) | .mutate (.link ..)
  | .mutate (.setattr ..) => .isTrue trivial

def step (cfg : FsConfig) (s : Fs) (r : FsKernel × FsRequest) : Option Fs :=
  if s.Admitted r.1 r.2 then
    match s.handle cfg r.1 r.2 with
    | (_, .panic) => none
    | (s, _) => some s
  else none

/-! ## Where attributes come from -/

variable {cfg : FsConfig} {s : Fs} {k : FsKernel} {parent : Nat} {name : Name} {path child : RelPath}

/-- What the cache says of a path, if anything. -/
def fastAttr (cfg : FsConfig) (s : Fs) (k : FsKernel) (path : RelPath) (ino : Nat) :
    Option (Option FileAttr) :=
  if cfg.caching = true ∧ isCached s.dir path = true then
    match s.db.sourceMetadataRow path cfg.mount with
    | some m => some (sourceMetadataToAttr ino m)
    | none => (k.stat 0 s.disk path).map (statToAttr ino)
  else none

/-- The database after it was asked. -/
def fastDb (cfg : FsConfig) (s : Fs) (k : FsKernel) (path : RelPath) : CacheDb :=
  if cfg.caching = true ∧ isCached s.dir path = true then
    match s.db.sourceMetadataRow path cfg.mount, k.stat 0 s.disk path with
    | none, some st => refreshSourceMetadata s.db cfg.mount path st
    | _, _ => s.db
  else s.db

theorem cachedRegularAttr_eq (cfg : FsConfig) (s : Fs) (k : FsKernel) (path : RelPath) (ino : Nat) :
    s.cachedRegularAttr cfg k path ino =
      ({ s with db := s.fastDb cfg k path }, s.fastAttr cfg k path ino) := by
  unfold cachedRegularAttr fastAttr fastDb FsCache.cachedRegularAttr
  cases cfg.caching with
  | false => simp
  | true =>
    cases hi : isCached s.dir path with
    | false => simp
    | true =>
      cases hm : s.db.sourceMetadataRow path cfg.mount with
      | some m => simp
      | none => cases hst : k.stat 0 s.disk path <;> simp

/-- The reply to a lookup or a getattr of a known path. -/
def attrAnswer (cfg : FsConfig) (s : Fs) (k : FsKernel) (f : FileAttr → Sent) (path : RelPath) (ino : Nat) :
    Reply Answer :=
  match s.fastAttr cfg k path ino, k.stat 1 s.disk path with
  | some attr, _ => (sent f attr).map .plain
  | none, none => .error ENOENT
  | none, some st => (sent f (statToAttr ino st)).map .plain

/-- The touches after a lookup of a path. -/
def seeded (cfg : FsConfig) (s : Fs) (k : FsKernel) (path : RelPath) (ino : Nat) : List WdEntry :=
  match s.fastAttr cfg k path ino, k.stat 1 s.disk path with
  | none, some st =>
    if st.stMode &&& S_IFMT = S_IFDIR ∧ cfg.backingWatch then s.touches ++ [⟨path, ino⟩] else s.touches
  | _, _ => s.touches

theorem doLookup_of_child (hp : s.inodes.childPath parent name = some child) :
    s.doLookup cfg k parent name =
      ({ s with
          inodes := (s.inodes.getOrCreate child).1
          db := s.fastDb cfg k child
          touches := s.seeded cfg k child (s.inodes.getOrCreate child).2 },
        s.attrAnswer cfg k .entry child (s.inodes.getOrCreate child).2) := by
  simp only [doLookup, hp, seeded, attrAnswer]
  cases hg : s.inodes.getOrCreate child with
  | mk t ino =>
    have hfast : fastAttr cfg { s with inodes := t } k child ino = s.fastAttr cfg k child ino := rfl
    have hdb : fastDb cfg { s with inodes := t } k child = s.fastDb cfg k child := rfl
    simp only [cachedRegularAttr_eq, hfast, hdb]
    cases s.fastAttr cfg k child ino with
    | some attr => rfl
    | none =>
      simp only
      cases k.stat 1 s.disk child <;> rfl

theorem doGetattr_of_path {ino : Nat} (hp : s.inodes.getPath ino = some path) :
    s.doGetattr cfg k ino =
      ({ s with db := s.fastDb cfg k path }, s.attrAnswer cfg k .attr path ino) := by
  simp only [doGetattr, hp, cachedRegularAttr_eq, attrAnswer]
  cases s.fastAttr cfg k path ino with
  | some attr => rfl
  | none =>
    simp only
    cases k.stat 1 s.disk path <;> rfl

/-- The cache and the backing answer a lookup as `FsCache.doLookup` says. -/
theorem doLookup_serves (hc : cfg.caching = true)
    (hp : s.inodes.childPath parent name = some child) :
    ((s.doLookup cfg k parent name).1.inodes, (s.doLookup cfg k parent name).1.db,
        (s.doLookup cfg k parent name).2) =
      match FsCache.doLookup s.inodes s.dir s.db cfg.mount parent name (k.stat 0 s.disk child)
          (k.stat 1 s.disk child) with
      | (t, db, reply) => (t, db, reply.map fun attr => .plain (.entry attr)) := by
  have hattr : ∀ o : Option FileAttr, (sent .entry o).map Answer.plain =
      (Reply.ofAttr o).map fun attr => .plain (.entry attr) := by
    intro o
    cases o <;> rfl
  simp only [doLookup, FsCache.doLookup, hp, cachedRegularAttr, hc, if_true, attrReply]
  cases FsCache.cachedRegularAttr s.dir s.db cfg.mount child (s.inodes.getOrCreate child).2
      (k.stat 0 s.disk child) with
  | mk db attr =>
    cases attr with
    | some attr => simp only [hattr]
    | none =>
      simp only
      cases k.stat 1 s.disk child with
      | none => rfl
      | some st => simp only [hattr]

end Fs

end FsCache
