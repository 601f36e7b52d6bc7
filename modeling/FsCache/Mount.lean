import FsCache.Lib.Run
import FsCache.Serve

/- The requests that write, and what the mount answers after them (fuse/write.rs).

   Each request goes to the backing, and tells the inode table. None of them tells the
   cache: that is left to the watcher, which sees the change in the backing and has the
   path validated. Only `do_setattr` looks at it, and brings the snapshot of a row up to
   date if size and modification time are as they were. So until a background job runs, a
   cached path is served as it was when it was cached.

   The system calls are a parameter, a new one for each request: a `Kernel` says what each
   of them returns and does to the backing, whether it fails or not. `Disk` is a backing
   whose sizes are those of an `off_t`. Flags and modes are their bits.

   `own_writes`: after any requests, a path that is not cached is read as the backing is, and
   a cached one as the backing was. `unlinked_still_read` is one where they differ.

   Correspondence (Rust ↔ Lean):
     `BackingStore::{unlink_file, rename, …}`, `libc::pwrite` ↔ `Kernel`
     `do_unlink`, `do_rmdir`, `do_rename`, `do_link`, `do_create`,
     `do_write`, `do_setattr`     ↔ `Mounted.doUnlink`, …, `Mounted.doSetattr`
     `fresh_attr_for_path`        ↔ `Mounted.freshAttrForPath` -/

namespace FsCache
open Lib

def EEXIST : Errno := 17
def EISDIR : Errno := 21
def ESTALE : Errno := 116
def O_WRONLY : Nat := 0o1
def O_CREAT : Nat := 0o100
def O_EXCL : Nat := 0o200
def O_APPEND : Nat := 0o2000
def S_ISGID : Nat := 0o2000

/-- The size of everything in the backing is an `off_t`, and not negative. -/
structure Disk where
  backing : Backing
  sizes : ∀ p st, backing.stat p = some st → 0 ≤ st.stSize ∧ st.stSize < 2^63

/-- A system call, or several; one that fails may have had its effect. -/
abbrev Syscalls := ExceptT Errno (StateM Disk)

/-- `libc::timespec` -/
abbrev Timespec := Int × Int

inductive TimeOrNow where
  /-- `none`: before the epoch -/
  | specificTime (t : Option SystemTime)
  | now

/-- What the system calls of a request do. -/
structure Kernel where
  unlinkFile : RelPath → Syscalls Unit
  rmdir : RelPath → Syscalls Unit
  rename : RelPath → RelPath → Nat → Syscalls Unit
  link : RelPath → RelPath → Syscalls Unit
  /-- a descriptor, for a path, flags and a mode -/
  openFileWithFlags : RelPath → Nat → Nat → Syscalls Nat
  fchown : Nat → Nat → Option Nat → Syscalls Unit
  chmod : RelPath → Nat → Syscalls Unit
  chown : RelPath → Option Nat → Option Nat → Syscalls Unit
  ftruncate : Nat → Nat → Syscalls Unit
  utimens : RelPath → Timespec → Timespec → Syscalls Unit
  write : Nat → List UInt8 → Syscalls Nat
  pwrite : Nat → List UInt8 → Nat → Syscalls Nat
  /-- the stats that fail, counted within the request -/
  statFails : Nat → Bool
  now : SystemTime

namespace Kernel

/-- `BackingStore::stat` -/
def stat (k : Kernel) (n : Nat) (d : Disk) (path : RelPath) : Option Stat :=
  if k.statFails n then none else d.backing.stat path

def truncate (k : Kernel) (path : RelPath) (size : Nat) : Syscalls Unit := do
  let fd ← k.openFileWithFlags path O_WRONLY 0
  k.ftruncate fd size

end Kernel

def systemTimeToTimespec : Option SystemTime → Timespec
  | some t => (asI64 t.secs, t.nanos)
  | none => (0, 0)

def timeOrNowToTimespec (k : Kernel) (value : Option TimeOrNow) (fallbackSec fallbackNsec : Int) :
    Timespec :=
  match value with
  | some (.specificTime t) => systemTimeToTimespec t
  | some .now => systemTimeToTimespec (some k.now)
  | none => (fallbackSec, fallbackNsec)

def applyUmask (mode umask : Nat) : Nat := mode &&& (umask ^^^ (2^32 - 1))

/-- The arguments of a setattr. -/
structure SetAttr where
  mode : Option Nat
  uid : Option Nat
  gid : Option Nat
  size : Option Nat
  atime : Option TimeOrNow
  mtime : Option TimeOrNow
  fh : Option Nat

/-- What a setattr asks of the backing, up to the stat for its reply. -/
def setattrCalls (k : Kernel) (path : RelPath) (a : SetAttr) : Syscalls Unit := do
  if let some mode := a.mode then k.chmod path mode
  if a.uid.isSome || a.gid.isSome then k.chown path a.uid a.gid
  if let some size := a.size then
    match a.fh with
    | some fh => k.ftruncate fh size
    | none => k.truncate path size
  if a.atime.isSome || a.mtime.isSome then
    match k.stat 0 (← get) path with
    | none => throw ENOENT
    | some current =>
      k.utimens path (timeOrNowToTimespec k a.atime current.stAtime current.stAtimeNsec)
        (timeOrNowToTimespec k a.mtime current.stMtime current.stMtimeNsec)

/-- What is sent to the kernel. -/
inductive Sent where
  | ok
  | entry (attr : FileAttr)
  | attr (attr : FileAttr)
  | created (attr : FileAttr) (fh : Nat)
  | written (n : Nat)
  deriving DecidableEq

/-- `none`: the attributes have a time that overflows. -/
def sent (f : FileAttr → Sent) : Option FileAttr → Reply Sent
  | some attr => .ok (f attr)
  | none => .panic

/-- A mount, between two requests. -/
structure Mounted where
  disk : Disk
  inodes : InodeTable
  dir : CacheDir
  db : CacheDb
  writePaths : Map Nat RelPath
  appendHandles : List Nat

namespace Mounted

/-- Make the calls, and go on if they succeed. -/
def call {α : Type} (s : Mounted) (calls : Syscalls α) (fail : Errno → Reply Sent)
    (next : α → Mounted → Mounted × Reply Sent) : Mounted × Reply Sent :=
  match calls.run.run s.disk with
  | (.error e, d) => ({ s with disk := d }, fail e)
  | (.ok a, d) => next a { s with disk := d }

/-- The error is logged, or not even that. -/
def ignore {α : Type} (s : Mounted) (calls : Syscalls α) : Mounted :=
  { s with disk := (calls.run.run s.disk).2 }

def freshAttrForPath (s : Mounted) (k : Kernel) (n : Nat) (path : RelPath) :
    Mounted × Option (Option FileAttr) :=
  match k.stat n s.disk path with
  | none => (s, none)
  | some st =>
    match s.inodes.getOrCreate path with
    | (t, ino) => ({ s with inodes := t }, some (statToAttr ino st))

def doUnlink (s : Mounted) (k : Kernel) (parent : Nat) (name : Name) : Mounted × Reply Sent :=
  match s.inodes.childPath parent name with
  | none => (s, .error ENOENT)
  | some path => s.call (k.unlinkFile path) .error fun _ s =>
    ({ s with inodes := s.inodes.removePath path }, .ok .ok)

def doRmdir (s : Mounted) (k : Kernel) (parent : Nat) (name : Name) : Mounted × Reply Sent :=
  match s.inodes.childPath parent name with
  | none => (s, .error ENOENT)
  | some path => s.call (k.rmdir path) .error fun _ s =>
    ({ s with inodes := s.inodes.removeSubtree path }, .ok .ok)

def doRename (s : Mounted) (k : Kernel) (parent : Nat) (name : Name) (newparent : Nat)
    (newname : Name) (flags : Nat) : Mounted × Reply Sent :=
  match s.inodes.childPath parent name, s.inodes.childPath newparent newname with
  | some old, some new => s.call (k.rename old new flags) .error fun _ s =>
    ({ s with inodes := s.inodes.renamePath old new }, .ok .ok)
  | _, _ => (s, .error ENOENT)

def doLink (s : Mounted) (k : Kernel) (ino newparent : Nat) (newname : Name) : Mounted × Reply Sent :=
  match s.inodes.getPath ino, s.inodes.childPath newparent newname with
  | some old, some new => s.call (k.link old new) .error fun _ s =>
    match s.freshAttrForPath k 0 new with
    | (s, none) => (s, .error ENOENT)
    | (s, some attr) => (s, sent .entry attr)
  | _, _ => (s, .error ENOENT)

/-- The open has succeeded. -/
def writeHandle (s : Mounted) (fd flags : Nat) (path : RelPath) : Mounted :=
  { s with
    writePaths := s.writePaths.insert fd path
    appendHandles := if flags &&& O_APPEND ≠ 0 then fd :: s.appendHandles else s.appendHandles }

/-- The requester's group, unless the directory hands down its own. -/
def requesterGid (s : Mounted) (k : Kernel) (n : Nat) (path : RelPath) (gid : Nat) : Option Nat :=
  match k.stat n s.disk path.dropLast with
  | some parent => if parent.stMode &&& S_ISGID ≠ 0 then none else some gid
  | none => some gid

def doCreate (s : Mounted) (k : Kernel) (parent : Nat) (name : Name) (mode umask flags uid gid : Nat) :
    Mounted × Reply Sent :=
  match s.inodes.childPath parent name with
  | none => (s, .error ENOENT)
  | some path =>
    s.call (k.openFileWithFlags path (flags ||| O_CREAT ||| O_EXCL) (applyUmask mode umask))
      -- the caller looks the name up again, and opens what is there
      (fun e => .error (if e = EEXIST ∧ flags &&& O_EXCL = 0 then ESTALE else e)) fun fd s =>
      let s := s.writeHandle fd flags path
      let s := s.ignore (k.fchown fd uid (s.requesterGid k 0 path gid))
      match s.freshAttrForPath k 1 path with
      | (s, some attr) => (s, sent (.created · fd) attr)
      | (s, none) =>
        let s := { s with
          writePaths := s.writePaths.erase fd
          appendHandles := s.appendHandles.filter (· ≠ fd) }
        (s.ignore (k.unlinkFile path), .error ENOENT)

def doWrite (s : Mounted) (k : Kernel) (fh offset : Nat) (data : List UInt8) (flags : Nat) :
    Mounted × Reply Sent :=
  let append := fh ∈ s.appendHandles ∨ flags &&& O_APPEND ≠ 0
  s.call (if append then k.write fh data else k.pwrite fh data offset) .error fun n s =>
    (s, .ok (.written (n % 2^32)))

def doSetattr (s : Mounted) (mount : MountId) (k : Kernel) (ino : Nat) (a : SetAttr) :
    Mounted × Reply Sent :=
  match s.inodes.getPath ino with
  | none => (s, .error ENOENT)
  | some path => s.call (setattrCalls k path a) .error fun _ s =>
    match k.stat 1 s.disk path with
    | none => (s, .error ENOENT)
    | some st =>
      ({ s with
          db := if isCached s.dir path then refreshSourceMetadata s.db mount path st else s.db },
        sent .attr (statToAttr ino st))

end Mounted

inductive Request where
  | unlink (parent : Nat) (name : Name)
  | rmdir (parent : Nat) (name : Name)
  | rename (parent : Nat) (name : Name) (newparent : Nat) (newname : Name) (flags : Nat)
  | create (parent : Nat) (name : Name) (mode umask flags uid gid : Nat)
  | link (ino newparent : Nat) (newname : Name)
  | write (fh offset : Nat) (data : List UInt8) (flags : Nat)
  | setattr (ino : Nat) (a : SetAttr)

namespace Mounted

def handle (mount : MountId) (s : Mounted) (k : Kernel) : Request → Mounted × Reply Sent
  | .unlink parent name => s.doUnlink k parent name
  | .rmdir parent name => s.doRmdir k parent name
  | .rename parent name newparent newname flags => s.doRename k parent name newparent newname flags
  | .create parent name mode umask flags uid gid => s.doCreate k parent name mode umask flags uid gid
  | .link ino newparent newname => s.doLink k ino newparent newname
  | .write fh offset data flags => s.doWrite k fh offset data flags
  | .setattr ino a => s.doSetattr mount k ino a

/-- One request, with what its system calls do. -/
def step (mount : MountId) (s : Mounted) (r : Kernel × Request) : Option Mounted :=
  some (s.handle mount r.1 r.2).1

end Mounted

/-! ## What the cache keeps -/

/-- The row of a cached path, if it has one, is of the regular file that the backing has. -/
def RowMirrors (b : Backing) (p : RelPath) (row : Option Row) : Prop :=
  ∀ r ∈ row, ∃ f, b.live p = some f ∧ r.sizeBytes = f.bytes.length ∧
    (r.sourceMetadata.hasSnapshot = true → r.sourceMetadata.size = f.bytes.length)

section Refresh

variable {db : CacheDb} {mount : MountId} {p q : RelPath} {st : Stat}

/-- A refresh brings the row up to date if the file is of the row's size, or does nothing. -/
theorem row_refreshSourceMetadata (db : CacheDb) (mount : MountId) (p q : RelPath) (st : Stat) :
    (refreshSourceMetadata db mount q st).row p mount = db.row p mount ∨
      ∃ r, db.row p mount = some r ∧ contentMatches r.fingerprint st = true ∧
        (refreshSourceMetadata db mount q st).row p mount =
          some (r.withSource (SourceMetadata.fromStat st)) := by
  -- only the last of the three statements writes, and the first one has compared the sizes
  have update : ∀ {fp : Fingerprint}, db.fingerprintRow q mount = some fp →
      contentMatches fp st = true →
      (db.updateSourceMetadata q mount (SourceMetadata.fromStat st)).row p mount = db.row p mount ∨
        ∃ r, db.row p mount = some r ∧ contentMatches r.fingerprint st = true ∧
          (db.updateSourceMetadata q mount (SourceMetadata.fromStat st)).row p mount =
            some (r.withSource (SourceMetadata.fromStat st)) := by
    intro fp hfp hmatch
    rw [CacheDb.updateSourceMetadata, CacheDb.row_updateRow]
    by_cases hk : rowKey p = rowKey q
    · rw [if_pos hk]
      obtain ⟨r, hr, rfl⟩ := Option.map_eq_some_iff.mp hfp
      refine .inr ⟨r, ?_, hmatch, ?_⟩
      · rw [CacheDb.row, hk, ← CacheDb.row, hr]
      · rw [hr, Option.map_some]
    · exact .inl (by rw [if_neg hk])
  unfold refreshSourceMetadata
  split
  · next db' hs =>
    cases refreshMove_of_step hs with
    | stop => exact .inl rfl
  · next db' pc hs =>
    cases refreshMove_of_step hs with
    | agree hfp hzero hmatch =>
      split
      · next db' hs' =>
        cases refreshMove_of_step hs' with
        | stop => exact .inl rfl
      · next db' pc hs' =>
        cases refreshMove_of_step hs' with
        | differs => exact update hfp hmatch

/-- The new snapshot is of the old size. -/
theorem RowMirrors.refresh {b : Backing} (h : RowMirrors b p (db.row p mount))
    (hst : 0 ≤ st.stSize ∧ st.stSize < 2^63) :
    RowMirrors b p ((refreshSourceMetadata db mount q st).row p mount) := by
  rcases row_refreshSourceMetadata db mount p q st with e | ⟨r, hr, hmatch, e⟩
  · rwa [e]
  · rw [e]
    rintro r' hr'
    obtain rfl := Option.some.inj hr'
    obtain ⟨f, hf, hsize, -⟩ := h r hr
    refine ⟨f, hf, hsize, fun _ => ?_⟩
    have hlive : asU64 st.stSize = f.bytes.length := by
      simp only [contentMatches, Bool.and_eq_true, beq_iff_eq] at hmatch
      rw [← hmatch.2]
      show r.sizeBytes.toNat = f.bytes.length
      rw [hsize, Int.toNat_natCast]
    rw [asU64_of_nonneg hst.1 (by omega)] at hlive
    show (asI64 st.stSize.toNat).toNat = f.bytes.length
    rw [hlive, asI64_of_lt f.size_lt, Int.toNat_natCast]

end Refresh

namespace Mounted

variable {mount : MountId} {s s' : Mounted}

/-- The cache files stay, and the rows too, but for a refresh. -/
def Keeps (mount : MountId) (s s' : Mounted) : Prop :=
  s'.dir = s.dir ∧ (s'.db = s.db ∨ ∃ q st, (0 ≤ st.stSize ∧ st.stSize < 2^63) ∧
    s'.db = refreshSourceMetadata s.db mount q st)

theorem Keeps.of_eq (hdir : s'.dir = s.dir) (hdb : s'.db = s.db) : Keeps mount s s' := ⟨hdir, .inl hdb⟩

/-- The calls themselves do nothing to the cache. -/
theorem keeps_call {α : Type} {calls : Syscalls α} {fail : Errno → Reply Sent}
    {next : α → Mounted → Mounted × Reply Sent}
    (h : ∀ a d, Keeps mount s (next a { s with disk := d }).1) :
    Keeps mount s (s.call calls fail next).1 := by
  unfold call
  split
  · exact .of_eq rfl rfl
  · exact h _ _

theorem keeps_freshAttrForPath {k : Kernel} {n : Nat} {path : RelPath}
    {attr : Option (Option FileAttr)} (h : s.freshAttrForPath k n path = (s', attr)) :
    s'.dir = s.dir ∧ s'.db = s.db := by
  unfold freshAttrForPath at h
  split at h
  · obtain ⟨rfl, -⟩ := Prod.mk.inj h
    exact ⟨rfl, rfl⟩
  · obtain ⟨rfl, -⟩ := Prod.mk.inj h
    exact ⟨rfl, rfl⟩

theorem keeps_create {k : Kernel} {parent : Nat} {name : Name} {mode umask flags uid gid : Nat} :
    Keeps mount s (s.doCreate k parent name mode umask flags uid gid).1 := by
  unfold doCreate
  split
  · exact .of_eq rfl rfl
  · refine keeps_call fun fd d => ?_
    dsimp only
    split
    · next s₁ attr h => exact .of_eq (keeps_freshAttrForPath h).1 (keeps_freshAttrForPath h).2
    · next s₁ h => exact .of_eq (keeps_freshAttrForPath h).1 (keeps_freshAttrForPath h).2

theorem keeps_link {k : Kernel} {ino newparent : Nat} {newname : Name} :
    Keeps mount s (s.doLink k ino newparent newname).1 := by
  unfold doLink
  split
  · refine keeps_call fun _ d => ?_
    split
    · next s₁ h => exact .of_eq (keeps_freshAttrForPath h).1 (keeps_freshAttrForPath h).2
    · next s₁ attr h => exact .of_eq (keeps_freshAttrForPath h).1 (keeps_freshAttrForPath h).2
  · exact .of_eq rfl rfl

/-- The one request that looks at the cache. -/
theorem keeps_setattr {k : Kernel} {ino : Nat} {a : SetAttr} :
    Keeps mount s (s.doSetattr mount k ino a).1 := by
  unfold doSetattr
  split
  · exact .of_eq rfl rfl
  · next path hpath =>
    refine keeps_call fun _ d => ?_
    split
    · exact .of_eq rfl rfl
    · next st hst =>
      refine ⟨rfl, ?_⟩
      dsimp only
      split
      · refine .inr ⟨path, st, ?_, rfl⟩
        unfold Kernel.stat at hst
        split at hst
        · exact absurd hst (by simp)
        · exact d.sizes path st hst
      · exact .inl rfl

theorem keeps_handle (k : Kernel) (r : Request) : Keeps mount s (s.handle mount k r).1 := by
  cases r with
  | unlink parent name =>
    show Keeps mount s (s.doUnlink k parent name).1
    unfold doUnlink
    split
    · exact .of_eq rfl rfl
    · exact keeps_call fun _ _ => .of_eq rfl rfl
  | rmdir parent name =>
    show Keeps mount s (s.doRmdir k parent name).1
    unfold doRmdir
    split
    · exact .of_eq rfl rfl
    · exact keeps_call fun _ _ => .of_eq rfl rfl
  | rename parent name newparent newname flags =>
    show Keeps mount s (s.doRename k parent name newparent newname flags).1
    unfold doRename
    split
    · exact keeps_call fun _ _ => .of_eq rfl rfl
    · exact .of_eq rfl rfl
  | create parent name mode umask flags uid gid => exact keeps_create
  | link ino newparent newname => exact keeps_link
  | write fh offset data flags => exact keeps_call fun _ _ => .of_eq rfl rfl
  | setattr ino a => exact keeps_setattr

/-! ## What is read after them -/

/-- The cache agrees with the backing: each cached file has its bytes, each directory is one,
and no row is of another size. -/
structure Mirrors (mount : MountId) (s : Mounted) : Prop where
  file : ∀ p i, isCached s.dir p = true → s.dir.fileAt p = some i → ∃ f,
    s.disk.backing.live p = some f ∧ modeToFiletype f.stat.stMode = .regularFile ∧
      (s.dir.data i).map CacheByte.val = f.bytes
  dir : ∀ p, isCached s.dir p = true → s.dir.isDir p = true →
    ∃ st, s.disk.backing.node p = some (.dir st)
  row : ∀ p, isCached s.dir p = true → RowMirrors s.disk.backing p (s.db.row p mount)

/-- An open for reading and a read at `p` find what `b` has there. -/
def ReadsAs (mount : MountId) (s : Mounted) (b : Backing) (p : RelPath) : Prop :=
  ∀ filtered now offset size,
    match (tryOpen s.disk.backing s.dir s.db mount false filtered p now).2 with
    | none => b.openFile p = none
    | some (fd, _) => ∃ h, b.openFile p = some h ∧
        doRead s.disk.backing s.dir fd offset size = b.readAt h offset size

/-- The reply has existence, type and size of what `b` has at `p`; it may panic unless its
times are in range. -/
def Describing (b : Backing) (p : RelPath) (dated : Prop) (r : Reply FileAttr) : Prop :=
  match b.stat p with
  | none => r = .error ENOENT
  | some st => r = .panic ∧ ¬dated ∨
      ∃ attr, r = .ok attr ∧ attr.kind = modeToFiletype st.stMode ∧ attr.size = asU64 st.stSize

/-- A lookup and a getattr of `p` report what `b` has there. -/
def ReportsAs (mount : MountId) (s : Mounted) (b : Backing) (p : RelPath) (dated : Prop) : Prop :=
  (∀ parent name, s.inodes.childPath parent name = some p → Describing b p dated
    (doLookup s.inodes s.dir s.db mount parent name (s.disk.backing.stat p)
      (s.disk.backing.stat p)).2.2) ∧
  ∀ ino, s.inodes.getPath ino = some p → Describing b p dated
    (doGetattr s.inodes s.dir s.db mount ino (s.disk.backing.stat p) (s.disk.backing.stat p)).2

/-- The times of what is at `p`, if anything, are in range. -/
def LiveDated (b : Backing) (p : RelPath) : Prop := ∀ st ∈ b.stat p, st.Dated

/-- A lookup and a getattr are answered alike. -/
theorem reportsAs_of_attrReply {b : Backing} {p : RelPath} {dated : Prop}
    (h : ∀ ino, Describing b p dated (attrReply s.dir s.db mount p ino (s.disk.backing.stat p)
      (s.disk.backing.stat p)).2) : ReportsAs mount s b p dated := by
  constructor
  · intro parent name hp
    simp only [doLookup, hp]
    exact h _
  · intro ino hp
    simp only [doGetattr, hp]
    exact h ino

theorem describing_ofAttr {b : Backing} {p : RelPath} {st : Stat} (hst : b.stat p = some st)
    (ino : Nat) : Describing b p (LiveDated b p) (.ofAttr (statToAttr ino st)) := by
  unfold Describing
  rw [hst]
  cases hattr : statToAttr ino st with
  | none =>
    refine .inl ⟨rfl, fun hdated => ?_⟩
    have := statToAttr_isSome (hdated st hst) ino
    rw [hattr] at this
    exact absurd this (by simp)
  | some attr => exact .inr ⟨attr, rfl, of_statToAttr hattr⟩

/-- Without a snapshot the answer is the backing's. -/
theorem reportsAs_live {p : RelPath}
    (h : isCached s.dir p = false ∨ s.db.sourceMetadataRow p mount = none) :
    ReportsAs mount s s.disk.backing p (LiveDated s.disk.backing p) := by
  refine reportsAs_of_attrReply fun ino => ?_
  have hreply : (attrReply s.dir s.db mount p ino (s.disk.backing.stat p)
      (s.disk.backing.stat p)).2 = match s.disk.backing.stat p with
        | none => .error ENOENT
        | some st => .ofAttr (statToAttr ino st) := by
    cases hc : isCached s.dir p with
    | false =>
      exact congrArg Prod.snd (attrReply_of_not_cached hc)
    | true =>
      have hm := h.resolve_left (by simp [hc])
      rw [attrReply_of_no_snapshot hc hm]
      cases s.disk.backing.stat p <;> rfl
  rw [hreply]
  cases hst : s.disk.backing.stat p with
  | none => simp only [Describing, hst]
  | some st => exact describing_ofAttr hst ino

/-- With one it is what the row says. -/
theorem reportsAs_snapshot {b : Backing} {p : RelPath} {m : SourceMetadata} {f : BFile}
    (hc : isCached s.dir p = true) (hm : s.db.sourceMetadataRow p mount = some m)
    (hf : b.live p = some f) (hkind : modeToFiletype f.stat.stMode = .regularFile)
    (hsize : m.size = f.bytes.length) : ReportsAs mount s b p m.Dated := by
  refine reportsAs_of_attrReply fun ino => ?_
  rw [attrReply_of_snapshot hc hm]
  unfold Describing
  rw [Backing.stat_of_live hf]
  cases hattr : sourceMetadataToAttr ino m with
  | none =>
    refine .inl ⟨rfl, fun hdated => ?_⟩
    have := sourceMetadataToAttr_isSome hdated ino
    rw [hattr] at this
    exact absurd this (by simp)
  | some attr =>
    obtain ⟨hk, hs⟩ := of_sourceMetadataToAttr hattr
    refine .inr ⟨attr, rfl, hk.trans hkind.symm, ?_⟩
    rw [hs, hsize, asU64_of_nonneg f.size_nonneg f.size_lt', f.size_eq, Int.toNat_natCast]

/-- What is not cached is read from the backing. -/
theorem readsAs_live {p : RelPath} (hc : isCached s.dir p = false) :
    ReadsAs mount s s.disk.backing p := by
  intro filtered now offset size
  cases h : s.disk.backing.openFile p with
  | none => simp [tryOpen, hc, h]
  | some fd =>
    simp only [tryOpen, hc, h, Bool.and_false, Bool.false_eq_true, if_false, Option.map_some]
    refine ⟨fd, rfl, ?_⟩
    cases fd <;> rfl

/-- What is cached is read as the backing had it. -/
theorem readsAs_cached {s₀ : Mounted} {p : RelPath} (hm : s₀.Mirrors mount) (hdir : s.dir = s₀.dir)
    (hc : isCached s₀.dir p = true) : ReadsAs mount s s₀.disk.backing p := by
  intro filtered now offset size
  rcases file_or_dir_of_cached hc with ⟨i, hi⟩ | hd
  · obtain ⟨f, hf, -, hbytes⟩ := hm.file p i hc hi
    obtain ⟨j, hj, rfl⟩ := Backing.live_eq_some.mp hf
    have hl := Files.fileAt_eq_some.mp hi
    simp only [tryOpen, hdir, hc, hl, Bool.not_false, Bool.and_true, if_true]
    refine ⟨.file j, Backing.openFile_of_node hj, ?_⟩
    simp only [doRead, ReadFd.bytes, Option.map_some, hbytes, Backing.readAt]
  · obtain ⟨st, hst⟩ := hm.dir p hc hd
    have hl : s₀.dir.lookup p = some .dir := by simpa [Files.isDir] using hd
    simp only [tryOpen, hdir, hc, hl, Bool.not_false, Bool.and_true, if_true]
    refine ⟨.dir st, ?_, rfl⟩
    simp only [Backing.openFile, Backing.follow, hst]

theorem Keeps.rows {s₀ : Mounted} (h : Keeps mount s s') {p : RelPath}
    (hrow : RowMirrors s₀.disk.backing p (s.db.row p mount)) :
    RowMirrors s₀.disk.backing p (s'.db.row p mount) := by
  rcases h.2 with e | ⟨q, st, hst, e⟩
  · rwa [e]
  · rw [e]
    exact hrow.refresh hst

/-- After any requests, a path that is not cached is read and reported as the backing has it
now; a cached one is read as the backing had it, and reported so if its row has a snapshot. -/
theorem own_writes {s₀ : Mounted} {rs : List (Kernel × Request)} (hm : s₀.Mirrors mount)
    (hrun : run (step mount) s₀ rs = some s) (p : RelPath) :
    if isCached s₀.dir p then
      ReadsAs mount s s₀.disk.backing p ∧
        match s.db.sourceMetadataRow p mount with
        | some m => ReportsAs mount s s₀.disk.backing p m.Dated
        | none => ReportsAs mount s s.disk.backing p (LiveDated s.disk.backing p)
    else ReadsAs mount s s.disk.backing p ∧
      ReportsAs mount s s.disk.backing p (LiveDated s.disk.backing p) := by
  have hkept : s.dir = s₀.dir ∧ ∀ q, isCached s₀.dir q = true →
      RowMirrors s₀.disk.backing q (s.db.row q mount) := by
    refine run_invariant (fun s => s.dir = s₀.dir ∧ ∀ q, isCached s₀.dir q = true →
      RowMirrors s₀.disk.backing q (s.db.row q mount)) ?_ hrun ⟨rfl, hm.row⟩
    rintro u ⟨k, r⟩ u' ⟨hdir, hrow⟩ hs
    obtain rfl := Option.some.inj hs
    have hkeeps : Keeps mount u (u.handle mount k r).1 := keeps_handle k r
    exact ⟨hkeeps.1.trans hdir, fun q hq => hkeeps.rows (hrow q hq)⟩
  obtain ⟨hdir, hrow⟩ := hkept
  cases hc : isCached s₀.dir p with
  | false =>
    rw [if_neg (by simp)]
    have hc' : isCached s.dir p = false := by rwa [hdir]
    exact ⟨readsAs_live hc', reportsAs_live (.inl hc')⟩
  | true =>
    rw [if_pos rfl]
    refine ⟨readsAs_cached hm hdir hc, ?_⟩
    split
    · next m hsnap =>
      -- the snapshot is of a row, and a row of a cached path is of a file
      obtain ⟨r, hr, hif⟩ := Option.bind_eq_some_iff.mp hsnap
      split at hif
      · next hhas =>
        obtain rfl := Option.some.inj hif
        obtain ⟨f, hf, -, hsize⟩ := hrow p hc r hr
        refine reportsAs_snapshot (by rwa [hdir]) hsnap hf ?_ (hsize hhas)
        rcases file_or_dir_of_cached hc with ⟨i, hi⟩ | hd
        · obtain ⟨g, hg, hkind, -⟩ := hm.file p i hc hi
          rw [hf] at hg
          rwa [Option.some.inj hg]
        · obtain ⟨st, hst⟩ := hm.dir p hc hd
          obtain ⟨j, hj, -⟩ := Backing.live_eq_some.mp hf
          rw [hst] at hj
          exact absurd hj (by simp)
      · exact absurd hif (by simp)
    · next hsnap => exact reportsAs_live (.inr hsnap)

/-! ## A cached file that is removed -/

private def sleeve : Name := ⟨[115, 108, 101, 101, 118, 101], Eq.refl true⟩

def sleeveFile : BFile := .pair 80 81 1

/-- The root of the backing, with one file. -/
def sleeveBacking : Backing :=
  (Backing.empty.setNode [] (some (.dir ⟨4096, 8, 1, 0, 1, 0, 1, 0, 0o040755, 2, 0, 0, 0, 4096⟩))
    (by simp)).replaceFile [sleeve] sleeveFile

/-- The file is cached, with its row. -/
def sleeveStart : Mounted where
  disk := ⟨sleeveBacking, by
    intro p st hst
    simp only [sleeveBacking, Backing.stat, Backing.replaceFile, Backing.setNode, Backing.empty,
      Function.update_apply] at hst
    by_cases hp : p = [sleeve]
    · simp only [hp, if_true, Option.some.injEq] at hst
      subst hst
      decide
    · by_cases hroot : p = []
      · simp only [hroot, if_true] at hst
        simp at hst
        subst hst
        decide
      · simp only [hp, hroot, if_false] at hst
        exact absurd hst (by simp)⟩
  inodes := .new
  dir := match Files.openTrunc Files.empty [sleeve] with
    | some (dir, i) => dir.writeAt zeroByte i 0 (written 0 [80, 81])
    | none => Files.empty
  db := CacheDb.markCached ⟨∅, ∅⟩ [sleeve] [109] (SourceMetadata.fromStat sleeveFile.stat) 9
  writePaths := ∅
  appendHandles := []

theorem mirrors_sleeveStart : sleeveStart.Mirrors [109] := by
  have hcached : ∀ p, isCached sleeveStart.dir p = true → p = [] ∨ p = [sleeve] := by
    intro p hp
    by_cases hroot : p = []
    · exact .inl hroot
    · rw [isCached, Bool.and_eq_true, Files.lookup_of_ne hroot, AList.lookup_isSome,
        AList.mem_keys] at hp
      have hkeys : sleeveStart.dir.node.keys = [[sleeve]] := by decide
      rw [hkeys] at hp
      exact .inr (by simpa using hp.1)
  constructor
  · intro p i hp hi
    rcases hcached p hp with rfl | rfl
    · exact absurd hi (by simp [Files.fileAt, Files.lookup])
    · obtain rfl : 0 = i := Option.some.inj hi
      exact ⟨sleeveFile, by decide, by decide, by decide⟩
  · intro p hp hd
    rcases hcached p hp with rfl | rfl
    · exact ⟨_, rfl⟩
    · exact absurd hd (by decide)
  · intro p hp
    rcases hcached p hp with rfl | rfl
    · intro r hr
      rw [show sleeveStart.db.row [] [109] = none by decide] at hr
      exact absurd hr (by simp)
    · intro r hr
      obtain rfl := Option.some.inj hr
      exact ⟨sleeveFile, by decide, by decide, fun _ => by decide⟩

/-- unlink(2) of what is not a directory. -/
def Disk.unlink (d : Disk) (p : RelPath) : Disk where
  backing := d.backing.setNode p none none_ne_file
  sizes := by
    intro q st hst
    simp only [Backing.stat, Backing.setNode, Function.update_apply] at hst
    by_cases hq : q = p
    · simp only [hq, if_true] at hst
      exact absurd hst (by simp)
    · simp only [hq, if_false] at hst
      exact d.sizes q st hst

/-- Nothing fails but what is not asked for here. -/
def unlinking : Kernel where
  unlinkFile p := do
    match (← get).backing.node p with
    | none => throw ENOENT
    | some (.dir _) => throw EISDIR
    | some _ => set (Disk.unlink (← get) p)
  rmdir _ := throw EIO
  rename _ _ _ := throw EIO
  link _ _ := throw EIO
  openFileWithFlags _ _ _ := throw EIO
  fchown _ _ _ := throw EIO
  chmod _ _ := throw EIO
  chown _ _ _ := throw EIO
  ftruncate _ _ := throw EIO
  utimens _ _ _ := throw EIO
  write _ _ := throw EIO
  pwrite _ _ _ := throw EIO
  statFails _ := false
  now := ⟨0, 0⟩

def sleeveUnlinked : Mounted := (sleeveStart.handle [109] unlinking (.unlink rootIno sleeve)).1

theorem run_unlink :
    run (step [109]) sleeveStart [(unlinking, .unlink rootIno sleeve)] = some sleeveUnlinked := rfl

/-- A name that was not cached is read as it is, and the cached one as it was. -/
theorem sleeve_answered :
    ReadsAs [109] sleeveUnlinked sleeveUnlinked.disk.backing [sleeve, sleeve] ∧
      ReadsAs [109] sleeveUnlinked sleeveStart.disk.backing [sleeve] := by
  have hother := own_writes mirrors_sleeveStart run_unlink [sleeve, sleeve]
  have hcached := own_writes mirrors_sleeveStart run_unlink [sleeve]
  rw [if_neg (by decide)] at hother
  rw [if_pos (by decide)] at hcached
  exact ⟨hother.1, hcached.1⟩

/-- The file is unlinked through the mount, and is still found and read. -/
theorem unlinked_still_read : sleeveStart.Mirrors [109] ∧
    run (step [109]) sleeveStart [(unlinking, .unlink rootIno sleeve)] = some sleeveUnlinked ∧
    ¬ReadsAs [109] sleeveUnlinked sleeveUnlinked.disk.backing [sleeve] ∧
    ¬ReportsAs [109] sleeveUnlinked sleeveUnlinked.disk.backing [sleeve]
      (LiveDated sleeveUnlinked.disk.backing [sleeve]) := by
  have hstat : sleeveUnlinked.disk.backing.stat [sleeve] = none := by decide
  have hopen : sleeveUnlinked.disk.backing.openFile [sleeve] = none := by decide
  refine ⟨mirrors_sleeveStart, rfl, fun h => ?_, fun h => ?_⟩
  · obtain ⟨fd, hfd, -⟩ := h false 9 0 2
    rw [hopen] at hfd
    exact absurd hfd (by simp)
  · have hlookup := h.1 rootIno sleeve (by decide)
    unfold Describing at hlookup
    rw [hstat] at hlookup
    exact absurd hlookup (by decide)

end Mounted

end FsCache
