import FsCache.Fs

/- The handles, and what the engine is told of them.

   Four tables are keyed by descriptors, which the system gives out again once they are
   closed. `Ledger` is what the kernel has seen of the handles: which are open, for what, and
   how many bytes the replies on each have returned. `owed` is what is due to the engine for a
   request, by what the kernel sees of it.

   `handles_balanced`: in every state of every run the keys of the tables are the handles of
   the ledger, and every request sends to the engine what is due. -/

namespace FsCache
open Lib

/-- A handle that the kernel has. -/
inductive OpenHandle where
  /-- `announced`: the engine was told of the open. -/
  | reader (path : RelPath) (announced : Bool) (bytesRead : Nat)
  | writer (append : Bool)
  deriving DecidableEq

abbrev Ledger := Map Nat OpenHandle

/-- What the engine is told, with hit and miss not told apart. -/
inductive Notice where
  | accessed (path : RelPath)
  | closed (path : RelPath) (bytesRead : Nat)
  deriving DecidableEq

def AccessEvent.notice (e : AccessEvent) : Notice :=
  match e.kind with
  | .miss | .hit => .accessed e.relativePath
  | .close n => .closed e.relativePath n

/-- What an answered request does to the handles. -/
inductive HandleEvent where
  | reader (ino fh : Nat)
  | writer (fh : Nat) (append : Bool)
  | read (fh n : Nat)
  | released (fh : Nat)

def handleEvent : FsRequest → Reply Answer → Option HandleEvent
  | .openFile ino flags, .ok (.opened fh) =>
    some (if isWriteIntent flags then .writer fh (flags &&& O_APPEND ≠ 0) else .reader ino fh)
  | .mutate (.create _ _ _ _ flags _ _), .ok (.plain (.created _ fh)) =>
    some (.writer fh (flags &&& O_APPEND ≠ 0))
  | .read fh _ _, .ok (.data bytes) => some (.read fh bytes.length)
  | .release fh, .ok _ => some (.released fh)
  | _, _ => none

/-- Only these opens are the engine's business. -/
def announces (cfg : FsConfig) (k : FsKernel) : Bool := !k.filtered && !cfg.passthroughMode

namespace Ledger

/-- `t` leads from the inodes to their paths. -/
def note (cfg : FsConfig) (k : FsKernel) (t : InodeTable) (l : Ledger) : Option HandleEvent → Ledger
  | some (.reader ino fh) => l.insert fh (.reader ((t.getPath ino).getD []) (announces cfg k) 0)
  | some (.writer fh append) => l.insert fh (.writer append)
  | some (.read fh n) =>
    match l.lookup fh with
    | some (.reader path announced m) => l.insert fh (.reader path announced (m + n))
    | _ => l
  | some (.released fh) => l.erase fh
  | none => l

/-- An open is announced once, and closed with the bytes that were returned; no other request
is reported. -/
def owed (cfg : FsConfig) (k : FsKernel) (t : InodeTable) (l : Ledger) : Option HandleEvent → List Notice
  | some (.reader ino _) => if announces cfg k then [.accessed ((t.getPath ino).getD [])] else []
  | some (.released fh) =>
    match l.lookup fh with
    | some (.reader path true n) => [.closed path n]
    | _ => []
  | _ => []

end Ledger

namespace Fs

/-- A mount, and the ledger of its kernel. -/
def ledgerStep (cfg : FsConfig) (x : Fs × Ledger) (r : FsKernel × FsRequest) : Option (Fs × Ledger) :=
  (step cfg x.1 r).map fun s =>
    (s, x.2.note cfg r.1 x.1.inodes (handleEvent r.2 (x.1.handle cfg r.1 r.2).2))

/-- The keys of the tables are the open handles. -/
structure Balanced (s : Fs) (l : Ledger) : Prop where
  openBytes : ∀ fh n, s.openBytes.lookup fh = some n ↔
    ∃ path announced, l.lookup fh = some (.reader path announced n)
  openPaths : ∀ fh path, s.openPaths.lookup fh = some path ↔
    ∃ n, l.lookup fh = some (.reader path true n)
  writePaths : ∀ fh, (s.writePaths.lookup fh).isSome ↔ ∃ append, l.lookup fh = some (.writer append)
  appendHandles : ∀ fh, fh ∈ s.appendHandles ↔ l.lookup fh = some (.writer true)
  fds : ∀ fh, s.Free fh ↔ l.lookup fh = none

end Fs

/-! ## What a request leaves of the tables -/

/-- A descriptor that is added and taken out again. -/
theorem filter_fresh {l : List Nat} {fd : Nat} (h : fd ∉ l) (p : Prop) [Decidable p] :
    (if p then fd :: l else l).filter (· ≠ fd) = l := by
  have hl : l.filter (· ≠ fd) = l :=
    List.filter_eq_self.mpr fun x hx => decide_eq_true fun e => h (e ▸ hx)
  split
  · rw [List.filter_cons, if_neg (by simp), hl]
  · exact hl

theorem sent_ne_error {f : FileAttr → Sent} {o : Option FileAttr} {e : Errno} : sent f o ≠ .error e := by
  cases o <;> simp [sent]

namespace Mounted

variable {s : Mounted} {k : Kernel}

/-- A request that opens nothing leaves the handle tables, and if it fails the inode table. -/
structure Orderly (s : Mounted) (x : Mounted × Reply Sent) : Prop where
  writePaths : x.1.writePaths = s.writePaths
  appendHandles : x.1.appendHandles = s.appendHandles
  inodes : ∀ e, x.2 = .error e → x.1.inodes = s.inodes

theorem orderly_error (d : Disk) (e : Errno) : Orderly s ({ s with disk := d }, .error e) :=
  ⟨rfl, rfl, fun _ _ => rfl⟩

theorem orderly_ok (d : Disk) (t : InodeTable) (x : Sent) :
    Orderly s ({ s with disk := d, inodes := t }, .ok x) :=
  ⟨rfl, rfl, fun _ h => absurd h (by simp)⟩

theorem orderly_call {α : Type} {calls : Syscalls α} {next : α → Mounted → Mounted × Reply Sent}
    (h : ∀ a d, Orderly s (next a { s with disk := d })) : Orderly s (s.call calls .error next) := by
  unfold call
  split
  · exact orderly_error _ _
  · exact h _ _

/-- The attributes of a new entry, or none. -/
theorem orderly_freshAttr {n : Nat} {path : RelPath} {f : FileAttr → Sent} (d : Disk) :
    Orderly s (match ({ s with disk := d } : Mounted).freshAttrForPath k n path with
      | (s, none) => (s, .error ENOENT)
      | (s, some attr) => (s, sent f attr)) := by
  unfold freshAttrForPath
  cases k.stat n d path with
  | none => exact orderly_error d ENOENT
  | some st => exact ⟨rfl, rfl, fun e he => absurd he sent_ne_error⟩

theorem orderly_makeNode {parent : Nat} {name : Name} {uid gid : Nat} {calls : RelPath → Syscalls Unit} :
    Orderly s (s.makeNode k parent name uid gid calls) := by
  unfold makeNode
  split
  · exact orderly_error s.disk ENOENT
  · exact orderly_call fun _ d => orderly_freshAttr _

/-- Every request of `Mount.lean` but a create. -/
theorem orderly_handle (mount : MountId) (r : Request) (h : ∀ parent name mode umask flags uid gid,
    r ≠ .create parent name mode umask flags uid gid) : Orderly s (s.handle mount k r) := by
  cases r with
  | create => exact absurd rfl (h _ _ _ _ _ _ _)
  | unlink parent name =>
    show Orderly s (s.doUnlink k parent name)
    unfold doUnlink
    split
    · exact orderly_error s.disk ENOENT
    · exact orderly_call fun _ d => orderly_ok d _ .ok
  | rmdir parent name =>
    show Orderly s (s.doRmdir k parent name)
    unfold doRmdir
    split
    · exact orderly_error s.disk ENOENT
    · exact orderly_call fun _ d => orderly_ok d _ .ok
  | rename parent name newparent newname flags =>
    show Orderly s (s.doRename k parent name newparent newname flags)
    unfold doRename
    split
    · exact orderly_call fun _ d => orderly_ok d _ .ok
    · exact orderly_error s.disk ENOENT
  | link ino newparent newname =>
    show Orderly s (s.doLink k ino newparent newname)
    unfold doLink
    split
    · exact orderly_call fun _ d => orderly_freshAttr d
    · exact orderly_error s.disk ENOENT
  | write fh offset data flags =>
    show Orderly s (s.doWrite k fh offset data flags)
    unfold doWrite
    exact orderly_call fun n d => orderly_ok d s.inodes (.written (n % 2^32))
  | setattr ino a =>
    show Orderly s (s.doSetattr mount k ino a)
    unfold doSetattr
    split
    · exact orderly_error s.disk ENOENT
    · refine orderly_call fun _ d => ?_
      split
      · exact orderly_error d ENOENT
      · exact ⟨rfl, rfl, fun e he => absurd he sent_ne_error⟩

/-- A new file is given to the requester. -/
def handedOver (s : Mounted) (k : Kernel) (path : RelPath) (fd uid gid : Nat) (d : Disk) : Disk :=
  ((k.fchown fd uid (({ s with disk := d } : Mounted).requesterGid k 0 path gid)).run.run d).2

/-- The ways a create can go. -/
inductive Creates (s : Mounted) (k : Kernel) (parent : Nat) (name : Name) (mode umask flags uid gid : Nat) :
    Mounted × Reply Sent → Prop
  | unknown (h : s.inodes.childPath parent name = none) :
      Creates s k parent name mode umask flags uid gid (s, .error ENOENT)
  | refused {path : RelPath} {e : Errno} {d : Disk} (hp : s.inodes.childPath parent name = some path)
      (h : (k.openFileWithFlags path (flags ||| O_CREAT ||| O_EXCL) (applyUmask mode umask)).run.run s.disk =
        (.error e, d)) (e' : Errno) :
      Creates s k parent name mode umask flags uid gid ({ s with disk := d }, .error e')
  | made {path : RelPath} {fd : Nat} {d : Disk} (hp : s.inodes.childPath parent name = some path)
      (h : (k.openFileWithFlags path (flags ||| O_CREAT ||| O_EXCL) (applyUmask mode umask)).run.run s.disk =
        (.ok fd, d)) (d' : Disk) (st : Stat) :
      Creates s k parent name mode umask flags uid gid
        ({ s.writeHandle fd flags path with disk := d', inodes := (s.inodes.getOrCreate path).1 },
          sent (.created · fd) (statToAttr (s.inodes.getOrCreate path).2 st))
  | undone {path : RelPath} {fd : Nat} {d : Disk} (hp : s.inodes.childPath parent name = some path)
      (h : (k.openFileWithFlags path (flags ||| O_CREAT ||| O_EXCL) (applyUmask mode umask)).run.run s.disk =
        (.ok fd, d)) :
      Creates s k parent name mode umask flags uid gid
        ({ s with
            disk := ((k.unlinkFile path).run.run (s.handedOver k path fd uid gid d)).2
            writePaths := (s.writePaths.insert fd path).erase fd
            appendHandles := (if flags &&& O_APPEND ≠ 0 then fd :: s.appendHandles
              else s.appendHandles).filter (· ≠ fd) }, .error ENOENT)

theorem creates_doCreate (s : Mounted) (k : Kernel) (parent : Nat) (name : Name)
    (mode umask flags uid gid : Nat) :
    Creates s k parent name mode umask flags uid gid (s.doCreate k parent name mode umask flags uid gid) := by
  unfold doCreate
  cases hp : s.inodes.childPath parent name with
  | none => exact .unknown hp
  | some path =>
    simp only [call]
    cases hopen : (k.openFileWithFlags path (flags ||| O_CREAT ||| O_EXCL)
        (applyUmask mode umask)).run.run s.disk with
    | mk result d =>
      cases result with
      | error e => exact .refused hp hopen _
      | ok fd =>
        simp only [freshAttrForPath]
        cases hst : k.stat 1 _ path with
        | some st => exact .made hp hopen _ st
        | none => exact .undone hp hopen

end Mounted

namespace Fs

/-- What a request may change beside the inode table, the backing and the cache. -/
structure Tables where
  fds : Map Nat Opened
  openBytes : Map Nat Nat
  openPaths : Map Nat RelPath
  writePaths : Map Nat RelPath
  appendHandles : List Nat
  events : List AccessEvent

def tables (s : Fs) : Tables :=
  ⟨s.fds, s.openBytes, s.openPaths, s.writePaths, s.appendHandles, s.events⟩

/-- What each event does to the tables. -/
def After (cfg : FsConfig) (k : FsKernel) (s s' : Fs) : Option HandleEvent → Prop
  | none => s'.tables = s.tables
  | some (.reader ino fh) => ∃ path kind o, s.inodes.getPath ino = some path ∧ s.Free fh ∧
      (kind = .hit ∨ kind = .miss) ∧ s'.tables = { s.tables with
        fds := s.fds.insert fh o
        openBytes := s.openBytes.insert fh 0
        openPaths := if announces cfg k then s.openPaths.insert fh path else s.openPaths
        events := if announces cfg k && cfg.accessTx then s.events ++ [⟨path, kind⟩] else s.events }
  | some (.writer fh append) => ∃ path o, s.Free fh ∧ s'.tables = { s.tables with
      fds := s.fds.insert fh o
      writePaths := s.writePaths.insert fh path
      appendHandles := if append then fh :: s.appendHandles else s.appendHandles }
  | some (.read fh n) => s'.tables = { s.tables with
      openBytes :=
        match s.openBytes.lookup fh with
        | some m => s.openBytes.insert fh (m + n)
        | none => s.openBytes }
  | some (.released fh) => s'.tables =
      if (s.writePaths.lookup fh).isSome then { s.tables with
        fds := s.fds.erase fh
        writePaths := s.writePaths.erase fh
        appendHandles := s.appendHandles.filter (· ≠ fh) }
      else { s.tables with
        fds := s.fds.erase fh
        openBytes := s.openBytes.erase fh
        openPaths := s.openPaths.erase fh
        events :=
          match s.openPaths.lookup fh with
          | some path => if cfg.accessTx then
              s.events ++ [⟨path, .close ((s.openBytes.lookup fh).getD 0)⟩] else s.events
          | none => s.events }

variable {cfg : FsConfig} {s s' : Fs} {k : FsKernel} {r : FsRequest} {reply : Reply Answer}

/-- What an open for reading can answer. -/
theorem of_tryOpen {path : RelPath} {file : ReadFd} {outcome : OpenOutcome}
    (h : s.tryOpen cfg k path = (s', .ok (file, outcome))) :
    s'.tables = s.tables ∧ (outcome = .hit ∧ cfg.passthroughMode = false ∨
      outcome = if k.filtered then .filtered else .miss) := by
  unfold tryOpen FsCache.tryOpen at h
  generalize hn : (if (!(cfg.passthroughMode || !cfg.caching || !k.cacheOpens) && isCached s.dir path) = true
    then s.dir.lookup path else none) = node at h
  have hmode : ∀ n, node = some n → cfg.passthroughMode = false := by
    intro n hnode
    subst hnode
    split at hn
    · next hc =>
      cases hp : cfg.passthroughMode with
      | false => rfl
      | true => simp [hp] at hc
    · exact absurd hn (by simp)
  cases node with
  | some n =>
    have hoff := hmode n rfl
    cases n with
    | file i =>
      obtain ⟨hs, hok⟩ := Prod.mk.inj h
      obtain ⟨-, rfl⟩ := Prod.mk.inj (Except.ok.inj hok)
      exact ⟨by rw [← hs]; rfl, .inl ⟨rfl, hoff⟩⟩
    | dir =>
      obtain ⟨hs, hok⟩ := Prod.mk.inj h
      obtain ⟨-, rfl⟩ := Prod.mk.inj (Except.ok.inj hok)
      exact ⟨by rw [← hs]; rfl, .inl ⟨rfl, hoff⟩⟩
  | none =>
    cases hb : s.disk.backing.openFile path with
    | none => simp [hb] at h
    | some b =>
      simp only [hb, Option.map_some] at h
      cases hf : k.openFails with
      | some e => simp [hf] at h
      | none =>
        simp only [hf] at h
        obtain ⟨rfl, hok⟩ := Prod.mk.inj h
        obtain ⟨-, rfl⟩ := Prod.mk.inj (Except.ok.inj hok)
        exact ⟨rfl, .inr rfl⟩

/-- A refused open for reading leaves the tables. -/
theorem tables_of_tryOpen_error {path : RelPath} {e : Errno} (h : s.tryOpen cfg k path = (s', .error e)) :
    s'.tables = s.tables := by
  unfold tryOpen at h
  split at h <;>
  · obtain ⟨rfl, -⟩ := Prod.mk.inj h
    rfl

/-- The engine is told of an open, as a hit or as a miss, if it is announced. -/
theorem engineEvent_eq {outcome : OpenOutcome}
    (h : outcome = .hit ∧ cfg.passthroughMode = false ∨
      outcome = if k.filtered then .filtered else .miss) :
    if announces cfg k then
      engineEvent cfg k.filtered outcome = some .hit ∨ engineEvent cfg k.filtered outcome = some .miss
    else engineEvent cfg k.filtered outcome = none := by
  unfold announces engineEvent
  rcases h with ⟨rfl, hp⟩ | rfl
  · cases k.filtered <;> simp [hp]
  · cases k.filtered <;> cases cfg.passthroughMode <;> simp

theorem after_open {ino flags : Nat} (hadm : s.Admitted k (.openFile ino flags)) :
    After cfg k s (s.doOpen cfg k ino flags).1
      (handleEvent (.openFile ino flags) (s.doOpen cfg k ino flags).2) := by
  unfold doOpen
  cases hp : s.inodes.getPath ino with
  | none => exact rfl
  | some path =>
    have hadm := hadm path hp
    by_cases hw : isWriteIntent flags = true
    · rw [if_pos hw] at hadm
      simp only [if_pos hw, openWriteHandle]
      cases hopen : (k.openFileWithFlags path flags 0).run.run s.disk with
      | mk result d =>
        cases result with
        | error e => exact rfl
        | ok fd =>
          have hfree : s.Free fd := hadm fd (by simp [newFd, hopen, Except.toOption])
          simp only [handleEvent, if_pos hw]
          refine ⟨path, ({ s with disk := d } : Fs).writer path flags, hfree, ?_⟩
          simp only [tables, Mounted.writeHandle, decide_eq_true_eq]
    · rw [if_neg hw] at hadm
      simp only [if_neg hw, openForRead]
      cases ho : s.tryOpen cfg k path with
      | mk u result =>
        cases result with
        | error e => exact tables_of_tryOpen_error ho
        | ok fo =>
          obtain ⟨file, outcome⟩ := fo
          obtain ⟨hu, hout⟩ := of_tryOpen ho
          have hevent := engineEvent_eq hout
          simp only [handleEvent, if_neg hw]
          obtain ⟨hfds, hbytes, hpaths, hwrite, happend, hevents⟩ := Tables.mk.inj hu
          cases ha : announces cfg k with
          | true =>
            rw [ha, if_pos rfl] at hevent
            obtain ⟨kind, hkind, he⟩ : ∃ kind, (kind = .hit ∨ kind = .miss) ∧
                engineEvent cfg k.filtered outcome = some kind := by
              rcases hevent with he | he
              · exact ⟨.hit, .inl rfl, he⟩
              · exact ⟨.miss, .inr rfl, he⟩
            refine ⟨path, kind, ⟨some file, flags⟩, hp, hadm, hkind, ?_⟩
            simp only [he, send, ha]
            cases cfg.accessTx <;> simp [tables, hfds, hbytes, hpaths, hwrite, happend, hevents]
          | false =>
            rw [ha, if_neg (by simp)] at hevent
            refine ⟨path, .miss, ⟨some file, flags⟩, hp, hadm, .inr rfl, ?_⟩
            simp [hevent, ha, tables, hfds, hbytes, hpaths, hwrite, happend, hevents]

theorem after_read (fh offset size : Nat) :
    After cfg k s (s.doRead k fh offset size).1
      (handleEvent (.read fh offset size) (s.doRead k fh offset size).2) := by
  unfold doRead
  cases s.pread k fh offset size with
  | error e => exact rfl
  | ok bytes => exact rfl

theorem after_release (fh : Nat) :
    After cfg k s (s.doRelease cfg fh).1 (handleEvent (.release fh) (s.doRelease cfg fh).2) := by
  unfold doRelease
  simp only [handleEvent, After]
  cases hw : s.writePaths.lookup fh with
  | some path => simp [tables]
  | none =>
    cases hp : s.openPaths.lookup fh with
    | none => simp [tables]
    | some path =>
      simp only [send]
      cases cfg.accessTx <;> simp [tables]

/-- The keys of the tables are descriptors that are open. -/
def Open (s : Fs) : Prop :=
  ∀ fh, s.Free fh → s.writePaths.lookup fh = none ∧ fh ∉ s.appendHandles

theorem tables_of_orderly {x : Mounted × Reply Sent} (h : Mounted.Orderly s.toMounted x) :
    (s.lift x).1.tables = s.tables := by
  simp [lift, tables, h.writePaths, h.appendHandles]

theorem tables_of_mutate {r : Request} (h : Mounted.Orderly s.toMounted (s.toMounted.handle cfg.mount k.toKernel r))
    (hr : ∀ parent name mode umask flags uid gid, r ≠ .create parent name mode umask flags uid gid) :
    (s.mutate cfg k r).1.tables = s.tables := by
  unfold mutate
  cases hh : s.toMounted.handle cfg.mount k.toKernel r with
  | mk m reply =>
    rw [hh] at h
    have hw : m.writePaths = s.writePaths := h.writePaths
    have ha : m.appendHandles = s.appendHandles := h.appendHandles
    cases r with
    | create => exact absurd rfl (hr _ _ _ _ _ _ _)
    | _ => cases cfg.caching <;> simp [tables, hw, ha]

/-- A file that is created is open; one that could not be is not, and the tables are as before. -/
theorem after_create {parent : Nat} {name : Name} {mode umask flags uid gid : Nat}
    (hadm : s.Admitted k (.mutate (.create parent name mode umask flags uid gid))) (ho : s.Open)
    (hpanic : (s.mutate cfg k (.create parent name mode umask flags uid gid)).2 ≠ .panic) :
    After cfg k s (s.mutate cfg k (.create parent name mode umask flags uid gid)).1
      (handleEvent (.mutate (.create parent name mode umask flags uid gid))
        (s.mutate cfg k (.create parent name mode umask flags uid gid)).2) := by
  have hcreates := Mounted.creates_doCreate s.toMounted k.toKernel parent name mode umask flags uid gid
  unfold mutate at hpanic ⊢
  simp only [Mounted.handle] at hpanic ⊢
  generalize s.toMounted.doCreate k.toKernel parent name mode umask flags uid gid = x at hcreates hpanic ⊢
  cases hcreates with
  | unknown hp =>
    have hfds : ∀ m reply, s.created k m parent name mode umask flags reply = s.fds := by
      simp [created, hp]
    cases cfg.caching <;> simp [After, handleEvent, tables, Reply.map, hfds]
  | @refused path e d hp hopen e' =>
    have hfds : ∀ m reply, s.created k m parent name mode umask flags reply = s.fds := by
      simp [created, hp, newFd, hopen, Except.toOption]
    cases cfg.caching <;> simp [After, handleEvent, tables, Reply.map, hfds]
  | @made path fd d hp hopen d' st =>
    have hfd : s.newFd k path (flags ||| O_CREAT ||| O_EXCL) (applyUmask mode umask) = some fd := by
      simp [newFd, hopen, Except.toOption]
    have hfree : s.Free fd := hadm path hp fd hfd
    cases hattr : statToAttr (s.inodes.getOrCreate path).2 st with
    | none => exact absurd (by rw [hattr]; rfl) hpanic
    | some attr =>
      refine ⟨path, ⟨(d'.backing.openFile path).map .backing, flags⟩, hfree, ?_⟩
      cases cfg.caching <;> simp [tables, sent, created, hp, hfd, Mounted.writeHandle]
  | @undone path fd d hp hopen =>
    have hfd : s.newFd k path (flags ||| O_CREAT ||| O_EXCL) (applyUmask mode umask) = some fd := by
      simp [newFd, hopen, Except.toOption]
    have hfree : s.Free fd := hadm path hp fd hfd
    obtain ⟨hnone, hnot⟩ := ho fd hfree
    -- the three insertions are taken back
    rw [Map.erase_insert hnone, filter_fresh hnot]
    have hfds : ∀ m, s.created k m parent name mode umask flags (.error ENOENT) = s.fds := by
      intro m
      simp only [created, hp, hfd]
      exact Map.erase_insert hfree _
    cases cfg.caching <;> simp [After, handleEvent, tables, Reply.map, hfds]

/-- What an answered request does to the tables is what the kernel sees of it. -/
theorem after_handle (hadm : s.Admitted k r) (ho : s.Open) (hpanic : (s.handle cfg k r).2 ≠ .panic) :
    After cfg k s (s.handle cfg k r).1 (handleEvent r (s.handle cfg k r).2) := by
  cases r with
  | lookup parent name =>
    show (s.doLookup cfg k parent name).1.tables = s.tables
    cases hp : s.inodes.childPath parent name with
    | none => simp only [doLookup, hp]
    | some child => rw [doLookup_of_child hp]; rfl
  | getattr ino =>
    show (s.doGetattr cfg k ino).1.tables = s.tables
    cases hp : s.inodes.getPath ino with
    | none => simp only [doGetattr, hp]
    | some path => rw [doGetattr_of_path hp]; rfl
  | forget ino nlookup => exact rfl
  | readdir ino names => exact rfl
  | outside disk => exact rfl
  | openFile ino flags => exact after_open hadm
  | read fh offset size => exact after_read fh offset size
  | release fh => exact after_release fh
  | mknod parent name mode umask rdev uid gid => exact tables_of_orderly Mounted.orderly_makeNode
  | mkdir parent name mode umask uid gid => exact tables_of_orderly Mounted.orderly_makeNode
  | symlink parent linkName target uid gid => exact tables_of_orderly Mounted.orderly_makeNode
  | mutate r =>
    by_cases hr : ∃ parent name mode umask flags uid gid, r = .create parent name mode umask flags uid gid
    · obtain ⟨parent, name, mode, umask, flags, uid, gid, rfl⟩ := hr
      exact after_create hadm ho hpanic
    · have hr : ∀ parent name mode umask flags uid gid, r ≠ .create parent name mode umask flags uid gid :=
        fun parent name mode umask flags uid gid e => hr ⟨parent, name, mode, umask, flags, uid, gid, e⟩
      have htables : (s.mutate cfg k r).1.tables = s.tables :=
        tables_of_mutate (Mounted.orderly_handle cfg.mount r hr) hr
      cases r with
      | create => exact absurd rfl (hr _ _ _ _ _ _ _)
      | _ => exact htables

/-! ## The ledger -/

variable {l : Ledger}

/-- What the tables have of one handle. -/
structure HandleRow where
  bytes : Option Nat
  path : Option RelPath
  writing : Bool
  append : Bool
  isOpen : Bool

def Tables.row (t : Tables) (fh : Nat) : HandleRow where
  bytes := t.openBytes.lookup fh
  path := t.openPaths.lookup fh
  writing := (t.writePaths.lookup fh).isSome
  append := t.appendHandles.contains fh
  isOpen := (t.fds.lookup fh).isSome

def rowOf : Option OpenHandle → HandleRow
  | some (.reader path announced n) => ⟨some n, if announced then some path else none, false, false, true⟩
  | some (.writer append) => ⟨none, none, true, append, true⟩
  | none => ⟨none, none, false, false, false⟩

theorem Tables.row_eq_iff {t : Tables} {fh : Nat} {r : HandleRow} :
    t.row fh = r ↔ t.openBytes.lookup fh = r.bytes ∧ t.openPaths.lookup fh = r.path ∧
      (t.writePaths.lookup fh).isSome = r.writing ∧ t.appendHandles.contains fh = r.append ∧
      (t.fds.lookup fh).isSome = r.isOpen := by
  cases r
  simp only [Tables.row, HandleRow.mk.injEq]

/-- The balance, handle by handle. -/
theorem balanced_iff : Balanced s l ↔ ∀ fh, s.tables.row fh = rowOf (l.lookup fh) := by
  constructor
  · intro hb fh
    have hbytes : s.openBytes.lookup fh = (rowOf (l.lookup fh)).bytes := by
      refine Option.ext fun n => (hb.openBytes fh n).trans ?_
      rcases l.lookup fh with _ | _ | _ <;> simp [rowOf]
    have hpaths : s.openPaths.lookup fh = (rowOf (l.lookup fh)).path := by
      refine Option.ext fun path => (hb.openPaths fh path).trans ?_
      rcases l.lookup fh with _ | ⟨path', _ | _, n⟩ | _ <;> simp [rowOf]
    have hwrite : (s.writePaths.lookup fh).isSome = (rowOf (l.lookup fh)).writing := by
      refine Bool.eq_iff_iff.mpr ((hb.writePaths fh).trans ?_)
      rcases l.lookup fh with _ | _ | _ <;> simp [rowOf]
    have happend : s.appendHandles.contains fh = (rowOf (l.lookup fh)).append := by
      refine Bool.eq_iff_iff.mpr (List.contains_iff_mem.trans ((hb.appendHandles fh).trans ?_))
      rcases l.lookup fh with _ | _ | _ <;> simp [rowOf]
    have hfds : (s.fds.lookup fh).isSome = (rowOf (l.lookup fh)).isOpen := by
      have hfree := hb.fds fh
      rw [Bool.eq_iff_iff, Option.isSome_iff_ne_none]
      refine (not_congr hfree).trans ?_
      rcases l.lookup fh with _ | _ | _ <;> simp [rowOf]
    exact Tables.row_eq_iff.mpr ⟨hbytes, hpaths, hwrite, happend, hfds⟩
  · intro h
    have hrow := fun fh => Tables.row_eq_iff.mp (h fh)
    constructor
    · intro fh n
      obtain ⟨hbytes, -, -, -, -⟩ := hrow fh
      rw [show s.openBytes.lookup fh = _ from hbytes]
      rcases l.lookup fh with _ | _ | _ <;> simp [rowOf]
    · intro fh path
      obtain ⟨-, hpaths, -, -, -⟩ := hrow fh
      rw [show s.openPaths.lookup fh = _ from hpaths]
      rcases l.lookup fh with _ | ⟨path', _ | _, n⟩ | _ <;> simp [rowOf]
    · intro fh
      obtain ⟨-, -, hwrite, -, -⟩ := hrow fh
      rw [show (s.writePaths.lookup fh).isSome = _ from hwrite]
      rcases l.lookup fh with _ | _ | _ <;> simp [rowOf]
    · intro fh
      obtain ⟨-, -, -, happend, -⟩ := hrow fh
      rw [← List.contains_iff_mem, show s.appendHandles.contains fh = _ from happend]
      rcases l.lookup fh with _ | _ | _ <;> simp [rowOf]
    · intro fh
      obtain ⟨-, -, -, -, hopen⟩ := hrow fh
      rcases hl : l.lookup fh with _ | _ | _ <;> rw [hl] at hopen <;>
        simpa [rowOf, Free, tables, Option.isSome_iff_ne_none] using hopen

theorem Balanced.open (hb : Balanced s l) : s.Open := by
  intro fh hfree
  have hl := (hb.fds fh).mp hfree
  constructor
  · have hwrite := (hb.writePaths fh).not.mpr (by simp [hl])
    simpa using hwrite
  · exact (hb.appendHandles fh).not.mpr (by simp [hl])

/-- A request that is about one handle leaves the rows of the others. -/
theorem balanced_at (hb : Balanced s l) {l' : Ledger} (fh : Nat)
    (hother : ∀ x, x ≠ fh → s'.tables.row x = s.tables.row x ∧ l'.lookup x = l.lookup x)
    (hthis : s.tables.row fh = rowOf (l.lookup fh) → s'.tables.row fh = rowOf (l'.lookup fh)) :
    Balanced s' l' := by
  refine balanced_iff.mpr fun x => ?_
  by_cases hx : x = fh
  · subst hx
    exact hthis (balanced_iff.mp hb x)
  · rw [(hother x hx).1, (hother x hx).2]
    exact balanced_iff.mp hb x

/-- One request keeps the balance. -/
theorem Balanced.step (hb : Balanced s l) {ev : Option HandleEvent} (ha : After cfg k s s' ev) :
    Balanced s' (l.note cfg k s.inodes ev) := by
  cases ev with
  | none =>
    refine balanced_iff.mpr fun fh => ?_
    rw [show s'.tables = s.tables from ha]
    exact balanced_iff.mp hb fh
  | some e =>
    cases e with
    | reader ino fh =>
      obtain ⟨path, kind, o, hp, hfree, -, ht⟩ := ha
      have hl := (hb.fds fh).mp hfree
      simp only [Ledger.note, hp, Option.getD_some]
      refine balanced_at hb fh (fun x hx => ⟨?_, by simp [hx]⟩) fun hrow => ?_
      · rw [ht]
        cases announces cfg k <;> simp [Tables.row, hx, tables]
      · rw [hl] at hrow
        obtain ⟨-, hpaths, hwrite, happend, -⟩ := Tables.row_eq_iff.mp hrow
        simp only [tables, List.contains_eq_mem] at hpaths hwrite happend
        rw [ht]
        refine Tables.row_eq_iff.mpr ?_
        cases announces cfg k <;>
          simp [tables, rowOf, hpaths, hwrite, happend]
    | writer fh append =>
      obtain ⟨path, o, hfree, ht⟩ := ha
      have hl := (hb.fds fh).mp hfree
      simp only [Ledger.note]
      refine balanced_at hb fh (fun x hx => ⟨?_, by simp [hx]⟩) fun hrow => ?_
      · rw [ht]
        cases append <;> simp [Tables.row, hx, tables]
      · rw [hl] at hrow
        obtain ⟨hbytes, hpaths, -, happend, -⟩ := Tables.row_eq_iff.mp hrow
        simp only [tables, List.contains_eq_mem] at hbytes hpaths happend
        rw [ht]
        refine Tables.row_eq_iff.mpr ?_
        cases append <;>
          simp [tables, rowOf, hbytes, hpaths, happend]
    | read fh n =>
      have ht : s'.tables = _ := ha
      refine balanced_at hb fh (fun x hx => ⟨?_, ?_⟩) fun hrow => ?_
      · rw [ht]
        cases s.openBytes.lookup fh <;> simp [Tables.row, hx, tables]
      · simp only [Ledger.note]
        split <;> simp [hx]
      · simp only [Ledger.note]
        rw [ht]
        obtain ⟨hbytes, hpaths, hwrite, happend, hfds⟩ := Tables.row_eq_iff.mp hrow
        simp only [tables, List.contains_eq_mem] at hbytes hpaths hwrite happend hfds
        refine Tables.row_eq_iff.mpr ?_
        rcases hl : l.lookup fh with _ | _ | _ <;> rw [hl] at hbytes hpaths hwrite happend hfds <;>
          simp [tables, rowOf, hbytes, hpaths, hwrite, happend, hfds, hl]
    | released fh =>
      have ht : s'.tables = _ := ha
      simp only [Ledger.note]
      refine balanced_at hb fh (fun x hx => ⟨?_, by simp [hx]⟩) fun hrow => ?_
      · rw [ht]
        split <;> simp [Tables.row, hx, tables]
      · rw [ht]
        obtain ⟨hbytes, hpaths, hwrite, happend, -⟩ := Tables.row_eq_iff.mp hrow
        simp only [tables, List.contains_eq_mem] at hbytes hpaths hwrite happend
        refine Tables.row_eq_iff.mpr ?_
        rcases hl : l.lookup fh with _ | _ | _ <;> rw [hl] at hbytes hpaths hwrite happend <;>
          simp [tables, rowOf, hbytes, hpaths, hwrite, happend]

/-- And sends what is due. -/
theorem Balanced.sent (hb : Balanced s l) (htx : cfg.accessTx = true) {ev : Option HandleEvent}
    (ha : After cfg k s s' ev) :
    ∃ es, s'.events = s.events ++ es ∧ es.map AccessEvent.notice = l.owed cfg k s.inodes ev := by
  cases ev with
  | none =>
    have hevents : s'.events = s.events := congrArg Tables.events (show s'.tables = s.tables from ha)
    exact ⟨[], by simpa using hevents, rfl⟩
  | some e =>
    cases e with
    | reader ino fh =>
      obtain ⟨path, kind, o, hp, -, hkind, ht⟩ := ha
      have hevents := congrArg Tables.events ht
      simp only [Ledger.owed, hp, Option.getD_some]
      cases hann : announces cfg k with
      | true =>
        refine ⟨[⟨path, kind⟩], by simpa [tables, hann, htx] using hevents, ?_⟩
        rcases hkind with rfl | rfl <;> rfl
      | false => exact ⟨[], by simpa [tables, hann] using hevents, rfl⟩
    | writer fh append =>
      obtain ⟨path, o, -, ht⟩ := ha
      exact ⟨[], by simpa [tables] using congrArg Tables.events ht, rfl⟩
    | read fh n => exact ⟨[], by simpa [tables] using congrArg Tables.events ha, rfl⟩
    | released fh =>
      simp only [After] at ha
      have hevents := congrArg Tables.events ha
      simp only [Ledger.owed]
      by_cases hw : (s.writePaths.lookup fh).isSome
      · obtain ⟨a, hl⟩ := (hb.writePaths fh).mp hw
        rw [if_pos hw] at hevents
        exact ⟨[], by simpa [tables] using hevents, by simp [hl]⟩
      · rw [if_neg hw] at hevents
        cases hp : s.openPaths.lookup fh with
        | some path =>
          obtain ⟨n, hl⟩ := (hb.openPaths fh path).mp hp
          have hn := (hb.openBytes fh n).mpr ⟨path, true, hl⟩
          exact ⟨[⟨path, .close n⟩], by simpa [tables, hp, hn, htx] using hevents, by simp [hl, AccessEvent.notice]⟩
        | none =>
          refine ⟨[], by simpa [tables, hp] using hevents, ?_⟩
          split
          · next path n hl => exact absurd ((hb.openPaths fh path).mpr ⟨n, hl⟩) (by simp [hp])
          · rfl

/-! ## Runs -/

theorem after_step (hb : Balanced s l) (hs : step cfg s (k, r) = some s') :
    After cfg k s s' (handleEvent r (s.handle cfg k r).2) := by
  simp only [Fs.step] at hs
  split at hs
  · next hadm =>
    split at hs
    · exact absurd hs (by simp)
    · next u reply hnopanic hh =>
      obtain rfl := Option.some.inj hs
      have hafter : After cfg k s (s.handle cfg k r).1 (handleEvent r (s.handle cfg k r).2) :=
        after_handle hadm hb.open (by rw [hh]; exact hnopanic)
      rwa [hh] at hafter ⊢
  · exact absurd hs (by simp)

theorem balanced_start (disk : Disk) (dir : CacheDir) (db : CacheDb) :
    Balanced (start disk dir db) (∅ : Ledger) := by
  constructor <;> simp [start, Free]

/-- Some ledger goes with every state of a run. -/
theorem balanced_of_run {disk : Disk} {dir : CacheDir} {db : CacheDb} {rs : List (FsKernel × FsRequest)}
    (h : run (step cfg) (start disk dir db) rs = some s) : ∃ l, Balanced s l := by
  refine run_invariant (fun s => ∃ l, Balanced s l) ?_ h ⟨∅, balanced_start disk dir db⟩
  intro u req u' hbal hs
  obtain ⟨l, hb⟩ := hbal
  exact ⟨_, hb.step (after_step hb hs)⟩

/-- In every state of every run the keys of the tables are the open handles, and the next
request sends what is due: a hit or a miss for an open that is announced, and at its release
a close with the bytes that the reads returned. -/
theorem handles_balanced (cfg : FsConfig) (disk : Disk) (dir : CacheDir) (db : CacheDb)
    (rs : List (FsKernel × FsRequest)) (s : Fs) (l : Ledger)
    (h : run (ledgerStep cfg) (start disk dir db, ∅) rs = some (s, l)) :
    Balanced s l ∧ (cfg.accessTx = true → ∀ k r s', step cfg s (k, r) = some s' →
      ∃ es, s'.events = s.events ++ es ∧
        es.map AccessEvent.notice = l.owed cfg k s.inodes (handleEvent r (s.handle cfg k r).2)) := by
  have hb : Balanced s l := by
    refine run_invariant (fun x : Fs × Ledger => Balanced x.1 x.2) ?_ h (balanced_start disk dir db)
    rintro ⟨u, l⟩ ⟨k, r⟩ x hb hs
    obtain ⟨u', hu, rfl⟩ := Option.map_eq_some_iff.mp hs
    exact hb.step (after_step hb hu)
  exact ⟨hb, fun htx k r s' hs => hb.sent htx (after_step hb hs)⟩

section Playing

def sleeveName : Name := ⟨[115, 108, 101, 101, 118, 101], Eq.refl true⟩

def playingConfig : FsConfig := ⟨[109], false, true, true, false⟩

/-- A cached file is opened and read twice. -/
theorem playing_balanced : ∃ s l,
    run (ledgerStep playingConfig)
      (start Mounted.sleeveStart.disk Mounted.sleeveStart.dir Mounted.sleeveStart.db, ∅)
      [(.readOnly 3, .lookup rootIno sleeveName), (.readOnly 3, .openFile 2 0),
        (.readOnly 3, .read 3 0 2), (.readOnly 3, .read 3 1 9)] = some (s, l) ∧
    Balanced s l ∧
    ∀ s', step playingConfig s (.readOnly 3, .release 3) = some s' →
      ∃ es, s'.events = s.events ++ es ∧ es.map AccessEvent.notice = [.closed [sleeveName] 3] := by
  obtain ⟨hb, hsent⟩ := handles_balanced playingConfig Mounted.sleeveStart.disk Mounted.sleeveStart.dir
    Mounted.sleeveStart.db
    [(.readOnly 3, .lookup rootIno sleeveName), (.readOnly 3, .openFile 2 0),
      (.readOnly 3, .read 3 0 2), (.readOnly 3, .read 3 1 9)] _ _ rfl
  exact ⟨_, _, rfl, hb, fun s' hs => hsent rfl _ _ _ hs⟩

end Playing

end Fs

end FsCache
