import FsCache.Handles

/- Requests that fail.

   A request that makes, renames, removes or changes something has several steps: the system
   call, the new owner, the attributes for the reply, the tables. `failed_leaves_tables`: when
   the reply is an error, whichever step failed, the inode table and the handle tables are as
   they were, and a create has left no descriptor open and no file.

   What is needed of the system is a parameter: an exclusive create that fails has created
   nothing, and what was unlinked is not there. -/

namespace FsCache
open Lib

/-- The requests that are to change the backing. -/
def FsRequest.Mutates : FsRequest → Prop
  | .mknod .. | .mkdir .. | .symlink .. | .mutate _ => True
  | _ => False

namespace Fs

variable {cfg : FsConfig} {s s' : Fs} {k : FsKernel} {r : FsRequest} {e : Errno}

/-- The flags a create opens the file with. -/
def createFlags (flags : Nat) : Nat := flags ||| O_CREAT ||| O_EXCL

/-- What `open(2)` and `unlink(2)` document of the path of a create. -/
structure Exclusive (k : Kernel) (path : RelPath) : Prop where
  refused : ∀ flags mode e d d',
    (k.openFileWithFlags path (createFlags flags) mode).run.run d = (.error e, d') → d' = d
  unlinked : ∀ d d', (k.unlinkFile path).run.run d = (.ok (), d') → d'.backing.node path = none

/-- If the file was opened, the unlink that is to clean up succeeds. -/
def CleansUp (s : Mounted) (k : Kernel) (path : RelPath) (mode flags uid gid : Nat) : Prop :=
  ∀ fd d, (k.openFileWithFlags path (createFlags flags) mode).run.run s.disk = (.ok fd, d) →
    ((k.unlinkFile path).run.run (s.handedOver k path fd uid gid d)).1 = .ok ()

/-- An answer that is an error is no event. -/
theorem handleEvent_error : handleEvent r (.error e) = none := by
  cases r with
  | mutate r => cases r <;> rfl
  | _ => rfl

theorem map_eq_error {α β : Type} {f : α → β} {x : Reply α} (h : x.map f = .error e) : x = .error e := by
  cases x with
  | error e' => exact congrArg _ (Reply.error.inj h)
  | ok a => exact absurd h (by simp [Reply.map])
  | panic => exact absurd h (by simp [Reply.map])

theorem inodes_of_lift {x : Mounted × Reply Sent} (h : Mounted.Orderly s.toMounted x)
    (he : (s.lift x).2 = .error e) : (s.lift x).1.inodes = s.inodes :=
  h.inodes e (map_eq_error he)

theorem inodes_of_create {parent : Nat} {name : Name} {mode umask flags uid gid : Nat}
    {x : Mounted × Reply Sent} {s : Mounted} {k : Kernel}
    (h : Mounted.Creates s k parent name mode umask flags uid gid x) (he : x.2 = .error e) :
    x.1.inodes = s.inodes := by
  cases h with
  | unknown hp => rfl
  | refused hp hopen e' => rfl
  | made hp hopen d' st => exact absurd he sent_ne_error
  | undone hp hopen => rfl

/-- Whichever step fails, the inode table is as it was. -/
theorem inodes_of_failed (hr : r.Mutates) (he : (s.handle cfg k r).2 = .error e) :
    (s.handle cfg k r).1.inodes = s.inodes := by
  cases r with
  | mknod parent name mode umask rdev uid gid => exact inodes_of_lift Mounted.orderly_makeNode he
  | mkdir parent name mode umask uid gid => exact inodes_of_lift Mounted.orderly_makeNode he
  | symlink parent linkName target uid gid => exact inodes_of_lift Mounted.orderly_makeNode he
  | mutate r =>
    have hinodes : (s.mutate cfg k r).1.inodes = (s.toMounted.handle cfg.mount k.toKernel r).1.inodes := by
      unfold mutate
      cases cfg.caching <;> rfl
    have he : (s.toMounted.handle cfg.mount k.toKernel r).2 = .error e := map_eq_error he
    refine hinodes.trans ?_
    by_cases hr : ∃ parent name mode umask flags uid gid, r = .create parent name mode umask flags uid gid
    · obtain ⟨parent, name, mode, umask, flags, uid, gid, rfl⟩ := hr
      exact inodes_of_create (Mounted.creates_doCreate _ _ parent name mode umask flags uid gid) he
    · refine (Mounted.orderly_handle cfg.mount r ?_).inodes e he
      exact fun parent name mode umask flags uid gid h => hr ⟨parent, name, mode, umask, flags, uid, gid, h⟩
  | _ => exact hr.elim

/-- The file of a create that failed: it was never there, or it is gone. -/
theorem disk_of_create {parent : Nat} {name : Name} {mode umask flags uid gid : Nat} {path : RelPath}
    {x : Mounted × Reply Sent} {s : Mounted} {k : Kernel}
    (h : Mounted.Creates s k parent name mode umask flags uid gid x) (he : x.2 = .error e)
    (hp : s.inodes.childPath parent name = some path) (hk : Exclusive k path)
    (hclean : CleansUp s k path (applyUmask mode umask) flags uid gid) :
    x.1.disk = s.disk ∨ x.1.disk.backing.node path = none := by
  cases h with
  | unknown hnone => exact .inl rfl
  | @refused path' e d hp' hopen e' =>
    obtain rfl := Option.some.inj (hp.symm.trans hp')
    exact .inl (hk.refused _ _ _ _ _ hopen)
  | made hp' hopen d' st => exact absurd he sent_ne_error
  | @undone path' fd d hp' hopen =>
    obtain rfl := Option.some.inj (hp.symm.trans hp')
    exact .inr (hk.unlinked _ _ (Prod.ext (hclean fd d hopen) rfl))

/-- A request that fails leaves the inode table and the handle tables as they were, and a
create that fails leaves neither a descriptor nor a file. -/
theorem failed_leaves_tables (cfg : FsConfig) (disk : Disk) (dir : CacheDir) (db : CacheDb)
    (rs : List (FsKernel × FsRequest)) (s : Fs) (hrun : run (step cfg) (start disk dir db) rs = some s)
    (k : FsKernel) (r : FsRequest) (hr : r.Mutates) (hadm : s.Admitted k r) (e : Errno)
    (he : (s.handle cfg k r).2 = .error e) :
    (s.handle cfg k r).1.inodes = s.inodes ∧ (s.handle cfg k r).1.tables = s.tables ∧
      ∀ parent name mode umask flags uid gid path,
        r = .mutate (.create parent name mode umask flags uid gid) →
        s.inodes.childPath parent name = some path → Exclusive k.toKernel path →
        CleansUp s.toMounted k.toKernel path (applyUmask mode umask) flags uid gid →
        (∀ fd ∈ s.newFd k path (createFlags flags) (applyUmask mode umask),
          (s.handle cfg k r).1.Free fd) ∧
        ((s.handle cfg k r).1.disk = s.disk ∨ (s.handle cfg k r).1.disk.backing.node path = none) := by
  obtain ⟨l, hb⟩ := balanced_of_run hrun
  have htables : (s.handle cfg k r).1.tables = s.tables := by
    have hafter : After cfg k s (s.handle cfg k r).1 (handleEvent r (s.handle cfg k r).2) :=
      after_handle hadm hb.open (by rw [he]; simp)
    rwa [he, handleEvent_error] at hafter
  refine ⟨inodes_of_failed hr he, htables, ?_⟩
  rintro parent name mode umask flags uid gid path rfl hp hk hclean
  constructor
  · intro fd hfd
    have hfds : (s.handle cfg k (.mutate (.create parent name mode umask flags uid gid))).1.fds = s.fds :=
      congrArg Tables.fds htables
    rw [Free, hfds]
    exact hadm path hp fd hfd
  · have hdisk : (s.handle cfg k (.mutate (.create parent name mode umask flags uid gid))).1.disk =
        (s.toMounted.doCreate k.toKernel parent name mode umask flags uid gid).1.disk := by
      simp only [handle, mutate, Mounted.handle]
      cases cfg.caching <;> rfl
    rw [hdisk]
    exact disk_of_create (Mounted.creates_doCreate _ _ parent name mode umask flags uid gid)
      (map_eq_error he) hp hk hclean

section Cover

private def cover : Name := ⟨[99, 111], Eq.refl true⟩

/-- An empty file at a new path. -/
def madeFile (d : Disk) (p : RelPath) : Disk where
  backing := d.backing.replaceFile p (.of [] 2 short_nil)
  sizes := by
    intro q st hst
    by_cases hq : q = p
    · simp only [Backing.stat, Backing.replaceFile, hq, Function.update_self, Option.some.injEq] at hst
      subst hst
      decide
    · refine d.sizes q st ?_
      simp only [Backing.stat, Backing.replaceFile, Function.update_of_ne hq] at hst ⊢
      cases hn : d.backing.node q with
      | none => simp [hn] at hst
      | some n =>
        cases n with
        | file i =>
          have hi : i ≠ d.backing.next := (d.backing.issued q i hn).ne
          simpa only [hn, Function.update_of_ne hi] using hst
        | dir st' => simpa only [hn] using hst
        | symlink st' target => simpa only [hn] using hst

/-- Files are made and unlinked, and the second stat of a request fails. -/
def blindKernel : FsKernel := { FsKernel.readOnly 7 with
  openFileWithFlags := fun p _ _ => ExceptT.mk fun d =>
    match d.backing.node p with
    | some _ => (.error EEXIST, d)
    | none => (.ok 7, madeFile d p)
  unlinkFile := fun p => ExceptT.mk fun d =>
    match d.backing.node p with
    | none => (.error ENOENT, d)
    | some (.dir _) => (.error EISDIR, d)
    | some _ => (.ok (), Mounted.Disk.unlink d p)
  fchown := fun _ _ _ => pure ()
  statFails := (· == 1) }

theorem exclusive_blindKernel (path : RelPath) : Exclusive blindKernel.toKernel path := by
  constructor
  · intro flags mode e d d' h
    change (match d.backing.node path with
      | some _ => (Except.error EEXIST, d)
      | none => (Except.ok 7, madeFile d path)) = (Except.error e, d') at h
    split at h
    · exact (Prod.mk.inj h).2.symm
    · exact absurd (Prod.mk.inj h).1 (by simp)
  · intro d d' h
    change (match d.backing.node path with
      | none => (Except.error ENOENT, d)
      | some (.dir _) => (Except.error EISDIR, d)
      | some _ => (Except.ok (), Mounted.Disk.unlink d path)) = (Except.ok (), d') at h
    split at h
    · exact absurd (Prod.mk.inj h).1 (by simp)
    · exact absurd (Prod.mk.inj h).1 (by simp)
    · obtain rfl := (Prod.mk.inj h).2
      exact Function.update_self ..

def coverStart : Fs := start Mounted.sleeveStart.disk Mounted.sleeveStart.dir Mounted.sleeveStart.db

def coverCreate : FsRequest := .mutate (.create rootIno cover 0o644 0 1 0 0)

def coverFailed : Fs := (coverStart.handle playingConfig blindKernel coverCreate).1

/-- The file is made, cannot be looked at, and is closed and unlinked. -/
theorem cover_undone : coverFailed.inodes = coverStart.inodes ∧ coverFailed.tables = coverStart.tables ∧
    coverFailed.Free 7 ∧
    (coverFailed.disk = coverStart.disk ∨ coverFailed.disk.backing.node [cover] = none) := by
  have hclean : CleansUp coverStart.toMounted blindKernel.toKernel [cover] (applyUmask 0o644 0) 1 0 0 := by
    intro fd d h
    obtain ⟨hfd, rfl⟩ := Prod.mk.inj h
    obtain rfl := Except.ok.inj hfd
    rfl
  obtain ⟨hinodes, htables, hcreate⟩ := failed_leaves_tables playingConfig Mounted.sleeveStart.disk
    Mounted.sleeveStart.dir Mounted.sleeveStart.db [] coverStart rfl blindKernel coverCreate trivial (by decide)
    ENOENT (by decide)
  obtain ⟨hfree, hdisk⟩ := hcreate _ _ _ _ _ _ _ [cover] rfl rfl (exclusive_blindKernel _) hclean
  exact ⟨hinodes, htables, hfree 7 (by decide), hdisk⟩

end Cover

end Fs

end FsCache
