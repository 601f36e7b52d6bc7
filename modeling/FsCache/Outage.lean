import FsCache.Agreement
import FsCache.Serve

/- A backing that fails to answer.

   `fstatat` fails with an errno. `BackingStore::stat` makes `None` of every one of them,
   and the staleness test makes `BackingGone` of `None`, so a validation drops the entry
   of a file that it could not reach; a lookup answers ENOENT. `rawStat` is the call
   before its error is lost.

   An `Outage` is a daemon with the mount's inodes, a `sweep_stale` that may be under way,
   and, for each validation, what its stat was answered. The errno of a call that fails is
   in the action, so an outage may begin and end at any step.

   `outage_is_no_deletion`: in every run where a stat that decides fails with ENOENT or
   ENOTDIR only, nothing is deleted and no ENOENT answered for a path that was there.
   `eio_deletes` is a validation in an outage.

   Correspondence (Rust ↔ Lean):
     `libc::fstatat`, `BackingStore::stat`     ↔ `rawStat`, `Except.toOption`
     `sweep_stale`                             ↔ `OutageAction.sweepStart`, `sweepStep`
     `do_lookup`, `do_getattr`                 ↔ `OutageAction.lookup`, `getattr` -/

namespace FsCache
open Lib

/-- The call succeeds, or fails with this errno. -/
abbrev Failing := Option Errno

/-- `fstatat` on the backing; a path that is not there is answered ENOENT. -/
def rawStat (b : Backing) (p : RelPath) : Failing → Except Errno Stat
  | some e => .error e
  | none =>
    match b.stat p with
    | some st => .ok st
    | none => .error ENOENT

/-- The answer is that there is no such path. -/
def Missing : Except Errno Stat → Bool
  | .error e => e == ENOENT || e == ENOTDIR
  | .ok _ => false

/-- The call has failed, and not to say that there is no such path. -/
def Unreached : Except Errno Stat → Bool
  | .error e => !(e == ENOENT || e == ENOTDIR)
  | .ok _ => false

/-- The call fails only to say so. -/
def Failing.Truthful (f : Failing) : Prop := ∀ e ∈ f, e = ENOENT ∨ e = ENOTDIR

instance (f : Failing) : Decidable f.Truthful := inferInstanceAs (Decidable (∀ e ∈ f, _))

theorem Failing.Truthful.reached {f : Failing} (hf : f.Truthful) (b : Backing) (p : RelPath) :
    Unreached (rawStat b p f) = false := by
  cases f with
  | some e => rcases hf e rfl with rfl | rfl <;> rfl
  | none =>
    simp only [rawStat]
    cases b.stat p <;> rfl

/-- An answer that is not a stat says that there is no such path, or nothing. -/
theorem missing_of_none {r : Except Errno Stat} (hr : Unreached r = false)
    (h : r.toOption = none) : Missing r = true := by
  cases r with
  | ok st => exact absurd h (by simp [Except.toOption])
  | error e =>
    simp only [Unreached, Bool.not_eq_false'] at hr
    exact hr

/-- The stat of a validation, with the errno it fails with. -/
theorem stat_eq_rawStat (c : WorkChoice) (b : Backing) (p : RelPath) (e : Errno) :
    c.stat b p = (rawStat b p (if c.fail then some e else none)).toOption := by
  unfold WorkChoice.stat
  cases c.fail with
  | true => rfl
  | false =>
    simp only [Bool.false_eq_true, if_false, rawStat]
    cases b.stat p <;> rfl

/-! ## The daemon in an outage -/

/-- Where a sweep is with its first row; `answer` is what the stat of its path was. -/
inductive SweepPc where
  | stat
  | drop (answer : Except Errno Stat)
  | dropRow (answer : Except Errno Stat)
  | backfill (st : Stat)
  | refresh (pc : RefreshPc)

/-- What the stat of the row's path was answered, here if this is its step. -/
def SweepPc.answer (b : Backing) (p : RelPath) (failing : Failing) :
    SweepPc → Option (Except Errno Stat)
  | .stat => some (rawStat b p failing)
  | .drop answer | .dropRow answer => some answer
  | .backfill _ | .refresh _ => none

structure Outage where
  daemon : Daemon
  inodes : InodeTable
  /-- what the stat of a task was answered -/
  answer : Nat → Option (Except Errno Stat)
  sweep : List (RelPath × Fingerprint) × SweepPc

inductive OutageAction where
  /-- `errno`: what a backing call of the step fails with, if it fails -/
  | daemon (a : Action) (errno : Errno)
  | sweepStart
  | sweep (failing : Failing) (fail : Bool) (now : Nat)
  | lookup (parent : Nat) (name : Name) (failing failing' : Failing)
  | getattr (ino : Nat) (failing failing' : Failing)

namespace Outage

def start (s : Daemon) (t : InodeTable) : Outage := ⟨s, t, fun _ => none, [], .stat⟩

/-- What the stat of the worker's task was answered, here if this is its step. -/
def answerAt (s : Outage) (t : Nat) (c : WorkChoice) (errno : Errno) : Option (Except Errno Stat) :=
  match s.daemon.jobs.jobOf t, s.daemon.pc t with
  | some job, .statLive _ =>
    some (rawStat s.daemon.backing job.relPath (if c.fail then some errno else none))
  | _, _ => s.answer t

def answered (s : Outage) (a : Action) (errno : Errno) : Nat → Option (Except Errno Stat) :=
  match a with
  | .work t c => Function.update s.answer t (s.answerAt t c errno)
  | _ => s.answer

/-- One step of `sweep_stale` on its first row. -/
def sweepStep (s : Outage) (mount : MountId) (failing : Failing) (fail : Bool) (now : Nat)
    (p : RelPath) (fp : Fingerprint) (rest : List (RelPath × Fingerprint)) : SweepPc → Outage
  | .stat =>
    match isStaleWithFingerprint (rawStat s.daemon.backing p failing).toOption fp with
    | .stale | .backingGone =>
      { s with sweep := ((p, fp) :: rest, .drop (rawStat s.daemon.backing p failing)) }
    | .needsBackfill st => { s with sweep := ((p, fp) :: rest, .backfill st) }
    | .fresh live => { s with sweep := ((p, fp) :: rest, .refresh (.readFingerprint live)) }
    | .notTracked => { s with sweep := (rest, .stat) }
  | .drop answer =>
    { s with
      daemon := { s.daemon with dir := if fail then s.daemon.dir else removeFile s.daemon.dir p }
      sweep := ((p, fp) :: rest, .dropRow answer) }
  | .dropRow _ =>
    { s with
      daemon := { s.daemon with db := s.daemon.db.remove p mount }
      sweep := (rest, .stat) }
  | .backfill st =>
    { s with
      daemon := { s.daemon with db := backfillFingerprint s.daemon.db mount p st now }
      sweep := (rest, .stat) }
  | .refresh pc =>
    match refreshStep s.daemon.db mount p pc with
    | (db, none) => { s with daemon := { s.daemon with db := db }, sweep := (rest, .stat) }
    | (db, some pc') =>
      { s with daemon := { s.daemon with db := db }, sweep := ((p, fp) :: rest, .refresh pc') }

/-- The table, the rows and the reply of a lookup. -/
def lookupReply (s : Outage) (mount : MountId) (parent : Nat) (name : Name)
    (failing failing' : Failing) : InodeTable × CacheDb × Reply FileAttr :=
  let child := (s.inodes.childPath parent name).getD []
  doLookup s.inodes s.daemon.dir s.daemon.db mount parent name
    (rawStat s.daemon.backing child failing).toOption
    (rawStat s.daemon.backing child failing').toOption

def getattrReply (s : Outage) (mount : MountId) (ino : Nat) (failing failing' : Failing) :
    CacheDb × Reply FileAttr :=
  let path := (s.inodes.getPath ino).getD []
  doGetattr s.inodes s.daemon.dir s.daemon.db mount ino
    (rawStat s.daemon.backing path failing).toOption
    (rawStat s.daemon.backing path failing').toOption

def step (cfg : Config) (s : Outage) : OutageAction → Option Outage
  | .daemon a errno =>
    (Daemon.step cfg s.daemon a).map fun d =>
      match a with
      | .crash _ _ => { s with daemon := d, inodes := .new, sweep := ([], .stat) }
      | _ => { s with daemon := d, answer := s.answered a errno }
  | .sweepStart =>
    match s.sweep with
    | ([], _) => some { s with sweep := (s.daemon.db.allFingerprints cfg.mount, .stat) }
    | _ => none
  | .sweep failing fail now =>
    match s.sweep with
    | ((p, fp) :: rest, pc) => some (s.sweepStep cfg.mount failing fail now p fp rest pc)
    | _ => none
  | .lookup parent name failing failing' =>
    match s.lookupReply cfg.mount parent name failing failing' with
    | (t, db, _) => some { s with inodes := t, daemon := { s.daemon with db := db } }
  | .getattr ino failing failing' =>
    match s.getattrReply cfg.mount ino failing failing' with
    | (db, _) => some { s with daemon := { s.daemon with db := db } }

/-! ## What is promised, and the condition -/

/-- Some cache file or some row is gone. -/
def Lost (mount : MountId) (s s' : Daemon) : Prop :=
  ∃ q, (s.dir.fileAt q).isSome = true ∧ s'.dir.fileAt q = none ∨
    (s.db.row q mount).isSome = true ∧ s'.db.row q mount = none

/-- The cache files and the rows are as they were. -/
def SameCache (s s' : Daemon) : Prop := s'.dir = s.dir ∧ s'.db = s.db

/-- A validation deletes only what the backing has said is not there, and a sweep only that
and what it has found changed. A lookup or getattr of a known inode answers ENOENT only for
a path that is not there. A call that fails for another reason leaves the cache as it was. -/
def Honest (mount : MountId) (s : Outage) (a : OutageAction) (s' : Outage) : Prop :=
  match a with
  | .daemon (.work t c) errno => ∀ job ∈ s.daemon.jobs.jobOf t, job.kind = .validate →
    (Lost mount s.daemon s'.daemon → ∃ r ∈ s.answerAt t c errno, Missing r = true) ∧
      ∀ r ∈ s.answerAt t c errno, Unreached r = true → SameCache s.daemon s'.daemon
  | .daemon _ _ => True
  | .sweepStart => SameCache s.daemon s'.daemon
  | .sweep failing _ _ =>
    match s.sweep with
    | ([], _) => True
    | ((p, fp) :: _, pc) =>
      (Lost mount s.daemon s'.daemon → ∃ r ∈ pc.answer s.daemon.backing p failing,
        Missing r = true ∨ isStaleWithFingerprint r.toOption fp = .stale) ∧
      ∀ r ∈ pc.answer s.daemon.backing p failing, Unreached r = true →
        SameCache s.daemon s'.daemon
  | .lookup parent name failing failing' => ∀ child ∈ s.inodes.childPath parent name,
    ((s.lookupReply mount parent name failing failing').2.2 = .error ENOENT →
      Missing (rawStat s.daemon.backing child failing') = true) ∧
    (Unreached (rawStat s.daemon.backing child failing) = true →
      SameCache s.daemon s'.daemon)
  | .getattr ino failing failing' => ∀ path ∈ s.inodes.getPath ino,
    ((s.getattrReply mount ino failing failing').2 = .error ENOENT →
      Missing (rawStat s.daemon.backing path failing') = true) ∧
    (Unreached (rawStat s.daemon.backing path failing) = true →
      SameCache s.daemon s'.daemon)

/-- A stat that decides fails with ENOENT or ENOTDIR only: that of a validation, of a sweep,
and the last one of a lookup or getattr. -/
def Answered (s : Outage) : OutageAction → Prop
  | .daemon (.work t c) errno =>
    match s.daemon.pc t with
    | .statLive _ => Failing.Truthful (if c.fail then some errno else none)
    | _ => True
  | .sweep failing _ _ =>
    match s.sweep.2 with
    | .stat => failing.Truthful
    | _ => True
  | .lookup _ _ _ failing' | .getattr _ _ failing' => failing'.Truthful
  | _ => True

instance (s : Outage) : (a : OutageAction) → Decidable (s.Answered a)
  | .daemon (.work t c) errno =>
    have : ∀ pc : WorkerPc, Decidable (match pc with
        | .statLive _ => Failing.Truthful (if c.fail then some errno else none)
        | _ => True) := fun pc => by split <;> infer_instance
    this (s.daemon.pc t)
  | .sweep failing _ _ =>
    have : ∀ pc : SweepPc, Decidable (match pc with
        | .stat => failing.Truthful
        | _ => True) := fun pc => by split <;> infer_instance
    this s.sweep.2
  | .lookup _ _ _ failing' | .getattr _ _ failing' => inferInstanceAs (Decidable failing'.Truthful)
  | .daemon (.change _) _ | .daemon (.offer _) _ | .daemon (.submit _ _ _) _ | .daemon (.expire _) _
  | .daemon (.pop _) _ | .daemon .acquire _ | .daemon .release _ | .daemon (.forget _) _
  | .daemon (.event _) _ | .daemon (.dispatch _) _ | .daemon (.evictFile _) _
  | .daemon (.evictRow _) _ | .daemon (.hit _ _) _ | .daemon (.touch _ _) _ | .daemon (.refresh _) _
  | .daemon (.crash _ _) _ | .sweepStart => isTrue trivial

end Outage

/-! ## Replies -/

section Replies

variable {dir : CacheDir} {db : CacheDb} {mount : MountId} {p : RelPath} {ino : Nat}
  {live live' : Option Stat}

/-- An error says that the second stat had no answer, and nothing was refreshed. -/
theorem of_attrReply_error {e : Errno} (h : (attrReply dir db mount p ino live live').2 = .error e) :
    live' = none ∧ (attrReply dir db mount p ino live live').1 = db := by
  cases hc : isCached dir p with
  | false =>
    rw [attrReply_of_not_cached hc] at h ⊢
    cases live' with
    | none => exact ⟨rfl, rfl⟩
    | some st => exact absurd h ofAttr_ne_error
  | true =>
    cases hm : db.sourceMetadataRow p mount with
    | some m =>
      rw [attrReply_of_snapshot hc hm] at h
      exact absurd h ofAttr_ne_error
    | none =>
      rw [attrReply_of_no_snapshot hc hm] at h
      cases live with
      | some st => exact absurd h ofAttr_ne_error
      | none =>
        cases live' with
        | some st => exact absurd h ofAttr_ne_error
        | none =>
          refine ⟨rfl, ?_⟩
          simp only [attrReply, cachedRegularAttr, hc, hm, if_true]

/-- Without an answer to the first stat nothing is refreshed. -/
theorem db_of_attrReply (h : live = none) : (attrReply dir db mount p ino live live').1 = db := by
  subst h
  unfold attrReply cachedRegularAttr
  cases isCached dir p with
  | false => cases live' <;> rfl
  | true =>
    cases hm : db.sourceMetadataRow p mount with
    | some m => simp only [if_true]
    | none => cases live' <;> simp only [if_true]

theorem eq_backingGone_iff {fp : Fingerprint} :
    isStaleWithFingerprint live fp = .backingGone ↔ live = none := by
  cases live with
  | none => simp [isStaleWithFingerprint]
  | some st =>
    simp only [isStaleWithFingerprint, reduceCtorEq, iff_false]
    split
    · simp
    · split <;> simp

end Replies

/-! ## What a step may lose -/

section Lost

variable {mount : MountId} {p : RelPath}

theorem row_congr {db : CacheDb} {q : RelPath} (h : rowKey q = rowKey p) :
    db.row q mount = db.row p mount := by
  rw [CacheDb.row, CacheDb.row, h]

/-- A validation deletes something only in `drop_stale`. -/
theorem kept_of_validation {b : Backing} {dir dir' : CacheDir} {db db' : CacheDb} {abort : Bool}
    {t : Nat} {c : WorkChoice} {pc pc' : WorkerPc} {e : JobEffect}
    (hm : WorkMove b dir db mount abort p .validate t c pc dir' db' e pc')
    (hfits : pc.fits .validate = true) (hpc : pc ≠ .verdict .backingGone ∧ pc ≠ .dropRow) :
    dir' = dir ∧ ∀ q, (db.row q mount).isSome = true → (db'.row q mount).isSome = true := by
  constructor
  · cases hm with
    | copy => exact absurd hfits (by simp [WorkerPc.fits])
    | dropFile => exact absurd rfl hpc.1
    | skip | begin | readRow | noRow | promote | noRoom | room | mark | copyFailed | statLive | fresh
    | notTracked | backfill | stale | refresh | refreshed | dropRow | finish => rfl
  · intro q hq
    by_cases hk : rowKey q = rowKey p
    · rw [row_congr hk] at hq ⊢
      exact row_isSome_workMove hm hpc.2 hq
    · rwa [Daemon.row_other hk hm]

theorem not_lost {s s' : Daemon} (hdir : s'.dir = s.dir)
    (hrow : ∀ q, (s.db.row q mount).isSome = true → (s'.db.row q mount).isSome = true) :
    ¬Outage.Lost mount s s' := by
  rintro ⟨q, ⟨hf, hn⟩ | ⟨hr, hn⟩⟩
  · rw [hdir] at hn
    rw [hn] at hf
    exact absurd hf (by simp)
  · have := hrow q hr
    rw [hn] at this
    exact absurd this (by simp)

theorem row_isSome_markCached {db : CacheDb} {source : SourceMetadata} {now : Nat} {q : RelPath}
    (hq : (db.row q mount).isSome = true) :
    ((db.markCached p mount source now).row q mount).isSome = true := by
  rw [CacheDb.row_markCached]
  split
  · rfl
  · exact hq

theorem row_isSome_of_refreshMove {db db' : CacheDb} {pc : RefreshPc} {next : Option RefreshPc}
    (h : RefreshMove db mount p pc db' next) {q : RelPath} (hq : (db.row q mount).isSome = true) :
    (db'.row q mount).isSome = true := by
  by_cases hk : rowKey q = rowKey p
  · rw [row_congr hk] at hq ⊢
    rwa [row_isSome_refreshMove h]
  · rwa [Daemon.row_refreshMove hk h]

end Lost

/-! ## The invariant -/

/-- A sweep drops its first row for an answer that says so. -/
def SweepPc.Grounded (fp : Fingerprint) : SweepPc → Prop
  | .drop r | .dropRow r => Unreached r = false ∧
      (Missing r = true ∨ isStaleWithFingerprint r.toOption fp = .stale)
  | _ => True

namespace Outage

/-- Nothing is being dropped that the backing has not said to be gone, and no stat that
decides has failed otherwise. -/
structure Inv (s : Outage) : Prop where
  wf : s.daemon.Wf
  fits : ∀ p, Fits (s.daemon.phase p)
  told : ∀ t, ∀ r ∈ s.answer t, Unreached r = false
  asked : ∀ t, s.daemon.pc t = .verdict .backingGone ∨ s.daemon.pc t = .dropRow →
    ∃ r ∈ s.answer t, Missing r = true
  swept : ∀ p fp rest pc, s.sweep = ((p, fp) :: rest, pc) → pc.Grounded fp

variable {cfg : Config} {s s' : Outage}

theorem inv_start {d : Daemon} (hw : d.Wf) (hf : ∀ p, Fits (d.phase p)) (hpc : ∀ t, d.pc t = .start)
    (t : InodeTable) : (start d t).Inv where
  wf := hw
  fits := hf
  told u r hr := absurd hr (by simp [start])
  asked u h := by
    have := hpc u
    rcases h with h | h <;> exact absurd (this.symm.trans h) (by simp)
  swept p fp rest pc h := by
    obtain ⟨h, -⟩ := Prod.mk.inj h
    exact absurd h (by simp)

/-- The stat of a validation that may not fail otherwise has been answered. -/
theorem answerAt_reached {t : Nat} {c : WorkChoice} {errno : Errno} (hi : s.Inv)
    (hok : s.Answered (.daemon (.work t c) errno)) :
    ∀ r ∈ s.answerAt t c errno, Unreached r = false := by
  intro r hr
  unfold answerAt at hr
  split at hr
  · next job fp hjob hpc =>
    simp only [Answered, hpc] at hok
    obtain rfl := Option.some.inj hr
    exact hok.reached _ _
  · exact hi.told t r hr

/-- Where a worker is about to drop its entry, the stat of this step or of an earlier one
has said that the path is gone. -/
theorem asked_work {t : Nat} {c : WorkChoice} {errno : Errno} {d : Daemon} (hi : s.Inv)
    (hok : s.Answered (.daemon (.work t c) errno)) (h : Daemon.step cfg s.daemon (.work t c) = some d)
    (u : Nat) (hpc : d.pc u = .verdict .backingGone ∨ d.pc u = .dropRow) :
    ∃ r ∈ s.answered (.work t c) errno u, Missing r = true := by
  cases Daemon.move_of_step h with
  | @work _ _ job dir db e pc hjob hstep =>
    rw [Daemon.pc_worked] at hpc
    by_cases hu : u = t
    · subst hu
      simp only [Function.update_self] at hpc
      simp only [answered, Function.update_self]
      have hm := workMove_of_step hstep
      generalize hold : s.daemon.pc u = old at hm
      cases hm with
      | statLive fp =>
        -- the verdict of this stat: only a stat without an answer is `BackingGone`
        have hr : s.answerAt u c errno =
            some (rawStat s.daemon.backing job.relPath (if c.fail then some errno else none)) := by
          simp only [answerAt, hjob, hold]
        refine ⟨_, hr, missing_of_none (answerAt_reached hi hok _ hr) ?_⟩
        rw [← stat_eq_rawStat]
        rcases hpc with hpc | hpc
        · exact eq_backingGone_iff.mp (WorkerPc.verdict.inj hpc)
        · exact absurd hpc (by simp)
      | dropFile =>
        have hr : s.answerAt u c errno = s.answer u := by
          simp only [answerAt, hjob, hold]
        rw [hr]
        exact hi.asked u (.inl hold)
      | skip | begin | readRow | noRow | promote | noRoom | room | copy | mark | copyFailed | fresh
      | notTracked | backfill | stale | refresh | refreshed | dropRow | finish =>
        exact absurd hpc (by simp)
    · simp only [Function.update_of_ne hu] at hpc
      simp only [answered, Function.update_of_ne hu]
      exact hi.asked u hpc

theorem answered_of_idle {a : Action} {errno : Errno} (h : ¬∃ t c, a = .work t c) :
    s.answered a errno = s.answer := by
  cases a with
  | work t c => exact absurd ⟨t, c, rfl⟩ h
  | _ => rfl

theorem Inv.daemon {a : Action} {errno : Errno} {d : Daemon} (hi : s.Inv)
    (hok : s.Answered (.daemon a errno)) (h : Daemon.step cfg s.daemon a = some d) :
    Inv { s with daemon := d, answer := s.answered a errno } := by
  refine ⟨hi.wf.step h, fun p => ?_, fun t r hr => ?_, fun t hpc => ?_, hi.swept⟩
  · have hm : PathMove cfg p False False (s.daemon.view p) a (d.view p) :=
      Daemon.pathMove_of_step hi.wf False.elim False.elim h
    exact (hi.fits p).move hm
  · by_cases hwork : ∃ u c, a = .work u c
    · obtain ⟨u, c, rfl⟩ := hwork
      by_cases ht : t = u
      · subst ht
        simp only [answered, Function.update_self] at hr
        exact answerAt_reached hi hok r hr
      · simp only [answered, Function.update_of_ne ht] at hr
        exact hi.told t r hr
    · rw [answered_of_idle hwork] at hr
      exact hi.told t r hr
  · by_cases hwork : ∃ u c, a = .work u c
    · obtain ⟨u, c, rfl⟩ := hwork
      exact asked_work hi hok h t hpc
    · have hne : ∀ u c, a ≠ .work u c := fun u c ha => hwork ⟨u, c, ha⟩
      rw [answered_of_idle hwork]
      rcases Daemon.pc_of_step h hne t with e | e
      · exact hi.asked t (by rwa [e] at hpc)
      · rw [e] at hpc
        exact absurd hpc (by simp)

/-- The invariant does not look at the cache or the inodes. -/
theorem Inv.recache (hi : s.Inv) (dir : CacheDir) (db : CacheDb) (t : InodeTable)
    {sweep : List (RelPath × Fingerprint) × SweepPc}
    (hs : ∀ p fp rest pc, sweep = ((p, fp) :: rest, pc) → pc.Grounded fp) :
    Inv { s with daemon := { s.daemon with dir := dir, db := db }, inodes := t, sweep := sweep } :=
  ⟨⟨hi.wf.partition, hi.wf.handles⟩, hi.fits, hi.told, hi.asked, hs⟩

theorem grounded_nil {sweep : List (RelPath × Fingerprint) × SweepPc} (h : sweep.2 = .stat) :
    ∀ p fp rest pc, sweep = ((p, fp) :: rest, pc) → pc.Grounded fp := by
  rintro p fp rest pc rfl
  subst h
  trivial

theorem grounded_cons {p : RelPath} {fp : Fingerprint} {rest : List (RelPath × Fingerprint)}
    {pc : SweepPc} (h : pc.Grounded fp) :
    ∀ p' fp' rest' pc', ((p, fp) :: rest, pc) = ((p', fp') :: rest', pc') → pc'.Grounded fp' := by
  rintro p' fp' rest' pc' e
  cases e
  exact h

theorem Inv.sweep {failing : Failing} {fail : Bool} {now : Nat} {p : RelPath} {fp : Fingerprint}
    {rest : List (RelPath × Fingerprint)} {pc : SweepPc} (hi : s.Inv)
    (hs : s.sweep = ((p, fp) :: rest, pc)) (hok : s.Answered (.sweep failing fail now)) :
    (s.sweepStep cfg.mount failing fail now p fp rest pc).Inv := by
  have hpc := hi.swept p fp rest pc hs
  cases pc with
  | stat =>
    have hreach : Unreached (rawStat s.daemon.backing p failing) = false := by
      simp only [Answered, hs] at hok
      exact hok.reached _ _
    simp only [sweepStep]
    split
    · next hst =>
      exact hi.recache _ _ _ (grounded_cons ⟨hreach, .inr hst⟩)
    · next hgone =>
      exact hi.recache _ _ _
        (grounded_cons ⟨hreach, .inl (missing_of_none hreach (eq_backingGone_iff.mp hgone))⟩)
    · exact hi.recache _ _ _ (grounded_cons trivial)
    · exact hi.recache _ _ _ (grounded_cons trivial)
    · exact hi.recache _ _ _ (grounded_nil rfl)
  | drop answer => exact hi.recache _ _ _ (grounded_cons hpc)
  | dropRow answer => exact hi.recache _ _ _ (grounded_nil rfl)
  | backfill st => exact hi.recache _ _ _ (grounded_nil rfl)
  | refresh pc =>
    simp only [sweepStep]
    split
    · exact hi.recache _ _ _ (grounded_nil rfl)
    · exact hi.recache _ _ _ (grounded_cons trivial)

theorem Inv.step {a : OutageAction} (hi : s.Inv) (hok : s.Answered a)
    (h : Outage.step cfg s a = some s') : s'.Inv := by
  cases a with
  | daemon a errno =>
    obtain ⟨d, hd, rfl⟩ := Option.map_eq_some_iff.mp h
    have hkeep := hi.daemon hok hd
    cases a with
    | crash now loaded =>
      exact ⟨hkeep.wf, hkeep.fits, hkeep.told, hkeep.asked, grounded_nil rfl⟩
    | _ => exact hkeep
  | sweepStart =>
    simp only [Outage.step] at h
    split at h
    · obtain rfl := Option.some.inj h
      exact hi.recache _ _ _ (grounded_nil rfl)
    · exact absurd h (by simp)
  | sweep failing fail now =>
    simp only [Outage.step] at h
    split at h
    · next p fp rest pc hs =>
      obtain rfl := Option.some.inj h
      exact hi.sweep hs hok
    · exact absurd h (by simp)
  | lookup parent name failing failing' =>
    obtain rfl := Option.some.inj h
    exact hi.recache _ _ _ hi.swept
  | getattr ino failing failing' =>
    obtain rfl := Option.some.inj h
    exact hi.recache _ _ _ hi.swept

/-! ## What the invariant says of a step -/

theorem honest_work {t : Nat} {c : WorkChoice} {errno : Errno} {d : Daemon} (hi : s.Inv)
    (h : Daemon.step cfg s.daemon (.work t c) = some d)
    (job : CacheJob) (hjob : job ∈ s.daemon.jobs.jobOf t) (hkind : job.kind = .validate)
    (hlost : Lost cfg.mount s.daemon d) : ∃ r ∈ s.answerAt t c errno, Missing r = true := by
  by_cases hpc : s.daemon.pc t = .verdict .backingGone ∨ s.daemon.pc t = .dropRow
  · have hr : s.answerAt t c errno = s.answer t := by
      unfold answerAt
      split
      · next fp _ hst => exact absurd hpc (by simp [hst])
      · rfl
    rw [hr]
    exact hi.asked t hpc
  · -- any other step of a validation keeps every file and row
    have hfits : (s.daemon.pc t).fits .validate = true := by
      have hphase := Daemon.phase_running (Jobs.phase_of_job hi.wf.partition hjob)
      exact hkind ▸ hi.fits job.relPath _ _ _ _ hphase
    simp only [Daemon.step, Option.mem_def.mp hjob, hkind] at h
    split at h
    · exact absurd h (by simp)
    · next dir db e pc hstep =>
      obtain rfl := Option.some.inj h
      obtain ⟨hdir, hrow⟩ := kept_of_validation (workMove_of_step hstep) hfits (not_or.mp hpc)
      exact absurd hlost (not_lost hdir hrow)

theorem sweep_lost {failing : Failing} {fail : Bool} {now : Nat} {p : RelPath} {fp : Fingerprint}
    {rest : List (RelPath × Fingerprint)} {pc : SweepPc} (hpc : pc.Grounded fp)
    (h : Lost cfg.mount s.daemon (s.sweepStep cfg.mount failing fail now p fp rest pc).daemon) :
    ∃ r ∈ pc.answer s.daemon.backing p failing,
      Missing r = true ∨ isStaleWithFingerprint r.toOption fp = .stale := by
  cases pc with
  | stat =>
    have hsame : (s.sweepStep cfg.mount failing fail now p fp rest .stat).daemon = s.daemon := by
      simp only [sweepStep]
      split <;> rfl
    rw [hsame] at h
    exact absurd h (not_lost rfl fun _ hq => hq)
  | drop answer => exact ⟨answer, rfl, hpc.2⟩
  | dropRow answer => exact ⟨answer, rfl, hpc.2⟩
  | backfill st => exact absurd h (not_lost rfl fun q hq => row_isSome_markCached hq)
  | refresh pc =>
    simp only [sweepStep] at h
    split at h
    · next hr =>
      have hm := refreshMove_of_step hr
      exact absurd h (not_lost rfl fun q hq => row_isSome_of_refreshMove hm hq)
    · next hr =>
      have hm := refreshMove_of_step hr
      exact absurd h (not_lost rfl fun q hq => row_isSome_of_refreshMove hm hq)

theorem reached_of_grounded {failing : Failing} {p : RelPath} {fp : Fingerprint} {pc : SweepPc}
    {b : Backing} (hpc : pc.Grounded fp) (hf : pc = .stat → failing.Truthful) :
    ∀ r ∈ pc.answer b p failing, Unreached r = false := by
  intro r hr
  cases pc with
  | stat =>
    obtain rfl := Option.some.inj hr
    exact (hf rfl).reached b p
  | drop answer | dropRow answer =>
    obtain rfl := Option.some.inj hr
    exact hpc.1
  | backfill | refresh => exact absurd hr (by simp [SweepPc.answer])

theorem missing_of_attrReply {dir : CacheDir} {db : CacheDb} {p : RelPath} {ino : Nat}
    {live : Option Stat} {b : Backing} {failing' : Failing} {e : Errno} (hf : failing'.Truthful)
    (h : (attrReply dir db cfg.mount p ino live (rawStat b p failing').toOption).2 = .error e) :
    Missing (rawStat b p failing') = true :=
  missing_of_none (hf.reached b p) (of_attrReply_error h).1

theorem unanswered_of_unreached {r : Except Errno Stat} (h : Unreached r = true) :
    r.toOption = none := by
  cases r with
  | error e => rfl
  | ok st => exact absurd h (by simp [Unreached])

theorem honest_step {a : OutageAction} (hi : s.Inv) (hok : s.Answered a)
    (h : Outage.step cfg s a = some s') : Honest cfg.mount s a s' := by
  cases a with
  | daemon a errno =>
    cases a with
    | work t c =>
      obtain ⟨d, hd, rfl⟩ := Option.map_eq_some_iff.mp h
      intro job hjob hkind
      refine ⟨honest_work hi hd job hjob hkind, fun r hr hun => ?_⟩
      exact absurd hun (by simp [answerAt_reached hi hok r hr])
    | _ => trivial
  | sweepStart =>
    simp only [Outage.step] at h
    split at h
    · obtain rfl := Option.some.inj h
      exact ⟨rfl, rfl⟩
    · exact absurd h (by simp)
  | sweep failing fail now =>
    simp only [Outage.step] at h
    split at h
    · next p fp rest pc hs =>
      obtain rfl := Option.some.inj h
      have hpc := hi.swept p fp rest pc hs
      simp only [Honest, hs]
      refine ⟨sweep_lost hpc, fun r hr hun => ?_⟩
      have hf : pc = .stat → failing.Truthful := by
        rintro rfl
        simpa only [Answered, hs] using hok
      exact absurd hun (by simp [reached_of_grounded hpc hf r hr])
    · exact absurd h (by simp)
  | lookup parent name failing failing' =>
    obtain rfl := Option.some.inj h
    intro child hchild
    simp only [lookupReply, doLookup, Option.mem_def.mp hchild, Option.getD_some]
    exact ⟨missing_of_attrReply hok, fun hun =>
      ⟨rfl, db_of_attrReply (unanswered_of_unreached hun)⟩⟩
  | getattr ino failing failing' =>
    obtain rfl := Option.some.inj h
    intro path hpath
    simp only [getattrReply, doGetattr, Option.mem_def.mp hpath, Option.getD_some]
    exact ⟨missing_of_attrReply hok, fun hun =>
      ⟨rfl, db_of_attrReply (unanswered_of_unreached hun)⟩⟩

/-- A backing outage is not a deletion. -/
theorem outage_is_no_deletion (b : Backing) (dir : CacheDir) (db : CacheDb)
    (loaded : List (RelPath × Nat)) (t : InodeTable) (as : List OutageAction)
    (hok : Along (step cfg) Answered (start (.start cfg b dir db loaded) t) as) :
    Along (step cfg) (fun s a => ∀ s', step cfg s a = some s' → Honest cfg.mount s a s')
      (start (.start cfg b dir db loaded) t) as :=
  Along.of_invariant Inv (fun _ _ _ hi ha h => hi.step ha h)
    (fun _ _ hi ha _ h => honest_step hi ha h) hok
    (inv_start (Daemon.wf_start cfg b dir db loaded) (Daemon.fits_start cfg b dir db loaded)
      (fun _ => rfl) t)

/-! ## A validation in an outage -/

private def slide : Name := ⟨[115, 108, 105, 100, 101], Eq.refl true⟩

def slideStart : Outage :=
  start (.start oneMount (Backing.empty.replaceFile [slide] (.pair 80 81 1)) Files.empty
    ⟨∅, ∅⟩ []) .new

/-- The file is populated, and its validation has read its row. -/
def slideCached : List Action :=
  Daemon.requested [slide] ++ Daemon.turns 1 19 ++
    [.forget [slide], .release, .submit [slide] .validate 9, .pop false] ++ Daemon.turns 2 1

/-- The stat of the validation fails. -/
def slideChecked (errno : Errno) : List OutageAction :=
  slideCached.map (.daemon · 0) ++ [.daemon (.work 2 ⟨0, true, 9⟩) errno]

/-- The step of the validation after this. -/
def slideNext : OutageAction := .daemon (.work 2 ⟨0, false, 9⟩) 0

/-- A file that has been removed is deleted, and ENOENT answered for it. -/
theorem removal_is_deletion :
    Along (step oneMount) (fun s a => ∀ s', step oneMount s a = some s' → Honest oneMount.mount s a s')
      slideStart (slideChecked ENOENT ++ [slideNext, slideNext,
        .lookup rootIno slide (some ENOENT) (some ENOENT)]) :=
  outage_is_no_deletion _ _ _ _ _ _ (by decide +kernel)

/-- The stat of the validation fails with EIO, and the file, which is there, is deleted, and
then its row. -/
theorem eio_deletes : ∃ s s₁ s₂, run (step oneMount) slideStart (slideChecked EIO) = some s ∧
    step oneMount s slideNext = some s₁ ∧ step oneMount s₁ slideNext = some s₂ ∧
    (s₂.daemon.backing.stat [slide]).isSome = true ∧
    (s.daemon.dir.fileAt [slide]).isSome = true ∧ s₁.daemon.dir.fileAt [slide] = none ∧
    (s₁.daemon.db.row [slide] oneMount.mount).isSome = true ∧
    s₂.daemon.db.row [slide] oneMount.mount = none ∧ ¬Honest oneMount.mount s slideNext s₁ := by
  have hrun : ((run (step oneMount) slideStart (slideChecked EIO)).any fun s =>
      (step oneMount s slideNext).any fun s₁ => (step oneMount s₁ slideNext).any fun s₂ =>
        (s₂.daemon.backing.stat [slide]).isSome &&
        ((s.daemon.dir.fileAt [slide]).isSome && s₁.daemon.dir.fileAt [slide] = none) &&
        ((s₁.daemon.db.row [slide] oneMount.mount).isSome &&
          s₂.daemon.db.row [slide] oneMount.mount = none) &&
        (s.daemon.jobs.jobOf 2).any (·.kind = .validate) &&
        (s.answerAt 2 ⟨0, false, 9⟩ 0).any Unreached) = true := by
    decide +kernel
  obtain ⟨s, hrun, h⟩ := (Option.any_eq_true _ _).mp hrun
  obtain ⟨s₁, hs₁, h⟩ := (Option.any_eq_true _ _).mp h
  obtain ⟨s₂, hs₂, h⟩ := (Option.any_eq_true _ _).mp h
  simp only [Bool.and_eq_true, decide_eq_true_eq] at h
  obtain ⟨⟨⟨⟨hstat, hfile, hfile₁⟩, hrow, hrow₂⟩, hjob⟩, hanswer⟩ := h
  refine ⟨s, s₁, s₂, hrun, hs₁, hs₂, hstat, hfile, hfile₁, hrow, hrow₂, fun hhonest => ?_⟩
  obtain ⟨job, hjob, hkind⟩ := (Option.any_eq_true _ _).mp hjob
  obtain ⟨r, hr, hun⟩ := (Option.any_eq_true _ _).mp hanswer
  have hsame := (hhonest job hjob (by simpa using hkind)).2 r hr hun
  rw [hsame.1] at hfile₁
  rw [hfile₁] at hfile
  exact absurd hfile (by simp)

end Outage

end FsCache
