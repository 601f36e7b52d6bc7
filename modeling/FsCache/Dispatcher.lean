import FsCache.Phases

/- The dispatcher and the caching window (cache/io.rs, engine/scheduler.rs).

   `Jobs` says what the dispatcher does to the pipeline; here it has a program counter as
   well, and the clock that the window and the sweep read. It reads the clock, and takes the
   lock, and waits for a permit, one after the other, and anything may happen in between.

   A run is what happens until the daemon is told to shut down. The dispatcher may wake at
   any time: it is notified, or ten seconds have passed. The clock is set by an action, to
   whatever time of the day.

   `Paced`: the dispatcher has a job in hand exactly while it waits for a permit.
   `pipe_of_step`: a step is one of the pipeline's, or leaves the pipeline as it is.

   Correspondence (Rust ↔ Lean):
     `Scheduler::{is_allowed_at, is_caching_allowed}` ↔ `Scheduler.isAllowedAt`, `isCachingAllowed`
     `dispatcher`                                     ↔ `Dispatching.dispatcher` over `DispatcherPc`
     `CacheIO::spawn`                                 ↔ `Dispatching.boot` -/

namespace FsCache
open Lib

/-- The caching window, from `start` to before `stop`, each an hour and a minute. -/
structure Scheduler where
  start : Nat × Nat
  stop : Nat × Nat

/-- The clock: seconds since the epoch, and the local hour and minute. -/
structure Clock where
  secs : Nat
  hm : Nat × Nat
  deriving DecidableEq

namespace Scheduler

def isAllowedAt (sch : Scheduler) (h m : Nat) : Bool :=
  let now := h * 60 + m
  let start := sch.start.1 * 60 + sch.start.2
  let stop := sch.stop.1 * 60 + sch.stop.2
  if start ≤ stop then decide (start ≤ now) && decide (now < stop)
  -- the window wraps midnight
  else decide (start ≤ now) || decide (now < stop)

def isCachingAllowed (sch : Scheduler) (c : Clock) : Bool := sch.isAllowedAt c.hm.1 c.hm.2

end Scheduler

/-- What the dispatcher does next. -/
inductive DispatcherPc where
  /-- wait to be notified, or for ten seconds -/
  | wait
  | sweep
  /-- ask whether caching is allowed -/
  | check
  /-- take the lock and pop a job, with the answer -/
  | pop (allowed : Bool)
  /-- wait for a permit for the copy that was popped -/
  | acquire
  deriving DecidableEq

/-- The pipeline with its dispatcher. `starts` are the workers that were started, with the
time at which each was; nothing reads it. -/
structure Dispatching where
  jobs : Jobs
  pc : DispatcherPc
  clock : Clock
  starts : List (CacheJob × Clock)

inductive DispatchAction where
  | clock (c : Clock)
  | submit (relPath : RelPath) (kind : CacheJobKind)
  | dispatcher
  | promote (t : Nat)
  | finish (t : Nat)
  | release
  deriving DecidableEq

namespace Dispatching

def boot (loaded : List (RelPath × Nat)) (maxConcurrentCopies : Nat) (clock : Clock) : Dispatching where
  jobs := Jobs.rehydrate loaded maxConcurrentCopies 1
  pc := .wait
  clock := clock
  starts := []

/-- The worker of `job` is started, and the dispatcher goes on. -/
def started (s : Dispatching) (job : CacheJob) (jobs : Jobs) : Dispatching :=
  { s with jobs := jobs.spawn job, pc := .check, starts := s.starts ++ [(job, s.clock)] }

/-- One step of the dispatcher; `none`: it waits for a permit. -/
def dispatcher (sch : Scheduler) (ttlMinutes : Nat) (s : Dispatching) : Option Dispatching :=
  match s.pc with
  | .wait => some { s with pc := .sweep }
  | .sweep => some { s with jobs := s.jobs.expireStale ttlMinutes s.clock.secs, pc := .check }
  | .check => some { s with pc := .pop (sch.isCachingAllowed s.clock) }
  | .pop allowed =>
    match popNextJob s.jobs.queue allowed with
    | none => some { s with pc := .wait }
    | some (job, rest) =>
      if job.kind = .validate then some (s.started job { s.jobs with queue := rest })
      else some { s with jobs := { s.jobs with queue := rest, held := some job }, pc := .acquire }
  | .acquire =>
    match s.jobs.held with
    | none => none
    | some job =>
      if s.jobs.permits = 0 then none
      else some (s.started job { s.jobs with held := none, permits := s.jobs.permits - 1 })

def step (sch : Scheduler) (ttlMinutes : Nat) (s : Dispatching) : DispatchAction → Option Dispatching
  | .clock c => some { s with clock := c }
  | .submit relPath kind => some { s with jobs := s.jobs.submitJob relPath kind s.clock.secs }
  | .dispatcher => s.dispatcher sch ttlMinutes
  | .promote t => (pipeStep ttlMinutes s.jobs (.promote t)).map fun jobs => { s with jobs := jobs }
  | .finish t => (pipeStep ttlMinutes s.jobs (.finish t)).map fun jobs => { s with jobs := jobs }
  | .release => (pipeStep ttlMinutes s.jobs .release).map fun jobs => { s with jobs := jobs }

/-! ## What one step can do -/

/-- What one step of the dispatcher can do. -/
inductive DispatcherMove (sch : Scheduler) (ttlMinutes : Nat) (s : Dispatching) : Dispatching → Prop
  | wake (hpc : s.pc = .wait) : DispatcherMove sch ttlMinutes s { s with pc := .sweep }
  | sweep (hpc : s.pc = .sweep) :
      DispatcherMove sch ttlMinutes s
        { s with jobs := s.jobs.expireStale ttlMinutes s.clock.secs, pc := .check }
  | check (hpc : s.pc = .check) :
      DispatcherMove sch ttlMinutes s { s with pc := .pop (sch.isCachingAllowed s.clock) }
  | idle {allowed : Bool} (hpc : s.pc = .pop allowed) (hpop : popNextJob s.jobs.queue allowed = none) :
      DispatcherMove sch ttlMinutes s { s with pc := .wait }
  | validate {allowed : Bool} {job : CacheJob} {rest : List CacheJob} (hpc : s.pc = .pop allowed)
      (hpop : popNextJob s.jobs.queue allowed = some (job, rest)) (hk : job.kind = .validate) :
      DispatcherMove sch ttlMinutes s (s.started job { s.jobs with queue := rest })
  | hold {allowed : Bool} {job : CacheJob} {rest : List CacheJob} (hpc : s.pc = .pop allowed)
      (hpop : popNextJob s.jobs.queue allowed = some (job, rest)) (hk : job.kind ≠ .validate) :
      DispatcherMove sch ttlMinutes s
        { s with jobs := { s.jobs with queue := rest, held := some job }, pc := .acquire }
  | copy {job : CacheJob} (hpc : s.pc = .acquire) (hheld : s.jobs.held = some job)
      (hfree : s.jobs.permits ≠ 0) :
      DispatcherMove sch ttlMinutes s
        (s.started job { s.jobs with held := none, permits := s.jobs.permits - 1 })

variable {sch : Scheduler} {ttlMinutes : Nat} {s s' : Dispatching} {a : DispatchAction}

theorem dispatcherMove_iff :
    s.dispatcher sch ttlMinutes = some s' ↔ DispatcherMove sch ttlMinutes s s' := by
  constructor
  · intro h
    unfold dispatcher at h
    split at h
    · next hpc => exact Option.some.inj h ▸ .wake hpc
    · next hpc => exact Option.some.inj h ▸ .sweep hpc
    · next hpc => exact Option.some.inj h ▸ .check hpc
    · next allowed hpc =>
      split at h
      · next hpop => exact Option.some.inj h ▸ .idle hpc hpop
      · next job rest hpop =>
        split at h
        · next hk => exact Option.some.inj h ▸ .validate hpc hpop hk
        · next hk => exact Option.some.inj h ▸ .hold hpc hpop hk
    · next hpc =>
      split at h
      · exact absurd h (by simp)
      · next job hheld =>
        split at h
        · exact absurd h (by simp)
        · next hfree => exact Option.some.inj h ▸ .copy hpc hheld hfree
  · intro h
    cases h with
    | wake hpc => rw [dispatcher, hpc]
    | sweep hpc => rw [dispatcher, hpc]
    | check hpc => rw [dispatcher, hpc]
    | idle hpc hpop => simp only [dispatcher, hpc, hpop]
    | validate hpc hpop hk => simp only [dispatcher, hpc, hpop, hk, if_true]
    | hold hpc hpop hk => simp only [dispatcher, hpc, hpop, hk, if_false]
    | copy hpc hheld hfree => simp only [dispatcher, hpc, hheld, hfree, if_false]

/-- Only the dispatcher moves the dispatcher. -/
theorem frame_of_step (h : step sch ttlMinutes s a = some s') (ha : a ≠ .dispatcher) :
    s'.pc = s.pc ∧ s'.jobs.held = s.jobs.held ∧ s'.starts = s.starts ∧
      (∃ more, s'.jobs.queue = s.jobs.queue ++ more) ∧ ((∀ c, a ≠ .clock c) → s'.clock = s.clock) := by
  cases a with
  | clock c =>
    rw [← Option.some.inj h]
    exact ⟨rfl, rfl, rfl, ⟨[], (List.append_nil _).symm⟩, fun hc => absurd rfl (hc c)⟩
  | submit relPath kind =>
    rw [← Option.some.inj h]
    refine ⟨rfl, ?_, rfl, ?_, fun _ => rfl⟩
    · show (s.jobs.submitJob relPath kind s.clock.secs).held = s.jobs.held
      unfold Jobs.submitJob
      split <;> rfl
    · show ∃ more, (s.jobs.submitJob relPath kind s.clock.secs).queue = s.jobs.queue ++ more
      unfold Jobs.submitJob
      split
      · exact ⟨[], (List.append_nil _).symm⟩
      · exact ⟨_, rfl⟩
  | dispatcher => exact absurd rfl ha
  | promote t =>
    obtain ⟨jobs, hp, rfl⟩ := Option.map_eq_some_iff.mp h
    cases pipeMove_of_step hp with
    | promote => exact ⟨rfl, rfl, rfl, ⟨[], (List.append_nil _).symm⟩, fun _ => rfl⟩
  | finish t =>
    obtain ⟨jobs, hp, rfl⟩ := Option.map_eq_some_iff.mp h
    cases pipeMove_of_step hp with
    | finish => exact ⟨rfl, rfl, rfl, ⟨[], (List.append_nil _).symm⟩, fun _ => rfl⟩
  | release =>
    obtain ⟨jobs, hp, rfl⟩ := Option.map_eq_some_iff.mp h
    cases pipeMove_of_step hp with
    | release => exact ⟨rfl, rfl, rfl, ⟨[], (List.append_nil _).symm⟩, fun _ => rfl⟩

/-! ## The dispatcher and the pipeline -/

/-- The dispatcher has a job in hand exactly while it waits for a permit. -/
structure Paced (s : Dispatching) : Prop where
  partition : s.jobs.Partition
  held_iff : s.jobs.held.isSome = true ↔ s.pc = .acquire

theorem held_expireStale (j : Jobs) (ttlMinutes now : Nat) :
    (j.expireStale ttlMinutes now).held = j.held := by
  obtain ⟨queue, known, expired, e, -⟩ := Jobs.expireStale_spec j ttlMinutes now
  rw [e]

/-- A step is one of the pipeline's, or leaves the pipeline as it is. -/
theorem pipe_of_step (hp : s.Paced) (h : step sch ttlMinutes s a = some s') :
    s'.jobs = s.jobs ∨ ∃ pa, pipeStep ttlMinutes s.jobs pa = some s'.jobs := by
  cases a with
  | clock c => exact .inl (by rw [← Option.some.inj h])
  | submit relPath kind =>
    exact .inr ⟨.submit relPath kind s.clock.secs, by rw [← Option.some.inj h]; rfl⟩
  | promote t =>
    obtain ⟨jobs, hj, rfl⟩ := Option.map_eq_some_iff.mp h
    exact .inr ⟨_, hj⟩
  | finish t =>
    obtain ⟨jobs, hj, rfl⟩ := Option.map_eq_some_iff.mp h
    exact .inr ⟨_, hj⟩
  | release =>
    obtain ⟨jobs, hj, rfl⟩ := Option.map_eq_some_iff.mp h
    exact .inr ⟨_, hj⟩
  | dispatcher =>
    have free : s.pc ≠ .acquire → s.jobs.held.isSome = false := fun hpc =>
      Bool.eq_false_iff.mpr fun hh => hpc (hp.held_iff.mp hh)
    cases dispatcherMove_iff.mp h with
    | wake hpc => exact .inl rfl
    | check hpc => exact .inl rfl
    | idle hpc hpop => exact .inl rfl
    | sweep hpc =>
      refine .inr ⟨.expire s.clock.secs, ?_⟩
      simp only [pipeStep, free (by simp [hpc]), Bool.false_eq_true, if_false]
    | @validate allowed job rest hpc hpop hk =>
      refine .inr ⟨.pop allowed, ?_⟩
      simp only [pipeStep, free (by simp [hpc]), Bool.false_eq_true, if_false, Jobs.pop, hpop, hk, if_true]
      rfl
    | @hold allowed job rest hpc hpop hk =>
      refine .inr ⟨.pop allowed, ?_⟩
      simp only [pipeStep, free (by simp [hpc]), Bool.false_eq_true, if_false, Jobs.pop, hpop, hk]
    | copy hpc hheld hfree =>
      refine .inr ⟨.acquire, ?_⟩
      simp only [pipeStep, Jobs.acquire, hheld, hfree, if_false]
      rfl

theorem Paced.step (hp : s.Paced) (h : step sch ttlMinutes s a = some s') : s'.Paced := by
  refine ⟨?_, ?_⟩
  · rcases pipe_of_step hp h with e | ⟨pa, e⟩
    · rw [e]
      exact hp.partition
    · exact partition_pipeStep hp.partition e
  · by_cases ha : a = .dispatcher
    · subst ha
      have free : s.pc ≠ .acquire → s.jobs.held = none := fun hpc =>
        Option.not_isSome_iff_eq_none.mp fun hh => hpc (hp.held_iff.mp hh)
      cases dispatcherMove_iff.mp h with
      | wake hpc => simp [free (by simp [hpc])]
      | sweep hpc => simp [held_expireStale, free (by simp [hpc])]
      | check hpc => simp [free (by simp [hpc])]
      | idle hpc hpop => simp [free (by simp [hpc])]
      | validate hpc hpop hk => simp [started, Jobs.spawn, free (by simp [hpc])]
      | hold hpc hpop hk => simp
      | copy hpc hheld hfree => simp [started, Jobs.spawn]
    · obtain ⟨hpc, hheld, -⟩ := frame_of_step h ha
      rw [hheld, hpc]
      exact hp.held_iff

theorem paced_boot (loaded : List (RelPath × Nat)) (maxConcurrentCopies : Nat) (clock : Clock) :
    (boot loaded maxConcurrentCopies clock).Paced := by
  refine ⟨Jobs.partition_rehydrate loaded maxConcurrentCopies 1, ?_⟩
  have hheld : (Jobs.rehydrate loaded maxConcurrentCopies 1).held = none :=
    List.foldlRecOn (motive := fun j : Jobs => j.held = none) _ _ rfl
      fun _ hj l _ => (Jobs.held_submitJob _ l.1 .populate l.2).trans hj
  simp [boot, hheld]

theorem paced_run {loaded : List (RelPath × Nat)} {maxConcurrentCopies : Nat} {clock : Clock}
    {as : List DispatchAction}
    (h : run (step sch ttlMinutes) (boot loaded maxConcurrentCopies clock) as = some s) : s.Paced :=
  run_invariant Paced (fun _ _ _ hp hs => hp.step hs) h (paced_boot loaded maxConcurrentCopies clock)

end Dispatching

end FsCache
