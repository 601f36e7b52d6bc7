import Mathlib.Data.Fintype.EquivFin
import FsCache.Dispatcher

/- Copies and the caching window.

   The dispatcher asks once whether caching is allowed, takes the lock, pops the first job,
   and may then wait for as long as a running copy takes until it has a permit. It does not
   ask again. So a copy may start long after the window has closed.

   `InHand`: the dispatcher will start the next copy without asking again. What is proved:
     1. `copies_in_window`: where the window does not close on a dispatcher that has a copy
        in hand, every copy is started in the window.
     2. `in_hand_outside`: where it does, and no clock brings it back, the others can let
        the copy go. So the condition leaves out no run that is safe from there on.
     3. `window_closed_meanwhile` is one such run. -/

namespace FsCache
open Lib

namespace Dispatching

variable {sch : Scheduler} {ttlMinutes : Nat} {s s' : Dispatching} {a : DispatchAction}

/-- The next copy is started without asking again: it is held, or the answer was yes and no
validation comes first. -/
def InHand (s : Dispatching) : Prop :=
  s.jobs.held.isSome = true ∨ s.pc = .pop true ∧ ∀ job ∈ s.jobs.queue.head?, job.kind ≠ .validate

instance (s : Dispatching) : Decidable s.InHand := inferInstanceAs (Decidable (_ ∨ _))

/-- The window does not close on a dispatcher with a copy in hand. -/
def StaysOpen (sch : Scheduler) (s : Dispatching) (a : DispatchAction) : Prop :=
  s.InHand → ∀ c, a = .clock c → sch.isCachingAllowed c = true

instance (sch : Scheduler) (s : Dispatching) : (a : DispatchAction) → Decidable (StaysOpen sch s a)
  | .clock c => decidable_of_iff (s.InHand → sch.isCachingAllowed c = true)
      ⟨fun h hi _ e => DispatchAction.clock.inj e ▸ h hi, fun h hi => h hi c rfl⟩
  | .submit .. | .dispatcher | .promote _ | .finish _ | .release => isTrue fun _ _ e => nomatch e

/-- Every copy that was started was started in the window. -/
def InWindow (sch : Scheduler) (s : Dispatching) : Prop :=
  ∀ x ∈ s.starts, x.1.kind ≠ .validate → sch.isCachingAllowed x.2 = true

/-- What a closed window lets through. -/
theorem kind_of_removeFirstValidate {queue rest : List CacheJob} {job : CacheJob}
    (h : removeFirstValidate queue = some (job, rest)) : job.kind = .validate := by
  induction queue generalizing rest with
  | nil => exact absurd h (by simp [removeFirstValidate])
  | cons x queue ih =>
    rw [removeFirstValidate] at h
    split at h
    · next hk =>
      obtain ⟨rfl, -⟩ := Prod.mk.inj (Option.some.inj h)
      exact hk
    · obtain ⟨⟨v, r⟩, hr, e⟩ := Option.map_eq_some_iff.mp h
      obtain ⟨rfl, -⟩ := Prod.mk.inj e
      exact ih hr

/-- A copy is popped only from the front, and after a yes. -/
theorem copy_popped {queue rest : List CacheJob} {job : CacheJob} {allowed : Bool}
    (h : popNextJob queue allowed = some (job, rest)) (hk : job.kind ≠ .validate) :
    allowed = true ∧ queue.head? = some job := by
  unfold popNextJob at h
  split at h
  · next ha =>
    refine ⟨ha, ?_⟩
    split at h
    · exact absurd h (by simp)
    · obtain ⟨rfl, -⟩ := Prod.mk.inj (Option.some.inj h)
      rfl
  · exact absurd (kind_of_removeFirstValidate h) hk

/-- A job that comes in later is not popped before the others. -/
theorem inHand_of_frame (hpc : s'.pc = s.pc) (hheld : s'.jobs.held = s.jobs.held)
    {more : List CacheJob} (hq : s'.jobs.queue = s.jobs.queue ++ more) (h : s'.InHand) : s.InHand := by
  rcases h with h | ⟨hpop, hhead⟩
  · exact .inl (hheld ▸ h)
  · refine .inr ⟨hpc ▸ hpop, fun job hjob => hhead job ?_⟩
    rw [hq]
    cases hs : s.jobs.queue with
    | nil =>
      rw [hs] at hjob
      exact absurd hjob (by simp)
    | cons x rest =>
      rw [hs] at hjob
      exact hjob

/-- A copy in hand is in the window, and so is every copy that was started. -/
structure Inside (sch : Scheduler) (s : Dispatching) : Prop where
  paced : s.Paced
  inHand : s.InHand → sch.isCachingAllowed s.clock = true
  starts : s.InWindow sch

theorem Inside.started {job : CacheJob} {jobs : Jobs} (h : Inside sch s)
    (hheld : jobs.held = none) (hp : (s.started job jobs).Paced)
    (hjob : job.kind ≠ .validate → sch.isCachingAllowed s.clock = true) :
    Inside sch (s.started job jobs) := by
  refine ⟨hp, ?_, ?_⟩
  · rintro (hh | ⟨hpc, -⟩)
    · simp [Dispatching.started, Jobs.spawn, hheld] at hh
    · exact absurd hpc (by simp [Dispatching.started])
  · intro x hx hk
    rcases List.mem_append.mp hx with hx | hx
    · exact h.starts x hx hk
    · obtain rfl := List.mem_singleton.mp hx
      exact hjob hk

theorem Inside.step (h : Inside sch s) (hok : StaysOpen sch s a)
    (hs : step sch ttlMinutes s a = some s') : Inside sch s' := by
  have hp := h.paced.step hs
  by_cases ha : a = .dispatcher
  · subst ha
    have free : s.pc ≠ .acquire → s.jobs.held = none := fun hpc =>
      Option.not_isSome_iff_eq_none.mp fun hh => hpc (h.paced.held_iff.mp hh)
    cases dispatcherMove_iff.mp hs with
    | wake hpc =>
      refine ⟨hp, ?_, h.starts⟩
      simp [InHand, free (by simp [hpc])]
    | sweep hpc =>
      refine ⟨hp, ?_, h.starts⟩
      simp [InHand, held_expireStale, free (by simp [hpc])]
    | check hpc =>
      -- the answer is as fresh as it gets
      refine ⟨hp, ?_, h.starts⟩
      rintro (hh | ⟨hyes, -⟩)
      · simp [free (by simp [hpc])] at hh
      · simpa using hyes
    | idle hpc hpop =>
      refine ⟨hp, ?_, h.starts⟩
      simp [InHand, free (by simp [hpc])]
    | validate hpc hpop hk => exact h.started (free (by simp [hpc])) hp fun hne => absurd hk hne
    | @hold allowed job rest hpc hpop hk =>
      obtain ⟨rfl, hhead⟩ := copy_popped hpop hk
      refine ⟨hp, fun _ => h.inHand (.inr ⟨hpc, ?_⟩), h.starts⟩
      rw [hhead]
      intro job' hj
      obtain rfl : job = job' := Option.some.inj hj
      exact hk
    | copy hpc hheld hfree =>
      exact h.started rfl hp fun _ => h.inHand (.inl (by rw [hheld]; rfl))
  · obtain ⟨hpc, hheld, hstarts, ⟨more, hq⟩, hclock⟩ := frame_of_step hs ha
    refine ⟨hp, fun hi => ?_, by rw [InWindow, hstarts]; exact h.starts⟩
    have hi := inHand_of_frame hpc hheld hq hi
    by_cases hc : ∃ c, a = .clock c
    · obtain ⟨c, rfl⟩ := hc
      rw [← Option.some.inj hs]
      exact hok hi c rfl
    · rw [hclock fun c e => hc ⟨c, e⟩]
      exact h.inHand hi

/-- Where the window does not close on a copy in hand, every copy starts in the window. -/
theorem copies_in_window (sch : Scheduler) (ttlMinutes : Nat) (loaded : List (RelPath × Nat))
    (maxConcurrentCopies : Nat) (clock : Clock) (as : List DispatchAction) (s : Dispatching)
    (h : run (step sch ttlMinutes) (boot loaded maxConcurrentCopies clock) as = some s)
    (hok : Along (step sch ttlMinutes) (StaysOpen sch) (boot loaded maxConcurrentCopies clock) as) :
    ∀ x ∈ s.starts, x.1.kind ≠ .validate → sch.isCachingAllowed x.2 = true := by
  have hboot : Inside sch (boot loaded maxConcurrentCopies clock) := by
    have hp := paced_boot loaded maxConcurrentCopies clock
    refine ⟨hp, ?_, fun x hx => absurd hx (by simp [boot])⟩
    rintro (hh | ⟨hpc, -⟩)
    · exact absurd (hp.held_iff.mp hh) (by simp [boot])
    · exact absurd hpc (by simp [boot])
  exact (run_invariant_along (Inside sch) (fun _ _ _ hi ha hs => hi.step ha hs) h hok hboot).starts

/-! ## A closed window and a copy in hand -/

/-- The copies among the running jobs. -/
def runningCopies (j : Jobs) : Nat := j.running.countP fun r => decide (r.2.kind ≠ .validate)

/-- Every permit is free, on its way back, or with a running copy, and only a copy is held. -/
structure Budget (max : Nat) (s : Dispatching) : Prop where
  paced : s.Paced
  permits : s.jobs.permits + s.jobs.releasing + runningCopies s.jobs = max
  held : ∀ job ∈ s.jobs.held, job.kind ≠ .validate

theorem runningCopies_spawn (j : Jobs) (job : CacheJob) :
    runningCopies (j.spawn job) = runningCopies j + if job.kind = .validate then 0 else 1 := by
  simp only [runningCopies, Jobs.spawn, List.countP_append, List.countP_singleton]
  by_cases hk : job.kind = .validate <;> simp [hk]

theorem runningCopies_finish {j : Jobs} {t : Nat} {job : CacheJob} (hp : j.Partition)
    (hjob : j.jobOf t = some job) :
    runningCopies j = runningCopies (j.finish t job) + if job.kind = .validate then 0 else 1 := by
  have hperm := Jobs.perm_running (Jobs.mem_running hjob) hp.tasks
  rw [runningCopies, hperm.countP_eq, List.countP_cons]
  by_cases hk : job.kind = .validate <;> simp [hk, runningCopies, Jobs.finish]

theorem Budget.step {max : Nat} (h : Budget max s) (hs : step sch ttlMinutes s a = some s') :
    Budget max s' := by
  have hp := h.paced.step hs
  have hsum := h.permits
  cases a with
  | clock c => exact Option.some.inj hs ▸ ⟨Option.some.inj hs ▸ hp, hsum, h.held⟩
  | submit relPath kind =>
    rw [← Option.some.inj hs] at hp ⊢
    refine ⟨hp, ?_, ?_⟩
    · simp only [Jobs.submitJob]
      split <;> exact hsum
    · simp only [Jobs.held_submitJob]
      exact h.held
  | promote t =>
    obtain ⟨jobs, hj, rfl⟩ := Option.map_eq_some_iff.mp hs
    cases pipeMove_of_step hj with
    | promote => exact ⟨hp, hsum, h.held⟩
  | finish t =>
    obtain ⟨jobs, hj, rfl⟩ := Option.map_eq_some_iff.mp hs
    cases pipeMove_of_step hj with
    | finish hjob =>
      refine ⟨hp, ?_, h.held⟩
      rw [runningCopies_finish h.paced.partition hjob] at hsum
      rw [← hsum]
      simp only [Jobs.finish]
      split <;> omega
  | release =>
    obtain ⟨jobs, hj, rfl⟩ := Option.map_eq_some_iff.mp hs
    cases pipeMove_of_step hj with
    | release hreleasing =>
      refine ⟨hp, ?_, h.held⟩
      rw [← hsum]
      simp only [runningCopies]
      omega
  | dispatcher =>
    cases dispatcherMove_iff.mp hs with
    | wake hpc => exact ⟨hp, hsum, h.held⟩
    | check hpc => exact ⟨hp, hsum, h.held⟩
    | idle hpc hpop => exact ⟨hp, hsum, h.held⟩
    | hold hpc hpop hk =>
      refine ⟨hp, hsum, ?_⟩
      intro job hjob
      rwa [← Option.some.inj hjob]
    | sweep hpc =>
      refine ⟨hp, ?_, ?_⟩
      · obtain ⟨queue, known, expired, e, -⟩ := Jobs.expireStale_spec s.jobs ttlMinutes s.clock.secs
        simp only [e]
        exact hsum
      · simp only [held_expireStale]
        exact h.held
    | @validate allowed job rest hpc hpop hk =>
      refine ⟨hp, ?_, h.held⟩
      simp only [started]
      rw [runningCopies_spawn, if_pos hk]
      exact hsum
    | @copy job hpc hheld hfree =>
      refine ⟨hp, ?_, by simp [started, Jobs.spawn]⟩
      have hk : job.kind ≠ .validate := h.held job hheld
      simp only [started]
      rw [runningCopies_spawn, if_neg hk]
      simp only [Jobs.spawn, runningCopies] at hsum ⊢
      omega

theorem budget_run {loaded : List (RelPath × Nat)} {max : Nat} {clock : Clock}
    {as : List DispatchAction} (h : run (step sch ttlMinutes) (boot loaded max clock) as = some s) :
    Budget max s := by
  refine run_invariant (Budget max) (fun _ _ _ hb hs => hb.step hs) h ?_
  have hstart : ∀ j : Jobs, j.permits = max ∧ j.releasing = 0 ∧ j.running = [] ∧ j.held = none →
      ∀ (relPath : RelPath) (now : Nat), (j.submitJob relPath .populate now).permits = max ∧
        (j.submitJob relPath .populate now).releasing = 0 ∧
        (j.submitJob relPath .populate now).running = [] ∧
        (j.submitJob relPath .populate now).held = none := by
    intro j hj relPath now
    unfold Jobs.submitJob
    split <;> exact hj
  obtain ⟨e₁, e₂, e₃, e₄⟩ := List.foldlRecOn
    (motive := fun j : Jobs => j.permits = max ∧ j.releasing = 0 ∧ j.running = [] ∧ j.held = none)
    loaded (fun j l => j.submitJob l.1 .populate l.2) (b := Jobs.initial max 1) ⟨rfl, rfl, rfl, rfl⟩
    fun j hj l _ => hstart j hj l.1 l.2
  refine ⟨paced_boot loaded max clock, ?_, ?_⟩
  · show (Jobs.rehydrate loaded max 1).permits + (Jobs.rehydrate loaded max 1).releasing +
      runningCopies (Jobs.rehydrate loaded max 1) = max
    rw [runningCopies, Jobs.rehydrate, e₁, e₂, e₃]
    rfl
  · intro job hjob
    rw [show (boot loaded max clock).jobs.held = none from e₄] at hjob
    exact absurd hjob (by simp)

/-- A copy that is held is started whenever the running ones let go. -/
theorem held_starts {max : Nat} (hb : Budget max s) (hmax : max ≠ 0) {job : CacheJob}
    (hheld : s.jobs.held = some job) : ∃ bs s', (∀ c, DispatchAction.clock c ∉ bs) ∧
      run (step sch ttlMinutes) s bs = some s' ∧ (job, s.clock) ∈ s'.starts := by
  have hpc : s.pc = .acquire := hb.paced.held_iff.mp (by rw [hheld]; rfl)
  -- with a free permit it is the next step
  have go : ∀ {u : Dispatching}, u.pc = .acquire → u.jobs.held = some job → u.clock = s.clock →
      u.jobs.permits ≠ 0 → ∃ u', step sch ttlMinutes u .dispatcher = some u' ∧ (job, s.clock) ∈ u'.starts := by
    intro u hupc huheld hclock hfree
    refine ⟨_, dispatcherMove_iff.mpr (.copy hupc huheld hfree), ?_⟩
    rw [← hclock]
    exact List.mem_append_right _ (List.mem_singleton.mpr rfl)
  have give : ∀ {u : Dispatching}, u.pc = .acquire → u.jobs.held = some job → u.clock = s.clock →
      u.jobs.releasing ≠ 0 → ∃ u', run (step sch ttlMinutes) u [.release, .dispatcher] = some u' ∧
        (job, s.clock) ∈ u'.starts := by
    intro u hupc huheld hclock hrel
    have hstep : step sch ttlMinutes u .release = some { u with jobs :=
        { u.jobs with releasing := u.jobs.releasing - 1, permits := u.jobs.permits + 1 } } := by
      simp only [step, pipeStep, Jobs.release, if_neg hrel, Option.map_some]
    obtain ⟨u', hu', hin⟩ := go (u := { u with jobs :=
        { u.jobs with releasing := u.jobs.releasing - 1, permits := u.jobs.permits + 1 } })
      hupc huheld hclock (Nat.succ_ne_zero _)
    exact ⟨u', run_cons.mpr ⟨_, hstep, run_cons.mpr ⟨u', hu', rfl⟩⟩, hin⟩
  by_cases hfree : s.jobs.permits = 0
  · by_cases hrel : s.jobs.releasing = 0
    · -- then all permits are with running copies, and one of them ends
      have hsum := hb.permits
      have hpos : 0 < s.jobs.running.countP fun r => decide (r.2.kind ≠ .validate) := by
        rw [runningCopies] at hsum
        omega
      obtain ⟨⟨t, copy⟩, hmem, hk⟩ := List.countP_pos_iff.mp hpos
      have hjob : s.jobs.jobOf t = some copy := (Jobs.jobOf_eq_some_iff hb.paced.partition).mpr hmem
      have hstep : step sch ttlMinutes s (.finish t) = some { s with jobs := s.jobs.finish t copy } := by
        simp only [step, pipeStep, hjob, Option.map_some]
      have hrel' : (s.jobs.finish t copy).releasing ≠ 0 := by
        simp only [Jobs.finish, if_neg (of_decide_eq_true hk)]
        exact Nat.succ_ne_zero _
      obtain ⟨u', hu', hin⟩ := give (u := { s with jobs := s.jobs.finish t copy }) hpc hheld rfl hrel'
      exact ⟨_, u', by simp, run_cons.mpr ⟨_, hstep, hu'⟩, hin⟩
    · obtain ⟨u', hu', hin⟩ := give hpc hheld rfl hrel
      exact ⟨_, u', by simp, hu', hin⟩
  · obtain ⟨u', hu', hin⟩ := go hpc hheld rfl hfree
    exact ⟨[.dispatcher], u', by simp, run_cons.mpr ⟨u', hu', rfl⟩, hin⟩

/-- A copy in hand of a dispatcher whose window has closed can be started outside of it,
without the clock being touched. -/
theorem in_hand_outside (sch : Scheduler) (ttlMinutes : Nat) (loaded : List (RelPath × Nat))
    (max : Nat) (hmax : max ≠ 0) (clock : Clock) (as : List DispatchAction) (s : Dispatching)
    (h : run (step sch ttlMinutes) (boot loaded max clock) as = some s) (hhand : s.InHand)
    (hclosed : sch.isCachingAllowed s.clock = false) :
    ∃ bs s', (∀ c, DispatchAction.clock c ∉ bs) ∧ run (step sch ttlMinutes) s bs = some s' ∧
      ∃ x ∈ s'.starts, x.1.kind ≠ .validate ∧ sch.isCachingAllowed x.2 = false := by
  have hb := budget_run h
  have start : ∀ {u : Dispatching} {job : CacheJob}, Budget max u → u.clock = s.clock →
      u.jobs.held = some job → ∃ bs s', (∀ c, DispatchAction.clock c ∉ bs) ∧
        run (step sch ttlMinutes) u bs = some s' ∧
        ∃ x ∈ s'.starts, x.1.kind ≠ .validate ∧ sch.isCachingAllowed x.2 = false := by
    intro u job hbu hclock hheld
    obtain ⟨bs, s', hbs, hrun, hin⟩ := held_starts hbu hmax hheld
    exact ⟨bs, s', hbs, hrun, _, hin, hbu.held job hheld, hclock ▸ hclosed⟩
  -- a copy at the front is popped
  have pop : ∀ {u : Dispatching} {job : CacheJob} {rest : List CacheJob}, Budget max u →
      u.clock = s.clock → u.pc = .pop true → u.jobs.queue = job :: rest → job.kind ≠ .validate →
      ∃ bs s', (∀ c, DispatchAction.clock c ∉ bs) ∧ run (step sch ttlMinutes) u bs = some s' ∧
        ∃ x ∈ s'.starts, x.1.kind ≠ .validate ∧ sch.isCachingAllowed x.2 = false := by
    intro u job rest hbu hclock hpc hq hk
    have hstep : step sch ttlMinutes u .dispatcher = some _ :=
      dispatcherMove_iff.mpr (.hold hpc (by rw [hq]; rfl) hk)
    obtain ⟨bs, s', hbs, hrun, hx⟩ := start (hbu.step hstep) hclock rfl
    exact ⟨.dispatcher :: bs, s', by simpa using hbs, run_cons.mpr ⟨_, hstep, hrun⟩, hx⟩
  rcases hhand with hheld | ⟨hpc, hhead⟩
  · obtain ⟨job, hjob⟩ := Option.isSome_iff_exists.mp hheld
    exact start hb rfl hjob
  · cases hq : s.jobs.queue with
    | cons job rest => exact pop hb rfl hpc hq (hhead job (by rw [hq]; rfl))
    | nil =>
      -- some path is not known yet, and is submitted in time
      have : Nonempty Name := ⟨⟨[112], Eq.refl true⟩⟩
      have : Infinite RelPath := inferInstanceAs (Infinite (List Name))
      obtain ⟨p, hp⟩ := Infinite.exists_notMem_finset (s.jobs.known.keys.map Prod.fst).toFinset
      have hnew : s.jobs.known.lookup (p, .populate) = none := by
        by_contra hc
        obtain ⟨v, hv⟩ := Option.ne_none_iff_exists'.mp hc
        exact hp (List.mem_toFinset.mpr (List.mem_map.mpr ⟨_, Map.mem_keys_iff.mpr ⟨v, hv⟩, rfl⟩))
      have hstep : step sch ttlMinutes s (.submit p .populate) =
          some { s with jobs := s.jobs.submitJob p .populate s.clock.secs } := rfl
      have hq' : (s.jobs.submitJob p .populate s.clock.secs).queue =
          [⟨p, .populate, s.clock.secs, s.jobs.nextId⟩] := by
        simp [Jobs.submitJob, hnew, hq]
      obtain ⟨bs, s', hbs, hrun, hx⟩ := pop (hb.step hstep) rfl hpc hq' (by simp)
      exact ⟨.submit p .populate :: bs, s', by simpa using hbs, run_cons.mpr ⟨_, hstep, hrun⟩, hx⟩

section Example

private def matinee : Name := ⟨[102], Eq.refl true⟩
private def premiere : Name := ⟨[103], Eq.refl true⟩

/-- From eight to ten in the evening. -/
private def evening : Scheduler := ⟨(20, 0), (22, 0)⟩

/-- The first is being copied, the second waits for its permit, and the copy ends at `later`. -/
private def twoCopies (later : Clock) : List DispatchAction :=
  [.submit [matinee] .populate, .submit [premiere] .populate, .dispatcher, .dispatcher, .dispatcher, .dispatcher,
    .dispatcher, .dispatcher, .dispatcher, .clock later, .finish 1, .release, .dispatcher]

/-- It ends while the window is open. -/
theorem started_in_window : ∃ s, run (step evening 60) (boot [] 1 ⟨0, 21, 0⟩) (twoCopies ⟨9, 21, 59⟩) =
      some s ∧ s.starts.length = 2 ∧
    ∀ x ∈ s.starts, x.1.kind ≠ .validate → evening.isCachingAllowed x.2 = true := by
  have hrun : ∃ s, run (step evening 60) (boot [] 1 ⟨0, 21, 0⟩) (twoCopies ⟨9, 21, 59⟩) = some s ∧
      s.starts.length = 2 := ⟨_, rfl, rfl⟩
  obtain ⟨s, hs, hlen⟩ := hrun
  exact ⟨s, hs, hlen, copies_in_window evening 60 [] 1 _ _ s hs (by decide +kernel)⟩

/-- It ends when the window has closed, and the second is copied then. -/
theorem window_closed_meanwhile : ∃ s,
    run (step evening 60) (boot [] 1 ⟨0, 21, 0⟩) (twoCopies ⟨9, 23, 30⟩) = some s ∧
    ∃ x ∈ s.starts, x.1.kind = .populate ∧ evening.isCachingAllowed x.2 = false := by
  exact ⟨_, rfl, (⟨[premiere], .populate, 0, 1⟩, ⟨9, 23, 30⟩), by decide, rfl, by decide⟩

end Example

end Dispatching

end FsCache
