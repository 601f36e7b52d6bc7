import FsCache.CachingWindow

/- Validations behind copies.

   One loop starts the validations and the copies, and it waits for the permit of a copy
   before it does anything else. While it waits, no validation is started and no sweep runs,
   until a copy ends. So a validation goes ahead without that only if there are permits
   enough for the copy in hand and, while the window is open, for the copies that are queued
   before it.

   `Starts` and `Sweeps` are over repeated steps of the dispatcher alone. What is proved:
     1. `validation_starts_iff`: in every state of every run, a queued validation is started
        exactly if it survives a sweep that comes first and `copiesFirst` permits are free,
        and the sweep runs exactly if `copiesToSweep` are.
     2. `validation_waits`: one copy is running, one is in hand, and the validation waits. -/

namespace FsCache
open Lib

/-- The copies among the jobs. -/
def copies (q : List CacheJob) : Nat := q.countP fun job => decide (job.kind ≠ .validate)

/-- The jobs that come before `v`. -/
def before (v : CacheJob) (q : List CacheJob) : List CacheJob := q.takeWhile fun job => decide (job ≠ v)

theorem copies_cons (job : CacheJob) (q : List CacheJob) :
    copies (job :: q) = copies q + if job.kind = .validate then 0 else 1 := by
  rw [copies, List.countP_cons]
  by_cases hk : job.kind = .validate <;> simp [hk, copies]

theorem before_self (v : CacheJob) (q : List CacheJob) : before v (v :: q) = [] := by
  simp [before]

theorem before_cons {v job : CacheJob} (h : job ≠ v) (q : List CacheJob) :
    before v (job :: q) = job :: before v q := by
  simp [before, h]

/-- No copy is before the first validation's successor that was not before it. -/
theorem copies_of_removeFirstValidate {queue rest : List CacheJob} {job : CacheJob}
    (h : removeFirstValidate queue = some (job, rest)) : copies rest = copies queue := by
  induction queue generalizing rest with
  | nil => exact absurd h (by simp [removeFirstValidate])
  | cons x queue ih =>
    rw [removeFirstValidate] at h
    split at h
    · next hk =>
      obtain ⟨rfl, rfl⟩ := Prod.mk.inj (Option.some.inj h)
      rw [copies_cons, if_pos hk]
      rfl
    · obtain ⟨⟨v, r⟩, hr, e⟩ := Option.map_eq_some_iff.mp h
      obtain ⟨rfl, rfl⟩ := Prod.mk.inj e
      rw [copies_cons, copies_cons, ih hr]

theorem before_of_removeFirstValidate {queue rest : List CacheJob} {job v : CacheJob}
    (h : removeFirstValidate queue = some (job, rest)) (hv : v.kind = .validate) (hne : job ≠ v) :
    copies (before v rest) = copies (before v queue) := by
  induction queue generalizing rest with
  | nil => exact absurd h (by simp [removeFirstValidate])
  | cons x queue ih =>
    rw [removeFirstValidate] at h
    split at h
    · next hk =>
      obtain ⟨rfl, rfl⟩ := Prod.mk.inj (Option.some.inj h)
      rw [before_cons hne, copies_cons, if_pos hk]
      rfl
    · next hk =>
      obtain ⟨⟨u, r⟩, hr, e⟩ := Option.map_eq_some_iff.mp h
      obtain ⟨rfl, rfl⟩ := Prod.mk.inj e
      have hx : x ≠ v := fun e => hk (e ▸ hv)
      rw [before_cons hx, before_cons hx, copies_cons, copies_cons, ih hr]

/-- A queued validation is found. -/
theorem popNextJob_ne_none {queue : List CacheJob} {v : CacheJob} (hv : v.kind = .validate)
    (hm : v ∈ queue) (allowed : Bool) : popNextJob queue allowed ≠ none := by
  unfold popNextJob
  split
  · cases queue with
    | nil => exact absurd hm (by simp)
    | cons x rest => simp
  · induction queue with
    | nil => exact absurd hm (by simp)
    | cons x queue ih =>
      rw [removeFirstValidate]
      split
      · simp
      · next hk =>
        have hm' : v ∈ queue := (List.mem_cons.mp hm).resolve_left fun e => hk (e ▸ hv)
        simpa using ih hm'

theorem front_popped {queue rest : List CacheJob} {job : CacheJob}
    (h : popNextJob queue true = some (job, rest)) : queue = job :: rest := by
  simp only [popNextJob, if_true] at h
  split at h
  · exact absurd h (by simp)
  · obtain ⟨rfl, rfl⟩ := Prod.mk.inj (Option.some.inj h)
    rfl

theorem queue_expireStale (j : Jobs) (ttlMinutes now : Nat) :
    (j.expireStale ttlMinutes now).queue <:+ j.queue ∧
      (j.expireStale ttlMinutes now).started = j.started ∧
      (j.expireStale ttlMinutes now).permits = j.permits := by
  obtain ⟨queue, known, expired, e, hqueue, -⟩ := Jobs.expireStale_spec j ttlMinutes now
  rw [e]
  exact ⟨hqueue, rfl, rfl⟩

namespace Dispatching

/-- The queue as the next check will meet it. -/
def left (ttlMinutes : Nat) (s : Dispatching) : List CacheJob :=
  match s.pc with
  | .wait | .sweep => (s.jobs.expireStale ttlMinutes s.clock.secs).queue
  | .check | .pop _ | .acquire => s.jobs.queue

/-- The copies among `q` that the window lets through. -/
def letThrough (sch : Scheduler) (s : Dispatching) (q : List CacheJob) : Nat :=
  if sch.isCachingAllowed s.clock then copies q else 0

/-- How many copies the dispatcher starts before `v`, and before that the sweep. -/
def copiesFirst (sch : Scheduler) (ttlMinutes : Nat) (s : Dispatching) (v : CacheJob) : Nat :=
  match s.pc with
  | .wait | .sweep | .check => letThrough sch s (before v (s.left ttlMinutes))
  | .pop true =>
    -- the answer was yes: it holds for the first job also where the window has closed since
    if sch.isCachingAllowed s.clock then copies (before v s.jobs.queue)
    else copies (before v (s.jobs.queue.take 1))
  | .pop false =>
    if (removeFirstValidate s.jobs.queue).map Prod.fst = some v then 0
    else letThrough sch s (before v s.jobs.queue)
  | .acquire => letThrough sch s (before v s.jobs.queue) + 1

def copiesToSweep (sch : Scheduler) (s : Dispatching) : Nat :=
  match s.pc with
  | .wait | .sweep => 0
  | .check => letThrough sch s s.jobs.queue
  | .pop true =>
    if sch.isCachingAllowed s.clock then copies s.jobs.queue else copies (s.jobs.queue.take 1)
  | .pop false => if removeFirstValidate s.jobs.queue = none then 0 else letThrough sch s s.jobs.queue
  | .acquire => letThrough sch s s.jobs.queue + 1

/-- The dispatcher alone starts the worker of `v`. -/
def Starts (sch : Scheduler) (ttlMinutes : Nat) (s : Dispatching) (v : CacheJob) : Prop :=
  ∃ n s', run (step sch ttlMinutes) s (List.replicate n .dispatcher) = some s' ∧ v ∈ s'.jobs.started

/-- The dispatcher alone comes to its sweep. -/
def Sweeps (sch : Scheduler) (ttlMinutes : Nat) (s : Dispatching) : Prop :=
  ∃ n s', run (step sch ttlMinutes) s (List.replicate n .dispatcher) = some s' ∧ s'.pc = .sweep

/-- Permits enough, and the validation survives a sweep that comes first. -/
def Served (sch : Scheduler) (ttlMinutes : Nat) (s : Dispatching) (v : CacheJob) : Prop :=
  v ∈ s.left ttlMinutes ∧ s.copiesFirst sch ttlMinutes v ≤ s.jobs.permits

/-! ## The way to a validation -/

variable {sch : Scheduler} {ttlMinutes max : Nat} {s s' : Dispatching} {v : CacheJob}

/-- A step of the dispatcher starts the validation or leaves it on its way, and brings no
other validation on the way. -/
theorem served_iff_of_move (hb : Budget max s) (hv : v.kind = .validate)
    (hm : DispatcherMove sch ttlMinutes s s') :
    v ∈ s'.jobs.started ∨ s'.Served sch ttlMinutes v ↔
      v ∈ s.jobs.started ∨ s.Served sch ttlMinutes v := by
  cases hm with
  | wake hpc => simp only [Served, left, copiesFirst, letThrough, hpc]
  | sweep hpc =>
    obtain ⟨-, hstarted, hpermits⟩ := queue_expireStale s.jobs ttlMinutes s.clock.secs
    simp only [Served, left, copiesFirst, letThrough, hpc, hstarted, hpermits]
  | check hpc =>
    cases ha : sch.isCachingAllowed s.clock with
    | true => simp only [Served, left, copiesFirst, letThrough, hpc, ha, if_true]
    | false => simp [Served, left, copiesFirst, letThrough, hpc, ha]
  | @idle allowed hpc hpop =>
    -- there is no validation in the queue
    have hq : v ∉ s.jobs.queue := fun hq => popNextJob_ne_none hv hq allowed hpop
    have hswept : v ∉ (s.jobs.expireStale ttlMinutes s.clock.secs).queue := fun h =>
      hq ((queue_expireStale _ _ _).1.subset h)
    simp [Served, left, hpc, hq, hswept]
  | @validate allowed job rest hpc hpop hk =>
    have hperm := Jobs.perm_popNextJob hpop
    by_cases hjob : job = v
    · subst hjob
      refine iff_of_true (.inl ?_) (.inr ⟨?_, ?_⟩)
      · simp [started, Jobs.spawn]
      · rw [left, hpc]
        exact hperm.mem_iff.mpr List.mem_cons_self
      · cases allowed with
        | true =>
          simp [copiesFirst, hpc, front_popped hpop, before_self, copies]
        | false =>
          simp only [popNextJob, Bool.false_eq_true, if_false] at hpop
          simp [copiesFirst, hpc, hpop]
    · have hmem : v ∈ s.jobs.queue ↔ v ∈ rest := by
        rw [hperm.mem_iff, List.mem_cons, or_iff_right (Ne.symm hjob)]
      have hcount : s.copiesFirst sch ttlMinutes v = letThrough sch s (before v rest) := by
        cases allowed with
        | true =>
          simp only [copiesFirst, hpc, front_popped hpop, letThrough, List.take_succ_cons,
            List.take_zero, before_cons hjob, copies_cons, hk, if_true]
          split
          · rfl
          · rfl
        | false =>
          simp only [popNextJob, Bool.false_eq_true, if_false] at hpop
          simp only [copiesFirst, hpc, hpop, Option.map_some, Option.some.injEq, hjob, if_false,
            letThrough, before_of_removeFirstValidate hpop hv hjob]
      have hleft : v ∈ s.left ttlMinutes ↔ v ∈ rest := by rw [left, hpc, hmem]
      simp only [Served, hleft, hcount, started, Jobs.spawn, List.mem_append, List.mem_singleton,
        or_iff_left (Ne.symm hjob)]
      rfl
  | @hold allowed job rest hpc hpop hk =>
    have hjob : job ≠ v := fun e => hk (e ▸ hv)
    obtain ⟨rfl, -⟩ := copy_popped hpop hk
    have hq := front_popped hpop
    have hmem : v ∈ s.left ttlMinutes ↔ v ∈ rest := by
      rw [left, hpc, hq, List.mem_cons, or_iff_right (Ne.symm hjob)]
    have hcount : s.copiesFirst sch ttlMinutes v = letThrough sch s (before v rest) + 1 := by
      simp only [copiesFirst, hpc, hq, letThrough, List.take_succ_cons, List.take_zero,
        before_cons hjob, copies_cons, hk, if_false]
      split
      · rfl
      · rfl
    simp only [Served, hmem, hcount]
    rfl
  | @copy job hpc hheld hfree =>
    have hjob : job ≠ v := fun e => hb.held job hheld (e ▸ hv)
    have hcount : s.copiesFirst sch ttlMinutes v = letThrough sch s (before v s.jobs.queue) + 1 := by
      rw [copiesFirst, hpc]
    have hleft : s.left ttlMinutes = s.jobs.queue := by rw [left, hpc]
    simp only [Served, hcount, hleft, started, Jobs.spawn, List.mem_append, List.mem_singleton,
      or_iff_left (Ne.symm hjob)]
    have hle : letThrough sch s (before v s.jobs.queue) + 1 ≤ s.jobs.permits ↔
        letThrough sch s (before v s.jobs.queue) ≤ s.jobs.permits - 1 := by omega
    rw [hle]
    rfl

/-- The dispatcher goes on unless it waits for a permit. -/
theorem move_of_free (hp : s.Paced) (h : s.pc = .acquire → s.jobs.permits ≠ 0) :
    ∃ s', DispatcherMove sch ttlMinutes s s' := by
  cases hpc : s.pc with
  | wait => exact ⟨_, .wake hpc⟩
  | sweep => exact ⟨_, .sweep hpc⟩
  | check => exact ⟨_, .check hpc⟩
  | pop allowed =>
    cases hpop : popNextJob s.jobs.queue allowed with
    | none => exact ⟨_, .idle hpc hpop⟩
    | some r =>
      by_cases hk : r.1.kind = .validate
      · exact ⟨_, .validate hpc hpop hk⟩
      · exact ⟨_, .hold hpc hpop hk⟩
  | acquire =>
    obtain ⟨job, hheld⟩ := Option.isSome_iff_exists.mp (hp.held_iff.mpr hpc)
    exact ⟨_, .copy hpc hheld (h hpc)⟩

/-- How far the dispatcher is from a check, where a sweep is `n` steps away. -/
def stage (n : Nat) : DispatcherPc → Nat
  | .wait => n + 1
  | .sweep => n
  | .check => 4
  | .pop _ => 3
  | .acquire => 5

/-- Every job that is popped makes up for the way back to the check. -/
def rank (ttlMinutes n : Nat) (s : Dispatching) : Nat := 5 * (s.left ttlMinutes).length + stage n s.pc

theorem rank_lt_of_move {n : Nat} (hm : DispatcherMove sch ttlMinutes s s')
    (hsweep : s.pc = .sweep → 4 < n) (hidle : s'.pc = .wait → n < 2) :
    s'.rank ttlMinutes n < s.rank ttlMinutes n := by
  cases hm with
  | wake hpc => simp [rank, left, stage, hpc]
  | sweep hpc =>
    have := hsweep hpc
    simpa [rank, left, stage, hpc] using this
  | check hpc => simp [rank, left, stage, hpc]
  | idle hpc hpop =>
    have hlen := (queue_expireStale s.jobs ttlMinutes s.clock.secs).1.length_le
    have := hidle rfl
    simp only [rank, left, stage, hpc]
    omega
  | validate hpc hpop hk =>
    have hlen := (Jobs.perm_popNextJob hpop).length_eq
    simp only [rank, left, stage, hpc, started, Jobs.spawn]
    rw [hlen, List.length_cons]
    omega
  | hold hpc hpop hk =>
    have hlen := (Jobs.perm_popNextJob hpop).length_eq
    simp only [rank, left, stage, hpc]
    rw [hlen, List.length_cons]
    omega
  | copy hpc hheld hfree => simp [rank, left, stage, hpc, started, Jobs.spawn]

/-- A dispatcher with a validation to start does not go to sleep. -/
theorem pc_ne_wait (hv : v.kind = .validate) (h : s.Served sch ttlMinutes v)
    (hm : DispatcherMove sch ttlMinutes s s') : s'.pc ≠ .wait := by
  cases hm with
  | @idle allowed hpc hpop =>
    have hq := h.1
    rw [left, hpc] at hq
    exact absurd hpop (popNextJob_ne_none hv hq allowed)
  | wake | sweep | check | validate | hold | copy => simp [started]

/-- A validation is started, or is on its way, exactly if the dispatcher alone starts it. -/
theorem starts_iff (hb : Budget max s) (hv : v.kind = .validate) :
    s.Starts sch ttlMinutes v ↔ v ∈ s.jobs.started ∨ s.Served sch ttlMinutes v := by
  refine repeats_reach_iff (fun s => v ∈ s.jobs.started) (fun s => s.Served sch ttlMinutes v) (Budget max)
    (rank ttlMinutes 5) (fun _ _ hb hs => hb.step hs) ?_ ?_ hb
  · intro s hb hw _
    have hfree : s.pc = .acquire → s.jobs.permits ≠ 0 := by
      intro hpc hzero
      have := hw.2
      rw [copiesFirst, hpc, hzero] at this
      exact absurd this (by simp)
    obtain ⟨s', hm⟩ := move_of_free hb.paced hfree
    refine ⟨s', dispatcherMove_iff.mpr hm, ?_⟩
    rcases (served_iff_of_move hb hv hm).mpr (.inr hw) with hg | hw'
    · exact .inl hg
    · exact .inr ⟨hw', rank_lt_of_move hm (fun _ => by omega) fun hpc => absurd hpc (pc_ne_wait hv hw hm)⟩
  · intro s s' hb hs h
    exact (served_iff_of_move hb hv (dispatcherMove_iff.mp hs)).mp h

/-! ## The way to the sweep -/

theorem copiesToSweep_of_move (hpc : s.pc ≠ .sweep) (hm : DispatcherMove sch ttlMinutes s s') :
    s'.pc = .sweep ∨ s'.copiesToSweep sch ≤ s'.jobs.permits ↔ s.copiesToSweep sch ≤ s.jobs.permits := by
  cases hm with
  | wake h => simp [copiesToSweep, h]
  | sweep h => exact absurd h hpc
  | check h =>
    cases ha : sch.isCachingAllowed s.clock with
    | true => simp [copiesToSweep, letThrough, h, ha]
    | false => simp [copiesToSweep, letThrough, h, ha]
  | @idle allowed h hpop =>
    cases allowed with
    | true =>
      have hq : s.jobs.queue = [] := by
        cases hq : s.jobs.queue with
        | nil => rfl
        | cons x q => simp [popNextJob, hq] at hpop
      simp [copiesToSweep, h, hq, copies]
    | false =>
      simp only [popNextJob, Bool.false_eq_true, if_false] at hpop
      simp [copiesToSweep, h, hpop]
  | @validate allowed job rest h hpop hk =>
    have hcount : s.copiesToSweep sch = letThrough sch s rest := by
      cases allowed with
      | true =>
        simp only [copiesToSweep, h, front_popped hpop, letThrough, List.take_succ_cons, List.take_zero,
          copies_cons, hk, if_true]
        split
        · rfl
        · rfl
      | false =>
        simp only [popNextJob, Bool.false_eq_true, if_false] at hpop
        simp [copiesToSweep, h, hpop, letThrough, copies_of_removeFirstValidate hpop]
    rw [hcount]
    simp only [started, copiesToSweep, reduceCtorEq, false_or]
    rfl
  | @hold allowed job rest h hpop hk =>
    obtain ⟨rfl, -⟩ := copy_popped hpop hk
    have hcount : s.copiesToSweep sch = letThrough sch s rest + 1 := by
      simp only [copiesToSweep, h, front_popped hpop, letThrough, List.take_succ_cons, List.take_zero,
        copies_cons, hk, if_false]
      split
      · rfl
      · rfl
    rw [hcount]
    simp only [copiesToSweep, reduceCtorEq, false_or]
    rfl
  | @copy job h hheld hfree =>
    have hcount : s.copiesToSweep sch = letThrough sch s s.jobs.queue + 1 := by rw [copiesToSweep, h]
    have hle : letThrough sch s s.jobs.queue + 1 ≤ s.jobs.permits ↔
        letThrough sch s s.jobs.queue ≤ s.jobs.permits - 1 := by omega
    rw [hcount, hle]
    simp only [started, copiesToSweep, Jobs.spawn, reduceCtorEq, false_or]
    rfl

theorem sweeps_iff (hb : Budget max s) :
    s.Sweeps sch ttlMinutes ↔ s.copiesToSweep sch ≤ s.jobs.permits := by
  have hcore : s.Sweeps sch ttlMinutes ↔ s.pc = .sweep ∨ s.copiesToSweep sch ≤ s.jobs.permits := by
    refine repeats_reach_iff (fun s => s.pc = .sweep) (fun s => s.copiesToSweep sch ≤ s.jobs.permits)
      (Budget max) (rank ttlMinutes 1) (fun _ _ hb hs => hb.step hs) ?_ ?_ hb
    · intro s hb hw hpc
      have hfree : s.pc = .acquire → s.jobs.permits ≠ 0 := by
        intro hacq hzero
        rw [copiesToSweep, hacq, hzero] at hw
        exact absurd hw (by simp)
      obtain ⟨s', hm⟩ := move_of_free hb.paced hfree
      refine ⟨s', dispatcherMove_iff.mpr hm, ?_⟩
      rcases (copiesToSweep_of_move hpc hm).mpr hw with hg | hw'
      · exact .inl hg
      · exact .inr ⟨hw', rank_lt_of_move hm (fun h => absurd h hpc) fun _ => by omega⟩
    · intro s s' hb hs h
      by_cases hpc : s.pc = .sweep
      · exact .inl hpc
      · exact .inr ((copiesToSweep_of_move hpc (dispatcherMove_iff.mp hs)).mp h)
  rw [hcore, or_iff_right_of_imp]
  intro hpc
  rw [copiesToSweep, hpc]
  exact Nat.zero_le _

/-! ## Runs -/

/-- In every state of every run, the dispatcher alone starts a queued validation exactly if
permits for `copiesFirst` copies are free, and sweeps exactly if those for `copiesToSweep` are. -/
theorem validation_starts_iff (sch : Scheduler) (ttlMinutes : Nat) (loaded : List (RelPath × Nat))
    (maxConcurrentCopies : Nat) (clock : Clock) (as : List DispatchAction) (s : Dispatching)
    (h : run (step sch ttlMinutes) (boot loaded maxConcurrentCopies clock) as = some s) :
    (∀ v ∈ s.jobs.queue, v.kind = .validate →
      (s.Starts sch ttlMinutes v ↔
        v ∈ s.left ttlMinutes ∧ s.copiesFirst sch ttlMinutes v ≤ s.jobs.permits)) ∧
    (s.Sweeps sch ttlMinutes ↔ s.copiesToSweep sch ≤ s.jobs.permits) := by
  have hb := budget_run h
  refine ⟨fun v hq hv => ?_, sweeps_iff hb⟩
  rw [starts_iff hb hv, or_iff_right]
  · exact Iff.rfl
  · -- what is queued has not been started
    intro hstarted
    have hpart := hb.paced.partition
    have hlive : v ∈ s.jobs.live := List.mem_append_left _ (List.mem_append_left _ hq)
    rcases List.mem_append.mp (hpart.started.mem_iff.mp hstarted) with hrun | hfin
    · obtain ⟨r, hr, rfl⟩ := List.mem_map.mp hrun
      have hnd := hpart.once
      rw [Jobs.live, List.map_append, List.nodup_append] at hnd
      exact hnd.2.2 r.2.key (List.mem_map.mpr ⟨r.2, List.mem_append_left _ hq, rfl⟩) r.2.key
        (List.mem_map.mpr ⟨r.2, List.mem_map.mpr ⟨r, hr, rfl⟩, rfl⟩) rfl
    · exact hpart.not_finished hlive (.inl hfin)

section Example

private def reel : Name := ⟨[114], Eq.refl true⟩
private def spool : Name := ⟨[115], Eq.refl true⟩

/-- Caching is allowed all day. -/
private def always : Scheduler := ⟨(0, 0), (23, 59)⟩

/-- Two copies and a validation are queued; the first copy has the only permit, and the
dispatcher has the second one in hand. -/
private def oneBehind (n : Nat) : List DispatchAction :=
  [.submit [reel] .populate, .submit [spool] .populate, .submit [reel] .validate] ++
    List.replicate n .dispatcher

/-- Before the second copy is popped, a permit is free. -/
theorem validation_goes_ahead : ∃ s, run (step always 60) (boot [] 2 ⟨0, 21, 0⟩) (oneBehind 5) = some s ∧
    s.Starts always 60 ⟨[reel], .validate, 0, 2⟩ := by
  have hrun : ∃ s, run (step always 60) (boot [] 2 ⟨0, 21, 0⟩) (oneBehind 5) = some s ∧
      (⟨[reel], .validate, 0, 2⟩ : CacheJob) ∈ s.jobs.queue ∧
      (⟨[reel], .validate, 0, 2⟩ : CacheJob) ∈ s.left 60 ∧
      s.copiesFirst always 60 ⟨[reel], .validate, 0, 2⟩ ≤ s.jobs.permits :=
    ⟨_, rfl, by decide, by decide, by decide⟩
  obtain ⟨s, hs, hq, hleft, hfree⟩ := hrun
  exact ⟨s, hs, ((validation_starts_iff always 60 [] 2 _ _ s hs).1 _ hq rfl).mpr ⟨hleft, hfree⟩⟩

/-- The dispatcher waits for the permit of the second copy, and starts nothing and sweeps
nothing until a copy ends. -/
theorem validation_waits : ∃ s, run (step always 60) (boot [] 1 ⟨0, 21, 0⟩) (oneBehind 7) = some s ∧
    (⟨[reel], .validate, 0, 2⟩ : CacheJob) ∈ s.jobs.queue ∧
    ¬ s.Starts always 60 ⟨[reel], .validate, 0, 2⟩ ∧ ¬ s.Sweeps always 60 := by
  have hrun : ∃ s, run (step always 60) (boot [] 1 ⟨0, 21, 0⟩) (oneBehind 7) = some s ∧
      (⟨[reel], .validate, 0, 2⟩ : CacheJob) ∈ s.jobs.queue ∧
      (⟨[reel], .validate, 0, 2⟩ : CacheJob) ∉ s.jobs.started ∧
      ¬ s.copiesFirst always 60 ⟨[reel], .validate, 0, 2⟩ ≤ s.jobs.permits ∧
      ¬ s.copiesToSweep always ≤ s.jobs.permits :=
    ⟨_, rfl, by decide, by decide, by decide, by decide⟩
  obtain ⟨s, hs, hq, hnew, hfew, hfew'⟩ := hrun
  have hb := budget_run hs
  refine ⟨s, hs, hq, fun hstarts => ?_, fun hsweeps => hfew' ((sweeps_iff hb).mp hsweeps)⟩
  rcases (starts_iff hb rfl).mp hstarts with hold | hserved
  · exact hnew hold
  · exact hfew hserved.2

end Example

end Dispatching

end FsCache
