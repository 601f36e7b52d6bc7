import FsCache.Gauges
import FsCache.HeadOfLine

/- The order in which jobs leave the queue (`submit_job`, `pop_next_job`, `expire_stale`, `dispatcher`
   in cache/io.rs).

   A job leaves at the front, from the middle while the window is closed, or by its age. The two classes,
   copies and validations, overtake each other; within its class no job does: `fifo_run`. `accepted` is the
   order of the pushes, `started` that of the spawns; the copy that the dispatcher holds while it waits
   for a permit is between the two.

   Correspondence (Rust ↔ Lean):
     `queue.pop_front()`, `queue.remove(idx)`  ↔ `popNextJob`, by `popNextJob_spec`
     the loop of `expire_stale`                ↔ `Jobs.dropExpired`, by `dropped_front`
     `tokio::spawn`                            ↔ `Jobs.spawn` -/

namespace FsCache
open Lib

def CacheJob.isValidation (job : CacheJob) : Bool := decide (job.kind = .validate)

@[simp] theorem isCopy_iff {job : CacheJob} : job.isCopy = true ↔ job.kind ≠ .validate := by
  simp [CacheJob.isCopy]

@[simp] theorem isValidation_iff {job : CacheJob} : job.isValidation = true ↔ job.kind = .validate := by
  simp [CacheJob.isValidation]

/-- Where the popped job was: the first, or the first validation while the window is closed. -/
theorem popNextJob_spec {queue rest : List CacheJob} {job : CacheJob} {copyAllowed : Bool}
    (h : popNextJob queue copyAllowed = some (job, rest)) :
    ∃ l₁ l₂, queue = l₁ ++ job :: l₂ ∧ rest = l₁ ++ l₂ ∧ (copyAllowed = true → l₁ = []) ∧
      (copyAllowed = false → job.kind = .validate ∧ ∀ x ∈ l₁, x.kind ≠ .validate) := by
  cases copyAllowed with
  | true => exact ⟨[], rest, front_popped h, rfl, fun _ => rfl, fun e => absurd e (by simp)⟩
  | false =>
    have hmid : ∀ (queue rest : List CacheJob), removeFirstValidate queue = some (job, rest) →
        ∃ l₁ l₂, queue = l₁ ++ job :: l₂ ∧ rest = l₁ ++ l₂ ∧ job.kind = .validate ∧
          ∀ x ∈ l₁, x.kind ≠ .validate := by
      intro queue
      induction queue with
      | nil => exact fun rest h => absurd h (by simp [removeFirstValidate])
      | cons x queue ih =>
        intro rest h
        rw [removeFirstValidate] at h
        split at h
        · next hk =>
          obtain ⟨rfl, rfl⟩ := Prod.mk.inj (Option.some.inj h)
          exact ⟨[], queue, rfl, rfl, hk, fun _ hx => absurd hx List.not_mem_nil⟩
        · next hk =>
          obtain ⟨⟨v, r⟩, hr, e⟩ := Option.map_eq_some_iff.mp h
          obtain ⟨rfl, rfl⟩ := Prod.mk.inj e
          obtain ⟨l₁, l₂, rfl, rfl, hv, hl₁⟩ := ih r hr
          refine ⟨x :: l₁, l₂, rfl, rfl, hv, fun y hy => ?_⟩
          obtain rfl | hy := List.mem_cons.mp hy
          · exact hk
          · exact hl₁ y hy
    obtain ⟨l₁, l₂, hq, hr, hv, hl₁⟩ := hmid queue rest h
    exact ⟨l₁, l₂, hq, hr, fun e => absurd e (by simp), fun _ => ⟨hv, hl₁⟩⟩

theorem popNextJob_eq_none_iff {queue : List CacheJob} {copyAllowed : Bool} :
    popNextJob queue copyAllowed = none ↔ ∀ job ∈ queue, copyAllowed = false ∧ job.kind ≠ .validate := by
  constructor
  · intro h job hjob
    cases copyAllowed with
    | true =>
      cases queue with
      | nil => exact absurd hjob List.not_mem_nil
      | cons x rest => cases h
    | false => exact ⟨rfl, fun hv => popNextJob_ne_none hv hjob false h⟩
  · intro h
    cases hpop : popNextJob queue copyAllowed with
    | none => rfl
    | some popped =>
      obtain ⟨job, rest⟩ := popped
      obtain ⟨l₁, l₂, rfl, -, -, hclosed⟩ := popNextJob_spec hpop
      obtain ⟨hfalse, hk⟩ := h job (List.mem_append_right _ List.mem_cons_self)
      exact absurd (hclosed hfalse).1 hk

namespace Jobs

/-- The loop takes jobs that are too old, from the front. -/
theorem dropped_front (cutoff : Nat) (q : List CacheJob) (j : Jobs) :
    ∃ front, q = front ++ (j.dropExpired cutoff q).queue ∧ ∀ job ∈ front, job.enqueueTs < cutoff := by
  induction q generalizing j with
  | nil => exact ⟨[], rfl, fun _ h => absurd h List.not_mem_nil⟩
  | cons job rest ih =>
    rw [dropExpired]
    split
    · exact ⟨[], rfl, fun _ h => absurd h List.not_mem_nil⟩
    · next hold =>
      obtain ⟨front, hq, hfront⟩ := ih { j with known := j.known.erase job.key, expired := j.expired ++ [job] }
      refine ⟨job :: front, congrArg (job :: ·) hq, fun x hx => ?_⟩
      obtain rfl | hx := List.mem_cons.mp hx
      · exact not_le.mp hold
      · exact hfront x hx

/-- Of each class, the jobs that were started and those still to start come in the order in which they
were accepted. -/
structure InOrder (j : Jobs) : Prop where
  copies : (j.started.filter CacheJob.isCopy ++ j.held.toList ++ j.queue.filter CacheJob.isCopy).Sublist
    (j.accepted.filter CacheJob.isCopy)
  validations : (j.started.filter CacheJob.isValidation ++ j.queue.filter CacheJob.isValidation).Sublist
    (j.accepted.filter CacheJob.isValidation)
  held : ∀ job ∈ j.held, job.kind ≠ .validate

/-- The popped job is started, or it is the one the dispatcher holds. -/
def Popped (j : Jobs) (job : CacheJob) (j' : Jobs) : Prop :=
  if job.kind = .validate then j'.started = j.started ++ [job] ∧ j'.held = none
  else j'.started = j.started ∧ j'.held = some job

/-- What an operation takes from the queue, and what it adds. -/
def Takes (ttlMinutes : Nat) (j : Jobs) : PipeAction → Jobs → Prop
  | .submit relPath kind now, j' =>
    j'.queue = j.queue ∨ j'.queue = j.queue ++ [⟨relPath, kind, now, j.nextId⟩]
  | .expire now, j' =>
    ∃ front, j.queue = front ++ j'.queue ∧
      ∀ job ∈ front, ttlMinutes ≠ 0 ∧ job.enqueueTs < now - ttlMinutes * 60 % 2^64
  | .pop true, j' => ∃ job, j.queue = job :: j'.queue ∧ j.Popped job j'
  | .pop false, j' =>
    ∃ l₁ job l₂, j.queue = l₁ ++ job :: l₂ ∧ j'.queue = l₁ ++ l₂ ∧ j.Popped job j' ∧
      job.kind = .validate ∧ ∀ x ∈ l₁, x.kind ≠ .validate
  | _, j' => j'.queue = j.queue

/-! ## One operation -/

section Step

variable {ttlMinutes : Nat} {j j' : Jobs} {a : PipeAction} {job : CacheJob} {l l₁ l₂ : List CacheJob}

theorem copies_none (h : ∀ x ∈ l, x.kind ≠ .validate) : l.filter CacheJob.isValidation = [] :=
  List.filter_eq_nil_iff.mpr fun x hx hv => h x hx (isValidation_iff.mp hv)

theorem filter_isCopy_of_validate (h : job.kind = .validate) (l : List CacheJob) :
    (job :: l).filter CacheJob.isCopy = l.filter CacheJob.isCopy :=
  List.filter_cons_of_neg (by simpa using h)

theorem filter_isValidation_of_copy (h : job.kind ≠ .validate) (l : List CacheJob) :
    (job :: l).filter CacheJob.isValidation = l.filter CacheJob.isValidation :=
  List.filter_cons_of_neg (by simpa using h)

theorem inOrder_submitJob (h : j.InOrder) (relPath : RelPath) (kind : CacheJobKind) (now : Nat) :
    (j.submitJob relPath kind now).InOrder := by
  unfold submitJob
  split
  · exact h
  · refine ⟨?_, ?_, h.held⟩
    · simp only [List.filter_append, ← List.append_assoc]
      exact h.copies.append (List.Sublist.refl _)
    · simp only [List.filter_append, ← List.append_assoc]
      exact h.validations.append (List.Sublist.refl _)

/-- Fewer in the queue, and everything else the same. -/
theorem InOrder.sublist (h : j.InOrder) (hqueue : j'.queue.Sublist j.queue) (hheld : j'.held = j.held)
    (hstarted : j'.started = j.started) (haccepted : j'.accepted = j.accepted) : j'.InOrder := by
  refine ⟨?_, ?_, by rw [hheld]; exact h.held⟩
  · rw [hstarted, hheld, haccepted]
    exact ((hqueue.filter _).append_left _).trans h.copies
  · rw [hstarted, haccepted]
    exact ((hqueue.filter _).append_left _).trans h.validations

theorem inOrder_expireStale (h : j.InOrder) (ttlMinutes now : Nat) : (j.expireStale ttlMinutes now).InOrder := by
  obtain ⟨queue, known, expired, e, hqueue, -⟩ := expireStale_spec j ttlMinutes now
  rw [e]
  exact h.sublist hqueue.sublist rfl rfl rfl

/-- A validation overtakes copies only. -/
theorem inOrder_validate (h : j.InOrder) (hq : j.queue = l₁ ++ job :: l₂) (hk : job.kind = .validate)
    (hl₁ : ∀ x ∈ l₁, x.kind ≠ .validate) : ({ j with queue := l₁ ++ l₂ }.spawn job).InOrder := by
  have hcopies := h.copies
  have hvalidations := h.validations
  rw [hq] at hcopies hvalidations
  refine ⟨?_, ?_, h.held⟩
  · rw [List.filter_append, filter_isCopy_of_validate hk, ← List.filter_append] at hcopies
    simpa only [spawn, List.filter_append, filter_isCopy_of_validate hk, List.filter_nil, List.append_nil]
      using hcopies
  · rw [List.filter_append, copies_none hl₁, List.nil_append,
      List.filter_cons_of_pos (isValidation_iff.mpr hk)] at hvalidations
    simpa only [spawn, List.filter_append, copies_none hl₁, List.nil_append, List.filter_cons_of_pos
      (isValidation_iff.mpr hk), List.filter_nil, List.append_assoc, List.singleton_append] using hvalidations

/-- A copy leaves at the front. -/
theorem inOrder_hold (h : j.InOrder) (hheld : j.held = none) (hq : j.queue = job :: l) (hk : job.kind ≠ .validate) :
    ({ j with queue := l, held := some job } : Jobs).InOrder := by
  have hcopies := h.copies
  have hvalidations := h.validations
  rw [hq] at hcopies hvalidations
  refine ⟨?_, ?_, fun x hx => Option.some.inj hx ▸ hk⟩
  · rw [hheld, Option.toList_none, List.append_nil, List.filter_cons_of_pos (isCopy_iff.mpr hk)] at hcopies
    simpa only [Option.toList_some, List.append_assoc, List.singleton_append] using hcopies
  · rwa [filter_isValidation_of_copy hk] at hvalidations

/-- The held copy is the next. -/
theorem inOrder_acquire (h : j.InOrder) (hheld : j.held = some job) (permits : Nat) :
    ({ j with held := none, permits := permits }.spawn job).InOrder := by
  have hk : job.kind ≠ .validate := h.held job hheld
  have hcopies := h.copies
  rw [hheld, Option.toList_some] at hcopies
  refine ⟨?_, ?_, fun x hx => absurd hx (by simp [spawn])⟩
  · simpa only [spawn, List.filter_append, List.filter_cons_of_pos (isCopy_iff.mpr hk), List.filter_nil,
      Option.toList_none, List.append_nil] using hcopies
  · simpa only [spawn, List.filter_append, filter_isValidation_of_copy hk, List.filter_nil, List.append_nil]
      using h.validations

theorem inOrder_pipeStep (h : j.InOrder) (hs : pipeStep ttlMinutes j a = some j') : j'.InOrder := by
  cases pipeMove_of_step hs with
  | submit relPath kind now => exact inOrder_submitJob h relPath kind now
  | expire hheld => exact inOrder_expireStale h ttlMinutes _
  | @validate copyAllowed job rest hheld hpop hk =>
    obtain ⟨l₁, l₂, hq, rfl, hopen, hclosed⟩ := popNextJob_spec hpop
    refine inOrder_validate h hq hk fun x hx => ?_
    cases copyAllowed with
    | true => rw [hopen rfl] at hx; exact absurd hx List.not_mem_nil
    | false => exact (hclosed rfl).2 x hx
  | @hold copyAllowed job rest hheld hpop hk =>
    obtain ⟨l₁, l₂, hq, rfl, hopen, hclosed⟩ := popNextJob_spec hpop
    cases copyAllowed with
    | true =>
      rw [hopen rfl] at hq ⊢
      exact inOrder_hold h hheld hq hk
    | false => exact absurd (hclosed rfl).1 hk
  | acquire hheld hfree => exact inOrder_acquire h hheld _
  | promote hjob hk => exact h.sublist (List.Sublist.refl _) rfl rfl rfl
  | finish hjob => exact h.sublist (List.Sublist.refl _) rfl rfl rfl
  | release hreleasing => exact h.sublist (List.Sublist.refl _) rfl rfl rfl

theorem popped_validate (hheld : j.held = none) (rest : List CacheJob) (hk : job.kind = .validate) :
    j.Popped job ({ j with queue := rest }.spawn job) := by
  rw [Popped, if_pos hk]
  exact ⟨rfl, hheld⟩

theorem popped_hold (rest : List CacheJob) (hk : job.kind ≠ .validate) :
    j.Popped job { j with queue := rest, held := some job } := by
  rw [Popped, if_neg hk]
  exact ⟨rfl, rfl⟩

/-- What is popped, is popped where it was. -/
theorem takes_pop {copyAllowed : Bool} {rest : List CacheJob}
    (hpop : popNextJob j.queue copyAllowed = some (job, rest))
    (hqueue : j'.queue = rest) (hpopped : j.Popped job j') : Takes ttlMinutes j (.pop copyAllowed) j' := by
  obtain ⟨l₁, l₂, hq, hrest, hopen, hclosed⟩ := popNextJob_spec hpop
  cases copyAllowed with
  | true =>
    rw [hopen rfl, List.nil_append] at hq hrest
    exact ⟨job, by rw [hqueue, hrest, hq], hpopped⟩
  | false => exact ⟨l₁, job, l₂, hq, hqueue.trans hrest, hpopped, hclosed rfl⟩

theorem takes_pipeStep (hs : pipeStep ttlMinutes j a = some j') : Takes ttlMinutes j a j' := by
  cases pipeMove_of_step hs with
  | submit relPath kind now =>
    show (j.submitJob relPath kind now).queue = j.queue ∨ _
    unfold submitJob
    split
    · exact .inl rfl
    · exact .inr rfl
  | expire hheld =>
    show ∃ front, j.queue = front ++ (j.expireStale ttlMinutes _).queue ∧ _
    unfold expireStale
    split
    · exact ⟨[], rfl, fun _ h => absurd h List.not_mem_nil⟩
    · next httl =>
      obtain ⟨front, hq, hfront⟩ := dropped_front _ j.queue j
      exact ⟨front, hq, fun x hx => ⟨httl, hfront x hx⟩⟩
  | validate hheld hpop hk => exact takes_pop hpop rfl (popped_validate hheld _ hk)
  | hold hheld hpop hk => exact takes_pop hpop rfl (popped_hold _ hk)
  | acquire hheld hfree => rfl
  | promote hjob hk => rfl
  | finish hjob => rfl
  | release hreleasing => rfl

/-- The dispatcher finds nothing only if there is nothing for it. -/
theorem pop_none_iff (hheld : j.held = none) (copyAllowed : Bool) :
    pipeStep ttlMinutes j (.pop copyAllowed) = none ↔
      ∀ job ∈ j.queue, copyAllowed = false ∧ job.kind ≠ .validate := by
  rw [← popNextJob_eq_none_iff]
  simp only [pipeStep, pop, hheld, Option.isSome_none, Bool.false_eq_true, if_false]
  cases popNextJob j.queue copyAllowed with
  | none => simp
  | some r => by_cases hk : r.1.kind = .validate <;> simp [hk]

end Step

theorem inOrder_rehydrate (loaded : List (RelPath × Nat)) (permits nextTask : Nat) :
    (rehydrate loaded permits nextTask).InOrder :=
  List.foldlRecOn _ _ ⟨List.Sublist.refl _, List.Sublist.refl _, fun _ h => absurd h (by simp [initial])⟩
    fun _ h l _ => inOrder_submitJob h l.1 .populate l.2

/-- In every run, the copies are started in the order in which they were accepted, and so are the
validations. With the window closed, the first queued validation is popped, if there is one, and nothing else;
and what a pop or a sweep leaves in the queue, it leaves in its order. -/
theorem fifo_run (ttlMinutes : Nat) (loaded : List (RelPath × Nat)) (permits nextTask : Nat) (as : List PipeAction)
    (j : Jobs) (hrun : run (pipeStep ttlMinutes) (rehydrate loaded permits nextTask) as = some j) :
    (j.accepted.map CacheJob.id).Nodup ∧
    (j.started.filter CacheJob.isCopy).Sublist (j.accepted.filter CacheJob.isCopy) ∧
    (j.started.filter CacheJob.isValidation).Sublist (j.accepted.filter CacheJob.isValidation) ∧
    (∀ copyAllowed, j.held = none → (pipeStep ttlMinutes j (.pop copyAllowed) = none ↔
      ∀ job ∈ j.queue, copyAllowed = false ∧ job.kind ≠ .validate)) ∧
    ∀ a j', pipeStep ttlMinutes j a = some j' → Takes ttlMinutes j a j' := by
  have horder : j.InOrder := run_invariant InOrder (fun _ _ _ h hs => inOrder_pipeStep h hs) hrun
    (inOrder_rehydrate loaded permits nextTask)
  have hpartition : j.Partition := run_invariant Partition (fun _ _ _ h hs => partition_pipeStep h hs) hrun
    (partition_rehydrate loaded permits nextTask)
  refine ⟨hpartition.ids, ?_, ?_, fun copyAllowed hheld => pop_none_iff hheld copyAllowed,
    fun a j' hs => takes_pipeStep hs⟩
  · refine List.Sublist.trans ?_ horder.copies
    rw [List.append_assoc]
    exact List.sublist_append_left _ _
  · exact (List.sublist_append_left _ _).trans horder.validations

section Tickets

private def stub : RelPath := [⟨[115], Eq.refl true⟩]
private def coupon : RelPath := [⟨[99], Eq.refl true⟩]

/-- Two copies and two validations; the window is closed, and then open. -/
def admitted : List PipeAction :=
  [.submit stub .replace 9, .submit stub .validate 9, .submit coupon .validate 9, .pop false, .expire 9, .pop true,
    .acquire, .pop true, .acquire, .pop true]

theorem admitted_fifo : ∃ j, run (pipeStep 60) (rehydrate [(coupon, 7)] 2 1) admitted = some j ∧
    j.started.map CacheJob.id = [2, 0, 1, 3] ∧
    (j.started.filter CacheJob.isCopy).Sublist (j.accepted.filter CacheJob.isCopy) := by
  have hrun : ∃ j, run (pipeStep 60) (rehydrate [(coupon, 7)] 2 1) admitted = some j ∧
      j.started.map CacheJob.id = [2, 0, 1, 3] := ⟨_, rfl, by decide +kernel⟩
  obtain ⟨j, hj, hids⟩ := hrun
  exact ⟨j, hj, hids, (fifo_run 60 [(coupon, 7)] 2 1 admitted j hj).2.1⟩

end Tickets

end Jobs

end FsCache
