import FsCache.Tidy
import FsCache.OnePopulate

/- The abort of a copy in flight.

   A dispatch tells the copies of its path in flight to abort, but only if the path is
   cached when the watcher takes the event; and a first population is in flight while it
   is not. `abort_honoured`: a copy whose path is cached at the event, and that has its
   flag still to read when the dispatch is over, never comes to its rename.
   `first_copy_not_told` is a population that is not told.

   The proof follows one task: `TaskStep` is what a step does to it, and `Doomed` where
   its worker can be once it has been told. -/

namespace FsCache
open Lib

/-- The copy has not read its flag. -/
def CopyPc.unread : CopyPc → Bool
  | .mkdir | .openSrc | .fstat _ | .openDst _ _ | .read _ | .write _ _ | .sync _ | .checkAbort _ => true
  | _ => false

/-- Promoted, and the flag still to read. -/
def WorkerPc.unread : WorkerPc → Bool
  | .room => true
  | .copy pc => pc.unread
  | _ => false

/-- Past its promotion. -/
def WorkerPc.begun : WorkerPc → Bool
  | .start | .promote => false
  | _ => true

/-- Before its rename, or before `mark_cached`. -/
def WorkerPc.committing : WorkerPc → Bool
  | .copy (.rename _ _) | .copy (.ok _) => true
  | _ => false

/-- A copy with this flag that will not come to its rename. -/
def CopyPc.doomed (abort : Bool) : CopyPc → Bool
  | .finalStat _ aborted => aborted
  | .apply _ _ | .rename _ _ | .ok _ => false
  | .failInner _ | .failOuter _ | .err => true
  | .mkdir | .openSrc | .fstat _ | .openDst _ _ | .read _ | .write _ _ | .sync _ | .checkAbort _ => abort

def WorkerPc.doomed (abort : Bool) : WorkerPc → Bool
  | .start | .promote => false
  | .room => abort
  | .copy pc => pc.doomed abort
  | .statLive _ | .verdict _ | .refresh _ | .dropRow | .finish => true

theorem WorkerPc.doomed_true {abort : Bool} {pc : WorkerPc} (h : pc.doomed abort = true) :
    pc.doomed true = true := by
  cases pc with
  | copy pc => cases pc <;> first | rfl | exact h
  | _ => first | rfl | exact h

theorem WorkerPc.doomed_of_unread {pc : WorkerPc} (h : pc.unread = true) : pc.doomed true = true := by
  cases pc with
  | room => rfl
  | copy pc => cases pc <;> first | rfl | exact absurd h (by simp [WorkerPc.unread, CopyPc.unread])
  | _ => exact absurd h (by simp [WorkerPc.unread])

theorem WorkerPc.not_committing {abort : Bool} {pc : WorkerPc} (h : pc.doomed abort = true) :
    pc.committing = false := by
  cases pc with
  | copy pc => cases pc <;> first | rfl | exact absurd h (by simp [WorkerPc.doomed, CopyPc.doomed])
  | _ => rfl

section Worker

variable {b : Backing} {dir dir' : CacheDir} {db db' : CacheDb} {mount : MountId} {abort : Bool}
  {p : RelPath} {k : CacheJobKind} {t : Nat} {c : WorkChoice} {pc pc' : WorkerPc} {e : JobEffect}

/-- Only a worker before its promotion is promoted, and none goes back. -/
theorem begun_workMove (hm : WorkMove b dir db mount abort p k t c pc dir' db' e pc')
    (h : pc.begun = true) : pc'.begun = true ∧ e ≠ .promote := by
  cases hm with
  | skip | begin | readRow | noRow | promote => exact absurd h (by simp [WorkerPc.begun])
  | noRoom | room | copy | mark | copyFailed | statLive | fresh | notTracked | backfill | dropFile
  | stale | refresh | refreshed | dropRow | finish => exact ⟨rfl, by simp⟩

/-- A flag that is read stays read. -/
theorem unread_workMove (hm : WorkMove b dir db mount abort p k t c pc dir' db' e pc')
    (h : pc.begun = true) (h' : pc'.unread = true) : pc.unread = true := by
  cases hm with
  | room => rfl
  | copy hc => cases hc <;> first | rfl | exact absurd h' (by simp [WorkerPc.unread, CopyPc.unread])
  | promote => exact absurd h (by simp [WorkerPc.begun])
  | skip | begin | readRow | noRow | noRoom | mark | copyFailed | statLive | fresh | notTracked
  | backfill | dropFile | stale | refresh | refreshed | dropRow | finish =>
    exact absurd h' (by simp [WorkerPc.unread])

theorem doomed_workMove (hm : WorkMove b dir db mount abort p k t c pc dir' db' e pc')
    (h : pc.doomed abort = true) : pc'.doomed abort = true ∧ e ≠ .promote := by
  cases hm with
  | copy hc =>
    cases hc with
    | accept => exact absurd h (by simp [WorkerPc.doomed, CopyPc.doomed])
    | applyFails | apply | renameFails | rename =>
      exact absurd h (by simp [WorkerPc.doomed, CopyPc.doomed])
    | mkdirFails | openSrcFails | fstatFails | openDstFails | readFails | writeFails | syncFails
    | refuse | removeInner | removeOuter => exact ⟨rfl, by simp⟩
    | mkdir | openSrc | fstat | openDst | eof | chunk | write | sync | checkAbort =>
      exact ⟨h, by simp⟩
  | room => exact ⟨h, by simp⟩
  | skip | begin | readRow | noRow | promote => exact absurd h (by simp [WorkerPc.doomed])
  | noRoom | mark | copyFailed | statLive | fresh | notTracked | backfill | dropFile | stale
  | refresh | refreshed | dropRow | finish => exact ⟨rfl, by simp⟩

end Worker

/-! ## One task of the pipeline -/

namespace Jobs

variable {j j' : Jobs} {t u : Nat} {job : CacheJob} {key : JobKey}

theorem jobOf_spawn (ht : t < j.nextTask) : (j.spawn job).jobOf t = j.jobOf t := by
  simp only [jobOf, spawn, List.lookup_append]
  rw [show List.lookup t [(j.nextTask, job)] = none by
    rw [List.lookup_cons, beq_eq_false_iff_ne.mpr (Nat.ne_of_lt ht), List.lookup_nil]]
  exact Option.or_none

theorem jobOf_finish_ne (h : t ≠ u) : (j.finish u job).jobOf t = j.jobOf t := by
  simp only [jobOf, finish]
  generalize j.running = l
  induction l with
  | nil => rfl
  | cons r l ih =>
    by_cases hr : r.1 = u
    · rw [List.filter_cons_of_neg (by simp [hr]), ih, List.lookup_cons,
        beq_eq_false_iff_ne.mpr (hr ▸ h)]
    · rw [List.filter_cons_of_pos (by simpa using hr), List.lookup_cons, List.lookup_cons, ih]

theorem jobOf_congr (h : j'.running = j.running) : j'.jobOf t = j.jobOf t := by
  rw [jobOf, h, jobOf]

theorem nextTask_rehydrate (loaded : List (RelPath × Nat)) (permits n : Nat) :
    (rehydrate loaded permits n).nextTask = n := by
  refine List.foldlRecOn (motive := fun j : Jobs => j.nextTask = n) _ _ rfl fun j h l _ => ?_
  unfold submitJob
  split <;> exact h

/-- A task keeps its job until it finishes. -/
theorem jobOf_pipeStep {ttlMinutes : Nat} {a : PipeAction} (ht : t < j.nextTask)
    (hs : pipeStep ttlMinutes j a = some j') :
    j.nextTask ≤ j'.nextTask ∧ (j'.jobOf t = none ∨ j'.jobOf t = j.jobOf t) := by
  cases pipeMove_of_step hs with
  | submit p k now =>
    refine ⟨?_, .inr (jobOf_congr (running_submitJob j p k now))⟩
    unfold submitJob
    split <;> exact Nat.le_refl _
  | @expire now hheld =>
    obtain ⟨queue, known, expired, e, -⟩ := expireStale_spec j ttlMinutes now
    rw [e]
    exact ⟨Nat.le_refl _, .inr rfl⟩
  | @validate _ job rest hheld hpop hk =>
    let j₀ : Jobs := { j with queue := rest }
    exact ⟨Nat.le_succ _, .inr (jobOf_spawn (j := j₀) ht)⟩
  | acquire hheld hfree =>
    let j₀ : Jobs := { j with held := none, permits := j.permits - 1 }
    exact ⟨Nat.le_succ _, .inr (jobOf_spawn (j := j₀) ht)⟩
  | @finish u job hjob =>
    refine ⟨Nat.le_refl _, ?_⟩
    by_cases htu : t = u
    · exact .inl (htu ▸ Daemon.jobOf_finish j u job)
    · exact .inr (jobOf_finish_ne htu)
  | hold | promote | release => exact ⟨Nat.le_refl _, .inr rfl⟩

/-- A task in flight keeps its handle until it finishes. -/
theorem handle_pipeStep {ttlMinutes : Nat} {a : PipeAction} (hp : j.Partition) (hh : j.Handles)
    (hs : pipeStep ttlMinutes j a = some j') (hk : j.known.lookup key = some (some t)) :
    j'.known.lookup key = some (some t) ∨ j'.jobOf t = none := by
  obtain ⟨mine, hm, hkey⟩ := hh key t hk
  have htask : ∀ u job, j.jobOf u = some job → job.key = key → u = t := by
    intro u job hjob e
    have := hp.running_inj (mem_running hjob) hm (e.trans hkey.symm)
    exact congrArg Prod.fst this
  cases pipeMove_of_step hs with
  | submit p k now =>
    left
    unfold submitJob
    split
    · exact hk
    · next hn =>
      rw [Map.lookup_insert_if, if_neg]
      · exact hk
      · intro hkey
        subst hkey
        exact hn (by rw [hk]; rfl)
  | @expire now hheld =>
    left
    have hphase : (j.expireStale ttlMinutes now).phase key = .running t := by
      have hrun : j.phase key = .running t :=
        (phase_eq_running_iff hp).mpr ⟨mine, (jobOf_eq_some_iff hp).mpr hm, hkey⟩
      rcases phase_expireStale hp ttlMinutes now with e | ⟨e, -⟩
      · exact e.trans hrun
      · exact absurd (hrun.symm.trans e) (by simp)
    have hsome : ((j.expireStale ttlMinutes now).known.lookup key).isSome = true := by
      rw [← Bool.not_eq_false]
      intro e
      rw [(phase_eq_absent_iff (partition_expireStale hp ttlMinutes now)).mpr e] at hphase
      exact absurd hphase (by simp)
    obtain ⟨queue, known, expired, heq, -, -, hknown⟩ := expireStale_spec j ttlMinutes now
    rw [heq] at hsome ⊢
    rcases hknown key with e | e
    · exact e.trans hk
    · simp [e] at hsome
  | @promote u job hjob _ =>
    left
    rw [promote, Map.lookup_insert_if]
    split
    · next e => rw [htask u job hjob e.symm]
    · exact hk
  | @finish u job hjob =>
    by_cases hkj : job.key = key
    · right
      rw [← htask u job hjob hkj]
      exact Daemon.jobOf_finish j u job
    · left
      rw [finish, Map.lookup_erase_if, if_neg (Ne.symm hkj)]
      exact hk
  | validate | hold | acquire | release => exact .inl hk

end Jobs

/-! ## One task of the daemon -/

namespace Daemon

variable {cfg : Config} {s s' : Daemon} {a : Action} {p : RelPath} {k : CacheJobKind} {t : Nat}

/-- What a step does to a task that has been spawned. -/
inductive TaskStep (cfg : Config) (s s' : Daemon) (a : Action) (t : Nat) : Prop
  | gone (h : s'.jobs.jobOf t = none)
  | same (hjob : s'.jobs.jobOf t = s.jobs.jobOf t) (hpc : s'.pc t = s.pc t)
      (habort : s'.aborted t = s.aborted t ∨ s'.aborted t = true)
  | work {c : WorkChoice} {job : CacheJob} {dir : CacheDir} {db : CacheDb} {e : JobEffect}
      (ha : a = .work t c) (hjob : s.jobs.jobOf t = some job) (hjob' : s'.jobs.jobOf t = some job)
      (hm : WorkMove s.backing s.dir s.db cfg.mount (s.aborted t) job.relPath job.kind t c (s.pc t)
        dir db e (s'.pc t))
      (habort : e ≠ .promote → s'.aborted t = s.aborted t)

/-- What a step that is no worker's does to the workers and their flags. -/
theorem quiet_of_step (ht : t < s.jobs.nextTask) (h : step cfg s a = some s')
    (ha : ∀ t c, a ≠ .work t c) :
    s'.pc t = s.pc t ∧ (s'.aborted t = s.aborted t ∨ s'.aborted t = true) := by
  cases move_of_step h with
  | work => exact absurd rfl (ha _ _)
  | pop | acquire => exact ⟨Function.update_of_ne (Nat.ne_of_lt ht) _ _, .inl rfl⟩
  | markAbort hw =>
    refine ⟨rfl, ?_⟩
    simp only [markAbort]
    cases s.aborted t with
    | true => exact .inl rfl
    | false =>
      rw [Bool.false_or]
      cases (s.jobs.known.lookup _ == _ || s.jobs.known.lookup _ == _) <;> simp
  | change | served | offer | populate | submit | expire | release | forget | event | dispatch
  | evictFile | evictRow | hit | touch | refresh | crash => exact ⟨rfl, .inl rfl⟩

theorem taskStep_of_step (ht : t < s.jobs.nextTask) (h : step cfg s a = some s') :
    t < s'.jobs.nextTask ∧ TaskStep cfg s s' a t := by
  have hjobs : s.jobs.nextTask ≤ s'.jobs.nextTask ∧
      (s'.jobs.jobOf t = none ∨ s'.jobs.jobOf t = s.jobs.jobOf t) := by
    rcases jobs_step h with e | ⟨pa, hp, -⟩ | ⟨now, loaded, -, e⟩
    · rw [e]
      exact ⟨Nat.le_refl _, .inr rfl⟩
    · exact Jobs.jobOf_pipeStep ht hp
    · rw [e]
      refine ⟨Nat.le_of_eq (Jobs.nextTask_rehydrate loaded _ _).symm, .inl ?_⟩
      rw [Jobs.jobOf, Jobs.running_rehydrate]
      rfl
  refine ⟨Nat.lt_of_lt_of_le ht hjobs.1, ?_⟩
  rcases hjobs.2 with hgone | hjob
  · exact .gone hgone
  · by_cases ha : ∀ u c, a ≠ .work u c
    · obtain ⟨hpc, habort⟩ := quiet_of_step ht h ha
      exact .same hjob hpc habort
    · obtain ⟨u, c, rfl⟩ : ∃ u c, a = .work u c := by
        by_contra hno
        exact ha fun u c e => hno ⟨u, c, e⟩
      cases move_of_step h with
      | @work _ _ job dir db e pc hju hstep =>
        by_cases htu : t = u
        · subst htu
          have hpc : (s.worked t job c.now dir db e pc).pc t = pc := by simp
          exact .work rfl hju (hjob.trans hju) (hpc.symm ▸ workMove_of_step hstep) fun he => by
            simp [worked, he]
        · refine .same hjob (Function.update_of_ne htu _ _) (.inl ?_)
          simp only [worked]
          split
          · exact Function.update_of_ne htu _ _
          · rfl

/-! ## Told to abort -/

/-- Task `t` is a copy of `p` in flight, and has its flag still to read. -/
def InFlight (s : Daemon) (p : RelPath) (k : CacheJobKind) (t : Nat) : Prop :=
  s.jobs.known.lookup (p, k) = some (some t) ∧ (s.pc t).unread = true

instance (s : Daemon) (p : RelPath) (k : CacheJobKind) (t : Nat) : Decidable (s.InFlight p k t) :=
  inferInstanceAs (Decidable (_ ∧ _))

/-- The task will not come to a rename. -/
def Doomed (s : Daemon) (t : Nat) : Prop :=
  t < s.jobs.nextTask ∧
    ((s.jobs.jobOf t).isSome = true → (s.pc t).doomed (s.aborted t) = true)

/-- The dispatch of `p` is still to mark its copies, or the copy of task `t` has its flag. -/
def Told (s : Daemon) (p : RelPath) (k : CacheJobKind) (t : Nat) : Prop :=
  t < s.jobs.nextTask ∧
    ((s.jobs.jobOf t).isSome = true → s.jobs.known.lookup (p, k) = some (some t) ∧
      (s.pc t).begun = true ∧
        (s.watcher = some (p, .markAbort) ∨ ((s.pc t).unread = true → s.aborted t = true)))

theorem doomed_step (hi : s.Doomed t) (h : step cfg s a = some s') : s'.Doomed t := by
  obtain ⟨ht', hstep⟩ := taskStep_of_step hi.1 h
  refine ⟨ht', fun hsome => ?_⟩
  cases hstep with
  | gone hnone => rw [hnone] at hsome; exact absurd hsome (by simp)
  | same hjob hpc habort =>
    have hd := hi.2 (hjob ▸ hsome)
    rw [hpc]
    rcases habort with e | e
    · rwa [e]
    · rw [e]
      exact WorkerPc.doomed_true hd
  | work ha hjob hjob' hm habort =>
    obtain ⟨hd, he⟩ := doomed_workMove hm (hi.2 (by rw [hjob]; rfl))
    rwa [habort he]

theorem running_of_handle (hw : s.Wf) (h : s.jobs.known.lookup (p, k) = some (some t)) :
    t < s.jobs.nextTask ∧ (s.jobs.jobOf t).isSome = true := by
  obtain ⟨job, hm, -⟩ := hw.handles _ _ h
  exact ⟨hw.partition.tasks_lt _ hm,
    by rw [(Jobs.jobOf_eq_some_iff hw.partition).mpr hm]; rfl⟩

/-- The handle of a task stays in `known` until the task is gone. -/
theorem handle_step (hw : s.Wf) (hk : s.jobs.known.lookup (p, k) = some (some t))
    (h : step cfg s a = some s') (hsome : (s'.jobs.jobOf t).isSome = true) :
    s'.jobs.known.lookup (p, k) = some (some t) := by
  rcases jobs_step h with e | ⟨pa, hp, -⟩ | ⟨now, loaded, -, e⟩
  · exact e ▸ hk
  · rcases Jobs.handle_pipeStep hw.partition hw.handles hp hk with e | e
    · exact e
    · rw [e] at hsome
      exact absurd hsome (by simp)
  · rw [e, Jobs.jobOf, Jobs.running_rehydrate] at hsome
    exact absurd hsome (by simp)

/-- The dispatch of `p` waits for its turn, or marks the copies of `p` in flight. -/
theorem watcher_step (hwatch : s.watcher = some (p, .markAbort)) (h : step cfg s a = some s') :
    s'.watcher = some (p, .markAbort) ∨
      s'.aborted = markAbort s.jobs.known p s.aborted ∨ s'.jobs.running = [] := by
  cases move_of_step h with
  | event hnone => exact absurd (hnone.symm.trans hwatch) (by simp)
  | markAbort hw =>
    obtain ⟨rfl, -⟩ := Prod.mk.inj (Option.some.inj (hw.symm.trans hwatch))
    exact .inr (.inl rfl)
  | dispatch hw => exact absurd (hw.symm.trans hwatch) (by simp)
  | crash hl => exact .inr (.inr (Jobs.running_rehydrate _ _ _))
  | change | served | offer | populate | submit | expire | pop | acquire | release | work | forget
  | evictFile | evictRow | hit | touch | refresh => exact .inl hwatch

theorem told_step (hk : k ≠ .validate) (hw : s.Wf) (hi : s.Told p k t)
    (h : step cfg s a = some s') : s'.Told p k t := by
  obtain ⟨ht', hstep⟩ := taskStep_of_step hi.1 h
  refine ⟨ht', fun hsome => ?_⟩
  -- the job was there before, so the invariant speaks of it
  have hold : (s.jobs.jobOf t).isSome = true := by
    cases hstep with
    | gone hnone => rw [hnone] at hsome; exact absurd hsome (by simp)
    | same hjob => exact hjob ▸ hsome
    | work ha hjob => rw [hjob]; rfl
  obtain ⟨hknown, hbegun, htold⟩ := hi.2 hold
  refine ⟨handle_step hw hknown h hsome, ?_, ?_⟩
  · cases hstep with
    | gone hnone => rw [hnone] at hsome; exact absurd hsome (by simp)
    | same hjob hpc => rwa [hpc]
    | work ha hjob hjob' hm => exact (begun_workMove hm hbegun).1
  · rcases htold with hwatch | htold
    · rcases watcher_step hwatch h with e | e | e
      · exact .inl e
      · right
        intro
        -- `mark_abort` finds the handle under either kind of copy
        rw [e]
        cases k with
        | populate => simp [markAbort, hknown]
        | replace => simp [markAbort, hknown]
        | validate => exact absurd rfl hk
      · rw [Jobs.jobOf, e] at hsome
        exact absurd hsome (by simp)
    · right
      intro hunread
      cases hstep with
      | gone hnone => rw [hnone] at hsome; exact absurd hsome (by simp)
      | same hjob hpc habort =>
        rcases habort with e | e
        · rw [e]
          exact htold (hpc ▸ hunread)
        · exact e
      | work ha hjob hjob' hm habort =>
        rw [habort (begun_workMove hm hbegun).2]
        exact htold (unread_workMove hm hbegun hunread)

end Daemon

open Daemon

/-- A copy of `p` in flight when the watcher takes an event of `p`, with `p` cached, and
with its flag still to read when the dispatch is over: in whatever order the steps after
that come, it never gets to its rename or its `mark_cached`. -/
theorem abort_honoured {cfg : Config} {b : Backing} {dir : CacheDir} {db : CacheDb}
    {loaded : List (RelPath × Nat)} {p : RelPath} {k : CacheJobKind} {t : Nat} (hk : k ≠ .validate)
    {as bs cs : List Action} {s s₁ s₂ : Daemon}
    (hrun : run (step cfg) (start cfg b dir db loaded) as = some s) (hflight : s.InFlight p k t)
    (hcached : isCached s.dir p = true) (hevent : step cfg s (.event p) = some s₁)
    (hdispatch : run (step cfg) s₁ bs = some s₂) (hover : s₂.watcher = none)
    (hunread : s₂.InFlight p k t) :
    Along (step cfg) (fun s _ => (s.jobs.jobOf t).isSome = true → (s.pc t).committing = false) s₂ cs := by
  have hw : s.Wf := run_invariant Wf (fun _ _ _ hw hs => hw.step hs) hrun (wf_start cfg b dir db loaded)
  have htold : s₁.Told p k t := by
    cases move_of_step hevent with
    | event hnone =>
      refine ⟨(running_of_handle hw hflight.1).1, fun _ => ⟨hflight.1, ?_, .inl (if_pos hcached)⟩⟩
      have := hflight.2
      show (s.pc t).begun = true
      cases hpc : s.pc t with
      | start | promote => rw [hpc] at this; exact absurd this (by simp [WorkerPc.unread])
      | _ => rfl
  have keep : ∀ s a s', s.Wf ∧ s.Told p k t → step cfg s a = some s' → s'.Wf ∧ s'.Told p k t :=
    fun s a s' hi hs => ⟨hi.1.step hs, told_step hk hi.1 hi.2 hs⟩
  obtain ⟨hw₂, ht₂⟩ := run_invariant _ keep hdispatch ⟨hw.step hevent, htold⟩
  have hdoomed : s₂.Doomed t := by
    refine ⟨ht₂.1, fun hsome => ?_⟩
    rcases (ht₂.2 hsome).2.2 with e | e
    · rw [hover] at e
      exact absurd e (by simp)
    · rw [e hunread.2]
      exact WorkerPc.doomed_of_unread hunread.2
  refine Along.of_invariant (fun s => s.Wf ∧ s.Doomed t) ?_ ?_
    (Along.of_forall fun _ _ => trivial) ⟨hw₂, hdoomed⟩
  · exact fun s a s' hi _ hs => ⟨hi.1.step hs, doomed_step hi.2 hs⟩
  · exact fun s a hi _ hsome => WorkerPc.not_committing (hi.2.2 hsome)

/-! ## A first population -/

section NotTold

private def take : Name := ⟨[116, 97], Eq.refl true⟩

def oneSlot : Config := ⟨[109], 60, 1⟩

def takeStart : Daemon := start oneSlot Backing.empty Files.empty ⟨∅, ∅⟩ []

/-- The file is created, and its population gets in flight. -/
def underway : List Action :=
  .change (.replace [take] (.pair 80 81 1)) :: requested [take] ++ turns 1 3

/-- The creation is dispatched while the copy is in flight, and the copy commits. -/
theorem first_copy_not_told : ∃ s s₁ s₂,
    run (step oneSlot) takeStart underway = some s ∧ s.pending [take] = true ∧
    s.InFlight [take] .populate 1 ∧ step oneSlot s (.event [take]) = some s₁ ∧
    s₁.watcher = none ∧ s₁.InFlight [take] .populate 1 ∧
    run (step oneSlot) s₁ (turns 1 15) = some s₂ ∧ (s₂.dir.fileAt [take]).isSome = true ∧
    (s₂.db.row [take] oneSlot.mount).isSome = true := by
  have hrun : ((run (step oneSlot) takeStart underway).any fun s =>
      s.pending [take] && decide (s.InFlight [take] .populate 1) &&
        (step oneSlot s (.event [take])).any fun s₁ =>
          decide (s₁.watcher = none) && decide (s₁.InFlight [take] .populate 1) &&
            (run (step oneSlot) s₁ (turns 1 15)).any fun s₂ =>
              (s₂.dir.fileAt [take]).isSome && (s₂.db.row [take] oneSlot.mount).isSome) = true := by
    decide +kernel
  obtain ⟨s, h, hs⟩ := (Option.any_eq_true _ _).mp hrun
  simp only [Bool.and_eq_true, decide_eq_true_eq] at hs
  obtain ⟨s₁, h₁, hs₁⟩ := (Option.any_eq_true _ _).mp hs.2
  simp only [Bool.and_eq_true, decide_eq_true_eq] at hs₁
  obtain ⟨s₂, h₂, hs₂⟩ := (Option.any_eq_true _ _).mp hs₁.2
  rw [Bool.and_eq_true] at hs₂
  exact ⟨s, s₁, s₂, h, hs.1.1, hs.1.2, h₁, hs₁.1.1, hs₁.1.2, h₂, hs₂.1, hs₂.2⟩

/-- The file is cached, changes, and its Replace gets in flight. -/
def replaceUnderway : List Action :=
  underway ++ turns 1 16 ++ [.forget [take], .release,
    .change (.replace [take] (.pair 90 91 2)), .submit [take] .validate 9, .pop false] ++
    turns 2 4 ++ [.pop true, .acquire] ++ turns 3 3

theorem replace_is_told : ∃ s s₁ s₂, run (step oneSlot) takeStart replaceUnderway = some s ∧
    step oneSlot s (.event [take]) = some s₁ ∧
    run (step oneSlot) s₁ [.dispatch 9, .dispatch 9] = some s₂ ∧
    (run (step oneSlot) s₂ (turns 3 14)).isSome = true ∧
    Along (step oneSlot) (fun s _ => (s.jobs.jobOf 3).isSome = true → (s.pc 3).committing = false)
      s₂ (turns 3 14) := by
  have hrun : ((run (step oneSlot) takeStart replaceUnderway).any fun s =>
      isCached s.dir [take] && decide (s.InFlight [take] .replace 3) &&
        (step oneSlot s (.event [take])).any fun s₁ =>
          (run (step oneSlot) s₁ [.dispatch 9, .dispatch 9]).any fun s₂ =>
            decide (s₂.watcher = none) && decide (s₂.InFlight [take] .replace 3) &&
              (run (step oneSlot) s₂ (turns 3 14)).isSome) = true := by
    decide +kernel
  obtain ⟨s, h, hs⟩ := (Option.any_eq_true _ _).mp hrun
  simp only [Bool.and_eq_true, decide_eq_true_eq] at hs
  obtain ⟨s₁, h₁, hs₁⟩ := (Option.any_eq_true _ _).mp hs.2
  obtain ⟨s₂, h₂, hs₂⟩ := (Option.any_eq_true _ _).mp hs₁
  simp only [Bool.and_eq_true, decide_eq_true_eq] at hs₂
  exact ⟨s, s₁, s₂, h, h₁, h₂, hs₂.2,
    abort_honoured (by decide) h hs.1.2 hs.1.1 h₁ h₂ hs₂.1.1 hs₂.1.2⟩

end NotTold

end FsCache
