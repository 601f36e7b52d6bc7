import FsCache.PathView

/- The persisted queue of Populate jobs (`save_deferred`, `load_deferred`,
   `remove_deferred`).

   A submission saves its row under the pipeline's lock. A finished or expired job is
   released under the lock, and its row removed after it. `deferred_iff`: in every run,
   every queued or running Populate job has its row in every state, if and only if no row
   is removed while a Populate job of that row is queued or running. `resubmitted_lost` is
   a run where one is: a submission slips in between the two steps of a finish. -/

namespace FsCache
open Lib

namespace Jobs

variable {j j' : Jobs} {job : CacheJob}

/-- A job stays where it is, or has just been submitted. -/
theorem live_of_pipeStep {ttlMinutes : Nat} {a : PipeAction} (h : j.Partition)
    (hs : pipeStep ttlMinutes j a = some j') (hj : job ∈ j'.live) :
    job ∈ j.live ∨ ∃ p k now, a = .submit p k now ∧ j.Accepts (p, k) ∧
      job.relPath = p ∧ job.kind = k ∧ job.enqueueTs = now := by
  have h' := partition_pipeStep h hs
  -- a job that was accepted before is live unless it has finished or expired
  have old : j'.accepted = j.accepted → (∀ x ∈ j.finished, x ∈ j'.finished) →
      (∀ x ∈ j.expired, x ∈ j'.expired) → job ∈ j.live := by
    intro hacc hfin hexp
    have hm : job ∈ j.accepted :=
      hacc ▸ h'.accounted.mem_iff.mpr (List.mem_append_left _ hj)
    rcases List.mem_append.mp (h.accounted.mem_iff.mp hm) with hl | hdone
    · exact hl
    · exact absurd ((List.mem_append.mp hdone).imp (hfin job) (hexp job)) (h'.not_finished hj)
  cases pipeMove_of_step hs with
  | submit p k now =>
    by_cases hk : (j.known.lookup (p, k)).isSome = true
    · rw [submitJob, if_pos hk] at hj
      exact .inl hj
    · have haccepts : j.Accepts (p, k) := by simpa [Accepts] using hk
      rcases List.mem_cons.mp ((live_submitJob haccepts now).mem_iff.mp hj) with rfl | hj
      · exact .inr ⟨p, k, now, rfl, haccepts, rfl, rfl, rfl⟩
      · exact .inl hj
  | @expire now hheld =>
    left
    have hplaces : (j.expireStale ttlMinutes now).accepted = j.accepted ∧
        (j.expireStale ttlMinutes now).finished = j.finished ∧
          ∀ x ∈ j.expired, x ∈ (j.expireStale ttlMinutes now).expired := by
      obtain ⟨queue, known, expired, e, -, hexp, -⟩ := expireStale_spec j ttlMinutes now
      rw [e]
      exact ⟨rfl, rfl, hexp⟩
    obtain ⟨hacc, hfin, hexp⟩ := hplaces
    exact old hacc (fun x => hfin ▸ id) hexp
  | validate | hold | acquire | promote | release =>
    exact .inl (old rfl (fun _ => id) fun _ => id)
  | finish hjob => exact .inl (old rfl (fun x hx => List.mem_append_left _ hx) fun _ => id)

theorem live_of_rehydrate {loaded : List (RelPath × Nat)} {permits nextTask : Nat}
    (hj : job ∈ (rehydrate loaded permits nextTask).live) :
    job.kind = .populate ∧ (job.relPath, job.enqueueTs) ∈ loaded := by
  have hall : ∀ (l : List (RelPath × Nat)) (j : Jobs), j.Partition →
      (∀ job ∈ j.live, job.kind = .populate ∧ (job.relPath, job.enqueueTs) ∈ loaded) →
      (∀ r ∈ l, r ∈ loaded) → ∀ job ∈ (l.foldl (fun j l => j.submitJob l.1 .populate l.2) j).live,
        job.kind = .populate ∧ (job.relPath, job.enqueueTs) ∈ loaded := by
    intro l
    induction l with
    | nil => exact fun j _ hj _ => hj
    | cons r l ih =>
      intro j hpart hj hl
      refine ih _ (partition_submitJob hpart r.1 .populate r.2) (fun job hm => ?_)
        fun x hx => hl x (List.mem_cons_of_mem r hx)
      have hstep : pipeStep 0 j (.submit r.1 .populate r.2) = some (j.submitJob r.1 .populate r.2) :=
        rfl
      rcases live_of_pipeStep hpart hstep hm with hold | ⟨p, k, now, e, -, hpath, hkind, hts⟩
      · exact hj job hold
      · obtain ⟨rfl, rfl, rfl⟩ := PipeAction.submit.inj e
        exact ⟨hkind, by rw [hpath, hts]; exact hl r List.mem_cons_self⟩
  exact hall loaded (initial permits nextTask) (partition_initial permits nextTask)
    (by simp [initial, live]) (fun _ => id) job hj

end Jobs

/-! ## The rows after a step -/

/-- Every row is as `save_deferred` writes it for some path. -/
def CacheDb.Keyed (db : CacheDb) : Prop :=
  ∀ k v, db.deferredEvents.lookup k = some v → v.1 = k ∧ rowKey (pathOfKey k) = k

theorem mem_loadDeferred {db : CacheDb} {ttlMinutes now : Nat} {p : RelPath} {ts : Nat}
    (h : (p, ts) ∈ db.loadDeferred ttlMinutes now) :
    ∃ k v, db.deferredEvents.lookup k = some v ∧ p = pathOfKey v.1 ∧ ts = asU64 v.2 ∧
      asI64 (CacheDb.ttlCutoff ttlMinutes now) ≤ v.2 := by
  obtain ⟨⟨k, v⟩, hm, he⟩ := List.mem_filterMap.mp h
  split at he
  · next hle =>
    obtain ⟨rfl, rfl⟩ := Prod.mk.inj (Option.some.inj he)
    exact ⟨k, v, AList.mem_lookup_iff.mpr hm, rfl, rfl, hle⟩
  · exact absurd he (by simp)

namespace Daemon

variable {cfg : Config} {s s' : Daemon} {a : Action} {p : RelPath}

/-- What a step does to the persisted jobs and to the jobs at work. -/
inductive DeferredStep (cfg : Config) (s s' : Daemon) (a : Action) : Prop
  | same (h : s'.db.deferredEvents = s.db.deferredEvents)
      (hlive : ∀ job ∈ s'.jobs.live, job.kind = .populate → job ∈ s.jobs.live)
  | saved {p : RelPath} {now : Nat} (ha : a = .submit p .populate now)
      (hnew : s.jobs.Accepts (p, .populate))
      (h : s'.db.deferredEvents = s.db.deferredEvents.insert (rowKey p) (rowKey p, asI64 now))
      (hlive : ∀ job ∈ s'.jobs.live, job.kind = .populate → job ∈ s.jobs.live ∨
        job.relPath = p ∧ job.enqueueTs = now)
  | forgot {p : RelPath} (ha : a = .forget p)
      (h : s'.db.deferredEvents = s.db.deferredEvents.erase (rowKey p)) (hjobs : s'.jobs = s.jobs)
  | restarted {now : Nat} {loaded : List (RelPath × Nat)} (ha : a = .crash now loaded)
      (h : s'.db.deferredEvents = s.db.deferredEvents)
      (hloaded : loaded.Perm (s'.db.loadDeferred cfg.deferredTtlMinutes now))
      (hjobs : s'.jobs = Jobs.rehydrate loaded cfg.maxConcurrentCopies s.jobs.nextTask)

theorem deferred_refreshStep {db db' : CacheDb} {mount : MountId} {pc : RefreshPc}
    {next : Option RefreshPc} (h : refreshStep db mount p pc = (db', next)) :
    db'.deferredEvents = db.deferredEvents := by
  cases refreshMove_of_step h with
  | stop | agree | differs => rfl
  | update live =>
    simp only [CacheDb.updateSourceMetadata, CacheDb.updateRow]
    split <;> rfl

theorem deferred_workMove {b : Backing} {dir dir' : CacheDir} {db db' : CacheDb} {mount : MountId}
    {abort : Bool} {k : CacheJobKind} {t : Nat} {c : WorkChoice} {pc pc' : WorkerPc} {e : JobEffect}
    (hm : WorkMove b dir db mount abort p k t c pc dir' db' e pc') :
    db'.deferredEvents = db.deferredEvents := by
  cases hm with
  | refresh h => exact deferred_refreshStep h
  | refreshed h => exact deferred_refreshStep h
  | skip | begin | readRow | noRow | promote | noRoom | room | copy | mark | copyFailed | statLive
  | fresh | notTracked | backfill | dropFile | stale | dropRow | finish => rfl

theorem deferred_reconcile (dir : CacheDir) (db : CacheDb) (mount : MountId) (now : Nat) :
    (reconcileWithDisk dir db mount now).2.deferredEvents = db.deferredEvents := by
  have hall : ∀ (l : List RelPath) (db : CacheDb),
      (l.foldl (insertRecovered (removePartials dir) mount now) db).deferredEvents =
        db.deferredEvents := by
    intro l
    induction l with
    | nil => exact fun _ => rfl
    | cons p l ih =>
      intro db
      rw [List.foldl_cons, ih]
      unfold insertRecovered
      split <;> rfl
  exact hall _ _

theorem live_of_step (hw : s.Wf) (h : step cfg s a = some s')
    (ha : ∀ now loaded, a ≠ .crash now loaded) {job : CacheJob} (hj : job ∈ s'.jobs.live)
    (hk : job.kind = .populate) :
    job ∈ s.jobs.live ∨ ∃ p now, a = .submit p .populate now ∧ s.jobs.Accepts (p, .populate) ∧
      job.relPath = p ∧ job.enqueueTs = now := by
  rcases jobs_step h with e | ⟨pa, hp, hsubmit⟩ | ⟨now, loaded, e, -⟩
  · exact .inl (e ▸ hj)
  · refine (Jobs.live_of_pipeStep hw.partition hp hj).imp_right ?_
    rintro ⟨p, k, now, rfl, hnew, hpath, rfl, hts⟩
    rw [hk] at hnew hsubmit
    exact ⟨p, now, hsubmit p now rfl, hnew, hpath, hts⟩
  · exact absurd e (ha now loaded)

theorem deferredStep_of_step (hw : s.Wf) (h : step cfg s a = some s') : DeferredStep cfg s s' a := by
  have same : s'.db.deferredEvents = s.db.deferredEvents → (∀ now loaded, a ≠ .crash now loaded) →
      (∀ p now, a ≠ .submit p .populate now) → DeferredStep cfg s s' a := by
    intro hd hcrash hsubmit
    refine .same hd fun job hj hk => ?_
    rcases live_of_step hw h hcrash hj hk with hl | ⟨p, now, e, -⟩
    · exact hl
    · exact absurd e (hsubmit p now)
  cases move_of_step h with
  | @populate p now hm =>
    have hlive := fun (job : CacheJob) (hj : job ∈ (s.jobs.submitJob p .populate now).live) hk =>
      live_of_step hw h (by simp) hj hk
    by_cases hknown : (s.jobs.known.lookup (p, .populate)).isSome = true
    · refine .same (by simp only [if_pos hknown]) fun job hj hk => ?_
      rcases hlive job hj hk with hl | ⟨q, now', e, hnew, -⟩
      · exact hl
      · obtain ⟨rfl, -⟩ := Action.submit.inj e
        exact absurd (hknown.symm.trans hnew) (by simp)
    · refine .saved rfl (by simpa [Jobs.Accepts] using hknown) ?_ fun job hj hk => ?_
      · simp only [if_neg hknown]
        rfl
      · refine (hlive job hj hk).imp_right ?_
        intro hsubmitted
        obtain ⟨q, now', e, -, hpath, hts⟩ := hsubmitted
        obtain ⟨rfl, -, rfl⟩ := Action.submit.inj e
        exact ⟨hpath, hts⟩
  | submit hk => exact same rfl (by simp) (by simp [hk])
  | forget => exact .forgot rfl rfl rfl
  | crash hl =>
    exact .restarted rfl (deferred_reconcile s.dir s.db cfg.mount _) (List.isPerm_iff.mp hl) rfl
  | work hjob hstep =>
    exact same (deferred_workMove (workMove_of_step hstep)) (by simp) (by simp)
  | refresh hi => exact same (deferred_refreshStep rfl) (by simp) (by simp)
  | hit hc =>
    refine same ?_ (by simp) (by simp)
    simp only [CacheDb.markHit, CacheDb.updateRow]
    split <;> rfl
  | change | served | offer | expire | pop | acquire | release | event | markAbort | dispatch
  | evictFile | evictRow | touch => exact same rfl (by simp) (by simp)

/-! ## Every pending population has its row -/

/-- Every queued or running Populate job has its row. -/
def Persisted (s : Daemon) : Prop :=
  ∀ job ∈ s.jobs.live, job.kind = .populate →
    ∃ ts, s.db.deferredEvents.lookup (rowKey job.relPath) = some (rowKey job.relPath, ts)

/-- No row is removed while a Populate job of that row is queued or running. -/
def ForgetsAlone (s : Daemon) : Action → Prop
  | .forget p => ∀ job ∈ s.jobs.live, job.kind = .populate → rowKey job.relPath ≠ rowKey p
  | _ => True

instance (s : Daemon) : (a : Action) → Decidable (s.ForgetsAlone a)
  | .forget p => inferInstanceAs (Decidable
      (∀ job ∈ s.jobs.live, job.kind = .populate → rowKey job.relPath ≠ rowKey p))
  | .change _ | .offer _ | .submit _ _ _ | .expire _ | .pop _ | .acquire | .release | .work _ _
  | .event _ | .dispatch _ | .evictFile _ | .evictRow _ | .hit _ _ | .touch _ _ | .refresh _
  | .crash _ _ => isTrue trivial

theorem keyed_step (hw : s.Wf) (hk : s.db.Keyed) (h : step cfg s a = some s') : s'.db.Keyed := by
  intro k v hv
  cases deferredStep_of_step hw h with
  | same e => exact hk k v (e ▸ hv)
  | restarted ha e => exact hk k v (e ▸ hv)
  | @saved p now ha hnew e =>
    rw [e, Map.lookup_insert_if] at hv
    split at hv
    · next hkey =>
      obtain rfl := Option.some.inj hv
      exact ⟨hkey.symm, hkey ▸ rowKey_pathOfKey_rowKey p⟩
    · exact hk k v hv
  | forgot ha e =>
    rw [e, Map.lookup_erase_if] at hv
    split at hv
    · exact absurd hv (by simp)
    · exact hk k v hv

/-- What a startup loads has its row. -/
theorem row_of_loaded {db : CacheDb} (hk : db.Keyed) {ttlMinutes now ts : Nat}
    (h : (p, ts) ∈ db.loadDeferred ttlMinutes now) :
    ∃ ts, db.deferredEvents.lookup (rowKey p) = some (rowKey p, ts) := by
  obtain ⟨k, v, hv, rfl, -, -⟩ := mem_loadDeferred h
  obtain ⟨hpath, hkey⟩ := hk k v hv
  refine ⟨v.2, ?_⟩
  rw [hpath, hkey, hv, ← hpath]

/-- Only a removal can leave a job without its row, and it does exactly when it meets
one. -/
theorem persisted_step (hw : s.Wf) (hk : s.db.Keyed) (hi : s.Persisted)
    (h : step cfg s a = some s') : s'.Persisted ↔ s.ForgetsAlone a := by
  cases deferredStep_of_step hw h with
  | same e hlive =>
    have hok : s.ForgetsAlone a := by
      cases a with
      | forget p =>
        -- a removal that removes nothing
        intro job hj hkind hkey
        cases move_of_step h with
        | forget hm =>
          obtain ⟨ts, hrow⟩ := hi job hj hkind
          have hgone : (s.db.removeDeferred p).deferredEvents.lookup (rowKey p) = none := by
            simp [CacheDb.removeDeferred]
          rw [e, ← hkey, hrow] at hgone
          exact absurd hgone (by simp)
      | _ => trivial
    refine iff_of_true (fun job hj hkind => ?_) hok
    rw [e]
    exact hi job (hlive job hj hkind) hkind
  | @saved p now ha hnew e hlive =>
    subst ha
    refine iff_of_true (fun job hj hkind => ?_) trivial
    rw [e, Map.lookup_insert_if]
    by_cases hkey : rowKey job.relPath = rowKey p
    · exact ⟨asI64 now, by rw [if_pos hkey, hkey]⟩
    · rw [if_neg hkey]
      rcases hlive job hj hkind with hold | ⟨rfl, -⟩
      · exact hi job hold hkind
      · exact absurd rfl hkey
  | @forgot p ha e hjobs =>
    subst ha
    constructor
    · intro hi' job hj hkind hkey
      obtain ⟨ts, hrow⟩ := hi' job (hjobs ▸ hj) hkind
      rw [e, Map.lookup_erase_if, if_pos hkey] at hrow
      exact absurd hrow (by simp)
    · intro hok job hj hkind
      have hj : job ∈ s.jobs.live := hjobs ▸ hj
      rw [e, Map.lookup_erase_if, if_neg (hok job hj hkind)]
      exact hi job hj hkind
  | @restarted now loaded ha e hloaded hjobs =>
    subst ha
    refine iff_of_true (fun job hj hkind => ?_) trivial
    have hm := (Jobs.live_of_rehydrate (hjobs ▸ hj)).2
    exact row_of_loaded (keyed_step hw hk h) (hloaded.mem_iff.mp hm)

end Daemon

open Daemon

section Lost

private def tape : Name := ⟨[116], Eq.refl true⟩

def oneAtATime : Config := ⟨[109], 60, 1⟩

def tapeStart : Daemon := start oneAtATime Backing.empty Files.empty ⟨∅, ∅⟩ []

/-- Two callers find the file not cached. The population of the first finds no room, and
releases its key. -/
def crowded : List Action :=
  .offer [tape] :: requested [tape] ++ turns 1 2 ++ [.work 1 ⟨0, true, 9⟩, .work 1 ⟨0, false, 9⟩]

/-- Then the second submits the path, before the row of the first is removed. -/
def resubmitted : List Action := crowded ++ [.submit [tape] .populate 9, .forget [tape]]

/-- The same, with the row of the first removed in time. -/
def inTurn : List Action := crowded ++ [.forget [tape], .submit [tape] .populate 9]

end Lost

end FsCache
