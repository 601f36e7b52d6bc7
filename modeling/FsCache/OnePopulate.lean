import FsCache.PathView

/- At most one successful population.

   `Phase.spent` is the invariant: once a Populate copy of `p` has committed, and as
   long as `p` is cached, a Populate worker of `p` is at its start, at its end, or is
   the one that has committed. `populates_once`: from the commit on no Populate copy
   of `p` commits, and every Populate worker of `p` goes from its start to its end,
   where it releases its key and its deferred row. -/

namespace FsCache
open Lib

/-- Where a Populate worker can be after the commit of task `t₀`. -/
def Phase.spent (t₀ : Nat) : Phase → Prop
  | .running t _ pc => pc = .start ∨ pc = .finish ∨ t = t₀ ∧ ∃ snapshot, pc = .copy (.ok snapshot)
  | _ => True

namespace Daemon

/-- The copy whose rename this action completes. -/
def committed (s : Daemon) : Action → Option JobKey
  | .work t c =>
    match s.jobs.jobOf t, s.pc t with
    | some job, .copy (.rename ctx snapshot) =>
      match copyStep s.backing s.dir (s.aborted t) job.relPath t c.copy (.rename ctx snapshot) with
      | some (_, .ok _) => some job.key
      | _ => none
    | _, _ => none
  | _ => none

/-- A step of a Populate worker of `p` copies nothing: from its start it goes to its
end, and there it releases its key and goes on to its deferred row, which is then
removed. The one exception is task `t₀`, which has its row still to write. -/
def Winds (cfg : Config) (p : RelPath) (t₀ : Nat) (s : Daemon) : Action → Prop
  | .work t c =>
    ∀ job, s.jobs.jobOf t = some job → job.key = (p, .populate) →
      ∃ s', step cfg s (.work t c) = some s' ∧ s'.dir = s.dir ∧
        ((s.pc t = .start ∧ s'.pc t = .finish ∧ s'.db = s.db) ∨
          (s.pc t = .finish ∧ s'.jobs.jobOf t = none ∧
            s'.jobs.known.lookup (p, .populate) = none ∧ p ∈ s'.forgetting) ∨
          (t = t₀ ∧ s'.pc t = .finish ∧
            ∃ snapshot, s.pc t = .copy (.ok snapshot) ∧
              s'.db = s.db.markCached p cfg.mount snapshot c.now))
  | .forget q =>
    q = p → p ∈ s.forgetting →
      ∃ s', step cfg s (.forget q) = some s' ∧ s'.db.deferredEvents.lookup (rowKey p) = none
  | _ => True

end Daemon

/-! ## The invariant -/

section Moves

variable {cfg : Config} {p : RelPath} {clear tidy : Prop} {v v' : PathView} {a : Action} {t₀ : Nat}

/-- While `p` is cached, no Populate worker of it gets past its start. -/
theorem spent_move (hi : (v.phase .populate).spent t₀) (hcached : isCached v.dir p = true)
    (hm : PathMove cfg p clear tidy v a v') : (v'.phase .populate).spent t₀ := by
  cases hm.phase .populate with
  | keep h => exact h ▸ hi
  | idle h => rcases h with h | h <;> exact h ▸ trivial
  | spawn h => exact h ▸ .inl rfl
  | abort h h' =>
    rw [h] at hi
    exact h' ▸ hi
  | @work t c abort abort' pc pc' dir' db' e ha h hm hstep h' =>
    rw [h] at hi
    rw [h']
    rcases hi with rfl | rfl | ⟨rfl, snapshot, rfl⟩
    · -- the worker's own check sees the file
      simp only [workerStep, hcached, if_true, Option.some.injEq, Prod.mk.injEq] at hstep
      exact .inr (.inl hstep.2.2.2.symm)
    · cases hm with
      | finish => exact .inr (.inl rfl)
    · cases hm with
      | mark => exact .inr (.inl rfl)
      | copy hc => cases hc

end Moves

namespace Daemon

variable {cfg : Config} {s s' : Daemon} {a : Action} {p : RelPath} {t₀ : Nat}

/-- Right after the commit its worker has the row still to write, and `p` is cached. -/
theorem spent_of_committed (hw : s.Wf) (hp : extension p ≠ some partialExt) {c : WorkChoice}
    (hc : s.committed (.work t₀ c) = some (p, .populate))
    (h : step cfg s (.work t₀ c) = some s') :
    ((s'.view p).phase .populate).spent t₀ ∧ isCached s'.dir p = true := by
  simp only [committed] at hc
  split at hc
  · next job ctx snapshot hjob hpc =>
    split at hc
    · next dir' snapshot' hstep =>
      obtain ⟨rfl, hk⟩ : job.relPath = p ∧ job.kind = .populate := Prod.mk.inj (Option.some.inj hc)
      simp only [step, hjob, hpc, workerStep, hstep, Option.some.injEq] at h
      subst h
      constructor
      · rw [view_worked hw hjob, hk]
        exact .inr (.inr ⟨rfl, snapshot', rfl⟩)
      · cases copyMove_of_step hstep with
        | rename hr =>
          obtain ⟨i, hi, -⟩ := Files.rename_spec hr
          have hfile : dir'.fileAt job.relPath = some i := by
            rw [Files.fileAt_rename hr, if_pos rfl, hi]
          exact isCached_of_fileAt hfile hp
    · exact absurd hc (by simp)
  · exact absurd hc (by simp)

theorem jobOf_finish (j : Jobs) (t : Nat) (job : CacheJob) : (j.finish t job).jobOf t = none := by
  simp only [Jobs.jobOf, Jobs.finish]
  rw [List.lookup_eq_none_iff]
  intro r hr
  have hne : r.1 ≠ t := of_decide_eq_true (List.mem_filter.mp hr).2
  simpa using Ne.symm hne

theorem winds_of_spent (hw : s.Wf) (hi : ((s.view p).phase .populate).spent t₀)
    (hcached : isCached s.dir p = true) (a : Action) : Winds cfg p t₀ s a := by
  cases a with
  | work t c =>
    intro job hjob hkey
    obtain ⟨rfl, hk⟩ : job.relPath = p ∧ job.kind = .populate := Prod.mk.inj hkey
    have hphase : (s.view job.relPath).phase .populate = .running t (s.aborted t) (s.pc t) :=
      (phase_eq_running_iff hw).mpr ⟨job, hjob, hkey, rfl, rfl⟩
    rw [hphase] at hi
    rcases hi with hpc | hpc | ⟨rfl, snapshot, hpc⟩
    · refine ⟨s.worked t job c.now s.dir s.db .none .finish, ?_, rfl, .inl ⟨hpc, by simp, rfl⟩⟩
      simp only [step, hjob, hpc, workerStep, hk, hcached, if_true]
    · refine ⟨s.worked t job c.now s.dir s.db .finish .finish, ?_, rfl,
        .inr (.inl ⟨hpc, jobOf_finish _ _ _, ?_, ?_⟩)⟩
      · simp only [step, hjob, hpc, workerStep]
      · simp only [worked, Jobs.finish, hkey, Map.lookup_erase_if, if_true]
      · simp only [worked, hk, and_self, if_true]
        exact List.mem_cons_self
    · refine ⟨s.worked t job c.now s.dir (s.db.markCached job.relPath cfg.mount snapshot c.now)
        .none .finish, ?_, rfl, .inr (.inr ⟨rfl, by simp, snapshot, hpc, rfl⟩)⟩
      simp only [step, hjob, hpc, workerStep]
  | forget q =>
    rintro rfl hm
    refine ⟨_, if_pos hm, ?_⟩
    simp only [CacheDb.removeDeferred, Map.lookup_erase_if, if_true]
  | change | offer | submit | expire | pop | acquire | release | event | dispatch | evictFile
  | evictRow | hit | touch | refresh | crash => trivial

theorem not_committed_of_spent (hw : s.Wf) (hi : ((s.view p).phase .populate).spent t₀)
    (a : Action) : s.committed a ≠ some (p, .populate) := by
  intro hc
  cases a with
  | work t c =>
    simp only [committed] at hc
    split at hc
    · next job ctx snapshot hjob hpc =>
      split at hc
      · have hkey : job.key = (p, .populate) := Option.some.inj hc
        have hphase : (s.view p).phase .populate = .running t (s.aborted t) (s.pc t) :=
          (phase_eq_running_iff hw).mpr ⟨job, hjob, hkey, rfl, rfl⟩
        rw [hphase, hpc] at hi
        rcases hi with e | e | ⟨-, snapshot, e⟩ <;> exact absurd e (by simp)
      · exact absurd hc (by simp)
    · exact absurd hc (by simp)
  | change | offer | submit | expire | pop | acquire | release | forget | event | dispatch
  | evictFile | evictRow | hit | touch | refresh | crash => exact absurd hc (by simp [committed])

end Daemon

open Daemon

/-- After a Populate copy of `p` has committed, and as long as `p` is cached: no other
one commits, and every Populate job of `p` ends without copying, with its key and its
deferred row released. -/
theorem populates_once {cfg : Config} {b : Backing} {dir : CacheDir} {db : CacheDb}
    {loaded : List (RelPath × Nat)} {p : RelPath} (hp : extension p ≠ some partialExt)
    {as bs : List Action} {s s₁ : Daemon} {t₀ : Nat} {c : WorkChoice}
    (hrun : run (step cfg) (start cfg b dir db loaded) as = some s)
    (hcommit : s.committed (.work t₀ c) = some (p, .populate))
    (hstep : step cfg s (.work t₀ c) = some s₁)
    (hkept : Along (step cfg) (fun s _ => isCached s.dir p = true) s₁ bs) :
    Along (step cfg) (fun s a => s.committed a ≠ some (p, .populate) ∧ Winds cfg p t₀ s a) s₁ bs := by
  have hw : s.Wf := run_invariant Wf (fun _ _ _ hw hs => hw.step hs) hrun (wf_start cfg b dir db loaded)
  have keep : ∀ s a s', s.Wf ∧ ((s.view p).phase .populate).spent t₀ →
      isCached s.dir p = true → step cfg s a = some s' →
      s'.Wf ∧ ((s'.view p).phase .populate).spent t₀ := by
    intro s a s' ⟨hw, hspent⟩ hcached hs
    have hm : PathMove cfg p False False (s.view p) a (s'.view p) :=
      pathMove_of_step hw (fun f => f.elim) (fun f => f.elim) hs
    exact ⟨hw.step hs, spent_move hspent hcached hm⟩
  refine Along.of_invariant _ keep ?_ hkept ⟨hw.step hstep, (spent_of_committed hw hp hcommit hstep).1⟩
  rintro s a ⟨hw, hspent⟩ hcached
  exact ⟨not_committed_of_spent hw hspent a, winds_of_spent hw hspent hcached a⟩

/-! ## A submission that slips past the commit -/

section Once

private def song : Name := ⟨[115, 111, 110, 103], Eq.refl true⟩

def onePermit : Config := ⟨[109], 60, 1⟩

def songStart : Daemon :=
  start onePermit (Backing.empty.replaceFile [song] (.pair 80 81 1)) Files.empty ⟨∅, ∅⟩
    []

/-- Two callers find the file not cached, one of them submits it, and its copy is about
to rename. -/
def copied : List Action := .offer [song] :: requested [song] ++ turns 1 16

/-- The other caller submits it once the first population has finished. -/
def slipped : List Action :=
  turns 1 2 ++ [.forget [song], .submit [song] .populate 9, .release, .pop true, .acquire] ++
    turns 2 2 ++ [.forget [song]]

theorem second_population_ends : ∃ s s₁ s₂,
    run (step onePermit) songStart copied = some s ∧
    step onePermit s (.work 1 ⟨0, false, 9⟩) = some s₁ ∧
    run (step onePermit) s₁ slipped = some s₂ ∧
    s₂.jobs.finished.length = 2 ∧ s₂.db.deferredEvents.lookup (rowKey [song]) = none ∧
    Along (step onePermit)
      (fun s a => s.committed a ≠ some ([song], .populate) ∧ Winds onePermit [song] 1 s a)
      s₁ slipped := by
  have hrun : ((run (step onePermit) songStart copied).any fun s =>
      s.committed (.work 1 ⟨0, false, 9⟩) = some ([song], .populate) &&
        (step onePermit s (.work 1 ⟨0, false, 9⟩)).any fun s₁ =>
          decide (Along (step onePermit) (fun s _ => isCached s.dir [song] = true) s₁ slipped) &&
            (run (step onePermit) s₁ slipped).any fun s₂ =>
              s₂.jobs.finished.length = 2 &&
                decide (s₂.db.deferredEvents.lookup (rowKey [song]) = none)) = true := by
    decide +kernel
  obtain ⟨s, h, hs⟩ := (Option.any_eq_true _ _).mp hrun
  rw [Bool.and_eq_true, decide_eq_true_iff] at hs
  obtain ⟨s₁, h₁, hs₁⟩ := (Option.any_eq_true _ _).mp hs.2
  rw [Bool.and_eq_true, decide_eq_true_iff] at hs₁
  obtain ⟨s₂, h₂, hs₂⟩ := (Option.any_eq_true _ _).mp hs₁.2
  simp only [Bool.and_eq_true, decide_eq_true_eq] at hs₂
  exact ⟨s, s₁, s₂, h, h₁, h₂, hs₂.1, hs₂.2, populates_once (by decide) h hs.1 h₁ hs₁.1⟩

end Once

end FsCache
