import Mathlib.Data.List.Find
import FsCache.Pipeline

/- Where the job of one key is.

   At most one job of a key is accepted and not yet finished, so a key has a
   phase: nothing, waiting (in the queue, or for a permit), or running as some
   task. Each operation of the pipeline is described by what it does to the
   phases; the invariants over the daemon's runs are stated over phases, and
   never look into the queue again.

   `Handles` says that an abort handle in `known` is the task that runs the job
   of that key, which is what `mark_abort` relies on. -/

namespace FsCache
open Lib

inductive JobPhase where
  | absent
  | waiting
  | running (t : Nat)
  deriving DecidableEq

namespace Jobs

def phase (j : Jobs) (key : JobKey) : JobPhase :=
  match j.running.find? fun r => r.2.key = key with
  | some r => .running r.1
  | none => if (j.known.lookup key).isSome then .waiting else .absent

variable {j j' : Jobs} {key : JobKey} {t : Nat} {job : CacheJob}

theorem jobOf_eq_some_iff (h : j.Partition) : j.jobOf t = some job ↔ (t, job) ∈ j.running := by
  refine ⟨mem_running, fun hm => ?_⟩
  have hnd := h.tasks
  unfold jobOf
  generalize j.running = l at hm hnd
  induction l with
  | nil => exact absurd hm (by simp)
  | cons r l ih =>
    rw [List.map_cons, List.nodup_cons] at hnd
    rw [List.lookup_cons]
    rcases List.mem_cons.mp hm with rfl | hm
    · simp
    · have hne : t ≠ r.1 := by
        rintro rfl
        exact hnd.1 (List.mem_map.mpr ⟨_, hm, rfl⟩)
      rw [beq_eq_false_iff_ne.mpr hne]
      exact ih hm hnd.2

/-- Two running jobs of one key are one task. -/
theorem Partition.running_inj (h : j.Partition) {r r' : Nat × CacheJob} (hr : r ∈ j.running)
    (hr' : r' ∈ j.running) (hkey : r.2.key = r'.2.key) : r = r' := by
  have hnd : (j.running.map fun r => r.2.key).Nodup := by
    have hlive := h.once
    rw [live, List.map_append, List.nodup_append] at hlive
    rw [List.map_map] at hlive
    exact hlive.2.1
  exact List.inj_on_of_nodup_map hnd hr hr' hkey

theorem phase_eq_running_iff (h : j.Partition) :
    j.phase key = .running t ↔ ∃ job, j.jobOf t = some job ∧ job.key = key := by
  simp only [jobOf_eq_some_iff h]
  unfold phase
  split
  · next r hr =>
    have hmem := List.mem_of_find?_eq_some hr
    have hkey : r.2.key = key := by simpa using List.find?_some hr
    rw [JobPhase.running.injEq]
    constructor
    · rintro rfl
      exact ⟨r.2, hmem, hkey⟩
    · rintro ⟨job, hm, hk⟩
      rw [h.running_inj hmem hm (hkey.trans hk.symm)]
  · next hr =>
    have hno : ¬ ∃ job, (t, job) ∈ j.running ∧ job.key = key := by
      rintro ⟨job, hm, hk⟩
      have := List.find?_eq_none.mp hr _ hm
      exact this (by simpa using hk)
    constructor
    · intro e
      split at e <;> exact absurd e (by simp)
    · exact fun e => absurd e hno

theorem phase_of_job (h : j.Partition) (hjob : j.jobOf t = some job) :
    j.phase job.key = .running t :=
  (phase_eq_running_iff h).mpr ⟨job, hjob, rfl⟩

theorem phase_eq_absent_iff (h : j.Partition) :
    j.phase key = .absent ↔ (j.known.lookup key).isSome = false := by
  unfold phase
  split
  · next r hr =>
    have hlive : r.2 ∈ j.live :=
      List.mem_append_right _ (List.mem_map.mpr ⟨r, List.mem_of_find?_eq_some hr, rfl⟩)
    have hkey : r.2.key = key := by simpa using List.find?_some hr
    rw [(h.known_iff key).mpr ⟨r.2, hlive, hkey⟩]
    simp
  · split
    · next hk => simp [hk]
    · next hk => simpa using hk

/-- A key whose job does not run is waiting exactly when it is known. -/
theorem phase_of_not_running (hno : ∀ r ∈ j.running, r.2.key ≠ key) :
    j.phase key = if (j.known.lookup key).isSome then .waiting else .absent := by
  unfold phase
  rw [List.find?_eq_none.mpr fun r hr => by simpa using hno r hr]

theorem phase_congr (hknown : (j'.known.lookup key).isSome = (j.known.lookup key).isSome)
    (hrunning : j'.running = j.running) : j'.phase key = j.phase key := by
  unfold phase
  rw [hknown, hrunning]

/-! ## What each operation does to the phases -/

theorem phase_submitJob (h : j.Partition) (relPath : RelPath) (kind : CacheJobKind) (now : Nat) :
    (j.submitJob relPath kind now).phase key =
      if key = (relPath, kind) ∧ j.phase key = .absent then .waiting else j.phase key := by
  unfold submitJob
  by_cases hk : (j.known.lookup (relPath, kind)).isSome = true
  · rw [if_pos hk, if_neg]
    rintro ⟨rfl, ha⟩
    rw [phase_eq_absent_iff h, hk] at ha
    exact absurd ha (by simp)
  · rw [if_neg hk]
    by_cases hkey : key = (relPath, kind)
    · subst hkey
      have ha : j.phase (relPath, kind) = .absent := (phase_eq_absent_iff h).mpr (by simpa using hk)
      have hno : ∀ r ∈ j.running, r.2.key ≠ (relPath, kind) := by
        intro r hr e
        have := (phase_eq_running_iff h).mpr ⟨r.2, (jobOf_eq_some_iff h).mpr hr, e⟩
        rw [ha] at this
        exact absurd this (by simp)
      rw [if_pos ⟨rfl, ha⟩]
      refine Eq.trans (phase_of_not_running ?_) ?_
      · exact hno
      · rw [Map.lookup_insert_if, if_pos rfl]
        rfl
    · rw [if_neg fun e => hkey e.1]
      exact phase_congr (by rw [Map.lookup_insert_if, if_neg hkey]) rfl

theorem phase_dropExpired (cutoff : Nat) (q : List CacheJob) {j : Jobs}
    (h : ({ j with queue := q } : Jobs).Partition) :
    (j.dropExpired cutoff q).phase key = j.phase key ∨
      j.phase key = .waiting ∧ (j.dropExpired cutoff q).phase key = .absent := by
  induction q generalizing j with
  | nil => exact .inl rfl
  | cons job rest ih =>
    rw [dropExpired]
    split
    · exact .inl rfl
    · let j₁ : Jobs := { j with known := j.known.erase job.key, expired := j.expired ++ [job] }
      have hrest := ih (j := j₁) (partition_dropFront h)
      by_cases hkey : key = job.key
      · -- the job was in the queue, and no other one of its key is left
        have hno : ∀ r ∈ j.running, r.2.key ≠ key := by
          intro r hr e
          have hnd := h.once
          rw [live, List.cons_append, List.cons_append, List.map_cons, List.nodup_cons] at hnd
          refine hnd.1 (List.mem_map.mpr ⟨r.2, ?_, e.trans hkey⟩)
          exact List.mem_append_right _ (List.mem_map.mpr ⟨r, hr, rfl⟩)
        have hknown : (j.known.lookup key).isSome :=
          (h.known_iff key).mpr ⟨job, by simp [live], hkey.symm⟩
        have hw : j.phase key = .waiting := by rw [phase_of_not_running hno, if_pos hknown]
        have ha : j₁.phase key = .absent := by
          refine (phase_of_not_running (j := j₁) hno).trans ?_
          rw [Map.lookup_erase_if, if_pos hkey]
          rfl
        right
        refine ⟨hw, ?_⟩
        rcases hrest with e | ⟨e, -⟩
        · exact e.trans ha
        · rw [ha] at e
          exact absurd e (by simp)
      · have hsame : j₁.phase key = j.phase key :=
          phase_congr (by rw [Map.lookup_erase_if, if_neg hkey]) rfl
        rcases hrest with e | ⟨e, e'⟩
        · exact .inl (e.trans hsame)
        · exact .inr ⟨hsame.symm.trans e, e'⟩

theorem phase_expireStale (h : j.Partition) (ttlMinutes now : Nat) :
    (j.expireStale ttlMinutes now).phase key = j.phase key ∨
      j.phase key = .waiting ∧ (j.expireStale ttlMinutes now).phase key = .absent := by
  unfold expireStale
  split
  · exact .inl rfl
  · exact phase_dropExpired _ _ h

/-- A waiting job is spawned. -/
theorem phase_spawn (h : j.Partition) (hlive : job ∈ j.queue ++ j.held.toList)
    (j₀ : Jobs) (hknown : j₀.known = j.known) (hrunning : j₀.running = j.running)
    (hnext : j₀.nextTask = j.nextTask) :
    j.phase job.key = .waiting ∧
      ∀ key, (j₀.spawn job).phase key = if key = job.key then .running j.nextTask else j.phase key := by
  have hno : ∀ r ∈ j.running, r.2.key ≠ job.key := by
    intro r hr e
    have hnd := h.once
    rw [live, List.map_append, List.nodup_append] at hnd
    exact hnd.2.2 _ (List.mem_map.mpr ⟨job, hlive, rfl⟩) _
      (List.mem_map.mpr ⟨r.2, List.mem_map.mpr ⟨r, hr, rfl⟩, rfl⟩) e.symm
  constructor
  · have hk := (h.known_iff job.key).mpr ⟨job, List.mem_append_left _ hlive, rfl⟩
    rw [phase_of_not_running hno, if_pos hk]
  · intro key
    unfold phase
    simp only [spawn, hknown, hrunning, hnext, List.find?_append]
    by_cases hkey : key = job.key
    · rw [List.find?_eq_none.mpr fun r hr => by simpa using hkey ▸ hno r hr]
      simp [hkey]
    · rw [if_neg hkey, List.find?_cons_of_neg (by simpa using fun e => hkey e.symm)]
      simp

/-- What popping or acquiring does: nothing, or it spawns one waiting job. -/
inductive Spawns (j j' : Jobs) : Prop
  | held (h : ∀ key, j'.phase key = j.phase key)
  | spawned (key₀ : JobKey) (h₀ : j.phase key₀ = .waiting)
      (h : ∀ key, j'.phase key = if key = key₀ then .running j.nextTask else j.phase key)

theorem phase_pop (h : j.Partition) {ttlMinutes : Nat} {copyAllowed : Bool}
    (hs : pipeStep ttlMinutes j (.pop copyAllowed) = some j') : Spawns j j' := by
  cases pipeMove_of_step hs with
  | @validate _ job rest hheld hpop hk =>
    have hmem : job ∈ j.queue := (perm_popNextJob hpop).mem_iff.mpr List.mem_cons_self
    have hlive : job ∈ j.queue ++ j.held.toList := List.mem_append_left _ hmem
    obtain ⟨hw, hphase⟩ := phase_spawn h hlive { j with queue := rest } rfl rfl rfl
    exact .spawned job.key hw hphase
  | hold => exact .held fun key => phase_congr rfl rfl

theorem phase_acquire (h : j.Partition) {ttlMinutes : Nat}
    (hs : pipeStep ttlMinutes j .acquire = some j') : Spawns j j' := by
  cases pipeMove_of_step hs with
  | @acquire job hheld hfree =>
    have hlive : job ∈ j.queue ++ j.held.toList := List.mem_append_right _ (by simp [hheld])
    obtain ⟨hw, hphase⟩ :=
      phase_spawn h hlive { j with held := none, permits := j.permits - 1 } rfl rfl rfl
    exact .spawned job.key hw hphase

theorem phase_promote (h : j.Partition) (hjob : j.jobOf t = some job) :
    (j.promote t job).phase key = j.phase key := by
  refine phase_congr ?_ rfl
  rw [promote, Map.lookup_insert_if]
  split
  · next hk =>
    have hlive : job ∈ j.live :=
      List.mem_append_right _ (List.mem_map.mpr ⟨_, mem_running hjob, rfl⟩)
    rw [hk, (h.known_iff job.key).mpr ⟨job, hlive, rfl⟩]
    rfl
  · rfl

theorem phase_finish (h : j.Partition) (hjob : j.jobOf t = some job) :
    (j.finish t job).phase key = if key = job.key then .absent else j.phase key := by
  have hrun := mem_running hjob
  by_cases hkey : key = job.key
  · rw [if_pos hkey, phase_eq_absent_iff (partition_finish h hjob)]
    simp [finish, Map.lookup_erase_if, hkey]
  · rw [if_neg hkey]
    unfold phase
    have hfind : (j.finish t job).running.find? (fun r => r.2.key = key) =
        j.running.find? fun r => r.2.key = key := by
      simp only [finish, List.find?_filter]
      refine List.find?_congr fun r hr => ?_
      by_cases hk : r.2.key = key
      · have hne : r.1 ≠ t := by
          rintro rfl
          have := List.inj_on_of_nodup_map h.tasks hr hrun rfl
          exact hkey (hk.symm.trans (by rw [this]))
        simp [hk, hne]
      · simp [hk]
    rw [hfind]
    simp [finish, hkey]

/-- After a start nothing runs. -/
theorem running_rehydrate (loaded : List (RelPath × Nat)) (permits nextTask : Nat) :
    (rehydrate loaded permits nextTask).running = [] := by
  refine List.foldlRecOn (motive := fun j : Jobs => j.running = []) _ _ rfl fun j h l _ => ?_
  unfold submitJob
  split <;> exact h

theorem phase_rehydrate (loaded : List (RelPath × Nat)) (permits nextTask : Nat) :
    (rehydrate loaded permits nextTask).phase key = .absent ∨
      (rehydrate loaded permits nextTask).phase key = .waiting := by
  rw [phase_of_not_running (by simp [running_rehydrate])]
  split
  · exact .inr rfl
  · exact .inl rfl

/-! ## Abort handles -/

/-- A handle is the task that runs the job of its key. -/
def Handles (j : Jobs) : Prop :=
  ∀ key t, j.known.lookup key = some (some t) → ∃ job, (t, job) ∈ j.running ∧ job.key = key

theorem handles_initial (permits nextTask : Nat) : (initial permits nextTask).Handles := by
  intro key t h
  exact absurd h (by simp [initial])

theorem handles_submitJob (h : j.Handles) (relPath : RelPath) (kind : CacheJobKind) (now : Nat) :
    (j.submitJob relPath kind now).Handles := by
  intro key t hk
  unfold submitJob at hk ⊢
  split at hk
  · next hn => rw [if_pos hn]; exact h key t hk
  · next hn =>
    rw [if_neg hn]
    rw [Map.lookup_insert_if] at hk
    split at hk
    · exact absurd hk (by simp)
    · exact h key t hk

theorem handles_dropExpired (cutoff : Nat) (q : List CacheJob) {j : Jobs} (h : j.Handles) :
    (j.dropExpired cutoff q).Handles := by
  induction q generalizing j with
  | nil => exact h
  | cons job rest ih =>
    rw [dropExpired]
    split
    · exact h
    · refine ih fun key t hk => ?_
      rw [Map.lookup_erase_if] at hk
      split at hk
      · exact absurd hk (by simp)
      · exact h key t hk

theorem handles_spawn (h : j.Handles) (job : CacheJob) {j₀ : Jobs} (hknown : j₀.known = j.known)
    (hrunning : j₀.running = j.running) : (j₀.spawn job).Handles := by
  intro key t hk
  obtain ⟨job', hm, hkey⟩ := h key t (hknown ▸ hk)
  exact ⟨job', List.mem_append_left _ (hrunning ▸ hm), hkey⟩

theorem handles_finish (h : j.Handles) (hp : j.Partition) (hjob : j.jobOf t = some job) :
    (j.finish t job).Handles := by
  intro key u hk
  simp only [finish, Map.lookup_erase_if] at hk
  split at hk
  · exact absurd hk (by simp)
  · next hne =>
    obtain ⟨job', hm, hkey⟩ := h key u hk
    refine ⟨job', List.mem_filter.mpr ⟨hm, ?_⟩, hkey⟩
    simp only [ne_eq, decide_not, Bool.not_eq_true', decide_eq_false_iff_not]
    rintro rfl
    rw [(jobOf_eq_some_iff hp).mpr hm, Option.some.injEq] at hjob
    exact hne (hkey.symm.trans (by rw [hjob]))

theorem handles_rehydrate (loaded : List (RelPath × Nat)) (permits nextTask : Nat) :
    (rehydrate loaded permits nextTask).Handles :=
  List.foldlRecOn _ _ (handles_initial permits nextTask)
    fun _ h l _ => handles_submitJob h l.1 .populate l.2

end Jobs

open Jobs

theorem handles_pipeStep {ttlMinutes : Nat} {j j' : Jobs} {a : PipeAction} (h : j.Handles)
    (hp : j.Partition) (hs : pipeStep ttlMinutes j a = some j') : j'.Handles := by
  cases pipeMove_of_step hs with
  | submit relPath kind now => exact handles_submitJob h relPath kind now
  | expire hheld =>
    unfold expireStale
    split
    · exact h
    · exact handles_dropExpired _ _ h
  | validate hheld hpop hk => exact handles_spawn h _ rfl rfl
  | acquire hheld hfree => exact handles_spawn h _ rfl rfl
  | @promote t job hjob hk =>
    intro key u hk
    simp only [promote, Map.lookup_insert_if] at hk
    split at hk
    · next hkey =>
      obtain rfl : t = u := by simpa using hk
      exact ⟨job, mem_running hjob, hkey.symm⟩
    · exact h key u hk
  | finish hjob => exact handles_finish h hp hjob
  | hold | release => exact h

end FsCache
