import Mathlib.Data.List.Perm.Basic
import FsCache.Lib.Run
import FsCache.Lib.Assoc
import FsCache.Path

/- The job pipeline (cache/io.rs): the queue, the `known` map, the dispatcher
   and the workers, as far as they move jobs.

   `PipelineState` is the state under the mutex. `Jobs` adds where a job is once
   it has left the queue: `held` is the copy job the dispatcher has popped and is
   waiting with for a permit, `running` are the jobs of spawned workers. A worker
   is in `running` until `finish_known` releases its key; then its permit is
   still to be returned. The abort handle of an in-flight copy is the number of
   its task.

   Every accepted job has an `id`, and four lists record what became of the
   accepted ones; nothing reads them. The clock is an argument.

   `Partition` is the invariant: the keys of `known` are the keys of the queued,
   held and running jobs, each exactly once, and these jobs together with the
   finished and the expired ones are the accepted ones, each exactly once.
   `partition_run` is that it holds after every run from a rehydrated state.

   Correspondence (Rust ↔ Lean):
     `CacheJobKind`, `CacheJob`, `PipelineState` ↔ the same
     `submit_job`, under the lock                ↔ `Jobs.submitJob`
     `expire_stale`                              ↔ `Jobs.expireStale`
     `pop_next_job`, `dispatcher`                ↔ `popNextJob`, `Jobs.pop`, `Jobs.acquire`
     promotion in `populate_worker`              ↔ `Jobs.promote`
     `finish_known`, `drop(permit)`              ↔ `Jobs.finish`, `Jobs.release`
     rehydration in `CacheIO::spawn`             ↔ `Jobs.rehydrate` -/

namespace FsCache
open Lib

inductive CacheJobKind where
  | populate
  | validate
  | replace
  deriving DecidableEq

def CacheJobKind.all : List CacheJobKind := [.populate, .validate, .replace]

theorem CacheJobKind.mem_all (k : CacheJobKind) : k ∈ all := by
  cases k <;> simp [all]

structure CacheJob where
  relPath : RelPath
  kind : CacheJobKind
  enqueueTs : Nat
  id : Nat
  deriving DecidableEq

abbrev JobKey := RelPath × CacheJobKind

def CacheJob.key (job : CacheJob) : JobKey := (job.relPath, job.kind)

/-- Single source of truth for all pending and in-flight cache work. -/
structure PipelineState where
  queue : List CacheJob
  known : Map JobKey (Option Nat)

structure Jobs extends PipelineState where
  held : Option CacheJob
  running : List (Nat × CacheJob)
  nextTask : Nat
  permits : Nat
  releasing : Nat
  nextId : Nat
  accepted : List CacheJob
  started : List CacheJob
  finished : List CacheJob
  expired : List CacheJob

/-- The first validation in the queue, and the queue without it. -/
def removeFirstValidate : List CacheJob → Option (CacheJob × List CacheJob)
  | [] => none
  | job :: rest =>
    if job.kind = .validate then some (job, rest)
    else (removeFirstValidate rest).map fun r => (r.1, job :: r.2)

/-- The first job, or the first validation while the window is closed. -/
def popNextJob (queue : List CacheJob) (copyAllowed : Bool) : Option (CacheJob × List CacheJob) :=
  if copyAllowed then
    match queue with
    | [] => none
    | job :: rest => some (job, rest)
  else removeFirstValidate queue

namespace Jobs

/-- The jobs that are queued, held or running. -/
def live (j : Jobs) : List CacheJob := j.queue ++ j.held.toList ++ j.running.map Prod.snd

def inFlight (j : Jobs) (key : JobKey) : Bool := ((j.known.lookup key).getD none).isSome

def submitJob (j : Jobs) (relPath : RelPath) (kind : CacheJobKind) (now : Nat) : Jobs :=
  if (j.known.lookup (relPath, kind)).isSome then j
  else
    let job := ⟨relPath, kind, now, j.nextId⟩
    { j with
      known := j.known.insert (relPath, kind) none
      queue := j.queue ++ [job]
      nextId := j.nextId + 1
      accepted := j.accepted ++ [job] }

/-- The loop of `expire_stale`, over the front of the queue. -/
def dropExpired (cutoff : Nat) (j : Jobs) : List CacheJob → Jobs
  | [] => { j with queue := [] }
  | job :: rest =>
    if cutoff ≤ job.enqueueTs then { j with queue := job :: rest }
    else
      dropExpired cutoff
        { j with known := j.known.erase job.key, expired := j.expired ++ [job] } rest

/-- `deferred_ttl_minutes == 0` switches the sweep off. -/
def expireStale (j : Jobs) (ttlMinutes now : Nat) : Jobs :=
  if ttlMinutes = 0 then j
  else dropExpired (now - ttlMinutes * 60 % 2^64) j j.queue

def spawn (j : Jobs) (job : CacheJob) : Jobs :=
  { j with
    running := j.running ++ [(j.nextTask, job)]
    nextTask := j.nextTask + 1
    started := j.started ++ [job] }

/-- A popped validation is spawned at once, a copy waits for a permit. -/
def pop (j : Jobs) (copyAllowed : Bool) : Option Jobs :=
  match popNextJob j.queue copyAllowed with
  | none => none
  | some (job, rest) =>
    if job.kind = .validate then some ({ j with queue := rest }.spawn job)
    else some { j with queue := rest, held := some job }

def acquire (j : Jobs) : Option Jobs :=
  match j.held with
  | none => none
  | some job =>
    if j.permits = 0 then none
    else some ({ j with held := none, permits := j.permits - 1 }.spawn job)

def jobOf (j : Jobs) (t : Nat) : Option CacheJob := j.running.lookup t

/-- From queued (`None`) to in flight (`Some(CopyControl)`). -/
def promote (j : Jobs) (t : Nat) (job : CacheJob) : Jobs :=
  { j with known := j.known.insert job.key (some t) }

def finish (j : Jobs) (t : Nat) (job : CacheJob) : Jobs :=
  { j with
    known := j.known.erase job.key
    running := j.running.filter fun r => r.1 ≠ t
    releasing := if job.kind = .validate then j.releasing else j.releasing + 1
    finished := j.finished ++ [job] }

def release (j : Jobs) : Option Jobs :=
  if j.releasing = 0 then none
  else some { j with releasing := j.releasing - 1, permits := j.permits + 1 }

/-- The state a daemon starts with. -/
def initial (permits nextTask : Nat) : Jobs where
  queue := []
  known := ∅
  held := none
  running := []
  nextTask := nextTask
  permits := permits
  releasing := 0
  nextId := 0
  accepted := []
  started := []
  finished := []
  expired := []

/-- Persisted jobs come back as Populate jobs, one a path. -/
def rehydrate (loaded : List (RelPath × Nat)) (permits nextTask : Nat) : Jobs :=
  loaded.foldl (fun j l => j.submitJob l.1 .populate l.2) (initial permits nextTask)

end Jobs

inductive PipeAction where
  | submit (relPath : RelPath) (kind : CacheJobKind) (now : Nat)
  | expire (now : Nat)
  | pop (copyAllowed : Bool)
  | acquire
  | promote (t : Nat)
  | finish (t : Nat)
  | release

/-- One of the five operations. The dispatcher neither sweeps nor pops while it
waits for a permit. -/
def pipeStep (ttlMinutes : Nat) (j : Jobs) : PipeAction → Option Jobs
  | .submit relPath kind now => some (j.submitJob relPath kind now)
  | .expire now => if j.held.isSome then none else some (j.expireStale ttlMinutes now)
  | .pop copyAllowed => if j.held.isSome then none else j.pop copyAllowed
  | .acquire => j.acquire
  | .promote t =>
    match j.jobOf t with
    | none => none
    | some job => if job.kind = .validate then none else some (j.promote t job)
  | .finish t =>
    match j.jobOf t with
    | none => none
    | some job => some (j.finish t job)
  | .release => j.release

/-- What one operation can do. -/
inductive PipeMove (ttlMinutes : Nat) (j : Jobs) : PipeAction → Jobs → Prop
  | submit (relPath : RelPath) (kind : CacheJobKind) (now : Nat) :
      PipeMove ttlMinutes j (.submit relPath kind now) (j.submitJob relPath kind now)
  | expire {now : Nat} (hheld : j.held = none) :
      PipeMove ttlMinutes j (.expire now) (j.expireStale ttlMinutes now)
  | validate {copyAllowed : Bool} {job : CacheJob} {rest : List CacheJob} (hheld : j.held = none)
      (hpop : popNextJob j.queue copyAllowed = some (job, rest)) (hk : job.kind = .validate) :
      PipeMove ttlMinutes j (.pop copyAllowed) ({ j with queue := rest }.spawn job)
  | hold {copyAllowed : Bool} {job : CacheJob} {rest : List CacheJob} (hheld : j.held = none)
      (hpop : popNextJob j.queue copyAllowed = some (job, rest)) (hk : job.kind ≠ .validate) :
      PipeMove ttlMinutes j (.pop copyAllowed) { j with queue := rest, held := some job }
  | acquire {job : CacheJob} (hheld : j.held = some job) (hfree : j.permits ≠ 0) :
      PipeMove ttlMinutes j .acquire ({ j with held := none, permits := j.permits - 1 }.spawn job)
  | promote {t : Nat} {job : CacheJob} (hjob : j.jobOf t = some job) (hk : job.kind ≠ .validate) :
      PipeMove ttlMinutes j (.promote t) (j.promote t job)
  | finish {t : Nat} {job : CacheJob} (hjob : j.jobOf t = some job) :
      PipeMove ttlMinutes j (.finish t) (j.finish t job)
  | release (hreleasing : j.releasing ≠ 0) :
      PipeMove ttlMinutes j .release
        { j with releasing := j.releasing - 1, permits := j.permits + 1 }

theorem pipeMove_of_step {ttlMinutes : Nat} {j j' : Jobs} {a : PipeAction}
    (h : pipeStep ttlMinutes j a = some j') : PipeMove ttlMinutes j a j' := by
  cases a with
  | submit relPath kind now =>
    rw [← Option.some.inj h]
    exact .submit relPath kind now
  | expire now =>
    simp only [pipeStep] at h
    split at h
    · exact absurd h (by simp)
    · next hheld =>
      rw [← Option.some.inj h]
      exact .expire (by simpa using hheld)
  | pop copyAllowed =>
    simp only [pipeStep, Jobs.pop] at h
    split at h
    · exact absurd h (by simp)
    · next hheld =>
      have hheld : j.held = none := by simpa using hheld
      split at h
      · exact absurd h (by simp)
      · next job rest hpop =>
        split at h
        · next hk =>
          rw [← Option.some.inj h]
          exact .validate hheld hpop hk
        · next hk =>
          rw [← Option.some.inj h]
          exact .hold hheld hpop hk
  | acquire =>
    simp only [pipeStep, Jobs.acquire] at h
    split at h
    · exact absurd h (by simp)
    · next job hheld =>
      split at h
      · exact absurd h (by simp)
      · next hfree =>
        rw [← Option.some.inj h]
        exact .acquire hheld hfree
  | promote t =>
    simp only [pipeStep] at h
    split at h
    · exact absurd h (by simp)
    · next job hjob =>
      split at h
      · exact absurd h (by simp)
      · next hk =>
        rw [← Option.some.inj h]
        exact .promote hjob hk
  | finish t =>
    simp only [pipeStep] at h
    split at h
    · exact absurd h (by simp)
    · next job hjob =>
      rw [← Option.some.inj h]
      exact .finish hjob
  | release =>
    simp only [pipeStep, Jobs.release] at h
    split at h
    · exact absurd h (by simp)
    · next hreleasing =>
      rw [← Option.some.inj h]
      exact .release hreleasing

/-! ## The three-way partition -/

namespace Jobs

structure Partition (j : Jobs) : Prop where
  /-- the keys of `known` are those of the queued, held and running jobs -/
  known_iff : ∀ key, (j.known.lookup key).isSome ↔ ∃ job ∈ j.live, job.key = key
  /-- each of them is there once -/
  once : (j.live.map CacheJob.key).Nodup
  /-- no accepted job is lost, and none is in two places -/
  accounted : j.accepted.Perm (j.live ++ (j.finished ++ j.expired))
  ids : (j.accepted.map CacheJob.id).Nodup
  /-- no accepted job is run twice -/
  started : j.started.Perm (j.running.map Prod.snd ++ j.finished)
  ids_lt : ∀ job ∈ j.accepted, job.id < j.nextId
  tasks : (j.running.map Prod.fst).Nodup
  tasks_lt : ∀ r ∈ j.running, r.1 < j.nextTask

/-- `submit_job` accepts a job of this key. -/
def Accepts (j : Jobs) (key : JobKey) : Prop := (j.known.lookup key).isSome = false

instance (j : Jobs) (key : JobKey) : Decidable (j.Accepts key) := inferInstanceAs (Decidable (_ = _))

theorem partition_initial (permits nextTask : Nat) : (initial permits nextTask).Partition where
  known_iff key := by simp [initial, live]
  once := List.nodup_nil
  accounted := List.Perm.refl _
  ids := List.nodup_nil
  started := List.Perm.refl _
  ids_lt := by simp [initial]
  tasks := List.nodup_nil
  tasks_lt := by simp [initial]

/-- Jobs that only change places. -/
theorem Partition.moved {j j' : Jobs} (h : j.Partition)
    (hknown : ∀ key, (j'.known.lookup key).isSome = (j.known.lookup key).isSome)
    (hlive : j'.live.Perm j.live) (haccepted : j'.accepted = j.accepted)
    (hfinished : j'.finished = j.finished) (hexpired : j'.expired = j.expired)
    (hnextId : j'.nextId = j.nextId)
    (hstarted : j'.started.Perm (j'.running.map Prod.snd ++ j'.finished))
    (htasks : (j'.running.map Prod.fst).Nodup) (htasks_lt : ∀ r ∈ j'.running, r.1 < j'.nextTask) :
    j'.Partition where
  known_iff key := by
    rw [hknown, h.known_iff]
    simp only [hlive.mem_iff]
  once := (hlive.map CacheJob.key).nodup_iff.mpr h.once
  accounted := by
    rw [haccepted, hfinished, hexpired]
    exact h.accounted.trans (hlive.symm.append_right _)
  ids := haccepted ▸ h.ids
  started := hstarted
  ids_lt := by rw [haccepted, hnextId]; exact h.ids_lt
  tasks := htasks
  tasks_lt := htasks_lt

/-- An accepted job joins the others. -/
theorem live_submitJob {j : Jobs} {relPath : RelPath} {kind : CacheJobKind}
    (h : j.Accepts (relPath, kind)) (now : Nat) :
    (j.submitJob relPath kind now).live.Perm (⟨relPath, kind, now, j.nextId⟩ :: j.live) := by
  rw [submitJob, if_neg (by simpa [Accepts] using h)]
  simp only [live, List.append_assoc, List.singleton_append]
  exact List.perm_middle

theorem partition_submitJob {j : Jobs} (h : j.Partition) (relPath : RelPath) (kind : CacheJobKind)
    (now : Nat) : (j.submitJob relPath kind now).Partition := by
  unfold submitJob
  split
  · exact h
  · next hk =>
    let new : CacheJob := ⟨relPath, kind, now, j.nextId⟩
    have hnew : ∀ job ∈ j.live, job.key ≠ (relPath, kind) :=
      fun job hj e => hk ((h.known_iff _).mpr ⟨job, hj, e⟩)
    have hlive : (j.queue ++ [new] ++ j.held.toList ++ j.running.map Prod.snd).Perm
        (new :: j.live) := by
      have hperm := live_submitJob (j := j) (by simpa [Accepts] using hk) now
      rwa [submitJob, if_neg hk] at hperm
    refine ⟨fun key => ?_, ?_, ?_, ?_, h.started, ?_, h.tasks, h.tasks_lt⟩
    · have hmem : (∃ x ∈ j.queue ++ [new] ++ j.held.toList ++ j.running.map Prod.snd, x.key = key) ↔
          (relPath, kind) = key ∨ ∃ x ∈ j.live, x.key = key := by
        simp only [hlive.mem_iff, List.mem_cons, exists_eq_or_imp]
        rfl
      refine Iff.trans ?_ hmem.symm
      rw [Map.lookup_insert_if]
      by_cases hkey : key = (relPath, kind)
      · simp [hkey]
      · rw [if_neg hkey, h.known_iff, or_iff_right (Ne.symm hkey)]
    · refine (hlive.map CacheJob.key).nodup_iff.mpr ?_
      rw [List.map_cons, List.nodup_cons]
      refine ⟨fun hm => ?_, h.once⟩
      obtain ⟨job, hj, e⟩ := List.mem_map.mp hm
      exact hnew job hj e
    · exact (List.perm_append_singleton new _).trans
        ((h.accounted.cons new).trans (hlive.symm.append_right _))
    · rw [List.map_append, List.map_singleton]
      refine List.nodup_append.mpr ⟨h.ids, List.nodup_singleton _, ?_⟩
      rintro i hi k hk rfl
      obtain ⟨job, hj, rfl⟩ := List.mem_map.mp hi
      have := h.ids_lt job hj
      rw [List.mem_singleton.mp hk] at this
      exact Nat.lt_irrefl _ this
    · intro job hj
      rcases List.mem_append.mp hj with hj | hj
      · exact Nat.lt_succ_of_lt (h.ids_lt job hj)
      · rw [List.mem_singleton.mp hj]
        exact Nat.lt_succ_self _

/-- The keys left when the key of one job goes. -/
theorem known_erase {known : Map JobKey (Option Nat)} {job : CacheJob}
    {rest : List CacheJob}
    (hknown : ∀ key, (known.lookup key).isSome ↔ ∃ x ∈ job :: rest, x.key = key)
    (honce : ((job :: rest).map CacheJob.key).Nodup) (key : JobKey) :
    ((known.erase job.key).lookup key).isSome ↔ ∃ x ∈ rest, x.key = key := by
  rw [List.map_cons, List.nodup_cons] at honce
  rw [Map.lookup_erase_if]
  by_cases hk : key = job.key
  · rw [if_pos hk, hk]
    refine ⟨fun h => absurd h (by simp), fun ⟨x, hx, e⟩ => ?_⟩
    exact absurd (List.mem_map.mpr ⟨x, hx, e⟩) honce.1
  · rw [if_neg hk, hknown]
    constructor
    · rintro ⟨x, hx, e⟩
      rcases List.mem_cons.mp hx with rfl | hx
      · exact absurd e.symm hk
      · exact ⟨x, hx, e⟩
    · rintro ⟨x, hx, e⟩
      exact ⟨x, List.mem_cons_of_mem _ hx, e⟩

/-- The job at the front of the queue expires. -/
theorem partition_dropFront {j : Jobs} {job : CacheJob} {rest : List CacheJob}
    (h : ({ j with queue := job :: rest } : Jobs).Partition) :
    ({ j with queue := rest, known := j.known.erase job.key, expired := j.expired ++ [job] } :
      Jobs).Partition := by
  refine ⟨fun key => ?_, ?_, ?_, h.ids, h.started, h.ids_lt, h.tasks, h.tasks_lt⟩
  · exact known_erase h.known_iff h.once key
  · exact (List.nodup_cons.mp h.once).2
  · refine h.accounted.trans ?_
    simp only [live, List.cons_append, ← List.append_assoc]
    exact (List.perm_append_singleton _ _).symm

theorem held_submitJob (j : Jobs) (relPath : RelPath) (kind : CacheJobKind) (now : Nat) :
    (j.submitJob relPath kind now).held = j.held := by
  unfold submitJob
  split <;> rfl

theorem running_submitJob (j : Jobs) (relPath : RelPath) (kind : CacheJobKind) (now : Nat) :
    (j.submitJob relPath kind now).running = j.running := by
  unfold submitJob
  split <;> rfl

/-- The loop takes jobs from the front to the expired ones, and leaves the rest of the state. -/
theorem dropExpired_spec (cutoff : Nat) (q : List CacheJob) (j : Jobs) :
    ∃ queue known expired, j.dropExpired cutoff q =
        { j with queue := queue, known := known, expired := expired } ∧
      queue <:+ q ∧ j.expired ⊆ expired ∧
      ∀ key, known.lookup key = j.known.lookup key ∨ known.lookup key = none := by
  induction q generalizing j with
  | nil => exact ⟨[], j.known, j.expired, rfl, List.suffix_rfl, List.Subset.refl _, fun _ => .inl rfl⟩
  | cons job rest ih =>
    rw [dropExpired]
    split
    · exact ⟨job :: rest, j.known, j.expired, rfl, List.suffix_rfl, List.Subset.refl _, fun _ => .inl rfl⟩
    · obtain ⟨queue, known, expired, heq, hqueue, hexpired, hknown⟩ :=
        ih { j with known := j.known.erase job.key, expired := j.expired ++ [job] }
      refine ⟨queue, known, expired, heq, hqueue.trans (List.suffix_cons job rest),
        fun x hx => hexpired (List.mem_append_left _ hx), fun key => ?_⟩
      rcases hknown key with e | e
      · rw [e, Map.lookup_erase_if]
        split
        · exact .inr rfl
        · exact .inl rfl
      · exact .inr e

theorem expireStale_spec (j : Jobs) (ttlMinutes now : Nat) :
    ∃ queue known expired, j.expireStale ttlMinutes now =
        { j with queue := queue, known := known, expired := expired } ∧
      queue <:+ j.queue ∧ j.expired ⊆ expired ∧
      ∀ key, known.lookup key = j.known.lookup key ∨ known.lookup key = none := by
  unfold expireStale
  split
  · exact ⟨j.queue, j.known, j.expired, rfl, List.suffix_rfl, List.Subset.refl _, fun _ => .inl rfl⟩
  · exact dropExpired_spec _ _ j

theorem partition_dropExpired (cutoff : Nat) (q : List CacheJob) {j : Jobs}
    (h : ({ j with queue := q } : Jobs).Partition) : (j.dropExpired cutoff q).Partition := by
  induction q generalizing j with
  | nil => exact h
  | cons job rest ih =>
    rw [dropExpired]
    split
    · exact h
    · exact ih (partition_dropFront h)

theorem partition_expireStale {j : Jobs} (h : j.Partition) (ttlMinutes now : Nat) :
    (j.expireStale ttlMinutes now).Partition := by
  unfold expireStale
  split
  · exact h
  · exact partition_dropExpired _ _ h

theorem perm_removeFirstValidate {queue rest : List CacheJob} {job : CacheJob}
    (h : removeFirstValidate queue = some (job, rest)) : queue.Perm (job :: rest) := by
  induction queue generalizing rest with
  | nil => exact absurd h (by simp [removeFirstValidate])
  | cons x queue ih =>
    rw [removeFirstValidate] at h
    split at h
    · obtain ⟨rfl, rfl⟩ := Prod.mk.inj (Option.some.inj h)
      exact List.Perm.refl _
    · obtain ⟨⟨v, r⟩, hr, e⟩ := Option.map_eq_some_iff.mp h
      obtain ⟨rfl, rfl⟩ := Prod.mk.inj e
      exact ((ih hr).cons x).trans (List.Perm.swap _ _ _)

theorem perm_popNextJob {queue rest : List CacheJob} {job : CacheJob} {copyAllowed : Bool}
    (h : popNextJob queue copyAllowed = some (job, rest)) : queue.Perm (job :: rest) := by
  unfold popNextJob at h
  split at h
  · split at h
    · exact absurd h (by simp)
    · obtain ⟨rfl, rfl⟩ := Prod.mk.inj (Option.some.inj h)
      exact List.Perm.refl _
  · exact perm_removeFirstValidate h

/-- A job that was queued or held is spawned. -/
theorem partition_spawn {j j₀ : Jobs} {job : CacheJob} (h : j.Partition)
    (hlive : (job :: j₀.live).Perm j.live) (hknown : j₀.known = j.known)
    (hrunning : j₀.running = j.running) (haccepted : j₀.accepted = j.accepted)
    (hstarted : j₀.started = j.started) (hfinished : j₀.finished = j.finished)
    (hexpired : j₀.expired = j.expired) (hnextId : j₀.nextId = j.nextId)
    (hnextTask : j₀.nextTask = j.nextTask) : (j₀.spawn job).Partition := by
  refine h.moved (fun key => by rw [spawn, hknown]) ?_ haccepted hfinished hexpired hnextId ?_ ?_ ?_
  · refine List.Perm.trans ?_ hlive
    simp only [spawn, live, List.map_append, List.map_singleton, ← List.append_assoc]
    exact List.perm_append_singleton _ _
  · simp only [spawn, hstarted, hrunning, hfinished, List.map_append, List.map_singleton,
      List.append_assoc]
    refine (h.started.append_right [job]).trans ?_
    rw [List.append_assoc]
    exact List.perm_append_comm.append_left _
  · simp only [spawn, hrunning, List.map_append, List.map_singleton]
    refine List.nodup_append.mpr ⟨h.tasks, List.nodup_singleton _, ?_⟩
    rintro t ht u hu rfl
    obtain ⟨r, hr, rfl⟩ := List.mem_map.mp ht
    have := h.tasks_lt r hr
    rw [List.mem_singleton.mp hu, hnextTask] at this
    exact Nat.lt_irrefl _ this
  · intro r hr
    simp only [spawn, hrunning, hnextTask] at hr ⊢
    rcases List.mem_append.mp hr with hr | hr
    · exact Nat.lt_succ_of_lt (h.tasks_lt r hr)
    · rw [List.mem_singleton.mp hr]
      exact Nat.lt_succ_self _

theorem mem_running {j : Jobs} {t : Nat} {job : CacheJob} (h : j.jobOf t = some job) :
    (t, job) ∈ j.running := by
  unfold jobOf at h
  generalize j.running = l at h
  induction l with
  | nil => exact absurd h (by simp)
  | cons r l ih =>
    rw [List.lookup_cons] at h
    split at h
    · next ht =>
      obtain rfl := Option.some.inj h
      rw [beq_iff_eq] at ht
      rw [ht]
      exact List.mem_cons_self
    · exact List.mem_cons_of_mem _ (ih h)

/-- The running jobs are the finishing one and the others. -/
theorem perm_running {l : List (Nat × CacheJob)} {t : Nat} {job : CacheJob} (h : (t, job) ∈ l)
    (hnd : (l.map Prod.fst).Nodup) : l.Perm ((t, job) :: l.filter fun r => r.1 ≠ t) := by
  induction l with
  | nil => exact absurd h (by simp)
  | cons r l ih =>
    rw [List.map_cons, List.nodup_cons] at hnd
    rcases List.mem_cons.mp h with rfl | hm
    · have hrest : l.filter (fun r => r.1 ≠ t) = l := by
        refine List.filter_eq_self.mpr fun r hr => ?_
        simp only [ne_eq, decide_not, Bool.not_eq_true', decide_eq_false_iff_not]
        rintro rfl
        exact hnd.1 (List.mem_map.mpr ⟨r, hr, rfl⟩)
      rw [List.filter_cons_of_neg (by simp), hrest]
    · have hne : r.1 ≠ t := by
        rintro rfl
        exact hnd.1 (List.mem_map.mpr ⟨_, hm, rfl⟩)
      rw [List.filter_cons_of_pos (by simpa using hne)]
      exact ((ih hm hnd.2).cons r).trans (List.Perm.swap _ _ _)

theorem partition_promote {j : Jobs} {t : Nat} {job : CacheJob} (h : j.Partition)
    (hjob : j.jobOf t = some job) : (j.promote t job).Partition := by
  refine h.moved (fun key => ?_) (List.Perm.refl _) rfl rfl rfl rfl h.started h.tasks h.tasks_lt
  rw [promote, Map.lookup_insert_if]
  split
  · next hk =>
    have hlive : job ∈ j.live :=
      List.mem_append_right _ (List.mem_map.mpr ⟨_, mem_running hjob, rfl⟩)
    rw [hk, (h.known_iff job.key).mpr ⟨job, hlive, rfl⟩]
    rfl
  · rfl

/-- A job that finishes leaves the others. -/
theorem live_finish {j : Jobs} {t : Nat} {job : CacheJob} (h : j.Partition)
    (hjob : j.jobOf t = some job) : j.live.Perm (job :: (j.finish t job).live) := by
  have hrun := perm_running (mem_running hjob) h.tasks
  refine ((hrun.map Prod.snd).append_left (j.queue ++ j.held.toList)).trans ?_
  rw [List.map_cons]
  exact List.perm_middle

theorem partition_finish {j : Jobs} {t : Nat} {job : CacheJob} (h : j.Partition)
    (hjob : j.jobOf t = some job) : (j.finish t job).Partition := by
  have hrun := perm_running (mem_running hjob) h.tasks
  have hlive := live_finish h hjob
  refine ⟨fun key => ?_, ?_, ?_, h.ids, ?_, h.ids_lt, ?_, ?_⟩
  · refine known_erase (fun key => ?_) ((hlive.map _).nodup_iff.mp h.once) key
    rw [h.known_iff]
    simp only [hlive.mem_iff]
  · exact (List.nodup_cons.mp ((hlive.map CacheJob.key).nodup_iff.mp h.once)).2
  · have hplace : (job :: ((j.finish t job).live ++ j.finished ++ j.expired)).Perm
        ((j.finish t job).live ++ j.finished ++ job :: j.expired) := List.perm_middle.symm
    refine h.accounted.trans ((hlive.append_right _).trans ?_)
    simpa only [finish, List.cons_append, List.append_assoc, List.nil_append] using hplace
  · refine h.started.trans (((hrun.map Prod.snd).append_right _).trans ?_)
    rw [List.map_cons, List.cons_append]
    simp only [finish, ← List.append_assoc]
    exact (List.perm_append_singleton _ _).symm
  · exact h.tasks.sublist ((List.filter_sublist).map Prod.fst)
  · exact fun r hr => h.tasks_lt r (List.mem_filter.mp hr).1

theorem partition_rehydrate (loaded : List (RelPath × Nat)) (permits nextTask : Nat) :
    (rehydrate loaded permits nextTask).Partition :=
  List.foldlRecOn _ _ (partition_initial permits nextTask)
    fun _ h l _ => partition_submitJob h l.1 .populate l.2

/-- An accepted job is in one place only. -/
theorem Partition.not_finished {j : Jobs} (h : j.Partition) {job : CacheJob} (hl : job ∈ j.live) :
    ¬ (job ∈ j.finished ∨ job ∈ j.expired) := by
  intro hm
  have hnd : (j.live ++ (j.finished ++ j.expired)).Nodup :=
    h.accounted.nodup_iff.mp (List.Nodup.of_map _ h.ids)
  exact (List.nodup_append.mp hnd).2.2 job hl job (List.mem_append.mpr hm) rfl

/-- A key can be submitted again exactly when every job accepted under it has
finished or expired. -/
theorem Partition.accepts_iff {j : Jobs} (h : j.Partition) (key : JobKey) :
    j.Accepts key ↔
      ∀ job ∈ j.accepted, job.key = key → job ∈ j.finished ∨ job ∈ j.expired := by
  rw [Accepts, Bool.eq_false_iff, ne_eq, h.known_iff]
  constructor
  · intro hno job hj hkey
    rcases List.mem_append.mp (h.accounted.mem_iff.mp hj) with hl | hm
    · exact absurd ⟨job, hl, hkey⟩ hno
    · exact List.mem_append.mp hm
  · rintro hall ⟨job, hl, hkey⟩
    have hj : job ∈ j.accepted := h.accounted.mem_iff.mpr (List.mem_append_left _ hl)
    exact h.not_finished hl (hall job hj hkey)

end Jobs

open Jobs

theorem partition_pipeStep {ttlMinutes : Nat} {j j' : Jobs} {a : PipeAction} (h : j.Partition)
    (hs : pipeStep ttlMinutes j a = some j') : j'.Partition := by
  cases pipeMove_of_step hs with
  | submit relPath kind now => exact partition_submitJob h relPath kind now
  | expire hheld => exact partition_expireStale h ttlMinutes _
  | validate hheld hpop hk =>
    refine partition_spawn h ?_ rfl rfl rfl rfl rfl rfl rfl rfl
    simp only [live, ← List.cons_append]
    exact ((perm_popNextJob hpop).symm.append_right _).append_right _
  | hold hheld hpop hk =>
    refine h.moved (fun _ => rfl) ?_ rfl rfl rfl rfl h.started h.tasks h.tasks_lt
    simp only [live, hheld, Option.toList_some, Option.toList_none, List.append_nil]
    exact ((List.perm_append_singleton _ _).trans (perm_popNextJob hpop).symm).append_right _
  | acquire hheld hfree =>
    refine partition_spawn h ?_ rfl rfl rfl rfl rfl rfl rfl rfl
    simp only [live, hheld, Option.toList_some, Option.toList_none, List.append_nil,
      List.append_assoc, List.singleton_append]
    exact List.perm_middle.symm
  | promote hjob hk => exact partition_promote h hjob
  | finish hjob => exact partition_finish h hjob
  | release hreleasing =>
    exact h.moved (fun _ => rfl) (List.Perm.refl _) rfl rfl rfl rfl h.started h.tasks h.tasks_lt

/-- After every run from a rehydrated state `known` is what is queued, held or
running, each job once; no accepted job is lost or run twice; and a key can be
submitted again exactly when its jobs have finished or expired. -/
theorem partition_run (ttlMinutes : Nat) (loaded : List (RelPath × Nat)) (permits : Nat)
    (as : List PipeAction) (j : Jobs)
    (h : run (pipeStep ttlMinutes) (rehydrate loaded permits 1) as = some j) :
    j.Partition ∧ ∀ key, j.Accepts key ↔
      ∀ job ∈ j.accepted, job.key = key → job ∈ j.finished ∨ job ∈ j.expired := by
  have hp : j.Partition := run_invariant Partition (fun _ _ _ hp hs => partition_pipeStep hp hs) h
    (partition_rehydrate loaded permits 1)
  exact ⟨hp, hp.accepts_iff⟩

section Example

private def e : Name := ⟨[101], Eq.refl true⟩

/-- A persisted job is run to its end while a validation of its path is queued,
run and queued again. -/
def populateAndValidate : List PipeAction :=
  [.submit [e] .validate 9, .submit [e] .populate 9, .pop false, .pop true, .acquire, .promote 2,
    .finish 1, .submit [e] .validate 9, .finish 2, .release]

theorem partition_after_run : ∃ j,
    run (pipeStep 60) (rehydrate [([e], 7)] 1 1) populateAndValidate = some j ∧
    j.live = [⟨[e], .validate, 9, 2⟩] ∧ j.Partition ∧ ∀ key, j.Accepts key ↔
      ∀ job ∈ j.accepted, job.key = key → job ∈ j.finished ∨ job ∈ j.expired := by
  have hrun : ∃ j, run (pipeStep 60) (rehydrate [([e], 7)] 1 1) populateAndValidate = some j ∧
      j.live = [⟨[e], .validate, 9, 2⟩] := ⟨_, rfl, by decide +kernel⟩
  obtain ⟨j, hrun, hlive⟩ := hrun
  exact ⟨j, hrun, hlive, partition_run 60 [([e], 7)] 1 populateAndValidate j hrun⟩

end Example

end FsCache
