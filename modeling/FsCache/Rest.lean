import Mathlib.Algebra.Order.Ring.Nat
import FsCache.Lib.Rank
import FsCache.Tidy
import FsCache.CachingWindow

/- The daemon left to itself.

   What keeps the pipeline busy is the mount, the watcher, maintenance and eviction. The
   dispatcher, the workers and the tasks that are half through a call only work off what
   those have submitted; a validation that finds its file stale submits one Replace, and
   no other job submits any. Nor does a worker wait for another one, except for a permit,
   and a permit is free, or on its way back, or with a running copy.

   `comes_to_rest`: from every state of every run the own steps of the daemon are no more
   than its `effort`, in whatever order they are taken, with whatever calls failing and
   however little a read returns; they always lead to rest, and only there is none left.
   At rest every job that was queued, held or running has been finished, and the permits
   are all back. This needs a permit to begin with: the semaphore is made with the number
   from the configuration, and with 0 of them the first copy that is popped waits for good,
   and everything behind it in the queue.

   Correspondence (Rust ↔ Lean):
     `dispatcher`, `populate_worker`, `validate_worker`  ↔ the `Internal` actions of `Daemon.step`
     `submit_cache`, `dispatch`, `evict_to_fit`, begun   ↔ `submitting`, `watcher`, `evicting`
     `Semaphore::new(cfg.max_concurrent_copies)`         ↔ `Jobs.Permitted` -/

namespace FsCache
open Lib Daemon

/-- A step that is taken without anything from outside: of the dispatcher, of a worker, or of
a call that has begun. -/
def Action.Internal : Action → Prop
  | .pop _ | .acquire | .release | .work _ _ | .forget _ | .dispatch _ | .evictRow _ => True
  | .submit _ kind _ => kind = .populate
  | _ => False

/-- Nothing is queued, held or running, and no call is half through. -/
structure Daemon.AtRest (s : Daemon) : Prop where
  live : s.jobs.live = []
  releasing : s.jobs.releasing = 0
  submitting : s.submitting = []
  forgetting : s.forgetting = []
  evicting : s.evicting = []
  watcher : s.watcher = none

/-! ## How much is left to do -/

/-- The bytes there are to read. -/
def Backing.length (b : Backing) : Handle → Nat
  | .file i => (b.file i).bytes.length
  | .dir _ => 0

def Backing.sourceLength (b : Backing) (p : RelPath) : Nat := ((b.openFile p).map b.length).getD 0

/-- The calls a copy has before it, if every read returns one byte. -/
def CopyPc.effort (b : Backing) (p : RelPath) : CopyPc → Nat
  | .mkdir => 2 * b.sourceLength p + 13
  | .openSrc => 2 * b.sourceLength p + 12
  | .fstat src => 2 * b.length src + 11
  | .openDst src _ => 2 * b.length src + 10
  | .read ctx => 2 * (b.length ctx.src - ctx.written.length) + 9
  | .write ctx chunk => 2 * (b.length ctx.src - (ctx.written.length + chunk.length)) + 10
  | .sync _ => 8
  | .checkAbort _ => 7
  | .finalStat .. => 6
  | .apply .. => 5
  | .rename .. => 4
  | .failInner _ => 3
  | .failOuter _ => 2
  | .ok _ | .err => 1

/-- And a worker, with what it leaves to others: its permit and its row in `deferred_events`, or
a Replace. -/
def WorkerPc.effort (b : Backing) (p : RelPath) (kind : CacheJobKind) : WorkerPc → Nat
  | .start =>
    CopyPc.effort b p .mkdir + if kind = .validate then 14 else 6
  | .promote => CopyPc.effort b p .mkdir + 5
  | .room => CopyPc.effort b p .mkdir + 4
  | .copy pc => pc.effort b p + 3
  | .statLive _ => CopyPc.effort b p .mkdir + 13
  | .verdict _ => CopyPc.effort b p .mkdir + 12
  | .refresh (.readFingerprint _) => 6
  | .refresh (.readAttrs _) => 5
  | .refresh (.update _) => 4
  | .dropRow => 4
  | .finish => 3

/-- Of a job that is still to be popped, and spawned. -/
def queuedEffort (b : Backing) (p : RelPath) (kind : CacheJobKind) : Nat :=
  WorkerPc.effort b p kind .start + 2

def JobEffect.effort (b : Backing) (p : RelPath) : JobEffect → Nat
  | .submitReplace => queuedEffort b p .replace
  | _ => 0

def queueEffort (b : Backing) (queue : List CacheJob) : Nat :=
  (queue.map fun job => queuedEffort b job.relPath job.kind).sum

def heldEffort (b : Backing) : Option CacheJob → Nat
  | none => 0
  | some job => WorkerPc.effort b job.relPath job.kind .start + 1

def runningEffort (b : Backing) (pc : Nat → WorkerPc) (running : List (Nat × CacheJob)) : Nat :=
  (running.map fun r => WorkerPc.effort b r.2.relPath r.2.kind (pc r.1)).sum

def Jobs.effort (b : Backing) (pc : Nat → WorkerPc) (j : Jobs) : Nat :=
  queueEffort b j.queue + heldEffort b j.held + runningEffort b pc j.running + j.releasing

def submittingEffort (b : Backing) (submitting : List RelPath) : Nat :=
  (submitting.map fun p => queuedEffort b p .populate + 1).sum

def watcherEffort (b : Backing) : Option (RelPath × WatcherPc) → Nat
  | none => 0
  | some (p, .submitValidation) => queuedEffort b p .validate + 1
  | some (p, .markAbort) => queuedEffort b p .validate + 2

/-- An upper bound on the own steps that are left. -/
def Daemon.effort (s : Daemon) : Nat :=
  s.jobs.effort s.backing s.pc + submittingEffort s.backing s.submitting + watcherEffort s.backing s.watcher +
    s.forgetting.length + s.evicting.length

/-! ## Workers -/

section Worker

variable {b : Backing} {dir dir' : CacheDir} {db db' : CacheDb} {mount : MountId} {abort : Bool} {p : RelPath}
  {kind : CacheJobKind} {t : Nat}

/-- What is read is there. -/
theorem length_of_readAt {h : Handle} {off n : Nat} {bs : List UInt8} (hread : b.readAt h off n = some bs) :
    bs.length ≤ b.length h - off := by
  cases h with
  | dir st => exact absurd hread (by simp [Backing.readAt])
  | file i =>
    rw [← Option.some.inj hread, List.length_take, List.length_drop]
    exact Nat.min_le_right _ _

theorem sourceLength_of_open {src : Handle} (h : b.openFile p = some src) :
    b.sourceLength p = b.length src := by
  rw [Backing.sourceLength, h]
  rfl

theorem effort_copyMove {c : CopyChoice} {pc pc' : CopyPc} (hm : CopyMove b dir abort p t c pc dir' pc') :
    pc'.effort b p < pc.effort b p := by
  cases hm with
  | openSrc h =>
    simp only [CopyPc.effort, sourceLength_of_open h]
    omega
  | @chunk ctx n bs h hne =>
    have hle := length_of_readAt h
    have hpos := List.length_pos_of_ne_nil hne
    simp only [CopyPc.effort]
    omega
  | write ctx bs =>
    simp only [CopyPc.effort, List.length_append]
    omega
  | mkdirFails | mkdir | openSrcFails | fstat | fstatFails | openDst | openDstFails | readFails | eof | writeFails
  | syncFails | sync | checkAbort | refuse | accept | applyFails | apply | renameFails | rename | removeInner
  | removeOuter =>
    simp only [CopyPc.effort, List.length_nil]
    omega

theorem effort_refreshStep {pc pc' : RefreshPc} (h : refreshStep db mount p pc = (db', some pc')) :
    WorkerPc.effort b p kind (.refresh pc') < WorkerPc.effort b p kind (.refresh pc) := by
  cases refreshMove_of_step h with
  | agree | differs => exact Nat.lt_succ_self _

/-- A worker's step leads down, also with the Replace it may submit. -/
theorem effort_workMove {c : WorkChoice} {pc pc' : WorkerPc} {e : JobEffect}
    (hm : WorkMove b dir db mount abort p kind t c pc dir' db' e pc') (he : e ≠ .finish) :
    pc'.effort b p kind + e.effort b p < pc.effort b p kind := by
  cases hm with
  | finish => exact absurd rfl he
  | skip hk h =>
    simp only [WorkerPc.effort, CopyPc.effort, JobEffect.effort]
    omega
  | begin hk =>
    simp only [WorkerPc.effort, JobEffect.effort, if_neg hk]
    omega
  | readRow hk h | noRow hk h =>
    simp only [WorkerPc.effort, JobEffect.effort, if_pos hk]
    omega
  | copy hc =>
    have hlt := effort_copyMove hc
    simp only [WorkerPc.effort, JobEffect.effort]
    omega
  | refresh h => exact effort_refreshStep h
  | @refreshed pc db' h =>
    cases pc <;> simp only [WorkerPc.effort, JobEffect.effort] <;> omega
  | stale =>
    simp only [WorkerPc.effort, JobEffect.effort, queuedEffort, reduceCtorEq, if_false]
    omega
  | promote | noRoom | room | mark | copyFailed | statLive | fresh | notTracked | backfill | dropFile | dropRow =>
    simp only [WorkerPc.effort, CopyPc.effort, JobEffect.effort]
    omega

end Worker

/-! ## The pipeline -/

namespace Jobs

variable {b : Backing} {pc pc' : Nat → WorkerPc} {j j' : Jobs} {ttlMinutes : Nat} {t : Nat} {job : CacheJob}

theorem runningEffort_congr {running : List (Nat × CacheJob)} (h : ∀ r ∈ running, pc' r.1 = pc r.1) :
    runningEffort b pc' running = runningEffort b pc running := by
  unfold runningEffort
  exact congrArg List.sum (List.map_congr_left fun r hr => by rw [h r hr])

/-- What a running job has before it, and what the others have. -/
theorem runningEffort_split (b : Backing) (pc : Nat → WorkerPc) (hp : j.Partition) (hjob : j.jobOf t = some job) :
    runningEffort b pc j.running =
      WorkerPc.effort b job.relPath job.kind (pc t) + runningEffort b pc (j.running.filter fun r => r.1 ≠ t) := by
  have hperm := perm_running (mem_running hjob) hp.tasks
  calc runningEffort b pc j.running
      = runningEffort b pc ((t, job) :: j.running.filter fun r => r.1 ≠ t) := (hperm.map _).sum_eq
    _ = _ := List.sum_cons

/-- Its step changes nothing for the others. -/
theorem runningEffort_others (x : WorkerPc) :
    runningEffort b (Function.update pc t x) (j.running.filter fun r => r.1 ≠ t) =
      runningEffort b pc (j.running.filter fun r => r.1 ≠ t) := by
  refine runningEffort_congr fun r hr => ?_
  exact Function.update_of_ne (of_decide_eq_true (List.mem_filter.mp hr).2) _ _

theorem queueEffort_perm {queue rest : List CacheJob} (h : queue.Perm (job :: rest)) :
    queueEffort b queue = queuedEffort b job.relPath job.kind + queueEffort b rest := by
  calc queueEffort b queue
      = queueEffort b (job :: rest) := (h.map _).sum_eq
    _ = _ := List.sum_cons

theorem effort_submitJob (b : Backing) (pc : Nat → WorkerPc) (j : Jobs) (p : RelPath) (kind : CacheJobKind)
    (now : Nat) : (j.submitJob p kind now).effort b pc ≤ j.effort b pc + queuedEffort b p kind := by
  unfold submitJob
  split
  · exact Nat.le_add_right _ _
  · simp only [effort, queueEffort, List.map_append, List.sum_append, List.map_singleton, List.sum_singleton]
    omega

/-- The number of a new task is not in use. -/
theorem effort_spawn (hp : j.Partition) (j₀ : Jobs) (hrunning : j₀.running = j.running)
    (hnext : j₀.nextTask = j.nextTask) :
    (j₀.spawn job).effort b (Function.update pc j.nextTask .start) =
      j₀.effort b pc + WorkerPc.effort b job.relPath job.kind .start := by
  have hold : runningEffort b (Function.update pc j.nextTask .start) j.running = runningEffort b pc j.running :=
    runningEffort_congr fun r hr => Function.update_of_ne (Nat.ne_of_lt (hp.tasks_lt r hr)) _ _
  have hnew : runningEffort b (Function.update pc j.nextTask .start) (j.running ++ [(j.nextTask, job)]) =
      runningEffort b pc j.running + WorkerPc.effort b job.relPath job.kind .start := by
    rw [← hold]
    simp only [runningEffort, List.map_append, List.sum_append, List.map_singleton, List.sum_singleton,
      Function.update_self]
  simp only [effort, spawn, hrunning, hnext, hnew]
  omega

theorem effort_pop (b : Backing) (pc : Nat → WorkerPc) (hp : j.Partition) {copyAllowed : Bool}
    (h : pipeStep ttlMinutes j (.pop copyAllowed) = some j') :
    j'.effort b (Function.update pc j.nextTask .start) < j.effort b pc := by
  cases pipeMove_of_step h with
  | @validate _ job rest hheld hpop hk =>
    rw [effort_spawn hp { j with queue := rest } rfl rfl]
    simp only [effort, queueEffort_perm (perm_popNextJob hpop), queuedEffort]
    omega
  | @hold _ job rest hheld hpop hk =>
    have hold : runningEffort b (Function.update pc j.nextTask .start) j.running = runningEffort b pc j.running :=
      runningEffort_congr fun r hr => Function.update_of_ne (Nat.ne_of_lt (hp.tasks_lt r hr)) _ _
    simp only [effort, queueEffort_perm (perm_popNextJob hpop), queuedEffort, hold, hheld, heldEffort]
    omega

theorem effort_acquire (b : Backing) (pc : Nat → WorkerPc) (hp : j.Partition)
    (h : pipeStep ttlMinutes j .acquire = some j') :
    j'.effort b (Function.update pc j.nextTask .start) < j.effort b pc := by
  cases pipeMove_of_step h with
  | @acquire job hheld hfree =>
    rw [effort_spawn hp { j with held := none, permits := j.permits - 1 } rfl rfl]
    simp only [effort, hheld, heldEffort]
    omega

theorem effort_release (b : Backing) (pc : Nat → WorkerPc) (h : pipeStep ttlMinutes j .release = some j') :
    j'.effort b pc < j.effort b pc := by
  cases pipeMove_of_step h with
  | release hreleasing =>
    simp only [effort]
    omega

/-! ## The permits -/

/-- Every permit is free, on its way back, or with a running copy, and only a copy is held. -/
structure Permitted (max : Nat) (j : Jobs) : Prop where
  permits : j.permits + j.releasing + Dispatching.runningCopies j = max
  held : ∀ job ∈ j.held, job.kind ≠ .validate

theorem Permitted.step {max : Nat} {a : PipeAction} (h : j.Permitted max) (hp : j.Partition)
    (hs : pipeStep ttlMinutes j a = some j') : j'.Permitted max := by
  have hsum := h.permits
  cases pipeMove_of_step hs with
  | submit relPath kind now =>
    refine ⟨?_, by rw [held_submitJob]; exact h.held⟩
    unfold submitJob
    split <;> exact hsum
  | @expire now hheld =>
    obtain ⟨queue, known, expired, e, -⟩ := expireStale_spec j ttlMinutes now
    rw [e]
    exact ⟨hsum, h.held⟩
  | @validate _ job rest hheld hpop hk =>
    refine ⟨?_, h.held⟩
    rw [Dispatching.runningCopies_spawn, if_pos hk]
    exact hsum
  | @hold _ job rest hheld hpop hk =>
    refine ⟨hsum, fun x hx => ?_⟩
    obtain rfl := Option.some.inj hx
    exact hk
  | @acquire job hheld hfree =>
    refine ⟨?_, fun x hx => absurd hx (by simp [spawn])⟩
    rw [Dispatching.runningCopies_spawn, if_neg (h.held job hheld)]
    simp only [spawn, Dispatching.runningCopies] at hsum ⊢
    omega
  | promote hjob hk => exact ⟨hsum, h.held⟩
  | @finish t job hjob =>
    refine ⟨?_, h.held⟩
    rw [Dispatching.runningCopies_finish hp hjob] at hsum
    rw [← hsum]
    simp only [finish]
    split <;> omega
  | release hreleasing =>
    refine ⟨?_, h.held⟩
    rw [← hsum]
    simp only [Dispatching.runningCopies]
    omega

theorem permitted_rehydrate (loaded : List (RelPath × Nat)) (max nextTask : Nat) :
    (rehydrate loaded max nextTask).Permitted max := by
  have hp := partition_initial max nextTask
  refine (List.foldlRecOn (motive := fun j : Jobs => j.Partition ∧ j.Permitted max) loaded _
    ⟨hp, ⟨rfl, fun x hx => absurd hx (by simp [initial])⟩⟩ fun j hj l _ => ?_).2
  have hs : pipeStep 0 j (.submit l.1 .populate l.2) = some (j.submitJob l.1 .populate l.2) := rfl
  exact ⟨partition_pipeStep hj.1 hs, hj.2.step hj.1 hs⟩

end Jobs

namespace Daemon

variable {cfg : Config} {s s' : Daemon} {a : Action}

/-! ## The own steps -/

/-- What is known of a daemon in every state. -/
structure Going (cfg : Config) (s : Daemon) : Prop where
  wf : s.Wf
  fits : ∀ p, Fits (s.phase p)
  permitted : s.jobs.Permitted cfg.maxConcurrentCopies

theorem Going.step (h : Going cfg s) (hs : Daemon.step cfg s a = some s') : Going cfg s' := by
  refine ⟨h.wf.step hs, fits_step h.wf h.fits hs, ?_⟩
  obtain e | ⟨pa, hp, -⟩ | ⟨now, loaded, -, e⟩ := jobs_step hs
  · rw [e]
    exact h.permitted
  · exact h.permitted.step h.wf.partition hp
  · rw [e]
    exact Jobs.permitted_rehydrate _ _ _

theorem going_start (cfg : Config) (b : Backing) (dir : CacheDir) (db : CacheDb) (loaded : List (RelPath × Nat)) :
    Going cfg (start cfg b dir db loaded) :=
  ⟨wf_start cfg b dir db loaded, fits_start cfg b dir db loaded, Jobs.permitted_rehydrate _ _ _⟩

theorem submittingEffort_erase {b : Backing} {p : RelPath} {l : List RelPath} (h : p ∈ l) :
    submittingEffort b l = queuedEffort b p .populate + 1 + submittingEffort b (l.erase p) := by
  calc submittingEffort b l
      = submittingEffort b (p :: l.erase p) := ((List.perm_cons_erase h).map _).sum_eq
    _ = _ := List.sum_cons

/-- A worker's step leads down, with what it gives to the pipeline. -/
theorem effort_worked (h : Going cfg s) {t : Nat} {c : WorkChoice} {job : CacheJob} {dir : CacheDir}
    {db : CacheDb} {e : JobEffect} {pc : WorkerPc} (hjob : s.jobs.jobOf t = some job)
    (hm : WorkMove s.backing s.dir s.db cfg.mount (s.aborted t) job.relPath job.kind t c (s.pc t) dir db e pc) :
    (s.worked t job c.now dir db e pc).effort < s.effort := by
  have hold : runningEffort s.backing s.pc s.jobs.running = _ :=
    Jobs.runningEffort_split s.backing s.pc h.wf.partition hjob
  have hnew : runningEffort s.backing (Function.update s.pc t pc) s.jobs.running = _ :=
    Jobs.runningEffort_split s.backing (Function.update s.pc t pc) h.wf.partition hjob
  rw [Jobs.runningEffort_others, Function.update_self] at hnew
  by_cases he : e = .finish
  · -- the row in `deferred_events` and the permit are still to be given back
    subst he
    have hpc : s.pc t = .finish := by
      generalize s.pc t = pc₀ at hm
      cases hm
      rfl
    rw [hpc] at hold
    have hrest : (s.jobs.finish t job).effort s.backing (Function.update s.pc t pc) + 2 ≤
        s.jobs.effort s.backing s.pc := by
      simp only [Jobs.effort, Jobs.finish, Jobs.runningEffort_others, hold, WorkerPc.effort]
      split <;> omega
    simp only [effort, worked]
    split
    · rw [List.length_cons]
      omega
    · omega
  · have hlt := effort_workMove hm he
    have hjobs : (s.worked t job c.now dir db e pc).jobs.effort s.backing (Function.update s.pc t pc) <
        s.jobs.effort s.backing s.pc := by
      cases e with
      | finish => exact absurd rfl he
      | none | promote =>
        simp only [JobEffect.effort] at hlt
        simp only [worked, Jobs.promote, Jobs.effort, hold, hnew]
        omega
      | submitReplace =>
        have hle := Jobs.effort_submitJob s.backing (Function.update s.pc t pc) s.jobs job.relPath .replace c.now
        simp only [JobEffect.effort] at hlt
        have hself : s.jobs.effort s.backing (Function.update s.pc t pc) +
            queuedEffort s.backing job.relPath .replace < s.jobs.effort s.backing s.pc := by
          simp only [Jobs.effort, hold, hnew]
          omega
        exact Nat.lt_of_le_of_lt hle hself
    have hforgetting : (s.worked t job c.now dir db e pc).forgetting = s.forgetting := if_neg fun hf => he hf.1
    simp only [effort, hforgetting]
    exact Nat.add_lt_add_right (Nat.add_lt_add_right (Nat.add_lt_add_right (Nat.add_lt_add_right hjobs _) _) _) _

/-- Whatever the daemon does by itself leads down. -/
theorem effort_step (h : Going cfg s) (ha : a.Internal) (hs : step cfg s a = some s') : s'.effort < s.effort := by
  have hp := h.wf.partition
  cases move_of_step hs with
  | pop hpop =>
    have hlt := Jobs.effort_pop s.backing s.pc hp hpop
    simp only [effort, spawned]
    omega
  | acquire hacq =>
    have hlt := Jobs.effort_acquire s.backing s.pc hp hacq
    simp only [effort, spawned]
    omega
  | release hrel =>
    have hlt := Jobs.effort_release s.backing s.pc hrel
    simp only [effort]
    omega
  | work hjob hstep => exact effort_worked h hjob (workMove_of_step hstep)
  | @populate p now hm =>
    have hle := Jobs.effort_submitJob s.backing s.pc s.jobs p .populate now
    simp only [effort, submittingEffort_erase hm]
    omega
  | forget hm =>
    have hpos := List.length_pos_of_mem hm
    simp only [effort, List.length_erase_of_mem hm]
    omega
  | evictRow hm =>
    have hpos := List.length_pos_of_mem hm
    simp only [effort, List.length_erase_of_mem hm]
    omega
  | markAbort hw =>
    simp only [effort, hw, watcherEffort]
    omega
  | @dispatch p now hw =>
    have hle := Jobs.effort_submitJob s.backing s.pc s.jobs p .validate now
    simp only [effort, hw, watcherEffort]
    omega
  | submit hk => exact absurd ha hk
  | change | served | offer | expire | event | evictFile | hit | touch | refresh | crash => exact absurd ha id

/-! ## Nothing waits for good -/

/-- A worker can always go on, if only by failing. -/
theorem worker_goes_on {b : Backing} {dir : CacheDir} {db : CacheDb} {mount : MountId} {abort : Bool} {p : RelPath}
    {kind : CacheJobKind} {t : Nat} {pc : WorkerPc} (h : pc.fits kind = true) :
    workerStep b dir db mount abort p kind t ⟨0, true, 0⟩ pc ≠ none := by
  cases pc with
  | start =>
    cases kind with
    | populate | replace => exact Option.some_ne_none _
    | validate =>
      simp only [workerStep]
      split <;> exact Option.some_ne_none _
  | promote =>
    have hk : kind ≠ .validate := by simpa [WorkerPc.fits] using h
    rw [workerStep, if_neg hk]
    exact Option.some_ne_none _
  | copy pc =>
    cases pc with
    | finalStat ctx aborted =>
      simp only [workerStep, copyStep]
      cases aborted || changedSince ctx.init (WorkChoice.copy ⟨0, true, 0⟩ |>.finalStat b p) <;>
        exact Option.some_ne_none _
    | mkdir | openSrc | fstat | openDst | read | write | sync | checkAbort | apply | rename | failInner | failOuter
    | ok | err => exact Option.some_ne_none _
  | verdict result => cases result <;> exact Option.some_ne_none _
  | refresh pc =>
    simp only [workerStep]
    split <;> exact Option.some_ne_none _
  | room | statLive | dropRow | finish => exact Option.some_ne_none _

/-- A worker that is stuck is not there. -/
theorem running_of_stuck (h : Going cfg s) (hstuck : Stuck (step cfg) Action.Internal s) : s.jobs.running = [] := by
  refine List.eq_nil_iff_forall_not_mem.mpr fun r hr => ?_
  obtain ⟨t, job⟩ := r
  have hjob := (Jobs.jobOf_eq_some_iff h.wf.partition).mpr hr
  have hphase : s.phase job.relPath job.kind = .running t (s.aborted t) (s.pc t) :=
    (phase_eq_running_iff h.wf).mpr ⟨job, hjob, rfl, rfl, rfl⟩
  have hfits := h.fits job.relPath job.kind t (s.aborted t) (s.pc t) hphase
  have hnone := hstuck (.work t ⟨0, true, 0⟩) trivial
  simp only [step, hjob] at hnone
  split at hnone
  · next hworker => exact worker_goes_on hfits hworker
  · exact absurd hnone (by simp)

theorem atRest_of_stuck (hmax : 0 < cfg.maxConcurrentCopies) (h : Going cfg s)
    (hstuck : Stuck (step cfg) Action.Internal s) : s.AtRest := by
  have hrunning := running_of_stuck h hstuck
  have hreleasing : s.jobs.releasing = 0 := by
    by_contra hne
    have hnone := hstuck .release trivial
    simp [step, pipeStep, Jobs.release, hne] at hnone
  have hheld : s.jobs.held = none := by
    refine Option.eq_none_iff_forall_ne_some.mpr fun job hjob => ?_
    -- nothing runs and nothing is on its way back, so all permits are free
    have hsum := h.permitted.permits
    have hpermits : s.jobs.permits ≠ 0 := by
      simp only [Dispatching.runningCopies, hrunning, hreleasing, List.countP_nil] at hsum
      omega
    have hnone := hstuck .acquire trivial
    simp [step, pipeStep, Jobs.acquire, hjob, hpermits] at hnone
  have hqueue : s.jobs.queue = [] := by
    cases hq : s.jobs.queue with
    | nil => rfl
    | cons job rest =>
      have hnone := hstuck (.pop true) trivial
      simp only [step, pipeStep, hheld, Option.isSome_none, Bool.false_eq_true, if_false, Jobs.pop, popNextJob,
        hq, if_true] at hnone
      split at hnone <;> exact absurd hnone (by simp)
  refine ⟨by rw [Jobs.live, hqueue, hheld, hrunning]; rfl, hreleasing, ?_, ?_, ?_, ?_⟩
  · refine List.eq_nil_iff_forall_not_mem.mpr fun p hm => ?_
    have hnone := hstuck (.submit p .populate 0) rfl
    simp [step, hm] at hnone
  · refine List.eq_nil_iff_forall_not_mem.mpr fun p hm => ?_
    have hnone := hstuck (.forget p) trivial
    simp [step, hm] at hnone
  · refine List.eq_nil_iff_forall_not_mem.mpr fun p hm => ?_
    have hnone := hstuck (.evictRow p) trivial
    simp [step, hm] at hnone
  · cases hw : s.watcher with
    | none => rfl
    | some w =>
      obtain ⟨p, pc⟩ := w
      have hnone := hstuck (.dispatch 0) trivial
      cases pc <;> simp [step, hw] at hnone

theorem stuck_of_atRest (h : s.AtRest) : Stuck (step cfg) Action.Internal s := by
  have hlive := h.live
  simp only [Jobs.live, List.append_eq_nil_iff, List.map_eq_nil_iff] at hlive
  obtain ⟨⟨hqueue, hheld⟩, hrunning⟩ := hlive
  have hheld : s.jobs.held = none := by simpa using hheld
  intro a ha
  refine Option.eq_none_iff_forall_ne_some.mpr fun s' hs => ?_
  cases move_of_step hs with
  | pop hpop =>
    cases pipeMove_of_step hpop with
    | validate _ hfront | hold _ hfront =>
      have hm := (Jobs.perm_popNextJob hfront).mem_iff.mpr List.mem_cons_self
      rw [hqueue] at hm
      exact absurd hm List.not_mem_nil
  | acquire hacq =>
    cases pipeMove_of_step hacq with
    | acquire hj hfree => exact absurd (hheld.symm.trans hj) (by simp)
  | release hrel =>
    cases pipeMove_of_step hrel with
    | release hne => exact hne h.releasing
  | work hjob hstep =>
    have hm := Jobs.mem_running hjob
    rw [hrunning] at hm
    exact absurd hm List.not_mem_nil
  | populate hm =>
    rw [h.submitting] at hm
    exact absurd hm List.not_mem_nil
  | forget hm =>
    rw [h.forgetting] at hm
    exact absurd hm List.not_mem_nil
  | evictRow hm =>
    rw [h.evicting] at hm
    exact absurd hm List.not_mem_nil
  | markAbort hw | dispatch hw => exact absurd (h.watcher.symm.trans hw) (by simp)
  | submit hk => exact absurd ha hk
  | change | served | offer | expire | event | evictFile | hit | touch | refresh | crash => exact absurd ha id

/-! ## What has become of the jobs -/

/-- Nothing of what was accepted is forgotten, and nothing more expires. -/
structure Keeps (s s' : Daemon) : Prop where
  accepted : s.jobs.accepted ⊆ s'.jobs.accepted
  expired : s'.jobs.expired = s.jobs.expired

theorem keeps_submitJob {p : RelPath} {kind : CacheJobKind} {now : Nat}
    (h : s'.jobs = s.jobs.submitJob p kind now) : Keeps s s' := by
  unfold Jobs.submitJob at h
  split at h
  · exact ⟨by rw [h]; exact List.Subset.refl _, by rw [h]⟩
  · exact ⟨by rw [h]; exact List.subset_append_left _ _, by rw [h]⟩

theorem keeps_step (ha : a.Internal) (hs : step cfg s a = some s') : Keeps s s' := by
  cases move_of_step hs with
  | pop hpop => cases pipeMove_of_step hpop <;> exact ⟨List.Subset.refl _, rfl⟩
  | acquire hacq => cases pipeMove_of_step hacq; exact ⟨List.Subset.refl _, rfl⟩
  | release hrel => cases pipeMove_of_step hrel; exact ⟨List.Subset.refl _, rfl⟩
  | @work t c job dir db e pc hjob hstep =>
    cases e with
    | submitReplace => exact keeps_submitJob rfl
    | none | promote | finish => exact ⟨List.Subset.refl _, rfl⟩
  | populate hm | dispatch hw => exact keeps_submitJob rfl
  | forget | evictRow | markAbort => exact ⟨List.Subset.refl _, rfl⟩
  | submit hk => exact absurd ha hk
  | change | served | offer | expire | event | evictFile | hit | touch | refresh | crash => exact absurd ha id

theorem keeps_run {as : List Action} (hown : ∀ a ∈ as, a.Internal) (h : run (step cfg) s as = some s') :
    Keeps s s' := by
  have hok : Along (step cfg) (fun _ a => a.Internal) s as := Along.of_mem hown
  refine run_invariant_along (Keeps s) ?_ h hok ⟨List.Subset.refl _, rfl⟩
  intro u a u' hu ha hs
  have hnext := keeps_step ha hs
  exact ⟨List.Subset.trans hu.accepted hnext.accepted, hnext.expired.trans hu.expired⟩

/-- What was there to do has been done. -/
theorem finished_of_atRest (h : Going cfg s) (h' : Going cfg s') (hk : Keeps s s') (hrest : s'.AtRest)
    {job : CacheJob} (hjob : job ∈ s.jobs.live) : job ∈ s'.jobs.finished := by
  have haccepted := h.wf.partition.accounted
  have hmem : job ∈ s.jobs.accepted := haccepted.mem_iff.mpr (List.mem_append_left _ hjob)
  have hexpired : job ∉ s.jobs.expired := by
    have hnd := haccepted.nodup_iff.mp h.wf.partition.ids.of_map
    exact fun hx => (List.nodup_append.mp hnd).2.2 job hjob job (List.mem_append_right _ hx) rfl
  have hmem' := h'.wf.partition.accounted.mem_iff.mp (hk.accepted hmem)
  rw [hrest.live, List.nil_append, hk.expired] at hmem'
  exact (List.mem_append.mp hmem').resolve_right hexpired

private def teaser : Name := ⟨[116], Eq.refl true⟩

private def singlePermit : Config := ⟨[109], 60, 1⟩

private def teaserStart : Daemon :=
  start singlePermit (Backing.empty.replaceFile [teaser] (.pair 80 81 1)) Files.empty ⟨∅, ∅⟩ []

end Daemon

end FsCache
