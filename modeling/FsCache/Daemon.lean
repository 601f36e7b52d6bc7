import FsCache.Lib.Run
import FsCache.CopyWindow
import FsCache.Phases

/- The daemon of one mount: the backing directory, the cache directory and the
   database, the job pipeline with its workers, the watcher's dispatch, eviction,
   the metadata refreshes of mount requests, and a crash with the startup after it.

   A step is one system call, one database statement or one section under the
   pipeline's lock, so every interleaving of the tasks is a run. `WorkerPc` says
   what the worker of a task does next, `workerStep` is that step: what it does to
   the files and the rows, and to the pipeline (`JobEffect`).

   What is looser here than in the source, so that there are more runs: a
   validation or a replacement may be submitted at any time and for any path, an
   eviction may take any cache file, an event may name any path, and a mount
   request may refresh the metadata of any path.

   Correspondence (Rust ↔ Lean):
     `job_worker`, `populate_worker`, `validate_worker` ↔ `workerStep` over `WorkerPc`
     `submit_cache`, `submit_job`       ↔ `Action.offer`, `Action.submit`
     `mark_abort`                       ↔ `markAbort`
     `dispatch` (backing_watch.rs)      ↔ `Action.event`, `Action.dispatch`
     `evict_if_needed`, `evict_to_fit`  ↔ `Action.evictFile`, `Action.evictRow`
     `cached_regular_attr`, `do_setattr` ↔ `Action.touch`, `Action.refresh`
     `startup_cleanup`, `CacheIO::spawn` ↔ `Action.crash` -/

namespace FsCache
open Lib

structure Config where
  mount : MountId
  deferredTtlMinutes : Nat
  maxConcurrentCopies : Nat

/-- What the worker of a task does next. -/
inductive WorkerPc where
  | start
  /-- take the lock, and put the abort handle into `known` -/
  | promote
  /-- make room: `has_free_space`, `evict_to_fit` -/
  | room
  | copy (pc : CopyPc)
  /-- the backing stat of `is_stale`, with the fingerprint of the row -/
  | statLive (fp : Fingerprint)
  | verdict (result : StaleResult)
  | refresh (pc : RefreshPc)
  /-- `drop_stale` has removed the file, and not yet the row -/
  | dropRow
  | finish
  deriving DecidableEq

/-- What a worker's step does to the pipeline. -/
inductive JobEffect where
  | none
  | promote
  | submitReplace
  | finish
  deriving DecidableEq

/-- What a worker's step leaves open; `now` is the clock. -/
structure WorkChoice where
  n : Nat
  fail : Bool
  now : Nat

def WorkChoice.copy (c : WorkChoice) : CopyChoice := ⟨c.n, c.fail⟩

/-- `BackingStore::stat`, when it may fail. -/
def WorkChoice.stat (c : WorkChoice) (b : Backing) (p : RelPath) : Option Stat :=
  if c.fail then none else b.stat p

/-- One step of the worker of task `t`, whose job is of this path and kind. -/
def workerStep (b : Backing) (dir : CacheDir) (db : CacheDb) (mount : MountId) (abort : Bool)
    (p : RelPath) (kind : CacheJobKind) (t : Nat) (c : WorkChoice) :
    WorkerPc → Option (CacheDir × CacheDb × JobEffect × WorkerPc)
  | .start =>
    match kind with
    | .populate => some (dir, db, .none, if isCached dir p then .finish else .promote)
    | .replace => some (dir, db, .none, .promote)
    | .validate =>
      match db.fingerprintRow p mount with
      | some fp => some (dir, db, .none, .statLive fp)
      | none => some (dir, db, .none, .verdict .notTracked)
  | .promote => if kind = .validate then none else some (dir, db, .promote, .room)
  | .room => some (dir, db, .none, if c.fail then .finish else .copy .mkdir)
  | .copy (.ok snapshot) => some (dir, db.markCached p mount snapshot c.now, .none, .finish)
  | .copy .err => some (dir, db, .none, .finish)
  | .copy pc =>
    match copyStep b dir abort p t c.copy pc with
    | none => none
    | some (dir', pc') => some (dir', db, .none, .copy pc')
  | .statLive fp => some (dir, db, .none, .verdict (isStaleWithFingerprint (c.stat b p) fp))
  | .verdict (.fresh live) => some (dir, db, .none, .refresh (.readFingerprint live))
  | .verdict .notTracked => some (dir, db, .none, .finish)
  | .verdict (.needsBackfill st) => some (dir, backfillFingerprint db mount p st c.now, .none, .finish)
  | .verdict .backingGone => some (if c.fail then dir else removeFile dir p, db, .none, .dropRow)
  | .verdict .stale => some (dir, db, .submitReplace, .finish)
  | .refresh pc =>
    match refreshStep db mount p pc with
    | (db', none) => some (dir, db', .none, .finish)
    | (db', some pc') => some (dir, db', .none, .refresh pc')
  | .dropRow => some (dir, db.remove p mount, .none, .finish)
  | .finish => some (dir, db, .finish, .finish)

/-- What one step of a worker can do. -/
inductive WorkMove (b : Backing) (dir : CacheDir) (db : CacheDb) (mount : MountId) (abort : Bool)
    (p : RelPath) (kind : CacheJobKind) (t : Nat) (c : WorkChoice) :
    WorkerPc → CacheDir → CacheDb → JobEffect → WorkerPc → Prop
  | skip (hk : kind = .populate) (h : isCached dir p = true) :
      WorkMove b dir db mount abort p kind t c .start dir db .none .finish
  | begin (hk : kind ≠ .validate) :
      WorkMove b dir db mount abort p kind t c .start dir db .none .promote
  | readRow (hk : kind = .validate) {fp : Fingerprint} (h : db.fingerprintRow p mount = some fp) :
      WorkMove b dir db mount abort p kind t c .start dir db .none (.statLive fp)
  | noRow (hk : kind = .validate) (h : db.fingerprintRow p mount = none) :
      WorkMove b dir db mount abort p kind t c .start dir db .none (.verdict .notTracked)
  | promote (hk : kind ≠ .validate) :
      WorkMove b dir db mount abort p kind t c .promote dir db .promote .room
  | noRoom (h : c.fail = true) : WorkMove b dir db mount abort p kind t c .room dir db .none .finish
  | room (h : c.fail = false) :
      WorkMove b dir db mount abort p kind t c .room dir db .none (.copy .mkdir)
  | copy {pc pc' : CopyPc} {dir' : CacheDir} (h : CopyMove b dir abort p t c.copy pc dir' pc') :
      WorkMove b dir db mount abort p kind t c (.copy pc) dir' db .none (.copy pc')
  | mark (snapshot : SourceMetadata) :
      WorkMove b dir db mount abort p kind t c (.copy (.ok snapshot)) dir
        (db.markCached p mount snapshot c.now) .none .finish
  | copyFailed : WorkMove b dir db mount abort p kind t c (.copy .err) dir db .none .finish
  | statLive (fp : Fingerprint) :
      WorkMove b dir db mount abort p kind t c (.statLive fp) dir db .none
        (.verdict (isStaleWithFingerprint (c.stat b p) fp))
  | fresh (live : Stat) :
      WorkMove b dir db mount abort p kind t c (.verdict (.fresh live)) dir db .none
        (.refresh (.readFingerprint live))
  | notTracked : WorkMove b dir db mount abort p kind t c (.verdict .notTracked) dir db .none .finish
  | backfill (st : Stat) :
      WorkMove b dir db mount abort p kind t c (.verdict (.needsBackfill st)) dir
        (backfillFingerprint db mount p st c.now) .none .finish
  | dropFile {dir' : CacheDir} (h : dir' = dir ∨ dir' = removeFile dir p) :
      WorkMove b dir db mount abort p kind t c (.verdict .backingGone) dir' db .none .dropRow
  | stale : WorkMove b dir db mount abort p kind t c (.verdict .stale) dir db .submitReplace .finish
  | refresh {pc pc' : RefreshPc} {db' : CacheDb} (h : refreshStep db mount p pc = (db', some pc')) :
      WorkMove b dir db mount abort p kind t c (.refresh pc) dir db' .none (.refresh pc')
  | refreshed {pc : RefreshPc} {db' : CacheDb} (h : refreshStep db mount p pc = (db', none)) :
      WorkMove b dir db mount abort p kind t c (.refresh pc) dir db' .none .finish
  | dropRow :
      WorkMove b dir db mount abort p kind t c .dropRow dir (db.remove p mount) .none .finish
  | finish : WorkMove b dir db mount abort p kind t c .finish dir db .finish .finish

theorem workMove_of_step {b : Backing} {dir dir' : CacheDir} {db db' : CacheDb} {mount : MountId}
    {abort : Bool} {p : RelPath} {kind : CacheJobKind} {t : Nat} {c : WorkChoice}
    {pc pc' : WorkerPc} {e : JobEffect}
    (h : workerStep b dir db mount abort p kind t c pc = some (dir', db', e, pc')) :
    WorkMove b dir db mount abort p kind t c pc dir' db' e pc' := by
  have inj : ∀ {x : CacheDir × CacheDb × JobEffect × WorkerPc}, some x = some (dir', db', e, pc') →
      dir' = x.1 ∧ db' = x.2.1 ∧ e = x.2.2.1 ∧ pc' = x.2.2.2 := by
    rintro x hx
    rw [Option.some.inj hx]
    exact ⟨rfl, rfl, rfl, rfl⟩
  cases pc with
  | start =>
    cases kind with
    | populate =>
      obtain ⟨rfl, rfl, rfl, rfl⟩ := inj h
      by_cases hc : isCached dir' p = true
      · simp only [if_pos hc]
        exact .skip rfl hc
      · simp only [if_neg hc]
        exact .begin (by simp)
    | replace =>
      obtain ⟨rfl, rfl, rfl, rfl⟩ := inj h
      exact .begin (by simp)
    | validate =>
      simp only [workerStep] at h
      split at h
      · next fp hfp =>
        obtain ⟨rfl, rfl, rfl, rfl⟩ := inj h
        exact .readRow rfl hfp
      · next hfp =>
        obtain ⟨rfl, rfl, rfl, rfl⟩ := inj h
        exact .noRow rfl hfp
  | promote =>
    by_cases hk : kind = .validate
    · simp [workerStep, hk] at h
    · rw [workerStep, if_neg hk] at h
      obtain ⟨rfl, rfl, rfl, rfl⟩ := inj h
      exact .promote hk
  | room =>
    obtain ⟨rfl, rfl, rfl, rfl⟩ := inj h
    by_cases hf : c.fail = true
    · simp only [if_pos hf]
      exact .noRoom hf
    · simp only [if_neg hf]
      exact .room (by simpa using hf)
  | copy cpc =>
    have moved : (match copyStep b dir abort p t c.copy cpc with
        | none => none
        | some (dir', pc') => some (dir', db, JobEffect.none, WorkerPc.copy pc')) =
          some (dir', db', e, pc') →
        WorkMove b dir db mount abort p kind t c (.copy cpc) dir' db' e pc' := by
      intro hs
      split at hs
      · exact absurd hs (by simp)
      · next hstep =>
        obtain ⟨rfl, rfl, rfl, rfl⟩ := inj hs
        exact .copy (copyMove_of_step hstep)
    cases cpc with
    | ok snapshot =>
      obtain ⟨rfl, rfl, rfl, rfl⟩ := inj h
      exact .mark snapshot
    | err =>
      obtain ⟨rfl, rfl, rfl, rfl⟩ := inj h
      exact .copyFailed
    | mkdir | openSrc | fstat | openDst | read | write | sync | checkAbort | finalStat | apply
    | rename | failInner | failOuter => exact moved h
  | statLive fp =>
    obtain ⟨rfl, rfl, rfl, rfl⟩ := inj h
    exact .statLive fp
  | verdict r =>
    cases r with
    | fresh live =>
      obtain ⟨rfl, rfl, rfl, rfl⟩ := inj h
      exact .fresh live
    | stale =>
      obtain ⟨rfl, rfl, rfl, rfl⟩ := inj h
      exact .stale
    | backingGone =>
      obtain ⟨rfl, rfl, rfl, rfl⟩ := inj h
      exact .dropFile (by cases c.fail <;> simp)
    | notTracked =>
      obtain ⟨rfl, rfl, rfl, rfl⟩ := inj h
      exact .notTracked
    | needsBackfill st =>
      obtain ⟨rfl, rfl, rfl, rfl⟩ := inj h
      exact .backfill st
  | refresh pc =>
    simp only [workerStep] at h
    split at h
    · next hr =>
      obtain ⟨rfl, rfl, rfl, rfl⟩ := inj h
      exact .refreshed hr
    · next hr =>
      obtain ⟨rfl, rfl, rfl, rfl⟩ := inj h
      exact .refresh hr
  | dropRow =>
    obtain ⟨rfl, rfl, rfl, rfl⟩ := inj h
    exact .dropRow
  | finish =>
    obtain ⟨rfl, rfl, rfl, rfl⟩ := inj h
    exact .finish

/-- A worker that stays with its copy has made a step of it. -/
theorem copyStep_of_workerStep {b : Backing} {dir dir' : CacheDir} {db db' : CacheDb}
    {mount : MountId} {abort : Bool} {p : RelPath} {kind : CacheJobKind} {t : Nat} {c : WorkChoice}
    {pc pc' : CopyPc} {e : JobEffect}
    (h : workerStep b dir db mount abort p kind t c (.copy pc) = some (dir', db', e, .copy pc')) :
    copyStep b dir abort p t c.copy pc = some (dir', pc') := by
  cases pc with
  | ok | err => simp [workerStep] at h
  | mkdir | openSrc | fstat | openDst | read | write | sync | checkAbort | finalStat | apply | rename
  | failInner | failOuter =>
    simp only [workerStep] at h
    split at h
    · exact absurd h (by simp)
    · next hstep =>
      simp only [Option.some.injEq, Prod.mk.injEq, WorkerPc.copy.injEq] at h
      obtain ⟨rfl, -, -, rfl⟩ := h
      exact hstep

/-- The two halves of the watcher's dispatch of a cached path. -/
inductive WatcherPc where
  | markAbort
  | submitValidation
  deriving DecidableEq

/-- Everything at work on one mount. `aborted` is the flag of each task's
`CopyControl`; `pending` are the paths with a change the watcher has not
dispatched yet. -/
structure Daemon where
  backing : Backing
  dir : CacheDir
  db : CacheDb
  jobs : Jobs
  aborted : Nat → Bool
  pc : Nat → WorkerPc
  /-- callers of `submit_cache` that have found their path not cached -/
  submitting : List RelPath
  /-- paths whose `remove_deferred` is still to come -/
  forgetting : List RelPath
  /-- evicted files whose row is still to be removed -/
  evicting : List RelPath
  /-- mount requests that refresh source metadata -/
  refreshing : Nat → Option (RelPath × RefreshPc)
  pending : RelPath → Bool
  watcher : Option (RelPath × WatcherPc)

inductive Action where
  | change (c : BackingChange)
  /-- `submit_cache`, up to the lock -/
  | offer (p : RelPath)
  /-- `submit_job`, under the lock -/
  | submit (p : RelPath) (kind : CacheJobKind) (now : Nat)
  | expire (now : Nat)
  | pop (copyAllowed : Bool)
  | acquire
  | release
  | work (t : Nat) (c : WorkChoice)
  /-- `remove_deferred` after a finished or an expired job -/
  | forget (p : RelPath)
  /-- the watcher takes an event, and asks whether its path is cached -/
  | event (p : RelPath)
  | dispatch (now : Nat)
  | evictFile (p : RelPath)
  | evictRow (p : RelPath)
  | hit (p : RelPath) (now : Nat)
  /-- a mount request has stat'ed its path, and will refresh its row -/
  | touch (i : Nat) (p : RelPath)
  | refresh (i : Nat)
  /-- the daemon dies, and starts again with these deferred jobs -/
  | crash (now : Nat) (loaded : List (RelPath × Nat))

/-- Signal in-flight copy jobs for `p` to abort before committing. -/
def markAbort (known : Map JobKey (Option Nat)) (p : RelPath) (aborted : Nat → Bool) :
    Nat → Bool :=
  fun t => aborted t || known.lookup (p, .populate) == some (some t) ||
    known.lookup (p, .replace) == some (some t)

/-- The populate jobs a sweep has dropped. -/
def droppedPaths (before after : List CacheJob) : List RelPath :=
  ((before.take (before.length - after.length)).filter fun job => job.kind = .populate).map
    CacheJob.relPath

namespace Daemon

/-- A daemon that has just been started. -/
def start (cfg : Config) (backing : Backing) (dir : CacheDir) (db : CacheDb)
    (loaded : List (RelPath × Nat)) : Daemon where
  backing := backing
  dir := dir
  db := db
  jobs := Jobs.rehydrate loaded cfg.maxConcurrentCopies 1
  aborted _ := false
  pc _ := .start
  submitting := []
  forgetting := []
  evicting := []
  refreshing _ := none
  pending _ := false
  watcher := none

/-- After a worker's step. -/
def worked (s : Daemon) (t : Nat) (job : CacheJob) (now : Nat) (dir : CacheDir) (db : CacheDb)
    (e : JobEffect) (pc : WorkerPc) : Daemon :=
  { s with
    dir := dir
    db := db
    pc := Function.update s.pc t pc
    jobs :=
      match e with
      | .none => s.jobs
      | .promote => s.jobs.promote t job
      | .submitReplace => s.jobs.submitJob job.relPath .replace now
      | .finish => s.jobs.finish t job
    aborted := if e = .promote then Function.update s.aborted t false else s.aborted
    forgetting :=
      if e = .finish ∧ job.kind = .populate then job.relPath :: s.forgetting else s.forgetting }

/-- A spawned worker starts at its beginning. -/
def spawned (s : Daemon) (jobs : Jobs) : Daemon :=
  { s with jobs := jobs, pc := Function.update s.pc s.jobs.nextTask .start }

@[simp] theorem pc_spawned (s : Daemon) (jobs : Jobs) :
    (s.spawned jobs).pc = Function.update s.pc s.jobs.nextTask .start := rfl

section Worked

variable (s : Daemon) (t : Nat) (job : CacheJob) (now : Nat) (dir : CacheDir) (db : CacheDb)
  (e : JobEffect) (pc : WorkerPc)

@[simp] theorem dir_worked : (s.worked t job now dir db e pc).dir = dir := rfl

@[simp] theorem db_worked : (s.worked t job now dir db e pc).db = db := rfl

@[simp] theorem backing_worked : (s.worked t job now dir db e pc).backing = s.backing := rfl

@[simp] theorem pc_worked :
    (s.worked t job now dir db e pc).pc = Function.update s.pc t pc := rfl

end Worked

def step (cfg : Config) (s : Daemon) : Action → Option Daemon
  | .change c =>
    match s.backing.change c with
    | none => none
    | some b =>
      some { s with backing := b, pending := fun q => s.pending q || s.backing.Touches q c }
  | .offer p =>
    if isCached s.dir p then some s else some { s with submitting := p :: s.submitting }
  | .submit p kind now =>
    if kind = .populate then
      if p ∈ s.submitting then
        let db := if (s.jobs.known.lookup (p, kind)).isSome then s.db else s.db.saveDeferred p p now
        some { s with
          jobs := s.jobs.submitJob p kind now, db := db, submitting := s.submitting.erase p }
      else none
    else some { s with jobs := s.jobs.submitJob p kind now }
  | .expire now =>
    match pipeStep cfg.deferredTtlMinutes s.jobs (.expire now) with
    | none => none
    | some jobs =>
      some { s with
        jobs := jobs, forgetting := droppedPaths s.jobs.queue jobs.queue ++ s.forgetting }
  | .pop copyAllowed => (pipeStep cfg.deferredTtlMinutes s.jobs (.pop copyAllowed)).map s.spawned
  | .acquire => (pipeStep cfg.deferredTtlMinutes s.jobs .acquire).map s.spawned
  | .release =>
    (pipeStep cfg.deferredTtlMinutes s.jobs .release).map fun jobs => { s with jobs := jobs }
  | .work t c =>
    match s.jobs.jobOf t with
    | none => none
    | some job =>
      match workerStep s.backing s.dir s.db cfg.mount (s.aborted t) job.relPath job.kind t c
          (s.pc t) with
      | none => none
      | some (dir, db, e, pc) => some (s.worked t job c.now dir db e pc)
  | .forget p =>
    if p ∈ s.forgetting then
      some { s with db := s.db.removeDeferred p, forgetting := s.forgetting.erase p }
    else none
  | .event p =>
    match s.watcher with
    | some _ => none
    | none =>
      some { s with
        pending := Function.update s.pending p false
        watcher := if isCached s.dir p then some (p, .markAbort) else none }
  | .dispatch now =>
    match s.watcher with
    | none => none
    | some (p, .markAbort) =>
      some { s with
        aborted := markAbort s.jobs.known p s.aborted, watcher := some (p, .submitValidation) }
    | some (p, .submitValidation) =>
      some { s with jobs := s.jobs.submitJob p .validate now, watcher := none }
  | .evictFile p =>
    match s.dir.remove p with
    | none => none
    | some dir => some { s with dir := dir, evicting := p :: s.evicting }
  | .evictRow p =>
    if p ∈ s.evicting then
      some { s with db := s.db.remove p cfg.mount, evicting := s.evicting.erase p }
    else none
  | .hit p now =>
    if isCached s.dir p then some { s with db := s.db.markHit p cfg.mount now } else none
  | .touch i p =>
    match s.refreshing i, s.backing.stat p with
    | none, some st =>
      some { s with
        refreshing := Function.update s.refreshing i (some (p, .readFingerprint st)) }
    | _, _ => none
  | .refresh i =>
    match s.refreshing i with
    | none => none
    | some (p, pc) =>
      match refreshStep s.db cfg.mount p pc with
      | (db, next) =>
        some { s with
          db := db
          refreshing := Function.update s.refreshing i (next.map fun pc => (p, pc)) }
  | .crash now loaded =>
    match reconcileWithDisk s.dir s.db cfg.mount now with
    | (dir, db) =>
      if loaded.isPerm (db.loadDeferred cfg.deferredTtlMinutes now) then
        some { s with
          dir := dir
          db := db
          jobs := Jobs.rehydrate loaded cfg.maxConcurrentCopies s.jobs.nextTask
          submitting := []
          forgetting := []
          evicting := []
          refreshing := fun _ => none
          pending := fun _ => false
          watcher := none }
      else none

/-! ## What one step can do -/

inductive Move (cfg : Config) (s : Daemon) : Action → Daemon → Prop
  | change {c : BackingChange} {b : Backing} (hb : s.backing.change c = some b) :
      Move cfg s (.change c)
        { s with backing := b, pending := fun q => s.pending q || s.backing.Touches q c }
  | served {p : RelPath} (hc : isCached s.dir p = true) : Move cfg s (.offer p) s
  | offer {p : RelPath} (hc : isCached s.dir p = false) :
      Move cfg s (.offer p) { s with submitting := p :: s.submitting }
  | populate {p : RelPath} {now : Nat} (hm : p ∈ s.submitting) :
      Move cfg s (.submit p .populate now)
        { s with
          jobs := s.jobs.submitJob p .populate now
          db := if (s.jobs.known.lookup (p, .populate)).isSome then s.db else s.db.saveDeferred p p now
          submitting := s.submitting.erase p }
  | submit {p : RelPath} {kind : CacheJobKind} {now : Nat} (hk : kind ≠ .populate) :
      Move cfg s (.submit p kind now) { s with jobs := s.jobs.submitJob p kind now }
  | expire {now : Nat} {jobs : Jobs}
      (hp : pipeStep cfg.deferredTtlMinutes s.jobs (.expire now) = some jobs) :
      Move cfg s (.expire now)
        { s with
          jobs := jobs
          forgetting := droppedPaths s.jobs.queue jobs.queue ++ s.forgetting }
  | pop {copyAllowed : Bool} {jobs : Jobs}
      (hp : pipeStep cfg.deferredTtlMinutes s.jobs (.pop copyAllowed) = some jobs) :
      Move cfg s (.pop copyAllowed) (s.spawned jobs)
  | acquire {jobs : Jobs} (hp : pipeStep cfg.deferredTtlMinutes s.jobs .acquire = some jobs) :
      Move cfg s .acquire (s.spawned jobs)
  | release {jobs : Jobs} (hp : pipeStep cfg.deferredTtlMinutes s.jobs .release = some jobs) :
      Move cfg s .release { s with jobs := jobs }
  | work {t : Nat} {c : WorkChoice} {job : CacheJob} {dir : CacheDir} {db : CacheDb} {e : JobEffect}
      {pc : WorkerPc} (hjob : s.jobs.jobOf t = some job)
      (hstep : workerStep s.backing s.dir s.db cfg.mount (s.aborted t) job.relPath job.kind t c
        (s.pc t) = some (dir, db, e, pc)) :
      Move cfg s (.work t c) (s.worked t job c.now dir db e pc)
  | forget {p : RelPath} (hm : p ∈ s.forgetting) :
      Move cfg s (.forget p)
        { s with db := s.db.removeDeferred p, forgetting := s.forgetting.erase p }
  | event {p : RelPath} (hw : s.watcher = none) :
      Move cfg s (.event p)
        { s with
          pending := Function.update s.pending p false
          watcher := if isCached s.dir p then some (p, .markAbort) else none }
  | markAbort {p : RelPath} {now : Nat} (hw : s.watcher = some (p, .markAbort)) :
      Move cfg s (.dispatch now)
        { s with
          aborted := markAbort s.jobs.known p s.aborted
          watcher := some (p, .submitValidation) }
  | dispatch {p : RelPath} {now : Nat} (hw : s.watcher = some (p, .submitValidation)) :
      Move cfg s (.dispatch now)
        { s with jobs := s.jobs.submitJob p .validate now, watcher := none }
  | evictFile {p : RelPath} {dir : CacheDir} (hr : s.dir.remove p = some dir) :
      Move cfg s (.evictFile p) { s with dir := dir, evicting := p :: s.evicting }
  | evictRow {p : RelPath} (hm : p ∈ s.evicting) :
      Move cfg s (.evictRow p)
        { s with db := s.db.remove p cfg.mount, evicting := s.evicting.erase p }
  | hit {p : RelPath} {now : Nat} (hc : isCached s.dir p = true) :
      Move cfg s (.hit p now) { s with db := s.db.markHit p cfg.mount now }
  | touch {i : Nat} {p : RelPath} {st : Stat} (hi : s.refreshing i = none)
      (hst : s.backing.stat p = some st) :
      Move cfg s (.touch i p)
        { s with refreshing := Function.update s.refreshing i (some (p, .readFingerprint st)) }
  | refresh {i : Nat} {p : RelPath} {pc : RefreshPc} (hi : s.refreshing i = some (p, pc)) :
      Move cfg s (.refresh i)
        { s with
          db := (refreshStep s.db cfg.mount p pc).1
          refreshing := Function.update s.refreshing i
            ((refreshStep s.db cfg.mount p pc).2.map fun pc => (p, pc)) }
  | crash {now : Nat} {loaded : List (RelPath × Nat)}
      (hl : loaded.isPerm ((reconcileWithDisk s.dir s.db cfg.mount now).2.loadDeferred
        cfg.deferredTtlMinutes now) = true) :
      Move cfg s (.crash now loaded)
        { s with
          dir := (reconcileWithDisk s.dir s.db cfg.mount now).1
          db := (reconcileWithDisk s.dir s.db cfg.mount now).2
          jobs := Jobs.rehydrate loaded cfg.maxConcurrentCopies s.jobs.nextTask
          submitting := []
          forgetting := []
          evicting := []
          refreshing := fun _ => none
          pending := fun _ => false
          watcher := none }

variable {cfg : Config} {s s' : Daemon} {a : Action}

theorem move_of_step (h : step cfg s a = some s') : Move cfg s a s' := by
  cases a with
  | pop copyAllowed =>
    obtain ⟨jobs, hp, rfl⟩ := Option.map_eq_some_iff.mp h
    exact .pop hp
  | acquire =>
    obtain ⟨jobs, hp, rfl⟩ := Option.map_eq_some_iff.mp h
    exact .acquire hp
  | release =>
    obtain ⟨jobs, hp, rfl⟩ := Option.map_eq_some_iff.mp h
    exact .release hp
  | change c =>
    simp only [step] at h
    split at h
    · exact absurd h (by simp)
    · next b hb =>
      rw [← Option.some.inj h]
      exact .change hb
  | offer p =>
    simp only [step] at h
    split at h
    · next hc =>
      rw [← Option.some.inj h]
      exact .served hc
    · next hc =>
      rw [← Option.some.inj h]
      exact .offer (by simpa using hc)
  | submit p kind now =>
    simp only [step] at h
    split at h
    · next hk =>
      subst hk
      split at h
      · next hm =>
        rw [← Option.some.inj h]
        exact .populate hm
      · exact absurd h (by simp)
    · next hk =>
      rw [← Option.some.inj h]
      exact .submit hk
  | expire now =>
    simp only [step] at h
    split at h
    · exact absurd h (by simp)
    · next jobs hp =>
      rw [← Option.some.inj h]
      exact .expire hp
  | work t c =>
    simp only [step] at h
    split at h
    · exact absurd h (by simp)
    · next job hjob =>
      split at h
      · exact absurd h (by simp)
      · next dir db e pc hstep =>
        rw [← Option.some.inj h]
        exact .work hjob hstep
  | forget p =>
    simp only [step] at h
    split at h
    · next hm =>
      rw [← Option.some.inj h]
      exact .forget hm
    · exact absurd h (by simp)
  | event p =>
    simp only [step] at h
    split at h
    · exact absurd h (by simp)
    · next hw =>
      rw [← Option.some.inj h]
      exact .event hw
  | dispatch now =>
    simp only [step] at h
    split at h
    · exact absurd h (by simp)
    · next p hw =>
      rw [← Option.some.inj h]
      exact .markAbort hw
    · next p hw =>
      rw [← Option.some.inj h]
      exact .dispatch hw
  | evictFile p =>
    simp only [step] at h
    split at h
    · exact absurd h (by simp)
    · next dir hr =>
      rw [← Option.some.inj h]
      exact .evictFile hr
  | evictRow p =>
    simp only [step] at h
    split at h
    · next hm =>
      rw [← Option.some.inj h]
      exact .evictRow hm
    · exact absurd h (by simp)
  | hit p now =>
    simp only [step] at h
    split at h
    · next hc =>
      rw [← Option.some.inj h]
      exact .hit hc
    · exact absurd h (by simp)
  | touch i p =>
    simp only [step] at h
    split at h
    · next st hi hst =>
      rw [← Option.some.inj h]
      exact .touch hi hst
    · exact absurd h (by simp)
  | refresh i =>
    simp only [step] at h
    split at h
    · exact absurd h (by simp)
    · next p pc hi =>
      rw [← Option.some.inj h]
      exact .refresh hi
  | crash now loaded =>
    simp only [step] at h
    split at h
    · next hl =>
      rw [← Option.some.inj h]
      exact .crash hl
    · exact absurd h (by simp)

/-- What every daemon keeps of its pipeline. -/
structure Wf (s : Daemon) : Prop where
  partition : s.jobs.Partition
  handles : s.jobs.Handles

/-- The copies at work. -/
def copies (s : Daemon) : Copies := fun t =>
  match s.jobs.jobOf t, s.pc t with
  | some job, .copy pc => some (job.relPath, pc)
  | _, _ => none

/-! ## The pipeline of a daemon -/

/-- A step of the daemon is a step of its pipeline, or leaves the pipeline as it
is, or is a crash. Only a submission submits a Populate job. -/
theorem jobs_step (h : step cfg s a = some s') :
    s'.jobs = s.jobs ∨
      (∃ pa, pipeStep cfg.deferredTtlMinutes s.jobs pa = some s'.jobs ∧
        ∀ p now, pa = .submit p .populate now → a = .submit p .populate now) ∨
      ∃ now loaded, a = .crash now loaded ∧
        s'.jobs = Jobs.rehydrate loaded cfg.maxConcurrentCopies s.jobs.nextTask := by
  cases move_of_step h with
  | change | served | offer | forget | event | markAbort | evictFile | evictRow | hit | touch
  | refresh => exact .inl rfl
  | @populate p now hm =>
    refine .inr (.inl ⟨.submit p .populate now, rfl, fun q now' e => ?_⟩)
    obtain ⟨rfl, -, rfl⟩ := PipeAction.submit.inj e
    rfl
  | @submit p kind now hk =>
    refine .inr (.inl ⟨.submit p kind now, rfl, fun q now' e => ?_⟩)
    exact absurd (PipeAction.submit.inj e).2.1 hk
  | expire hp => exact .inr (.inl ⟨_, hp, by simp⟩)
  | pop hp => exact .inr (.inl ⟨_, hp, by simp⟩)
  | acquire hp => exact .inr (.inl ⟨_, hp, by simp⟩)
  | release hp => exact .inr (.inl ⟨_, hp, by simp⟩)
  | @work t c job dir db e pc hjob hstep =>
    have hm := workMove_of_step hstep
    cases e with
    | none => exact .inl rfl
    | promote =>
      refine .inr (.inl ⟨.promote t, ?_, by simp⟩)
      have hk : job.kind ≠ .validate := by
        generalize s.pc t = pc₀ at hm
        cases hm with
        | promote hk => exact hk
      simp only [pipeStep, hjob, if_neg hk]
      rfl
    | submitReplace => exact .inr (.inl ⟨.submit job.relPath .replace c.now, rfl, by simp⟩)
    | finish =>
      refine .inr (.inl ⟨.finish t, ?_, by simp⟩)
      simp only [pipeStep, hjob]
      rfl
  | @dispatch p now hw => exact .inr (.inl ⟨.submit p .validate now, rfl, by simp⟩)
  | @crash now loaded hl => exact .inr (.inr ⟨now, loaded, rfl, rfl⟩)

/-- Only its own steps move a worker; a new one starts at its beginning. -/
theorem pc_of_step (h : step cfg s a = some s') (hwork : ∀ t c, a ≠ .work t c) (t : Nat) :
    s'.pc t = s.pc t ∨ s'.pc t = .start := by
  have spawned : ∀ jobs, (s.spawned jobs).pc t = s.pc t ∨ (s.spawned jobs).pc t = .start := by
    intro jobs
    rw [pc_spawned, Function.update_apply]
    split
    · exact .inr rfl
    · exact .inl rfl
  cases move_of_step h with
  | work => exact absurd rfl (hwork _ _)
  | pop | acquire => exact spawned _
  | change | served | offer | populate | submit | expire | release | forget | event | markAbort
  | dispatch | evictFile | evictRow | hit | touch | refresh | crash => exact .inl rfl

theorem Wf.step (hw : s.Wf) (h : step cfg s a = some s') : s'.Wf := by
  rcases jobs_step h with e | ⟨pa, hp, -⟩ | ⟨now, loaded, -, e⟩
  · exact ⟨e ▸ hw.partition, e ▸ hw.handles⟩
  · exact ⟨partition_pipeStep hw.partition hp, handles_pipeStep hw.handles hw.partition hp⟩
  · exact ⟨e ▸ Jobs.partition_rehydrate _ _ _, e ▸ Jobs.handles_rehydrate _ _ _⟩

theorem wf_start (cfg : Config) (b : Backing) (dir : CacheDir) (db : CacheDb)
    (loaded : List (RelPath × Nat)) : (start cfg b dir db loaded).Wf :=
  ⟨Jobs.partition_rehydrate _ _ _, Jobs.handles_rehydrate _ _ _⟩

/-! ## Pieces of runs -/

/-- `p` is asked for, and its population spawned. -/
def requested (p : RelPath) : List Action := [.offer p, .submit p .populate 9, .pop true, .acquire]

/-- Task `t` takes `n` steps, one byte or one call each, and none of them fails. -/
def turns (t n : Nat) : List Action := List.replicate n (.work t ⟨0, false, 9⟩)

end Daemon

end FsCache
