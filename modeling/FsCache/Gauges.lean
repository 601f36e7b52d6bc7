import Mathlib.Algebra.Order.BigOperators.Group.Finset
import FsCache.Handles
import FsCache.Fleet

/- The gauges of a watching client (ipc/client.rs) against the daemon they are about.

   The daemon tells what it does in events, and the client adds them up. Two of its numbers
   are meant to go up and down with the daemon: `open_handles` and `in_flight_count`.

   `Observed` is the mounts of a daemon and one client that has been connected from the start
   and gets every event when it is sent. A mount is its FUSE side, with the ledger of its
   kernel, and its pipeline. `submit_job` sends its event after it has left the lock, so an
   accepted job is in `announcing` until then. What is in the backing, in the cache and in the
   table may be anything at each step (`world`), so nothing rests on how requests and jobs
   share them. A copy job is over when its worker has sent the last event of it, and has only
   `finish_known` left to do. The run ends with the daemon: a crash closes the connection. The
   client's counters are `u64`, and unbounded here.

   `gauges_agree_iff`: along a run from the start the gauges agree in every state exactly
   when no job was restored from the table and every step sends as many events as it opens
   handles or moves jobs: no open for reading fails, no validation is accepted, no sweep drops
   a copy job, no populate worker finds its path cached, and no copy ends while all the copy
   jobs still have their first event to send.

   Correspondence (Rust ↔ Lean):
     `TelemetryEvent`, `DashboardState`     ↔ `TelemetryEvent`, `DashboardState`
     `apply_event`, `remove_active_copy`    ↔ `DashboardState.applyEvent`, `removeActiveCopy`
     the `event = telemetry::…` of `open`, `release`  ↔ `Fs.telemetry`
     those of `populate_worker`             ↔ `Daemon.telemetry` -/

namespace FsCache
open Lib

/-! ## The client -/

inductive TelemetryEvent where
  | fuseOpen
  | cacheHit
  | cacheMiss
  | handleClosed (bytesRead : Option Nat)
  | copyQueued
  | copyStarted (path : Option RowKey) (sizeBytes : Option Nat)
  | copyComplete (path : Option RowKey)
  | copyFailed (path : Option RowKey)
  | copyProgress (path : Option RowKey) (bytesCopied sizeBytes : Option Nat)
  | deferredChanged (count : Option Nat)
  | budgetUpdated (usedBytes maxBytes : Option Nat)
  | cachingWindow (allowed : Option Bool)
  | eviction (path : Option RowKey) (reason : Option String)
  | discoveryStatus (enabled : Bool) (startedAt : Option Int)
  | backingChanged (path : Option RowKey) (kind action : Option String)

structure CopyProgress where
  sizeBytes : Nat
  bytesCopied : Nat

/-- What the events go into. The configuration, the mounts, the logs, and what the client
reads from the table itself are left out. -/
structure DashboardState where
  fuseOpens : Nat
  cacheHits : Nat
  cacheMisses : Nat
  bytesRead : Nat
  openHandles : Nat
  inFlightCount : Nat
  deferredCount : Nat
  budgetUsedBytes : Nat
  budgetMaxBytes : Nat
  activeCopies : Map RowKey CopyProgress
  completedCopies : Nat
  failedCopies : Nat
  evictionsExpired : Nat
  evictionsSize : Nat
  backingEventsHandled : Nat
  backingEvictionsTriggered : Nat
  cachingAllowed : Bool

namespace DashboardState

/-- `budgetMax` comes with the configuration. -/
def new (budgetMax : Nat) : DashboardState where
  fuseOpens := 0
  cacheHits := 0
  cacheMisses := 0
  bytesRead := 0
  openHandles := 0
  inFlightCount := 0
  deferredCount := 0
  budgetUsedBytes := 0
  budgetMaxBytes := budgetMax
  activeCopies := ∅
  completedCopies := 0
  failedCopies := 0
  evictionsExpired := 0
  evictionsSize := 0
  backingEventsHandled := 0
  backingEvictionsTriggered := 0
  cachingAllowed := false

def removeActiveCopy (d : DashboardState) : Option RowKey → DashboardState
  | none => d
  | some path =>
    { d with inFlightCount := d.inFlightCount - 1, activeCopies := d.activeCopies.erase path }

def applyEvent (d : DashboardState) : TelemetryEvent → DashboardState
  | .fuseOpen => { d with fuseOpens := d.fuseOpens + 1, openHandles := d.openHandles + 1 }
  | .cacheHit => { d with cacheHits := d.cacheHits + 1 }
  | .cacheMiss => { d with cacheMisses := d.cacheMisses + 1 }
  | .handleClosed bytesRead =>
    { d with openHandles := d.openHandles - 1, bytesRead := d.bytesRead + bytesRead.getD 0 }
  | .copyQueued => { d with inFlightCount := d.inFlightCount + 1 }
  | .copyStarted path sizeBytes =>
    match path with
    | none => d
    | some p => { d with activeCopies := d.activeCopies.insert p ⟨sizeBytes.getD 0, 0⟩ }
  | .copyProgress path bytesCopied sizeBytes =>
    match path, bytesCopied with
    | some p, some bc =>
      match d.activeCopies.lookup p with
      | none => d
      | some cp => { d with activeCopies := d.activeCopies.insert p ⟨sizeBytes.getD cp.sizeBytes, bc⟩ }
    | _, _ => d
  | .copyComplete path => { d with completedCopies := d.completedCopies + 1 }.removeActiveCopy path
  | .copyFailed path => { d with failedCopies := d.failedCopies + 1 }.removeActiveCopy path
  | .deferredChanged count => { d with deferredCount := count.getD d.deferredCount }
  | .budgetUpdated usedBytes maxBytes =>
    { d with
      budgetUsedBytes := usedBytes.getD d.budgetUsedBytes
      budgetMaxBytes := maxBytes.getD d.budgetMaxBytes }
  | .cachingWindow allowed => { d with cachingAllowed := allowed.getD false }
  | .eviction _ reason =>
    match reason with
    | some "expired" => { d with evictionsExpired := d.evictionsExpired + 1 }
    | some "size_limit" => { d with evictionsSize := d.evictionsSize + 1 }
    | _ => d
  | .discoveryStatus .. => d
  | .backingChanged _ _ action =>
    { d with
      backingEventsHandled := d.backingEventsHandled + 1
      backingEvictionsTriggered :=
        if action = some "cache_evicted" ∨ action = some "both" then d.backingEvictionsTriggered + 1
        else d.backingEvictionsTriggered }

end DashboardState

/-- Whether one of the two gauges goes by the event. -/
def TelemetryEvent.gauging : TelemetryEvent → Bool
  | .fuseOpen | .handleClosed _ | .copyQueued | .copyComplete _ | .copyFailed _ => true
  | _ => false

theorem DashboardState.gauges_applyEvent (d : DashboardState) {e : TelemetryEvent}
    (h : e.gauging = false) :
    (d.applyEvent e).openHandles = d.openHandles ∧ (d.applyEvent e).inFlightCount = d.inFlightCount := by
  cases e with
  | fuseOpen | handleClosed | copyQueued | copyComplete | copyFailed => exact absurd h Bool.noConfusion
  | cacheHit | cacheMiss | deferredChanged | budgetUpdated | cachingWindow | discoveryStatus
  | backingChanged => exact ⟨rfl, rfl⟩
  | copyStarted path sizeBytes => cases path <;> exact ⟨rfl, rfl⟩
  | copyProgress path bytesCopied sizeBytes =>
    simp only [applyEvent]
    split
    · split <;> exact ⟨rfl, rfl⟩
    · exact ⟨rfl, rfl⟩
  | eviction path reason =>
    simp only [applyEvent]
    split <;> exact ⟨rfl, rfl⟩

/-! ## What the daemon sends -/

/-- An open for reading is announced before anything is opened, a handle is reported closed
unless it was opened for writing. -/
def Fs.telemetry (s : Fs) : FsRequest → List TelemetryEvent
  | .openFile ino flags =>
    match s.inodes.getPath ino with
    | none => []
    | some _ => if isWriteIntent flags then [] else [.fuseOpen]
  | .release fh =>
    if (s.writePaths.lookup fh).isSome then []
    else [.handleClosed (some ((s.openBytes.lookup fh).getD 0))]
  | _ => []

/-- `BackingStore::file_size` -/
def Backing.fileSize (b : Backing) (p : RelPath) : Option Nat :=
  (b.openFile p).map fun h => asU64 (b.fstat h).stSize

/-- Of a worker's steps, the one that begins the copy and the ones that end it are
announced. -/
def Daemon.telemetry (s : Daemon) : Action → List TelemetryEvent
  | .work t c =>
    match s.jobs.jobOf t with
    | none => []
    | some job =>
      match s.pc t with
      | .room =>
        if c.fail then [.copyFailed (some (rowKey job.relPath))]
        else [.copyStarted (some (rowKey job.relPath)) (some ((s.backing.fileSize job.relPath).getD 0))]
      | .copy (.ok _) => [.copyComplete (some (rowKey job.relPath))]
      | .copy .err => [.copyFailed (some (rowKey job.relPath))]
      | _ => []
  | _ => []

/-! ## The daemon and the client -/

structure SiteConfig where
  fs : FsConfig
  daemon : Config

/-- What the daemon runs for one mount. `announcing` counts the accepted submissions whose
`copy_queued` is still to be sent. -/
structure Site where
  fs : Fs × Ledger
  daemon : Daemon
  announcing : Nat

structure Observed (ι : Type) where
  sites : ι → Site
  client : DashboardState

inductive ObservedAction (ι : Type) where
  | request (i : ι) (k : FsKernel) (r : FsRequest)
  | work (i : ι) (a : Action)
  /-- a `submit_job` sends its event -/
  | announce (i : ι)
  /-- what others have made of the files and the rows of a mount -/
  | world (i : ι) (disk : Disk) (dir : CacheDir) (db : CacheDb)
  /-- an event that is no business of the two gauges -/
  | other (e : TelemetryEvent)

namespace Site

variable (x : Site)

/-- A step of the pipeline; what it has accepted is still to be announced. -/
def worked (d : Daemon) : Site :=
  { x with
    daemon := d
    announcing := x.announcing + (d.jobs.accepted.length - x.daemon.jobs.accepted.length) }

def found (disk : Disk) (dir : CacheDir) (db : CacheDb) : Site :=
  { x with
    fs := ({ x.fs.1 with disk := disk, dir := dir, db := db }, x.fs.2)
    daemon := { x.daemon with backing := disk.backing, dir := dir, db := db } }

end Site

namespace Observed

variable {ι : Type} [DecidableEq ι]

def set (s : Observed ι) (i : ι) (x : Site) (events : List TelemetryEvent) : Observed ι where
  sites := Function.update s.sites i x
  client := events.foldl DashboardState.applyEvent s.client

def step (cfgs : ι → SiteConfig) (s : Observed ι) : ObservedAction ι → Option (Observed ι)
  | .request i k r =>
    (Fs.ledgerStep (cfgs i).fs (s.sites i).fs (k, r)).map fun fs =>
      s.set i { s.sites i with fs := fs } ((s.sites i).fs.1.telemetry r)
  | .work i a =>
    match a with
    | .crash .. => none
    | a =>
      (Daemon.step (cfgs i).daemon (s.sites i).daemon a).map fun d =>
        s.set i ((s.sites i).worked d) ((s.sites i).daemon.telemetry a)
  | .announce i =>
    if (s.sites i).announcing = 0 then none
    else some (s.set i { s.sites i with announcing := (s.sites i).announcing - 1 } [.copyQueued])
  | .world i disk dir db => some (s.set i ((s.sites i).found disk dir db) [])
  | .other e => if e.gauging then none else some { s with client := s.client.applyEvent e }

/-- What a mount is started with. -/
structure Origin where
  disk : Disk
  dir : CacheDir
  db : CacheDb
  loaded : List (RelPath × Nat)

/-- The daemon has been started, and the client is connected. -/
def start (cfgs : ι → SiteConfig) (origins : ι → Origin) (budgetMax : Nat) : Observed ι where
  sites i :=
    { fs := (Fs.start (origins i).disk (origins i).dir (origins i).db, ∅)
      daemon := Daemon.start (cfgs i).daemon (origins i).disk.backing (origins i).dir (origins i).db
        (origins i).loaded
      announcing := 0 }
  client := .new budgetMax

end Observed

/-! ## What the gauges should say -/

def OpenHandle.isReader : OpenHandle → Bool
  | .reader .. => true
  | .writer _ => false

/-- The handles that are open for reading. -/
def Ledger.readers (l : Ledger) : Finset Nat :=
  l.keys.toFinset.filter fun fh => (l.lookup fh).any OpenHandle.isReader

def CacheJob.isCopy (job : CacheJob) : Bool := job.kind != .validate

namespace Daemon

/-- A copy whose worker has not sent the last event. -/
def copying (s : Daemon) (r : Nat × CacheJob) : Bool := r.2.isCopy && s.pc r.1 != .finish

/-- The copy jobs that are queued or running. -/
def copyJobs (s : Daemon) : Nat :=
  (s.jobs.queue ++ s.jobs.held.toList).countP CacheJob.isCopy + s.jobs.running.countP s.copying

end Daemon

namespace Observed

variable {ι : Type} [Fintype ι]

def readHandles (s : Observed ι) : Nat := ∑ i, (s.sites i).fs.2.readers.card

def copyJobs (s : Observed ι) : Nat := ∑ i, (s.sites i).daemon.copyJobs

def announcing (s : Observed ι) : Nat := ∑ i, (s.sites i).announcing

/-- The gauges are right. A job whose `copy_queued` is still to be sent is not counted yet. -/
structure Agrees (s : Observed ι) : Prop where
  openHandles : s.client.openHandles = s.readHandles
  inFlight : s.client.inFlightCount + s.announcing = s.copyJobs

end Observed

/-! ## When a step keeps them right -/

/-- What the sweep drops. -/
def Jobs.expiring (j : Jobs) (ttlMinutes now : Nat) : List CacheJob :=
  if ttlMinutes = 0 then []
  else j.queue.takeWhile fun job => job.enqueueTs < now - ttlMinutes * 60 % 2^64

/-- An open for reading finds something to open. -/
def Fs.OpensRead (cfg : FsConfig) (s : Fs) (k : FsKernel) : FsRequest → Prop
  | .openFile ino flags =>
    ∀ path ∈ s.inodes.getPath ino, isWriteIntent flags = false →
      ∃ r, (s.tryOpen cfg k path).2 = .ok r
  | _ => True

namespace Daemon

/-- The job is over with this step, and that is sent. -/
def Ends (s : Daemon) : Action → Prop
  | .work t c =>
    (s.jobs.jobOf t).isSome ∧
      (s.pc t = .room ∧ c.fail = true ∨ s.pc t = .copy .err ∨ ∃ m, s.pc t = .copy (.ok m))
  | _ => False

/-- No validation is accepted, and no copy job ends without an event. -/
def Announced (cfg : Config) (s : Daemon) : Action → Prop
  | .submit p .validate _ => ¬ s.jobs.Accepts (p, .validate)
  | .dispatch _ => ∀ p, s.watcher = some (p, .submitValidation) → ¬ s.jobs.Accepts (p, .validate)
  | .expire now => ∀ job ∈ s.jobs.expiring cfg.deferredTtlMinutes now, job.kind = .validate
  | .work t _ =>
    ∀ job, s.jobs.jobOf t = some job → s.pc t = .start → job.kind = .populate →
      isCached s.dir job.relPath = false
  | _ => True

end Daemon

namespace Observed

variable {ι : Type} [Fintype ι]

/-- Every event has its counterpart, and the last event of a copy comes while not all the
copy jobs still wait for their first one. -/
def Paired (cfgs : ι → SiteConfig) (s : Observed ι) : ObservedAction ι → Prop
  | .request i k r => (s.sites i).fs.1.OpensRead (cfgs i).fs k r
  | .work i a =>
    (s.sites i).daemon.Announced (cfgs i).daemon a ∧
      ((s.sites i).daemon.Ends a → s.announcing < s.copyJobs)
  | _ => True

end Observed

/-! ## The pipeline's part -/

namespace WorkerPc

/-- Where the worker of a job of this kind can be. -/
def suits (kind : CacheJobKind) : WorkerPc → Bool
  | .start | .finish => true
  | .promote | .room | .copy _ => kind != .validate
  | .statLive _ | .verdict _ | .refresh _ | .dropRow => kind == .validate

end WorkerPc

/-- A worker stays on the path of its kind. -/
theorem suits_of_workMove {b : Backing} {dir dir' : CacheDir} {db db' : CacheDb} {mount : MountId}
    {abort : Bool} {p : RelPath} {kind : CacheJobKind} {t : Nat} {c : WorkChoice} {pc pc' : WorkerPc}
    {e : JobEffect} (h : WorkMove b dir db mount abort p kind t c pc dir' db' e pc')
    (hs : pc.suits kind = true) : pc'.suits kind = true := by
  cases h with
  | skip | noRoom | mark | copyFailed | notTracked | backfill | stale | refreshed | dropRow | finish => rfl
  | begin hk => simpa [WorkerPc.suits] using hk
  | readRow hk | noRow hk => rw [hk]; rfl
  | promote | room | copy | statLive | fresh | dropFile | refresh => exact hs

namespace Jobs

variable {j : Jobs} {t : Nat} {job : CacheJob}

/-- A list of tasks, one of them counted by itself. -/
theorem countP_running (h : (j.running.map Prod.fst).Nodup) (hm : (t, job) ∈ j.running)
    (f : Nat × CacheJob → Bool) :
    j.running.countP f =
      (j.running.filter fun r => r.1 ≠ t).countP f + if f (t, job) = true then 1 else 0 := by
  generalize j.running = l at h hm
  induction l with
  | nil => cases hm
  | cons r l ih =>
    rw [List.map_cons, List.nodup_cons] at h
    obtain rfl | hm := List.mem_cons.mp hm
    · have hrest : l.filter (fun r => r.1 ≠ t) = l := by
        refine List.filter_eq_self.mpr fun r hr => decide_eq_true fun e => ?_
        exact h.1 (List.mem_map.mpr ⟨r, hr, e⟩)
      rw [List.filter_cons, if_neg (by simp), hrest, List.countP_cons]
    · have hne : r.1 ≠ t := fun e => h.1 (List.mem_map.mpr ⟨(t, job), hm, e.symm⟩)
      rw [List.filter_cons, if_pos (decide_eq_true hne), List.countP_cons, List.countP_cons,
        ih h.2 hm]
      omega

theorem submitJob_refused {p : RelPath} {kind : CacheJobKind} (h : ¬ j.Accepts (p, kind)) (now : Nat) :
    j.submitJob p kind now = j := by
  rw [submitJob, if_pos ((Bool.not_eq_false _).mp h)]

theorem submitJob_accepted {p : RelPath} {kind : CacheJobKind} (h : j.Accepts (p, kind)) (now : Nat) :
    (j.submitJob p kind now).queue.countP CacheJob.isCopy =
        j.queue.countP CacheJob.isCopy + (if kind = .validate then 0 else 1) ∧
      (j.submitJob p kind now).accepted.length = j.accepted.length + 1 := by
  rw [submitJob, if_neg (by rw [h]; exact Bool.false_ne_true)]
  refine ⟨?_, List.length_append⟩
  rw [List.countP_append, List.countP_singleton]
  cases kind <;> rfl

/-- The sweep drops from the front what is too old. -/
theorem queue_eq_expiring (j : Jobs) (ttlMinutes now : Nat) :
    j.queue = j.expiring ttlMinutes now ++ (j.expireStale ttlMinutes now).queue := by
  have hdrop : ∀ (cutoff : Nat) (q : List CacheJob) (j : Jobs),
      q = q.takeWhile (fun job => job.enqueueTs < cutoff) ++ (j.dropExpired cutoff q).queue := by
    intro cutoff q
    induction q with
    | nil => exact fun _ => rfl
    | cons job rest ih =>
      intro j
      rw [dropExpired]
      by_cases h : cutoff ≤ job.enqueueTs
      · rw [if_pos h, List.takeWhile_cons, if_neg (by simpa using h)]
        rfl
      · rw [if_neg h, List.takeWhile_cons, if_pos (by simpa using h), List.cons_append, ← ih]
  unfold expiring expireStale
  split
  · rfl
  · exact hdrop _ _ _

end Jobs

namespace Daemon

open Classical in
/-- What a step does to the number of copy jobs, against what it accepts and what it sends. -/
def Accounts (cfg : Config) (s : Daemon) (a : Action) (s' : Daemon) : Prop :=
  ∃ unmatched accepted, (unmatched = 0 ↔ s.Announced cfg a) ∧
    s'.jobs.accepted.length = s.jobs.accepted.length + accepted ∧
    s'.copyJobs + unmatched + (if s.Ends a then 1 else 0) = s.copyJobs + accepted

/-- Every worker is on the path of its job's kind. -/
def Suited (s : Daemon) : Prop := ∀ r ∈ s.jobs.running, (s.pc r.1).suits r.2.kind = true

variable {cfg : Config} {s s' : Daemon} {a : Action}

/-- A step that leaves the jobs where they are. -/
theorem accounts_still (hqueue : s'.jobs.queue = s.jobs.queue) (hheld : s'.jobs.held = s.jobs.held)
    (hrunning : s'.jobs.running = s.jobs.running) (hacc : s'.jobs.accepted = s.jobs.accepted)
    (hpc : s'.pc = s.pc) (hsent : s.Announced cfg a) (hends : ¬ s.Ends a) : Accounts cfg s a s' := by
  refine ⟨0, 0, iff_of_true rfl hsent, by rw [hacc, Nat.add_zero], ?_⟩
  have hcopying : s'.copying = s.copying := by
    funext r
    rw [copying, copying, hpc]
  rw [if_neg hends, copyJobs, copyJobs, hqueue, hheld, hrunning, hcopying]

theorem suited_still (h : s.Suited) (hrunning : s'.jobs.running = s.jobs.running)
    (hpc : s'.pc = s.pc) : s'.Suited := by
  unfold Suited
  rw [hrunning, hpc]
  exact h

/-- A submission: only an accepted validation is counted without being a copy. -/
theorem accounts_submit {p : RelPath} {kind : CacheJobKind} {now : Nat}
    (hjobs : s'.jobs = s.jobs.submitJob p kind now) (hpc : s'.pc = s.pc) (hends : ¬ s.Ends a)
    (hsent : s.Announced cfg a ↔ ¬ (kind = .validate ∧ s.jobs.Accepts (p, kind))) :
    Accounts cfg s a s' := by
  have hcopying : s'.copying = s.copying := by
    funext r
    rw [copying, copying, hpc]
  have hheld := Jobs.held_submitJob s.jobs p kind now
  have hrunning := Jobs.running_submitJob s.jobs p kind now
  by_cases ha : s.jobs.Accepts (p, kind)
  · obtain ⟨hqueue, hacc⟩ := Jobs.submitJob_accepted ha now
    refine ⟨if kind = .validate then 1 else 0, 1, ?_, by rw [hjobs, hacc], ?_⟩
    · rw [hsent]
      by_cases hk : kind = .validate
      · rw [if_pos hk]
        exact iff_of_false (by decide) fun h => h ⟨hk, ha⟩
      · rw [if_neg hk]
        exact iff_of_true rfl fun h => hk h.1
    · rw [if_neg hends, copyJobs, copyJobs, hcopying, hjobs, hheld, hrunning, List.countP_append,
        List.countP_append, hqueue]
      by_cases hk : kind = .validate <;> simp only [hk, if_true, if_false] <;> omega
  · rw [Jobs.submitJob_refused ha] at hjobs
    refine accounts_still (by rw [hjobs]) (by rw [hjobs]) (by rw [hjobs]) (by rw [hjobs]) hpc ?_ hends
    exact hsent.mpr fun h => ha h.2

/-- The number of the next task is not in use. -/
theorem countP_spawned (hw : s.Wf) (j : Jobs) :
    s.jobs.running.countP (s.spawned j).copying = s.jobs.running.countP s.copying := by
  refine List.countP_congr fun r hr => ?_
  rw [copying, copying, pc_spawned, Function.update_of_ne (Nat.ne_of_lt (hw.partition.tasks_lt r hr))]

/-- A job leaves the queue for a worker that starts. -/
theorem accounts_spawn {j : Jobs} {job : CacheJob} (hw : s.Wf) (hacc : j.accepted = s.jobs.accepted)
    (hrunning : j.running = s.jobs.running) (hnext : j.nextTask = s.jobs.nextTask)
    (hwaiting : (j.queue ++ j.held.toList).countP CacheJob.isCopy + (if job.isCopy then 1 else 0) =
      (s.jobs.queue ++ s.jobs.held.toList).countP CacheJob.isCopy)
    (hsent : s.Announced cfg a) (hends : ¬ s.Ends a) :
    Accounts cfg s a (s.spawned (j.spawn job)) := by
  refine ⟨0, 0, iff_of_true rfl hsent, by rw [Nat.add_zero]; exact congrArg List.length hacc, ?_⟩
  have hold := countP_spawned hw (j.spawn job)
  have hnew : (s.spawned (j.spawn job)).copying (j.nextTask, job) = job.isCopy := by
    rw [copying, pc_spawned, hnext, Function.update_self]
    exact Bool.and_true _
  have hrun : (j.spawn job).running = s.jobs.running ++ [(j.nextTask, job)] := by
    rw [Jobs.spawn, hrunning]
  rw [if_neg hends, copyJobs, copyJobs]
  show (j.queue ++ j.held.toList).countP CacheJob.isCopy + (j.spawn job).running.countP _ + 0 + 0 = _
  have hcount : (j.spawn job).running.countP (s.spawned (j.spawn job)).copying =
      s.jobs.running.countP s.copying + if job.isCopy then 1 else 0 := by
    rw [hrun, List.countP_append, List.countP_singleton, hold, hnew]
  rw [hcount]
  omega

theorem suited_spawn {j : Jobs} {job : CacheJob} (hw : s.Wf) (h : s.Suited)
    (hrunning : j.running = s.jobs.running) (hnext : j.nextTask = s.jobs.nextTask) :
    (s.spawned (j.spawn job)).Suited := by
  intro r hr
  have hr : r ∈ j.running ++ [(j.nextTask, job)] := hr
  rw [hrunning, hnext, List.mem_append, List.mem_singleton] at hr
  rw [pc_spawned]
  obtain hr | rfl := hr
  · rw [Function.update_of_ne (Nat.ne_of_lt (hw.partition.tasks_lt r hr))]
    exact h r hr
  · rw [Function.update_self]
    rfl

section Work

variable {t : Nat} {c : WorkChoice} {job : CacheJob} {dir : CacheDir} {db : CacheDb} {e : JobEffect}
  {pc : WorkerPc}

/-- The other workers' steps are still to come. -/
theorem copying_worked (s : Daemon) (now : Nat) {r : Nat × CacheJob} (h : r.1 ≠ t) :
    (s.worked t job now dir db e pc).copying r = s.copying r := by
  rw [copying, copying, pc_worked, Function.update_of_ne h]

/-- A step of a worker moves its own job only. -/
theorem copyJobs_worked (hw : s.Wf) (hjob : s.jobs.jobOf t = some job) (now : Nat) (dir : CacheDir)
    (db : CacheDb) (hpc : e = .finish → pc = .finish) :
    (s.worked t job now dir db e pc).copyJobs + (if s.copying (t, job) then 1 else 0) +
        s.jobs.queue.countP CacheJob.isCopy =
      s.copyJobs + (if job.isCopy && pc != .finish then 1 else 0) +
        (s.worked t job now dir db e pc).jobs.queue.countP CacheJob.isCopy := by
  have hm := Jobs.mem_running hjob
  have hold := Jobs.countP_running hw.partition.tasks hm s.copying
  have hothers : (s.jobs.running.filter fun r => r.1 ≠ t).countP (s.worked t job now dir db e pc).copying =
      (s.jobs.running.filter fun r => r.1 ≠ t).countP s.copying := by
    refine List.countP_congr fun r hr => ?_
    rw [copying_worked s now (of_decide_eq_true (List.mem_filter.mp hr).2)]
  have hself : (s.worked t job now dir db e pc).copying (t, job) = (job.isCopy && pc != .finish) := by
    rw [copying, pc_worked, Function.update_self]
  have hnew := Jobs.countP_running hw.partition.tasks hm (s.worked t job now dir db e pc).copying
  rw [hothers, hself] at hnew
  have hheld : (s.worked t job now dir db e pc).jobs.held = s.jobs.held := by
    cases e with
    | none | promote | finish => rfl
    | submitReplace => exact Jobs.held_submitJob _ _ _ _
  rw [copyJobs, copyJobs, List.countP_append, List.countP_append, hheld]
  cases e with
  | none | promote =>
    show _ + List.countP _ s.jobs.running + _ + _ = _
    rw [hnew, hold]
    omega
  | submitReplace =>
    have hrunning : (s.worked t job now dir db .submitReplace pc).jobs.running = s.jobs.running :=
      Jobs.running_submitJob _ _ _ _
    rw [hrunning, hnew, hold]
    omega
  | finish =>
    have hrunning : (s.worked t job now dir db .finish pc).jobs.running =
        s.jobs.running.filter fun r => r.1 ≠ t := rfl
    rw [hrunning, hothers, hold, hpc rfl]
    simp only [bne_self_eq_false, Bool.and_false, Bool.false_eq_true, if_false]
    omega

theorem suited_worked (hw : s.Wf) (h : s.Suited) (hjob : s.jobs.jobOf t = some job) (now : Nat)
    (hpc : pc.suits job.kind = true) : (s.worked t job now dir db e pc).Suited := by
  intro r hr
  have hold : r ∈ s.jobs.running := by
    cases e with
    | none | promote => exact hr
    | submitReplace =>
      rwa [show (s.worked t job now dir db .submitReplace pc).jobs.running = s.jobs.running from
        Jobs.running_submitJob _ _ _ _] at hr
    | finish => exact (List.mem_filter.mp hr).1
  rw [pc_worked]
  by_cases ht : r.1 = t
  · obtain ⟨u, x⟩ := r
    obtain rfl : u = t := ht
    rw [Function.update_self]
    have hx := (Jobs.jobOf_eq_some_iff hw.partition).mpr hold
    rw [hjob] at hx
    rw [← Option.some.inj hx]
    exact hpc
  · rw [Function.update_of_ne ht]
    exact h r hold

open Classical in
/-- A step that submits nothing, from what it does to its own job. -/
theorem accounts_worked (hw : s.Wf) (hjob : s.jobs.jobOf t = some job)
    (he : e ≠ .submitReplace) (hpc : e = .finish → pc = .finish) (unmatched : Nat)
    (hsent : unmatched = 0 ↔ s.Announced cfg (.work t c))
    (hself : (if s.copying (t, job) then 1 else 0) =
      (if job.isCopy && pc != .finish then 1 else 0) + unmatched +
        if s.Ends (.work t c) then 1 else 0) :
    Accounts cfg s (.work t c) (s.worked t job c.now dir db e pc) := by
  have hcount := copyJobs_worked hw hjob c.now dir db hpc
  have hkept : (s.worked t job c.now dir db e pc).jobs.queue = s.jobs.queue ∧
      (s.worked t job c.now dir db e pc).jobs.accepted = s.jobs.accepted := by
    cases e with
    | submitReplace => exact absurd rfl he
    | none | promote | finish => exact ⟨rfl, rfl⟩
  refine ⟨unmatched, 0, hsent, by rw [hkept.2, Nat.add_zero], ?_⟩
  rw [hkept.1] at hcount
  omega

open Classical in
theorem accounts_work (hw : s.Wf) (hs : s.Suited) (hjob : s.jobs.jobOf t = some job)
    (hstep : workerStep s.backing s.dir s.db cfg.mount (s.aborted t) job.relPath job.kind t c
      (s.pc t) = some (dir, db, e, pc)) :
    Accounts cfg s (.work t c) (s.worked t job c.now dir db e pc) := by
  have hm := workMove_of_step hstep
  have hsuits := hs _ (Jobs.mem_running hjob)
  have hcopying : s.copying (t, job) = (job.isCopy && s.pc t != .finish) := rfl
  have hsome : (s.jobs.jobOf t).isSome := by rw [hjob]; rfl
  generalize hpc₀ : s.pc t = pc₀ at hm hstep hsuits hcopying
  -- away from the start there is no short circuit
  have hlater : pc₀ ≠ .start → s.Announced cfg (.work t c) := by
    intro hne job' _ hstart
    exact absurd (hpc₀.symm.trans hstart) hne
  have hquiet : pc₀ ≠ .room → (∀ m, pc₀ ≠ .copy (.ok m)) → pc₀ ≠ .copy .err →
      ¬ s.Ends (.work t c) := by
    intro hroom hok herr hends
    obtain ⟨_, ⟨h, _⟩ | h | ⟨m, h⟩⟩ := hends
    · exact hroom (hpc₀.symm.trans h)
    · exact herr (hpc₀.symm.trans h)
    · exact hok m (hpc₀.symm.trans h)
  have hcopy : job.kind ≠ .validate → job.isCopy = true := fun hk => bne_iff_ne.mpr hk
  have hplain : job.kind = .validate → job.isCopy = false := fun hk => by rw [CacheJob.isCopy, hk]; rfl
  cases hm with
  | skip hk hc =>
    refine accounts_worked hw hjob (by simp) (by simp) 1 (iff_of_false (by decide) fun h => ?_) ?_
    · exact Bool.noConfusion ((h job hjob hpc₀ hk).symm.trans hc)
    · rw [hcopying, hcopy (by rw [hk]; decide), if_neg (hquiet (by simp) (by simp) (by simp))]
      rfl
  | begin hk =>
    refine accounts_worked hw hjob (by simp) (by simp) 0 (iff_of_true rfl ?_) ?_
    · intro job' hjob' _ hp
      obtain rfl : job = job' := Option.some.inj (hjob.symm.trans hjob')
      rw [hp] at hstep
      by_cases hc : isCached s.dir job.relPath = true
      · simp [workerStep, hc] at hstep
      · exact Bool.eq_false_iff.mpr hc
    · rw [hcopying, hcopy hk, if_neg (hquiet (by simp) (by simp) (by simp))]
      rfl
  | readRow hk | noRow hk =>
    refine accounts_worked hw hjob (by simp) (by simp) 0 (iff_of_true rfl ?_) ?_
    · intro job' hjob' _ hp
      obtain rfl : job = job' := Option.some.inj (hjob.symm.trans hjob')
      exact absurd (hk.symm.trans hp) (by decide)
    · rw [hcopying, hplain hk, if_neg (hquiet (by simp) (by simp) (by simp))]
      rfl
  | promote hk =>
    refine accounts_worked hw hjob (by simp) (by simp) 0 (iff_of_true rfl (hlater (by simp))) ?_
    rw [hcopying, hcopy hk, if_neg (hquiet (by simp) (by simp) (by simp))]
    rfl
  | noRoom hf =>
    refine accounts_worked hw hjob (by simp) (by simp) 0 (iff_of_true rfl (hlater (by simp))) ?_
    have hends : s.Ends (.work t c) := ⟨hsome, .inl ⟨hpc₀, hf⟩⟩
    rw [hcopying, hcopy (bne_iff_ne.mp hsuits), if_pos hends]
    rfl
  | room hf =>
    refine accounts_worked hw hjob (by simp) (by simp) 0 (iff_of_true rfl (hlater (by simp))) ?_
    have hends : ¬ s.Ends (.work t c) := by
      intro hends
      obtain ⟨_, ⟨_, h⟩ | h | ⟨m, h⟩⟩ := hends
      · exact Bool.noConfusion (hf.symm.trans h)
      · exact absurd (hpc₀.symm.trans h) (by simp)
      · exact absurd (hpc₀.symm.trans h) (by simp)
    rw [hcopying, hcopy (bne_iff_ne.mp hsuits), if_neg hends]
    rfl
  | copy hcm =>
    refine accounts_worked hw hjob (by simp) (by simp) 0 (iff_of_true rfl (hlater (by simp))) ?_
    have hends : ¬ s.Ends (.work t c) := by
      refine hquiet (by simp) (fun m h => ?_) fun h => ?_
      · rw [WorkerPc.copy.inj h] at hcm
        cases hcm
      · rw [WorkerPc.copy.inj h] at hcm
        cases hcm
    rw [hcopying, hcopy (bne_iff_ne.mp hsuits), if_neg hends]
    rfl
  | mark m =>
    refine accounts_worked hw hjob (by simp) (by simp) 0 (iff_of_true rfl (hlater (by simp))) ?_
    have hends : s.Ends (.work t c) := ⟨hsome, .inr (.inr ⟨m, hpc₀⟩)⟩
    rw [hcopying, hcopy (bne_iff_ne.mp hsuits), if_pos hends]
    rfl
  | copyFailed =>
    refine accounts_worked hw hjob (by simp) (by simp) 0 (iff_of_true rfl (hlater (by simp))) ?_
    have hends : s.Ends (.work t c) := ⟨hsome, .inr (.inl hpc₀)⟩
    rw [hcopying, hcopy (bne_iff_ne.mp hsuits), if_pos hends]
    rfl
  | statLive | fresh | notTracked | backfill | dropFile | refresh | refreshed | dropRow =>
    refine accounts_worked hw hjob (by simp) (by simp) 0 (iff_of_true rfl (hlater (by simp))) ?_
    rw [hcopying, hplain (beq_iff_eq.mp hsuits), if_neg (hquiet (by simp) (by simp) (by simp))]
    rfl
  | stale =>
    have hkind := hplain (beq_iff_eq.mp hsuits)
    have hfinish : JobEffect.submitReplace = .finish → WorkerPc.finish = .finish := fun _ => rfl
    have hcount := copyJobs_worked hw hjob c.now s.dir s.db hfinish
    rw [hcopying, hkind] at hcount
    have hjobs : (s.worked t job c.now s.dir s.db .submitReplace .finish).jobs =
        s.jobs.submitJob job.relPath .replace c.now := rfl
    have hends := hquiet (by simp) (by simp) (by simp)
    by_cases ha : s.jobs.Accepts (job.relPath, .replace)
    · obtain ⟨hqueue, hacc⟩ := Jobs.submitJob_accepted ha c.now
      refine ⟨0, 1, iff_of_true rfl (hlater (by simp)), by rw [hjobs, hacc], ?_⟩
      rw [hjobs, hqueue] at hcount
      simp only [Bool.false_and, Bool.false_eq_true, reduceCtorEq, if_false] at hcount
      rw [if_neg hends]
      omega
    · refine ⟨0, 0, iff_of_true rfl (hlater (by simp)), ?_, ?_⟩
      · rw [hjobs, Jobs.submitJob_refused ha, Nat.add_zero]
      · rw [hjobs, Jobs.submitJob_refused ha] at hcount
        simp only [Bool.false_and, Bool.false_eq_true, if_false] at hcount
        rw [if_neg hends]
        omega
  | finish =>
    refine accounts_worked hw hjob (by simp) (fun _ => rfl) 0 (iff_of_true rfl (hlater (by simp))) ?_
    have hends := hquiet (by simp) (by simp) (by simp)
    rw [hcopying, if_neg hends]
    rfl

end Work

theorem accounts_step (hw : s.Wf) (hs : s.Suited) (h : step cfg s a = some s')
    (hcrash : ∀ now loaded, a ≠ .crash now loaded) : Accounts cfg s a s' ∧ s'.Suited := by
  cases move_of_step h with
  | change | served | offer | forget | event | evictFile | evictRow | hit | touch | refresh =>
    exact ⟨accounts_still rfl rfl rfl rfl rfl trivial id, suited_still hs rfl rfl⟩
  | markAbort hwatch =>
    refine ⟨accounts_still rfl rfl rfl rfl rfl (fun p hp => ?_) id, suited_still hs rfl rfl⟩
    rw [hwatch] at hp
    cases hp
  | populate =>
    exact ⟨accounts_submit rfl rfl id (iff_of_true trivial fun h => absurd h.1 (by decide)),
      suited_still hs (Jobs.running_submitJob _ _ _ _) rfl⟩
  | @submit p kind now hk =>
    refine ⟨accounts_submit rfl rfl id ?_, suited_still hs (Jobs.running_submitJob _ _ _ _) rfl⟩
    cases kind with
    | populate => exact absurd rfl hk
    | replace => exact iff_of_true trivial fun h => absurd h.1 (by decide)
    | validate => exact not_congr ⟨fun h => ⟨rfl, h⟩, fun h => h.2⟩
  | @dispatch p now hwatch =>
    refine ⟨accounts_submit rfl rfl id ?_, suited_still hs (Jobs.running_submitJob _ _ _ _) rfl⟩
    constructor
    · exact fun hsent h => hsent p hwatch h.2
    · intro hno q hq hacc
      rw [hwatch] at hq
      obtain rfl : p = q := (Prod.mk.inj (Option.some.inj hq)).1
      exact hno ⟨rfl, hacc⟩
  | @expire now jobs hp =>
    cases pipeMove_of_step hp with
    | expire hheld =>
      obtain ⟨queue, known, expired, e, -⟩ := Jobs.expireStale_spec s.jobs cfg.deferredTtlMinutes now
      have hqueue := Jobs.queue_eq_expiring s.jobs cfg.deferredTtlMinutes now
      rw [e] at hqueue ⊢
      refine ⟨⟨(s.jobs.expiring cfg.deferredTtlMinutes now).countP CacheJob.isCopy, 0, ?_, rfl, ?_⟩,
        suited_still hs rfl rfl⟩
      · refine List.countP_eq_zero.trans (forall₂_congr fun job _ => ?_)
        rw [CacheJob.isCopy, bne_iff_ne, ne_eq, not_not]
      · have hends : ¬ s.Ends (.expire now) := id
        rw [if_neg hends, copyJobs, copyJobs, hqueue]
        simp only [List.countP_append]
        show _ + List.countP s.copying s.jobs.running + _ + _ = _
        omega
  | @pop copyAllowed _ hp =>
    cases pipeMove_of_step hp with
    | @validate _ job rest hheld hpop hk =>
      have hperm := Jobs.perm_popNextJob hpop
      refine ⟨accounts_spawn hw rfl rfl rfl ?_ trivial id, suited_spawn hw hs rfl rfl⟩
      show (rest ++ s.jobs.held.toList).countP _ + _ = _
      rw [List.countP_append, List.countP_append, hperm.countP_eq, List.countP_cons]
      omega
    | @hold _ job rest hheld hpop hk =>
      have hperm := Jobs.perm_popNextJob hpop
      have hends : ¬ s.Ends (.pop copyAllowed) := id
      refine ⟨⟨0, 0, iff_of_true rfl trivial, rfl, ?_⟩, fun r hr => ?_⟩
      · rw [if_neg hends, copyJobs, copyJobs, hheld]
        show (rest ++ (some job).toList).countP _ + s.jobs.running.countP _ + 0 + 0 = _
        rw [countP_spawned hw, List.countP_append, Option.toList_some, List.countP_singleton,
          Option.toList_none, List.append_nil, hperm.countP_eq, List.countP_cons]
      · rw [pc_spawned, Function.update_of_ne (Nat.ne_of_lt (hw.partition.tasks_lt r hr))]
        exact hs r hr
  | acquire hp =>
    cases pipeMove_of_step hp with
    | @acquire job hheld hfree =>
      refine ⟨accounts_spawn hw rfl rfl rfl ?_ trivial id, suited_spawn hw hs rfl rfl⟩
      rw [hheld, List.countP_append, List.countP_append, Option.toList_none, Option.toList_some,
        List.countP_nil, List.countP_singleton]
      rfl
  | release hp =>
    cases pipeMove_of_step hp with
    | release => exact ⟨accounts_still rfl rfl rfl rfl rfl trivial id, suited_still hs rfl rfl⟩
  | @work t c job dir db e pc hjob hstep =>
    refine ⟨accounts_work hw hs hjob hstep, suited_worked hw hs hjob c.now ?_⟩
    exact suits_of_workMove (workMove_of_step hstep) (hs _ (Jobs.mem_running hjob))
  | crash => exact absurd rfl (hcrash _ _)

open Classical in
/-- The client counts the ends of the copies. -/
theorem gauges_telemetry (s : Daemon) (a : Action) (d : DashboardState) :
    ((s.telemetry a).foldl DashboardState.applyEvent d).openHandles = d.openHandles ∧
      ((s.telemetry a).foldl DashboardState.applyEvent d).inFlightCount =
        d.inFlightCount - if s.Ends a then 1 else 0 := by
  cases a with
  | work t c =>
    cases hjob : s.jobs.jobOf t with
    | none =>
      have hends : ¬ s.Ends (.work t c) := fun h => by
        rw [Ends, hjob] at h
        exact Bool.noConfusion h.1
      rw [telemetry, hjob, if_neg hends]
      exact ⟨rfl, rfl⟩
    | some job =>
      have hends : s.Ends (.work t c) ↔
          (s.pc t = .room ∧ c.fail = true ∨ s.pc t = .copy .err ∨ ∃ m, s.pc t = .copy (.ok m)) := by
        rw [Ends, hjob]
        exact and_iff_right rfl
      rw [telemetry, hjob]
      simp only [hends]
      cases hpc : s.pc t with
      | room =>
        cases hf : c.fail with
        | true => simp [DashboardState.applyEvent, DashboardState.removeActiveCopy]
        | false => simp [DashboardState.applyEvent]
      | copy pc =>
        cases pc with
        | ok m => simp [DashboardState.applyEvent, DashboardState.removeActiveCopy]
        | err => simp [DashboardState.applyEvent, DashboardState.removeActiveCopy]
        | mkdir | openSrc | fstat | openDst | read | write | sync | checkAbort | finalStat | apply
        | rename | failInner | failOuter => simp
      | start | promote | statLive | verdict | refresh | dropRow | finish => simp
  | change | offer | submit | expire | pop | acquire | release | forget | event | dispatch | evictFile
  | evictRow | hit | touch | refresh | crash =>
    refine ⟨rfl, ?_⟩
    rw [if_neg]
    · rfl
    · exact id

end Daemon

/-! ## The mount's part -/

namespace Ledger

variable {l : Ledger} {fh : Nat}

theorem mem_readers : fh ∈ l.readers ↔ (l.lookup fh).any OpenHandle.isReader = true := by
  rw [readers, Finset.mem_filter, List.mem_toFinset, Map.mem_keys_iff]
  refine and_iff_right_of_imp fun h => ?_
  cases hl : l.lookup fh with
  | none => rw [hl] at h; cases h
  | some o => exact ⟨o, rfl⟩

theorem readers_insert_reader (hfresh : l.lookup fh = none) (path : RelPath) (announced : Bool)
    (n : Nat) : (readers (l.insert fh (.reader path announced n))).card = l.readers.card + 1 := by
  have hnot : fh ∉ l.readers := fun h => by
    rw [mem_readers, hfresh] at h
    cases h
  have heq : readers (l.insert fh (.reader path announced n)) = insert fh l.readers := by
    ext x
    rw [mem_readers, Map.lookup_insert_if, Finset.mem_insert, mem_readers]
    by_cases hx : x = fh
    · rw [if_pos hx]
      exact iff_of_true rfl (.inl hx)
    · rw [if_neg hx]
      exact (or_iff_right hx).symm
  rw [heq, Finset.card_insert_of_notMem hnot]

/-- Nothing else that happens to a handle makes it one for reading. -/
theorem readers_insert {o : OpenHandle} (h : (l.lookup fh).any OpenHandle.isReader = o.isReader) :
    readers (l.insert fh o) = l.readers := by
  ext x
  rw [mem_readers, mem_readers, Map.lookup_insert_if]
  by_cases hx : x = fh
  · rw [if_pos hx, hx, h]
    exact Iff.rfl
  · rw [if_neg hx]

theorem readers_erase (l : Ledger) (fh : Nat) :
    (readers (l.erase fh)).card =
      l.readers.card - if (l.lookup fh).any OpenHandle.isReader then 1 else 0 := by
  have heq : readers (l.erase fh) = l.readers.erase fh := by
    ext x
    rw [mem_readers, Map.lookup_erase_if, Finset.mem_erase, mem_readers]
    by_cases hx : x = fh
    · rw [if_pos hx]
      exact iff_of_false Bool.noConfusion fun h => h.1 hx
    · rw [if_neg hx]
      exact (and_iff_right hx).symm
  rw [heq]
  split
  · next h => exact Finset.card_erase_of_mem (mem_readers.mpr h)
  · next h => rw [Finset.erase_eq_of_notMem (fun hm => h (mem_readers.mp hm)), Nat.sub_zero]

end Ledger

/-- What is not about a handle for reading being opened or closed. -/
def HandleEvent.Calm (ev : Option HandleEvent) : Prop :=
  ev = none ∨ (∃ fh append, ev = some (.writer fh append)) ∨ ∃ fh n, ev = some (.read fh n)

theorem calm_handleEvent {r : FsRequest} (reply : Reply Answer)
    (hopen : ∀ ino flags, r = .openFile ino flags → isWriteIntent flags = true)
    (hrelease : ∀ fh, r ≠ .release fh) : HandleEvent.Calm (handleEvent r reply) := by
  unfold handleEvent
  split
  · next ino flags fh =>
    rw [if_pos (hopen ino flags rfl)]
    exact .inr (.inl ⟨_, _, rfl⟩)
  · exact .inr (.inl ⟨_, _, rfl⟩)
  · exact .inr (.inr ⟨_, _, rfl⟩)
  · next fh _ => exact absurd rfl (hrelease fh)
  · exact .inl rfl

namespace Fs

variable {cfg : FsConfig} {s s' : Fs} {k : FsKernel} {r : FsRequest} {l l' : Ledger}

theorem readers_calm (hb : Balanced s l) {ev : Option HandleEvent} (ha : After cfg k s s' ev)
    (hev : HandleEvent.Calm ev) : (l.note cfg k s.inodes ev).readers = l.readers := by
  obtain rfl | ⟨fh, append, rfl⟩ | ⟨fh, n, rfl⟩ := hev
  · rfl
  · obtain ⟨path, o, hfree, -⟩ := ha
    exact Ledger.readers_insert (o := .writer append) (by rw [(hb.fds fh).mp hfree]; rfl)
  · unfold Ledger.note
    cases hl : l.lookup fh with
    | none => simp only [hl]
    | some o =>
      cases o with
      | writer append => simp only [hl]
      | reader path announced m =>
        simp only [hl]
        exact Ledger.readers_insert (o := .reader path announced (m + n)) (by rw [hl]; rfl)

/-- An open for reading answers with a handle exactly when it has something to open. -/
theorem openForRead_reader (cfg : FsConfig) (s : Fs) (k : FsKernel) (path : RelPath) (ino flags : Nat)
    (hflags : isWriteIntent flags = false) :
    (∃ v, (s.tryOpen cfg k path).2 = .ok v) ∧
        handleEvent (.openFile ino flags) (s.openForRead cfg k path flags).2 =
          some (.reader ino k.fd) ∨
      (¬ ∃ v, (s.tryOpen cfg k path).2 = .ok v) ∧
        handleEvent (.openFile ino flags) (s.openForRead cfg k path flags).2 = none := by
  unfold openForRead
  cases htry : s.tryOpen cfg k path with
  | mk u result =>
    cases result with
    | error e =>
      refine .inr ⟨fun h => ?_, rfl⟩
      obtain ⟨v, hv⟩ := h
      cases hv
    | ok v =>
      refine .inl ⟨⟨v, rfl⟩, ?_⟩
      simp only [handleEvent, hflags, Bool.false_eq_true, if_false]

/-- The gauge goes with the handles, by a request, exactly when an open for reading finds
something to open. -/
def GaugeFollows (cfg : FsConfig) (k : FsKernel) (s : Fs) (r : FsRequest) (l l' : Ledger)
    (d : DashboardState) : Prop :=
  ((s.telemetry r).foldl DashboardState.applyEvent d).inFlightCount = d.inFlightCount ∧
    (((s.telemetry r).foldl DashboardState.applyEvent d).openHandles + l.readers.card =
        d.openHandles + l'.readers.card ↔ s.OpensRead cfg k r)

variable {d : DashboardState}

/-- Nothing is sent, and the handles for reading are those that were. -/
theorem follows_calm (hb : Balanced s l)
    (ha : After cfg k s s' (handleEvent r (s.handle cfg k r).2)) (hnone : s.telemetry r = [])
    (hcalm : HandleEvent.Calm (handleEvent r (s.handle cfg k r).2)) (hopens : s.OpensRead cfg k r) :
    GaugeFollows cfg k s r l (l.note cfg k s.inodes (handleEvent r (s.handle cfg k r).2)) d := by
  rw [GaugeFollows, hnone, readers_calm hb ha hcalm]
  exact ⟨rfl, iff_of_true rfl hopens⟩

/-- An open for reading of a known inode is announced before it is tried. -/
theorem follows_open (hb : Balanced s l) {ino flags : Nat} {path : RelPath}
    (ha : After cfg k s s' (handleEvent (.openFile ino flags) (s.handle cfg k (.openFile ino flags)).2))
    (hp : s.inodes.getPath ino = some path) (hflags : isWriteIntent flags = false) :
    GaugeFollows cfg k s (.openFile ino flags) l
      (l.note cfg k s.inodes
        (handleEvent (.openFile ino flags) (s.handle cfg k (.openFile ino flags)).2)) d := by
  have htel : s.telemetry (.openFile ino flags) = [.fuseOpen] := by
    simp only [telemetry, hp, hflags, Bool.false_eq_true, if_false]
  have hhandle : (s.handle cfg k (.openFile ino flags)).2 = (s.openForRead cfg k path flags).2 := by
    simp only [handle, doOpen, hp, hflags, Bool.false_eq_true, if_false]
  have hopens : s.OpensRead cfg k (.openFile ino flags) ↔ ∃ v, (s.tryOpen cfg k path).2 = .ok v := by
    constructor
    · exact fun h => h path hp hflags
    · intro hok q hq _
      obtain rfl : path = q := Option.some.inj (hp.symm.trans hq)
      exact hok
  rw [GaugeFollows, htel, hopens, hhandle]
  rw [hhandle] at ha
  refine ⟨rfl, ?_⟩
  show d.openHandles + 1 + _ = _ ↔ _
  obtain ⟨hok, hev⟩ | ⟨hno, hev⟩ := openForRead_reader cfg s k path ino flags hflags
  · rw [hev] at ha ⊢
    obtain ⟨_, _, _, _, hfree, -⟩ := ha
    have hcard := Ledger.readers_insert_reader ((hb.fds k.fd).mp hfree)
      ((s.inodes.getPath ino).getD []) (announces cfg k) 0
    refine iff_of_true ?_ hok
    rw [Ledger.note, hcard]
    omega
  · rw [hev]
    refine iff_of_false (fun h => ?_) hno
    have h : d.openHandles + 1 + l.readers.card = d.openHandles + l.readers.card := h
    omega

/-- The release of a handle that is open; the gauge counts those for reading. -/
theorem follows_release (hb : Balanced s l) {fh : Nat} (hopen : ¬ s.Free fh)
    (hd : l.readers.card ≤ d.openHandles) : GaugeFollows cfg k s (.release fh) l (l.erase fh) d := by
  have hopens : s.OpensRead cfg k (.release fh) := trivial
  rw [GaugeFollows, Ledger.readers_erase, telemetry]
  cases hw : (s.writePaths.lookup fh).isSome with
  | true =>
    obtain ⟨append, hl⟩ := (hb.writePaths fh).mp hw
    rw [if_pos rfl, hl]
    exact ⟨rfl, iff_of_true rfl hopens⟩
  | false =>
    have hreader : (l.lookup fh).any OpenHandle.isReader = true := by
      cases hl : l.lookup fh with
      | none => exact absurd ((hb.fds fh).mpr hl) hopen
      | some o =>
        cases o with
        | reader => rfl
        | writer append =>
          exact Bool.noConfusion (hw.symm.trans ((hb.writePaths fh).mpr ⟨append, hl⟩))
    have hpos : 0 < l.readers.card := Finset.card_pos.mpr ⟨fh, Ledger.mem_readers.mpr hreader⟩
    rw [if_neg Bool.false_ne_true, if_pos hreader]
    refine ⟨rfl, iff_of_true ?_ hopens⟩
    show d.openHandles - 1 + _ = _
    omega

theorem gauges_request (hb : Balanced s l) (h : ledgerStep cfg (s, l) (k, r) = some (s', l'))
    (d : DashboardState) (hd : l.readers.card ≤ d.openHandles) :
    Balanced s' l' ∧ GaugeFollows cfg k s r l l' d := by
  obtain ⟨u, hstep, hx⟩ := Option.map_eq_some_iff.mp h
  obtain ⟨rfl, rfl⟩ := Prod.mk.inj hx
  have hafter := after_step hb hstep
  refine ⟨hb.step hafter, ?_⟩
  by_cases hopen : ∃ ino flags, r = .openFile ino flags
  · obtain ⟨ino, flags, rfl⟩ := hopen
    cases hflags : isWriteIntent flags with
    | true =>
      refine follows_calm hb hafter ?_ (calm_handleEvent _ (fun ino' flags' e => ?_) (by simp)) fun path _ hf => ?_
      · simp only [telemetry, hflags, if_true]
        cases s.inodes.getPath ino <;> rfl
      · rw [← (FsRequest.openFile.inj e).2]
        exact hflags
      · rw [hflags] at hf
        cases hf
    | false =>
      cases hp : s.inodes.getPath ino with
      | none =>
        refine follows_calm hb hafter (by simp only [telemetry, hp]) ?_ fun path hpath => ?_
        · simp only [handle, doOpen, hp]
          exact .inl rfl
        · rw [hp] at hpath
          cases hpath
      | some path => exact follows_open hb hafter hp hflags
  · by_cases hrel : ∃ fh, r = .release fh
    · obtain ⟨fh, rfl⟩ := hrel
      refine follows_release hb ?_ hd
      unfold step at hstep
      split at hstep
      · next h => exact h
      · cases hstep
    · refine follows_calm hb hafter ?_ (calm_handleEvent _ (fun ino flags e => absurd ⟨ino, flags, e⟩ hopen)
        fun fh e => hrel ⟨fh, e⟩) ?_
      · cases r with
        | openFile ino flags => exact absurd ⟨ino, flags, rfl⟩ hopen
        | release fh => exact absurd ⟨fh, rfl⟩ hrel
        | lookup | forget | getattr | readdir | read | mknod | mkdir | symlink | mutate | outside => rfl
      · cases r with
        | openFile ino flags => exact absurd ⟨ino, flags, rfl⟩ hopen
        | release | lookup | forget | getattr | readdir | read | mknod | mkdir | symlink | mutate
        | outside => trivial

end Fs

/-! ## Runs -/

namespace Observed

variable {ι : Type} [Fintype ι] [DecidableEq ι] {cfgs : ι → SiteConfig} {s s' : Observed ι}

/-- What every step keeps, whatever the gauges say. -/
structure Sound (s : Observed ι) : Prop where
  balanced : ∀ i, (s.sites i).fs.1.Balanced (s.sites i).fs.2
  wf : ∀ i, (s.sites i).daemon.Wf
  suited : ∀ i, (s.sites i).daemon.Suited

omit [Fintype ι] in
theorem sites_set (s : Observed ι) (i : ι) (x : Site) (events : List TelemetryEvent) (j : ι) :
    (s.set i x events).sites j = if j = i then x else s.sites j :=
  Function.update_apply s.sites i x j

omit [Fintype ι] in
theorem Sound.set (h : s.Sound) {i : ι} {x : Site} (events : List TelemetryEvent)
    (hbal : x.fs.1.Balanced x.fs.2) (hw : x.daemon.Wf) (hs : x.daemon.Suited) :
    (s.set i x events).Sound := by
  constructor <;> intro j <;> rw [sites_set] <;> split
  · exact hbal
  · exact h.balanced j
  · exact hw
  · exact h.wf j
  · exact hs
  · exact h.suited j

/-- One mount of the sum has changed. -/
theorem sum_set (s : Observed ι) (i : ι) (x : Site) (events : List TelemetryEvent) (f : Site → Nat) :
    ∑ j, f ((s.set i x events).sites j) + f (s.sites i) = ∑ j, f (s.sites j) + f x := by
  have hrest : ∑ j ∈ Finset.univ.erase i, f ((s.set i x events).sites j) =
      ∑ j ∈ Finset.univ.erase i, f (s.sites j) := by
    refine Finset.sum_congr rfl fun j hj => ?_
    rw [sites_set, if_neg (Finset.ne_of_mem_erase hj)]
  have hself : f ((s.set i x events).sites i) = f x := by
    rw [sites_set, if_pos rfl]
  rw [← Finset.add_sum_erase _ _ (Finset.mem_univ i),
    ← Finset.add_sum_erase _ (fun j => f (s.sites j)) (Finset.mem_univ i), hrest, hself]
  omega

/-- The gauges stay right exactly when they go with the mount that has changed. -/
theorem agrees_set (ha : s.Agrees) (i : ι) (x : Site) (events : List TelemetryEvent) :
    (s.set i x events).Agrees ↔
      (events.foldl DashboardState.applyEvent s.client).openHandles + (s.sites i).fs.2.readers.card =
          s.client.openHandles + x.fs.2.readers.card ∧
        (events.foldl DashboardState.applyEvent s.client).inFlightCount + x.announcing +
            (s.sites i).daemon.copyJobs =
          s.client.inFlightCount + (s.sites i).announcing + x.daemon.copyJobs := by
  have hread := s.sum_set i x events fun x => x.fs.2.readers.card
  have hjobs := s.sum_set i x events fun x => x.daemon.copyJobs
  have hann := s.sum_set i x events fun x => x.announcing
  have hopen := ha.openHandles
  have hflight := ha.inFlight
  have hclient : (s.set i x events).client = events.foldl DashboardState.applyEvent s.client := rfl
  simp only [readHandles, announcing, copyJobs] at hopen hflight
  constructor
  · intro h
    have hopen' := h.openHandles
    have hflight' := h.inFlight
    simp only [readHandles, announcing, copyJobs, hclient] at hopen' hflight'
    exact ⟨by omega, by omega⟩
  · intro h
    refine ⟨?_, ?_⟩
    · simp only [readHandles, hclient]
      omega
    · simp only [announcing, copyJobs, hclient]
      omega

theorem keep_request {i : ι} {k : FsKernel} {r : FsRequest} (ha : s.Agrees) (hi : s.Sound)
    (h : step cfgs s (.request i k r) = some s') :
    s'.Sound ∧ (s'.Agrees ↔ Paired cfgs s (.request i k r)) := by
  obtain ⟨fs, hfs, rfl⟩ := Option.map_eq_some_iff.mp h
  have hle : (s.sites i).fs.2.readers.card ≤ s.client.openHandles := by
    rw [ha.openHandles]
    exact Finset.single_le_sum (f := fun j => (s.sites j).fs.2.readers.card)
      (fun _ _ => Nat.zero_le _) (Finset.mem_univ i)
  obtain ⟨hbal, hflight, hopen⟩ := Fs.gauges_request (hi.balanced i) hfs s.client hle
  refine ⟨hi.set _ hbal (hi.wf i) (hi.suited i), ?_⟩
  rw [agrees_set ha, hflight]
  exact (and_iff_left rfl).trans hopen

open Classical in
theorem keep_work {i : ι} {a : Action} (ha : s.Agrees) (hi : s.Sound)
    (h : step cfgs s (.work i a) = some s') :
    s'.Sound ∧ (s'.Agrees ↔ Paired cfgs s (.work i a)) := by
  have hcrash : ∀ now loaded, a ≠ .crash now loaded := by
    intro now loaded e
    rw [e] at h
    cases h
  obtain ⟨d, hd, rfl⟩ : ∃ d, Daemon.step (cfgs i).daemon (s.sites i).daemon a = some d ∧
      s.set i ((s.sites i).worked d) ((s.sites i).daemon.telemetry a) = s' := by
    cases a with
    | crash now loaded => exact absurd rfl (hcrash now loaded)
    | change | offer | submit | expire | pop | acquire | release | work | forget | event | dispatch
    | evictFile | evictRow | hit | touch | refresh => exact Option.map_eq_some_iff.mp h
  obtain ⟨⟨unmatched, accepted, hsent, hacc, hcount⟩, hsuited⟩ :=
    Daemon.accounts_step (hi.wf i) (hi.suited i) hd hcrash
  obtain ⟨hopen, hflight⟩ := Daemon.gauges_telemetry (s.sites i).daemon a s.client
  refine ⟨hi.set _ (hi.balanced i) ((hi.wf i).step hd) hsuited, ?_⟩
  have hannounce : ((s.sites i).worked d).announcing = (s.sites i).announcing + accepted := by
    rw [Site.worked, hacc, Nat.add_sub_cancel_left]
  have hjob : ((s.sites i).worked d).daemon.copyJobs = d.copyJobs := rfl
  have hfs : ((s.sites i).worked d).fs = (s.sites i).fs := rfl
  have hgauge := ha.inFlight
  rw [agrees_set ha, hopen, hflight, hannounce, hjob, hfs, and_iff_right rfl, Paired, ← hsent]
  by_cases hends : (s.sites i).daemon.Ends a
  · rw [if_pos hends] at hcount
    rw [if_pos hends]
    constructor
    · exact fun h' => ⟨by omega, fun _ => by omega⟩
    · intro h'
      have hroom := h'.2 hends
      omega
  · rw [if_neg hends] at hcount
    rw [if_neg hends]
    constructor
    · exact fun h' => ⟨by omega, fun h => absurd h hends⟩
    · intro h'
      omega

theorem keep_announce {i : ι} (ha : s.Agrees) (hi : s.Sound)
    (h : step cfgs s (.announce i) = some s') : s'.Sound ∧ s'.Agrees := by
  simp only [step] at h
  split at h
  · cases h
  · next hpos =>
    obtain rfl := Option.some.inj h
    refine ⟨hi.set _ (hi.balanced i) (hi.wf i) (hi.suited i), (agrees_set ha i _ _).mpr ⟨rfl, ?_⟩⟩
    show s.client.inFlightCount + 1 + ((s.sites i).announcing - 1) + (s.sites i).daemon.copyJobs =
      s.client.inFlightCount + (s.sites i).announcing + (s.sites i).daemon.copyJobs
    omega

omit [Fintype ι] in
theorem sound_found (hi : s.Sound) (i : ι) (disk : Disk) (dir : CacheDir) (db : CacheDb) :
    (s.set i ((s.sites i).found disk dir db) []).Sound := by
  refine hi.set _ ?_ ⟨(hi.wf i).partition, (hi.wf i).handles⟩ (hi.suited i)
  have hstill : Fs.After ⟨[], true, true, true, true⟩ (.readOnly 0) (s.sites i).fs.1
      ((s.sites i).found disk dir db).fs.1 none := rfl
  exact (hi.balanced i).step hstill

theorem keep (cfgs : ι → SiteConfig) (s : Observed ι) (a : ObservedAction ι) (s' : Observed ι)
    (ha : s.Agrees) (hi : s.Sound) (h : step cfgs s a = some s') :
    s'.Sound ∧ (s'.Agrees ↔ Paired cfgs s a) := by
  cases a with
  | request i k r => exact keep_request ha hi h
  | work i a => exact keep_work ha hi h
  | announce i =>
    obtain ⟨hi', ha'⟩ := keep_announce ha hi h
    exact ⟨hi', iff_of_true ha' trivial⟩
  | world i disk dir db =>
    obtain rfl := Option.some.inj h
    exact ⟨sound_found hi i disk dir db, iff_of_true ((agrees_set ha i _ _).mpr ⟨rfl, rfl⟩) trivial⟩
  | other e =>
    simp only [step] at h
    split at h
    · cases h
    · next hother =>
      obtain rfl := Option.some.inj h
      obtain ⟨hopen, hflight⟩ := s.client.gauges_applyEvent (Bool.eq_false_iff.mpr hother)
      exact ⟨⟨hi.balanced, hi.wf, hi.suited⟩,
        iff_of_true ⟨hopen.trans ha.openHandles, by rw [hflight]; exact ha.inFlight⟩ trivial⟩

omit [Fintype ι] [DecidableEq ι] in
theorem sound_start (cfgs : ι → SiteConfig) (origins : ι → Origin) (budgetMax : Nat) :
    (start cfgs origins budgetMax).Sound where
  balanced i := Fs.balanced_start _ _ _
  wf i := Daemon.wf_start _ _ _ _ _
  suited i := fun r hr => by rfl

/-- A restored job is in the queue. -/
theorem copyJobs_start (cfg : Config) (o : Origin) :
    (Daemon.start cfg o.disk.backing o.dir o.db o.loaded).copyJobs = 0 ↔ o.loaded = [] := by
  constructor
  · intro h
    refine List.eq_nil_iff_forall_not_mem.mpr fun r hr => ?_
    have hkey : (r.1, .populate) ∈ (Jobs.rehydrate o.loaded cfg.maxConcurrentCopies 1).queue.map CacheJob.key :=
      Jobs.mem_queue_rehydrate.mpr ⟨r, hr, rfl⟩
    obtain ⟨job, hjob, hk⟩ := List.mem_map.mp hkey
    have hcopy : job.isCopy = true := by
      rw [CacheJob.isCopy, show job.kind = .populate from congrArg Prod.snd hk]
      rfl
    have hnone := (Nat.add_eq_zero_iff.mp h).1
    exact List.countP_eq_zero.mp hnone job (List.mem_append_left _ hjob) hcopy
  · intro h
    rw [h]
    rfl

omit [DecidableEq ι] in
/-- And was never announced. -/
theorem agrees_start (cfgs : ι → SiteConfig) (origins : ι → Origin) (budgetMax : Nat) :
    (start cfgs origins budgetMax).Agrees ↔ ∀ i, (origins i).loaded = [] := by
  have hjobs : (start cfgs origins budgetMax).copyJobs = 0 ↔ ∀ i, (origins i).loaded = [] := by
    rw [copyJobs, Finset.sum_eq_zero_iff]
    exact forall_congr' fun i => (forall_prop_of_true (Finset.mem_univ i)).trans (copyJobs_start _ _)
  rw [← hjobs]
  constructor
  · intro h
    have hflight := h.inFlight
    have hnone : (start cfgs origins budgetMax).announcing = 0 := Finset.sum_const_zero
    have hzero : (start cfgs origins budgetMax).client.inFlightCount = 0 := rfl
    omega
  · intro h
    have hread : (start cfgs origins budgetMax).readHandles = 0 := Finset.sum_const_zero
    have hnone : (start cfgs origins budgetMax).announcing = 0 := Finset.sum_const_zero
    exact ⟨hread.symm, by rw [h, hnone]; rfl⟩

theorem gauges_agree_iff (cfgs : ι → SiteConfig) (origins : ι → Origin) (budgetMax : Nat)
    (as : List (ObservedAction ι)) (t : Observed ι)
    (h : run (step cfgs) (start cfgs origins budgetMax) as = some t) :
    (∀ bs u, bs <+: as → run (step cfgs) (start cfgs origins budgetMax) bs = some u → u.Agrees) ↔
      (∀ i, (origins i).loaded = []) ∧
        Along (step cfgs) (Paired cfgs) (start cfgs origins budgetMax) as := by
  by_cases h0 : (start cfgs origins budgetMax).Agrees
  · rw [and_iff_right ((agrees_start cfgs origins budgetMax).mp h0)]
    exact always_iff_along Agrees Sound (keep cfgs) h h0 (sound_start cfgs origins budgetMax)
  · refine iff_of_false (fun hall => h0 (hall [] _ (List.nil_prefix) rfl)) fun hok => ?_
    exact h0 ((agrees_start cfgs origins budgetMax).mpr hok.1)

private def sleeveCfgs : Unit → SiteConfig := fun _ => ⟨Fs.playingConfig, ⟨[109], 0, 1⟩⟩

private def sleeveOrigins : Unit → Origin := fun _ =>
  ⟨Mounted.sleeveStart.disk, Mounted.sleeveStart.dir, Mounted.sleeveStart.db, []⟩

private def liner : Name := ⟨[108, 105], Eq.refl true⟩

/-- A cached file is opened, and another one is queued. -/
theorem opened_and_queued : ∃ t,
    run (step sleeveCfgs) (start sleeveCfgs sleeveOrigins 0)
      [.request () (.readOnly 3) (.lookup rootIno Fs.sleeveName),
        .request () (.readOnly 3) (.openFile 2 0), .work () (.offer [liner]),
        .work () (.submit [liner] .populate 5), .announce ()] = some t ∧
    ∀ bs u, bs <+: [.request () (.readOnly 3) (.lookup rootIno Fs.sleeveName),
        .request () (.readOnly 3) (.openFile 2 0), .work () (.offer [liner]),
        .work () (.submit [liner] .populate 5), .announce ()] →
      run (step sleeveCfgs) (start sleeveCfgs sleeveOrigins 0) bs = some u → u.Agrees := by
  refine ⟨_, rfl, (gauges_agree_iff sleeveCfgs sleeveOrigins 0 _ _ rfl).mpr ⟨fun _ => rfl, ?_⟩⟩
  refine ⟨trivial, fun s h => ?_⟩
  obtain rfl := Option.some.inj h
  refine ⟨fun path hpath _ => ?_, fun s h => ?_⟩
  · obtain rfl := Option.some.inj hpath
    exact ⟨_, rfl⟩
  · obtain rfl := Option.some.inj h
    refine ⟨⟨trivial, False.elim⟩, fun s h => ?_⟩
    obtain rfl := Option.some.inj h
    refine ⟨⟨trivial, False.elim⟩, fun s h => ?_⟩
    obtain rfl := Option.some.inj h
    exact ⟨trivial, fun _ _ => trivial⟩

/-- An open fails, since the daemon is out of descriptors, and a validation is run. Then no
handle is open and the pipeline is empty, and both gauges say 1. -/
theorem gauges_left_up : ∃ t,
    run (step sleeveCfgs) (start sleeveCfgs sleeveOrigins 0)
      [.request () (.readOnly 3) (.lookup rootIno Fs.sleeveName),
        .request () { FsKernel.readOnly 3 with cacheOpens := false, openFails := some 24 } (.openFile 2 0),
        .work () (.submit [liner] .validate 5), .announce (), .work () (.pop false),
        .work () (.work 1 ⟨0, false, 6⟩), .work () (.work 1 ⟨0, false, 6⟩),
        .work () (.work 1 ⟨0, false, 6⟩)] = some t ∧
    t.readHandles = 0 ∧ t.client.openHandles = 1 ∧
    (∀ i, (t.sites i).daemon.jobs.live = []) ∧ t.announcing = 0 ∧ t.client.inFlightCount = 1 :=
  ⟨_, rfl, rfl, rfl, fun _ => rfl, rfl, rfl⟩

end Observed

end FsCache
