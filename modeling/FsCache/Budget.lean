import Mathlib.Algebra.Order.Ring.Nat
import Mathlib.Data.List.Perm.Subperm
import FsCache.Deferred
import FsCache.Engine

/- The pull budget of a mount (`max_cache_pull_bytes`).

   The engine takes one event at a time: it asks the preset for candidates, reads the
   bytes recorded as cached into `running_total`, and submits one candidate after the other
   until one does not fit; the first that is not cached is exempt. Its steps are interleaved
   with those of the pipeline. What the jobs that are still queued or in flight will add is
   not in `running_total`.

   File sizes do not change. A copy is recorded and its job finished in one step, so that no
   byte counts twice; a job that fails finishes without a row, and a Replace job leaves the
   size of its row. Others may evict, and change the cache directory, in any way.
   `running_total` is a `u64`, and unbounded here. The rows of the queue are in `Deferred.lean`.

   `within_budget_iff`: a run stays within the budget and what its events exempted, exactly if
   a candidate that the running total admits, although it misses bytes that are pending, fits
   all the same. `earlier_pending_overrun` is a run that does not.

   Correspondence (Rust ↔ Lean):
     `next`, `running_total`, `first_candidate` ↔ `PullPc.loop`
     `ActionEngine::run`, the candidates        ↔ `Pull.candidate`
     `submit_cache`                             ↔ `Pull.submitCache` -/

namespace FsCache
open Lib

structure PullConfig where
  mount : MountId
  maxCachePullBytes : Nat
  deferredTtlMinutes : Nat
  fileSize : RelPath → Option Nat
  fits : ∀ p n, fileSize p = some n → n < 2^63

/-- `file_size(..).unwrap_or(0)` -/
def PullConfig.sizeOf (cfg : PullConfig) (p : RelPath) : Nat := (cfg.fileSize p).getD 0

inductive PullPc where
  | idle
  | loop (next : List RelPath) (runningTotal : Nat) (firstCandidate : Bool)
  /-- `rel` is on its way to the queue; `runningTotal` has it already -/
  | submit (rel : RelPath) (exempt : Bool) (next : List RelPath) (runningTotal : Nat)
  deriving DecidableEq

/-- `exempted` is the size of all first candidates; nothing reads it. -/
structure Pull where
  jobs : Jobs
  dir : CacheDir
  db : CacheDb
  pc : PullPc
  exempted : Nat

inductive PullAction where
  | event (next : List RelPath)
  | candidate
  | submit (now : Nat)
  | pipe (a : PipeAction)
  | complete (t : Nat) (source : SourceMetadata) (now : Nat)
  | evict (relPath : RelPath)
  | files (dir : CacheDir)

namespace Pull

def start (jobs : Jobs) (dir : CacheDir) (db : CacheDb) : Pull := ⟨jobs, dir, db, .idle, 0⟩

/-- One turn of the loop over the candidates, up to the submission. -/
def candidate (cfg : PullConfig) (dir : CacheDir) (next : List RelPath) (runningTotal : Nat)
    (firstCandidate : Bool) : PullPc :=
  match next with
  | [] => .idle
  | rel :: next =>
    if isCached dir rel then .loop next runningTotal firstCandidate
    else if 0 < cfg.maxCachePullBytes then
      if firstCandidate = false ∧ cfg.maxCachePullBytes < runningTotal + cfg.sizeOf rel then .idle
      else .submit rel firstCandidate next (runningTotal + cfg.sizeOf rel)
    else .submit rel firstCandidate next runningTotal

/-- A Populate job is submitted, unless the file is there by now. -/
def submitCache (s : Pull) (rel : RelPath) (now : Nat) : Jobs :=
  if isCached s.dir rel then s.jobs else s.jobs.submitJob rel .populate now

def step (cfg : PullConfig) (s : Pull) : PullAction → Option Pull
  | .event next =>
    match s.pc with
    | .idle =>
      let runningTotal := if 0 < cfg.maxCachePullBytes then s.db.totalCachedBytes cfg.mount else 0
      some { s with pc := .loop next runningTotal true }
    | _ => none
  | .candidate =>
    match s.pc with
    | .loop next runningTotal firstCandidate =>
      some { s with pc := candidate cfg s.dir next runningTotal firstCandidate }
    | _ => none
  | .submit now =>
    match s.pc with
    | .submit rel exempt next runningTotal =>
      some { s with
        jobs := s.submitCache rel now
        pc := .loop next runningTotal false
        exempted := if exempt then s.exempted + cfg.sizeOf rel else s.exempted }
    | _ => none
  | .pipe (.submit p kind now) =>
    -- only the engine submits Populate jobs
    if kind = .populate then none else some { s with jobs := s.jobs.submitJob p kind now }
  | .pipe a => (pipeStep cfg.deferredTtlMinutes s.jobs a).map fun jobs => { s with jobs := jobs }
  | .complete t source now =>
    match s.jobs.jobOf t with
    | none => none
    | some job =>
      if job.kind = .populate ∧ cfg.fileSize job.relPath = some source.size then
        some { s with
          jobs := s.jobs.finish t job
          db := s.db.markCached job.relPath cfg.mount source now }
      else none
  | .evict p => some { s with db := s.db.remove p cfg.mount }
  | .files dir => some { s with dir := dir }

/-- What a job will add. -/
def weight (cfg : PullConfig) (job : CacheJob) : Nat :=
  if job.kind = .populate then cfg.sizeOf job.relPath else 0

/-- The sizes of all queued and in-flight Populate jobs. -/
def pendingBytes (cfg : PullConfig) (j : Jobs) : Nat := (j.live.map (weight cfg)).sum

/-- What is cached, and will be. -/
def pulled (cfg : PullConfig) (s : Pull) : Nat :=
  s.db.totalCachedBytes cfg.mount + pendingBytes cfg s.jobs

/-- The budget is exceeded by no more than what the events have exempted. -/
def Within (cfg : PullConfig) (s : Pull) : Prop := s.pulled cfg ≤ cfg.maxCachePullBytes + s.exempted

/-- A candidate after the first that becomes a job is covered by the running total; or, when that
misses bytes that are pending, it fits together with them. -/
def CoveredAt (cfg : PullConfig) (s : Pull) : PullPc → Prop
  | .submit rel false _ runningTotal =>
    isCached s.dir rel = false → s.jobs.Accepts (rel, .populate) →
      runningTotal < s.pulled cfg + cfg.sizeOf rel →
        s.pulled cfg + cfg.sizeOf rel ≤ cfg.maxCachePullBytes + s.exempted
  | _ => True

def Covered (cfg : PullConfig) (s : Pull) : PullAction → Prop
  | .submit _ => s.CoveredAt cfg s.pc
  | _ => True

instance (cfg : PullConfig) (s : Pull) : Decidable (s.Within cfg) := inferInstanceAs (Decidable (_ ≤ _))

instance (cfg : PullConfig) (s : Pull) (pc : PullPc) : Decidable (s.CoveredAt cfg pc) :=
  match pc with
  | .submit _ false _ _ => inferInstanceAs (Decidable (_ → _ → _ → _))
  | .submit _ true _ _ | .idle | .loop .. => isTrue trivial

instance (cfg : PullConfig) (s : Pull) (a : PullAction) : Decidable (Covered cfg s a) :=
  match a with
  | .submit _ => inferInstanceAs (Decidable (s.CoveredAt cfg s.pc))
  | .event _ | .candidate | .pipe _ | .complete .. | .evict _ | .files _ => isTrue trivial

/-! ## What the steps keep -/

variable {cfg : PullConfig} {s s' : Pull} {a : PullAction} {a₀ : PipeAction}

theorem pendingBytes_of_perm {j j' : Jobs} {job : CacheJob} (h : j'.live.Perm (job :: j.live)) :
    pendingBytes cfg j' = weight cfg job + pendingBytes cfg j := by
  rw [pendingBytes, (h.map _).sum_eq, List.map_cons, List.sum_cons, pendingBytes]

/-- Jobs that were there before weigh no more than all that were. -/
theorem pendingBytes_le {j j' : Jobs} (h : j'.Partition) (hsub : ∀ job ∈ j'.live, job ∈ j.live) :
    pendingBytes cfg j' ≤ pendingBytes cfg j := by
  have hnodup : j'.live.Nodup := List.Nodup.of_map _ h.once
  obtain ⟨l, hperm, hl⟩ := hnodup.subperm hsub
  rw [pendingBytes, ← (hperm.map _).sum_eq]
  exact (hl.map (weight cfg)).sum_le_sum fun n _ => Nat.zero_le n

theorem pendingBytes_submitCache (cfg : PullConfig) (s : Pull) (rel : RelPath) (now : Nat) :
    pendingBytes cfg (s.submitCache rel now) =
      if isCached s.dir rel = false ∧ s.jobs.Accepts (rel, .populate) then
        cfg.sizeOf rel + pendingBytes cfg s.jobs
      else pendingBytes cfg s.jobs := by
  unfold submitCache
  cases hc : isCached s.dir rel with
  | true => simp
  | false =>
    by_cases hacc : s.jobs.Accepts (rel, .populate)
    · rw [if_neg (by simp), if_pos ⟨rfl, hacc⟩, pendingBytes_of_perm (Jobs.live_submitJob hacc now)]
      rfl
    · have hknown : (s.jobs.known.lookup (rel, .populate)).isSome = true := by
        rwa [Jobs.Accepts, Bool.not_eq_false] at hacc
      rw [if_neg (by simp), if_neg fun h => hacc h.2, Jobs.submitJob, if_pos hknown]

/-- The queue is consistent, the rows have sizes, and a candidate was admitted by the budget. -/
structure Pulling (cfg : PullConfig) (s : Pull) : Prop where
  partition : s.jobs.Partition
  sized : s.db.Sized
  admitted : ∀ rel next runningTotal, s.pc = .submit rel false next runningTotal →
    runningTotal ≤ cfg.maxCachePullBytes

theorem pipe_eq (h : step cfg s (.pipe a₀) = some s') :
    ∃ jobs, pipeStep cfg.deferredTtlMinutes s.jobs a₀ = some jobs ∧ s' = { s with jobs := jobs } ∧
      ∀ p now, a₀ ≠ .submit p .populate now := by
  cases a₀ with
  | submit p kind now =>
    simp only [step] at h
    split at h
    · exact absurd h (by simp)
    · next hkind =>
      refine ⟨_, rfl, (Option.some.inj h).symm, fun q n e => ?_⟩
      injection e with _ hk
      exact hkind hk
  | expire | pop | acquire | promote | finish | release =>
    obtain ⟨jobs, hjobs, rfl⟩ := Option.map_eq_some_iff.mp h
    exact ⟨jobs, hjobs, rfl, fun p now e => PipeAction.noConfusion e⟩

/-- A pipeline step adds nothing to what is pending. -/
theorem pendingBytes_pipeStep {j j' : Jobs} {ttlMinutes : Nat} {a₀ : PipeAction} (hp : j.Partition)
    (h : pipeStep ttlMinutes j a₀ = some j') (ha : ∀ p now, a₀ ≠ .submit p .populate now) :
    pendingBytes cfg j' ≤ pendingBytes cfg j := by
  by_cases hsubmit : ∃ p kind now, a₀ = .submit p kind now ∧ j.Accepts (p, kind)
  · obtain ⟨p, kind, now, rfl, hacc⟩ := hsubmit
    have hkind : kind ≠ .populate := fun e => ha p now (by rw [e])
    obtain rfl := Option.some.inj h
    rw [pendingBytes_of_perm (Jobs.live_submitJob hacc now), weight, if_neg hkind, Nat.zero_add]
  · refine pendingBytes_le (partition_pipeStep hp h) fun job hj => ?_
    refine (Jobs.live_of_pipeStep hp h hj).resolve_right ?_
    intro hnew
    obtain ⟨p, kind, now, e, hacc, -⟩ := hnew
    exact hsubmit ⟨p, kind, now, e, hacc⟩

/-- A candidate after the first is admitted only within the budget. -/
theorem admitted_of_candidate (hmax : 0 < cfg.maxCachePullBytes) {dir : CacheDir}
    {next next' : List RelPath} {total total' : Nat} {first : Bool} {rel : RelPath}
    (h : candidate cfg dir next total first = .submit rel false next' total') :
    total' ≤ cfg.maxCachePullBytes := by
  cases next with
  | nil => exact absurd h (by simp [candidate])
  | cons p next =>
    simp only [candidate, hmax, if_true] at h
    split at h
    · exact absurd h (by simp)
    · split at h
      · exact absurd h (by simp)
      · next hfit =>
        injection h with hrel hfirst hnext htotal
        have hle : ¬ cfg.maxCachePullBytes < total + cfg.sizeOf p := fun hlt => hfit ⟨hfirst, hlt⟩
        omega

/-- A step that adds nothing to what is pulled. -/
theorem within_of_le (hw : s.Within cfg) (hle : s'.pulled cfg ≤ s.pulled cfg)
    (he : s'.exempted = s.exempted) : s'.Within cfg := by
  rw [Within, he]
  exact Nat.le_trans hle hw

theorem pulled_complete (hi : s.Pulling cfg) {t : Nat} {job : CacheJob} (hjob : s.jobs.jobOf t = some job)
    (hkind : job.kind = .populate) {source : SourceMetadata}
    (hsize : cfg.fileSize job.relPath = some source.size) (now : Nat) :
    pulled cfg { s with
      jobs := s.jobs.finish t job
      db := s.db.markCached job.relPath cfg.mount source now } ≤ s.pulled cfg := by
  have hweight : weight cfg job = source.size := by
    rw [weight, if_pos hkind, PullConfig.sizeOf, hsize]
    rfl
  have hpending : pendingBytes cfg s.jobs = source.size + pendingBytes cfg (s.jobs.finish t job) := by
    rw [pendingBytes_of_perm (Jobs.live_finish hi.partition hjob), hweight]
  have hcached : (s.db.markCached job.relPath cfg.mount source now).totalCachedBytes cfg.mount ≤
      s.db.totalCachedBytes cfg.mount + source.size :=
    CacheDb.totalCachedBytes_markCached_le hi.sized (cfg.fits _ _ hsize) now
  simp only [pulled]
  omega

/-- A submission keeps to the budget exactly when it is covered. -/
theorem submit_iff (hi : s.Pulling cfg) (hw : s.Within cfg) {rel : RelPath} {exempt : Bool}
    {next : List RelPath} {total : Nat} (hpc : s.pc = .submit rel exempt next total) (now : Nat)
    (hs' : s' = { s with
      jobs := s.submitCache rel now
      pc := .loop next total false
      exempted := if exempt then s.exempted + cfg.sizeOf rel else s.exempted }) :
    s'.Within cfg ↔ Covered cfg s (.submit now) := by
  have hpending := pendingBytes_submitCache cfg s rel now
  have hpulled : s'.pulled cfg = s.db.totalCachedBytes cfg.mount + pendingBytes cfg (s.submitCache rel now) := by
    rw [hs', pulled]
  simp only [Within, pulled] at hw
  cases exempt with
  | true =>
    have hexempted : s'.exempted = s.exempted + cfg.sizeOf rel := by rw [hs', if_pos rfl]
    refine iff_of_true ?_ (by rw [Covered, hpc]; trivial)
    rw [Within, hpulled, hexempted, hpending]
    split <;> omega
  | false =>
    have hexempted : s'.exempted = s.exempted := by rw [hs', if_neg (by simp)]
    have hadmitted := hi.admitted rel next total hpc
    rw [Within, hpulled, hexempted, hpending]
    rw [Covered, hpc, CoveredAt]
    by_cases hnew : isCached s.dir rel = false ∧ s.jobs.Accepts (rel, .populate)
    · rw [if_pos hnew, pulled]
      constructor
      · intro hfit _ _ _
        omega
      · intro hcov
        by_cases hlt : total < s.db.totalCachedBytes cfg.mount + pendingBytes cfg s.jobs + cfg.sizeOf rel
        · have hfit := hcov hnew.1 hnew.2 hlt
          omega
        · omega
    · rw [if_neg hnew]
      exact iff_of_true hw fun hc hacc => absurd ⟨hc, hacc⟩ hnew

theorem Pulling.step (hi : s.Pulling cfg) (hmax : 0 < cfg.maxCachePullBytes) (hw : s.Within cfg)
    (h : step cfg s a = some s') : s'.Pulling cfg ∧ (s'.Within cfg ↔ Covered cfg s a) := by
  cases a with
  | event next =>
    simp only [Pull.step] at h
    split at h
    · obtain rfl := Option.some.inj h
      exact ⟨⟨hi.partition, hi.sized, fun _ _ _ e => PullPc.noConfusion e⟩, iff_of_true hw trivial⟩
    · exact absurd h (by simp)
  | candidate =>
    simp only [Pull.step] at h
    split at h
    · obtain rfl := Option.some.inj h
      refine ⟨⟨hi.partition, hi.sized, fun rel next total e => ?_⟩, iff_of_true hw trivial⟩
      exact admitted_of_candidate hmax e
    · exact absurd h (by simp)
  | submit now =>
    simp only [Pull.step] at h
    split at h
    · next rel exempt next total hpc =>
      have hs' := (Option.some.inj h).symm
      refine ⟨?_, submit_iff hi hw hpc now hs'⟩
      rw [hs']
      refine ⟨?_, hi.sized, fun _ _ _ e => PullPc.noConfusion e⟩
      show (s.submitCache rel now).Partition
      unfold submitCache
      split
      · exact hi.partition
      · exact Jobs.partition_submitJob hi.partition rel .populate now
    · exact absurd h (by simp)
  | pipe a₀ =>
    obtain ⟨jobs, hjobs, rfl, ha⟩ := pipe_eq h
    refine ⟨⟨partition_pipeStep hi.partition hjobs, hi.sized, hi.admitted⟩, iff_of_true ?_ trivial⟩
    exact within_of_le hw (Nat.add_le_add_left (pendingBytes_pipeStep hi.partition hjobs ha) _) rfl
  | complete t source now =>
    simp only [Pull.step] at h
    split at h
    · exact absurd h (by simp)
    · next job hjob =>
      split at h
      · next hdone =>
        obtain ⟨hkind, hsize⟩ := hdone
        obtain rfl := Option.some.inj h
        refine ⟨⟨Jobs.partition_finish hi.partition hjob, ?_, hi.admitted⟩, iff_of_true ?_ trivial⟩
        · exact CacheDb.sized_markCached hi.sized (cfg.fits _ _ hsize) now
        · exact within_of_le hw (pulled_complete hi hjob hkind hsize now) rfl
      · exact absurd h (by simp)
  | evict p =>
    obtain rfl := Option.some.inj h
    refine ⟨⟨hi.partition, CacheDb.sized_remove hi.sized, hi.admitted⟩, iff_of_true ?_ trivial⟩
    exact within_of_le hw (Nat.add_le_add_right (CacheDb.totalCachedBytes_remove_le hi.sized _) _) rfl
  | files dir =>
    obtain rfl := Option.some.inj h
    exact ⟨⟨hi.partition, hi.sized, hi.admitted⟩, iff_of_true hw trivial⟩

theorem pulling_start {jobs : Jobs} {db : CacheDb} (hjobs : jobs.Partition) (hdb : db.Sized)
    (dir : CacheDir) : (start jobs dir db).Pulling cfg :=
  ⟨hjobs, hdb, fun _ _ _ e => PullPc.noConfusion e⟩

/-- A run that starts within the budget keeps what is cached and pending within the budget and what
its events exempted, exactly if every submission is covered. -/
theorem within_budget_iff (hmax : 0 < cfg.maxCachePullBytes) {jobs : Jobs} {db : CacheDb} {dir : CacheDir}
    (hjobs : jobs.Partition) (hdb : db.Sized) (hstart : (start jobs dir db).Within cfg)
    {as : List PullAction} {t : Pull} (hrun : run (step cfg) (start jobs dir db) as = some t) :
    (∀ bs u, bs <+: as → run (step cfg) (start jobs dir db) bs = some u → u.Within cfg) ↔
      Along (step cfg) (Covered cfg) (start jobs dir db) as :=
  always_iff_along (Within cfg) (Pulling cfg) (fun _ _ _ hw hi hs => hi.step hmax hw hs) hrun hstart
    (pulling_start hjobs hdb dir)

section Pulls

private def pilot : RelPath := [⟨[112], Eq.refl true⟩]
private def finale : RelPath := [⟨[102], Eq.refl true⟩]
private def trailer : RelPath := [⟨[116], Eq.refl true⟩]
private def special : RelPath := [⟨[115], Eq.refl true⟩]

/-- A budget of 100 bytes, and files of 1 and of 99. -/
def seasonConfig : PullConfig where
  mount := [109]
  maxCachePullBytes := 100
  deferredTtlMinutes := 0
  fileSize := fun p => if p = pilot ∨ p = trailer then some 1 else some 99
  fits := by
    intro p n h
    split at h <;> obtain rfl := Option.some.inj h <;> decide

/-- Two candidates are submitted, and a third is not. -/
def season : List PullAction :=
  [.event [pilot, finale, special], .candidate, .submit 0, .candidate, .submit 0, .candidate]

theorem season_within : ∃ t, run (step seasonConfig) (start (Jobs.initial 1 1) Files.empty ⟨∅, ∅⟩) season = some t ∧
    ∀ bs u, bs <+: season →
      run (step seasonConfig) (start (Jobs.initial 1 1) Files.empty ⟨∅, ∅⟩) bs = some u →
        u.Within seasonConfig := by
  refine ⟨_, rfl, (within_budget_iff (by decide) (Jobs.partition_initial 1 1) ?_ (by decide) rfl).mpr (by decide)⟩
  intro key row hrow
  exact absurd hrow (by simp)

/-- A second event comes before the jobs of the first have been copied: its running total is zero
again, and it submits as much. -/
theorem earlier_pending_overrun : ∃ t,
    run (step seasonConfig) (start (Jobs.initial 1 1) Files.empty ⟨∅, ∅⟩)
      [.event [pilot, finale], .candidate, .submit 0, .candidate, .submit 0, .candidate,
        .event [trailer, special], .candidate, .submit 0, .candidate, .submit 0, .candidate] = some t ∧
    t.pc = .idle ∧ ¬ t.Within seasonConfig :=
  ⟨_, rfl, rfl, by decide⟩

end Pulls

end Pull

end FsCache
