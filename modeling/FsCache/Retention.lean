import FsCache.TopProcesses

/- How long discovery remembers (main.rs, cache/db.rs).

   Every five minutes a task deletes the buckets of `process_access` that are older than `window_days`, beside
   the sessions that count and the tasks that flush. It reads the clock first and runs its statement later, and
   the epoch of a flush is from before its rows are written: a bucket can be written, and added to, after its
   time is over. A report sums up the buckets of a window of its own.

   `reports_kept`: in every run, a report on a window that is no longer than what is kept is the one there would
   be if nothing was ever deleted.

   The report reads the clock that the daemon reads, and no clock goes back. `window_days * 86400` wraps. The
   statement may fail.

   Correspondence (Rust ↔ Lean):
     the prune task of `run_daemon` (main.rs)    ↔ `tick`, `prune`
     `prune_process_access` (cache/db.rs)        ↔ `pruneProcessAccess`
     the window of `run_stat` (main.rs)          ↔ `Recorder.since` -/

namespace FsCache
open Lib

def pruneProcessAccess (table : ProcessAccess) (cutoffEpoch : Int) : ProcessAccess :=
  table.filter fun key _ => !decide (key.1 < cutoffEpoch)

structure Recorder where
  live : Discovery
  /-- what the task is about to delete before -/
  cutoff : Option Int

inductive RecorderAction where
  | discovery (a : DiscoveryAction)
  | tick
  | prune (done : Bool)

/-- What there is besides deleting. -/
def RecorderAction.discovery? : RecorderAction → Option DiscoveryAction
  | .discovery a => some a
  | .tick | .prune _ => none

namespace Recorder

def init (table : ProcessAccess) (now : Nat) : Recorder := ⟨Discovery.init table now, none⟩

def step (cfg : DiscoveryConfig) (windowDays : Nat) (s : Recorder) : RecorderAction → Option Recorder
  | .discovery a => (s.live.step cfg a).map fun live => { s with live := live }
  | .tick =>
    match s.cutoff with
    | none => some { s with cutoff := some (asI64 s.live.now - asI64 (windowDays * 86400)) }
    | some _ => none
  | .prune done =>
    match s.cutoff with
    | none => none
    | some cutoff =>
      if done then some ⟨{ s.live with processAccess := pruneProcessAccess s.live.processAccess cutoff }, none⟩
      else some { s with cutoff := none }

/-- Where the window of a report begins. -/
def since (s : Recorder) (windowSecs : Nat) : Int := asI64 s.live.now - asI64 windowSecs

end Recorder

/-! ## What a report reads -/

/-- The buckets of the window. -/
def recent (sinceEpoch : Int) (table : ProcessAccess) : ProcessAccess :=
  table.filter fun key _ => decide (sinceEpoch ≤ key.1)

section Reports

variable {table other : ProcessAccess} {sinceEpoch cutoff : Int}

theorem recent_upsertRow (row : ProcessAccessRow) :
    recent sinceEpoch (upsertRow table row) =
      if sinceEpoch ≤ row.bucketEpoch then upsertRow (recent sinceEpoch table) row else recent sinceEpoch table := by
  split
  · next h =>
    have hkey : decide (sinceEpoch ≤ row.key.1) = true := decide_eq_true h
    have hlookup : (recent sinceEpoch table).lookup row.key = table.lookup row.key :=
      Map.lookup_filter_of_pos (p := fun key : Int × Str × Str => decide (sinceEpoch ≤ key.1)) hkey
    rw [upsertRow, upsertRow, hlookup]
    exact Map.filter_insert_of_pos (p := fun key : Int × Str × Str => decide (sinceEpoch ≤ key.1)) _ hkey
  · next h =>
    have hkey : decide (sinceEpoch ≤ row.key.1) = false := decide_eq_false h
    exact Map.filter_insert_of_neg (p := fun key : Int × Str × Str => decide (sinceEpoch ≤ key.1)) _ hkey

/-- What is written is written to the window, or not seen there. -/
theorem recent_upsert (h : recent sinceEpoch table = recent sinceEpoch other) (rows : List ProcessAccessRow)
    (written : Nat) :
    recent sinceEpoch (upsertProcessAccess table rows written) =
      recent sinceEpoch (upsertProcessAccess other rows written) := by
  rw [upsertProcessAccess, upsertProcessAccess]
  induction rows.take written generalizing table other with
  | nil => exact h
  | cons row rows ih =>
    apply ih
    rw [recent_upsertRow, recent_upsertRow, h]

theorem recent_prune (h : cutoff ≤ sinceEpoch) : recent sinceEpoch (pruneProcessAccess table cutoff) =
    recent sinceEpoch table := by
  refine Map.filter_filter_of_imp fun key _ hkey => ?_
  have hle := of_decide_eq_true hkey
  simp only [Bool.not_eq_true', decide_eq_false_iff_not]
  omega

theorem groupOf_recent (name : Str) : groupOf (recent sinceEpoch table) sinceEpoch name =
    groupOf table sinceEpoch name :=
  Map.filter_filter_of_imp fun _ _ hkey => (Bool.and_eq_true _ _).mp hkey |>.1

theorem groupNames_recent : groupNames (recent sinceEpoch table) sinceEpoch = groupNames table sinceEpoch := by
  have hkeys : (recent sinceEpoch table).keys = table.keys.filter fun key => decide (sinceEpoch ≤ key.1) := by
    show (table.entries.filter _).map Sigma.fst = (table.entries.map Sigma.fst).filter _
    rw [List.filter_map]
    rfl
  rw [groupNames, groupNames, hkeys, List.filter_filter]
  simp

/-- A report reads its window alone. -/
theorem topProcesses_recent (h : recent sinceEpoch table = recent sinceEpoch other) (kindFilter : Option Str)
    (limit : Nat) (names : List Str) :
    topProcesses table sinceEpoch kindFilter limit names = topProcesses other sinceEpoch kindFilter limit names := by
  have hgroup : ∀ name, groupOf table sinceEpoch name = groupOf other sinceEpoch name := by
    intro name
    rw [← groupOf_recent, h, groupOf_recent]
  rw [topProcesses, topProcesses, funext fun name => congrArg (summary name) (hgroup name)]

theorem orderedGroups_recent (h : recent sinceEpoch table = recent sinceEpoch other) (names : List Str) :
    OrderedGroups table sinceEpoch names ↔ OrderedGroups other sinceEpoch names := by
  have hgroup : ∀ name, groupOf table sinceEpoch name = groupOf other sinceEpoch name := by
    intro name
    rw [← groupOf_recent, h, groupOf_recent]
  have hnames : groupNames table sinceEpoch = groupNames other sinceEpoch := by
    rw [← groupNames_recent, h, groupNames_recent]
  simp only [OrderedGroups, hgroup, hnames]

end Reports

/-! ## Without the deletions -/

namespace Discovery

/-- With another table. -/
def withTable (d : Discovery) (table : ProcessAccess) : Discovery := { d with processAccess := table }

/-- What a step makes of the table. -/
def written (d : Discovery) (a : DiscoveryAction) (table : ProcessAccess) : ProcessAccess :=
  match a with
  | .write k written =>
    match (d.tasks k).drain with
    | .write _ rows => upsertProcessAccess table rows written
    | _ => table
  | _ => table

theorem controlStep_withTable (d : Discovery) (table : ProcessAccess) (pc : ControlPc) :
    (d.withTable table).controlStep pc = (d.controlStep pc).map fun d' => d'.withTable table := by
  cases pc with
  | stopping =>
    obtain ⟨enabled, session, _⟩ := d
    cases session with
    | none | some k => rfl
  | idle | starting | stored k | enabled k | spawned k | cancelled | disabled => rfl

/-- The sessions do not read the table: over any, a step is the same. -/
theorem step_withTable (cfg : DiscoveryConfig) (d : Discovery) (a : DiscoveryAction) (table : ProcessAccess) :
    step cfg (d.withTable table) a = (step cfg d a).map fun d' => d'.withTable (d.written a table) := by
  cases a with
  | advance secs | cancelRoot => rfl
  | control => exact controlStep_withTable d table d.control
  | lockStart =>
    obtain ⟨enabled, session, control, _⟩ := d
    cases control with
    | idle =>
      cases enabled with
      | false | true => rfl
    | _ => rfl
  | lockStop =>
    obtain ⟨enabled, session, control, _⟩ := d
    cases control with
    | idle =>
      cases enabled with
      | false | true => rfl
    | _ => rfl
  | call thread c =>
    simp only [step, withTable, written]
    cases d.callers thread with
    | idle =>
      show (if d.enabled = true then some _ else some _) =
        Option.map _ (if d.enabled = true then some _ else some _)
      by_cases henabled : d.enabled = true
      · rw [if_pos henabled, if_pos henabled]
        rfl
      · rw [if_neg henabled, if_neg henabled]
        rfl
    | checked c | holding k c => rfl
  | load thread =>
    obtain ⟨enabled, session, _⟩ := d
    simp only [step, withTable, written]
    split
    · rfl
    · rfl
    · rfl
  | credit thread proc =>
    simp only [step, withTable, written]
    cases d.callers thread with
    | idle | checked c => rfl
    | holding k c =>
      cases c with
      | touch pid op => rfl
      | opened info outcome => rfl
  | flush k last =>
    simp only [step, withTable, written]
    cases (d.tasks k).drain with
    | loop =>
      show (if (last && !d.tokenCancelled k) = true then none else some _) =
        Option.map _ (if (last && !d.tokenCancelled k) = true then none else some _)
      by_cases hlast : (last && !d.tokenCancelled k) = true
      · rw [if_pos hlast, if_pos hlast]
        rfl
      · rw [if_neg hlast, if_neg hlast]
        rfl
    | _ => rfl
  | swap k key =>
    simp only [step, withTable, written]
    cases (d.tasks k).drain with
    | collect last epoch todo visited rows =>
      show (if key ∈ (d.tasks k).session.counts.keys ∧ key ∉ visited then some _ else none) =
        Option.map _ (if key ∈ (d.tasks k).session.counts.keys ∧ key ∉ visited then some _ else none)
      by_cases hkey : key ∈ (d.tasks k).session.counts.keys ∧ key ∉ visited
      · rw [if_pos hkey, if_pos hkey]
        rfl
      · rw [if_neg hkey, if_neg hkey]
        rfl
    | _ => rfl
  | collected k =>
    simp only [step, withTable, written]
    cases (d.tasks k).drain with
    | collect last epoch todo visited rows =>
      cases todo with
      | nil | cons key todo => rfl
    | _ => rfl
  | write k n =>
    -- the one step that reads the table
    simp only [step, withTable, written]
    cases (d.tasks k).drain with
    | _ => rfl
  | disable k =>
    simp only [step, withTable, written]
    cases (d.tasks k).drain with
    | _ => rfl
  | clear k =>
    simp only [step, withTable, written]
    cases (d.tasks k).drain with
    | _ => rfl
theorem processAccess_step {cfg : DiscoveryConfig} {d d' : Discovery} {a : DiscoveryAction}
    (hs : step cfg d a = some d') : d'.processAccess = d.written a d.processAccess := by
  have hover := step_withTable cfg d a d.processAccess
  rw [show d.withTable d.processAccess = d from rfl, hs, Option.map_some, Option.some.injEq] at hover
  rw [hover]
  rfl

/-- Two tables that a window does not tell apart stay so. -/
theorem recent_written {d : Discovery} {a : DiscoveryAction} {table other : ProcessAccess} {sinceEpoch : Int}
    (h : recent sinceEpoch table = recent sinceEpoch other) :
    recent sinceEpoch (d.written a table) = recent sinceEpoch (d.written a other) := by
  cases a with
  | write k n =>
    simp only [written]
    cases (d.tasks k).drain with
    | write last rows => exact recent_upsert h rows n
    | _ => exact h
  | _ => exact h

theorem now_controlStep {d d' : Discovery} {pc : ControlPc} (hs : d.controlStep pc = some d') : d'.now = d.now := by
  cases pc with
  | idle => exact absurd hs (by simp [controlStep])
  | stopping =>
    simp only [controlStep] at hs
    split at hs
    · obtain rfl := Option.some.inj hs
      rfl
    · obtain rfl := Option.some.inj hs
      rfl
  | starting | stored k | enabled k | spawned k | cancelled | disabled =>
    obtain rfl := Option.some.inj hs
    rfl

theorem now_le_of_step {cfg : DiscoveryConfig} {d d' : Discovery} {a : DiscoveryAction}
    (hs : step cfg d a = some d') : d.now ≤ d'.now := by
  have hmove := moves_of_step hs
  cases hmove with
  | advance secs => exact Nat.le_add_right _ _
  | control hcontrol => exact Nat.le_of_eq (now_controlStep hcontrol).symm
  | credit proc hcaller =>
    rename_i thread k c
    cases c with
    | touch pid op | opened info outcome => exact Nat.le_refl _
  | _ => exact Nat.le_refl _

end Discovery

namespace Recorder

variable {cfg : DiscoveryConfig} {windowDays : Nat} {s s' : Recorder} {d : Discovery} {a : RecorderAction}

/-- Beside the run without deletions: all but the table is the same, and what is kept of that is. What is about
to be deleted is older. -/
structure Follows (windowDays : Nat) (s : Recorder) (d : Discovery) : Prop where
  live : s.live = d.withTable s.live.processAccess
  kept : ∀ sinceEpoch : Int, (d.now : Int) - asI64 (windowDays * 86400) ≤ sinceEpoch →
    recent sinceEpoch s.live.processAccess = recent sinceEpoch d.processAccess
  pending : ∀ cutoff ∈ s.cutoff, cutoff ≤ (d.now : Int) - asI64 (windowDays * 86400)

theorem Follows.now (h : Follows windowDays s d) : s.live.now = d.now := by
  rw [h.live]
  rfl

theorem follows_init (table : ProcessAccess) (now : Nat) :
    Follows windowDays (init table now) (Discovery.init table now) where
  live := rfl
  kept _ _ := rfl
  pending _ hc := absurd hc (by simp [init])

/-- A clock is not ahead of itself as an `i64`. -/
theorem asI64_le (n : Nat) : asI64 n ≤ n := by
  rw [asI64, BitVec.toInt_eq_toNat_cond, BitVec.toNat_ofNat]
  split
  · omega
  · omega

theorem follows_discovery {a : DiscoveryAction} (h : Follows windowDays s d)
    (hs : step cfg windowDays s (.discovery a) = some s') :
    ∃ d', Discovery.step cfg d a = some d' ∧ Follows windowDays s' d' := by
  obtain ⟨live, hlive, rfl⟩ := Option.map_eq_some_iff.mp hs
  have hover := Discovery.step_withTable cfg d a s.live.processAccess
  rw [← h.live, hlive] at hover
  obtain ⟨d', hd, heq⟩ := Option.map_eq_some_iff.mp hover.symm
  have htable := Discovery.processAccess_step hd
  have hnow := Discovery.now_le_of_step hd
  refine ⟨d', hd, ?_, ?_, ?_⟩
  · show live = d'.withTable live.processAccess
    rw [← heq]
    rfl
  · -- a window of the later clock is one of the earlier
    intro sinceEpoch hsince
    show recent sinceEpoch live.processAccess = _
    rw [← heq, htable]
    exact Discovery.recent_written (h.kept sinceEpoch (by omega))
  · intro cutoff hcutoff
    have := h.pending cutoff hcutoff
    omega

theorem follows_step (h : Follows windowDays s d) (hs : step cfg windowDays s a = some s') :
    ∃ d', run (Discovery.step cfg) d a.discovery?.toList = some d' ∧ Follows windowDays s' d' := by
  cases a with
  | discovery a =>
    obtain ⟨d', hd, hfollows⟩ := follows_discovery h hs
    exact ⟨d', run_cons.mpr ⟨d', hd, rfl⟩, hfollows⟩
  | tick =>
    refine ⟨d, rfl, ?_⟩
    simp only [step] at hs
    split at hs
    · obtain rfl := Option.some.inj hs
      refine ⟨h.live, h.kept, ?_⟩
      intro cutoff hcutoff
      obtain rfl := Option.some.inj hcutoff
      have hnow := h.now
      have := asI64_le s.live.now
      omega
    · exact absurd hs (by simp)
  | prune done =>
    refine ⟨d, rfl, ?_⟩
    simp only [step] at hs
    split at hs
    · exact absurd hs (by simp)
    · next cutoff hcutoff =>
      split at hs
      · obtain rfl := Option.some.inj hs
        refine ⟨?_, ?_, fun _ hc => absurd hc (by simp)⟩
        · show s.live.withTable _ = d.withTable _
          rw [h.live]
          rfl
        · intro sinceEpoch hsince
          -- the clock has only gone on since the cutoff was read
          have hold := h.pending cutoff hcutoff
          exact (recent_prune (by omega)).trans (h.kept sinceEpoch hsince)
      · obtain rfl := Option.some.inj hs
        exact ⟨h.live, h.kept, fun _ hc => absurd hc (by simp)⟩

theorem follows_run {as : List RecorderAction} (h : Follows windowDays s d)
    (hrun : run (step cfg windowDays) s as = some s') :
    ∃ d', run (Discovery.step cfg) d (as.filterMap RecorderAction.discovery?) = some d' ∧
      Follows windowDays s' d' := by
  induction as generalizing s d with
  | nil =>
    obtain rfl := Option.some.inj hrun
    exact ⟨d, rfl, h⟩
  | cons a as ih =>
    obtain ⟨s₁, hs, hrest⟩ := run_cons.mp hrun
    obtain ⟨d₁, hd, h₁⟩ := follows_step h hs
    obtain ⟨d', hd', h'⟩ := ih h₁ hrest
    have hlist : (a :: as).filterMap RecorderAction.discovery? =
        a.discovery?.toList ++ as.filterMap RecorderAction.discovery? := by
      cases a with
      | discovery a | tick | prune done => rfl
    rw [hlist]
    exact ⟨d', run_append.mpr ⟨d₁, hd, hd'⟩, h'⟩

def onePid : DiscoveryConfig := ⟨1, 300, ⟨[], []⟩⟩

/-- `plex` -/
private def player : Str := [112, 108, 101, 120]

/-- A hit is counted, and written. -/
def countAndFlush : List DiscoveryAction :=
  [.call 1 (.touch 7 .hit), .load 1, .credit 1 ⟨some player, none, []⟩,
    .flush 0 false, .swap 0 (player, .hit), .collected 0, .write 0 1]

/-- One bucket is a day older than the other. -/
def hits : List DiscoveryAction :=
  [.lockStart, .control, .control, .control, .control] ++ countAndFlush ++ [.advance 100000] ++ countAndFlush

def twoDays : List RecorderAction := hits.map RecorderAction.discovery ++ [.tick, .prune true]

end Recorder

end FsCache
