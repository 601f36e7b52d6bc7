import Mathlib.Algebra.BigOperators.Group.Finset.Basic
import FsCache.Discovery

/- Where the counts of discovery go.

   A count is bumped in a session, swapped into a row and added to the table. It is lost when the
   row is not written: the counter has been swapped by then and the rows after the failing one are
   dropped with it. And it is lost when it is bumped too late: a caller that holds an ended session
   bumps it after the final flush has swapped the counter. `counts_conserved_iff`: when every task
   has ended, the table holds every count exactly if neither has happened in the run.
   `late_bump_lost` is a run with a late one. -/

namespace FsCache
open Lib

/-- The name and the kind of a row's key. -/
def OpKey (κ : Str × OpKind) : Str × Str := (κ.1, κ.2.asStr)

/-- What a row of `process_access` counts for the name and kind. -/
def AccessRow.counts (κ : Str × OpKind) (key : Int × Str × Str) (row : AccessRow) : Int :=
  if key.2 = OpKey κ then row.count else 0

/-- The sum of the counts stored for a name and kind, over all buckets. -/
def storedCount (table : ProcessAccess) (κ : Str × OpKind) : Int := Map.total (AccessRow.counts κ) table

/-- What a row of a flush counts for the name and kind. -/
def ProcessAccessRow.counts (κ : Str × OpKind) (row : ProcessAccessRow) : Int :=
  if (row.processName, row.opKind) = OpKey κ then row.count else 0

def rowsCount (κ : Str × OpKind) (rows : List ProcessAccessRow) : Int :=
  (rows.map (ProcessAccessRow.counts κ)).sum

def Session.countOf (s : Session) (κ : Str × OpKind) : Nat := (s.counts.lookup κ).getD 0

namespace DrainPc

/-- The rows that are collected and not written. -/
def rows : DrainPc → List ProcessAccessRow
  | .collect _ _ _ _ rows | .write _ rows => rows
  | .unspawned | .loop | .returned | .disabled | .ended => []

/-- The final flush has gone through the counters. -/
def swept : DrainPc → Bool
  | .write last _ => last
  | .returned | .disabled | .ended => true
  | .unspawned | .loop | .collect .. => false

end DrainPc

/-- What of a session can still be stored. -/
def SessionTask.savable (t : SessionTask) (κ : Str × OpKind) : Int :=
  (if t.drain.swept then 0 else (t.session.countOf κ : Int)) + rowsCount κ t.drain.rows

namespace Discovery

variable {cfg : DiscoveryConfig} {s s' : Discovery} {a : DiscoveryAction}

/-- The calls that reached `bump` with the name and kind. -/
def bumped (s : Discovery) (κ : Str × OpKind) : Nat := s.credits.countP fun c => c.key = κ

/-- The table has grown by what was counted. -/
def Conserved (table : ProcessAccess) (s : Discovery) : Prop :=
  ∀ κ, storedCount s.processAccess κ = storedCount table κ + s.bumped κ

/-- The session that a caller has loaded. -/
def heldBy (s : Discovery) (thread : Nat) : Option Nat :=
  match s.callers thread with
  | .holding k _ => some k
  | .idle | .checked _ => none

/-- All rows of a flush are written; the final flush of a session leaves no counter that is not zero;
and no caller bumps one after it. -/
def Saves (s : Discovery) : DiscoveryAction → Prop
  | .write k written => (s.tasks k).drain.rows.length ≤ written
  | .collected k => (s.tasks k).drain.ending = true →
      ∀ κ ∈ (s.tasks k).session.counts.keys, (s.tasks k).session.countOf κ = 0
  | .credit thread _ => ∀ k ∈ s.heldBy thread, (s.tasks k).drain.swept = false
  | _ => True

instance (s : Discovery) : DecidablePred s.Saves
  | .write k written => inferInstanceAs (Decidable ((s.tasks k).drain.rows.length ≤ written))
  | .collected k => inferInstanceAs (Decidable ((s.tasks k).drain.ending = true →
      ∀ κ ∈ (s.tasks k).session.counts.keys, (s.tasks k).session.countOf κ = 0))
  | .credit thread _ => inferInstanceAs (Decidable (∀ k ∈ s.heldBy thread, (s.tasks k).drain.swept = false))
  | .advance _ | .cancelRoot | .lockStart | .lockStop | .control | .call .. | .load _ | .flush .. | .swap ..
  | .disable _ | .clear _ => isTrue trivial

/-- What is neither in the table nor can come there. -/
def loss (table : ProcessAccess) (s : Discovery) (κ : Str × OpKind) : Int :=
  storedCount table κ + s.bumped κ - storedCount s.processAccess κ -
    ∑ k ∈ Finset.range s.started, (s.tasks k).savable κ

/-! ## Sums -/

theorem storedCount_upsertRow (table : ProcessAccess) (row : ProcessAccessRow) (κ : Str × OpKind) :
    storedCount (upsertRow table row) κ = storedCount table κ + row.counts κ :=
  total_upsertRow (fun key => key.2 = OpKey κ) table row

theorem storedCount_foldl (rows : List ProcessAccessRow) (table : ProcessAccess) (κ : Str × OpKind) :
    storedCount (rows.foldl upsertRow table) κ = storedCount table κ + rowsCount κ rows := by
  induction rows generalizing table with
  | nil => simp [rowsCount]
  | cons row rows ih =>
    rw [List.foldl_cons, ih, storedCount_upsertRow, rowsCount, rowsCount, List.map_cons, List.sum_cons]
    omega

@[simp] theorem rowsCount_nil (κ : Str × OpKind) : rowsCount κ [] = 0 := rfl

theorem rowsCount_append (κ : Str × OpKind) (l m : List ProcessAccessRow) :
    rowsCount κ (l ++ m) = rowsCount κ l + rowsCount κ m := by
  rw [rowsCount, List.map_append, List.sum_append, rowsCount, rowsCount]

theorem asStr_inj {o p : OpKind} (h : o.asStr = p.asStr) : o = p := by
  cases o <;> cases p <;> first | rfl | exact absurd h (by decide)

theorem opKey_inj {κ κ' : Str × OpKind} (h : OpKey κ = OpKey κ') : κ = κ' := by
  obtain ⟨hname, hop⟩ := Prod.mk.inj h
  exact Prod.ext hname (asStr_inj hop)

/-- The row of a swap holds what the counter held. -/
theorem rowsCount_swapRow (se : Session) (epoch : Int) (key κ : Str × OpKind) :
    rowsCount κ (swapRow se epoch key) = if κ = key then (se.countOf key : Int) else 0 := by
  rw [swapRow]
  simp only
  split
  · next hzero => simp [rowsCount, Session.countOf, hzero]
  · simp only [rowsCount, List.map_cons, List.map_nil, List.sum_cons, List.sum_nil, ProcessAccessRow.counts]
    by_cases hkey : κ = key
    · subst hkey
      simp [OpKey, Session.countOf]
    · have hne : ¬ (key.1, key.2.asStr) = OpKey κ := fun h => hkey (opKey_inj h).symm
      simp [hkey, hne]

/-- One session changes. -/
theorem sum_savable_update {k : Nat} (hk : k < s.started) (t : SessionTask) (κ : Str × OpKind) :
    ∑ i ∈ Finset.range s.started, (Function.update s.tasks k t i).savable κ =
      (∑ i ∈ Finset.range s.started, (s.tasks i).savable κ) - (s.tasks k).savable κ + t.savable κ := by
  have hmem : k ∈ Finset.range s.started := Finset.mem_range.mpr hk
  rw [← Finset.add_sum_erase _ _ hmem, ← Finset.add_sum_erase _ (fun i => (s.tasks i).savable κ) hmem,
    Function.update_self]
  have hrest : ∑ i ∈ (Finset.range s.started).erase k, (Function.update s.tasks k t i).savable κ =
      ∑ i ∈ (Finset.range s.started).erase k, (s.tasks i).savable κ := by
    refine Finset.sum_congr rfl fun i hi => ?_
    rw [Function.update_of_ne (Finset.ne_of_mem_erase hi)]
  rw [hrest]
  omega

/-! ## What the tasks keep -/

structure Draining (s : Discovery) : Prop where
  session : ∀ k, s.session = some k → k < s.started
  callers : ∀ thread k c, s.callers thread = .holding k c → k < s.started
  tasks : ∀ k, (s.tasks k).drain ≠ .unspawned → k < s.started
  spawning : ∀ k, s.control = .stored k ∨ s.control = .enabled k →
    k < s.started ∧ (s.tasks k).drain = .unspawned
  rows : ∀ k, ∀ row ∈ (s.tasks k).drain.rows, 0 < row.count ∧ ∃ op : OpKind, row.opKind = op.asStr

theorem holding_setCaller {thread other k : Nat} {pc : CallPc} {c : Call}
    (h : (s.setCaller thread pc).callers other = .holding k c) :
    pc = .holding k c ∨ s.callers other = .holding k c := by
  have hcaller : Function.update s.callers thread pc other = .holding k c := h
  by_cases hother : other = thread
  · rw [hother, Function.update_self] at hcaller
    exact .inl hcaller
  · rw [Function.update_of_ne hother] at hcaller
    exact .inr hcaller

/-- One task goes on, and nothing new is handed out. -/
theorem Draining.update (h : Draining s) {k : Nat} {t : SessionTask} (hk : k < s.started)
    (htasks : s'.tasks = Function.update s.tasks k t) (hstarted : s'.started = s.started)
    (hcontrol : ∀ j, s'.control = .stored j ∨ s'.control = .enabled j → s.control = .stored j ∨ s.control = .enabled j)
    (hsession : ∀ j, s'.session = some j → s.session = some j)
    (hcallers : ∀ thread j c, s'.callers thread = .holding j c → s.callers thread = .holding j c)
    (hdrain : s'.control = .stored k ∨ s'.control = .enabled k → (s.tasks k).drain = .unspawned →
      t.drain = .unspawned)
    (hrows : ∀ row ∈ t.drain.rows, 0 < row.count ∧ ∃ op : OpKind, row.opKind = op.asStr) : Draining s' := by
  constructor
  · intro j hj
    rw [hstarted]
    exact h.session j (hsession j hj)
  · intro thread j c hj
    rw [hstarted]
    exact h.callers thread j c (hcallers thread j c hj)
  · intro j hj
    rw [hstarted]
    by_cases hjk : j = k
    · exact hjk ▸ hk
    · rw [htasks, Function.update_of_ne hjk] at hj
      exact h.tasks j hj
  · intro j hj
    obtain ⟨hlt, hunspawned⟩ := h.spawning j (hcontrol j hj)
    rw [hstarted]
    refine ⟨hlt, ?_⟩
    by_cases hjk : j = k
    · subst hjk
      rw [htasks, Function.update_self]
      exact hdrain hj hunspawned
    · rwa [htasks, Function.update_of_ne hjk]
  · intro j
    by_cases hjk : j = k
    · subst hjk
      rw [htasks, Function.update_self]
      exact hrows
    · rw [htasks, Function.update_of_ne hjk]
      exact h.rows j

/-- The tasks are left alone. -/
theorem Draining.same (h : Draining s) (htasks : s'.tasks = s.tasks) (hstarted : s'.started = s.started)
    (hcontrol : ∀ k, s'.control = .stored k ∨ s'.control = .enabled k → s.control = .stored k ∨ s.control = .enabled k)
    (hsession : ∀ k, s'.session = some k → s.session = some k)
    (hcallers : ∀ thread k c, s'.callers thread = .holding k c →
      s.callers thread = .holding k c ∨ s.session = some k) : Draining s' := by
  constructor
  · intro k hk
    rw [hstarted]
    exact h.session k (hsession k hk)
  · intro thread k c hk
    rw [hstarted]
    rcases hcallers thread k c hk with hk | hk
    · exact h.callers thread k c hk
    · exact h.session k hk
  · rw [htasks, hstarted]
    exact h.tasks
  · intro k hk
    rw [htasks, hstarted]
    exact h.spawning k (hcontrol k hk)
  · rw [htasks]
    exact h.rows

/-- What the change of one task does to the loss. -/
theorem loss_update (table : ProcessAccess) {k : Nat} {t : SessionTask} (hk : k < s.started)
    (htasks : s'.tasks = Function.update s.tasks k t) (hstarted : s'.started = s.started) (κ : Str × OpKind) :
    loss table s' κ = loss table s κ + (s'.bumped κ - s.bumped κ) -
      (storedCount s'.processAccess κ - storedCount s.processAccess κ) + ((s.tasks k).savable κ - t.savable κ) := by
  rw [loss, loss, htasks, hstarted, sum_savable_update hk t κ]
  omega

/-- A step at which nothing is lost. -/
structure Lossless (table : ProcessAccess) (s s' : Discovery) : Prop where
  draining : Draining s'
  loss : ∀ κ, Discovery.loss table s' κ = Discovery.loss table s κ

theorem Lossless.of_task {table : ProcessAccess} {k : Nat} {t : SessionTask} (hd : Draining s')
    (hk : k < s.started) (htasks : s'.tasks = Function.update s.tasks k t) (hstarted : s'.started = s.started)
    (hcredits : s'.credits = s.credits) (htable : s'.processAccess = s.processAccess)
    (hsavable : ∀ κ, t.savable κ = (s.tasks k).savable κ) : Lossless table s s' := by
  refine ⟨hd, fun κ => ?_⟩
  rw [loss_update table hk htasks hstarted κ, htable, hsavable κ, bumped, hcredits, bumped]
  omega

theorem Lossless.of_same {table : ProcessAccess} (hd : Draining s') (htasks : s'.tasks = s.tasks)
    (hstarted : s'.started = s.started) (hcredits : s'.credits = s.credits)
    (htable : s'.processAccess = s.processAccess) : Lossless table s s' := by
  refine ⟨hd, fun κ => ?_⟩
  rw [Discovery.loss, Discovery.loss, htasks, hstarted, htable, bumped, hcredits, bumped]

theorem savable_of_drain {t : SessionTask} {κ : Str × OpKind} (hswept : t.drain.swept = false)
    (hrows : t.drain.rows = []) : t.savable κ = t.session.countOf κ := by
  rw [SessionTask.savable, hswept, hrows]
  simp [rowsCount]

/-- A new session has nothing to store. -/
theorem lossless_starting {table : ProcessAccess} (h : Draining s)
    (hs : s.controlStep .starting = some s') : Lossless table s s' := by
  obtain rfl := Option.some.inj hs
  have hother : ∀ k, k ≠ s.started →
      Function.update s.tasks s.started ⟨Session.new s.now, false, .unspawned⟩ k = s.tasks k :=
    fun k hk => Function.update_of_ne hk ..
  refine ⟨⟨?_, ?_, ?_, ?_, ?_⟩, fun κ => ?_⟩
  · intro k hk
    obtain rfl : s.started = k := by simpa using hk
    exact Nat.lt_succ_self _
  · intro thread k c hk
    exact Nat.lt_succ_of_lt (h.callers thread k c hk)
  · intro k hk
    by_cases hkey : k = s.started
    · subst hkey
      exact Nat.lt_succ_self _
    · simp only [hother k hkey] at hk
      exact Nat.lt_succ_of_lt (h.tasks k hk)
  · intro k hk
    obtain rfl : s.started = k := by simpa using hk
    exact ⟨Nat.lt_succ_self _, by simp⟩
  · intro k
    by_cases hkey : k = s.started
    · subst hkey
      simp [DrainPc.rows]
    · simp only [hother k hkey]
      exact h.rows k
  · have hrest : ∑ k ∈ Finset.range s.started,
        (Function.update s.tasks s.started ⟨Session.new s.now, false, .unspawned⟩ k).savable κ =
        ∑ k ∈ Finset.range s.started, (s.tasks k).savable κ := by
      refine Finset.sum_congr rfl fun k hk => ?_
      rw [hother k (Nat.ne_of_lt (Finset.mem_range.mp hk))]
    have hnew : (⟨Session.new s.now, false, .unspawned⟩ : SessionTask).savable κ = 0 := by
      rw [savable_of_drain rfl rfl]
      simp [Session.countOf, Session.new]
    rw [loss, loss]
    simp only [bumped]
    rw [Finset.sum_range_succ, hrest, Function.update_self, hnew]
    omega

theorem lossless_control {table : ProcessAccess} (h : Draining s)
    (hs : s.controlStep s.control = some s') : Lossless table s s' := by
  cases hc : s.control with
  | idle => rw [hc] at hs; exact absurd hs (by simp [controlStep])
  | starting => exact lossless_starting h (hc ▸ hs)
  | stored k =>
    rw [hc] at hs
    obtain rfl := Option.some.inj hs
    refine .of_same (h.same rfl rfl (fun j hj => ?_) (fun _ hj => hj) fun _ _ _ hj => .inl hj) rfl rfl rfl rfl
    obtain rfl : k = j := by simpa using hj
    exact .inl hc
  | enabled k =>
    rw [hc] at hs
    obtain rfl := Option.some.inj hs
    obtain ⟨hlt, hunspawned⟩ := h.spawning k (.inr hc)
    refine .of_task (h.update hlt rfl rfl (fun j hj => absurd hj (by simp)) (fun _ hj => hj)
      (fun _ _ _ hj => hj) (fun hj => absurd hj (by simp)) (fun _ hrow => absurd hrow (by simp [DrainPc.rows])))
      hlt rfl rfl rfl rfl fun κ => ?_
    rw [savable_of_drain rfl rfl, savable_of_drain (by rw [hunspawned]; rfl) (by rw [hunspawned]; rfl)]
  | spawned k =>
    rw [hc] at hs
    obtain rfl := Option.some.inj hs
    exact .of_same (h.same rfl rfl (fun j hj => absurd hj (by simp)) (fun _ hj => hj) fun _ _ _ hj => .inl hj)
      rfl rfl rfl rfl
  | stopping =>
    rw [hc] at hs
    simp only [controlStep] at hs
    split at hs
    · obtain rfl := Option.some.inj hs
      exact .of_same (h.same rfl rfl (fun j hj => absurd hj (by simp)) (fun _ hj => hj) fun _ _ _ hj => .inl hj)
        rfl rfl rfl rfl
    · next k hk =>
      obtain rfl := Option.some.inj hs
      exact .of_task (h.update (h.session k hk) rfl rfl (fun j hj => absurd hj (by simp)) (fun _ hj => hj)
        (fun _ _ _ hj => hj) (fun hj => absurd hj (by simp)) (h.rows k)) (h.session k hk) rfl rfl rfl rfl
        fun _ => rfl
  | cancelled =>
    rw [hc] at hs
    obtain rfl := Option.some.inj hs
    exact .of_same (h.same rfl rfl (fun j hj => absurd hj (by simp)) (fun _ hj => hj) fun _ _ _ hj => .inl hj)
      rfl rfl rfl rfl
  | disabled =>
    rw [hc] at hs
    obtain rfl := Option.some.inj hs
    exact .of_same (h.same rfl rfl (fun j hj => absurd hj (by simp)) (fun _ hj => absurd hj (by simp))
      fun _ _ _ hj => .inl hj) rfl rfl rfl rfl

/-- A task that has gone anywhere belongs to a session that was started. -/
theorem Draining.lt (h : Draining s) {k : Nat} {d : DrainPc} (hd : (s.tasks k).drain = d)
    (hne : d ≠ .unspawned) : k < s.started := h.tasks k (hd ▸ hne)

theorem lossless_flush {table : ProcessAccess} (h : Draining s) {k : Nat} {last : Bool} {epoch : Int}
    {keys : List (Str × OpKind)} (hdrain : (s.tasks k).drain = .loop) :
    Lossless table s (s.setDrain k (.collect last epoch keys [] [])) := by
  have hlt := h.lt hdrain (by simp)
  refine .of_task (h.update hlt rfl rfl (fun _ hj => hj) (fun _ hj => hj) (fun _ _ _ hj => hj)
    (fun _ hd => absurd (hdrain.symm.trans hd) (by simp)) fun _ hrow => absurd hrow (by simp [DrainPc.rows]))
    hlt rfl rfl rfl rfl fun κ => ?_
  rw [savable_of_drain rfl rfl, savable_of_drain (by rw [hdrain]; rfl) (by rw [hdrain]; rfl)]

theorem pos_of_mem_swapRow {se : Session} {epoch : Int} {key : Str × OpKind} {row : ProcessAccessRow}
    (h : row ∈ swapRow se epoch key) : 0 < row.count ∧ ∃ op : OpKind, row.opKind = op.asStr := by
  rw [swapRow] at h
  simp only at h
  split at h
  · exact absurd h (by simp)
  · next hne =>
    obtain rfl := List.mem_singleton.mp h
    exact ⟨Nat.pos_of_ne_zero hne, key.2, rfl⟩

/-- What leaves the counter is in the row. -/
theorem lossless_swap {table : ProcessAccess} (h : Draining s) {k : Nat} {key : Str × OpKind} {last : Bool}
    {epoch : Int} {todo visited todo' visited' : List (Str × OpKind)} {rows : List ProcessAccessRow}
    (hdrain : (s.tasks k).drain = .collect last epoch todo visited rows) :
    Lossless table s (s.setTask k
      { s.tasks k with
        session := { (s.tasks k).session with counts := (s.tasks k).session.counts.insert key 0 }
        drain := .collect last epoch todo' visited' (rows ++ swapRow (s.tasks k).session epoch key) }) := by
  have hlt := h.lt hdrain (by simp)
  have hrows := h.rows k
  rw [hdrain] at hrows
  refine .of_task (h.update hlt rfl rfl (fun _ hj => hj) (fun _ hj => hj) (fun _ _ _ hj => hj)
    (fun _ hd => absurd (hdrain.symm.trans hd) (by simp)) fun row hrow => ?_) hlt rfl rfl rfl rfl fun κ => ?_
  · rcases List.mem_append.mp hrow with hrow | hrow
    · exact hrows row hrow
    · exact pos_of_mem_swapRow hrow
  · rw [SessionTask.savable, SessionTask.savable, hdrain]
    simp only [DrainPc.swept, DrainPc.rows, Bool.false_eq_true, if_false, rowsCount_append,
      rowsCount_swapRow, Session.countOf, Map.lookup_insert_if]
    by_cases hkey : κ = key
    · subst hkey
      simp
      omega
    · simp [hkey]

/-- A write of the epilogue. -/
theorem lossless_epilogue {table : ProcessAccess} (h : Draining s) {k : Nat} {d : DrainPc}
    (hswept : (s.tasks k).drain.swept = true) (hrows : (s.tasks k).drain.rows = []) (hd : d.swept = true)
    (hd' : d.rows = []) (htasks : s'.tasks = Function.update s.tasks k { s.tasks k with drain := d })
    (hstarted : s'.started = s.started) (hcontrol : s'.control = s.control)
    (hsession : ∀ j, s'.session = some j → s.session = some j) (hcallers : s'.callers = s.callers)
    (hcredits : s'.credits = s.credits) (htable : s'.processAccess = s.processAccess) : Lossless table s s' := by
  have hne : (s.tasks k).drain ≠ .unspawned := by
    intro e
    rw [e] at hswept
    exact absurd hswept (by simp [DrainPc.swept])
  have hlt := h.tasks k hne
  refine .of_task (h.update hlt htasks hstarted (by rw [hcontrol]; exact fun _ hj => hj) hsession
    (by rw [hcallers]; exact fun _ _ _ hj => hj) (fun _ e => absurd e hne)
    fun row hrow => absurd hrow (by simp [hd'])) hlt htasks hstarted hcredits htable fun κ => ?_
  simp only [SessionTask.savable, hswept, hrows, hd, hd']

/-! ## What is lost -/

theorem rowsCount_nonneg (κ : Str × OpKind) (rows : List ProcessAccessRow) : 0 ≤ rowsCount κ rows := by
  refine List.sum_nonneg fun x hx => ?_
  obtain ⟨row, -, rfl⟩ := List.mem_map.mp hx
  rw [ProcessAccessRow.counts]
  split
  · exact Int.natCast_nonneg _
  · exact Int.le_refl 0

/-- Rows that count nothing are no rows. -/
theorem rows_eq_nil_of_count {rows : List ProcessAccessRow}
    (hrows : ∀ row ∈ rows, 0 < row.count ∧ ∃ op : OpKind, row.opKind = op.asStr)
    (h : ∀ κ, rowsCount κ rows = 0) : rows = [] := by
  cases rows with
  | nil => rfl
  | cons row rows =>
    obtain ⟨hpos, op, hop⟩ := hrows row List.mem_cons_self
    have hsum := h (row.processName, op)
    have hrow : ProcessAccessRow.counts (row.processName, op) row = row.count := by
      rw [ProcessAccessRow.counts, if_pos (by rw [OpKey, hop])]
    have hrest := rowsCount_nonneg (row.processName, op) rows
    rw [rowsCount, List.map_cons, List.sum_cons, hrow] at hsum
    rw [rowsCount] at hrest
    omega

/-- A step that loses nothing exactly if `ok`. -/
structure Loses (table : ProcessAccess) (s s' : Discovery) (ok : Prop) : Prop where
  draining : Draining s'
  le : loss table s ≤ loss table s'
  iff : loss table s' = loss table s ↔ ok

theorem Lossless.loses {table : ProcessAccess} {ok : Prop} (h : Lossless table s s') (hok : ok) :
    Loses table s s' ok := by
  have heq : Discovery.loss table s' = Discovery.loss table s := funext h.loss
  exact ⟨h.draining, heq.ge, iff_of_true heq hok⟩

/-- The loss grows by `d`. -/
theorem Loses.of_loss {table : ProcessAccess} {ok : Prop} {d : Str × OpKind → Int} (hd : Draining s')
    (hloss : ∀ κ, loss table s' κ = loss table s κ + d κ) (hnonneg : ∀ κ, 0 ≤ d κ)
    (hok : (∀ κ, d κ = 0) ↔ ok) : Loses table s s' ok := by
  refine ⟨hd, fun κ => ?_, ?_⟩
  · rw [hloss κ]
    exact Int.le_add_of_nonneg_right (hnonneg κ)
  · rw [← hok]
    constructor
    · intro heq κ
      have hκ := congrFun heq κ
      rw [hloss κ] at hκ
      omega
    · intro hzero
      funext κ
      rw [hloss κ, hzero κ, Int.add_zero]

/-- A bump counts unless the final flush has been there. -/
theorem loses_credit {table : ProcessAccess} (h : Draining s) {thread k : Nat} {c : Call} (proc : ProcReading)
    (hcaller : s.callers thread = .holding k c) :
    Loses table s (s.creditCall cfg thread k proc c) ((s.tasks k).drain.swept = false) := by
  have hlt := h.callers thread k c hcaller
  obtain ⟨session, key, touched, htasks, hcredits, hcounts⟩ := creditCall_spec cfg s thread k proc c
  have hframe : (s.creditCall cfg thread k proc c).started = s.started ∧
      (s.creditCall cfg thread k proc c).control = s.control ∧
      (s.creditCall cfg thread k proc c).session = s.session ∧
      (s.creditCall cfg thread k proc c).processAccess = s.processAccess ∧
      (s.creditCall cfg thread k proc c).callers = (s.setCaller thread .idle).callers := by
    cases c <;> exact ⟨rfl, rfl, rfl, rfl, rfl⟩
  obtain ⟨hstarted, hcontrol, hsession, htable, hcallers⟩ := hframe
  generalize s.creditCall cfg thread k proc c = s' at *
  have hdraining : Draining s' := by
    refine h.update hlt htasks hstarted (by rw [hcontrol]; exact fun _ hj => hj)
      (by rw [hsession]; exact fun _ hj => hj) (fun other j c hj => ?_) (fun _ hd => hd) (h.rows k)
    rw [hcallers] at hj
    exact (holding_setCaller hj).resolve_left (by simp)
  have hbumped : ∀ κ, s'.bumped κ = s.bumped κ + if key = κ then 1 else 0 := by
    intro κ
    rw [bumped, hcredits, List.countP_cons, bumped]
    simp
  have hcount : ∀ κ, session.countOf κ = (s.tasks k).session.countOf κ + if κ = key then 1 else 0 := by
    intro κ
    rw [Session.countOf, hcounts, Map.lookup_insert_if, Session.countOf]
    by_cases hkey : κ = key
    · subst hkey
      simp
    · simp [hkey]
  refine .of_loss (d := fun κ => if (s.tasks k).drain.swept = true ∧ κ = key then 1 else 0) hdraining
    (fun κ => ?_) (fun κ => ?_) ?_
  · rw [loss_update table hlt htasks hstarted κ, htable, hbumped κ, SessionTask.savable, SessionTask.savable,
      hcount κ]
    by_cases hkey : κ = key
    · subst hkey
      cases (s.tasks k).drain.swept <;> simp
    · have hkey' : ¬ key = κ := fun e => hkey e.symm
      cases (s.tasks k).drain.swept <;> simp [hkey, hkey']
  · split <;> decide
  · constructor
    · intro hzero
      have hκ := hzero key
      cases hswept : (s.tasks k).drain.swept with
      | false => rfl
      | true => simp [hswept] at hκ
    · intro hswept κ
      simp [hswept]

/-- The final flush loses what the counters still hold when it is through with them. -/
theorem loses_collected {table : ProcessAccess} (h : Draining s) {k : Nat} {last : Bool} {epoch : Int}
    {visited : List (Str × OpKind)} {rows : List ProcessAccessRow}
    (hdrain : (s.tasks k).drain = .collect last epoch [] visited rows) :
    Loses table s (s.setDrain k (.write last rows))
      (last = true → ∀ κ ∈ (s.tasks k).session.counts.keys, (s.tasks k).session.countOf κ = 0) := by
  have hlt := h.lt hdrain (by simp)
  have hrows := h.rows k
  rw [hdrain] at hrows
  have hdraining : Draining (s.setDrain k (.write last rows)) :=
    h.update hlt rfl rfl (fun _ hj => hj) (fun _ hj => hj) (fun _ _ _ hj => hj)
      (fun _ hd => absurd (hdrain.symm.trans hd) (by simp)) hrows
  refine .of_loss (d := fun κ => if last = true then ((s.tasks k).session.countOf κ : Int) else 0) hdraining
    (fun κ => ?_) (fun κ => ?_) ?_
  · have htable : (s.setDrain k (.write last rows)).processAccess = s.processAccess := rfl
    have hbumped : (s.setDrain k (.write last rows)).bumped κ = s.bumped κ := rfl
    have htasks : (s.setDrain k (.write last rows)).tasks =
        Function.update s.tasks k { s.tasks k with drain := .write last rows } := rfl
    rw [loss_update table hlt htasks rfl κ, htable, hbumped, SessionTask.savable, SessionTask.savable, hdrain]
    cases last <;> simp [DrainPc.swept, DrainPc.rows]
  · split
    · exact Int.natCast_nonneg _
    · exact Int.le_refl 0
  · constructor
    · intro hzero hlast κ _
      have hκ := hzero κ
      rw [if_pos hlast] at hκ
      exact Int.natCast_eq_zero.mp hκ
    · intro hok κ
      by_cases hlast : last = true
      · rw [if_pos hlast]
        by_cases hkey : κ ∈ (s.tasks k).session.counts.keys
        · rw [hok hlast κ hkey]
          rfl
        · have hnone : (s.tasks k).session.counts.lookup κ = none :=
            AList.lookup_eq_none.mpr fun hmem => hkey (AList.mem_keys.mp hmem)
          rw [Session.countOf, hnone]
          rfl
      · rw [if_neg hlast]

/-- The rows after the failing one are lost. -/
theorem loses_write {table : ProcessAccess} (h : Draining s) {k : Nat} {last : Bool}
    {rows : List ProcessAccessRow} (written : Nat) (hdrain : (s.tasks k).drain = .write last rows) :
    Loses table s
      { s.setDrain k (if last then .returned else .loop) with
        processAccess := upsertProcessAccess s.processAccess rows written }
      (rows.length ≤ written) := by
  have hlt := h.lt hdrain (by simp)
  have hrows := h.rows k
  rw [hdrain] at hrows
  generalize heq : ({ s.setDrain k (if last then .returned else .loop) with
    processAccess := upsertProcessAccess s.processAccess rows written } : Discovery) = s'
  have htasks : s'.tasks =
      Function.update s.tasks k { s.tasks k with drain := if last then .returned else .loop } := by
    rw [← heq]
    rfl
  have htable : s'.processAccess = upsertProcessAccess s.processAccess rows written := by rw [← heq]
  have hframe : s'.bumped = s.bumped ∧ s'.started = s.started ∧ s'.control = s.control ∧
      s'.session = s.session ∧ s'.callers = s.callers := by
    rw [← heq]
    exact ⟨rfl, rfl, rfl, rfl, rfl⟩
  obtain ⟨hbumped, hstarted, hcontrol, hsession, hcallers⟩ := hframe
  refine .of_loss (d := fun κ => rowsCount κ (rows.drop written)) ?_ (fun κ => ?_)
    (fun κ => rowsCount_nonneg κ _) ?_
  · refine h.update hlt htasks hstarted (by rw [hcontrol]; exact fun _ hj => hj)
      (by rw [hsession]; exact fun _ hj => hj) (by rw [hcallers]; exact fun _ _ _ hj => hj)
      (fun _ hd => absurd (hdrain.symm.trans hd) (by simp)) fun row hrow => ?_
    cases last <;> exact absurd hrow (by simp [DrainPc.rows])
  · have hsplit : rowsCount κ rows = rowsCount κ (rows.take written) + rowsCount κ (rows.drop written) := by
      rw [← rowsCount_append, List.take_append_drop]
    rw [loss_update table hlt htasks hstarted κ, hbumped, htable, upsertProcessAccess, storedCount_foldl,
      SessionTask.savable, SessionTask.savable, hdrain]
    cases last
    · simp only [DrainPc.swept, DrainPc.rows, rowsCount_nil, Bool.false_eq_true, if_false]
      omega
    · simp only [DrainPc.swept, DrainPc.rows, rowsCount_nil, if_true]
      omega
  · constructor
    · intro hzero
      apply List.drop_eq_nil_iff.mp
      apply rows_eq_nil_of_count _ hzero
      exact fun row hrow => hrows row (List.mem_of_mem_drop hrow)
    · intro hle κ
      rw [List.drop_eq_nil_iff.mpr hle]
      rfl

/-- A call that has loaded nothing, or the stored session. -/
theorem lossless_caller {table : ProcessAccess} (h : Draining s) (thread : Nat) {pc : CallPc}
    (hpc : ∀ k c, pc = .holding k c → s.session = some k) : Lossless table s (s.setCaller thread pc) := by
  refine .of_same (h.same rfl rfl (fun _ hj => hj) (fun _ hj => hj) fun other k c hj => ?_) rfl rfl rfl rfl
  rcases holding_setCaller hj with hj | hj
  · exact .inr (hpc k c hj)
  · exact .inl hj

/-- Every step loses nothing exactly if it saves. -/
theorem loses_step {table : ProcessAccess} (h : Draining s) (hs : step cfg s a = some s') :
    Loses table s s' (s.Saves a) := by
  cases moves_of_step hs with
  | advance secs | cancelRoot | running hcontrol henabled | stopped hcontrol henabled =>
    exact Lossless.loses (.of_same (h.same rfl rfl (fun _ hj => hj) (fun _ hj => hj) fun _ _ _ hj => .inl hj)
      rfl rfl rfl rfl) trivial
  | lockStart hcontrol henabled | lockStop hcontrol henabled =>
    exact Lossless.loses (.of_same (h.same rfl rfl (fun _ hj => absurd hj (by simp)) (fun _ hj => hj)
      fun _ _ _ hj => .inl hj) rfl rfl rfl rfl) trivial
  | control hs => exact (lossless_control h hs).loses trivial
  | unchecked thread c => exact Lossless.loses ⟨h, fun _ => rfl⟩ trivial
  | checked thread c => exact (lossless_caller h thread fun _ _ hpc => absurd hpc (by simp)).loses trivial
  | unloaded thread => exact (lossless_caller h thread fun _ _ hpc => absurd hpc (by simp)).loses trivial
  | loaded thread c hsession =>
    refine (lossless_caller h thread fun k c hpc => ?_).loses trivial
    injection hpc with hk
    rw [hsession, hk]
  | credit proc hcaller =>
    have hsaves : ∀ thread k c, s.callers thread = .holding k c →
        (s.Saves (.credit thread proc) ↔ (s.tasks k).drain.swept = false) := by
      intro thread k c hc
      simp [Saves, heldBy, hc]
    rw [hsaves _ _ _ hcaller]
    exact loses_credit h proc hcaller
  | flush hdrain htoken => exact (lossless_flush h hdrain).loses trivial
  | swap hdrain hkey => exact (lossless_swap h hdrain).loses trivial
  | collected hdrain =>
    simp only [Saves, hdrain, DrainPc.ending]
    exact loses_collected h hdrain
  | write written hdrain =>
    simp only [Saves, hdrain, DrainPc.rows]
    exact loses_write h written hdrain
  | disable hdrain =>
    exact Lossless.loses (lossless_epilogue h (by rw [hdrain]; rfl) (by rw [hdrain]; rfl) rfl rfl rfl rfl rfl
      (fun _ hj => hj) rfl rfl rfl) trivial
  | clear hdrain =>
    exact Lossless.loses (lossless_epilogue h (by rw [hdrain]; rfl) (by rw [hdrain]; rfl) rfl rfl rfl rfl rfl
      (fun _ hj => absurd hj (by simp)) rfl rfl rfl) trivial

theorem draining_init (table : ProcessAccess) (now : Nat) : Draining (init table now) where
  session := fun _ hk => absurd hk (by simp [init])
  callers := fun _ _ _ hk => absurd hk (by simp [init])
  tasks := fun _ hk => absurd rfl hk
  spawning := fun _ hk => absurd hk (by simp [init])
  rows := fun _ _ hrow => absurd hrow (by simp [init, DrainPc.rows])

/-- When every task has ended, what is lost is what is missing in the table. -/
theorem loss_of_ended {table : ProcessAccess} (hended : ∀ k < s.started, (s.tasks k).drain = .ended)
    (κ : Str × OpKind) : loss table s κ = storedCount table κ + s.bumped κ - storedCount s.processAccess κ := by
  have hzero : ∑ k ∈ Finset.range s.started, (s.tasks k).savable κ = 0 := by
    refine Finset.sum_eq_zero fun k hk => ?_
    rw [SessionTask.savable, hended k (Finset.mem_range.mp hk)]
    simp [DrainPc.swept, DrainPc.rows, rowsCount]
  rw [loss, hzero, Int.sub_zero]

/-- When all tasks have ended, the counts are in the table exactly if every step has saved them. -/
theorem counts_conserved_iff (cfg : DiscoveryConfig) (table : ProcessAccess) (now : Nat)
    {actions : List DiscoveryAction} {t : Discovery}
    (hrun : run (step cfg) (init table now) actions = some t)
    (hended : ∀ k < t.started, (t.tasks k).drain = .ended) :
    t.Conserved table ↔ Along (step cfg) Saves (init table now) actions := by
  have hkeep : ∀ s a s', Draining s → step cfg s a = some s' →
      Draining s' ∧ loss table s ≤ loss table s' ∧ (loss table s' = loss table s ↔ s.Saves a) := by
    intro s a s' h hs
    have hloses : Loses table s s' (s.Saves a) := loses_step h hs
    exact ⟨hloses.draining, hloses.le, hloses.iff⟩
  have hloss := (no_loss_iff_along (loss table) Draining hkeep hrun (draining_init table now)).2
  have hstart : loss table (init table now) = fun _ => 0 := by
    funext κ
    simp [loss, init, bumped]
  rw [← hloss, hstart]
  constructor
  · intro h
    funext κ
    have hκ := h κ
    rw [loss_of_ended hended κ]
    omega
  · intro h κ
    have hκ := congrFun h κ
    rw [loss_of_ended hended κ] at hκ
    omega

section LateBump

def small : DiscoveryConfig := ⟨512, 300, ⟨[], []⟩⟩

/-- One process. -/
private def plex : ProcReading := ⟨some [112, 108, 101, 120], none, []⟩

/-- A touch by it gets as far as the session. -/
def armedTouch : List DiscoveryAction :=
  [.lockStart, .control, .control, .control, .control, .call 1 (.touch 7 .hit), .load 1]

/-- The session is stopped, and its task ends. -/
def drained (swaps : List DiscoveryAction) (written : Nat) : List DiscoveryAction :=
  [.lockStop, .control, .control, .control, .flush 0 true] ++ swaps ++
    [.collected 0, .write 0 written, .disable 0, .clear 0]

/-- The touch is counted before. -/
def countedTouch : List DiscoveryAction :=
  armedTouch ++ [.credit 1 plex] ++ drained [.swap 0 ([112, 108, 101, 120], .hit)] 1

theorem counted_conserved : ∃ t, run (step small) (init ∅ 0) countedTouch = some t ∧
    t.bumped ([112, 108, 101, 120], .hit) = 1 ∧ t.Conserved ∅ := by
  have hok : Along (step small) Saves (init ∅ 0) countedTouch := by decide
  exact ⟨_, rfl, by decide, (counts_conserved_iff small ∅ 0 rfl (by decide)).mpr hok⟩

/-- The touch is counted after the task has ended. -/
theorem late_bump_lost : ∃ t,
    run (step small) (init ∅ 0) (armedTouch ++ drained [] 0 ++ [.credit 1 plex]) = some t ∧
      (∀ k < t.started, (t.tasks k).drain = .ended) ∧ ¬ t.Conserved ∅ := by
  refine ⟨_, rfl, by decide, fun h => ?_⟩
  exact absurd (h ([112, 108, 101, 120], .hit)) (by decide)

end LateBump

end Discovery

end FsCache
