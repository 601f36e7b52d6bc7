import FsCache.Discovery

/- When discovery stays armed.

   The task of a session that has ended switches discovery off and clears the stored session,
   whichever session that is by then. `stays_armed`: where no such write lands on a session that
   a `start` has just stored, every state after the return of a `start` has discovery enabled and
   stores a session that is drained, until a `stop` or the end of the daemon.
   `old_epilogue_disarms` is a run in which the task of the session before lands late. -/

namespace FsCache
open Lib

namespace ControlPc

/-- `start` has stored its session. -/
def sessionStored : ControlPc → Bool
  | .stored _ | .enabled _ | .spawned _ => true
  | .idle | .starting | .stopping | .cancelled | .disabled => false

/-- `start` has stored its session and set `enabled`. -/
def enabledStored : ControlPc → Bool
  | .enabled _ | .spawned _ => true
  | .idle | .starting | .stored _ | .stopping | .cancelled | .disabled => false

/-- The next step of the call is to return from `start`. -/
def returning : ControlPc → Bool
  | .spawned _ => true
  | .idle | .starting | .stored _ | .enabled _ | .stopping | .cancelled | .disabled => false

end ControlPc

namespace Discovery

variable {cfg : DiscoveryConfig} {s s' : Discovery} {a : DiscoveryAction}

/-- Once a `start` has returned, and until a `stop` or the cancellation of the root token. -/
def StaysArmed (s : Discovery) : Prop :=
  s.armed = true → s.enabled = true ∧ ∃ k, s.session = some k ∧ (s.tasks k).drain.live = true

/-- No `start` returns after the cancellation of the root token, and no task of an ended session
writes over what a `start` has stored: not while discovery is armed, nor while the `start` that
stored it is still to return. -/
def Undisturbed (s : Discovery) : DiscoveryAction → Prop
  | .lockStart => s.enabled = true → s.rootCancelled = false
  | .control => s.control.returning = true → s.rootCancelled = false
  | .disable _ => s.armed = false ∧ s.control.enabledStored = false
  | .clear _ => s.armed = false ∧ s.control.sessionStored = false
  | _ => True

instance (s : Discovery) : DecidablePred (Undisturbed s)
  | .lockStart => inferInstanceAs (Decidable (_ → _))
  | .control => inferInstanceAs (Decidable (_ → _))
  | .disable _ => inferInstanceAs (Decidable (_ ∧ _))
  | .clear _ => inferInstanceAs (Decidable (_ ∧ _))
  | .advance _ | .cancelRoot | .lockStop | .call .. | .load _ | .credit .. | .flush .. | .swap ..
  | .collected _ | .write .. => isTrue trivial

/-- The session is stored, and nobody has asked it to end. -/
def Stores (s : Discovery) (k : Nat) : Prop := s.session = some k ∧ (s.tasks k).cancelled = false

structure Arming (s : Discovery) : Prop where
  armed : s.armed = true → s.enabled = true ∧ s.rootCancelled = false ∧
    ∃ k, s.Stores k ∧ (s.tasks k).drain.live = true
  busy : s.control ≠ .idle → s.armed = false
  stored : ∀ k, s.control = .stored k → s.Stores k ∧ (s.tasks k).drain = .unspawned
  enabled : ∀ k, s.control = .enabled k → s.enabled = true ∧ s.Stores k ∧ (s.tasks k).drain = .unspawned
  spawned : ∀ k, s.control = .spawned k → s.enabled = true ∧ s.Stores k ∧
    (s.rootCancelled = false → (s.tasks k).drain.live = true)
  idle : s.control = .idle → s.enabled = true → s.rootCancelled = false → s.armed = true
  off : s.control = .starting ∨ s.control = .disabled → s.enabled = false
  ending : ∀ k, (s.tasks k).drain.ending = true → s.tokenCancelled k = true

theorem Arming.staysArmed (h : Arming s) : s.StaysArmed := by
  intro harmed
  obtain ⟨henabled, -, k, hstores, hlive⟩ := h.armed harmed
  exact ⟨henabled, k, hstores.1, hlive⟩

/-- A task that goes on, or comes to its final flush because its token is cancelled. -/
structure GoesOn (s s' : Discovery) (k : Nat) : Prop where
  cancelled : (s'.tasks k).cancelled = (s.tasks k).cancelled
  unspawned : (s.tasks k).drain = .unspawned → (s'.tasks k).drain = .unspawned
  live : (s.tasks k).drain.live = true → s.tokenCancelled k = false → (s'.tasks k).drain.live = true
  ending : (s'.tasks k).drain.ending = true → s.tokenCancelled k = true

/-- What is no step of `start`, `stop` or an epilogue. -/
theorem Arming.goesOn (h : Arming s) (henabled : s'.enabled = s.enabled) (hsession : s'.session = s.session)
    (hcontrol : s'.control = s.control) (hroot : s'.rootCancelled = s.rootCancelled)
    (harmed : s'.armed = s.armed) (htasks : ∀ k, GoesOn s s' k) : Arming s' := by
  have hstores : ∀ k, s.Stores k → s'.Stores k := by
    intro k hk
    exact ⟨hsession.trans hk.1, (htasks k).cancelled.trans hk.2⟩
  have hlive : ∀ k, s.Stores k → s.rootCancelled = false → (s.tasks k).drain.live = true →
      (s'.tasks k).drain.live = true := by
    intro k hk hr hl
    exact (htasks k).live hl (by rw [tokenCancelled, hr, hk.2]; rfl)
  constructor
  · rw [harmed, henabled, hroot]
    intro ha
    obtain ⟨he, hr, k, hk, hl⟩ := h.armed ha
    exact ⟨he, hr, k, hstores k hk, hlive k hk hr hl⟩
  · rw [hcontrol, harmed]
    exact h.busy
  · rw [hcontrol]
    intro k hc
    exact ⟨hstores k (h.stored k hc).1, (htasks k).unspawned (h.stored k hc).2⟩
  · rw [hcontrol, henabled]
    intro k hc
    obtain ⟨he, hk, hd⟩ := h.enabled k hc
    exact ⟨he, hstores k hk, (htasks k).unspawned hd⟩
  · rw [hcontrol, henabled, hroot]
    intro k hc
    obtain ⟨he, hk, hl⟩ := h.spawned k hc
    exact ⟨he, hstores k hk, fun hr => hlive k hk hr (hl hr)⟩
  · rw [hcontrol, henabled, hroot, harmed]
    exact h.idle
  · rw [hcontrol, henabled]
    exact h.off
  · intro k hk
    have htoken : s'.tokenCancelled k = s.tokenCancelled k := by
      rw [tokenCancelled, hroot, (htasks k).cancelled, tokenCancelled]
    rw [htoken]
    exact (htasks k).ending hk

/-- All tasks but one are as they were. -/
theorem Arming.goesOn_update (h : Arming s) {j : Nat} {t : SessionTask}
    (htasks : s'.tasks = Function.update s.tasks j t) (hcancelled : t.cancelled = (s.tasks j).cancelled)
    (hunspawned : (s.tasks j).drain = .unspawned → t.drain = .unspawned)
    (hlive : (s.tasks j).drain.live = true → s.tokenCancelled j = false → t.drain.live = true)
    (hending : t.drain.ending = true → s.tokenCancelled j = true) (k : Nat) : GoesOn s s' k := by
  by_cases hk : k = j
  · subst hk
    have ht : s'.tasks k = t := by rw [htasks, Function.update_self]
    constructor <;> rw [ht] <;> assumption
  · have ht : s'.tasks k = s.tasks k := by rw [htasks, Function.update_of_ne hk]
    constructor <;> rw [ht]
    · exact id
    · exact fun hl _ => hl
    · exact h.ending k

theorem Arming.goesOn_rfl (h : Arming s) (htasks : s'.tasks = s.tasks) (k : Nat) : GoesOn s s' k := by
  constructor <;> rw [htasks]
  · exact id
  · exact fun hl _ => hl
  · exact h.ending k

theorem Arming.credit (h : Arming s) (thread k : Nat) (proc : ProcReading) (c : Call) :
    Arming (s.creditCall cfg thread k proc c) := by
  obtain ⟨session, -, -, htasks, -⟩ := creditCall_spec cfg s thread k proc c
  have hgoes : ∀ i, GoesOn s (s.creditCall cfg thread k proc c) i :=
    h.goesOn_update htasks rfl id (fun hl _ => hl) (h.ending k)
  cases c <;> exact h.goesOn rfl rfl rfl rfl rfl hgoes

theorem Arming.cancelRoot (h : Arming s) : Arming { s with rootCancelled := true, armed := false } where
  armed := fun ha => absurd ha (by simp)
  busy := fun _ => rfl
  stored := h.stored
  enabled := h.enabled
  spawned := fun k hc => ⟨(h.spawned k hc).1, (h.spawned k hc).2.1, fun hr => absurd hr (by simp)⟩
  idle := fun _ _ hr => absurd hr (by simp)
  off := h.off
  ending := fun _ _ => rfl

/-- Nothing is promised: no `start` has stored its session, and discovery is off between the calls. -/
theorem Arming.of_unstored (harmed : s.armed = false) (hcontrol : s.control.sessionStored = false)
    (hidle : s.control = .idle → s.rootCancelled = false → s.enabled = false)
    (hoff : s.control = .starting ∨ s.control = .disabled → s.enabled = false)
    (hending : ∀ k, (s.tasks k).drain.ending = true → s.tokenCancelled k = true) : Arming s where
  armed := fun ha => absurd (harmed.symm.trans ha) (by simp)
  busy := fun _ => harmed
  stored := fun k hk => by simp [hk, ControlPc.sessionStored] at hcontrol
  enabled := fun k hk => by simp [hk, ControlPc.sessionStored] at hcontrol
  spawned := fun k hk => by simp [hk, ControlPc.sessionStored] at hcontrol
  idle := fun hk he hr => absurd ((hidle hk hr).symm.trans he) (by simp)
  off := hoff
  ending := hending

/-- A `start` that finds discovery on: it was armed before. -/
theorem Arming.running (h : Arming s) (hcontrol : s.control = .idle) (henabled : s.enabled = true)
    (hroot : s.rootCancelled = false) : Arming { s with armed := true } where
  armed := fun _ => h.armed (h.idle hcontrol henabled hroot)
  busy := fun hb => absurd hcontrol hb
  stored := h.stored
  enabled := h.enabled
  spawned := h.spawned
  idle := fun _ _ _ => rfl
  off := h.off
  ending := h.ending

theorem Arming.unarmed (h : Arming s) (henabled : s.enabled = false) : s.armed = false := by
  cases harmed : s.armed with
  | false => rfl
  | true => exact absurd (henabled.symm.trans (h.armed harmed).1) (by simp)

/-- What holds of the tasks but one, and of that one. -/
theorem Arming.ending_update (h : Arming s) {j : Nat} {t : SessionTask}
    (htasks : s'.tasks = Function.update s.tasks j t) (hroot : s'.rootCancelled = s.rootCancelled)
    (ht : t.drain.ending = true → (s'.rootCancelled || t.cancelled) = true) (k : Nat)
    (hk : (s'.tasks k).drain.ending = true) : s'.tokenCancelled k = true := by
  by_cases hkey : k = j
  · subst hkey
    rw [htasks, Function.update_self] at hk
    rw [tokenCancelled, htasks, Function.update_self]
    exact ht hk
  · rw [htasks, Function.update_of_ne hkey] at hk
    rw [tokenCancelled, htasks, Function.update_of_ne hkey, hroot]
    exact h.ending k hk

/-- One store of `start` or `stop`. -/
theorem Arming.control (h : Arming s) (hok : s.control.returning = true → s.rootCancelled = false)
    (hs : s.controlStep s.control = some s') : Arming s' := by
  have hbusy : s.control ≠ .idle → s.armed = false := h.busy
  cases hc : s.control with
  | idle => rw [hc] at hs; exact absurd hs (by simp [controlStep])
  | starting =>
    rw [hc] at hs hbusy
    obtain rfl := Option.some.inj hs
    have harmed := hbusy (by simp)
    refine ⟨fun ha => absurd (harmed.symm.trans ha) (by simp), fun _ => harmed, fun k hk => ?_,
      fun _ hk => absurd hk (by simp), fun _ hk => absurd hk (by simp), fun hk => absurd hk (by simp),
      fun hk => absurd hk (by simp), h.ending_update rfl rfl fun hk => absurd hk (by simp [DrainPc.ending])⟩
    obtain rfl : s.started = k := by simpa using hk
    exact ⟨⟨rfl, by simp⟩, by simp⟩
  | stored j =>
    rw [hc] at hs hbusy
    obtain rfl := Option.some.inj hs
    have harmed := hbusy (by simp)
    refine ⟨fun ha => absurd (harmed.symm.trans ha) (by simp), fun _ => harmed, fun _ hk => absurd hk (by simp),
      fun k hk => ?_, fun _ hk => absurd hk (by simp), fun hk => absurd hk (by simp),
      fun hk => absurd hk (by simp), h.ending⟩
    obtain rfl : j = k := by simpa using hk
    exact ⟨rfl, h.stored j hc⟩
  | enabled j =>
    rw [hc] at hs hbusy
    obtain rfl := Option.some.inj hs
    have harmed := hbusy (by simp)
    refine ⟨fun ha => absurd (harmed.symm.trans ha) (by simp), fun _ => harmed, fun _ hk => absurd hk (by simp),
      fun _ hk => absurd hk (by simp), fun k hk => ?_, fun hk => absurd hk (by simp),
      fun hk => absurd hk (by simp), h.ending_update rfl rfl fun hk => absurd hk (by simp [DrainPc.ending])⟩
    obtain rfl : j = k := by simpa using hk
    obtain ⟨henabled, hstores, -⟩ := h.enabled j hc
    exact ⟨henabled, ⟨hstores.1, by simpa [setDrain, setTask] using hstores.2⟩,
      fun _ => by simp [setDrain, setTask, DrainPc.live]⟩
  | spawned j =>
    rw [hc] at hs hok
    obtain rfl := Option.some.inj hs
    obtain ⟨henabled, hstores, hlive⟩ := h.spawned j hc
    have hroot := hok rfl
    exact ⟨fun _ => ⟨henabled, hroot, j, hstores, hlive hroot⟩, fun hb => absurd rfl hb,
      fun _ hk => absurd hk (by simp), fun _ hk => absurd hk (by simp), fun _ hk => absurd hk (by simp),
      fun _ _ _ => rfl, fun hk => absurd hk (by simp), h.ending⟩
  | stopping =>
    rw [hc] at hs hbusy
    have harmed := hbusy (by simp)
    simp only [controlStep] at hs
    split at hs
    · obtain rfl := Option.some.inj hs
      exact .of_unstored harmed rfl (fun hk => absurd hk (by simp)) (fun hk => absurd hk (by simp)) h.ending
    · next j _ =>
      obtain rfl := Option.some.inj hs
      exact .of_unstored harmed rfl (fun hk => absurd hk (by simp)) (fun hk => absurd hk (by simp))
        (h.ending_update rfl rfl fun _ => by simp)
  | cancelled =>
    rw [hc] at hs hbusy
    obtain rfl := Option.some.inj hs
    exact .of_unstored (hbusy (by simp)) rfl (fun hk => absurd hk (by simp)) (fun _ => rfl) h.ending
  | disabled =>
    rw [hc] at hs hbusy
    obtain rfl := Option.some.inj hs
    have hoff := h.off (.inr hc)
    exact .of_unstored (hbusy (by simp)) rfl (fun _ _ => hoff) (fun _ => hoff) h.ending

/-- The end of a flush. After the last one the task of the stored session is over only when its token
is cancelled. -/
theorem Arming.write (h : Arming s) {k : Nat} {last : Bool} {rows : List ProcessAccessRow} (table : ProcessAccess)
    (hdrain : (s.tasks k).drain = .write last rows) :
    Arming { s.setDrain k (if last then .returned else .loop) with processAccess := table } := by
  refine h.goesOn rfl rfl rfl rfl rfl (h.goesOn_update rfl rfl (fun hd => ?_) (fun _ htoken => ?_) fun hd => ?_)
  · exact absurd (hdrain.symm.trans hd) (by simp)
  · cases last with
    | false => rfl
    | true => exact absurd (htoken.symm.trans (h.ending k (by rw [hdrain]; rfl))) (by simp)
  · cases last <;> exact absurd hd (by simp [DrainPc.ending])

/-- The epilogue's first write. -/
theorem Arming.disable (h : Arming s) {k : Nat} (harmed : s.armed = false)
    (hcontrol : s.control.enabledStored = false) (hdrain : (s.tasks k).drain = .returned) :
    Arming { s.setDrain k .disabled with enabled := false } := by
  refine ⟨fun ha => absurd (harmed.symm.trans ha) (by simp), fun _ => harmed, fun j hj => ?_,
    fun j hj => ?_, fun j hj => ?_, fun _ he => absurd he (by simp), fun _ => rfl,
    h.ending_update rfl rfl fun hk => absurd hk (by simp [DrainPc.ending])⟩
  · -- the session that is stored is not spawned, so another one ends
    obtain ⟨hstores, hunspawned⟩ := h.stored j hj
    have hne : j ≠ k := by
      intro e
      rw [e, hdrain] at hunspawned
      exact absurd hunspawned (by simp)
    simpa [Stores, setDrain, setTask, Function.update_of_ne hne] using And.intro hstores hunspawned
  · have hj' : s.control = .enabled j := hj
    simp [hj', ControlPc.enabledStored] at hcontrol
  · have hj' : s.control = .spawned j := hj
    simp [hj', ControlPc.enabledStored] at hcontrol

/-- The epilogue's second write. -/
theorem Arming.clear (h : Arming s) (k : Nat) (harmed : s.armed = false)
    (hcontrol : s.control.sessionStored = false) : Arming { s.setDrain k .ended with session := none } := by
  refine .of_unstored harmed hcontrol (fun hidle hroot => ?_) h.off
    (h.ending_update rfl rfl fun hk => absurd hk (by simp [DrainPc.ending]))
  cases henabled : s.enabled with
  | false => exact henabled
  | true => exact absurd (harmed.symm.trans (h.idle hidle henabled hroot)) (by simp)

/-- A step that is undisturbed keeps the promise. -/
theorem Arming.step (h : Arming s) (hok : s.Undisturbed a) (hs : Discovery.step cfg s a = some s') :
    Arming s' := by
  cases moves_of_step hs with
  | advance secs | checked thread c | unloaded thread | loaded thread c hsession =>
    exact h.goesOn rfl rfl rfl rfl rfl (h.goesOn_rfl rfl)
  | unchecked thread c => exact h
  | cancelRoot => exact h.cancelRoot
  | running hcontrol henabled => exact h.running hcontrol henabled (hok henabled)
  | lockStart hcontrol henabled =>
    exact .of_unstored (h.unarmed henabled) rfl (fun _ _ => henabled) (fun _ => henabled) h.ending
  | lockStop hcontrol henabled =>
    exact .of_unstored rfl rfl (fun hc => absurd hc (by simp)) (fun hc => absurd hc (by simp)) h.ending
  | stopped hcontrol henabled =>
    exact .of_unstored rfl (congrArg ControlPc.sessionStored hcontrol) (fun _ _ => henabled) h.off h.ending
  | control hs => exact h.control hok hs
  | credit proc hcaller => exact h.credit ..
  | flush hdrain htoken =>
    refine h.goesOn rfl rfl rfl rfl rfl (h.goesOn_update rfl rfl (fun hd => ?_) (fun _ _ => rfl) htoken)
    exact absurd (hdrain.symm.trans hd) (by simp)
  | swap hdrain hkey =>
    refine h.goesOn rfl rfl rfl rfl rfl (h.goesOn_update rfl rfl (fun hd => ?_) (fun _ _ => rfl) fun hd => ?_)
    · exact absurd (hdrain.symm.trans hd) (by simp)
    · exact h.ending _ (by rw [hdrain]; exact hd)
  | collected hdrain =>
    refine h.goesOn rfl rfl rfl rfl rfl (h.goesOn_update rfl rfl (fun hd => ?_) (fun _ _ => rfl) fun hd => ?_)
    · exact absurd (hdrain.symm.trans hd) (by simp)
    · exact h.ending _ (by rw [hdrain]; exact hd)
  | write written hdrain => exact h.write _ hdrain
  | disable hdrain => exact h.disable hok.1 hok.2 hdrain
  | clear hdrain => exact h.clear _ hok.1 hok.2

theorem arming_init (table : ProcessAccess) (now : Nat) : Arming (init table now) :=
  .of_unstored rfl rfl (fun _ _ => rfl) (fun _ => rfl) fun _ hk => absurd hk (by simp [init, DrainPc.ending])

/-- In every interleaving of `start`, `stop` and the tasks in which no task of an ended session writes
over what a `start` has stored, discovery stays armed. -/
theorem stays_armed (cfg : DiscoveryConfig) (table : ProcessAccess) (now : Nat) {actions : List DiscoveryAction}
    {t : Discovery} (hrun : run (Discovery.step cfg) (init table now) actions = some t)
    (hok : Along (Discovery.step cfg) Undisturbed (init table now) actions) : t.StaysArmed :=
  (run_invariant_along Arming (fun _ _ _ h ha hs => h.step ha hs) hrun hok (arming_init table now)).staysArmed

/-- An epilogue's write while discovery is armed breaks the promise at once. -/
theorem disturbed_disarms (harmed : s.armed = true) (hs : Discovery.step cfg s a = some s')
    (h : (∃ k, a = .disable k) ∨ ∃ k, a = .clear k) : ¬ s'.StaysArmed := by
  intro hstays
  rcases h with ⟨k, rfl⟩ | ⟨k, rfl⟩
  · cases moves_of_step hs
    exact absurd (hstays harmed).1 (by simp)
  · cases moves_of_step hs
    obtain ⟨-, j, hsession, -⟩ := hstays harmed
    exact absurd hsession (by simp)

section Restarted

def quiet : DiscoveryConfig := ⟨512, 300, ⟨[], []⟩⟩

def startCall : List DiscoveryAction := [.lockStart, .control, .control, .control, .control]
def stopCall : List DiscoveryAction := [.lockStop, .control, .control, .control]

/-- A session of no operations ends. -/
def finish (k : Nat) : List DiscoveryAction := [.flush k true, .collected k, .write k 0, .disable k, .clear k]

/-- The first session has ended when the second starts. -/
theorem restarted_stays_armed : ∃ t,
    run (step quiet) (init ∅ 0) (startCall ++ stopCall ++ finish 0 ++ startCall) = some t ∧
      t.armed = true ∧ t.StaysArmed := by
  have hok : Along (step quiet) Undisturbed (init ∅ 0) (startCall ++ stopCall ++ finish 0 ++ startCall) := by
    decide
  exact ⟨_, rfl, rfl, stays_armed quiet ∅ 0 rfl hok⟩

/-- The first session ends when the second has started. -/
theorem old_epilogue_disarms : ∃ t,
    run (step quiet) (init ∅ 0) (startCall ++ stopCall ++ startCall ++ finish 0) = some t ∧
      ¬ t.StaysArmed := by
  refine ⟨_, rfl, fun h => ?_⟩
  exact absurd (h rfl).1 (by decide)

end Restarted

end Discovery

end FsCache
