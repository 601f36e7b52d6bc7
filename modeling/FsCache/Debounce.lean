import Mathlib.Order.Bounds.Defs
import Mathlib.Order.MinMax
import FsCache.Lib.Run
import FsCache.BackingWatch

/- Debouncing (backing_watch.rs): what becomes of the events that are recorded.

   The watcher runs one branch of its loop at a time: it records an event, adds or refreshes
   a watch, or drains the windows that are due and dispatches each of them. A run is any
   sequence of these, until the shutdown. `since` are the events recorded for a key since its
   last dispatch, and `sent` is what was dispatched; nothing reads them.

   `Coalesced`: the open window of a key is the one that these events make, its deadline
   counted from the first of them. What is proved:
     1. `sent_of_tick`: a tick dispatches each key whose window is due, once, and no other.
     2. `dispatched_once`: an event that is recorded is dispatched by the first tick at or
        after the deadline of its window, with what the whole window makes. -/

namespace FsCache
open Lib

/-- An event that was recorded. -/
structure Noted where
  entry : WdEntry
  name : Name
  severity : Severity
  time : Nat
  deriving DecidableEq

structure Dispatched where
  key : DebounceKey
  severity : Severity
  parentIno : Nat
  parentRel : RelPath
  deriving DecidableEq

/-- The highest severity of some events, the first of which has `severity`. -/
def worst (severity : Severity) (events : List Noted) : Severity :=
  events.foldl (fun severity e => max severity e.severity) severity

/-- The window that some events make. -/
def windowOf (cfg : WatchConfig) : List Noted → Option PendingEvent
  | [] => none
  | first :: events =>
    some ⟨first.time + cfg.debounceMs, worst first.severity events, first.entry.ino, first.entry.relPath⟩

structure Debouncing extends BackingWatch where
  since : DebounceKey → List Noted
  sent : List Dispatched

inductive WatchAction where
  | event (ev : InotifyEvent) (now : Nat)
  | tick (now : Nat) (due : List (DebounceKey × PendingEvent))
  | touch (relPath : RelPath) (ino : Nat) (added : Option Nat)

def dispatchOf (e : DebounceKey × PendingEvent) : Dispatched :=
  ⟨e.1, e.2.severity, e.2.parentIno, e.2.parentRel⟩

namespace Debouncing

def start : Debouncing := { BackingWatch.new with since := fun _ => [], sent := [] }

def record (s : Debouncing) (e : Noted) : DebounceKey → List Noted :=
  Function.update s.since (e.entry.ino, e.name) (s.since (e.entry.ino, e.name) ++ [e])

def step (cfg : WatchConfig) (s : Debouncing) : WatchAction → Option Debouncing
  | .event ev now =>
    some { s with
      toBackingWatch := s.handleEvent cfg ev now
      since :=
        match s.source ev with
        | none => s.since
        | some (entry, name) => s.record ⟨entry, name, severityOf ev.mask, now⟩ }
  | .tick now due =>
    if due.isPerm (s.expired now) then
      some { s with
        toBackingWatch := s.drain due
        since := fun key => if key ∈ due.map Prod.fst then [] else s.since key
        sent := s.sent ++ due.map dispatchOf }
    else none
  | .touch relPath ino added => some { s with toBackingWatch := s.touchOrAdd cfg relPath ino added }

/-- What was dispatched for one key. -/
def sentFor (s : Debouncing) (key : DebounceKey) : List Dispatched := s.sent.filter fun d => d.key = key

end Debouncing

/-! ## Windows -/

theorem worst_append (severity : Severity) (events : List Noted) (e : Noted) :
    worst severity (events ++ [e]) = max (worst severity events) e.severity := by
  simp [worst]

/-- The severity of a window is that of one of its events, and none of them has a higher one. -/
theorem isGreatest_worst (first : Noted) (events : List Noted) :
    IsGreatest {x | ∃ e ∈ first :: events, e.severity = x} (worst first.severity events) := by
  induction events using List.reverseRecOn with
  | nil =>
    refine ⟨⟨first, by simp, rfl⟩, ?_⟩
    rintro x ⟨e, he, rfl⟩
    rw [List.mem_singleton.mp he]
    exact le_refl _
  | append_singleton events e ih =>
    rw [worst_append]
    constructor
    · rcases max_choice (worst first.severity events) e.severity with h | h
      · obtain ⟨d, hd, hs⟩ := ih.1
        exact ⟨d, List.mem_append_left [e] hd, hs.trans h.symm⟩
      · exact ⟨e, List.mem_append_right (first :: events) (List.mem_singleton.mpr rfl), h.symm⟩
    · rintro x ⟨d, hd, rfl⟩
      rcases List.mem_append.mp (show d ∈ (first :: events) ++ [e] from hd) with hd | hd
      · exact le_trans (ih.2 ⟨d, hd, rfl⟩) (le_max_left _ _)
      · rw [List.mem_singleton.mp hd]
        exact le_max_right _ _

theorem windowOf_append {cfg : WatchConfig} {events : List Noted} {p : PendingEvent}
    (h : windowOf cfg events = some p) (e : Noted) :
    windowOf cfg (events ++ [e]) = some { p with severity := max p.severity e.severity } := by
  cases events with
  | nil => exact absurd h (by simp [windowOf])
  | cons first events =>
    obtain rfl := Option.some.inj h
    rw [List.cons_append, windowOf, worst_append]

/-- Of a list in which each key is once, the part of one key. -/
theorem filter_key {l : List (DebounceKey × PendingEvent)} (hnd : (l.map Prod.fst).Nodup)
    (key : DebounceKey) :
    (l.map dispatchOf).filter (fun d => d.key = key) =
      ((l.find? fun e => e.1 = key).map dispatchOf).toList := by
  induction l with
  | nil => rfl
  | cons e l ih =>
    rw [List.map_cons, List.nodup_cons] at hnd
    rw [List.map_cons, List.filter_cons, List.find?_cons]
    by_cases he : e.1 = key
    · have hrest : (l.map dispatchOf).filter (fun d => d.key = key) = [] := by
        refine List.filter_eq_nil_iff.mpr fun d hd => ?_
        obtain ⟨x, hx, rfl⟩ := List.mem_map.mp hd
        intro hkey
        have hkey : x.1 = key := of_decide_eq_true hkey
        exact hnd.1 (List.mem_map.mpr ⟨x, hx, hkey.trans he.symm⟩)
      simp [dispatchOf, he, hrest]
    · simp [dispatchOf, he, ih hnd.2]

namespace Debouncing

variable {cfg : WatchConfig} {s s' : Debouncing} {a : WatchAction}

/-- The open window of each key is the one that its events make. -/
def Coalesced (cfg : WatchConfig) (s : Debouncing) : Prop :=
  ∀ key, s.debounce.lookup key = windowOf cfg (s.since key)

theorem debounce_touchOrAdd (w : BackingWatch) (relPath : RelPath) (ino : Nat) (added : Option Nat) :
    (w.touchOrAdd cfg relPath ino added).debounce = w.debounce := by
  have hevict : (w.evict cfg).debounce = w.debounce := by
    unfold BackingWatch.evict
    split <;> rfl
  unfold BackingWatch.touchOrAdd
  split
  · rfl
  · cases added with
    | none => exact hevict
    | some wd => exact hevict

theorem Coalesced.step (h : s.Coalesced cfg) (hs : step cfg s a = some s') : s'.Coalesced cfg := by
  intro key
  cases a with
  | touch relPath ino added =>
    rw [← Option.some.inj hs]
    show (s.touchOrAdd cfg relPath ino added).debounce.lookup key = windowOf cfg (s.since key)
    rw [debounce_touchOrAdd]
    exact h key
  | event ev now =>
    rw [← Option.some.inj hs]
    simp only [BackingWatch.handleEvent]
    cases hsrc : s.source ev with
    | none => exact h key
    | some src =>
      obtain ⟨entry, name⟩ := src
      simp only [record, Map.lookup_insert_if, Function.update_apply]
      by_cases hkey : key = (entry.ino, name)
      · subst hkey
        rw [if_pos rfl, if_pos rfl, h]
        cases hw : windowOf cfg (s.since (entry.ino, name)) with
        | none =>
          have hnil : s.since (entry.ino, name) = [] := by
            cases hl : s.since (entry.ino, name) with
            | nil => rfl
            | cons first events => rw [hl] at hw; exact absurd hw (by simp [windowOf])
          rw [hnil]
          rfl
        | some p =>
          rw [windowOf_append hw]
          show some (if p.severity < severityOf ev.mask then _ else p) = _
          split
          · next hlt => rw [max_eq_right hlt.le]
          · next hge => rw [max_eq_left (not_lt.mp hge)]
      · rw [if_neg hkey, if_neg hkey]
        exact h key
  | tick now due =>
    simp only [Debouncing.step] at hs
    split at hs
    · rw [← Option.some.inj hs]
      show (s.drain due).debounce.lookup key = windowOf cfg (if key ∈ due.map Prod.fst then [] else s.since key)
      rw [BackingWatch.lookup_drain]
      split
      · rfl
      · exact h key
    · exact absurd hs (by simp)

theorem coalesced_start (cfg : WatchConfig) : start.Coalesced cfg := fun _ => rfl

/-- An event and a tick leave the watches alone. -/
theorem watches_of_event {ev : InotifyEvent} {now : Nat} (hs : step cfg s (.event ev now) = some s') :
    s'.lru = s.lru ∧ s'.wdMap = s.wdMap := by
  rw [← Option.some.inj hs]
  simp only [BackingWatch.handleEvent]
  split <;> exact ⟨rfl, rfl⟩

theorem watches_of_tick {now : Nat} {due : List (DebounceKey × PendingEvent)}
    (hs : step cfg s (.tick now due) = some s') : s'.lru = s.lru ∧ s'.wdMap = s.wdMap := by
  simp only [step] at hs
  split at hs
  · rw [← Option.some.inj hs]
    exact ⟨rfl, rfl⟩
  · exact absurd hs (by simp)

/-- The window of the key is open and due. -/
def Due (cfg : WatchConfig) (s : Debouncing) (now : Nat) (key : DebounceKey) : Prop :=
  ∃ first events, s.since key = first :: events ∧ first.time + cfg.debounceMs ≤ now

/-- A tick dispatches a key whose window is due, once and with what its events make of it. -/
theorem sent_of_tick (h : s.Coalesced cfg) {now : Nat} {due : List (DebounceKey × PendingEvent)}
    (hs : step cfg s (.tick now due) = some s') {key : DebounceKey} {first : Noted} {events : List Noted}
    (hsince : s.since key = first :: events) (hdue : first.time + cfg.debounceMs ≤ now) :
    s'.sentFor key = s.sentFor key ++
        [⟨key, worst first.severity events, first.entry.ino, first.entry.relPath⟩] ∧
      s'.since key = [] := by
  simp only [step] at hs
  split at hs
  · next hperm =>
    have hperm := List.isPerm_iff.mp hperm
    have hnd : (due.map Prod.fst).Nodup := (hperm.map Prod.fst).nodup_iff.mpr (s.nodup_expired now)
    have hwin := h key
    rw [hsince, windowOf] at hwin
    have hmem := hperm.mem_iff.mpr (BackingWatch.mem_expired.mpr ⟨hwin, hdue⟩)
    rw [← Option.some.inj hs]
    refine ⟨?_, if_pos (List.mem_map.mpr ⟨_, hmem, rfl⟩)⟩
    simp only [sentFor, List.filter_append, filter_key hnd]
    congr 1
    cases hfind : due.find? fun e => e.1 = key with
    | none => exact absurd (List.find?_eq_none.mp hfind _ hmem) (by simp)
    | some e =>
      have hkey : e.1 = key := by simpa using List.find?_some hfind
      -- a key is in the list once
      have he := List.inj_on_of_nodup_map hnd (List.mem_of_find?_eq_some hfind) hmem hkey
      rw [he]
      rfl
  · exact absurd hs (by simp)

/-- And leaves every other key alone. -/
theorem sent_of_tick_not_due (h : s.Coalesced cfg) {now : Nat} {due : List (DebounceKey × PendingEvent)}
    (hs : step cfg s (.tick now due) = some s') {key : DebounceKey} (hnot : ¬ s.Due cfg now key) :
    s'.sentFor key = s.sentFor key ∧ s'.since key = s.since key := by
  simp only [step] at hs
  split at hs
  · next hperm =>
    have hperm := List.isPerm_iff.mp hperm
    have hnd : (due.map Prod.fst).Nodup := (hperm.map Prod.fst).nodup_iff.mpr (s.nodup_expired now)
    have hout : ∀ e ∈ due, e.1 ≠ key := by
      rintro ⟨k, p⟩ he rfl
      obtain ⟨hl, hdue⟩ := BackingWatch.mem_expired.mp (hperm.mem_iff.mp he)
      rw [h k] at hl
      cases hsince : s.since k with
      | nil =>
        rw [hsince] at hl
        exact absurd hl (by simp [windowOf])
      | cons first events =>
        rw [hsince] at hl
        rw [← Option.some.inj hl] at hdue
        exact hnot ⟨first, events, hsince, hdue⟩
    rw [← Option.some.inj hs]
    constructor
    · have hfind : due.find? (fun e => e.1 = key) = none := by
        refine List.find?_eq_none.mpr fun e he => ?_
        simpa using hout e he
      simp [sentFor, List.filter_append, filter_key hnd, hfind]
    · refine if_neg fun hm => ?_
      obtain ⟨e, he, hkey⟩ := List.mem_map.mp hm
      exact hout e he hkey
  · exact absurd hs (by simp)

/-! ## From an event to its dispatch -/

/-- On the way to the tick: the window that has `e` is open, and nothing was dispatched. -/
structure Waiting (cfg : WatchConfig) (s₀ : Debouncing) (first e : Noted) (s : Debouncing) : Prop where
  coalesced : s.Coalesced cfg
  head : (s.since (e.entry.ino, e.name)).head? = some first
  mem : e ∈ s.since (e.entry.ino, e.name)
  sent : s.sentFor (e.entry.ino, e.name) = s₀.sentFor (e.entry.ino, e.name)

theorem Waiting.step {s₀ : Debouncing} {first e : Noted} (h : Waiting cfg s₀ first e s)
    (hearly : ∀ t due, a = .tick t due → t < first.time + cfg.debounceMs)
    (hs : step cfg s a = some s') : Waiting cfg s₀ first e s' := by
  have hc := h.coalesced.step hs
  cases a with
  | touch relPath ino added =>
    rw [← Option.some.inj hs] at hc ⊢
    exact ⟨hc, h.head, h.mem, h.sent⟩
  | event ev now =>
    rw [← Option.some.inj hs] at hc ⊢
    cases hsrc : s.source ev with
    | none =>
      simp only [hsrc] at hc ⊢
      exact ⟨hc, h.head, h.mem, h.sent⟩
    | some src =>
      obtain ⟨entry, name⟩ := src
      simp only [hsrc] at hc ⊢
      refine ⟨hc, ?_, ?_, h.sent⟩
      · simp only [record, Function.update_apply]
        split
        · next hkey => rw [← hkey, List.head?_append, h.head, Option.some_or]
        · exact h.head
      · simp only [record, Function.update_apply]
        split
        · next hkey =>
          rw [← hkey]
          exact List.mem_append_left _ h.mem
        · exact h.mem
  | tick t due =>
    have hnot : ¬ s.Due cfg t (e.entry.ino, e.name) := by
      rintro ⟨f, events, hsince, hle⟩
      have hf := h.head
      rw [hsince, List.head?_cons, Option.some.injEq] at hf
      have := hearly t due rfl
      rw [← hf] at this
      omega
    obtain ⟨hsent, hsince⟩ := sent_of_tick_not_due h.coalesced hs hnot
    exact ⟨hc, hsince ▸ h.head, hsince ▸ h.mem, hsent.trans h.sent⟩

/-- An event that is recorded is dispatched once, by the first tick at or after the deadline
of its window, with the highest severity of the window's events and the parent of the first
of them; and a tick dispatches no key whose window is not due. -/
theorem dispatched_once (cfg : WatchConfig) (as cs : List WatchAction) (ev : InotifyEvent)
    (entry : WdEntry) (name : Name) (now t : Nat) (due : List (DebounceKey × PendingEvent))
    (s₀ s₁ s₂ s₃ : Debouncing) (h₀ : run (step cfg) start as = some s₀)
    (hrec : s₀.source ev = some (entry, name)) (h₁ : step cfg s₀ (.event ev now) = some s₁)
    (h₂ : run (step cfg) s₁ cs = some s₂) (h₃ : step cfg s₂ (.tick t due) = some s₃) :
    (∃ first, (s₁.since (entry.ino, name)).head? = some first ∧
      ((∀ t' due', .tick t' due' ∈ cs → t' < first.time + cfg.debounceMs) →
        first.time + cfg.debounceMs ≤ t →
        s₂.sentFor (entry.ino, name) = s₀.sentFor (entry.ino, name) ∧
        ⟨entry, name, severityOf ev.mask, now⟩ ∈ s₂.since (entry.ino, name) ∧
        s₃.since (entry.ino, name) = [] ∧
        ∃ severity, IsGreatest {x | ∃ e ∈ s₂.since (entry.ino, name), e.severity = x} severity ∧
          s₃.sentFor (entry.ino, name) = s₂.sentFor (entry.ino, name) ++
            [⟨(entry.ino, name), severity, first.entry.ino, first.entry.relPath⟩])) ∧
    ∀ key, ¬ s₂.Due cfg t key → s₃.sentFor key = s₂.sentFor key := by
  have hc₀ : s₀.Coalesced cfg :=
    run_invariant (Coalesced cfg) (fun _ _ _ h hs => h.step hs) h₀ (coalesced_start cfg)
  have hc₁ : s₁.Coalesced cfg := hc₀.step h₁
  have hc₂ : s₂.Coalesced cfg := run_invariant (Coalesced cfg) (fun _ _ _ h hs => h.step hs) h₂ hc₁
  refine ⟨?_, fun key hnot => (sent_of_tick_not_due hc₂ h₃ hnot).1⟩
  -- the event is the last of its window
  have hsince₁ : s₁.since (entry.ino, name) =
      s₀.since (entry.ino, name) ++ [⟨entry, name, severityOf ev.mask, now⟩] := by
    rw [← Option.some.inj h₁]
    simp only [hrec, record, Function.update_self]
  have hsent₁ : s₁.sentFor (entry.ino, name) = s₀.sentFor (entry.ino, name) := by
    rw [← Option.some.inj h₁]
    rfl
  obtain ⟨first, hfirst⟩ : ∃ first, (s₁.since (entry.ino, name)).head? = some first := by
    rw [← Option.isSome_iff_exists, hsince₁]
    simp
  refine ⟨first, hfirst, fun hearly hdue => ?_⟩
  have hw₁ : Waiting cfg s₀ first ⟨entry, name, severityOf ev.mask, now⟩ s₁ :=
    ⟨hc₁, hfirst, by rw [hsince₁]; simp, hsent₁⟩
  have hw₂ : Waiting cfg s₀ first ⟨entry, name, severityOf ev.mask, now⟩ s₂ :=
    run_invariant_along (Waiting cfg s₀ first ⟨entry, name, severityOf ev.mask, now⟩)
      (fun _ _ _ h hok hs => h.step hok hs) h₂
      (Along.of_mem fun a ha t' due' e => hearly t' due' (e ▸ ha)) hw₁
  obtain ⟨events, hevents⟩ := List.head?_eq_some_iff.mp hw₂.head
  obtain ⟨hsent₃, hsince₃⟩ := sent_of_tick hc₂ h₃ hevents hdue
  refine ⟨hw₂.sent, hw₂.mem, hsince₃, worst first.severity events, ?_, hsent₃⟩
  rw [hevents]
  exact isGreatest_worst first events

section Example

private def poster : Name := ⟨[112], Eq.refl true⟩

/-- The root is watched, and a file in it is created. -/
private def burst : List WatchAction :=
  [.touch [] 1 (some 7), .event ⟨7, IN_CREATE, some poster⟩ 10]

/-- After the deletion, and before the tick at 3990. -/
private def later : List WatchAction := [.event ⟨7, IN_MODIFY, some poster⟩ 30, .tick 2990 []]

/-- A creation, a deletion and a change of one file are one dispatch. -/
theorem burst_dispatched : ∃ s₃, run (step ⟨4, 3000⟩) start (burst ++
      .event ⟨7, IN_DELETE, some poster⟩ 20 :: later ++
        [.tick 3990 [((1, poster), ⟨3010, .delete, 1, []⟩)]]) = some s₃ ∧
    ∃ severity, s₃.sentFor (1, poster) = [⟨(1, poster), severity, 1, []⟩] := by
  have hruns : ∃ s₀ s₁ s₂ s₃, run (step ⟨4, 3000⟩) start burst = some s₀ ∧
      s₀.source ⟨7, IN_DELETE, some poster⟩ = some (⟨[], 1⟩, poster) ∧
      step ⟨4, 3000⟩ s₀ (.event ⟨7, IN_DELETE, some poster⟩ 20) = some s₁ ∧
      run (step ⟨4, 3000⟩) s₁ later = some s₂ ∧
      step ⟨4, 3000⟩ s₂ (.tick 3990 [((1, poster), ⟨3010, .delete, 1, []⟩)]) = some s₃ ∧
      s₀.sentFor (1, poster) = [] ∧
      (s₁.since (1, poster)).head? = some ⟨⟨[], 1⟩, poster, .createOrMovedIn, 10⟩ :=
    ⟨_, _, _, _, rfl, rfl, rfl, rfl, rfl, rfl, rfl⟩
  obtain ⟨s₀, s₁, s₂, s₃, h₀, hrec, h₁, h₂, h₃, hsent, hhead⟩ := hruns
  obtain ⟨⟨first, hfirst, hdone⟩, -⟩ :=
    dispatched_once ⟨4, 3000⟩ burst later _ _ _ _ _ _ s₀ s₁ s₂ s₃ h₀ hrec h₁ h₂ h₃
  obtain rfl := Option.some.inj (hfirst.symm.trans hhead)
  have hearly : ∀ t' due', WatchAction.tick t' due' ∈ later → t' < 10 + 3000 := by
    intro t' due' hm
    simp only [later, List.mem_cons, reduceCtorEq, false_or, List.not_mem_nil, or_false,
      WatchAction.tick.injEq] at hm
    omega
  obtain ⟨hsent₂, -, -, severity, -, hsent₃⟩ := hdone hearly (by decide)
  refine ⟨s₃, ?_, severity, ?_⟩
  · exact run_append.mpr ⟨s₂, run_append.mpr ⟨s₀, h₀, run_cons.mpr ⟨s₁, h₁, h₂⟩⟩,
      run_cons.mpr ⟨s₃, h₃, rfl⟩⟩
  · rw [hsent₃, hsent₂, hsent]
    rfl

end Example

end Debouncing

end FsCache
