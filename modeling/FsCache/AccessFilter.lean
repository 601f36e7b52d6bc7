import FsCache.Engine

/- The handles that the access filter counts.

   A pending entry counts the opens that made it or joined it, and every Close of its path
   counts against it. So the Close of a handle that was opened before the entry was made, or
   below the size floor, takes the entry away while a handle it counted is still open.

   `mixed` marks the entries of which that can happen. `handles_counted` says that a run
   cancels no entry with a handle open, and leaves no handle unpromoted across a tick that
   comes late enough, exactly if it cancels no mixed entry, and a handle below the size floor
   does not stay open for so long. `reopened_cancelled` is a run that does. -/

namespace FsCache
open Lib

namespace Engine

variable {cfg : EngineConfig} {s s' : Engine} {a : EngineAction}

/-- The preset has been asked about an open of the path, after the first `mark` calls. -/
def Asked (s : Engine) (mark : Nat) (p : RelPath) : Prop :=
  ∃ c ∈ s.calls.drop mark, c = .onMiss p ∨ c = .onHit p

instance (s : Engine) (mark : Nat) (p : RelPath) : Decidable (s.Asked mark p) :=
  inferInstanceAs (Decidable (∃ c ∈ _, _))

/-- What the filter is for: an entry is cancelled only when every handle of its path is closed,
and at a tick the path of a handle that has been open for long enough is promoted. -/
def CountsHandles (cfg : EngineConfig) (s : Engine) (a : EngineAction) : Prop :=
  ∀ s', step cfg s a = some s' →
    (∀ p, (s.pending.lookup p).isSome = true → s'.pending.lookup p = none →
      ¬ s'.Asked s.calls.length p → ∀ h ∈ s'.handles, h.path ≠ p) ∧
    (a = .tick → ∀ h ∈ s'.handles, h.openedAt + cfg.minAccess ≤ s'.now → s'.Asked h.mark h.path)

/-- No mixed entry is cancelled, and a handle that was below the size floor is not open for so
long, unless its path was promoted meanwhile or is now. -/
def CancelsUnmixed (cfg : EngineConfig) (s : Engine) : EngineAction → Prop
  | .closed fh n fileSize =>
    ∀ h ∈ s.handleOf fh, ∀ entry ∈ s.pending.lookup h.path,
      entry.openHandles ≤ 1 → fullyConsumed (closeOne entry n) fileSize = false →
        s.mixed h.path = false
  | .tick =>
    ∀ h ∈ s.handles, h.skipped = true → h.openedAt + cfg.minAccess ≤ s.now →
      s.Asked h.mark h.path ∨ (s.pending.lookup h.path).any (ready cfg s.now) = true
  | _ => True

instance (cfg : EngineConfig) (s : Engine) (a : EngineAction) : Decidable (CancelsUnmixed cfg s a) :=
  match a with
  | .closed fh n fileSize =>
    inferInstanceAs (Decidable (∀ h ∈ s.handleOf fh, ∀ entry ∈ s.pending.lookup h.path,
      entry.openHandles ≤ 1 → fullyConsumed (closeOne entry n) fileSize = false →
        s.mixed h.path = false))
  | .tick =>
    inferInstanceAs (Decidable (∀ h ∈ s.handles, h.skipped = true → h.openedAt + cfg.minAccess ≤ s.now →
      s.Asked h.mark h.path ∨ (s.pending.lookup h.path).any (ready cfg s.now) = true))
  | .opened .. | .elapse .. => isTrue trivial

/-! ## What the filter keeps -/

/-- How many handles of the path are open. -/
def openOn (s : Engine) (p : RelPath) : Nat := s.handles.countP fun h => h.path = p

/-- An entry counts the open handles of its path, less those that went uncounted. -/
structure Counted (s : Engine) (p : RelPath) (entry : PendingEntry) : Prop where
  event : ∃ isHit, entry.event = .ofOpen p isHit
  pos : 0 < entry.openHandles
  inserted : entry.insertedAt ≤ s.now
  count : ∃ missed, s.openOn p = entry.openHandles + missed ∧ (missed = 0 ↔ s.mixed p = false)

structure Filtering (s : Engine) : Prop where
  entry : ∀ p entry, s.pending.lookup p = some entry → s.Counted p entry
  mark : ∀ h ∈ s.handles, h.mark ≤ s.calls.length
  /-- what was not skipped is pending since its open at the latest, or was promoted since -/
  waits : ∀ h ∈ s.handles, h.skipped = false →
    s.Asked h.mark h.path ∨
      ∃ entry, s.pending.lookup h.path = some entry ∧ entry.insertedAt ≤ h.openedAt

theorem asked_of_append {mark : Nat} {p : RelPath} {more : List EngineCall}
    (hcalls : s'.calls = s.calls ++ more) (h : s.Asked mark p) : s'.Asked mark p := by
  obtain ⟨c, hc, hp⟩ := h
  refine ⟨c, ?_, hp⟩
  rw [hcalls, List.drop_append]
  exact List.mem_append_left _ hc

/-- A promotion asks. -/
theorem asked_of_mem {mark : Nat} {p : RelPath} {es : List AccessEvent} {e : AccessEvent}
    (hcalls : s'.calls = s.calls ++ es.flatMap (process cfg)) (hmark : mark ≤ s.calls.length)
    (he : e ∈ es) (hevent : ∃ isHit, e = .ofOpen p isHit) : s'.Asked mark p := by
  obtain ⟨isHit, rfl⟩ := hevent
  have hcall : ∃ c ∈ process cfg (.ofOpen p isHit), c = .onMiss p ∨ c = .onHit p := by
    cases isHit with
    | true => exact ⟨.onHit p, by simp [process, AccessEvent.ofOpen, AccessEvent.hit], .inr rfl⟩
    | false => exact ⟨.onMiss p, by simp [process, AccessEvent.ofOpen, AccessEvent.miss], .inl rfl⟩
  obtain ⟨c, hc, hp⟩ := hcall
  refine ⟨c, ?_, hp⟩
  rw [hcalls, List.drop_append_of_le_length hmark]
  exact List.mem_append_right _ (List.mem_flatMap.mpr ⟨_, he, hc⟩)

/-- An open asks about its own path. -/
theorem path_of_mem_process {p q : RelPath} {isHit : Bool} {c : EngineCall}
    (hc : c ∈ process cfg (.ofOpen p isHit)) (hq : c = .onMiss q ∨ c = .onHit q) : q = p := by
  cases isHit with
  | true =>
    have hcall : c = .submitValidation p ∨ c = .onHit p := by
      rcases List.mem_append.mp hc with hc | hc
      · split at hc
        · exact .inl (List.mem_singleton.mp hc)
        · exact absurd hc (by simp)
      · exact .inr (List.mem_singleton.mp hc)
    rcases hcall with rfl | rfl
    · exact absurd hq (by simp)
    · simpa [eq_comm] using hq
  | false =>
    have hcall : c = .onMiss p := by simpa [process, AccessEvent.ofOpen, AccessEvent.miss] using hc
    subst hcall
    simpa [eq_comm] using hq

theorem openOn_cons {h : Notified} (hl : s'.handles = h :: s.handles) (p : RelPath) :
    s'.openOn p = if h.path = p then s.openOn p + 1 else s.openOn p := by
  simp only [openOn, hl, List.countP_cons, decide_eq_true_eq]
  split <;> rfl

theorem openOn_erase {h : Notified} (hl : s'.handles = s.handles.erase h) (hm : h ∈ s.handles)
    (p : RelPath) : s.openOn p = if h.path = p then s'.openOn p + 1 else s'.openOn p := by
  have hperm : s.openOn p = (h :: s.handles.erase h).countP fun h => h.path = p :=
    (List.perm_cons_erase hm).countP_eq _
  rw [hperm, List.countP_cons, openOn, hl]
  simp only [decide_eq_true_eq]
  split <;> rfl

theorem forall_step {P : Engine → Prop} (h : step cfg s a = some s') :
    (∀ t, step cfg s a = some t → P t) ↔ P s' := by
  constructor
  · intro hall
    exact hall s' h
  · intro hp t ht
    obtain rfl := Option.some.inj (h.symm.trans ht)
    exact hp

/-- An entry that is left alone, and all of whose path is. -/
theorem Counted.same {p : RelPath} {entry : PendingEntry} (hc : s.Counted p entry)
    (hnow : s.now ≤ s'.now) (hopen : s'.openOn p = s.openOn p) (hmixed : s'.mixed p = s.mixed p) :
    s'.Counted p entry where
  event := hc.event
  pos := hc.pos
  inserted := Nat.le_trans hc.inserted hnow
  count := by
    rw [hopen, hmixed]
    exact hc.count

/-- The Close of the last counted handle is the last of all exactly when none went uncounted. -/
theorem Counted.last_iff {p : RelPath} {entry : PendingEntry} (hc : s.Counted p entry)
    (hlast : entry.openHandles ≤ 1) (hopen : s.openOn p = s'.openOn p + 1) :
    s.mixed p = false ↔ ∀ h ∈ s'.handles, h.path ≠ p := by
  obtain ⟨-, hpos, -, missed, hcount, hmissed⟩ := hc
  have hnone : missed = 0 ↔ s'.openOn p = 0 := by omega
  rw [← hmissed, hnone, openOn, List.countP_eq_zero]
  simp only [decide_eq_true_eq, ne_eq]

/-- A handle that waited still does: what was asked stays asked, and its entry is there. -/
theorem Filtering.still_waits (hf : s.Filtering) {more : List EngineCall}
    (hcalls : s'.calls = s.calls ++ more) {h : Notified} (hm : h ∈ s.handles) (hskip : h.skipped = false)
    (hentry : ∀ entry, s.pending.lookup h.path = some entry →
      WaitsOn s'.pending h.path entry ∨ s'.Asked h.mark h.path) :
    s'.Asked h.mark h.path ∨
      ∃ entry, s'.pending.lookup h.path = some entry ∧ entry.insertedAt ≤ h.openedAt := by
  rcases hf.waits h hm hskip with hasked | ⟨entry, he, hle⟩
  · exact .inl (asked_of_append hcalls hasked)
  · rcases hentry entry he with ⟨entry', he', -, hsame⟩ | hasked
    · exact .inr ⟨entry', he', hsame ▸ hle⟩
    · exact .inl hasked

theorem Filtering.opened (hf : s.Filtering) (hmin : 0 < cfg.minAccessSecs) {fh : Nat} {p : RelPath}
    {isHit : Bool} {fileSize : Option Nat} {r : Pending × List AccessEvent}
    (hr : Opens cfg s.pending s.now fileSize p isHit r) :
    Filtering { s.filtered cfg r with
      handles := ⟨fh, p, isHit, s.now, s.calls.length, !cfg.passesSizeFloor fileSize⟩ :: s.handles
      mixed := Function.update s.mixed p (s.mixes cfg p fileSize) } := by
  generalize hs' : ({ s.filtered cfg r with
      handles := ⟨fh, p, isHit, s.now, s.calls.length, !cfg.passesSizeFloor fileSize⟩ :: s.handles
      mixed := Function.update s.mixed p (s.mixes cfg p fileSize) } : Engine) = s'
  have hcalls : s'.calls = s.calls ++ r.2.flatMap (process cfg) := by rw [← hs']; rfl
  have hnow : s'.now = s.now := by rw [← hs']; rfl
  have hpending : s'.pending = r.1 := by rw [← hs']; rfl
  have hcons : s'.handles =
      ⟨fh, p, isHit, s.now, s.calls.length, !cfg.passesSizeFloor fileSize⟩ :: s.handles := by
    rw [← hs']
  have hhandles : ∀ h ∈ s'.handles,
      h = ⟨fh, p, isHit, s.now, s.calls.length, !cfg.passesSizeFloor fileSize⟩ ∨ h ∈ s.handles := by
    intro h hm
    rw [hcons] at hm
    exact List.mem_cons.mp hm
  have hopen : s'.openOn p = s.openOn p + 1 := (openOn_cons hcons p).trans (if_pos rfl)
  have hmixed : s'.mixed p = s.mixes cfg p fileSize := by
    rw [← hs']
    exact Function.update_self p _ s.mixed
  have hother : ∀ q entry, q ≠ p → s.pending.lookup q = some entry → s'.Counted q entry := by
    intro q entry hq he
    refine (hf.entry q entry he).same (Nat.le_of_eq hnow.symm) ?_ ?_
    · exact (openOn_cons hcons q).trans (if_neg (Ne.symm hq))
    · rw [← hs']
      exact Function.update_of_ne hq _ s.mixed
  have hmark : ∀ h ∈ s'.handles, h.mark ≤ s'.calls.length := by
    intro h hm
    rw [hcalls, List.length_append]
    rcases hhandles h hm with rfl | hm
    · exact Nat.le_add_right _ _
    · exact Nat.le_trans (hf.mark h hm) (Nat.le_add_right _ _)
  have hwaits : ∀ h ∈ s.handles, h.skipped = false → s'.Asked h.mark h.path ∨
      ∃ entry, s'.pending.lookup h.path = some entry ∧ entry.insertedAt ≤ h.openedAt := by
    intro h hm hskip
    exact hf.still_waits hcalls hm hskip fun entry he => .inl (hpending ▸ hr.waits he)
  cases hr with
  | passed hsize hzero => omega
  | skipped hsize =>
    have hmix : s.mixes cfg p fileSize = true := by simp [mixes, hsize]
    refine ⟨fun q entry he => ?_, hmark, fun h hm hskip => ?_⟩
    · rw [hpending] at he
      by_cases hq : q = p
      · subst hq
        obtain ⟨hevent, hpos, hins, missed, hcount, -⟩ := hf.entry q entry he
        refine ⟨hevent, hpos, hnow ▸ hins, missed + 1, by rw [hopen, hcount]; rfl, ?_⟩
        rw [hmixed, hmix]
        simp
      · exact hother q entry hq he
    · rcases hhandles h hm with rfl | hm
      · exact absurd hskip (by simp [hsize])
      · exact hwaits h hm hskip
  | @joined entry₀ hsize hpos he₀ =>
    have hmix : s.mixes cfg p fileSize = s.mixed p := by simp [mixes, hsize, he₀]
    have hlookup : ∀ q, s'.pending.lookup q =
        if q = p then some { entry₀ with openHandles := entry₀.openHandles + 1 }
        else s.pending.lookup q := by
      intro q
      rw [hpending, Map.lookup_insert_if]
    refine ⟨fun q entry he => ?_, hmark, fun h hm hskip => ?_⟩
    · rw [hlookup] at he
      by_cases hq : q = p
      · subst hq
        rw [if_pos rfl] at he
        obtain rfl := Option.some.inj he
        obtain ⟨hevent, -, hins, missed, hcount, hmissed⟩ := hf.entry q entry₀ he₀
        refine ⟨hevent, Nat.succ_pos _, hnow ▸ hins, missed, ?_, ?_⟩
        · rw [hopen, hcount, Nat.add_right_comm]
        · rw [hmixed, hmix]
          exact hmissed
      · rw [if_neg hq] at he
        exact hother q entry hq he
    · rcases hhandles h hm with rfl | hm
      · exact .inr ⟨_, (hlookup p).trans (if_pos rfl), (hf.entry p entry₀ he₀).inserted⟩
      · exact hwaits h hm hskip
  | made hsize hpos he₀ =>
    have hmix : s.mixes cfg p fileSize = s.handles.any fun h => h.path = p := by
      simp [mixes, hsize, he₀]
    have hlookup : ∀ q, s'.pending.lookup q =
        if q = p then some ⟨.ofOpen p isHit, s.now, 1, 0⟩ else s.pending.lookup q := by
      intro q
      rw [hpending, Map.lookup_insert_if]
    refine ⟨fun q entry he => ?_, hmark, fun h hm hskip => ?_⟩
    · rw [hlookup] at he
      by_cases hq : q = p
      · subst hq
        rw [if_pos rfl] at he
        obtain rfl := Option.some.inj he
        refine ⟨⟨isHit, rfl⟩, Nat.one_pos, Nat.le_of_eq hnow.symm, s.openOn q, ?_, ?_⟩
        · rw [hopen, Nat.add_comm]
        · rw [hmixed, hmix, openOn, List.countP_eq_zero, List.any_eq_false]
      · rw [if_neg hq] at he
        exact hother q entry hq he
    · rcases hhandles h hm with rfl | hm
      · exact .inr ⟨_, (hlookup p).trans (if_pos rfl), Nat.le_refl _⟩
      · exact hwaits h hm hskip

theorem Filtering.closed (hf : s.Filtering) {h₀ : Notified} (hm₀ : h₀ ∈ s.handles) {n : Nat}
    {fileSize : Option Nat} {r : Pending × List AccessEvent}
    (hr : Closes s.pending fileSize h₀.path n r)
    (hok : ∀ entry, s.pending.lookup h₀.path = some entry → entry.openHandles ≤ 1 →
      fullyConsumed (closeOne entry n) fileSize = false → s.mixed h₀.path = false) :
    Filtering { s.filtered cfg r with
      handles := s.handles.erase h₀, closed := (h₀, s.now) :: s.closed } := by
  generalize hs' : ({ s.filtered cfg r with
      handles := s.handles.erase h₀, closed := (h₀, s.now) :: s.closed } : Engine) = s'
  generalize hp : h₀.path = p at hr hok
  have hcalls : s'.calls = s.calls ++ r.2.flatMap (process cfg) := by rw [← hs']; rfl
  have hpending : s'.pending = r.1 := by rw [← hs']; rfl
  have hnow : s'.now = s.now := by rw [← hs']; rfl
  have hmixed : s'.mixed = s.mixed := by rw [← hs']; rfl
  have herase : s'.handles = s.handles.erase h₀ := by rw [← hs']
  have hsub : ∀ h ∈ s'.handles, h ∈ s.handles := by
    intro h hm
    rw [herase] at hm
    exact List.mem_of_mem_erase hm
  have hopen : s.openOn p = s'.openOn p + 1 := (openOn_erase herase hm₀ p).trans (if_pos hp)
  have hother : ∀ q entry, q ≠ p → s.pending.lookup q = some entry → s'.Counted q entry := by
    intro q entry hq he
    refine (hf.entry q entry he).same (Nat.le_of_eq hnow.symm) ?_ (by rw [hmixed])
    exact ((openOn_erase herase hm₀ q).trans (if_neg fun e => hq (e.symm.trans hp))).symm
  have hmark : ∀ h ∈ s'.handles, h.mark ≤ s'.calls.length := by
    intro h hm
    rw [hcalls, List.length_append]
    exact Nat.le_trans (hf.mark h (hsub h hm)) (Nat.le_add_right _ _)
  have hwaits : ∀ h ∈ s'.handles, h.skipped = false → s'.Asked h.mark h.path ∨
      ∃ entry, s'.pending.lookup h.path = some entry ∧ entry.insertedAt ≤ h.openedAt := by
    intro h hm hskip
    refine hf.still_waits hcalls (hsub h hm) hskip fun entry he => ?_
    rw [hpending]
    rcases hr.waits he with hwaits | hpromoted | ⟨hq, hlast, hread⟩
    · exact .inl hwaits
    · exact .inr (asked_of_mem hcalls (hf.mark h (hsub h hm)) hpromoted (hf.entry _ entry he).event)
    · -- the entry was not mixed, so this was the last handle
      rw [hq] at he
      exact absurd hq (((hf.entry p entry he).last_iff hlast hopen).mp (hok entry he hlast hread) h hm)
  have hgone : s'.pending = s.pending.erase p → ∀ q entry, s'.pending.lookup q = some entry →
      s'.Counted q entry := by
    intro hgone q entry he
    rw [hgone, Map.lookup_erase_if] at he
    split at he
    · exact absurd he (by simp)
    · next hq => exact hother q entry hq he
  cases hr with
  | passed he₀ =>
    refine ⟨fun q entry he => ?_, hmark, hwaits⟩
    rw [hpending] at he
    refine hother q entry ?_ he
    intro hq
    rw [hq, he₀] at he
    exact absurd he (by simp)
  | @counted entry₀ he₀ hmore =>
    have hlookup : ∀ q, s'.pending.lookup q =
        if q = p then some (closeOne entry₀ n) else s.pending.lookup q := by
      intro q
      rw [hpending, Map.lookup_insert_if]
    refine ⟨fun q entry he => ?_, hmark, hwaits⟩
    rw [hlookup] at he
    by_cases hq : q = p
    · subst hq
      rw [if_pos rfl] at he
      obtain rfl := Option.some.inj he
      obtain ⟨hevent, -, hins, missed, hcount, hmissed⟩ := hf.entry q entry₀ he₀
      refine ⟨hevent, ?_, hnow ▸ hins, missed, ?_, by rw [hmixed]; exact hmissed⟩
      · show 0 < entry₀.openHandles - 1
        omega
      · show s'.openOn q = entry₀.openHandles - 1 + missed
        omega
    · rw [if_neg hq] at he
      exact hother q entry hq he
  | consumed | cancelled => exact ⟨hgone hpending, hmark, hwaits⟩

theorem Filtering.tick (hf : s.Filtering) :
    Filtering { s.filtered cfg (checkTick cfg s.pending s.now) with lastTick := s.now } := by
  generalize hs' : ({ s.filtered cfg (checkTick cfg s.pending s.now) with lastTick := s.now } : Engine) = s'
  have hcalls : s'.calls = s.calls ++ (checkTick cfg s.pending s.now).2.flatMap (process cfg) := by
    rw [← hs']; rfl
  have hpending : s'.pending = (checkTick cfg s.pending s.now).1 := by rw [← hs']; rfl
  have hhandles : s'.handles = s.handles := by rw [← hs']; rfl
  refine ⟨fun q entry he => ?_, fun h hm => ?_, fun h hm hskip => ?_⟩
  · rw [hpending, lookup_checkTick, Option.filter_eq_some_iff] at he
    refine (hf.entry q entry he.1).same (by rw [← hs']; exact Nat.le_refl _) ?_ (by rw [← hs']; rfl)
    rw [openOn, hhandles, openOn]
  · rw [hcalls, List.length_append]
    exact Nat.le_trans (hf.mark h (hhandles ▸ hm)) (Nat.le_add_right _ _)
  · refine hf.still_waits hcalls (hhandles ▸ hm) hskip fun entry he => ?_
    rw [hpending]
    refine (checkTick_waits he).imp_right fun hpromoted => ?_
    exact asked_of_mem hcalls (hf.mark h (hhandles ▸ hm)) hpromoted (hf.entry _ entry he).event

theorem Filtering.step (hf : s.Filtering) (hmin : 0 < cfg.minAccessSecs) (hok : CancelsUnmixed cfg s a)
    (hs : step cfg s a = some s') : s'.Filtering := by
  cases move_of_step hs with
  | opened hfree hr => exact hf.opened hmin hr
  | closed hh hr => exact hf.closed (mem_of_handleOf hh) hr fun entry he => hok _ hh entry he
  | tick hmin' => exact hf.tick
  | elapse nanos =>
    refine ⟨fun q entry he => ?_, hf.mark, hf.waits⟩
    exact (hf.entry q entry he).same (Nat.le_add_right _ _) rfl rfl

theorem filtering_start : start.Filtering where
  entry := fun p entry he => absurd he (by simp [start])
  mark := fun h hm => absurd hm (by simp [start])
  waits := fun h hm => absurd hm (by simp [start])

/-! ## What one step does -/

/-- A Close cancels rightly exactly when the entry it cancels is not mixed. -/
theorem closed_iff (hf : s.Filtering) {h₀ : Notified} (hm₀ : h₀ ∈ s.handles) {n : Nat}
    {fileSize : Option Nat} {r : Pending × List AccessEvent}
    (hr : Closes s.pending fileSize h₀.path n r) (hs' : s' = { s.filtered cfg r with
      handles := s.handles.erase h₀, closed := (h₀, s.now) :: s.closed }) :
    (∀ p, (s.pending.lookup p).isSome = true → s'.pending.lookup p = none →
      ¬ s'.Asked s.calls.length p → ∀ h ∈ s'.handles, h.path ≠ p) ↔
    ∀ entry, s.pending.lookup h₀.path = some entry → entry.openHandles ≤ 1 →
      fullyConsumed (closeOne entry n) fileSize = false → s.mixed h₀.path = false := by
  generalize hp : h₀.path = p at hr
  have hpending : s'.pending = r.1 := by rw [hs']; rfl
  have hcalls : s'.calls = s.calls ++ r.2.flatMap (process cfg) := by rw [hs']; rfl
  have herase : s'.handles = s.handles.erase h₀ := by rw [hs']
  have hopen : s.openOn p = s'.openOn p + 1 := (openOn_erase herase hm₀ p).trans (if_pos hp)
  constructor
  · intro hright entry he hlast hunread
    -- the entry is cancelled, and nothing is asked
    refine ((hf.entry p entry he).last_iff hlast hopen).mpr (hright p ?_ ?_ ?_)
    · rw [he]
      rfl
    · rw [hpending, hr.cancels he hlast hunread, Map.lookup_erase_if, if_pos rfl]
    · intro hask
      obtain ⟨c, hc, -⟩ := hask
      rw [hcalls, hr.cancels he hlast hunread] at hc
      exact absurd hc (by simp)
  · intro hok q hsome hgone hask
    obtain ⟨entry, he⟩ := Option.isSome_iff_exists.mp hsome
    rcases hr.waits he with ⟨entry', he', -⟩ | hpromoted | ⟨hq, hlast, hunread⟩
    · rw [hpending, he'] at hgone
      exact absurd hgone (by simp)
    · exact absurd (asked_of_mem hcalls (Nat.le_refl _) hpromoted (hf.entry q entry he).event) hask
    · subst hq
      exact ((hf.entry q entry he).last_iff hlast hopen).mp (hok entry he hlast hunread)

/-- A tick leaves no handle behind exactly when it leaves none that was skipped. -/
theorem tick_iff (hf : s.Filtering) (hs' : s' = { s.filtered cfg (checkTick cfg s.pending s.now) with
      lastTick := s.now }) :
    (∀ h ∈ s'.handles, h.openedAt + cfg.minAccess ≤ s'.now → s'.Asked h.mark h.path) ↔
    CancelsUnmixed cfg s .tick := by
  have hcalls : s'.calls = s.calls ++ (checkTick cfg s.pending s.now).2.flatMap (process cfg) := by
    rw [hs']; rfl
  have hhandles : s'.handles = s.handles := by rw [hs']; rfl
  have hnow : s'.now = s.now := by rw [hs']; rfl
  -- what was asked, or is ready, has been asked after the tick, and nothing else
  have hasked : ∀ h ∈ s.handles, s'.Asked h.mark h.path ↔
      s.Asked h.mark h.path ∨ (s.pending.lookup h.path).any (ready cfg s.now) = true := by
    intro h hm
    constructor
    · intro hask
      obtain ⟨c, hc, hcp⟩ := hask
      rw [hcalls, List.drop_append_of_le_length (hf.mark h hm)] at hc
      rcases List.mem_append.mp hc with hc | hc
      · exact .inl ⟨c, hc, hcp⟩
      · obtain ⟨e, he, hce⟩ := List.mem_flatMap.mp hc
        obtain ⟨q, entry, hq, hr, rfl⟩ := mem_checkTick.mp he
        obtain ⟨isHit, hevent⟩ := (hf.entry q entry hq).event
        have hpath : h.path = q := by
          rw [hevent] at hce
          exact path_of_mem_process hce hcp
        exact .inr ((Option.any_eq_true _ _).mpr ⟨entry, hpath ▸ hq, hr⟩)
    · intro hor
      rcases hor with hask | hready
      · exact asked_of_append hcalls hask
      · obtain ⟨entry, he, hr⟩ := (Option.any_eq_true _ _).mp hready
        exact asked_of_mem hcalls (hf.mark h hm) (mem_checkTick.mpr ⟨h.path, entry, he, hr, rfl⟩)
          (hf.entry _ entry he).event
  rw [hhandles, hnow]
  constructor
  · intro hall h hm _ hlong
    exact (hasked h hm).mp (hall h hm hlong)
  · intro hok h hm hlong
    refine (hasked h hm).mpr ?_
    cases hskip : h.skipped with
    | true => exact hok h hm hskip hlong
    | false =>
      refine (hf.waits h hm hskip).imp_right fun ⟨entry, he, hle⟩ => ?_
      refine (Option.any_eq_true _ _).mpr ⟨entry, he, decide_eq_true ?_⟩
      exact Nat.le_trans (Nat.add_le_add_right hle _) hlong

theorem countsHandles_iff (hf : s.Filtering) (hmin : 0 < cfg.minAccessSecs) (a : EngineAction) :
    CountsHandles cfg s a ↔ CancelsUnmixed cfg s a := by
  cases a with
  | opened fh p isHit fileSize =>
    refine iff_of_true (fun s' hs => ⟨fun q hsome hnone => ?_, fun e => EngineAction.noConfusion e⟩) trivial
    cases move_of_step hs with
    | opened hfree hr =>
      obtain ⟨entry, he⟩ := Option.isSome_iff_exists.mp hsome
      obtain ⟨entry', he', -⟩ := hr.waits he
      exact absurd (he'.symm.trans hnone) (by simp)
  | closed fh n fileSize =>
    cases hh : s.handleOf fh with
    | none =>
      refine iff_of_true (fun s' hs => ?_) fun h hm => ?_
      · exact absurd hs (by simp [step, hh])
      · exact absurd (hh.symm.trans hm) (by simp)
    | some h₀ =>
      obtain ⟨s', hs⟩ : ∃ s', step cfg s (.closed fh n fileSize) = some s' := by
        simp only [step, hh]
        exact ⟨_, rfl⟩
      have hs' := hs
      simp only [step, hh, Option.some.injEq] at hs'
      have hclosed := closed_iff hf (mem_of_handleOf hh) (closes_receive h₀.path n) hs'.symm
      rw [CountsHandles, forall_step hs]
      simp only [CancelsUnmixed, hh, Option.mem_some_iff, forall_eq']
      exact ⟨fun h => hclosed.mp h.1, fun h => ⟨hclosed.mpr h, fun e => EngineAction.noConfusion e⟩⟩
  | tick =>
    obtain ⟨s', hs⟩ : ∃ s', step cfg s .tick = some s' := by
      simp only [step, hmin, if_true]
      exact ⟨_, rfl⟩
    have hs' := hs
    simp only [step, hmin, if_true, Option.some.injEq] at hs'
    rw [CountsHandles, forall_step hs, ← tick_iff hf hs'.symm]
    refine ⟨fun h => h.2 rfl, fun h => ⟨fun q hsome hnone hask => ?_, fun _ => h⟩⟩
    -- the entry is gone, so it was ready, and was promoted
    obtain ⟨entry, he⟩ := Option.isSome_iff_exists.mp hsome
    have hpending : s'.pending = (checkTick cfg s.pending s.now).1 := by
      rw [← hs']
      rfl
    have hcalls : s'.calls = s.calls ++ (checkTick cfg s.pending s.now).2.flatMap (process cfg) := by
      rw [← hs']
      rfl
    rcases checkTick_waits he with ⟨entry', he', -⟩ | hpromoted
    · rw [hpending, he'] at hnone
      exact absurd hnone (by simp)
    · exact absurd (asked_of_mem hcalls (Nat.le_refl _) hpromoted (hf.entry q entry he).event) hask
  | elapse nanos =>
    refine iff_of_true (fun s' hs => ⟨fun q hsome hnone => ?_, fun e => EngineAction.noConfusion e⟩) trivial
    cases move_of_step hs with
    | elapse => exact absurd hsome (by simp [show s.pending.lookup q = none from hnone])

/-- In a run of the engine, every entry is cancelled with all handles closed and no handle is
left unpromoted, exactly if none that is cancelled is mixed, and none that is left was skipped. -/
theorem handles_counted (hmin : 0 < cfg.minAccessSecs) (as : List EngineAction) :
    Along (step cfg) (CountsHandles cfg) start as ↔ Along (step cfg) (CancelsUnmixed cfg) start as := by
  refine along_congr Filtering ?_ (fun s a hf => countsHandles_iff hf hmin a) filtering_start
  intro s a s' hf hok hs
  exact hf.step hmin ((countsHandles_iff hf hmin a).mp hok) hs

section Counting

private def track : RelPath := [⟨[116, 114], Eq.refl true⟩]

def twoSeconds : EngineConfig := ⟨true, 2, 0⟩

/-- A file is played for five seconds and closed, then opened and closed unread. -/
def listening : List EngineAction :=
  [.opened 1 track false (some 9), .elapse 5000000000, .tick, .closed 1 9 (some 9),
    .opened 2 track false (some 9), .closed 2 0 (some 9)]

theorem listening_counted : Along (step twoSeconds) (CountsHandles twoSeconds) start listening :=
  (handles_counted (by decide) listening).mpr (by decide)

/-- A file is open when its entry is promoted, and opened again: the first handle's Close cancels
the entry of the second, which stays unpromoted. -/
theorem reopened_cancelled :
    ¬ Along (step twoSeconds) (CountsHandles twoSeconds) start
      [.opened 1 track false (some 9), .elapse 5000000000, .tick, .opened 2 track false (some 9),
        .closed 1 0 (some 9), .elapse 5000000000, .tick] := by
  intro h
  have hclose := ((((h.2 _ rfl).2 _ rfl).2 _ rfl).2 _ rfl).1 _ rfl
  exact absurd rfl (hclose.1 track (by decide) (by decide) (by decide)
    ⟨2, track, false, 5000000000, 1, false⟩ (by decide))

end Counting

end Engine

end FsCache
