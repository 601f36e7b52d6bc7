import FsCache.Engine

/- What `check_on_hit` checks.

   A hit is revalidated when it is processed, and it is processed when the access filter
   lets it through. On its way it can be lost: it is below the size floor, it joins the entry
   of an earlier miss, or its entry is cancelled. `hits_revalidated` says that a run in which no
   step loses a hit revalidates every hit, at the latest at a tick `min_access_secs` after the
   Close. `unread_hit_unchecked` is a run that loses one. -/

namespace FsCache
open Lib

namespace Engine

variable {cfg : EngineConfig} {s s' : Engine} {a : EngineAction}

/-- A validation of the path of the handle has been submitted since its open. -/
def Validated (s : Engine) (h : Notified) : Prop := .submitValidation h.path ∈ s.calls.drop h.mark

/-- Every hit that was closed has been validated, and with an access filter, after the tick that
comes late enough. -/
def Revalidated (cfg : EngineConfig) (s : Engine) : Prop :=
  ∀ h t, (h, t) ∈ s.closed → h.isHit = true →
    (0 < cfg.minAccessSecs → t + cfg.minAccess ≤ s.lastTick) → s.Validated h

/-- The step loses no hit: not below the size floor, not to the entry of a miss, and not with an
entry that is cancelled. -/
def KeepsHits (cfg : EngineConfig) (s : Engine) : EngineAction → Prop
  | .opened _ p isHit fileSize =>
    isHit = true → cfg.passesSizeFloor fileSize = true ∧
      (0 < cfg.minAccessSecs → ∀ entry ∈ s.pending.lookup p, entry.event.kind = .hit)
  | .closed fh n fileSize =>
    ∀ h ∈ s.handleOf fh, ∀ entry ∈ s.pending.lookup h.path,
      entry.openHandles ≤ 1 → entry.event.kind = .hit →
        fullyConsumed (closeOne entry n) fileSize = true
  | .tick | .elapse _ => True

instance (cfg : EngineConfig) (s : Engine) (a : EngineAction) : Decidable (KeepsHits cfg s a) :=
  match a with
  | .opened _ p isHit fileSize =>
    inferInstanceAs (Decidable (isHit = true → cfg.passesSizeFloor fileSize = true ∧
      (0 < cfg.minAccessSecs → ∀ entry ∈ s.pending.lookup p, entry.event.kind = .hit)))
  | .closed fh n fileSize =>
    inferInstanceAs (Decidable (∀ h ∈ s.handleOf fh, ∀ entry ∈ s.pending.lookup h.path,
      entry.openHandles ≤ 1 → entry.event.kind = .hit →
        fullyConsumed (closeOne entry n) fileSize = true))
  | .tick | .elapse _ => isTrue trivial

/-- The entry that a hit waits in. -/
def WaitsIn (s : Engine) (h : Notified) : Prop :=
  ∃ entry, s.pending.lookup h.path = some entry ∧ entry.event = .hit h.path ∧
    entry.insertedAt ≤ h.openedAt

/-- The engine has been told of the handle. -/
def Told (s : Engine) (h : Notified) : Prop := h ∈ s.handles ∨ ∃ t, (h, t) ∈ s.closed

/-- No hit is lost: each has been validated, or waits in an entry that is not due yet. -/
structure Kept (cfg : EngineConfig) (s : Engine) : Prop where
  tick : s.lastTick ≤ s.now
  entry : ∀ p entry, s.pending.lookup p = some entry →
    0 < cfg.minAccessSecs ∧ entry.insertedAt ≤ s.now ∧
      s.lastTick < entry.insertedAt + cfg.minAccess ∧ entry.event.relativePath = p
  told : ∀ h, s.Told h → h.openedAt ≤ s.now ∧ h.mark ≤ s.calls.length ∧
    (h.isHit = true → s.Validated h ∨ s.WaitsIn h)
  closed : ∀ h t, (h, t) ∈ s.closed → h.openedAt ≤ t

instance (s : Engine) (h : Notified) : Decidable (s.Validated h) :=
  inferInstanceAs (Decidable (_ ∈ _))

theorem eq_hit {event : AccessEvent} (hkind : event.kind = .hit) :
    event = .hit event.relativePath := by
  cases event
  cases hkind
  rfl

theorem validated_of_mem {es : List AccessEvent} {h : Notified} (hcheck : cfg.checkOnHit = true)
    (hcalls : s'.calls = s.calls ++ es.flatMap (process cfg)) (hmark : h.mark ≤ s.calls.length)
    (he : .hit h.path ∈ es) : s'.Validated h := by
  have hcall : .submitValidation h.path ∈ process cfg (.hit h.path) := by
    simp [process, AccessEvent.hit, hcheck]
  rw [Validated, hcalls, List.drop_append_of_le_length hmark]
  exact List.mem_append_right _ (List.mem_flatMap.mpr ⟨_, he, hcall⟩)

/-- A hit that is not lost is not lost in the step, if its entry stays or is promoted. -/
theorem Kept.still (hk : Kept cfg s) (hcheck : cfg.checkOnHit = true) {es : List AccessEvent}
    (hcalls : s'.calls = s.calls ++ es.flatMap (process cfg)) {h : Notified} (ht : s.Told h)
    (hhit : h.isHit = true)
    (hentry : ∀ entry, s.pending.lookup h.path = some entry → entry.event = .hit h.path →
      WaitsOn s'.pending h.path entry ∨ entry.event ∈ es) :
    s'.Validated h ∨ s'.WaitsIn h := by
  obtain ⟨-, hmark, hkept⟩ := hk.told h ht
  rcases hkept hhit with hvalid | ⟨entry, he, hevent, hle⟩
  · refine .inl ?_
    rw [Validated, hcalls, List.drop_append]
    exact List.mem_append_left _ hvalid
  · rcases hentry entry he hevent with ⟨entry', he', hevent', hsame⟩ | hpromoted
    · exact .inr ⟨entry', he', hevent'.trans hevent, hsame ▸ hle⟩
    · exact .inl (validated_of_mem hcheck hcalls hmark (hevent ▸ hpromoted))

/-- What an entry is after an open or a Close: as before but for its counters, or new. -/
def Continues (cfg : EngineConfig) (s : Engine) (pending : Pending) : Prop :=
  ∀ p entry', pending.lookup p = some entry' →
    (∃ entry, s.pending.lookup p = some entry ∧ entry'.event = entry.event ∧
      entry'.insertedAt = entry.insertedAt) ∨
    (0 < cfg.minAccessSecs ∧ entry'.insertedAt = s.now ∧ entry'.event.relativePath = p)

theorem continues_insert {p : RelPath} {entry : PendingEntry}
    (h : (∃ entry₀, s.pending.lookup p = some entry₀ ∧ entry.event = entry₀.event ∧
        entry.insertedAt = entry₀.insertedAt) ∨
      (0 < cfg.minAccessSecs ∧ entry.insertedAt = s.now ∧ entry.event.relativePath = p)) :
    Continues cfg s (s.pending.insert p entry) := by
  intro q entry' he
  rw [Map.lookup_insert_if] at he
  split at he
  · next hq =>
    obtain rfl := Option.some.inj he
    exact hq ▸ h
  · exact .inl ⟨entry', he, rfl, rfl⟩

theorem continues_erase (p : RelPath) : Continues cfg s (s.pending.erase p) := by
  intro q entry' he
  rw [Map.lookup_erase_if] at he
  split at he
  · exact absurd he (by simp)
  · exact .inl ⟨entry', he, rfl, rfl⟩

theorem continues_opened {p : RelPath} {isHit : Bool} {fileSize : Option Nat}
    {r : Pending × List AccessEvent} (hr : Opens cfg s.pending s.now fileSize p isHit r) :
    Continues cfg s r.1 := by
  cases hr with
  | skipped | passed => exact fun q entry he => .inl ⟨entry, he, rfl, rfl⟩
  | joined hsize hmin he => exact continues_insert (.inl ⟨_, he, rfl, rfl⟩)
  | made hsize hmin he => exact continues_insert (.inr ⟨hmin, rfl, AccessEvent.ofOpen_path p isHit⟩)

theorem continues_closed {p : RelPath} {n : Nat} {fileSize : Option Nat}
    {r : Pending × List AccessEvent} (hr : Closes s.pending fileSize p n r) : Continues cfg s r.1 := by
  cases hr with
  | passed => exact fun q entry he => .inl ⟨entry, he, rfl, rfl⟩
  | counted he hopen => exact continues_insert (.inl ⟨_, he, rfl, rfl⟩)
  | consumed | cancelled => exact continues_erase p

/-- The entries stay what they have to be. -/
theorem Kept.entries (hk : Kept cfg s) (hnow : s'.now = s.now) (htick : s'.lastTick = s.lastTick)
    (hc : Continues cfg s s'.pending) (p : RelPath) (entry : PendingEntry)
    (he : s'.pending.lookup p = some entry) :
    0 < cfg.minAccessSecs ∧ entry.insertedAt ≤ s'.now ∧
      s'.lastTick < entry.insertedAt + cfg.minAccess ∧ entry.event.relativePath = p := by
  rw [hnow, htick]
  rcases hc p entry he with ⟨entry₀, he₀, hevent, hins⟩ | ⟨hmin, hins, hpath⟩
  · rw [hevent, hins]
    exact hk.entry p entry₀ he₀
  · have hlong : 0 < cfg.minAccess := Nat.mul_pos hmin (by decide)
    have hlast := hk.tick
    exact ⟨hmin, by omega, by omega, hpath⟩

theorem Kept.opened (hk : Kept cfg s) (hcheck : cfg.checkOnHit = true) {fh : Nat} {p : RelPath}
    {isHit : Bool} {fileSize : Option Nat} {r : Pending × List AccessEvent}
    (hr : Opens cfg s.pending s.now fileSize p isHit r)
    (hok : KeepsHits cfg s (.opened fh p isHit fileSize)) (hs' : s' = { s.filtered cfg r with
      handles := ⟨fh, p, isHit, s.now, s.calls.length, !cfg.passesSizeFloor fileSize⟩ :: s.handles
      mixed := Function.update s.mixed p (s.mixes cfg p fileSize) }) : Kept cfg s' := by
  have hcalls : s'.calls = s.calls ++ r.2.flatMap (process cfg) := by rw [hs']; rfl
  have hpending : s'.pending = r.1 := by rw [hs']; rfl
  have hnow : s'.now = s.now := by rw [hs']; rfl
  have htick : s'.lastTick = s.lastTick := by rw [hs']; rfl
  have hclosed : s'.closed = s.closed := by rw [hs']; rfl
  have htold : ∀ h, s'.Told h →
      h = ⟨fh, p, isHit, s.now, s.calls.length, !cfg.passesSizeFloor fileSize⟩ ∨ s.Told h := by
    intro h ht
    rcases ht with hm | ⟨t, hm⟩
    · rw [hs'] at hm
      exact (List.mem_cons.mp hm).imp_right .inl
    · exact .inr (.inr ⟨t, hclosed ▸ hm⟩)
  refine ⟨hnow ▸ htick ▸ hk.tick, ?_, fun h ht => ?_, fun h t hm => hk.closed h t (hclosed ▸ hm)⟩
  · exact hk.entries hnow htick (hpending ▸ continues_opened hr)
  rcases htold h ht with rfl | ht
  · -- the handle of this open: its hit is asked about now, or waits in the entry made or joined
    refine ⟨Nat.le_of_eq hnow.symm, by rw [hcalls, List.length_append]; exact Nat.le_add_right _ _, ?_⟩
    intro hhit
    obtain rfl : isHit = true := hhit
    obtain ⟨hfloor, hjoin⟩ := hok rfl
    cases hr with
    | skipped hsize => exact absurd (hfloor.symm.trans hsize) (by simp)
    | passed => exact .inl (validated_of_mem hcheck hcalls (Nat.le_refl _) List.mem_cons_self)
    | @joined entry₀ hsize hmin he₀ =>
      obtain ⟨-, hins, -, hpath⟩ := hk.entry p entry₀ he₀
      refine .inr ⟨{ entry₀ with openHandles := entry₀.openHandles + 1 }, ?_, ?_, hins⟩
      · rw [hpending, Map.lookup_insert_if, if_pos rfl]
      · rw [← hpath]
        exact eq_hit (hjoin hmin entry₀ he₀)
    | made =>
      exact .inr ⟨_, by rw [hpending, Map.lookup_insert_if, if_pos rfl], rfl, Nat.le_refl _⟩
  · obtain ⟨hopen, hmark, -⟩ := hk.told h ht
    refine ⟨hnow ▸ hopen, by rw [hcalls, List.length_append]; exact Nat.le_add_right_of_le hmark, ?_⟩
    intro hhit
    exact hk.still hcheck hcalls ht hhit fun entry he _ => .inl (hpending ▸ hr.waits he)

theorem Kept.close (hk : Kept cfg s) (hcheck : cfg.checkOnHit = true) {h₀ : Notified}
    (hm₀ : h₀ ∈ s.handles) {n : Nat} {fileSize : Option Nat} {r : Pending × List AccessEvent}
    (hr : Closes s.pending fileSize h₀.path n r)
    (hok : ∀ entry, s.pending.lookup h₀.path = some entry → entry.openHandles ≤ 1 →
      entry.event.kind = .hit → fullyConsumed (closeOne entry n) fileSize = true)
    (hs' : s' = { s.filtered cfg r with
      handles := s.handles.erase h₀, closed := (h₀, s.now) :: s.closed }) : Kept cfg s' := by
  have hcalls : s'.calls = s.calls ++ r.2.flatMap (process cfg) := by rw [hs']; rfl
  have hpending : s'.pending = r.1 := by rw [hs']; rfl
  have hnow : s'.now = s.now := by rw [hs']; rfl
  have htick : s'.lastTick = s.lastTick := by rw [hs']; rfl
  have hclosed : ∀ h t, (h, t) ∈ s'.closed → h = h₀ ∧ t = s.now ∨ (h, t) ∈ s.closed := by
    intro h t hm
    rw [hs'] at hm
    exact (List.mem_cons.mp hm).imp_left Prod.mk.inj
  have htold : ∀ h, s'.Told h → s.Told h := by
    intro h ht
    rcases ht with hm | ⟨t, hm⟩
    · rw [hs'] at hm
      exact .inl (List.mem_of_mem_erase hm)
    · rcases hclosed h t hm with ⟨rfl, -⟩ | hm
      · exact .inl hm₀
      · exact .inr ⟨t, hm⟩
  refine ⟨hnow ▸ htick ▸ hk.tick, ?_, fun h ht => ?_, fun h t hm => ?_⟩
  · exact hk.entries hnow htick (hpending ▸ continues_closed hr)
  · obtain ⟨hopen, hmark, -⟩ := hk.told h (htold h ht)
    refine ⟨hnow ▸ hopen, by rw [hcalls, List.length_append]; exact Nat.le_add_right_of_le hmark, ?_⟩
    intro hhit
    refine hk.still hcheck hcalls (htold h ht) hhit fun entry he hevent => ?_
    rw [hpending]
    rcases hr.waits he with hwaits | hpromoted | ⟨hp, hlast, hread⟩
    · exact .inl hwaits
    · exact .inr hpromoted
    · -- a cancelled entry is not one of a hit
      rw [hp] at he
      exact absurd ((hok entry he hlast (by rw [hevent]; rfl)).symm.trans hread) (by simp)
  · rcases hclosed h t hm with ⟨rfl, rfl⟩ | hm
    · exact (hk.told h (.inl hm₀)).1
    · exact hk.closed h t hm

theorem Kept.ticked (hk : Kept cfg s) (hcheck : cfg.checkOnHit = true)
    (hs' : s' = { s.filtered cfg (checkTick cfg s.pending s.now) with lastTick := s.now }) :
    Kept cfg s' := by
  have hcalls : s'.calls = s.calls ++ (checkTick cfg s.pending s.now).2.flatMap (process cfg) := by
    rw [hs']; rfl
  have hpending : s'.pending = (checkTick cfg s.pending s.now).1 := by rw [hs']; rfl
  have hnow : s'.now = s.now := by rw [hs']; rfl
  have htick : s'.lastTick = s.now := by rw [hs']
  have hclosed : s'.closed = s.closed := by rw [hs']; rfl
  have htold : ∀ h, s'.Told h → s.Told h := by
    intro h ht
    rw [hs'] at ht
    exact ht
  refine ⟨Nat.le_of_eq (htick.trans hnow.symm), fun p entry he => ?_, fun h ht => ?_,
    fun h t hm => hk.closed h t (hclosed ▸ hm)⟩
  · -- what is left was not ready
    rw [hpending, lookup_checkTick, Option.filter_eq_some_iff] at he
    obtain ⟨hmin, hins, -, hpath⟩ := hk.entry p entry he.1
    have hlate : ¬ entry.insertedAt + cfg.minAccess ≤ s.now := by simpa [ready] using he.2
    exact ⟨hmin, hnow ▸ hins, by omega, hpath⟩
  · obtain ⟨hopen, hmark, -⟩ := hk.told h (htold h ht)
    refine ⟨hnow ▸ hopen, by rw [hcalls, List.length_append]; exact Nat.le_add_right_of_le hmark, ?_⟩
    intro hhit
    exact hk.still hcheck hcalls (htold h ht) hhit fun entry he _ => hpending ▸ checkTick_waits he

theorem Kept.step (hk : Kept cfg s) (hcheck : cfg.checkOnHit = true) (hok : KeepsHits cfg s a)
    (hs : step cfg s a = some s') : Kept cfg s' := by
  cases move_of_step hs with
  | opened hfree hr => exact hk.opened hcheck hr hok rfl
  | closed hh hr =>
    exact hk.close hcheck (mem_of_handleOf hh) hr (fun entry he => hok _ hh entry he) rfl
  | tick => exact hk.ticked hcheck rfl
  | elapse nanos =>
    refine ⟨Nat.le_add_right_of_le hk.tick, fun p entry he => ?_, fun h ht => ?_, hk.closed⟩
    · obtain ⟨hmin, hins, hrest⟩ := hk.entry p entry he
      exact ⟨hmin, Nat.le_add_right_of_le hins, hrest⟩
    · obtain ⟨hopen, hrest⟩ := hk.told h ht
      exact ⟨Nat.le_add_right_of_le hopen, hrest⟩

theorem kept_start : Kept cfg start where
  tick := Nat.le_refl 0
  entry := fun p entry he => absurd he (by simp [start])
  told := fun h ht => absurd ht (by simp [Told, start])
  closed := fun h t hm => absurd hm (by simp [start])

theorem Kept.revalidated (hk : Kept cfg s) : Revalidated cfg s := by
  intro h t hm hhit hlate
  obtain ⟨-, -, hkept⟩ := hk.told h (.inr ⟨t, hm⟩)
  refine (hkept hhit).resolve_right ?_
  -- the entry would have been taken by that tick
  intro hwaits
  obtain ⟨entry, he, -, hle⟩ := hwaits
  obtain ⟨hmin, -, hlast, -⟩ := hk.entry h.path entry he
  have hopen := hk.closed h t hm
  have htick := hlate hmin
  omega

/-- In a run in which no step loses a hit, every hit is validated after it was opened: at once, or
at the tick that comes late enough. -/
theorem hits_revalidated (hcheck : cfg.checkOnHit = true) {as : List EngineAction}
    (hrun : run (step cfg) start as = some s) (hok : Along (step cfg) (KeepsHits cfg) start as) :
    Revalidated cfg s := by
  have hkept : Kept cfg s := by
    refine run_invariant_along (Kept cfg) ?_ hrun hok kept_start
    intro s a s' hk ha hs
    exact hk.step hcheck ha hs
  exact hkept.revalidated

section Checking

private def sleeve : RelPath := [⟨[115, 108], Eq.refl true⟩]
private def record : RelPath := [⟨[114, 101], Eq.refl true⟩]

/-- A hit and a miss of another file; the hit stays open for five seconds, and is closed unread. -/
def playing : List EngineAction :=
  [.opened 1 sleeve true (some 9), .opened 2 record false (some 9), .elapse 5000000000, .tick,
    .closed 1 0 (some 9), .elapse 5000000000, .tick]

theorem playing_revalidated : ∃ s, run (step ⟨true, 2, 0⟩) start playing = some s ∧
    Revalidated ⟨true, 2, 0⟩ s := by
  have hok : Along (step ⟨true, 2, 0⟩) (KeepsHits ⟨true, 2, 0⟩) start playing := by decide
  exact ⟨_, rfl, hits_revalidated rfl rfl hok⟩

/-- A hit that is closed unread before the threshold is not checked. -/
theorem unread_hit_unchecked : ∃ s,
    run (step ⟨true, 2, 0⟩) start [.opened 1 sleeve true (some 9), .closed 1 0 (some 9),
      .elapse 5000000000, .tick] = some s ∧ ¬ Revalidated ⟨true, 2, 0⟩ s := by
  refine ⟨_, rfl, fun h => ?_⟩
  have hvalid := h ⟨1, sleeve, true, 0, 0, false⟩ 0 (by decide) rfl (by decide)
  exact absurd hvalid (by decide)

end Checking

end Engine

end FsCache
