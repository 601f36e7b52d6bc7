import Mathlib.Order.Defs.PartialOrder

/-
  Runs of a labelled, partial transition function.

  A system is a function `step : σ → α → Option σ`: `none` says that the action
  is not enabled. Every choice the environment or the scheduler makes is in the
  action, so a run is a state and a list of actions, and can be evaluated.

    * `run`: the state after a list of actions, when every action was enabled.
    * `Along`: every action of the list, taken in the state it meets, satisfies
      a guard. A claim about "every run whose steps all meet a condition" is a
      claim about every `run` with `Along`.
    * `run_invariant`, `run_invariant_along`: the two induction rules.
    * `Along.of_invariant`: what the invariant implies of each step.
    * `always_iff_along`: an invariant that a step keeps exactly when the step
      meets the guard holds all along a run exactly when every step meets it.
    * `no_loss_iff_along`: nothing has been lost at the end of a run exactly when every
      step meets the guard that it loses nothing.
    * `along_congr`: two guards that agree wherever an invariant holds.
    * `repeats_reach_iff`: one action, repeated, reaches a goal exactly from the
      states that are on the way to it.
    * `reaches_of_rank`: a step that always leads down reaches the goal, whatever
      is chosen on the way.
-/

namespace FsCache.Lib

variable {σ α : Type}

/-- The state after the actions, if each of them was enabled in its turn. -/
def run (step : σ → α → Option σ) : σ → List α → Option σ
  | s, [] => some s
  | s, a :: as => (step s a).bind fun s' => run step s' as

/-- Each action meets `ok` in the state it is taken in. -/
def Along (step : σ → α → Option σ) (ok : σ → α → Prop) : σ → List α → Prop
  | _, [] => True
  | s, a :: as => ok s a ∧ ∀ s', step s a = some s' → Along step ok s' as

variable {step : σ → α → Option σ} {ok : σ → α → Prop}

@[simp] theorem run_nil (s : σ) : run step s [] = some s := rfl

theorem run_cons {s t : σ} {a : α} {as : List α} :
    run step s (a :: as) = some t ↔ ∃ s', step s a = some s' ∧ run step s' as = some t := by
  simp [run, Option.bind_eq_some_iff]

theorem run_append {s t : σ} {as bs : List α} :
    run step s (as ++ bs) = some t ↔ ∃ s', run step s as = some s' ∧ run step s' bs = some t := by
  induction as generalizing s with
  | nil => simp
  | cons a as ih =>
    rw [List.cons_append, run_cons]
    constructor
    · rintro ⟨s₁, h₁, h⟩
      obtain ⟨s₂, h₂, h₃⟩ := ih.mp h
      exact ⟨s₂, run_cons.mpr ⟨s₁, h₁, h₂⟩, h₃⟩
    · rintro ⟨s₂, h, h₃⟩
      obtain ⟨s₁, h₁, h₂⟩ := run_cons.mp h
      exact ⟨s₁, h₁, ih.mpr ⟨s₂, h₂, h₃⟩⟩

theorem along_append {s s' : σ} {as bs : List α} (h : Along step ok s (as ++ bs))
    (hr : run step s as = some s') : Along step ok s as ∧ Along step ok s' bs := by
  induction as generalizing s with
  | nil =>
    rw [run_nil, Option.some.injEq] at hr
    subst hr
    exact ⟨trivial, h⟩
  | cons a as ih =>
    obtain ⟨s₁, h₁, hr⟩ := run_cons.mp hr
    obtain ⟨ha, hrest⟩ := h
    refine ⟨⟨ha, fun s₂ h₂ => ?_⟩, (ih (hrest s₁ h₁) hr).2⟩
    rw [h₁, Option.some.injEq] at h₂
    subst h₂
    exact (ih (hrest s₁ h₁) hr).1

theorem along_cons {s s' : σ} {a : α} {as : List α} (hs : step s a = some s') :
    Along step ok s (a :: as) ↔ ok s a ∧ Along step ok s' as := by
  refine and_congr_right fun _ => ⟨fun h => h s' hs, fun h s₂ h₂ => ?_⟩
  obtain rfl : s' = s₂ := Option.some.inj (hs.symm.trans h₂)
  exact h

instance Along.decidable [∀ s a, Decidable (ok s a)] :
    (s : σ) → (as : List α) → Decidable (Along step ok s as)
  | _, [] => isTrue trivial
  | s, a :: as =>
    match h : step s a with
    | none => decidable_of_iff (ok s a) ⟨fun ha => ⟨ha, fun s' hs => absurd (h.symm.trans hs) (by simp)⟩,
        fun ha => ha.1⟩
    | some s' =>
      have := Along.decidable s' as
      decidable_of_iff (ok s a ∧ Along step ok s' as) (along_cons h).symm

/-- A guard that every action meets. -/
theorem Along.of_forall (h : ∀ s a, ok s a) {s : σ} {as : List α} : Along step ok s as := by
  induction as generalizing s with
  | nil => trivial
  | cons a as ih => exact ⟨h s a, fun _ _ => ih⟩

/-- A guard on the actions alone. -/
theorem Along.of_mem {p : α → Prop} {s : σ} {as : List α} (h : ∀ a ∈ as, p a) :
    Along step (fun _ a => p a) s as := by
  induction as generalizing s with
  | nil => trivial
  | cons a as ih =>
    exact ⟨h a List.mem_cons_self, fun _ _ => ih fun b hb => h b (List.mem_cons_of_mem a hb)⟩

theorem Along.mono {ok' : σ → α → Prop} (himp : ∀ s a, ok s a → ok' s a) {s : σ} {as : List α}
    (h : Along step ok s as) : Along step ok' s as := by
  induction as generalizing s with
  | nil => trivial
  | cons a as ih => exact ⟨himp s a h.1, fun s' hs => ih (h.2 s' hs)⟩

theorem Along.and {ok' : σ → α → Prop} {s : σ} {as : List α} (h : Along step ok s as)
    (h' : Along step ok' s as) : Along step (fun s a => ok s a ∧ ok' s a) s as := by
  induction as generalizing s with
  | nil => trivial
  | cons a as ih => exact ⟨⟨h.1, h'.1⟩, fun s' hs => ih (h.2 s' hs) (h'.2 s' hs)⟩

/-- A property every enabled step keeps holds after every run. -/
theorem run_invariant (I : σ → Prop) (keep : ∀ s a s', I s → step s a = some s' → I s')
    {s t : σ} {as : List α} (h : run step s as = some t) (h0 : I s) : I t := by
  induction as generalizing s with
  | nil =>
    rw [run_nil, Option.some.injEq] at h
    exact h ▸ h0
  | cons a as ih =>
    obtain ⟨s', hs, hr⟩ := run_cons.mp h
    exact ih hr (keep s a s' h0 hs)

/-- A property kept by every enabled step that meets the guard holds after
every run whose steps meet it. -/
theorem run_invariant_along (I : σ → Prop)
    (keep : ∀ s a s', I s → ok s a → step s a = some s' → I s')
    {s t : σ} {as : List α} (h : run step s as = some t) (hok : Along step ok s as) (h0 : I s) :
    I t := by
  induction as generalizing s with
  | nil =>
    rw [run_nil, Option.some.injEq] at h
    exact h ▸ h0
  | cons a as ih =>
    obtain ⟨s', hs, hr⟩ := run_cons.mp h
    exact ih hr (hok.2 s' hs) (keep s a s' h0 hok.1 hs)

/-- What an invariant implies of each step holds all along a run. -/
theorem Along.of_invariant {ok' : σ → α → Prop} (I : σ → Prop)
    (keep : ∀ s a s', I s → ok s a → step s a = some s' → I s')
    (himp : ∀ s a, I s → ok s a → ok' s a) {s : σ} {as : List α} (hok : Along step ok s as)
    (h0 : I s) : Along step ok' s as := by
  induction as generalizing s with
  | nil => trivial
  | cons a as ih =>
    exact ⟨himp s a h0 hok.1, fun s' hs => ih (hok.2 s' hs) (keep s a s' h0 hok.1 hs)⟩

/-- Two guards that agree wherever the steps before met them hold along the same runs. -/
theorem along_congr {ok' : σ → α → Prop} (I : σ → Prop)
    (keep : ∀ s a s', I s → ok s a → step s a = some s' → I s')
    (hiff : ∀ s a, I s → (ok s a ↔ ok' s a)) {s : σ} {as : List α} (h0 : I s) :
    Along step ok s as ↔ Along step ok' s as := by
  constructor
  · intro hok
    exact Along.of_invariant I keep (fun s a hI ha => (hiff s a hI).mp ha) hok h0
  · intro hok
    refine Along.of_invariant I ?_ (fun s a hI ha => (hiff s a hI).mpr ha) hok h0
    intro s a s' hI ha hs
    exact keep s a s' hI ((hiff s a hI).mpr ha) hs

/-- The states a run goes through. -/
theorem along_reached {s₀ s : σ} {cs as : List α} (hcs : run step s₀ cs = some s) :
    Along step (fun u _ => ∃ bs, bs <+: cs ++ as ∧ run step s₀ bs = some u) s as := by
  induction as generalizing s cs with
  | nil => trivial
  | cons a as ih =>
    refine ⟨⟨cs, List.prefix_append cs _, hcs⟩, fun s' hs => ?_⟩
    have hnext : run step s₀ (cs ++ [a]) = some s' :=
      run_append.mpr ⟨s, hcs, run_cons.mpr ⟨s', hs, rfl⟩⟩
    simpa using ih hnext

/-- An invariant that each step keeps exactly when it meets the guard holds in
every state of a run exactly when all its steps meet the guard. `J` is what the
steps keep on the way. -/
theorem always_iff_along (I J : σ → Prop)
    (keep : ∀ s a s', I s → J s → step s a = some s' → J s' ∧ (I s' ↔ ok s a))
    {s t : σ} {as : List α} (h : run step s as = some t) (hI : I s) (hJ : J s) :
    (∀ bs u, bs <+: as → run step s bs = some u → I u) ↔ Along step ok s as := by
  constructor
  · intro hall
    induction as generalizing s with
    | nil => trivial
    | cons a as ih =>
      obtain ⟨s', hs, hr⟩ := run_cons.mp h
      obtain ⟨hJ', hiff⟩ := keep s a s' hI hJ hs
      have hI' : I s' := hall [a] s' (by simp) (run_cons.mpr ⟨s', hs, rfl⟩)
      refine ⟨hiff.mp hI', fun s₂ h₂ => ?_⟩
      obtain rfl : s' = s₂ := Option.some.inj (hs.symm.trans h₂)
      exact ih hr hI' hJ' fun bs u hb hu =>
        hall (a :: bs) u (List.cons_prefix_cons.mpr ⟨rfl, hb⟩) (run_cons.mpr ⟨s', hs, hu⟩)
  · intro hok bs u hb hu
    obtain ⟨cs, rfl⟩ := hb
    have hok' : Along step ok s bs := (along_append hok hu).1
    have hkeep : ∀ s a s', I s ∧ J s → ok s a → step s a = some s' → I s' ∧ J s' := by
      intro s a s' ⟨hI, hJ⟩ ha hs
      obtain ⟨hJ', hiff⟩ := keep s a s' hI hJ hs
      exact ⟨hiff.mpr ha, hJ'⟩
    exact (run_invariant_along (fun s => I s ∧ J s) hkeep hu hok' ⟨hI, hJ⟩).1

/-- A loss that a step never makes up for, and adds nothing to exactly when it meets the guard, is
that of the start exactly when all steps meet the guard. -/
theorem no_loss_iff_along {β : Type} [PartialOrder β] (loss : σ → β) (J : σ → Prop)
    (keep : ∀ s a s', J s → step s a = some s' →
      J s' ∧ loss s ≤ loss s' ∧ (loss s' = loss s ↔ ok s a))
    {s t : σ} {as : List α} (h : run step s as = some t) (hJ : J s) :
    loss s ≤ loss t ∧ (loss t = loss s ↔ Along step ok s as) := by
  induction as generalizing s with
  | nil =>
    rw [run_nil, Option.some.injEq] at h
    subst h
    exact ⟨le_rfl, iff_of_true rfl trivial⟩
  | cons a as ih =>
    obtain ⟨s', hs, hr⟩ := run_cons.mp h
    obtain ⟨hJ', hle, hiff⟩ := keep s a s' hJ hs
    obtain ⟨hle', hiff'⟩ := ih hr hJ'
    refine ⟨le_trans hle hle', ?_⟩
    rw [along_cons hs, ← hiff, ← hiff']
    constructor
    · intro heq
      have hsame : loss s' = loss s := le_antisymm (le_of_le_of_eq hle' heq) hle
      exact ⟨hsame, heq.trans hsame.symm⟩
    · intro hboth
      exact hboth.2.trans hboth.1

/-- One action, repeated, reaches the goal exactly from the states on the way to it: from
those it leads closer, and from no other state does it lead to one of them. `J` is what
the action keeps. -/
theorem repeats_reach_iff {a : α} (goal way J : σ → Prop) (rank : σ → Nat)
    (keep : ∀ s s', J s → step s a = some s' → J s')
    (forth : ∀ s, J s → way s → ¬ goal s →
      ∃ s', step s a = some s' ∧ (goal s' ∨ way s' ∧ rank s' < rank s))
    (back : ∀ s s', J s → step s a = some s' → goal s' ∨ way s' → goal s ∨ way s)
    {s : σ} (hJ : J s) :
    (∃ n s', run step s (List.replicate n a) = some s' ∧ goal s') ↔ goal s ∨ way s := by
  constructor
  · rintro ⟨n, s', hr, hg⟩
    induction n generalizing s with
    | zero =>
      rw [List.replicate_zero, run_nil, Option.some.injEq] at hr
      exact .inl (hr ▸ hg)
    | succ n ih =>
      rw [List.replicate_succ] at hr
      obtain ⟨s₁, hs, hr⟩ := run_cons.mp hr
      exact back s s₁ hJ hs (ih (keep s s₁ hJ hs) hr)
  · rintro (hg | hw)
    · exact ⟨0, s, rfl, hg⟩
    · induction hk : rank s using Nat.strongRecOn generalizing s with
      | ind k ih =>
        by_cases hg : goal s
        · exact ⟨0, s, rfl, hg⟩
        · obtain ⟨s₁, hs, hnext⟩ := forth s hJ hw hg
          obtain ⟨n, s', hr, hg'⟩ : ∃ n s', run step s₁ (List.replicate n a) = some s' ∧ goal s' := by
            rcases hnext with hg₁ | ⟨hw₁, hlt⟩
            · exact ⟨0, s₁, rfl, hg₁⟩
            · exact ih (rank s₁) (hk ▸ hlt) (keep s s₁ hJ hs) hw₁ rfl
          refine ⟨n + 1, s', ?_, hg'⟩
          rw [List.replicate_succ]
          exact run_cons.mpr ⟨s₁, hs, hr⟩

/-- A step that is always there and leads down reaches the goal, whatever is chosen on the way. -/
theorem reaches_of_rank (goal I : σ → Prop) (rank : σ → Nat)
    (down : ∀ s a, I s → goal s ∨ ∃ s', step s a = some s' ∧ I s' ∧ rank s' < rank s) (as : Nat → α)
    {s : σ} (h0 : I s) : ∃ k t, run step s ((List.range k).map as) = some t ∧ I t ∧ goal t := by
  induction hn : rank s using Nat.strongRecOn generalizing s as with
  | ind n ih =>
    obtain hgoal | ⟨s', hstep, hI, hlt⟩ := down s (as 0) h0
    · exact ⟨0, s, rfl, h0, hgoal⟩
    · obtain ⟨k, t, hrun, ht, hgoal⟩ := ih (rank s') (hn ▸ hlt) (fun j => as (j + 1)) hI rfl
      refine ⟨k + 1, t, ?_, ht, hgoal⟩
      rw [List.range_succ_eq_map, List.map_cons, List.map_map]
      exact run_cons.mpr ⟨s', hstep, hrun⟩

end FsCache.Lib
