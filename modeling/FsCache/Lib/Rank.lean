import Mathlib.Logic.Basic
import FsCache.Lib.Run

/-
  Systems that come to rest.

  Some actions of a system are its own, the others are its environment's. Where an own
  action always leads down, whatever else is true of the state, the system can only do so
  much by itself: `length_le_of_rank` bounds every run of own actions by the rank of its
  start, and `exists_stuck` says that such a run can always be gone on with until no own
  action is enabled. `J` is what the own actions keep.
-/

namespace FsCache.Lib

variable {σ α : Type} {step : σ → α → Option σ}

/-- None of these actions is enabled. -/
def Stuck (step : σ → α → Option σ) (own : α → Prop) (s : σ) : Prop := ∀ a, own a → step s a = none

section Rank

variable {own : α → Prop} {J : σ → Prop} {rank : σ → Nat}

theorem length_le_of_rank (keep : ∀ s a s', J s → own a → step s a = some s' → J s')
    (down : ∀ s a s', J s → own a → step s a = some s' → rank s' < rank s) {s t : σ} {as : List α}
    (hown : ∀ a ∈ as, own a) (h : run step s as = some t) (hJ : J s) : rank t + as.length ≤ rank s := by
  induction as generalizing s with
  | nil =>
    obtain rfl := Option.some.inj h
    exact Nat.le_refl _
  | cons a as ih =>
    obtain ⟨s', hs, hr⟩ := run_cons.mp h
    have ha : own a := hown a List.mem_cons_self
    have hrest := ih (fun b hb => hown b (List.mem_cons_of_mem a hb)) hr (keep s a s' hJ ha hs)
    have hlt := down s a s' hJ ha hs
    rw [List.length_cons]
    omega

theorem exists_stuck (keep : ∀ s a s', J s → own a → step s a = some s' → J s')
    (down : ∀ s a s', J s → own a → step s a = some s' → rank s' < rank s) {s : σ} (hJ : J s) :
    ∃ as t, (∀ a ∈ as, own a) ∧ run step s as = some t ∧ J t ∧ Stuck step own t := by
  induction hn : rank s using Nat.strongRecOn generalizing s with
  | ind n ih =>
    by_cases hstuck : Stuck step own s
    · exact ⟨[], s, by simp, rfl, hJ, hstuck⟩
    · obtain ⟨a, hstuck⟩ := not_forall.mp hstuck
      obtain ⟨ha, hne⟩ := Classical.not_imp.mp hstuck
      obtain ⟨s', hs⟩ := Option.ne_none_iff_exists'.mp hne
      obtain ⟨as, t, hown, hr, hJt, ht⟩ := ih (rank s') (hn ▸ down s a s' hJ ha hs) (keep s a s' hJ ha hs) rfl
      refine ⟨a :: as, t, ?_, run_cons.mpr ⟨s', hs, hr⟩, hJt, ht⟩
      intro b hb
      obtain rfl | hb := List.mem_cons.mp hb
      · exact ha
      · exact hown b hb

end Rank

end FsCache.Lib
