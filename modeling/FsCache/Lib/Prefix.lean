import Mathlib.Data.List.Infix

/- Paths as lists of components. `Below d q` is "strictly below", `Apart` is
   "neither is a prefix of the other", and `reroot old new` carries the subtree
   under `old` over to `new`. Two subtrees that are apart share no path, and
   `reroot` is injective on the subtree it moves. -/

namespace FsCache.Lib

variable {ν : Type}

/-- `q` is strictly below `d`. -/
def Below (d q : List ν) : Prop := d <+: q ∧ q ≠ d

instance [DecidableEq ν] (d q : List ν) : Decidable (Below d q) :=
  inferInstanceAs (Decidable (_ ∧ _))

/-- Neither path is a prefix of the other. -/
def Apart (a b : List ν) : Prop := ¬ a <+: b ∧ ¬ b <+: a

instance [DecidableEq ν] (a b : List ν) : Decidable (Apart a b) :=
  inferInstanceAs (Decidable (_ ∧ _))

/-- The path `p`, which starts with `old`, with `new` in its place. -/
def reroot (old new p : List ν) : List ν := new ++ p.drop old.length

theorem below_iff {d q : List ν} : Below d q ↔ ∃ s, s ≠ [] ∧ q = d ++ s := by
  constructor
  · rintro ⟨⟨s, rfl⟩, hne⟩
    exact ⟨s, fun h => hne (by rw [h, List.append_nil]), rfl⟩
  · rintro ⟨s, hs, rfl⟩
    exact ⟨List.prefix_append d s, by simpa using hs⟩

theorem below_append {d s : List ν} (hs : s ≠ []) : Below d (d ++ s) :=
  below_iff.mpr ⟨s, hs, rfl⟩

theorem reroot_append (old new s : List ν) : reroot old new (old ++ s) = new ++ s := by
  simp [reroot]

theorem reroot_inj {old new p q : List ν} (hp : old <+: p) (hq : old <+: q)
    (h : reroot old new p = reroot old new q) : p = q := by
  obtain ⟨s, rfl⟩ := hp
  obtain ⟨t, rfl⟩ := hq
  rw [reroot_append, reroot_append] at h
  rw [List.append_cancel_left h]

theorem prefix_reroot (old new p : List ν) : new <+: reroot old new p :=
  List.prefix_append new _

theorem reroot_self {old p : List ν} (h : old <+: p) : reroot old old p = p := by
  obtain ⟨s, rfl⟩ := h
  rw [reroot_append]

theorem Apart.symm {a b : List ν} (h : Apart a b) : Apart b a := ⟨h.2, h.1⟩

/-- Subtrees under paths that are apart share no path. -/
theorem Apart.disjoint {a b p : List ν} (h : Apart a b) (ha : a <+: p) : ¬ b <+: p := by
  intro hb
  rcases Nat.le_total a.length b.length with hl | hl
  · exact h.1 (List.prefix_of_prefix_length_le ha hb hl)
  · exact h.2 (List.prefix_of_prefix_length_le hb ha hl)

theorem Apart.ne {a b : List ν} (h : Apart a b) : a ≠ b := fun e => h.1 (e ▸ List.prefix_refl a)

/-- Paths that are neither equal nor one strictly below the other are apart. -/
theorem apart_of_not_below {a b : List ν} (hab : ¬ Below a b) (hba : ¬ Below b a) (hne : a ≠ b) :
    Apart a b :=
  ⟨fun h => hab ⟨h, Ne.symm hne⟩, fun h => hba ⟨h, hne⟩⟩

end FsCache.Lib
