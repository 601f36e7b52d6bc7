import Mathlib.Data.Finset.Card
import FsCache.Lib.Sort

/- A ranking by weight that is cut off before it is filtered.

   Of what has one weight the order is open. So whether an element is in the first `n` of every ranking is a
   matter of counting (`Ranked.mem_take`), and so is whether it is in those of some (`ranked_head`), and out of
   them (`ranked_last`). `heaviest_filter_iff`: when the first `n`, filtered, are the `n` heaviest of a choice,
   in every ranking. -/

namespace FsCache.Lib

variable {α ι : Type} [LinearOrder ι] {w : α → ι} {G E : Finset α} {l : List α} {n : Nat}
  {x y : α} {keep : α → Bool}

/-- The elements of `G`, the heaviest first. -/
structure Ranked (w : α → ι) (G : Finset α) (l : List α) : Prop where
  nodup : l.Nodup
  mem_iff : ∀ a, a ∈ l ↔ a ∈ G
  sorted : l.Pairwise fun a b => w b ≤ w a

/-- The `n` heaviest elements of `E`, or all there are, the heaviest first. -/
structure Heaviest (w : α → ι) (E : Finset α) (n : Nat) (l : List α) : Prop where
  nodup : l.Nodup
  mem : ∀ a ∈ l, a ∈ E
  sorted : l.Pairwise fun a b => w b ≤ w a
  length : l.length = min n E.card
  heaviest : ∀ b ∈ E, b ∉ l → ∀ a ∈ l, w b ≤ w a

/-- The order of a ranking. -/
def Heavier (w : α → ι) (a b : α) : Prop := w b ≤ w a

instance (w : α → ι) : DecidableRel (Heavier w) := fun a b => inferInstanceAs (Decidable (w b ≤ w a))

instance (w : α → ι) : Std.Total (Heavier w) := ⟨fun a b => le_total (w b) (w a)⟩

instance (w : α → ι) : IsTrans α (Heavier w) := ⟨fun _ _ _ hab hbc => le_trans hbc hab⟩

/-- What is at least as heavy is heavier, or of the same weight. -/
theorem length_filter_le (w : α → ι) (y : α) (l : List α) :
    (l.filter fun b => decide (w y ≤ w b)).length =
      (l.filter fun b => !decide (Heavier w y b)).length +
        (l.filter fun b => decide (Heavier w b y) && decide (Heavier w y b)).length := by
  induction l with
  | nil => rfl
  | cons b l ih =>
    obtain hlt | heq | hgt := lt_trichotomy (w y) (w b)
    · simp only [List.filter_cons, Heavier, hlt.le, not_le.mpr hlt, decide_true, decide_false, Bool.not_false,
        Bool.and_false, if_true, Bool.false_eq_true, if_false, List.length_cons]
      simp only [Heavier] at ih
      omega
    · simp only [List.filter_cons, Heavier, heq.le, heq.ge, decide_true, Bool.not_true, Bool.and_self, if_true,
        Bool.false_eq_true, if_false, List.length_cons]
      simp only [Heavier] at ih
      omega
    · simp only [List.filter_cons, Heavier, hgt.le, not_le.mpr hgt, decide_true, decide_false, Bool.not_true,
        Bool.false_and, Bool.false_eq_true, if_false]
      exact ih

theorem ranked_insertionSort (hnodup : l.Nodup) (hmem : ∀ a, a ∈ l ↔ a ∈ G) :
    Ranked w G (l.insertionSort (Heavier w)) where
  nodup := (List.perm_insertionSort _ l).nodup_iff.mpr hnodup
  mem_iff a := (List.mem_insertionSort _).trans (hmem a)
  sorted := List.pairwise_insertionSort _ l

namespace Ranked

/-- What is in front of `x` is at least as heavy, and what is behind it no heavier. -/
theorem split (h : Ranked w G l) (hx : x ∈ G) :
    ∃ front rest, l = front ++ x :: rest ∧ x ∉ front ∧ (∀ a ∈ front, w x ≤ w a) ∧ ∀ a ∈ rest, w a ≤ w x := by
  obtain ⟨front, rest, rfl⟩ := List.append_of_mem ((h.mem_iff x).mpr hx)
  have hsorted := List.pairwise_append.mp h.sorted
  refine ⟨front, rest, rfl, ?_, fun a ha => hsorted.2.2 a ha x List.mem_cons_self, ?_⟩
  · intro hfront
    exact List.disjoint_of_nodup_append h.nodup hfront List.mem_cons_self
  · exact (List.pairwise_cons.mp hsorted.2.1).1

/-- What is cut off is no heavier than what is not. -/
theorem le_of_not_mem_take (h : Ranked w G l) (hx : x ∈ l.take n) (hy : y ∈ G) (hny : y ∉ l.take n) :
    w y ≤ w x := by
  have hsorted := h.sorted
  rw [← List.take_append_drop n l] at hsorted
  have hdrop : y ∈ l.drop n := by
    have hl := (h.mem_iff y).mpr hy
    rw [← List.take_append_drop n l, List.mem_append] at hl
    exact hl.resolve_left hny
  exact (List.pairwise_append.mp hsorted).2.2 x hx y hdrop

end Ranked

variable [DecidableEq α]

theorem length_filter_eq_card (hnodup : l.Nodup) (hmem : ∀ a, a ∈ l ↔ a ∈ G) (p : α → Prop) [DecidablePred p] :
    (l.filter fun a => decide (p a)).length = (G.filter p).card := by
  have hset : G.filter p = (l.filter fun a => decide (p a)).toFinset := by
    ext a
    simp [hmem]
  rw [hset, List.toFinset_card_of_nodup (hnodup.filter _)]

theorem mem_take_append (hx : x ∉ l) {l' : List α} : x ∈ (l ++ x :: l').take n ↔ l.length < n := by
  rw [List.mem_take_iff_idxOf_lt (by simp), List.idxOf_append_of_notMem hx, List.idxOf_cons_self, Nat.add_zero]

namespace Ranked

theorem length (h : Ranked w G l) : l.length = G.card := by
  have hall := length_filter_eq_card h.nodup h.mem_iff fun _ => True
  simpa using hall

theorem card_lt (h : Ranked w G l) (hx : x ∈ l.take n) : (G.filter fun a => w x < w a).card < n := by
  obtain ⟨front, rest, hl, hnot, -, hrest⟩ := h.split ((h.mem_iff x).mp (List.mem_of_mem_take hx))
  have hlight : (x :: rest).filter (fun a => decide (w x < w a)) = [] := by
    apply List.filter_eq_nil_iff.mpr
    intro a ha
    obtain rfl | ha := List.mem_cons.mp ha
    · simp
    · simpa using hrest a ha
  rw [hl, mem_take_append hnot] at hx
  rw [← length_filter_eq_card h.nodup h.mem_iff, hl, List.filter_append, hlight, List.append_nil]
  exact Nat.lt_of_le_of_lt (List.length_filter_le _ front) hx

theorem mem_take (h : Ranked w G l) (hx : x ∈ G) (hcard : (G.filter fun a => w x ≤ w a).card ≤ n) :
    x ∈ l.take n := by
  obtain ⟨front, rest, hl, hnot, hfront, -⟩ := h.split hx
  have hheavy : front.filter (fun a => decide (w x ≤ w a)) = front := by
    apply List.filter_eq_self.mpr
    intro a ha
    exact decide_eq_true (hfront a ha)
  rw [← length_filter_eq_card h.nodup h.mem_iff, hl, List.filter_append, hheavy,
    List.filter_cons_of_pos (by simp), List.length_append, List.length_cons] at hcard
  rw [hl, mem_take_append hnot]
  omega

end Ranked

/-! ## Rankings by a stable sort -/

/-- The first of its weight is only behind what is heavier. -/
theorem ranked_head (hnodup : (x :: l).Nodup) (hmem : ∀ a, a ∈ x :: l ↔ a ∈ G)
    (hcard : (G.filter fun a => w x < w a).card < n) :
    x ∈ ((x :: l).insertionSort (Heavier w)).take n := by
  have hfirst : ((x :: l).filter fun b => decide (Heavier w b x) && decide (Heavier w x b)).idxOf x = 0 := by
    rw [List.filter_cons_of_pos (by simp [Heavier]), List.idxOf_cons_self]
  have hplace : place (Heavier w) (x :: l) x = (G.filter fun a => w x < w a).card := by
    rw [place, hfirst, Nat.add_zero, ← length_filter_eq_card hnodup hmem]
    congr 1
    apply List.filter_congr
    intro a _
    rw [Bool.eq_iff_iff, Bool.not_eq_true', decide_eq_false_iff_not, decide_eq_true_eq]
    exact not_le
  rw [List.mem_take_iff_idxOf_lt ((List.mem_insertionSort _).mpr List.mem_cons_self),
    idxOf_insertionSort List.mem_cons_self, hplace]
  exact hcard

/-- The last of its weight is behind all that are as heavy. -/
theorem ranked_last (hnodup : (l ++ [y]).Nodup) (hmem : ∀ a, a ∈ l ++ [y] ↔ a ∈ G)
    (hcard : n < (G.filter fun a => w y ≤ w a).card) :
    y ∉ ((l ++ [y]).insertionSort (Heavier w)).take n := by
  have hy : y ∈ l ++ [y] := by simp
  have hnot : y ∉ l := fun h => List.disjoint_of_nodup_append hnodup h (List.mem_singleton.mpr rfl)
  have hlast : ((l ++ [y]).filter fun b => decide (Heavier w b y) && decide (Heavier w y b)).idxOf y =
      (l.filter fun b => decide (Heavier w b y) && decide (Heavier w y b)).length := by
    rw [List.filter_append, List.idxOf_append_of_notMem fun h => hnot (List.mem_of_mem_filter h)]
    simp [Heavier]
  have hcount : (G.filter fun a => w y ≤ w a).card =
      ((l ++ [y]).filter fun b => !decide (Heavier w y b)).length +
        ((l.filter fun b => decide (Heavier w b y) && decide (Heavier w y b)).length + 1) := by
    rw [← length_filter_eq_card hnodup hmem, length_filter_le, List.filter_append (p := fun b =>
      decide (Heavier w b y) && decide (Heavier w y b)), List.length_append]
    simp [Heavier]
  rw [List.mem_take_iff_idxOf_lt ((List.mem_insertionSort _).mpr hy), idxOf_insertionSort hy, place, hlast]
  omega

/-! ## Cutting off before filtering -/

/-- Fewer than `n` of the heaviest are all there are. -/
theorem Heaviest.mem_of_length_lt (h : Heaviest w E n l) (hlt : l.length < n) (hx : x ∈ E) : x ∈ l := by
  have hlength := h.length
  have hall : l.toFinset = E := by
    apply Finset.eq_of_subset_of_card_le
    · intro a ha
      exact h.mem a (List.mem_toFinset.mp ha)
    · rw [List.toFinset_card_of_nodup h.nodup]
      omega
  rwa [← hall, List.mem_toFinset] at hx

/-- When the first `n` are all in the choice, they are as many as it allows. -/
theorem Ranked.length_take (h : Ranked w G l) (hE : E ⊆ G) (hall : ∀ a ∈ l.take n, a ∈ E) :
    (l.take n).length = min n E.card := by
  have hle : (l.take n).toFinset.card ≤ E.card := by
    apply Finset.card_le_card
    intro a ha
    exact hall a (List.mem_toFinset.mp ha)
  have hcard := Finset.card_le_card hE
  have hlength := h.length
  rw [List.toFinset_card_of_nodup (h.nodup.sublist (List.take_sublist n l))] at hle
  rw [List.length_take] at hle ⊢
  omega

/-- So they are when the choice is what is left of them. -/
theorem length_filter_take (hnodup : ((l.take n).filter keep).Nodup)
    (hmem : ∀ a, a ∈ (l.take n).filter keep ↔ a ∈ E) :
    ((l.take n).filter keep).length = min n E.card := by
  have hset : ((l.take n).filter keep).toFinset = E := by
    ext a
    rw [List.mem_toFinset]
    exact hmem a
  have hle := List.length_filter_le keep (l.take n)
  have htake := List.length_take_le n l
  rw [← hset, List.toFinset_card_of_nodup hnodup]
  omega

/-- In one ranking, with the choice among what is kept: the first `n`, filtered, are the heaviest of the choice
exactly if all of it is among them, or nothing else. -/
theorem Ranked.heaviest_iff (h : Ranked w G l) (hE : E ⊆ G) (hkeep : ∀ a ∈ E, keep a = true) :
    Heaviest w E n ((l.take n).filter keep) ↔
      ∀ a ∈ l.take n, a ∉ E → keep a = false ∧ ∀ b ∈ E, b ∈ l.take n := by
  have hsub : ((l.take n).filter keep).Sublist l := List.filter_sublist.trans (List.take_sublist n l)
  have hnodup := h.nodup.sublist hsub
  constructor
  · intro hbest a ha hnot
    have hdropped : keep a = false := by
      by_contra hkept
      exact hnot (hbest.mem a (List.mem_filter.mpr ⟨ha, by simpa using hkept⟩))
    -- `a` is dropped, so fewer than `n` are left, and that is the whole choice
    have hfewer : ((l.take n).filter keep).length < (l.take n).length := by
      apply List.length_filter_lt_length_iff_exists.mpr
      exact ⟨a, ha, by simp [hdropped]⟩
    have hlt := Nat.lt_of_lt_of_le hfewer (List.length_take_le n l)
    exact ⟨hdropped, fun b hb => List.mem_of_mem_filter (hbest.mem_of_length_lt hlt hb)⟩
  · intro hcond
    have hmem : ∀ a ∈ (l.take n).filter keep, a ∈ E := by
      intro a ha
      obtain ⟨ha, hkept⟩ := List.mem_filter.mp ha
      by_contra hnot
      rw [(hcond a ha hnot).1] at hkept
      cases hkept
    refine ⟨hnodup, hmem, h.sorted.sublist hsub, ?_, ?_⟩
    · by_cases hall : ∀ a ∈ l.take n, a ∈ E
      · have hwhole : (l.take n).filter keep = l.take n := by
          apply List.filter_eq_self.mpr
          intro a ha
          exact hkeep a (hall a ha)
        rw [hwhole]
        exact h.length_take hE hall
      · -- one that is taken is not in the choice, so all of the choice is taken
        push Not at hall
        obtain ⟨a, ha, hnot⟩ := hall
        refine length_filter_take hnodup fun b => ⟨hmem b, fun hb => ?_⟩
        exact List.mem_filter.mpr ⟨(hcond a ha hnot).2 b hb, hkeep b hb⟩
    · intro b hb hnot a ha
      refine h.le_of_not_mem_take (List.mem_of_mem_filter ha) (hE hb) ?_
      intro htaken
      exact hnot (List.mem_filter.mpr ⟨htaken, hkeep b hb⟩)

/-- In every ranking: nothing outside of the choice can be among the first `n`, or it is not kept and all of
the choice is always among them. -/
theorem heaviest_filter_iff (hE : E ⊆ G) (hkeep : ∀ a ∈ E, keep a = true) :
    (∀ l, Ranked w G l → Heaviest w E n ((l.take n).filter keep)) ↔
      ∀ a ∈ G, a ∉ E → (G.filter fun b => w a < w b).card < n →
        keep a = false ∧ ∀ b ∈ E, (G.filter fun c => w b ≤ w c).card ≤ n := by
  constructor
  · intro hall a ha hnot hcard
    constructor
    · -- a ranking with `a` as far in front as it can be
      have hnodup : (a :: (G.erase a).toList).Nodup := by
        simp [Finset.nodup_toList]
      have hmem : ∀ c, c ∈ a :: (G.erase a).toList ↔ c ∈ G := by
        intro c
        by_cases hc : c = a
        · simp [hc, ha]
        · simp [hc]
      have hranked := ranked_insertionSort (w := w) hnodup hmem
      exact ((hranked.heaviest_iff hE hkeep).mp (hall _ hranked) a (ranked_head hnodup hmem hcard) hnot).1
    · -- and one with `b` as far behind as it can be, too
      intro b hb
      by_contra hmany
      have hab : a ≠ b := fun e => hnot (e ▸ hb)
      have hnodup : (a :: ((G.erase a).erase b).toList ++ [b]).Nodup := by
        simp +contextual [Finset.nodup_toList, List.nodup_append, hab]
      have hmem : ∀ c, c ∈ a :: ((G.erase a).erase b).toList ++ [b] ↔ c ∈ G := by
        intro c
        by_cases hca : c = a
        · simp [hca, ha]
        · by_cases hcb : c = b
          · simp [hcb, hE hb]
          · simp [hca, hcb]
      have hranked := ranked_insertionSort (w := w) hnodup hmem
      have hfirst := ranked_head (l := ((G.erase a).erase b).toList ++ [b]) hnodup hmem hcard
      have htaken := ((hranked.heaviest_iff hE hkeep).mp (hall _ hranked) a hfirst hnot).2 b hb
      exact ranked_last hnodup hmem (Nat.lt_of_not_le hmany) htaken
  · intro hcond l h
    apply (h.heaviest_iff hE hkeep).mpr
    intro a ha hnot
    obtain ⟨hdropped, hall⟩ := hcond a ((h.mem_iff a).mp (List.mem_of_mem_take ha)) hnot (h.card_lt ha)
    exact ⟨hdropped, fun b hb => h.mem_take (hE hb) (hall b hb)⟩

end FsCache.Lib
