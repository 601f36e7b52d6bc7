import Mathlib.Data.List.Sort

/- Sorting by insertion is stable, so it goes with any choice among the elements: what is left
   of a sorted list, and what is left and then sorted, are in the same order
   (`filter_insertionSort`). A choice of elements that come before all others can be sorted
   apart (`insertionSort_split`). So an element's place in the sorted list is a matter of counting
   (`idxOf_insertionSort`), and the start of the sorted list is a choice, sorted
   (`take_insertionSort`). -/

namespace FsCache.Lib

variable {α : Type} {r : α → α → Prop} [DecidableRel r] {p : α → Bool} {a : α} {l : List α}

theorem filter_orderedInsert_of_neg (h : p a = false) : (l.orderedInsert r a).filter p = l.filter p := by
  induction l with
  | nil => simp [h]
  | cons b l ih =>
    by_cases hab : r a b
    · rw [List.orderedInsert_cons_of_le r l hab, List.filter_cons_of_neg (by simp [h])]
    · rw [List.orderedInsert_of_not_le r l hab, List.filter_cons, List.filter_cons, ih]

theorem orderedInsert_of_forall (h : ∀ b ∈ l, r a b) : l.orderedInsert r a = a :: l := by
  cases l with
  | nil => rfl
  | cons b l => exact List.orderedInsert_cons_of_le r l (h b List.mem_cons_self)

theorem filter_orderedInsert_of_pos [IsTrans α r] (h : p a = true) (hl : l.Pairwise r) :
    (l.orderedInsert r a).filter p = (l.filter p).orderedInsert r a := by
  induction l with
  | nil => simp [h]
  | cons b l ih =>
    rw [List.pairwise_cons] at hl
    by_cases hab : r a b
    · have hall : ∀ x ∈ (b :: l).filter p, r a x := by
        intro x hx
        obtain rfl | hx := List.mem_cons.mp (List.mem_filter.mp hx).1
        · exact hab
        · exact IsTrans.trans a b x hab (hl.1 x hx)
      rw [List.orderedInsert_cons_of_le r l hab, List.filter_cons_of_pos h, orderedInsert_of_forall hall]
    · rw [List.orderedInsert_of_not_le r l hab, List.filter_cons, List.filter_cons, ih hl.2]
      split
      · exact (List.orderedInsert_of_not_le r _ hab).symm
      · rfl

theorem filter_insertionSort [Std.Total r] [IsTrans α r] (p : α → Bool) (l : List α) :
    (l.insertionSort r).filter p = (l.filter p).insertionSort r := by
  induction l with
  | nil => rfl
  | cons a l ih =>
    rw [List.insertionSort_cons]
    cases h : p a with
    | true =>
      rw [filter_orderedInsert_of_pos h (List.pairwise_insertionSort r l), ih, List.filter_cons_of_pos h,
        List.insertionSort_cons]
    | false => rw [filter_orderedInsert_of_neg h, ih, List.filter_cons_of_neg (by simp [h])]

theorem append_of_pairwise (h : l.Pairwise fun a b => p b = true → p a = true) :
    l = l.filter p ++ l.filter fun a => !p a := by
  induction l with
  | nil => rfl
  | cons a l ih =>
    rw [List.pairwise_cons] at h
    cases ha : p a with
    | true =>
      rw [List.filter_cons_of_pos ha, List.filter_cons_of_neg (by simp [ha]), List.cons_append, ← ih h.2]
    | false =>
      -- nothing behind `a` is chosen, either
      have hnone : l.filter p = [] := by
        apply List.filter_eq_nil_iff.mpr
        intro b hb hpb
        rw [h.1 b hb hpb] at ha
        cases ha
      have hall : (l.filter fun a => !p a) = l := by
        apply List.filter_eq_self.mpr
        intro b hb
        have := List.filter_eq_nil_iff.mp hnone b hb
        simpa using this
      rw [List.filter_cons_of_neg (by simp [ha]), List.filter_cons_of_pos (by simp [ha]), hnone, hall,
        List.nil_append]

theorem insertionSort_split [Std.Total r] [IsTrans α r]
    (h : ∀ a ∈ l, ∀ b ∈ l, p a = true → p b = false → ¬r b a) :
    l.insertionSort r =
      (l.filter p).insertionSort r ++ (l.filter fun a => !p a).insertionSort r := by
  rw [← filter_insertionSort, ← filter_insertionSort]
  apply append_of_pairwise
  have hmem : ∀ a ∈ l.insertionSort r, a ∈ l := fun a ha => (List.mem_insertionSort r).mp ha
  refine (List.pairwise_insertionSort r l).imp_of_mem fun {a b} ha hb hab hpb => ?_
  by_contra hpa
  exact h b (hmem b hb) a (hmem a ha) hpb (by simpa using hpa) hab

/-- What comes before `a` in the sorted list: the elements strictly before it, and those that are equal to it
in the order and earlier in the list. -/
def place [DecidableEq α] (r : α → α → Prop) [DecidableRel r] (l : List α) (a : α) : Nat :=
  (l.filter fun b => !decide (r a b)).length + (l.filter fun b => decide (r b a) && decide (r a b)).idxOf a

theorem idxOf_insertionSort [DecidableEq α] [Std.Total r] [IsTrans α r] (ha : a ∈ l) :
    (l.insertionSort r).idxOf a = place r l a := by
  have hrefl : r a a := (Std.Total.total a a).elim id id
  have hbefore : l.insertionSort r =
      (l.filter fun b => !decide (r a b)).insertionSort r ++
        (l.filter fun b => !!decide (r a b)).insertionSort r := by
    apply insertionSort_split
    intro b _ c _ hb hc hcb
    have hac : r a c := by simpa using hc
    have hab : ¬r a b := by simpa using hb
    exact hab (IsTrans.trans a c b hac hcb)
  have hequal : (l.filter fun b => !!decide (r a b)).insertionSort r =
      ((l.filter fun b => !!decide (r a b)).filter fun b => decide (r b a)).insertionSort r ++
        ((l.filter fun b => !!decide (r a b)).filter fun b => !decide (r b a)).insertionSort r := by
    apply insertionSort_split
    intro b _ c _ hb hc hcb
    have hba : r b a := by simpa using hb
    have hca : ¬r c a := by simpa using hc
    exact hca (IsTrans.trans c b a hcb hba)
  -- among the equal ones the order of the list stands
  have hstable : ((l.filter fun b => !!decide (r a b)).filter fun b => decide (r b a)).insertionSort r =
      l.filter fun b => decide (r b a) && decide (r a b) := by
    rw [List.filter_filter]
    simp only [Bool.not_not]
    apply List.Pairwise.insertionSort_eq
    refine List.pairwise_of_forall_mem_list fun b hb c hc => ?_
    simp only [List.mem_filter, Bool.and_eq_true, decide_eq_true_eq] at hb hc
    exact IsTrans.trans b a c hb.2.1 hc.2.2
  have hnot : a ∉ (l.filter fun b => !decide (r a b)).insertionSort r := by
    intro h
    simpa [hrefl] using (List.mem_insertionSort r).mp h
  have hmem : a ∈ l.filter fun b => decide (r b a) && decide (r a b) := by
    simpa [hrefl] using ha
  rw [hbefore, hequal, hstable, List.idxOf_append_of_notMem hnot, List.idxOf_append_of_mem hmem,
    List.length_insertionSort, place]

theorem take_insertionSort [DecidableEq α] [Std.Total r] [IsTrans α r] (hl : l.Nodup) (n : Nat) :
    (l.insertionSort r).take n = (l.filter fun a => place r l a < n).insertionSort r := by
  have hsorted : (l.insertionSort r).Nodup := (List.perm_insertionSort r l).nodup_iff.mpr hl
  have hstart : ∀ a ∈ l.insertionSort r, (a ∈ (l.insertionSort r).take n ↔ place r l a < n) := by
    intro a ha
    rw [List.mem_take_iff_idxOf_lt ha, idxOf_insertionSort ((List.mem_insertionSort r).mp ha)]
  rw [← filter_insertionSort]
  generalize l.insertionSort r = sorted at hsorted hstart ⊢
  rw [← List.take_append_drop n sorted] at hsorted
  have htake : (sorted.take n).filter (fun a => decide (place r l a < n)) = sorted.take n := by
    apply List.filter_eq_self.mpr
    intro a ha
    exact decide_eq_true ((hstart a (List.mem_of_mem_take ha)).mp ha)
  have hdrop : (sorted.drop n).filter (fun a => decide (place r l a < n)) = [] := by
    apply List.filter_eq_nil_iff.mpr
    intro a ha hplace
    have htaken := (hstart a (List.mem_of_mem_drop ha)).mpr (of_decide_eq_true hplace)
    exact List.disjoint_of_nodup_append hsorted htaken ha
  calc sorted.take n
      = (sorted.take n).filter (fun a => decide (place r l a < n)) ++
          (sorted.drop n).filter (fun a => decide (place r l a < n)) := by rw [htake, hdrop, List.append_nil]
    _ = sorted.filter fun a => decide (place r l a < n) := by
      rw [← List.filter_append, List.take_append_drop]

end FsCache.Lib
