import Mathlib.Data.List.Infix

/- Backtracking search for a regular expression that is a sequence of characters, greedy repetitions of
   one character, capture groups around such a repetition, and the end of the text.

   `captures` lists what the groups capture in each match at the start of a text, in the order in which
   backtracking finds them: each repetition is as long as it can be, the earlier ones first. `search` takes
   the first match at the leftmost position that has one.

   `Matches` says what a match is without saying which is first; `mem_captures_iff` is that the two are
   about the same matches. Which is first: that of the longest runs, if the rest of the pattern goes on from
   there (`head_captures_group`), and the leftmost one (`search_append`). -/

namespace FsCache.Lib.Regex

variable {α : Type}

inductive Item (α : Type) where
  | one (p : α → Bool)
  | many (p : α → Bool) (least : Nat) (most : Option Nat)
  | group (p : α → Bool) (least : Nat) (most : Option Nat)
  | finish

/-- How many characters a repetition can take. -/
def longest (p : α → Bool) (most : Option Nat) (l : List α) : Nat :=
  match most with
  | none => (l.takeWhile p).length
  | some m => min m (l.takeWhile p).length

/-- The numbers from `n` down to `least`. -/
def downTo (least : Nat) : Nat → List Nat
  | 0 => if least = 0 then [0] else []
  | n + 1 => if least ≤ n + 1 then (n + 1) :: downTo least n else []

def captures : List (Item α) → List α → List (List (List α))
  | [], _ => [[]]
  | .one _ :: _, [] => []
  | .one p :: items, a :: l => if p a then captures items l else []
  | .many p least most :: items, l =>
    (downTo least (longest p most l)).flatMap fun k => captures items (l.drop k)
  | .group p least most :: items, l =>
    (downTo least (longest p most l)).flatMap fun k => (captures items (l.drop k)).map fun c => l.take k :: c
  | .finish :: items, l => if l.isEmpty then captures items l else []

def search (items : List (Item α)) : List α → Option (List (List α))
  | [] => (captures items []).head?
  | a :: l => ((captures items (a :: l)).head?).or (search items l)

/-- The run is one that a repetition may take. -/
def Run (p : α → Bool) (least : Nat) (most : Option Nat) (run : List α) : Prop :=
  (∀ a ∈ run, p a = true) ∧ least ≤ run.length ∧ ∀ m ∈ most, run.length ≤ m

/-- The text starts with a match, and the groups capture this. -/
inductive Matches : List (Item α) → List α → List (List α) → Prop
  | nil (l : List α) : Matches [] l []
  | one {p : α → Bool} {items : List (Item α)} {a : α} {l : List α} {c : List (List α)} (ha : p a = true)
      (h : Matches items l c) : Matches (.one p :: items) (a :: l) c
  | many {p : α → Bool} {least : Nat} {most : Option Nat} {items : List (Item α)} {run l : List α}
      {c : List (List α)} (hrun : Run p least most run) (h : Matches items l c) :
      Matches (.many p least most :: items) (run ++ l) c
  | group {p : α → Bool} {least : Nat} {most : Option Nat} {items : List (Item α)} {run l : List α}
      {c : List (List α)} (hrun : Run p least most run) (h : Matches items l c) :
      Matches (.group p least most :: items) (run ++ l) (run :: c)
  | finish {items : List (Item α)} {c : List (List α)} (h : Matches items [] c) :
      Matches (.finish :: items) [] c

variable {p : α → Bool} {least : Nat} {most : Option Nat} {items : List (Item α)} {l : List α}
  {c : List (List α)}

theorem mem_downTo {k n : Nat} : k ∈ downTo least n ↔ least ≤ k ∧ k ≤ n := by
  induction n with
  | zero =>
    rw [downTo]
    split
    · rw [List.mem_singleton]
      omega
    · refine iff_of_false List.not_mem_nil ?_
      omega
  | succ n ih =>
    rw [downTo]
    split
    · rw [List.mem_cons, ih]
      omega
    · refine iff_of_false List.not_mem_nil ?_
      omega

/-- The first `n` characters are in the class exactly if the longest run of it has them. -/
theorem forall_take_iff {n : Nat} (hn : n ≤ l.length) :
    (∀ a ∈ l.take n, p a = true) ↔ n ≤ (l.takeWhile p).length := by
  induction l generalizing n with
  | nil => simpa using hn
  | cons a l ih =>
    cases n with
    | zero => simp
    | succ n =>
      rw [List.take_succ_cons, List.forall_mem_cons, ih (Nat.le_of_succ_le_succ hn)]
      by_cases ha : p a = true
      · rw [List.takeWhile_cons_of_pos ha, List.length_cons]
        simp only [ha, true_and]
        omega
      · rw [List.takeWhile_cons_of_neg ha, List.length_nil]
        simp [ha]

/-- The lengths that are tried are those of the runs. -/
theorem run_take_iff {k : Nat} :
    k ∈ downTo least (longest p most l) ↔ Run p least most (l.take k) ∧ k ≤ l.length := by
  have hprefix : (l.takeWhile p).length ≤ l.length := (List.takeWhile_prefix p).length_le
  rw [mem_downTo, and_comm, Run]
  constructor
  · intro ⟨hmost, hleast⟩
    have hk : k ≤ (l.takeWhile p).length := by
      cases most <;> simp only [longest] at hmost <;> omega
    have hlen : (l.take k).length = k := List.length_take_of_le (by omega)
    rw [hlen]
    refine ⟨⟨(forall_take_iff (by omega)).mpr hk, hleast, fun m hm => ?_⟩, by omega⟩
    obtain rfl := hm
    simp only [longest] at hmost
    omega
  · intro ⟨⟨hall, hleast, hmost⟩, hk⟩
    rw [List.length_take_of_le hk] at hleast hmost
    rw [forall_take_iff hk] at hall
    refine ⟨?_, hleast⟩
    cases most with
    | none => exact hall
    | some m => exact le_min (hmost m rfl) hall

/-- Backtracking finds all the matches, and nothing else. -/
theorem mem_captures_iff : c ∈ captures items l ↔ Matches items l c := by
  induction items generalizing l c with
  | nil =>
    rw [captures, List.mem_singleton]
    constructor
    · intro h
      rw [h]
      exact .nil l
    · intro h
      cases h
      rfl
  | cons item items ih =>
    cases item with
    | one p =>
      cases l with
      | nil => exact iff_of_false (by simp [captures]) (fun h => nomatch h)
      | cons a l =>
        rw [captures]
        by_cases ha : p a = true
        · rw [if_pos ha, ih]
          exact ⟨.one ha, fun h => by cases h; assumption⟩
        · rw [if_neg ha]
          exact iff_of_false List.not_mem_nil fun h => by cases h; contradiction
    | many p least most =>
      rw [captures, List.mem_flatMap]
      constructor
      · intro ⟨k, hk, hc⟩
        rw [← List.take_append_drop k l]
        exact .many (run_take_iff.mp hk).1 (ih.mp hc)
      · intro h
        cases h with
        | @many _ _ _ _ run l _ hrun h =>
          refine ⟨run.length, run_take_iff.mpr ⟨?_, by simp⟩, ?_⟩
          · rwa [List.take_left]
          · rw [List.drop_left]
            exact ih.mpr h
    | group p least most =>
      rw [captures, List.mem_flatMap]
      constructor
      · intro ⟨k, hk, hc⟩
        obtain ⟨c', hc', rfl⟩ := List.mem_map.mp hc
        have hmatch : Matches (.group p least most :: items) (l.take k ++ l.drop k) (l.take k :: c') :=
          .group (run_take_iff.mp hk).1 (ih.mp hc')
        rwa [List.take_append_drop] at hmatch
      · intro h
        cases h with
        | @group _ _ _ _ run l c hrun h =>
          refine ⟨run.length, run_take_iff.mpr ⟨?_, by simp⟩, List.mem_map.mpr ⟨c, ?_, ?_⟩⟩
          · rwa [List.take_left]
          · rw [List.drop_left]
            exact ih.mpr h
          · rw [List.take_left]
    | finish =>
      rw [captures]
      cases l with
      | nil =>
        rw [if_pos List.isEmpty_nil, ih]
        exact ⟨.finish, fun h => by cases h; assumption⟩
      | cons a l => exact iff_of_false (by simp) (fun h => nomatch h)

/-- What a search finds is a match somewhere in the text. -/
theorem matches_of_search (h : search items l = some c) : ∃ pre suf, l = pre ++ suf ∧ Matches items suf c := by
  induction l with
  | nil => exact ⟨[], [], rfl, mem_captures_iff.mp (List.mem_of_mem_head? h)⟩
  | cons a l ih =>
    rw [search] at h
    cases hhead : (captures items (a :: l)).head? with
    | some d =>
      rw [hhead, Option.some_or] at h
      obtain rfl := Option.some.inj h
      exact ⟨[], a :: l, rfl, mem_captures_iff.mp (List.mem_of_mem_head? hhead)⟩
    | none =>
      rw [hhead, Option.none_or] at h
      obtain ⟨pre, suf, rfl, hmatch⟩ := ih h
      exact ⟨a :: pre, suf, rfl, hmatch⟩

/-! ## The first match -/

theorem head_captures_one {a : α} (ha : p a = true) (h : (captures items l).head? = some c) :
    (captures (.one p :: items) (a :: l)).head? = some c := by
  rw [captures, if_pos ha]
  exact h

theorem head_downTo {n : Nat} (h : least ≤ n) : (downTo least n).head? = some n := by
  cases n with
  | zero =>
    rw [downTo, if_pos (by omega)]
    rfl
  | succ n =>
    rw [downTo, if_pos h]
    rfl

/-- A run is the longest if it is as long as it may be, or the text goes on with another character. -/
theorem longest_eq {run rest : List α} (hrun : Run p least most run)
    (hstop : most = some run.length ∨ ∀ a ∈ rest.head?, p a = false) :
    longest p most (run ++ rest) = run.length := by
  have hlen : ((run ++ rest).takeWhile p).length = run.length + (rest.takeWhile p).length := by
    rw [List.takeWhile_append_of_pos hrun.1, List.length_append]
  cases hstop with
  | inl hmost =>
    rw [hmost, longest, hlen]
    omega
  | inr hother =>
    have hnone : rest.takeWhile p = [] := by
      cases rest with
      | nil => rfl
      | cons a rest =>
        apply List.takeWhile_cons_of_neg
        rw [hother a rfl]
        decide
    cases most with
    | none => rw [longest, hlen, hnone, List.length_nil, Nat.add_zero]
    | some m =>
      have hm := hrun.2.2 m rfl
      rw [longest, hlen, hnone, List.length_nil]
      omega

/-- A group takes the longest run, if the rest of the pattern matches after it. -/
theorem head_captures_group {run rest : List α} (hrun : Run p least most run)
    (hstop : most = some run.length ∨ ∀ a ∈ rest.head?, p a = false)
    (h : (captures items rest).head? = some c) :
    (captures (.group p least most :: items) (run ++ rest)).head? = some (run :: c) := by
  obtain ⟨ks, hks⟩ := List.head?_eq_some_iff.mp (head_downTo hrun.2.1)
  rw [captures, longest_eq hrun hstop, hks, List.flatMap_cons, List.drop_left, List.take_left,
    List.head?_append, List.head?_map, h]
  rfl

/-- What matches where nothing matches before is found. -/
theorem search_append {pre : List α}
    (hnone : ∀ k < pre.length, captures items ((pre ++ l).drop k) = [])
    (h : (captures items l).head? = some c) : search items (pre ++ l) = some c := by
  induction pre with
  | nil =>
    cases l with
    | nil => exact h
    | cons a l =>
      rw [List.nil_append, search, h]
      rfl
  | cons a pre ih =>
    have hfirst := hnone 0 (Nat.zero_lt_succ _)
    rw [List.drop_zero, List.cons_append] at hfirst
    rw [List.cons_append, search, hfirst, List.head?_nil, Option.none_or]
    apply ih
    intro k hk
    have hnext := hnone (k + 1) (Nat.succ_lt_succ hk)
    rwa [List.cons_append, List.drop_succ_cons] at hnext

end FsCache.Lib.Regex
