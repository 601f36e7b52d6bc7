import Mathlib.Data.List.Basic

/- A list that is read page by page while it changes, by a cursor that is a
   position in it.

   A page is the list as it stands when the page is taken and the stretch of it
   that is handed out. Every page starts where the one before has stopped.

     * `count_taken`: a page hands an entry out as often as the entry is passed
       by the cursor on the page.
     * `count_pages`: over all pages, an entry is handed out once for each time
       it is passed; it can also be passed because the list has changed
       (`hidden`), and be in front of the cursor again for the same reason
       (`shown`).
     * `taken_once_iff`: so an entry that stays in the list is handed out exactly
       once, when the pages reach the end, iff the changes have hidden it as
       often as they have shown it. -/

namespace FsCache.Lib

variable {α : Type}

/-- The positions from `start` up to `stop` of the list as it is now. -/
structure Page (α : Type) where
  list : List α
  start : Nat
  stop : Nat
  start_le : start ≤ stop

namespace Page

/-- What the page hands out. -/
def taken (p : Page α) : List α := (p.list.take p.stop).drop p.start

/-- The pages follow each other, the first from position `o`. -/
def Linked : Nat → List (Page α) → Prop
  | _, [] => True
  | o, p :: ps => p.start = o ∧ Linked p.stop ps

/-- The last page goes to the end of its list. -/
def Ends : List (Page α) → Prop
  | [] => False
  | [p] => p.list.length ≤ p.stop
  | _ :: q :: ps => Ends (q :: ps)

variable [DecidableEq α]

/-- How often a change between two pages moves `a` from in front of the cursor to
behind it. -/
def hidden (a : α) : List (Page α) → Nat
  | p :: q :: ps =>
    (if a ∉ p.list.take p.stop ∧ a ∈ q.list.take p.stop then 1 else 0) + hidden a (q :: ps)
  | _ => 0

/-- How often a change between two pages moves `a` from behind the cursor to in
front of it. -/
def shown (a : α) : List (Page α) → Nat
  | p :: q :: ps =>
    (if a ∈ p.list.take p.stop ∧ a ∉ q.list.take p.stop then 1 else 0) + shown a (q :: ps)
  | _ => 0

theorem count_taken (p : Page α) (a : α) :
    (p.list.take p.start).count a + p.taken.count a = (p.list.take p.stop).count a := by
  have h := List.take_append_drop p.start (p.list.take p.stop)
  rw [List.take_take, Nat.min_eq_left p.start_le] at h
  rw [taken, ← List.count_append, h]

/-- An entry of a list without duplicates is before the cursor once or not at all. -/
theorem count_take {l : List α} (hl : l.Nodup) (o : Nat) (a : α) :
    (l.take o).count a = if a ∈ l.take o then 1 else 0 :=
  (hl.sublist (List.take_sublist o l)).count

/-- A list that does not change neither hides nor shows anything. -/
theorem hidden_of_steady {l : List α} (a : α) {pages : List (Page α)} (h : ∀ p ∈ pages, p.list = l) :
    hidden a pages = 0 ∧ shown a pages = 0 := by
  induction pages with
  | nil => exact ⟨rfl, rfl⟩
  | cons p ps ih =>
    cases ps with
    | nil => exact ⟨rfl, rfl⟩
    | cons q ps =>
      obtain ⟨hhidden, hshown⟩ := ih fun r hr => h r (List.mem_cons_of_mem p hr)
      have hsame : q.list = p.list := by rw [h p (by simp), h q (by simp)]
      rw [hidden, shown, hhidden, hshown, hsame, if_neg (fun hp => hp.1 hp.2),
        if_neg (fun hp => hp.2 hp.1)]
      exact ⟨rfl, rfl⟩

theorem count_pages {a : α} {o : Nat} {p : Page α} {ps : List (Page α)}
    (hnodup : ∀ q ∈ p :: ps, q.list.Nodup) (hmem : ∀ q ∈ p :: ps, a ∈ q.list)
    (hlinked : Linked o (p :: ps)) (hends : Ends (p :: ps)) :
    (p.list.take o).count a + ((p :: ps).flatMap taken).count a + hidden a (p :: ps) =
      1 + shown a (p :: ps) := by
  induction ps generalizing o p with
  | nil =>
    obtain ⟨rfl, _⟩ := hlinked
    have htaken := p.count_taken a
    have hall : (p.list.take p.stop).count a = 1 := by
      rw [List.take_of_length_le hends]
      rw [(hnodup p (by simp)).count, if_pos (hmem p (by simp))]
    have hone : ([p].flatMap taken).count a = p.taken.count a := by simp
    rw [hone, htaken, hall]
    rfl
  | cons q ps ih =>
    obtain ⟨rfl, hrest⟩ := hlinked
    have htaken := p.count_taken a
    have hnext := ih (o := p.stop) (p := q) (fun r hr => hnodup r (List.mem_cons_of_mem p hr))
      (fun r hr => hmem r (List.mem_cons_of_mem p hr)) hrest hends
    have hp := count_take (hnodup p (by simp)) p.stop a
    have hq := count_take (hnodup q (by simp)) p.stop a
    have hflat : ((p :: q :: ps).flatMap taken).count a =
        p.taken.count a + ((q :: ps).flatMap taken).count a := by
      rw [List.flatMap_cons, List.count_append]
    rw [hflat, hidden, shown]
    by_cases h₁ : a ∈ p.list.take p.stop <;> by_cases h₂ : a ∈ q.list.take p.stop <;>
      simp only [h₁, h₂, if_true, if_false, not_true_eq_false, not_false_eq_true, and_true,
        and_false, and_self] at hp hq ⊢ <;> omega

theorem taken_once_iff {a : α} {pages : List (Page α)} (hnodup : ∀ p ∈ pages, p.list.Nodup)
    (hmem : ∀ p ∈ pages, a ∈ p.list) (hlinked : Linked 0 pages) (hends : Ends pages) :
    (pages.flatMap taken).count a = 1 ↔ hidden a pages = shown a pages := by
  cases pages with
  | nil => exact hends.elim
  | cons p ps =>
    have h := count_pages hnodup hmem hlinked hends
    rw [List.take_zero, List.count_nil, Nat.zero_add] at h
    omega

end Page

end FsCache.Lib
