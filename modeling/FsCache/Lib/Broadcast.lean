import Mathlib.Data.List.DropRight

/- A broadcast channel that keeps the last `cap` messages, and a buffer that
   keeps the last `cap` entries.

   Every receiver has its own position in what has been sent since the channel
   was made. One that is too far behind is told how many messages it has missed
   and goes on with the oldest that is kept.

     * `Got.recv_ok`, `Got.recv_error`: a receiver gets what is sent from its
       subscription on, in order, less as many messages as it has been told.
     * `Got.eq_passed`: all of it, if it was told of none.
     * `pushBack_rtake`: a bounded buffer holds the last entries pushed. -/

namespace FsCache.Lib

variable {μ : Type}

/-- Two stretches that follow each other. -/
theorem drop_take_split (l : List μ) {i j k : Nat} (hij : i ≤ j) (hjk : j ≤ k) :
    (l.take k).drop i = (l.take j).drop i ++ (l.take k).drop j := by
  have hsplit := List.take_append_drop (j - i) ((l.take k).drop i)
  rw [List.take_drop, List.drop_drop, Nat.add_sub_cancel' hij, List.take_take, Nat.min_eq_left hjk] at hsplit
  exact hsplit.symm

/-- Where it was subscribed, its position, and how many messages it has missed. -/
structure Receiver where
  start : Nat
  next : Nat
  missed : Nat

namespace Receiver

def subscribe (sent : List μ) : Receiver := ⟨sent.length, sent.length, 0⟩

/-- The next message, or how many have gone since; `none` while there is nothing to receive. -/
def recv (cap : Nat) (sent : List μ) (r : Receiver) : Option (Except Nat μ × Receiver) :=
  if r.next + cap < sent.length then
    let lag := sent.length - cap - r.next
    some (.error lag, { r with next := r.next + lag, missed := r.missed + lag })
  else sent[r.next]?.map fun m => (.ok m, { r with next := r.next + 1 })

/-- What was sent between its subscription and its position. -/
def passed (sent : List μ) (r : Receiver) : List μ := (sent.take r.next).drop r.start

/-- What a receiver has got. -/
structure Got (sent : List μ) (r : Receiver) (got : List μ) : Prop where
  start_le : r.start ≤ r.next
  next_le : r.next ≤ sent.length
  sublist : got.Sublist (r.passed sent)
  count : got.length + r.missed = r.next - r.start

variable {sent : List μ} {r r' : Receiver} {got : List μ} {cap : Nat}

/-- What is passed is a stretch of what has been sent. -/
theorem length_passed (hle : r.next ≤ sent.length) : (r.passed sent).length = r.next - r.start := by
  rw [passed, List.length_drop, List.length_take, Nat.min_eq_left hle]

theorem passed_append (hle : r.next ≤ sent.length) (more : List μ) :
    r.passed (sent ++ more) = r.passed sent := by
  rw [passed, passed, List.take_append_of_le_length hle]

/-- A position further on, more is passed. -/
theorem passed_next (hstart : r.start ≤ r.next) {next : Nat} (hnext : r.next ≤ next) (missed : Nat) :
    (Receiver.mk r.start next missed).passed sent =
      r.passed sent ++ (sent.take next).drop r.next :=
  drop_take_split sent hstart hnext

theorem Got.subscribe (sent : List μ) : (subscribe sent).Got sent [] where
  start_le := Nat.le_refl _
  next_le := Nat.le_refl _
  sublist := List.nil_sublist _
  count := by simp [Receiver.subscribe]

/-- What is sent later changes nothing. -/
theorem Got.send (h : r.Got sent got) (more : List μ) : r.Got (sent ++ more) got where
  start_le := h.start_le
  next_le := by
    rw [List.length_append]
    exact Nat.le_add_right_of_le h.next_le
  sublist := by
    rw [passed_append h.next_le]
    exact h.sublist
  count := h.count

theorem Got.recv_ok (h : r.Got sent got) {m : μ} (hr : r.recv cap sent = some (.ok m, r')) :
    r'.start = r.start ∧ r'.Got sent (got ++ [m]) := by
  rw [recv] at hr
  split at hr
  · exact absurd hr (by simp)
  · obtain ⟨m', hm, heq⟩ := Option.map_eq_some_iff.mp hr
    obtain ⟨hok, rfl⟩ := Prod.mk.inj heq
    obtain rfl : m' = m := Except.ok.inj hok
    obtain ⟨hlt, hget⟩ := List.getElem?_eq_some_iff.mp hm
    have hstretch : (sent.take (r.next + 1)).drop r.next = [m'] := by
      have hlength : (sent.take r.next).length = r.next := List.length_take_of_le h.next_le
      rw [← hget, List.take_succ_eq_append_getElem hlt, List.drop_append_of_le_length (Nat.le_of_eq hlength.symm),
        List.drop_of_length_le (Nat.le_of_eq hlength), List.nil_append]
    refine ⟨rfl, Nat.le_succ_of_le h.start_le, hlt, ?_, ?_⟩
    · rw [passed_next h.start_le (Nat.le_succ r.next), hstretch]
      exact h.sublist.append_right [m']
    · have hcount := h.count
      have hstart := h.start_le
      show (got ++ [m']).length + r.missed = r.next + 1 - r.start
      rw [List.length_append, List.length_singleton]
      omega

theorem Got.recv_error (h : r.Got sent got) {n : Nat} (hr : r.recv cap sent = some (.error n, r')) :
    r'.start = r.start ∧ r'.Got sent got := by
  have hcount := h.count
  have hstart := h.start_le
  rw [recv] at hr
  split at hr
  · next hlag =>
    obtain ⟨-, rfl⟩ := Prod.mk.inj (Option.some.inj hr)
    refine ⟨rfl, Nat.le_add_right_of_le hstart, by simp only; omega, ?_, by simp only; omega⟩
    rw [passed_next hstart (Nat.le_add_right r.next _)]
    exact h.sublist.trans (List.sublist_append_left _ _)
  · obtain ⟨m', -, heq⟩ := Option.map_eq_some_iff.mp hr
    exact absurd (Prod.mk.inj heq).1 (by simp)

/-- A receiver that has missed nothing has got everything. -/
theorem Got.eq_passed (h : r.Got sent got) (hmissed : r.missed = 0) : got = r.passed sent := by
  refine h.sublist.eq_of_length ?_
  rw [length_passed h.next_le, ← h.count, hmissed, Nat.add_zero]

end Receiver

/-! ## A buffer that keeps the last entries -/

variable {cap : Nat}

/-- `pop_front` at the bound, then `push_back`. -/
def pushBack (cap : Nat) (buf : List μ) (x : μ) : List μ :=
  (if cap ≤ buf.length then buf.tail else buf) ++ [x]

theorem pushBack_rtake (hcap : 0 < cap) (l : List μ) (x : μ) :
    pushBack cap (l.rtake cap) x = (l ++ [x]).rtake cap := by
  rw [pushBack, List.rtake, List.rtake, List.length_drop, List.length_append, List.length_singleton]
  rcases Nat.lt_or_ge l.length cap with hlt | hge
  · rw [if_neg (by omega), show l.length - cap = 0 by omega, show l.length + 1 - cap = 0 by omega]
    rfl
  · rw [if_pos (by omega), List.tail_drop, List.drop_append_of_le_length (by omega)]
    congr 2
    omega

/-! ## Entries by their positions -/

variable {ν : Type} (f : μ → Option ν)

/-- What the entry at a position is taken for. -/
def entryAt (l : List μ) (i : Nat) : Option ν := l[i]?.bind f

theorem filterMap_eq_range (l : List μ) : l.filterMap f = (List.range l.length).filterMap (entryAt f l) := by
  induction l with
  | nil => rfl
  | cons a l ih =>
    rw [List.length_cons, List.range_succ_eq_map, List.filterMap_cons, List.filterMap_cons, List.filterMap_map, ih]
    rfl

/-- A stretch of the list, by its positions. -/
theorem filterMap_stretch {l : List μ} {j : Nat} (hj : j ≤ l.length) (i : Nat) :
    ((l.take j).drop i).filterMap f = (List.range' i (j - i)).filterMap (entryAt f l) := by
  rw [filterMap_eq_range, List.length_drop, List.length_take_of_le hj, List.range'_eq_map_range,
    List.filterMap_map]
  refine List.filterMap_congr fun k hk => ?_
  have hlt : i + k < j := by
    rw [List.mem_range] at hk
    omega
  rw [entryAt, List.getElem?_drop, List.getElem?_take_of_lt hlt]
  rfl

theorem rtake_of_length_le {l : List μ} {n : Nat} (h : l.length ≤ n) : l.rtake n = l := by
  rw [List.rtake, Nat.sub_eq_zero_of_le h, List.drop_zero]

theorem rtake_cons {l : List μ} {n : Nat} (h : n ≤ l.length) (a : μ) : (a :: l).rtake n = l.rtake n := by
  rw [List.rtake, List.length_cons, Nat.succ_sub h, List.drop_succ_cons, List.rtake]

/-- The last entries that are taken, by their positions: fewer than so many come after. -/
theorem rtake_filterMap (l : List μ) (n : Nat) :
    (l.filterMap f).rtake n =
      ((List.range l.length).filter fun i => ((l.drop (i + 1)).filterMap f).length < n).filterMap (entryAt f l) := by
  induction l with
  | nil => simp [List.rtake]
  | cons a l ih =>
    rw [List.length_cons, List.range_succ_eq_map, List.filter_cons, List.filter_map]
    have hrest : (((List.range l.length).filter
        ((fun i => decide (((l.drop i).filterMap f).length < n)) ∘ Nat.succ)).map Nat.succ).filterMap
          (entryAt f (a :: l)) = (l.filterMap f).rtake n := by
      rw [ih, List.filterMap_map]
      rfl
    have hhead : entryAt f (a :: l) 0 = f a := rfl
    simp only [List.drop_succ_cons, List.drop_zero, decide_eq_true_eq]
    cases ha : f a with
    | none =>
      rw [List.filterMap_cons_none ha, ← hrest]
      split
      · rw [List.filterMap_cons_none (hhead.trans ha)]
      · rfl
    | some b =>
      rw [List.filterMap_cons_some ha]
      split
      · next hlt =>
        rw [List.filterMap_cons_some (hhead.trans ha), hrest, rtake_of_length_le hlt,
          rtake_of_length_le (Nat.le_of_lt hlt)]
      · next hge => rw [rtake_cons (by omega), hrest]

end FsCache.Lib
