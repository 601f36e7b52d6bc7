import Mathlib.Data.List.AList
import Mathlib.Algebra.Order.BigOperators.Group.List
import Mathlib.Algebra.Order.Group.Int
import Mathlib.Algebra.Ring.Int.Defs

/- Finite maps with enumerable keys: Mathlib's association lists, with the two
   lookup equations in the `if` form that a case split on keys wants,
   `moveKey`, which carries the value of one key over to another, and `total`,
   the sum of a weight over the entries. -/

namespace FsCache.Lib

abbrev Map (κ ν : Type) := AList fun _ : κ => ν

variable {κ ν : Type} [DecidableEq κ]

namespace Map

theorem lookup_insert_if (m : Map κ ν) (a k : κ) (b : ν) :
    (m.insert a b).lookup k = if k = a then some b else m.lookup k := by
  by_cases h : k = a
  · subst h
    rw [if_pos rfl, AList.lookup_insert]
  · rw [if_neg h, AList.lookup_insert_ne h]

theorem lookup_erase_if (m : Map κ ν) (a k : κ) :
    (m.erase a).lookup k = if k = a then none else m.lookup k := by
  by_cases h : k = a
  · subst h
    rw [if_pos rfl, AList.lookup_erase]
  · rw [if_neg h, AList.lookup_erase_ne h]

/-- The other entries stay in their order. -/
theorem entries_erase (m : Map κ ν) (a : κ) : (m.erase a).entries = m.entries.filter fun e => e.1 ≠ a := by
  have hall : ∀ l : List (Sigma fun _ : κ => ν), l.NodupKeys →
      l.kerase a = l.filter fun e => e.1 ≠ a := by
    intro l
    induction l with
    | nil => exact fun _ => rfl
    | cons e l ih =>
      intro hnodup
      rw [List.nodupKeys_cons] at hnodup
      by_cases he : a = e.1
      · subst he
        rw [List.kerase_cons_eq rfl, List.filter_cons_of_neg (by simp), List.filter_eq_self.mpr]
        intro x hx
        refine decide_eq_true fun hsame => hnodup.1 ?_
        exact hsame ▸ List.mem_map_of_mem hx
      · rw [List.kerase_cons_ne he, List.filter_cons_of_pos (by simpa using Ne.symm he), ih hnodup.2]
  exact hall m.entries m.nodupKeys

/-- A new key that is erased again. -/
theorem erase_insert {m : Map κ ν} {a : κ} (h : m.lookup a = none) (b : ν) :
    (m.insert a b).erase a = m := by
  have hkey : a ∉ m := AList.lookup_eq_none.mp h
  apply AList.ext
  show (m.insert a b).entries.kerase a = m.entries
  rw [AList.entries_insert_of_notMem hkey]
  exact List.kerase_cons_eq rfl

theorem mem_keys_iff {m : Map κ ν} {k : κ} : k ∈ m.keys ↔ ∃ v, m.lookup k = some v := by
  rw [← AList.mem_keys, ← AList.lookup_isSome, Option.isSome_iff_exists]

theorem mem_keys_insert {m : Map κ ν} {a k : κ} {b : ν} :
    k ∈ (m.insert a b).keys ↔ k = a ∨ k ∈ m.keys := by
  rw [← AList.mem_keys, ← AList.mem_keys, AList.mem_insert]

/-- Erasing a list of keys. -/
theorem lookup_foldl_erase (l : List κ) (m : Map κ ν) (k : κ) :
    (l.foldl (fun m k => m.erase k) m).lookup k = if k ∈ l then none else m.lookup k := by
  induction l generalizing m with
  | nil => simp
  | cons a l ih =>
    rw [List.foldl_cons, ih, lookup_erase_if]
    by_cases hl : k ∈ l
    · simp [hl]
    · by_cases hk : k = a <;> simp [hl, hk]

def values (m : Map κ ν) : List ν := m.entries.map Sigma.snd

theorem mem_values {m : Map κ ν} {v : ν} : v ∈ m.values ↔ ∃ k, m.lookup k = some v := by
  rw [values, List.mem_map]
  constructor
  · rintro ⟨⟨k, w⟩, he, rfl⟩
    exact ⟨k, AList.mem_lookup_iff.mpr he⟩
  · rintro ⟨k, hk⟩
    exact ⟨⟨k, v⟩, AList.mem_lookup_iff.mp hk, rfl⟩

/-- No two keys have the same value. -/
theorem key_unique {m : Map κ ν} (h : m.values.Nodup) {k k' : κ} {v : ν} (hk : m.lookup k = some v)
    (hk' : m.lookup k' = some v) : k = k' := by
  have he := List.inj_on_of_nodup_map h (AList.mem_lookup_iff.mp hk) (AList.mem_lookup_iff.mp hk') rfl
  exact congrArg Sigma.fst he

/-- The entries that meet `p`. -/
def filter (p : κ → ν → Bool) (m : Map κ ν) : Map κ ν :=
  ⟨m.entries.filter fun e => p e.1 e.2, m.nodupKeys.sublist List.filter_sublist⟩

theorem lookup_filter {p : κ → ν → Bool} {m : Map κ ν} {k : κ} {v : ν} :
    (m.filter p).lookup k = some v ↔ m.lookup k = some v ∧ p k v = true := by
  simp only [← Option.mem_def, AList.mem_lookup_iff]
  exact List.mem_filter

omit [DecidableEq κ] in
theorem filter_filter_of_imp {p q : κ → ν → Bool} {m : Map κ ν} (h : ∀ k v, p k v = true → q k v = true) :
    (m.filter q).filter p = m.filter p := by
  apply AList.ext
  show (m.entries.filter fun e => q e.1 e.2).filter (fun e => p e.1 e.2) = m.entries.filter fun e => p e.1 e.2
  rw [List.filter_filter]
  refine List.filter_congr fun e _ => ?_
  by_cases he : p e.1 e.2 = true
  · rw [he, h e.1 e.2 he]
    rfl
  · rw [Bool.not_eq_true] at he
    rw [he, Bool.false_and]

theorem filter_insert_of_pos {p : κ → Bool} {m : Map κ ν} {k : κ} (v : ν) (h : p k = true) :
    filter (fun k _ => p k) (m.insert k v) = (m.filter fun k _ => p k).insert k v := by
  apply AList.ext
  show ((⟨k, v⟩ :: (m.erase k).entries : List (Sigma fun _ : κ => ν)).filter fun e => p e.1) =
    ⟨k, v⟩ :: ((m.filter fun k _ => p k).erase k).entries
  rw [List.filter_cons_of_pos (by exact h), entries_erase, entries_erase]
  show _ :: ((m.entries.filter _).filter _) = _ :: ((m.entries.filter _).filter _)
  rw [List.filter_comm]

theorem filter_insert_of_neg {p : κ → Bool} {m : Map κ ν} {k : κ} (v : ν) (h : p k = false) :
    filter (fun k _ => p k) (m.insert k v) = m.filter fun k _ => p k := by
  apply AList.ext
  show ((⟨k, v⟩ :: (m.erase k).entries : List (Sigma fun _ : κ => ν)).filter fun e => p e.1) =
    m.entries.filter fun e => p e.1
  rw [List.filter_cons_of_neg (by simp [h]), entries_erase, List.filter_filter]
  refine List.filter_congr fun e _ => ?_
  by_cases he : e.1 = k
  · rw [he, h, Bool.false_and]
  · simp [he]

theorem lookup_filter_of_pos {p : κ → Bool} {m : Map κ ν} {k : κ} (h : p k = true) :
    (m.filter fun k _ => p k).lookup k = m.lookup k := by
  apply Option.ext
  intro v
  rw [lookup_filter]
  exact and_iff_left h

/-- The value at `a`, if there is one, moves to `b`; what `b` held is lost. -/
def moveKey (m : Map κ ν) (a b : κ) : Map κ ν :=
  match m.lookup a with
  | none => m
  | some v => (m.erase a).insert b v

theorem lookup_moveKey {m : Map κ ν} {a b : κ} {v : ν} (h : m.lookup a = some v) (k : κ) :
    (m.moveKey a b).lookup k = if k = b then some v else if k = a then none else m.lookup k := by
  simp only [moveKey, h, lookup_insert_if, lookup_erase_if]

theorem moveKey_of_none {m : Map κ ν} {a : κ} (h : m.lookup a = none) (b : κ) :
    m.moveKey a b = m := by
  simp only [moveKey, h]

/-- Moving a list of keys, one after the other. Every key of the list is held,
no key moves onto a key of the list, and no two move onto the same one. -/
theorem lookup_foldl_moveKey (f : κ → κ) : ∀ (l : List κ) (m : Map κ ν), l.Nodup →
    (∀ a ∈ l, ∃ v, m.lookup a = some v) → (∀ a ∈ l, f a ∉ l) →
    (∀ a ∈ l, ∀ b ∈ l, f a = f b → a = b) → ∀ k,
    (∀ a ∈ l, f a = k → (l.foldl (fun m a => m.moveKey a (f a)) m).lookup k = m.lookup a) ∧
    ((∀ a ∈ l, f a ≠ k) → (l.foldl (fun m a => m.moveKey a (f a)) m).lookup k =
      if k ∈ l then none else m.lookup k) := by
  intro l
  induction l with
  | nil => intro m _ _ _ _ k; simp
  | cons a l ih =>
    intro m hnd hheld hoff hinj k
    obtain ⟨ha, hl⟩ := List.nodup_cons.mp hnd
    obtain ⟨v, hv⟩ := hheld a List.mem_cons_self
    have hne : ∀ b ∈ l, b ≠ a := fun b hb e => ha (e ▸ hb)
    have hfa : ∀ b ∈ l, b ≠ f a := fun b hb e =>
      hoff a List.mem_cons_self (e ▸ List.mem_cons_of_mem a hb)
    -- the keys still to move are not touched by the first move
    have hkeep : ∀ b ∈ l, (m.moveKey a (f a)).lookup b = m.lookup b := by
      intro b hb
      rw [lookup_moveKey hv, if_neg (hfa b hb), if_neg (hne b hb)]
    obtain ⟨hmoved, hrest⟩ := ih (m.moveKey a (f a)) hl
      (fun b hb => by rw [hkeep b hb]; exact hheld b (List.mem_cons_of_mem a hb))
      (fun b hb hm => hoff b (List.mem_cons_of_mem a hb) (List.mem_cons_of_mem a hm))
      (fun b hb c hc => hinj b (List.mem_cons_of_mem a hb) c (List.mem_cons_of_mem a hc)) k
    refine ⟨?_, ?_⟩
    · intro b hb hbk
      rcases List.mem_cons.mp hb with rfl | hb
      · have hnone : ∀ c ∈ l, f c ≠ k := fun c hc e =>
          hne c hc (hinj c (List.mem_cons_of_mem b hc) b List.mem_cons_self (e.trans hbk.symm))
        have hkl : k ∉ l := fun hk =>
          hoff b List.mem_cons_self (hbk ▸ List.mem_cons_of_mem b hk)
        rw [List.foldl_cons, hrest hnone, if_neg hkl, lookup_moveKey hv, if_pos hbk.symm, hv]
      · rw [List.foldl_cons, hmoved b hb hbk, hkeep b hb]
    · intro hnone
      rw [List.foldl_cons, hrest fun c hc => hnone c (List.mem_cons_of_mem a hc),
        lookup_moveKey hv, if_neg (Ne.symm (hnone a List.mem_cons_self))]
      by_cases hk : k = a
      · subst hk
        simp
      · simp [hk]

/-- The sum of the weights of the entries. -/
def total (w : κ → ν → Int) (m : Map κ ν) : Int := (m.entries.map fun e => w e.1 e.2).sum

theorem total_insert (w : κ → ν → Int) (m : Map κ ν) (k : κ) (v : ν) :
    total w (m.insert k v) = w k v + total w (m.erase k) := by
  show (((⟨k, v⟩ : Sigma fun _ : κ => ν) :: m.entries.kerase k).map fun e => w e.1 e.2).sum = _
  rw [List.map_cons, List.sum_cons]
  rfl

theorem total_erase (w : κ → ν → Int) {m : Map κ ν} {k : κ} {v : ν} (h : m.lookup k = some v) :
    total w m = w k v + total w (m.erase k) := by
  have hkey : k ∈ m.entries.keys := by
    rw [← AList.keys, mem_keys_iff]
    exact ⟨v, h⟩
  obtain ⟨u, before, after, -, hentries, herase⟩ := List.exists_of_kerase hkey
  have hmem : (⟨k, u⟩ : Sigma fun _ : κ => ν) ∈ m.entries := by simp [hentries]
  obtain rfl : v = u := Option.some.inj (h.symm.trans (AList.mem_lookup_iff.mpr hmem))
  have hleft : (m.erase k).entries = before ++ after := herase
  rw [total, total, hentries, hleft]
  simp only [List.map_append, List.map_cons, List.sum_append, List.sum_cons]
  omega

omit [DecidableEq κ] in
theorem total_filter (w : κ → ν → Int) (p : κ → ν → Bool) (m : Map κ ν) :
    total w (m.filter p) = total (fun k v => if p k v then w k v else 0) m := by
  have hall : ∀ l : List (Sigma fun _ : κ => ν), ((l.filter fun e => p e.1 e.2).map fun e => w e.1 e.2).sum =
      (l.map fun e => if p e.1 e.2 then w e.1 e.2 else 0).sum := by
    intro l
    induction l with
    | nil => rfl
    | cons e l ih =>
      rw [List.map_cons, List.sum_cons, ← ih, List.filter_cons]
      split
      · rw [List.map_cons, List.sum_cons]
      · rw [Int.zero_add]
  exact hall m.entries

theorem erase_of_none {m : Map κ ν} {k : κ} (h : m.lookup k = none) : m.erase k = m := by
  apply AList.ext
  refine List.kerase_of_notMem_keys ?_
  intro hk
  obtain ⟨v, hv⟩ := mem_keys_iff.mp hk
  exact absurd (h.symm.trans hv) (by simp)

theorem total_nonneg {w : κ → ν → Int} {m : Map κ ν}
    (h : ∀ k v, m.lookup k = some v → 0 ≤ w k v) : 0 ≤ total w m := by
  refine List.sum_nonneg fun x hx => ?_
  obtain ⟨e, he, rfl⟩ := List.mem_map.mp hx
  exact h e.1 e.2 (AList.mem_lookup_iff.mpr he)

end Map

end FsCache.Lib
