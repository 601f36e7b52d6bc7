import FsCache.Lib.Assoc

/- Prepared SQL statements on one table, at the level where their values come by position.

   A record gives every column its value. A statement names columns, and for each of them the
   parameter `?n` or a literal; the parameters are a list, and `?1` is the first of it. A column that
   an INSERT does not name gets its default, one that an UPDATE does not name stays.

   A table is a list of records. `records` lays a finite map out as one, so that a statement on the
   table is an operation on the map: `records_insert`, `records_update`, `filter_key`. -/

namespace FsCache.Lib.Sql
open List

/-- What a statement puts in a column or compares it with. -/
inductive Term (ν : Type) where
  | param (n : Nat)
  | lit (v : ν)

variable {κ ν : Type}

def Term.value (params : List ν) : Term ν → Option ν
  | .param n => if n = 0 then none else params[n - 1]?
  | .lit v => some v

abbrev Record (κ ν : Type) := κ → ν

abbrev Table (κ ν : Type) := List (Record κ ν)

variable [DecidableEq κ]

/-- The record after `SET`, or the one a `VALUES` makes of the defaults. -/
def assign (params : List ν) (settings : List (κ × Term ν)) (r : Record κ ν) : Record κ ν :=
  fun c => ((settings.lookup c).bind (Term.value params)).getD (r c)

variable [DecidableEq ν]

/-- The conjunction of a `WHERE`. -/
def holds (params : List ν) (conds : List (κ × Term ν)) (r : Record κ ν) : Bool :=
  conds.all fun e => e.2.value params == some (r e.1)

/-- `INSERT OR REPLACE`, with the columns of the primary key. -/
def insertOrReplace (primary : List κ) (r : Record κ ν) (t : Table κ ν) : Table κ ν :=
  r :: t.filter fun r' => !primary.all fun c => r' c == r c

def update (params : List ν) (settings conds : List (κ × Term ν)) (t : Table κ ν) : Table κ ν :=
  t.map fun r => if holds params conds r then assign params settings r else r

def select (params : List ν) (columns : List κ) (conds : List (κ × Term ν)) (t : Table κ ν) :
    List (List ν) :=
  (t.filter (holds params conds)).map fun r => columns.map r

/-! ## A finite map as a table -/

section Records

variable {α β : Type} [DecidableEq α] {m : Map α β} {k : α}

/-- The table of a map; `rec` gives the record of a key and its value. -/
def records (record : α → β → Record κ ν) (m : Map α β) : Table κ ν :=
  m.entries.map fun e => record e.1 e.2

theorem filter_key (m : Map α β) (k : α) :
    (m.entries.filter fun e => decide (e.1 = k)) = (m.lookup k).toList.map fun v => ⟨k, v⟩ := by
  cases h : m.lookup k with
  | none =>
    refine List.filter_eq_nil_iff.mpr fun e he hk => ?_
    have hkey : e.1 = k := of_decide_eq_true hk
    have hlook : m.lookup e.1 = some e.2 := AList.mem_lookup_iff.mpr he
    rw [hkey, h] at hlook
    cases hlook
  | some v =>
    have hperm : (m.entries.filter fun e => decide (e.1 = k)) ~ [⟨k, v⟩] := by
      refine (List.perm_ext_iff_of_nodup ?_ (List.nodup_singleton _)).mpr fun e => ?_
      · exact m.nodupKeys.nodup.filter _
      · rw [List.mem_filter, List.mem_singleton, decide_eq_true_eq]
        constructor
        · intro he
          obtain ⟨a, w⟩ := e
          obtain ⟨hmem, rfl⟩ := he
          have hlook : m.lookup a = some w := AList.mem_lookup_iff.mpr hmem
          rw [h] at hlook
          rw [Option.some.inj hlook]
        · intro he
          subst he
          exact ⟨AList.mem_lookup_iff.mp h, rfl⟩
    rw [List.perm_singleton.mp hperm]
    rfl

variable {record : α → β → Record κ ν}

omit [DecidableEq κ] in
/-- Replacing by the primary key is inserting into the map. -/
theorem records_insert {primary : List κ} {v : β}
    (hkey : ∀ a w, (primary.all fun c => record a w c == record k v c) = decide (a = k)) :
    records record (m.insert k v) = insertOrReplace primary (record k v) (records record m) := by
  rw [records, AList.entries_insert, List.map_cons, insertOrReplace, records]
  congr 1
  rw [List.filter_map]
  have herase : m.entries.kerase k = m.entries.filter fun e => e.1 ≠ k := Map.entries_erase m k
  rw [herase]
  congr 1
  refine List.filter_congr fun e _ => ?_
  rw [Function.comp_apply, hkey, ← decide_not]

theorem perm_insert {v w : β} (h : m.lookup k = some v) :
    (m.insert k w).entries ~ m.entries.map fun e => if e.1 = k then ⟨k, w⟩ else e := by
  have hall : ∀ l : List (Sigma fun _ : α => β), l.NodupKeys → (⟨k, v⟩ : Sigma fun _ => β) ∈ l →
      ⟨k, w⟩ :: l.kerase k ~ l.map fun e => if e.1 = k then ⟨k, w⟩ else e := by
    intro l
    induction l with
    | nil => exact fun _ hm => absurd hm List.not_mem_nil
    | cons e l ih =>
      intro hnodup hmem
      rw [List.nodupKeys_cons] at hnodup
      rw [List.map_cons]
      by_cases he : e.1 = k
      · rw [List.kerase_cons_eq he.symm, if_pos he]
        refine (List.Perm.of_eq ?_).cons _
        refine (List.map_id _).symm.trans (List.map_congr_left fun x hx => ?_)
        have hne : x.1 ≠ k := fun hx' => hnodup.1 (by
          rw [he, ← hx']
          exact List.mem_map_of_mem hx)
        rw [if_neg hne, id]
      · rw [List.kerase_cons_ne (Ne.symm he), if_neg he]
        have hmem' : (⟨k, v⟩ : Sigma fun _ => β) ∈ l := by
          cases hmem with
          | head => exact absurd rfl he
          | tail _ hm => exact hm
        exact (List.Perm.swap e _ _).trans ((ih hnodup.2 hmem').cons e)
  exact hall m.entries m.nodupKeys (AList.mem_lookup_iff.mp h)

omit [DecidableEq κ] [DecidableEq ν] in
/-- Changing the record of a key, by any condition that tells it from the others. -/
theorem records_modify {cond : Record κ ν → Bool} {g : Record κ ν → Record κ ν} {f : β → β} {v : β}
    (hcond : ∀ a w, cond (record a w) = decide (a = k)) (hset : ∀ w, g (record k w) = record k (f w))
    (h : m.lookup k = some v) :
    records record (m.insert k (f v)) ~ (records record m).map fun r => if cond r then g r else r := by
  have hmap : ((records record m).map fun r => if cond r then g r else r) =
      (m.entries.map fun e => if e.1 = k then ⟨k, f v⟩ else e).map fun e => record e.1 e.2 := by
    rw [records, List.map_map, List.map_map]
    refine List.map_congr_left fun e he => ?_
    rw [Function.comp_apply, Function.comp_apply, hcond]
    by_cases hk : e.1 = k
    · have hlook : m.lookup e.1 = some e.2 := AList.mem_lookup_iff.mpr he
      rw [hk, h] at hlook
      rw [if_pos (decide_eq_true hk), if_pos hk, hk, hset, Option.some.inj hlook]
    · rw [if_neg (by simpa using hk), if_neg hk]
  rw [hmap]
  exact (perm_insert h).map _

omit [DecidableEq κ] [DecidableEq ν] in
theorem records_modify_of_none {cond : Record κ ν → Bool} {g : Record κ ν → Record κ ν}
    (hcond : ∀ a w, cond (record a w) = decide (a = k)) (h : m.lookup k = none) :
    ((records record m).map fun r => if cond r then g r else r) = records record m := by
  refine (List.map_congr_left fun r hr => ?_).trans (List.map_id _)
  obtain ⟨e, he, rfl⟩ := List.mem_map.mp hr
  have hne : e.1 ≠ k := by
    intro hk
    have hlook : m.lookup e.1 = some e.2 := AList.mem_lookup_iff.mpr he
    rw [hk, h] at hlook
    cases hlook
  rw [if_neg (by rw [hcond]; simpa using hne), id]

/-- Updating by the key is inserting over the value there, in some order. -/
theorem records_update {params : List ν} {settings conds : List (κ × Term ν)} {f : β → β} {v : β}
    (hwhere : ∀ a w, holds params conds (record a w) = decide (a = k))
    (hset : ∀ w, assign params settings (record k w) = record k (f w)) (h : m.lookup k = some v) :
    records record (m.insert k (f v)) ~ update params settings conds (records record m) :=
  records_modify hwhere hset h

/-- No record of the key, nothing to update. -/
theorem records_update_of_none {params : List ν} {settings conds : List (κ × Term ν)}
    (hwhere : ∀ a w, holds params conds (record a w) = decide (a = k)) (h : m.lookup k = none) :
    update params settings conds (records record m) = records record m :=
  records_modify_of_none hwhere h

omit [DecidableEq κ] in
/-- Selecting by the key gives the record of the key. -/
theorem select_records {params : List ν} {columns : List κ} {conds : List (κ × Term ν)}
    (hwhere : ∀ a w, holds params conds (record a w) = decide (a = k)) :
    select params columns conds (records record m) =
      (m.lookup k).toList.map fun v => columns.map (record k v) := by
  rw [select, records, List.filter_map, List.map_map]
  have hkey : (m.entries.filter (holds params conds ∘ fun e => record e.1 e.2)) =
      m.entries.filter fun e => decide (e.1 = k) :=
    List.filter_congr fun e _ => hwhere e.1 e.2
  rw [hkey, filter_key, List.map_map]
  rfl

end Records

end FsCache.Lib.Sql
