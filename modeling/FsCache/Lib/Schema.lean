import FsCache.Lib.Sql

/- A table that gets its columns one by one (`ALTER TABLE .. ADD COLUMN`), and prepared statements
   that may name a column it has not got yet. Such a statement cannot be prepared, and does nothing.

   A `StoredTable` table gives a value to the columns it has. `StoredTable.reads` fills in the default of each
   other column, which is what the column reads once it is added (`reads_addColumn`). On what is read
   so, a statement that can be prepared does what `Sql` says of it (`reads_insertOrReplace`,
   `reads_update`, `reads_delete`, `select_reads`). -/

namespace FsCache.Lib.Sql
open List

variable {κ ν : Type}

structure StoredTable (κ ν : Type) where
  columns : κ → Bool
  records : Table κ (Option ν)
  fits : ∀ r ∈ records, ∀ c, (r c).isSome = columns c

/-- A value, by the record as it was. -/
abbrev Expr (κ ν : Type) := Record κ (Option ν) → Option ν

def Term.expr (params : List ν) (t : Term ν) : Expr κ ν := Function.const _ (t.value params)

/-- An absent column reads as its default. -/
def fill (default : Record κ ν) (r : Record κ (Option ν)) : Record κ ν := fun c => (r c).getD (default c)

namespace StoredTable

def empty (columns : κ → Bool) : StoredTable κ ν := ⟨columns, [], fun _ hr => absurd hr List.not_mem_nil⟩

/-- Every column that is named is there. -/
def prepares (t : StoredTable κ ν) (names : List κ) : Bool := names.all t.columns

def reads (default : Record κ ν) (t : StoredTable κ ν) : Table κ ν := t.records.map (fill default)

variable {t : StoredTable κ ν} {names : List κ} {default : Record κ ν} {r : Record κ (Option ν)} {c : κ}

theorem value_of_mem (hr : r ∈ t.records) (hc : t.columns c = true) : ∃ v, r c = some v :=
  Option.isSome_iff_exists.mp ((t.fits r hr c).trans hc)

theorem absent_of_mem (hr : r ∈ t.records) (hc : t.columns c = false) : r c = none :=
  Option.not_isSome_iff_eq_none.mp (by rw [t.fits r hr c, hc]; exact Bool.false_ne_true)

theorem fill_of_mem (hr : r ∈ t.records) (hc : t.columns c = true) : r c = some (fill default r c) := by
  obtain ⟨v, hv⟩ := value_of_mem hr hc
  rw [fill, hv, Option.getD_some]

theorem prepares_append {names' : List κ} :
    t.prepares (names ++ names') = true ↔ t.prepares names = true ∧ t.prepares names' = true := by
  rw [prepares, List.all_append, Bool.and_eq_true, prepares, prepares]

theorem prepares_mem (h : t.prepares names = true) (hc : c ∈ names) : t.columns c = true :=
  List.all_eq_true.mp h c hc

/-- The records through a function that keeps the columns. -/
def mapRecords (t : StoredTable κ ν) (f : Record κ (Option ν) → Record κ (Option ν))
    (hf : ∀ r ∈ t.records, ∀ c, (f r c).isSome = (r c).isSome) : StoredTable κ ν where
  columns := t.columns
  records := t.records.map f
  fits r hr c := by
    obtain ⟨r₀, hr₀, rfl⟩ := List.mem_map.mp hr
    exact (hf r₀ hr₀ c).trans (t.fits r₀ hr₀ c)

def filterRecords (t : StoredTable κ ν) (keep : Record κ (Option ν) → Bool) : StoredTable κ ν where
  columns := t.columns
  records := t.records.filter keep
  fits r hr c := t.fits r (List.mem_filter.mp hr).1 c

/-- With the values of a record in the columns there are. -/
def consRecord (t : StoredTable κ ν) (r : Record κ ν) : StoredTable κ ν where
  columns := t.columns
  records := (fun c => if t.columns c then some (r c) else none) :: t.records
  fits r' hr c := by
    rcases List.mem_cons.mp hr with rfl | hr
    · show (if t.columns c then some (r c) else none).isSome = t.columns c
      cases t.columns c <;> rfl
    · exact t.fits r' hr c

variable [DecidableEq κ]

/-- `ALTER TABLE .. ADD COLUMN c DEFAULT v`; a column that is there already is an error. -/
def addColumn (t : StoredTable κ ν) (c : κ) (v : ν) : Option (StoredTable κ ν) :=
  if t.columns c then none
  else some {
    columns := Function.update t.columns c true
    records := t.records.map fun r => Function.update r c (some v)
    fits := by
      intro r hr c'
      obtain ⟨r₀, hr₀, rfl⟩ := List.mem_map.mp hr
      by_cases hc : c' = c
      · subst hc
        rw [Function.update_self, Function.update_self, Option.isSome_some]
      · rw [Function.update_of_ne hc, Function.update_of_ne hc]
        exact t.fits r₀ hr₀ c' }

/-- Adding a column with its default changes nothing that is read. -/
theorem reads_addColumn {t' : StoredTable κ ν} (h : t.addColumn c (default c) = some t') :
    t'.reads default = t.reads default := by
  rw [addColumn] at h
  split at h
  · exact absurd h (by simp)
  · next hc =>
    obtain rfl := Option.some.inj h
    rw [reads, reads, List.map_map]
    refine List.map_congr_left fun r hr => funext fun c' => ?_
    by_cases he : c' = c
    · subst he
      have hnone : r c' = none := absent_of_mem hr (by simpa using hc)
      rw [Function.comp_apply, fill, fill, Function.update_self, hnone, Option.getD_some, Option.getD_none]
    · rw [Function.comp_apply, fill, fill, Function.update_of_ne he]

theorem columns_addColumn {t' : StoredTable κ ν} {v : ν} (h : t.addColumn c v = some t') :
    t'.columns = Function.update t.columns c true := by
  rw [addColumn] at h
  split at h
  · exact absurd h (by simp)
  · rw [← Option.some.inj h]

/-- A column that is there cannot be added. -/
theorem columns_getD_addColumn {v : ν} : ((t.addColumn c v).getD t).columns c = true := by
  cases h : t.addColumn c v with
  | none =>
    rw [addColumn] at h
    split at h
    · next hc => exact hc
    · exact absurd h (by simp)
  | some t' => rw [Option.getD_some, columns_addColumn h, Function.update_self]

/-- The record after `SET`. -/
def put (settings : List (κ × Expr κ ν)) (r : Record κ (Option ν)) : Record κ (Option ν) :=
  fun c => (r c).map fun v => ((settings.lookup c).bind fun e => e r).getD v

/-- An absent column is not set. -/
theorem lookup_eq_none {β : Type} {settings : List (κ × β)} (h : t.prepares (settings.map Prod.fst) = true)
    (hc : t.columns c = false) : settings.lookup c = none := by
  rw [List.lookup_eq_none_iff]
  intro p hp
  rw [bne_iff_ne]
  intro hsame
  have hthere : t.columns p.1 = true := prepares_mem h (List.mem_map_of_mem hp)
  rw [← hsame, hc] at hthere
  exact absurd hthere (by simp)

/-- Parameters and literals, as expressions. -/
def constants (params : List ν) (settings : List (κ × Term ν)) : List (κ × Expr κ ν) :=
  settings.map fun e => (e.1, e.2.expr params)

theorem lookup_constants (params : List ν) (settings : List (κ × Term ν)) (c : κ) :
    (constants params settings).lookup c = (settings.lookup c).map (Term.expr params) := by
  induction settings with
  | nil => rfl
  | cons e settings ih =>
    rw [constants, List.map_cons, List.lookup_cons, List.lookup_cons]
    cases c == e.1 with
    | true => rfl
    | false => exact ih

/-- With parameters and literals only, it is the record that `Sql` assigns. -/
theorem fill_put {params : List ν} {settings : List (κ × Term ν)} (hr : r ∈ t.records)
    (h : t.prepares (settings.map Prod.fst) = true) :
    fill default (put (constants params settings) r) = assign params settings (fill default r) := by
  funext c
  rw [fill, put, assign, lookup_constants]
  cases hc : t.columns c with
  | false =>
    rw [lookup_eq_none h hc, fill, absent_of_mem hr hc]
    rfl
  | true =>
    obtain ⟨v, hv⟩ := value_of_mem hr hc
    rw [fill, hv, Option.map_some, Option.getD_some, Option.getD_some]
    cases settings.lookup c <;> rfl

variable [DecidableEq ν]

/-- The conjunction of a `WHERE`. -/
def meets (params : List ν) (conds : List (κ × Term ν)) (r : Record κ (Option ν)) : Bool :=
  conds.all fun e => e.2.value params == r e.1

omit [DecidableEq κ] in
theorem meets_eq_holds {params : List ν} {conds : List (κ × Term ν)} (hr : r ∈ t.records)
    (h : t.prepares (conds.map Prod.fst) = true) : meets params conds r = holds params conds (fill default r) := by
  rw [Bool.eq_iff_iff, meets, holds, List.all_eq_true, List.all_eq_true]
  refine forall₂_congr fun e he => ?_
  rw [← fill_of_mem hr (prepares_mem h (List.mem_map_of_mem he))]

/-! ## The statements -/

def insertOrReplace (primary : List κ) (params : List ν) (settings : List (κ × Term ν)) (default : Record κ ν)
    (t : StoredTable κ ν) : StoredTable κ ν :=
  if t.prepares (settings.map Prod.fst) then
    let r := assign params settings default
    (t.filterRecords fun r' => !primary.all fun c => r' c == some (r c)).consRecord r
  else t

/-- `INSERT OR IGNORE` -/
def insertOrIgnore (primary : List κ) (params : List ν) (settings : List (κ × Term ν)) (default : Record κ ν)
    (t : StoredTable κ ν) : StoredTable κ ν :=
  if t.prepares (settings.map Prod.fst) then
    let r := assign params settings default
    if t.records.any fun r' => primary.all fun c => r' c == some (r c) then t else t.consRecord r
  else t

def update (params : List ν) (settings : List (κ × Expr κ ν)) (conds : List (κ × Term ν)) (t : StoredTable κ ν) :
    StoredTable κ ν :=
  if t.prepares (settings.map Prod.fst ++ conds.map Prod.fst) then
    t.mapRecords (fun r => if meets params conds r then put settings r else r) fun r _ c => by
      split
      · exact Option.isSome_map
      · rfl
  else t

def delete (params : List ν) (conds : List (κ × Term ν)) (t : StoredTable κ ν) : StoredTable κ ν :=
  if t.prepares (conds.map Prod.fst) then t.filterRecords fun r => !meets params conds r else t

/-- Fails where a column is named that is not there. -/
def select (params : List ν) (columns : List κ) (conds : List (κ × Term ν)) (t : StoredTable κ ν) :
    Option (List (List ν)) :=
  if t.prepares (columns ++ conds.map Prod.fst) then
    some ((t.records.filter (meets params conds)).map fun r => columns.filterMap r)
  else none

section Statements

variable {primary : List κ} {params : List ν} {settings : List (κ × Term ν)} {conds : List (κ × Term ν)}

/-- A statement gives the table no column, and takes none. -/
theorem columns_insertOrReplace : (t.insertOrReplace primary params settings default).columns = t.columns := by
  rw [insertOrReplace]
  split <;> rfl

theorem columns_insertOrIgnore : (t.insertOrIgnore primary params settings default).columns = t.columns := by
  rw [insertOrIgnore]
  dsimp only
  split
  · split <;> rfl
  · rfl

theorem columns_update {exprs : List (κ × Expr κ ν)} : (t.update params exprs conds).columns = t.columns := by
  rw [update]
  split <;> rfl

omit [DecidableEq κ] in
theorem columns_delete : (t.delete params conds).columns = t.columns := by
  rw [delete]
  split <;> rfl

omit [DecidableEq κ] in
theorem all_eq_fill {r' : Record κ ν} (hprimary : t.prepares primary = true) (hr : r ∈ t.records) :
    (primary.all fun c => r c == some (r' c)) = primary.all fun c => fill default r c == r' c := by
  rw [Bool.eq_iff_iff, List.all_eq_true, List.all_eq_true]
  refine forall₂_congr fun c hc => ?_
  have hfill : r c = some (fill default r c) := fill_of_mem hr (prepares_mem hprimary hc)
  rw [hfill, beq_iff_eq, beq_iff_eq, Option.some.injEq]

omit [DecidableEq ν] in
theorem reads_consRecord (h : t.prepares (settings.map Prod.fst) = true) :
    (t.consRecord (assign params settings default)).reads default =
      assign params settings default :: t.reads default := by
  rw [reads, consRecord, List.map_cons, reads]
  congr 1
  funext c
  cases hc : t.columns c with
  | true => simp [fill, hc]
  | false => simp [fill, hc, assign, lookup_eq_none h hc]

theorem reads_insertOrReplace (h : t.prepares (settings.map Prod.fst) = true)
    (hprimary : t.prepares primary = true) :
    (t.insertOrReplace primary params settings default).reads default =
      Sql.insertOrReplace primary (assign params settings default) (t.reads default) := by
  rw [insertOrReplace, if_pos h]
  refine (reads_consRecord (t := t.filterRecords _) h).trans ?_
  rw [Sql.insertOrReplace, reads, reads, filterRecords, List.filter_map]
  congr 2
  refine List.filter_congr fun r hr => ?_
  rw [Function.comp_apply, all_eq_fill hprimary hr]

theorem reads_insertOrIgnore (h : t.prepares (settings.map Prod.fst) = true)
    (hprimary : t.prepares primary = true) :
    (t.insertOrIgnore primary params settings default).reads default =
      if (t.reads default).any fun r' => primary.all fun c => r' c == assign params settings default c
      then t.reads default else assign params settings default :: t.reads default := by
  have hany : (t.records.any fun r' => primary.all fun c => r' c == some (assign params settings default c)) =
      (t.reads default).any fun r' => primary.all fun c => r' c == assign params settings default c := by
    rw [reads, List.any_map, Bool.eq_iff_iff, List.any_eq_true, List.any_eq_true]
    refine exists_congr fun r => and_congr_right fun hr => ?_
    rw [Function.comp_apply, all_eq_fill hprimary hr]
  rw [insertOrIgnore, if_pos h]
  dsimp only
  rw [hany, apply_ite (reads default), reads_consRecord h]

theorem reads_update {exprs : List (κ × Expr κ ν)} {f : Record κ ν → Record κ ν}
    (h : t.prepares (exprs.map Prod.fst ++ conds.map Prod.fst) = true)
    (hf : ∀ r ∈ t.records, fill default (put exprs r) = f (fill default r)) :
    (t.update params exprs conds).reads default =
      (t.reads default).map fun r => if holds params conds r then f r else r := by
  rw [update, if_pos h, reads, mapRecords, reads, List.map_map, List.map_map]
  refine List.map_congr_left fun r hr => ?_
  rw [Function.comp_apply, Function.comp_apply, meets_eq_holds hr (prepares_append.mp h).2, apply_ite (fill default),
    hf r hr]

omit [DecidableEq κ] in
theorem reads_delete (h : t.prepares (conds.map Prod.fst) = true) :
    (t.delete params conds).reads default = (t.reads default).filter fun r => !holds params conds r := by
  rw [delete, if_pos h, reads, filterRecords, reads, List.filter_map]
  congr 1
  refine List.filter_congr fun r hr => ?_
  rw [Function.comp_apply, meets_eq_holds hr h]

omit [DecidableEq κ] in
theorem select_reads {columns : List κ} (h : t.prepares (columns ++ conds.map Prod.fst) = true) :
    t.select params columns conds = some (Sql.select params columns conds (t.reads default)) := by
  obtain ⟨hcolumns, hconds⟩ := prepares_append.mp h
  rw [select, if_pos h, Sql.select, reads, List.filter_map, List.map_map]
  have hsame : t.records.filter (meets params conds) = t.records.filter (holds params conds ∘ fill default) :=
    List.filter_congr fun r hr => meets_eq_holds hr hconds
  rw [hsame]
  refine congrArg some (List.map_congr_left fun r hr => ?_)
  have hmem : r ∈ t.records := (List.mem_filter.mp hr).1
  rw [Function.comp_apply, ← List.filterMap_eq_map]
  refine List.filterMap_congr fun c hc => ?_
  exact fill_of_mem hmem (prepares_mem hcolumns hc)

end Statements

end StoredTable

/-! ## In any order of the records -/

section Perm

variable [DecidableEq κ] [DecidableEq ν] {α β : Type} [DecidableEq α] {m : Map α β} {k : α} {record : α → β → Record κ ν}
  {t : Table κ ν}

omit [DecidableEq κ] in
/-- A query by the key has one result at most, so the order does not matter. -/
theorem select_perm {params : List ν} {columns : List κ} {conds : List (κ × Term ν)} (ht : t ~ records record m)
    (hwhere : ∀ a w, holds params conds (record a w) = decide (a = k)) :
    select params columns conds t = (m.lookup k).toList.map fun v => columns.map (record k v) := by
  have hperm : select params columns conds t ~ select params columns conds (records record m) :=
    (ht.filter _).map _
  rw [select_records hwhere] at hperm
  cases h : m.lookup k with
  | none =>
    rw [h] at hperm
    exact List.perm_nil.mp hperm
  | some v =>
    rw [h, Option.toList_some, List.map_singleton] at hperm
    exact List.perm_singleton.mp hperm

omit [DecidableEq κ] [DecidableEq ν] in
theorem records_erase {cond : Record κ ν → Bool} (hcond : ∀ a w, cond (record a w) = decide (a = k)) :
    records record (m.erase k) = (records record m).filter fun r => !cond r := by
  have herase : m.entries.kerase k = m.entries.filter fun e => e.1 ≠ k := Map.entries_erase m k
  rw [records, records, List.filter_map]
  show (m.entries.kerase k).map _ = _
  rw [herase]
  congr 1
  refine List.filter_congr fun e _ => ?_
  rw [Function.comp_apply, hcond, ← decide_not]

end Perm

end FsCache.Lib.Sql
