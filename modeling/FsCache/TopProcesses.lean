import Mathlib.Algebra.GroupWithZero.Nat
import FsCache.Lib.Ranking
import FsCache.Discovery

/- The ranking of processes (cache/db.rs).

   `top_processes` sums up the buckets of each process, takes the `limit` processes with the largest totals, and
   drops those that have none of the kind asked for. A kind that it does not know drops nothing. Processes of
   one total come in any order.

   Counts are sums of less than 2^63 (`Storable`): beyond that SQLite adds in floating point, or not at all.

   `ranking_iff`: the result is the `limit` largest of those that have the kind, exactly if the limit does not
   get in the way of the kind (`Unobstructed`). `crowded_out`: one that is in the way.

   Correspondence (Rust ↔ Lean):
     `WHERE`, `GROUP BY`             ↔ `groupOf`, `groupNames`
     `SUM`, `MIN`, `MAX`             ↔ `sumCount`, `sumKind`, `minSeen`, `maxText`
     `ORDER BY`, `LIMIT`             ↔ `OrderedGroups`, `limitRows`
     `top_processes` (cache/db.rs)   ↔ `topProcesses`, on the names in that order -/

namespace FsCache
open Lib

structure ProcessSummary where
  processName : Str
  hit : Nat
  miss : Nat
  «meta» : Nat
  total : Nat
  firstSeen : Int
  sampleCmdline : Option Str
  sampleAncestors : Option Str
  deriving DecidableEq

/-! ## The query -/

/-- The rows of a process. -/
def groupOf (table : ProcessAccess) (sinceEpoch : Int) (name : Str) : ProcessAccess :=
  table.filter fun key _ => decide (sinceEpoch ≤ key.1) && key.2.1 == name

def groupNames (table : ProcessAccess) (sinceEpoch : Int) : List Str :=
  ((table.keys.filter fun key => decide (sinceEpoch ≤ key.1)).map fun key => key.2.1).dedup

def sumCount (group : ProcessAccess) : Int := Map.total (fun _ row => row.count) group

def sumKind (group : ProcessAccess) (kind : OpKind) : Int :=
  Map.total (fun key row => if key.2.2 = kind.asStr then row.count else 0) group

def minSeen (group : ProcessAccess) : Int := ((group.values.map AccessRow.firstSeen).min?).getD 0

/-- Texts compare by their bytes, and NULL is left out. -/
def maxText (texts : List (Option Str)) : Option Str :=
  texts.foldl (fun best text =>
    match best, text with
    | none, text => text
    | best, none => best
    | some b, some t => if b < t then some t else some b) none

def summary (name : Str) (group : ProcessAccess) : ProcessSummary where
  processName := name
  hit := (sumKind group .hit).toNat
  miss := (sumKind group .miss).toNat
  «meta» := (sumKind group .meta).toNat
  total := (sumCount group).toNat
  firstSeen := minSeen group
  sampleCmdline := maxText (group.values.map AccessRow.sampleCmdline)
  sampleAncestors := maxText (group.values.map AccessRow.sampleAncestors)

/-- A negative limit is none. -/
def limitRows {α : Type} (limit : Nat) (rows : List α) : List α :=
  if asI64 limit < 0 then rows else rows.take (asI64 limit).toNat

def kindCount (kind : Str) (r : ProcessSummary) : Option Nat :=
  if kind = OpKind.hit.asStr then some r.hit
  else if kind = OpKind.miss.asStr then some r.miss
  else if kind = OpKind.meta.asStr then some r.meta
  else none

def passesKind (kindFilter : Option Str) (r : ProcessSummary) : Bool :=
  match kindFilter with
  | none => true
  | some kind =>
    match kindCount kind r with
    | none => true
    | some count => 0 < count

/-- An order in which the groups may come. -/
def OrderedGroups (table : ProcessAccess) (sinceEpoch : Int) (names : List Str) : Prop :=
  names.Perm (groupNames table sinceEpoch) ∧
    names.Pairwise fun p q => sumCount (groupOf table sinceEpoch q) ≤ sumCount (groupOf table sinceEpoch p)

instance (table : ProcessAccess) (sinceEpoch : Int) (names : List Str) :
    Decidable (OrderedGroups table sinceEpoch names) := inferInstanceAs (Decidable (_ ∧ _))

def topProcesses (table : ProcessAccess) (sinceEpoch : Int) (kindFilter : Option Str) (limit : Nat)
    (names : List Str) : List ProcessSummary :=
  let rows := (limitRows limit names).map fun name => summary name (groupOf table sinceEpoch name)
  rows.filter (passesKind kindFilter)

/-! ## What was upserted -/

/-- The table after some batches, each of which may fail at a row. -/
def recorded (batches : List (List ProcessAccessRow × Nat)) : ProcessAccess :=
  batches.foldl (fun table batch => upsertProcessAccess table batch.1 batch.2) ∅

def upserted (batches : List (List ProcessAccessRow × Nat)) : List ProcessAccessRow :=
  batches.flatMap fun batch => batch.1.take batch.2

/-- What was counted for a process since `sinceEpoch`, of the kinds that meet `p`. -/
def counted (rows : List ProcessAccessRow) (sinceEpoch : Int) (name : Str) (p : Str → Prop) [DecidablePred p] :
    Nat :=
  (rows.map fun row =>
    if (sinceEpoch ≤ row.bucketEpoch ∧ row.processName = name) ∧ p row.opKind then row.count else 0).sum

def countedTotal (rows : List ProcessAccessRow) (sinceEpoch : Int) (name : Str) : Nat :=
  counted rows sinceEpoch name fun _ => True

/-- The processes with a bucket at or after `sinceEpoch`. -/
def processes (rows : List ProcessAccessRow) (sinceEpoch : Int) : Finset Str :=
  ((rows.filter fun row => decide (sinceEpoch ≤ row.bucketEpoch)).map ProcessAccessRow.processName).toFinset

/-- Those with a count of the kind, when one is given. -/
def eligible (rows : List ProcessAccessRow) (sinceEpoch : Int) (kindFilter : Option Str) : Finset Str :=
  (processes rows sinceEpoch).filter fun name =>
    ∀ kind ∈ kindFilter, 0 < counted rows sinceEpoch name fun opKind => opKind = kind

/-- The `limit` largest, and what was counted for them. -/
structure Exact (rows : List ProcessAccessRow) (sinceEpoch : Int) (kindFilter : Option Str) (limit : Nat)
    (result : List ProcessSummary) : Prop where
  heaviest : Heaviest (countedTotal rows sinceEpoch) (eligible rows sinceEpoch kindFilter) limit
    (result.map ProcessSummary.processName)
  hit : ∀ r ∈ result, r.hit = counted rows sinceEpoch r.processName fun opKind => opKind = OpKind.hit.asStr
  miss : ∀ r ∈ result, r.miss = counted rows sinceEpoch r.processName fun opKind => opKind = OpKind.miss.asStr
  «meta» : ∀ r ∈ result, r.meta = counted rows sinceEpoch r.processName fun opKind => opKind = OpKind.meta.asStr
  total : ∀ r ∈ result, r.total = countedTotal rows sinceEpoch r.processName

/-- What the integers of SQLite hold, and its tables. -/
structure Storable (rows : List ProcessAccessRow) : Prop where
  counts : (rows.map ProcessAccessRow.count).sum < 2^63
  rows : rows.length < 2^63

/-- When a process without the kind can be among the first `limit`, the kind is a known one, and those that
have it are always among them. -/
def Unobstructed (rows : List ProcessAccessRow) (sinceEpoch : Int) (kindFilter : Option Str) (limit : Nat) : Prop :=
  ∀ name ∈ processes rows sinceEpoch, name ∉ eligible rows sinceEpoch kindFilter →
    ((processes rows sinceEpoch).filter fun other =>
      countedTotal rows sinceEpoch name < countedTotal rows sinceEpoch other).card < limit →
    (∀ kind ∈ kindFilter, ∃ op : OpKind, kind = op.asStr) ∧
    ∀ kept ∈ eligible rows sinceEpoch kindFilter,
      ((processes rows sinceEpoch).filter fun other =>
        countedTotal rows sinceEpoch kept ≤ countedTotal rows sinceEpoch other).card ≤ limit

section Ranking

variable {rows : List ProcessAccessRow} {sinceEpoch : Int} {name : Str} {names : List Str}
  {kindFilter : Option Str} {limit : Nat}

theorem recorded_eq (batches : List (List ProcessAccessRow × Nat)) :
    recorded batches = (upserted batches).foldl upsertRow ∅ := by
  rw [upserted, List.foldl_flatMap]
  rfl

theorem total_foldl (p : Int × Str × Str → Prop) [DecidablePred p] (rows : List ProcessAccessRow)
    (table : ProcessAccess) :
    Map.total (countWhere p) (rows.foldl upsertRow table) =
      Map.total (countWhere p) table + ((rows.map fun row => if p row.key then row.count else 0).sum : Nat) := by
  induction rows generalizing table with
  | nil => simp
  | cons row rows ih =>
    rw [List.foldl_cons, ih, total_upsertRow, List.map_cons, List.sum_cons]
    split <;> push_cast <;> omega

/-- A sum over a group is what was counted for it. -/
theorem total_groupOf (p : Str → Prop) [DecidablePred p] (rows : List ProcessAccessRow) (sinceEpoch : Int)
    (name : Str) :
    Map.total (fun key row => if p key.2.2 then row.count else 0)
        (groupOf (rows.foldl upsertRow ∅) sinceEpoch name) = counted rows sinceEpoch name p := by
  have hweight : (fun (key : Int × Str × Str) (row : AccessRow) =>
      if (decide (sinceEpoch ≤ key.1) && key.2.1 == name) = true then if p key.2.2 then row.count else 0 else 0) =
      countWhere fun key => (sinceEpoch ≤ key.1 ∧ key.2.1 = name) ∧ p key.2.2 := by
    funext key row
    rw [countWhere]
    by_cases hin : sinceEpoch ≤ key.1 ∧ key.2.1 = name
    · simp [hin]
    · rw [if_neg (by simpa using hin), if_neg fun h => hin h.1]
  rw [groupOf, Map.total_filter, hweight, total_foldl, counted]
  exact Int.zero_add _

theorem sumKind_groupOf (kind : OpKind) :
    sumKind (groupOf (rows.foldl upsertRow ∅) sinceEpoch name) kind =
      counted rows sinceEpoch name fun opKind => opKind = kind.asStr :=
  total_groupOf (fun opKind => opKind = kind.asStr) rows sinceEpoch name

theorem sumCount_groupOf :
    sumCount (groupOf (rows.foldl upsertRow ∅) sinceEpoch name) = countedTotal rows sinceEpoch name := by
  have h := total_groupOf (fun _ => True) rows sinceEpoch name
  simp only [if_true] at h
  exact h

theorem mem_keys_foldl {key : Int × Str × Str} {table : ProcessAccess} :
    key ∈ (rows.foldl upsertRow table).keys ↔ key ∈ table.keys ∨ ∃ row ∈ rows, row.key = key := by
  induction rows generalizing table with
  | nil => simp
  | cons row rows ih =>
    rw [List.foldl_cons, ih, upsertRow, Map.mem_keys_insert]
    simp only [List.mem_cons, exists_eq_or_imp]
    constructor
    · intro h
      obtain (rfl | h) | h := h
      · exact .inr (.inl rfl)
      · exact .inl h
      · exact .inr (.inr h)
    · intro h
      obtain h | rfl | h := h
      · exact .inl (.inr h)
      · exact .inl (.inl rfl)
      · exact .inr h

theorem mem_groupNames :
    name ∈ groupNames (rows.foldl upsertRow ∅) sinceEpoch ↔ name ∈ processes rows sinceEpoch := by
  simp only [groupNames, processes, List.mem_dedup, List.mem_toFinset, List.mem_map, List.mem_filter,
    mem_keys_foldl, decide_eq_true_eq]
  constructor
  · intro h
    obtain ⟨key, ⟨hkey, hsince⟩, rfl⟩ := h
    obtain hempty | ⟨row, hrow, rfl⟩ := hkey
    · exact absurd hempty (by simp)
    · exact ⟨row, ⟨hrow, hsince⟩, rfl⟩
  · intro h
    obtain ⟨row, ⟨hrow, hsince⟩, rfl⟩ := h
    exact ⟨row.key, ⟨.inr ⟨row, hrow, rfl⟩, hsince⟩, rfl⟩

theorem orderedGroups_iff :
    OrderedGroups (rows.foldl upsertRow ∅) sinceEpoch names ↔
      Ranked (countedTotal rows sinceEpoch) (processes rows sinceEpoch) names := by
  have hnames : (groupNames (rows.foldl upsertRow ∅) sinceEpoch).Nodup := List.nodup_dedup _
  simp only [OrderedGroups, sumCount_groupOf, Int.ofNat_le]
  constructor
  · intro h
    exact ⟨h.1.nodup_iff.mpr hnames, fun name => h.1.mem_iff.trans mem_groupNames, h.2⟩
  · intro h
    refine ⟨(List.perm_ext_iff_of_nodup h.nodup hnames).mpr fun name => ?_, h.sorted⟩
    exact (h.mem_iff name).trans mem_groupNames.symm

theorem length_le_of_ranked (h : Ranked (countedTotal rows sinceEpoch) (processes rows sinceEpoch) names) :
    names.length ≤ rows.length := by
  calc names.length
      = (processes rows sinceEpoch).card := h.length
    _ ≤ ((rows.filter fun row => decide (sinceEpoch ≤ row.bucketEpoch)).map ProcessAccessRow.processName).length :=
        List.toFinset_card_le _
    _ ≤ rows.length := by
        rw [List.length_map]
        exact List.length_filter_le _ rows

/-- A limit that is no `i64` is longer than any table. -/
theorem limitRows_eq {α : Type} {l : List α} (hlimit : limit < 2^64) (hl : l.length < 2^63) :
    limitRows limit l = l.take limit := by
  by_cases hlt : limit < 2^63
  · rw [limitRows, asI64_of_lt hlt, if_neg (by omega), Int.toNat_natCast]
  · rw [limitRows, asI64_of_ge hlimit (by omega), if_pos (by omega), List.take_of_length_le (by omega)]

/-- The filter, by the name alone. -/
def passesName (rows : List ProcessAccessRow) (sinceEpoch : Int) (kindFilter : Option Str) (name : Str) : Bool :=
  passesKind kindFilter (summary name (groupOf (rows.foldl upsertRow ∅) sinceEpoch name))

theorem processName_topProcesses (hlimit : limit < 2^64) (hnames : names.length < 2^63) :
    (topProcesses (rows.foldl upsertRow ∅) sinceEpoch kindFilter limit names).map ProcessSummary.processName =
      (names.take limit).filter (passesName rows sinceEpoch kindFilter) := by
  rw [topProcesses, limitRows_eq hlimit hnames, List.filter_map, List.map_map]
  exact List.map_id _

theorem summary_of_mem {r : ProcessSummary}
    (h : r ∈ topProcesses (rows.foldl upsertRow ∅) sinceEpoch kindFilter limit names) :
    r = summary r.processName (groupOf (rows.foldl upsertRow ∅) sinceEpoch r.processName) := by
  obtain ⟨name, -, rfl⟩ := List.mem_map.mp (List.mem_of_mem_filter h)
  rfl

/-- The sums are right in any case. -/
theorem exact_iff (hlimit : limit < 2^64) (hnames : names.length < 2^63) :
    Exact rows sinceEpoch kindFilter limit
        (topProcesses (rows.foldl upsertRow ∅) sinceEpoch kindFilter limit names) ↔
      Heaviest (countedTotal rows sinceEpoch) (eligible rows sinceEpoch kindFilter) limit
        ((names.take limit).filter (passesName rows sinceEpoch kindFilter)) := by
  rw [← processName_topProcesses hlimit hnames]
  constructor
  · exact Exact.heaviest
  · intro h
    refine ⟨h, fun r hr => ?_, fun r hr => ?_, fun r hr => ?_, fun r hr => ?_⟩
    all_goals rw [summary_of_mem hr]
    · exact (congrArg Int.toNat (sumKind_groupOf .hit)).trans (Int.toNat_natCast _)
    · exact (congrArg Int.toNat (sumKind_groupOf .miss)).trans (Int.toNat_natCast _)
    · exact (congrArg Int.toNat (sumKind_groupOf .meta)).trans (Int.toNat_natCast _)
    · exact (congrArg Int.toNat sumCount_groupOf).trans (Int.toNat_natCast _)

/-! ## The kind -/

theorem kindCount_asStr (kind : OpKind) (name : Str) :
    kindCount kind.asStr (summary name (groupOf (rows.foldl upsertRow ∅) sinceEpoch name)) =
      some (counted rows sinceEpoch name fun opKind => opKind = kind.asStr) := by
  have hsum := (congrArg Int.toNat (@sumKind_groupOf rows sinceEpoch name kind)).trans (Int.toNat_natCast _)
  cases kind with
  | hit | miss | «meta» => exact congrArg some hsum

theorem kindCount_unknown {kind : Str} (h : ∀ op : OpKind, kind ≠ op.asStr) (r : ProcessSummary) :
    kindCount kind r = none := by
  rw [kindCount, if_neg (h .hit), if_neg (h .miss), if_neg (h .meta)]

theorem eligible_subset : eligible rows sinceEpoch kindFilter ⊆ processes rows sinceEpoch :=
  Finset.filter_subset _ _

theorem passesName_of_eligible (h : name ∈ eligible rows sinceEpoch kindFilter) :
    passesName rows sinceEpoch kindFilter name = true := by
  cases kindFilter with
  | none => rfl
  | some kind =>
    have hpos := (Finset.mem_filter.mp h).2 kind rfl
    rw [passesName, passesKind]
    by_cases hknown : ∃ op : OpKind, kind = op.asStr
    · obtain ⟨op, rfl⟩ := hknown
      rw [kindCount_asStr]
      exact decide_eq_true hpos
    · -- `_ => true` of the filter
      rw [kindCount_unknown fun op e => hknown ⟨op, e⟩]

/-- Of the others those are dropped of which the kind is known. -/
theorem passesName_iff (hname : name ∈ processes rows sinceEpoch)
    (h : name ∉ eligible rows sinceEpoch kindFilter) :
    passesName rows sinceEpoch kindFilter name = false ↔ ∀ kind ∈ kindFilter, ∃ op : OpKind, kind = op.asStr := by
  cases kindFilter with
  | none => exact absurd (Finset.mem_filter.mpr ⟨hname, fun kind hkind => by cases hkind⟩) h
  | some kind =>
    have hzero : ¬ 0 < counted rows sinceEpoch name fun opKind => opKind = kind := by
      intro hpos
      refine h (Finset.mem_filter.mpr ⟨hname, fun kind' hkind => ?_⟩)
      obtain rfl := Option.some.inj hkind
      exact hpos
    rw [passesName, passesKind]
    constructor
    · intro hdropped kind' hkind
      obtain rfl := Option.some.inj hkind
      by_contra hunknown
      rw [kindCount_unknown fun op e => hunknown ⟨op, e⟩] at hdropped
      cases hdropped
    · intro hknown
      obtain ⟨op, rfl⟩ := hknown kind rfl
      rw [kindCount_asStr]
      exact decide_eq_false hzero

end Ranking

/-- The result is the `limit` largest of the processes with the kind, in every order that it may come in, exactly
if the limit is not in the way of the kind. -/
theorem ranking_iff (batches : List (List ProcessAccessRow × Nat)) (sinceEpoch : Int) (kindFilter : Option Str)
    {limit : Nat} (hlimit : limit < 2^64) (hrows : Storable (upserted batches)) :
    (∀ names, OrderedGroups (recorded batches) sinceEpoch names →
        Exact (upserted batches) sinceEpoch kindFilter limit
          (topProcesses (recorded batches) sinceEpoch kindFilter limit names)) ↔
      Unobstructed (upserted batches) sinceEpoch kindFilter limit := by
  rw [recorded_eq]
  generalize upserted batches = rows at hrows ⊢
  have hexact : ∀ names, Ranked (countedTotal rows sinceEpoch) (processes rows sinceEpoch) names →
      (Exact rows sinceEpoch kindFilter limit
          (topProcesses (rows.foldl upsertRow ∅) sinceEpoch kindFilter limit names) ↔
        Heaviest (countedTotal rows sinceEpoch) (eligible rows sinceEpoch kindFilter) limit
          ((names.take limit).filter (passesName rows sinceEpoch kindFilter))) := fun names h =>
    exact_iff hlimit (Nat.lt_of_le_of_lt (length_le_of_ranked h) hrows.rows)
  calc (∀ names, OrderedGroups (rows.foldl upsertRow ∅) sinceEpoch names →
          Exact rows sinceEpoch kindFilter limit
            (topProcesses (rows.foldl upsertRow ∅) sinceEpoch kindFilter limit names))
      ↔ ∀ names, Ranked (countedTotal rows sinceEpoch) (processes rows sinceEpoch) names →
          Heaviest (countedTotal rows sinceEpoch) (eligible rows sinceEpoch kindFilter) limit
            ((names.take limit).filter (passesName rows sinceEpoch kindFilter)) := by
        constructor
        · intro h names hnames
          exact (hexact names hnames).mp (h names (orderedGroups_iff.mpr hnames))
        · intro h names hnames
          have hranked := orderedGroups_iff.mp hnames
          exact (hexact names hranked).mpr (h names hranked)
    _ ↔ Unobstructed rows sinceEpoch kindFilter limit := by
        rw [heaviest_filter_iff eligible_subset fun name => passesName_of_eligible]
        constructor
        · intro h name hname hnot hcard
          obtain ⟨hdropped, hall⟩ := h name hname hnot hcard
          exact ⟨(passesName_iff hname hnot).mp hdropped, hall⟩
        · intro h name hname hnot hcard
          obtain ⟨hknown, hall⟩ := h name hname hnot hcard
          exact ⟨(passesName_iff hname hnot).mpr hknown, hall⟩

section Busy

/-- Two hits of a process, and a miss of another. -/
private def busy : List (List ProcessAccessRow × Nat) :=
  [([⟨60, [97], OpKind.hit.asStr, 2, none, none⟩, ⟨60, [98], OpKind.miss.asStr, 1, none, none⟩], 2)]

/-- Nothing is in the way of two. -/
theorem two_of_busy : Exact (upserted busy) 0 (some OpKind.miss.asStr) 2
    (topProcesses (recorded busy) 0 (some OpKind.miss.asStr) 2 [[97], [98]]) := by
  refine (ranking_iff busy 0 (some OpKind.miss.asStr) (by decide) ⟨by decide, by decide⟩).mpr ?_ _ (by decide)
  intro name _ _ _
  refine ⟨fun kind hkind => ⟨.miss, (Option.some.inj hkind).symm⟩, ?_⟩
  decide

/-- One process is asked for that has misses, and there is one; but the limit goes to the other. -/
theorem crowded_out : ∃ names, OrderedGroups (recorded busy) 0 names ∧
    topProcesses (recorded busy) 0 (some OpKind.miss.asStr) 1 names = [] ∧
    ¬ Exact (upserted busy) 0 (some OpKind.miss.asStr) 1
      (topProcesses (recorded busy) 0 (some OpKind.miss.asStr) 1 names) :=
  ⟨[[97], [98]], by decide, by decide, fun h => absurd h.heaviest.length (by decide)⟩

end Busy

end FsCache
