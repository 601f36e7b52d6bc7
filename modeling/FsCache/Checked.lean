import Mathlib.Algebra.BigOperators.Ring.Nat
import Mathlib.Data.List.Sort
import FsCache.Path
import FsCache.Db

/- The files that are checked in the dashboard (tui/app.rs).

   The list shows the cached files of all mounts, in some order, and a key press toggles the file in a line.
   What is checked is kept by its path, without the mount; what is sent to the daemon is every file with a
   checked path, each with its mount. With no path checked it is the file in the highlighted line.

   `targets_iff`: what is sent is what was toggled an odd number of times, exactly if the files of a path are
   toggled alike (`Alike`). `checked_in_both`: one file is toggled, and two are sent.

   Correspondence (Rust ↔ Lean):
     `CachedFileInfo` (tui/state.rs), what is read   ↔ `CachedFileInfo`
     `sort_refs`, stable                             ↔ `sortRefs`
     `toggle_checked_at`                             ↔ `toggleCheckedAt`
     `build_targets`, a target by its two keys       ↔ `buildTargets` -/

namespace FsCache

structure CachedFileInfo where
  path : RelPath
  sizeBytes : Nat
  cachedAt : Nat
  mountId : MountId
  deriving DecidableEq

def CachedFileInfo.target (f : CachedFileInfo) : MountId × RelPath := (f.mountId, f.path)

inductive CacheSort where
  | newest
  | oldest
  | largest
  | smallest
  | nameAz
  deriving DecidableEq

/-- Paths compare component by component. -/
def pathLe (p q : RelPath) : Prop := ¬ q.map Name.bytes < p.map Name.bytes

instance : DecidableRel pathLe := fun p q => inferInstanceAs (Decidable (¬ q.map Name.bytes < p.map Name.bytes))

def sortRefs (files : List CachedFileInfo) (sort : CacheSort) : List CachedFileInfo :=
  match sort with
  | .newest => files.insertionSort fun a b => b.cachedAt ≤ a.cachedAt
  | .oldest => files.insertionSort fun a b => a.cachedAt ≤ b.cachedAt
  | .largest => files.insertionSort fun a b => b.sizeBytes ≤ a.sizeBytes
  | .smallest => files.insertionSort fun a b => a.sizeBytes ≤ b.sizeBytes
  | .nameAz => files.insertionSort fun a b => pathLe a.path b.path

def toggle (checked : Finset RelPath) (path : RelPath) : Finset RelPath :=
  if path ∈ checked then checked.erase path else insert path checked

def toggleCheckedAt (files : List CachedFileInfo) (sort : CacheSort) (checked : Finset RelPath) (idx : Nat) :
    Finset RelPath :=
  match (sortRefs files sort)[idx]? with
  | none => checked
  | some f => toggle checked f.path

def buildTargets (files : List CachedFileInfo) (checked : Finset RelPath) (sel : Nat) (sort : CacheSort) :
    List (MountId × RelPath) :=
  if checked = ∅ then ((sortRefs files sort)[sel]?.map CachedFileInfo.target).toList
  else ((sortRefs files sort).filter fun f => f.path ∈ checked).map CachedFileInfo.target

/-- What is checked after some toggles, from nothing. -/
def checkedAfter (files : List CachedFileInfo) (sort : CacheSort) (idxs : List Nat) : Finset RelPath :=
  idxs.foldl (toggleCheckedAt files sort) ∅

/-! ## Parity -/

/-- The files in the lines that were toggled. -/
def pressed (files : List CachedFileInfo) (sort : CacheSort) (idxs : List Nat) : List CachedFileInfo :=
  idxs.filterMap fun idx => (sortRefs files sort)[idx]?

/-- Toggled an odd number of times. -/
def Selected (files : List CachedFileInfo) (sort : CacheSort) (idxs : List Nat) (f : CachedFileInfo) : Prop :=
  Odd ((pressed files sort idxs).count f)

instance (files : List CachedFileInfo) (sort : CacheSort) (idxs : List Nat) (f : CachedFileInfo) :
    Decidable (Selected files sort idxs f) := inferInstanceAs (Decidable (Odd _))

/-- The files of each path are all selected, and are odd in number, or none of them is. -/
def Alike (files : List CachedFileInfo) (sort : CacheSort) (idxs : List Nat) : Prop :=
  ∀ path ∈ files.map CachedFileInfo.path,
    (∀ f ∈ files, f.path = path → ¬ Selected files sort idxs f) ∨
      ((∀ f ∈ files, f.path = path → Selected files sort idxs f) ∧ Odd (files.countP fun f => f.path = path))

instance (files : List CachedFileInfo) (sort : CacheSort) (idxs : List Nat) : Decidable (Alike files sort idxs) :=
  inferInstanceAs (Decidable (∀ path ∈ _, _))

section Targets

variable {files : List CachedFileInfo} {sort : CacheSort} {idxs : List Nat} {f : CachedFileInfo} {path : RelPath}

theorem perm_sortRefs (files : List CachedFileInfo) (sort : CacheSort) : (sortRefs files sort).Perm files := by
  cases sort with
  | newest | oldest | largest | smallest | nameAz => exact List.perm_insertionSort _ files

theorem mem_toggle {checked : Finset RelPath} {p : RelPath} :
    path ∈ toggle checked p ↔ (path = p ↔ path ∉ checked) := by
  rw [toggle]
  by_cases hpath : path = p
  · subst hpath
    split <;> simp [*]
  · split <;> simp [hpath]

theorem mem_foldl_toggle (fs : List CachedFileInfo) (checked : Finset RelPath) :
    path ∈ fs.foldl (fun checked f => toggle checked f.path) checked ↔
      (Odd (fs.countP fun f => f.path = path) ↔ path ∉ checked) := by
  induction fs generalizing checked with
  | nil => simp
  | cons f fs ih =>
    rw [List.foldl_cons, ih, mem_toggle, List.countP_cons]
    by_cases hpath : f.path = path
    · simp only [hpath, decide_true, if_true, Nat.odd_add_one]
      tauto
    · have hne : path ≠ f.path := fun h => hpath h.symm
      simp only [hpath, decide_false, Bool.false_eq_true, if_false, Nat.add_zero, hne]
      tauto

theorem foldl_toggleCheckedAt (idxs : List Nat) (checked : Finset RelPath) :
    idxs.foldl (toggleCheckedAt files sort) checked =
      (pressed files sort idxs).foldl (fun checked f => toggle checked f.path) checked := by
  induction idxs generalizing checked with
  | nil => rfl
  | cons idx idxs ih =>
    rw [List.foldl_cons, ih, toggleCheckedAt]
    cases hline : (sortRefs files sort)[idx]? with
    | none =>
      have hpressed : pressed files sort (idx :: idxs) = pressed files sort idxs :=
        List.filterMap_cons_none hline
      rw [hpressed]
    | some f =>
      have hpressed : pressed files sort (idx :: idxs) = f :: pressed files sort idxs :=
        List.filterMap_cons_some hline
      rw [hpressed, List.foldl_cons]

theorem mem_of_pressed (h : f ∈ pressed files sort idxs) : f ∈ files := by
  obtain ⟨idx, -, hidx⟩ := List.mem_filterMap.mp h
  exact (perm_sortRefs files sort).mem_iff.mp (List.mem_of_getElem? hidx)

theorem countP_eq_sum (fs : List CachedFileInfo) {s : Finset CachedFileInfo} {p : CachedFileInfo → Bool}
    (hs : ∀ f ∈ fs, f ∈ s ↔ p f = true) : fs.countP p = ∑ f ∈ s, fs.count f := by
  induction fs with
  | nil => simp
  | cons f fs ih =>
    rw [List.countP_cons, ih fun g hg => hs g (List.mem_cons_of_mem f hg)]
    simp only [List.count_cons, Finset.sum_add_distrib, beq_iff_eq, Finset.sum_ite_eq]
    congr 1
    by_cases hf : f ∈ s
    · rw [if_pos hf, if_pos ((hs f List.mem_cons_self).mp hf)]
    · rw [if_neg hf, if_neg fun hp => hf ((hs f List.mem_cons_self).mpr hp)]

/-- A path is checked when an odd number of its files is selected. -/
theorem mem_checkedAfter : path ∈ checkedAfter files sort idxs ↔
    Odd (files.toFinset.filter fun f => f.path = path ∧ Selected files sort idxs f).card := by
  have hsum : (pressed files sort idxs).countP (fun f => f.path = path) =
      ∑ f ∈ files.toFinset.filter (fun f => f.path = path), (pressed files sort idxs).count f := by
    refine countP_eq_sum _ fun f hf => ?_
    simp [mem_of_pressed hf]
  rw [checkedAfter, foldl_toggleCheckedAt, mem_foldl_toggle, hsum, Finset.odd_sum_iff_odd_card_odd,
    Finset.filter_filter]
  simp only [Finset.notMem_empty, not_false_eq_true, iff_true]
  rfl

/-- Then what is checked is what is selected. -/
theorem alike_iff (hfiles : files.Nodup) :
    Alike files sort idxs ↔
      ∀ f ∈ files, f.path ∈ checkedAfter files sort idxs ↔ Selected files sort idxs f := by
  have hcount : ∀ path, (∀ f ∈ files, f.path = path → Selected files sort idxs f) →
      (path ∈ checkedAfter files sort idxs ↔ Odd (files.countP fun f => f.path = path)) := by
    intro path hall
    have hset : (files.toFinset.filter fun f => f.path = path ∧ Selected files sort idxs f) =
        (files.filter fun f => f.path = path).toFinset := by
      ext f
      simp only [Finset.mem_filter, List.mem_toFinset, List.mem_filter, decide_eq_true_eq]
      constructor
      · exact fun h => ⟨h.1, h.2.1⟩
      · exact fun h => ⟨h.1, h.2, hall f h.1 h.2⟩
    rw [mem_checkedAfter, hset, List.toFinset_card_of_nodup (hfiles.filter _), List.countP_eq_length_filter]
  have hnone : ∀ path, (∀ f ∈ files, f.path = path → ¬ Selected files sort idxs f) →
      path ∉ checkedAfter files sort idxs := by
    intro path hall
    have hset : (files.toFinset.filter fun f => f.path = path ∧ Selected files sort idxs f) = ∅ := by
      apply Finset.filter_eq_empty_iff.mpr
      intro f hf h
      exact hall f (List.mem_toFinset.mp hf) h.1 h.2
    rw [mem_checkedAfter, hset]
    simp
  constructor
  · intro halike f hf
    obtain hall | ⟨hall, hodd⟩ := halike f.path (List.mem_map_of_mem hf)
    · exact iff_of_false (hnone f.path hall) (hall f hf rfl)
    · exact iff_of_true ((hcount f.path hall).mpr hodd) (hall f hf rfl)
  · intro hiff path _
    by_cases hchecked : path ∈ checkedAfter files sort idxs
    · have hall : ∀ f ∈ files, f.path = path → Selected files sort idxs f := by
        intro f hf hpath
        exact (hiff f hf).mp (hpath.symm ▸ hchecked)
      exact .inr ⟨hall, (hcount path hall).mp hchecked⟩
    · left
      intro f hf hpath hselected
      exact hchecked (hpath ▸ (hiff f hf).mpr hselected)

/-- When nothing is checked, a selected file has a selected namesake. -/
theorem exists_namesake (hempty : checkedAfter files sort idxs = ∅) (hf : f ∈ files)
    (hselected : Selected files sort idxs f) :
    ∃ g ∈ files, g ≠ f ∧ Selected files sort idxs g := by
  have heven : ¬ Odd (files.toFinset.filter fun g => g.path = f.path ∧ Selected files sort idxs g).card := by
    rw [← mem_checkedAfter, hempty]
    exact Finset.notMem_empty _
  have hmem : f ∈ files.toFinset.filter fun g => g.path = f.path ∧ Selected files sort idxs g :=
    Finset.mem_filter.mpr ⟨List.mem_toFinset.mpr hf, rfl, hselected⟩
  have hpos := Finset.card_pos.mpr ⟨f, hmem⟩
  -- one at least, and an even number
  have hmany : 1 < (files.toFinset.filter fun g => g.path = f.path ∧ Selected files sort idxs g).card := by
    by_contra hone
    refine heven ?_
    rw [show (files.toFinset.filter fun g => g.path = f.path ∧ Selected files sort idxs g).card = 1 by omega]
    exact odd_one
  obtain ⟨g, hg, hne⟩ := Finset.exists_mem_ne hmany f
  obtain ⟨hgf, -, hgs⟩ := Finset.mem_filter.mp hg
  exact ⟨g, List.mem_toFinset.mp hgf, hne, hgs⟩

end Targets

/-- The selected files, each once. -/
structure SelectedOnce (files : List CachedFileInfo) (sort : CacheSort) (idxs : List Nat)
    (targets : List (MountId × RelPath)) : Prop where
  nodup : targets.Nodup
  mem_iff : ∀ target, target ∈ targets ↔ ∃ f ∈ files, f.target = target ∧ Selected files sort idxs f

section Sent

variable {files : List CachedFileInfo} {sort : CacheSort} {idxs : List Nat} {f : CachedFileInfo}

theorem mem_checked_targets (hdistinct : (files.map CachedFileInfo.target).Nodup) (checked : Finset RelPath)
    (hf : f ∈ files) :
    f.target ∈ ((sortRefs files sort).filter fun g => g.path ∈ checked).map CachedFileInfo.target ↔
      f.path ∈ checked := by
  constructor
  · intro h
    obtain ⟨g, hg, htarget⟩ := List.mem_map.mp h
    have hgf := (perm_sortRefs files sort).mem_iff.mp (List.mem_of_mem_filter hg)
    rw [← List.inj_on_of_nodup_map hdistinct hgf hf htarget]
    exact of_decide_eq_true (List.mem_filter.mp hg).2
  · intro h
    refine List.mem_map_of_mem (List.mem_filter.mpr ⟨?_, decide_eq_true h⟩)
    exact (perm_sortRefs files sort).mem_iff.mpr hf

/-- Targets of files of the list, each once, are compared with the files. -/
theorem selectedOnce_iff (hdistinct : (files.map CachedFileInfo.target).Nodup)
    {targets : List (MountId × RelPath)} (hnodup : targets.Nodup)
    (hfiles : ∀ target ∈ targets, ∃ f ∈ files, f.target = target) :
    SelectedOnce files sort idxs targets ↔
      ∀ f ∈ files, f.target ∈ targets ↔ Selected files sort idxs f := by
  constructor
  · intro honce f hf
    rw [honce.mem_iff]
    constructor
    · intro h
      obtain ⟨g, hg, htarget, hselected⟩ := h
      rwa [← List.inj_on_of_nodup_map hdistinct hg hf htarget]
    · exact fun h => ⟨f, hf, rfl, h⟩
  · intro hiff
    refine { nodup := hnodup, mem_iff := fun target => ?_ }
    constructor
    · intro h
      obtain ⟨f, hf, rfl⟩ := hfiles target h
      exact ⟨f, hf, rfl, (hiff f hf).mp h⟩
    · intro h
      obtain ⟨f, hf, rfl, hselected⟩ := h
      exact (hiff f hf).mpr hselected

/-- With nothing checked one target is sent at most, and the selected files are two at least. -/
theorem not_once_of_empty (hdistinct : (files.map CachedFileInfo.target).Nodup) (sel : Nat)
    (hempty : checkedAfter files sort idxs = ∅) (hf : f ∈ files) (hselected : Selected files sort idxs f) :
    ¬ SelectedOnce files sort idxs ((sortRefs files sort)[sel]?.map CachedFileInfo.target).toList := by
  intro honce
  obtain ⟨g, hg, hne, hgs⟩ := exists_namesake hempty hf hselected
  -- both would have to be the file in the highlighted line
  have hft := (honce.mem_iff f.target).mpr ⟨f, hf, rfl, hselected⟩
  have hgt := (honce.mem_iff g.target).mpr ⟨g, hg, rfl, hgs⟩
  rw [Option.mem_toList] at hft hgt
  exact hne (List.inj_on_of_nodup_map hdistinct hg hf (Option.mem_unique hgt hft))

end Sent

/-- What is sent is what was selected, whatever line is highlighted, exactly if the files of a path are
toggled alike. -/
theorem targets_iff {files : List CachedFileInfo} (hdistinct : (files.map CachedFileInfo.target).Nodup)
    (sort : CacheSort) (idxs : List Nat) (sel : Nat) (hsome : ∃ f ∈ files, Selected files sort idxs f) :
    SelectedOnce files sort idxs (buildTargets files (checkedAfter files sort idxs) sel sort) ↔
      Alike files sort idxs := by
  rw [alike_iff hdistinct.of_map, buildTargets]
  by_cases hempty : checkedAfter files sort idxs = ∅
  · rw [if_pos hempty]
    obtain ⟨f, hf, hselected⟩ := hsome
    -- a selected file is not checked, so neither side holds
    refine iff_of_false (not_once_of_empty hdistinct sel hempty hf hselected) fun hiff => ?_
    have hin := (hiff f hf).mpr hselected
    rw [hempty] at hin
    exact absurd hin (Finset.notMem_empty _)
  · rw [if_neg hempty]
    have hperm := perm_sortRefs files sort
    have hnodup := ((hperm.map CachedFileInfo.target).nodup_iff.mpr hdistinct).sublist
      (List.filter_sublist (p := fun f => f.path ∈ checkedAfter files sort idxs).map _)
    rw [selectedOnce_iff hdistinct hnodup]
    · apply forall₂_congr
      intro f hf
      rw [mem_checked_targets hdistinct _ hf]
    · intro target h
      obtain ⟨f, hf, htarget⟩ := List.mem_map.mp h
      exact ⟨f, hperm.mem_iff.mp (List.mem_of_mem_filter hf), htarget⟩

section Lists

private def shared : RelPath := [⟨[97], Eq.refl true⟩]
private def single : RelPath := [⟨[98], Eq.refl true⟩]

/-- Two mounts have a file `a`, and one has a file `b`. -/
private def namesakes : List CachedFileInfo :=
  [⟨shared, 30, 3, [49]⟩, ⟨shared, 20, 2, [50]⟩, ⟨single, 10, 1, [49]⟩]

/-- The file that is there once is toggled, and the others are left alone. -/
theorem single_sent : SelectedOnce namesakes .newest [2]
    (buildTargets namesakes (checkedAfter namesakes .newest [2]) 0 .newest) :=
  (targets_iff (by decide) .newest [2] 0 (by decide)).mpr (by decide)

/-- One of the others is toggled, and both are sent. -/
theorem checked_in_both :
    buildTargets namesakes (checkedAfter namesakes .newest [0]) 0 .newest = [([49], shared), ([50], shared)] ∧
    Selected namesakes .newest [0] ⟨shared, 30, 3, [49]⟩ ∧
    ¬ Selected namesakes .newest [0] ⟨shared, 20, 2, [50]⟩ ∧
    ¬ SelectedOnce namesakes .newest [0]
      (buildTargets namesakes (checkedAfter namesakes .newest [0]) 0 .newest) := by
  refine ⟨by decide, by decide, by decide, fun h => ?_⟩
  have hboth := (h.mem_iff ([50], shared)).mp (by decide)
  exact absurd hboth (by decide)

end Lists

end FsCache
