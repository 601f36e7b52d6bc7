import FsCache.Lib.Run
import FsCache.Inode

/- The inode table under FUSE requests.

   A request names its files as the kernel does, by an inode number and a child
   name. The backing directory may change outside the mount at any time, so
   what it answers is part of the request; a request it refuses does not reach
   the table, and is left out.

   `bijection_iff_renameClear`: along a run from the fresh table the two maps
   stay mutually inverse in every state exactly when every rename meets a table
   in which no path is known both below its old and, with the same suffix,
   below its new name. `rename_path` clears the destination's own entry only, so
   a rename that misses the condition leaves two inodes claiming one path.

   Correspondence (Rust ↔ Lean):
     `do_lookup`, `list_dir_entries`            ↔ `doLookup`, `doReaddir`
     `fresh_attr_for_path`                      ↔ `freshAttrForPath`
     `do_unlink`, `do_rmdir`, `do_rename`       ↔ `doUnlink`, `doRmdir`, `doRename`
     `do_create`, `do_mkdir`, …, `do_link`      ↔ `doCreate`, `doLink` -/

namespace FsCache
open Lib

namespace InodeTable

def childPath (t : InodeTable) (parent : Nat) (name : Name) : Option RelPath :=
  (t.getPath parent).map fun p => p ++ [name]

/-- The entry is made before the backing is asked, so a lookup answered ENOENT
makes one too. -/
def doLookup (t : InodeTable) (parent : Nat) (name : Name) : InodeTable :=
  match t.childPath parent name with
  | none => t
  | some child => (t.getOrCreate child).1

def doReaddir (t : InodeTable) (ino : Nat) (names : List Name) : InodeTable :=
  match t.getPath ino with
  | none => t
  | some parent => names.foldl (fun t name => (t.getOrCreate (parent ++ [name])).1) t

/-- `found`: the stat that follows the accepted request. -/
def freshAttrForPath (t : InodeTable) (path : RelPath) (found : Bool) : InodeTable :=
  if found then (t.getOrCreate path).1 else t

/-- `do_create`, `do_mkdir`, `do_mknod` and `do_symlink`. -/
def doCreate (t : InodeTable) (parent : Nat) (name : Name) (found : Bool) : InodeTable :=
  match t.childPath parent name with
  | none => t
  | some path => t.freshAttrForPath path found

def doLink (t : InodeTable) (ino newparent : Nat) (newname : Name) (found : Bool) : InodeTable :=
  match t.getPath ino, t.childPath newparent newname with
  | some _, some new => t.freshAttrForPath new found
  | _, _ => t

def doUnlink (t : InodeTable) (parent : Nat) (name : Name) : InodeTable :=
  match t.childPath parent name with
  | none => t
  | some path => t.removePath path

def doRmdir (t : InodeTable) (parent : Nat) (name : Name) : InodeTable :=
  match t.childPath parent name with
  | none => t
  | some path => t.removeSubtree path

def doRename (t : InodeTable) (parent : Nat) (name : Name) (newparent : Nat) (newname : Name) :
    InodeTable :=
  match t.childPath parent name, t.childPath newparent newname with
  | some old, some new => t.renamePath old new
  | _, _ => t

end InodeTable

/-- The requests that reach the table. -/
inductive TableRequest where
  | lookup (parent : Nat) (name : Name)
  | readdir (ino : Nat) (names : List Name)
  | create (parent : Nat) (name : Name) (found : Bool)
  | link (ino newparent : Nat) (newname : Name) (found : Bool)
  | unlink (parent : Nat) (name : Name)
  | rmdir (parent : Nat) (name : Name)
  | rename (parent : Nat) (name : Name) (newparent : Nat) (newname : Name)
  | forget (ino nlookup : Nat)

/-- What rename(2) and renameat2(2) never accept: a path moved strictly below
itself (EINVAL), or onto a directory it lies in (ENOTEMPTY or EISDIR, EINVAL for
an exchange). -/
def RenameAccepted (old new : RelPath) : Prop := ¬ Below old new ∧ ¬ Below new old

instance (old new : RelPath) : Decidable (RenameAccepted old new) :=
  inferInstanceAs (Decidable (_ ∧ _))

/-- The two paths of a rename request, when both parents are known. -/
def TableRequest.renamed (t : InodeTable) : TableRequest → Option (RelPath × RelPath)
  | .rename parent name newparent newname =>
    match t.childPath parent name, t.childPath newparent newname with
    | some old, some new => some (old, new)
    | _, _ => none
  | _ => none

def tableStep (t : InodeTable) (r : TableRequest) : Option InodeTable :=
  match r with
  | .lookup parent name => some (t.doLookup parent name)
  | .readdir ino names => some (t.doReaddir ino names)
  | .create parent name found => some (t.doCreate parent name found)
  | .link ino newparent newname found => some (t.doLink ino newparent newname found)
  | .unlink parent name => some (t.doUnlink parent name)
  | .rmdir parent name => some (t.doRmdir parent name)
  | .rename parent name newparent newname =>
    match r.renamed t with
    | none => some t
    | some (old, new) =>
      if RenameAccepted old new then some (t.doRename parent name newparent newname) else none
  | .forget ino nlookup => some (t.forget ino nlookup)

namespace InodeTable

/-- The maps are mutually inverse; so every live inode is reachable by its path,
and forgetting one inode never removes the path of another. -/
structure Bijection (t : InodeTable) : Prop where
  inverse : t.Inverse
  reachable : ∀ i e, t.byIno.lookup i = some e → t.byPath.lookup e.path = some i
  forgets : ∀ i n p j, t.getPathIno p = some j → j ≠ i → (t.forget i n).getPathIno p = some j

/-- Every number in the table was issued. -/
def Issued (t : InodeTable) : Prop := ∀ i e, t.byIno.lookup i = some e → i < t.nextIno

structure Wf (t : InodeTable) : Prop where
  inverse : t.Inverse
  issued : t.Issued

/-- No path is known both below `old` and, with the same suffix, below `new`. -/
def RenameClear (t : InodeTable) (old new : RelPath) : Prop :=
  old = new ∨ ∀ s, s ≠ [] →
    ¬ ((t.getPathIno (old ++ s)).isSome ∧ (t.getPathIno (new ++ s)).isSome)

theorem renameClear_iff {t : InodeTable} {old new : RelPath} :
    t.RenameClear old new ↔ old = new ∨ ∀ p ∈ t.byPath.keys, Below old p →
      t.getPathIno (reroot old new p) = none := by
  refine or_congr_right ⟨fun h p hp hb => ?_, fun h s hs hboth => ?_⟩
  · obtain ⟨s, hs, rfl⟩ := below_iff.mp hb
    rw [reroot_append]
    by_contra hc
    exact h s hs ⟨Option.isSome_iff_exists.mpr (Map.mem_keys_iff.mp hp),
      Option.isSome_iff_ne_none.mpr hc⟩
  · have hnone := h (old ++ s) (Map.mem_keys_iff.mpr (Option.isSome_iff_exists.mp hboth.1))
      (below_append hs)
    rw [reroot_append] at hnone
    rw [hnone] at hboth
    exact absurd hboth.2 (by simp)

instance (t : InodeTable) (old new : RelPath) : Decidable (t.RenameClear old new) :=
  decidable_of_iff _ renameClear_iff.symm

end InodeTable

/-- A rename request meets a table that is clear for it. -/
def ClearRename (t : InodeTable) (r : TableRequest) : Prop :=
  ∀ pq, r.renamed t = some pq → t.RenameClear pq.1 pq.2

instance (t : InodeTable) (r : TableRequest) : Decidable (ClearRename t r) :=
  inferInstanceAs (Decidable (∀ pq, r.renamed t = some pq → t.RenameClear pq.1 pq.2))

namespace InodeTable

/-! ## Each operation keeps the maps inverse -/

theorem Inverse.own {t : InodeTable} (h : t.Inverse) {i : Nat} {e : InodeEntry}
    (he : t.byIno.lookup i = some e) : t.byPath.lookup e.path = some i :=
  (h e.path i).mpr (getPath_eq_some.mpr ⟨e, he, rfl⟩)

theorem Leads.entry {t : InodeTable} (h : t.Leads) {p : RelPath} {i : Nat}
    (hp : t.byPath.lookup p = some i) : ∃ e, t.byIno.lookup i = some e ∧ e.path = p :=
  getPath_eq_some.mp (h p i hp)

theorem Leads.intro {t : InodeTable}
    (h : ∀ p i, t.byPath.lookup p = some i → ∃ e, t.byIno.lookup i = some e ∧ e.path = p) : t.Leads :=
  fun p i hp => getPath_eq_some.mpr (h p i hp)

/-- `Inverse`, from its two directions on lookups. -/
theorem Inverse.intro {t : InodeTable} (hp : t.Leads)
    (hi : ∀ i e, t.byIno.lookup i = some e → t.byPath.lookup e.path = some i) : t.Inverse := by
  intro p i
  constructor
  · exact hp p i
  · intro h
    obtain ⟨e, he, rfl⟩ := getPath_eq_some.mp h
    exact hi i e he

theorem new_wf : new.Wf := by
  have hpath : ∀ p, new.byPath.lookup p = if p = [] then some rootIno else none := by
    intro p
    simp only [new, Map.lookup_insert_if, AList.lookup_empty]
  have hino : ∀ i, new.byIno.lookup i = if i = rootIno then some ⟨[], u64Max⟩ else none := by
    intro i
    simp only [new, Map.lookup_insert_if, AList.lookup_empty]
  refine ⟨Inverse.intro (Leads.intro ?_) ?_, ?_⟩
  · intro p i h
    rw [hpath] at h
    split at h
    · next hp => exact ⟨⟨[], u64Max⟩, by rw [hino, if_pos (Option.some.inj h).symm], hp.symm⟩
    · exact absurd h (by simp)
  · intro i e h
    rw [hino] at h
    split at h
    · next hi => rw [← Option.some.inj h, hpath, if_pos rfl, hi]
    · exact absurd h (by simp)
  · intro i e h
    rw [hino] at h
    split at h
    · next hi => subst hi; decide
    · exact absurd h (by simp)

theorem leads_removePath {t : InodeTable} (h : t.Leads) (path : RelPath) :
    (t.removePath path).Leads := by
  by_cases hp : path = []
  · rw [removePath, if_pos hp]
    exact h
  refine Leads.intro fun p i hl => ?_
  rw [lookup_removePath t hp] at hl
  split at hl
  · exact absurd hl (by simp)
  · next hne =>
    obtain ⟨e, he, rfl⟩ := h.entry hl
    refine ⟨e, ?_, rfl⟩
    rw [entry_removePath t hp, if_neg, he]
    intro hpi
    obtain ⟨e', he', rfl⟩ := h.entry hpi
    rw [he, Option.some.injEq] at he'
    exact hne (he' ▸ rfl)

theorem inverse_removePath {t : InodeTable} (h : t.Inverse) (path : RelPath) :
    (t.removePath path).Inverse := by
  by_cases hp : path = []
  · rw [removePath, if_pos hp]
    exact h
  refine Inverse.intro (leads_removePath h.leads path) ?_
  intro i e he
  rw [entry_removePath t hp] at he
  split at he
  · exact absurd he (by simp)
  · next hpi =>
    have hown := h.own he
    rw [lookup_removePath t hp, if_neg, hown]
    exact fun e' => hpi (e' ▸ hown)

theorem issued_getOrCreate {t : InodeTable} (hl : t.Leads) (h : t.Issued) (path : RelPath) :
    (t.getOrCreate path).1.Issued := by
  unfold getOrCreate
  cases hp : t.byPath.lookup path with
  | some ino =>
    obtain ⟨e, he, -⟩ := hl.entry hp
    simp only [he]
    intro i x hx
    rw [Map.lookup_insert_if] at hx
    split at hx
    · next hi => exact hi ▸ h ino e he
    · exact h i x hx
  | none =>
    intro i x hx
    rw [Map.lookup_insert_if] at hx
    split at hx
    · next hi => exact hi ▸ Nat.lt_succ_self _
    · exact Nat.lt_succ_of_lt (h i x hx)

theorem leads_getOrCreate {t : InodeTable} (h : t.Leads) (hi : t.Issued) (path : RelPath) :
    (t.getOrCreate path).1.Leads := by
  unfold getOrCreate
  cases hl : t.byPath.lookup path with
  | some ino =>
    obtain ⟨e, he, hpath⟩ := h.entry hl
    simp only [he]
    -- only the reference count of one entry changes
    refine Leads.intro fun p i hp => ?_
    obtain ⟨y, hy, rfl⟩ := h.entry hp
    by_cases hi : i = ino
    · subst hi
      rw [he, Option.some.injEq] at hy
      exact ⟨{ e with refcount := min (e.refcount + 1) u64Max },
        by rw [Map.lookup_insert_if, if_pos rfl], by rw [← hy]⟩
    · exact ⟨y, by rw [Map.lookup_insert_if, if_neg hi, hy], rfl⟩
  | none =>
    refine Leads.intro fun p i hp => ?_
    rw [Map.lookup_insert_if] at hp
    split at hp
    · next hpp =>
      exact ⟨⟨path, 1⟩, by rw [Map.lookup_insert_if, if_pos (Option.some.inj hp).symm], hpp.symm⟩
    · obtain ⟨e, he, rfl⟩ := h.entry hp
      refine ⟨e, ?_, rfl⟩
      rw [Map.lookup_insert_if, if_neg, he]
      rintro rfl
      exact Nat.lt_irrefl _ (hi _ e he)

theorem wf_getOrCreate {t : InodeTable} (h : t.Wf) (path : RelPath) : (t.getOrCreate path).1.Wf := by
  refine ⟨Inverse.intro (leads_getOrCreate h.inverse.leads h.issued path) ?_,
    issued_getOrCreate h.inverse.leads h.issued path⟩
  intro i x hx
  unfold getOrCreate at hx ⊢
  cases hl : t.byPath.lookup path with
  | some ino =>
    obtain ⟨e, he, hpath⟩ := h.inverse.leads.entry hl
    simp only [hl, he] at hx ⊢
    rw [Map.lookup_insert_if] at hx
    split at hx
    · next hi =>
      rw [← Option.some.inj hx, hi]
      show t.byPath.lookup e.path = some ino
      exact h.inverse.own he
    · exact h.inverse.own hx
  | none =>
    simp only [hl] at hx ⊢
    rw [Map.lookup_insert_if] at hx
    split at hx
    · next hi => rw [← Option.some.inj hx, Map.lookup_insert_if, if_pos rfl, hi]
    · have hown := h.inverse.own hx
      rw [Map.lookup_insert_if, if_neg, hown]
      rintro hpath
      rw [hpath, hl] at hown
      exact absurd hown (by simp)

theorem issued_forget {t : InodeTable} (h : t.Issued) (ino nlookup : Nat) :
    (t.forget ino nlookup).Issued := by
  unfold forget
  split
  · exact h
  · cases he : t.byIno.lookup ino with
    | none => exact h
    | some e =>
      by_cases hz : e.refcount - nlookup = 0
      · simp only [hz, if_true]
        intro i y hy
        rw [Map.lookup_erase_if] at hy
        split at hy
        · exact absurd hy (by simp)
        · exact h i y hy
      · simp only [hz, if_false]
        intro i y hy
        rw [Map.lookup_insert_if] at hy
        split at hy
        · next hi => exact hi ▸ h ino e he
        · exact h i y hy

/-- A forgotten inode takes its path with it, whoever that leads to. -/
theorem leads_forget {t : InodeTable} (h : t.Leads) (ino nlookup : Nat) :
    (t.forget ino nlookup).Leads := by
  unfold forget
  split
  · exact h
  · cases he : t.byIno.lookup ino with
    | none => exact h
    | some e =>
      by_cases hz : e.refcount - nlookup = 0
      · simp only [hz, if_true]
        refine Leads.intro fun p i hp => ?_
        rw [Map.lookup_erase_if] at hp
        split at hp
        · exact absurd hp (by simp)
        · next hne =>
          obtain ⟨y, hy, rfl⟩ := h.entry hp
          refine ⟨y, ?_, rfl⟩
          rw [Map.lookup_erase_if, if_neg, hy]
          rintro rfl
          rw [he, Option.some.injEq] at hy
          exact hne (hy ▸ rfl)
      · simp only [hz, if_false]
        refine Leads.intro fun p i hp => ?_
        obtain ⟨y, hy, rfl⟩ := h.entry hp
        by_cases hi : i = ino
        · subst hi
          rw [he, Option.some.injEq] at hy
          exact ⟨{ e with refcount := e.refcount - nlookup },
            by rw [Map.lookup_insert_if, if_pos rfl], by rw [← hy]⟩
        · exact ⟨y, by rw [Map.lookup_insert_if, if_neg hi, hy], rfl⟩

theorem wf_forget {t : InodeTable} (h : t.Wf) (ino nlookup : Nat) : (t.forget ino nlookup).Wf := by
  refine ⟨Inverse.intro (leads_forget h.inverse.leads ino nlookup) ?_,
    issued_forget h.issued ino nlookup⟩
  intro i y hy
  unfold forget at hy ⊢
  split at hy
  · next hroot =>
    rw [if_pos hroot]
    exact h.inverse.own hy
  · next hroot =>
    rw [if_neg hroot]
    cases he : t.byIno.lookup ino with
    | none =>
      rw [he] at hy
      exact h.inverse.own hy
    | some e =>
      have hown := h.inverse.own he
      simp only [he] at hy ⊢
      by_cases hz : e.refcount - nlookup = 0
      · simp only [hz, if_true] at hy ⊢
        rw [Map.lookup_erase_if] at hy
        split at hy
        · exact absurd hy (by simp)
        · next hne =>
          have hy' := h.inverse.own hy
          rw [Map.lookup_erase_if, if_neg, hy']
          intro hpath
          rw [hpath, hown] at hy'
          exact hne (Option.some.inj hy').symm
      · simp only [hz, if_false] at hy ⊢
        rw [Map.lookup_insert_if] at hy
        split at hy
        · next hi =>
          rw [← Option.some.inj hy, hi]
          exact hown
        · exact h.inverse.own hy

/-- The two tables find the same. -/
def Same (t t' : InodeTable) : Prop :=
  (∀ q, t'.byPath.lookup q = t.byPath.lookup q) ∧ ∀ i, t'.byIno.lookup i = t.byIno.lookup i

theorem Same.getPath {t t' : InodeTable} (h : Same t t') (i : Nat) : t'.getPath i = t.getPath i := by
  rw [InodeTable.getPath, h.2, InodeTable.getPath]

theorem Same.leads {t t' : InodeTable} (h : Same t t') (hl : t.Leads) : t'.Leads := by
  intro p i hp
  rw [getPathIno, h.1] at hp
  rw [h.getPath]
  exact hl p i hp

theorem Same.inverse {t t' : InodeTable} (h : Same t t') (hi : t.Inverse) : t'.Inverse := by
  intro p i
  rw [getPathIno, h.1, h.getPath]
  exact hi p i

theorem same_movePath_self {t : InodeTable} (h : t.Leads) (c : RelPath) : Same t (t.movePath c c) := by
  unfold movePath
  cases hl : t.byPath.lookup c with
  | none => exact ⟨fun _ => rfl, fun _ => rfl⟩
  | some ino =>
    obtain ⟨e, he, rfl⟩ := h.entry hl
    constructor
    · intro q
      rw [Map.lookup_insert_if, Map.lookup_erase_if]
      by_cases hq : q = e.path
      · rw [if_pos hq, hq, hl]
      · rw [if_neg hq, if_neg hq]
    · intro i
      rw [lookup_setPath]
      by_cases hi : i = ino
      · rw [if_pos hi, hi, he, Option.map_some]
      · rw [if_neg hi]

/-- A rename of a path to itself removes it. -/
theorem same_renamePath_self {t : InodeTable} (h : t.Leads) {p : RelPath} (hp : p ≠ []) :
    Same (t.removePath p) (t.renamePath p p) := by
  have next : ∀ {t₀ t₁ : InodeTable} (c : RelPath), t₀.Leads → Same t₀ t₁ →
      Same t₀ (t₁.movePath c c) := by
    intro t₀ t₁ c hl hs
    have hm := same_movePath_self (hs.leads hl) c
    exact ⟨fun q => (hm.1 q).trans (hs.1 q), fun i => (hm.2 i).trans (hs.2 i)⟩
  have hl := leads_removePath h p
  rw [renamePath, if_neg hp]
  refine List.foldlRecOn _ _ (same_movePath_self hl p) fun b hb a ha => ?_
  have hpre : p <+: a := (of_decide_eq_true (List.mem_filter.mp ha).2).1
  rw [reroot_self hpre]
  exact next a hl hb

theorem inverse_renamePath_self {t : InodeTable} (h : t.Inverse) (p : RelPath) :
    (t.renamePath p p).Inverse := by
  by_cases hp : p = []
  · rw [renamePath, if_pos hp]
    exact h
  · exact (same_renamePath_self h.leads hp).inverse (inverse_removePath h p)

/-- A rename never makes a path lead to an inode that has another. -/
theorem leads_renamePath {t : InodeTable} (h : t.Leads) {old new : RelPath} (ha : Apart old new) :
    (t.renamePath old new).Leads := by
  have stays : ∀ {i : Nat} {e : InodeEntry}, t.byIno.lookup i = some e →
      t.byPath.lookup e.path = some i → e.path ≠ new → ¬ old <+: e.path →
      (t.renamePath old new).byIno.lookup i = some e := by
    intro i e he hlead hn ho
    rw [entry_renamePath_leads h ha, he]
    simp only [hlead, ne_eq, not_true, if_false, if_neg hn, if_neg ho]
  refine Leads.intro fun p i hp => ?_
  rw [lookup_renamePath t ha] at hp
  by_cases hn : new <+: p
  · obtain ⟨s, rfl⟩ := hn
    rw [if_pos (List.prefix_append new s), reroot_append] at hp
    cases hs : t.byPath.lookup (old ++ s) with
    | some j =>
      rw [hs] at hp
      obtain rfl : j = i := Option.some.inj hp
      obtain ⟨e, he, hpath⟩ := h.entry hs
      have hne : old ++ s ≠ new := fun e' => ha.1 (e' ▸ List.prefix_append old s)
      have hlead : t.byPath.lookup e.path = some j := by rw [hpath, hs]
      refine ⟨{ e with path := new ++ s }, ?_, rfl⟩
      rw [entry_renamePath_leads h ha, he]
      simp [hlead, hpath, hne, reroot_append]
    | none =>
      rw [hs] at hp
      simp only at hp
      split at hp
      · exact absurd hp (by simp)
      · next hne =>
        obtain ⟨e, he, hpath⟩ := h.entry hp
        have hold : ¬ old <+: new ++ s := ha.symm.disjoint (List.prefix_append new s)
        exact ⟨e, stays he (by rw [hpath, hp]) (hpath ▸ hne) (hpath ▸ hold), hpath⟩
  · rw [if_neg hn] at hp
    split at hp
    · exact absurd hp (by simp)
    · next hold =>
      obtain ⟨e, he, hpath⟩ := h.entry hp
      have hne : p ≠ new := fun e' => hn (e' ▸ List.prefix_rfl)
      exact ⟨e, stays he (by rw [hpath, hp]) (hpath ▸ hne) (hpath ▸ hold), hpath⟩

/-- A rename between subtrees that are apart keeps the maps inverse exactly when
no path is known on both sides of it. -/
theorem inverse_renamePath_iff {t : InodeTable} (h : t.Inverse) {old new : RelPath}
    (ha : Apart old new) : (t.renamePath old new).Inverse ↔ t.RenameClear old new := by
  constructor
  · intro h'
    refine .inr fun s hs hboth => ?_
    obtain ⟨j, hj⟩ := Option.isSome_iff_exists.mp hboth.1
    obtain ⟨i, hi⟩ := Option.isSome_iff_exists.mp hboth.2
    rw [getPathIno] at hi hj
    obtain ⟨e, he, hpath⟩ := h.leads.entry hi
    have hne : new ++ s ≠ new := by simpa using hs
    have hold : ¬ old <+: new ++ s := ha.symm.disjoint (List.prefix_append new s)
    -- the inode at `new ++ s` keeps its path, which now leads to the inode moved there
    have he' : (t.renamePath old new).byIno.lookup i = some e := by
      rw [entry_renamePath h ha, he]
      simp [hpath, hold, hs]
    have hown := h'.own he'
    rw [hpath, lookup_renamePath t ha, if_pos (List.prefix_append new s), reroot_append, hj] at hown
    obtain rfl : j = i := Option.some.inj hown
    obtain ⟨e₂, he₂, hpath₂⟩ := h.leads.entry hj
    obtain rfl : e = e₂ := Option.some.inj (he.symm.trans he₂)
    exact ha.ne (List.append_cancel_right (hpath₂.symm.trans hpath))
  · intro hclear
    have hclear := hclear.resolve_left ha.ne
    refine Inverse.intro (leads_renamePath h.leads ha) ?_
    intro i e' he'
    rw [entry_renamePath h ha] at he'
    cases he : t.byIno.lookup i with
    | none => rw [he] at he'; exact absurd he' (by simp)
    | some e =>
      have hown := h.own he
      simp only [he] at he'
      split at he'
      · exact absurd he' (by simp)
      · next hne =>
        split at he'
        · next hold =>
          rw [← Option.some.inj he']
          obtain ⟨s, hs⟩ := hold
          rw [← hs] at hown ⊢
          rw [reroot_append, lookup_renamePath t ha, if_pos (List.prefix_append new s),
            reroot_append, hown]
        · next hold =>
          rw [← Option.some.inj he', lookup_renamePath t ha]
          by_cases hn : new <+: e.path
          · obtain ⟨s, hs⟩ := hn
            have hsn : s ≠ [] := by
              rintro rfl
              exact hne (by rw [← hs, List.append_nil])
            have hnone : t.byPath.lookup (old ++ s) = none := by
              by_contra hc
              refine hclear s hsn ⟨Option.isSome_iff_ne_none.mpr hc, ?_⟩
              rw [hs, getPathIno, hown]
              rfl
            rw [← hs] at hown ⊢
            rw [if_pos (List.prefix_append new s), reroot_append, hnone]
            simpa [hsn] using hown
          · rw [if_neg hn, if_neg hold, hown]

/-! ## Every operation issues its numbers in order -/

theorem issued_removePath {t : InodeTable} (h : t.Issued) (path : RelPath) :
    (t.removePath path).Issued := by
  intro i e he
  by_cases hp : path = []
  · rw [removePath, if_pos hp] at he ⊢
    exact h i e he
  · rw [entry_removePath t hp] at he
    have hnext : (t.removePath path).nextIno = t.nextIno := by
      rw [removePath, if_neg hp]
      split <;> rfl
    split at he
    · exact absurd he (by simp)
    · rw [hnext]
      exact h i e he

theorem issued_movePath {t : InodeTable} (h : t.Issued) (old new : RelPath) :
    (t.movePath old new).Issued := by
  unfold movePath
  split
  · exact h
  · next ino hino =>
    intro i e he
    rw [lookup_setPath] at he
    split at he
    · obtain ⟨e', he', -⟩ := Option.map_eq_some_iff.mp he
      exact h i e' he'
    · exact h i e he

theorem issued_renamePath {t : InodeTable} (h : t.Issued) (old new : RelPath) :
    (t.renamePath old new).Issued := by
  unfold renamePath
  split
  · exact h
  · exact List.foldlRecOn _ _ (issued_movePath (issued_removePath h new) old new)
      fun _ hb a _ => issued_movePath hb a _

theorem wf_removePath {t : InodeTable} (h : t.Wf) (path : RelPath) : (t.removePath path).Wf :=
  ⟨inverse_removePath h.inverse path, issued_removePath h.issued path⟩

theorem wf_removeSubtree {t : InodeTable} (h : t.Wf) (path : RelPath) :
    (t.removeSubtree path).Wf := by
  unfold removeSubtree
  split
  · exact h
  · exact List.foldlRecOn _ _ h fun _ hb a _ => wf_removePath hb a

theorem wf_freshAttrForPath {t : InodeTable} (h : t.Wf) (path : RelPath) (found : Bool) :
    (t.freshAttrForPath path found).Wf := by
  unfold freshAttrForPath
  split
  · exact wf_getOrCreate h path
  · exact h

/-- The maps are inverse: no live inode is out of reach, and no forget takes
another inode's path. -/
theorem bijection_iff_inverse {t : InodeTable} : t.Bijection ↔ t.Inverse := by
  refine ⟨fun h => h.inverse, fun h => ⟨h, fun i e he => h.own he, ?_⟩⟩
  intro i n p j hp hne
  rw [getPathIno] at hp ⊢
  unfold forget
  split
  · exact hp
  · cases he : t.byIno.lookup i with
    | none => exact hp
    | some e =>
      have hown := h.own he
      by_cases hz : e.refcount - n = 0
      · simp only [hz, if_true]
        rw [Map.lookup_erase_if, if_neg, hp]
        rintro rfl
        exact hne (Option.some.inj (hp.symm.trans hown))
      · simp only [hz, if_false]
        exact hp

end InodeTable

/-! ## Runs -/

open InodeTable

theorem doRename_of_renamed {t : InodeTable} {parent newparent : Nat} {name newname : Name}
    {old new : RelPath}
    (hr : (TableRequest.rename parent name newparent newname).renamed t = some (old, new)) :
    t.doRename parent name newparent newname = t.renamePath old new := by
  simp only [TableRequest.renamed] at hr
  rw [doRename]
  split at hr
  · obtain ⟨rfl, rfl⟩ := Prod.mk.inj (Option.some.inj hr)
    rfl
  · exact absurd hr (by simp)

/-- One request: the maps stay inverse exactly when it is no rename between
paths that are known on both sides. -/
theorem tableStep_inverse_iff (t : InodeTable) (r : TableRequest) (t' : InodeTable) (h : t.Wf)
    (hs : tableStep t r = some t') : t'.Issued ∧ (t'.Inverse ↔ ClearRename t r) := by
  -- a request other than rename keeps the table well-formed, and the guard is vacuous for it
  have other : r.renamed t = none → t'.Wf → t'.Issued ∧ (t'.Inverse ↔ ClearRename t r) := by
    intro hr hwf
    refine ⟨hwf.issued, fun _ pq e => ?_, fun _ => hwf.inverse⟩
    rw [hr] at e
    exact absurd e (by simp)
  cases r with
  | lookup parent name =>
    refine other rfl ?_
    rw [← Option.some.inj hs, doLookup]
    split
    · exact h
    · exact wf_getOrCreate h _
  | readdir ino names =>
    refine other rfl ?_
    rw [← Option.some.inj hs, doReaddir]
    split
    · exact h
    · exact List.foldlRecOn _ _ h fun _ hb _ _ => wf_getOrCreate hb _
  | create parent name found =>
    refine other rfl ?_
    rw [← Option.some.inj hs, doCreate]
    split
    · exact h
    · exact wf_freshAttrForPath h _ found
  | link ino newparent newname found =>
    refine other rfl ?_
    rw [← Option.some.inj hs, doLink]
    split
    · exact wf_freshAttrForPath h _ found
    · exact h
  | unlink parent name =>
    refine other rfl ?_
    rw [← Option.some.inj hs, doUnlink]
    split
    · exact h
    · exact wf_removePath h _
  | rmdir parent name =>
    refine other rfl ?_
    rw [← Option.some.inj hs, doRmdir]
    split
    · exact h
    · exact wf_removeSubtree h _
  | forget ino nlookup =>
    refine other rfl ?_
    rw [← Option.some.inj hs]
    exact wf_forget h ino nlookup
  | rename parent name newparent newname =>
    cases hr : (TableRequest.rename parent name newparent newname).renamed t with
    | none =>
      refine other hr ?_
      simp only [tableStep, hr, Option.some.injEq] at hs
      exact hs ▸ h
    | some pq =>
      obtain ⟨old, new⟩ := pq
      simp only [tableStep, hr] at hs
      split at hs
      · next hacc =>
        have ht' : t' = t.renamePath old new := by
          rw [← Option.some.inj hs, doRename_of_renamed hr]
        have hguard : ClearRename t (.rename parent name newparent newname) ↔
            t.RenameClear old new := by
          refine ⟨fun hc => hc (old, new) hr, fun hc pq e => ?_⟩
          obtain rfl : (old, new) = pq := Option.some.inj (hr.symm.trans e)
          exact hc
        rw [hguard, ht']
        refine ⟨issued_renamePath h.issued old new, ?_⟩
        by_cases hne : old = new
        · subst hne
          exact ⟨fun _ => .inl rfl, fun _ => inverse_renamePath_self h.inverse old⟩
        · exact inverse_renamePath_iff h.inverse (apart_of_not_below hacc.1 hacc.2 hne)
      · exact absurd hs (by simp)

/-- Along a run from the fresh table the maps are mutually inverse in every
state exactly when every rename meets a table that is clear for it. -/
theorem bijection_iff_renameClear (as : List TableRequest) (t : InodeTable)
    (h : run tableStep new as = some t) :
    (∀ bs s, bs <+: as → run tableStep new bs = some s → s.Bijection) ↔
      Along tableStep ClearRename new as := by
  simp only [bijection_iff_inverse]
  exact always_iff_along Inverse Issued
    (fun t r t' hinv hiss hs => tableStep_inverse_iff t r t' ⟨hinv, hiss⟩ hs)
    h new_wf.inverse new_wf.issued

section Clash

private def a : Name := ⟨[97], Eq.refl true⟩
private def b : Name := ⟨[98], Eq.refl true⟩
private def x : Name := ⟨[120], Eq.refl true⟩

/-- mkdir `a`, create `a/x`, mkdir `b`, a lookup of `b/x` answered ENOENT, and
`a` renamed onto the empty directory `b`. -/
def clash : List TableRequest :=
  [.create 1 a true, .create 2 x true, .create 1 b true, .lookup 4 x, .rename 1 a 1 b]

/-- Inode 5 and inode 3 both claim `b/x`, and forgetting inode 5 takes the path
of inode 3. -/
theorem clash_breaks_bijection : ∃ t, run tableStep new clash = some t ∧
    t.getPath 5 = some [b, x] ∧ t.getPathIno [b, x] = some 3 ∧
    (t.forget 5 1).getPathIno [b, x] = none ∧ ¬ t.Bijection := by
  refine ⟨_, rfl, by decide, by decide, by decide, fun h => ?_⟩
  have h' := (h.inverse [b, x] 5).mpr (by decide)
  exact absurd h' (by decide)

/-- Without the lookup the same rename keeps the maps inverse. -/
theorem bijection_of_clear_rename :
    ∃ t, run tableStep new [.create 1 a true, .create 2 x true, .create 1 b true,
      .rename 1 a 1 b] = some t ∧ t.Bijection := by
  have hclear : Along tableStep ClearRename new [.create 1 a true, .create 2 x true,
      .create 1 b true, .rename 1 a 1 b] := by decide
  exact ⟨_, rfl, (bijection_iff_renameClear _ _ rfl).mpr hclear _ _ (List.prefix_refl _) rfl⟩

end Clash

end FsCache
