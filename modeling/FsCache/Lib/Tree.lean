import FsCache.Lib.Prefix

/- Directory trees with hard links, and what rename(2) and renameat2(2) do to them.

   A path leads to an object or to nothing. What a path leads to is in a directory, and
   a directory has one path; a file may have several. `exchangePath old new` carries the
   subtrees under two paths over to each other. A rename takes away what is at the new
   path and then exchanges the two, so it keeps the tree a tree by the same two lemmas
   as RENAME_EXCHANGE does. Where both paths lead to one object nothing happens. -/

namespace FsCache.Lib

variable {ν : Type}

/-! ## Exchanging two subtrees -/

section Exchange

variable [DecidableEq ν] {old new p : List ν}

/-- The path that `p` has when the subtrees under `old` and `new` change places. -/
def exchangePath (old new p : List ν) : List ν :=
  if new <+: p then reroot new old p else if old <+: p then reroot old new p else p

theorem exchangePath_new (s : List ν) : exchangePath old new (new ++ s) = old ++ s := by
  rw [exchangePath, if_pos (List.prefix_append new s), reroot_append]

theorem exchangePath_old (h : Apart old new) (s : List ν) :
    exchangePath old new (old ++ s) = new ++ s := by
  rw [exchangePath, if_neg (h.disjoint (List.prefix_append old s)),
    if_pos (List.prefix_append old s), reroot_append]

theorem exchangePath_self_new : exchangePath old new new = old := by
  rw [exchangePath, if_pos List.prefix_rfl, reroot, List.drop_length, List.append_nil]

theorem exchangePath_self_old (h : Apart old new) : exchangePath old new old = new := by
  rw [exchangePath, if_neg h.2, if_pos List.prefix_rfl, reroot, List.drop_length, List.append_nil]

theorem exchangePath_other (hnew : ¬ new <+: p) (hold : ¬ old <+: p) :
    exchangePath old new p = p := by
  rw [exchangePath, if_neg hnew, if_neg hold]

theorem exchangePath_exchangePath (h : Apart old new) (p : List ν) :
    exchangePath old new (exchangePath old new p) = p := by
  by_cases hn : new <+: p
  · obtain ⟨s, rfl⟩ := hn
    rw [exchangePath_new, exchangePath_old h]
  · by_cases ho : old <+: p
    · obtain ⟨s, rfl⟩ := ho
      rw [exchangePath_old h, exchangePath_new]
    · rw [exchangePath_other hn ho, exchangePath_other hn ho]

/-- Below the two paths and elsewhere, an entry stays in its directory. -/
theorem exchangePath_entry (h : Apart old new) {n : ν} (hnew : p ++ [n] ≠ new)
    (hold : p ++ [n] ≠ old) : exchangePath old new (p ++ [n]) = exchangePath old new p ++ [n] := by
  have below : ∀ {d : List ν}, p ++ [n] ≠ d → d <+: p ++ [n] → d <+: p := fun hne hd =>
    (List.prefix_concat_iff.mp hd).resolve_left (Ne.symm hne)
  by_cases hn : new <+: p
  · obtain ⟨s, rfl⟩ := hn
    rw [List.append_assoc, exchangePath_new, exchangePath_new, List.append_assoc]
  · by_cases ho : old <+: p
    · obtain ⟨s, rfl⟩ := ho
      rw [List.append_assoc, exchangePath_old h, exchangePath_old h, List.append_assoc]
    · rw [exchangePath_other hn ho,
        exchangePath_other (fun hd => hn (below hnew hd)) fun hd => ho (below hold hd)]

end Exchange

/-! ## Trees -/

/-- An object of a file system. -/
inductive Obj where
  | file (id : Nat)
  | dir (id : Nat)
  deriving DecidableEq

structure DirTree (ν : Type) where
  obj : List ν → Option Obj
  root : ∃ d, obj [] = some (.dir d)
  parent : ∀ p n, (obj (p ++ [n])).isSome = true → ∃ d, obj p = some (.dir d)
  /-- a directory has no second name -/
  oneName : ∀ p q d, obj p = some (.dir d) → obj q = some (.dir d) → p = q

namespace DirTree

variable {b : DirTree ν} {p s : List ν}

/-- What is above an object is a directory. -/
theorem dir_above (hs : s ≠ []) (h : (b.obj (p ++ s)).isSome = true) :
    ∃ d, b.obj p = some (.dir d) := by
  induction s generalizing p with
  | nil => exact absurd rfl hs
  | cons n s ih =>
    apply b.parent p n
    by_cases hs' : s = []
    · rwa [hs'] at h
    · rw [List.append_cons] at h
      obtain ⟨d, hd⟩ := ih hs' h
      rw [hd]
      rfl

theorem none_below (h : ∀ d, b.obj p ≠ some (.dir d)) (hs : s ≠ []) : b.obj (p ++ s) = none := by
  by_contra hc
  obtain ⟨d, hd⟩ := dir_above hs (Option.isSome_iff_ne_none.mpr hc)
  exact h d hd

/-- There is a directory for an entry of this path. -/
def HasPlace (b : DirTree ν) (p : List ν) : Prop := ∃ q n d, p = q ++ [n] ∧ b.obj q = some (.dir d)

variable [DecidableEq ν] {old new : List ν}

/-- RENAME_EXCHANGE, and the second half of a rename. -/
def exchange (b : DirTree ν) (old new : List ν) (ha : Apart old new) (hold : b.HasPlace old)
    (hnew : b.HasPlace new) : DirTree ν where
  obj p := b.obj (exchangePath old new p)
  root := by
    have hn : ¬ new <+: [] := fun h => ha.2 (by rw [List.prefix_nil.mp h]; exact List.nil_prefix)
    have ho : ¬ old <+: [] := fun h => ha.1 (by rw [List.prefix_nil.mp h]; exact List.nil_prefix)
    rw [exchangePath_other hn ho]
    exact b.root
  parent p n h := by
    -- the two entries that change places stay entries of directories
    have entry : ∀ {x y q : List ν} {m : ν} {d : Nat}, Apart x y → x = q ++ [m] →
        b.obj q = some (.dir d) → p ++ [n] = x → ¬ x <+: p ∧ ¬ y <+: p ∧ ∃ d, b.obj p = some (.dir d) := by
      rintro x y q m d hxy rfl hd e
      obtain ⟨rfl, -⟩ := List.append_inj' e rfl
      refine ⟨fun hx => ?_, fun hy => hxy.2 (hy.trans (List.prefix_append _ _)), d, hd⟩
      have := hx.length_le
      rw [List.length_append, List.length_singleton] at this
      omega
    by_cases hpn : p ++ [n] = new
    · obtain ⟨q, m, d, hq, hd⟩ := hnew
      obtain ⟨hx, hy, hdir⟩ := entry ha.symm hq hd hpn
      rwa [exchangePath_other hx hy]
    · by_cases hpo : p ++ [n] = old
      · obtain ⟨q, m, d, hq, hd⟩ := hold
        obtain ⟨hx, hy, hdir⟩ := entry ha hq hd hpo
        rwa [exchangePath_other hy hx]
      · rw [exchangePath_entry ha hpn hpo] at h
        exact b.parent _ n h
  oneName p q d hp hq := by
    have := b.oneName _ _ d hp hq
    rw [← exchangePath_exchangePath ha p, this, exchangePath_exchangePath ha]

/-- unlink(2), or rmdir(2) of an empty directory. -/
def remove (b : DirTree ν) (p : List ν) (hp : p ≠ []) (hleaf : ∀ s, s ≠ [] → b.obj (p ++ s) = none) :
    DirTree ν where
  obj q := if q = p then none else b.obj q
  root := by
    rw [if_neg (Ne.symm hp)]
    exact b.root
  parent q n h := by
    split at h
    · exact absurd h (by simp)
    · have hq : q ≠ p := by
        rintro rfl
        rw [hleaf [n] (by simp)] at h
        exact absurd h (by simp)
      rw [if_neg hq]
      exact b.parent q n h
  oneName q r d hq hr := by
    split at hq
    · exact absurd hq (by simp)
    · split at hr
      · exact absurd hr (by simp)
      · exact b.oneName q r d hq hr

/-- A directory entry stays in place when something else is removed. -/
theorem HasPlace.remove {q : List ν} (h : b.HasPlace q) {hp : p ≠ []}
    {hleaf : ∀ s, s ≠ [] → b.obj (p ++ s) = none} (hq : ¬ Below p q) :
    (b.remove p hp hleaf).HasPlace q := by
  obtain ⟨r, n, d, rfl, hd⟩ := h
  refine ⟨r, n, d, rfl, ?_⟩
  have hr : r ≠ p := by
    rintro rfl
    exact hq (below_append (by simp))
  simp only [DirTree.remove, if_neg hr]
  exact hd

/-- The only directory, the root. -/
def init : DirTree ν where
  obj p := if p = [] then some (.dir 0) else none
  root := ⟨0, rfl⟩
  parent p n h := absurd h (by simp)
  oneName p q d hp hq := by
    split at hp
    · next h =>
      split at hq
      · next h' => rw [h, h']
      · exact absurd hq (by simp)
    · exact absurd hp (by simp)

/-- link(2) or creat(2). -/
def addFile (b : DirTree ν) (p : List ν) (id : Nat) (hplace : b.HasPlace p) (hp : b.obj p = none) :
    DirTree ν where
  obj q := if q = p then some (.file id) else b.obj q
  root := by
    obtain ⟨q, n, d, rfl, -⟩ := hplace
    rw [if_neg (by simp)]
    exact b.root
  parent q n h := by
    have hdir : ∃ d, b.obj q = some (.dir d) := by
      split at h
      · next e =>
        obtain ⟨r, m, d, hr, hd⟩ := hplace
        obtain ⟨rfl, -⟩ := List.append_inj' (e.trans hr) rfl
        exact ⟨d, hd⟩
      · exact b.parent q n h
    have hq : q ≠ p := by
      rintro rfl
      obtain ⟨d, hd⟩ := hdir
      rw [hp] at hd
      exact absurd hd (by simp)
    rwa [if_neg hq]
  oneName q r d hq hr := by
    split at hq
    · exact absurd hq (by simp)
    · split at hr
      · exact absurd hr (by simp)
      · exact b.oneName q r d hq hr

/-! ## rename(2) -/

end DirTree

inductive RenameFlags where
  | plain
  | noReplace
  | exchange
  deriving DecidableEq

namespace DirTree

variable {b : DirTree ν} {old new : List ν} {flags : RenameFlags} {o : Obj}

/-- The object `o` may be moved to `new`: nothing is there, or something of its type that is
not a populated directory. -/
def MayReplace (b : DirTree ν) (flags : RenameFlags) (o : Obj) (new : List ν) : Prop :=
  match b.obj new, o with
  | none, _ => True
  | some (.file j), .file i => flags = .plain ∧ i ≠ j
  | some (.dir j), .dir i => flags = .plain ∧ i ≠ j ∧ ∀ s, s ≠ [] → b.obj (new ++ s) = none
  | some _, _ => False

theorem MayReplace.leaf (h : b.MayReplace flags o new) : ∀ s, s ≠ [] → b.obj (new ++ s) = none := by
  intro s hs
  cases hn : b.obj new with
  | none => exact none_below (by simp [hn]) hs
  | some o' =>
    cases o' with
    | file j => exact none_below (by simp [hn]) hs
    | dir j =>
      unfold MayReplace at h
      rw [hn] at h
      cases o with
      | file i => exact h.elim
      | dir i => exact h.2.2 s hs

theorem MayReplace.ne (h : b.MayReplace flags o new) : b.obj new ≠ some o := by
  intro hn
  unfold MayReplace at h
  rw [hn] at h
  cases o with
  | file i => exact h.2 rfl
  | dir i => exact h.2.1 rfl

/-- Two names of one file are apart. -/
theorem apart_of_same (hold : b.obj old = some o) (hnew : b.obj new = some o) (hne : old ≠ new) :
    Apart old new ∧ ∀ s, s ≠ [] → b.obj (old ++ s) = none := by
  have hfile : ∀ d, o ≠ .dir d := by
    rintro d rfl
    exact hne (b.oneName old new d hold hnew)
  have below : ∀ {p : List ν}, b.obj p = some o → ∀ s, s ≠ [] → b.obj (p ++ s) = none :=
    fun hp s hs => none_below (fun d hd => hfile d (Option.some.inj (hp.symm.trans hd))) hs
  refine ⟨apart_of_not_below (fun h => ?_) (fun h => ?_) hne, below hold⟩
  · obtain ⟨s, hs, rfl⟩ := below_iff.mp h
    rw [below hold s hs] at hnew
    exact absurd hnew (by simp)
  · obtain ⟨s, hs, rfl⟩ := below_iff.mp h
    rw [below hnew s hs] at hold
    exact absurd hold (by simp)

variable [DecidableEq ν]

/-- `old` is moved to `new`, and what was there is gone. -/
def move (b : DirTree ν) (old new : List ν) (ha : Apart old new) (hold : b.HasPlace old)
    (hnew : b.HasPlace new) (hleaf : ∀ s, s ≠ [] → b.obj (new ++ s) = none) : DirTree ν :=
  (b.remove new (fun h => ha.2 (h ▸ List.nil_prefix)) hleaf).exchange old new ha
    (hold.remove fun h => ha.2 h.1) (hnew.remove fun h => h.2 rfl)

/-- The renames that are accepted, and what they make of the tree. -/
inductive Renames (b : DirTree ν) (old new : List ν) : RenameFlags → DirTree ν → Prop
  | same {flags : RenameFlags} (hflags : flags ≠ .noReplace) {o : Obj} (hold : b.obj old = some o)
      (hnew : b.obj new = some o) : Renames b old new flags b
  | move {flags : RenameFlags} (hflags : flags ≠ .exchange) {o : Obj} (hobj : b.obj old = some o)
      (ha : Apart old new) (hold : b.HasPlace old) (hnew : b.HasPlace new)
      (hmay : b.MayReplace flags o new) :
      Renames b old new flags (b.move old new ha hold hnew hmay.leaf)
  | exchange {o o' : Obj} (hobj : b.obj old = some o) (hobj' : b.obj new = some o') (hne : o ≠ o')
      (ha : Apart old new) (hold : b.HasPlace old) (hnew : b.HasPlace new) :
      Renames b old new .exchange (b.exchange old new ha hold hnew)

/-- After an exchange an object is at its exchanged path. -/
theorem obj_exchange (ha : Apart old new) (hold : b.HasPlace old) (hnew : b.HasPlace new)
    (p : List ν) : (b.exchange old new ha hold hnew).obj (exchangePath old new p) = b.obj p := by
  show b.obj (exchangePath old new (exchangePath old new p)) = b.obj p
  rw [exchangePath_exchangePath ha]

/-- After a move too, except for the one that was replaced. -/
theorem obj_move (ha : Apart old new) (hold : b.HasPlace old) (hnew : b.HasPlace new)
    (hleaf : ∀ s, s ≠ [] → b.obj (new ++ s) = none) (p : List ν) :
    (b.move old new ha hold hnew hleaf).obj (exchangePath old new p) =
      if p = new then none else b.obj p := by
  rw [move, obj_exchange]
  rfl

end DirTree

end FsCache.Lib
