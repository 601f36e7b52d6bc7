import FsCache.InodeRun
import FsCache.Lib.Tree

/- The inodes of a mount across a rename in the backing.

   `do_rename` passes its flags to the backing, and `rename_path` does one thing whatever
   they were: it drops the inode at the new path and carries over those under the old
   one. That is what a plain rename does. RENAME_EXCHANGE also carries over what was
   under the new path, and a rename between two names of one object does nothing.

   The table may be any whose paths lead to the inodes that have them, as they do in every
   run (`leads_run`); an inode that no path leads to is not carried over either.

   `inodes_follow_iff`: every inode is found where its object is exactly where
   `Kept` holds. `exchanged_inode_lost` is an exchange of two files.

   Correspondence (Rust ↔ Lean):
     `BackingStore::rename`     ↔ `DirTree.Renames`
     `do_rename`                ↔ `InodeTable.doRename`, where `DirTree.Renames` -/

namespace FsCache
open Lib

namespace InodeTable

/-! ## Every path leads to the inode that has it -/

/-- What a table keeps in every run. -/
structure Led (t : InodeTable) : Prop where
  leads : t.Leads
  issued : t.Issued

theorem Led.getOrCreate {t : InodeTable} (h : t.Led) (path : RelPath) : (t.getOrCreate path).1.Led :=
  ⟨leads_getOrCreate h.leads h.issued path, issued_getOrCreate h.leads h.issued path⟩

theorem Led.removePath {t : InodeTable} (h : t.Led) (path : RelPath) : (t.removePath path).Led :=
  ⟨leads_removePath h.leads path, issued_removePath h.issued path⟩

theorem Led.removeSubtree {t : InodeTable} (h : t.Led) (path : RelPath) :
    (t.removeSubtree path).Led := by
  unfold InodeTable.removeSubtree
  split
  · exact h
  · exact List.foldlRecOn _ _ h fun _ hb a _ => hb.removePath a

theorem Led.freshAttrForPath {t : InodeTable} (h : t.Led) (path : RelPath) (found : Bool) :
    (t.freshAttrForPath path found).Led := by
  unfold InodeTable.freshAttrForPath
  split
  · exact h.getOrCreate path
  · exact h

theorem Led.renamePath {t : InodeTable} (h : t.Led) {old new : RelPath}
    (hacc : RenameAccepted old new) : (t.renamePath old new).Led := by
  refine ⟨?_, issued_renamePath h.issued old new⟩
  by_cases hne : old = new
  · subst hne
    by_cases hp : old = []
    · rw [InodeTable.renamePath, if_pos hp]
      exact h.leads
    · exact (same_renamePath_self h.leads hp).leads (leads_removePath h.leads old)
  · exact leads_renamePath h.leads (apart_of_not_below hacc.1 hacc.2 hne)

theorem Led.step {t t' : InodeTable} {r : TableRequest} (h : t.Led)
    (hs : tableStep t r = some t') : t'.Led := by
  cases r with
  | lookup parent name =>
    rw [← Option.some.inj hs, doLookup]
    split
    · exact h
    · exact h.getOrCreate _
  | readdir ino names =>
    rw [← Option.some.inj hs, doReaddir]
    split
    · exact h
    · exact List.foldlRecOn _ _ h fun _ hb _ _ => hb.getOrCreate _
  | create parent name found =>
    rw [← Option.some.inj hs, doCreate]
    split
    · exact h
    · exact h.freshAttrForPath _ found
  | link ino newparent newname found =>
    rw [← Option.some.inj hs, doLink]
    split
    · exact h.freshAttrForPath _ found
    · exact h
  | unlink parent name =>
    rw [← Option.some.inj hs, doUnlink]
    split
    · exact h
    · exact h.removePath _
  | rmdir parent name =>
    rw [← Option.some.inj hs, doRmdir]
    split
    · exact h
    · exact h.removeSubtree _
  | forget ino nlookup =>
    rw [← Option.some.inj hs]
    exact ⟨leads_forget h.leads ino nlookup, issued_forget h.issued ino nlookup⟩
  | rename parent name newparent newname =>
    cases hr : (TableRequest.rename parent name newparent newname).renamed t with
    | none =>
      simp only [tableStep, hr, Option.some.injEq] at hs
      exact hs ▸ h
    | some pq =>
      obtain ⟨old, new⟩ := pq
      simp only [tableStep, hr] at hs
      split at hs
      · next hacc =>
        rw [← Option.some.inj hs, doRename_of_renamed hr]
        exact h.renamePath hacc
      · exact absurd hs (by simp)

/-- In every run every path leads to the inode that has it. -/
theorem leads_run {as : List TableRequest} {t : InodeTable} (h : run tableStep new as = some t) :
    t.Leads :=
  (run_invariant Led (fun _ _ _ hi hs => hi.step hs) h ⟨new_wf.inverse.leads, new_wf.issued⟩).leads

end InodeTable

/-! ## Where the inodes are after a rename -/

/-- The inode that was at `p` is where its object is, if that is still anywhere, and is
dropped only if its object was replaced at `new`. -/
def FollowsAt (b b' : DirTree Name) (t' : InodeTable) (new : RelPath) (i : Nat) (p : RelPath) : Prop :=
  ∀ o, b.obj p = some o →
    ((∃ q, b'.obj q = some o) → ∃ q, t'.getPath i = some q ∧ b'.obj q = some o) ∧
    (t'.getPath i = none → p = new ∧ ∀ q, b'.obj q ≠ some o)

/-- Every inode follows its object. -/
def Follows (b b' : DirTree Name) (t t' : InodeTable) (new : RelPath) : Prop :=
  ∀ i p, t.getPath i = some p → FollowsAt b b' t' new i p

/-- What the table must be like for an inode to follow its object. -/
def KeptAt (b : DirTree Name) (t : InodeTable) (old new : RelPath) (i : Nat) (p : RelPath) :
    RenameFlags → Prop
  | .exchange => p ≠ new ∧
      (old <+: p ∧ t.getPathIno p = some i ∨ b.obj (exchangePath old new p) = b.obj p)
  | .plain | .noReplace => (p = new → ∀ q, b.obj q = b.obj new → q = new) ∧
      (old <+: p → t.getPathIno p = some i)

def Kept (b : DirTree Name) (t : InodeTable) (old new : RelPath) (flags : RenameFlags) : Prop :=
  if b.obj old = b.obj new then t.getPathIno new = none
  else ∀ i p, t.getPath i = some p → KeptAt b t old new i p flags

/-- Every known path exists in the backing. -/
def Known (b : DirTree Name) (t : InodeTable) : Prop :=
  ∀ i p, t.getPath i = some p → (b.obj p).isSome = true

instance (b : DirTree Name) (t : InodeTable) : Decidable (Known b t) :=
  decidable_of_iff (∀ e ∈ t.byIno.entries, (b.obj e.2.path).isSome = true) <| by
    constructor
    · intro h i p hp
      obtain ⟨e, he, rfl⟩ := InodeTable.getPath_eq_some.mp hp
      exact h ⟨i, e⟩ (AList.mem_lookup_iff.mp he)
    · intro h e he
      exact h e.1 e.2.path (InodeTable.getPath_eq_some.mpr ⟨e.2, AList.mem_lookup_iff.mpr he, rfl⟩)

section Paths

variable {t : InodeTable} {b : DirTree Name} {old new p : RelPath} {i : Nat}

/-- An inode that its path does not lead to stays. -/
theorem getPath_of_unled (hl : t.Leads) (ha : Apart old new) (hp : t.getPath i = some p)
    (h : t.getPathIno p ≠ some i) : (t.renamePath old new).getPath i = some p := by
  obtain ⟨e, he, rfl⟩ := InodeTable.getPath_eq_some.mp hp
  rw [InodeTable.getPath, InodeTable.entry_renamePath_leads hl ha, he]
  simp only [if_pos (show t.byPath.lookup e.path ≠ some i from h), Option.map_some]

theorem getPath_of_led (hl : t.Leads) (ha : Apart old new) (h : t.getPathIno p = some i) :
    (t.renamePath old new).getPath i =
      if p = new then none else if old <+: p then some (exchangePath old new p) else some p := by
  obtain ⟨e, he, rfl⟩ := InodeTable.getPath_eq_some.mp (hl p i h)
  rw [InodeTable.getPath, InodeTable.entry_renamePath_leads hl ha, he]
  have hled : t.byPath.lookup e.path = some i := h
  simp only [hled, ne_eq, not_true, if_false]
  by_cases hn : e.path = new
  · rw [if_pos hn, if_pos hn, Option.map_none]
  · rw [if_neg hn, if_neg hn]
    by_cases ho : old <+: e.path
    · rw [if_pos ho, if_pos ho, Option.map_some]
      obtain ⟨s, hs⟩ := ho
      rw [← hs, exchangePath_old ha, reroot_append]
    · rw [if_neg ho, if_neg ho, Option.map_some]

/-- A rename of a path to itself drops the inode there. -/
theorem getPath_self (hl : t.Leads) (hp : p ≠ []) (i : Nat) :
    (t.renamePath p p).getPath i = if t.getPathIno p = some i then none else t.getPath i := by
  rw [(InodeTable.same_renamePath_self hl hp).getPath, InodeTable.getPath,
    InodeTable.entry_removePath t hp, InodeTable.getPathIno]
  split <;> rfl

/-- An inode that is where its object is follows it. -/
theorem followsAt_of_found {b' : DirTree Name} {t' : InodeTable} {q : RelPath}
    (hq : t'.getPath i = some q) (h : b'.obj q = b.obj p) : FollowsAt b b' t' new i p := by
  intro o ho
  refine ⟨fun _ => ⟨q, hq, h.trans ho⟩, fun hnone => ?_⟩
  rw [hq] at hnone
  exact absurd hnone (by simp)

/-- One that is elsewhere while its object lives does not. -/
theorem found_of_followsAt {b' : DirTree Name} {t' : InodeTable} {q r : RelPath} {o : Obj}
    (h : FollowsAt b b' t' new i p) (ho : b.obj p = some o) (hr : b'.obj r = some o)
    (hq : t'.getPath i = some q) : b'.obj q = some o := by
  obtain ⟨q', hq', ho'⟩ := (h o ho).1 ⟨r, hr⟩
  rw [hq] at hq'
  rwa [Option.some.inj hq']

theorem not_followsAt_of_dropped {b' : DirTree Name} {t' : InodeTable} {r : RelPath} {o : Obj}
    (ho : b.obj p = some o) (hr : b'.obj r = some o) (hq : t'.getPath i = none) :
    ¬FollowsAt b b' t' new i p := fun h => (((h o ho).2 hq).2 r) hr

/-- An exchange: both subtrees move, and the table moves the one. -/
theorem followsAt_exchange (hl : t.Leads) (ha : Apart old new) (hold : b.HasPlace old)
    (hnew : b.HasPlace new) (hne : b.obj old ≠ b.obj new) (hp : t.getPath i = some p)
    (hknown : (b.obj p).isSome = true) :
    FollowsAt b (b.exchange old new ha hold hnew) (t.renamePath old new) new i p ↔
      KeptAt b t old new i p .exchange := by
  obtain ⟨o, ho⟩ := Option.isSome_iff_exists.mp hknown
  have hmoved : (b.exchange old new ha hold hnew).obj (exchangePath old new p) = some o :=
    (DirTree.obj_exchange ha hold hnew p).trans ho
  have hnewpath : exchangePath old new new = old := exchangePath_self_new
  -- an inode that keeps its path must find its object there
  have stays : (t.renamePath old new).getPath i = some p →
      (FollowsAt b (b.exchange old new ha hold hnew) (t.renamePath old new) new i p ↔
        b.obj (exchangePath old new p) = b.obj p) := fun hq =>
    ⟨fun h => (found_of_followsAt h ho hmoved hq).trans ho.symm, fun h => followsAt_of_found hq h⟩
  have notNew : b.obj (exchangePath old new p) = b.obj p → p ≠ new := by
    rintro h rfl
    rw [hnewpath] at h
    exact hne h
  by_cases hled : t.getPathIno p = some i
  · have hq := getPath_of_led hl ha hled
    by_cases hn : p = new
    · rw [if_pos hn] at hq
      exact iff_of_false (not_followsAt_of_dropped ho hmoved hq) fun h => h.1 hn
    · rw [if_neg hn] at hq
      by_cases hpre : old <+: p
      · rw [if_pos hpre] at hq
        exact iff_of_true (followsAt_of_found hq (hmoved.trans ho.symm)) ⟨hn, .inl ⟨hpre, hled⟩⟩
      · rw [if_neg hpre] at hq
        rw [stays hq]
        exact ⟨fun h => ⟨hn, .inr h⟩, fun h => h.2.resolve_left fun h => hpre h.1⟩
  · rw [stays (getPath_of_unled hl ha hp hled)]
    exact ⟨fun h => ⟨notNew h, .inr h⟩, fun h => h.2.resolve_left fun h => hled h.2⟩

/-- A move, over what was at the new path if there was something. -/
theorem followsAt_move {flags : RenameFlags} (hflags : flags ≠ .exchange) (hl : t.Leads)
    (ha : Apart old new) (hold : b.HasPlace old) (hnew : b.HasPlace new)
    (hleaf : ∀ s, s ≠ [] → b.obj (new ++ s) = none) (hne : b.obj old ≠ b.obj new)
    (hp : t.getPath i = some p) (hknown : (b.obj p).isSome = true) :
    FollowsAt b (b.move old new ha hold hnew hleaf) (t.renamePath old new) new i p ↔
      KeptAt b t old new i p flags := by
  obtain ⟨o, ho⟩ := Option.isSome_iff_exists.mp hknown
  have hobj := DirTree.obj_move ha hold hnew hleaf
  have hkept : KeptAt b t old new i p flags ↔ (p = new → ∀ q, b.obj q = b.obj new → q = new) ∧
      (old <+: p → t.getPathIno p = some i) := by
    cases flags with
    | plain | noReplace => exact Iff.rfl
    | exchange => exact absurd rfl hflags
  rw [hkept]
  by_cases hn : p = new
  · subst hn
    -- its object lives on only under another name, and the inode is not found there
    have hfree : ¬old <+: p := ha.1
    simp only [hfree, false_implies, and_true, true_implies]
    constructor
    · intro h q hq
      by_contra hqn
      have hlives : (b.move old p ha hold hnew hleaf).obj (exchangePath old p q) = some o := by
        rw [hobj, if_neg hqn, hq, ho]
      by_cases hled : t.getPathIno p = some i
      · have hd := getPath_of_led hl ha hled
        rw [if_pos rfl] at hd
        exact not_followsAt_of_dropped ho hlives hd h
      · have hthere := found_of_followsAt h ho hlives (getPath_of_unled hl ha hp hled)
        have hmoved := hobj old
        rw [exchangePath_self_old ha, if_neg ha.ne] at hmoved
        exact hne (hmoved.symm.trans (hthere.trans ho.symm))
    · intro honly o' ho'
      have hgone : ∀ q, (b.move old p ha hold hnew hleaf).obj q ≠ some o' := by
        intro q hq
        have hat := hobj (exchangePath old p q)
        rw [exchangePath_exchangePath ha, hq] at hat
        split at hat
        · exact absurd hat (by simp)
        · next hqn => exact hqn (honly _ (hat.symm.trans ho'.symm))
      exact ⟨fun ⟨q, hq⟩ => absurd hq (hgone q), fun _ => ⟨rfl, hgone⟩⟩
  · have hmoved : (b.move old new ha hold hnew hleaf).obj (exchangePath old new p) = b.obj p := by
      rw [hobj, if_neg hn]
    by_cases hpre : old <+: p
    · simp only [hn, false_implies, true_and, hpre, true_implies]
      constructor
      · intro h
        by_contra hled
        -- nothing is at the old path any more
        have hthere := found_of_followsAt h ho (hmoved.trans ho) (getPath_of_unled hl ha hp hled)
        obtain ⟨s, rfl⟩ := hpre
        have hat := hobj (new ++ s)
        rw [exchangePath_new, hthere] at hat
        split at hat
        · exact absurd hat (by simp)
        · next hs =>
          rw [hleaf s (by simpa using hs)] at hat
          exact absurd hat (by simp)
      · intro hled
        have hq := getPath_of_led hl ha hled
        rw [if_neg hn, if_pos hpre] at hq
        exact followsAt_of_found hq hmoved
    · have hout : ¬new <+: p := by
        rintro ⟨s, rfl⟩
        rw [hleaf s (by simpa using hn)] at ho
        exact absurd ho (by simp)
      have hq : (t.renamePath old new).getPath i = some p := by
        by_cases hled : t.getPathIno p = some i
        · rw [getPath_of_led hl ha hled, if_neg hn, if_neg hpre]
        · exact getPath_of_unled hl ha hp hled
      rw [exchangePath_other hout hpre] at hmoved
      exact iff_of_true (followsAt_of_found hq hmoved) ⟨fun e => absurd e hn, fun e => absurd e hpre⟩

/-- Where both paths lead to one object nothing moves, and the inode at `new` is dropped. -/
theorem follows_same {o : Obj} (hl : t.Leads) (hknown : Known b t) (hroot : new ≠ [])
    (hold : b.obj old = some o) (hnew : b.obj new = some o) :
    Follows b b t (t.renamePath old new) new ↔ t.getPathIno new = none := by
  -- the inode at `new` goes, one at `old` becomes the one at `new`, and the others stay
  have dropped : ∀ i, t.getPathIno new = some i → (t.renamePath old new).getPath i = none := by
    intro i hi
    by_cases hne : old = new
    · subst hne
      rw [getPath_self hl hroot, if_pos hi]
    · rw [getPath_of_led hl (DirTree.apart_of_same hold hnew hne).1 hi, if_pos rfl]
  have found : ∀ i p, t.getPath i = some p → t.getPathIno new ≠ some i →
      ∃ q, (t.renamePath old new).getPath i = some q ∧ b.obj q = b.obj p := by
    intro i p hp hi
    by_cases hne : old = new
    · subst hne
      exact ⟨p, by rw [getPath_self hl hroot, if_neg hi, hp], rfl⟩
    · obtain ⟨ha, hleaf⟩ := DirTree.apart_of_same hold hnew hne
      by_cases hled : t.getPathIno p = some i
      · have hq := getPath_of_led hl ha hled
        have hn : p ≠ new := by
          rintro rfl
          exact hi hled
        rw [if_neg hn] at hq
        by_cases hpre : old <+: p
        · obtain ⟨s, rfl⟩ := hpre
          have hs : s = [] := by
            by_contra hs
            have := hknown i _ hp
            rw [hleaf s hs] at this
            exact absurd this (by simp)
          subst hs
          rw [List.append_nil, if_pos List.prefix_rfl] at hq
          refine ⟨_, hq, ?_⟩
          rw [List.append_nil, exchangePath_self_old ha, hold, hnew]
        · rw [if_neg hpre] at hq
          exact ⟨p, hq, rfl⟩
      · exact ⟨p, getPath_of_unled hl ha hp hled, rfl⟩
  constructor
  · intro h
    by_contra hc
    obtain ⟨i, hi⟩ := Option.ne_none_iff_exists'.mp hc
    exact not_followsAt_of_dropped hnew hnew (dropped i hi) (h i new (hl new i hi))
  · intro hnone i p hp
    obtain ⟨q, hq, ho⟩ := found i p hp (by simp [hnone])
    exact followsAt_of_found hq ho

end Paths

section DoRename

variable {t : InodeTable} {b b' : DirTree Name} {parent newparent : Nat} {name newname : Name}
  {old new : RelPath} {flags : RenameFlags}

/-- Inodes follow their files across a rename exactly where the table is `Kept`. -/
theorem inodes_follow_iff (hl : t.Leads) (hknown : Known b t)
    (hold : t.childPath parent name = some old) (hnew : t.childPath newparent newname = some new)
    (h : b.Renames old new flags b') :
    Follows b b' t (t.doRename parent name newparent newname) new ↔ Kept b t old new flags := by
  have hroot : new ≠ [] := by
    obtain ⟨p, -, rfl⟩ := Option.map_eq_some_iff.mp hnew
    simp
  rw [show t.doRename parent name newparent newname = t.renamePath old new by
    simp only [InodeTable.doRename, hold, hnew]]
  unfold Kept
  cases h with
  | same hflags hobj hobj' =>
    rw [if_pos (hobj.trans hobj'.symm)]
    exact follows_same hl hknown hroot hobj hobj'
  | move hflags hobj ha hold hnew hmay =>
    have hne : b.obj old ≠ b.obj new := fun e => hmay.ne (e.symm.trans hobj)
    rw [if_neg hne]
    exact forall_congr' fun i => forall_congr' fun p => forall_congr' fun hp =>
      followsAt_move hflags hl ha hold hnew hmay.leaf hne hp (hknown i p hp)
  | exchange hobj hobj' hno ha hold hnew =>
    have hne : b.obj old ≠ b.obj new := by
      rw [hobj, hobj']
      exact fun e => hno (Option.some.inj e)
    rw [if_neg hne]
    exact forall_congr' fun i => forall_congr' fun p => forall_congr' fun hp =>
      followsAt_exchange hl ha hold hnew hne hp (hknown i p hp)

end DoRename

/-! ## Two files -/

private def recto : Name := ⟨[114, 101, 99, 116, 111], Eq.refl true⟩
private def verso : Name := ⟨[118, 101, 114, 115, 111], Eq.refl true⟩
private def folio : Name := ⟨[102, 111, 108, 105, 111], Eq.refl true⟩

/-- Two files, and nothing else. -/
def leaf : DirTree Name :=
  (DirTree.init.addFile [recto] 1 ⟨[], recto, 0, rfl, rfl⟩ rfl).addFile [verso] 2
    ⟨[], verso, 0, rfl, rfl⟩ rfl

/-- The table after they have been created through the mount. -/
def leafInodes : InodeTable :=
  (InodeTable.new.freshAttrForPath [recto] true).freshAttrForPath [verso] true

theorem leads_leafInodes : leafInodes.Leads :=
  InodeTable.leads_run
    (show run tableStep .new [.create rootIno recto true, .create rootIno verso true] = some leafInodes
      from rfl)

/-- A file that is moved to a free name is followed. -/
theorem moved_inode_follows : ∃ b', leaf.Renames [recto] [folio] .plain b' ∧
    Follows leaf b' leafInodes (leafInodes.doRename rootIno recto rootIno folio) [folio] := by
  have hmay : leaf.MayReplace .plain (.file 1) [folio] := trivial
  have hren : leaf.Renames [recto] [folio] .plain _ :=
    .move (by decide) rfl (by decide) ⟨[], recto, 0, rfl, rfl⟩ ⟨[], folio, 0, rfl, rfl⟩ hmay
  refine ⟨_, hren, (inodes_follow_iff leads_leafInodes (by decide) rfl rfl hren).mpr ?_⟩
  rw [Kept, if_neg (by decide)]
  have hentries : ∀ e ∈ leafInodes.byIno.entries, leafInodes.getPathIno e.2.path = some e.1 ∧
      e.2.path ≠ [folio] := by decide
  intro i p hp
  obtain ⟨e, he, rfl⟩ := InodeTable.getPath_eq_some.mp hp
  obtain ⟨hled, hne⟩ := hentries ⟨i, e⟩ (AList.mem_lookup_iff.mp he)
  exact ⟨fun h => absurd h hne, fun _ => hled⟩

/-- The files change places, and the inode of the second one, which is now where the first
one was, is dropped. -/
theorem exchanged_inode_lost : Known leaf leafInodes ∧
    ∃ b', leaf.Renames [recto] [verso] .exchange b' ∧
    leafInodes.getPath 3 = some [verso] ∧ leaf.obj [verso] = b'.obj [recto] ∧
    (leafInodes.doRename rootIno recto rootIno verso).getPath 3 = none ∧
    ¬ Follows leaf b' leafInodes (leafInodes.doRename rootIno recto rootIno verso) [verso] := by
  refine ⟨by decide, leaf.exchange [recto] [verso] (by decide) ⟨[], recto, 0, rfl, rfl⟩
    ⟨[], verso, 0, rfl, rfl⟩, .exchange rfl rfl (by decide) _ _ _, by decide, by decide, by decide, ?_⟩
  intro h
  have hgone := (h 3 [verso] (by decide) (.file 2) (by decide)).2 (by decide)
  exact hgone.2 [recto] (by decide)

end FsCache
