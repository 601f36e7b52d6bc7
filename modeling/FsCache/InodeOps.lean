import FsCache.Moves

/- The inode table under any calls (fuse/inode.rs).

   1. `subtree_renamed`: a rename carries over a subtree, when nothing is below its new path. The maps list their
      keys in any order, and so come the descendants.
   2. `numbers_never_reused`: whatever calls are made, a path leads to the entry that has it, the root keeps its
      number, and no number comes twice. A rename onto the root is not among the calls: nothing in the file
      system asks for one. Renames may overwrite entries of `by_path`, so the maps need not be inverse.
      `last_number`: `next_ino` is a `u64`, and the last number does not fit below it.

   Correspondence (Rust ↔ Lean):
     `get_or_create`, with its `unwrap` and its overflow   ↔ `getOrCreate64`
     the methods of `InodeTable` that change it            ↔ `InodeOp`, `inodeStep` -/

namespace FsCache
open Lib

namespace InodeTable

/-! ## A subtree -/

/-- What was at or below `old` is at or below `new`, in place of the entry that was there. -/
structure SubtreeMoved (t t' : InodeTable) (old new : RelPath) : Prop where
  moved : ∀ i e s, t.byIno.lookup i = some e → e.path = old ++ s →
    t'.byIno.lookup i = some { e with path := new ++ s } ∧ t'.byPath.lookup (new ++ s) = some i
  replaced : ∀ i e, t.byIno.lookup i = some e → e.path = new → t'.byIno.lookup i = none
  kept : ∀ i e, t.byIno.lookup i = some e → ¬ old <+: e.path → e.path ≠ new →
    t'.byIno.lookup i = some e ∧ t'.byPath.lookup e.path = some i
  absent : ∀ i, t.byIno.lookup i = none → t'.byIno.lookup i = none
  inverse : t'.Inverse

/-- A table with nothing below the new path is clear for the rename. -/
theorem renameClear_of_not_below {t : InodeTable} {old new : RelPath}
    (hbelow : ∀ q ∈ t.byPath.keys, ¬ Below new q) : t.RenameClear old new := by
  refine .inr fun s hs hboth => ?_
  have hkey : new ++ s ∈ t.byPath.keys := Map.mem_keys_iff.mpr (Option.isSome_iff_exists.mp hboth.2)
  exact hbelow (new ++ s) hkey (below_append hs)

theorem subtree_renamed {t : InodeTable} (hinv : t.Inverse) {old new : RelPath} (h : Apart old new)
    (hbelow : ∀ q ∈ t.byPath.keys, ¬ Below new q) : SubtreeMoved t (t.renamePath old new) old new := by
  have hinverse : (t.renamePath old new).Inverse :=
    (inverse_renamePath_iff hinv h).mpr (renameClear_of_not_below hbelow)
  have hnew : ∀ s, old ++ s ≠ new := fun s e => h.1 (e ▸ List.prefix_append old s)
  refine ⟨fun i e s he hpath => ?_, fun i e he hpath => ?_, fun i e he hold hne => ?_, fun i he => ?_, hinverse⟩
  · have hmoved : (t.renamePath old new).byIno.lookup i = some { e with path := new ++ s } := by
      rw [entry_renamePath hinv h, he]
      simp only [hpath, if_neg (hnew s), if_pos (List.prefix_append old s), reroot_append]
    exact ⟨hmoved, hinverse.own hmoved⟩
  · rw [entry_renamePath hinv h, he]
    exact if_pos hpath
  · have hkept : (t.renamePath old new).byIno.lookup i = some e := by
      rw [entry_renamePath hinv h, he]
      simp only [if_neg hne, if_neg hold]
    exact ⟨hkept, hinverse.own hkept⟩
  · rw [entry_renamePath hinv h, he]

section Subtree

private def season : Name := ⟨[115], Eq.refl true⟩
private def episode : Name := ⟨[101], Eq.refl true⟩
private def target : Name := ⟨[116], Eq.refl true⟩

/-- A directory with a file in it, and a file. -/
private def withSeason : InodeTable :=
  (((new.getOrCreate [season]).1.getOrCreate [season, episode]).1.getOrCreate [target]).1

/-- The directory replaces the file, with what is in it. -/
theorem season_renamed : SubtreeMoved withSeason (withSeason.renamePath [season] [target]) [season] [target] := by
  refine subtree_renamed ?_ (by decide) (by decide)
  exact (wf_getOrCreate (wf_getOrCreate (wf_getOrCreate new_wf _) _) _).inverse

end Subtree

/-! ## Any calls -/

/-- `none` is a panic: of the `unwrap`, or of the addition where overflow is checked. -/
def getOrCreate64 (overflowChecks : Bool) (t : InodeTable) (path : RelPath) : Option (InodeTable × Nat) :=
  match t.byPath.lookup path with
  | some ino =>
    match t.byIno.lookup ino with
    | none => none
    | some entry => some ({ t with byIno := t.byIno.insert ino entry.counted }, ino)
  | none =>
    if overflowChecks ∧ 2^64 ≤ t.nextIno + 1 then none
    else
      some
        ({ byIno := t.byIno.insert t.nextIno ⟨path, 1⟩
           byPath := t.byPath.insert path t.nextIno
           nextIno := (t.nextIno + 1) % 2^64 }, t.nextIno)

end InodeTable

inductive InodeOp where
  | getOrCreate (path : RelPath)
  | removePath (path : RelPath)
  | removeSubtree (path : RelPath)
  | renamePath (old new : RelPath)
  | forget (ino nlookup : Nat)

/-- It does not rename onto the root. -/
def InodeOp.NonRoot : InodeOp → Prop
  | .renamePath _ new => new ≠ []
  | _ => True

instance (op : InodeOp) : Decidable op.NonRoot :=
  match op with
  | .renamePath _ _ => inferInstanceAs (Decidable (_ ≠ _))
  | .getOrCreate _ | .removePath _ | .removeSubtree _ | .forget _ _ => isTrue trivial

namespace InodeTable

def inodeStep (overflowChecks : Bool) (t : InodeTable) : InodeOp → Option InodeTable
  | .getOrCreate path => (t.getOrCreate64 overflowChecks path).map Prod.fst
  | .removePath path => some (t.removePath path)
  | .removeSubtree path => some (t.removeSubtree path)
  | .renamePath old new => some (t.renamePath old new)
  | .forget ino nlookup => some (t.forget ino nlookup)

/-- It takes a new number. -/
def creates (t : InodeTable) : InodeOp → Nat
  | .getOrCreate path => if (t.byPath.lookup path).isNone then 1 else 0
  | _ => 0

/-- The creations in a run. -/
def creations (overflowChecks : Bool) (t : InodeTable) : List InodeOp → Nat
  | [] => 0
  | op :: ops =>
    t.creates op +
      match t.inodeStep overflowChecks op with
      | none => 0
      | some t' => creations overflowChecks t' ops

/-- What every call keeps: only the root has the path of the root. -/
structure Rooted (t : InodeTable) : Prop where
  led : t.Led
  root : t.byPath.lookup [] = some rootIno
  only : ∀ i e, t.byIno.lookup i = some e → e.path = [] → i = rootIno

section Calls

variable {t t' : InodeTable} {path old new' : RelPath} {op : InodeOp} {ops as bs : List InodeOp} {checks : Bool}
  {i : Nat}

theorem new_rooted : new.Rooted := by
  refine ⟨⟨new_wf.inverse.leads, new_wf.issued⟩, by decide, fun i e he _ => ?_⟩
  simp only [new, Map.lookup_insert_if, AList.lookup_empty] at he
  split at he
  · assumption
  · cases he

theorem Rooted.getOrCreate (h : t.Rooted) (path : RelPath) : (t.getOrCreate path).1.Rooted := by
  refine ⟨h.led.getOrCreate path, ?_, fun i e he hroot => ?_⟩
  · unfold InodeTable.getOrCreate
    cases hp : t.byPath.lookup path with
    | some ino =>
      obtain ⟨e, he, -⟩ := h.led.leads.entry hp
      simp only [he]
      exact h.root
    | none =>
      have hne : [] ≠ path := by
        intro e
        rw [← e, h.root] at hp
        cases hp
      rw [Map.lookup_insert_if, if_neg hne]
      exact h.root
  · unfold InodeTable.getOrCreate at he
    cases hp : t.byPath.lookup path with
    | some ino =>
      obtain ⟨x, hx, -⟩ := h.led.leads.entry hp
      simp only [hp, hx, Map.lookup_insert_if] at he
      split at he
      · next hi =>
        obtain rfl := Option.some.inj he
        exact h.only i x (hi ▸ hx) hroot
      · exact h.only i e he hroot
    | none =>
      simp only [hp, Map.lookup_insert_if] at he
      split at he
      · obtain rfl := Option.some.inj he
        rw [show path = [] from hroot, h.root] at hp
        cases hp
      · exact h.only i e he hroot

theorem Rooted.removePath (h : t.Rooted) (path : RelPath) : (t.removePath path).Rooted := by
  by_cases hp : path = []
  · rw [InodeTable.removePath, if_pos hp]
    exact h
  · refine ⟨h.led.removePath path, ?_, fun i e he hroot => ?_⟩
    · rw [lookup_removePath t hp, if_neg (Ne.symm hp)]
      exact h.root
    · rw [entry_removePath t hp] at he
      split at he
      · cases he
      · exact h.only i e he hroot

theorem Rooted.removeSubtree (h : t.Rooted) (path : RelPath) : (t.removeSubtree path).Rooted := by
  unfold InodeTable.removeSubtree
  split
  · exact h
  · exact List.foldlRecOn _ _ h fun _ hb a _ => hb.removePath a

theorem Rooted.movePath (h : t.Rooted) (hold : old ≠ []) (hnew : new' ≠ []) : (t.movePath old new').Rooted := by
  refine ⟨(rerouted_movePath h.led old new').led, ?_, fun i e he hroot => ?_⟩
  · rw [byPath_movePath, Map.moveKey]
    split
    · exact h.root
    · rw [Map.lookup_insert_if, if_neg (Ne.symm hnew), Map.lookup_erase_if, if_neg (Ne.symm hold)]
      exact h.root
  · unfold InodeTable.movePath at he
    split at he
    · exact h.only i e he hroot
    · rw [lookup_setPath] at he
      split at he
      · obtain ⟨x, -, rfl⟩ := Option.map_eq_some_iff.mp he
        exact absurd hroot hnew
      · exact h.only i e he hroot

theorem Rooted.renamePath (h : t.Rooted) (hnew : new' ≠ []) : (t.renamePath old new').Rooted := by
  unfold InodeTable.renamePath
  split
  · exact h
  · next hold =>
    refine List.foldlRecOn (motive := Rooted) _ _ ((h.removePath new').movePath hold hnew) fun u hu a ha => ?_
    have hbelow : old <+: a := (of_decide_eq_true (List.mem_filter.mp ha).2).1
    apply hu.movePath
    · intro e
      exact hold (List.prefix_nil.mp (e ▸ hbelow))
    · intro e
      have hprefix := prefix_reroot old new' a
      rw [e] at hprefix
      exact hnew (List.prefix_nil.mp hprefix)

theorem Rooted.forget (h : t.Rooted) (ino nlookup : Nat) : (t.forget ino nlookup).Rooted := by
  have hled : (t.forget ino nlookup).Led :=
    ⟨leads_forget h.led.leads ino nlookup, issued_forget h.led.issued ino nlookup⟩
  refine ⟨hled, ?_, fun i e he hroot => ?_⟩
  · unfold InodeTable.forget
    split
    · exact h.root
    · next hino =>
      cases he : t.byIno.lookup ino with
      | none => exact h.root
      | some e =>
        simp only
        split
        · -- the path of the entry goes, and that is not the root's
          rw [Map.lookup_erase_if, if_neg fun hroot => hino (h.only ino e he hroot.symm)]
          exact h.root
        · exact h.root
  · rw [entry_forget] at he
    split at he
    · split at he
      · cases he
      · next x hx =>
        split at he
        · cases he
        · obtain rfl := Option.some.inj he
          exact h.only i x hx hroot
    · exact h.only i e he hroot

/-- While the numbers last, nothing panics. -/
theorem getOrCreate64_eq (h : t.Leads) (hfit : t.nextIno + t.creates (.getOrCreate path) < 2^64) :
    t.getOrCreate64 checks path = some (t.getOrCreate path) := by
  unfold getOrCreate64 InodeTable.getOrCreate
  cases hp : t.byPath.lookup path with
  | some ino =>
    obtain ⟨e, he, -⟩ := h.entry hp
    simp only [he]
    rfl
  | none =>
    rw [creates, hp, Option.isNone_none, if_pos rfl] at hfit
    simp only
    rw [if_neg fun hover => absurd hover.2 (by omega), Nat.mod_eq_of_lt hfit]

theorem nextIno_create (h : t.Leads) :
    (t.getOrCreate path).1.nextIno = t.nextIno + t.creates (.getOrCreate path) := by
  unfold InodeTable.getOrCreate
  rw [creates]
  cases hp : t.byPath.lookup path with
  | some ino =>
    obtain ⟨e, he, -⟩ := h.entry hp
    simp only [he]
    rfl
  | none => rfl

/-- The number goes up with the creations, and those that are gone stay gone. -/
structure Goes (t : InodeTable) (created : Nat) (t' : InodeTable) : Prop where
  rooted : t'.Rooted
  nextIno : t'.nextIno = t.nextIno + created
  gone : ∀ i, i < t.nextIno → t.byIno.lookup i = none → t'.byIno.lookup i = none

theorem Goes.of_drops {p : RelPath} (h : Drops t t' p) (hrooted : t'.Rooted) : Goes t 0 t' := by
  refine ⟨hrooted, h.nextIno, fun i _ hnone => ?_⟩
  obtain hsame | ⟨hgone, -⟩ := h.entry i
  · rw [hnone] at hsame
    exact Option.map_eq_none_iff.mp hsame
  · exact hgone

theorem goes_step (h : t.Rooted) (hop : op.NonRoot) (hfit : t.nextIno + t.creates op < 2^64) :
    ∃ t', t.inodeStep checks op = some t' ∧ Goes t (t.creates op) t' := by
  cases op with
  | getOrCreate path =>
    refine ⟨(t.getOrCreate path).1, ?_, h.getOrCreate path, nextIno_create h.led.leads, fun i hi hnone => ?_⟩
    · rw [inodeStep, getOrCreate64_eq h.led.leads hfit, Option.map_some]
    · -- an entry that was not there has the next number
      by_contra hsome
      obtain ⟨e, he⟩ := Option.ne_none_iff_exists'.mp hsome
      obtain ⟨hnext, -, -⟩ := entry_of_getOrCreate h.led hnone he
      omega
  | removePath path => exact ⟨_, rfl, .of_drops (drops_removePath h.led path) (h.removePath path)⟩
  | removeSubtree path => exact ⟨_, rfl, .of_drops (drops_removeSubtree h.led path) (h.removeSubtree path)⟩
  | renamePath old new => exact ⟨_, rfl, .of_drops (drops_renamePath h.led old new) (h.renamePath hop)⟩
  | forget ino nlookup =>
    refine ⟨_, rfl, h.forget ino nlookup, nextIno_forget t ino nlookup, fun i _ hnone => ?_⟩
    rw [entry_forget, hnone]
    exact ite_self none

theorem goes_run (h : t.Rooted) (hops : ∀ op ∈ ops, op.NonRoot)
    (hfit : t.nextIno + t.creations checks ops < 2^64) :
    ∃ t', run (inodeStep checks) t ops = some t' ∧ Goes t (t.creations checks ops) t' := by
  induction ops generalizing t with
  | nil => exact ⟨t, rfl, h, rfl, fun i _ hnone => hnone⟩
  | cons op ops ih =>
    rw [creations] at hfit ⊢
    obtain ⟨t₁, hstep, hgoes⟩ := @goes_step t op checks h (hops op List.mem_cons_self) (by omega)
    simp only [hstep] at hfit ⊢
    have hnext := hgoes.nextIno
    obtain ⟨t', hrun, hrest⟩ := ih hgoes.rooted (fun a ha => hops a (List.mem_cons_of_mem op ha)) (by omega)
    refine ⟨t', run_cons.mpr ⟨t₁, hstep, hrun⟩, hrest.rooted, ?_, fun i hi hnone => ?_⟩
    · rw [hrest.nextIno, hnext, Nat.add_assoc]
    · exact hrest.gone i (by omega) (hgoes.gone i hi hnone)

theorem creations_append (hrun : run (inodeStep checks) t as = some t') :
    t.creations checks (as ++ bs) = t.creations checks as + t'.creations checks bs := by
  induction as generalizing t with
  | nil =>
    obtain rfl := Option.some.inj hrun
    rw [List.nil_append, creations, Nat.zero_add]
  | cons a as ih =>
    obtain ⟨t₁, hstep, hrun⟩ := run_cons.mp hrun
    rw [List.cons_append, creations, creations]
    simp only [hstep]
    rw [ih hrun, Nat.add_assoc]

/-- The same for the end of a run. -/
theorem goes_rest (h : t.Rooted) (hops : ∀ op ∈ as ++ bs, op.NonRoot)
    (hfit : t.nextIno + t.creations checks (as ++ bs) < 2^64) (hrun : run (inodeStep checks) t as = some t') :
    Goes t (t.creations checks as) t' ∧ (∀ op ∈ bs, op.NonRoot) ∧
      t'.nextIno + t'.creations checks bs < 2^64 := by
  rw [creations_append hrun] at hfit
  obtain ⟨u, hu, hgoes⟩ := @goes_run t as checks h (fun a ha => hops a (List.mem_append_left bs ha)) (by omega)
  obtain rfl := Option.some.inj (hu.symm.trans hrun)
  have hnext := hgoes.nextIno
  exact ⟨hgoes, fun b hb => hops b (List.mem_append_right as hb), by omega⟩

/-- A number that is returned is in the table, or in the way. -/
theorem ne_of_getOrCreate64 (h : t.Led) (hi : i < t.nextIno) (hnone : t.byIno.lookup i = none) (path : RelPath)
    (w : InodeTable) : t.getOrCreate64 checks path ≠ some (w, i) := by
  intro hret
  unfold getOrCreate64 at hret
  cases hp : t.byPath.lookup path with
  | some ino =>
    obtain ⟨e, he, -⟩ := h.leads.entry hp
    simp only [hp, he, Option.some.injEq, Prod.mk.injEq] at hret
    rw [hret.2, hnone] at he
    cases he
  | none =>
    simp only [hp] at hret
    split at hret
    · cases hret
    · have hnext := (Prod.mk.inj (Option.some.inj hret)).2
      omega

end Calls

/-- In a run of any calls with fewer than 2^64 - 2 creations nothing panics, and in each of its states a path
leads to the entry that has it, the root has its number, and all numbers are below the next. A number that was
there and is not any more does not come back. -/
theorem numbers_never_reused (checks : Bool) {ops : List InodeOp} (hops : ∀ op ∈ ops, op.NonRoot)
    (hfew : new.creations checks ops < 2^64 - 2) :
    (∃ t, run (inodeStep checks) new ops = some t) ∧
    (∀ as bs t, ops = as ++ bs → run (inodeStep checks) new as = some t →
      t.Leads ∧ t.getPathIno [] = some rootIno ∧ t.getPath rootIno = some [] ∧ t.Issued) ∧
    ∀ as bs cs ds t u v i, ops = as ++ (bs ++ (cs ++ ds)) → run (inodeStep checks) new as = some t →
      run (inodeStep checks) t bs = some u → run (inodeStep checks) u cs = some v →
      t.byIno.lookup i ≠ none → u.byIno.lookup i = none →
        v.byIno.lookup i = none ∧ ∀ path w, v.getOrCreate64 checks path ≠ some (w, i) := by
  have hfit : new.nextIno + new.creations checks ops < 2^64 := by
    rw [show new.nextIno = 2 from rfl]
    omega
  refine ⟨?_, ?_, ?_⟩
  · obtain ⟨t, hrun, -⟩ := goes_run new_rooted hops hfit
    exact ⟨t, hrun⟩
  · intro as bs t hsplit hrun
    rw [hsplit] at hops hfit
    obtain ⟨hgoes, -, -⟩ := goes_rest new_rooted hops hfit hrun
    have hled := hgoes.rooted.led
    exact ⟨hled.leads, hgoes.rooted.root, hled.leads [] rootIno hgoes.rooted.root, hled.issued⟩
  · intro as bs cs ds t u v i hsplit ht hu hv hthere hgone
    rw [hsplit] at hops hfit
    obtain ⟨hgoes, hops, hfit⟩ := goes_rest new_rooted hops hfit ht
    obtain ⟨hgoes', hops, hfit⟩ := goes_rest hgoes.rooted hops hfit hu
    obtain ⟨hgoes'', -, -⟩ := goes_rest hgoes'.rooted hops hfit hv
    -- the number was issued before `t`, so it is below the next one from then on
    obtain ⟨e, he⟩ := Option.ne_none_iff_exists'.mp hthere
    have hissued := hgoes.rooted.led.issued i e he
    have hnext := hgoes'.nextIno
    have hnext' := hgoes''.nextIno
    have hnone := hgoes''.gone i (by omega) hgone
    exact ⟨hnone, fun path w => ne_of_getOrCreate64 hgoes''.rooted.led (by omega) hnone path w⟩

section Last

private def brief : RelPath := [⟨[98], Eq.refl true⟩]

/-- A path is created and removed, so many times. -/
def churn : Nat → List InodeOp
  | 0 => []
  | n + 1 => .getOrCreate brief :: .removePath brief :: churn n

private def rootOnly (next : Nat) : InodeTable := { new with nextIno := next }

theorem lookup_rootOnly (next : Nat) : (rootOnly next).byPath.lookup brief = none := by
  show new.byPath.lookup brief = none
  decide

theorem create_rootOnly {checks : Bool} {next : Nat} (h : next + 1 < 2^64) :
    (rootOnly next).inodeStep checks (.getOrCreate brief) =
      some ⟨new.byIno.insert next ⟨brief, 1⟩, new.byPath.insert brief next, next + 1⟩ := by
  rw [inodeStep, getOrCreate64, lookup_rootOnly]
  simp only
  rw [if_neg fun hover => absurd hover.2 (by show ¬ 2^64 ≤ next + 1; omega)]
  show some _ = _
  rw [show ((rootOnly next).nextIno + 1) % 2^64 = next + 1 from Nat.mod_eq_of_lt h]
  rfl

/-- The entry is gone again, and only the number has changed. -/
theorem remove_rootOnly {checks : Bool} {next : Nat} (hnext : 2 ≤ next) :
    inodeStep checks ⟨new.byIno.insert next ⟨brief, 1⟩, new.byPath.insert brief next, next + 1⟩
        (.removePath brief) = some (rootOnly (next + 1)) := by
  have hpath : new.byPath.lookup brief = none := by decide
  have hino : new.byIno.lookup next = none := by
    have hne : next ≠ rootIno := by
      rw [rootIno]
      omega
    simp only [new, Map.lookup_insert_if, AList.lookup_empty, if_neg hne]
  rw [inodeStep, removePath, if_neg (by decide)]
  simp only [AList.lookup_insert]
  rw [Map.erase_insert hpath, Map.erase_insert hino, rootOnly]

theorem run_churn (checks : Bool) (n : Nat) {next : Nat} (hnext : 2 ≤ next) (h : next + n < 2^64) :
    run (inodeStep checks) (rootOnly next) (churn n) = some (rootOnly (next + n)) ∧
      (rootOnly next).creations checks (churn n) = n := by
  induction n generalizing next with
  | zero => exact ⟨rfl, rfl⟩
  | succ n ih =>
    have hcreate := @create_rootOnly checks next (by omega)
    have hremove := @remove_rootOnly checks next hnext
    obtain ⟨hrun, hcount⟩ := @ih (next + 1) (by omega) (by omega)
    constructor
    · rw [Nat.add_right_comm] at hrun
      exact run_cons.mpr ⟨_, hcreate, run_cons.mpr ⟨_, hremove, hrun⟩⟩
    · rw [churn, creations, hcreate]
      simp only
      rw [creations, hremove]
      simp only
      rw [hcount]
      show 1 + (0 + n) = n + 1
      omega

theorem create_last {next : Nat} (h : next + 1 = 2^64) :
    (rootOnly next).inodeStep false (.getOrCreate brief) =
        some ⟨new.byIno.insert next ⟨brief, 1⟩, new.byPath.insert brief next, 0⟩ ∧
      (rootOnly next).inodeStep true (.getOrCreate brief) = none := by
  constructor
  · rw [inodeStep, getOrCreate64, lookup_rootOnly]
    simp only
    rw [if_neg fun hover => Bool.false_ne_true hover.1]
    show some _ = _
    rw [show ((rootOnly next).nextIno + 1) % 2^64 = 0 by show (next + 1) % 2^64 = 0; rw [h]; exact Nat.mod_self _]
    rfl
  · rw [inodeStep, getOrCreate64, lookup_rootOnly]
    simp only
    rw [if_pos ⟨trivial, h.ge⟩]
    rfl

theorem run_last {n : Nat} (h : n + 3 = 2^64) :
    (∃ t, run (inodeStep false) new (churn n ++ [.getOrCreate brief]) = some t ∧ ¬ t.Issued) ∧
    run (inodeStep true) new (churn n ++ [.getOrCreate brief]) = none ∧
    new.creations false (churn n ++ [.getOrCreate brief]) < 2^64 := by
  have hchurn : ∀ checks, run (inodeStep checks) new (churn n) = some (rootOnly (2 + n)) := fun checks =>
    (run_churn checks n (le_refl 2) (by omega)).1
  obtain ⟨hwraps, hpanics⟩ := @create_last (2 + n) (by omega)
  refine ⟨⟨_, run_append.mpr ⟨_, hchurn false, run_cons.mpr ⟨_, hwraps, rfl⟩⟩, fun hissued => ?_⟩, ?_, ?_⟩
  · exact Nat.not_lt_zero _ (hissued (2 + n) ⟨brief, 1⟩ (AList.lookup_insert _))
  · apply Option.eq_none_iff_forall_ne_some.mpr
    intro t hrun
    obtain ⟨u, hu, hrest⟩ := run_append.mp hrun
    obtain rfl := Option.some.inj ((hchurn true).symm.trans hu)
    obtain ⟨v, hv, -⟩ := run_cons.mp hrest
    rw [hpanics] at hv
    cases hv
  · have hcount : new.creations false (churn n) = n := (run_churn false n (le_refl 2) (by omega)).2
    rw [creations_append (hchurn false), hcount, creations, hwraps]
    show n + (1 + 0) < 2^64
    omega

/-- The number 2^64 - 1 is issued to the last of 2^64 - 2 creations. Where overflow is checked the call panics,
and where it is not the next number is zero. -/
theorem last_number :
    (∃ t, run (inodeStep false) new (churn (2^64 - 3) ++ [.getOrCreate brief]) = some t ∧ ¬ t.Issued) ∧
    run (inodeStep true) new (churn (2^64 - 3) ++ [.getOrCreate brief]) = none ∧
    new.creations false (churn (2^64 - 3) ++ [.getOrCreate brief]) < 2^64 :=
  run_last rfl

/-- Four calls, far from the end. -/
theorem brief_calls : ∃ t, run (inodeStep true) new
    [.getOrCreate brief, .renamePath brief (brief ++ brief), .getOrCreate brief, .removeSubtree brief] = some t :=
  (numbers_never_reused true (by decide) (by decide)).1

end Last

end InodeTable

end FsCache
