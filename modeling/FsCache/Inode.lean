import FsCache.Lib.Assoc
import FsCache.Path

/- The inode table (fuse/inode.rs): a map from inode numbers to entries and a
   map from paths to inode numbers.

   `next_ino` is a `u64`; it is unbounded here, since 2^64 creations are out of
   reach. `refcount` keeps its saturation. The order in which a `HashMap` lists
   its keys is unspecified; `lookup_renamePath` and `entry_renamePath` say what
   `rename_path` does to every lookup, and depend on no order.

   Correspondence (Rust ↔ Lean):
     `InodeTable::{new, get_path, get_path_ino}`   ↔ `InodeTable.new`, `getPath`, `getPathIno`
     `remove_path`, `rename_path`, `remove_subtree` ↔ `removePath`, `renamePath`, `removeSubtree`
     `get_or_create`, `forget`                      ↔ `getOrCreate`, `forget` -/

namespace FsCache
open Lib

/-- Root inode is always 1 in FUSE. -/
def rootIno : Nat := 1

def u64Max : Nat := 2^64 - 1

structure InodeEntry where
  path : RelPath
  refcount : Nat
  deriving DecidableEq

/-- Bidirectional map between FUSE inode numbers and relative file paths. -/
structure InodeTable where
  byIno : Map Nat InodeEntry
  byPath : Map RelPath Nat
  nextIno : Nat

namespace InodeTable

def new : InodeTable where
  byIno := AList.insert rootIno ⟨[], u64Max⟩ ∅
  byPath := AList.insert [] rootIno ∅
  nextIno := 2

def getPath (t : InodeTable) (ino : Nat) : Option RelPath := (t.byIno.lookup ino).map InodeEntry.path

def getPathIno (t : InodeTable) (path : RelPath) : Option Nat := t.byPath.lookup path

def removePath (t : InodeTable) (path : RelPath) : InodeTable :=
  if path = [] then t
  else
    match t.byPath.lookup path with
    | none => t
    | some ino => { t with byPath := t.byPath.erase path, byIno := t.byIno.erase ino }

/-- `if let Some(entry) = self.by_ino.get_mut(&ino) { entry.path = … }` -/
def setPath (byIno : Map Nat InodeEntry) (ino : Nat) (path : RelPath) : Map Nat InodeEntry :=
  match byIno.lookup ino with
  | none => byIno
  | some entry => byIno.insert ino { entry with path := path }

/-- The step `rename_path` takes for the old path and for each descendant. -/
def movePath (t : InodeTable) (old new : RelPath) : InodeTable :=
  match t.byPath.lookup old with
  | none => t
  | some ino =>
    { t with byPath := (t.byPath.erase old).insert new ino, byIno := setPath t.byIno ino new }

/-- The known paths strictly below `old`. -/
def descendants (t : InodeTable) (old : RelPath) : List RelPath :=
  t.byPath.keys.filter fun path => old <+: path ∧ path ≠ old

def renamePath (t : InodeTable) (old new : RelPath) : InodeTable :=
  if old = [] then t
  else
    let t := (t.removePath new).movePath old new
    (t.descendants old).foldl (fun t child => t.movePath child (reroot old new child)) t

def removeSubtree (t : InodeTable) (path : RelPath) : InodeTable :=
  if path = [] then t
  else (t.byPath.keys.filter fun candidate => path <+: candidate).foldl removePath t

def getOrCreate (t : InodeTable) (path : RelPath) : InodeTable × Nat :=
  match t.byPath.lookup path with
  | some ino =>
    match t.byIno.lookup ino with
    | some entry =>
      let entry := { entry with refcount := min (entry.refcount + 1) u64Max }
      ({ t with byIno := t.byIno.insert ino entry }, ino)
    | none => (t, ino) -- `unwrap` on a missing entry: unreachable while the maps are inverse
  | none =>
    ({ byIno := t.byIno.insert t.nextIno ⟨path, 1⟩
       byPath := t.byPath.insert path t.nextIno
       nextIno := t.nextIno + 1 }, t.nextIno)

/-- Decrement refcount. Removes entry when it reaches zero. Root is never removed. -/
def forget (t : InodeTable) (ino nlookup : Nat) : InodeTable :=
  if ino = rootIno then t
  else
    match t.byIno.lookup ino with
    | none => t
    | some entry =>
      if entry.refcount - nlookup = 0 then
        { t with byIno := t.byIno.erase ino, byPath := t.byPath.erase entry.path }
      else
        { t with byIno := t.byIno.insert ino { entry with refcount := entry.refcount - nlookup } }

/-- The maps are mutually inverse: `by_path[p] = i` exactly when
`by_ino[i].path = p`. -/
def Inverse (t : InodeTable) : Prop := ∀ p i, t.getPathIno p = some i ↔ t.getPath i = some p

/-- One half of it: a path leads to the inode that has it. -/
def Leads (t : InodeTable) : Prop := ∀ p i, t.getPathIno p = some i → t.getPath i = some p

theorem Inverse.leads {t : InodeTable} (h : t.Inverse) : t.Leads := fun p i => (h p i).mp

/-! ## What each operation does to the lookups -/

theorem getPath_eq_some {t : InodeTable} {i : Nat} {p : RelPath} :
    t.getPath i = some p ↔ ∃ e, t.byIno.lookup i = some e ∧ e.path = p := by
  rw [getPath, Option.map_eq_some_iff]

theorem lookup_setPath (m : Map Nat InodeEntry) (ino : Nat) (path : RelPath) (i : Nat) :
    (setPath m ino path).lookup i =
      if i = ino then (m.lookup i).map fun e => { e with path := path } else m.lookup i := by
  unfold setPath
  cases h : m.lookup ino with
  | none =>
    by_cases hi : i = ino
    · rw [if_pos hi, hi, h, Option.map_none]
    · rw [if_neg hi]
  | some e =>
    simp only [Map.lookup_insert_if]
    by_cases hi : i = ino
    · rw [if_pos hi, if_pos hi, hi, h, Option.map_some]
    · rw [if_neg hi, if_neg hi]

theorem lookup_removePath (t : InodeTable) {path : RelPath} (h : path ≠ []) (q : RelPath) :
    (t.removePath path).byPath.lookup q = if q = path then none else t.byPath.lookup q := by
  rw [removePath, if_neg h]
  cases hl : t.byPath.lookup path with
  | none =>
    by_cases hq : q = path
    · rw [if_pos hq, hq, hl]
    · rw [if_neg hq]
  | some ino => exact Map.lookup_erase_if t.byPath path q

theorem entry_removePath (t : InodeTable) {path : RelPath} (h : path ≠ []) (i : Nat) :
    (t.removePath path).byIno.lookup i =
      if t.byPath.lookup path = some i then none else t.byIno.lookup i := by
  rw [removePath, if_neg h]
  cases hl : t.byPath.lookup path with
  | none => simp
  | some ino =>
    simp only [Option.some.injEq, Map.lookup_erase_if, eq_comm]

theorem byPath_movePath (t : InodeTable) (old new : RelPath) :
    (t.movePath old new).byPath = t.byPath.moveKey old new := by
  unfold movePath Map.moveKey
  cases t.byPath.lookup old <;> rfl

theorem byPath_foldl_movePath (f : RelPath → RelPath) (l : List RelPath) (t : InodeTable) :
    (l.foldl (fun t a => t.movePath a (f a)) t).byPath =
      l.foldl (fun m a => m.moveKey a (f a)) t.byPath := by
  induction l generalizing t with
  | nil => rfl
  | cons a l ih => rw [List.foldl_cons, List.foldl_cons, ih, byPath_movePath]

/-- The entries after a list of moves: the entry of a moved path is renamed,
every other one is unchanged. -/
theorem entry_foldl_movePath (f : RelPath → RelPath) : ∀ (l : List RelPath) (t : InodeTable),
    l.Nodup → (∀ a ∈ l, ∃ i, t.byPath.lookup a = some i) → (∀ a ∈ l, f a ∉ l) →
    (∀ a ∈ l, ∀ b ∈ l, t.byPath.lookup a = t.byPath.lookup b → a = b) → ∀ i,
    (∀ a ∈ l, t.byPath.lookup a = some i →
      (l.foldl (fun t a => t.movePath a (f a)) t).byIno.lookup i =
        (t.byIno.lookup i).map fun e => { e with path := f a }) ∧
    ((∀ a ∈ l, t.byPath.lookup a ≠ some i) →
      (l.foldl (fun t a => t.movePath a (f a)) t).byIno.lookup i = t.byIno.lookup i) := by
  intro l
  induction l with
  | nil => intro t _ _ _ _ i; simp
  | cons a l ih =>
    intro t hnd hheld hoff hinj i
    obtain ⟨ha, hl⟩ := List.nodup_cons.mp hnd
    obtain ⟨j, hj⟩ := hheld a List.mem_cons_self
    have hne : ∀ b ∈ l, b ≠ a := fun b hb e => ha (e ▸ hb)
    have hfa : ∀ b ∈ l, b ≠ f a := fun b hb e =>
      hoff a List.mem_cons_self (e ▸ List.mem_cons_of_mem a hb)
    have hkeep : ∀ b ∈ l, (t.movePath a (f a)).byPath.lookup b = t.byPath.lookup b := by
      intro b hb
      rw [byPath_movePath, Map.lookup_moveKey hj, if_neg (hfa b hb), if_neg (hne b hb)]
    have hfirst : ∀ k, (t.movePath a (f a)).byIno.lookup k =
        if k = j then (t.byIno.lookup k).map fun e => { e with path := f a }
        else t.byIno.lookup k := by
      intro k
      simp only [movePath, hj, lookup_setPath]
    have hother : ∀ b ∈ l, t.byPath.lookup b ≠ some j := fun b hb e =>
      hne b hb (hinj b (List.mem_cons_of_mem a hb) a List.mem_cons_self (e.trans hj.symm))
    obtain ⟨hmoved, hrest⟩ := ih (t.movePath a (f a)) hl
      (fun b hb => by rw [hkeep b hb]; exact hheld b (List.mem_cons_of_mem a hb))
      (fun b hb hm => hoff b (List.mem_cons_of_mem a hb) (List.mem_cons_of_mem a hm))
      (fun b hb c hc e => hinj b (List.mem_cons_of_mem a hb) c (List.mem_cons_of_mem a hc)
        (by rwa [hkeep b hb, hkeep c hc] at e)) i
    refine ⟨?_, ?_⟩
    · intro b hb hbi
      rcases List.mem_cons.mp hb with rfl | hb
      · obtain rfl : j = i := Option.some.inj (hj.symm.trans hbi)
        rw [List.foldl_cons, hrest fun c hc => by rw [hkeep c hc]; exact hother c hc,
          hfirst, if_pos rfl]
      · have hij : i ≠ j := fun e => hother b hb (e ▸ hbi)
        rw [List.foldl_cons, hmoved b hb (by rw [hkeep b hb]; exact hbi), hfirst, if_neg hij]
    · intro hnone
      have hij : i ≠ j := fun e => hnone a List.mem_cons_self (e ▸ hj)
      rw [List.foldl_cons, hrest fun c hc => by
          rw [hkeep c hc]; exact hnone c (List.mem_cons_of_mem a hc), hfirst, if_neg hij]

/-! ## `rename_path` between subtrees that are apart -/

/-- `rename_path` as one fold of moves, the old path first, over the table
without the destination. -/
theorem renamePath_eq_foldl (t : InodeTable) {old new : RelPath} (h : Apart old new) :
    ∃ l : List RelPath, l.Nodup ∧
      (∀ a, a ∈ l ↔ old <+: a ∧ ∃ i, t.byPath.lookup a = some i) ∧
      t.renamePath old new =
        l.foldl (fun t a => t.movePath a (reroot old new a)) (t.removePath new) := by
  have hold : old ≠ [] := fun e => h.1 (e ▸ List.nil_prefix)
  have hnew : new ≠ [] := fun e => h.2 (e ▸ List.nil_prefix)
  have hnewold : ¬ old <+: new := h.1
  have hfold : reroot old new old = new := by
    have := reroot_append old new []
    rwa [List.append_nil, List.append_nil] at this
  -- below `old`, erasing the destination changes no lookup
  have hkeep : ∀ a, old <+: a → (t.removePath new).byPath.lookup a = t.byPath.lookup a := by
    intro a ha
    rw [lookup_removePath t hnew, if_neg]
    rintro rfl
    exact hnewold ha
  have hmem : ∀ a, a ∈ ((t.removePath new).movePath old new).descendants old ↔
      (old <+: a ∧ a ≠ old) ∧ ∃ i, t.byPath.lookup a = some i := by
    intro a
    rw [descendants, List.mem_filter, decide_eq_true_iff, and_comm, Map.mem_keys_iff]
    refine and_congr_right fun ⟨ha, hne⟩ => ?_
    have hne' : a ≠ new := fun e => hnewold (e ▸ ha)
    rw [byPath_movePath]
    cases hl : (t.removePath new).byPath.lookup old with
    | none => rw [Map.moveKey_of_none hl, hkeep a ha]
    | some j => rw [Map.lookup_moveKey hl, if_neg hne', if_neg hne, hkeep a ha]
  have hnd : (((t.removePath new).movePath old new).descendants old).Nodup :=
    (AList.keys_nodup _).filter _
  cases hl : t.byPath.lookup old with
  | none =>
    refine ⟨_, hnd, fun a => ?_, ?_⟩
    · rw [hmem]
      refine ⟨fun ha => ⟨ha.1.1, ha.2⟩, fun ha => ⟨⟨ha.1, ?_⟩, ha.2⟩⟩
      rintro rfl
      obtain ⟨i, hi⟩ := ha.2
      rw [hl] at hi
      exact absurd hi (by simp)
    · have hskip : (t.removePath new).movePath old new = t.removePath new := by
        rw [movePath, hkeep old List.prefix_rfl, hl]
      rw [renamePath, if_neg hold, hskip]
  | some j =>
    refine ⟨old :: ((t.removePath new).movePath old new).descendants old, ?_, fun a => ?_, ?_⟩
    · exact List.nodup_cons.mpr ⟨fun hm => ((hmem old).mp hm).1.2 rfl, hnd⟩
    · rw [List.mem_cons, hmem]
      constructor
      · rintro (rfl | ha)
        · exact ⟨List.prefix_rfl, j, hl⟩
        · exact ⟨ha.1.1, ha.2⟩
      · rintro ⟨ha, hi⟩
        by_cases hao : a = old
        · exact .inl hao
        · exact .inr ⟨⟨ha, hao⟩, hi⟩
    · rw [renamePath, if_neg hold, List.foldl_cons, hfold]

/-- What `rename_path` does to every path: a path under `new` is found where it
was found under `old`, and failing that keeps what it had, `new` itself
excepted; nothing is left under `old`. -/
theorem lookup_renamePath (t : InodeTable) {old new : RelPath} (h : Apart old new) (q : RelPath) :
    (t.renamePath old new).byPath.lookup q =
      if new <+: q then
        match t.byPath.lookup (reroot new old q) with
        | some i => some i
        | none => if q = new then none else t.byPath.lookup q
      else if old <+: q then none
      else t.byPath.lookup q := by
  obtain ⟨l, hnd, hmem, heq⟩ := renamePath_eq_foldl t h
  have hnew : new ≠ [] := fun e => h.2 (e ▸ List.nil_prefix)
  have hkeep : ∀ a, old <+: a → (t.removePath new).byPath.lookup a = t.byPath.lookup a := by
    intro a ha
    rw [lookup_removePath t hnew, if_neg]
    rintro rfl
    exact h.1 ha
  obtain ⟨hmoved, hrest⟩ := Map.lookup_foldl_moveKey (reroot old new) l (t.removePath new).byPath hnd
    (fun a ha => by rw [hkeep a ((hmem a).mp ha).1]; exact ((hmem a).mp ha).2)
    (fun a _ hb => h.symm.disjoint (prefix_reroot old new a) ((hmem _).mp hb).1)
    (fun a ha b hb => reroot_inj ((hmem a).mp ha).1 ((hmem b).mp hb).1) q
  rw [heq, byPath_foldl_movePath]
  by_cases hq : new <+: q
  · rw [if_pos hq]
    obtain ⟨s, rfl⟩ := hq
    rw [reroot_append]
    cases hs : t.byPath.lookup (old ++ s) with
    | some i =>
      have ha : old ++ s ∈ l := (hmem _).mpr ⟨List.prefix_append old s, i, hs⟩
      rw [hmoved (old ++ s) ha (reroot_append old new s), hkeep _ (List.prefix_append old s), hs]
    | none =>
      have hno : ∀ a ∈ l, reroot old new a ≠ new ++ s := by
        intro a ha e
        obtain ⟨⟨u, rfl⟩, i, hi⟩ := (hmem a).mp ha
        rw [reroot_append] at e
        rw [List.append_cancel_left e, hs] at hi
        exact absurd hi (by simp)
      have hout : new ++ s ∉ l := fun hm =>
        h.disjoint ((hmem _).mp hm).1 (List.prefix_append new s)
      rw [hrest hno, if_neg hout, lookup_removePath t hnew]
  · have hno : ∀ a ∈ l, reroot old new a ≠ q := fun a _ e => hq (e ▸ prefix_reroot old new a)
    rw [if_neg hq, hrest hno, lookup_removePath t hnew, if_neg fun e : q = new => hq (e ▸ List.prefix_rfl)]
    by_cases ho : old <+: q
    · rw [if_pos ho]
      split
      · rfl
      · next hm =>
        by_contra hc
        obtain ⟨i, hi⟩ := Option.ne_none_iff_exists'.mp hc
        exact hm ((hmem q).mpr ⟨ho, i, hi⟩)
    · rw [if_neg ho, if_neg fun hm => ho ((hmem q).mp hm).1]

/-- What `rename_path` does to every entry of a table whose paths lead to their inodes: an
inode that its path does not lead to keeps it, the one at `new` goes, those under `old` are
carried over, and every other one stays as it is. -/
theorem entry_renamePath_leads {t : InodeTable} (hl : t.Leads) {old new : RelPath}
    (h : Apart old new) (i : Nat) :
    (t.renamePath old new).byIno.lookup i =
      match t.byIno.lookup i with
      | none => none
      | some e =>
        if t.byPath.lookup e.path ≠ some i then some e
        else if e.path = new then none
        else if old <+: e.path then some { e with path := reroot old new e.path }
        else some e := by
  obtain ⟨l, hnd, hmem, heq⟩ := renamePath_eq_foldl t h
  have hnew : new ≠ [] := fun e => h.2 (e ▸ List.nil_prefix)
  have hkeep : ∀ a, old <+: a → (t.removePath new).byPath.lookup a = t.byPath.lookup a := by
    intro a ha
    rw [lookup_removePath t hnew, if_neg]
    rintro rfl
    exact h.1 ha
  have hinj : ∀ a ∈ l, ∀ b ∈ l, t.byPath.lookup a = t.byPath.lookup b → a = b := by
    intro a ha b _ e
    obtain ⟨-, j, hj⟩ := (hmem a).mp ha
    exact Option.some.inj ((hl a j hj).symm.trans (hl b j (e.symm.trans hj)))
  obtain ⟨hmoved, hrest⟩ := entry_foldl_movePath (reroot old new) l (t.removePath new) hnd
    (fun a ha => by rw [hkeep a ((hmem a).mp ha).1]; exact ((hmem a).mp ha).2)
    (fun a _ hb => h.symm.disjoint (prefix_reroot old new a) ((hmem _).mp hb).1)
    (fun a ha b hb e => hinj a ha b hb
      (by rwa [hkeep a ((hmem a).mp ha).1, hkeep b ((hmem b).mp hb).1] at e)) i
  rw [heq]
  cases hi : t.byIno.lookup i with
  | none =>
    have hno : ∀ a ∈ l, (t.removePath new).byPath.lookup a ≠ some i := by
      intro a ha e
      rw [hkeep a ((hmem a).mp ha).1] at e
      obtain ⟨x, hx, -⟩ := getPath_eq_some.mp (hl a i e)
      rw [hi] at hx
      exact absurd hx (by simp)
    rw [hrest hno, entry_removePath t hnew, hi]
    split <;> rfl
  | some e =>
    have hown : ∀ a, t.byPath.lookup a = some i → a = e.path := fun a ha =>
      Option.some.inj ((hl a i ha).symm.trans (getPath_eq_some.mpr ⟨e, hi, rfl⟩))
    by_cases hpi : t.byPath.lookup e.path = some i
    · have hrem : (t.removePath new).byIno.lookup i = if e.path = new then none else some e := by
        rw [entry_removePath t hnew, hi]
        by_cases hn : e.path = new
        · rw [if_pos hn, if_pos (hn ▸ hpi)]
        · rw [if_neg hn, if_neg fun hc => hn (hown new hc).symm]
      by_cases ho : old <+: e.path
      · have ha : e.path ∈ l := (hmem _).mpr ⟨ho, i, hpi⟩
        have hn : e.path ≠ new := fun hc => h.1 (hc ▸ ho)
        rw [hmoved e.path ha (by rw [hkeep _ ho]; exact hpi), hrem, if_neg hn]
        simp [hpi, hn, ho]
      · have hno : ∀ a ∈ l, (t.removePath new).byPath.lookup a ≠ some i := by
          intro a ha hc
          rw [hkeep a ((hmem a).mp ha).1] at hc
          exact ho (hown a hc ▸ ((hmem a).mp ha).1)
        rw [hrest hno, hrem]
        simp [hpi, ho]
    · -- no path leads to this inode, and so none of those that are moved or removed
      have hnone : ∀ a, t.byPath.lookup a ≠ some i := fun a ha => hpi (hown a ha ▸ ha)
      have hno : ∀ a ∈ l, (t.removePath new).byPath.lookup a ≠ some i := by
        intro a ha hc
        rw [hkeep a ((hmem a).mp ha).1] at hc
        exact hnone a hc
      rw [hrest hno, entry_removePath t hnew, if_neg (hnone new), hi]
      simp [hpi]

/-- Where the maps are inverse, every entry is led to. -/
theorem entry_renamePath {t : InodeTable} (hinv : t.Inverse) {old new : RelPath}
    (h : Apart old new) (i : Nat) :
    (t.renamePath old new).byIno.lookup i =
      match t.byIno.lookup i with
      | none => none
      | some e =>
        if e.path = new then none
        else if old <+: e.path then some { e with path := reroot old new e.path }
        else some e := by
  rw [entry_renamePath_leads hinv.leads h]
  cases hi : t.byIno.lookup i with
  | none => rfl
  | some e =>
    have hpi : t.byPath.lookup e.path = some i :=
      (hinv e.path i).mpr (getPath_eq_some.mpr ⟨e, hi, rfl⟩)
    simp only [hpi, ne_eq, not_true, if_false]

end InodeTable

end FsCache
