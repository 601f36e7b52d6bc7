import Mathlib.Data.List.Infix
import Mathlib.Logic.Function.Basic
import FsCache.Lib.Assoc

/- A tree of directories and regular files, as far as open, write, rename and
   unlink see it.

   A name leads to a directory or to a file's inode; the bytes belong to the
   inode, so a descriptor opened on a file survives a rename of its name, and
   writes through it never follow the name. No two names share an inode, and
   every inode in use was issued: both are part of the type. The root is `[]`
   and always a directory.

   `fileAt` is the inode a name leads to; the lemmas say what each operation
   does to `fileAt` and to the bytes. -/

namespace FsCache.Lib

/-- What a name leads to. -/
inductive Node where
  | dir
  | file (ino : Nat)
  deriving DecidableEq

structure Files (ν β : Type) [DecidableEq ν] where
  node : Map (List ν) Node
  data : Nat → List β
  next : Nat
  issued : ∀ p i, node.lookup p = some (.file i) → i < next
  single : ∀ p q i, node.lookup p = some (.file i) → node.lookup q = some (.file i) → p = q

namespace Files

variable {ν β : Type} [DecidableEq ν]

/-- No name at all. -/
def empty : Files ν β where
  node := ∅
  data := fun _ => []
  next := 0
  issued := fun p i h => absurd h (by simp)
  single := fun p q i h => absurd h (by simp)

def lookup (fs : Files ν β) (p : List ν) : Option Node :=
  if p = [] then some .dir else fs.node.lookup p

/-- The inode of the regular file at a name. -/
def fileAt (fs : Files ν β) (p : List ν) : Option Nat :=
  match fs.lookup p with
  | some (.file i) => some i
  | _ => none

def isDir (fs : Files ν β) (p : List ν) : Bool := fs.lookup p = some .dir

/-- The bytes of the regular file at a name. -/
def contents (fs : Files ν β) (p : List ν) : Option (List β) := (fs.fileAt p).map fs.data

theorem fileAt_eq_some {fs : Files ν β} {p : List ν} {i : Nat} :
    fs.fileAt p = some i ↔ fs.lookup p = some (.file i) := by
  unfold fileAt
  split
  · next j h => rw [h]; simp
  · next h =>
    constructor
    · intro e; exact absurd e (by simp)
    · intro e; exact absurd e (h i)

theorem lookup_of_ne {fs : Files ν β} {p : List ν} (h : p ≠ []) : fs.lookup p = fs.node.lookup p :=
  if_neg h

theorem node_of_fileAt {fs : Files ν β} {p : List ν} {i : Nat} (h : fs.fileAt p = some i) :
    p ≠ [] ∧ fs.node.lookup p = some (.file i) := by
  rw [fileAt_eq_some, lookup] at h
  split at h
  · exact absurd h (by simp)
  · next hp => exact ⟨hp, h⟩

theorem fileAt_lt {fs : Files ν β} {p : List ν} {i : Nat} (h : fs.fileAt p = some i) :
    i < fs.next :=
  fs.issued p i (node_of_fileAt h).2

theorem fileAt_inj {fs : Files ν β} {p q : List ν} {i : Nat} (hp : fs.fileAt p = some i)
    (hq : fs.fileAt q = some i) : p = q :=
  fs.single p q i (node_of_fileAt hp).2 (node_of_fileAt hq).2

/-! ## Operations -/

/-- `mkdir(2)` of one directory, which may be there already. -/
def mkdir (fs : Files ν β) (p : List ν) : Option (Files ν β) :=
  match h : fs.lookup p with
  | some .dir => some fs
  | some (.file _) => none
  | none => some
    { fs with
      node := fs.node.insert p .dir
      issued := by
        intro q i hq
        rw [Map.lookup_insert_if] at hq
        split at hq
        · exact absurd hq (by simp)
        · exact fs.issued q i hq
      single := by
        intro q r i hq hr
        rw [Map.lookup_insert_if] at hq hr
        split at hq
        · exact absurd hq (by simp)
        · split at hr
          · exact absurd hr (by simp)
          · exact fs.single q r i hq hr }

/-- `create_dir_all`: every missing directory on the way to `p`, `p` included. -/
def createDirAll (fs : Files ν β) (p : List ν) : Option (Files ν β) := p.inits.foldlM mkdir fs

/-- `open(2)` for writing, with create and truncate. -/
def openTrunc (fs : Files ν β) (p : List ν) : Option (Files ν β × Nat) :=
  if fs.isDir p.dropLast then
    match h : fs.lookup p with
    | some .dir => none
    | some (.file i) => some ({ fs with data := Function.update fs.data i [] }, i)
    | none => some
      ({ node := fs.node.insert p (.file fs.next)
         data := Function.update fs.data fs.next []
         next := fs.next + 1
         issued := by
           intro q i hq
           rw [Map.lookup_insert_if] at hq
           split at hq
           · obtain rfl : fs.next = i := by simpa using hq
             exact Nat.lt_succ_self _
           · exact Nat.lt_succ_of_lt (fs.issued q i hq)
         single := by
           intro q r i hq hr
           rw [Map.lookup_insert_if] at hq hr
           split at hq
           · next hqp =>
             obtain rfl : fs.next = i := by simpa using hq
             split at hr
             · next hrp => rw [hqp, hrp]
             · exact absurd (fs.issued r _ hr) (Nat.lt_irrefl _)
           · split at hr
             · obtain rfl : fs.next = i := by simpa using hr
               exact absurd (fs.issued q _ hq) (Nat.lt_irrefl _)
             · exact fs.single q r i hq hr }, fs.next)
  else none

/-- The bytes after `bs` is written at offset `off`; a gap is filled with `pad`. -/
def overwrite (pad : β) (old : List β) (off : Nat) (bs : List β) : List β :=
  old.take off ++ List.replicate (off - old.length) pad ++ bs ++ old.drop (off + bs.length)

/-- `pwrite(2)` through a descriptor. -/
def writeAt (fs : Files ν β) (pad : β) (i off : Nat) (bs : List β) : Files ν β :=
  { fs with data := Function.update fs.data i (overwrite pad (fs.data i) off bs) }

/-- `unlink(2)`. -/
def remove (fs : Files ν β) (p : List ν) : Option (Files ν β) :=
  match fs.fileAt p with
  | none => none
  | some _ => some
    { fs with
      node := fs.node.erase p
      issued := by
        intro q i hq
        rw [Map.lookup_erase_if] at hq
        split at hq
        · exact absurd hq (by simp)
        · exact fs.issued q i hq
      single := by
        intro q r i hq hr
        rw [Map.lookup_erase_if] at hq hr
        split at hq
        · exact absurd hq (by simp)
        · split at hr
          · exact absurd hr (by simp)
          · exact fs.single q r i hq hr }

/-- `rename(2)` of a regular file. -/
def rename (fs : Files ν β) (a b : List ν) : Option (Files ν β) :=
  match h : fs.fileAt a with
  | none => none
  | some i =>
    if fs.isDir b || !fs.isDir b.dropLast then none
    else some
      { fs with
        node := (fs.node.erase a).insert b (.file i)
        issued := by
          intro q j hq
          rw [Map.lookup_insert_if, Map.lookup_erase_if] at hq
          split at hq
          · obtain rfl : i = j := by simpa using hq
            exact fileAt_lt h
          · split at hq
            · exact absurd hq (by simp)
            · exact fs.issued q j hq
        single := by
          have hother : ∀ q, q ≠ a → fs.node.lookup q ≠ some (.file i) := fun q hq e =>
            hq (fs.single q a i e (node_of_fileAt h).2)
          intro q r j hq hr
          rw [Map.lookup_insert_if, Map.lookup_erase_if] at hq hr
          split at hq
          · next hqb =>
            obtain rfl : i = j := by simpa using hq
            split at hr
            · next hrb => rw [hqb, hrb]
            · split at hr
              · exact absurd hr (by simp)
              · next hra => exact absurd hr (hother r hra)
          · split at hq
            · exact absurd hq (by simp)
            · next hqa =>
              split at hr
              · obtain rfl : i = j := by simpa using hr
                exact absurd hq (hother q hqa)
              · split at hr
                · exact absurd hr (by simp)
                · exact fs.single q r j hq hr }

/-! ## What each operation does -/

theorem mkdir_spec {fs fs' : Files ν β} {p : List ν} (h : fs.mkdir p = some fs') :
    fs'.data = fs.data ∧ fs'.next = fs.next ∧
      ∀ q, fs'.lookup q = if q = p then some .dir else fs.lookup q := by
  unfold mkdir at h
  split at h
  · next hp =>
    obtain rfl := Option.some.inj h
    refine ⟨rfl, rfl, fun q => ?_⟩
    split
    · next hq => rw [hq, hp]
    · rfl
  · exact absurd h (by simp)
  · next hp =>
    obtain rfl := Option.some.inj h
    refine ⟨rfl, rfl, fun q => ?_⟩
    simp only [lookup, Map.lookup_insert_if]
    by_cases hq : q = []
    · subst hq
      simp
    · rw [if_neg hq, if_neg hq]

/-- What `mkdir` and its iteration leave alone: files, bytes and inode numbers;
and no name disappears. -/
structure OnlyDirs (fs fs' : Files ν β) : Prop where
  data : fs'.data = fs.data
  next : fs'.next = fs.next
  fileAt : ∀ q, fs'.fileAt q = fs.fileAt q
  some : ∀ q, (fs.lookup q).isSome → (fs'.lookup q).isSome

theorem onlyDirs_mkdir {fs fs' : Files ν β} {p : List ν} (h : fs.mkdir p = some fs') :
    OnlyDirs fs fs' := by
  obtain ⟨hdata, hnext, hlookup⟩ := mkdir_spec h
  have hp : fs.fileAt p = none := by
    unfold mkdir at h
    unfold Files.fileAt
    split at h <;> simp_all
  refine ⟨hdata, hnext, fun q => ?_, fun q hq => ?_⟩
  · by_cases hq : q = p
    · rw [hq, hp, Files.fileAt, hlookup, if_pos rfl]
    · rw [Files.fileAt, hlookup, if_neg hq, Files.fileAt]
  · rw [hlookup]
    split
    · rfl
    · exact hq

theorem onlyDirs_createDirAll {fs fs' : Files ν β} {p : List ν}
    (h : fs.createDirAll p = some fs') : OnlyDirs fs fs' := by
  unfold createDirAll at h
  generalize p.inits = l at h
  induction l generalizing fs with
  | nil =>
    obtain rfl := Option.some.inj h
    exact ⟨rfl, rfl, fun _ => rfl, fun _ h => h⟩
  | cons q l ih =>
    rw [List.foldlM_cons] at h
    obtain ⟨fs₁, h₁, h₂⟩ := Option.bind_eq_some_iff.mp h
    have first := onlyDirs_mkdir h₁
    have rest := ih h₂
    exact ⟨rest.data.trans first.data, rest.next.trans first.next,
      fun q => (rest.fileAt q).trans (first.fileAt q), fun q hq => rest.some q (first.some q hq)⟩

/-- Directories are made down to `p` unless a file is in the way. -/
theorem createDirAll_isSome {fs : Files ν β} {p : List ν} (h : ∀ q, q <+: p → fs.fileAt q = none) :
    ∃ fs', fs.createDirAll p = some fs' ∧ ∀ q, q <+: p → fs'.isDir q = true := by
  have hall : ∀ (l : List (List ν)) (fs : Files ν β), (∀ q ∈ l, fs.fileAt q = none) →
      ∃ fs', l.foldlM mkdir fs = some fs' ∧
        (∀ q, fs.isDir q = true → fs'.isDir q = true) ∧ ∀ q ∈ l, fs'.isDir q = true := by
    intro l
    induction l with
    | nil => intro fs _; exact ⟨fs, rfl, fun _ h => h, by simp⟩
    | cons q l ih =>
      intro fs hfs
      obtain ⟨fs₁, h₁⟩ : ∃ fs₁, fs.mkdir q = some fs₁ := by
        have hq := hfs q List.mem_cons_self
        unfold fileAt at hq
        unfold mkdir
        split
        · exact ⟨_, rfl⟩
        · next i hi => rw [hi] at hq; exact absurd hq (by simp)
        · exact ⟨_, rfl⟩
      have hdir₁ : ∀ r, fs₁.isDir r = true ↔ r = q ∨ fs.isDir r = true := by
        intro r
        rw [isDir, (mkdir_spec h₁).2.2, isDir]
        by_cases hr : r = q <;> simp [hr]
      obtain ⟨fs₂, h₂, hkeep, hnew⟩ := ih fs₁ fun r hr => by
        rw [(onlyDirs_mkdir h₁).fileAt]
        exact hfs r (List.mem_cons_of_mem _ hr)
      refine ⟨fs₂, ?_, fun r hr => hkeep r ((hdir₁ r).mpr (.inr hr)), ?_⟩
      · rw [List.foldlM_cons, h₁]
        exact h₂
      · intro r hr
        rcases List.mem_cons.mp hr with rfl | hr
        · exact hkeep r ((hdir₁ r).mpr (.inl rfl))
        · exact hnew r hr
  obtain ⟨fs', h', -, hnew⟩ := hall p.inits fs fun q hq => h q ((List.mem_inits q p).mp hq)
  exact ⟨fs', h', fun q hq => hnew q ((List.mem_inits q p).mpr hq)⟩

/-- A name that is not on the way is as it was. -/
theorem lookup_createDirAll {fs fs' : Files ν β} {p q : List ν} (h : fs.createDirAll p = some fs')
    (hq : ¬ q <+: p) : fs'.lookup q = fs.lookup q := by
  have hall : ∀ (l : List (List ν)) (fs : Files ν β), q ∉ l → l.foldlM mkdir fs = some fs' →
      fs'.lookup q = fs.lookup q := by
    intro l
    induction l with
    | nil =>
      intro fs _ e
      obtain rfl := Option.some.inj e
      rfl
    | cons r l ih =>
      intro fs hnot e
      rw [List.foldlM_cons] at e
      obtain ⟨fs₁, h₁, h₂⟩ := Option.bind_eq_some_iff.mp e
      rw [ih fs₁ (fun hm => hnot (List.mem_cons_of_mem r hm)) h₂, (mkdir_spec h₁).2.2, if_neg]
      exact fun hqr => hnot (hqr ▸ List.mem_cons_self)
  exact hall p.inits fs (fun hm => hq ((List.mem_inits q p).mp hm)) h

/-- An open with truncation: the name's own inode, emptied, or a new one. -/
theorem openTrunc_spec {fs fs' : Files ν β} {p : List ν} {i : Nat}
    (h : fs.openTrunc p = some (fs', i)) :
    p ≠ [] ∧ fs'.data = Function.update fs.data i [] ∧
      (fs.fileAt p = some i ∧ fs'.next = fs.next ∧ fs'.node = fs.node ∨
        fs.lookup p = none ∧ i = fs.next ∧ fs'.next = fs.next + 1 ∧
          fs'.node = fs.node.insert p (.file i)) := by
  unfold openTrunc at h
  split at h
  · split at h
    · exact absurd h (by simp)
    · next j hp =>
      obtain ⟨rfl, rfl⟩ := Prod.mk.inj (Option.some.inj h)
      refine ⟨?_, rfl, .inl ⟨fileAt_eq_some.mpr hp, rfl, rfl⟩⟩
      rintro rfl
      exact absurd hp (by simp [lookup])
    · next hp =>
      obtain ⟨rfl, rfl⟩ := Prod.mk.inj (Option.some.inj h)
      refine ⟨?_, rfl, .inr ⟨hp, rfl, rfl, rfl⟩⟩
      rintro rfl
      exact absurd hp (by simp [lookup])
  · exact absurd h (by simp)

theorem fileAt_openTrunc {fs fs' : Files ν β} {p : List ν} {i : Nat}
    (h : fs.openTrunc p = some (fs', i)) (q : List ν) :
    fs'.fileAt q = if q = p then some i else fs.fileAt q := by
  obtain ⟨hp, -, ⟨hfile, -, hnode⟩ | ⟨-, -, -, hnode⟩⟩ := openTrunc_spec h
  · have hsame : fs'.fileAt q = fs.fileAt q := by simp only [fileAt, lookup, hnode]
    rw [hsame]
    split
    · next hq => rw [hq, hfile]
    · rfl
  · simp only [fileAt, lookup, hnode, Map.lookup_insert_if]
    by_cases hq : q = p
    · subst hq
      simp [hp]
    · simp [hq]

theorem next_openTrunc {fs fs' : Files ν β} {p : List ν} {i : Nat}
    (h : fs.openTrunc p = some (fs', i)) : fs.next ≤ fs'.next ∧ i < fs'.next := by
  obtain ⟨-, -, ⟨hfile, hnext, -⟩ | ⟨-, hi, hnext, -⟩⟩ := openTrunc_spec h
  · rw [hnext]
    exact ⟨le_refl _, fileAt_lt hfile⟩
  · omega

theorem some_openTrunc {fs fs' : Files ν β} {p : List ν} {i : Nat}
    (h : fs.openTrunc p = some (fs', i)) {q : List ν} (hq : (fs.lookup q).isSome) :
    (fs'.lookup q).isSome := by
  obtain ⟨-, -, ⟨-, -, hnode⟩ | ⟨-, -, -, hnode⟩⟩ := openTrunc_spec h
  · rwa [lookup, hnode]
  · simp only [lookup, hnode, Map.lookup_insert_if] at hq ⊢
    split_ifs at hq ⊢ <;> simp_all

theorem lookup_openTrunc_of_ne {fs fs' : Files ν β} {p q : List ν} {i : Nat}
    (h : fs.openTrunc p = some (fs', i)) (hq : q ≠ p) : fs'.lookup q = fs.lookup q := by
  obtain ⟨-, -, ⟨-, -, hnode⟩ | ⟨-, -, -, hnode⟩⟩ := openTrunc_spec h
  · rw [lookup, hnode, lookup]
  · rw [lookup, hnode, Map.lookup_insert_if, if_neg hq, lookup]

@[simp] theorem fileAt_writeAt (fs : Files ν β) (pad : β) (i off : Nat) (bs : List β)
    (p : List ν) : (fs.writeAt pad i off bs).fileAt p = fs.fileAt p := rfl

@[simp] theorem lookup_writeAt (fs : Files ν β) (pad : β) (i off : Nat) (bs : List β)
    (p : List ν) : (fs.writeAt pad i off bs).lookup p = fs.lookup p := rfl

@[simp] theorem next_writeAt (fs : Files ν β) (pad : β) (i off : Nat) (bs : List β) :
    (fs.writeAt pad i off bs).next = fs.next := rfl

/-- A write at the end of a file appends. -/
theorem overwrite_end (pad : β) (old bs : List β) : overwrite pad old old.length bs = old ++ bs := by
  simp [overwrite]

theorem data_writeAt_other {fs : Files ν β} {pad : β} {i off : Nat} {bs : List β} {j : Nat}
    (h : j ≠ i) : (fs.writeAt pad i off bs).data j = fs.data j :=
  Function.update_of_ne h _ _

theorem data_writeAt_end {fs : Files ν β} {pad : β} {i off : Nat} {bs : List β}
    (h : off = (fs.data i).length) : (fs.writeAt pad i off bs).data i = fs.data i ++ bs := by
  subst h
  simp only [writeAt, Function.update_self, overwrite_end]

theorem remove_spec {fs fs' : Files ν β} {p : List ν} (h : fs.remove p = some fs') :
    fs'.data = fs.data ∧ fs'.next = fs.next ∧
      ∀ q, fs'.lookup q = if q = p then none else fs.lookup q := by
  unfold remove at h
  split at h
  · exact absurd h (by simp)
  · next i hp =>
    obtain rfl := Option.some.inj h
    refine ⟨rfl, rfl, fun q => ?_⟩
    have hp' := (node_of_fileAt hp).1
    simp only [lookup, Map.lookup_erase_if]
    by_cases hq : q = []
    · subst hq
      rw [if_pos rfl, if_neg (Ne.symm hp')]
      rfl
    · rw [if_neg hq, if_neg hq]

theorem fileAt_remove {fs fs' : Files ν β} {p : List ν} (h : fs.remove p = some fs') (q : List ν) :
    fs'.fileAt q = if q = p then none else fs.fileAt q := by
  obtain ⟨-, -, hlookup⟩ := remove_spec h
  rw [fileAt, hlookup]
  split
  · next i hi =>
    split at hi
    · exact absurd hi (by simp)
    · next hq => rw [if_neg hq, fileAt_eq_some.mpr hi]
  · next hi =>
    by_cases hq : q = p
    · rw [if_pos hq]
    · rw [if_neg hq] at hi ⊢
      symm
      rw [← Option.not_isSome_iff_eq_none, Option.isSome_iff_exists]
      rintro ⟨j, hj⟩
      exact hi j (fileAt_eq_some.mp hj)

theorem rename_spec {fs fs' : Files ν β} {a b : List ν} (h : fs.rename a b = some fs') :
    ∃ i, fs.fileAt a = some i ∧ b ≠ [] ∧ fs'.data = fs.data ∧ fs'.next = fs.next ∧
      ∀ q, fs'.lookup q = if q = b then some (.file i) else if q = a then none else fs.lookup q := by
  unfold rename at h
  split at h
  · exact absurd h (by simp)
  · next i ha =>
    split at h
    · exact absurd h (by simp)
    · next hb =>
      obtain rfl := Option.some.inj h
      have hb' : b ≠ [] := by
        rintro rfl
        simp [isDir, lookup] at hb
      refine ⟨i, ha, hb', rfl, rfl, fun q => ?_⟩
      have ha' := (node_of_fileAt ha).1
      simp only [lookup, Map.lookup_insert_if, Map.lookup_erase_if]
      by_cases hq : q = []
      · subst hq
        rw [if_pos rfl, if_neg (Ne.symm hb'), if_neg (Ne.symm ha')]
        rfl
      · rw [if_neg hq, if_neg hq]

theorem fileAt_rename {fs fs' : Files ν β} {a b : List ν} (h : fs.rename a b = some fs')
    (q : List ν) :
    fs'.fileAt q = if q = b then fs.fileAt a else if q = a then none else fs.fileAt q := by
  obtain ⟨i, ha, -, -, -, hlookup⟩ := rename_spec h
  by_cases hb : q = b
  · rw [if_pos hb, ha]
    exact fileAt_eq_some.mpr (by rw [hlookup, if_pos hb])
  · by_cases hqa : q = a
    · rw [if_neg hb, if_pos hqa, fileAt, hlookup, if_neg hb, if_pos hqa]
    · rw [if_neg hb, if_neg hqa, fileAt, hlookup, if_neg hb, if_neg hqa, fileAt]

theorem contents_rename {fs fs' : Files ν β} {a b : List ν} (h : fs.rename a b = some fs') :
    fs'.contents b = fs.contents a := by
  obtain ⟨i, ha, -, hdata, -, -⟩ := rename_spec h
  rw [contents, contents, fileAt_rename h, if_pos rfl, hdata]

theorem openTrunc_isSome {fs : Files ν β} {p : List ν} (hparent : fs.isDir p.dropLast = true)
    (hp : fs.isDir p = false) : ∃ fs' i, fs.openTrunc p = some (fs', i) := by
  unfold openTrunc
  rw [if_pos hparent]
  split
  · next h => simp [isDir, h] at hp
  · exact ⟨_, _, rfl⟩
  · exact ⟨_, _, rfl⟩

theorem rename_isSome {fs : Files ν β} {a b : List ν} {i : Nat} (ha : fs.fileAt a = some i)
    (hparent : fs.isDir b.dropLast = true) (hb : fs.isDir b = false) :
    ∃ fs', fs.rename a b = some fs' := by
  unfold rename
  split
  · next h => rw [ha] at h; exact absurd h (by simp)
  · simp [hparent, hb]

theorem isDir_createDirAll {fs fs' : Files ν β} {p : List ν} (h : fs.createDirAll p = some fs')
    {q : List ν} (hq : fs'.isDir q = true) : fs.isDir q = true ∨ q <+: p := by
  have hall : ∀ (l : List (List ν)) (fs : Files ν β), l.foldlM mkdir fs = some fs' →
      fs.isDir q = true ∨ q ∈ l := by
    intro l
    induction l with
    | nil => intro fs e; obtain rfl := Option.some.inj e; exact .inl hq
    | cons r l ih =>
      intro fs e
      rw [List.foldlM_cons] at e
      obtain ⟨fs₁, h₁, h₂⟩ := Option.bind_eq_some_iff.mp e
      rcases ih fs₁ h₂ with hd | hm
      · rw [isDir, (mkdir_spec h₁).2.2] at hd
        split at hd
        · next hqr => exact .inr (hqr ▸ List.mem_cons_self)
        · exact .inl hd
      · exact .inr (List.mem_cons_of_mem r hm)
  exact (hall p.inits fs h).imp_right (List.mem_inits q p).mp

theorem isDir_openTrunc {fs fs' : Files ν β} {p : List ν} {i : Nat}
    (h : fs.openTrunc p = some (fs', i)) (q : List ν) : fs'.isDir q = fs.isDir q := by
  obtain ⟨hp, -, ⟨-, -, hnode⟩ | ⟨hnone, -, -, hnode⟩⟩ := openTrunc_spec h
  · have hsame : fs'.lookup q = fs.lookup q := by rw [lookup, hnode, lookup]
    rw [isDir, hsame, isDir]
  · by_cases hq : q = p
    · have hfile : fs'.lookup q = some (.file i) := by
        rw [hq, lookup_of_ne hp, hnode, Map.lookup_insert_if, if_pos rfl]
      rw [isDir, hfile, isDir, hq, hnone]
      rfl
    · rw [isDir, lookup_openTrunc_of_ne h hq, isDir]

theorem isDir_eq_false_of_fileAt {fs : Files ν β} {p : List ν} {i : Nat} (h : fs.fileAt p = some i) :
    fs.isDir p = false := by
  rw [isDir, fileAt_eq_some.mp h]
  simp

@[simp] theorem fileAt_empty (p : List ν) : (empty : Files ν β).fileAt p = none := by
  by_cases hp : p = [] <;> simp [fileAt, lookup, empty, hp]

theorem isDir_empty {p : List ν} (h : (empty : Files ν β).isDir p = true) : p = [] := by
  by_contra hp
  simp [isDir, lookup, empty, hp] at h

end Files

end FsCache.Lib
