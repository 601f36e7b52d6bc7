import Mathlib.Data.List.Nodup
import Mathlib.Logic.Function.Basic
import FsCache.Db

/- The backing directory and what the daemon asks of it (backing_store.rs).

   `node p` is what the last component of `p` leads to without following it; a
   regular file's bytes and stat belong to its inode. `BackingStore::stat` does
   not follow a symbolic link, `open_file` does: both are as in the source.

   A `BackingChange` is one step of whoever else uses the directory. `past p`
   lists the regular files' contents that `p` has had; it is there to be
   reasoned about, and nothing reads it. `FreshAt` is the assumption that a
   change gives a path a (mtime, size) pair the path never had.

   Correspondence (Rust ↔ Lean):
     `BackingStore::{stat, open_file}` ↔ `Backing.stat`, `Backing.openFile`
     `src.metadata()`, `src.read()`    ↔ `Backing.fstat`, `Backing.readAt` -/

namespace FsCache

/-- One content of a regular file, with the stat that goes with it. -/
structure BFile where
  bytes : List UInt8
  stat : Stat
  size_eq : stat.stSize = bytes.length
  size_lt : bytes.length < 2^63
  deriving DecidableEq

def BFile.version (f : BFile) : Version := f.stat.version

theorem BFile.size_nonneg (f : BFile) : 0 ≤ f.stat.stSize := by
  rw [f.size_eq]
  exact Int.natCast_nonneg _

theorem BFile.size_lt' (f : BFile) : f.stat.stSize < 2^63 := by
  have := f.size_lt
  rw [f.size_eq]
  omega

/-- A regular file of these bytes, last written at `mtime`. -/
def BFile.of (bytes : List UInt8) (mtime : Int) (h : bytes.length < 2^63) : BFile :=
  ⟨bytes, ⟨bytes.length, 8, mtime, 0, mtime, 0, mtime, 0, 0o100644, 1, 0, 0, 0, 4096⟩, rfl, h⟩

/-- A file of two bytes. -/
def BFile.pair (a b : UInt8) (mtime : Int) : BFile := .of [a, b] mtime (show 2 < 2^63 by decide)

theorem short_nil : ([] : List UInt8).length < 2^63 := by decide

inductive BNode where
  | file (ino : Nat)
  | dir (stat : Stat)
  | symlink (stat : Stat) (target : RelPath)
  deriving DecidableEq

theorem none_ne_file : ∀ i, (none : Option BNode) ≠ some (.file i) := by simp

/-- An open descriptor. -/
inductive Handle where
  | file (ino : Nat)
  | dir (stat : Stat)
  deriving DecidableEq

structure Backing where
  node : RelPath → Option BNode
  file : Nat → BFile
  next : Nat
  past : RelPath → List BFile
  issued : ∀ p i, node p = some (.file i) → i < next
  live_past : ∀ p i, node p = some (.file i) → file i ∈ past p

namespace Backing

/-- A directory with nothing in it. -/
def empty : Backing where
  node _ := none
  file _ := ⟨[], ⟨0, 0, 0, 0, 0, 0, 0, 0, 0, 0, 0, 0, 0, 0⟩, rfl, short_nil⟩
  next := 0
  past _ := []
  issued _ _ h := absurd h (by simp)
  live_past _ _ h := absurd h (by simp)

/-- The regular file at a path. -/
def live (b : Backing) (p : RelPath) : Option BFile :=
  match b.node p with
  | some (.file i) => some (b.file i)
  | _ => none

/-- stat a path relative to the backing root. Does not follow symlinks. -/
def stat (b : Backing) (p : RelPath) : Option Stat :=
  match b.node p with
  | none => none
  | some (.file i) => some (b.file i).stat
  | some (.dir st) => some st
  | some (.symlink st _) => some st

/-- `open(2)`, following at most `fuel` links. -/
def follow (b : Backing) : Nat → RelPath → Option Handle
  | 0, _ => none
  | fuel + 1, p =>
    match b.node p with
    | none => none
    | some (.file i) => some (.file i)
    | some (.dir st) => some (.dir st)
    | some (.symlink _ target) => b.follow fuel target

/-- The kernel gives up after 40 links. -/
def openFile (b : Backing) (p : RelPath) : Option Handle := b.follow 41 p

def fstat (b : Backing) : Handle → Stat
  | .file i => (b.file i).stat
  | .dir st => st

/-- Up to `n` bytes at offset `off`; a directory cannot be read. -/
def readAt (b : Backing) (h : Handle) (off n : Nat) : Option (List UInt8) :=
  match h with
  | .file i => some (((b.file i).bytes.drop off).take n)
  | .dir _ => none

end Backing

/-- A step of another user of the backing directory. -/
inductive BackingChange where
  /-- the file's content and stat change in place: write, truncate, utimes -/
  | write (p : RelPath) (f : BFile)
  /-- a new file takes the name: create, or rename of another file onto it -/
  | replace (p : RelPath) (f : BFile)
  | remove (p : RelPath)
  | mkdir (p : RelPath) (stat : Stat)
  | symlink (p : RelPath) (stat : Stat) (target : RelPath)

namespace Backing

def setNode (b : Backing) (p : RelPath) (n : Option BNode) (h : ∀ i, n ≠ some (.file i)) :
    Backing where
  node := Function.update b.node p n
  file := b.file
  next := b.next
  past := b.past
  issued := by
    intro q i hq
    rw [Function.update_apply] at hq
    split at hq
    · exact absurd hq (h i)
    · exact b.issued q i hq
  live_past := by
    intro q i hq
    rw [Function.update_apply] at hq
    split at hq
    · exact absurd hq (h i)
    · exact b.live_past q i hq

def writeFile (b : Backing) (i : Nat) (f : BFile) : Backing where
  node := b.node
  file := Function.update b.file i f
  next := b.next
  past q := if b.node q = some (.file i) then f :: b.past q else b.past q
  issued := b.issued
  live_past := by
    intro q j hq
    by_cases hji : j = i
    · subst hji
      rw [if_pos hq, Function.update_self]
      exact List.mem_cons_self
    · rw [if_neg (by rw [hq]; simpa using hji), Function.update_of_ne hji]
      exact b.live_past q j hq

def replaceFile (b : Backing) (p : RelPath) (f : BFile) : Backing where
  node := Function.update b.node p (some (.file b.next))
  file := Function.update b.file b.next f
  next := b.next + 1
  past := Function.update b.past p (f :: b.past p)
  issued := by
    intro q i hq
    rw [Function.update_apply] at hq
    split at hq
    · obtain rfl : b.next = i := by simpa using hq
      exact Nat.lt_succ_self _
    · exact Nat.lt_succ_of_lt (b.issued q i hq)
  live_past := by
    intro q i hq
    rw [Function.update_apply] at hq
    split at hq
    · next hqp =>
      obtain rfl : b.next = i := by simpa using hq
      rw [hqp, Function.update_self, Function.update_self]
      exact List.mem_cons_self
    · next hqp =>
      rw [Function.update_of_ne hqp, Function.update_of_ne (Nat.ne_of_lt (b.issued q i hq))]
      exact b.live_past q i hq

def change (b : Backing) : BackingChange → Option Backing
  | .write p f =>
    match b.node p with
    | some (.file i) => some (b.writeFile i f)
    | _ => none
  | .replace p f => some (b.replaceFile p f)
  | .remove p => some (b.setNode p none none_ne_file)
  | .mkdir p st => some (b.setNode p (some (.dir st)) (by simp))
  | .symlink p st target => some (b.setNode p (some (.symlink st target)) (by simp))

/-- The change, where it reaches `p`, gives `p` a version it never had. -/
def FreshAt (b : Backing) (p : RelPath) : BackingChange → Prop
  | .write q f => b.node q = b.node p → ∀ g ∈ b.past p, g.version ≠ f.version
  | .replace q f => q = p → ∀ g ∈ b.past p, g.version ≠ f.version
  | _ => True

instance (b : Backing) (p : RelPath) : (c : BackingChange) → Decidable (b.FreshAt p c)
  | .write q f =>
    inferInstanceAs (Decidable (b.node q = b.node p → ∀ g ∈ b.past p, g.version ≠ f.version))
  | .replace q f => inferInstanceAs (Decidable (q = p → ∀ g ∈ b.past p, g.version ≠ f.version))
  | .remove _ => isTrue trivial
  | .mkdir _ _ => isTrue trivial
  | .symlink _ _ _ => isTrue trivial

/-- `p` has not had two contents of one version. -/
def DistinctAt (b : Backing) (p : RelPath) : Prop := ((b.past p).map BFile.version).Nodup

instance (b : Backing) (p : RelPath) : Decidable (b.DistinctAt p) :=
  inferInstanceAs (Decidable (List.Nodup _))

/-! ## Facts about live files -/

theorem live_eq_some {b : Backing} {p : RelPath} {f : BFile} :
    b.live p = some f ↔ ∃ i, b.node p = some (.file i) ∧ b.file i = f := by
  unfold live
  split
  · next i h => simp [h]
  · next h =>
    constructor
    · intro e; exact absurd e (by simp)
    · rintro ⟨i, hi, -⟩; exact absurd hi (h i)

theorem live_mem_past {b : Backing} {p : RelPath} {f : BFile} (h : b.live p = some f) :
    f ∈ b.past p := by
  obtain ⟨i, hi, rfl⟩ := live_eq_some.mp h
  exact b.live_past p i hi

theorem stat_of_live {b : Backing} {p : RelPath} {f : BFile} (h : b.live p = some f) :
    b.stat p = some f.stat := by
  obtain ⟨i, hi, rfl⟩ := live_eq_some.mp h
  simp only [stat, hi]

theorem openFile_of_node {b : Backing} {p : RelPath} {i : Nat} (h : b.node p = some (.file i)) :
    b.openFile p = some (.file i) := by
  simp only [openFile, follow, h]

/-- A path that is a file or nothing opens as its own file. -/
theorem node_of_openFile {b : Backing} {p : RelPath} {h : Handle}
    (hr : b.node p = none ∨ ∃ i, b.node p = some (.file i)) (hopen : b.openFile p = some h) :
    ∃ i, b.node p = some (.file i) ∧ h = .file i := by
  obtain hn | ⟨i, hi⟩ := hr
  · simp [openFile, follow, hn] at hopen
  · exact ⟨i, hi, Option.some.inj (hopen.symm.trans (openFile_of_node hi))⟩

/-- A version a path has had belongs to one content. -/
theorem DistinctAt.eq {b : Backing} {p : RelPath} (hd : b.DistinctAt p) {f g : BFile}
    (hf : f ∈ b.past p) (hg : g ∈ b.past p) (h : f.version = g.version) : f = g :=
  List.inj_on_of_nodup_map hd hf hg h

theorem DistinctAt.change {b b' : Backing} {p : RelPath} {c : BackingChange} (hd : b.DistinctAt p)
    (hf : b.FreshAt p c) (h : b.change c = some b') : b'.DistinctAt p := by
  have hcons : ∀ f : BFile, (∀ g ∈ b.past p, g.version ≠ f.version) →
      ((f :: b.past p).map BFile.version).Nodup := by
    intro f hfresh
    refine List.nodup_cons.mpr ⟨fun hm => ?_, hd⟩
    obtain ⟨g, hg, e⟩ := List.mem_map.mp hm
    exact hfresh g hg e
  cases c with
  | write q f =>
    simp only [Backing.change] at h
    split at h
    · next i hi =>
      obtain rfl := Option.some.inj h
      simp only [DistinctAt, writeFile]
      split
      · next hp => exact hcons f (hf (hi.trans hp.symm))
      · exact hd
    · exact absurd h (by simp)
  | replace q f =>
    obtain rfl := Option.some.inj h
    simp only [DistinctAt, replaceFile, Function.update_apply]
    split
    · next hp =>
      subst hp
      exact hcons f (hf rfl)
    · exact hd
  | remove q => obtain rfl := Option.some.inj h; exact hd
  | mkdir q st => obtain rfl := Option.some.inj h; exact hd
  | symlink q st target => obtain rfl := Option.some.inj h; exact hd

/-- Histories only grow. -/
theorem past_change {b b' : Backing} {c : BackingChange} (h : b.change c = some b')
    {q : RelPath} {f : BFile} (hf : f ∈ b.past q) : f ∈ b'.past q := by
  cases c with
  | write p g =>
    simp only [change] at h
    split at h
    · obtain rfl := Option.some.inj h
      simp only [writeFile]
      split
      · exact List.mem_cons_of_mem _ hf
      · exact hf
    · exact absurd h (by simp)
  | replace p g =>
    obtain rfl := Option.some.inj h
    simp only [replaceFile, Function.update_apply]
    split
    · next hq =>
      subst hq
      exact List.mem_cons_of_mem _ hf
    · exact hf
  | remove p => obtain rfl := Option.some.inj h; exact hf
  | mkdir p st => obtain rfl := Option.some.inj h; exact hf
  | symlink p st target => obtain rfl := Option.some.inj h; exact hf

/-- The change reaches the content or the kind of what is at `p`. -/
def Touches (b : Backing) (p : RelPath) : BackingChange → Bool
  | .write q _ => b.node q == b.node p
  | .replace q _ | .remove q | .mkdir q _ | .symlink q _ _ => q == p

/-- A change that does not reach `p` leaves what is there. -/
theorem live_of_untouched {b b' : Backing} {p : RelPath} {c : BackingChange}
    (h : b.change c = some b') (ht : b.Touches p c = false) :
    b'.node p = b.node p ∧ b'.live p = b.live p ∧ b'.past p = b.past p := by
  have other : ∀ q n (hn : ∀ i, n ≠ some (BNode.file i)), (q == p) = false →
      (b.setNode q n hn).node p = b.node p ∧ (b.setNode q n hn).live p = b.live p ∧
        (b.setNode q n hn).past p = b.past p := by
    intro q n hn hq
    have hnode : (b.setNode q n hn).node p = b.node p :=
      Function.update_of_ne (Ne.symm (by simpa using hq)) _ _
    refine ⟨hnode, ?_, rfl⟩
    unfold live
    rw [hnode]
    rfl
  cases c with
  | write q f =>
    simp only [change] at h
    split at h
    · next k hk =>
      obtain rfl := Option.some.inj h
      have hne : b.node p ≠ some (.file k) := by
        intro e
        simp [Touches, hk, e] at ht
      refine ⟨rfl, ?_, by simp [writeFile, hne]⟩
      unfold live
      simp only [writeFile]
      split
      · next i hi =>
        rw [Function.update_of_ne]
        rintro rfl
        exact hne hi
      · rfl
    · exact absurd h (by simp)
  | replace q f =>
    obtain rfl := Option.some.inj h
    have hq : p ≠ q := Ne.symm (by simpa [Touches] using ht)
    have hnode : (b.replaceFile q f).node p = b.node p := Function.update_of_ne hq _ _
    refine ⟨hnode, ?_, by simp [replaceFile, hq]⟩
    unfold live
    rw [hnode]
    split
    · next i hi => exact congrArg some (Function.update_of_ne (Nat.ne_of_lt (b.issued p i hi)) _ _)
    · rfl
  | remove q => obtain rfl := Option.some.inj h; exact other q _ _ ht
  | mkdir q st => obtain rfl := Option.some.inj h; exact other q _ _ ht
  | symlink q st target => obtain rfl := Option.some.inj h; exact other q _ _ ht

/-- What a change that makes no directory and no link at `p` leaves there. -/
theorem node_change {b b' : Backing} {p : RelPath} {c : BackingChange} (h : b.change c = some b')
    (hdir : ∀ st, c ≠ .mkdir p st) (hlink : ∀ st target, c ≠ .symlink p st target) :
    b'.node p = b.node p ∨ (∃ i, b'.node p = some (.file i)) ∨ c = .remove p ∧ b'.node p = none := by
  cases c with
  | write q f =>
    simp only [change] at h
    split at h
    · exact .inl (Option.some.inj h ▸ rfl)
    · exact absurd h (by simp)
  | replace q f =>
    obtain rfl := Option.some.inj h
    by_cases hq : p = q
    · subst hq
      exact .inr (.inl ⟨b.next, Function.update_self _ _ _⟩)
    · exact .inl (Function.update_of_ne hq _ _)
  | remove q =>
    obtain rfl := Option.some.inj h
    by_cases hq : p = q
    · subst hq
      exact .inr (.inr ⟨rfl, Function.update_self _ _ _⟩)
    · exact .inl (Function.update_of_ne hq _ _)
  | mkdir q st =>
    obtain rfl := Option.some.inj h
    have hq : p ≠ q := fun e => hdir st (e ▸ rfl)
    exact .inl (Function.update_of_ne hq _ _)
  | symlink q st target =>
    obtain rfl := Option.some.inj h
    have hq : p ≠ q := fun e => hlink st target (e ▸ rfl)
    exact .inl (Function.update_of_ne hq _ _)

/-- What a read returns continues what was read before; nothing, if that was all. -/
theorem readAt_append {b : Backing} {f : BFile} {i : Nat} {xs bs : List UInt8} {n : Nat}
    (hf : b.file i = f) (hxs : xs <+: f.bytes) (h : b.readAt (.file i) xs.length (n + 1) = some bs) :
    xs ++ bs <+: f.bytes ∧ (bs = [] → xs = f.bytes) := by
  obtain ⟨rest, hrest⟩ := hxs
  rw [readAt, hf, ← hrest, List.drop_left, Option.some.injEq] at h
  rw [← hrest, ← h]
  refine ⟨(List.prefix_append_right_inj xs).mpr (List.take_prefix (n + 1) rest), fun he => ?_⟩
  cases rest with
  | nil => simp
  | cons x rest => exact absurd he (by simp)

end Backing

end FsCache
