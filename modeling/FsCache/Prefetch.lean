import FsCache.Prediction

/- The files a prefetch collects (presets/prefetch.rs).

   `collect_recursive` goes through the directories below the parent of the accessed file, to a depth. The
   filter is for file names: it is not asked of the directories on the way. `is_dir` does not follow a
   symbolic link, so a link is an entry like a file. The tree does not change in between.

   `collectRecursive_exact`: it finds the entries that are no directory and pass the filter, each once; and to
   a depth of one the same as `collect_neighbors`.

   Given: a compiled pattern is what `is_match` says of each name.

   Correspondence (Rust ↔ Lean):
     `Prefetch`, `PrefetchMode`                 ↔ `Prefetch`, `PrefetchMode`
     `passes_filter`                            ↔ `Prefetch.passesFilter`
     `collect_neighbors`, `collect_recursive`   ↔ `collectNeighbors`, `collectRecursive`
     `gather_files`, without the `CacheAction`  ↔ `gatherFiles` -/

namespace FsCache
open Lib

inductive PrefetchMode where
  | cacheHitOnly
  | cacheNeighbors
  | cacheParentRecursively
  deriving DecidableEq

structure Prefetch where
  mode : PrefetchMode
  maxDepth : Nat
  whitelist : List (List Nat → Bool)
  blacklist : List (List Nat → Bool)

/-- A non-empty whitelist is authoritative; otherwise blacklist excludes matches. -/
def Prefetch.passesFilter (preset : Prefetch) (filename : List Nat) : Bool :=
  if !preset.whitelist.isEmpty then preset.whitelist.any fun r => r filename
  else !preset.blacklist.any fun r => r filename

section Collect

variable (preset : Prefetch) (t : BackingTree)

def collectNeighbors (path : RelPath) : List RelPath :=
  (t.listDir path.dropLast).filterMap fun name =>
    if !preset.passesFilter name.text then none
    else if t.isDir (path.dropLast ++ [name]) then none
    else some (path.dropLast ++ [name])

def collectRecursive (dir : RelPath) : Nat → List RelPath
  | 0 => []
  | depth + 1 =>
    (t.listDir dir).flatMap fun name =>
      if t.isDir (dir ++ [name]) then collectRecursive (dir ++ [name]) depth
      else if preset.passesFilter name.text then [dir ++ [name]] else []

def gatherFiles (path : RelPath) : List RelPath :=
  match preset.mode with
  | .cacheHitOnly => [path]
  | .cacheNeighbors => collectNeighbors preset t path
  | .cacheParentRecursively => collectRecursive preset t path.dropLast preset.maxDepth

/-- The entries at a depth below `dir`. -/
inductive EntryAt (dir : RelPath) : Nat → RelPath → Prop
  | child {name : Name} (h : name ∈ t.listDir dir) : EntryAt dir 1 (dir ++ [name])
  | inside {depth : Nat} {d : RelPath} {name : Name} (hd : EntryAt dir depth d) (hdir : t.isDir d = true)
      (h : name ∈ t.listDir d) : EntryAt dir (depth + 1) (d ++ [name])

/-- What is to be collected: no directory, and of a name that passes. -/
def Wanted (p : RelPath) : Prop :=
  t.isDir p = false ∧ ∃ name, p.getLast? = some name ∧ preset.passesFilter name.text = true

end Collect

section Exact

variable {preset : Prefetch} {t : BackingTree} {dir p : RelPath} {depth : Nat} {name : Name}

theorem EntryAt.pos (h : EntryAt t dir depth p) : 0 < depth := by
  cases h with
  | child => omega
  | inside => omega

/-- Below a directory in `dir` everything is one deeper. -/
theorem EntryAt.up (hname : name ∈ t.listDir dir) (hdir : t.isDir (dir ++ [name]) = true)
    (h : EntryAt t (dir ++ [name]) depth p) : EntryAt t dir (depth + 1) p := by
  induction h with
  | child h => exact .inside (.child hname) hdir h
  | inside _ hd h ih => exact .inside ih hd h

/-- An entry is in `dir`, or below one of the directories there. -/
theorem entryAt_iff : EntryAt t dir (depth + 1) p ↔ ∃ name ∈ t.listDir dir,
    (depth = 0 ∧ p = dir ++ [name]) ∨ (t.isDir (dir ++ [name]) = true ∧ EntryAt t (dir ++ [name]) depth p) := by
  constructor
  · intro h
    generalize hn : depth + 1 = n at h
    induction h generalizing depth with
    | @child name h =>
      refine ⟨name, h, .inl ⟨by omega, rfl⟩⟩
    | @inside n d last hd hdir hlast ih =>
      obtain rfl : depth = n := by omega
      obtain ⟨k, rfl⟩ : ∃ k, depth = k + 1 := ⟨depth - 1, by have := hd.pos; omega⟩
      obtain ⟨name, hname, hcase⟩ := ih rfl
      refine ⟨name, hname, .inr ?_⟩
      cases hcase with
      | inl hchild =>
        obtain ⟨rfl, rfl⟩ := hchild
        exact ⟨hdir, .child hlast⟩
      | inr hbelow => exact ⟨hbelow.1, .inside hbelow.2 hdir hlast⟩
  · intro ⟨name, hname, hcase⟩
    cases hcase with
    | inl hchild =>
      obtain ⟨rfl, rfl⟩ := hchild
      exact .child hname
    | inr hbelow => exact hbelow.2.up hname hbelow.1

theorem wanted_child : Wanted preset t (dir ++ [name]) ↔
    t.isDir (dir ++ [name]) = false ∧ preset.passesFilter name.text = true := by
  rw [Wanted, List.getLast?_concat]
  simp only [Option.some.injEq, exists_eq_left']

/-- One level of the recursion. -/
theorem mem_collectRecursive_succ : p ∈ collectRecursive preset t dir (depth + 1) ↔
    ∃ name ∈ t.listDir dir, (Wanted preset t (dir ++ [name]) ∧ p = dir ++ [name]) ∨
      (t.isDir (dir ++ [name]) = true ∧ p ∈ collectRecursive preset t (dir ++ [name]) depth) := by
  rw [collectRecursive, List.mem_flatMap]
  refine exists_congr fun name => and_congr_right fun _ => ?_
  rw [wanted_child]
  cases hdir : t.isDir (dir ++ [name]) with
  | true => simp
  | false => cases hpass : preset.passesFilter name.text <;> simp

theorem mem_collectRecursive : p ∈ collectRecursive preset t dir depth ↔
    ∃ n, 1 ≤ n ∧ n ≤ depth ∧ EntryAt t dir n p ∧ Wanted preset t p := by
  induction depth generalizing dir with
  | zero =>
    refine iff_of_false List.not_mem_nil ?_
    intro ⟨n, hpos, hle, _⟩
    omega
  | succ depth ih =>
    rw [mem_collectRecursive_succ]
    constructor
    · intro ⟨name, hname, hcase⟩
      cases hcase with
      | inl hchild =>
        obtain ⟨hwanted, rfl⟩ := hchild
        exact ⟨1, le_refl 1, by omega, .child hname, hwanted⟩
      | inr hbelow =>
        obtain ⟨n, -, hle, hentry, hwanted⟩ := ih.mp hbelow.2
        exact ⟨n + 1, by omega, by omega, hentry.up hname hbelow.1, hwanted⟩
    · intro ⟨n, hpos, hle, hentry, hwanted⟩
      obtain ⟨k, rfl⟩ : ∃ k, n = k + 1 := ⟨n - 1, by omega⟩
      obtain ⟨name, hname, hcase⟩ := entryAt_iff.mp hentry
      refine ⟨name, hname, ?_⟩
      cases hcase with
      | inl hchild =>
        obtain ⟨-, rfl⟩ := hchild
        exact .inl ⟨hwanted, rfl⟩
      | inr hbelow => exact .inr ⟨hbelow.1, ih.mpr ⟨k, hbelow.2.pos, by omega, hbelow.2, hwanted⟩⟩

/-- All that is found below a directory has its path in front. -/
theorem prefix_of_mem (h : p ∈ collectRecursive preset t dir depth) : dir <+: p := by
  obtain ⟨n, -, -, hentry, -⟩ := mem_collectRecursive.mp h
  clear h
  induction hentry with
  | child _ => exact List.prefix_append dir _
  | inside _ _ _ ih => exact ih.trans (List.prefix_append _ _)

theorem nodup_collectRecursive (preset : Prefetch) (t : BackingTree) (dir : RelPath) (depth : Nat) :
    (collectRecursive preset t dir depth).Nodup := by
  induction depth generalizing dir with
  | zero => exact List.nodup_nil
  | succ depth ih =>
    rw [collectRecursive, List.nodup_flatMap]
    constructor
    · intro name _
      split
      · exact ih (dir ++ [name])
      · split
        · exact List.nodup_singleton _
        · exact List.nodup_nil
    · refine (t.nodup dir).imp fun {name name'} hne => ?_
      have hfront : ∀ name p, p ∈ (if t.isDir (dir ++ [name]) then collectRecursive preset t (dir ++ [name]) depth
          else if preset.passesFilter name.text then [dir ++ [name]] else []) → dir ++ [name] <+: p := by
        intro name p hp
        split at hp
        · exact prefix_of_mem hp
        · split at hp
          · rw [List.mem_singleton.mp hp]
          · cases hp
      intro p hp hp'
      -- paths of one length in front of the same path are one path
      have hsame := List.prefix_of_prefix_length_le (hfront name p hp) (hfront name' p hp') (by simp)
      exact hne (List.singleton_inj.mp (List.append_cancel_left (hsame.eq_of_length (by simp))))

theorem mem_collectNeighbors {path : RelPath} : p ∈ collectNeighbors preset t path ↔
    ∃ name ∈ t.listDir path.dropLast, Wanted preset t (path.dropLast ++ [name]) ∧ p = path.dropLast ++ [name] := by
  rw [collectNeighbors, List.mem_filterMap]
  refine exists_congr fun name => and_congr_right fun _ => ?_
  rw [wanted_child]
  cases t.isDir (path.dropLast ++ [name]) <;> cases preset.passesFilter name.text <;> simp [eq_comm]

/-- The recursive collection of the parent finds what is wanted there to the depth, each once, and to a depth of
one the neighbors. -/
theorem collectRecursive_exact (preset : Prefetch) (t : BackingTree) (path : RelPath) (maxDepth : Nat) :
    (collectRecursive preset t path.dropLast maxDepth).Nodup ∧
    (∀ p, p ∈ collectRecursive preset t path.dropLast maxDepth ↔
      ∃ n, 1 ≤ n ∧ n ≤ maxDepth ∧ EntryAt t path.dropLast n p ∧ Wanted preset t p) ∧
    ∀ p, p ∈ collectRecursive preset t path.dropLast 1 ↔ p ∈ collectNeighbors preset t path := by
  refine ⟨nodup_collectRecursive preset t _ maxDepth, fun p => mem_collectRecursive, fun p => ?_⟩
  rw [mem_collectNeighbors, mem_collectRecursive_succ]
  refine exists_congr fun name => and_congr_right fun _ => or_iff_left ?_
  intro hbelow
  cases hbelow.2

/-- But for the accessed file itself, nothing is gathered that is not wanted. -/
theorem gathered {path : RelPath} (h : p ∈ gatherFiles preset t path) :
    (preset.mode = .cacheHitOnly ∧ p = path) ∨ Wanted preset t p := by
  rw [gatherFiles] at h
  split at h
  · next hmode => exact .inl ⟨hmode, List.mem_singleton.mp h⟩
  · obtain ⟨name, -, hwanted, rfl⟩ := mem_collectNeighbors.mp h
    exact .inr hwanted
  · obtain ⟨n, -, -, -, hwanted⟩ := mem_collectRecursive.mp h
    exact .inr hwanted

end Exact

end FsCache
