import FsCache.MakeRoom

/- One eviction pass, alone (`evict_if_needed`, `evict_to_fit` in cache/manager.rs).

   `Caches` is the table and the cache directories of all mounts. A pass is of one mount, and
   some files refuse to be deleted (`fails`); a row without a file is such a one, too. The
   loops are the source's: one counts what is left, the other what has been freed.

   A loop comes to one thing: it drops an initial part of the rows whose files can be deleted
   (`shrink_eq`, `freeUp_eq`). From that:
     1. `evictIfNeeded_post`: what `evict_if_needed` leaves of every row and every file.
     2. `evictToFit_post`: the same of `evict_to_fit`, which returns what the total has lost;
        and with nothing pending it is the size phase of the other.
     3. `ifNeeded_run`, `toFit_run`: both are what the single steps of a thread come to.

   Given: the keys of the table are those of paths, and the recorded sizes are not negative
   and have a sum that SQLite can form (below 2^63).

   Correspondence (Rust ↔ Lean):
     `remove_file`, then `db.remove`  ↔ `Caches.evict`
     `evict_if_needed`                ↔ `Caches.expiryPhase`, `Caches.sizePhase`
     `evict_to_fit`                   ↔ `Caches.evictToFit` -/

namespace FsCache
open Lib Evictors

/-- The table, and the cache directory of every mount. -/
structure Caches where
  db : CacheDb
  dirs : MountId → CacheDir

namespace Caches

variable (cfg : EvictConfig) (mount : MountId) (fails : RelPath → Bool) (now : Nat)

/-- Delete the file, and if that succeeds the row. -/
def evict (s : Caches) (relPath : RelPath) : Option Caches :=
  (tryRemove (s.dirs mount) relPath (!fails relPath)).map fun dir =>
    ⟨s.db.remove relPath mount, Function.update s.dirs mount dir⟩

/-- The loop over the expired files. -/
def expire : List (RelPath × Nat) → Caches → Caches
  | [], s => s
  | (relPath, _) :: rest, s =>
    match s.evict mount fails relPath with
    | none => expire rest s
    | some s => expire rest s

/-- The loop over the candidates that keeps what is left. -/
def shrink : Nat → List (RelPath × Nat) → Caches → Caches
  | _, [], s => s
  | globalTotal, (relPath, size) :: rest, s =>
    if globalTotal ≤ cfg.maxSizeBytes then s
    else
      match s.evict mount fails relPath with
      | none => shrink globalTotal rest s
      | some s => shrink (globalTotal - size) rest s

/-- The loop over the candidates that keeps what has been freed. -/
def freeUp (needToFree : Nat) : Nat → List (RelPath × Nat) → Caches → Caches × Nat
  | freed, [], s => (s, freed)
  | freed, (relPath, size) :: rest, s =>
    if needToFree ≤ freed then (s, freed)
    else
      match s.evict mount fails relPath with
      | none => freeUp needToFree freed rest s
      | some s => freeUp needToFree (freed + size) rest s

def expiryPhase (s : Caches) : Caches :=
  if cfg.expirySecs mount = 0 then s
  else expire mount fails (expiredFiles s.db mount (cfg.expirySecs mount) now) s

def sizePhase (s : Caches) : Caches :=
  if cfg.maxSizeBytes < s.db.totalCachedBytesGlobal then
    shrink cfg mount fails s.db.totalCachedBytesGlobal (evictionCandidates s.db mount) s
  else s

def evictIfNeeded (s : Caches) : Caches := (s.expiryPhase cfg mount fails now).sizePhase cfg mount fails

/-- The caches after it, and the bytes it has freed. -/
def evictToFit (pendingBytes : Nat) (s : Caches) : Caches × Nat :=
  let globalTotal := s.db.totalCachedBytesGlobal
  let target := cfg.maxSizeBytes - pendingBytes
  if globalTotal ≤ target then (s, 0)
  else freeUp mount fails (globalTotal - target) 0 (evictionCandidates s.db mount) s

/-! ## What a loop comes to -/

variable {cfg mount fails now}

/-- The file is there, and does not refuse. -/
def deletable (mount : MountId) (fails : RelPath → Bool) (s : Caches) (relPath : RelPath) : Bool :=
  ((s.dirs mount).fileAt relPath).isSome && !fails relPath

theorem isSome_of_deletable {s : Caches} {p : RelPath} (h : s.deletable mount fails p = true) :
    ((s.dirs mount).fileAt p).isSome = true := by
  rw [deletable, Bool.and_eq_true] at h
  exact h.1

/-- Some files and their rows less. -/
def drop (mount : MountId) (s : Caches) (l : List (RelPath × Nat)) : Caches where
  db := l.foldl (fun db e => db.remove e.1 mount) s.db
  dirs := Function.update s.dirs mount ((l.map Prod.fst).foldl removeFile (s.dirs mount))

variable {s : Caches} {p : RelPath} {l : List (RelPath × Nat)}

@[simp] theorem drop_nil : s.drop mount [] = s := by
  rw [drop, List.map_nil, List.foldl_nil, List.foldl_nil, Function.update_eq_self]

theorem dirs_drop_self (s : Caches) (l : List (RelPath × Nat)) :
    (s.drop mount l).dirs mount = (l.map Prod.fst).foldl removeFile (s.dirs mount) :=
  Function.update_self ..

theorem dirs_drop_of_ne {m : MountId} (h : m ≠ mount) (s : Caches) (l : List (RelPath × Nat)) :
    (s.drop mount l).dirs m = s.dirs m :=
  Function.update_of_ne h ..

theorem drop_cons (e : RelPath × Nat) : s.drop mount (e :: l) = (s.drop mount [e]).drop mount l := by
  simp only [drop, List.map_cons, List.map_nil, List.foldl_cons, List.foldl_nil, Function.update_self,
    Function.update_idem]

theorem evict_eq (s : Caches) (e : RelPath × Nat) :
    s.evict mount fails e.1 =
      if s.deletable mount fails e.1 then some (s.drop mount [e]) else none := by
  rw [evict, deletable, tryRemove, drop]
  cases hf : fails e.1 with
  | true => simp
  | false =>
    cases hr : (s.dirs mount).remove e.1 with
    | none =>
      have hnone : (s.dirs mount).fileAt e.1 = none := by
        unfold Files.remove at hr
        split at hr
        · assumption
        · cases hr
      simp [hnone]
    | some dir =>
      have hsome : ((s.dirs mount).fileAt e.1).isSome = true := by
        obtain ⟨i, hi⟩ := (fileAt_of_tryRemove (show tryRemove (s.dirs mount) e.1 true = some dir from hr)).1
        rw [hi]
        rfl
      simp [hr, hsome, removeFile]

theorem fileAt_drop (s : Caches) (l : List (RelPath × Nat)) (q : RelPath) :
    ((s.drop mount l).dirs mount).fileAt q =
      if q ∈ l.map Prod.fst then none else (s.dirs mount).fileAt q := by
  rw [dirs_drop_self]
  exact (foldl_removeFile (l.map Prod.fst) (s.dirs mount)).2.2 q

/-- The other files of the list are as they were. -/
theorem filter_deletable_drop {e : RelPath × Nat} (h : e.1 ∉ l.map Prod.fst) :
    (l.filter fun e' => (s.drop mount [e]).deletable mount fails e'.1) =
      l.filter fun e' => s.deletable mount fails e'.1 := by
  refine List.filter_congr fun e' he' => ?_
  rw [deletable, deletable, fileAt_drop, if_neg]
  intro hmem
  rw [List.map_singleton, List.mem_singleton] at hmem
  exact h (hmem ▸ List.mem_map_of_mem he')

theorem expire_eq (h : (l.map Prod.fst).Nodup) :
    expire mount fails l s = s.drop mount (l.filter fun e => s.deletable mount fails e.1) := by
  induction l generalizing s with
  | nil => exact drop_nil.symm
  | cons e rest ih =>
    rw [List.map_cons, List.nodup_cons] at h
    rw [expire, evict_eq, List.filter_cons]
    by_cases hd : s.deletable mount fails e.1 = true
    · rw [if_pos hd, if_pos hd]
      refine (ih h.2).trans ?_
      rw [filter_deletable_drop h.1]
      exact (drop_cons e).symm
    · rw [if_neg hd, if_neg hd]
      exact ih h.2

theorem freeUp_eq (need freed : Nat) (h : (l.map Prod.fst).Nodup) :
    freeUp mount fails need freed l s =
      (s.drop mount (deletedToFit need freed (l.filter fun e => s.deletable mount fails e.1)),
        freed + bytesOf (deletedToFit need freed (l.filter fun e => s.deletable mount fails e.1))) := by
  induction l generalizing s freed with
  | nil => rw [List.filter_nil, deletedToFit, drop_nil]; rfl
  | cons e rest ih =>
    rw [List.map_cons, List.nodup_cons] at h
    rw [freeUp, evict_eq, List.filter_cons]
    by_cases hmet : need ≤ freed
    · rw [if_pos hmet, deletedToFit_of_le hmet, drop_nil]
      rfl
    · rw [if_neg hmet]
      by_cases hd : s.deletable mount fails e.1 = true
      · rw [if_pos hd, if_pos hd, deletedToFit, if_neg hmet, bytesOf_cons, ← Nat.add_assoc]
        refine (ih (freed + e.2) h.2).trans ?_
        rw [filter_deletable_drop h.1, ← drop_cons e]
      · rw [if_neg hd, if_neg hd]
        exact ih freed h.2

/-- What is left of the total tells as much as what has been freed. -/
theorem shrink_eq (total freed : Nat) (h : (l.map Prod.fst).Nodup) :
    shrink cfg mount fails (total - freed) l s =
      s.drop mount (deletedToFit (total - cfg.maxSizeBytes) freed
        (l.filter fun e => s.deletable mount fails e.1)) := by
  induction l generalizing s freed with
  | nil => rw [List.filter_nil, deletedToFit, drop_nil]; rfl
  | cons e rest ih =>
    rw [List.map_cons, List.nodup_cons] at h
    rw [shrink, evict_eq, List.filter_cons]
    by_cases hmet : total - cfg.maxSizeBytes ≤ freed
    · rw [if_pos (by omega), deletedToFit_of_le hmet, drop_nil]
    · rw [if_neg (by omega)]
      by_cases hd : s.deletable mount fails e.1 = true
      · rw [if_pos hd, if_pos hd, deletedToFit, if_neg hmet]
        simp only [Nat.sub_sub]
        refine (ih (freed + e.2) h.2).trans ?_
        rw [filter_deletable_drop h.1]
        exact (drop_cons e).symm
      · rw [if_neg hd, if_neg hd]
        exact ih freed h.2

/-! ## Rows and files after it -/

/-- What a loop goes over: rows of the mount, each once. -/
structure Tracked (db : CacheDb) (mount : MountId) (l : List (RelPath × Nat)) : Prop where
  nodup : (l.map Prod.fst).Nodup
  rows : ∀ e ∈ l, Canonical e.1 ∧ HasRow db mount e

theorem Tracked.sublist {db : CacheDb} {l' : List (RelPath × Nat)} (h : Tracked db mount l)
    (hl : List.Sublist l' l) : Tracked db mount l' :=
  ⟨h.nodup.sublist (hl.map Prod.fst), fun e he => h.rows e (hl.subset he)⟩

theorem tracked_candidates {db : CacheDb} (hk : Keyed db) (mount : MountId) :
    Tracked db mount (evictionCandidates db mount) :=
  ⟨nodup_candidates hk, fun _ he => hasRow_of_candidate hk he⟩

theorem tracked_expired {db : CacheDb} (hk : Keyed db) (mount : MountId) (expirySecs now : Nat) :
    Tracked db mount (expiredFiles db mount expirySecs now) := by
  refine ⟨?_, fun _ he => hasRow_of_expired hk he⟩
  -- the expired files are some of the candidates
  have hperm : (evictionCandidates db mount).Perm
      ((db.cacheFiles.entries.filter fun e => e.1.2 = mount).map
        fun e => (pathOfKey e.1.1, e.2.sizeBytes.toNat)) :=
    (List.perm_insertionSort _ _).map _
  have hall := (hperm.map Prod.fst).nodup_iff.mp (nodup_candidates hk)
  refine hall.sublist (List.Sublist.map _ (List.Sublist.map _ ?_))
  have hsub : (db.cacheFiles.entries.filter fun e => e.1.2 = mount ∧ e.2.expired expirySecs now) =
      (db.cacheFiles.entries.filter fun e => e.1.2 = mount).filter fun e => e.2.expired expirySecs now := by
    rw [List.filter_filter]
    refine List.filter_congr fun e _ => ?_
    rw [Bool.decide_and, Bool.decide_eq_true, Bool.and_comm]
  rw [hsub]
  exact List.filter_sublist

theorem lookup_drop (s : Caches) (l : List (RelPath × Nat)) (key : RowKey) (m : MountId) :
    (s.drop mount l).db.cacheFiles.lookup (key, m) =
      if m = mount ∧ ∃ e ∈ l, rowKey e.1 = key then none else s.db.cacheFiles.lookup (key, m) := by
  induction l generalizing s with
  | nil => rw [drop_nil, if_neg (by simp)]
  | cons e l ih =>
    rw [drop_cons, ih]
    have hone : (s.drop mount [e]).db.cacheFiles.lookup (key, m) =
        if (key, m) = (rowKey e.1, mount) then none else s.db.cacheFiles.lookup (key, m) :=
      Map.lookup_erase_if _ _ _
    rw [hone]
    simp only [List.exists_mem_cons_iff, Prod.mk.injEq]
    by_cases hm : m = mount
    · by_cases hkey : key = rowKey e.1
      · simp [hm, hkey]
      · simp only [hm, hkey, Ne.symm hkey, true_and, false_and, if_false, false_or]
    · simp [hm]

theorem row_drop (hl : Tracked s.db mount l) (hp : Canonical p) :
    (s.drop mount l).db.row p mount = if p ∈ l.map Prod.fst then none else s.db.row p mount := by
  rw [CacheDb.row, lookup_drop, CacheDb.row]
  refine if_congr ?_ rfl rfl
  constructor
  · intro h
    obtain ⟨-, e, he, hkey⟩ := h
    exact List.mem_map.mpr ⟨e, he, (hl.rows e he).1.inj hp hkey⟩
  · intro h
    obtain ⟨e, he, rfl⟩ := List.mem_map.mp h
    exact ⟨rfl, e, he, rfl⟩

/-- A row that is left was there. -/
theorem lookup_of_drop {l : List (RelPath × Nat)} {key : RowKey × MountId} {row : Row}
    (h : (s.drop mount l).db.cacheFiles.lookup key = some row) : s.db.cacheFiles.lookup key = some row := by
  obtain ⟨k, m⟩ := key
  rw [lookup_drop] at h
  split at h
  · cases h
  · exact h

theorem sized_drop (h : s.db.Sized) (l : List (RelPath × Nat)) : (s.drop mount l).db.Sized :=
  fun key row hrow => h key row (lookup_of_drop hrow)

theorem keyed_drop (h : Keyed s.db) (l : List (RelPath × Nat)) : Keyed (s.drop mount l).db :=
  fun key row hrow => h key row (lookup_of_drop hrow)

theorem Tracked.drop_head {e : RelPath × Nat} (hl : Tracked s.db mount (e :: l)) :
    Tracked (s.drop mount [e]).db mount l := by
  have hnodup := hl.nodup
  rw [List.map_cons, List.nodup_cons] at hnodup
  refine ⟨hnodup.2, fun e' he' => ?_⟩
  obtain ⟨hc, hr⟩ := hl.rows e' (List.mem_cons_of_mem e he')
  refine ⟨hc, hr.remove hc (hl.rows e List.mem_cons_self).1 fun h => hnodup.1 ?_⟩
  exact h.1 ▸ List.mem_map_of_mem he'

/-- The total loses what the rows had recorded. -/
theorem total_drop (hs : s.db.Sized) (hl : Tracked s.db mount l) :
    s.db.totalCachedBytesGlobal = bytesOf l + (s.drop mount l).db.totalCachedBytesGlobal := by
  induction l generalizing s with
  | nil => rw [drop_nil, bytesOf_nil, Nat.zero_add]
  | cons e l ih =>
    have hone := global_remove hs (p := e.1) (n := e.2) (hl.rows e List.mem_cons_self).2
    have htail := ih (sized_drop hs [e]) hl.drop_head
    rw [drop_cons, bytesOf_cons]
    show s.db.totalCachedBytesGlobal = _
    rw [hone, show s.db.remove e.1 mount = (s.drop mount [e]).db from rfl, htail]
    omega

/-- What a pass leaves of the rows and files: another mount's as they are, and of its own it
takes the row exactly where it takes the file. -/
structure Evicted (mount : MountId) (s s' : Caches) : Prop where
  otherRows : ∀ key m, m ≠ mount → s'.db.cacheFiles.lookup (key, m) = s.db.cacheFiles.lookup (key, m)
  otherFiles : ∀ m, m ≠ mount → s'.dirs m = s.dirs m
  rows : ∀ p, s'.db.row p mount = none ∨ s'.db.row p mount = s.db.row p mount
  files : ∀ p, (s'.dirs mount).fileAt p = none ∨
    (s'.dirs mount).fileAt p = (s.dirs mount).fileAt p
  data : (s'.dirs mount).data = (s.dirs mount).data
  removed_iff : ∀ p, Canonical p →
    ((s.db.row p mount).isSome ∧ s'.db.row p mount = none ↔
      ((s.dirs mount).fileAt p).isSome ∧ (s'.dirs mount).fileAt p = none)
  canonical : ∀ p, ((s.dirs mount).fileAt p).isSome → (s'.dirs mount).fileAt p = none → Canonical p

theorem evicted_drop (hl : Tracked s.db mount l)
    (hfile : ∀ e ∈ l, ((s.dirs mount).fileAt e.1).isSome = true) : Evicted mount s (s.drop mount l) where
  otherRows key m hm := by rw [lookup_drop, if_neg fun h => hm h.1]
  otherFiles m hm := dirs_drop_of_ne hm s l
  rows p := by
    rw [CacheDb.row, lookup_drop, CacheDb.row]
    split
    · exact .inl rfl
    · exact .inr rfl
  files p := by
    rw [fileAt_drop]
    split
    · exact .inl rfl
    · exact .inr rfl
  data := by
    rw [dirs_drop_self]
    exact (foldl_removeFile _ _).1
  removed_iff p hp := by
    rw [row_drop hl hp, fileAt_drop]
    by_cases hmem : p ∈ l.map Prod.fst
    · obtain ⟨e, he, rfl⟩ := List.mem_map.mp hmem
      obtain ⟨row, hrow, -⟩ := (hl.rows e he).2
      rw [if_pos hmem, if_pos hmem, hrow]
      exact iff_of_true ⟨rfl, rfl⟩ ⟨hfile e he, rfl⟩
    · rw [if_neg hmem, if_neg hmem]
      refine iff_of_false (fun h => ?_) fun h => ?_
      · rw [h.2] at h
        exact Bool.noConfusion h.1
      · rw [h.2] at h
        exact Bool.noConfusion h.1
  canonical p hp hgone := by
    rw [fileAt_drop] at hgone
    split at hgone
    · next hmem =>
      obtain ⟨e, he, rfl⟩ := List.mem_map.mp hmem
      exact (hl.rows e he).1
    · rw [hgone] at hp
      exact Bool.noConfusion hp

theorem Evicted.refl (s : Caches) : Evicted mount s s := by
  have hnone : Evicted mount s (s.drop mount []) :=
    evicted_drop ⟨by simp, fun _ he => absurd he List.not_mem_nil⟩ fun _ he => absurd he List.not_mem_nil
  rwa [drop_nil] at hnone

theorem Evicted.trans {s₁ s₂ : Caches} (h : Evicted mount s s₁) (h' : Evicted mount s₁ s₂) :
    Evicted mount s s₂ where
  otherRows key m hm := (h'.otherRows key m hm).trans (h.otherRows key m hm)
  otherFiles m hm := (h'.otherFiles m hm).trans (h.otherFiles m hm)
  rows p := by
    rcases h'.rows p with hgone | hsame
    · exact .inl hgone
    · rw [hsame]
      exact h.rows p
  files p := by
    rcases h'.files p with hgone | hsame
    · exact .inl hgone
    · rw [hsame]
      exact h.files p
  data := h'.data.trans h.data
  removed_iff p hp := by
    constructor
    · intro hrow
      obtain ⟨hsome, hnone⟩ := hrow
      cases hmid : s₁.db.row p mount with
      | none =>
        obtain ⟨hfile, hgone⟩ := (h.removed_iff p hp).mp ⟨hsome, hmid⟩
        exact ⟨hfile, (h'.files p).elim id fun hsame => hsame.trans hgone⟩
      | some row =>
        obtain ⟨hfile, hgone⟩ := (h'.removed_iff p hp).mp ⟨by rw [hmid]; rfl, hnone⟩
        refine ⟨?_, hgone⟩
        rcases h.files p with hfirst | hsame
        · rw [hfirst] at hfile
          exact Bool.noConfusion hfile
        · exact hsame ▸ hfile
    · intro hfile
      obtain ⟨hsome, hnone⟩ := hfile
      cases hmid : (s₁.dirs mount).fileAt p with
      | none =>
        obtain ⟨hrow, hgone⟩ := (h.removed_iff p hp).mpr ⟨hsome, hmid⟩
        exact ⟨hrow, (h'.rows p).elim id fun hsame => hsame.trans hgone⟩
      | some i =>
        obtain ⟨hrow, hgone⟩ := (h'.removed_iff p hp).mpr ⟨by rw [hmid]; rfl, hnone⟩
        refine ⟨?_, hgone⟩
        rcases h.rows p with hfirst | hsame
        · rw [hfirst] at hrow
          exact Bool.noConfusion hrow
        · exact hsame ▸ hrow
  canonical p hp hgone := by
    rcases h.files p with hfirst | hsame
    · exact h.canonical p hp hfirst
    · exact h'.canonical p (hsame.symm ▸ hp) hgone

/-! ## The order -/

/-- The rows of the mount, the one that was hit longest ago first. -/
structure Lru (db : CacheDb) (mount : MountId) (l : List (RelPath × Nat)) : Prop extends
    Tracked db mount l where
  all : ∀ e, Canonical e.1 → HasRow db mount e → e ∈ l
  oldestFirst : l.Pairwise fun e e' => ∀ row row', db.row e.1 mount = some row →
    db.row e'.1 mount = some row' → row.lastHitAt ≤ row'.lastHitAt

/-- The row of the path of an entry is the entry's. -/
theorem row_of_entry {db : CacheDb} (hk : Keyed db) {x : Sigma fun _ : RowKey × MountId => Row}
    (hx : x ∈ db.cacheFiles.entries) (hm : x.1.2 = mount) :
    db.row (pathOfKey x.1.1) mount = some x.2 := by
  have hlookup : db.cacheFiles.lookup x.1 = some x.2 := AList.mem_lookup_iff.mpr hx
  obtain ⟨q, hq⟩ := hk x.1 x.2 hlookup
  rw [CacheDb.row, show rowKey (pathOfKey x.1.1) = x.1.1 by rw [hq, rowKey_pathOfKey_rowKey], ← hm]
  exact hlookup

theorem lru_candidates {db : CacheDb} (hk : Keyed db) (mount : MountId) :
    Lru db mount (evictionCandidates db mount) where
  toTracked := tracked_candidates hk mount
  all e hcanonical hrow := by
    obtain ⟨row, hrow, hsize⟩ := hrow
    have hentry : ⟨(rowKey e.1, mount), row⟩ ∈ db.cacheFiles.entries := AList.mem_lookup_iff.mp hrow
    refine List.mem_map.mpr ⟨_, (List.mem_insertionSort _).mpr
      (List.mem_filter.mpr ⟨hentry, decide_eq_true rfl⟩), ?_⟩
    exact Prod.ext hcanonical hsize
  oldestFirst := by
    rw [evictionCandidates, List.pairwise_map]
    have hsorted := List.pairwise_insertionSort
      (fun e e' : Sigma fun _ : RowKey × MountId => Row => e.2.lastHitAt ≤ e'.2.lastHitAt)
      (db.cacheFiles.entries.filter fun e => e.1.2 = mount)
    refine hsorted.imp_of_mem fun {x y} hx hy hle row row' hrow hrow' => ?_
    obtain ⟨hx, hmx⟩ := List.mem_filter.mp ((List.mem_insertionSort _).mp hx)
    obtain ⟨hy, hmy⟩ := List.mem_filter.mp ((List.mem_insertionSort _).mp hy)
    rw [row_of_entry hk hx (of_decide_eq_true hmx)] at hrow
    rw [row_of_entry hk hy (of_decide_eq_true hmy)] at hrow'
    exact Option.some.inj hrow ▸ Option.some.inj hrow' ▸ hle

theorem mem_expiredFiles_iff {db : CacheDb} (hk : Keyed db) {expirySecs : Nat} (hp : Canonical p) :
    p ∈ (expiredFiles db mount expirySecs now).map Prod.fst ↔
      ∃ row, db.row p mount = some row ∧ row.expired expirySecs now = true := by
  constructor
  · intro hmem
    obtain ⟨e, he, rfl⟩ := List.mem_map.mp hmem
    obtain ⟨x, hx, rfl⟩ := List.mem_map.mp he
    obtain ⟨hx, hm⟩ := List.mem_filter.mp hx
    obtain ⟨hm, hexpired⟩ := of_decide_eq_true hm
    exact ⟨x.2, row_of_entry hk hx hm, hexpired⟩
  · intro hrow
    obtain ⟨row, hrow, hexpired⟩ := hrow
    have hentry : ⟨(rowKey p, mount), row⟩ ∈ db.cacheFiles.entries := AList.mem_lookup_iff.mp hrow
    refine List.mem_map.mpr ⟨(p, row.sizeBytes.toNat), List.mem_map.mpr
      ⟨_, List.mem_filter.mpr ⟨hentry, decide_eq_true ⟨rfl, hexpired⟩⟩, ?_⟩, rfl⟩
    exact Prod.ext hp rfl

/-! ## What a pass leaves -/

/-- The expired files of the mount are deleted, all that can be, and nothing else is. -/
structure Expired (cfg : EvictConfig) (mount : MountId) (fails : RelPath → Bool) (now : Nat)
    (s s' : Caches) : Prop extends Evicted mount s s' where
  gone_iff : ∀ p row, Canonical p → s.db.row p mount = some row →
    (s'.db.row p mount = none ↔
      cfg.expirySecs mount ≠ 0 ∧ row.expired (cfg.expirySecs mount) now = true ∧
        s.deletable mount fails p = true)

/-- Of `l`, the oldest that can be deleted are, as few as bring the total down to the target, or
all. -/
structure Fitted (mount : MountId) (fails : RelPath → Bool) (target : Nat) (s s' : Caches)
    (l removed : List (RelPath × Nat)) : Prop extends Evicted mount s s' where
  lru : Lru s.db mount l
  initial : removed <+: l.filter fun e => s.deletable mount fails e.1
  dropped : s' = s.drop mount removed
  enough : s'.db.totalCachedBytesGlobal ≤ target ∨ removed = l.filter fun e => s.deletable mount fails e.1
  shortest : ∀ pre, pre <+: removed → pre ≠ removed →
    target < (s.drop mount pre).db.totalCachedBytesGlobal

theorem expiryPhase_eq (hk : Keyed s.db) : ∃ l, s.expiryPhase cfg mount fails now = s.drop mount l := by
  unfold expiryPhase
  split
  · exact ⟨[], drop_nil.symm⟩
  · exact ⟨_, expire_eq (tracked_expired hk mount (cfg.expirySecs mount) now).nodup⟩

theorem expired_expiryPhase (hk : Keyed s.db) :
    Expired cfg mount fails now s (s.expiryPhase cfg mount fails now) := by
  unfold expiryPhase
  by_cases hzero : cfg.expirySecs mount = 0
  · rw [if_pos hzero]
    refine ⟨.refl s, fun p row hp hrow => ?_⟩
    rw [hrow]
    exact iff_of_false (by simp) fun h => h.1 hzero
  · have ht := tracked_expired hk mount (cfg.expirySecs mount) now
    have hsub := ht.sublist (List.filter_sublist (p := fun e => s.deletable mount fails e.1))
    rw [if_neg hzero, expire_eq ht.nodup]
    refine ⟨evicted_drop hsub fun e he => isSome_of_deletable (List.mem_filter.mp he).2,
      fun p row hp hrow => ?_⟩
    rw [row_drop hsub hp]
    constructor
    · intro hgone
      split at hgone
      · next hmem =>
        obtain ⟨e, he, rfl⟩ := List.mem_map.mp hmem
        obtain ⟨he, hdeletable⟩ := List.mem_filter.mp he
        obtain ⟨row', hrow', hexpired⟩ := (mem_expiredFiles_iff hk hp).mp (List.mem_map_of_mem he)
        have hsame : row = row' := Option.some.inj (hrow.symm.trans hrow')
        exact ⟨hzero, hsame ▸ hexpired, hdeletable⟩
      · rw [hgone] at hrow
        cases hrow
    · intro h
      obtain ⟨-, hexpired, hdeletable⟩ := h
      obtain ⟨e, he, rfl⟩ := List.mem_map.mp ((mem_expiredFiles_iff hk hp).mpr ⟨row, hrow, hexpired⟩)
      rw [if_pos (List.mem_map_of_mem (List.mem_filter.mpr ⟨he, hdeletable⟩))]

/-- What the loops over the candidates delete. -/
def oldest (mount : MountId) (fails : RelPath → Bool) (target : Nat) (s : Caches) : List (RelPath × Nat) :=
  deletedToFit (s.db.totalCachedBytesGlobal - target) 0
    ((evictionCandidates s.db mount).filter fun e => s.deletable mount fails e.1)

theorem fitted_oldest (mount : MountId) (fails : RelPath → Bool) (hs : s.db.Sized) (hk : Keyed s.db) (target : Nat) :
    Fitted mount fails target s (s.drop mount (s.oldest mount fails target))
      (evictionCandidates s.db mount) (s.oldest mount fails target) := by
  have hlru := lru_candidates hk mount
  obtain ⟨hinitial, henough, hshort⟩ := deletedToFit_spec (s.db.totalCachedBytesGlobal - target) 0
    ((evictionCandidates s.db mount).filter fun e => s.deletable mount fails e.1)
  have hsub : ∀ pre, pre <+: (evictionCandidates s.db mount).filter (fun e => s.deletable mount fails e.1) →
      Tracked s.db mount pre :=
    fun pre hpre => hlru.toTracked.sublist (hpre.sublist.trans List.filter_sublist)
  refine ⟨evicted_drop (hsub _ hinitial) fun e he => ?_, hlru, hinitial, rfl, ?_, fun pre hpre hne => ?_⟩
  · exact isSome_of_deletable (List.mem_filter.mp (hinitial.subset he)).2
  · refine henough.imp_left fun hmet => ?_
    have htotal := total_drop hs (hsub _ hinitial)
    rw [oldest]
    omega
  · have hlt := hshort pre hpre hne
    have htotal := total_drop hs (hsub pre (hpre.trans hinitial))
    omega

/-- Nothing is deleted when the total is at the target. -/
theorem oldest_of_le {target : Nat} (h : s.db.totalCachedBytesGlobal ≤ target) :
    s.oldest mount fails target = [] := by
  rw [oldest, deletedToFit_of_le (by omega)]

theorem sizePhase_eq (hk : Keyed s.db) :
    s.sizePhase cfg mount fails = s.drop mount (s.oldest mount fails cfg.maxSizeBytes) := by
  unfold sizePhase
  split
  · exact shrink_eq s.db.totalCachedBytesGlobal 0 (nodup_candidates hk)
  · next hfits => rw [oldest_of_le (Nat.not_lt.mp hfits), drop_nil]

theorem evictToFit_eq (hk : Keyed s.db) (pendingBytes : Nat) :
    s.evictToFit cfg mount fails pendingBytes =
      (s.drop mount (s.oldest mount fails (cfg.maxSizeBytes - pendingBytes)),
        bytesOf (s.oldest mount fails (cfg.maxSizeBytes - pendingBytes))) := by
  unfold evictToFit
  dsimp only
  split
  · next hfits => rw [oldest_of_le hfits, drop_nil, bytesOf_nil]
  · exact (freeUp_eq _ 0 (nodup_candidates hk)).trans (by rw [Nat.zero_add, oldest])

/-- The expiry phase, and the size phase after it. -/
theorem evictIfNeeded_post (cfg : EvictConfig) (mount : MountId) (fails : RelPath → Bool) (now : Nat)
    (hs : s.db.Sized) (hk : Keyed s.db) :
    Evicted mount s (s.evictIfNeeded cfg mount fails now) ∧
    ∃ s₁ l removed, Expired cfg mount fails now s s₁ ∧
      Fitted mount fails cfg.maxSizeBytes s₁ (s.evictIfNeeded cfg mount fails now) l removed := by
  have hexpired : Expired cfg mount fails now s (s.expiryPhase cfg mount fails now) := expired_expiryPhase hk
  obtain ⟨l, hdrop⟩ : ∃ l, s.expiryPhase cfg mount fails now = s.drop mount l := expiryPhase_eq hk
  have hs₁ : (s.expiryPhase cfg mount fails now).db.Sized := hdrop ▸ sized_drop hs l
  have hk₁ : Keyed (s.expiryPhase cfg mount fails now).db := hdrop ▸ keyed_drop hk l
  have hfitted := fitted_oldest mount fails hs₁ hk₁ cfg.maxSizeBytes
  rw [← sizePhase_eq hk₁] at hfitted
  exact ⟨hexpired.toEvicted.trans hfitted.toEvicted, _, _, _, hexpired, hfitted⟩

/-- Two mounts with a file of 60 bytes each, and a cap of 100: the pass of one mount. -/
theorem oneClip_ifNeeded :
    Evicted [108] ⟨twoClips, fun _ => oneClip⟩
        (evictIfNeeded hundred [108] (fun _ => false) 5 ⟨twoClips, fun _ => oneClip⟩) ∧
      ∃ s₁ l removed, Expired hundred [108] (fun _ => false) 5 ⟨twoClips, fun _ => oneClip⟩ s₁ ∧
        Fitted [108] (fun _ => false) 100 s₁
          (evictIfNeeded hundred [108] (fun _ => false) 5 ⟨twoClips, fun _ => oneClip⟩) l removed :=
  evictIfNeeded_post hundred [108] (fun _ => false) 5 twoClips_sized twoClips_keyed

/-- It returns what the total has lost; the rows it takes are those of the size phase with the
target. -/
theorem evictToFit_post (cfg : EvictConfig) (mount : MountId) (fails : RelPath → Bool)
    (hs : s.db.Sized) (hk : Keyed s.db) :
    (∀ pendingBytes, ∃ l removed, Fitted mount fails (cfg.maxSizeBytes - pendingBytes) s
        (s.evictToFit cfg mount fails pendingBytes).1 l removed ∧
      s.db.totalCachedBytesGlobal = (s.evictToFit cfg mount fails pendingBytes).2 +
        (s.evictToFit cfg mount fails pendingBytes).1.db.totalCachedBytesGlobal ∧
      (s.db.totalCachedBytesGlobal ≤ cfg.maxSizeBytes - pendingBytes →
        s.evictToFit cfg mount fails pendingBytes = (s, 0))) ∧
    (s.evictToFit cfg mount fails 0).1 = s.sizePhase cfg mount fails := by
  constructor
  · intro pendingBytes
    rw [evictToFit_eq hk]
    have hfitted := fitted_oldest mount fails hs hk (cfg.maxSizeBytes - pendingBytes)
    refine ⟨_, _, hfitted, total_drop hs ?_, fun hfits => ?_⟩
    · exact hfitted.lru.toTracked.sublist (hfitted.initial.sublist.trans List.filter_sublist)
    · rw [oldest_of_le hfits, drop_nil, bytesOf_nil]
  · rw [evictToFit_eq hk, sizePhase_eq hk]
    rfl

/-- With 70 bytes pending, the one file of the mount is all there is to free. -/
theorem oneClip_toFit :
    (∀ pendingBytes, ∃ l removed, Fitted [108] (fun _ => false) (100 - pendingBytes)
        ⟨twoClips, fun _ => oneClip⟩
        (evictToFit hundred [108] (fun _ => false) pendingBytes ⟨twoClips, fun _ => oneClip⟩).1 l removed ∧
      twoClips.totalCachedBytesGlobal =
        (evictToFit hundred [108] (fun _ => false) pendingBytes ⟨twoClips, fun _ => oneClip⟩).2 +
          (evictToFit hundred [108] (fun _ => false) pendingBytes
            ⟨twoClips, fun _ => oneClip⟩).1.db.totalCachedBytesGlobal ∧
      (twoClips.totalCachedBytesGlobal ≤ 100 - pendingBytes →
        evictToFit hundred [108] (fun _ => false) pendingBytes ⟨twoClips, fun _ => oneClip⟩ =
          (⟨twoClips, fun _ => oneClip⟩, 0))) ∧
    (evictToFit hundred [108] (fun _ => false) 0 ⟨twoClips, fun _ => oneClip⟩).1 =
      sizePhase hundred [108] (fun _ => false) ⟨twoClips, fun _ => oneClip⟩ ∧
    (evictToFit hundred [108] (fun _ => false) 70 ⟨twoClips, fun _ => oneClip⟩).2 = 60 :=
  have hpost := evictToFit_post hundred [108] (fun _ => false) twoClips_sized twoClips_keyed
    (s := ⟨twoClips, fun _ => oneClip⟩)
  ⟨hpost.1, hpost.2, by decide⟩

/-! ## The steps of the thread -/

variable (cfg mount fails now)

/-- The loop of a thread, whatever its goal. -/
def loop : Goal → List (RelPath × Nat) → Caches → Caches
  | _, [], s => s
  | goal, (relPath, size) :: rest, s =>
    if goal.met cfg.maxSizeBytes then s
    else
      match s.evict mount fails relPath with
      | none => loop goal rest s
      | some s => loop (goal.after size) rest s

/-- The thread alone. -/
def soloStep : Caches × Option EvictPc → Unit → Option (Caches × Option EvictPc)
  | (s, some pc), _ =>
    let ok := pc.listed.head?.all fun e => !fails e.1
    let r := evictStep cfg mount s.db (s.dirs mount) now ok pc
    some (⟨r.1, Function.update s.dirs mount r.2.1⟩, r.2.2)
  | (_, none), _ => none

variable {cfg mount fails now}

theorem loop_expiry (l : List (RelPath × Nat)) (s : Caches) :
    loop cfg mount fails .expiry l s = expire mount fails l s := by
  induction l generalizing s with
  | nil => rfl
  | cons e rest ih =>
    rw [loop, expire, if_neg (by simp [Goal.met])]
    cases s.evict mount fails e.1 with
    | none => exact ih s
    | some s' => exact ih s'

theorem loop_size (total : Nat) (l : List (RelPath × Nat)) (s : Caches) :
    loop cfg mount fails (.size total) l s = shrink cfg mount fails total l s := by
  induction l generalizing total s with
  | nil => rfl
  | cons e rest ih =>
    rw [loop, shrink]
    refine if_congr decide_eq_true_iff rfl ?_
    cases s.evict mount fails e.1 with
    | none => exact ih total s
    | some s' => exact ih (total - e.2) s'

theorem loop_fit (need freed : Nat) (l : List (RelPath × Nat)) (s : Caches) :
    loop cfg mount fails (.fit need freed) l s = (freeUp mount fails need freed l s).1 := by
  induction l generalizing freed s with
  | nil => rfl
  | cons e rest ih =>
    rw [loop, freeUp, apply_ite Prod.fst]
    refine if_congr decide_eq_true_iff rfl ?_
    cases s.evict mount fails e.1 with
    | none => exact ih freed s
    | some s' => exact ih (freed + e.2) s'

theorem afterLoop_after (goal : Goal) (size : Nat) :
    EvictPc.afterLoop (goal.after size) = EvictPc.afterLoop goal := by
  cases goal <;> rfl

/-- A step that leaves rows and files as they are. -/
theorem soloStep_still {pc : EvictPc} {ok : Bool} {next : Option EvictPc}
    (hok : ok = pc.listed.head?.all fun e => !fails e.1)
    (h : evictStep cfg mount s.db (s.dirs mount) now ok pc = (s.db, s.dirs mount, next)) :
    soloStep cfg mount fails now (s, some pc) () = some (s, next) := by
  simp only [soloStep]
  rw [← hok, h, Function.update_eq_self]

theorem run_loop (cfg : EvictConfig) (mount : MountId) (fails : RelPath → Bool) (now : Nat) (goal : Goal)
    (rest : List (RelPath × Nat)) (s : Caches) :
    ∃ n, run (soloStep cfg mount fails now) (s, some (.loop goal rest)) (List.replicate n ()) =
      some (loop cfg mount fails goal rest s, EvictPc.afterLoop goal) := by
  induction rest generalizing goal s with
  | nil => exact ⟨1, run_cons.mpr ⟨_, soloStep_still rfl rfl, rfl⟩⟩
  | cons e rest ih =>
    rw [loop]
    split
    · next hmet =>
      refine ⟨1, run_cons.mpr ⟨_, soloStep_still rfl ?_, rfl⟩⟩
      rw [evictStep, if_pos hmet]
    · next hmet =>
      cases hr : tryRemove (s.dirs mount) e.1 (!fails e.1) with
      | none =>
        have hevict : s.evict mount fails e.1 = none := by rw [evict, hr]; rfl
        obtain ⟨n, hrun⟩ := ih goal s
        rw [hevict]
        refine ⟨n + 1, run_cons.mpr ⟨_, soloStep_still rfl ?_, hrun⟩⟩
        rw [evictStep, if_neg hmet]
        simp [EvictPc.listed, hr]
      | some dir =>
        have hevict : s.evict mount fails e.1 =
            some ⟨s.db.remove e.1 mount, Function.update s.dirs mount dir⟩ := by rw [evict, hr]; rfl
        obtain ⟨n, hrun⟩ := ih (goal.after e.2) ⟨s.db.remove e.1 mount, Function.update s.dirs mount dir⟩
        rw [afterLoop_after] at hrun
        rw [hevict]
        -- the file goes in one step, its row in the next
        have hfile : soloStep cfg mount fails now (s, some (.loop goal (e :: rest))) () =
            some (⟨s.db, Function.update s.dirs mount dir⟩, some (.remove goal e.1 e.2 rest)) := by
          simp [soloStep, evictStep, hmet, EvictPc.listed, hr]
        have hrow : soloStep cfg mount fails now
            (⟨s.db, Function.update s.dirs mount dir⟩, some (.remove goal e.1 e.2 rest)) () =
              some (⟨s.db.remove e.1 mount, Function.update s.dirs mount dir⟩,
                some (.loop (goal.after e.2) rest)) := by
          simp [soloStep, evictStep]
        exact ⟨n + 2, run_cons.mpr ⟨_, hfile, run_cons.mpr ⟨_, hrow, hrun⟩⟩⟩

/-- A thread that runs `evict_to_fit` alone. -/
theorem toFit_run (pendingBytes : Nat) (s : Caches) :
    ∃ n, run (soloStep cfg mount fails now) (s, some (.fit pendingBytes)) (List.replicate n ()) =
      some ((s.evictToFit cfg mount fails pendingBytes).1, none) := by
  unfold evictToFit
  dsimp only
  split
  · next hfits =>
    refine ⟨1, run_cons.mpr ⟨_, soloStep_still rfl ?_, rfl⟩⟩
    rw [evictStep, if_pos hfits]
  · next hover =>
    obtain ⟨n, hrun⟩ := run_loop cfg mount fails now
      (.fit (s.db.totalCachedBytesGlobal - (cfg.maxSizeBytes - pendingBytes)) 0)
      (evictionCandidates s.db mount) s
    rw [loop_fit] at hrun
    have hneed : soloStep cfg mount fails now (s, some (.fit pendingBytes)) () = some (s, some (.list
        (.fit (s.db.totalCachedBytesGlobal - (cfg.maxSizeBytes - pendingBytes)) 0))) := by
      refine soloStep_still rfl ?_
      rw [evictStep, if_neg hover]
    exact ⟨n + 2, run_cons.mpr ⟨_, hneed, run_cons.mpr ⟨_, soloStep_still rfl rfl, hrun⟩⟩⟩

theorem run_sizePhase (cfg : EvictConfig) (mount : MountId) (fails : RelPath → Bool) (now : Nat) (s : Caches) :
    ∃ n, run (soloStep cfg mount fails now) (s, some .readTotal) (List.replicate n ()) =
      some (s.sizePhase cfg mount fails, none) := by
  unfold sizePhase
  split
  · next hover =>
    obtain ⟨n, hrun⟩ := run_loop cfg mount fails now (.size s.db.totalCachedBytesGlobal)
      (evictionCandidates s.db mount) s
    rw [loop_size] at hrun
    have htotal : soloStep cfg mount fails now (s, some .readTotal) () =
        some (s, some (.list (.size s.db.totalCachedBytesGlobal))) := by
      refine soloStep_still rfl ?_
      rw [evictStep, if_pos hover]
    exact ⟨n + 2, run_cons.mpr ⟨_, htotal, run_cons.mpr ⟨_, soloStep_still rfl rfl, hrun⟩⟩⟩
  · next hfits =>
    refine ⟨1, run_cons.mpr ⟨_, soloStep_still rfl ?_, rfl⟩⟩
    rw [evictStep, if_neg hfits]

/-- A thread that runs `evict_if_needed` alone, with the time standing still. -/
theorem ifNeeded_run (s : Caches) :
    ∃ n, run (soloStep cfg mount fails now) (s, some .begin) (List.replicate n ()) =
      some (s.evictIfNeeded cfg mount fails now, none) := by
  obtain ⟨n, hsize⟩ := run_sizePhase cfg mount fails now
    (s.expiryPhase cfg mount fails now)
  rw [evictIfNeeded]
  unfold expiryPhase at hsize ⊢
  split at hsize
  · next hzero =>
    rw [if_pos hzero]
    refine ⟨n + 1, run_cons.mpr ⟨_, soloStep_still rfl ?_, hsize⟩⟩
    rw [evictStep, if_pos hzero]
  · next hnonzero =>
    obtain ⟨k, hexpire⟩ := run_loop cfg mount fails now .expiry
      (expiredFiles s.db mount (cfg.expirySecs mount) now) s
    rw [loop_expiry] at hexpire
    rw [if_neg hnonzero]
    have hlist : soloStep cfg mount fails now (s, some .begin) () =
        some (s, some (.loop .expiry (expiredFiles s.db mount (cfg.expirySecs mount) now))) := by
      refine soloStep_still rfl ?_
      rw [evictStep, if_neg hnonzero]
    refine ⟨k + n + 1, ?_⟩
    rw [List.replicate_succ, List.replicate_add k n]
    exact run_cons.mpr ⟨_, hlist, run_append.mpr ⟨_, hexpire, hsize⟩⟩

end Caches

end FsCache
