import Mathlib.Algebra.GroupWithZero.Nat
import FsCache.Eviction

/- Making room for one copy (`populate_worker`, `evict_to_fit`).

   The step is taken when less than `min_free_bytes` are free on the disk. How much is then
   evicted is worked out from the cap on the cache instead. Here every deletion succeeds and
   raises the free space by the recorded size, and no other thread runs.

   `makes_room_iff`: when the mount's rows hold what is missing, the copy is attempted exactly if
   no initial part of the LRU list that is worth less than what is missing is worth what the cap
   asks for. `below_cap_skipped` is a cache below its cap on a full disk. `evictToFit_run` is that
   `evictToFit` is what the single steps of the thread come to.

   Correspondence (Rust ↔ Lean):
     `evict_to_fit`                      ↔ `evictToFit`
     `has_free_space`                    ↔ `hasFreeSpace`
     `populate_worker`, up to the copy   ↔ `makeRoom` -/

namespace FsCache
open Lib

structure RoomConfig extends EvictConfig where
  minFreeBytes : Nat

/-- The sum of the recorded sizes. -/
def bytesOf (l : List (RelPath × Nat)) : Nat := (l.map Prod.snd).sum

/-- The candidates that are deleted: until enough has been freed. -/
def deletedToFit (needToFree : Nat) : Nat → List (RelPath × Nat) → List (RelPath × Nat)
  | _, [] => []
  | freed, e :: rest =>
    if needToFree ≤ freed then [] else e :: deletedToFit needToFree (freed + e.2) rest

/-- `global_total - target`, or zero when nothing has to go. -/
def needToFree (cfg : EvictConfig) (db : CacheDb) (pendingBytes : Nat) : Nat :=
  db.totalCachedBytesGlobal - (cfg.maxSizeBytes - pendingBytes)

/-- What `evict_to_fit` deletes, and the database after it. -/
def evictToFit (cfg : EvictConfig) (mount : MountId) (db : CacheDb) (pendingBytes : Nat) :
    List (RelPath × Nat) × CacheDb :=
  if db.totalCachedBytesGlobal ≤ cfg.maxSizeBytes - pendingBytes then ([], db)
  else
    let deleted := deletedToFit (needToFree cfg db pendingBytes) 0 (evictionCandidates db mount)
    (deleted, deleted.foldl (fun db e => db.remove e.1 mount) db)

def hasFreeSpace (cfg : RoomConfig) (freeSpace : Nat) : Bool := decide (cfg.minFreeBytes ≤ freeSpace)

/-- The database, the free space, and whether the copy is attempted. -/
def makeRoom (cfg : RoomConfig) (mount : MountId) (db : CacheDb) (freeSpace pendingBytes : Nat) :
    CacheDb × Nat × Bool :=
  if hasFreeSpace cfg freeSpace then (db, freeSpace, true)
  else
    let (deleted, db) := evictToFit cfg.toEvictConfig mount db pendingBytes
    (db, freeSpace + bytesOf deleted, hasFreeSpace cfg (freeSpace + bytesOf deleted))

/-! ## How much is deleted -/

variable {cfg : RoomConfig} {mount : MountId} {db : CacheDb}

@[simp] theorem bytesOf_nil : bytesOf [] = 0 := rfl

@[simp] theorem bytesOf_cons (e : RelPath × Nat) (l : List (RelPath × Nat)) :
    bytesOf (e :: l) = e.2 + bytesOf l := by
  rw [bytesOf, List.map_cons, List.sum_cons, bytesOf]

theorem bytesOf_le_of_prefix {pre l : List (RelPath × Nat)} (h : pre <+: l) : bytesOf pre ≤ bytesOf l := by
  obtain ⟨rest, rfl⟩ := h
  rw [bytesOf, bytesOf, List.map_append, List.sum_append]
  exact Nat.le_add_right _ _

theorem deletedToFit_of_le {need freed : Nat} (h : need ≤ freed) (l : List (RelPath × Nat)) :
    deletedToFit need freed l = [] := by
  cases l with
  | nil => rfl
  | cons => rw [deletedToFit, if_pos h]

/-- The shortest initial part that is worth the need, or all there is. -/
theorem deletedToFit_spec (need freed : Nat) (l : List (RelPath × Nat)) :
    deletedToFit need freed l <+: l ∧
    (need ≤ freed + bytesOf (deletedToFit need freed l) ∨ deletedToFit need freed l = l) ∧
    ∀ pre, pre <+: deletedToFit need freed l → pre ≠ deletedToFit need freed l →
      freed + bytesOf pre < need := by
  induction l generalizing freed with
  | nil =>
    refine ⟨List.prefix_rfl, .inr rfl, fun pre hpre hne => ?_⟩
    exact absurd (List.prefix_nil.mp hpre) hne
  | cons e rest ih =>
    rw [deletedToFit]
    split
    · next hmet =>
      refine ⟨List.nil_prefix, .inl hmet, fun pre hpre hne => ?_⟩
      exact absurd (List.prefix_nil.mp hpre) hne
    · next hmet =>
      obtain ⟨hinit, hend, hshort⟩ := ih (freed + e.2)
      refine ⟨List.cons_prefix_cons.mpr ⟨rfl, hinit⟩, ?_, fun pre hpre hne => ?_⟩
      · rw [bytesOf_cons, ← Nat.add_assoc]
        exact hend.imp_right fun h => by rw [h]
      · cases pre with
        | nil =>
          rw [bytesOf_nil]
          omega
        | cons x pre =>
          obtain ⟨rfl, hpre⟩ := List.cons_prefix_cons.mp hpre
          have hlt := hshort pre hpre fun h => hne (by rw [h])
          rw [bytesOf_cons]
          omega

theorem deleted_evictToFit (cfg : EvictConfig) (mount : MountId) (db : CacheDb) (pendingBytes : Nat) :
    (evictToFit cfg mount db pendingBytes).1 =
      deletedToFit (needToFree cfg db pendingBytes) 0 (evictionCandidates db mount) := by
  unfold evictToFit
  split
  · next hle =>
    have hzero : needToFree cfg db pendingBytes = 0 := Nat.sub_eq_zero_of_le hle
    rw [hzero, deletedToFit_of_le (Nat.le_refl 0)]
  · rfl

/-- When the mount's rows hold what is missing on the disk, the copy is attempted exactly if no
initial part of the LRU list that is worth less is worth what the cap asks for. -/
theorem makes_room_iff {freeSpace pendingBytes : Nat} (hlow : freeSpace < cfg.minFreeBytes)
    (hholds : cfg.minFreeBytes - freeSpace ≤ bytesOf (evictionCandidates db mount)) :
    (makeRoom cfg mount db freeSpace pendingBytes).2.2 = true ↔
      ∀ pre, pre <+: evictionCandidates db mount → bytesOf pre < cfg.minFreeBytes - freeSpace →
        bytesOf pre < needToFree cfg.toEvictConfig db pendingBytes := by
  have hnospace : hasFreeSpace cfg freeSpace = false := decide_eq_false (by omega)
  have hroom : (makeRoom cfg mount db freeSpace pendingBytes).2.2 = true ↔
      cfg.minFreeBytes ≤ freeSpace + bytesOf (evictToFit cfg.toEvictConfig mount db pendingBytes).1 := by
    rw [makeRoom, hnospace, if_neg (by simp)]
    exact decide_eq_true_iff
  rw [hroom, deleted_evictToFit]
  generalize evictionCandidates db mount = candidates at hholds ⊢
  generalize needToFree cfg.toEvictConfig db pendingBytes = need
  obtain ⟨hinit, hend, hshort⟩ := deletedToFit_spec need 0 candidates
  rw [Nat.zero_add] at hend
  constructor
  · intro hfree pre hpre hlt
    -- `pre` is worth less than what was deleted, so it is a proper part of it
    have hpart : pre <+: deletedToFit need 0 candidates := by
      refine (List.prefix_or_prefix_of_prefix hpre hinit).resolve_right fun h => ?_
      have hle := bytesOf_le_of_prefix h
      omega
    have hproper := hshort pre hpart fun h => by
      rw [← h] at hfree
      omega
    omega
  · intro hall
    by_contra hfree
    have hlt := hall _ hinit (by omega)
    rcases hend with hneed | hwhole
    · omega
    · rw [hwhole] at hfree
      omega

section Disk

private def cartoon : RelPath := [⟨[99], Eq.refl true⟩]
private def interlude : RelPath := [⟨[115], Eq.refl true⟩]

private def sourceOf (size : Nat) : SourceMetadata := ⟨size, 1, 1, 0, 1, 0, 1, 0, 0o100644, 1, 0, 0, 0, 4096⟩

/-- Files of 60 and of 50 bytes, the smaller one hit last. -/
def doubleBill : CacheDb :=
  (CacheDb.markCached ⟨∅, ∅⟩ cartoon [109] (sourceOf 60) 1).markCached interlude [109] (sourceOf 50) 2

/-- A cap of 100 bytes; 50 have to stay free. -/
def fullDisk : RoomConfig := ⟨⟨100, fun _ => 0⟩, 50⟩

/-- With ten bytes on their way the older file has to go, and the disk has room. -/
theorem older_makes_room : (makeRoom fullDisk [109] doubleBill 0 10).2.2 = true := by
  have hcandidates : evictionCandidates doubleBill [109] = [(cartoon, 60), (interlude, 50)] := by decide
  have hlow : 0 < fullDisk.minFreeBytes := by decide
  refine (makes_room_iff hlow (by decide)).mpr fun pre hpre hlt => ?_
  rw [hcandidates] at hpre
  cases pre with
  | nil => decide
  | cons e pre =>
    -- one file alone is worth enough
    obtain ⟨rfl, -⟩ := List.cons_prefix_cons.mp hpre
    rw [bytesOf_cons] at hlt
    exact absurd hlt (Nat.not_lt.mpr (Nat.le_add_right_of_le (by decide)))

/-- The cache is below its cap, so nothing is evicted, and the copy is skipped. -/
theorem below_cap_skipped :
    fullDisk.minFreeBytes - 0 ≤ bytesOf (evictionCandidates (doubleBill.remove interlude [109]) [109]) ∧
    (makeRoom fullDisk [109] (doubleBill.remove interlude [109]) 0 10).2.2 = false := by
  decide

end Disk

/-! ## The steps of the thread -/

/-- The thread alone, and no deletion fails. -/
def soloStep (cfg : EvictConfig) (mount : MountId) (now : Nat) :
    CacheDb × CacheDir × Option EvictPc → Unit → Option (CacheDb × CacheDir × Option EvictPc)
  | (db, dir, some pc), _ => some (evictStep cfg mount db dir now true pc)
  | (_, _, none), _ => none

theorem run_solo_loop (cfg : EvictConfig) (mount : MountId) (now need : Nat) (rest : List (RelPath × Nat)) :
    ∀ (freed : Nat) (db : CacheDb) (dir : CacheDir), (rest.map Prod.fst).Nodup →
      (∀ e ∈ rest, ∃ i, dir.fileAt e.1 = some i) →
      ∃ n dir', run (soloStep cfg mount now) (db, dir, some (.loop (.fit need freed) rest))
        (List.replicate n ()) =
          some ((deletedToFit need freed rest).foldl (fun db e => db.remove e.1 mount) db, dir', none) := by
  induction rest with
  | nil =>
    intro freed db dir _ _
    exact ⟨1, dir, rfl⟩
  | cons e rest ih =>
    intro freed db dir hnodup hfile
    rw [List.map_cons, List.nodup_cons] at hnodup
    rw [deletedToFit]
    by_cases hmet : need ≤ freed
    · refine ⟨1, dir, ?_⟩
      rw [if_pos hmet]
      simp [run, soloStep, evictStep, Goal.met, hmet, EvictPc.afterLoop]
    · rw [if_neg hmet, List.foldl_cons]
      obtain ⟨i, hi⟩ := hfile e List.mem_cons_self
      obtain ⟨dir₁, hdir⟩ : ∃ dir₁, tryRemove dir e.1 true = some dir₁ := by
        rw [tryRemove, if_pos rfl, Files.remove]
        split
        · next hnone => exact absurd (hnone.symm.trans hi) (by simp)
        · exact ⟨_, rfl⟩
      have hrest : ∀ e' ∈ rest, ∃ i, dir₁.fileAt e'.1 = some i := by
        intro e' he'
        rw [(Evictors.fileAt_of_tryRemove hdir).2, if_neg]
        · exact hfile e' (List.mem_cons_of_mem e he')
        · intro hsame
          exact hnodup.1 (List.mem_map.mpr ⟨e', he', hsame⟩)
      obtain ⟨n, dir', hrun⟩ := ih (freed + e.2) (db.remove e.1 mount) dir₁ hnodup.2 hrest
      refine ⟨n + 2, dir', ?_⟩
      have hdelete : soloStep cfg mount now (db, dir, some (.loop (.fit need freed) (e :: rest))) () =
          some (db, dir₁, some (.remove (.fit need freed) e.1 e.2 rest)) := by
        simp [soloStep, evictStep, Goal.met, hmet, hdir]
      exact run_cons.mpr ⟨_, hdelete, run_cons.mpr ⟨_, rfl, hrun⟩⟩

theorem nodup_candidates (hk : Evictors.Keyed db) : ((evictionCandidates db mount).map Prod.fst).Nodup := by
  rw [evictionCandidates, List.map_map]
  have hperm := (List.perm_insertionSort (fun e e' : Sigma fun _ : RowKey × MountId => Row =>
    e.2.lastHitAt ≤ e'.2.lastHitAt) (db.cacheFiles.entries.filter fun e => e.1.2 = mount)).map
      (Prod.fst ∘ fun e => (pathOfKey e.1.1, e.2.sizeBytes.toNat))
  refine hperm.nodup_iff.mpr (List.Nodup.map_on ?_ ((db.cacheFiles.nodupKeys.nodup).filter _))
  intro x hx y hy hpath
  obtain ⟨hx, hmx⟩ := List.mem_filter.mp hx
  obtain ⟨hy, hmy⟩ := List.mem_filter.mp hy
  have hkey : ∀ z ∈ db.cacheFiles.entries, rowKey (pathOfKey z.1.1) = z.1.1 := by
    intro z hz
    obtain ⟨q, hq⟩ := hk z.1 z.2 (AList.mem_lookup_iff.mpr hz)
    rw [hq, rowKey_pathOfKey_rowKey]
  have hfirst : x.1 = y.1 := by
    refine Prod.ext ?_ ((of_decide_eq_true hmx).trans (of_decide_eq_true hmy).symm)
    rw [← hkey x hx, ← hkey y hy]
    exact congrArg rowKey hpath
  have hx' := AList.mem_lookup_iff.mpr hx
  have hy' := AList.mem_lookup_iff.mpr hy
  rw [← hfirst] at hy'
  exact Sigma.ext hfirst (heq_of_eq (Option.some.inj (hx'.symm.trans hy')))

/-- A thread that runs `evict_to_fit` alone, with every file there, ends with what `evictToFit` says. -/
theorem evictToFit_run (cfg : EvictConfig) (mount : MountId) (now pendingBytes : Nat)
    (hk : Evictors.Keyed db) {dir : CacheDir}
    (hfile : ∀ e ∈ evictionCandidates db mount, ∃ i, dir.fileAt e.1 = some i) :
    ∃ n dir', run (soloStep cfg mount now) (db, dir, some (.fit pendingBytes)) (List.replicate n ()) =
      some ((evictToFit cfg mount db pendingBytes).2, dir', none) := by
  unfold evictToFit
  split
  · next hle =>
    refine ⟨1, dir, ?_⟩
    simp [run, soloStep, evictStep, hle]
  · next hgt =>
    obtain ⟨n, dir', hrun⟩ := run_solo_loop cfg mount now (needToFree cfg db pendingBytes) _ 0 db dir
      (nodup_candidates hk) hfile
    have hneeds : soloStep cfg mount now (db, dir, some (.fit pendingBytes)) () =
        some (db, dir, some (.list (.fit (needToFree cfg db pendingBytes) 0))) := by
      simp [soloStep, evictStep, hgt, needToFree]
    exact ⟨n + 2, dir', run_cons.mpr ⟨_, hneeds, run_cons.mpr ⟨_, rfl, hrun⟩⟩⟩

end FsCache
