import Mathlib.Data.List.Sort
import FsCache.Lib.Run
import FsCache.Manager

/- Eviction by expiry and by size (`evict_if_needed`, `evict_to_fit` in cache/manager.rs).

   Any number of mounts share the database and the cap. A thread runs one of the two for a
   mount; its single steps are to list expired files or candidates, to read the global
   total, to delete one file, and to remove one row, and they are interleaved with those of
   the other threads. `evict_to_fit` runs under the mount's `evict_lock`, `evict_if_needed`
   does not take it. Whether `remove_file` fails for a file that is there is part of the action.

   `stale` is what the others have taken from the sum in the database since a thread read it;
   nothing reads it. `sum_is_over_iff`: in every run, no unexpired file is deleted for size by
   `evict_if_needed` with the sum within the cap, exactly if at each such deletion the thread's
   own total is above the cap by more than that. `mounts_over_evict` is a run where it is not.

   Correspondence (Rust ↔ Lean):
     `eviction_candidates`, `expired_files`    ↔ `evictionCandidates`, `expiredFiles`
     `evict_if_needed`, `evict_to_fit`         ↔ `EvictPc.begin`, `EvictPc.fit`, by `evictStep`
     `global_total`, `need_to_free`, `freed`   ↔ `Goal.size`, `Goal.fit` -/

namespace FsCache
open Lib

/-- LRU-ordered eviction candidates; `LIMIT -1` is no limit. The query names no order for rows
with the same `last_hit_at`. -/
def evictionCandidates (db : CacheDb) (mount : MountId) : List (RelPath × Nat) :=
  ((db.cacheFiles.entries.filter fun e => e.1.2 = mount).insertionSort
    fun e e' => e.2.lastHitAt ≤ e'.2.lastHitAt).map
      fun e => (pathOfKey e.1.1, e.2.sizeBytes.toNat)

/-- `last_hit_at < now - expiry_secs` -/
def Row.expired (row : Row) (expirySecs now : Nat) : Bool :=
  decide (row.lastHitAt < asI64 (now - expirySecs))

def expiredFiles (db : CacheDb) (mount : MountId) (expirySecs now : Nat) : List (RelPath × Nat) :=
  (db.cacheFiles.entries.filter fun e => e.1.2 = mount ∧ e.2.expired expirySecs now).map
    fun e => (pathOfKey e.1.1, e.2.sizeBytes.toNat)

structure EvictConfig where
  maxSizeBytes : Nat
  expirySecs : MountId → Nat

/-- Why a loop deletes, and what it has counted. -/
inductive Goal where
  | expiry
  | size (globalTotal : Nat)
  | fit (needToFree freed : Nat)
  deriving DecidableEq

namespace Goal

/-- The loop breaks. -/
def met (maxSizeBytes : Nat) : Goal → Bool
  | .expiry => false
  | .size globalTotal => decide (globalTotal ≤ maxSizeBytes)
  | .fit needToFree freed => decide (needToFree ≤ freed)

def after (size : Nat) : Goal → Goal
  | .expiry => .expiry
  | .size globalTotal => .size (globalTotal - size)
  | .fit needToFree freed => .fit needToFree (freed + size)

end Goal

inductive EvictPc where
  | begin
  | readTotal
  | fit (pendingBytes : Nat)
  | list (goal : Goal)
  | loop (goal : Goal) (rest : List (RelPath × Nat))
  /-- the file is deleted, its row not yet -/
  | remove (goal : Goal) (relPath : RelPath) (size : Nat) (rest : List (RelPath × Nat))
  deriving DecidableEq

namespace EvictPc

/-- After its loop, `evict_if_needed` goes from expiry to size. -/
def afterLoop : Goal → Option EvictPc
  | .expiry => some .readTotal
  | .size _ | .fit .. => none

def underLock : EvictPc → Bool
  | .fit _ => true
  | .list goal | .loop goal _ | .remove goal .. =>
    match goal with
    | .fit .. => true
    | .expiry | .size _ => false
  | .begin | .readTotal => false

/-- The files the thread has listed and not come to. -/
def listed : EvictPc → List (RelPath × Nat)
  | .loop _ rest | .remove _ _ _ rest => rest
  | .begin | .readTotal | .fit _ | .list _ => []

/-- The row the thread removes next. -/
def removing : EvictPc → Option (RelPath × Nat)
  | .remove _ relPath size _ => some (relPath, size)
  | .begin | .readTotal | .fit _ | .list _ | .loop .. => none

/-- The total that `evict_if_needed` keeps. -/
def globalTotal : EvictPc → Option Nat
  | .list (.size total) | .loop (.size total) _ | .remove (.size total) .. => some total
  | _ => none

end EvictPc

/-- `std::fs::remove_file`. -/
def tryRemove (dir : CacheDir) (relPath : RelPath) (ok : Bool) : Option CacheDir :=
  if ok then dir.remove relPath else none

/-- One step of a thread; `none` is its end. -/
def evictStep (cfg : EvictConfig) (mount : MountId) (db : CacheDb) (dir : CacheDir) (now : Nat)
    (ok : Bool) : EvictPc → CacheDb × CacheDir × Option EvictPc
  | .begin =>
    if cfg.expirySecs mount = 0 then (db, dir, some .readTotal)
    else (db, dir, some (.loop .expiry (expiredFiles db mount (cfg.expirySecs mount) now)))
  | .readTotal =>
    if cfg.maxSizeBytes < db.totalCachedBytesGlobal then
      (db, dir, some (.list (.size db.totalCachedBytesGlobal)))
    else (db, dir, none)
  | .fit pendingBytes =>
    if db.totalCachedBytesGlobal ≤ cfg.maxSizeBytes - pendingBytes then (db, dir, none)
    else (db, dir, some (.list (.fit (db.totalCachedBytesGlobal - (cfg.maxSizeBytes - pendingBytes)) 0)))
  | .list goal => (db, dir, some (.loop goal (evictionCandidates db mount)))
  | .loop goal [] => (db, dir, EvictPc.afterLoop goal)
  | .loop goal ((relPath, size) :: rest) =>
    if goal.met cfg.maxSizeBytes then (db, dir, EvictPc.afterLoop goal)
    else
      match tryRemove dir relPath ok with
      | none => (db, dir, some (.loop goal rest))
      | some dir => (db, dir, some (.remove goal relPath size rest))
  | .remove goal relPath size rest =>
    (db.remove relPath mount, dir, some (.loop (goal.after size) rest))

structure Evictors where
  db : CacheDb
  dirs : MountId → CacheDir
  threads : Nat → Option (MountId × EvictPc)
  locked : MountId → Bool
  stale : Nat → Nat

inductive EvictAction where
  | ifNeeded (t : Nat) (mount : MountId)
  | toFit (t : Nat) (mount : MountId) (pendingBytes : Nat)
  | step (t now : Nat) (ok : Bool)
  deriving DecidableEq

namespace Evictors

def start (db : CacheDb) (dirs : MountId → CacheDir) : Evictors where
  db := db
  dirs := dirs
  threads := fun _ => none
  locked := fun _ => false
  stale := fun _ => 0

/-- What the step of thread `t` takes from the sum is added for all others; its own count starts
when it reads the sum. -/
def restale (s : Evictors) (t : Nat) (pc : EvictPc) (db : CacheDb) : Nat → Nat := fun u =>
  if u = t then
    match pc with
    | .readTotal => 0
    | _ => s.stale t
  else s.stale u + (s.db.totalCachedBytesGlobal - db.totalCachedBytesGlobal)

def step (cfg : EvictConfig) (s : Evictors) : EvictAction → Option Evictors
  | .ifNeeded t mount =>
    if (s.threads t).isSome then none
    else some { s with threads := Function.update s.threads t (some (mount, .begin)) }
  | .toFit t mount pendingBytes =>
    if (s.threads t).isSome || s.locked mount then none
    else
      some { s with
        threads := Function.update s.threads t (some (mount, .fit pendingBytes))
        locked := Function.update s.locked mount true }
  | .step t now ok =>
    match s.threads t with
    | none => none
    | some (mount, pc) =>
      let (db, dir, pc') := evictStep cfg mount s.db (s.dirs mount) now ok pc
      some
        { db := db
          dirs := Function.update s.dirs mount dir
          threads := Function.update s.threads t (pc'.map fun pc' => (mount, pc'))
          locked :=
            if pc.underLock && pc'.isNone then Function.update s.locked mount false else s.locked
          stale := s.restale t pc db }

/-- Whether the row of the path is past its expiry. -/
def isExpired (cfg : EvictConfig) (db : CacheDb) (mount : MountId) (relPath : RelPath) (now : Nat) : Bool :=
  decide (cfg.expirySecs mount ≠ 0) &&
    (db.row relPath mount).any fun row => row.expired (cfg.expirySecs mount) now

/-- What the thread keeps of the sum, if it is `evict_if_needed` and is about to delete an unexpired
file for size. -/
def deletesForSize (cfg : EvictConfig) (s : Evictors) (t now : Nat) (ok : Bool) : Option Nat :=
  match s.threads t with
  | some (mount, .loop (.size globalTotal) ((relPath, _) :: _)) =>
    if cfg.maxSizeBytes < globalTotal ∧ (tryRemove (s.dirs mount) relPath ok).isSome = true ∧
        isExpired cfg s.db mount relPath now = false then
      some globalTotal
    else none
  | _ => none

/-- Such a file is deleted only while the sum is above the cap. -/
def SumIsOver (cfg : EvictConfig) (s : Evictors) : EvictAction → Prop
  | .step t now ok =>
    ∀ _ ∈ s.deletesForSize cfg t now ok, cfg.maxSizeBytes < s.db.totalCachedBytesGlobal
  | .ifNeeded .. | .toFit .. => True

/-- The thread's total is above the cap by more than what the others have removed since it was read. -/
def TotalIsRecent (cfg : EvictConfig) (s : Evictors) : EvictAction → Prop
  | .step t now ok =>
    ∀ globalTotal ∈ s.deletesForSize cfg t now ok, cfg.maxSizeBytes + s.stale t < globalTotal
  | .ifNeeded .. | .toFit .. => True

instance (cfg : EvictConfig) (s : Evictors) (a : EvictAction) : Decidable (TotalIsRecent cfg s a) :=
  match a with
  | .step t now ok =>
    inferInstanceAs (Decidable (∀ globalTotal ∈ s.deletesForSize cfg t now ok,
      cfg.maxSizeBytes + s.stale t < globalTotal))
  | .ifNeeded .. | .toFit .. => isTrue trivial

/-! ## What the threads know -/

variable {cfg : EvictConfig} {s s' : Evictors} {a : EvictAction} {db : CacheDb} {mount m : MountId}
  {dir dir' : CacheDir} {p : RelPath} {n : Nat} {pc : EvictPc} {e : RelPath × Nat}

/-- A path that is read back from a key. -/
def Canonical (p : RelPath) : Prop := pathOfKey (rowKey p) = p

theorem Canonical.inj {p q : RelPath} (hp : Canonical p) (hq : Canonical q)
    (h : rowKey p = rowKey q) : p = q := by
  rw [← hp, h, hq]

/-- Every key is that of a path. -/
def Keyed (db : CacheDb) : Prop := ∀ key row, db.cacheFiles.lookup key = some row → ∃ p, key.1 = rowKey p

/-- The row of the path has this size. -/
def HasRow (db : CacheDb) (mount : MountId) (e : RelPath × Nat) : Prop :=
  ∃ row, db.row e.1 mount = some row ∧ row.sizeBytes.toNat = e.2

theorem hasRow_of_entry (hk : Keyed db) {x : Sigma fun _ : RowKey × MountId => Row}
    (hx : x ∈ db.cacheFiles.entries) (hm : x.1.2 = mount) :
    Canonical (pathOfKey x.1.1) ∧ HasRow db mount (pathOfKey x.1.1, x.2.sizeBytes.toNat) := by
  have hlookup : db.cacheFiles.lookup x.1 = some x.2 := AList.mem_lookup_iff.mpr hx
  obtain ⟨q, hq⟩ := hk x.1 x.2 hlookup
  have hkey : rowKey (pathOfKey x.1.1) = x.1.1 := by rw [hq, rowKey_pathOfKey_rowKey]
  refine ⟨congrArg pathOfKey hkey, x.2, ?_, rfl⟩
  rw [CacheDb.row, hkey, ← hm]
  exact hlookup

theorem hasRow_of_candidate (hk : Keyed db) (he : e ∈ evictionCandidates db mount) :
    Canonical e.1 ∧ HasRow db mount e := by
  obtain ⟨x, hx, rfl⟩ := List.mem_map.mp he
  obtain ⟨hx, hm⟩ := List.mem_filter.mp ((List.mem_insertionSort _).mp hx)
  exact hasRow_of_entry hk hx (of_decide_eq_true hm)

theorem hasRow_of_expired (hk : Keyed db) {expirySecs now : Nat}
    (he : e ∈ expiredFiles db mount expirySecs now) : Canonical e.1 ∧ HasRow db mount e := by
  obtain ⟨x, hx, rfl⟩ := List.mem_map.mp he
  obtain ⟨hx, hm⟩ := List.mem_filter.mp hx
  exact hasRow_of_entry hk hx (of_decide_eq_true hm).1

/-- Another row is still there. -/
theorem HasRow.remove (h : HasRow db mount e) (he : Canonical e.1) (hp : Canonical p)
    (hne : ¬ (e.1 = p ∧ mount = m)) : HasRow (db.remove p m) mount e := by
  obtain ⟨row, hrow, hsize⟩ := h
  refine ⟨row, ?_, hsize⟩
  rw [CacheDb.row, CacheDb.remove, Map.lookup_erase_if, if_neg]
  · exact hrow
  · intro hkey
    obtain ⟨hkey, hm⟩ := Prod.mk.inj hkey
    exact hne ⟨he.inj hp hkey, hm⟩

theorem keyed_remove (h : Keyed db) : Keyed (db.remove p m) := by
  intro key row hrow
  rw [CacheDb.remove, Map.lookup_erase_if] at hrow
  split at hrow
  · exact absurd hrow (by simp)
  · exact h key row hrow

/-- Removing a row takes its size from the sum. -/
theorem global_remove (hs : db.Sized) (h : HasRow db mount (p, n)) :
    db.totalCachedBytesGlobal = n + (db.remove p mount).totalCachedBytesGlobal := by
  obtain ⟨row, hrow, hsize⟩ := h
  have hlookup : db.cacheFiles.lookup (rowKey p, mount) = some row := hrow
  have htotal := Map.total_erase (fun _ row => row.sizeBytes) hlookup
  have hpos : 0 ≤ row.sizeBytes := hs _ row hrow
  have hrest : 0 ≤ Map.total (fun _ row => row.sizeBytes) (db.cacheFiles.erase (rowKey p, mount)) :=
    Map.total_nonneg (CacheDb.sized_remove hs)
  rw [CacheDb.totalCachedBytesGlobal, htotal, Int.toNat_add hpos hrest, hsize]
  rfl

theorem fileAt_of_tryRemove {ok : Bool} (h : tryRemove dir p ok = some dir') :
    (∃ i, dir.fileAt p = some i) ∧ ∀ q, dir'.fileAt q = if q = p then none else dir.fileAt q := by
  unfold tryRemove at h
  split at h
  · refine ⟨?_, Files.fileAt_remove h⟩
    unfold Files.remove at h
    split at h
    · exact absurd h (by simp)
    · next i hi => exact ⟨i, hi⟩
  · exact absurd h (by simp)

/-- What a thread has listed has its row, or is deleted; the file whose row it removes next is
deleted, and has its row; and its total is the sum and what the others took from it. -/
structure Knows (db : CacheDb) (dir : CacheDir) (mount : MountId) (stale : Nat) (pc : EvictPc) : Prop where
  listed : ∀ e ∈ pc.listed, Canonical e.1 ∧ (HasRow db mount e ∨ dir.fileAt e.1 = none)
  removing : ∀ e, pc.removing = some e → Canonical e.1 ∧ HasRow db mount e ∧ dir.fileAt e.1 = none
  total : ∀ total, pc.globalTotal = some total → total = db.totalCachedBytesGlobal + stale

structure Evicting (s : Evictors) : Prop where
  sized : s.db.Sized
  keyed : Keyed s.db
  knows : ∀ t mount pc, s.threads t = some (mount, pc) →
    Knows s.db (s.dirs mount) mount (s.stale t) pc
  once : ∀ t u mount pc pc' e e', s.threads t = some (mount, pc) → s.threads u = some (mount, pc') →
    pc.removing = some e → pc'.removing = some e' → e.1 = e'.1 → t = u

/-- A file less. -/
theorem Knows.deleted {stale : Nat} (hk : Knows db dir mount stale pc)
    (hdir : ∀ q, dir.fileAt q = none → dir'.fileAt q = none) : Knows db dir' mount stale pc where
  listed := fun e he => ⟨(hk.listed e he).1, (hk.listed e he).2.imp_right (hdir e.1)⟩
  removing := fun e he => ⟨(hk.removing e he).1, (hk.removing e he).2.1, hdir e.1 (hk.removing e he).2.2⟩
  total := hk.total

/-- A row less, which is not the one that the thread removes next. -/
theorem Knows.removed {stale : Nat} (hk : Knows db dir mount stale pc) (hs : db.Sized)
    (hp : Canonical p) (hrow : HasRow db m (p, n)) (hgone : mount = m → dir.fileAt p = none)
    (hne : ∀ e, pc.removing = some e → ¬ (e.1 = p ∧ mount = m)) :
    Knows (db.remove p m) dir mount
      (stale + (db.totalCachedBytesGlobal - (db.remove p m).totalCachedBytesGlobal)) pc where
  listed := by
    intro e he
    obtain ⟨hcanon, hstate⟩ := hk.listed e he
    refine ⟨hcanon, ?_⟩
    by_cases hsame : e.1 = p ∧ mount = m
    · exact .inr (hsame.1 ▸ hgone hsame.2)
    · exact hstate.imp_left fun h => h.remove hcanon hp hsame
  removing := by
    intro e he
    obtain ⟨hcanon, h, hfile⟩ := hk.removing e he
    exact ⟨hcanon, h.remove hcanon hp (hne e he), hfile⟩
  total := by
    intro total htotal
    have hsum := hk.total total htotal
    have hless := global_remove hs hrow
    omega

/-- What one step of a thread can do. -/
inductive EvictMove (cfg : EvictConfig) (mount : MountId) (db : CacheDb) (dir : CacheDir) (now : Nat)
    (ok : Bool) : EvictPc → CacheDb × CacheDir × Option EvictPc → Prop
  | noExpiry : EvictMove cfg mount db dir now ok .begin (db, dir, some .readTotal)
  | expiry : EvictMove cfg mount db dir now ok .begin
      (db, dir, some (.loop .expiry (expiredFiles db mount (cfg.expirySecs mount) now)))
  | above : EvictMove cfg mount db dir now ok .readTotal
      (db, dir, some (.list (.size db.totalCachedBytesGlobal)))
  | below : EvictMove cfg mount db dir now ok .readTotal (db, dir, none)
  | fits (pendingBytes : Nat) : EvictMove cfg mount db dir now ok (.fit pendingBytes) (db, dir, none)
  | needs (pendingBytes need : Nat) :
      EvictMove cfg mount db dir now ok (.fit pendingBytes) (db, dir, some (.list (.fit need 0)))
  | list (goal : Goal) : EvictMove cfg mount db dir now ok (.list goal)
      (db, dir, some (.loop goal (evictionCandidates db mount)))
  | ended (goal : Goal) (rest : List (RelPath × Nat)) :
      EvictMove cfg mount db dir now ok (.loop goal rest) (db, dir, EvictPc.afterLoop goal)
  | failed (goal : Goal) (e : RelPath × Nat) (rest : List (RelPath × Nat)) :
      EvictMove cfg mount db dir now ok (.loop goal (e :: rest)) (db, dir, some (.loop goal rest))
  | deleted {goal : Goal} {p : RelPath} {n : Nat} {rest : List (RelPath × Nat)} {dir' : CacheDir}
      (hmet : goal.met cfg.maxSizeBytes = false) (hdir : tryRemove dir p ok = some dir') :
      EvictMove cfg mount db dir now ok (.loop goal ((p, n) :: rest))
        (db, dir', some (.remove goal p n rest))
  | removed (goal : Goal) (p : RelPath) (n : Nat) (rest : List (RelPath × Nat)) :
      EvictMove cfg mount db dir now ok (.remove goal p n rest)
        (db.remove p mount, dir, some (.loop (goal.after n) rest))

theorem evictMove (cfg : EvictConfig) (mount : MountId) (db : CacheDb) (dir : CacheDir) (now : Nat)
    (ok : Bool) (pc : EvictPc) : EvictMove cfg mount db dir now ok pc (evictStep cfg mount db dir now ok pc) := by
  cases pc with
  | begin =>
    simp only [evictStep]
    split
    · exact .noExpiry
    · exact .expiry
  | readTotal =>
    simp only [evictStep]
    split
    · exact .above
    · exact .below
  | fit pendingBytes =>
    simp only [evictStep]
    split
    · exact .fits pendingBytes
    · exact .needs pendingBytes _
  | list goal => exact .list goal
  | loop goal rest =>
    cases rest with
    | nil => exact .ended goal []
    | cons e rest =>
      obtain ⟨p, n⟩ := e
      simp only [evictStep]
      cases hmet : goal.met cfg.maxSizeBytes with
      | true => exact .ended goal _
      | false =>
        cases hdir : tryRemove dir p ok with
        | none => exact .failed goal (p, n) rest
        | some dir' => exact .deleted hmet hdir
  | remove goal p n rest => exact .removed goal p n rest

theorem afterLoop_eq_some {goal : Goal} (h : EvictPc.afterLoop goal = some pc) : pc = .readTotal := by
  cases goal with
  | expiry => exact (Option.some.inj h).symm
  | size | fit => exact absurd h (by simp [EvictPc.afterLoop])

/-- A thread that has listed nothing and keeps no total knows nothing. -/
theorem knows_of_nothing {stale : Nat} (hl : pc.listed = []) (hr : pc.removing = none)
    (ht : pc.globalTotal = none) : Knows db dir mount stale pc where
  listed := fun e he => absurd he (by simp [hl])
  removing := fun e he => absurd he (by simp [hr])
  total := fun total he => absurd he (by simp [ht])

theorem globalTotal_loop {goal : Goal} {rest : List (RelPath × Nat)} {total : Nat}
    (h : EvictPc.globalTotal (.loop goal rest) = some total) : goal = .size total := by
  cases goal with
  | size n => exact congrArg Goal.size (Option.some.inj h)
  | expiry | fit => exact absurd h (by simp [EvictPc.globalTotal])

/-- What a thread knows after its own step. -/
theorem knows_step (hs : db.Sized) (hkey : Keyed db) {stale now : Nat} {ok : Bool}
    (hk : Knows db dir mount stale pc) {r : CacheDb × CacheDir × Option EvictPc}
    (hm : EvictMove cfg mount db dir now ok pc r) {pc' : EvictPc} (hpc : r.2.2 = some pc') :
    Knows r.1 r.2.1 mount (if pc = .readTotal then 0 else stale) pc' := by
  cases hm with
  | noExpiry =>
    obtain rfl := Option.some.inj hpc
    exact knows_of_nothing rfl rfl rfl
  | expiry =>
    obtain rfl := Option.some.inj hpc
    refine ⟨fun e he => ?_, fun e he => absurd he (by simp [EvictPc.removing]),
      fun total ht => absurd ht (by simp [EvictPc.globalTotal])⟩
    exact (hasRow_of_expired hkey he).imp_right .inl
  | above =>
    obtain rfl := Option.some.inj hpc
    refine ⟨fun e he => absurd he (by simp [EvictPc.listed]),
      fun e he => absurd he (by simp [EvictPc.removing]), fun total ht => ?_⟩
    rw [if_pos rfl]
    exact (Option.some.inj ht).symm
  | below | fits => exact absurd hpc (by simp)
  | needs pendingBytes need =>
    obtain rfl := Option.some.inj hpc
    exact knows_of_nothing rfl rfl rfl
  | list goal =>
    obtain rfl := Option.some.inj hpc
    rw [if_neg (by simp)]
    refine ⟨fun e he => (hasRow_of_candidate hkey he).imp_right .inl,
      fun e he => absurd he (by simp [EvictPc.removing]), fun total ht => hk.total total ?_⟩
    rw [globalTotal_loop ht]
    rfl
  | ended goal rest =>
    obtain rfl := afterLoop_eq_some hpc
    exact knows_of_nothing rfl rfl rfl
  | failed goal e rest =>
    obtain rfl := Option.some.inj hpc
    rw [if_neg (by simp)]
    refine ⟨fun e' he => hk.listed e' (List.mem_cons_of_mem e he),
      fun e' he => absurd he (by simp [EvictPc.removing]), fun total ht => hk.total total ?_⟩
    rw [globalTotal_loop ht]
    rfl
  | @deleted goal p n rest dir' hmet hdir =>
    obtain rfl := Option.some.inj hpc
    rw [if_neg (by simp)]
    obtain ⟨⟨i, hi⟩, hfile⟩ := fileAt_of_tryRemove hdir
    have hgone : ∀ q, dir.fileAt q = none → dir'.fileAt q = none := by
      intro q hq
      rw [hfile, hq]
      split <;> rfl
    obtain ⟨hcanon, hrow⟩ := hk.listed (p, n) List.mem_cons_self
    refine ⟨fun e he => ?_, fun e he => ?_, fun total ht => hk.total total ?_⟩
    · exact (hk.deleted hgone).listed e (List.mem_cons_of_mem _ he)
    · obtain rfl := Option.some.inj he
      -- the file was there, so its row is
      refine ⟨hcanon, hrow.resolve_right fun hnone => ?_, by rw [hfile, if_pos rfl]⟩
      exact absurd (hnone.symm.trans hi) (by simp)
    · cases goal with
      | size => exact ht
      | expiry | fit => exact absurd ht (by simp [EvictPc.globalTotal])
  | removed goal p n rest =>
    obtain rfl := Option.some.inj hpc
    rw [if_neg (by simp)]
    obtain ⟨hcanon, hrow, hfile⟩ := hk.removing (p, n) rfl
    refine ⟨fun e he => ?_, fun e he => absurd he (by simp [EvictPc.removing]), fun total ht => ?_⟩
    · obtain ⟨hcanon', hstate⟩ := hk.listed e he
      refine ⟨hcanon', ?_⟩
      by_cases hsame : e.1 = p
      · exact .inr (hsame ▸ hfile)
      · exact hstate.imp_left fun h => h.remove hcanon' hcanon fun hsame' => hsame hsame'.1
    · have hgoal := globalTotal_loop ht
      cases goal with
      | size total₀ =>
        have hsum := hk.total total₀ rfl
        have hless := global_remove hs hrow
        simp only [Goal.after, Goal.size.injEq] at hgoal
        show total = (db.remove p mount).totalCachedBytesGlobal + stale
        omega
      | expiry | fit => exact absurd hgoal (by simp [Goal.after])

variable {now : Nat} {ok : Bool} {r : CacheDb × CacheDir × Option EvictPc}

theorem move_dir (hm : EvictMove cfg mount db dir now ok pc r) (q : RelPath) (hq : dir.fileAt q = none) :
    r.2.1.fileAt q = none := by
  cases hm with
  | deleted hmet hdir =>
    rw [(fileAt_of_tryRemove hdir).2 q, hq]
    split <;> rfl
  | _ => exact hq

theorem move_db (hm : EvictMove cfg mount db dir now ok pc r) :
    r.1 = db ∨ ∃ e, pc.removing = some e ∧ r.1 = db.remove e.1 mount := by
  cases hm with
  | removed goal p n rest => exact .inr ⟨(p, n), rfl, rfl⟩
  | _ => exact .inl rfl

theorem move_removing (hm : EvictMove cfg mount db dir now ok pc r) {pc' : EvictPc} (hpc : r.2.2 = some pc')
    (he : pc'.removing = some e) : ∃ i, dir.fileAt e.1 = some i := by
  cases hm with
  | deleted hmet hdir =>
    obtain rfl := Option.some.inj hpc
    obtain rfl := Option.some.inj he
    exact (fileAt_of_tryRemove hdir).1
  | below | fits => exact absurd hpc (by simp)
  | ended goal rest =>
    obtain rfl := afterLoop_eq_some hpc
    exact absurd he (by simp [EvictPc.removing])
  | noExpiry | expiry | above | needs | list | failed | removed =>
    obtain rfl := Option.some.inj hpc
    exact absurd he (by simp [EvictPc.removing])

theorem thread_of_update {threads : Nat → Option (MountId × EvictPc)} {t u : Nat}
    {x : Option (MountId × EvictPc)} {y : MountId × EvictPc}
    (h : Function.update threads t x u = some y) : u = t ∧ x = some y ∨ u ≠ t ∧ threads u = some y := by
  rw [Function.update_apply] at h
  split at h
  · next hut => exact .inl ⟨hut, h⟩
  · next hut => exact .inr ⟨hut, h⟩

/-- A thread starts. -/
theorem Evicting.begun (hi : s.Evicting) {t : Nat} (hpc : Knows s.db (s.dirs mount) mount (s.stale t) pc)
    (hr : pc.removing = none) (locked : MountId → Bool) :
    Evicting { s with threads := Function.update s.threads t (some (mount, pc)), locked := locked } where
  sized := hi.sized
  keyed := hi.keyed
  knows := by
    intro u m pcu hu
    rcases thread_of_update hu with ⟨rfl, hy⟩ | ⟨-, hu⟩
    · obtain ⟨rfl, rfl⟩ := Prod.mk.inj (Option.some.inj hy)
      exact hpc
    · exact hi.knows u m pcu hu
  once := by
    have hold : ∀ u m pcu e, Function.update s.threads t (some (mount, pc)) u = some (m, pcu) →
        pcu.removing = some e → s.threads u = some (m, pcu) := by
      intro u m pcu e hu he
      rcases thread_of_update hu with ⟨-, hy⟩ | ⟨-, hu⟩
      · obtain ⟨rfl, rfl⟩ := Prod.mk.inj (Option.some.inj hy)
        exact absurd (hr.symm.trans he) (by simp)
      · exact hu
    intro u v m pcu pcv e e' hu hv he he' hp
    exact hi.once u v m pcu pcv e e' (hold u m pcu e hu he) (hold v m pcv e' hv he') he he' hp

theorem Evicting.stepped (hi : s.Evicting) {t : Nat} (ht : s.threads t = some (mount, pc))
    (hm : EvictMove cfg mount s.db (s.dirs mount) now ok pc r) (locked : MountId → Bool) :
    Evicting
      { db := r.1
        dirs := Function.update s.dirs mount r.2.1
        threads := Function.update s.threads t (r.2.2.map fun pc' => (mount, pc'))
        locked := locked
        stale := s.restale t pc r.1 } where
  sized := by
    rcases move_db hm with h | ⟨e, -, h⟩
    · exact h ▸ hi.sized
    · exact h ▸ CacheDb.sized_remove hi.sized
  keyed := by
    rcases move_db hm with h | ⟨e, -, h⟩
    · exact h ▸ hi.keyed
    · exact h ▸ keyed_remove hi.keyed
  knows := by
    intro u m pcu hu
    rcases thread_of_update hu with ⟨rfl, hy⟩ | ⟨hut, hold⟩
    · obtain ⟨pc', hpc, hy⟩ := Option.map_eq_some_iff.mp hy
      obtain ⟨rfl, rfl⟩ := Prod.mk.inj hy
      have hk := knows_step hi.sized hi.keyed (hi.knows u mount pc ht) hm hpc
      have hstale : s.restale u pc r.1 u = if pc = .readTotal then 0 else s.stale u := by
        cases pc <;> simp [restale]
      show Knows r.1 (Function.update s.dirs mount r.2.1 mount) mount (s.restale u pc r.1 u) pc'
      rw [hstale, Function.update_self]
      exact hk
    · have hk := hi.knows u m pcu hold
      have hdir : Knows s.db (Function.update s.dirs mount r.2.1 m) m (s.stale u) pcu := by
        by_cases hmm : m = mount
        · subst hmm
          rw [Function.update_self]
          exact hk.deleted (move_dir hm)
        · rw [Function.update_of_ne hmm]
          exact hk
      have hstale : s.restale t pc r.1 u =
          s.stale u + (s.db.totalCachedBytesGlobal - r.1.totalCachedBytesGlobal) := if_neg hut
      show Knows r.1 (Function.update s.dirs mount r.2.1 m) m (s.restale t pc r.1 u) pcu
      rw [hstale]
      rcases move_db hm with h | ⟨e, he, h⟩
      · rw [h, Nat.sub_self, Nat.add_zero]
        exact hdir
      · obtain ⟨hcanon, hrow, hfile⟩ := (hi.knows t mount pc ht).removing e he
        rw [h]
        refine hdir.removed hi.sized hcanon hrow ?_ fun e' he' hsame => ?_
        · intro hmm
          subst hmm
          rw [Function.update_self]
          exact move_dir hm e.1 hfile
        · obtain ⟨hp, rfl⟩ := hsame
          exact hut (hi.once u t m pcu pc e' e hold ht he' he hp)
  once := by
    -- the file that `t` deletes now is there, and those of the removing threads are not
    have hnew : ∀ u pc' pcu e e', r.2.2 = some pc' → s.threads u = some (mount, pcu) →
        pc'.removing = some e → pcu.removing = some e' → e.1 ≠ e'.1 := by
      intro u pc' pcu e e' hpc hu he he' hp
      obtain ⟨i, hi'⟩ := move_removing hm hpc he
      obtain ⟨-, -, hfile⟩ := (hi.knows u mount pcu hu).removing e' he'
      rw [hp] at hi'
      exact absurd (hfile.symm.trans hi') (by simp)
    intro u v m pcu pcv e e' hu hv he he' hp
    rcases thread_of_update hu with ⟨rfl, hyu⟩ | ⟨hut, hold⟩
    · rcases thread_of_update hv with ⟨rfl, -⟩ | ⟨-, hold⟩
      · rfl
      · obtain ⟨pc', hpc, hyu⟩ := Option.map_eq_some_iff.mp hyu
        obtain ⟨rfl, rfl⟩ := Prod.mk.inj hyu
        exact absurd hp (hnew v pc' pcv e e' hpc hold he he')
    · rcases thread_of_update hv with ⟨rfl, hyv⟩ | ⟨-, hold'⟩
      · obtain ⟨pc', hpc, hyv⟩ := Option.map_eq_some_iff.mp hyv
        obtain ⟨rfl, rfl⟩ := Prod.mk.inj hyv
        exact absurd hp.symm (hnew u pc' pcu e' e hpc hold he' he)
      · exact hi.once u v m pcu pcv e e' hold hold' he he' hp

theorem Evicting.step (hi : s.Evicting) (hs : step cfg s a = some s') : s'.Evicting := by
  cases a with
  | ifNeeded t mount =>
    simp only [Evictors.step] at hs
    split at hs
    · exact absurd hs (by simp)
    · obtain rfl := Option.some.inj hs
      exact hi.begun (knows_of_nothing rfl rfl rfl) rfl s.locked
  | toFit t mount pendingBytes =>
    simp only [Evictors.step] at hs
    split at hs
    · exact absurd hs (by simp)
    · obtain rfl := Option.some.inj hs
      exact hi.begun (knows_of_nothing rfl rfl rfl) rfl _
  | step t now ok =>
    simp only [Evictors.step] at hs
    split at hs
    · exact absurd hs (by simp)
    · next mount pc ht =>
      obtain rfl := Option.some.inj hs
      exact hi.stepped ht (evictMove cfg mount s.db (s.dirs mount) now ok pc) _

theorem evicting_start {dirs : MountId → CacheDir} (hs : db.Sized) (hk : Keyed db) : (start db dirs).Evicting where
  sized := hs
  keyed := hk
  knows := fun t mount pc ht => absurd ht (by simp [start])
  once := fun t u mount pc pc' e e' ht => absurd ht (by simp [start])

theorem thread_of_deletes {t total : Nat} (h : s.deletesForSize cfg t now ok = some total) :
    ∃ mount rest, s.threads t = some (mount, .loop (.size total) rest) := by
  unfold deletesForSize at h
  split at h
  · next ht =>
    split at h
    · obtain rfl := Option.some.inj h
      exact ⟨_, _, ht⟩
    · exact absurd h (by simp)
  · exact absurd h (by simp)

/-- The sum is above the cap exactly when the total is recent enough. -/
theorem sumIsOver_iff (hi : s.Evicting) (a : EvictAction) : SumIsOver cfg s a ↔ TotalIsRecent cfg s a := by
  cases a with
  | ifNeeded | toFit => exact Iff.rfl
  | step t now ok =>
    refine forall_congr' fun total => imp_congr_right fun hdel => ?_
    obtain ⟨mount, rest, ht⟩ := thread_of_deletes hdel
    have htotal := (hi.knows t mount _ ht).total total rfl
    omega

/-- In every run, `evict_if_needed` deletes an unexpired file for size only while the sum is above the
cap, exactly if its own total is then above the cap by more than the others have removed. -/
theorem sum_is_over_iff (cfg : EvictConfig) {db : CacheDb} (hs : db.Sized) (hk : Keyed db)
    (dirs : MountId → CacheDir) (as : List EvictAction) :
    Along (step cfg) (SumIsOver cfg) (start db dirs) as ↔
      Along (step cfg) (TotalIsRecent cfg) (start db dirs) as :=
  along_congr Evicting (fun _ _ _ hi _ hs => hi.step hs) (fun _ a hi => sumIsOver_iff hi a)
    (evicting_start hs hk)

section TwoMounts

private def left : MountId := [108]
private def right : MountId := [114]
private def clip : RelPath := [⟨[99], Eq.refl true⟩]

private def clipSource : SourceMetadata := ⟨60, 1, 1, 0, 1, 0, 1, 0, 0o100644, 1, 0, 0, 0, 4096⟩

def oneClip : CacheDir := ((Files.openTrunc Files.empty clip).map Prod.fst).getD Files.empty

/-- Each mount has a file of 60 bytes. -/
def twoClips : CacheDb :=
  (CacheDb.markCached ⟨∅, ∅⟩ clip left clipSource 1).markCached clip right clipSource 2

/-- A cap of 100 bytes, and no expiry. -/
def hundred : EvictConfig := ⟨100, fun _ => 0⟩

theorem twoClips_sized : twoClips.Sized := by
  refine CacheDb.sized_markCached (CacheDb.sized_markCached ?_ (by decide) 1) (by decide) 2
  intro key row h
  exact absurd h (by simp)

theorem twoClips_keyed : Keyed twoClips := by
  have hkeys : ∀ key ∈ twoClips.cacheFiles.keys, key.1 = rowKey clip := by decide
  intro key row h
  exact ⟨clip, hkeys key (Map.mem_keys_iff.mpr ⟨row, h⟩)⟩

/-- One mount makes room, and then the other looks. -/
def oneByOne : List EvictAction :=
  [.ifNeeded 1 left, .step 1 9 true, .step 1 9 true, .step 1 9 true, .step 1 9 true, .step 1 9 true,
    .step 1 9 true, .ifNeeded 2 right, .step 2 9 true, .step 2 9 true]

theorem one_by_one_over : Along (step hundred) (SumIsOver hundred) (start twoClips fun _ => oneClip) oneByOne :=
  (sum_is_over_iff hundred twoClips_sized twoClips_keyed (fun _ => oneClip) oneByOne).mpr (by decide)

/-- Both read the sum before either has removed a row; the second deletes its file when the sum is
within the cap. -/
theorem mounts_over_evict : ¬ Along (step hundred) (SumIsOver hundred) (start twoClips fun _ => oneClip)
    [.ifNeeded 1 left, .ifNeeded 2 right, .step 1 9 true, .step 2 9 true, .step 1 9 true, .step 2 9 true,
      .step 1 9 true, .step 2 9 true, .step 1 9 true, .step 1 9 true, .step 2 9 true] := by
  intro h
  have hlast := ((((((((((h.2 _ rfl).2 _ rfl).2 _ rfl).2 _ rfl).2 _ rfl).2 _ rfl).2 _ rfl).2 _ rfl).2 _ rfl).2 _
    rfl).1
  exact absurd (hlast 120 (by decide)) (by decide)

end TwoMounts

end Evictors

end FsCache
