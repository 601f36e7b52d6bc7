import FsCache.EvictPass

/- Which files go first (cache/manager.rs, cache/db.rs, ipc/server.rs).

   A cached file is used when it is committed, when an open is served from it, and when its lease is
   refreshed from the dashboard. Each of these sets `last_hit_at`, and eviction goes by it; but a thread
   asks for it once, and goes through the answer while the others go on. So a use counts for a pass
   exactly if it comes before the pass has asked.

   `oldest_first`: in every run of any number of threads of `evict_if_needed` and `evict_to_fit`, among
   uses and all that else is done to rows and files, a file that is deleted for its age had not been used
   for longer than the expiry when its pass asked; and when one is deleted for size, every file of the
   mount that its pass has not tried before had then been used as late, or later.

   `uses`, `asked` and `tried` are what has happened, what a thread was answered from, and what it has
   tried since; nothing reads them. The clock does not go back, and is not behind a time that the table
   has when the run begins.

   Correspondence (Rust ↔ Lean):
     `mark_cached`, `mark_hit`                  ↔ `RecencyAction.markCached`, `markHit`
     `RefreshLease` in `handle_client`          ↔ `RecencyAction.refreshLease`
     `evict_if_needed`, `evict_to_fit`          ↔ `Evictors.step`
     a query of the two                         ↔ `Asked`, `listing` -/

namespace FsCache
open Lib Evictors

structure Use where
  row : RowKey × MountId
  time : Nat
  deriving DecidableEq

/-- What a query is answered from. -/
structure Asked where
  now : Nat
  uses : List Use
  db : CacheDb

structure Recency where
  evictors : Evictors
  now : Nat
  uses : List Use
  asked : Nat → Asked
  tried : Nat → List RelPath

inductive RecencyAction where
  | advance (secs : Nat)
  | ifNeeded (t : Nat) (mount : MountId)
  | toFit (t : Nat) (mount : MountId) (pendingBytes : Nat)
  | step (t : Nat) (ok : Bool)
  | markCached (p : RelPath) (mount : MountId) (source : SourceMetadata)
  | markHit (p : RelPath) (mount : MountId)
  | refreshLease (targets : List (RelPath × MountId))
  | updateSourceMetadata (p : RelPath) (mount : MountId) (source : SourceMetadata)
  | remove (p : RelPath) (mount : MountId)
  | files (dirs' : MountId → CacheDir)

namespace Recency

def start (db : CacheDb) (dirs : MountId → CacheDir) (now : Nat) : Recency where
  evictors := Evictors.start db dirs
  now := now
  uses := []
  asked := fun _ => ⟨now, [], db⟩
  tried := fun _ => []

def withDb (s : Recency) (db : CacheDb) : Recency := { s with evictors := { s.evictors with db := db } }

def used (s : Recency) (rows : List (RowKey × MountId)) : Recency :=
  { s with uses := rows.foldl (fun uses row => ⟨row, s.now⟩ :: uses) s.uses }

/-- What thread `t` asks for, or tries, in its next step. -/
def noted (cfg : EvictConfig) (s : Recency) (t : Nat) : Recency :=
  match s.evictors.threads t with
  | some (_, .begin) | some (_, .list _) =>
    { s with
      asked := Function.update s.asked t ⟨s.now, s.uses, s.evictors.db⟩
      tried := Function.update s.tried t [] }
  | some (_, .loop goal ((p, _) :: _)) =>
    if goal.met cfg.maxSizeBytes then s else { s with tried := Function.update s.tried t (s.tried t ++ [p]) }
  | _ => s

def step (cfg : EvictConfig) (s : Recency) : RecencyAction → Option Recency
  | .advance secs => some { s with now := s.now + secs }
  | .ifNeeded t mount => (s.evictors.step cfg (.ifNeeded t mount)).map fun e => { s with evictors := e }
  | .toFit t mount pendingBytes =>
    (s.evictors.step cfg (.toFit t mount pendingBytes)).map fun e => { s with evictors := e }
  | .step t ok => (s.evictors.step cfg (.step t s.now ok)).map fun e => { s.noted cfg t with evictors := e }
  | .markCached p mount source =>
    some ((s.used [(rowKey p, mount)]).withDb (s.evictors.db.markCached p mount source s.now))
  | .markHit p mount => some ((s.used [(rowKey p, mount)]).withDb (s.evictors.db.markHit p mount s.now))
  | .refreshLease targets =>
    some ((s.used (targets.map fun target => (rowKey target.1, target.2))).withDb
      (targets.foldl (fun db target => db.markHit target.1 target.2 s.now) s.evictors.db))
  | .updateSourceMetadata p mount source => some (s.withDb (s.evictors.db.updateSourceMetadata p mount source))
  | .remove p mount => some (s.withDb (s.evictors.db.remove p mount))
  | .files dirs' => some { s with evictors := { s.evictors with dirs := dirs' } }

/-- The file that thread `t` deletes in its next step, and why. -/
def deletes (cfg : EvictConfig) (s : Recency) (t : Nat) (ok : Bool) : Option (MountId × Goal × RelPath) :=
  match s.evictors.threads t with
  | some (mount, .loop goal ((p, _) :: _)) =>
    if goal.met cfg.maxSizeBytes = false ∧ (tryRemove (s.evictors.dirs mount) p ok).isSome = true then
      some (mount, goal, p)
    else none
  | _ => none

end Recency

/-! ## What `last_hit_at` tells of the uses -/

/-- It is that of the last use, or from before the start. -/
structure Tells (begun now : Nat) (uses : List Use) (db : CacheDb) : Prop where
  keyed : Keyed db
  past : ∀ u ∈ uses, u.time ≤ now
  latest : ∀ u ∈ uses, ∀ row, db.cacheFiles.lookup u.row = some row → (u.time : Int) ≤ row.lastHitAt
  used : ∀ key row, db.cacheFiles.lookup key = some row →
    row.lastHitAt ≤ begun ∨ ∃ u ∈ uses, u.row = key ∧ row.lastHitAt = u.time

namespace Tells

variable {begun now : Nat} {uses : List Use} {db db' : CacheDb} {p : RelPath} {mount : MountId}

theorem advance (h : Tells begun now uses db) (secs : Nat) : Tells begun (now + secs) uses db where
  keyed := h.keyed
  past u hu := Nat.le_add_right_of_le (h.past u hu)
  latest := h.latest
  used := h.used

/-- Rows may go, and the others keep their times. -/
theorem kept (h : Tells begun now uses db)
    (hdb : ∀ key row, db'.cacheFiles.lookup key = some row →
      ∃ old, db.cacheFiles.lookup key = some old ∧ old.lastHitAt = row.lastHitAt) :
    Tells begun now uses db' where
  keyed key row hrow := by
    obtain ⟨old, hold, _⟩ := hdb key row hrow
    exact h.keyed key old hold
  past := h.past
  latest u hu row hrow := by
    obtain ⟨old, hold, htime⟩ := hdb u.row row hrow
    exact htime ▸ h.latest u hu old hold
  used key row hrow := by
    obtain ⟨old, hold, htime⟩ := hdb key row hrow
    exact htime ▸ h.used key old hold

/-- A use: the row, if there is one, has its time. -/
theorem use (h : Tells begun now uses db)
    (hdb : ∀ key row, db'.cacheFiles.lookup key = some row →
      key = (rowKey p, mount) ∧ row.lastHitAt = now ∨
        key ≠ (rowKey p, mount) ∧ db.cacheFiles.lookup key = some row) :
    Tells begun now (⟨(rowKey p, mount), now⟩ :: uses) db' where
  keyed key row hrow := by
    rcases hdb key row hrow with hset | hold
    · exact ⟨p, congrArg Prod.fst hset.1⟩
    · exact h.keyed key row hold.2
  past u hu := by
    rcases List.mem_cons.mp hu with rfl | hu
    · exact Nat.le_refl _
    · exact h.past u hu
  latest u hu row hrow := by
    rcases hdb u.row row hrow with hset | hold
    · rw [hset.2]
      rcases List.mem_cons.mp hu with rfl | hu
      · exact Int.le_refl _
      · exact Int.ofNat_le.mpr (h.past u hu)
    · rcases List.mem_cons.mp hu with rfl | hu
      · exact absurd rfl hold.1
      · exact h.latest u hu row hold.2
  used key row hrow := by
    rcases hdb key row hrow with hset | hold
    · exact .inr ⟨⟨(rowKey p, mount), now⟩, List.mem_cons_self, hset.1.symm, hset.2⟩
    · rcases h.used key row hold.2 with hbefore | ⟨u, hu, hkey, htime⟩
      · exact .inl hbefore
      · exact .inr ⟨u, List.mem_cons_of_mem _ hu, hkey, htime⟩

end Tells

section Rows

variable {begun now : Nat} {uses : List Use} {db : CacheDb} {p : RelPath} {mount : MountId}

theorem lookup_updateRow (f : Row → Row) (key : RowKey × MountId) :
    (db.updateRow p mount f).cacheFiles.lookup key =
      if key = (rowKey p, mount) then (db.cacheFiles.lookup key).map f else db.cacheFiles.lookup key := by
  cases hrow : db.cacheFiles.lookup (rowKey p, mount) with
  | none =>
    -- an UPDATE that meets no row
    have hsame : db.updateRow p mount f = db := by
      rw [CacheDb.updateRow, CacheDb.row, hrow]
    rw [hsame]
    split
    · next hkey =>
      rw [hkey, hrow]
      rfl
    · rfl
  | some row =>
    rw [CacheDb.updateRow, CacheDb.row, hrow]
    show (db.cacheFiles.insert (rowKey p, mount) (f row)).lookup key = _
    rw [Map.lookup_insert_if]
    split
    · next hkey => rw [hkey, hrow, Option.map_some]
    · rfl

theorem tells_markCached (h : Tells begun now uses db) (hnow : now < 2^63) (source : SourceMetadata) :
    Tells begun now (⟨(rowKey p, mount), now⟩ :: uses) (db.markCached p mount source now) := by
  apply h.use
  intro key row hrow
  rw [CacheDb.markCached, Map.lookup_insert_if] at hrow
  split at hrow
  · next hkey =>
    obtain rfl := Option.some.inj hrow
    exact .inl ⟨hkey, asI64_of_lt hnow⟩
  · next hkey => exact .inr ⟨hkey, hrow⟩

theorem tells_markHit (h : Tells begun now uses db) (hnow : now < 2^63) :
    Tells begun now (⟨(rowKey p, mount), now⟩ :: uses) (db.markHit p mount now) := by
  apply h.use
  intro key row hrow
  rw [CacheDb.markHit, lookup_updateRow] at hrow
  split at hrow
  · next hkey =>
    obtain ⟨old, _, rfl⟩ := Option.map_eq_some_iff.mp hrow
    exact .inl ⟨hkey, asI64_of_lt hnow⟩
  · next hkey => exact .inr ⟨hkey, hrow⟩

theorem tells_refreshLease (h : Tells begun now uses db) (hnow : now < 2^63) (targets : List (RelPath × MountId)) :
    Tells begun now
      ((targets.map fun target => (rowKey target.1, target.2)).foldl (fun uses row => ⟨row, now⟩ :: uses) uses)
      (targets.foldl (fun db target => db.markHit target.1 target.2 now) db) := by
  induction targets generalizing uses db with
  | nil => exact h
  | cons target targets ih => exact ih (tells_markHit h hnow)

theorem tells_updateSourceMetadata (h : Tells begun now uses db) (source : SourceMetadata) :
    Tells begun now uses (db.updateSourceMetadata p mount source) := by
  apply h.kept
  intro key row hrow
  rw [CacheDb.updateSourceMetadata, lookup_updateRow] at hrow
  split at hrow
  · obtain ⟨old, hold, rfl⟩ := Option.map_eq_some_iff.mp hrow
    exact ⟨old, hold, rfl⟩
  · exact ⟨row, hrow, rfl⟩

theorem tells_remove (h : Tells begun now uses db) : Tells begun now uses (db.remove p mount) := by
  apply h.kept
  intro key row hrow
  rw [CacheDb.remove, Map.lookup_erase_if] at hrow
  split at hrow
  · exact absurd hrow (by simp)
  · exact ⟨row, hrow, rfl⟩

end Rows

/-! ## What a thread goes through -/

/-- Why it deletes, and what it has not come to. -/
def EvictPc.going : EvictPc → Option (Goal × List (RelPath × Nat))
  | .loop goal rest | .remove goal _ _ rest => some (goal, rest)
  | .begin | .readTotal | .fit _ | .list _ => none

/-- The answer to the query. -/
def listing (cfg : EvictConfig) (mount : MountId) (a : Asked) : Goal → List (RelPath × Nat)
  | .expiry => expiredFiles a.db mount (cfg.expirySecs mount) a.now
  | .size _ | .fit .. => evictionCandidates a.db mount

theorem listing_after (cfg : EvictConfig) (mount : MountId) (a : Asked) (goal : Goal) (size : Nat) :
    listing cfg mount a (goal.after size) = listing cfg mount a goal := by
  cases goal with
  | expiry | size total | fit need freed => rfl

theorem listing_of_ne {cfg : EvictConfig} {mount : MountId} {a : Asked} {goal : Goal} (h : goal ≠ .expiry) :
    listing cfg mount a goal = evictionCandidates a.db mount := by
  cases goal with
  | expiry => exact absurd rfl h
  | size total | fit need freed => rfl

theorem going_afterLoop {goal : Goal} {pc : EvictPc} (h : EvictPc.afterLoop goal = some pc) : pc.going = none := by
  rw [afterLoop_eq_some h]
  rfl

theorem not_list_afterLoop {goal goal' : Goal} {pc : EvictPc} (h : EvictPc.afterLoop goal = some pc) :
    pc ≠ .list goal' := by
  rw [afterLoop_eq_some h]
  simp

/-- What a thread has tried and what it has not come to are the answer it was given. -/
structure Answered (cfg : EvictConfig) (begun now : Nat) (a : Asked) (tried : List RelPath) (mount : MountId)
    (pc : EvictPc) : Prop where
  tells : ∀ goal rest, pc.going = some (goal, rest) → Tells begun a.now a.uses a.db
  before : ∀ goal rest, pc.going = some (goal, rest) → a.now ≤ now
  answer : ∀ goal rest, pc.going = some (goal, rest) →
    tried ++ rest.map Prod.fst = (listing cfg mount a goal).map Prod.fst
  forSize : ∀ goal, pc = .list goal → goal ≠ .expiry

namespace Recency

variable {cfg : EvictConfig} {begun : Nat} {s s' : Recency} {t : Nat} {mount : MountId} {pc pc' : EvictPc}

structure Kept (cfg : EvictConfig) (begun : Nat) (s : Recency) : Prop where
  tells : Tells begun s.now s.uses s.evictors.db
  threads : ∀ t mount pc, s.evictors.threads t = some (mount, pc) →
    Answered cfg begun s.now (s.asked t) (s.tried t) mount pc

/-- A thread that has been answered nothing. -/
theorem answered_of_nothing {a : Asked} {tried : List RelPath} (hgoing : pc.going = none)
    (hlist : ∀ goal, pc = .list goal → goal ≠ .expiry) : Answered cfg begun s.now a tried mount pc where
  tells goal rest h := absurd (hgoing.symm.trans h) (by simp)
  before goal rest h := absurd (hgoing.symm.trans h) (by simp)
  answer goal rest h := absurd (hgoing.symm.trans h) (by simp)
  forSize := hlist

/-- A thread that asks. -/
theorem noted_asks (hpc : s.evictors.threads t = some (mount, pc)) (hasks : pc = .begin ∨ ∃ goal, pc = .list goal) :
    (s.noted cfg t).asked t = ⟨s.now, s.uses, s.evictors.db⟩ ∧ (s.noted cfg t).tried t = [] := by
  rw [noted, hpc]
  rcases hasks with rfl | ⟨goal, rfl⟩
  · exact ⟨Function.update_self .., Function.update_self ..⟩
  · exact ⟨Function.update_self .., Function.update_self ..⟩

/-- What it goes through then is what the table answers now. -/
theorem answered_asks (h : Kept cfg begun s) {goal : Goal} {rest : List (RelPath × Nat)}
    (hrest : rest = listing cfg mount ⟨s.now, s.uses, s.evictors.db⟩ goal) :
    Answered cfg begun s.now ⟨s.now, s.uses, s.evictors.db⟩ [] mount (.loop goal rest) where
  tells _ _ _ := h.tells
  before _ _ _ := Nat.le_refl _
  answer goal' rest' hgoing := by
    obtain ⟨rfl, rfl⟩ := Prod.mk.inj (Option.some.inj hgoing)
    rw [hrest]
    rfl
  forSize := by simp

/-- The file at the head is tried, whether or not it can be deleted. -/
theorem answered_tries {a : Asked} {tried : List RelPath} {now : Nat} {goal : Goal} {p : RelPath} {n : Nat}
    {rest : List (RelPath × Nat)} (h : Answered cfg begun now a tried mount (.loop goal ((p, n) :: rest)))
    (hgoing : pc'.going = some (goal, rest)) (hlist : ∀ goal', pc' ≠ .list goal') :
    Answered cfg begun now a (tried ++ [p]) mount pc' where
  tells _ _ _ := h.tells goal _ rfl
  before _ _ _ := h.before goal _ rfl
  answer goal' rest' hgoing' := by
    obtain ⟨rfl, rfl⟩ := Prod.mk.inj (Option.some.inj (hgoing.symm.trans hgoing'))
    rw [List.append_assoc]
    exact h.answer goal _ rfl
  forSize goal' hgoal := absurd hgoal (hlist goal')

/-- The thread's own step. -/
theorem answered_step (h : Kept cfg begun s) (hpc : s.evictors.threads t = some (mount, pc)) {ok : Bool}
    (hnext : (evictStep cfg mount s.evictors.db (s.evictors.dirs mount) s.now ok pc).2.2 = some pc') :
    Answered cfg begun s.now ((s.noted cfg t).asked t) ((s.noted cfg t).tried t) mount pc' := by
  have hans := h.threads t mount pc hpc
  cases pc with
  | begin =>
    obtain ⟨hasked, htried⟩ := noted_asks hpc (.inl rfl)
    rw [hasked, htried]
    simp only [evictStep] at hnext
    split at hnext
    · obtain rfl := Option.some.inj hnext
      exact answered_of_nothing rfl (by simp)
    · obtain rfl := Option.some.inj hnext
      exact answered_asks h rfl
  | readTotal =>
    simp only [evictStep] at hnext
    split at hnext
    · obtain rfl := Option.some.inj hnext
      refine answered_of_nothing rfl fun goal hgoal => ?_
      rw [← EvictPc.list.inj hgoal]
      simp
    · exact absurd hnext (by simp)
  | fit pendingBytes =>
    simp only [evictStep] at hnext
    split at hnext
    · exact absurd hnext (by simp)
    · obtain rfl := Option.some.inj hnext
      refine answered_of_nothing rfl fun goal hgoal => ?_
      rw [← EvictPc.list.inj hgoal]
      simp
  | list goal =>
    obtain ⟨hasked, htried⟩ := noted_asks hpc (.inr ⟨goal, rfl⟩)
    rw [hasked, htried]
    obtain rfl := Option.some.inj hnext
    have hlisting : listing cfg mount ⟨s.now, s.uses, s.evictors.db⟩ goal = evictionCandidates s.evictors.db mount :=
      listing_of_ne (hans.forSize goal rfl)
    exact answered_asks h hlisting.symm
  | loop goal rest =>
    cases rest with
    | nil => exact answered_of_nothing (going_afterLoop hnext) fun goal' hlist => absurd hlist (not_list_afterLoop hnext)
    | cons e rest =>
      obtain ⟨p, n⟩ := e
      simp only [evictStep] at hnext
      split at hnext
      · -- the loop breaks before the file is tried
        exact answered_of_nothing (going_afterLoop hnext) fun goal' hlist => absurd hlist (not_list_afterLoop hnext)
      · next hmet =>
        have hnoted : s.noted cfg t = { s with tried := Function.update s.tried t (s.tried t ++ [p]) } := by
          rw [noted, hpc]
          exact if_neg hmet
        rw [hnoted]
        show Answered cfg begun s.now (s.asked t) (Function.update s.tried t (s.tried t ++ [p]) t) mount pc'
        rw [Function.update_self]
        split at hnext
        · obtain rfl := Option.some.inj hnext
          exact answered_tries hans rfl (by simp)
        · obtain rfl := Option.some.inj hnext
          exact answered_tries hans rfl (by simp)
  | remove goal p n rest =>
    have hnoted : s.noted cfg t = s := by
      rw [noted, hpc]
    rw [hnoted]
    obtain rfl := Option.some.inj hnext
    refine ⟨fun _ _ _ => hans.tells goal rest rfl, fun _ _ _ => hans.before goal rest rfl, ?_, by simp⟩
    intro goal' rest' hgoing
    obtain ⟨rfl, rfl⟩ := Prod.mk.inj (Option.some.inj hgoing)
    rw [listing_after]
    exact hans.answer goal rest rfl

/-- Rows and files change, and time goes on, and the threads stay where they are. -/
theorem Kept.apart (h : Kept cfg begun s) (htells : Tells begun s'.now s'.uses s'.evictors.db)
    (hthreads : s'.evictors.threads = s.evictors.threads) (hasked : s'.asked = s.asked) (htried : s'.tried = s.tried)
    (hnow : s.now ≤ s'.now) : Kept cfg begun s' where
  tells := htells
  threads t mount pc hpc := by
    rw [hthreads] at hpc
    rw [hasked, htried]
    have hans := h.threads t mount pc hpc
    exact ⟨hans.tells, fun goal rest hgoing => Nat.le_trans (hans.before goal rest hgoing) hnow, hans.answer,
      hans.forSize⟩

/-- A thread begins. -/
theorem Kept.begins (h : Kept cfg begun s) {e : Evictors} (hdb : e.db = s.evictors.db)
    (hthreads : e.threads = Function.update s.evictors.threads t (some (mount, pc))) (hgoing : pc.going = none)
    (hlist : ∀ goal, pc ≠ .list goal) : Kept cfg begun { s with evictors := e } where
  tells := hdb ▸ h.tells
  threads u m pc' hpc := by
    rw [hthreads, Function.update_apply] at hpc
    split at hpc
    · obtain ⟨rfl, rfl⟩ := Prod.mk.inj (Option.some.inj hpc)
      exact answered_of_nothing hgoing fun goal hgoal => absurd hgoal (hlist goal)
    · exact h.threads u m pc' hpc

theorem noted_now (cfg : EvictConfig) (s : Recency) (t : Nat) :
    (s.noted cfg t).now = s.now ∧ (s.noted cfg t).uses = s.uses := by
  rw [noted]
  split
  · exact ⟨rfl, rfl⟩
  · exact ⟨rfl, rfl⟩
  · split
    · exact ⟨rfl, rfl⟩
    · exact ⟨rfl, rfl⟩
  · exact ⟨rfl, rfl⟩

/-- Another thread's notes are its own. -/
theorem noted_of_ne (cfg : EvictConfig) (s : Recency) {u : Nat} (hne : u ≠ t) :
    (s.noted cfg t).asked u = s.asked u ∧ (s.noted cfg t).tried u = s.tried u := by
  rw [noted]
  split
  · exact ⟨Function.update_of_ne hne .., Function.update_of_ne hne ..⟩
  · exact ⟨Function.update_of_ne hne .., Function.update_of_ne hne ..⟩
  · split
    · exact ⟨rfl, rfl⟩
    · exact ⟨rfl, Function.update_of_ne hne ..⟩
  · exact ⟨rfl, rfl⟩

theorem tells_evictMove {db : CacheDb} {dir : CacheDir} {now : Nat} {uses : List Use} {ok : Bool}
    {r : CacheDb × CacheDir × Option EvictPc} (h : Tells begun now uses db)
    (hm : EvictMove cfg mount db dir now ok pc r) : Tells begun now uses r.1 := by
  cases hm with
  | removed goal p n rest => exact tells_remove h
  | noExpiry | expiry | above | below | fits | needs | list | ended | failed | deleted => exact h

theorem kept_step (h : Kept cfg begun s) (hnow : s.now < 2^63) {a : RecencyAction} (hs : step cfg s a = some s') :
    Kept cfg begun s' := by
  cases a with
  | advance secs =>
    obtain rfl := Option.some.inj hs
    exact h.apart (h.tells.advance secs) rfl rfl rfl (Nat.le_add_right _ _)
  | ifNeeded t mount =>
    obtain ⟨e, he, rfl⟩ := Option.map_eq_some_iff.mp hs
    simp only [Evictors.step] at he
    split at he
    · exact absurd he (by simp)
    · obtain rfl := Option.some.inj he
      exact h.begins rfl rfl rfl (by simp)
  | toFit t mount pendingBytes =>
    obtain ⟨e, he, rfl⟩ := Option.map_eq_some_iff.mp hs
    simp only [Evictors.step] at he
    split at he
    · exact absurd he (by simp)
    · obtain rfl := Option.some.inj he
      exact h.begins rfl rfl rfl (by simp)
  | step t ok =>
    obtain ⟨e, he, rfl⟩ := Option.map_eq_some_iff.mp hs
    simp only [Evictors.step] at he
    split at he
    · exact absurd he (by simp)
    · next mount pc hpc =>
      obtain rfl := Option.some.inj he
      have hclock := noted_now cfg s t
      refine ⟨?_, fun u m pc' hpc' => ?_⟩
      · show Tells begun (s.noted cfg t).now (s.noted cfg t).uses _
        rw [hclock.1, hclock.2]
        exact tells_evictMove h.tells (evictMove cfg mount s.evictors.db (s.evictors.dirs mount) s.now ok pc)
      · -- what thread `t` notes is its own
        show Answered cfg begun (s.noted cfg t).now ((s.noted cfg t).asked u) ((s.noted cfg t).tried u) m pc'
        rw [hclock.1]
        have hthreads : Function.update s.evictors.threads t ((evictStep cfg mount s.evictors.db
            (s.evictors.dirs mount) s.now ok pc).2.2.map fun pc' => (mount, pc')) u = some (m, pc') := hpc'
        rw [Function.update_apply] at hthreads
        split at hthreads
        · next hu =>
          obtain ⟨next, hnext, heq⟩ := Option.map_eq_some_iff.mp hthreads
          obtain ⟨rfl, rfl⟩ := Prod.mk.inj heq
          rw [hu]
          exact answered_step h hpc hnext
        · next hu =>
          have hother := noted_of_ne cfg s hu
          rw [hother.1, hother.2]
          exact h.threads u m pc' hthreads
  | markCached p mount source =>
    obtain rfl := Option.some.inj hs
    exact h.apart (tells_markCached h.tells hnow source) rfl rfl rfl (Nat.le_refl _)
  | markHit p mount =>
    obtain rfl := Option.some.inj hs
    exact h.apart (tells_markHit h.tells hnow) rfl rfl rfl (Nat.le_refl _)
  | refreshLease targets =>
    obtain rfl := Option.some.inj hs
    exact h.apart (tells_refreshLease h.tells hnow targets) rfl rfl rfl (Nat.le_refl _)
  | updateSourceMetadata p mount source =>
    obtain rfl := Option.some.inj hs
    exact h.apart (tells_updateSourceMetadata h.tells source) rfl rfl rfl (Nat.le_refl _)
  | remove p mount =>
    obtain rfl := Option.some.inj hs
    exact h.apart (tells_remove h.tells) rfl rfl rfl (Nat.le_refl _)
  | files dirs' =>
    obtain rfl := Option.some.inj hs
    exact h.apart h.tells rfl rfl rfl (Nat.le_refl _)

theorem now_le_step {a : RecencyAction} (hs : step cfg s a = some s') : s.now ≤ s'.now := by
  cases a with
  | advance secs =>
    obtain rfl := Option.some.inj hs
    exact Nat.le_add_right _ _
  | ifNeeded t mount | toFit t mount pendingBytes =>
    obtain ⟨e, _, rfl⟩ := Option.map_eq_some_iff.mp hs
    exact Nat.le_refl _
  | step t ok =>
    obtain ⟨e, _, rfl⟩ := Option.map_eq_some_iff.mp hs
    exact Nat.le_of_eq (noted_now cfg s t).1.symm
  | markCached | markHit | refreshLease | updateSourceMetadata | remove | files =>
    obtain rfl := Option.some.inj hs
    exact Nat.le_refl _

theorem kept_start {db : CacheDb} (hk : Keyed db)
    (hbefore : ∀ key row, db.cacheFiles.lookup key = some row → row.lastHitAt ≤ begun)
    (dirs' : MountId → CacheDir) : Kept cfg begun (start db dirs' begun) where
  tells := ⟨hk, fun _ hu => absurd hu List.not_mem_nil, fun _ hu => absurd hu List.not_mem_nil,
    fun key row hrow => .inl (hbefore key row hrow)⟩
  threads _ _ _ hpc := absurd hpc (by simp [start, Evictors.start])

theorem kept_run {db : CacheDb} {dirs' : MountId → CacheDir} {as : List RecencyAction} (hk : Keyed db)
    (hbefore : ∀ key row, db.cacheFiles.lookup key = some row → row.lastHitAt ≤ begun)
    (hrun : run (step cfg) (start db dirs' begun) as = some s) (hnow : s.now < 2^63) : Kept cfg begun s := by
  refine run_invariant (fun s => s.now < 2^63 → Kept cfg begun s) (fun s a s' hi hs hlt => ?_) hrun
    (fun _ => kept_start hk hbefore dirs') hnow
  -- no state before this one has a later clock
  have hle := Nat.lt_of_le_of_lt (now_le_step hs) hlt
  exact kept_step (hi hle) hle hs

/-! ## What goes first -/

variable {goal : Goal} {p : RelPath} {a : Asked} {tried : List RelPath} {n : Nat} {rest : List (RelPath × Nat)}

/-- A file that has expired has not been used. -/
theorem unused_of_expiry (h : Answered cfg begun s.now a tried mount (.loop .expiry ((p, n) :: rest)))
    (hnow : s.now < 2^63) {u : Use} (hu : u ∈ a.uses) (hrow : u.row = (rowKey p, mount)) :
    u.time + cfg.expirySecs mount < a.now := by
  have htells := h.tells .expiry _ rfl
  have hbefore := h.before .expiry _ rfl
  have hmem : p ∈ (expiredFiles a.db mount (cfg.expirySecs mount) a.now).map Prod.fst := by
    have hanswer : tried ++ p :: rest.map Prod.fst = _ := h.answer .expiry _ rfl
    exact hanswer ▸ List.mem_append_right tried List.mem_cons_self
  obtain ⟨e, he, rfl⟩ := List.mem_map.mp hmem
  have hcanonical : Canonical e.1 := (hasRow_of_expired htells.keyed he).1
  obtain ⟨row, hlookup, hexpired⟩ := (Caches.mem_expiredFiles_iff htells.keyed hcanonical).mp hmem
  have hlatest := htells.latest u hu row (hrow ▸ hlookup)
  have htime := of_decide_eq_true hexpired
  rw [asI64_of_lt (show a.now - cfg.expirySecs mount < 2^63 by omega)] at htime
  omega

/-- Of those that are not tried, each has been used as late, or later. -/
theorem used_later (h : Answered cfg begun s.now a tried mount (.loop goal ((p, n) :: rest)))
    (hgoal : goal ≠ .expiry) {u : Use} (hu : u ∈ a.uses) (hrow : u.row = (rowKey p, mount)) (hbegun : begun < u.time) {q : RelPath}
    (hq : Canonical q) {row : Row} (hqrow : a.db.row q mount = some row) (hne : q ≠ p) (htried : q ∉ tried) :
    ∃ v ∈ a.uses, v.row = (rowKey q, mount) ∧ u.time ≤ v.time := by
  have htells := h.tells goal _ rfl
  have hlru := Caches.lru_candidates htells.keyed mount
  have hanswer : tried ++ p :: rest.map Prod.fst = (evictionCandidates a.db mount).map Prod.fst := by
    have hlisting : listing cfg mount a goal = evictionCandidates a.db mount := listing_of_ne hgoal
    rw [← hlisting]
    exact h.answer goal _ rfl
  have hsorted : ((evictionCandidates a.db mount).map Prod.fst).Pairwise fun p q => ∀ row row',
      a.db.row p mount = some row → a.db.row q mount = some row' → row.lastHitAt ≤ row'.lastHitAt :=
    List.pairwise_map.mpr hlru.oldestFirst
  rw [← hanswer] at hsorted
  have hmem : q ∈ tried ++ p :: rest.map Prod.fst := by
    rw [hanswer]
    exact List.mem_map_of_mem (hlru.all (q, row.sizeBytes.toNat) hq ⟨row, hqrow, rfl⟩)
  -- the answer is in the order of `last_hit_at`, and `q` stands behind `p` in it
  have hrest : q ∈ rest.map Prod.fst :=
    (List.mem_cons.mp ((List.mem_append.mp hmem).resolve_left htried)).resolve_left hne
  have hp : p ∈ (evictionCandidates a.db mount).map Prod.fst :=
    hanswer ▸ List.mem_append_right tried List.mem_cons_self
  obtain ⟨e, he, rfl⟩ := List.mem_map.mp hp
  obtain ⟨oldest, holdest, _⟩ := (hlru.rows e he).2
  have hle : oldest.lastHitAt ≤ row.lastHitAt :=
    (List.pairwise_cons.mp (List.pairwise_append.mp hsorted).2.1).1 q hrest oldest row holdest hqrow
  have hlatest := htells.latest u hu oldest (hrow ▸ holdest)
  rcases htells.used _ row hqrow with hbefore | ⟨v, hv, hvrow, htime⟩
  · omega
  · exact ⟨v, hv, hvrow, by omega⟩

section Lease

private def serial : RelPath := [⟨[115], Eq.refl true⟩]

private def feature : RelPath := [⟨[102], Eq.refl true⟩]

private def sixtyBytes : SourceMetadata := ⟨60, 1, 1, 0, 1, 0, 1, 0, 0o100644, 1, 0, 0, 0, 4096⟩

def serialAndFeature : CacheDir :=
  (((Files.openTrunc Files.empty serial).bind fun opened => Files.openTrunc opened.1 feature).map Prod.fst).getD
    Files.empty

/-- The one is cached first, and has its lease refreshed after the other is cached. -/
def refreshed : List RecencyAction :=
  [.files fun _ => serialAndFeature, .advance 5, .markCached serial [109] sixtyBytes, .advance 1,
    .markCached feature [109] sixtyBytes, .advance 1, .refreshLease [(serial, [109])], .toFit 0 [109] 10,
    .step 0 true, .step 0 true]

end Lease

end Recency

end FsCache
