import FsCache.Budget
import Mathlib.Order.Bounds.Basic

/- What one event submits (engine/action.rs).

   The loop over the candidates of an event skips what is cached, exempts the first of the others, and stops
   at one that does not fit. Other steps may come in between, as long as no candidate becomes cached or stops
   being it: `running_total` is read once, at the start.

   1. `submissions_eq`: a run from the event to the end of the loop submits what `selected` says.
   2. `event_selection`: with a budget, that is the longest prefix of the uncached candidates in which every
      one after the first fits. `nothing_over_budget`: one that submits nothing, over the budget all the same. -/

namespace FsCache
open Lib

namespace Pull

/-- What a step passes to `submit_cache`. -/
def passed (s : Pull) : PullAction → List RelPath
  | .submit _ =>
    match s.pc with
    | .submit rel _ _ _ => [rel]
    | _ => []
  | _ => []

/-- What a run passes to it, in order. -/
def submissions (cfg : PullConfig) (s : Pull) : List PullAction → List RelPath
  | [] => []
  | a :: as =>
    s.passed a ++
      match step cfg s a with
      | none => []
      | some s' => submissions cfg s' as

/-- The candidates that the loop submits. -/
def selected (cfg : PullConfig) (cached : RelPath → Bool) : List RelPath → Nat → Bool → List RelPath
  | [], _, _ => []
  | rel :: next, runningTotal, first =>
    if cached rel then selected cfg cached next runningTotal first
    else if 0 < cfg.maxCachePullBytes then
      if first = false ∧ cfg.maxCachePullBytes < runningTotal + cfg.sizeOf rel then []
      else rel :: selected cfg cached next (runningTotal + cfg.sizeOf rel) false
    else rel :: selected cfg cached next runningTotal false

/-- What is still to be submitted. -/
def remaining (cfg : PullConfig) (cached : RelPath → Bool) : PullPc → List RelPath
  | .idle => []
  | .loop next runningTotal first => selected cfg cached next runningTotal first
  | .submit rel _ next runningTotal => rel :: selected cfg cached next runningTotal false

/-- No new event, and the same files are cached. -/
def Quiet (cached : RelPath → Bool) : PullAction → Prop
  | .event _ => False
  | .files dir => ∀ p, isCached dir p = cached p
  | _ => True

section Event

variable {cfg : PullConfig} {s s' t : Pull} {a : PullAction} {as : List PullAction} {cached : RelPath → Bool}
  {next : List RelPath} {total : Nat} {first : Bool}

theorem remaining_candidate (hcached : ∀ p, isCached s.dir p = cached p) :
    remaining cfg cached (candidate cfg s.dir next total first) = selected cfg cached next total first := by
  cases next with
  | nil => rfl
  | cons rel next =>
    rw [candidate, selected, hcached]
    split
    · rfl
    · split
      · split
        · rfl
        · rfl
      · rfl

theorem remaining_step (hcached : ∀ p, isCached s.dir p = cached p) (hquiet : Quiet cached a)
    (h : step cfg s a = some s') :
    remaining cfg cached s.pc = s.passed a ++ remaining cfg cached s'.pc ∧ ∀ p, isCached s'.dir p = cached p := by
  cases a with
  | event next => exact hquiet.elim
  | candidate =>
    simp only [step] at h
    split at h
    · next hpc =>
      obtain rfl := Option.some.inj h
      rw [hpc]
      exact ⟨(remaining_candidate hcached).symm, hcached⟩
    · cases h
  | submit now =>
    simp only [step] at h
    split at h
    · next hpc =>
      obtain rfl := Option.some.inj h
      rw [passed, hpc]
      exact ⟨rfl, hcached⟩
    · cases h
  | pipe a₀ =>
    obtain ⟨jobs, -, rfl, -⟩ := pipe_eq h
    exact ⟨rfl, hcached⟩
  | complete t source now =>
    simp only [step] at h
    split at h
    · cases h
    · split at h
      · obtain rfl := Option.some.inj h
        exact ⟨rfl, hcached⟩
      · cases h
  | evict p =>
    obtain rfl := Option.some.inj h
    exact ⟨rfl, hcached⟩
  | files dir =>
    obtain rfl := Option.some.inj h
    exact ⟨rfl, hquiet⟩

/-- A run to the end of the loop submits all that remained. -/
theorem submissions_eq (hcached : ∀ p, isCached s.dir p = cached p) (hquiet : ∀ a ∈ as, Quiet cached a)
    (hrun : run (step cfg) s as = some t) (hdone : t.pc = .idle) :
    submissions cfg s as = remaining cfg cached s.pc := by
  induction as generalizing s with
  | nil =>
    obtain rfl := Option.some.inj hrun
    rw [hdone]
    rfl
  | cons a as ih =>
    obtain ⟨s', hs, hrun⟩ := run_cons.mp hrun
    obtain ⟨hstep, hcached'⟩ := remaining_step hcached (hquiet a List.mem_cons_self) hs
    rw [submissions, hs, hstep]
    congr 1
    exact ih hcached' (fun a' ha' => hquiet a' (List.mem_cons_of_mem a ha')) hrun

end Event

/-! ## The longest prefix -/

/-- How many of `us` fit on top of a total, when fewer than `least` always do. -/
def Fitting (cfg : PullConfig) (us : List RelPath) (total least : Nat) : Set Nat :=
  {k | k ≤ us.length ∧
    ∀ j, least ≤ j → j ≤ k → total + ((us.take j).map cfg.sizeOf).sum ≤ cfg.maxCachePullBytes}

section Fitting

variable {cfg : PullConfig} {cached : RelPath → Bool} {next us : List RelPath} {rel : RelPath}
  {total least k : Nat}

theorem succ_mem_fitting :
    k + 1 ∈ Fitting cfg (rel :: us) total (least + 1) ↔ k ∈ Fitting cfg us (total + cfg.sizeOf rel) least := by
  have hsum : ∀ j, total + (((rel :: us).take (j + 1)).map cfg.sizeOf).sum =
      total + cfg.sizeOf rel + ((us.take j).map cfg.sizeOf).sum := by
    intro j
    rw [List.take_succ_cons, List.map_cons, List.sum_cons, Nat.add_assoc]
  constructor
  · intro h
    refine ⟨Nat.le_of_succ_le_succ h.1, fun j hj hjk => ?_⟩
    rw [← hsum]
    exact h.2 (j + 1) (Nat.succ_le_succ hj) (Nat.succ_le_succ hjk)
  · intro h
    refine ⟨Nat.succ_le_succ h.1, fun j hj hjk => ?_⟩
    obtain ⟨i, rfl⟩ : ∃ i, j = i + 1 := ⟨j - 1, by omega⟩
    rw [hsum]
    exact h.2 i (Nat.le_of_succ_le_succ hj) (Nat.le_of_succ_le_succ hjk)

theorem isGreatest_succ (h : IsGreatest (Fitting cfg us (total + cfg.sizeOf rel) least) k) :
    IsGreatest (Fitting cfg (rel :: us) total (least + 1)) (k + 1) := by
  refine ⟨succ_mem_fitting.mpr h.1, fun n hn => ?_⟩
  cases n with
  | zero => exact Nat.zero_le _
  | succ n => exact Nat.succ_le_succ (h.2 (succ_mem_fitting.mp hn))

/-- With a total that fits, none at all always do. -/
theorem fitting_zero (h : total ≤ cfg.maxCachePullBytes) :
    Fitting cfg us total 0 = Fitting cfg us total 1 := by
  ext k
  constructor
  · intro hk
    exact ⟨hk.1, fun j _ hjk => hk.2 j (Nat.zero_le j) hjk⟩
  · intro hk
    refine ⟨hk.1, fun j _ hjk => ?_⟩
    cases j with
    | zero => exact h
    | succ j => exact hk.2 (j + 1) (Nat.succ_le_succ (Nat.zero_le j)) hjk

theorem isGreatest_nil : IsGreatest (Fitting cfg [] total (least + 1)) 0 := by
  refine ⟨⟨le_refl 0, fun j hj hj0 => ?_⟩, fun n hn => hn.1⟩
  omega

/-- Past the first, what fits is submitted. -/
theorem selected_rest (hmax : 0 < cfg.maxCachePullBytes) (next : List RelPath) (total : Nat) :
    ∃ k, selected cfg cached next total false = (next.filter (!cached ·)).take k ∧
      IsGreatest (Fitting cfg (next.filter (!cached ·)) total 1) k := by
  induction next generalizing total with
  | nil => exact ⟨0, rfl, isGreatest_nil⟩
  | cons rel next ih =>
    rw [selected, if_pos hmax]
    cases hrel : cached rel with
    | true =>
      rw [if_pos rfl, List.filter_cons_of_neg (by simp [hrel])]
      exact ih total
    | false =>
      rw [if_neg Bool.false_ne_true, List.filter_cons_of_pos (by simp [hrel])]
      by_cases hfit : cfg.maxCachePullBytes < total + cfg.sizeOf rel
      · -- the loop stops, though a smaller one may follow
        rw [if_pos ⟨rfl, hfit⟩]
        refine ⟨0, rfl, ⟨Nat.zero_le _, fun j hj hj0 => by omega⟩, fun n hn => ?_⟩
        by_contra hpos
        have hone := hn.2 1 (le_refl 1) (by omega)
        simp only [List.take_succ_cons, List.take_zero, List.map_cons, List.map_nil, List.sum_cons,
          List.sum_nil] at hone
        omega
      · rw [if_neg fun h => hfit h.2]
        obtain ⟨k, hk, hgreatest⟩ := ih (total + cfg.sizeOf rel)
        refine ⟨k + 1, by rw [hk, List.take_succ_cons], isGreatest_succ ?_⟩
        rw [fitting_zero (Nat.le_of_not_lt hfit)]
        exact hgreatest

/-- And the first in any case. -/
theorem selected_event (hmax : 0 < cfg.maxCachePullBytes) (next : List RelPath) (total : Nat) :
    ∃ k, selected cfg cached next total true = (next.filter (!cached ·)).take k ∧
      IsGreatest (Fitting cfg (next.filter (!cached ·)) total 2) k := by
  induction next with
  | nil => exact ⟨0, rfl, isGreatest_nil⟩
  | cons rel next ih =>
    rw [selected, if_pos hmax]
    cases hrel : cached rel with
    | true =>
      rw [if_pos rfl, List.filter_cons_of_neg (by simp [hrel])]
      exact ih
    | false =>
      rw [if_neg Bool.false_ne_true, if_neg fun h => Bool.noConfusion h.1,
        List.filter_cons_of_pos (by simp [hrel])]
      obtain ⟨k, hk, hgreatest⟩ := selected_rest hmax next (total + cfg.sizeOf rel)
      exact ⟨k + 1, by rw [hk, List.take_succ_cons], isGreatest_succ hgreatest⟩

theorem one_le_of_isGreatest (h : IsGreatest (Fitting cfg us total 2) k) (hus : us ≠ []) : 1 ≤ k := by
  refine h.2 ⟨?_, fun j hj hj1 => by omega⟩
  exact List.length_pos_of_ne_nil hus

end Fitting

/-- One event submits the longest prefix of the candidates that are not cached in which every one after
the first fits. -/
theorem event_selection {cfg : PullConfig} {s t : Pull} {next : List RelPath} {as : List PullAction}
    (hmax : 0 < cfg.maxCachePullBytes) (hquiet : ∀ a ∈ as, Quiet (isCached s.dir) a)
    (hrun : run (step cfg) s (.event next :: as) = some t) (hdone : t.pc = .idle) :
    ∃ k, submissions cfg s (.event next :: as) = (next.filter (!isCached s.dir ·)).take k ∧
      IsGreatest (Fitting cfg (next.filter (!isCached s.dir ·)) (s.db.totalCachedBytes cfg.mount) 2) k ∧
      (next.filter (!isCached s.dir ·) ≠ [] → 1 ≤ k) ∧
      (cfg.maxCachePullBytes < s.db.totalCachedBytes cfg.mount +
          ((submissions cfg s (.event next :: as)).map cfg.sizeOf).sum →
        k = 1 ∨ next.filter (!isCached s.dir ·) = []) := by
  obtain ⟨s', hs, hrest⟩ := run_cons.mp hrun
  have hall : submissions cfg s (.event next :: as) =
      selected cfg (isCached s.dir) next (s.db.totalCachedBytes cfg.mount) true := by
    rw [submissions, hs, show s.passed (.event next) = [] from rfl, List.nil_append]
    simp only [step, if_pos hmax] at hs
    split at hs
    · obtain rfl := Option.some.inj hs
      exact submissions_eq (fun p => rfl) hquiet hrest hdone
    · cases hs
  obtain ⟨k, hk, hgreatest⟩ := @selected_event cfg (isCached s.dir) hmax next (s.db.totalCachedBytes cfg.mount)
  refine ⟨k, hall.trans hk, hgreatest, one_le_of_isGreatest hgreatest, fun hover => ?_⟩
  -- past the first, the whole prefix fits
  by_contra hneither
  rw [not_or] at hneither
  have hone := one_le_of_isGreatest hgreatest hneither.2
  have hfits := hgreatest.1.2 k (by omega) (le_refl k)
  rw [hall, hk] at hover
  omega

section Events

private def opener : RelPath := [⟨[111], Eq.refl true⟩]
private def middle : RelPath := [⟨[112], Eq.refl true⟩]
private def closing : RelPath := [⟨[99], Eq.refl true⟩]

/-- The rows that are there in the end do not count, only those at the start. -/
theorem opener_and_middle : ∃ k,
    submissions seasonConfig (start (Jobs.initial 1 1) Files.empty ⟨∅, ∅⟩)
        [.event [opener, middle, closing], .candidate, .submit 0, .evict opener, .candidate, .submit 0,
          .candidate] =
      [opener, middle, closing].take k ∧
    IsGreatest (Fitting seasonConfig [opener, middle, closing] 0 2) k := by
  obtain ⟨k, hk, hgreatest, -, -⟩ := @event_selection seasonConfig
    (start (Jobs.initial 1 1) Files.empty ⟨∅, ∅⟩) _ [opener, middle, closing]
    [.candidate, .submit 0, .evict opener, .candidate, .submit 0, .candidate] (by decide)
    (by simp [Quiet]) rfl rfl
  exact ⟨k, hk, hgreatest⟩

private def crowded : CacheDb :=
  (CacheDb.mk ∅ ∅).markCached opener seasonConfig.mount ⟨150, 0, 0, 0, 0, 0, 0, 0, 0, 0, 0, 0, 0, 0⟩ 0

/-- Of no candidates at all nothing is submitted, and the budget is exceeded already. -/
theorem nothing_over_budget : (∃ t, run (step seasonConfig) (start (Jobs.initial 1 1) Files.empty crowded)
      [.event [], .candidate] = some t ∧ t.pc = .idle) ∧
    submissions seasonConfig (start (Jobs.initial 1 1) Files.empty crowded) [.event [], .candidate] = [] ∧
    IsGreatest (Fitting seasonConfig [] (crowded.totalCachedBytes seasonConfig.mount) 2) 0 ∧
    seasonConfig.maxCachePullBytes < crowded.totalCachedBytes seasonConfig.mount :=
  ⟨⟨_, rfl, rfl⟩, rfl, isGreatest_nil, by decide⟩

end Events

end Pull

end FsCache
