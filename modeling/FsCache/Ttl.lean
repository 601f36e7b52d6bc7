import FsCache.Attr
import FsCache.Fifo

/- The age at which a deferred job is dropped: at a startup by the `WHERE` of `load_deferred`
   (cache/db.rs), later by the sweep, `expire_stale` (cache/io.rs).

   The load compares as `i64`, the sweep as `u64`, and only the sweep takes 0 minutes for no limit:
   `ttl_rules_agree_iff`. Both multiply the minutes by 60 in a `u64`.

   The sweep stops at the first job that is young enough. What is behind that one is younger only if the
   queue is in the order of its timestamps. A push keeps that order, but a startup takes the jobs as the
   query returns them, and the query names no order: `sweep_complete_iff`.

   Correspondence (Rust ↔ Lean):
     `timestamp >= ?1`               ↔ `CacheDb.loadDeferred`, by `mem_loadDeferred_iff`
     `job.enqueue_ts >= cutoff`      ↔ `Jobs.expireStale`, by `kept_iff`
     `now_secs()` at each call       ↔ `Clocked` -/

namespace FsCache
open Lib

/-! ## The two rules -/

section Rules

variable {db : CacheDb} {job : CacheJob} {rest : List CacheJob} {j : Jobs} {ttlMinutes now m n : Nat}

/-- A timestamp that went into the table comes back. -/
theorem asU64_asI64 (h : n < 2^64) : asU64 (asI64 n) = n := by
  rw [asU64, asI64, BitVec.ofInt_toInt, BitVec.toNat_ofNat, Nat.mod_eq_of_lt h]

/-- The order of the `i64`s: those from 2^63 on come first. -/
theorem asI64_le_iff (hm : m < 2^64) (hn : n < 2^64) :
    asI64 m ≤ asI64 n ↔ ((m < 2^63 ↔ n < 2^63) ∧ m ≤ n) ∨ (2^63 ≤ m ∧ n < 2^63) := by
  obtain hm' | hm' := lt_or_ge m (2^63) <;> obtain hn' | hn' := lt_or_ge n (2^63)
  · rw [asI64_of_lt hm', asI64_of_lt hn']
    omega
  · rw [asI64_of_lt hm', asI64_of_ge hn hn']
    omega
  · rw [asI64_of_ge hm hm', asI64_of_lt hn']
    omega
  · rw [asI64_of_ge hm hm', asI64_of_ge hn hn']
    omega

/-- The job of a row is loaded if its timestamp passes the `WHERE`. -/
theorem mem_loadDeferred_iff (hk : db.Keyed) (hsaved : db.Saves job) (hts : job.enqueueTs < 2^64) :
    (pathOfKey (rowKey job.relPath), job.enqueueTs) ∈ db.loadDeferred ttlMinutes now ↔
      asI64 (CacheDb.ttlCutoff ttlMinutes now) ≤ asI64 job.enqueueTs := by
  constructor
  · intro h
    obtain ⟨k, v, hv, hpath, -, hle⟩ := mem_loadDeferred h
    obtain ⟨hself, hkey⟩ := hk k v hv
    -- the row is that of the job
    have hrow : k = rowKey job.relPath := by
      rw [← hkey, ← hself, ← hpath, rowKey_pathOfKey_rowKey]
    rw [hrow, hsaved] at hv
    obtain rfl := Option.some.inj hv
    exact hle
  · intro h
    refine List.mem_filterMap.mpr ⟨⟨rowKey job.relPath, rowKey job.relPath, asI64 job.enqueueTs⟩, ?_, ?_⟩
    · rw [← AList.mem_lookup_iff]
      exact hsaved
    · rw [if_pos h, asU64_asI64 hts]

theorem dropExpired_of_le {cutoff : Nat} (h : cutoff ≤ job.enqueueTs) :
    (j.dropExpired cutoff (job :: rest)).queue = job :: rest := by
  rw [Jobs.dropExpired, if_pos h]

theorem dropExpired_of_lt {cutoff : Nat} (h : job.enqueueTs < cutoff) :
    (j.dropExpired cutoff (job :: rest)).queue ≠ job :: rest := by
  rw [Jobs.dropExpired, if_neg (not_le.mpr h)]
  obtain ⟨front, hrest, -⟩ := Jobs.dropped_front cutoff rest
    { j with known := j.known.erase job.key, expired := j.expired ++ [job] }
  intro hsame
  rw [hsame] at hrest
  have hlen := congrArg List.length hrest
  rw [List.length_append, List.length_cons] at hlen
  omega

/-- The job at the front stays if the sweep is off or the job young enough. -/
theorem kept_iff (hq : j.queue = job :: rest) :
    (j.expireStale ttlMinutes now).queue = j.queue ↔ Unexpired ttlMinutes now job.enqueueTs := by
  rw [Jobs.expireStale, Unexpired, CacheDb.ttlCutoff]
  split
  · next hoff => exact iff_of_true rfl (.inl hoff)
  · next hon =>
    rw [hq, or_iff_right hon]
    constructor
    · intro h
      by_contra hlt
      exact dropExpired_of_lt (not_le.mp hlt) h
    · exact dropExpired_of_le

end Rules

/-- The minutes fit, and the two rules say the same of this timestamp. -/
def TtlAgrees (ttlMinutes now ts : Nat) : Prop :=
  ttlMinutes * 60 < 2^64 ∧
    if ttlMinutes = 0 then ((now < 2^63 ↔ ts < 2^63) ∧ now ≤ ts) ∨ (2^63 ≤ now ∧ ts < 2^63)
    else now - ttlMinutes * 60 < 2^63 ↔ ts < 2^63

instance (ttlMinutes now ts : Nat) : Decidable (TtlAgrees ttlMinutes now ts) :=
  inferInstanceAs (Decidable (_ ∧ _))

/-- A job that is persisted and at the front of the queue is loaded if and only if it stays, and nothing
overflows, exactly where `TtlAgrees` says so. -/
theorem ttl_rules_agree_iff {db : CacheDb} {j : Jobs} {job : CacheJob} {rest : List CacheJob}
    {ttlMinutes now : Nat} (hk : db.Keyed) (hsaved : db.Saves job) (hq : j.queue = job :: rest)
    (hnow : now < 2^64) (hts : job.enqueueTs < 2^64) :
    (ttlMinutes * 60 < 2^64 ∧
      ((pathOfKey (rowKey job.relPath), job.enqueueTs) ∈ db.loadDeferred ttlMinutes now ↔
        (j.expireStale ttlMinutes now).queue = j.queue)) ↔ TtlAgrees ttlMinutes now job.enqueueTs := by
  rw [TtlAgrees]
  refine and_congr_right fun hfits => ?_
  have hcut : CacheDb.ttlCutoff ttlMinutes now = now - ttlMinutes * 60 := by
    rw [CacheDb.ttlCutoff, Nat.mod_eq_of_lt hfits]
  rw [mem_loadDeferred_iff hk hsaved hts, kept_iff hq, Unexpired, hcut, asI64_le_iff (by omega) hts]
  split
  · next hoff =>
    subst hoff
    simp
  · next hon =>
    rw [or_iff_right hon]
    omega

section Calendar

private def page : RelPath := [⟨[112], Eq.refl true⟩]

private def noted (ts : Nat) : CacheDb := CacheDb.saveDeferred ⟨∅, ∅⟩ page page ts

private theorem noted_keyed (ts : Nat) : (noted ts).Keyed := by
  intro k v hv
  rw [noted, CacheDb.saveDeferred, Map.lookup_insert_if] at hv
  split at hv
  · next hkey =>
    obtain rfl := Option.some.inj hv
    exact ⟨hkey.symm, by rw [hkey, rowKey_pathOfKey_rowKey]⟩
  · cases hv

private def pinned (ts : Nat) : Jobs :=
  { Jobs.initial 1 1 with queue := [⟨page, .populate, ts, 0⟩] }

theorem page_agrees : 60 * 60 < 2^64 ∧ ((pathOfKey (rowKey page), 500) ∈ (noted 500).loadDeferred 60 900 ↔
    ((pinned 500).expireStale 60 900).queue = (pinned 500).queue) :=
  (@ttl_rules_agree_iff (noted 500) (pinned 500) ⟨page, .populate, 500, 0⟩ [] 60 900 (noted_keyed 500) rfl rfl
    (by decide) (by decide)).mpr (by decide)

/-- With 0 minutes the sweep keeps a job of any age, and a startup drops it in the next second. -/
theorem page_lost : (page, 500) ∉ (noted 500).loadDeferred 0 501 ∧
    ((pinned 500).expireStale 0 501).queue = (pinned 500).queue := by
  decide

end Calendar

/-! ## The sweep over a whole queue -/

/-- The reading of the clock that an operation makes. -/
def PipeAction.clock : PipeAction → Option Nat
  | .submit _ _ now | .expire now => some now
  | .pop _ | .acquire | .promote _ | .finish _ | .release => none

/-- The readings are of a `u64` clock that does not go back, from `start` on. -/
def Clocked : Nat → List PipeAction → Prop
  | _, [] => True
  | start, a :: as =>
    match a.clock with
    | none => Clocked start as
    | some now => start ≤ now ∧ now < 2^64 ∧ Clocked now as

/-- `deferred_ttl_minutes * 60` as a `u64`. -/
def ttlSecs (ttlMinutes : Nat) : Nat := ttlMinutes * 60 % 2^64

/-- What the sweeps from `start` on can tell of a timestamp: not by how much it is too old at the first of
them, nor by how much it is too young for the last. -/
def sweepRank (ttlMinutes start ts : Nat) : Nat :=
  max (min (ts + 1) (2^64 - ttlSecs ttlMinutes)) (start - ttlSecs ttlMinutes)

namespace Jobs

/-- The queue is in the order of its timestamps, and none is later than the clock. -/
structure Timely (ttlMinutes start now : Nat) (j : Jobs) : Prop where
  sorted : j.queue.Pairwise fun a b => sweepRank ttlMinutes start a.enqueueTs ≤ sweepRank ttlMinutes start b.enqueueTs
  past : ∀ job ∈ j.queue, sweepRank ttlMinutes start job.enqueueTs ≤ sweepRank ttlMinutes start now

instance (ttlMinutes start now : Nat) (j : Jobs) : Decidable (j.Timely ttlMinutes start now) :=
  decidable_of_iff (_ ∧ _) ⟨fun h => ⟨h.1, h.2⟩, fun h => ⟨h.sorted, h.past⟩⟩

/-- In every run, after every sweep no queued job is older than the cutoff. -/
def SweepsAll (ttlMinutes start : Nat) (j₀ : Jobs) : Prop :=
  ∀ as now j, Clocked start (as ++ [.expire now]) → run (pipeStep ttlMinutes) j₀ (as ++ [.expire now]) = some j →
    ttlMinutes ≠ 0 → ∀ job ∈ j.queue, now - ttlSecs ttlMinutes ≤ job.enqueueTs

section Sweeps

variable {ttlMinutes start now t ts : Nat} {j j' : Jobs} {a b job : CacheJob} {l₁ l₂ : List CacheJob}

theorem ttlSecs_lt (ttlMinutes : Nat) : ttlSecs ttlMinutes < 2^64 := Nat.mod_lt _ (by decide)

/-- A sweep goes by what it can tell. -/
theorem cutoff_le_iff (hstart : start ≤ now) (hnow : now < 2^64) :
    now - ttlSecs ttlMinutes ≤ ts ↔ now - ttlSecs ttlMinutes < sweepRank ttlMinutes start ts := by
  have := ttlSecs_lt ttlMinutes
  rw [sweepRank]
  omega

theorem sweepRank_mono (h : t ≤ ts) : sweepRank ttlMinutes start t ≤ sweepRank ttlMinutes start ts := by
  simp only [sweepRank]
  omega

/-- A job that is pushed is the youngest. -/
theorem Timely.push (h : j.Timely ttlMinutes start t) (hclock : t ≤ now)
    (hq : j'.queue = j.queue ++ [job]) (hts : job.enqueueTs = now) : j'.Timely ttlMinutes start now := by
  have hpast : ∀ x ∈ j.queue, sweepRank ttlMinutes start x.enqueueTs ≤ sweepRank ttlMinutes start now :=
    fun x hx => (h.past x hx).trans (sweepRank_mono hclock)
  constructor
  · rw [hq, List.pairwise_append]
    refine ⟨h.sorted, List.pairwise_singleton _ _, fun x hx y hy => ?_⟩
    obtain rfl := List.mem_singleton.mp hy
    rw [hts]
    exact hpast x hx
  · intro x hx
    rw [hq, List.mem_append, List.mem_singleton] at hx
    obtain hx | rfl := hx
    · exact hpast x hx
    · rw [hts]

/-- Jobs that leave do not matter, nor does time. -/
theorem Timely.sublist (h : j.Timely ttlMinutes start t) (hclock : t ≤ now) (hq : j'.queue.Sublist j.queue) :
    j'.Timely ttlMinutes start now :=
  ⟨h.sorted.sublist hq, fun x hx => (h.past x (hq.subset hx)).trans (sweepRank_mono hclock)⟩

theorem timely_pipeStep {act : PipeAction} (h : j.Timely ttlMinutes start t) (hclock : ∀ now ∈ act.clock, t ≤ now)
    (hs : pipeStep ttlMinutes j act = some j') : j'.Timely ttlMinutes start (act.clock.getD t) := by
  have htakes := takes_pipeStep hs
  cases act with
  | submit relPath kind now =>
    obtain hq | hq := htakes
    · exact h.sublist (hclock now rfl) (hq ▸ List.Sublist.refl _)
    · exact h.push (hclock now rfl) hq rfl
  | expire now =>
    obtain ⟨front, hq, -⟩ := htakes
    exact h.sublist (hclock now rfl) (hq ▸ List.sublist_append_right _ _)
  | pop copyAllowed =>
    cases copyAllowed with
    | true =>
      obtain ⟨job, hq, -⟩ := htakes
      exact h.sublist (le_refl t) (hq ▸ List.sublist_cons_self _ _)
    | false =>
      obtain ⟨l₁, job, l₂, hq, hq', -⟩ := htakes
      refine h.sublist (le_refl t) ?_
      rw [hq, hq']
      exact (List.sublist_cons_self _ _).append_left _
  | acquire | promote | finish | release =>
    have hq : j'.queue = j.queue := htakes
    exact h.sublist (le_refl t) (hq ▸ List.Sublist.refl _)

/-- The job the loop stops at is young enough. -/
theorem head_dropExpired (cutoff : Nat) (q : List CacheJob) (j : Jobs) :
    ∀ job ∈ (j.dropExpired cutoff q).queue.head?, cutoff ≤ job.enqueueTs := by
  induction q generalizing j with
  | nil => exact fun _ h => absurd h (by simp [dropExpired])
  | cons x rest ih =>
    rw [dropExpired]
    split
    · next hle => exact fun job h => Option.some.inj h ▸ hle
    · exact ih _

/-- In a timely queue, so is every one behind it. -/
theorem all_of_timely (h : j.Timely ttlMinutes start t) (hstart : start ≤ now) (hnow : now < 2^64)
    (hon : ttlMinutes ≠ 0) :
    ∀ job ∈ (j.expireStale ttlMinutes now).queue, now - ttlSecs ttlMinutes ≤ job.enqueueTs := by
  rw [expireStale, if_neg hon]
  have hhead := head_dropExpired (now - ttlMinutes * 60 % 2^64) j.queue j
  obtain ⟨front, hq, -⟩ := dropped_front (now - ttlMinutes * 60 % 2^64) j.queue j
  have hsorted := h.sorted
  rw [hq, List.pairwise_append] at hsorted
  replace hsorted := hsorted.2.1
  cases hdrop : (j.dropExpired (now - ttlMinutes * 60 % 2^64) j.queue).queue with
  | nil => exact fun _ hmem => absurd hmem List.not_mem_nil
  | cons x rest =>
    rw [hdrop] at hsorted hhead
    have hx : now - ttlSecs ttlMinutes ≤ x.enqueueTs := hhead x rfl
    intro job hjob
    obtain rfl | hjob := List.mem_cons.mp hjob
    · exact hx
    · rw [cutoff_le_iff hstart hnow] at hx ⊢
      exact hx.trans_le ((List.pairwise_cons.mp hsorted).1 job hjob)

theorem sweepsAll_of_timely (h : j.Timely ttlMinutes start start) : j.SweepsAll ttlMinutes start := by
  intro as now j' hclock hrun hon
  -- along the run the clock goes on from `start`
  suffices hall : ∀ (as : List PipeAction) (t : Nat) (j : Jobs), start ≤ t → j.Timely ttlMinutes start t →
      Clocked t (as ++ [.expire now]) → run (pipeStep ttlMinutes) j (as ++ [.expire now]) = some j' →
      ∀ job ∈ j'.queue, now - ttlSecs ttlMinutes ≤ job.enqueueTs from hall as start j (le_refl start) h hclock hrun
  intro as
  induction as with
  | nil =>
    intro t j hstart hj hclock hrun
    obtain ⟨j₁, hs, hnil⟩ := run_cons.mp hrun
    obtain rfl := Option.some.inj hnil
    obtain ⟨hle, hlt, -⟩ := hclock
    simp only [pipeStep] at hs
    split at hs
    · cases hs
    · obtain rfl := Option.some.inj hs
      exact all_of_timely hj (hstart.trans hle) hlt hon
  | cons act as ih =>
    intro t j hstart hj hclock hrun
    obtain ⟨j₁, hs, hrest⟩ := run_cons.mp hrun
    cases hact : act.clock with
    | none =>
      have hnext := timely_pipeStep hj (by simp [hact]) hs
      rw [hact] at hnext
      rw [List.cons_append, Clocked, hact] at hclock
      exact ih t j₁ hstart hnext hclock hrest
    | some u =>
      rw [List.cons_append, Clocked, hact] at hclock
      obtain ⟨hle, -, hclock⟩ := hclock
      have hnext := timely_pipeStep hj (fun v hv => Option.some.inj (hact.symm.trans hv) ▸ hle) hs
      rw [hact] at hnext
      exact ih u j₁ (hstart.trans hle) hnext hclock hrest

/-- A sweep that comes at the right moment leaves an old job behind a younger one. -/
theorem left_behind (hstart : start < 2^64) (hq : j.queue = l₁ ++ a :: l₂) (hb : b ∈ l₂)
    (hlt : sweepRank ttlMinutes start b.enqueueTs < sweepRank ttlMinutes start a.enqueueTs) (hon : ttlMinutes ≠ 0) :
    ∃ now, start ≤ now ∧ now < 2^64 ∧ b ∈ (j.expireStale ttlMinutes now).queue ∧
      b.enqueueTs < now - ttlSecs ttlMinutes := by
  have hsecs := ttlSecs_lt ttlMinutes
  refine ⟨sweepRank ttlMinutes start b.enqueueTs + ttlSecs ttlMinutes, ?_, ?_, ?_, ?_⟩
  · simp only [sweepRank]
    omega
  · simp only [sweepRank] at hlt ⊢
    omega
  · have hyoung : sweepRank ttlMinutes start b.enqueueTs ≤ a.enqueueTs := by
      simp only [sweepRank] at hlt ⊢
      omega
    rw [expireStale, if_neg hon]
    have hcut : sweepRank ttlMinutes start b.enqueueTs + ttlSecs ttlMinutes - ttlMinutes * 60 % 2^64 =
        sweepRank ttlMinutes start b.enqueueTs := Nat.add_sub_cancel _ _
    rw [hcut]
    obtain ⟨front, hqueue, hold⟩ := dropped_front (sweepRank ttlMinutes start b.enqueueTs) j.queue j
    rw [hq] at hqueue ⊢
    -- `a` is not dropped, so it is not in what the loop has taken, and `b` comes after it
    obtain ⟨mid, hfront, hmid⟩ | ⟨mid, -, hmid⟩ := List.append_eq_append_iff.mp hqueue
    · cases mid with
      | nil =>
        rw [List.nil_append] at hmid
        rw [← hmid]
        exact List.mem_cons_of_mem _ hb
      | cons x mid =>
        obtain ⟨rfl, -⟩ := List.cons.inj hmid
        have := hold a (hfront ▸ List.mem_append_right _ List.mem_cons_self)
        omega
    · rw [hmid]
      exact List.mem_append_right _ (List.mem_cons_of_mem _ hb)
  · rw [Nat.add_sub_cancel]
    simp only [sweepRank] at hlt ⊢
    omega

theorem pairwise_of_split {α : Type} {R : α → α → Prop} {l : List α}
    (h : ∀ l₁ a l₂, l = l₁ ++ a :: l₂ → ∀ b ∈ l₂, R a b) : l.Pairwise R := by
  induction l with
  | nil => exact List.Pairwise.nil
  | cons x l ih =>
    refine List.Pairwise.cons (h [] x l rfl) (ih fun l₁ a l₂ hl => h (x :: l₁) a l₂ ?_)
    rw [hl, List.cons_append]

/-- Every sweep of every run is complete if and only if the queue is timely at the start. -/
theorem sweepsAll_iff (hstart : start < 2^64) (hon : ttlMinutes ≠ 0) (hheld : j.held = none)
    (haccepts : j.Accepts ([], .validate)) : j.SweepsAll ttlMinutes start ↔ j.Timely ttlMinutes start start := by
  refine ⟨fun h => ?_, sweepsAll_of_timely⟩
  have hstep : ∀ (j : Jobs) now, j.held = none →
      pipeStep ttlMinutes j (.expire now) = some (j.expireStale ttlMinutes now) := by
    intro j now hheld
    rw [pipeStep, hheld]
    rfl
  constructor
  · refine pairwise_of_split fun l₁ a l₂ hq b hb => ?_
    by_contra hlt
    obtain ⟨now, hle, hlt64, hmem, hold⟩ := left_behind hstart hq hb (not_le.mp hlt) hon
    have hleft := h [] now _ ⟨hle, hlt64, trivial⟩ (run_cons.mpr ⟨_, hstep j now hheld, rfl⟩) hon b hmem
    omega
  · intro x hx
    by_contra hlt
    -- a validation is submitted right at the start
    obtain ⟨l₁, l₂, hq⟩ := List.append_of_mem hx
    have hnew : (j.submitJob [] .validate start).queue = l₁ ++ x :: (l₂ ++ [⟨[], .validate, start, j.nextId⟩]) := by
      rw [submitJob, if_neg (by simpa [Accepts] using haccepts), hq]
      simp
    obtain ⟨now, hle, hlt64, hmem, hold⟩ := left_behind hstart hnew
      (List.mem_append_right _ List.mem_cons_self) (not_le.mp hlt) hon
    have hheld' : (j.submitJob [] .validate start).held = none := (held_submitJob _ _ _ _).trans hheld
    have hrun : run (pipeStep ttlMinutes) j ([.submit [] .validate start] ++ [.expire now]) =
        some ((j.submitJob [] .validate start).expireStale ttlMinutes now) :=
      run_cons.mpr ⟨_, rfl, run_cons.mpr ⟨_, hstep _ now hheld', rfl⟩⟩
    have hleft := h [.submit [] .validate start] now _ ⟨le_refl start, hstart, hle, hlt64, trivial⟩ hrun hon _ hmem
    exact absurd hold (not_lt.mpr hleft)

end Sweeps

/-- From a startup on, with the loaded rows in whatever order, every sweep of every run is complete if and
only if the sweep is off, or the queue the startup makes is in the order of its timestamps and none is
later than the clock. -/
theorem sweep_complete_iff (ttlMinutes start : Nat) (loaded : List (RelPath × Nat)) (permits nextTask : Nat)
    (hstart : start < 2^64) :
    (rehydrate loaded permits nextTask).SweepsAll ttlMinutes start ↔
      ttlMinutes = 0 ∨ (rehydrate loaded permits nextTask).Timely ttlMinutes start start := by
  obtain hoff | hon := eq_or_ne ttlMinutes 0
  · exact iff_of_true (fun _ _ _ _ _ h => absurd hoff h) (.inl hoff)
  · rw [or_iff_right hon]
    refine sweepsAll_iff hstart hon ?_ ?_
    · exact List.foldlRecOn (motive := fun j : Jobs => j.held = none) loaded _ rfl
        fun j hj l _ => (held_submitJob j l.1 .populate l.2).trans hj
    · rw [Accepts, Bool.eq_false_iff]
      intro hknown
      obtain ⟨job, hjob, hkey⟩ := ((partition_rehydrate loaded permits nextTask).known_iff _).mp hknown
      have hkind : job.kind = .validate := congrArg Prod.snd hkey
      rw [(live_of_rehydrate hjob).1] at hkind
      cases hkind

section Minutes

private def lease : RelPath := [⟨[108], Eq.refl true⟩]
private def deed : RelPath := [⟨[100], Eq.refl true⟩]

theorem minutes_swept : (rehydrate [(lease, 100), (deed, 130)] 1 1).SweepsAll 2 200 :=
  (sweep_complete_iff 2 200 [(lease, 100), (deed, 130)] 1 1 (by decide)).mpr (by decide)

/-- The query returns the younger job first, and at 230 it hides the older one from the sweep. -/
theorem minutes_hidden : ∃ db : CacheDb, db.loadDeferred 2 200 = [(deed, 130), (lease, 100)] ∧
    ((rehydrate (db.loadDeferred 2 200) 1 1).expireStale 2 230).queue =
      [⟨deed, .populate, 130, 0⟩, ⟨lease, .populate, 100, 1⟩] ∧
    ¬(rehydrate (db.loadDeferred 2 200) 1 1).SweepsAll 2 200 := by
  refine ⟨((⟨∅, ∅⟩ : CacheDb).saveDeferred lease lease 100).saveDeferred deed deed 130, rfl, by decide, ?_⟩
  intro h
  have hrun : run (pipeStep 2) (rehydrate [(deed, 130), (lease, 100)] 1 1) ([] ++ [.expire 230]) =
      some ((rehydrate [(deed, 130), (lease, 100)] 1 1).expireStale 2 230) := rfl
  have hleft := h [] 230 _ ⟨by decide, by decide, trivial⟩ hrun (by decide) ⟨lease, .populate, 100, 1⟩ (by decide)
  exact absurd hleft (by decide)

end Minutes

end Jobs

end FsCache
