import FsCache.Coherence

/- No lost invalidation, over the runs of the daemon.

   `no_lost_invalidation`: once a change of `p` has been dispatched, then in every
   later state with no job of `p` queued or in flight, `p` has no cache file, or its
   row has the version of the live file, or a further change is not dispatched yet;
   in every run that is `Heard` from the dispatch on. `dispatch_lost` is a run that is
   not: the dispatch tells the replacement in flight to abort, and that replacement
   suppresses the one which the validation of the dispatch submits. -/

namespace FsCache
open Lib

namespace Daemon

variable {cfg : Config} {p : RelPath} {s s' : Daemon} {a : Action}

/-- Nothing happens but what `Assumed` allows, and no row is written under two names. -/
def AssumedAt (p : RelPath) (s : Daemon) (a : Action) : Prop :=
  Assumed p (s.view p) a ∧ s.ClearAt p a

instance (p : RelPath) (s : Daemon) (a : Action) : Decidable (AssumedAt p s a) :=
  inferInstanceAs (Decidable (_ ∧ _))

def HeardAt (mount : MountId) (p : RelPath) (s : Daemon) (a : Action) : Prop :=
  Heard mount p (s.view p) a

instance (mount : MountId) (p : RelPath) (s : Daemon) (a : Action) :
    Decidable (HeardAt mount p s a) :=
  inferInstanceAs (Decidable (Heard mount p (s.view p) a))

/-- A change of `p` is yet to be dispatched. -/
def Undispatched (s : Daemon) (p : RelPath) : Prop :=
  s.pending p = true ∨ ∃ pc, s.watcher = some (p, pc)

theorem soon_iff : (s.view p).Soon ↔ s.Undispatched p := by
  unfold PathView.Soon Undispatched
  refine or_congr_right ?_
  rw [Option.ne_none_iff_exists']
  constructor
  · rintro ⟨pc, h⟩
    obtain ⟨⟨q, pc'⟩, hw, hq⟩ := Option.bind_eq_some_iff.mp h
    by_cases he : q = p
    · exact ⟨pc', he ▸ hw⟩
    · exact absurd hq (by simp [he])
  · rintro ⟨pc, h⟩
    exact ⟨pc, Option.bind_eq_some_iff.mpr ⟨_, h, if_pos rfl⟩⟩

theorem tracked_start {b : Backing} {dir : CacheDir} {db : CacheDb} {loaded : List (RelPath × Nat)}
    (hfile : ∃ i, b.node p = some (.file i))
    (hrow : (dir.fileAt p).isSome → (db.row p cfg.mount).isSome) :
    Tracked cfg.mount p ((start cfg b dir db loaded).view p) where
  regular := hfile
  fits := fits_start cfg b dir db loaded p
  noDrop t abort pc h := by
    rcases phase_start cfg b dir db loaded p .validate with e | e <;>
      exact absurd (e.symm.trans h) (by simp)
  calm _ := rfl
  watched h := absurd rfl h
  row _ h := .inl (hrow h)

/-- What the daemon keeps before the dispatch. -/
theorem tracked_step (hi : s.Wf ∧ Tracked cfg.mount p (s.view p)) (ha : AssumedAt p s a)
    (h : step cfg s a = some s') : s'.Wf ∧ Tracked cfg.mount p (s'.view p) :=
  ⟨hi.1.step h, hi.2.move (pathMove_of_step hi.1 (fun _ => ha.2) (fun ht => ht.elim) h) ha.1⟩

/-- What it keeps from the dispatch on. -/
theorem coherent_step (hi : s.Wf ∧ Coherent cfg.mount p (s.view p))
    (ha : AssumedAt p s a ∧ HeardAt cfg.mount p s a) (h : step cfg s a = some s') :
    s'.Wf ∧ Coherent cfg.mount p (s'.view p) :=
  ⟨hi.1.step h,
    hi.2.move (pathMove_of_step hi.1 (fun _ => ha.1.2) (fun ht => ht.elim) h) ha.1.1 ha.2⟩

/-- The dispatch itself. -/
theorem coherent_of_dispatch {now : Nat} (hi : s.Wf ∧ Tracked cfg.mount p (s.view p))
    (hw : s.watcher = some (p, .submitValidation))
    (ha : AssumedAt p s (.dispatch now) ∧ HeardAt cfg.mount p s (.dispatch now))
    (h : step cfg s (.dispatch now) = some s') : s'.Wf ∧ Coherent cfg.mount p (s'.view p) := by
  have htracked := (tracked_step hi ha.1 h).2
  refine ⟨hi.1.step h, ?_⟩
  simp only [step, hw, Option.some.injEq] at h
  subst h
  rw [view_dispatched hi.1] at htracked ⊢
  exact .dispatched hi.2 htracked (by simp [view, hw]) ha.2

end Daemon

open Daemon

/-- Once a change of `p` has been dispatched, in a run that is heard from then on:
when no job of `p` is queued or in flight, `p` has no cache file, or its row has the
version of the live file, or a change of it is yet to be dispatched. -/
theorem no_lost_invalidation {cfg : Config} {b : Backing} {dir : CacheDir} {db : CacheDb}
    {loaded : List (RelPath × Nat)} {p : RelPath} {as bs : List Action} {now : Nat}
    {s₁ s : Daemon} (hfile : ∃ i, b.node p = some (.file i))
    (hrow : (dir.fileAt p).isSome → (db.row p cfg.mount).isSome)
    (hassumed : Along (step cfg) (AssumedAt p) (start cfg b dir db loaded)
      (as ++ .dispatch now :: bs))
    (h₁ : run (step cfg) (start cfg b dir db loaded) as = some s₁)
    (hdispatch : s₁.watcher = some (p, .submitValidation))
    (h₂ : run (step cfg) s₁ (.dispatch now :: bs) = some s)
    (hheard : Along (step cfg) (HeardAt cfg.mount p) s₁ (.dispatch now :: bs))
    (hidle : ∀ k, s.phase p k = .absent) :
    s.dir.fileAt p = none ∨ RowCurrent s.backing s.db cfg.mount p ∨ s.Undispatched p := by
  obtain ⟨hbefore, hafter⟩ := along_append hassumed h₁
  have htracked : s₁.Wf ∧ Tracked cfg.mount p (s₁.view p) :=
    run_invariant_along (fun s => s.Wf ∧ Tracked cfg.mount p (s.view p))
      (fun _ _ _ hi ha hs => tracked_step hi ha hs) h₁ hbefore
      ⟨wf_start cfg b dir db loaded, tracked_start hfile hrow⟩
  obtain ⟨s₂, hs, hrun⟩ := run_cons.mp h₂
  have hok := (along_cons hs).mp (hafter.and hheard)
  have hi : s.Wf ∧ Coherent cfg.mount p (s.view p) :=
    run_invariant_along (fun s => s.Wf ∧ Coherent cfg.mount p (s.view p))
      (fun _ _ _ hi ha hs => coherent_step hi ha hs) hrun hok.2
      (coherent_of_dispatch htracked hdispatch hok.1 hs)
  obtain ⟨-, hi⟩ := hi
  have hphase : ∀ k, (s.view p).phase k = .absent := hidle
  by_cases hf : s.dir.fileAt p = none
  · exact .inl hf
  right
  have hrow : (s.db.row p cfg.mount).isSome := by
    rcases hi.row (extension_of_cached hi.cached) (Option.isSome_iff_ne_none.mpr hf) with
      hr | ⟨k, t, abort, snapshot, h⟩
    · exact hr
    · exact absurd ((hphase k).symm.trans h) (by simp)
  obtain ⟨r, hr⟩ := Option.isSome_iff_exists.mp hrow
  rcases hi.fingerprint r hr with h | h | h | h
  · exact .inl ⟨r.fingerprint, by simp [CacheDb.fingerprintRow, hr], h⟩
  · exact .inr (soon_iff.mp h)
  · rw [hphase] at h
    exact h.elim
  · rw [hphase] at h
    exact h.elim

/-! ## A dispatch that is lost -/

section Lost

private def film : Name := ⟨[102, 105, 108, 109], Eq.refl true⟩

private def rewrite (f : BFile) : Action := .change (.write [film] f)

def oneCopy : Config := ⟨[109], 60, 1⟩

def filmStart : Daemon :=
  start oneCopy (Backing.empty.replaceFile [film] (.pair 80 81 1)) Files.empty ⟨∅, ∅⟩
    []

/-- The file is cached, and changed, and the dispatch has marked the copies. -/
def marked : List Action :=
  requested [film] ++ turns 1 19 ++
    [.release, rewrite (.pair 90 91 2), .event [film], .dispatch 9]

/-- The validation finds the row stale, and its replacement has begun to copy. -/
def replacing (n : Nat) : List Action :=
  .dispatch 9 :: .pop false :: turns 2 4 ++ [.pop true, .acquire] ++ turns 3 n

/-- The file changes again, and the dispatch marks the replacement. -/
def markedAgain : List Action :=
  marked ++ replacing 9 ++
    [rewrite (.pair 95 96 3), .event [film], .dispatch 9]

/-- The next validation finds the row stale and submits nothing, as the replacement
is still known; then the replacement finds that it is to abort. -/
def lost : List Action := .pop false :: turns 4 4 ++ turns 3 10

theorem dispatch_lost : ∃ s₁ s,
    (∃ i, filmStart.backing.node [film] = some (.file i)) ∧
    Along (step oneCopy) (AssumedAt [film]) filmStart (markedAgain ++ .dispatch 9 :: lost) ∧
    run (step oneCopy) filmStart markedAgain = some s₁ ∧
    s₁.watcher = some ([film], .submitValidation) ∧
    run (step oneCopy) s₁ (.dispatch 9 :: lost) = some s ∧ (∀ k, s.phase [film] k = .absent) ∧
    s.dir.fileAt [film] ≠ none ∧ (∃ fp, s.db.fingerprintRow [film] oneCopy.mount = some fp) ∧
    ¬ RowCurrent s.backing s.db oneCopy.mount [film] ∧ ¬ s.Undispatched [film] := by
  have hrun : ((run (step oneCopy) filmStart markedAgain).any fun s₁ =>
      s₁.watcher = some ([film], .submitValidation) &&
        (run (step oneCopy) s₁ (.dispatch 9 :: lost)).any fun s =>
          CacheJobKind.all.all (fun k => s.phase [film] k = .absent) &&
            (s.dir.fileAt [film]).isSome &&
            (s.db.fingerprintRow [film] oneCopy.mount).isSome &&
            !decide (RowCurrent s.backing s.db oneCopy.mount [film]) &&
            !s.pending [film] && s.watcher.isNone) = true := by decide +kernel
  obtain ⟨s₁, h₁, h⟩ := (Option.any_eq_true _ _).mp hrun
  rw [Bool.and_eq_true, decide_eq_true_iff] at h
  obtain ⟨s, h₂, hs⟩ := (Option.any_eq_true _ _).mp h.2
  simp only [Bool.and_eq_true, List.all_eq_true, decide_eq_true_eq, Bool.not_eq_true',
    decide_eq_false_iff_not, Option.isNone_iff_eq_none] at hs
  obtain ⟨⟨⟨⟨⟨hidle, hfile⟩, hrow⟩, hcur⟩, hpending⟩, hwatcher⟩ := hs
  refine ⟨s₁, s, ⟨0, rfl⟩, by decide +kernel, h₁, h.1, h₂, fun k => hidle k k.mem_all,
    Option.isSome_iff_ne_none.mp hfile, Option.isSome_iff_exists.mp hrow, hcur, ?_⟩
  rintro (hp | ⟨pc, hw⟩)
  · exact absurd (hpending.symm.trans hp) (by simp)
  · exact absurd (hwatcher.symm.trans hw) (by simp)

/-- A change that is dispatched while nothing is at work arrives. -/
theorem change_arrives : ∃ s₁ s,
    run (step oneCopy) filmStart marked = some s₁ ∧
    run (step oneCopy) s₁ (replacing 19) = some s ∧ (s.dir.fileAt [film]).isSome ∧
    (s.dir.fileAt [film] = none ∨ RowCurrent s.backing s.db oneCopy.mount [film] ∨
      s.Undispatched [film]) := by
  have hrun : ((run (step oneCopy) filmStart marked).any fun s₁ =>
      s₁.watcher = some ([film], .submitValidation) &&
        decide (Along (step oneCopy) (HeardAt oneCopy.mount [film]) s₁ (replacing 19)) &&
        (run (step oneCopy) s₁ (replacing 19)).any fun s =>
          CacheJobKind.all.all (fun k => s.phase [film] k = .absent) &&
            (s.dir.fileAt [film]).isSome) = true := by decide +kernel
  obtain ⟨s₁, h₁, h⟩ := (Option.any_eq_true _ _).mp hrun
  simp only [Bool.and_eq_true, decide_eq_true_eq] at h
  obtain ⟨⟨hdispatch, hheard⟩, h⟩ := h
  obtain ⟨s, h₂, hs⟩ := (Option.any_eq_true _ _).mp h
  simp only [Bool.and_eq_true, List.all_eq_true, decide_eq_true_eq] at hs
  refine ⟨s₁, s, h₁, h₂, hs.2, ?_⟩
  exact no_lost_invalidation ⟨0, rfl⟩ (by decide) (by decide +kernel) h₁ hdispatch h₂ hheard
    fun k => hs.1 k k.mem_all

end Lost

end FsCache
