import FsCache.Recorded
import FsCache.Tidy

/- Fingerprint soundness over the runs of the daemon.

   `fresh_sound`: where the staleness test answers Fresh for a fingerprint that is
   recorded for `p`, the cached bytes are those of the version of `p` that was
   stat'ed; in every run that promotes copies apart (`PromotesApart`), writes no row
   of `p` under another name (`ClearAt`), commits nothing under the temporary name of
   `p` while a copy of `p` is in its window (`TempKept`), and is `Faithful`.
   `recovered_row_lies` is a run that is not: the daemon dies between the rename and
   `mark_cached`, the startup inserts a row without a fingerprint, and after a change
   of the backing the backfill gives that row the (mtime, size) of bytes which the
   cache file does not hold. -/

namespace FsCache
open Lib

def Phase.inWindow : Phase → Bool
  | .running _ _ (.copy pc) => pc.window.isSome
  | _ => false

namespace Daemon

variable {cfg : Config} {s s' : Daemon} {a : Action} {p : RelPath}

/-- Task `t` is about to rename onto `q`. -/
def renames (s : Daemon) (t : Nat) (q : RelPath) : Bool :=
  match s.copies t with
  | some (r, .rename _ _) => r == q
  | _ => false

/-- Nothing is committed under the temporary name of `p` while a copy of `p` is in
its window. -/
def TempKept (p : RelPath) (s : Daemon) : Action → Prop
  | .work t _ => s.renames t (partialPath p) = true →
    ∀ k ∈ CacheJobKind.all, (s.phase p k).inWindow = false
  | _ => True

instance (p : RelPath) (s : Daemon) : (a : Action) → Decidable (TempKept p s a)
  | .work t _ => inferInstanceAs (Decidable (s.renames t (partialPath p) = true →
      ∀ k ∈ CacheJobKind.all, (s.phase p k).inWindow = false))
  | .change _ | .offer _ | .submit _ _ _ | .expire _ | .pop _ | .acquire | .release | .forget _
  | .event _ | .dispatch _ | .evictFile _ | .evictRow _ | .hit _ _ | .touch _ _ | .refresh _
  | .crash _ _ => isTrue trivial

/-- Every change of `p` is a write, a new file or an unlink, to a fresh version. -/
def WritesAt (p : RelPath) (s : Daemon) : Action → Prop
  | .change c => BackingWrite s.backing p c
  | _ => True

instance (p : RelPath) (s : Daemon) : (a : Action) → Decidable (WritesAt p s a)
  | .change c => inferInstanceAs (Decidable (BackingWrite s.backing p c))
  | .offer _ | .submit _ _ _ | .expire _ | .pop _ | .acquire | .release | .work _ _ | .forget _
  | .event _ | .dispatch _ | .evictFile _ | .evictRow _ | .hit _ _ | .touch _ _ | .refresh _
  | .crash _ _ => isTrue trivial

/-- What the steps of a run have to meet. -/
structure FaithfulAt (mount : MountId) (p : RelPath) (s : Daemon) (a : Action) : Prop where
  apart : s.PromotesApart a
  clear : s.ClearAt p a
  temp : TempKept p s a
  faithful : Faithful mount p (s.view p) a

instance (mount : MountId) (p : RelPath) (s : Daemon) (a : Action) :
    Decidable (FaithfulAt mount p s a) :=
  decidable_of_iff (s.PromotesApart a ∧ s.ClearAt p a ∧ TempKept p s a ∧
      Faithful mount p (s.view p) a)
    ⟨fun ⟨h₁, h₂, h₃, h₄⟩ => ⟨h₁, h₂, h₃, h₄⟩, fun h => ⟨h.apart, h.clear, h.temp, h.faithful⟩⟩

/-- A run state from which `p` is told soundly. -/
structure Truthful (mount : MountId) (p : RelPath) (s : Daemon) : Prop extends s.Tidy where
  sealed : SealedAt s.dir s.copies p
  sound : Sound mount p (s.view p)

theorem sealed_step (hi : s.Tidy) (hs : SealedAt s.dir s.copies p) (hok : TempKept p s a)
    (h : step cfg s a = some s') : SealedAt s'.dir s'.copies p := by
  cases dirStep_of_step hi.wf h with
  | @copy t c q pc pc' ha ht hm hcopies =>
    subst ha
    rw [hcopies]
    refine hs.move ht (hi.alone ht (done_of_move hm)) ?_ hm
    rintro ctx snapshot rfl rfl t' ctx' - ⟨pc, hpc, hwin⟩
    have hrename : s.renames t (partialPath p) = true := by simp [renames, ht]
    obtain ⟨k, abort, hphase⟩ := phase_of_copies hi.wf hpc
    have hno := hok hrename k k.mem_all
    rw [hphase, Phase.inWindow, hwin] at hno
    exact absurd hno (by simp)
  | quiet hdata hnext hfile hcopies => exact hs.mono hfile fun t q ctx => inWindow_quiet hcopies

theorem Truthful.step (hi : s.Truthful cfg.mount p) (hp : extension p ≠ some partialExt)
    (hw : WritesAt p s a) (hok : FaithfulAt cfg.mount p s a) (h : step cfg s a = some s') :
    s'.Truthful cfg.mount p where
  toTidy := hi.toTidy.step hok.apart h
  sealed := sealed_step hi.toTidy hi.sealed hok.temp h
  sound := by
    have hm : PathMove cfg p True True (s.view p) a (s'.view p) :=
      pathMove_of_step hi.wf (fun _ => hok.clear) (fun _ => ⟨hi.windows, hi.sealed⟩) h
    refine hi.sound.move hp hm hok.faithful ?_
    rintro c rfl
    exact hw

/-- A fingerprint that the row of `p` has, or that a validation of `p` has read. -/
def FingerprintOf (mount : MountId) (s : Daemon) (p : RelPath) (fp : Fingerprint) : Prop :=
  s.db.fingerprintRow p mount = some fp ∨
    ∃ k t abort, s.phase p k = .running t abort (.statLive fp)

/-- Where the staleness test on `fp` says Fresh, the cache file of `p`, if there is
one, has the bytes of the version that was stat'ed. -/
def FreshIsSound (s : Daemon) (p : RelPath) (fp : Fingerprint) : Prop :=
  ∀ live bytes, isStaleWithFingerprint (s.backing.stat p) fp = .fresh live →
    s.dir.bytesAt p = some bytes →
    ∃ f ∈ s.backing.past p, f.version = live.version ∧ f.bytes = bytes

theorem Truthful.fresh {mount : MountId} (hi : s.Truthful mount p) {fp : Fingerprint}
    (hfp : FingerprintOf mount s p fp) : FreshIsSound s p fp := by
  intro live bytes hfresh hbytes
  obtain ⟨hstat, hzero, hmatch⟩ := isStaleWithFingerprint_fresh_iff.mp hfresh
  have hrecorded : fp.recorded = some fp.version := recorded_eq_some.mpr ⟨hzero, rfl⟩
  have hmem : fp.version ∈ (s.view p).recorded mount p := by
    refine mem_recorded.mpr (hfp.imp (fun h => ?_) ?_)
    · exact Option.bind_eq_some_iff.mpr ⟨fp, h, hrecorded⟩
    · rintro ⟨k, t, abort, h⟩
      have h : (s.view p).phase k = .running t abort (.statLive fp) := h
      exact ⟨k, by rw [h]; exact hrecorded⟩
  obtain ⟨-, hlive⟩ := hi.sound.recorded fp.version hmem
  rcases hi.sound.regular with hn | ⟨i, hnode⟩
  · have hn : s.backing.node p = none := hn
    exact absurd hstat (by simp [Backing.stat, hn])
  · have hnode : s.backing.node p = some (.file i) := hnode
    obtain rfl : (s.backing.file i).stat = live := by simpa [Backing.stat, hnode] using hstat
    have hf : s.backing.live p = some (s.backing.file i) :=
      Backing.live_eq_some.mpr ⟨i, hnode, rfl⟩
    have hver := (contentMatches_iff (s.backing.file i).size_nonneg
      (s.backing.file i).size_lt').mp hmatch
    exact ⟨s.backing.file i, Backing.live_mem_past hf, rfl,
      (hlive _ hf hver.symm bytes hbytes).symm⟩

theorem truthful_start {b : Backing} {dir : CacheDir} {db : CacheDb}
    {loaded : List (RelPath × Nat)}
    (hfile : b.node p = none ∨ ∃ i, b.node p = some (.file i)) (hdistinct : b.DistinctAt p)
    (hrow : ∀ ver, db.recorded cfg.mount p = some ver → Describes b p (dir.bytesAt p) ver) :
    (start cfg b dir db loaded).Truthful cfg.mount p where
  toTidy := tidy_start cfg b dir db loaded
  sealed := sealed_idle (wf_start cfg b dir db loaded) (phase_start cfg b dir db loaded) p
  sound := by
    have hphase : ∀ k, ((start cfg b dir db loaded).view p).phase k = .absent ∨
        ((start cfg b dir db loaded).view p).phase k = .waiting := phase_start cfg b dir db loaded p
    refine ⟨hfile, hdistinct, fun ver hver => ?_, fun k t abort st h => ?_, fun k t abort pc h => ?_⟩
    · rcases mem_recorded.mp hver with h | ⟨k, h⟩
      · exact hrow ver h
      · rcases hphase k with e | e <;> rw [e] at h <;> exact absurd h (by simp [Phase.recorded])
    · rcases hphase k with e | e <;> exact absurd (e.symm.trans h) (by simp)
    · rcases hphase k with e | e <;> exact absurd (e.symm.trans h) (by simp)

end Daemon

open Daemon

/-- In every run from a cache whose row of `p` describes its bytes, that writes `p` to
fresh versions only and meets `FaithfulAt` at every step, the staleness test is sound
for every fingerprint that is recorded for `p`. -/
theorem fresh_sound {cfg : Config} {b : Backing} {dir : CacheDir} {db : CacheDb}
    {loaded : List (RelPath × Nat)} {p : RelPath} {as : List Action} {s : Daemon}
    (hp : extension p ≠ some partialExt)
    (hfile : b.node p = none ∨ ∃ i, b.node p = some (.file i)) (hdistinct : b.DistinctAt p)
    (hrow : ∀ ver, db.recorded cfg.mount p = some ver → Describes b p (dir.bytesAt p) ver)
    (hrun : run (step cfg) (start cfg b dir db loaded) as = some s)
    (hwrites : Along (step cfg) (WritesAt p) (start cfg b dir db loaded) as)
    (hok : Along (step cfg) (FaithfulAt cfg.mount p) (start cfg b dir db loaded) as)
    {fp : Fingerprint} (hfp : FingerprintOf cfg.mount s p fp) : FreshIsSound s p fp := by
  have hi : s.Truthful cfg.mount p :=
    run_invariant_along (Truthful cfg.mount p) (fun _ _ _ hi ha hs => hi.step hp ha.1 ha.2 hs)
      hrun (hwrites.and hok) (truthful_start hfile hdistinct hrow)
  exact hi.fresh hfp

/-! ## A row that lies -/

section Lies

private def reel : Name := ⟨[114, 101, 101, 108], Eq.refl true⟩

def reelConfig : Config := ⟨[109], 60, 1⟩

def reelStart : Daemon :=
  start reelConfig (Backing.empty.replaceFile [reel] (.pair 80 81 1)) Files.empty
    ⟨∅, ∅⟩ []

/-- The daemon dies when the copy has renamed, and before it writes the row; the
startup inserts a row and loads the population again. -/
def crashed : List Action := requested [reel] ++ turns 1 17 ++ [.crash 9 [([reel], 9)]]

/-- The population finds the file cached; the validation has its row backfilled. -/
def validated : List Action := [.submit [reel] .validate 9, .pop true, .acquire, .pop false] ++ turns 3 3

/-- The file is rewritten before the validation. -/
def rewritten : List Action :=
  crashed ++ [.change (.write [reel] (.pair 90 91 2))] ++ validated

theorem recovered_row_lies : ∃ s,
    run (step reelConfig) reelStart rewritten = some s ∧
    Along (step reelConfig) (WritesAt [reel]) reelStart rewritten ∧
    (∃ fp, s.db.fingerprintRow [reel] reelConfig.mount = some fp ∧ ¬ FreshIsSound s [reel] fp) := by
  have hrun : ((run (step reelConfig) reelStart rewritten).any fun s =>
      (s.db.fingerprintRow [reel] reelConfig.mount).any fun fp =>
        (s.backing.stat [reel]).any fun live =>
          isStaleWithFingerprint (s.backing.stat [reel]) fp = .fresh live &&
            s.dir.bytesAt [reel] = some [80, 81] &&
            (s.backing.past [reel]).all fun f =>
              f.version ≠ live.version || f.bytes ≠ [80, 81]) = true := by decide +kernel
  obtain ⟨s, hrun, h⟩ := (Option.any_eq_true _ _).mp hrun
  obtain ⟨fp, hfp, h⟩ := (Option.any_eq_true _ _).mp h
  obtain ⟨live, -, h⟩ := (Option.any_eq_true _ _).mp h
  simp only [Bool.and_eq_true, decide_eq_true_eq, List.all_eq_true, Bool.or_eq_true] at h
  obtain ⟨⟨hfresh, hbytes⟩, hno⟩ := h
  refine ⟨s, hrun, by decide +kernel, fp, hfp, fun hsound => ?_⟩
  obtain ⟨f, hf, hver, hb⟩ := hsound live [80, 81] hfresh hbytes
  rcases hno f hf with h | h
  · exact h hver
  · exact h hb

/-- Validated before anything changes, the recovered row gets the version of its bytes. -/
theorem recovered_row_sound : ∃ s fp,
    run (step reelConfig) reelStart (crashed ++ validated) = some s ∧
    s.db.fingerprintRow [reel] reelConfig.mount = some fp ∧ fp.isZero = false ∧
    FreshIsSound s [reel] fp := by
  have hrun : ((run (step reelConfig) reelStart (crashed ++ validated)).any fun s =>
      (s.db.fingerprintRow [reel] reelConfig.mount).any fun fp => !fp.isZero) = true := by
    decide +kernel
  obtain ⟨s, hrun, h⟩ := (Option.any_eq_true _ _).mp hrun
  obtain ⟨fp, hfp, hzero⟩ := (Option.any_eq_true _ _).mp h
  refine ⟨s, fp, hrun, hfp, by simpa using hzero, ?_⟩
  exact fresh_sound (by decide) (.inr ⟨0, rfl⟩) (by decide) (by decide) hrun (by decide +kernel)
    (by decide +kernel) (.inl hfp)

end Lies

end FsCache
