import FsCache.Tidy

/- One writer per destination: the temporary file of a cache file, over the runs of
   the whole daemon.

   `one_writer`: in a run that promotes no copy while the other kind's copy of the
   same path is still copying, no two copies are between opening and renaming (or
   removing) the temporary file of one path, and every file in the cache directory
   holds the bytes of one copy. `two_writers` is the run where they meet. -/

namespace FsCache
open Lib

namespace Daemon

variable {cfg : Config} {s s' : Daemon} {a : Action}

structure Exclusive (s : Daemon) : Prop extends s.Tidy where
  writer : OneWriter s.dir

theorem Exclusive.step (hi : s.Exclusive) (hok : s.PromotesApart a)
    (h : step cfg s a = some s') : s'.Exclusive where
  toTidy := hi.toTidy.step hok h
  writer := by
    cases dirStep_of_step hi.wf h with
    | copy ha ht hm hcopies => exact hi.writer.move hi.windows ht hm
    | quiet hdata hnext hfile hcopies =>
      rw [OneWriter, hdata]
      exact hi.writer

end Daemon

open Daemon

/-- In every run that promotes no copy beside the other kind's copy of its path, at
most one copy is in the window of a destination, and every cache file holds the
bytes of one copy. -/
theorem one_writer {cfg : Config} {b : Backing} {dir : CacheDir} {db : CacheDb}
    {loaded : List (RelPath × Nat)} {as : List Action} {s : Daemon} (hdir : OneWriter dir)
    (hrun : run (step cfg) (start cfg b dir db loaded) as = some s)
    (hok : Along (step cfg) PromotesApart (start cfg b dir db loaded) as) :
    (∀ p t t' ctx ctx', InWindow s.copies t p ctx → InWindow s.copies t' p ctx' → t = t') ∧
      OneWriter s.dir := by
  have hi : s.Exclusive :=
    run_invariant_along Exclusive (fun _ _ _ hi hok hs => hi.step hok hs) hrun hok
      ⟨tidy_start cfg b dir db loaded, hdir⟩
  refine ⟨?_, hi.writer⟩
  rintro p t t' ctx ctx' ⟨pc, h, hwin⟩ ⟨pc', h', hwin'⟩
  exact copies_inj hi.wf (hi.fits p) (hi.apart p) h h' (done_of_window hwin) (done_of_window hwin')

/-! ## The run where two copies meet -/

section Meet

/-- Some copy of `p` runs as task `t`, and is in its window. -/
private def inWindow (cp : Copies) (t : Nat) (p : RelPath) : Bool :=
  (cp t).any fun r => r.1 = p && r.2.window.isSome

private theorem exists_window {cp : Copies} {t : Nat} {p : RelPath} (h : inWindow cp t p = true) :
    ∃ ctx, InWindow cp t p ctx := by
  obtain ⟨⟨q, pc⟩, hr, hp⟩ := (Option.any_eq_true _ _).mp h
  rw [Bool.and_eq_true, decide_eq_true_iff] at hp
  obtain ⟨ctx, hctx⟩ := Option.isSome_iff_exists.mp hp.2
  obtain rfl : q = p := hp.1
  exact ⟨ctx, pc, hr, hctx⟩

private def clip : Name := ⟨[99, 108, 105, 112], Eq.refl true⟩

def twoPermits : Config := ⟨[109], 60, 2⟩

def oneFile : Backing := Backing.empty.replaceFile [clip] (.pair 80 81 1)

def clipStart : Daemon := start twoPermits oneFile Files.empty ⟨∅, ∅⟩ []

/-- The file is cached, changed and found stale, and its replacement opens the
temporary file; then the entry is evicted, submitted again, and its population
opens the temporary file too. -/
def meet : List Action :=
  requested [clip] ++ turns 1 19 ++
    [.release, .change (.write [clip] (.pair 90 91 2)), .event [clip], .dispatch 9,
      .dispatch 9, .pop false] ++ turns 2 4 ++ [.pop true, .acquire] ++ turns 3 9 ++
    [.evictFile [clip], .evictRow [clip]] ++ requested [clip] ++ turns 4 7

/-- Each copies one byte, and the replacement commits. -/
def commitBoth : List Action := turns 4 2 ++ turns 3 8

theorem two_writers : ∃ s₁ s₂,
    run (step twoPermits) clipStart meet = some s₁ ∧
    (∃ ctx ctx', InWindow s₁.copies 3 [clip] ctx ∧ InWindow s₁.copies 4 [clip] ctx') ∧
    run (step twoPermits) s₁ commitBoth = some s₂ ∧
    s₂.dir.contents [clip] = some [⟨90, 4⟩, ⟨91, 3⟩] ∧ ¬ OneWriter s₂.dir := by
  have hmeet : ((run (step twoPermits) clipStart meet).any fun s₁ =>
      inWindow s₁.copies 3 [clip] && inWindow s₁.copies 4 [clip] &&
        (run (step twoPermits) s₁ commitBoth).any fun s₂ =>
          s₂.dir.contents [clip] = some [⟨90, 4⟩, ⟨91, 3⟩]) = true := by decide +kernel
  obtain ⟨s₁, hrun, h⟩ := (Option.any_eq_true _ _).mp hmeet
  simp only [Bool.and_eq_true] at h
  obtain ⟨s₂, hcommit, hdata⟩ := (Option.any_eq_true _ _).mp h.2
  have hdata : s₂.dir.contents [clip] = some [⟨90, 4⟩, ⟨91, 3⟩] := of_decide_eq_true hdata
  obtain ⟨ctx, h3⟩ := exists_window h.1.1
  obtain ⟨ctx', h4⟩ := exists_window h.1.2
  refine ⟨s₁, s₂, hrun, ⟨ctx, ctx', h3, h4⟩, hcommit, hdata, fun hone => ?_⟩
  obtain ⟨i, -, hi⟩ := Option.map_eq_some_iff.mp hdata
  obtain ⟨w, hwriter⟩ := hone i
  rw [hi] at hwriter
  have h4 : 4 = w := hwriter ⟨90, 4⟩ (by simp)
  have h3 : 3 = w := hwriter ⟨91, 3⟩ (by simp)
  omega

/-- Without the eviction the two copies keep apart. -/
def apart : List Action :=
  requested [clip] ++ turns 1 19 ++
    [.release, .change (.write [clip] (.pair 90 91 2)), .event [clip], .dispatch 9,
      .dispatch 9, .pop false] ++ turns 2 4 ++ [.pop true, .acquire] ++ turns 3 9

theorem one_writer_apart : ∃ s,
    run (step twoPermits) clipStart apart = some s ∧ (∃ ctx, InWindow s.copies 3 [clip] ctx) ∧
    (∀ p t t' ctx ctx', InWindow s.copies t p ctx → InWindow s.copies t' p ctx' → t = t') ∧
      OneWriter s.dir := by
  have hrun : ((run (step twoPermits) clipStart apart).any fun s =>
      inWindow s.copies 3 [clip]) = true := by decide +kernel
  obtain ⟨s, hrun, h⟩ := (Option.any_eq_true _ _).mp hrun
  have hdir : OneWriter (Files.empty : CacheDir) := fun i => ⟨0, by simp [Files.empty]⟩
  exact ⟨s, hrun, exists_window h, one_writer hdir hrun (by decide +kernel)⟩

end Meet

end FsCache
