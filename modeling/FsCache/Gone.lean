import FsCache.Agreement
import FsCache.Fleet

/- What becomes of a path whose cache file has been deleted.

   A Populate worker looks whether its path is cached, a Replace worker does not: it
   copies, renames and writes the row, however long ago the validation was that asked for
   it. A validation acts on the row it has read, and a backfill writes it anew. So a
   coherence job that was under way at the deletion may bring the entry back. `Dormant`
   says that none is.

   `gone_stays`: a dormant path without a cache file stays without one, and without a row
   once it has none, until it is asked for again. `replaced_after_eviction` is a Replace
   that was queued when its path was evicted. -/

namespace FsCache
open Lib

/-- A worker of this kind that writes neither file nor row any more, unless it is a
validation that still has its row to read. -/
def WorkerPc.inert (k : CacheJobKind) : WorkerPc → Bool
  | .start => k == .validate
  | .copy pc => pc.failed
  | .verdict (.fresh _) | .verdict .notTracked | .verdict .backingGone => true
  | .refresh _ | .dropRow | .finish => true
  | .promote | .room | .statLive _ | .verdict .stale | .verdict (.needsBackfill _) => false

def Phase.inert (k : CacheJobKind) : Phase → Bool
  | .absent => true
  | .waiting => k == .validate
  | .running _ _ pc => pc.inert k

/-- No Populate and no Replace of the path is queued or at work, no copy of it has its row
to write, and no validation has read its row and is yet to act on it. -/
def PathView.Dormant (v : PathView) : Prop := ∀ k ∈ CacheJobKind.all, (v.phase k).inert k = true

instance (v : PathView) : Decidable v.Dormant :=
  inferInstanceAs (Decidable (∀ k ∈ CacheJobKind.all, (v.phase k).inert k = true))

/-- It has the row still to read. -/
def WorkerPc.starting : WorkerPc → Bool
  | .start => true
  | _ => false

/-- The path is asked for: by `submit_cache`, or by a deferred job that a restart brings
back. A Replace comes from a validation only. -/
def Action.asks (p : RelPath) : Action → Bool
  | .offer q => q == p
  | .submit q k _ => q == p && k != .validate
  | .crash _ loaded => loaded.any fun r => r.1 == p
  | _ => false

section Moves

variable {cfg : Config} {p : RelPath} {clear tidy : Prop} {v v' : PathView} {a : Action}

theorem inert_workMove {b : Backing} {dir dir' : CacheDir} {db db' : CacheDb} {mount : MountId}
    {abort : Bool} {k : CacheJobKind} {t : Nat} {c : WorkChoice} {pc pc' : WorkerPc} {e : JobEffect}
    (hm : WorkMove b dir db mount abort p k t c pc dir' db' e pc') (h : pc.inert k = true)
    (hrow : pc = .start → db.row p mount = none) :
    pc'.inert k = true ∧ (e = .none ∨ e = .finish) := by
  cases hm with
  | skip hk => simp [WorkerPc.inert, hk] at h
  | begin hk => simp [WorkerPc.inert, hk] at h
  | readRow hk hfp =>
    rw [CacheDb.fingerprintRow, hrow rfl] at hfp
    exact absurd hfp (by simp)
  | copy hc =>
    cases hc with
    | removeInner | removeOuter => exact ⟨rfl, .inl rfl⟩
    | _ => exact absurd h (by simp [WorkerPc.inert, CopyPc.failed])
  | noRow | copyFailed | fresh | notTracked | dropFile | refresh | refreshed | dropRow =>
    exact ⟨rfl, .inl rfl⟩
  | finish => exact ⟨rfl, .inr rfl⟩
  | promote | noRoom | room | mark | statLive | backfill | stale =>
    exact absurd h (by simp [WorkerPc.inert, CopyPc.failed])

theorem inert_submitted {k : CacheJobKind} (h : (v.phase k).inert k = true) :
    ((v.submitted .validate).phase k).inert k = true := by
  simp only [PathView.submitted]
  split
  · next hk => rw [hk.1]; rfl
  · exact h

/-- Nothing wakes a dormant path up, as long as it is not asked for and no validation
reads its row. -/
theorem Dormant.move (hi : v.Dormant) (hm : PathMove cfg p clear tidy v a v')
    (hask : a.asks p = false) (hcrash : ∀ now loaded, a ≠ .crash now loaded)
    (hread : ∀ t c, a = .work t c → v.turn t WorkerPc.starting = true →
      v.db.row p cfg.mount = none) : v'.Dormant := by
  intro k hk
  have hik := hi k hk
  cases hm with
  | foreign | change | event | evictFile | evictRow | hit | touch | refresh => exact hik
  | submit k' now hrow =>
    obtain rfl : k' = .validate := by simpa [Action.asks] using hask
    exact inert_submitted hik
  | dispatch => exact inert_submitted hik
  | @expire now phase' he =>
    show (phase' k).inert k = true
    rcases he k with e | ⟨-, e⟩
    · rw [e]
      exact hik
    · rw [e]
      rfl
  | @spawn _ k' t abort hw =>
    by_cases hkk : k = k'
    · subst hkk
      rw [hw] at hik
      simp only [PathView.put, Function.update_self]
      exact hik
    · simp only [PathView.put, Function.update_of_ne hkk]
      exact hik
  | @markAbort now phase' hw hp =>
    show (phase' k).inert k = true
    rcases hp k with e | ⟨t, abort, pc, e, e'⟩
    · rw [e]
      exact hik
    · rw [e] at hik
      rw [e']
      exact hik
  | @work t c k' abort pc pc' dir' db' e hphase hw =>
    have hik' := hi k' k'.mem_all
    rw [hphase] at hik'
    obtain ⟨hpc', he⟩ := inert_workMove hw hik' fun e =>
      hread t c rfl (PathView.turn_of_phase hphase (by rw [e]; rfl))
    by_cases hkk : k = k'
    · subst hkk
      rcases he with rfl | rfl <;> simp only [PathView.worked, PathView.put, Function.update_self]
      · exact hpc'
      · rfl
    · rcases he with rfl | rfl <;>
        simp only [PathView.worked, PathView.put, Function.update_of_ne hkk] <;> exact hik
  | crash => exact absurd rfl (hcrash _ _)

/-- A dormant path gets no file. -/
theorem file_gone (hp : isPartial p = false) (hi : v.Dormant) (hm : PathMove cfg p clear tidy v a v')
    (h : v.dir.fileAt p = none) : v'.dir.fileAt p = none := by
  cases hm.file hp with
  | same e => exact e.trans h
  | evicted ha e => exact e
  | dropped ha hgone h' e => exact e.elim (fun e => e.trans h) id
  | @committed k t c abort ctx snapshot ha hr h' hfile =>
    have := hi k k.mem_all
    rw [hr] at this
    exact absurd this (by simp [Phase.inert, WorkerPc.inert, CopyPc.failed])

/-- A dormant path gets no row. -/
theorem row_gone (hi : v.Dormant) (hm : PathMove cfg p True tidy v a v')
    (hcrash : ∀ now loaded, a ≠ .crash now loaded) (h : v.db.row p cfg.mount = none) :
    v'.db.row p cfg.mount = none := by
  cases hm.row trivial with
  | same e => rwa [← Option.isNone_iff_eq_none, ← Option.not_isSome, e, Option.not_isSome,
      Option.isNone_iff_eq_none]
  | @written k t c abort pc ha hphase hpc =>
    have := hi k k.mem_all
    rw [hphase] at this
    cases pc with
    | copy pc => cases pc <;> exact absurd this (by simp_all [Phase.inert, WorkerPc.inert,
        CopyPc.failed, WorkerPc.writes])
    | verdict r => cases r <;> simp_all [Phase.inert, WorkerPc.inert, WorkerPc.writes]
    | _ => exact absurd hpc (by simp [WorkerPc.writes])
  | removed ha e => exact e
  | dropped ha hd e => exact e
  | restarted ha => exact absurd ha (hcrash _ _)

end Moves

/-! ## Over the runs of the daemon -/

namespace Daemon

variable {cfg : Config} {s s' : Daemon} {a : Action} {p : RelPath}

/-- A validation reads the row only if there is none, and a startup finds no file of
another path under the row. -/
def ReadsGone (cfg : Config) (p : RelPath) (s : Daemon) : Action → Prop
  | .work t _ => (s.view p).turn t WorkerPc.starting = true → s.db.row p cfg.mount = none
  | .crash _ _ => ∀ q ∈ filesOf s.dir, rowKey q = rowKey p → q = p
  | _ => True

instance (cfg : Config) (p : RelPath) (s : Daemon) : (a : Action) → Decidable (s.ReadsGone cfg p a)
  | .work t _ => inferInstanceAs (Decidable
      ((s.view p).turn t WorkerPc.starting = true → s.db.row p cfg.mount = none))
  | .crash _ _ => inferInstanceAs (Decidable (∀ q ∈ filesOf s.dir, rowKey q = rowKey p → q = p))
  | .change _ | .offer _ | .submit _ _ _ | .expire _ | .pop _ | .acquire | .release | .forget _
  | .event _ | .dispatch _ | .evictFile _ | .evictRow _ | .hit _ _ | .touch _ _ | .refresh _ =>
    isTrue trivial

/-- The path is not asked for, no other path writes its row, and no validation reads it
while the row is still there. -/
def LeavesGone (cfg : Config) (p : RelPath) (s : Daemon) (a : Action) : Prop :=
  a.asks p = false ∧ s.ClearAt p a ∧ s.ReadsGone cfg p a

instance (cfg : Config) (p : RelPath) (s : Daemon) (a : Action) : Decidable (s.LeavesGone cfg p a) :=
  inferInstanceAs (Decidable (_ ∧ _ ∧ _))

/-- A restart brings back no job of a path it has not loaded. -/
theorem absent_rehydrated {loaded : List (RelPath × Nat)} {permits nextTask : Nat}
    (hjobs : s.jobs = Jobs.rehydrate loaded permits nextTask) (hw : s.Wf)
    (hload : ∀ r ∈ loaded, r.1 ≠ p) (k : CacheJobKind) : s.phase p k = .absent := by
  rw [phase_eq_absent_iff, Jobs.phase_eq_absent_iff hw.partition]
  by_contra hknown
  obtain ⟨job, hj, hkey⟩ := (hw.partition.known_iff (p, k)).mp
    (Option.isSome_iff_ne_none.mpr fun e => hknown (by rw [e]; rfl))
  rw [hjobs] at hj
  obtain ⟨-, hm⟩ := Jobs.live_of_rehydrate hj
  exact hload _ hm (Prod.mk.inj hkey).1

theorem gone_step (hp : isPartial p = false) (hw : s.Wf) (hi : (s.view p).Dormant)
    (hfile : s.dir.fileAt p = none) (hok : s.LeavesGone cfg p a) (h : step cfg s a = some s') :
    (s'.view p).Dormant ∧ s'.dir.fileAt p = none ∧
      (s.db.row p cfg.mount = none → s'.db.row p cfg.mount = none) := by
  obtain ⟨hask, hclear, hread⟩ := hok
  by_cases hcrash : ∃ now loaded, a = .crash now loaded
  · obtain ⟨now, loaded, rfl⟩ := hcrash
    have hw' := hw.step h
    obtain ⟨-, hjobs, -⟩ := restart_spec h
    have hload : ∀ r ∈ loaded, r.1 ≠ p := by simpa [Action.asks] using hask
    have hstart : reconcileWithDisk s.dir s.db cfg.mount now = (s'.dir, s'.db) := by
      cases move_of_step h with
      | crash hl => rfl
    obtain ⟨hdir, hdb⟩ := Prod.mk.inj hstart
    refine ⟨fun k _ => ?_, ?_, fun hrow => ?_⟩
    · rw [show (s'.view p).phase k = .absent from absent_rehydrated hjobs hw' hload k]
      rfl
    · rw [← hdir, fileAt_removePartials, if_neg (by simp [hp]), hfile]
    · rw [← hdb]
      exact row_reconcile_eq_none hfile hrow hread
  · have hcrash' : ∀ now loaded, a ≠ .crash now loaded := fun now loaded e => hcrash ⟨now, loaded, e⟩
    have hm : PathMove cfg p True False (s.view p) a (s'.view p) :=
      pathMove_of_step hw (fun _ => hclear) (fun f => f.elim) h
    refine ⟨Dormant.move hi hm hask hcrash' ?_, file_gone hp hi hm hfile, row_gone hi hm hcrash'⟩
    rintro t c rfl hturn
    exact hread hturn

end Daemon

open Daemon

/-- From any state of a run in which the path has no cache file and no coherence job of it
is under way: as long as the steps leave it alone, it gets no file, and once its row is
gone, no row. -/
theorem gone_stays {cfg : Config} {b : Backing} {dir : CacheDir} {db : CacheDb}
    {loaded : List (RelPath × Nat)} {p : RelPath} (hp : isPartial p = false)
    {as bs : List Action} {s : Daemon}
    (hrun : run (step cfg) (start cfg b dir db loaded) as = some s)
    (hfile : s.dir.fileAt p = none) (hdormant : (s.view p).Dormant)
    (hleft : Along (step cfg) (LeavesGone cfg p) s bs) :
    Along (step cfg) (fun s a => ∀ s', step cfg s a = some s' →
      s'.dir.fileAt p = none ∧ (s.db.row p cfg.mount = none → s'.db.row p cfg.mount = none)) s bs := by
  have hw : s.Wf := run_invariant Wf (fun _ _ _ hw hs => hw.step hs) hrun (wf_start cfg b dir db loaded)
  have keep : ∀ s a s', (s.Wf ∧ (s.view p).Dormant ∧ s.dir.fileAt p = none) →
      s.LeavesGone cfg p a → step cfg s a = some s' →
      s'.Wf ∧ (s'.view p).Dormant ∧ s'.dir.fileAt p = none := by
    rintro s a s' ⟨hw, hi, hfile⟩ hok hs
    obtain ⟨hi', hfile', -⟩ := gone_step hp hw hi hfile hok hs
    exact ⟨hw.step hs, hi', hfile'⟩
  refine Along.of_invariant _ keep ?_ hleft ⟨hw, hdormant, hfile⟩
  rintro s a ⟨hw, hi, hfile⟩ hok s' hs
  exact (gone_step hp hw hi hfile hok hs).2

/-! ## A replacement that was queued -/

section Replaced

private def plate : Name := ⟨[112, 108], Eq.refl true⟩

def plateStart : Daemon :=
  start oneMount (Backing.empty.replaceFile [plate] (.pair 80 81 1)) Files.empty ⟨∅, ∅⟩ []

/-- The file is populated and replaced in the backing, a validation finds it stale and
asks for a Replace if the window is `early` enough, and the file is evicted. -/
def staleEvicted (early : Bool) : List Action :=
  requested [plate] ++ turns 1 19 ++ [.forget [plate], .release] ++
    [.change (.replace [plate] (.pair 90 91 2)), .submit [plate] .validate 9] ++
    (if early then [.pop false] ++ turns 2 4 ++ [.evictFile [plate], .evictRow [plate]]
      else [.evictFile [plate], .evictRow [plate], .pop false] ++ turns 2 3)

/-- The window opens. -/
def opened : List Action := [.pop true, .acquire] ++ turns 3 18

theorem replaced_after_eviction : ∃ s s', run (step oneMount) plateStart (staleEvicted true) = some s ∧
    s.dir.fileAt [plate] = none ∧ s.db.row [plate] oneMount.mount = none ∧
    (s.view [plate]).phase .populate = .absent ∧ s.submitting = [] ∧
    (∀ a ∈ opened, a.asks [plate] = false) ∧ run (step oneMount) s opened = some s' ∧
    (s'.dir.fileAt [plate]).isSome = true ∧ (s'.db.row [plate] oneMount.mount).isSome = true := by
  have hrun : ((run (step oneMount) plateStart (staleEvicted true)).any fun s =>
      decide (s.dir.fileAt [plate] = none) && decide (s.db.row [plate] oneMount.mount = none) &&
        decide ((s.view [plate]).phase .populate = .absent) && decide (s.submitting = []) &&
          (run (step oneMount) s opened).any fun s' =>
            (s'.dir.fileAt [plate]).isSome && (s'.db.row [plate] oneMount.mount).isSome) = true := by
    decide +kernel
  obtain ⟨s, h, hs⟩ := (Option.any_eq_true _ _).mp hrun
  simp only [Bool.and_eq_true, decide_eq_true_eq] at hs
  obtain ⟨⟨⟨⟨hfile, hrow⟩, hpopulate⟩, hsubmitting⟩, hend⟩ := hs
  obtain ⟨s', h', hs'⟩ := (Option.any_eq_true _ _).mp hend
  rw [Bool.and_eq_true] at hs'
  exact ⟨s, s', h, hfile, hrow, hpopulate, hsubmitting, by decide, h', hs'.1, hs'.2⟩

/-- A validation that finds no row any more. -/
def untracked : List Action := [.submit [plate] .validate 9, .pop false] ++ turns 3 3

theorem gone_after_validation : ∃ s, run (step oneMount) plateStart (staleEvicted false) = some s ∧
    (run (step oneMount) s untracked).isSome = true ∧
    Along (step oneMount) (fun s a => ∀ s', step oneMount s a = some s' →
      s'.dir.fileAt [plate] = none ∧
        (s.db.row [plate] oneMount.mount = none → s'.db.row [plate] oneMount.mount = none))
      s untracked := by
  have hrun : ((run (step oneMount) plateStart (staleEvicted false)).any fun s =>
      decide (s.dir.fileAt [plate] = none) && decide (s.view [plate]).Dormant &&
        (run (step oneMount) s untracked).isSome &&
          decide (Along (step oneMount) (LeavesGone oneMount [plate]) s untracked)) = true := by
    decide +kernel
  obtain ⟨s, h, hs⟩ := (Option.any_eq_true _ _).mp hrun
  simp only [Bool.and_eq_true, decide_eq_true_eq] at hs
  obtain ⟨⟨⟨hfile, hdormant⟩, hsome⟩, hleft⟩ := hs
  exact ⟨s, h, hsome, gone_stays (by decide) h hfile hdormant hleft⟩

end Replaced

end FsCache
