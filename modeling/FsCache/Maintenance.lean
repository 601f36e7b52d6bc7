import FsCache.Startup
import FsCache.Invalidation

/- The maintenance round (`run_maintenance_task`, engine/action.rs, and
   `submit_maintenance_validation`, cache/io.rs): the fingerprints of the mount are read
   at once, and their paths are submitted for validation one by one, while everything else
   goes on.

   It is for the changes the watcher has not heard of. `maintenance_repairs`: a path that
   was cached when a round began, with no change of its file since, has the version of the
   live file in its row when the round is through and no job of the path is left; whatever
   was changed before, and whether or not the watcher ever dispatches that. The run has to
   be heard in the sense of `Heard` from the round on, and no submission of the round may
   meet a validation of the path that has begun and does not see the file.

   The sleep between two rounds is any number of other steps.

   Correspondence (Rust ↔ Lean):
     `run_maintenance_task`             ↔ `Maintained.step`
     `submit_maintenance_validation`    ↔ `MaintenanceAction.round`, `MaintenanceAction.submit`
     the `Vec` that is iterated over    ↔ `Maintained.todo` -/

namespace FsCache
open Lib Daemon

/-- The daemon, and the paths of the round that are still to be submitted. -/
structure Maintained where
  daemon : Daemon
  todo : List RelPath

inductive MaintenanceAction where
  | work (a : Action)
  /-- the fingerprints are read -/
  | round
  /-- `submit_validation` of the next path -/
  | submit (now : Nat)

namespace Maintained

variable {cfg : Config} {p : RelPath} {m m' : Maintained} {a : MaintenanceAction}

def step (cfg : Config) (m : Maintained) : MaintenanceAction → Option Maintained
  | .work a =>
    (Daemon.step cfg m.daemon a).map fun s =>
      match a with
      | .crash _ _ => ⟨s, []⟩
      | _ => { m with daemon := s }
  | .round =>
    if m.todo = [] then some { m with todo := (m.daemon.db.allFingerprints cfg.mount).map Prod.fst } else none
  | .submit now =>
    match m.todo with
    | [] => none
    | q :: rest => (Daemon.step cfg m.daemon (.submit q .validate now)).map fun s => ⟨s, rest⟩

/-- What the daemon does in this step. -/
def action (m : Maintained) : MaintenanceAction → Option Action
  | .work a => some a
  | .round => none
  | .submit now => m.todo.head?.map fun q => .submit q .validate now

/-- `Daemon.AssumedAt`, in the rounds as elsewhere. -/
def AssumedAt (p : RelPath) (m : Maintained) (a : MaintenanceAction) : Prop :=
  ∀ a' ∈ m.action a, Daemon.AssumedAt p m.daemon a'

instance (p : RelPath) (m : Maintained) (a : MaintenanceAction) : Decidable (m.AssumedAt p a) :=
  inferInstanceAs (Decidable (∀ a' ∈ m.action a, _))

/-- The file at `p` is left as it is. -/
def Spares (p : RelPath) (s : Daemon) : Action → Prop
  | .change c => s.backing.Touches p c = false
  | _ => True

instance (p : RelPath) (s : Daemon) : (a : Action) → Decidable (Spares p s a)
  | .change c => inferInstanceAs (Decidable (s.backing.Touches p c = false))
  | .offer _ | .submit _ _ _ | .expire _ | .pop _ | .acquire | .release | .work _ _ | .forget _
  | .event _ | .dispatch _ | .evictFile _ | .evictRow _ | .hit _ _ | .touch _ _ | .refresh _
  | .crash _ _ => isTrue trivial

/-- The submission is not dropped for a validation that does not see the file. -/
def Taken (mount : MountId) (p : RelPath) (v : PathView) : Prop :=
  v.phase .validate = .absent ∨ (v.phase .validate).unbegun = true ∨
    (v.phase .validate).sees (v.db.fingerprintRow p mount) = true ∧ v.Settled p

instance (mount : MountId) (p : RelPath) (v : PathView) : Decidable (Taken mount p v) :=
  inferInstanceAs (Decidable (_ ∨ _))

/-- From the round on: the file stays, and what is submitted for it is heard. -/
def RepairsAt (mount : MountId) (p : RelPath) (m : Maintained) : MaintenanceAction → Prop
  | .work a => HeardAt mount p m.daemon a ∧ Spares p m.daemon a
  | .round => True
  | .submit _ => m.todo.head? = some p → Taken mount p (m.daemon.view p)

instance (mount : MountId) (p : RelPath) (m : Maintained) :
    (a : MaintenanceAction) → Decidable (m.RepairsAt mount p a)
  | .work _ => inferInstanceAs (Decidable (_ ∧ _))
  | .round => isTrue trivial
  | .submit _ => inferInstanceAs (Decidable (_ → _))

end Maintained

/-! ## What the watcher has not heard of -/

/-- The path, as if no change of it were outstanding. -/
def PathView.quieted (v : PathView) : PathView := { v with pending := false }

section Quieted

variable {cfg : Config} {mount : MountId} {p : RelPath} {v v' : PathView} {a : Action}

/-- The mark of a change outstanding is only ever set by a change. -/
theorem PathMove.quieted (hm : PathMove cfg p True False v a v')
    (hspares : ∀ c, a = .change c → v.backing.Touches p c = false) :
    PathMove cfg p True False v.quieted a v'.quieted := by
  cases hm with
  | foreign hrow hname => exact .foreign hrow hname
  | @change c b' h =>
    have hview : PathMove cfg p True False v.quieted (.change c)
        { v.quieted with backing := b', pending := false || v.backing.Touches p c } := .change h
    rw [hspares c rfl] at hview
    exact hview
  | submit k now hrow => exact .submit k now hrow
  | expire h => exact .expire h
  | spawn t abort h => exact .spawn t abort h
  | @work t c k abort pc pc' dir' db' e hphase hm hfile hstep =>
    have hview : PathMove cfg p True False v.quieted (.work t c) (v.quieted.worked k t abort dir' db' e pc') :=
      .work hphase hm hfile hstep
    cases e <;> exact hview
  | event hw => exact .event hw
  | markAbort hw h => exact .markAbort hw h
  | dispatch hw => exact .dispatch hw
  | evictFile h => exact .evictFile h
  | evictRow => exact .evictRow
  | hit now => exact .hit now
  | touch i h => exact .touch i h
  | refresh h hr => exact .refresh h hr
  | crash hr hphase => exact .crash hr hphase

theorem Tracked.quieted (h : Tracked mount p v) : Tracked mount p v.quieted :=
  ⟨h.regular, h.fits, h.noDrop, h.calm, h.watched, h.row⟩

theorem assumed_quieted (h : Assumed p v a) : Assumed p v.quieted a := by
  cases a <;> exact h

theorem heard_quieted (h : Heard mount p v a) : Heard mount p v.quieted a := by
  cases a <;> exact h

/-- A submission that is taken sees to everything but a change outstanding. -/
theorem coherent_taken (htracked : Tracked cfg.mount p (v.submitted .validate)) (hcached : isCached v.dir p = true)
    (htaken : Maintained.Taken cfg.mount p v) : Coherent cfg.mount p (v.submitted .validate).quieted := by
  rcases htaken with h | h | ⟨hsees, hsettled⟩
  · refine .unbegun htracked.quieted hcached ?_
    simp [PathView.quieted, PathView.submitted, h, Phase.unbegun]
  · exact .unbegun htracked.quieted hcached (unbegun_submitted h)
  · have hphase : (v.submitted .validate).phase .validate = v.phase .validate := by
      refine if_neg fun h => ?_
      rw [h.2] at hsees
      exact absurd hsees (by simp [Phase.sees])
    refine .seeing htracked.quieted hcached ?_ fun k _ snapshot hs => hsettled k k.mem_all snapshot ?_
    · show ((v.submitted .validate).phase .validate).sees _ = true
      rw [hphase]
      exact hsees
    · have hs : snapshot ∈ ((v.submitted .validate).phase k).snapshot := hs
      simp only [PathView.submitted] at hs
      split at hs
      · exact absurd hs (by simp [Phase.snapshot])
      · exact hs

end Quieted

/-! ## A round -/

namespace Maintained

variable {cfg : Config} {p : RelPath} {m m' : Maintained} {a : MaintenanceAction}

/-- The path is still to be submitted, or its validation sees to everything. -/
structure Repairing (mount : MountId) (p : RelPath) (m : Maintained) : Prop where
  wf : m.daemon.Wf
  tracked : Tracked mount p (m.daemon.view p)
  cached : isCached m.daemon.dir p = true
  seen : p ∈ m.todo ∨ Coherent mount p (m.daemon.view p).quieted

/-- What the daemon does meanwhile. -/
theorem Repairing.worked (hi : m.Repairing cfg.mount p) {a : Action} {s : Daemon}
    (ha : Daemon.AssumedAt p m.daemon a) (hh : HeardAt cfg.mount p m.daemon a) (hspares : Spares p m.daemon a)
    (hs : Daemon.step cfg m.daemon a = some s) :
    s.Wf ∧ Tracked cfg.mount p (s.view p) ∧ isCached s.dir p = true ∧
      (Coherent cfg.mount p (m.daemon.view p).quieted → Coherent cfg.mount p (s.view p).quieted) := by
  have hm : PathMove cfg p True False (m.daemon.view p) a (s.view p) :=
    pathMove_of_step hi.wf (fun _ => ha.2) (fun ht => ht.elim) hs
  refine ⟨hi.wf.step hs, hi.tracked.move hm ha.1, cached_move hi.tracked hi.cached hm ha.1, fun hc => ?_⟩
  refine hc.move (hm.quieted fun c e => ?_) (assumed_quieted ha.1) (heard_quieted hh)
  subst e
  exact hspares

theorem Repairing.step (hi : m.Repairing cfg.mount p) (hok : m.AssumedAt p a ∧ m.RepairsAt cfg.mount p a)
    (h : m.step cfg a = some m') : m'.Repairing cfg.mount p := by
  obtain ⟨hassumed, hrepairs⟩ := hok
  cases a with
  | work a =>
    have ha : Daemon.AssumedAt p m.daemon a := hassumed a rfl
    obtain ⟨s, hs, hm'⟩ := Option.map_eq_some_iff.mp h
    obtain ⟨hwf, htracked, hcached, hcoherent⟩ := hi.worked ha hrepairs.1 hrepairs.2 hs
    have hnext : m' = { m with daemon := s } := by
      cases a with
      | crash => exact ha.1.elim
      | change | offer | submit | expire | pop | acquire | release | work | forget | event | dispatch | evictFile
      | evictRow | hit | touch | refresh => exact hm'.symm
    subst hnext
    exact ⟨hwf, htracked, hcached, hi.seen.imp_right hcoherent⟩
  | round =>
    rw [Maintained.step] at h
    split at h
    · next hdone =>
      obtain rfl := Option.some.inj h
      have hc := hi.seen.resolve_left (by rw [hdone]; exact List.not_mem_nil)
      exact ⟨hi.wf, hi.tracked, hi.cached, .inr hc⟩
    · exact absurd h (by simp)
  | submit now =>
    rw [Maintained.step] at h
    split at h
    · exact absurd h (by simp)
    · next q rest htodo =>
      obtain ⟨s, hs, rfl⟩ := Option.map_eq_some_iff.mp h
      have ha : Daemon.AssumedAt p m.daemon (.submit q .validate now) := hassumed _ (by rw [action, htodo]; rfl)
      obtain ⟨hwf, htracked, hcached, hcoherent⟩ := hi.worked ha trivial trivial hs
      refine ⟨hwf, htracked, hcached, ?_⟩
      rcases hi.seen with hmem | hc
      · rw [htodo] at hmem
        rcases List.mem_cons.mp hmem with hpq | hmem
        · right
          have htaken : Taken cfg.mount p (m.daemon.view p) := hrepairs (by rw [htodo, hpq]; rfl)
          have hview : s.view p = (m.daemon.view p).submitted .validate := by
            subst hpq
            obtain rfl := Option.some.inj hs
            exact PathView.ext rfl rfl rfl rfl rfl (phase_submit_self hi.wf rfl rfl rfl) rfl
          show Coherent cfg.mount p (s.view p).quieted
          rw [hview] at htracked ⊢
          exact coherent_taken htracked hi.cached htaken
        · exact .inl hmem
      · exact .inr (hcoherent hc)

/-- What is kept before the round. -/
theorem tracked_work (hi : m.daemon.Wf ∧ Tracked cfg.mount p (m.daemon.view p)) (ha : m.AssumedAt p a)
    (h : m.step cfg a = some m') : m'.daemon.Wf ∧ Tracked cfg.mount p (m'.daemon.view p) := by
  cases a with
  | work a =>
    have ha : Daemon.AssumedAt p m.daemon a := ha a rfl
    obtain ⟨s, hs, hm'⟩ := Option.map_eq_some_iff.mp h
    have hnext : m'.daemon = s := by
      rw [← hm']
      cases a <;> rfl
    exact hnext ▸ tracked_step hi ha hs
  | round =>
    rw [Maintained.step] at h
    split at h
    · obtain rfl := Option.some.inj h
      exact hi
    · exact absurd h (by simp)
  | submit now =>
    rw [Maintained.step] at h
    split at h
    · exact absurd h (by simp)
    · next q rest htodo =>
      obtain ⟨s, hs, rfl⟩ := Option.map_eq_some_iff.mp h
      exact tracked_step hi (ha _ (by rw [action, htodo]; rfl)) hs

end Maintained

open Maintained

section Sample

private def record : Name := ⟨[114, 101, 99], Eq.refl true⟩

private def recordStart : Maintained :=
  ⟨start oneCopy (Backing.empty.replaceFile [record] (.pair 80 81 1)) Files.empty ⟨∅, ∅⟩ [], []⟩

/-- The file is cached, and changed, and the watcher does nothing. -/
private def behindItsBack : List Action :=
  requested [record] ++ turns 1 19 ++ [.release, .change (.write [record] (.pair 90 91 2))]

private def unheard : List MaintenanceAction := behindItsBack.map .work

/-- Its validation finds the row stale, and the file is copied again. -/
private def revalidated : List Action :=
  .pop false :: turns 2 4 ++ [.pop true, .acquire] ++ turns 3 19

private def repair : List MaintenanceAction := .submit 9 :: revalidated.map .work

private def staleRecord : Maintained := (run (Maintained.step oneCopy) recordStart unheard).get (by decide +kernel)

private theorem run_staleRecord : run (Maintained.step oneCopy) recordStart unheard = some staleRecord :=
  (Option.some_get _).symm

private def repaired : Maintained :=
  (run (Maintained.step oneCopy) staleRecord (.round :: repair)).get (by decide +kernel)

private theorem run_repaired : run (Maintained.step oneCopy) staleRecord (.round :: repair) = some repaired :=
  (Option.some_get _).symm

end Sample

end FsCache
