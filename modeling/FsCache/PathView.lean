import FsCache.Daemon

/- The daemon as seen from one path.

   What becomes of the cache entry of a path is decided by few things: the
   backing, the path's cache file and row, whether a change of it is undispatched,
   where the watcher is with it, and the phase of its three jobs. `PathView` is
   these, and `PathMove` is what can happen to them. `pathMove_of_step` is the
   simulation: each step of the daemon is a move of every path's view, and what it
   does for other paths is `PathMove.foreign`. The invariants of single paths are
   proved over `PathMove`, where there are no task numbers, queues or other paths.

   Two things can be known of the daemon or not, and are parameters. `clear`: no
   other path shares the row of the path. `tidy`: the temporary files are each
   written by one copy, so that a rename commits what its copy has written. -/

namespace FsCache
open Lib

/-- Where the job of one kind is, and what its worker does next. -/
inductive Phase where
  | absent
  | waiting
  | running (t : Nat) (abort : Bool) (pc : WorkerPc)
  deriving DecidableEq

@[ext] structure PathView where
  backing : Backing
  dir : CacheDir
  db : CacheDb
  pending : Bool
  watcher : Option WatcherPc
  phase : CacheJobKind → Phase
  refreshing : Nat → Option RefreshPc

namespace PathView

/-- A job of this kind is submitted, unless there is one. -/
def submitted (v : PathView) (k : CacheJobKind) : PathView :=
  { v with phase := fun k' => if k' = k ∧ v.phase k' = .absent then .waiting else v.phase k' }

def put (v : PathView) (k : CacheJobKind) (ph : Phase) : PathView :=
  { v with phase := Function.update v.phase k ph }

/-- After a step of the path's own worker of kind `k`. -/
def worked (v : PathView) (k : CacheJobKind) (t : Nat) (abort : Bool) (dir : CacheDir) (db : CacheDb)
    (e : JobEffect) (pc : WorkerPc) : PathView :=
  let v := { v with dir := dir, db := db }
  match e with
  | .none => v.put k (.running t abort pc)
  | .promote => v.put k (.running t false pc)
  | .submitReplace => (v.put k (.running t abort pc)).submitted .replace
  | .finish => v.put k .absent

end PathView

namespace Daemon

def phase (s : Daemon) (p : RelPath) (k : CacheJobKind) : Phase :=
  match s.jobs.phase (p, k) with
  | .absent => .absent
  | .waiting => .waiting
  | .running t => .running t (s.aborted t) (s.pc t)

def view (s : Daemon) (p : RelPath) : PathView where
  backing := s.backing
  dir := s.dir
  db := s.db
  pending := s.pending p
  watcher := s.watcher.bind fun w => if w.1 = p then some w.2 else none
  phase := s.phase p
  refreshing i := (s.refreshing i).bind fun r => if r.1 = p then some r.2 else none

end Daemon

/-- The cache file at `p` is what a copy has written, committed by its rename, or, at
any other step, is as it was or is dropped. -/
def OwnFile (p : RelPath) (t : Nat) (dir dir' : CacheDir) (pc pc' : WorkerPc) : Prop :=
  (∃ ctx snapshot, pc = .copy (.rename ctx snapshot) ∧ pc' = .copy (.ok snapshot) ∧
      dir'.contents p = some (written t ctx.written)) ∨
    (∀ snapshot, pc' ≠ .copy (.ok snapshot)) ∧
      (dir'.contents p = dir.contents p ∨ dir'.contents p = none)

/-- What can happen to a path. -/
inductive PathMove (cfg : Config) (p : RelPath) (clear tidy : Prop) (v : PathView) :
    Action → PathView → Prop
  | foreign {a : Action} {dir' : CacheDir} {db' : CacheDb}
      (hrow : clear → db'.row p cfg.mount = v.db.row p cfg.mount)
      (hname : extension p ≠ some partialExt → dir'.fileAt p = v.dir.fileAt p ∧
        ((v.dir.lookup p).isSome → (dir'.lookup p).isSome) ∧
        (tidy → dir'.contents p = v.dir.contents p)) :
      PathMove cfg p clear tidy v a { v with dir := dir', db := db' }
  | change {c : BackingChange} {b' : Backing} (h : v.backing.change c = some b') :
      PathMove cfg p clear tidy v (.change c)
        { v with backing := b', pending := v.pending || v.backing.Touches p c }
  | submit (k : CacheJobKind) (now : Nat) {db' : CacheDb}
      (hrow : db'.row p cfg.mount = v.db.row p cfg.mount) :
      PathMove cfg p clear tidy v (.submit p k now) ({ v with db := db' }.submitted k)
  | expire {now : Nat} {phase' : CacheJobKind → Phase}
      (h : ∀ k, phase' k = v.phase k ∨ v.phase k = .waiting ∧ phase' k = .absent) :
      PathMove cfg p clear tidy v (.expire now) { v with phase := phase' }
  | spawn {a : Action} {k : CacheJobKind} (t : Nat) (abort : Bool) (h : v.phase k = .waiting) :
      PathMove cfg p clear tidy v a (v.put k (.running t abort .start))
  | work {t : Nat} {c : WorkChoice} {k : CacheJobKind} {abort : Bool} {pc pc' : WorkerPc}
      {dir' : CacheDir} {db' : CacheDb} {e : JobEffect} (hphase : v.phase k = .running t abort pc)
      (hm : WorkMove v.backing v.dir v.db cfg.mount abort p k t c pc dir' db' e pc')
      (hfile : tidy → extension p ≠ some partialExt → OwnFile p t v.dir dir' pc pc')
      (hstep : workerStep v.backing v.dir v.db cfg.mount abort p k t c pc = some (dir', db', e, pc')) :
      PathMove cfg p clear tidy v (.work t c) (v.worked k t abort dir' db' e pc')
  | event (hw : v.watcher = none) :
      PathMove cfg p clear tidy v (.event p)
        { v with
          pending := false
          watcher := if isCached v.dir p then some .markAbort else none }
  | markAbort {now : Nat} {phase' : CacheJobKind → Phase} (hw : v.watcher = some .markAbort)
      (h : ∀ k, phase' k = v.phase k ∨
        ∃ t abort pc, v.phase k = .running t abort pc ∧ phase' k = .running t true pc) :
      PathMove cfg p clear tidy v (.dispatch now)
        { v with watcher := some .submitValidation, phase := phase' }
  | dispatch {now : Nat} (hw : v.watcher = some .submitValidation) :
      PathMove cfg p clear tidy v (.dispatch now) { v.submitted .validate with watcher := none }
  | evictFile {dir' : CacheDir} (h : v.dir.remove p = some dir') :
      PathMove cfg p clear tidy v (.evictFile p) { v with dir := dir' }
  | evictRow :
      PathMove cfg p clear tidy v (.evictRow p) { v with db := v.db.remove p cfg.mount }
  | hit (now : Nat) :
      PathMove cfg p clear tidy v (.hit p now) { v with db := v.db.markHit p cfg.mount now }
  | touch (i : Nat) {st : Stat} (h : v.backing.stat p = some st) :
      PathMove cfg p clear tidy v (.touch i p)
        { v with refreshing := Function.update v.refreshing i (some (.readFingerprint st)) }
  | refresh {i : Nat} {pc : RefreshPc} {db' : CacheDb} {next : Option RefreshPc}
      (h : v.refreshing i = some pc) (hr : refreshStep v.db cfg.mount p pc = (db', next)) :
      PathMove cfg p clear tidy v (.refresh i)
        { v with db := db', refreshing := Function.update v.refreshing i next }
  | crash {now : Nat} {loaded : List (RelPath × Nat)} {dir' : CacheDir} {db' : CacheDb}
      {phase' : CacheJobKind → Phase}
      (hr : reconcileWithDisk v.dir v.db cfg.mount now = (dir', db'))
      (hphase : ∀ k, phase' k = .absent ∨ phase' k = .waiting) :
      PathMove cfg p clear tidy v (.crash now loaded)
        ⟨v.backing, dir', db', false, none, phase', fun _ => none⟩

/-! ## Kinds and program counters -/

/-- Where the worker of a job of this kind can be. -/
def WorkerPc.fits (k : CacheJobKind) : WorkerPc → Bool
  | .start | .finish => true
  | .promote | .room | .copy _ => k != .validate
  | .statLive _ | .verdict _ | .refresh _ | .dropRow => k == .validate

def Fits (phase : CacheJobKind → Phase) : Prop :=
  ∀ k t abort pc, phase k = .running t abort pc → pc.fits k = true

namespace PathView

variable {v : PathView} {k k' : CacheJobKind} {t t' : Nat} {abort abort' : Bool}
  {dir : CacheDir} {db : CacheDb} {e : JobEffect} {pc pc' : WorkerPc}

/-- A submission moves no worker. -/
theorem running_submitted :
    (v.submitted k).phase k' = .running t abort pc ↔ v.phase k' = .running t abort pc := by
  simp only [submitted]
  split
  · next h => simp [h.2]
  · rfl

/-- The workers after a step of the one of kind `k`. -/
theorem running_worked
    (h : (v.worked k t abort dir db e pc).phase k' = .running t' abort' pc') :
    k' = k ∧ t' = t ∧ pc' = pc ∨ k' ≠ k ∧ v.phase k' = .running t' abort' pc' := by
  have put : ∀ ph, Function.update v.phase k ph k' = .running t' abort' pc' →
      k' = k ∧ ph = .running t' abort' pc' ∨ k' ≠ k ∧ v.phase k' = .running t' abort' pc' := by
    intro ph h
    by_cases hk : k' = k
    · subst hk
      rw [Function.update_self] at h
      exact .inl ⟨rfl, h⟩
    · rw [Function.update_of_ne hk] at h
      exact .inr ⟨hk, h⟩
  have own : ∀ a, Phase.running t a pc = .running t' abort' pc' → t' = t ∧ pc' = pc := by
    intro a h
    obtain ⟨rfl, -, rfl⟩ := Phase.running.inj h
    exact ⟨rfl, rfl⟩
  cases e with
  | none => exact (put _ h).imp_left fun ⟨hk, h⟩ => ⟨hk, own _ h⟩
  | promote => exact (put _ h).imp_left fun ⟨hk, h⟩ => ⟨hk, own _ h⟩
  | submitReplace =>
    exact (put _ (running_submitted.mp h)).imp_left fun ⟨hk, h⟩ => ⟨hk, own _ h⟩
  | finish =>
    refine (put _ h).imp_left fun ⟨_, h⟩ => ?_
    exact absurd h (by simp)

/-- A step of one worker leaves every other job where it is, or queues it. -/
theorem phase_worked_ne (hk : k' ≠ k) :
    (v.worked k t abort dir db e pc).phase k' = v.phase k' ∨
      v.phase k' = .absent ∧ (v.worked k t abort dir db e pc).phase k' = .waiting := by
  cases e with
  | none => exact .inl (Function.update_of_ne hk _ _)
  | promote => exact .inl (Function.update_of_ne hk _ _)
  | finish => exact .inl (Function.update_of_ne hk _ _)
  | submitReplace =>
    simp only [worked, put, submitted, Function.update_of_ne hk]
    by_cases h : k' = .replace ∧ v.phase k' = .absent
    · exact .inr ⟨h.2, if_pos h⟩
    · exact .inl (if_neg h)

end PathView

/-- What becomes of the job of one kind. -/
inductive PhaseMove (cfg : Config) (p : RelPath) (k : CacheJobKind) (v : PathView) (a : Action)
    (v' : PathView) : Prop
  | keep (h : v'.phase k = v.phase k)
  | idle (h : v'.phase k = .absent ∨ v'.phase k = .waiting)
  | spawn {t : Nat} {abort : Bool} (h : v'.phase k = .running t abort .start)
  | abort {t : Nat} {abort : Bool} {pc : WorkerPc} (h : v.phase k = .running t abort pc)
      (h' : v'.phase k = .running t true pc)
  | work {t : Nat} {c : WorkChoice} {abort abort' : Bool} {pc pc' : WorkerPc} {dir' : CacheDir}
      {db' : CacheDb} {e : JobEffect} (ha : a = .work t c) (h : v.phase k = .running t abort pc)
      (hm : WorkMove v.backing v.dir v.db cfg.mount abort p k t c pc dir' db' e pc')
      (hstep : workerStep v.backing v.dir v.db cfg.mount abort p k t c pc = some (dir', db', e, pc'))
      (h' : v'.phase k = .running t abort' pc')

theorem PathMove.phase {cfg : Config} {p : RelPath} {clear tidy : Prop} {v v' : PathView} {a : Action}
    (hm : PathMove cfg p clear tidy v a v') (k : CacheJobKind) : PhaseMove cfg p k v a v' := by
  have submitted : ∀ {v : PathView} {v' : PathView} {k' : CacheJobKind}, v'.phase k = v.phase k →
      ∀ {w : PathView}, w.phase k = (v'.submitted k').phase k → PhaseMove cfg p k v a w := by
    intro v v' k' hv w hw
    simp only [PathView.submitted] at hw
    split at hw
    · exact .idle (.inr hw)
    · exact .keep (hw.trans hv)
  cases hm with
  | foreign | change | event | evictFile | evictRow | hit | touch | refresh => exact .keep rfl
  | submit k' now hrow => exact submitted rfl rfl
  | dispatch hw => exact submitted rfl rfl
  | expire h => exact (h k).elim (fun h => .keep h) fun h => .idle (.inl h.2)
  | markAbort hw h => exact (h k).elim (fun h => .keep h) fun ⟨t, abort, pc, h, h'⟩ => .abort h h'
  | crash hr h => exact .idle (h k)
  | @spawn _ k' t abort h =>
    by_cases hk : k = k'
    · subst hk
      exact .spawn (Function.update_self _ _ _)
    · exact .keep (Function.update_of_ne hk _ _)
  | @work t c k' abort pc pc' dir' db' e hphase hm hfile hstep =>
    by_cases hk : k = k'
    · subst hk
      cases e with
      | none => exact .work rfl hphase hm hstep (Function.update_self _ _ _)
      | promote => exact .work rfl hphase hm hstep (Function.update_self _ _ _)
      | submitReplace =>
        have h' : ((v.worked k t abort dir' db' .submitReplace pc').phase k) =
            .running t abort pc' := by
          simp [PathView.worked, PathView.put, PathView.submitted]
        exact .work rfl hphase hm hstep h'
      | finish => exact .idle (.inl (Function.update_self _ _ _))
    · exact (PathView.phase_worked_ne hk).elim (fun h => .keep h) fun h => .idle (.inr h.2)

/-- Only a change changes the backing. -/
theorem PathMove.backing {cfg : Config} {p : RelPath} {clear tidy : Prop} {v v' : PathView}
    {a : Action} (hm : PathMove cfg p clear tidy v a v') :
    v'.backing = v.backing ∨ ∃ c, a = .change c ∧ v.backing.change c = some v'.backing := by
  cases hm with
  | change h => exact .inr ⟨_, rfl, h⟩
  | @work t c k abort pc pc' dir' db' e => cases e <;> exact .inl rfl
  | foreign | submit | expire | spawn | event | markAbort | dispatch | evictFile | evictRow | hit
  | touch | refresh | crash => exact .inl rfl

/-- The cache file at `p` stays, or is removed, or is what a copy of `p` has written
and now renames. -/
theorem PathMove.contents {cfg : Config} {p : RelPath} {clear : Prop} {v v' : PathView}
    {a : Action} (hp : extension p ≠ some partialExt) (hm : PathMove cfg p clear True v a v') :
    v'.dir.contents p = v.dir.contents p ∨ v'.dir.contents p = none ∨
      ∃ k t abort ctx snapshot, v.phase k = .running t abort (.copy (.rename ctx snapshot)) ∧
        v'.dir.contents p = some (written t ctx.written) := by
  cases hm with
  | foreign hrow hname => exact .inl ((hname hp).2.2 trivial)
  | change | submit | expire | spawn | event | markAbort | dispatch | evictRow | hit | touch
  | refresh => exact .inl rfl
  | evictFile h =>
    right; left
    rw [Files.contents, Files.fileAt_remove h, if_pos rfl]
    rfl
  | @work t c k abort pc pc' dir' db' e hphase hm hfile hstep =>
    have hdir : (v.worked k t abort dir' db' e pc').dir = dir' := by cases e <;> rfl
    rw [hdir]
    rcases hfile trivial hp with ⟨ctx, snapshot, rfl, -, h⟩ | ⟨-, h | h⟩
    · exact .inr (.inr ⟨k, t, abort, ctx, snapshot, hphase, h⟩)
    · exact .inl h
    · exact .inr (.inl h)
  | crash hr hphase =>
    left
    obtain ⟨rfl, rfl⟩ := Prod.mk.inj hr
    rw [contents_removePartials, if_neg (by simpa [isPartial] using hp)]

theorem fits_of_workMove {b : Backing} {dir dir' : CacheDir} {db db' : CacheDb} {mount : MountId}
    {abort : Bool} {p : RelPath} {k : CacheJobKind} {t : Nat} {c : WorkChoice} {pc pc' : WorkerPc}
    {e : JobEffect} (hm : WorkMove b dir db mount abort p k t c pc dir' db' e pc')
    (h : pc.fits k = true) : pc'.fits k = true := by
  cases hm with
  | begin hk => simpa [WorkerPc.fits] using hk
  | promote hk => simpa [WorkerPc.fits] using hk
  | readRow hk => simp [WorkerPc.fits, hk]
  | noRow hk => simp [WorkerPc.fits, hk]
  | skip | noRoom | mark | copyFailed | notTracked | backfill | stale | refreshed | dropRow
  | finish => rfl
  | room | copy | statLive | fresh | dropFile | refresh => exact h

/-- A worker is where its kind can be, whatever happens. -/
theorem Fits.move {cfg : Config} {p : RelPath} {clear tidy : Prop} {v v' : PathView} {a : Action}
    (hi : Fits v.phase) (hm : PathMove cfg p clear tidy v a v') : Fits v'.phase := by
  intro k t abort pc hk
  cases hm.phase k with
  | keep h => exact hi k t abort pc (h.symm.trans hk)
  | idle h => rcases h with h | h <;> exact absurd (h.symm.trans hk) (by simp)
  | spawn h =>
    obtain ⟨-, -, rfl⟩ := Phase.running.inj (h.symm.trans hk)
    rfl
  | abort h h' =>
    obtain ⟨-, -, rfl⟩ := Phase.running.inj (h'.symm.trans hk)
    exact hi k _ _ _ h
  | work ha h hm hstep h' =>
    obtain ⟨-, -, rfl⟩ := Phase.running.inj (h'.symm.trans hk)
    exact fits_of_workMove hm (hi k _ _ _ h)

/-! ## The simulation -/

namespace Daemon

variable {cfg : Config} {s s' : Daemon} {a : Action} {p q : RelPath} {k : CacheJobKind}

/-- The path whose row an action may write. -/
def rowOf (s : Daemon) : Action → Option RelPath
  | .work t _ => (s.jobs.jobOf t).map CacheJob.relPath
  | .evictRow q | .hit q _ => some q
  | .refresh i => (s.refreshing i).map Prod.fst
  | _ => none

/-- The action writes no row of `p` under the name of another path. -/
def ClearAt (s : Daemon) (p : RelPath) (a : Action) : Prop :=
  ∀ q, s.rowOf a = some q → rowKey q = rowKey p → q = p

instance (s : Daemon) (p : RelPath) (a : Action) : Decidable (s.ClearAt p a) :=
  match h : s.rowOf a with
  | none => isTrue fun q hq => absurd (h.symm.trans hq) (by simp)
  | some q => decidable_of_iff (rowKey q = rowKey p → q = p) (by
      constructor
      · intro hq q' hq'
        obtain rfl := Option.some.inj (h.symm.trans hq')
        exact hq
      · exact fun hq => hq q h)

theorem phase_congr
    (hjobs : s'.jobs.phase (p, k) = s.jobs.phase (p, k))
    (hrun : ∀ t, s.jobs.phase (p, k) = .running t → s'.aborted t = s.aborted t ∧ s'.pc t = s.pc t) :
    s'.phase p k = s.phase p k := by
  unfold phase
  rw [hjobs]
  split
  · rfl
  · rfl
  · next t ht => rw [(hrun t ht).1, (hrun t ht).2]

theorem phase_running {t : Nat} (h : s.jobs.phase (p, k) = .running t) :
    s.phase p k = .running t (s.aborted t) (s.pc t) := by
  rw [phase, h]

theorem phase_eq_running_iff (hw : s.Wf) {t : Nat} {abort : Bool} {pc : WorkerPc} :
    s.phase p k = .running t abort pc ↔
      ∃ job, s.jobs.jobOf t = some job ∧ job.key = (p, k) ∧ s.aborted t = abort ∧ s.pc t = pc := by
  constructor
  · intro h
    unfold phase at h
    split at h
    · exact absurd h (by simp)
    · exact absurd h (by simp)
    · next u hu =>
      obtain ⟨rfl, ha, hpc⟩ := Phase.running.inj h
      obtain ⟨job, hjob, hkey⟩ := (Jobs.phase_eq_running_iff hw.partition).mp hu
      exact ⟨job, hjob, hkey, ha, hpc⟩
  · rintro ⟨job, hjob, hkey, rfl, rfl⟩
    exact phase_running (hkey ▸ Jobs.phase_of_job hw.partition hjob)

theorem phase_eq_absent_iff : s.phase p k = .absent ↔ s.jobs.phase (p, k) = .absent := by
  unfold phase
  cases s.jobs.phase (p, k) <;> simp

/-- A task runs the job of one path only. -/
theorem task_ne (hw : s.Wf) {t u : Nat} {job : CacheJob} (hjob : s.jobs.jobOf t = some job)
    (hp : job.key ≠ (p, k)) (hu : s.jobs.phase (p, k) = .running u) : u ≠ t := by
  rintro rfl
  obtain ⟨job', hjob', hkey⟩ := (Jobs.phase_eq_running_iff hw.partition).mp hu
  rw [hjob, Option.some.injEq] at hjob'
  exact hp (hjob' ▸ hkey)

theorem task_lt (hw : s.Wf) {u : Nat} (hu : s.jobs.phase (p, k) = .running u) :
    u < s.jobs.nextTask := by
  obtain ⟨job, hjob, -⟩ := (Jobs.phase_eq_running_iff hw.partition).mp hu
  exact hw.partition.tasks_lt _ (Jobs.mem_running hjob)

theorem phase_of_submit (hw : s.Wf) {kind : CacheJobKind} {now : Nat}
    (hjobs : s'.jobs = s.jobs.submitJob q kind now) (haborted : s'.aborted = s.aborted)
    (hpc : s'.pc = s.pc) (k : CacheJobKind) :
    s'.phase p k = if (q = p ∧ k = kind) ∧ s.phase p k = .absent then .waiting else s.phase p k := by
  unfold phase
  rw [hjobs, haborted, hpc, Jobs.phase_submitJob hw.partition]
  by_cases hkey : q = p ∧ k = kind
  · obtain ⟨rfl, rfl⟩ := hkey
    cases s.jobs.phase (q, k) <;> simp
  · rw [if_neg fun e => hkey ⟨(Prod.mk.inj e.1).1.symm, (Prod.mk.inj e.1).2⟩, if_neg fun e => hkey e.1]

/-- A job of `p` is submitted. -/
theorem phase_submit_self (hw : s.Wf) {kind : CacheJobKind} {now : Nat}
    (hjobs : s'.jobs = s.jobs.submitJob p kind now) (haborted : s'.aborted = s.aborted)
    (hpc : s'.pc = s.pc) : s'.phase p = ((s.view p).submitted kind).phase := by
  funext k
  rw [phase_of_submit hw hjobs haborted hpc k]
  simp only [true_and]
  rfl

/-- A job of another path is submitted. -/
theorem phase_submit_other (hw : s.Wf) {kind : CacheJobKind} {now : Nat} (hq : q ≠ p)
    (hjobs : s'.jobs = s.jobs.submitJob q kind now) (haborted : s'.aborted = s.aborted)
    (hpc : s'.pc = s.pc) : s'.phase p = s.phase p := by
  funext k
  rw [phase_of_submit hw hjobs haborted hpc k, if_neg fun e => hq e.1.1]

/-- The dispatcher spawns a job of `p`, or none. -/
theorem move_spawned {clear tidy : Prop} (hw : s.Wf) {jobs : Jobs} (hs : Jobs.Spawns s.jobs jobs) :
    PathMove cfg p clear tidy (s.view p) a ((s.spawned jobs).view p) := by
  have other : ∀ k, jobs.phase (p, k) = s.jobs.phase (p, k) →
      (s.spawned jobs).phase p k = s.phase p k := by
    intro k hk
    refine phase_congr hk fun t ht => ⟨rfl, ?_⟩
    exact Function.update_of_ne (Nat.ne_of_lt (task_lt hw ht)) _ _
  cases hs with
  | held h =>
    have hphase : (s.spawned jobs).phase p = s.phase p := funext fun k => other k (h (p, k))
    rw [show (s.spawned jobs).view p = s.view p from
      PathView.ext rfl rfl rfl rfl rfl hphase rfl]
    exact .foreign (fun _ => rfl) fun _ => ⟨rfl, id, fun _ => rfl⟩
  | spawned key₀ h₀ h =>
    by_cases hp : key₀.1 = p
    · obtain ⟨q, k⟩ := key₀
      subst hp
      have hwait : (s.view q).phase k = .waiting := by
        show s.phase q k = .waiting
        rw [phase, h₀]
      have hphase : (s.spawned jobs).phase q =
          Function.update (s.phase q) k (.running s.jobs.nextTask (s.aborted s.jobs.nextTask) .start) := by
        funext k'
        by_cases hk : k' = k
        · subst hk
          have hr : jobs.phase (q, k') = .running s.jobs.nextTask := by rw [h, if_pos rfl]
          rw [Function.update_self, phase]
          simp only [spawned, hr, Function.update_self]
        · rw [Function.update_of_ne hk]
          exact other k' (by rw [h, if_neg fun e => hk (Prod.mk.inj e).2])
      rw [show (s.spawned jobs).view q = (s.view q).put k
          (.running s.jobs.nextTask (s.aborted s.jobs.nextTask) .start) from
        PathView.ext rfl rfl rfl rfl rfl hphase rfl]
      exact .spawn _ _ hwait
    · have hphase : (s.spawned jobs).phase p = s.phase p := by
        refine funext fun k => other k ?_
        rw [h, if_neg fun e => hp (by rw [← e])]
      rw [show (s.spawned jobs).view p = s.view p from
        PathView.ext rfl rfl rfl rfl rfl hphase rfl]
      exact .foreign (fun _ => rfl) fun _ => ⟨rfl, id, fun _ => rfl⟩

/-- Only copies of `p` in flight are told to abort. -/
theorem phase_markAbort (hw : s.Wf) (hs : s'.jobs = s.jobs) (hpc : s'.pc = s.pc)
    (haborted : s'.aborted = markAbort s.jobs.known q s.aborted) (k : CacheJobKind) :
    s'.phase p k = s.phase p k ∨ q = p ∧
      ∃ t abort pc, s.phase p k = .running t abort pc ∧ s'.phase p k = .running t true pc := by
  by_cases hrun : ∃ t, s.jobs.phase (p, k) = .running t
  · obtain ⟨t, ht⟩ := hrun
    have hbefore := phase_running ht
    have hafter := phase_running (s := s') (hs ▸ ht)
    rw [hbefore, hafter, hpc, haborted]
    cases hm : markAbort s.jobs.known q s.aborted t with
    | false =>
      left
      simp only [markAbort, Bool.or_eq_false_iff] at hm
      rw [hm.1.1]
    | true =>
      by_cases hq : q = p
      · exact .inr ⟨hq, t, _, _, rfl, rfl⟩
      · left
        -- a handle under `q` is no task of `p`
        have hno : ∀ k', s.jobs.known.lookup (q, k') ≠ some (some t) := by
          intro k' hk'
          obtain ⟨job, hm, hkey⟩ := hw.handles _ _ hk'
          refine task_ne hw ((Jobs.jobOf_eq_some_iff hw.partition).mpr hm) ?_ ht rfl
          rw [hkey]
          exact fun e => hq (Prod.mk.inj e).1
        simp only [markAbort, beq_eq_false_iff_ne.mpr (hno _), Bool.or_false] at hm
        rw [hm]
  · exact .inl (phase_congr (by rw [hs]) fun t ht => absurd ⟨t, ht⟩ hrun)

/-! ## A worker's step, seen from its own path and from another -/

section Worker

variable {b : Backing} {dir dir' : CacheDir} {db db' : CacheDb} {mount : MountId} {abort : Bool}
  {t : Nat} {c : WorkChoice} {pc pc' : WorkerPc} {e : JobEffect}

theorem row_refreshMove {r : RefreshPc} {next : Option RefreshPc} (hk : rowKey p ≠ rowKey q)
    (h : RefreshMove db mount q r db' next) : db'.row p mount = db.row p mount := by
  cases h with
  | stop | agree | differs => rfl
  | update live => rw [CacheDb.updateSourceMetadata, CacheDb.row_updateRow, if_neg hk]

theorem row_other (hk : rowKey p ≠ rowKey q)
    (hm : WorkMove b dir db mount abort q k t c pc dir' db' e pc') :
    db'.row p mount = db.row p mount := by
  cases hm with
  | mark snapshot => rw [CacheDb.row_markCached, if_neg hk]
  | backfill st => rw [backfillFingerprint, CacheDb.row_markCached, if_neg hk]
  | refresh h => exact row_refreshMove hk (refreshMove_of_step h)
  | refreshed h => exact row_refreshMove hk (refreshMove_of_step h)
  | dropRow => rw [CacheDb.row_remove, if_neg hk]
  | skip | begin | readRow | noRow | promote | noRoom | room | copy | copyFailed | statLive | fresh
  | notTracked | dropFile | stale | finish => rfl

/-- No path leads into the temporary file of another path unless it ends in
`.partial` itself. -/
theorem ne_partialPath (hq : q ≠ p) (hp : extension p ≠ some partialExt) : p ≠ partialPath q := by
  rintro rfl
  by_cases hroot : q = []
  · subst hroot
    exact hq rfl
  · exact hp (extension_partialPath hroot)

theorem contents_of_fileAt {q : RelPath} (hf : dir'.fileAt q = dir.fileAt q)
    (hd : dir'.data = dir.data) : dir'.contents q = dir.contents q := by
  rw [Files.contents, hf, hd, Files.contents]

theorem file_other (hq : q ≠ p) (hp : extension p ≠ some partialExt)
    (hm : WorkMove b dir db mount abort q k t c pc dir' db' e pc') :
    dir'.fileAt p = dir.fileAt p ∧ ((dir.lookup p).isSome → (dir'.lookup p).isSome) := by
  cases hm with
  | copy h =>
    exact ⟨fileAt_move h hq.symm (ne_partialPath hq hp), lookup_move h (ne_partialPath hq hp)⟩
  | dropFile h =>
    rcases h with rfl | rfl
    · exact ⟨rfl, id⟩
    · rw [fileAt_removeFile, if_neg hq.symm, lookup_removeFile_of_ne dir hq.symm]
      exact ⟨rfl, id⟩
  | skip | begin | readRow | noRow | promote | noRoom | room | mark | copyFailed | statLive | fresh
  | notTracked | backfill | stale | refresh | refreshed | dropRow | finish => exact ⟨rfl, id⟩

theorem contents_other {cp : Copies} (hw : Windows dir cp)
    (hcp : ∀ cpc, pc = .copy cpc → cp t = some (q, cpc)) (hq : q ≠ p)
    (hp : extension p ≠ some partialExt)
    (hm : WorkMove b dir db mount abort q k t c pc dir' db' e pc') :
    dir'.contents p = dir.contents p := by
  cases hm with
  | copy h =>
    rcases contents_move hw (hcp _ rfl) h (ne_partialPath hq hp) with hsame | ⟨_, _, -, -, e, -⟩
    · exact hsame
    · exact absurd e.symm hq
  | dropFile h =>
    rcases h with rfl | rfl
    · rfl
    · exact contents_of_fileAt (by rw [fileAt_removeFile, if_neg hq.symm]) (data_removeFile dir q)
  | skip | begin | readRow | noRow | promote | noRoom | room | mark | copyFailed | statLive | fresh
  | notTracked | backfill | stale | refresh | refreshed | dropRow | finish => rfl

theorem ownFile_of_move {cp : Copies} (hw : Windows dir cp) (hs : SealedAt dir cp p)
    (hcp : ∀ cpc, pc = .copy cpc → cp t = some (p, cpc))
    (hm : WorkMove b dir db mount abort p k t c pc dir' db' e pc') : OwnFile p t dir dir' pc pc' := by
  cases hm with
  | @copy cpc cpc' _ h =>
    by_cases hok : ∃ snapshot, cpc' = .ok snapshot
    · obtain ⟨snapshot, rfl⟩ := hok
      cases h with
      | rename hr => exact .inl ⟨_, _, rfl, rfl, contents_at_rename hw hs (hcp _ rfl) hr⟩
    · refine .inr ⟨fun snapshot e => hok ⟨snapshot, WorkerPc.copy.inj e⟩, ?_⟩
      by_cases hroot : p = []
      · subst hroot
        exact .inr rfl
      · rcases contents_move hw (hcp _ rfl) h (partialPath_ne hroot).symm with
          hsame | ⟨ctx, snapshot, -, rfl, -, -⟩
        · exact .inl hsame
        · exact absurd ⟨snapshot, rfl⟩ hok
  | dropFile h =>
    refine .inr ⟨by simp, ?_⟩
    rcases h with rfl | rfl
    · exact .inl rfl
    · right
      rw [Files.contents, fileAt_removeFile, if_pos rfl]
      rfl
  | skip | begin | readRow | noRow | promote | noRoom | room | mark | copyFailed | statLive | fresh
  | notTracked | backfill | stale | refresh | refreshed | dropRow | finish =>
    exact .inr ⟨by simp, .inl rfl⟩

end Worker

/-- The job of the worker itself, after its step. -/
theorem phase_worked_self (hw : s.Wf) {t : Nat} {job : CacheJob} (hjob : s.jobs.jobOf t = some job)
    (now : Nat) (dir : CacheDir) (db : CacheDb) (e : JobEffect) (pc : WorkerPc) :
    (s.worked t job now dir db e pc).phase job.relPath job.kind =
      match e with
      | .none | .submitReplace => .running t (s.aborted t) pc
      | .promote => .running t false pc
      | .finish => .absent := by
  have hrun : s.jobs.phase (job.relPath, job.kind) = .running t :=
    Jobs.phase_of_job hw.partition hjob
  cases e with
  | none =>
    refine (phase_running (s := s.worked t job now dir db .none pc) hrun).trans ?_
    simp [worked]
  | promote =>
    have hrun' : (s.jobs.promote t job).phase (job.relPath, job.kind) = .running t :=
      (Jobs.phase_promote hw.partition hjob).trans hrun
    refine (phase_running (s := s.worked t job now dir db .promote pc) hrun').trans ?_
    simp [worked]
  | submitReplace =>
    have hrun' : (s.jobs.submitJob job.relPath .replace now).phase (job.relPath, job.kind) =
        .running t := by
      rw [Jobs.phase_submitJob hw.partition, hrun, if_neg (by simp)]
    refine (phase_running (s := s.worked t job now dir db .submitReplace pc) hrun').trans ?_
    simp [worked]
  | finish =>
    have hgone : (s.jobs.finish t job).phase (job.relPath, job.kind) = .absent := by
      rw [Jobs.phase_finish hw.partition hjob]
      exact if_pos rfl
    simp only [phase, worked, hgone]

/-- Every other job, after the step of a worker. -/
theorem phase_worked_other (hw : s.Wf) {t : Nat} {job : CacheJob}
    (hjob : s.jobs.jobOf t = some job) (now : Nat) (dir : CacheDir) (db : CacheDb) (e : JobEffect)
    (pc : WorkerPc) (hne : job.key ≠ (p, k)) :
    (s.worked t job now dir db e pc).phase p k =
      if e = .submitReplace ∧ (job.relPath = p ∧ k = .replace) ∧ s.phase p k = .absent then .waiting
      else s.phase p k := by
  have hrun : ∀ e, ∀ u, s.jobs.phase (p, k) = .running u →
      (s.worked t job now dir db e pc).aborted u = s.aborted u ∧
        (s.worked t job now dir db e pc).pc u = s.pc u := by
    intro e u hu
    have hut := task_ne hw hjob hne hu
    refine ⟨?_, Function.update_of_ne hut _ _⟩
    simp only [worked]
    split
    · exact Function.update_of_ne hut _ _
    · rfl
  cases e with
  | none => exact phase_congr rfl (hrun .none)
  | promote => exact phase_congr (Jobs.phase_promote hw.partition hjob) (hrun .promote)
  | submitReplace =>
    have hjobs : (s.jobs.submitJob job.relPath .replace now).phase (p, k) = _ :=
      Jobs.phase_submitJob hw.partition job.relPath .replace now
    by_cases hnew : (job.relPath = p ∧ k = .replace) ∧ s.phase p k = .absent
    · have habsent := phase_eq_absent_iff.mp hnew.2
      rw [if_pos ⟨rfl, hnew⟩]
      obtain ⟨⟨rfl, rfl⟩, -⟩ := hnew
      rw [if_pos ⟨rfl, habsent⟩] at hjobs
      simp only [phase, worked, hjobs]
    · rw [if_neg fun h => hnew h.2]
      refine phase_congr (hjobs.trans (if_neg fun h => hnew ⟨?_, phase_eq_absent_iff.mpr h.2⟩))
        (hrun .submitReplace)
      exact ⟨(Prod.mk.inj h.1).1.symm, (Prod.mk.inj h.1).2⟩
  | finish =>
    refine phase_congr ?_ (hrun .finish)
    refine (Jobs.phase_finish hw.partition hjob).trans (if_neg hne.symm)

/-- A worker's step, seen from the path of its job. -/
theorem view_worked (hw : s.Wf) {t : Nat} {job : CacheJob} (hjob : s.jobs.jobOf t = some job)
    (now : Nat) (dir : CacheDir) (db : CacheDb) (e : JobEffect) (pc : WorkerPc) :
    (s.worked t job now dir db e pc).view job.relPath =
      (s.view job.relPath).worked job.kind t (s.aborted t) dir db e pc := by
  have hphase : (s.worked t job now dir db e pc).phase job.relPath =
      ((s.view job.relPath).worked job.kind t (s.aborted t) dir db e pc).phase := by
    funext k
    by_cases hk : k = job.kind
    · subst hk
      rw [phase_worked_self hw hjob]
      cases e <;> simp [PathView.worked, PathView.put, PathView.submitted]
    · rw [phase_worked_other hw hjob now dir db e pc fun e => hk (Prod.mk.inj e).2.symm]
      cases e <;> simp [PathView.worked, PathView.put, PathView.submitted, hk, view]
  exact PathView.ext (by cases e <;> rfl) (by cases e <;> rfl) (by cases e <;> rfl)
    (by cases e <;> rfl) (by cases e <;> rfl) hphase (by cases e <;> rfl)

/-- A worker's step, seen from another path. -/
theorem view_worked_other (hw : s.Wf) {t : Nat} {job : CacheJob} (hjob : s.jobs.jobOf t = some job)
    (now : Nat) (dir : CacheDir) (db : CacheDb) (e : JobEffect) (pc : WorkerPc)
    (hp : job.relPath ≠ p) :
    (s.worked t job now dir db e pc).view p = { s.view p with dir := dir, db := db } := by
  have hphase : (s.worked t job now dir db e pc).phase p = s.phase p := by
    funext k
    rw [phase_worked_other hw hjob now dir db e pc fun e => hp (Prod.mk.inj e).1,
      if_neg fun h => hp h.2.1.1]
  exact PathView.ext rfl rfl rfl rfl rfl hphase rfl

/-! ## The simulation -/

theorem view_same (hb : s'.backing = s.backing) (hpending : s'.pending p = s.pending p)
    (hwatcher : (s'.view p).watcher = (s.view p).watcher) (hphase : s'.phase p = s.phase p)
    (hrefreshing : (s'.view p).refreshing = (s.view p).refreshing) :
    s'.view p = { s.view p with dir := s'.dir, db := s'.db } :=
  PathView.ext hb rfl rfl hpending hwatcher hphase hrefreshing

/-- Nothing of `p` is touched. -/
theorem move_idle {clear tidy : Prop} (hdir : s'.dir = s.dir)
    (hrow : clear → s'.db.row p cfg.mount = s.db.row p cfg.mount)
    (hv : s'.view p = { s.view p with dir := s'.dir, db := s'.db }) :
    PathMove cfg p clear tidy (s.view p) a (s'.view p) := by
  rw [hv]
  refine .foreign hrow fun _ => ?_
  rw [hdir]
  exact ⟨rfl, id, fun _ => rfl⟩

/-- The second half of a dispatch. -/
theorem view_dispatched (hw : s.Wf) (p : RelPath) (now : Nat) :
    ({ s with jobs := s.jobs.submitJob p .validate now, watcher := none } : Daemon).view p =
      { (s.view p).submitted .validate with watcher := none } := by
  let s₁ : Daemon := { s with jobs := s.jobs.submitJob p .validate now, watcher := none }
  have hphase : s₁.phase p = ((s.view p).submitted .validate).phase :=
    phase_submit_self hw rfl rfl rfl
  exact PathView.ext rfl rfl rfl rfl rfl hphase rfl

theorem phase_rehydrated {loaded : List (RelPath × Nat)} {permits nextTask : Nat}
    (hs : s.jobs = Jobs.rehydrate loaded permits nextTask) (p : RelPath) (k : CacheJobKind) :
    s.phase p k = .absent ∨ s.phase p k = .waiting := by
  have h : (Jobs.rehydrate loaded permits nextTask).phase (p, k) = .absent ∨ _ :=
    Jobs.phase_rehydrate loaded permits nextTask
  unfold phase
  rw [hs]
  rcases h with e | e
  · exact .inl (by rw [e])
  · exact .inr (by rw [e])

/-- A submission queues a job of `p`, or is one of another path. -/
theorem pathMove_submit {clear tidy : Prop} {q : RelPath} {kind : CacheJobKind} {now : Nat}
    (hw : s.Wf) (h : step cfg s (.submit q kind now) = some s') :
    PathMove cfg p clear tidy (s.view p) (.submit q kind now) (s'.view p) := by
  have hsame : s'.dir = s.dir ∧ (∀ p, s'.db.row p cfg.mount = s.db.row p cfg.mount) ∧
      s'.jobs = s.jobs.submitJob q kind now ∧ s'.aborted = s.aborted ∧ s'.pc = s.pc ∧
      s'.backing = s.backing ∧ s'.pending = s.pending ∧ s'.watcher = s.watcher ∧
      s'.refreshing = s.refreshing := by
    cases move_of_step h with
    | populate hm =>
      refine ⟨rfl, fun p => ?_, rfl, rfl, rfl, rfl, rfl, rfl, rfl⟩
      dsimp only
      split <;> rfl
    | submit hk => exact ⟨rfl, fun _ => rfl, rfl, rfl, rfl, rfl, rfl, rfl, rfl⟩
  obtain ⟨hdir, hrow, hjobs, haborted, hpc, hb, hpending, hwatcher, hrefreshing⟩ := hsame
  by_cases hq : q = p
  · subst hq
    have hphase := phase_submit_self hw hjobs haborted hpc
    have hv : s'.view q = { s.view q with db := s'.db }.submitted kind := by
      refine PathView.ext hb hdir rfl (congrFun hpending q) ?_ hphase ?_
      · simp only [view, hwatcher, PathView.submitted]
      · simp only [view, hrefreshing, PathView.submitted]
    rw [hv]
    exact .submit kind now (hrow q)
  · refine move_idle hdir (fun _ => hrow p) (view_same hb (congrFun hpending p) ?_
      (phase_submit_other hw hq hjobs haborted hpc) ?_)
    · simp only [view, hwatcher]
    · simp only [view, hrefreshing]

/-- Expiry drops waiting jobs only. -/
theorem pathMove_expire {clear tidy : Prop} {now : Nat} (hw : s.Wf)
    (h : step cfg s (.expire now) = some s') :
    PathMove cfg p clear tidy (s.view p) (.expire now) (s'.view p) := by
  cases move_of_step h with
  | expire hp =>
    cases pipeMove_of_step hp with
    | expire hheld =>
      refine .expire fun k => ?_
      have hexpired : (s.jobs.expireStale cfg.deferredTtlMinutes now).phase (p, k) = _ ∨ _ :=
        Jobs.phase_expireStale hw.partition cfg.deferredTtlMinutes now
      rcases hexpired with e | ⟨e, e'⟩
      · exact .inl (phase_congr e fun _ _ => ⟨rfl, rfl⟩)
      · right
        constructor
        · show s.phase p k = .waiting
          rw [phase, e]
        · simp only [phase, e']

/-- A worker moves its own path, and leaves the files of the others. -/
theorem pathMove_work {clear tidy : Prop} {t : Nat} {c : WorkChoice} (hw : s.Wf)
    (hclear : clear → s.ClearAt p (.work t c))
    (htidy : tidy → Windows s.dir s.copies ∧ SealedAt s.dir s.copies p)
    (h : step cfg s (.work t c) = some s') :
    PathMove cfg p clear tidy (s.view p) (.work t c) (s'.view p) := by
  cases move_of_step h with
  | @work _ _ job dir db e pc hjob hstep =>
    have hm := workMove_of_step hstep
    have hcp : ∀ cpc, s.pc t = .copy cpc → s.copies t = some (job.relPath, cpc) := by
      intro cpc hpc
      simp only [copies, hjob, hpc]
    by_cases hp : job.relPath = p
    · subst hp
      rw [view_worked hw hjob]
      exact .work (phase_running (Jobs.phase_of_job hw.partition hjob)) hm
        (fun ht _ => ownFile_of_move (htidy ht).1 (htidy ht).2 hcp hm) hstep
    · rw [view_worked_other hw hjob c.now dir db e pc hp]
      refine .foreign (fun hc => row_other ?_ hm) fun hext => ?_
      · intro hk
        exact hp (hclear hc job.relPath (by simp [rowOf, hjob]) hk.symm)
      · obtain ⟨hfile, hlookup⟩ := file_other hp hext hm
        exact ⟨hfile, hlookup, fun ht => contents_other (htidy ht).1 hcp hp hext hm⟩

/-- The watcher takes an event. -/
theorem pathMove_event {clear tidy : Prop} {q : RelPath} (h : step cfg s (.event q) = some s') :
    PathMove cfg p clear tidy (s.view p) (.event q) (s'.view p) := by
  cases move_of_step h with
  | event hnone =>
    have hview : (s.view p).watcher = none := by simp only [view, hnone]; rfl
    by_cases hq : q = p
    · subst hq
      have hv : ({ s with
            pending := Function.update s.pending q false
            watcher := if isCached s.dir q then some (q, .markAbort) else none } : Daemon).view q =
          { s.view q with
            pending := false
            watcher := if isCached (s.view q).dir q then some .markAbort else none } := by
        refine PathView.ext rfl rfl rfl (Function.update_self _ _ _) ?_ rfl rfl
        show ((if isCached s.dir q then some (q, WatcherPc.markAbort) else none).bind _) =
          if isCached s.dir q then some WatcherPc.markAbort else none
        cases isCached s.dir q <;> simp
      rw [hv]
      exact .event hview
    · refine move_idle rfl (fun _ => rfl) (view_same rfl ?_ ?_ rfl rfl)
      · exact Function.update_of_ne (Ne.symm hq) _ _
      · rw [hview]
        simp only [view]
        split <;> simp [hq]

/-- The watcher marks the copies of its path, and then submits the validation. -/
theorem pathMove_dispatch {clear tidy : Prop} {now : Nat} (hw : s.Wf)
    (h : step cfg s (.dispatch now) = some s') :
    PathMove cfg p clear tidy (s.view p) (.dispatch now) (s'.view p) := by
  cases move_of_step h with
  | @markAbort q _ hwatch =>
    let s₁ : Daemon := { s with
      aborted := markAbort s.jobs.known q s.aborted, watcher := some (q, .submitValidation) }
    have hphase : ∀ k, s₁.phase p k = s.phase p k ∨ q = p ∧ _ :=
      phase_markAbort hw rfl rfl rfl
    by_cases hq : q = p
    · subst hq
      have hview : (s.view q).watcher = some .markAbort := by simp [view, hwatch]
      have hv : ∀ ph, ({ s.view q with watcher := some .submitValidation, phase := ph }) =
          { s.view q with
            watcher := ((some (q, WatcherPc.submitValidation)).bind fun w =>
              if w.1 = q then some w.2 else none)
            phase := ph } := by simp
      refine Eq.mp (congrArg _ (hv _)) (.markAbort hview fun k => ?_)
      exact (hphase k).imp_right fun h => h.2
    · refine move_idle rfl (fun _ => rfl) (view_same rfl rfl ?_ (funext fun k => ?_) rfl)
      · simp [view, hwatch, hq]
      · exact (hphase k).resolve_right fun h => hq h.1
  | @dispatch q _ hwatch =>
    by_cases hq : q = p
    · subst hq
      rw [view_dispatched hw q now]
      exact .dispatch (by simp [view, hwatch])
    · refine move_idle rfl (fun _ => rfl) (view_same rfl rfl ?_
        (phase_submit_other hw hq rfl rfl rfl) rfl)
      simp [view, hwatch, hq]

theorem pathMove_evictFile {clear tidy : Prop} {q : RelPath}
    (h : step cfg s (.evictFile q) = some s') :
    PathMove cfg p clear tidy (s.view p) (.evictFile q) (s'.view p) := by
  cases move_of_step h with
  | evictFile hr =>
    by_cases hq : q = p
    · subst hq
      exact .evictFile hr
    · obtain ⟨hdata, -, hlookup⟩ := Files.remove_spec hr
      have hfile := (Files.fileAt_remove hr p).trans (if_neg (Ne.symm hq))
      refine .foreign (fun _ => rfl) fun _ => ⟨hfile, fun hs => ?_, fun _ => ?_⟩
      · rwa [hlookup, if_neg (Ne.symm hq)]
      · exact contents_of_fileAt hfile hdata

theorem pathMove_touch {clear tidy : Prop} {i : Nat} {q : RelPath}
    (h : step cfg s (.touch i q) = some s') :
    PathMove cfg p clear tidy (s.view p) (.touch i q) (s'.view p) := by
  cases move_of_step h with
  | @touch _ _ st hi hst =>
    by_cases hq : q = p
    · subst hq
      let r := Function.update s.refreshing i (some (q, .readFingerprint st))
      have hv : ({ s with refreshing := r } : Daemon).view q =
          { s.view q with
            refreshing := Function.update (s.view q).refreshing i (some (.readFingerprint st)) } := by
        refine PathView.ext rfl rfl rfl rfl rfl rfl (funext fun j => ?_)
        by_cases hj : j = i <;> simp [view, r, Function.update_apply, hj]
      rw [hv]
      exact .touch i hst
    · refine move_idle rfl (fun _ => rfl) (view_same rfl rfl rfl rfl (funext fun j => ?_))
      by_cases hj : j = i <;> simp [view, Function.update_apply, hj, hq, hi]

/-- A refresh in the background writes the row of its path only. -/
theorem pathMove_refresh {clear tidy : Prop} {i : Nat} (hclear : clear → s.ClearAt p (.refresh i))
    (h : step cfg s (.refresh i) = some s') :
    PathMove cfg p clear tidy (s.view p) (.refresh i) (s'.view p) := by
  cases move_of_step h with
  | @refresh _ q pc hi =>
    by_cases hq : q = p
    · subst hq
      have hview : (s.view q).refreshing i = some pc := by simp [view, hi]
      have hv : ∀ (db : CacheDb) (next : Option RefreshPc),
          ({ s with
            db := db
            refreshing := Function.update s.refreshing i (next.map fun pc => (q, pc)) } :
              Daemon).view q =
          { s.view q with
            db := db
            refreshing := Function.update (s.view q).refreshing i next } := by
        intro db next
        refine PathView.ext rfl rfl rfl rfl rfl rfl (funext fun j => ?_)
        by_cases hj : j = i
        · cases next <;> simp [view, hj]
        · simp [view, hj]
      rw [hv]
      exact .refresh hview rfl
    · refine move_idle rfl (fun hc => ?_) (view_same rfl rfl rfl rfl (funext fun j => ?_))
      · refine row_refreshMove (fun hk => hq ?_) (refreshMove_of_step rfl)
        exact hclear hc q (by simp [rowOf, hi]) hk.symm
      · by_cases hj : j = i
        · cases (refreshStep s.db cfg.mount q pc).2 <;> simp [view, hj, hq, hi]
        · simp [view, hj]

theorem pathMove_of_step {clear tidy : Prop} (hw : s.Wf) (hclear : clear → s.ClearAt p a)
    (htidy : tidy → Windows s.dir s.copies ∧ SealedAt s.dir s.copies p)
    (h : step cfg s a = some s') : PathMove cfg p clear tidy (s.view p) a (s'.view p) := by
  cases move_of_step h with
  | change hb => exact .change hb
  | served | offer | forget => exact move_idle rfl (fun _ => rfl) rfl
  | populate | submit => exact pathMove_submit hw h
  | expire => exact pathMove_expire hw h
  | pop hp => exact move_spawned hw (Jobs.phase_pop hw.partition hp)
  | acquire hp => exact move_spawned hw (Jobs.phase_acquire hw.partition hp)
  | release hp =>
    cases pipeMove_of_step hp with
    | release =>
      refine move_idle rfl (fun _ => rfl) (view_same rfl rfl rfl ?_ rfl)
      exact funext fun k => phase_congr (Jobs.phase_congr rfl rfl) fun _ _ => ⟨rfl, rfl⟩
  | work => exact pathMove_work hw hclear htidy h
  | event => exact pathMove_event h
  | markAbort | dispatch => exact pathMove_dispatch hw h
  | evictFile => exact pathMove_evictFile h
  | @evictRow q hm =>
    by_cases hq : q = p
    · subst hq
      exact .evictRow
    · refine move_idle rfl (fun hc => ?_) rfl
      rw [CacheDb.row_remove, if_neg fun hk => hq (hclear hc q rfl hk.symm)]
  | @hit q now hc =>
    by_cases hq : q = p
    · subst hq
      exact .hit now
    · refine move_idle rfl (fun hc => ?_) rfl
      rw [CacheDb.markHit, CacheDb.row_updateRow, if_neg fun hk => hq (hclear hc q rfl hk.symm)]
  | touch => exact pathMove_touch h
  | refresh => exact pathMove_refresh hclear h
  | crash => exact .crash rfl fun k => phase_rehydrated rfl p k

/-! ## At the start -/

theorem phase_start (cfg : Config) (b : Backing) (dir : CacheDir) (db : CacheDb)
    (loaded : List (RelPath × Nat)) (p : RelPath) (k : CacheJobKind) :
    (start cfg b dir db loaded).phase p k = .absent ∨
      (start cfg b dir db loaded).phase p k = .waiting :=
  phase_rehydrated rfl p k

theorem fits_start (cfg : Config) (b : Backing) (dir : CacheDir) (db : CacheDb)
    (loaded : List (RelPath × Nat)) (p : RelPath) : Fits ((start cfg b dir db loaded).phase p) := by
  intro k t abort pc h
  rcases phase_start cfg b dir db loaded p k with e | e <;> rw [e] at h <;>
    exact absurd h (by simp)

end Daemon

end FsCache
