import FsCache.PathView

/- The copies at work and the cache directory, over the runs of the whole daemon.

   `known` keeps one job per (path, kind), and the temporary file is named by the
   path alone, so two copies of one path are kept apart only if a Populate and a
   Replace of it are not copying together. Nothing in the code sees to that: a
   Replace that was queued while the path was cached runs on when the path has
   been evicted, and `submit_cache` then accepts a Populate of it. `PromotesApart`
   is what the runs have to meet.

   `Apart` is the invariant over the phases of one path, by the moves of
   `PathMove`. `DirStep` is what a step of the daemon does to the directory and the
   copies, and `Tidy` follows: every copy in its window fills a file of its own. -/

namespace FsCache
open Lib

def CopyPc.done : CopyPc → Bool
  | .ok _ | .err => true
  | _ => false

/-- Promoted, and not yet through with its copy. -/
def WorkerPc.copying : WorkerPc → Bool
  | .room => true
  | .copy pc => !pc.done
  | _ => false

def Phase.copying : Phase → Bool
  | .running _ _ pc => pc.copying
  | _ => false

/-- The other kind that copies to the same destination. -/
def CacheJobKind.other : CacheJobKind → CacheJobKind
  | .populate => .replace
  | .replace => .populate
  | .validate => .validate

/-- A copy is promoted while the other kind's copy of its path is not copying. -/
def Daemon.PromotesApart (s : Daemon) : Action → Prop
  | .work t _ =>
    match s.jobs.jobOf t with
    | none => True
    | some job => s.pc t = .promote → (s.phase job.relPath job.kind.other).copying = false
  | _ => True

instance (s : Daemon) : (a : Action) → Decidable (s.PromotesApart a)
  | .work t c =>
    match h : s.jobs.jobOf t with
    | none => isTrue (by simp only [Daemon.PromotesApart, h])
    | some job => decidable_of_iff
        (s.pc t = .promote → (s.phase job.relPath job.kind.other).copying = false)
        (by simp only [Daemon.PromotesApart, h])
  | .change _ | .offer _ | .submit _ _ _ | .expire _ | .pop _ | .acquire | .release | .forget _
  | .event _ | .dispatch _ | .evictFile _ | .evictRow _ | .hit _ _ | .touch _ _ | .refresh _
  | .crash _ _ => isTrue trivial

/-! ## The copies of one path -/

/-- The two copy jobs of a path are not both copying. -/
def Apart (phase : CacheJobKind → Phase) : Prop :=
  ¬ ((phase .populate).copying = true ∧ (phase .replace).copying = true)

section Moves

variable {cfg : Config} {p : RelPath} {clear tidy : Prop} {v v' : PathView} {a : Action}
  {phase phase' : CacheJobKind → Phase} {k : CacheJobKind} {ph : Phase}

/-- Phases that copy no more than before. -/
theorem Apart.mono (hi : Apart phase)
    (hcopy : ∀ k, (phase' k).copying = true → (phase k).copying = true) : Apart phase' :=
  fun h => hi ⟨hcopy _ h.1, hcopy _ h.2⟩

/-- One phase changes. -/
theorem Apart.put (hi : Apart phase) (hcopy : ph.copying = true → (phase k).copying = true) :
    Apart (Function.update phase k ph) := by
  refine hi.mono fun k' h => ?_
  by_cases hk : k' = k
  · subst hk
    rw [Function.update_self] at h
    exact hcopy h
  · rwa [Function.update_of_ne hk] at h

/-- A copy is promoted, and the other one is not copying. -/
theorem Apart.promote (hk : k ≠ .validate) (hother : (phase k.other).copying = false) :
    Apart (Function.update phase k ph) := by
  intro h
  cases k with
  | populate =>
    have hr : (phase .replace).copying = true := by simpa using h.2
    exact absurd (hr.symm.trans hother) (by simp)
  | replace =>
    have hp : (phase .populate).copying = true := by simpa using h.1
    exact absurd (hp.symm.trans hother) (by simp)
  | validate => exact hk rfl

theorem Apart.submitted (hi : Apart v.phase) (k : CacheJobKind) : Apart (v.submitted k).phase := by
  refine hi.mono fun k' h => ?_
  simp only [PathView.submitted] at h
  split at h
  · exact absurd h (by simp [Phase.copying])
  · exact h

/-- Only a promotion starts to copy, and a copy that is through does not start again. -/
theorem copying_of_workMove {b : Backing} {dir dir' : CacheDir} {db db' : CacheDb} {mount : MountId}
    {abort : Bool} {t : Nat} {c : WorkChoice} {pc pc' : WorkerPc} {e : JobEffect}
    (hm : WorkMove b dir db mount abort p k t c pc dir' db' e pc') (he : e ≠ .promote)
    (h : pc'.copying = true) : pc.copying = true := by
  cases hm with
  | room => rfl
  | copy hc => cases hc <;> rfl
  | promote => exact absurd rfl he
  | skip | begin | readRow | noRow | noRoom | mark | copyFailed | statLive | fresh | notTracked
  | backfill | dropFile | stale | refresh | refreshed | dropRow | finish =>
    exact absurd h (by simp [WorkerPc.copying])

/-- One move, when no copy is promoted beside the other one. -/
theorem Apart.move (hi : Apart v.phase) (hm : PathMove cfg p clear tidy v a v')
    (hok : ∀ k t c abort, a = .work t c → k ≠ .validate → v.phase k = .running t abort .promote →
      (v.phase k.other).copying = false) : Apart v'.phase := by
  cases hm with
  | foreign | change | event | evictFile | evictRow | hit | touch | refresh => exact hi
  | submit k now hrow => exact hi.submitted k
  | dispatch => exact hi.submitted .validate
  | @expire now phase' h =>
    show Apart phase'
    refine hi.mono fun k hc => ?_
    rcases h k with e | ⟨-, e⟩
    · exact e ▸ hc
    · rw [e] at hc
      exact absurd hc (by simp [Phase.copying])
  | spawn t abort h => exact hi.put (by simp [Phase.copying, WorkerPc.copying])
  | @markAbort now phase' hw h =>
    show Apart phase'
    refine hi.mono fun k hc => ?_
    rcases h k with e | ⟨t, abort, pc, e, e'⟩
    · exact e ▸ hc
    · rw [e'] at hc
      rw [e]
      exact hc
  | @work t c k abort pc pc' dir' db' e hphase hm hfile =>
    have running : ∀ abort', e ≠ .promote →
        Apart (Function.update v.phase k (.running t abort' pc')) := by
      intro abort' he
      refine hi.put fun h => ?_
      rw [hphase]
      exact copying_of_workMove hm he h
    cases e with
    | none => exact running abort (by simp)
    | submitReplace =>
      have hput := running abort (by simp)
      exact Apart.submitted (v := { v with
        dir := dir', db := db', phase := Function.update v.phase k (.running t abort pc') }) hput .replace
    | finish => exact hi.put (by simp [Phase.copying])
    | promote =>
      cases hm with
      | promote hk => exact .promote hk (hok k t c abort rfl hk hphase)
  | @crash now loaded dir' db' phase' hr h =>
    show Apart phase'
    refine hi.mono fun k hc => ?_
    rcases h k with e | e <;> rw [e] at hc <;> exact absurd hc (by simp [Phase.copying])

end Moves

/-! ## The directory and the copies at work -/

namespace Daemon

variable {cfg : Config} {s s' : Daemon} {a : Action}

/-- What a step does to the files and the copies: one step of one copy, or no name
is new, no byte is written, and no copy but a starting one appears. -/
inductive DirStep (s s' : Daemon) (a : Action) : Prop
  | copy {t : Nat} {c : WorkChoice} {p : RelPath} {pc pc' : CopyPc} (ha : a = .work t c)
      (ht : s.copies t = some (p, pc))
      (hm : CopyMove s.backing s.dir (s.aborted t) p t c.copy pc s'.dir pc')
      (hcopies : s'.copies = Function.update s.copies t (some (p, pc')))
  | quiet (hdata : s'.dir.data = s.dir.data) (hnext : s'.dir.next = s.dir.next)
      (hfile : ∀ q i, s'.dir.fileAt q = some i → s.dir.fileAt q = some i)
      (hcopies : ∀ t p pc, s'.copies t = some (p, pc) → s.copies t = some (p, pc) ∨ pc = .mkdir)

theorem copies_eq_some_iff {t : Nat} {p : RelPath} {pc : CopyPc} :
    s.copies t = some (p, pc) ↔
      ∃ job, s.jobs.jobOf t = some job ∧ job.relPath = p ∧ s.pc t = .copy pc := by
  unfold copies
  split
  · next job cpc hjob hpc =>
    rw [hjob, hpc, Option.some.injEq, Prod.mk.injEq]
    constructor
    · rintro ⟨rfl, rfl⟩
      exact ⟨job, rfl, rfl, rfl⟩
    · rintro ⟨job', e, rfl, e'⟩
      rw [Option.some.injEq] at e
      exact ⟨by rw [e], WorkerPc.copy.inj e'⟩
  · next hno =>
    constructor
    · intro e; exact absurd e (by simp)
    · rintro ⟨job, hjob, -, hpc⟩
      exact absurd hpc (hno job pc hjob)

/-- The copies after a step that starts no task but at its beginning. -/
theorem copies_of_running (hw : s.Wf)
    (hrun : ∀ t job, (t, job) ∈ s'.jobs.running →
      ((t, job) ∈ s.jobs.running ∧ s'.pc t = s.pc t) ∨ ∀ pc, s'.pc t = .copy pc → pc = .mkdir)
    (t : Nat) (p : RelPath) (pc : CopyPc) (h : s'.copies t = some (p, pc)) :
    s.copies t = some (p, pc) ∨ pc = .mkdir := by
  obtain ⟨job, hjob, hp, hpc⟩ := copies_eq_some_iff.mp h
  rcases hrun t job (Jobs.mem_running hjob) with ⟨hm, e⟩ | hstart
  · left
    exact copies_eq_some_iff.mpr
      ⟨job, (Jobs.jobOf_eq_some_iff hw.partition).mpr hm, hp, e.symm.trans hpc⟩
  · exact .inr (hstart pc hpc)

/-- A step that leaves the directory alone, and every task it does not spawn. -/
theorem DirStep.still (hw : s.Wf) (hdir : s'.dir = s.dir)
    (hrun : ∀ t job, (t, job) ∈ s'.jobs.running →
      ((t, job) ∈ s.jobs.running ∧ s'.pc t = s.pc t) ∨ ∀ pc, s'.pc t = .copy pc → pc = .mkdir) :
    DirStep s s' a :=
  .quiet (by rw [hdir]) (by rw [hdir]) (fun q i h => by rwa [hdir] at h) (copies_of_running hw hrun)

/-- A spawned task is a new one. -/
theorem dirStep_spawned (hw : s.Wf) {jobs : Jobs}
    (hrun : jobs.running = s.jobs.running ∨
      ∃ job, jobs.running = s.jobs.running ++ [(s.jobs.nextTask, job)]) :
    DirStep s (s.spawned jobs) a := by
  refine .still hw rfl fun t job hm => ?_
  have old : (t, job) ∈ s.jobs.running → (t, job) ∈ s.jobs.running ∧
      (s.spawned jobs).pc t = s.pc t := fun h =>
    ⟨h, Function.update_of_ne (Nat.ne_of_lt (hw.partition.tasks_lt _ h)) _ _⟩
  have hm : (t, job) ∈ jobs.running := hm
  rcases hrun with e | ⟨new, e⟩
  · exact .inl (old (e ▸ hm))
  · rw [e] at hm
    rcases List.mem_append.mp hm with hm | hm
    · exact .inl (old hm)
    · right
      obtain ⟨rfl, -⟩ := Prod.mk.inj (List.mem_singleton.mp hm)
      intro pc hpc
      rw [pc_spawned, Function.update_self] at hpc
      exact absurd hpc (by simp)

theorem dirStep_worked (hw : s.Wf) {t : Nat} {c : WorkChoice} {job : CacheJob} {dir : CacheDir}
    {db : CacheDb} {e : JobEffect} {pc : WorkerPc} (hjob : s.jobs.jobOf t = some job)
    (hm : WorkMove s.backing s.dir s.db cfg.mount (s.aborted t) job.relPath job.kind t c (s.pc t)
      dir db e pc) : DirStep s (s.worked t job c.now dir db e pc) (.work t c) := by
  have hsub : ∀ u job', (u, job') ∈ (s.worked t job c.now dir db e pc).jobs.running →
      (u, job') ∈ s.jobs.running := by
    intro u job' h
    cases e with
    | none => exact h
    | promote => exact h
    | submitReplace => exact Jobs.running_submitJob s.jobs job.relPath .replace c.now ▸ h
    | finish => exact (List.mem_filter.mp h).1
  have quiet : (∀ cpc, pc = .copy cpc → cpc = .mkdir) → ∀ u q cpc,
      (s.worked t job c.now dir db e pc).copies u = some (q, cpc) →
      s.copies u = some (q, cpc) ∨ cpc = .mkdir := by
    intro hpc u q cpc h
    refine copies_of_running hw (fun u job' hu => ?_) u q cpc h
    by_cases hut : u = t
    · right
      subst hut
      intro cpc' h'
      rw [pc_worked, Function.update_self] at h'
      exact hpc cpc' h'
    · exact .inl ⟨hsub u job' hu, Function.update_of_ne hut _ _⟩
  have same : dir = s.dir → (∀ cpc, pc = .copy cpc → cpc = .mkdir) →
      DirStep s (s.worked t job c.now dir db e pc) (.work t c) := fun hd hpc =>
    .quiet (by rw [dir_worked, hd]) (by rw [dir_worked, hd]) (fun q i h => hd ▸ h) (quiet hpc)
  generalize hpc₀ : s.pc t = pc₀ at hm
  cases hm with
  | @copy cpc cpc' _ h =>
    have ht : s.copies t = some (job.relPath, cpc) := copies_eq_some_iff.mpr ⟨job, hjob, rfl, hpc₀⟩
    refine .copy rfl ht h (funext fun u => ?_)
    by_cases hut : u = t
    · subst hut
      rw [Function.update_self]
      exact copies_eq_some_iff.mpr ⟨job, hjob, rfl, Function.update_self _ _ _⟩
    · rw [Function.update_of_ne hut]
      simp only [copies, worked, Function.update_of_ne hut]
  | dropFile h =>
    exact .quiet (data_of_removed h) (next_of_removed h) (fun q i => fileAt_of_removed h)
      (quiet (by simp))
  | skip | begin | readRow | noRow | promote | noRoom | room | mark | copyFailed | statLive | fresh
  | notTracked | backfill | stale | refresh | refreshed | dropRow | finish =>
    exact same rfl (by simp)

theorem dirStep_of_step (hw : s.Wf) (h : step cfg s a = some s') : DirStep s s' a := by
  have kept : s'.jobs.running = s.jobs.running → s'.pc = s.pc → ∀ t job,
      (t, job) ∈ s'.jobs.running → ((t, job) ∈ s.jobs.running ∧ s'.pc t = s.pc t) ∨
        ∀ pc, s'.pc t = .copy pc → pc = .mkdir :=
    fun hr hp t job hm => .inl ⟨hr ▸ hm, congrFun hp t⟩
  cases move_of_step h with
  | change | served | offer | forget | event | markAbort | evictRow | hit | touch | refresh =>
    exact .still hw rfl (kept rfl rfl)
  | @populate p now hm =>
    exact .still hw rfl (kept (Jobs.running_submitJob s.jobs p .populate now) rfl)
  | @submit p kind now hk =>
    exact .still hw rfl (kept (Jobs.running_submitJob s.jobs p kind now) rfl)
  | @dispatch p now hwatch =>
    exact .still hw rfl (kept (Jobs.running_submitJob s.jobs p .validate now) rfl)
  | @expire now jobs hp =>
    refine .still hw rfl (kept ?_ rfl)
    cases pipeMove_of_step hp with
    | expire hheld =>
      show (s.jobs.expireStale cfg.deferredTtlMinutes now).running = s.jobs.running
      obtain ⟨queue, known, expired, e, -⟩ := Jobs.expireStale_spec s.jobs cfg.deferredTtlMinutes now
      rw [e]
  | pop hp =>
    refine dirStep_spawned hw ?_
    cases pipeMove_of_step hp with
    | validate => exact .inr ⟨_, rfl⟩
    | hold => exact .inl rfl
  | acquire hp =>
    refine dirStep_spawned hw ?_
    cases pipeMove_of_step hp with
    | acquire => exact .inr ⟨_, rfl⟩
  | release hp =>
    cases pipeMove_of_step hp with
    | release => exact .still hw rfl (kept rfl rfl)
  | work hjob hstep => exact dirStep_worked hw hjob (workMove_of_step hstep)
  | @evictFile p dir hr =>
    obtain ⟨hdata, hnext, -⟩ := Files.remove_spec hr
    refine .quiet hdata hnext (fun q i hq => ?_) (copies_of_running hw (kept rfl rfl))
    have hq : dir.fileAt q = some i := hq
    rw [Files.fileAt_remove hr] at hq
    split at hq
    · exact absurd hq (by simp)
    · exact hq
  | @crash now loaded hl =>
    obtain ⟨hdata, hnext, hfile⟩ := foldl_removeFile ((filesOf s.dir).filter isPartial) s.dir
    refine .quiet hdata hnext (fun q i hq => ?_) (copies_of_running hw fun t job hm => ?_)
    · have hq : ((filesOf s.dir).filter isPartial |>.foldl removeFile s.dir).fileAt q = some i := hq
      rw [hfile] at hq
      split at hq
      · exact absurd hq (by simp)
      · exact hq
    · have hm : (t, job) ∈ (Jobs.rehydrate loaded cfg.maxConcurrentCopies
          s.jobs.nextTask).running := hm
      rw [Jobs.running_rehydrate] at hm
      exact absurd hm (by simp)

/-! ## Runs -/

/-- The job of a copy at work, by its phase. -/
theorem phase_of_copies (hw : s.Wf) {t : Nat} {p : RelPath} {pc : CopyPc}
    (h : s.copies t = some (p, pc)) : ∃ k abort, s.phase p k = .running t abort (.copy pc) := by
  obtain ⟨job, hjob, rfl, hpc⟩ := copies_eq_some_iff.mp h
  refine ⟨job.kind, s.aborted t, ?_⟩
  rw [phase_running (Jobs.phase_of_job hw.partition hjob), hpc]

/-- Two copies of one path that are still copying are one. -/
theorem copies_inj (hw : s.Wf) {p : RelPath} (hf : Fits (s.phase p)) (hi : Apart (s.phase p))
    {t t' : Nat} {pc pc' : CopyPc} (h : s.copies t = some (p, pc)) (h' : s.copies t' = some (p, pc'))
    (hpc : pc.done = false) (hpc' : pc'.done = false) : t = t' := by
  obtain ⟨k, abort, hk⟩ := phase_of_copies hw h
  obtain ⟨k', abort', hk'⟩ := phase_of_copies hw h'
  have hc : (s.phase p k).copying = true := by simp [hk, Phase.copying, WorkerPc.copying, hpc]
  have hc' : (s.phase p k').copying = true := by simp [hk', Phase.copying, WorkerPc.copying, hpc']
  have hval : ∀ t abort pc, s.phase p .validate ≠ .running t abort (.copy pc) :=
    fun t abort pc e => absurd (hf _ _ _ _ e) (by simp [WorkerPc.fits])
  cases k with
  | validate => exact absurd hk (hval _ _ _)
  | populate =>
    cases k' with
    | validate => exact absurd hk' (hval _ _ _)
    | replace => exact absurd ⟨hc, hc'⟩ hi
    | populate =>
      rw [hk] at hk'
      exact (Phase.running.inj hk').1
  | replace =>
    cases k' with
    | validate => exact absurd hk' (hval _ _ _)
    | populate => exact absurd ⟨hc', hc⟩ hi
    | replace =>
      rw [hk] at hk'
      exact (Phase.running.inj hk').1

theorem done_of_window {pc : CopyPc} {ctx : CopyCtx} (h : pc.window = some ctx) :
    pc.done = false := by
  cases pc <;> first | rfl | exact absurd h (by simp [CopyPc.window])

theorem done_of_move {b : Backing} {dir dir' : CacheDir} {abort : Bool} {p : RelPath} {t : Nat}
    {c : CopyChoice} {pc pc' : CopyPc} (h : CopyMove b dir abort p t c pc dir' pc') :
    pc.done = false := by
  cases h <;> rfl

theorem alone_of_apart (hw : s.Wf) {p : RelPath} (hf : Fits (s.phase p)) (hi : Apart (s.phase p))
    {t : Nat} {pc : CopyPc} (h : s.copies t = some (p, pc)) (hpc : pc.done = false) : Alone s.copies t p := by
  rintro t' p' ctx hne ⟨pc', h', hwin⟩ rfl
  exact hne (copies_inj hw hf hi h' h (done_of_window hwin) hpc)

/-- What holds of the copies in every state of a run that promotes them apart. -/
structure Tidy (s : Daemon) : Prop where
  wf : s.Wf
  fits : ∀ p, Fits (s.phase p)
  apart : ∀ p, Apart (s.phase p)
  windows : Windows s.dir s.copies

theorem fits_step (hw : s.Wf) (hi : ∀ p, Fits (s.phase p)) (h : step cfg s a = some s')
    (p : RelPath) : Fits (s'.phase p) := by
  have hm : PathMove cfg p False False (s.view p) a (s'.view p) :=
    pathMove_of_step hw (fun f => f.elim) (fun f => f.elim) h
  exact Fits.move (v := s.view p) (hi p) hm

theorem apart_step (hw : s.Wf) (hi : ∀ p, Apart (s.phase p)) (hok : s.PromotesApart a)
    (h : step cfg s a = some s') (p : RelPath) : Apart (s'.phase p) := by
  have hm : PathMove cfg p False False (s.view p) a (s'.view p) :=
    pathMove_of_step hw (fun f => f.elim) (fun f => f.elim) h
  refine Apart.move (v := s.view p) (hi p) hm fun k t c abort ha hk hphase => ?_
  subst ha
  have hphase : s.phase p k = .running t abort .promote := hphase
  -- the phase of the promoted job names its task, and the guard speaks of that
  obtain ⟨job, hjob, hkey, -, hpc⟩ := (phase_eq_running_iff hw).mp hphase
  obtain ⟨rfl, rfl⟩ : job.relPath = p ∧ job.kind = k := Prod.mk.inj hkey
  simp only [PromotesApart, hjob] at hok
  exact hok hpc

/-- A copy that makes a step is alone at its path. -/
theorem Tidy.alone (hi : s.Tidy) {t : Nat} {p : RelPath} {pc : CopyPc}
    (ht : s.copies t = some (p, pc)) (hpc : pc.done = false) : Alone s.copies t p :=
  alone_of_apart hi.wf (hi.fits p) (hi.apart p) ht hpc

/-- A copy that starts in a quiet step has no window yet. -/
theorem inWindow_quiet (hcopies : ∀ t p pc, s'.copies t = some (p, pc) →
    s.copies t = some (p, pc) ∨ pc = .mkdir) {t : Nat} {p : RelPath} {ctx : CopyCtx}
    (h : InWindow s'.copies t p ctx) : InWindow s.copies t p ctx := by
  obtain ⟨pc, hpc, hwin⟩ := h
  rcases hcopies t p pc hpc with ht | rfl
  · exact ⟨pc, ht, hwin⟩
  · exact absurd hwin (by simp [CopyPc.window])

theorem windows_step (hi : s.Tidy) (h : step cfg s a = some s') : Windows s'.dir s'.copies := by
  cases dirStep_of_step hi.wf h with
  | copy ha ht hm hcopies =>
    rw [hcopies]
    exact hi.windows.move ht (hi.alone ht (done_of_move hm)) hm
  | quiet hdata hnext hfile hcopies =>
    refine hi.windows.mono hdata (le_of_eq hnext.symm) hfile
      (fun t p ctx => inWindow_quiet hcopies) ?_
    rintro t p ctx ⟨pc, hpc, hfill⟩
    rcases hcopies t p pc hpc with ht | rfl
    · exact ⟨pc, ht, hfill⟩
    · exact absurd hfill (by simp [CopyPc.filling])

theorem Tidy.step (hi : s.Tidy) (hok : s.PromotesApart a) (h : step cfg s a = some s') :
    s'.Tidy where
  wf := hi.wf.step h
  fits := fits_step hi.wf hi.fits h
  apart := apart_step hi.wf hi.apart hok h
  windows := windows_step hi h

/-! ## With nothing at work -/

theorem copies_idle (hw : s.Wf) (hidle : ∀ p k, s.phase p k = .absent ∨ s.phase p k = .waiting)
    (t : Nat) : s.copies t = none := by
  by_contra hc
  obtain ⟨⟨p, pc⟩, h⟩ := Option.ne_none_iff_exists'.mp hc
  obtain ⟨k, abort, hk⟩ := phase_of_copies hw h
  rcases hidle p k with e | e <;> exact absurd (hk.symm.trans e) (by simp)

theorem not_inWindow_idle (hw : s.Wf) (hidle : ∀ p k, s.phase p k = .absent ∨ s.phase p k = .waiting)
    (t : Nat) (p : RelPath) (ctx : CopyCtx) : ¬ InWindow s.copies t p ctx := by
  intro h
  obtain ⟨pc, hpc, -⟩ := h
  rw [copies_idle hw hidle] at hpc
  cases hpc

/-- A daemon that runs no job is tidy. -/
theorem tidy_idle (hw : s.Wf) (hidle : ∀ p k, s.phase p k = .absent ∨ s.phase p k = .waiting) :
    s.Tidy where
  wf := hw
  fits p k t abort pc h := by
    rcases hidle p k with e | e <;> exact absurd (h.symm.trans e) (by simp)
  apart p h := by
    rcases hidle p .populate with e | e <;> exact absurd h.1 (by rw [e]; simp [Phase.copying])
  windows := .of_none _ (not_inWindow_idle hw hidle)

theorem sealed_idle (hw : s.Wf) (hidle : ∀ p k, s.phase p k = .absent ∨ s.phase p k = .waiting)
    (p : RelPath) : SealedAt s.dir s.copies p :=
  .of_none _ (not_inWindow_idle hw hidle)

theorem tidy_start (cfg : Config) (b : Backing) (dir : CacheDir) (db : CacheDb)
    (loaded : List (RelPath × Nat)) : (start cfg b dir db loaded).Tidy :=
  tidy_idle (wf_start cfg b dir db loaded) (phase_start cfg b dir db loaded)

end Daemon

end FsCache
