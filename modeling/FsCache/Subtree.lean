import FsCache.Kinds

/- What the dispatch of a watcher event reaches.

   An event names one child of a watched directory. If the child is cached, the dispatch
   has it validated, whatever the severity of the event; a validation reads the row of its
   own path, and a directory has none. A directory that is moved, removed or brought back
   is one event, and the cached files below it are named by none.

   `dispatch_frame` says that the dispatch of an event of `d`, and all that the validation
   it submits does, leave the files, rows and jobs of the paths below `d`.
   `subtree_invalidated_iff`: so these are as they should be afterwards exactly when they
   were before. `ghost_below_moved` is a directory that has been moved away.

   Correspondence (Rust ↔ Lean):
     `dispatch` for the child `d`, with its jobs ↔ the actions that `OfDispatch d` allows -/

namespace FsCache
open Lib

namespace Daemon

variable {cfg : Config} {s s' : Daemon} {a : Action} {d q : RelPath}

/-- A step of the dispatch of `d`, of the validation it submits, or of the dispatcher. -/
def OfDispatch (d : RelPath) (s : Daemon) : Action → Prop
  | .event q => q = d
  | .dispatch _ => s.watcher.map Prod.fst = some d
  | .work t _ => (s.jobs.jobOf t).map CacheJob.key = some (d, .validate)
  | .pop _ | .acquire | .release => True
  | _ => False

instance (d : RelPath) (s : Daemon) : (a : Action) → Decidable (s.OfDispatch d a)
  | .event q => inferInstanceAs (Decidable (q = d))
  | .dispatch _ => inferInstanceAs (Decidable (s.watcher.map Prod.fst = some d))
  | .work t _ => inferInstanceAs (Decidable
      ((s.jobs.jobOf t).map CacheJob.key = some (d, .validate)))
  | .pop _ | .acquire | .release => isTrue trivial
  | .change _ | .offer _ | .submit _ _ _ | .expire _ | .forget _ | .evictFile _ | .evictRow _
  | .hit _ _ | .touch _ _ | .refresh _ | .crash _ _ => isFalse id

/-- What was there of the cache entry of `q` is dropped if the backing has no file at `q`,
and queued for replacement if it has another version. -/
def Invalidated (mount : MountId) (q : RelPath) (s s' : Daemon) : Prop :=
  (s.dir.fileAt q).isSome = true →
    (s.backing.live q = none → s'.dir.fileAt q = none ∧ s'.db.row q mount = none) ∧
    ∀ fp ∈ s.db.fingerprintRow q mount, isStaleWithFingerprint (s.backing.stat q) fp = .stale →
      s'.phase q .replace ≠ .absent

/-- What the steps of a dispatch of `d` leave of another path. -/
structure Untouched (mount : MountId) (q : RelPath) (s s' : Daemon) : Prop where
  backing : s'.backing = s.backing
  file : s'.dir.fileAt q = s.dir.fileAt q
  row : s'.db.row q mount = s.db.row q mount
  jobs : ∀ k, s'.phase q k = .absent ↔ s.phase q k = .absent

theorem Untouched.trans {mount : MountId} {s₁ s₂ s₃ : Daemon} (h : Untouched mount q s₁ s₂)
    (h' : Untouched mount q s₂ s₃) : Untouched mount q s₁ s₃ where
  backing := h'.backing.trans h.backing
  file := h'.file.trans h.file
  row := h'.row.trans h.row
  jobs k := (h'.jobs k).trans (h.jobs k)

theorem rowKey_ne_of_below (h : Below d q) : rowKey d ≠ rowKey q := by
  obtain ⟨s, hs, rfl⟩ := below_iff.mp h
  intro e
  have hlen := congrArg List.length e
  rw [rowKey, rowKey, List.length_map, List.length_map, List.length_append] at hlen
  exact hs (List.eq_nil_of_length_eq_zero (by omega))

/-- One step. A path below `d` has neither the event, nor the watcher, nor the worker. -/
theorem untouched_step (hw : s.Wf) (hq : Below d q) (hp : isPartial q = false)
    (hof : s.OfDispatch d a) (h : step cfg s a = some s') : Untouched cfg.mount q s s' := by
  have hclear : s.ClearAt q a := by
    intro r hr hkey
    cases a with
    | work t c =>
      obtain ⟨job, hjob, hkey'⟩ := Option.map_eq_some_iff.mp hof
      have hr : (s.jobs.jobOf t).map CacheJob.relPath = some r := hr
      rw [hjob, Option.map_some, Option.some.injEq] at hr
      obtain rfl : r = d := hr.symm.trans (Prod.mk.inj hkey').1
      exact absurd hkey (rowKey_ne_of_below hq)
    | event | dispatch | pop | acquire | release => exact absurd hr (by simp [rowOf])
    | change | offer | submit | expire | forget | evictFile | evictRow | hit | touch | refresh
    | crash => exact hof.elim
  have hwatcher : ∀ {now : Nat} {w : WatcherPc}, a = .dispatch now → (s.view q).watcher = some w →
      False := by
    rintro now w rfl hwq
    obtain ⟨u, hu, hfst⟩ := Option.map_eq_some_iff.mp hof
    simp only [view, hu, Option.bind_some, hfst] at hwq
    rw [if_neg (Ne.symm hq.2)] at hwq
    exact absurd hwq (by simp)
  have hworker : ∀ {t : Nat} {c : WorkChoice} {k : CacheJobKind} {abort : Bool} {pc : WorkerPc},
      a = .work t c → (s.view q).phase k = .running t abort pc → False := by
    rintro t c k abort pc rfl hphase
    obtain ⟨job, hjob, hkey⟩ := Option.map_eq_some_iff.mp hof
    obtain ⟨job', hjob', hkey', -⟩ := (phase_eq_running_iff hw).mp hphase
    rw [hjob, Option.some.injEq] at hjob'
    subst hjob'
    exact hq.2 (Prod.mk.inj (hkey'.symm.trans hkey)).1
  have hm : PathMove cfg q True False (s.view q) a (s'.view q) :=
    pathMove_of_step hw (fun _ => hclear) (fun f => f.elim) h
  have hext : extension q ≠ some partialExt := by simpa [isPartial] using hp
  have of_view : ∀ {v : PathView}, s'.view q = v → v.backing = s.backing →
      v.dir.fileAt q = s.dir.fileAt q → v.db.row q cfg.mount = s.db.row q cfg.mount →
      (∀ k, v.phase k = .absent ↔ s.phase q k = .absent) → Untouched cfg.mount q s s' := by
    rintro v rfl hb hfile hrow hjobs
    exact ⟨hb, hfile, hrow, hjobs⟩
  generalize hv : s'.view q = v at hm
  cases hm with
  | foreign hrow hname => exact of_view hv rfl (hname hext).1 (hrow trivial) fun _ => Iff.rfl
  | @spawn _ k t abort hwait =>
    refine of_view hv rfl rfl rfl fun k' => ?_
    by_cases hk : k' = k
    · subst hk
      have hwait : s.phase q k' = .waiting := hwait
      simp [PathView.put, hwait]
    · simp only [PathView.put, Function.update_of_ne hk]
      exact Iff.rfl
  | event => exact absurd hof hq.2
  | markAbort hwq => exact (hwatcher rfl hwq).elim
  | dispatch hwq => exact (hwatcher rfl hwq).elim
  | work hphase => exact (hworker rfl hphase).elim
  | change | submit | expire | evictFile | evictRow | hit | touch | refresh | crash => exact hof.elim

/-- A whole dispatch of `d` leaves the paths below `d`. -/
theorem dispatch_frame (hq : Below d q) (hp : isPartial q = false) {as : List Action} (hw : s.Wf)
    (hof : Along (step cfg) (OfDispatch d) s as) (hrun : run (step cfg) s as = some s') :
    Untouched cfg.mount q s s' := by
  have keep : ∀ u a u', u.Wf ∧ Untouched cfg.mount q s u → u.OfDispatch d a →
      step cfg u a = some u' → u'.Wf ∧ Untouched cfg.mount q s u' :=
    fun u a u' hi hof hs => ⟨hi.1.step hs, hi.2.trans (untouched_step hi.1 hq hp hof hs)⟩
  exact (run_invariant_along _ keep hrun hof ⟨hw, rfl, rfl, rfl, fun _ => Iff.rfl⟩).2

theorem Untouched.invalidated_iff {mount : MountId} (h : Untouched mount q s s') :
    Invalidated mount q s s' ↔ Invalidated mount q s s := by
  simp only [Invalidated, h.file, h.row, ne_eq, h.jobs]

end Daemon

open Daemon

/-- After the dispatch of `d` and the validation it has submitted, the entries below `d`
are dropped or queued for replacement, as the backing wants it, exactly when they were
before. -/
theorem subtree_invalidated_iff {cfg : Config} {b : Backing} {dir : CacheDir} {db : CacheDb}
    {loaded : List (RelPath × Nat)} {d : RelPath} {as bs : List Action} {s s' : Daemon}
    (hrun : run (step cfg) (start cfg b dir db loaded) as = some s)
    (hof : Along (step cfg) (OfDispatch d) s bs) (hbs : run (step cfg) s bs = some s') :
    (∀ q, Below d q → isPartial q = false → Invalidated cfg.mount q s s') ↔
      ∀ q, Below d q → isPartial q = false → Invalidated cfg.mount q s s := by
  have hw : s.Wf := run_invariant Wf (fun _ _ _ hw hs => hw.step hs) hrun (wf_start cfg b dir db loaded)
  refine forall_congr' fun q => forall_congr' fun hq => forall_congr' fun hp => ?_
  exact (dispatch_frame hq hp hw hof hbs).invalidated_iff

/-! ## A directory that has been moved away -/

section Album

private def album : Name := ⟨[97], Eq.refl true⟩

private def track : Name := ⟨[116], Eq.refl true⟩

def albumStart : Daemon := start oneMount Backing.empty Files.empty ⟨∅, ∅⟩ []

/-- A directory with a file in it, which is populated. -/
def albumCached : List Action :=
  [.change (.mkdir [album] dirStat),
    .change (.replace [album, track] (.pair 80 81 1))] ++
    requested [album, track] ++ turns 1 19 ++ [.forget [album, track], .release]

/-- The directory is moved away, with the file. -/
def albumMoved : List Action := [.change (.remove [album, track]), .change (.remove [album])]

/-- Its event is dispatched; a cache directory is there, so a validation is queued, and
runs. -/
def albumEvent : List Action :=
  [.event [album], .dispatch 9, .dispatch 9, .pop false] ++ turns 2 3

theorem ghost_below_moved : ∃ s s',
    run (step oneMount) albumStart (albumCached ++ albumMoved) = some s ∧
    run (step oneMount) s albumEvent = some s' ∧
    Along (step oneMount) (OfDispatch [album]) s albumEvent ∧ s'.watcher = none ∧
    s'.jobs.queue = [] ∧ s'.jobs.running = [] ∧ s'.backing.live [album, track] = none ∧
    (s'.dir.fileAt [album, track]).isSome = true ∧
    ¬ Invalidated oneMount.mount [album, track] s s' := by
  have hrun : ((run (step oneMount) albumStart (albumCached ++ albumMoved)).any fun s =>
      (s.dir.fileAt [album, track]).isSome && decide (s.backing.live [album, track] = none) &&
        decide (Along (step oneMount) (OfDispatch [album]) s albumEvent) &&
          (run (step oneMount) s albumEvent).any fun s' =>
            decide (s'.watcher = none) && decide (s'.jobs.queue = []) &&
              decide (s'.jobs.running = []) && decide (s'.backing.live [album, track] = none) &&
                (s'.dir.fileAt [album, track]).isSome) = true := by
    decide +kernel
  obtain ⟨s, h, hs⟩ := (Option.any_eq_true _ _).mp hrun
  simp only [Bool.and_eq_true, decide_eq_true_eq] at hs
  obtain ⟨⟨⟨hcached, hgone⟩, hof⟩, hend⟩ := hs
  obtain ⟨s', h', hs'⟩ := (Option.any_eq_true _ _).mp hend
  simp only [Bool.and_eq_true, decide_eq_true_eq] at hs'
  obtain ⟨⟨⟨⟨hwatcher, hqueue⟩, hrunning⟩, hlive⟩, hfile⟩ := hs'
  refine ⟨s, s', h, h', hof, hwatcher, hqueue, hrunning, hlive, hfile, fun hinv => ?_⟩
  rw [((hinv hcached).1 hgone).1] at hfile
  exact absurd hfile (by simp)

theorem unmoved_below : ∃ s s', run (step oneMount) albumStart albumCached = some s ∧
    run (step oneMount) s albumEvent = some s' ∧
    ∀ q, Below [album] q → isPartial q = false → Invalidated oneMount.mount q s s' := by
  have hrun : ((run (step oneMount) albumStart albumCached).any fun s =>
      decide (Along (step oneMount) (OfDispatch [album]) s albumEvent) &&
        (run (step oneMount) s albumEvent).isSome &&
          (filesOf s.dir).all fun q => (s.backing.live q).isSome &&
            (s.db.fingerprintRow q oneMount.mount).all fun fp =>
              decide (isStaleWithFingerprint (s.backing.stat q) fp ≠ .stale)) = true := by
    decide +kernel
  obtain ⟨s, h, hs⟩ := (Option.any_eq_true _ _).mp hrun
  simp only [Bool.and_eq_true, decide_eq_true_eq, List.all_eq_true] at hs
  obtain ⟨⟨hof, hend⟩, hall⟩ := hs
  obtain ⟨s', h'⟩ := Option.isSome_iff_exists.mp hend
  refine ⟨s, s', h, h', (subtree_invalidated_iff h hof h').mpr fun q _ _ hcached => ?_⟩
  obtain ⟨i, hi⟩ := Option.isSome_iff_exists.mp hcached
  obtain ⟨hlive, hfresh⟩ := hall q (mem_filesOf.mpr ⟨i, hi⟩)
  refine ⟨fun hgone => ?_, fun fp hfp hstale => ?_⟩
  · rw [hgone] at hlive
    exact absurd hlive (by simp)
  · have hfp : s.db.fingerprintRow q oneMount.mount = some fp := hfp
    rw [hfp] at hfresh
    exact absurd hstale (by simpa using hfresh)

end Album

end FsCache
