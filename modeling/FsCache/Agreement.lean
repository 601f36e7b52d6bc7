import FsCache.Entry

/- The rows of a mount and the files of its cache directory.

   `Agrees` is the invariant for one path: a file has its row, or a copy that has renamed
   is about to write it; a row has its file, or an eviction or a validation that has
   dropped the file is about to remove it. The source updates file and row in two steps
   without a common lock, so a step on one half may meet the other half of another
   operation. `Settles` is what the steps have to meet.

   `rows_are_files`: after a startup, in every run whose steps meet it, in every state
   with no operation in progress a path has a row exactly when it has a cache file.
   `kept_without_row` is a run where it does not: `drop_stale` removes the row although
   the deletion has failed. -/

namespace FsCache
open Lib

/-- A path of the cache that is accounted for. -/
def Accounted (p : RelPath) : Prop :=
  IsUtf8 p ∧ isPartial p = false ∧ isNonMediaFile p = false

instance (p : RelPath) : Decidable (Accounted p) := inferInstanceAs (Decidable (_ ∧ _ ∧ _))

/-! ## Rows and files after a startup -/

section Startup

variable {dir : CacheDir} {db : CacheDb} {mount : MountId} {now : Nat} {p q : RelPath}

theorem row_isSome_insertRecovered :
    ((insertRecovered dir mount now db q).row p mount).isSome = true ↔
      (db.row p mount).isSome = true ∨ rowKey q = rowKey p := by
  have hkey : rowKey q = rowKey p → db.row q mount = db.row p mount := fun h => by
    rw [CacheDb.row, CacheDb.row, h]
  unfold insertRecovered
  cases hrow : db.row q mount with
  | some r =>
    refine (or_iff_left_of_imp fun h => ?_).symm
    rw [← hkey h, hrow]
    rfl
  | none =>
    simp only [CacheDb.row, Map.lookup_insert_if, Prod.mk.injEq, and_true]
    by_cases h : rowKey p = rowKey q
    · simp [h]
    · rw [if_neg h]
      exact (or_iff_left (Ne.symm h)).symm

theorem row_isSome_foldl_insertRecovered (l : List RelPath) (db : CacheDb) :
    ((l.foldl (insertRecovered dir mount now) db).row p mount).isSome = true ↔
      (db.row p mount).isSome = true ∨ ∃ q ∈ l, rowKey q = rowKey p := by
  induction l generalizing db with
  | nil => simp
  | cons q l ih =>
    rw [List.foldl_cons, ih, row_isSome_insertRecovered, or_assoc]
    simp only [List.mem_cons, exists_eq_or_imp]

/-- A startup makes no row for a path that has no file, if no file of another path has
its key. -/
theorem row_reconcile_eq_none (hfile : dir.fileAt p = none) (hrow : db.row p mount = none)
    (hkeys : ∀ q ∈ filesOf dir, rowKey q = rowKey p → q = p) :
    (reconcileWithDisk dir db mount now).2.row p mount = none := by
  rw [← Option.not_isSome_iff_eq_none, reconcileWithDisk, row_isSome_foldl_insertRecovered,
    row_removeOrphans, hrow]
  rintro (hold | ⟨q, hq, hkey⟩)
  · exact absurd hold (by simp)
  · obtain ⟨i, hi⟩ := mem_filesOf.mp (List.mem_filter.mp hq).1
    have hq' : dir.fileAt q = some i := by
      rw [fileAt_removePartials] at hi
      split at hi
      · exact absurd hi (by simp)
      · exact hi
    rw [hkeys q (mem_filesOf.mpr ⟨i, hq'⟩) hkey, hfile] at hq'
    exact absurd hq' (by simp)

/-- A startup leaves a row exactly for the files, unless a row names a directory. -/
theorem row_iff_file_reconcile (hp : Accounted p) (hutf8 : ∀ q ∈ filesOf dir, IsUtf8 q)
    (hdir : dir.isDir p = true → db.row p mount = none) :
    ((reconcileWithDisk dir db mount now).2.row p mount).isSome = true ↔
      ((reconcileWithDisk dir db mount now).1.fileAt p).isSome = true := by
  obtain ⟨hu, hfinal, hmedia⟩ := hp
  have hlookup : (removePartials dir).lookup p = dir.lookup p := lookup_removePartials dir hfinal
  have hfile : (removePartials dir).fileAt p = dir.fileAt p := by
    rw [fileAt_removePartials, if_neg (by simp [hfinal])]
  simp only [reconcileWithDisk]
  rw [row_isSome_foldl_insertRecovered, row_removeOrphans, pathOfKey_rowKey hu, hlookup, hfile]
  constructor
  · rintro (h | ⟨q, hq, hkey⟩)
    · split at h
      · exact absurd h (by simp)
      · next hsome =>
        -- the row was there, and so is its name: a file, or else a directory
        cases hn : dir.lookup p with
        | none => exact absurd hn (by simpa using hsome)
        | some node =>
          cases node with
          | file i => rw [Files.fileAt_eq_some.mpr hn]; rfl
          | dir =>
            rw [hdir (by rw [Files.isDir, hn]; rfl)] at h
            exact absurd h (by simp)
    · obtain ⟨i, hi⟩ := mem_filesOf.mp (List.mem_filter.mp hq).1
      have hold : dir.fileAt q = some i := by
        rw [fileAt_removePartials] at hi
        split at hi
        · exact absurd hi (by simp)
        · exact hi
      obtain rfl := rowKey_inj (hutf8 q (mem_filesOf.mpr ⟨i, hold⟩)) hu hkey
      rw [hold]
      rfl
  · intro h
    obtain ⟨i, hi⟩ := Option.isSome_iff_exists.mp h
    refine .inr ⟨p, List.mem_filter.mpr ⟨mem_filesOf.mpr ⟨i, hfile.trans hi⟩, by simp [hmedia]⟩, rfl⟩

end Startup

/-! ## The invariant -/

/-- `evicting`: an eviction has removed the file of the path, and not yet its row. -/
structure Agrees (mount : MountId) (p : RelPath) (evicting : Prop) (v : PathView) : Prop where
  /-- a file has its row, or will have it -/
  rowed : (v.dir.fileAt p).isSome = true →
    (v.db.row p mount).isSome = true ∨ v.holds WorkerPc.renamed = true
  /-- a row has its file, or will be removed -/
  filed : (v.db.row p mount).isSome = true →
    (v.dir.fileAt p).isSome = true ∨ evicting ∨ v.holds WorkerPc.dropping = true

/-- A row is written while its file is there, or while the removal of the row is still to
come; a row is removed while its file is gone, or while a copy has the row still to write;
and a restart finds no row of a directory. -/
def Settles (mount : MountId) (p : RelPath) (evicting : Prop) (v : PathView) : Action → Prop
  | .work t _ =>
    (v.turn t WorkerPc.writes = true →
      (v.dir.fileAt p).isSome = true ∨ evicting ∨ v.holds WorkerPc.dropping = true) ∧
    (v.turn t WorkerPc.dropping = true →
      v.dir.fileAt p = none ∨ v.holds WorkerPc.renamed = true)
  | .evictRow q => q = p → v.dir.fileAt p = none ∨ v.holds WorkerPc.renamed = true
  | .crash _ _ =>
    (v.dir.isDir p = true → v.db.row p mount = none) ∧ ∀ q ∈ filesOf v.dir, IsUtf8 q
  | _ => True

instance (mount : MountId) (p : RelPath) (evicting : Prop) [Decidable evicting] (v : PathView) :
    (a : Action) → Decidable (Settles mount p evicting v a)
  | .work t _ => inferInstanceAs (Decidable (
      (v.turn t WorkerPc.writes = true →
        (v.dir.fileAt p).isSome = true ∨ evicting ∨ v.holds WorkerPc.dropping = true) ∧
      (v.turn t WorkerPc.dropping = true →
        v.dir.fileAt p = none ∨ v.holds WorkerPc.renamed = true)))
  | .evictRow q => inferInstanceAs (Decidable
      (q = p → v.dir.fileAt p = none ∨ v.holds WorkerPc.renamed = true))
  | .crash _ _ => inferInstanceAs (Decidable
      ((v.dir.isDir p = true → v.db.row p mount = none) ∧ ∀ q ∈ filesOf v.dir, IsUtf8 q))
  | .change _ | .offer _ | .submit _ _ _ | .expire _ | .pop _ | .acquire | .release | .forget _
  | .event _ | .dispatch _ | .evictFile _ | .hit _ _ | .touch _ _ | .refresh _ => isTrue trivial

section Moves

variable {cfg : Config} {p : RelPath} {tidy : Prop} {v v' : PathView} {a : Action}

/-- A copy that has renamed keeps its place until it writes the row. -/
theorem renamed_move (hm : PathMove cfg p True tidy v a v') (hcrash : ∀ now loaded, a ≠ .crash now loaded)
    (h : v.holds WorkerPc.renamed = true) :
    (v'.db.row p cfg.mount).isSome = true ∨ v'.holds WorkerPc.renamed = true := by
  obtain ⟨k, t, abort, pc, hphase, hpc⟩ := PathView.holds_iff.mp h
  rcases hm.running hphase with ⟨abort', h'⟩ | ⟨c, dir', db', e, pc', rfl, hw, rfl⟩ | ⟨now, loaded, rfl⟩
  · exact .inr (PathView.holds_of_phase h' hpc)
  · left
    rw [db_worked]
    cases hw with
    | mark snapshot => rw [CacheDb.row_markCached, if_pos rfl]; rfl
    | copy hc => cases hc <;> exact absurd hpc (by simp [WorkerPc.renamed])
    | _ => exact absurd hpc (by simp [WorkerPc.renamed])
  · exact absurd rfl (hcrash now loaded)

/-- A validation that has dropped the file keeps its place until it removes the row. -/
theorem dropping_move (hm : PathMove cfg p True tidy v a v') (hcrash : ∀ now loaded, a ≠ .crash now loaded)
    (h : v.holds WorkerPc.dropping = true) :
    v'.db.row p cfg.mount = none ∨ v'.holds WorkerPc.dropping = true := by
  obtain ⟨k, t, abort, pc, hphase, hpc⟩ := PathView.holds_iff.mp h
  rcases hm.running hphase with ⟨abort', h'⟩ | ⟨c, dir', db', e, pc', rfl, hw, rfl⟩ | ⟨now, loaded, rfl⟩
  · exact .inr (PathView.holds_of_phase h' hpc)
  · left
    rw [db_worked]
    cases hw with
    | dropRow => rw [CacheDb.row_remove, if_pos rfl]
    | _ => exact absurd hpc (by simp [WorkerPc.dropping])
  · exact absurd rfl (hcrash now loaded)

/-- A file that is there stays, or is removed by one that will remove its row. -/
theorem file_move {evicting' : Prop} (hp : isPartial p = false) (hm : PathMove cfg p True tidy v a v')
    (hnew : a = .evictFile p → evicting') (h : (v.dir.fileAt p).isSome = true) :
    (v'.dir.fileAt p).isSome = true ∨ evicting' ∨ v'.holds WorkerPc.dropping = true := by
  cases hm.file hp with
  | same e => exact .inl (e ▸ h)
  | evicted ha => exact .inr (.inl (hnew ha))
  | dropped ha hgone h' => exact .inr (.inr (PathView.holds_of_phase h' rfl))
  | committed ha hr h' hfile => exact .inl hfile

theorem Agrees.move {evicting evicting' : Prop} (hi : Agrees cfg.mount p evicting v)
    (hp : Accounted p) (hs : Settles cfg.mount p evicting v a)
    (hev : evicting → evicting' ∨ a = .evictRow p ∨ ∃ now loaded, a = .crash now loaded)
    (hrow : a = .evictRow p → v'.db.row p cfg.mount = none)
    (hboot : ∀ now loaded, a = .crash now loaded →
      reconcileWithDisk v.dir v.db cfg.mount now = (v'.dir, v'.db))
    (hnew : a = .evictFile p → evicting') (hm : PathMove cfg p True tidy v a v') :
    Agrees cfg.mount p evicting' v' := by
  by_cases hcrash : ∃ now loaded, a = .crash now loaded
  · obtain ⟨now, loaded, rfl⟩ := hcrash
    have hiff := @row_iff_file_reconcile _ _ _ now _ hp hs.2 hs.1
    rw [hboot now loaded rfl] at hiff
    exact ⟨fun h => .inl (hiff.mpr h), fun h => .inl (hiff.mp h)⟩
  · have hcrash' : ∀ now loaded, a ≠ .crash now loaded := fun now loaded e => hcrash ⟨now, loaded, e⟩
    -- what a row relies on is kept, as long as the row is
    have kept : (v'.db.row p cfg.mount).isSome = true →
        ((v.dir.fileAt p).isSome = true ∨ evicting ∨ v.holds WorkerPc.dropping = true) →
        (v'.dir.fileAt p).isSome = true ∨ evicting' ∨ v'.holds WorkerPc.dropping = true := by
      rintro hrow' (h | h | h)
      · exact file_move hp.2.1 hm hnew h
      · rcases hev h with h | ha | hc
        · exact .inr (.inl h)
        · rw [hrow ha] at hrow'
          exact absurd hrow' (by simp)
        · exact absurd hc hcrash
      · rcases dropping_move hm hcrash' h with hnone | h
        · rw [hnone] at hrow'
          exact absurd hrow' (by simp)
        · exact .inr (.inr h)
    constructor
    · intro hfile'
      -- a file that is new has its copy
      have hold : v'.holds WorkerPc.renamed = true ∨ (v.dir.fileAt p).isSome = true := by
        cases hm.file hp.2.1 with
        | same e => exact .inr (e ▸ hfile')
        | evicted ha e => rw [e] at hfile'; exact absurd hfile' (by simp)
        | dropped ha hgone h' e =>
          right
          rcases e with e | e
          · exact e ▸ hfile'
          · rw [e] at hfile'; exact absurd hfile' (by simp)
        | committed ha hr h' => exact .inl (PathView.holds_of_phase h' rfl)
      rcases hold with h | hfile
      · exact .inr h
      -- the row went only if a copy is about to write it
      have removed : (v.dir.fileAt p = none ∨ v.holds WorkerPc.renamed = true) →
          (v'.db.row p cfg.mount).isSome = true ∨ v'.holds WorkerPc.renamed = true := by
        rintro (h | h)
        · rw [h] at hfile
          exact absurd hfile (by simp)
        · exact renamed_move hm hcrash' h
      cases hm.row trivial with
      | same e =>
        rcases hi.rowed hfile with h | h
        · exact .inl (e ▸ h)
        · exact renamed_move hm hcrash' h
      | written ha h hpc h' hrow' => exact .inl hrow'
      | removed ha h => subst ha; exact removed (hs rfl)
      | dropped ha h => subst ha; exact removed (hs.2 (PathView.turn_of_phase h rfl))
      | restarted ha => exact absurd ha (hcrash' _ _)
    · intro hrow'
      refine kept hrow' ?_
      cases hm.row trivial with
      | same e => exact hi.filed (e ▸ hrow')
      | written ha h hpc => subst ha; exact hs.1 (PathView.turn_of_phase h hpc)
      | removed ha h => rw [h] at hrow'; exact absurd hrow' (by simp)
      | dropped ha h e => rw [e] at hrow'; exact absurd hrow' (by simp)
      | restarted ha => exact absurd ha (hcrash' _ _)

end Moves

/-! ## Over the runs of the daemon -/

namespace Daemon

variable {cfg : Config} {s s' : Daemon} {a : Action} {p : RelPath}

/-- The action writes only rows of paths that are UTF-8. -/
def NamesUtf8 (s : Daemon) (a : Action) : Prop := ∀ q ∈ s.rowOf a, IsUtf8 q

instance (s : Daemon) (a : Action) : Decidable (s.NamesUtf8 a) :=
  inferInstanceAs (Decidable (∀ q ∈ s.rowOf a, IsUtf8 q))

theorem clearAt_of_utf8 (hp : IsUtf8 p) (h : s.NamesUtf8 a) : s.ClearAt p a :=
  fun q hq hkey => rowKey_inj (h q hq) hp hkey

/-- No worker is at work, and no eviction is between its two halves. -/
def Quiet (s : Daemon) : Prop := s.jobs.running = [] ∧ s.evicting = []

instance (s : Daemon) : Decidable s.Quiet := inferInstanceAs (Decidable (_ ∧ _))

theorem not_holds_of_quiet (hw : s.Wf) (hq : s.Quiet) (f : WorkerPc → Bool) :
    (s.view p).holds f = false := by
  rw [Bool.eq_false_iff]
  intro h
  obtain ⟨k, t, abort, pc, hphase, -⟩ := PathView.holds_iff.mp h
  obtain ⟨job, hjob, -⟩ := (phase_eq_running_iff hw).mp hphase
  rw [Jobs.jobOf, hq.1] at hjob
  exact absurd hjob (by simp)

theorem evicting_of_step (h : step cfg s a = some s') :
    (p ∈ s.evicting → p ∈ s'.evicting ∨ a = .evictRow p ∨ ∃ now loaded, a = .crash now loaded) ∧
      (a = .evictFile p → p ∈ s'.evicting) := by
  have same : s'.evicting = s.evicting → a ≠ .evictFile p →
      (p ∈ s.evicting → p ∈ s'.evicting ∨ a = .evictRow p ∨ ∃ now loaded, a = .crash now loaded) ∧
        (a = .evictFile p → p ∈ s'.evicting) :=
    fun e ha => ⟨fun hm => .inl (e ▸ hm), fun e => absurd e ha⟩
  cases move_of_step h with
  | @evictFile q dir hr =>
    refine ⟨fun hm => .inl (List.mem_cons_of_mem q hm), fun e => ?_⟩
    obtain rfl := Action.evictFile.inj e
    exact List.mem_cons_self
  | @evictRow q hm =>
    refine ⟨fun hm => ?_, by simp⟩
    by_cases hq : p = q
    · exact .inr (.inl (by rw [hq]))
    · exact .inl ((List.mem_erase_of_ne hq).mpr hm)
  | @crash now loaded hl => exact ⟨fun _ => .inr (.inr ⟨now, loaded, rfl⟩), by simp⟩
  | change | served | offer | populate | submit | expire | pop | acquire | release | work | forget
  | event | markAbort | dispatch | hit | touch | refresh => exact same rfl (by simp)

/-- The steps keep to UTF-8 names, and meet `FsCache.Settles` at `p`. -/
def Settles (cfg : Config) (p : RelPath) (s : Daemon) (a : Action) : Prop :=
  s.NamesUtf8 a ∧ FsCache.Settles cfg.mount p (p ∈ s.evicting) (s.view p) a

instance (cfg : Config) (p : RelPath) (s : Daemon) (a : Action) : Decidable (s.Settles cfg p a) :=
  inferInstanceAs (Decidable (_ ∧ _))

theorem agrees_step (hp : Accounted p) (hw : s.Wf)
    (hi : Agrees cfg.mount p (p ∈ s.evicting) (s.view p)) (hs : s.Settles cfg p a)
    (h : step cfg s a = some s') : Agrees cfg.mount p (p ∈ s'.evicting) (s'.view p) := by
  obtain ⟨hev, hnew⟩ := @evicting_of_step cfg s s' a p h
  have hm : PathMove cfg p True False (s.view p) a (s'.view p) :=
    pathMove_of_step hw (fun _ => clearAt_of_utf8 hp.1 hs.1) (fun f => f.elim) h
  refine hi.move hp hs.2 hev ?_ ?_ hnew hm
  · intro ha
    subst ha
    cases move_of_step h with
    | evictRow hm => exact CacheDb.row_remove.trans (if_pos rfl)
  · intro now loaded ha
    subst ha
    cases move_of_step h with
    | crash hl => rfl

end Daemon

open Daemon

/-- After a startup that finds no row of a directory, in every run whose steps meet the
condition, in every state with no operation in progress: a path has a row exactly when it
has a cache file. -/
theorem rows_are_files {cfg : Config} {b : Backing} {dir : CacheDir} {db : CacheDb} {now : Nat}
    {loaded : List (RelPath × Nat)} {p : RelPath} (hp : Accounted p)
    (hutf8 : ∀ q ∈ filesOf dir, IsUtf8 q) (hdir : dir.isDir p = true → db.row p cfg.mount = none)
    {as : List Action} {s : Daemon}
    (hrun : run (step cfg) (start cfg b (reconcileWithDisk dir db cfg.mount now).1
      (reconcileWithDisk dir db cfg.mount now).2 loaded) as = some s)
    (hsettles : Along (step cfg) (Daemon.Settles cfg p) (start cfg b
      (reconcileWithDisk dir db cfg.mount now).1 (reconcileWithDisk dir db cfg.mount now).2 loaded) as)
    (hquiet : s.Quiet) :
    (s.db.row p cfg.mount).isSome = true ↔ (s.dir.fileAt p).isSome = true := by
  have hstart := @row_iff_file_reconcile dir db cfg.mount now p hp hutf8 hdir
  have keep : ∀ s a s', s.Wf ∧ Agrees cfg.mount p (p ∈ s.evicting) (s.view p) →
      s.Settles cfg p a → step cfg s a = some s' →
      s'.Wf ∧ Agrees cfg.mount p (p ∈ s'.evicting) (s'.view p) :=
    fun s a s' hi hs h => ⟨hi.1.step h, agrees_step hp hi.1 hi.2 hs h⟩
  obtain ⟨hw, hi⟩ := run_invariant_along _ keep hrun hsettles
    ⟨wf_start _ _ _ _ _, ⟨fun h => .inl (hstart.mpr h), fun h => .inl (hstart.mp h)⟩⟩
  constructor
  · intro hrow
    rcases hi.filed hrow with h | h | h
    · exact h
    · rw [hquiet.2] at h
      exact absurd h List.not_mem_nil
    · rw [not_holds_of_quiet hw hquiet] at h
      exact absurd h (by simp)
  · intro hfile
    rcases hi.rowed hfile with h | h
    · exact h
    · rw [not_holds_of_quiet hw hquiet] at h
      exact absurd h (by simp)

/-! ## A deletion that fails -/

section Kept

private def still : Name := ⟨[115, 116], Eq.refl true⟩

def oneMount : Config := ⟨[109], 60, 1⟩

def stillStart : Daemon :=
  start oneMount (Backing.empty.replaceFile [still] (.pair 80 81 1))
    (reconcileWithDisk Files.empty ⟨∅, ∅⟩ [109] 0).1 (reconcileWithDisk Files.empty ⟨∅, ∅⟩ [109] 0).2 []

/-- The file is populated, and then its backing file is removed; a validation drops it,
and its deletion fails if `fail`. -/
def dropped (fail : Bool) : List Action :=
  requested [still] ++ turns 1 19 ++
    [.forget [still], .release, .change (.remove [still]), .submit [still] .validate 9, .pop false] ++
    turns 2 2 ++ [.work 2 ⟨0, fail, 9⟩] ++ turns 2 2

/-- Nothing is in progress, and the file is there without a row. -/
theorem kept_without_row : ∃ s, run (step oneMount) stillStart (dropped true) = some s ∧ s.Quiet ∧
    (s.dir.fileAt [still]).isSome = true ∧ s.db.row [still] oneMount.mount = none := by
  have hrun : ((run (step oneMount) stillStart (dropped true)).any fun s =>
      decide s.Quiet && (s.dir.fileAt [still]).isSome &&
        decide (s.db.row [still] oneMount.mount = none)) = true := by
    decide +kernel
  obtain ⟨s, h, hs⟩ := (Option.any_eq_true _ _).mp hrun
  simp only [Bool.and_eq_true, decide_eq_true_eq] at hs
  exact ⟨s, h, hs.1.1, hs.1.2, hs.2⟩

theorem row_iff_file_dropped : ∃ s, run (step oneMount) stillStart (dropped false) = some s ∧
    ((s.db.row [still] oneMount.mount).isSome = true ↔ (s.dir.fileAt [still]).isSome = true) := by
  have hrun : ((run (step oneMount) stillStart (dropped false)).any fun s => decide s.Quiet) = true := by
    decide +kernel
  obtain ⟨s, h, hs⟩ := (Option.any_eq_true _ _).mp hrun
  have hsettles : Along (step oneMount) (Daemon.Settles oneMount [still]) stillStart (dropped false) := by
    decide +kernel
  exact ⟨s, h, rows_are_files (by decide) (by decide) (by decide) h hsettles (of_decide_eq_true hs)⟩

end Kept

end FsCache
