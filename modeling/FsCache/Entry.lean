import FsCache.PathView

/- What a move does to the cache entry of its path: the file, and the row.

   A copy, an eviction and a validation each touch the file in one step and the row in
   another. `FileMove` is the four things that can become of the file, `RowMove` those
   that can become of the row, and `PathMove.running` says that a worker stays where it
   is until it moves itself. -/

namespace FsCache
open Lib

def CopyPc.failed : CopyPc → Bool
  | .failInner _ | .failOuter _ | .err => true
  | _ => false

/-- Its next step writes the row of its path. -/
def WorkerPc.writes : WorkerPc → Bool
  | .copy (.ok _) | .verdict (.needsBackfill _) => true
  | _ => false

/-- It has renamed, and has the row still to write. -/
def WorkerPc.renamed : WorkerPc → Bool
  | .copy (.ok _) => true
  | _ => false

/-- It has dropped the file, and has the row still to remove. -/
def WorkerPc.dropping : WorkerPc → Bool
  | .dropRow => true
  | _ => false

/-- A worker is there. -/
def Phase.holds (f : WorkerPc → Bool) : Phase → Bool
  | .running _ _ pc => f pc
  | _ => false

/-- Task `t` is there. -/
def Phase.turn (t : Nat) (f : WorkerPc → Bool) : Phase → Bool
  | .running t' _ pc => t' == t && f pc
  | _ => false

namespace PathView

/-- Some worker of the path is there. -/
def holds (v : PathView) (f : WorkerPc → Bool) : Bool :=
  CacheJobKind.all.any fun k => (v.phase k).holds f

/-- Task `t` is a worker of the path, and there. -/
def turn (v : PathView) (t : Nat) (f : WorkerPc → Bool) : Bool :=
  CacheJobKind.all.any fun k => (v.phase k).turn t f

variable {v : PathView} {f : WorkerPc → Bool} {t : Nat}

theorem holds_iff :
    v.holds f = true ↔ ∃ k t abort pc, v.phase k = .running t abort pc ∧ f pc = true := by
  simp only [holds, List.any_eq_true]
  constructor
  · rintro ⟨k, -, hk⟩
    cases hp : v.phase k with
    | running t abort pc => exact ⟨k, t, abort, pc, hp, by simpa [hp, Phase.holds] using hk⟩
    | absent | waiting => exact absurd hk (by simp [hp, Phase.holds])
  · rintro ⟨k, t, abort, pc, hp, hf⟩
    exact ⟨k, k.mem_all, by rw [hp]; exact hf⟩

theorem turn_of_phase {k : CacheJobKind} {abort : Bool} {pc : WorkerPc}
    (h : v.phase k = .running t abort pc) (hf : f pc = true) : v.turn t f = true :=
  List.any_eq_true.mpr ⟨k, k.mem_all, by rw [h]; simp [Phase.turn, hf]⟩

theorem holds_of_phase {k : CacheJobKind} {abort : Bool} {pc : WorkerPc}
    (h : v.phase k = .running t abort pc) (hf : f pc = true) : v.holds f = true :=
  holds_iff.mpr ⟨k, t, abort, pc, h, hf⟩

end PathView

section Worker

variable {b : Backing} {dir dir' : CacheDir} {db db' : CacheDb} {mount : MountId} {abort : Bool}
  {p : RelPath} {k : CacheJobKind} {t : Nat} {c : WorkChoice} {pc pc' : WorkerPc} {e : JobEffect}

theorem isCached_of_lookup (h : (dir.lookup p).isSome → (dir'.lookup p).isSome)
    (hc : isCached dir p = true) : isCached dir' p = true := by
  unfold isCached at hc ⊢
  rw [Bool.and_eq_true] at hc ⊢
  exact ⟨h hc.1, hc.2⟩

/-- A worker takes the name of its path away only where it drops the file. -/
theorem lookup_workMove (hm : WorkMove b dir db mount abort p k t c pc dir' db' e pc')
    (hpc : pc ≠ .verdict .backingGone) (h : (dir.lookup p).isSome) : (dir'.lookup p).isSome := by
  by_cases hroot : p = []
  · rw [hroot]
    rfl
  · cases hm with
    | copy hc => exact lookup_move hc (partialPath_ne hroot).symm h
    | dropFile => exact absurd rfl hpc
    | skip | begin | readRow | noRow | promote | noRoom | room | mark | copyFailed | statLive
    | fresh | notTracked | backfill | stale | refresh | refreshed | dropRow | finish => exact h

/-- A worker changes the name of its path only by its rename, or where it drops the
file. -/
theorem fileAt_workMove (hm : WorkMove b dir db mount abort p k t c pc dir' db' e pc')
    (hpc : pc ≠ .verdict .backingGone) :
    dir'.fileAt p = dir.fileAt p ∨ e = .none ∧ ∃ snapshot, pc' = .copy (.ok snapshot) := by
  by_cases hroot : p = []
  · rw [hroot]
    exact .inl rfl
  · have hne := (partialPath_ne hroot).symm
    cases hm with
    | copy hc =>
      cases hc with
      | mkdir hd => exact .inl ((Files.onlyDirs_createDirAll hd).fileAt p)
      | openDst ho => exact .inl (by rw [Files.fileAt_openTrunc ho, if_neg hne])
      | rename hr => exact .inr ⟨rfl, _, rfl⟩
      | removeInner hd | removeOuter hd =>
        left
        rcases hd with rfl | rfl
        · rfl
        · rw [fileAt_removeFile, if_neg hne]
      | write | writeFails | mkdirFails | openSrc | openSrcFails | fstat | fstatFails | openDstFails
      | readFails | eof | chunk | syncFails | sync | checkAbort | refuse | accept | applyFails
      | apply | renameFails => exact .inl rfl
    | dropFile => exact absurd rfl hpc
    | skip | begin | readRow | noRow | promote | noRoom | room | mark | copyFailed | statLive
    | fresh | notTracked | backfill | stale | refresh | refreshed | dropRow | finish => exact .inl rfl

theorem row_isSome_refreshMove {r : RefreshPc} {next : Option RefreshPc}
    (h : RefreshMove db mount p r db' next) :
    (db'.row p mount).isSome = (db.row p mount).isSome := by
  cases h with
  | stop | agree | differs => rfl
  | update live =>
    rw [CacheDb.updateSourceMetadata, CacheDb.row_updateRow, if_pos rfl, Option.isSome_map]

/-- A worker removes the row of its path only where it drops it. -/
theorem row_isSome_workMove (hm : WorkMove b dir db mount abort p k t c pc dir' db' e pc')
    (hpc : pc ≠ .dropRow) (hrow : (db.row p mount).isSome) : (db'.row p mount).isSome := by
  cases hm with
  | mark snapshot => rw [CacheDb.row_markCached, if_pos rfl]; rfl
  | backfill st => rw [backfillFingerprint, CacheDb.row_markCached, if_pos rfl]; rfl
  | refresh h | refreshed h => rwa [row_isSome_refreshMove (refreshMove_of_step h)]
  | dropRow => exact absurd rfl hpc
  | skip | begin | readRow | noRow | promote | noRoom | room | copy | copyFailed | statLive | fresh
  | notTracked | dropFile | stale | finish => exact hrow

end Worker

section Moves

variable {cfg : Config} {p : RelPath} {clear tidy : Prop} {v v' : PathView} {a : Action}

/-- A worker stays where it is until it moves itself, or the daemon dies. -/
theorem PathMove.running (hm : PathMove cfg p clear tidy v a v') {k : CacheJobKind} {t : Nat}
    {abort : Bool} {pc : WorkerPc} (h : v.phase k = .running t abort pc) :
    (∃ abort', v'.phase k = .running t abort' pc) ∨
      (∃ c dir' db' e pc', a = .work t c ∧
        WorkMove v.backing v.dir v.db cfg.mount abort p k t c pc dir' db' e pc' ∧
        v' = v.worked k t abort dir' db' e pc') ∨
      ∃ now loaded, a = .crash now loaded := by
  cases hm with
  | foreign | change | event | evictFile | evictRow | hit | touch | refresh => exact .inl ⟨abort, h⟩
  | submit | dispatch => exact .inl ⟨abort, PathView.running_submitted.mpr h⟩
  | expire he =>
    rcases he k with e | ⟨e, -⟩
    · exact .inl ⟨abort, e.trans h⟩
    · exact absurd (h.symm.trans e) (by simp)
  | @spawn _ k' t' abort' hw =>
    by_cases hk : k = k'
    · subst hk
      exact absurd (h.symm.trans hw) (by simp)
    · exact .inl ⟨abort, (Function.update_of_ne hk _ _).trans h⟩
  | markAbort hw hp =>
    rcases hp k with e | ⟨t', abort', pc', e, e'⟩
    · exact .inl ⟨abort, e.trans h⟩
    · obtain ⟨rfl, rfl, rfl⟩ := Phase.running.inj (h.symm.trans e)
      exact .inl ⟨true, e'⟩
  | @work t' c k' abort' pc' pc'' dir' db' e hphase hw hfile hstep =>
    by_cases hk : k = k'
    · subst hk
      obtain ⟨rfl, rfl, rfl⟩ := Phase.running.inj (h.symm.trans hphase)
      exact .inr (.inl ⟨c, dir', db', e, pc'', rfl, hw, rfl⟩)
    · rcases PathView.phase_worked_ne hk with e | ⟨e, -⟩
      · exact .inl ⟨abort, e.trans h⟩
      · exact absurd (h.symm.trans e) (by simp)
  | @crash now loaded => exact .inr (.inr ⟨now, loaded, rfl⟩)

theorem dir_worked (v : PathView) (k : CacheJobKind) (t : Nat) (abort : Bool) (dir : CacheDir)
    (db : CacheDb) (e : JobEffect) (pc : WorkerPc) : (v.worked k t abort dir db e pc).dir = dir := by
  cases e <;> rfl

theorem db_worked (v : PathView) (k : CacheJobKind) (t : Nat) (abort : Bool) (dir : CacheDir)
    (db : CacheDb) (e : JobEffect) (pc : WorkerPc) : (v.worked k t abort dir db e pc).db = db := by
  cases e <;> rfl

theorem phase_worked_none (v : PathView) (k : CacheJobKind) (t : Nat) (abort : Bool) (dir : CacheDir)
    (db : CacheDb) (pc : WorkerPc) :
    (v.worked k t abort dir db .none pc).phase k = .running t abort pc :=
  Function.update_self _ _ _

/-- What becomes of the cache file at `p`. -/
inductive FileMove (p : RelPath) (v : PathView) (a : Action) (v' : PathView) : Prop
  | same (h : v'.dir.fileAt p = v.dir.fileAt p)
  | evicted (ha : a = .evictFile p) (h : v'.dir.fileAt p = none)
  | dropped {k : CacheJobKind} {t : Nat} {c : WorkChoice} {abort : Bool} (ha : a = .work t c)
      (h : v.phase k = .running t abort (.verdict .backingGone))
      (h' : v'.phase k = .running t abort .dropRow)
      (hfile : v'.dir.fileAt p = v.dir.fileAt p ∨ v'.dir.fileAt p = none)
  | committed {k : CacheJobKind} {t : Nat} {c : WorkChoice} {abort : Bool} {ctx : CopyCtx}
      {snapshot : SourceMetadata} (ha : a = .work t c)
      (h : v.phase k = .running t abort (.copy (.rename ctx snapshot)))
      (h' : v'.phase k = .running t abort (.copy (.ok snapshot)))
      (hfile : (v'.dir.fileAt p).isSome)

theorem PathMove.file (hp : isPartial p = false) (hm : PathMove cfg p clear tidy v a v') :
    FileMove p v a v' := by
  cases hm with
  | foreign hrow hname => exact .same (hname (by simpa [isPartial] using hp)).1
  | change | submit | expire | spawn | event | markAbort | dispatch | evictRow | hit | touch
  | refresh => exact .same rfl
  | evictFile h => exact .evicted rfl (by rw [Files.fileAt_remove h, if_pos rfl])
  | crash hr hphase =>
    obtain ⟨rfl, rfl⟩ := Prod.mk.inj hr
    exact .same (by rw [fileAt_removePartials, if_neg (by simp [hp])])
  | @work t c k abort pc pc' dir' db' e hphase hm hfile hstep =>
    by_cases hgone : pc = .verdict .backingGone
    · subst hgone
      cases hm with
      | dropFile h =>
        refine .dropped rfl hphase (phase_worked_none ..) ?_
        rw [dir_worked]
        rcases h with rfl | rfl
        · exact .inl rfl
        · exact .inr (by rw [fileAt_removeFile, if_pos rfl])
    · by_cases hok : ∃ snapshot, pc' = .copy (.ok snapshot)
      · obtain ⟨snapshot, rfl⟩ := hok
        cases hm with
        | copy hc =>
          cases hc with
          | rename hr =>
            refine .committed rfl hphase (phase_worked_none ..) ?_
            obtain ⟨i, hi, -⟩ := Files.rename_spec hr
            rw [dir_worked, Files.fileAt_rename hr, if_pos rfl, hi]
            rfl
      · refine .same ?_
        rw [dir_worked]
        exact (fileAt_workMove hm hgone).resolve_right fun h => hok h.2

/-- What becomes of the row of `p`. -/
inductive RowMove (mount : MountId) (p : RelPath) (v : PathView) (a : Action) (v' : PathView) : Prop
  | same (h : (v'.db.row p mount).isSome = (v.db.row p mount).isSome)
  | written {k : CacheJobKind} {t : Nat} {c : WorkChoice} {abort : Bool} {pc : WorkerPc}
      (ha : a = .work t c) (h : v.phase k = .running t abort pc) (hpc : pc.writes = true)
      (h' : v'.phase k = .running t abort .finish) (hrow : (v'.db.row p mount).isSome)
  | removed (ha : a = .evictRow p) (h : v'.db.row p mount = none)
  | dropped {k : CacheJobKind} {t : Nat} {c : WorkChoice} {abort : Bool} (ha : a = .work t c)
      (h : v.phase k = .running t abort .dropRow) (hrow : v'.db.row p mount = none)
  | restarted {now : Nat} {loaded : List (RelPath × Nat)} (ha : a = .crash now loaded)
      (h : reconcileWithDisk v.dir v.db mount now = (v'.dir, v'.db))

theorem PathMove.row (hclear : clear) (hm : PathMove cfg p clear tidy v a v') :
    RowMove cfg.mount p v a v' := by
  cases hm with
  | foreign hrow => exact .same (by rw [hrow hclear])
  | submit k now hrow =>
    refine .same (congrArg Option.isSome (Eq.trans ?_ hrow))
    rfl
  | change | expire | spawn | event | markAbort | dispatch | evictFile | touch => exact .same rfl
  | evictRow => exact .removed rfl (by rw [CacheDb.row_remove, if_pos rfl])
  | hit now =>
    refine .same ?_
    rw [CacheDb.markHit, CacheDb.row_updateRow, if_pos rfl, Option.isSome_map]
  | refresh h hr => exact .same (row_isSome_refreshMove (refreshMove_of_step hr))
  | crash hr hphase => exact .restarted rfl hr
  | @work t c k abort pc pc' dir' db' e hphase hm hfile hstep =>
    have hdb := db_worked v k t abort dir' db' e pc'
    cases hm with
    | mark snapshot =>
      refine .written rfl hphase rfl (phase_worked_none ..) ?_
      rw [hdb, CacheDb.row_markCached, if_pos rfl]
      rfl
    | backfill st =>
      refine .written rfl hphase rfl (phase_worked_none ..) ?_
      rw [hdb, backfillFingerprint, CacheDb.row_markCached, if_pos rfl]
      rfl
    | dropRow => exact .dropped rfl hphase (by rw [hdb, CacheDb.row_remove, if_pos rfl])
    | refresh h | refreshed h =>
      exact .same (by rw [hdb, row_isSome_refreshMove (refreshMove_of_step h)])
    | skip | begin | readRow | noRow | promote | noRoom | room | copy | copyFailed | statLive | fresh
    | notTracked | dropFile | stale | finish => exact .same (by rw [hdb])

end Moves

end FsCache
