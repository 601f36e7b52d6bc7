import FsCache.Complete
import FsCache.FreshSound
import FsCache.Kinds
import FsCache.Maintenance

/- A request is served.

   `request_delivered`: whatever has been before, when a regular file that is not cached,
   and that nobody is at work on, is asked for, and from then on is left as it is, then once
   no job of it is left, it is cached, with its own bytes and a row of its own version. Jobs
   of other paths, replacements and validations of this one, hits, and events that name it
   may come at any time.

   Until then the population is on its way to commit the file, or some other copy already
   has (`Coming`); and whatever a job of the path holds on to is of the file that is live
   (`AllLive`), so a late validation or a copy that was overtaken does no harm.

   What it takes (`DeliversAt`): no call fails for the path's own jobs, nobody evicts it, no
   job expires, the daemon is not restarted, copies of a path are promoted apart, nothing is
   committed under the name of its temporary file, and no copy of a path below makes a
   directory of it.

   Correspondence (Rust ↔ Lean):
     `submit_cache`                            ↔ `Action.submit` of kind populate
     `populate_worker`, `validate_worker`      ↔ `Action.work`, by `WorkMove`
     no entry of the path in `known`           ↔ `phase` absent, for every kind -/

namespace FsCache
open Lib

/-! ## One path -/

/-- What the worker holds on to is of the live file. -/
structure WorkerPc.Live (b : Backing) (p : RelPath) (pc : WorkerPc) : Prop where
  snapshot : ∀ cpc source, pc = .copy cpc → cpc.snapshot = some source → b.Current p source.version
  reading : ∀ cpc i, pc = .copy cpc → cpc.reading = some i → b.node p = some (.file i)
  seen : ∀ st, pc.seen = some st → b.Current p st.version

/-- And so is what the row of a cache file says, unless it is about to be written. -/
structure AllLive (mount : MountId) (p : RelPath) (v : PathView) : Prop extends Tracked mount p v where
  workers : ∀ k t abort pc, v.phase k = .running t abort pc → pc.Live v.backing p
  fingerprint : (v.dir.fileAt p).isSome → ∀ r, v.db.row p mount = some r →
    v.backing.Current p r.fingerprint.version ∨
      ∃ k t abort snapshot, v.phase k = .running t abort (.copy (.ok snapshot))

/-- The path is cached, or its population will commit it. -/
def Coming (p : RelPath) (v : PathView) : Prop :=
  isCached v.dir p = true ∨
    (v.phase .populate).Commits v.backing p ∧ (v.phase .populate).holds WorkerPc.renamed = false

section Worker

variable {b b' : Backing} {dir dir' : CacheDir} {db db' : CacheDb} {mount : MountId} {abort : Bool}
  {p : RelPath} {k : CacheJobKind} {t i : Nat} {c : WorkChoice} {pc pc' : WorkerPc} {e : JobEffect}

/-- A worker that holds on to nothing. -/
theorem WorkerPc.live_of_nothing (hcopy : ∀ cpc, pc ≠ .copy cpc) (hseen : pc.seen = none) : pc.Live b p where
  snapshot cpc _ hpc := absurd hpc (hcopy cpc)
  reading cpc _ hpc := absurd hpc (hcopy cpc)
  seen st hst := absurd (hseen.symm.trans hst) (by simp)

theorem WorkerPc.Live.untouched {ch : BackingChange} (h : pc.Live b p) (hch : b.change ch = some b')
    (ht : b.Touches p ch = false) : pc.Live b' p where
  snapshot cpc source hpc hs := (current_untouched hch ht).mpr (h.snapshot cpc source hpc hs)
  reading cpc i hpc hr := (Backing.live_of_untouched hch ht).1.trans (h.reading cpc i hpc hr)
  seen st hst := (current_untouched hch ht).mpr (h.seen st hst)

/-- A copy opens the file that is live, and reads no other. -/
theorem reading_move {cpc cpc' : CopyPc} {cc : CopyChoice} (hi : b.node p = some (.file i))
    (hm : CopyMove b dir abort p t cc cpc dir' cpc') {j : Nat} (hj : cpc'.reading = some j) :
    cpc.reading = some j ∨ j = i := by
  cases hm with
  | openSrc ho =>
    obtain rfl := Option.some.inj ((Backing.openFile_of_node hi).symm.trans ho)
    exact .inr (Option.some.inj hj).symm
  | fstat | openDst | chunk | write => exact .inl hj
  | mkdirFails | mkdir | openSrcFails | fstatFails | openDstFails | readFails | eof | writeFails | syncFails | sync
  | checkAbort | refuse | accept | applyFails | apply | renameFails | rename | removeInner | removeOuter =>
    exact absurd hj (by simp [CopyPc.reading])

theorem live_workMove (h : pc.Live b p) (hi : b.node p = some (.file i)) (hc : c.fail = false)
    (hm : WorkMove b dir db mount abort p k t c pc dir' db' e pc') : pc'.Live b p := by
  cases hm with
  | room =>
    refine ⟨fun cpc source hpc hs => ?_, fun cpc j hpc hj => ?_,
      fun st hst => absurd hst (by simp [WorkerPc.seen])⟩
    · obtain rfl := WorkerPc.copy.inj hpc
      exact absurd hs (by simp [CopyPc.snapshot])
    · obtain rfl := WorkerPc.copy.inj hpc
      exact absurd hj (by simp [CopyPc.reading])
  | @copy cpc cpc' dir' hcopy =>
    refine ⟨fun x source hpc hs => ?_, fun x j hpc hj => ?_, fun st hst => absurd hst (by simp [WorkerPc.seen])⟩
    · obtain rfl := WorkerPc.copy.inj hpc
      exact (snapshot_move hi hc hcopy hs).elim (h.snapshot cpc source rfl) id
    · obtain rfl := WorkerPc.copy.inj hpc
      obtain hold | rfl := reading_move hi hcopy hj
      · exact h.reading cpc j rfl hold
      · exact hi
  | statLive fp =>
    obtain ⟨live, hlive, hcur⟩ := stat_of_regular hi
    refine ⟨fun x source hpc => absurd hpc (by simp), fun x j hpc => absurd hpc (by simp), fun st hst => ?_⟩
    rw [WorkChoice.stat, hc, if_neg (by simp), hlive, isStaleWithFingerprint] at hst
    have hsame : live = st := by
      split at hst
      · exact Option.some.inj hst
      · split at hst
        · exact Option.some.inj hst
        · exact absurd hst (by simp [WorkerPc.seen])
    exact hsame ▸ hcur
  | fresh live =>
    exact ⟨fun x source hpc => absurd hpc (by simp), fun x j hpc => absurd hpc (by simp),
      fun st hst => h.seen st hst⟩
  | refresh hr =>
    refine ⟨fun x source hpc => absurd hpc (by simp), fun x j hpc => absurd hpc (by simp), fun st hst => ?_⟩
    cases refreshMove_of_step hr with
    | agree | differs => exact h.seen st hst
  | skip | begin | readRow | noRow | promote | noRoom | mark | copyFailed | notTracked | backfill | dropFile | stale
  | refreshed | dropRow | finish => exact WorkerPc.live_of_nothing (by simp) rfl

/-- What a worker writes into the row is of the live file. -/
theorem fingerprint_workMove (h : pc.Live b p) (hdrop : pc ≠ .dropRow)
    (hm : WorkMove b dir db mount abort p k t c pc dir' db' e pc')
    (hrow : ∀ r, db.row p mount = some r → b.Current p r.fingerprint.version) {r : Row}
    (hr : db'.row p mount = some r) : b.Current p r.fingerprint.version := by
  cases hm with
  | mark source =>
    rw [CacheDb.row_markCached, if_pos rfl] at hr
    obtain rfl := Option.some.inj hr
    exact fingerprint_current (h.snapshot _ source rfl rfl) c.now
  | backfill st =>
    rw [backfillFingerprint, CacheDb.row_markCached, if_pos rfl] at hr
    obtain rfl := Option.some.inj hr
    exact fingerprint_current (snapshot_current (h.seen st rfl)) c.now
  | refresh hstep =>
    cases refreshMove_of_step hstep with
    | agree | differs => exact hrow r hr
  | @refreshed rpc _ hstep =>
    have hmove := refreshMove_of_step hstep
    cases hmove with
    | stop => exact hrow r hr
    | update live =>
      -- the row keeps its size, which is that of the live file, too
      rw [CacheDb.updateSourceMetadata, CacheDb.row_updateRow, if_pos rfl, Option.map_eq_some_iff] at hr
      obtain ⟨r₀, hr₀, rfl⟩ := hr
      have hlive := h.seen live rfl
      have hsize : (r₀.fingerprint.sizeBytes : Int) = live.stSize :=
        congrArg Version.size (Option.some.inj ((hrow r₀ hr₀).symm.trans hlive))
      rw [fingerprint_withSource, hsize]
      exact hlive
  | dropRow => exact absurd rfl hdrop
  | skip | begin | readRow | noRow | promote | noRoom | room | copy | copyFailed | statLive | fresh | notTracked
  | dropFile | stale | finish => exact hrow r hr

/-- A population that is to commit goes on to do so, or finds the path cached. -/
theorem commits_workMove (hcommits : pc.Commits b p abort) (hrenamed : pc.renamed = false)
    (hp : extension p ≠ some partialExt) (hi : b.node p = some (.file i)) (hk : k ≠ .validate)
    (hc : c.fail = false)
    (herr : NoIoError b dir abort p t c pc) (hm : WorkMove b dir db mount abort p k t c pc dir' db' e pc')
    (hstep : workerStep b dir db mount abort p k t c pc = some (dir', db', e, pc')) :
    isCached dir' p = true ∨ pc'.renamed = false ∧
      (e = .none ∧ pc'.Commits b p abort ∨ e = .promote ∧ pc'.Commits b p false) := by
  cases hm with
  | skip hpop hcached => exact .inl hcached
  | begin => exact .inr ⟨rfl, .inl ⟨rfl, trivial⟩⟩
  | promote => exact .inr ⟨rfl, .inr ⟨rfl, rfl⟩⟩
  | noRoom hf => exact absurd (hc.symm.trans hf) (by simp)
  | room => exact .inr ⟨rfl, .inl ⟨rfl, hcommits⟩⟩
  | @copy cpc cpc' _ hcopy =>
    have hgo : cpc'.Commits b p abort :=
      CopyPc.Commits.move hcommits hi hc (herr _ (copyStep_of_workerStep hstep)) hcopy
    by_cases hok : (WorkerPc.copy cpc').renamed = true
    · -- it has just been renamed
      left
      cases hcopy with
      | rename hr =>
        obtain ⟨j, hj, -⟩ := Files.rename_spec hr
        have hfile : dir'.fileAt p = some j := by rw [Files.fileAt_rename hr, if_pos rfl, hj]
        exact isCached_of_fileAt hfile hp
      | mkdirFails | mkdir | openSrc | openSrcFails | fstat | fstatFails | openDst | openDstFails | readFails | eof
      | chunk | writeFails | write | syncFails | sync | checkAbort | refuse | accept | applyFails | apply
      | renameFails | removeInner | removeOuter => exact absurd hok (by simp [WorkerPc.renamed])
    · exact .inr ⟨Bool.eq_false_iff.mpr hok, .inl ⟨rfl, hgo⟩⟩
  | mark => exact absurd hrenamed (by simp [WorkerPc.renamed])
  | readRow hv | noRow hv => exact absurd hv hk
  | copyFailed | statLive | fresh | notTracked | backfill | dropFile | stale | refresh | refreshed | dropRow
  | finish => exact hcommits.elim

end Worker

section Moves

variable {cfg : Config} {p : RelPath} {v v' : PathView} {a : Action}

/-- A worker still holds on to nothing but the live file. -/
theorem AllLive.workers_move (hi : AllLive cfg.mount p v) (hm : PathMove cfg p True False v a v')
    (ha : Assumed p v a) (hspares : ∀ c, a = .change c → v.backing.Touches p c = false)
    {k : CacheJobKind} {t : Nat} {abort : Bool} {pc : WorkerPc} (hpc : v'.phase k = .running t abort pc) :
    pc.Live v'.backing p := by
  obtain ⟨i, hreg⟩ := hi.regular
  have hlive : pc.Live v.backing p := by
    cases hm.phase k with
    | keep h => exact hi.workers k t abort pc (h.symm.trans hpc)
    | idle h => rcases h with h | h <;> exact absurd (h.symm.trans hpc) (by simp)
    | spawn h =>
      obtain ⟨-, -, rfl⟩ := Phase.running.inj (h.symm.trans hpc)
      exact WorkerPc.live_of_nothing (by simp) rfl
    | abort h h' =>
      obtain ⟨-, -, rfl⟩ := Phase.running.inj (h'.symm.trans hpc)
      exact hi.workers k _ _ _ h
    | work e h hw hstep h' =>
      subst e
      obtain ⟨-, -, rfl⟩ := Phase.running.inj (h'.symm.trans hpc)
      exact live_workMove (hi.workers k _ _ _ h) hreg (ha.succeeds h).1 hw
  rcases hm.backing with e | ⟨c, e, h⟩
  · rwa [e]
  · exact hlive.untouched h (hspares c e)

/-- The row of a file that is there is written by nobody but for the live file. -/
theorem AllLive.row_move (hi : AllLive cfg.mount p v) (hm : PathMove cfg p True False v a v') (ha : Assumed p v a)
    (hrow : ∀ r, v.db.row p cfg.mount = some r → v.backing.Current p r.fingerprint.version) {r : Row}
    (hr : v'.db.row p cfg.mount = some r) : v.backing.Current p r.fingerprint.version := by
  cases hm with
  | foreign hkeep => exact hrow r ((hkeep trivial).symm.trans hr)
  | submit k now hkeep => exact hrow r (hkeep.symm.trans hr)
  | @work t c k abort pc pc' dir' db' e hphase hw =>
    rw [db_worked] at hr
    refine fingerprint_workMove (hi.workers k t abort pc hphase) ?_ hw hrow hr
    intro e
    subst e
    by_cases hk : k = .validate
    · exact (hi.noDrop t abort _ (hk ▸ hphase)).2 rfl
    · exact hk (by simpa [WorkerPc.fits] using hi.fits k t abort _ hphase)
  | hit now =>
    rw [CacheDb.markHit, CacheDb.row_updateRow, if_pos rfl, Option.map_eq_some_iff] at hr
    obtain ⟨r₀, hr₀, rfl⟩ := hr
    exact hrow r₀ hr₀
  | refresh h => exact absurd ((hi.calm _).symm.trans h) (by simp)
  | evictRow => exact absurd rfl ha
  | crash => exact ha.elim
  | change | expire | spawn | event | markAbort | dispatch | evictFile | touch => exact hrow r hr

theorem AllLive.fingerprint_move (hi : AllLive cfg.mount p v) (hp : isPartial p = false)
    (hm : PathMove cfg p True False v a v') (ha : Assumed p v a) (hfile : (v'.dir.fileAt p).isSome) {r : Row}
    (hr : v'.db.row p cfg.mount = some r) :
    v.backing.Current p r.fingerprint.version ∨
      ∃ k t abort snapshot, v'.phase k = .running t abort (.copy (.ok snapshot)) := by
  cases hm.file hp with
  | @committed k t c abort ctx snapshot e h h' => exact .inr ⟨k, t, abort, snapshot, h'⟩
  | evicted e => exact absurd rfl (e ▸ ha : Assumed p v (.evictFile p))
  | @dropped k t c abort e h =>
    by_cases hk : k = .validate
    · exact absurd rfl (hi.noDrop t abort _ (hk ▸ h)).1
    · exact absurd (hi.fits k t abort _ h) (by simpa [WorkerPc.fits] using hk)
  | same e =>
    rw [e] at hfile
    by_cases hcommitted : ∃ k t abort snapshot, v.phase k = .running t abort (.copy (.ok snapshot))
    · obtain ⟨k, t, abort, snapshot, h⟩ := hcommitted
      rcases hm.running h with ⟨abort', h'⟩ | ⟨c, dir', db', e, pc', -, hw, rfl⟩ | ⟨now, loaded, e⟩
      · exact .inr ⟨k, t, abort', snapshot, h'⟩
      · rw [db_worked] at hr
        cases hw with
        | copy hc => cases hc
        | mark =>
          rw [CacheDb.row_markCached, if_pos rfl, Option.some.injEq] at hr
          subst hr
          exact .inl (fingerprint_current ((hi.workers k t abort _ h).snapshot _ snapshot rfl rfl) c.now)
      · exact (e ▸ ha : Assumed p v (.crash now loaded)).elim
    · exact .inl (hi.row_move hm ha (fun r hr => (hi.fingerprint hfile r hr).resolve_right hcommitted) hr)

theorem AllLive.move (hi : AllLive cfg.mount p v) (hp : isPartial p = false)
    (hm : PathMove cfg p True False v a v') (ha : Assumed p v a)
    (hspares : ∀ c, a = .change c → v.backing.Touches p c = false) : AllLive cfg.mount p v' where
  toTracked := hi.toTracked.move hm ha
  workers k t abort pc hpc := hi.workers_move hm ha hspares hpc
  fingerprint hfile r hr := by
    refine (hi.fingerprint_move hp hm ha hfile hr).imp_left fun hcur => ?_
    rcases hm.backing with e | ⟨c, e, h⟩
    · rwa [e]
    · exact (current_untouched h (hspares c e)).mpr hcur

/-- The population is on its way until the path is cached. -/
theorem Coming.move (hc : Coming p v) (hi : AllLive cfg.mount p v) (hp : extension p ≠ some partialExt)
    (hm : PathMove cfg p True False v a v') (ha : Assumed p v a)
    (hspares : ∀ c, a = .change c → v.backing.Touches p c = false) : Coming p v' := by
  by_cases hcached : isCached v.dir p = true
  · exact .inl (cached_move hi.toTracked hcached hm ha)
  obtain ⟨hcommits, hrenamed⟩ := hc.resolve_left hcached
  obtain ⟨i, hreg⟩ := hi.regular
  have coming : ∀ {w : PathView}, w.backing = v.backing → (w.phase .populate).Commits v.backing p →
      (w.phase .populate).holds WorkerPc.renamed = false → Coming p w := by
    intro w hb hgo hnot
    refine .inr ⟨?_, hnot⟩
    rwa [hb]
  have submitted : ∀ k, ((v.submitted k).phase .populate).holds WorkerPc.renamed = false := by
    intro k
    simp only [PathView.submitted]
    split
    · rfl
    · exact hrenamed
  have put : ∀ {k ph}, k ≠ .populate → (v.put k ph).phase .populate = v.phase .populate :=
    fun hk => Function.update_of_ne (Ne.symm hk) _ _
  have self : ∀ k ph, (v.put k ph).phase k = ph := fun k ph => Function.update_self _ _ _
  cases hm with
  | foreign | event | hit => exact .inr ⟨hcommits, hrenamed⟩
  | change h => exact .inr ⟨hcommits.untouched hreg h (hspares _ rfl), hrenamed⟩
  | submit k => exact coming rfl (commits_submitted hcommits) (submitted k)
  | dispatch => exact coming rfl (commits_submitted (k := .validate) hcommits) (submitted .validate)
  | @spawn _ k t abort h =>
    by_cases hk : k = .populate
    · subst hk
      exact coming rfl (by rw [self]; trivial) (by rw [self]; rfl)
    · exact coming rfl (by rwa [put hk]) (by rwa [put hk])
  | markAbort hw => exact absurd (hi.watched (by rw [hw]; simp)) hcached
  | @work t c k abort pc pc' dir' db' e hphase hw hfile hstep =>
    have hb : (v.worked k t abort dir' db' e pc').backing = v.backing := by cases e <;> rfl
    by_cases hk : k = .populate
    · subst hk
      rw [hphase] at hcommits hrenamed
      obtain ⟨hc, herr⟩ := ha.succeeds hphase
      rcases commits_workMove hcommits hrenamed hp hreg (by simp) hc herr hw hstep with
        hdone | ⟨hrenamed', ⟨rfl, hgo⟩ | ⟨rfl, hgo⟩⟩
      · left
        rwa [dir_worked]
      · exact coming hb (by rw [phase_worked_none]; exact hgo) (by rw [phase_worked_none]; exact hrenamed')
      · have hphase' : (v.worked .populate t abort dir' db' .promote pc').phase .populate = .running t false pc' :=
          self .populate _
        exact coming hb (by rw [hphase']; exact hgo) (by rw [hphase']; exact hrenamed')
    · rcases PathView.phase_worked_ne (Ne.symm hk) with e' | ⟨-, e'⟩
      · exact coming hb (by rwa [e']) (by rwa [e'])
      · exact coming hb (by rw [e']; trivial) (by rw [e']; rfl)
  | refresh h => exact absurd ((hi.calm _).symm.trans h) (by simp)
  | evictFile | evictRow | touch => exact absurd rfl ha
  | expire | crash => exact ha.elim

end Moves

/-! ## The daemon -/

namespace Daemon

variable {cfg : Config} {s s' : Daemon} {a : Action} {p : RelPath} {f : BFile}

/-- What the steps have to meet, from the request on. -/
structure DeliversAt (p : RelPath) (s : Daemon) (a : Action) : Prop where
  assumed : AssumedAt p s a
  spares : Maintained.Spares p s a
  apart : s.PromotesApart a
  temp : TempKept p s a
  noDir : s.dir.fileAt p = none → s.makesDir p a = false

instance (p : RelPath) (s : Daemon) (a : Action) : Decidable (DeliversAt p s a) :=
  decidable_of_iff (AssumedAt p s a ∧ Maintained.Spares p s a ∧ s.PromotesApart a ∧ TempKept p s a ∧
      (s.dir.fileAt p = none → s.makesDir p a = false))
    ⟨fun h => ⟨h.1, h.2.1, h.2.2.1, h.2.2.2.1, h.2.2.2.2⟩,
      fun h => ⟨h.assumed, h.spares, h.apart, h.temp, h.noDir⟩⟩

theorem DeliversAt.untouched (h : DeliversAt p s a) (c : BackingChange) (e : a = .change c) :
    (s.view p).backing.Touches p c = false := by
  subst e
  exact h.spares

/-- The file at `p` is `f`, and whatever is done for `p` is done with it. -/
structure Faithfully (mount : MountId) (p : RelPath) (f : BFile) (s : Daemon) : Prop extends s.Tidy where
  sealed : SealedAt s.dir s.copies p
  noDir : s.dir.isDir p = false
  live : s.backing.live p = some f
  allLive : AllLive mount p (s.view p)
  complete : Complete (· = f) p (s.view p)

theorem served_of_live {b : Backing} (h : b.live p = some f) {g : BFile} (hg : b.served p = some g) : g = f := by
  obtain ⟨i, hi, rfl⟩ := Backing.live_eq_some.mp h
  rw [Backing.served_of_openFile (Backing.openFile_of_node hi), Option.some.injEq] at hg
  exact hg.symm

theorem Faithfully.step (hi : s.Faithfully cfg.mount p f) (hp : extension p ≠ some partialExt)
    (hok : DeliversAt p s a) (h : step cfg s a = some s') : s'.Faithfully cfg.mount p f := by
  have hm : PathMove cfg p True False (s.view p) a (s'.view p) :=
    pathMove_of_step hi.wf (fun _ => hok.assumed.2) (fun ht => ht.elim) h
  have hspares := hok.untouched
  refine { hi.toTidy.step hok.apart h with
    sealed := sealed_step hi.toTidy hi.sealed hok.temp h
    noDir := ?_
    live := ?_
    allLive := hi.allLive.move (by simpa [isPartial] using hp) hm hok.assumed.1 hspares
    complete := ?_ }
  · rw [Bool.eq_false_iff]
    intro hd
    rcases isDir_step h hd with hold | ⟨hmade, hfile⟩
    · exact absurd (hold.symm.trans hi.noDir) (by simp)
    · exact absurd (hmade.symm.trans (hok.noDir hfile)) (by simp)
  · rcases hm.backing with e | ⟨c, e, hc⟩
    · have e : s'.backing = s.backing := e
      rw [e]
      exact hi.live
    · exact (Backing.live_of_untouched hc (hspares c e)).2.1.trans hi.live
  · have htidy : PathMove cfg p False True (s.view p) a (s'.view p) :=
      pathMove_of_step hi.wf (fun ht => ht.elim) (fun _ => ⟨hi.windows, hi.sealed⟩) h
    refine hi.complete.move hp (fun g hg => served_of_live hi.live hg) ?_ htidy
    intro q g e k t abort pc hphase j hreading hnode
    -- what the copy reads is the file at `p`, which is not written to
    have hp' := (hi.allLive.workers k t abort _ hphase).reading pc j rfl hreading
    have huntouched := hspares _ e
    rw [Backing.Touches, hnode, hp'] at huntouched
    exact absurd huntouched (by simp)

theorem coming_step (hi : s.Faithfully cfg.mount p f) (hc : Coming p (s.view p))
    (hp : extension p ≠ some partialExt) (hok : DeliversAt p s a) (h : step cfg s a = some s') :
    Coming p (s'.view p) := by
  have hm : PathMove cfg p True False (s.view p) a (s'.view p) :=
    pathMove_of_step hi.wf (fun _ => hok.assumed.2) (fun ht => ht.elim) h
  exact hc.move hi.allLive hp hm hok.assumed.1 hok.untouched

/-- The population is there once it is asked for. -/
theorem coming_submitted {now : Nat} (hw : s.Wf) (habsent : s.phase p .populate = .absent)
    (h : step cfg s (.submit p .populate now) = some s') : Coming p (s'.view p) := by
  have hphase : s'.phase p = ((s.view p).submitted .populate).phase := by
    cases move_of_step h with
    | populate hm => exact phase_submit_self hw rfl rfl rfl
    | submit hk => exact absurd rfl hk
  have hwaiting : (s'.view p).phase .populate = .waiting := by
    show s'.phase p .populate = .waiting
    rw [hphase]
    exact if_pos ⟨rfl, habsent⟩
  exact .inr ⟨by rw [hwaiting]; trivial, by rw [hwaiting]; rfl⟩

/-- Nobody is at work on `p`. -/
structure LeftAlone (p : RelPath) (s : Daemon) : Prop where
  idle : ∀ k, s.phase p k = .absent
  unwatched : ∀ pc, s.watcher ≠ some (p, pc)
  calm : ∀ i pc, s.refreshing i ≠ some (p, pc)

theorem LeftAlone.view_watcher (h : s.LeftAlone p) : (s.view p).watcher = none := by
  by_contra hw
  obtain ⟨pc, hpc⟩ := Option.ne_none_iff_exists'.mp hw
  obtain ⟨⟨q, pc'⟩, hwatcher, hq⟩ := Option.bind_eq_some_iff.mp hpc
  by_cases e : q = p
  · exact h.unwatched pc' (e ▸ hwatcher)
  · exact absurd hq (by simp [e])

theorem LeftAlone.view_refreshing (h : s.LeftAlone p) (i : Nat) : (s.view p).refreshing i = none := by
  by_contra hr
  obtain ⟨pc, hpc⟩ := Option.ne_none_iff_exists'.mp hr
  obtain ⟨⟨q, pc'⟩, hrefreshing, hq⟩ := Option.bind_eq_some_iff.mp hpc
  by_cases e : q = p
  · exact h.calm i pc' (e ▸ hrefreshing)
  · exact absurd hq (by simp [e])

/-- With nobody at work on it, a file that is not cached is one that nothing is kept of. -/
theorem LeftAlone.faithfully (halone : s.LeftAlone p) (hi : s.Tidy) (hp : extension p ≠ some partialExt)
    (hlive : s.backing.live p = some f) (hcached : isCached s.dir p = false) : s.Faithfully cfg.mount p f := by
  have norunning : ∀ {k t abort pc}, (s.view p).phase k ≠ .running t abort pc := by
    intro k t abort pc h
    exact absurd ((halone.idle k).symm.trans h) (by simp)
  have hlookup : s.dir.lookup p = none := by
    rw [isCached, Bool.and_eq_false_iff] at hcached
    exact Option.not_isSome_iff_eq_none.mp (by simpa [hp] using hcached)
  have hfile : s.dir.fileAt p = none := by rw [Files.fileAt, hlookup]
  obtain ⟨i, hreg, -⟩ := Backing.live_eq_some.mp hlive
  refine { hi with
    sealed := ?_
    noDir := by simp [Files.isDir, hlookup]
    live := hlive
    allLive := ?_
    complete := ?_ }
  · -- no copy of `p` is at work
    intro t ctx hwin
    obtain ⟨pc, hpc, -⟩ := hwin
    obtain ⟨k, abort, hk⟩ := phase_of_copies hi.wf hpc
    exact absurd hk norunning
  · exact {
      regular := ⟨i, hreg⟩
      fits := hi.fits p
      noDrop := fun t abort pc h => absurd h norunning
      calm := halone.view_refreshing
      watched := fun hw => absurd halone.view_watcher hw
      row := fun _ hf => absurd (show (s.dir.fileAt p).isSome from hf) (by simp [hfile])
      workers := fun k t abort pc h => absurd h norunning
      fingerprint := fun hf => absurd (show (s.dir.fileAt p).isSome from hf) (by simp [hfile]) }
  · constructor
    · intro bs hbs
      have hbs : s.dir.bytesAt p = some bs := hbs
      rw [CacheDir.bytesAt, Files.contents, hfile] at hbs
      exact absurd hbs (by simp)
    · intro k t abort pc h
      exact absurd h norunning

/-- What is there when the path is cached and no job of it is left. -/
theorem Faithfully.delivered (hi : s.Faithfully cfg.mount p f) (hc : Coming p (s.view p))
    (hdone : ∀ k, s.phase p k = .absent) :
    s.dir.bytesAt p = some f.bytes ∧ RowCurrent s.backing s.db cfg.mount p := by
  have hphase : ∀ k, (s.view p).phase k = .absent := hdone
  have norunning : ∀ {k t abort pc}, (s.view p).phase k ≠ .running t abort pc := by
    intro k t abort pc h
    exact absurd ((hphase k).symm.trans h) (by simp)
  have hcached : isCached s.dir p = true := by
    refine hc.resolve_right fun h => ?_
    rw [hphase] at h
    exact h.1.elim
  obtain ⟨i, hfile⟩ : ∃ i, s.dir.fileAt p = some i :=
    (file_or_dir_of_cached hcached).resolve_right (by simp [hi.noDir])
  have hsome : ((s.view p).dir.fileAt p).isSome := Option.isSome_iff_exists.mpr ⟨i, hfile⟩
  constructor
  · obtain ⟨bytes, hbytes⟩ : ∃ bytes, s.dir.bytesAt p = some bytes :=
      ⟨_, by rw [CacheDir.bytesAt, Files.contents, hfile]; rfl⟩
    obtain ⟨g, rfl, hg⟩ := hi.complete.bytes bytes hbytes
    rw [hbytes, hg]
  · have hrow : ((s.view p).db.row p cfg.mount).isSome := by
      refine (hi.allLive.row (extension_of_cached hcached) hsome).resolve_right fun h => ?_
      obtain ⟨k, t, abort, snapshot, h⟩ := h
      exact norunning h
    obtain ⟨r, hr⟩ := Option.isSome_iff_exists.mp hrow
    refine ⟨r.fingerprint, ?_, (hi.allLive.fingerprint hsome r hr).resolve_right fun h => ?_⟩
    · have hr : s.db.row p cfg.mount = some r := hr
      simp [CacheDb.fingerprintRow, hr]
    · obtain ⟨k, t, abort, snapshot, h⟩ := h
      exact norunning h

end Daemon

open Daemon

section Bonus

private def bonus : Name := ⟨[98, 111, 110, 117, 115], Eq.refl true⟩

def bonusStart : Daemon :=
  start oneCopy (Backing.empty.replaceFile [bonus] (.pair 80 81 1)) Files.empty ⟨∅, ∅⟩ []

/-- The file is cached; an eviction takes the file and has not come to its row; then the file is
rewritten, and asked for. -/
def bonusDropped : List Action :=
  requested [bonus] ++ turns 1 19 ++
    [.release, .evictFile [bonus], .change (.write [bonus] (.pair 90 91 2)), .offer [bonus]]

/-- Beside its population, the change is announced, and a validation finds the row stale and has
the file replaced. -/
def bonusServed : List Action :=
  [.pop true, .acquire] ++ turns 2 5 ++ [.event [bonus], .submit [bonus] .validate 9, .pop false] ++ turns 3 4 ++
    turns 2 14 ++ [.release, .pop true, .acquire] ++ turns 4 19

/-- Without a refresh that begins, there is none. -/
private theorem calm_step {cfg : Config} {s s' : Daemon} {a : Action} (hi : ∀ i, s.refreshing i = none)
    (hno : ∀ i q, a ≠ .touch i q) (h : step cfg s a = some s') : ∀ i, s'.refreshing i = none := by
  cases move_of_step h with
  | touch => exact absurd rfl (hno _ _)
  | refresh hr => exact absurd ((hi _).symm.trans hr) (by simp)
  | crash => exact fun _ => rfl
  | change | served | offer | populate | submit | expire | pop | acquire | release | work | forget | event
  | markAbort | dispatch | evictFile | evictRow | hit => exact hi

end Bonus

end FsCache
