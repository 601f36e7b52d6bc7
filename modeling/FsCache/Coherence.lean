import FsCache.Entry

/- What the entry of a dispatched path comes to.

   The watcher's dispatch of a cached path tells the copies in flight to abort, and
   submits a validation; a validation that finds the row stale submits a
   replacement; both submissions are dropped while `known` has a job of that path
   and kind. `Heard` is what it takes for none of this to be lost:

     * a dispatch drops its validation only for one that will still see the row and
       the live file;
     * a stale verdict drops its replacement only for one that will bring the live
       version (it has not been told to abort, has not failed, and does not hold
       another version), or when the row has that version already;
     * where a validation reads the row, no copy holds a snapshot that is no longer
       live, which it is about to store.

   `Tracked` is what holds of `p` from the start, and `Coherent` from the dispatch
   on: the row is that of the live file, or somebody will see to it. Each clause of
   `Coherent` has its own lemma about a worker's step (`_worked`). -/

namespace FsCache
open Lib

/-- The file at `p` is a regular one, and of this version now. -/
def Backing.Current (b : Backing) (p : RelPath) (ver : Version) : Prop :=
  (b.live p).map BFile.version = some ver

instance (b : Backing) (p : RelPath) (ver : Version) : Decidable (b.Current p ver) :=
  inferInstanceAs (Decidable ((b.live p).map BFile.version = some ver))

/-- The copy will commit the version that is live now, if nothing else changes. -/
def CopyPc.Commits (b : Backing) (p : RelPath) (abort : Bool) : CopyPc → Prop
  | .mkdir | .openSrc => abort = false
  | .fstat src => abort = false ∧ b.openFile p = some src
  | .openDst _ init => abort = false ∧ b.Current p init.version
  | .read ctx | .write ctx _ | .sync ctx | .checkAbort ctx =>
    abort = false ∧ b.Current p ctx.init.version
  | .finalStat ctx aborted => aborted = false ∧ b.Current p ctx.init.version
  | .apply _ snapshot | .rename _ snapshot | .ok snapshot => b.Current p snapshot.version
  | .failInner _ | .failOuter _ | .err => False

instance (b : Backing) (p : RelPath) (abort : Bool) : (pc : CopyPc) → Decidable (pc.Commits b p abort)
  | .mkdir | .openSrc => inferInstanceAs (Decidable (abort = false))
  | .fstat src => inferInstanceAs (Decidable (abort = false ∧ b.openFile p = some src))
  | .openDst _ init => inferInstanceAs (Decidable (abort = false ∧ b.Current p init.version))
  | .read ctx | .write ctx _ | .sync ctx | .checkAbort ctx =>
    inferInstanceAs (Decidable (abort = false ∧ b.Current p ctx.init.version))
  | .finalStat ctx aborted =>
    inferInstanceAs (Decidable (aborted = false ∧ b.Current p ctx.init.version))
  | .apply _ snapshot | .rename _ snapshot | .ok snapshot =>
    inferInstanceAs (Decidable (b.Current p snapshot.version))
  | .failInner _ | .failOuter _ | .err => isFalse id

/-- The same, of a worker on its way there. A promotion clears the abort flag. -/
def WorkerPc.Commits (b : Backing) (p : RelPath) (abort : Bool) : WorkerPc → Prop
  | .start | .promote => True
  | .room => abort = false
  | .copy pc => pc.Commits b p abort
  | _ => False

instance (b : Backing) (p : RelPath) (abort : Bool) :
    (pc : WorkerPc) → Decidable (pc.Commits b p abort)
  | .start | .promote => isTrue trivial
  | .room => inferInstanceAs (Decidable (abort = false))
  | .copy pc => inferInstanceAs (Decidable (pc.Commits b p abort))
  | .statLive _ | .verdict _ | .refresh _ | .dropRow | .finish => isFalse id

def Phase.Commits (b : Backing) (p : RelPath) : Phase → Prop
  | .absent => False
  | .waiting => True
  | .running _ abort pc => pc.Commits b p abort

instance (b : Backing) (p : RelPath) : (ph : Phase) → Decidable (ph.Commits b p)
  | .absent => isFalse id
  | .waiting => isTrue trivial
  | .running _ abort pc => inferInstanceAs (Decidable (pc.Commits b p abort))

/-- What a copy past its final stat is about to store. -/
def CopyPc.snapshot : CopyPc → Option SourceMetadata
  | .apply _ snapshot | .rename _ snapshot | .ok snapshot => some snapshot
  | _ => none

def Phase.snapshot : Phase → Option SourceMetadata
  | .running _ _ (.copy pc) => pc.snapshot
  | _ => none

/-- Queued, or not yet at its row. -/
def Phase.unbegun : Phase → Bool
  | .waiting | .running _ _ .start => true
  | _ => false

/-- The validation will compare this row with the live file, or has found that the
row differs. -/
def Phase.sees (row : Option Fingerprint) : Phase → Bool
  | .running _ _ (.statLive fp) => row == some fp
  | .running _ _ (.verdict .stale) => true
  | _ => false

/-- Task `t` is at `pc`. -/
def Phase.isAt (t : Nat) (pc : WorkerPc) : Phase → Bool
  | .running t' _ pc' => t' == t && pc' == pc
  | _ => false

/-- The row of `p` has the version of the live file. -/
def RowCurrent (b : Backing) (db : CacheDb) (mount : MountId) (p : RelPath) : Prop :=
  ∃ fp ∈ db.fingerprintRow p mount, b.Current p fp.version

instance (b : Backing) (db : CacheDb) (mount : MountId) (p : RelPath) :
    Decidable (RowCurrent b db mount p) :=
  match h : db.fingerprintRow p mount with
  | none => isFalse (by rintro ⟨fp, hfp, -⟩; rw [h] at hfp; exact absurd hfp (by simp))
  | some fp => decidable_of_iff (b.Current p fp.version) (by
      constructor
      · exact fun hc => ⟨fp, h, hc⟩
      · intro hcurrent
        obtain ⟨fp', hfp', hc⟩ := hcurrent
        rw [h, Option.mem_some_iff] at hfp'
        exact hfp' ▸ hc)

/-! ## The runs spoken of, and the condition -/

/-- The change leaves a regular file at `p`. -/
def KeepsFile (p : RelPath) : BackingChange → Prop
  | .write _ _ | .replace _ _ => True
  | .remove q | .mkdir q _ | .symlink q _ _ => q ≠ p

instance (p : RelPath) : (c : BackingChange) → Decidable (KeepsFile p c)
  | .write _ _ | .replace _ _ => isTrue trivial
  | .remove q | .mkdir q _ | .symlink q _ _ => inferInstanceAs (Decidable (q ≠ p))

def CopyPc.isFinalStat : CopyPc → Bool
  | .finalStat _ _ => true
  | _ => false

/-- The step is no I/O error of a copy: only the final stat gives up. -/
def NoIoError (b : Backing) (dir : CacheDir) (abort : Bool) (p : RelPath) (t : Nat) (c : WorkChoice) :
    WorkerPc → Prop
  | .copy pc =>
    ∀ r ∈ copyStep b dir abort p t c.copy pc, r.2.failed = true →
      pc.failed = true ∨ pc.isFinalStat = true
  | _ => True

instance (b : Backing) (dir : CacheDir) (abort : Bool) (p : RelPath) (t : Nat) (c : WorkChoice) :
    (pc : WorkerPc) → Decidable (NoIoError b dir abort p t c pc)
  | .copy pc =>
    match h : copyStep b dir abort p t c.copy pc with
    | none => isTrue (by simp [NoIoError, h])
    | some r => decidable_of_iff
        (r.2.failed = true → pc.failed = true ∨ pc.isFinalStat = true) (by simp [NoIoError, h])
  | .start | .promote | .room | .statLive _ | .verdict _ | .refresh _ | .dropRow | .finish =>
    isTrue trivial

/-- Where the worker of this phase is task `t`, its step succeeds. -/
def Phase.Succeeds (b : Backing) (dir : CacheDir) (p : RelPath) (t : Nat) (c : WorkChoice) :
    Phase → Prop
  | .running t' abort pc => t' = t → c.fail = false ∧ NoIoError b dir abort p t c pc
  | _ => True

instance (b : Backing) (dir : CacheDir) (p : RelPath) (t : Nat) (c : WorkChoice) :
    (ph : Phase) → Decidable (ph.Succeeds b dir p t c)
  | .running t' abort pc =>
    inferInstanceAs (Decidable (t' = t → c.fail = false ∧ NoIoError b dir abort p t c pc))
  | .absent | .waiting => isTrue trivial

/-- Changes, dispatches, workers and submissions only, as far as `p` goes; the
backing file at `p` stays a regular one, and the workers of `p` meet no error. -/
def Assumed (p : RelPath) (v : PathView) : Action → Prop
  | .change c => KeepsFile p c
  | .work t c => ∀ k ∈ CacheJobKind.all, (v.phase k).Succeeds v.backing v.dir p t c
  | .evictFile q | .evictRow q | .touch _ q => q ≠ p
  | .expire _ | .crash _ _ => False
  | _ => True

instance (p : RelPath) (v : PathView) : (a : Action) → Decidable (Assumed p v a)
  | .change c => inferInstanceAs (Decidable (KeepsFile p c))
  | .work t c => inferInstanceAs (Decidable
      (∀ k ∈ CacheJobKind.all, (v.phase k).Succeeds v.backing v.dir p t c))
  | .evictFile q | .evictRow q | .touch _ q => inferInstanceAs (Decidable (q ≠ p))
  | .expire _ | .crash _ _ => isFalse id
  | .offer _ | .submit _ _ _ | .pop _ | .acquire | .release | .forget _ | .event _ | .dispatch _
  | .hit _ _ | .refresh _ => isTrue trivial

/-- No copy holds a snapshot that is not live. -/
def PathView.Settled (v : PathView) (p : RelPath) : Prop :=
  ∀ k ∈ CacheJobKind.all, ∀ snapshot ∈ (v.phase k).snapshot, v.backing.Current p snapshot.version

instance (v : PathView) (p : RelPath) : Decidable (v.Settled p) :=
  inferInstanceAs (Decidable (∀ k ∈ CacheJobKind.all, ∀ snapshot ∈ (v.phase k).snapshot,
    v.backing.Current p snapshot.version))

/-- The submissions that follow a change are not dropped for a job that does not
see the change, and no stale snapshot is outstanding when a row is read. -/
def Heard (mount : MountId) (p : RelPath) (v : PathView) : Action → Prop
  | .dispatch _ => v.watcher = some .submitValidation →
    v.phase .validate = .absent ∨ (v.phase .validate).unbegun = true ∨
      (v.phase .validate).sees (v.db.fingerprintRow p mount) = true ∧ v.Settled p
  | .work t _ =>
    ((v.phase .validate).isAt t (.verdict .stale) = true →
      v.phase .replace = .absent ∨ (v.phase .replace).Commits v.backing p ∨
        RowCurrent v.backing v.db mount p) ∧
    ((v.phase .validate).isAt t .start = true → v.Settled p)
  | _ => True

instance (mount : MountId) (p : RelPath) (v : PathView) : (a : Action) → Decidable (Heard mount p v a)
  | .dispatch _ => inferInstanceAs (Decidable (v.watcher = some .submitValidation →
      v.phase .validate = .absent ∨ (v.phase .validate).unbegun = true ∨
        (v.phase .validate).sees (v.db.fingerprintRow p mount) = true ∧ v.Settled p))
  | .work t _ => inferInstanceAs (Decidable
    (((v.phase .validate).isAt t (.verdict .stale) = true →
      v.phase .replace = .absent ∨ (v.phase .replace).Commits v.backing p ∨
        RowCurrent v.backing v.db mount p) ∧
    ((v.phase .validate).isAt t .start = true → v.Settled p)))
  | .change _ | .offer _ | .submit _ _ _ | .expire _ | .pop _ | .acquire | .release | .forget _
  | .event _ | .evictFile _ | .evictRow _ | .hit _ _ | .touch _ _ | .refresh _ | .crash _ _ =>
    isTrue trivial

/-! ## The live file -/

section Live

variable {b b' : Backing} {p : RelPath} {ver : Version} {c : BackingChange}

theorem current_iff : b.Current p ver ↔ ∃ f, b.live p = some f ∧ f.version = ver :=
  Option.map_eq_some_iff

/-- The version of a live file is in the range of the code's integers. -/
theorem size_of_current (h : b.Current p ver) : 0 ≤ ver.size ∧ ver.size < 2^63 := by
  obtain ⟨f, -, rfl⟩ := current_iff.mp h
  exact ⟨f.size_nonneg, f.size_lt'⟩

theorem stat_of_regular {i : Nat} (h : b.node p = some (.file i)) :
    ∃ st, b.stat p = some st ∧ b.Current p st.version := by
  have hlive : b.live p = some (b.file i) := Backing.live_eq_some.mpr ⟨i, h, rfl⟩
  exact ⟨_, Backing.stat_of_live hlive, current_iff.mpr ⟨_, hlive, rfl⟩⟩

theorem current_untouched (h : b.change c = some b') (ht : b.Touches p c = false) :
    b'.Current p ver ↔ b.Current p ver := by
  rw [Backing.Current, (Backing.live_of_untouched h ht).2.1, Backing.Current]

theorem regular_kept {i : Nat} (hi : b.node p = some (.file i)) (hk : KeepsFile p c)
    (h : b.change c = some b') : ∃ j, b'.node p = some (.file j) := by
  have hdir : ∀ st, c ≠ .mkdir p st := by
    intro st e
    subst e
    exact hk rfl
  have hlink : ∀ st target, c ≠ .symlink p st target := by
    intro st target e
    subst e
    exact hk rfl
  rcases Backing.node_change h hdir hlink with hsame | hfile | ⟨e, -⟩
  · exact ⟨i, hsame.trans hi⟩
  · exact hfile
  · subst e
    exact absurd rfl hk

/-- What the code's comparison says of the live file. -/
theorem contentMatches_current {fp : Fingerprint} {st : Stat} (hst : b.Current p st.version) :
    contentMatches fp st = true ↔ b.Current p fp.version := by
  obtain ⟨h0, h1⟩ := size_of_current hst
  rw [contentMatches_iff h0 h1]
  constructor
  · intro e
    rwa [e]
  · intro h
    exact Option.some.inj (h.symm.trans hst)

/-- A row that is written with a live version carries it. -/
theorem fingerprint_current {source : SourceMetadata} (h : b.Current p source.version) (now : Nat) :
    b.Current p (Row.cached source now).fingerprint.version := by
  have hsize := (size_of_current h).2
  rw [fingerprint_cached (by simp only [SourceMetadata.version] at hsize; omega)]
  exact h

theorem snapshot_current {st : Stat} (h : b.Current p st.version) :
    b.Current p (SourceMetadata.fromStat st).version := by
  rw [version_fromStat (size_of_current h).1]
  exact h

end Live

/-! ## A copy that commits -/

section Commits

variable {b b' : Backing} {dir dir' : CacheDir} {p : RelPath} {abort : Bool} {t : Nat}

theorem CopyPc.Commits.untouched {pc : CopyPc} {c : BackingChange} {i : Nat}
    (h : pc.Commits b p abort) (hi : b.node p = some (.file i)) (hc : b.change c = some b')
    (ht : b.Touches p c = false) : pc.Commits b' p abort := by
  have hcur : ∀ ver, b.Current p ver → b'.Current p ver := fun ver =>
    (current_untouched hc ht).mpr
  cases pc with
  | mkdir | openSrc => exact h
  | fstat src =>
    refine ⟨h.1, ?_⟩
    have hi' := (Backing.live_of_untouched hc ht).1.trans hi
    rw [Backing.openFile_of_node hi', ← h.2, Backing.openFile_of_node hi]
  | openDst | read | write | sync | checkAbort | finalStat => exact ⟨h.1, hcur _ h.2⟩
  | apply | rename | ok => exact hcur _ h
  | failInner | failOuter | err => exact h

/-- What the final stat answers to a copy that meets no error. -/
theorem finalStat_regular {c : CopyChoice} {i : Nat} (hi : b.node p = some (.file i))
    (hc : c.fail = false) : ∃ st, c.finalStat b p = some st ∧ b.Current p st.version := by
  obtain ⟨st, hst, hcur⟩ := stat_of_regular hi
  refine ⟨st, ?_, hcur⟩
  rw [CopyChoice.finalStat, hc]
  exact hst

theorem CopyPc.Commits.move {pc pc' : CopyPc} {c : CopyChoice} {i : Nat} (h : pc.Commits b p abort)
    (hi : b.node p = some (.file i)) (hc : c.fail = false)
    (herr : pc'.failed = true → pc.failed = true ∨ pc.isFinalStat = true)
    (hm : CopyMove b dir abort p t c pc dir' pc') : pc'.Commits b p abort := by
  have noError : pc'.failed = true → pc.failed = false → pc.isFinalStat = false →
      pc'.Commits b p abort := by
    intro h1 h2 h3
    rcases herr h1 with e | e
    · exact absurd (e.symm.trans h2) (by simp)
    · exact absurd (e.symm.trans h3) (by simp)
  cases hm with
  | mkdirFails | openSrcFails | fstatFails | openDstFails | readFails | writeFails | syncFails
  | applyFails | renameFails => exact noError rfl rfl rfl
  | removeInner | removeOuter => exact h.elim
  | mkdir hd => exact h
  | openSrc ho => exact ⟨h, ho⟩
  | fstat src =>
    refine ⟨h.1, ?_⟩
    -- what was opened is what is live
    obtain rfl := Option.some.inj ((Backing.openFile_of_node hi).symm.trans h.2)
    exact current_iff.mpr ⟨b.file i, Backing.live_eq_some.mpr ⟨i, hi, rfl⟩, rfl⟩
  | openDst ho => exact h
  | eof hr => exact h
  | chunk hr hne => exact h
  | write ctx bs => exact h
  | sync ctx => exact h
  | checkAbort ctx => exact h
  | refuse hr =>
    obtain ⟨st, hst, hcur⟩ := finalStat_regular hi hc
    rcases hr with ha | hr
    · exact absurd (h.1.symm.trans ha) (by simp)
    · have hsame := changedSince_eq_false.mpr (Option.some.inj (hcur.symm.trans h.2))
      rw [hst, hsame] at hr
      exact absurd hr (by simp)
  | accept hr =>
    obtain ⟨st, hst, hcur⟩ := finalStat_regular hi hc
    rw [hst]
    exact snapshot_current hcur
  | apply snapshot hf => exact h
  | rename hr => exact h

/-- A snapshot is taken at the final stat, and then it is live. -/
theorem snapshot_move {pc pc' : CopyPc} {c : CopyChoice} {i : Nat}
    (hi : b.node p = some (.file i)) (hc : c.fail = false)
    (hm : CopyMove b dir abort p t c pc dir' pc') {snapshot : SourceMetadata}
    (hs : pc'.snapshot = some snapshot) :
    pc.snapshot = some snapshot ∨ b.Current p snapshot.version := by
  cases hm with
  | accept hr =>
    obtain ⟨st, hst, hcur⟩ := finalStat_regular hi hc
    rw [hst] at hs
    obtain rfl := Option.some.inj hs
    exact .inr (snapshot_current hcur)
  | apply | rename => exact .inl hs
  | mkdirFails | mkdir | openSrc | openSrcFails | fstat | fstatFails | openDst | openDstFails
  | readFails | eof | chunk | writeFails | write | syncFails | sync | checkAbort | refuse
  | applyFails | renameFails | removeInner | removeOuter => exact absurd hs (by simp [CopyPc.snapshot])

end Commits

/-! ## What holds from the start -/

structure Tracked (mount : MountId) (p : RelPath) (v : PathView) : Prop where
  regular : ∃ i, v.backing.node p = some (.file i)
  fits : Fits v.phase
  noDrop : ∀ t abort pc, v.phase .validate = .running t abort pc →
    pc ≠ .verdict .backingGone ∧ pc ≠ .dropRow
  calm : ∀ i, v.refreshing i = none
  watched : v.watcher ≠ none → isCached v.dir p = true
  /-- a cache file has its row, or its copy is about to write it -/
  row : extension p ≠ some partialExt → (v.dir.fileAt p).isSome →
    (v.db.row p mount).isSome ∨
      ∃ k t abort snapshot, v.phase k = .running t abort (.copy (.ok snapshot))

section Worker

variable {b : Backing} {dir dir' : CacheDir} {db db' : CacheDb} {mount : MountId} {abort : Bool}
  {p : RelPath} {k : CacheJobKind} {t : Nat} {c : WorkChoice} {pc pc' : WorkerPc} {e : JobEffect}

/-- A validation that meets no error finds the file. -/
theorem noDrop_workMove {i : Nat} (hm : WorkMove b dir db mount abort p k t c pc dir' db' e pc')
    (hi : b.node p = some (.file i)) (hc : c.fail = false)
    (hpc : pc ≠ .verdict .backingGone ∧ pc ≠ .dropRow) :
    pc' ≠ .verdict .backingGone ∧ pc' ≠ .dropRow := by
  cases hm with
  | statLive fp =>
    obtain ⟨st, hst, -⟩ := stat_of_regular hi
    refine ⟨?_, by simp⟩
    rw [WorkChoice.stat, hc, if_neg (by simp), hst]
    simp only [isStaleWithFingerprint]
    split
    · simp
    · split <;> simp
  | dropFile => exact absurd rfl hpc.1
  | skip | begin | readRow | noRow | promote | noRoom | room | copy | mark | copyFailed | fresh
  | notTracked | backfill | stale | refresh | refreshed | dropRow | finish => simp

end Worker

section Moves

variable {cfg : Config} {p : RelPath} {v v' : PathView} {a : Action}

/-- The worker of a task of `p` meets no error. -/
theorem Assumed.succeeds {t : Nat} {c : WorkChoice} {k : CacheJobKind} {abort : Bool} {pc : WorkerPc}
    (ha : Assumed p v (.work t c)) (hphase : v.phase k = .running t abort pc) :
    c.fail = false ∧ NoIoError v.backing v.dir abort p t c pc := by
  have := ha k k.mem_all
  rw [hphase] at this
  exact this rfl

theorem Tracked.move (hi : Tracked cfg.mount p v) (hm : PathMove cfg p True False v a v')
    (ha : Assumed p v a) : Tracked cfg.mount p v' := by
  have hfits := hi.fits.move hm
  -- a job that is only queued leaves every worker where it is
  have queued : ∀ k, ∀ db' : CacheDb, db'.row p cfg.mount = v.db.row p cfg.mount →
      ∀ w, (w ≠ none → v.watcher ≠ none) →
      Fits (v.submitted k).phase →
      Tracked cfg.mount p { { v with db := db' }.submitted k with watcher := w } := by
    intro k db' hrow w hw hf
    refine ⟨hi.regular, hf, fun t abort pc h => ?_, hi.calm, fun h => hi.watched (hw h),
      fun hext hfile => ?_⟩
    · exact hi.noDrop t abort pc (PathView.running_submitted (v := v).mp h)
    · show (db'.row p cfg.mount).isSome ∨ _
      rw [hrow]
      refine (hi.row hext hfile).imp_right ?_
      intro hrunning
      obtain ⟨k', t, abort, snapshot, h⟩ := hrunning
      exact ⟨k', t, abort, snapshot, PathView.running_submitted (v := v).mpr h⟩
  cases hm with
  | foreign hrow hname =>
    refine ⟨hi.regular, hfits, hi.noDrop, hi.calm, fun hw => ?_, fun hext hfile => ?_⟩
    · have hc := hi.watched hw
      exact isCached_of_lookup (hname (extension_of_cached hc)).2.1 hc
    · dsimp only at hfile ⊢
      rw [hrow trivial]
      rw [(hname hext).1] at hfile
      exact hi.row hext hfile
  | change h =>
    obtain ⟨i, hreg⟩ := hi.regular
    exact ⟨regular_kept hreg ha h, hfits, hi.noDrop, hi.calm, hi.watched, hi.row⟩
  | submit k now hrow => exact queued k _ hrow v.watcher id hfits
  | dispatch hw => exact queued .validate v.db rfl none (fun h => absurd rfl h) hfits
  | expire => exact ha.elim
  | @spawn _ k t abort h =>
    refine ⟨hi.regular, hfits, fun t' abort' pc' h' => ?_, hi.calm, hi.watched, fun hext hfile => ?_⟩
    · by_cases hk : .validate = k
      · subst hk
        have h' : Phase.running t abort .start = .running t' abort' pc' := by
          simpa [PathView.put] using h'
        obtain ⟨-, -, rfl⟩ := Phase.running.inj h'
        simp
      · exact hi.noDrop t' abort' pc' (by simpa [PathView.put, hk] using h')
    · refine (hi.row hext hfile).imp_right ?_
      intro hrunning
      obtain ⟨k', t', abort', snapshot, h'⟩ := hrunning
      refine ⟨k', t', abort', snapshot, ?_⟩
      have hk : k' ≠ k := by
        intro hk
        subst hk
        rw [h] at h'
        exact absurd h' (by simp)
      simpa [PathView.put, hk] using h'
  | @work t c k abort pc pc' dir' db' e hphase hm hfile =>
    obtain ⟨i, hreg⟩ := hi.regular
    obtain ⟨hc, -⟩ := ha.succeeds hphase
    -- only a validation drops, and this one does not
    have hpc : pc ≠ .verdict .backingGone ∧ pc ≠ .dropRow := by
      by_cases hk : k = .validate
      · exact hi.noDrop t abort pc (hk ▸ hphase)
      · have := hi.fits k t abort pc hphase
        constructor <;> rintro rfl <;> exact hk (by simpa [WorkerPc.fits] using this)
    have hdir : (v.worked k t abort dir' db' e pc').dir = dir' := by cases e <;> rfl
    have hdb : (v.worked k t abort dir' db' e pc').db = db' := by cases e <;> rfl
    have hwatcher : (v.worked k t abort dir' db' e pc').watcher = v.watcher := by cases e <;> rfl
    refine ⟨by cases e <;> exact hi.regular, hfits, fun t' abort' pc'' h => ?_,
      by cases e <;> exact hi.calm, fun hw => ?_, fun hext hfile' => ?_⟩
    · rcases PathView.running_worked h with ⟨-, -, rfl⟩ | ⟨-, h⟩
      · exact noDrop_workMove hm hreg hc hpc
      · exact hi.noDrop t' abort' pc'' h
    · rw [hwatcher] at hw
      rw [hdir]
      exact isCached_of_lookup (lookup_workMove hm hpc.1) (hi.watched hw)
    · rw [hdir] at hfile'
      rw [hdb]
      rcases fileAt_workMove hm hpc.1 with hsame | ⟨rfl, snapshot, rfl⟩
      · rw [hsame] at hfile'
        rcases hi.row hext hfile' with hrow | ⟨k', t', abort', snapshot, h⟩
        · exact .inl (row_isSome_workMove hm hpc.2 hrow)
        · by_cases hk : k' = k
          · -- the copy that has committed writes its row
            subst hk
            obtain ⟨rfl, rfl, rfl⟩ := Phase.running.inj (hphase.symm.trans h)
            left
            cases hm with
            | copy hcm => cases hcm
            | mark => rw [CacheDb.row_markCached, if_pos rfl]; rfl
          · right
            refine ⟨k', t', abort', snapshot, ?_⟩
            have hother : (v.worked k t abort dir' db' e pc').phase k' = v.phase k' ∨
                v.phase k' = .absent ∧ (v.worked k t abort dir' db' e pc').phase k' = .waiting :=
              PathView.phase_worked_ne hk
            rcases hother with e' | ⟨e', -⟩
            · exact e'.trans h
            · rw [h] at e'
              exact absurd e' (by simp)
      · exact .inr ⟨k, t, abort, snapshot, Function.update_self _ _ _⟩
  | event hw =>
    refine ⟨hi.regular, hfits, hi.noDrop, hi.calm, fun h => ?_, hi.row⟩
    dsimp only at h ⊢
    by_cases hc : isCached v.dir p = true
    · exact hc
    · rw [if_neg hc] at h
      exact absurd rfl h
  | @markAbort now phase' hw h =>
    refine ⟨hi.regular, hfits, fun t abort pc hp => ?_, hi.calm,
      fun _ => hi.watched (by rw [hw]; simp), fun hext hfile => ?_⟩
    · have hp : phase' .validate = .running t abort pc := hp
      rcases h .validate with e | ⟨t', abort', pc', e, e'⟩
      · exact hi.noDrop t abort pc (e.symm.trans hp)
      · obtain ⟨-, -, rfl⟩ := Phase.running.inj (e'.symm.trans hp)
        exact hi.noDrop t' abort' _ e
    · refine (hi.row hext hfile).imp_right ?_
      intro hrunning
      obtain ⟨k, t, abort, snapshot, hk⟩ := hrunning
      rcases h k with e | ⟨t', abort', pc', e, e'⟩
      · exact ⟨k, t, abort, snapshot, e.trans hk⟩
      · obtain ⟨rfl, rfl, rfl⟩ := Phase.running.inj (e.symm.trans hk)
        exact ⟨k, t', true, snapshot, e'⟩
  | evictFile h => exact absurd rfl ha
  | evictRow => exact absurd rfl ha
  | hit now =>
    refine ⟨hi.regular, hfits, hi.noDrop, hi.calm, hi.watched, fun hext hfile => ?_⟩
    refine (hi.row hext hfile).imp_left fun hrow => ?_
    rw [CacheDb.markHit, CacheDb.row_updateRow, if_pos rfl, Option.isSome_map]
    exact hrow
  | touch i h => exact absurd rfl ha
  | refresh h hr => rw [hi.calm] at h; exact absurd h (by simp)
  | crash => exact ha.elim

end Moves

/-! ## What holds from the dispatch on -/

/-- A change of the path is yet to be dispatched. -/
def PathView.Soon (v : PathView) : Prop := v.pending = true ∨ v.watcher ≠ none

/-- The validation will see to a row of this fingerprint. -/
def WorkerPc.Handles (b : Backing) (p : RelPath) (fp : Fingerprint) : WorkerPc → Prop
  | .start => True
  | .statLive fp' => fp' = fp
  | .verdict .stale => True
  | .verdict (.needsBackfill st) => b.Current p st.version
  | _ => False

def Phase.Handles (b : Backing) (p : RelPath) (fp : Fingerprint) : Phase → Prop
  | .absent => False
  | .waiting => True
  | .running _ _ pc => pc.Handles b p fp

/-- What a validation has seen of the backing. -/
def WorkerPc.seen : WorkerPc → Option Stat
  | .verdict (.fresh st) | .verdict (.needsBackfill st) => some st
  | .refresh (.readFingerprint st) | .refresh (.readAttrs st) | .refresh (.update st) => some st
  | _ => none

/-- A refresh that has found the row's content to match. -/
def WorkerPc.matched : WorkerPc → Option Stat
  | .refresh (.readAttrs st) | .refresh (.update st) => some st
  | _ => none

structure Coherent (mount : MountId) (p : RelPath) (v : PathView) : Prop
    extends Tracked mount p v where
  cached : isCached v.dir p = true
  fingerprint : ∀ r, v.db.row p mount = some r →
    v.backing.Current p r.fingerprint.version ∨ v.Soon ∨
      (v.phase .validate).Handles v.backing p r.fingerprint ∨
      (v.phase .replace).Commits v.backing p
  snapshot : ∀ k t abort pc snapshot, v.phase k = .running t abort (.copy pc) →
    pc.snapshot = some snapshot →
    v.backing.Current p snapshot.version ∨ v.Soon ∨ (v.phase .validate).unbegun = true
  seen : ∀ t abort pc st, v.phase .validate = .running t abort pc → pc.seen = some st →
    v.backing.Current p st.version ∨ v.Soon
  size : ∀ t abort pc st r, v.phase .validate = .running t abort pc → pc.matched = some st →
    v.db.row p mount = some r → (r.fingerprint.sizeBytes : Int) = st.stSize ∨ v.Soon

theorem start_of_unbegun {t : Nat} {abort : Bool} {pc : WorkerPc}
    (h : (Phase.running t abort pc).unbegun = true) : pc = .start := by
  cases pc with
  | start => rfl
  | promote | room | copy | statLive | verdict | refresh | dropRow | finish =>
    exact absurd h (by simp [Phase.unbegun])

theorem Phase.Handles.unbegun {b : Backing} {p : RelPath} {fp : Fingerprint} {ph : Phase}
    (h : ph.unbegun = true) : ph.Handles b p fp := by
  cases ph with
  | absent => exact absurd h (by simp [Phase.unbegun])
  | waiting => trivial
  | running t abort pc =>
    obtain rfl := start_of_unbegun h
    trivial

/-- What a validation makes of a row, when it has stat'ed the live file. -/
theorem verdict_handles {b : Backing} {p : RelPath} {fp : Fingerprint} {st : Stat}
    (hst : b.Current p st.version) :
    b.Current p fp.version ∨
      (WorkerPc.verdict (isStaleWithFingerprint (some st) fp)).Handles b p fp := by
  rw [isStaleWithFingerprint]
  split
  · exact .inr hst
  · split
    · next hm => exact .inl ((contentMatches_current hst).mp hm)
    · exact .inr trivial

theorem Phase.Handles.untouched {b b' : Backing} {p : RelPath} {fp : Fingerprint} {ph : Phase}
    {c : BackingChange} (hc : b.change c = some b') (ht : b.Touches p c = false)
    (h : ph.Handles b p fp) : ph.Handles b' p fp := by
  cases ph with
  | absent | waiting => exact h
  | running t abort pc =>
    cases pc with
    | verdict r =>
      cases r with
      | needsBackfill st => exact (current_untouched hc ht).mpr h
      | fresh | stale | backingGone | notTracked => exact h
    | start | promote | room | copy | statLive | refresh | dropRow | finish => exact h

theorem Phase.Commits.untouched {b b' : Backing} {p : RelPath} {ph : Phase} {c : BackingChange}
    {i : Nat} (hi : b.node p = some (.file i)) (hc : b.change c = some b')
    (ht : b.Touches p c = false) (h : ph.Commits b p) : ph.Commits b' p := by
  cases ph with
  | absent | waiting => exact h
  | running t abort pc =>
    cases pc with
    | copy pc => exact CopyPc.Commits.untouched h hi hc ht
    | start | promote | room | statLive | verdict | refresh | dropRow | finish => exact h

section Steps

variable {cfg : Config} {p : RelPath} {v v' : PathView} {a : Action}

/-- While a change is undispatched there is nothing to show. -/
theorem Coherent.soon (hi : Tracked cfg.mount p v) (hcached : isCached v.dir p = true)
    (hs : v.Soon) : Coherent cfg.mount p v :=
  { hi with
    cached := hcached
    fingerprint := fun _ _ => .inr (.inl hs)
    snapshot := fun _ _ _ _ _ _ _ => .inr (.inl hs)
    seen := fun _ _ _ _ _ _ => .inr hs
    size := fun _ _ _ _ _ _ _ _ => .inr hs }

/-- A validation that has not read its row sees to everything. -/
theorem Coherent.unbegun (hi : Tracked cfg.mount p v) (hcached : isCached v.dir p = true)
    (hu : (v.phase .validate).unbegun = true) : Coherent cfg.mount p v := by
  have hstart : ∀ t abort pc, v.phase .validate = .running t abort pc → pc = .start :=
    fun t abort pc h => start_of_unbegun (h ▸ hu)
  refine { hi with
    cached := hcached
    fingerprint := fun _ _ => .inr (.inr (.inl (.unbegun hu)))
    snapshot := fun _ _ _ _ _ _ _ => .inr (.inr hu)
    seen := fun t abort pc st h hs => ?_
    size := fun t abort pc st r h hs _ => ?_ }
  · rw [hstart t abort pc h] at hs
    exact absurd hs (by simp [WorkerPc.seen])
  · rw [hstart t abort pc h] at hs
    exact absurd hs (by simp [WorkerPc.matched])

/-- A validation that will see the row and the live file sees to everything that is
settled. -/
theorem Coherent.seeing (hi : Tracked cfg.mount p v) (hcached : isCached v.dir p = true)
    (hsees : (v.phase .validate).sees (v.db.fingerprintRow p cfg.mount) = true)
    (hsettled : v.Settled p) : Coherent cfg.mount p v := by
  have hpc : ∀ t abort pc, v.phase .validate = .running t abort pc →
      (∃ fp, pc = .statLive fp ∧ v.db.fingerprintRow p cfg.mount = some fp) ∨
        pc = .verdict .stale := by
    intro t abort pc h
    rw [h] at hsees
    unfold Phase.sees at hsees
    split at hsees
    · next fp e =>
      obtain ⟨-, -, rfl⟩ := Phase.running.inj e
      exact .inl ⟨fp, rfl, eq_of_beq hsees⟩
    · next e =>
      obtain ⟨-, -, rfl⟩ := Phase.running.inj e
      exact .inr rfl
    · exact absurd hsees (by simp)
  refine { hi with
    cached := hcached
    fingerprint := fun r hr => ?_
    snapshot := fun k t abort pc snapshot h hs => .inl (hsettled k k.mem_all snapshot ?_)
    seen := fun t abort pc st h hs => ?_
    size := fun t abort pc st r h hs _ => ?_ }
  · right; right; left
    cases hphase : v.phase .validate with
    | absent | waiting =>
      rw [hphase] at hsees
      exact absurd hsees (by simp [Phase.sees])
    | running t abort pc =>
      rcases hpc t abort pc hphase with ⟨fp, rfl, hfp⟩ | rfl
      · rw [CacheDb.fingerprintRow, hr] at hfp
        exact (Option.some.inj hfp).symm
      · trivial
  · rw [h]
    exact hs
  · rcases hpc t abort pc h with ⟨fp, rfl, -⟩ | rfl <;> exact absurd hs (by simp [WorkerPc.seen])
  · rcases hpc t abort pc h with ⟨fp, rfl, -⟩ | rfl <;> exact absurd hs (by simp [WorkerPc.matched])

theorem cached_move (hi : Tracked cfg.mount p v) (hc : isCached v.dir p = true)
    (hm : PathMove cfg p True False v a v') (ha : Assumed p v a) : isCached v'.dir p = true := by
  cases hm with
  | foreign hrow hname => exact isCached_of_lookup (hname (extension_of_cached hc)).2.1 hc
  | @work t c k abort pc pc' dir' db' e hphase hm hfile =>
    have hdir : (v.worked k t abort dir' db' e pc').dir = dir' := by cases e <;> rfl
    rw [hdir]
    refine isCached_of_lookup (lookup_workMove hm ?_) hc
    intro he
    subst he
    by_cases hk : k = .validate
    · exact (hi.noDrop t abort _ (hk ▸ hphase)).1 rfl
    · exact hk (by simpa [WorkerPc.fits] using hi.fits k t abort _ hphase)
  | evictFile => exact absurd rfl ha
  | crash => exact ha.elim
  | change | submit | expire | spawn | event | markAbort | dispatch | evictRow | hit | touch
  | refresh => exact hc

/-! ### The step of a worker of the path -/

section Worker

variable {k : CacheJobKind} {t : Nat} {c : WorkChoice} {abort : Bool} {pc pc' : WorkerPc}
  {dir' : CacheDir} {db' : CacheDb} {e : JobEffect}

/-- The step of a copy's worker leaves the validation where it is. -/
theorem validate_worked (hk : k ≠ .validate)
    (hu : ¬ ((v.worked k t abort dir' db' e pc').phase .validate).unbegun = true) :
    (v.worked k t abort dir' db' e pc').phase .validate = v.phase .validate := by
  rcases PathView.phase_worked_ne (Ne.symm hk) with e' | ⟨-, e'⟩
  · exact e'
  · rw [e'] at hu
    exact absurd rfl hu

theorem snapshot_worked (hi : Coherent cfg.mount p v) (ha : Assumed p v (.work t c))
    (hh : Heard cfg.mount p v (.work t c)) (hphase : v.phase k = .running t abort pc)
    (hm : WorkMove v.backing v.dir v.db cfg.mount abort p k t c pc dir' db' e pc') (hs : ¬ v.Soon)
    (hu : ¬ ((v.worked k t abort dir' db' e pc').phase .validate).unbegun = true)
    {k' : CacheJobKind} {t' : Nat} {abort' : Bool} {cpc : CopyPc} {snapshot : SourceMetadata}
    (h : (v.worked k t abort dir' db' e pc').phase k' = .running t' abort' (.copy cpc))
    (hsnap : cpc.snapshot = some snapshot) : v.backing.Current p snapshot.version := by
  obtain ⟨i, hreg⟩ := hi.regular
  obtain ⟨hc, -⟩ := ha.succeeds hphase
  -- a snapshot that was there is live, or the validation is just about to read its row
  have old : ∀ k₀ t₀ abort₀ cpc₀, v.phase k₀ = .running t₀ abort₀ (.copy cpc₀) →
      cpc₀.snapshot = some snapshot → v.backing.Current p snapshot.version := by
    intro k₀ t₀ abort₀ cpc₀ h₀ hsnap₀
    rcases hi.snapshot k₀ t₀ abort₀ cpc₀ snapshot h₀ hsnap₀ with hcur | hsoon | hub
    · exact hcur
    · exact absurd hsoon hs
    · by_cases hk : k = .validate
      · subst hk
        rw [hphase] at hub
        obtain rfl := start_of_unbegun hub
        have hstart : (v.phase .validate).isAt t .start = true := by
          rw [hphase]
          simp [Phase.isAt]
        refine hh.2 hstart k₀ k₀.mem_all snapshot ?_
        rw [h₀]
        exact hsnap₀
      · rw [validate_worked hk hu] at hu
        exact absurd hub hu
  rcases PathView.running_worked h with ⟨rfl, rfl, rfl⟩ | ⟨-, h⟩
  · cases hm with
    | room => exact absurd hsnap (by simp [CopyPc.snapshot])
    | copy hcm =>
      rcases snapshot_move hreg hc hcm hsnap with hsnap | hcur
      · exact old _ _ _ _ hphase hsnap
      · exact hcur
  · exact old _ _ _ _ h hsnap

theorem seen_worked (hi : Coherent cfg.mount p v) (ha : Assumed p v (.work t c))
    (hphase : v.phase k = .running t abort pc)
    (hm : WorkMove v.backing v.dir v.db cfg.mount abort p k t c pc dir' db' e pc') (hs : ¬ v.Soon)
    {t' : Nat} {abort' : Bool} {pc'' : WorkerPc} {st : Stat}
    (h : (v.worked k t abort dir' db' e pc').phase .validate = .running t' abort' pc'')
    (hseen : pc''.seen = some st) : v.backing.Current p st.version := by
  obtain ⟨i, hreg⟩ := hi.regular
  obtain ⟨hc, -⟩ := ha.succeeds hphase
  have old : ∀ t abort pc₀, v.phase .validate = .running t abort pc₀ → pc₀.seen = some st →
      v.backing.Current p st.version :=
    fun t abort pc₀ h₀ hseen₀ => (hi.seen t abort pc₀ st h₀ hseen₀).resolve_right hs
  rcases PathView.running_worked h with ⟨rfl, rfl, rfl⟩ | ⟨-, h⟩
  · cases hm with
    | statLive fp =>
      obtain ⟨live, hlive, hcur⟩ := stat_of_regular hreg
      rw [WorkChoice.stat, hc, if_neg (by simp), hlive, isStaleWithFingerprint] at hseen
      -- whatever the verdict carries is what was stat'ed
      have hst : live = st := by
        split at hseen
        · exact Option.some.inj hseen
        · split at hseen
          · exact Option.some.inj hseen
          · exact absurd hseen (by simp [WorkerPc.seen])
      exact hst ▸ hcur
    | fresh live => exact old _ _ _ hphase hseen
    | refresh hr =>
      cases refreshMove_of_step hr with
      | agree => exact old _ _ _ hphase hseen
      | differs => exact old _ _ _ hphase hseen
    | skip | begin | readRow | noRow | promote | noRoom | room | copy | mark | copyFailed | notTracked
    | backfill | dropFile | stale | refreshed | dropRow | finish =>
      exact absurd hseen (by simp [WorkerPc.seen])
  · exact old _ _ _ h hseen

/-- A worker of a copy writes the row only when it is through. -/
theorem row_of_copy (hk : k ≠ .validate) (hfits : pc.fits k = true)
    (hm : WorkMove v.backing v.dir v.db cfg.mount abort p k t c pc dir' db' e pc') :
    (db' = v.db ∧ ∀ snapshot, pc ≠ .copy (.ok snapshot)) ∨ ∃ snapshot, pc = .copy (.ok snapshot) ∧
      db' = v.db.markCached p cfg.mount snapshot c.now := by
  cases hm with
  | mark snapshot => exact .inr ⟨snapshot, rfl, rfl⟩
  | copy h => exact .inl ⟨rfl, by intro snapshot e; cases e; cases h⟩
  | backfill | refresh | refreshed | dropRow => exact absurd hfits (by simpa [WorkerPc.fits] using hk)
  | skip | begin | readRow | noRow | promote | noRoom | room | copyFailed | statLive | fresh
  | notTracked | dropFile | stale | finish => exact .inl ⟨rfl, by simp⟩

/-- A row that a copy writes is live, unless the validation has not read it. -/
theorem marked_current (hi : Coherent cfg.mount p v) {snapshot : SourceMetadata} (hk : k ≠ .validate)
    (hphase : v.phase k = .running t abort (.copy (.ok snapshot))) (hs : ¬ v.Soon)
    (hu : ¬ ((v.worked k t abort dir' db' e pc').phase .validate).unbegun = true) :
    v.backing.Current p snapshot.version := by
  rcases hi.snapshot k t abort _ snapshot hphase rfl with hcur | hsoon | hub
  · exact hcur
  · exact absurd hsoon hs
  · rw [validate_worked hk hu] at hu
    exact absurd hub hu

theorem size_worked (hi : Coherent cfg.mount p v) (ha : Assumed p v (.work t c))
    (hphase : v.phase k = .running t abort pc)
    (hm : WorkMove v.backing v.dir v.db cfg.mount abort p k t c pc dir' db' e pc') (hs : ¬ v.Soon)
    (hu : ¬ ((v.worked k t abort dir' db' e pc').phase .validate).unbegun = true)
    {t' : Nat} {abort' : Bool} {pc'' : WorkerPc} {st : Stat} {r : Row}
    (h : (v.worked k t abort dir' db' e pc').phase .validate = .running t' abort' pc'')
    (hmatched : pc''.matched = some st) (hrow : db'.row p cfg.mount = some r) :
    (r.fingerprint.sizeBytes : Int) = st.stSize := by
  have hseen : pc''.seen = some st := by
    cases pc'' with
    | refresh rpc => cases rpc <;> first | exact hmatched | simp [WorkerPc.matched] at hmatched
    | start | promote | room | copy | statLive | verdict | dropRow | finish =>
      exact absurd hmatched (by simp [WorkerPc.matched])
  have hcur := seen_worked hi ha hphase hm hs h hseen
  rcases PathView.running_worked h with ⟨rfl, rfl, rfl⟩ | ⟨hk, hold⟩
  · cases hm with
    | refresh hr =>
      cases refreshMove_of_step hr with
      | agree hfp hzero hc =>
        -- the content of the row was found to match
        obtain rfl := Option.some.inj hmatched
        rw [CacheDb.fingerprintRow, hrow, Option.map_some, Option.some.injEq] at hfp
        obtain ⟨h0, h1⟩ := size_of_current hcur
        rw [hfp]
        exact congrArg Version.size ((contentMatches_iff h0 h1).mp hc)
      | differs live =>
        exact (hi.size _ _ _ _ r hphase hmatched hrow).resolve_right hs
    | skip | begin | readRow | noRow | promote | noRoom | room | copy | mark | copyFailed | statLive
    | fresh | notTracked | backfill | dropFile | stale | refreshed | dropRow | finish =>
      exact absurd hmatched (by simp [WorkerPc.matched])
  · have hk := Ne.symm hk
    rcases row_of_copy hk (hi.fits _ _ _ _ hphase) hm with ⟨rfl, hmark⟩ | ⟨snapshot, rfl, rfl⟩
    · exact (hi.size _ _ _ _ r hold hmatched hrow).resolve_right hs
    · -- both the new row and what was seen are live
      have hsnap := fingerprint_current (marked_current hi hk hphase hs hu) c.now
      rw [CacheDb.row_markCached, if_pos rfl, Option.some.injEq] at hrow
      rw [hrow] at hsnap
      exact congrArg Version.size (Option.some.inj (hsnap.symm.trans hcur))

/-- A copy that will commit stays one, until it writes its row. -/
theorem commits_worked (hi : Coherent cfg.mount p v) (ha : Assumed p v (.work t c))
    (hk : k ≠ .validate) (hphase : v.phase k = .running t abort pc)
    (hm : WorkMove v.backing v.dir v.db cfg.mount abort p k t c pc dir' db' e pc')
    (hstep : workerStep v.backing v.dir v.db cfg.mount abort p k t c pc = some (dir', db', e, pc'))
    (hmark : ∀ snapshot, pc ≠ .copy (.ok snapshot)) (h : (v.phase .replace).Commits v.backing p) :
    ((v.worked k t abort dir' db' e pc').phase .replace).Commits v.backing p := by
  obtain ⟨i, hreg⟩ := hi.regular
  obtain ⟨hc, herr⟩ := ha.succeeds hphase
  by_cases hr : k = .replace
  · subst hr
    rw [hphase] at h
    have moved : ∀ abort' pc', WorkerPc.Commits v.backing p abort' pc' →
        (Function.update v.phase .replace (.running t abort' pc') .replace).Commits v.backing p := by
      intro abort' pc' hpc
      rw [Function.update_self]
      exact hpc
    cases hm with
    | skip hp => exact absurd hp (by simp)
    | begin => exact moved _ _ trivial
    | promote => exact moved _ _ rfl
    | noRoom hf => exact absurd (hc.symm.trans hf) (by simp)
    | room => exact moved _ _ h
    | copy hcm =>
      exact moved _ _ (CopyPc.Commits.move h hreg hc (herr _ (copyStep_of_workerStep hstep)) hcm)
    | mark snapshot => exact absurd rfl (hmark snapshot)
    | readRow hp | noRow hp => exact absurd hp hk
    | copyFailed | statLive | fresh | notTracked | backfill | dropFile | stale | refresh | refreshed
    | dropRow | finish => exact h.elim
  · rcases PathView.phase_worked_ne (Ne.symm hr) with e' | ⟨-, e'⟩
    · rw [e']
      exact h
    · rw [e']
      trivial

/-- What a validation's own step leaves of its row. -/
theorem validation_worked (hi : Coherent cfg.mount p v) (ha : Assumed p v (.work t c))
    (hh : Heard cfg.mount p v (.work t c)) (hphase : v.phase .validate = .running t abort pc)
    (hm : WorkMove v.backing v.dir v.db cfg.mount abort p .validate t c pc dir' db' e pc')
    (hs : ¬ v.Soon) {r : Row} (hrow : db'.row p cfg.mount = some r) :
    v.backing.Current p r.fingerprint.version ∨
      ((v.worked .validate t abort dir' db' e pc').phase .validate).Handles v.backing p
        r.fingerprint ∨
      ((v.worked .validate t abort dir' db' e pc').phase .replace).Commits v.backing p := by
  obtain ⟨i, hreg⟩ := hi.regular
  obtain ⟨hc, -⟩ := ha.succeeds hphase
  have hdrop := hi.noDrop t abort pc hphase
  have commits : (v.phase .replace).Commits v.backing p →
      ((v.worked .validate t abort dir' db' e pc').phase .replace).Commits v.backing p := by
    intro h
    rcases PathView.phase_worked_ne (show .replace ≠ .validate by simp) with e' | ⟨-, e'⟩
    · rw [e']
      exact h
    · rw [e']
      trivial
  -- what was known of the row, when the step does not write it
  have old : v.db.row p cfg.mount = some r →
      v.backing.Current p r.fingerprint.version ∨ pc.Handles v.backing p r.fingerprint ∨
        (v.phase .replace).Commits v.backing p := by
    intro h
    have := hi.fingerprint r h
    rw [hphase] at this
    rcases this with h | h | h | h
    · exact .inl h
    · exact absurd h hs
    · exact .inr (.inl h)
    · exact .inr (.inr h)
  have keep : v.db.row p cfg.mount = some r → ¬ pc.Handles v.backing p r.fingerprint →
      v.backing.Current p r.fingerprint.version ∨
      ((v.worked .validate t abort dir' db' e pc').phase .validate).Handles v.backing p
        r.fingerprint ∨
      ((v.worked .validate t abort dir' db' e pc').phase .replace).Commits v.backing p :=
    fun h hn => (old h).imp_right fun h => .inr (commits (h.resolve_left hn))
  have self : e = .none ∨ e = .submitReplace → pc'.Handles v.backing p r.fingerprint →
      ((v.worked .validate t abort dir' db' e pc').phase .validate).Handles v.backing p
        r.fingerprint := by
    rintro (rfl | rfl) h <;>
      simpa [PathView.worked, PathView.put, PathView.submitted, Phase.Handles] using h
  cases hm with
  | skip hp => exact absurd hp (by simp)
  | begin hp | promote hp => exact absurd rfl hp
  | noRoom | room | copy | mark | copyFailed =>
    exact absurd (hi.fits _ _ _ _ hphase) (by simp [WorkerPc.fits])
  | readRow hp hfp =>
    rw [CacheDb.fingerprintRow, hrow] at hfp
    exact .inr (.inl (self (.inl rfl) (Option.some.inj hfp).symm))
  | noRow hp hfp =>
    rw [CacheDb.fingerprintRow, hrow] at hfp
    exact absurd hfp (by simp)
  | statLive fp =>
    rcases old hrow with h | h | h
    · exact .inl h
    · obtain ⟨st, hst, hcur⟩ := stat_of_regular hreg
      obtain rfl : fp = r.fingerprint := h
      rw [WorkChoice.stat, hc, if_neg (by simp), hst] at self ⊢
      exact (verdict_handles hcur).imp_right fun h => .inl (self (.inl rfl) h)
    · exact .inr (.inr (commits h))
  | fresh | notTracked | finish => exact keep hrow id
  | backfill st =>
    -- the row is given what was seen, which is live
    rw [backfillFingerprint, CacheDb.row_markCached, if_pos rfl, Option.some.injEq] at hrow
    subst hrow
    have hcur := (hi.seen t abort _ st hphase rfl).resolve_right hs
    exact .inl (fingerprint_current (snapshot_current hcur) c.now)
  | stale =>
    have hstale : (v.phase .validate).isAt t (.verdict .stale) = true := by
      rw [hphase]
      simp [Phase.isAt]
    rcases hh.1 hstale with h | h | ⟨fp, hfp, hcur⟩
    · right; right
      simp [PathView.worked, PathView.put, PathView.submitted, h, Phase.Commits]
    · exact .inr (.inr (commits h))
    · rw [CacheDb.fingerprintRow, hrow] at hfp
      obtain rfl := Option.some.inj hfp
      exact .inl hcur
  | refresh hr =>
    cases refreshMove_of_step hr with
    | agree | differs => exact keep hrow id
  | @refreshed rpc _ hr =>
    have hmove := refreshMove_of_step hr
    cases hmove with
    | stop => exact keep hrow id
    | update live =>
      rw [CacheDb.updateSourceMetadata, CacheDb.row_updateRow, if_pos rfl,
        Option.map_eq_some_iff] at hrow
      obtain ⟨r₀, hr₀, rfl⟩ := hrow
      -- the row's size stays, and is that of what was seen
      have hcur := (hi.seen t abort _ live hphase rfl).resolve_right hs
      have hsize := (hi.size t abort _ live r₀ hphase rfl hr₀).resolve_right hs
      left
      rw [fingerprint_withSource, hsize]
      exact hcur
  | dropFile => exact absurd rfl hdrop.1
  | dropRow => exact absurd rfl hdrop.2

theorem fingerprint_worked (hi : Coherent cfg.mount p v) (ha : Assumed p v (.work t c))
    (hh : Heard cfg.mount p v (.work t c)) (hphase : v.phase k = .running t abort pc)
    (hm : WorkMove v.backing v.dir v.db cfg.mount abort p k t c pc dir' db' e pc') (hs : ¬ v.Soon)
    (hstep : workerStep v.backing v.dir v.db cfg.mount abort p k t c pc = some (dir', db', e, pc'))
    (hu : ¬ ((v.worked k t abort dir' db' e pc').phase .validate).unbegun = true)
    {r : Row} (hrow : db'.row p cfg.mount = some r) :
    v.backing.Current p r.fingerprint.version ∨
      ((v.worked k t abort dir' db' e pc').phase .validate).Handles v.backing p r.fingerprint ∨
      ((v.worked k t abort dir' db' e pc').phase .replace).Commits v.backing p := by
  by_cases hk : k = .validate
  · subst hk
    exact validation_worked hi ha hh hphase hm hs hrow
  · rw [validate_worked hk hu]
    rcases row_of_copy hk (hi.fits _ _ _ _ hphase) hm with ⟨rfl, hmark⟩ | ⟨snapshot, rfl, rfl⟩
    · rcases hi.fingerprint r hrow with h | h | h | h
      · exact .inl h
      · exact absurd h hs
      · exact .inr (.inl h)
      · exact .inr (.inr (commits_worked hi ha hk hphase hm hstep hmark h))
    · -- the row that a copy has just written
      rw [CacheDb.row_markCached, if_pos rfl, Option.some.injEq] at hrow
      subst hrow
      exact .inl (fingerprint_current (marked_current hi hk hphase hs hu) c.now)

end Worker

theorem handles_submitted {k k' : CacheJobKind} {fp : Fingerprint}
    (h : (v.phase k').Handles v.backing p fp) :
    ((v.submitted k).phase k').Handles v.backing p fp := by
  simp only [PathView.submitted]
  split
  · trivial
  · exact h

theorem commits_submitted {k k' : CacheJobKind} (h : (v.phase k').Commits v.backing p) :
    ((v.submitted k).phase k').Commits v.backing p := by
  simp only [PathView.submitted]
  split
  · trivial
  · exact h

theorem unbegun_submitted {k k' : CacheJobKind} (h : (v.phase k').unbegun = true) :
    ((v.submitted k).phase k').unbegun = true := by
  simp only [PathView.submitted]
  split
  · rfl
  · exact h

/-- A heard dispatch leaves a validation that sees to everything. -/
theorem Coherent.dispatched (hi : Tracked cfg.mount p v)
    (htracked : Tracked cfg.mount p { v.submitted .validate with watcher := none })
    (hw : v.watcher = some .submitValidation) {now : Nat} (hh : Heard cfg.mount p v (.dispatch now)) :
    Coherent cfg.mount p { v.submitted .validate with watcher := none } := by
  have hcached : isCached v.dir p = true := hi.watched (by rw [hw]; simp)
  rcases hh hw with h | h | ⟨hsees, hsettled⟩
  · exact .unbegun htracked hcached (by simp [PathView.submitted, h, Phase.unbegun])
  · exact .unbegun htracked hcached (unbegun_submitted h)
  · refine .seeing htracked hcached ?_ fun k _ snapshot hs => hsettled k k.mem_all snapshot ?_
    · have h : (v.submitted .validate).phase .validate = v.phase .validate := by
        refine if_neg fun h => ?_
        rw [h.2] at hsees
        exact absurd hsees (by simp [Phase.sees])
      dsimp only
      rw [h]
      exact hsees
    · simp only [PathView.submitted] at hs
      split at hs
      · exact absurd hs (by simp [Phase.snapshot])
      · exact hs

theorem Coherent.move (hi : Coherent cfg.mount p v) (hm : PathMove cfg p True False v a v')
    (ha : Assumed p v a) (hh : Heard cfg.mount p v a) : Coherent cfg.mount p v' := by
  have htracked := hi.toTracked.move hm ha
  have hcached := cached_move hi.toTracked hi.cached hm ha
  by_cases hs' : v'.Soon
  · exact .soon htracked hcached hs'
  by_cases hu' : (v'.phase .validate).unbegun = true
  · exact .unbegun htracked hcached hu'
  obtain ⟨i, hreg⟩ := hi.regular
  cases hm with
  | foreign hrow hname =>
    exact { htracked with
      cached := hcached
      fingerprint := fun r hr => hi.fingerprint r ((hrow trivial).symm.trans hr)
      snapshot := hi.snapshot
      seen := hi.seen
      size := fun t abort pc st r h hpc hr => hi.size t abort pc st r h hpc ((hrow trivial).symm.trans hr) }
  | @change c b' h =>
    -- an undispatched change of the path is put off; this one is of another
    have ht : v.backing.Touches p c = false := by
      by_contra hc
      exact hs' (.inl (by simp [Bool.not_eq_false _ ▸ hc]))
    have hcur : ∀ {ver}, v.backing.Current p ver → b'.Current p ver := (current_untouched h ht).mpr
    have hs : v.Soon → False := fun hs => hs' (hs.imp_left fun e => by simp [e])
    refine { htracked with
      cached := hcached
      fingerprint := fun r hr => ?_
      snapshot := fun k t abort pc snapshot hk hsnap => ?_
      seen := fun t abort pc st hk hpc => ?_
      size := fun t abort pc st r hk hpc hr => ?_ }
    · rcases hi.fingerprint r hr with hf | hf | hf | hf
      · exact .inl (hcur hf)
      · exact (hs hf).elim
      · exact .inr (.inr (.inl (hf.untouched h ht)))
      · exact .inr (.inr (.inr (hf.untouched hreg h ht)))
    · rcases hi.snapshot k t abort pc snapshot hk hsnap with hf | hf | hf
      · exact .inl (hcur hf)
      · exact (hs hf).elim
      · exact .inr (.inr hf)
    · exact (hi.seen t abort pc st hk hpc).imp hcur fun hf => (hs hf).elim
    · exact (hi.size t abort pc st r hk hpc hr).imp_right fun hf => (hs hf).elim
  | submit k now hrow =>
    refine { htracked with
      cached := hcached
      fingerprint := fun r hr => ?_
      snapshot := fun k' t abort pc snapshot hk hsnap => ?_
      seen := fun t abort pc st hk hpc => hi.seen t abort pc st (PathView.running_submitted.mp hk) hpc
      size := fun t abort pc st r hk hpc hr => hi.size t abort pc st r
        (PathView.running_submitted.mp hk) hpc (hrow.symm.trans hr) }
    · rcases hi.fingerprint r (hrow.symm.trans hr) with hf | hf | hf | hf
      · exact .inl hf
      · exact .inr (.inl hf)
      · exact .inr (.inr (.inl (handles_submitted hf)))
      · exact .inr (.inr (.inr (commits_submitted hf)))
    · exact (hi.snapshot k' t abort pc snapshot (PathView.running_submitted.mp hk) hsnap).imp_right
        (Or.imp_right unbegun_submitted)
  | expire => exact ha.elim
  | @spawn _ k t abort h =>
    have hk : .validate ≠ k := by
      intro hk
      subst hk
      exact hu' (by simp [PathView.put, Phase.unbegun])
    have hval : (v.put k (.running t abort .start)).phase .validate = v.phase .validate :=
      Function.update_of_ne hk _ _
    refine { htracked with
      cached := hcached
      fingerprint := fun r hr => ?_
      snapshot := fun k' t' abort' pc snapshot hk' hsnap => ?_
      seen := fun t abort pc st h => hi.seen t abort pc st (hval.symm.trans h)
      size := fun t abort pc st r h => hi.size t abort pc st r (hval.symm.trans h) }
    · rw [hval]
      refine (hi.fingerprint r hr).imp_right (Or.imp_right (Or.imp_right fun hc => ?_))
      by_cases hr : .replace = k
      · subst hr
        simp only [PathView.put, Function.update_self]
        trivial
      · simpa only [PathView.put, Function.update_of_ne hr] using hc
    · rw [hval]
      refine hi.snapshot k' t' abort' pc snapshot ?_ hsnap
      by_cases hkk : k' = k
      · subst hkk
        simp [PathView.put] at hk'
      · simpa only [PathView.put, Function.update_of_ne hkk] using hk'
  | @work t c k abort pc pc' dir' db' e hphase hm hfile hstep =>
    have hs : ¬ v.Soon := fun h => hs' (by cases e <;> exact h)
    have hdb : (v.worked k t abort dir' db' e pc').db = db' := by cases e <;> rfl
    have hbacking : (v.worked k t abort dir' db' e pc').backing = v.backing := by cases e <;> rfl
    refine { htracked with
      cached := hcached
      fingerprint := fun r hr => ?_
      snapshot := fun k' t' abort' pc snapshot hk hsnap => ?_
      seen := fun t' abort' pc st hk hpc => ?_
      size := fun t' abort' pc st r hk hpc hr => ?_ }
    · rw [hdb] at hr
      rw [hbacking]
      exact (fingerprint_worked hi ha hh hphase hm hs hstep hu' hr).imp_right .inr
    · rw [hbacking]
      exact .inl (snapshot_worked hi ha hh hphase hm hs hu' hk hsnap)
    · rw [hbacking]
      exact .inl (seen_worked hi ha hphase hm hs hk hpc)
    · rw [hdb] at hr
      exact .inl (size_worked hi ha hphase hm hs hu' hk hpc hr)
  | event hw =>
    refine absurd (.inr ?_) hs'
    rw [if_pos hi.cached]
    simp
  | markAbort => exact absurd (.inr (by simp)) hs'
  | dispatch hw => exact .dispatched hi.toTracked htracked hw hh
  | evictFile | evictRow | touch => exact absurd rfl ha
  | hit now =>
    -- a hit leaves the fingerprint of the row
    have hrow : ∀ r', (v.db.markHit p cfg.mount now).row p cfg.mount = some r' →
        ∃ r, v.db.row p cfg.mount = some r ∧ r.fingerprint = r'.fingerprint := by
      intro r' hr
      rw [CacheDb.markHit, CacheDb.row_updateRow, if_pos rfl, Option.map_eq_some_iff] at hr
      obtain ⟨r, hr, rfl⟩ := hr
      exact ⟨r, hr, rfl⟩
    refine { htracked with
      cached := hcached
      fingerprint := fun r' hr' => ?_
      snapshot := hi.snapshot
      seen := hi.seen
      size := fun t abort pc st r' h hpc hr' => ?_ }
    · obtain ⟨r, hr, e⟩ := hrow r' hr'
      rw [← e]
      exact hi.fingerprint r hr
    · obtain ⟨r, hr, e⟩ := hrow r' hr'
      rw [← e]
      exact hi.size t abort pc st r h hpc hr
  | refresh h => rw [hi.calm] at h; exact absurd h (by simp)
  | crash => exact ha.elim

end Steps

end FsCache
