import FsCache.Agreement
import FsCache.Serve

/- The types of the objects the mount serves.

   The cache mirrors the backing with directories and files of its own, and whether a
   path is cached is whether there is anything at it. No validation looks at a type
   either: a directory has no row to be validated, and a Replace of what has become a
   directory fails and leaves the file. So an object of another type, once it is at a
   cached path, stays. `KindFits` says that there is none, and `KeepsKind` is what the
   steps have to meet.

   `kinds_agree`: from any state of a run in which the cache fits the backing at `p`, as
   long as the steps keep it so, an open of a regular file gives a regular file, and a
   directory is reported as a directory. `file_behind_directory` is a run where a
   directory has become a file. -/

namespace FsCache
open Lib

/-- What stat(2) says of a directory. -/
def Stat.IsDir (st : Stat) : Prop := modeToFiletype st.stMode = .directory ∧ st.Dated

instance (st : Stat) : Decidable st.IsDir := inferInstanceAs (Decidable (_ ∧ _))

/-- The cache has nothing of another type for what the backing has at `p`. -/
def KindFits (mount : MountId) (p : RelPath) (dir : CacheDir) (db : CacheDb) :
    Option BNode → Prop
  | some (.file _) => isPartial p = false → dir.isDir p = false
  | some (.dir st) =>
    st.IsDir ∧ (isPartial p = false → dir.fileAt p = none ∧ db.row p mount = none)
  | _ => True

instance (mount : MountId) (p : RelPath) (dir : CacheDir) (db : CacheDb) :
    (n : Option BNode) → Decidable (KindFits mount p dir db n)
  | some (.file _) => inferInstanceAs (Decidable (isPartial p = false → dir.isDir p = false))
  | some (.dir st) => inferInstanceAs (Decidable
      (st.IsDir ∧ (isPartial p = false → dir.fileAt p = none ∧ db.row p mount = none)))
  | some (.symlink _ _) | none => isTrue trivial

/-- Its next step puts the file or the row of its path there. -/
def WorkerPc.commits : WorkerPc → Bool
  | .copy (.rename _ _) | .copy (.ok _) | .verdict (.needsBackfill _) => true
  | _ => false

theorem WorkerPc.commits_of_writes {pc : WorkerPc} (h : pc.writes = true) : pc.commits = true := by
  cases pc with
  | copy cpc => cases cpc <;> first | rfl | exact absurd h (by simp [WorkerPc.writes])
  | verdict r => cases r <;> first | rfl | exact absurd h (by simp [WorkerPc.writes])
  | start | promote | room | statLive | refresh | dropRow | finish =>
    exact absurd h (by simp [WorkerPc.writes])

/-! ## Directories of the cache -/

section Dirs

variable {dir dir' : CacheDir} {p q : RelPath}

theorem isDir_removeFile (h : (removeFile dir p).isDir q = true) : dir.isDir q = true := by
  unfold removeFile at h
  cases hr : dir.remove p with
  | none => rwa [hr] at h
  | some dir' =>
    rw [hr, Option.getD_some, Files.isDir, (Files.remove_spec hr).2.2 q] at h
    split at h
    · exact absurd h (by simp)
    · exact h

theorem isDir_foldl_removeFile (l : List RelPath) (h : (l.foldl removeFile dir).isDir q = true) :
    dir.isDir q = true := by
  induction l generalizing dir with
  | nil => exact h
  | cons p l ih => exact isDir_removeFile (ih h)

theorem isDir_rename (hr : Files.rename dir p q = some dir') {r : RelPath}
    (h : dir'.isDir r = true) : dir.isDir r = true := by
  obtain ⟨i, -, -, -, -, hlookup⟩ := Files.rename_spec hr
  rw [Files.isDir, hlookup] at h
  split at h
  · exact absurd h (by simp)
  · split at h
    · exact absurd h (by simp)
    · exact h

/-- Only the first step of a copy makes directories, those that its path lies in. -/
theorem isDir_workMove {b : Backing} {db db' : CacheDb} {mount : MountId} {abort : Bool}
    {k : CacheJobKind} {t : Nat} {c : WorkChoice} {pc pc' : WorkerPc} {e : JobEffect}
    (hm : WorkMove b dir db mount abort p k t c pc dir' db' e pc') (h : dir'.isDir q = true) :
    dir.isDir q = true ∨ pc = .copy .mkdir ∧ q <+: p.dropLast ∧ dir.fileAt q = none := by
  cases hm with
  | copy hc =>
    cases hc with
    | mkdir hd =>
      rcases Files.isDir_createDirAll hd h with hq | hq
      · exact .inl hq
      · refine .inr ⟨rfl, hq, ?_⟩
        rw [← (Files.onlyDirs_createDirAll hd).fileAt q]
        by_contra hfile
        obtain ⟨i, hi⟩ := Option.ne_none_iff_exists'.mp hfile
        exact absurd (h.symm.trans (Files.isDir_eq_false_of_fileAt hi)) (by simp)
    | openDst ho => exact .inl ((Files.isDir_openTrunc ho q).symm.trans h)
    | rename hr => exact .inl (isDir_rename hr h)
    | removeInner hd | removeOuter hd =>
      rcases hd with rfl | rfl
      · exact .inl h
      · exact .inl (isDir_removeFile h)
    | write | writeFails | mkdirFails | openSrc | openSrcFails | fstat | fstatFails | openDstFails
    | readFails | eof | chunk | syncFails | sync | checkAbort | refuse | accept | applyFails
    | apply | renameFails => exact .inl h
  | dropFile hd =>
    rcases hd with rfl | rfl
    · exact .inl h
    · exact .inl (isDir_removeFile h)
  | skip | begin | readRow | noRow | promote | noRoom | room | mark | copyFailed | statLive
  | fresh | notTracked | backfill | stale | refresh | refreshed | dropRow | finish => exact .inl h

end Dirs

/-! ## Over the runs of the daemon -/

namespace Daemon

variable {cfg : Config} {s s' : Daemon} {a : Action} {p : RelPath}

/-- A copy of a path below `p` makes the directories its path lies in. -/
def makesDir (p : RelPath) (s : Daemon) : Action → Bool
  | .work t _ =>
    match s.copies t with
    | some (q, .mkdir) => p.isPrefixOf q.dropLast
    | _ => false
  | _ => false

/-- A worker of `p` puts its file or its row there. -/
def commitsAt (p : RelPath) (s : Daemon) : Action → Bool
  | .work t _ => (s.view p).turn t WorkerPc.commits
  | _ => false

/-- A startup finds no file of another path that has the key of `p`. -/
def KeyOwned (p : RelPath) (s : Daemon) : Action → Prop
  | .crash _ _ => ∀ q ∈ filesOf s.dir, rowKey q = rowKey p → q = p
  | _ => True

instance (p : RelPath) (s : Daemon) : (a : Action) → Decidable (s.KeyOwned p a)
  | .crash _ _ => inferInstanceAs (Decidable (∀ q ∈ filesOf s.dir, rowKey q = rowKey p → q = p))
  | .change _ | .offer _ | .submit _ _ _ | .expire _ | .pop _ | .acquire | .release | .work _ _
  | .forget _ | .event _ | .dispatch _ | .evictFile _ | .evictRow _ | .hit _ _ | .touch _ _
  | .refresh _ => isTrue trivial

/-- The cache has nothing of another type at `p`. -/
def Matched (mount : MountId) (p : RelPath) (s : Daemon) : Prop :=
  KindFits mount p s.dir s.db (s.backing.node p)

instance (mount : MountId) (p : RelPath) (s : Daemon) : Decidable (s.Matched mount p) :=
  inferInstanceAs (Decidable (KindFits _ _ _ _ _))

/-- What becomes of `p` meets nothing of another type in the cache. -/
def ChangeKeepsKind (mount : MountId) (p : RelPath) (s : Daemon) : BackingChange → Prop
  | .replace q _ => q = p → KindFits mount p s.dir s.db (some (.file s.backing.next))
  | .mkdir q st => q = p → KindFits mount p s.dir s.db (some (.dir st))
  | _ => True

instance (mount : MountId) (p : RelPath) (s : Daemon) :
    (c : BackingChange) → Decidable (s.ChangeKeepsKind mount p c)
  | .replace q _ => inferInstanceAs (Decidable
      (q = p → KindFits mount p s.dir s.db (some (.file s.backing.next))))
  | .mkdir q st => inferInstanceAs (Decidable (q = p → KindFits mount p s.dir s.db (some (.dir st))))
  | .write _ _ | .remove _ | .symlink _ _ _ => isTrue trivial

/-- While the backing has a regular file at `p` no copy makes a directory of it, and while
it has a directory there nothing puts a file or a row at `p`. -/
def StepKeepsKind (p : RelPath) (s : Daemon) (a : Action) : Option BNode → Prop
  | some (.file _) => s.dir.fileAt p = none → s.makesDir p a = false
  | some (.dir _) => s.ClearAt p a ∧ s.KeyOwned p a ∧ s.commitsAt p a = false
  | _ => True

instance (p : RelPath) (s : Daemon) (a : Action) :
    (n : Option BNode) → Decidable (s.StepKeepsKind p a n)
  | some (.file _) => inferInstanceAs (Decidable (s.dir.fileAt p = none → s.makesDir p a = false))
  | some (.dir _) => inferInstanceAs (Decidable (_ ∧ _ ∧ _))
  | some (.symlink _ _) | none => isTrue trivial

/-- What the steps have to meet. -/
def KeepsKind (mount : MountId) (p : RelPath) (s : Daemon) : Action → Prop
  | .change c => s.ChangeKeepsKind mount p c
  | a => isPartial p = false → s.StepKeepsKind p a (s.backing.node p)

instance (mount : MountId) (p : RelPath) (s : Daemon) :
    (a : Action) → Decidable (s.KeepsKind mount p a)
  | .change c => inferInstanceAs (Decidable (s.ChangeKeepsKind mount p c))
  | .offer _ | .submit _ _ _ | .expire _ | .pop _ | .acquire | .release | .work _ _ | .forget _
  | .event _ | .dispatch _ | .evictFile _ | .evictRow _ | .hit _ _ | .touch _ _ | .refresh _
  | .crash _ _ => inferInstanceAs (Decidable (_ → s.StepKeepsKind p _ _))

theorem isDir_step (h : step cfg s a = some s') (hd : s'.dir.isDir p = true) :
    s.dir.isDir p = true ∨ s.makesDir p a = true ∧ s.dir.fileAt p = none := by
  cases move_of_step h with
  | @work t c job dir db e pc hjob hw =>
    refine (isDir_workMove (workMove_of_step hw) hd).imp_right ?_
    intro hmade
    obtain ⟨hpc, hq, hfile⟩ := hmade
    refine ⟨?_, hfile⟩
    have hcopies : s.copies t = some (job.relPath, .mkdir) := by simp only [copies, hjob, hpc]
    simpa [makesDir, hcopies] using hq
  | @evictFile q dir hr =>
    refine .inl (isDir_removeFile (p := q) ?_)
    rwa [removeFile, hr]
  | crash hl => exact .inl (isDir_foldl_removeFile _ hd)
  | change | served | offer | populate | submit | expire | pop | acquire | release | forget | event
  | markAbort | dispatch | evictRow | hit | touch | refresh => exact .inl hd

theorem Matched.change {mount : MountId} {c : BackingChange} {b : Backing} (hm : s.Matched mount p)
    (hok : s.ChangeKeepsKind mount p c) (h : s.backing.change c = some b) :
    KindFits mount p s.dir s.db (b.node p) := by
  -- the node of another path stays
  have other : ∀ {q n}, q ≠ p → Function.update s.backing.node q n p = s.backing.node p :=
    fun hq => Function.update_of_ne (Ne.symm hq) _ _
  cases c with
  | write q f =>
    simp only [Backing.change] at h
    split at h
    · obtain rfl := Option.some.inj h
      exact hm
    · exact absurd h (by simp)
  | replace q f =>
    obtain rfl := Option.some.inj h
    by_cases hq : q = p
    · subst hq
      simpa only [Backing.replaceFile, Function.update_self] using hok rfl
    · simpa only [Matched, Backing.replaceFile, other hq] using hm
  | remove q =>
    obtain rfl := Option.some.inj h
    by_cases hq : q = p
    · subst hq
      simp only [Backing.setNode, Function.update_self]
      trivial
    · simpa only [Matched, Backing.setNode, other hq] using hm
  | mkdir q st =>
    obtain rfl := Option.some.inj h
    by_cases hq : q = p
    · subst hq
      simpa only [Backing.setNode, Function.update_self] using hok rfl
    · simpa only [Matched, Backing.setNode, other hq] using hm
  | symlink q st target =>
    obtain rfl := Option.some.inj h
    by_cases hq : q = p
    · subst hq
      simp only [Backing.setNode, Function.update_self]
      trivial
    · simpa only [Matched, Backing.setNode, other hq] using hm

/-- Where the backing has a directory, nothing comes to `p` in the cache. -/
theorem empty_step (hw : s.Wf) (hp : isPartial p = false) (hfile : s.dir.fileAt p = none)
    (hrow : s.db.row p cfg.mount = none) (hclear : s.ClearAt p a) (hkey : s.KeyOwned p a)
    (hno : s.commitsAt p a = false) (h : step cfg s a = some s') :
    s'.dir.fileAt p = none ∧ s'.db.row p cfg.mount = none := by
  have hm : PathMove cfg p True False (s.view p) a (s'.view p) :=
    pathMove_of_step hw (fun _ => hclear) (fun f => f.elim) h
  have none_of : ∀ {t : Nat} {c : WorkChoice} {k : CacheJobKind} {abort : Bool} {pc : WorkerPc},
      a = .work t c → (s.view p).phase k = .running t abort pc → pc.commits = true → False := by
    rintro t c k abort pc rfl hphase hpc
    have hturn : s.commitsAt p (.work t c) = true := PathView.turn_of_phase hphase hpc
    exact absurd (hturn.symm.trans hno) (by simp)
  constructor
  · cases hm.file hp with
    | same e => exact e.trans hfile
    | evicted ha e => exact e
    | dropped ha hgone h' e => exact e.elim (fun e => e.trans hfile) id
    | committed ha hphase => exact (none_of ha hphase rfl).elim
  · cases hm.row trivial with
    | same e =>
      rw [← Option.not_isSome_iff_eq_none] at hrow ⊢
      exact fun hs => hrow (e.symm.trans hs)
    | written ha hphase hpc => exact (none_of ha hphase (WorkerPc.commits_of_writes hpc)).elim
    | removed ha e => exact e
    | dropped ha hphase e => exact e
    | restarted ha hr =>
      subst ha
      have hdb : (reconcileWithDisk s.dir s.db cfg.mount _).2 = s'.db := congrArg Prod.snd hr
      rw [← hdb]
      exact row_reconcile_eq_none hfile hrow hkey

theorem Matched.step (hw : s.Wf) (hm : s.Matched cfg.mount p) (hok : s.KeepsKind cfg.mount p a)
    (h : step cfg s a = some s') : s'.Matched cfg.mount p := by
  by_cases hc : ∃ c, a = .change c
  · obtain ⟨c, rfl⟩ := hc
    cases move_of_step h with
    | change hb => exact hm.change hok hb
  · have hstep : isPartial p = false → s.StepKeepsKind p a (s.backing.node p) := by
      cases a with
      | change c => exact absurd ⟨c, rfl⟩ hc
      | offer | submit | expire | pop | acquire | release | work | forget | event | dispatch
      | evictFile | evictRow | hit | touch | refresh | crash => exact hok
    have hmove : PathMove cfg p False False (s.view p) a (s'.view p) :=
      pathMove_of_step hw (fun f => f.elim) (fun f => f.elim) h
    have hb : s'.backing = s.backing := hmove.backing.resolve_right fun ⟨c, ha, _⟩ => hc ⟨c, ha⟩
    rw [Matched, hb]
    rw [Matched] at hm
    generalize s.backing.node p = n at hm hstep
    match n with
    | none => trivial
    | some (.symlink _ _) => trivial
    | some (.file _) =>
      intro hp
      rw [Bool.eq_false_iff]
      intro hd
      rcases isDir_step h hd with hold | ⟨hmake, hfile⟩
      · exact absurd (hold.symm.trans (hm hp)) (by simp)
      · exact absurd (hmake.symm.trans (hstep hp hfile)) (by simp)
    | some (.dir st) =>
      refine ⟨hm.1, fun hp => ?_⟩
      obtain ⟨hfile, hrow⟩ := hm.2 hp
      obtain ⟨hclear, hkey, hno⟩ := hstep hp
      exact empty_step hw hp hfile hrow hclear hkey hno h

/-! ## What is served -/

/-- The reply to a lookup or getattr of `p`. -/
def attrOf (mount : MountId) (p : RelPath) (ino : Nat) (s : Daemon) : Reply FileAttr :=
  (attrReply s.dir s.db mount p ino (s.backing.stat p) (s.backing.stat p)).2

/-- The descriptor an open of `p` for reading gets. -/
def readOpen (mount : MountId) (p : RelPath) (now : Nat) (s : Daemon) : Option ReadFd :=
  (tryOpen s.backing s.dir s.db mount false false p now).2.map Prod.fst

/-- A regular file at `p` is opened as one, and a directory at `p` is reported as one. -/
def KindsAgree (mount : MountId) (p : RelPath) (s : Daemon) : Prop :=
  ((∃ i, s.backing.node p = some (.file i)) →
    ∀ now, ∃ fd, s.readOpen mount p now = some fd ∧ fd.isRegular = true) ∧
  ((∃ st, s.backing.node p = some (.dir st)) →
    ∀ ino, ∃ attr, s.attrOf mount p ino = .ok attr ∧ attr.kind = .directory)

theorem isPartial_of_cached {dir : CacheDir} (h : isCached dir p = true) : isPartial p = false := by
  simpa [isPartial] using extension_of_cached h

theorem Matched.kindsAgree {mount : MountId} (hm : s.Matched mount p) : s.KindsAgree mount p := by
  constructor
  · rintro ⟨i, hi⟩ now
    rw [Matched, hi] at hm
    cases hc : isCached s.dir p with
    | false =>
      refine ⟨.backing (.file i), ?_, rfl⟩
      rw [readOpen, tryOpen_of_not_cached hc, Backing.openFile_of_node hi]
      rfl
    | true =>
      have hdir : s.dir.isDir p = false := hm (isPartial_of_cached hc)
      rcases file_or_dir_of_cached hc with ⟨j, hj⟩ | hd
      · refine ⟨.cacheFile j, ?_, rfl⟩
        rw [readOpen, tryOpen_of_file hc hj]
        rfl
      · exact absurd (hd.symm.trans hdir) (by simp)
  · rintro ⟨st, hst⟩ ino
    rw [Matched, hst] at hm
    have hstat : s.backing.stat p = some st := by simp only [Backing.stat, hst]
    obtain ⟨attr, hattr⟩ := Option.isSome_iff_exists.mp (statToAttr_isSome hm.1.2 ino)
    refine ⟨attr, ?_, (of_statToAttr hattr).1.trans hm.1.1⟩
    cases hc : isCached s.dir p with
    | false =>
      rw [attrOf, attrReply_of_not_cached hc, hstat]
      exact ofAttr_eq_ok.mpr hattr
    | true =>
      have hrow : s.db.sourceMetadataRow p mount = none := by
        rw [CacheDb.sourceMetadataRow, (hm.2 (isPartial_of_cached hc)).2]
        rfl
      rw [attrOf, attrReply_of_no_snapshot hc hrow, hstat]
      exact ofAttr_eq_ok.mpr hattr

end Daemon

open Daemon

/-- From any state of a run in which the cache has nothing of another type at `p`: as long
as the steps keep it so, a regular file is opened as one and a directory reported as one. -/
theorem kinds_agree {cfg : Config} {b : Backing} {dir : CacheDir} {db : CacheDb}
    {loaded : List (RelPath × Nat)} {p : RelPath} {as bs : List Action} {s t : Daemon}
    (hrun : run (step cfg) (start cfg b dir db loaded) as = some s) (hm : s.Matched cfg.mount p)
    (hkept : Along (step cfg) (KeepsKind cfg.mount p) s bs) (hbs : run (step cfg) s bs = some t) :
    t.KindsAgree cfg.mount p := by
  have hw : s.Wf := run_invariant Wf (fun _ _ _ hw hs => hw.step hs) hrun (wf_start cfg b dir db loaded)
  have keep : ∀ s a s', s.Wf ∧ s.Matched cfg.mount p → s.KeepsKind cfg.mount p a →
      step cfg s a = some s' → s'.Wf ∧ s'.Matched cfg.mount p :=
    fun s a s' hi hok hs => ⟨hi.1.step hs, hi.2.step hi.1 hok hs⟩
  exact (run_invariant_along _ keep hbs hkept ⟨hw, hm⟩).2.kindsAgree

/-! ## A directory that has become a file -/

section Season

private def season : Name := ⟨[115], Eq.refl true⟩

private def pilot : Name := ⟨[112], Eq.refl true⟩

def dirStat : Stat := ⟨4096, 8, 1, 0, 1, 0, 1, 0, 0o040755, 2, 0, 0, 0, 4096⟩

def seasonStart : Daemon := start oneMount Backing.empty Files.empty ⟨∅, ∅⟩ []

/-- A directory with a file in it, which is populated. -/
def seasonCached : List Action :=
  [.change (.mkdir [season] dirStat),
    .change (.replace [season, pilot] (.pair 80 81 1))] ++
    requested [season, pilot] ++ turns 1 19 ++ [.forget [season, pilot], .release]

/-- The file is removed, and the watcher has it validated. -/
def pilotGone : List Action :=
  [.change (.remove [season, pilot]), .event [season, pilot], .dispatch 9, .dispatch 9, .pop false] ++
    turns 2 5

/-- A file takes the place of the directory, and the watcher has it validated. -/
def seasonFile : List Action :=
  [.change (.remove [season]), .change (.replace [season] (.of [90] 2 (by decide))),
    .event [season], .dispatch 9, .dispatch 9, .pop false] ++ turns 3 3

theorem file_behind_directory : ∃ s,
    run (step oneMount) seasonStart (seasonCached ++ pilotGone ++ seasonFile) = some s ∧
    (∀ k, (s.view [season]).phase k = .absent) ∧ s.pending [season] = false ∧
    s.jobs.queue = [] ∧ s.jobs.running = [] ∧ s.backing.node [season] = some (.file 1) ∧
    s.readOpen oneMount.mount [season] 9 = some .cacheDir ∧
    ¬ s.KindsAgree oneMount.mount [season] := by
  have hrun : ((run (step oneMount) seasonStart (seasonCached ++ pilotGone ++ seasonFile)).any fun s =>
      decide (∀ k ∈ CacheJobKind.all, (s.view [season]).phase k = .absent) &&
        (!s.pending [season]) && decide (s.jobs.queue = []) && decide (s.jobs.running = []) &&
          decide (s.backing.node [season] = some (.file 1)) &&
            decide (s.readOpen oneMount.mount [season] 9 = some .cacheDir)) = true := by
    decide +kernel
  obtain ⟨s, h, hs⟩ := (Option.any_eq_true _ _).mp hrun
  simp only [Bool.and_eq_true, decide_eq_true_eq, Bool.not_eq_true'] at hs
  obtain ⟨⟨⟨⟨⟨hphase, hpending⟩, hqueue⟩, hrunning⟩, hnode⟩, hopen⟩ := hs
  refine ⟨s, h, fun k => hphase k k.mem_all, hpending, hqueue, hrunning, hnode, hopen, fun hk => ?_⟩
  obtain ⟨fd, hfd, hregular⟩ := hk.1 ⟨1, hnode⟩ 9
  rw [hopen, Option.some.injEq] at hfd
  subst hfd
  exact absurd hregular (by decide)

theorem directory_stays : ∃ s t,
    run (step oneMount) seasonStart seasonCached = some s ∧
    run (step oneMount) s pilotGone = some t ∧ t.dir.isDir [season] = true ∧
    t.KindsAgree oneMount.mount [season] := by
  have hrun : ((run (step oneMount) seasonStart seasonCached).any fun s =>
      decide (s.Matched oneMount.mount [season]) &&
        decide (Along (step oneMount) (KeepsKind oneMount.mount [season]) s pilotGone) &&
          (run (step oneMount) s pilotGone).any fun t => t.dir.isDir [season]) = true := by
    decide +kernel
  obtain ⟨s, h, hs⟩ := (Option.any_eq_true _ _).mp hrun
  simp only [Bool.and_eq_true, decide_eq_true_eq] at hs
  obtain ⟨⟨hmatched, hkept⟩, hend⟩ := hs
  obtain ⟨t, ht, hdir⟩ := (Option.any_eq_true _ _).mp hend
  exact ⟨s, t, h, ht, hdir, kinds_agree h hmatched hkept ht⟩

end Season

end FsCache
