import FsCache.Complete

/- Killing the daemon at any point, and starting it again.

   In `Daemon.step` a crash is one step with the whole startup in it. Here the startup
   goes step by step: a removal of one temporary file, one query, one deletion or
   insertion of a row, and the daemon may be killed between any two of them, as it may
   between any two steps of its service. `boot_run` says that a startup which nothing
   interrupts is the one step of `Daemon.step`.

   `crash_complete`: whatever is killed and when, every cached file has the bytes of one
   version of its path; and when a startup is through, no temporary file is left, and
   every file that is accounted for has a row.

   Correspondence (Rust ↔ Lean):
     `remove_partials`, `reconcile_with_disk` ↔ `BootPc`, `bootStep`
     the daemon's process                     ↔ `Life`, `lifeStep` -/

namespace FsCache
open Lib

/-- What a startup does next, and to which files or rows. -/
inductive BootPc where
  | removePartials (todo : List RelPath)
  | removeOrphans (todo : List (RowKey × MountId))
  | insertRecovered (now : Nat) (todo : List RelPath)

/-- One call or statement of `reconcile_with_disk`; `none`: it has returned. -/
def bootStep (dir : CacheDir) (db : CacheDb) (mount : MountId) (now : Nat) :
    BootPc → CacheDir × CacheDb × Option BootPc
  | .removePartials [] =>
    (dir, db, some (.removeOrphans (db.cacheFiles.keys.filter fun k => k.2 = mount)))
  | .removePartials (p :: todo) => (removeFile dir p, db, some (.removePartials todo))
  | .removeOrphans [] => (dir, db, some (.insertRecovered now (collectCacheFiles dir)))
  | .removeOrphans (k :: todo) =>
    if (dir.lookup (pathOfKey k.1)).isNone then
      (dir, { db with cacheFiles := db.cacheFiles.erase k }, some (.removeOrphans todo))
    else (dir, db, some (.removeOrphans todo))
  | .insertRecovered _ [] => (dir, db, none)
  | .insertRecovered now (p :: todo) =>
    (dir, insertRecovered dir mount now db p, some (.insertRecovered now todo))

/-- A daemon, and where its startup is as long as it is not serving. -/
structure Life where
  daemon : Daemon
  boot : Option BootPc

inductive LifeAction where
  /-- a step of the service, or a change of the backing at any time -/
  | serve (a : Action)
  | kill
  /-- a step of the startup, at this time; the last one loads these deferred jobs -/
  | boot (now : Nat) (loaded : List (RelPath × Nat))

/-- The same mount, with nothing but these deferred jobs in memory. -/
def Daemon.restarted (cfg : Config) (s : Daemon) (dir : CacheDir) (db : CacheDb)
    (loaded : List (RelPath × Nat)) : Daemon :=
  { s with
    dir := dir
    db := db
    jobs := Jobs.rehydrate loaded cfg.maxConcurrentCopies s.jobs.nextTask
    submitting := []
    forgetting := []
    evicting := []
    refreshing := fun _ => none
    pending := fun _ => false
    watcher := none }

/-- What happens also while the daemon is not serving. -/
def Action.external : Action → Bool
  | .change _ => true
  | _ => false

def lifeStep (cfg : Config) (s : Life) : LifeAction → Option Life
  | .serve (.crash _ _) => none
  | .serve a =>
    if s.boot.isNone || a.external then
      (Daemon.step cfg s.daemon a).map fun daemon => { s with daemon := daemon }
    else none
  | .kill =>
    some ⟨s.daemon.restarted cfg s.daemon.dir s.daemon.db [],
      some (.removePartials ((filesOf s.daemon.dir).filter isPartial))⟩
  | .boot now loaded =>
    match s.boot with
    | none => none
    | some pc =>
      match bootStep s.daemon.dir s.daemon.db cfg.mount now pc with
      | (dir, db, some pc) => some ⟨{ s.daemon with dir := dir, db := db }, some pc⟩
      | (dir, db, none) =>
        if loaded.isPerm (db.loadDeferred cfg.deferredTtlMinutes now) then
          some ⟨s.daemon.restarted cfg dir db loaded, none⟩
        else none

/-- No temporary file is left, and every file that is accounted for has a row. -/
def Cleaned (mount : MountId) (s : Daemon) : Prop :=
  (∀ p, isPartial p = true → s.dir.fileAt p = none) ∧
    ∀ p, s.dir.fileAt p ≠ none → isNonMediaFile p = false → (s.db.row p mount).isSome

/-! ## What a startup has done so far -/

def Swept (mount : MountId) (dir : CacheDir) (db : CacheDb) : BootPc → Prop
  | .removePartials todo => ∀ p, isPartial p = true → dir.fileAt p ≠ none → p ∈ todo
  | .removeOrphans _ => ∀ p, isPartial p = true → dir.fileAt p = none
  | .insertRecovered _ todo => (∀ p, isPartial p = true → dir.fileAt p = none) ∧
      ∀ p, dir.fileAt p ≠ none → isNonMediaFile p = false → (db.row p mount).isSome ∨ p ∈ todo

theorem swept_start (mount : MountId) (dir : CacheDir) (db : CacheDb) :
    Swept mount dir db (.removePartials ((filesOf dir).filter isPartial)) := fun _ hp hf =>
  List.mem_filter.mpr ⟨mem_filesOf.mpr (Option.ne_none_iff_exists'.mp hf), hp⟩

section Boot

variable {mount : MountId} {dir dir' : CacheDir} {db db' : CacheDb} {now : Nat} {pc : BootPc}

/-- A recovered file has its row, and no row is lost. -/
theorem row_inserted (p : RelPath) : ((insertRecovered dir mount now db p).row p mount).isSome ∧
    ∀ q, (db.row q mount).isSome → ((insertRecovered dir mount now db p).row q mount).isSome := by
  constructor
  · unfold insertRecovered
    cases hrow : db.row p mount with
    | some r => exact Option.isSome_iff_exists.mpr ⟨r, hrow⟩
    | none => simp [CacheDb.row]
  · intro q hq
    rcases row_insertRecovered dir mount now db p q with h | ⟨size, -, -, h⟩
    · rwa [h]
    · rw [h]
      rfl

theorem Swept.step (hi : Swept mount dir db pc) {next : Option BootPc}
    (h : bootStep dir db mount now pc = (dir', db', next)) :
    (∀ p bs, dir'.bytesAt p = some bs → dir.bytesAt p = some bs) ∧
      match next with
      | some pc' => Swept mount dir' db' pc'
      | none => (∀ p, isPartial p = true → dir'.fileAt p = none) ∧
          ∀ p, dir'.fileAt p ≠ none → isNonMediaFile p = false → (db'.row p mount).isSome := by
  cases pc with
  | removePartials todo =>
    cases todo with
    | nil =>
      obtain ⟨rfl, rfl, rfl⟩ : dir = dir' ∧ db = db' ∧ _ := by simpa [bootStep] using h
      refine ⟨fun _ _ => id, fun p hp => ?_⟩
      by_contra hf
      exact absurd (hi p hp hf) (by simp)
    | cons q todo =>
      obtain ⟨rfl, rfl, rfl⟩ : removeFile dir q = dir' ∧ db = db' ∧ _ := by
        simpa [bootStep] using h
      refine ⟨fun p bs hbs => ?_, fun p hp hf => ?_⟩
      · simp only [CacheDir.bytesAt, Files.contents, fileAt_removeFile, data_removeFile] at hbs ⊢
        split at hbs
        · exact absurd hbs (by simp)
        · exact hbs
      · rw [fileAt_removeFile] at hf
        split at hf
        · exact absurd rfl hf
        · next hne => exact (List.mem_cons.mp (hi p hp hf)).resolve_left hne
  | removeOrphans todo =>
    cases todo with
    | nil =>
      obtain ⟨rfl, rfl, rfl⟩ : dir = dir' ∧ db = db' ∧ _ := by simpa [bootStep] using h
      refine ⟨fun _ _ => id, hi, fun p hf hmedia => .inr ?_⟩
      exact List.mem_filter.mpr
        ⟨mem_filesOf.mpr (Option.ne_none_iff_exists'.mp hf), by simp [hmedia]⟩
    | cons k todo =>
      simp only [bootStep] at h
      split at h <;> obtain ⟨rfl, -, rfl⟩ : dir = dir' ∧ _ ∧ _ := by simpa using h
      · exact ⟨fun _ _ => id, hi⟩
      · exact ⟨fun _ _ => id, hi⟩
  | insertRecovered now₀ todo =>
    cases todo with
    | nil =>
      obtain ⟨rfl, rfl, rfl⟩ : dir = dir' ∧ db = db' ∧ _ := by simpa [bootStep] using h
      refine ⟨fun _ _ => id, hi.1, fun p hf hmedia => ?_⟩
      exact (hi.2 p hf hmedia).resolve_right (by simp)
    | cons q todo =>
      obtain ⟨rfl, rfl, rfl⟩ : dir = dir' ∧ insertRecovered dir mount now₀ db q = db' ∧ _ := by
        simpa [bootStep] using h
      obtain ⟨hnew, hold⟩ : ((insertRecovered dir mount now₀ db q).row q mount).isSome ∧
          ∀ p, (db.row p mount).isSome → ((insertRecovered dir mount now₀ db q).row p mount).isSome :=
        row_inserted q
      refine ⟨fun _ _ => id, hi.1, fun p hf hmedia => ?_⟩
      rcases hi.2 p hf hmedia with hrow | hm
      · exact .inl (hold p hrow)
      · rcases List.mem_cons.mp hm with rfl | hm
        · exact .inl hnew
        · exact .inr hm

end Boot

/-! ## The whole life of a daemon -/

namespace Daemon

variable {cfg : Config} {s s' : Daemon} {H : RelPath → BFile → Prop}

/-- A daemon with nothing at work, over files that were there before. -/
theorem Intact.idle (hi : s.Intact H) (hw : s'.Wf)
    (hidle : ∀ p k, s'.phase p k = .absent ∨ s'.phase p k = .waiting)
    (hb : s'.backing = s.backing)
    (hdir : ∀ p bs, s'.dir.bytesAt p = some bs → s.dir.bytesAt p = some bs) : s'.Intact H where
  toTidy := tidy_idle hw hidle
  plain := hb ▸ hi.plain
  unopened t p pc h := by
    rw [copies_idle hw hidle] at h
    exact absurd h (by simp)
  sealed := sealed_idle hw hidle
  complete p hp := by
    refine ⟨fun bs h => (hi.complete p hp).bytes bs (hdir p bs h), fun k t abort pc h => ?_⟩
    have h : s'.phase p k = .running t abort (.copy pc) := h
    rcases hidle p k with e | e <;> exact absurd (h.symm.trans e) (by simp)

theorem wf_rehydrated {loaded : List (RelPath × Nat)} {permits nextTask : Nat}
    (hs : s.jobs = Jobs.rehydrate loaded permits nextTask) : s.Wf :=
  ⟨hs ▸ Jobs.partition_rehydrate _ _ _, hs ▸ Jobs.handles_rehydrate _ _ _⟩

end Daemon

namespace Life

open Daemon

variable {cfg : Config} {s s' : Life} {a : LifeAction} {H : RelPath → BFile → Prop}

/-- What the steps of a life have to meet. -/
def Undisturbed (s : Life) : LifeAction → Prop
  | .serve a => s.daemon.Undisturbed a
  | _ => True

instance (s : Life) : (a : LifeAction) → Decidable (s.Undisturbed a)
  | .serve a => inferInstanceAs (Decidable (s.daemon.Undisturbed a))
  | .kill | .boot _ _ => isTrue trivial

structure Good (cfg : Config) (H : RelPath → BFile → Prop) (s : Life) : Prop where
  intact : s.daemon.Intact H
  /-- while it starts up, nothing is at work -/
  idle : s.boot ≠ none → ∃ n, s.daemon.jobs = Jobs.rehydrate [] cfg.maxConcurrentCopies n
  swept : ∀ pc, s.boot = some pc → Swept cfg.mount s.daemon.dir s.daemon.db pc

theorem Good.serve {a : Action} (hi : s.Good cfg H)
    (hserved : ∀ p f, s.daemon.backing.served p = some f → H p f) (hok : s.daemon.Undisturbed a)
    (h : lifeStep cfg s (.serve a) = some s') : s'.Good cfg H := by
  have hstep : ∃ daemon, Daemon.step cfg s.daemon a = some daemon ∧ s' = { s with daemon := daemon } ∧
      (s.boot = none ∨ a.external = true) := by
    unfold lifeStep at h
    split at h
    · exact absurd h (by simp)
    · next heq =>
      obtain rfl := LifeAction.serve.inj heq
      split at h
      · next hcond =>
        obtain ⟨daemon, hd, rfl⟩ := Option.map_eq_some_iff.mp h
        exact ⟨daemon, hd, rfl, by simpa using hcond⟩
      · exact absurd h (by simp)
    · next heq => exact absurd heq (by simp)
    · next heq => exact absurd heq (by simp)
  obtain ⟨daemon, hd, rfl, hserving⟩ := hstep
  refine ⟨hi.intact.step hserved hok hd, ?_, ?_⟩
  all_goals
    rcases hserving with hboot | hext
    · simp [hboot]
  -- while it starts up, only the backing changes
  · intro hboot
    obtain ⟨n, hn⟩ := hi.idle hboot
    cases a with
    | change c =>
      cases Daemon.move_of_step hd with
      | change hb => exact ⟨n, hn⟩
    | _ => exact absurd hext (by simp [Action.external])
  · intro pc hboot
    cases a with
    | change c =>
      cases Daemon.move_of_step hd with
      | change hb => exact hi.swept pc hboot
    | _ => exact absurd hext (by simp [Action.external])

theorem Good.kill (hi : s.Good cfg H) (h : lifeStep cfg s .kill = some s') : s'.Good cfg H := by
  obtain rfl := Option.some.inj h
  refine ⟨?_, fun _ => ⟨_, rfl⟩, ?_⟩
  · exact hi.intact.idle (wf_rehydrated rfl) (phase_rehydrated rfl) rfl fun _ _ => id
  · rintro pc hpc
    obtain rfl := Option.some.inj hpc
    exact swept_start cfg.mount s.daemon.dir s.daemon.db

/-- A step of the startup; the last one leaves the cache clean. -/
theorem Good.boot {now : Nat} {loaded : List (RelPath × Nat)} (hi : s.Good cfg H)
    (h : lifeStep cfg s (.boot now loaded) = some s') :
    s'.Good cfg H ∧ (s'.boot = none → Cleaned cfg.mount s'.daemon) := by
  simp only [lifeStep] at h
  split at h
  · exact absurd h (by simp)
  · next pc hboot =>
    obtain ⟨n, hn⟩ := hi.idle (by simp [hboot])
    split at h
    · next dir db pc' hs =>
      obtain rfl := Option.some.inj h
      obtain ⟨hbytes, hswept⟩ := (hi.swept pc hboot).step hs
      refine ⟨⟨?_, fun _ => ⟨n, hn⟩, ?_⟩, by simp⟩
      · exact hi.intact.idle (wf_rehydrated hn) (phase_rehydrated hn) rfl hbytes
      · rintro pc'' hpc
        obtain rfl := Option.some.inj hpc
        exact hswept
    · next dir db hs =>
      split at h
      · obtain rfl := Option.some.inj h
        obtain ⟨hbytes, hclean⟩ := (hi.swept pc hboot).step hs
        refine ⟨⟨?_, by simp, by simp⟩, fun _ => hclean⟩
        exact hi.intact.idle (wf_rehydrated rfl) (phase_rehydrated rfl) rfl hbytes
      · exact absurd h (by simp)

theorem Good.step (hi : s.Good cfg H)
    (hserved : ∀ p f, s.daemon.backing.served p = some f → H p f) (hok : s.Undisturbed a)
    (h : lifeStep cfg s a = some s') : s'.Good cfg H := by
  cases a with
  | serve a => exact hi.serve hserved hok h
  | kill => exact hi.kill h
  | boot now loaded => exact (hi.boot h).1

end Life

/-! ## A startup that nothing interrupts -/

section Uninterrupted

variable {cfg : Config} {now : Nat} {loaded : List (RelPath × Nat)}

theorem boot_removePartials (todo : List RelPath) (s : Daemon) :
    run (lifeStep cfg) ⟨s, some (.removePartials todo)⟩
        (List.replicate (todo.length + 1) (.boot now loaded)) =
      some ⟨{ s with dir := todo.foldl removeFile s.dir },
        some (.removeOrphans (s.db.cacheFiles.keys.filter fun k => k.2 = cfg.mount))⟩ := by
  induction todo generalizing s with
  | nil => rfl
  | cons p todo ih => exact run_cons.mpr ⟨_, rfl, ih { s with dir := removeFile s.dir p }⟩

/-- A deletion that is skipped is a key that `removeOrphans` filters out. -/
theorem removeOrphans_eq (dir : CacheDir) (db : CacheDb) (mount : MountId) :
    removeOrphans dir db mount = { db with
      cacheFiles := (db.cacheFiles.keys.filter fun k => k.2 = mount).foldl
        (fun m k => if (dir.lookup (pathOfKey k.1)).isNone then m.erase k else m) db.cacheFiles } := by
  have hstep : ∀ (m : Map (RowKey × MountId) Row) k,
      (if k.2 = mount ∧ (dir.lookup (pathOfKey k.1)).isNone then m.erase k else m) =
        if k.2 = mount then
          if (dir.lookup (pathOfKey k.1)).isNone then m.erase k else m
        else m := by
    intro m k
    by_cases hk : k.2 = mount <;> simp [hk]
  simp only [removeOrphans, List.foldl_filter, decide_eq_true_eq, hstep]

theorem boot_removeOrphans (todo : List (RowKey × MountId)) (s : Daemon) :
    run (lifeStep cfg) ⟨s, some (.removeOrphans todo)⟩
        (List.replicate (todo.length + 1) (.boot now loaded)) =
      some ⟨{ s with
          db.cacheFiles := todo.foldl
            (fun m k => if (s.dir.lookup (pathOfKey k.1)).isNone then m.erase k else m)
            s.db.cacheFiles },
        some (.insertRecovered now (collectCacheFiles s.dir))⟩ := by
  induction todo generalizing s with
  | nil => rfl
  | cons k todo ih =>
    by_cases hk : (s.dir.lookup (pathOfKey k.1)).isNone = true
    · refine run_cons.mpr ⟨⟨{ s with db.cacheFiles := s.db.cacheFiles.erase k },
        some (.removeOrphans todo)⟩, ?_, (ih _).trans ?_⟩
      · simp only [lifeStep, bootStep, if_pos hk]
      · simp only [List.foldl_cons, if_pos hk]
    · refine run_cons.mpr ⟨⟨s, some (.removeOrphans todo)⟩, ?_, (ih _).trans ?_⟩
      · simp only [lifeStep, bootStep, if_neg hk]
      · simp only [List.foldl_cons, if_neg hk]

theorem boot_insertRecovered (todo : List RelPath) (s : Daemon)
    (hloaded : loaded.isPerm ((todo.foldl (insertRecovered s.dir cfg.mount now) s.db).loadDeferred
      cfg.deferredTtlMinutes now) = true) :
    run (lifeStep cfg) ⟨s, some (.insertRecovered now todo)⟩
        (List.replicate (todo.length + 1) (.boot now loaded)) =
      some ⟨s.restarted cfg s.dir (todo.foldl (insertRecovered s.dir cfg.mount now) s.db) loaded,
        none⟩ := by
  induction todo generalizing s with
  | nil =>
    exact run_cons.mpr ⟨_, if_pos hloaded, rfl⟩
  | cons p todo ih =>
    exact run_cons.mpr ⟨_, rfl, ih { s with db := insertRecovered s.dir cfg.mount now s.db p } hloaded⟩

/-- The startup of `Daemon.step` is that one. -/
theorem boot_run {s s' : Daemon} (h : Daemon.step cfg s (.crash now loaded) = some s') :
    ∃ n, run (lifeStep cfg) ⟨s, none⟩ (.kill :: List.replicate n (.boot now loaded)) =
      some ⟨s', none⟩ := by
  cases Daemon.move_of_step h with
  | crash hloaded =>
    let partials := (filesOf s.dir).filter isPartial
    let s₁ : Daemon := { s.restarted cfg s.dir s.db [] with dir := removePartials s.dir }
    let keys := s.db.cacheFiles.keys.filter fun k => k.2 = cfg.mount
    let s₂ : Daemon := { s₁ with db := removeOrphans s₁.dir s.db cfg.mount }
    have hpartials : run (lifeStep cfg) ⟨s.restarted cfg s.dir s.db [], some (.removePartials partials)⟩
        (List.replicate (partials.length + 1) (.boot now loaded)) =
          some ⟨s₁, some (.removeOrphans keys)⟩ := boot_removePartials partials _
    have horphans : run (lifeStep cfg) ⟨s₁, some (.removeOrphans keys)⟩
        (List.replicate (keys.length + 1) (.boot now loaded)) =
          some ⟨s₂, some (.insertRecovered now (collectCacheFiles s₁.dir))⟩ := by
      simp only [s₂, removeOrphans_eq]
      exact boot_removeOrphans keys s₁
    have hrecovered := boot_insertRecovered (collectCacheFiles s₂.dir) s₂ hloaded
    refine ⟨(partials.length + 1) + (keys.length + 1) + ((collectCacheFiles s₂.dir).length + 1), ?_⟩
    rw [List.replicate_add, List.replicate_add]
    refine run_cons.mpr ⟨⟨s.restarted cfg s.dir s.db [], some (.removePartials partials)⟩, rfl, ?_⟩
    exact run_append.mpr ⟨_, run_append.mpr ⟨_, hpartials, horphans⟩, hrecovered⟩

end Uninterrupted

open Daemon

/-- In every run of copies, evictions and validations that are undisturbed, killed at any
point any number of times: every cached file has all the bytes of a version its path
has led to, and a startup that is through leaves the cache clean. -/
theorem crash_complete {cfg : Config} {b : Backing} {dir : CacheDir} {db : CacheDb}
    {loaded : List (RelPath × Nat)} {as : List LifeAction} {s : Life} (hplain : b.Plain)
    (hdir : ∀ p, isCached dir p = true → ∀ bs, dir.bytesAt p = some bs →
      ∃ f ∈ b.past p, bs = f.bytes)
    (hrun : run (lifeStep cfg) ⟨start cfg b dir db loaded, none⟩ as = some s)
    (hok : Along (lifeStep cfg) Life.Undisturbed ⟨start cfg b dir db loaded, none⟩ as) :
    (∀ p, isCached s.daemon.dir p = true → ∀ bs, s.daemon.dir.bytesAt p = some bs →
      ∃ f, bs = f.bytes ∧ (f ∈ b.past p ∨ ∃ bs s, bs <+: as ∧
        run (lifeStep cfg) ⟨start cfg b dir db loaded, none⟩ bs = some s ∧
          s.daemon.backing.served p = some f)) ∧
      ∀ now loaded' s', lifeStep cfg s (.boot now loaded') = some s' → s'.boot = none →
        Cleaned cfg.mount s'.daemon := by
  let s₀ : Life := ⟨start cfg b dir db loaded, none⟩
  let H : RelPath → BFile → Prop := fun p f => f ∈ b.past p ∨ ∃ bs s, bs <+: as ∧
    run (lifeStep cfg) s₀ bs = some s ∧ s.daemon.backing.served p = some f
  have hidle := phase_start cfg b dir db loaded
  have hw := wf_start cfg b dir db loaded
  have hstart : s₀.Good cfg H := by
    refine ⟨⟨tidy_start cfg b dir db loaded, hplain, fun t p pc h => ?_, sealed_idle hw hidle,
      fun p hp => ⟨fun bs hbs => ?_, fun k t abort pc h => ?_⟩⟩, fun h => absurd rfl h, by simp [s₀]⟩
    · rw [copies_idle hw hidle] at h
      exact absurd h (by simp)
    · obtain ⟨xs, hxs, -⟩ := Option.map_eq_some_iff.mp hbs
      obtain ⟨i, hi, -⟩ := Option.map_eq_some_iff.mp hxs
      obtain ⟨f, hf, e⟩ := hdir p (isCached_of_fileAt hi hp) bs hbs
      exact ⟨f, .inl hf, e⟩
    · have h : (start cfg b dir db loaded).phase p k = .running t abort (.copy pc) := h
      rcases hidle p k with e | e <;> exact absurd (h.symm.trans e) (by simp)
  have hreached : Along (lifeStep cfg)
      (fun u _ => ∃ bs, bs <+: as ∧ run (lifeStep cfg) s₀ bs = some u) s₀ as :=
    along_reached (run_nil s₀)
  have hgood : s.Good cfg H := by
    refine run_invariant_along (Life.Good cfg H) ?_ hrun (hok.and hreached) hstart
    rintro u a u' hi ⟨ha, bs, hbs, hu⟩ hs
    exact hi.step (fun p f hf => .inr ⟨bs, u, hbs, hu, hf⟩) ha hs
  refine ⟨fun p hp bs hbs => ?_, fun now loaded' s' hs hboot => (hgood.boot hs).2 hboot⟩
  obtain ⟨f, hf, e⟩ := (hgood.intact.complete p (extension_of_cached hp)).bytes bs hbs
  exact ⟨f, e, hf⟩

/-! ## A population and a startup that are cut off -/

section Cut

private def play : Name := ⟨[112], Eq.refl true⟩

private def quit : Name := ⟨[113], Eq.refl true⟩

private def serve (l : List Action) : List LifeAction := l.map .serve

def twoFiles : Backing :=
  (Backing.empty.replaceFile [play] (.pair 80 81 1)).replaceFile [quit]
    (.pair 82 83 1)

theorem plain_twoFiles : twoFiles.Plain := by
  intro p hp
  simp only [twoFiles, Backing.replaceFile, Backing.empty, Function.update_apply] at hp
  split at hp
  · next h => exact h ▸ by decide
  · split at hp
    · next h => exact h ▸ by decide
    · exact absurd rfl hp

def soloMount : Config := ⟨[109], 60, 1⟩

def cutStart : Life := ⟨start soloMount twoFiles Files.empty ⟨∅, ∅⟩ [], none⟩

/-- One file is cached, and the copy of another has written one byte. -/
def halfCopied : List LifeAction :=
  serve (requested [play] ++ turns 1 19 ++ [.forget [play], .release] ++ requested [quit] ++
    turns 2 9)

/-- The daemon dies, its startup is killed after one step, and the next one is about to
return. -/
def cutOff : List LifeAction :=
  [.kill, .boot 9 [], .kill] ++ List.replicate 4 (.boot 9 [])

theorem complete_after_cut : ∃ s s',
    run (lifeStep soloMount) cutStart (halfCopied ++ cutOff) = some s ∧
    lifeStep soloMount s (.boot 9 [([quit], 9)]) = some s' ∧
    (s'.daemon.dir.fileAt [play]).isSome ∧
    (∀ p, isCached s.daemon.dir p = true → ∀ bs, s.daemon.dir.bytesAt p = some bs →
      ∃ f, bs = f.bytes ∧ (f ∈ twoFiles.past p ∨ ∃ bs s, bs <+: halfCopied ++ cutOff ∧
        run (lifeStep soloMount) cutStart bs = some s ∧ s.daemon.backing.served p = some f)) ∧
    Cleaned soloMount.mount s'.daemon := by
  have hrun : ((run (lifeStep soloMount) cutStart (halfCopied ++ cutOff)).any fun s =>
      (lifeStep soloMount s (.boot 9 [([quit], 9)])).any fun s' =>
        s'.boot.isNone && (s'.daemon.dir.fileAt [play]).isSome) = true := by decide +kernel
  obtain ⟨s, h, hs⟩ := (Option.any_eq_true _ _).mp hrun
  obtain ⟨s', h', hs'⟩ := (Option.any_eq_true _ _).mp hs
  rw [Bool.and_eq_true, Option.isNone_iff_eq_none] at hs'
  have hempty : ∀ p, isCached (Files.empty : CacheDir) p = true → ∀ bs,
      CacheDir.bytesAt Files.empty p = some bs → ∃ f ∈ twoFiles.past p, bs = f.bytes := by
    intro p _ bs hbs
    obtain ⟨xs, hxs, -⟩ := Option.map_eq_some_iff.mp hbs
    obtain ⟨i, hi, -⟩ := Option.map_eq_some_iff.mp hxs
    have := (Files.node_of_fileAt hi).2
    exact absurd this (by simp [Files.empty])
  obtain ⟨hbytes, hclean⟩ := crash_complete plain_twoFiles hempty h (by decide +kernel)
  exact ⟨s, s', h, h', hs'.2, hbytes, hclean _ _ s' h' hs'.1⟩

end Cut

end FsCache
