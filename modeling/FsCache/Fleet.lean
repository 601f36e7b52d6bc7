import FsCache.Deferred

/- Several mounts over one database.

   The rows of `cache_files` carry the mount, the rows of `deferred_events` do not: a
   submission on any mount writes the row of its path, a completion on any mount removes
   it, and the startup of any mount loads them all. A `Fleet` is the mounts, and the one
   database each of them steps on. A stopped mount is one that takes no step until its
   `crash`, which is its stop and its restart.

   `fleet_isolated`: in every run in which no mount touches a row that a job is pending
   under, and none restarts over an unexpired row that is not of its own jobs, a restart
   brings back exactly the unexpired Populate jobs of its mount, and no step changes the
   row of another mount's job. `adopted` is a restart that takes another mount's job. -/

namespace FsCache
open Lib

namespace Jobs

/-- The Populate jobs that are queued, held or running. -/
def pending (j : Jobs) : List CacheJob := j.live.filter fun job => job.kind = .populate

theorem mem_pending {j : Jobs} {job : CacheJob} :
    job ∈ j.pending ↔ job ∈ j.live ∧ job.kind = .populate := by
  rw [pending, List.mem_filter, decide_eq_true_iff]

theorem live_rehydrate (loaded : List (RelPath × Nat)) (permits nextTask : Nat) :
    (rehydrate loaded permits nextTask).live = (rehydrate loaded permits nextTask).queue := by
  have hidle : (rehydrate loaded permits nextTask).held = none ∧
      (rehydrate loaded permits nextTask).running = [] := by
    refine List.foldlRecOn (motive := fun j : Jobs => j.held = none ∧ j.running = []) loaded _
      (And.intro rfl rfl) fun j hj r _ => ?_
    exact ⟨(held_submitJob j r.1 .populate r.2).trans hj.1, (running_submitJob j r.1 .populate r.2).trans hj.2⟩
  simp only [live, hidle.1, hidle.2, Option.toList_none, List.map_nil, List.append_nil]

theorem isSome_known_submitJob {j : Jobs} {p : RelPath} {k : CacheJobKind} {now : Nat} {key : JobKey}
    (h : (j.known.lookup key).isSome = true ∨ key = (p, k)) :
    ((j.submitJob p k now).known.lookup key).isSome = true := by
  unfold submitJob
  split
  · next hk => exact h.elim id fun e => e ▸ hk
  · rw [Map.lookup_insert_if]
    split
    · rfl
    · next hne => exact h.resolve_right hne

/-- The initial queue has a Populate job of every loaded path, and no other. -/
theorem mem_queue_rehydrate {loaded : List (RelPath × Nat)} {permits nextTask : Nat} {key : JobKey} :
    key ∈ (rehydrate loaded permits nextTask).queue.map CacheJob.key ↔
      ∃ r ∈ loaded, (r.1, .populate) = key := by
  rw [← live_rehydrate, List.mem_map]
  constructor
  · rintro ⟨job, hj, rfl⟩
    obtain ⟨hk, hm⟩ := live_of_rehydrate hj
    exact ⟨_, hm, by rw [CacheJob.key, hk]⟩
  · rintro ⟨r, hr, rfl⟩
    have hknown : ∀ (l : List (RelPath × Nat)) (j : Jobs),
        ((j.known.lookup (r.1, .populate)).isSome = true ∨ r ∈ l) →
        ((l.foldl (fun j r => j.submitJob r.1 .populate r.2) j).known.lookup
          (r.1, .populate)).isSome = true := by
      intro l
      induction l with
      | nil => exact fun _ h => h.resolve_right (by simp)
      | cons r' l ih =>
        intro j h
        refine ih _ ?_
        rcases h with h | h
        · exact .inl (isSome_known_submitJob (.inl h))
        · rcases List.mem_cons.mp h with rfl | h
          · exact .inl (isSome_known_submitJob (.inr rfl))
          · exact .inr h
    exact ((partition_rehydrate loaded permits nextTask).known_iff _).mp (hknown loaded _ (.inr hr))

end Jobs

/-- What a restart finds, and what it starts with. -/
theorem Daemon.restart_spec {cfg : Config} {s s' : Daemon} {now : Nat}
    {loaded : List (RelPath × Nat)} (h : step cfg s (.crash now loaded) = some s') :
    loaded.Perm (s.db.loadDeferred cfg.deferredTtlMinutes now) ∧
      s'.jobs = Jobs.rehydrate loaded cfg.maxConcurrentCopies s.jobs.nextTask ∧
      s'.db.deferredEvents = s.db.deferredEvents := by
  have hdb := deferred_reconcile s.dir s.db cfg.mount now
  cases move_of_step h with
  | crash hl =>
    have hperm := List.isPerm_iff.mp hl
    simp only [CacheDb.loadDeferred, hdb] at hperm
    exact ⟨hperm, rfl, hdb⟩

/-! ## Mounts over one database -/

/-- The database each mount holds itself is not read: `db` is the one all share. -/
structure Fleet (ι : Type) where
  db : CacheDb
  mounts : ι → Daemon

/-- The row of a Populate job is there as its submission wrote it. -/
def CacheDb.Saves (db : CacheDb) (job : CacheJob) : Prop :=
  db.deferredEvents.lookup (rowKey job.relPath) = some (rowKey job.relPath, asI64 job.enqueueTs)

/-- Neither the sweep nor a startup may drop a job of this age. 0 minutes switch the
sweep off. -/
def Unexpired (ttlMinutes now enqueueTs : Nat) : Prop :=
  ttlMinutes = 0 ∨ CacheDb.ttlCutoff ttlMinutes now ≤ enqueueTs

namespace Fleet

variable {ι : Type}

/-- A mount, at work on the shared database. -/
def daemon (f : Fleet ι) (i : ι) : Daemon := { f.mounts i with db := f.db }

def step [DecidableEq ι] (cfgs : ι → Config) (f : Fleet ι) : ι × Action → Option (Fleet ι)
  | (i, a) =>
    (Daemon.step (cfgs i) (f.daemon i) a).map fun s => ⟨s.db, Function.update f.mounts i s⟩

/-- No mount has a Populate job of this row. -/
def Unclaimed (f : Fleet ι) (k : RowKey) : Prop :=
  ∀ j, ∀ job ∈ (f.mounts j).jobs.pending, rowKey job.relPath ≠ k

/-- The step touches no row that a job is pending under, and a restart finds no unexpired
row but those of its own jobs. -/
def Apart (cfgs : ι → Config) (f : Fleet ι) : ι × Action → Prop
  | (i, .submit p .populate now) =>
    now < 2^63 ∧ ((f.mounts i).jobs.Accepts (p, .populate) → f.Unclaimed (rowKey p))
  | (_, .forget p) => f.Unclaimed (rowKey p)
  | (i, .crash now _) =>
    now < 2^63 ∧
      (∀ e ∈ f.db.deferredEvents.entries,
        asI64 (CacheDb.ttlCutoff (cfgs i).deferredTtlMinutes now) ≤ e.2.2 →
          ∃ job ∈ (f.mounts i).jobs.pending, rowKey job.relPath = e.1) ∧
      ∀ job ∈ (f.mounts i).jobs.pending, pathOfKey (rowKey job.relPath) = job.relPath ∧
        ((cfgs i).deferredTtlMinutes = 0 → now ≤ job.enqueueTs)
  | _ => True

/-- A restart brings back what its mount had pending and unexpired, and no step changes
the row of another mount's pending job. -/
def Isolates [DecidableEq ι] (cfgs : ι → Config) (f : Fleet ι) : ι × Action → Prop
  | (i, a) => ∀ f', step cfgs f (i, a) = some f' →
    (∀ now loaded, a = .crash now loaded → ∀ key,
      key ∈ (f'.mounts i).jobs.queue.map CacheJob.key ↔
        ∃ job ∈ (f.mounts i).jobs.pending,
          Unexpired (cfgs i).deferredTtlMinutes now job.enqueueTs ∧ job.key = key) ∧
    ∀ j, j ≠ i → ∀ job ∈ (f.mounts j).jobs.pending, f.db.Saves job → f'.db.Saves job

/-- Every pending Populate job has its row. -/
structure Sound (f : Fleet ι) : Prop where
  wf : ∀ i, (f.mounts i).Wf
  saved : ∀ i, ∀ job ∈ (f.mounts i).jobs.pending, f.db.Saves job ∧ job.enqueueTs < 2^63

variable {cfgs : ι → Config} {f f' : Fleet ι} {i : ι} {a : Action}

theorem step_cases [DecidableEq ι] (h : step cfgs f (i, a) = some f') :
    ∃ s, Daemon.step (cfgs i) (f.daemon i) a = some s ∧ f' = ⟨s.db, Function.update f.mounts i s⟩ := by
  obtain ⟨s, hs, e⟩ := Option.map_eq_some_iff.mp h
  exact ⟨s, hs, e.symm⟩

/-- What a restart loads is what its mount has pending and unexpired. -/
theorem mem_loadDeferred_iff (hi : f.Sound) {now : Nat} {loaded : List (RelPath × Nat)}
    (ha : f.Apart cfgs (i, .crash now loaded)) {p : RelPath} {ts : Nat} :
    (p, ts) ∈ f.db.loadDeferred (cfgs i).deferredTtlMinutes now ↔
      ∃ job ∈ (f.mounts i).jobs.pending,
        Unexpired (cfgs i).deferredTtlMinutes now job.enqueueTs ∧
          job.relPath = p ∧ job.enqueueTs = ts := by
  obtain ⟨hnow, hrows, hjobs⟩ := ha
  have hcutoff : asI64 (CacheDb.ttlCutoff (cfgs i).deferredTtlMinutes now) =
      (CacheDb.ttlCutoff (cfgs i).deferredTtlMinutes now : Nat) :=
    asI64_of_lt (Nat.lt_of_le_of_lt (Nat.sub_le _ _) hnow)
  constructor
  · intro hm
    obtain ⟨k, v, hv, rfl, rfl, hle⟩ := mem_loadDeferred hm
    obtain ⟨job, hj, rfl⟩ := hrows ⟨k, v⟩ (AList.mem_lookup_iff.mp hv) hle
    obtain ⟨hsaved, hts⟩ := hi.saved i job hj
    obtain rfl := Option.some.inj (hv.symm.trans hsaved)
    refine ⟨job, hj, .inr ?_, ((hjobs job hj).1).symm, ?_⟩
    · dsimp only at hle
      rw [hcutoff, asI64_of_lt hts] at hle
      exact Int.ofNat_le.mp hle
    · dsimp only
      rw [asI64_of_lt hts, asU64_of_nonneg (Int.natCast_nonneg _) (by exact_mod_cast hts)]
      exact (Int.toNat_natCast _).symm
  · rintro ⟨job, hj, hunexpired, rfl, rfl⟩
    obtain ⟨hsaved, hts⟩ := hi.saved i job hj
    obtain ⟨hutf8, hzero⟩ := hjobs job hj
    refine List.mem_filterMap.mpr
      ⟨⟨rowKey job.relPath, _⟩, AList.mem_lookup_iff.mp hsaved, ?_⟩
    have hle : CacheDb.ttlCutoff (cfgs i).deferredTtlMinutes now ≤ job.enqueueTs := by
      rcases hunexpired with h0 | h
      · exact Nat.le_trans (Nat.sub_le _ _) (hzero h0)
      · exact h
    rw [hcutoff, asI64_of_lt hts, if_pos (Int.ofNat_le.mpr hle), hutf8,
      asU64_of_nonneg (Int.natCast_nonneg _) (by exact_mod_cast hts)]
    simp

/-- No step takes the row of a pending job away, or writes it anew. -/
theorem saves_step (hi : f.Sound) (ha : f.Apart cfgs (i, a)) {s : Daemon}
    (hs : Daemon.step (cfgs i) (f.daemon i) a = some s) {j : ι} {job : CacheJob}
    (hj : job ∈ (f.mounts j).jobs.pending) (hsaved : f.db.Saves job) : s.db.Saves job := by
  unfold CacheDb.Saves
  have hw : (f.daemon i).Wf := ⟨(hi.wf i).partition, (hi.wf i).handles⟩
  cases Daemon.deferredStep_of_step hw hs with
  | same e => rw [e]; exact hsaved
  | restarted ha e => rw [e]; exact hsaved
  | @saved p now ha' hnew e =>
    subst ha'
    rw [e, Map.lookup_insert_if, if_neg (ha.2 hnew j job hj)]
    exact hsaved
  | @forgot p ha' e =>
    subst ha'
    rw [e, Map.lookup_erase_if, if_neg (ha j job hj)]
    exact hsaved

theorem sound_step [DecidableEq ι] (hi : f.Sound) (ha : f.Apart cfgs (i, a))
    (h : step cfgs f (i, a) = some f') : f'.Sound := by
  obtain ⟨s, hs, rfl⟩ := step_cases h
  have hw : (f.daemon i).Wf := ⟨(hi.wf i).partition, (hi.wf i).handles⟩
  refine ⟨fun j => ?_, fun j job hj => ?_⟩
  · by_cases hji : j = i
    · subst hji
      simpa using hw.step hs
    · simpa [Function.update_of_ne hji] using hi.wf j
  · by_cases hji : j = i
    · subst hji
      simp only [Function.update_self] at hj
      have old : job ∈ (f.mounts j).jobs.live → s.db.Saves job ∧ job.enqueueTs < 2^63 := by
        intro hl
        have hm := Jobs.mem_pending.mpr ⟨hl, (Jobs.mem_pending.mp hj).2⟩
        obtain ⟨hsaved, hts⟩ := hi.saved j job hm
        exact ⟨saves_step hi ha hs hm hsaved, hts⟩
      obtain ⟨hlive, hk⟩ := Jobs.mem_pending.mp hj
      cases Daemon.deferredStep_of_step hw hs with
      | same e hold => exact old (hold job hlive hk)
      | forgot ha' e hjobs => exact old (hjobs ▸ hlive)
      | @saved p now ha' hnew e hold =>
        subst ha'
        rcases hold job hlive hk with hl | ⟨rfl, rfl⟩
        · exact old hl
        · refine ⟨?_, ha.1⟩
          rw [CacheDb.Saves, e, Map.lookup_insert_if, if_pos rfl]
      | @restarted now loaded ha' e hloaded hjobs =>
        subst ha'
        obtain ⟨hperm, -, -⟩ := Daemon.restart_spec hs
        have hm := hperm.mem_iff.mp (Jobs.live_of_rehydrate (hjobs ▸ hlive)).2
        obtain ⟨job₀, hj₀, -, hpath, hts⟩ := (mem_loadDeferred_iff hi ha).mp hm
        obtain ⟨hsaved, hlt⟩ := hi.saved j job₀ hj₀
        have := saves_step hi ha hs hj₀ hsaved
        rw [CacheDb.Saves, hpath, hts] at this
        exact ⟨this, hts ▸ hlt⟩
    · simp only [Function.update_of_ne hji] at hj
      obtain ⟨hsaved, hts⟩ := hi.saved j job hj
      exact ⟨saves_step hi ha hs hj hsaved, hts⟩

theorem isolates_of_apart [DecidableEq ι] (hi : f.Sound) (ha : f.Apart cfgs (i, a)) :
    f.Isolates cfgs (i, a) := by
  intro f' h
  obtain ⟨s, hs, rfl⟩ := step_cases h
  refine ⟨?_, fun j _ job hj hsaved => saves_step hi ha hs hj hsaved⟩
  rintro now loaded rfl key
  obtain ⟨hperm, hjobs, -⟩ := Daemon.restart_spec hs
  simp only [Function.update_self]
  rw [hjobs, Jobs.mem_queue_rehydrate]
  constructor
  · rintro ⟨⟨p, ts⟩, hr, rfl⟩
    obtain ⟨job, hj, hunexpired, rfl, -⟩ := (mem_loadDeferred_iff hi ha).mp (hperm.mem_iff.mp hr)
    exact ⟨job, hj, hunexpired, by rw [CacheJob.key, (Jobs.mem_pending.mp hj).2]⟩
  · rintro ⟨job, hj, hunexpired, rfl⟩
    have hm := (mem_loadDeferred_iff hi ha).mpr ⟨job, hj, hunexpired, rfl, rfl⟩
    exact ⟨_, hperm.mem_iff.mpr hm, by rw [CacheJob.key, (Jobs.mem_pending.mp hj).2]⟩

end Fleet

open Fleet

/-- In every run of any number of mounts over one database whose steps meet the
condition: a restarted mount's queue is exactly what it had pending and unexpired, and no
step changes the row of another mount's pending job. -/
theorem fleet_isolated {ι : Type} [DecidableEq ι] {cfgs : ι → Config} {f : Fleet ι}
    (hwf : ∀ i, (f.mounts i).Wf) (hidle : ∀ i, (f.mounts i).jobs.pending = [])
    {as : List (ι × Action)} (hapart : Along (step cfgs) (Apart cfgs) f as) :
    Along (step cfgs) (Isolates cfgs) f as := by
  have hstart : f.Sound := ⟨hwf, fun i job hj => absurd hj (by rw [hidle]; exact List.not_mem_nil)⟩
  refine Along.of_invariant Sound ?_ ?_ hapart hstart
  · rintro f ⟨i, a⟩ f' hi ha h
    exact sound_step hi ha h
  · rintro f ⟨i, a⟩ hi ha
    exact isolates_of_apart hi ha

/-! ## A restart that takes another mount's job -/

section Adopted

private def shot : Name := ⟨[115, 104], Eq.refl true⟩

def twoMounts : Bool → Config := fun b => ⟨[if b then 98 else 97], 60, 1⟩

def bothStart : Fleet Bool where
  db := ⟨∅, ∅⟩
  mounts b := .start (twoMounts b) Backing.empty Files.empty ⟨∅, ∅⟩ []

def asked (b : Bool) : List (Bool × Action) := [(b, .offer [shot]), (b, .submit [shot] .populate 9)]

instance (cfgs : Bool → Config) (f : Fleet Bool) : DecidablePred (f.Apart cfgs) := by
  rintro ⟨i, a⟩
  cases a with
  | submit p k now =>
    cases k with
    | populate => unfold Fleet.Apart Fleet.Unclaimed Jobs.Accepts; infer_instance
    | validate | replace => exact isTrue trivial
  | forget p => unfold Fleet.Apart Fleet.Unclaimed; infer_instance
  | crash now loaded => unfold Fleet.Apart; infer_instance
  | _ => exact isTrue trivial

/-- A submission on one mount, then a restart of the other: the path is queued there too,
and nothing was pending there. -/
theorem adopted : ∃ f f', run (step twoMounts) bothStart (asked true) = some f ∧
    step twoMounts f (false, .crash 10 [([shot], 9)]) = some f' ∧
    (f.mounts false).jobs.pending = [] ∧
    (f'.mounts false).jobs.queue.map CacheJob.key = [([shot], .populate)] ∧
    ¬ f.Isolates twoMounts (false, .crash 10 [([shot], 9)]) := by
  have hrun : ((run (step twoMounts) bothStart (asked true)).any fun f =>
      decide ((f.mounts false).jobs.pending = []) &&
        (step twoMounts f (false, .crash 10 [([shot], 9)])).any fun f' =>
          decide ((f'.mounts false).jobs.queue.map CacheJob.key = [([shot], .populate)])) = true := by
    decide +kernel
  obtain ⟨f, h, hf⟩ := (Option.any_eq_true _ _).mp hrun
  simp only [Bool.and_eq_true, decide_eq_true_eq] at hf
  obtain ⟨hidle, hcrash⟩ := hf
  obtain ⟨f', h', hf'⟩ := (Option.any_eq_true _ _).mp hcrash
  have hqueue := of_decide_eq_true hf'
  refine ⟨f, f', h, h', hidle, hqueue, fun hi => ?_⟩
  obtain ⟨job, hj, -⟩ := ((hi f' h').1 10 _ rfl ([shot], .populate)).mp
    (by rw [hqueue]; exact List.mem_cons_self)
  rw [hidle] at hj
  exact absurd hj List.not_mem_nil

/-- The other mount restarts before the submission, and the first one after it. -/
def restartedAlone : List (Bool × Action) :=
  (false, .crash 8 []) :: asked true ++ [(true, .crash 10 [([shot], 9)]), (true, .pop true)]

theorem isolated_alone :
    (run (step twoMounts) bothStart restartedAlone).isSome = true ∧
      Along (step twoMounts) (Isolates twoMounts) bothStart restartedAlone := by
  refine ⟨by decide +kernel, fleet_isolated ?_ ?_ (by decide +kernel)⟩
  · exact fun b => Daemon.wf_start (twoMounts b) Backing.empty Files.empty ⟨∅, ∅⟩ []
  · exact fun b => rfl

end Adopted

end FsCache
