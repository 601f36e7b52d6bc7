import FsCache.Discovery

/- Whom discovery credits an operation to.

   Two caches answer before `/proc` is read: the slot of the thread and the LRU of the session.
   Neither looks at the age of what it holds, and `pid_lru_ttl_secs` is read by nothing; the slot
   is not cleared between sessions, and a name that comes from it is not noted in the session.
   `attribution_iff`: over a whole run, every touch is credited to a recent process and every name
   that a session counts is one it has noted, exactly if no cache answers with what is older than
   the TTL and no slot with a name that is new to the session. `reused_pid_miscredited` is a
   run with both. -/

namespace FsCache
open Lib

/-- The names that are counted are seen, with a sample and the policy's verdict. -/
def Session.Complete (s : Session) : Prop :=
  ∀ κ ∈ s.counts.keys, κ.1 ∈ s.seen ∧ κ.1 ∈ s.samples.keys ∧ κ.1 ∈ s.filtered.keys

/-- A touch is credited to a name captured from its PID within the TTL. -/
def Credit.Current (ttlSecs : Nat) (cr : Credit) : Prop :=
  ∀ pid c time, cr.touched = some (pid, c, time) →
    c.info.pid = pid ∧ cr.key.1 = c.info.countedName ∧ time ≤ c.capturedAt + ttlSecs

/-- What the slot of a thread answers for a PID. -/
def slotAnswer (slot : Option (Nat × Captured)) (pid : Nat) : Option Captured :=
  slot.bind fun e => if e.1 = pid then some e.2 else none

namespace Session

/-! ## One session -/

/-- Who is in the LRU has been noted, and what is noted has a sample and a verdict. -/
structure Known (s : Session) : Prop where
  lru : ∀ e ∈ s.pidLru, e.2.info.pid = e.1 ∧ e.2.info.countedName ∈ s.seen
  noted : ∀ name ∈ s.seen, name ∈ s.samples.keys ∧ name ∈ s.filtered.keys

theorem known_new (now : Nat) : (Session.new now).Known where
  lru := fun _ he => absurd he (by simp [Session.new])
  noted := fun _ hn => absurd hn (by simp [Session.new])

/-- Of a session that knows its names, only `seen` matters. -/
theorem Known.complete_iff {s : Session} (h : s.Known) : s.Complete ↔ ∀ κ ∈ s.counts.keys, κ.1 ∈ s.seen := by
  constructor
  · exact fun hc κ hκ => (hc κ hκ).1
  · exact fun hc κ hκ => ⟨hc κ hκ, h.noted κ.1 (hc κ hκ)⟩

theorem note_pidLru (policy : ProcessFilterPolicy) (s : Session) (info : ProcessInfo) :
    (s.note policy info).pidLru = s.pidLru := by
  rw [note]
  split <;> rfl

theorem note_seen (policy : ProcessFilterPolicy) (s : Session) (info : ProcessInfo) :
    (s.note policy info).seen = insert info.countedName s.seen := by
  rw [note]
  split
  · next hseen => exact (Finset.insert_eq_of_mem hseen).symm
  · rfl

theorem noted_note {policy : ProcessFilterPolicy} {s : Session} {info : ProcessInfo}
    (h : ∀ name ∈ s.seen, name ∈ s.samples.keys ∧ name ∈ s.filtered.keys) :
    ∀ name ∈ (s.note policy info).seen,
      name ∈ (s.note policy info).samples.keys ∧ name ∈ (s.note policy info).filtered.keys := by
  rw [note]
  split
  · exact h
  · intro name hname
    rcases Finset.mem_insert.mp hname with rfl | hname
    · exact ⟨Map.mem_keys_insert.mpr (.inl rfl), Map.mem_keys_insert.mpr (.inl rfl)⟩
    · exact ⟨Map.mem_keys_insert.mpr (.inr (h name hname).1), Map.mem_keys_insert.mpr (.inr (h name hname).2)⟩

theorem Known.note {s : Session} (h : s.Known) (policy : ProcessFilterPolicy) (info : ProcessInfo) :
    (s.note policy info).Known where
  lru := by
    rw [note_pidLru, note_seen]
    exact fun e he => ⟨(h.lru e he).1, Finset.mem_insert_of_mem (h.lru e he).2⟩
  noted := noted_note h.noted

theorem mem_of_get {lru : PidLru} {pid : Nat} {c : Captured} (h : lru.get pid = some c) : (pid, c) ∈ lru := by
  obtain ⟨before, after, heq, -⟩ := List.lookup_eq_some_iff.mp h
  exact heq ▸ List.mem_append_right before List.mem_cons_self

/-- The session's answer for a PID: from the LRU if it is there, else the fresh one, which is noted. -/
theorem Known.resolvePid (cfg : DiscoveryConfig) {s : Session} (h : s.Known) {pid : Nat} (fresh : Captured)
    (hfresh : fresh.info.pid = pid) :
    (s.resolvePid cfg pid fresh).2.Known ∧
    (s.resolvePid cfg pid fresh).1 = (s.pidLru.get pid).getD fresh ∧
    (s.resolvePid cfg pid fresh).1.info.pid = pid ∧
    (s.resolvePid cfg pid fresh).1.info.countedName ∈ (s.resolvePid cfg pid fresh).2.seen ∧
    ∀ name ∈ s.seen, name ∈ (s.resolvePid cfg pid fresh).2.seen := by
  rw [Session.resolvePid]
  cases hget : s.pidLru.get pid with
  | some c =>
    obtain ⟨hpid, hseen⟩ := h.lru _ (mem_of_get hget)
    refine ⟨⟨fun e he => ?_, h.noted⟩, rfl, hpid, hseen, fun _ hn => hn⟩
    rcases List.mem_cons.mp he with rfl | he
    · exact ⟨hpid, hseen⟩
    · exact h.lru e (List.mem_of_mem_filter he)
  | none =>
    have hlru : ∀ e ∈ s.pidLru.put (max cfg.pidLruCapacity 1) pid fresh, e = (pid, fresh) ∨ e ∈ s.pidLru := by
      intro e he
      rcases List.mem_cons.mp (List.mem_of_mem_take he) with rfl | he
      · exact .inl rfl
      · exact .inr (List.mem_of_mem_filter he)
    refine ⟨⟨fun e he => ?_, noted_note h.noted⟩, rfl, hfresh, ?_, fun name hn => ?_⟩
    · rw [note_pidLru] at he
      rw [note_seen]
      rcases hlru e he with rfl | he
      · exact ⟨hfresh, Finset.mem_insert_self _ _⟩
      · exact ⟨(h.lru e he).1, Finset.mem_insert_of_mem (h.lru e he).2⟩
    · rw [note_seen]
      exact Finset.mem_insert_self _ _
    · rw [note_seen]
      exact Finset.mem_insert_of_mem hn

theorem touchInfo_of_slot (cfg : DiscoveryConfig) (s : Session) {slot : Option (Nat × Captured)} {pid : Nat}
    {c : Captured} (fresh : Captured) (h : slotAnswer slot pid = some c) : s.touchInfo cfg slot pid fresh = (c, s) := by
  cases slot with
  | none => exact absurd h (by simp [slotAnswer])
  | some e =>
    simp only [slotAnswer, Option.bind_some] at h
    split at h
    · next hpid =>
      obtain rfl := Option.some.inj h
      simp [touchInfo, hpid]
    · exact absurd h (by simp)

theorem touchInfo_of_none (cfg : DiscoveryConfig) (s : Session) {slot : Option (Nat × Captured)} {pid : Nat}
    (fresh : Captured) (h : slotAnswer slot pid = none) :
    s.touchInfo cfg slot pid fresh = s.resolvePid cfg pid fresh := by
  cases slot with
  | none => rfl
  | some e =>
    simp only [slotAnswer, Option.bind_some] at h
    split at h
    · exact absurd h (by simp)
    · next hpid => simp [touchInfo, hpid]

theorem Known.bump {s : Session} (h : s.Known) (key : Str × OpKind) : (s.bump key).Known := ⟨h.lru, h.noted⟩

/-- A bump is complete if the name has been seen. -/
theorem Known.complete_bump_iff {s : Session} (h : s.Known) (key : Str × OpKind) :
    (s.bump key).Complete ↔ key.1 ∈ s.seen ∧ ∀ κ ∈ s.counts.keys, κ.1 ∈ s.seen := by
  rw [(h.bump key).complete_iff]
  have hkeys : ∀ κ, κ ∈ (s.bump key).counts.keys ↔ κ = key ∨ κ ∈ s.counts.keys := fun _ => Map.mem_keys_insert
  constructor
  · exact fun hc => ⟨hc key ((hkeys key).mpr (.inl rfl)), fun κ hκ => hc κ ((hkeys κ).mpr (.inr hκ))⟩
  · intro hc κ hκ
    rcases (hkeys κ).mp hκ with rfl | hκ
    · exact hc.1
    · exact hc.2 κ hκ

end Session

namespace Discovery

variable {cfg : DiscoveryConfig} {s s' : Discovery} {a : DiscoveryAction}

/-- Every touch is credited to a recent process, and every session has noted the names it counts. -/
def Attributed (cfg : DiscoveryConfig) (s : Discovery) : Prop :=
  (∀ cr ∈ s.credits, cr.Current cfg.pidLruTtlSecs) ∧ ∀ k, (s.tasks k).session.Complete

/-- The touch that a thread is about to count: its session and its PID. -/
def touching (s : Discovery) (thread : Nat) : Option (Nat × Nat) :=
  match s.callers thread with
  | .holding k (.touch pid _) => some (k, pid)
  | .holding _ (.opened ..) | .idle | .checked _ => none

/-- What answers a touch instead of `/proc`. -/
def cached (s : Discovery) (thread k pid : Nat) : Option Captured :=
  (slotAnswer (s.lastSeen thread) pid).or ((s.tasks k).session.pidLru.get pid)

/-- No cache answers with what is older than the TTL, and no slot with a name that the session has
not seen. -/
def Fresh (cfg : DiscoveryConfig) (s : Discovery) : DiscoveryAction → Prop
  | .credit thread _ => ∀ e ∈ s.touching thread,
      (∀ c ∈ s.cached thread e.1 e.2, s.now ≤ c.capturedAt + cfg.pidLruTtlSecs) ∧
      ∀ c ∈ slotAnswer (s.lastSeen thread) e.2, c.info.countedName ∈ (s.tasks e.1).session.seen
  | _ => True

instance (cfg : DiscoveryConfig) (s : Discovery) : DecidablePred (Fresh cfg s)
  | .credit thread _ => inferInstanceAs (Decidable (∀ e ∈ s.touching thread,
      (∀ c ∈ s.cached thread e.1 e.2, s.now ≤ c.capturedAt + cfg.pidLruTtlSecs) ∧
      ∀ c ∈ slotAnswer (s.lastSeen thread) e.2, c.info.countedName ∈ (s.tasks e.1).session.seen))
  | .advance _ | .cancelRoot | .lockStart | .lockStop | .control | .call .. | .load _ | .flush .. | .swap ..
  | .collected _ | .write .. | .disable _ | .clear _ => isTrue trivial

/-- Every cached answer is of its PID, and of a name that its session knows. -/
structure Attributing (s : Discovery) : Prop where
  known : ∀ k, (s.tasks k).session.Known
  slots : ∀ thread e, s.lastSeen thread = some e → e.2.info.pid = e.1

/-! ## Steps that credit nothing -/

/-- What is known and complete stays so. -/
structure Quiet (s s' : Discovery) : Prop where
  credits : s'.credits = s.credits
  slots : s'.lastSeen = s.lastSeen
  known : ∀ k, (s.tasks k).session.Known → (s'.tasks k).session.Known
  complete : ∀ k, (s.tasks k).session.Complete → (s'.tasks k).session.Complete

theorem Quiet.of_tasks (hcredits : s'.credits = s.credits) (hslots : s'.lastSeen = s.lastSeen)
    (htasks : s'.tasks = s.tasks) : Quiet s s' := by
  refine ⟨hcredits, hslots, ?_, ?_⟩ <;>
  · rw [htasks]
    exact fun _ hk => hk

theorem Quiet.of_update {k : Nat} {t : SessionTask} (hcredits : s'.credits = s.credits)
    (hslots : s'.lastSeen = s.lastSeen) (htasks : s'.tasks = Function.update s.tasks k t)
    (hknown : (s.tasks k).session.Known → t.session.Known)
    (hcomplete : (s.tasks k).session.Complete → t.session.Complete) : Quiet s s' := by
  refine ⟨hcredits, hslots, fun j hj => ?_, fun j hj => ?_⟩
  · rw [htasks]
    by_cases hjk : j = k
    · subst hjk
      rw [Function.update_self]
      exact hknown hj
    · rwa [Function.update_of_ne hjk]
  · rw [htasks]
    by_cases hjk : j = k
    · subst hjk
      rw [Function.update_self]
      exact hcomplete hj
    · rwa [Function.update_of_ne hjk]

theorem complete_new (now : Nat) : (Session.new now).Complete := fun _ hκ => absurd hκ (by simp [Session.new])

theorem quiet_control (hs : s.controlStep s.control = some s') : Quiet s s' := by
  cases hc : s.control with
  | idle => rw [hc] at hs; exact absurd hs (by simp [controlStep])
  | starting =>
    rw [hc] at hs
    obtain rfl := Option.some.inj hs
    exact .of_update rfl rfl rfl (fun _ => Session.known_new _) fun _ => complete_new _
  | stopping =>
    rw [hc] at hs
    simp only [controlStep] at hs
    split at hs
    · obtain rfl := Option.some.inj hs
      exact .of_tasks rfl rfl rfl
    · obtain rfl := Option.some.inj hs
      exact .of_update rfl rfl rfl (fun hk => hk) fun hk => hk
  | enabled k =>
    rw [hc] at hs
    obtain rfl := Option.some.inj hs
    exact .of_update rfl rfl rfl (fun hk => hk) fun hk => hk
  | stored k | spawned k | cancelled | disabled =>
    rw [hc] at hs
    obtain rfl := Option.some.inj hs
    exact .of_tasks rfl rfl rfl

/-- Every step but a credit. Swapping a counter leaves its key. -/
theorem quiet_step (hs : step cfg s a = some s') (ha : ∀ thread proc, a ≠ .credit thread proc) : Quiet s s' := by
  cases moves_of_step hs with
  | advance secs | cancelRoot | running hcontrol henabled | lockStart hcontrol henabled
  | lockStop hcontrol henabled | stopped hcontrol henabled | checked thread c | unchecked thread c
  | unloaded thread | loaded thread c hsession =>
    exact .of_tasks rfl rfl rfl
  | control hs => exact quiet_control hs
  | credit proc hcaller => exact absurd rfl (ha _ proc)
  | flush hdrain htoken | collected hdrain | write written hdrain | disable hdrain | clear hdrain =>
    exact .of_update rfl rfl rfl (fun hk => hk) fun hk => hk
  | swap hdrain hkey =>
    refine .of_update rfl rfl rfl (fun hk => ⟨hk.lru, hk.noted⟩) fun hk κ hκ => ?_
    rcases Map.mem_keys_insert.mp hκ with rfl | hκ
    · exact hk κ hkey
    · exact hk κ hκ

/-! ## A credit -/

/-- One operation more is counted, in the session `se` that the call has left. -/
theorem attributed_credit {k : Nat} {se : Session} {cr : Credit} (h : Attributing s) (ha : s.Attributed cfg)
    (hknown : se.Known) (hcounts : se.counts = (s.tasks k).session.counts)
    (hseen : ∀ name ∈ (s.tasks k).session.seen, name ∈ se.seen)
    (htasks : s'.tasks = Function.update s.tasks k { s.tasks k with session := se.bump cr.key })
    (hcredits : s'.credits = cr :: s.credits)
    (hslots : ∀ thread e, s'.lastSeen thread = some e → e.2.info.pid = e.1) :
    Attributing s' ∧ (s'.Attributed cfg ↔ cr.Current cfg.pidLruTtlSecs ∧ cr.key.1 ∈ se.seen) := by
  have hother : ∀ j, j ≠ k → s'.tasks j = s.tasks j := by
    intro j hj
    rw [htasks, Function.update_of_ne hj]
  have hself : (s'.tasks k).session = se.bump cr.key := by rw [htasks, Function.update_self]
  refine ⟨⟨fun j => ?_, hslots⟩, ?_⟩
  · by_cases hj : j = k
    · subst hj
      rw [hself]
      exact hknown.bump cr.key
    · rw [hother j hj]
      exact h.known j
  · -- the names of the other operations were seen before
    have hbefore : ∀ κ ∈ se.counts.keys, κ.1 ∈ se.seen := by
      rw [hcounts]
      exact fun κ hκ => hseen κ.1 (ha.2 k κ hκ).1
    constructor
    · intro ha'
      have hcomplete := ha'.2 k
      rw [hself] at hcomplete
      exact ⟨ha'.1 cr (hcredits ▸ List.mem_cons_self), ((hknown.complete_bump_iff cr.key).mp hcomplete).1⟩
    · intro hcr
      obtain ⟨hcurrent, hname⟩ := hcr
      refine ⟨fun c hc => ?_, fun j => ?_⟩
      · rw [hcredits] at hc
        rcases List.mem_cons.mp hc with rfl | hc
        · exact hcurrent
        · exact ha.1 c hc
      · by_cases hj : j = k
        · subst hj
          rw [hself]
          exact (hknown.complete_bump_iff cr.key).mpr ⟨hname, hbefore⟩
        · rw [hother j hj]
          exact ha.2 j

theorem slotAnswer_eq_some {slot : Option (Nat × Captured)} {pid : Nat} {c : Captured}
    (h : slotAnswer slot pid = some c) : slot = some (pid, c) := by
  obtain ⟨e, he, hc⟩ := Option.bind_eq_some_iff.mp h
  split at hc
  · next hpid =>
    obtain rfl := Option.some.inj hc
    rw [he, ← hpid]
  · exact absurd hc (by simp)

/-- What a touch does, by what answers it. -/
theorem creditCall_touch {thread k pid : Nat} (op : OpKind) {proc : ProcReading} {r : Captured × Session}
    (hr : (s.tasks k).session.touchInfo cfg (s.lastSeen thread) pid ⟨ProcessInfo.capture pid proc, s.now⟩ = r) :
    (s.creditCall cfg thread k proc (.touch pid op)).tasks = Function.update s.tasks k
      { s.tasks k with session := r.2.bump (r.1.info.countedName, op) } ∧
    (s.creditCall cfg thread k proc (.touch pid op)).lastSeen =
      Function.update s.lastSeen thread (some (pid, r.1)) ∧
    (s.creditCall cfg thread k proc (.touch pid op)).credits =
      ⟨k, (r.1.info.countedName, op), some (pid, r.1, s.now)⟩ :: s.credits := by
  subst hr
  exact ⟨rfl, rfl, rfl⟩

theorem current_touch {k pid now ttlSecs : Nat} {op : OpKind} {c : Captured} (hpid : c.info.pid = pid) :
    (⟨k, (c.info.countedName, op), some (pid, c, now)⟩ : Credit).Current ttlSecs ↔
      now ≤ c.capturedAt + ttlSecs := by
  constructor
  · exact fun h => (h pid c now rfl).2.2
  · intro h p d time htouched
    obtain ⟨rfl, rfl, rfl⟩ : pid = p ∧ c = d ∧ now = time := by simpa using htouched
    exact ⟨hpid, rfl, h⟩

/-- A touch is credited well exactly if what the caches answer is fresh. -/
theorem attributed_touch {thread k pid : Nat} {op : OpKind} {proc : ProcReading} (h : Attributing s)
    (ha : s.Attributed cfg) (hcaller : s.callers thread = .holding k (.touch pid op)) :
    Attributing (s.creditCall cfg thread k proc (.touch pid op)) ∧
    ((s.creditCall cfg thread k proc (.touch pid op)).Attributed cfg ↔ s.Fresh cfg (.credit thread proc)) := by
  have hfresh : s.Fresh cfg (.credit thread proc) ↔
      (∀ c ∈ s.cached thread k pid, s.now ≤ c.capturedAt + cfg.pidLruTtlSecs) ∧
      ∀ c ∈ slotAnswer (s.lastSeen thread) pid, c.info.countedName ∈ (s.tasks k).session.seen := by
    simp [Fresh, touching, hcaller]
  have hslots : ∀ c : Captured, c.info.pid = pid → ∀ other e,
      Function.update s.lastSeen thread (some (pid, c)) other = some e → e.2.info.pid = e.1 := by
    intro c hc other e he
    by_cases hother : other = thread
    · rw [hother, Function.update_self, Option.some.injEq] at he
      exact he ▸ hc
    · rw [Function.update_of_ne hother] at he
      exact h.slots other e he
  rw [hfresh, cached]
  cases hslot : slotAnswer (s.lastSeen thread) pid with
  | some c =>
    have hpid : c.info.pid = pid := h.slots thread _ (slotAnswer_eq_some hslot)
    obtain ⟨htasks, hlast, hcredits⟩ := creditCall_touch op
      (Session.touchInfo_of_slot cfg (s.tasks k).session ⟨ProcessInfo.capture pid proc, s.now⟩ hslot)
    obtain ⟨hattributing, hiff⟩ := attributed_credit h ha (h.known k) rfl (fun _ hn => hn) htasks hcredits
      (by rw [hlast]; exact hslots c hpid)
    refine ⟨hattributing, ?_⟩
    rw [hiff, current_touch hpid]
    simp
  | none =>
    -- the session answers, and has noted the name
    obtain ⟨hknown, hanswer, hpid, hname, hseen⟩ :=
      (h.known k).resolvePid cfg ⟨ProcessInfo.capture pid proc, s.now⟩ (rfl : _ = pid)
    obtain ⟨htasks, hlast, hcredits⟩ := creditCall_touch op
      (Session.touchInfo_of_none cfg (s.tasks k).session ⟨ProcessInfo.capture pid proc, s.now⟩ hslot)
    obtain ⟨hattributing, hiff⟩ := attributed_credit h ha hknown (Session.resolvePid_counts ..) hseen htasks
      hcredits (by rw [hlast]; exact hslots _ hpid)
    refine ⟨hattributing, ?_⟩
    rw [hiff.trans (and_iff_left hname), current_touch hpid, hanswer]
    cases hget : (s.tasks k).session.pidLru.get pid with
    | none =>
      -- the process has been captured now
      refine iff_of_true ?_ ⟨fun _ hc => absurd hc (by simp), fun _ hc => absurd hc (by simp)⟩
      exact Nat.le_add_right _ _
    | some c =>
      constructor
      · intro hcredit
        refine ⟨fun d hd => ?_, fun _ hd => absurd hd (by simp)⟩
        obtain rfl : c = d := by simpa using hd
        exact hcredit
      · exact fun hfresh => hfresh.1 c (by simp)

/-- An open is credited to the process that the handler has captured, and notes its name. -/
theorem attributed_open {thread k : Nat} {info : ProcessInfo} {outcome : OpenOutcome} {proc : ProcReading}
    (h : Attributing s) (ha : s.Attributed cfg) :
    Attributing (s.creditCall cfg thread k proc (.opened info outcome)) ∧
    (s.creditCall cfg thread k proc (.opened info outcome)).Attributed cfg := by
  have htasks : (s.creditCall cfg thread k proc (.opened info outcome)).tasks = Function.update s.tasks k
      { s.tasks k with
        session := ((s.tasks k).session.note cfg.processPolicy info).bump (info.countedName, outcome.op) } := rfl
  have hcredits : (s.creditCall cfg thread k proc (.opened info outcome)).credits =
      ⟨k, (info.countedName, outcome.op), none⟩ :: s.credits := rfl
  obtain ⟨hattributing, hiff⟩ := attributed_credit h ha ((h.known k).note cfg.processPolicy info)
    (Session.note_counts ..) (fun _ hn => by rw [Session.note_seen]; exact Finset.mem_insert_of_mem hn) htasks
    hcredits h.slots
  refine ⟨hattributing, hiff.mpr ⟨fun _ _ _ htouched => absurd htouched (by simp), ?_⟩⟩
  rw [Session.note_seen]
  exact Finset.mem_insert_self _ _

/-- A step attributes well exactly if the caches are fresh. -/
theorem attributed_step (hs : step cfg s a = some s') (ha : s.Attributed cfg) (h : Attributing s) :
    Attributing s' ∧ (s'.Attributed cfg ↔ s.Fresh cfg a) := by
  by_cases hcredit : ∃ thread proc, a = .credit thread proc
  · obtain ⟨thread, proc, rfl⟩ := hcredit
    cases moves_of_step hs with
    | @credit _ k c _ hcaller =>
      cases c with
      | touch pid op => exact attributed_touch h ha hcaller
      | opened info outcome =>
        obtain ⟨hattributing, hattributed⟩ := attributed_open h ha
        exact ⟨hattributing, iff_of_true hattributed (by simp [Fresh, touching, hcaller])⟩
  · have hne : ∀ thread proc, a ≠ .credit thread proc := fun thread proc e => hcredit ⟨thread, proc, e⟩
    have hquiet : Quiet s s' := quiet_step hs hne
    have hfresh : s.Fresh cfg a := by
      cases a with
      | credit thread proc => exact absurd rfl (hne thread proc)
      | _ => trivial
    refine ⟨⟨fun k => hquiet.known k (h.known k), hquiet.slots ▸ h.slots⟩, iff_of_true ⟨?_, ?_⟩ hfresh⟩
    · rw [hquiet.credits]
      exact ha.1
    · exact fun k => hquiet.complete k (ha.2 k)

/-- In every run, all touches are credited to recent processes and all counted names are noted, exactly
if the caches are fresh whenever they answer. -/
theorem attribution_iff (cfg : DiscoveryConfig) (table : ProcessAccess) (now : Nat)
    {actions : List DiscoveryAction} {t : Discovery}
    (hrun : run (step cfg) (init table now) actions = some t) :
    (∀ bs u, bs <+: actions → run (step cfg) (init table now) bs = some u → u.Attributed cfg) ↔
      Along (step cfg) (Fresh cfg) (init table now) actions := by
  refine always_iff_along (Attributed cfg) Attributing (fun s a s' ha h hs => attributed_step hs ha h) hrun ?_ ?_
  · exact ⟨fun _ hc => absurd hc (by simp [init]), fun _ => complete_new 0⟩
  · exact ⟨fun _ => Session.known_new 0, fun _ _ he => absurd he (by simp [init])⟩

section Reused

def shortTtl : DiscoveryConfig := ⟨512, 300, ⟨[], []⟩⟩

private def plexServer : ProcReading := ⟨some [112], none, []⟩
private def player : ProcReading := ⟨some [118], none, []⟩

def startSession : List DiscoveryAction := [.lockStart, .control, .control, .control, .control]

def touchBy (proc : ProcReading) : List DiscoveryAction :=
  [.call 1 (.touch 7 .hit), .load 1, .credit 1 proc]

/-- One process, within the TTL. -/
def recentTouches : List DiscoveryAction :=
  startSession ++ touchBy plexServer ++ [.advance 200] ++ touchBy plexServer

theorem recent_attributed : ∃ t, run (step shortTtl) (init ∅ 0) recentTouches = some t ∧
    t.credits.length = 2 ∧ t.Attributed shortTtl := by
  have hfresh : Along (step shortTtl) (Fresh shortTtl) (init ∅ 0) recentTouches := by decide
  exact ⟨_, rfl, rfl, (attribution_iff shortTtl ∅ 0 rfl).mpr hfresh _ _ (List.prefix_refl _) rfl⟩

/-- The PID is another process's in the next session, which counts under the name of the first and has
not seen it. -/
theorem reused_pid_miscredited : ∃ t,
    run (step shortTtl) (init ∅ 0) (startSession ++ touchBy plexServer ++ [.lockStop, .control, .control, .control] ++
      startSession ++ [.advance 400] ++ touchBy player) = some t ∧
    ¬ t.Attributed shortTtl := by
  refine ⟨_, rfl, fun h => ?_⟩
  have hname := (h.2 1 ([112], .hit) (by decide)).1
  exact absurd hname (by decide)

end Reused

end Discovery

end FsCache
