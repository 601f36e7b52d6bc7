import FsCache.Lib.Run
import FsCache.Fs

/- The action engine (engine/action.rs): the access filter, and what is asked for each event
   that passes it.

   The events come in the order of their channel, so an open before its Close; `opened` and
   `closed` are the engine receiving one. What `file_size` answers to the engine is part of
   the action. Time is the monotonic clock, in nanoseconds; a tick may come at any time, and
   takes the ready entries in the order of the map's keys, which for a `HashMap` is any. The
   counters are a `u32` and a `u64`, and unbounded here.

   `handles` and `closed` are the handles the engine has been told of, `mixed` marks the paths
   of which an open has gone uncounted; nothing reads them. What the engine does with the
   candidates of a preset is in `Budget.lean`.

   Correspondence (Rust ↔ Lean):
     `PendingEntry`, `pending`              ↔ `PendingEntry`, `Pending`
     `ActionEngine::run`, a received event  ↔ `Engine.receive`
     `ActionEngine::run`, a check tick      ↔ `Engine.checkTick`
     `ActionEngine::run`, `to_process`      ↔ `Engine.process`
     `submit_validation`, `CachePreset::on_*` ↔ `EngineCall` -/

namespace FsCache
open Lib

structure EngineConfig where
  checkOnHit : Bool
  minAccessSecs : Nat
  minFileSizeMb : Nat

/-- `Duration::from_secs(min_access_secs)` -/
def EngineConfig.minAccess (cfg : EngineConfig) : Nat := cfg.minAccessSecs * 1000000000

def EngineConfig.passesSizeFloor (cfg : EngineConfig) (fileSize : Option Nat) : Bool :=
  if 0 < cfg.minFileSizeMb then
    decide (cfg.minFileSizeMb * 1048576 % 2^64 ≤ fileSize.getD 0)
  else true

namespace AccessEvent

def miss (relativePath : RelPath) : AccessEvent := ⟨relativePath, .miss⟩
def hit (relativePath : RelPath) : AccessEvent := ⟨relativePath, .hit⟩
def close (relativePath : RelPath) (bytesRead : Nat) : AccessEvent := ⟨relativePath, .close bytesRead⟩

/-- What an open sends. -/
def ofOpen (relativePath : RelPath) (isHit : Bool) : AccessEvent :=
  if isHit then hit relativePath else miss relativePath

@[simp] theorem ofOpen_path (p : RelPath) (isHit : Bool) : (ofOpen p isHit).relativePath = p := by
  cases isHit <;> rfl

end AccessEvent

/-- Pending access entry: tracks overlapping FUSE handles for the same path. -/
structure PendingEntry where
  event : AccessEvent
  insertedAt : Nat
  openHandles : Nat
  totalBytesRead : Nat
  deriving DecidableEq

abbrev Pending := Map RelPath PendingEntry

inductive EngineCall where
  | submitValidation (relPath : RelPath)
  | onMiss (path : RelPath)
  | onHit (path : RelPath)
  | onClose (path : RelPath) (bytesRead : Nat)
  deriving DecidableEq

namespace Engine

/-- The entry after one more Close. -/
def closeOne (entry : PendingEntry) (bytesRead : Nat) : PendingEntry :=
  { entry with
    openHandles := entry.openHandles - 1
    totalBytesRead := entry.totalBytesRead + bytesRead }

/-- The handles have read as much as the file has. -/
def fullyConsumed (entry : PendingEntry) (fileSize : Option Nat) : Bool :=
  decide (0 < fileSize.getD 0) && decide (fileSize.getD 0 ≤ entry.totalBytesRead)

/-- An event is received; the second component is `to_process`. -/
def receive (cfg : EngineConfig) (pending : Pending) (now : Nat) (fileSize : Option Nat)
    (event : AccessEvent) : Pending × List AccessEvent :=
  match event.kind with
  | .close bytesRead =>
    match pending.lookup event.relativePath with
    | none => (pending, [event])
    | some entry =>
      if (closeOne entry bytesRead).openHandles = 0 then
        if fullyConsumed (closeOne entry bytesRead) fileSize then
          (pending.erase event.relativePath, [entry.event])
        else (pending.erase event.relativePath, [])
      else (pending.insert event.relativePath (closeOne entry bytesRead), [])
  | .miss | .hit =>
    if cfg.passesSizeFloor fileSize then
      if 0 < cfg.minAccessSecs then
        match pending.lookup event.relativePath with
        | some entry =>
          (pending.insert event.relativePath { entry with openHandles := entry.openHandles + 1 }, [])
        | none => (pending.insert event.relativePath ⟨event, now, 1, 0⟩, [])
      else (pending, [event])
    else (pending, [])

/-- `inserted_at <= cutoff` -/
def ready (cfg : EngineConfig) (now : Nat) (entry : PendingEntry) : Bool :=
  decide (entry.insertedAt + cfg.minAccess ≤ now)

/-- One turn of the loop over the ready keys. -/
def promoteKey (acc : Pending × List AccessEvent) (key : RelPath) : Pending × List AccessEvent :=
  match acc.1.lookup key with
  | some entry => (acc.1.erase key, acc.2 ++ [entry.event])
  | none => acc

def checkTick (cfg : EngineConfig) (pending : Pending) (now : Nat) : Pending × List AccessEvent :=
  (pending.keys.filter fun p => (pending.lookup p).any (ready cfg now)).foldl promoteKey (pending, [])

/-- What is asked for one event of `to_process`. -/
def process (cfg : EngineConfig) (event : AccessEvent) : List EngineCall :=
  let check :=
    if event.kind = .hit ∧ cfg.checkOnHit = true then [.submitValidation event.relativePath] else []
  match event.kind with
  | .miss => check ++ [.onMiss event.relativePath]
  | .hit => check ++ [.onHit event.relativePath]
  | .close bytesRead => check ++ [.onClose event.relativePath bytesRead]

end Engine

/-- A handle whose open the engine has been told of: when, how much it had asked until then,
and whether the file was below the size floor. -/
structure Notified where
  fh : Nat
  path : RelPath
  isHit : Bool
  openedAt : Nat
  mark : Nat
  skipped : Bool
  deriving DecidableEq

structure Engine where
  pending : Pending
  now : Nat
  lastTick : Nat
  calls : List EngineCall
  handles : List Notified
  closed : List (Notified × Nat)
  mixed : RelPath → Bool

inductive EngineAction where
  | opened (fh : Nat) (path : RelPath) (isHit : Bool) (fileSize : Option Nat)
  | closed (fh bytesRead : Nat) (fileSize : Option Nat)
  | tick
  | elapse (nanos : Nat)
  deriving DecidableEq

namespace Engine

def start : Engine where
  pending := ∅
  now := 0
  lastTick := 0
  calls := []
  handles := []
  closed := []
  mixed := fun _ => false

/-- The handle of this number. -/
def handleOf (s : Engine) (fh : Nat) : Option Notified := s.handles.find? fun h => h.fh = fh

/-- The filter has done its part, and the events that passed it are processed. -/
def filtered (cfg : EngineConfig) (s : Engine) (r : Pending × List AccessEvent) : Engine :=
  { s with pending := r.1, calls := s.calls ++ r.2.flatMap (process cfg) }

/-- Whether an open of the path goes uncounted, now or in the life of its pending entry: it is
below the size floor, or its handle is open when the entry is made. -/
def mixes (cfg : EngineConfig) (s : Engine) (path : RelPath) (fileSize : Option Nat) : Bool :=
  if cfg.passesSizeFloor fileSize then
    match s.pending.lookup path with
    | some _ => s.mixed path
    | none => s.handles.any fun h => h.path = path
  else true

/-- One event, one tick, or time passing. -/
def step (cfg : EngineConfig) (s : Engine) : EngineAction → Option Engine
  | .opened fh path isHit fileSize =>
    if (s.handleOf fh).isSome then none
    else
      some { s.filtered cfg (receive cfg s.pending s.now fileSize (.ofOpen path isHit)) with
        handles :=
          ⟨fh, path, isHit, s.now, s.calls.length, !cfg.passesSizeFloor fileSize⟩ :: s.handles
        mixed := Function.update s.mixed path (s.mixes cfg path fileSize) }
  | .closed fh bytesRead fileSize =>
    match s.handleOf fh with
    | none => none
    | some h =>
      some { s.filtered cfg (receive cfg s.pending s.now fileSize (.close h.path bytesRead)) with
        handles := s.handles.erase h
        closed := (h, s.now) :: s.closed }
  | .tick =>
    if 0 < cfg.minAccessSecs then
      some { s.filtered cfg (checkTick cfg s.pending s.now) with lastTick := s.now }
    else none
  | .elapse nanos => some { s with now := s.now + nanos }

/-! ## What one step can do -/

variable {cfg : EngineConfig} {pending : Pending} {now : Nat} {fileSize : Option Nat}

/-- What a Close can do to the pending entries. -/
inductive Closes (pending : Pending) (fileSize : Option Nat) (p : RelPath) (n : Nat) :
    Pending × List AccessEvent → Prop
  | passed (he : pending.lookup p = none) : Closes pending fileSize p n (pending, [.close p n])
  | counted {entry : PendingEntry} (he : pending.lookup p = some entry)
      (hopen : 1 < entry.openHandles) :
      Closes pending fileSize p n (pending.insert p (closeOne entry n), [])
  | consumed {entry : PendingEntry} (he : pending.lookup p = some entry)
      (hlast : entry.openHandles ≤ 1) (hread : fullyConsumed (closeOne entry n) fileSize = true) :
      Closes pending fileSize p n (pending.erase p, [entry.event])
  | cancelled {entry : PendingEntry} (he : pending.lookup p = some entry)
      (hlast : entry.openHandles ≤ 1) (hread : fullyConsumed (closeOne entry n) fileSize = false) :
      Closes pending fileSize p n (pending.erase p, [])

theorem closes_receive (p : RelPath) (n : Nat) :
    Closes pending fileSize p n (receive cfg pending now fileSize (.close p n)) := by
  simp only [receive, AccessEvent.close]
  cases he : pending.lookup p with
  | none => exact .passed he
  | some entry =>
    simp only
    by_cases hlast : entry.openHandles ≤ 1
    · rw [if_pos (show (closeOne entry n).openHandles = 0 by simp only [closeOne]; omega)]
      cases hread : fullyConsumed (closeOne entry n) fileSize with
      | true => exact .consumed he hlast hread
      | false => exact .cancelled he hlast hread
    · rw [if_neg (show (closeOne entry n).openHandles ≠ 0 by simp only [closeOne]; omega)]
      exact .counted he (by omega)

/-- What an open can do to the pending entries. -/
inductive Opens (cfg : EngineConfig) (pending : Pending) (now : Nat) (fileSize : Option Nat)
    (p : RelPath) (isHit : Bool) : Pending × List AccessEvent → Prop
  | skipped (hsize : cfg.passesSizeFloor fileSize = false) :
      Opens cfg pending now fileSize p isHit (pending, [])
  | passed (hsize : cfg.passesSizeFloor fileSize = true) (hmin : cfg.minAccessSecs = 0) :
      Opens cfg pending now fileSize p isHit (pending, [.ofOpen p isHit])
  | joined {entry : PendingEntry} (hsize : cfg.passesSizeFloor fileSize = true)
      (hmin : 0 < cfg.minAccessSecs) (he : pending.lookup p = some entry) :
      Opens cfg pending now fileSize p isHit
        (pending.insert p { entry with openHandles := entry.openHandles + 1 }, [])
  | made (hsize : cfg.passesSizeFloor fileSize = true) (hmin : 0 < cfg.minAccessSecs)
      (he : pending.lookup p = none) :
      Opens cfg pending now fileSize p isHit (pending.insert p ⟨.ofOpen p isHit, now, 1, 0⟩, [])

theorem opens_receive (p : RelPath) (isHit : Bool) :
    Opens cfg pending now fileSize p isHit (receive cfg pending now fileSize (.ofOpen p isHit)) := by
  have hreceive : receive cfg pending now fileSize (.ofOpen p isHit) =
      if cfg.passesSizeFloor fileSize then
        if 0 < cfg.minAccessSecs then
          match pending.lookup p with
          | some entry => (pending.insert p { entry with openHandles := entry.openHandles + 1 }, [])
          | none => (pending.insert p ⟨.ofOpen p isHit, now, 1, 0⟩, [])
        else (pending, [.ofOpen p isHit])
      else (pending, []) := by
    cases isHit <;> rfl
  rw [hreceive]
  cases hsize : cfg.passesSizeFloor fileSize with
  | false => exact .skipped hsize
  | true =>
    rw [if_pos rfl]
    by_cases hmin : 0 < cfg.minAccessSecs
    · rw [if_pos hmin]
      cases he : pending.lookup p with
      | none => exact .made hsize hmin he
      | some entry => exact .joined hsize hmin he
    · rw [if_neg hmin]
      exact .passed hsize (by omega)

/-- The path has an entry that waits for the same event, and as long. -/
def WaitsOn (pending : Pending) (p : RelPath) (entry : PendingEntry) : Prop :=
  ∃ entry', pending.lookup p = some entry' ∧ entry'.event = entry.event ∧
    entry'.insertedAt = entry.insertedAt

theorem waitsOn_of_lookup {p : RelPath} {entry : PendingEntry} (he : pending.lookup p = some entry) :
    WaitsOn pending p entry := ⟨entry, he, rfl, rfl⟩

theorem waitsOn_insert {p q : RelPath} {entry new : PendingEntry}
    (hnew : ∀ old, pending.lookup p = some old →
      new.event = old.event ∧ new.insertedAt = old.insertedAt)
    (he : pending.lookup q = some entry) : WaitsOn (pending.insert p new) q entry := by
  rw [WaitsOn, Map.lookup_insert_if]
  split
  · next hq =>
    subst hq
    exact ⟨new, rfl, hnew entry he⟩
  · exact ⟨entry, he, rfl, rfl⟩

/-- An open leaves every entry waiting. -/
theorem Opens.waits {p q : RelPath} {isHit : Bool} {r : Pending × List AccessEvent}
    (hr : Opens cfg pending now fileSize p isHit r) {entry : PendingEntry}
    (he : pending.lookup q = some entry) : WaitsOn r.1 q entry := by
  cases hr with
  | skipped | passed => exact waitsOn_of_lookup he
  | joined hsize hmin he₀ =>
    refine waitsOn_insert (fun old hold => ?_) he
    obtain rfl := Option.some.inj (he₀.symm.trans hold)
    exact ⟨rfl, rfl⟩
  | made hsize hmin hnone =>
    exact waitsOn_insert (fun old hold => absurd (hnone.symm.trans hold) (by simp)) he

/-- A Close leaves every entry waiting but its own, when that has no more handles. -/
theorem Closes.waits {p q : RelPath} {n : Nat} {r : Pending × List AccessEvent}
    (hr : Closes pending fileSize p n r) {entry : PendingEntry} (he : pending.lookup q = some entry) :
    WaitsOn r.1 q entry ∨ entry.event ∈ r.2 ∨
      q = p ∧ entry.openHandles ≤ 1 ∧ fullyConsumed (closeOne entry n) fileSize = false := by
  by_cases hq : q = p
  · subst hq
    cases hr with
    | passed hnone => exact absurd (hnone.symm.trans he) (by simp)
    | counted he₀ hopen =>
      refine .inl (waitsOn_insert (fun old hold => ?_) he)
      obtain rfl := Option.some.inj (he₀.symm.trans hold)
      exact ⟨rfl, rfl⟩
    | consumed he₀ =>
      obtain rfl := Option.some.inj (he₀.symm.trans he)
      exact .inr (.inl List.mem_cons_self)
    | cancelled he₀ hlast hread =>
      obtain rfl := Option.some.inj (he₀.symm.trans he)
      exact .inr (.inr ⟨rfl, hlast, hread⟩)
  · refine .inl ⟨entry, ?_, rfl, rfl⟩
    cases hr with
    | passed => exact he
    | counted => rw [Map.lookup_insert_if, if_neg hq, he]
    | consumed | cancelled => rw [Map.lookup_erase_if, if_neg hq, he]

/-- The last Close of an entry takes it away, and promotes nothing, if the file was not read. -/
theorem Closes.cancels {p : RelPath} {n : Nat} {r : Pending × List AccessEvent}
    (hr : Closes pending fileSize p n r) {entry : PendingEntry} (he : pending.lookup p = some entry)
    (hlast : entry.openHandles ≤ 1) (hread : fullyConsumed (closeOne entry n) fileSize = false) :
    r = (pending.erase p, []) := by
  cases hr with
  | passed hnone => exact absurd (hnone.symm.trans he) (by simp)
  | counted he₀ hopen =>
    obtain rfl := Option.some.inj (he₀.symm.trans he)
    omega
  | consumed he₀ _ hread' =>
    obtain rfl := Option.some.inj (he₀.symm.trans he)
    exact absurd (hread.symm.trans hread') (by simp)
  | cancelled => rfl

/-- A loop over keys takes their entries, and leaves the others. -/
theorem promoteKeys_spec (l : List RelPath) (acc : Pending × List AccessEvent) :
    (∀ p, (l.foldl promoteKey acc).1.lookup p = if p ∈ l then none else acc.1.lookup p) ∧
    (∀ e, e ∈ (l.foldl promoteKey acc).2 ↔
      e ∈ acc.2 ∨ ∃ p ∈ l, ∃ entry, acc.1.lookup p = some entry ∧ entry.event = e) := by
  induction l generalizing acc with
  | nil => simp
  | cons key l ih =>
    obtain ⟨hlookup, hevents⟩ := ih (promoteKey acc key)
    rw [List.foldl_cons]
    cases hkey : acc.1.lookup key with
    | none =>
      have hsame : promoteKey acc key = acc := by simp only [promoteKey, hkey]
      rw [hsame] at hlookup hevents ⊢
      constructor
      · intro p
        rw [hlookup p]
        by_cases hp : p = key
        · subst hp
          simp [hkey]
        · simp [hp]
      · intro e
        rw [hevents e]
        simp [hkey]
    | some entry =>
      have hnext : promoteKey acc key = (acc.1.erase key, acc.2 ++ [entry.event]) := by
        simp only [promoteKey, hkey]
      rw [hnext] at hlookup hevents ⊢
      constructor
      · intro p
        rw [hlookup p, Map.lookup_erase_if]
        by_cases hp : p = key <;> simp [hp]
      · intro e
        rw [hevents e]
        simp only [List.mem_append, List.mem_singleton, Map.lookup_erase_if]
        constructor
        · intro h
          rcases h with (h | h) | ⟨p, hp, entry', he, h⟩
          · exact .inl h
          · exact .inr ⟨key, List.mem_cons_self, entry, hkey, h.symm⟩
          · split at he
            · exact absurd he (by simp)
            · exact .inr ⟨p, List.mem_cons_of_mem key hp, entry', he, h⟩
        · intro h
          rcases h with h | ⟨p, hp, entry', he, h⟩
          · exact .inl (.inl h)
          · by_cases hpk : p = key
            · subst hpk
              obtain rfl := Option.some.inj (hkey.symm.trans he)
              exact .inl (.inr h.symm)
            · have hpl := (List.mem_cons.mp hp).resolve_left hpk
              exact .inr ⟨p, hpl, entry', by rw [if_neg hpk]; exact he, h⟩

theorem mem_ready {p : RelPath} :
    (p ∈ pending.keys.filter fun p => (pending.lookup p).any (ready cfg now)) ↔
      ∃ entry, pending.lookup p = some entry ∧ ready cfg now entry = true := by
  rw [List.mem_filter, Map.mem_keys_iff, Option.any_eq_true]
  exact ⟨fun h => h.2, fun ⟨entry, he, h⟩ => ⟨⟨entry, he⟩, entry, he, h⟩⟩

/-- A tick takes the entries that are ready, and no other. -/
theorem lookup_checkTick (p : RelPath) :
    (checkTick cfg pending now).1.lookup p =
      (pending.lookup p).filter fun entry => !ready cfg now entry := by
  rw [checkTick, (promoteKeys_spec _ _).1 p]
  by_cases hp : p ∈ pending.keys.filter fun p => (pending.lookup p).any (ready cfg now)
  · obtain ⟨entry, he, hr⟩ := mem_ready.mp hp
    rw [if_pos hp, he, Option.filter_some_neg (by simp [hr])]
  · rw [if_neg hp]
    cases he : pending.lookup p with
    | none => rfl
    | some entry =>
      have hr : ready cfg now entry = false := by
        by_contra hr
        exact hp (mem_ready.mpr ⟨entry, he, by simpa using hr⟩)
      rw [Option.filter_some_pos (by simp [hr])]

theorem mem_checkTick {e : AccessEvent} :
    e ∈ (checkTick cfg pending now).2 ↔
      ∃ p entry, pending.lookup p = some entry ∧ ready cfg now entry = true ∧ entry.event = e := by
  rw [checkTick, (promoteKeys_spec _ _).2 e]
  constructor
  · intro h
    rcases h with h | ⟨p, hp, entry, he, h⟩
    · exact absurd h (by simp)
    · obtain ⟨entry', he', hr⟩ := mem_ready.mp hp
      obtain rfl := Option.some.inj (he.symm.trans he')
      exact ⟨p, entry, he, hr, h⟩
  · intro h
    obtain ⟨p, entry, he, hr, h⟩ := h
    exact .inr ⟨p, mem_ready.mpr ⟨entry, he, hr⟩, entry, he, h⟩

/-- A tick leaves every entry waiting that it does not promote. -/
theorem checkTick_waits {p : RelPath} {entry : PendingEntry} (he : pending.lookup p = some entry) :
    WaitsOn (checkTick cfg pending now).1 p entry ∨ entry.event ∈ (checkTick cfg pending now).2 := by
  cases hr : ready cfg now entry with
  | true => exact .inr (mem_checkTick.mpr ⟨p, entry, he, hr, rfl⟩)
  | false =>
    refine .inl (waitsOn_of_lookup ?_)
    rw [lookup_checkTick, he, Option.filter_some_pos (by simp [hr])]

/-- What one step can do. -/
inductive Move (cfg : EngineConfig) (s : Engine) : EngineAction → Engine → Prop
  | opened {fh : Nat} {p : RelPath} {isHit : Bool} {fileSize : Option Nat}
      {r : Pending × List AccessEvent} (hfree : s.handleOf fh = none)
      (hr : Opens cfg s.pending s.now fileSize p isHit r) :
      Move cfg s (.opened fh p isHit fileSize)
        { s.filtered cfg r with
          handles := ⟨fh, p, isHit, s.now, s.calls.length, !cfg.passesSizeFloor fileSize⟩ :: s.handles
          mixed := Function.update s.mixed p (s.mixes cfg p fileSize) }
  | closed {fh n : Nat} {fileSize : Option Nat} {h : Notified} {r : Pending × List AccessEvent}
      (hh : s.handleOf fh = some h) (hr : Closes s.pending fileSize h.path n r) :
      Move cfg s (.closed fh n fileSize)
        { s.filtered cfg r with handles := s.handles.erase h, closed := (h, s.now) :: s.closed }
  | tick (hmin : 0 < cfg.minAccessSecs) :
      Move cfg s .tick { s.filtered cfg (checkTick cfg s.pending s.now) with lastTick := s.now }
  | elapse (nanos : Nat) : Move cfg s (.elapse nanos) { s with now := s.now + nanos }

theorem move_of_step {s s' : Engine} {a : EngineAction} (h : step cfg s a = some s') :
    Move cfg s a s' := by
  cases a with
  | opened fh p isHit fileSize =>
    simp only [step] at h
    split at h
    · exact absurd h (by simp)
    · next hfree =>
      rw [← Option.some.inj h]
      exact .opened (Option.not_isSome_iff_eq_none.mp hfree) (opens_receive p isHit)
  | closed fh n fileSize =>
    simp only [step] at h
    split at h
    · exact absurd h (by simp)
    · next hn hh =>
      rw [← Option.some.inj h]
      exact .closed hh (closes_receive _ n)
  | tick =>
    simp only [step] at h
    split at h
    · next hmin =>
      rw [← Option.some.inj h]
      exact .tick hmin
    · exact absurd h (by simp)
  | elapse nanos =>
    rw [← Option.some.inj h]
    exact .elapse nanos

theorem mem_of_handleOf {s : Engine} {fh : Nat} {h : Notified} (hh : s.handleOf fh = some h) :
    h ∈ s.handles := List.mem_of_find?_eq_some hh

end Engine

end FsCache
