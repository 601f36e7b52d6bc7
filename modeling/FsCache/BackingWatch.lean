import Mathlib.Order.Basic
import FsCache.Lib.Assoc
import FsCache.Path

/- The watcher of the backing directory (backing_watch.rs): the watched directories, and the
   events that wait for their debounce window to end.

   `lru` leads from a path to a watch descriptor, the most recent one first, and `wdMap` from
   a descriptor to the path and the inode it was added for. An event comes with a descriptor
   and a name; it opens a window for the directory's inode and the name, or is coalesced into
   the one that is open. A tick takes the windows that are due.

   What inotify answers to a watch is an argument of `touchOrAdd`. Times are in milliseconds.
   A `HashMap` is drained in some order, which is an argument of `tick`; it is refused if it
   is not one of the windows that are due.

   Correspondence (Rust ↔ Lean):
     `Severity`, `PendingEvent`, `WdEntry` ↔ the same
     `touch_or_add`                        ↔ `BackingWatch.touchOrAdd`, with `evict`
     `handle_event`                        ↔ `BackingWatch.handleEvent`
     the tick in `run`                     ↔ `BackingWatch.expired`, `BackingWatch.drain` -/

namespace FsCache
open Lib

/-- Higher severity wins when multiple events arrive within the same debounce window. -/
inductive Severity where
  | createOrMovedIn
  | attr
  | modify
  | delete
  deriving DecidableEq

def Severity.toNat : Severity → Nat
  | .createOrMovedIn => 0
  | .attr => 1
  | .modify => 2
  | .delete => 3

instance : LinearOrder Severity :=
  LinearOrder.lift' Severity.toNat fun a b h => by cases a <;> cases b <;> first | rfl | exact nomatch h

structure PendingEvent where
  deadline : Nat
  severity : Severity
  parentIno : Nat
  parentRel : RelPath
  deriving DecidableEq

structure WdEntry where
  relPath : RelPath
  ino : Nat
  deriving DecidableEq

/-- An inode of a directory, and a name in it. -/
abbrev DebounceKey := Nat × Name

def IN_MODIFY : Nat := 0x002
def IN_ATTRIB : Nat := 0x004
def IN_MOVED_FROM : Nat := 0x040
def IN_CREATE : Nat := 0x100
def IN_DELETE : Nat := 0x200

/-- `none`: the event is about the watched directory itself. -/
structure InotifyEvent where
  wd : Nat
  mask : Nat
  name : Option Name

def severityOf (mask : Nat) : Severity :=
  if mask &&& (IN_DELETE ||| IN_MOVED_FROM) ≠ 0 then .delete
  else if mask &&& IN_MODIFY ≠ 0 then .modify
  else if mask &&& IN_ATTRIB ≠ 0 then .attr
  else .createOrMovedIn

structure WatchConfig where
  maxDirs : Nat
  debounceMs : Nat

structure BackingWatch where
  lru : List (RelPath × Nat)
  wdMap : Map Nat WdEntry
  debounce : Map DebounceKey PendingEvent

namespace BackingWatch

def new : BackingWatch := ⟨[], ∅, ∅⟩

/-- `lru.get` -/
def descriptor (w : BackingWatch) (path : RelPath) : Option Nat := w.lru.lookup path

/-- The least recent watch, when there is no room for another. -/
def victim (cfg : WatchConfig) (w : BackingWatch) : Option (RelPath × Nat) :=
  if max cfg.maxDirs 1 ≤ w.lru.length then w.lru.getLast? else none

def evict (cfg : WatchConfig) (w : BackingWatch) : BackingWatch :=
  match w.victim cfg with
  | none => w
  | some (_, wd) => { w with lru := w.lru.dropLast, wdMap := w.wdMap.erase wd }

/-- `added` is the descriptor of the new watch; `none`: the directory or the watch was refused. -/
def touchOrAdd (cfg : WatchConfig) (w : BackingWatch) (relPath : RelPath) (ino : Nat)
    (added : Option Nat) : BackingWatch :=
  match w.descriptor relPath with
  | some wd => { w with lru := (relPath, wd) :: w.lru.filter fun e => e.1 ≠ relPath }
  | none =>
    let w := w.evict cfg
    match added with
    | none => w
    | some wd => { w with lru := (relPath, wd) :: w.lru, wdMap := w.wdMap.insert wd ⟨relPath, ino⟩ }

/-- The entry and the name of an event that is recorded. -/
def source (w : BackingWatch) (ev : InotifyEvent) : Option (WdEntry × Name) :=
  match ev.name, w.wdMap.lookup ev.wd with
  | some name, some entry => some (entry, name)
  | _, _ => none

/-- Record or coalesce a raw inotify event into the debounce map. -/
def handleEvent (cfg : WatchConfig) (w : BackingWatch) (ev : InotifyEvent) (now : Nat) : BackingWatch :=
  match w.source ev with
  | none => w
  | some (entry, name) =>
    let severity := severityOf ev.mask
    let pending :=
      match w.debounce.lookup (entry.ino, name) with
      -- the window is open: it keeps its deadline
      | some p => if p.severity < severity then { p with severity := severity } else p
      | none => ⟨now + cfg.debounceMs, severity, entry.ino, entry.relPath⟩
    { w with debounce := w.debounce.insert (entry.ino, name) pending }

/-- The windows that are due. -/
def expired (w : BackingWatch) (now : Nat) : List (DebounceKey × PendingEvent) :=
  (w.debounce.entries.filter fun e => e.2.deadline ≤ now).map fun e => (e.1, e.2)

def drain (w : BackingWatch) (due : List (DebounceKey × PendingEvent)) : BackingWatch :=
  { w with debounce := due.foldl (fun m e => m.erase e.1) w.debounce }

/-! ## What is due -/

variable {w : BackingWatch} {now : Nat} {key : DebounceKey} {p : PendingEvent}

theorem mem_expired : (key, p) ∈ w.expired now ↔ w.debounce.lookup key = some p ∧ p.deadline ≤ now := by
  rw [expired, List.mem_map]
  constructor
  · rintro ⟨⟨k, q⟩, he, e⟩
    obtain ⟨rfl, rfl⟩ := Prod.mk.inj e
    obtain ⟨hm, hdue⟩ := List.mem_filter.mp he
    exact ⟨AList.mem_lookup_iff.mpr hm, of_decide_eq_true hdue⟩
  · rintro ⟨hl, hdue⟩
    exact ⟨⟨key, p⟩, List.mem_filter.mpr ⟨AList.mem_lookup_iff.mp hl, decide_eq_true hdue⟩, rfl⟩

theorem nodup_expired (w : BackingWatch) (now : Nat) : ((w.expired now).map Prod.fst).Nodup := by
  rw [expired, List.map_map]
  exact (AList.keys_nodup w.debounce).sublist ((List.filter_sublist).map Sigma.fst)

theorem lookup_drain (w : BackingWatch) (due : List (DebounceKey × PendingEvent)) (key : DebounceKey) :
    (w.drain due).debounce.lookup key =
      if key ∈ due.map Prod.fst then none else w.debounce.lookup key := by
  have h := Map.lookup_foldl_erase (due.map Prod.fst) w.debounce key
  rw [List.foldl_map] at h
  by_cases hm : key ∈ due.map Prod.fst
  · rw [if_pos hm] at h ⊢
    exact h
  · rw [if_neg hm] at h ⊢
    exact h

/-! ## What is evicted -/

variable {cfg : WatchConfig}

theorem wdMap_evict {k : Nat} {o : WdEntry} : (w.evict cfg).wdMap.lookup k = some o ↔
    w.wdMap.lookup k = some o ∧ ∀ q wd, w.victim cfg = some (q, wd) → k ≠ wd := by
  unfold evict
  cases w.victim cfg with
  | none => simp
  | some e =>
    obtain ⟨q, wd⟩ := e
    simp only [Map.lookup_erase_if]
    by_cases hk : k = wd
    · simp [hk]
    · simp [hk]

theorem lru_of_victim {q : RelPath} {wd : Nat} (h : w.victim cfg = some (q, wd)) :
    ∃ l, w.lru = l ++ [(q, wd)] := by
  rw [victim] at h
  split at h
  · exact List.getLast?_eq_some_iff.mp h
  · exact absurd h (by simp)

theorem descriptor_of_victim {q : RelPath} {wd : Nat} (h : w.victim cfg = some (q, wd)) :
    (w.descriptor q).isSome := by
  obtain ⟨l, hl⟩ := lru_of_victim h
  rw [descriptor, hl, List.lookup_isSome_iff]
  exact ⟨(q, wd), by simp, by simp⟩

/-- A path that is not the victim keeps its descriptor. -/
theorem descriptor_evict {p : RelPath} (hp : ∀ q wd, w.victim cfg = some (q, wd) → p ≠ q) :
    (w.evict cfg).descriptor p = w.descriptor p := by
  unfold evict
  cases hv : w.victim cfg with
  | none => rfl
  | some e =>
    obtain ⟨q, wd⟩ := e
    obtain ⟨l, hl⟩ := lru_of_victim hv
    simp only [descriptor, hl, List.dropLast_concat, List.lookup_append]
    have hpq : (p == q) = false := beq_false_of_ne (hp q wd hv)
    simp [List.lookup_cons, hpq]

theorem lookup_filter_ne {l : List (RelPath × Nat)} {p q : RelPath} (h : q ≠ p) :
    (l.filter fun e => e.1 ≠ p).lookup q = l.lookup q := by
  induction l with
  | nil => rfl
  | cons e l ih =>
    obtain ⟨k, wd⟩ := e
    by_cases hk : k = p
    · have hq : (q == k) = false := beq_false_of_ne (hk ▸ h)
      rw [List.filter_cons, if_neg (by simpa using hk), ih, List.lookup_cons, hq]
    · rw [List.filter_cons, if_pos (by simpa using hk), List.lookup_cons, List.lookup_cons, ih]

/-- A touch of a path in `lru` takes no path out of it. -/
theorem descriptor_promote (cfg : WatchConfig) {p : RelPath} (ino : Nat) {wd : Nat}
    (hp : w.descriptor p = some wd) (q : RelPath) :
    (w.touchOrAdd cfg p ino none).descriptor q = w.descriptor q := by
  simp only [touchOrAdd, hp]
  by_cases hq : q = p
  · rw [hq, hp, descriptor, List.lookup_cons, beq_self_eq_true]
  · rw [descriptor, List.lookup_cons, beq_false_of_ne hq]
    exact lookup_filter_ne hq

end BackingWatch

end FsCache
