import FsCache.Debounce

/- The watches and the kernel (backing_watch.rs).

   `lru` and `wdMap` are the watcher's picture of what the kernel watches. Here the kernel is
   beside it: the directories of the backing, the descriptor that each watched one has, and
   the events that wait to be read. Directories are created, removed and renamed at any time,
   outside the mount as well; a directory that is moved out of the backing keeps its watch.

   `touched` is the inode of the last touch of each path, until the path is evicted or
   changed, and `owed` is what that touch promised of an event. Nothing reads them.

   What is assumed: a directory that is watched gets the descriptor it has, another one any
   descriptor that no directory has, and a watch goes with its directory. The queue of events
   does not overflow.

   `events_recorded_iff`: every event is recorded as its directory's touch has it exactly when
     1. a touch of a path in `lru` finds its directory watched, with the touch's inode, and
     2. no watch is evicted that the kernel has for the directory at another touched path. -/

namespace FsCache
open Lib

/-- An event that waits to be read. -/
structure Queued where
  ev : InotifyEvent
  owed : Option WdEntry

structure Watching extends Debouncing where
  dirs : Map RelPath Nat
  watches : Map Nat Nat
  queue : List Queued
  touched : RelPath → Option Nat

inductive WatchingAction where
  /-- The directories are changed; those of `deleted` are no more. -/
  | change (dirs : Map RelPath Nat) (deleted : List Nat)
  /-- `fresh` is a descriptor that is free. -/
  | touch (relPath : RelPath) (ino : Nat) (accepted : Bool) (fresh : Nat)
  /-- Something happens to a name in a directory. -/
  | named (dir : Nat) (name : Name) (mask : Nat)
  | deliver (now : Nat)
  | tick (now : Nat) (due : List (DebounceKey × PendingEvent))

namespace Watching

/-- Before the root is touched. -/
def start (dirs : Map RelPath Nat) : Watching :=
  { Debouncing.start with dirs := dirs, watches := ∅, queue := [], touched := fun _ => none }

/-- The path of a directory. -/
def pathOf (s : Watching) (dir : Nat) : Option RelPath :=
  (s.dirs.entries.find? fun e => e.2 = dir).map Sigma.fst

/-- What the last touch of the directory promised. -/
def promise (s : Watching) (dir : Nat) : Option WdEntry :=
  (s.pathOf dir).bind fun p => (s.touched p).map fun ino => ⟨p, ino⟩

/-- Nothing is promised any more of the paths in `gone`. -/
def release (s : Watching) (gone : RelPath → Bool) : Watching :=
  { s with
    touched := fun p => if gone p then none else s.touched p
    queue := s.queue.map fun e => { e with owed := e.owed.filter fun o => !gone o.relPath } }

/-- The watch that `touch_or_add` takes away. -/
def letGo (s : Watching) : Option (RelPath × Nat) → Watching
  | none => s
  | some (q, wd) =>
    { s.release fun p => p = q with watches := s.watches.filter fun _ wd' => wd' ≠ wd }

def step (cfg : WatchConfig) (s : Watching) : WatchingAction → Option Watching
  | .change dirs deleted =>
    if dirs.values.Nodup ∧ dirs.lookup [] = s.dirs.lookup [] ∧ ∀ dir ∈ deleted, dir ∉ dirs.values then
      some { s.release fun p => dirs.lookup p ≠ s.dirs.lookup p with
        dirs := dirs
        watches := s.watches.filter fun dir _ => dir ∉ deleted }
    else none
  | .touch relPath ino accepted fresh =>
    match s.descriptor relPath with
    | some _ =>
      some { s with
        toBackingWatch := s.touchOrAdd cfg relPath ino none
        touched :=
          if (s.dirs.lookup relPath).isSome then Function.update s.touched relPath (some ino)
          else s.touched }
    | none =>
      let u := s.letGo (s.victim cfg)
      match if accepted then s.dirs.lookup relPath else none with
      | none => some { u with toBackingWatch := s.touchOrAdd cfg relPath ino none }
      | some dir =>
        let wd := (u.watches.lookup dir).getD fresh
        if fresh ∈ u.watches.values then none
        else
          some { u with
            toBackingWatch := s.touchOrAdd cfg relPath ino (some wd)
            watches := u.watches.insert dir wd
            touched := Function.update u.touched relPath (some ino) }
  | .named dir name mask =>
    match s.watches.lookup dir with
    | none => some s
    | some wd => some { s with queue := s.queue ++ [⟨⟨wd, mask, some name⟩, s.promise dir⟩] }
  | .deliver now =>
    match s.queue with
    | [] => none
    | e :: queue =>
      (s.toDebouncing.step cfg (.event e.ev now)).map fun d => { s with toDebouncing := d, queue := queue }
  | .tick now due =>
    (s.toDebouncing.step cfg (.tick now due)).map fun d => { s with toDebouncing := d }

/-- When the event is handled, it is recorded with the path and the inode. -/
def RecordedWith (cfg : WatchConfig) (s : Debouncing) (ev : InotifyEvent) (o : WdEntry) : Prop :=
  ∃ name, ev.name = some name ∧ ∀ now, ∃ s', s.step cfg (.event ev now) = some s' ∧
    s'.since (o.ino, name) = s.since (o.ino, name) ++ [⟨o, name, severityOf ev.mask, now⟩]

/-- Every event in the directory at a touched path is recorded as the touch has it: one that
happens now, and one that waits. -/
structure Effective (cfg : WatchConfig) (s : Watching) : Prop where
  named : ∀ p ino, s.touched p = some ino → ∃ dir wd,
    s.dirs.lookup p = some dir ∧ s.watches.lookup dir = some wd ∧
    ∀ name mask, RecordedWith cfg s.toDebouncing ⟨wd, mask, some name⟩ ⟨p, ino⟩
  queued : ∀ e ∈ s.queue, ∀ o, e.owed = some o → RecordedWith cfg s.toDebouncing e.ev o

/-- A touch does to the watches what it is for. -/
def Renews (cfg : WatchConfig) (s : Watching) : WatchingAction → Prop
  | .touch relPath ino _ _ =>
    if (s.descriptor relPath).isSome then
      ∀ dir, s.dirs.lookup relPath = some dir →
        ∃ wd, s.watches.lookup dir = some wd ∧ s.wdMap.lookup wd = some ⟨relPath, ino⟩
    else
      ∀ q wd, s.victim cfg = some (q, wd) → ∀ p dir, p ≠ q → (s.touched p).isSome →
        s.dirs.lookup p = some dir → s.watches.lookup dir ≠ some wd
  | _ => True

/-! ## What the watches and the queue keep -/

variable {cfg : WatchConfig} {s s' : Watching} {a : WatchingAction}

theorem recordedWith_iff {d : Debouncing} {ev : InotifyEvent} {o : WdEntry} :
    RecordedWith cfg d ev o ↔ ev.name.isSome ∧ d.wdMap.lookup ev.wd = some o := by
  obtain ⟨wd, mask, name⟩ := ev
  constructor
  · rintro ⟨name, rfl, h⟩
    obtain ⟨d', hs, hsince⟩ := h 0
    refine ⟨rfl, ?_⟩
    rw [← Option.some.inj hs] at hsince
    cases hl : d.wdMap.lookup wd with
    | none =>
      simp only [BackingWatch.source, hl] at hsince
      exact absurd hsince (by simp)
    | some o' =>
      simp only [BackingWatch.source, hl, Debouncing.record, Function.update_apply] at hsince
      split at hsince
      · next hkey =>
        rw [hkey] at hsince
        have he := List.append_cancel_left hsince
        simp only [List.cons.injEq, Noted.mk.injEq] at he
        rw [he.1.1]
      · exact absurd hsince (by simp)
  · rintro ⟨hname, hl⟩
    obtain ⟨name, rfl⟩ := Option.isSome_iff_exists.mp hname
    refine ⟨name, rfl, fun now => ⟨_, rfl, ?_⟩⟩
    simp only [BackingWatch.source, hl, Debouncing.record, Function.update_self]

/-- The directory at `p` is watched, and its events are taken for those of `p` and `ino`. -/
def InEffect (s : Watching) (p : RelPath) (ino : Nat) : Prop :=
  ∃ dir wd, s.dirs.lookup p = some dir ∧ s.watches.lookup dir = some wd ∧
    s.wdMap.lookup wd = some ⟨p, ino⟩

theorem effective_iff : s.Effective cfg ↔
    (∀ p ino, s.touched p = some ino → s.InEffect p ino) ∧
    ∀ e ∈ s.queue, ∀ o, e.owed = some o → e.ev.name.isSome ∧ s.wdMap.lookup e.ev.wd = some o := by
  constructor
  · rintro ⟨hnamed, hqueued⟩
    refine ⟨fun p ino ht => ?_, fun e he o ho => recordedWith_iff.mp (hqueued e he o ho)⟩
    obtain ⟨dir, wd, hdir, hwd, hrec⟩ := hnamed p ino ht
    exact ⟨dir, wd, hdir, hwd, (recordedWith_iff.mp (hrec ⟨[97], Eq.refl true⟩ 0)).2⟩
  · rintro ⟨heffect, hqueued⟩
    refine ⟨fun p ino ht => ?_, fun e he o ho => recordedWith_iff.mpr (hqueued e he o ho)⟩
    obtain ⟨dir, wd, hdir, hwd, hentry⟩ := heffect p ino ht
    exact ⟨dir, wd, hdir, hwd, fun name mask => recordedWith_iff.mpr ⟨rfl, hentry⟩⟩

/-- What every step keeps while the watches are effective. -/
structure Kept (s : Watching) : Prop where
  dirs : s.dirs.values.Nodup
  watches : ∀ dir dir' wd, s.watches.lookup dir = some wd → s.watches.lookup dir' = some wd → dir = dir'
  listed : ∀ p, (s.touched p).isSome → (s.descriptor p).isSome
  queue : ∀ e ∈ s.queue, ∀ o, e.owed = some o → (s.touched o.relPath).isSome ∧
    ∃ dir, s.dirs.lookup o.relPath = some dir ∧ s.watches.lookup dir = some e.ev.wd

theorem lookup_of_pathOf {dir : Nat} {p : RelPath} (h : s.pathOf dir = some p) :
    s.dirs.lookup p = some dir := by
  obtain ⟨⟨q, dir'⟩, hfind, rfl⟩ := Option.map_eq_some_iff.mp h
  obtain rfl : dir' = dir := by simpa using List.find?_some hfind
  exact AList.mem_lookup_iff.mpr (List.mem_of_find?_eq_some hfind)

theorem of_promise {dir : Nat} {o : WdEntry} (h : s.promise dir = some o) :
    s.dirs.lookup o.relPath = some dir ∧ s.touched o.relPath = some o.ino := by
  obtain ⟨p, hp, h⟩ := Option.bind_eq_some_iff.mp h
  obtain ⟨ino, hino, rfl⟩ := Option.map_eq_some_iff.mp h
  exact ⟨lookup_of_pathOf hp, hino⟩

theorem touched_release {g : RelPath → Bool} {p : RelPath} {i : Nat} :
    (s.release g).touched p = some i ↔ s.touched p = some i ∧ g p = false := by
  simp only [release]
  cases g p <;> simp

theorem queue_release {g : RelPath → Bool} {e : Queued} {o : WdEntry}
    (he : e ∈ (s.release g).queue) (ho : e.owed = some o) :
    g o.relPath = false ∧ ∃ e₀ ∈ s.queue, e₀.ev = e.ev ∧ e₀.owed = some o := by
  obtain ⟨e₀, he₀, rfl⟩ := List.mem_map.mp he
  obtain ⟨ho, hgone⟩ := Option.filter_eq_some_iff.mp ho
  exact ⟨by simpa using hgone, e₀, he₀, rfl, ho⟩

/-! ## The watch that goes -/

variable {v : Option (RelPath × Nat)}

theorem watches_letGo {dir k : Nat} : (s.letGo v).watches.lookup dir = some k ↔
    s.watches.lookup dir = some k ∧ ∀ q wd, v = some (q, wd) → k ≠ wd := by
  cases v with
  | none => simp [letGo]
  | some e =>
    obtain ⟨q, wd⟩ := e
    simp only [letGo, Map.lookup_filter, decide_eq_true_eq]
    refine and_congr_right fun _ => ⟨fun h q' wd' e => ?_, fun h => h q wd rfl⟩
    obtain ⟨rfl, rfl⟩ := Prod.mk.inj (Option.some.inj e)
    exact h

theorem touched_letGo {p : RelPath} {ino : Nat} : (s.letGo v).touched p = some ino ↔
    s.touched p = some ino ∧ ∀ q wd, v = some (q, wd) → p ≠ q := by
  cases v with
  | none => simp [letGo]
  | some e =>
    obtain ⟨q, wd⟩ := e
    show (s.release fun p => p = q).touched p = some ino ↔ _
    rw [touched_release, decide_eq_false_iff_not]
    refine and_congr_right fun _ => ⟨fun h q' wd' e => ?_, fun h => h q wd rfl⟩
    obtain ⟨rfl, rfl⟩ := Prod.mk.inj (Option.some.inj e)
    exact h

theorem queue_letGo {e : Queued} {o : WdEntry} (he : e ∈ (s.letGo v).queue) (ho : e.owed = some o) :
    (∀ q wd, v = some (q, wd) → o.relPath ≠ q) ∧ ∃ e₀ ∈ s.queue, e₀.ev = e.ev ∧ e₀.owed = some o := by
  cases v with
  | none => exact ⟨by simp, e, he, rfl, ho⟩
  | some x =>
    obtain ⟨q, wd⟩ := x
    have he : e ∈ (s.release fun p => p = q).queue := he
    obtain ⟨hgone, h⟩ := queue_release he ho
    refine ⟨fun q' wd' e => ?_, h⟩
    obtain ⟨rfl, rfl⟩ := Prod.mk.inj (Option.some.inj e)
    exact of_decide_eq_false hgone

@[simp] theorem dirs_letGo : (s.letGo v).dirs = s.dirs := by
  cases v <;> rfl

/-- After `letGo`, before a watch is added. -/
def evicted (cfg : WatchConfig) (s : Watching) : Watching :=
  { s.letGo (s.victim cfg) with toBackingWatch := s.evict cfg }

/-- Evicting a watch leaves the others effective, unless the kernel has it for one of them. -/
theorem effective_evicted (he : s.Effective cfg) (hk : s.Kept)
    (hok : ∀ q wd, s.victim cfg = some (q, wd) → ∀ p dir, p ≠ q → (s.touched p).isSome →
      s.dirs.lookup p = some dir → s.watches.lookup dir ≠ some wd) :
    (s.evicted cfg).Effective cfg ∧ (s.evicted cfg).Kept := by
  obtain ⟨heffect, hqueued⟩ := effective_iff.mp he
  -- a path that is still touched keeps its watch
  have hother : ∀ p dir k, (s.touched p).isSome → (∀ q wd, s.victim cfg = some (q, wd) → p ≠ q) →
      s.dirs.lookup p = some dir → s.watches.lookup dir = some k →
      ∀ q wd, s.victim cfg = some (q, wd) → k ≠ wd := by
    rintro p dir k ht hp hdir hwatch q wd hv rfl
    exact hok q k hv p dir (hp q k hv) ht hdir hwatch
  refine ⟨effective_iff.mpr ⟨fun p ino ht => ?_, fun e hm o ho => ?_⟩, ?_, ?_, fun p ht => ?_,
    fun e hm o ho => ?_⟩
  · obtain ⟨ht, hp⟩ := touched_letGo.mp ht
    obtain ⟨dir, wd, hdir, hwatch, hentry⟩ := heffect p ino ht
    have hne := hother p dir wd (Option.isSome_of_mem ht) hp hdir hwatch
    exact ⟨dir, wd, by rwa [evicted, dirs_letGo], watches_letGo.mpr ⟨hwatch, hne⟩,
      BackingWatch.wdMap_evict.mpr ⟨hentry, hne⟩⟩
  · obtain ⟨hp, e₀, he₀, hev, ho₀⟩ := queue_letGo hm ho
    obtain ⟨hname, hentry⟩ := hqueued e₀ he₀ o ho₀
    obtain ⟨ht, dir, hdir, hwatch⟩ := hk.queue e₀ he₀ o ho₀
    rw [hev] at hname hentry hwatch
    exact ⟨hname, BackingWatch.wdMap_evict.mpr ⟨hentry, hother o.relPath dir e.ev.wd ht hp hdir hwatch⟩⟩
  · rw [evicted, dirs_letGo]
    exact hk.dirs
  · intro dir dir' wd h h'
    exact hk.watches dir dir' wd (watches_letGo.mp h).1 (watches_letGo.mp h').1
  · obtain ⟨ino, ht⟩ := Option.isSome_iff_exists.mp ht
    obtain ⟨ht, hp⟩ := touched_letGo.mp ht
    show ((s.evict cfg).descriptor p).isSome
    rw [BackingWatch.descriptor_evict hp]
    exact hk.listed p (Option.isSome_of_mem ht)
  · obtain ⟨hp, e₀, he₀, hev, ho₀⟩ := queue_letGo hm ho
    obtain ⟨ht, dir, hdir, hwatch⟩ := hk.queue e₀ he₀ o ho₀
    rw [hev] at hwatch
    refine ⟨?_, dir, by rwa [evicted, dirs_letGo],
      watches_letGo.mpr ⟨hwatch, hother o.relPath dir e.ev.wd ht hp hdir hwatch⟩⟩
    obtain ⟨ino, ht⟩ := Option.isSome_iff_exists.mp ht
    exact Option.isSome_of_mem (touched_letGo.mpr ⟨ht, hp⟩)

/-- With a new watch. -/
def watched (s : Watching) (p : RelPath) (ino dir wd : Nat) : Watching :=
  { s with
    lru := (p, wd) :: s.lru
    wdMap := s.wdMap.insert wd ⟨p, ino⟩
    watches := s.watches.insert dir wd
    touched := Function.update s.touched p (some ino) }

/-- A watch on the directory at a path that has none leaves the others effective. -/
theorem effective_watched {p : RelPath} {ino dir fresh : Nat} (he : s.Effective cfg) (hk : s.Kept)
    (hnone : s.descriptor p = none) (hdir : s.dirs.lookup p = some dir)
    (hfresh : fresh ∉ s.watches.values) :
    (s.watched p ino dir ((s.watches.lookup dir).getD fresh)).Effective cfg ∧
      (s.watched p ino dir ((s.watches.lookup dir).getD fresh)).Kept := by
  obtain ⟨heffect, hqueued⟩ := effective_iff.mp he
  set wd := (s.watches.lookup dir).getD fresh with hwd
  -- no other directory has the descriptor
  have hown : ∀ dir', s.watches.lookup dir' = some wd → dir' = dir := by
    intro dir' h'
    cases hl : s.watches.lookup dir with
    | none =>
      rw [hl, Option.getD_none] at hwd
      exact absurd (Map.mem_values.mpr ⟨dir', hwd ▸ h'⟩) hfresh
    | some k =>
      rw [hl, Option.getD_some] at hwd
      exact hk.watches dir' dir wd h' (hwd ▸ hl)
  have hother : ∀ {q dir' k}, q ≠ p → s.dirs.lookup q = some dir' → s.watches.lookup dir' = some k →
      dir' ≠ dir ∧ k ≠ wd := by
    intro q dir' k hq hdir' hwatch
    have hne : dir' ≠ dir := fun e => hq (Map.key_unique hk.dirs (e ▸ hdir') hdir)
    exact ⟨hne, fun e => hne (hown dir' (e ▸ hwatch))⟩
  have howed : ∀ e ∈ s.queue, ∀ o, e.owed = some o → o.relPath ≠ p := by
    rintro e hm o ho rfl
    have hlisted := hk.listed o.relPath (hk.queue e hm o ho).1
    rw [hnone] at hlisted
    exact absurd hlisted (by simp)
  refine ⟨effective_iff.mpr ⟨fun q ino' ht => ?_, fun e hm o ho => ?_⟩, hk.dirs, ?_, fun q ht => ?_,
    fun e hm o ho => ?_⟩
  · by_cases hq : q = p
    · subst hq
      obtain rfl : ino = ino' := by simpa [watched] using ht
      exact ⟨dir, wd, hdir, AList.lookup_insert _, AList.lookup_insert _⟩
    · have ht : s.touched q = some ino' := by simpa [watched, hq] using ht
      obtain ⟨dir', k, hdir', hwatch, hentry⟩ := heffect q ino' ht
      obtain ⟨hne, hkne⟩ := hother hq hdir' hwatch
      exact ⟨dir', k, hdir', (AList.lookup_insert_ne hne).trans hwatch,
        (AList.lookup_insert_ne hkne).trans hentry⟩
  · obtain ⟨hname, hentry⟩ := hqueued e hm o ho
    obtain ⟨-, dir', hdir', hwatch⟩ := hk.queue e hm o ho
    exact ⟨hname, (AList.lookup_insert_ne (hother (howed e hm o ho) hdir' hwatch).2).trans hentry⟩
  · intro d d' k h h'
    simp only [watched, Map.lookup_insert_if] at h h'
    split at h <;> split at h'
    · next hd hd' => exact hd.trans hd'.symm
    · next hd hd' =>
      rw [← Option.some.inj h] at h'
      exact absurd (hown d' h') hd'
    · next hd hd' =>
      rw [← Option.some.inj h'] at h
      exact absurd (hown d h) hd
    · exact hk.watches d d' k h h'
  · show (((p, wd) :: s.lru).lookup q).isSome
    rw [List.lookup_cons]
    by_cases hq : q = p
    · rw [hq, beq_self_eq_true]
      rfl
    · rw [beq_false_of_ne hq]
      exact hk.listed q (by simpa [watched, hq] using ht)
  · obtain ⟨ht, dir', hdir', hwatch⟩ := hk.queue e hm o ho
    have hp := howed e hm o ho
    exact ⟨by simpa [watched, hp] using ht, dir', hdir',
      (AList.lookup_insert_ne (hother hp hdir' hwatch).1).trans hwatch⟩

theorem step_touch_new {p : RelPath} (h : s.descriptor p = none) (ino : Nat) (accepted : Bool)
    (fresh : Nat) : step cfg s (.touch p ino accepted fresh) =
      match if accepted then s.dirs.lookup p else none with
      | none => some (s.evicted cfg)
      | some dir =>
        if fresh ∈ (s.evicted cfg).watches.values then none
        else some ((s.evicted cfg).watched p ino dir
          (((s.evicted cfg).watches.lookup dir).getD fresh)) := by
  simp only [step, h, BackingWatch.touchOrAdd]
  split <;> rfl

/-- Changes to other directories leave the watches effective. -/
theorem effective_change {dirs : Map RelPath Nat} {deleted : List Nat} (he : s.Effective cfg) (hk : s.Kept)
    (hs : step cfg s (.change dirs deleted) = some s') : s'.Effective cfg ∧ s'.Kept := by
  obtain ⟨heffect, hqueued⟩ := effective_iff.mp he
  simp only [step] at hs
  split at hs
  · next hguard =>
    obtain ⟨hnd, -, hdeleted⟩ := hguard
    obtain rfl := Option.some.inj hs
    have htouched {p : RelPath} {i : Nat} := touched_release (s := s) (p := p) (i := i)
      (g := fun p => dirs.lookup p ≠ s.dirs.lookup p)
    have hqueue {e : Queued} {o : WdEntry} := queue_release (s := s) (e := e) (o := o)
      (g := fun p => dirs.lookup p ≠ s.dirs.lookup p)
    -- a path that is as it was has its watch
    have hsame : ∀ p dir, decide (dirs.lookup p ≠ s.dirs.lookup p) = false → s.dirs.lookup p = some dir →
        dirs.lookup p = some dir ∧ dir ∉ deleted := by
      intro p dir hp hdir
      have hp : dirs.lookup p = some dir := (not_not.mp (of_decide_eq_false hp)).trans hdir
      exact ⟨hp, fun hm => hdeleted dir hm (Map.mem_values.mpr ⟨p, hp⟩)⟩
    refine ⟨effective_iff.mpr ⟨fun p ino ht => ?_, fun e hm o ho => ?_⟩, hnd, ?_, fun p ht => ?_,
      fun e hm o ho => ?_⟩
    · obtain ⟨ht, hgone⟩ := htouched.mp ht
      obtain ⟨dir, wd, hdir, hwatch, hentry⟩ := heffect p ino ht
      obtain ⟨hdir', hnot⟩ := hsame p dir hgone hdir
      exact ⟨dir, wd, hdir', Map.lookup_filter.mpr ⟨hwatch, decide_eq_true hnot⟩, hentry⟩
    · obtain ⟨-, e₀, he₀, hev, ho₀⟩ := hqueue hm ho
      exact hev ▸ hqueued e₀ he₀ o ho₀
    · intro d d' wd h h'
      exact hk.watches d d' wd (Map.lookup_filter.mp h).1 (Map.lookup_filter.mp h').1
    · obtain ⟨ino, ht⟩ := Option.isSome_iff_exists.mp ht
      exact hk.listed p (Option.isSome_of_mem (htouched.mp ht).1)
    · obtain ⟨hgone, e₀, he₀, hev, ho₀⟩ := hqueue hm ho
      obtain ⟨ht, dir, hdir, hwatch⟩ := hk.queue e₀ he₀ o ho₀
      obtain ⟨hdir', hnot⟩ := hsame o.relPath dir hgone hdir
      obtain ⟨ino, ht⟩ := Option.isSome_iff_exists.mp ht
      exact ⟨Option.isSome_of_mem (htouched.mpr ⟨ht, hgone⟩), dir, hdir',
        Map.lookup_filter.mpr ⟨hev ▸ hwatch, decide_eq_true hnot⟩⟩
  · exact absurd hs (by simp)

/-- What is touched after a touch of a path in `lru`. -/
theorem touched_known {p q : RelPath} {ino i wd : Nat} {accepted : Bool} {fresh : Nat}
    (hd : s.descriptor p = some wd) (hs : step cfg s (.touch p ino accepted fresh) = some s') :
    s'.touched q = some i ↔
      if (s.dirs.lookup p).isSome ∧ q = p then ino = i else s.touched q = some i := by
  simp only [step, hd] at hs
  rw [← Option.some.inj hs]
  by_cases hp : (s.dirs.lookup p).isSome
  · by_cases hq : q = p
    · simp [hp, hq]
    · simp [hp, hq]
  · simp [hp]

/-- A touch of a path in `lru` leaves the watches effective, if that of the path is. -/
theorem effective_known {p : RelPath} {ino wd : Nat} {accepted : Bool} {fresh : Nat}
    (he : s.Effective cfg) (hk : s.Kept) (hd : s.descriptor p = some wd)
    (hok : ∀ dir, s.dirs.lookup p = some dir →
      ∃ wd, s.watches.lookup dir = some wd ∧ s.wdMap.lookup wd = some ⟨p, ino⟩)
    (hs : step cfg s (.touch p ino accepted fresh) = some s') : s'.Effective cfg ∧ s'.Kept := by
  obtain ⟨heffect, hqueued⟩ := effective_iff.mp he
  have htouched {q : RelPath} {i : Nat} := touched_known (q := q) (i := i) hd hs
  have hdescriptor : ∀ q, s'.descriptor q = s.descriptor q := by
    intro q
    rw [← BackingWatch.descriptor_promote cfg ino hd q]
    simp only [step, hd] at hs
    rw [← Option.some.inj hs]
  simp only [step, hd] at hs
  have hs := Option.some.inj hs
  have hdirs : s'.dirs = s.dirs := by rw [← hs]
  have hwatches : s'.watches = s.watches := by rw [← hs]
  have hqueue : s'.queue = s.queue := by rw [← hs]
  have hwd : s'.wdMap = s.wdMap := by
    rw [← hs]
    simp only [BackingWatch.touchOrAdd, hd]
  have hin : ∀ q ino', s'.touched q = some ino' → s.InEffect q ino' := by
    intro q ino' ht
    have ht := htouched.mp ht
    split at ht
    · next hq =>
      obtain ⟨hp, rfl⟩ := hq
      obtain rfl := ht
      obtain ⟨dir, hdir⟩ := Option.isSome_iff_exists.mp hp
      obtain ⟨k, hwatch, hentry⟩ := hok dir hdir
      exact ⟨dir, k, hdir, hwatch, hentry⟩
    · exact heffect q ino' ht
  refine ⟨effective_iff.mpr ⟨fun q ino' ht => ?_, ?_⟩, hdirs ▸ hk.dirs, hwatches ▸ hk.watches,
    fun q ht => ?_, ?_⟩
  · have h := hin q ino' ht
    rwa [InEffect, ← hdirs, ← hwatches, ← hwd] at h
  · rwa [hqueue, hwd]
  · rw [hdescriptor]
    by_cases hq : q = p
    · rw [hq, hd]
      rfl
    · obtain ⟨ino', ht⟩ := Option.isSome_iff_exists.mp ht
      have ht := htouched.mp ht
      rw [if_neg fun h => hq h.2] at ht
      exact hk.listed q (Option.isSome_of_mem ht)
  · rw [hqueue, hdirs, hwatches]
    intro e hm o ho
    obtain ⟨ht, hwatch⟩ := hk.queue e hm o ho
    obtain ⟨ino', ht⟩ := Option.isSome_iff_exists.mp ht
    refine ⟨?_, hwatch⟩
    by_cases hq : (s.dirs.lookup p).isSome ∧ o.relPath = p
    · exact Option.isSome_of_mem (htouched.mpr (by rw [if_pos hq]))
    · exact Option.isSome_of_mem (htouched.mpr (by rwa [if_neg hq]))

/-- An event waits with what its directory's touch has promised. -/
theorem effective_named {dir : Nat} {name : Name} {mask : Nat} (he : s.Effective cfg) (hk : s.Kept)
    (hs : step cfg s (.named dir name mask) = some s') : s'.Effective cfg ∧ s'.Kept := by
  obtain ⟨heffect, hqueued⟩ := effective_iff.mp he
  simp only [step] at hs
  split at hs
  · exact Option.some.inj hs ▸ ⟨he, hk⟩
  · next wd hwatch =>
    obtain rfl := Option.some.inj hs
    have hnew : ∀ {e : Queued} {o}, e ∈ s.queue ++ [⟨⟨wd, mask, some name⟩, s.promise dir⟩] →
        e.owed = some o → e ∈ s.queue ∨ e.ev = ⟨wd, mask, some name⟩ ∧
          s.dirs.lookup o.relPath = some dir ∧ s.touched o.relPath = some o.ino := by
      intro e o hm ho
      rcases List.mem_append.mp hm with hm | hm
      · exact .inl hm
      · obtain rfl := List.mem_singleton.mp hm
        exact .inr ⟨rfl, of_promise ho⟩
    refine ⟨effective_iff.mpr ⟨heffect, fun e hm o ho => ?_⟩, hk.dirs, hk.watches, hk.listed,
      fun e hm o ho => ?_⟩
    · rcases hnew hm ho with hm | ⟨hev, hdir, ht⟩
      · exact hqueued e hm o ho
      · obtain ⟨dir', k, hdir', hwatch', hentry⟩ := heffect o.relPath o.ino ht
        obtain rfl : dir' = dir := Option.some.inj (hdir'.symm.trans hdir)
        obtain rfl : k = wd := Option.some.inj (hwatch'.symm.trans hwatch)
        rw [hev]
        exact ⟨rfl, hentry⟩
    · rcases hnew hm ho with hm | ⟨hev, hdir, ht⟩
      · exact hk.queue e hm o ho
      · exact ⟨Option.isSome_of_mem ht, dir, hdir, by rw [hev]; exact hwatch⟩

/-- The watcher's other steps leave the watches alone. -/
theorem effective_of_watcher {d : Debouncing} {queue : List Queued} (he : s.Effective cfg) (hk : s.Kept)
    (hd : d.lru = s.lru ∧ d.wdMap = s.wdMap) (hq : ∀ e ∈ queue, e ∈ s.queue) :
    Effective cfg { s with toDebouncing := d, queue := queue } ∧
      Kept { s with toDebouncing := d, queue := queue } := by
  obtain ⟨heffect, hqueued⟩ := effective_iff.mp he
  obtain ⟨hlru, hwd⟩ := hd
  refine ⟨effective_iff.mpr ⟨fun p ino ht => ?_, fun e hm o ho => ?_⟩, hk.dirs, hk.watches,
    fun p ht => ?_, fun e hm => hk.queue e (hq e hm)⟩
  · obtain ⟨dir, wd, hdir, hwatch, hentry⟩ := heffect p ino ht
    exact ⟨dir, wd, hdir, hwatch, by rwa [hwd]⟩
  · rw [hwd]
    exact hqueued e (hq e hm) o ho
  · rw [BackingWatch.descriptor, hlru]
    exact hk.listed p ht

/-- A step that meets its condition keeps the watches effective. -/
theorem Effective.step (he : s.Effective cfg) (hk : s.Kept) (hok : Renews cfg s a)
    (hs : step cfg s a = some s') : s'.Effective cfg ∧ s'.Kept := by
  cases a with
  | change dirs deleted => exact effective_change he hk hs
  | named dir name mask => exact effective_named he hk hs
  | touch p ino accepted fresh =>
    cases hd : s.descriptor p with
    | some wd =>
      simp only [Renews, hd, Option.isSome_some, if_true] at hok
      exact effective_known he hk hd hok hs
    | none =>
      simp only [Renews, hd, Option.isSome_none, Bool.false_eq_true, if_false] at hok
      obtain ⟨he', hk'⟩ := effective_evicted he hk hok
      rw [step_touch_new hd] at hs
      split at hs
      · exact Option.some.inj hs ▸ ⟨he', hk'⟩
      · next dir hdir =>
        split at hs
        · exact absurd hs (by simp)
        · next hfresh =>
          rw [← Option.some.inj hs]
          have hdir : s.dirs.lookup p = some dir := by
            cases accepted with
            | true => exact hdir
            | false => exact absurd hdir (by simp)
          refine effective_watched he' hk' ?_ (by rwa [evicted, dirs_letGo]) hfresh
          show (s.evict cfg).descriptor p = none
          rw [BackingWatch.descriptor_evict, hd]
          rintro q wd hv rfl
          exact absurd (BackingWatch.descriptor_of_victim hv) (by simp [hd])
  | deliver now =>
    simp only [Watching.step] at hs
    split at hs
    · exact absurd hs (by simp)
    · next e queue hq =>
      obtain ⟨d, hd, rfl⟩ := Option.map_eq_some_iff.mp hs
      exact effective_of_watcher he hk (Debouncing.watches_of_event hd)
        fun e' hm => hq ▸ List.mem_cons_of_mem e hm
  | tick now due =>
    obtain ⟨d, hd, rfl⟩ := Option.map_eq_some_iff.mp hs
    exact effective_of_watcher he hk (Debouncing.watches_of_tick hd) fun _ hm => hm

/-- And one that does not leaves a touched path without its watch. -/
theorem renews_of_effective (hk : s.Kept) (hs : step cfg s a = some s') (he : s'.Effective cfg) :
    Renews cfg s a := by
  have heffect := (effective_iff.mp he).1
  cases a with
  | touch p ino accepted fresh =>
    cases hd : s.descriptor p with
    | some wd =>
      simp only [Renews, hd, Option.isSome_some, if_true]
      intro dir hdir
      have hp : (s.dirs.lookup p).isSome := Option.isSome_of_mem hdir
      obtain ⟨dir', k, hdir', hwatch, hentry⟩ :=
        heffect p ino ((touched_known hd hs).mpr (by rw [if_pos ⟨hp, rfl⟩]))
      simp only [step, hd] at hs
      rw [← Option.some.inj hs] at hdir' hwatch hentry
      obtain rfl : dir = dir' := Option.some.inj (hdir.symm.trans hdir')
      simp only [BackingWatch.touchOrAdd, hd] at hentry
      exact ⟨k, hwatch, hentry⟩
    | none =>
      simp only [Renews, hd, Option.isSome_none, Bool.false_eq_true, if_false]
      intro q wd hv r dir hr ht hdir hwatch
      obtain ⟨i, hi⟩ := Option.isSome_iff_exists.mp ht
      -- `r` is still touched, and its directory is not watched
      have hi' : (s.evicted cfg).touched r = some i := by
        refine touched_letGo.mpr ⟨hi, fun q' wd' e => ?_⟩
        obtain ⟨rfl, -⟩ := Prod.mk.inj (Option.some.inj (hv.symm.trans e))
        exact hr
      have hgone : ∀ k, (s.evicted cfg).watches.lookup dir ≠ some k := by
        intro k hk'
        obtain ⟨hk', hne⟩ := watches_letGo.mp hk'
        exact hne q wd hv (Option.some.inj (hk'.symm.trans hwatch))
      have hrp : r ≠ p := by
        rintro rfl
        have hlisted := hk.listed r ht
        rw [hd] at hlisted
        exact absurd hlisted (by simp)
      have hdirs : (s.evicted cfg).dirs = s.dirs := dirs_letGo
      rw [step_touch_new hd] at hs
      split at hs
      · obtain rfl := Option.some.inj hs
        obtain ⟨dir', k, hdir', hk', -⟩ := heffect r i hi'
        rw [hdirs, hdir] at hdir'
        exact hgone k (Option.some.inj hdir' ▸ hk')
      · next dir₂ hdir₂ =>
        split at hs
        · exact absurd hs (by simp)
        · obtain rfl := Option.some.inj hs
          have hdir₂ : s.dirs.lookup p = some dir₂ := by
            cases accepted with
            | true => exact hdir₂
            | false => exact absurd hdir₂ (by simp)
          obtain ⟨dir', k, hdir', hk', -⟩ := heffect r i (by simpa [watched, hrp] using hi')
          have hdir' : s.dirs.lookup r = some dir' := hdirs ▸ hdir'
          obtain rfl : dir = dir' := Option.some.inj (hdir.symm.trans hdir')
          have hne : dir ≠ dir₂ := fun e => hrp (Map.key_unique hk.dirs hdir (e ▸ hdir₂))
          exact hgone k ((AList.lookup_insert_ne hne).symm.trans hk')
  | _ => trivial

theorem effective_start {c : WatchConfig} {dirs : Map RelPath Nat} (h : dirs.values.Nodup) :
    (start dirs).Effective c ∧ (start dirs).Kept := by
  have hnone : ∀ p, (start dirs).touched p = none := fun _ => rfl
  refine ⟨⟨fun p ino ht => absurd (ht.symm.trans (hnone p)) (by simp), by simp [start]⟩, h, ?_,
    fun p ht => absurd ht (by simp [hnone]), by simp [start]⟩
  intro dir dir' wd hwatch
  exact absurd hwatch (by simp [start])

/-- All along a run, every event is recorded as the touch of its directory has it exactly when
every touch meets its condition. -/
theorem events_recorded_iff (cfg : WatchConfig) (dirs : Map RelPath Nat) (as : List WatchingAction)
    (s : Watching) (h : run (step cfg) (start dirs) as = some s) (hnd : dirs.values.Nodup) :
    (∀ bs u, bs <+: as → run (step cfg) (start dirs) bs = some u → u.Effective cfg) ↔
      Along (step cfg) (Renews cfg) (start dirs) as := by
  obtain ⟨he, hk⟩ := effective_start (c := cfg) hnd
  refine always_iff_along (Effective cfg) (fun u => u.Effective cfg → u.Kept) ?_ h he fun _ => hk
  intro u a u' he hk hs
  have hiff : u'.Effective cfg ↔ Renews cfg u a :=
    ⟨renews_of_effective (hk he) hs, fun hok => (he.step (hk he) hok hs).1⟩
  exact ⟨fun he' => (he.step (hk he) (hiff.mp he') hs).2, hiff⟩

section Recreated

private def album : Name := ⟨[97], Eq.refl true⟩
private def track : Name := ⟨[116], Eq.refl true⟩

private def shelf (dirs : List (RelPath × Nat)) : Map RelPath Nat :=
  dirs.foldl (fun m e => m.insert e.1 e.2) ∅

/-- The root and a directory are looked up, and a file in the directory is changed. -/
def played : List WatchingAction :=
  [.touch [] 1 true 7, .touch [album] 5 true 8, .named 20 track IN_MODIFY, .deliver 10]

theorem played_recorded : ∃ s,
    run (step ⟨4, 3000⟩) (start (shelf [([], 10), ([album], 20)])) played = some s ∧
    ∀ bs u, bs <+: played → run (step ⟨4, 3000⟩) (start (shelf [([], 10), ([album], 20)])) bs = some u →
      u.Effective ⟨4, 3000⟩ := by
  refine ⟨_, rfl, (events_recorded_iff ⟨4, 3000⟩ _ played _ rfl (by decide)).mpr ?_⟩
  -- there is room for both watches
  have hroom : ∀ (s : Watching) p ino accepted fresh, s.descriptor p = none → s.lru.length < 4 →
      Renews ⟨4, 3000⟩ s (.touch p ino accepted fresh) := by
    intro s p ino accepted fresh hd hlen
    simp only [Renews, hd, Option.isSome_none, Bool.false_eq_true, if_false]
    intro q wd hv
    rw [BackingWatch.victim, if_neg (by simpa using hlen)] at hv
    exact absurd hv (by simp)
  refine (along_cons rfl).mpr ⟨hroom _ _ _ _ _ rfl (by decide), ?_⟩
  refine (along_cons rfl).mpr ⟨hroom _ _ _ _ _ rfl (by decide), ?_⟩
  exact (along_cons rfl).mpr ⟨trivial, (along_cons rfl).mpr ⟨trivial, trivial⟩⟩

/-- The directory is removed, made anew and looked up again. -/
def recreated : List WatchingAction :=
  [.touch [] 1 true 7, .touch [album] 5 true 8, .change (shelf [([], 10)]) [20],
    .change (shelf [([], 10), ([album], 21)]) [], .touch [album] 5 true 9]

/-- It is touched, and nothing that happens in it is seen. -/
theorem recreated_not_recorded : ∃ s,
    run (step ⟨4, 3000⟩) (start (shelf [([], 10), ([album], 20)])) recreated = some s ∧
    s.touched [album] = some 5 ∧ s.dirs.lookup [album] = some 21 ∧ s.queue = [] ∧
    (∀ name mask, step ⟨4, 3000⟩ s (.named 21 name mask) = some s) ∧ ¬s.Effective ⟨4, 3000⟩ := by
  refine ⟨_, rfl, rfl, rfl, rfl, fun _ _ => rfl, fun h => ?_⟩
  obtain ⟨dir, wd, hdir, hwatch, -⟩ := h.named [album] 5 rfl
  obtain rfl : 21 = dir := Option.some.inj hdir
  have hnone : (none : Option Nat) = some wd := hwatch
  exact absurd hnone (by simp)

end Recreated

end Watching

end FsCache
