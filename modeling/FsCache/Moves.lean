import FsCache.Rename
import FsCache.Failures

/- What a request does to the inode table.

   A request other than a forget does one of three things (`Moves`): it counts some paths for
   which nothing is sent, it counts one whose entry is sent, or it drops what is at or below a
   path. A lookup that is answered ENOENT and a readdir are of the first kind.

   `moves_handle`: so does every handler of the mount. -/

namespace FsCache
open Lib

/-- An entry that is counted once more. -/
def InodeEntry.counted (e : InodeEntry) : InodeEntry := { e with refcount := min (e.refcount + 1) u64Max }

namespace InodeTable

variable {t t' : InodeTable} {p : RelPath} {i : Nat}

/-! ## What a step does to the entries -/

/-- What was known is counted once more, what was not is new. -/
theorem getOrCreate_cases (h : t.Leads) (p : RelPath) :
    (∃ ino e, t.byIno.lookup ino = some e ∧ t.getOrCreate p =
      ({ t with byIno := t.byIno.insert ino e.counted }, ino)) ∨
    t.getOrCreate p =
      (⟨t.byIno.insert t.nextIno ⟨p, 1⟩, t.byPath.insert p t.nextIno, t.nextIno + 1⟩, t.nextIno) := by
  unfold getOrCreate
  cases hl : t.byPath.lookup p with
  | some ino =>
    obtain ⟨e, he, -⟩ := h.entry hl
    exact .inl ⟨ino, e, he, by simp [he, InodeEntry.counted]⟩
  | none => exact .inr rfl

/-- An entry stays, and only the one that is returned is counted. -/
theorem entry_getOrCreate (h : t.Led) (p : RelPath) {e : InodeEntry} (he : t.byIno.lookup i = some e) :
    (t.getOrCreate p).1.byIno.lookup i = some (if (t.getOrCreate p).2 = i then e.counted else e) := by
  rcases getOrCreate_cases h.leads p with ⟨ino, x, hx, heq⟩ | heq
  · rw [heq]
    simp only [Map.lookup_insert_if]
    by_cases hi : i = ino
    · subst hi
      obtain rfl := Option.some.inj (he.symm.trans hx)
      simp
    · rw [if_neg hi, if_neg (Ne.symm hi), he]
  · have hi : i ≠ t.nextIno := (h.issued i e he).ne
    rw [heq]
    simp only [Map.lookup_insert_if]
    rw [if_neg hi, if_neg (Ne.symm hi), he]

/-- A new entry has the next number, and is counted once. -/
theorem entry_of_getOrCreate (h : t.Led) {p : RelPath} {e : InodeEntry} (hnone : t.byIno.lookup i = none)
    (he : (t.getOrCreate p).1.byIno.lookup i = some e) :
    i = t.nextIno ∧ (t.getOrCreate p).2 = i ∧ e.refcount = 1 := by
  rcases getOrCreate_cases h.leads p with ⟨ino, x, hx, heq⟩ | heq
  · rw [heq, Map.lookup_insert_if] at he
    split at he
    · next hi => exact absurd (hx.symm.trans (hi ▸ hnone)) (by simp)
    · exact absurd (he.symm.trans hnone) (by simp)
  · rw [heq, Map.lookup_insert_if] at he
    split at he
    · next hi =>
      obtain rfl := Option.some.inj he
      exact ⟨hi, by rw [heq, hi], rfl⟩
    · exact absurd (he.symm.trans hnone) (by simp)

theorem lookup_returned (h : t.Leads) (p : RelPath) :
    ∃ e, (t.getOrCreate p).1.byIno.lookup (t.getOrCreate p).2 = some e := by
  rcases getOrCreate_cases h p with ⟨ino, x, -, heq⟩ | heq
  · exact ⟨_, by rw [heq]; exact AList.lookup_insert _⟩
  · exact ⟨_, by rw [heq]; exact AList.lookup_insert _⟩

theorem nextIno_getOrCreate (h : t.Leads) (p : RelPath) : t.nextIno ≤ (t.getOrCreate p).1.nextIno := by
  rcases getOrCreate_cases h p with ⟨ino, x, -, heq⟩ | heq
  · rw [heq]
  · rw [heq]
    exact Nat.le_succ _

/-- `t'` is `t` without some of what is at or below a path. -/
structure Drops (t t' : InodeTable) (p : RelPath) : Prop where
  led : t'.Led
  nextIno : t'.nextIno = t.nextIno
  entry : ∀ i, (t'.byIno.lookup i).map InodeEntry.refcount = (t.byIno.lookup i).map InodeEntry.refcount ∨
    t'.byIno.lookup i = none ∧ ∃ e, t.byIno.lookup i = some e ∧ p <+: e.path

theorem nextIno_removePath (t : InodeTable) (p : RelPath) : (t.removePath p).nextIno = t.nextIno := by
  unfold removePath
  split
  · rfl
  · split <;> rfl

theorem drops_foldl_removePath (l : List RelPath) (h : t.Led) :
    (l.foldl removePath t).Led ∧ (l.foldl removePath t).nextIno = t.nextIno ∧
      ∀ i, (l.foldl removePath t).byIno.lookup i = t.byIno.lookup i ∨
        (l.foldl removePath t).byIno.lookup i = none ∧ ∃ e, t.byIno.lookup i = some e ∧ e.path ∈ l := by
  induction l generalizing t with
  | nil => exact ⟨h, rfl, fun i => .inl rfl⟩
  | cons a l ih =>
    obtain ⟨hled, hnext, hentry⟩ := ih (h.removePath a)
    refine ⟨hled, hnext.trans (nextIno_removePath t a), fun i => ?_⟩
    rw [List.foldl_cons]
    by_cases ha : a = []
    · have hsame : t.removePath a = t := by rw [removePath, if_pos ha]
      rw [hsame] at hentry ⊢
      obtain hsame | ⟨hn, e, he, hp⟩ := hentry i
      · exact .inl hsame
      · exact .inr ⟨hn, e, he, List.mem_cons_of_mem a hp⟩
    · rcases hentry i with he | ⟨hn, e, he, hp⟩
      · rw [he, entry_removePath t ha]
        by_cases hai : t.byPath.lookup a = some i
        · obtain ⟨e, hi, rfl⟩ := h.leads.entry hai
          exact .inr ⟨if_pos hai, e, hi, List.mem_cons_self⟩
        · exact .inl (if_neg hai)
      · rw [entry_removePath t ha] at he
        split at he
        · exact absurd he (by simp)
        · exact .inr ⟨hn, e, he, List.mem_cons_of_mem a hp⟩

theorem drops_removePath (h : t.Led) (p : RelPath) : Drops t (t.removePath p) p := by
  obtain ⟨hled, hnext, hentry⟩ := drops_foldl_removePath [p] h
  refine ⟨hled, hnext, fun i => (hentry i).imp (congrArg _) fun ⟨hn, e, he, hp⟩ => ⟨hn, e, he, ?_⟩⟩
  rw [List.mem_singleton.mp hp]

theorem drops_removeSubtree (h : t.Led) (p : RelPath) : Drops t (t.removeSubtree p) p := by
  unfold removeSubtree
  split
  · exact ⟨h, rfl, fun i => .inl rfl⟩
  · obtain ⟨hled, hnext, hentry⟩ :=
      drops_foldl_removePath (t.byPath.keys.filter fun candidate => p <+: candidate) h
    refine ⟨hled, hnext, fun i => (hentry i).imp (congrArg _) fun ⟨hn, e, he, hp⟩ => ⟨hn, e, he, ?_⟩⟩
    exact of_decide_eq_true (List.mem_filter.mp hp).2

/-- What `t'` has beside `t` are other paths. -/
structure Rerouted (t t' : InodeTable) : Prop where
  led : t'.Led
  nextIno : t'.nextIno = t.nextIno
  entry : ∀ i, (t'.byIno.lookup i).map InodeEntry.refcount = (t.byIno.lookup i).map InodeEntry.refcount

/-- Whatever was at the new path. -/
theorem rerouted_movePath (h : t.Led) (old new : RelPath) : Rerouted t (t.movePath old new) := by
  refine ⟨⟨?_, issued_movePath h.issued old new⟩, ?_, fun i => ?_⟩
  · unfold movePath
    cases hl : t.byPath.lookup old with
    | none => exact h.leads
    | some ino =>
      obtain ⟨e, he, rfl⟩ := h.leads.entry hl
      refine Leads.intro fun p i hp => ?_
      rw [Map.lookup_insert_if] at hp
      split at hp
      · next hnew =>
        obtain rfl := Option.some.inj hp
        exact ⟨{ e with path := new }, by rw [lookup_setPath, if_pos rfl, he]; rfl, hnew.symm⟩
      · rw [Map.lookup_erase_if] at hp
        split at hp
        · exact absurd hp (by simp)
        · next hne =>
          obtain ⟨x, hx, rfl⟩ := h.leads.entry hp
          have hi : i ≠ ino := by
            intro hi
            subst hi
            obtain rfl := Option.some.inj (hx.symm.trans he)
            exact hne rfl
          exact ⟨x, by rw [lookup_setPath, if_neg hi, hx], rfl⟩
  · unfold movePath
    split <;> rfl
  · unfold movePath
    split
    · rfl
    · rw [lookup_setPath]
      split
      · rw [Option.map_map]
        rfl
      · rfl

/-- Only what was at the new path is dropped, whatever the two paths are. -/
theorem drops_renamePath (h : t.Led) (old new : RelPath) : Drops t (t.renamePath old new) new := by
  unfold renamePath
  split
  · exact ⟨h, rfl, fun i => .inl rfl⟩
  · have hdrop := drops_removePath h new
    have hroute : Rerouted (t.removePath new) (((t.removePath new).movePath old new).descendants old |>.foldl
        (fun t child => t.movePath child (reroot old new child)) ((t.removePath new).movePath old new)) := by
      refine List.foldlRecOn (motive := Rerouted (t.removePath new)) _ _
        (rerouted_movePath hdrop.led old new) fun u hu a _ => ?_
      have hnext := rerouted_movePath hu.led a (reroot old new a)
      exact ⟨hnext.led, hnext.nextIno.trans hu.nextIno, fun i => (hnext.entry i).trans (hu.entry i)⟩
    refine ⟨hroute.led, hroute.nextIno.trans hdrop.nextIno, fun i => ?_⟩
    rcases hdrop.entry i with hsame | ⟨hnone, hbelow⟩
    · exact .inl ((hroute.entry i).trans hsame)
    · have hgone := hroute.entry i
      rw [hnone] at hgone
      exact .inr ⟨Option.map_eq_none_iff.mp hgone, hbelow⟩

/-- What a request other than a forget does to the table: the inode whose entry is sent, and the
path at or below which something goes. -/
inductive Moves (t : InodeTable) : Option Nat → Option RelPath → InodeTable → Prop
  | listed (ps : List RelPath) : Moves t none none (ps.foldl (fun t p => (t.getOrCreate p).1) t)
  | entered (p : RelPath) : Moves t (some (t.getOrCreate p).2) none (t.getOrCreate p).1
  | dropped {t' : InodeTable} {p : RelPath} (h : Drops t t' p) : Moves t none (some p) t'

theorem led_listed (h : t.Led) (ps : List RelPath) :
    (ps.foldl (fun t p => (t.getOrCreate p).1) t).Led :=
  List.foldlRecOn (motive := Led) _ _ h fun _ hu p _ => hu.getOrCreate p

/-- What is listed is counted no less than before. -/
theorem entry_listed (h : t.Led) (ps : List RelPath) {e : InodeEntry} (he : t.byIno.lookup i = some e) :
    ∃ e', (ps.foldl (fun t p => (t.getOrCreate p).1) t).byIno.lookup i = some e' ∧
      ∀ m, m ≤ u64Max → m ≤ e.refcount → m ≤ e'.refcount := by
  induction ps generalizing t e with
  | nil => exact ⟨e, he, fun m _ hm => hm⟩
  | cons p ps ih =>
    obtain ⟨e', he', hle⟩ := ih (h.getOrCreate p) (entry_getOrCreate h p he)
    refine ⟨e', he', fun m hmax hm => hle m hmax ?_⟩
    split
    · exact le_min (Nat.le_succ_of_le hm) hmax
    · exact hm

theorem entry_of_listed (h : t.Led) (ps : List RelPath) {e : InodeEntry} (hnone : t.byIno.lookup i = none)
    (he : (ps.foldl (fun t p => (t.getOrCreate p).1) t).byIno.lookup i = some e) :
    t.nextIno ≤ i ∧ 1 ≤ e.refcount := by
  induction ps generalizing t with
  | nil => exact absurd (he.symm.trans hnone) (by simp)
  | cons p ps ih =>
    cases hfirst : (t.getOrCreate p).1.byIno.lookup i with
    | none =>
      obtain ⟨hle, hcount⟩ := ih (h.getOrCreate p) hfirst he
      exact ⟨(nextIno_getOrCreate h.leads p).trans hle, hcount⟩
    | some x =>
      obtain ⟨hi, -, hx⟩ := entry_of_getOrCreate h hnone hfirst
      obtain ⟨e', he', hle⟩ := entry_listed (h.getOrCreate p) ps hfirst
      obtain rfl := Option.some.inj (he.symm.trans he')
      exact ⟨hi.ge, hle 1 (by decide) hx.ge⟩

namespace Moves

variable {entry : Option Nat} {gone : Option RelPath}

theorem led (hm : t.Moves entry gone t') (h : t.Led) : t'.Led := by
  cases hm with
  | listed ps => exact led_listed h ps
  | entered p => exact h.getOrCreate p
  | dropped hd => exact hd.led

/-- An entry counts what it did, and one more if it was sent. -/
theorem counted (hm : t.Moves entry gone t') (h : t.Led) {e e' : InodeEntry} (he : t.byIno.lookup i = some e)
    (he' : t'.byIno.lookup i = some e') {m : Nat} (hmax : m ≤ u64Max)
    (hle : m ≤ e.refcount + if entry = some i then 1 else 0) : m ≤ e'.refcount := by
  cases hm with
  | listed ps =>
    obtain ⟨x, hx, hcount⟩ := entry_listed h ps he
    obtain rfl := Option.some.inj (he'.symm.trans hx)
    exact hcount m hmax (by simpa using hle)
  | entered p =>
    obtain rfl := Option.some.inj (he'.symm.trans (entry_getOrCreate h p he))
    by_cases hi : (t.getOrCreate p).2 = i
    · rw [if_pos hi]
      rw [if_pos (congrArg some hi)] at hle
      exact le_min hle hmax
    · rw [if_neg hi]
      rwa [if_neg fun e => hi (Option.some.inj e)] at hle
  | dropped hd =>
    have hsame : e'.refcount = e.refcount := by
      rcases hd.entry i with hsame | ⟨hnone, -⟩
      · rw [he, he'] at hsame
        exact Option.some.inj hsame
      · exact absurd (he'.symm.trans hnone) (by simp)
    rw [hsame]
    simpa using hle

/-- A new entry has a new number. -/
theorem fresh (hm : t.Moves entry gone t') (h : t.Led) {e' : InodeEntry} (hnone : t.byIno.lookup i = none)
    (he' : t'.byIno.lookup i = some e') : t.nextIno ≤ i ∧ 1 ≤ e'.refcount := by
  cases hm with
  | listed ps => exact entry_of_listed h ps hnone he'
  | entered p =>
    obtain ⟨hi, -, hcount⟩ := entry_of_getOrCreate h hnone he'
    exact ⟨hi.ge, hcount.ge⟩
  | dropped hd =>
    rcases hd.entry i with hsame | ⟨hgone, -⟩
    · rw [hnone, he'] at hsame
      exact absurd hsame (by simp)
    · exact absurd (he'.symm.trans hgone) (by simp)

/-- What goes is at or below the path that was taken. -/
theorem dropped_below (hm : t.Moves entry gone t') (h : t.Led) {e : InodeEntry} (he : t.byIno.lookup i = some e)
    (hnone : t'.byIno.lookup i = none) : ∃ p, gone = some p ∧ p <+: e.path := by
  cases hm with
  | listed ps =>
    obtain ⟨x, hx, -⟩ := entry_listed h ps he
    exact absurd (hx.symm.trans hnone) (by simp)
  | entered p => exact absurd ((entry_getOrCreate h p he).symm.trans hnone) (by simp)
  | @dropped t' p hd =>
    rcases hd.entry i with hsame | ⟨-, x, hx, hp⟩
    · rw [he, hnone] at hsame
      exact absurd hsame (by simp)
    · obtain rfl := Option.some.inj (he.symm.trans hx)
      exact ⟨p, rfl, hp⟩

theorem known (hm : t.Moves entry gone t') (h : t.Led) (hi : entry = some i) :
    ∃ e, t'.byIno.lookup i = some e := by
  cases hm with
  | listed ps => exact absurd hi (by simp)
  | entered p =>
    obtain rfl := Option.some.inj hi
    exact lookup_returned h.leads p
  | dropped hd => exact absurd hi (by simp)

theorem nextIno_le (hm : t.Moves entry gone t') (h : t.Led) : t.nextIno ≤ t'.nextIno := by
  cases hm with
  | listed ps =>
    have hboth : t.nextIno ≤ (ps.foldl (fun t p => (t.getOrCreate p).1) t).nextIno ∧ Led _ :=
      List.foldlRecOn (motive := fun u : InodeTable => t.nextIno ≤ u.nextIno ∧ u.Led) _ _ ⟨le_rfl, h⟩
        fun u hu p _ => ⟨hu.1.trans (nextIno_getOrCreate hu.2.leads p), hu.2.getOrCreate p⟩
    exact hboth.1
  | entered p => exact nextIno_getOrCreate h.leads p
  | dropped hd => exact hd.nextIno.ge

end Moves

/-- A forget takes from one entry. -/
theorem entry_forget (t : InodeTable) (ino n i : Nat) :
    (t.forget ino n).byIno.lookup i =
      if i = ino ∧ ino ≠ rootIno then
        match t.byIno.lookup i with
        | none => none
        | some e => if e.refcount - n = 0 then none else some { e with refcount := e.refcount - n }
      else t.byIno.lookup i := by
  unfold forget
  by_cases hroot : ino = rootIno
  · rw [if_pos hroot, if_neg fun h => h.2 hroot]
  · rw [if_neg hroot]
    by_cases hi : i = ino
    · subst hi
      rw [if_pos ⟨rfl, hroot⟩]
      cases he : t.byIno.lookup i with
      | none => exact he
      | some e =>
        simp only
        split
        · rw [Map.lookup_erase_if, if_pos rfl]
        · rw [Map.lookup_insert_if, if_pos rfl]
    · rw [if_neg fun h => hi h.1]
      cases he : t.byIno.lookup ino with
      | none => rfl
      | some e =>
        simp only
        split
        · rw [Map.lookup_erase_if, if_neg hi]
        · rw [Map.lookup_insert_if, if_neg hi]

theorem nextIno_forget (t : InodeTable) (ino n : Nat) : (t.forget ino n).nextIno = t.nextIno := by
  unfold forget
  split
  · rfl
  · split
    · rfl
    · split <;> rfl

end InodeTable

open InodeTable

/-- The inode of an entry that is sent. -/
def Sent.entryIno : Sent → Option Nat
  | .entry a | .created a _ => some a.ino
  | _ => none

def entryIno : Reply Answer → Option Nat
  | .ok (.plain x) => x.entryIno
  | _ => none

namespace Fs

/-- The path that a request has removed or replaced. -/
def taken (t : InodeTable) : FsRequest → Reply Answer → Option RelPath
  | .mutate (.unlink parent name), .ok _ => t.childPath parent name
  | .mutate (.rmdir parent name), .ok _ => t.childPath parent name
  | .mutate (.rename _ _ newparent newname _), .ok _ => t.childPath newparent newname
  | _, _ => none

/-! ## What a request does to the table -/

variable {cfg : FsConfig} {s : Fs} {k : FsKernel} {r : FsRequest}

theorem moves_same (t : InodeTable) : t.Moves none none t := .listed []

theorem moves_freshAttr {m : Mounted} {k : Kernel} {n : Nat} {path : RelPath} {f : FileAttr → Sent}
    (hf : ∀ attr, (f attr).entryIno = some attr.ino) (d : Disk) {x : Mounted × Reply Sent}
    (hx : x = match ({ m with disk := d } : Mounted).freshAttrForPath k n path with
      | (s, none) => (s, .error ENOENT)
      | (s, some attr) => (s, sent f attr))
    (hpanic : x.2 ≠ .panic) : m.inodes.Moves (entryIno (x.2.map .plain)) none x.1.inodes := by
  subst hx
  unfold Mounted.freshAttrForPath at hpanic ⊢
  cases hst : k.stat n d path with
  | none => exact moves_same _
  | some st =>
    cases hattr : statToAttr (m.inodes.getOrCreate path).2 st with
    | none => exact absurd (by simp [hst, hattr, sent]) hpanic
    | some attr =>
      simp only [hattr, sent, Reply.map, entryIno, hf, ino_of_statToAttr hattr]
      exact .entered path

theorem moves_makeNode {m : Mounted} {k : Kernel} {parent : Nat} {name : Name} {uid gid : Nat}
    {calls : RelPath → Syscalls Unit} (hpanic : (m.makeNode k parent name uid gid calls).2 ≠ .panic) :
    m.inodes.Moves (entryIno ((m.makeNode k parent name uid gid calls).2.map .plain)) none
      (m.makeNode k parent name uid gid calls).1.inodes := by
  unfold Mounted.makeNode at hpanic ⊢
  cases hp : m.inodes.childPath parent name with
  | none => exact moves_same _
  | some path =>
    simp only [hp, Mounted.call] at hpanic ⊢
    cases hcalls : (calls path).run.run m.disk with
    | mk result d =>
      cases result with
      | error e => exact moves_same _
      | ok u =>
        rw [hcalls] at hpanic
        exact moves_freshAttr (fun attr => rfl) _ rfl hpanic

/-- The requests of `Mount.lean`. -/
theorem moves_mounted {m : Mounted} {mount : MountId} {k : Kernel} (hm : m.inodes.Led)
    (r : Request) (hpanic : (m.handle mount k r).2 ≠ .panic) :
    m.inodes.Moves (entryIno ((m.handle mount k r).2.map .plain))
      (taken m.inodes (.mutate r) ((m.handle mount k r).2.map .plain)) (m.handle mount k r).1.inodes := by
  cases r with
  | unlink parent name =>
    simp only [Mounted.handle, Mounted.doUnlink]
    cases hp : m.inodes.childPath parent name with
    | none => exact moves_same _
    | some path =>
      simp only [Mounted.call]
      cases (k.unlinkFile path).run.run m.disk with
      | mk result d =>
        cases result with
        | error e => exact moves_same _
        | ok u =>
          simp only [taken, Reply.map, hp]
          exact .dropped (drops_removePath hm path)
  | rmdir parent name =>
    simp only [Mounted.handle, Mounted.doRmdir]
    cases hp : m.inodes.childPath parent name with
    | none => exact moves_same _
    | some path =>
      simp only [Mounted.call]
      cases (k.rmdir path).run.run m.disk with
      | mk result d =>
        cases result with
        | error e => exact moves_same _
        | ok u =>
          simp only [taken, Reply.map, hp]
          exact .dropped (drops_removeSubtree hm path)
  | rename parent name newparent newname flags =>
    simp only [Mounted.handle, Mounted.doRename]
    split
    · next old new hold hnew =>
      simp only [Mounted.call]
      cases (k.rename old new flags).run.run m.disk with
      | mk result d =>
        cases result with
        | error e => exact moves_same _
        | ok u =>
          simp only [taken, Reply.map, hnew]
          exact .dropped (drops_renamePath hm old new)
    · exact moves_same _
  | create parent name mode umask flags uid gid =>
    have hcreates := Mounted.creates_doCreate m k parent name mode umask flags uid gid
    simp only [Mounted.handle] at hpanic ⊢
    generalize m.doCreate k parent name mode umask flags uid gid = x at hcreates hpanic ⊢
    cases hcreates with
    | unknown hp => exact moves_same _
    | refused hp hopen e' => exact moves_same _
    | @made path fd d hp hopen d' st =>
      cases hattr : statToAttr (m.inodes.getOrCreate path).2 st with
      | none => exact absurd (by rw [hattr]; rfl) hpanic
      | some attr =>
        simp only [sent, Reply.map, entryIno, Sent.entryIno, taken, ino_of_statToAttr hattr]
        exact .entered path
    | undone hp hopen => exact moves_same _
  | link ino newparent newname =>
    simp only [Mounted.handle, Mounted.doLink] at hpanic ⊢
    split
    · next old new hold hnew =>
      simp only [hold, hnew, Mounted.call] at hpanic ⊢
      cases hlink : (k.link old new).run.run m.disk with
      | mk result d =>
        cases result with
        | error e => exact moves_same _
        | ok u =>
          rw [hlink] at hpanic
          exact moves_freshAttr (fun attr => rfl) _ rfl hpanic
    · exact moves_same _
  | write fh offset data flags =>
    simp only [Mounted.handle, Mounted.doWrite, Mounted.call]
    split <;> exact moves_same _
  | setattr ino a =>
    simp only [Mounted.handle, Mounted.doSetattr]
    cases m.inodes.getPath ino with
    | none => exact moves_same _
    | some path =>
      simp only [Mounted.call]
      cases (setattrCalls k path a).run.run m.disk with
      | mk result d =>
        cases result with
        | error e => exact moves_same _
        | ok u =>
          simp only
          cases k.stat 1 d path with
          | none => exact moves_same _
          | some st =>
            simp only
            cases statToAttr ino st <;> exact moves_same _

/-- The attributes from the cache are of the inode that is asked for. -/
theorem ino_of_fastAttr {path : RelPath} {ino : Nat} {attr : FileAttr}
    (h : s.fastAttr cfg k path ino = some (some attr)) : attr.ino = ino := by
  unfold fastAttr at h
  split at h
  · split at h
    · exact ino_of_sourceMetadataToAttr (Option.some.inj h)
    · obtain ⟨st, -, hattr⟩ := Option.map_eq_some_iff.mp h
      exact ino_of_statToAttr hattr
  · exact absurd h (by simp)

/-- The backing or the cache knows the path. -/
def Found (cfg : FsConfig) (s : Fs) (k : FsKernel) (path : RelPath) : Prop :=
  (k.stat 1 s.disk path).isSome ∨
    (cfg.caching = true ∧ isCached s.dir path = true ∧
      ((s.db.sourceMetadataRow path cfg.mount).isSome ∨ (k.stat 0 s.disk path).isSome))

instance (cfg : FsConfig) (s : Fs) (k : FsKernel) (path : RelPath) : Decidable (Found cfg s k path) :=
  inferInstanceAs (Decidable (_ ∨ _ ∧ _ ∧ (_ ∨ _)))

/-- A lookup is answered with an entry if there is something, and with ENOENT if not. -/
theorem entryIno_attrAnswer {path : RelPath} {ino : Nat} (hpanic : s.attrAnswer cfg k .entry path ino ≠ .panic) :
    entryIno (s.attrAnswer cfg k .entry path ino) = some ino ∧ Found cfg s k path ∨
    entryIno (s.attrAnswer cfg k .entry path ino) = none ∧ ¬Found cfg s k path := by
  unfold attrAnswer at hpanic ⊢
  cases hfast : s.fastAttr cfg k path ino with
  | some o =>
    rw [hfast] at hpanic
    have hfound : Found cfg s k path := by
      unfold fastAttr at hfast
      split at hfast
      · next hc =>
        refine .inr ⟨hc.1, hc.2, ?_⟩
        split at hfast
        · next hm => exact .inl (by rw [hm]; rfl)
        · obtain ⟨st, hst, -⟩ := Option.map_eq_some_iff.mp hfast
          exact .inr (by rw [hst]; rfl)
      · exact absurd hfast (by simp)
    cases o with
    | none => exact absurd rfl hpanic
    | some attr => exact .inl ⟨congrArg some (ino_of_fastAttr hfast), hfound⟩
  | none =>
    rw [hfast] at hpanic
    cases hst : k.stat 1 s.disk path with
    | some st =>
      simp only [hst] at hpanic ⊢
      cases hattr : statToAttr ino st with
      | none => exact absurd (by rw [hattr]; rfl) hpanic
      | some attr => exact .inl ⟨congrArg some (ino_of_statToAttr hattr), .inl (by rw [hst]; rfl)⟩
    | none =>
      refine .inr ⟨rfl, ?_⟩
      intro hfast
      rcases hfast with hstat | ⟨hcache, hcached, hrow⟩
      · rw [hst] at hstat
        exact absurd hstat (by simp)
      · unfold fastAttr at hfast
        rw [if_pos ⟨hcache, hcached⟩] at hfast
        split at hfast
        · exact absurd hfast (by simp)
        · next hm =>
          rw [hm, Option.map_eq_none_iff.mp hfast] at hrow
          exact absurd hrow (by simp)

/-! The handlers that leave the table and send no entry. -/

theorem inodes_of_doGetattr (cfg : FsConfig) (s : Fs) (k : FsKernel) (ino : Nat) :
    (s.doGetattr cfg k ino).1.inodes = s.inodes ∧ entryIno (s.doGetattr cfg k ino).2 = none := by
  cases hp : s.inodes.getPath ino with
  | none =>
    have hget : s.doGetattr cfg k ino = (s, .error ENOENT) := by simp only [doGetattr, hp]
    rw [hget]
    exact ⟨rfl, rfl⟩
  | some path =>
    rw [doGetattr_of_path hp]
    refine ⟨rfl, ?_⟩
    simp only [attrAnswer]
    split
    · next attr _ => cases attr <;> rfl
    · rfl
    · next st _ _ => cases statToAttr ino st <;> rfl

theorem inodes_of_doOpen (cfg : FsConfig) (s : Fs) (k : FsKernel) (ino flags : Nat) :
    (s.doOpen cfg k ino flags).1.inodes = s.inodes ∧ entryIno (s.doOpen cfg k ino flags).2 = none := by
  unfold doOpen
  cases s.inodes.getPath ino with
  | none => exact ⟨rfl, rfl⟩
  | some path =>
    simp only
    split
    · unfold openWriteHandle
      cases (k.openFileWithFlags path flags 0).run.run s.disk with
      | mk result d => cases result <;> exact ⟨rfl, rfl⟩
    · unfold openForRead
      have htry : (s.tryOpen cfg k path).1.inodes = s.inodes := by
        unfold tryOpen
        split <;> rfl
      cases ho : s.tryOpen cfg k path with
      | mk u result =>
        rw [ho] at htry
        cases result with
        | error e => exact ⟨htry, rfl⟩
        | ok fo =>
          simp only
          refine ⟨?_, rfl⟩
          split
          · unfold send
            split <;> exact htry
          · exact htry

theorem inodes_of_doRead (s : Fs) (k : FsKernel) (fh offset size : Nat) :
    (s.doRead k fh offset size).1.inodes = s.inodes ∧ entryIno (s.doRead k fh offset size).2 = none := by
  unfold doRead
  split <;> exact ⟨rfl, rfl⟩

theorem inodes_of_doRelease (cfg : FsConfig) (s : Fs) (fh : Nat) :
    (s.doRelease cfg fh).1.inodes = s.inodes ∧ entryIno (s.doRelease cfg fh).2 = none := by
  refine ⟨?_, rfl⟩
  unfold doRelease
  cases s.writePaths.lookup fh with
  | some path => rfl
  | none =>
    simp only
    split
    · unfold send
      split <;> rfl
    · rfl

theorem moves_of_same {t' : InodeTable} {entry : Option Nat} (h : t' = s.inodes ∧ entry = none) :
    s.inodes.Moves entry none t' := by
  obtain ⟨rfl, rfl⟩ := h
  exact moves_same _

/-- Every handler. -/
theorem moves_handle (hs : s.inodes.Led) (hr : ∀ ino n, r ≠ .forget ino n)
    (hpanic : (s.handle cfg k r).2 ≠ .panic) :
    s.inodes.Moves (entryIno (s.handle cfg k r).2) (taken s.inodes r (s.handle cfg k r).2)
      (s.handle cfg k r).1.inodes := by
  cases r with
  | lookup parent name =>
    cases hp : s.inodes.childPath parent name with
    | none =>
      simp only [handle, doLookup, hp]
      exact moves_same _
    | some child =>
      simp only [handle, doLookup_of_child hp] at hpanic ⊢
      rcases entryIno_attrAnswer hpanic with ⟨hentry, -⟩ | ⟨hentry, -⟩
      · rw [hentry]
        exact .entered child
      · rw [hentry]
        exact .listed [child]
  | forget ino n => exact absurd rfl (hr ino n)
  | getattr ino => exact moves_of_same (inodes_of_doGetattr cfg s k ino)
  | readdir ino names =>
    simp only [handle, doReaddir]
    cases hp : s.inodes.getPath ino with
    | none => exact moves_same _
    | some parent =>
      have hfold : (names.map fun name => parent ++ [name]).foldl (fun t p => (getOrCreate t p).1) s.inodes =
          names.foldl (fun t name => (t.getOrCreate (parent ++ [name])).1) s.inodes := List.foldl_map
      simp only
      rw [← hfold]
      exact .listed _
  | openFile ino flags => exact moves_of_same (inodes_of_doOpen cfg s k ino flags)
  | outside disk => exact moves_same _
  | read fh offset size => exact moves_of_same (inodes_of_doRead s k fh offset size)
  | release fh => exact moves_of_same (inodes_of_doRelease cfg s fh)
  | mknod parent name mode umask rdev uid gid =>
    exact moves_makeNode fun h => hpanic (congrArg (Reply.map Answer.plain) h)
  | mkdir parent name mode umask uid gid =>
    exact moves_makeNode fun h => hpanic (congrArg (Reply.map Answer.plain) h)
  | symlink parent linkName target uid gid =>
    exact moves_makeNode fun h => hpanic (congrArg (Reply.map Answer.plain) h)
  | mutate r =>
    have hinodes : (s.mutate cfg k r).1.inodes = (s.toMounted.handle cfg.mount k.toKernel r).1.inodes := by
      unfold mutate
      cases cfg.caching <;> rfl
    simp only [handle]
    rw [hinodes]
    exact moves_mounted hs r fun h => hpanic (congrArg (Reply.map Answer.plain) h)

end Fs

end FsCache
