import FsCache.Held

/- The inodes that are left.

   The table counts more than the kernel does. A lookup makes the inode before it knows whether
   there is a file, where the requests that make a file stat it first; and a readdir makes one
   for every name, though only a lookup sends an entry.

   `no_leak`: if every lookup finds something and no readdir lists a name, then once the kernel
   has forgotten everything only the root is left. `missing_leaks` is a lookup of a name that is
   not there, and a readdir of one that is. -/

namespace FsCache
open Lib
open InodeTable

/-- A lookup, a getattr, an open, a read, a release, a readdir or a forget; or a change of the
backing by others. -/
def FsRequest.Browses : FsRequest → Prop
  | .lookup .. | .getattr .. | .openFile .. | .read .. | .release .. | .readdir .. | .forget ..
  | .outside .. => True
  | _ => False

namespace Fs

variable {cfg : FsConfig} {s : Fs} {k : FsKernel} {r : FsRequest}

/-- The table counts nothing that the kernel does not: what is looked up is there, and no name is
listed. -/
def Matched (cfg : FsConfig) (x : Fs × KernelView) (r : FsKernel × FsRequest) : Prop :=
  match r.2 with
  | .lookup parent name => ∀ child ∈ x.1.inodes.childPath parent name, Found cfg x.1 r.1 child
  | .readdir ino names => (x.1.inodes.getPath ino).isSome → names = []
  | _ => True

def OnlyRoot (t : InodeTable) : Prop :=
  (∀ i, (t.getPath i).isSome ↔ i = rootIno) ∧ ∀ p, (t.getPathIno p).isSome ↔ p = []

section Counts

variable {t t' : InodeTable} {v : KernelView} {reply : Reply Answer}

/-- What the table counts, the kernel has yet to forget. -/
structure Owed (t : InodeTable) (v : KernelView) : Prop extends Tallied t v where
  inverse : t.Inverse
  root : t.getPath rootIno = some []
  counted : ∀ i e, t.byIno.lookup i = some e → i ≠ rootIno →
    1 ≤ e.refcount ∧ e.refcount + v.forgotten i ≤ v.replies i

/-- An entry is sent for a path that is looked up. -/
theorem Owed.entered (ho : Owed t v) (p : RelPath) (hr : ∀ ino n, r ≠ .forget ino n)
    (hreply : entryIno reply = some (t.getOrCreate p).2) : Owed (t.getOrCreate p).1 (v.after r reply) := by
  have hmoves : t.Moves (entryIno reply) none (t.getOrCreate p).1 := by
    rw [hreply]
    exact .entered p
  have htally : Tallied (t.getOrCreate p).1 (v.after r reply) := ho.toTallied.moves hmoves hr
  refine ⟨htally, (wf_getOrCreate ⟨ho.inverse, ho.led.issued⟩ p).inverse, ?_, fun i e' he' hi => ?_⟩
  · obtain ⟨e, he, hpath⟩ := getPath_eq_some.mp ho.root
    refine getPath_eq_some.mpr ⟨_, entry_getOrCreate ho.led p he, ?_⟩
    split <;> exact hpath
  · have hret : entryIno reply = some i ↔ (t.getOrCreate p).2 = i := by simp [hreply]
    simp only [forgotten_after hr, replies_after, hret]
    cases he : t.byIno.lookup i with
    | none =>
      obtain ⟨hnext, hnew, hone⟩ := entry_of_getOrCreate ho.led he he'
      have hzero := ho.fresh i hnext.ge
      have hle := ho.le i
      rw [if_pos hnew]
      omega
    | some e =>
      obtain ⟨hpos, hcount⟩ := ho.counted i e he hi
      obtain rfl := Option.some.inj (he'.symm.trans (entry_getOrCreate ho.led p he))
      by_cases hi : (t.getOrCreate p).2 = i
      · simp only [if_pos hi, InodeEntry.counted, u64Max]
        omega
      · simp only [if_neg hi]
        omega

theorem Owed.forget (ho : Owed t v) {ino n : Nat} (hv : v.forgotten ino + n ≤ v.replies ino) :
    Owed (t.forget ino n) (forgets v ino n) := by
  refine ⟨ho.toTallied.forget hv, (wf_forget ⟨ho.inverse, ho.led.issued⟩ ino n).inverse, ?_,
    fun i e' he' hi => ?_⟩
  · have hroot : (t.forget ino n).byIno.lookup rootIno = t.byIno.lookup rootIno := by
      rw [entry_forget, if_neg]
      intro hmore
      exact hmore.2 hmore.1.symm
    rw [getPath, hroot]
    exact ho.root
  · rw [replies_forgets, forgotten_forgets]
    rw [entry_forget] at he'
    split at he'
    · next hino =>
      rw [if_pos hino.1]
      cases he : t.byIno.lookup i with
      | none => simp [he] at he'
      | some e =>
        obtain ⟨hpos, hcount⟩ := ho.counted i e he hi
        simp only [he] at he'
        split at he'
        · exact absurd he' (by simp)
        · obtain rfl := Option.some.inj he'
          simp only
          omega
    · next hino =>
      have hne : i ≠ ino := fun e => hino ⟨e, e ▸ hi⟩
      rw [if_neg hne]
      exact ho.counted i e' he' hi

/-- A request that leaves the table and sends no entry. -/
theorem Owed.same (ho : Owed t v) (hr : ∀ ino n, r ≠ .forget ino n) (h : t' = t ∧ entryIno reply = none) :
    Owed t' (v.after r reply) := by
  obtain ⟨rfl, hnone⟩ := h
  have hafter : v.after r reply = v := by
    have hreplies : (v.after r reply).replies = v.replies := by
      funext i
      rw [replies_after, hnone, if_neg (by simp), Nat.add_zero]
    have hforgotten : (v.after r reply).forgotten = v.forgotten := funext (forgotten_after hr)
    calc v.after r reply = ⟨(v.after r reply).replies, (v.after r reply).forgotten⟩ := rfl
      _ = v := by rw [hreplies, hforgotten]
  rwa [hafter]

/-- Once all is forgotten nothing is counted. -/
theorem Owed.onlyRoot (ho : Owed t v) (hall : ∀ i, v.forgotten i = v.replies i) : OnlyRoot t := by
  have honly : ∀ i p, t.getPath i = some p → i = rootIno := by
    intro i p hp
    by_contra hi
    obtain ⟨e, he, -⟩ := getPath_eq_some.mp hp
    obtain ⟨hpos, hcount⟩ := ho.counted i e he hi
    have hi := hall i
    omega
  have hroot := (ho.inverse [] rootIno).mpr ho.root
  constructor
  · intro i
    constructor
    · intro h
      obtain ⟨p, hp⟩ := Option.isSome_iff_exists.mp h
      exact honly i p hp
    · intro hi
      rw [hi, ho.root]
      rfl
  · intro p
    constructor
    · intro h
      obtain ⟨i, hi⟩ := Option.isSome_iff_exists.mp h
      have hp := (ho.inverse p i).mp hi
      obtain rfl := honly i p hp
      exact Option.some.inj (hp.symm.trans ho.root)
    · intro hi
      rw [hi, hroot]
      rfl

end Counts

theorem owed_start (disk : Disk) (dir : CacheDir) (db : CacheDb) : Owed (start disk dir db).inodes .start := by
  refine ⟨⟨⟨new_wf.inverse.leads, new_wf.issued⟩, fun _ => le_rfl, fun _ _ => rfl⟩, new_wf.inverse, rfl, ?_⟩
  intro i e he hi
  simp only [start, new, Map.lookup_insert_if] at he
  rw [if_neg hi] at he
  exact absurd he (by simp)

/-- A request that matches keeps what is owed. -/
theorem Owed.handle {v : KernelView} (ho : Owed s.inodes v) (hb : r.Browses) (hm : Matched cfg (s, v) (k, r))
    (hv : v.Allows r) (hpanic : (s.handle cfg k r).2 ≠ .panic) :
    Owed (s.handle cfg k r).1.inodes (v.after r (s.handle cfg k r).2) := by
  cases r with
  | lookup parent name =>
    cases hp : s.inodes.childPath parent name with
    | none =>
      have hlookup : s.doLookup cfg k parent name = (s, .error ENOENT) := by simp only [doLookup, hp]
      simp only [Fs.handle, hlookup]
      exact ho.same (fun _ _ => by simp) ⟨rfl, rfl⟩
    | some child =>
      simp only [Fs.handle, doLookup_of_child hp] at hpanic ⊢
      rcases entryIno_attrAnswer hpanic with ⟨hentry, -⟩ | ⟨-, hmissing⟩
      · exact ho.entered child (fun _ _ => by simp) hentry
      · exact absurd (hm child hp) hmissing
  | forget ino n => exact ho.forget hv
  | getattr ino => exact ho.same (fun _ _ => by simp) (inodes_of_doGetattr cfg s k ino)
  | readdir ino names =>
    refine ho.same (fun _ _ => by simp) ⟨?_, rfl⟩
    simp only [Fs.handle, doReaddir]
    cases hp : s.inodes.getPath ino with
    | none => rfl
    | some parent =>
      have hnames : names = [] := hm (by simp [hp])
      rw [hnames]
      rfl
  | openFile ino flags => exact ho.same (fun _ _ => by simp) (inodes_of_doOpen cfg s k ino flags)
  | read fh offset size => exact ho.same (fun _ _ => by simp) (inodes_of_doRead s k fh offset size)
  | release fh => exact ho.same (fun _ _ => by simp) (inodes_of_doRelease cfg s fh)
  | outside disk => exact ho.same (fun _ _ => by simp) ⟨rfl, rfl⟩
  | mknod | mkdir | symlink | mutate => exact absurd hb (by simp [FsRequest.Browses])

/-- In every run of requests that only look, in which what is looked up is there and no name is
listed: once the kernel has forgotten every entry it was sent, only the root is left. -/
theorem no_leak (cfg : FsConfig) (disk : Disk) (dir : CacheDir) (db : CacheDb)
    (rs : List (FsKernel × FsRequest)) (hb : ∀ x ∈ rs, x.2.Browses) (s : Fs) (v : KernelView)
    (h : run (viewStep cfg) (start disk dir db, .start) rs = some (s, v))
    (hok : Along (viewStep cfg) (Matched cfg) (start disk dir db, .start) rs)
    (hall : ∀ i, v.forgotten i = v.replies i) : OnlyRoot s.inodes := by
  have hboth : Along (viewStep cfg) (fun x r => Matched cfg x r ∧ r.2.Browses) (start disk dir db, .start) rs :=
    hok.and (.of_mem hb)
  have howed : Owed s.inodes v := by
    refine run_invariant_along (fun x : Fs × KernelView => Owed x.1.inodes x.2) ?_ h hboth (owed_start disk dir db)
    rintro x ⟨k, r⟩ x' ho ⟨hm, hb⟩ hs
    obtain ⟨hv, hpanic, rfl⟩ := viewStep_eq_some hs
    exact ho.handle hb hm hv hpanic
  exact howed.onlyRoot hall

section Leaking

private def missing : Name := ⟨[109, 105], Eq.refl true⟩

/-- A file is looked up and forgotten. -/
def browsing : List (FsKernel × FsRequest) :=
  [(.readOnly 3, .lookup rootIno sleeveName), (.readOnly 3, .getattr 2), (.readOnly 3, .forget 2 1)]

theorem browsing_leaves_root : ∃ s v, run (viewStep playingConfig) (coverStart, .start) browsing = some (s, v) ∧
    OnlyRoot s.inodes := by
  refine ⟨_, _, rfl, ?_⟩
  refine no_leak playingConfig Mounted.sleeveStart.disk Mounted.sleeveStart.dir Mounted.sleeveStart.db
    browsing (by simp [browsing, FsRequest.Browses]) _ _ rfl ?_ ?_
  · refine ⟨?_, fun x hx => ⟨trivial, fun y hy => ⟨trivial, fun z hz => trivial⟩⟩⟩
    intro child hchild
    obtain rfl := Option.some.inj hchild
    exact .inl (by decide)
  · intro i
    rcases i with _ | _ | _ | i <;> rfl

/-- A name that is not there is looked up, and another is listed: the kernel has nothing to forget,
and their inodes stay. -/
theorem missing_leaks : ∃ s v, run (viewStep playingConfig) (coverStart, .start)
      [(.readOnly 3, .lookup rootIno missing), (.readOnly 3, .readdir rootIno [sleeveName])] = some (s, v) ∧
    (∀ i, v.forgotten i = v.replies i) ∧ ¬OnlyRoot s.inodes := by
  refine ⟨_, _, rfl, ?_, fun h => ?_⟩
  · intro i
    rfl
  · exact absurd ((h.1 2).mp (by decide)) (by decide)

end Leaking

end Fs

end FsCache
