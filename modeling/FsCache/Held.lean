import FsCache.Moves

/- The inodes that the kernel holds.

   The kernel counts the entries it is sent of an inode, and gives them back with `forget`,
   never more than it was sent. The table has a count of its own for each inode, and drops one
   that reaches zero.

   `held_present`: an inode of which the kernel has not forgotten every entry is in the table,
   unless its path or a directory above it was removed or replaced through the mount. -/

namespace FsCache
open Lib
open InodeTable

/-- What the kernel has counted, for each inode. -/
structure KernelView where
  replies : Nat → Nat
  forgotten : Nat → Nat

namespace KernelView

/-- The kernel forgets no more than it was sent. -/
def Allows (v : KernelView) : FsRequest → Prop
  | .forget ino n => v.forgotten ino + n ≤ v.replies ino
  | _ => True

instance (v : KernelView) : (r : FsRequest) → Decidable (v.Allows r)
  | .forget ino n => inferInstanceAs (Decidable (v.forgotten ino + n ≤ v.replies ino))
  | .lookup .. | .getattr .. | .readdir .. | .openFile .. | .read .. | .release .. | .mknod .. | .mkdir ..
  | .symlink .. | .mutate .. | .outside .. => .isTrue trivial

def after (v : KernelView) (r : FsRequest) (reply : Reply Answer) : KernelView where
  replies i := if entryIno reply = some i then v.replies i + 1 else v.replies i
  forgotten i :=
    match r with
    | .forget ino n => if i = ino then v.forgotten i + n else v.forgotten i
    | _ => v.forgotten i

def start : KernelView := ⟨fun _ => 0, fun _ => 0⟩

end KernelView

namespace Fs

/-- A mount, and what its kernel has counted. -/
def viewStep (cfg : FsConfig) (x : Fs × KernelView) (r : FsKernel × FsRequest) : Option (Fs × KernelView) :=
  if x.2.Allows r.2 then
    (step cfg x.1 r).map fun s => (s, x.2.after r.2 (x.1.handle cfg r.1 r.2).2)
  else none

variable {cfg : FsConfig} {s : Fs} {k : FsKernel} {r : FsRequest}

/-! ## What the kernel holds -/

section Counts

variable {t t' : InodeTable} {v : KernelView} {gone gone' : Nat → Prop} {reply : Reply Answer}

theorem replies_after (i : Nat) :
    (v.after r reply).replies i = v.replies i + if entryIno reply = some i then 1 else 0 := by
  simp only [KernelView.after]
  split <;> rfl

theorem forgotten_after (hr : ∀ ino n, r ≠ .forget ino n) (i : Nat) :
    (v.after r reply).forgotten i = v.forgotten i := by
  cases r with
  | forget ino n => exact absurd rfl (hr ino n)
  | _ => rfl

/-- The kernel after a forget. -/
def forgets (v : KernelView) (ino n : Nat) : KernelView := v.after (.forget ino n) (.ok (.plain .ok))

theorem replies_forgets (ino n i : Nat) : (forgets v ino n).replies i = v.replies i := by
  rw [forgets, replies_after]
  simp [entryIno, Sent.entryIno]

theorem forgotten_forgets (ino n i : Nat) :
    (forgets v ino n).forgotten i = if i = ino then v.forgotten i + n else v.forgotten i := rfl

/-- What the kernel's counts are of. -/
structure Tallied (t : InodeTable) (v : KernelView) : Prop where
  led : t.Led
  le : ∀ i, v.forgotten i ≤ v.replies i
  fresh : ∀ i, t.nextIno ≤ i → v.replies i = 0

theorem Tallied.moves (hc : Tallied t v) {taken : Option RelPath} (hm : t.Moves (entryIno reply) taken t')
    (hr : ∀ ino n, r ≠ .forget ino n) : Tallied t' (v.after r reply) := by
  have hled := hm.led hc.led
  refine ⟨hled, fun i => ?_, fun i hi => ?_⟩
  · rw [forgotten_after hr, replies_after]
    exact Nat.le_add_right_of_le (hc.le i)
  · rw [replies_after, hc.fresh i ((hm.nextIno_le hc.led).trans hi), if_neg]
    intro he
    obtain ⟨e, hx⟩ := hm.known hc.led he
    exact absurd (hled.issued i e hx) (Nat.not_lt.mpr hi)

theorem Tallied.forget {ino n : Nat} (hc : Tallied t v) (hv : v.forgotten ino + n ≤ v.replies ino) :
    Tallied (t.forget ino n) (forgets v ino n) := by
  refine ⟨⟨leads_forget hc.led.leads ino n, issued_forget hc.led.issued ino n⟩, fun i => ?_, fun i hi => ?_⟩
  · rw [replies_forgets, forgotten_forgets]
    split
    · next hi => exact hi ▸ hv
    · exact hc.le i
  · rw [nextIno_forget] at hi
    rw [replies_forgets]
    exact hc.fresh i hi

/-- The table counts no less than the kernel, and lacks an inode that the kernel has only if it
has gone. -/
structure Covers (t : InodeTable) (v : KernelView) (gone : Nat → Prop) : Prop extends Tallied t v where
  counted : ∀ i e, t.byIno.lookup i = some e → v.replies i < 2^64 →
    v.replies i ≤ e.refcount + v.forgotten i
  present : ∀ i, t.byIno.lookup i = none → v.replies i < 2^64 → v.forgotten i = v.replies i ∨ gone i

/-- Any other request than a forget. -/
theorem Covers.moves (hc : Covers t v gone) {taken : Option RelPath} (hm : t.Moves (entryIno reply) taken t')
    (hr : ∀ ino n, r ≠ .forget ino n) (hold : ∀ i, gone i → gone' i)
    (hnew : ∀ i p q, taken = some p → t.getPath i = some q → p <+: q → gone' i) :
    Covers t' (v.after r reply) gone' := by
  refine ⟨hc.toTallied.moves hm hr, fun i e' he' hlt => ?_, fun i hnone hlt => ?_⟩
  · rw [replies_after] at hlt ⊢
    rw [forgotten_after hr]
    cases he : t.byIno.lookup i with
    | none =>
      obtain ⟨hnext, hcount⟩ := hm.fresh hc.led he he'
      rw [hc.fresh i hnext]
      split <;> omega
    | some e =>
      have hcount := hc.counted i e he (by omega)
      -- what the kernel holds is at most the largest count
      have hmax : v.replies i + (if entryIno reply = some i then 1 else 0) - v.forgotten i ≤ u64Max := by
        simp only [u64Max]
        omega
      have hmore := hm.counted hc.led he he' hmax (by omega)
      omega
  · have hi : entryIno reply ≠ some i := by
      intro he
      obtain ⟨e, hx⟩ := hm.known hc.led he
      exact absurd (hx.symm.trans hnone) (by simp)
    rw [replies_after, if_neg hi] at hlt ⊢
    rw [forgotten_after hr]
    cases he : t.byIno.lookup i with
    | none => exact (hc.present i he hlt).imp_right (hold i)
    | some e =>
      obtain ⟨p, hp, hpre⟩ := hm.dropped_below hc.led he hnone
      exact .inr (hnew i p e.path hp (getPath_eq_some.mpr ⟨e, he, rfl⟩) hpre)

/-- A forget of no more than was sent. -/
theorem Covers.forget {ino n : Nat} (hc : Covers t v gone) (hv : v.forgotten ino + n ≤ v.replies ino) :
    Covers (t.forget ino n) (forgets v ino n) gone := by
  refine ⟨hc.toTallied.forget hv, fun i e' he' hlt => ?_, fun i hnone hlt => ?_⟩
  · rw [replies_forgets] at hlt ⊢
    rw [forgotten_forgets]
    rw [entry_forget] at he'
    split at he'
    · next hi =>
      rw [if_pos hi.1]
      cases he : t.byIno.lookup i with
      | none => simp [he] at he'
      | some e =>
        have hcount := hc.counted i e he hlt
        simp only [he] at he'
        split at he'
        · exact absurd he' (by simp)
        · obtain rfl := Option.some.inj he'
          simp only
          omega
    · have hcount := hc.counted i e' he' hlt
      split <;> omega
  · rw [replies_forgets] at hlt ⊢
    rw [forgotten_forgets]
    rw [entry_forget] at hnone
    split at hnone
    · next hi =>
      obtain rfl := hi.1
      rw [if_pos rfl]
      cases he : t.byIno.lookup i with
      | none => exact (hc.present i he hlt).imp_left fun h => by omega
      | some e =>
        have hcount := hc.counted i e he hlt
        simp only [he] at hnone
        split at hnone
        · exact .inl (by omega)
        · exact absurd hnone (by simp)
    · refine (hc.present i hnone hlt).imp_left fun h => ?_
      split
      · next hi =>
        subst hi
        omega
      · exact h

end Counts

/-- At some step of the run the path that an inode had then, or a directory above it, was removed
or replaced. -/
def Replaced (cfg : FsConfig) (x : Fs × KernelView) (rs : List (FsKernel × FsRequest)) (i : Nat) : Prop :=
  ∃ as k r bs u v p q, rs = as ++ (k, r) :: bs ∧ run (viewStep cfg) x as = some (u, v) ∧
    taken u.inodes r (u.handle cfg k r).2 = some p ∧ u.inodes.getPath i = some q ∧ p <+: q

theorem Replaced.snoc {x : Fs × KernelView} {rs : List (FsKernel × FsRequest)} {i : Nat}
    (h : Replaced cfg x rs i) (a : FsKernel × FsRequest) : Replaced cfg x (rs ++ [a]) i := by
  obtain ⟨as, k, r, bs, u, v, p, q, rfl, hrun, hp, hq, hpre⟩ := h
  exact ⟨as, k, r, bs ++ [a], u, v, p, q, by simp, hrun, hp, hq, hpre⟩

theorem covers_start (disk : Disk) (dir : CacheDir) (db : CacheDb) (gone : Nat → Prop) :
    Covers (start disk dir db).inodes .start gone :=
  ⟨⟨⟨new_wf.inverse.leads, new_wf.issued⟩, fun _ => le_rfl, fun _ _ => rfl⟩, fun _ _ _ _ => Nat.zero_le _,
    fun _ _ _ => .inl rfl⟩

/-- A step of the mount and its kernel. -/
theorem viewStep_eq_some {x x' : Fs × KernelView} (h : viewStep cfg x (k, r) = some x') :
    x.2.Allows r ∧ (x.1.handle cfg k r).2 ≠ .panic ∧
      x' = ((x.1.handle cfg k r).1, x.2.after r (x.1.handle cfg k r).2) := by
  unfold viewStep at h
  split at h
  · next hv =>
    obtain ⟨s', hs, rfl⟩ := Option.map_eq_some_iff.mp h
    simp only [step] at hs
    split at hs
    · split at hs
      · exact absurd hs (by simp)
      · next u reply hnopanic hh =>
        obtain rfl := Option.some.inj hs
        exact ⟨hv, by rw [hh]; exact hnopanic, by rw [hh]⟩
    · exact absurd hs (by simp)
  · exact absurd h (by simp)

theorem covers_run {disk : Disk} {dir : CacheDir} {db : CacheDb} {rs : List (FsKernel × FsRequest)}
    {s : Fs} {v : KernelView} (h : run (viewStep cfg) (start disk dir db, .start) rs = some (s, v)) :
    Covers s.inodes v (Replaced cfg (start disk dir db, .start) rs) := by
  induction rs using List.reverseRecOn generalizing s v with
  | nil =>
    obtain ⟨rfl, rfl⟩ := Prod.mk.inj (Option.some.inj h)
    exact covers_start disk dir db _
  | append_singleton rs a ih =>
    obtain ⟨k, r⟩ := a
    obtain ⟨⟨u, w⟩, hu, hlast⟩ := run_append.mp h
    obtain ⟨x, hs, hx⟩ := run_cons.mp hlast
    obtain rfl := Option.some.inj hx
    obtain ⟨hv, hpanic, heq⟩ := viewStep_eq_some hs
    obtain ⟨rfl, rfl⟩ := Prod.mk.inj heq
    have hc := ih hu
    have hold : ∀ i, Replaced cfg (start disk dir db, .start) rs i →
        Replaced cfg (start disk dir db, .start) (rs ++ [(k, r)]) i := fun i hi => hi.snoc (k, r)
    by_cases hr : ∀ ino n, r ≠ .forget ino n
    · refine hc.moves (moves_handle hc.led hr hpanic) hr hold ?_
      intro i p q hp hq hpre
      exact ⟨rs, k, r, [], u, w, p, q, rfl, hu, hp, hq, hpre⟩
    · obtain ⟨ino, n, rfl⟩ : ∃ ino n, r = .forget ino n := by simpa using hr
      have hforget := hc.forget hv
      exact ⟨hforget.toTallied, hforget.counted,
        fun i hi hlt => (hforget.present i hi hlt).imp_right (hold i)⟩

/-- In every run whose kernel forgets no more than it was sent: an inode that was sent more often
than it was forgotten is in the table, unless what it was at was removed or replaced; and the
forget of another one does not touch it. -/
theorem held_present (cfg : FsConfig) (disk : Disk) (dir : CacheDir) (db : CacheDb)
    (rs : List (FsKernel × FsRequest)) (s : Fs) (v : KernelView)
    (h : run (viewStep cfg) (start disk dir db, .start) rs = some (s, v)) (i : Nat)
    (hlt : v.replies i < 2^64) (hheld : v.forgotten i < v.replies i) :
    ((s.inodes.getPath i).isSome ∨ Replaced cfg (start disk dir db, .start) rs i) ∧
      ∀ j n, j ≠ i → (s.inodes.forget j n).getPath i = s.inodes.getPath i := by
  have hc := covers_run h
  constructor
  · cases he : s.inodes.byIno.lookup i with
    | some e => exact .inl (by simp [getPath, he])
    | none => exact .inr ((hc.present i he hlt).resolve_left hheld.ne)
  · intro j n hj
    rw [getPath, entry_forget, if_neg fun h => hj h.1.symm, getPath]

section Holding

/-- The file is looked up twice and listed, and forgotten once. -/
def holding : List (FsKernel × FsRequest) :=
  [(.readOnly 3, .lookup rootIno sleeveName), (.readOnly 3, .readdir rootIno [sleeveName]),
    (.readOnly 3, .lookup rootIno sleeveName), (.readOnly 3, .forget 2 1)]

theorem sleeve_held : ∃ s v, run (viewStep playingConfig) (coverStart, .start) holding = some (s, v) ∧
    v.forgotten 2 < v.replies 2 ∧
    ((s.inodes.getPath 2).isSome ∨ Replaced playingConfig (coverStart, .start) holding 2) ∧
    ∀ j n, j ≠ 2 → (s.inodes.forget j n).getPath 2 = s.inodes.getPath 2 := by
  refine ⟨_, _, rfl, by decide, ?_⟩
  exact held_present playingConfig Mounted.sleeveStart.disk Mounted.sleeveStart.dir Mounted.sleeveStart.db
    holding _ _ rfl 2 (by decide) (by decide)

end Holding

end Fs

end FsCache
