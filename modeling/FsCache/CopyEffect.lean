import FsCache.CopySound

/- What a copy leaves behind, alone in its cache directory (`perform_copy`, cache/io.rs).

   The steps are those of `copyStep`. Here they also carry the mode and the times of the cache
   files, which `apply_source_metadata` sets, and what the reads have returned. Any call may
   fail, and the backing and the abort flag may change between any two of them; only two calls
   are taken to succeed: `create_dir_all` on a directory that is there, and the removal of the
   temporary file.

     1. `copy_outcome`: after an error the destination is as before, after a success it is what
        was read, with the permission bits and the time of the snapshot; and either way there
        is no temporary file.
     2. a run with a failed call, an abort or a stale source ends in the error: `Copying.Fails`,
        `CopyPc.toErr`.

   `lchown` comes after `chmod` and clears the set-user-ID bit, so only the permission bits are
   sure to be those of the snapshot.

   Given: the cache directory is a tree, and the destination is absent or a file.

   Correspondence (Rust ↔ Lean):
     `perform_copy`, `perform_copy_inner`  ↔ `Copying.step`, by `copyStep`
     `apply_source_metadata`               ↔ `applySourceMetadata` -/

namespace FsCache
open Lib

/-- Every name is in a directory. -/
def CacheDir.IsTree (dir : CacheDir) : Prop :=
  ∀ q, (dir.lookup q).isSome = true → dir.isDir q.dropLast = true

/-- What a cache file has beside its bytes. -/
structure FileAttrs where
  mode : Nat
  mtimeSec : Int
  mtimeNsec : Int
  deriving DecidableEq

/-- Which of the calls of `apply_source_metadata` succeed. -/
structure ApplyChoice where
  chmod : Bool
  lchown : Bool
  utimens : Bool

/-- A change of owner clears the set-user-ID bit, and the set-group-ID bit of a file that its group
can execute. -/
def chownedMode (mode : Nat) : Nat := if mode &&& 0o010 = 0 then mode &&& 0o3777 else mode &&& 0o1777

/-- The attributes after it, and whether it returns `Ok`. A failed `lchown` is only logged. -/
def applySourceMetadata (c : ApplyChoice) (source : SourceMetadata) (a : FileAttrs) : FileAttrs × Bool :=
  if !c.chmod then (a, false)
  else
    let mode := source.mode &&& 0o7777
    let a := { a with mode := if c.lchown then chownedMode mode else mode }
    if !c.utimens then (a, false)
    else ({ a with mtimeSec := source.mtimeSec, mtimeNsec := source.mtimeNsec }, true)

/-- A copy at work, and all it works on. -/
structure Copying where
  backing : Backing
  dir : CacheDir
  attrs : Nat → FileAttrs
  bytesRead : List UInt8
  pc : CopyPc

/-- How a call turns out. -/
structure CallOutcome where
  choice : CopyChoice
  abort : Bool
  applied : ApplyChoice
  /-- the mode of a new file, and the time -/
  fresh : FileAttrs

inductive CopyingAction where
  | change (c : BackingChange)
  | call (o : CallOutcome)

/-- The calls that do not fail. -/
def CopyPc.honest (dir : CacheDir) (p : RelPath) (c : CopyChoice) : CopyPc → Bool
  | .mkdir => !(c.fail && dir.isDir p.dropLast)
  | .failInner _ | .failOuter _ => !c.fail
  | .openSrc | .fstat _ | .openDst .. | .read _ | .write .. | .sync _ | .checkAbort _ | .finalStat ..
  | .apply .. | .rename .. | .ok _ | .err => true

/-- The calls that are still to come on the way to an error. -/
def CopyPc.toErr : CopyPc → Option Nat
  | .finalStat _ true => some 3
  | .failInner _ => some 2
  | .failOuter _ => some 1
  | .err => some 0
  | .mkdir | .openSrc | .fstat _ | .openDst .. | .read _ | .write .. | .sync _ | .checkAbort _
  | .finalStat _ false | .apply .. | .rename .. | .ok _ => none

namespace Copying

variable (p : RelPath) (s : Copying)

def choiceOf (o : CallOutcome) : CopyChoice :=
  match s.pc with
  | .apply ctx source =>
    { o.choice with fail := !(applySourceMetadata o.applied source (s.attrs ctx.dst)).2 }
  | _ => o.choice

/-- The attributes after a call. -/
def attrsAfter (o : CallOutcome) (pc' : CopyPc) : Nat → FileAttrs :=
  match s.pc, pc' with
  | .openDst .., .read ctx =>
    let mode := if (s.dir.fileAt (partialPath p)).isSome then (s.attrs ctx.dst).mode else o.fresh.mode
    Function.update s.attrs ctx.dst { o.fresh with mode := mode }
  | .write ctx _, _ =>
    Function.update s.attrs ctx.dst { o.fresh with mode := (s.attrs ctx.dst).mode }
  | .apply _ source, _ =>
    match s.dir.fileAt (partialPath p) with
    | none => s.attrs
    | some i => Function.update s.attrs i (applySourceMetadata o.applied source (s.attrs i)).1
  | _, _ => s.attrs

def readAfter (pc' : CopyPc) : List UInt8 :=
  match s.pc, pc' with
  | .read _, .write _ chunk => s.bytesRead ++ chunk
  | _, _ => s.bytesRead

def step : CopyingAction → Option Copying
  | .change c => (s.backing.change c).map fun b => { s with backing := b }
  | .call o =>
    if s.pc.honest s.dir p (s.choiceOf o) then
      (copyStep s.backing s.dir o.abort p 1 (s.choiceOf o) s.pc).map fun r =>
        { s with
          dir := r.1
          attrs := s.attrsAfter p o r.2
          bytesRead := s.readAfter r.2
          pc := r.2 }
    else none

/-- The call fails, or finds the copy aborted or stale. -/
def Fails : CopyingAction → Bool
  | .change _ => false
  | .call o =>
    let c := s.choiceOf o
    match s.pc with
    | .mkdir => c.fail || (s.dir.createDirAll p.dropLast).isNone
    | .openSrc => c.fail || (s.backing.openFile p).isNone
    | .fstat _ | .write .. | .sync _ => c.fail
    | .openDst .. => c.fail || (s.dir.openTrunc (partialPath p)).isNone
    | .read ctx => c.fail || (s.backing.readAt ctx.src ctx.written.length (min (c.n + 1) bufLen)).isNone
    | .checkAbort _ => o.abort
    | .finalStat ctx _ => changedSince ctx.init (c.finalStat s.backing p)
    | .apply .. => c.fail || (s.dir.fileAt (partialPath p)).isNone
    | .rename .. => c.fail || (Files.rename s.dir (partialPath p) p).isNone
    | .failInner _ | .failOuter _ | .ok _ | .err => false

/-- The destination is as it was. -/
def Untouched (s₀ s : Copying) : Prop :=
  s.dir.lookup p = s₀.dir.lookup p ∧
    ∀ i, s₀.dir.fileAt p = some i → s.dir.data i = s₀.dir.data i ∧ s.attrs i = s₀.attrs i

/-- The permission bits and the time of the snapshot. -/
def Stamped (a : FileAttrs) (source : SourceMetadata) : Prop :=
  a.mode &&& 0o777 = source.mode &&& 0o777 ∧ a.mtimeSec = source.mtimeSec ∧
    a.mtimeNsec = source.mtimeNsec

/-! ## A call that fails -/

variable {p s} {s' t : Copying} {a : CopyingAction}

theorem call_of_step {o : CallOutcome} (h : step p s (.call o) = some s') :
    s.pc.honest s.dir p (s.choiceOf o) = true ∧
      ∃ dir pc, copyStep s.backing s.dir o.abort p 1 (s.choiceOf o) s.pc = some (dir, pc) ∧
        s' = { s with
          dir := dir
          attrs := s.attrsAfter p o pc
          bytesRead := s.readAfter pc
          pc := pc } := by
  rw [step] at h
  split at h
  · next hhonest =>
    obtain ⟨r, hr, rfl⟩ := Option.map_eq_some_iff.mp h
    exact ⟨hhonest, r.1, r.2, hr, rfl⟩
  · cases h

theorem toErr_of_fails (hfails : Fails p s a = true) (h : step p s a = some s') :
    s'.pc.toErr.isSome = true := by
  cases a with
  | change c => exact Bool.noConfusion hfails
  | call o =>
    obtain ⟨-, dir, pc, hstep, rfl⟩ := call_of_step h
    rw [Fails] at hfails
    generalize s.choiceOf o = c at hfails hstep
    show pc.toErr.isSome = true
    cases hpc : s.pc with
    | mkdir | openSrc | openDst | read | apply | rename =>
      rw [hpc] at hfails hstep
      rw [Bool.or_eq_true, Option.isNone_iff_eq_none] at hfails
      unfold copyStep at hstep
      obtain hfail | hnone := hfails
      · simp only [hfail, if_true, Bool.true_or, Option.some.injEq, Prod.mk.injEq] at hstep
        obtain ⟨-, rfl⟩ := hstep
        rfl
      · simp only [hnone, Option.isNone_none, Bool.or_true, if_true, ite_self, Option.some.injEq,
          Prod.mk.injEq] at hstep
        obtain ⟨-, rfl⟩ := hstep
        rfl
    | fstat | write | sync =>
      rw [hpc] at hfails hstep
      unfold copyStep at hstep
      simp only [show c.fail = true from hfails, if_true, Option.some.injEq, Prod.mk.injEq] at hstep
      obtain ⟨-, rfl⟩ := hstep
      rfl
    | checkAbort ctx =>
      rw [hpc] at hfails hstep
      unfold copyStep at hstep
      rw [show o.abort = true from hfails, Option.some.injEq, Prod.mk.injEq] at hstep
      obtain ⟨-, rfl⟩ := hstep
      rfl
    | finalStat ctx aborted =>
      rw [hpc] at hfails hstep
      unfold copyStep at hstep
      have hstale : changedSince ctx.init (c.finalStat s.backing p) = true := hfails
      simp only [hstale, Bool.or_true, if_true, Option.some.injEq, Prod.mk.injEq] at hstep
      obtain ⟨-, rfl⟩ := hstep
      rfl
    | failInner | failOuter | ok | err =>
      rw [hpc] at hfails
      exact Bool.noConfusion hfails

/-- On the way to an error a copy stays on it. -/
theorem toErr_step (hs : s.pc.toErr.isSome = true) (h : step p s a = some s') : s'.pc.toErr.isSome = true := by
  cases a with
  | change c =>
    obtain ⟨b, -, rfl⟩ := Option.map_eq_some_iff.mp h
    exact hs
  | call o =>
    obtain ⟨-, dir, pc, hstep, rfl⟩ := call_of_step h
    show pc.toErr.isSome = true
    cases hpc : s.pc with
    | failInner | failOuter =>
      rw [hpc] at hstep
      obtain ⟨-, rfl⟩ := Prod.mk.inj (Option.some.inj hstep)
      rfl
    | err =>
      rw [hpc] at hstep
      cases hstep
    | finalStat ctx aborted =>
      rw [hpc] at hs hstep
      cases aborted with
      | false => cases hs
      | true =>
        obtain ⟨-, rfl⟩ := Prod.mk.inj (Option.some.inj hstep)
        rfl
    | mkdir | openSrc | fstat | openDst | read | write | sync | checkAbort | apply | rename | ok =>
      rw [hpc] at hs
      cases hs

/-- A copy that is not on the way to an error has had no failure. -/
theorem no_failure_of_toErr {as : List CopyingAction} (hrun : run (step p) s as = some t)
    (ht : t.pc.toErr = none) : Along (step p) (fun s a => Fails p s a = false) s as := by
  induction as generalizing s with
  | nil => trivial
  | cons a as ih =>
    obtain ⟨s₁, hstep, hrest⟩ := run_cons.mp hrun
    refine ⟨Bool.eq_false_iff.mpr fun hfails => ?_, fun s₂ h₂ => ?_⟩
    · have hend : t.pc.toErr.isSome = true :=
        run_invariant (fun u : Copying => u.pc.toErr.isSome = true) (fun _ _ _ hu h => toErr_step hu h) hrest
          (toErr_of_fails hfails hstep)
      rw [ht] at hend
      cases hend
    · obtain rfl := Option.some.inj (hstep.symm.trans h₂)
      exact ih hrest

theorem call_toErr {n : Nat} (hs : s.pc.toErr = some (n + 1)) {o : CallOutcome} (ho : o.choice.fail = false) :
    ∃ s', step p s (.call o) = some s' ∧ s'.pc.toErr = some n := by
  have hcall : s.pc.honest s.dir p (s.choiceOf o) = true ∧
      ∃ dir pc, copyStep s.backing s.dir o.abort p 1 (s.choiceOf o) s.pc = some (dir, pc) ∧
        pc.toErr = some n := by
    cases hpc : s.pc with
    | failInner ctx =>
      rw [hpc] at hs
      obtain rfl : 1 = n := Nat.succ.inj (Option.some.inj hs)
      exact ⟨by simp [CopyPc.honest, choiceOf, hpc, ho], _, _, rfl, rfl⟩
    | failOuter ctx =>
      rw [hpc] at hs
      obtain rfl : 0 = n := Nat.succ.inj (Option.some.inj hs)
      exact ⟨by simp [CopyPc.honest, choiceOf, hpc, ho], _, _, rfl, rfl⟩
    | finalStat ctx aborted =>
      rw [hpc] at hs
      cases aborted with
      | false => cases hs
      | true =>
        obtain rfl : 2 = n := Nat.succ.inj (Option.some.inj hs)
        exact ⟨rfl, _, _, rfl, rfl⟩
    | mkdir | openSrc | fstat | openDst | read | write | sync | checkAbort | apply | rename | ok | err =>
      rw [hpc] at hs
      cases hs
  obtain ⟨hhonest, dir, pc, hstep, hn⟩ := hcall
  exact ⟨_, by rw [step, if_pos hhonest, hstep]; rfl, hn⟩

/-- However the calls that are left turn out, they return the error. -/
theorem err_of_toErr {n : Nat} (hs : s.pc.toErr = some n) (os : List CallOutcome) (hlen : os.length = n)
    (hremoves : ∀ o ∈ os, o.choice.fail = false) :
    ∃ t, run (step p) s (os.map .call) = some t ∧ t.pc = .err := by
  induction os generalizing s n with
  | nil =>
    refine ⟨s, rfl, ?_⟩
    subst hlen
    cases hpc : s.pc with
    | err => rfl
    | finalStat ctx aborted => cases aborted <;> (rw [hpc] at hs; cases hs)
    | mkdir | openSrc | fstat | openDst | read | write | sync | checkAbort | apply | rename | failInner
    | failOuter | ok =>
      rw [hpc] at hs
      cases hs
  | cons o os ih =>
    subst hlen
    obtain ⟨s', hstep, hs'⟩ := call_toErr hs (hremoves o List.mem_cons_self)
    obtain ⟨t, hrun, ht⟩ := ih hs' rfl fun o' ho' => hremoves o' (List.mem_cons_of_mem o ho')
    exact ⟨t, run_cons.mpr ⟨s', hstep, hrun⟩, ht⟩

/-! ## The destination and the temporary file -/

theorem isDir_of_under {dir : CacheDir} (h : dir.IsTree) {q r : RelPath} (hr : dir.isDir r = true)
    (hq : q <+: r) : dir.isDir q = true := by
  induction r using List.reverseRecOn generalizing q with
  | nil => rw [List.prefix_nil.mp hq]; exact hr
  | append_singleton r n ih =>
    obtain rfl | hq := List.prefix_concat_iff.mp hq
    · exact hr
    · refine ih ?_ hq
      have hparent := h (r ++ [n]) (by rw [Files.isDir, decide_eq_true_eq] at hr; rw [hr]; rfl)
      rwa [List.dropLast_concat] at hparent

/-- Where the parent cannot be made there is no temporary file. -/
theorem no_temp_of_no_parent {dir : CacheDir} (h : dir.IsTree) {c : CopyChoice}
    (hhonest : CopyPc.mkdir.honest dir p c = true)
    (hfails : c.fail = true ∨ dir.createDirAll p.dropLast = none) :
    dir.fileAt (partialPath p) = none := by
  by_contra hfile
  obtain ⟨i, hi⟩ := Option.ne_none_iff_exists'.mp hfile
  have hparent := h (partialPath p) (by rw [Files.fileAt_eq_some.mp hi]; rfl)
  rw [dropLast_partialPath] at hparent
  obtain hfail | hnone := hfails
  · simp [CopyPc.honest, hfail, hparent] at hhonest
  · have hclear : ∀ q, q <+: p.dropLast → dir.fileAt q = none := by
      intro q hq
      by_contra hsome
      obtain ⟨j, hj⟩ := Option.ne_none_iff_exists'.mp hsome
      have hnot := Files.isDir_eq_false_of_fileAt hj
      rw [isDir_of_under h hparent hq] at hnot
      cases hnot
    obtain ⟨dir', hdir, -⟩ := Files.createDirAll_isSome hclear
    cases hnone.symm.trans hdir

/-- The temporary file is the one that was opened, and has these bytes. -/
structure TempHas (p : RelPath) (dir : CacheDir) (ctx : CopyCtx) : Prop where
  name : dir.fileAt (partialPath p) = some ctx.dst
  bytes : dir.data ctx.dst = written 1 ctx.written

/-- What is known of the temporary file at each call. -/
def Progress (p : RelPath) (s : Copying) : Prop :=
  match s.pc with
  | .mkdir => s.dir.IsTree ∧ s.bytesRead = []
  | .openSrc | .fstat _ | .openDst .. => s.bytesRead = []
  | .read ctx | .sync ctx | .checkAbort ctx | .finalStat ctx _ | .apply ctx _ =>
    TempHas p s.dir ctx ∧ s.bytesRead = ctx.written
  | .write ctx chunk => TempHas p s.dir ctx ∧ s.bytesRead = ctx.written ++ chunk
  | .rename ctx source => TempHas p s.dir ctx ∧ s.bytesRead = ctx.written ∧ Stamped (s.attrs ctx.dst) source
  | .failInner _ | .failOuter _ => True
  | .ok source => s.dir.fileAt (partialPath p) = none ∧ s.dir.bytesAt p = some s.bytesRead ∧
      ∃ i, s.dir.fileAt p = some i ∧ Stamped (s.attrs i) source
  | .err => s.dir.fileAt (partialPath p) = none

structure Sound (p : RelPath) (s₀ s : Copying) : Prop where
  untouched : (∀ source, s.pc ≠ .ok source) → Untouched p s₀ s
  progress : Progress p s

variable {s₀ : Copying}

theorem Untouched.keep (h : Untouched p s₀ s) (hname : s'.dir.lookup p = s.dir.lookup p)
    (hfile : ∀ i, s.dir.fileAt p = some i → s'.dir.data i = s.dir.data i ∧ s'.attrs i = s.attrs i) :
    Untouched p s₀ s' := by
  refine ⟨hname.trans h.1, fun i hi => ?_⟩
  have hi' : s.dir.fileAt p = some i := by
    rw [Files.fileAt_eq_some, h.1]
    exact Files.fileAt_eq_some.mp hi
  exact ⟨(hfile i hi').1.trans (h.2 i hi).1, (hfile i hi').2.trans (h.2 i hi).2⟩

/-- The destination is another file than the temporary one. -/
theorem ne_of_temp {dir : CacheDir} {i j : Nat} (hp : p ≠ []) (htemp : dir.fileAt (partialPath p) = some j)
    (hdest : dir.fileAt p = some i) : i ≠ j := by
  intro hsame
  subst hsame
  exact partialPath_ne hp (Files.fileAt_inj htemp hdest)

/-- Only the temporary file has changed. -/
theorem Untouched.other {j : Nat} (hp : p ≠ []) (h : Untouched p s₀ s)
    (htemp : s.dir.fileAt (partialPath p) = some j) (hname : s'.dir.lookup p = s.dir.lookup p)
    (hdata : ∀ i, i ≠ j → s'.dir.data i = s.dir.data i) (hattrs : ∀ i, i ≠ j → s'.attrs i = s.attrs i) :
    Untouched p s₀ s' := by
  refine h.keep hname fun i hi => ?_
  have hne := ne_of_temp hp htemp hi
  exact ⟨hdata i hne, hattrs i hne⟩

/-- The temporary file may have been removed. -/
theorem Untouched.removed (hp : p ≠ []) (h : Untouched p s₀ s)
    (hdir : s'.dir = s.dir ∨ s'.dir = removeFile s.dir (partialPath p)) (hattrs : s'.attrs = s.attrs) :
    Untouched p s₀ s' := by
  obtain hsame | hremoved := hdir
  · refine h.keep (by rw [hsame]) fun i _ => ⟨by rw [hsame], by rw [hattrs]⟩
  · refine h.keep ?_ fun i _ => ⟨?_, by rw [hattrs]⟩
    · rw [hremoved, lookup_removeFile_of_ne s.dir (Ne.symm (partialPath_ne hp))]
    · rw [hremoved, data_removeFile]

theorem permissions_chmod (mode : Nat) (lchown : Bool) :
    (if lchown then chownedMode (mode &&& 0o7777) else mode &&& 0o7777) &&& 0o777 = mode &&& 0o777 := by
  have hchmod : (mode &&& 0o7777) &&& 0o777 = mode &&& 0o777 := Nat.and_assoc mode 0o7777 0o777
  have hdrop : ∀ mask, mask &&& 0o777 = 0o777 → (mode &&& 0o7777 &&& mask) &&& 0o777 = mode &&& 0o777 := by
    intro mask hmask
    rw [Nat.and_assoc, hmask, hchmod]
  cases lchown with
  | false => exact hchmod
  | true =>
    rw [if_pos rfl, chownedMode]
    split
    · exact hdrop 0o3777 (by decide)
    · exact hdrop 0o1777 (by decide)

theorem stamped_apply {c : ApplyChoice} {source : SourceMetadata} {a : FileAttrs}
    (h : (applySourceMetadata c source a).2 = true) : Stamped (applySourceMetadata c source a).1 source := by
  rw [applySourceMetadata] at h ⊢
  cases hchmod : c.chmod with
  | false => simp [hchmod] at h
  | true =>
    cases hutimens : c.utimens with
    | false => simp [hchmod, hutimens] at h
    | true => exact ⟨permissions_chmod source.mode c.lchown, rfl, rfl⟩

theorem Sound.call (hp : p ≠ []) (h : Sound p s₀ s) {o : CallOutcome} (hs : step p s (.call o) = some s') :
    Sound p s₀ s' := by
  obtain ⟨hhonest, dir', pc', hstep, rfl⟩ := call_of_step hs
  obtain ⟨hkept, hprogress⟩ := h
  obtain ⟨b, dir, attrs, got, pc⟩ := s
  have hm := copyMove_of_step hstep
  cases pc with
  | mkdir =>
    have hstill := hkept fun _ h => by cases h
    obtain ⟨htree, hread⟩ := hprogress
    rw [copyStep] at hstep
    split at hstep
    · next hfail =>
      obtain ⟨rfl, rfl⟩ := Prod.mk.inj (Option.some.inj hstep)
      exact ⟨fun _ => hstill, no_temp_of_no_parent htree hhonest (.inl hfail)⟩
    · split at hstep
      · next hnone =>
        obtain ⟨rfl, rfl⟩ := Prod.mk.inj (Option.some.inj hstep)
        exact ⟨fun _ => hstill, no_temp_of_no_parent htree hhonest (.inr hnone)⟩
      · next hdirs =>
        obtain ⟨rfl, rfl⟩ := Prod.mk.inj (Option.some.inj hstep)
        have hname := Files.lookup_createDirAll hdirs (not_prefix_dropLast hp le_rfl)
        refine ⟨fun _ => hstill.keep hname fun i _ => ⟨?_, rfl⟩, hread⟩
        exact congrFun (Files.onlyDirs_createDirAll hdirs).data i
  | openSrc =>
    have hstill := hkept fun _ h => by cases h
    cases hm with
    | openSrc => exact ⟨fun _ => hstill, hprogress⟩
    | openSrcFails => exact ⟨fun _ => hstill, trivial⟩
  | fstat src =>
    have hstill := hkept fun _ h => by cases h
    cases hm with
    | fstat => exact ⟨fun _ => hstill, hprogress⟩
    | fstatFails => exact ⟨fun _ => hstill, trivial⟩
  | openDst src init =>
    have hstill := hkept fun _ h => by cases h
    cases hm with
    | openDstFails => exact ⟨fun _ => hstill, trivial⟩
    | @openDst _ _ _ dst hopen =>
      have hname : dir'.fileAt (partialPath p) = some dst := by rw [Files.fileAt_openTrunc hopen, if_pos rfl]
      have hdata : dir'.data = Function.update dir.data dst [] := (Files.openTrunc_spec hopen).2.1
      refine ⟨fun _ => hstill.keep (Files.lookup_openTrunc_of_ne hopen (Ne.symm (partialPath_ne hp))) ?_, ⟨hname, ?_⟩,
        hprogress⟩
      · intro i hi
        have hdest : dir'.fileAt p = some i := by
          rw [Files.fileAt_openTrunc hopen, if_neg (Ne.symm (partialPath_ne hp))]
          exact hi
        have hne := ne_of_temp hp hname hdest
        exact ⟨by rw [hdata, Function.update_of_ne hne], Function.update_of_ne hne ..⟩
      · rw [hdata, Function.update_self]
        rfl
  | read ctx =>
    have hstill := hkept fun _ h => by cases h
    obtain ⟨htemp, hread⟩ := hprogress
    cases hm with
    | readFails => exact ⟨fun _ => hstill, trivial⟩
    | eof => exact ⟨fun _ => hstill, htemp, hread⟩
    | @chunk _ _ bs =>
      refine ⟨fun _ => hstill, htemp, ?_⟩
      show got ++ bs = _
      rw [show got = ctx.written from hread]
  | write ctx chunk =>
    have hstill := hkept fun _ h => by cases h
    obtain ⟨htemp, hread⟩ := hprogress
    cases hm with
    | writeFails =>
      refine ⟨fun _ => hstill.other hp htemp.name rfl (fun i hi => ?_) fun i hi => ?_, trivial⟩
      · exact Files.data_writeAt_other hi
      · exact Function.update_of_ne hi ..
    | write =>
      refine ⟨fun _ => hstill.other hp htemp.name rfl (fun i hi => ?_) fun i hi => ?_,
        ⟨htemp.name, ?_⟩, hread⟩
      · exact Files.data_writeAt_other hi
      · exact Function.update_of_ne hi ..
      · exact data_written_end htemp.bytes
  | sync ctx =>
    have hstill := hkept fun _ h => by cases h
    cases hm with
    | syncFails => exact ⟨fun _ => hstill, trivial⟩
    | sync => exact ⟨fun _ => hstill, hprogress⟩
  | checkAbort ctx =>
    have hstill := hkept fun _ h => by cases h
    cases hm with
    | checkAbort => exact ⟨fun _ => hstill, hprogress⟩
  | finalStat ctx aborted =>
    have hstill := hkept fun _ h => by cases h
    cases hm with
    | refuse => exact ⟨fun _ => hstill, trivial⟩
    | accept => exact ⟨fun _ => hstill, hprogress⟩
  | apply ctx source =>
    have hstill := hkept fun _ h => by cases h
    obtain ⟨htemp, hread⟩ := hprogress
    have hattrs : attrsAfter p ⟨b, dir, attrs, got, .apply ctx source⟩ o pc' =
        Function.update attrs ctx.dst (applySourceMetadata o.applied source (attrs ctx.dst)).1 := by
      simp only [attrsAfter, htemp.name]
    rw [hattrs]
    rw [copyStep] at hstep
    split at hstep
    · obtain ⟨rfl, rfl⟩ := Prod.mk.inj (Option.some.inj hstep)
      refine ⟨fun _ => hstill.other hp htemp.name rfl (fun _ _ => rfl) fun i hi => ?_, trivial⟩
      exact Function.update_of_ne hi ..
    · next hdone =>
      obtain ⟨rfl, rfl⟩ := Prod.mk.inj (Option.some.inj hstep)
      refine ⟨fun _ => hstill.other hp htemp.name rfl (fun _ _ => rfl) fun i hi => ?_, htemp, hread, ?_⟩
      · exact Function.update_of_ne hi ..
      show Stamped (Function.update attrs ctx.dst _ ctx.dst) source
      rw [Function.update_self]
      refine stamped_apply ?_
      by_contra hfailed
      refine hdone ?_
      rw [Bool.or_eq_true]
      left
      show (!(applySourceMetadata o.applied source (attrs ctx.dst)).2) = true
      rw [Bool.eq_false_iff.mpr hfailed]
      rfl
  | rename ctx source =>
    have hstill := hkept fun _ h => by cases h
    obtain ⟨htemp, hread, hstamped⟩ := hprogress
    cases hm with
    | renameFails => exact ⟨fun _ => hstill, trivial⟩
    | rename hrename =>
      have hname : dir'.fileAt p = some ctx.dst := by
        rw [Files.fileAt_rename hrename, if_pos rfl]
        exact htemp.name
      have hcontents : dir'.contents p = some (written 1 ctx.written) := by
        rw [Files.contents_rename hrename, Files.contents, htemp.name, Option.map_some]
        exact congrArg some htemp.bytes
      refine ⟨fun h => absurd rfl (h source), ?_, ?_, ctx.dst, hname, hstamped⟩
      · rw [Files.fileAt_rename hrename, if_neg (partialPath_ne hp), if_pos rfl]
      · have hgot : got = ctx.written := hread
        exact (CacheDir.bytesAt_written hcontents).trans (congrArg some hgot.symm)
  | failInner ctx =>
    have hstill := hkept fun _ h => by cases h
    cases hm with
    | removeInner hremove =>
      exact ⟨fun _ => hstill.removed hp hremove rfl, trivial⟩
  | failOuter ctx =>
    have hstill := hkept fun _ h => by cases h
    have hremoves : o.choice.fail = false := by
      rw [CopyPc.honest, Bool.not_eq_true'] at hhonest
      exact hhonest
    obtain ⟨hdir, rfl⟩ := Prod.mk.inj (Option.some.inj hstep)
    obtain rfl : removeFile dir (partialPath p) = dir' := by
      rw [← hdir]
      exact (if_neg (Bool.eq_false_iff.mp hremoves)).symm
    refine ⟨fun _ => hstill.removed hp (.inr rfl) rfl, ?_⟩
    show (removeFile dir (partialPath p)).fileAt (partialPath p) = none
    rw [fileAt_removeFile, if_pos rfl]
  | ok source => cases hm
  | err => cases hm

theorem Sound.step (hp : p ≠ []) (h : Sound p s₀ s) (hs : step p s a = some s') : Sound p s₀ s' := by
  cases a with
  | change c =>
    obtain ⟨b, -, rfl⟩ := Option.map_eq_some_iff.mp hs
    exact ⟨h.untouched, h.progress⟩
  | call o => exact h.call hp hs

/-- A copy that is about to begin. -/
def start (b : Backing) (dir : CacheDir) (attrs : Nat → FileAttrs) : Copying := ⟨b, dir, attrs, [], .mkdir⟩

/-- A copy that returns an error has changed nothing, and a copy that returns a snapshot has stored
what it read; a failed call leads to the error. -/
theorem copy_outcome (b : Backing) {dir : CacheDir} (attrs : Nat → FileAttrs) (htree : dir.IsTree)
    (hdest : dir.isDir p = false) {as : List CopyingAction}
    (hrun : run (step p) (start b dir attrs) as = some s) :
    (s.pc = .err → Untouched p (start b dir attrs) s ∧ s.dir.fileAt (partialPath p) = none) ∧
    (∀ source, s.pc = .ok source → s.dir.fileAt (partialPath p) = none ∧
      s.dir.bytesAt p = some s.bytesRead ∧
      ∃ i, s.dir.fileAt p = some i ∧ Stamped (s.attrs i) source) ∧
    (¬ Along (step p) (fun s a => Fails p s a = false) (start b dir attrs) as →
      ∃ n, s.pc.toErr = some n ∧ ∀ os : List CallOutcome, os.length = n → (∀ o ∈ os, o.choice.fail = false) →
        ∃ t, run (step p) s (os.map .call) = some t ∧ t.pc = .err) := by
  have hp : p ≠ [] := by
    intro hroot
    subst hroot
    cases hdest
  have hstart : Sound p (start b dir attrs) (start b dir attrs) :=
    ⟨fun _ => ⟨rfl, fun _ _ => ⟨rfl, rfl⟩⟩, htree, rfl⟩
  have hsound := run_invariant (Sound p (start b dir attrs)) (fun _ _ _ h hs => h.step hp hs) hrun hstart
  refine ⟨fun herr => ⟨hsound.untouched fun source hok => ?_, ?_⟩, fun source hok => ?_, fun hfailed => ?_⟩
  · cases herr.symm.trans hok
  · have hprogress := hsound.progress
    rw [Progress, herr] at hprogress
    exact hprogress
  · have hprogress := hsound.progress
    rw [Progress, hok] at hprogress
    exact hprogress
  · cases hn : s.pc.toErr with
    | none => exact absurd (no_failure_of_toErr hrun hn) hfailed
    | some n => exact ⟨n, rfl, err_of_toErr hn⟩

section TwoBytes

private def reel : Name := ⟨[102], Eq.refl true⟩

private def unset : Nat → FileAttrs := fun _ => ⟨0o600, 0, 0⟩

/-- The call succeeds; at its owner `lchown` is refused. -/
private def done : CopyingAction := .call ⟨⟨1, false⟩, false, ⟨true, false, true⟩, ⟨0o600, 9, 0⟩⟩

private def refused : CopyingAction := .call ⟨⟨1, true⟩, false, ⟨true, false, true⟩, ⟨0o600, 9, 0⟩⟩

private theorem isTree_empty : CacheDir.IsTree Files.empty := by
  intro q hq
  cases q with
  | nil => rfl
  | cons n q => cases hq

/-- A copy of two bytes, and one whose write fails half way. -/
theorem twoBytes_outcome :
    (∃ s source, run (step [reel]) (start twoBytes Files.empty unset) (List.replicate 12 done) = some s ∧
      s.pc = .ok source ∧ s.dir.fileAt (partialPath [reel]) = none ∧
      s.dir.bytesAt [reel] = some s.bytesRead ∧
      ∃ i, s.dir.fileAt [reel] = some i ∧ Stamped (s.attrs i) source) ∧
    ∃ s, run (step [reel]) (start twoBytes Files.empty unset)
        (List.replicate 5 done ++ [refused, done, done]) = some s ∧
      s.pc = .err ∧ Untouched [reel] (start twoBytes Files.empty unset) s ∧
      s.dir.fileAt (partialPath [reel]) = none := by
  constructor
  · obtain ⟨s, source, hrun, hpc⟩ : ∃ s source, run (step [reel]) (start twoBytes Files.empty unset)
        (List.replicate 12 done) = some s ∧ s.pc = .ok source := ⟨_, _, rfl, rfl⟩
    exact ⟨s, source, hrun, hpc, (copy_outcome twoBytes unset isTree_empty rfl hrun).2.1 source hpc⟩
  · obtain ⟨s, hrun, hpc⟩ : ∃ s, run (step [reel]) (start twoBytes Files.empty unset)
        (List.replicate 5 done ++ [refused, done, done]) = some s ∧ s.pc = .err := ⟨_, rfl, rfl⟩
    exact ⟨s, hrun, hpc, (copy_outcome twoBytes unset isTree_empty rfl hrun).1 hpc⟩

end TwoBytes

end Copying

end FsCache
