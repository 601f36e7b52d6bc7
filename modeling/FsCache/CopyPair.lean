import Mathlib.Logic.Relation
import FsCache.Lib.Run
import FsCache.CopyWindow

/- Two copies of distinct paths in one cache directory.

   The copies of `p` and of `q` take their steps in any order, and the backing
   directory changes in between. `Isolated p q` says that no step of the copy of
   `q` changes the committed cache file of `p` or the temporary file being
   written for it, and that the copy of `p`, when it returns Ok, has left at `p`
   the bytes it has read.

   `isolated_iff`: two paths are isolated exactly when neither is the temporary
   name of the other. A temporary file is a file `p.partial` in the tree that
   holds the committed entries, and a backing file may have that name. -/

namespace FsCache
open Lib

/-- Two copies at work. `copied` records what the copy of `p` had read when it
renamed its temporary file; no step reads it. -/
structure Pair where
  backing : Backing
  dir : CacheDir
  pcP : CopyPc
  pcQ : CopyPc
  copied : Option (List UInt8)

inductive PairAction where
  | change (c : BackingChange)
  | copyP (c : CopyChoice) (abort : Bool)
  | copyQ (c : CopyChoice) (abort : Bool)

def Pair.start (b : Backing) (dir : CacheDir) : Pair := ⟨b, dir, .mkdir, .mkdir, none⟩

def pairStep (p q : RelPath) (s : Pair) : PairAction → Option Pair
  | .change c => (s.backing.change c).map fun b => { s with backing := b }
  | .copyP c abort =>
    (copyStep s.backing s.dir abort p 1 c s.pcP).map fun r =>
      { s with
        dir := r.1
        pcP := r.2
        copied := match s.pcP, r.2 with
          | .rename ctx _, .ok _ => some ctx.written
          | _, _ => s.copied }
  | .copyQ c abort =>
    (copyStep s.backing s.dir abort q 2 c s.pcQ).map fun r => { s with dir := r.1, pcQ := r.2 }

/-- Neither the committed file of `p` nor the temporary file being written for
it changes. -/
def Undisturbed (p : RelPath) (s s' : Pair) : Prop :=
  s'.dir.contents p = s.dir.contents p ∧
    ∀ ctx, s.pcP.window = some ctx →
      s'.dir.fileAt (partialPath p) = s.dir.fileAt (partialPath p) ∧
        s'.dir.data ctx.dst = s.dir.data ctx.dst

/-- Over every backing, every cache directory and every order of steps. -/
def Isolated (p q : RelPath) : Prop :=
  ∀ b dir as s, run (pairStep p q) (Pair.start b dir) as = some s →
    (∀ c abort s', pairStep p q s (.copyQ c abort) = some s' → Undisturbed p s s') ∧
      ∀ snapshot, s.pcP = .ok snapshot → ∃ bs, s.copied = some bs ∧ s.dir.bytesAt p = some bs

/-! ## Apart from each other's temporary names -/

def Pair.copies (p q : RelPath) (s : Pair) : Copies := fun t =>
  if t = 1 then some (p, s.pcP) else if t = 2 then some (q, s.pcQ) else none

theorem Pair.copies_stepP (p q : RelPath) (s : Pair) (dir : CacheDir) (pc : CopyPc)
    (copied : Option (List UInt8)) :
    ({ s with dir := dir, pcP := pc, copied := copied } : Pair).copies p q =
      Function.update (s.copies p q) 1 (some (p, pc)) := by
  funext t
  by_cases ht : t = 1 <;> simp [Pair.copies, ht]

theorem Pair.copies_stepQ (p q : RelPath) (s : Pair) (dir : CacheDir) (pc : CopyPc) :
    ({ s with dir := dir, pcQ := pc } : Pair).copies p q =
      Function.update (s.copies p q) 2 (some (q, pc)) := by
  funext t
  by_cases ht : t = 2
  · simp [Pair.copies, ht]
  · by_cases ht₁ : t = 1 <;> simp [Pair.copies, ht, ht₁]

theorem Pair.inWindow {p q r : RelPath} {s : Pair} {t : Nat} {ctx : CopyCtx}
    (h : InWindow (s.copies p q) t r ctx) :
    t = 1 ∧ r = p ∧ s.pcP.window = some ctx ∨ t = 2 ∧ r = q ∧ s.pcQ.window = some ctx := by
  obtain ⟨pc, hcp, hw⟩ := h
  unfold Pair.copies at hcp
  split at hcp
  · next ht =>
    obtain ⟨rfl, rfl⟩ := Prod.mk.inj (Option.some.inj hcp)
    exact .inl ⟨ht, rfl, hw⟩
  · split at hcp
    · next ht =>
      obtain ⟨rfl, rfl⟩ := Prod.mk.inj (Option.some.inj hcp)
      exact .inr ⟨ht, rfl, hw⟩
    · exact absurd hcp (by simp)

/-- What holds of two copies of paths apart from each other's temporary names. -/
structure Pair.Inv (p q : RelPath) (s : Pair) : Prop where
  windows : Windows s.dir (s.copies p q)
  sealed : SealedAt s.dir (s.copies p q) p
  done : ∀ snapshot, s.pcP = .ok snapshot →
    ∃ bs, s.copied = some bs ∧ s.dir.contents p = some (written 1 bs)

theorem Pair.inv_start (p q : RelPath) (b : Backing) (dir : CacheDir) :
    (Pair.start b dir).Inv p q := by
  have hno : ∀ t r ctx, ¬ InWindow ((Pair.start b dir).copies p q) t r ctx := by
    intro t r ctx h
    rcases Pair.inWindow h with ⟨-, -, hw⟩ | ⟨-, -, hw⟩ <;>
      exact absurd hw (by simp [Pair.start, CopyPc.window])
  refine ⟨.of_none _ hno, .of_none _ hno, fun snapshot h => ?_⟩
  exact absurd h (by simp [Pair.start])

theorem Pair.alone₁ {p q : RelPath} (hpq : p ≠ q) (s : Pair) : Alone (s.copies p q) 1 p := by
  intro t r ctx hne hi
  rcases Pair.inWindow hi with ⟨ht, -, -⟩ | ⟨-, rfl, -⟩
  · exact absurd ht hne
  · exact hpq.symm

theorem Pair.alone₂ {p q : RelPath} (hpq : p ≠ q) (s : Pair) : Alone (s.copies p q) 2 q := by
  intro t r ctx hne hi
  rcases Pair.inWindow hi with ⟨-, rfl, -⟩ | ⟨ht, -, -⟩
  · exact hpq
  · exact absurd ht hne

theorem Pair.inv_step {p q : RelPath} (hpq : p ≠ q) (hqp : q ≠ partialPath p)
    (hpq' : p ≠ partialPath q) {s s' : Pair} {a : PairAction} (h : s.Inv p q)
    (hs : pairStep p q s a = some s') : s'.Inv p q := by
  cases a with
  | change c =>
    obtain ⟨b, -, rfl⟩ := Option.map_eq_some_iff.mp hs
    exact ⟨h.windows, h.sealed, h.done⟩
  | copyP c abort =>
    obtain ⟨⟨dir', pc'⟩, hstep, rfl⟩ := Option.map_eq_some_iff.mp hs
    have hm := copyMove_of_step hstep
    have ht : s.copies p q 1 = some (p, s.pcP) := by simp [Pair.copies]
    refine ⟨?_, ?_, ?_⟩
    · rw [Pair.copies_stepP]
      exact h.windows.move ht (Pair.alone₁ hpq s) hm
    · rw [Pair.copies_stepP]
      refine h.sealed.move ht (Pair.alone₁ hpq s) ?_ hm
      exact fun _ _ _ _ t ctx hne hi => Pair.alone₁ hpq s t p ctx hne hi rfl
    · intro snapshot hpc
      simp only at hpc
      subst hpc
      generalize hpcP : s.pcP = pc at hm ht
      cases hm with
      | rename hr => exact ⟨_, rfl, contents_at_rename h.windows h.sealed ht hr⟩
  | copyQ c abort =>
    obtain ⟨⟨dir', pc'⟩, hstep, rfl⟩ := Option.map_eq_some_iff.mp hs
    have hm := copyMove_of_step hstep
    have ht : s.copies p q 2 = some (q, s.pcQ) := by simp [Pair.copies]
    refine ⟨?_, ?_, ?_⟩
    · rw [Pair.copies_stepQ]
      exact h.windows.move ht (Pair.alone₂ hpq s) hm
    · rw [Pair.copies_stepQ]
      exact h.sealed.move ht (Pair.alone₂ hpq s) (fun _ _ _ e => absurd e hqp) hm
    · intro snapshot hpc
      obtain ⟨bs, hbs, hc⟩ := h.done snapshot hpc
      refine ⟨bs, hbs, ?_⟩
      rcases contents_move h.windows ht hm hpq' with e | ⟨-, -, -, -, e, -⟩
      · rw [e, hc]
      · exact absurd e hpq

/-- A step of the copy of `q` disturbs nothing of `p`. -/
theorem Pair.undisturbed {p q : RelPath} (hpq : p ≠ q) (hqp : q ≠ partialPath p)
    (hpq' : p ≠ partialPath q) {s s' : Pair} {c : CopyChoice} {abort : Bool} (h : s.Inv p q)
    (hs : pairStep p q s (.copyQ c abort) = some s') : Undisturbed p s s' := by
  obtain ⟨⟨dir', pc'⟩, hstep, rfl⟩ := Option.map_eq_some_iff.mp hs
  have hm := copyMove_of_step hstep
  have ht : s.copies p q 2 = some (q, s.pcQ) := by simp [Pair.copies]
  refine ⟨?_, fun ctx hw => ⟨?_, ?_⟩⟩
  · rcases contents_move h.windows ht hm hpq' with e | ⟨-, -, -, -, e, -⟩
    · exact e
    · exact absurd e hpq
  · exact fileAt_move hm (Ne.symm hqp) fun e => hpq (partialPath_inj e)
  · have hin : InWindow (s.copies p q) 1 p ctx := ⟨s.pcP, by simp [Pair.copies], hw⟩
    exact data_move h.windows ht (Pair.alone₂ hpq s) hm (by decide) hin

theorem isolated_of_apart {p q : RelPath} (hpq : p ≠ q) (hqp : q ≠ partialPath p)
    (hpq' : p ≠ partialPath q) : Isolated p q := by
  intro b dir as s hr
  have hinv : s.Inv p q := run_invariant (Pair.Inv p q)
    (fun s a s' hi hs => Pair.inv_step hpq hqp hpq' hi hs) hr (Pair.inv_start p q b dir)
  refine ⟨fun c abort s' hs => Pair.undisturbed hpq hqp hpq' hinv hs, fun snapshot hpc => ?_⟩
  obtain ⟨bs, hbs, hc⟩ := hinv.done snapshot hpc
  exact ⟨bs, hbs, CacheDir.bytesAt_written hc⟩

/-! ## One path the temporary name of the other -/

/-- A step of one copy, with no abort. -/
def SoloStep (b : Backing) (p : RelPath) (t : Nat) (x y : CacheDir × CopyPc) : Prop :=
  ∃ c, copyStep b x.1 false p t c x.2 = some y

abbrev Solo (b : Backing) (p : RelPath) (t : Nat) :
    CacheDir × CopyPc → CacheDir × CopyPc → Prop := Relation.ReflTransGen (SoloStep b p t)

/-- A copy with nothing in its way opens its temporary file. -/
theorem solo_opens {b : Backing} (dir : CacheDir) {p : RelPath} (t : Nat) {i : Nat}
    (hsrc : b.node p = some (.file i)) (hfree : ∀ q, q <+: p.dropLast → dir.fileAt q = none)
    (htemp : dir.isDir (partialPath p) = false) (hp : p ≠ []) :
    ∃ dir' dst, Solo b p t (dir, .mkdir) (dir', .read ⟨.file i, dst, (b.file i).stat, []⟩) ∧
      dir'.data dst = [] ∧ dir'.isDir p.dropLast = true ∧
      (∀ q, dir'.fileAt q = if q = partialPath p then some dst else dir.fileAt q) ∧
      ∀ q, dir'.isDir q = true → dir.isDir q = true ∨ q <+: p.dropLast := by
  obtain ⟨dir₁, hmk, hdirs⟩ := Files.createDirAll_isSome hfree
  have honly := Files.onlyDirs_createDirAll hmk
  have htemp₁ : dir₁.isDir (partialPath p) = false := by
    rw [Bool.eq_false_iff]
    intro hd
    rcases Files.isDir_createDirAll hmk hd with hd | hpre
    · rw [htemp] at hd
      exact absurd hd (by simp)
    · exact partialPath_not_prefix hp hpre
  have hparent : dir₁.isDir (partialPath p).dropLast = true := by
    rw [dropLast_partialPath]
    exact hdirs _ List.prefix_rfl
  obtain ⟨dir₂, dst, hopen⟩ := Files.openTrunc_isSome hparent htemp₁
  have h₁ : SoloStep b p t (dir, .mkdir) (dir₁, .openSrc) :=
    ⟨⟨0, false⟩, by simp [copyStep, hmk]⟩
  have h₂ : SoloStep b p t (dir₁, .openSrc) (dir₁, .fstat (.file i)) :=
    ⟨⟨0, false⟩, by simp [copyStep, Backing.openFile_of_node hsrc]⟩
  have h₃ : SoloStep b p t (dir₁, .fstat (.file i)) (dir₁, .openDst (.file i) (b.file i).stat) :=
    ⟨⟨0, false⟩, by simp [copyStep, Backing.fstat]⟩
  have h₄ : SoloStep b p t (dir₁, .openDst (.file i) (b.file i).stat)
      (dir₂, .read ⟨.file i, dst, (b.file i).stat, []⟩) :=
    ⟨⟨0, false⟩, by simp [copyStep, hopen]⟩
  refine ⟨dir₂, dst, .tail (.tail (.tail (.single h₁) h₂) h₃) h₄, ?_, ?_, fun q => ?_, fun q hq => ?_⟩
  · rw [(Files.openTrunc_spec hopen).2.1, Function.update_self]
  · rw [Files.isDir_openTrunc hopen]
    exact hdirs _ List.prefix_rfl
  · rw [Files.fileAt_openTrunc hopen, honly.fileAt]
  · rw [Files.isDir_openTrunc hopen] at hq
    exact Files.isDir_createDirAll hmk hq

/-- A copy of an empty file goes on to commit it. -/
theorem solo_commits {b : Backing} {dir : CacheDir} {p : RelPath} (t : Nat) {i dst : Nat}
    (hsrc : b.node p = some (.file i)) (hempty : (b.file i).bytes = [])
    (htemp : dir.fileAt (partialPath p) = some dst) (hparent : dir.isDir p.dropLast = true)
    (hp : dir.isDir p = false) :
    ∃ dir' snapshot, Solo b p t (dir, .read ⟨.file i, dst, (b.file i).stat, []⟩)
        (dir', .ok snapshot) ∧
      dir'.fileAt p = some dst := by
  obtain ⟨dir', hr⟩ := Files.rename_isSome htemp hparent hp
  have hsame : changedSince (b.file i).stat (some (b.file i).stat) = false := by
    simp [changedSince]
  let ctx : CopyCtx := ⟨.file i, dst, (b.file i).stat, []⟩
  let snapshot := SourceMetadata.fromStat (b.file i).stat
  have h₁ : SoloStep b p t (dir, .read ctx) (dir, .sync ctx) :=
    ⟨⟨0, false⟩, by simp [copyStep, Backing.readAt, hempty, ctx]⟩
  have h₂ : SoloStep b p t (dir, .sync ctx) (dir, .checkAbort ctx) := ⟨⟨0, false⟩, by simp [copyStep]⟩
  have h₃ : SoloStep b p t (dir, .checkAbort ctx) (dir, .finalStat ctx false) :=
    ⟨⟨0, false⟩, by simp [copyStep]⟩
  have h₄ : SoloStep b p t (dir, .finalStat ctx false) (dir, .apply ctx snapshot) :=
    ⟨⟨0, false⟩, by simp [copyStep, CopyChoice.finalStat, Backing.stat, hsrc, hsame, sourceSnapshot, ctx,
      snapshot]⟩
  have h₅ : SoloStep b p t (dir, .apply ctx snapshot) (dir, .rename ctx snapshot) :=
    ⟨⟨0, false⟩, by simp [copyStep, htemp]⟩
  have h₆ : SoloStep b p t (dir, .rename ctx snapshot) (dir', .ok snapshot) :=
    ⟨⟨0, false⟩, by simp [copyStep, hr]⟩
  refine ⟨dir', snapshot, .tail (.tail (.tail (.tail (.tail (.single h₁) h₂) h₃) h₄) h₅) h₆, ?_⟩
  rw [Files.fileAt_rename hr, if_pos rfl, htemp]

theorem run_solo_copyP {p q : RelPath} {s : Pair} {x : CacheDir × CopyPc}
    (h : Solo s.backing p 1 (s.dir, s.pcP) x) :
    ∃ as copied, run (pairStep p q) s as =
      some { s with dir := x.1, pcP := x.2, copied := copied } := by
  induction h with
  | refl => exact ⟨[], s.copied, rfl⟩
  | @tail x y _ hstep ih =>
    obtain ⟨as, copied, hr⟩ := ih
    obtain ⟨c, hc⟩ := hstep
    refine ⟨as ++ [.copyP c false], match x.2, y.2 with
      | .rename ctx _, .ok _ => some ctx.written
      | _, _ => copied, run_append.mpr ⟨_, hr, run_cons.mpr ⟨_, ?_, rfl⟩⟩⟩
    simp only [pairStep, hc, Option.map_some]

/-- While `q` is copied, what belongs to an isolated `p` stays as it is. -/
theorem isolated_solo_copyQ {p q : RelPath} (hiso : Isolated p q) {b : Backing} {dir : CacheDir}
    {as : List PairAction} {s : Pair} (hr : run (pairStep p q) (Pair.start b dir) as = some s)
    {x : CacheDir × CopyPc} (h : Solo s.backing q 2 (s.dir, s.pcQ) x) :
    (∃ bs, run (pairStep p q) (Pair.start b dir) bs = some { s with dir := x.1, pcQ := x.2 }) ∧
      x.1.contents p = s.dir.contents p ∧
      ∀ ctx, s.pcP.window = some ctx →
        x.1.fileAt (partialPath p) = s.dir.fileAt (partialPath p) := by
  induction h with
  | refl => exact ⟨⟨as, hr⟩, rfl, fun _ _ => rfl⟩
  | @tail x y _ hstep ih =>
    obtain ⟨⟨bs, hbs⟩, hcon, hfile⟩ := ih
    obtain ⟨c, hc⟩ := hstep
    have hnext : pairStep p q { s with dir := x.1, pcQ := x.2 } (.copyQ c false) =
        some { s with dir := y.1, pcQ := y.2 } := by
      simp only [pairStep, hc, Option.map_some]
    have hund := (hiso b dir bs _ hbs).1 c false _ hnext
    refine ⟨⟨bs ++ [.copyQ c false], run_append.mpr ⟨_, hbs, run_cons.mpr ⟨_, hnext, rfl⟩⟩⟩, ?_, ?_⟩
    · exact hund.1.trans hcon
    · intro ctx hw
      exact (hund.2 ctx hw).1.trans (hfile ctx hw)

/-- `p` and `q` are one empty file, in directories. -/
def emptyFiles (st : Stat) (h : st.stSize = 0) (p q : RelPath) : Backing where
  node r :=
    if r = p ∨ r = q then some (.file 0)
    else if r <+: p ∨ r <+: q then some (.dir st)
    else none
  file _ := ⟨[], st, by simpa using h, short_nil⟩
  next := 1
  past _ := [⟨[], st, by simpa using h, short_nil⟩]
  issued := by
    intro r i hr
    split_ifs at hr
    · obtain rfl : 0 = i := by simpa using hr
      exact Nat.one_pos
    · exact absurd hr (by simp)
  live_past := by
    intro r i hr
    exact List.mem_singleton_self _

/-- A stat of an empty regular file. -/
def emptyStat : Stat := ⟨0, 0, 0, 0, 1, 0, 1, 0, 0o100644, 1, 0, 0, 0, 4096⟩

theorem not_isolated_of_temporary {p q : RelPath} (hp : p ≠ []) (hpq : q = partialPath p) :
    ¬ Isolated p q := by
  intro hiso
  subst hpq
  have hq : partialPath p ≠ [] := by
    intro e
    have := congrArg List.length e
    rw [length_partialPath] at this
    exact hp (List.eq_nil_of_length_eq_zero this)
  let b := emptyFiles emptyStat rfl p (partialPath p)
  have hbp : b.node p = some (.file 0) := if_pos (.inl rfl)
  have hbq : b.node (partialPath p) = some (.file 0) := if_pos (.inr rfl)
  -- the copy of `p` opens its temporary file
  obtain ⟨dir₁, dst₁, hsolo₁, -, hparent₁, hfile₁, hdir₁⟩ := solo_opens Files.empty 1 hbp
    (fun r _ => Files.fileAt_empty r)
    (by rw [Bool.eq_false_iff]; exact fun hd => hq (Files.isDir_empty hd)) hp
  obtain ⟨as, copied, hrun⟩ := run_solo_copyP (q := partialPath p) (s := Pair.start b Files.empty)
    hsolo₁
  -- the copy of `p.partial` runs to its end
  have hnot : ∀ r, r <+: p.dropLast → r ≠ partialPath p := by
    rintro r hr rfl
    exact partialPath_not_prefix hp hr
  have hnodir : ∀ r : RelPath, r ≠ [] → p.length ≤ r.length → dir₁.isDir r = false := by
    intro r hr hlen
    rw [Bool.eq_false_iff]
    intro hd
    rcases hdir₁ r hd with hd | hpre
    · exact hr (Files.isDir_empty hd)
    · exact not_prefix_dropLast hp hlen hpre
  obtain ⟨dir₂, dst₂, hsolo₂, -, hparent₂, hfile₂, hdir₂⟩ := solo_opens dir₁ 2 hbq
    (fun r hr => by
      rw [dropLast_partialPath] at hr
      rw [hfile₁, if_neg (hnot r hr), Files.fileAt_empty])
    (hnodir _ (by rw [← List.length_pos_iff, length_partialPath, length_partialPath]
                  exact List.length_pos_iff.mpr hp) (by simp)) hq
  obtain ⟨dir₃, snapshot, hsolo₃, hfile₃⟩ := solo_commits (b := b) 2 hbq rfl
    (by rw [hfile₂, if_pos rfl]) hparent₂ (by
      have hd : dir₁.isDir (partialPath p) = false :=
        Files.isDir_eq_false_of_fileAt ((hfile₁ _).trans (if_pos rfl))
      rw [Bool.eq_false_iff] at hd ⊢
      intro hd₂
      rcases hdir₂ _ hd₂ with h' | hpre
      · exact hd h'
      · rw [dropLast_partialPath] at hpre
        exact hnot _ hpre rfl)
  obtain ⟨-, -, hsame⟩ := isolated_solo_copyQ hiso hrun (hsolo₂.trans hsolo₃)
  have hsame := hsame _ rfl
  -- the temporary name of `p` now leads to another file
  simp only [hfile₃, hfile₁, if_pos] at hsame
  have hdst : dst₂ ≠ dst₁ := by
    intro e
    have h₁ : dir₂.fileAt (partialPath (partialPath p)) = some dst₂ := by rw [hfile₂, if_pos rfl]
    have h₂ : dir₂.fileAt (partialPath p) = some dst₂ := by
      rw [hfile₂, if_neg (Ne.symm (partialPath_ne hq)), hfile₁, if_pos rfl, e]
    exact partialPath_ne hq (Files.fileAt_inj h₁ h₂)
  exact hdst (Option.some.inj hsame)

theorem not_isolated_of_committed {p q : RelPath} (hq : q ≠ []) (hpq : p = partialPath q) :
    ¬ Isolated p q := by
  intro hiso
  subst hpq
  have hp : partialPath q ≠ [] := by
    intro e
    have := congrArg List.length e
    rw [length_partialPath] at this
    exact hq (List.eq_nil_of_length_eq_zero this)
  let b := emptyFiles emptyStat rfl (partialPath q) q
  have hbq : b.node q = some (.file 0) := if_pos (.inr rfl)
  -- a file with a byte in it is committed at `q.partial`
  obtain ⟨dir₁, dst₁, -, -, -, hfile₁, hdir₁⟩ := solo_opens Files.empty 2 hbq
    (fun r _ => Files.fileAt_empty r)
    (by rw [Bool.eq_false_iff]; exact fun hd => hp (Files.isDir_empty hd)) hq
  let dir : CacheDir := dir₁.writeAt zeroByte dst₁ (dir₁.data dst₁).length [zeroByte]
  have hdata : dir.data dst₁ = dir₁.data dst₁ ++ [zeroByte] := Files.data_writeAt_end rfl
  have hcommitted : dir.contents (partialPath q) = some (dir₁.data dst₁ ++ [zeroByte]) := by
    rw [Files.contents, Files.fileAt_writeAt, hfile₁, if_pos rfl, Option.map_some, hdata]
  -- the copy of `q` opens it as its temporary file
  obtain ⟨dir₂, dst₂, hsolo₂, hempty₂, -, hfile₂, -⟩ := solo_opens dir 2 hbq
    (fun r hr => by
      rw [Files.fileAt_writeAt, hfile₁, if_neg, Files.fileAt_empty]
      rintro rfl
      exact partialPath_not_prefix hq hr)
    (Files.isDir_eq_false_of_fileAt (i := dst₁) (by rw [Files.fileAt_writeAt, hfile₁, if_pos rfl]))
    hq
  have hstart : run (pairStep (partialPath q) q) (Pair.start b dir) [] = some (Pair.start b dir) := rfl
  obtain ⟨-, hsame, -⟩ := isolated_solo_copyQ hiso hstart hsolo₂
  rw [Files.contents, hfile₂, if_pos rfl, Option.map_some, hempty₂] at hsame
  simp only [Pair.start, hcommitted, Option.some.injEq] at hsame
  exact absurd hsame (by simp)

/-- Two paths are isolated exactly when neither is the temporary name of the
other. -/
theorem isolated_iff {p q : RelPath} (hp : p ≠ []) (hq : q ≠ []) (hpq : p ≠ q) :
    Isolated p q ↔ q ≠ partialPath p ∧ p ≠ partialPath q :=
  ⟨fun h => ⟨fun e => not_isolated_of_temporary hp e h, fun e => not_isolated_of_committed hq e h⟩,
    fun h => isolated_of_apart hpq h.1 h.2⟩

section Clash

private def m : Name := ⟨[109], Eq.refl true⟩

/-- Files `m` and `m.partial`, of one byte each. -/
def mAndPartial : Backing :=
  (Backing.empty.replaceFile [m] (.of [80] 1 (by decide))).replaceFile [m.withPartial]
    (.of [81] 1 (by decide))

/-- The copy of `m` opens its temporary file, the copy of `m.partial` runs, and
the copy of `m` goes on to its end. -/
def partialFirst : List PairAction :=
  List.replicate 4 (.copyP ⟨9, false⟩ false) ++ List.replicate 12 (.copyQ ⟨9, false⟩ false) ++
    List.replicate 8 (.copyP ⟨9, false⟩ false)

/-- The copy of `m` returns Ok, and the cache has the bytes of `m.partial` there. -/
theorem committed_under_partial : ∃ s snapshot,
    run (pairStep [m] [m.withPartial]) (Pair.start mAndPartial Files.empty) partialFirst = some s ∧
    s.pcP = .ok snapshot ∧ s.dir.bytesAt [m] = some [81] ∧
    (mAndPartial.live [m]).map BFile.bytes = some [80] ∧ ¬ Isolated [m] [m.withPartial] := by
  refine ⟨_, _, rfl, rfl, by decide, by decide, fun hiso => ?_⟩
  obtain ⟨bs, hcopied, hbytes⟩ := (hiso mAndPartial Files.empty partialFirst _ rfl).2 _ rfl
  have hcopied' : bs = [80] := (Option.some.inj hcopied).symm
  subst hcopied'
  exact absurd hbytes (by decide)

private def n : Name := ⟨[110], Eq.refl true⟩

theorem isolated_m_n : [m] ≠ [] ∧ [n] ≠ [] ∧ [m] ≠ [n] ∧ Isolated [m] [n] :=
  ⟨by decide, by decide, by decide,
    (isolated_iff (by decide) (by decide) (by decide)).mpr ⟨by decide, by decide⟩⟩

end Clash

end FsCache
