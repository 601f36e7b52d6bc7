import FsCache.Lib.Run
import FsCache.CopyWindow

/- One copy of `p`, while the backing file at `p` is written, truncated, replaced
   or unlinked between any two of its steps.

   The copy reads through a descriptor, and compares its first fstat with a stat
   by name at the end. `sound_of_unchanged_if_gone`: when every change gives `p` a
   (mtime, size) it never had, a copy that returns Ok has committed the complete
   content of the one version of `p` that its snapshot names, provided that a
   final stat which finds nothing at `p` finds the opened file as the fstat saw
   it. The source takes a missing path for an unchanged one, so without that a
   file written in place and then unlinked is committed half old and half new.

   The invariant is `Source`: what has been read is the beginning of the version
   the fstat saw, as long as the opened file still is that version. It speaks of
   the present only, since a version once left never comes back. -/

namespace FsCache
open Lib

/-- A copy at work, the backing and the cache directory. -/
structure Single where
  backing : Backing
  dir : CacheDir
  pc : CopyPc

inductive SingleAction where
  | change (c : BackingChange)
  | copy (c : CopyChoice) (abort : Bool)

def singleStep (p : RelPath) (s : Single) : SingleAction → Option Single
  | .change c => (s.backing.change c).map fun b => { s with backing := b }
  | .copy c abort =>
    (copyStep s.backing s.dir abort p 1 c s.pc).map fun r => { s with dir := r.1, pc := r.2 }

def Single.start (b : Backing) (dir : CacheDir) : Single := ⟨b, dir, .mkdir⟩

/-- A write, truncation, replacement or unlink of the regular file at `p`. -/
def ChangesFile (p : RelPath) : BackingChange → Prop
  | .write q _ | .replace q _ | .remove q => q = p
  | _ => False

instance (p : RelPath) : (c : BackingChange) → Decidable (ChangesFile p c)
  | .write q _ => inferInstanceAs (Decidable (q = p))
  | .replace q _ => inferInstanceAs (Decidable (q = p))
  | .remove q => inferInstanceAs (Decidable (q = p))
  | .mkdir _ _ => isFalse id
  | .symlink _ _ _ => isFalse id

/-- Where a final stat answers nothing, the opened file is as the fstat saw it. -/
def UnchangedIfGone (b : Backing) (p : RelPath) (c : CopyChoice) : CopyPc → Prop
  | .finalStat ctx _ => c.finalStat b p = none → (b.fstat ctx.src).version = ctx.init.version
  | _ => True

instance (b : Backing) (p : RelPath) (c : CopyChoice) :
    (pc : CopyPc) → Decidable (UnchangedIfGone b p c pc)
  | .finalStat ctx _ => inferInstanceAs (Decidable (c.finalStat b p = none →
      (b.fstat ctx.src).version = ctx.init.version))
  | .mkdir | .openSrc | .fstat _ | .openDst _ _ | .read _ | .write _ _ | .sync _ | .checkAbort _
  | .apply _ _ | .rename _ _ | .failInner _ | .failOuter _ | .ok _ | .err => isTrue trivial

/-- The backing changes only at `p`, and gives it a (mtime, size) it never had. -/
def FreshSource (p : RelPath) (s : Single) : SingleAction → Prop
  | .change c => ChangesFile p c ∧ s.backing.FreshAt p c
  | .copy _ _ => True

/-- The step is no final stat that misses a change of the opened file. -/
def SeesChange (p : RelPath) (s : Single) : SingleAction → Prop
  | .change _ => True
  | .copy c _ => UnchangedIfGone s.backing p c s.pc

instance (p : RelPath) (s : Single) : (a : SingleAction) → Decidable (FreshSource p s a)
  | .change c => inferInstanceAs (Decidable (ChangesFile p c ∧ s.backing.FreshAt p c))
  | .copy _ _ => isTrue trivial

instance (p : RelPath) (s : Single) : (a : SingleAction) → Decidable (SeesChange p s a)
  | .change _ => isTrue trivial
  | .copy c _ => inferInstanceAs (Decidable (UnchangedIfGone s.backing p c s.pc))

/-- The committed file is the complete content of the one version of `p` that
`snapshot` names. -/
def CommittedVersion (p : RelPath) (s : Single) (snapshot : SourceMetadata) : Prop :=
  ∃ f ∈ s.backing.past p, f.version = snapshot.version ∧ s.dir.bytesAt p = some f.bytes ∧
    ∀ g ∈ s.backing.past p, g.version = snapshot.version → g = f

/-! ## The invariant -/

/-- If `p` leads to a file other than inode `i`, its content is not `g`. -/
def Unlike (b : Backing) (p : RelPath) (i : Nat) (g : BFile) : Prop :=
  ∀ j, b.node p = some (.file j) → j ≠ i → b.file j ≠ g

/-- `src` was opened at `p`, and `g` is the version its fstat saw; `read` holds of
`g` as long as the file is still that version. -/
structure Source (b : Backing) (p : RelPath) (src : Handle) (init : Stat) (read : BFile → Prop) :
    Prop where
  file : ∃ i, src = .file i ∧ i < b.next ∧ b.file i ∈ b.past p ∧
    ∃ g ∈ b.past p, g.stat = init ∧ (b.file i = g → read g) ∧
      Unlike b p i g

/-- What is known of the source at each step of the copy. -/
def SourceAt (b : Backing) (p : RelPath) : CopyPc → Prop
  | .fstat src => ∃ i, src = .file i ∧ i < b.next ∧ b.file i ∈ b.past p ∧ Unlike b p i (b.file i)
  | .openDst src init => Source b p src init fun _ => True
  | .read ctx => Source b p ctx.src ctx.init fun g => ctx.written <+: g.bytes
  | .write ctx chunk => Source b p ctx.src ctx.init fun g => ctx.written ++ chunk <+: g.bytes
  | .sync ctx | .checkAbort ctx | .finalStat ctx _ =>
    Source b p ctx.src ctx.init fun g => ctx.written = g.bytes
  | .apply ctx snapshot | .rename ctx snapshot =>
    ∃ g ∈ b.past p, g.version = snapshot.version ∧ ctx.written = g.bytes
  | _ => True

def Single.copies (p : RelPath) (s : Single) : Copies := fun t =>
  if t = 1 then some (p, s.pc) else none

structure Single.Inv (p : RelPath) (s : Single) : Prop where
  regular : s.backing.node p = none ∨ ∃ i, s.backing.node p = some (.file i)
  distinct : s.backing.DistinctAt p
  windows : Windows s.dir (s.copies p)
  sealed : SealedAt s.dir (s.copies p) p
  source : SourceAt s.backing p s.pc
  done : ∀ snapshot, s.pc = .ok snapshot →
    ∃ f ∈ s.backing.past p, f.version = snapshot.version ∧ s.dir.bytesAt p = some f.bytes

/-! ## Changes of the backing file -/

section Changes

variable {b b' : Backing} {p : RelPath} {c : BackingChange}

/-- A fresh change of the file at `p` is a write to its inode, a new file, or an
unlink. -/
theorem change_cases (hc : ChangesFile p c) (hf : b.FreshAt p c) (h : b.change c = some b') :
    (∃ k f, b.node p = some (.file k) ∧ (∀ g ∈ b.past p, g.version ≠ f.version) ∧
      b' = b.writeFile k f) ∨
    (∃ f, (∀ g ∈ b.past p, g.version ≠ f.version) ∧ b' = b.replaceFile p f) ∨
    b' = b.setNode p none (by simp) := by
  cases c with
  | write q f =>
    obtain rfl : q = p := hc
    simp only [Backing.change] at h
    split at h
    · next k hk => exact .inl ⟨k, f, hk, hf rfl, (Option.some.inj h).symm⟩
    · exact absurd h (by simp)
  | replace q f =>
    obtain rfl : q = p := hc
    exact .inr (.inl ⟨f, hf rfl, (Option.some.inj h).symm⟩)
  | remove q =>
    obtain rfl : q = p := hc
    exact .inr (.inr (Option.some.inj h).symm)
  | mkdir q st => exact hc.elim
  | symlink q st target => exact hc.elim

theorem regular_change (hr : b.node p = none ∨ ∃ i, b.node p = some (.file i))
    (hc : ChangesFile p c) (hf : b.FreshAt p c) (h : b.change c = some b') :
    b'.node p = none ∨ ∃ i, b'.node p = some (.file i) := by
  rcases change_cases hc hf h with ⟨k, f, -, -, rfl⟩ | ⟨f, -, rfl⟩ | rfl
  · exact hr
  · exact .inr ⟨b.next, Function.update_self _ _ _⟩
  · exact .inl (Function.update_self _ _ _)

/-- What a change leaves `p` with is like nothing `p` had. -/
theorem unlike_change (i : Nat) {g : BFile} (hg : g ∈ b.past p) (hc : ChangesFile p c) (hf : b.FreshAt p c)
    (h : b.change c = some b') : Unlike b' p i g := by
  intro j hj hji
  rcases change_cases hc hf h with ⟨k, f, hk, hfresh, rfl⟩ | ⟨f, hfresh, rfl⟩ | rfl
  · simp only [Backing.writeFile] at hj ⊢
    obtain rfl : k = j := by simpa [hk] using hj
    rw [Function.update_self]
    exact fun e => hfresh g hg (congrArg BFile.version e.symm)
  · simp only [Backing.replaceFile, Function.update_self, Option.some.injEq, BNode.file.injEq] at hj ⊢
    subst hj
    rw [Function.update_self]
    exact fun e => hfresh g hg (congrArg BFile.version e.symm)
  · simp only [Backing.setNode, Function.update_self] at hj
    exact absurd hj (by simp)

/-- The opened file after a change: as it was, or, while `p` leads to it, a
content that `p` never had. -/
theorem opened_change {i : Nat} (hi : i < b.next) (hc : ChangesFile p c) (hf : b.FreshAt p c)
    (h : b.change c = some b') :
    i < b'.next ∧ (b'.file i = b.file i ∨
      b'.file i ∈ b'.past p ∧ (∀ g ∈ b.past p, g.version ≠ (b'.file i).version) ∧
        b'.node p = some (.file i)) := by
  rcases change_cases hc hf h with ⟨k, f, hk, hfresh, rfl⟩ | ⟨f, -, rfl⟩ | rfl
  · refine ⟨hi, ?_⟩
    by_cases hik : i = k
    · subst hik
      right
      simp only [Backing.writeFile, Function.update_self, if_pos hk]
      exact ⟨List.mem_cons_self, hfresh, hk⟩
    · exact .inl (Function.update_of_ne hik _ _)
  · exact ⟨Nat.lt_succ_of_lt hi, .inl (Function.update_of_ne (Nat.ne_of_lt hi) _ _)⟩
  · exact ⟨hi, .inl rfl⟩

theorem Source.change {src : Handle} {init : Stat} {read : BFile → Prop}
    (hs : Source b p src init read) (hc : ChangesFile p c) (hf : b.FreshAt p c)
    (h : b.change c = some b') : Source b' p src init read := by
  obtain ⟨i, rfl, hi, hpast, g, hg, hinit, hread, hother⟩ := hs.file
  obtain ⟨hi', hfile⟩ := opened_change hi hc hf h
  refine ⟨i, rfl, hi', ?_, g, Backing.past_change h hg, hinit, ?_, unlike_change i hg hc hf h⟩
  · rcases hfile with e | ⟨hm, -, -⟩
    · rw [e]; exact Backing.past_change h hpast
    · exact hm
  · rcases hfile with e | ⟨-, hne, -⟩
    · rw [e]; exact hread
    · exact fun e => absurd (congrArg BFile.version e.symm) (hne g hg)

theorem SourceAt.change {pc : CopyPc} (hs : SourceAt b p pc) (hc : ChangesFile p c)
    (hf : b.FreshAt p c) (h : b.change c = some b') : SourceAt b' p pc := by
  have committed : ∀ {ctx : CopyCtx} {snapshot : SourceMetadata},
      (∃ g ∈ b.past p, g.version = snapshot.version ∧ ctx.written = g.bytes) →
      ∃ g ∈ b'.past p, g.version = snapshot.version ∧ ctx.written = g.bytes := by
    rintro ctx snapshot ⟨g, hg, hv, hb⟩
    exact ⟨g, Backing.past_change h hg, hv, hb⟩
  cases pc with
  | fstat src =>
    -- before the fstat the version to compare with is the opened file's own
    obtain ⟨i, rfl, hi, hpast, hother⟩ := hs
    obtain ⟨hi', e | ⟨hm, -, hnode⟩⟩ := opened_change hi hc hf h
    · refine ⟨i, rfl, hi', ?_, ?_⟩
      · rw [e]; exact Backing.past_change h hpast
      · rw [e]; exact unlike_change i hpast hc hf h
    · refine ⟨i, rfl, hi', hm, fun j hj hji => ?_⟩
      rw [hnode, Option.some.injEq, BNode.file.injEq] at hj
      exact absurd hj.symm hji
  | openDst src init => exact Source.change hs hc hf h
  | read ctx => exact Source.change hs hc hf h
  | write ctx chunk => exact Source.change hs hc hf h
  | sync ctx => exact Source.change hs hc hf h
  | checkAbort ctx => exact Source.change hs hc hf h
  | finalStat ctx aborted => exact Source.change hs hc hf h
  | apply ctx snapshot => exact committed hs
  | rename ctx snapshot => exact committed hs
  | mkdir | openSrc | failInner | failOuter | ok | err => exact hs

end Changes

/-! ## Steps of the copy -/

section Steps

variable {b : Backing} {dir dir' : CacheDir} {abort : Bool} {p : RelPath} {c : CopyChoice}
  {pc pc' : CopyPc}

theorem version_snapshot {init : Stat} {f : BFile} (hf : f.stat = init) :
    (SourceMetadata.fromMetadata init).version = f.version := by
  rw [← hf]
  exact version_fromMetadata f.size_nonneg f.size_lt'

/-- The opened file is still the version the fstat saw, when the final stat
answers nothing and when it answers with that version. -/
theorem file_at_finalStat {i : Nat} {g : BFile} (hi : b.file i ∈ b.past p) (hg : g ∈ b.past p)
    (hother : Unlike b p i g) (hr : b.node p = none ∨ ∃ i, b.node p = some (.file i))
    (hd : b.DistinctAt p) (hgone : c.finalStat b p = none → (b.file i).version = g.version)
    (h : changedSince g.stat (c.finalStat b p) = false) :
    b.file i = g ∧ (sourceSnapshot g.stat (c.finalStat b p)).version = g.version := by
  cases hfin : c.finalStat b p with
  | none => exact ⟨hd.eq hi hg (hgone hfin), version_snapshot rfl⟩
  | some s =>
    rw [hfin] at h
    have hs : b.stat p = some s := by
      unfold CopyChoice.finalStat at hfin
      split at hfin
      · exact absurd hfin (by simp)
      · exact hfin
    obtain ⟨j, hj⟩ := hr.resolve_left fun hn => by simp [Backing.stat, hn] at hs
    obtain rfl : (b.file j).stat = s := by simpa [Backing.stat, hj] using hs
    have hjg : b.file j = g := hd.eq (b.live_past p j hj) hg (changedSince_eq_false.mp h)
    -- a file that replaced the opened one has another version
    obtain rfl : j = i := by
      by_contra hne
      exact hother j hj hne hjg
    exact ⟨hjg, by rw [sourceSnapshot, version_fromStat (b.file j).size_nonneg, hjg]; rfl⟩

theorem SourceAt.move (hs : SourceAt b p pc)
    (hr : b.node p = none ∨ ∃ i, b.node p = some (.file i)) (hd : b.DistinctAt p)
    (hgone : UnchangedIfGone b p c pc) (hm : CopyMove b dir abort p 1 c pc dir' pc') :
    SourceAt b p pc' := by
  cases hm with
  | openSrc h =>
    obtain ⟨i, hi, rfl⟩ := Backing.node_of_openFile hr h
    refine ⟨i, rfl, b.issued p i hi, b.live_past p i hi, fun j hj hji => ?_⟩
    rw [hi, Option.some.injEq, BNode.file.injEq] at hj
    exact absurd hj.symm hji
  | fstat src =>
    obtain ⟨i, rfl, hi, hpast, hother⟩ := hs
    exact ⟨i, rfl, hi, hpast, b.file i, hpast, rfl, fun _ => trivial, hother⟩
  | openDst h =>
    obtain ⟨i, rfl, hi, hpast, g, hg, hinit, -, hother⟩ := hs.file
    exact ⟨i, rfl, hi, hpast, g, hg, hinit, fun _ => List.nil_prefix, hother⟩
  | eof h =>
    obtain ⟨i, hsrc, hi, hpast, g, hg, hinit, hread, hother⟩ := hs.file
    refine ⟨i, hsrc, hi, hpast, g, hg, hinit, fun hig => ?_, hother⟩
    -- nothing is left to read of the version whose beginning was read
    obtain ⟨rest, hrest⟩ := hread hig
    rw [hsrc, Backing.readAt, hig, ← hrest, List.drop_left, Option.some.injEq] at h
    have : rest = [] := by
      cases rest with
      | nil => rfl
      | cons x rest => exact absurd h (by simp)
    rw [← hrest, this, List.append_nil]
  | @chunk ctx n bs h hne =>
    obtain ⟨i, hsrc, hi, hpast, g, hg, hinit, hread, hother⟩ := hs.file
    refine ⟨i, hsrc, hi, hpast, g, hg, hinit, fun hig => ?_, hother⟩
    obtain ⟨rest, hrest⟩ := hread hig
    rw [hsrc, Backing.readAt, hig, ← hrest, List.drop_left, Option.some.injEq] at h
    rw [← hrest, ← h]
    exact (List.prefix_append_right_inj ctx.written).mpr (List.take_prefix (n + 1) rest)
  | write ctx bs => exact hs
  | sync ctx => exact hs
  | checkAbort ctx => exact hs
  | accept h =>
    obtain ⟨i, hsrc, -, hpast, g, hg, hinit, hread, hother⟩ := hs.file
    rw [← hinit] at h ⊢
    have hgone' : c.finalStat b p = none → (b.file i).version = g.version := by
      intro hn
      have := hgone hn
      rwa [hsrc, ← hinit] at this
    obtain ⟨hig, hv⟩ := file_at_finalStat hpast hg hother hr hd hgone' h
    exact ⟨g, hg, hv.symm, hread hig⟩
  | apply snapshot h => exact hs
  | mkdirFails | mkdir | openSrcFails | fstatFails | openDstFails | readFails | writeFails
  | syncFails | refuse | applyFails | renameFails | rename | removeInner | removeOuter =>
    exact trivial

end Steps

/-! ## Runs -/

theorem Single.inWindow {p r : RelPath} {s : Single} {t : Nat} {ctx : CopyCtx}
    (h : InWindow (s.copies p) t r ctx) : t = 1 ∧ r = p ∧ s.pc.window = some ctx := by
  obtain ⟨pc, hcp, hw⟩ := h
  unfold Single.copies at hcp
  split at hcp
  · next ht =>
    obtain ⟨rfl, rfl⟩ := Prod.mk.inj (Option.some.inj hcp)
    exact ⟨ht, rfl, hw⟩
  · exact absurd hcp (by simp)

theorem Single.copies_step (p : RelPath) (s : Single) (dir : CacheDir) (pc : CopyPc) :
    ({ s with dir := dir, pc := pc } : Single).copies p =
      Function.update (s.copies p) 1 (some (p, pc)) := by
  funext t
  by_cases ht : t = 1 <;> simp [Single.copies, ht]

theorem Single.alone (p : RelPath) (s : Single) : Alone (s.copies p) 1 p := by
  intro t r ctx hne hi
  exact absurd (Single.inWindow hi).1 hne

theorem Single.inv_start {p : RelPath} {b : Backing} (dir : CacheDir)
    (hr : b.node p = none ∨ ∃ i, b.node p = some (.file i)) (hd : b.DistinctAt p) :
    (Single.start b dir).Inv p := by
  have hno : ∀ t r ctx, ¬ InWindow ((Single.start b dir).copies p) t r ctx := by
    intro t r ctx h
    exact absurd (Single.inWindow h).2.2 (by simp [Single.start, CopyPc.window])
  refine ⟨hr, hd, .of_none _ hno, .of_none _ hno, trivial, fun snapshot h => ?_⟩
  exact absurd h (by simp [Single.start])

theorem Single.inv_step {p : RelPath} {s s' : Single} {a : SingleAction} (h : s.Inv p)
    (hfresh : FreshSource p s a) (hsees : SeesChange p s a) (hs : singleStep p s a = some s') : s'.Inv p := by
  cases a with
  | change c =>
    obtain ⟨b, hb, rfl⟩ := Option.map_eq_some_iff.mp hs
    obtain ⟨hc, hf⟩ := hfresh
    refine ⟨regular_change h.regular hc hf hb, h.distinct.change hf hb, h.windows, h.sealed,
      h.source.change hc hf hb, ?_⟩
    intro snapshot hpc
    obtain ⟨f, hm, hv, hbytes⟩ := h.done snapshot hpc
    exact ⟨f, Backing.past_change hb hm, hv, hbytes⟩
  | copy c abort =>
    obtain ⟨⟨dir', pc'⟩, hstep, rfl⟩ := Option.map_eq_some_iff.mp hs
    have hm := copyMove_of_step hstep
    have ht : s.copies p 1 = some (p, s.pc) := rfl
    refine ⟨h.regular, h.distinct, ?_, ?_, h.source.move h.regular h.distinct hsees hm, ?_⟩
    · rw [Single.copies_step]
      exact h.windows.move ht (Single.alone p s) hm
    · rw [Single.copies_step]
      refine h.sealed.move ht (Single.alone p s) ?_ hm
      exact fun _ _ _ _ t ctx hne hi => Single.alone p s t p ctx hne hi rfl
    · intro snapshot hpc
      simp only at hpc
      subst hpc
      have hsource := h.source
      generalize hpcs : s.pc = pc at hm ht hsource
      cases hm with
      | rename hr =>
        obtain ⟨g, hg, hv, hb⟩ := hsource
        refine ⟨g, hg, hv, ?_⟩
        exact hb ▸ CacheDir.bytesAt_written (contents_at_rename h.windows h.sealed ht hr)

/-- A copy that returns Ok has committed the complete content of the one version
of `p` its snapshot names, in every run whose changes of `p` are fresh and whose
final stats find the opened file as the fstat saw it when they find nothing. -/
theorem sound_of_unchanged_if_gone {p : RelPath} {b : Backing} {dir : CacheDir}
    (hr : b.node p = none ∨ ∃ i, b.node p = some (.file i)) (hd : b.DistinctAt p)
    {as : List SingleAction} {s : Single}
    (h : run (singleStep p) (Single.start b dir) as = some s)
    (hfresh : Along (singleStep p) (FreshSource p) (Single.start b dir) as)
    (hsees : Along (singleStep p) (SeesChange p) (Single.start b dir) as)
    {snapshot : SourceMetadata} (hpc : s.pc = .ok snapshot) : CommittedVersion p s snapshot := by
  have hinv : s.Inv p := run_invariant_along (Single.Inv p)
    (fun s a s' hi ha hs => Single.inv_step hi ha.1 ha.2 hs) h (hfresh.and hsees)
    (Single.inv_start dir hr hd)
  obtain ⟨f, hf, hv, hbytes⟩ := hinv.done snapshot hpc
  exact ⟨f, hf, hv, hbytes, fun g hg hgv => hinv.distinct.eq hg hf (hgv.trans hv.symm)⟩

section Torn

private def f : Name := ⟨[102], Eq.refl true⟩

/-- A file of two bytes. -/
def twoBytes : Backing := Backing.empty.replaceFile [f] (.pair 80 81 1)

/-- One byte is copied, both are overwritten in place, the other is copied, and
the file is unlinked before the final stat. -/
def overwrittenThenGone : List SingleAction :=
  List.replicate 4 (.copy ⟨0, false⟩ false) ++ List.replicate 2 (.copy ⟨0, false⟩ false) ++
    [.change (.write [f] (.pair 90 91 2))] ++
    List.replicate 5 (.copy ⟨0, false⟩ false) ++ [.change (.remove [f])] ++
    List.replicate 3 (.copy ⟨0, false⟩ false)

/-- The copy returns Ok with a byte of each version in its file. -/
theorem torn_copy_committed : ∃ s snapshot,
    run (singleStep [f]) (Single.start twoBytes Files.empty) overwrittenThenGone = some s ∧
    Along (singleStep [f]) (FreshSource [f]) (Single.start twoBytes Files.empty)
      overwrittenThenGone ∧
    s.pc = .ok snapshot ∧ s.dir.bytesAt [f] = some [80, 91] ∧ ¬ CommittedVersion [f] s snapshot := by
  have hno : ∃ s snapshot,
      run (singleStep [f]) (Single.start twoBytes Files.empty) overwrittenThenGone = some s ∧
      s.pc = .ok snapshot ∧ s.dir.bytesAt [f] = some [80, 91] ∧
      ∀ g ∈ s.backing.past [f], s.dir.bytesAt [f] ≠ some g.bytes :=
    ⟨_, _, rfl, rfl, by decide +kernel, by decide +kernel⟩
  obtain ⟨s, snapshot, hrun, hpc, hbytes, hno⟩ := hno
  exact ⟨s, snapshot, hrun, by decide +kernel, hpc, hbytes,
    fun ⟨g, hg, _, hb, _⟩ => hno g hg hb⟩

/-- Replaced and unlinked, but not overwritten: the first version is committed
whole. -/
def replacedThenGone : List SingleAction :=
  List.replicate 6 (.copy ⟨0, false⟩ false) ++
    [.change (.replace [f] (.pair 90 91 2))] ++
    List.replicate 5 (.copy ⟨0, false⟩ false) ++ [.change (.remove [f])] ++
    List.replicate 3 (.copy ⟨0, false⟩ false)

theorem replaced_copy_sound : ∃ s snapshot,
    run (singleStep [f]) (Single.start twoBytes Files.empty) replacedThenGone = some s ∧
    s.pc = .ok snapshot ∧ CommittedVersion [f] s snapshot := by
  have hrun : ∃ s snapshot,
      run (singleStep [f]) (Single.start twoBytes Files.empty) replacedThenGone = some s ∧
      s.pc = .ok snapshot := ⟨_, _, rfl, rfl⟩
  obtain ⟨s, snapshot, hrun, hpc⟩ := hrun
  exact ⟨s, snapshot, hrun, hpc, sound_of_unchanged_if_gone (.inr ⟨0, rfl⟩) (by decide) hrun
    (by decide +kernel) (by decide +kernel) hpc⟩

end Torn

end FsCache
