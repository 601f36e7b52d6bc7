import FsCache.Copy

/- Copies that share a cache directory.

   `Windows` is what holds of any number of copies at work, as long as no two of
   one path are between opening and renaming (or removing) their temporary file
   together: the file a copy is filling is reached by its temporary name only, is
   filled by no other copy, and holds exactly what the copy has written.
   `Windows.move` is the step that keeps it, `contents_move` says what a step
   does to the committed files, and `OneWriter` is what follows for the bytes:
   every file in the directory is the work of one copy.

   `SealedAt` is the converse of the first clause at one path, its temporary name
   leads to no other file. It needs more: that no copy of a path which is that
   temporary name commits meanwhile. -/

namespace FsCache
open Lib

/-- The copies at work: the path and the next call of each task. -/
abbrev Copies := Nat → Option (RelPath × CopyPc)

def InWindow (cp : Copies) (t : Nat) (p : RelPath) (ctx : CopyCtx) : Prop :=
  ∃ pc, cp t = some (p, pc) ∧ pc.window = some ctx

def Filling (cp : Copies) (t : Nat) (p : RelPath) (ctx : CopyCtx) : Prop :=
  ∃ pc, cp t = some (p, pc) ∧ pc.filling = some ctx

structure Windows (dir : CacheDir) (cp : Copies) : Prop where
  issued : ∀ t p ctx, InWindow cp t p ctx → ctx.dst < dir.next
  name : ∀ t p ctx q, InWindow cp t p ctx → dir.fileAt q = some ctx.dst → q = partialPath p
  apart : ∀ t p ctx t' p' ctx', InWindow cp t p ctx → InWindow cp t' p' ctx' → ctx.dst = ctx'.dst →
    t = t'
  writer : ∀ t p ctx, InWindow cp t p ctx → ∀ c ∈ dir.data ctx.dst, c.writer = t
  bytes : ∀ t p ctx, Filling cp t p ctx → dir.data ctx.dst = written t ctx.written

/-- Every file holds the bytes of one copy. -/
def OneWriter (dir : CacheDir) : Prop := ∀ i, ∃ w, ∀ c ∈ dir.data i, c.writer = w

/-- The temporary name of `p` leads to the file that a copy of `p` in its window fills. -/
def SealedAt (dir : CacheDir) (cp : Copies) (p : RelPath) : Prop :=
  ∀ t ctx, InWindow cp t p ctx → ∀ i, dir.fileAt (partialPath p) = some i → i = ctx.dst

/-- No other copy in its window is of the path `p`. -/
def Alone (cp : Copies) (t : Nat) (p : RelPath) : Prop :=
  ∀ t' p' ctx, t' ≠ t → InWindow cp t' p' ctx → p' ≠ p

/-! ## Windows after a step -/

variable {b : Backing} {dir dir' : CacheDir} {abort : Bool} {p : RelPath} {t : Nat}
  {c : CopyChoice} {pc pc' : CopyPc} {cp : Copies}

theorem InWindow.filling {ctx : CopyCtx} (h : Filling cp t p ctx) : InWindow cp t p ctx := by
  obtain ⟨pc, hcp, hf⟩ := h
  exact ⟨pc, hcp, CopyPc.window_of_filling hf⟩

/-- With no copy in its window. -/
theorem Windows.of_none (dir : CacheDir) (hno : ∀ t p ctx, ¬ InWindow cp t p ctx) : Windows dir cp where
  issued := fun t p ctx h => absurd h (hno t p ctx)
  name := fun t p ctx _ h => absurd h (hno t p ctx)
  apart := fun t p ctx _ _ _ h => absurd h (hno t p ctx)
  writer := fun t p ctx h => absurd h (hno t p ctx)
  bytes := fun t p ctx h => absurd (InWindow.filling h) (hno t p ctx)

theorem SealedAt.of_none (dir : CacheDir) (hno : ∀ t p ctx, ¬ InWindow cp t p ctx) : SealedAt dir cp p :=
  fun t ctx h => absurd h (hno t p ctx)

theorem inWindow_update {t' : Nat} {q : RelPath} {ctx : CopyCtx} :
    InWindow (Function.update cp t (some (p, pc'))) t' q ctx ↔
      (t' = t ∧ q = p ∧ pc'.window = some ctx) ∨ (t' ≠ t ∧ InWindow cp t' q ctx) := by
  unfold InWindow
  by_cases ht : t' = t
  · subst ht
    simp only [Function.update_self, Option.some.injEq, Prod.mk.injEq, true_and, ne_eq,
      not_true, false_and, or_false]
    constructor
    · rintro ⟨pc, ⟨rfl, rfl⟩, h⟩; exact ⟨rfl, h⟩
    · rintro ⟨rfl, h⟩; exact ⟨pc', ⟨rfl, rfl⟩, h⟩
  · simp [ht]

theorem filling_update {t' : Nat} {q : RelPath} {ctx : CopyCtx} :
    Filling (Function.update cp t (some (p, pc'))) t' q ctx ↔
      (t' = t ∧ q = p ∧ pc'.filling = some ctx) ∨ (t' ≠ t ∧ Filling cp t' q ctx) := by
  unfold Filling
  by_cases ht : t' = t
  · subst ht
    simp only [Function.update_self, Option.some.injEq, Prod.mk.injEq, true_and, ne_eq,
      not_true, false_and, or_false]
    constructor
    · rintro ⟨pc, ⟨rfl, rfl⟩, h⟩; exact ⟨rfl, h⟩
    · rintro ⟨rfl, h⟩; exact ⟨pc', ⟨rfl, rfl⟩, h⟩
  · simp [ht]

/-- Fewer windows over the same bytes, and no new name for a file. -/
theorem Windows.mono {cp' : Copies} (h : Windows dir cp) (hdata : dir'.data = dir.data)
    (hnext : dir.next ≤ dir'.next) (hfile : ∀ q i, dir'.fileAt q = some i → dir.fileAt q = some i)
    (hw : ∀ t p ctx, InWindow cp' t p ctx → InWindow cp t p ctx)
    (hf : ∀ t p ctx, Filling cp' t p ctx → Filling cp t p ctx) : Windows dir' cp' where
  issued t p ctx hi := Nat.lt_of_lt_of_le (h.issued t p ctx (hw t p ctx hi)) hnext
  name t p ctx q hi hq := h.name t p ctx q (hw t p ctx hi) (hfile q _ hq)
  apart t p ctx t' p' ctx' hi hi' e := h.apart t p ctx t' p' ctx' (hw t p ctx hi) (hw t' p' ctx' hi') e
  writer t p ctx hi := by rw [hdata]; exact h.writer t p ctx (hw t p ctx hi)
  bytes t p ctx hi := by rw [hdata]; exact h.bytes t p ctx (hf t p ctx hi)

/-- A step that keeps the file it fills, or lets go of it. -/
theorem Windows.keep (h : Windows dir cp) (ht : cp t = some (p, pc)) (hdata : dir'.data = dir.data)
    (hnext : dir.next ≤ dir'.next) (hfile : ∀ q i, dir'.fileAt q = some i → dir.fileAt q = some i)
    (hw : ∀ ctx, pc'.window = some ctx → pc.window = some ctx)
    (hf : ∀ ctx, pc'.filling = some ctx → pc.filling = some ctx) :
    Windows dir' (Function.update cp t (some (p, pc'))) := by
  refine h.mono hdata hnext hfile ?_ ?_
  · intro t' q ctx hi
    rcases inWindow_update.mp hi with ⟨rfl, rfl, hc⟩ | ⟨-, hc⟩
    · exact ⟨pc, ht, hw ctx hc⟩
    · exact hc
  · intro t' q ctx hi
    rcases filling_update.mp hi with ⟨rfl, rfl, hc⟩ | ⟨-, hc⟩
    · exact ⟨pc, ht, hf ctx hc⟩
    · exact hc

/-- A temporary file is opened that no other copy is filling. -/
theorem Windows.openDst (h : Windows dir cp) (halone : Alone cp t p) {src : Handle} {init : Stat}
    {dst : Nat} (ho : dir.openTrunc (partialPath p) = some (dir', dst)) :
    Windows dir' (Function.update cp t (some (p, .read ⟨src, dst, init, []⟩))) := by
  obtain ⟨-, hdata, hcase⟩ := Files.openTrunc_spec ho
  have hfile := Files.fileAt_openTrunc ho
  have hnext := Files.next_openTrunc ho
  have hnames : ∀ q, dir.fileAt q = some dst → q = partialPath p := by
    intro q hq
    rcases hcase with ⟨hp, -, -⟩ | ⟨-, hd, -, -⟩
    · exact Files.fileAt_inj hq hp
    · exact absurd (Files.fileAt_lt hq) (by omega)
  have hother : ∀ t' q ctx, t' ≠ t → InWindow cp t' q ctx → ctx.dst ≠ dst := by
    intro t' q ctx hne hi e
    rcases hcase with ⟨hp, -, -⟩ | ⟨-, hd, -, -⟩
    · exact halone t' q ctx hne hi
        (partialPath_inj (h.name t' q ctx _ hi (e ▸ hp)).symm)
    · have := h.issued t' q ctx hi
      omega
  refine ⟨?_, ?_, ?_, ?_, ?_⟩
  · intro t' q ctx hi
    rcases inWindow_update.mp hi with ⟨rfl, rfl, hc⟩ | ⟨-, hc⟩
    · obtain rfl := Option.some.inj hc
      exact hnext.2
    · exact Nat.lt_of_lt_of_le (h.issued t' q ctx hc) hnext.1
  · intro t' q ctx r hi hr
    rw [hfile] at hr
    rcases inWindow_update.mp hi with ⟨rfl, rfl, hc⟩ | ⟨hne, hc⟩
    · obtain rfl := Option.some.inj hc
      split at hr
      · assumption
      · exact hnames r hr
    · split at hr
      · exact absurd (Option.some.inj hr).symm (hother t' q ctx hne hc)
      · exact h.name t' q ctx r hc hr
  · intro t₁ q₁ ctx₁ t₂ q₂ ctx₂ h₁ h₂ e
    rcases inWindow_update.mp h₁ with ⟨rfl, rfl, hc₁⟩ | ⟨hne₁, hc₁⟩ <;>
      rcases inWindow_update.mp h₂ with ⟨rfl, rfl, hc₂⟩ | ⟨hne₂, hc₂⟩
    · rfl
    · obtain rfl := Option.some.inj hc₁
      exact absurd e.symm (hother t₂ q₂ ctx₂ hne₂ hc₂)
    · obtain rfl := Option.some.inj hc₂
      exact absurd e (hother t₁ q₁ ctx₁ hne₁ hc₁)
    · exact h.apart t₁ q₁ ctx₁ t₂ q₂ ctx₂ hc₁ hc₂ e
  · intro t' q ctx hi
    rw [hdata]
    rcases inWindow_update.mp hi with ⟨rfl, rfl, hc⟩ | ⟨hne, hc⟩
    · obtain rfl := Option.some.inj hc
      simp
    · rw [Function.update_of_ne (hother t' q ctx hne hc)]
      exact h.writer t' q ctx hc
  · intro t' q ctx hi
    rw [hdata]
    rcases filling_update.mp hi with ⟨rfl, rfl, hc⟩ | ⟨hne, hc⟩
    · obtain rfl := Option.some.inj hc
      simp [written]
    · rw [Function.update_of_ne (hother t' q ctx hne (InWindow.filling hc))]
      exact h.bytes t' q ctx hc

/-- A chunk is appended to the file a copy fills. -/
theorem Windows.write (h : Windows dir cp) {ctx : CopyCtx} {chunk bs : List UInt8}
    (ht : cp t = some (p, .write ctx chunk)) (hw : ∀ c, pc'.window = some c → c.dst = ctx.dst)
    (hf : ∀ c, pc'.filling = some c → c.dst = ctx.dst ∧ c.written = ctx.written ++ bs) :
    Windows (dir.writeAt zeroByte ctx.dst ctx.written.length (written t bs))
      (Function.update cp t (some (p, pc'))) := by
  have hin : InWindow cp t p ctx := ⟨_, ht, rfl⟩
  have hself : (dir.writeAt zeroByte ctx.dst ctx.written.length (written t bs)).data ctx.dst =
      written t (ctx.written ++ bs) := data_written_end (h.bytes t p ctx ⟨_, ht, rfl⟩)
  have hother : ∀ t' q c, t' ≠ t → InWindow cp t' q c → c.dst ≠ ctx.dst :=
    fun t' q c hne hi e => hne (h.apart t' q c t p ctx hi hin e)
  refine ⟨?_, ?_, ?_, ?_, ?_⟩
  · intro t' q c hi
    rcases inWindow_update.mp hi with ⟨rfl, rfl, hc⟩ | ⟨-, hc⟩
    · rw [hw c hc]
      exact h.issued t' q ctx hin
    · exact h.issued t' q c hc
  · intro t' q c r hi hr
    rw [Files.fileAt_writeAt] at hr
    rcases inWindow_update.mp hi with ⟨rfl, rfl, hc⟩ | ⟨-, hc⟩
    · rw [hw c hc] at hr
      exact h.name t' q ctx r hin hr
    · exact h.name t' q c r hc hr
  · intro t₁ q₁ c₁ t₂ q₂ c₂ h₁ h₂ e
    rcases inWindow_update.mp h₁ with ⟨rfl, rfl, hc₁⟩ | ⟨hne₁, hc₁⟩ <;>
      rcases inWindow_update.mp h₂ with ⟨rfl, rfl, hc₂⟩ | ⟨hne₂, hc₂⟩
    · rfl
    · rw [hw c₁ hc₁] at e
      exact absurd e.symm (hother t₂ q₂ c₂ hne₂ hc₂)
    · rw [hw c₂ hc₂] at e
      exact absurd e (hother t₁ q₁ c₁ hne₁ hc₁)
    · exact h.apart t₁ q₁ c₁ t₂ q₂ c₂ hc₁ hc₂ e
  · intro t' q c hi x hx
    rcases inWindow_update.mp hi with ⟨rfl, rfl, hc⟩ | ⟨hne, hc⟩
    · rw [hw c hc, hself] at hx
      obtain ⟨y, -, rfl⟩ := List.mem_map.mp hx
      rfl
    · rw [Files.data_writeAt_other (hother t' q c hne hc)] at hx
      exact h.writer t' q c hc x hx
  · intro t' q c hi
    rcases filling_update.mp hi with ⟨rfl, rfl, hc⟩ | ⟨hne, hc⟩
    · obtain ⟨hd, hwr⟩ := hf c hc
      rw [hd, hself, hwr]
    · rw [Files.data_writeAt_other (hother t' q c hne (InWindow.filling hc))]
      exact h.bytes t' q c hc

/-- The temporary file takes the committed name, and its copy lets go of it. -/
theorem Windows.rename (h : Windows dir cp) (halone : Alone cp t p)
    (hr : Files.rename dir (partialPath p) p = some dir') {snapshot : SourceMetadata} :
    Windows dir' (Function.update cp t (some (p, .ok snapshot))) := by
  obtain ⟨i, htemp, -, hdata, hnext, -⟩ := Files.rename_spec hr
  have hfile := Files.fileAt_rename hr
  have hw : ∀ t' q ctx, InWindow (Function.update cp t (some (p, .ok snapshot))) t' q ctx →
      t' ≠ t ∧ InWindow cp t' q ctx := by
    intro t' q ctx hi
    rcases inWindow_update.mp hi with ⟨-, -, hc⟩ | hc
    · exact absurd hc (by simp [CopyPc.window])
    · exact hc
  have hf : ∀ t' q ctx, Filling (Function.update cp t (some (p, .ok snapshot))) t' q ctx →
      Filling cp t' q ctx := by
    intro t' q ctx hi
    rcases filling_update.mp hi with ⟨-, -, hc⟩ | hc
    · exact absurd hc (by simp [CopyPc.filling])
    · exact hc.2
  refine ⟨?_, ?_, ?_, ?_, ?_⟩
  · intro t' q ctx hi
    rw [hnext]
    exact h.issued t' q ctx (hw t' q ctx hi).2
  · intro t' q ctx r hi hq
    obtain ⟨hne, hi⟩ := hw t' q ctx hi
    rw [hfile] at hq
    split at hq
    · exact absurd (partialPath_inj (h.name t' q ctx _ hi hq).symm) (halone t' q ctx hne hi)
    · split at hq
      · exact absurd hq (by simp)
      · exact h.name t' q ctx r hi hq
  · intro t₁ q₁ c₁ t₂ q₂ c₂ h₁ h₂ e
    exact h.apart t₁ q₁ c₁ t₂ q₂ c₂ (hw t₁ q₁ c₁ h₁).2 (hw t₂ q₂ c₂ h₂).2 e
  · intro t' q ctx hi
    rw [hdata]
    exact h.writer t' q ctx (hw t' q ctx hi).2
  · intro t' q ctx hi
    rw [hdata]
    exact h.bytes t' q ctx (hf t' q ctx hi)

theorem fileAt_of_removed (h : dir' = dir ∨ dir' = removeFile dir p) {q : RelPath} {i : Nat}
    (hq : dir'.fileAt q = some i) : dir.fileAt q = some i := by
  rcases h with rfl | rfl
  · exact hq
  · rw [fileAt_removeFile] at hq
    split at hq
    · exact absurd hq (by simp)
    · exact hq

theorem data_of_removed (h : dir' = dir ∨ dir' = removeFile dir p) : dir'.data = dir.data := by
  rcases h with rfl | rfl
  · rfl
  · exact data_removeFile dir p

theorem next_of_removed (h : dir' = dir ∨ dir' = removeFile dir p) : dir'.next = dir.next := by
  rcases h with rfl | rfl
  · rfl
  · exact next_removeFile dir p

/-- One step of one copy, alone at its path. -/
theorem Windows.move (h : Windows dir cp) (ht : cp t = some (p, pc)) (halone : Alone cp t p)
    (hm : CopyMove b dir abort p t c pc dir' pc') :
    Windows dir' (Function.update cp t (some (p, pc'))) := by
  have same : (∀ ctx, pc'.window = some ctx → pc.window = some ctx) →
      (∀ ctx, pc'.filling = some ctx → pc.filling = some ctx) →
      Windows dir (Function.update cp t (some (p, pc'))) :=
    fun hw hf => h.keep ht rfl (le_refl _) (fun _ _ e => e) hw hf
  cases hm with
  | mkdir hd =>
    have hd := Files.onlyDirs_createDirAll hd
    exact h.keep ht hd.data (le_of_eq hd.next.symm) (fun q i e => by rwa [hd.fileAt] at e)
      (by simp [CopyPc.window]) (by simp [CopyPc.filling])
  | openDst ho => exact h.openDst halone ho
  | write ctx bs =>
    refine h.write ht ?_ ?_ <;>
      simp only [CopyPc.window, CopyPc.filling, Option.some.injEq] <;> rintro c rfl <;> simp
  | writeFails ctx bs n =>
    refine h.write ht ?_ ?_
    · rintro c hc
      rw [← Option.some.inj hc]
    · simp [CopyPc.filling]
  | rename hr => exact h.rename halone hr
  | removeInner hd =>
    exact h.keep ht (data_of_removed hd) (le_of_eq (next_of_removed hd).symm)
      (fun q i => fileAt_of_removed hd) (by simp [CopyPc.window]) (by simp [CopyPc.filling])
  | removeOuter hd =>
    exact h.keep ht (data_of_removed hd) (le_of_eq (next_of_removed hd).symm)
      (fun q i => fileAt_of_removed hd) (by simp [CopyPc.window]) (by simp [CopyPc.filling])
  | mkdirFails | openSrc | openSrcFails | fstat | fstatFails | openDstFails | readFails | eof
  | chunk | syncFails | sync | checkAbort | refuse | accept | applyFails | apply | renameFails =>
    exact same (by simp [CopyPc.window]) (by simp [CopyPc.filling])

/-! ## Committed files -/

theorem OneWriter.move (h : OneWriter dir) (hw : Windows dir cp) (ht : cp t = some (p, pc))
    (hm : CopyMove b dir abort p t c pc dir' pc') : OneWriter dir' := by
  have write : ∀ ctx chunk bs, pc = .write ctx chunk →
      OneWriter (dir.writeAt zeroByte ctx.dst ctx.written.length (written t bs)) := by
    intro ctx chunk bs hpc i
    subst hpc
    by_cases hi : i = ctx.dst
    · subst hi
      refine ⟨t, fun x hx => ?_⟩
      rw [data_written_end (hw.bytes t p ctx ⟨_, ht, rfl⟩)] at hx
      obtain ⟨y, -, rfl⟩ := List.mem_map.mp hx
      rfl
    · rw [Files.data_writeAt_other hi]
      exact h i
  cases hm with
  | mkdir hd => rw [OneWriter, (Files.onlyDirs_createDirAll hd).data]; exact h
  | openDst ho =>
    intro i
    rw [(Files.openTrunc_spec ho).2.1, Function.update_apply]
    split
    · exact ⟨0, by simp⟩
    · exact h i
  | write ctx bs => exact write ctx bs bs rfl
  | writeFails ctx bs n => exact write ctx bs (bs.take n) rfl
  | rename hr =>
    obtain ⟨-, -, -, hdata, -, -⟩ := Files.rename_spec hr
    rw [OneWriter, hdata]
    exact h
  | removeInner hd | removeOuter hd => rw [OneWriter, data_of_removed hd]; exact h
  | mkdirFails | openSrc | openSrcFails | fstat | fstatFails | openDstFails | readFails | eof
  | chunk | syncFails | sync | checkAbort | refuse | accept | applyFails | apply | renameFails =>
    exact h

/-- What a step does to the file at a name that is not the copy's temporary one:
nothing, or the temporary file is committed there. -/
theorem contents_move (hw : Windows dir cp) (ht : cp t = some (p, pc))
    (hm : CopyMove b dir abort p t c pc dir' pc') {q : RelPath} (hq : q ≠ partialPath p) :
    dir'.contents q = dir.contents q ∨
      ∃ ctx snapshot, pc = .rename ctx snapshot ∧ pc' = .ok snapshot ∧ q = p ∧
        dir'.contents p = dir.contents (partialPath p) := by
  have write : ∀ ctx chunk bs, pc = .write ctx chunk →
      (dir.writeAt zeroByte ctx.dst ctx.written.length (written t bs)).contents q
        = dir.contents q := by
    intro ctx chunk bs hpc
    subst hpc
    rw [Files.contents, Files.fileAt_writeAt, Files.contents]
    cases hf : dir.fileAt q with
    | none => rfl
    | some i =>
      have hi : i ≠ ctx.dst := fun e => hq (hw.name t p ctx q ⟨_, ht, rfl⟩ (e ▸ hf))
      rw [Option.map_some, Option.map_some, Files.data_writeAt_other hi]
  have removed : dir' = dir ∨ dir' = removeFile dir (partialPath p) →
      dir'.contents q = dir.contents q := by
    rintro (rfl | rfl)
    · rfl
    · rw [Files.contents, fileAt_removeFile, if_neg hq, data_removeFile, Files.contents]
  cases hm with
  | mkdir hd =>
    have hd := Files.onlyDirs_createDirAll hd
    left
    rw [Files.contents, hd.fileAt, hd.data, Files.contents]
  | openDst ho =>
    left
    obtain ⟨-, hdata, hcase⟩ := Files.openTrunc_spec ho
    rw [Files.contents, Files.fileAt_openTrunc ho, if_neg hq, hdata, Files.contents]
    cases hf : dir.fileAt q with
    | none => rfl
    | some i =>
      rw [Option.map_some, Option.map_some, Function.update_of_ne]
      rintro rfl
      rcases hcase with ⟨hp, -, -⟩ | ⟨-, hd, -, -⟩
      · exact hq (Files.fileAt_inj hf hp)
      · exact absurd (Files.fileAt_lt hf) (by omega)
  | write ctx bs => exact .inl (write ctx bs bs rfl)
  | writeFails ctx bs n => exact .inl (write ctx bs (bs.take n) rfl)
  | @rename ctx snapshot _ hr =>
    obtain ⟨-, -, -, hdata, -, -⟩ := Files.rename_spec hr
    by_cases hqp : q = p
    · refine .inr ⟨ctx, snapshot, rfl, rfl, hqp, ?_⟩
      rw [Files.contents, Files.fileAt_rename hr, if_pos rfl, hdata, Files.contents]
    · left
      rw [Files.contents, Files.fileAt_rename hr, if_neg hqp, if_neg hq, hdata, Files.contents]
  | removeInner hd | removeOuter hd => exact .inl (removed hd)
  | mkdirFails | openSrc | openSrcFails | fstat | fstatFails | openDstFails | readFails | eof
  | chunk | syncFails | sync | checkAbort | refuse | accept | applyFails | apply | renameFails =>
    exact .inl rfl

/-- A step leaves every name but its own two where it led. -/
theorem fileAt_move (hm : CopyMove b dir abort p t c pc dir' pc') {q : RelPath} (hp : q ≠ p)
    (hq : q ≠ partialPath p) : dir'.fileAt q = dir.fileAt q := by
  cases hm with
  | mkdir hd => exact (Files.onlyDirs_createDirAll hd).fileAt q
  | openDst ho => rw [Files.fileAt_openTrunc ho, if_neg hq]
  | rename hr => rw [Files.fileAt_rename hr, if_neg hp, if_neg hq]
  | removeInner hd | removeOuter hd =>
    rcases hd with rfl | rfl
    · rfl
    · rw [fileAt_removeFile, if_neg hq]
  | write | writeFails => rfl
  | mkdirFails | openSrc | openSrcFails | fstat | fstatFails | openDstFails | readFails | eof
  | chunk | syncFails | sync | checkAbort | refuse | accept | applyFails | apply | renameFails => rfl

/-- A step takes no name but its temporary one away. -/
theorem lookup_move (hm : CopyMove b dir abort p t c pc dir' pc') {q : RelPath}
    (hq : q ≠ partialPath p) (hs : (dir.lookup q).isSome) : (dir'.lookup q).isSome := by
  cases hm with
  | mkdir hd => exact (Files.onlyDirs_createDirAll hd).some q hs
  | openDst ho => exact Files.some_openTrunc ho hs
  | rename hr =>
    obtain ⟨i, -, -, -, -, hlookup⟩ := Files.rename_spec hr
    rw [hlookup, if_neg hq]
    split
    · rfl
    · exact hs
  | removeInner hd | removeOuter hd =>
    rcases hd with rfl | rfl
    · exact hs
    · rwa [lookup_removeFile_of_ne dir hq]
  | write | writeFails => exact hs
  | mkdirFails | openSrc | openSrcFails | fstat | fstatFails | openDstFails | readFails | eof
  | chunk | syncFails | sync | checkAbort | refuse | accept | applyFails | apply | renameFails =>
    exact hs

/-- A step writes to no file that another copy is filling. -/
theorem data_move (hw : Windows dir cp) (ht : cp t = some (p, pc)) (halone : Alone cp t p)
    (hm : CopyMove b dir abort p t c pc dir' pc') {t' : Nat} {p' : RelPath} {ctx' : CopyCtx}
    (hne : t' ≠ t) (hi : InWindow cp t' p' ctx') : dir'.data ctx'.dst = dir.data ctx'.dst := by
  cases hm with
  | mkdir hd => rw [(Files.onlyDirs_createDirAll hd).data]
  | openDst ho =>
    obtain ⟨-, hdata, hcase⟩ := Files.openTrunc_spec ho
    rw [hdata, Function.update_of_ne]
    rintro rfl
    rcases hcase with ⟨hp, -, -⟩ | ⟨-, hd, -, -⟩
    · exact halone t' p' ctx' hne hi (partialPath_inj (hw.name t' p' ctx' _ hi hp).symm)
    · have := hw.issued t' p' ctx' hi
      omega
  | rename hr =>
    obtain ⟨-, -, -, hdata, -, -⟩ := Files.rename_spec hr
    rw [hdata]
  | removeInner hd | removeOuter hd => rw [data_of_removed hd]
  | write ctx bs =>
    exact Files.data_writeAt_other fun e => hne (hw.apart t' p' ctx' t p ctx hi ⟨_, ht, rfl⟩ e)
  | writeFails ctx bs n =>
    exact Files.data_writeAt_other fun e => hne (hw.apart t' p' ctx' t p ctx hi ⟨_, ht, rfl⟩ e)
  | mkdirFails | openSrc | openSrcFails | fstat | fstatFails | openDstFails | readFails | eof
  | chunk | syncFails | sync | checkAbort | refuse | accept | applyFails | apply | renameFails => rfl

/-- Fewer windows, and no new name for a file. -/
theorem SealedAt.mono {cp' : Copies} {q : RelPath} (h : SealedAt dir cp q)
    (hfile : ∀ r i, dir'.fileAt r = some i → dir.fileAt r = some i)
    (hw : ∀ t p ctx, InWindow cp' t p ctx → InWindow cp t p ctx) : SealedAt dir' cp' q :=
  fun t ctx hi i he => h t ctx (hw t q ctx hi) i (hfile _ i he)

/-- One step of one copy, alone at its path: it keeps `q` sealed unless it commits
under the temporary name of `q` while another copy fills the file of that name. -/
theorem SealedAt.move {q : RelPath} (h : SealedAt dir cp q) (ht : cp t = some (p, pc))
    (halone : Alone cp t p)
    (hname : ∀ ctx snapshot, pc = .rename ctx snapshot → p = partialPath q →
      ∀ t' ctx', t' ≠ t → ¬ InWindow cp t' q ctx')
    (hm : CopyMove b dir abort p t c pc dir' pc') :
    SealedAt dir' (Function.update cp t (some (p, pc'))) q := by
  have keep : (∀ r i, dir'.fileAt r = some i → dir.fileAt r = some i) →
      (∀ ctx, pc'.window = some ctx → ∃ ctx', pc.window = some ctx' ∧ ctx'.dst = ctx.dst) →
      SealedAt dir' (Function.update cp t (some (p, pc'))) q := by
    intro hfile hw t' ctx hi i he
    rcases inWindow_update.mp hi with ⟨rfl, rfl, hc⟩ | ⟨-, hc⟩
    · obtain ⟨ctx', hc', hd⟩ := hw ctx hc
      rw [← hd]
      exact h t' ctx' ⟨pc, ht, hc'⟩ i (hfile _ i he)
    · exact h t' ctx hc i (hfile _ i he)
  cases hm with
  | mkdir hd =>
    have hd := Files.onlyDirs_createDirAll hd
    exact keep (fun q i e => by rwa [hd.fileAt] at e) (by simp [CopyPc.window])
  | openDst ho =>
    intro t' ctx hi i he
    rw [Files.fileAt_openTrunc ho] at he
    rcases inWindow_update.mp hi with ⟨rfl, rfl, hc⟩ | ⟨hne, hc⟩
    · obtain rfl := Option.some.inj hc
      rw [if_pos rfl] at he
      exact (Option.some.inj he).symm
    · split at he
      · next hq => exact absurd (partialPath_inj hq) (halone t' q ctx hne hc)
      · exact h t' ctx hc i he
  | rename hr =>
    intro t' ctx hi i he
    rcases inWindow_update.mp hi with ⟨-, -, hc⟩ | ⟨hne, hc⟩
    · exact absurd hc (by simp [CopyPc.window])
    · have hq : partialPath q ≠ p := fun e => hname _ _ rfl e.symm t' ctx hne hc
      rw [Files.fileAt_rename hr, if_neg hq] at he
      split at he
      · exact absurd he (by simp)
      · exact h t' ctx hc i he
  | removeInner hd | removeOuter hd =>
    exact keep (fun q i => fileAt_of_removed hd) (by simp [CopyPc.window])
  | write ctx bs => exact keep (fun _ _ e => e) (by simp [CopyPc.window])
  | writeFails ctx bs n => exact keep (fun _ _ e => e) (by simp [CopyPc.window])
  | mkdirFails | openSrc | openSrcFails | fstat | fstatFails | openDstFails | readFails | eof
  | chunk | syncFails | sync | checkAbort | refuse | accept | applyFails | apply | renameFails =>
    exact keep (fun _ _ e => e) (by simp [CopyPc.window])

/-- At its rename a sealed copy commits exactly what it has written. -/
theorem contents_at_rename (hw : Windows dir cp) (hs : SealedAt dir cp p) {ctx : CopyCtx}
    {snapshot : SourceMetadata} (ht : cp t = some (p, .rename ctx snapshot))
    (hr : Files.rename dir (partialPath p) p = some dir') :
    dir'.contents p = some (written t ctx.written) := by
  obtain ⟨i, htemp, -, -, -, -⟩ := Files.rename_spec hr
  obtain rfl := hs t ctx ⟨_, ht, rfl⟩ i htemp
  rw [Files.contents_rename hr, Files.contents, htemp, Option.map_some, hw.bytes t p ctx ⟨_, ht, rfl⟩]

end FsCache
