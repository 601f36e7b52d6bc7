import FsCache.Tidy

/- Cached files are complete.

   A copy reads through a descriptor until the end of the file. As long as nobody
   writes to that file meanwhile, what it has read is always a beginning of it, and all
   of it when the read answers nothing: `ReadsAt`. Since a cache file is what one copy
   has written and renamed, or what it was, `Complete` is kept by every step, by a
   startup, and by the death of the daemon at any point.

   `H p` is any collection of contents that has everything an open of `p` leads to
   during the run.

   What the steps have to meet is `Undisturbed`: copies of one path do not overlap, no
   name with the extension `partial` appears in the backing, and no file is written
   while a copy is reading it. -/

namespace FsCache
open Lib

/-! ## What copies read -/

def Handle.ino : Handle → Option Nat
  | .file i => some i
  | .dir _ => none

namespace Backing

/-- The content that an open of `p` leads to. -/
def served (b : Backing) (p : RelPath) : Option BFile :=
  match b.openFile p with
  | some (.file i) => some (b.file i)
  | _ => none

theorem served_of_openFile {b : Backing} {p : RelPath} {i : Nat}
    (h : b.openFile p = some (.file i)) : b.served p = some (b.file i) := by
  simp only [served, h]

theorem issued_of_openFile {b : Backing} {p : RelPath} {i : Nat}
    (h : b.openFile p = some (.file i)) : i < b.next := by
  unfold openFile at h
  generalize 41 = fuel at h
  induction fuel generalizing p with
  | zero => exact absurd h (by simp [follow])
  | succ fuel ih =>
    rw [follow] at h
    split at h
    · exact absurd h (by simp)
    · next j hj =>
      obtain rfl : j = i := by simpa using h
      exact b.issued p j hj
    · exact absurd h (by simp)
    · exact ih h

/-- A name that leads nowhere cannot be opened. -/
theorem openFile_of_none {b : Backing} {p : RelPath} (h : b.node p = none) : b.openFile p = none := by
  simp only [openFile, follow, h]

/-- A file that is not written to stays as it is. -/
theorem file_change {b b' : Backing} {c : BackingChange} {i : Nat} (h : b.change c = some b')
    (hi : i < b.next) (hsteady : ∀ q f, c = .write q f → b.node q ≠ some (.file i)) :
    i < b'.next ∧ b'.file i = b.file i := by
  cases c with
  | write q f =>
    simp only [change] at h
    split at h
    · next j hj =>
      obtain rfl := Option.some.inj h
      refine ⟨hi, Function.update_of_ne ?_ _ _⟩
      intro hi
      subst hi
      exact hsteady q f rfl hj
    · exact absurd h (by simp)
  | replace q f =>
    obtain rfl := Option.some.inj h
    exact ⟨Nat.lt_succ_of_lt hi, Function.update_of_ne (Nat.ne_of_lt hi) _ _⟩
  | remove q | mkdir q st | symlink q st target =>
    obtain rfl := Option.some.inj h
    exact ⟨hi, rfl⟩

end Backing

/-- The file a copy has yet to read from. -/
def CopyPc.reading : CopyPc → Option Nat
  | .fstat src | .openDst src _ => src.ino
  | .read ctx | .write ctx _ => ctx.src.ino
  | _ => none

/-- The opened file is a version in `H`, and what has been read is its beginning; in
the end it is all of one version. -/
def ReadsAt (b : Backing) (H : BFile → Prop) : CopyPc → Prop
  | .fstat src | .openDst src _ => ∀ i, src = .file i → i < b.next ∧ H (b.file i)
  | .read ctx =>
    ∀ i, ctx.src = .file i → i < b.next ∧ H (b.file i) ∧ ctx.written <+: (b.file i).bytes
  | .write ctx chunk =>
    ∀ i, ctx.src = .file i → i < b.next ∧ H (b.file i) ∧ ctx.written ++ chunk <+: (b.file i).bytes
  | .sync ctx | .checkAbort ctx | .finalStat ctx _ | .apply ctx _ | .rename ctx _ =>
    ∃ f, H f ∧ ctx.written = f.bytes
  | _ => True

section Copy

variable {b b' : Backing} {H : BFile → Prop} {dir dir' : CacheDir} {abort : Bool} {p : RelPath}
  {t : Nat} {c : CopyChoice} {pc pc' : CopyPc}

theorem ReadsAt.change {ch : BackingChange} (hs : ReadsAt b H pc) (h : b.change ch = some b')
    (hsteady : ∀ i ∈ pc.reading, ∀ q f, ch = .write q f → b.node q ≠ some (.file i)) :
    ReadsAt b' H pc := by
  cases pc with
  | fstat src | openDst src init =>
    intro i hreading
    subst hreading
    obtain ⟨hi, hH⟩ := hs i rfl
    obtain ⟨hi', hfile⟩ := Backing.file_change h hi (hsteady i rfl)
    exact ⟨hi', hfile ▸ hH⟩
  | read ctx | write ctx chunk =>
    intro i hsrc
    obtain ⟨hi, hH, hread⟩ := hs i hsrc
    have hreading : ctx.src.ino = some i := by rw [hsrc]; rfl
    obtain ⟨hi', hfile⟩ := Backing.file_change h hi (hsteady i hreading)
    exact ⟨hi', hfile ▸ hH, hfile ▸ hread⟩
  | mkdir | openSrc | sync | checkAbort | finalStat | apply | rename | failInner | failOuter | ok
  | err => exact hs

theorem ReadsAt.move (hs : ReadsAt b H pc) (hserved : ∀ f, b.served p = some f → H f)
    (hm : CopyMove b dir abort p t c pc dir' pc') : ReadsAt b H pc' := by
  cases hm with
  | openSrc h =>
    intro i hreading
    subst hreading
    exact ⟨Backing.issued_of_openFile h, hserved _ (Backing.served_of_openFile h)⟩
  | fstat src => exact hs
  | openDst h => exact fun i hsrc => ⟨(hs i hsrc).1, (hs i hsrc).2, List.nil_prefix⟩
  | @eof ctx n h =>
    cases hsrc : ctx.src with
    | dir st =>
      rw [hsrc] at h
      exact absurd h (by simp [Backing.readAt])
    | file i =>
      obtain ⟨-, hH, hread⟩ := hs i hsrc
      rw [hsrc] at h
      exact ⟨b.file i, hH, (Backing.readAt_append rfl hread h).2 rfl⟩
  | chunk h hne =>
    intro i hsrc
    obtain ⟨hi, hH, hread⟩ := hs i hsrc
    rw [hsrc] at h
    exact ⟨hi, hH, (Backing.readAt_append rfl hread h).1⟩
  | write | sync | checkAbort | accept | apply => exact hs
  | mkdirFails | mkdir | openSrcFails | fstatFails | openDstFails | readFails | writeFails
  | syncFails | refuse | applyFails | renameFails | rename | removeInner | removeOuter =>
    exact trivial

end Copy

/-! ## One path -/

/-- The cache file at `p` is a whole version, and so will be what the copies of `p`
commit. -/
structure Complete (H : BFile → Prop) (p : RelPath) (v : PathView) : Prop where
  bytes : ∀ bs, v.dir.bytesAt p = some bs → ∃ f, H f ∧ bs = f.bytes
  copies : ∀ k t abort pc, v.phase k = .running t abort (.copy pc) → ReadsAt v.backing H pc

theorem Complete.move {cfg : Config} {p : RelPath} {clear : Prop} {v v' : PathView} {a : Action}
    {H : BFile → Prop} (hi : Complete H p v) (hp : extension p ≠ some partialExt)
    (hserved : ∀ f, v.backing.served p = some f → H f)
    (hsteady : ∀ q f, a = .change (.write q f) → ∀ k t abort pc,
      v.phase k = .running t abort (.copy pc) → ∀ i ∈ pc.reading, v.backing.node q ≠ some (.file i))
    (hm : PathMove cfg p clear True v a v') : Complete H p v' where
  bytes bs hbs := by
    rcases hm.contents hp with h | h | ⟨k, t, abort, ctx, snapshot, hphase, h⟩
    · exact hi.bytes bs (by rwa [CacheDir.bytesAt, ← h])
    · rw [CacheDir.bytesAt, h] at hbs
      exact absurd hbs (by simp)
    · obtain ⟨f, hH, hread⟩ := hi.copies k t abort _ hphase
      rw [CacheDir.bytesAt_written h, Option.some.injEq] at hbs
      exact ⟨f, hH, hbs.symm.trans hread⟩
  copies k t abort pc hpc := by
    -- the copies that were at work, after a change
    have hold : ∀ t abort pc, v.phase k = .running t abort (.copy pc) → ReadsAt v'.backing H pc := by
      intro t abort pc hpc
      rcases hm.backing with h | ⟨c, rfl, h⟩
      · exact h ▸ hi.copies k t abort pc hpc
      · refine (hi.copies k t abort pc hpc).change h fun i hreading q f hc => ?_
        exact hsteady q f (by rw [hc]) k t abort pc hpc i hreading
    cases hm.phase k with
    | keep h => exact hold t abort pc (h.symm.trans hpc)
    | idle h => rcases h with h | h <;> exact absurd (h.symm.trans hpc) (by simp)
    | spawn h => exact absurd (h.symm.trans hpc) (by simp)
    | abort h h' =>
      obtain ⟨-, -, rfl⟩ := Phase.running.inj (h'.symm.trans hpc)
      exact hold _ _ _ h
    | work ha h hw hstep h' =>
      obtain ⟨-, -, rfl⟩ := Phase.running.inj (h'.symm.trans hpc)
      cases hw with
      | room => trivial
      | copy hc =>
        have hb : v'.backing = v.backing := by
          rcases hm.backing with hb | ⟨c, hc, -⟩
          · exact hb
          · exact absurd (ha.symm.trans hc) (by simp)
        rw [hb]
        exact (hi.copies k _ _ _ h).move hserved hc

/-! ## The daemon -/

/-- Past the opening of its source. -/
def CopyPc.opened : CopyPc → Bool
  | .mkdir | .openSrc | .failOuter none | .err => false
  | _ => true

/-- No name in the backing has the extension of a temporary file. -/
def Backing.Plain (b : Backing) : Prop := ∀ p, b.node p ≠ none → extension p ≠ some partialExt

theorem Backing.Plain.change {b b' : Backing} {c : BackingChange} (hb : b.Plain)
    (hc : ∀ q, (∃ f, c = .replace q f) ∨ (∃ st, c = .mkdir q st) ∨ (∃ st l, c = .symlink q st l) →
      extension q ≠ some partialExt) (h : b.change c = some b') : b'.Plain := by
  have other : ∀ q n, extension q ≠ some partialExt → ∀ p, Function.update b.node q n p ≠ none →
      extension p ≠ some partialExt := by
    intro q n hq p hp
    by_cases e : p = q
    · exact e ▸ hq
    · exact hb p (by rwa [Function.update_of_ne e] at hp)
  cases c with
  | write q f =>
    simp only [Backing.change] at h
    split at h
    · obtain rfl := Option.some.inj h
      exact hb
    · exact absurd h (by simp)
  | replace q f =>
    obtain rfl := Option.some.inj h
    exact other q _ (hc q (.inl ⟨f, rfl⟩))
  | remove q =>
    obtain rfl := Option.some.inj h
    intro p hp
    by_cases e : p = q
    · subst e
      exact absurd (Function.update_self _ _ _) hp
    · exact hb p (by simpa only [Backing.setNode, Function.update_of_ne e] using hp)
  | mkdir q st =>
    obtain rfl := Option.some.inj h
    exact other q _ (hc q (.inr (.inl ⟨st, rfl⟩)))
  | symlink q st l =>
    obtain rfl := Option.some.inj h
    exact other q _ (hc q (.inr (.inr ⟨st, l, rfl⟩)))

namespace Daemon

variable {cfg : Config} {s s' : Daemon} {a : Action} {p : RelPath} {H : RelPath → BFile → Prop}

/-- A change puts no temporary name into the backing, and writes to no file that a copy
is reading. -/
def Steady (s : Daemon) : Action → Prop
  | .change (.write q _) => ∀ r ∈ s.jobs.running,
    match s.pc r.1 with
    | .copy pc => ∀ i ∈ pc.reading, s.backing.node q ≠ some (.file i)
    | _ => True
  | .change (.replace q _) | .change (.mkdir q _) | .change (.symlink q _ _) =>
    extension q ≠ some partialExt
  | _ => True

instance (s : Daemon) : (a : Action) → Decidable (s.Steady a)
  | .change (.write q _) =>
    have : ∀ w : WorkerPc, Decidable (match w with
        | .copy pc => ∀ i ∈ pc.reading, s.backing.node q ≠ some (.file i)
        | _ => True) := fun w => by split <;> infer_instance
    inferInstanceAs (Decidable (∀ r ∈ s.jobs.running,
      match s.pc r.1 with
      | .copy pc => ∀ i ∈ pc.reading, s.backing.node q ≠ some (.file i)
      | _ => True))
  | .change (.replace q _) => inferInstanceAs (Decidable (extension q ≠ some partialExt))
  | .change (.mkdir q _) => inferInstanceAs (Decidable (extension q ≠ some partialExt))
  | .change (.symlink q _ _) => inferInstanceAs (Decidable (extension q ≠ some partialExt))
  | .change (.remove _) | .offer _ | .submit _ _ _ | .expire _ | .pop _ | .acquire | .release
  | .work _ _ | .forget _ | .event _ | .dispatch _ | .evictFile _ | .evictRow _ | .hit _ _
  | .touch _ _ | .refresh _ | .crash _ _ => isTrue trivial

/-- What the steps have to meet. -/
def Undisturbed (s : Daemon) (a : Action) : Prop := s.PromotesApart a ∧ s.Steady a

instance (s : Daemon) (a : Action) : Decidable (s.Undisturbed a) :=
  inferInstanceAs (Decidable (_ ∧ _))

structure Intact (H : RelPath → BFile → Prop) (s : Daemon) : Prop extends s.Tidy where
  plain : s.backing.Plain
  /-- a copy of a temporary name finds nothing to open -/
  unopened : ∀ t p pc, s.copies t = some (p, pc) → extension p = some partialExt → pc.opened = false
  sealed : ∀ p, SealedAt s.dir s.copies p
  complete : ∀ p, extension p ≠ some partialExt → Complete (H p) p (s.view p)

theorem plain_step (hi : s.backing.Plain) (hok : s.Steady a) (h : step cfg s a = some s')
    (hm : PathMove cfg p False False (s.view p) a (s'.view p)) : s'.backing.Plain := by
  rcases hm.backing with e | ⟨c, rfl, hc⟩
  · have e : s'.backing = s.backing := e
    rwa [e]
  · refine hi.change ?_ hc
    rintro q (⟨f, rfl⟩ | ⟨st, rfl⟩ | ⟨st, l, rfl⟩) <;> exact hok

theorem unopened_step (hi : s.Intact H) (h : step cfg s a = some s') {t : Nat} {pc : CopyPc}
    (hpc : s'.copies t = some (p, pc)) (hp : extension p = some partialExt) : pc.opened = false := by
  cases dirStep_of_step hi.wf h with
  | quiet hdata hnext hfile hcopies =>
    rcases hcopies t p pc hpc with ht | rfl
    · exact hi.unopened t p pc ht hp
    · rfl
  | @copy u c q cpc cpc' ha hu hm hcopies =>
    rw [hcopies] at hpc
    by_cases ht : t = u
    · subst ht
      rw [Function.update_self, Option.some.injEq, Prod.mk.injEq] at hpc
      obtain ⟨rfl, rfl⟩ := hpc
      have hbefore := hi.unopened t q cpc hu hp
      generalize s'.dir = dir' at hm
      cases hm with
      | openSrc ho =>
        have hnone : s.backing.node q = none := by
          by_contra hn
          exact hi.plain q hn hp
        rw [Backing.openFile_of_none hnone] at ho
        exact absurd ho (by simp)
      | mkdirFails | mkdir | openSrcFails | removeOuter => rfl
      | fstat | fstatFails | openDst | openDstFails | readFails | eof | chunk | writeFails | write
      | syncFails | sync | checkAbort | refuse | accept | applyFails | apply | renameFails | rename
      | removeInner => exact absurd hbefore (by simp [CopyPc.opened])
    · rw [Function.update_of_ne ht] at hpc
      exact hi.unopened t p pc hpc hp

theorem Intact.sealed_step (hi : s.Intact H) (h : step cfg s a = some s') :
    SealedAt s'.dir s'.copies p := by
  cases dirStep_of_step hi.wf h with
  | quiet hdata hnext hfile hcopies =>
    exact (hi.sealed p).mono hfile fun t q ctx => inWindow_quiet hcopies
  | @copy t c q pc pc' ha ht hm hcopies =>
    rw [hcopies]
    have halone := hi.alone ht (done_of_move hm)
    refine (hi.sealed p).move ht halone ?_ hm
    rintro ctx snapshot rfl rfl t' ctx' hne hwin
    by_cases hroot : p = []
    · subst hroot
      exact halone t' [] ctx' hne hwin rfl
    · exact absurd (hi.unopened t _ _ ht (extension_partialPath hroot)) (by simp [CopyPc.opened])

theorem Intact.step (hi : s.Intact H) (hserved : ∀ p f, s.backing.served p = some f → H p f)
    (hok : s.Undisturbed a) (h : step cfg s a = some s') : s'.Intact H where
  toTidy := hi.toTidy.step hok.1 h
  plain :=
    plain_step (p := []) hi.plain hok.2 h
      (pathMove_of_step hi.wf (fun f => f.elim) (fun f => f.elim) h)
  unopened t p pc hpc hp := unopened_step hi h hpc hp
  sealed p := hi.sealed_step h
  complete p hp := by
    have hm : PathMove cfg p False True (s.view p) a (s'.view p) :=
      pathMove_of_step hi.wf (fun f => f.elim) (fun _ => ⟨hi.windows, hi.sealed p⟩) h
    refine (hi.complete p hp).move hp (hserved p) ?_ hm
    rintro q f rfl k t abort pc hphase i hreading
    obtain ⟨job, hjob, -, -, hpc⟩ := (phase_eq_running_iff hi.wf).mp hphase
    have hsteady := hok.2 (t, job) (Jobs.mem_running hjob)
    simp only [hpc] at hsteady
    exact hsteady i hreading

end Daemon

end FsCache
