import FsCache.CopySound

/- One copy of a file that nobody changes (`perform_copy`, cache/io.rs).

   The change guard compares the fstat of the opened file with a stat by name.
   `open_file` follows a symbolic link, `BackingStore::stat` does not, so for a link it is the
   link that is compared: `commits_iff` says that with nothing else in the way the copy
   commits, and what it commits is the file, exactly if the stat by name gives the size and
   the time of the opened file. `link_refused` is a link that is never copied.

   Given: no call fails, and no abort is signalled; so no file or directory of the cache is in
   the way of the copy. How much a read returns is left open.

   Correspondence (Rust ↔ Lean):
     `perform_copy`, its calls one by one  ↔ `quietStep`, by `copyStep`
     `open_file`, `stat`                   ↔ `Backing.openFile`, `Backing.stat` -/

namespace FsCache
open Lib

/-- A call of the copy that does not fail, with no abort; `n` is how much a read returns. -/
def quietStep (p : RelPath) (s : Single) (n : Nat) : Option Single := singleStep p s (.copy ⟨n, false⟩ false)

/-- However much the reads return, the copy commits the file's bytes. -/
def Commits (b : Backing) (dir : CacheDir) (p : RelPath) (f : BFile) : Prop :=
  ∀ ns : Nat → Nat, ∃ k s source,
    run (quietStep p) (Single.start b dir) ((List.range k).map ns) = some s ∧ s.pc = .ok source ∧
      s.dir.bytesAt p = some f.bytes

/-- Neither the parent nor the file nor the temporary file of `p` has to be made where there is
something else. -/
structure CacheDir.Free (dir : CacheDir) (p : RelPath) : Prop where
  parent : ∀ q, q <+: p.dropLast → dir.fileAt q = none
  dest : dir.isDir p = false
  temp : dir.isDir (partialPath p) = false

/-- The stat by name gives the size and the time of the file. -/
def NamesFile (b : Backing) (p : RelPath) (f : BFile) : Prop := (b.stat p).map Stat.version = some f.version

instance (b : Backing) (p : RelPath) (f : BFile) : Decidable (NamesFile b p f) :=
  inferInstanceAs (Decidable (_ = _))

section Quiet

variable {b : Backing} {dir : CacheDir} {p : RelPath} {i : Nat} {s s' : Single} {n : Nat}

/-! ## What is known at each call -/

/-- The parent is there, and the names are free. -/
structure Placed (dir : CacheDir) (p : RelPath) : Prop where
  parent : dir.isDir p.dropLast = true
  dest : dir.isDir p = false

/-- The temporary file has what was read, which is a beginning of the file. -/
structure Copied (dir : CacheDir) (p : RelPath) (f : BFile) (i : Nat) (ctx : CopyCtx) : Prop extends
    Placed dir p where
  src : ctx.src = .file i
  init : ctx.init = f.stat
  part : ctx.written <+: f.bytes
  name : dir.fileAt (partialPath p) = some ctx.dst
  bytes : dir.data ctx.dst = written 1 ctx.written

/-- At each call of a copy of inode `i`. -/
def Quiet (p : RelPath) (b : Backing) (i : Nat) (s : Single) : Prop :=
  s.backing = b ∧
  match s.pc with
  | .mkdir => s.dir.Free p
  | .openSrc => Placed s.dir p ∧ s.dir.isDir (partialPath p) = false
  | .fstat src => Placed s.dir p ∧ s.dir.isDir (partialPath p) = false ∧ src = .file i
  | .openDst src init =>
    Placed s.dir p ∧ s.dir.isDir (partialPath p) = false ∧ src = .file i ∧ init = (b.file i).stat
  | .read ctx => Copied s.dir p (b.file i) i ctx
  | .write ctx chunk =>
    Copied s.dir p (b.file i) i ctx ∧ ctx.written ++ chunk <+: (b.file i).bytes ∧ chunk ≠ []
  | .sync ctx | .checkAbort ctx | .finalStat ctx false =>
    Copied s.dir p (b.file i) i ctx ∧ ctx.written = (b.file i).bytes
  | .apply ctx _ | .rename ctx _ =>
    NamesFile b p (b.file i) ∧ Copied s.dir p (b.file i) i ctx ∧ ctx.written = (b.file i).bytes
  | .ok _ => NamesFile b p (b.file i) ∧ s.dir.bytesAt p = some (b.file i).bytes
  | .failInner _ | .failOuter _ | .err => ¬ NamesFile b p (b.file i)
  | .finalStat _ true => False

/-- How far it is to the end. -/
def callsLeft (len : Nat) : CopyPc → Nat
  | .mkdir => 2 * len + 11
  | .openSrc => 2 * len + 10
  | .fstat _ => 2 * len + 9
  | .openDst .. => 2 * len + 8
  | .read ctx => 2 * (len - ctx.written.length) + 7
  | .write ctx _ => 2 * (len - ctx.written.length) + 6
  | .sync _ => 6
  | .checkAbort _ => 5
  | .finalStat .. => 4
  | .apply .. => 3
  | .rename .. | .failInner _ => 2
  | .failOuter _ => 1
  | .ok _ | .err => 0

/-! ## Each call -/

theorem changedSince_stat (st : Option Stat) (init : Stat) (hst : st.isSome = true) :
    changedSince init st = false ↔ st.map Stat.version = some init.version := by
  obtain ⟨live, rfl⟩ := Option.isSome_iff_exists.mp hst
  rw [changedSince_eq_false, Option.map_some, Option.some.injEq]

/-- What can be opened can be named. -/
theorem stat_of_openFile {h : Handle} (hopen : b.openFile p = some h) : (b.stat p).isSome = true := by
  rw [Backing.openFile, Backing.follow] at hopen
  rw [Backing.stat]
  cases hnode : b.node p with
  | none => rw [hnode] at hopen; cases hopen
  | some node => cases node <;> rfl

theorem Placed.of_lookup {dir dir' : CacheDir} (h : Placed dir p)
    (hsame : ∀ q, dir'.isDir q = dir.isDir q) : Placed dir' p :=
  ⟨(hsame _).trans h.parent, (hsame _).trans h.dest⟩

theorem placed_createDirAll (hfree : dir.Free p) :
    ∃ dir', dir.createDirAll p.dropLast = some dir' ∧ Placed dir' p ∧ dir'.isDir (partialPath p) = false := by
  obtain ⟨dir', hmade, hdirs⟩ := Files.createDirAll_isSome hfree.parent
  have hp : p ≠ [] := by
    intro hroot
    subst hroot
    cases hfree.dest
  have hkept : ∀ q, dir.isDir q = false → q.length = p.length → dir'.isDir q = false := by
    intro q hq hlen
    refine Bool.eq_false_iff.mpr fun hdir => ?_
    obtain hold | hpre := Files.isDir_createDirAll hmade hdir
    · rw [hq] at hold
      cases hold
    · exact not_prefix_dropLast hp hlen.ge hpre
  exact ⟨dir', hmade, ⟨hdirs _ List.prefix_rfl, hkept p hfree.dest rfl⟩,
    hkept _ hfree.temp (length_partialPath p)⟩

/-- A call leads on, and down, until the copy has returned. -/
theorem quiet_call (hopen : b.openFile p = some (.file i)) (n : Nat) (h : Quiet p b i s) :
    (s.pc = .err ∨ ∃ source, s.pc = .ok source) ∨
      ∃ s', quietStep p s n = some s' ∧ Quiet p b i s' ∧
        callsLeft (b.file i).bytes.length s'.pc < callsLeft (b.file i).bytes.length s.pc := by
  obtain ⟨b', dir, pc⟩ := s
  obtain ⟨hb, hquiet⟩ := h
  obtain rfl : b' = b := hb
  -- it is enough to give the call and what is known after it
  suffices hcall : (pc = .err ∨ ∃ source, pc = .ok source) ∨
      ∃ dir' pc', copyStep b' dir false p 1 ⟨n, false⟩ pc = some (dir', pc') ∧
        Quiet p b' i ⟨b', dir', pc'⟩ ∧
          callsLeft (b'.file i).bytes.length pc' < callsLeft (b'.file i).bytes.length pc by
    refine hcall.imp_right fun h => ?_
    obtain ⟨dir', pc', hstep, hquiet', hlt⟩ := h
    exact ⟨⟨b', dir', pc'⟩, by rw [quietStep, singleStep, hstep]; rfl, hquiet', hlt⟩
  cases pc with
  | mkdir =>
    obtain ⟨dir', hmade, hplaced⟩ := placed_createDirAll hquiet
    refine .inr ⟨dir', .openSrc, ?_, ⟨rfl, hplaced⟩, Nat.lt_succ_self _⟩
    rw [copyStep, if_neg Bool.false_ne_true, hmade]
  | openSrc =>
    refine .inr ⟨dir, .fstat (.file i), ?_, ⟨rfl, hquiet.1, hquiet.2, rfl⟩, Nat.lt_succ_self _⟩
    rw [copyStep, if_neg Bool.false_ne_true, hopen]
  | fstat src =>
    obtain ⟨hplaced, htemp, rfl⟩ := hquiet
    exact .inr ⟨dir, .openDst (.file i) (b'.file i).stat, rfl, ⟨rfl, hplaced, htemp, rfl, rfl⟩,
      Nat.lt_succ_self _⟩
  | openDst src init =>
    obtain ⟨hplaced, htemp, rfl, rfl⟩ := hquiet
    obtain ⟨dir', dst, hmade⟩ := Files.openTrunc_isSome
      (by rw [dropLast_partialPath]; exact hplaced.parent) htemp
    refine .inr ⟨dir', .read ⟨.file i, dst, (b'.file i).stat, []⟩, ?_,
      ⟨rfl, hplaced.of_lookup (Files.isDir_openTrunc hmade), rfl, rfl, List.nil_prefix, ?_, ?_⟩, ?_⟩
    · rw [copyStep, if_neg Bool.false_ne_true, hmade]
    · rw [Files.fileAt_openTrunc hmade, if_pos rfl]
    · rw [(Files.openTrunc_spec hmade).2.1, Function.update_self]
      rfl
    · exact Nat.lt_succ_self _
  | read ctx =>
    obtain ⟨m, hm⟩ : ∃ m, min (n + 1) bufLen = m + 1 := ⟨min (n + 1) bufLen - 1, by unfold bufLen; omega⟩
    obtain ⟨bs, hread⟩ : ∃ bs, b'.readAt (.file i) ctx.written.length (m + 1) = some bs := ⟨_, rfl⟩
    obtain ⟨hpart, hend⟩ := Backing.readAt_append rfl hquiet.part hread
    have hstep : copyStep b' dir false p 1 ⟨n, false⟩ (.read ctx) =
        some (dir, if bs = [] then .sync ctx else .write ctx bs) := by
      simp only [copyStep, hquiet.src, hm, hread, Bool.false_eq_true, if_false]
      cases bs with
      | nil => rfl
      | cons x chunk => rfl
    refine .inr ⟨dir, _, hstep, ?_⟩
    by_cases hbs : bs = []
    · rw [if_pos hbs]
      exact ⟨⟨rfl, hquiet, hend hbs⟩, by simp only [callsLeft]; omega⟩
    · rw [if_neg hbs]
      exact ⟨⟨rfl, hquiet, hpart, hbs⟩, Nat.lt_succ_self _⟩
  | write ctx chunk =>
    obtain ⟨hcopied, hpart, hne⟩ := hquiet
    refine .inr ⟨_, _, rfl, ⟨rfl, ⟨hcopied.toPlaced.of_lookup fun _ => rfl, hcopied.src, hcopied.init, hpart,
      hcopied.name, ?_⟩⟩, ?_⟩
    · exact data_written_end hcopied.bytes
    · have hle := hpart.length_le
      have hpos := List.length_pos_of_ne_nil hne
      rw [List.length_append] at hle
      simp only [callsLeft, List.length_append]
      omega
  | sync ctx => exact .inr ⟨dir, .checkAbort ctx, rfl, ⟨rfl, hquiet⟩, Nat.lt_succ_self _⟩
  | checkAbort ctx => exact .inr ⟨dir, .finalStat ctx false, rfl, ⟨rfl, hquiet⟩, Nat.lt_succ_self _⟩
  | finalStat ctx aborted =>
    cases aborted with
    | true => exact hquiet.elim
    | false =>
      obtain ⟨hcopied, hwhole⟩ := hquiet
      have hguard := changedSince_stat (b'.stat p) ctx.init (stat_of_openFile hopen)
      rw [hcopied.init] at hguard
      have hstep : copyStep b' dir false p 1 ⟨n, false⟩ (.finalStat ctx false) =
          if changedSince (b'.file i).stat (b'.stat p) then some (dir, .failInner ctx)
          else some (dir, .apply ctx (sourceSnapshot ctx.init (b'.stat p))) := by
        rw [← hcopied.init]
        rfl
      rw [hstep]
      by_cases hnames : NamesFile b' p (b'.file i)
      · rw [hguard.mpr hnames]
        exact .inr ⟨dir, _, rfl, ⟨rfl, hnames, hcopied, hwhole⟩, Nat.lt_succ_self _⟩
      · rw [Bool.eq_true_of_not_eq_false fun h => hnames (hguard.mp h)]
        exact .inr ⟨dir, _, rfl, ⟨rfl, hnames⟩, by simp only [callsLeft]; omega⟩
  | apply ctx source =>
    refine .inr ⟨dir, .rename ctx source, ?_, ⟨rfl, hquiet⟩, Nat.lt_succ_self _⟩
    rw [copyStep, if_neg]
    rw [hquiet.2.1.name]
    exact Bool.false_ne_true
  | rename ctx source =>
    obtain ⟨hnames, hcopied, hwhole⟩ := hquiet
    obtain ⟨dir', hrename⟩ := Files.rename_isSome hcopied.name hcopied.parent hcopied.dest
    have hcontents : Files.contents dir' p = some (written 1 (b'.file i).bytes) := by
      rw [Files.contents_rename hrename, Files.contents, hcopied.name, Option.map_some, hcopied.bytes, hwhole]
    refine .inr ⟨dir', .ok source, ?_, ⟨rfl, hnames, CacheDir.bytesAt_written hcontents⟩,
      by simp only [callsLeft]; omega⟩
    rw [copyStep, if_neg Bool.false_ne_true, hrename]
  | failInner ctx => exact .inr ⟨_, _, rfl, ⟨rfl, hquiet⟩, Nat.lt_succ_self _⟩
  | failOuter ctx => exact .inr ⟨_, _, rfl, ⟨rfl, hquiet⟩, Nat.lt_succ_self _⟩
  | ok source => exact .inl (.inr ⟨source, rfl⟩)
  | err => exact .inl (.inl rfl)

theorem quiet_step (hopen : b.openFile p = some (.file i)) (h : Quiet p b i s)
    (hs : quietStep p s n = some s') : Quiet p b i s' := by
  obtain hend | ⟨s₁, hstep, hquiet, -⟩ := quiet_call hopen n h
  · obtain ⟨b', dir, pc⟩ := s
    obtain rfl | ⟨source, rfl⟩ := hend
    · cases hs
    · cases hs
  · obtain rfl := Option.some.inj (hstep.symm.trans hs)
    exact hquiet

theorem names_of_commits (hopen : b.openFile p = some (.file i)) (hfree : dir.Free p)
    (h : Commits b dir p (b.file i)) : NamesFile b p (b.file i) := by
  have hstart : Quiet p b i (Single.start b dir) := ⟨rfl, hfree⟩
  obtain ⟨k, s, source, hrun, hok, -⟩ := h fun _ => 0
  have hquiet := run_invariant (Quiet p b i) (fun _ _ _ h hs => quiet_step hopen h hs) hrun hstart
  rw [Quiet, hok] at hquiet
  exact hquiet.2.1

/-- Nothing changes and nothing fails: the copy commits what it has opened exactly if the stat by
name gives the size and the time of it. -/
theorem commits_iff (hopen : b.openFile p = some (.file i)) (hfree : dir.Free p) :
    Commits b dir p (b.file i) ↔ NamesFile b p (b.file i) := by
  refine ⟨names_of_commits hopen hfree, fun hnames ns => ?_⟩
  have hstart : Quiet p b i (Single.start b dir) := ⟨rfl, hfree⟩
  obtain ⟨k, s, hrun, hquiet, hend⟩ := reaches_of_rank (fun s => s.pc = .err ∨ ∃ source, s.pc = .ok source)
    (Quiet p b i) (fun s => callsLeft (b.file i).bytes.length s.pc) (fun s n h => quiet_call hopen n h) ns hstart
  obtain herr | ⟨source, hok⟩ := hend
  · rw [Quiet, herr] at hquiet
    exact absurd hnames hquiet.2
  · rw [Quiet, hok] at hquiet
    exact ⟨k, s, source, hrun, hok, hquiet.2.2⟩

end Quiet

section Link

private def tune : RelPath := [⟨[115], Eq.refl true⟩]
private def shortcut : RelPath := [⟨[97], Eq.refl true⟩]

/-- A file of two bytes, and a link to it whose own size is one. -/
def linked : Backing :=
  (Backing.empty.replaceFile tune (.pair 80 81 1)).setNode shortcut
    (some (.symlink ⟨1, 0, 1, 0, 1, 0, 1, 0, 0o120777, 1, 0, 0, 0, 4096⟩ tune)) (by simp)

theorem free_empty (n : Name) : CacheDir.Free Files.empty [n] where
  parent := fun _ _ => Files.fileAt_empty _
  dest := rfl
  temp := rfl

/-- Under its own name the file is copied. -/
theorem tune_commits : Commits linked Files.empty tune (linked.file 0) :=
  (commits_iff rfl (free_empty _)).mpr (by decide)

/-- The link can be opened, and nothing changes, and it is never copied. -/
theorem link_refused : linked.openFile shortcut = some (.file 0) ∧ CacheDir.Free Files.empty shortcut ∧
    ¬ Commits linked Files.empty shortcut (linked.file 0) := by
  refine ⟨rfl, free_empty _, fun h => ?_⟩
  exact absurd (names_of_commits rfl (free_empty _) h) (by decide)

end Link

end FsCache
