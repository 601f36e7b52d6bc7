import FsCache.Discovery
import FsCache.Playback
import FsCache.Tags

/- Whose opens the preset hears of: what is read of the opener under /proc (preset.rs), and the
   filters (`ProcessFilterPolicy` there, `should_filter` of the presets).

   An open is filtered by the process it comes from: its name, the names of its ancestors, and, where
   it is the Plex Transcoder, its arguments. None of these is asked of the kernel as such. The name is
   the last component of a link, the parent is in a line of a text, the arguments are run together
   with a zero byte behind each, and the ancestors are found by sixteen such readings.

   What is proved:
     1. `procParentPid_of_shows`, `procName_of_shows`, `playback_iff`: the readings give back what the
        kernel has written.
     2. `mem_collectAncestors`: the loop collects the names of the ancestors up to the sixteenth, short
        of pid 1.
     3. `filtered_iff`: for all processes, an open is filtered exactly if the opener or one of those
        ancestors is on the blocklist, or there is an allowlist that the opener is not on, or the
        opener is a Plex Transcoder without `-f` and a streaming format behind it.

   `/proc` stands still while it is read. `Shows` is what the kernel writes there: `status` has a line
   for the parent, and no line of the kind before it.

   Correspondence (Rust ↔ Lean):
     `proc_name`, `proc_parent_pid`            ↔ `procName`, `procParentPid`
     `collect_ancestors`                       ↔ `collectAncestors`
     `ProcessInfo::capture`                    ↔ `ProcessInfo.capture` of `ProcFs.reading`
     `is_plex_playback_cmdline`                ↔ `isPlexPlaybackCmdline`
     `PlexEpisodePrediction::should_filter`    ↔ `PlexEpisodePrediction.shouldFilter`
     `str::lines`, `trim`, `parse::<u32>` (std) ↔ `textLines`, `trimText`, `parsePid`
     `Path::file_name` (std)                   ↔ `fileName` -/

namespace FsCache
open Lib
open List

/-! ## Reading /proc -/

/-- What is under `/proc/<pid>`. -/
structure ProcFs where
  exe : Nat → Option Str
  status : Nat → Option Str
  cmdline : Nat → Option (List UInt8)

/-- The last component of a path, unless that is `..`. -/
def fileName (path : Str) : Option Str :=
  match ((path.splitOn 47).filter fun c => !c.isEmpty && c != [46]).getLast? with
  | some [46, 46] => none
  | last => last

/-- `file_name` of the link, if it is UTF-8. -/
def procName (proc : ProcFs) (pid : Nat) : Option Str :=
  ((proc.exe pid).bind fileName).filter fun name => toStringLossy name = name

/-- Without the `\r` before a line's end. -/
def stripCr (line : Str) : Str := if line.getLast? = some 13 then line.dropLast else line

/-- What is behind the last `\n` is a line as it is, unless it is empty. -/
def textLines (text : Str) : List Str :=
  let pieces := text.splitOn 10
  pieces.dropLast.map stripCr ++ (pieces.getLast?.filter fun piece => !piece.isEmpty).toList

/-- The characters of Unicode's White_Space, in UTF-8. -/
def whiteSpace : List Str :=
  [[9], [10], [11], [12], [13], [32], [194, 133], [194, 160], [225, 154, 128], [226, 128, 128], [226, 128, 129],
    [226, 128, 130], [226, 128, 131], [226, 128, 132], [226, 128, 133], [226, 128, 134], [226, 128, 135],
    [226, 128, 136], [226, 128, 137], [226, 128, 138], [226, 128, 168], [226, 128, 169], [226, 128, 175],
    [226, 129, 159], [227, 128, 128]]

/-- The first argument is fuel, the length of the text. -/
def trimStart : Nat → Str → Str
  | 0, s => s
  | fuel + 1, s =>
    match whiteSpace.find? fun w => w.isPrefixOf s with
    | some w => trimStart fuel (s.drop w.length)
    | none => s

def trimEnd : Nat → Str → Str
  | 0, s => s
  | fuel + 1, s =>
    match whiteSpace.find? fun w => w.isSuffixOf s with
    | some w => trimEnd fuel (s.take (s.length - w.length))
    | none => s

def trimText (s : Str) : Str := trimEnd s.length (trimStart s.length s)

/-- `parse::<u32>`; one plus sign may stand in front. -/
def parsePid (s : Str) : Option Nat := parseU32 ((if s.head? = some 43 then s.tail else s).map UInt8.toNat)

/-- `PPid:\t` -/
def ppidPrefix : Str := [80, 80, 105, 100, 58, 9]

/-- `read_to_string` fails where the text is not UTF-8. The first line of the kind decides. -/
def procParentPid (proc : ProcFs) (pid : Nat) : Option Nat :=
  match (proc.status pid).filter fun text => toStringLossy text = text with
  | none => none
  | some status =>
    match (textLines status).find? fun line => ppidPrefix.isPrefixOf line with
    | none => none
    | some line => parsePid (trimText (line.drop ppidPrefix.length))

/-- The rounds of the loop that are left, and the process it is at. -/
def collectFrom (proc : ProcFs) : Nat → Nat → List Str
  | 0, _ => []
  | rounds + 1, current =>
    if current ≤ 1 then []
    else
      match procParentPid proc current with
      | some ppid =>
        if ppid ≠ current ∧ 1 < ppid then (procName proc ppid).toList ++ collectFrom proc rounds ppid else []
      | none => []

def collectAncestors (proc : ProcFs) (pid : Nat) : List Str := collectFrom proc 16 pid

def ProcFs.reading (proc : ProcFs) (pid : Nat) : ProcReading :=
  ⟨procName proc pid, proc.cmdline pid, collectAncestors proc pid⟩

/-! ## The filters of the presets -/

/-- `-f` -/
def formatFlag : Str := [45, 102]

/-- `dash`, `ssegment`, `mpegts` -/
def streamingFormats : List Str :=
  [[100, 97, 115, 104], [115, 115, 101, 103, 109, 101, 110, 116], [109, 112, 101, 103, 116, 115]]

/-- `Plex Transcoder` -/
def plexTranscoder : Str := [80, 108, 101, 120, 32, 84, 114, 97, 110, 115, 99, 111, 100, 101, 114]

/-- The loop, with the token before. -/
def isPlaybackFrom : Str → List Str → Bool
  | _, [] => false
  | prev, tok :: rest => prev == formatFlag && streamingFormats.contains tok || isPlaybackFrom tok rest

def isPlexPlaybackCmdline (cmdline : List UInt8) : Bool := isPlaybackFrom [] (cmdline.splitOn 0)

namespace PlexEpisodePrediction

def shouldFilter (processPolicy : ProcessFilterPolicy) (process : ProcessInfo) : Bool :=
  if processPolicy.shouldFilter process then true
  else if process.name = some plexTranscoder then
    match process.cmdline with
    | some cmdline => !isPlexPlaybackCmdline cmdline
    | none => true
  else false

end PlexEpisodePrediction

/-! ## The processes -/

/-- A name that a directory can have an entry of, in UTF-8. -/
structure IsFileName (name : Str) : Prop where
  noSlash : 47 ∉ name
  nonempty : name ≠ []
  noDot : name ≠ [46]
  noDotDot : name ≠ [46, 46]
  utf8 : toStringLossy name = name

structure Process where
  /-- of its executable, if there is one to be read -/
  name : Option Str
  parent : Nat
  argv : List Str
  named : ∀ n ∈ name, IsFileName n
  parent_lt : parent < 2^32
  terminated : ∀ arg ∈ argv, 0 ∉ arg

abbrev Processes := Nat → Option Process

namespace Processes

variable (ps : Processes)

def nameOf (pid : Nat) : Option Str := (ps pid).bind Process.name

/-- The parent, as far as the ancestors are followed: no process is its own, and pid 1 is not one. -/
def up (pid : Nat) : Option Nat :=
  if pid ≤ 1 then none
  else (ps pid).bind fun q => if q.parent ≠ pid ∧ 1 < q.parent then some q.parent else none

/-- So many generations up. -/
def above : Nat → Nat → Option Nat
  | 0, pid => some pid
  | k + 1, pid => (ps.up pid).bind (above k)

/-- The process itself or one of sixteen generations is on the list. -/
def Blocked (names : List Str) (pid : Nat) : Prop :=
  ∃ k ≤ 16, ∃ q ∈ ps.above k pid, ∃ name ∈ ps.nameOf q, name ∈ names

/-- The opener is on the list. -/
def Named (names : List Str) (pid : Nat) : Prop := ∃ name ∈ ps.nameOf pid, name ∈ names

end Processes

/-- It streams: some format of those is behind `-f`. -/
def Process.Playback (q : Process) : Prop := ∃ format ∈ streamingFormats, [formatFlag, format] <:+: q.argv

/-- Each with a byte behind it. -/
def terminated (sep : UInt8) (pieces : List Str) : List UInt8 := pieces.flatMap fun piece => piece ++ [sep]

/-- The digits of a number as text. -/
def decimalText (n : Nat) : Str := if n = 0 then [48] else (decimal n).map UInt8.ofNat

/-- `/proc/<pid>/status`, with the line of the parent between the others. -/
def statusText (before : List Str) (parent : Nat) (after : List Str) : Str :=
  terminated 10 (before ++ (ppidPrefix ++ decimalText parent) :: after)

/-- What the kernel writes for these processes. -/
structure Shows (proc : ProcFs) (ps : Processes) : Prop where
  gone : ∀ pid, ps pid = none → proc.exe pid = none ∧ proc.status pid = none ∧ proc.cmdline pid = none
  exe : ∀ pid q name, ps pid = some q → q.name = some name → ∃ dir, proc.exe pid = some (dir ++ 47 :: name)
  noExe : ∀ pid q, ps pid = some q → q.name = none → proc.exe pid = none
  status : ∀ pid q, ps pid = some q → ∃ before after,
    proc.status pid = some (statusText before q.parent after) ∧
      (∀ line ∈ before, ¬ ppidPrefix <+: line) ∧ (∀ line ∈ before ++ after, 10 ∉ line) ∧
      toStringLossy (statusText before q.parent after) = statusText before q.parent after
  cmdline : ∀ pid q, ps pid = some q → proc.cmdline pid = some (terminated 0 q.argv)

/-- The least the kernel writes: the line of the parent alone. -/
def Processes.written (ps : Processes) : ProcFs where
  exe pid := (ps.nameOf pid).map (47 :: ·)
  status pid := (ps pid).map fun q => statusText [] q.parent []
  cmdline pid := (ps pid).map fun q => terminated 0 q.argv

/-! ## What was written is read -/

section Readings

theorem splitOn_terminated {sep : UInt8} {pieces : List Str} (h : ∀ piece ∈ pieces, sep ∉ piece) :
    (terminated sep pieces).splitOn sep = pieces ++ [[]] := by
  induction pieces with
  | nil => rfl
  | cons piece pieces ih =>
    have hrest := ih fun p hp => h p (List.mem_cons_of_mem piece hp)
    have hcons : terminated sep (piece :: pieces) = piece ++ sep :: terminated sep pieces := by
      rw [terminated, List.flatMap_cons, List.append_assoc]
      rfl
    rw [hcons, List.splitOn_append_cons_self, List.splitOn_eq_singleton (h piece List.mem_cons_self), hrest]
    rfl

theorem textLines_terminated {lines : List Str} (h : ∀ line ∈ lines, 10 ∉ line) :
    textLines (terminated 10 lines) = lines.map stripCr := by
  rw [textLines, splitOn_terminated h]
  simp

/-- The end of a path is its name. -/
theorem fileName_append {dir name : Str} (h : IsFileName name) : fileName (dir ++ 47 :: name) = some name := by
  have hlast : ((dir ++ 47 :: name).splitOn 47).filter (fun c => !c.isEmpty && c != [46]) =
      (dir.splitOn 47).filter (fun c => !c.isEmpty && c != [46]) ++ [name] := by
    rw [List.splitOn_append_cons_self, List.splitOn_eq_singleton h.noSlash, List.filter_append]
    refine congrArg _ (List.filter_eq_self.mpr fun c hc => ?_)
    rw [List.mem_singleton.mp hc]
    simp [h.nonempty, h.noDot]
  rw [fileName, hlast, List.getLast?_append, List.getLast?_singleton, Option.some_or]
  split
  · next hdots => exact absurd (Option.some.inj hdots) h.noDotDot
  · rfl

/-- `0` to `9` -/
def IsDigit (b : UInt8) : Prop := 48 ≤ b.toNat ∧ b.toNat ≤ 57

instance (b : UInt8) : Decidable (IsDigit b) := inferInstanceAs (Decidable (_ ∧ _))

theorem map_toNat_decimalText (n : Nat) :
    (decimalText n).map UInt8.toNat = if n = 0 then [48] else decimal n := by
  rw [decimalText]
  split
  · rfl
  · rw [List.map_map]
    refine (List.map_congr_left fun c hc => ?_).trans (List.map_id _)
    have hdigit := digits_twoDigits (n := n) (List.mem_append_right _ hc)
    exact UInt8.toNat_ofNat_of_lt' (show c < 256 by omega)

theorem isDigit_decimalText {n : Nat} {b : UInt8} (hb : b ∈ decimalText n) : IsDigit b := by
  have hmem : b.toNat ∈ (decimalText n).map UInt8.toNat := List.mem_map_of_mem hb
  rw [map_toNat_decimalText] at hmem
  split at hmem
  · rw [List.mem_singleton] at hmem
    rw [IsDigit, hmem]
    decide
  · exact digits_twoDigits (List.mem_append_right _ hmem)

theorem decimalText_ne_nil (n : Nat) : decimalText n ≠ [] := by
  rw [decimalText]
  split
  · exact List.cons_ne_nil _ _
  · next hn =>
    rw [Ne, List.map_eq_nil_iff, decimal, List.map_eq_nil_iff, List.reverse_eq_nil_iff,
      Nat.digits_eq_nil_iff_eq_zero]
    exact hn

theorem whiteSpace_spec : ∀ w ∈ whiteSpace, w ≠ [] ∧ ∀ b ∈ w, ¬ IsDigit b := by decide +kernel

/-- White space around digits is none of them. -/
theorem trimText_digits {s : Str} (h : ∀ b ∈ s, IsDigit b) : trimText s = s := by
  have nothing : ∀ w ∈ whiteSpace, ¬ w <:+: s := by
    intro w hw hin
    obtain ⟨hne, hno⟩ := whiteSpace_spec w hw
    obtain ⟨b, hb⟩ := List.exists_mem_of_ne_nil w hne
    exact hno b hb (h b (hin.subset hb))
  have hstart : ∀ fuel, trimStart fuel s = s := by
    intro fuel
    cases fuel with
    | zero => rfl
    | succ fuel =>
      have hfind : (whiteSpace.find? fun w => w.isPrefixOf s) = none :=
        List.find?_eq_none.mpr fun w hw hp => nothing w hw (List.isPrefixOf_iff_prefix.mp hp).isInfix
      rw [trimStart, hfind]
  have hend : ∀ fuel, trimEnd fuel s = s := by
    intro fuel
    cases fuel with
    | zero => rfl
    | succ fuel =>
      have hfind : (whiteSpace.find? fun w => w.isSuffixOf s) = none :=
        List.find?_eq_none.mpr fun w hw hp => nothing w hw (List.isSuffixOf_iff_suffix.mp hp).isInfix
      rw [trimEnd, hfind]
  rw [trimText, hstart, hend]

theorem parsePid_decimalText {n : Nat} (h : n < 2^32) : parsePid (decimalText n) = some n := by
  have hplus : (decimalText n).head? ≠ some 43 := by
    intro hhead
    exact absurd (isDigit_decimalText (List.mem_of_head? hhead)) (by decide)
  rw [parsePid, if_neg hplus, map_toNat_decimalText]
  split
  · next hn =>
    subst hn
    rfl
  · next hn =>
    -- digits are not refused, and there is one
    have hall : ((decimal n).all fun c => 48 ≤ c && c ≤ 57) = true := by
      rw [List.all_eq_true]
      intro c hc
      simpa using digits_twoDigits (n := n) (List.mem_append_right _ hc)
    have hne : (decimal n).isEmpty = false := by
      rw [List.isEmpty_eq_false_iff, decimal, Ne, List.map_eq_nil_iff, List.reverse_eq_nil_iff,
        Nat.digits_eq_nil_iff_eq_zero]
      exact hn
    rw [parseU32, hne, hall, value_decimal, if_neg (by decide), if_pos h]

theorem prefix_stripCr (line : Str) : stripCr line <+: line := by
  rw [stripCr]
  split
  · exact List.dropLast_prefix line
  · exact List.prefix_refl line

theorem stripCr_digits {front digits : Str} (hne : digits ≠ []) (h : ∀ b ∈ digits, IsDigit b) :
    stripCr (front ++ digits) = front ++ digits := by
  rw [stripCr, if_neg]
  rw [List.getLast?_append, List.getLast?_eq_getLast_of_ne_nil hne, Option.some_or, Option.some.injEq]
  intro hcr
  exact absurd (h _ (List.getLast_mem hne)) (by rw [hcr]; decide)

/-- The parent is found behind the lines that are in front of it. -/
theorem find_parent {before after : List Str} {parent : Nat}
    (hbefore : ∀ line ∈ before, ¬ ppidPrefix <+: line) (hlines : ∀ line ∈ before ++ after, 10 ∉ line) :
    (textLines (statusText before parent after)).find? (fun line => ppidPrefix.isPrefixOf line) =
      some (ppidPrefix ++ decimalText parent) := by
  have hall : ∀ line ∈ before ++ (ppidPrefix ++ decimalText parent) :: after, 10 ∉ line := by
    intro line hl
    rw [List.mem_append, List.mem_cons] at hl
    rcases hl with hl | rfl | hl
    · exact hlines line (List.mem_append_left _ hl)
    · intro hten
      rcases List.mem_append.mp hten with hten | hten
      · exact absurd hten (by decide)
      · exact absurd (isDigit_decimalText hten) (by decide)
    · exact hlines line (List.mem_append_right _ hl)
  -- a line that loses its `\r` keeps its beginning
  have hnone : (before.map stripCr).find? (fun line => ppidPrefix.isPrefixOf line) = none := by
    rw [List.find?_eq_none]
    intro line hl hp
    obtain ⟨line₀, hl₀, rfl⟩ := List.mem_map.mp hl
    exact hbefore line₀ hl₀ ((List.isPrefixOf_iff_prefix.mp hp).trans (prefix_stripCr line₀))
  rw [statusText, textLines_terminated hall, List.map_append, List.find?_append, hnone, Option.none_or,
    List.map_cons, stripCr_digits (decimalText_ne_nil parent) fun b hb => isDigit_decimalText hb, List.find?_cons_of_pos]
  exact List.isPrefixOf_iff_prefix.mpr (List.prefix_append _ _)

theorem toStringLossy_ascii {s : Str} (h : ∀ b ∈ s, b < 128) : toStringLossy s = s := by
  rw [toStringLossy]
  induction s with
  | nil => rfl
  | cons b s ih =>
    rw [List.length_cons, lossyFrom, if_pos (h b List.mem_cons_self), ih fun c hc => h c (List.mem_cons_of_mem b hc)]

theorem shows_written (ps : Processes) : Shows ps.written ps where
  gone := by
    intro pid hq
    simp [Processes.written, Processes.nameOf, hq]
  exe := by
    intro pid q name hq hname
    exact ⟨[], by simp [Processes.written, Processes.nameOf, hq, hname]⟩
  noExe := by
    intro pid q hq hname
    simp [Processes.written, Processes.nameOf, hq, hname]
  status := by
    intro pid q hq
    refine ⟨[], [], by simp [Processes.written, hq], fun _ hl => absurd hl List.not_mem_nil,
      fun _ hl => absurd hl List.not_mem_nil, toStringLossy_ascii ?_⟩
    intro b hb
    simp only [statusText, terminated, List.nil_append, List.flatMap_singleton, List.mem_append,
      List.mem_singleton] at hb
    rcases hb with (hb | hb) | rfl
    · exact (show ∀ b ∈ ppidPrefix, b < 128 by decide +kernel) b hb
    · exact UInt8.lt_iff_toNat_lt.mpr (Nat.lt_of_le_of_lt (isDigit_decimalText hb).2 (by decide))
    · decide
  cmdline := by
    intro pid q hq
    simp [Processes.written, hq]

end Readings

section Shown

variable {proc : ProcFs} {ps : Processes} {pid : Nat}

theorem procName_of_shows (h : Shows proc ps) (pid : Nat) : procName proc pid = ps.nameOf pid := by
  rw [procName, Processes.nameOf]
  cases hq : ps pid with
  | none =>
    rw [(h.gone pid hq).1]
    rfl
  | some q =>
    cases hname : q.name with
    | none =>
      rw [h.noExe pid q hq hname, Option.bind_some, hname]
      rfl
    | some name =>
      have hok := q.named name hname
      obtain ⟨dir, hdir⟩ := h.exe pid q name hq hname
      rw [hdir, Option.bind_some, fileName_append hok, Option.bind_some, hname]
      exact Option.filter_some_pos (by simpa using hok.utf8)

theorem procParentPid_of_shows (h : Shows proc ps) (pid : Nat) :
    procParentPid proc pid = (ps pid).map Process.parent := by
  rw [procParentPid]
  cases hq : ps pid with
  | none =>
    rw [(h.gone pid hq).2.1]
    rfl
  | some q =>
    obtain ⟨before, after, hstatus, hbefore, hlines, hutf8⟩ := h.status pid q hq
    have hfilter : (proc.status pid).filter (fun text => toStringLossy text = text) =
        some (statusText before q.parent after) := by
      rw [hstatus]
      exact Option.filter_some_pos (by simpa using hutf8)
    rw [hfilter]
    dsimp only
    rw [find_parent hbefore hlines]
    dsimp only
    rw [List.drop_left, trimText_digits fun b hb => isDigit_decimalText hb, parsePid_decimalText q.parent_lt,
      Option.map_some]

/-- One round of the loop goes one generation up. -/
theorem collectFrom_succ (h : Shows proc ps) (rounds pid : Nat) :
    collectFrom proc (rounds + 1) pid =
      (ps.up pid).elim [] fun ppid => (ps.nameOf ppid).toList ++ collectFrom proc rounds ppid := by
  rw [collectFrom, Processes.up, procParentPid_of_shows h]
  by_cases hroot : pid ≤ 1
  · rw [if_pos hroot, if_pos hroot]
    rfl
  · rw [if_neg hroot, if_neg hroot]
    cases ps pid with
    | none => rfl
    | some q =>
      rw [Option.map_some, Option.bind_some]
      dsimp only
      split
      · rw [procName_of_shows h]
        rfl
      · rfl

theorem mem_collectFrom (h : Shows proc ps) {rounds : Nat} {name : Str} :
    name ∈ collectFrom proc rounds pid ↔
      ∃ k, 1 ≤ k ∧ k ≤ rounds ∧ ∃ q ∈ ps.above k pid, name ∈ ps.nameOf q := by
  induction rounds generalizing pid with
  | zero =>
    constructor
    · intro hmem
      exact absurd hmem List.not_mem_nil
    · intro ⟨k, hk, hle, _⟩
      omega
  | succ rounds ih =>
    rw [collectFrom_succ h]
    cases hup : ps.up pid with
    | none =>
      constructor
      · intro hmem
        exact absurd hmem List.not_mem_nil
      · intro ⟨k, hk, _, q, hq, _⟩
        obtain ⟨k, rfl⟩ := Nat.exists_eq_add_of_le' hk
        rw [Processes.above, hup] at hq
        exact absurd hq (by simp)
    | some ppid =>
      rw [Option.elim_some, List.mem_append, Option.mem_toList, ih]
      constructor
      · intro hmem
        rcases hmem with hmem | ⟨k, hk, hle, q, hq, hname⟩
        · -- the parent, or one above it
          exact ⟨1, Nat.le_refl 1, by omega, ppid, by rw [Processes.above, hup]; rfl, hmem⟩
        · exact ⟨k + 1, by omega, by omega, q, by rw [Processes.above, hup]; exact hq, hname⟩
      · intro ⟨k, hk, hle, q, hq, hname⟩
        obtain ⟨k, rfl⟩ := Nat.exists_eq_add_of_le' hk
        rw [Processes.above, hup] at hq
        cases k with
        | zero =>
          obtain rfl := Option.some.inj hq
          exact .inl hname
        | succ k => exact .inr ⟨k + 1, by omega, by omega, q, hq, hname⟩

/-- The loop collects the names of the ancestors up to the sixteenth. -/
theorem mem_collectAncestors (h : Shows proc ps) {name : Str} :
    name ∈ collectAncestors proc pid ↔ ∃ k, 1 ≤ k ∧ k ≤ 16 ∧ ∃ q ∈ ps.above k pid, name ∈ ps.nameOf q :=
  mem_collectFrom h

end Shown

/-! ## Whose opens are filtered -/

section Filters

variable {proc : ProcFs} {ps : Processes} {pid : Nat}

/-- The loop has the token before at hand. -/
theorem isPlaybackFrom_iff {prev : Str} {toks : List Str} :
    isPlaybackFrom prev toks = true ↔ ∃ format ∈ streamingFormats, [formatFlag, format] <:+: prev :: toks := by
  induction toks generalizing prev with
  | nil =>
    constructor
    · intro h
      exact absurd h Bool.false_ne_true
    · intro ⟨format, _, hin⟩
      exact absurd hin.length_le (show ¬ 2 ≤ 1 by omega)
  | cons tok rest ih =>
    rw [isPlaybackFrom, Bool.or_eq_true, Bool.and_eq_true, beq_iff_eq, List.contains_iff_mem, ih]
    constructor
    · intro h
      rcases h with ⟨hflag, hformat⟩ | ⟨format, hformat, hin⟩
      · exact ⟨tok, hformat, by rw [hflag]; exact (List.prefix_append [formatFlag, tok] rest).isInfix⟩
      · exact ⟨format, hformat, List.infix_cons hin⟩
    · intro ⟨format, hformat, hin⟩
      -- the pair is at the head, or further on
      rcases List.infix_cons_iff.mp hin with hfront | hin
      · obtain ⟨hflag, hfront⟩ := List.cons_prefix_cons.mp hfront
        obtain ⟨htok, _⟩ := List.cons_prefix_cons.mp hfront
        exact .inl ⟨hflag.symm, htok ▸ hformat⟩
      · exact .inr ⟨format, hformat, hin⟩

/-- The empty token in front and the one at the end are neither flag nor format. -/
theorem infix_tokens {argv : List Str} {format : Str} (h : format ∈ streamingFormats) :
    [formatFlag, format] <:+: [] :: (argv ++ [[]]) ↔ [formatFlag, format] <:+: argv := by
  have hformat : format ≠ [] := fun he => absurd (he ▸ h) (by decide)
  constructor
  · intro hin
    rcases List.infix_cons_iff.mp hin with hfront | hin
    · exact absurd (List.cons_prefix_cons.mp hfront).1 (by decide)
    rcases List.infix_concat_iff.mp hin with hsuffix | hin
    · rcases List.suffix_concat_iff.mp hsuffix with hnil | ⟨front, hfront, _⟩
      · exact absurd hnil (List.cons_ne_nil _ _)
      · have hlast := congrArg List.getLast? hfront
        rw [List.getLast?_concat] at hlast
        exact absurd (Option.some.inj hlast) hformat
    · exact hin
  · intro hin
    exact List.infix_cons (hin.trans (List.prefix_append argv [[]]).isInfix)

/-- The bytes of the arguments say whether it streams. -/
theorem playback_iff {q : Process} : isPlexPlaybackCmdline (terminated 0 q.argv) = true ↔ q.Playback := by
  rw [isPlexPlaybackCmdline, splitOn_terminated q.terminated, isPlaybackFrom_iff]
  exact exists_congr fun format => and_congr_right fun h => infix_tokens h

theorem matchesOpener_iff (h : Shows proc ps) {names : List Str} :
    (ProcessInfo.capture pid (proc.reading pid)).matchesOpener names = true ↔ ps.Named names pid := by
  rw [Processes.Named, ← procName_of_shows h pid]
  simp [ProcessInfo.matchesOpener, ProcessInfo.capture, ProcFs.reading, Option.any_eq_true]

/-- The opener is its zeroth ancestor. -/
theorem matchesAny_iff (h : Shows proc ps) {names : List Str} :
    (ProcessInfo.capture pid (proc.reading pid)).matchesAny names = true ↔ ps.Blocked names pid := by
  have hancestors : ((collectAncestors proc pid).any fun a => names.any fun n => a == n) = true ↔
      ∃ name ∈ collectAncestors proc pid, name ∈ names := by
    simp
  rw [ProcessInfo.matchesAny, Bool.or_eq_true, matchesOpener_iff h]
  refine (or_congr Iff.rfl hancestors).trans ?_
  constructor
  · intro hany
    rcases hany with ⟨name, hname, hlist⟩ | ⟨name, hname, hlist⟩
    · exact ⟨0, Nat.zero_le 16, pid, rfl, name, hname, hlist⟩
    · obtain ⟨k, _, hle, q, hq, hnameOf⟩ := (mem_collectAncestors h).mp hname
      exact ⟨k, hle, q, hq, name, hnameOf, hlist⟩
  · intro ⟨k, hle, q, hq, name, hname, hlist⟩
    cases k with
    | zero =>
      obtain rfl := Option.some.inj hq
      exact .inl ⟨name, hname, hlist⟩
    | succ k =>
      exact .inr ⟨name, (mem_collectAncestors h).mpr ⟨k + 1, by omega, hle, q, hq, hname⟩, hlist⟩

/-- The policy of every preset. -/
theorem policy_iff (h : Shows proc ps) {policy : ProcessFilterPolicy} :
    policy.shouldFilter (ProcessInfo.capture pid (proc.reading pid)) = true ↔
      ps.Blocked policy.blocklist pid ∨ policy.allowlist ≠ [] ∧ ¬ ps.Named policy.allowlist pid := by
  have hempty : policy.blocklist = [] → ¬ ps.Blocked policy.blocklist pid := by
    intro hnil ⟨_, _, _, _, _, _, hmem⟩
    rw [hnil] at hmem
    exact absurd hmem List.not_mem_nil
  have hblock : (!policy.blocklist.isEmpty &&
      (ProcessInfo.capture pid (proc.reading pid)).matchesAny policy.blocklist) = true ↔
      ps.Blocked policy.blocklist pid := by
    rw [Bool.and_eq_true, matchesAny_iff h, Bool.not_eq_true', List.isEmpty_eq_false_iff]
    exact ⟨fun hb => hb.2, fun hb => ⟨fun hnil => hempty hnil hb, hb⟩⟩
  have hallow : (!policy.allowlist.isEmpty &&
      !(ProcessInfo.capture pid (proc.reading pid)).matchesOpener policy.allowlist) = true ↔
      policy.allowlist ≠ [] ∧ ¬ ps.Named policy.allowlist pid := by
    rw [Bool.and_eq_true, Bool.not_eq_true', List.isEmpty_eq_false_iff, Bool.not_eq_true', ← Bool.not_eq_true,
      matchesOpener_iff h]
  rw [ProcessFilterPolicy.shouldFilter]
  split
  · next hb => exact iff_of_true rfl (.inl (hblock.mp hb))
  · next hb => rw [hallow, or_iff_right (mt hblock.mpr hb)]

/-- For all processes, an open is filtered exactly if the opener or one of sixteen ancestors is on the
    blocklist, or there is an allowlist that the opener is not on, or the opener is a Plex Transcoder
    that does not stream. -/
theorem filtered_iff (h : Shows proc ps) (policy : ProcessFilterPolicy) (pid : Nat) :
    PlexEpisodePrediction.shouldFilter policy (ProcessInfo.capture pid (proc.reading pid)) = true ↔
      ps.Blocked policy.blocklist pid ∨ (policy.allowlist ≠ [] ∧ ¬ ps.Named policy.allowlist pid) ∨
        ps.nameOf pid = some plexTranscoder ∧ ¬ ∃ q ∈ ps pid, q.Playback := by
  have hname : (ProcessInfo.capture pid (proc.reading pid)).name = ps.nameOf pid := procName_of_shows h pid
  have hplays : ps.nameOf pid = some plexTranscoder →
      ((match (ProcessInfo.capture pid (proc.reading pid)).cmdline with
        | some cmdline => !isPlexPlaybackCmdline cmdline
        | none => true) = true ↔ ¬ ∃ q ∈ ps pid, q.Playback) := by
    intro hplex
    -- a name is there only if the process is, and then so are its arguments
    obtain ⟨q, hq, _⟩ := Option.bind_eq_some_iff.mp hplex
    have hcmdline : (ProcessInfo.capture pid (proc.reading pid)).cmdline = some (terminated 0 q.argv) :=
      h.cmdline pid q hq
    rw [hcmdline]
    dsimp only
    rw [Bool.not_eq_true', ← Bool.not_eq_true, playback_iff, hq]
    simp
  rw [PlexEpisodePrediction.shouldFilter, ← or_assoc]
  split
  · next hp => exact iff_of_true rfl (.inl ((policy_iff h).mp hp))
  · next hp =>
    rw [or_iff_right (mt (policy_iff h).mpr hp), hname]
    split
    · next hplex => exact (hplays hplex).trans (and_iff_right hplex).symm
    · next hplex => exact iff_of_false Bool.false_ne_true fun hand => hplex hand.1

/-- `scan` -/
def scan : Str := [115, 99, 97, 110]

def transcoder (parent : Fin 100) (format : Str) (h : 0 ∉ format) : Process where
  name := some plexTranscoder
  parent := parent
  argv := [formatFlag, format]
  named n hn := (Option.mem_some.mp hn) ▸ ⟨by decide, by decide, by decide, by decide, by decide⟩
  parent_lt := by omega
  terminated arg harg := by
    rcases List.mem_cons.mp harg with rfl | harg
    · decide
    · exact List.mem_singleton.mp harg ▸ h

def scanner : Process where
  name := some scan
  parent := 20
  argv := []
  named n hn := (Option.mem_some.mp hn) ▸ ⟨by decide, by decide, by decide, by decide, by decide⟩
  parent_lt := by decide
  terminated arg harg := absurd harg List.not_mem_nil

/-- 40 analyses for 30, which scans for 20, which streams. -/
def scanning : Processes := fun pid =>
  if pid = 40 then some (transcoder 30 [110, 117, 108, 108] (by decide))
  else if pid = 30 then some scanner
  else if pid = 20 then some (transcoder 1 [100, 97, 115, 104] (by decide))
  else none

/-- The scanner is an ancestor of the one and a child of the other. -/
theorem scanning_filtered :
    PlexEpisodePrediction.shouldFilter ⟨[], [scan]⟩ (ProcessInfo.capture 40 (scanning.written.reading 40)) = true ∧
      PlexEpisodePrediction.shouldFilter ⟨[], [scan]⟩ (ProcessInfo.capture 20 (scanning.written.reading 20)) ≠ true := by
  constructor
  · exact (filtered_iff (shows_written scanning) ⟨[], [scan]⟩ 40).mpr
      (.inl ⟨1, by decide, 30, by decide, scan, by decide, List.mem_singleton.mpr rfl⟩)
  · intro hfiltered
    rcases (filtered_iff (shows_written scanning) ⟨[], [scan]⟩ 20).mp hfiltered with hblocked | hallow | hplex
    · obtain ⟨k, _, q, hq, name, hname, hlist⟩ := hblocked
      cases k with
      | zero =>
        obtain rfl := Option.some.inj hq
        obtain rfl := Option.some.inj hname
        exact absurd hlist (by decide)
      | succ k =>
        have htop : scanning.up 20 = none := by decide
        rw [Processes.above, htop] at hq
        exact absurd hq (by simp)
    · exact hallow.1 rfl
    · exact hplex.2 ⟨transcoder 1 [100, 97, 115, 104] (by decide), rfl, [100, 97, 115, 104], by decide,
        List.infix_rfl⟩

end Filters

end FsCache
