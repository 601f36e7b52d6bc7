import Mathlib.Algebra.Group.Nat.Defs
import Mathlib.Data.Prod.Lex
import FsCache.Lib.Regex
import FsCache.Lib.Sort
import FsCache.Path

/- Which episodes come next (prediction_utils.rs).

   A file name is an episode if its text has a tag like `S02E11`. Names are taken as text with
   `to_string_lossy`; a text is the list of its code points. The regex crate's `\d` and `\s` are Unicode
   classes: they are parameters. `parse::<u32>()` takes ASCII digits only.

   `findNextEpisodes` takes the rest of the season first, and then, if the window is not full, the seasons
   after it: from the `Season N` directories beside that of the file, or, if the file is not in such a
   directory, from its own. The tree does not change in between. `findNextEpisodes_eq` is what comes out:
   the start of the groups, each sorted.

   `flat_exact`: of a directory that is no `Season N`, it is the start of all later entries, sorted.

   Correspondence (Rust ↔ Lean):
     `season_ep_re`, `season_dir_re`            ↔ `seasonEpRe`, `seasonDirRe`
     `parse_season_episode`, `parse_season_dir` ↔ `parseSeasonEpisode`, `parseSeasonDir`
     `list_dir`                                 ↔ `BackingTree.listDir`
     the `filter_map`s over entries             ↔ `candidatesIn`
     `sort_by_key(|(s, e, _)| (*s, *e))`        ↔ `byKey`
     the loop `'outer`                          ↔ `pushEpisodes`, `pushSeasons`
     `find_next_episodes`                       ↔ `findNextEpisodes` -/

namespace FsCache
open Lib

/-! ## Names -/

/-- The code points of UTF-8 text; `cur` is the one whose bytes are being read. -/
def codePointsFrom (cur : Option Nat) : List UInt8 → List Nat
  | [] => cur.toList
  | b :: bs =>
    if b < 128 then cur.toList ++ codePointsFrom (some b.toNat) bs
    else if b < 192 then codePointsFrom (cur.map fun c => c * 64 + (b.toNat - 128)) bs
    else if b < 224 then cur.toList ++ codePointsFrom (some (b.toNat - 192)) bs
    else if b < 240 then cur.toList ++ codePointsFrom (some (b.toNat - 224)) bs
    else cur.toList ++ codePointsFrom (some (b.toNat - 240)) bs

def Name.text (n : Name) : List Nat := codePointsFrom none (toStringLossy n.bytes)

/-- `\d` and `\s`. -/
structure CharClasses where
  digit : Nat → Bool
  space : Nat → Bool

/-- The classes, of ASCII text. -/
def CharClasses.ascii : CharClasses := ⟨fun c => 48 ≤ c && c ≤ 57, fun c => c == 32 || (9 ≤ c && c ≤ 13)⟩

/-- A letter under `(?i)`: U+017F is an `s`, too. -/
def letter (lower : Char) (c : Nat) : Bool :=
  c == lower.toNat || c + 32 == lower.toNat || (lower == 's' && c == 0x17F)

/-- `(?i)[Ss](\d{1,2})[Ee](\d{1,3})` -/
def seasonEpRe (u : CharClasses) : List (Regex.Item Nat) :=
  [.one (letter 's'), .group u.digit 1 (some 2), .one (letter 'e'), .group u.digit 1 (some 3)]

/-- `(?i)^Season\s+0*(\d+)$`, without the anchor at the start. -/
def seasonDirRe (u : CharClasses) : List (Regex.Item Nat) :=
  [.one (letter 's'), .one (letter 'e'), .one (letter 'a'), .one (letter 's'), .one (letter 'o'),
    .one (letter 'n'), .many u.space 1 none, .many (· == 48) 0 none, .group u.digit 1 none, .finish]

/-- `str::parse::<u32>` of a captured run of digits. -/
def parseU32 (cs : List Nat) : Option Nat :=
  if cs.isEmpty || !cs.all fun c => 48 ≤ c && c ≤ 57 then none
  else
    let n := cs.foldl (fun n c => n * 10 + (c - 48)) 0
    if n < 2^32 then some n else none

def parseSeasonEpisode (u : CharClasses) (name : List Nat) : Option (Nat × Nat) :=
  match Regex.search (seasonEpRe u) name with
  | some [season, episode] =>
    (parseU32 season).bind fun s => (parseU32 episode).map fun e => (s, e)
  | _ => none

def parseSeasonDir (u : CharClasses) (name : List Nat) : Option Nat :=
  match (Regex.captures (seasonDirRe u) name).head? with
  | some [season] => parseU32 season
  | _ => none

/-! ## The lookup -/

/-- The backing during one call. -/
structure BackingTree where
  listDir : RelPath → List Name
  isDir : RelPath → Bool
  /-- no name is twice in a directory -/
  nodup : ∀ dir, (listDir dir).Nodup

/-- A `(u32, u32, PathBuf)` of the lookup. -/
structure Candidate where
  season : Nat
  episode : Nat
  path : RelPath
  deriving DecidableEq

/-- Season, then episode. -/
def Candidate.key (c : Candidate) : Nat ×ₗ Nat := toLex (c.season, c.episode)

section Lookup

variable (u : CharClasses) (t : BackingTree)

/-- The entries of a directory with a tag, as far as `keep` keeps them. -/
def candidatesIn (dir : RelPath) (keep : Nat → Nat → Bool) : List Candidate :=
  (t.listDir dir).filterMap fun n =>
    (parseSeasonEpisode u n.text).bind fun tag =>
      if keep tag.1 tag.2 then some ⟨tag.1, tag.2, dir ++ [n]⟩ else none

instance : Std.Total fun c c' : Candidate => c.key ≤ c'.key := ⟨fun _ _ => le_total _ _⟩

instance : IsTrans Candidate fun c c' => c.key ≤ c'.key := ⟨fun _ _ _ => le_trans⟩

/-- A stable sort. -/
def byKey (cs : List Candidate) : List Candidate := cs.insertionSort fun c c' => c.key ≤ c'.key

/-- Phase 1. -/
def restOfSeason (dir : RelPath) (season episode : Nat) : List Candidate :=
  candidatesIn u t dir fun s e => s == season && decide (episode < e)

/-- The `Season N` directories after this season, by number. -/
def nextSeasons (showDir : RelPath) (season : Nat) : List (Nat × RelPath) :=
  ((t.listDir showDir).filterMap fun n =>
    (parseSeasonDir u n.text).bind fun s =>
      if season < s then some (s, showDir ++ [n]) else none).insertionSort fun d d' => d.1 ≤ d'.1

def episodesOf (dir : RelPath) : List Candidate := candidatesIn u t dir fun _ _ => true

def higherSeasons (dir : RelPath) (season : Nat) : List Candidate :=
  candidatesIn u t dir fun s _ => decide (season < s)

/-- The inner loop; `true`: it has left the outer one as well. -/
def pushEpisodes (lookahead : Nat) (candidates : List Candidate) : List Candidate → List Candidate × Bool
  | [] => (candidates, false)
  | ep :: eps =>
    if lookahead ≤ candidates.length then (candidates, true)
    else pushEpisodes lookahead (candidates ++ [ep]) eps

def pushSeasons (lookahead : Nat) (candidates : List Candidate) : List (Nat × RelPath) → List Candidate
  | [] => candidates
  | (_, seasonDir) :: seasons =>
    match pushEpisodes lookahead candidates (byKey (episodesOf u t seasonDir)) with
    | (candidates, true) => candidates
    | (candidates, false) => pushSeasons lookahead candidates seasons

/-- `dir.file_name()` as text; a path without one has the empty text. -/
def dirName (dir : RelPath) : List Nat := (dir.getLast?.map Name.text).getD []

def findNextEpisodes (relPath : RelPath) (lookahead : Nat) : List RelPath :=
  match relPath.getLast? with
  | none => []
  | some name =>
    match parseSeasonEpisode u name.text with
    | none => []
    | some (season, episode) =>
      let dir := relPath.dropLast
      let candidates := (byKey (restOfSeason u t dir season episode)).take lookahead
      let candidates :=
        if candidates.length < lookahead then
          let needed := lookahead - candidates.length
          if (parseSeasonDir u (dirName dir)).isSome then
            pushSeasons u t lookahead candidates (nextSeasons u t dir.dropLast season)
          else candidates ++ (byKey (higherSeasons u t dir season)).take needed
        else candidates
      (candidates.take lookahead).map Candidate.path

end Lookup

/-! ## What the tags are -/

section Tags

variable {u : CharClasses} {name cs : List Nat} {n : Nat}

theorem value_lt (cs : List Nat) (hall : ∀ c ∈ cs, 48 ≤ c ∧ c ≤ 57) (n : Nat) :
    cs.foldl (fun n c => n * 10 + (c - 48)) n < (n + 1) * 10 ^ cs.length := by
  induction cs generalizing n with
  | nil => simp
  | cons c cs ih =>
    have hc := hall c List.mem_cons_self
    have hrest := ih (fun c' hc' => hall c' (List.mem_cons_of_mem c hc')) (n * 10 + (c - 48))
    rw [List.foldl_cons, List.length_cons, Nat.pow_succ]
    calc cs.foldl (fun n c => n * 10 + (c - 48)) (n * 10 + (c - 48))
        < (n * 10 + (c - 48) + 1) * 10 ^ cs.length := hrest
      _ ≤ (n * 10 + 10) * 10 ^ cs.length := by
        apply Nat.mul_le_mul_right
        omega
      _ = (n + 1) * (10 ^ cs.length * 10) := by
        rw [show n * 10 + 10 = (n + 1) * 10 by omega, Nat.mul_assoc, Nat.mul_comm 10]

/-- A number has no more digits than its text. -/
theorem parseU32_lt (h : parseU32 cs = some n) : n < 10 ^ cs.length := by
  unfold parseU32 at h
  split at h
  · cases h
  · next hdigits =>
    rw [Bool.or_eq_true, not_or, Bool.not_eq_true', Bool.not_eq_false, List.all_eq_true] at hdigits
    dsimp only at h
    split at h
    · obtain rfl := Option.some.inj h
      have hlt := value_lt cs (fun c hc => by simpa using hdigits.2 c hc) 0
      simpa using hlt
    · cases h

theorem matches_tag_iff {l : List Nat} {c : List (List Nat)} :
    Regex.Matches (seasonEpRe u) l c ↔ ∃ s ss e es suf, l = (s :: ss ++ e :: es) ++ suf ∧ letter 's' s = true ∧
      letter 'e' e = true ∧ Regex.Run u.digit 1 (some 2) ss ∧ Regex.Run u.digit 1 (some 3) es ∧ c = [ss, es] := by
  constructor
  · intro hmatch
    cases hmatch with
    | @one _ _ s _ _ hletter hmatch =>
      cases hmatch with
      | @group _ _ _ _ ss _ _ hss hmatch =>
        cases hmatch with
        | @one _ _ e _ _ hletter' hmatch =>
          cases hmatch with
          | @group _ _ _ _ es suf _ hes hmatch =>
            cases hmatch
            refine ⟨s, ss, e, es, suf, ?_, hletter, hletter', hss, hes, rfl⟩
            simp
  · intro ⟨s, ss, e, es, suf, hl, hletter, hletter', hss, hes, hc⟩
    have hshape : l = s :: (ss ++ e :: (es ++ suf)) := by
      rw [hl]
      simp
    rw [hshape, hc]
    exact .one hletter (.group hss (.one hletter' (.group hes (.nil suf))))

/-- What is an episode has a tag in its name: a season of one or two digits, and an episode of up to
three. -/
theorem tag_of_parse {season episode : Nat} (h : parseSeasonEpisode u name = some (season, episode)) :
    ∃ pre s ss e es suf, name = pre ++ s :: ss ++ e :: es ++ suf ∧ letter 's' s = true ∧ letter 'e' e = true ∧
      Regex.Run u.digit 1 (some 2) ss ∧ Regex.Run u.digit 1 (some 3) es ∧
      parseU32 ss = some season ∧ parseU32 es = some episode := by
  unfold parseSeasonEpisode at h
  split at h
  · next ss es hsearch =>
    obtain ⟨s', hs, h⟩ := Option.bind_eq_some_iff.mp h
    obtain ⟨e', he, h⟩ := Option.map_eq_some_iff.mp h
    obtain ⟨rfl, rfl⟩ := Prod.mk.inj h
    obtain ⟨pre, tag, rfl, hmatch⟩ := Regex.matches_of_search hsearch
    obtain ⟨s, ss', e, es', suf, rfl, hletter, hletter', hss, hes, hc⟩ := matches_tag_iff.mp hmatch
    obtain ⟨rfl, hrest⟩ := List.cons_eq_cons.mp hc
    obtain rfl := List.singleton_inj.mp hrest
    refine ⟨pre, s, ss, e, es, suf, ?_, hletter, hletter', hss, hes, hs, he⟩
    simp
  · cases h

/-- So neither number comes near the bound of a `u32`. -/
theorem tag_lt {season episode : Nat} (h : parseSeasonEpisode u name = some (season, episode)) :
    season < 100 ∧ episode < 1000 := by
  obtain ⟨-, -, ss, -, es, -, -, -, -, hss, hes, hs, he⟩ := tag_of_parse h
  have hs' := parseU32_lt hs
  have he' := parseU32_lt he
  constructor
  · calc season < 10 ^ ss.length := hs'
      _ ≤ 10 ^ 2 := Nat.pow_le_pow_right (by omega) (hss.2.2 2 rfl)
  · calc episode < 10 ^ es.length := he'
      _ ≤ 10 ^ 3 := Nat.pow_le_pow_right (by omega) (hes.2.2 3 rfl)

end Tags

/-! ## What comes out -/

/-- The candidates in the order of the lookup, by the phase or the directory they come from. -/
def groups (u : CharClasses) (t : BackingTree) (dir : RelPath) (season episode : Nat) : List (List Candidate) :=
  restOfSeason u t dir season episode ::
    if (parseSeasonDir u (dirName dir)).isSome then
      (nextSeasons u t dir.dropLast season).map fun d => episodesOf u t d.2
    else [higherSeasons u t dir season]

section Lookup

variable {u : CharClasses} {t : BackingTree} {lookahead : Nat} {candidates eps : List Candidate}
  {dir relPath : RelPath} {name : Name} {season episode : Nat}

/-- The inner loop fills the window, and leaves when an episode is left over. -/
theorem pushEpisodes_eq (h : candidates.length ≤ lookahead) :
    pushEpisodes lookahead candidates eps =
      ((candidates ++ eps).take lookahead, decide (lookahead < candidates.length + eps.length)) := by
  induction eps generalizing candidates with
  | nil =>
    rw [pushEpisodes, List.append_nil, List.take_of_length_le h, List.length_nil]
    congr
    symm
    apply decide_eq_false
    omega
  | cons ep eps ih =>
    rw [pushEpisodes]
    split
    · next hfull =>
      have hlen : candidates.length = lookahead := by omega
      rw [List.take_append_of_le_length (by omega), ← hlen, List.take_length, List.length_cons]
      congr
      symm
      apply decide_eq_true
      omega
    · next hroom =>
      rw [ih (by rw [List.length_append, List.length_singleton]; omega), List.append_assoc, List.singleton_append,
        List.length_append, List.length_singleton, List.length_cons]
      congr 3
      omega

/-- The outer loop goes on until the window is full. -/
theorem pushSeasons_eq (seasons : List (Nat × RelPath)) (h : candidates.length ≤ lookahead) :
    pushSeasons u t lookahead candidates seasons =
      (candidates ++ seasons.flatMap fun d => byKey (episodesOf u t d.2)).take lookahead := by
  induction seasons generalizing candidates with
  | nil => rw [pushSeasons, List.flatMap_nil, List.append_nil, List.take_of_length_le h]
  | cons d seasons ih =>
    obtain ⟨n, seasonDir⟩ := d
    rw [pushSeasons, pushEpisodes_eq h, List.flatMap_cons, ← List.append_assoc]
    by_cases hover : lookahead < candidates.length + (byKey (episodesOf u t seasonDir)).length
    · have hlen : lookahead ≤ (candidates ++ byKey (episodesOf u t seasonDir)).length := by
        rw [List.length_append]
        omega
      rw [decide_eq_true hover, List.take_append_of_le_length hlen]
    · rw [decide_eq_false hover]
      have hroom : candidates ++ byKey (episodesOf u t seasonDir) =
          (candidates ++ byKey (episodesOf u t seasonDir)).take lookahead := by
        symm
        apply List.take_of_length_le
        rw [List.length_append]
        omega
      show pushSeasons u t lookahead ((candidates ++ byKey (episodesOf u t seasonDir)).take lookahead) seasons = _
      rw [← hroom]
      apply ih
      rw [List.length_append]
      omega

/-- The lookup is the start of the groups, each sorted. -/
theorem findNextEpisodes_eq (hname : relPath.getLast? = some name)
    (htag : parseSeasonEpisode u name.text = some (season, episode)) :
    findNextEpisodes u t relPath lookahead =
      (((groups u t relPath.dropLast season episode).flatMap byKey).take lookahead).map Candidate.path := by
  simp only [findNextEpisodes, hname, htag, groups, List.flatMap_cons]
  generalize byKey (restOfSeason u t relPath.dropLast season episode) = first
  have hlen : (first.take lookahead).length ≤ lookahead := List.length_take_le lookahead first
  congr 1
  split
  · next hroom =>
    have hall : first.take lookahead = first := by
      apply List.take_of_length_le
      rw [List.length_take] at hroom
      omega
    split
    · rw [pushSeasons_eq _ hlen, hall, List.take_take, Nat.min_self, List.flatMap_map]
    · rw [hall, List.flatMap_singleton, List.take_append, List.take_append, List.take_take, Nat.min_self]
  · next hfull =>
    rw [List.take_take, Nat.min_self, List.take_append_of_le_length]
    rw [List.length_take] at hfull
    omega

theorem mem_candidatesIn {keep : Nat → Nat → Bool} {c : Candidate} :
    c ∈ candidatesIn u t dir keep ↔ ∃ n ∈ t.listDir dir, parseSeasonEpisode u n.text = some (c.season, c.episode) ∧
      keep c.season c.episode = true ∧ c.path = dir ++ [n] := by
  rw [candidatesIn, List.mem_filterMap]
  refine exists_congr fun n => and_congr_right fun _ => ?_
  constructor
  · intro h
    obtain ⟨tag, htag, h⟩ := Option.bind_eq_some_iff.mp h
    split at h
    · next hkeep =>
      obtain rfl := Option.some.inj h
      exact ⟨htag, hkeep, rfl⟩
    · cases h
  · intro ⟨htag, hkeep, hpath⟩
    rw [htag, Option.bind_some, if_pos hkeep, ← hpath]

/-- Choosing among the candidates is choosing among the tags. -/
theorem filter_candidatesIn (keep q : Nat → Nat → Bool) :
    (candidatesIn u t dir keep).filter (fun c => q c.season c.episode) =
      candidatesIn u t dir fun s e => keep s e && q s e := by
  rw [candidatesIn, candidatesIn, List.filter_filterMap]
  congr 1
  funext n
  cases parseSeasonEpisode u n.text with
  | none => rfl
  | some tag =>
    rw [Option.bind_some, Option.bind_some]
    cases hkeep : keep tag.1 tag.2 with
    | false => rfl
    | true =>
      rw [if_pos rfl, Bool.true_and, Option.filter_some]

/-- The entries after an episode. -/
def laterIn (u : CharClasses) (t : BackingTree) (dir : RelPath) (season episode : Nat) : List Candidate :=
  candidatesIn u t dir fun s e => decide (toLex (season, episode) < toLex (s, e))

theorem laterIn_filter_season (u : CharClasses) (t : BackingTree) (dir : RelPath) (season episode : Nat) :
    (laterIn u t dir season episode).filter (fun c => c.season == season) =
      restOfSeason u t dir season episode := by
  rw [laterIn, filter_candidatesIn _ fun s _ => s == season, restOfSeason]
  congr 1
  funext s e
  rw [Bool.eq_iff_iff]
  simp only [Bool.and_eq_true, decide_eq_true_eq, beq_iff_eq, Prod.Lex.toLex_lt_toLex]
  omega

theorem laterIn_filter_higher (u : CharClasses) (t : BackingTree) (dir : RelPath) (season episode : Nat) :
    (laterIn u t dir season episode).filter (fun c => !(c.season == season)) =
      higherSeasons u t dir season := by
  rw [laterIn, filter_candidatesIn _ fun s _ => !(s == season), higherSeasons]
  congr 1
  funext s e
  rw [Bool.eq_iff_iff]
  simp only [Bool.and_eq_true, decide_eq_true_eq, Bool.not_eq_true', beq_eq_false_iff_ne, Prod.Lex.toLex_lt_toLex]
  omega

theorem season_le_of_key_le {c c' : Candidate} (h : c.key ≤ c'.key) : c.season ≤ c'.season := by
  rw [Candidate.key, Candidate.key, Prod.Lex.toLex_le_toLex] at h
  omega

/-- The two phases together are one sort. -/
theorem byKey_laterIn (u : CharClasses) (t : BackingTree) (dir : RelPath) (season episode : Nat) :
    byKey (laterIn u t dir season episode) =
      byKey (restOfSeason u t dir season episode) ++ byKey (higherSeasons u t dir season) := by
  have hsplit : byKey (laterIn u t dir season episode) =
      byKey ((laterIn u t dir season episode).filter fun c => c.season == season) ++
        byKey ((laterIn u t dir season episode).filter fun c => !(c.season == season)) := by
    apply insertionSort_split
    intro c _ c' hc' hsame hother hle
    have hseason := season_le_of_key_le hle
    obtain ⟨n, -, -, hlater, -⟩ := mem_candidatesIn.mp hc'
    rw [decide_eq_true_eq, Prod.Lex.toLex_lt_toLex] at hlater
    rw [beq_iff_eq] at hsame
    rw [beq_eq_false_iff_ne] at hother
    omega
  rw [hsplit, laterIn_filter_season, laterIn_filter_higher]

/-- Of a file that is not in a `Season N` directory, the next episodes are the start of all entries of its
directory after it, sorted by season and episode. -/
theorem flat_exact (u : CharClasses) (t : BackingTree) (lookahead : Nat) (hname : relPath.getLast? = some name)
    (htag : parseSeasonEpisode u name.text = some (season, episode))
    (hflat : parseSeasonDir u (dirName relPath.dropLast) = none) :
    findNextEpisodes u t relPath lookahead =
      ((byKey (laterIn u t relPath.dropLast season episode)).take lookahead).map Candidate.path := by
  rw [findNextEpisodes_eq hname htag, byKey_laterIn, groups, hflat]
  simp only [Option.isSome_none, Bool.false_eq_true, if_false, List.flatMap_cons, List.flatMap_nil, List.append_nil]

end Lookup

section Shelf

private def s1e1 : Name := ⟨[115, 49, 101, 49], Eq.refl true⟩
private def s1e3 : Name := ⟨[115, 49, 101, 51], Eq.refl true⟩
private def s2e1 : Name := ⟨[115, 50, 101, 49], Eq.refl true⟩
private def cover : Name := ⟨[99], Eq.refl true⟩

private def shelf : BackingTree where
  listDir dir := if dir = [] then [s2e1, s1e1, cover, s1e3] else []
  isDir _ := false
  nodup dir := by
    split
    · decide
    · exact List.nodup_nil

theorem shelf_flat : findNextEpisodes .ascii shelf [s1e1] 2 =
    ((byKey (laterIn .ascii shelf [] 1 1)).take 2).map Candidate.path :=
  flat_exact .ascii shelf 2 rfl (by decide) (by decide)

example : findNextEpisodes .ascii shelf [s1e1] 2 = [[s1e3], [s2e1]] := by decide

end Shelf

end FsCache
