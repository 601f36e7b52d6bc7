import FsCache.Seasons

/- Which of the next episodes are found (prediction_utils.rs).

   `lookahead` is said to be a number of episodes. The lookup counts entries: an episode with subtitles and
   metadata beside it takes several places of the window, and what is left of it may not reach the next one.

   `covers_iff`: each of the next episodes is found exactly if fewer than `lookahead` entries come before its
   first file. They are counted in the listings (`entriesBefore`). `subtitle_hides`: one with a subtitle. -/

namespace FsCache
open Lib

/-! ## The next episodes -/

section Next

variable (u : CharClasses) (t : BackingTree)

/-- What comes after the episode: in its directory and, if that is a `Season N`, in those of later seasons. -/
def available (dir : RelPath) (season episode : Nat) : List Candidate :=
  laterIn u t dir season episode ++
    if (parseSeasonDir u (dirName dir)).isSome then
      (nextSeasons u t dir.dropLast season).flatMap fun d => laterIn u t d.2 season episode
    else []

/-- The first `lookahead` of the episodes that have a file there. -/
def nextTags (dir : RelPath) (season episode lookahead : Nat) : List (Nat ×ₗ Nat) :=
  ((((available u t dir season episode).filter fun c => !t.isDir c.path).map Candidate.key).dedup.insertionSort
    (· ≤ ·)).take lookahead

/-- Each of these episodes has a file among `eps`. -/
def FindsEach (tags : List (Nat ×ₗ Nat)) (eps : List RelPath) : Prop :=
  ∀ tag ∈ tags, ∃ p ∈ eps, tagOf u p = some tag ∧ t.isDir p = false

instance (tags : List (Nat ×ₗ Nat)) (eps : List RelPath) : Decidable (FindsEach u t tags eps) :=
  inferInstanceAs (Decidable (∀ tag ∈ tags, ∃ p ∈ eps, tagOf u p = some tag ∧ t.isDir p = false))

/-- How many entries come before the first file of an episode: all of the groups before the one it is in, and there
those of earlier episodes, and directories that are named like this one. -/
def entriesBefore (tag : Nat ×ₗ Nat) : List (List Candidate) → Option Nat
  | [] => none
  | g :: gs =>
    let same := g.filter fun c => c.key = tag
    if same.any fun c => !t.isDir c.path then
      some ((g.filter fun c => c.key < tag).length + same.findIdx fun c => !t.isDir c.path)
    else (entriesBefore tag gs).map (g.length + ·)

end Next

/-! ## How far the window goes -/

section Reach

variable {t : BackingTree} {tag : Nat ×ₗ Nat} {room : Nat} {g : List Candidate} {gs : List (List Candidate)}
  {c : Candidate}

/-- The place of an episode's entry in its group. -/
theorem place_of_key (hc : c.key = tag) :
    place (fun c c' : Candidate => c.key ≤ c'.key) g c =
      (g.filter fun c' => c'.key < tag).length + (g.filter fun c' => c'.key = tag).idxOf c := by
  have hless : (fun c' : Candidate => !decide (tag ≤ c'.key)) = fun c' => decide (c'.key < tag) := by
    funext c'
    rw [← decide_not, decide_eq_decide, not_le]
  have hsame : (fun c' : Candidate => decide (c'.key ≤ tag) && decide (tag ≤ c'.key)) =
      fun c' => decide (c'.key = tag) := by
    funext c'
    rw [← Bool.decide_and, decide_eq_decide, ← le_antisymm_iff]
  rw [place, hc, hless, hsame]

theorem mem_earliest (hc : c.key = tag) :
    c ∈ earliest room g ↔
      c ∈ g ∧ (g.filter fun c' => c'.key < tag).length + (g.filter fun c' => c'.key = tag).idxOf c < room := by
  rw [earliest, List.mem_filter, place_of_key hc, decide_eq_true_eq]

/-- If a group has a file of an episode, the one that comes first decides whether any is in the window. -/
theorem exists_earliest_iff (hg : g.Nodup) (hfile : ∃ c ∈ g.filter fun c => c.key = tag, (!t.isDir c.path) = true) :
    (∃ c ∈ earliest room g, c.key = tag ∧ t.isDir c.path = false) ↔
      (g.filter fun c => c.key < tag).length +
        (g.filter fun c => c.key = tag).findIdx (fun c => !t.isDir c.path) < room := by
  have hlt := List.findIdx_lt_length_of_exists hfile
  constructor
  · intro ⟨c, hc, hkey, hc'⟩
    obtain ⟨hmem, hplace⟩ := (mem_earliest hkey).mp hc
    have hsame : c ∈ g.filter fun c => c.key = tag := List.mem_filter.mpr ⟨hmem, decide_eq_true hkey⟩
    have hidx := List.idxOf_lt_length_of_mem hsame
    have hfirst : (g.filter fun c => c.key = tag).findIdx (fun c => !t.isDir c.path) ≤
        (g.filter fun c => c.key = tag).idxOf c := by
      by_contra hbefore
      have hdir := List.not_of_lt_findIdx (not_le.mp hbefore)
      rw [List.getElem_idxOf, hc'] at hdir
      cases hdir
    omega
  · intro hroom
    have hsame := List.mem_filter.mp (List.getElem_mem hlt)
    have hfirst := List.findIdx_getElem (w := hlt)
    have hkey := of_decide_eq_true hsame.2
    refine ⟨_, (mem_earliest hkey).mpr ⟨hsame.1, ?_⟩, hkey, by simpa using hfirst⟩
    rw [(hg.filter _).idxOf_getElem]
    exact hroom

/-- Whether a file of an episode is in the window is a matter of what comes before the first one. -/
theorem exists_windowed_iff (hgs : ∀ g ∈ gs, g.Nodup) :
    (∃ g ∈ windowed room gs, ∃ c ∈ g, c.key = tag ∧ t.isDir c.path = false) ↔
      ∃ n ∈ entriesBefore t tag gs, n < room := by
  induction gs generalizing room with
  | nil =>
    rw [windowed, entriesBefore]
    simp
  | cons g gs ih =>
    rw [windowed, List.exists_mem_cons_iff, ih fun g' hg' => hgs g' (List.mem_cons_of_mem g hg'), entriesBefore]
    split
    · next hfile =>
      rw [List.any_eq_true] at hfile
      -- where later groups have a place, this one has it before them
      have hmore : (∃ n ∈ entriesBefore t tag gs, n < room - g.length) →
          ∃ c ∈ earliest room g, c.key = tag ∧ t.isDir c.path = false := by
        intro hlater
        obtain ⟨n, -, hn⟩ := hlater
        obtain ⟨c, hc, hcfile⟩ := hfile
        obtain ⟨hmem, hkey⟩ := List.mem_filter.mp hc
        have hspare : g.length ≤ room := by omega
        exact ⟨c, earliest_of_length_le (hgs g List.mem_cons_self) hspare hmem, of_decide_eq_true hkey,
          by simpa using hcfile⟩
      rw [or_iff_left_of_imp hmore, exists_earliest_iff (hgs g List.mem_cons_self) hfile]
      simp only [Option.mem_def, Option.some.injEq, exists_eq_left']
    · next hnone =>
      have hno : ¬∃ c ∈ earliest room g, c.key = tag ∧ t.isDir c.path = false := by
        intro hfile
        obtain ⟨c, hc, hkey, hcfile⟩ := hfile
        apply hnone
        rw [List.any_eq_true]
        exact ⟨c, List.mem_filter.mpr ⟨earliest_sublist.subset hc, decide_eq_true hkey⟩, by simpa using hcfile⟩
      rw [or_iff_right hno]
      cases entriesBefore t tag gs with
      | none => simp
      | some n =>
        simp only [Option.map_some, Option.mem_def, Option.some.injEq, exists_eq_left']
        omega

end Reach

section Covers

variable {relPath : RelPath} {name : Name} {season episode : Nat}

/-- Each of the next episodes is found exactly if fewer than `lookahead` entries come before its first file. -/
theorem covers_iff (u : CharClasses) (t : BackingTree) (lookahead : Nat) (hname : relPath.getLast? = some name)
    (htag : parseSeasonEpisode u name.text = some (season, episode)) :
    FindsEach u t (nextTags u t relPath.dropLast season episode lookahead)
        (findNextEpisodes u t relPath lookahead) ↔
      ∀ tag ∈ nextTags u t relPath.dropLast season episode lookahead,
        ∃ n ∈ entriesBefore t tag (groups u t relPath.dropLast season episode), n < lookahead := by
  refine forall₂_congr fun tag _ => ?_
  rw [← exists_windowed_iff fun g hg => nodup_of_mem_groups hg, findNextEpisodes_eq hname htag,
    take_flatMap_byKey fun g hg => nodup_of_mem_groups hg]
  constructor
  · intro ⟨p, hp, htagged, hfile⟩
    obtain ⟨c, hc, rfl⟩ := List.mem_map.mp hp
    obtain ⟨g, hg, hcg⟩ := List.mem_flatMap.mp hc
    have hmem := mem_byKey.mp hcg
    rw [(of_mem_windowed hg).2 c hmem] at htagged
    exact ⟨g, hg, c, hmem, Option.some.inj htagged, hfile⟩
  · intro ⟨g, hg, c, hc, hkey, hfile⟩
    refine ⟨c.path, List.mem_map.mpr ⟨c, List.mem_flatMap.mpr ⟨g, hg, mem_byKey.mpr hc⟩, rfl⟩, ?_, hfile⟩
    rw [(of_mem_windowed hg).2 c hc, hkey]

end Covers

section Subtitles

private def subEp1 : Name := ⟨[115, 49, 101, 49], Eq.refl true⟩
private def subEp2 : Name := ⟨[115, 49, 101, 50], Eq.refl true⟩
private def subSrt : Name := ⟨[115, 49, 101, 50, 46, 115, 114, 116], Eq.refl true⟩
private def subEp3 : Name := ⟨[115, 49, 101, 51], Eq.refl true⟩

private def subtitled : BackingTree where
  listDir dir := if dir = [] then [subEp1, subEp2, subSrt, subEp3] else []
  isDir _ := false
  nodup dir := by
    split
    · decide
    · exact List.nodup_nil

theorem subtitled_three : FindsEach .ascii subtitled (nextTags .ascii subtitled [] 1 1 3)
    (findNextEpisodes .ascii subtitled [subEp1] 3) :=
  (@covers_iff [subEp1] subEp1 1 1 .ascii subtitled 3 rfl (by decide)).mpr
    (by decide : ∀ tag ∈ nextTags .ascii subtitled [] 1 1 3,
      ∃ n ∈ entriesBefore subtitled tag (groups .ascii subtitled [] 1 1), n < 3)

/-- A window of two is full with the next episode and its subtitles. -/
theorem subtitle_hides : ¬FindsEach .ascii subtitled (nextTags .ascii subtitled [] 1 1 2)
    (findNextEpisodes .ascii subtitled [subEp1] 2) := by
  decide

example : nextTags .ascii subtitled [] 1 1 2 = [toLex (1, 2), toLex (1, 3)] := by decide

end Subtitles

end FsCache
