import FsCache.Prediction

/- A show with a directory for each season (prediction_utils.rs).

   The lookup goes through the directories by the number in their name. What lies in them counts if it has a
   tag: whether it is a file is not asked, nor whether the tag is of that season. So what it finds need not be
   files, nor come after the episode, nor be in order, and where the directory of the episode is itself one of
   a later season it finds entries twice.

   1. `take_flatMap_byKey`: the start of the groups, as a choice from each.
   2. `seasons_follow_iff`: what is found is the next episodes exactly if the tree is consistent as far as
      the window goes. `folder_found`: a directory that is named like an episode. -/

namespace FsCache
open Lib

/-! ## The window -/

/-- Of one group: what has fewer than `room` before it. -/
def earliest (room : Nat) (g : List Candidate) : List Candidate :=
  g.filter fun c => place (fun c c' : Candidate => c.key ≤ c'.key) g c < room

/-- What is in a window of `room`, group by group. -/
def windowed : Nat → List (List Candidate) → List (List Candidate)
  | _, [] => []
  | room, g :: gs => earliest room g :: windowed (room - g.length) gs

section Window

variable {room : Nat} {g w : List Candidate} {gs : List (List Candidate)} {c : Candidate}

theorem mem_byKey : c ∈ byKey g ↔ c ∈ g := List.mem_insertionSort _

theorem pairwise_byKey (g : List Candidate) : (byKey g).Pairwise fun c c' => c.key ≤ c'.key :=
  List.pairwise_insertionSort _ g

theorem byKey_earliest (room : Nat) (hg : g.Nodup) : byKey (earliest room g) = (byKey g).take room :=
  (take_insertionSort hg room).symm

theorem earliest_sublist : (earliest room g).Sublist g := List.filter_sublist

theorem room_pos_of_mem (h : c ∈ earliest room g) : 0 < room := by
  have hplace := of_decide_eq_true (List.mem_filter.mp h).2
  omega

/-- A window with room to spare has the whole group. -/
theorem earliest_of_length_le (hg : g.Nodup) (h : g.length ≤ room) (hc : c ∈ g) : c ∈ earliest room g := by
  rw [← mem_byKey, byKey_earliest room hg, List.take_of_length_le]
  · exact mem_byKey.mpr hc
  · rw [byKey, List.length_insertionSort]
    exact h

theorem mem_windowed (h : w ∈ windowed room gs) : ∃ g ∈ gs, ∃ r ≤ room, w = earliest r g := by
  induction gs generalizing room with
  | nil => cases h
  | cons g gs ih =>
    cases h with
    | head => exact ⟨g, List.mem_cons_self, room, le_refl room, rfl⟩
    | tail _ h =>
      obtain ⟨g', hg', r, hr, hw⟩ := ih h
      exact ⟨g', List.mem_cons_of_mem g hg', r, by omega, hw⟩

/-- What holds between groups, and of less of them, holds in the window. -/
theorem pairwise_windowed {R : List Candidate → List Candidate → Prop}
    (hR : ∀ g g' r r', R g g' → R (earliest r g) (earliest r' g')) (h : gs.Pairwise R) :
    (windowed room gs).Pairwise R := by
  induction gs generalizing room with
  | nil => exact List.Pairwise.nil
  | cons g gs ih =>
    rw [List.pairwise_cons] at h
    rw [windowed, List.pairwise_cons]
    constructor
    · intro w hw
      obtain ⟨g', hg', r, -, rfl⟩ := mem_windowed hw
      exact hR g g' room r (h.1 g' hg')
    · exact ih h.2

/-- The start of the groups is a choice from each. -/
theorem take_flatMap_byKey (hgs : ∀ g ∈ gs, g.Nodup) :
    (gs.flatMap byKey).take room = (windowed room gs).flatMap byKey := by
  induction gs generalizing room with
  | nil => rw [List.flatMap_nil, List.take_nil, windowed, List.flatMap_nil]
  | cons g gs ih =>
    have hlen : (byKey g).length = g.length := List.length_insertionSort _ g
    rw [List.flatMap_cons, List.take_append, hlen, windowed, List.flatMap_cons,
      byKey_earliest room (hgs g List.mem_cons_self), ih fun g' hg' => hgs g' (List.mem_cons_of_mem g hg')]

theorem forall_mem_flatMap_byKey {P : Candidate → Prop} :
    (∀ c ∈ gs.flatMap byKey, P c) ↔ ∀ g ∈ gs, ∀ c ∈ g, P c := by
  rw [List.forall_mem_flatMap]
  simp only [mem_byKey]

theorem pairwise_flatMap_byKey :
    ((gs.flatMap byKey).Pairwise fun c c' => c.key ≤ c'.key) ↔
      gs.Pairwise fun g g' => ∀ c ∈ g, ∀ c' ∈ g', c.key ≤ c'.key := by
  rw [List.pairwise_flatMap, and_iff_right fun g _ => pairwise_byKey g]
  simp only [mem_byKey]

theorem nodup_flatMap_byKey (hgs : ∀ g ∈ gs, (g.map Candidate.path).Nodup) :
    ((gs.flatMap byKey).map Candidate.path).Nodup ↔
      gs.Pairwise fun g g' => ∀ c ∈ g, ∀ c' ∈ g', c.path ≠ c'.path := by
  have heach : ∀ g ∈ gs, (byKey g).Pairwise fun c c' => c.path ≠ c'.path := by
    intro g hg
    rw [← List.pairwise_map]
    exact ((List.perm_insertionSort _ g).map Candidate.path).nodup_iff.mpr (hgs g hg)
  rw [List.Nodup, List.pairwise_map, List.pairwise_flatMap, and_iff_right heach]
  simp only [mem_byKey]

end Window

/-! ## The entries -/

/-- The tag in the name of a path. -/
def tagOf (u : CharClasses) (p : RelPath) : Option (Nat ×ₗ Nat) :=
  p.getLast?.bind fun n => (parseSeasonEpisode u n.text).map toLex

section Entries

variable {u : CharClasses} {t : BackingTree} {dir : RelPath} {keep : Nat → Nat → Bool} {c : Candidate}
  {season episode : Nat} {g : List Candidate}

theorem tagOf_candidate (hc : c ∈ candidatesIn u t dir keep) : tagOf u c.path = some c.key := by
  obtain ⟨n, -, htag, -, hpath⟩ := mem_candidatesIn.mp hc
  rw [tagOf, hpath, List.getLast?_concat, Option.bind_some, htag, Option.map_some, Candidate.key]

theorem dropLast_candidate (hc : c ∈ candidatesIn u t dir keep) : c.path.dropLast = dir := by
  obtain ⟨n, -, -, -, hpath⟩ := mem_candidatesIn.mp hc
  rw [hpath, List.dropLast_concat]

/-- What is made of entries, each with the path of its own, has no path twice. -/
theorem nodup_entries {α : Type} (t : BackingTree) {dir : RelPath} {f : Name → Option α} {path : α → RelPath}
    (hpath : ∀ n a, f n = some a → path a = dir ++ [n]) :
    (((t.listDir dir).filterMap f).map path).Nodup := by
  rw [List.map_filterMap]
  refine (t.nodup dir).filterMap fun n n' p hn hn' => ?_
  obtain ⟨a, ha, rfl⟩ := Option.map_eq_some_iff.mp hn
  obtain ⟨a', ha', hsame⟩ := Option.map_eq_some_iff.mp hn'
  rw [hpath n a ha, hpath n' a' ha'] at hsame
  exact (List.singleton_inj.mp (List.append_cancel_left hsame)).symm

theorem nodup_paths (u : CharClasses) (t : BackingTree) (dir : RelPath) (keep : Nat → Nat → Bool) :
    ((candidatesIn u t dir keep).map Candidate.path).Nodup := by
  apply nodup_entries t
  intro n c h
  obtain ⟨tag, -, h⟩ := Option.bind_eq_some_iff.mp h
  split at h
  · rw [← Option.some.inj h]
  · cases h

/-- Two directories of later seasons are two directories. -/
theorem nodup_nextSeasons (u : CharClasses) (t : BackingTree) (showDir : RelPath) (season : Nat) :
    ((nextSeasons u t showDir season).map Prod.snd).Nodup := by
  rw [nextSeasons, ((List.perm_insertionSort _ _).map Prod.snd).nodup_iff]
  apply nodup_entries t
  intro n d h
  obtain ⟨s, -, h⟩ := Option.bind_eq_some_iff.mp h
  split at h
  · rw [← Option.some.inj h]
  · cases h

theorem of_mem_groups (h : g ∈ groups u t dir season episode) :
    ∃ d keep, g = candidatesIn u t d keep := by
  cases h with
  | head => exact ⟨dir, _, rfl⟩
  | tail _ h =>
    split at h
    · obtain ⟨d, -, rfl⟩ := List.mem_map.mp h
      exact ⟨d.2, _, rfl⟩
    · obtain rfl := List.mem_singleton.mp h
      exact ⟨dir, _, rfl⟩

theorem nodup_of_mem_groups (h : g ∈ groups u t dir season episode) : g.Nodup := by
  obtain ⟨d, keep, rfl⟩ := of_mem_groups h
  exact (nodup_paths u t d keep).of_map

/-- What is in the window is as it was in its group. -/
theorem of_mem_windowed {room : Nat} (h : g ∈ windowed room (groups u t dir season episode)) :
    (g.map Candidate.path).Nodup ∧ ∀ c ∈ g, tagOf u c.path = some c.key := by
  obtain ⟨g', hg', r, -, rfl⟩ := mem_windowed h
  obtain ⟨d, keep, rfl⟩ := of_mem_groups hg'
  exact ⟨(nodup_paths u t d keep).sublist (earliest_sublist.map _),
    fun c hc => tagOf_candidate (earliest_sublist.subset hc)⟩

end Entries

/-! ## What follows -/

section Follow

variable (u : CharClasses) (t : BackingTree)

/-- At most `lookahead` files, each once, all after the episode, in order. -/
structure NextEpisodes (season episode lookahead : Nat) (eps : List RelPath) : Prop where
  length_le : eps.length ≤ lookahead
  nodup : eps.Nodup
  files : ∀ p ∈ eps, t.isDir p = false
  later : ∀ p ∈ eps, ∃ tag, tagOf u p = some tag ∧ toLex (season, episode) < tag
  ordered : eps.Pairwise fun p p' => ∀ tag ∈ tagOf u p, ∀ tag' ∈ tagOf u p', tag ≤ tag'

/-- What the window has of the later seasons, directory by directory. -/
def windowedSeasons (dir : RelPath) (season episode lookahead : Nat) : List (List Candidate) :=
  windowed (lookahead - (restOfSeason u t dir season episode).length)
    ((nextSeasons u t dir.dropLast season).map fun d => episodesOf u t d.2)

/-- As far as the window goes, names and tree agree. -/
structure Consistent (dir : RelPath) (season episode lookahead : Nat) : Prop where
  /-- what is named like an episode is no directory -/
  files : ∀ g ∈ windowed lookahead (groups u t dir season episode), ∀ c ∈ g, t.isDir c.path = false
  /-- the directories of later seasons hold episodes after this one -/
  later : ∀ g ∈ windowedSeasons u t dir season episode lookahead, ∀ c ∈ g, toLex (season, episode) < c.key
  /-- no directory holds an episode before one of the directories before it -/
  ordered : (windowed lookahead (groups u t dir season episode)).Pairwise fun g g' =>
    ∀ c ∈ g, ∀ c' ∈ g', c.key ≤ c'.key
  /-- the directory of the episode, if it has more of the season, is not one of a later season itself -/
  apart : restOfSeason u t dir season episode ≠ [] →
    ∀ g ∈ windowedSeasons u t dir season episode lookahead, ∀ c ∈ g, c.path.dropLast ≠ dir

end Follow

section Follow

variable {u : CharClasses} {t : BackingTree} {season episode lookahead : Nat} {g cs : List Candidate}
  {c : Candidate} {dir relPath : RelPath} {name : Name}

/-- Of candidates: it can be said of their tags. -/
theorem nextEpisodes_map_iff (hcs : ∀ c ∈ cs, tagOf u c.path = some c.key) :
    NextEpisodes u t season episode lookahead (cs.map Candidate.path) ↔
      cs.length ≤ lookahead ∧ (cs.map Candidate.path).Nodup ∧ (∀ c ∈ cs, t.isDir c.path = false) ∧
        (∀ c ∈ cs, toLex (season, episode) < c.key) ∧ cs.Pairwise fun c c' => c.key ≤ c'.key := by
  have hlater : (∀ p ∈ cs.map Candidate.path, ∃ tag, tagOf u p = some tag ∧ toLex (season, episode) < tag) ↔
      ∀ c ∈ cs, toLex (season, episode) < c.key := by
    rw [List.forall_mem_map]
    refine forall₂_congr fun c hc => ?_
    rw [hcs c hc]
    simp only [Option.some.injEq, exists_eq_left']
  have hordered : (cs.map Candidate.path).Pairwise
      (fun p p' => ∀ tag ∈ tagOf u p, ∀ tag' ∈ tagOf u p', tag ≤ tag') ↔
      cs.Pairwise fun c c' => c.key ≤ c'.key := by
    rw [List.pairwise_map]
    apply List.Pairwise.iff_of_mem
    intro c c' hc hc'
    rw [hcs c hc, hcs c' hc']
    simp only [Option.mem_def, Option.some.injEq, forall_eq']
  constructor
  · intro h
    exact ⟨List.length_map Candidate.path ▸ h.length_le, h.nodup, List.forall_mem_map.mp h.files,
      hlater.mp h.later, hordered.mp h.ordered⟩
  · intro ⟨hlen, hnodup, hfiles, hl, ho⟩
    exact ⟨(List.length_map Candidate.path).trans_le hlen, hnodup, List.forall_mem_map.mpr hfiles, hlater.mpr hl,
      hordered.mpr ho⟩

theorem windowed_groups (hdir : (parseSeasonDir u (dirName dir)).isSome) :
    windowed lookahead (groups u t dir season episode) =
      earliest lookahead (restOfSeason u t dir season episode) ::
        windowedSeasons u t dir season episode lookahead := by
  rw [groups, if_pos hdir, windowed, windowedSeasons]

theorem of_mem_restOfSeason (hc : c ∈ restOfSeason u t dir season episode) :
    c.season = season ∧ episode < c.episode := by
  obtain ⟨n, -, -, hkeep, -⟩ := mem_candidatesIn.mp hc
  simpa using hkeep

theorem lt_of_mem_restOfSeason (hc : c ∈ restOfSeason u t dir season episode) :
    toLex (season, episode) < c.key := by
  obtain ⟨hs, he⟩ := of_mem_restOfSeason hc
  rw [Candidate.key, Prod.Lex.toLex_lt_toLex]
  exact .inr ⟨hs.symm, he⟩

/-- A directory of a later season, as far as the window goes: the rest of the season is all in it. -/
theorem of_mem_windowedSeasons (hg : g ∈ windowedSeasons u t dir season episode lookahead) :
    ∃ d ∈ nextSeasons u t dir.dropLast season,
      ∃ r ≤ lookahead - (restOfSeason u t dir season episode).length, g = earliest r (episodesOf u t d.2) := by
  obtain ⟨g', hg', r, hr, hw⟩ := mem_windowed hg
  obtain ⟨d, hd, rfl⟩ := List.mem_map.mp hg'
  exact ⟨d, hd, r, hr, hw⟩

/-- Two directories of later seasons share no entry. -/
theorem pairwise_windowedSeasons (u : CharClasses) (t : BackingTree) (dir : RelPath)
    (season episode lookahead : Nat) :
    (windowedSeasons u t dir season episode lookahead).Pairwise fun g g' =>
      ∀ c ∈ g, ∀ c' ∈ g', c.path ≠ c'.path := by
  apply pairwise_windowed
  · intro g g' r r' h c hc c' hc'
    exact h c (earliest_sublist.subset hc) c' (earliest_sublist.subset hc')
  · rw [List.pairwise_map]
    have hdirs := nodup_nextSeasons u t dir.dropLast season
    rw [List.Nodup, List.pairwise_map] at hdirs
    refine hdirs.imp fun {d d'} hne c hc c' hc' hpath => hne ?_
    rw [← dropLast_candidate hc, hpath, dropLast_candidate hc']

/-- The least episode of a directory is in the window if any is. -/
theorem exists_least (hg : g.Nodup) {r : Nat} (hc : c ∈ earliest r g) :
    ∃ least ∈ earliest r g, ∀ c' ∈ g, least.key ≤ c'.key := by
  have hroom := room_pos_of_mem hc
  have hmem := mem_byKey.mpr (earliest_sublist.subset hc)
  have hsorted := pairwise_byKey g
  have hstart := byKey_earliest r hg
  cases hlist : byKey g with
  | nil =>
    rw [hlist] at hmem
    cases hmem
  | cons least rest =>
    rw [hlist] at hsorted hstart
    rw [List.pairwise_cons] at hsorted
    obtain ⟨k, rfl⟩ : ∃ k, r = k + 1 := ⟨r - 1, by omega⟩
    rw [List.take_succ_cons] at hstart
    refine ⟨least, ?_, ?_⟩
    · rw [← mem_byKey, hstart]
      exact List.mem_cons_self
    · intro c' hc'
      rw [← mem_byKey, hlist] at hc'
      cases hc' with
      | head => exact le_refl _
      | tail _ h => exact hsorted.1 c' h

/-- The rest of the season is among the episodes of its directory, before all others that come later. So if that
directory is met again, what is met first is of the rest. -/
theorem apart_of_disjoint
    (hlater : ∀ g ∈ windowedSeasons u t dir season episode lookahead, ∀ c ∈ g, toLex (season, episode) < c.key)
    (hdisjoint : ∀ c ∈ earliest lookahead (restOfSeason u t dir season episode),
      ∀ g ∈ windowedSeasons u t dir season episode lookahead, ∀ c' ∈ g, c.path ≠ c'.path)
    (hrest : restOfSeason u t dir season episode ≠ [])
    (hg : g ∈ windowedSeasons u t dir season episode lookahead) (hc : c ∈ g) : c.path.dropLast ≠ dir := by
  intro hsame
  obtain ⟨d, -, r, hr, rfl⟩ := of_mem_windowedSeasons hg
  have hd : d.2 = dir := (dropLast_candidate (earliest_sublist.subset hc)).symm.trans hsame
  obtain ⟨least, hleast, hmin⟩ := exists_least (nodup_paths u t d.2 _).of_map hc
  obtain ⟨c₀, hc₀⟩ := List.exists_mem_of_ne_nil _ hrest
  obtain ⟨hs₀, -⟩ := of_mem_restOfSeason hc₀
  have hmem₀ : c₀ ∈ episodesOf u t d.2 := by
    obtain ⟨n, hn, htag, -, hpath⟩ := mem_candidatesIn.mp hc₀
    exact mem_candidatesIn.mpr ⟨n, hd ▸ hn, htag, rfl, hd ▸ hpath⟩
  have hle := season_le_of_key_le (hmin c₀ hmem₀)
  have hlt := hlater _ hg least hleast
  rw [Candidate.key, Prod.Lex.toLex_lt_toLex] at hlt
  have hleastRest : least ∈ restOfSeason u t dir season episode := by
    obtain ⟨n, hn, htag, -, hpath⟩ := mem_candidatesIn.mp (earliest_sublist.subset hleast)
    refine mem_candidatesIn.mpr ⟨n, hd ▸ hn, htag, ?_, hd ▸ hpath⟩
    rw [Bool.and_eq_true, beq_iff_eq, decide_eq_true_eq]
    dsimp only at hlt
    omega
  have hroom := room_pos_of_mem hleast
  have hstart := earliest_of_length_le (nodup_paths u t dir _).of_map
    (by omega : (restOfSeason u t dir season episode).length ≤ lookahead) hleastRest
  exact hdisjoint least hstart _ hg least hleast rfl

/-- What the lookup finds is the next episodes exactly if names and tree agree as far as the window goes. -/
theorem seasons_follow_iff (u : CharClasses) (t : BackingTree) (lookahead : Nat)
    (hname : relPath.getLast? = some name) (htag : parseSeasonEpisode u name.text = some (season, episode))
    (hdir : (parseSeasonDir u (dirName relPath.dropLast)).isSome) :
    NextEpisodes u t season episode lookahead (findNextEpisodes u t relPath lookahead) ↔
      Consistent u t relPath.dropLast season episode lookahead := by
  have hlen : ((windowed lookahead (groups u t relPath.dropLast season episode)).flatMap byKey).length ≤
      lookahead := by
    rw [← take_flatMap_byKey fun g hg => nodup_of_mem_groups hg]
    exact List.length_take_le _ _
  rw [findNextEpisodes_eq hname htag, take_flatMap_byKey fun g hg => nodup_of_mem_groups hg,
    nextEpisodes_map_iff (forall_mem_flatMap_byKey.mpr fun g hg => (of_mem_windowed hg).2),
    forall_mem_flatMap_byKey, forall_mem_flatMap_byKey, pairwise_flatMap_byKey,
    nodup_flatMap_byKey fun g hg => (of_mem_windowed hg).1]
  constructor
  · intro ⟨_, hdisjoint, hfiles, hlater, hordered⟩
    rw [windowed_groups hdir, List.pairwise_cons] at hdisjoint
    rw [windowed_groups hdir, List.forall_mem_cons] at hlater
    exact {
      files := hfiles
      later := hlater.2
      ordered := hordered
      apart := fun hrest g hg c hc =>
        apart_of_disjoint hlater.2 (fun c₀ hc₀ g' hg' => hdisjoint.1 g' hg' c₀ hc₀) hrest hg hc }
  · intro h
    have hdisjoint : (windowed lookahead (groups u t relPath.dropLast season episode)).Pairwise
        fun g g' => ∀ c ∈ g, ∀ c' ∈ g', c.path ≠ c'.path := by
      rw [windowed_groups hdir, List.pairwise_cons]
      refine ⟨fun g hg c hc c' hc' hpath => ?_, pairwise_windowedSeasons u t _ season episode lookahead⟩
      have hrest := earliest_sublist.subset hc
      exact h.apart (List.ne_nil_of_mem hrest) g hg c' hc' (hpath ▸ dropLast_candidate hrest)
    have hlater : ∀ g ∈ windowed lookahead (groups u t relPath.dropLast season episode), ∀ c ∈ g,
        toLex (season, episode) < c.key := by
      rw [windowed_groups hdir, List.forall_mem_cons]
      exact ⟨fun c hc => lt_of_mem_restOfSeason (earliest_sublist.subset hc), h.later⟩
    exact ⟨hlen, hdisjoint, h.files, hlater, h.ordered⟩

end Follow

section BoxSet

private def boxDir1 : Name := ⟨[83, 101, 97, 115, 111, 110, 32, 49], Eq.refl true⟩
private def boxDir2 : Name := ⟨[83, 101, 97, 115, 111, 110, 32, 50], Eq.refl true⟩
private def boxEp1 : Name := ⟨[115, 49, 101, 49], Eq.refl true⟩
private def boxEp2 : Name := ⟨[115, 49, 101, 50], Eq.refl true⟩
private def boxEp3 : Name := ⟨[115, 50, 101, 49], Eq.refl true⟩

private def boxSet (isDir : RelPath → Bool) : BackingTree where
  listDir dir :=
    if dir = [] then [boxDir1, boxDir2]
    else if dir = [boxDir1] then [boxEp2, boxEp1]
    else if dir = [boxDir2] then [boxEp3]
    else []
  isDir := isDir
  nodup dir := by
    split
    · decide
    · split
      · decide
      · split
        · decide
        · exact List.nodup_nil

theorem boxSet_next : NextEpisodes .ascii (boxSet fun p => p.length == 1) 1 1 2
    (findNextEpisodes .ascii (boxSet fun p => p.length == 1) [boxDir1, boxEp1] 2) :=
  (seasons_follow_iff .ascii (boxSet fun p => p.length == 1) 2 rfl (by decide) (by decide)).mpr
    { files := by decide
      later := by decide
      ordered := by decide
      apart := by decide }

/-- With each episode in a directory of its own, it is the directory that is found. -/
theorem folder_found : ¬NextEpisodes .ascii (boxSet fun p => p != [boxDir1, boxEp1]) 1 1 2
    (findNextEpisodes .ascii (boxSet fun p => p != [boxDir1, boxEp1]) [boxDir1, boxEp1] 2) := by
  intro h
  have hfile := h.files [boxDir2, boxEp3] (by decide)
  exact absurd hfile (by decide)

end BoxSet

end FsCache
