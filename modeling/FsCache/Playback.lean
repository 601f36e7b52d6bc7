import FsCache.PullEvent
import FsCache.Seasons

/- Watching a show (presets/plex_episode_prediction.rs, engine/action.rs).

   A viewer opens one episode after the other. Whether an open is a hit is what the cache
   directory says just then; by that, the preset asks for the episode and the next ones, or for
   nothing, and the engine submits what is not cached. `Viewing` is such a sequence over the
   steps of the engine and the pipeline, in which the copies of one open are there before the
   next, nothing is evicted, and there is no pull budget.

   What is proved, for a directory of episodes that all have different tags:
     1. `nextEpisodes_of_sorted`: the episodes after any of them are the rest of the sorted ones.
     2. `window_viewing`: what is cached is always a window on the sequence.
     3. `playback_flat`: without the rolling buffer, every (lookahead + 1)-st open is a miss and
        every other a hit. With it, the first is a miss and every other a hit, unless the
        lookahead is zero.

   Correspondence (Rust ↔ Lean):
     `PlexEpisodePrediction`                ↔ `PlexEpisodePrediction`
     `on_miss`, `on_hit`                    ↔ `PlexEpisodePrediction.onMiss`, `.onHit`
     the loop body of `ActionEngine::run`   ↔ `.event`, `.candidate`, `.submit` of `Pull.step` -/

namespace FsCache
open Lib

structure PlexEpisodePrediction where
  lookahead : Nat
  rollingBuffer : Bool

namespace PlexEpisodePrediction

variable (preset : PlexEpisodePrediction) (u : CharClasses) (t : BackingTree)

def onMiss (path : RelPath) : List RelPath := path :: findNextEpisodes u t path preset.lookahead

def onHit (path : RelPath) : List RelPath :=
  if preset.rollingBuffer then preset.onMiss u t path else []

/-- What an open asks for. -/
def asked (path : RelPath) (hit : Bool) : List RelPath :=
  if hit then preset.onHit u t path else preset.onMiss u t path

/-- Whether the open with this number, from zero, is a hit. -/
def hits (i : Nat) : Bool :=
  if preset.rollingBuffer then 0 < i && 0 < preset.lookahead else i % (preset.lookahead + 1) != 0

/-- How many episodes are cached before it. -/
def reach (i : Nat) : Nat :=
  if preset.rollingBuffer then if i = 0 then 0 else i + preset.lookahead
  else if i % (preset.lookahead + 1) = 0 then i
  else i - i % (preset.lookahead + 1) + (preset.lookahead + 1)

end PlexEpisodePrediction

/-- The opens of a viewer, and which of them were hits. -/
inductive Viewing (cfg : PullConfig) (preset : PlexEpisodePrediction) (u : CharClasses) (t : BackingTree) :
    Pull → List RelPath → List Bool → Prop where
  | stop (s : Pull) : Viewing cfg preset u t s [] []
  | open {s s₁ s₂ : Pull} {path : RelPath} {paths : List RelPath} {hits : List Bool} {as bs : List PullAction}
      -- the engine takes the event to its end
      (hevent : run (Pull.step cfg) s (.event (preset.asked u t path (isCached s.dir path)) :: as) = some s₁)
      (hquiet : ∀ a ∈ as, Pull.Quiet (isCached s.dir) a) (hdone : s₁.pc = .idle)
      -- what it submits is copied
      (hcopy : run (Pull.step cfg) s₁ bs = some s₂)
      (hcopied : ∀ q, isCached s₂.dir q = true ↔ isCached s.dir q = true ∨
        q ∈ Pull.submissions cfg s (.event (preset.asked u t path (isCached s.dir path)) :: as))
      (hrest : Viewing cfg preset u t s₂ paths hits) :
      Viewing cfg preset u t s (path :: paths) (isCached s.dir path :: hits)

section Window

variable {cfg : PullConfig} {preset : PlexEpisodePrediction} {u : CharClasses} {t : BackingTree}
  {s : Pull} {es watched : List RelPath} {hits : List Bool} {i : Nat}

/-- Without a budget, all that is not cached is submitted. -/
theorem mem_selected (hbudget : cfg.maxCachePullBytes = 0) (cached : RelPath → Bool) (next : List RelPath)
    (total : Nat) (first : Bool) (q : RelPath) :
    q ∈ Pull.selected cfg cached next total first ↔ q ∈ next ∧ cached q = false := by
  induction next generalizing first with
  | nil => simp [Pull.selected]
  | cons rel next ih =>
    rw [Pull.selected, hbudget]
    split
    · next hcached =>
      rw [ih, List.mem_cons]
      constructor
      · rintro ⟨hmem, hq⟩
        exact ⟨.inr hmem, hq⟩
      · rintro ⟨rfl | hmem, hq⟩
        · exact absurd (hcached.symm.trans hq) (by simp)
        · exact ⟨hmem, hq⟩
    · next hcached =>
      rw [if_neg (Nat.lt_irrefl 0), List.mem_cons, List.mem_cons, ih]
      constructor
      · rintro (rfl | ⟨hmem, hq⟩)
        · exact ⟨.inl rfl, by simpa using hcached⟩
        · exact ⟨.inr hmem, hq⟩
      · rintro ⟨rfl | hmem, hq⟩
        · exact .inl rfl
        · exact .inr ⟨hmem, hq⟩

/-- After an open, what it has asked for is cached as well. -/
theorem cached_after (hbudget : cfg.maxCachePullBytes = 0) {next : List RelPath} {as : List PullAction} {s₁ : Pull}
    (hevent : run (Pull.step cfg) s (.event next :: as) = some s₁)
    (hquiet : ∀ a ∈ as, Pull.Quiet (isCached s.dir) a) (hdone : s₁.pc = .idle) (q : RelPath) :
    isCached s.dir q = true ∨ q ∈ Pull.submissions cfg s (.event next :: as) ↔
      isCached s.dir q = true ∨ q ∈ next := by
  obtain ⟨s', hs, hrest⟩ := run_cons.mp hevent
  have hall : Pull.submissions cfg s (.event next :: as) =
      Pull.selected cfg (isCached s.dir) next 0 true := by
    rw [Pull.submissions, hs, show s.passed (.event next) = [] from rfl, List.nil_append]
    simp only [Pull.step, hbudget, Nat.lt_irrefl, if_false] at hs
    split at hs
    · obtain rfl := Option.some.inj hs
      exact Pull.submissions_eq (fun p => rfl) hquiet hrest hdone
    · cases hs
  rw [hall, mem_selected hbudget]
  cases isCached s.dir q <;> simp

theorem mem_stretch (hnodup : es.Nodup) {j k : Nat} (hj : j < es.length) :
    es[j] ∈ (es.drop i).take k ↔ i ≤ j ∧ j < i + k := by
  rw [List.mem_take_iff_getElem]
  constructor
  · rintro ⟨n, hn, heq⟩
    rw [List.getElem_drop] at heq
    have hsame := (hnodup.getElem_inj_iff).mp heq
    omega
  · rintro ⟨hle, hlt⟩
    refine ⟨j - i, by rw [List.length_drop]; omega, ?_⟩
    rw [List.getElem_drop]
    congr 1
    omega

/-- The lookup finds the next of the sequence from each of its episodes. -/
def Sequenced (u : CharClasses) (t : BackingTree) (lookahead : Nat) (es : List RelPath) : Prop :=
  ∀ (i : Nat) (hi : i < es.length), findNextEpisodes u t es[i] lookahead = (es.drop (i + 1)).take lookahead

/-- So much of the sequence is cached, from its start. -/
def CachedUpTo (s : Pull) (es : List RelPath) (n : Nat) : Prop :=
  ∀ (j : Nat) (hj : j < es.length), isCached s.dir es[j] = true ↔ j < n

theorem onMiss_eq (hseq : Sequenced u t preset.lookahead es) (hi : i < es.length) :
    preset.onMiss u t es[i] = (es.drop i).take (preset.lookahead + 1) := by
  rw [PlexEpisodePrediction.onMiss, hseq i hi, List.drop_eq_getElem_cons hi, List.take_succ_cons]

/-- An episode is a hit exactly if it is within reach of those before. -/
theorem hits_iff (preset : PlexEpisodePrediction) (i : Nat) : preset.hits i = true ↔ i < preset.reach i := by
  have hlt : i % (preset.lookahead + 1) < preset.lookahead + 1 := Nat.mod_lt i (Nat.succ_pos _)
  have hle : i % (preset.lookahead + 1) ≤ i := Nat.mod_le _ _
  rw [PlexEpisodePrediction.hits, PlexEpisodePrediction.reach]
  cases preset.rollingBuffer with
  | true =>
    simp only [if_true, Bool.and_eq_true, decide_eq_true_eq]
    split <;> omega
  | false =>
    simp only [Bool.false_eq_true, if_false, bne_iff_ne]
    split <;> omega

theorem reach_succ (preset : PlexEpisodePrediction) (i : Nat) :
    preset.reach (i + 1) =
      if preset.hits i = true ∧ preset.rollingBuffer = false then preset.reach i else i + 1 + preset.lookahead := by
  have hlt : i % (preset.lookahead + 1) < preset.lookahead + 1 := Nat.mod_lt i (Nat.succ_pos _)
  have hle : i % (preset.lookahead + 1) ≤ i := Nat.mod_le _ _
  have hsucc := Nat.add_mod_eq_ite (m := i) (n := 1) (k := preset.lookahead + 1)
  rw [PlexEpisodePrediction.hits, PlexEpisodePrediction.reach, PlexEpisodePrediction.reach]
  cases preset.rollingBuffer with
  | true => simp
  | false =>
    simp only [Bool.false_eq_true, if_false, bne_iff_ne, and_true]
    rcases Nat.eq_zero_or_pos preset.lookahead with hzero | hpos
    · simp only [hzero, Nat.zero_add, Nat.mod_one]
      simp
    · rw [Nat.mod_eq_of_lt (show 1 < preset.lookahead + 1 by omega)] at hsucc
      generalize i % (preset.lookahead + 1) = r at *
      generalize (i + 1) % (preset.lookahead + 1) = r' at *
      split at hsucc <;> split <;> split <;> omega

theorem reach_bounds (preset : PlexEpisodePrediction) (i : Nat) :
    i ≤ preset.reach i ∧ preset.reach i ≤ i + preset.lookahead := by
  have hlt : i % (preset.lookahead + 1) < preset.lookahead + 1 := Nat.mod_lt i (Nat.succ_pos _)
  have hle : i % (preset.lookahead + 1) ≤ i := Nat.mod_le _ _
  rw [PlexEpisodePrediction.reach]
  cases preset.rollingBuffer with
  | true =>
    simp only [if_true]
    split <;> omega
  | false =>
    simp only [Bool.false_eq_true, if_false]
    split <;> omega

/-- One open moves the window on. -/
theorem cachedUpTo_open {s₂ : Pull} (hnodup : es.Nodup)
    (hseq : Sequenced u t preset.lookahead es) (hi : i < es.length) (hcached : CachedUpTo s es (preset.reach i))
    (hcopied : ∀ q, isCached s₂.dir q = true ↔
      isCached s.dir q = true ∨ q ∈ preset.asked u t es[i] (isCached s.dir es[i])) :
    isCached s.dir es[i] = preset.hits i ∧ CachedUpTo s₂ es (preset.reach (i + 1)) := by
  have hhit : isCached s.dir es[i] = preset.hits i := by
    rw [Bool.eq_iff_iff, hcached i hi, hits_iff]
  refine ⟨hhit, fun j hj => ?_⟩
  rw [hcopied, hcached j hj, hhit, reach_succ, PlexEpisodePrediction.asked, PlexEpisodePrediction.onHit]
  have hbounds := reach_bounds preset i
  cases hh : preset.hits i with
  | true =>
    cases hr : preset.rollingBuffer with
    | true =>
      simp only [if_true, Bool.true_eq_false, and_false, if_false]
      rw [onMiss_eq hseq hi, mem_stretch hnodup hj]
      omega
    | false => simp
  | false =>
    simp only [Bool.false_eq_true, false_and, if_false]
    rw [onMiss_eq hseq hi, mem_stretch hnodup hj]
    omega

/-- Over a whole viewing, from any episode of the sequence on. -/
theorem window_viewing (hbudget : cfg.maxCachePullBytes = 0) (hnodup : es.Nodup)
    (hseq : Sequenced u t preset.lookahead es) (hview : Viewing cfg preset u t s watched hits)
    (hwatched : watched <+: es.drop i) (hcached : CachedUpTo s es (preset.reach i)) :
    hits = (List.range' i watched.length).map preset.hits := by
  induction hview generalizing i with
  | stop s => rfl
  | @«open» s s₁ s₂ path paths hits as bs hevent hquiet hdone hcopy hcopied hrest ih =>
    obtain ⟨rest, hrest'⟩ := hwatched
    have hi : i < es.length := by
      by_contra hge
      rw [List.drop_of_length_le (by omega)] at hrest'
      exact absurd hrest' (by simp)
    rw [List.drop_eq_getElem_cons hi, List.cons_append] at hrest'
    obtain ⟨rfl, htail⟩ := List.cons.inj hrest'
    have hcopied' : ∀ q, isCached s₂.dir q = true ↔
        isCached s.dir q = true ∨ q ∈ preset.asked u t es[i] (isCached s.dir es[i]) := by
      intro q
      rw [hcopied q]
      exact cached_after hbudget hevent hquiet hdone q
    obtain ⟨hhit, hcached'⟩ := cachedUpTo_open hnodup hseq hi hcached hcopied'
    rw [List.length_cons, List.range'_succ, List.map_cons, hhit, ih ⟨rest, htail⟩ hcached']

end Window

/-! ## A directory of episodes -/

section Flat

variable {u : CharClasses} {t : BackingTree} {dir relPath : RelPath} {name : Name} {season episode lookahead : Nat}

/-- An episode and those after it, by season and number. -/
def episodesFrom (u : CharClasses) (t : BackingTree) (dir relPath : RelPath) (season episode : Nat) :
    List RelPath :=
  relPath :: (byKey (laterIn u t dir season episode)).map Candidate.path

/-- In a sorted list without equal keys, what is greater than an entry comes after it. -/
theorem filter_gt_eq_drop {l : List Candidate} (hl : l.Pairwise fun c c' => c.key < c'.key) {i : Nat}
    (hi : i < l.length) : (l.filter fun c => l[i].key < c.key) = l.drop (i + 1) := by
  induction l generalizing i with
  | nil => exact absurd hi (by simp)
  | cons a l ih =>
    rw [List.pairwise_cons] at hl
    cases i with
    | zero =>
      rw [List.getElem_cons_zero, List.filter_cons_of_neg (by simp), List.drop_succ_cons, List.drop_zero]
      exact List.filter_eq_self.mpr fun c hc => decide_eq_true (hl.1 c hc)
    | succ i =>
      have hi' : i < l.length := by simpa using hi
      have hless : ¬ l[i].key < a.key := not_lt_of_gt (hl.1 l[i] (List.getElem_mem hi'))
      rw [List.getElem_cons_succ, List.filter_cons_of_neg (by simpa using hless), List.drop_succ_cons]
      exact ih hl.2 hi'

/-- What comes after an entry, among what comes after an earlier one. -/
theorem laterIn_filter {c : Candidate} (hc : toLex (season, episode) < c.key) :
    (laterIn u t dir season episode).filter (fun c' => c.key < c'.key) =
      laterIn u t dir c.season c.episode := by
  refine (filter_candidatesIn _ fun s e => decide (c.key < toLex (s, e))).trans ?_
  rw [laterIn]
  congr 1
  funext s e
  rw [Bool.eq_iff_iff, Bool.and_eq_true, decide_eq_true_eq, decide_eq_true_eq, decide_eq_true_eq]
  exact ⟨fun h => h.2, fun h => ⟨lt_trans hc h, h⟩⟩

theorem lt_of_mem_laterIn {c : Candidate} (hc : c ∈ laterIn u t dir season episode) :
    toLex (season, episode) < c.key := by
  obtain ⟨n, -, -, hlater, -⟩ := mem_candidatesIn.mp hc
  exact of_decide_eq_true hlater

/-- Sorted, entries with different tags are in strict order. -/
theorem strict_byKey {g : List Candidate} (hkeys : (g.map Candidate.key).Nodup) :
    (byKey g).Pairwise fun c c' => c.key < c'.key := by
  have hnodup : ((byKey g).map Candidate.key).Nodup := ((List.perm_insertionSort _ g).map _).nodup_iff.mpr hkeys
  rw [List.Nodup, List.pairwise_map] at hnodup
  exact (pairwise_byKey g).imp₂ (fun _ _ hle hne => lt_of_le_of_ne hle hne) hnodup

theorem nodup_episodesFrom (hname : relPath.getLast? = some name)
    (htag : parseSeasonEpisode u name.text = some (season, episode)) :
    (episodesFrom u t dir relPath season episode).Nodup := by
  have hown : tagOf u relPath = some (toLex (season, episode)) := by
    rw [tagOf, hname, Option.bind_some, htag]
    rfl
  rw [episodesFrom, List.nodup_cons]
  refine ⟨fun hmem => ?_, ((List.perm_insertionSort _ _).map _).nodup_iff.mpr (nodup_paths u t dir _)⟩
  obtain ⟨c, hc, rfl⟩ := List.mem_map.mp hmem
  have hlater := mem_byKey.mp hc
  rw [tagOf_candidate hlater, Option.some.injEq] at hown
  exact absurd (hown ▸ lt_of_mem_laterIn hlater) (lt_irrefl _)

/-- From each episode, the lookup goes on in the one sorted sequence. -/
theorem nextEpisodes_of_sorted (hname : relPath.getLast? = some name)
    (htag : parseSeasonEpisode u name.text = some (season, episode))
    (hflat : parseSeasonDir u (dirName relPath.dropLast) = none)
    (hkeys : ((laterIn u t relPath.dropLast season episode).map Candidate.key).Nodup) :
    Sequenced u t lookahead (episodesFrom u t relPath.dropLast relPath season episode) := by
  intro i hi
  cases i with
  | zero =>
    show findNextEpisodes u t relPath lookahead = _
    rw [flat_exact u t lookahead hname htag hflat, List.map_take]
    rfl
  | succ i =>
    have hi' : i < (byKey (laterIn u t relPath.dropLast season episode)).length := by
      rw [episodesFrom, List.length_cons, List.length_map] at hi
      omega
    obtain ⟨c, hc⟩ : ∃ c, (byKey (laterIn u t relPath.dropLast season episode))[i] = c := ⟨_, rfl⟩
    have hmem : c ∈ laterIn u t relPath.dropLast season episode := mem_byKey.mp (hc ▸ List.getElem_mem hi')
    obtain ⟨n, -, hctag, -, hpath⟩ := mem_candidatesIn.mp hmem
    have hget : (episodesFrom u t relPath.dropLast relPath season episode)[i + 1] = c.path := by
      simp only [episodesFrom, List.getElem_cons_succ, List.getElem_map, hc]
    have hdrop := filter_gt_eq_drop (strict_byKey hkeys) hi'
    have hrest : byKey (laterIn u t relPath.dropLast c.season c.episode) =
        (byKey (laterIn u t relPath.dropLast season episode)).drop (i + 1) := by
      rw [← hdrop, hc, byKey, byKey, filter_insertionSort, laterIn_filter (lt_of_mem_laterIn hmem)]
    have hdir := dropLast_candidate hmem
    rw [hget, flat_exact u t lookahead (by rw [hpath, List.getLast?_concat]) hctag (hdir.symm ▸ hflat), hdir,
      hrest, List.map_take, List.map_drop]
    rfl

/-- A viewer who goes through a directory of episodes, all of whose tags differ, from any of them on, when
neither that one nor a later one is cached. -/
theorem playback_flat (cfg : PullConfig) (preset : PlexEpisodePrediction) (u : CharClasses) (t : BackingTree)
    (hbudget : cfg.maxCachePullBytes = 0) (hname : relPath.getLast? = some name)
    (htag : parseSeasonEpisode u name.text = some (season, episode))
    (hflat : parseSeasonDir u (dirName relPath.dropLast) = none)
    (hkeys : ((laterIn u t relPath.dropLast season episode).map Candidate.key).Nodup) {s : Pull}
    (hcold : ∀ p ∈ episodesFrom u t relPath.dropLast relPath season episode, isCached s.dir p = false)
    {watched : List RelPath} {hits : List Bool} (hview : Viewing cfg preset u t s watched hits)
    (hwatched : watched <+: episodesFrom u t relPath.dropLast relPath season episode) :
    hits = (List.range watched.length).map fun i =>
      if preset.rollingBuffer then 0 < i && 0 < preset.lookahead else i % (preset.lookahead + 1) != 0 := by
  rw [List.range_eq_range']
  refine window_viewing (i := 0) hbudget (nodup_episodesFrom hname htag)
    (nextEpisodes_of_sorted hname htag hflat hkeys) hview hwatched fun j hj => ?_
  rw [hcold _ (List.getElem_mem hj), show preset.reach 0 = 0 by simp [PlexEpisodePrediction.reach]]
  simp

end Flat

section Pilot

private def opener : Name := ⟨[115, 49, 101, 49], Eq.refl true⟩
private def finale : Name := ⟨[115, 49, 101, 50], Eq.refl true⟩

private def miniseries : BackingTree where
  listDir dir := if dir = [] then [finale, opener] else []
  isDir _ := false
  nodup dir := by
    split
    · decide
    · exact List.nodup_nil

private def unlimited : PullConfig := ⟨[109], 0, 60, fun _ => none, fun _ _ h => absurd h (by simp)⟩

private def cold : Pull := Pull.start (Jobs.initial 1 1) Files.empty ⟨∅, ∅⟩

private def bothNodes : Map RelPath Node := ((∅ : Map RelPath Node).insert [opener] (.file 0)).insert [finale] (.file 1)

private theorem lookup_bothNodes (p : RelPath) : bothNodes.lookup p =
    if p = [finale] then some (.file 1) else if p = [opener] then some (.file 0) else none := by
  rw [bothNodes, Map.lookup_insert_if, Map.lookup_insert_if]
  rfl

private theorem bothNodes_file {p : RelPath} {i : Nat} (h : bothNodes.lookup p = some (.file i)) :
    i < 2 ∧ p = if i = 1 then [finale] else [opener] := by
  rw [lookup_bothNodes] at h
  split at h
  · next hp =>
    cases h
    exact ⟨by decide, hp⟩
  · split at h
    · next hp =>
      cases h
      exact ⟨by decide, hp⟩
    · cases h

private def both : CacheDir where
  node := bothNodes
  data _ := []
  next := 2
  issued _ _ h := (bothNodes_file h).1
  single _ _ _ hp hq := (bothNodes_file hp).2.trans (bothNodes_file hq).2.symm

private theorem isCached_cold (q : RelPath) : isCached cold.dir q = true ↔ q = [] := by
  show isCached Files.empty q = true ↔ q = []
  rw [isCached, Files.lookup]
  split
  · next h => simp [h, extension]
  · next h => simp [h, Files.empty]

private theorem isCached_both (q : RelPath) : isCached both q = true ↔ q = [] ∨ q = [finale] ∨ q = [opener] := by
  rw [isCached, Files.lookup]
  split
  · next h => simp [h, extension]
  · next h =>
    show ((bothNodes.lookup q).isSome && _) = true ↔ _
    rw [lookup_bothNodes]
    split
    · next hq => subst hq; decide
    · split
      · next hq => subst hq; decide
      · next hf hp => simp [h, hf, hp]

private def noBuffer : PlexEpisodePrediction := ⟨1, false⟩

private theorem asked_opener : noBuffer.asked .ascii miniseries [opener] (isCached cold.dir [opener]) =
    [[opener], [finale]] := by decide

private def submitting : List PullAction := [.candidate, .submit 0, .candidate, .submit 0, .candidate]

private def queued : Pull := (run (Pull.step unlimited) cold (.event [[opener], [finale]] :: submitting)).get (by decide)

/-- The first open is a miss, and both episodes are copied. -/
private theorem miniseries_viewing : Viewing unlimited noBuffer .ascii miniseries cold [[opener], [finale]]
    [false, true] := by
  have hidle : queued.pc = .idle := by decide
  have hmiss : run (Pull.step unlimited) cold
      (.event (noBuffer.asked .ascii miniseries [opener] (isCached cold.dir [opener])) :: submitting) = some queued := by
    rw [asked_opener]
    exact (Option.some_get _).symm
  have hcopy : run (Pull.step unlimited) queued [.files both] = some { queued with dir := both } := rfl
  have hasked : noBuffer.asked .ascii miniseries [finale] (isCached both [finale]) = [] := by decide
  have hhit : run (Pull.step unlimited) { queued with dir := both }
      (.event (noBuffer.asked .ascii miniseries [finale] (isCached both [finale])) :: [.candidate]) =
        some { queued with dir := both, pc := .idle } := by
    rw [hasked]
    simp [run, Pull.step, Pull.candidate, hidle, unlimited]
  have hstill : run (Pull.step unlimited) { queued with dir := both, pc := .idle } [] =
    some { queued with dir := both, pc := .idle } := rfl
  refine .open hmiss ?_ hidle hcopy (fun q => ?_) (.open hhit ?_ rfl hstill (fun q => ?_) (.stop _))
  · simp [submitting, Pull.Quiet]
  · rw [asked_opener, isCached_cold, isCached_both,
      show Pull.submissions unlimited cold (.event [[opener], [finale]] :: submitting) = [[opener], [finale]] by decide]
    simp only [List.mem_cons, List.not_mem_nil, or_false]
    exact or_congr_right or_comm
  · simp [Pull.Quiet]
  · show isCached both q = true ↔ isCached both q = true ∨ q ∈ Pull.submissions unlimited _
      (.event (noBuffer.asked .ascii miniseries [finale] (isCached both [finale])) :: [.candidate])
    rw [hasked]
    simp [Pull.submissions, Pull.passed, Pull.step, Pull.candidate, hidle, unlimited]

/-- The second is a hit. -/
theorem playback_pilot : [false, true] = (List.range 2).map fun i =>
    if noBuffer.rollingBuffer then 0 < i && 0 < noBuffer.lookahead else i % (noBuffer.lookahead + 1) != 0 :=
  have hname : ([opener] : RelPath).getLast? = some opener := rfl
  have htag : parseSeasonEpisode .ascii opener.text = some (1, 1) := rfl
  playback_flat unlimited noBuffer .ascii miniseries rfl hname htag (by decide) (by decide) (by decide)
    miniseries_viewing (by decide)

end Pilot

end FsCache
