import Mathlib.Data.Nat.Digits.Lemmas
import FsCache.Prediction

/- An episode tag that is written is read back (prediction_utils.rs).

   `S{:02}E{:02}` in either case, anywhere in a name. The pattern takes up to two digits for a season and up
   to three for an episode, and is not anchored behind them: `tag_roundtrip_iff` says that it reads the tag
   exactly if the numbers have no more digits. `hundredth_season` is one that is not read.

   Given of the classes: the ASCII digits are in `\d`, the letters of the pattern are not (`CharClasses.Sound`). -/

namespace FsCache
open Lib

/-! ## Written numbers -/

/-- The decimal digits of `n` as code points. -/
def decimal (n : Nat) : List Nat := (Nat.digits 10 n).reverse.map (48 + ·)

/-- `{:02}` -/
def twoDigits (n : Nat) : List Nat := List.replicate (2 - (decimal n).length) 48 ++ decimal n

section Written

variable {n k : Nat}

theorem length_decimal_le : (decimal n).length ≤ k ↔ n < 10 ^ k := by
  rw [decimal, List.length_map, List.length_reverse, Nat.digits_length_le_iff (by omega)]

theorem length_twoDigits (n : Nat) : (twoDigits n).length = max 2 (decimal n).length := by
  rw [twoDigits, List.length_append, List.length_replicate]
  omega

theorem digits_twoDigits {c : Nat} (hc : c ∈ twoDigits n) : 48 ≤ c ∧ c ≤ 57 := by
  rw [twoDigits, List.mem_append] at hc
  cases hc with
  | inl hzero =>
    have h := List.eq_of_mem_replicate hzero
    omega
  | inr hdigit =>
    rw [decimal, List.mem_map] at hdigit
    obtain ⟨d, hd, rfl⟩ := hdigit
    have hlt := Nat.digits_lt_base (by omega) (List.mem_reverse.mp hd)
    omega

theorem value_decimal (n : Nat) : (decimal n).foldl (fun n c => n * 10 + (c - 48)) 0 = n := by
  calc (decimal n).foldl (fun n c => n * 10 + (c - 48)) 0
      = (Nat.digits 10 n).foldr (fun d n => d + 10 * n) 0 := by
        rw [decimal, List.foldl_map, List.foldl_reverse]
        congr 1
        funext d n
        omega
    _ = Nat.ofDigits 10 (Nat.digits 10 n) := by
        rw [Nat.ofDigits_eq_foldr]
        rfl
    _ = n := Nat.ofDigits_digits 10 n

theorem value_replicate (cs : List Nat) (k : Nat) :
    (List.replicate k 48 ++ cs).foldl (fun n c => n * 10 + (c - 48)) 0 =
      cs.foldl (fun n c => n * 10 + (c - 48)) 0 := by
  induction k with
  | zero => rfl
  | succ k ih =>
    rw [List.replicate_succ, List.cons_append, List.foldl_cons]
    exact ih

theorem parseU32_twoDigits (h : n < 2^32) : parseU32 (twoDigits n) = some n := by
  have hvalue : (twoDigits n).foldl (fun n c => n * 10 + (c - 48)) 0 = n := by
    rw [twoDigits, value_replicate, value_decimal]
  have hlen := length_twoDigits n
  have hne : (twoDigits n).isEmpty = false := by
    rw [List.isEmpty_eq_false_iff, ← List.length_pos_iff]
    omega
  have hall : ((twoDigits n).all fun c => 48 ≤ c && c ≤ 57) = true := by
    rw [List.all_eq_true]
    intro c hc
    simpa using digits_twoDigits hc
  rw [parseU32, hne, hall, hvalue, if_neg (by decide), if_pos h]

end Written

/-! ## Reading them back -/

/-- What is known of the regex crate's `\d`. -/
structure CharClasses.Sound (u : CharClasses) : Prop where
  ascii : ∀ c, 48 ≤ c → c ≤ 57 → u.digit c = true
  letters : ∀ c, letter 's' c = true ∨ letter 'e' c = true → u.digit c = false

/-- In `pre` with the tag behind it, no match starts before the tag. -/
def NoTagBefore (u : CharClasses) (pre tag : List Nat) : Prop :=
  ∀ k < pre.length, Regex.captures (seasonEpRe u) ((pre ++ tag).drop k) = []

instance (u : CharClasses) (pre tag : List Nat) : Decidable (NoTagBefore u pre tag) :=
  inferInstanceAs (Decidable (∀ k < pre.length, Regex.captures (seasonEpRe u) ((pre ++ tag).drop k) = []))

section Tag

variable {u : CharClasses} {pre tag tag' suf : List Nat} {c : Nat}

theorem not_letter_e (h : letter 's' c = true) : letter 'e' c = false := by
  simp only [letter, Bool.or_eq_true, Bool.and_eq_true, beq_iff_eq] at h
  simp only [letter, Bool.or_eq_false_iff, beq_eq_false_iff_ne]
  have hs : 's'.toNat = 115 := rfl
  have he : 'e'.toNat = 101 := rfl
  refine ⟨⟨?_, ?_⟩, rfl⟩
  · omega
  · omega

/-- A match that starts before an `S` ends before it: the pattern has an `S` only in front. -/
theorem match_ends (hu : u.Sound) (hc : letter 's' c = true) {l rest : List Nat} (hl : l ≠ [])
    {cs : List (List Nat)} (h : Regex.Matches (seasonEpRe u) (l ++ c :: rest) cs) (rest' : List Nat) :
    Regex.Matches (seasonEpRe u) (l ++ rest') cs := by
  obtain ⟨s, ss, e, es, suf, heq, hs, he, hss, hes, hcs⟩ := matches_tag_iff.mp h
  have hinside : c ∉ ss ++ e :: es := by
    have hdigit := hu.letters c (.inl hc)
    rw [List.mem_append, List.mem_cons]
    intro hmem
    rcases hmem with hmem | hmem | hmem
    · rw [hss.1 c hmem] at hdigit
      cases hdigit
    · rw [← hmem, not_letter_e hc] at he
      cases he
    · rw [hes.1 c hmem] at hdigit
      cases hdigit
  -- so the match is in front of it
  obtain ⟨more, hmore⟩ : ∃ more, l = (s :: ss ++ e :: es) ++ more := by
    cases List.append_eq_append_iff.mp heq with
    | inl hleft =>
      obtain ⟨more, hmatch, htail⟩ := hleft
      cases more with
      | nil => exact ⟨[], by simpa using hmatch.symm⟩
      | cons d more =>
        obtain ⟨rfl, -⟩ := List.cons_eq_cons.mp htail
        obtain ⟨x, l', rfl⟩ := List.exists_cons_of_ne_nil hl
        rw [List.cons_append, List.cons_append] at hmatch
        obtain ⟨-, hmatch⟩ := List.cons_eq_cons.mp hmatch
        exact absurd (by rw [hmatch]; simp) hinside
    | inr hright =>
      obtain ⟨more, hmore, -⟩ := hright
      exact ⟨more, hmore⟩
  refine matches_tag_iff.mpr ⟨s, ss, e, es, more ++ rest', ?_, hs, he, hss, hes, hcs⟩
  rw [hmore, List.append_assoc]

/-- Where no match starts before the tag, none does with the rest of the name behind it. -/
theorem NoTagBefore.append (hu : u.Sound) (hc : letter 's' c = true) (h : NoTagBefore u pre (c :: tag))
    {k : Nat} (hk : k < pre.length) : Regex.captures (seasonEpRe u) ((pre ++ c :: tag').drop k) = [] := by
  rw [List.eq_nil_iff_forall_not_mem]
  intro cs hcs
  rw [Regex.mem_captures_iff, List.drop_append_of_le_length hk.le] at hcs
  have hrest : pre.drop k ≠ [] := by
    rw [← List.length_pos_iff, List.length_drop]
    omega
  have hmatch := match_ends hu hc hrest hcs (c :: tag)
  rw [← List.drop_append_of_le_length hk.le, ← Regex.mem_captures_iff, h k hk] at hmatch
  cases hmatch

variable {cs ce s e : Nat}

theorem run_twoDigits (hu : u.Sound) {n m : Nat} (hlen : (twoDigits n).length ≤ m) :
    Regex.Run u.digit 1 (some m) (twoDigits n) := by
  refine ⟨fun c hc => ?_, ?_, ?_⟩
  · exact hu.ascii c (digits_twoDigits hc).1 (digits_twoDigits hc).2
  · rw [length_twoDigits]
    omega
  · intro k hk
    rwa [← Option.some.inj hk]

theorem parse_tag (hu : u.Sound) (hcs : letter 's' cs = true) (hce : letter 'e' ce = true)
    (hs : s < 100) (he : e < 1000) (hpre : NoTagBefore u pre (cs :: twoDigits s ++ ce :: twoDigits e))
    (hsuf : ∀ c ∈ suf.head?, u.digit c = false) :
    parseSeasonEpisode u (pre ++ (cs :: twoDigits s ++ ce :: twoDigits e) ++ suf) = some (s, e) := by
  have hseason : (twoDigits s).length = 2 := by
    have h := length_decimal_le.mpr (show s < 10 ^ 2 from hs)
    rw [length_twoDigits]
    omega
  have hepisode : (twoDigits e).length ≤ 3 := by
    have h := length_decimal_le.mpr (show e < 10 ^ 3 from he)
    rw [length_twoDigits]
    omega
  have hshape : pre ++ (cs :: twoDigits s ++ ce :: twoDigits e) ++ suf =
      pre ++ cs :: (twoDigits s ++ ce :: (twoDigits e ++ suf)) := by simp
  have hsearch : Regex.search (seasonEpRe u) (pre ++ cs :: (twoDigits s ++ ce :: (twoDigits e ++ suf))) =
      some [twoDigits s, twoDigits e] := by
    apply Regex.search_append
    · exact fun k hk => hpre.append hu hcs hk
    · apply Regex.head_captures_one hcs
      apply Regex.head_captures_group (run_twoDigits hu hseason.le) (.inl (by rw [hseason]))
      apply Regex.head_captures_one hce
      exact Regex.head_captures_group (run_twoDigits hu hepisode) (.inr hsuf) rfl
  rw [hshape, parseSeasonEpisode, hsearch]
  simp only [parseU32_twoDigits (show s < 2^32 by omega), parseU32_twoDigits (show e < 2^32 by omega),
    Option.bind_some, Option.map_some]

/-- A tag that is written with at least two digits for each number is read back exactly if the season has no
more than two, and the episode no more than three. -/
theorem tag_roundtrip_iff (hu : u.Sound) (hcs : cs = 83 ∨ cs = 115)
    (hce : ce = 69 ∨ ce = 101) (hpre : NoTagBefore u pre (cs :: twoDigits s ++ ce :: twoDigits e))
    (hsuf : ∀ c ∈ suf.head?, u.digit c = false) :
    parseSeasonEpisode u (pre ++ (cs :: twoDigits s ++ ce :: twoDigits e) ++ suf) = some (s, e) ↔
      s < 100 ∧ e < 1000 := by
  constructor
  · exact tag_lt
  · intro ⟨hseason, hepisode⟩
    have hcs' : letter 's' cs = true := by
      cases hcs with
      | inl h => rw [h]; rfl
      | inr h => rw [h]; rfl
    have hce' : letter 'e' ce = true := by
      cases hce with
      | inl h => rw [h]; rfl
      | inr h => rw [h]; rfl
    exact parse_tag hu hcs' hce' hseason hepisode hpre hsuf

end Tag

section Names

theorem ascii_sound : CharClasses.ascii.Sound where
  ascii c h₁ h₂ := by
    simp only [CharClasses.ascii, Bool.and_eq_true, decide_eq_true_eq]
    exact ⟨h₁, h₂⟩
  letters c h := by
    have hs : 's'.toNat = 115 := rfl
    have he : 'e'.toNat = 101 := rfl
    simp only [letter, Bool.or_eq_true, Bool.and_eq_true, beq_iff_eq] at h
    simp only [CharClasses.ascii, Bool.and_eq_false_iff, decide_eq_false_iff_not]
    omega

/-- `heroes.s01e120.` -/
theorem episode_read : parseSeasonEpisode .ascii
    ([104, 101, 114, 111, 101, 115, 46] ++ (115 :: twoDigits 1 ++ 101 :: twoDigits 120) ++ [46]) = some (1, 120) :=
  (tag_roundtrip_iff ascii_sound (.inr rfl) (.inr rfl) (by decide) (by decide)).mpr
    (by decide)

/-- Of `S100E01`. -/
theorem hundredth_season : ¬parseSeasonEpisode .ascii
    ([] ++ (83 :: twoDigits 100 ++ 69 :: twoDigits 1) ++ []) = some (100, 1) := by
  decide

end Names

end FsCache
