import Mathlib.Algebra.BigOperators.Group.Finset.Piecewise
import FsCache.Lib.Sort
import FsCache.EvictPass

/- Passes of `evict_if_needed`, one after the other, and the files that are really there.

   A pass decides by the sum of the recorded sizes. A row whose file is gone keeps its part of
   that sum: `remove_file` fails on the file that is not there, and the pass leaves the row of
   a failed deletion where it is (`drop_stale`, next to it, takes the row of such a file).
   So the sum can be above the cap while the files are within it.

     1. `diskBytes`, `presentBytes`: the bytes of the files of a mount, and of all mounts.
     2. `sizeDeletions`: the states in which a pass deletes a file for size. All of these
        files are unexpired (`deletable_expiryPhase`): the expiry phase has been there before.
     3. `only_when_over_iff`: in every series of passes these states are over the cap,
        exactly if in each pass the files are over the cap wherever the sum is.
     4. `only_when_over_of_filed`: so they are where every row has its file.

   Given, beside what one pass needs: a file that is there has the size that its row says.

   Correspondence (Rust ↔ Lean):
     `total_cached_bytes_global`        ↔ `CacheDb.totalCachedBytesGlobal`
     `evict_if_needed`, its size phase  ↔ `Caches.evictIfNeeded`, `Caches.sizeDeletions` -/

namespace FsCache
open Lib Evictors

namespace CacheDir

def nodeBytes (dir : CacheDir) : Node → Nat
  | .file i => (dir.data i).length
  | .dir => 0

/-- The bytes of the files of a cache directory. -/
def diskBytes (dir : CacheDir) : Nat := (Map.total (fun _ n => (dir.nodeBytes n : Int)) dir.node).toNat

theorem diskBytes_remove {dir : CacheDir} {p : RelPath} {i : Nat} (h : dir.fileAt p = some i) :
    dir.diskBytes = (dir.data i).length + (removeFile dir p).diskBytes := by
  have hnode : dir.node.lookup p = some (.file i) := (Files.node_of_fileAt h).2
  have htotal := Map.total_erase (fun _ n => (dir.nodeBytes n : Int)) hnode
  have hrest : 0 ≤ Map.total (fun _ n => (dir.nodeBytes n : Int)) (dir.node.erase p) :=
    Map.total_nonneg fun _ _ _ => Int.natCast_nonneg _
  have hremoved : (removeFile dir p).diskBytes =
      (Map.total (fun _ n => (dir.nodeBytes n : Int)) (dir.node.erase p)).toNat := by
    unfold removeFile Files.remove
    split
    · next hnone => cases hnone.symm.trans h
    · rfl
  rw [hremoved, diskBytes, htotal]
  exact Int.toNat_add (Int.natCast_nonneg _) hrest

end CacheDir

namespace Caches

variable {mounts : Finset MountId}

/-- The bytes of the files that are there, of all mounts. -/
def presentBytes (mounts : Finset MountId) (s : Caches) : Nat := ∑ m ∈ mounts, (s.dirs m).diskBytes

/-- A file that is there has the size that is recorded. -/
def Recorded (s : Caches) : Prop :=
  ∀ p m row i, Canonical p → s.db.row p m = some row → (s.dirs m).fileAt p = some i →
    row.sizeBytes.toNat = ((s.dirs m).data i).length

/-- The states in which the loop over the candidates deletes a file. -/
def shrinkStates (cfg : EvictConfig) (mount : MountId) (fails : RelPath → Bool) :
    Nat → List (RelPath × Nat) → Caches → List Caches
  | _, [], _ => []
  | globalTotal, (relPath, size) :: rest, s =>
    if globalTotal ≤ cfg.maxSizeBytes then []
    else
      match s.evict mount fails relPath with
      | none => shrinkStates cfg mount fails globalTotal rest s
      | some s' => s :: shrinkStates cfg mount fails (globalTotal - size) rest s'

/-- The states in which the size phase deletes a file. -/
def sizeDeletions (cfg : EvictConfig) (mount : MountId) (fails : RelPath → Bool) (s : Caches) :
    List Caches :=
  if cfg.maxSizeBytes < s.db.totalCachedBytesGlobal then
    shrinkStates cfg mount fails s.db.totalCachedBytesGlobal (evictionCandidates s.db mount) s
  else []

end Caches

/-- One `evict_if_needed` of one of the mounts. -/
structure EvictionPass (mounts : Finset MountId) where
  mount : MountId
  known : mount ∈ mounts
  fails : RelPath → Bool
  now : Nat

namespace EvictionPass

variable {mounts : Finset MountId} (cfg : EvictConfig) (s : Caches) (a : EvictionPass mounts)

def step : Option Caches := some (s.evictIfNeeded cfg a.mount a.fails a.now)

/-- No file is deleted for size while those that are there fit. -/
def OnlyWhenOver : Prop :=
  ∀ s' ∈ (s.expiryPhase cfg a.mount a.fails a.now).sizeDeletions cfg a.mount a.fails,
    cfg.maxSizeBytes < s'.presentBytes mounts

/-- The expired files that can be deleted. -/
def expired : List (RelPath × Nat) :=
  if cfg.expirySecs a.mount = 0 then []
  else (expiredFiles s.db a.mount (cfg.expirySecs a.mount) a.now).filter fun e =>
    s.deletable a.mount a.fails e.1

/-- The others that can be deleted, the one that was hit longest ago first. -/
def unexpired : List (RelPath × Nat) :=
  (evictionCandidates s.db a.mount).filter fun e =>
    s.deletable a.mount a.fails e.1 && !isExpired cfg s.db a.mount e.1 a.now

/-- Without the expired files and without some of the oldest others, but not without all of
them, the files are over the cap if the sum is. -/
def TotalIsReal : Prop :=
  ∀ pre, pre <+: a.unexpired cfg s → pre ≠ a.unexpired cfg s →
    cfg.maxSizeBytes + bytesOf (a.expired cfg s) + bytesOf pre < s.db.totalCachedBytesGlobal →
      cfg.maxSizeBytes + bytesOf (a.expired cfg s) + bytesOf pre < s.presentBytes mounts

instance : Decidable (a.TotalIsReal cfg s) :=
  decidable_of_iff (∀ k < (a.unexpired cfg s).length,
      cfg.maxSizeBytes + bytesOf (a.expired cfg s) + bytesOf ((a.unexpired cfg s).take k) <
          s.db.totalCachedBytesGlobal →
        cfg.maxSizeBytes + bytesOf (a.expired cfg s) + bytesOf ((a.unexpired cfg s).take k) <
          s.presentBytes mounts) <| by
    constructor
    · intro h pre hpre hne
      rw [List.prefix_iff_eq_take.mp hpre]
      exact h pre.length (Nat.lt_of_le_of_ne hpre.length_le fun hlen => hne (hpre.eq_of_length hlen))
    · intro h k hk
      refine h _ (List.take_prefix k _) fun hwhole => ?_
      have hlen := congrArg List.length hwhole
      rw [List.length_take] at hlen
      omega

end EvictionPass

/-! ## The files that go -/

namespace Caches

variable {cfg : EvictConfig} {mounts : Finset MountId} {mount : MountId} {fails : RelPath → Bool} {now : Nat}
  {s : Caches} {l : List (RelPath × Nat)}

theorem data_drop (s : Caches) (l : List (RelPath × Nat)) (m : MountId) :
    ((s.drop mount l).dirs m).data = (s.dirs m).data := by
  by_cases hm : m = mount
  · subst hm
    rw [dirs_drop_self]
    exact (foldl_removeFile _ _).1
  · rw [dirs_drop_of_ne hm]

theorem recorded_drop (hr : s.Recorded) (l : List (RelPath × Nat)) : (s.drop mount l).Recorded := by
  intro p m row i hp hrow hfile
  rw [CacheDb.row, lookup_drop] at hrow
  rw [data_drop]
  split at hrow
  · cases hrow
  · refine hr p m row i hp hrow ?_
    by_cases hm : m = mount
    · subst hm
      rw [fileAt_drop] at hfile
      split at hfile
      · cases hfile
      · exact hfile
    · rwa [dirs_drop_of_ne hm] at hfile

/-- What is there loses what the rows had recorded. -/
theorem present_drop (hmount : mount ∈ mounts) (hr : s.Recorded) (hl : Tracked s.db mount l)
    (hfile : ∀ e ∈ l, ((s.dirs mount).fileAt e.1).isSome = true) :
    s.presentBytes mounts = bytesOf l + (s.drop mount l).presentBytes mounts := by
  induction l generalizing s with
  | nil => rw [drop_nil, bytesOf_nil, Nat.zero_add]
  | cons e l ih =>
    obtain ⟨i, hi⟩ := Option.isSome_iff_exists.mp (hfile e List.mem_cons_self)
    obtain ⟨hcanonical, row, hrow, hsize⟩ := hl.rows e List.mem_cons_self
    have hbytes : e.2 = ((s.dirs mount).data i).length :=
      hsize.symm.trans (hr e.1 mount row i hcanonical hrow hi)
    have hone : s.presentBytes mounts = e.2 + (s.drop mount [e]).presentBytes mounts := by
      have hself : ((s.drop mount [e]).dirs mount).diskBytes = (removeFile (s.dirs mount) e.1).diskBytes := by
        rw [dirs_drop_self]
        rfl
      rw [presentBytes, presentBytes, ← Finset.add_sum_erase mounts _ hmount,
        ← Finset.add_sum_erase mounts (fun m => ((s.drop mount [e]).dirs m).diskBytes) hmount, hself,
        CacheDir.diskBytes_remove hi, hbytes, Nat.add_assoc]
      refine congrArg _ (congrArg _ (Finset.sum_congr rfl fun m hm => ?_))
      rw [dirs_drop_of_ne (Finset.ne_of_mem_erase hm)]
    have hrest : ∀ e' ∈ l, (((s.drop mount [e]).dirs mount).fileAt e'.1).isSome = true := ?_
    · rw [hone, ih (recorded_drop hr [e]) hl.drop_head hrest, ← drop_cons e, bytesOf_cons, Nat.add_assoc]
    intro e' he'
    have hnodup := hl.nodup
    rw [List.map_cons, List.nodup_cons] at hnodup
    rw [fileAt_drop, if_neg]
    · exact hfile e' (List.mem_cons_of_mem e he')
    · intro hmem
      rw [List.map_singleton, List.mem_singleton] at hmem
      exact hnodup.1 (hmem ▸ List.mem_map_of_mem he')

/-! ## The rows that are left -/

theorem entries_drop (s : Caches) (l : List (RelPath × Nat)) :
    (s.drop mount l).db.cacheFiles.entries =
      s.db.cacheFiles.entries.filter fun x => ∀ e ∈ l, x.1 ≠ (rowKey e.1, mount) := by
  induction l generalizing s with
  | nil =>
    rw [drop_nil, List.filter_eq_self.mpr]
    exact fun _ _ => decide_eq_true fun _ he => absurd he List.not_mem_nil
  | cons e l ih =>
    have hone : (s.drop mount [e]).db.cacheFiles.entries =
        s.db.cacheFiles.entries.filter fun x => x.1 ≠ (rowKey e.1, mount) :=
      Map.entries_erase s.db.cacheFiles (rowKey e.1, mount)
    rw [drop_cons, ih, hone, List.filter_filter]
    refine List.filter_congr fun x _ => ?_
    rw [← Bool.decide_and, decide_eq_decide, List.forall_mem_cons, and_comm]

/-- The other candidates stay in their order. -/
theorem candidates_drop (hk : Keyed s.db) (l : List (RelPath × Nat)) (hl : ∀ e ∈ l, Canonical e.1) :
    evictionCandidates (s.drop mount l).db mount =
      (evictionCandidates s.db mount).filter fun e => e.1 ∉ l.map Prod.fst := by
  rw [evictionCandidates, evictionCandidates, entries_drop, List.filter_map, filter_insertionSort,
    List.filter_filter, List.filter_filter]
  refine congrArg _ (congrArg _ (List.filter_congr fun x hx => ?_))
  rw [Function.comp_apply, ← Bool.decide_and, ← Bool.decide_and, decide_eq_decide]
  obtain ⟨q, hq⟩ := hk x.1 x.2 (AList.mem_lookup_iff.mpr hx)
  have hkey : rowKey (pathOfKey x.1.1) = x.1.1 := by rw [hq, rowKey_pathOfKey_rowKey]
  constructor
  · intro h
    obtain ⟨hm, hall⟩ := h
    refine ⟨fun hmem => ?_, hm⟩
    obtain ⟨e, he, hpath⟩ := List.mem_map.mp hmem
    exact hall e he (Prod.ext (by rw [hpath, hkey]) hm)
  · intro h
    obtain ⟨hout, hm⟩ := h
    refine ⟨hm, fun e he hsame => hout ?_⟩
    have hpath : pathOfKey x.1.1 = e.1 := by rw [hsame, hl e he]
    exact List.mem_map.mpr ⟨e, he, hpath.symm⟩

end Caches

/-! ## What a pass deletes for size -/

namespace EvictionPass

variable {cfg : EvictConfig} {mounts : Finset MountId} {s : Caches} {a : EvictionPass mounts}

theorem mem_expired_iff (hk : Keyed s.db) {p : RelPath} (hp : Canonical p) :
    p ∈ (a.expired cfg s).map Prod.fst ↔
      s.deletable a.mount a.fails p = true ∧ isExpired cfg s.db a.mount p a.now = true := by
  rw [expired, isExpired, Bool.and_eq_true, decide_eq_true_eq, Option.any_eq_true]
  split
  · next hzero => exact iff_of_false List.not_mem_nil fun h => h.2.1 hzero
  · next hnonzero =>
    constructor
    · intro hmem
      obtain ⟨e, he, rfl⟩ := List.mem_map.mp hmem
      obtain ⟨he, hdeletable⟩ := List.mem_filter.mp he
      exact ⟨hdeletable, hnonzero, (Caches.mem_expiredFiles_iff hk hp).mp (List.mem_map_of_mem he)⟩
    · intro h
      obtain ⟨hdeletable, -, hexpired⟩ := h
      obtain ⟨e, he, rfl⟩ := List.mem_map.mp ((Caches.mem_expiredFiles_iff hk hp).mpr hexpired)
      exact List.mem_map_of_mem (List.mem_filter.mpr ⟨he, hdeletable⟩)

theorem tracked_expired (hk : Keyed s.db) : Caches.Tracked s.db a.mount (a.expired cfg s) := by
  rw [expired]
  split
  · exact ⟨List.nodup_nil, fun _ he => absurd he List.not_mem_nil⟩
  · exact (Caches.tracked_expired hk a.mount _ a.now).sublist List.filter_sublist

theorem isSome_expired {e : RelPath × Nat} (he : e ∈ a.expired cfg s) :
    ((s.dirs a.mount).fileAt e.1).isSome = true := by
  unfold expired at he
  split at he
  · exact absurd he List.not_mem_nil
  · exact Caches.isSome_of_deletable (List.mem_filter.mp he).2

theorem expiryPhase_eq_drop (hk : Keyed s.db) :
    s.expiryPhase cfg a.mount a.fails a.now = s.drop a.mount (a.expired cfg s) := by
  rw [Caches.expiryPhase, expired]
  split
  · exact Caches.drop_nil.symm
  · exact Caches.expire_eq (Caches.tracked_expired hk a.mount _ a.now).nodup

/-- After the expiry phase, what can be deleted is what is unexpired. -/
theorem deletable_expiryPhase (hk : Keyed s.db) :
    ((evictionCandidates (s.expiryPhase cfg a.mount a.fails a.now).db a.mount).filter fun e =>
      (s.expiryPhase cfg a.mount a.fails a.now).deletable a.mount a.fails e.1) = a.unexpired cfg s := by
  rw [expiryPhase_eq_drop hk, Caches.candidates_drop hk _ fun e he => ((tracked_expired hk).rows e he).1,
    List.filter_filter, unexpired]
  refine List.filter_congr fun e he => ?_
  have hmem : e.1 ∈ (a.expired cfg s).map Prod.fst ↔ _ := mem_expired_iff hk (hasRow_of_candidate hk he).1
  rw [Caches.deletable, Caches.fileAt_drop]
  by_cases hin : e.1 ∈ (a.expired cfg s).map Prod.fst
  · simp [hin, (hmem.mp hin).2]
  · rw [if_neg hin, decide_eq_true hin, Bool.and_true, ← Caches.deletable]
    cases hdeletable : s.deletable a.mount a.fails e.1 with
    | false => rfl
    | true =>
      have hunexpired : isExpired cfg s.db a.mount e.1 a.now = false :=
        Bool.eq_false_iff.mpr fun hexpired => hin (hmem.mpr ⟨hdeletable, hexpired⟩)
      rw [hunexpired]
      rfl

/-- The loop deletes a file once each initial part of what it deletes is gone, but the whole. -/
theorem mem_shrinkStates_iff {mount : MountId} {fails : RelPath → Bool} {s' : Caches} (total freed : Nat)
    {l : List (RelPath × Nat)} (h : (l.map Prod.fst).Nodup) :
    s' ∈ Caches.shrinkStates cfg mount fails (total - freed) l s ↔
      ∃ pre, pre <+: deletedToFit (total - cfg.maxSizeBytes) freed
          (l.filter fun e => s.deletable mount fails e.1) ∧
        pre ≠ deletedToFit (total - cfg.maxSizeBytes) freed
          (l.filter fun e => s.deletable mount fails e.1) ∧
        s' = s.drop mount pre := by
  induction l generalizing s freed with
  | nil =>
    refine iff_of_false List.not_mem_nil fun h => ?_
    obtain ⟨pre, hpre, hne, -⟩ := h
    exact hne (List.prefix_nil.mp hpre)
  | cons e rest ih =>
    rw [List.map_cons, List.nodup_cons] at h
    rw [Caches.shrinkStates, Caches.evict_eq, List.filter_cons]
    by_cases hmet : total - cfg.maxSizeBytes ≤ freed
    · rw [if_pos (by omega), deletedToFit_of_le hmet]
      refine iff_of_false List.not_mem_nil fun h => ?_
      obtain ⟨pre, hpre, hne, -⟩ := h
      exact hne (List.prefix_nil.mp hpre)
    · rw [if_neg (by omega)]
      by_cases hd : s.deletable mount fails e.1 = true
      · rw [if_pos hd, if_pos hd, deletedToFit, if_neg hmet]
        simp only [Nat.sub_sub]
        rw [List.mem_cons, ih (freed + e.2) h.2, Caches.filter_deletable_drop h.1]
        constructor
        · intro h
          obtain rfl | ⟨pre, hpre, hne, rfl⟩ := h
          · exact ⟨[], List.nil_prefix, List.cons_ne_nil _ _ ∘ Eq.symm, Caches.drop_nil.symm⟩
          · refine ⟨e :: pre, List.cons_prefix_cons.mpr ⟨rfl, hpre⟩, fun h => hne (List.cons.inj h).2, ?_⟩
            exact (Caches.drop_cons e).symm
        · intro h
          obtain ⟨pre, hpre, hne, rfl⟩ := h
          cases pre with
          | nil => exact .inl Caches.drop_nil
          | cons x pre =>
            obtain ⟨rfl, hpre⟩ := List.cons_prefix_cons.mp hpre
            exact .inr ⟨pre, hpre, fun h => hne (by rw [h]), Caches.drop_cons x⟩
      · rw [if_neg hd, if_neg hd]
        exact ih freed h.2

theorem mem_sizeDeletions_iff {mount : MountId} {fails : RelPath → Bool} {s' : Caches} (hk : Keyed s.db) :
    s' ∈ s.sizeDeletions cfg mount fails ↔
      ∃ pre, pre <+: s.oldest mount fails cfg.maxSizeBytes ∧ pre ≠ s.oldest mount fails cfg.maxSizeBytes ∧
        s' = s.drop mount pre := by
  unfold Caches.sizeDeletions
  split
  · exact mem_shrinkStates_iff s.db.totalCachedBytesGlobal 0 (nodup_candidates hk)
  · next hfits =>
    rw [Caches.oldest_of_le (Nat.not_lt.mp hfits)]
    refine iff_of_false List.not_mem_nil fun h => ?_
    obtain ⟨pre, hpre, hne, -⟩ := h
    exact hne (List.prefix_nil.mp hpre)

/-- What a series of passes keeps. -/
structure Tallied (s : Caches) : Prop where
  sized : s.db.Sized
  keyed : Keyed s.db
  recorded : s.Recorded

theorem Tallied.drop (h : Tallied s) {mount : MountId} (l : List (RelPath × Nat)) : Tallied (s.drop mount l) :=
  ⟨Caches.sized_drop h.sized l, Caches.keyed_drop h.keyed l, Caches.recorded_drop h.recorded l⟩

theorem Tallied.step (h : Tallied s) {s' : Caches} (hs : step cfg s a = some s') : Tallied s' := by
  obtain rfl := Option.some.inj hs
  have hexpired : Tallied (s.expiryPhase cfg a.mount a.fails a.now) := by
    rw [expiryPhase_eq_drop h.keyed]
    exact h.drop _
  rw [Caches.evictIfNeeded, Caches.sizePhase_eq hexpired.keyed]
  exact hexpired.drop _

theorem onlyWhenOver_iff (h : Tallied s) : OnlyWhenOver cfg s a ↔ TotalIsReal cfg s a := by
  have htracked : Caches.Tracked s.db a.mount (a.expired cfg s) := tracked_expired h.keyed
  have htotal := Caches.total_drop h.sized htracked
  have hpresent := Caches.present_drop a.known h.recorded htracked fun e => isSome_expired
  have hdeletable : _ = a.unexpired cfg s := deletable_expiryPhase h.keyed
  have h₁ : Tallied (s.expiryPhase cfg a.mount a.fails a.now) := by
    rw [expiryPhase_eq_drop h.keyed]
    exact h.drop _
  rw [← expiryPhase_eq_drop h.keyed] at htotal hpresent
  rw [OnlyWhenOver, TotalIsReal, htotal, hpresent, ← hdeletable]
  generalize s.expiryPhase cfg a.mount a.fails a.now = s₁ at h₁ ⊢
  obtain ⟨hinitial, henough, hshort⟩ := deletedToFit_spec (s₁.db.totalCachedBytesGlobal - cfg.maxSizeBytes) 0
    ((evictionCandidates s₁.db a.mount).filter fun e => s₁.deletable a.mount a.fails e.1)
  -- without an initial part of them, the sum and the files have lost the same
  have hdrop : ∀ pre, pre <+: (evictionCandidates s₁.db a.mount).filter
        (fun e => s₁.deletable a.mount a.fails e.1) →
      s₁.db.totalCachedBytesGlobal = bytesOf pre + (s₁.drop a.mount pre).db.totalCachedBytesGlobal ∧
      s₁.presentBytes mounts = bytesOf pre + (s₁.drop a.mount pre).presentBytes mounts := by
    intro pre hpre
    have hpart : Caches.Tracked s₁.db a.mount pre :=
      (Caches.tracked_candidates h₁.keyed a.mount).sublist (hpre.sublist.trans List.filter_sublist)
    exact ⟨Caches.total_drop h₁.sized hpart, Caches.present_drop a.known h₁.recorded hpart fun e he =>
      Caches.isSome_of_deletable (List.mem_filter.mp (hpre.subset he)).2⟩
  constructor
  · intro hall pre hpre hne hover
    -- what is deleted in the end is enough, and `pre` is not
    have hmore : ¬ s₁.oldest a.mount a.fails cfg.maxSizeBytes <+: pre := by
      intro hall
      have hle := bytesOf_le_of_prefix hall
      rcases henough with hmet | hwhole
      · rw [Caches.oldest] at hle
        omega
      · rw [Caches.oldest, hwhole] at hall
        exact hne (hpre.eq_of_length_le hall.length_le)
    have hproper : pre <+: s₁.oldest a.mount a.fails cfg.maxSizeBytes :=
      (List.prefix_or_prefix_of_prefix hpre hinitial).resolve_right hmore
    have hdeletes := hall _ ((mem_sizeDeletions_iff h₁.keyed).mpr
      ⟨pre, hproper, fun hsame => hmore (hsame ▸ List.prefix_rfl), rfl⟩)
    have hpart := (hdrop pre hpre).2
    omega
  · intro hall s' hs'
    obtain ⟨pre, hpre, hne, rfl⟩ := (mem_sizeDeletions_iff h₁.keyed).mp hs'
    have hover := hshort pre hpre hne
    have hpart := (hdrop pre (hpre.trans hinitial)).2
    have hlt := hall pre (hpre.trans hinitial)
      (fun hwhole => hne (hpre.eq_of_length_le (hwhole ▸ hinitial.length_le))) (by omega)
    omega

/-- In every series of passes, no unexpired file is deleted for size while the files fit, exactly if in
each pass the sum is over the cap only where the files are. -/
theorem only_when_over_iff (cfg : EvictConfig) (h : Tallied s) (as : List (EvictionPass mounts)) :
    Along (step cfg) (OnlyWhenOver cfg) s as ↔ Along (step cfg) (TotalIsReal cfg) s as :=
  along_congr Tallied (fun _ _ _ hi _ hs => hi.step hs) (fun _ _ hi => onlyWhenOver_iff hi) h

/-! ## Where every row has its file -/

/-- Every row is of one of the mounts, and its file is there. -/
def Filed (mounts : Finset MountId) (s : Caches) : Prop :=
  ∀ key row, s.db.cacheFiles.lookup key = some row →
    key.2 ∈ mounts ∧ ((s.dirs key.2).fileAt (pathOfKey key.1)).isSome = true

theorem Filed.drop (hf : Filed mounts s) (hk : Keyed s.db) (mount : MountId) (l : List (RelPath × Nat)) :
    Filed mounts (s.drop mount l) := by
  intro key row hrow
  obtain ⟨k, m⟩ := key
  rw [Caches.lookup_drop] at hrow
  split at hrow
  · cases hrow
  · next hother =>
    obtain ⟨hm, hfile⟩ := hf (k, m) row hrow
    refine ⟨hm, ?_⟩
    by_cases hsame : m = mount
    · subst hsame
      rw [Caches.fileAt_drop, if_neg]
      · exact hfile
      · intro hmem
        obtain ⟨e, he, hpath⟩ := List.mem_map.mp hmem
        obtain ⟨q, rfl⟩ : ∃ q, k = rowKey q := hk (k, m) row hrow
        exact hother ⟨rfl, e, he, by rw [hpath, rowKey_pathOfKey_rowKey]⟩
    · rw [Caches.dirs_drop_of_ne hsame]
      exact hfile

/-- Then the sum is not above the files. -/
theorem Filed.total_le (hf : Filed mounts s) (h : Tallied s) :
    s.db.totalCachedBytesGlobal ≤ s.presentBytes mounts := by
  -- by the number of rows, taking a row and its file away
  induction hn : s.db.cacheFiles.entries.length using Nat.strong_induction_on generalizing s with
  | h n ih =>
    cases hentries : s.db.cacheFiles.entries with
    | nil =>
      rw [CacheDb.totalCachedBytesGlobal, Map.total, hentries]
      exact Nat.zero_le _
    | cons x rest =>
      have hx : x ∈ s.db.cacheFiles.entries := hentries ▸ List.mem_cons_self
      obtain ⟨hmount, hfile⟩ := hf x.1 x.2 (AList.mem_lookup_iff.mpr hx)
      have hl : Caches.Tracked s.db x.1.2 [(pathOfKey x.1.1, x.2.sizeBytes.toNat)] :=
        ⟨List.nodup_singleton _, fun e he => List.mem_singleton.mp he ▸ hasRow_of_entry h.keyed hx rfl⟩
      have htotal := Caches.total_drop h.sized hl
      have hpresent := Caches.present_drop hmount h.recorded hl fun e he => List.mem_singleton.mp he ▸ hfile
      have hfewer : (s.drop x.1.2 [(pathOfKey x.1.1, x.2.sizeBytes.toNat)]).db.cacheFiles.entries.length < n := by
        rw [Caches.entries_drop, ← hn]
        refine List.length_filter_lt_length_iff_exists.mpr ⟨x, hx, ?_⟩
        obtain ⟨q, hq⟩ := h.keyed x.1 x.2 (AList.mem_lookup_iff.mpr hx)
        have hkey : x.1 = (rowKey (pathOfKey x.1.1), x.1.2) := Prod.ext (by rw [hq, rowKey_pathOfKey_rowKey]) rfl
        simpa using hkey
      have hle := ih _ hfewer (hf.drop h.keyed _ _) (h.drop _) rfl
      omega

theorem Filed.step (hf : Filed mounts s) (h : Tallied s) {s' : Caches} (hs : step cfg s a = some s') :
    Filed mounts s' := by
  obtain rfl := Option.some.inj hs
  rw [Caches.evictIfNeeded, expiryPhase_eq_drop h.keyed, Caches.sizePhase_eq (h.drop _).keyed]
  exact (hf.drop h.keyed _ _).drop (h.drop _).keyed _ _

/-- So no series of passes deletes for size while the files fit. -/
theorem only_when_over_of_filed (cfg : EvictConfig) (h : Tallied s) (hf : Filed mounts s)
    (as : List (EvictionPass mounts)) : Along (step cfg) (OnlyWhenOver cfg) s as := by
  induction as generalizing s with
  | nil => trivial
  | cons a as ih =>
    refine ⟨(onlyWhenOver_iff h).mpr fun pre _ _ hover => ?_, fun s' hs => ih (h.step hs) (hf.step h hs)⟩
    exact Nat.lt_of_lt_of_le hover (hf.total_le h)

section Ghost

private def stage : MountId := [109]
private def opera : RelPath := [⟨[111], Eq.refl true⟩]
private def ballet : RelPath := [⟨[98], Eq.refl true⟩]

/-- Files of six and of five bytes, the smaller one hit last. -/
private def playbill : CacheDb :=
  (CacheDb.markCached ⟨∅, ∅⟩ opera stage ⟨6, 1, 1, 0, 1, 0, 1, 0, 0o100644, 1, 0, 0, 0, 4096⟩ 1).markCached
    ballet stage ⟨5, 1, 1, 0, 1, 0, 1, 0, 0o100644, 1, 0, 0, 0, 4096⟩ 2

private def filed (dir : CacheDir) (p : RelPath) (size : Nat) : CacheDir :=
  match dir.openTrunc p with
  | none => dir
  | some (dir, i) => dir.writeAt zeroByte i 0 (written 1 (List.replicate size 0))

private def bothThere : Caches := ⟨playbill, fun _ => filed (filed Files.empty opera 6) ballet 5⟩

/-- `opera` has disappeared, its row has not. -/
private def operaGone : Caches := ⟨playbill, fun _ => filed Files.empty ballet 5⟩

private def tenBytes : EvictConfig := ⟨10, fun _ => 0⟩

private def onePass : EvictionPass {stage} := ⟨stage, by decide, fun _ => false, 9⟩

private theorem tallied_playbill (dir : CacheDir)
    (h : ∀ x ∈ playbill.cacheFiles.entries, ∀ p ∈ filesOf dir, x.1.1 = rowKey p →
      some x.2.sizeBytes.toNat = (dir.fileAt p).map fun i => (dir.data i).length) :
    Tallied ⟨playbill, fun _ => dir⟩ where
  sized := by
    refine CacheDb.sized_markCached (CacheDb.sized_markCached ?_ (by decide) 1) (by decide) 2
    intro key row hrow
    exact absurd hrow (by simp)
  keyed := by
    have hkeys : ∀ key ∈ playbill.cacheFiles.keys, key.1 = rowKey opera ∨ key.1 = rowKey ballet := by decide
    intro key row hrow
    obtain hkey | hkey := hkeys key (Map.mem_keys_iff.mpr ⟨row, hrow⟩)
    · exact ⟨opera, hkey⟩
    · exact ⟨ballet, hkey⟩
  recorded := by
    intro p m row i _ hrow hfile
    have hsize := h ⟨(rowKey p, m), row⟩ (AList.mem_lookup_iff.mp hrow) p (mem_filesOf.mpr ⟨i, hfile⟩) rfl
    rw [hfile] at hsize
    exact Option.some.inj hsize

/-- Eleven bytes are there and recorded: the older file is deleted, twice the pass runs. -/
theorem bothThere_over : Along (step tenBytes) (OnlyWhenOver tenBytes) bothThere [onePass, onePass] := by
  exact (only_when_over_iff tenBytes (tallied_playbill _ (by decide)) [onePass, onePass]).mpr (by decide)

/-- Five bytes are there, and eleven recorded: `ballet` is deleted, and it is all there is. -/
theorem ghost_evicts : Tallied operaGone ∧ operaGone.presentBytes {stage} = 5 ∧
    onePass.unexpired tenBytes operaGone = [(ballet, 5)] ∧
    ¬ Along (step tenBytes) (OnlyWhenOver tenBytes) operaGone [onePass] := by
  refine ⟨tallied_playbill _ (by decide), by decide, by decide, fun h => ?_⟩
  have hreal := (onlyWhenOver_iff (tallied_playbill _ (by decide))).mp h.1
  exact absurd hreal (by decide)

end Ghost

end EvictionPass

end FsCache
