import FsCache.CopySound
import FsCache.Startup

/- What `is_stale` answers for a row that `mark_cached` has written (cache/manager.rs, cache/db.rs).

   From then on statements of other tasks come in between. A hit, a startup and whatever is done
   to other rows leave the fingerprint as it is; an `update_source_metadata` of the row gives it
   another time. `verdict_exact_iff` says for which metadata the answer to every later stat of
   the path is what a comparison of time and size with it would say.

   A time of zero is what the columns of a row get that were added by a migration, and `is_stale`
   looks for it before it compares: `epoch_backfilled` is a copy of a file of that time.

   Correspondence (Rust ↔ Lean):
     the statements on `cache_files`        ↔ `RowStatement`, `CacheDb.execute`
     `reconcile_with_disk`                  ↔ `RowStatement.reconcile`
     `is_stale`, `content_matches`          ↔ `isStale`, `contentMatches` -/

namespace FsCache
open Lib

/-- A statement on the rows of `cache_files`; `reconcile` stands for those of a startup. -/
inductive RowStatement where
  | markCached (q : RelPath) (m : MountId) (source : SourceMetadata) (now : Nat)
  | updateSourceMetadata (q : RelPath) (m : MountId) (source : SourceMetadata)
  | markHit (q : RelPath) (m : MountId) (now : Nat)
  | remove (q : RelPath) (m : MountId)
  | reconcile (dir : CacheDir) (m : MountId) (now : Nat)

def CacheDb.execute (db : CacheDb) : RowStatement → CacheDb
  | .markCached q m source now => db.markCached q m source now
  | .updateSourceMetadata q m source => db.updateSourceMetadata q m source
  | .markHit q m now => db.markHit q m now
  | .remove q m => db.remove q m
  | .reconcile dir m now => (reconcileWithDisk dir db m now).2

/-- The row of `p` is neither written anew nor removed. -/
def RowStatement.Spares (mount : MountId) (p : RelPath) : RowStatement → Prop
  | .markCached q m _ _ | .remove q m => rowKey q = rowKey p → m ≠ mount
  | .reconcile dir m _ =>
    m = mount → ((removePartials dir).lookup (pathOfKey (rowKey p))).isSome = true
  | .updateSourceMetadata .. | .markHit .. => True

instance (mount : MountId) (p : RelPath) : (c : RowStatement) → Decidable (c.Spares mount p)
  | .markCached .. | .remove .. => inferInstanceAs (Decidable (_ → _))
  | .reconcile .. => inferInstanceAs (Decidable (_ → _))
  | .updateSourceMetadata .. | .markHit .. => isTrue trivial

/-- Where the row of `p` has its time from after the statement; `source` is where it had it from. -/
def RowStatement.timed (mount : MountId) (p : RelPath) (source : SourceMetadata) :
    RowStatement → SourceMetadata
  | .updateSourceMetadata q m live => if rowKey q = rowKey p ∧ m = mount then live else source
  | _ => source

def SourceMetadata.mtime (m : SourceMetadata) : Int × Int := (m.mtimeSec, m.mtimeNsec)

def IsI64 (i : Int) : Prop := -2^63 ≤ i ∧ i < 2^63

instance (i : Int) : Decidable (IsI64 i) := inferInstanceAs (Decidable (_ ∧ _))

/-- Whatever a stat of the path says, the verdict is that of a comparison with `source`. -/
def ExactFor (source : SourceMetadata) (verdict : Option Stat → StaleResult) : Prop :=
  ∀ live : Option Stat, (∀ st ∈ live, IsI64 st.stSize) →
    ((∃ st, verdict live = .fresh st) ↔ live.map Stat.version = some source.version) ∧
    (verdict live = .stale ↔ ∃ st ∈ live, st.version ≠ source.version) ∧
    ∀ st, verdict live ≠ .needsBackfill st

/-! ## The row after the statements -/

section Rows

variable {db : CacheDb} {mount : MountId} {p : RelPath} {source timed : SourceMetadata}

/-- The size is that of `source`, the time that of `timed`. -/
def CacheDb.Carries (db : CacheDb) (mount : MountId) (p : RelPath) (source timed : SourceMetadata) : Prop :=
  db.fingerprintRow p mount = some ⟨timed.mtimeSec, timed.mtimeNsec, source.size⟩

theorem carries_of_row {db' : CacheDb} (h : db.Carries mount p source timed)
    (hrow : db'.row p mount = db.row p mount) : db'.Carries mount p source timed := by
  rw [CacheDb.Carries, CacheDb.fingerprintRow, hrow]
  exact h

theorem carries_markCached (hsize : source.size < 2^63) (now : Nat) :
    (db.markCached p mount source now).Carries mount p source source := by
  rw [CacheDb.Carries, CacheDb.fingerprintRow, CacheDb.row_markCached, if_pos rfl, Option.map_some]
  simp only [Row.cached, Row.fingerprint, asI64_of_lt hsize, Int.toNat_natCast]

/-- The place of a row of another key, or of another mount. -/
theorem place_ne {q : RelPath} {m : MountId} (h : ¬ (rowKey q = rowKey p ∧ m = mount)) :
    (rowKey p, mount) ≠ (rowKey q, m) := by
  intro hplace
  obtain ⟨hq, hm⟩ := Prod.mk.inj hplace
  exact h ⟨hq.symm, hm.symm⟩

theorem row_updateRow_of_ne {q : RelPath} {m : MountId} (f : Row → Row)
    (h : ¬ (rowKey q = rowKey p ∧ m = mount)) : (db.updateRow q m f).row p mount = db.row p mount := by
  unfold CacheDb.updateRow
  cases hrow : db.row q m with
  | none => rfl
  | some row =>
    rw [CacheDb.row, Map.lookup_insert_if, if_neg (place_ne h), CacheDb.row]

theorem row_reconcile_of_stays {dir : CacheDir} {now : Nat} {row : Row} (hrow : db.row p mount = some row)
    (hthere : ((removePartials dir).lookup (pathOfKey (rowKey p))).isSome = true) :
    (reconcileWithDisk dir db mount now).2.row p mount = some row := by
  refine lookup_foldl_insertRecovered_of_some _ ?_
  refine (row_removeOrphans (removePartials dir) db mount p).trans ?_
  rw [if_neg (by rw [Option.isNone_iff_eq_none]; exact Option.isSome_iff_ne_none.mp hthere), hrow]

/-- What a statement that spares the row does to it. -/
theorem carries_execute {c : RowStatement} (hspares : c.Spares mount p) (h : db.Carries mount p source timed) :
    (db.execute c).Carries mount p source (c.timed mount p timed) := by
  obtain ⟨row, hrow, hfp⟩ := Option.map_eq_some_iff.mp h
  cases c with
  | markCached q m live now =>
    refine carries_of_row h ?_
    rw [CacheDb.row, CacheDb.execute, CacheDb.markCached, Map.lookup_insert_if,
      if_neg (place_ne (not_and.mpr hspares)), CacheDb.row]
  | updateSourceMetadata q m live =>
    rw [RowStatement.timed]
    split
    · next hkey =>
      -- the time is the statement's, the size is left
      rw [CacheDb.Carries, CacheDb.fingerprintRow, CacheDb.execute, CacheDb.updateSourceMetadata, hkey.2,
        CacheDb.row_updateRow, if_pos hkey.1.symm, CacheDb.row, hkey.1, ← CacheDb.row, hrow]
      have hsize : row.fingerprint.sizeBytes = source.size := congrArg Fingerprint.sizeBytes hfp
      rw [← hsize]
      rfl
    · next hkey => exact carries_of_row h (row_updateRow_of_ne _ hkey)
  | markHit q m now =>
    by_cases hkey : rowKey q = rowKey p ∧ m = mount
    · obtain ⟨-, rfl⟩ := hkey
      exact (CacheDb.fingerprintRow_markHit now).trans h
    · exact carries_of_row h (row_updateRow_of_ne _ hkey)
  | remove q m =>
    refine carries_of_row h ?_
    rw [CacheDb.row, CacheDb.execute, CacheDb.remove, Map.lookup_erase_if,
      if_neg (place_ne (not_and.mpr hspares)), CacheDb.row]
  | reconcile dir m now =>
    refine carries_of_row h ?_
    by_cases hm : m = mount
    · subst hm
      exact (row_reconcile_of_stays hrow (hspares rfl)).trans hrow.symm
    · refine (lookup_foldl_insertRecovered_of_ne (Ne.symm hm) _ _ _).trans ?_
      exact lookup_removeOrphans_of_ne (Ne.symm hm) _

theorem carries_foldl (cs : List RowStatement) (hspares : ∀ c ∈ cs, c.Spares mount p)
    (h : db.Carries mount p source timed) :
    (cs.foldl CacheDb.execute db).Carries mount p source (cs.foldl (RowStatement.timed mount p) timed) := by
  induction cs generalizing db timed with
  | nil => exact h
  | cons c cs ih =>
    exact ih (fun c' hc' => hspares c' (List.mem_cons_of_mem c hc'))
      (carries_execute (hspares c List.mem_cons_self) h)

/-- A `refresh_source_metadata` with nothing in between gives the row no other time. -/
theorem refresh_keeps_time (live : Stat) :
    refreshSourceMetadata db mount p live = db ∨
      refreshSourceMetadata db mount p live =
          db.execute (.updateSourceMetadata p mount (SourceMetadata.fromStat live)) ∧
        ∃ fp, db.fingerprintRow p mount = some fp ∧
          (SourceMetadata.fromStat live).mtime = (fp.sourceMtimeSecs, fp.sourceMtimeNsecs) := by
  cases hlook : refreshStep db mount p (.readFingerprint live) with
  | mk db₁ pc₁ =>
    cases refreshMove_of_step hlook with
    | stop =>
      rw [refreshSourceMetadata, hlook]
      exact .inl rfl
    | agree hfp _ hmatch =>
      cases hread : refreshStep db mount p (.readAttrs live) with
      | mk db₂ pc₂ =>
        rw [refreshSourceMetadata, hlook]
        simp only [hread]
        cases refreshMove_of_step hread with
        | stop => exact .inl rfl
        | differs =>
          simp only [contentMatches, Bool.and_eq_true, beq_iff_eq] at hmatch
          exact .inr ⟨rfl, _, hfp, Prod.ext hmatch.1.1.symm hmatch.1.2.symm⟩

end Rows

/-! ## The verdict -/

section Verdict

/-- A negative `i64` is no length once it is a `u64`. -/
theorem le_asU64_of_neg {i : Int} (hmin : -2^63 ≤ i) (hneg : i < 0) : 2^63 ≤ asU64 i := by
  rw [asU64, BitVec.toNat_ofInt]
  have hmod : i % ((2^64 : Nat) : Int) = i + 2^64 := by omega
  rw [hmod]
  omega

/-- `content_matches` over the whole range of `st_size`. -/
theorem contentMatches_iff_version {fp : Fingerprint} {live : Stat} (hfp : fp.sizeBytes < 2^63)
    (hlive : IsI64 live.stSize) : contentMatches fp live = true ↔ fp.version = live.version := by
  obtain h0 | hneg := le_or_gt 0 live.stSize
  · exact contentMatches_iff h0 hlive.2
  · have hbig := le_asU64_of_neg hlive.1 hneg
    refine iff_of_false (fun h => ?_) fun h => ?_
    · simp only [contentMatches, Bool.and_eq_true, beq_iff_eq] at h
      omega
    · have hsize : (fp.sizeBytes : Int) = live.stSize := congrArg Version.size h
      omega

/-- A stat that says just this. -/
def statOf (v : Version) : Stat :=
  { stSize := v.size, stBlocks := 8, stAtime := v.mtimeSec, stAtimeNsec := v.mtimeNsec,
    stMtime := v.mtimeSec, stMtimeNsec := v.mtimeNsec, stCtime := v.mtimeSec, stCtimeNsec := v.mtimeNsec,
    stMode := 0o100644, stNlink := 1, stUid := 0, stGid := 0, stRdev := 0, stBlksize := 4096 }

theorem exactFor_iff {source : SourceMetadata} {fp : Fingerprint} (hsource : source.size < 2^63)
    (hfp : fp.sizeBytes < 2^63) :
    ExactFor source (fun live => isStaleWithFingerprint live fp) ↔
      fp.isZero = false ∧ fp.version = source.version := by
  constructor
  · intro h
    -- asked of a stat that agrees with the metadata
    have hstat : (statOf source.version).version = source.version := rfl
    have hi64 : IsI64 (statOf source.version).stSize := by
      have hsize : (statOf source.version).stSize = source.size := rfl
      rw [IsI64, hsize]
      omega
    obtain ⟨hfresh, -, -⟩ := h (some (statOf source.version)) fun st hst => by
      rwa [← Option.some.inj hst]
    obtain ⟨st, hst⟩ := hfresh.mpr (congrArg some hstat)
    obtain ⟨hlive, hzero, hmatch⟩ := isStaleWithFingerprint_fresh_iff.mp hst
    obtain rfl := Option.some.inj hlive
    refine ⟨hzero, ((contentMatches_iff_version hfp ?_).mp hmatch).trans hstat⟩
    exact hi64
  · intro h live hlive
    obtain ⟨hzero, hver⟩ := h
    cases live with
    | none => simp [isStaleWithFingerprint]
    | some st =>
      have hmatch := contentMatches_iff_version hfp (hlive st rfl)
      rw [hver] at hmatch
      simp only [isStaleWithFingerprint, hzero, Bool.false_eq_true, if_false]
      by_cases heq : contentMatches fp st = true
      · simp [heq, (hmatch.mp heq).symm]
      · have hne : st.version ≠ source.version := fun e => heq (hmatch.mpr e.symm)
        simp [heq, hne]

theorem isZero_iff {time : SourceMetadata} {n : Nat} :
    Fingerprint.isZero ⟨time.mtimeSec, time.mtimeNsec, n⟩ = true ↔ time.mtime = (0, 0) := by
  rw [Fingerprint.isZero, Bool.and_eq_true, beq_iff_eq, beq_iff_eq, SourceMetadata.mtime, Prod.mk.injEq]

/-- Of one size, it is the times that have to agree. -/
theorem version_eq_iff {source time : SourceMetadata} :
    Fingerprint.version ⟨time.mtimeSec, time.mtimeNsec, source.size⟩ = source.version ↔
      time.mtime = source.mtime := by
  simp only [Fingerprint.version, SourceMetadata.version, SourceMetadata.mtime, Version.mk.injEq, Prod.mk.injEq,
    and_true]

/-- Whatever statements come after the `mark_cached` that leave the row there, the verdicts on the
path are exact if and only if the time in the row is still that of the metadata, and is not zero. -/
theorem verdict_exact_iff {db : CacheDb} {mount : MountId} {p : RelPath} {source : SourceMetadata}
    {cs : List RowStatement} (hsource : source.size < 2^63) (hspares : ∀ c ∈ cs, c.Spares mount p) (now : Nat) :
    ExactFor source (isStale (cs.foldl CacheDb.execute (db.markCached p mount source now)) mount p) ↔
      (cs.foldl (RowStatement.timed mount p) source).mtime = source.mtime ∧ source.mtime ≠ (0, 0) := by
  have hcached : (db.markCached p mount source now).Carries mount p source source := carries_markCached hsource now
  have hcarries := carries_foldl cs hspares hcached
  generalize cs.foldl (RowStatement.timed mount p) source = timed at hcarries ⊢
  rw [CacheDb.Carries] at hcarries
  have hverdict : isStale (cs.foldl CacheDb.execute (db.markCached p mount source now)) mount p =
      fun live => isStaleWithFingerprint live ⟨timed.mtimeSec, timed.mtimeNsec, source.size⟩ := by
    funext live
    rw [isStale, hcarries]
  rw [hverdict, exactFor_iff hsource hsource, version_eq_iff, and_comm]
  refine and_congr_right fun htime => ?_
  rw [← htime, ← not_iff_not, Bool.not_eq_false, not_not]
  exact isZero_iff

/-- A file of time zero that has changed is given the new fingerprint with the old bytes, and is fresh
from then on. -/
theorem backfill_hides {db : CacheDb} {mount : MountId} {p : RelPath} {source : SourceMetadata} {live : Stat}
    (hsource : source.size < 2^63) (hzero : source.mtime = (0, 0)) (h0 : 0 ≤ live.stSize)
    (hsize : live.stSize < 2^63) (htime : (live.stMtime, live.stMtimeNsec) ≠ (0, 0)) (now now' : Nat) :
    isStale (db.markCached p mount source now) mount p (some live) = .needsBackfill live ∧
      isStale (backfillFingerprint (db.markCached p mount source now) mount p live now') mount p (some live) =
        .fresh live := by
  have hfirst : (db.markCached p mount source now).Carries mount p source source := carries_markCached hsource now
  have hlive : (SourceMetadata.fromStat live).size < 2^63 := by
    simp only [SourceMetadata.fromStat]
    omega
  have hnext : (backfillFingerprint (db.markCached p mount source now) mount p live now').Carries mount p
      (SourceMetadata.fromStat live) (SourceMetadata.fromStat live) := carries_markCached hlive now'
  rw [CacheDb.Carries] at hfirst hnext
  constructor
  · rw [isStale, hfirst]
    simp only [isStaleWithFingerprint, isZero_iff.mpr hzero, if_true]
  · rw [isStale, hnext, isStaleWithFingerprint_fresh_iff]
    refine ⟨rfl, Bool.eq_false_iff.mpr fun h => htime (isZero_iff.mp h), ?_⟩
    rw [contentMatches_iff h0 hsize]
    exact version_fromStat h0

end Verdict

section Epoch

private def diary : RelPath := [⟨[100], Eq.refl true⟩]
private def photo : RelPath := [⟨[112], Eq.refl true⟩]
private def cabinet : MountId := [99]

/-- The metadata of a file of this time. -/
private def metadataAt (mtime : Int) : SourceMetadata := .fromStat (BFile.pair 80 81 mtime).stat

/-- A hit, another file's row, and a refresh of the mode. -/
private def meanwhile : List RowStatement :=
  [.markHit diary cabinet 4, .remove photo cabinet,
    .updateSourceMetadata diary cabinet { metadataAt 1 with mode := 0o100600 }]

theorem diary_exact : ExactFor (metadataAt 1)
    (isStale (meanwhile.foldl CacheDb.execute (CacheDb.markCached ⟨∅, ∅⟩ diary cabinet (metadataAt 1) 3)) cabinet
      diary) :=
  (verdict_exact_iff (by decide) (by decide) 3).mpr (by decide)

/-- The copy of a file of time zero commits, and its row asks for a backfill. -/
theorem epoch_backfilled : ∃ s source,
    run (singleStep diary)
        (Single.start (Backing.empty.replaceFile diary (.pair 80 81 0)) Files.empty)
        (List.replicate 14 (.copy ⟨0, false⟩ false)) = some s ∧
      s.pc = .ok source ∧ source = metadataAt 0 ∧
        ¬ ExactFor source (isStale (CacheDb.markCached ⟨∅, ∅⟩ diary cabinet source 3) cabinet diary) := by
  refine ⟨_, _, rfl, rfl, rfl, fun h => ?_⟩
  obtain ⟨-, -, hno⟩ := h (some (BFile.pair 80 81 0).stat) fun st hst => by
    obtain rfl := Option.some.inj hst
    decide
  exact hno _ rfl

end Epoch

end FsCache
