import FsCache.Snapshot

/- What a `refresh_source_metadata` does to the table (cache/manager.rs), with no other statement in
   between its own.

   It writes only where the fingerprint of the row is that of the stat, and so writes the modification
   time that is there. `refresh_eq` is the whole of it. `refresh_exact` says what the table is after it.

   A link count goes into the row `as i64` and comes back as `max(0) as u64`. From 2^63 on it comes
   back as 0: `links_lost`. Then the attributes never match, and each call writes the row again.

   Correspondence (Rust ↔ Lean):
     `refresh_source_metadata`     ↔ `refreshSourceMetadata`
     `content_matches`             ↔ `contentMatches`, `Fingerprint.version`
     `attrs_match`                 ↔ `SourceMetadata.attrsMatch` -/

namespace FsCache
open Lib

/-- What a row says of the use of the file: eviction goes by it. -/
structure Usage where
  cachedAt : Int
  lastHitAt : Int
  hitCount : Int
  deriving DecidableEq

def Row.usage (row : Row) : Usage := ⟨row.cachedAt, row.lastHitAt, row.hitCount⟩

def CacheDb.usageRow (db : CacheDb) (p : RelPath) (mount : MountId) : Option Usage :=
  (db.row p mount).map Row.usage

/-- No row but that of `p` differs. -/
def CacheDb.KeepsOthers (db db' : CacheDb) (p : RelPath) (mount : MountId) : Prop :=
  ∀ key, key ≠ (rowKey p, mount) → db'.cacheFiles.lookup key = db.cacheFiles.lookup key

/-- Every row is the same. -/
def CacheDb.SameRows (db db' : CacheDb) : Prop :=
  ∀ key, db'.cacheFiles.lookup key = db.cacheFiles.lookup key

/-- The fingerprint is that of a copy, and of the same content as the stat. -/
def Fingerprint.Matches (fp : Fingerprint) (live : Stat) : Prop :=
  fp.isZero = false ∧ fp.version = live.version

instance (fp : Fingerprint) (live : Stat) : Decidable (fp.Matches live) := inferInstanceAs (Decidable (_ ∧ _))

/-- The metadata has the mode, owner, group and change time of the stat. -/
def SourceMetadata.Agrees (m : SourceMetadata) (live : Stat) : Prop :=
  m.mode = live.stMode ∧ m.uid = live.stUid ∧ m.gid = live.stGid ∧ m.ctimeSec = live.stCtime ∧
    m.ctimeNsec = live.stCtimeNsec

/-- A stat of the types of `libc::stat`, with a size and a mode that a file can have. -/
structure Stat.OfFile (live : Stat) : Prop where
  size : 0 ≤ live.stSize ∧ live.stSize < 2^63
  mode : live.stMode ≠ 0 ∧ live.stMode < 2^32
  uid : live.stUid < 2^32
  gid : live.stGid < 2^32

section

variable {db : CacheDb} {p : RelPath} {mount : MountId} {live : Stat}

theorem contentMatches_eq {fp : Fingerprint} (h : live.OfFile) :
    (fp.isZero = false ∧ contentMatches fp live = true) ↔ fp.Matches live :=
  and_congr_right fun _ => contentMatches_iff h.size.1 h.size.2

/-- Without a fingerprint that matches, nothing. -/
theorem refresh_of_not_matches (h : live.OfFile)
    (hno : ∀ fp, db.fingerprintRow p mount = some fp → ¬fp.Matches live) :
    refreshSourceMetadata db mount p live = db := by
  cases hfp : db.fingerprintRow p mount with
  | none => simp only [refreshSourceMetadata, refreshStep, hfp]
  | some fp =>
    simp only [refreshSourceMetadata, refreshStep, hfp]
    cases hz : fp.isZero with
    | true => rfl
    | false =>
      have hdiffers : contentMatches fp live = false := by
        rw [Bool.eq_false_iff]
        exact fun hm => hno fp hfp ((contentMatches_eq h).mp ⟨hz, hm⟩)
      simp only [hdiffers, Bool.not_false, if_true, Bool.false_eq_true, if_false]

/-- With one, the row is rewritten unless its attributes are those of the stat. -/
theorem refresh_eq (h : live.OfFile) {fp : Fingerprint} (hfp : db.fingerprintRow p mount = some fp)
    (hmatch : fp.Matches live) :
    refreshSourceMetadata db mount p live =
      if (db.sourceMetadataRow p mount).any (SourceMetadata.attrsMatch · (.fromStat live)) then db
      else db.updateSourceMetadata p mount (.fromStat live) := by
  obtain ⟨hz, hm⟩ := (contentMatches_eq h).mpr hmatch
  simp only [refreshSourceMetadata, refreshStep, hfp, hz, hm, Bool.not_true, Bool.false_eq_true, if_false]
  cases hs : db.sourceMetadataRow p mount with
  | none => rfl
  | some stored =>
    cases ha : stored.attrsMatch (.fromStat live) <;> simp [ha]

/-- The two outcomes. -/
theorem refresh_cases (db : CacheDb) (mount : MountId) (p : RelPath) (live : Stat) :
    refreshSourceMetadata db mount p live = db ∨
      refreshSourceMetadata db mount p live = db.updateSourceMetadata p mount (.fromStat live) :=
  (refresh_keeps_time live).imp_right And.left

theorem keepsOthers_update (source : SourceMetadata) :
    db.KeepsOthers (db.updateSourceMetadata p mount source) p mount :=
  fun _ hkey => lookup_updateRow_of_ne _ hkey

theorem keepsOthers_refresh (db : CacheDb) (mount : MountId) (p : RelPath) (live : Stat) :
    db.KeepsOthers (refreshSourceMetadata db mount p live) p mount := by
  obtain h | h := refresh_cases db mount p live
  · rw [h]
    exact fun _ _ => rfl
  · rw [h]
    exact keepsOthers_update _

theorem row_update (source : SourceMetadata) :
    (db.updateSourceMetadata p mount source).row p mount =
      (db.row p mount).map fun row => row.withSource source := by
  rw [CacheDb.updateSourceMetadata, CacheDb.row_updateRow, if_pos rfl]

/-- An update of the row of the same content leaves the fingerprint. -/
theorem fingerprintRow_refresh (db : CacheDb) (mount : MountId) (p : RelPath) (live : Stat) :
    (refreshSourceMetadata db mount p live).fingerprintRow p mount = db.fingerprintRow p mount := by
  obtain h | ⟨h, fp, hfp, htime⟩ := @refresh_keeps_time db mount p live
  · rw [h]
  · obtain ⟨row, hrow, rfl⟩ := Option.map_eq_some_iff.mp hfp
    rw [h, CacheDb.execute, CacheDb.fingerprintRow, row_update, hrow, hfp, Option.map_some, Option.map_some]
    -- only the two times of the fingerprint are written, and they are the same
    obtain ⟨hsec, hnsec⟩ := Prod.mk.inj htime
    rw [Option.some.injEq, Fingerprint.mk.injEq]
    exact ⟨hsec, hnsec, rfl⟩

/-- `size_bytes` and the usage columns are not among those an update sets. -/
theorem keptColumns_refresh (db : CacheDb) (mount : MountId) (p : RelPath) (live : Stat) :
    ((refreshSourceMetadata db mount p live).row p mount).map (fun row => (row.sizeBytes, row.usage)) =
      (db.row p mount).map fun row => (row.sizeBytes, row.usage) := by
  obtain h | h := refresh_cases db mount p live
  · rw [h]
  · rw [h, row_update, Option.map_map]
    rfl

/-- A second update with the same metadata leaves every row. -/
theorem sameRows_update_twice (source : SourceMetadata) :
    (db.updateSourceMetadata p mount source).SameRows
      ((db.updateSourceMetadata p mount source).updateSourceMetadata p mount source) := by
  intro key
  by_cases hkey : key = (rowKey p, mount)
  · subst hkey
    have hrow : (db.updateSourceMetadata p mount source).row p mount =
        (db.row p mount).map fun row => row.withSource source := row_update source
    refine (row_update source).trans ((congrArg _ hrow).trans ?_)
    rw [Option.map_map]
    exact hrow.symm
  · exact keepsOthers_update source key hkey

theorem sameRows_refresh_twice (db : CacheDb) (mount : MountId) (p : RelPath) (live : Stat) :
    (refreshSourceMetadata db mount p live).SameRows
      (refreshSourceMetadata (refreshSourceMetadata db mount p live) mount p live) := by
  obtain h | h := refresh_cases db mount p live
  · rw [h, h]
    exact fun _ => rfl
  · obtain h' | h' := refresh_cases (refreshSourceMetadata db mount p live) mount p live
    · rw [h']
      exact fun _ => rfl
    · rw [h', h]
      exact sameRows_update_twice _

theorem agrees_of_attrsMatch {m : SourceMetadata} (h : m.attrsMatch (.fromStat live) = true) :
    m.Agrees live ∧ m.nlink = live.stNlink := by
  simp only [SourceMetadata.attrsMatch, Bool.and_eq_true, beq_iff_eq] at h
  obtain ⟨⟨⟨⟨⟨hmode, huid⟩, hgid⟩, hnlink⟩, hsec⟩, hnsec⟩ := h
  exact ⟨⟨hmode, huid, hgid, hsec, hnsec⟩, hnlink⟩

/-- What comes back of the metadata of a stat. -/
theorem agrees_withSource (h : live.OfFile) (row : Row) :
    (row.withSource (.fromStat live)).sourceMetadata.Agrees live := by
  refine ⟨?_, ?_, ?_, rfl, rfl⟩
  · exact Nat.mod_eq_of_lt h.mode.2
  · exact Nat.mod_eq_of_lt h.uid
  · exact Nat.mod_eq_of_lt h.gid

/-- The snapshot after a refresh is that of the stat. -/
theorem snapshot_refresh (h : live.OfFile) {fp : Fingerprint} (hfp : db.fingerprintRow p mount = some fp)
    (hmatch : fp.Matches live) :
    ∃ m, (refreshSourceMetadata db mount p live).sourceMetadataRow p mount = some m ∧ m.Agrees live ∧
      (live.stNlink < 2^63 → m.nlink = live.stNlink) := by
  rw [refresh_eq h hfp hmatch]
  split
  · next hany =>
    obtain ⟨m, hm, hattrs⟩ := (Option.any_eq_true _ _).mp hany
    obtain ⟨hagrees, hnlink⟩ := agrees_of_attrsMatch hattrs
    exact ⟨m, hm, hagrees, fun _ => hnlink⟩
  · obtain ⟨row, hrow, -⟩ := Option.map_eq_some_iff.mp hfp
    have hagrees := agrees_withSource h row
    refine ⟨_, sourceMetadataRow_of_row ?_ ((row_update _).trans (congrArg _ hrow)) rfl, hagrees, fun hlt => ?_⟩
    · rw [hagrees.1]
      exact h.mode.1
    · show (asI64 live.stNlink).toNat = live.stNlink
      rw [asI64_of_lt hlt, Int.toNat_natCast]

/-- A refresh leaves every other row, and of the row its fingerprint, size and usage. It does nothing
to a row that is not a copy of the content of the stat, makes the snapshot of one that is that of the
stat, and makes it once. -/
theorem refresh_exact (h : live.OfFile) (db : CacheDb) (mount : MountId) (p : RelPath) :
    db.KeepsOthers (refreshSourceMetadata db mount p live) p mount ∧
    (refreshSourceMetadata db mount p live).fingerprintRow p mount = db.fingerprintRow p mount ∧
    ((refreshSourceMetadata db mount p live).row p mount).map (fun row => (row.sizeBytes, row.usage)) =
      (db.row p mount).map (fun row => (row.sizeBytes, row.usage)) ∧
    ((∀ fp, db.fingerprintRow p mount = some fp → ¬fp.Matches live) →
      refreshSourceMetadata db mount p live = db) ∧
    (∀ fp, db.fingerprintRow p mount = some fp → fp.Matches live →
      ∃ m, (refreshSourceMetadata db mount p live).sourceMetadataRow p mount = some m ∧ m.Agrees live ∧
        (live.stNlink < 2^63 → m.nlink = live.stNlink)) ∧
    (refreshSourceMetadata db mount p live).SameRows
      (refreshSourceMetadata (refreshSourceMetadata db mount p live) mount p live) :=
  ⟨keepsOthers_refresh db mount p live, fingerprintRow_refresh db mount p live,
    keptColumns_refresh db mount p live, refresh_of_not_matches h,
    fun _ hfp hmatch => snapshot_refresh h hfp hmatch, sameRows_refresh_twice db mount p live⟩

end

section Links

private def hub : RelPath := [⟨[104], Eq.refl true⟩]
private def rack : MountId := [114]

/-- A file of this many links. -/
private def withLinks (n : Nat) : Stat := { statOf ⟨5, 6, 7⟩ with stNlink := n }

private def hubCopied : CacheDb := CacheDb.markCached ⟨∅, ∅⟩ hub rack (.fromStat (withLinks 1)) 3

theorem hub_refresh : ∃ m,
    (refreshSourceMetadata hubCopied rack hub (withLinks 2)).sourceMetadataRow hub rack = some m ∧
    m.Agrees (withLinks 2) ∧ (2 < 2^63 → m.nlink = 2) :=
  (refresh_exact ⟨by decide, by decide, by decide, by decide⟩ hubCopied rack hub).2.2.2.2.1 ⟨5, 6, 7⟩ (by decide)
    (by decide)

/-- The fingerprint matches, and the link count does not come back. -/
theorem links_lost : (withLinks (2^63)).OfFile ∧
    (∃ fp, hubCopied.fingerprintRow hub rack = some fp ∧ fp.Matches (withLinks (2^63))) ∧
    ¬∃ m, (refreshSourceMetadata hubCopied rack hub (withLinks (2^63))).sourceMetadataRow hub rack = some m ∧
      m.Agrees (withLinks (2^63)) ∧ m.nlink = (withLinks (2^63)).stNlink := by
  refine ⟨⟨by decide, by decide, by decide, by decide⟩, ⟨⟨5, 6, 7⟩, by decide, by decide⟩, ?_⟩
  intro ⟨m, hm, _, hlinks⟩
  have hzero : ((refreshSourceMetadata hubCopied rack hub (withLinks (2^63))).sourceMetadataRow hub rack).map
      SourceMetadata.nlink = some 0 := by decide
  rw [hm, Option.map_some, hlinks] at hzero
  exact absurd hzero (by decide)

end Links

end FsCache
