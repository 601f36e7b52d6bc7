import FsCache.Refresh
import FsCache.Seeding

/- The two ways from a stat to the attributes of a cached file (fuse/fusefs.rs): straight, and through
   the row that `mark_cached` makes of it.

   A time before the epoch is a huge `u64` on the straight way, where adding it to the epoch panics; the
   other way takes it for the epoch. A link count or a device number from 2^63 on is truncated on the one
   way, and is 0 on the other. `attr_agrees_iff`: these are the only differences.

   Correspondence (Rust ↔ Lean):
     `stat_to_attr`                           ↔ `statToAttr`
     `source_metadata_to_attr`                ↔ `sourceMetadataToAttr`
     `from_stat`, then the row and back       ↔ `reloaded`, by `sourceMetadata_cached_fromStat`
     `UNIX_EPOCH + Duration::new(..)`         ↔ `sinceEpoch` -/

namespace FsCache
open Lib

def S_IFREG : Nat := 0o100000

/-- A stat of a regular file, of the types of `libc::stat`. -/
structure Stat.BackingFile (s : Stat) : Prop where
  size : 0 ≤ s.stSize ∧ s.stSize < 2^63
  blocks : 0 ≤ s.stBlocks ∧ s.stBlocks < 2^63
  atime : IsI64 s.stAtime
  mtime : IsI64 s.stMtime
  ctime : IsI64 s.stCtime
  atimeNsec : 0 ≤ s.stAtimeNsec ∧ s.stAtimeNsec < 10^9
  mtimeNsec : 0 ≤ s.stMtimeNsec ∧ s.stMtimeNsec < 10^9
  ctimeNsec : 0 ≤ s.stCtimeNsec ∧ s.stCtimeNsec < 10^9
  mode : s.stMode &&& S_IFMT = S_IFREG ∧ s.stMode < 2^32
  nlink : s.stNlink < 2^64
  uid : s.stUid < 2^32
  gid : s.stGid < 2^32
  rdev : s.stRdev < 2^64

/-- What comes back from the row. -/
def reloaded (s : Stat) : SourceMetadata :=
  { SourceMetadata.fromStat s with
    nlink := (asI64 s.stNlink).toNat
    rdev := (asI64 s.stRdev).toNat }

/-- The attributes of the stat, if no time in it is before the epoch. -/
def plainAttr (ino : Nat) (s : Stat) : FileAttr where
  ino := ino
  size := s.stSize.toNat
  blocks := s.stBlocks.toNat
  atime := ⟨s.stAtime.toNat, s.stAtimeNsec.toNat⟩
  mtime := ⟨s.stMtime.toNat, s.stMtimeNsec.toNat⟩
  ctime := ⟨s.stCtime.toNat, s.stCtimeNsec.toNat⟩
  crtime := ⟨0, 0⟩
  kind := .regularFile
  perm := s.stMode &&& 0o7777
  nlink := s.stNlink % 2^32
  uid := s.stUid
  gid := s.stGid
  rdev := s.stRdev % 2^32
  blksize := asU32 s.stBlksize
  flags := 0

section Conversions

variable {sec nsec : Int} {n : Nat} {s : Stat}

theorem asU32_of_nonneg {i : Int} (h0 : 0 ≤ i) (h : i < 2^32) : asU32 i = i.toNat := by
  rw [asU32, BitVec.toNat_ofInt]
  have hmod : i % ((2^32 : Nat) : Int) = i := Int.emod_eq_of_lt h0 (by omega)
  rw [hmod]

theorem asU32_lt (i : Int) : asU32 i < 2^32 := BitVec.isLt _

theorem sinceEpoch_of_lt {secs nanos : Nat} (hs : secs < 2^63) (hn : nanos < 10^9) :
    sinceEpoch secs nanos = some ⟨secs, nanos⟩ := by
  rw [sinceEpoch, Nat.div_eq_of_lt hn, Nat.mod_eq_of_lt hn, Nat.add_zero, if_pos hs]

/-- The straight way with a time from the epoch on. -/
theorem sinceEpoch_asU64 (h : IsI64 sec) (h0 : 0 ≤ sec) (hn : 0 ≤ nsec ∧ nsec < 10^9) :
    sinceEpoch (asU64 sec) (asU32 nsec) = some ⟨sec.toNat, nsec.toNat⟩ := by
  rw [asU64_of_nonneg h0 h.2, asU32_of_nonneg hn.1 (by omega)]
  have := h.2
  exact sinceEpoch_of_lt (by omega) (by omega)

/-- With one before it, the addition overflows. -/
theorem sinceEpoch_of_neg (h : IsI64 sec) (hneg : sec < 0) (nanos : Nat) :
    sinceEpoch (asU64 sec) nanos = none := by
  have hbig := le_asU64_of_neg h.1 hneg
  exact if_neg (by omega)

/-- The way through the row takes a time before the epoch for the epoch. -/
theorem sinceEpoch_toNat (h : IsI64 sec) (hn : 0 ≤ nsec ∧ nsec < 10^9) :
    sinceEpoch sec.toNat (nsec.toNat % 2^32) = some ⟨sec.toNat, nsec.toNat⟩ := by
  have := h.2
  rw [Nat.mod_eq_of_lt (by omega)]
  exact sinceEpoch_of_lt (by omega) (by omega)

/-- An `i64` that came from a `u64`, and is clamped. -/
theorem toNat_asI64 (h : n < 2^64) : (asI64 n).toNat = if n < 2^63 then n else 0 := by
  split
  · next hlt => rw [asI64_of_lt hlt, Int.toNat_natCast]
  · next hge =>
    rw [asI64_of_ge h (by omega)]
    omega

/-- Truncated, or clamped and then truncated. -/
theorem clamped_iff (h : n < 2^64) : (asI64 n).toNat % 2^32 = n % 2^32 ↔ n < 2^63 ∨ n % 2^32 = 0 := by
  rw [toNat_asI64 h]
  split <;> omega

theorem modeToFiletype_of_regular {mode : Nat} (h : mode &&& S_IFMT = S_IFREG) :
    modeToFiletype mode = .regularFile := by
  rw [modeToFiletype, h]
  rfl

theorem sourceMetadata_cached_fromStat (h : s.BackingFile) (now : Nat) :
    (Row.cached (.fromStat s) now).sourceMetadata = reloaded s := by
  have hsize : (asI64 s.stSize.toNat).toNat = s.stSize.toNat := by
    have := h.size.2
    rw [asI64_of_lt (by omega), Int.toNat_natCast]
  have hblocks : (asI64 s.stBlocks.toNat).toNat = s.stBlocks.toNat := by
    have := h.blocks.2
    rw [asI64_of_lt (by omega), Int.toNat_natCast]
  simp only [Row.cached, Row.sourceMetadata, reloaded, SourceMetadata.fromStat, hsize, hblocks, Int.toNat_natCast,
    Nat.mod_eq_of_lt h.mode.2, Nat.mod_eq_of_lt h.uid, Nat.mod_eq_of_lt h.gid,
    Nat.mod_eq_of_lt (asU32_lt s.stBlksize)]

/-- The way through the row never fails. -/
theorem sourceMetadataToAttr_reloaded (h : s.BackingFile) (ino : Nat) :
    sourceMetadataToAttr ino (reloaded s) =
      some { plainAttr ino s with
        nlink := (asI64 s.stNlink).toNat % 2^32
        rdev := (asI64 s.stRdev).toNat % 2^32 } := by
  simp only [sourceMetadataToAttr, reloaded, SourceMetadata.fromStat, sinceEpoch_toNat h.atime h.atimeNsec,
    sinceEpoch_toNat h.mtime h.mtimeNsec, sinceEpoch_toNat h.ctime h.ctimeNsec, Option.bind_some, Option.map_some,
    plainAttr]

theorem statToAttr_of_nonneg (h : s.BackingFile) (ha : 0 ≤ s.stAtime) (hm : 0 ≤ s.stMtime) (hc : 0 ≤ s.stCtime)
    (ino : Nat) : statToAttr ino s = some (plainAttr ino s) := by
  simp only [statToAttr, sinceEpoch_asU64 h.atime ha h.atimeNsec, sinceEpoch_asU64 h.mtime hm h.mtimeNsec,
    sinceEpoch_asU64 h.ctime hc h.ctimeNsec, Option.bind_some, Option.map_some, plainAttr,
    asU64_of_nonneg h.size.1 h.size.2, asU64_of_nonneg h.blocks.1 h.blocks.2,
    modeToFiletype_of_regular h.mode.1]

/-- It is the times that the straight way can fail on. -/
theorem statToAttr_isSome_iff_nonneg (h : s.BackingFile) (ino : Nat) :
    (statToAttr ino s).isSome ↔ 0 ≤ s.stAtime ∧ 0 ≤ s.stMtime ∧ 0 ≤ s.stCtime := by
  constructor
  · intro hsome
    obtain ⟨ha, hm, hc⟩ := (statToAttr_isSome_iff ino).mp hsome
    refine ⟨?_, ?_, ?_⟩
    · by_contra hneg
      rw [sinceEpoch_of_neg h.atime (not_le.mp hneg)] at ha
      cases ha
    · by_contra hneg
      rw [sinceEpoch_of_neg h.mtime (not_le.mp hneg)] at hm
      cases hm
    · by_contra hneg
      rw [sinceEpoch_of_neg h.ctime (not_le.mp hneg)] at hc
      cases hc
  · intro ⟨ha, hm, hc⟩
    rw [statToAttr_of_nonneg h ha hm hc]
    rfl

end Conversions

/-- The attributes of the row that `mark_cached` makes of the stat. -/
def attrThroughRow (db : CacheDb) (p : RelPath) (mount : MountId) (now ino : Nat) (s : Stat) : Option FileAttr :=
  ((db.markCached p mount (.fromStat s) now).sourceMetadataRow p mount).bind (sourceMetadataToAttr ino)

theorem attrThroughRow_eq {s : Stat} (h : s.BackingFile) (db : CacheDb) (p : RelPath) (mount : MountId)
    (now ino : Nat) : attrThroughRow db p mount now ino s = sourceMetadataToAttr ino (reloaded s) := by
  have hcached : (db.markCached p mount (.fromStat s) now).row p mount = some (Row.cached (.fromStat s) now) := by
    rw [CacheDb.row_markCached, if_pos rfl]
  have hmode : (reloaded s).mode ≠ 0 := by
    intro hzero
    have hmode := h.mode.1
    rw [show s.stMode = 0 from hzero] at hmode
    exact absurd hmode (by decide)
  rw [attrThroughRow, sourceMetadataRow_of_row hmode hcached (sourceMetadata_cached_fromStat h now),
    Option.bind_some]

/-- The two ways give the same attributes, without a panic, if and only if no time is before the epoch
and the counts that a row cannot hold are truncated to 0. -/
theorem attr_agrees_iff {s : Stat} (h : s.BackingFile) (db : CacheDb) (p : RelPath) (mount : MountId)
    (now ino : Nat) :
    (∃ attr, statToAttr ino s = some attr ∧ attrThroughRow db p mount now ino s = some attr) ↔
      (0 ≤ s.stAtime ∧ 0 ≤ s.stMtime ∧ 0 ≤ s.stCtime) ∧ (s.stNlink < 2^63 ∨ s.stNlink % 2^32 = 0) ∧
        (s.stRdev < 2^63 ∨ s.stRdev % 2^32 = 0) := by
  rw [attrThroughRow_eq h, sourceMetadataToAttr_reloaded h, ← clamped_iff h.nlink, ← clamped_iff h.rdev]
  constructor
  · intro ⟨attr, hstat, hrow⟩
    have htimes := (statToAttr_isSome_iff_nonneg h ino).mp (Option.isSome_of_mem hstat)
    rw [statToAttr_of_nonneg h htimes.1 htimes.2.1 htimes.2.2] at hstat
    obtain rfl := Option.some.inj hstat
    have hattr := Option.some.inj hrow
    exact ⟨htimes, congrArg FileAttr.nlink hattr, congrArg FileAttr.rdev hattr⟩
  · intro ⟨⟨ha, hm, hc⟩, hnlink, hrdev⟩
    refine ⟨plainAttr ino s, statToAttr_of_nonneg h ha hm hc ino, ?_⟩
    rw [hnlink, hrdev]
    rfl

section Moon

private def moon : RelPath := [⟨[109], Eq.refl true⟩]
private def tower : MountId := [116]

/-- A file changed at this time, and read an hour after. -/
private def filmed (mtime : Int) : Stat := { statOf ⟨mtime, 0, 7⟩ with stAtime := mtime + 3600, stCtime := 5 }

private theorem filmed_file {mtime : Int} (h : IsI64 mtime) (h' : IsI64 (mtime + 3600)) :
    (filmed mtime).BackingFile := by
  refine ⟨?_, ?_, h', h, ?_, ?_, ?_, ?_, ?_, ?_, ?_, ?_, ?_⟩ <;> (simp only [filmed, statOf]; decide)

theorem moon_agrees : ∃ attr, statToAttr 4 (filmed 10) = some attr ∧
    attrThroughRow ⟨∅, ∅⟩ moon tower 8 4 (filmed 10) = some attr :=
  (attr_agrees_iff (filmed_file (by decide) (by decide)) ⟨∅, ∅⟩ moon tower 8 4).mpr (by decide)

/-- A file of July 1969: one way panics, the other says it is of the epoch. -/
theorem moon_panics : (filmed (-14182940)).BackingFile ∧ statToAttr 4 (filmed (-14182940)) = none ∧
    (attrThroughRow ⟨∅, ∅⟩ moon tower 8 4 (filmed (-14182940))).map FileAttr.mtime = some ⟨0, 0⟩ :=
  ⟨filmed_file (by decide) (by decide), by decide, by decide⟩

end Moon

end FsCache
