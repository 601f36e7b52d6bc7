import FsCache.FreshSound
import FsCache.Kinds

/- The size the mount reports for a path, and the bytes it serves.

   The bytes of a cached path are those of its file, and its size is that of its row, or
   of the backing where the row has no snapshot. `RowFits` says that the two are the same
   number; while a copy has renamed and not yet written its row, the snapshot it is about
   to write has to fit instead. Seven steps can break this, and `Measured` is what they
   have to meet: a change under a file without a snapshot, the end of a copy (nothing in
   the source counts the bytes it has read), a second rename before the first copy has
   written its row, a backfill (it takes the size of the backing for that of the file), an
   update of the metadata, the removal of a row, and a startup.

   `sizes_agree`: in every run whose steps meet it, in every state with no job of `p`, the
   size of the reply is the number of bytes that can be read. `size_of_replaced` is a run
   where it is not: the daemon dies between the rename of a Replace and `mark_cached`. -/

namespace FsCache
open Lib

/-- `st_size` is this number, and an `i64`. -/
def Stat.SizeIs (st : Stat) (n : Nat) : Prop := st.stSize = n ∧ n < 2^63

instance (st : Stat) (n : Nat) : Decidable (st.SizeIs n) := inferInstanceAs (Decidable (_ ∧ _))

/-- What the backing has at `p`, if anything, is of this size. -/
def LiveFits (p : RelPath) (b : Backing) (n : Nat) : Prop := ∀ st ∈ b.stat p, st.SizeIs n

instance (p : RelPath) (b : Backing) (n : Nat) : Decidable (LiveFits p b n) :=
  inferInstanceAs (Decidable (∀ st ∈ b.stat p, _))

/-- The row of a cache file of this size, if there is one, has its size; a row without a
snapshot leaves the answer to the backing. -/
def RowFits (p : RelPath) (b : Backing) (n : Nat) : Option Row → Prop
  | none => LiveFits p b n
  | some r => r.sizeBytes = n ∧
    if r.sourceMetadata.hasSnapshot then r.sourceMetadata.size = n else LiveFits p b n

instance (p : RelPath) (b : Backing) (n : Nat) : (r : Option Row) → Decidable (RowFits p b n r)
  | none => inferInstanceAs (Decidable (LiveFits p b n))
  | some r => inferInstanceAs (Decidable (r.sizeBytes = n ∧ _))

/-- The mode of an existing object; its type bits are set. -/
def ModeSet (mode : Nat) : Prop := mode % 2^32 ≠ 0

instance (mode : Nat) : Decidable (ModeSet mode) := inferInstanceAs (Decidable (_ ≠ _))

/-- A copy that has passed its final check takes the number of bytes it has read for the
size. -/
def CopyPc.Sized : CopyPc → Prop
  | .apply ctx snapshot | .rename ctx snapshot =>
    snapshot.size = ctx.written.length ∧ snapshot.size < 2^63
  | _ => True

/-- Where the copy of a job is. -/
def Phase.cpc : Phase → Option CopyPc
  | .running _ _ (.copy pc) => some pc
  | _ => none

/-- The snapshot of a copy that has renamed. -/
def Phase.committed (ph : Phase) : Option SourceMetadata :=
  match ph.cpc with
  | some (.ok snapshot) => some snapshot
  | _ => none

namespace PathView

/-- The length of the cache file. -/
def length (v : PathView) (p : RelPath) : Option Nat := (v.dir.contents p).map List.length

/-- The row fits the cache file. -/
def Fits (mount : MountId) (p : RelPath) (v : PathView) : Prop :=
  ∀ n ∈ v.length p, RowFits p v.backing n (v.db.row p mount)

instance (mount : MountId) (p : RelPath) (v : PathView) : Decidable (v.Fits mount p) :=
  inferInstanceAs (Decidable (∀ n ∈ v.length p, _))

end PathView

/-! ## The condition -/

/-- The row under a cache file is of the size that an update writes. -/
def UpdateFitsSize (mount : MountId) (p : RelPath) (v : PathView) (live : Stat) : Prop :=
  ∀ _n ∈ v.length p, ∀ r ∈ v.db.row p mount,
    live.stSize = r.sizeBytes ∧ live.stSize < 2^63 ∧ ModeSet live.stMode

instance (mount : MountId) (p : RelPath) (v : PathView) (live : Stat) :
    Decidable (UpdateFitsSize mount p v live) :=
  inferInstanceAs (Decidable (∀ _n ∈ v.length p, ∀ r ∈ v.db.row p mount, _))

/-- What the next step of a worker has to meet. -/
def WorkerPc.Measured (mount : MountId) (p : RelPath) (v : PathView) (c : WorkChoice) :
    WorkerPc → Prop
  | .copy (.finalStat ctx aborted) =>
    aborted = false → changedSince ctx.init (c.copy.finalStat v.backing p) = false →
      ctx.init.SizeIs ctx.written.length
  | .copy (.rename ctx _) => ∀ k ∈ CacheJobKind.all, ∀ snapshot ∈ (v.phase k).committed,
    snapshot.size = ctx.written.length
  | .copy (.ok snapshot) => ModeSet snapshot.mode
  | .verdict (.needsBackfill st) => v.holds WorkerPc.renamed = false →
    ∀ n ∈ v.length p, st.SizeIs n ∧ ModeSet st.stMode
  | .refresh (.update live) => v.holds WorkerPc.renamed = false → UpdateFitsSize mount p v live
  | .dropRow => v.holds WorkerPc.renamed = false → ∀ n ∈ v.length p, LiveFits p v.backing n
  | _ => True

instance (mount : MountId) (p : RelPath) (v : PathView) (c : WorkChoice) :
    (pc : WorkerPc) → Decidable (pc.Measured mount p v c)
  | .copy (.finalStat ctx aborted) => inferInstanceAs (Decidable (aborted = false →
      changedSince ctx.init (c.copy.finalStat v.backing p) = false →
        ctx.init.SizeIs ctx.written.length))
  | .copy (.rename ctx _) => inferInstanceAs (Decidable (∀ k ∈ CacheJobKind.all,
      ∀ snapshot ∈ (v.phase k).committed, snapshot.size = ctx.written.length))
  | .copy (.ok snapshot) => inferInstanceAs (Decidable (ModeSet snapshot.mode))
  | .verdict (.needsBackfill st) => inferInstanceAs (Decidable (v.holds WorkerPc.renamed = false →
      ∀ n ∈ v.length p, st.SizeIs n ∧ ModeSet st.stMode))
  | .refresh (.update live) => inferInstanceAs (Decidable
      (v.holds WorkerPc.renamed = false → UpdateFitsSize mount p v live))
  | .dropRow => inferInstanceAs (Decidable (v.holds WorkerPc.renamed = false →
      ∀ n ∈ v.length p, LiveFits p v.backing n))
  | .start | .promote | .room | .statLive _ | .finish => isTrue trivial
  | .verdict (.fresh _) | .verdict .stale | .verdict .backingGone | .verdict .notTracked =>
    isTrue trivial
  | .refresh (.readFingerprint _) | .refresh (.readAttrs _) => isTrue trivial
  | .copy .mkdir | .copy .openSrc | .copy (.fstat _) | .copy (.openDst _ _) | .copy (.read _)
  | .copy (.write _ _) | .copy (.sync _) | .copy (.checkAbort _) | .copy (.apply _ _)
  | .copy (.failInner _) | .copy (.failOuter _) | .copy .err => isTrue trivial

def Phase.Measured (mount : MountId) (p : RelPath) (v : PathView) (t : Nat) (c : WorkChoice) :
    Phase → Prop
  | .running t' _ pc => t' = t → pc.Measured mount p v c
  | _ => True

instance (mount : MountId) (p : RelPath) (v : PathView) (t : Nat) (c : WorkChoice) :
    (ph : Phase) → Decidable (ph.Measured mount p v t c)
  | .running t' _ pc => inferInstanceAs (Decidable (t' = t → pc.Measured mount p v c))
  | .absent | .waiting => isTrue trivial

/-- No symbolic link is there. -/
def NoSymlink : Option BNode → Bool
  | some (.symlink _ _) => false
  | _ => true

/-- The change puts no symbolic link at `p`, and another size under a cache file only if
its row has a snapshot. -/
def ChangeMeasured (mount : MountId) (p : RelPath) (v : PathView) (c : BackingChange) : Prop :=
  ∀ b ∈ v.backing.change c, NoSymlink (b.node p) = true ∧
    (v.holds WorkerPc.renamed = false → ∀ n ∈ v.length p,
      (v.db.sourceMetadataRow p mount).isSome = true ∨ LiveFits p b n)

instance (mount : MountId) (p : RelPath) (v : PathView) (c : BackingChange) :
    Decidable (ChangeMeasured mount p v c) :=
  inferInstanceAs (Decidable (∀ b ∈ v.backing.change c, _))

/-- A startup that finds a file at `p` finds its row fitting, and no file of another path
with the key of `p`. -/
def StartMeasured (mount : MountId) (p : RelPath) (v : PathView) : Prop :=
  ∀ n ∈ v.length p, RowFits p v.backing n (v.db.row p mount) ∧ n < 2^63 ∧ IsUtf8 p ∧
    ∀ q ∈ filesOf v.dir, rowKey q = rowKey p → q = p

instance (mount : MountId) (p : RelPath) (v : PathView) : Decidable (StartMeasured mount p v) :=
  inferInstanceAs (Decidable (∀ n ∈ v.length p, _))

/-- What a step has to meet. -/
def Measured (mount : MountId) (p : RelPath) (v : PathView) : Action → Prop
  | .change c => ChangeMeasured mount p v c
  | .work t c => ∀ k ∈ CacheJobKind.all, (v.phase k).Measured mount p v t c
  | .refresh i => ∀ pc ∈ v.refreshing i, WorkerPc.Measured mount p v ⟨0, false, 0⟩ (.refresh pc)
  | .evictRow q => q = p → WorkerPc.Measured mount p v ⟨0, false, 0⟩ .dropRow
  | .crash _ _ => StartMeasured mount p v
  | _ => True

instance (mount : MountId) (p : RelPath) (v : PathView) :
    (a : Action) → Decidable (Measured mount p v a)
  | .change c => inferInstanceAs (Decidable (ChangeMeasured mount p v c))
  | .work t c => inferInstanceAs (Decidable
      (∀ k ∈ CacheJobKind.all, (v.phase k).Measured mount p v t c))
  | .refresh i => inferInstanceAs (Decidable
      (∀ pc ∈ v.refreshing i, WorkerPc.Measured mount p v ⟨0, false, 0⟩ (.refresh pc)))
  | .evictRow q => inferInstanceAs (Decidable
      (q = p → WorkerPc.Measured mount p v ⟨0, false, 0⟩ .dropRow))
  | .crash _ _ => inferInstanceAs (Decidable (StartMeasured mount p v))
  | .offer _ | .submit _ _ _ | .expire _ | .pop _ | .acquire | .release | .forget _ | .event _
  | .dispatch _ | .evictFile _ | .hit _ _ | .touch _ _ => isTrue trivial

/-! ## Rows that fit -/

section Rows

variable {b b' : Backing} {dir dir' : CacheDir} {db db' : CacheDb} {mount : MountId} {p : RelPath}
  {n : Nat} {r : Row}

theorem hasSnapshot_of_modeSet {m : SourceMetadata} (h : ModeSet m.mode) (now : Nat) :
    (Row.cached m now).sourceMetadata.hasSnapshot = true := by
  simpa [SourceMetadata.hasSnapshot, Row.sourceMetadata, Row.cached, ModeSet] using h

theorem rowFits_cached {source : SourceMetadata} (hn : source.size = n) (hlt : source.size < 2^63)
    (hmode : ModeSet source.mode) (now : Nat) : RowFits p b n (some (Row.cached source now)) := by
  subst hn
  refine ⟨asI64_of_lt hlt, ?_⟩
  rw [if_pos (hasSnapshot_of_modeSet hmode now)]
  show (asI64 source.size).toNat = source.size
  rw [asI64_of_lt hlt, Int.toNat_natCast]

theorem rowFits_withSource {live : Stat} (h : RowFits p b n (some r)) (hsize : live.stSize = r.sizeBytes)
    (hlt : live.stSize < 2^63) (hmode : ModeSet live.stMode) :
    RowFits p b n (some (r.withSource (SourceMetadata.fromStat live))) := by
  have hn : live.stSize = n := hsize.trans h.1
  have hto : (SourceMetadata.fromStat live).size = n := by
    show live.stSize.toNat = n
    rw [hn, Int.toNat_natCast]
  have hsnap : (r.withSource (SourceMetadata.fromStat live)).sourceMetadata.hasSnapshot = true :=
    hasSnapshot_of_modeSet (m := SourceMetadata.fromStat live) hmode 0
  refine ⟨h.1, ?_⟩
  rw [if_pos hsnap]
  show (asI64 (SourceMetadata.fromStat live).size).toNat = n
  rw [hto, asI64_of_lt (by omega), Int.toNat_natCast]

/-- A hit touches neither size. -/
theorem rowFits_hit {x y : Int} (h : RowFits p b n (some r)) :
    RowFits p b n (some { r with lastHitAt := x, hitCount := y }) := h

theorem rowFits_recovered {now : Nat} (h : LiveFits p b n) (hn : n < 2^63) :
    RowFits p b n (some (Row.recovered n now)) := by
  refine ⟨asI64_of_lt hn, ?_⟩
  rw [if_neg (by simp [SourceMetadata.hasSnapshot, Row.sourceMetadata, Row.recovered])]
  exact h

theorem RowFits.mono_live {row : Option Row} (h : RowFits p b n row) (hlive : LiveFits p b' n) :
    RowFits p b' n row := by
  cases row with
  | none => exact hlive
  | some r =>
    refine ⟨h.1, ?_⟩
    have h2 := h.2
    split
    · next hs => rwa [if_pos hs] at h2
    · exact hlive

/-- A row with a snapshot fits whatever the backing has. -/
theorem RowFits.of_snapshot (h : RowFits p b n (db.row p mount))
    (hs : (db.sourceMetadataRow p mount).isSome = true) : RowFits p b' n (db.row p mount) := by
  rw [CacheDb.sourceMetadataRow] at hs
  cases hrow : db.row p mount with
  | none =>
    rw [hrow] at hs
    exact absurd hs (by simp)
  | some r =>
    rw [hrow] at h hs
    have hsnap : r.sourceMetadata.hasSnapshot = true := by
      by_contra hc
      simp [hc] at hs
    refine ⟨h.1, ?_⟩
    have h2 := h.2
    rw [if_pos hsnap] at h2 ⊢
    exact h2

/-- A startup leaves the row of a file, or makes one of its length. -/
theorem row_reconcile_of_file {now : Nat} {bs : List CacheByte} (hp : isPartial p = false)
    (hutf8 : IsUtf8 p) (hkeys : ∀ q ∈ filesOf dir, rowKey q = rowKey p → q = p)
    (hbs : dir.contents p = some bs) :
    (reconcileWithDisk dir db mount now).2.row p mount = db.row p mount ∨
      db.row p mount = none ∧
        (reconcileWithDisk dir db mount now).2.row p mount = some (Row.recovered bs.length now) := by
  have hbs' : (removePartials dir).contents p = some bs := by
    rw [contents_removePartials, if_neg (by simp [hp]), hbs]
  have horphan : (removeOrphans (removePartials dir) db mount).row p mount = db.row p mount := by
    obtain ⟨i, hi, -⟩ := Option.map_eq_some_iff.mp hbs'
    rw [row_removeOrphans, pathOfKey_rowKey hutf8, Files.fileAt_eq_some.mp hi]
    rfl
  -- the files of the key, one after the other
  have hall : ∀ (l : List RelPath) (db : CacheDb), (∀ q ∈ l, rowKey q = rowKey p → q = p) →
      (l.foldl (insertRecovered (removePartials dir) mount now) db).row p mount = db.row p mount ∨
        db.row p mount = none ∧
          (l.foldl (insertRecovered (removePartials dir) mount now) db).row p mount =
            some (Row.recovered bs.length now) := by
    intro l
    induction l with
    | nil => exact fun _ _ => .inl rfl
    | cons q l ih =>
      intro db hl
      have hrest := ih (insertRecovered (removePartials dir) mount now db q) fun x hx =>
        hl x (List.mem_cons_of_mem q hx)
      rw [List.foldl_cons]
      have hone : (insertRecovered (removePartials dir) mount now db q).row p mount = db.row p mount ∨
          db.row p mount = none ∧ (insertRecovered (removePartials dir) mount now db q).row p mount =
            some (Row.recovered bs.length now) := by
        unfold insertRecovered
        cases hq : db.row q mount with
        | some r => exact .inl rfl
        | none =>
          by_cases hkey : rowKey p = rowKey q
          · obtain rfl := hl q List.mem_cons_self hkey.symm
            refine .inr ⟨hq, ?_⟩
            simp only [CacheDb.row, Map.lookup_insert_if, if_true, hbs', Option.map_some,
              Option.getD_some]
          · left
            simp only [CacheDb.row, Map.lookup_insert_if, Prod.mk.injEq, and_true, if_neg hkey]
      rcases hone with e | ⟨hnone, e⟩
      · rwa [e] at hrest
      · rw [e] at hrest
        exact .inr ⟨hnone, hrest.elim id fun h => absurd h.1 (by simp)⟩
  have hown : ∀ q ∈ collectCacheFiles (removePartials dir), rowKey q = rowKey p → q = p := by
    intro q hq
    obtain ⟨i, hi⟩ := mem_filesOf.mp (List.mem_filter.mp hq).1
    refine hkeys q (mem_filesOf.mpr ⟨i, ?_⟩)
    rw [fileAt_removePartials] at hi
    split at hi
    · exact absurd hi (by simp)
    · exact hi
  have hfold := hall _ (removeOrphans (removePartials dir) db mount) hown
  rwa [horphan] at hfold

end Rows

/-! ## The invariant -/

section Phases

variable {v v' : PathView} {k k' : CacheJobKind}

/-- A worker that has renamed. -/
theorem holds_renamed {ph : Phase} : ph.holds WorkerPc.renamed = ph.committed.isSome := by
  cases ph with
  | absent | waiting => rfl
  | running t abort pc =>
    cases pc with
    | copy cpc => cases cpc <;> rfl
    | start | promote | room | statLive | verdict | refresh | dropRow | finish => rfl

theorem holds_renamed_congr (h : ∀ k, (v'.phase k).cpc = (v.phase k).cpc) :
    v'.holds WorkerPc.renamed = v.holds WorkerPc.renamed := by
  simp only [PathView.holds, holds_renamed, Phase.committed, h]

theorem committed_of_renamed (h : v.holds WorkerPc.renamed = false) (k : CacheJobKind) :
    (v.phase k).committed = none := by
  have hk := List.any_eq_false.mp h k k.mem_all
  rw [holds_renamed] at hk
  simpa using hk

theorem renamed_of_committed (h : ∀ k, (v.phase k).committed = none) :
    v.holds WorkerPc.renamed = false :=
  List.any_eq_false.mpr fun k _ => by rw [holds_renamed, h k]; simp

theorem cpc_submitted : ((v.submitted k).phase k').cpc = (v.phase k').cpc := by
  simp only [PathView.submitted]
  split
  · next h => rw [h.2]; rfl
  · rfl

end Phases

structure Sized (mount : MountId) (p : RelPath) (v : PathView) : Prop where
  row : v.holds WorkerPc.renamed = false → v.Fits mount p
  committed : ∀ k snapshot, (v.phase k).committed = some snapshot →
    snapshot.size < 2^63 ∧ ∀ n ∈ v.length p, snapshot.size = n
  copies : ∀ k pc, (v.phase k).cpc = some pc → pc.Sized

section Steps

variable {cfg : Config} {mount : MountId} {p : RelPath} {v v' : PathView} {a : Action}

/-- A step that moves no copy, and leaves the file or drops it. -/
theorem Sized.quiet (hi : Sized mount p v) (hcpc : ∀ k, (v'.phase k).cpc = (v.phase k).cpc)
    (hlen : v'.length p = v.length p ∨ v'.length p = none)
    (hrow : v.holds WorkerPc.renamed = false → v.Fits mount p → v'.length p = v.length p →
      v'.Fits mount p) : Sized mount p v' where
  row h := by
    rw [holds_renamed_congr hcpc] at h
    rcases hlen with e | e
    · exact hrow h (hi.row h) e
    · intro n hn
      rw [e] at hn
      exact absurd hn (by simp)
  committed k snapshot h := by
    rw [Phase.committed, hcpc k] at h
    obtain ⟨hlt, hfit⟩ := hi.committed k snapshot h
    refine ⟨hlt, fun n hn => ?_⟩
    rcases hlen with e | e
    · exact hfit n (e ▸ hn)
    · rw [e] at hn
      exact absurd hn (by simp)
  copies k pc h := hi.copies k pc (hcpc k ▸ h)

/-- The row stays as it is. -/
theorem Sized.same (hi : Sized mount p v) (hcpc : ∀ k, (v'.phase k).cpc = (v.phase k).cpc)
    (hb : v'.backing = v.backing) (hlen : v'.length p = v.length p ∨ v'.length p = none)
    (hrow : v'.db.row p mount = v.db.row p mount) : Sized mount p v' := by
  refine hi.quiet hcpc hlen fun _ hfit e n hn => ?_
  rw [hb, hrow]
  exact hfit n (e ▸ hn)

section Worker

variable {k : CacheJobKind} {t : Nat} {c : WorkChoice} {abort : Bool} {pc pc' : WorkerPc}
  {dir' : CacheDir} {db' : CacheDb} {e : JobEffect}

/-- The copies after a step of the worker of kind `k`. -/
theorem cpc_worked {k' : CacheJobKind} {cpc : CopyPc}
    (h : ((v.worked k t abort dir' db' e pc').phase k').cpc = some cpc) :
    k' = k ∧ pc' = .copy cpc ∨ k' ≠ k ∧ (v.phase k').cpc = some cpc := by
  cases hphase : (v.worked k t abort dir' db' e pc').phase k' with
  | absent | waiting =>
    rw [hphase] at h
    exact absurd h (by simp [Phase.cpc])
  | running t' abort' pc'' =>
    rw [hphase] at h
    cases pc'' with
    | copy cpc' =>
      obtain rfl := Option.some.inj h
      rcases PathView.running_worked hphase with ⟨hk, -, hpc⟩ | ⟨hk, hold⟩
      · exact .inl ⟨hk, hpc.symm⟩
      · exact .inr ⟨hk, by rw [hold]; rfl⟩
    | start | promote | room | statLive | verdict | refresh | dropRow | finish =>
      exact absurd h (by simp [Phase.cpc])

theorem committed_eq_some {ph : Phase} {snapshot : SourceMetadata} :
    ph.committed = some snapshot ↔ ph.cpc = some (.ok snapshot) := by
  unfold Phase.committed
  split
  · next x h => rw [h]; simp
  · next h =>
    constructor
    · intro e; exact absurd e (by simp)
    · intro e; exact absurd e (h snapshot)

theorem length_worked (v : PathView) :
    (v.worked k t abort dir' db' e pc').length p = (dir'.contents p).map List.length := by
  rw [PathView.length, dir_worked]

/-- A step of the path's own worker that commits nothing. -/
theorem Sized.worked (hi : Sized mount p v)
    (hfile : dir'.contents p = v.dir.contents p ∨ dir'.contents p = none)
    (hpc : ∀ snapshot, pc' ≠ .copy (.ok snapshot)) (hcopy : ∀ cpc, pc' = .copy cpc → cpc.Sized)
    (hrow : (∀ k', k' ≠ k → (v.phase k').committed = none) →
      ∀ n ∈ v.length p, RowFits p v.backing n (db'.row p mount)) :
    Sized mount p (v.worked k t abort dir' db' e pc') := by
  have hbacking : (v.worked k t abort dir' db' e pc').backing = v.backing := by cases e <;> rfl
  have hlen : ∀ n ∈ (v.worked k t abort dir' db' e pc').length p, n ∈ v.length p := by
    intro n hn
    rw [length_worked] at hn
    rcases hfile with e | e <;> rw [e] at hn
    · exact hn
    · exact absurd hn (by simp)
  refine ⟨fun h n hn => ?_, fun k' snapshot h => ?_, fun k' cpc h => ?_⟩
  · rw [hbacking, db_worked]
    refine hrow (fun k' hk => ?_) n (hlen n hn)
    have hnone := committed_of_renamed h k'
    rcases PathView.phase_worked_ne hk with e | ⟨e, -⟩
    · rwa [e] at hnone
    · rw [e]
      rfl
  · rcases cpc_worked (committed_eq_some.mp h) with ⟨-, e⟩ | ⟨-, hold⟩
    · exact absurd e (hpc snapshot)
    · obtain ⟨hlt, hfit⟩ := hi.committed k' snapshot (committed_eq_some.mpr hold)
      exact ⟨hlt, fun n hn => hfit n (hlen n hn)⟩
  · rcases cpc_worked h with ⟨-, e⟩ | ⟨-, hold⟩
    · exact hcopy cpc e
    · exact hi.copies k' cpc hold

/-- The rename of a copy. -/
theorem Sized.renamed {ctx : CopyCtx} {snapshot : SourceMetadata} (hi : Sized mount p v)
    (hphase : v.phase k = .running t abort (.copy (.rename ctx snapshot)))
    (hf : WorkerPc.Measured mount p v c (.copy (.rename ctx snapshot)))
    (hfile : dir'.contents p = some (written t ctx.written)) :
    Sized mount p (v.worked k t abort dir' db' .none (.copy (.ok snapshot))) := by
  have hlen : (v.worked k t abort dir' db' .none (.copy (.ok snapshot))).length p =
      some ctx.written.length := by
    rw [length_worked, hfile, Option.map_some, written, List.length_map]
  obtain ⟨hsize, hlt⟩ := hi.copies k (.rename ctx snapshot) (by rw [hphase]; rfl)
  refine ⟨fun h => ?_, fun k' snapshot' h => ?_, fun k' cpc h => ?_⟩
  · have hnone := committed_of_renamed h k
    rw [phase_worked_none] at hnone
    exact absurd hnone (by simp [Phase.committed, Phase.cpc])
  · rcases cpc_worked (committed_eq_some.mp h) with ⟨-, e⟩ | ⟨-, hold⟩
    · obtain rfl : snapshot = snapshot' := by simpa using e
      refine ⟨hlt, fun n hn => ?_⟩
      rw [hlen, Option.mem_some_iff] at hn
      rw [hsize, hn]
    · have hold := committed_eq_some.mpr hold
      refine ⟨(hi.committed k' snapshot' hold).1, fun n hn => ?_⟩
      rw [hlen, Option.mem_some_iff] at hn
      rw [hf k' k'.mem_all snapshot' hold, hn]
  · rcases cpc_worked h with ⟨-, e⟩ | ⟨-, hold⟩
    · obtain rfl : CopyPc.ok snapshot = cpc := by simpa using e
      trivial
    · exact hi.copies k' cpc hold

/-- A copy whose check has passed knows how many bytes it has read. -/
theorem CopyPc.Sized.move {b : Backing} {dir dir' : CacheDir} {cpc cpc' : CopyPc} {c : CopyChoice}
    (hi : cpc.Sized) (hm : CopyMove b dir abort p t c cpc dir' cpc')
    (hf : ∀ ctx, cpc = .finalStat ctx false → changedSince ctx.init (c.finalStat b p) = false →
      ctx.init.SizeIs ctx.written.length) : cpc'.Sized := by
  cases hm with
  | @accept ctx h =>
    obtain ⟨hsize, hlt⟩ := hf ctx rfl h
    have hsnap : (sourceSnapshot ctx.init (c.finalStat b p)).size = ctx.written.length := by
      cases hfinal : c.finalStat b p with
      | none =>
        show asU64 ctx.init.stSize = ctx.written.length
        rw [asU64_of_nonneg (by omega) (by omega), hsize, Int.toNat_natCast]
      | some st =>
        rw [hfinal] at h
        have hst : st.stSize = ctx.init.stSize :=
          congrArg Version.size (changedSince_eq_false.mp h)
        show st.stSize.toNat = ctx.written.length
        rw [hst, hsize, Int.toNat_natCast]
    exact ⟨hsnap, by rw [hsnap]; exact hlt⟩
  | apply => exact hi
  | mkdirFails | mkdir | openSrc | openSrcFails | fstat | fstatFails | openDst | openDstFails
  | readFails | eof | chunk | writeFails | write | syncFails | sync | checkAbort | refuse
  | applyFails | renameFails | rename | removeInner | removeOuter => trivial

/-- What a statement of a refresh leaves of the row. -/
theorem rowFits_refresh {n : Nat} {pc : RefreshPc} {next : Option RefreshPc}
    (hr : RefreshMove v.db mount p pc db' next) (hn : n ∈ v.length p)
    (hfit : RowFits p v.backing n (v.db.row p mount))
    (hf : ∀ live, pc = .update live → UpdateFitsSize mount p v live) :
    RowFits p v.backing n (db'.row p mount) := by
  cases hr with
  | stop | agree | differs => exact hfit
  | update live =>
    rw [CacheDb.updateSourceMetadata, CacheDb.row_updateRow, if_pos rfl]
    cases hrow : v.db.row p mount with
    | none => rwa [hrow] at hfit
    | some r =>
      rw [hrow] at hfit
      obtain ⟨hsize, hlt, hmode⟩ := hf live rfl n hn r hrow
      exact rowFits_withSource hfit hsize hlt hmode

theorem Sized.work (hi : Sized mount p v) (hphase : v.phase k = .running t abort pc)
    (hf : pc.Measured mount p v c) (hfile : OwnFile p t v.dir dir' pc pc')
    (hm : WorkMove v.backing v.dir v.db mount abort p k t c pc dir' db' e pc') :
    Sized mount p (v.worked k t abort dir' db' e pc') := by
  rcases hfile with ⟨ctx, snapshot, rfl, rfl, hwritten⟩ | ⟨hpc, hsame⟩
  · cases hm with
    | copy hc => exact hi.renamed hphase hf hwritten
  · -- no copy has renamed if no other one has
    have none_renamed : (∀ snapshot, pc ≠ .copy (.ok snapshot)) →
        (∀ k', k' ≠ k → (v.phase k').committed = none) → v.holds WorkerPc.renamed = false := by
      intro hno hothers
      refine renamed_of_committed fun k' => ?_
      by_cases hk : k' = k
      · rw [hk, Option.eq_none_iff_forall_ne_some]
        intro snapshot hs
        rw [committed_eq_some, hphase] at hs
        cases pc with
        | copy cpc => exact hno snapshot (by rw [Option.some.inj hs])
        | start | promote | room | statLive | verdict | refresh | dropRow | finish =>
          exact absurd hs (by simp [Phase.cpc])
      · exact hothers k' hk
    have keep : (∀ snapshot, pc ≠ .copy (.ok snapshot)) →
        (∀ k', k' ≠ k → (v.phase k').committed = none) →
        ∀ n ∈ v.length p, RowFits p v.backing n (v.db.row p mount) :=
      fun hno hothers n hn => hi.row (none_renamed hno hothers) n hn
    cases hm with
    | skip | begin | readRow | noRow | promote | noRoom | copyFailed | statLive | fresh | notTracked
    | dropFile | stale | finish => exact hi.worked hsame hpc (by simp) (keep (by simp))
    | room =>
      refine hi.worked hsame hpc ?_ (keep (by simp))
      rintro cpc ⟨⟩
      trivial
    | @copy cpc cpc' dir' hc =>
      refine hi.worked hsame hpc ?_ (keep ?_)
      · rintro cpc'' ⟨⟩
        refine CopyPc.Sized.move (hi.copies k cpc (by rw [hphase]; rfl)) hc ?_
        rintro ctx rfl hsince
        exact hf rfl hsince
      · rintro snapshot ⟨⟩
        cases hc
    | mark snapshot =>
      obtain ⟨hlt, hfit⟩ := hi.committed k snapshot (committed_eq_some.mpr (by rw [hphase]; rfl))
      refine hi.worked hsame hpc (by simp) fun _ n hn => ?_
      rw [CacheDb.row_markCached, if_pos rfl]
      exact rowFits_cached (hfit n hn) hlt hf c.now
    | backfill st =>
      refine hi.worked hsame hpc (by simp) fun hothers n hn => ?_
      obtain ⟨⟨hsize, hlt⟩, hmode⟩ := hf (none_renamed (by simp) hothers) n hn
      have hto : (SourceMetadata.fromStat st).size = n := by
        show st.stSize.toNat = n
        rw [hsize, Int.toNat_natCast]
      rw [backfillFingerprint, CacheDb.row_markCached, if_pos rfl]
      exact rowFits_cached hto (by rw [hto]; exact hlt) hmode c.now
    | @refresh rpc rpc' _ hr =>
      refine hi.worked hsame hpc (by simp) fun hothers n hn => ?_
      refine rowFits_refresh (refreshMove_of_step hr) hn (keep (by simp) hothers n hn) ?_
      rintro live rfl
      exact hf (none_renamed (by simp) hothers)
    | @refreshed rpc _ hr =>
      refine hi.worked hsame hpc (by simp) fun hothers n hn => ?_
      refine rowFits_refresh (refreshMove_of_step hr) hn (keep (by simp) hothers n hn) ?_
      rintro live rfl
      exact hf (none_renamed (by simp) hothers)
    | dropRow =>
      refine hi.worked hsame hpc (by simp) fun hothers n hn => ?_
      rw [CacheDb.row_remove, if_pos rfl]
      exact hf (none_renamed (by simp) hothers) n hn

end Worker

theorem Sized.move (hi : Sized cfg.mount p v) (hp : isPartial p = false)
    (hm : PathMove cfg p True True v a v') (hf : Measured cfg.mount p v a) :
    Sized cfg.mount p v' := by
  have hext : extension p ≠ some partialExt := by simpa [isPartial] using hp
  cases hm with
  | foreign hrow hname =>
    refine hi.same (fun _ => rfl) rfl (.inl ?_) (hrow trivial)
    rw [PathView.length, PathView.length, (hname hext).2.2 trivial]
  | change h =>
    refine hi.quiet (fun _ => rfl) (.inl rfl) fun hno hfit _ n hn => ?_
    rcases (hf _ h).2 hno n hn with hs | hlive
    · exact (hfit n hn).of_snapshot hs
    · exact (hfit n hn).mono_live hlive
  | submit k now hrow => exact hi.same (fun _ => cpc_submitted) rfl (.inl rfl) hrow
  | @expire now phase' h =>
    refine hi.same (fun k => ?_) rfl (.inl rfl) rfl
    show (phase' k).cpc = (v.phase k).cpc
    rcases h k with e | ⟨e, e'⟩
    · rw [e]
    · rw [e, e']
      rfl
  | @spawn _ k₀ t₀ abort₀ h =>
    refine hi.same (fun k => ?_) rfl (.inl rfl) rfl
    by_cases hk : k = k₀
    · subst hk
      simp only [PathView.put, Function.update_self, h]
      rfl
    · simp only [PathView.put, Function.update_of_ne hk]
  | @work t c k abort pc pc' dir' db' e hphase hm hfile hstep =>
    have hmeasured := hf k k.mem_all
    rw [hphase] at hmeasured
    exact hi.work hphase (hmeasured rfl) (hfile trivial hext) hm
  | event hw => exact hi.same (fun _ => rfl) rfl (.inl rfl) rfl
  | @markAbort now phase' hw h =>
    refine hi.same (fun k => ?_) rfl (.inl rfl) rfl
    show (phase' k).cpc = (v.phase k).cpc
    rcases h k with e | ⟨t, abort, pc, e, e'⟩
    · rw [e]
    · rw [e, e']
      cases pc <;> rfl
  | dispatch hw => exact hi.same (fun _ => cpc_submitted) rfl (.inl rfl) rfl
  | @evictFile dir' h =>
    refine hi.same (fun _ => rfl) rfl (.inr ?_) rfl
    have hnone : dir'.fileAt p = none := by rw [Files.fileAt_remove h, if_pos rfl]
    simp [PathView.length, Files.contents, hnone]
  | evictRow =>
    refine hi.quiet (fun _ => rfl) (.inl rfl) fun hno hfit _ n hn => ?_
    show RowFits p v.backing n ((v.db.remove p cfg.mount).row p cfg.mount)
    rw [CacheDb.row_remove, if_pos rfl]
    exact hf rfl hno n hn
  | hit now =>
    refine hi.quiet (fun _ => rfl) (.inl rfl) fun hno hfit _ n hn => ?_
    have hold : RowFits p v.backing n (v.db.row p cfg.mount) := hfit n hn
    show RowFits p v.backing n ((v.db.markHit p cfg.mount now).row p cfg.mount)
    rw [CacheDb.markHit, CacheDb.row_updateRow, if_pos rfl]
    cases hrow : v.db.row p cfg.mount with
    | none => rwa [hrow] at hold
    | some r =>
      rw [hrow] at hold
      exact rowFits_hit hold
  | touch i h => exact hi.same (fun _ => rfl) rfl (.inl rfl) rfl
  | @refresh i pc db' next h hr =>
    refine hi.quiet (fun _ => rfl) (.inl rfl) fun hno hfit _ n hn => ?_
    have hold : RowFits p v.backing n (v.db.row p cfg.mount) := hfit n hn
    show RowFits p v.backing n (db'.row p cfg.mount)
    refine rowFits_refresh (refreshMove_of_step hr) hn hold ?_
    rintro live rfl
    exact hf _ h hno
  | @crash now loaded dir' db' phase' hr hphase =>
    obtain ⟨rfl, rfl⟩ := Prod.mk.inj hr
    have hno : ∀ k, (phase' k).cpc = none := by
      intro k
      rcases hphase k with e | e <;> rw [e] <;> rfl
    refine ⟨fun _ n hn => ?_, fun k snapshot h => ?_, fun k pc h => ?_⟩
    · obtain ⟨bs, hbs, rfl⟩ := Option.map_eq_some_iff.mp hn
      have hbs' : v.dir.contents p = some bs := by
        have : (removePartials v.dir).contents p = some bs := hbs
        rwa [contents_removePartials, if_neg (by simp [hp])] at this
      obtain ⟨hfit, hlt, hutf8, hkeys⟩ := hf bs.length (by
        show bs.length ∈ (v.dir.contents p).map List.length
        rw [hbs']
        rfl)
      show RowFits p v.backing bs.length ((reconcileWithDisk v.dir v.db cfg.mount now).2.row p cfg.mount)
      rcases row_reconcile_of_file hp hutf8 hkeys hbs' with e | ⟨hnone, e⟩
      · rwa [e]
      · rw [e]
        rw [hnone] at hfit
        exact rowFits_recovered hfit hlt
    · rw [committed_eq_some] at h
      exact absurd ((hno k).symm.trans h) (by simp)
    · exact absurd ((hno k).symm.trans h) (by simp)

end Steps

/-! ## Over the runs of the daemon -/

namespace Daemon

variable {cfg : Config} {s s' : Daemon} {a : Action} {p : RelPath}

/-- What the steps of a run have to meet. -/
structure MeasuredAt (mount : MountId) (p : RelPath) (s : Daemon) (a : Action) : Prop where
  apart : s.PromotesApart a
  clear : s.ClearAt p a
  temp : TempKept p s a
  measured : Measured mount p (s.view p) a

instance (mount : MountId) (p : RelPath) (s : Daemon) (a : Action) :
    Decidable (MeasuredAt mount p s a) :=
  decidable_of_iff (s.PromotesApart a ∧ s.ClearAt p a ∧ TempKept p s a ∧
      Measured mount p (s.view p) a)
    ⟨fun ⟨h₁, h₂, h₃, h₄⟩ => ⟨h₁, h₂, h₃, h₄⟩, fun h => ⟨h.apart, h.clear, h.temp, h.measured⟩⟩

/-- A state of such a run. -/
structure Fitting (mount : MountId) (p : RelPath) (s : Daemon) : Prop extends s.Tidy where
  sealed : SealedAt s.dir s.copies p
  nosymlink : NoSymlink (s.backing.node p) = true
  sized : isPartial p = false → Sized mount p (s.view p)

theorem Fitting.step (hi : s.Fitting cfg.mount p) (hok : MeasuredAt cfg.mount p s a)
    (h : step cfg s a = some s') : s'.Fitting cfg.mount p where
  toTidy := hi.toTidy.step hok.apart h
  sealed := sealed_step hi.toTidy hi.sealed hok.temp h
  nosymlink := by
    have hm : PathMove cfg p False False (s.view p) a (s'.view p) :=
      pathMove_of_step hi.wf (fun f => f.elim) (fun f => f.elim) h
    rcases hm.backing with e | ⟨c, rfl, hc⟩
    · have e : s'.backing = s.backing := e
      rw [e]
      exact hi.nosymlink
    · exact (hok.measured _ hc).1
  sized hp := by
    have hm : PathMove cfg p True True (s.view p) a (s'.view p) :=
      pathMove_of_step hi.wf (fun _ => hok.clear) (fun _ => ⟨hi.windows, hi.sealed⟩) h
    exact (hi.sized hp).move hp hm hok.measured

/-- The size that a lookup or getattr of `p` reports is the number of bytes that can be
read from what an open of `p` gives. -/
def SizesAgree (mount : MountId) (p : RelPath) (s : Daemon) : Prop :=
  ∀ ino now attr fd bytes, s.attrOf mount p ino = .ok attr → s.readOpen mount p now = some fd →
    fd.bytes s.backing s.dir = some bytes → attr.size = bytes.length

/-- What the backing has at `p` is served by itself. -/
theorem size_of_backing (hn : NoSymlink (s.backing.node p) = true) {st : Stat} {h : Handle}
    (hst : s.backing.stat p = some st) (ho : s.backing.openFile p = some h) {bytes : List UInt8}
    (hb : (ReadFd.backing h).bytes s.backing s.dir = some bytes) : asU64 st.stSize = bytes.length := by
  cases hnode : s.backing.node p with
  | none =>
    rw [Backing.stat, hnode] at hst
    exact absurd hst (by simp)
  | some n =>
    cases n with
    | file i =>
      rw [Backing.openFile_of_node hnode, Option.some.injEq] at ho
      obtain rfl : (s.backing.file i).stat = st := by simpa [Backing.stat, hnode] using hst
      subst ho
      obtain rfl := Option.some.inj hb
      rw [asU64_of_nonneg (s.backing.file i).size_nonneg (s.backing.file i).size_lt',
        (s.backing.file i).size_eq, Int.toNat_natCast]
    | dir st' =>
      simp only [Backing.openFile, Backing.follow, hnode, Option.some.injEq] at ho
      subst ho
      exact absurd hb (by simp [ReadFd.bytes])
    | symlink st' target =>
      rw [hnode] at hn
      exact absurd hn (by simp [NoSymlink])

theorem sizesAgree_of_fits {mount : MountId} (hn : NoSymlink (s.backing.node p) = true)
    (hfit : isPartial p = false → (s.view p).Fits mount p) : s.SizesAgree mount p := by
  intro ino now attr fd bytes hattr hopen hbytes
  cases hc : isCached s.dir p with
  | false =>
    rw [attrOf, attrReply_of_not_cached hc] at hattr
    rw [readOpen, tryOpen_of_not_cached hc] at hopen
    obtain ⟨⟨fd', o⟩, ho, rfl⟩ := Option.map_eq_some_iff.mp hopen
    obtain ⟨h, hh, ho⟩ := Option.map_eq_some_iff.mp ho
    obtain ⟨rfl, rfl⟩ := Prod.mk.inj ho
    cases hst : s.backing.stat p with
    | none => rw [hst] at hattr; exact absurd hattr (by simp)
    | some st =>
      rw [hst] at hattr
      rw [(of_statToAttr (ofAttr_eq_ok.mp hattr)).2]
      exact size_of_backing hn hst hh hbytes
  | true =>
    have hfit := hfit (isPartial_of_cached hc)
    rcases file_or_dir_of_cached hc with ⟨i, hi⟩ | hd
    · rw [readOpen, tryOpen_of_file hc hi, Option.map_some, Option.some.injEq] at hopen
      subst hopen
      obtain rfl := Option.some.inj hbytes
      have hrow : RowFits p s.backing (s.dir.data i).length (s.db.row p mount) :=
        hfit _ (by
          show (s.dir.data i).length ∈ (s.dir.contents p).map List.length
          rw [Files.contents, hi]
          rfl)
      rw [List.length_map]
      have live : s.db.sourceMetadataRow p mount = none →
          LiveFits p s.backing (s.dir.data i).length → attr.size = (s.dir.data i).length := by
        intro hnone hlive
        rw [attrOf, attrReply_of_no_snapshot hc hnone] at hattr
        cases hst : s.backing.stat p with
        | none => rw [hst] at hattr; exact absurd hattr (by simp)
        | some st =>
          rw [hst] at hattr
          obtain ⟨hsize, hlt⟩ := hlive st hst
          rw [(of_statToAttr (ofAttr_eq_ok.mp hattr)).2, asU64_of_nonneg (by omega) (by omega), hsize,
            Int.toNat_natCast]
      cases hr : s.db.row p mount with
      | none =>
        rw [hr] at hrow
        exact live (by rw [CacheDb.sourceMetadataRow, hr]; rfl) hrow
      | some r =>
        rw [hr] at hrow
        by_cases hs : r.sourceMetadata.hasSnapshot = true
        · have hsnap : s.db.sourceMetadataRow p mount = some r.sourceMetadata := by
            rw [CacheDb.sourceMetadataRow, hr, Option.bind_some, if_pos hs]
          rw [attrOf, attrReply_of_snapshot hc hsnap] at hattr
          have h2 := hrow.2
          rw [if_pos hs] at h2
          rw [(of_sourceMetadataToAttr (ofAttr_eq_ok.mp hattr)).2, h2]
        · have h2 := hrow.2
          rw [if_neg hs] at h2
          exact live (by rw [CacheDb.sourceMetadataRow, hr, Option.bind_some, if_neg hs]) h2
    · rw [readOpen, tryOpen_of_dir hc hd, Option.map_some, Option.some.injEq] at hopen
      subst hopen
      exact absurd hbytes (by simp [ReadFd.bytes])

theorem fitting_start {b : Backing} {dir : CacheDir} {db : CacheDb} {loaded : List (RelPath × Nat)}
    (hn : NoSymlink (b.node p) = true)
    (hfit : ∀ bs ∈ dir.contents p, RowFits p b bs.length (db.row p cfg.mount)) :
    (start cfg b dir db loaded).Fitting cfg.mount p where
  toTidy := tidy_start cfg b dir db loaded
  sealed := sealed_idle (wf_start cfg b dir db loaded) (phase_start cfg b dir db loaded) p
  nosymlink := hn
  sized _ := by
    have hcpc : ∀ k, (((start cfg b dir db loaded).view p).phase k).cpc = none := by
      intro k
      show ((start cfg b dir db loaded).phase p k).cpc = none
      rcases phase_start cfg b dir db loaded p k with e | e <;> rw [e] <;> rfl
    refine ⟨fun _ n hn => ?_, fun k snapshot h => ?_, fun k pc h => ?_⟩
    · obtain ⟨bs, hbs, rfl⟩ := Option.map_eq_some_iff.mp hn
      exact hfit bs hbs
    · rw [committed_eq_some] at h
      exact absurd ((hcpc k).symm.trans h) (by simp)
    · exact absurd ((hcpc k).symm.trans h) (by simp)

end Daemon

open Daemon

/-- In every run from a cache file that its row fits, whose steps meet `MeasuredAt`: with
no job of `p` queued or at work, the size reported for `p` is the number of bytes that can
be read. -/
theorem sizes_agree {cfg : Config} {b : Backing} {dir : CacheDir} {db : CacheDb}
    {loaded : List (RelPath × Nat)} {p : RelPath} {as : List Action} {s : Daemon}
    (hn : NoSymlink (b.node p) = true)
    (hfit : ∀ bs ∈ dir.contents p, RowFits p b bs.length (db.row p cfg.mount))
    (hrun : run (step cfg) (start cfg b dir db loaded) as = some s)
    (hok : Along (step cfg) (MeasuredAt cfg.mount p) (start cfg b dir db loaded) as)
    (hidle : ∀ k, (s.view p).phase k = .absent) : s.SizesAgree cfg.mount p := by
  have hi : s.Fitting cfg.mount p :=
    run_invariant_along (Fitting cfg.mount p) (fun _ _ _ hi ha hs => hi.step ha hs) hrun hok
      (fitting_start hn hfit)
  refine sizesAgree_of_fits hi.nosymlink fun hp => (hi.sized hp).row (renamed_of_committed fun k => ?_)
  rw [hidle k]
  rfl

/-! ## A replacement without its row -/

section Scene

private def scene : Name := ⟨[115, 99], Eq.refl true⟩

def sceneStart : Daemon :=
  start oneMount (Backing.empty.replaceFile [scene] (.pair 80 81 1)) Files.empty ⟨∅, ∅⟩ []

/-- The file is populated, and gets longer; the watcher has it validated, and a Replace is
queued. -/
def sceneGrown : List Action :=
  requested [scene] ++ turns 1 19 ++ [.forget [scene], .release] ++
    [.change (.replace [scene] (.of [90, 91, 92] 2 (by decide))), .event [scene], .dispatch 9,
      .dispatch 9, .pop false] ++ turns 2 4

/-- The first `n` turns of the Replace. -/
def sceneReplaced (n : Nat) : List Action := [.pop true, .acquire] ++ turns 3 n

/-- The turn of `mark_cached` is the 20th. -/
theorem size_of_replaced : ∃ s attr,
    run (step oneMount) sceneStart (sceneGrown ++ sceneReplaced 19 ++ [.crash 9 []]) = some s ∧
    (∀ k, (s.view [scene]).phase k = .absent) ∧ s.attrOf oneMount.mount [scene] 2 = .ok attr ∧
    attr.size = 2 ∧
    ((s.readOpen oneMount.mount [scene] 9).bind fun fd => fd.bytes s.backing s.dir) =
      some [90, 91, 92] ∧
    ¬ s.SizesAgree oneMount.mount [scene] := by
  have hrun : ((run (step oneMount) sceneStart (sceneGrown ++ sceneReplaced 19 ++
      [.crash 9 []])).any fun s =>
        decide (∀ k ∈ CacheJobKind.all, (s.view [scene]).phase k = .absent) &&
          (match s.attrOf oneMount.mount [scene] 2 with
            | .ok attr => attr.size == 2
            | .error _ | .panic => false) &&
          decide (((s.readOpen oneMount.mount [scene] 9).bind fun fd => fd.bytes s.backing s.dir) =
            some [90, 91, 92])) = true := by
    decide +kernel
  obtain ⟨s, h, hs⟩ := (Option.any_eq_true _ _).mp hrun
  simp only [Bool.and_eq_true, decide_eq_true_eq] at hs
  obtain ⟨⟨hphase, hattr⟩, hbytes⟩ := hs
  cases hreply : s.attrOf oneMount.mount [scene] 2 with
  | ok attr =>
    rw [hreply] at hattr
    have hsize : attr.size = 2 := by simpa using hattr
    refine ⟨s, attr, h, fun k => hphase k k.mem_all, hreply, hsize, hbytes, fun hagree => ?_⟩
    obtain ⟨fd, hfd, hread⟩ := Option.bind_eq_some_iff.mp hbytes
    have := hagree 2 9 attr fd _ hreply hfd hread
    rw [hsize] at this
    exact absurd this (by decide)
  | error e | panic =>
    rw [hreply] at hattr
    exact absurd hattr (by simp)

theorem size_of_marked : ∃ s,
    run (step oneMount) sceneStart (sceneGrown ++ sceneReplaced 21 ++ [.release]) = some s ∧
    isCached s.dir [scene] = true ∧ s.SizesAgree oneMount.mount [scene] := by
  have hrun : ((run (step oneMount) sceneStart (sceneGrown ++ sceneReplaced 21 ++
      [.release])).any fun s =>
        isCached s.dir [scene] &&
          decide (∀ k ∈ CacheJobKind.all, (s.view [scene]).phase k = .absent)) = true := by
    decide +kernel
  obtain ⟨s, h, hs⟩ := (Option.any_eq_true _ _).mp hrun
  simp only [Bool.and_eq_true, decide_eq_true_eq] at hs
  exact ⟨s, h, hs.1, sizes_agree (by decide) (by decide) h (by decide +kernel)
    fun k => hs.2 k k.mem_all⟩

end Scene

end FsCache
