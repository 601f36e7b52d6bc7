import FsCache.PathView

/- What a recorded version says of the cached bytes.

   A (mtime, size) pair is recorded in three places: in the row of the path, in a
   validation that has read the row, and in a copy that has committed and is about
   to write the row. `Describes` is what each of them has to say: it is a version
   the path has had, and if it is the live one then the cached file, if there is
   one, has the bytes of the live file. A version once left never comes back, so a
   record that is not live may say anything of the bytes.

   Four steps can break this, and `Faithful` is what they have to meet:

     * the fstat of a copy sees a version the path has had (not a file that was
       written under another name after the path was given to a new one);
     * a rename does not put another version under a record that is live;
     * a backfill that records the live version finds its bytes in the cache;
     * an update of the metadata finds the (mtime, size) it was asked for, or makes
       of the row a version of the path that is not live. -/

namespace FsCache
open Lib

/-- The path has had this version, and if it is live, the cached bytes are its own. -/
def Describes (b : Backing) (p : RelPath) (bytes : Option (List UInt8)) (ver : Version) : Prop :=
  (∃ g ∈ b.past p, g.version = ver) ∧
    ∀ f ∈ b.live p, f.version = ver → ∀ bs ∈ bytes, bs = f.bytes

instance (b : Backing) (p : RelPath) (bytes : Option (List UInt8)) (ver : Version) :
    Decidable (Describes b p bytes ver) :=
  inferInstanceAs (Decidable (_ ∧ _))

/-- A fingerprint that is taken at its word. -/
def Fingerprint.recorded (fp : Fingerprint) : Option Version :=
  if fp.isZero then none else some fp.version

def WorkerPc.recorded : WorkerPc → Option Version
  | .statLive fp => fp.recorded
  | .copy (.ok snapshot) => some snapshot.version
  | _ => none

def Phase.recorded : Phase → Option Version
  | .running _ _ pc => pc.recorded
  | _ => none

def CacheDb.recorded (db : CacheDb) (mount : MountId) (p : RelPath) : Option Version :=
  (db.fingerprintRow p mount).bind Fingerprint.recorded

/-- The versions recorded for the path. -/
def PathView.recorded (mount : MountId) (p : RelPath) (v : PathView) : List Version :=
  (v.db.recorded mount p).toList ++ CacheJobKind.all.filterMap fun k => (v.phase k).recorded

theorem mem_recorded {mount : MountId} {p : RelPath} {v : PathView} {ver : Version} :
    ver ∈ v.recorded mount p ↔
      v.db.recorded mount p = some ver ∨ ∃ k, (v.phase k).recorded = some ver := by
  rw [PathView.recorded, List.mem_append, Option.mem_toList, List.mem_filterMap]
  exact or_congr_right ⟨fun ⟨k, _, h⟩ => ⟨k, h⟩, fun ⟨k, h⟩ => ⟨k, k.mem_all, h⟩⟩

/-! ## The runs spoken of, and the condition -/

/-- The change, at `p`, is a write, a new file or an unlink, and gives `p` a version
it never had. -/
def BackingWrite (b : Backing) (p : RelPath) (c : BackingChange) : Prop :=
  b.FreshAt p c ∧
    match c with
    | .mkdir q _ | .symlink q _ _ => q ≠ p
    | _ => True

instance (b : Backing) (p : RelPath) : (c : BackingChange) → Decidable (BackingWrite b p c)
  | .write q f => inferInstanceAs (Decidable (b.FreshAt p (.write q f) ∧ True))
  | .replace q f => inferInstanceAs (Decidable (b.FreshAt p (.replace q f) ∧ True))
  | .remove q => inferInstanceAs (Decidable (b.FreshAt p (.remove q) ∧ True))
  | .mkdir q st => inferInstanceAs (Decidable (b.FreshAt p (.mkdir q st) ∧ q ≠ p))
  | .symlink q st target => inferInstanceAs (Decidable (b.FreshAt p (.symlink q st target) ∧ q ≠ p))

/-- What was opened is a version the path has had, and is at the path if that is live. -/
def OpenedAt (b : Backing) (p : RelPath) (src : Handle) : Prop :=
  ∃ g ∈ b.past p, g.version = (b.fstat src).version ∧ (b.live p = some g → b.openFile p = some src)

instance (b : Backing) (p : RelPath) (src : Handle) : Decidable (OpenedAt b p src) :=
  inferInstanceAs (Decidable (∃ g ∈ b.past p, _))

/-- The (mtime, size) of a row that an update finds. -/
def Updated (fp : Fingerprint) (live : Stat) : Version := ⟨live.stMtime, live.stMtimeNsec, fp.sizeBytes⟩

/-- The update finds the version it was asked for, or makes of the row a version of
the path that is not live. -/
def UpdateFits (b : Backing) (db : CacheDb) (mount : MountId) (p : RelPath) (live : Stat) : Prop :=
  ∀ fp ∈ db.fingerprintRow p mount, contentMatches fp live = true ∨
    (∃ g ∈ b.past p, g.version = Updated fp live) ∧ ∀ f ∈ b.live p, f.version ≠ Updated fp live

instance (b : Backing) (db : CacheDb) (mount : MountId) (p : RelPath) (live : Stat) :
    Decidable (UpdateFits b db mount p live) :=
  inferInstanceAs (Decidable (∀ fp ∈ db.fingerprintRow p mount, _))

/-- What the next step of a worker has to meet. -/
def WorkerPc.Faithful (mount : MountId) (p : RelPath) (v : PathView) : WorkerPc → Prop
  | .copy (.fstat src) => OpenedAt v.backing p src
  | .copy (.rename _ snapshot) => ∀ ver ∈ v.recorded mount p,
    (∃ f ∈ v.backing.live p, f.version = ver) → snapshot.version = ver
  | .verdict (.needsBackfill st) => ∀ f ∈ v.backing.live p, f.version = st.version →
    ∀ bs ∈ v.dir.bytesAt p, bs = f.bytes
  | .refresh (.update live) => UpdateFits v.backing v.db mount p live
  | _ => True

instance (mount : MountId) (p : RelPath) (v : PathView) :
    (pc : WorkerPc) → Decidable (pc.Faithful mount p v)
  | .copy (.fstat src) => inferInstanceAs (Decidable (OpenedAt v.backing p src))
  | .copy (.rename _ snapshot) => inferInstanceAs (Decidable (∀ ver ∈ v.recorded mount p,
      (∃ f ∈ v.backing.live p, f.version = ver) → snapshot.version = ver))
  | .verdict (.needsBackfill st) => inferInstanceAs (Decidable (∀ f ∈ v.backing.live p,
      f.version = st.version → ∀ bs ∈ v.dir.bytesAt p, bs = f.bytes))
  | .refresh (.update live) => inferInstanceAs (Decidable (UpdateFits v.backing v.db mount p live))
  | .start | .promote | .room | .statLive _ | .dropRow | .finish => isTrue trivial
  | .verdict (.fresh _) | .verdict .stale | .verdict .backingGone | .verdict .notTracked =>
    isTrue trivial
  | .refresh (.readFingerprint _) | .refresh (.readAttrs _) => isTrue trivial
  | .copy .mkdir | .copy .openSrc | .copy (.openDst _ _) | .copy (.read _) | .copy (.write _ _)
  | .copy (.sync _) | .copy (.checkAbort _) | .copy (.finalStat _ _) | .copy (.apply _ _)
  | .copy (.failInner _) | .copy (.failOuter _) | .copy (.ok _) | .copy .err => isTrue trivial

def Phase.Faithful (mount : MountId) (p : RelPath) (v : PathView) (t : Nat) : Phase → Prop
  | .running t' _ pc => t' = t → pc.Faithful mount p v
  | _ => True

instance (mount : MountId) (p : RelPath) (v : PathView) (t : Nat) :
    (ph : Phase) → Decidable (ph.Faithful mount p v t)
  | .running t' _ pc => inferInstanceAs (Decidable (t' = t → pc.Faithful mount p v))
  | .absent | .waiting => isTrue trivial

def Faithful (mount : MountId) (p : RelPath) (v : PathView) : Action → Prop
  | .work t _ => ∀ k ∈ CacheJobKind.all, (v.phase k).Faithful mount p v t
  | .refresh i => ∀ pc ∈ v.refreshing i, WorkerPc.Faithful mount p v (.refresh pc)
  | _ => True

instance (mount : MountId) (p : RelPath) (v : PathView) :
    (a : Action) → Decidable (Faithful mount p v a)
  | .work t _ => inferInstanceAs (Decidable
      (∀ k ∈ CacheJobKind.all, (v.phase k).Faithful mount p v t))
  | .refresh i => inferInstanceAs (Decidable
      (∀ pc ∈ v.refreshing i, WorkerPc.Faithful mount p v (.refresh pc)))
  | .change _ | .offer _ | .submit _ _ _ | .expire _ | .pop _ | .acquire | .release | .forget _
  | .event _ | .dispatch _ | .evictFile _ | .evictRow _ | .hit _ _ | .touch _ _ | .crash _ _ =>
    isTrue trivial

/-! ## The live file after a change -/

section Live

variable {b b' : Backing} {p : RelPath} {c : BackingChange} {ver : Version}
  {bytes bytes' : Option (List UInt8)}

/-- A change that reaches `p` leaves it with nothing it ever had. -/
theorem live_of_touched (h : b.change c = some b') (hf : b.FreshAt p c) (ht : b.Touches p c = true)
    {f : BFile} (hlive : b'.live p = some f) : ∀ g ∈ b.past p, g.version ≠ f.version := by
  cases c with
  | write q f' =>
    simp only [Backing.change] at h
    split at h
    · next i hi =>
      obtain rfl := Option.some.inj h
      have hq : b.node q = b.node p := by simpa [Backing.Touches] using ht
      obtain ⟨j, hj, rfl⟩ := Backing.live_eq_some.mp hlive
      have hj : b.node p = some (.file j) := hj
      obtain rfl : i = j := by simpa [hj] using hi.symm.trans hq
      simp only [Backing.writeFile, Function.update_self]
      exact hf hq
    · exact absurd h (by simp)
  | replace q f' =>
    obtain rfl := Option.some.inj h
    obtain rfl : q = p := by simpa [Backing.Touches] using ht
    obtain ⟨j, hj, rfl⟩ := Backing.live_eq_some.mp hlive
    obtain rfl : b.next = j := by simpa [Backing.replaceFile] using hj
    simp only [Backing.replaceFile, Function.update_self]
    exact hf rfl
  | remove q | mkdir q st | symlink q st target =>
    obtain rfl := Option.some.inj h
    obtain rfl : q = p := by simpa [Backing.Touches] using ht
    obtain ⟨j, hj, -⟩ := Backing.live_eq_some.mp hlive
    exact absurd hj (by simp [Backing.setNode])

/-- A version that is live after a change is live before it, or new. -/
theorem live_change (h : b.change c = some b') (hf : b.FreshAt p c) {f : BFile}
    (hlive : b'.live p = some f) :
    (∀ g ∈ b.past p, g.version ≠ f.version) ∨ b.live p = some f ∧ b'.node p = b.node p := by
  by_cases ht : b.Touches p c = true
  · exact .inl (live_of_touched h hf ht hlive)
  · obtain ⟨hnode, hsame, -⟩ := Backing.live_of_untouched h (by simpa using ht)
    exact .inr ⟨hsame.symm.trans hlive, hnode⟩

theorem regular_write (hr : b.node p = none ∨ ∃ i, b.node p = some (.file i))
    (hw : BackingWrite b p c) (h : b.change c = some b') :
    b'.node p = none ∨ ∃ i, b'.node p = some (.file i) := by
  have hdir : ∀ st, c ≠ .mkdir p st := by
    intro st e
    subst e
    exact hw.2 rfl
  have hlink : ∀ st target, c ≠ .symlink p st target := by
    intro st target e
    subst e
    exact hw.2 rfl
  rcases Backing.node_change h hdir hlink with hsame | hfile | ⟨-, hnone⟩
  · rwa [hsame]
  · exact .inr hfile
  · exact .inl hnone

theorem Describes.change (hd : Describes b p bytes ver) (h : b.change c = some b')
    (hf : b.FreshAt p c) : Describes b' p bytes ver := by
  obtain ⟨⟨g, hg, hver⟩, hlive⟩ := hd
  refine ⟨⟨g, Backing.past_change h hg, hver⟩, fun f hf' he => ?_⟩
  rcases live_change h hf hf' with hnew | ⟨hold, -⟩
  · exact absurd (hver.trans he.symm) (hnew g hg)
  · exact hlive f hold he

/-- The file is dropped, or stays. -/
theorem Describes.mono (hd : Describes b p bytes ver) (hb : bytes' = bytes ∨ bytes' = none) :
    Describes b p bytes' ver := by
  rcases hb with rfl | rfl
  · exact hd
  · exact ⟨hd.1, fun f _ _ bs hbs => absurd hbs (by simp)⟩

end Live

/-! ## What a copy holds -/

/-- `src` was opened at `p` and found at the version `init`; `read` holds of that
version as long as it is live. -/
def Holds (b : Backing) (p : RelPath) (src : Handle) (init : Stat) (read : BFile → Prop) : Prop :=
  ∃ i, src = .file i ∧ i < b.next ∧ ∃ g ∈ b.past p, g.version = init.version ∧
    (b.live p = some g → b.node p = some (.file i) ∧ read g)

/-- What is known of a copy at each of its steps. -/
def HoldsAt (b : Backing) (p : RelPath) : CopyPc → Prop
  | .fstat src => ∃ i, src = .file i ∧ i < b.next
  | .openDst src init => Holds b p src init fun _ => True
  | .read ctx => Holds b p ctx.src ctx.init fun g => ctx.written <+: g.bytes
  | .write ctx chunk => Holds b p ctx.src ctx.init fun g => ctx.written ++ chunk <+: g.bytes
  | .sync ctx | .checkAbort ctx | .finalStat ctx _ =>
    Holds b p ctx.src ctx.init fun g => ctx.written = g.bytes
  | .apply ctx snapshot | .rename ctx snapshot =>
    ∃ g ∈ b.past p, g.version = snapshot.version ∧ (b.live p = some g → ctx.written = g.bytes)
  | _ => True

section Copy

variable {b b' : Backing} {dir dir' : CacheDir} {abort : Bool} {p : RelPath} {t : Nat}
  {c : CopyChoice} {pc pc' : CopyPc}

theorem next_change {ch : BackingChange} (h : b.change ch = some b') : b.next ≤ b'.next := by
  cases ch with
  | write q f =>
    simp only [Backing.change] at h
    split at h
    · obtain rfl := Option.some.inj h
      exact le_refl _
    · exact absurd h (by simp)
  | replace q f =>
    obtain rfl := Option.some.inj h
    exact Nat.le_succ _
  | remove q | mkdir q st | symlink q st target =>
    obtain rfl := Option.some.inj h
    exact le_refl _

theorem Holds.change {src : Handle} {init : Stat} {read : BFile → Prop} {ch : BackingChange}
    (hs : Holds b p src init read) (h : b.change ch = some b') (hf : b.FreshAt p ch) :
    Holds b' p src init read := by
  obtain ⟨i, rfl, hi, g, hg, hinit, hread⟩ := hs
  refine ⟨i, rfl, Nat.lt_of_lt_of_le hi (next_change h), g, Backing.past_change h hg, hinit, ?_⟩
  intro hlive
  rcases live_change h hf hlive with hnew | ⟨hold, hnode⟩
  · exact absurd rfl (hnew g hg)
  · rw [hnode]
    exact hread hold

theorem HoldsAt.change {ch : BackingChange} (hs : HoldsAt b p pc) (h : b.change ch = some b')
    (hf : b.FreshAt p ch) : HoldsAt b' p pc := by
  have accepted : ∀ (ctx : CopyCtx) (snapshot : SourceMetadata),
      (∃ g ∈ b.past p, g.version = snapshot.version ∧ (b.live p = some g → ctx.written = g.bytes)) →
      ∃ g ∈ b'.past p, g.version = snapshot.version ∧
        (b'.live p = some g → ctx.written = g.bytes) := by
    intro ctx snapshot hseen
    obtain ⟨g, hg, hver, hread⟩ := hseen
    refine ⟨g, Backing.past_change h hg, hver, fun hlive => ?_⟩
    rcases live_change h hf hlive with hnew | ⟨hold, -⟩
    · exact absurd rfl (hnew g hg)
    · exact hread hold
  cases pc with
  | fstat src =>
    obtain ⟨i, rfl, hi⟩ := hs
    exact ⟨i, rfl, Nat.lt_of_lt_of_le hi (next_change h)⟩
  | openDst | read | write | sync | checkAbort | finalStat => exact Holds.change hs h hf
  | apply ctx snapshot => exact accepted ctx snapshot hs
  | rename ctx snapshot => exact accepted ctx snapshot hs
  | mkdir | openSrc | failInner | failOuter | ok | err => exact hs

/-- A copy reads what is live, while the version it found is. -/
theorem readAt_live {i : Nat} {g : BFile} {xs bs : List UInt8} {n : Nat}
    (hlive : b.live p = some g) (hnode : b.node p = some (.file i)) (hxs : xs <+: g.bytes)
    (h : b.readAt (.file i) xs.length (n + 1) = some bs) :
    xs ++ bs <+: g.bytes ∧ (bs = [] → xs = g.bytes) := by
  obtain ⟨j, hj, hg⟩ := Backing.live_eq_some.mp hlive
  obtain rfl : i = j := by simpa [hnode] using hj
  exact Backing.readAt_append hg hxs h

/-- The snapshot a copy takes is the version it found. -/
theorem version_sourceSnapshot {init : Stat} {g : BFile} (hg : g.version = init.version)
    (h : changedSince init (c.finalStat b p) = false) :
    (sourceSnapshot init (c.finalStat b p)).version = init.version := by
  have hsize : init.stSize = g.stat.stSize := (congrArg Version.size hg).symm
  cases hfin : c.finalStat b p with
  | none =>
    exact version_fromMetadata (hsize ▸ g.size_nonneg) (hsize ▸ g.size_lt')
  | some s =>
    rw [hfin] at h
    have hsame := changedSince_eq_false.mp h
    have hs : s.stSize = g.stat.stSize := (congrArg Version.size hsame).trans hsize
    rw [sourceSnapshot, version_fromStat (hs ▸ g.size_nonneg), hsame]

theorem HoldsAt.move (hs : HoldsAt b p pc) (hr : b.node p = none ∨ ∃ i, b.node p = some (.file i))
    (hopened : ∀ src, pc = .fstat src → OpenedAt b p src)
    (hm : CopyMove b dir abort p t c pc dir' pc') : HoldsAt b p pc' := by
  cases hm with
  | openSrc h =>
    obtain ⟨i, hi, rfl⟩ := Backing.node_of_openFile hr h
    exact ⟨i, rfl, b.issued p i hi⟩
  | fstat src =>
    obtain ⟨i, rfl, hi⟩ := hs
    obtain ⟨g, hg, hver, hat⟩ := hopened _ rfl
    refine ⟨i, rfl, hi, g, hg, hver, fun hlive => ⟨?_, trivial⟩⟩
    -- the opened file is the one at the path
    obtain ⟨j, hj, -⟩ := Backing.live_eq_some.mp hlive
    have := hat hlive
    rw [Backing.openFile_of_node hj, Option.some.injEq, Handle.file.injEq] at this
    exact this ▸ hj
  | openDst h =>
    obtain ⟨i, hsrc, hi, g, hg, hver, hread⟩ := hs
    exact ⟨i, hsrc, hi, g, hg, hver, fun hl => ⟨(hread hl).1, List.nil_prefix⟩⟩
  | @eof ctx n h =>
    obtain ⟨i, hsrc, hi, g, hg, hver, hread⟩ := hs
    refine ⟨i, hsrc, hi, g, hg, hver, fun hl => ⟨(hread hl).1, ?_⟩⟩
    rw [hsrc] at h
    exact (readAt_live hl (hread hl).1 (hread hl).2 h).2 rfl
  | @chunk ctx n bs h hne =>
    obtain ⟨i, hsrc, hi, g, hg, hver, hread⟩ := hs
    refine ⟨i, hsrc, hi, g, hg, hver, fun hl => ⟨(hread hl).1, ?_⟩⟩
    rw [hsrc] at h
    exact (readAt_live hl (hread hl).1 (hread hl).2 h).1
  | write | sync | checkAbort | apply => exact hs
  | accept h =>
    obtain ⟨i, hsrc, hi, g, hg, hver, hread⟩ := hs
    exact ⟨g, hg, hver.trans (version_sourceSnapshot hver h).symm, fun hl => (hread hl).2⟩
  | mkdirFails | mkdir | openSrcFails | fstatFails | openDstFails | readFails | writeFails
  | syncFails | refuse | applyFails | renameFails | rename | removeInner | removeOuter =>
    exact trivial

end Copy

/-! ## What a statement leaves recorded -/

section Rows

variable {db : CacheDb} {mount : MountId} {p : RelPath} {ver : Version}

theorem recorded_eq_some {fp : Fingerprint} :
    fp.recorded = some ver ↔ fp.isZero = false ∧ fp.version = ver := by
  unfold Fingerprint.recorded
  split
  · next h => simp [h]
  · next h => simp [h]

theorem recorded_markCached {source : SourceMetadata} {now : Nat} (hsize : source.size < 2^63)
    (h : (db.markCached p mount source now).recorded mount p = some ver) : ver = source.version := by
  rw [CacheDb.recorded, CacheDb.fingerprintRow, CacheDb.row_markCached, if_pos rfl, Option.map_some,
    Option.bind_some] at h
  exact (recorded_eq_some.mp h).2.symm.trans (fingerprint_cached hsize now)

/-- An update that finds the version it was asked for leaves it. -/
theorem recorded_update {live : Stat}
    (h : (db.updateSourceMetadata p mount (.fromStat live)).recorded mount p = some ver) :
    ∃ fp ∈ db.fingerprintRow p mount, Updated fp live = ver ∧
      (contentMatches fp live = true → db.recorded mount p = some (Updated fp live)) := by
  obtain ⟨fp', hfp', hver⟩ := Option.bind_eq_some_iff.mp h
  rw [CacheDb.fingerprintRow, CacheDb.updateSourceMetadata, CacheDb.row_updateRow, if_pos rfl,
    Option.map_map] at hfp'
  obtain ⟨r, hr, rfl⟩ := Option.map_eq_some_iff.mp hfp'
  obtain ⟨hzero, hver⟩ := recorded_eq_some.mp hver
  refine ⟨r.fingerprint, by rw [CacheDb.fingerprintRow, hr]; rfl, hver, fun hm => ?_⟩
  simp only [contentMatches, Bool.and_eq_true, beq_iff_eq] at hm
  have hsame : r.fingerprint.version = Updated r.fingerprint live := by
    simp only [Fingerprint.version, Updated, hm.1.1, hm.1.2]
  refine Option.bind_eq_some_iff.mpr ⟨r.fingerprint, by rw [CacheDb.fingerprintRow, hr]; rfl, ?_⟩
  refine recorded_eq_some.mpr ⟨?_, hsame⟩
  rw [← hzero]
  simp only [Fingerprint.isZero, hm.1.1, hm.1.2]
  rfl

end Rows

/-! ## The invariant -/

structure Sound (mount : MountId) (p : RelPath) (v : PathView) : Prop where
  regular : v.backing.node p = none ∨ ∃ i, v.backing.node p = some (.file i)
  distinct : v.backing.DistinctAt p
  recorded : ∀ ver ∈ v.recorded mount p, Describes v.backing p (v.dir.bytesAt p) ver
  backfill : ∀ k t abort st, v.phase k = .running t abort (.verdict (.needsBackfill st)) →
    ∃ g ∈ v.backing.past p, g.version = st.version
  copies : ∀ k t abort pc, v.phase k = .running t abort (.copy pc) → HoldsAt v.backing p pc

section Steps

variable {cfg : Config} {p : RelPath} {v v' : PathView} {a : Action}

/-- A step that records nothing, and starts no worker but at its beginning. -/
theorem Sound.keep {mount : MountId} (hi : Sound mount p v) (hb : v'.backing = v.backing)
    (hbytes : v'.dir.bytesAt p = v.dir.bytesAt p ∨ v'.dir.bytesAt p = none)
    (hrow : ∀ ver, v'.db.recorded mount p = some ver → v.db.recorded mount p = some ver)
    (hrun : ∀ k t abort pc, v'.phase k = .running t abort pc →
      pc = .start ∨ ∃ abort', v.phase k = .running t abort' pc) : Sound mount p v' where
  regular := hb ▸ hi.regular
  distinct := hb ▸ hi.distinct
  recorded ver hver := by
    rw [hb]
    refine (hi.recorded ver (mem_recorded.mpr ?_)).mono hbytes
    rcases mem_recorded.mp hver with h | ⟨k, h⟩
    · exact .inl (hrow ver h)
    · cases hphase : v'.phase k with
      | absent | waiting => rw [hphase] at h; exact absurd h (by simp [Phase.recorded])
      | running t abort pc =>
        rw [hphase] at h
        rcases hrun k t abort pc hphase with rfl | ⟨abort', hold⟩
        · exact absurd h (by simp [Phase.recorded, WorkerPc.recorded])
        · exact .inr ⟨k, by rw [hold]; exact h⟩
  backfill k t abort st h := by
    rcases hrun k t abort _ h with e | ⟨abort', hold⟩
    · exact absurd e (by simp)
    · rw [hb]
      exact hi.backfill k t abort' st hold
  copies k t abort pc h := by
    rcases hrun k t abort _ h with e | ⟨abort', hold⟩
    · exact absurd e (by simp)
    · rw [hb]
      exact hi.copies k t abort' pc hold

/-- A change of the backing. -/
theorem Sound.change {mount : MountId} {c : BackingChange} {b' : Backing} {pending : Bool}
    (hi : Sound mount p v) (hw : BackingWrite v.backing p c) (h : v.backing.change c = some b') :
    Sound mount p { v with backing := b', pending := pending } where
  regular := regular_write hi.regular hw h
  distinct := hi.distinct.change hw.1 h
  recorded ver hver := (hi.recorded ver hver).change h hw.1
  backfill k t abort st hk := by
    obtain ⟨g, hg, hver⟩ := hi.backfill k t abort st hk
    exact ⟨g, Backing.past_change h hg, hver⟩
  copies k t abort pc hk := (hi.copies k t abort pc hk).change h hw.1

section Worker

variable {k : CacheJobKind} {t : Nat} {c : WorkChoice} {abort : Bool} {pc pc' : WorkerPc}
  {dir' : CacheDir} {db' : CacheDb} {e : JobEffect} {mount : MountId}

/-- The step of a worker, by what it leaves recorded. -/
theorem Sound.worked (hi : Sound mount p v)
    (hold : ∀ ver ∈ v.recorded mount p, Describes v.backing p (dir'.bytesAt p) ver)
    (hrow : ∀ ver, db'.recorded mount p = some ver → Describes v.backing p (dir'.bytesAt p) ver)
    (hpc : ∀ ver, pc'.recorded = some ver → Describes v.backing p (dir'.bytesAt p) ver)
    (hfill : ∀ st, pc' = .verdict (.needsBackfill st) → ∃ g ∈ v.backing.past p, g.version = st.version)
    (hcopy : ∀ cpc, pc' = .copy cpc → HoldsAt v.backing p cpc) :
    Sound mount p (v.worked k t abort dir' db' e pc') := by
  have hdir : (v.worked k t abort dir' db' e pc').dir = dir' := by cases e <;> rfl
  have hdb : (v.worked k t abort dir' db' e pc').db = db' := by cases e <;> rfl
  have hbacking : (v.worked k t abort dir' db' e pc').backing = v.backing := by cases e <;> rfl
  refine ⟨hbacking ▸ hi.regular, hbacking ▸ hi.distinct, fun ver hver => ?_, fun k' t' abort' st h => ?_,
    fun k' t' abort' cpc h => ?_⟩
  · rw [hbacking, hdir]
    rcases mem_recorded.mp hver with h | ⟨k', h⟩
    · exact hrow ver (hdb ▸ h)
    · cases hphase : (v.worked k t abort dir' db' e pc').phase k' with
      | absent | waiting => rw [hphase] at h; exact absurd h (by simp [Phase.recorded])
      | running t' abort' pc'' =>
        rw [hphase] at h
        rcases PathView.running_worked hphase with ⟨-, -, rfl⟩ | ⟨-, hold'⟩
        · exact hpc ver h
        · exact hold ver (mem_recorded.mpr (.inr ⟨k', by rw [hold']; exact h⟩))
  · rw [hbacking]
    rcases PathView.running_worked h with ⟨-, -, e'⟩ | ⟨-, h⟩
    · exact hfill st e'.symm
    · exact hi.backfill k' t' abort' st h
  · rw [hbacking]
    rcases PathView.running_worked h with ⟨-, -, e'⟩ | ⟨-, h⟩
    · exact hcopy cpc e'.symm
    · exact hi.copies k' t' abort' cpc h

/-- What the update of a refresh leaves recorded. -/
theorem Sound.updated {live : Stat} (hi : Sound mount p v)
    (hf : UpdateFits v.backing v.db mount p live) {ver : Version}
    (h : (v.db.updateSourceMetadata p mount (.fromStat live)).recorded mount p = some ver) :
    Describes v.backing p (v.dir.bytesAt p) ver := by
  obtain ⟨fp, hfp, rfl, hsame⟩ := recorded_update h
  rcases hf fp hfp with hm | ⟨hpast, hdead⟩
  · exact hi.recorded _ (mem_recorded.mpr (.inl (hsame hm)))
  · exact ⟨hpast, fun f hl e => absurd e (hdead f hl)⟩

/-- The bytes after a step of the path's own worker, for what was recorded. -/
theorem Sound.recorded_worked (hi : Sound mount p v) (hphase : v.phase k = .running t abort pc)
    (hf : pc.Faithful mount p v) (hfile : OwnFile p t v.dir dir' pc pc') {ver : Version}
    (hver : ver ∈ v.recorded mount p) : Describes v.backing p (dir'.bytesAt p) ver := by
  have hold := hi.recorded ver hver
  rcases hfile with ⟨ctx, snapshot, rfl, rfl, hcommitted⟩ | ⟨-, hsame⟩
  · -- the record is not live, or it is of the version that the copy commits
    refine ⟨hold.1, fun f hlive he bs hbs => ?_⟩
    obtain ⟨g, hg, hgver, hread⟩ := hi.copies k t abort _ hphase
    have hsnap : snapshot.version = ver := hf ver hver ⟨f, hlive, he⟩
    have hfg : g = f := hi.distinct.eq hg (Backing.live_mem_past hlive)
      (hgver.trans (hsnap.trans he.symm))
    subst hfg
    rw [CacheDir.bytesAt_written hcommitted, Option.mem_some_iff] at hbs
    rw [← hbs]
    exact hread hlive
  · refine hold.mono (hsame.imp (fun e => ?_) fun e => ?_) <;> rw [CacheDir.bytesAt, e] <;> rfl

/-- A copy that has committed records what it has committed. -/
theorem Sound.committed {ctx : CopyCtx} {snapshot : SourceMetadata} (hi : Sound mount p v)
    (hphase : v.phase k = .running t abort (.copy (.rename ctx snapshot)))
    (hfile : dir'.contents p = some (written t ctx.written)) :
    Describes v.backing p (dir'.bytesAt p) snapshot.version := by
  obtain ⟨g, hg, hgver, hread⟩ := hi.copies k t abort _ hphase
  refine ⟨⟨g, hg, hgver⟩, fun f hlive he bs hbs => ?_⟩
  have hfg : g = f := hi.distinct.eq hg (Backing.live_mem_past hlive) (hgver.trans he.symm)
  subst hfg
  rw [CacheDir.bytesAt_written hfile, Option.mem_some_iff] at hbs
  rw [← hbs]
  exact hread hlive

/-- A row that is written with a version which describes the bytes. -/
theorem describes_marked {source : SourceMetadata} {now : Nat} {bytes : Option (List UInt8)}
    (hd : Describes v.backing p bytes source.version) {ver : Version}
    (h : (v.db.markCached p mount source now).recorded mount p = some ver) :
    Describes v.backing p bytes ver := by
  obtain ⟨g, -, hver⟩ := hd.1
  have hsize : (source.size : Int) = g.stat.stSize := (congrArg Version.size hver).symm
  have hlt : source.size < 2^63 := by
    have := g.size_lt'
    omega
  rw [recorded_markCached hlt h]
  exact hd

/-- What a validation stats is a version the path has. -/
theorem seen_past {st : Stat} {fp : Fingerprint}
    (hr : v.backing.node p = none ∨ ∃ i, v.backing.node p = some (.file i))
    (h : isStaleWithFingerprint (c.stat v.backing p) fp = .needsBackfill st) :
    ∃ g ∈ v.backing.past p, g.version = st.version := by
  have hst : v.backing.stat p = some st := by
    cases hs : c.stat v.backing p with
    | none => rw [hs] at h; exact absurd h (by simp [isStaleWithFingerprint])
    | some st' =>
      rw [hs, isStaleWithFingerprint] at h
      have hst' : st' = st := by
        split at h
        · exact StaleResult.needsBackfill.inj h
        · split at h <;> exact absurd h (by simp)
      unfold WorkChoice.stat at hs
      split at hs
      · exact absurd hs (by simp)
      · exact hst' ▸ hs
  rcases hr with hn | ⟨i, hi⟩
  · exact absurd hst (by simp [Backing.stat, hn])
  · obtain rfl : (v.backing.file i).stat = st := by simpa [Backing.stat, hi] using hst
    exact ⟨v.backing.file i, v.backing.live_past p i hi, rfl⟩

theorem Sound.work (hi : Sound mount p v) (hphase : v.phase k = .running t abort pc)
    (hf : pc.Faithful mount p v) (hfile : OwnFile p t v.dir dir' pc pc')
    (hm : WorkMove v.backing v.dir v.db mount abort p k t c pc dir' db' e pc') :
    Sound mount p (v.worked k t abort dir' db' e pc') := by
  have hold := fun (ver : Version) (hver : ver ∈ v.recorded mount p) =>
    hi.recorded_worked hphase hf hfile hver
  have hsame : ∀ ver, v.db.recorded mount p = some ver →
      Describes v.backing p (dir'.bytesAt p) ver :=
    fun ver h => hold ver (mem_recorded.mpr (.inl h))
  cases hm with
  | skip | begin | promote | noRoom | copyFailed | fresh | notTracked | dropFile | stale | finish
  | noRow =>
    exact hi.worked hold hsame (by simp [WorkerPc.recorded]) (by simp) (by simp)
  | room =>
    refine hi.worked hold hsame (by simp [WorkerPc.recorded]) (by simp) ?_
    rintro cpc ⟨⟩
    trivial
  | readRow hk hfp =>
    refine hi.worked hold hsame (fun ver h => hsame ver ?_) (by simp) (by simp)
    rw [CacheDb.recorded, hfp]
    exact h
  | @copy cpc cpc' _ h =>
    refine hi.worked hold hsame (fun ver hver => ?_) (by simp) ?_
    · cases h with
      | rename hr =>
        obtain rfl := Option.some.inj hver
        rcases hfile with ⟨ctx, snapshot, ⟨⟩, -, hc⟩ | ⟨hno, -⟩
        · exact hi.committed hphase hc
        · exact absurd rfl (hno _)
      | _ => exact absurd hver (by simp [WorkerPc.recorded])
    · rintro cpc'' ⟨⟩
      refine (hi.copies k t abort _ hphase).move hi.regular ?_ h
      intro src hsrc
      subst hsrc
      exact hf
  | mark snapshot =>
    have hd := hold snapshot.version (mem_recorded.mpr (.inr ⟨k, by rw [hphase]; rfl⟩))
    exact hi.worked hold (fun ver h => describes_marked hd h) (by simp [WorkerPc.recorded]) (by simp)
      (by simp)
  | statLive fp =>
    refine hi.worked hold hsame (by simp [WorkerPc.recorded]) (fun st h => ?_) (by simp)
    exact seen_past hi.regular (WorkerPc.verdict.inj h)
  | backfill st =>
    have hd : Describes v.backing p (v.dir.bytesAt p) (SourceMetadata.fromStat st).version := by
      obtain ⟨g, hg, hver⟩ := hi.backfill k t abort st hphase
      have hsize : st.stSize = g.stat.stSize := (congrArg Version.size hver).symm
      rw [version_fromStat (hsize ▸ g.size_nonneg)]
      exact ⟨⟨g, hg, hver⟩, hf⟩
    exact hi.worked hold (fun ver h => describes_marked hd h) (by simp [WorkerPc.recorded]) (by simp)
      (by simp)
  | refresh hr =>
    cases refreshMove_of_step hr with
    | agree | differs =>
      exact hi.worked hold hsame (by simp [WorkerPc.recorded]) (by simp) (by simp)
  | @refreshed rpc _ hr =>
    have hmove := refreshMove_of_step hr
    cases hmove with
    | stop => exact hi.worked hold hsame (by simp [WorkerPc.recorded]) (by simp) (by simp)
    | update live =>
      exact hi.worked hold (fun ver h => hi.updated hf h) (by simp [WorkerPc.recorded]) (by simp)
        (by simp)
  | dropRow =>
    refine hi.worked hold (fun ver h => ?_) (by simp [WorkerPc.recorded]) (by simp) (by simp)
    rw [CacheDb.recorded, CacheDb.fingerprintRow, CacheDb.row_remove, if_pos rfl] at h
    exact absurd h (by simp)

end Worker

/-- After a startup a row that is taken at its word was there before. -/
theorem recorded_reconcile {dir : CacheDir} {db : CacheDb} {mount : MountId} {now : Nat}
    {ver : Version} (h : (reconcileWithDisk dir db mount now).2.recorded mount p = some ver) :
    db.recorded mount p = some ver := by
  obtain ⟨fp, hfp, hver⟩ := Option.bind_eq_some_iff.mp h
  obtain ⟨r, hr, rfl⟩ := Option.map_eq_some_iff.mp hfp
  rcases row_reconcileWithDisk dir db mount now hr with hold | ⟨size, rfl⟩
  · exact Option.bind_eq_some_iff.mpr ⟨_, Option.map_eq_some_iff.mpr ⟨r, hold, rfl⟩, hver⟩
  · exact absurd (recorded_eq_some.mp hver).1 (by simp [Row.recovered, Row.fingerprint, Fingerprint.isZero])

/-- A startup drops the file or leaves it. -/
theorem bytesAt_reconcile (dir : CacheDir) (db : CacheDb) (mount : MountId) (now : Nat) :
    (reconcileWithDisk dir db mount now).1.bytesAt p = dir.bytesAt p ∨
      (reconcileWithDisk dir db mount now).1.bytesAt p = none := by
  simp only [reconcileWithDisk, CacheDir.bytesAt, contents_removePartials]
  split
  · exact .inr rfl
  · exact .inl rfl

theorem Sound.move (hi : Sound cfg.mount p v) (hp : extension p ≠ some partialExt)
    (hm : PathMove cfg p True True v a v') (hf : Faithful cfg.mount p v a)
    (hw : ∀ c, a = .change c → BackingWrite v.backing p c) : Sound cfg.mount p v' := by
  -- rows of this fingerprint record the same
  have same : ∀ {db' : CacheDb}, db'.fingerprintRow p cfg.mount = v.db.fingerprintRow p cfg.mount →
      ∀ ver, db'.recorded cfg.mount p = some ver → v.db.recorded cfg.mount p = some ver := by
    intro db' h ver hver
    rwa [CacheDb.recorded, h] at hver
  have sameRow : ∀ {db' : CacheDb}, db'.row p cfg.mount = v.db.row p cfg.mount →
      ∀ ver, db'.recorded cfg.mount p = some ver → v.db.recorded cfg.mount p = some ver :=
    fun h => same (by rw [CacheDb.fingerprintRow, h, CacheDb.fingerprintRow])
  have running : ∀ k t abort pc, v.phase k = .running t abort pc →
      pc = .start ∨ ∃ abort', v.phase k = .running t abort' pc :=
    fun k t abort pc h => .inr ⟨abort, h⟩
  have queued : ∀ k₀ k t abort pc, (v.submitted k₀).phase k = .running t abort pc →
      pc = .start ∨ ∃ abort', v.phase k = .running t abort' pc :=
    fun k₀ k t abort pc h => .inr ⟨abort, PathView.running_submitted.mp h⟩
  cases hm with
  | foreign hrow hname =>
    refine hi.keep rfl (.inl ?_) (sameRow (hrow trivial)) running
    rw [CacheDir.bytesAt, (hname hp).2.2 trivial]
    rfl
  | change h => exact hi.change (hw _ rfl) h
  | submit k now hrow => exact hi.keep rfl (.inl rfl) (sameRow hrow) (queued k)
  | @expire now phase' h =>
    refine hi.keep rfl (.inl rfl) (fun _ => id) fun k t abort pc hk => ?_
    rcases h k with e | ⟨-, e⟩
    · exact .inr ⟨abort, e.symm.trans hk⟩
    · exact absurd (e.symm.trans hk) (by simp)
  | @spawn _ k₀ t₀ abort₀ h =>
    refine hi.keep rfl (.inl rfl) (fun _ => id) fun k t abort pc hk => ?_
    by_cases hkk : k = k₀
    · subst hkk
      simp only [PathView.put, Function.update_self] at hk
      exact .inl (Phase.running.inj hk).2.2.symm
    · exact .inr ⟨abort, by simpa only [PathView.put, Function.update_of_ne hkk] using hk⟩
  | @work t c k abort pc pc' dir' db' e hphase hm hfile hstep =>
    have hfaithful := hf k k.mem_all
    rw [hphase] at hfaithful
    exact hi.work hphase (hfaithful rfl) (hfile trivial hp) hm
  | event hw => exact hi.keep rfl (.inl rfl) (fun _ => id) running
  | @markAbort now phase' hw h =>
    refine hi.keep rfl (.inl rfl) (fun _ => id) fun k t abort pc hk => ?_
    have hk : phase' k = .running t abort pc := hk
    rcases h k with e | ⟨t', abort', pc', e, e'⟩
    · exact .inr ⟨abort, e.symm.trans hk⟩
    · obtain ⟨rfl, -, rfl⟩ := Phase.running.inj (e'.symm.trans hk)
      exact .inr ⟨abort', e⟩
  | dispatch hw => exact hi.keep rfl (.inl rfl) (fun _ => id) (queued .validate)
  | @evictFile dir' h =>
    refine hi.keep rfl (.inr ?_) (fun _ => id) running
    have hnone : dir'.fileAt p = none := by rw [Files.fileAt_remove h, if_pos rfl]
    simp [CacheDir.bytesAt, Files.contents, hnone]
  | evictRow =>
    refine hi.keep rfl (.inl rfl) (fun ver h => ?_) running
    rw [CacheDb.recorded, CacheDb.fingerprintRow, CacheDb.row_remove, if_pos rfl] at h
    exact absurd h (by simp)
  | hit now =>
    exact hi.keep rfl (.inl rfl) (same (CacheDb.fingerprintRow_markHit now)) running
  | touch i h => exact hi.keep rfl (.inl rfl) (fun _ => id) running
  | @refresh i pc db' next h hr =>
    have hfaithful := hf pc h
    cases refreshMove_of_step hr with
    | stop | agree | differs => exact hi.keep rfl (.inl rfl) (fun _ => id) running
    | update live =>
      refine ⟨hi.regular, hi.distinct, fun ver hver => ?_, hi.backfill, hi.copies⟩
      rcases mem_recorded.mp hver with h | h
      · exact hi.updated hfaithful h
      · exact hi.recorded ver (mem_recorded.mpr (.inr h))
  | @crash now loaded dir' db' phase' hr hphase =>
    obtain ⟨rfl, rfl⟩ := Prod.mk.inj hr
    refine hi.keep rfl (bytesAt_reconcile v.dir v.db cfg.mount now)
      (fun ver h => recorded_reconcile h) fun k t abort pc hk => ?_
    have hk : phase' k = .running t abort pc := hk
    rcases hphase k with e | e <;> exact absurd (e.symm.trans hk) (by simp)

end Steps

end FsCache
