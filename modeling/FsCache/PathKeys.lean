import FsCache.Eviction

/- The text keys of the database (cache/db.rs).

   Every statement takes its path through `to_string_lossy`, and every query makes a path of
   the text it finds. Here paths are arbitrary byte strings without NUL, and the tables are
   keyed by texts. `keys_faithful_iff`: over a set of paths the keys are faithful in every
   sequence of statements, exactly if every path of the set is UTF-8. `lossy_share_row` is
   two paths of one row.

   The other modules take a path by its components (`CacheDb`); `textKey_textOf` and
   `textKey_inj_iff` are that the keys are the same there.

   Correspondence (Rust ↔ Lean):
     `rel_path.to_string_lossy()`           ↔ `textKey`
     `mark_cached`, …, `remove_deferred`    ↔ `KeyOp`, `TextDb.exec`
     `eviction_candidates`, …, `load_deferred` ↔ `TextDb.evictionCandidates`, …, `TextDb.loadDeferred` -/

namespace FsCache
open Lib

/-- A path as the file system has it. -/
structure TextPath where
  bytes : List UInt8
  noNul : 0 ∉ bytes
  deriving DecidableEq

abbrev Text := List UInt8

def textKey (p : TextPath) : Text := toStringLossy p.bytes

/-- The path is valid UTF-8: `to_string_lossy` borrows it. -/
def TextPath.Valid (p : TextPath) : Prop := textKey p = p.bytes

structure TextDb where
  cacheFiles : Map (Text × MountId) Row
  deferredEvents : Map Text (Text × Int)

inductive KeyOp where
  | markCached (relPath : TextPath) (mount : MountId) (source : SourceMetadata) (now : Nat)
  | markHit (relPath : TextPath) (mount : MountId) (now : Nat)
  | saveDeferred (key path : TextPath) (timestamp : Nat)
  | remove (relPath : TextPath) (mount : MountId)
  | removeDeferred (key : TextPath)

def KeyOp.paths : KeyOp → List TextPath
  | .markCached p _ _ _ | .markHit p _ _ | .remove p _ | .removeDeferred p => [p]
  | .saveDeferred key path _ => [key, path]

namespace TextDb

def empty : TextDb := ⟨∅, ∅⟩

def apply (db : TextDb) : KeyOp → TextDb
  | .markCached p mount source now =>
    { db with cacheFiles := db.cacheFiles.insert (textKey p, mount) (Row.cached source now) }
  | .markHit p mount now =>
    match db.cacheFiles.lookup (textKey p, mount) with
    | none => db
    | some row =>
      { db with
        cacheFiles := db.cacheFiles.insert (textKey p, mount)
          { row with lastHitAt := asI64 now, hitCount := row.hitCount + 1 } }
  | .saveDeferred key path timestamp =>
    { db with deferredEvents := db.deferredEvents.insert (textKey key) (textKey path, asI64 timestamp) }
  | .remove p mount => { db with cacheFiles := db.cacheFiles.erase (textKey p, mount) }
  | .removeDeferred key => { db with deferredEvents := db.deferredEvents.erase (textKey key) }

def exec (ops : List KeyOp) : TextDb := ops.foldl apply empty

def row (db : TextDb) (p : TextPath) (mount : MountId) : Option Row :=
  db.cacheFiles.lookup (textKey p, mount)

def deferredRow (db : TextDb) (key : TextPath) : Option (Text × Int) :=
  db.deferredEvents.lookup (textKey key)

/-- The rows of a mount. -/
def rowsOf (db : TextDb) (mount : MountId) : List (Text × Row) :=
  db.cacheFiles.entries.filterMap fun e => if e.1.2 = mount then some (e.1.1, e.2) else none

/-- The paths that the queries return are the texts of the keys. -/
def evictionCandidates (db : TextDb) (mount : MountId) : List (Text × Nat) :=
  ((db.rowsOf mount).insertionSort fun e e' => e.2.lastHitAt ≤ e'.2.lastHitAt).map
    fun e => (e.1, e.2.sizeBytes.toNat)

def expiredFiles (db : TextDb) (mount : MountId) (expirySecs now : Nat) : List (Text × Nat) :=
  ((db.rowsOf mount).filter fun e => e.2.expired expirySecs now).map
    fun e => (e.1, e.2.sizeBytes.toNat)

def allFingerprints (db : TextDb) (mount : MountId) : List (Text × Fingerprint) :=
  (db.rowsOf mount).map fun e => (e.1, e.2.fingerprint)

def loadDeferred (db : TextDb) (ttlMinutes now : Nat) : List (Text × Text × Nat) :=
  db.deferredEvents.entries.filterMap fun e =>
    if asI64 (CacheDb.ttlCutoff ttlMinutes now) ≤ e.2.2 then some (e.1, e.2.1, asU64 e.2.2) else none

/-- A path that a query on the rows of the mount returns. -/
def ReturnsRow (db : TextDb) (mount : MountId) (text : Text) : Prop :=
  (∃ size, (text, size) ∈ db.evictionCandidates mount) ∨
  (∃ expirySecs now size, (text, size) ∈ db.expiredFiles mount expirySecs now) ∨
  ∃ fp, (text, fp) ∈ db.allFingerprints mount

/-- A path that `load_deferred` returns, as the key or as the path of an entry. -/
def ReturnsDeferred (db : TextDb) (text : Text) : Prop :=
  ∃ ttlMinutes now, ∃ e ∈ db.loadDeferred ttlMinutes now, text = e.1 ∨ text = e.2.1

end TextDb

open TextDb

/-- `mark_cached` has stored the path for the mount. -/
def StoresRow (ops : List KeyOp) (mount : MountId) (p : TextPath) : Prop :=
  ∃ source now, .markCached p mount source now ∈ ops

/-- `save_deferred` has stored the path. -/
def StoresDeferred (ops : List KeyOp) (p : TextPath) : Prop :=
  ∃ key path timestamp, .saveDeferred key path timestamp ∈ ops ∧ (p = key ∨ p = path)

/-- In every sequence of statements on the paths of the set, a statement leaves the rows of all paths
alone but its own, and every path a query returns has been stored, byte for byte. -/
def KeysFaithful (P : Set TextPath) : Prop :=
  ∀ ops : List KeyOp, (∀ op ∈ ops, ∀ p ∈ op.paths, p ∈ P) →
    (∀ op : KeyOp, (∀ p ∈ op.paths, p ∈ P) → ∀ p ∈ P, p ∉ op.paths →
      (∀ mount, ((exec ops).apply op).row p mount = (exec ops).row p mount) ∧
      ((exec ops).apply op).deferredRow p = (exec ops).deferredRow p) ∧
    (∀ mount text, (exec ops).ReturnsRow mount text → ∃ p, StoresRow ops mount p ∧ p.bytes = text) ∧
    ∀ text, (exec ops).ReturnsDeferred text → ∃ p, StoresDeferred ops p ∧ p.bytes = text

/-! ## What the keys are -/

theorem mem_rowsOf {db : TextDb} {mount : MountId} {text : Text} {r : Row} :
    (text, r) ∈ db.rowsOf mount ↔ db.cacheFiles.lookup (text, mount) = some r := by
  rw [rowsOf, List.mem_filterMap]
  constructor
  · intro h
    obtain ⟨e, he, hr⟩ := h
    split at hr
    · next hm =>
      obtain ⟨rfl, rfl⟩ := Prod.mk.inj (Option.some.inj hr)
      rw [← hm]
      exact AList.mem_lookup_iff.mpr he
    · exact absurd hr (by simp)
  · intro h
    exact ⟨⟨(text, mount), r⟩, AList.mem_lookup_iff.mp h, by simp⟩

/-- The queries return the keys of the rows. -/
theorem returnsRow_iff {db : TextDb} {mount : MountId} {text : Text} :
    db.ReturnsRow mount text ↔ ∃ r, db.cacheFiles.lookup (text, mount) = some r := by
  constructor
  · intro h
    rcases h with ⟨size, h⟩ | ⟨expirySecs, now, size, h⟩ | ⟨fp, h⟩
    · obtain ⟨e, he, heq⟩ := List.mem_map.mp h
      obtain ⟨rfl, -⟩ := Prod.mk.inj heq
      exact ⟨e.2, mem_rowsOf.mp ((List.mem_insertionSort _).mp he)⟩
    · obtain ⟨e, he, heq⟩ := List.mem_map.mp h
      obtain ⟨rfl, -⟩ := Prod.mk.inj heq
      exact ⟨e.2, mem_rowsOf.mp (List.mem_filter.mp he).1⟩
    · obtain ⟨e, he, heq⟩ := List.mem_map.mp h
      obtain ⟨rfl, -⟩ := Prod.mk.inj heq
      exact ⟨e.2, mem_rowsOf.mp he⟩
  · intro h
    obtain ⟨r, hr⟩ := h
    exact .inr (.inr ⟨r.fingerprint, List.mem_map.mpr ⟨(text, r), mem_rowsOf.mpr hr, rfl⟩⟩)

/-- Every key is that of a path that was stored. -/
structure Stored (ops : List KeyOp) (db : TextDb) : Prop where
  rows : ∀ text mount r, db.cacheFiles.lookup (text, mount) = some r →
    ∃ p, StoresRow ops mount p ∧ text = textKey p
  deferred : ∀ text path ts, db.deferredEvents.lookup text = some (path, ts) →
    ∃ key p, StoresDeferred ops key ∧ StoresDeferred ops p ∧ text = textKey key ∧ path = textKey p

theorem StoresRow.append {ops : List KeyOp} {mount : MountId} {p : TextPath} (h : StoresRow ops mount p)
    (op : KeyOp) : StoresRow (ops ++ [op]) mount p := by
  obtain ⟨source, now, hm⟩ := h
  exact ⟨source, now, List.mem_append_left _ hm⟩

theorem StoresDeferred.append {ops : List KeyOp} {p : TextPath} (h : StoresDeferred ops p) (op : KeyOp) :
    StoresDeferred (ops ++ [op]) p := by
  obtain ⟨key, path, ts, hm, hp⟩ := h
  exact ⟨key, path, ts, List.mem_append_left _ hm, hp⟩

theorem stored_exec (ops : List KeyOp) : Stored ops (exec ops) := by
  induction ops using List.reverseRecOn with
  | nil =>
    exact ⟨fun text mount r h => absurd h (by simp [exec, TextDb.empty]),
      fun text path ts h => absurd h (by simp [exec, TextDb.empty])⟩
  | append_singleton ops op ih =>
    have hexec : exec (ops ++ [op]) = (exec ops).apply op := by rw [exec, List.foldl_append]; rfl
    have hrows : ∀ text mount r, (exec ops).cacheFiles.lookup (text, mount) = some r →
        ∃ p, StoresRow (ops ++ [op]) mount p ∧ text = textKey p := by
      intro text mount r h
      obtain ⟨p, hp, ht⟩ := ih.rows text mount r h
      exact ⟨p, hp.append op, ht⟩
    have hdeferred : ∀ text path ts, (exec ops).deferredEvents.lookup text = some (path, ts) →
        ∃ key p, StoresDeferred (ops ++ [op]) key ∧ StoresDeferred (ops ++ [op]) p ∧
          text = textKey key ∧ path = textKey p := by
      intro text path ts h
      obtain ⟨key, p, hkey, hp, ht⟩ := ih.deferred text path ts h
      exact ⟨key, p, hkey.append op, hp.append op, ht⟩
    rw [hexec]
    cases op with
    | markCached q mount source now =>
      refine ⟨fun text m r h => ?_, hdeferred⟩
      simp only [apply, Map.lookup_insert_if] at h
      split at h
      · next hkey =>
        obtain ⟨rfl, rfl⟩ := Prod.mk.inj hkey
        exact ⟨q, ⟨source, now, List.mem_append_right _ List.mem_cons_self⟩, rfl⟩
      · exact hrows text m r h
    | markHit q mount now =>
      refine ⟨fun text m r h => ?_, ?_⟩
      · simp only [apply] at h
        split at h
        · exact hrows text m r h
        · next row hrow =>
          simp only [Map.lookup_insert_if] at h
          split at h
          · next hkey =>
            obtain ⟨rfl, rfl⟩ := Prod.mk.inj hkey
            exact hrows (textKey q) m row hrow
          · exact hrows text m r h
      · intro text path ts h
        simp only [apply] at h
        split at h
        · exact hdeferred text path ts h
        · exact hdeferred text path ts h
    | saveDeferred key path timestamp =>
      refine ⟨hrows, fun text p ts h => ?_⟩
      simp only [apply, Map.lookup_insert_if] at h
      split at h
      · next hkey =>
        obtain ⟨rfl, -⟩ := Prod.mk.inj (Option.some.inj h)
        have hmem : KeyOp.saveDeferred key path timestamp ∈ ops ++ [.saveDeferred key path timestamp] :=
          List.mem_append_right _ List.mem_cons_self
        exact ⟨key, path, ⟨key, path, timestamp, hmem, .inl rfl⟩, ⟨key, path, timestamp, hmem, .inr rfl⟩,
          hkey, rfl⟩
      · exact hdeferred text p ts h
    | remove q mount =>
      refine ⟨fun text m r h => ?_, hdeferred⟩
      simp only [apply, Map.lookup_erase_if] at h
      split at h
      · exact absurd h (by simp)
      · exact hrows text m r h
    | removeDeferred key =>
      refine ⟨hrows, fun text p ts h => ?_⟩
      simp only [apply, Map.lookup_erase_if] at h
      split at h
      · exact absurd h (by simp)
      · exact hdeferred text p ts h

/-- A statement leaves alone what has another key. -/
theorem apply_frame (db : TextDb) (op : KeyOp) {p : TextPath} (h : ∀ q ∈ op.paths, textKey p ≠ textKey q) :
    (∀ mount, (db.apply op).row p mount = db.row p mount) ∧
      (db.apply op).deferredRow p = db.deferredRow p := by
  cases op with
  | markCached q mount source now =>
    refine ⟨fun m => ?_, rfl⟩
    rw [row, apply, Map.lookup_insert_if, if_neg fun e => h q List.mem_cons_self (Prod.mk.inj e).1, row]
  | markHit q mount now =>
    simp only [apply]
    split
    · exact ⟨fun _ => rfl, rfl⟩
    · refine ⟨fun m => ?_, rfl⟩
      rw [row, Map.lookup_insert_if, if_neg fun e => h q List.mem_cons_self (Prod.mk.inj e).1, row]
  | saveDeferred key path timestamp =>
    refine ⟨fun _ => rfl, ?_⟩
    rw [deferredRow, apply, Map.lookup_insert_if, if_neg (h key List.mem_cons_self), deferredRow]
  | remove q mount =>
    refine ⟨fun m => ?_, rfl⟩
    rw [row, apply, Map.lookup_erase_if, if_neg fun e => h q List.mem_cons_self (Prod.mk.inj e).1, row]
  | removeDeferred key =>
    refine ⟨fun _ => rfl, ?_⟩
    rw [deferredRow, apply, Map.lookup_erase_if, if_neg (h key List.mem_cons_self), deferredRow]

/-- The keys are faithful over a set of paths exactly if all of them are UTF-8. -/
theorem keys_faithful_iff (P : Set TextPath) : KeysFaithful P ↔ ∀ p ∈ P, p.Valid := by
  constructor
  · -- a path that is cached alone comes back as its key
    intro h p hp
    obtain ⟨-, hrows, -⟩ := h [.markCached p [] ⟨0, 0, 0, 0, 0, 0, 0, 0, 0, 0, 0, 0, 0, 0⟩ 0] (by
      intro op hop q hq
      obtain rfl := List.mem_singleton.mp hop
      obtain rfl := List.mem_singleton.mp hq
      exact hp)
    obtain ⟨q, ⟨source, now, hmem⟩, hq⟩ := hrows [] (textKey p) (returnsRow_iff.mpr ⟨_, AList.lookup_insert _⟩)
    injection List.mem_singleton.mp hmem with hqp
    rw [TextPath.Valid, ← hq, hqp]
  · intro hvalid ops hops
    have hstored := stored_exec ops
    refine ⟨fun op hop p hp hnot => apply_frame _ op fun q hq hkey => ?_, fun mount text hret => ?_,
      fun text hret => ?_⟩
    · have hbytes : p.bytes = q.bytes := by rw [← hvalid p hp, hkey, hvalid q (hop q hq)]
      obtain rfl : p = q := by
        cases p
        cases q
        simpa using hbytes
      exact hnot hq
    · obtain ⟨r, hr⟩ := returnsRow_iff.mp hret
      obtain ⟨p, hp, htext⟩ := hstored.rows text mount r hr
      obtain ⟨source, now, hmem⟩ := hp
      exact ⟨p, ⟨source, now, hmem⟩, ((hvalid p (hops _ hmem p List.mem_cons_self)).symm.trans htext.symm)⟩
    · have hback : ∀ p, StoresDeferred ops p → p.bytes = textKey p := by
        intro p hp
        obtain ⟨key, path, ts, hmem, heq⟩ := hp
        refine (hvalid p (hops _ hmem p ?_)).symm
        rcases heq with rfl | rfl <;> simp [KeyOp.paths]
      obtain ⟨ttlMinutes, now, e, he, htext⟩ := hret
      obtain ⟨x, hx, hsel⟩ := List.mem_filterMap.mp he
      split at hsel
      · obtain rfl := Option.some.inj hsel
        obtain ⟨key, p, hkey, hp, hk, hpath⟩ :=
          hstored.deferred x.1 x.2.1 x.2.2 (AList.mem_lookup_iff.mpr hx)
        rcases htext with rfl | rfl
        · exact ⟨key, hkey, (hback key hkey).trans hk.symm⟩
        · exact ⟨p, hp, (hback p hp).trans hpath.symm⟩
      · exact absurd hsel (by simp)

section Latin

/-- Two names in Latin-1, each of one letter. -/
private def eAcute : TextPath := ⟨[233], by decide⟩
private def eGrave : TextPath := ⟨[232], by decide⟩

/-- Removing the one removes the row of the other. -/
theorem lossy_share_row : ¬ KeysFaithful {eAcute, eGrave} := by
  intro h
  obtain ⟨hframe, -⟩ := h [.markCached eAcute [109] ⟨0, 0, 0, 0, 0, 0, 0, 0, 0, 0, 0, 0, 0, 0⟩ 0] (by
    intro op hop q hq
    obtain rfl := List.mem_singleton.mp hop
    exact .inl (List.mem_singleton.mp hq))
  have hrow := (hframe (.remove eGrave [109]) (fun q hq => .inr (List.mem_singleton.mp hq)) eAcute (.inl rfl)
    (by decide)).1 [109]
  exact absurd hrow (by decide)

end Latin

/-! ## Keys by components -/

/-- A slash ends a sequence. -/
theorem takeCont_slash {more : Nat} {lo hi : UInt8} (h : contByte lo hi 47 = false) (a b : List UInt8) :
    takeCont more lo hi (a ++ 47 :: b) =
      ((takeCont more lo hi a).1, (takeCont more lo hi a).2.1 ++ 47 :: b, (takeCont more lo hi a).2.2) := by
  induction a generalizing more lo hi with
  | nil => cases more <;> simp [takeCont, h]
  | cons x a ih =>
    cases more with
    | zero =>
      rw [List.cons_append]
      cases hx : contByte lo hi x <;> simp [takeCont, hx]
    | succ more =>
      have hcont : contByte 128 191 47 = false := by decide
      have hrest := @ih more 128 191 hcont
      rw [List.cons_append]
      cases hx : contByte lo hi x <;> simp [takeCont, hx, hrest]

theorem leadByte_slash {x lo hi : UInt8} {more : Nat} (h : leadByte x = some (lo, hi, more)) :
    contByte lo hi 47 = false := by
  unfold leadByte at h
  repeat' split at h
  all_goals cases h <;> decide

theorem length_takeCont (more : Nat) (lo hi : UInt8) (bs : List UInt8) :
    (takeCont more lo hi bs).2.1.length ≤ bs.length := by
  have hbytes : bs = (takeCont more lo hi bs).1 ++ (takeCont more lo hi bs).2.1 := takeCont_bytes bs
  have h := congrArg List.length hbytes
  rw [List.length_append] at h
  omega

/-- More fuel than there is text changes nothing. -/
theorem lossyFrom_fuel (n : Nat) : ∀ (m : Nat) (bs : List UInt8), bs.length ≤ n → bs.length ≤ m →
    lossyFrom n bs = lossyFrom m bs := by
  induction n with
  | zero =>
    intro m bs hn _
    rw [List.eq_nil_of_length_eq_zero (Nat.le_zero.mp hn)]
    cases m <;> rfl
  | succ n ih =>
    intro m bs hn hm
    cases bs with
    | nil => cases m <;> rfl
    | cons x bs =>
      rw [List.length_cons] at hn hm
      obtain ⟨m, rfl⟩ : ∃ k, m = k + 1 := ⟨m - 1, by omega⟩
      have hbs := ih m bs (by omega) (by omega)
      rw [lossyFrom, lossyFrom]
      by_cases hx : x < 128
      · rw [if_pos hx, if_pos hx, hbs]
      · rw [if_neg hx, if_neg hx]
        cases leadByte x with
        | none => rw [hbs]
        | some r =>
          obtain ⟨lo, hi, more⟩ := r
          have hlen := length_takeCont more lo hi bs
          have hrest := ih m (takeCont more lo hi bs).2.1 (by omega) (by omega)
          simp only [hrest]

/-- What is before a slash and what is after it are converted each by itself. -/
theorem lossyFrom_slash (n : Nat) (b : List UInt8) : ∀ (a : List UInt8) (m : Nat),
    a.length + b.length < n → a.length ≤ m →
      lossyFrom n (a ++ 47 :: b) = lossyFrom m a ++ 47 :: toStringLossy b := by
  induction n with
  | zero => exact fun a m h => absurd h (Nat.not_lt_zero _)
  | succ n ih =>
    intro a m hn hm
    cases a with
    | nil =>
      have hb : lossyFrom n b = toStringLossy b :=
        lossyFrom_fuel n b.length b (by rw [List.length_nil] at hn; omega) (Nat.le_refl _)
      have hslash : lossyFrom (n + 1) (47 :: b) = 47 :: lossyFrom n b := by simp [lossyFrom]
      rw [List.nil_append, hslash, hb]
      cases m <;> rfl
    | cons x a =>
      rw [List.length_cons] at hn hm
      obtain ⟨m, rfl⟩ : ∃ k, m = k + 1 := ⟨m - 1, by omega⟩
      have ha := ih a m (by omega) (by omega)
      rw [List.cons_append, lossyFrom, lossyFrom]
      by_cases hx : x < 128
      · rw [if_pos hx, if_pos hx, ha, List.cons_append]
      · rw [if_neg hx, if_neg hx]
        cases hlead : leadByte x with
        | none => simp only [ha, List.append_assoc]
        | some r =>
          obtain ⟨lo, hi, more⟩ := r
          have hlen := length_takeCont more lo hi a
          have hrest := ih (takeCont more lo hi a).2.1 m (by omega) (by omega)
          simp only [takeCont_slash (leadByte_slash hlead), hrest, List.append_assoc]

theorem toStringLossy_slash (a b : List UInt8) :
    toStringLossy (a ++ 47 :: b) = toStringLossy a ++ 47 :: toStringLossy b :=
  lossyFrom_slash _ b a a.length (by simp) (Nat.le_refl _)

/-- The components of a path, with slashes between them. -/
def joinText : List (List UInt8) → List UInt8
  | [] => []
  | name :: rest => name ++ rest.flatMap fun next => 47 :: next

/-- The path as the file system has it. -/
def textOf (p : RelPath) : TextPath where
  bytes := joinText (p.map Name.bytes)
  noNul := by
    have hname : ∀ n : Name, 0 ∉ n.bytes := by
      intro n hn
      have hvalid := n.valid
      simp only [validName, Bool.and_eq_true, List.all_eq_true] at hvalid
      exact absurd (hvalid.1.1.2 0 hn) (by decide)
    cases p with
    | nil => exact List.not_mem_nil
    | cons n p =>
      simp only [joinText, List.map_cons, List.mem_append, List.mem_flatMap, List.mem_map, List.mem_cons, not_or]
      refine ⟨hname n, fun h => ?_⟩
      obtain ⟨_, ⟨m, _, rfl⟩, h⟩ := h
      exact h.elim (by decide) (hname m)

/-- The key of a path is the text of its key by components. -/
theorem textKey_textOf (p : RelPath) : textKey (textOf p) = joinText (rowKey p) := by
  cases p with
  | nil => rfl
  | cons name p =>
    show toStringLossy (name.bytes ++ (p.map Name.bytes).flatMap fun next => 47 :: next) =
      toStringLossy name.bytes ++ (p.map fun n => toStringLossy n.bytes).flatMap fun next => 47 :: next
    induction p generalizing name with
    | nil => simp
    | cons next p ih =>
      simp only [List.map_cons, List.flatMap_cons, List.cons_append]
      rw [toStringLossy_slash, ih next]

/-- What comes before the first slash. -/
theorem split_slash {a b : List UInt8} {l m : List (List UInt8)} (ha : 47 ∉ a) (hb : 47 ∉ b)
    (h : (a ++ l.flatMap fun next => 47 :: next) = b ++ m.flatMap fun next => 47 :: next) :
    a = b ∧ (l.flatMap fun next => 47 :: next) = m.flatMap fun next => 47 :: next := by
  have hfirst : ∀ (c : List UInt8) (k : List (List UInt8)), 47 ∉ c →
      (c ++ k.flatMap fun next => 47 :: next).takeWhile (· != 47) = c := by
    intro c k hc
    have hall : ∀ x ∈ c, (x != 47) = true := by
      intro x hx
      rw [bne_iff_ne]
      intro e
      exact hc (e ▸ hx)
    rw [List.takeWhile_append_of_pos hall]
    cases k <;> simp
  have hab : a = b := by rw [← hfirst a l ha, h, hfirst b m hb]
  subst hab
  exact ⟨rfl, List.append_cancel_left h⟩

theorem joinText_inj {l m : List (List UInt8)} (hl : ∀ c ∈ l, 47 ∉ c ∧ c ≠ []) (hm : ∀ c ∈ m, 47 ∉ c ∧ c ≠ [])
    (h : joinText l = joinText m) : l = m := by
  have hrest : ∀ (l m : List (List UInt8)), (∀ c ∈ l, 47 ∉ c) → (∀ c ∈ m, 47 ∉ c) →
      (l.flatMap fun next => 47 :: next) = (m.flatMap fun next => 47 :: next) → l = m := by
    intro l
    induction l with
    | nil =>
      intro m _ _ h
      cases m with
      | nil => rfl
      | cons b m => exact absurd h (by simp)
    | cons a l ih =>
      intro m hl hm h
      cases m with
      | nil => exact absurd h (by simp)
      | cons b m =>
        simp only [List.flatMap_cons, List.cons_append, List.cons.injEq, true_and] at h
        obtain ⟨rfl, hlm⟩ := split_slash (hl a List.mem_cons_self) (hm b List.mem_cons_self) h
        rw [ih m (fun c hc => hl c (List.mem_cons_of_mem a hc)) (fun c hc => hm c (List.mem_cons_of_mem a hc)) hlm]
  cases l with
  | nil =>
    cases m with
    | nil => rfl
    | cons b m => exact absurd (List.append_eq_nil_iff.mp h.symm).1 (hm b List.mem_cons_self).2
  | cons a l =>
    cases m with
    | nil => exact absurd (List.append_eq_nil_iff.mp h).1 (hl a List.mem_cons_self).2
    | cons b m =>
      obtain ⟨rfl, hlm⟩ := split_slash (hl a List.mem_cons_self).1 (hm b List.mem_cons_self).1 h
      rw [hrest l m (fun c hc => (hl c (List.mem_cons_of_mem a hc)).1)
        (fun c hc => (hm c (List.mem_cons_of_mem a hc)).1) hlm]

/-- Paths share a key as texts exactly when they do by components. -/
theorem textKey_inj_iff (p q : RelPath) : textKey (textOf p) = textKey (textOf q) ↔ rowKey p = rowKey q := by
  have hname : ∀ (p : RelPath), ∀ c ∈ rowKey p, 47 ∉ c ∧ c ≠ [] := by
    intro p c hc
    obtain ⟨n, -, rfl⟩ := List.mem_map.mp hc
    have hvalid := validName_toStringLossy n.valid
    simp only [validName, Bool.and_eq_true, List.all_eq_true] at hvalid
    refine ⟨fun h => absurd (hvalid.1.1.2 47 h) (by decide), fun h => ?_⟩
    rw [h] at hvalid
    exact absurd hvalid.1.1.1 (by decide)
  rw [textKey_textOf, textKey_textOf]
  exact ⟨joinText_inj (hname p) (hname q), fun h => by rw [h]⟩

end FsCache
