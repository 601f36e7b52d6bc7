import FsCache.Lib.Prefix

/- File names and relative paths.

   A `Name` is one component of a path: any non-empty byte string without NUL
   and `/` other than `.` and `..`, as the kernel hands them over; nothing says
   that it is UTF-8. A
   `RelPath` is the list of components below the backing directory (or below
   the mount's cache directory); `[]` is the root. `PathBuf` compares by
   components, and so does `=` here.

   Correspondence (Rust ↔ Lean):
     `Path::extension`                 ↔ `Name.extension`
     `partial_path` (cache/io.rs)      ↔ `partialPath`
     `to_string_lossy` (std)           ↔ `toStringLossy`
     the TEXT key of a row             ↔ `rowKey`, read back by `pathOfKey` -/

namespace FsCache

/-- A byte string that can be a path component. -/
def validName (bs : List UInt8) : Bool :=
  !bs.isEmpty && bs.all (fun b => b != 0 && b != 47) && bs != [46] && bs != [46, 46]

structure Name where
  bytes : List UInt8
  valid : validName bytes = true
  deriving DecidableEq

abbrev RelPath := List Name

theorem Name.ext_iff' {m n : Name} : m = n ↔ m.bytes = n.bytes := by
  cases m; cases n; simp

theorem Name.bytes_ne_nil (n : Name) : n.bytes ≠ [] := by
  intro h
  have hv := n.valid
  rw [h] at hv
  exact absurd hv (by decide)

/-- `.partial` -/
def dotPartial : List UInt8 := [46, 112, 97, 114, 116, 105, 97, 108]

theorem validName_dotPartial {bs : List UInt8} (h : validName bs = true) :
    validName (bs ++ dotPartial) = true := by
  have hlen : ∀ cs : List UInt8, cs.length ≤ 2 → bs ++ dotPartial ≠ cs := by
    intro cs hc e
    have := congrArg List.length e
    rw [List.length_append, show dotPartial.length = 8 from rfl] at this
    omega
  simp only [validName, Bool.and_eq_true, List.all_append, bne_iff_ne] at h ⊢
  refine ⟨⟨⟨?_, h.1.1.2, by decide⟩, hlen _ (by decide)⟩, hlen _ (by decide)⟩
  cases bs with
  | nil => exact absurd h.1.1.1 (by decide)
  | cons b bs => rfl

/-- The name with `.partial` appended. -/
def Name.withPartial (n : Name) : Name :=
  ⟨n.bytes ++ dotPartial, validName_dotPartial n.valid⟩

/-- `partial_path`: `.partial` appended to the last component. The root is no
file and is never copied; it is its own image, so that the result stays a path
of the tree. -/
def partialPath : RelPath → RelPath
  | [] => []
  | [n] => [n.withPartial]
  | n :: m :: p => n :: partialPath (m :: p)

/-- `Path::extension` of a file name: what follows the last dot, unless there
is no dot or only the leading one. -/
def Name.extension (n : Name) : Option (List UInt8) :=
  match n.bytes.reverse.dropWhile (· != 46) with
  | [] => none
  | [_] => none
  | _ :: _ :: _ => some (n.bytes.reverse.takeWhile (· != 46)).reverse

def extension (p : RelPath) : Option (List UInt8) := p.getLast?.bind Name.extension

/-- `partial` -/
def partialExt : List UInt8 := [112, 97, 114, 116, 105, 97, 108]

/-! ## Temporary names -/

theorem Name.withPartial_inj {m n : Name} (h : m.withPartial = n.withPartial) : m = n := by
  rw [Name.ext_iff'] at h ⊢
  exact List.append_cancel_right h

theorem Name.withPartial_ne (n : Name) : n.withPartial ≠ n := by
  intro h
  have := congrArg (fun m : Name => m.bytes.length) h
  simp [Name.withPartial, dotPartial] at this

theorem partialPath_cons {n : Name} {p : RelPath} (h : p ≠ []) :
    partialPath (n :: p) = n :: partialPath p := by
  cases p with
  | nil => exact absurd rfl h
  | cons m p => rfl

theorem partialPath_append {d : RelPath} {n : Name} :
    partialPath (d ++ [n]) = d ++ [n.withPartial] := by
  induction d with
  | nil => rfl
  | cons m d ih => rw [List.cons_append, partialPath_cons (by simp), ih, List.cons_append]

@[simp] theorem length_partialPath (p : RelPath) : (partialPath p).length = p.length := by
  rcases List.eq_nil_or_concat p with rfl | ⟨d, n, rfl⟩
  · rfl
  · simp [List.concat_eq_append, partialPath_append]

/-- What leads to the parent is shorter than the path. -/
theorem not_prefix_dropLast {p q : RelPath} (hp : p ≠ []) (hlen : p.length ≤ q.length) :
    ¬ q <+: p.dropLast := by
  intro hpre
  have hle := hpre.length_le
  have hpos := List.length_pos_of_ne_nil hp
  rw [List.length_dropLast] at hle
  omega

theorem partialPath_not_prefix {p : RelPath} (hp : p ≠ []) : ¬ partialPath p <+: p.dropLast :=
  not_prefix_dropLast hp (length_partialPath p).ge

/-- Distinct destinations have distinct temporary files. -/
theorem partialPath_inj {p q : RelPath} (h : partialPath p = partialPath q) : p = q := by
  rcases List.eq_nil_or_concat p with rfl | ⟨d, n, rfl⟩
  · have := congrArg List.length h
    rw [length_partialPath, length_partialPath] at this
    exact (List.eq_nil_of_length_eq_zero this.symm).symm
  · rcases List.eq_nil_or_concat q with rfl | ⟨e, m, rfl⟩
    · have := congrArg List.length h
      rw [length_partialPath, length_partialPath] at this
      exact List.eq_nil_of_length_eq_zero this
    · simp only [List.concat_eq_append, partialPath_append] at h ⊢
      obtain ⟨hd, hn⟩ := List.append_inj' h rfl
      rw [hd, Name.withPartial_inj (List.singleton_inj.mp hn)]

theorem partialPath_ne {p : RelPath} (h : p ≠ []) : partialPath p ≠ p := by
  obtain ⟨d, n, rfl⟩ := (List.eq_nil_or_concat p).resolve_left h
  rw [List.concat_eq_append, partialPath_append]
  intro e
  exact Name.withPartial_ne n (List.singleton_inj.mp (List.append_cancel_left e))

/-- The temporary file lies in the directory of its destination. -/
theorem dropLast_partialPath (p : RelPath) : (partialPath p).dropLast = p.dropLast := by
  rcases List.eq_nil_or_concat p with rfl | ⟨d, n, rfl⟩
  · rfl
  · simp [List.concat_eq_append, partialPath_append]

/-- Every temporary file has the extension `partial`. -/
theorem extension_partialPath {p : RelPath} (h : p ≠ []) :
    extension (partialPath p) = some partialExt := by
  obtain ⟨d, n, rfl⟩ := (List.eq_nil_or_concat p).resolve_left h
  rw [List.concat_eq_append, partialPath_append]
  obtain ⟨b, bs, hb⟩ := List.exists_cons_of_ne_nil
    (fun e => n.bytes_ne_nil (List.reverse_eq_nil_iff.mp e) : n.bytes.reverse ≠ [])
  have hrev : n.withPartial.bytes.reverse = [108, 97, 105, 116, 114, 97, 112, 46] ++ b :: bs := by
    rw [← hb]
    simp [Name.withPartial, dotPartial]
  simp only [extension, List.getLast?_append, List.getLast?_singleton, Option.some_or,
    Option.bind_some, Name.extension, hrev]
  simp [partialExt]

/-! ## Row keys -/

/-- A byte that continues a UTF-8 sequence, within the bounds its predecessor
sets. -/
def contByte (lo hi : UInt8) (b : UInt8) : Bool := lo ≤ b && b ≤ hi

/-- The UTF-8 encoding of U+FFFD. -/
def replacement : List UInt8 := [239, 191, 189]

/-- The sequence that starts with `b`: the bounds of its second byte, and how
many more bytes follow that one. `none`: `b` starts no sequence. -/
def leadByte (b : UInt8) : Option (UInt8 × UInt8 × Nat) :=
  if 194 ≤ b && b ≤ 223 then some (128, 191, 0)
  else if b = 224 then some (160, 191, 1)
  else if b = 237 then some (128, 159, 1)
  else if 225 ≤ b && b ≤ 239 then some (128, 191, 1)
  else if b = 240 then some (144, 191, 2)
  else if 241 ≤ b && b ≤ 243 then some (128, 191, 2)
  else if b = 244 then some (128, 143, 2)
  else none

/-- The longest valid continuation of a sequence: the bytes taken, the rest,
and whether the sequence is complete. -/
def takeCont : Nat → UInt8 → UInt8 → List UInt8 → List UInt8 × List UInt8 × Bool
  | _, _, _, [] => ([], [], false)
  | more, lo, hi, b :: bs =>
    if contByte lo hi b then
      match more with
      | 0 => ([b], bs, true)
      | more + 1 =>
        let (taken, rest, done) := takeCont more 128 191 bs
        (b :: taken, rest, done)
    else ([], b :: bs, false)

/-- `String::from_utf8_lossy`, as bytes: each maximal invalid sequence becomes
one U+FFFD. The first argument is fuel, the length of the input. -/
def lossyFrom : Nat → List UInt8 → List UInt8
  | 0, _ => []
  | _, [] => []
  | fuel + 1, b :: bs =>
    if b < 128 then b :: lossyFrom fuel bs
    else
      match leadByte b with
      | none => replacement ++ lossyFrom fuel bs
      | some (lo, hi, more) =>
        let (taken, rest, done) := takeCont more lo hi bs
        (if done then b :: taken else replacement) ++ lossyFrom fuel rest

def toStringLossy (bs : List UInt8) : List UInt8 := lossyFrom bs.length bs

/-- The key a path is stored under: `to_string_lossy`, component by component
(`/` is ASCII and no part of an invalid sequence). -/
def rowKey (p : RelPath) : List (List UInt8) := p.map fun n => toStringLossy n.bytes

/-- `PathBuf::from` of a stored key. -/
def pathOfKey (k : List (List UInt8)) : RelPath :=
  k.filterMap fun bs => if h : validName bs = true then some ⟨bs, h⟩ else none

/-- The path's names are UTF-8: the lossy conversion changes nothing. -/
def IsUtf8 (p : RelPath) : Prop := rowKey p = p.map Name.bytes

instance (p : RelPath) : Decidable (IsUtf8 p) := inferInstanceAs (Decidable (_ = _))

/-- Paths whose names are UTF-8 do not share a key. -/
theorem rowKey_inj {p q : RelPath} (hp : IsUtf8 p) (hq : IsUtf8 q) (h : rowKey p = rowKey q) :
    p = q := by
  rw [hp, hq] at h
  exact List.map_injective_iff.mpr (fun m n e => Name.ext_iff'.mpr e) h

/-- A path whose names are UTF-8 is read back as it was stored. -/
theorem pathOfKey_rowKey {p : RelPath} (hp : IsUtf8 p) : pathOfKey (rowKey p) = p := by
  rw [hp]
  clear hp
  induction p with
  | nil => rfl
  | cons n p ih =>
    rw [List.map_cons, pathOfKey, List.filterMap_cons, dif_pos n.valid]
    exact congrArg (n :: ·) ih

/-! ## Converting twice -/

/-- What is taken is taken again, whatever follows it. -/
theorem takeCont_again {more : Nat} {lo hi : UInt8} {bs taken rest : List UInt8}
    (h : takeCont more lo hi bs = (taken, rest, true)) (tail : List UInt8) :
    takeCont more lo hi (taken ++ tail) = (taken, tail, true) := by
  induction bs generalizing more lo hi taken with
  | nil => exact absurd h (by simp [takeCont])
  | cons b bs ih =>
    have hb : contByte lo hi b = true := by
      by_contra hb
      cases more <;> simp [takeCont, hb] at h
    cases more with
    | zero =>
      obtain ⟨rfl, -⟩ : [b] = taken ∧ bs = rest := by simpa [takeCont, hb] using h
      simp [takeCont, hb]
    | succ more =>
      simp only [takeCont, hb, if_true, Prod.mk.injEq] at h
      obtain ⟨rfl, hrest, hdone⟩ := h
      have hagain := ih (Prod.ext rfl (Prod.ext hrest hdone))
      simp only [List.cons_append, takeCont, hb, if_true, hagain]

theorem takeCont_replacement (bs : List UInt8) :
    takeCont 1 128 191 (191 :: 189 :: bs) = ([191, 189], bs, true) := by
  simp [takeCont, contByte]

/-- A lossy text is valid, and is left as it is. -/
theorem lossyFrom_lossyFrom (n : Nat) (bs : List UInt8) (m : Nat)
    (hm : (lossyFrom n bs).length ≤ m) : lossyFrom m (lossyFrom n bs) = lossyFrom n bs := by
  induction n generalizing bs m with
  | zero => cases m <;> rfl
  | succ n ih =>
    cases bs with
    | nil => cases m <;> rfl
    | cons b bs =>
      rw [lossyFrom] at hm ⊢
      by_cases hb : b < 128
      · rw [if_pos hb] at hm ⊢
        obtain ⟨m, rfl⟩ : ∃ k, m = k + 1 := ⟨m - 1, by simp at hm; omega⟩
        rw [lossyFrom, if_pos hb, ih bs m (by simpa using hm)]
      · rw [if_neg hb] at hm ⊢
        -- one replacement character in front of a lossy text
        have replaced : ∀ l, (replacement ++ lossyFrom n l).length ≤ m →
            lossyFrom m (replacement ++ lossyFrom n l) = replacement ++ lossyFrom n l := by
          intro l hl
          simp only [replacement, List.cons_append, List.nil_append, List.length_cons] at hl ⊢
          obtain ⟨m, rfl⟩ : ∃ k, m = k + 1 := ⟨m - 1, by omega⟩
          rw [lossyFrom, if_neg (by decide)]
          simp only [show leadByte 239 = some (128, 191, 1) from by decide, takeCont_replacement,
            if_true, List.cons_append, List.nil_append]
          rw [ih l m (by omega)]
        cases hlead : leadByte b with
        | none =>
          rw [hlead] at hm
          exact replaced bs hm
        | some r =>
          obtain ⟨lo, hi, more⟩ := r
          simp only [hlead] at hm ⊢
          cases hdone : (takeCont more lo hi bs).2.2 with
          | false =>
            rw [hdone, if_neg (by simp)] at hm
            exact replaced _ hm
          | true =>
            simp only [hdone, if_true, List.cons_append, List.length_cons, List.length_append] at hm ⊢
            generalize hrest : (takeCont more lo hi bs).2.1 = rest at hm ⊢
            obtain ⟨m, rfl⟩ : ∃ k, m = k + 1 := ⟨m - 1, by omega⟩
            have hagain := takeCont_again (Prod.ext rfl (Prod.ext rfl hdone)) (lossyFrom n rest)
            rw [lossyFrom, if_neg hb]
            simp only [hlead, hagain, if_true, List.cons_append]
            rw [ih rest m (by omega)]

theorem toStringLossy_idem (bs : List UInt8) :
    toStringLossy (toStringLossy bs) = toStringLossy bs :=
  lossyFrom_lossyFrom bs.length bs _ (le_refl _)

theorem takeCont_bytes {more : Nat} {lo hi : UInt8} (bs : List UInt8) :
    bs = (takeCont more lo hi bs).1 ++ (takeCont more lo hi bs).2.1 := by
  induction bs generalizing more lo hi with
  | nil => cases more <;> rfl
  | cons b bs ih =>
    cases hb : contByte lo hi b <;> cases more <;> simp [takeCont, hb]
    exact ih

/-- A lossy text has the bytes of the text, and those of U+FFFD. -/
theorem mem_lossyFrom {n : Nat} {bs : List UInt8} {x : UInt8} (hx : x ∈ lossyFrom n bs) :
    x ∈ bs ∨ x ∈ replacement := by
  induction n generalizing bs with
  | zero => exact absurd hx (by simp [lossyFrom])
  | succ n ih =>
    cases bs with
    | nil => exact absurd hx (by simp [lossyFrom])
    | cons b bs =>
      rw [lossyFrom] at hx
      have tail : ∀ l, (∀ y ∈ l, y ∈ bs) → x ∈ lossyFrom n l → x ∈ b :: bs ∨ x ∈ replacement :=
        fun l hl hx => (ih hx).imp_left fun h => List.mem_cons_of_mem b (hl x h)
      split at hx
      · rcases List.mem_cons.mp hx with rfl | hx
        · exact .inl List.mem_cons_self
        · exact tail bs (fun _ => id) hx
      · split at hx
        · rcases List.mem_append.mp hx with hx | hx
          · exact .inr hx
          · exact tail bs (fun _ => id) hx
        · next lo hi more hlead =>
          have hbytes : bs = (takeCont more lo hi bs).1 ++ (takeCont more lo hi bs).2.1 :=
            takeCont_bytes bs
          rcases List.mem_append.mp hx with hx | hx
          · split at hx
            · left
              rcases List.mem_cons.mp hx with rfl | hx
              · exact List.mem_cons_self
              · rw [hbytes]
                exact List.mem_cons_of_mem _ (List.mem_append_left _ hx)
            · exact .inr hx
          · refine tail _ (fun y hy => ?_) hx
            rw [hbytes]
            exact List.mem_append_right _ hy

/-- A lossy text that is ASCII is the text. -/
theorem eq_of_lossyFrom_ascii {n : Nat} {bs : List UInt8} (hn : bs.length ≤ n)
    (h : ∀ x ∈ lossyFrom n bs, x < 128) : lossyFrom n bs = bs := by
  induction n generalizing bs with
  | zero => rw [List.eq_nil_of_length_eq_zero (Nat.le_zero.mp hn)]; rfl
  | succ n ih =>
    cases bs with
    | nil => rfl
    | cons b bs =>
      rw [lossyFrom] at h ⊢
      by_cases hb : b < 128
      · rw [if_pos hb] at h ⊢
        rw [ih (by simpa using hn) fun x hx => h x (List.mem_cons_of_mem b hx)]
      · rw [if_neg hb] at h
        -- the text starts with a byte that is not ASCII
        exfalso
        split at h
        · exact absurd (h 239 (by simp [replacement])) (by decide)
        · next lo hi more hlead =>
          cases hdone : (takeCont more lo hi bs).2.2 with
          | true => exact hb (h b (by simp [hdone]))
          | false => exact absurd (h 239 (by simp [hdone, replacement])) (by decide)

/-- The text of a component is a component. -/
theorem validName_toStringLossy {bs : List UInt8} (h : validName bs = true) :
    validName (toStringLossy bs) = true := by
  simp only [validName, Bool.and_eq_true, List.all_eq_true, bne_iff_ne, ne_eq,
    Bool.not_eq_true', List.isEmpty_eq_false_iff] at h ⊢
  obtain ⟨⟨⟨hne, hbytes⟩, hdot⟩, hdots⟩ := h
  have ascii : ∀ l : List UInt8, (∀ x ∈ l, x < 128) → toStringLossy bs = l → bs = l :=
    fun l hl e => (eq_of_lossyFrom_ascii (le_refl _) (fun x hx => hl x (e ▸ hx))).symm.trans e
  refine ⟨⟨⟨fun e => hne (ascii [] (by simp) e), fun x hx => ?_⟩, fun e => hdot (ascii _ (by simp) e)⟩,
    fun e => hdots (ascii _ (by simp) e)⟩
  rcases mem_lossyFrom hx with hx | hx
  · exact hbytes x hx
  · simp only [replacement, List.mem_cons, List.not_mem_nil, or_false] at hx
    rcases hx with rfl | rfl | rfl <;> decide

theorem pathOfKey_rowKey_cons (n : Name) (p : RelPath) :
    pathOfKey (rowKey (n :: p)) =
      ⟨toStringLossy n.bytes, validName_toStringLossy n.valid⟩ :: pathOfKey (rowKey p) := by
  have hn := validName_toStringLossy n.valid
  simp [pathOfKey, rowKey, hn]

/-- A path read back from its key has that key. -/
theorem rowKey_pathOfKey_rowKey (p : RelPath) : rowKey (pathOfKey (rowKey p)) = rowKey p := by
  induction p with
  | nil => rfl
  | cons n p ih =>
    rw [pathOfKey_rowKey_cons]
    exact List.cons_eq_cons.mpr ⟨toStringLossy_idem n.bytes, ih⟩

end FsCache
