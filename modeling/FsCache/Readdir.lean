import FsCache.Lib.Cursor
import FsCache.InodeRun
import FsCache.Serve

/- Reading a directory through the mount (`do_readdir`), call after call on one
   handle.

   Every call lists the directory anew (`rewinddir`), with `.` and `..` in
   front, and skips as many entries as the offset says. The kernel goes on at
   the offset of the last entry it was given, so the offset is a position in a
   listing that the next call does not take again. Between two calls anything
   may happen to the directory, to the inode table and to the attributes, so
   each call has its own.

   `listed_once_iff`: once the directory is read to its end, every entry that
   was in all the listings has been delivered exactly once iff the changes have
   carried it over the offset as often backwards as forwards. A file that is
   deleted before the offset hides the next entry, one that is created there
   makes the last entry come a second time.

   Given: a directory lists no name twice, and the reply takes an entry unless
   the buffer is too full for it. How many bytes an entry takes is a parameter.

   Correspondence (Rust ↔ Lean):
     a `dirent`, an element of `entries`  ↔ `Dirent`, `DirEntry`
     `list_dir_entries`                   ↔ `listDirEntries`
     `ReplyDirectory`, its `add`          ↔ `capacity`, `addEntries`
     `do_readdir`                         ↔ `DirCall.doReaddir` -/

namespace FsCache
open Lib

/-- A `d_name`. -/
inductive EntryName where
  | dot
  | dotdot
  | name (n : Name)
  deriving DecidableEq

def EntryName.child? : EntryName → Option Name
  | .name n => some n
  | _ => none

/-- The types a `d_type` can name. -/
def DT_FIFO : Nat := 1
def DT_CHR : Nat := 2
def DT_DIR : Nat := 4
def DT_BLK : Nat := 6
def DT_LNK : Nat := 10
def DT_SOCK : Nat := 12

/-- What `readdir(3)` returns. -/
structure Dirent where
  name : EntryName
  dType : Nat

/-- An element of `entries`. -/
structure DirEntry where
  name : EntryName
  ino : Nat
  kind : FileType
  deriving DecidableEq

/-- An entry in the reply, with the offset to go on at. -/
structure Added where
  ino : Nat
  offset : Nat
  kind : FileType
  name : EntryName
  deriving DecidableEq

/-- The type of an entry. `statBacking` gives the mode; DT_UNKNOWN, DT_REG and every
other type take the last case. -/
def direntKind (statBacking : RelPath → Option Nat) (child : RelPath) (dType : Nat) : FileType :=
  if dType = DT_DIR then .directory
  else if dType = DT_LNK then .symlink
  else if dType = DT_BLK then .blockDevice
  else if dType = DT_CHR then .charDevice
  else if dType = DT_FIFO then .namedPipe
  else if dType = DT_SOCK then .socket
  else
    match statBacking child with
    | some mode => modeToFiletype mode
    | none => .regularFile

/-- One round of the loop over the directory stream. -/
def pushDirent (statBacking : RelPath → Option Nat) (parent : RelPath)
    (acc : InodeTable × List DirEntry) (d : Dirent) : InodeTable × List DirEntry :=
  match d.name with
  | .name n =>
    let (t, ino) := acc.1.getOrCreate (parent ++ [n])
    (t, acc.2 ++ [⟨.name n, ino, direntKind statBacking (parent ++ [n]) d.dType⟩])
  | _ => acc

/-- `dirents`: `none` if fdopendir fails. -/
def listDirEntries (t : InodeTable) (dirents : Option (List Dirent))
    (statBacking : RelPath → Option Nat) (parent : RelPath) : InodeTable × List DirEntry :=
  let dot := (t.getPathIno parent).getD rootIno
  let dotdot := (t.getPathIno parent.dropLast).getD rootIno
  (dirents.getD []).foldl (pushDirent statBacking parent)
    (t, [⟨.dot, dot, .directory⟩, ⟨.dotdot, dotdot, .directory⟩])

/-- The loop of `do_readdir` from index `i`, with `used` bytes in the buffer. `add`
answers true, and adds nothing, when the entry does not fit. -/
def addEntries (size : EntryName → Nat) (capacity offset : Nat) :
    Nat → Nat → List DirEntry → List Added
  | _, _, [] => []
  | i, used, e :: rest =>
    if i + 1 ≤ offset then addEntries size capacity offset (i + 1) used rest
    else if capacity < used + size e.name then []
    else
      ⟨e.ino, i + 1, e.kind, e.name⟩ ::
        addEntries size capacity offset (i + 1) (used + size e.name) rest

/-- What one call meets. -/
structure DirCall where
  inodes : InodeTable
  dirents : Option (List Dirent)
  statBacking : RelPath → Option Nat
  capacity : Nat
  nodup : ((dirents.getD []).filterMap fun d => d.name.child?).Nodup

namespace DirCall

def doReaddir (size : EntryName → Nat) (c : DirCall) (ino offset : Nat) :
    InodeTable × Except Errno (List Added) :=
  match c.inodes.getPath ino with
  | none => (c.inodes, .error ENOENT)
  | some parent =>
    let (t, entries) := listDirEntries c.inodes c.dirents c.statBacking parent
    (t, .ok (addEntries size c.capacity offset 0 0 entries))

/-- The listing the call works on; none if the inode is unknown. -/
def entries (c : DirCall) (ino : Nat) : List DirEntry :=
  match c.inodes.getPath ino with
  | none => []
  | some parent => (listDirEntries c.inodes c.dirents c.statBacking parent).2

def names (c : DirCall) (ino : Nat) : List EntryName := (c.entries ino).map DirEntry.name

def answer (size : EntryName → Nat) (c : DirCall) (ino offset : Nat) : List Added :=
  addEntries size c.capacity offset 0 0 (c.entries ino)

end DirCall

/-- Where the kernel goes on: the offset of the last entry delivered. -/
def nextOffset (offset : Nat) (added : List Added) : Nat :=
  (added.getLast?.map Added.offset).getD offset

/-- The names that the calls deliver, the first one from `offset`. -/
def delivered (size : EntryName → Nat) (ino : Nat) : Nat → List DirCall → List EntryName
  | _, [] => []
  | offset, c :: calls =>
    let added := c.answer size ino offset
    added.map Added.name ++ delivered size ino (nextOffset offset added) calls

/-- Every call is answered, and the last one comes to the end of its listing. -/
def ReadToEnd (size : EntryName → Nat) (ino : Nat) : Nat → List DirCall → Prop
  | _, [] => False
  | offset, c :: calls =>
    ∃ added, (c.doReaddir size ino offset).2 = .ok added ∧
      match calls with
      | [] => (c.names ino).length ≤ nextOffset offset added
      | _ :: _ => ReadToEnd size ino (nextOffset offset added) calls

/-! What a call lists -/

theorem pushDirent_names (statBacking : RelPath → Option Nat) (parent : RelPath)
    (acc : InodeTable × List DirEntry) (d : Dirent) :
    (pushDirent statBacking parent acc d).2.map DirEntry.name =
      acc.2.map DirEntry.name ++ (d.name.child?.map EntryName.name).toList := by
  unfold pushDirent
  cases d.name <;> simp [EntryName.child?]

theorem foldl_pushDirent_names (statBacking : RelPath → Option Nat) (parent : RelPath)
    (ds : List Dirent) (acc : InodeTable × List DirEntry) :
    (ds.foldl (pushDirent statBacking parent) acc).2.map DirEntry.name =
      acc.2.map DirEntry.name ++ (ds.filterMap fun d => d.name.child?).map EntryName.name := by
  induction ds generalizing acc with
  | nil => simp
  | cons d ds ih =>
    rw [List.foldl_cons, ih, pushDirent_names, List.append_assoc]
    cases h : d.name.child? <;> simp [h]

theorem listDirEntries_names (t : InodeTable) (dirents : Option (List Dirent))
    (statBacking : RelPath → Option Nat) (parent : RelPath) :
    (listDirEntries t dirents statBacking parent).2.map DirEntry.name =
      .dot :: .dotdot :: ((dirents.getD []).filterMap fun d => d.name.child?).map .name := by
  rw [listDirEntries, foldl_pushDirent_names]
  rfl

theorem foldl_pushDirent_inodes (statBacking : RelPath → Option Nat) (parent : RelPath)
    (ds : List Dirent) (acc : InodeTable × List DirEntry) :
    (ds.foldl (pushDirent statBacking parent) acc).1 =
      (ds.filterMap fun d => d.name.child?).foldl
        (fun t name => (t.getOrCreate (parent ++ [name])).1) acc.1 := by
  induction ds generalizing acc with
  | nil => rfl
  | cons d ds ih =>
    rw [List.foldl_cons, ih]
    obtain ⟨name, dType⟩ := d
    cases name <;> rfl

namespace DirCall

/-- To the inode table a call is the request of its names. -/
theorem doReaddir_inodes (size : EntryName → Nat) (c : DirCall) (ino offset : Nat) :
    (c.doReaddir size ino offset).1 =
      c.inodes.doReaddir ino ((c.dirents.getD []).filterMap fun d => d.name.child?) := by
  unfold doReaddir InodeTable.doReaddir
  cases c.inodes.getPath ino with
  | none => rfl
  | some parent => exact foldl_pushDirent_inodes c.statBacking parent _ _

theorem doReaddir_ok {size : EntryName → Nat} {c : DirCall} {ino offset : Nat} {added : List Added}
    (h : (c.doReaddir size ino offset).2 = .ok added) : added = c.answer size ino offset := by
  unfold doReaddir at h
  unfold answer entries
  cases hp : c.inodes.getPath ino with
  | none => rw [hp] at h; cases h
  | some parent => rw [hp] at h; exact (Except.ok.inj h).symm

theorem nodup_names (c : DirCall) (ino : Nat) : (c.names ino).Nodup := by
  unfold names entries
  cases c.inodes.getPath ino with
  | none => exact List.nodup_nil
  | some parent =>
    show (List.map DirEntry.name (listDirEntries _ _ _ parent).2).Nodup
    rw [listDirEntries_names]
    have hinj : Function.Injective EntryName.name := fun m n h => EntryName.name.inj h
    simp [c.nodup.map hinj]

end DirCall

/-! What a call delivers -/

/-- How many entries fit into the buffer. -/
def fitting (size : EntryName → Nat) (capacity : Nat) : Nat → List DirEntry → Nat
  | _, [] => 0
  | used, e :: rest =>
    if capacity < used + size e.name then 0
    else fitting size capacity (used + size e.name) rest + 1

/-- From the offset on, entries are taken as long as they fit. -/
theorem addEntries_names_of_le (size : EntryName → Nat) (capacity : Nat) {offset i : Nat} (h : offset ≤ i)
    (used : Nat) (es : List DirEntry) :
    (addEntries size capacity offset i used es).map Added.name =
        (es.take (fitting size capacity used es)).map DirEntry.name ∧
      nextOffset i (addEntries size capacity offset i used es) =
        i + fitting size capacity used es := by
  induction es generalizing i used with
  | nil => exact ⟨rfl, rfl⟩
  | cons e es ih =>
    rw [addEntries, if_neg (by omega), fitting]
    by_cases hfull : capacity < used + size e.name
    · rw [if_pos hfull, if_pos hfull]
      exact ⟨rfl, rfl⟩
    · rw [if_neg hfull, if_neg hfull]
      obtain ⟨hnames, hnext⟩ := ih (i := i + 1) (by omega) (used + size e.name)
      refine ⟨by rw [List.map_cons, hnames, List.take_succ_cons, List.map_cons], ?_⟩
      unfold nextOffset at hnext ⊢
      rw [List.getLast?_cons]
      cases hlast : (addEntries size capacity offset (i + 1) (used + size e.name) es).getLast? with
      | none =>
        rw [hlast] at hnext
        simp only [Option.map_none, Option.getD_none] at hnext
        simp only [Option.getD_none, Option.map_some, Option.getD_some]
        omega
      | some a =>
        rw [hlast] at hnext
        simp only [Option.map_some, Option.getD_some] at hnext ⊢
        omega

/-- The entries before the offset are skipped. -/
theorem addEntries_skip (size : EntryName → Nat) (capacity offset : Nat) (i used : Nat)
    (es : List DirEntry) :
    addEntries size capacity offset i used es =
      addEntries size capacity offset (max i offset) used (es.drop (offset - i)) := by
  induction es generalizing i with
  | nil => rw [List.drop_nil]; rfl
  | cons e es ih =>
    by_cases h : i + 1 ≤ offset
    · rw [addEntries, if_pos h, ih, show offset - i = offset - (i + 1) + 1 by omega,
        List.drop_succ_cons, Nat.max_eq_right h, Nat.max_eq_right (by omega)]
    · rw [show offset - i = 0 by omega, List.drop_zero, Nat.max_eq_left (by omega)]

/-- A call delivers the entries from the offset up to the next one. -/
theorem answer_spec (size : EntryName → Nat) (c : DirCall) (ino offset : Nat) :
    offset ≤ nextOffset offset (c.answer size ino offset) ∧
      (c.answer size ino offset).map Added.name =
        ((c.names ino).take (nextOffset offset (c.answer size ino offset))).drop offset := by
  have hskip := addEntries_skip size c.capacity offset 0 0 (c.entries ino)
  rw [Nat.zero_max, Nat.sub_zero] at hskip
  obtain ⟨hnames, hnext⟩ := addEntries_names_of_le size c.capacity
    (Nat.le_refl offset) 0 ((c.entries ino).drop offset)
  rw [DirCall.answer, hskip, hnext, hnames, DirCall.names, ← List.map_take, ← List.map_drop,
    List.drop_take, Nat.add_sub_cancel_left]
  exact ⟨Nat.le_add_right _ _, rfl⟩

/-! All the calls -/

/-- The listings that the calls see, with the offsets they start and stop at. -/
def pages (size : EntryName → Nat) (ino : Nat) : Nat → List DirCall → List (Page EntryName)
  | _, [] => []
  | offset, c :: calls =>
    ⟨c.names ino, offset, nextOffset offset (c.answer size ino offset),
        (answer_spec size c ino offset).1⟩ ::
      pages size ino (nextOffset offset (c.answer size ino offset)) calls

/-- The entry is in the listing of every call. -/
def Stays (ino : Nat) (calls : List DirCall) (e : EntryName) : Prop :=
  ∀ c ∈ calls, e ∈ c.names ino

/-- The changes have carried the entry over the offset as often backwards as
forwards. -/
def CarriedEvenly (size : EntryName → Nat) (ino : Nat) (calls : List DirCall) (e : EntryName) : Prop :=
  Page.hidden e (pages size ino 0 calls) = Page.shown e (pages size ino 0 calls)

theorem taken_pages (size : EntryName → Nat) (ino offset : Nat) (calls : List DirCall) :
    (pages size ino offset calls).flatMap Page.taken = delivered size ino offset calls := by
  induction calls generalizing offset with
  | nil => rfl
  | cons c calls ih =>
    rw [pages, List.flatMap_cons, ih, delivered, (answer_spec size c ino offset).2]
    rfl

theorem linked_pages (size : EntryName → Nat) (ino offset : Nat) (calls : List DirCall) :
    Page.Linked offset (pages size ino offset calls) := by
  induction calls generalizing offset with
  | nil => trivial
  | cons c calls ih => exact ⟨rfl, ih _⟩

theorem mem_pages {size : EntryName → Nat} {ino offset : Nat} {calls : List DirCall}
    {p : Page EntryName} (h : p ∈ pages size ino offset calls) :
    ∃ c ∈ calls, p.list = c.names ino := by
  induction calls generalizing offset with
  | nil => cases h
  | cons c calls ih =>
    obtain rfl | h := List.mem_cons.mp h
    · exact ⟨c, List.mem_cons_self, rfl⟩
    · obtain ⟨d, hd, hlist⟩ := ih h
      exact ⟨d, List.mem_cons_of_mem c hd, hlist⟩

theorem ends_pages {size : EntryName → Nat} {ino offset : Nat} {calls : List DirCall}
    (h : ReadToEnd size ino offset calls) : Page.Ends (pages size ino offset calls) := by
  induction calls generalizing offset with
  | nil => exact h
  | cons c calls ih =>
    obtain ⟨added, hadded, hrest⟩ := h
    rw [DirCall.doReaddir_ok hadded] at hrest
    cases calls with
    | nil => exact hrest
    | cons d calls => exact ih hrest

/-- The entries that stay are in one order in all the listings. -/
def SameOrder (ino : Nat) (calls : List DirCall) : Prop :=
  ∀ c ∈ calls, ∀ d ∈ calls,
    ((c.names ino).filter fun e => ∀ c ∈ calls, e ∈ c.names ino) =
      (d.names ino).filter fun e => ∀ c ∈ calls, e ∈ c.names ino

theorem delivered_once_iff {size : EntryName → Nat} {ino : Nat} {calls : List DirCall}
    {e : EntryName} (hend : ReadToEnd size ino 0 calls) (he : Stays ino calls e) :
    (delivered size ino 0 calls).count e = 1 ↔ CarriedEvenly size ino calls e := by
  rw [← taken_pages]
  apply Page.taken_once_iff
  · intro p hp
    obtain ⟨c, _, hlist⟩ := mem_pages hp
    rw [hlist]
    exact c.nodup_names ino
  · intro p hp
    obtain ⟨c, hc, hlist⟩ := mem_pages hp
    rw [hlist]
    exact he c hc
  · exact linked_pages size ino 0 calls
  · exact ends_pages hend

/-- A directory that does not change carries nothing over the offset. -/
theorem carriedEvenly_of_steady {size : EntryName → Nat} {ino : Nat} {calls : List DirCall}
    {l : List EntryName} (h : ∀ c ∈ calls, c.names ino = l) (e : EntryName) :
    CarriedEvenly size ino calls e := by
  have hpages : ∀ p ∈ pages size ino 0 calls, p.list = l := by
    intro p hp
    obtain ⟨c, hc, hlist⟩ := mem_pages hp
    rw [hlist, h c hc]
  obtain ⟨hhidden, hshown⟩ := Page.hidden_of_steady e hpages
  rw [CarriedEvenly, hhidden, hshown]

/-- So it is listed whole, whatever the buffers. -/
theorem delivered_once_of_steady {size : EntryName → Nat} {ino : Nat} {calls : List DirCall}
    {l : List EntryName} (h : ∀ c ∈ calls, c.names ino = l) (hend : ReadToEnd size ino 0 calls)
    {e : EntryName} (he : e ∈ l) : (delivered size ino 0 calls).count e = 1 :=
  (delivered_once_iff hend fun c hc => by rw [h c hc]; exact he).mpr (carriedEvenly_of_steady h e)

theorem listed_once_iff (size : EntryName → Nat) (ino : Nat) (calls : List DirCall)
    (hend : ReadToEnd size ino 0 calls) :
    (∀ e, Stays ino calls e → (delivered size ino 0 calls).count e = 1) ↔
      ∀ e, Stays ino calls e → CarriedEvenly size ino calls e :=
  forall₂_congr fun _ he => delivered_once_iff hend he

private def coda : Name := ⟨[99], Eq.refl true⟩
private def duet : Name := ⟨[100], Eq.refl true⟩

/-- A call on the root with the given names, all of them regular files. -/
private def rootCall (capacity : Nat) (names : List Name) (h : names.Nodup) : DirCall where
  inodes := .new
  dirents := some (names.map fun n => ⟨.name n, 8⟩)
  statBacking := fun _ => none
  capacity := capacity
  nodup := by simpa [List.filterMap_map, Function.comp_def, EntryName.child?] using h

/-- Three entries, then the rest of a directory that stays as it is. -/
theorem listed_once_iff_root :
    (delivered (fun _ => 32) rootIno 0
      [rootCall 96 [coda, duet] (by decide), rootCall 96 [coda, duet] (by decide)]).count (.name duet) = 1 := by
  refine (listed_once_iff (fun _ => 32) rootIno
    [rootCall 96 [coda, duet] (by decide), rootCall 96 [coda, duet] (by decide)]
    ⟨_, rfl, _, rfl, by decide⟩).mpr (fun e _ => ?_) (.name duet) ?_
  · refine carriedEvenly_of_steady (l := [.dot, .dotdot, .name coda, .name duet]) (fun c hc => ?_) e
    simp only [List.mem_cons, List.not_mem_nil, or_false, or_self] at hc
    subst hc
    rfl
  · intro c hc
    simp only [List.mem_cons, List.not_mem_nil, or_false, or_self] at hc
    subst hc
    decide

/-- After `.`, `..` and `coda`, `coda` is deleted: `duet` is never listed. After `.`, `..`
and `duet`, `coda` is created before it: `duet` is listed twice. -/
theorem duet_skipped_and_repeated :
    (SameOrder rootIno [rootCall 96 [coda, duet] (by decide), rootCall 96 [duet] (by decide)] ∧
      ReadToEnd (fun _ => 32) rootIno 0
        [rootCall 96 [coda, duet] (by decide), rootCall 96 [duet] (by decide)] ∧
      Stays rootIno [rootCall 96 [coda, duet] (by decide), rootCall 96 [duet] (by decide)]
        (.name duet) ∧
      delivered (fun _ => 32) rootIno 0
          [rootCall 96 [coda, duet] (by decide), rootCall 96 [duet] (by decide)] =
        [.dot, .dotdot, .name coda]) ∧
    (SameOrder rootIno [rootCall 96 [duet] (by decide), rootCall 96 [coda, duet] (by decide)] ∧
      ReadToEnd (fun _ => 32) rootIno 0
        [rootCall 96 [duet] (by decide), rootCall 96 [coda, duet] (by decide)] ∧
      Stays rootIno [rootCall 96 [duet] (by decide), rootCall 96 [coda, duet] (by decide)]
        (.name duet) ∧
      delivered (fun _ => 32) rootIno 0
          [rootCall 96 [duet] (by decide), rootCall 96 [coda, duet] (by decide)] =
        [.dot, .dotdot, .name duet, .name duet]) :=
  ⟨⟨by unfold SameOrder; decide, ⟨_, rfl, _, rfl, by decide⟩, by unfold Stays; decide, by decide⟩,
    by unfold SameOrder; decide, ⟨_, rfl, _, rfl, by decide⟩, by unfold Stays; decide, by decide⟩

end FsCache
