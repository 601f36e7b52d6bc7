import FsCache.PathKeys

/- Manual eviction (ipc/server.rs, `handle_client`, `EvictFiles`).

   A client names a file by the text of its mount's cache directory and the text of its path
   there. Both come from the client as they are, are joined and given to `remove_file`; the row
   is removed under the two texts. `evictions_confined_iff`: what is deleted lies in the cache
   directory of a mount and goes with its row, exactly if the texts name a mount and a path as
   the database would spell them, and no link turns the path. `absolute_rel_path_escapes` is a
   target that replaces the directory.

   The kernel's side is `HostFs`: directories, links and files below the root, and the walk of a
   path through them. Between two targets the rest of the system may do anything.

   Correspondence (Rust ↔ Lean):
     `PathBuf::join`                      ↔ `joinPath`
     `std::fs::remove_file`               ↔ `HostFs.removeFile`
     `FileTarget` (ipc/protocol.rs)       ↔ `FileTarget`
     the loop body of `EvictFiles`        ↔ `IpcState.evict` -/

namespace FsCache
open Lib

/-- A node of the file system. What is neither a directory nor a link is a file. -/
inductive HostNode where
  | file
  | dir
  | link (target : Text)
  deriving DecidableEq

/-- What a path meets in the kernel: the nodes below the root, the working directory of the
daemon, and what else is asked before a node is removed (permissions, mount points). -/
structure HostFs where
  node : List Name → Option HostNode
  cwd : List Name
  permits : List Name → Bool

/-- The components of a path. -/
def components (t : Text) : List Text := (t.splitOn 47).filter fun c => !c.isEmpty

def nameOf (c : Text) : Option Name := if h : validName c = true then some ⟨c, h⟩ else none

/-- `PathBuf::join`: an absolute path replaces the base. -/
def joinPath (base rel : Text) : Text :=
  if rel.head? = some 47 then rel
  else if base.isEmpty || base.getLast? == some 47 then base ++ rel
  else base ++ 47 :: rel

namespace HostFs

/-- The walk of a path from a directory, with links followed as `follow` says. -/
def walk (fs : HostFs) (follow : List Name → Text → List Text → Option (List Name)) :
    List Name → List Text → Option (List Name)
  | cur, [] => some cur
  | cur, c :: cs =>
    if c = [46] then fs.walk follow cur cs
    else if c = [46, 46] then fs.walk follow cur.dropLast cs
    else
      match nameOf c with
      | none => none
      | some n =>
        match fs.node (cur ++ [n]) with
        | some .dir => fs.walk follow (cur ++ [n]) cs
        | some (.link t) => follow cur t cs
        | _ => none

/-- Where a path starts. -/
def startOf (cwd : List Name) (t : Text) : List Name := if t.head? = some 47 then [] else cwd

/-- The directory at the end of a path on which at most so many links are followed. -/
def resolve (fs : HostFs) : Nat → List Name → List Text → Option (List Name)
  | 0 => fs.walk fun _ _ _ => none
  | k + 1 => fs.walk fun cur t cs => fs.resolve k (startOf cur t) (components t ++ cs)

/-- The directory a path names. -/
def directory (fs : HostFs) (t : Text) : Option (List Name) :=
  fs.resolve 40 (startOf fs.cwd t) (components t)

/-- `remove_file`: the node it removes, or `none` when it fails. A link is removed itself. -/
def removeFile (fs : HostFs) (path : Text) : Option (List Name) :=
  if path.getLast? = some 47 then none
  else do
    let n ← (components path).getLast?.bind nameOf
    let parent ← fs.resolve 40 (startOf fs.cwd path) (components path).dropLast
    match fs.node (parent ++ [n]) with
    | none | some .dir => none
    | some .file | some (.link _) => if fs.permits (parent ++ [n]) then some (parent ++ [n]) else none

def unlink (fs : HostFs) (p : List Name) : HostFs :=
  { fs with node := fun q => if q = p then none else fs.node q }

end HostFs

/-- A target of `EvictFiles`. Both texts are strings of the message. -/
structure FileTarget where
  relPath : Text
  mountId : MountId
  utf8 : toStringLossy relPath = relPath

namespace FileTarget

def absPath (t : FileTarget) : Text := joinPath t.mountId t.relPath

/-- The key that `db.remove` deletes. -/
def key (t : FileTarget) : Text × MountId := (toStringLossy t.relPath, t.mountId)

end FileTarget

/-- The key of a file in the cache directory of a mount. -/
def recordedKey (mount : MountId) (p : RelPath) : Text × MountId := (textKey (textOf p), mount)

structure IpcState where
  fs : HostFs
  db : TextDb

namespace IpcState

/-- One target of the message. -/
def evict (s : IpcState) (t : FileTarget) : IpcState :=
  match s.fs.removeFile t.absPath with
  | none => s
  | some p =>
    { fs := s.fs.unlink p
      db := { s.db with cacheFiles := s.db.cacheFiles.erase t.key } }

end IpcState

/-- The next target of a message, or whatever the rest of the system does before it. -/
inductive IpcAction where
  | evict (target : FileTarget)
  | others (s : IpcState)

def IpcState.step (s : IpcState) : IpcAction → Option IpcState
  | .evict t => some (s.evict t)
  | .others s' => some s'

/-- What the target deletes lies in the cache directory of a mount, and the row that goes with it is
the one it was recorded in. -/
def Confined (mounts : List MountId) (s : IpcState) : IpcAction → Prop
  | .others _ => True
  | .evict t => ∀ p, s.fs.removeFile t.absPath = some p →
      ∃ m ∈ mounts, ∃ base r, s.fs.directory m = some base ∧ r ≠ [] ∧ p = base ++ r ∧
        t.key = recordedKey m r

/-- Unless nothing can be deleted at the joined path, the target has the id of a mount, its path is a
sequence of names with single slashes between them, and these lead, below the directory of the
mount, to a directory that is spelled as they are. -/
def WellNamed (mounts : List MountId) (s : IpcState) : IpcAction → Prop
  | .others _ => True
  | .evict t => s.fs.removeFile t.absPath = none ∨
      t.mountId ∈ mounts ∧ ∃ ns : RelPath, ns ≠ [] ∧ t.relPath = (textOf ns).bytes ∧
        ∃ base q, s.fs.directory t.mountId = some base ∧
          s.fs.directory (joinPath t.mountId (textOf ns.dropLast).bytes) = some (base ++ q) ∧
          rowKey q = rowKey ns.dropLast

/-! ## Paths as the kernel takes them -/

theorem components_slash (a b : Text) : components (a ++ 47 :: b) = components a ++ components b := by
  rw [components, List.splitOn_append_cons_self, List.filter_append, components, components]

theorem slash_notMem_name (n : Name) : 47 ∉ n.bytes := by
  intro h
  have hvalid := n.valid
  simp only [validName, Bool.and_eq_true, List.all_eq_true] at hvalid
  exact absurd (hvalid.1.1.2 47 h) (by decide)

theorem components_name (n : Name) : components n.bytes = [n.bytes] := by
  rw [components, List.splitOn_eq_singleton (slash_notMem_name n)]
  simp [n.bytes_ne_nil]

theorem components_textOf (p : RelPath) : components (textOf p).bytes = p.map Name.bytes := by
  cases p with
  | nil => rfl
  | cons n p =>
    show components (n.bytes ++ (p.map Name.bytes).flatMap fun next => 47 :: next) = _
    induction p generalizing n with
    | nil => simpa using components_name n
    | cons m p ih =>
      simp only [List.map_cons, List.flatMap_cons, List.cons_append] at ih ⊢
      rw [components_slash, components_name, ih m, List.singleton_append]

/-- Below a directory, a path has the components of the directory first. -/
theorem components_joinPath {base rel : Text} (h : rel.head? ≠ some 47) :
    components (joinPath base rel) = components base ++ components rel := by
  rw [joinPath, if_neg h]
  split
  · next hend =>
    rw [Bool.or_eq_true, List.isEmpty_iff, beq_iff_eq] at hend
    rcases hend with rfl | hend
    · rfl
    · obtain ⟨a, rfl⟩ := List.getLast?_eq_some_iff.mp hend
      have hbase : components (a ++ [47]) = components a := by
        rw [components_slash, show components [] = [] from rfl, List.append_nil]
      rw [List.append_assoc, List.singleton_append, components_slash, hbase]
  · exact components_slash base rel

theorem startOf_joinPath {cwd : List Name} {base rel : Text} (h : rel.head? ≠ some 47) :
    HostFs.startOf cwd (joinPath base rel) = HostFs.startOf cwd base := by
  rw [joinPath, if_neg h]
  cases base with
  | nil => simp [HostFs.startOf, h]
  | cons b base => split <;> simp [HostFs.startOf]

theorem head_textOf (p : RelPath) : (textOf p).bytes.head? ≠ some 47 := by
  cases p with
  | nil => simp [textOf, joinText]
  | cons n p =>
    intro h
    obtain ⟨b, bs, hn⟩ := List.exists_cons_of_ne_nil n.bytes_ne_nil
    have hhead : (textOf (n :: p)).bytes.head? = some b := by simp [textOf, joinText, hn]
    rw [hhead, Option.some.injEq] at h
    exact slash_notMem_name n (by rw [hn, h]; exact List.mem_cons_self)

theorem nameOf_bytes (n : Name) : nameOf n.bytes = some n := by
  rw [nameOf, dif_pos n.valid]

namespace HostFs

variable {fs : HostFs}

theorem directory_joinPath (base : Text) (d : RelPath) :
    fs.directory (joinPath base (textOf d).bytes) =
      fs.resolve 40 (startOf fs.cwd base) (components base ++ d.map Name.bytes) := by
  rw [directory, startOf_joinPath (head_textOf d), components_joinPath (head_textOf d), components_textOf]

/-- The node removed at names below a directory is the last name in the directory the others lead to. -/
theorem removeFile_joinPath {base : Text} {d : RelPath} {n : Name} {p : List Name}
    (h : fs.removeFile (joinPath base (textOf (d ++ [n])).bytes) = some p) :
    ∃ parent, fs.directory (joinPath base (textOf d).bytes) = some parent ∧ p = parent ++ [n] := by
  have hcomponents : components (joinPath base (textOf (d ++ [n])).bytes) =
      (components base ++ d.map Name.bytes) ++ [n.bytes] := by
    rw [components_joinPath (head_textOf _), components_textOf]
    simp
  rw [removeFile, hcomponents, startOf_joinPath (head_textOf _), List.dropLast_concat,
    List.getLast?_concat] at h
  simp only [Option.bind_some, nameOf_bytes, bind] at h
  split at h
  · exact absurd h (by simp)
  · rw [directory_joinPath]
    obtain ⟨parent, hparent, h⟩ := Option.bind_eq_some_iff.mp h
    refine ⟨parent, hparent, ?_⟩
    split at h
    · exact absurd h (by simp)
    · exact absurd h (by simp)
    all_goals
      split at h
      · exact (Option.some.inj h).symm
      · exact absurd h (by simp)

/-- A walk goes on from where its first part ends, or follows a link before. -/
theorem walk_append {follow : List Name → Text → List Text → Option (List Name)} {cur p : List Name}
    {cs ds : List Text} (h : fs.walk follow cur (cs ++ ds) = some p) :
    (∃ b, fs.walk follow cur cs = some b ∧ fs.walk follow b ds = some p) ∨
    ∃ mid t rest, fs.walk follow cur cs = follow mid t rest ∧ follow mid t (rest ++ ds) = some p := by
  fun_induction fs.walk follow cur cs with
  | case1 cur => exact .inl ⟨cur, rfl, h⟩
  | case2 cur cs ih => exact ih (by simpa [walk] using h)
  | case3 cur cs hdot ih => exact ih (by simpa [walk] using h)
  | case4 cur c cs hdot hdots hn => simp [walk, hdot, hdots, hn] at h
  | case5 cur c cs hdot hdots n hn hdir ih => exact ih (by simpa [walk, hdot, hdots, hn, hdir] using h)
  | case6 cur c cs hdot hdots n hn t hlink =>
    exact .inr ⟨cur, t, cs, rfl, by simpa [walk, hdot, hdots, hn, hlink] using h⟩
  | case7 cur c cs hdot hdots n hn hdir hlink =>
    simp [walk, hdot, hdots, hn] at h

/-- A path leads on from the directory that its first part names. -/
theorem resolve_append {k : Nat} {cur p : List Name} {cs ds : List Text}
    (h : fs.resolve k cur (cs ++ ds) = some p) :
    ∃ b j, fs.resolve k cur cs = some b ∧ fs.resolve j b ds = some p := by
  induction k generalizing cur cs with
  | zero =>
    rcases walk_append h with ⟨b, hb, hp⟩ | ⟨_, _, _, _, hlink⟩
    · exact ⟨b, 0, hb, hp⟩
    · exact absurd hlink (by simp)
  | succ k ih =>
    rcases walk_append h with ⟨b, hb, hp⟩ | ⟨mid, t, rest, heq, hlink⟩
    · exact ⟨b, k + 1, hb, hp⟩
    · rw [← List.append_assoc] at hlink
      obtain ⟨b, j, hb, hp⟩ := ih hlink
      exact ⟨b, j, heq.trans hb, hp⟩

/-- There is no link below the directory. -/
def LinkFree (fs : HostFs) (base : List Name) : Prop := ∀ q, q ≠ [] → ∀ t, fs.node (base ++ q) ≠ some (.link t)

/-- Where there are no links, names lead where they say. -/
theorem walk_names {follow : List Name → Text → List Text → Option (List Name)} {base p : List Name}
    (hlinks : fs.LinkFree base) {q d : RelPath} (h : fs.walk follow (base ++ q) (d.map Name.bytes) = some p) :
    p = base ++ (q ++ d) := by
  induction d generalizing q with
  | nil => simpa [walk] using h.symm
  | cons n d ih =>
    have hdot : n.bytes ≠ [46] ∧ n.bytes ≠ [46, 46] := by
      have hvalid := n.valid
      simp only [validName, Bool.and_eq_true, bne_iff_ne] at hvalid
      exact ⟨hvalid.1.2, hvalid.2⟩
    rw [List.map_cons, walk, if_neg hdot.1, if_neg hdot.2, nameOf_bytes] at h
    simp only [List.append_assoc] at h
    split at h
    · rw [ih h]
      simp
    · next t hnode => exact absurd hnode (hlinks (q ++ [n]) (by simp) t)
    · exact absurd h (by simp)

end HostFs

/-! ## What an eviction deletes -/

theorem rowKey_append (p q : RelPath) : rowKey (p ++ q) = rowKey p ++ rowKey q := List.map_append

/-- A path read back from its key is spelled as the key. -/
theorem bytes_pathOfKey (p : RelPath) : (pathOfKey (rowKey p)).map Name.bytes = rowKey p := by
  induction p with
  | nil => rfl
  | cons n p ih =>
    rw [pathOfKey_rowKey_cons, List.map_cons, ih]
    rfl

theorem rowKey_concat_inj {p q : RelPath} {m n : Name} (h : rowKey (p ++ [m]) = rowKey (q ++ [n])) :
    rowKey p = rowKey q := by
  rw [rowKey_append, rowKey_append] at h
  exact (List.append_inj' h rfl).1

/-- One target is confined exactly if it is well named. -/
theorem confined_iff (mounts : List MountId) (s : IpcState) (a : IpcAction) :
    Confined mounts s a ↔ WellNamed mounts s a := by
  cases a with
  | others s' => exact Iff.rfl
  | evict t =>
    constructor
    · intro h
      cases hp : s.fs.removeFile t.absPath with
      | none => exact .inl hp
      | some p =>
        obtain ⟨m, hm, base, r, hbase, hr, rfl, hkey⟩ := h p hp
        obtain ⟨hlossy, rfl⟩ := Prod.mk.inj hkey
        -- the path of the target is the key, spelled out
        have hrel : t.relPath = (textOf (pathOfKey (rowKey r))).bytes := by
          rw [← t.utf8, hlossy, textKey_textOf]
          exact congrArg joinText (bytes_pathOfKey r).symm
        have hrow : rowKey (pathOfKey (rowKey r)) = rowKey r := rowKey_pathOfKey_rowKey r
        generalize pathOfKey (rowKey r) = ns at hrel hrow
        rcases List.eq_nil_or_concat ns with rfl | ⟨d, n, rfl⟩
        · exact absurd (List.map_eq_nil_iff.mp hrow.symm) hr
        · rcases List.eq_nil_or_concat r with rfl | ⟨q, k, rfl⟩
          · exact absurd rfl hr
          · simp only [List.concat_eq_append] at hrel hrow hp
            rw [FileTarget.absPath, hrel] at hp
            obtain ⟨parent, hparent, hend⟩ := HostFs.removeFile_joinPath hp
            rw [← List.append_assoc] at hend
            obtain rfl := (List.append_inj' hend rfl).1
            refine .inr ⟨hm, d ++ [n], by simp, hrel, base, q, hbase, ?_, ?_⟩
            · rwa [List.dropLast_concat]
            · rw [List.dropLast_concat]
              exact (rowKey_concat_inj hrow).symm
    · intro h p hp
      rcases h with h | ⟨hm, ns, hns, hrel, base, q, hbase, hdir, hrow⟩
      · exact absurd (h.symm.trans hp) (by simp)
      · obtain ⟨d, n, rfl⟩ := (List.eq_nil_or_concat ns).resolve_left hns
        rw [List.concat_eq_append] at hrel hdir hrow
        rw [List.dropLast_concat] at hdir hrow
        rw [FileTarget.absPath, hrel] at hp
        obtain ⟨parent, hparent, rfl⟩ := HostFs.removeFile_joinPath hp
        obtain rfl : base ++ q = parent := Option.some.inj (hdir.symm.trans hparent)
        refine ⟨t.mountId, hm, base, q ++ [n], hbase, by simp, List.append_assoc _ _ _, ?_⟩
        -- the key is that of the spelling
        have hkey : toStringLossy t.relPath = textKey (textOf (q ++ [n])) := by
          rw [hrel]
          refine (textKey_inj_iff (d ++ [n]) (q ++ [n])).mpr ?_
          rw [rowKey_append, rowKey_append, hrow]
        rw [FileTarget.key, hkey, recordedKey]

/-- The target that a client builds from a row is well named, while the daemon keeps links out of the
cache directories. -/
theorem recorded_wellNamed {mounts : List MountId} {s : IpcState} {t : FileTarget} {p : RelPath}
    (hmount : t.mountId ∈ mounts) (hp : p ≠ []) (hrel : t.relPath = textKey (textOf p))
    (hlinks : ∀ base, s.fs.directory t.mountId = some base → s.fs.LinkFree base) :
    WellNamed mounts s (.evict t) := by
  have hspelled : t.relPath = (textOf (pathOfKey (rowKey p))).bytes := by
    rw [hrel, textKey_textOf]
    exact congrArg joinText (bytes_pathOfKey p).symm
  have hne : pathOfKey (rowKey p) ≠ [] := by
    intro h
    have hrow := rowKey_pathOfKey_rowKey p
    rw [h] at hrow
    exact hp (List.map_eq_nil_iff.mp hrow.symm)
  generalize pathOfKey (rowKey p) = ns at hspelled hne
  obtain ⟨d, n, rfl⟩ := (List.eq_nil_or_concat ns).resolve_left hne
  rw [List.concat_eq_append] at hspelled
  cases hremove : s.fs.removeFile t.absPath with
  | none => exact .inl hremove
  | some q =>
    rw [FileTarget.absPath, hspelled] at hremove
    obtain ⟨parent, hparent, -⟩ := HostFs.removeFile_joinPath hremove
    have hresolve := hparent
    rw [HostFs.directory_joinPath] at hresolve
    obtain ⟨base, j, hbase, hnames⟩ := HostFs.resolve_append hresolve
    have hend : parent = base ++ ([] ++ d) := by
      rw [← List.append_nil base] at hnames
      cases j <;> exact HostFs.walk_names (hlinks base hbase) hnames
    rw [hend, List.nil_append] at hparent
    refine .inr ⟨hmount, d ++ [n], by simp, hspelled, base, d, hbase, ?_, ?_⟩
    · rw [List.dropLast_concat, hparent]
    · rw [List.dropLast_concat]

/-- A target that deletes nothing changes nothing; else the file and the row under its key go, and no
other file and no other row. -/
theorem evict_effect (s : IpcState) (t : FileTarget) :
    (s.fs.removeFile t.absPath = none ∧ s.evict t = s) ∨
    ∃ p, s.fs.removeFile t.absPath = some p ∧
      (∀ q, (s.evict t).fs.node q = if q = p then none else s.fs.node q) ∧
      ∀ key, (s.evict t).db.cacheFiles.lookup key =
        if key = t.key then none else s.db.cacheFiles.lookup key := by
  rw [IpcState.evict]
  cases hp : s.fs.removeFile t.absPath with
  | none => exact .inl ⟨rfl, rfl⟩
  | some p => exact .inr ⟨p, rfl, fun _ => rfl, fun key => Map.lookup_erase_if ..⟩

/-- In every handling of targets, among whatever else the system does, all deletions are confined exactly
if all targets are well named. -/
theorem evictions_confined_iff (mounts : List MountId) (s : IpcState) (actions : List IpcAction) :
    Along IpcState.step (Confined mounts) s actions ↔ Along IpcState.step (WellNamed mounts) s actions :=
  along_congr (fun _ => True) (fun _ _ _ _ _ _ => trivial) (fun s a _ => confined_iff mounts s a) trivial

section Escape

/-- One mount with its cache at `/c`, and the file `/e`. -/
def bareHost : IpcState where
  fs :=
    { node := fun p =>
        if p = [⟨[99], Eq.refl true⟩] then some .dir
        else if p = [⟨[101], Eq.refl true⟩] then some .file else none
      cwd := []
      permits := fun _ => true }
  db := TextDb.empty

/-- The path of the target is `/e`. -/
theorem absolute_rel_path_escapes :
    ¬ Along IpcState.step (Confined [[47, 99]]) bareHost [.evict ⟨[47, 101], [47, 99], by decide⟩] := by
  intro h
  obtain ⟨m, hm, base, r, hbase, -, hpath, -⟩ := h.1 [⟨[101], Eq.refl true⟩] (by decide)
  obtain rfl := List.mem_singleton.mp hm
  have hdir : bareHost.fs.directory [47, 99] = some [⟨[99], Eq.refl true⟩] := by decide
  obtain rfl : [⟨[99], Eq.refl true⟩] = base := Option.some.inj (hdir.symm.trans hbase)
  exact absurd (List.cons.inj hpath).1 (by decide)

end Escape

end FsCache
