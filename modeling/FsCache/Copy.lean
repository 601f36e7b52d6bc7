import FsCache.Manager

/- One copy from the backing directory to the cache (`perform_copy` and
   `perform_copy_inner`, cache/io.rs), step by step.

   A step is one system call, so anything may happen to the backing and to the
   cache directory between two steps. `CopyPc` says which call comes next, with
   the local variables that are live there; `written` is both what has been
   copied and the offset of the next read and write. The caller chooses how many
   bytes a read returns and which calls fail. The progress ticker and the tracing
   events are left out, and of `apply_source_metadata` what it does to the modes
   and times of the temporary file.

   `CopyMove` is what a step can do, one constructor a transition, and
   `copyMove_of_step` says it misses none.

   Correspondence (Rust ↔ Lean):
     `perform_copy`, `perform_copy_inner` ↔ `copyStep` over `CopyPc`
     `partial_path(cache_dest)`           ↔ `partialPath p`
     `control.abort`                      ↔ the argument `abort`
     `Ok(source_snapshot)`, `Err(_)`      ↔ `CopyPc.ok`, `CopyPc.err` -/

namespace FsCache
open Lib

/-- The open descriptors and what was copied so far. -/
structure CopyCtx where
  src : Handle
  dst : Nat
  init : Stat
  written : List UInt8
  deriving DecidableEq

/-- The next call of a copy. -/
inductive CopyPc where
  | mkdir
  | openSrc
  | fstat (src : Handle)
  | openDst (src : Handle) (init : Stat)
  | read (ctx : CopyCtx)
  | write (ctx : CopyCtx) (chunk : List UInt8)
  | sync (ctx : CopyCtx)
  | checkAbort (ctx : CopyCtx)
  | finalStat (ctx : CopyCtx) (aborted : Bool)
  | apply (ctx : CopyCtx) (snapshot : SourceMetadata)
  | rename (ctx : CopyCtx) (snapshot : SourceMetadata)
  /-- `remove_file` in `perform_copy_inner`, on its way to an error -/
  | failInner (ctx : CopyCtx)
  /-- `remove_file` in `perform_copy`, after an error; with the context of a
  temporary file that nothing has removed yet -/
  | failOuter (ctx : Option CopyCtx)
  | ok (snapshot : SourceMetadata)
  | err
  deriving DecidableEq

/-- What a step leaves open: the length of a read or of a write that fails half
way, and whether the call fails. -/
structure CopyChoice where
  n : Nat
  fail : Bool

/-- `vec![0u8; 256 * 1024]` -/
def bufLen : Nat := 256 * 1024

/-- The test on the final stat. -/
def changedSince (init : Stat) (final : Option Stat) : Bool :=
  match final with
  | none => false
  | some s =>
    s.stSize != init.stSize || s.stMtime != init.stMtime || s.stMtimeNsec != init.stMtimeNsec

theorem changedSince_eq_false {init s : Stat} :
    changedSince init (some s) = false ↔ s.version = init.version := by
  simp only [changedSince, Bool.or_eq_false_iff, bne_eq_false_iff_eq, Stat.version,
    Version.mk.injEq]
  constructor
  · exact fun h => ⟨h.1.2, h.2, h.1.1⟩
  · exact fun h => ⟨⟨h.2.2, h.1⟩, h.2.1⟩

def sourceSnapshot (init : Stat) (final : Option Stat) : SourceMetadata :=
  match final with
  | none => SourceMetadata.fromMetadata init
  | some s => SourceMetadata.fromStat s

/-- What the final stat answers: a call that fails looks like a missing file. -/
def CopyChoice.finalStat (c : CopyChoice) (b : Backing) (p : RelPath) : Option Stat :=
  if c.fail then none else b.stat p

def copyStep (b : Backing) (dir : CacheDir) (abort : Bool) (p : RelPath) (task : Nat)
    (c : CopyChoice) : CopyPc → Option (CacheDir × CopyPc)
  | .mkdir =>
    if c.fail then some (dir, .err)
    else
      match dir.createDirAll p.dropLast with
      | none => some (dir, .err)
      | some dir' => some (dir', .openSrc)
  | .openSrc =>
    if c.fail then some (dir, .failOuter none)
    else
      match b.openFile p with
      | none => some (dir, .failOuter none)
      | some src => some (dir, .fstat src)
  | .fstat src =>
    if c.fail then some (dir, .failOuter none)
    else some (dir, .openDst src (b.fstat src))
  | .openDst src init =>
    if c.fail then some (dir, .failOuter none)
    else
      match dir.openTrunc (partialPath p) with
      | none => some (dir, .failOuter none)
      | some (dir', dst) => some (dir', .read ⟨src, dst, init, []⟩)
  | .read ctx =>
    if c.fail then some (dir, .failInner ctx)
    else
      match b.readAt ctx.src ctx.written.length (min (c.n + 1) bufLen) with
      | none => some (dir, .failInner ctx)
      | some [] => some (dir, .sync ctx)
      | some (x :: chunk) => some (dir, .write ctx (x :: chunk))
  | .write ctx chunk =>
    if c.fail then
      some (dir.writeAt zeroByte ctx.dst ctx.written.length (written task (chunk.take c.n)),
        .failInner ctx)
    else
      some (dir.writeAt zeroByte ctx.dst ctx.written.length (written task chunk),
        .read { ctx with written := ctx.written ++ chunk })
  | .sync ctx => if c.fail then some (dir, .failInner ctx) else some (dir, .checkAbort ctx)
  | .checkAbort ctx => some (dir, .finalStat ctx abort)
  | .finalStat ctx aborted =>
    if aborted || changedSince ctx.init (c.finalStat b p) then some (dir, .failInner ctx)
    else some (dir, .apply ctx (sourceSnapshot ctx.init (c.finalStat b p)))
  | .apply ctx snapshot =>
    if c.fail || (dir.fileAt (partialPath p)).isNone then some (dir, .failOuter (some ctx))
    else some (dir, .rename ctx snapshot)
  | .rename ctx snapshot =>
    if c.fail then some (dir, .failInner ctx)
    else
      match Files.rename dir (partialPath p) p with
      | none => some (dir, .failInner ctx)
      | some dir' => some (dir', .ok snapshot)
  | .failInner _ =>
    some (if c.fail then dir else removeFile dir (partialPath p), .failOuter none)
  | .failOuter _ => some (if c.fail then dir else removeFile dir (partialPath p), .err)
  | .ok _ => none
  | .err => none

/-- Between opening the temporary file and renaming or removing it. -/
def CopyPc.window : CopyPc → Option CopyCtx
  | .read ctx | .write ctx _ | .sync ctx | .checkAbort ctx | .finalStat ctx _ => some ctx
  | .apply ctx _ | .rename ctx _ | .failInner ctx => some ctx
  | .failOuter ctx => ctx
  | _ => none

/-- In the window, and not on the way to an error. -/
def CopyPc.filling : CopyPc → Option CopyCtx
  | .read ctx | .write ctx _ | .sync ctx | .checkAbort ctx | .finalStat ctx _ => some ctx
  | .apply ctx _ | .rename ctx _ => some ctx
  | _ => none

theorem CopyPc.window_of_filling {pc : CopyPc} {ctx : CopyCtx} (h : pc.filling = some ctx) :
    pc.window = some ctx := by
  cases pc <;> first | exact h | exact absurd h (by simp [CopyPc.filling])

/-- What one step can do. -/
inductive CopyMove (b : Backing) (dir : CacheDir) (abort : Bool) (p : RelPath) (task : Nat)
    (c : CopyChoice) : CopyPc → CacheDir → CopyPc → Prop
  | mkdirFails : CopyMove b dir abort p task c .mkdir dir .err
  | mkdir {dir' : CacheDir} (h : dir.createDirAll p.dropLast = some dir') :
      CopyMove b dir abort p task c .mkdir dir' .openSrc
  | openSrc {src : Handle} (h : b.openFile p = some src) :
      CopyMove b dir abort p task c .openSrc dir (.fstat src)
  | openSrcFails : CopyMove b dir abort p task c .openSrc dir (.failOuter none)
  | fstat (src : Handle) :
      CopyMove b dir abort p task c (.fstat src) dir (.openDst src (b.fstat src))
  | fstatFails (src : Handle) : CopyMove b dir abort p task c (.fstat src) dir (.failOuter none)
  | openDst {src : Handle} {init : Stat} {dir' : CacheDir} {dst : Nat}
      (h : dir.openTrunc (partialPath p) = some (dir', dst)) :
      CopyMove b dir abort p task c (.openDst src init) dir' (.read ⟨src, dst, init, []⟩)
  | openDstFails (src : Handle) (init : Stat) :
      CopyMove b dir abort p task c (.openDst src init) dir (.failOuter none)
  | readFails (ctx : CopyCtx) : CopyMove b dir abort p task c (.read ctx) dir (.failInner ctx)
  | eof {ctx : CopyCtx} {n : Nat} (h : b.readAt ctx.src ctx.written.length (n + 1) = some []) :
      CopyMove b dir abort p task c (.read ctx) dir (.sync ctx)
  | chunk {ctx : CopyCtx} {n : Nat} {bs : List UInt8}
      (h : b.readAt ctx.src ctx.written.length (n + 1) = some bs) (hne : bs ≠ []) :
      CopyMove b dir abort p task c (.read ctx) dir (.write ctx bs)
  | writeFails (ctx : CopyCtx) (bs : List UInt8) (n : Nat) :
      CopyMove b dir abort p task c (.write ctx bs)
        (dir.writeAt zeroByte ctx.dst ctx.written.length (written task (bs.take n)))
        (.failInner ctx)
  | write (ctx : CopyCtx) (bs : List UInt8) :
      CopyMove b dir abort p task c (.write ctx bs)
        (dir.writeAt zeroByte ctx.dst ctx.written.length (written task bs))
        (.read { ctx with written := ctx.written ++ bs })
  | syncFails (ctx : CopyCtx) : CopyMove b dir abort p task c (.sync ctx) dir (.failInner ctx)
  | sync (ctx : CopyCtx) : CopyMove b dir abort p task c (.sync ctx) dir (.checkAbort ctx)
  | checkAbort (ctx : CopyCtx) :
      CopyMove b dir abort p task c (.checkAbort ctx) dir (.finalStat ctx abort)
  | refuse {ctx : CopyCtx} {aborted : Bool}
      (h : aborted = true ∨ changedSince ctx.init (c.finalStat b p) = true) :
      CopyMove b dir abort p task c (.finalStat ctx aborted) dir (.failInner ctx)
  | accept {ctx : CopyCtx} (h : changedSince ctx.init (c.finalStat b p) = false) :
      CopyMove b dir abort p task c (.finalStat ctx false) dir
        (.apply ctx (sourceSnapshot ctx.init (c.finalStat b p)))
  | applyFails (ctx : CopyCtx) (snapshot : SourceMetadata) :
      CopyMove b dir abort p task c (.apply ctx snapshot) dir (.failOuter (some ctx))
  | apply {ctx : CopyCtx} (snapshot : SourceMetadata)
      (h : (dir.fileAt (partialPath p)).isSome) :
      CopyMove b dir abort p task c (.apply ctx snapshot) dir (.rename ctx snapshot)
  | renameFails (ctx : CopyCtx) (snapshot : SourceMetadata) :
      CopyMove b dir abort p task c (.rename ctx snapshot) dir (.failInner ctx)
  | rename {ctx : CopyCtx} {snapshot : SourceMetadata} {dir' : CacheDir}
      (h : Files.rename dir (partialPath p) p = some dir') :
      CopyMove b dir abort p task c (.rename ctx snapshot) dir' (.ok snapshot)
  | removeInner {ctx : CopyCtx} {dir' : CacheDir}
      (h : dir' = dir ∨ dir' = removeFile dir (partialPath p)) :
      CopyMove b dir abort p task c (.failInner ctx) dir' (.failOuter none)
  | removeOuter {ctx : Option CopyCtx} {dir' : CacheDir}
      (h : dir' = dir ∨ dir' = removeFile dir (partialPath p)) :
      CopyMove b dir abort p task c (.failOuter ctx) dir' .err

theorem copyMove_of_step {b : Backing} {dir dir' : CacheDir} {abort : Bool} {p : RelPath}
    {task : Nat} {c : CopyChoice} {pc pc' : CopyPc}
    (h : copyStep b dir abort p task c pc = some (dir', pc')) :
    CopyMove b dir abort p task c pc dir' pc' := by
  have hbuf : ∃ n, min (c.n + 1) bufLen = n + 1 :=
    ⟨min (c.n + 1) bufLen - 1, by unfold bufLen; omega⟩
  have hremove : (if c.fail then dir else removeFile dir (partialPath p)) = dir ∨
      (if c.fail then dir else removeFile dir (partialPath p)) = removeFile dir (partialPath p) := by
    cases c.fail <;> simp
  cases pc with
  | mkdir =>
    simp only [copyStep] at h
    split at h
    · obtain ⟨rfl, rfl⟩ := Prod.mk.inj (Option.some.inj h); exact .mkdirFails
    · split at h
      · obtain ⟨rfl, rfl⟩ := Prod.mk.inj (Option.some.inj h); exact .mkdirFails
      · next hd => obtain ⟨rfl, rfl⟩ := Prod.mk.inj (Option.some.inj h); exact .mkdir hd
  | openSrc =>
    simp only [copyStep] at h
    split at h
    · obtain ⟨rfl, rfl⟩ := Prod.mk.inj (Option.some.inj h); exact .openSrcFails
    · split at h
      · obtain ⟨rfl, rfl⟩ := Prod.mk.inj (Option.some.inj h); exact .openSrcFails
      · next hs => obtain ⟨rfl, rfl⟩ := Prod.mk.inj (Option.some.inj h); exact .openSrc hs
  | fstat src =>
    simp only [copyStep] at h
    split at h
    · obtain ⟨rfl, rfl⟩ := Prod.mk.inj (Option.some.inj h); exact .fstatFails src
    · obtain ⟨rfl, rfl⟩ := Prod.mk.inj (Option.some.inj h); exact .fstat src
  | openDst src init =>
    simp only [copyStep] at h
    split at h
    · obtain ⟨rfl, rfl⟩ := Prod.mk.inj (Option.some.inj h); exact .openDstFails src init
    · split at h
      · obtain ⟨rfl, rfl⟩ := Prod.mk.inj (Option.some.inj h); exact .openDstFails src init
      · next ho => obtain ⟨rfl, rfl⟩ := Prod.mk.inj (Option.some.inj h); exact .openDst ho
  | read ctx =>
    obtain ⟨n, hn⟩ := hbuf
    simp only [copyStep, hn] at h
    split at h
    · obtain ⟨rfl, rfl⟩ := Prod.mk.inj (Option.some.inj h); exact .readFails ctx
    · split at h
      · obtain ⟨rfl, rfl⟩ := Prod.mk.inj (Option.some.inj h); exact .readFails ctx
      · next hr => obtain ⟨rfl, rfl⟩ := Prod.mk.inj (Option.some.inj h); exact .eof hr
      · next hr =>
        obtain ⟨rfl, rfl⟩ := Prod.mk.inj (Option.some.inj h)
        exact .chunk hr (by simp)
  | write ctx bs =>
    simp only [copyStep] at h
    split at h
    · obtain ⟨rfl, rfl⟩ := Prod.mk.inj (Option.some.inj h); exact .writeFails ctx bs c.n
    · obtain ⟨rfl, rfl⟩ := Prod.mk.inj (Option.some.inj h); exact .write ctx bs
  | sync ctx =>
    simp only [copyStep] at h
    split at h
    · obtain ⟨rfl, rfl⟩ := Prod.mk.inj (Option.some.inj h); exact .syncFails ctx
    · obtain ⟨rfl, rfl⟩ := Prod.mk.inj (Option.some.inj h); exact .sync ctx
  | checkAbort ctx =>
    simp only [copyStep] at h
    obtain ⟨rfl, rfl⟩ := Prod.mk.inj (Option.some.inj h)
    exact .checkAbort ctx
  | finalStat ctx aborted =>
    simp only [copyStep] at h
    split at h
    · next hr =>
      obtain ⟨rfl, rfl⟩ := Prod.mk.inj (Option.some.inj h)
      exact .refuse (by simpa using hr)
    · next hr =>
      obtain ⟨rfl, rfl⟩ := Prod.mk.inj (Option.some.inj h)
      obtain ⟨rfl, hc⟩ : aborted = false ∧ changedSince ctx.init (c.finalStat b p) = false := by
        simpa using hr
      exact .accept hc
  | apply ctx snapshot =>
    simp only [copyStep] at h
    split at h
    · obtain ⟨rfl, rfl⟩ := Prod.mk.inj (Option.some.inj h); exact .applyFails ctx snapshot
    · next ha =>
      obtain ⟨rfl, rfl⟩ := Prod.mk.inj (Option.some.inj h)
      refine .apply snapshot (Option.isSome_iff_ne_none.mpr fun hn => ha ?_)
      simp [hn]
  | rename ctx snapshot =>
    simp only [copyStep] at h
    split at h
    · obtain ⟨rfl, rfl⟩ := Prod.mk.inj (Option.some.inj h); exact .renameFails ctx snapshot
    · split at h
      · obtain ⟨rfl, rfl⟩ := Prod.mk.inj (Option.some.inj h); exact .renameFails ctx snapshot
      · next hr => obtain ⟨rfl, rfl⟩ := Prod.mk.inj (Option.some.inj h); exact .rename hr
  | failInner ctx =>
    simp only [copyStep] at h
    obtain ⟨rfl, rfl⟩ := Prod.mk.inj (Option.some.inj h)
    exact .removeInner hremove
  | failOuter ctx =>
    simp only [copyStep] at h
    obtain ⟨rfl, rfl⟩ := Prod.mk.inj (Option.some.inj h)
    exact .removeOuter hremove
  | ok snapshot => exact absurd h (by simp [copyStep])
  | err => exact absurd h (by simp [copyStep])

end FsCache
