import FsCache.OneWriter
import FsCache.Serve

/- Reads through a handle that was opened on a cached file (fuse/read.rs), while the daemon
   goes on.

   The descriptor is of the file and not of its name: an eviction takes the name away, and the
   next copy of the path gives it to another file. What could still change the file is a copy
   that fills it, or one that opens it as its temporary file; `OutOfReach` is that there is
   neither, and no step of the daemon ends it.

   `cached_reads`: every read on the handle is answered from the content there was at the open,
   unless a copy was still filling the file then. Where no two copies of a path ever copy at
   once none was, and the content is the work of one copy.

   Correspondence (Rust ↔ Lean):
     the descriptor of `try_open`, the handle of `reply.opened` ↔ `Reading.fd`
     `do_read`                                                ↔ `ReadingAction.read`
     the other tasks of the daemon                            ↔ `ReadingAction.work` -/

namespace FsCache
open Lib

/-- The daemon, a handle, and what the reads on it were answered: offset, size, bytes. -/
structure Reading where
  daemon : Daemon
  fd : ReadFd
  answered : List (Nat × Nat × Option (List UInt8))

inductive ReadingAction where
  | work (a : Action)
  | read (offset size : Nat)

/-- The daemon goes on, or the handle is read. A crash takes the handle with it. -/
def Reading.step (cfg : Config) (r : Reading) : ReadingAction → Option Reading
  | .work (.crash _ _) => none
  | .work a => (Daemon.step cfg r.daemon a).map fun s => { r with daemon := s }
  | .read offset size =>
    some { r with
      answered := r.answered ++ [(offset, size, doRead r.daemon.backing r.daemon.dir r.fd offset size)] }

/-! ## A file that no copy can get to -/

/-- No temporary name leads to the file, and no copy is filling it. -/
structure OutOfReach (dir : CacheDir) (cp : Copies) (i : Nat) : Prop where
  issued : i < dir.next
  unnamed : ∀ q, dir.fileAt (partialPath q) ≠ some i
  unfilled : ∀ t q ctx, InWindow cp t q ctx → ctx.dst ≠ i

namespace OutOfReach

variable {b : Backing} {dir dir' : CacheDir} {abort : Bool} {p : RelPath} {t i : Nat} {c : CopyChoice}
  {pc pc' : CopyPc} {cp cp' : Copies}

/-- No new name, and no new copy. -/
theorem mono (h : OutOfReach dir cp i) (hnext : dir'.next = dir.next)
    (hfile : ∀ q j, dir'.fileAt q = some j → dir.fileAt q = some j)
    (hw : ∀ t q ctx, InWindow cp' t q ctx → InWindow cp t q ctx) : OutOfReach dir' cp' i where
  issued := hnext ▸ h.issued
  unnamed q hq := h.unnamed q (hfile _ _ hq)
  unfilled t q ctx hi := h.unfilled t q ctx (hw t q ctx hi)

/-- A copy that keeps to the file it fills, or lets go of it. -/
theorem keep (h : OutOfReach dir cp i) (ht : cp t = some (p, pc)) (hnext : dir'.next = dir.next)
    (hfile : ∀ q j, dir'.fileAt q = some j → dir.fileAt q = some j)
    (hw : ∀ ctx, pc'.window = some ctx → ∃ ctx', pc.window = some ctx' ∧ ctx'.dst = ctx.dst) :
    OutOfReach dir' (Function.update cp t (some (p, pc'))) i where
  issued := hnext ▸ h.issued
  unnamed q hq := h.unnamed q (hfile _ _ hq)
  unfilled u q ctx hi := by
    rcases inWindow_update.mp hi with ⟨-, -, hc⟩ | ⟨-, hc⟩
    · obtain ⟨ctx', hctx, hdst⟩ := hw ctx hc
      exact hdst ▸ h.unfilled t p ctx' ⟨pc, ht, hctx⟩
    · exact h.unfilled u q ctx hc

/-- A copy opens its temporary file: that is another one. -/
theorem openDst (h : OutOfReach dir cp i) {src : Handle} {init : Stat} {dst : Nat}
    (ho : dir.openTrunc (partialPath p) = some (dir', dst)) :
    OutOfReach dir' (Function.update cp t (some (p, .read ⟨src, dst, init, []⟩))) i ∧
      dir'.data i = dir.data i := by
  obtain ⟨-, hdata, hcase⟩ := Files.openTrunc_spec ho
  have hother : dst ≠ i := by
    rcases hcase with ⟨hp, -, -⟩ | ⟨-, hd, -, -⟩
    · intro e
      exact h.unnamed p (e ▸ hp)
    · have := h.issued
      omega
  refine ⟨⟨lt_of_lt_of_le h.issued (Files.next_openTrunc ho).1, fun q hq => ?_, fun u q ctx hi => ?_⟩, ?_⟩
  · rw [Files.fileAt_openTrunc ho] at hq
    split at hq
    · exact hother (Option.some.inj hq)
    · exact h.unnamed q hq
  · rcases inWindow_update.mp hi with ⟨-, -, hc⟩ | ⟨-, hc⟩
    · obtain rfl := Option.some.inj hc
      exact hother
    · exact h.unfilled u q ctx hc
  · rw [hdata, Function.update_of_ne (Ne.symm hother)]

/-- What is committed was under a temporary name. -/
theorem rename (h : OutOfReach dir cp i) (ht : cp t = some (p, pc))
    (hr : Files.rename dir (partialPath p) p = some dir') {snapshot : SourceMetadata} :
    OutOfReach dir' (Function.update cp t (some (p, .ok snapshot))) i := by
  obtain ⟨-, -, -, -, hnext, -⟩ := Files.rename_spec hr
  have hreach : OutOfReach dir (Function.update cp t (some (p, .ok snapshot))) i :=
    h.keep ht rfl (fun _ _ e => e) (by simp [CopyPc.window])
  refine ⟨hnext ▸ h.issued, fun q hq => ?_, hreach.unfilled⟩
  rw [Files.fileAt_rename hr] at hq
  split at hq
  · exact h.unnamed p hq
  · split at hq
    · exact absurd hq (by simp)
    · exact h.unnamed q hq

/-- One step of one copy does not get to the file. -/
theorem move (h : OutOfReach dir cp i) (ht : cp t = some (p, pc)) (hm : CopyMove b dir abort p t c pc dir' pc') :
    OutOfReach dir' (Function.update cp t (some (p, pc'))) i ∧ dir'.data i = dir.data i := by
  have write : ∀ ctx chunk bs, pc = .write ctx chunk →
      (∀ ctx', pc'.window = some ctx' → ctx.dst = ctx'.dst) →
      OutOfReach (dir.writeAt zeroByte ctx.dst ctx.written.length (written t bs))
          (Function.update cp t (some (p, pc'))) i ∧
        (dir.writeAt zeroByte ctx.dst ctx.written.length (written t bs)).data i = dir.data i := by
    intro ctx chunk bs hpc hw
    subst hpc
    have hother : i ≠ ctx.dst := Ne.symm (h.unfilled t p ctx ⟨_, ht, rfl⟩)
    exact ⟨h.keep ht rfl (fun _ _ e => e) fun ctx' hc => ⟨ctx, rfl, hw ctx' hc⟩,
      Files.data_writeAt_other hother⟩
  have same : (∀ ctx, pc'.window = some ctx → pc.window = some ctx) →
      OutOfReach dir (Function.update cp t (some (p, pc'))) i ∧ dir.data i = dir.data i :=
    fun hw => ⟨h.keep ht rfl (fun _ _ e => e) fun ctx hc => ⟨ctx, hw ctx hc, rfl⟩, rfl⟩
  cases hm with
  | mkdir hd =>
    have hd := Files.onlyDirs_createDirAll hd
    refine ⟨h.keep ht hd.next (fun q j e => ?_) (by simp [CopyPc.window]), by rw [hd.data]⟩
    rwa [hd.fileAt] at e
  | openDst ho => exact h.openDst ho
  | write ctx bs =>
    refine write ctx bs bs rfl fun ctx' hc => ?_
    rw [← Option.some.inj hc]
  | writeFails ctx bs n =>
    refine write ctx bs (bs.take n) rfl fun ctx' hc => ?_
    rw [← Option.some.inj hc]
  | rename hr =>
    obtain ⟨-, -, -, hdata, -, -⟩ := Files.rename_spec hr
    exact ⟨h.rename ht hr, by rw [hdata]⟩
  | removeInner hd | removeOuter hd =>
    exact ⟨h.keep ht (next_of_removed hd) (fun q j => fileAt_of_removed hd) (by simp [CopyPc.window]),
      by rw [data_of_removed hd]⟩
  | mkdirFails | openSrc | openSrcFails | fstat | fstatFails | openDstFails | readFails | eof | chunk
  | syncFails | sync | checkAbort | refuse | accept | applyFails | apply | renameFails =>
    exact same (by simp [CopyPc.window])

end OutOfReach

namespace Daemon

variable {cfg : Config} {s s' : Daemon} {a : Action} {p : RelPath} {i now : Nat}

theorem outOfReach_step (hw : s.Wf) (hi : OutOfReach s.dir s.copies i) (h : step cfg s a = some s') :
    OutOfReach s'.dir s'.copies i ∧ s'.dir.data i = s.dir.data i := by
  cases dirStep_of_step hw h with
  | copy ha ht hm hcopies =>
    rw [hcopies]
    exact hi.move ht hm
  | quiet hdata hnext hfile hcopies =>
    exact ⟨hi.mono hnext hfile fun t p ctx => inWindow_quiet hcopies, by rw [hdata]⟩

/-- What an open of a cached path leads to has no temporary name. -/
theorem outOfReach_of_cached (hcached : isCached s.dir p = true) (hfile : s.dir.fileAt p = some i)
    (hunfilled : ∀ t q ctx, InWindow s.copies t q ctx → ctx.dst ≠ i) : OutOfReach s.dir s.copies i where
  issued := Files.fileAt_lt hfile
  unfilled := hunfilled
  unnamed q hq := by
    obtain rfl : partialPath q = p := Files.fileAt_inj hq hfile
    have hne : q ≠ [] := by
      rintro rfl
      exact (Files.node_of_fileAt hfile).1 rfl
    exact extension_of_cached hcached (extension_partialPath hne)

end Daemon

/-! ## Reading on -/

namespace Reading

variable {cfg : Config} {r r' : Reading} {a : ReadingAction}

/-- Every answer is from this content. -/
def AnswersFrom (content : List UInt8) (answered : List (Nat × Nat × Option (List UInt8))) : Prop :=
  ∀ x ∈ answered, x.2.2 = some ((content.drop x.1).take x.2.1)

/-- The handle is of a file that no copy can get to, and that was always its content. -/
structure Steady (content : List UInt8) (i : Nat) (r : Reading) : Prop where
  wf : r.daemon.Wf
  fd : r.fd = .cacheFile i
  reach : OutOfReach r.daemon.dir r.daemon.copies i
  held : (r.daemon.dir.data i).map CacheByte.val = content
  answered : AnswersFrom content r.answered

theorem Steady.step {content : List UInt8} {i : Nat} (h : Steady content i r) (hs : r.step cfg a = some r') :
    Steady content i r' := by
  have work : ∀ a s, Daemon.step cfg r.daemon a = some s → Steady content i { r with daemon := s } := by
    intro a s hs
    obtain ⟨hreach, hdata⟩ := Daemon.outOfReach_step h.wf h.reach hs
    refine ⟨h.wf.step hs, h.fd, hreach, ?_, h.answered⟩
    show (s.dir.data i).map CacheByte.val = content
    rw [hdata, h.held]
  cases a with
  | read offset size =>
    obtain rfl := Option.some.inj hs
    refine ⟨h.wf, h.fd, h.reach, h.held, fun x hx => ?_⟩
    rcases List.mem_append.mp hx with hx | hx
    · exact h.answered x hx
    · rw [List.mem_singleton.mp hx, h.fd]
      show some ((((r.daemon.dir.data i).map CacheByte.val).drop offset).take size) = _
      rw [h.held]
  | work a =>
    cases a with
    | crash now loaded => exact absurd hs (by simp [Reading.step])
    | change | offer | submit | expire | pop | acquire | release | work | forget | event | dispatch | evictFile
    | evictRow | hit | touch | refresh =>
      obtain ⟨s, hstep, rfl⟩ := Option.map_eq_some_iff.mp hs
      exact work _ s hstep

/-- Each read goes on where the last one ended. -/
def Sequential : Nat → List (Nat × Nat × Option (List UInt8)) → Prop
  | _, [] => True
  | at_, (offset, _, bytes) :: l => offset = at_ ∧ Sequential (at_ + (bytes.getD []).length) l

/-- What was read, put together. -/
def received (answered : List (Nat × Nat × Option (List UInt8))) : List UInt8 :=
  answered.flatMap fun x => x.2.2.getD []

theorem received_sequential {content : List UInt8} {answered : List (Nat × Nat × Option (List UInt8))}
    (h : AnswersFrom content answered) {at_ : Nat} (hseq : Sequential at_ answered) :
    received answered = (content.drop at_).take (received answered).length := by
  induction answered generalizing at_ with
  | nil => simp [received]
  | cons x l ih =>
    obtain ⟨offset, size, bytes⟩ := x
    obtain ⟨rfl, hseq⟩ := hseq
    have hbytes : bytes = some ((content.drop offset).take size) := h _ List.mem_cons_self
    subst hbytes
    have hrest := ih (fun y hy => h y (List.mem_cons_of_mem _ hy)) hseq
    have hcons : received ((offset, size, some ((content.drop offset).take size)) :: l) =
        (content.drop offset).take size ++ received l := rfl
    generalize hchunk : (content.drop offset).take size = chunk at hcons hrest ⊢
    have htake : chunk = (content.drop offset).take chunk.length := by
      rw [← hchunk, List.length_take, List.take_eq_take_min]
    calc received ((offset, size, some chunk) :: l)
        = chunk ++ received l := hcons
      _ = (content.drop offset).take chunk.length ++
            ((content.drop offset).drop chunk.length).take (received l).length := by
          rw [← htake, List.drop_drop]
          exact congrArg (chunk ++ ·) hrest
      _ = (content.drop offset).take (received ((offset, size, some chunk) :: l)).length := by
          rw [← List.take_add, hcons, List.length_append]

/-- No read is beyond what was read. -/
theorem Sequential.le {answered : List (Nat × Nat × Option (List UInt8))} {at_ : Nat}
    (hseq : Sequential at_ answered) {x : Nat × Nat × Option (List UInt8)} (hx : x ∈ answered) :
    x.1 ≤ at_ + (received answered).length := by
  induction answered generalizing at_ with
  | nil => cases hx
  | cons y l ih =>
    obtain ⟨offset, size, bytes⟩ := y
    obtain ⟨hat, hseq⟩ := hseq
    have hlength : (received ((offset, size, bytes) :: l)).length =
        (bytes.getD []).length + (received l).length := by
      rw [received, List.flatMap_cons, List.length_append]
      rfl
    rcases List.mem_cons.mp hx with rfl | hx
    · show offset ≤ _
      omega
    · have := ih hseq hx
      omega

/-- A client that reads on from the start has a prefix, and all of it once a read has got nothing. -/
theorem received_whole {content : List UInt8} {answered : List (Nat × Nat × Option (List UInt8))}
    (h : AnswersFrom content answered) (hseq : Sequential 0 answered) :
    received answered <+: content ∧
      ((∃ offset size, 0 < size ∧ (offset, size, some []) ∈ answered) → received answered = content) := by
  have htake : received answered = content.take (received answered).length := received_sequential h hseq
  refine ⟨htake ▸ List.take_prefix _ _, fun hend => ?_⟩
  obtain ⟨offset, size, hsize, hmem⟩ := hend
  have hempty : (content.drop offset).take size = [] := (Option.some.inj (h _ hmem)).symm
  have hle : offset ≤ 0 + (received answered).length := hseq.le hmem
  have hend : content.length ≤ offset := by
    have := congrArg List.length hempty
    rw [List.length_take, List.length_drop, List.length_nil] at this
    omega
  rw [htake, List.take_of_length_le (by omega)]

end Reading

theorem fileAt_of_tryOpen {b : Backing} {dir : CacheDir} {db db' : CacheDb} {mount : MountId}
    {passthroughMode filtered : Bool} {p : RelPath} {now i : Nat} {outcome : OpenOutcome}
    (h : tryOpen b dir db mount passthroughMode filtered p now = (db', some (.cacheFile i, outcome))) :
    isCached dir p = true ∧ dir.fileAt p = some i := by
  rw [tryOpen] at h
  split at h
  · next j hj =>
    split at hj
    · next hc =>
      rw [Bool.and_eq_true] at hc
      obtain ⟨rfl, -⟩ : j = i ∧ OpenOutcome.hit = outcome := by simpa using (Prod.mk.inj h).2
      exact ⟨hc.2, Files.fileAt_eq_some.mpr hj⟩
    · exact absurd hj (by simp)
  · exact absurd (Prod.mk.inj h).2 (by simp)
  · obtain ⟨x, -, hx⟩ := Option.map_eq_some_iff.mp (Prod.mk.inj h).2
    exact absurd (Prod.mk.inj hx).1 (by simp)

/-- A handle that an open of a cached path gave: all reads on it are answered from the content there was
at the open, if no copy was still filling the file; and a client that reads on from the start gets a
prefix of it, and then all of it. Where no two copies of a path copy at once, no copy was, and the content
is the work of one. -/
theorem cached_reads (cfg : Config) {b : Backing} {dir : CacheDir} {db : CacheDb} {loaded : List (RelPath × Nat)}
    {as : List Action} {s : Daemon} (hrun : run (Daemon.step cfg) (Daemon.start cfg b dir db loaded) as = some s)
    {passthroughMode filtered : Bool} {p : RelPath} {now i : Nat} {db' : CacheDb} {outcome : OpenOutcome}
    (hopen : tryOpen s.backing s.dir s.db cfg.mount passthroughMode filtered p now =
      (db', some (.cacheFile i, outcome)))
    {bs : List ReadingAction} {r : Reading}
    (hread : run (Reading.step cfg) ⟨{ s with db := db' }, .cacheFile i, []⟩ bs = some r) :
    ((∀ t q ctx, InWindow s.copies t q ctx → ctx.dst ≠ i) →
      Reading.AnswersFrom ((s.dir.data i).map CacheByte.val) r.answered ∧
      (Reading.Sequential 0 r.answered → Reading.received r.answered <+: (s.dir.data i).map CacheByte.val ∧
        ((∃ offset size, 0 < size ∧ (offset, size, some []) ∈ r.answered) →
          Reading.received r.answered = (s.dir.data i).map CacheByte.val))) ∧
    (OneWriter dir → Along (Daemon.step cfg) Daemon.PromotesApart (Daemon.start cfg b dir db loaded) as →
      (∀ t q ctx, InWindow s.copies t q ctx → ctx.dst ≠ i) ∧ ∃ w, ∀ c ∈ s.dir.data i, c.writer = w) := by
  obtain ⟨hcached, hfile⟩ := fileAt_of_tryOpen hopen
  refine ⟨fun hunfilled => ?_, fun hdir hok => ?_⟩
  · have hwf : s.Wf :=
      run_invariant Daemon.Wf (fun _ _ _ h hs => h.step hs) hrun (Daemon.wf_start cfg b dir db loaded)
    have hstart : Reading.Steady ((s.dir.data i).map CacheByte.val) i ⟨{ s with db := db' }, .cacheFile i, []⟩ :=
      ⟨⟨hwf.partition, hwf.handles⟩, rfl, Daemon.outOfReach_of_cached hcached hfile hunfilled, rfl,
        fun x hx => absurd hx (by simp)⟩
    have hsteady := run_invariant (Reading.Steady _ i) (fun _ _ _ h hs => h.step hs) hread hstart
    exact ⟨hsteady.answered, Reading.received_whole hsteady.answered⟩
  · have hi : s.Exclusive :=
      run_invariant_along Daemon.Exclusive (fun _ _ _ hi hok hs => hi.step hok hs) hrun hok
        ⟨Daemon.tidy_start cfg b dir db loaded, hdir⟩
    refine ⟨fun t q ctx hin hdst => ?_, hi.writer i⟩
    have hreach : p = partialPath q := hi.windows.name t q ctx p hin (hdst ▸ hfile)
    subst hreach
    have hne : q ≠ [] := by
      rintro rfl
      exact (Files.node_of_fileAt hfile).1 rfl
    exact extension_of_cached hcached (extension_partialPath hne)

/-! ## A handle that outlives its file's name -/

section Sample

private def feature : Name := ⟨[102, 105, 108, 109], Eq.refl true⟩

private def featureStart : Daemon :=
  Daemon.start twoPermits (Backing.empty.replaceFile [feature] (.pair 80 81 1)) Files.empty ⟨∅, ∅⟩ []

private def populating : List Action := Daemon.requested [feature] ++ Daemon.turns 1 19 ++ [.release]

private def populated : Daemon := (run (Daemon.step twoPermits) featureStart populating).get (by decide +kernel)

private theorem run_populated : run (Daemon.step twoPermits) featureStart populating = some populated :=
  (Option.some_get _).symm

/-- The file is changed, found stale and copied again. -/
private def recopying : List Action :=
  [.change (.write [feature] (.pair 90 91 2)), .event [feature], .dispatch 9, .dispatch 9, .pop false] ++
    Daemon.turns 2 4 ++ [.pop true, .acquire] ++ Daemon.turns 3 18

private def featureOpen : Reading :=
  ⟨{ populated with db := (tryOpen populated.backing populated.dir populated.db [109] false false [feature] 9).1 },
    .cacheFile 0, []⟩

private def readAcross : List ReadingAction := .read 0 1 :: recopying.map .work ++ [.read 1 1, .read 2 1]

private def readOut : Reading := (run (Reading.step twoPermits) featureOpen readAcross).get (by decide +kernel)

/-- The handle goes on with the bytes of its open; the path has new ones. -/
theorem cached_reads_replaced : Reading.received readOut.answered = [80, 81] ∧
    (readOut.daemon.dir.contents [feature]).map (·.map CacheByte.val) = some [90, 91] := by
  have hopen : tryOpen populated.backing populated.dir populated.db twoPermits.mount false false [feature] 9 =
      (featureOpen.daemon.db, some (.cacheFile 0, .hit)) := Prod.ext rfl (by decide +kernel)
  have hread : run (Reading.step twoPermits) featureOpen readAcross = some readOut := (Option.some_get _).symm
  obtain ⟨hreads, hapart⟩ := cached_reads twoPermits run_populated hopen hread
  have hone : OneWriter (Files.empty : CacheDir) := fun i => ⟨0, by simp [Files.empty]⟩
  have hanswered : readOut.answered = [(0, 1, some [80]), (1, 1, some [81]), (2, 1, some [])] := by decide +kernel
  have hseq : Reading.Sequential 0 readOut.answered := by
    rw [hanswered]
    exact ⟨rfl, rfl, rfl, trivial⟩
  have hend : (2, 1, some []) ∈ readOut.answered := by
    rw [hanswered]
    simp
  refine ⟨?_, by decide +kernel⟩
  calc Reading.received readOut.answered
      = (populated.dir.data 0).map CacheByte.val :=
        ((hreads (hapart hone (by decide +kernel)).1).2 hseq).2 ⟨2, 1, Nat.one_pos, hend⟩
    _ = [80, 81] := by decide +kernel

end Sample

end FsCache
