import Mathlib.Data.Finset.Insert
import FsCache.Lib.Run
import FsCache.Db
import FsCache.Serve

/- Process discovery (discovery.rs).

   A session counts the operations of the FUSE threads by process name, and one task per session
   drains its counters into `process_access`. `enabled` and the stored session are two atomics;
   `start` and `stop` write them under a lock, the task of an ended session writes them without
   it. Each load and each store is a step of its own here, so is each counter that a flush swaps;
   `log_touch` and `log_open` are one step from the session they hold on. The rows of a flush are
   written under the lock of the connection, some of them or all. What `/proc` says when it is read
   is part of the action. Time is in seconds. Counters are unbounded.

   `armed` is that a `start` has returned and nothing has asked for an end since, `credits` lists
   the operations that were counted; nothing reads them.

   Correspondence (Rust ↔ Lean):
     `DiscoveryController::start`, `stop`    ↔ `lockStart`, `lockStop`, then `Discovery.control`
     the epilogue in the spawned task        ↔ `disable`, `clear`
     `log_touch`, `log_open`                 ↔ `call`, `load`, then `Session.logTouch`, `Session.logOpen`
     `Session::resolve_pid`, `bump`          ↔ `Session.resolvePid`, `Session.bump`
     `flush_bucket`                          ↔ `flush`, `swap`, `collected`, `write`
     `LAST_SEEN`                             ↔ `Discovery.lastSeen`
     `upsert_process_access` (cache/db.rs)   ↔ `upsertProcessAccess`
     `ProcessFilterPolicy` (preset.rs)       ↔ `ProcessFilterPolicy` -/

namespace FsCache
open Lib

/-- A string, by its bytes. -/
abbrev Str := List UInt8

/-! ## Processes -/

structure ProcessInfo where
  pid : Nat
  name : Option Str
  cmdline : Option (List UInt8)
  ancestors : List Str
  deriving DecidableEq

/-- What `/proc` says of a process. -/
structure ProcReading where
  name : Option Str
  cmdline : Option (List UInt8)
  ancestors : List Str

namespace ProcessInfo

def capture (pid : Nat) (proc : ProcReading) : ProcessInfo := ⟨pid, proc.name, proc.cmdline, proc.ancestors⟩

/-- `(unknown)` -/
def unknown : Str := [40, 117, 110, 107, 110, 111, 119, 110, 41]

/-- The name an operation is counted under. -/
def countedName (info : ProcessInfo) : Str := info.name.getD unknown

def matchesOpener (info : ProcessInfo) (names : List Str) : Bool :=
  info.name.any fun name => names.any fun n => name == n

def matchesAny (info : ProcessInfo) (names : List Str) : Bool :=
  info.matchesOpener names || info.ancestors.any fun a => names.any fun n => a == n

end ProcessInfo

structure ProcessFilterPolicy where
  allowlist : List Str
  blocklist : List Str

def ProcessFilterPolicy.shouldFilter (policy : ProcessFilterPolicy) (process : ProcessInfo) : Bool :=
  if !policy.blocklist.isEmpty && process.matchesAny policy.blocklist then true
  else !policy.allowlist.isEmpty && !process.matchesOpener policy.allowlist

/-- `DISCOVERY_CMDLINE_MAX` -/
def discoveryCmdlineMax : Nat := 4096

/-- A byte at which a character starts. -/
def charBoundary (s : Str) (i : Nat) : Bool := (s[i]?.all fun b => b < 128 || 192 ≤ b) && decide (i ≤ s.length)

/-- The largest character boundary from `stop` down. -/
def boundaryBelow (s : Str) : Nat → Nat
  | 0 => 0
  | stop + 1 => if charBoundary s (stop + 1) then stop + 1 else boundaryBelow s stop

def truncateCmdline (s : Str) (maxBytes : Nat) : Str :=
  if s.length ≤ maxBytes then s else s.take (boundaryBelow s maxBytes)

/-- The arguments with blanks between them, and the ancestors with `>`. -/
def formatProcessInfo (info : ProcessInfo) : Str × Str :=
  let cmdline :=
    match info.cmdline with
    | none => []
    | some bytes =>
      let s := [32].intercalate (((bytes.splitOn 0).filter fun arg => !arg.isEmpty).map toStringLossy)
      if discoveryCmdlineMax < s.length then truncateCmdline s discoveryCmdlineMax ++ [226, 128, 166] else s
  (cmdline, [62].intercalate info.ancestors)

/-! ## Sessions -/

inductive OpKind where
  | hit
  | miss
  | «meta»
  deriving DecidableEq

def OpKind.asStr : OpKind → Str
  | .hit => [104, 105, 116]
  | .miss => [109, 105, 115, 115]
  | .meta => [109, 101, 116, 97]

/-- A `ProcessInfo` and when it was captured. -/
structure Captured where
  info : ProcessInfo
  capturedAt : Nat
  deriving DecidableEq

/-- The most recently used entry first. -/
abbrev PidLru := List (Nat × Captured)

namespace PidLru

def get (lru : PidLru) (pid : Nat) : Option Captured := List.lookup pid lru

/-- What was stored for the PID goes, and at capacity the entry used least recently. -/
def put (lru : PidLru) (cap pid : Nat) (c : Captured) : PidLru :=
  ((pid, c) :: lru.filter fun e => e.1 != pid).take cap

end PidLru

structure Session where
  counts : Map (Str × OpKind) Nat
  samples : Map Str (Option Str × Option Str)
  filtered : Map Str Bool
  seen : Finset Str
  pidLru : PidLru
  startedAt : Int

structure DiscoveryConfig where
  pidLruCapacity : Nat
  pidLruTtlSecs : Nat
  processPolicy : ProcessFilterPolicy

namespace Session

def new (now : Nat) : Session := ⟨∅, ∅, ∅, ∅, [], asI64 now⟩

/-- The first time a name is seen in the session. -/
def note (policy : ProcessFilterPolicy) (s : Session) (info : ProcessInfo) : Session :=
  if info.countedName ∈ s.seen then s
  else
    { s with
      seen := insert info.countedName s.seen
      samples := s.samples.insert info.countedName
        (some (formatProcessInfo info).1, some (formatProcessInfo info).2)
      filtered := s.filtered.insert info.countedName (policy.shouldFilter info) }

/-- `get` makes the entry the most recent one. -/
def resolvePid (cfg : DiscoveryConfig) (s : Session) (pid : Nat) (fresh : Captured) : Captured × Session :=
  match s.pidLru.get pid with
  | some c => (c, { s with pidLru := (pid, c) :: s.pidLru.filter fun e => e.1 != pid })
  | none =>
    (fresh, note cfg.processPolicy
      { s with pidLru := s.pidLru.put (max cfg.pidLruCapacity 1) pid fresh } fresh.info)

def bump (s : Session) (key : Str × OpKind) : Session :=
  { s with counts := s.counts.insert key ((s.counts.lookup key).getD 0 + 1) }

/-- The thread's slot answers for its PID, else the session does. -/
def touchInfo (cfg : DiscoveryConfig) (s : Session) (slot : Option (Nat × Captured)) (pid : Nat)
    (fresh : Captured) : Captured × Session :=
  match slot with
  | some (p, c) => if p = pid then (c, s) else s.resolvePid cfg pid fresh
  | none => s.resolvePid cfg pid fresh

def logTouch (cfg : DiscoveryConfig) (s : Session) (slot : Option (Nat × Captured)) (pid : Nat)
    (fresh : Captured) (op : OpKind) : Captured × Session :=
  let (c, s) := s.touchInfo cfg slot pid fresh
  (c, s.bump (c.info.countedName, op))

def logOpen (cfg : DiscoveryConfig) (s : Session) (info : ProcessInfo) (op : OpKind) : Session :=
  (s.note cfg.processPolicy info).bump (info.countedName, op)

theorem note_counts (policy : ProcessFilterPolicy) (s : Session) (info : ProcessInfo) :
    (s.note policy info).counts = s.counts := by
  rw [note]
  split <;> rfl

theorem resolvePid_counts (cfg : DiscoveryConfig) (s : Session) (pid : Nat) (fresh : Captured) :
    (s.resolvePid cfg pid fresh).2.counts = s.counts := by
  rw [resolvePid]
  split
  · rfl
  · exact note_counts ..

theorem touchInfo_counts (cfg : DiscoveryConfig) (s : Session) (slot : Option (Nat × Captured)) (pid : Nat)
    (fresh : Captured) : (s.touchInfo cfg slot pid fresh).2.counts = s.counts := by
  cases slot with
  | none => exact resolvePid_counts ..
  | some last =>
    simp only [touchInfo]
    split
    · rfl
    · exact resolvePid_counts ..

theorem logTouch_counts (cfg : DiscoveryConfig) (s : Session) (slot : Option (Nat × Captured)) (pid : Nat)
    (fresh : Captured) (op : OpKind) :
    (s.logTouch cfg slot pid fresh op).2.counts = s.counts.insert
      ((s.logTouch cfg slot pid fresh op).1.info.countedName, op)
      ((s.counts.lookup ((s.logTouch cfg slot pid fresh op).1.info.countedName, op)).getD 0 + 1) := by
  rw [← touchInfo_counts cfg s slot pid fresh]
  rfl

theorem logOpen_counts (cfg : DiscoveryConfig) (s : Session) (info : ProcessInfo) (op : OpKind) :
    (s.logOpen cfg info op).counts = s.counts.insert (info.countedName, op)
      ((s.counts.lookup (info.countedName, op)).getD 0 + 1) := by
  rw [← note_counts cfg.processPolicy s info]
  rfl

end Session

/-! ## The table -/

structure ProcessAccessRow where
  bucketEpoch : Int
  processName : Str
  opKind : Str
  count : Nat
  sampleCmdline : Option Str
  sampleAncestors : Option Str
  deriving DecidableEq

/-- A row of `process_access`, without its key. -/
structure AccessRow where
  count : Int
  firstSeen : Int
  lastSeen : Int
  sampleCmdline : Option Str
  sampleAncestors : Option Str

/-- Bucket, name and kind. -/
abbrev ProcessAccess := Map (Int × Str × Str) AccessRow

def ProcessAccessRow.key (row : ProcessAccessRow) : Int × Str × Str := (row.bucketEpoch, row.processName, row.opKind)

/-- The insertion of one row, or its update on a conflict. -/
def upsertRow (table : ProcessAccess) (row : ProcessAccessRow) : ProcessAccess :=
  table.insert row.key <|
    match table.lookup row.key with
    | none => ⟨row.count, row.bucketEpoch, row.bucketEpoch, row.sampleCmdline, row.sampleAncestors⟩
    | some old =>
      { old with
        count := old.count + row.count
        lastSeen := max old.lastSeen row.bucketEpoch
        sampleCmdline := old.sampleCmdline.or row.sampleCmdline
        sampleAncestors := old.sampleAncestors.or row.sampleAncestors }

/-- The counts of the keys that meet `p`. -/
def countWhere (p : Int × Str × Str → Prop) [DecidablePred p] (key : Int × Str × Str) (row : AccessRow) : Int :=
  if p key then row.count else 0

theorem total_upsertRow (p : Int × Str × Str → Prop) [DecidablePred p] (table : ProcessAccess)
    (row : ProcessAccessRow) :
    Map.total (countWhere p) (upsertRow table row) =
      Map.total (countWhere p) table + if p row.key then (row.count : Int) else 0 := by
  rw [upsertRow, Map.total_insert, countWhere]
  cases h : table.lookup row.key with
  | none =>
    rw [Map.erase_of_none h]
    simp only
    omega
  | some old =>
    rw [Map.total_erase (countWhere p) h, countWhere]
    simp only
    split <;> omega

/-- The statement fails at the row after the first `written`, and with it the rest. -/
def upsertProcessAccess (table : ProcessAccess) (rows : List ProcessAccessRow) (written : Nat) : ProcessAccess :=
  (rows.take written).foldl upsertRow table

/-! ## The controller -/

def OpenOutcome.op : OpenOutcome → OpKind
  | .hit => .hit
  | .miss | .filtered => .miss

/-- A call of `log_touch` or `log_open`. -/
inductive Call where
  | touch (pid : Nat) (op : OpKind)
  | opened (info : ProcessInfo) (outcome : OpenOutcome)

inductive CallPc where
  | idle
  /-- `enabled` was read -/
  | checked (c : Call)
  /-- the session was loaded -/
  | holding (k : Nat) (c : Call)

/-- The call that holds the lock of `start` and `stop`. -/
inductive ControlPc where
  | idle
  | starting
  | stored (k : Nat)
  | enabled (k : Nat)
  | spawned (k : Nat)
  | stopping
  | cancelled
  | disabled
  deriving DecidableEq

/-- Where the task of a session is; `last` marks its final flush. -/
inductive DrainPc where
  | unspawned
  | loop
  | collect (last : Bool) (epoch : Int) (todo visited : List (Str × OpKind)) (rows : List ProcessAccessRow)
  | write (last : Bool) (rows : List ProcessAccessRow)
  | returned
  | disabled
  | ended
  deriving DecidableEq

/-- `drain_loop` is running. -/
def DrainPc.live : DrainPc → Bool
  | .loop | .collect .. | .write .. => true
  | .unspawned | .returned | .disabled | .ended => false

/-- The task is in its final flush. -/
def DrainPc.ending : DrainPc → Bool
  | .collect last .. | .write last _ => last
  | .unspawned | .loop | .returned | .disabled | .ended => false

structure SessionTask where
  session : Session
  cancelled : Bool
  drain : DrainPc

/-- An operation that reached `bump`, and for `log_touch` who it was credited to and when. -/
structure Credit where
  k : Nat
  key : Str × OpKind
  touched : Option (Nat × Captured × Nat)

structure Discovery where
  enabled : Bool
  session : Option Nat
  control : ControlPc
  rootCancelled : Bool
  started : Nat
  tasks : Nat → SessionTask
  callers : Nat → CallPc
  lastSeen : Nat → Option (Nat × Captured)
  now : Nat
  processAccess : ProcessAccess
  armed : Bool
  credits : List Credit

inductive DiscoveryAction where
  | advance (secs : Nat)
  | cancelRoot
  | lockStart
  | lockStop
  | control
  | call (thread : Nat) (c : Call)
  | load (thread : Nat)
  | credit (thread : Nat) (proc : ProcReading)
  | flush (k : Nat) (last : Bool)
  | swap (k : Nat) (key : Str × OpKind)
  | collected (k : Nat)
  | write (k : Nat) (written : Nat)
  | disable (k : Nat)
  | clear (k : Nat)

namespace Discovery

def init (table : ProcessAccess) (now : Nat) : Discovery where
  enabled := false
  session := none
  control := .idle
  rootCancelled := false
  started := 0
  tasks := fun _ => ⟨Session.new 0, false, .unspawned⟩
  callers := fun _ => .idle
  lastSeen := fun _ => none
  now := now
  processAccess := table
  armed := false
  credits := []

def setTask (s : Discovery) (k : Nat) (t : SessionTask) : Discovery :=
  { s with tasks := Function.update s.tasks k t }

def setDrain (s : Discovery) (k : Nat) (d : DrainPc) : Discovery :=
  s.setTask k { s.tasks k with drain := d }

def setCaller (s : Discovery) (thread : Nat) (c : CallPc) : Discovery :=
  { s with callers := Function.update s.callers thread c }

/-- The token of a session: its own is a child of the root. -/
def tokenCancelled (s : Discovery) (k : Nat) : Bool := s.rootCancelled || (s.tasks k).cancelled

/-- What `start` and `stop` do under their lock, one store at a time. -/
def controlStep (s : Discovery) : ControlPc → Option Discovery
  | .idle => none
  | .starting => some
      { s with
        session := some s.started
        started := s.started + 1
        tasks := Function.update s.tasks s.started ⟨Session.new s.now, false, .unspawned⟩
        control := .stored s.started }
  | .stored k => some { s with enabled := true, control := .enabled k }
  | .enabled k => some { s.setDrain k .loop with control := .spawned k }
  | .spawned _ => some { s with armed := true, control := .idle }
  | .stopping =>
    match s.session with
    | none => some { s with control := .cancelled }
    | some k => some { s.setTask k { s.tasks k with cancelled := true } with control := .cancelled }
  | .cancelled => some { s with enabled := false, control := .disabled }
  | .disabled => some { s with session := none, control := .idle }

/-- `log_touch` and `log_open` from the session on. -/
def creditCall (cfg : DiscoveryConfig) (s : Discovery) (thread k : Nat) (proc : ProcReading) : Call → Discovery
  | .touch pid op =>
    let (c, session) := (s.tasks k).session.logTouch cfg (s.lastSeen thread) pid
      ⟨ProcessInfo.capture pid proc, s.now⟩ op
    { (s.setTask k { s.tasks k with session := session }).setCaller thread .idle with
      lastSeen := Function.update s.lastSeen thread (some (pid, c))
      credits := ⟨k, (c.info.countedName, op), some (pid, c, s.now)⟩ :: s.credits }
  | .opened info outcome =>
    { (s.setTask k { s.tasks k with session := (s.tasks k).session.logOpen cfg info outcome.op }).setCaller
        thread .idle with
      credits := ⟨k, (info.countedName, outcome.op), none⟩ :: s.credits }

/-- The counter of the key is swapped for zero; what it held is a row. -/
def swapRow (s : Session) (epoch : Int) (key : Str × OpKind) : List ProcessAccessRow :=
  let count := (s.counts.lookup key).getD 0
  if count = 0 then []
  else
    let (cmdline, ancestors) := (s.samples.lookup key.1).getD (none, none)
    [⟨epoch, key.1, key.2.asStr, count, cmdline, ancestors⟩]

def step (cfg : DiscoveryConfig) (s : Discovery) : DiscoveryAction → Option Discovery
  | .advance secs => some { s with now := s.now + secs }
  | .cancelRoot => some { s with rootCancelled := true, armed := false }
  | .lockStart =>
    if s.control = .idle then
      if s.enabled then some { s with armed := true } else some { s with control := .starting }
    else none
  | .lockStop =>
    if s.control = .idle then
      if s.enabled then some { s with armed := false, control := .stopping }
      else some { s with armed := false }
    else none
  | .control => s.controlStep s.control
  | .call thread c =>
    match s.callers thread with
    | .idle => if s.enabled then some (s.setCaller thread (.checked c)) else some s
    | _ => none
  | .load thread =>
    match s.callers thread, s.session with
    | .checked _, none => some (s.setCaller thread .idle)
    | .checked c, some k => some (s.setCaller thread (.holding k c))
    | _, _ => none
  | .credit thread proc =>
    match s.callers thread with
    | .holding k c => some (s.creditCall cfg thread k proc c)
    | _ => none
  | .flush k last =>
    match (s.tasks k).drain with
    | .loop =>
      if last && !s.tokenCancelled k then none
      else some (s.setDrain k (.collect last (asI64 s.now) (s.tasks k).session.counts.keys [] []))
    | _ => none
  | .swap k key =>
    match (s.tasks k).drain with
    | .collect last epoch todo visited rows =>
      if key ∈ (s.tasks k).session.counts.keys ∧ key ∉ visited then
        some (s.setTask k
          { s.tasks k with
            session := { (s.tasks k).session with counts := (s.tasks k).session.counts.insert key 0 }
            drain := .collect last epoch (todo.filter (· ≠ key)) (key :: visited)
              (rows ++ swapRow (s.tasks k).session epoch key) })
      else none
    | _ => none
  | .collected k =>
    match (s.tasks k).drain with
    | .collect last _ [] _ rows => some (s.setDrain k (.write last rows))
    | _ => none
  | .write k written =>
    match (s.tasks k).drain with
    | .write last rows => some
        { s.setDrain k (if last then .returned else .loop) with
          processAccess := upsertProcessAccess s.processAccess rows written }
    | _ => none
  | .disable k =>
    match (s.tasks k).drain with
    | .returned => some { s.setDrain k .disabled with enabled := false }
    | _ => none
  | .clear k =>
    match (s.tasks k).drain with
    | .disabled => some { s.setDrain k .ended with session := none }
    | _ => none

/-- A credit changes one session, and there counts one operation more. -/
theorem creditCall_spec (cfg : DiscoveryConfig) (s : Discovery) (thread k : Nat) (proc : ProcReading) (c : Call) :
    ∃ session key touched,
      (s.creditCall cfg thread k proc c).tasks = Function.update s.tasks k { s.tasks k with session := session } ∧
      (s.creditCall cfg thread k proc c).credits = ⟨k, key, touched⟩ :: s.credits ∧
      session.counts =
        (s.tasks k).session.counts.insert key (((s.tasks k).session.counts.lookup key).getD 0 + 1) := by
  cases c with
  | touch pid op =>
    exact ⟨_, _, _, rfl, rfl, Session.logTouch_counts ..⟩
  | opened info outcome =>
    exact ⟨_, _, _, rfl, rfl, Session.logOpen_counts ..⟩

/-- What a step can be. -/
inductive Moves (cfg : DiscoveryConfig) (s : Discovery) : DiscoveryAction → Discovery → Prop where
  | advance (secs : Nat) : Moves cfg s (.advance secs) { s with now := s.now + secs }
  | cancelRoot : Moves cfg s .cancelRoot { s with rootCancelled := true, armed := false }
  | running (hcontrol : s.control = .idle) (henabled : s.enabled = true) :
    Moves cfg s .lockStart { s with armed := true }
  | lockStart (hcontrol : s.control = .idle) (henabled : s.enabled = false) :
    Moves cfg s .lockStart { s with control := .starting }
  | lockStop (hcontrol : s.control = .idle) (henabled : s.enabled = true) :
    Moves cfg s .lockStop { s with armed := false, control := .stopping }
  | stopped (hcontrol : s.control = .idle) (henabled : s.enabled = false) :
    Moves cfg s .lockStop { s with armed := false }
  | control {s' : Discovery} (hs : s.controlStep s.control = some s') : Moves cfg s .control s'
  | checked (thread : Nat) (c : Call) : Moves cfg s (.call thread c) (s.setCaller thread (.checked c))
  | unchecked (thread : Nat) (c : Call) : Moves cfg s (.call thread c) s
  | unloaded (thread : Nat) : Moves cfg s (.load thread) (s.setCaller thread .idle)
  | loaded (thread : Nat) {k : Nat} (c : Call) (hsession : s.session = some k) :
    Moves cfg s (.load thread) (s.setCaller thread (.holding k c))
  | credit {thread k : Nat} {c : Call} (proc : ProcReading) (hcaller : s.callers thread = .holding k c) :
    Moves cfg s (.credit thread proc) (s.creditCall cfg thread k proc c)
  | flush {k : Nat} {last : Bool} (hdrain : (s.tasks k).drain = .loop)
    (htoken : last = true → s.tokenCancelled k = true) :
    Moves cfg s (.flush k last)
      (s.setDrain k (.collect last (asI64 s.now) (s.tasks k).session.counts.keys [] []))
  | swap {k : Nat} {key : Str × OpKind} {last : Bool} {epoch : Int} {todo visited : List (Str × OpKind)}
    {rows : List ProcessAccessRow} (hdrain : (s.tasks k).drain = .collect last epoch todo visited rows)
    (hkey : key ∈ (s.tasks k).session.counts.keys) :
    Moves cfg s (.swap k key) (s.setTask k
      { s.tasks k with
        session := { (s.tasks k).session with counts := (s.tasks k).session.counts.insert key 0 }
        drain := .collect last epoch (todo.filter (· ≠ key)) (key :: visited)
          (rows ++ swapRow (s.tasks k).session epoch key) })
  | collected {k : Nat} {last : Bool} {epoch : Int} {visited : List (Str × OpKind)}
    {rows : List ProcessAccessRow} (hdrain : (s.tasks k).drain = .collect last epoch [] visited rows) :
    Moves cfg s (.collected k) (s.setDrain k (.write last rows))
  | write {k : Nat} {last : Bool} {rows : List ProcessAccessRow} (written : Nat)
    (hdrain : (s.tasks k).drain = .write last rows) :
    Moves cfg s (.write k written)
      { s.setDrain k (if last then .returned else .loop) with
        processAccess := upsertProcessAccess s.processAccess rows written }
  | disable {k : Nat} (hdrain : (s.tasks k).drain = .returned) :
    Moves cfg s (.disable k) { s.setDrain k .disabled with enabled := false }
  | clear {k : Nat} (hdrain : (s.tasks k).drain = .disabled) :
    Moves cfg s (.clear k) { s.setDrain k .ended with session := none }

theorem moves_of_step {cfg : DiscoveryConfig} {s s' : Discovery} {a : DiscoveryAction}
    (hs : step cfg s a = some s') : Moves cfg s a s' := by
  cases a with
  | advance secs =>
    obtain rfl := Option.some.inj hs
    exact .advance secs
  | cancelRoot =>
    obtain rfl := Option.some.inj hs
    exact .cancelRoot
  | lockStart =>
    simp only [step] at hs
    split at hs
    · next hcontrol =>
      split at hs
      · next henabled =>
        obtain rfl := Option.some.inj hs
        exact .running hcontrol henabled
      · next henabled =>
        obtain rfl := Option.some.inj hs
        exact .lockStart hcontrol (by simpa using henabled)
    · exact absurd hs (by simp)
  | lockStop =>
    simp only [step] at hs
    split at hs
    · next hcontrol =>
      split at hs
      · next henabled =>
        obtain rfl := Option.some.inj hs
        exact .lockStop hcontrol henabled
      · next henabled =>
        obtain rfl := Option.some.inj hs
        exact .stopped hcontrol (by simpa using henabled)
    · exact absurd hs (by simp)
  | control => exact .control hs
  | call thread c =>
    simp only [step] at hs
    split at hs
    · split at hs
      · obtain rfl := Option.some.inj hs
        exact .checked thread c
      · obtain rfl := Option.some.inj hs
        exact .unchecked thread c
    · exact absurd hs (by simp)
  | load thread =>
    simp only [step] at hs
    split at hs
    · obtain rfl := Option.some.inj hs
      exact .unloaded thread
    · next hsession =>
      obtain rfl := Option.some.inj hs
      exact .loaded thread _ hsession
    · exact absurd hs (by simp)
  | credit thread proc =>
    simp only [step] at hs
    split at hs
    · next hcaller =>
      obtain rfl := Option.some.inj hs
      exact .credit proc hcaller
    · exact absurd hs (by simp)
  | flush k last =>
    simp only [step] at hs
    split at hs
    · next hdrain =>
      split at hs
      · exact absurd hs (by simp)
      · next htoken =>
        obtain rfl := Option.some.inj hs
        refine .flush hdrain fun hlast => ?_
        simpa [hlast] using htoken
    · exact absurd hs (by simp)
  | swap k key =>
    simp only [step] at hs
    split at hs
    · next hdrain =>
      split at hs
      · next hkey =>
        obtain rfl := Option.some.inj hs
        exact .swap hdrain hkey.1
      · exact absurd hs (by simp)
    · exact absurd hs (by simp)
  | collected k =>
    simp only [step] at hs
    split at hs
    · next hdrain =>
      obtain rfl := Option.some.inj hs
      exact .collected hdrain
    · exact absurd hs (by simp)
  | write k written =>
    simp only [step] at hs
    split at hs
    · next hdrain =>
      obtain rfl := Option.some.inj hs
      exact .write written hdrain
    · exact absurd hs (by simp)
  | disable k =>
    simp only [step] at hs
    split at hs
    · next hdrain =>
      obtain rfl := Option.some.inj hs
      exact .disable hdrain
    · exact absurd hs (by simp)
  | clear k =>
    simp only [step] at hs
    split at hs
    · next hdrain =>
      obtain rfl := Option.some.inj hs
      exact .clear hdrain
    · exact absurd hs (by simp)

end Discovery

end FsCache
