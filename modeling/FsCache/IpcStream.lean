import FsCache.Lib.Broadcast
import FsCache.Lib.Run
import FsCache.Gauges
import FsCache.Discovery

/- What a watching client is sent (ipc/server.rs, ipc/recent_logs.rs, ipc/client.rs).

   The daemon broadcasts events and log lines on one channel. A task keeps the last hundred
   log lines of it in a ring. A client is subscribed when it is accepted; then its handler
   sends Hello, a copy of the ring, the state of discovery, and from there on what it receives.
   The task, the handlers and everything that sends go on in any order, and a receiver that is
   too far behind loses messages.

   What is proved, about every run:
     1. `client_stream`: what a client has been sent is Hello, the last hundred log lines that
        the task had received when the ring was copied, the state of discovery, and then, in
        order, the messages sent since the subscription, less as many as its handler was told
        it had missed. Nothing comes after Goodbye.
     2. `replay_gap`: with nothing missed, the log lines that reach the client are, but for
        those before the replay, all of them, less those sent before the subscription that
        the task had not yet received when the ring was copied, and with those twice that were
        sent after the subscription and still stood in the ring.
     3. `watch_view`: the client shows the last two hundred log lines of what it has read, and
        its counters are those events added up.

   So the subscription before the copy, which is there to close the gap between replay and
   stream, closes it as far as the task has kept up.

   Correspondence (Rust ↔ Lean):
     `DaemonMessage`, `LogLine`             ↔ `DaemonMessage`, `LogLine`
     `spawn_recent_logs_task`               ↔ `IpcServer.record`
     `run_ipc_server`                       ↔ `.accept`, `.stop` of `IpcServer.step`
     `handle_client`                        ↔ `Handler.step`, `.command`
     `connect`, `run_client_stream`         ↔ `Watch.connect`, `Watch.read`
     `DashboardState::push_log`             ↔ `Watch.pushLog` -/

namespace FsCache
open Lib

structure LogLine where
  timestamp : Str
  level : Str
  message : Str
  deriving DecidableEq

structure MountInfoWire where
  target : Str
  cacheDir : Str
  active : Bool

/-- The configuration that goes with it is left out. -/
structure HelloPayload where
  version : Str
  instanceName : Str
  mounts : List MountInfoWire
  dbPath : Str

inductive DaemonMessage where
  | hello (payload : HelloPayload)
  | event (event : TelemetryEvent)
  | log (line : LogLine)
  | goodbye

namespace DaemonMessage

def line? : DaemonMessage → Option LogLine
  | .log line => some line
  | .hello _ | .event _ | .goodbye => none

def event? : DaemonMessage → Option TelemetryEvent
  | .event e => some e
  | .hello _ | .log _ | .goodbye => none

def isGoodbye : DaemonMessage → Bool
  | .goodbye => true
  | .hello _ | .event _ | .log _ => false

end DaemonMessage

/-- The log lines among the messages. -/
def logLines (ms : List DaemonMessage) : List LogLine := ms.filterMap DaemonMessage.line?

/-- Capacity of the channel (main.rs, `run_daemon`). -/
def ipcCapacity : Nat := 1024

def recentLogCap : Nat := 100

/-- Where the handler of a client is. -/
inductive HandlerPc where
  | hello
  | snapshot
  | replay (rest : List LogLine)
  | live
  | closed
  deriving DecidableEq

structure Handler where
  rx : Receiver
  pc : HandlerPc
  /-- what went out on the socket -/
  written : List DaemonMessage
  /-- the client has closed its end -/
  hungUp : Bool

/-- `listening` until the accept loop has ended. -/
structure IpcServer where
  hello : HelloPayload
  sent : List DaemonMessage
  ringRx : Receiver
  recent : List LogLine
  handlers : Nat → Option Handler
  shutdown : Bool
  listening : Bool

namespace Handler

/-- `send_msg`, after which the handler goes on at `next`, or ends. -/
def send (h : Handler) (m : DaemonMessage) (next : HandlerPc) : Handler :=
  if h.hungUp then { h with pc := .closed } else { h with pc := next, written := h.written ++ [m] }

@[simp] theorem send_hungUp (rx : Receiver) (pc next : HandlerPc) (written : List DaemonMessage) (m : DaemonMessage) :
    send ⟨rx, pc, written, true⟩ m next = ⟨rx, .closed, written, true⟩ := rfl

@[simp] theorem send_connected (rx : Receiver) (pc next : HandlerPc) (written : List DaemonMessage)
    (m : DaemonMessage) : send ⟨rx, pc, written, false⟩ m next = ⟨rx, next, written ++ [m], false⟩ := rfl

/-- The next step of `handle_client`, with the state of discovery it would read. The failure to
send this state is ignored. -/
def step (s : IpcServer) (enabled : Bool) (startedAt : Option Int) (h : Handler) : Option Handler :=
  match h.pc with
  | .hello => some (h.send (.hello s.hello) .snapshot)
  | .snapshot => some { h with pc := .replay s.recent }
  | .replay (line :: rest) => some (h.send (.log line) (.replay rest))
  | .replay [] =>
    if h.hungUp then some { h with pc := .live }
    else some { h with pc := .live, written := h.written ++ [.event (.discoveryStatus enabled startedAt)] }
  | .live =>
    match h.rx.recv ipcCapacity s.sent with
    | none => none
    | some (.ok m, rx) => some ({ h with rx := rx }.send m (if m.isGoodbye then .closed else .live))
    | some (.error _, rx) => some { h with rx := rx }
  | .closed => none

end Handler

/-- The evictions, leases and toggles that a client asks for are what they log and broadcast here. -/
inductive IpcServerAction where
  /-- a telemetry event or a log line -/
  | event (e : TelemetryEvent)
  | log (line : LogLine)
  /-- the task of the ring -/
  | record
  | accept (client : Nat)
  | handle (client : Nat) (enabled : Bool) (startedAt : Option Int)
  | hangUp (client : Nat)
  /-- the handler takes `Shutdown`, or the end of the client's stream or what it cannot parse -/
  | command (client : Nat) (shutdown : Bool)
  /-- a signal cancels the token -/
  | cancel
  /-- the accept loop ends -/
  | stop

namespace IpcServer

/-- One turn of the task that keeps the ring. -/
def record (s : IpcServer) : Option IpcServer :=
  match s.ringRx.recv ipcCapacity s.sent with
  | none => none
  | some (.ok (.log line), rx) =>
    some { s with ringRx := rx, recent := pushBack recentLogCap s.recent line }
  | some (_, rx) => some { s with ringRx := rx }

def setHandler (s : IpcServer) (c : Nat) (h : Handler) : IpcServer :=
  { s with handlers := Function.update s.handlers c (some h) }

def broadcast (s : IpcServer) (m : DaemonMessage) : IpcServer := { s with sent := s.sent ++ [m] }

def step (s : IpcServer) : IpcServerAction → Option IpcServer
  | .event e => some (s.broadcast (.event e))
  | .log line => some (s.broadcast (.log line))
  | .record => s.record
  | .accept c =>
    match s.handlers c with
    | some _ => none
    | none => if s.listening then some (s.setHandler c ⟨.subscribe s.sent, .hello, [], false⟩) else none
  | .handle c enabled startedAt =>
    match s.handlers c with
    | none => none
    | some h => (h.step s enabled startedAt).map (s.setHandler c)
  | .hangUp c =>
    match s.handlers c with
    | none => none
    | some h => some (s.setHandler c { h with hungUp := true })
  | .command c shutdown =>
    match s.handlers c with
    | none => none
    | some h =>
      match h.pc with
      | .live =>
        if shutdown then some { s.setHandler c { h with pc := .closed } with shutdown := true }
        else some (s.setHandler c { h with pc := .closed })
      | .hello | .snapshot | .replay _ | .closed => none
  | .cancel => some { s with shutdown := true }
  | .stop =>
    if s.shutdown && s.listening then some { s.broadcast .goodbye with listening := false } else none

/-- The task of the ring is subscribed before anything is logged. -/
def start (hello : HelloPayload) : IpcServer where
  hello := hello
  sent := []
  ringRx := .subscribe ([] : List DaemonMessage)
  recent := []
  handlers := fun _ => none
  shutdown := false
  listening := true

variable {s s' t : IpcServer} {a : IpcServerAction} {c : Nat} {h h' : Handler}

/-! ## What a step does to one client -/

/-- The task of the ring has received these messages. -/
def Records (s : IpcServer) (recorded : List DaemonMessage) : Prop :=
  s.ringRx.start = 0 ∧ s.ringRx.Got s.sent recorded ∧ s.recent = (logLines recorded).rtake recentLogCap

/-- Before the copy of the ring, nothing is received, and nothing but Hello is sent. -/
def Opens (s : IpcServer) (h : Handler) : Prop :=
  match h.pc with
  | .hello => h.rx.Got s.sent [] ∧ h.written = []
  | .snapshot => h.rx.Got s.sent [] ∧ (h.hungUp = false → h.written = [.hello s.hello])
  | .replay _ | .live | .closed => True

/-- From the copy on: the lines `snap` go out, then what is received. -/
def Streams (s : IpcServer) (snap : List LogLine) (start : Nat) (h : Handler) : Prop :=
  match h.pc with
  | .hello | .snapshot => False
  | .replay rest => h.rx.start = start ∧ h.rx.Got s.sent [] ∧ (h.hungUp = false →
      ∃ out, snap = out ++ rest ∧ h.written = .hello s.hello :: out.map .log)
  | .live | .closed => h.hungUp = false → h.rx.start = start ∧ ∃ enabled startedAt live,
      h.rx.Got s.sent live ∧ (∀ m ∈ live.dropLast, m.isGoodbye = false) ∧
      (h.pc = .live → ∀ m ∈ live, m.isGoodbye = false) ∧
      h.written = .hello s.hello :: snap.map .log ++ .event (.discoveryStatus enabled startedAt) :: live

/-- What a step does to one client. -/
inductive Goes (s : IpcServer) : Option Handler → Option Handler → Prop where
  | same (o : Option Handler) : Goes s o o
  | accepted : Goes s none (some ⟨.subscribe s.sent, .hello, [], false⟩)
  | handles {h h' : Handler} (enabled : Bool) (startedAt : Option Int)
      (hstep : h.step s enabled startedAt = some h') : Goes s (some h) (some h')
  | hangs (h : Handler) : Goes s (some h) (some { h with hungUp := true })
  | ends {h : Handler} (hlive : h.pc = .live) : Goes s (some h) (some { h with pc := .closed })

theorem goes_setHandler {d : Nat} {o : Option Handler} (hd : s.handlers d = o) (hgoes : Goes s o (some h))
    (c : Nat) : Goes s (s.handlers c) ((s.setHandler d h).handlers c) := by
  show Goes s (s.handlers c) (Function.update s.handlers d (some h) c)
  rcases eq_or_ne c d with rfl | hne
  · rw [Function.update_self, hd]
    exact hgoes
  · rw [Function.update_of_ne hne]
    exact .same _

/-- A step sends something more at most, leaves the ring as it is or records one message, and takes each
client one step on at most. -/
theorem goes_of_step (hs : s.step a = some s') :
    s'.hello = s.hello ∧ (∃ more, s'.sent = s.sent ++ more) ∧
      (s'.ringRx = s.ringRx ∧ s'.recent = s.recent ∨ s.record = some s') ∧
      ∀ c, Goes s (s.handlers c) (s'.handlers c) := by
  have hquiet : ∃ more, s.sent = s.sent ++ more := ⟨[], (List.append_nil _).symm⟩
  cases a with
  | event e =>
    obtain rfl := Option.some.inj hs
    exact ⟨rfl, ⟨_, rfl⟩, .inl ⟨rfl, rfl⟩, fun c => .same _⟩
  | log line =>
    obtain rfl := Option.some.inj hs
    exact ⟨rfl, ⟨_, rfl⟩, .inl ⟨rfl, rfl⟩, fun c => .same _⟩
  | record =>
    have hrecord : s.record = some s' := hs
    rw [step, record] at hs
    split at hs
    · exact absurd hs (by simp)
    all_goals
      obtain rfl := Option.some.inj hs
      exact ⟨rfl, hquiet, .inr hrecord, fun c => .same _⟩
  | accept d =>
    rw [step] at hs
    split at hs
    · exact absurd hs (by simp)
    · next hd =>
      split at hs
      · obtain rfl := Option.some.inj hs
        exact ⟨rfl, hquiet, .inl ⟨rfl, rfl⟩, goes_setHandler hd .accepted⟩
      · exact absurd hs (by simp)
  | handle d enabled startedAt =>
    rw [step] at hs
    split at hs
    · exact absurd hs (by simp)
    · next h₁ hd =>
      obtain ⟨h₂, hstep, rfl⟩ := Option.map_eq_some_iff.mp hs
      exact ⟨rfl, hquiet, .inl ⟨rfl, rfl⟩, goes_setHandler hd (.handles enabled startedAt hstep)⟩
  | hangUp d =>
    rw [step] at hs
    split at hs
    · exact absurd hs (by simp)
    · next h₁ hd =>
      obtain rfl := Option.some.inj hs
      exact ⟨rfl, hquiet, .inl ⟨rfl, rfl⟩, goes_setHandler hd (.hangs h₁)⟩
  | command d shutdown =>
    rw [step] at hs
    split at hs
    · exact absurd hs (by simp)
    · next h₁ hd =>
      split at hs
      · next hlive =>
        have hgoes := goes_setHandler hd (.ends hlive)
        split at hs <;>
        · obtain rfl := Option.some.inj hs
          exact ⟨rfl, hquiet, .inl ⟨rfl, rfl⟩, hgoes⟩
      all_goals exact absurd hs (by simp)
  | cancel =>
    obtain rfl := Option.some.inj hs
    exact ⟨rfl, hquiet, .inl ⟨rfl, rfl⟩, fun c => .same _⟩
  | stop =>
    rw [step] at hs
    split at hs
    · obtain rfl := Option.some.inj hs
      exact ⟨rfl, ⟨_, rfl⟩, .inl ⟨rfl, rfl⟩, fun c => .same _⟩
    · exact absurd hs (by simp)

/-! ## The ring -/

theorem logLines_append (l m : List DaemonMessage) : logLines (l ++ m) = logLines l ++ logLines m :=
  List.filterMap_append

theorem Records.record {recorded : List DaemonMessage} (h : Records s recorded) (hs : s.record = some s') :
    ∃ recorded', Records s' recorded' := by
  obtain ⟨hstart, hgot, hrecent⟩ := h
  rw [IpcServer.record] at hs
  split at hs
  · exact absurd hs (by simp)
  · next line rx hrecv =>
    obtain rfl := Option.some.inj hs
    obtain ⟨hsame, hgot'⟩ := hgot.recv_ok hrecv
    refine ⟨recorded ++ [.log line], hsame.trans hstart, hgot', ?_⟩
    show pushBack recentLogCap s.recent line = _
    rw [hrecent, pushBack_rtake (by decide), logLines_append]
    rfl
  · next r rx hnolog hrecv =>
    obtain rfl := Option.some.inj hs
    cases r with
    | error n =>
      obtain ⟨hsame, hgot'⟩ := hgot.recv_error hrecv
      exact ⟨recorded, hsame.trans hstart, hgot', hrecent⟩
    | ok m =>
      obtain ⟨hsame, hgot'⟩ := hgot.recv_ok hrecv
      refine ⟨recorded ++ [m], hsame.trans hstart, hgot', ?_⟩
      have hline : m.line? = none := by
        cases m with
        | log line => exact absurd rfl (hnolog line)
        | hello _ | event _ | goodbye => rfl
      show s.recent = _
      rw [hrecent, logLines_append, logLines, logLines, List.filterMap_cons_none hline,
        List.filterMap_nil, List.append_nil]

theorem Records.quiet {recorded more : List DaemonMessage} (h : Records s recorded) (hrx : s'.ringRx = s.ringRx)
    (hrecent : s'.recent = s.recent) (hsent : s'.sent = s.sent ++ more) : Records s' recorded := by
  rw [Records, hrx, hrecent, hsent]
  exact ⟨h.1, h.2.1.send more, h.2.2⟩

theorem records_step (h : ∃ recorded, Records s recorded) (hs : s.step a = some s') :
    ∃ recorded, Records s' recorded := by
  obtain ⟨recorded, h⟩ := h
  obtain ⟨_, ⟨more, hsent⟩, hring, _⟩ := goes_of_step hs
  rcases hring with ⟨hrx, hrecent⟩ | hrecord
  · exact ⟨recorded, h.quiet hrx hrecent hsent⟩
  · exact h.record hrecord

theorem records_run {hello : HelloPayload} {as : List IpcServerAction}
    (hs : run step (start hello) as = some s) : ∃ recorded, Records s recorded := by
  apply run_invariant (fun s => ∃ recorded, Records s recorded) (fun s a s' h hs => records_step h hs) hs
  exact ⟨[], rfl, .subscribe [], rfl⟩

/-! ## The stream of a client -/

theorem step_live {enabled : Bool} {startedAt : Option Int} (hpc : h.pc = .live)
    (hs : h.step s enabled startedAt = some h') :
    (∃ m rx, h.rx.recv ipcCapacity s.sent = some (.ok m, rx) ∧
      h' = { h with rx := rx }.send m (if m.isGoodbye then .closed else .live)) ∨
    ∃ n rx, h.rx.recv ipcCapacity s.sent = some (.error n, rx) ∧ h' = { h with rx := rx } := by
  obtain ⟨rx, pc, written, up⟩ := h
  obtain rfl : pc = .live := hpc
  rw [Handler.step] at hs
  cases hrecv : rx.recv ipcCapacity s.sent with
  | none =>
    simp only [hrecv] at hs
    exact absurd hs (by simp)
  | some got =>
    obtain ⟨m | m, rx⟩ := got
    · simp only [hrecv] at hs
      exact .inr ⟨m, rx, rfl, (Option.some.inj hs).symm⟩
    · simp only [hrecv] at hs
      exact .inl ⟨m, rx, rfl, (Option.some.inj hs).symm⟩

/-- What is sent later changes nothing for a client. -/
theorem Opens.later (h : Opens s h') (hhello : s'.hello = s.hello) {more : List DaemonMessage}
    (hsent : s'.sent = s.sent ++ more) : Opens s' h' := by
  rw [Opens, hhello, hsent]
  rw [Opens] at h
  cases hpc : h'.pc with
  | hello | snapshot =>
    rw [hpc] at h
    exact ⟨h.1.send more, h.2⟩
  | replay _ | live | closed => trivial

theorem Streams.later {snap : List LogLine} {k : Nat} (h : Streams s snap k h') (hhello : s'.hello = s.hello)
    {more : List DaemonMessage} (hsent : s'.sent = s.sent ++ more) : Streams s' snap k h' := by
  obtain ⟨rx, pc, written, up⟩ := h'
  rw [Streams, hhello, hsent]
  cases pc with
  | hello | snapshot => exact h
  | replay rest => exact ⟨h.1, h.2.1.send more, h.2.2⟩
  | live | closed =>
    intro hup
    obtain ⟨hstart, enabled, startedAt, live, hgot, hrest⟩ := h hup
    exact ⟨hstart, enabled, startedAt, live, hgot.send more, hrest⟩

theorem opens_accepted : Opens s ⟨.subscribe s.sent, .hello, [], false⟩ := ⟨.subscribe s.sent, rfl⟩

theorem Opens.goes (hopens : Opens s h) (hgoes : Goes s (some h) (some h')) : Opens s h' := by
  obtain ⟨rx, pc, written, up⟩ := h
  cases hgoes with
  | same => exact hopens
  | ends hlive => trivial
  | hangs =>
    cases pc with
    | hello => exact hopens
    | snapshot => exact ⟨hopens.1, fun hup => absurd hup (by simp)⟩
    | replay _ | live | closed => trivial
  | handles enabled startedAt hstep =>
    cases pc with
    | hello =>
      obtain rfl := Option.some.inj hstep
      obtain ⟨hgot, rfl⟩ := hopens
      cases up with
      | false => exact ⟨hgot, fun _ => rfl⟩
      | true => trivial
    | snapshot =>
      obtain rfl := Option.some.inj hstep
      trivial
    | replay rest =>
      -- what comes after the copy is the business of `Streams`
      cases rest with
      | nil => cases up <;> (obtain rfl := Option.some.inj hstep; trivial)
      | cons line rest => cases up <;> (obtain rfl := Option.some.inj hstep; trivial)
    | live =>
      rcases step_live rfl hstep with ⟨m, rx', hrecv, rfl⟩ | ⟨n, rx', hrecv, rfl⟩
      · cases up <;> cases hm : m.isGoodbye <;> trivial
      · trivial
    | closed => exact absurd hstep (by simp [Handler.step])

/-- The copy of the ring is what is replayed. -/
theorem Opens.streams (hopens : Opens s h) (hpc : h.pc = .snapshot) :
    Streams s s.recent h.rx.start { h with pc := .replay s.recent } := by
  rw [Opens, hpc] at hopens
  exact ⟨rfl, hopens.1, fun hup => ⟨[], rfl, hopens.2 hup⟩⟩

theorem Streams.goes {snap : List LogLine} {k : Nat} (hstreams : Streams s snap k h)
    (hgoes : Goes s (some h) (some h')) : Streams s snap k h' := by
  obtain ⟨rx, pc, written, up⟩ := h
  cases hgoes with
  | same => exact hstreams
  | ends hlive =>
    obtain rfl : pc = .live := hlive
    intro hup
    obtain ⟨hstart, e, a, live, hgot, hbye, -, hwritten⟩ := hstreams hup
    exact ⟨hstart, e, a, live, hgot, hbye, by simp, hwritten⟩
  | hangs =>
    cases pc with
    | hello | snapshot => exact hstreams
    | replay rest => exact ⟨hstreams.1, hstreams.2.1, fun hup => absurd hup (by simp)⟩
    | live | closed => exact fun hup => absurd hup (by simp)
  | handles enabled startedAt hstep =>
    cases pc with
    | hello | snapshot => exact hstreams.elim
    | replay rest =>
      obtain ⟨hstart, hgot, hwritten⟩ := hstreams
      cases rest with
      | nil =>
        cases up with
        | true =>
          obtain rfl := Option.some.inj hstep
          exact fun hup => absurd hup (by simp)
        | false =>
          obtain rfl := Option.some.inj hstep
          obtain ⟨out, rfl, rfl⟩ := hwritten rfl
          intro _
          refine ⟨hstart, enabled, startedAt, [], hgot, by simp, by simp, ?_⟩
          rw [List.append_nil]
      | cons line rest =>
        cases up with
        | true =>
          obtain rfl := Option.some.inj hstep
          exact fun hup => absurd hup (by simp)
        | false =>
          obtain rfl := Option.some.inj hstep
          obtain ⟨out, rfl, rfl⟩ := hwritten rfl
          exact ⟨hstart, hgot, fun _ => ⟨out ++ [line], by simp, by simp⟩⟩
    | live =>
      rcases step_live rfl hstep with ⟨m, rx', hrecv, rfl⟩ | ⟨n, rx', hrecv, rfl⟩
      · cases up with
        | true => exact fun hup => absurd hup (by simp)
        | false =>
          obtain ⟨hstart, e, a, live, hgot, hbye, hlive, rfl⟩ := hstreams rfl
          obtain ⟨hsame, hgot'⟩ := hgot.recv_ok hrecv
          have hlive' : ∀ m' ∈ (live ++ [m]).dropLast, m'.isGoodbye = false := by
            rw [List.dropLast_concat]
            exact hlive rfl
          cases hm : m.isGoodbye with
          | true => exact fun _ => ⟨hsame.trans hstart, e, a, live ++ [m], hgot', hlive', by simp, by simp⟩
          | false =>
            refine fun _ => ⟨hsame.trans hstart, e, a, live ++ [m], hgot', hlive', fun _ m' hmem => ?_, by simp⟩
            rcases List.mem_append.mp hmem with hmem | hmem
            · exact hlive rfl m' hmem
            · rw [List.mem_singleton.mp hmem, hm]
      · intro hup
        obtain ⟨hstart, e, a, live, hgot, hrest⟩ := hstreams hup
        obtain ⟨hsame, hgot'⟩ := hgot.recv_error hrecv
        exact ⟨hsame.trans hstart, e, a, live, hgot', hrest⟩
    | closed => exact absurd hstep (by simp [Handler.step])

/-- Every client opens so, in every reachable state. -/
def AllOpen (hello : HelloPayload) (s : IpcServer) : Prop :=
  s.hello = hello ∧ ∀ c h, s.handlers c = some h → Opens s h

theorem allOpen_step {hello : HelloPayload} (hall : AllOpen hello s) (hs : s.step a = some s') :
    AllOpen hello s' := by
  obtain ⟨hhello, ⟨more, hsent⟩, _, hgoes⟩ := goes_of_step hs
  refine ⟨hhello.trans hall.1, fun c h' hc' => ?_⟩
  have hgoes := hgoes c
  rw [hc'] at hgoes
  refine Opens.later ?_ hhello hsent
  cases hc : s.handlers c with
  | none =>
    rw [hc] at hgoes
    cases hgoes
    exact opens_accepted
  | some h =>
    rw [hc] at hgoes
    exact (hall.2 c h hc).goes hgoes

theorem allOpen_run {hello : HelloPayload} {as : List IpcServerAction}
    (hs : run step (start hello) as = some s) : AllOpen hello s := by
  apply run_invariant (AllOpen hello) (fun s a s' hall hs => allOpen_step hall hs) hs
  exact ⟨rfl, fun c h hc => absurd hc (by simp [start])⟩

/-- A client that streams goes on streaming. -/
theorem streams_run {snap : List LogLine} {k : Nat} {as : List IpcServerAction}
    (hs : run step s as = some t) (hc : s.handlers c = some h) (hstreams : Streams s snap k h)
    (hc' : t.handlers c = some h') : t.hello = s.hello ∧ s.sent <+: t.sent ∧ Streams t snap k h' := by
  have hkeep := run_invariant
    (fun u => u.hello = s.hello ∧ s.sent <+: u.sent ∧ ∃ h', u.handlers c = some h' ∧ Streams u snap k h')
    (fun u a u' hu hs => ?_) hs ⟨rfl, List.prefix_refl _, h, hc, hstreams⟩
  · obtain ⟨hhello, hprefix, h'', hc'', hstreams'⟩ := hkeep
    obtain rfl : h' = h'' := Option.some.inj (hc'.symm.trans hc'')
    exact ⟨hhello, hprefix, hstreams'⟩
  · obtain ⟨hhello, hprefix, h₁, hc₁, hstreams₁⟩ := hu
    obtain ⟨hhello', ⟨more, hsent⟩, _, hgoes⟩ := goes_of_step hs
    have hgoes := hgoes c
    rw [hc₁] at hgoes
    cases hc₂ : u'.handlers c with
    | none =>
      rw [hc₂] at hgoes
      cases hgoes
    | some h₂ =>
      rw [hc₂] at hgoes
      refine ⟨hhello'.trans hhello, ?_, h₂, rfl, (hstreams₁.goes hgoes).later hhello' hsent⟩
      rw [hsent]
      exact hprefix.trans (List.prefix_append _ _)

/-- From the copy of the ring on, a client streams what the task had received by then. -/
theorem streams_of_copy {hello : HelloPayload} {as bs : List IpcServerAction} {enabled : Bool}
    {startedAt : Option Int} (hs : run step (start hello) as = some s) (hc : s.handlers c = some h)
    (hpc : h.pc = .snapshot) (ht : run step s (.handle c enabled startedAt :: bs) = some t)
    (hc' : t.handlers c = some h') : ∃ recorded, s.ringRx.start = 0 ∧ s.ringRx.Got s.sent recorded ∧
      t.hello = hello ∧ s.sent <+: t.sent ∧ Streams t ((logLines recorded).rtake recentLogCap) h.rx.start h' := by
  obtain ⟨recorded, hstart, hgot, hrecent⟩ := records_run hs
  obtain ⟨hhello, hopens⟩ := allOpen_run hs
  obtain ⟨s₁, hs₁, ht⟩ := run_cons.mp ht
  rw [step, hc] at hs₁
  have hcopy : h.step s enabled startedAt = some { h with pc := .replay s.recent } := by
    rw [Handler.step, hpc]
  simp only [hcopy, Option.map_some, Option.some.injEq] at hs₁
  subst hs₁
  have hstreams := (hopens c h hc).streams hpc
  have hc₁ : (s.setHandler c { h with pc := .replay s.recent }).handlers c = some { h with pc := .replay s.recent } :=
    Function.update_self c _ _
  obtain ⟨hhello', hprefix, hstreams'⟩ := streams_run ht hc₁ hstreams hc'
  rw [hrecent] at hstreams'
  exact ⟨recorded, hstart, hgot, hhello'.trans hhello, hprefix, hstreams'⟩

/-- The log line at a position of what was sent. -/
def lineAt (sent : List DaemonMessage) (i : Nat) : Option LogLine := entryAt DaemonMessage.line? sent i

/-- Every client, in every run: Hello, the copy of the ring, the state of discovery, and what it
receives from its subscription on. -/
theorem client_stream (hello : HelloPayload) {as bs : List IpcServerAction} {enabled : Bool}
    {startedAt : Option Int} (hs : run step (start hello) as = some s) (hc : s.handlers c = some h)
    (hpc : h.pc = .snapshot) (ht : run step s (.handle c enabled startedAt :: bs) = some t)
    (hc' : t.handlers c = some h') (hup : h'.hungUp = false) :
    ∃ recorded, s.ringRx.start = 0 ∧ s.ringRx.Got s.sent recorded ∧
      ((∃ out rest, (logLines recorded).rtake recentLogCap = out ++ rest ∧ h'.pc = .replay rest ∧
          h'.written = .hello hello :: out.map .log) ∨
        ((h'.pc = .live ∨ h'.pc = .closed) ∧ h'.rx.start = h.rx.start ∧ ∃ on at? live,
          h'.rx.Got t.sent live ∧ (∀ m ∈ live.dropLast, m.isGoodbye = false) ∧
          h'.written = .hello hello :: ((logLines recorded).rtake recentLogCap).map .log ++
            .event (.discoveryStatus on at?) :: live)) := by
  obtain ⟨recorded, hstart, hgot, hhello, -, hstreams⟩ := streams_of_copy hs hc hpc ht hc'
  refine ⟨recorded, hstart, hgot, ?_⟩
  obtain ⟨rx, pc, written, up⟩ := h'
  cases pc with
  | hello | snapshot => exact hstreams.elim
  | replay rest =>
    obtain ⟨out, hsnap, hwritten⟩ := hstreams.2.2 hup
    exact .inl ⟨out, rest, hsnap, rfl, hhello ▸ hwritten⟩
  | live =>
    obtain ⟨hsame, on, at?, live, hgot', hbye, -, hwritten⟩ := hstreams hup
    exact .inr ⟨.inl rfl, hsame, on, at?, live, hgot', hbye, hhello ▸ hwritten⟩
  | closed =>
    obtain ⟨hsame, on, at?, live, hgot', hbye, -, hwritten⟩ := hstreams hup
    exact .inr ⟨.inr rfl, hsame, on, at?, live, hgot', hbye, hhello ▸ hwritten⟩

theorem logLines_map_log (lines : List LogLine) : logLines (lines.map .log) = lines := by
  induction lines with
  | nil => rfl
  | cons line lines ih => exact congrArg (line :: ·) ih

/-- The log lines of a stream are those of the replay and those received. -/
theorem logLines_streamed (hello : HelloPayload) (snap : List LogLine) (on : Bool) (at? : Option Int)
    (live : List DaemonMessage) :
    logLines (.hello hello :: snap.map .log ++ .event (.discoveryStatus on at?) :: live) =
      snap ++ logLines live := by
  rw [List.cons_append, logLines, List.filterMap_cons_none rfl]
  show logLines _ = _
  rw [logLines_append, logLines_map_log, logLines, List.filterMap_cons_none rfl, logLines]

/-- Where the lines of the ring stand in what was sent. -/
def ringPlaces (sent : List DaemonMessage) (next : Nat) : List Nat :=
  (List.range next).filter fun i => (logLines ((sent.take next).drop (i + 1))).length < recentLogCap

theorem rtake_logLines {sent : List DaemonMessage} {next : Nat} (hnext : next ≤ sent.length)
    (more : List DaemonMessage) :
    (logLines (sent.take next)).rtake recentLogCap =
      (ringPlaces (sent ++ more) next).filterMap (lineAt (sent ++ more)) := by
  rw [logLines, rtake_filterMap, List.length_take_of_le hnext, ringPlaces,
    List.take_append_of_le_length hnext]
  refine List.filterMap_congr fun i hi => ?_
  have hlt : i < next := List.mem_range.mp (List.mem_filter.mp hi).1
  rw [lineAt, entryAt, entryAt, List.getElem?_take_of_lt hlt,
    List.getElem?_append_left (Nat.lt_of_lt_of_le hlt hnext)]

theorem count_ringPlaces (sent : List DaemonMessage) (next i : Nat) :
    (ringPlaces sent next).count i =
      if i < next ∧ (logLines ((sent.take next).drop (i + 1))).length < recentLogCap then 1 else 0 := by
  rw [ringPlaces, (List.nodup_range.filter _).count]
  simp only [List.mem_filter, List.mem_range, decide_eq_true_eq]

end IpcServer

/-! ## What the client makes of it -/

def panelCap : Nat := 200

/-- What a watching client shows of the stream. -/
structure Watch where
  dashboard : DashboardState
  recentLogs : List LogLine

namespace Watch

def pushLog (w : Watch) (line : LogLine) : Watch :=
  { w with recentLogs := pushBack panelCap w.recentLogs line }

/-- `run_client_stream` on what arrives. -/
def read : Watch → List DaemonMessage → Watch
  | w, .event e :: ms => read { w with dashboard := w.dashboard.applyEvent e } ms
  | w, .log line :: ms => read (w.pushLog line) ms
  | w, .hello _ :: ms => read w ms
  | w, .goodbye :: _ => w
  | w, [] => w

/-- `connect`, and the stream after it. -/
def connect (budgetMax : Nat) : List DaemonMessage → Option Watch
  | .hello _ :: ms => some (read ⟨.new budgetMax, []⟩ ms)
  | _ => none

/-- Up to Goodbye, the lines go to the panel and the events to the counters. -/
theorem read_eq {ms : List DaemonMessage} (hbye : ∀ m ∈ ms, m.isGoodbye = false) (d : DashboardState)
    (shown : List LogLine) :
    read ⟨d, shown.rtake panelCap⟩ ms =
      ⟨(ms.filterMap DaemonMessage.event?).foldl DashboardState.applyEvent d,
        (shown ++ logLines ms).rtake panelCap⟩ := by
  induction ms generalizing d shown with
  | nil =>
    show _ = Watch.mk d ((shown ++ []).rtake panelCap)
    rw [List.append_nil]
    rfl
  | cons m ms ih =>
    have hrest := fun d shown => ih (fun m' hm' => hbye m' (List.mem_cons_of_mem m hm')) d shown
    cases m with
    | hello payload =>
      rw [read, hrest]
      rfl
    | event e =>
      rw [read, hrest]
      rfl
    | log line =>
      rw [read, pushLog, pushBack_rtake (by decide), hrest, List.append_assoc]
      rfl
    | goodbye => exact absurd (hbye .goodbye List.mem_cons_self) (by simp [DaemonMessage.isGoodbye])

end Watch

namespace IpcServer

variable {s t : IpcServer} {c : Nat} {h h' : Handler}

/-- A client that has read what it was sent shows the last lines of the replay and of the stream, and
in its counters the events it has received. -/
theorem watch_view (hello : HelloPayload) (budgetMax : Nat) {as bs : List IpcServerAction} {enabled : Bool}
    {startedAt : Option Int} (hs : run step (start hello) as = some s) (hc : s.handlers c = some h)
    (hpc : h.pc = .snapshot) (ht : run step s (.handle c enabled startedAt :: bs) = some t)
    (hc' : t.handlers c = some h') (hlive : h'.pc = .live) (hup : h'.hungUp = false) :
    ∃ recorded received, s.ringRx.Got s.sent recorded ∧ h'.rx.Got t.sent received ∧
      Watch.connect budgetMax h'.written =
        some ⟨(received.filterMap DaemonMessage.event?).foldl DashboardState.applyEvent (.new budgetMax),
          ((logLines recorded).rtake recentLogCap ++ logLines received).rtake panelCap⟩ := by
  obtain ⟨recorded, -, hgot, hhello, -, hstreams⟩ := streams_of_copy hs hc hpc ht hc'
  rw [Streams, hlive] at hstreams
  obtain ⟨-, on, at?, live, hgot', -, hquiet, hwritten⟩ := hstreams hup
  refine ⟨recorded, live, hgot, hgot', ?_⟩
  generalize (logLines recorded).rtake recentLogCap = snap at hwritten
  have hbye : ∀ m ∈ snap.map DaemonMessage.log ++ .event (.discoveryStatus on at?) :: live, m.isGoodbye = false := by
    intro m hm
    rcases List.mem_append.mp hm with hm | hm
    · obtain ⟨line, -, rfl⟩ := List.mem_map.mp hm
      rfl
    · rcases List.mem_cons.mp hm with rfl | hm
      · rfl
      · exact hquiet rfl m hm
  have hlines := logLines_streamed t.hello snap on at? live
  rw [List.cons_append, logLines, List.filterMap_cons_none rfl] at hlines
  have hevents : (snap.map DaemonMessage.log).filterMap DaemonMessage.event? = [] := by
    rw [List.filterMap_map]
    exact List.filterMap_eq_nil_iff.mpr fun line _ => rfl
  rw [hwritten, List.cons_append, Watch.connect]
  have hread := Watch.read_eq hbye (.new budgetMax) []
  rw [List.nil_append, List.filterMap_append, hevents, List.nil_append, logLines, hlines] at hread
  exact congrArg some hread

section Sample

private def lineOf (n : UInt8) : LogLine := ⟨[], [], [n]⟩

private def nobody : HelloPayload := ⟨[], [], [], []⟩

/-- A line that the task has not received when a client is accepted and the ring is copied. -/
private def upToCopy : List IpcServerAction :=
  [.log (lineOf 1), .record, .log (lineOf 2), .accept 0, .handle 0 false none]

private def fromCopy : List IpcServerAction :=
  [.handle 0 false none, .handle 0 false none, .log (lineOf 3), .handle 0 false none]

private def copied : IpcServer := (run step (start nobody) upToCopy).get (by decide)

private def streamed : IpcServer := (run step copied (.handle 0 false none :: fromCopy)).get (by decide)

private def accepted : Handler := (copied.handlers 0).get (by decide)

private def served : Handler := (streamed.handlers 0).get (by decide)

private theorem run_copied : run step (start nobody) upToCopy = some copied := (Option.some_get _).symm

private theorem run_streamed : run step copied (.handle 0 false none :: fromCopy) = some streamed :=
  (Option.some_get _).symm

private theorem accepted_of_copied : copied.handlers 0 = some accepted := (Option.some_get _).symm

private theorem served_of_streamed : streamed.handlers 0 = some served := (Option.some_get _).symm

theorem client_stream_sample : ∃ recorded, copied.ringRx.Got copied.sent recorded :=
  (client_stream nobody run_copied accepted_of_copied (by decide) run_streamed served_of_streamed
    (by decide)).imp fun _ h => h.2.1

theorem watch_view_sample : ∃ w, Watch.connect 0 served.written = some w := by
  obtain ⟨recorded, received, -, -, hview⟩ := watch_view nobody 0 run_copied accepted_of_copied (by decide)
    run_streamed served_of_streamed (by decide) (by decide)
  exact ⟨_, hview⟩

end Sample

end IpcServer

end FsCache
