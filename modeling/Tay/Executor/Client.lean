import Mathlib.Data.Finset.Image
import Tay.Executor.Server
import Tay.Storage.Recovery

/-!
# The Python client

One connection between the Python SDK (`clients/python/tay/client.py`) and the executor server: the
client's read loop with its two tables of request identifiers, the process `Tay.Executor.Connection`
on the other side, and the frames between them, each direction in order.

The client sorts what it reads by type and identifier. An `accepted` for an event it has sent is
consumed; any other reply has to be for a pending request; everything else is a violation of the
protocol and ends the read loop, which fails every pending request and, once the supervisor detaches
the connection, interrupts its executions. The server answers an event it cannot match with an
`error` under the event's identifier.

The server never sends a `ping` and the client never a `heartbeat`, so neither is modelled. What the
environment decides stands in the labels: identifiers, which are new, whether a payload passes the
server's checks, and what becomes of a task. `events`, `stale`, `read`, `ended`, `failed` and
`cancelled` are records.
-/

open Foundation

namespace Tay.Executor

open V2

/-! ## Frames -/

/-- What a worker reports of an execution. -/
inductive Report
  | started
  | succeeded (result : Value)
  | failed
  deriving DecidableEq

inductive Request
  | hello (session : Session)
  | registerTasks (tasks : List Binary)
  | unregisterTasks (tasks : List Binary)
  /-- The requests a service task answers; `valid` says whether their fields are accepted. -/
  | forward (valid : Bool)
  deriving DecidableEq

/-- Frames of the client. An event carries whether the connection accepts its payload. -/
inductive Up
  | event (id : ℕ) (report : Report) (reservation execution : ℕ) (fits : Bool)
  | request (id : ℕ) (r : Request)
  deriving DecidableEq

def Up.id : Up → ℕ
  | .event id .. | .request id _ => id

/-- The type of a reply; `other` is any that is none of the three. -/
inductive Reply
  | accepted
  | heartbeatOk
  | error
  | other
  deriving DecidableEq

/-- Frames of the server. -/
inductive Down
  | execute (reservation execution : ℕ) (task : Binary)
  | cancelExecution (reservation execution : ℕ)
  | reply (id : ℕ) (kind : Reply)
  deriving DecidableEq

/-- What the records keep of a frame. -/
def Down.replies : Down → List (ℕ × Reply)
  | .reply id kind => [(id, kind)]
  | _ => []

/-! ## The client -/

structure Execution where
  reservation : ℕ
  synchronous : Bool
  /-- The `started` event has been sent. -/
  started : Bool
  deriving DecidableEq

structure Client where
  mode : Mode
  capacity : ℕ
  /-- Registered tasks, and whether each is a plain function. -/
  tasks : Table Binary Bool
  pending : Finset ℕ
  eventRequestIds : Finset ℕ
  executions : Table ℕ Execution
  /-- The read loop runs. -/
  reading : Bool
  /-- The connection is still the client's writer. -/
  attached : Bool

namespace Client

variable (c : Client)

/-- `_send_event`. -/
def sendEvent (id : ℕ) (report : Report) (reservation execution : ℕ) (fits : Bool) :
    Client × List Up :=
  ({ c with eventRequestIds := insert id c.eventRequestIds },
    [.event id report reservation execution fits])

/-- `_accept_execution`; a failure is reported at once. -/
def acceptExecution (reservation execution : ℕ) (task : Binary) (id : ℕ) (fits : Bool) :
    Client × List Up :=
  if c.mode = .client then c.sendEvent id .failed reservation execution fits
  else match c.tasks[task]? with
    | none => c.sendEvent id .failed reservation execution fits
    | some synchronous =>
      if (c.executions[execution]?).isSome then c.sendEvent id .started reservation execution fits
      else if c.capacity ≤ c.executions.size then c.sendEvent id .failed reservation execution fits
      else ({ c with executions := c.executions.insert execution ⟨reservation, synchronous, false⟩ },
        [])

/-- `_handle_message`; no client when it raises a protocol error. A cancellation interrupts an
asynchronous task, which shows only in what that task sends next. -/
def handleMessage (id : ℕ) (fits : Bool) : Down → Option (Client × List Up)
  | .execute reservation execution task =>
    some (c.acceptExecution reservation execution task id fits)
  | .cancelExecution _ _ => some (c, [])
  | .reply request kind =>
    if (kind = .accepted ∨ kind = .heartbeatOk) ∧ request ∈ c.eventRequestIds then
      some ({ c with eventRequestIds := c.eventRequestIds.erase request }, [])
    else if request ∈ c.pending then some ({ c with pending := c.pending.erase request }, [])
    else none

/-- The end of `_read_loop`: the tables are emptied and every pending request fails. -/
def stopReading : Client :=
  { c with pending := ∅, eventRequestIds := ∅, reading := false }

/-- `_detach_connection` and the end of the executions it interrupts; plain functions run on in
their threads. -/
def detach : Client :=
  { c with
    executions := c.executions.filter fun _ e ↦ e.synchronous
    attached := false }

end Client

/-! ## The connection -/

/-- What ended the read loop, or failed a request or an execution: a reply, or the socket. -/
abbrev Cause := Option (ℕ × Reply)

structure Wire where
  /-- The connection's process. -/
  connection : ℕ
  server : Server
  client : Client
  /-- Requests that wait for a service task. -/
  pending : Finset ℕ
  maxPendingRequests : ℕ
  /-- Service tasks that have not answered. -/
  services : Finset ℕ
  up : List Up
  down : List Down
  /-- Every identifier drawn by the client. -/
  issued : Finset ℕ
  /-- The identifiers of events. -/
  events : Finset ℕ
  /-- Events the server has answered with an error because their reservation was gone. -/
  stale : Finset ℕ
  /-- Replies the read loop has read. -/
  read : List (ℕ × Reply)
  ended : Cause
  failed : Finset (ℕ × Cause)
  cancelled : Finset (ℕ × Cause)

/-- What the server does with an event: `SessionAPI.started` or `SessionAPI.complete`. -/
def Server.report (s : Server) (connection reservation execution : ℕ) :
    Report → Except Refusal Server
  | .started => s.started connection reservation execution
  | .succeeded result =>
    Prod.fst <$> s.complete connection reservation execution (.success result)
  | .failed => Prod.fst <$> s.complete connection reservation execution .failure

/-- A payload is checked before the server is asked; a start has none. -/
def Report.passes (fits : Bool) : Report → Bool
  | .started => true
  | _ => fits

namespace Wire

variable (w : Wire)

def push (frames : List Down) : Wire := { w with down := w.down ++ frames }

/-- `request(%{"type" => "started" | "succeeded" | "failed"}, s)`. -/
def event (id : ℕ) (report : Report) (reservation execution : ℕ) (fits : Bool) : Wire :=
  if report.passes fits then
    match w.server.report w.connection reservation execution report with
    | .ok server => { w with server := server }.push [.reply id .accepted]
    | .error _ => { w with stale := insert id w.stale }.push [.reply id .error]
  else w.push [.reply id .error]

/-- The reply to a request the server answers itself. -/
def answered (id : ℕ) : Except Refusal Server → Wire
  | .ok server => { w with server := server }.push [.reply id .other]
  | .error _ => w.push [.reply id .error]

/-- The other clauses of `request`. -/
def request (id : ℕ) : Request → Wire
  | .hello session => w.answered id (w.server.hello w.connection session)
  | .registerTasks tasks => w.answered id (Prod.fst <$> w.server.registerTasks w.connection tasks)
  | .unregisterTasks tasks =>
    w.answered id (Prod.fst <$> w.server.unregisterTasks w.connection tasks)
  | .forward valid =>
    if valid && w.pending.card < w.maxPendingRequests then
      { w with pending := insert id w.pending, services := insert id w.services }
    else w.push [.reply id .error]

/-- The frames a handler of the server sends down this connection. -/
def frame? : Sent → Option Down
  | .execute connection reservation execution _ task _ _ =>
    if connection = w.connection then some (.execute reservation execution task) else none
  | .cancelExecution connection reservation execution =>
    if connection = w.connection then some (.cancelExecution reservation execution) else none
  | _ => none

/-- The messages of this connection's own process. -/
def own : Message → Bool
  | .disconnected connection | .hello connection _ | .registerTasks connection _
  | .unregisterTasks connection _ | .started connection _ _ | .complete connection _ _ _ =>
    connection == w.connection
  | .down monitor => decide (w.server.monitors[monitor]? = some w.connection)
  | _ => false

/-- The read loop stops: every pending request fails. -/
def stop (cause : Cause) : Wire :=
  { w with
    client := w.client.stopReading
    ended := cause
    failed := w.failed ∪ w.client.pending.image (·, cause) }

/-- The client sends an event. -/
def send (id : ℕ) (r : Client × List Up) : Wire :=
  { w with
    client := r.1
    up := w.up ++ r.2
    issued := insert id w.issued
    events := if r.2.isEmpty then w.events else insert id w.events }

end Wire

/-! ## Steps -/

namespace Wire

inductive Label
  /-- A message of the engine, the listener or another connection. -/
  | server (m : Message)
  /-- The connection handles the oldest frame. -/
  | serve
  /-- A service task answers. -/
  | answer (id : ℕ) (ok : Bool)
  | requestTimeout (id : ℕ)
  /-- The client makes a request, or gives one up. -/
  | request (id : ℕ) (r : Request)
  | giveUp (id : ℕ)
  /-- An execution reports, or ends without a report. -/
  | start (execution id : ℕ)
  | finish (execution id : ℕ) (report : Report) (fits : Bool)
  | abandon (execution : ℕ)
  /-- The read loop handles the oldest frame; `id` is for the event this may send. -/
  | read (id : ℕ) (fits : Bool)
  | lost
  | detach
  | closed

def step (w : Wire) : Label → Option Wire
  | .server m =>
    if w.own m then none
    else if w.server.admits m then
      (w.server.handle m).map fun r ↦ { w with server := r.1 }.push (r.2.filterMap w.frame?)
    else none
  | .serve =>
    match w.up with
    | [] => none
    | .event id report reservation execution fits :: rest =>
      some ({ w with up := rest }.event id report reservation execution fits)
    | .request id r :: rest => some ({ w with up := rest }.request id r)
  | .answer id ok =>
    if id ∈ w.services then
      let w := { w with services := w.services.erase id }
      -- a late success is dropped, and a late error is sent all the same
      if id ∈ w.pending then
        some ({ w with pending := w.pending.erase id }.push [.reply id (if ok then .other else .error)])
      else some (if ok then w else w.push [.reply id .error])
    else none
  | .requestTimeout id =>
    if id ∈ w.pending then some ({ w with pending := w.pending.erase id }.push [.reply id .error])
    else none
  | .request id r =>
    if id ∈ w.issued ∨ w.client.attached = false then none
    else some { w with
      client := { w.client with pending := insert id w.client.pending }
      up := w.up ++ [.request id r]
      issued := insert id w.issued }
  | .giveUp id => some { w with client := { w.client with pending := w.client.pending.erase id } }
  | .start execution id =>
    match w.client.executions[execution]? with
    | some e =>
      if id ∈ w.issued ∨ e.started ∨ w.client.attached = false then none
      else
        let client := { w.client with
          executions := w.client.executions.insert execution { e with started := true } }
        some (w.send id (client.sendEvent id .started e.reservation execution true))
    | none => none
  | .finish execution id report fits =>
    match w.client.executions[execution]? with
    | some e =>
      if id ∈ w.issued ∨ e.started = false ∨ report = .started ∨ w.client.attached = false then none
      else
        let client := { w.client with executions := w.client.executions.erase execution }
        some (w.send id (client.sendEvent id report e.reservation execution fits))
    | none => none
  | .abandon execution =>
    some { w with
      client := { w.client with executions := w.client.executions.erase execution } }
  | .read id fits =>
    if w.client.reading = false ∨ id ∈ w.issued then none
    else match w.down with
      | [] => none
      | frame :: rest =>
        let w := { w with down := rest, read := w.read ++ frame.replies }
        match w.client.handleMessage id fits frame with
        | some r => some (w.send id r)
        | none => some (w.stop frame.replies.head?)
  | .lost => if w.client.reading then some (w.stop none) else none
  | .detach =>
    if w.client.reading ∨ w.client.attached = false then none
    else some { w with
      client := w.client.detach
      cancelled := w.cancelled ∪
        (w.client.executions.filter fun _ e ↦ !e.synchronous).keys.toFinset.image (·, w.ended) }
  | .closed =>
    if w.client.attached then none
    else some { w with
      server := (w.server.dropConnection w.connection).1
      up := []
      down := [] }

/-- A connection that has just been accepted. -/
structure Opens (w : Wire) : Prop where
  client : w.client.pending = ∅ ∧ w.client.eventRequestIds = ∅ ∧ w.client.executions = ∅ ∧
    w.client.reading = true ∧ w.client.attached = true
  quiet : w.pending = ∅ ∧ w.services = ∅ ∧ w.up = [] ∧ w.down = []
  records : w.events = ∅ ∧ w.stale = ∅ ∧ w.read = [] ∧ w.ended = none ∧ w.failed = ∅ ∧
    w.cancelled = ∅

def machine : Machine Wire Label where
  initial := Opens
  step := step

/-! ## Replies to events -/

/-- Identifiers are new, and the records say what happened. -/
structure Recorded (w : Wire) : Prop where
  events : w.events ⊆ w.issued
  up : ∀ f ∈ w.up, f.id ∈ w.issued
  sent : ∀ id report reservation execution fits,
    .event id report reservation execution fits ∈ w.up → id ∈ w.events
  waiting : w.pending ∪ w.services ∪ w.client.pending ⊆ w.issued
  down : ∀ id kind, .reply id kind ∈ w.down → id ∈ w.issued
  apart : Disjoint w.client.pending w.events
  stale : w.stale ⊆ w.events
  read : ∀ f ∈ w.read, f.1 ∈ w.issued
  /-- An error read in reply to an event was the last frame read. -/
  fatal : ∀ id ∈ w.events, (id, Reply.error) ∈ w.read → w.ended = some (id, .error)
  ended : ∀ f, w.ended = some f → f ∈ w.read ∧ w.client.reading = false
  failed : ∀ x ∈ w.failed, ∀ f, x.2 = some f → f ∈ w.read
  cancelled : ∀ x ∈ w.cancelled, ∀ f, x.2 = some f → f ∈ w.read

/-- No reply to an event whose reservation was gone has ended the read loop, failed a pending
request or interrupted an execution. -/
def Harmless (w : Wire) : Prop :=
  ∀ id ∈ w.stale, w.ended ≠ some (id, .error) ∧ (∀ x ∈ w.failed, x.2 ≠ some (id, .error)) ∧
    ∀ x ∈ w.cancelled, x.2 ≠ some (id, .error)

/-! ## Steps of the server's side -/

variable {w t : Wire}

/-- The client, and all that is recorded of it. -/
def record (w : Wire) : Client × Finset ℕ × Finset ℕ × List (ℕ × Reply) × Cause ×
    Finset (ℕ × Cause) × Finset (ℕ × Cause) :=
  (w.client, w.issued, w.events, w.read, w.ended, w.failed, w.cancelled)

/-- A step of the server's side: it takes frames, and answers what was asked. -/
theorem Recorded.away (h : Recorded w) (hrecord : t.record = w.record)
    (hup : ∀ f ∈ t.up, f ∈ w.up) (hwaiting : t.pending ∪ t.services ⊆ w.issued)
    (hdown : ∀ id kind, .reply id kind ∈ t.down → id ∈ w.issued) (hstale : t.stale ⊆ w.events) :
    Recorded t := by
  obtain ⟨connection, server, client, pending, maximum, services, up, down, issued, events, stale,
    read, ended, failed, cancelled⟩ := t
  cases hrecord
  refine ⟨h.events, fun f hf ↦ h.up f (hup f hf), fun id _ _ _ _ hf ↦ h.sent id _ _ _ _ (hup _ hf),
    ?_, hdown, h.apart, hstale, h.read, h.fatal, h.ended, h.failed, h.cancelled⟩
  have hpending := h.waiting
  exact Finset.union_subset hwaiting (Finset.union_subset_iff.mp hpending).2

theorem Recorded.answers (h : Recorded w) : w.pending ∪ w.services ⊆ w.issued :=
  (Finset.union_subset_iff.mp h.waiting).1

/-- One more reply, to a request or an event of the client. -/
theorem Recorded.replied {id : ℕ} {kind : Reply} (h : Recorded w) (hid : id ∈ w.issued) :
    Recorded (w.push [.reply id kind]) := by
  refine h.away rfl (fun _ hf ↦ hf) h.answers (fun id' kind' hf ↦ ?_) h.stale
  rcases List.mem_append.mp hf with hf | hf
  · exact h.down id' kind' hf
  · simp only [List.mem_singleton, Down.reply.injEq] at hf
    exact hf.1 ▸ hid

theorem Recorded.server {server : Server} (h : Recorded w) : Recorded { w with server := server } :=
  h.away rfl (fun _ hf ↦ hf) h.answers h.down h.stale

theorem Recorded.event {id reservation execution : ℕ} {report : Report} {fits : Bool}
    (h : Recorded w) (hid : id ∈ w.events) :
    Recorded (w.event id report reservation execution fits) := by
  unfold Wire.event
  split
  · split
    · exact h.server.replied (h.events hid)
    · refine Recorded.replied (h.away rfl (fun _ hf ↦ hf) h.answers h.down ?_) (h.events hid)
      exact Finset.insert_subset hid h.stale
  · exact h.replied (h.events hid)

theorem Recorded.answered {id : ℕ} {r : Except Refusal Server} (h : Recorded w)
    (hid : id ∈ w.issued) : Recorded (w.answered id r) := by
  cases r with
  | ok server => exact h.server.replied hid
  | error => exact h.replied hid

theorem Recorded.request {id : ℕ} {r : Request} (h : Recorded w) (hid : id ∈ w.issued) :
    Recorded (w.request id r) := by
  cases r with
  | hello session => exact h.answered hid
  | registerTasks tasks => exact h.answered hid
  | unregisterTasks tasks => exact h.answered hid
  | forward valid =>
    simp only [Wire.request]
    split
    · refine h.away rfl (fun _ hf ↦ hf) ?_ h.down h.stale
      have hwaiting := Finset.union_subset_iff.mp h.answers
      exact Finset.union_subset (Finset.insert_subset hid hwaiting.1)
        (Finset.insert_subset hid hwaiting.2)
    · exact h.replied hid

/-- Fewer requests wait. -/
theorem Recorded.dequeue {pending services : Finset ℕ} (h : Recorded w) (hpending : pending ⊆ w.pending)
    (hservices : services ⊆ w.services) :
    Recorded { w with pending := pending, services := services } := by
  refine h.away rfl (fun _ hf ↦ hf) ?_ h.down h.stale
  exact (Finset.union_subset_union hpending hservices).trans h.answers

/-! ## Steps of the client -/

/-- The client changes in nothing but its executions and requests it gives up. -/
theorem Recorded.client {client : Client} (h : Recorded w)
    (hpending : client.pending ⊆ w.client.pending) (hreading : client.reading = w.client.reading) :
    Recorded { w with client := client } where
  events := h.events
  up := h.up
  sent := h.sent
  waiting := Finset.union_subset h.answers
    (hpending.trans (Finset.union_subset_iff.mp h.waiting).2)
  down := h.down
  apart := h.apart.mono_left hpending
  stale := h.stale
  read := h.read
  fatal := h.fatal
  ended := fun f hf ↦ ⟨(h.ended f hf).1, hreading.trans (h.ended f hf).2⟩
  failed := h.failed
  cancelled := h.cancelled

/-- The client sends at most one event, under a new identifier. -/
theorem Recorded.send {id : ℕ} {r : Client × List Up} (h : Recorded w) (hid : id ∉ w.issued)
    (hpending : r.1.pending ⊆ w.client.pending) (hreading : r.1.reading = w.client.reading)
    (hframes : r.2 = [] ∨ ∃ report reservation execution fits,
      r.2 = [.event id report reservation execution fits]) : Recorded (w.send id r) := by
  have hclient := h.client hpending hreading
  have hwaiting := Finset.union_subset_iff.mp hclient.waiting
  have hissued : w.issued ⊆ insert id w.issued := Finset.subset_insert id w.issued
  have hevents : w.events ⊆ (w.send id r).events := by
    simp only [Wire.send]
    split
    · exact Finset.Subset.rfl
    · exact Finset.subset_insert id w.events
  have hnew : ∀ x ∈ (w.send id r).events, x ∈ w.events ∨ x = id := by
    intro x hx
    simp only [Wire.send] at hx
    split at hx
    · exact .inl hx
    · exact (Finset.mem_insert.mp hx).symm
  refine ⟨?_, ?_, ?_, hclient.waiting.trans hissued, fun x kind hx ↦ hissued (h.down x kind hx), ?_,
    h.stale.trans hevents, fun f hf ↦ hissued (h.read f hf), ?_, hclient.ended, h.failed,
    h.cancelled⟩
  · intro x hx
    rcases hnew x hx with hx | rfl
    · exact hissued (h.events hx)
    · exact Finset.mem_insert_self x w.issued
  · intro f hf
    rcases List.mem_append.mp hf with hf | hf
    · exact hissued (h.up f hf)
    · rcases hframes with hnone | ⟨report, reservation, execution, fits, hone⟩
      · rw [hnone] at hf
        cases hf
      · rw [hone, List.mem_singleton] at hf
        subst hf
        exact Finset.mem_insert_self id w.issued
  · intro x report reservation execution fits hf
    rcases List.mem_append.mp hf with hf | hf
    · exact hevents (h.sent x report reservation execution fits hf)
    · rcases hframes with hnone | ⟨report', reservation', execution', fits', hone⟩
      · rw [hnone] at hf
        cases hf
      · rw [hone, List.mem_singleton] at hf
        cases hf
        simp [Wire.send, hone]
  · refine Finset.disjoint_left.mpr fun x hx hevent ↦ ?_
    rcases hnew x hevent with hevent | rfl
    · exact Finset.disjoint_left.mp hclient.apart hx hevent
    · exact hid (hwaiting.2 hx)
  · intro x hx hread
    rcases hnew x hx with hx | rfl
    · exact h.fatal x hx hread
    · exact absurd (h.read _ hread) hid

/-- A new request is pending. -/
theorem Recorded.ask {id : ℕ} {r : Request} (h : Recorded w) (hid : id ∉ w.issued) :
    Recorded { w with
      client := { w.client with pending := insert id w.client.pending }
      up := w.up ++ [.request id r]
      issued := insert id w.issued } := by
  have hissued : w.issued ⊆ insert id w.issued := Finset.subset_insert id w.issued
  have hwaiting := Finset.union_subset_iff.mp h.waiting
  refine ⟨h.events.trans hissued, ?_, ?_, ?_, fun x kind hx ↦ hissued (h.down x kind hx), ?_, h.stale,
    fun f hf ↦ hissued (h.read f hf), h.fatal, h.ended, h.failed, h.cancelled⟩
  · intro f hf
    rcases List.mem_append.mp hf with hf | hf
    · exact hissued (h.up f hf)
    · rw [List.mem_singleton] at hf
      subst hf
      exact Finset.mem_insert_self id w.issued
  · intro x report reservation execution fits hf
    rcases List.mem_append.mp hf with hf | hf
    · exact h.sent x report reservation execution fits hf
    · rw [List.mem_singleton] at hf
      cases hf
  · exact Finset.union_subset (hwaiting.1.trans hissued) (Finset.insert_subset_insert id hwaiting.2)
  · refine Finset.disjoint_insert_left.mpr ⟨fun hevent ↦ hid (h.events hevent), h.apart⟩

/-- A frame has been taken from the stream; it is no error in reply to an event. -/
theorem Recorded.take {frame : Down} {rest : List Down} (h : Recorded w)
    (hdown : w.down = frame :: rest) (hframe : ∀ id ∈ w.events, frame ≠ .reply id .error) :
    Recorded { w with down := rest, read := w.read ++ frame.replies } := by
  have hread : ∀ f ∈ frame.replies, frame = .reply f.1 f.2 := by
    intro f hf
    cases frame with
    | reply id kind =>
      rw [Down.replies, List.mem_singleton] at hf
      rw [hf]
    | execute | cancelExecution => cases hf
  refine ⟨h.events, h.up, h.sent, h.waiting, ?_, h.apart, h.stale, ?_, ?_, ?_, ?_, ?_⟩
  · intro id kind hf
    exact h.down id kind (hdown ▸ List.mem_cons_of_mem frame hf)
  · intro f hf
    rcases List.mem_append.mp hf with hf | hf
    · exact h.read f hf
    · exact h.down f.1 f.2 (by rw [hdown, ← hread f hf]; exact List.mem_cons_self)
  · intro id hid hf
    rcases List.mem_append.mp hf with hf | hf
    · exact h.fatal id hid hf
    · exact absurd (hread _ hf) (hframe id hid)
  · intro f hf
    exact ⟨List.mem_append_left _ (h.ended f hf).1, (h.ended f hf).2⟩
  · intro x hx f hf
    exact List.mem_append_left _ (h.failed x hx f hf)
  · intro x hx f hf
    exact List.mem_append_left _ (h.cancelled x hx f hf)

/-- The read loop stops on a reply it has just read, or with the socket. -/
theorem Recorded.stop {frames : List (ℕ × Reply)} {rest : List Down} (h : Recorded w)
    (hreading : w.client.reading = true) (hrest : ∀ f ∈ rest, f ∈ w.down)
    (hframes : ∀ f ∈ frames, f.1 ∈ w.issued) (hone : frames.length ≤ 1) :
    Recorded ({ w with down := rest, read := w.read ++ frames }.stop frames.head?) := by
  have hopen : w.ended = none := by
    by_contra hended
    obtain ⟨f, hf⟩ := Option.ne_none_iff_exists'.mp hended
    rw [(h.ended f hf).2] at hreading
    cases hreading
  have hhead : ∀ f, frames.head? = some f → f ∈ w.read ++ frames := fun f hf ↦
    List.mem_append_right _ (List.mem_of_mem_head? hf)
  refine ⟨h.events, h.up, h.sent, Finset.union_subset h.answers (Finset.empty_subset _),
    fun id kind hf ↦ h.down id kind (hrest _ hf), Finset.disjoint_empty_left _, h.stale, ?_, ?_,
    fun f hf ↦ ⟨hhead f hf, rfl⟩, ?_, ?_⟩
  · intro f hf
    rcases List.mem_append.mp hf with hf | hf
    · exact h.read f hf
    · exact hframes f hf
  · intro id hid hf
    rcases List.mem_append.mp hf with hf | hf
    · rw [h.fatal id hid hf] at hopen
      cases hopen
    · obtain ⟨f, rfl⟩ : ∃ f, frames = [f] := by
        rcases frames with _ | ⟨f, _ | ⟨g, frames⟩⟩
        · cases hf
        · exact ⟨f, rfl⟩
        · simp at hone
      rw [List.mem_singleton] at hf
      rw [← hf]
      rfl
  · intro x hx f hf
    rcases Finset.mem_union.mp hx with hx | hx
    · exact List.mem_append_left _ (h.failed x hx f hf)
    · obtain ⟨p, -, rfl⟩ := Finset.mem_image.mp hx
      exact hhead f hf
  · intro x hx f hf
    exact List.mem_append_left _ (h.cancelled x hx f hf)

/-! ## Runs -/

theorem sendEvent_frames (c : Client) (id : ℕ) (report : Report) (reservation execution : ℕ)
    (fits : Bool) : (c.sendEvent id report reservation execution fits).2 = [] ∨
      ∃ report' reservation' execution' fits',
        (c.sendEvent id report reservation execution fits).2 =
          [.event id report' reservation' execution' fits'] :=
  .inr ⟨report, reservation, execution, fits, rfl⟩

/-- What handling a frame can do to the client: no request is added, the loop goes on, and at most
one event is sent. -/
theorem handleMessage_spec {c : Client} {id : ℕ} {fits : Bool} {frame : Down}
    {r : Client × List Up} (h : c.handleMessage id fits frame = some r) :
    r.1.pending ⊆ c.pending ∧ r.1.reading = c.reading ∧
      (r.2 = [] ∨ ∃ report reservation execution fits,
        r.2 = [.event id report reservation execution fits]) := by
  cases frame with
  | execute reservation execution task =>
    cases h
    simp only [Client.acceptExecution]
    split
    · exact ⟨Finset.Subset.rfl, rfl, sendEvent_frames ..⟩
    · split
      · exact ⟨Finset.Subset.rfl, rfl, sendEvent_frames ..⟩
      · split
        · exact ⟨Finset.Subset.rfl, rfl, sendEvent_frames ..⟩
        · split
          · exact ⟨Finset.Subset.rfl, rfl, sendEvent_frames ..⟩
          · exact ⟨Finset.Subset.rfl, rfl, .inl rfl⟩
  | cancelExecution reservation execution =>
    cases h
    exact ⟨Finset.Subset.rfl, rfl, .inl rfl⟩
  | reply request kind =>
    simp only [Client.handleMessage] at h
    split at h
    · cases h
      exact ⟨Finset.Subset.rfl, rfl, .inl rfl⟩
    · split at h <;> cases h
      exact ⟨Finset.erase_subset _ _, rfl, .inl rfl⟩

/-- An error in reply to an event is neither an acceptance nor for a pending request. -/
theorem Recorded.unexpected (h : Recorded w) {id x : ℕ} {fits : Bool} (hx : x ∈ w.events) :
    w.client.handleMessage id fits (.reply x .error) = none := by
  have hpending : x ∉ w.client.pending := fun hmem ↦ Finset.disjoint_left.mp h.apart hmem hx
  simp [Client.handleMessage, hpending]

theorem Recorded.step {l : Label} (h : Recorded w) (ht : w.step l = some t) : Recorded t := by
  cases l with
  | server m =>
    simp only [Wire.step] at ht
    split at ht
    · cases ht
    · split at ht
      case isFalse => cases ht
      case isTrue =>
        obtain ⟨r, -, rfl⟩ := Option.map_eq_some_iff.mp ht
        refine h.away rfl (fun _ hf ↦ hf) h.answers (fun id kind hf ↦ ?_) h.stale
        rcases List.mem_append.mp hf with hf | hf
        · exact h.down id kind hf
        · -- the server's messages are no replies
          obtain ⟨sent, -, hsent⟩ := List.mem_filterMap.mp hf
          cases sent <;> simp only [Wire.frame?] at hsent <;> first
            | cases hsent
            | (split at hsent <;> cases hsent)
  | serve =>
    simp only [Wire.step] at ht
    split at ht
    · cases ht
    case h_2 id report reservation execution fits rest hup =>
      cases ht
      have hrest : Recorded { w with up := rest } :=
        h.away rfl (fun f hf ↦ hup ▸ List.mem_cons_of_mem _ hf) h.answers h.down h.stale
      exact hrest.event (h.sent id report reservation execution fits (hup ▸ List.mem_cons_self))
    case h_3 id r rest hup =>
      cases ht
      have hrest : Recorded { w with up := rest } :=
        h.away rfl (fun f hf ↦ hup ▸ List.mem_cons_of_mem _ hf) h.answers h.down h.stale
      exact hrest.request (h.up (.request id r) (hup ▸ List.mem_cons_self))
  | answer id ok =>
    simp only [Wire.step] at ht
    split at ht
    case isFalse => cases ht
    case isTrue hid =>
      have hissued : id ∈ w.issued := h.answers (Finset.mem_union_right _ hid)
      split at ht
      · cases ht
        exact (h.dequeue (Finset.erase_subset _ _) (Finset.erase_subset _ _)).replied hissued
      · cases ht
        have hserved : Recorded { w with services := w.services.erase id } :=
          h.dequeue Finset.Subset.rfl (Finset.erase_subset _ _)
        split
        · exact hserved
        · exact hserved.replied hissued
  | requestTimeout id =>
    simp only [Wire.step] at ht
    split at ht
    case isFalse => cases ht
    case isTrue hid =>
      cases ht
      have hissued : id ∈ w.issued := h.answers (Finset.mem_union_left _ hid)
      exact (h.dequeue (Finset.erase_subset _ _) Finset.Subset.rfl).replied hissued
  | request id r =>
    simp only [Wire.step] at ht
    split at ht
    case isTrue => cases ht
    case isFalse hguard =>
      cases ht
      exact h.ask (not_or.mp hguard).1
  | giveUp id =>
    cases ht
    exact h.client (Finset.erase_subset _ _) rfl
  | start execution id =>
    simp only [Wire.step] at ht
    split at ht
    case h_2 => cases ht
    case h_1 =>
      split at ht
      case isTrue => cases ht
      case isFalse hguard =>
        cases ht
        exact h.send (not_or.mp hguard).1 Finset.Subset.rfl rfl (sendEvent_frames ..)
  | finish execution id report fits =>
    simp only [Wire.step] at ht
    split at ht
    case h_2 => cases ht
    case h_1 =>
      split at ht
      case isTrue => cases ht
      case isFalse hguard =>
        cases ht
        exact h.send (not_or.mp hguard).1 Finset.Subset.rfl rfl (sendEvent_frames ..)
  | abandon execution =>
    cases ht
    exact h.client Finset.Subset.rfl rfl
  | read id fits =>
    simp only [Wire.step] at ht
    split at ht
    case isTrue => cases ht
    case isFalse hguard =>
      obtain ⟨hreading, hid⟩ := not_or.mp hguard
      split at ht
      case h_1 => cases ht
      case h_2 frame rest hdown =>
        split at ht
        case h_1 r hr =>
          cases ht
          obtain ⟨hpending, hsame, hframes⟩ := handleMessage_spec hr
          refine (h.take hdown fun x hx heq ↦ ?_).send hid hpending hsame hframes
          rw [heq, h.unexpected hx] at hr
          cases hr
        case h_2 =>
          cases ht
          refine h.stop (by simpa using hreading)
            (fun f hf ↦ hdown ▸ List.mem_cons_of_mem frame hf) ?_ (by cases frame <;> simp [Down.replies])
          intro f hf
          cases frame with
          | reply x kind =>
            rw [Down.replies, List.mem_singleton] at hf
            subst hf
            exact h.down x kind (hdown ▸ List.mem_cons_self)
          | execute | cancelExecution => cases hf
  | lost =>
    simp only [Wire.step] at ht
    split at ht
    case isFalse => cases ht
    case isTrue hreading =>
      cases ht
      have hstop : Recorded ({ w with read := w.read ++ [] }.stop none) :=
        Recorded.stop h hreading (fun _ hf ↦ hf) (by simp) (by simp)
      rwa [List.append_nil] at hstop
  | detach =>
    simp only [Wire.step] at ht
    split at ht
    case isTrue => cases ht
    case isFalse =>
      cases ht
      have hdetached : Recorded { w with client := w.client.detach } :=
        h.client Finset.Subset.rfl rfl
      refine ⟨hdetached.events, hdetached.up, hdetached.sent, hdetached.waiting, hdetached.down,
        hdetached.apart, hdetached.stale, hdetached.read, hdetached.fatal, hdetached.ended,
        hdetached.failed, fun x hx f hf ↦ ?_⟩
      rcases Finset.mem_union.mp hx with hx | hx
      · exact h.cancelled x hx f hf
      · obtain ⟨e, -, rfl⟩ := Finset.mem_image.mp hx
        exact (h.ended f hf).1
  | closed =>
    simp only [Wire.step] at ht
    split at ht
    case isTrue => cases ht
    case isFalse =>
      cases ht
      exact h.away rfl (by simp) h.answers (by simp) h.stale

theorem Opens.recorded (h : Opens w) : Recorded w := by
  obtain ⟨⟨hpending, -, -, -, -⟩, ⟨hwaiting, hservices, hup, hdown⟩,
    ⟨hevents, hstale, hread, hended, hfailed, hcancelled⟩⟩ := h
  constructor <;> simp [hpending, hwaiting, hservices, hup, hdown, hevents, hstale, hread, hended,
    hfailed, hcancelled]

/-- **A stale reply is never harmless.** In every run, whatever else is pending or executing on the
connection, it is unharmed by replies to events whose reservation was gone exactly if its read loop
has read none. -/
theorem stale_reply_harmless_iff (hw : machine.Reachable w) :
    w.Harmless ↔ ∀ id ∈ w.stale, (id, Reply.error) ∉ w.read := by
  have h : Recorded w := hw.invariant (I := Recorded) (fun _ (hw : Opens _) ↦ hw.recorded)
    fun _ _ _ h ht ↦ h.step ht
  constructor
  · intro hharmless id hid hread
    exact (hharmless id hid).1 (h.fatal id (h.stale hid) hread)
  · intro hunread id hid
    refine ⟨fun hended ↦ ?_, fun x hx hcause ↦ ?_, fun x hx hcause ↦ ?_⟩
    · exact hunread id hid (h.ended _ hended).1
    · exact hunread id hid (h.failed x hx _ hcause)
    · exact hunread id hid (h.cancelled x hx _ hcause)

namespace Sample

open Tay.Sample

/-- A worker with one asynchronous task and room for two executions, just connected. -/
def opened : Wire where
  connection := 1
  server := ⟨8, 8, 0, (∅ : Table ℕ Connection).insert 1 Server.fresh, (∅ : Table ℕ ℕ).insert 1 1, ∅, ∅⟩
  client := ⟨.worker, 2, (∅ : Table Binary Bool).insert definition.workerKey false, ∅, ∅, ∅, true,
    true⟩
  pending := ∅
  maxPendingRequests := 8
  services := ∅
  up := []
  down := []
  issued := ∅
  events := ∅
  stale := ∅
  read := []
  ended := none
  failed := ∅
  cancelled := ∅

def job (id : JobId) : Job :=
  Transition.inserted ⟨id, 0, 10, .inserted definition 10⟩ definition 10 [] id

/-- Two jobs are dispatched to it. -/
def dispatching : List Label :=
  [.request 1 (.hello ⟨.worker, text "w", 2⟩), .serve, .read 2 true,
    .request 3 (.registerTasks [definition.workerKey]), .serve, .read 4 true,
    .server (.reserve definition.workerKey none 7), .server (.dispatch 7 (job 1) 9),
    .server (.reserve definition.workerKey none 8), .server (.dispatch 8 (job 2) 10),
    .read 5 true, .read 6 true]

/-- Both report their start; the client asks for something; the first job is cancelled. -/
def cancelling : List Label :=
  dispatching ++ [.start 9 11, .start 10 12, .serve, .serve, .read 13 true, .read 14 true,
    .request 15 (.forward true), .serve, .server (.cancel 7), .server (.release 7)]

/-- The first job finishes as it is cancelled, and the reply to that is read. -/
def finishing : List Label :=
  cancelling ++ [.finish 9 16 (.succeeded .null) true, .serve, .read 17 true, .read 18 true, .detach]

end Sample

theorem Sample.opens : Opens Sample.opened :=
  ⟨⟨rfl, rfl, rfl, rfl, rfl⟩, ⟨rfl, rfl, rfl, rfl⟩, rfl, rfl, rfl, rfl, rfl, rfl⟩

/-- A connection that has read the replies to two starts, and whose server has cancelled one of the
two executions. -/
theorem stale_reply_unread :
    ∃ w, machine.Reachable w ∧ (11, Reply.accepted) ∈ w.read ∧ w.client.pending = {15} ∧
      w.Harmless := by
  have hrun : (machine.run Sample.opened Sample.cancelling).any (fun w ↦
      decide ((11, Reply.accepted) ∈ w.read ∧ w.client.pending = {15} ∧ w.stale = ∅)) = true := by
    decide +kernel
  obtain ⟨w, hw, h⟩ := (Option.any_eq_true _ _).mp hrun
  obtain ⟨hread, hpending, hstale⟩ := of_decide_eq_true h
  have hreachable := Machine.reachable_of_run Sample.opens hw
  refine ⟨w, hreachable, hread, hpending, (stale_reply_harmless_iff hreachable).mpr ?_⟩
  simp [hstale]

/-- The reply to a completion that came too late ends the read loop, fails the pending request, and
interrupts the other execution. -/
theorem stale_reply_fatal :
    ∃ w, machine.Reachable w ∧ 16 ∈ w.stale ∧ w.client.reading = false ∧
      (15, some (16, Reply.error)) ∈ w.failed ∧ (10, some (16, Reply.error)) ∈ w.cancelled ∧
      ¬ w.Harmless := by
  have hrun : (machine.run Sample.opened Sample.finishing).any (fun w ↦
      decide (16 ∈ w.stale ∧ w.client.reading = false ∧ (15, some (16, Reply.error)) ∈ w.failed ∧
        (10, some (16, Reply.error)) ∈ w.cancelled)) = true := by
    decide +kernel
  obtain ⟨w, hw, h⟩ := (Option.any_eq_true _ _).mp hrun
  obtain ⟨hstale, hreading, hfailed, hcancelled⟩ := of_decide_eq_true h
  refine ⟨w, Machine.reachable_of_run Sample.opens hw, hstale, hreading, hfailed, hcancelled, ?_⟩
  exact fun hharmless ↦ (hharmless 16 hstale).2.1 _ hfailed rfl

end Wire

end Tay.Executor
