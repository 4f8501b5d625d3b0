import Tay.Event.Payload
import Tay.Executor.Protocol
import Tay.Executor.Server

/-!
# One connection

`Tay.Executor.Connection`: the process of a socket. A request is answered at once, or it is handed to a
task that asks the engine, and then its id stands in `pending` with a timer. A reply of the task takes the
id out, and so does the timer, and a reply that finds it gone is not sent. An error of the task is sent
whether the id is there or not.

The answers of the server, the outcome of every write to the socket, and the order of the mailbox are
choices of the environment. A timer can fire at any time; a task answers once at most.
-/

open Foundation

namespace Tay.Socket

open Executor (Session Mode identifier?)
open Protocol (Message Json)

/-! ## Frames -/

/-- A frame for the peer: its type, its `request_id`, and its other fields. -/
structure Response where
  type : Binary
  requestId : Option Binary
  fields : Message
  deriving DecidableEq

/-- `Protocol.reply`. The fields of a reply have keys of their own. -/
def reply (type : String) (requestId : Option Binary) (fields : Message) : Response :=
  ⟨text type, requestId, fields⟩

/-- `Protocol.error`. -/
def errorFrame (requestId : Option Binary) (code : Binary) (fields : Message) : Response :=
  ⟨text "error", requestId.filter identifier?,
    [(.str (text "error"), .map (Message.put (text "code") (.str code) fields))]⟩

/-- `Protocol.request_id`. -/
def requestId (m : Message) : Option Binary :=
  match m.get? "request_id" with
  | some (.str id) => some id
  | _ => none

/-! ## The state -/

/-- The limits a connection is started with. -/
structure Limits where
  maxTasks : ℕ
  maxPendingRequests : ℕ
  resultBytes : ℕ
  errorBytes : ℕ

/-- The state of the process, but for its buffer and its limits. -/
structure State where
  session : Option Session
  /-- The keys of `pending`. -/
  pending : List Binary
  deriving DecidableEq

/-- What the server answers to a call of a session. -/
inductive Answer
  | ok
  | error (code : Binary)
  | other
  /-- The call exits, and the connection with it. -/
  | exit
  deriving DecidableEq

/-- What a handler does. -/
inductive Effect
  /-- `send_wire`; the connection stops where the write fails. -/
  | send (response : Response) (next : State)
  /-- A task is started for the request. -/
  | forward (id : Binary) (next : State)
  | keep (next : State)
  | crash
  deriving DecidableEq

section Handlers

variable (json : Json) (limits : Limits) (s : State) (m : Message)

/-- `protocol_reply`. -/
def protocolReply (code : Binary) : Effect := .send (errorFrame (requestId m) code []) s

/-- `SessionAPI`: what is done where the server does not say `:ok`. -/
def consult (answer : Answer) (fallback : String) (accepted : Effect) : Effect :=
  match answer with
  | .ok => accepted
  | .error code => protocolReply s m code
  | .other => protocolReply s m (text fallback)
  | .exit => .crash

def mode (value : Option Value) : Option Mode :=
  if value = some (.str (text "client")) then some .client
  else if value = some (.str (text "embedded")) then some .embedded
  else if value = some (.str (text "worker")) then some .worker
  else none

/-- `hello`. -/
def hello : Except Binary Session :=
  match mode (m.get? "mode"), m.get? "runtime_id", (m.get? "max_concurrency").getD (.nat 0) with
  | some mode, some (.str runtimeId), .int (.ofNat capacity) =>
    if identifier? runtimeId && capacity ≤ 65535 then .ok ⟨mode, runtimeId, capacity⟩
    else .error (text "invalid_hello")
  | _, _, _ => .error (text "invalid_hello")

def modeText : Mode → Binary
  | .client => text "client"
  | .embedded => text "embedded"
  | .worker => text "worker"

/-- `hello_reply`. -/
def helloReply (session : Session) : Response :=
  reply "hello_ok" (requestId m) [(.str (text "max_concurrency"), .nat session.capacity),
    (.str (text "mode"), .str (modeText session.mode))]

/-- `task_list`. -/
def taskList : Except Binary (List Value) :=
  match m.get? "tasks" with
  | some (.list tasks) =>
    if tasks.length ≤ limits.maxTasks ∧ tasks.all Event.key? ∧ tasks.Nodup then .ok tasks
    else .error (text "invalid_tasks")
  | _ => .error (text "invalid_tasks")

def jsonMap? : Value → Bool
  | .map entries => Protocol.jsonValue? (.map entries)
  | _ => false

/-- `enqueue_message?`. -/
def enqueueMessage? : Bool :=
  (m.get? "task").any Event.key? && (m.get? "args").any jsonMap? && (m.get? "options").all jsonMap?

/-- `job_message?`. -/
def jobMessage? : Bool := (m.get? "job_id").any Event.jobId?

/-- `normalize_failure`. -/
def normalizeFailure : List (String × Option Value × ℕ) → Message → Except Binary Message
  | [], normalized => .ok normalized
  | (key, value, maximum) :: rest, normalized =>
    match value with
    | none | some .null => normalizeFailure rest normalized
    | some (.str s) =>
      if Value.validUtf8 s && s.length ≤ maximum then
        normalizeFailure rest (normalized.put (text key) (.str s))
      else .error (text "invalid_failure")
    | _ => .error (text "invalid_failure")

/-- `failure`; an error of the encoder other than its size is no text, and is not sent. -/
def failure : Except (Option Binary) Message :=
  match m.get? "error" with
  | some (.map error) =>
    match normalizeFailure [("type", Message.get? error "type", 128),
        ("message", Message.get? error "message", limits.errorBytes),
        ("traceback", Message.get? error "traceback", limits.errorBytes)] [] with
    | .error code => .error (some code)
    | .ok [] => .error (some (text "invalid_failure"))
    | .ok normalized =>
      match Protocol.jsonBytes json (.map normalized) limits.errorBytes with
      | .ok _ => .ok normalized
      | .error .jsonTooLarge => .error (some (text "error_too_large"))
      | .error _ => .error none
  | _ => .error (some (text "invalid_failure"))

/-- `forward`. -/
def forward : Effect :=
  if limits.maxPendingRequests ≤ s.pending.length then protocolReply s m (text "too_many_requests")
  else
    match requestId m with
    | some id => .forward id { s with pending := s.pending.insert id }
    | none => .crash

def accepted : Effect := .send (reply "accepted" (requestId m) []) s

/-- `request` on a message of a session. -/
def sessionRequest (answer : Answer) (type : Binary) : Effect :=
  if type = text "register_tasks" then
    match taskList limits m with
    | .error code => protocolReply s m code
    | .ok tasks => consult s m answer "unavailable" <|
      .send (reply "tasks_registered" (requestId m) [(.str (text "tasks"), .list tasks)]) s
  else if type = text "unregister_tasks" then
    match taskList limits m with
    | .error code => protocolReply s m code
    | .ok tasks => consult s m answer "unavailable" <|
      .send (reply "tasks_unregistered" (requestId m) [(.str (text "tasks"), .list tasks)]) s
  else if type = text "enqueue" then
    if enqueueMessage? m then forward limits s m else protocolReply s m (text "invalid_enqueue")
  else if [text "status", text "result", text "cancel"].contains type then
    if jobMessage? m then forward limits s m else protocolReply s m (text "invalid_job_id")
  else if [text "schedule", text "cancel_schedule", text "schedules", text "schedule_status"].contains type then
    forward limits s m
  else if type = text "register_schedules" then protocolReply s m (text "bulk_scheduling_unsupported")
  else if type = text "started" then
    match Protocol.executionContext m with
    | .error _ => protocolReply s m (text "invalid_execution")
    | .ok _ => consult s m answer "unknown_execution" (accepted s m)
  else if type = text "succeeded" then
    match Protocol.executionContext m with
    | .error _ => protocolReply s m (text "invalid_execution")
    | .ok _ =>
      match Protocol.jsonBytes json ((m.get? "result").getD .null) limits.resultBytes with
      | .ok _ => consult s m answer "unknown_execution" (accepted s m)
      | .error .jsonTooLarge => protocolReply s m (text "result_too_large")
      -- The reason is an atom, and `Protocol.error` takes none.
      | .error _ => .crash
  else if type = text "failed" then
    match Protocol.executionContext m with
    | .error _ => protocolReply s m (text "invalid_execution")
    | .ok _ =>
      match failure json limits m with
      | .ok _ => consult s m answer "unknown_execution" (accepted s m)
      | .error (some code) => protocolReply s m code
      | .error none => .crash
  else if type = text "heartbeat" then .send (reply "heartbeat_ok" (requestId m) []) s
  else protocolReply s m (text "unknown_message")

/-- `request`. -/
def request (answer : Answer) : Effect :=
  match m.get? "type" with
  | some (.str type) =>
    if type = text "hello" then
      if s.session.isSome then protocolReply s m (text "already_hello")
      else
        match hello m with
        | .error code => protocolReply s m code
        | .ok session => consult s m answer "unavailable" <|
          .send (helloReply m session) { s with session := some session }
    else if s.session.isNone && Protocol.types.contains type then protocolReply s m (text "hello_required")
    else sessionRequest json limits s m answer type
  | _ => protocolReply s m (text "unknown_message")

/-- `handle_info({:request_timeout, request_id}, s)`. -/
def requestTimeout (id : Binary) : Effect :=
  if s.pending.contains id then
    .send (errorFrame (some id) (text "request_timeout") []) { s with pending := s.pending.erase id }
  else .keep s

/-- `handle_call({:reply, request_id, type, fields}, _from, s)`: a request that is not pending is unknown. -/
def handleReply (id : Binary) (type : String) (fields : Message) : Effect :=
  if s.pending.contains id then .send (reply type (some id) fields) { s with pending := s.pending.erase id }
  else .keep s

/-- `handle_call({:error, request_id, code, fields}, _from, s)`: here it is not asked whether it is pending. -/
def handleError (id code : Binary) (fields : Message) : Effect :=
  .send (errorFrame (some id) code fields) { s with pending := s.pending.erase id }

end Handlers

/-! ## The connection and its tasks -/

/-- The process, which may have stopped, its tasks, and what was written to the socket. -/
structure World where
  socket : Option State
  /-- The ids of the requests so far. -/
  seen : List Binary
  /-- The requests whose tasks have not answered. -/
  tasks : List Binary
  sent : List Response
  deriving DecidableEq

/-- What comes to the mailbox; `written` says whether the write that follows succeeds. -/
inductive Event
  /-- A message of a frame, with what the server will answer to it. -/
  | frame (message : Message) (answer : Answer) (written : Bool)
  /-- Bytes that are no frame, or too many. -/
  | malformed (code : Binary) (written : Bool)
  | replied (id : Binary) (type : String) (fields : Message) (written : Bool)
  | refused (id code : Binary) (fields : Message) (written : Bool)
  /-- A task ends without an answer. -/
  | crashed (id : Binary)
  | timeout (id : Binary) (written : Bool)
  /-- A frame of the server's own: work to do, or to stop. -/
  | deliver (written : Bool)
  | close

def World.apply (w : World) (written : Bool) : Effect → World
  | .send response next =>
    if written then { w with socket := some next, sent := w.sent ++ [response] } else { w with socket := none }
  | .forward id next => { w with socket := some next, tasks := id :: w.tasks }
  | .keep next => { w with socket := some next }
  | .crash => { w with socket := none }

/-- A task that has answered is gone, and its call finds the connection or it does not. -/
def World.call (w : World) (id : Binary) (written : Bool) (handle : State → Effect) : Option World :=
  if w.tasks.contains id then
    let w' := { w with tasks := w.tasks.erase id }
    some (w.socket.elim w' fun s ↦ w'.apply written (handle s))
  else none

def step (json : Json) (limits : Limits) (w : World) : Event → Option World
  | .frame message answer written => do
    let s ← w.socket
    let id ← requestId message
    -- A message that was decoded has an identifier, and the peer never takes one twice.
    if w.seen.contains id ∨ ¬identifier? id then none
    else some { w.apply written (request json limits s message answer) with seen := id :: w.seen }
  | .malformed code written => do
    let s ← w.socket
    some { w.apply written (.send (errorFrame none code []) s) with socket := none }
  | .replied id type fields written => w.call id written fun s ↦ handleReply s id type fields
  | .refused id code fields written => w.call id written fun s ↦ handleError s id code fields
  | .crashed id => if w.tasks.contains id then some { w with tasks := w.tasks.erase id } else none
  | .timeout id written => w.socket.map fun s ↦ w.apply written (requestTimeout s id)
  | .deliver written => w.socket.map fun s ↦ { w with socket := if written then some s else none }
  | .close => some { w with socket := none }

/-- A connection, from its first frame on. -/
def machine (json : Json) (limits : Limits) : Machine World Event where
  initial w := w = ⟨some ⟨none, []⟩, [], [], []⟩
  step := step json limits

/-- The responses to a request. -/
def World.responses (w : World) (id : Binary) : List Response := w.sent.filter fun r ↦ r.requestId == some id

/-! ## One answer -/

/-- What a message can lead to: one frame for its id or for none, or a task. -/
inductive Answers (s : State) (id : Option Binary) : Effect → Prop
  | send {response : Response} {next : State} (hid : ∀ i, response.requestId = some i → id = some i)
      (hpending : next.pending = s.pending) : Answers s id (.send response next)
  | forward {i : Binary} {next : State} (hid : id = some i) (hpending : next.pending = s.pending.insert i) :
      Answers s id (.forward i next)
  | crash : Answers s id .crash

theorem Answers.ite {s : State} {id : Option Binary} {p : Prop} [Decidable p] {a b : Effect} (ha : Answers s id a)
    (hb : Answers s id b) : Answers s id (if p then a else b) := by
  split
  · exact ha
  · exact hb

section Answers

variable {json : Json} {limits : Limits} {s : State} {m : Message}

theorem requestId_errorFrame {id : Option Binary} {code : Binary} {fields : Message} {i : Binary}
    (h : (errorFrame id code fields).requestId = some i) : id = some i :=
  (Option.filter_eq_some_iff.mp h).1

theorem answers_protocolReply (code : Binary) : Answers s (requestId m) (protocolReply s m code) :=
  .send (fun _ ↦ requestId_errorFrame) rfl

theorem answers_consult (answer : Answer) (fallback : String) {accepted : Effect}
    (h : Answers s (requestId m) accepted) : Answers s (requestId m) (consult s m answer fallback accepted) := by
  cases answer with
  | ok => exact h
  | error code => exact answers_protocolReply code
  | other => exact answers_protocolReply _
  | exit => exact .crash

theorem answers_forward : Answers s (requestId m) (forward limits s m) := by
  rw [forward]
  split
  · exact answers_protocolReply _
  · split
    case h_1 id hid => exact .forward hid rfl
    case h_2 => exact .crash

theorem answers_sessionRequest (answer : Answer) (type : Binary) :
    Answers s (requestId m) (sessionRequest json limits s m answer type) := by
  have hreply : ∀ (type : String) (fields : Message),
      Answers s (requestId m) (.send (reply type (requestId m) fields) s) := fun _ _ ↦ .send (fun _ h ↦ h) rfl
  have hrefuse : ∀ code, Answers s (requestId m) (protocolReply s m code) := answers_protocolReply
  rw [sessionRequest]
  refine .ite ?tasks (.ite ?tasks' (.ite (.ite answers_forward (hrefuse _)) (.ite (.ite answers_forward (hrefuse _))
    (.ite answers_forward (.ite (hrefuse _) (.ite ?started (.ite ?succeeded (.ite ?failed
      (.ite (hreply _ _) (hrefuse _))))))))))
  case tasks | tasks' =>
    rcases taskList limits m with code | tasks
    · exact hrefuse code
    · exact answers_consult answer _ (hreply _ _)
  all_goals
    rcases Protocol.executionContext m with reason | context
    · exact hrefuse _
  · exact answers_consult answer _ (hreply _ _)
  · dsimp only
    split
    · exact answers_consult answer _ (hreply _ _)
    · exact hrefuse _
    · exact .crash
  · rcases failure json limits m with (_ | code) | error
    · exact .crash
    · exact hrefuse code
    · exact answers_consult answer _ (hreply _ _)

theorem answers_request (answer : Answer) : Answers s (requestId m) (request json limits s m answer) := by
  unfold request
  split
  · split
    · split
      · exact answers_protocolReply _
      · split
        · exact answers_protocolReply _
        · exact answers_consult _ _ (.send (fun _ h ↦ h) rfl)
    · split
      · exact answers_protocolReply _
      · exact answers_sessionRequest answer _
  · exact answers_protocolReply _

end Answers

/-- Whatever was answered is no longer pending, and was answered once. -/
structure Settled (w : World) : Prop where
  once : ∀ id, (w.responses id).length ≤ 1
  fresh : ∀ id, id ∉ w.seen → w.responses id = []
  seen : ∀ s ∈ w.socket, ∀ id ∈ s.pending, id ∈ w.seen
  pending : ∀ s ∈ w.socket, ∀ id ∈ s.pending, w.responses id = []
  nodup : ∀ s ∈ w.socket, s.pending.Nodup

/-- An error of a task is written while its request is pending. -/
def Timely (w : World) (e : Event) : Prop :=
  ∀ id code fields, e = .refused id code fields true → ∀ s ∈ w.socket, id ∈ s.pending

namespace Settled

variable {w : World}

theorem stop (h : Settled w) : Settled { w with socket := none } where
  once := h.once
  fresh := h.fresh
  seen _ hs := by cases hs
  pending _ hs := by cases hs
  nodup _ hs := by cases hs

theorem tasks (h : Settled w) (tasks : List Binary) : Settled { w with tasks := tasks } :=
  ⟨h.once, h.fresh, h.seen, h.pending, h.nodup⟩

/-- A new id has no answer and is not pending. -/
theorem see (h : Settled w) {id : Binary} (hid : id ∉ w.seen) :
    Settled { w with seen := id :: w.seen } ∧ w.responses id = [] ∧ ∀ s ∈ w.socket, id ∉ s.pending := by
  refine ⟨⟨h.once, fun i hi ↦ h.fresh i fun hs ↦ hi (List.mem_cons_of_mem id hs),
    fun s hs i hi ↦ List.mem_cons_of_mem id (h.seen s hs i hi), h.pending, h.nodup⟩, h.fresh id hid, ?_⟩
  exact fun s hs hpending ↦ hid (h.seen s hs id hpending)

theorem responses_append (w : World) (socket : Option State) (response : Response) (id : Binary) :
    World.responses { w with socket := socket, sent := w.sent ++ [response] } id =
      w.responses id ++ if response.requestId = some id then [response] else [] := by
  rw [World.responses, World.responses, List.filter_append, List.filter_singleton]
  congr 1
  by_cases hid : response.requestId = some id
  · rw [if_pos hid, hid, beq_self_eq_true, cond_true]
  · rw [if_neg hid, beq_eq_false_iff_ne.mpr hid, cond_false]

/-- A frame for an id that has no answer, and that is not pending afterwards. -/
theorem send (h : Settled w) {s next : State} (hs : w.socket = some s) {response : Response}
    (hid : ∀ i, response.requestId = some i → i ∈ w.seen ∧ w.responses i = [] ∧ i ∉ next.pending)
    (hpending : next.pending.Sublist s.pending) (written : Bool) :
    Settled (w.apply written (.send response next)) := by
  cases written with
  | false => exact h.stop
  | true =>
    refine ⟨fun i ↦ ?_, fun i hi ↦ ?_, ?_, ?_, ?_⟩
    · show (World.responses _ i).length ≤ 1
      rw [World.apply, if_pos rfl, responses_append]
      split
      case isTrue hi =>
        rw [(hid i hi).2.1]
        exact le_refl 1
      case isFalse =>
        rw [List.append_nil]
        exact h.once i
    · show World.responses _ i = []
      rw [World.apply, if_pos rfl, responses_append]
      rw [if_neg fun hresponse ↦ hi (hid i hresponse).1, List.append_nil]
      exact h.fresh i hi
    · rintro _ ⟨⟩ i hi
      exact h.seen s hs i (hpending.subset hi)
    · rintro _ ⟨⟩ i hi
      rw [World.apply, if_pos rfl, responses_append]
      rw [if_neg fun hresponse ↦ (hid i hresponse).2.2 hi, List.append_nil]
      exact h.pending s hs i (hpending.subset hi)
    · rintro _ ⟨⟩
      exact (h.nodup s hs).sublist hpending

/-- What is pending is answered, and taken out. -/
theorem answer (h : Settled w) {s : State} (hs : w.socket = some s) {id : Binary} (hid : id ∈ s.pending)
    {response : Response} (hresponse : ∀ i, response.requestId = some i → i = id) (written : Bool) :
    Settled (w.apply written (.send response { s with pending := s.pending.erase id })) := by
  refine h.send hs (fun i hi ↦ ?_) List.erase_sublist written
  obtain rfl := hresponse i hi
  exact ⟨h.seen s hs i hid, h.pending s hs i hid, (h.nodup s hs).not_mem_erase⟩

/-- A new request is answered, or it becomes pending. -/
theorem request (h : Settled w) {s : State} (hs : w.socket = some s) {id : Binary} (hid : id ∉ w.seen)
    {effect : Effect} (heffect : Answers s (some id) effect) (written : Bool) :
    Settled { w.apply written effect with seen := id :: w.seen } := by
  obtain ⟨hsee, hnone, hout⟩ := h.see hid
  have hcomm : ({ w.apply written effect with seen := id :: w.seen } : World) =
      World.apply { w with seen := id :: w.seen } written effect := by
    cases effect with
    | send response next => cases written <;> rfl
    | forward i next => rfl
    | keep next => rfl
    | crash => rfl
  rw [hcomm]
  cases heffect with
  | @send response next hresponse hpending =>
    refine hsee.send hs (fun i hi ↦ ?_) (by rw [hpending]) written
    obtain rfl := Option.some.inj (hresponse i hi)
    exact ⟨List.mem_cons_self, hnone, hpending ▸ hout s hs⟩
  | @forward i next hi hpending =>
    obtain rfl := Option.some.inj hi
    refine ⟨hsee.once, hsee.fresh, ?_, ?_, ?_⟩
    · rintro _ ⟨⟩ j hj
      rw [hpending, List.mem_insert_iff] at hj
      rcases hj with rfl | hj
      · exact List.mem_cons_self
      · exact hsee.seen s hs j hj
    · rintro _ ⟨⟩ j hj
      rw [hpending, List.mem_insert_iff] at hj
      rcases hj with rfl | hj
      · exact hnone
      · exact hsee.pending s hs j hj
    · rintro _ ⟨⟩
      rw [hpending]
      exact (h.nodup s hs).insert
  | crash => exact hsee.stop

theorem keep (h : Settled w) {s : State} (hs : w.socket = some s) : Settled { w with socket := some s } := by
  rw [← hs]
  exact h

theorem call (h : Settled w) {id : Binary} {written : Bool} {handle : State → Effect} {w' : World}
    (hcall : w.call id written handle = some w') (hhandle : ∀ s, w.socket = some s →
      Settled (World.apply { w with tasks := w.tasks.erase id } written (handle s))) : Settled w' := by
  obtain ⟨-, hcall⟩ := Option.ite_none_right_eq_some.mp hcall
  obtain rfl := Option.some.inj hcall
  rcases hs : w.socket with _ | s
  · have hgone := h.tasks (w.tasks.erase id)
    rw [hs] at hgone
    exact hgone
  · have hnext := hhandle s hs
    rw [hs] at hnext
    exact hnext

theorem step {json : Json} {limits : Limits} {w' : World} {e : Event} (h : Settled w) (htimely : Timely w e)
    (hstep : step json limits w e = some w') : Settled w' := by
  cases e with
  | frame message answer written =>
    obtain ⟨s, hs, hstep⟩ := Option.bind_eq_some_iff.mp hstep
    obtain ⟨id, hid, hstep⟩ := Option.bind_eq_some_iff.mp hstep
    obtain ⟨hfresh, hstep⟩ := Option.ite_none_left_eq_some.mp hstep
    obtain rfl := Option.some.inj hstep
    have hanswers := @answers_request json limits s message answer
    rw [hid] at hanswers
    have hnew : id ∉ w.seen := fun hseen ↦ (not_or.mp hfresh).1 (List.contains_iff_mem.mpr hseen)
    exact h.request hs hnew hanswers written
  | malformed code written =>
    obtain ⟨s, hs, hstep⟩ := Option.bind_eq_some_iff.mp hstep
    obtain rfl := Option.some.inj hstep
    refine (h.send hs (fun i hi ↦ ?_) (List.Sublist.refl _) written).stop
    cases requestId_errorFrame hi
  | replied id type fields written =>
    refine h.call hstep fun s hs ↦ ?_
    rw [handleReply]
    split
    case isTrue hpending =>
      refine (h.tasks (w.tasks.erase id)).answer hs (List.contains_iff_mem.mp hpending)
        (fun i hi ↦ ?_) written
      exact (Option.some.inj hi).symm
    case isFalse => exact (h.tasks (w.tasks.erase id)).keep hs
  | refused id code fields written =>
    refine h.call hstep fun s hs ↦ ?_
    rw [handleError]
    cases written with
    | false => exact (h.tasks _).stop
    | true =>
      refine (h.tasks (w.tasks.erase id)).answer hs (htimely id code fields rfl s hs) (fun i hi ↦ ?_) true
      exact (Option.some.inj (requestId_errorFrame hi)).symm
  | crashed id =>
    obtain ⟨-, hstep⟩ := Option.ite_none_right_eq_some.mp hstep
    obtain rfl := Option.some.inj hstep
    exact h.tasks _
  | timeout id written =>
    obtain ⟨s, hs, rfl⟩ := Option.map_eq_some_iff.mp hstep
    rw [requestTimeout]
    split
    case isTrue hpending =>
      refine h.answer hs (List.contains_iff_mem.mp hpending) (fun i hi ↦ ?_) written
      exact (Option.some.inj (requestId_errorFrame hi)).symm
    case isFalse => exact h.keep hs
  | deliver written =>
    obtain ⟨s, hs, rfl⟩ := Option.map_eq_some_iff.mp hstep
    cases written with
    | false => exact h.stop
    | true => exact h.keep hs
  | close =>
    obtain rfl := Option.some.inj hstep
    exact h.stop

end Settled

/-- **One response for a request**, in every run in which errors of tasks come in time. -/
theorem responses_once {json : Json} {limits : Limits} {w : World}
    (hw : (machine json limits).ReachableUnder Timely w) (id : Binary) : (w.responses id).length ≤ 1 := by
  have hsettled : Settled w := by
    refine hw.invariant ?_ fun w e w' h htimely hstep ↦ h.step htimely hstep
    rintro w rfl
    refine ⟨fun i ↦ Nat.zero_le 1, fun i _ ↦ rfl, ?_, ?_, ?_⟩
    · rintro _ ⟨⟩ i hi
      cases hi
    · rintro _ ⟨⟩ i hi
      cases hi
    · rintro _ ⟨⟩
      exact List.nodup_nil
  exact hsettled.once id

namespace Sample

def limits : Limits := ⟨1, 4, 65536, 65536⟩

def json : Json := ⟨fun _ ↦ none, fun _ ↦ none⟩

def message (type id : String) (fields : Message) : Message :=
  (.str (text "request_id"), .str (text id)) :: (.str (text "type"), .str (text type)) :: fields

def hello : Event :=
  .frame (message "hello" "h" [(.str (text "mode"), .str (text "client")),
    (.str (text "runtime_id"), .str (text "r"))]) .ok true

def enqueue : Event :=
  .frame (message "enqueue" "e" [(.str (text "args"), .map []), (.str (text "task"), .str (text "t"))]) .ok true

def opened : World := ⟨some ⟨none, []⟩, [], [], []⟩

end Sample

/-- The reply comes, and then the timer that could not be cancelled any more. -/
theorem responses_once_late : (World.responses
    ⟨some ⟨some ⟨.client, text "r", 0⟩, []⟩, [text "e", text "h"], [],
      [reply "hello_ok" (some (text "h")) [(.str (text "max_concurrency"), .nat 0),
          (.str (text "mode"), .str (text "client"))],
        reply "enqueued" (some (text "e")) []]⟩ (text "e")).length ≤ 1 := by
  have hinitial : (machine Sample.json Sample.limits).ReachableUnder Timely Sample.opened := .initial rfl
  refine responses_once (hinitial.run (fun w e he id code fields hrefused ↦ ?_)
    (?_ : (machine Sample.json Sample.limits).run Sample.opened [Sample.hello, Sample.enqueue,
      .replied (text "e") "enqueued" [] true, .timeout (text "e") true] = some _)) (text "e")
  · subst hrefused
    simp [Sample.hello, Sample.enqueue] at he
  · decide

/-- The timer fires, and then the task says that the engine is not available. -/
theorem responses_twice : ¬∀ w : World, (machine Sample.json Sample.limits).Reachable w →
    ∀ id, (w.responses id).length ≤ 1 := by
  intro h
  have hrun : (((machine Sample.json Sample.limits).run Sample.opened [Sample.hello, Sample.enqueue,
      .timeout (text "e") true, .refused (text "e") (text "unavailable") [] true]).any fun w ↦
        decide (2 ≤ (w.responses (text "e")).length)) = true := by
    decide
  obtain ⟨w, hw, htwo⟩ := (Option.any_eq_true _ _).mp hrun
  have hle := h w (Machine.reachable_of_run rfl hw) (text "e")
  rw [decide_eq_true_eq] at htwo
  omega

end Tay.Socket
