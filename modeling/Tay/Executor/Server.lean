import Mathlib.Data.Finset.Card
import Mathlib.Data.Finset.Dedup
import Tay.Foundation.Run
import Tay.Foundation.Table
import Tay.Storage.Snapshot

/-!
# The executor server

`Tay.Executor.Server` and `Tay.Executor.Registry`: the process that knows which runtimes are
connected, which tasks they offer, and which of their execution slots are taken. A reservation is
indexed twice, in the map of reservations and in the set its connection carries, and every handler
has to keep the two together.

Process identities, monitor references and the random identifiers of reservations and executions
are numbers the environment supplies. The listener, the schedule coordinator and the texts of HTTP
sessions are left out: no handler modelled here reads them.
-/

open Foundation

namespace Tay.Executor

open V2

/-! ## State -/

/-- The mode a runtime announces in its hello. -/
inductive Mode
  | client
  | embedded
  | worker
  deriving DecidableEq, Repr

structure Session where
  mode : Mode
  runtimeId : Binary
  capacity : ℕ
  deriving DecidableEq

structure Connection where
  /-- `none` until the hello. -/
  mode : Option Mode
  runtimeId : Binary
  capacity : ℕ
  tasks : Finset Binary
  reservations : Finset ℕ
  /-- The only queue an HTTP worker serves; a socket connection has none and serves all. -/
  queue : Option Binary
  /-- The token of an HTTP worker. -/
  token : Option ℕ
  deriving DecidableEq

inductive Status
  | reserved
  | inflight
  | started
  | completed
  deriving DecidableEq, Repr

structure Reservation where
  connection : ℕ
  task : Binary
  status : Status
  executionId : Option ℕ
  jobId : Option JobId
  deriving DecidableEq

structure Server where
  maxConnections : ℕ
  maxTasksPerConnection : ℕ
  acceptorMonitor : ℕ
  connections : Table ℕ Connection
  monitors : Table ℕ ℕ
  httpWorkers : Table ℕ ℕ
  reservations : Table ℕ Reservation

/-- How an external execution ended, in the words of the message that reports it. -/
inductive Completion
  | success (result : Value)
  | failure
  | lost
  deriving DecidableEq

/-- What a handler sends: to the engine, or down a connection. -/
inductive Sent
  | completion (reservation : ℕ) (outcome : Completion)
  | capacityChanged
  | execute (connection reservation execution : ℕ) (jobId : JobId) (task : Binary) (args : Value)
      (timeoutMs : ℕ)
  | cancelExecution (connection reservation execution : ℕ)
  deriving DecidableEq

inductive Refusal
  | unavailable
  | unknownReservation
  | connectionClosed
  | invalidDispatch
  | unknownExecution
  | invalidWorker
  | invalidHello
  | alreadyHello
  | invalidTasks
  | clientCannotExecute
  | helloRequired
  deriving DecidableEq, Repr

/-! ## The registry -/

/-- `Protocol.identifier?`. -/
def identifier? (value : Binary) : Bool :=
  1 ≤ value.length && value.length ≤ 128 && Value.validUtf8 value && !value.contains 0

namespace Registry

def validSession? (session : Session) : Bool :=
  identifier? session.runtimeId && session.capacity ≤ 65535 &&
    (session.mode == .client || 0 < session.capacity) &&
    (session.mode != .client || session.capacity == 0)

def executor (connections : Table ℕ Connection) (connection : ℕ) : Except Refusal Connection :=
  match connections[connection]? with
  | none => .error .connectionClosed
  | some entry =>
    match entry.mode with
    | some .embedded | some .worker => .ok entry
    | some .client => .error .clientCannotExecute
    | none => .error .helloRequired

def validTasks? (tasks : List Binary) (maximum : ℕ) : Bool :=
  tasks.length ≤ maximum && tasks.all key? && decide tasks.Nodup

def available? (entry : Connection) : Bool :=
  (entry.mode == some .embedded || entry.mode == some .worker) &&
    entry.reservations.card < entry.capacity

/-- The least loaded connection comes first, then the runtime's name, then the process. -/
def chooseKey (entry : ℕ × Connection) : Lex (ℕ × Lex (List ℕ × ℕ)) :=
  toLex (entry.2.reservations.card, toLex (binaryKey entry.2.runtimeId, entry.1))

/-- Whether a connection may take an execution of a task; `none` asks for any queue. -/
def serves (entry : Connection) (task : Binary) (queue : Option Binary) : Bool :=
  available? entry && decide (task ∈ entry.tasks) &&
    (queue.isNone || entry.queue.isNone || entry.queue == queue)

def choose (connections : Table ℕ Connection) (task : Binary) (queue : Option Binary) :
    Option ℕ :=
  if key? task then
    ((sortBy chooseKey (connections.toList.filter fun e ↦ serves e.2 task queue)).head?).map
      Prod.fst
  else none

/-- A chosen connection is one that may take the execution. -/
theorem choose_serves {connections : Table ℕ Connection} {task : Binary} {queue : Option Binary}
    {connection : ℕ} (h : choose connections task queue = some connection) :
    ∃ entry, connections[connection]? = some entry ∧ serves entry task queue = true := by
  unfold choose at h
  split at h
  case isTrue =>
    obtain ⟨⟨c, entry⟩, hhead, rfl⟩ := Option.map_eq_some_iff.mp h
    have hmem := List.mem_of_mem_head? hhead
    rw [mem_sortBy, List.mem_filter] at hmem
    exact ⟨entry, Std.ExtTreeMap.mem_toList_iff_getElem?_eq_some.mp hmem.1, hmem.2⟩
  case isFalse => cases h

end Registry

/-! ## Handlers -/

namespace Server

variable (s : Server)

def putConnection (connection : ℕ) (entry : Connection) : Server :=
  { s with connections := s.connections.insert connection entry }

/-- The entry of a connection that has not said hello. -/
def fresh : Connection := ⟨none, [], 0, ∅, ∅, none, none⟩

/-- `{:executor_accepted, socket}`: the connection's process is started and monitored. -/
def accepted (connection monitor : ℕ) : Server :=
  if s.maxConnections ≤ s.connections.size then s
  else { s with
    connections := s.connections.insert connection fresh
    monitors := s.monitors.insert monitor connection }

/-- What the engine is told when a connection goes: its executions, not its bare reservations. -/
def losses (entry : Connection) : List Sent :=
  (s.reservations.toList.filter fun r ↦
    decide (r.1 ∈ entry.reservations) && r.2.status != .reserved).map fun r ↦
      .completion r.1 .lost

def dropConnection (connection : ℕ) : Server × List Sent :=
  match s.connections[connection]? with
  | none => (s, [])
  | some entry =>
    ({ s with
      connections := s.connections.erase connection
      reservations := s.reservations.filter fun r _ ↦ decide (r ∉ entry.reservations)
      httpWorkers := match entry.token with
        | some token => s.httpWorkers.erase token
        | none => s.httpWorkers },
    s.losses entry ++ [.capacityChanged])

/-- A `:DOWN`. The loss of the acceptor ends the server. -/
def down (monitor : ℕ) : Option (Server × List Sent) :=
  match s.monitors[monitor]? with
  | none => if monitor == s.acceptorMonitor then none else some (s, [])
  | some connection =>
    some ({ s with monitors := s.monitors.erase monitor }.dropConnection connection)

/-- `register_http_worker`; `worker`, `monitor` and `token` are what the new session gets. -/
def registerHttpWorker (runtimeId : Binary) (tasks : List Binary) (capacity : ℕ) (queue : Binary)
    (worker monitor token : ℕ) : Except Refusal (Server × List Sent) := do
  check (identifier? runtimeId && Registry.validTasks? tasks s.maxTasksPerConnection &&
    !tasks.isEmpty && 1 ≤ capacity && capacity ≤ 256 && key? queue &&
    s.connections.size < s.maxConnections) .invalidWorker
  let entry : Connection :=
    ⟨some .worker, runtimeId, capacity, tasks.toFinset, ∅, some queue, some token⟩
  return ({ s with
    connections := s.connections.insert worker entry
    monitors := s.monitors.insert monitor worker
    httpWorkers := s.httpWorkers.insert token worker }, [.capacityChanged])

def hello (connection : ℕ) (session : Session) : Except Refusal Server :=
  match s.connections[connection]? with
  | none => .error .connectionClosed
  | some entry =>
    if entry.mode.isSome then .error .alreadyHello
    else if Registry.validSession? session then
      .ok (s.putConnection connection
        { entry with
          mode := some session.mode
          runtimeId := session.runtimeId
          capacity := session.capacity })
    else .error .invalidHello

/-- `register_tasks` and `unregister_tasks`: they differ in what becomes of the set. -/
def changeTasks (change : Finset Binary → Finset Binary → Finset Binary) (connection : ℕ)
    (tasks : List Binary) : Except Refusal (Server × List Sent) := do
  let entry ← Registry.executor s.connections connection
  check (Registry.validTasks? tasks s.maxTasksPerConnection) .invalidTasks
  return (s.putConnection connection { entry with tasks := change entry.tasks tasks.toFinset },
    [.capacityChanged])

def registerTasks (connection : ℕ) (tasks : List Binary) : Except Refusal (Server × List Sent) :=
  s.changeTasks (· ∪ ·) connection tasks

def unregisterTasks (connection : ℕ) (tasks : List Binary) :
    Except Refusal (Server × List Sent) :=
  s.changeTasks (· \ ·) connection tasks

/-- `reserve`; `reservation` is the identifier it draws. -/
def reserve (task : Binary) (queue : Option Binary) (reservation : ℕ) :
    Except Refusal (Server × List Sent) :=
  match Registry.choose s.connections task queue with
  | none => .error .unavailable
  | some connection =>
    match s.connections[connection]? with
    | none => .error .unavailable
    | some entry =>
      .ok ({ s.putConnection connection
          { entry with reservations := insert reservation entry.reservations } with
        reservations :=
          s.reservations.insert reservation ⟨connection, task, .reserved, none, none⟩ },
        [.capacityChanged])

def putReservation (reservation : ℕ) (value : Reservation) : Server :=
  { s with reservations := s.reservations.insert reservation value }

/-- `dispatch`; `execution` is the identifier it draws. -/
def dispatch (reservation : ℕ) (job : Job) (execution : ℕ) :
    Except Refusal (Server × List Sent) :=
  match s.reservations[reservation]? with
  | none => .error .unknownReservation
  | some value => do
    -- the source matches on the status and raises on any other: only a bare reservation is
    -- ever dispatched, and only once
    check (value.status == .reserved) .unknownReservation
    check (s.connections[value.connection]?).isSome .connectionClosed
    check (key? value.task && job.definition.workerKey == value.task) .invalidDispatch
    check (isMap job.definition.args) .invalidDispatch
    return (s.putReservation reservation
        { value with status := .inflight, executionId := some execution, jobId := some job.id },
      [.execute value.connection reservation execution job.id value.task job.definition.args
        job.definition.timeoutMs])

/-- The guard `started` and `complete` share: the execution is live on this very connection. -/
def live? (connection reservation execution : ℕ) : Bool :=
  (s.reservations[reservation]?).any fun value ↦
    value.connection == connection && value.executionId == some execution &&
      (value.status == .inflight || value.status == .started)

/-- `put_in(s.reservations[reservation].status, status)`. -/
def setStatus (reservation : ℕ) (status : Status) : Server :=
  match s.reservations[reservation]? with
  | none => s
  | some value => s.putReservation reservation { value with status := status }

def started (connection reservation execution : ℕ) : Except Refusal Server := do
  check (s.live? connection reservation execution) .unknownExecution
  return s.setStatus reservation .started

def complete (connection reservation execution : ℕ) (outcome : Completion) :
    Except Refusal (Server × List Sent) := do
  check (s.live? connection reservation execution) .unknownExecution
  return (s.setStatus reservation .completed, [.completion reservation outcome])

/-- `release_reservation`. -/
def release (reservation : ℕ) : Server × List Sent :=
  match s.reservations[reservation]? with
  | none => (s, [])
  | some value =>
    ({ s with
      reservations := s.reservations.erase reservation
      connections := s.connections.modify value.connection fun entry ↦
        { entry with reservations := entry.reservations.erase reservation } },
    [.capacityChanged])

/-- `cancel`: the runtime is told, and the reservation stays. -/
def cancel (reservation : ℕ) : List Sent :=
  match s.reservations[reservation]? with
  | none => []
  | some value =>
    match value.executionId with
    | some execution => [.cancelExecution value.connection reservation execution]
    | none => []

end Server

/-! ## Messages -/

inductive Message
  | accepted (connection monitor : ℕ)
  | down (monitor : ℕ)
  | disconnected (connection : ℕ)
  | registerHttpWorker (runtimeId : Binary) (tasks : List Binary) (capacity : ℕ) (queue : Binary)
      (worker monitor token : ℕ)
  | hello (connection : ℕ) (session : Session)
  | registerTasks (connection : ℕ) (tasks : List Binary)
  | unregisterTasks (connection : ℕ) (tasks : List Binary)
  | reserve (task : Binary) (queue : Option Binary) (reservation : ℕ)
  | dispatch (reservation : ℕ) (job : Job) (execution : ℕ)
  | started (connection reservation execution : ℕ)
  | complete (connection reservation execution : ℕ) (outcome : Completion)
  | release (reservation : ℕ)
  | cancel (reservation : ℕ)

/-- Requests only the engine makes. -/
def Message.requested : Message → Bool
  | .reserve .. | .dispatch .. | .release _ | .cancel _ => true
  | _ => false

namespace Server

/-- The reply to a request of the engine. -/
def answer (s : Server) : Message → Except Refusal Unit
  | .reserve task queue reservation => (fun _ ↦ ()) <$> s.reserve task queue reservation
  | .dispatch reservation job execution => (fun _ ↦ ()) <$> s.dispatch reservation job execution
  | _ => .ok ()

/-- A refused request leaves the server as it was. -/
def orStay (s : Server) : Except Refusal (Server × List Sent) → Server × List Sent
  | .ok r => r
  | .error _ => (s, [])

/-- One message; `none` when it ends the server. -/
def handle (s : Server) : Message → Option (Server × List Sent)
  | .accepted connection monitor => some (s.accepted connection monitor, [])
  | .down monitor => s.down monitor
  | .disconnected connection => some (s.dropConnection connection)
  | .registerHttpWorker runtimeId tasks capacity queue worker monitor token =>
    some (s.orStay (s.registerHttpWorker runtimeId tasks capacity queue worker monitor token))
  | .hello connection session => some (s.orStay ((·, []) <$> s.hello connection session))
  | .registerTasks connection tasks => some (s.orStay (s.registerTasks connection tasks))
  | .unregisterTasks connection tasks => some (s.orStay (s.unregisterTasks connection tasks))
  | .reserve task queue reservation => some (s.orStay (s.reserve task queue reservation))
  | .dispatch reservation job execution => some (s.orStay (s.dispatch reservation job execution))
  | .started connection reservation execution =>
    some (s.orStay ((·, []) <$> s.started connection reservation execution))
  | .complete connection reservation execution outcome =>
    some (s.orStay (s.complete connection reservation execution outcome))
  | .release reservation => some (s.release reservation)
  | .cancel reservation => some (s, s.cancel reservation)

/-- What the runtime and the random source guarantee: a new process is not one already connected,
and a new reservation is not one already held. -/
def admits (s : Server) : Message → Bool
  | .accepted connection _ => (s.connections[connection]?).isNone
  | .registerHttpWorker _ _ _ _ worker _ _ => (s.connections[worker]?).isNone
  | .reserve _ _ reservation => (s.reservations[reservation]?).isNone
  | _ => true

/-! ## The two indexes of a reservation -/

/-- The reservations map and the sets of the connections say the same, and no set is larger than
the capacity its connection has registered. -/
structure Indexed (s : Server) : Prop where
  holder : ∀ r c, (s.reservations[r]?).map Reservation.connection = some c ↔
    ∃ entry, s.connections[c]? = some entry ∧ r ∈ entry.reservations
  capacity : ∀ (c : ℕ) (entry : Connection), s.connections[c]? = some entry →
    entry.reservations.card ≤ entry.capacity
  silent : ∀ (c : ℕ) (entry : Connection), s.connections[c]? = some entry →
    entry.mode = none → entry.reservations = ∅

variable {s : Server}

/-- An entry may change in anything but its reservations, as long as these still fit. -/
theorem Indexed.update {connection : ℕ} {old entry : Connection} (h : Indexed s)
    (hold : s.connections[connection]? = some old) (hset : entry.reservations = old.reservations)
    (hcapacity : entry.reservations.card ≤ entry.capacity)
    (hsilent : entry.mode = none → entry.reservations = ∅) :
    Indexed (s.putConnection connection entry) where
  holder := by
    intro r c
    rw [show (s.putConnection connection entry).reservations = s.reservations from rfl, h.holder]
    simp only [putConnection, Table.get_insert]
    by_cases hc : connection = c
    · subst hc
      simp [hold, hset]
    · simp [hc]
  capacity := by
    intro c e hget
    simp only [putConnection, Table.get_insert] at hget
    split at hget
    · cases hget
      exact hcapacity
    · exact h.capacity c e hget
  silent := by
    intro c e hget
    simp only [putConnection, Table.get_insert] at hget
    split at hget
    · cases hget
      exact hsilent
    · exact h.silent c e hget

/-- A connection that arrives without reservations changes nothing. -/
theorem Indexed.arrive {connection : ℕ} {entry : Connection} (h : Indexed s)
    (hnew : s.connections[connection]? = none) (hempty : entry.reservations = ∅) :
    Indexed (s.putConnection connection entry) where
  holder := by
    intro r c
    rw [show (s.putConnection connection entry).reservations = s.reservations from rfl, h.holder]
    simp only [putConnection, Table.get_insert]
    by_cases hc : connection = c
    · subst hc
      simp [hnew, hempty]
    · simp [hc]
  capacity := by
    intro c e hget
    simp only [putConnection, Table.get_insert] at hget
    split at hget
    · cases hget
      simp [hempty]
    · exact h.capacity c e hget
  silent := by
    intro c e hget
    simp only [putConnection, Table.get_insert] at hget
    split at hget
    · cases hget
      exact fun _ ↦ hempty
    · exact h.silent c e hget

/-- Only the maps the invariant reads matter. -/
theorem Indexed.congr {t : Server} (h : Indexed s) (hc : t.connections = s.connections)
    (hr : t.reservations = s.reservations) : Indexed t where
  holder := by rw [hc, hr]; exact h.holder
  capacity := by rw [hc]; exact h.capacity
  silent := by rw [hc]; exact h.silent

/-- A reservation may change in anything but its connection. -/
theorem Indexed.putReservation {reservation : ℕ} {old value : Reservation} (h : Indexed s)
    (hold : s.reservations[reservation]? = some old) (hsame : value.connection = old.connection) :
    Indexed (s.putReservation reservation value) where
  holder := by
    intro r c
    rw [show (s.putReservation reservation value).connections = s.connections from rfl,
      ← h.holder]
    simp only [Server.putReservation, Table.get_insert]
    by_cases hr : reservation = r
    · subst hr
      simp [hold, hsame]
    · simp [hr]
  capacity := h.capacity
  silent := h.silent

theorem Indexed.setStatus (h : Indexed s) (reservation : ℕ) (status : Status) :
    Indexed (s.setStatus reservation status) := by
  unfold Server.setStatus
  split
  · exact h
  case h_2 value hget => exact h.putReservation hget rfl

theorem Indexed.dropConnection (h : Indexed s) (connection : ℕ) :
    Indexed (s.dropConnection connection).1 := by
  unfold Server.dropConnection
  split
  case h_1 => exact h
  case h_2 entry hget =>
    constructor
    case holder =>
      intro r c
      simp only [Table.get_erase, Std.ExtTreeMap.getElem?_filter']
      by_cases hr : r ∈ entry.reservations
      · -- the reservation was the dropped connection's own, so it was no other's
        have hown := (h.holder r connection).mpr ⟨entry, hget, hr⟩
        have hgone : ((s.reservations[r]?).filter fun _ ↦ decide (r ∉ entry.reservations)) =
            none := by
          simp [hr]
        rw [hgone]
        constructor
        · intro hnone
          cases hnone
        rintro ⟨e, he, hmem⟩
        split at he
        · cases he
        case isFalse hc =>
          have hother := (h.holder r c).mpr ⟨e, he, hmem⟩
          rw [hown] at hother
          exact absurd (Option.some.inj hother) hc
      · have hkept : ((s.reservations[r]?).filter fun _ ↦ decide (r ∉ entry.reservations)) =
            s.reservations[r]? := by
          cases s.reservations[r]? <;> simp [hr]
        rw [hkept, h.holder]
        by_cases hc : connection = c
        · subst hc
          simp [hget, hr]
        · simp [hc]
    case capacity =>
      intro c e hc
      simp only [Table.get_erase] at hc
      split at hc
      · cases hc
      · exact h.capacity c e hc
    case silent =>
      intro c e hc
      simp only [Table.get_erase] at hc
      split at hc
      · cases hc
      · exact h.silent c e hc

theorem Indexed.reserve {task : Binary} {queue : Option Binary} {reservation : ℕ}
    {r : Server × List Sent} (h : Indexed s) (hfresh : s.reservations[reservation]? = none)
    (hr : s.reserve task queue reservation = .ok r) : Indexed r.1 := by
  unfold Server.reserve at hr
  split at hr
  · cases hr
  case h_2 connection hchoose =>
    obtain ⟨entry, hget, hserves⟩ := Registry.choose_serves hchoose
    simp only [hget] at hr
    cases hr
    simp only [Registry.serves, Registry.available?, Bool.and_eq_true, Bool.or_eq_true, beq_iff_eq,
      decide_eq_true_eq] at hserves
    obtain ⟨⟨⟨hmode, hroom⟩, -⟩, -⟩ := hserves
    -- nobody held the new identifier, so its connection did not either
    have hnot : reservation ∉ entry.reservations := by
      intro hmem
      have := (h.holder reservation connection).mpr ⟨entry, hget, hmem⟩
      rw [hfresh] at this
      cases this
    constructor
    case holder =>
      intro r c
      simp only [putConnection, Table.get_insert]
      by_cases hr : reservation = r
      · subst hr
        by_cases hc : connection = c
        · subst hc
          simp
        · have hother : ¬∃ e, s.connections[c]? = some e ∧ reservation ∈ e.reservations := by
            rw [← h.holder, hfresh]
            simp
          simpa [hc] using hother
      · have hne : ¬r = reservation := fun hrr ↦ hr hrr.symm
        simp only [hr, if_false, h.holder]
        by_cases hc : connection = c
        · subst hc
          simp [hget, hne]
        · simp [hc]
    case capacity =>
      intro c e hc
      simp only [putConnection, Table.get_insert] at hc
      split at hc
      · cases hc
        rw [Finset.card_insert_of_notMem hnot]
        exact hroom
      · exact h.capacity c e hc
    case silent =>
      intro c e hc hnone
      simp only [putConnection, Table.get_insert] at hc
      split at hc
      · cases hc
        change entry.mode = none at hnone
        rw [hnone] at hmode
        rcases hmode with hmode | hmode <;> cases hmode
      · exact h.silent c e hc hnone

theorem Indexed.release (h : Indexed s) (reservation : ℕ) :
    Indexed (s.release reservation).1 := by
  unfold Server.release
  split
  case h_1 => exact h
  case h_2 value hget =>
    constructor
    case holder =>
      intro r c
      simp only [Table.get_erase, Table.get_modify]
      by_cases hr : reservation = r
      · subst hr
        by_cases hc : value.connection = c
        · subst hc
          simp
        · have hother : ¬∃ e, s.connections[c]? = some e ∧ reservation ∈ e.reservations := by
            rw [← h.holder, hget]
            simpa using hc
          simpa [hc] using hother
      · have hne : ¬r = reservation := fun hrr ↦ hr hrr.symm
        simp only [hr, if_false, h.holder]
        by_cases hc : value.connection = c
        · subst hc
          simp [hne]
        · simp [hc]
    case capacity =>
      intro c e hc
      simp only [Table.get_modify] at hc
      split at hc
      · obtain ⟨old, hold, rfl⟩ := Option.map_eq_some_iff.mp hc
        exact (Finset.card_erase_le).trans (h.capacity _ old hold)
      · exact h.capacity c e hc
    case silent =>
      intro c e hc hnone
      simp only [Table.get_modify] at hc
      split at hc
      · obtain ⟨old, hold, rfl⟩ := Option.map_eq_some_iff.mp hc
        have hempty := h.silent _ old hold hnone
        simp [hempty]
      · exact h.silent c e hc hnone

theorem Indexed.orStay {x : Except Refusal (Server × List Sent)} (h : Indexed s)
    (hok : ∀ r, x = .ok r → Indexed r.1) : Indexed (s.orStay x).1 := by
  cases x with
  | error => exact h
  | ok r => exact hok r rfl

theorem Indexed.changeTasks {change : Finset Binary → Finset Binary → Finset Binary}
    {connection : ℕ} {tasks : List Binary} {r : Server × List Sent} (h : Indexed s)
    (hr : s.changeTasks change connection tasks = .ok r) : Indexed r.1 := by
  simp only [Server.changeTasks, bind_eq_ok, check_eq_ok, pure_eq_ok] at hr
  obtain ⟨entry, hexecutor, -, -, hr⟩ := hr
  cases hr
  have hget : s.connections[connection]? = some entry := by
    unfold Registry.executor at hexecutor
    split at hexecutor
    · cases hexecutor
    case h_2 e he =>
      split at hexecutor <;> cases hexecutor <;> exact he
  exact h.update hget rfl (h.capacity connection entry hget) (h.silent connection entry hget)

/-- **One message.** Whatever a handler does, the two indexes stay together and no connection is
given more than it has registered. -/
theorem Indexed.handle {m : Message} {r : Server × List Sent} (h : Indexed s)
    (hadmits : s.admits m = true) (hr : s.handle m = some r) : Indexed r.1 := by
  cases m with
  | accepted connection monitor =>
    cases hr
    simp only [admits, Option.isNone_iff_eq_none] at hadmits
    simp only [Server.accepted]
    split
    · exact h
    · exact (h.arrive hadmits rfl).congr rfl rfl
  | down monitor =>
    simp only [Server.handle, Server.down] at hr
    split at hr
    · split at hr
      · cases hr
      · cases hr
        exact h
    · cases hr
      exact (h.congr (t := { s with monitors := s.monitors.erase monitor }) rfl rfl).dropConnection _
  | disconnected connection =>
    cases hr
    exact h.dropConnection connection
  | registerHttpWorker runtimeId tasks capacity queue worker monitor token =>
    cases hr
    simp only [admits, Option.isNone_iff_eq_none] at hadmits
    refine h.orStay fun r hr ↦ ?_
    simp only [Server.registerHttpWorker, bind_eq_ok, pure_eq_ok] at hr
    obtain ⟨-, -, hr⟩ := hr
    cases hr
    exact (h.arrive hadmits rfl).congr rfl rfl
  | hello connection session =>
    cases hr
    refine h.orStay fun r hr ↦ ?_
    obtain ⟨t, ht, rfl⟩ := map_eq_ok.mp hr
    unfold Server.hello at ht
    split at ht
    · cases ht
    case h_2 entry hget =>
      split at ht
      · cases ht
      case isFalse hmode =>
        have hempty := h.silent _ _ hget (by simpa using hmode)
        split at ht <;> cases ht
        exact h.update hget rfl (by simp [hempty]) fun _ ↦ hempty
  | registerTasks connection tasks =>
    cases hr
    exact h.orStay fun r hr ↦ h.changeTasks hr
  | unregisterTasks connection tasks =>
    cases hr
    exact h.orStay fun r hr ↦ h.changeTasks hr
  | reserve task queue reservation =>
    cases hr
    exact h.orStay fun r hr ↦ h.reserve (by simpa [admits] using hadmits) hr
  | dispatch reservation job execution =>
    cases hr
    refine h.orStay fun r hr ↦ ?_
    unfold Server.dispatch at hr
    split at hr
    · cases hr
    case h_2 value hget =>
      simp only [bind_eq_ok, pure_eq_ok] at hr
      obtain ⟨-, -, -, -, -, -, -, -, hr⟩ := hr
      cases hr
      exact h.putReservation hget rfl
  | started connection reservation execution =>
    cases hr
    refine h.orStay fun r hr ↦ ?_
    obtain ⟨t, ht, rfl⟩ := map_eq_ok.mp hr
    simp only [Server.started, bind_eq_ok, pure_eq_ok] at ht
    obtain ⟨-, -, ht⟩ := ht
    cases ht
    exact h.setStatus reservation .started
  | complete connection reservation execution outcome =>
    cases hr
    refine h.orStay fun r hr ↦ ?_
    simp only [Server.complete, bind_eq_ok, pure_eq_ok] at hr
    obtain ⟨-, -, hr⟩ := hr
    cases hr
    exact h.setStatus reservation .completed
  | release reservation =>
    cases hr
    exact h.release reservation
  | cancel reservation =>
    cases hr
    exact h

/-! ## Where reservations come from -/

/-- The reservations a server holds. -/
def held (s : Server) (r : ℕ) : Bool := (s.reservations[r]?).isSome

theorem dropConnection_held {connection x : ℕ}
    (hx : (s.dropConnection connection).1.held x = true) : s.held x = true := by
  unfold dropConnection at hx
  split at hx
  · exact hx
  · simp only [held, Std.ExtTreeMap.getElem?_filter', Option.isSome_filter] at hx
    exact Option.isSome_of_any hx

theorem setStatus_held {reservation x : ℕ} {status : Status}
    (hx : (s.setStatus reservation status).held x = true) : s.held x = true := by
  unfold Server.setStatus at hx
  split at hx
  · exact hx
  case h_2 value hget =>
    simp only [held, Server.putReservation, Table.get_insert] at hx
    by_cases hr : reservation = x
    · subst hr
      simp [held, hget]
    · simpa [hr, held] using hx

theorem orStay_held {y : Except Refusal (Server × List Sent)} {x : ℕ} {P : Prop}
    (hx : (s.orStay y).1.held x = true) (hok : ∀ r, y = .ok r → r.1.held x = true →
      s.held x = true ∨ P) : s.held x = true ∨ P := by
  cases y with
  | error => exact .inl hx
  | ok r => exact hok r rfl hx

/-- A reservation is held because it was held before, or because it has just been made. -/
theorem handle_held {m : Message} {r : Server × List Sent} {x : ℕ} (hr : s.handle m = some r)
    (hx : r.1.held x = true) : s.held x = true ∨ ∃ task queue, m = .reserve task queue x := by
  cases m with
  | accepted connection monitor =>
    cases hr
    simp only [Server.accepted] at hx
    split at hx <;> exact .inl hx
  | down monitor =>
    simp only [Server.handle, Server.down] at hr
    split at hr
    · split at hr <;> cases hr
      exact .inl hx
    · cases hr
      exact .inl (dropConnection_held (s := { s with monitors := s.monitors.erase monitor }) hx)
  | disconnected connection =>
    cases hr
    exact .inl (dropConnection_held hx)
  | registerHttpWorker runtimeId tasks capacity queue worker monitor token =>
    cases hr
    refine orStay_held hx fun r hr hrx ↦ ?_
    simp only [Server.registerHttpWorker, bind_eq_ok, pure_eq_ok] at hr
    obtain ⟨-, -, hr⟩ := hr
    cases hr
    exact .inl hrx
  | hello connection session =>
    cases hr
    refine orStay_held hx fun r hr hrx ↦ ?_
    obtain ⟨t, ht, rfl⟩ := map_eq_ok.mp hr
    unfold Server.hello at ht
    split at ht
    · cases ht
    · split at ht
      · cases ht
      · split at ht <;> cases ht
        exact .inl hrx
  | registerTasks connection tasks =>
    cases hr
    refine orStay_held hx fun r hr hrx ↦ ?_
    simp only [Server.registerTasks, Server.changeTasks, bind_eq_ok, pure_eq_ok] at hr
    obtain ⟨entry, -, -, -, hr⟩ := hr
    cases hr
    exact .inl hrx
  | unregisterTasks connection tasks =>
    cases hr
    refine orStay_held hx fun r hr hrx ↦ ?_
    simp only [Server.unregisterTasks, Server.changeTasks, bind_eq_ok, pure_eq_ok] at hr
    obtain ⟨entry, -, -, -, hr⟩ := hr
    cases hr
    exact .inl hrx
  | reserve task queue reservation =>
    cases hr
    refine orStay_held hx fun r hr hrx ↦ ?_
    unfold Server.reserve at hr
    split at hr
    · cases hr
    · split at hr <;> cases hr
      simp only [held, Table.get_insert] at hrx
      by_cases hreservation : reservation = x
      · subst hreservation
        exact .inr ⟨task, queue, rfl⟩
      · simp only [hreservation, if_false] at hrx
        exact .inl hrx
  | dispatch reservation job execution =>
    cases hr
    refine orStay_held hx fun r hr hrx ↦ ?_
    unfold Server.dispatch at hr
    split at hr
    · cases hr
    case h_2 value hget =>
      simp only [bind_eq_ok, pure_eq_ok] at hr
      obtain ⟨-, -, -, -, -, -, -, -, hr⟩ := hr
      cases hr
      simp only [held, Server.putReservation, Table.get_insert] at hrx
      by_cases hreservation : reservation = x
      · subst hreservation
        exact .inl (by simp [held, hget])
      · simp only [hreservation, if_false] at hrx
        exact .inl hrx
  | started connection reservation execution =>
    cases hr
    refine orStay_held hx fun r hr hrx ↦ ?_
    obtain ⟨t, ht, rfl⟩ := map_eq_ok.mp hr
    simp only [Server.started, bind_eq_ok, pure_eq_ok] at ht
    obtain ⟨-, -, ht⟩ := ht
    cases ht
    exact .inl (setStatus_held hrx)
  | complete connection reservation execution outcome =>
    cases hr
    refine orStay_held hx fun r hr hrx ↦ ?_
    simp only [Server.complete, bind_eq_ok, pure_eq_ok] at hr
    obtain ⟨-, -, hr⟩ := hr
    cases hr
    exact .inl (setStatus_held hrx)
  | release reservation =>
    cases hr
    simp only [Server.release] at hx
    split at hx
    · exact .inl hx
    · simp only [held, Table.get_erase] at hx
      split at hx
      · cases hx
      · exact .inl hx
  | cancel reservation =>
    cases hr
    exact .inl hx

/-- A release that is handled leaves nothing behind. -/
theorem release_held (s : Server) (reservation : ℕ) :
    (s.release reservation).1.held reservation = false := by
  unfold Server.release
  split
  case h_1 hget => simp [held, hget]
  case h_2 => simp [held]

end Server

end Tay.Executor
