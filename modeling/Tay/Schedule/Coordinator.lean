import Tay.Schedule.Commands
import Tay.Schedule.Timing

/-!
# The schedule coordinator

`Tay.Schedule.Coordinator` keeps one entry for each schedule that is waiting for its next occurrence,
with a timer that sends the message for it. Requests and due messages become operations in one queue;
one operation runs at a time, in a process of its own, and its result is an answer of the engine, a
refusal before it reached the engine, or nothing that is known.

The system is the coordinator beside the engine. Its labels are what happens next: a request arrives,
a timer fires, a message is handled, the operation ends, the engine does something else, or the
generation starts anew.
-/

open Foundation

namespace Tay.Coordinator

open V2 Engine

/-! ## State -/

/-- A timer and the message it sends. -/
structure Timer where
  ref : ℕ
  id : Binary
  dueAt : ℕ
  deriving DecidableEq

structure Entry where
  schedule : Declared
  /-- `none` while the occurrence is being delivered. -/
  timer : Option ℕ
  deriving DecidableEq

/-- An operation in the queue. -/
inductive Request
  | register (schedule : Declared)
  | cancel (id : Binary)
  | deliver (schedule advanced : Declared) (dueAt now : ℕ)
  deriving DecidableEq

/-- An operation that runs; a cancellation runs with the schedule found when it begins. -/
inductive Operation
  | register (schedule : Declared)
  | cancel (schedule : Declared)
  | deliver (schedule advanced : Declared) (dueAt now : ℕ)
  deriving DecidableEq

structure State where
  schedules : Table Binary Entry
  operation : Option Operation
  operations : List Request
  timers : List Timer
  /-- The due messages that have been sent and not handled. -/
  mailbox : List (Binary × ℕ)
  nextTimer : ℕ

/-- Put an entry whose timer will send the message for `dueAt`. -/
def place (c : State) (id : Binary) (schedule : Declared) (dueAt : ℕ) : State :=
  { c with
    schedules := c.schedules.insert id ⟨schedule, some c.nextTimer⟩
    timers := ⟨c.nextTimer, schedule.id, dueAt⟩ :: c.timers
    nextTimer := c.nextTimer + 1 }

def arm (c : State) (id : Binary) (schedule : Declared) : State :=
  place c id schedule schedule.nextAt

def drop (c : State) (id : Binary) : State :=
  match c.schedules[id]? with
  | none => c
  | some entry =>
    { c with
      schedules := c.schedules.erase id
      timers := c.timers.filter fun t ↦ some t.ref != entry.timer }

/-- `from_durable`, of a schedule whose expression is valid. -/
def fromDurable (stored : Schedule) : Declared where
  id := stored.id
  definition := stored.definition
  revision := stored.revision
  registeredAt := stored.registeredAt
  nextAt := stored.nextAt
  lastAt := stored.lastAt
  cancelledAt := stored.cancelledAt
  activeJobId := stored.activeJobId

def durable (schedule : Declared) (stored : Schedule) : Declared :=
  { schedule with
    revision := stored.revision
    nextAt := stored.nextAt
    lastAt := stored.lastAt
    cancelledAt := stored.cancelledAt
    activeJobId := stored.activeJobId }

variable {κ : Type} [DecidableEq κ] (cron : Cron κ)

/-- A stored schedule that can be armed. -/
def armable (stored : Schedule) : Bool :=
  stored.cancelledAt.isNone && (Timing.runtimeExpression cron stored.definition).isSome

/-- `init`: an entry for each schedule of the engine that is not cancelled. -/
def start (engine : Engine.State) : State :=
  engine.schedules.toList.foldl
    (fun c x ↦ if armable cron x.2 then arm c x.2.id (fromDurable x.2) else c)
    ⟨∅, none, [], [], [], 0⟩

/-! ## Operations -/

/-- `Schedule.equivalent?`. -/
def equivalent (a b : Declared) : Bool :=
  a.id == b.id && a.definition.task == b.definition.task && a.definition.args == b.definition.args &&
    Timing.runtimeExpression cron a.definition == Timing.runtimeExpression cron b.definition &&
    a.definition.timezone == b.definition.timezone &&
    a.definition.overlap == b.definition.overlap && a.definition.catchUp == b.definition.catchUp

/-- `begin_operation`: what is launched, or nothing when the answer is known already. -/
def launched (c : State) : Request → Option Operation
  | .register schedule =>
    if (c.schedules[schedule.id]?).any fun entry ↦
        entry.schedule.definition.options == schedule.definition.options &&
          equivalent cron entry.schedule schedule then none
    else some (.register schedule)
  | .cancel id => (c.schedules[id]?).map fun entry ↦ .cancel entry.schedule
  | .deliver schedule advanced dueAt now =>
    if (c.schedules[schedule.id]?).any fun entry ↦
        entry.schedule.revision == schedule.revision && entry.schedule.nextAt == dueAt then
      some (.deliver schedule advanced dueAt now)
    else none

/-- Begin the operations of the queue until one is launched. -/
def beginNext (c : State) : List Request → State
  | [] => { c with operations := [] }
  | request :: rest =>
    match launched cron c request with
    | some running => { c with operation := some running, operations := rest }
    | none => beginNext c rest

def continueOperations (c : State) : State :=
  match c.operation with
  | some _ => c
  | none => beginNext cron c c.operations

def enqueueOperation (c : State) (request : Request) : State :=
  continueOperations cron { c with operations := c.operations ++ [request] }

/-- How an operation ends. -/
inductive Ending
  | ok (stored : Schedule)
  | refused (r : Refusal)
  | unknown

def retryable : Refusal → Bool
  | .capacity | .unavailable => true
  | .conflict | .invalid => false

def completeOperation (c : State) : Operation → Ending → State
  | .register schedule, .ok stored =>
    arm (drop c schedule.id) schedule.id (durable schedule stored)
  | .register schedule, .unknown => drop c schedule.id
  | .cancel schedule, .ok _ | .cancel schedule, .unknown => drop c schedule.id
  | .deliver schedule advanced _ _, .ok stored => arm c schedule.id (durable advanced stored)
  | .deliver schedule _ dueAt _, .unknown => place c schedule.id schedule dueAt
  | .deliver schedule _ dueAt _, .refused r =>
    if retryable r then place c schedule.id schedule dueAt else drop c schedule.id
  | .register _, .refused _ | .cancel _, .refused _ => c

/-! ## Due messages -/

/-- The occurrence after the one that is due, for the entry that waits for it. -/
def advanced (schedule : Declared) (dueAt now : ℕ) : Option Declared :=
  (Timing.runtimeExpression cron schedule.definition).bind fun x ↦
    (Timing.advanceAfterDelivery cron schedule.definition.catchUp x dueAt now).map fun nextAt ↦
      { schedule with lastAt := some dueAt, nextAt := nextAt }

def handleDue (c : State) (id : Binary) (dueAt now : ℕ) : State :=
  match (c.schedules[id]?).filter fun entry ↦ entry.schedule.nextAt == dueAt with
  | none => c
  | some entry =>
    if now < dueAt then arm c id entry.schedule
    else match advanced cron entry.schedule dueAt now with
      | some next =>
        enqueueOperation cron
          { c with schedules := c.schedules.insert id { entry with timer := none } }
          (.deliver entry.schedule next dueAt now)
      | none => drop c id

/-! ## The system -/

/-- `Local.deliver_schedule`: the job of an occurrence, under an id derived from the schedule and the
time; no job when the options or the arguments are refused. -/
structure Jobs where
  occurrenceId : Binary → ℕ → JobId
  job : Declared → ℕ → Option (Definition × Binary × Option Durability)

/-- What becomes of a launched operation. -/
inductive Outcome
  /-- It was refused before it reached the engine. -/
  | refused (r : Refusal)
  | answered (conditions : Conditions)
  /-- No answer came, and the engine has executed the command or not. -/
  | lost (conditions : Option Conditions)

variable (vm : Runtime) (jobs : Jobs)

/-- `run`: the command of an operation. -/
def execute (engine : Engine.State) (op : Operation) (c : Conditions) : Option Executed :=
  match op with
  | .register schedule => registerSchedule vm engine schedule c.advance
  | .cancel schedule => cancelSchedule vm engine schedule.id schedule.revision c.clock c.advance
  | .deliver schedule next dueAt now =>
    match jobs.job schedule dueAt with
    | none => some ⟨.error .invalid, engine, []⟩
    | some (job, bytes, durability) =>
      deliverSchedule vm engine ⟨schedule.id, schedule.definition, dueAt, next.nextAt, now,
        jobs.occurrenceId schedule.id dueAt, job, bytes, durability⟩ c

/-- How an answer ends an operation. -/
def Ending.of : Except Refusal Schedule → Ending
  | .ok stored => .ok stored
  | .error r => .refused r

/-- How an operation ends, the state it leaves the engine in, and the commits made for it. -/
def settle (engine : Engine.State) (op : Operation) :
    Outcome → Option (Ending × Engine.State × List Action)
  | .refused r => some (.refused r, engine, [])
  | .answered c => (execute vm jobs engine op c).map fun x ↦ (.of x.answer, x.state, x.actions)
  | .lost none => some (.unknown, engine, [])
  | .lost (some c) => (execute vm jobs engine op c).map fun x ↦ (.unknown, x.state, x.actions)

structure System where
  engine : Engine.State
  coordinator : State

inductive Label
  | register (schedule : Declared)
  | cancel (id : Binary)
  | fire (ref : ℕ)
  | due (id : Binary) (dueAt now : ℕ)
  | result (outcome : Outcome)
  | engine (a : Action)
  | restart (engine : Engine.State)

/-- The schedule events are the coordinator's. -/
def foreign : Action → Bool
  | .command (.auxiliary e) _ => e.body.scheduleId?.isNone
  | _ => true

/-- The timer `ref` sends its message. -/
def fire (c : State) (timer : Timer) : State :=
  { c with timers := c.timers.erase timer, mailbox := c.mailbox ++ [(timer.id, timer.dueAt)] }

/-- A message leaves the mailbox. -/
def taken (c : State) (message : Binary × ℕ) : State :=
  { c with mailbox := c.mailbox.erase message }

/-- The coordinator once the running operation has ended. -/
def finished (c : State) (op : Operation) (ending : Ending) : State :=
  continueOperations cron { completeOperation c op ending with operation := none }

def step (x : System) : Label → Option System
  | .register schedule =>
    -- `Schedule.new` has parsed the expression
    if (Timing.runtimeExpression cron schedule.definition).isSome then
      some { x with coordinator := enqueueOperation cron x.coordinator (.register schedule) }
    else none
  | .cancel id => some { x with coordinator := enqueueOperation cron x.coordinator (.cancel id) }
  | .fire ref => (x.coordinator.timers.find? fun t ↦ t.ref == ref).map fun timer ↦
      { x with coordinator := fire x.coordinator timer }
  | .due id dueAt now =>
    if (id, dueAt) ∈ x.coordinator.mailbox then
      some { x with coordinator := handleDue cron (taken x.coordinator (id, dueAt)) id dueAt now }
    else none
  | .result outcome => x.coordinator.operation.bind fun op ↦
      (settle vm jobs x.engine op outcome).map fun r ↦
        ⟨r.2.1, finished cron x.coordinator op r.1⟩
  | .engine a =>
    if foreign a then (handle vm x.engine a).toOption.map fun engine ↦ { x with engine := engine }
    else none
  | .restart engine => some ⟨engine, start cron engine⟩

/-- A generation starts on a recovered store, and its coordinator from the schedules found there. -/
def system : Machine System Label where
  initial x := Starts vm x.engine ∧ x.coordinator = start cron x.engine
  step := step cron vm jobs

end Tay.Coordinator
