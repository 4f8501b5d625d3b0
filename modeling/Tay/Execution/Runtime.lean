import Tay.Engine.Reserve
import Tay.Execution.Link

/-!
# Executions

The engine's side of running jobs: `Tay.Engine.Execution`, `Tay.Execution.Dispatcher`, and the
message handlers and drain completion of `Tay.Engine`. A job runs under a relay process of this
node or on an external executor; either way it has an entry in `running`, is found by its id in
`executions`, takes one of its queue's slots, and is held back from being dispatched again.

The durable part is `Engine.State`: every start and every settlement is a commit on it. What the
environment decides stands in the arguments: the clock, the writer's answers, the random source, the
relay processes, and the turns the executor server takes while the engine waits for it. A handler
yields no state when the engine process exits.

`settled` and `requested` record what has happened and are read by no handler.
-/

open Foundation

namespace Tay.Execution

open V2 Transition Executor

/-! ## State -/

/-- The key of a running execution: a relay process, or a reservation of the executor server. -/
inductive Key
  | relay (pid : ℕ)
  | executor (reservation : ℕ)
  deriving DecidableEq, Repr

namespace Key

def code : Key → ℕ
  | .relay pid => 2 * pid
  | .executor reservation => 2 * reservation + 1

theorem code_injective : ∀ {a b : Key}, a.code = b.code → a = b := by
  intro a b h
  cases a <;> cases b <;> simp only [code] at h <;> simp only [Key.relay.injEq, Key.executor.injEq,
    reduceCtorEq] <;> omega

instance : Ord Key := ⟨fun a b ↦ compare a.code b.code⟩

theorem compare_eq (a b : Key) : compare a b = compare a.code b.code := rfl

instance : Std.TransOrd Key where
  eq_swap := by
    intro a b
    rw [compare_eq, compare_eq]
    exact Std.OrientedCmp.eq_swap
  isLE_trans := by
    intro a b c hab hbc
    rw [compare_eq] at hab hbc ⊢
    exact Std.TransCmp.isLE_trans hab hbc

instance : Std.LawfulEqOrd Key where
  compare_self := by
    intro a
    rw [compare_eq]
    exact Std.ReflCmp.compare_self
  eq_of_compare := by
    intro a b h
    rw [compare_eq] at h
    exact code_injective (Std.LawfulEqCmp.eq_of_compare h)

end Key

/-- An execution under a relay process. -/
structure Relay where
  ticket : ℕ
  monitor : ℕ
  eligibleAt : Option ℕ
  released : Bool
  settled : Bool
  dead : Bool
  deriving DecidableEq

inductive Kind
  | relay (r : Relay)
  | external (reservation server : ℕ)
  deriving DecidableEq

structure Entry where
  id : JobId
  queue : Binary
  execution : Option ℕ
  kind : Kind
  deriving DecidableEq

inductive Mode
  | ready
  | draining
  | drained
  deriving DecidableEq, Repr

/-- What the engine tells its guardian about drains. -/
inductive Notice
  /-- The reply to a drain command: drained, or the deadline has passed. -/
  | drain (permit : ℕ) (drained : Bool)
  | operationDrained (token : ℕ)
  deriving DecidableEq

structure State where
  engine : Engine.State
  link : Link
  /-- Worker keys that resolve to a loaded module. -/
  registry : Finset Binary
  /-- Configured worker keys. -/
  workers : Finset Binary
  queues : Finset Binary
  queueLimits : Table Binary ℕ
  running : Table Key Entry
  executions : Table JobId Key
  relayMonitors : Table ℕ ℕ
  slots : Table Binary ℤ
  held : Finset JobId
  paused : Finset Binary
  mode : Mode
  /-- Waiting drain commands: the permit of each, and its caller. -/
  drainers : Table ℕ ℕ
  lifecycleOperation : Option ℕ
  lifecycleFenced : Option ℕ
  executorServer : Option ℕ
  sent : List Notice
  /-- Every drain command so far, by its permit. -/
  requested : List ℕ
  /-- The reservations settled so far. -/
  settled : List ℕ

/-- `match` on a commit: its success, a refusal, or the end of the process. -/
def onCommit {α : Type} (x : Except Reason α) (ok : α → Option State) (refused : Option State) :
    Option State :=
  match x with
  | .ok a => ok a
  | .error .raised => none
  | .error _ => refused

/-- Fill a slot, index the entry, and hold the job back: what `start_waiting` and `start_external`
share. -/
def State.occupy (s : State) (key : Key) (entry : Entry) : State :=
  { s with
    running := s.running.insert key entry
    executions := s.executions.insert entry.id key
    slots := s.slots.modify entry.queue (· + 1)
    held := insert entry.id s.held }

variable (vm : Runtime)

/-! ## Drains -/

/-- `complete_drains`. -/
def completeDrains (s : State) : State :=
  if s.mode = .draining ∧ s.engine.settlementReserve = 0 ∧ s.running = ∅ then
    { s with
      mode := .drained
      drainers := ∅
      lifecycleOperation := none
      lifecycleFenced := s.lifecycleOperation.or s.lifecycleFenced
      sent := s.sent ++ s.drainers.keys.map (.drain · true) ++
        s.lifecycleOperation.toList.map .operationDrained }
  else s

/-! ## External executions -/

/-- How an external execution is settled. -/
inductive Result
  | success (result : Value)
  | failure
  | lost
  | timeout
  | cancelled
  deriving DecidableEq

def Result.ofCompletion : Completion → Result
  | .success result => .success result
  | .failure => .failure
  | .lost => .lost

/-- `Dispatcher.outcome`. -/
def outcome : Result → Normalized
  | .success _ => .success
  | .timeout => .timeout
  | .lost => .interrupted
  | .failure | .cancelled => .failure 1

/-- What the environment decides in a settlement. -/
structure Settling where
  timestamp : ℕ
  draws : List UInt16
  writer : Engine.State → Engine.Environment
  /-- The turns of the executor server during the `cancel` call, where there is one. -/
  cancelling : List Turn
  /-- And during the `release` call. -/
  releasing : List Turn

/-- `settle_job` and `persist_result`. A refusal of either commit ends the process. -/
def settleJob (s : Engine.State) (job : Job) (result : Result) (w : Settling) :
    Option Engine.State := do
  let e ← (Outcome.event job (outcome result) w.timestamp w.draws).toOption
  let c ← (Engine.commit vm s (some job) e none (w.writer s)).toOption
  match result with
  | .success value =>
    let r ← (Engine.commitAuxiliary vm c.state (Engine.resultOf c.job value) (some c.job)
      (w.writer c.state)).toOption
    return r.1
  | _ => return c.state

/-- The store after a settlement: a cancelled execution, or one the job has outlived, commits
nothing. -/
def settleEngine (s : State) (entry : Entry) (result : Result) (w : Settling) :
    Option Engine.State :=
  match result, s.engine.hot[entry.id]? with
  | .cancelled, _ => some s.engine
  | _, none => some s.engine
  | result, some job =>
    if job.state = .executing ∧ job.execution = entry.execution then
      settleJob vm s.engine job result w
    else some s.engine

/-- `Dispatcher.settle`. The job is looked up among the hot ones, before it is settled; where it is
not found the hold stays. -/
def settle (s : State) (key : Key) (entry : Entry) (reservation server : ℕ) (result : Result)
    (w : Settling) : Option State := do
  let engine ← settleEngine vm s entry result w
  let r ← s.link.call server (.release reservation) w.releasing
  return { s with
    engine := engine
    link := r.1
    running := s.running.erase key
    executions := s.executions.erase entry.id
    slots := s.slots.modify entry.queue fun n ↦ max (n - 1) 0
    held := match s.engine.hot[entry.id]? with
      | some job => s.held.erase job.id
      | none => s.held
    settled := s.settled ++ [reservation] }

/-- What the environment decides in a claim. -/
structure Claim where
  /-- The clock when the queue is searched, and when the claim is made. -/
  now : ℕ
  timestamp : ℕ
  /-- The tasks with rate credit and a worker or an executor that could take them. -/
  tasks : List Binary
  writer : Engine.State → Engine.Environment
  /-- The identifiers the executor server draws, and its turns during the calls. -/
  reservation : ℕ
  execution : ℕ
  reserving : List Turn
  dispatching : List Turn
  settling : Settling
  /-- The relay process, for a job that runs on this node. -/
  relay : ℕ
  ticket : ℕ
  monitor : ℕ
  taskAlive : Bool
  startedAt : ℕ

def startedEvent (job : Job) (timestamp : ℕ) : JobEvent :=
  ⟨job.id, job.revision, timestamp, .started (job.nextAttempt.getD 0) job.cycle⟩

/-- `Dispatcher.start_external`, once the reservation is made. -/
def startExternal (s : State) (job : Job) (queue : Binary) (server : ℕ) (c : Claim) :
    Option State :=
  onCommit (Engine.commit vm s.engine (some job) (startedEvent job c.timestamp) none
      (c.writer s.engine))
    (fun committed ↦ do
      let key := Key.executor c.reservation
      let entry : Entry :=
        ⟨job.id, queue, committed.job.execution, .external c.reservation server⟩
      let next := { s with engine := committed.state }.occupy key entry
      let r ← next.link.call server (.dispatch c.reservation committed.job c.execution)
        c.dispatching
      match r.2 with
      | some (.ok ()) => return { next with link := r.1 }
      | _ => settle vm { next with link := r.1 } key entry c.reservation server .lost c.settling)
    (do
      let r ← s.link.call server (.release c.reservation) c.settling.releasing
      return { s with link := r.1 })

/-! ## Executions under a relay -/

/-- An entry whose execution may be released: its start is committed and its time has come. -/
def Entry.pending (entry : Entry) (now : ℕ) : Bool :=
  match entry.kind with
  | .relay r => !r.released && !r.settled && entry.execution.isSome && r.eligibleAt.any (· ≤ now)
  | .external .. => false

def Entry.mapRelay (entry : Entry) (f : Relay → Relay) : Entry :=
  match entry.kind with
  | .relay r => { entry with kind := .relay (f r) }
  | .external .. => entry

/-- `release_pending`. A relay that does not accept the release ends the process. -/
def releasePending (s : State) (now : ℕ) : State :=
  { s with
    running := s.running.map fun _ entry ↦
      if entry.pending now then entry.mapRelay ({ · with released := true }) else entry }

/-- `finish_runtime`: an entry goes once it is settled and its task is dead. -/
def finishRuntime (s : State) (pid : ℕ) : State :=
  match s.running[Key.relay pid]? with
  | none => s
  | some entry =>
    match entry.kind with
    | .relay r =>
      if r.settled && r.dead then
        { s with
          running := s.running.erase (.relay pid)
          executions := s.executions.erase entry.id
          relayMonitors := s.relayMonitors.erase r.monitor
          slots := s.slots.modify entry.queue (· - 1)
          held := s.held.erase (((s.engine.hot[entry.id]?).map Job.id).getD entry.id) }
      else s
    | .external .. => s

def putRelay (s : State) (pid : ℕ) (entry : Entry) (f : Relay → Relay) : State :=
  { s with running := s.running.insert (.relay pid) (entry.mapRelay f) }

/-- `abandon_waiting`: the task is told to stop, and the entry stays until it is dead. -/
def abandonWaiting (s : State) (pid : ℕ) (entry : Entry) : State :=
  putRelay s pid entry ({ · with settled := true })

/-- The entry of a relay whose task waits to be released. -/
def Claim.entry (c : Claim) (job : Job) (queue : Binary) (execution : Option ℕ) : Entry :=
  ⟨job.id, queue, execution,
    .relay ⟨c.ticket, c.monitor, job.eligibleAt, false, false, false⟩⟩

/-- The state with that entry, before the start is committed. -/
def waitingState (s : State) (job : Job) (queue : Binary) (c : Claim) : State :=
  { s.occupy (.relay c.relay) (c.entry job queue none) with
    relayMonitors := s.relayMonitors.insert c.monitor c.relay }

/-- `start_waiting`. -/
def startWaiting (s : State) (job : Job) (queue : Binary) (c : Claim) : Option State :=
  let waiting := waitingState s job queue c
  if c.taskAlive && job.eligibleAt.any (· ≤ c.startedAt) then
    onCommit (Engine.commit vm waiting.engine (some job) (startedEvent job c.startedAt) none
        (c.writer waiting.engine))
      (fun committed ↦
        let next :=
          { waiting with
            engine := committed.state
            running := waiting.running.insert (.relay c.relay)
              (c.entry job queue committed.job.execution) }
        some (releasePending next c.startedAt))
      (some (abandonWaiting waiting c.relay (c.entry job queue none)))
  else some (abandonWaiting waiting c.relay (c.entry job queue none))

/-! ## Claims -/

/-- The jobs the index of ready tasks holds. -/
def dispatchable (s : State) : Table JobId Job :=
  s.engine.hot.filter fun id job ↦ decide (job.definition.queueKey ∈ s.queues ∧ id ∉ s.held)

/-- `next_ready`: the head of each task's index, and of these the least. -/
def nextReady (s : State) (queue : Binary) (tasks : List Binary) (now : ℕ) : Option Job :=
  (sortBy TaskIndex.key <| tasks.dedup.flatMap fun task ↦
    (TaskIndex.ready (fun _ ↦ true) (dispatchable s) queue task now 1).filterMap
      (s.engine.hot[·]?)).head?

/-- `execution_encoding`: the payload an event of a job has in the log. -/
def executionEncoding (s : Engine.State) (job : Job) (e : JobEvent) : Except Reason Binary := do
  let mutation ← Mutation.fromEvent e (some job) s.nextAvailabilityOrder
  Codec.encodeMutation mutation s.config.valueLimits

/-- `prepare_settlement`: the job an event leads to. -/
def prepareSettlement (s : Engine.State) (job : Job) (e : JobEvent) : Except Reason Job := do
  let mutation ← Mutation.fromEvent e (some job) s.nextAvailabilityOrder
  let r ← Reducer.applyOne vm (some job) mutation s.nextAvailabilityOrder
    s.config.candidateLimits s.config.valueLimits
  return r.1

/-- `settlement_fits`: every way the execution may end can be recorded. -/
def settlementFits (s : Engine.State) (executing : Job) (timestamp : ℕ) : Bool :=
  [Normalized.success, .failure 1, .timeout, .interrupted].all fun outcome ↦
    match Outcome.event executing outcome timestamp [0] with
    | .ok finished =>
      (executionEncoding s executing finished).isOk &&
        (prepareSettlement vm s executing finished).isOk
    | .error _ => false

/-- `execution_headroom`. -/
def executionHeadroom (s : Engine.State) (job : Job) (payload : Binary) : Bool :=
  match Engine.ProjectionState.durability s job.id with
  | .persistent =>
    (Engine.headroom s payload.length (s.persistentSettlementReserve + 1)).isOk
  | .volatile => true

/-- Everything `claim` asks after it has chosen where the job runs. -/
def claimable (s : State) (job : Job) (timestamp : ℕ) : Bool :=
  let e := startedEvent job timestamp
  decide (job.id ∉ s.held) &&
    match prepareSettlement vm s.engine job e, executionEncoding s.engine job e with
    | .ok predicted, .ok payload =>
      settlementFits vm s.engine predicted timestamp && executionHeadroom s.engine job payload
    | _, _ => false

/-- Where a job runs. -/
inductive Selection
  | relay
  | external (server : ℕ)
  | unavailable
  deriving DecidableEq

/-- `Dispatcher.select`: a local worker, or a reservation of the executor server. A call that is
not answered counts as no capacity. -/
def select (s : State) (job : Job) (c : Claim) : Option (Link × Selection) :=
  let task := job.definition.workerKey
  if task ∈ s.registry then some (s.link, .relay)
  else if task ∈ s.workers then some (s.link, .unavailable)
  else match s.executorServer with
    | none => some (s.link, .unavailable)
    | some server => do
      let r ← s.link.call server (.reserve task (some job.definition.queueKey) c.reservation)
        c.reserving
      match r.2 with
      | some (.ok ()) => return (r.1, .external server)
      | _ => return (r.1, .unavailable)

/-- `claim`. The reservation is made first, and the checks come after it. -/
def claim (s : State) (job : Job) (queue : Binary) (c : Claim) : Option State := do
  let r ← select s job c
  let s := { s with link := r.1 }
  match r.2 with
  | .unavailable => return s
  | .relay =>
    if claimable vm s job c.timestamp then startWaiting vm s job queue c else return s
  | .external server =>
    if claimable vm s job c.timestamp then startExternal vm s job queue server c else return s

/-- `control({:queue, queue}, s)`. -/
def controlQueue (s : State) (queue : Binary) (c : Claim) : Option State :=
  match s.slots[queue]?, s.queueLimits[queue]? with
  | some used, some limit =>
    if s.mode = .ready ∧ queue ∉ s.paused ∧ used < limit then
      match nextReady s queue c.tasks c.now with
      | some job => claim vm s job queue c
      | none => some s
    else some s
  | _, _ => some s

/-- One due job of `control(:scheduler, s)`. -/
def makeAvailable (s : State) (id : JobId) (timestamp : ℕ)
    (writer : Engine.State → Engine.Environment) : Option State :=
  match s.engine.hot[id]? with
  | none => none
  | some job =>
    if job.state = .scheduled ∨ job.state = .retryable then
      match job.eligibleAt with
      | none => some s
      | some due =>
        if due ≤ timestamp then
          onCommit (Engine.commit vm s.engine (some job) ⟨id, job.revision, timestamp,
              .available due⟩ none (writer s.engine))
            (fun committed ↦ some { s with engine := committed.state }) (some s)
        else some s
    else some s

/-! ## Messages of relays -/

inductive RelayMessage
  | outcome (o : Normalized)
  | dead

/-- The entry of a relay, if the key is one. -/
def relayEntry (s : State) (pid : ℕ) : Option (Entry × Relay) :=
  (s.running[Key.relay pid]?).bind fun entry ↦
    match entry.kind with
    | .relay r => some (entry, r)
    | .external .. => none

/-- The entry of an external execution, with its reservation and its server. -/
def externalEntry (s : State) (reservation : ℕ) : Option (Entry × ℕ × ℕ) :=
  (s.running[Key.executor reservation]?).bind fun entry ↦
    match entry.kind with
    | .relay _ => none
    | .external reservation server => some (entry, reservation, server)

/-- `execution_message(s, relay, entry, {:outcome, outcome})`. -/
def relayOutcome (s : State) (pid : ℕ) (entry : Entry) (r : Relay) (o : Normalized) (w : Settling) :
    Option State :=
  if !r.settled && r.released then
    match s.engine.hot[entry.id]? with
    | none => none
    | some job =>
      if job.state = .executing ∧ job.execution = entry.execution ∧
          some job.revision = entry.execution then do
        let e ← (Outcome.event job o w.timestamp w.draws).toOption
        let c ← (Engine.commit vm s.engine (some job) e none (w.writer s.engine)).toOption
        return finishRuntime
          (putRelay { s with engine := c.state } pid entry ({ · with settled := true })) pid
      else some s
  else some s

/-- `execution_message(s, relay, entry, :dead)`. -/
def relayDead (s : State) (pid : ℕ) (entry : Entry) (r : Relay) : Option State :=
  if entry.execution.isSome && !r.released && !r.settled then none
  else some (finishRuntime (putRelay s pid entry ({ · with dead := true })) pid)

/-- `{:tay_execution, relay, ticket, generation, execution, message}`, before drains complete. -/
def executionMessage (s : State) (pid ticket : ℕ) (execution : Option ℕ) (m : RelayMessage)
    (w : Settling) : Option State :=
  match relayEntry s pid with
  | none => some s
  | some (entry, r) =>
    if r.ticket = ticket ∧ (execution = entry.execution ∨ (execution = none ∧ r.released = false)) then
      match m with
      | .outcome o => relayOutcome vm s pid entry r o w
      | .dead => relayDead s pid entry r
    else some s

/-! ## Commands -/

inductive Command
  | insert (e : JobEvent) (mode : Durability)
  | auxiliary (e : AuxEvent)
  /-- `stopping` is what `lifecycle_barrier?` finds of a fenced operation. -/
  | cancel (id : JobId) (revision timestamp : ℕ) (stopping : Bool) (w : Settling)
  | retry (id : JobId) (revision timestamp : ℕ) (stopping : Bool)
  | pauseQueue (queue : Binary)
  | resumeQueue (queue : Binary)

/-- `cancel_task`. -/
def cancelTask (s : State) (id : JobId) (w : Settling) : Option State :=
  match s.executions[id]? with
  | none => some s
  | some (.executor reservation) =>
    match externalEntry s reservation with
    | none => some s
    | some (entry, _, server) => do
      let r ← s.link.call server (.cancel reservation) w.cancelling
      settle vm { s with link := r.1 } (.executor reservation) entry reservation server .cancelled w
  | some (.relay pid) =>
    match s.running[Key.relay pid]? with
    | none => none
    | some entry =>
      some (finishRuntime (putRelay s pid entry ({ · with settled := true })) pid)

/-- `mutate`, up to the commit: the job, if the command is not refused. -/
def mutable? (s : State) (id : JobId) (revision : ℕ) (stopping : Bool)
    (allowed : JobState → Bool) : Option Job :=
  if s.lifecycleFenced.isSome && stopping then none
  else (Engine.ProjectionState.lookup s.engine id).filter fun job ↦
    job.revision == revision && allowed job.state

/-- `Commands.execute`. A refused command leaves the state. -/
def command (s : State) (writer : Engine.State → Engine.Environment) : Command → Option State
  | .insert e mode =>
    if s.mode = .ready then
      onCommit (Engine.perform vm s.engine (.insert e mode) (writer s.engine))
        (fun r ↦ some { s with engine := r.1 }) (some s)
    else some s
  | .auxiliary e =>
    onCommit (Engine.perform vm s.engine (.auxiliary e) (writer s.engine))
      (fun r ↦ some { s with engine := r.1 }) (some s)
  | .cancel id revision timestamp stopping w =>
    match mutable? s id revision stopping fun state ↦ !state.terminal with
    | none => some s
    | some job =>
      onCommit (Engine.commit vm s.engine (some job)
          ⟨id, job.revision, timestamp, .cancelled job.execution⟩ none (writer s.engine))
        (fun c ↦ cancelTask vm { s with engine := c.state } id w) (some s)
  | .retry id revision timestamp stopping =>
    match mutable? s id revision stopping fun state ↦ state == .retryable || state == .discarded with
    | none => some s
    | some job =>
      onCommit (Engine.commit vm s.engine (some job) ⟨id, job.revision, timestamp,
          .retried (if job.state = .discarded then 1 else 0) timestamp⟩ none (writer s.engine))
        (fun c ↦ some { s with engine := c.state }) (some s)
  | .pauseQueue queue =>
    some (if queue ∈ s.queues then { s with paused := insert queue s.paused } else s)
  | .resumeQueue queue =>
    some (if queue ∈ s.queues then { s with paused := s.paused.erase queue } else s)

/-- The commands of one message or one flushed group, in their order. -/
def commands (s : State) : List (Command × (Engine.State → Engine.Environment)) → Option State
  | [] => some s
  | (c, writer) :: rest => (command vm s writer c).bind fun next ↦ commands next rest

/-! ## The engine's messages -/

inductive Event
  /-- A command that is not batched, or the flush of a group of them. -/
  | commands (cs : List (Command × (Engine.State → Engine.Environment)))
  | drain (permit caller : ℕ)
  | drainDeadline (permit : ℕ)
  /-- `lifecycle_drain`; `policy` is a drain asked for with an expected source, and `same` says
  whether the source is still that one. -/
  | lifecycleDrain (token : ℕ) (policy same : Bool)
  | policyDrainCancel (token : ℕ)
  | executorServerReady (pid : ℕ)
  /-- The oldest completion on its way. -/
  | executorCompletion (w : Settling)
  | executorTimeout (reservation : ℕ) (execution : Option ℕ) (w : Settling)
  | controlScheduler (now : ℕ) (id : JobId) (timestamp : ℕ)
      (writer : Engine.State → Engine.Environment)
  | controlQueue (now : ℕ) (queue : Binary) (c : Claim)
  | execution (pid ticket : ℕ) (execution : Option ℕ) (m : RelayMessage) (w : Settling)
  /-- A message of an online compaction. -/
  | compaction (a : Engine.Action)
  /-- A turn of the executor server. -/
  | turn (t : Turn)

/-- `{:executor_completion, server, reservation, result}`. -/
def executorCompletion (s : State) (server reservation : ℕ) (result : Completion) (w : Settling) :
    Option State :=
  if s.executorServer = some server then
    match externalEntry s reservation with
    | some (entry, r, server) =>
      settle vm s (.executor reservation) entry r server (.ofCompletion result) w
    | none => some s
  else some s

/-- `{:executor_timeout, reservation, execution}`. -/
def executorTimeout (s : State) (reservation : ℕ) (execution : Option ℕ) (w : Settling) :
    Option State :=
  match externalEntry s reservation with
  | some (entry, r, server) =>
    if entry.execution = execution then do
      let l ← s.link.call server (.cancel reservation) w.cancelling
      settle vm { s with link := l.1 } (.executor reservation) entry r server .timeout w
    else some s
  | none => some s

/-- Whether a message belongs to an online compaction. -/
def ofCompaction : Engine.Action → Bool
  | .command .. => false
  | _ => true

/-- One message, handled to its end. New relays and new drain permits are new. -/
def step (s : State) : Event → Option State
  | .commands cs => (commands vm s cs).map completeDrains
  | .drain permit caller =>
    if permit ∈ s.requested then none
    else some (completeDrains
      { s with
        mode := .draining
        drainers := s.drainers.insert permit caller
        requested := s.requested ++ [permit] })
  | .drainDeadline permit =>
    some (match s.drainers[permit]? with
      | none => s
      | some _ =>
        { s with drainers := s.drainers.erase permit, sent := s.sent ++ [.drain permit false] })
  | .lifecycleDrain token policy same =>
    some (if policy && (s.mode != .ready || !same) then s
      else completeDrains { s with mode := .draining, lifecycleOperation := some token })
  | .policyDrainCancel token =>
    some (if s.lifecycleOperation = some token ∨ s.lifecycleFenced = some token then
      { s with mode := .ready, lifecycleOperation := none, lifecycleFenced := none } else s)
  | .executorServerReady pid =>
    if pid = s.link.pid then some { s with executorServer := some pid } else none
  | .executorCompletion w =>
    match s.link.completions with
    | [] => none
    | (server, reservation, result) :: rest =>
      executorCompletion vm { s with link := { s.link with completions := rest } } server
        reservation result w
  | .executorTimeout reservation execution w => executorTimeout vm s reservation execution w
  | .controlScheduler now id timestamp writer =>
    let s := releasePending s now
    if s.mode = .ready then makeAvailable vm s id timestamp writer else some s
  | .controlQueue now queue c =>
    if (s.running[Key.relay c.relay]?).isSome then none
    else controlQueue vm (releasePending s now) queue c
  | .execution pid ticket execution m w =>
    (executionMessage vm s pid ticket execution m w).map completeDrains
  | .compaction a =>
    if ofCompaction a then
      (Engine.handle vm s.engine a).toOption.map fun engine ↦ { s with engine := engine }
    else none
  | .turn t => (s.link.turn t).map fun link ↦ { s with link := link }

/-- A generation starts on a recovered store, once the interrupted executions are reconciled: nothing
runs, every queue has all its slots, and no executor is connected. -/
structure Starts (s : State) : Prop where
  store : ∃ d config r segment writer interruptions,
    Reader.recover vm d (candidate config.candidateLimits config.valueLimits) = .ok r ∧
      Engine.reconcileBatch vm writer (Engine.countInterrupted (Engine.init config r segment))
        interruptions = .ok s.engine
  running : s.running = ∅
  executions : s.executions = ∅
  slots : ∀ q : Binary, s.slots[q]? = (s.queueLimits[q]?).map fun _ ↦ 0
  held : s.held = ∅
  mode : s.mode = .ready
  drainers : s.drainers = ∅
  requested : s.requested = []
  sent : s.sent = []
  settled : s.settled = []
  link : s.link.server = Link.restarted s.link.server ∧ s.link.inbox = [] ∧
    s.link.completions = []

def machine : Machine State Event where
  initial := Starts vm
  step := step vm

end Tay.Execution
