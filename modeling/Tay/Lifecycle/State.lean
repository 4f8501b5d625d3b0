import Mathlib.Data.Finset.Card
import Mathlib.Logic.Function.Basic
import Tay.State.Memory

/-!
# The guardian of an engine

`Tay.Engine.Lifecycle` with `Lifecycle.Operations`, `Lifecycle.Operation`, `Lifecycle.CommandDelivery`
and `Tay.Engine.Admission`: the process that outlives every generation of the engine. It owns the
admission table, charges the shared memory budget for admitted payloads, publishes the status, and
carries out the administrative operations that replace a generation.

Callers claim a slot of the table by a compare-and-swap of their own; everything else about a slot is
decided by the guardian, one message at a time. Its mailbox is a list in order of arrival. Processes,
monitors, tokens and generations are numbers taken from one supply, so that each is new.

Left out are values that are carried and never decided on: replies to callers, snapshots but for the
mode they report, retentions, statistics of a compaction, timers, the policy's estimates and the calls
of execution relays. The engine, the writer, the driver of an operation and the local fence are the
environment: what they send arrives as labels, and what the guardian asks of them while it handles a
message is answered by the environment too.
-/

namespace Tay.Lifecycle

/-! ## Slots -/

/-- The two kinds of admission slot: `index` and `{:schedule, index}`. -/
inductive Slot
  | client (index : ℕ)
  | schedule (index : ℕ)
  deriving DecidableEq, Repr

inductive Stage
  | claimed
  | reserved
  | submitted
  deriving DecidableEq, Repr

/-- A taken row of the table; a free slot has none. -/
structure Hold where
  token : ℕ
  owner : ℕ
  stage : Stage
  expires : ℕ
  deriving DecidableEq, Repr

/-! ## Status and operations -/

inductive StateName
  | recovering
  | ready
  | compacting
  | draining
  | drained
  | migrating
  | stopping
  | stopped
  | failed
  deriving DecidableEq, Repr

inductive PhaseName
  | reconciling
  | preparing
  | switching
  | draining
  deriving DecidableEq, Repr

structure Status where
  state : StateName
  phase : Option PhaseName
  deriving DecidableEq, Repr

/-- `Status.transition`: a new state without the phase of the old one. -/
def Status.transition (state : StateName) : Status := ⟨state, none⟩

/-- The mode of the engine, which a snapshot reports. -/
inductive Mode
  | ready
  | draining
  | drained
  deriving DecidableEq, Repr

def Mode.state : Mode → StateName
  | .ready => .ready
  | .draining => .draining
  | .drained => .drained

inductive Kind
  | stop
  | restart
  | compact
  deriving DecidableEq, Repr

inductive Phase
  | draining
  | compacting
  | closing
  | starting
  deriving DecidableEq, Repr

/-- The phase an operation begins in. -/
def Kind.firstPhase : Kind → Phase
  | .compact => .compacting
  | _ => .draining

inductive Event
  | drained
  | close
  | offlineFallback
  | starting
  deriving DecidableEq, Repr

/-- `Operation.@transitions`. -/
def transitions : Kind → Phase → Event → Option Phase
  | .stop, .draining, .drained => some .closing
  | .restart, .draining, .drained => some .closing
  | .compact, .draining, .drained => some .compacting
  | .stop, .draining, .close => some .closing
  | .restart, .draining, .close => some .closing
  | .compact, .compacting, .close => some .closing
  | .compact, .compacting, .offlineFallback => some .draining
  | .restart, .closing, .starting => some .starting
  | .compact, .closing, .starting => some .starting
  | _, _, _ => none

structure Operation where
  token : ℕ
  kind : Kind
  owner : ℕ
  deadline : ℕ
  phase : Phase
  driver : Option ℕ
  monitor : Option ℕ
  deriving DecidableEq, Repr

/-- The row `:operation` of the table. -/
inductive RowStage
  | claimed
  | submitted
  | closing
  | starting
  deriving DecidableEq, Repr

structure Row where
  token : ℕ
  owner : ℕ
  stage : RowStage
  deadline : ℕ
  deriving DecidableEq, Repr

/-! ## Messages -/

/-- What a monitor watches. -/
inductive Watch
  | engine
  | writer
  | runtime
  | fence
  | driver
  | owner (slot : Slot) (token : ℕ)
  deriving DecidableEq, Repr

structure Monitor where
  ref : ℕ
  watch : Watch
  target : ℕ
  deriving DecidableEq, Repr

inductive WriterEvent
  | poisoned
  | closed
  deriving DecidableEq, Repr

/-- What the driver of an operation reports. -/
inductive DriverResult
  | ok
  | ownershipUnconfirmed
  | error
  deriving DecidableEq, Repr

inductive Message
  | reserve (owner generation : ℕ) (slot : Slot) (token bytes : ℕ)
  | submit (owner generation : ℕ) (slot : Slot) (token : ℕ)
  | cancelReservation (owner : ℕ) (slot : Slot) (token : ℕ)
  | completed (engine : ℕ) (slot : Slot) (token owner : ℕ) (mode : Mode)
  | executionSnapshot (engine : ℕ) (mode : Mode)
  | commandYielded (engine : ℕ) (slot : Slot) (token : ℕ)
  | attachRuntime (runtime : ℕ)
  | attachEngine (engine : ℕ)
  | attachWriter (engine writer : ℕ)
  | attachFence (engine fence : ℕ)
  | ready (engine : ℕ)
  | reconciliation (engine : ℕ)
  /-- `valid` says whether the retention is. -/
  | operation (owner generation token : ℕ) (kind : Kind) (force : Bool) (deadline : ℕ)
      (valid : Bool)
  | automaticCompaction (policy token generation deadline : ℕ)
  | cancelOperationClaim (owner token : ℕ)
  | operationStarting (driver token : ℕ)
  | operationResult (driver token : ℕ) (result : DriverResult)
  | operationDeadline (token : ℕ)
  | sourceChanged (engine token : ℕ)
  | policyDraining (engine token : ℕ)
  | onlineUnsupported (engine token : ℕ)
  | switchRequested (engine token : ℕ)
  | onlineResult (engine token : ℕ) (ok : Bool)
  | operationDrained (engine token : ℕ)
  | compactionResult (engine token : ℕ) (ok : Bool)
  | writerEvent (writer : ℕ) (event : WriterEvent)
  | fenceRevoked (generation : ℕ)
  | down (ref : ℕ)
  | reap
  deriving DecidableEq, Repr

/-- A command on its way to the engine. -/
structure Command where
  generation : ℕ
  slot : Slot
  token : ℕ
  owner : ℕ
  deriving DecidableEq, Repr

/-- `CommandDelivery`. -/
structure Delivery where
  pending : List Command
  active : Finset (Slot × ℕ)

def Delivery.new : Delivery := ⟨[], ∅⟩

/-- What the live engine has of the memory budget: the bytes it accounts for, and what a commit
under way holds beyond them. -/
structure Accounts where
  engine : ℕ
  bytes : ℤ
  held : ℤ
  deriving DecidableEq, Repr

structure Settings where
  clientSlots : ℕ
  maxStateBytes : ℕ
  /-- `engine_command_window`. -/
  window : ℕ
  /-- Whether executions run at all; without them there is neither runtime nor fence. -/
  execution : Bool
  policy : Option ℕ
  deriving Repr

structure World where
  settings : Settings
  slots : Slot → Option Hold
  row : Option Row
  generation : ℕ
  status : Status
  operation : Option Operation
  engine : Option ℕ
  writer : Option ℕ
  runtime : Option ℕ
  fence : Option ℕ
  monitors : List Monitor
  /-- The monitor of each reservation. -/
  permits : List ((Slot × ℕ) × ℕ)
  memoryPermits : List ((Slot × ℕ) × ℕ)
  delivery : Delivery
  /-- The counter of the memory budget. -/
  counter : ℤ
  accounts : Option Accounts
  mailbox : List Message
  /-- Commands sent to the engine. -/
  sent : List Command
  dead : Finset ℕ
  /-- Writers that have poisoned themselves. -/
  poisoned : Finset ℕ
  /-- The next new number. -/
  fresh : ℕ
  /-- Record: how often a generation has been cleared. -/
  clears : ℕ

/-- What the environment answers while a message is handled. -/
structure Oracle where
  now : ℕ
  fenceLive : Bool
  deriving Repr

/-! ## Processes -/

namespace World

variable (w : World)

def alive (p : ℕ) : Bool := p ∉ w.dead

/-- A process ends: its monitors fire, and an engine's accounts go with it. -/
def kill (p : ℕ) : World :=
  if w.alive p then
    { w with
      dead := insert p w.dead
      mailbox := w.mailbox ++
        (w.monitors.filter fun m ↦ m.target = p).map fun m ↦ Message.down m.ref
      accounts := w.accounts.filter fun a ↦ a.engine ≠ p }
  else w

/-- `Process.monitor`; a process that is gone is reported at once. -/
def monitor (watch : Watch) (target : ℕ) : World :=
  { w with
    monitors := ⟨w.fresh, watch, target⟩ :: w.monitors
    mailbox := if w.alive target then w.mailbox else w.mailbox ++ [.down w.fresh]
    fresh := w.fresh + 1 }

/-- `Process.demonitor` with `:flush`, on every monitor that `p` selects. -/
def demonitor (p : Monitor → Bool) : World :=
  { w with
    monitors := w.monitors.filter fun m ↦ !p m
    mailbox := w.mailbox.filter fun
      | .down ref => !w.monitors.any fun m ↦ m.ref == ref && p m
      | _ => true }

def publish (status : Status) : World := { w with status }

def setSlot (slot : Slot) (hold : Option Hold) : World :=
  { w with slots := Function.update w.slots slot hold }

/-! ## Admission -/

def compacting? : Bool :=
  w.operation.any fun o ↦ o.kind = .compact && o.phase = .compacting

/-- `admission_ready?`. -/
def admissionReady? (generation : ℕ) : Bool :=
  w.generation = generation &&
    ((!w.operation.any (·.kind = .compact) &&
        [StateName.ready, .draining, .drained].contains w.status.state) ||
      (w.compacting? && w.status.state = .compacting && w.status.phase = some .preparing))

def lookupPermit (permits : List ((Slot × ℕ) × ℕ)) (key : Slot × ℕ) : Option ℕ :=
  (permits.find? fun p ↦ p.1 = key).map (·.2)

def dropPermit (permits : List ((Slot × ℕ) × ℕ)) (key : Slot × ℕ) : List ((Slot × ℕ) × ℕ) :=
  permits.eraseP fun p ↦ p.1 = key

/-- `release`: the memory of the permit, the slot if the token still owns it, and its monitor. -/
def release (slot : Slot) (token : ℕ) : World :=
  let bytes := (lookupPermit w.memoryPermits (slot, token)).getD 0
  let w := { w with
    counter := Memory.release w.counter bytes
    memoryPermits := dropPermit w.memoryPermits (slot, token) }
  let w := if (w.slots slot).any (·.token = token) then w.setSlot slot none else w
  match lookupPermit w.permits (slot, token) with
  | none => w
  | some ref =>
    { w.demonitor (·.ref == ref) with permits := dropPermit w.permits (slot, token) }

/-- `dispatch_commands`: as many pending commands as the window has room for. -/
def dispatch (limit : ℕ) : World :=
  let room := limit - w.delivery.active.card
  let ready := w.delivery.pending.take room
  { w with
    sent := w.sent ++ ready
    delivery := ⟨w.delivery.pending.drop room,
      w.delivery.active ∪ (ready.map fun c ↦ (c.slot, c.token)).toFinset⟩ }

def enqueueCommand (c : Command) : World :=
  { w with delivery := { w.delivery with pending := w.delivery.pending ++ [c] } }.dispatch
    w.settings.window

def flushCommands : World := w.dispatch (w.delivery.active.card + w.delivery.pending.length)

def finishDelivery (slot : Slot) (token : ℕ) : World :=
  { w with delivery := { w.delivery with active := w.delivery.active.erase (slot, token) } }

/-- `merge_runtime_snapshot`: a compaction keeps the status it published. -/
def mergeSnapshot (mode : Mode) : World :=
  if [StateName.ready, .compacting, .draining, .drained, .migrating].contains w.status.state then
    if w.operation.any (·.kind = .compact) then w
    else w.publish ⟨mode.state, w.status.phase⟩
  else w

/-! ## Operations -/

/-- `finish_operation`. -/
def finishOperation : World :=
  match w.operation with
  | none => w
  | some o =>
    { w.demonitor (fun m ↦ o.monitor = some m.ref) with row := none, operation := none }

def killEngine : World := match w.engine with | some p => w.kill p | none => w

/-- `revoke`. -/
def revoke : World :=
  let w := w.publish (.transition .failed)
  let w := if w.operation.any (·.phase = .draining) then w.finishOperation else w
  { w.killEngine with delivery := .new }

/-- `close_generation`, with the operation already in its closing phase. -/
def closeGeneration (o : Operation) : World :=
  let w := { w with row := some ⟨o.token, o.owner, .closing, o.deadline⟩, operation := some o }
  let w := (w.publish (.transition .stopping)).killEngine
  let driver := w.fresh
  let w := { w with fresh := w.fresh + 1 }
  let ref := w.fresh
  let w := w.monitor .driver driver
  { w with operation := some { o with driver := some driver, monitor := some ref } }

/-- `begin_closing`; nothing where the source would fail to match. -/
def beginClosing : World :=
  match w.operation with
  | none => w
  | some o =>
    match transitions o.kind o.phase .close with
    | none => w
    | some phase => w.closeGeneration { o with phase }

/-- `clear_generation`: it frees the slots `1..slots` and forgets every monitor but the driver's. -/
def clearGeneration : World :=
  let w := w.demonitor (fun m ↦ m.watch ≠ .driver)
  { w with
    slots := fun
      | .client index =>
        if 1 ≤ index ∧ index ≤ w.settings.clientSlots then none else w.slots (.client index)
      | slot => w.slots slot
    engine := none
    writer := none
    runtime := none
    fence := none
    permits := []
    delivery := .new
    clears := w.clears + 1 }

/-- `reset_generation`. -/
def resetGeneration : World :=
  { w.clearGeneration with
    generation := w.fresh
    fresh := w.fresh + 1
    status := .transition .recovering }

/-- `stopped`. -/
def stopped : World := w.clearGeneration.publish (.transition .stopped)

/-- `runtime_live?`. -/
def runtimeLive (oracle : Oracle) : Bool :=
  match w.runtime, w.fence with
  | none, none => !w.settings.execution
  | some runtime, some _ => w.alive runtime && oracle.fenceLive
  | _, _ => false

def liveProcess (p : Option ℕ) : Bool := p.any w.alive

/-- `policy_ready`. -/
def policyReady (oracle : Oracle) : Bool :=
  w.operation.isNone && w.status.state = .ready && w.liveProcess w.engine &&
    w.liveProcess w.writer && w.runtimeLive oracle

end World

end Tay.Lifecycle
