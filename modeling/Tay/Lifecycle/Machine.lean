import Tay.Foundation.Run
import Tay.Lifecycle.State

/-!
# The guardian at work

One clause for each message, in the order of the source, and the machine around them. A label is
something another process does, or the guardian taking the next message out of its mailbox.

The environment is free but for what the claims of the source rest on: a caller claims only a free
slot, under a token of its own; a process that dies is reported once to whoever watches it; a writer
that poisons itself says so at once; and an engine announces itself ready only after its writer has
answered that it is.
-/

open Foundation

namespace Tay.Lifecycle

namespace World

variable (w : World) (oracle : Oracle)

/-! ## Admission -/

/-- `{:reserve, generation, {slot, token}, bytes}`. -/
def handleReserve (owner generation : ℕ) (slot : Slot) (token bytes : ℕ) : World :=
  match w.slots slot with
  | none => w
  | some h =>
    if h.token = token ∧ h.owner = owner ∧ h.stage = .claimed then
      if w.admissionReady? generation && oracle.now < h.expires then
        match Memory.reserve w.settings.maxStateBytes w.counter bytes with
        | none => w.setSlot slot none
        | some counter =>
          let ref := w.fresh
          let w := w.monitor (.owner slot token) owner
          { w.setSlot slot (some { h with stage := .reserved }) with
            counter
            permits := ((slot, token), ref) :: w.permits
            memoryPermits := ((slot, token), bytes) :: w.memoryPermits }
      else w.setSlot slot none
    else w

/-- `{:submit, generation, {slot, token}, payload}`. -/
def handleSubmit (owner generation : ℕ) (slot : Slot) (token : ℕ) : World :=
  match w.slots slot with
  | none => w
  | some h =>
    if h.token = token ∧ h.owner = owner ∧ h.stage = .reserved then
      if w.admissionReady? generation then
        (w.setSlot slot (some { h with stage := .submitted })).enqueueCommand
          ⟨generation, slot, token, owner⟩
      else w.release slot token
    else w

/-- `{:cancel_reservation, owner, {slot, token}}`. -/
def handleCancel (owner : ℕ) (slot : Slot) (token : ℕ) : World :=
  match w.slots slot with
  | none => w
  | some h =>
    if h.token = token ∧ h.owner = owner ∧ h.stage ≠ .submitted then w.release slot token else w

/-- `{:completed, engine, slot, token, from, reply, snapshot}`. -/
def handleCompleted (engine : ℕ) (slot : Slot) (token owner : ℕ) (mode : Mode) : World :=
  if w.engine = some engine then
    match w.slots slot with
    | none => w
    | some h =>
      if h.token = token ∧ h.owner = owner ∧ h.stage = .submitted then
        (((w.mergeSnapshot mode).finishDelivery slot token).release slot token).dispatch
          w.settings.window
      else w
  else w

/-- The `DOWN` of a caller: only a reservation is given up, never submitted work. -/
def handleOwnerDown (slot : Slot) (token : ℕ) : World :=
  match w.slots slot with
  | none => w
  | some h => if h.token = token ∧ h.stage = .reserved then w.release slot token else w

/-- Whether `:reap` frees a row. -/
def expired (h : Hold) : Bool := h.stage = .claimed && (h.expires ≤ oracle.now || !w.alive h.owner)

/-- `:reap`, over the slots and the row of the operation. -/
def handleReap : World :=
  { w with
    slots := fun slot ↦ (w.slots slot).filter fun h ↦ !w.expired oracle h
    row := w.row.filter fun r ↦
      !(r.stage = .claimed && (r.deadline ≤ oracle.now || !w.alive r.owner)) }

/-! ## Attachments -/

/-- Without a fence there must be no runtime either. -/
def fenceLive? : Bool := if w.fence.isNone then w.runtime.isNone else oracle.fenceLive

/-- `{:ready, snapshot}`. -/
def handleReady (engine : ℕ) : World :=
  if w.engine = some engine ∧ w.status.state = .recovering ∧ w.liveProcess w.writer ∧
      w.fenceLive? oracle then
    w.publish (.transition .ready)
  else w

/-! ## Operations -/

/-- Whether an operation may start now. -/
def startable (generation : ℕ) (kind : Kind) (force : Bool) (deadline : ℕ) (valid : Bool) : Bool :=
  w.operation.isNone && generation = w.generation && oracle.now < deadline && valid &&
    match kind with
    | .compact => w.status.state = .ready && !force
    | _ => [StateName.ready, .draining, .drained, .stopped, .failed].contains w.status.state || force

/-- `{:operation, generation, token, kind, force, deadline, ...}`. -/
def handleOperation (owner generation token : ℕ) (kind : Kind) (force : Bool) (deadline : ℕ)
    (valid : Bool) : World :=
  if w.row = some ⟨token, owner, .claimed, deadline⟩ then
    if w.startable oracle generation kind force deadline valid then
      let closeNow := force || [StateName.stopped, .failed].contains w.status.state
      let w := { w with
        row := some ⟨token, owner, .submitted, deadline⟩
        operation := some ⟨token, kind, owner, deadline, kind.firstPhase, none, none⟩ }
      if closeNow then w.beginClosing
      else match kind with
        | .compact => w.publish ⟨.compacting, some .preparing⟩
        | _ => (w.publish ⟨.draining, some .draining⟩).flushCommands
    else { w with row := none }
  else w

/-- `{:automatic_compaction, ...}`: the policy claims the row and starts a compaction. -/
def handleAutomatic (policy token generation deadline : ℕ) : World :=
  if w.settings.policy = some policy ∧ w.policyReady oracle ∧ generation = w.generation ∧
      w.row = none then
    { w with row := some ⟨token, policy, .claimed, deadline⟩ }.handleOperation oracle policy
      generation token .compact false deadline true
  else w

/-- The operation, if it is the engine's, has this token, and satisfies `p`. -/
def current (engine token : ℕ) (p : Operation → Bool) : Option Operation :=
  if w.engine = some engine then w.operation.filter fun o ↦ o.token = token && p o else none

def inCompaction (phases : List Phase) (o : Operation) : Bool :=
  o.kind = .compact && phases.contains o.phase

/-- `operation_source_changed`. -/
def handleSourceChanged (engine token : ℕ) : World :=
  match w.current engine token (inCompaction [.draining, .compacting]) with
  | none => w
  | some _ => (w.publish (.transition .ready)).finishOperation

/-- `operation_policy_draining`. -/
def handlePolicyDraining (engine token : ℕ) : World :=
  match w.current engine token (inCompaction [.draining]) with
  | none => w
  | some _ => (w.publish (.transition .draining)).finishOperation

/-- `online_compaction_unsupported`: drain, and compact without serving. -/
def handleUnsupported (engine token : ℕ) : World :=
  match w.current engine token (inCompaction [.compacting]) with
  | none => w
  | some o =>
    ({ w with operation := some { o with phase := .draining } }.publish
      ⟨.migrating, some .draining⟩).flushCommands

/-- `online_compaction_switch_requested`. -/
def handleSwitchRequested (engine token : ℕ) : World :=
  match w.current engine token (inCompaction [.compacting]) with
  | none => w
  | some _ => (w.publish ⟨.compacting, some .switching⟩).flushCommands

/-- `online_compaction_result`: success and failure alike publish the generation as ready. -/
def handleOnlineResult (engine token : ℕ) : World :=
  match w.current engine token (inCompaction [.compacting]) with
  | none => w
  | some _ => (w.publish (.transition .ready)).finishOperation

/-- `expire_operation`: a drain is given up, anything later goes on without its caller. -/
def expireOperation : World :=
  match w.operation with
  | none => w
  | some o =>
    if o.phase = .draining then
      (if w.settings.policy = some o.owner then w.publish (.transition .ready)
        else w).finishOperation
    else w

/-- `operation_drained`. -/
def handleDrained (engine token : ℕ) : World :=
  match w.current engine token (·.phase = .draining) with
  | none => w
  | some o =>
    if o.deadline ≤ oracle.now then w.expireOperation
    else match transitions o.kind o.phase .drained with
      | some .compacting => { w with operation := some { o with phase := .compacting } }
      | some .closing => w.closeGeneration { o with phase := .closing }
      | _ => w

/-- `compaction_result`: the generation is closed either way. -/
def handleCompactionResult (engine token : ℕ) : World :=
  match w.current engine token (inCompaction [.compacting]) with
  | none => w
  | some _ => w.beginClosing

/-- `operation_starting`, a call of the driver. -/
def handleStarting (driver token : ℕ) : World :=
  match w.operation with
  | none => w
  | some o =>
    if o.token = token ∧ o.driver = some driver ∧ o.phase = .closing then
      match transitions o.kind o.phase .starting with
      | none => w
      | some phase =>
        { w.resetGeneration with
          row := some ⟨token, o.owner, .starting, o.deadline⟩
          operation := some { o with phase } }
    else w

/-- Whether the replacement came up. -/
def restarted : Bool :=
  w.status.state = .ready && w.liveProcess w.engine && w.liveProcess w.writer &&
    w.runtimeLive oracle

/-- `operation_result`. -/
def handleResult (driver token : ℕ) (result : DriverResult) : World :=
  match w.operation with
  | none => w
  | some o =>
    if o.driver = some driver ∧ o.token = token then
      (match o.kind, result with
        | .stop, .ok | .stop, .ownershipUnconfirmed => w.stopped
        | .restart, .ok | .compact, .ok => if w.restarted oracle then w else w.revoke
        | _, _ => w.revoke).finishOperation
    else w

/-! ## Losses -/

/-- `{Writer, writer, event}`. A notice is dropped while the generation is being closed; that a
writer is poisoned is dropped during a compaction as well. -/
def handleWriterEvent (writer : ℕ) (event : WriterEvent) : World :=
  if w.writer = some writer then
    if w.operation.any (·.phase = .closing) then w
    else if event = .poisoned ∧ w.compacting? then w
    else w.revoke
  else w

/-- `{LocalFence, _, :revoked, generation}`. -/
def handleFenceRevoked (generation : ℕ) : World :=
  if w.generation = generation then
    if w.operation.any (·.phase = .closing) then w else w.revoke
  else w

/-- The `DOWN` of the engine, the writer, the runtime or the fence. -/
def handleComponentDown : World :=
  if w.operation.any (·.phase = .compacting) then w.finishOperation.revoke
  else if w.operation.any (·.phase = .closing) then w
  else w.revoke

/-- `{:DOWN, ref, ...}`. -/
def handleDown (ref : ℕ) : World :=
  match w.monitors.find? (·.ref == ref) with
  | none => w
  | some m =>
    match m.watch with
    | .engine | .writer | .runtime | .fence => w.handleComponentDown
    | .driver => w.revoke.finishOperation
    | .owner slot token => w.handleOwnerDown slot token

/-- One message. -/
def handle : Message → World
  | .reserve owner generation slot token bytes =>
    w.handleReserve oracle owner generation slot token bytes
  | .submit owner generation slot token => w.handleSubmit owner generation slot token
  | .cancelReservation owner slot token => w.handleCancel owner slot token
  | .completed engine slot token owner mode => w.handleCompleted engine slot token owner mode
  | .executionSnapshot engine mode => if w.engine = some engine then w.mergeSnapshot mode else w
  | .commandYielded engine slot token =>
    if w.engine = some engine then (w.finishDelivery slot token).dispatch w.settings.window else w
  | .attachRuntime runtime =>
    if w.runtime.isNone then { w.monitor .runtime runtime with runtime := some runtime } else w
  | .attachEngine engine =>
    if w.engine.isNone then { w.monitor .engine engine with engine := some engine } else w
  | .attachWriter engine writer =>
    if w.engine = some engine ∧ w.writer.isNone then
      { w.monitor .writer writer with writer := some writer }
    else w
  | .attachFence engine fence =>
    if w.engine = some engine ∧ w.fence.isNone then
      { w.monitor .fence fence with fence := some fence }
    else w
  | .ready engine => w.handleReady oracle engine
  | .reconciliation engine =>
    if w.engine = some engine ∧ w.status.state = .recovering then
      w.publish ⟨.recovering, some .reconciling⟩
    else w
  | .operation owner generation token kind force deadline valid =>
    w.handleOperation oracle owner generation token kind force deadline valid
  | .automaticCompaction policy token generation deadline =>
    w.handleAutomatic oracle policy token generation deadline
  | .cancelOperationClaim owner token =>
    if w.row.any fun r ↦ r.token = token && r.owner = owner && r.stage = .claimed then
      { w with row := none }
    else w
  | .operationStarting driver token => w.handleStarting driver token
  | .operationResult driver token result => w.handleResult oracle driver token result
  | .operationDeadline token =>
    if w.operation.any (·.token = token) then w.expireOperation else w
  | .sourceChanged engine token => w.handleSourceChanged engine token
  | .policyDraining engine token => w.handlePolicyDraining engine token
  | .onlineUnsupported engine token => w.handleUnsupported engine token
  | .switchRequested engine token => w.handleSwitchRequested engine token
  | .onlineResult engine token _ => w.handleOnlineResult engine token
  | .operationDrained engine token => w.handleDrained oracle engine token
  | .compactionResult engine token _ => w.handleCompactionResult engine token
  | .writerEvent writer event => w.handleWriterEvent writer event
  | .fenceRevoked generation => w.handleFenceRevoked generation
  | .down ref => w.handleDown ref
  | .reap => w.handleReap oracle

end World

/-! ## The machine -/

inductive Label
  /-- A caller wins the compare-and-swap on a free slot. -/
  | claim (slot : Slot) (owner expires : ℕ)
  /-- An administrator claims the row of operations. -/
  | claimOperation (owner deadline : ℕ)
  /-- A message arrives. -/
  | send (m : Message)
  /-- A process starts and announces itself: an engine, or the writer of an engine. -/
  | startEngine
  | startWriter (engine : ℕ)
  | poison (writer : ℕ)
  | kill (p : ℕ)
  /-- The engine has recovered a state of so many bytes. -/
  | recover (bytes : ℕ)
  /-- The engine acts on the memory budget, inside a commit. -/
  | act (action : Memory.Action)
  /-- The guardian handles its next message. -/
  | handle (oracle : Oracle)
  deriving Repr

namespace World

variable (w : World)

/-- A slot of the configured table. -/
def inTable : Slot → Bool
  | .client index | .schedule index => 1 ≤ index && index ≤ w.settings.clientSlots

/-- Messages that are not a consequence of something modelled: those come from `kill`, `poison`,
`startEngine` and `startWriter`, and an engine is ready only while its writer is not poisoned. -/
def sendable : Message → Bool
  | .down _ | .attachEngine _ | .attachWriter .. => false
  | .writerEvent _ event => event = .closed
  | .ready engine => w.engine = some engine && w.writer.any fun p ↦ p ∉ w.poisoned
  | _ => true

def post (m : Message) : World := { w with mailbox := w.mailbox ++ [m] }

/-- What an action of the engine does to the counter and to its accounts. -/
def perform (a : Accounts) : Memory.Action → Option World
  | .reserve bytes =>
    (Memory.reserve w.settings.maxStateBytes w.counter bytes).map fun counter ↦
      { w with counter, accounts := some { a with held := a.held + bytes } }
  | .release bytes =>
    some { w with
      counter := Memory.release w.counter bytes
      accounts := some { a with held := a.held - bytes } }
  | .account delta =>
    some { w with accounts := some { a with bytes := a.bytes + delta, held := a.held - delta } }

def step (w : World) : Label → Option World
  | .claim slot owner expires =>
    if w.inTable slot ∧ w.slots slot = none then
      some { w.setSlot slot (some ⟨w.fresh, owner, .claimed, expires⟩) with fresh := w.fresh + 1 }
    else none
  | .claimOperation owner deadline =>
    if w.row = none then
      some { w with row := some ⟨w.fresh, owner, .claimed, deadline⟩, fresh := w.fresh + 1 }
    else none
  | .send m => if w.sendable m then some (w.post m) else none
  | .startEngine => some { w.post (.attachEngine w.fresh) with fresh := w.fresh + 1 }
  | .startWriter engine => some { w.post (.attachWriter engine w.fresh) with fresh := w.fresh + 1 }
  | .poison writer =>
    if writer ∉ w.poisoned ∧ w.alive writer then
      some { w.post (.writerEvent writer .poisoned) with poisoned := insert writer w.poisoned }
    else none
  | .kill p => some (w.kill p)
  | .recover bytes =>
    match w.engine, w.accounts with
    | some engine, none =>
      if w.alive engine then
        (Memory.reserve w.settings.maxStateBytes w.counter bytes).map fun counter ↦
          { w with counter, accounts := some ⟨engine, bytes, 0⟩ }
      else none
    | _, _ => none
  | .act action => w.accounts.bind fun a ↦ w.perform a action
  | .handle oracle =>
    match w.mailbox with
    | [] => none
    | m :: rest => some ({ w with mailbox := rest }.handle oracle m)

/-- A guardian that has just started: every slot free, nothing attached. -/
structure Starts (w : World) : Prop where
  slots : ∀ slot, w.slots slot = none
  row : w.row = none
  status : w.status = .transition .recovering
  operation : w.operation = none
  engine : w.engine = none
  writer : w.writer = none
  monitors : w.monitors = []
  permits : w.permits = []
  memoryPermits : w.memoryPermits = []
  counter : w.counter = 0
  accounts : w.accounts = none
  mailbox : w.mailbox = []
  poisoned : w.poisoned = ∅

/-- `init`: the table is made, and the first generation begins. -/
def init (settings : Settings) : World where
  settings := settings
  slots _ := none
  row := none
  generation := 0
  status := .transition .recovering
  operation := none
  engine := none
  writer := none
  runtime := none
  fence := none
  monitors := []
  permits := []
  memoryPermits := []
  delivery := .new
  counter := 0
  accounts := none
  mailbox := []
  sent := []
  dead := ∅
  poisoned := ∅
  fresh := 1
  clears := 0

theorem starts_init (settings : Settings) : Starts (init settings) :=
  ⟨fun _ ↦ rfl, rfl, rfl, rfl, rfl, rfl, rfl, rfl, rfl, rfl, rfl, rfl, rfl⟩

end World

/-- The guardian and its surroundings. -/
def machine : Machine World Label where
  initial := World.Starts
  step := World.step

end Tay.Lifecycle
