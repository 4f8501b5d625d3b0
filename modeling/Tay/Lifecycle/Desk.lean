import Tay.Lifecycle.Poison

/-!
# Who is answered

The operations of the guardian once more, with what `Tay.Lifecycle.State` leaves out: `from`, the call
that waits for the running operation, the replies, and whether the compaction of an operation succeeded.
What a reply says beyond its kind is still left out.

Here a handler can fail, as the source does when `finish_operation` is entered without an operation or
when an asserted `Operation.advance` does not match; `handle_world` says that it otherwise does to the
guardian what the handler of the guardian does.

A request is numbered when it is taken from the mailbox. The desk also records which operations were
accepted, of what kind and under which token.
-/

open Foundation

namespace Tay.Lifecycle

/-- `:ok` and `{:ok, stats}`, `{:deferred, reason}`, `{:error, error}`. -/
inductive Reply
  | ok
  | deferred
  | error
  deriving DecidableEq, Repr

/-- An accepted operation: its token, its kind, and the request it was accepted for. -/
structure Request where
  token : ℕ
  kind : Kind
  call : ℕ
  deriving DecidableEq, Repr

structure Desk where
  world : World
  /-- `from`: the request that waits for the running operation. -/
  caller : Option ℕ
  /-- `stats`: whether the compaction of the running operation succeeded. -/
  stats : Option Bool
  /-- Record: the requests taken so far. -/
  calls : ℕ
  /-- Record: the replies, with the request each answers. -/
  replies : List (ℕ × Reply)
  /-- Record: the accepted operations, the latest first. -/
  accepted : List Request

namespace Desk

variable (d : Desk) (oracle : Oracle)

/-- A step of the guardian that answers nobody. -/
def guard (f : World → World) : Desk := { d with world := f d.world }

def reply (call : ℕ) (r : Reply) : Desk := { d with replies := d.replies ++ [(call, r)] }

/-- `if operation.from, do: GenServer.reply(operation.from, reply)`, after which nobody waits. -/
def answer (r : Reply) : Desk :=
  match d.caller with
  | some call => { d.reply call r with caller := none }
  | none => d

def finishOperation (r : Reply) : Option Desk :=
  match d.world.operation with
  | none => none
  | some _ => some { (d.answer r).guard (·.finishOperation) with stats := none }

def revoke : Option Desk :=
  let d := d.guard (·.publish (.transition .failed))
  let next := if d.world.operation.any (·.phase = .draining) then d.finishOperation .error else some d
  next.map fun d ↦ d.guard fun w ↦ { w.killEngine with delivery := .new }

def beginClosing : Option Desk :=
  match d.world.operation with
  | none => none
  | some o =>
    match transitions o.kind o.phase .close with
    | none => none
    | some phase => some (d.guard (·.closeGeneration { o with phase }))

/-- `expire_operation`: the caller of what cannot be given up any more is told that it goes on. -/
def expireOperation : Option Desk :=
  match d.world.operation with
  | none => none
  | some o =>
    if o.phase = .draining then
      (if d.world.settings.policy = some o.owner then d.guard (·.publish (.transition .ready))
        else d).finishOperation .error
    else some (d.answer .error)

/-- A request is taken, and answered at once. -/
def refuse (r : Reply) : Desk := { d.reply d.calls r with calls := d.calls + 1 }

/-- A request is taken, and waits for the operation that it begins. -/
def accept (owner token : ℕ) (kind : Kind) (deadline : ℕ) : Desk where
  world := { d.world with
    row := some ⟨token, owner, .submitted, deadline⟩
    operation := some ⟨token, kind, owner, deadline, kind.firstPhase, none, none⟩ }
  caller := some d.calls
  stats := none
  calls := d.calls + 1
  replies := d.replies
  accepted := ⟨token, kind, d.calls⟩ :: d.accepted

/-- `{:operation, generation, token, kind, force, deadline, ...}`. -/
def handleOperation (owner generation token : ℕ) (kind : Kind) (force : Bool) (deadline : ℕ)
    (valid : Bool) : Option Desk :=
  if d.world.row = some ⟨token, owner, .claimed, deadline⟩ then
    if d.world.startable oracle generation kind force deadline valid then
      let closeNow := force || [StateName.stopped, .failed].contains d.world.status.state
      let d := d.accept owner token kind deadline
      if closeNow then d.beginClosing
      else match kind with
        | .compact => some (d.guard (·.publish ⟨.compacting, some .preparing⟩))
        | _ => some (d.guard fun w ↦ (w.publish ⟨.draining, some .draining⟩).flushCommands)
    else some ((d.guard fun w ↦ { w with row := none }).refuse .error)
  else some (d.refuse .error)

/-- `{:automatic_compaction, ...}`; what is not from the attached policy is no request. -/
def handleAutomatic (policy token generation deadline : ℕ) : Option Desk :=
  if d.world.settings.policy = some policy then
    if d.world.policyReady oracle ∧ generation = d.world.generation ∧ d.world.row = none then
      (d.guard fun w ↦ { w with row := some ⟨token, policy, .claimed, deadline⟩ }).handleOperation
        oracle policy generation token .compact false deadline true
    else some (d.refuse .deferred)
  else some d

/-- `operation_source_changed`. -/
def handleSourceChanged (engine token : ℕ) : Option Desk :=
  match d.world.current engine token (World.inCompaction [.draining, .compacting]) with
  | none => some d
  | some _ => (d.guard (·.publish (.transition .ready))).finishOperation .deferred

/-- `operation_policy_draining`. -/
def handlePolicyDraining (engine token : ℕ) : Option Desk :=
  match d.world.current engine token (World.inCompaction [.draining]) with
  | none => some d
  | some _ => (d.guard (·.publish (.transition .draining))).finishOperation .deferred

/-- `online_compaction_unsupported`. -/
def handleUnsupported (engine token : ℕ) : Option Desk :=
  match d.world.current engine token (World.inCompaction [.compacting]) with
  | none => some d
  | some o =>
    match transitions o.kind o.phase .offlineFallback with
    | none => none
    | some phase =>
      some <| d.guard fun w ↦
        ({ w with operation := some { o with phase } }.publish ⟨.migrating, some .draining⟩).flushCommands

/-- `online_compaction_result`. -/
def handleOnlineResult (engine token : ℕ) (ok : Bool) : Option Desk :=
  match d.world.current engine token (World.inCompaction [.compacting]) with
  | none => some d
  | some _ => (d.guard (·.publish (.transition .ready))).finishOperation (if ok then .ok else .error)

/-- `operation_drained`. -/
def handleDrained (engine token : ℕ) : Option Desk :=
  match d.world.current engine token (·.phase = .draining) with
  | none => some d
  | some o =>
    match transitions o.kind o.phase .drained with
    | none => none
    | some phase =>
      if o.deadline ≤ oracle.now then d.expireOperation
      else match phase with
        | .compacting => some (d.guard fun w ↦ { w with operation := some { o with phase } })
        | .closing => some (d.guard (·.closeGeneration { o with phase }))
        | _ => none

/-- `compaction_result`. -/
def handleCompactionResult (engine token : ℕ) (ok : Bool) : Option Desk :=
  match d.world.current engine token (World.inCompaction [.compacting]) with
  | none => some d
  | some _ => { d with stats := some ok }.beginClosing

/-- `operation_starting`. -/
def handleStarting (driver token : ℕ) : Option Desk :=
  match d.world.operation with
  | none => some d
  | some o =>
    if o.token = token ∧ o.driver = some driver ∧ o.phase = .closing then
      match transitions o.kind o.phase .starting with
      | none => none
      | some phase =>
        some <| d.guard fun w ↦
          { w.resetGeneration with
            row := some ⟨token, o.owner, .starting, o.deadline⟩
            operation := some { o with phase } }
    else some d

/-- What the end of an operation means for the guardian, and for the caller. -/
def conclude (o : Operation) (result : DriverResult) : Option Desk × Reply :=
  match o.kind, result with
  | .stop, .ok => (some (d.guard (·.stopped)), .ok)
  | .stop, .ownershipUnconfirmed => (some (d.guard (·.stopped)), .error)
  | .restart, .ok => if d.world.restarted oracle then (some d, .ok) else (d.revoke, .error)
  | .compact, .ok =>
    if d.world.restarted oracle then (some d, if d.stats = some false then .error else .ok)
    else (d.revoke, .error)
  | _, _ => (d.revoke, .error)

/-- `operation_result`. -/
def handleResult (driver token : ℕ) (result : DriverResult) : Option Desk :=
  match d.world.operation with
  | none => some d
  | some o =>
    if o.driver = some driver ∧ o.token = token then
      (d.conclude oracle o result).1.bind (·.finishOperation (d.conclude oracle o result).2)
    else some d

/-- `{Writer, writer, event}`. -/
def handleWriterEvent (writer : ℕ) (event : WriterEvent) : Option Desk :=
  if d.world.writer = some writer then
    if d.world.operation.any (·.phase = .closing) then some d
    else if event = .poisoned ∧ d.world.compacting? then some d
    else d.revoke
  else some d

/-- `{LocalFence, _, :revoked, generation}`. -/
def handleFenceRevoked (generation : ℕ) : Option Desk :=
  if d.world.generation = generation then
    if d.world.operation.any (·.phase = .closing) then some d else d.revoke
  else some d

/-- The `DOWN` of the engine, the writer, the runtime or the fence. -/
def handleComponentDown : Option Desk :=
  if d.world.operation.any (·.phase = .compacting) then (d.finishOperation .error).bind revoke
  else if d.world.operation.any (·.phase = .closing) then some d
  else d.revoke

/-- `{:DOWN, ref, ...}`. -/
def handleDown (ref : ℕ) : Option Desk :=
  match d.world.monitors.find? (·.ref == ref) with
  | none => some d
  | some m =>
    match m.watch with
    | .engine | .writer | .runtime | .fence => d.handleComponentDown
    | .driver => d.revoke.bind (·.finishOperation .error)
    | .owner slot token => some (d.guard (·.handleOwnerDown slot token))

/-- One message. What has no clause of its own here is none of an operation's business. -/
def handle : Message → Option Desk
  | .operation owner generation token kind force deadline valid =>
    d.handleOperation oracle owner generation token kind force deadline valid
  | .automaticCompaction policy token generation deadline =>
    d.handleAutomatic oracle policy token generation deadline
  | .operationStarting driver token => d.handleStarting driver token
  | .operationResult driver token result => d.handleResult oracle driver token result
  | .operationDeadline token =>
    if d.world.operation.any (·.token = token) then d.expireOperation else some d
  | .sourceChanged engine token => d.handleSourceChanged engine token
  | .policyDraining engine token => d.handlePolicyDraining engine token
  | .onlineUnsupported engine token => d.handleUnsupported engine token
  | .onlineResult engine token ok => d.handleOnlineResult engine token ok
  | .operationDrained engine token => d.handleDrained oracle engine token
  | .compactionResult engine token ok => d.handleCompactionResult engine token ok
  | .writerEvent writer event => d.handleWriterEvent writer event
  | .fenceRevoked generation => d.handleFenceRevoked generation
  | .down ref => d.handleDown ref
  | m => some (d.guard (·.handle oracle m))

/-! ## The guardian below -/

variable {d : Desk} {oracle : Oracle} {d' : Desk}

theorem world_answer (d : Desk) (r : Reply) : (d.answer r).world = d.world := by
  rw [answer]
  split <;> rfl

theorem finishOperation_world {r : Reply} (h : d.finishOperation r = some d') :
    d'.world = d.world.finishOperation := by
  unfold finishOperation at h
  split at h
  · cases h
  · obtain rfl := Option.some.inj h
    exact congrArg World.finishOperation (d.world_answer r)

theorem revoke_world (h : d.revoke = some d') : d'.world = d.world.revoke := by
  obtain ⟨next, hnext, rfl⟩ := Option.map_eq_some_iff.mp h
  have hworld : next.world =
      if (d.world.publish (.transition .failed)).operation.any (·.phase = .draining) then
        (d.world.publish (.transition .failed)).finishOperation
      else d.world.publish (.transition .failed) := by
    split at hnext
    case isTrue hdraining =>
      rw [finishOperation_world hnext]
      exact (if_pos hdraining).symm
    case isFalse hdraining =>
      obtain rfl := Option.some.inj hnext
      exact (if_neg hdraining).symm
  exact congrArg (fun w : World ↦ { w.killEngine with delivery := .new }) hworld

theorem beginClosing_world (h : d.beginClosing = some d') : d'.world = d.world.beginClosing := by
  rw [beginClosing] at h
  rw [World.beginClosing]
  rcases ho : d.world.operation with _ | o
  · rw [ho] at h
    cases h
  · rw [ho] at h
    dsimp only at h ⊢
    rcases hphase : transitions o.kind o.phase .close with _ | phase
    · rw [hphase] at h
      cases h
    · rw [hphase] at h
      obtain rfl := Option.some.inj h
      rfl

theorem expireOperation_world (h : d.expireOperation = some d') :
    d'.world = d.world.expireOperation := by
  rw [expireOperation] at h
  rw [World.expireOperation]
  rcases ho : d.world.operation with _ | o
  · rw [ho] at h
    cases h
  · rw [ho] at h
    dsimp only at h ⊢
    split at h
    case isTrue hphase =>
      rw [if_pos hphase, finishOperation_world h]
      split <;> rfl
    case isFalse hphase =>
      obtain rfl := Option.some.inj h
      rw [if_neg hphase]
      exact d.world_answer _

theorem handleOperation_world {owner generation token : ℕ} {kind : Kind} {force : Bool} {deadline : ℕ}
    {valid : Bool}
    (h : d.handleOperation oracle owner generation token kind force deadline valid = some d') :
    d'.world = d.world.handleOperation oracle owner generation token kind force deadline valid := by
  unfold handleOperation at h
  unfold World.handleOperation
  dsimp only at h ⊢
  split at h
  case isFalse hrow =>
    obtain rfl := Option.some.inj h
    rw [if_neg hrow]
    rfl
  case isTrue hrow =>
    rw [if_pos hrow]
    split at h
    case isFalse hstart =>
      obtain rfl := Option.some.inj h
      rw [if_neg hstart]
      rfl
    case isTrue hstart =>
      rw [if_pos hstart]
      split at h
      case isTrue hnow =>
        rw [if_pos hnow]
        exact beginClosing_world h
      case isFalse hnow =>
        rw [if_neg hnow]
        cases kind <;> (obtain rfl := Option.some.inj h; rfl)

theorem handleAutomatic_world {policy token generation deadline : ℕ}
    (h : d.handleAutomatic oracle policy token generation deadline = some d') :
    d'.world = d.world.handleAutomatic oracle policy token generation deadline := by
  unfold handleAutomatic at h
  unfold World.handleAutomatic
  split at h
  case isFalse hpolicy =>
    obtain rfl := Option.some.inj h
    exact (if_neg fun hready ↦ hpolicy hready.1).symm
  case isTrue hpolicy =>
    split at h
    case isTrue hready =>
      rw [if_pos ⟨hpolicy, hready⟩]
      exact handleOperation_world h
    case isFalse hready =>
      obtain rfl := Option.some.inj h
      exact (if_neg fun hboth ↦ hready hboth.2).symm

theorem handleDrained_world {engine token : ℕ} (h : d.handleDrained oracle engine token = some d') :
    d'.world = d.world.handleDrained oracle engine token := by
  rw [handleDrained] at h
  rw [World.handleDrained]
  rcases ho : d.world.current engine token (·.phase = .draining) with _ | o
  · rw [ho] at h
    obtain rfl := Option.some.inj h
    rfl
  · rw [ho] at h
    dsimp only at h ⊢
    rcases hphase : transitions o.kind o.phase .drained with _ | phase
    · rw [hphase] at h
      cases h
    · rw [hphase] at h
      dsimp only at h
      split at h
      case isTrue hlate =>
        rw [if_pos hlate]
        exact expireOperation_world h
      case isFalse hlate =>
        rw [if_neg hlate]
        cases phase with
        | compacting =>
          obtain rfl := Option.some.inj h
          rfl
        | closing =>
          obtain rfl := Option.some.inj h
          rfl
        | draining | starting => cases h

theorem handleResult_world {driver token : ℕ} {result : DriverResult}
    (h : d.handleResult oracle driver token result = some d') :
    d'.world = d.world.handleResult oracle driver token result := by
  rw [handleResult] at h
  rw [World.handleResult]
  rcases ho : d.world.operation with _ | o
  · rw [ho] at h
    obtain rfl := Option.some.inj h
    rfl
  · rw [ho] at h
    dsimp only at h ⊢
    split at h
    case isFalse hother =>
      obtain rfl := Option.some.inj h
      rw [if_neg hother]
    case isTrue hdriver =>
      obtain ⟨next, hnext, hfinish⟩ := Option.bind_eq_some_iff.mp h
      rw [if_pos hdriver, finishOperation_world hfinish]
      refine congrArg World.finishOperation ?_
      unfold conclude at hnext
      cases hkind : o.kind <;> cases result <;> rw [hkind] at hnext <;> dsimp only at hnext ⊢
      case stop.ok | stop.ownershipUnconfirmed =>
        obtain rfl := Option.some.inj hnext
        rfl
      case restart.ok | compact.ok =>
        split at hnext
        case isTrue hrestarted =>
          obtain rfl := Option.some.inj hnext
          rw [if_pos hrestarted]
        case isFalse hrestarted =>
          rw [if_neg hrestarted]
          exact revoke_world hnext
      all_goals exact revoke_world hnext

theorem handleComponentDown_world (h : d.handleComponentDown = some d') :
    d'.world = d.world.handleComponentDown := by
  unfold handleComponentDown at h
  unfold World.handleComponentDown
  split at h
  case isTrue hcompacting =>
    obtain ⟨next, hnext, hrevoked⟩ := Option.bind_eq_some_iff.mp h
    rw [if_pos hcompacting, revoke_world hrevoked, finishOperation_world hnext]
  case isFalse hcompacting =>
    rw [if_neg hcompacting]
    split at h
    case isTrue hclosing =>
      obtain rfl := Option.some.inj h
      rw [if_pos hclosing]
    case isFalse hclosing =>
      rw [if_neg hclosing]
      exact revoke_world h

theorem handleDown_world {ref : ℕ} (h : d.handleDown ref = some d') :
    d'.world = d.world.handleDown ref := by
  rw [handleDown] at h
  rw [World.handleDown]
  rcases hm : d.world.monitors.find? (·.ref == ref) with _ | m
  · rw [hm] at h
    obtain rfl := Option.some.inj h
    rw [hm]
  · rw [hm] at h ⊢
    dsimp only at h ⊢
    cases hwatch : m.watch <;> rw [hwatch] at h <;> dsimp only at h ⊢
    case engine | writer | runtime | fence => exact handleComponentDown_world h
    case driver =>
      obtain ⟨next, hnext, hfinish⟩ := Option.bind_eq_some_iff.mp h
      rw [finishOperation_world hfinish, revoke_world hnext]
    case owner =>
      obtain rfl := Option.some.inj h
      rfl

theorem handleStarting_world {driver token : ℕ} (h : d.handleStarting driver token = some d') :
    d'.world = d.world.handleStarting driver token := by
  rw [handleStarting] at h
  rw [World.handleStarting]
  rcases ho : d.world.operation with _ | o
  · rw [ho] at h
    obtain rfl := Option.some.inj h
    rfl
  · rw [ho] at h
    dsimp only at h ⊢
    split at h
    case isFalse hother =>
      obtain rfl := Option.some.inj h
      rw [if_neg hother]
    case isTrue hdriver =>
      rw [if_pos hdriver]
      rcases hphase : transitions o.kind o.phase .starting with _ | phase
      · rw [hphase] at h
        cases h
      · rw [hphase] at h
        obtain rfl := Option.some.inj h
        rfl

theorem handleUnsupported_world {engine token : ℕ} (h : d.handleUnsupported engine token = some d') :
    d'.world = d.world.handleUnsupported engine token := by
  rw [handleUnsupported] at h
  rw [World.handleUnsupported]
  rcases ho : d.world.current engine token (World.inCompaction [.compacting]) with _ | o
  · rw [ho] at h
    obtain rfl := Option.some.inj h
    rfl
  · rw [ho] at h
    dsimp only at h ⊢
    rcases hphase : transitions o.kind o.phase .offlineFallback with _ | phase
    · rw [hphase] at h
      cases h
    · rw [hphase] at h
      -- The phase is written out in the guardian: only a compaction falls back, and it drains.
      obtain rfl := Option.some.inj h
      have hdraining : phase = .draining := by
        revert hphase
        cases o.kind <;> cases o.phase <;> simp [transitions, eq_comm]
      subst hdraining
      rfl

theorem handleCompactionResult_world {engine token : ℕ} {ok : Bool}
    (h : d.handleCompactionResult engine token ok = some d') :
    d'.world = d.world.handleCompactionResult engine token := by
  rw [handleCompactionResult] at h
  rw [World.handleCompactionResult]
  rcases ho : d.world.current engine token (World.inCompaction [.compacting]) with _ | o
  · rw [ho] at h
    obtain rfl := Option.some.inj h
    rfl
  · rw [ho] at h
    exact beginClosing_world (d := { d with stats := some ok }) h

theorem handleWriterEvent_world {writer : ℕ} {event : WriterEvent}
    (h : d.handleWriterEvent writer event = some d') :
    d'.world = d.world.handleWriterEvent writer event := by
  unfold handleWriterEvent at h
  unfold World.handleWriterEvent
  split at h
  case isFalse hother =>
    obtain rfl := Option.some.inj h
    rw [if_neg hother]
  case isTrue hwriter =>
    rw [if_pos hwriter]
    split at h
    case isTrue hclosing =>
      obtain rfl := Option.some.inj h
      rw [if_pos hclosing]
    case isFalse hclosing =>
      rw [if_neg hclosing]
      split at h
      case isTrue hcompacting =>
        obtain rfl := Option.some.inj h
        rw [if_pos hcompacting]
      case isFalse hcompacting =>
        rw [if_neg hcompacting]
        exact revoke_world h

theorem handleFenceRevoked_world {generation : ℕ} (h : d.handleFenceRevoked generation = some d') :
    d'.world = d.world.handleFenceRevoked generation := by
  unfold handleFenceRevoked at h
  unfold World.handleFenceRevoked
  split at h
  case isFalse hother =>
    obtain rfl := Option.some.inj h
    rw [if_neg hother]
  case isTrue hgeneration =>
    rw [if_pos hgeneration]
    split at h
    case isTrue hclosing =>
      obtain rfl := Option.some.inj h
      rw [if_pos hclosing]
    case isFalse hclosing =>
      rw [if_neg hclosing]
      exact revoke_world h

/-- If the handler does not fail, the guardian is as its own handler leaves it. -/
theorem handle_world {m : Message} (h : d.handle oracle m = some d') :
    d'.world = d.world.handle oracle m := by
  cases m with
  | operation => exact handleOperation_world h
  | automaticCompaction => exact handleAutomatic_world h
  | operationStarting => exact handleStarting_world h
  | operationResult => exact handleResult_world h
  | operationDeadline token =>
    simp only [handle, World.handle] at h ⊢
    split at h
    case isTrue hcurrent =>
      rw [if_pos hcurrent]
      exact expireOperation_world h
    case isFalse hother =>
      obtain rfl := Option.some.inj h
      rw [if_neg hother]
  | sourceChanged | policyDraining | onlineResult =>
    simp only [handle, handleSourceChanged, handlePolicyDraining, handleOnlineResult, World.handle,
      World.handleSourceChanged, World.handlePolicyDraining, World.handleOnlineResult] at h ⊢
    generalize d.world.current _ _ _ = found at h ⊢
    cases found with
    | none =>
      obtain rfl := Option.some.inj h
      rfl
    | some o => exact finishOperation_world h
  | onlineUnsupported => exact handleUnsupported_world h
  | operationDrained => exact handleDrained_world h
  | compactionResult => exact handleCompactionResult_world h
  | writerEvent => exact handleWriterEvent_world h
  | fenceRevoked => exact handleFenceRevoked_world h
  | down => exact handleDown_world h
  | _ =>
    obtain rfl := Option.some.inj h
    rfl

/-! ## The machine -/

/-- The tokens of the automatic compactions that are on their way. -/
def proposed (mailbox : List Message) : List ℕ :=
  mailbox.filterMap fun
    | .automaticCompaction _ token _ _ => some token
    | _ => none

/-- The tokens that are in use, or were: an accepted operation's, and the one the row is claimed with. -/
def used (accepted : List Request) (row : Option Row) : List ℕ :=
  (row.filter (·.stage = .claimed)).toList.map Row.token ++ accepted.map Request.token

/-- A new token is one that nobody has, as `make_ref` sees to it; and `drive` announces a start only for an
operation that replaces the generation. -/
def permits (d : Desk) : Label → Bool
  | .claimOperation _ _ => !(used d.accepted d.world.row ++ proposed d.world.mailbox).contains d.world.fresh
  | .send (.automaticCompaction _ token _ _) =>
    !(used d.accepted d.world.row ++ proposed d.world.mailbox).contains token
  | .send (.operationStarting _ token) => d.accepted.any fun a ↦ a.token = token && a.kind ≠ .stop
  | _ => true

def step (d : Desk) : Label → Option Desk
  | .handle oracle =>
    match d.world.mailbox with
    | [] => none
    | m :: rest => (d.guard fun w ↦ { w with mailbox := rest }).handle oracle m
  | l => if d.permits l then (d.world.step l).map fun world ↦ { d with world } else none

/-- A guardian that has just started: nobody has asked for anything. -/
structure Starts (d : Desk) : Prop where
  world : World.Starts d.world
  caller : d.caller = none
  calls : d.calls = 0
  replies : d.replies = []
  accepted : d.accepted = []

def init (settings : Settings) : Desk := ⟨.init settings, none, none, 0, [], []⟩

theorem starts_init (settings : Settings) : Starts (init settings) :=
  ⟨World.starts_init settings, rfl, rfl, rfl, rfl⟩

end Desk

/-- The guardian at its desk. -/
def desk : Machine Desk Label where
  initial := Desk.Starts
  step := Desk.step

namespace Desk

variable {d d' : Desk}

theorem step_handle {oracle : Oracle} {m : Message} {rest : List Message}
    (h : d.world.mailbox = m :: rest) :
    d.step (.handle oracle) = (d.guard fun w ↦ { w with mailbox := rest }).handle oracle m := by
  simp only [step, h]

/-- Whatever the others do, the desk only watches. -/
theorem step_world {l : Label} (hl : ∀ oracle, l ≠ .handle oracle) (h : d.step l = some d') :
    d.permits l = true ∧ ∃ world, d.world.step l = some world ∧ d' = { d with world } := by
  unfold step at h
  split at h
  · exact absurd rfl (hl _)
  · split at h
    case isTrue hpermits =>
      obtain ⟨world, hworld, rfl⟩ := Option.map_eq_some_iff.mp h
      exact ⟨hpermits, world, hworld, rfl⟩
    case isFalse => cases h

/-- What the guardian does at its desk is a run of the guardian. -/
theorem world_reachable (h : desk.Reachable d) : machine.Reachable d.world := by
  refine Machine.Reachable.invariant (I := fun d ↦ machine.Reachable d.world) ?_ ?_ h
  · intro d hd
    exact .initial hd.world
  · intro d l d' hd hl
    by_cases hhandle : ∃ oracle, l = .handle oracle
    · obtain ⟨oracle, rfl⟩ := hhandle
      cases hmailbox : d.world.mailbox with
      | nil =>
        simp [desk, Desk.step, hmailbox] at hl
      | cons m rest =>
        replace hl : d.step (.handle oracle) = some d' := hl
        rw [step_handle hmailbox] at hl
        refine hd.step trivial (l := .handle oracle) ?_
        show d.world.step (.handle oracle) = some d'.world
        rw [handle_world hl, World.step, hmailbox]
        rfl
    · obtain ⟨-, world, hworld, rfl⟩ := step_world (fun oracle h ↦ hhandle ⟨oracle, h⟩) hl
      exact hd.step trivial hworld

end Desk

end Tay.Lifecycle
