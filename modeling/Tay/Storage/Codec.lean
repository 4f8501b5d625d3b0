import Tay.State.Transition

/-!
# Snapshots and mutations

`Tay.Storage.V2.Codec` and `Tay.Storage.V2.Mutation`: the two job payloads of a store-v2 log. A
snapshot restates a whole job; a mutation is one logical transition, with the revision, the token
numbering and the availability order the engine has assigned to it.

A payload that has been written is represented by what it says, and its size by the bytes of its
encoding. Reading one back repeats every check of the decoder on that content.
-/

open Foundation

namespace Tay

open V2

/-! ## Mutations -/

/-- The body of a mutation, by kind. -/
inductive MutationBody
  | inserted (definition : Definition) (eligibleAt : ℕ) (availabilityOrder : Option ℕ)
  | available (dueAt availabilityOrder : ℕ)
  | started (attempt cycleToken : ℕ)
  | finished (outcome disposition : ℕ) (executionToken nextAttempt nextDueAt : Option ℕ)
      (diagnostic : Option Diagnostic)
  | cancelled (executionToken : Option ℕ)
  | retried (mode newDueAt availabilityOrder : ℕ)
  deriving DecidableEq, Repr

structure Mutation where
  jobId : JobId
  expectedRevision : ℕ
  newRevision : ℕ
  timestamp : ℕ
  body : MutationBody
  deriving DecidableEq, Repr

/-- The kind byte. -/
def MutationBody.kind : MutationBody → ℕ
  | .inserted .. => 1
  | .available .. => 2
  | .started .. => 3
  | .finished .. => 4
  | .cancelled .. => 5
  | .retried .. => 6

def MutationBody.isInserted : MutationBody → Bool
  | .inserted .. => true
  | _ => false

/-- `mutation.body["availability_order"]`. -/
def MutationBody.availabilityOrder? : MutationBody → Option ℕ
  | .inserted _ _ order => order
  | .available _ order | .retried _ _ order => some order
  | _ => none

def MutationBody.toValue : MutationBody → Value
  | .inserted definition eligibleAt order =>
    .record [("availability_order", .opt .nat order), ("definition", definition.toValue),
      ("eligible_at", .nat eligibleAt)]
  | .available dueAt order =>
    .record [("availability_order", .nat order), ("due_at", .nat dueAt)]
  | .started attempt cycleToken =>
    .record [("attempt", .nat attempt), ("cycle_token", .nat cycleToken)]
  | .finished outcome disposition executionToken nextAttempt nextDueAt diagnostic =>
    .record [("diagnostic", .opt Diagnostic.toValue diagnostic),
      ("disposition", .nat disposition), ("execution_token", .opt .nat executionToken),
      ("next_attempt", .opt .nat nextAttempt), ("next_due_at", .opt .nat nextDueAt),
      ("outcome", .nat outcome)]
  | .cancelled executionToken => .record [("execution_token", .opt .nat executionToken)]
  | .retried mode newDueAt order =>
    .record [("availability_order", .nat order), ("mode", .nat mode),
      ("new_due_at", .nat newDueAt)]

namespace Mutation

/-- The body of the mutation: the tokens are those of the job it is applied to, and an event that
makes the job ready takes the next availability order. -/
def translate (e : JobEvent) (previous : Option Job) (nextOrder : ℕ) : Except Reason MutationBody :=
  match e.body with
  | .inserted definition eligibleAt =>
    .ok (.inserted definition eligibleAt
      (if eligibleAt ≤ e.timestamp then some nextOrder else none))
  | .available dueAt => .ok (.available dueAt nextOrder)
  | .started attempt _ =>
    -- `previous.cycle` on `nil` raises.
    match previous with
    | some p => .ok (.started attempt p.cycle)
    | none => .error .raised
  | .finished diagnostic disposition _ nextAttempt nextDueAt outcome =>
    .ok (.finished outcome disposition (previous.bind (·.execution)) nextAttempt nextDueAt
      diagnostic)
  | .cancelled _ => .ok (.cancelled (previous.bind (·.execution)))
  | .retried mode newDueAt => .ok (.retried mode newDueAt nextOrder)

/-- `Mutation.from_event`. -/
def fromEvent (e : JobEvent) (previous : Option Job) (nextOrder : ℕ) : Except Reason Mutation := do
  let expected := match previous with | some p => p.revision | none => 0
  let body ← translate e previous nextOrder
  return ⟨e.jobId, expected, expected + 1, e.timestamp, body⟩

end Mutation

namespace Codec

/-- The event a mutation restates. -/
def event (m : Mutation) : JobEvent where
  jobId := m.jobId
  expectedRevision := m.expectedRevision
  timestamp := m.timestamp
  body := match m.body with
    | .inserted definition eligibleAt _ => .inserted definition eligibleAt
    | .available dueAt _ => .available dueAt
    | .started attempt cycleToken => .started attempt cycleToken
    | .finished outcome disposition executionToken nextAttempt nextDueAt diagnostic =>
      .finished diagnostic disposition executionToken nextAttempt nextDueAt outcome
    | .cancelled executionToken => .cancelled executionToken
    | .retried mode newDueAt _ => .retried mode newDueAt

/-- `uint?`: positive and of 64 bits. -/
def uint? (n : ℕ) : Bool := 1 ≤ n && n ≤ maxSequence

def mutationOrder? (m : Mutation) : Bool :=
  match m.body with
  | .inserted _ eligibleAt order =>
    if eligibleAt ≤ m.timestamp then order.any uint? else order.isNone
  | .available _ order | .retried _ _ order => uint? order
  | _ => true

def mutation? (m : Mutation) (limits : Value.Limits) : Except Reason Unit := do
  check (id? m.jobId) .jobId
  check (m.expectedRevision ≤ maxSequence - 1) .revision
  check (m.newRevision == m.expectedRevision + 1) .revision
  check (m.body.isInserted == (m.expectedRevision == 0)) .revision
  check (time? m.timestamp) .timestamp
  check (mutationOrder? m) .availabilityOrder
  let _ ← (event m).encode limits Value.maxBytes
  return ()

/-- The payload of a mutation: id, kind, both revisions, the time and the body. -/
def mutationPayload (m : Mutation) : Binary :=
  Value.bigEndian 16 m.jobId ++ [UInt8.ofNat m.body.kind] ++
    Value.bigEndian 8 m.expectedRevision ++ Value.bigEndian 8 m.newRevision ++
    Value.bigEndian 8 m.timestamp ++ m.body.toValue.wire

def encodeMutation (m : Mutation) (limits : Value.Limits) : Except Reason Binary := do
  mutation? m limits
  let _ ← m.body.toValue.encode limits Value.maxBytes
  check ((mutationPayload m).length ≤ Value.maxBytes) .payloadTooLarge
  return mutationPayload m

def decodeMutation (m : Mutation) (limits : Value.Limits) : Except Reason Mutation := do
  check ((mutationPayload m).length ≤ Value.maxBytes) .payloadTooLarge
  let _ ← m.body.toValue.measure limits Value.maxBytes
  mutation? m limits
  return m

/-! ## Snapshots -/

def stateText : JobState → Binary
  | .scheduled => text "scheduled"
  | .available => text "available"
  | .executing => text "executing"
  | .retryable => text "retryable"
  | .completed => text "completed"
  | .cancelled => text "cancelled"
  | .discarded => text "discarded"

def snapshotBody (job : Job) : Value :=
  .record [("attempt", .nat job.attempt), ("attempted_at", .opt .nat job.attemptedAt),
    ("availability_order", .opt .nat job.availabilityOrder),
    ("completed_at", .opt .nat job.completedAt), ("definition", job.definition.toValue),
    ("diagnostic", .opt Diagnostic.toValue job.diagnostic),
    ("eligible_at", .opt .nat job.eligibleAt), ("inserted_at", .nat job.insertedAt),
    ("next_attempt", .opt .nat job.nextAttempt), ("state", .str (stateText job.state)),
    ("terminal_at", .opt .nat job.terminalAt)]

/-- Which of the optional fields a state has. -/
def stateFields? (job : Job) : Bool :=
  match job.state with
  | .scheduled | .retryable =>
    job.nextAttempt.isSome && job.eligibleAt.isSome && job.availabilityOrder.isNone &&
      job.execution.isNone && job.completedAt.isNone
  | .available =>
    job.nextAttempt.isSome && job.eligibleAt.isSome && job.availabilityOrder.isSome &&
      job.execution.isNone && job.completedAt.isNone
  | .executing =>
    job.nextAttempt.isSome && job.eligibleAt.isNone && job.availabilityOrder.isNone &&
      job.execution.isSome && job.completedAt.isNone
  | .completed =>
    job.nextAttempt.isNone && job.eligibleAt.isNone && job.availabilityOrder.isNone &&
      job.execution.isNone && job.completedAt.isSome
  | .cancelled | .discarded =>
    job.nextAttempt.isNone && job.eligibleAt.isNone && job.availabilityOrder.isNone &&
      job.execution.isNone && job.completedAt.isNone

def terminalFields? (job : Job) : Bool :=
  match job.state with
  | .completed => job.terminalAt.any time? && job.terminalAt == job.completedAt
  | .cancelled | .discarded => job.terminalAt.any time? && job.completedAt.isNone
  | _ => job.terminalAt.isNone

def credibleState? (job : Job) : Bool :=
  match job.state with
  | .scheduled =>
    job.revision == 1 && job.cycle == 1 && job.attempt == 0 && job.nextAttempt == some 1 &&
      job.attemptedAt.isNone && job.diagnostic.isNone
  | .available =>
    (job.attempt == 0 && job.nextAttempt == some 1 && job.attemptedAt.isNone) ||
      (0 < job.attempt && job.attemptedAt.isSome)
  | .executing =>
    0 < job.attempt && job.attemptedAt.isSome && job.execution == some job.revision &&
      job.nextAttempt == some job.attempt
  | .retryable | .discarded =>
    0 < job.attempt && job.attemptedAt.isSome && job.diagnostic.isSome
  | .completed => 0 < job.attempt && job.attemptedAt.isSome
  | .cancelled => true

def validDiagnostic? : Option Diagnostic → Bool
  | none => true
  | some d => d.version == 1 && 1 ≤ d.code && d.code ≤ 7

def snapshot? (job : Job) (limits : Value.Limits) : Except Reason Unit := do
  check (id? job.id) .jobId
  check (definition? job.definition) .definition
  let bytes ← job.definition.toValue.encode limits Value.maxBytes
  check (job.definitionBytes == bytes) .definitionBytes
  check (uint? job.revision && uint? job.cycle && job.cycle ≤ job.revision) .revision
  check (job.attempt ≤ job.definition.maxAttempts) .attempt
  check (job.nextAttempt.all fun n ↦ 1 ≤ n && n ≤ job.definition.maxAttempts) .nextAttempt
  check (time? job.insertedAt && job.eligibleAt.all time? && job.attemptedAt.all time? &&
    job.completedAt.all time? && job.terminalAt.all time?) .timestamp
  check (job.availabilityOrder.all uint?) .availabilityOrder
  check (job.execution.all fun t ↦ uint? t && t ≤ job.revision) .executionToken
  check (validDiagnostic? job.diagnostic) .diagnostic
  check (terminalFields? job) .terminalAt
  check (stateFields? job) .stateFields
  check (credibleState? job) .stateFields

/-- The payload of a snapshot. -/
def snapshotPayload (job : Job) : Binary :=
  Value.bigEndian 16 job.id ++ Value.bigEndian 8 job.revision ++ Value.bigEndian 8 job.cycle ++
    (match job.execution with
      | none => [0]
      | some token => 1 :: Value.bigEndian 8 token) ++
    (snapshotBody job).wire

def encodeSnapshot (job : Job) (limits : Value.Limits) : Except Reason Binary := do
  snapshot? job limits
  let _ ← (snapshotBody job).encode limits Value.maxBytes
  check ((snapshotPayload job).length ≤ Value.maxBytes) .payloadTooLarge
  return snapshotPayload job

/-- `decode_snapshot`: the definition is encoded again, and the job has no charge yet. -/
def decodeSnapshot (job : Job) (limits : Value.Limits) : Except Reason Job := do
  check ((snapshotPayload job).length ≤ Value.maxBytes) .payloadTooLarge
  check (job.execution.all (0 < ·)) .executionToken
  let _ ← (snapshotBody job).measure limits Value.maxBytes
  let bytes ← job.definition.toValue.encode limits Value.maxBytes
  let job := { job with definitionBytes := bytes, availableSequence := none, charge := none }
  snapshot? job limits
  return job

end Codec

end Tay
