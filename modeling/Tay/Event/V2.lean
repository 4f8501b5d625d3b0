import Mathlib.Data.List.Sort
import Mathlib.Data.List.Dedup
import Tay.Event.Value

/-!
# Event schemas

`Tay.Event.V2` and `Tay.Event`: the thirteen event types, the validation every one of them passes
before it is written and again after it is read, and their payloads.

Types 1 to 6 concern one job and have payload schema 1. Types 7 to 13 are the auxiliary events, on
schedules and results, with payload schema 2. A string-keyed payload whose keys are exactly those
of its type is a structure here, so the source's check of the key set has no counterpart; every
check on a field's value stays.

A job id is the number its sixteen bytes denote. Where a payload carries the printed form, 32
lower-case hexadecimal digits, the number stands for it too: printing is a bijection that keeps the
order.
-/

open Foundation

namespace Tay

abbrev JobId := ℕ

namespace V2

def maxTime : ℕ := 9223372036854775807

def maxSequence : ℕ := 18446744073709551615

def maxAttempt : ℕ := 65535

def maxTimeoutMs : ℕ := 24 * 60 * 60 * 1000

def time? (n : ℕ) : Bool := n ≤ maxTime

def sequence? (n : ℕ) : Bool := 1 ≤ n && n ≤ maxSequence

def attempt? (n : ℕ) : Bool := 1 ≤ n && n ≤ maxAttempt

/-- Sixteen bytes, not all zero. -/
def id? (id : JobId) : Bool := 0 < id && id < 2 ^ 128

def key? (key : Binary) : Bool :=
  1 ≤ key.length && key.length ≤ 255 && Value.validUtf8 key && !key.contains 0

def identifier? (value : Binary) : Bool :=
  1 ≤ value.length && value.length ≤ 128 && Value.validUtf8 value && !value.contains 0

/-- Plain JSON-like data: no byte carriers and no runtime terms, at any depth. -/
def args? : Value → Bool
  | .null | .bool _ | .int _ | .float _ | .str _ => true
  | .bytes _ | .other => false
  | .list items => argsList items
  | .map entries => argsMap entries
where
  argsList : List Value → Bool
    | [] => true
    | head :: tail => args? head && argsList tail
  argsMap : List (Value × Value) → Bool
    | [] => true
    | (key, value) :: next => key.isBinary && args? value && argsMap next

def isMap : Value → Bool
  | .map _ => true
  | _ => false

/-- The printed form of a job id. -/
def hexId (id : JobId) : Binary :=
  (Value.bigEndian 16 id).flatMap fun b ↦ [digit (b / 16), digit (b % 16)]
where
  digit (n : UInt8) : UInt8 := if n < 10 then 48 + n else 87 + n

/-- `Enum.sort(Enum.uniq(ids))`. -/
def sortUniq (ids : List JobId) : List JobId := ids.dedup.insertionSort (· ≤ ·)

/-! ## Retry policy -/

structure RetryPolicy where
  baseMs : ℕ
  capMs : ℕ
  jitterDivisor : ℕ
  version : ℕ
  deriving DecidableEq, Repr

def policy : RetryPolicy := ⟨1000, 60000, 4, 1⟩

def retryDelay (attempt : ℕ) : ℕ :=
  if 7 ≤ attempt then policy.capMs else policy.baseMs * 2 ^ (attempt - 1)

def retryJitterMax (delay : ℕ) : ℕ :=
  min (delay / policy.jitterDivisor) (policy.capMs - delay)

def retryInterval (timestamp attempt : ℕ) : ℕ × ℕ :=
  let delay := retryDelay attempt
  (min maxTime (timestamp + delay), min maxTime (timestamp + delay + retryJitterMax delay))

/-! ## Job definitions -/

/-- A job's definition, as `insert` receives it. -/
structure Definition where
  args : Value
  definitionVersion : ℕ
  maxAttempts : ℕ
  queueKey : Binary
  retryPolicy : RetryPolicy
  scheduledAt : Option ℕ
  timeoutMs : ℕ
  workerKey : Binary
  deriving DecidableEq, Repr

def RetryPolicy.toValue (p : RetryPolicy) : Value :=
  .record [("base_ms", .nat p.baseMs), ("cap_ms", .nat p.capMs),
    ("jitter_divisor", .nat p.jitterDivisor), ("version", .nat p.version)]

def Definition.toValue (d : Definition) : Value :=
  .record [("args", d.args), ("definition_version", .nat d.definitionVersion),
    ("max_attempts", .nat d.maxAttempts), ("queue_key", .str d.queueKey),
    ("retry_policy", d.retryPolicy.toValue), ("scheduled_at", .opt .nat d.scheduledAt),
    ("timeout_ms", .nat d.timeoutMs), ("worker_key", .str d.workerKey)]

def definition? (d : Definition) : Bool :=
  isMap d.args && args? d.args && d.definitionVersion == 1 && attempt? d.maxAttempts &&
    key? d.workerKey && key? d.queueKey && d.retryPolicy == policy &&
    d.scheduledAt.all time? && 1 ≤ d.timeoutMs && d.timeoutMs ≤ maxTimeoutMs

/-! ## Schedule definitions -/

inductive Overlap
  | allow
  | skip
  | queue
  deriving DecidableEq, Repr

inductive CatchUp
  | latest
  | all
  deriving DecidableEq, Repr

/-- The `kind` of a schedule together with the `expression` that kind takes. -/
inductive Trigger
  | cron (expression : Binary)
  | every (interval : ℕ)
  deriving DecidableEq, Repr

structure ScheduleDefinition where
  args : Value
  catchUp : CatchUp
  trigger : Trigger
  options : Value
  overlap : Overlap
  task : Binary
  timezone : Option Binary
  deriving DecidableEq, Repr

def CatchUp.toValue : CatchUp → Value
  | .latest => .str (text "latest")
  | .all => .str (text "all")

def Overlap.toValue : Overlap → Value
  | .allow => .str (text "allow")
  | .skip => .str (text "skip")
  | .queue => .str (text "queue")

def Trigger.kind : Trigger → Value
  | .cron _ => .str (text "cron")
  | .every _ => .str (text "every")

def Trigger.expression : Trigger → Value
  | .cron e => .str e
  | .every n => .nat n

def ScheduleDefinition.toValue (d : ScheduleDefinition) : Value :=
  .record [("args", d.args), ("catch_up", d.catchUp.toValue), ("expression", d.trigger.expression),
    ("kind", d.trigger.kind), ("options", d.options), ("overlap", d.overlap.toValue),
    ("task", .str d.task), ("timezone", .opt .str d.timezone)]

def scheduleExpression? : Trigger → Bool
  | .cron e => identifier? e
  | .every n => 0 < n

def scheduleDefinition? (d : ScheduleDefinition) : Bool :=
  key? d.task && isMap d.args && args? d.args && scheduleExpression? d.trigger &&
    d.timezone.all identifier? && isMap d.options && args? d.options

/-! ## Job events -/

structure Diagnostic where
  code : ℕ
  version : ℕ
  deriving DecidableEq, Repr

def Diagnostic.toValue (d : Diagnostic) : Value :=
  .record [("code", .nat d.code), ("version", .nat d.version)]

/-- The payload of a job event, by type. -/
inductive JobBody
  | inserted (definition : Definition) (eligibleAt : ℕ)
  | available (dueAt : ℕ)
  | started (attempt cycleToken : ℕ)
  | finished (diagnostic : Option Diagnostic) (disposition : ℕ) (executionToken : Option ℕ)
      (nextAttempt nextDueAt : Option ℕ) (outcome : ℕ)
  | cancelled (executionToken : Option ℕ)
  | retried (mode newDueAt : ℕ)
  deriving DecidableEq, Repr

structure JobEvent where
  jobId : JobId
  expectedRevision : ℕ
  timestamp : ℕ
  body : JobBody
  deriving DecidableEq, Repr

/-- The stable record type of a job event. -/
def JobBody.code : JobBody → ℕ
  | .inserted .. => 1
  | .available .. => 2
  | .started .. => 3
  | .finished .. => 4
  | .cancelled .. => 5
  | .retried .. => 6

def idValue (id : JobId) : Value := .bytes (Value.bigEndian 16 id)

/-- The wire form of a job event: its payload map, with the identity in the byte carrier. -/
def JobEvent.toValue (e : JobEvent) : Value :=
  let timestamp := Value.nat e.timestamp
  let expectedRevision := Value.nat e.expectedRevision
  let jobId := idValue e.jobId
  match e.body with
  | .inserted definition eligibleAt =>
    .record [("at", timestamp), ("definition", definition.toValue),
      ("eligible_at", .nat eligibleAt), ("expected_revision", expectedRevision), ("job_id", jobId)]
  | .available dueAt =>
    .record [("at", timestamp), ("due_at", .nat dueAt), ("expected_revision", expectedRevision),
      ("job_id", jobId)]
  | .started attempt cycleToken =>
    .record [("at", timestamp), ("attempt", .nat attempt), ("cycle_token", .nat cycleToken),
      ("expected_revision", expectedRevision), ("job_id", jobId)]
  | .finished diagnostic disposition executionToken nextAttempt nextDueAt outcome =>
    .record [("at", timestamp), ("diagnostic", .opt Diagnostic.toValue diagnostic),
      ("disposition", .nat disposition), ("execution_token", .opt .nat executionToken),
      ("expected_revision", expectedRevision), ("job_id", jobId),
      ("next_attempt", .opt .nat nextAttempt), ("next_due_at", .opt .nat nextDueAt),
      ("outcome", .nat outcome)]
  | .cancelled executionToken =>
    .record [("at", timestamp), ("execution_token", .opt .nat executionToken),
      ("expected_revision", expectedRevision), ("job_id", jobId)]
  | .retried mode newDueAt =>
    .record [("at", timestamp), ("expected_revision", expectedRevision), ("job_id", jobId),
      ("mode", .nat mode), ("new_due_at", .nat newDueAt)]

def finish? (outcome disposition : ℕ) : Option Diagnostic → Bool
  | none => outcome == 0 && disposition == 0
  | some d =>
    d.version == 1 &&
      ((outcome == 1 && [1, 2].contains disposition && [1, 2, 3, 4, 6].contains d.code) ||
       (outcome == 2 && [1, 2].contains disposition && d.code == 5) ||
       (outcome == 3 && disposition == 1 && d.code == 7))

def jobFields? (e : JobEvent) : Bool :=
  match e.body with
  | .inserted definition eligibleAt =>
    definition? definition && time? eligibleAt &&
      eligibleAt == definition.scheduledAt.getD e.timestamp
  | .available dueAt => time? dueAt && dueAt ≤ e.timestamp
  | .started attempt cycleToken => attempt? attempt && sequence? cycleToken
  | .finished diagnostic disposition executionToken nextAttempt nextDueAt outcome =>
    executionToken.any sequence? && finish? outcome disposition diagnostic &&
      if disposition == 1 then nextAttempt.any attempt? && nextDueAt.any time?
      else nextAttempt.isNone && nextDueAt.isNone
  | .cancelled executionToken => executionToken.all sequence?
  | .retried mode newDueAt => [0, 1].contains mode && time? newDueAt && newDueAt == e.timestamp

def jobRevision? (e : JobEvent) : Bool :=
  match e.body with
  | .inserted .. => e.expectedRevision == 0
  | _ => sequence? e.expectedRevision

/-- `V2.validate` at payload schema 1. -/
def validateJob (e : JobEvent) : Bool :=
  time? e.timestamp && id? e.jobId && jobRevision? e && jobFields? e

/-- `Event.encode`: measured, validated, then written. -/
def JobEvent.encode (e : JobEvent) (limits : Value.Limits) (max : ℕ) : Except Reason Binary := do
  let _ ← e.toValue.measure limits max
  check (validateJob e) .invalidEvent
  e.toValue.encode limits max

/-! ## Auxiliary events -/

/-- The declaration a checkpoint or membership event restates. -/
structure Checkpoint where
  scheduleId : Binary
  activeJobId : Option JobId
  cancelledAt : Option ℕ
  definition : ScheduleDefinition
  lastAt : Option ℕ
  nextAt : ℕ
  registeredAt : ℕ
  revision : ℕ
  deriving DecidableEq, Repr

/-- The payload of an auxiliary event, by type. -/
inductive AuxBody
  | scheduleRegistered (scheduleId : Binary) (definition : ScheduleDefinition) (nextAt : ℕ)
  | scheduleAdvanced (scheduleId : Binary) (dueAt nextAt : ℕ)
  | scheduleCancelled (scheduleId : Binary)
  | resultRecorded (jobId : JobId) (result : Value)
  | scheduleDelivered (scheduleId : Binary) (activeJobId : Option JobId) (dueAt nextAt : ℕ)
  | scheduleCheckpoint (checkpoint : Checkpoint)
  | scheduleMembership (checkpoint : Checkpoint) (activeJobIds : List JobId)
      (membershipComplete : Bool)
  deriving DecidableEq, Repr

structure AuxEvent where
  expectedRevision : ℕ
  timestamp : ℕ
  body : AuxBody
  deriving DecidableEq, Repr

/-- The stable record type of an auxiliary event. -/
def AuxBody.code : AuxBody → ℕ
  | .scheduleRegistered .. => 7
  | .scheduleAdvanced .. => 8
  | .scheduleCancelled .. => 9
  | .resultRecorded .. => 10
  | .scheduleDelivered .. => 11
  | .scheduleCheckpoint .. => 12
  | .scheduleMembership .. => 13

/-- `event.data["schedule_id"]`. -/
def AuxBody.scheduleId? : AuxBody → Option Binary
  | .scheduleRegistered id .. | .scheduleAdvanced id .. | .scheduleCancelled id
  | .scheduleDelivered id .. => some id
  | .resultRecorded .. => none
  | .scheduleCheckpoint c | .scheduleMembership c .. => some c.scheduleId

/-- `event.data["active_job_id"]`. -/
def AuxBody.activeJobId? : AuxBody → Option JobId
  | .scheduleDelivered _ activeJobId .. => activeJobId
  | .scheduleCheckpoint c | .scheduleMembership c .. => c.activeJobId
  | _ => none

def hexValue (id : JobId) : Value := .str (hexId id)

/-- The wire form of an auxiliary event. -/
def AuxEvent.toValue (e : AuxEvent) : Value :=
  let timestamp := Value.nat e.timestamp
  let expectedRevision := Value.nat e.expectedRevision
  match e.body with
  | .scheduleRegistered scheduleId definition nextAt =>
    .record [("at", timestamp), ("definition", definition.toValue),
      ("expected_revision", expectedRevision), ("next_at", .nat nextAt),
      ("schedule_id", .str scheduleId)]
  | .scheduleAdvanced scheduleId dueAt nextAt =>
    .record [("at", timestamp), ("due_at", .nat dueAt), ("expected_revision", expectedRevision),
      ("next_at", .nat nextAt), ("schedule_id", .str scheduleId)]
  | .scheduleCancelled scheduleId =>
    .record [("at", timestamp), ("expected_revision", expectedRevision),
      ("schedule_id", .str scheduleId)]
  | .resultRecorded jobId result =>
    .record [("at", timestamp), ("expected_revision", expectedRevision), ("job_id", idValue jobId),
      ("result", result)]
  | .scheduleDelivered scheduleId activeJobId dueAt nextAt =>
    .record [("active_job_id", .opt hexValue activeJobId), ("at", timestamp),
      ("due_at", .nat dueAt), ("expected_revision", expectedRevision), ("next_at", .nat nextAt),
      ("schedule_id", .str scheduleId)]
  | .scheduleCheckpoint c =>
    .record [("active_job_id", .opt hexValue c.activeJobId), ("at", timestamp),
      ("cancelled_at", .opt .nat c.cancelledAt), ("definition", c.definition.toValue),
      ("expected_revision", expectedRevision), ("last_at", .opt .nat c.lastAt),
      ("next_at", .nat c.nextAt), ("registered_at", .nat c.registeredAt),
      ("revision", .nat c.revision), ("schedule_id", .str c.scheduleId)]
  | .scheduleMembership c activeJobIds membershipComplete =>
    .record [("active_job_id", .opt hexValue c.activeJobId),
      ("active_job_ids", .list (activeJobIds.map hexValue)), ("at", timestamp),
      ("cancelled_at", .opt .nat c.cancelledAt), ("definition", c.definition.toValue),
      ("expected_revision", expectedRevision), ("last_at", .opt .nat c.lastAt),
      ("membership_complete", .bool membershipComplete), ("next_at", .nat c.nextAt),
      ("registered_at", .nat c.registeredAt), ("revision", .nat c.revision),
      ("schedule_id", .str c.scheduleId)]

def auxIdentity? : AuxBody → Bool
  | .resultRecorded jobId _ => id? jobId
  | .scheduleRegistered id .. | .scheduleAdvanced id .. | .scheduleCancelled id
  | .scheduleDelivered id .. => identifier? id
  | .scheduleCheckpoint c | .scheduleMembership c .. => identifier? c.scheduleId

def auxRevision? (e : AuxEvent) : Bool :=
  match e.body with
  | .scheduleRegistered .. | .scheduleCheckpoint .. | .scheduleMembership .. =>
    e.expectedRevision == 0 || sequence? e.expectedRevision
  | _ => sequence? e.expectedRevision

def advanced? (timestamp dueAt nextAt : ℕ) : Bool :=
  time? dueAt && time? nextAt && dueAt ≤ timestamp && dueAt < nextAt

def checkpoint? (expectedRevision : ℕ) (c : Checkpoint) : Bool :=
  scheduleDefinition? c.definition && time? c.nextAt &&
    (expectedRevision == 0 || c.revision == expectedRevision + 1) && time? c.registeredAt &&
    sequence? c.revision && c.lastAt.all (fun t ↦ time? t && t < c.nextAt) &&
    c.cancelledAt.all time? && c.activeJobId.all id?

def auxFields? (e : AuxEvent) : Bool :=
  match e.body with
  | .scheduleRegistered _ definition nextAt => scheduleDefinition? definition && time? nextAt
  | .scheduleAdvanced _ dueAt nextAt => advanced? e.timestamp dueAt nextAt
  | .scheduleCancelled _ => true
  | .resultRecorded _ result => args? result
  | .scheduleDelivered _ activeJobId dueAt nextAt =>
    advanced? e.timestamp dueAt nextAt && e.expectedRevision < maxSequence && activeJobId.all id?
  | .scheduleCheckpoint c => checkpoint? e.expectedRevision c
  | .scheduleMembership c activeJobIds _ =>
    checkpoint? e.expectedRevision c && activeJobIds == sortUniq activeJobIds &&
      activeJobIds.all id?

/-- `V2.validate` at payload schema 2. -/
def validateAux (e : AuxEvent) : Bool :=
  time? e.timestamp && auxIdentity? e.body && auxRevision? e && auxFields? e

/-- `Event.encode` on an auxiliary event. -/
def AuxEvent.encode (e : AuxEvent) (limits : Value.Limits) (max : ℕ) : Except Reason Binary := do
  let _ ← e.toValue.measure limits max
  check (validateAux e) .invalidEvent
  e.toValue.encode limits max

end V2

end Tay
