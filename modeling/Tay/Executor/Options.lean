import Tay.Engine.State
import Tay.Event.Payload
import Tay.Schedule.Declaration

/-!
# The options of a submission

`Tay.Protocol.JobOptions`: what the server reads from the options of a job that a client wants to run, or
that a schedule runs for it. Three of the options have a form in milliseconds and one that is scaled to
them, and at most one of each pair can be given; the job's id is either given or derived from a key of
the client's.

The digest of a key is a parameter.
-/

open Foundation

namespace Tay.JobOptions

open Protocol Declaration

inductive Failure
  | invalidOptions
  | invalidId
  | invalidSubmissionId
  | invalidDelay
  | ambiguousSchedule
  | invalidRunAt
  | invalidOption
  | invalidTimeout
  | unsupportedBackoff
  | invalidQueue
  | invalidDurability
  deriving DecidableEq, Repr

/-- What is left of the options for the engine. -/
structure Parsed where
  id : Option Binary
  retries : ℤ
  timeoutMs : ℤ
  queue : Binary
  delayMs : Option ℤ
  scheduledAt : Option ℤ
  durability : Option Durability
  deriving DecidableEq, Repr

def allowed : List String :=
  ["submission_id", "id", "delay", "delay_ms", "run_at", "retries", "timeout", "timeout_ms", "backoff",
    "queue", "durability"]

def maxTimeoutMs : ℕ := 86400000

/-- `Map.get(options, key, default)` -/
def fieldOr (options : Message) (key : String) (default : Value) : Value :=
  (Message.get? options key).getD default

/-- An integer within bounds. -/
def integerWithin (value : Value) (minimum maximum : ℤ) (reason : Failure) : Except Failure ℤ :=
  match value with
  | .int n => if minimum ≤ n ∧ n ≤ maximum then .ok n else .error reason
  | _ => .error reason

/-- `submission_id`. The digest of a key is never the zero id. -/
def submissionId (digest : Binary → Binary) (options : Message) : Except Failure (Option Binary) :=
  match field options "id", field options "submission_id" with
  | .null, .null => .ok none
  | .str id, .null => if Event.jobId? (.str id) then .ok (some id) else .error .invalidId
  | _, .null => .error .invalidId
  | .null, .str key => if V2.identifier? key then .ok (some (digest key)) else .error .invalidSubmissionId
  | _, _ => .error .invalidSubmissionId

/-- `maximum / 1_000`, which is a double. For both maxima it is whole: 86,400 for a day, and for the
greatest time the double nearest to 9,223,372,036,854,775.807. -/
def seconds (maximum : ℕ) : ℕ := (maximum + 999) / 1000

def milliseconds (value : Value) (minimum maximum : ℕ) (reason : Failure) : Except Failure ℤ :=
  if atMost value (seconds maximum) then
    if minimum ≤ scaled value 1000 ∧ scaled value 1000 ≤ maximum then .ok (scaled value 1000)
    else .error reason
  else .error reason

def delay (options : Message) : Except Failure (Option ℤ) :=
  match field options "delay", field options "delay_ms" with
  | .null, .null => .ok none
  | value, .null =>
    if isNumber value && isNonnegative value then
      (milliseconds value 0 V2.maxTime .invalidDelay).map some
    else .error .invalidDelay
  | .null, value => (integerWithin value 0 V2.maxTime .invalidDelay).map some
  | _, _ => .error .invalidDelay

def runAt (options : Message) : Except Failure (Option ℤ) :=
  match field options "run_at", field options "delay", field options "delay_ms" with
  | .null, _, _ => .ok none
  | value, .null, .null => (integerWithin value 0 V2.maxTime .invalidRunAt).map some
  | _, _, _ => .error .ambiguousSchedule

def timeout (options : Message) : Except Failure ℤ :=
  match field options "timeout", field options "timeout_ms" with
  | .null, .null => .ok 30000
  | value, .null =>
    if isNumber value && isPositive value then milliseconds value 1 maxTimeoutMs .invalidTimeout
    else .error .invalidTimeout
  | .null, value => integerWithin value 1 maxTimeoutMs .invalidTimeout
  | _, _ => .error .invalidTimeout

def backoff (options : Message) : Except Failure Unit :=
  let value := fieldOr options "backoff" (.str (text "exponential"))
  check (value == .null || value == .str (text "exponential")) .unsupportedBackoff

def queue (options : Message) : Except Failure Binary :=
  match fieldOr options "queue" (.str (text "default")) with
  | .str s => if V2.key? s then .ok s else .error .invalidQueue
  | _ => .error .invalidQueue

def durability (options : Message) : Except Failure (Option Durability) :=
  let value := field options "durability"
  if value == .null then .ok none
  else if value == .str (text "persistent") then .ok (some .persistent)
  else if value == .str (text "volatile") then .ok (some .volatile)
  else .error .invalidDurability

/-- `parse`, which answers with a keyword list without the entries that are `nil`. -/
def parse (digest : Binary → Binary) : Value → Except Failure Parsed
  | .map options => do
    check (options.all fun e ↦ allowed.any fun name ↦ e.1 == .str (text name)) .invalidOptions
    let id ← submissionId digest options
    let delay ← delay options
    let scheduled ← runAt options
    let retries ← integerWithin (fieldOr options "retries" (.nat 0)) 0 65534 .invalidOption
    let timeout ← timeout options
    backoff options
    let queue ← queue options
    let durability ← durability options
    return ⟨id, retries, timeout, queue, delay, scheduled, durability⟩
  | _ => .error .invalidOptions

/-- Without options the defaults are left. -/
example : parse id (.map []) = .ok ⟨none, 0, 30000, text "default", none, none, none⟩ := by decide +kernel

end Tay.JobOptions
