import Tay.Engine.Persistence

/-!
# Execution outcomes

`Tay.Execution.Retry`, `Tay.Execution.Outcome`, and the two places where the engine settles
executions on its own: `Tay.Engine.Execution.reconcile`, which ends the executions a restart has
interrupted, and `Tay.Execution.Dispatcher.settle`, which ends one that ran outside the engine and
stores its result.
-/

open Foundation

namespace Tay

open V2

/-! ## Retry times -/

namespace Retry

def maxDraws : ℕ := 128

def sampleSpace : ℕ := 65536

/-- Draw until a sample falls below the cutoff. `draws` is what the random source answers, and an
empty list is a source that fails. -/
def sample (count cutoff : ℕ) : ℕ → List UInt16 → Except Reason ℕ
  | 0, _ | _ + 1, [] => .error .randomSourceFailed
  | remaining + 1, x :: draws =>
    if x.toNat < cutoff then .ok (x.toNat % count) else sample count cutoff remaining draws

def jitter (maximum : ℕ) (draws : List UInt16) : Except Reason ℕ :=
  if maximum == 0 then .ok 0
  else sample (maximum + 1) (sampleSpace - sampleSpace % (maximum + 1)) maxDraws draws

def dueAt (job : Job) (timestamp : ℕ) (draws : List UInt16) : Except Reason ℕ := do
  check (time? timestamp && attempt? job.attempt && attempt? job.definition.maxAttempts &&
    job.attempt ≤ job.definition.maxAttempts && job.definition.retryPolicy == policy)
    .invalidRetryContext
  let delay := retryDelay job.attempt
  let jitter ← jitter (retryJitterMax delay) draws
  return min maxTime (timestamp + delay + jitter)

end Retry

/-! ## Outcomes -/

/-- How an execution ended. -/
inductive Normalized
  | success
  | failure (code : ℕ)
  | timeout
  | interrupted
  deriving DecidableEq, Repr

namespace Outcome

/-- The wire outcome and its diagnostic. -/
def classify : Normalized → Except Reason (ℕ × Option Diagnostic)
  | .success => .ok (0, none)
  | .failure code =>
    if [1, 2, 3, 4, 6].contains code then .ok (1, some ⟨code, 1⟩) else .error .invalidOutcome
  | .timeout => .ok (2, some ⟨5, 1⟩)
  | .interrupted => .ok (3, some ⟨7, 1⟩)

def disposition (outcome : Normalized) (attempt maximum : ℕ) : ℕ × Option ℕ :=
  match outcome with
  | .success => (0, none)
  | .interrupted => (1, some attempt)
  | _ => if attempt < maximum then (1, some (attempt + 1)) else (2, none)

def dueAt (disposition : ℕ) (job : Job) (timestamp : ℕ) (draws : List UInt16) :
    Except Reason (Option ℕ) :=
  if disposition == 1 then some <$> Retry.dueAt job timestamp draws else .ok none

/-- `Outcome.event`: the one finish event of an execution. -/
def event (job : Job) (outcome : Normalized) (timestamp : ℕ) (draws : List UInt16) :
    Except Reason JobEvent := do
  check (job.state == .executing) .invalidOutcomeContext
  check (id? job.id && sequence? job.revision && job.execution.any sequence? && time? timestamp &&
    attempt? job.attempt && attempt? job.definition.maxAttempts &&
    job.attempt ≤ job.definition.maxAttempts && job.definition.retryPolicy == policy)
    .invalidOutcomeContext
  let c ← classify outcome
  let d := disposition outcome job.attempt job.definition.maxAttempts
  let due ← dueAt d.1 job timestamp draws
  return ⟨job.id, job.revision, timestamp, .finished c.2 d.1 job.execution d.2 due c.1⟩

/-- An outcome is a finish of the job it was computed from, which was running. -/
theorem event_eq_ok {job : Job} {outcome : Normalized} {timestamp : ℕ} {draws : List UInt16}
    {e : JobEvent} (h : event job outcome timestamp draws = .ok e) :
    job.state = .executing ∧ e.jobId = job.id ∧ e.timestamp = timestamp ∧
      ∃ c due, classify outcome = .ok c ∧
        e.body = .finished c.2 (disposition outcome job.attempt job.definition.maxAttempts).1
          job.execution (disposition outcome job.attempt job.definition.maxAttempts).2 due c.1 := by
  simp only [event, bind_eq_ok, check_eq_ok, pure_eq_ok, beq_iff_eq] at h
  obtain ⟨-, hstate, -, -, c, hc, due, -, h⟩ := h
  cases h
  exact ⟨hstate, rfl, rfl, c, due, hc, rfl⟩

end Outcome

/-! ## Settling -/

namespace Engine

open Transition ProjectionState

variable (vm : Runtime)

/-- What ends one interrupted execution: the job, the time, and what the random source answers. -/
structure Interruption where
  jobId : JobId
  timestamp : ℕ
  draws : List UInt16

/-- One step of `reconcile_batch`. The source exits on a refusal; its reason is kept here. -/
def reconcileStep (writer : State → Environment) (s : State) (i : Interruption) :
    Except Reason State :=
  match s.hot[i.jobId]? with
  | none => .error .raised
  | some job => do
    let e ← (Outcome.event job .interrupted i.timestamp i.draws).mapError fun _ ↦ .raised
    let c ← commit vm s (some job) e none (writer s)
    return c.state

/-- `Execution.reconcile_batch`, over the interrupted executions in the order they are found. -/
def reconcileBatch (writer : State → Environment) (s : State) (interruptions : List Interruption) :
    Except Reason State :=
  fold (reconcileStep vm writer) s interruptions

/-- The event that stores the result of a completed job. -/
def resultOf (completed : Job) (result : Value) : AuxEvent where
  expectedRevision := completed.revision
  timestamp := completed.completedAt.getD 0
  body := .resultRecorded completed.id result

/-- `settle_job` on a success: the finish, then the result. The source exits on a refusal of either;
its reason is kept here. -/
def settleSuccess (writer : State → Environment) (s : State) (job : Job) (timestamp : ℕ)
    (result : Value) : Except Reason State := do
  let e ← (Outcome.event job .success timestamp []).mapError fun _ ↦ .raised
  let c ← commit vm s (some job) e none (writer s)
  let r ← commitAuxiliary vm c.state (resultOf c.job result) (some c.job) (writer c.state)
  return r.1

end Engine

end Tay
