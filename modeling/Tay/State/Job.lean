import Mathlib.Data.Finset.Basic
import Mathlib.Data.Finset.Insert
import Std.Data.ExtTreeMap.Lemmas
import Tay.Event.V2

/-!
# The logical state

The data a replay builds and an engine holds: jobs, schedules and results, and the candidate that
collects them together with its memory accounting.

An Elixir map is an extensional ordered map, so two maps with the same entries are equal. Memory
sizes come from the virtual machine (`:erts_debug.flat_size` and the word size); they are the fields
of `Runtime` and every result holds for all of them.
-/

open Foundation

namespace Tay

open V2

/-- An Elixir map from `α` to `β`. -/
abbrev Table (α β : Type) [Ord α] := Std.ExtTreeMap α β compare

/-! ## Jobs, schedules, results -/

inductive JobState
  | scheduled
  | available
  | executing
  | retryable
  | completed
  | cancelled
  | discarded
  deriving DecidableEq, Repr

/-- `state in [:completed, :cancelled, :discarded]`. -/
def JobState.terminal : JobState → Bool
  | .completed | .cancelled | .discarded => true
  | _ => false

/-- The memory charged for a job: what it costs now, and without any result reserve. -/
structure Charge where
  bytes : ℕ
  baseBytes : ℕ
  deriving DecidableEq, Repr

structure Job where
  id : JobId
  definition : Definition
  definitionBytes : Binary
  state : JobState
  attempt : ℕ
  nextAttempt : Option ℕ
  cycle : ℕ
  execution : Option ℕ
  eligibleAt : Option ℕ
  /-- The event-v1 form of the availability order; absent from a stored job. -/
  availableSequence : Option ℕ
  availabilityOrder : Option ℕ
  insertedAt : ℕ
  attemptedAt : Option ℕ
  completedAt : Option ℕ
  terminalAt : Option ℕ
  diagnostic : Option Diagnostic
  revision : ℕ
  charge : Option Charge
  deriving DecidableEq, Repr

/-- `state not in [:completed, :cancelled, :discarded]`, false when there is no job. -/
def active? : Option Job → Bool
  | none => false
  | some job => !job.state.terminal

/-- `ProjectionState.terminal?`. -/
def terminal? : Option Job → Bool
  | none => false
  | some job => job.state.terminal

/-- A job as persisted: everything but the memory charge. -/
def Job.durable (job : Job) : Job := { job with charge := none }

@[simp] theorem Job.durable_durable (job : Job) : job.durable.durable = job.durable := rfl

@[simp] theorem Job.durable_state (job : Job) : job.durable.state = job.state := rfl

theorem active?_durable (job : Option Job) : active? (job.map Job.durable) = active? job := by
  cases job <;> rfl

@[simp] theorem Job.durable_revision (job : Job) : job.durable.revision = job.revision := rfl

@[simp] theorem Job.durable_id (job : Job) : job.durable.id = job.id := rfl

@[simp] theorem Job.durable_availabilityOrder (job : Job) :
    job.durable.availabilityOrder = job.availabilityOrder := rfl

/-- A job with its memory charge. -/
def Job.charged (job : Job) (charge : Charge) : Job := { job with charge := some charge }

@[simp] theorem Job.charged_id (job : Job) (charge : Charge) : (job.charged charge).id = job.id :=
  rfl

@[simp] theorem Job.charged_state (job : Job) (charge : Charge) :
    (job.charged charge).state = job.state := rfl

@[simp] theorem Job.durable_charged (job : Job) (charge : Charge) :
    (job.charged charge).durable = job.durable := rfl

structure Schedule where
  id : Binary
  definition : ScheduleDefinition
  revision : ℕ
  registeredAt : ℕ
  nextAt : ℕ
  lastAt : Option ℕ
  cancelledAt : Option ℕ
  activeJobId : Option JobId
  activeJobIds : List JobId
  membershipComplete : Bool
  deriving DecidableEq, Repr

structure JobResult where
  value : Value
  recordedAt : ℕ
  jobRevision : ℕ
  deriving DecidableEq, Repr

/-! ## Memory accounting -/

/-- What the virtual machine reports about retained terms. -/
structure Runtime where
  /-- Bytes of the copied heap shape of a job in its largest lifecycle form. -/
  flatHeapBytes : Job → ℕ
  /-- `Memory.schedule_bytes`. -/
  scheduleBytes : Schedule → ℕ
  /-- `Memory.result_bytes`. -/
  resultBytes : JobResult → ℕ

/-- The accounting options of a candidate. -/
structure CandidateLimits where
  maxBytes : ℕ
  resultReserveBytes : ℕ
  reportRequired : Bool
  localWorkerKeys : List Binary
  deriving DecidableEq, Repr

/-- `Memory.check`. -/
def Memory.check (limits : CandidateLimits) (bytes : ℤ) : Except Reason Unit :=
  if (limits.maxBytes : ℤ) < bytes then
    if limits.reportRequired then
      .error (.resourceLimit (.maxStateBytes bytes limits.maxBytes))
    else .error (.resourceLimit .retainedBytes)
  else .ok ()

/-- The refusals of `Memory.check`, and of nothing else. -/
def Reason.memory : Reason → Bool
  | .resourceLimit .retainedBytes | .resourceLimit (.maxStateBytes ..) => true
  | _ => false

theorem Memory.check_cases (limits : CandidateLimits) (bytes : ℤ) :
    Memory.check limits bytes = .ok () ∨
      ∃ e, Memory.check limits bytes = .error e ∧ e.memory = true := by
  unfold Memory.check
  split
  · split
    · exact .inr ⟨_, rfl, rfl⟩
    · exact .inr ⟨_, rfl, rfl⟩
  · exact .inl rfl

/-! ## Candidates -/

/-- The state a replay accumulates. -/
structure Candidate where
  jobs : Table JobId Job
  schedules : Table Binary Schedule
  results : Table JobId JobResult
  count : ℤ
  bytes : ℤ
  auxiliaryBytes : ℤ
  limits : CandidateLimits
  valueLimits : Value.Limits
  nextAvailabilityOrder : ℕ
  availabilityOrders : Finset ℕ
  deriving DecidableEq

/-- `Reducer.candidate`: nothing recorded yet. -/
def candidate (limits : CandidateLimits) (valueLimits : Value.Limits) : Candidate where
  jobs := ∅
  schedules := ∅
  results := ∅
  count := 0
  bytes := 0
  auxiliaryBytes := 0
  limits := limits
  valueLimits := valueLimits
  nextAvailabilityOrder := 1
  availabilityOrders := ∅

end Tay
