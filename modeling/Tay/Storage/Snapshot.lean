import Mathlib.Data.List.Lex
import Mathlib.Data.Prod.Lex
import Mathlib.Order.WithBot
import Tay.Foundation.Ranking
import Tay.Storage.Codec

/-!
# Retention and snapshot planning

`Tay.Storage.V2.Retention` and `Tay.Storage.V2.Snapshot`: which terminal jobs a compaction drops,
and the canonical form of those it keeps. The dispatch keys of `Tay.State.QueueIndex` and
`Tay.State.TaskIndex` are here too, because renumbering the availability orders is meant to leave
the order they induce alone.

Numbers come before every other term in Elixir's order, so an absent field sorts last: a key
component that may be `nil` is a `WithTop ℕ`.
-/

open Foundation

namespace Tay

open V2

/-! ## Retention -/

/-- How long a terminal job is kept. -/
inductive Retention
  | infinity
  | minutes (n : ℕ)
  | hours (n : ℕ)
  deriving DecidableEq, Repr

namespace Retention

def minuteMs : ℕ := 60000

def hourMs : ℕ := 3600000

def validate : Retention → Bool
  | .infinity => true
  | .minutes n => n ≤ maxTime / minuteMs
  | .hours n => n ≤ maxTime / hourMs

/-- The durable policy used after a one-shot compaction request. -/
def persisted : Retention → Retention
  | .minutes 0 | .hours 0 => .hours 1
  | r => r

def expired? (terminalAt : Option ℕ) (retention : Retention) (capturedAt : ℕ) :
    Except Reason Bool := do
  check (validate retention) .invalidRetention
  check (terminalAt.any time? && time? capturedAt) .invalidCaptureTime
  match retention with
  | .infinity => return false
  | .minutes 0 | .hours 0 => return true
  | .minutes n =>
    return n * minuteMs ≤ capturedAt && terminalAt.any (· ≤ capturedAt - n * minuteMs)
  | .hours n => return n * hourMs ≤ capturedAt && terminalAt.any (· ≤ capturedAt - n * hourMs)

end Retention

/-! ## Dispatch keys -/

/-- The key a ready job has in the index of its queue. -/
abbrev QueueKey := Lex (List ℕ × Lex (WithTop ℕ × Lex (WithTop ℕ × ℕ)))

def binaryKey (b : Binary) : List ℕ := b.map UInt8.toNat

def QueueIndex.key (job : Job) : QueueKey :=
  toLex (binaryKey job.definition.queueKey,
    toLex ((job.eligibleAt : WithTop ℕ), toLex ((job.availabilityOrder : WithTop ℕ), job.id)))

/-- The key a ready job has in the index of its queue and task. -/
abbrev TaskKey := Lex (List ℕ × QueueKey)

def TaskIndex.key (job : Job) : TaskKey :=
  toLex (binaryKey job.definition.queueKey,
    toLex (binaryKey job.definition.workerKey,
      toLex ((job.eligibleAt : WithTop ℕ), toLex ((job.availabilityOrder : WithTop ℕ), job.id))))

/-- The jobs an index of ready jobs holds, for the tasks it is kept for. -/
def indexed (tasks : Binary → Bool) (jobs : Table JobId Job) : List Job :=
  (jobs.toList.map Prod.snd).filter fun job ↦
    job.state == .available && tasks job.definition.workerKey

/-- Walk an index from the front: stop at the first job that is not due, or at the limit. -/
def takeDue (now limit : ℕ) (jobs : List Job) : List JobId :=
  ((jobs.takeWhile fun job ↦ job.eligibleAt.any (· ≤ now)).take limit).map (·.id)

def QueueIndex.ready (tasks : Binary → Bool) (jobs : Table JobId Job) (queue : Binary)
    (now limit : ℕ) : List JobId :=
  takeDue now limit <| (sortBy QueueIndex.key (indexed tasks jobs)).filter fun job ↦
    job.definition.queueKey == queue

def TaskIndex.ready (tasks : Binary → Bool) (jobs : Table JobId Job) (queue task : Binary)
    (now limit : ℕ) : List JobId :=
  takeDue now limit <| (sortBy TaskIndex.key (indexed tasks jobs)).filter fun job ↦
    job.definition.queueKey == queue && job.definition.workerKey == task

/-! ## Planning -/

namespace Snapshot

inductive Verdict
  | retain
  | expire
  deriving DecidableEq, Repr

def classify (job : Job) (retention : Retention) (now : ℕ) : Except Reason Verdict :=
  match retention with
  | .infinity => .ok .retain
  | _ =>
    if job.state.terminal then do
      let expired ← Retention.expired? job.terminalAt retention now
      return if expired then .expire else .retain
    else do
      check (Retention.validate retention) .invalidRetention
      check (time? now) .invalidCaptureTime
      return .retain

/-- One step of `validate_source`: the orders seen so far. -/
def validateJob (orders : Finset ℕ) (entry : JobId × Job) : Except Reason (Finset ℕ) := do
  check (entry.2.id == entry.1) .jobId
  check (entry.2.availabilityOrder.all (· ∉ orders)) .duplicateAvailabilityOrder
  Codec.snapshot? entry.2 Value.defaults
  return match entry.2.availabilityOrder with | some o => insert o orders | none => orders

def validateSource (jobs : Table JobId Job) : Except Reason Unit := do
  let _ ← fold validateJob ∅ jobs.toList
  return ()

/-- What a plan reports besides the jobs it keeps. -/
structure Kept where
  jobs : Table JobId Job
  expiredJobs : ℕ
  retainedTerminalJobs : ℕ

def keepStep (retention : Retention) (capturedAt : ℕ) (kept : Kept) (entry : JobId × Job) :
    Except Reason Kept := do
  match ← classify entry.2 retention capturedAt with
  | .expire => return { kept with expiredJobs := kept.expiredJobs + 1 }
  | .retain =>
    return { kept with
      jobs := kept.jobs.insert entry.1 entry.2
      retainedTerminalJobs := kept.retainedTerminalJobs + if entry.2.state.terminal then 1 else 0 }

/-- The key `normalize_availability` sorts by: that of the queue index, with the map's own key. -/
def availabilityKey (entry : JobId × Job) : QueueKey :=
  QueueIndex.key { entry.2 with id := entry.1 }

/-- The available jobs in canonical order. -/
def availableSorted (jobs : Table JobId Job) : List (JobId × Job) :=
  sortBy availabilityKey (jobs.toList.filter fun entry ↦ entry.2.state == .available)

/-- Give one job its place, unless it has it already. -/
def numberStep (acc : Table JobId Job) (x : (JobId × Job) × ℕ) : Table JobId Job :=
  if x.1.2.availabilityOrder == some x.2 then acc
  else acc.insert x.1.1 { x.1.2 with availabilityOrder := some x.2 }

/-- `normalize_availability`: renumber the available jobs 1, 2, … in canonical order. -/
def normalizeAvailability (jobs : Table JobId Job) : Table JobId Job :=
  ((availableSorted jobs).zipIdx 1).foldl numberStep jobs

/-- What the offline and the online plan have in common. -/
def retained (jobs : Table JobId Job) (retention : Retention) (capturedAt : ℕ) :
    Except Reason Kept := do
  check (Retention.validate retention) .invalidRetention
  check (time? capturedAt) .invalidCaptureTime
  validateSource jobs
  fold (keepStep retention capturedAt) ⟨∅, 0, 0⟩ jobs.toList

/-- The offline plan renumbers what it keeps. -/
def prepare (jobs : Table JobId Job) (retention : Retention) (capturedAt : ℕ) :
    Except Reason Kept := do
  let kept ← retained jobs retention capturedAt
  return { kept with jobs := normalizeAvailability kept.jobs }

/-- The online plan keeps every order, because a tail of mutations will follow. -/
def prepareOnline (jobs : Table JobId Job) (retention : Retention) (capturedAt : ℕ) :
    Except Reason Kept :=
  retained jobs retention capturedAt

/-- Forget the memory charges. -/
def durable (jobs : Table JobId Job) : Table JobId Job := jobs.map fun _ job ↦ job.durable

def equivalent? (before afterState : Table JobId Job) : Bool :=
  match validateSource before, validateSource afterState with
  | .ok _, .ok _ =>
    durable (normalizeAvailability before) == durable (normalizeAvailability afterState)
  | _, _ => false

def onlineEquivalent? (before afterState : Table JobId Job) : Bool :=
  durable before == durable afterState

end Snapshot

end Tay
