import Tay.Storage.Reader

/-!
# The engine's state

`Tay.Engine.State` and `Tay.Engine.ProjectionState`: one generation's private view of its store.
Jobs that are not terminal live in the hot projection, persistent terminal jobs in the terminal
store, and volatile jobs, which are never written to the log, stay hot whatever their state.

Fields that only feed status reports, telemetry and timers are left out.
-/

open Foundation

namespace Tay

open V2 Transition

/-! ## Configuration and coordinates -/

/-- Whether a job is written to the log. -/
inductive Durability
  | persistent
  | volatile
  deriving DecidableEq, Repr

structure Config where
  valueLimits : Value.Limits
  candidateLimits : CandidateLimits
  rotationTargetBytes : ℕ
  maxDecodePayloadBytes : ℕ
  /-- `none` is `:infinity`. -/
  maxHistoryBytes : Option ℕ
  /-- `none` is `:infinity`. -/
  maxSegments : Option ℕ
  terminalRetention : Retention
  deriving DecidableEq, Repr

/-- The engine's shadow of the writer's highest segment. Only a segment with records is ever
sealed. -/
structure SegmentView where
  id : ℕ
  sealed : Bool
  bytes : ℕ
  count : ℕ
  sealed_count : sealed = true → 0 < count
  deriving DecidableEq

/-- A segment that has just been opened. -/
theorem SegmentView.unsealed_empty : false = true → 0 < 0 := fun h ↦ absurd h Bool.false_ne_true

/-- The view of a scanned segment; a footer without records does not pass the scan. -/
def Summary.view? (s : Summary) : Option SegmentView :=
  if h : s.sealed = true → 0 < s.count then some ⟨s.id, s.sealed, s.bytes, s.count, h⟩ else none

/-- The coordinates an append was given. -/
structure Receipt where
  sequence : ℕ
  segmentId : ℕ
  offset : ℕ
  deriving DecidableEq, Repr

/-- `Segment.max_id`. -/
def maxId : ℕ := 18446744073709551615

/-- The `online_compaction` field: no compaction, one in progress, or one whose switch an append
has already adopted. -/
inductive OnlineCompaction
  | none
  | running (token : ℕ) (retention : Retention)
  | switched (token : ℕ) (retention : Retention)
  deriving DecidableEq, Repr

namespace Engine

structure State where
  config : Config
  hot : Table JobId Job
  terminalStore : Table JobId Job
  schedules : Table Binary Schedule
  scheduleOwners : Table JobId Binary
  results : Table JobId JobResult
  budget : Accounting
  activeBudget : Accounting
  terminalBudget : Accounting
  volatileTerminalBudget : Accounting
  auxiliaryBytes : ℤ
  volatileIds : Finset JobId
  nextAvailabilityOrder : ℕ
  volatileNextAvailabilityOrder : ℕ
  nextSequence : ℕ
  segment : SegmentView
  historyBytes : ℕ
  segmentCount : ℕ
  settlementReserve : ℤ
  persistentSettlementReserve : ℤ
  epochId : ℕ
  onlineCompaction : OnlineCompaction
  deriving DecidableEq

/-! ## The projection -/

namespace ProjectionState

def lookup (s : State) (id : JobId) : Option Job := s.hot[id]?.or s.terminalStore[id]?

def durability (s : State) (id : JobId) : Durability :=
  if id ∈ s.volatileIds then .volatile else .persistent

def addCharge (budget : Accounting) (job : Job) (sign : ℤ) : Accounting :=
  ⟨budget.count + sign, budget.bytes + sign * chargedBytes job⟩

/-- The hot version of the previous job, if it is hot. -/
def hotPrevious (s : State) (previous : Option Job) : Option Job :=
  previous.bind fun p ↦ s.hot[p.id]?

variable (vm : Runtime)

def accountActive (s : State) (previous : Option Job) (job : Job) (mode : Durability) :
    Except Reason (Job × Accounting) := do
  let r ← account vm s.budget s.config.valueLimits s.config.candidateLimits
    (hotPrevious s previous) job
  return (r.1, if mode == .persistent && terminal? (some r.1) then addCharge r.2 r.1 (-1) else r.2)

def publish (s : State) (previous : Option Job) (job : Job) (mode : Durability) : State :=
  if mode == .persistent && terminal? (some job) then
    { s with
      hot := match hotPrevious s previous with | some p => s.hot.erase p.id | none => s.hot
      terminalStore := s.terminalStore.insert job.id job }
  else match hotPrevious s previous with
    | some _ => { s with hot := s.hot.insert job.id job }
    | none =>
      { s with
        terminalStore := match previous with
          | some p => s.terminalStore.erase p.id
          | none => s.terminalStore
        hot := s.hot.insert job.id job }

/-- Which of the two partitions of the accounting a job belongs to. -/
inductive Partition
  | active
  | terminal
  deriving DecidableEq

def partition (job : Job) : Durability → Partition
  | .persistent => if job.state.terminal then .terminal else .active
  | .volatile => .active

def replacePartition (budget : Accounting) (previous : Option Job) (job : Job) (kind : Partition)
    (mode : Durability) : Accounting :=
  let budget := match previous with
    | some p => if partition p mode == kind then addCharge budget p (-1) else budget
    | none => budget
  if partition job mode == kind then addCharge budget job 1 else budget

/-- `ensure_active_accounting!`: the process exits when the two budgets have drifted apart. -/
def ensureActiveAccounting (s : State) : Except Reason State := do
  check (0 ≤ s.activeBudget.count && 0 ≤ s.activeBudget.bytes &&
    (0 < s.activeBudget.count || s.activeBudget.bytes == 0) &&
    s.activeBudget == s.budget) .raised
  return s

end ProjectionState

/-! ## Adopting a compacted epoch -/

namespace OnlineCheckpoint

/-- What the writer reports of a finished online compaction. -/
structure Stats where
  recovered : Reader.Recovered
  capturedAt : ℕ
  terminalRetention : Retention
  deriving DecidableEq

variable (vm : Runtime)

/-- Drop one volatile terminal job whose retention has passed. -/
def purgeStep (retention : Retention) (capturedAt : ℕ) (s : State) (entry : JobId × Job) :
    Except Reason State := do
  let job := entry.2
  if job.id ∈ s.volatileIds && job.state.terminal then
    if ← Retention.expired? job.terminalAt retention capturedAt then
      return { s with
        hot := s.hot.erase job.id
        volatileIds := s.volatileIds.erase job.id
        results := s.results.erase job.id
        budget := ProjectionState.addCharge s.budget job (-1)
        activeBudget := ProjectionState.addCharge s.activeBudget job (-1)
        volatileTerminalBudget := ProjectionState.addCharge s.volatileTerminalBudget job (-1) }
  return s

def purgeExpiredVolatileTerminals (s : State) (retention : Retention) (capturedAt : ℕ) :
    Except Reason State :=
  fold (purgeStep retention capturedAt) s s.hot.toList

/-- The recovered epoch knows no volatile members; put back those still running. -/
def retainVolatileMemberships (schedules : Table Binary Schedule) (s : State) :
    Table Binary Schedule :=
  s.scheduleOwners.foldl (fun acc raw id ↦
    match (if raw ∈ s.volatileIds then s.hot[raw]? else none), acc[id]? with
    | some job, some schedule =>
      if job.state.terminal then acc
      else acc.insert id
        { schedule with activeJobIds := sortUniq (schedule.activeJobIds ++ [raw]) }
    | _, _ => acc) schedules

def auxiliaryBytes (schedules : Table Binary Schedule) (results : Table JobId JobResult) : ℤ :=
  schedules.foldl (fun n _ s ↦ n + vm.scheduleBytes s) 0 +
    results.foldl (fun n _ r ↦ n + vm.resultBytes r) 0

def terminalBudget (jobs : Table JobId Job) : Accounting :=
  jobs.foldl (fun b _ job ↦
    if job.state.terminal then ProjectionState.addCharge b job 1 else b) ⟨0, 0⟩

/-- The state after the switch, once the expired volatile jobs are gone. -/
def adopted (s : State) (stats : Stats) (segment : SegmentView) : State :=
  let c := stats.recovered.candidate
  let results := s.results.foldl (fun acc id r ↦
    if id ∈ s.volatileIds then acc.insert id r else acc) c.results
  let schedules := retainVolatileMemberships c.schedules s
  { s with
    config := { s.config with terminalRetention := stats.terminalRetention.persisted }
    terminalStore := s.terminalStore.filter fun id _ ↦ (c.jobs[id]?).isSome
    epochId := stats.recovered.epochId
    nextSequence := stats.recovered.nextSequence
    nextAvailabilityOrder := c.nextAvailabilityOrder
    schedules := schedules
    results := results
    auxiliaryBytes := auxiliaryBytes vm schedules results
    scheduleOwners := Auxiliary.owners schedules
    segment := segment
    historyBytes := stats.recovered.totalSegmentBytes
    segmentCount := stats.recovered.segmentCount
    terminalBudget := terminalBudget c.jobs
    onlineCompaction := .none }

/-- `adopt`. The memory transaction is asserted to succeed, so a refusal ends the process. -/
def adopt (s : State) (stats : Stats) (retention : Retention) (admits : ℤ → Bool) :
    Except Reason State := do
  let purged ← purgeExpiredVolatileTerminals s retention stats.capturedAt
  match stats.recovered.highest.bind Summary.view? with
  | none => .error .raised
  | some segment =>
    let next := adopted vm purged stats segment
    check (admits (next.budget.bytes + next.auxiliaryBytes -
      (s.budget.bytes + s.auxiliaryBytes))) .raised
    return next

/-- What the writer reports of the rotation that starts an online compaction. -/
structure Rotation where
  previous : SegmentView
  segment : SegmentView
  nextSequence : ℕ

/-- `adopt_rotation`: the engine follows the writer into the fresh tail. -/
def adoptRotation (s : State) (r : Rotation) : Except Reason State := do
  check (!r.segment.sealed && r.segment.bytes == 44 && r.segment.count == 0) .topology
  check (r.previous == s.segment) .topology
  check (r.nextSequence == s.nextSequence) .topology
  if r.segment.id == s.segment.id then return s
  else do
    check (r.segment.id == s.segment.id + 1) .segmentIds
    return { s with
      segment := r.segment
      segmentCount := s.segmentCount + 1
      historyBytes := s.historyBytes + 44 + if s.segment.sealed then 0 else 64 }

end OnlineCheckpoint

/-! ## The state a generation starts from -/

/-- `Engine.init` on a recovered store, before interrupted executions are reconciled. Activation may
have opened one fresh segment above the highest recovered one. -/
def init (config : Config) (r : Reader.Recovered) (segment : SegmentView) : State where
  config := config
  hot := r.candidate.jobs.filter fun _ job ↦ !job.state.terminal
  terminalStore := r.candidate.jobs.filter fun _ job ↦ job.state.terminal
  schedules := r.candidate.schedules
  scheduleOwners := Auxiliary.owners r.candidate.schedules
  results := r.candidate.results
  budget := r.candidate.jobs.foldl (fun b _ job ↦
    if job.state.terminal then b else ProjectionState.addCharge b job 1) ⟨0, 0⟩
  activeBudget := r.candidate.jobs.foldl (fun b _ job ↦
    if job.state.terminal then b else ProjectionState.addCharge b job 1) ⟨0, 0⟩
  terminalBudget := OnlineCheckpoint.terminalBudget r.candidate.jobs
  volatileTerminalBudget := ⟨0, 0⟩
  auxiliaryBytes := r.candidate.auxiliaryBytes
  volatileIds := ∅
  nextAvailabilityOrder := r.candidate.nextAvailabilityOrder
  volatileNextAvailabilityOrder := 1
  nextSequence := r.nextSequence
  segment := segment
  historyBytes := r.totalSegmentBytes + 44 * opened
  segmentCount := r.segmentCount + opened
  settlementReserve := 0
  persistentSettlementReserve := 0
  epochId := r.epochId
  onlineCompaction := .none
where
  opened : ℕ := segment.id - (r.highest.map Summary.id).getD segment.id

end Engine

end Tay
