import Tay.State.Job

/-!
# Job transitions

`Tay.State.Transition`: the pure lifecycle model that live commands and replay share. `prepare` does
all validation against the previous version of the job, `apply` binds a position, and `putCandidate`
stores the result with its memory charge.

The lifecycle never reads the charge, so a transition commutes with forgetting it. That is what lets
a live job and its replayed copy, which are charged under different budgets, be compared at all.
-/

open Foundation

namespace Tay

open V2

/-! ## Validation -/

structure Prepared where
  previous : Option Job
  event : JobEvent
  definitionBytes : Binary

namespace Transition

def validDue? (timestamp attempt : ℕ) (due : Option ℕ) : Bool :=
  let interval := retryInterval timestamp attempt
  due.any fun d ↦ interval.1 ≤ d && d ≤ interval.2

/-- The disposition and next attempt an outcome must have. -/
def expectedFinish (p : Job) (outcome : ℕ) : ℕ × Option ℕ :=
  if outcome == 0 then (0, none)
  else if outcome == 3 then (1, some p.attempt)
  else if p.attempt < p.definition.maxAttempts then (1, some (p.attempt + 1))
  else (2, none)

def validTransition? (p : Job) (e : JobEvent) : Bool :=
  match e.body with
  | .inserted .. => false
  | .available dueAt =>
    (p.state == .scheduled || p.state == .retryable) && p.eligibleAt == some dueAt
  | .started attempt cycleToken =>
    p.state == .available && p.nextAttempt == some attempt &&
      attempt ≤ p.definition.maxAttempts && p.cycle == cycleToken &&
      p.eligibleAt.any (· ≤ e.timestamp)
  | .finished _ disposition executionToken nextAttempt nextDueAt outcome =>
    p.state == .executing && p.execution == executionToken &&
      (disposition == (expectedFinish p outcome).1 &&
        nextAttempt == (expectedFinish p outcome).2 &&
        if (expectedFinish p outcome).1 == 1 then validDue? e.timestamp p.attempt nextDueAt
        else true)
  | .cancelled executionToken =>
    (p.state == .available || p.state == .scheduled || p.state == .retryable ||
        p.state == .executing) &&
      executionToken == if p.state == .executing then p.execution else none
  | .retried mode _ =>
    (p.state == .retryable && mode == 0) || (p.state == .discarded && mode == 1)

def validPrevious? (previous : Option Job) (e : JobEvent) : Bool :=
  match previous, e.body with
  | none, .inserted .. => true
  | none, _ => false
  | some _, .inserted .. => false
  | some p, _ => p.id == e.jobId && p.revision == e.expectedRevision && validTransition? p e

def definitionBytes (previous : Option Job) (e : JobEvent) (limits : Value.Limits) :
    Except Reason Binary :=
  match previous, e.body with
  | none, .inserted definition _ => definition.toValue.encode limits Value.maxBytes
  | none, _ => .error .raised
  | some p, _ => .ok p.definitionBytes

def prepare (previous : Option Job) (e : JobEvent) (limits : Value.Limits) :
    Except Reason Prepared := do
  let _ ← e.encode limits Value.maxBytes
  check (validPrevious? previous e) .invalidTransition
  let bytes ← definitionBytes previous e limits
  return ⟨previous, e, bytes⟩

/-! ## The next version -/

/-- The version an insertion creates. -/
def inserted (e : JobEvent) (definition : Definition) (eligibleAt : ℕ) (bytes : Binary)
    (sequence : ℕ) : Job :=
  let available : Bool := eligibleAt ≤ e.timestamp
  { id := e.jobId
    definition := definition
    definitionBytes := bytes
    state := if available then .available else .scheduled
    attempt := 0
    nextAttempt := some 1
    cycle := sequence
    execution := none
    eligibleAt := some eligibleAt
    availableSequence := if available then some sequence else none
    availabilityOrder := none
    insertedAt := e.timestamp
    attemptedAt := none
    completedAt := none
    terminalAt := none
    diagnostic := none
    revision := 0
    charge := none }

/-- The version an event makes of an existing job; the revision is set by `apply`. -/
def next (p : Job) (e : JobEvent) (sequence : ℕ) : Job :=
  match e.body with
  | .inserted .. => p
  | .available dueAt =>
    { p with state := .available, eligibleAt := some dueAt, availableSequence := some sequence }
  | .started attempt _ =>
    { p with
      state := .executing, attempt := attempt, execution := some sequence,
      attemptedAt := some e.timestamp, availableSequence := none, eligibleAt := none }
  | .finished diagnostic disposition _ nextAttempt nextDueAt _ =>
    let state : JobState :=
      if disposition == 0 then .completed else if disposition == 1 then .retryable else .discarded
    { p with
      state := state, nextAttempt := nextAttempt, eligibleAt := nextDueAt, execution := none,
      completedAt := if state == .completed then some e.timestamp else p.completedAt,
      diagnostic := diagnostic <|> p.diagnostic }
  | .cancelled _ =>
    { p with
      state := .cancelled, execution := none, nextAttempt := none, eligibleAt := none,
      availableSequence := none }
  | .retried mode _ =>
    let p :=
      if mode == 1 then
        { p with
          attempt := 0, nextAttempt := some 1, cycle := sequence, attemptedAt := none,
          completedAt := none }
      else p
    { p with
      state := .available, eligibleAt := some e.timestamp, availableSequence := some sequence,
      execution := none }

def apply (prepared : Prepared) (sequence : ℕ) : Except Reason Job := do
  check (sequence? sequence && prepared.event.expectedRevision < sequence) .invalidPosition
  match prepared.previous, prepared.event.body with
  | none, .inserted definition eligibleAt =>
    return { inserted prepared.event definition eligibleAt prepared.definitionBytes sequence with
      revision := sequence }
  | none, _ => .error .raised
  | some p, _ => return { next p prepared.event sequence with revision := sequence }

/-! ## Charging -/

variable (vm : Runtime)

/-- `retained_bytes`: the heap shape, the definition's binaries and its canonical copy. -/
def retainedBytes (job : Job) (definitionBinaryBytes : ℕ) : ℕ :=
  vm.flatHeapBytes job.durable + definitionBinaryBytes + job.definitionBytes.length

def chargeBase (job : Job) (valueLimits : Value.Limits) : Except Reason ℕ :=
  match job.charge with
  | some charge => .ok charge.baseBytes
  | none =>
    -- A failed measurement would be a failed match in the source.
    match job.definition.toValue.measure valueLimits Value.maxBytes with
    | .ok stats => .ok (retainedBytes vm job stats.binaryBytes)
    | .error _ => .error .raised

/-- The reserve an active job of an external worker carries for its result. -/
def resultReserve (job : Job) (limits : CandidateLimits) : ℕ :=
  if active? (some job) && !limits.localWorkerKeys.contains job.definition.workerKey then
    limits.resultReserveBytes
  else 0

def charge (job : Job) (valueLimits : Value.Limits) (limits : CandidateLimits) :
    Except Reason Job := do
  let base ← chargeBase vm job valueLimits
  return job.charged ⟨base + resultReserve job limits, base⟩

/-- `job.charge.bytes`. -/
def chargedBytes (job : Job) : ℤ :=
  match job.charge with
  | some charge => charge.bytes
  | none => 0

def activeBytes (job : Option Job) : ℤ :=
  match job with
  | some j => if active? job then chargedBytes j else 0
  | none => 0

def activeCount (job : Option Job) : ℤ := if active? job then 1 else 0

def putCandidate (c : Candidate) (previous : Option Job) (job : Job) : Except Reason Candidate := do
  let job ← charge vm job c.valueLimits c.limits
  let bytes := c.bytes - activeBytes previous + activeBytes (some job)
  Memory.check c.limits bytes
  return { c with
    jobs := c.jobs.insert job.id job
    count := c.count - activeCount previous + activeCount (some job)
    bytes := bytes }

/-- The jobs a process accounts for: how many, and their charged bytes. -/
structure Accounting where
  count : ℤ
  bytes : ℤ
  deriving DecidableEq, Repr

def account (budget : Accounting) (valueLimits : Value.Limits) (limits : CandidateLimits)
    (previous : Option Job) (job : Job) : Except Reason (Job × Accounting) := do
  let job ← charge vm job valueLimits limits
  let old : ℤ := match previous with | some p => chargedBytes p | none => 0
  let bytes := budget.bytes - old + chargedBytes job
  let count := budget.count + if previous.isSome then 0 else 1
  Memory.check limits bytes
  return (job, ⟨count, bytes⟩)

/-! ## The charge is inert -/

theorem validPrevious?_durable (p : Option Job) (e : JobEvent) :
    validPrevious? (p.map Job.durable) e = validPrevious? p e := by
  obtain ⟨jobId, expected, timestamp, body⟩ := e
  cases p with
  | none => rfl
  | some p => cases body <;> rfl

theorem next_durable (p : Job) (e : JobEvent) (sequence : ℕ) :
    next p.durable e sequence = (next p e sequence).durable := by
  obtain ⟨jobId, expected, timestamp, body⟩ := e
  cases body with
  | retried mode newDueAt =>
    simp only [next]
    split <;> rfl
  | inserted | available | started | finished | cancelled => rfl

theorem prepare_durable (p : Option Job) (e : JobEvent) (limits : Value.Limits) :
    prepare (p.map Job.durable) e limits =
      (fun q ↦ ⟨q.previous.map Job.durable, q.event, q.definitionBytes⟩) <$>
        prepare p e limits := by
  have hbytes : definitionBytes (p.map Job.durable) e limits = definitionBytes p e limits := by
    cases p with
    | none => rfl
    | some p => rfl
  simp only [prepare, validPrevious?_durable, hbytes]
  cases e.encode limits Value.maxBytes with
  | error r => rfl
  | ok payload =>
    cases validPrevious? p e with
    | false => rfl
    | true =>
      cases definitionBytes p e limits with
      | error r => rfl
      | ok bytes => rfl

theorem apply_durable (q : Prepared) (sequence : ℕ) :
    apply ⟨q.previous.map Job.durable, q.event, q.definitionBytes⟩ sequence =
      Job.durable <$> apply q sequence := by
  obtain ⟨previous, event, bytes⟩ := q
  simp only [apply]
  cases sequence? sequence && decide (event.expectedRevision < sequence) with
  | false => rfl
  | true =>
    cases previous with
    | some p =>
      simp only [Option.map_some, next_durable]
      rfl
    | none =>
      obtain ⟨jobId, expected, timestamp, body⟩ := event
      cases body <;> rfl

/-- What a successful application stores: a new version under the event's id. -/
theorem apply_id {previous : Option Job} {e : JobEvent} {limits : Value.Limits} {q : Prepared}
    {sequence : ℕ} {job : Job} (hq : prepare previous e limits = .ok q)
    (h : apply q sequence = .ok job) : job.id = e.jobId := by
  simp only [prepare, bind_eq_ok, check_eq_ok] at hq
  obtain ⟨-, -, -, hvalid, bytes, -, hq⟩ := hq
  cases hq
  simp only [apply, check_bind_eq_ok] at h
  obtain ⟨-, h⟩ := h
  obtain ⟨jobId, expected, timestamp, body⟩ := e
  cases previous with
  | none =>
    cases body with
    | inserted definition eligibleAt =>
      cases h
      rfl
    | available | started | finished | cancelled | retried => cases h
  | some p =>
    cases h
    cases body with
    | inserted => cases hvalid
    | retried mode newDueAt =>
      simp only [validPrevious?, Bool.and_eq_true, beq_iff_eq] at hvalid
      simp only [next]
      split
      · exact hvalid.1.1
      · exact hvalid.1.1
    | available | started | finished | cancelled =>
      simp only [validPrevious?, Bool.and_eq_true, beq_iff_eq] at hvalid
      exact hvalid.1.1

/-! ## Charging succeeds -/

theorem charge_eq_ok {job : Job} {valueLimits : Value.Limits} (limits : CandidateLimits)
    {stats : Value.Measure}
    (hm : job.definition.toValue.measure valueLimits Value.maxBytes = .ok stats) :
    ∃ ch, charge vm job valueLimits limits = .ok (job.charged ch) := by
  unfold charge chargeBase
  cases hc : job.charge with
  | some ch => exact ⟨_, rfl⟩
  | none =>
    simp only [hm]
    exact ⟨_, rfl⟩

/-- Storing a measurable job can only be refused for memory. -/
theorem putCandidate_cases {job : Job} (c : Candidate) (previous : Option Job)
    {stats : Value.Measure}
    (hm : job.definition.toValue.measure c.valueLimits Value.maxBytes = .ok stats) :
    (∃ ch count bytes, putCandidate vm c previous job =
        .ok { c with
          jobs := c.jobs.insert job.id (job.charged ch)
          count := count
          bytes := bytes }) ∨
      ∃ e, putCandidate vm c previous job = .error e ∧ e.memory = true := by
  obtain ⟨ch, hch⟩ := charge_eq_ok vm c.limits hm
  simp only [putCandidate, hch, ok_bind]
  rcases Memory.check_cases c.limits
      (c.bytes - activeBytes previous + activeBytes (some (job.charged ch))) with
    hok | ⟨e, he, hmem⟩
  · rw [hok]
    exact .inl ⟨ch, _, _, rfl⟩
  · rw [he]
    exact .inr ⟨e, rfl, hmem⟩

theorem putCandidate_eq_ok {c c' : Candidate} {previous : Option Job} {job : Job}
    (h : putCandidate vm c previous job = .ok c') :
    ∃ ch, c' = { c with
      jobs := c.jobs.insert job.id (job.charged ch)
      count := c'.count
      bytes := c'.bytes } := by
  simp only [putCandidate, charge, bind_eq_ok, pure_eq_ok] at h
  obtain ⟨job', ⟨base, -, hjob⟩, -, -, h⟩ := h
  cases hjob
  cases h
  exact ⟨_, rfl⟩

end Transition

end Tay
