import Tay.Storage.Canonical

/-!
# Mutations simulate transitions

The engine prepares an event against a job and then records a mutation of it. The mutation has numbers of
its own: a revision that counts the versions of the job, tokens taken from the job, and a place in the
order of availability, where the event model has the position in the log for all of them. The reducer
turns the mutation back into an event, makes the transition once more and checks what comes out.

Here the two are compared over every store. The mutation made of an accepted event restates that event,
so that the reducer makes the same transition under another position, and a transition uses its position
only as a number. What can still refuse the mutation is room: the memory limit, or the end of the numbers.
-/

open Foundation

namespace Tay

open V2

namespace Reducer

variable (vm : Runtime)

/-- A version of a job with the numbers of the store: a number that the transition took from the position
`sequence` becomes the revision, or the order of availability. The time of the end is the store's own. -/
def renumbered (job : Job) (sequence revision order timestamp : ℕ) : Job :=
  { job with
    revision := revision
    cycle := if job.cycle = sequence then revision else job.cycle
    execution := job.execution.map fun token ↦ if token = sequence then revision else token
    availableSequence := none
    availabilityOrder := job.availableSequence.map fun _ ↦ order
    terminalAt := if job.state.terminal then some timestamp else none }

/-! ## The mutation of an event -/

/-- An event that makes its job available. -/
def ready (e : JobEvent) : Bool :=
  match e.body with
  | .inserted _ eligibleAt => eligibleAt ≤ e.timestamp
  | .available _ | .retried .. => true
  | _ => false

theorem prepare_eq_ok {previous : Option Job} {e : JobEvent} {limits : Value.Limits} {q : Prepared}
    (h : Transition.prepare previous e limits = .ok q) :
    (∃ payload, e.encode limits Value.maxBytes = .ok payload) ∧
      Transition.validPrevious? previous e = true ∧
      ∃ bytes, Transition.definitionBytes previous e limits = .ok bytes ∧ q = ⟨previous, e, bytes⟩ := by
  simp only [Transition.prepare, bind_eq_ok, check_eq_ok, pure_eq_ok] at h
  obtain ⟨payload, hpayload, -, hvalid, bytes, hbytes, h⟩ := h
  cases h
  exact ⟨⟨payload, hpayload⟩, hvalid, bytes, hbytes, rfl⟩

/-- Outside of an execution a job has no token. -/
theorem execution_none {p : Job} (h : Codec.stateFields? p = true) (hstate : p.state ≠ .executing) :
    p.execution = none := by
  cases hs : p.state with
  | executing => exact absurd hs hstate
  | scheduled | available | retryable | completed | cancelled | discarded =>
    simp only [Codec.stateFields?, hs, Bool.and_eq_true, Option.isNone_iff_eq_none] at h
    simp [h]

/-- The mutation of an accepted event restates it, and takes the next order if the job becomes ready. -/
theorem fromEvent_restates {previous : Option Job} {e : JobEvent} (order : ℕ)
    (hfields : ∀ p, previous = some p → Codec.stateFields? p = true)
    (hrevision : jobRevision? e = true)
    (hvalid : Transition.validPrevious? (previous.map toV1) e = true) :
    ∃ m, Mutation.fromEvent e previous order = .ok m ∧ Codec.event m = e ∧
      m.newRevision = e.expectedRevision + 1 ∧
      m.body.availabilityOrder? = (if ready e then some order else none) ∧
      m.body.isInserted = previous.isNone := by
  obtain ⟨jobId, expected, timestamp, body⟩ := e
  cases previous with
  | none =>
    cases body with
    | inserted definition eligibleAt =>
      simp only [jobRevision?, beq_iff_eq] at hrevision
      subst hrevision
      refine ⟨_, rfl, rfl, rfl, ?_, rfl⟩
      simp only [MutationBody.availabilityOrder?, ready, decide_eq_true_eq]
    | available | started | finished | cancelled | retried => cases hvalid
  | some p =>
    have hexecution := fun hs ↦ execution_none (hfields p rfl) hs
    cases body with
    | inserted => cases hvalid
    | available dueAt =>
      simp only [Transition.validPrevious?, Option.map_some, Bool.and_eq_true, beq_iff_eq] at hvalid
      obtain ⟨⟨-, hnumber⟩, -⟩ := hvalid
      cases hnumber
      exact ⟨_, rfl, rfl, rfl, rfl, rfl⟩
    | started attempt cycleToken =>
      simp only [Transition.validPrevious?, Option.map_some, Transition.validTransition?, Bool.and_eq_true,
        beq_iff_eq] at hvalid
      obtain ⟨⟨-, hnumber⟩, ⟨-, hcycle⟩, -⟩ := hvalid
      cases hnumber
      cases hcycle
      exact ⟨_, rfl, rfl, rfl, rfl, rfl⟩
    | finished diagnostic disposition executionToken nextAttempt nextDueAt outcome =>
      simp only [Transition.validPrevious?, Option.map_some, Transition.validTransition?, Bool.and_eq_true,
        beq_iff_eq] at hvalid
      obtain ⟨⟨-, hnumber⟩, ⟨-, htoken⟩, -⟩ := hvalid
      cases hnumber
      cases htoken
      exact ⟨_, rfl, rfl, rfl, rfl, rfl⟩
    | cancelled executionToken =>
      simp only [Transition.validPrevious?, Option.map_some, Transition.validTransition?, Bool.and_eq_true,
        beq_iff_eq] at hvalid
      obtain ⟨⟨-, hnumber⟩, -, htoken⟩ := hvalid
      have hsame : executionToken = p.execution := by
        rw [htoken]
        show (if p.state = .executing then p.execution else none) = p.execution
        split
        · rfl
        case isFalse hs => exact (hexecution hs).symm
      cases hnumber
      cases hsame
      exact ⟨_, rfl, rfl, rfl, rfl, rfl⟩
    | retried mode newDueAt =>
      simp only [Transition.validPrevious?, Option.map_some, Bool.and_eq_true, beq_iff_eq] at hvalid
      obtain ⟨⟨-, hnumber⟩, -⟩ := hvalid
      cases hnumber
      exact ⟨_, rfl, rfl, rfl, rfl, rfl⟩

/-- And it is a valid one, unless the orders are used up. -/
theorem mutation_valid {m : Mutation} {limits : Value.Limits} {payload : Binary} {order : ℕ}
    (hencode : (Codec.event m).encode limits Value.maxBytes = .ok payload)
    (hnew : m.newRevision = m.expectedRevision + 1) (hbound : m.expectedRevision ≤ maxSequence - 1)
    (horder : m.body.availabilityOrder? = if ready (Codec.event m) then some order else none)
    (huint : ready (Codec.event m) = true → Codec.uint? order = true) :
    Codec.mutation? m limits = .ok () := by
  have hvalid : validateJob (Codec.event m) = true := by
    simp only [JobEvent.encode, bind_eq_ok, check_eq_ok] at hencode
    obtain ⟨-, -, -, hvalid, -⟩ := hencode
    exact hvalid
  simp only [validateJob, Bool.and_eq_true] at hvalid
  obtain ⟨⟨⟨htime, hid⟩, hrevision⟩, -⟩ := hvalid
  have hinserted : m.body.isInserted = (m.expectedRevision == 0) := by
    obtain ⟨jobId, expected, newRevision, timestamp, body⟩ := m
    cases body with
    | inserted => exact hrevision.symm
    | available | started | finished | cancelled | retried =>
      have hsequence : sequence? expected = true := hrevision
      simp only [sequence?, Bool.and_eq_true, decide_eq_true_eq] at hsequence
      have hne : expected ≠ 0 := by omega
      simp only [MutationBody.isInserted, beq_eq_false_iff_ne.mpr hne]
  have hplace : Codec.mutationOrder? m = true := by
    obtain ⟨jobId, expected, newRevision, timestamp, body⟩ := m
    cases body with
    | inserted definition eligibleAt number =>
      have hnumber : number = if decide (eligibleAt ≤ timestamp) = true then some order else none := horder
      have hready : decide (eligibleAt ≤ timestamp) = true → Codec.uint? order = true := huint
      rw [decide_eq_true_eq] at hready
      show (if eligibleAt ≤ timestamp then number.any Codec.uint? else number.isNone) = true
      rw [hnumber]
      by_cases hle : eligibleAt ≤ timestamp
      · rw [if_pos hle, if_pos (decide_eq_true hle)]
        exact hready hle
      · rw [if_neg hle, if_neg (by rwa [decide_eq_true_eq])]
        rfl
    | available dueAt number =>
      cases horder
      exact huint rfl
    | retried mode newDueAt number =>
      cases horder
      exact huint rfl
    | started | finished | cancelled => rfl
  have hid' : id? m.jobId = true := hid
  have htime' : time? m.timestamp = true := htime
  simp only [Codec.mutation?, hid', decide_eq_true hbound, hnew, beq_self_eq_true, hinserted, htime', hplace,
    hencode, check_true, ok_bind, pure_eq_ok]

/-! ## The same transition under another number -/

/-- A transition uses its position only as a number. -/
theorem renumbered_next {p : Job} {m : Mutation} {sequence order : ℕ}
    (hfields : Codec.stateFields? p = true) (hcycle : p.cycle < sequence)
    (hexecution : ∀ token, p.execution = some token → token < sequence)
    (horder : m.body.availabilityOrder? = if ready (Codec.event m) then some order else none)
    (hvalid : Transition.validTransition? (toV1 p) (Codec.event m) = true) :
    fromV1 { Transition.next (toV1 p) (Codec.event m) m.newRevision with revision := m.newRevision } m =
      renumbered { Transition.next (toV1 p) (Codec.event m) sequence with revision := sequence }
        sequence m.newRevision order m.timestamp := by
  obtain ⟨jobId, expected, newRevision, timestamp, body⟩ := m
  have hkept : (p.execution.map fun token ↦ if token = sequence then newRevision else token) = p.execution := by
    cases ht : p.execution with
    | none => rfl
    | some token => rw [Option.map_some, if_neg (hexecution token ht).ne]
  cases body with
  | inserted => cases hvalid
  | available dueAt number =>
    cases horder
    simp [fromV1, renumbered, Transition.next, Codec.event, toV1, MutationBody.availabilityOrder?,
      JobState.terminal, hcycle.ne, hkept]
  | started attempt cycleToken =>
    simp [fromV1, renumbered, Transition.next, Codec.event, toV1, JobState.terminal, hcycle.ne]
  | finished outcome disposition executionToken nextAttempt nextDueAt diagnostic =>
    simp only [Transition.validTransition?, Codec.event, toV1, Bool.and_eq_true, beq_iff_eq] at hvalid
    obtain ⟨⟨hs, -⟩, -⟩ := hvalid
    simp only [Codec.stateFields?, hs, Bool.and_eq_true, Option.isNone_iff_eq_none] at hfields
    obtain ⟨⟨⟨⟨-, -⟩, hnone⟩, -⟩, -⟩ := hfields
    simp [fromV1, renumbered, Transition.next, Codec.event, toV1, hcycle.ne, hnone]
    split_ifs <;> simp_all
  | cancelled executionToken =>
    simp [fromV1, renumbered, Transition.next, Codec.event, toV1, JobState.terminal, hcycle.ne]
  | retried mode newDueAt number =>
    cases horder
    simp only [Transition.next, Codec.event]
    split
    · simp [fromV1, renumbered, toV1, MutationBody.availabilityOrder?, JobState.terminal]
    · simp [fromV1, renumbered, toV1, MutationBody.availabilityOrder?, JobState.terminal, hcycle.ne]

theorem renumbered_inserted {m : Mutation} {definition : Definition} {eligibleAt : ℕ} {bytes : Binary}
    {sequence order : ℕ} (hbody : (Codec.event m).body = .inserted definition eligibleAt)
    (horder : m.body.availabilityOrder? = if ready (Codec.event m) then some order else none) :
    fromV1 { Transition.inserted (Codec.event m) definition eligibleAt bytes m.newRevision with
        revision := m.newRevision } m =
      renumbered { Transition.inserted (Codec.event m) definition eligibleAt bytes sequence with
        revision := sequence } sequence m.newRevision order m.timestamp := by
  have hready : ready (Codec.event m) = decide (eligibleAt ≤ m.timestamp) := by
    rw [ready, hbody]
    rfl
  have htime : (Codec.event m).timestamp = m.timestamp := rfl
  rw [hready] at horder
  by_cases hle : eligibleAt ≤ m.timestamp
  · simp [fromV1, renumbered, Transition.inserted, htime, hle, horder, JobState.terminal]
  · simp [fromV1, renumbered, Transition.inserted, htime, hle, JobState.terminal]

/-! ## Every store -/

/-- The jobs of a store are snapshots, and its next order is a number. -/
structure Stored (c : Candidate) : Prop where
  snapshots : ∀ (id : JobId) (job : Job), c.jobs[id]? = some job → Codec.snapshot? job c.valueLimits = .ok ()
  order : 1 ≤ c.nextAvailabilityOrder

theorem Stored.insertJob {c c' : Candidate} (h : Stored c) {id : JobId} (job : Job)
    (hjob : Codec.snapshot? job c.valueLimits = .ok ()) (hjobs : c'.jobs = c.jobs.insert id job)
    (hvalues : c'.valueLimits = c.valueLimits) (horder : 1 ≤ c'.nextAvailabilityOrder) : Stored c' := by
  refine ⟨?_, horder⟩
  intro k j hj
  rw [hvalues]
  rw [hjobs, Foundation.Table.get_insert] at hj
  split at hj
  · cases hj
    exact hjob
  · exact h.snapshots k j hj

theorem Stored.play {c c' : Candidate} {x : Canonical.Entry} (h : Stored c)
    (hplay : Canonical.play vm c x = .ok c') : Stored c' := by
  cases x with
  | snapshot job =>
    obtain ⟨ch, hc'⟩ := insertSnapshot_eq_ok vm hplay
    have hsnapshot : Codec.snapshot? job.durable c.valueLimits = .ok () := by
      simp only [Canonical.play, insertSnapshot, bind_eq_ok] at hplay
      obtain ⟨_, hsnapshot, -⟩ := hplay
      exact hsnapshot
    have horder := Reader.insertSnapshot_order vm hplay
    refine h.insertJob (job.durable.charged ch) hsnapshot (by rw [hc']) (by rw [hc']) ?_
    have := h.order
    rw [horder]
    omega
  | mutation m =>
    obtain ⟨job, ch, hjob, hc'⟩ := apply_eq_ok vm hplay
    have hsnapshot := transitionJob_snapshot hjob
    refine h.insertJob (job.charged ch) hsnapshot (by rw [hc']) (by rw [hc']) ?_
    rw [hc']
    show 1 ≤ orderAfter c.nextAvailabilityOrder job.availabilityOrder
    cases job.availabilityOrder with
    | none => exact h.order
    | some o => exact Nat.le_add_left 1 o
  | auxiliary e sequence =>
    obtain ⟨-, -, applied, happlied, hc'⟩ := Auxiliary.reduce_eq_ok vm hplay
    rw [Auxiliary.applyEvent_frame happlied] at hc'
    refine ⟨?_, ?_⟩
    · rw [hc']
      exact h.snapshots
    · rw [hc']
      exact h.order

theorem reachable_stored {c : Candidate} (hc : (Canonical.replay vm).Reachable c) : Stored c := by
  refine Canonical.reachable_invariant vm (fun limits valueLimits ↦ ⟨?_, le_rfl⟩)
    (fun _ _ _ h hplay ↦ h.play vm hplay) hc
  intro id job hjob
  simp [candidate] at hjob

/-! ## The simulation -/

theorem snapshot_toV1 {p : Job} {limits : Value.Limits} (h : Codec.snapshot? p limits = .ok ()) :
    Codec.Fields p limits ∧ Codec.stateFields? p = true := by
  rw [Codec.snapshot?_iff] at h
  exact ⟨h.1, h.2.state⟩

/-- A job takes a place in the order exactly when the event makes it ready. -/
theorem availableSequence_ready {previous : Option Job} {e : JobEvent} {bytes : Binary} {sequence : ℕ} {job : Job}
    (hstored : ∀ p, previous = some p → Codec.stateFields? p = true)
    (hvalid : Transition.validPrevious? (previous.map toV1) e = true)
    (happly : Transition.apply ⟨previous.map toV1, e, bytes⟩ sequence = .ok job) :
    job.availableSequence.isSome = ready e := by
  simp only [Transition.apply, check_bind_eq_ok] at happly
  obtain ⟨-, happly⟩ := happly
  obtain ⟨jobId, expected, timestamp, body⟩ := e
  cases previous with
  | none =>
    cases body with
    | inserted definition eligibleAt =>
      cases happly
      by_cases hle : eligibleAt ≤ timestamp <;> simp [Transition.inserted, ready, hle]
    | available | started | finished | cancelled | retried => cases hvalid
  | some p =>
    cases happly
    cases body with
    | inserted => cases hvalid
    | available | started | cancelled => rfl
    | retried mode newDueAt => rfl
    | finished diagnostic disposition executionToken nextAttempt nextDueAt outcome =>
      simp only [Transition.validPrevious?, Option.map_some, Transition.validTransition?, Bool.and_eq_true,
        beq_iff_eq] at hvalid
      obtain ⟨-, ⟨hs, -⟩, -⟩ := hvalid
      have hexecuting : p.state = .executing := hs
      have hfields := hstored p rfl
      simp only [Codec.stateFields?, hexecuting, Bool.and_eq_true, Option.isNone_iff_eq_none] at hfields
      obtain ⟨⟨⟨⟨-, -⟩, hnone⟩, -⟩, -⟩ := hfields
      simp [Transition.next, toV1, hnone, ready]

/-- The gates let the mutation of an accepted event pass. -/
theorem gates_pass {previous : Option Job} {m : Mutation} {order : ℕ}
    (hvalid : Transition.validPrevious? (previous.map toV1) (Codec.event m) = true)
    (hrevision : jobRevision? (Codec.event m) = true)
    (hbound : m.expectedRevision < maxSequence) (hnew : m.newRevision = m.expectedRevision + 1)
    (horder : m.body.availabilityOrder? = if ready (Codec.event m) then some order else none)
    (huint : ready (Codec.event m) = true → Codec.uint? order = true) :
    revisionGate previous m = .ok () ∧ availabilityGate order m = .ok () := by
  refine ⟨?_, ?_⟩
  · obtain ⟨jobId, expected, newRevision, timestamp, body⟩ := m
    obtain rfl : newRevision = expected + 1 := hnew
    cases previous with
    | none =>
      cases body with
      | inserted =>
        have hzero : expected = 0 := beq_iff_eq.mp hrevision
        subst hzero
        rfl
      | available | started | finished | cancelled | retried => cases hvalid
    | some p =>
      have hgate : ∀ body, MutationBody.isInserted body = false → p.revision = expected →
          revisionGate (some p) ⟨jobId, expected, expected + 1, timestamp, body⟩ = .ok () := by
        rintro body hbody rfl
        have hne : (p.revision == maxSequence) = false := beq_eq_false_iff_ne.mpr (Nat.ne_of_lt hbound)
        simp [revisionGate, hbody, hne]
      cases body with
      | inserted => cases hvalid
      | available | started | finished | cancelled | retried =>
        simp only [Transition.validPrevious?, Option.map_some, Codec.event, Bool.and_eq_true,
          beq_iff_eq] at hvalid
        exact hgate _ rfl hvalid.1.2
  · rw [availabilityGate, horder]
    cases hready : ready (Codec.event m) with
    | false => rfl
    | true =>
      have hmax := huint hready
      simp only [Codec.uint?, Bool.and_eq_true, decide_eq_true_eq] at hmax
      simp [hmax.2]

/-- The reducer makes the transition of the event, under the number of the mutation. -/
theorem admitJob_simulates {previous : Option Job} {e : JobEvent} {limits : Value.Limits} {q : Prepared}
    {sequence : ℕ} (order : ℕ) {job : Job}
    (hstored : ∀ p, previous = some p → Codec.snapshot? p limits = .ok ())
    (hq : Transition.prepare (previous.map toV1) e limits = .ok q)
    (happly : Transition.apply q sequence = .ok job) :
    ∃ m, Mutation.fromEvent e previous order = .ok m ∧ m.jobId = e.jobId ∧
      (m.body.availabilityOrder? = if job.availableSequence.isSome then some order else none) ∧
      ((job.availableSequence.isSome = true → Codec.uint? order = true) →
        admitJob previous m order limits =
          .ok (renumbered job sequence (e.expectedRevision + 1) order e.timestamp)) := by
  have hfields : ∀ p, previous = some p → Codec.Fields p limits ∧ Codec.stateFields? p = true :=
    fun p hp ↦ snapshot_toV1 (hstored p hp)
  have hq' := hq
  obtain ⟨⟨payload, hpayload⟩, hvalid, bytes, hbytes, rfl⟩ := prepare_eq_ok hq'
  have hevent : validateJob e = true := by
    have hencode := hpayload
    simp only [JobEvent.encode, bind_eq_ok, check_eq_ok] at hencode
    obtain ⟨-, -, -, hevent, -⟩ := hencode
    exact hevent
  simp only [validateJob, Bool.and_eq_true] at hevent
  obtain ⟨⟨⟨-, -⟩, hrevision⟩, -⟩ := hevent
  obtain ⟨m, hm, rfl, hnew, horder, -⟩ :=
    fromEvent_restates order (fun p hp ↦ (hfields p hp).2) hrevision hvalid
  have hready := availableSequence_ready (fun p hp ↦ (hfields p hp).2) hvalid happly
  refine ⟨m, hm, rfl, ?_, ?_⟩
  · rw [horder, hready]
  intro huint
  rw [hready] at huint
  have hposition := happly
  simp only [Transition.apply, check_bind_eq_ok, Bool.and_eq_true, decide_eq_true_eq] at hposition
  obtain ⟨⟨hsequence, hlt⟩, hnext⟩ := hposition
  simp only [sequence?, Bool.and_eq_true, decide_eq_true_eq] at hsequence
  have hexpected : m.expectedRevision < sequence := hlt
  have hbound : m.expectedRevision < maxSequence := by omega
  obtain ⟨hgate, havailability⟩ := gates_pass hvalid hrevision hbound hnew horder huint
  have hmutation := mutation_valid hpayload hnew (by omega) horder huint
  have hnumber : (sequence? m.newRevision && decide ((Codec.event m).expectedRevision < m.newRevision)) = true := by
    have hcompare : (Codec.event m).expectedRevision < m.newRevision := by
      rw [hnew]
      exact Nat.lt_succ_self _
    rw [decide_eq_true hcompare, Bool.and_true, hnew]
    simp only [sequence?, Bool.and_eq_true, decide_eq_true_eq]
    exact ⟨Nat.le_add_left 1 _, hbound⟩
  have hresult : ∃ applied, Transition.apply ⟨previous.map toV1, Codec.event m, bytes⟩ m.newRevision = .ok applied ∧
      fromV1 applied m = renumbered job sequence m.newRevision order m.timestamp := by
    cases previous with
    | none =>
      cases hbody : (Codec.event m).body with
      | inserted definition eligibleAt =>
        simp only [Option.map_none, hbody] at hnext
        cases hnext
        refine ⟨_, ?_, renumbered_inserted hbody horder⟩
        simp only [Transition.apply, hnumber, check_true, ok_bind, Option.map_none, hbody, pure_eq_ok]
      | available | started | finished | cancelled | retried =>
        simp only [Option.map_none, hbody] at hnext
        cases hnext
    | some p =>
      simp only [Option.map_some] at hnext
      cases hnext
      obtain ⟨hp, hstate⟩ := hfields p rfl
      have htransition : p.revision = m.expectedRevision ∧
          Transition.validTransition? (toV1 p) (Codec.event m) = true := by
        cases hbody : (Codec.event m).body with
        | inserted => simp [Transition.validPrevious?, hbody] at hvalid
        | available | started | finished | cancelled | retried =>
          simp only [Transition.validPrevious?, Option.map_some, hbody, Bool.and_eq_true, beq_iff_eq] at hvalid
          exact ⟨hvalid.1.2, hvalid.2⟩
      have hcycle := hp.cycle_le
      refine ⟨_, ?_, renumbered_next hstate (by omega) ?_ horder htransition.2⟩
      · simp only [Transition.apply, hnumber, check_true, ok_bind, Option.map_some, pure_eq_ok]
      · intro token htoken
        have hle := (hp.execution token htoken).2
        omega
  obtain ⟨applied, happlied, hsame⟩ := hresult
  have htime : (Codec.event m).timestamp = m.timestamp := rfl
  have hcount : (Codec.event m).expectedRevision + 1 = m.newRevision := hnew.symm
  rw [htime, hcount, ← hsame]
  simp only [admitJob, hmutation, hgate, havailability, hq, happlied, ok_bind, pure_eq_ok]

/-- **The mutation path simulates the transitions.** Of every event that a stored job accepts, the engine
makes a mutation. The reducer stores for it what the transition gives, with the numbers of the store and
the time of the end, unless the memory limit or the last order of availability is exceeded. -/
theorem mutation_simulates {c : Candidate} (hc : (Canonical.replay vm).Reachable c) {e : JobEvent} {q : Prepared}
    {sequence : ℕ} {job : Job} (hq : Transition.prepare ((c.jobs[e.jobId]?).map toV1) e c.valueLimits = .ok q)
    (happly : Transition.apply q sequence = .ok job) :
    ∃ m, Mutation.fromEvent e c.jobs[e.jobId]? c.nextAvailabilityOrder = .ok m ∧
      ((∃ c' stored, apply vm c m = .ok c' ∧ c'.jobs[e.jobId]? = some stored ∧ stored.durable =
          (renumbered job sequence (e.expectedRevision + 1) c.nextAvailabilityOrder e.timestamp).durable) ∨
        ∃ reason, apply vm c m = .error reason ∧ (reason.memory = true ∨
          job.availableSequence.isSome = true ∧ maxSequence < c.nextAvailabilityOrder)) := by
  have hstored := reachable_stored vm hc
  have hsnapshots : ∀ p, c.jobs[e.jobId]? = some p → Codec.snapshot? p c.valueLimits = .ok () :=
    fun p hp ↦ hstored.snapshots _ p hp
  obtain ⟨m, hm, hid, horder, hadmit⟩ := admitJob_simulates c.nextAvailabilityOrder hsnapshots hq happly
  refine ⟨m, hm, ?_⟩
  by_cases hroom : job.availableSequence.isSome = true → c.nextAvailabilityOrder ≤ maxSequence
  · have huint : job.availableSequence.isSome = true → Codec.uint? c.nextAvailabilityOrder = true := by
      intro hsome
      simp only [Codec.uint?, Bool.and_eq_true, decide_eq_true_eq]
      exact ⟨hstored.order, hroom hsome⟩
    have hnext := hadmit huint
    have hsnapshot : Codec.snapshot?
        (renumbered job sequence (e.expectedRevision + 1) c.nextAvailabilityOrder e.timestamp) c.valueLimits =
          .ok () := by
      cases hp : c.jobs[e.jobId]? with
      | none =>
        rw [hp] at hnext
        exact admitJob_inserted hnext
      | some p =>
        rw [hp] at hnext
        exact admitJob_next (hsnapshots p hp) hnext
    have htransition : transitionJob c.jobs[m.jobId]? m c.nextAvailabilityOrder c.valueLimits =
        .ok (renumbered job sequence (e.expectedRevision + 1) c.nextAvailabilityOrder e.timestamp) := by
      rw [hid, transitionJob_admitted, hnext, ok_bind, hsnapshot, ok_bind]
    rcases apply_cases vm htransition with ⟨ch, count, bytes, orders, hok⟩ | ⟨reason, herror, hmemory⟩
    · refine .inl ⟨_, (renumbered job sequence (e.expectedRevision + 1) c.nextAvailabilityOrder
        e.timestamp).charged ch, hok, ?_, ?_⟩
      · rw [Foundation.Table.get_insert, if_pos hid]
      · exact Job.durable_charged _ ch
    · exact .inr ⟨reason, herror, .inl hmemory⟩
  · -- The next order is past the last one: the mutation is refused as such.
    obtain ⟨hsome, hlt⟩ := Classical.not_imp.mp hroom
    rw [hsome, if_pos rfl] at horder
    cases hresult : apply vm c m with
    | error reason => exact .inr ⟨reason, rfl, .inr ⟨hsome, Nat.lt_of_not_le hlt⟩⟩
    | ok c' =>
      obtain ⟨stored, ch, htransition, -⟩ := apply_eq_ok vm hresult
      simp only [transitionJob, bind_eq_ok, availabilityGate, horder, check_eq_ok, Bool.and_eq_true,
        decide_eq_true_eq] at htransition
      obtain ⟨-, -, -, -, -, ⟨-, hle⟩, -⟩ := htransition
      exact absurd hle hlt

namespace Sample

open Tay.Sample

def job (id order : ℕ) : Canonical.Entry := .mutation ⟨id, 0, 1, 10, .inserted definition 10 (some order)⟩

/-- A snapshot of a job that has the last order. -/
def last : Canonical.Entry := .snapshot
  ⟨1, definition, definition.toValue.wire, .available, 0, some 1, 1, none, some 10, none, some maxSequence, 10, none,
    none, none, none, 1, none⟩

/-- The next job to come. -/
def arrival : JobEvent := ⟨2, 0, 10, .inserted definition 10⟩

end Sample

/-- The simulation without its bounds: every event a job accepts is stored, and only the revision, the tokens
and the order of availability are renumbered. -/
def Unbounded (c : Candidate) (e : JobEvent) (sequence : ℕ) : Prop :=
  ∀ q job, Transition.prepare ((c.jobs[e.jobId]?).map toV1) e c.valueLimits = .ok q →
    Transition.apply q sequence = .ok job →
    ∃ m c' stored, Mutation.fromEvent e c.jobs[e.jobId]? c.nextAvailabilityOrder = .ok m ∧
      apply vm c m = .ok c' ∧ c'.jobs[e.jobId]? = some stored ∧ stored.durable =
        { (renumbered job sequence (e.expectedRevision + 1) c.nextAvailabilityOrder e.timestamp).durable with
          terminalAt := job.terminalAt }

/-- The event is accepted, and what the reducer makes of its mutation is something else. -/
def diverges (c : Candidate) (e : JobEvent) (sequence : ℕ) : Bool :=
  (Transition.prepare ((c.jobs[e.jobId]?).map toV1) e c.valueLimits).toOption.any fun q ↦
    (Transition.apply q sequence).toOption.any fun job ↦
      (Mutation.fromEvent e c.jobs[e.jobId]? c.nextAvailabilityOrder).toOption.all fun m ↦
        (apply vm c m).toOption.all fun c' ↦ (c'.jobs[e.jobId]?).all fun stored ↦
          stored.durable !=
            { (renumbered job sequence (e.expectedRevision + 1) c.nextAvailabilityOrder e.timestamp).durable with
              terminalAt := job.terminalAt }

theorem not_unbounded {c : Candidate} {e : JobEvent} {sequence : ℕ} (h : diverges vm c e sequence = true) :
    ¬ Unbounded vm c e sequence := by
  intro hunbounded
  obtain ⟨q, hq, h⟩ := (Option.any_eq_true _ _).mp h
  obtain ⟨job, hjob, h⟩ := (Option.any_eq_true _ _).mp h
  obtain ⟨m, c', stored, hm, hc', hstored, hsame⟩ :=
    hunbounded q job (toOption_eq_some.mp hq) (toOption_eq_some.mp hjob)
  rw [toOption_eq_some.mpr hm, Option.all_some, toOption_eq_some.mpr hc', Option.all_some, hstored,
    Option.all_some, hsame] at h
  simp at h

/-- The memory limit, the last order of availability, and the time of a cancellation, which is the store's
own: one event each that the simulation without bounds gets wrong. -/
theorem mutation_simulates_bounded :
    (∃ c, (Canonical.replay Tay.Sample.runtime).Reachable c ∧
      ¬ Unbounded Tay.Sample.runtime c Sample.arrival 1) ∧
    (∃ c, (Canonical.replay Tay.Sample.runtime).Reachable c ∧ c.limits = Tay.Sample.limits ∧
      ¬ Unbounded Tay.Sample.runtime c Sample.arrival 2) ∧
    ∃ c, (Canonical.replay Tay.Sample.runtime).Reachable c ∧
      ¬ Unbounded Tay.Sample.runtime c ⟨1, 1, 20, .cancelled none⟩ 2 := by
  refine ⟨?_, ?_, ?_⟩
  · obtain ⟨c, hc, hp⟩ := Canonical.played Tay.Sample.runtime (candidate ⟨100, 0, false, []⟩ Value.defaults) []
      (p := fun c ↦ diverges Tay.Sample.runtime c Sample.arrival 1) ⟨_, _, rfl⟩ (by decide +kernel)
    exact ⟨c, hc, not_unbounded _ hp⟩
  · obtain ⟨c, hc, hp⟩ := Canonical.played Tay.Sample.runtime Tay.Sample.fresh [Sample.last]
      (p := fun c ↦ decide (c.limits = Tay.Sample.limits) && diverges Tay.Sample.runtime c Sample.arrival 2)
      ⟨_, _, rfl⟩ (by decide +kernel)
    rw [Bool.and_eq_true, decide_eq_true_eq] at hp
    exact ⟨c, hc, hp.1, not_unbounded _ hp.2⟩
  · obtain ⟨c, hc, hp⟩ := Canonical.played Tay.Sample.runtime Tay.Sample.fresh [Sample.job 1 1]
      (p := fun c ↦ diverges Tay.Sample.runtime c ⟨1, 1, 20, .cancelled none⟩ 2) ⟨_, _, rfl⟩ (by decide +kernel)
    exact ⟨c, hc, not_unbounded _ hp⟩

/-- A job is started: the version at position 9 of the log has revision 2 in the store, and the token is the
revision. -/
theorem mutation_simulates_started : ∃ c m c' stored, (Canonical.replay Tay.Sample.runtime).Reachable c ∧
    Mutation.fromEvent ⟨1, 1, 20, .started 1 1⟩ c.jobs[1]? c.nextAvailabilityOrder = .ok m ∧
    apply Tay.Sample.runtime c m = .ok c' ∧ c'.jobs[1]? = some stored ∧ stored.revision = 2 ∧
    stored.execution = some 2 := by
  obtain ⟨c, hc, hp⟩ := Canonical.played Tay.Sample.runtime Tay.Sample.fresh [Sample.job 1 1]
    (p := fun c ↦
      (Transition.prepare ((c.jobs[1]?).map toV1) ⟨1, 1, 20, .started 1 1⟩ c.valueLimits).toOption.any fun q ↦
        (Transition.apply q 9).toOption.any fun job ↦
          job.execution == some 9 && job.availableSequence.isNone &&
            (Mutation.fromEvent ⟨1, 1, 20, .started 1 1⟩ c.jobs[1]? c.nextAvailabilityOrder).toOption.all fun m ↦
              (apply Tay.Sample.runtime c m).isOk) ⟨_, _, rfl⟩ (by decide +kernel)
  obtain ⟨q, hq, hp⟩ := (Option.any_eq_true _ _).mp hp
  obtain ⟨job, hjob, hp⟩ := (Option.any_eq_true _ _).mp hp
  rw [Bool.and_eq_true, Bool.and_eq_true, beq_iff_eq] at hp
  obtain ⟨⟨htoken, -⟩, hp⟩ := hp
  obtain ⟨m, hm, hresult⟩ := mutation_simulates Tay.Sample.runtime hc
    (toOption_eq_some.mp hq) (toOption_eq_some.mp hjob)
  rw [toOption_eq_some.mpr hm, Option.all_some] at hp
  rcases hresult with ⟨c', stored, hc', hstored, hsame⟩ | ⟨reason, herror, -⟩
  · refine ⟨c, m, c', stored, hc, hm, hc', hstored, ?_, ?_⟩
    · have hrevision := congrArg Job.revision hsame
      exact hrevision
    · have hexecution := congrArg Job.execution hsame
      simp only [renumbered, Job.durable, htoken] at hexecution
      exact hexecution
  · rw [herror] at hp
    cases hp

end Reducer

end Tay
