import Tay.Storage.Codec

/-!
# The reducer

`Tay.Storage.V2.Reducer`: pure logical replay. `apply` performs one mutation on a whole candidate,
`applyOne` on a single job the engine has looked up. Both are the same transition,
`transitionJob`, followed by the bookkeeping of the candidate at hand; `apply_eq` and
`applyOne_eq` say so, and every later comparison of live state with replay goes through them.
-/

open Foundation

namespace Tay

open V2

namespace Reducer

def revisionGate (previous : Option Job) (m : Mutation) : Except Reason Unit :=
  match previous with
  | none =>
    if m.body.isInserted then
      check (m.expectedRevision == 0 && m.newRevision == 1) .invalidInsertRevision
    else .error .missingJob
  | some p =>
    if m.body.isInserted then .error .duplicateInsert
    else if p.revision == maxSequence then .error .logicalRevisionExhausted
    else check (m.expectedRevision == p.revision && m.newRevision == p.revision + 1)
      .revisionConflict

def availabilityGate (nextOrder : ℕ) (m : Mutation) : Except Reason Unit :=
  match m.body.availabilityOrder? with
  | none => .ok ()
  | some order => check (order == nextOrder && order ≤ maxSequence) .availabilityOrderConflict

def toV1 (job : Job) : Job := { job with availableSequence := job.availabilityOrder }

def fromV1 (job : Job) (m : Mutation) : Job :=
  { job with
    availableSequence := none
    availabilityOrder := if job.state == .available then m.body.availabilityOrder? else none
    terminalAt := if job.state.terminal then some m.timestamp else none }

/-- Whether the order table is updated by a snapshot or by a mutation. -/
inductive Mode
  | snapshot
  | mutation

def updateOrder (c : Candidate) (old new : Option ℕ) (mode : Mode) : Candidate :=
  let orders := match old with | some o => c.availabilityOrders.erase o | none => c.availabilityOrders
  let orders := match new with | some o => insert o orders | none => orders
  let next := match mode with
    | .snapshot => max c.nextAvailabilityOrder (match new with | some o => o + 1 | none => 1)
    | .mutation => match new with | some o => o + 1 | none => c.nextAvailabilityOrder
  { c with availabilityOrders := orders, nextAvailabilityOrder := next }

variable (vm : Runtime)

def insertSnapshot (c : Candidate) (job : Job) : Except Reason Candidate := do
  Codec.snapshot? job c.valueLimits
  check (c.jobs[job.id]?).isNone .duplicateSnapshot
  check (job.availabilityOrder.all (· ∉ c.availabilityOrders)) .duplicateAvailabilityOrder
  let next ← Transition.putCandidate vm c none job
  return updateOrder next none job.availabilityOrder .snapshot

def apply (c : Candidate) (m : Mutation) : Except Reason Candidate := do
  Codec.mutation? m c.valueLimits
  let previous := c.jobs[m.jobId]?
  revisionGate previous m
  availabilityGate c.nextAvailabilityOrder m
  let prepared ← Transition.prepare (previous.map toV1) (Codec.event m) c.valueLimits
  let applied ← Transition.apply prepared m.newRevision
  let job := fromV1 applied m
  Codec.snapshot? job c.valueLimits
  let next ← Transition.putCandidate vm c previous job
  return updateOrder next (previous.bind (·.availabilityOrder)) job.availabilityOrder .mutation

/-- The one-job candidate a live transition is validated against. -/
def seed (previous : Option Job) (m : Mutation) (nextOrder : ℕ) (limits : CandidateLimits)
    (valueLimits : Value.Limits) : Candidate :=
  let c := candidate limits valueLimits
  match previous with
  | none => { c with nextAvailabilityOrder := nextOrder }
  | some p =>
    { c with
      jobs := (∅ : Table JobId Job).insert m.jobId p
      count := Transition.activeCount (some p)
      bytes := Transition.activeBytes (some p)
      availabilityOrders := match p.availabilityOrder with | some o => {o} | none => ∅
      nextAvailabilityOrder := nextOrder }

def applyOne (previous : Option Job) (m : Mutation) (nextOrder : ℕ) (limits : CandidateLimits)
    (valueLimits : Value.Limits) : Except Reason (Job × ℕ) := do
  let next ← apply vm (seed previous m nextOrder limits valueLimits) m
  match next.jobs[m.jobId]? with
  | some job => return (job, next.nextAvailabilityOrder)
  | none => .error .raised

/-! ## The transition both share -/

/-- The next version of one job, before any accounting: every check of `apply` that concerns the
mutation, the previous version and the next order. -/
def transitionJob (previous : Option Job) (m : Mutation) (nextOrder : ℕ)
    (valueLimits : Value.Limits) : Except Reason Job := do
  Codec.mutation? m valueLimits
  revisionGate previous m
  availabilityGate nextOrder m
  let prepared ← Transition.prepare (previous.map toV1) (Codec.event m) valueLimits
  let applied ← Transition.apply prepared m.newRevision
  let job := fromV1 applied m
  Codec.snapshot? job valueLimits
  return job

/-- The next order once a job has taken `order`, if it took one. -/
def orderAfter (nextOrder : ℕ) (order : Option ℕ) : ℕ :=
  match order with
  | some o => o + 1
  | none => nextOrder

theorem apply_eq (c : Candidate) (m : Mutation) :
    apply vm c m =
      transitionJob c.jobs[m.jobId]? m c.nextAvailabilityOrder c.valueLimits >>= fun job ↦
        Transition.putCandidate vm c c.jobs[m.jobId]? job >>= fun next ↦
          .ok (updateOrder next ((c.jobs[m.jobId]?).bind (·.availabilityOrder))
            job.availabilityOrder .mutation) := by
  simp only [apply, transitionJob, bind_assoc, pure_eq_ok, ok_bind]

/-- The transition commutes with forgetting the charge. -/
theorem transitionJob_durable (previous : Option Job) (m : Mutation) (nextOrder : ℕ)
    (valueLimits : Value.Limits) :
    transitionJob (previous.map Job.durable) m nextOrder valueLimits =
      Job.durable <$> transitionJob previous m nextOrder valueLimits := by
  have hgate : revisionGate (previous.map Job.durable) m = revisionGate previous m := by
    cases previous <;> rfl
  have hv1 : (previous.map Job.durable).map toV1 = (previous.map toV1).map Job.durable := by
    cases previous <;> rfl
  simp only [transitionJob, hgate, hv1, Transition.prepare_durable]
  cases Codec.mutation? m valueLimits with
  | error e => rfl
  | ok u =>
    cases revisionGate previous m with
    | error e => rfl
    | ok u =>
      cases availabilityGate nextOrder m with
      | error e => rfl
      | ok u =>
        cases Transition.prepare (previous.map toV1) (Codec.event m) valueLimits with
        | error e => rfl
        | ok q =>
          simp only [ok_bind, map_ok, Transition.apply_durable]
          cases Transition.apply q m.newRevision with
          | error e => rfl
          | ok job =>
            have hsnap : Codec.snapshot? (fromV1 job.durable m) valueLimits =
                Codec.snapshot? (fromV1 job m) valueLimits := rfl
            simp only [ok_bind, map_ok, hsnap]
            cases Codec.snapshot? (fromV1 job m) valueLimits with
            | error e => rfl
            | ok u => rfl

/-- Two versions of a job that differ in their charge at most make the same transition. -/
theorem transitionJob_congr {p q : Option Job} {m : Mutation} {nextOrder : ℕ}
    {valueLimits : Value.Limits} {job : Job} (hpq : p.map Job.durable = q.map Job.durable)
    (h : transitionJob p m nextOrder valueLimits = .ok job) :
    ∃ job', transitionJob q m nextOrder valueLimits = .ok job' ∧ job'.durable = job.durable := by
  have hp := transitionJob_durable p m nextOrder valueLimits
  have hq := transitionJob_durable q m nextOrder valueLimits
  rw [hpq, hq, h, map_ok] at hp
  cases hq' : transitionJob q m nextOrder valueLimits with
  | error e =>
    rw [hq'] at hp
    cases hp
  | ok job' =>
    rw [hq', map_ok] at hp
    exact ⟨job', rfl, Except.ok.inj hp⟩

/-- The next order is only checked: two accepted transitions of one job are the same. -/
theorem transitionJob_order {previous : Option Job} {m : Mutation} {order order' : ℕ}
    {valueLimits : Value.Limits} {job job' : Job}
    (h : transitionJob previous m order valueLimits = .ok job)
    (h' : transitionJob previous m order' valueLimits = .ok job') : job = job' := by
  simp only [transitionJob, bind_eq_ok, pure_eq_ok] at h h'
  obtain ⟨-, -, -, -, -, -, q, hq, applied, happlied, -, -, h⟩ := h
  obtain ⟨-, -, -, -, -, -, q', hq', applied', happlied', -, -, h'⟩ := h'
  rw [hq] at hq'
  cases hq'
  rw [happlied] at happlied'
  cases happlied'
  exact (Except.ok.inj h).symm.trans (Except.ok.inj h')

/-- Exactly an insertion starts from no job. -/
theorem transitionJob_inserted {previous : Option Job} {m : Mutation} {order : ℕ}
    {valueLimits : Value.Limits} {job : Job}
    (h : transitionJob previous m order valueLimits = .ok job) :
    m.body.isInserted = previous.isNone := by
  simp only [transitionJob, bind_eq_ok] at h
  obtain ⟨-, -, u, hgate, -⟩ := h
  rcases hinserted : m.body.isInserted with _ | _ <;> rcases previous with _ | p <;>
    simp [revisionGate, hinserted] at hgate ⊢

theorem transitionJob_id {previous : Option Job} {m : Mutation} {nextOrder : ℕ}
    {valueLimits : Value.Limits} {job : Job}
    (h : transitionJob previous m nextOrder valueLimits = .ok job) : job.id = m.jobId := by
  simp only [transitionJob, bind_eq_ok] at h
  obtain ⟨-, -, -, -, -, -, q, hq, applied, happlied, -, -, h⟩ := h
  cases h
  have hid : applied.id = m.jobId := Transition.apply_id hq happlied
  exact hid

/-- A transition is applied to the job it names. -/
theorem transitionJob_previous {p : Job} {m : Mutation} {nextOrder : ℕ}
    {valueLimits : Value.Limits} {job : Job}
    (h : transitionJob (some p) m nextOrder valueLimits = .ok job) : p.id = m.jobId := by
  simp only [transitionJob, Option.map_some, Transition.prepare, bind_eq_ok, check_eq_ok] at h
  obtain ⟨-, -, -, -, -, -, q, ⟨-, -, -, hvalid, -⟩, -⟩ := h
  cases hbody : (Codec.event m).body with
  | inserted => simp [Transition.validPrevious?, hbody] at hvalid
  | available | started | finished | cancelled | retried =>
    simp only [Transition.validPrevious?, hbody, Bool.and_eq_true, beq_iff_eq] at hvalid
    exact hvalid.1.1

theorem snapshot?_measure {job : Job} {valueLimits : Value.Limits} {u : Unit}
    (h : Codec.snapshot? job valueLimits = .ok u) :
    ∃ stats, job.definition.toValue.measure valueLimits Value.maxBytes = .ok stats := by
  simp only [Codec.snapshot?, Value.encode, bind_eq_ok, check_eq_ok] at h
  obtain ⟨-, -, -, -, -, ⟨stats, hstats, -⟩, -⟩ := h
  exact ⟨stats, hstats⟩

theorem transitionJob_snapshot {previous : Option Job} {m : Mutation} {nextOrder : ℕ}
    {valueLimits : Value.Limits} {job : Job}
    (h : transitionJob previous m nextOrder valueLimits = .ok job) :
    Codec.snapshot? job valueLimits = .ok () := by
  simp only [transitionJob, bind_eq_ok] at h
  obtain ⟨-, -, -, -, -, -, q, -, applied, -, u, hsnap, h⟩ := h
  cases h
  exact hsnap

/-- Applying an accepted transition can only be refused for memory. -/
theorem apply_cases {c : Candidate} {m : Mutation} {job : Job}
    (h : transitionJob c.jobs[m.jobId]? m c.nextAvailabilityOrder c.valueLimits = .ok job) :
    (∃ ch count bytes orders, apply vm c m =
        .ok { c with
          jobs := c.jobs.insert m.jobId (job.charged ch)
          count := count
          bytes := bytes
          availabilityOrders := orders
          nextAvailabilityOrder := orderAfter c.nextAvailabilityOrder job.availabilityOrder }) ∨
      ∃ e, apply vm c m = .error e ∧ e.memory = true := by
  obtain ⟨stats, hstats⟩ := snapshot?_measure (transitionJob_snapshot h)
  rw [apply_eq, h, ok_bind]
  rcases Transition.putCandidate_cases vm c c.jobs[m.jobId]? hstats with
    ⟨ch, count, bytes, hput⟩ | ⟨e, he, hmem⟩
  · rw [hput, transitionJob_id h]
    exact .inl ⟨ch, count, bytes, _, rfl⟩
  · rw [he]
    exact .inr ⟨e, rfl, hmem⟩

theorem apply_eq_ok {c c' : Candidate} {m : Mutation} (h : apply vm c m = .ok c') :
    ∃ job ch,
      transitionJob c.jobs[m.jobId]? m c.nextAvailabilityOrder c.valueLimits = .ok job ∧
      c' = { c with
        jobs := c.jobs.insert m.jobId (job.charged ch)
        count := c'.count
        bytes := c'.bytes
        availabilityOrders := c'.availabilityOrders
        nextAvailabilityOrder := orderAfter c.nextAvailabilityOrder job.availabilityOrder } := by
  rw [apply_eq] at h
  obtain ⟨job, hjob, h⟩ := bind_eq_ok.mp h
  obtain ⟨next, hnext, h⟩ := bind_eq_ok.mp h
  obtain ⟨ch, hch⟩ := Transition.putCandidate_eq_ok vm hnext
  cases h
  refine ⟨job, ch, hjob, ?_⟩
  rw [transitionJob_id hjob] at hch
  rw [hch]
  rfl

/-- A live transition is the shared transition on the job that was looked up. -/
theorem applyOne_eq_ok {previous : Option Job} {m : Mutation} {nextOrder order : ℕ}
    {limits : CandidateLimits} {valueLimits : Value.Limits} {job : Job}
    (h : applyOne vm previous m nextOrder limits valueLimits = .ok (job, order)) :
    ∃ job', transitionJob previous m nextOrder valueLimits = .ok job' ∧
      job.durable = job'.durable ∧ order = orderAfter nextOrder job'.availabilityOrder := by
  obtain ⟨next, hnext, h⟩ := bind_eq_ok.mp h
  have hseed : (seed previous m nextOrder limits valueLimits).jobs[m.jobId]? = previous := by
    cases previous with
    | none => simp [seed, candidate]
    | some p => simp [seed]
  have horder : (seed previous m nextOrder limits valueLimits).nextAvailabilityOrder =
      nextOrder := by
    cases previous <;> rfl
  have hlimits : (seed previous m nextOrder limits valueLimits).valueLimits = valueLimits := by
    cases previous <;> rfl
  obtain ⟨job', ch, hjob', hnext'⟩ := apply_eq_ok vm hnext
  rw [hseed, horder, hlimits] at hjob'
  rw [horder] at hnext'
  rw [hnext'] at h
  simp only [Std.ExtTreeMap.getElem?_insert_self, pure_eq_ok] at h
  cases h
  exact ⟨job', hjob', rfl, rfl⟩

end Reducer

end Tay
