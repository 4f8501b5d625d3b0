import Mathlib.Algebra.Order.BigOperators.Group.List
import Tay.Storage.Canonical

/-!
# Replaying the canonical form

The snapshots of a candidate's jobs and then its canonical events, replayed on an empty candidate. Each
event finds its entry missing and puts it back, so what could still refuse one is memory.

A job is charged for the largest form it can take in its life, so its charge is the same whether it was
inserted and changed or read from a snapshot. The bytes of every replay are then those of its entries,
and a replay of the canonical form stays below a total that was admitted before.
-/

open Foundation

namespace Tay

open V2

namespace Canonical

variable (vm : Runtime)

/-! ## Weights -/

/-- `retained_bytes` measures a job with the largest value in every field that a transition changes. -/
def Steady : Prop :=
  ∀ j k : Job, j.id = k.id → j.definition = k.definition → j.definitionBytes = k.definitionBytes →
    vm.flatHeapBytes j.durable = vm.flatHeapBytes k.durable

/-- The charge of a job is what its definition measures, and the reserve of its state. -/
def Charged (valueLimits : Value.Limits) (limits : CandidateLimits) (job : Job) : Prop :=
  ∃ stats, job.definition.toValue.measure valueLimits Value.maxBytes = .ok stats ∧
    job.charge = some ⟨Transition.retainedBytes vm job stats.binaryBytes + Transition.resultReserve job limits,
      Transition.retainedBytes vm job stats.binaryBytes⟩

/-- What a job counts for. -/
def jobBytes (job : Job) : ℤ := Transition.activeBytes (some job)

/-- The bytes of a candidate are those of its entries. -/
structure Weighed (c : Candidate) : Prop where
  charged : ∀ (id : JobId) (job : Job), c.jobs[id]? = some job → Charged vm c.valueLimits c.limits job
  bytes : c.bytes = Table.total jobBytes c.jobs + Table.total (fun s ↦ (vm.scheduleBytes s : ℤ)) c.schedules +
    Table.total (fun r ↦ (vm.resultBytes r : ℤ)) c.results
  bound : c.bytes ≤ c.limits.maxBytes

theorem weighed_candidate (limits : CandidateLimits) (valueLimits : Value.Limits) :
    Weighed vm (candidate limits valueLimits) := by
  refine ⟨?_, ?_, ?_⟩
  · intro id job hjob
    simp [candidate] at hjob
  · simp only [candidate, Table.total_empty]
    rfl
  · exact Int.natCast_nonneg _

theorem check_bound {limits : CandidateLimits} {bytes : ℤ} {u : Unit}
    (h : Memory.check limits bytes = .ok u) : bytes ≤ limits.maxBytes := by
  unfold Memory.check at h
  split at h
  · split at h <;> cases h
  · omega

theorem check_of_bound {limits : CandidateLimits} {bytes : ℤ} (h : bytes ≤ limits.maxBytes) :
    Memory.check limits bytes = .ok () := by
  rw [Memory.check, if_neg (by omega)]

/-- What a stored job costs. -/
theorem putCandidate_bytes {c c' : Candidate} {previous : Option Job} {job : Job}
    (h : Transition.putCandidate vm c previous job = .ok c') :
    ∃ base, Transition.chargeBase vm job c.valueLimits = .ok base ∧
      c'.jobs = c.jobs.insert job.id (job.charged ⟨base + Transition.resultReserve job c.limits, base⟩) ∧
      c'.bytes = c.bytes - Transition.activeBytes previous +
        jobBytes (job.charged ⟨base + Transition.resultReserve job c.limits, base⟩) ∧
      c'.bytes ≤ c.limits.maxBytes := by
  simp only [Transition.putCandidate, Transition.charge, bind_eq_ok, pure_eq_ok] at h
  obtain ⟨job', ⟨base, hbase, hjob⟩, _, hcheck, h⟩ := h
  cases hjob
  cases h
  exact ⟨base, hbase, rfl, rfl, check_bound hcheck⟩

/-- A job is stored in the place of its last version. -/
theorem Weighed.insertJob {c c' : Candidate} (h : Weighed vm c) {id : JobId} {job : Job}
    (hcharged : Charged vm c.valueLimits c.limits job) (hjobs : c'.jobs = c.jobs.insert id job)
    (hbytes : c'.bytes = c.bytes - Transition.activeBytes c.jobs[id]? + jobBytes job)
    (hbound : c'.bytes ≤ c.limits.maxBytes) (hschedules : c'.schedules = c.schedules)
    (hresults : c'.results = c.results) (hlimits : c'.limits = c.limits)
    (hvalues : c'.valueLimits = c.valueLimits) : Weighed vm c' := by
  refine ⟨?_, ?_, ?_⟩
  · intro k j hj
    rw [hjobs, Foundation.Table.get_insert] at hj
    rw [hlimits, hvalues]
    split at hj
    · cases hj
      exact hcharged
    · exact h.charged k j hj
  · have hold : (c.jobs[id]?).elim 0 jobBytes = Transition.activeBytes c.jobs[id]? := by
      cases c.jobs[id]? <;> rfl
    rw [hbytes, hjobs, hschedules, hresults, Foundation.Table.total_insert, hold, h.bytes]
    omega
  · rw [hlimits]
    exact hbound

/-- A transition keeps what a job is charged for. -/
theorem transitionJob_kept {p job : Job} {m : Mutation} {order : ℕ} {limits : Value.Limits}
    (h : Reducer.transitionJob (some p) m order limits = .ok job) :
    job.id = p.id ∧ job.definition = p.definition ∧ job.definitionBytes = p.definitionBytes ∧
      job.charge = p.charge := by
  rw [Reducer.transitionJob_admitted] at h
  obtain ⟨next, hnext, h⟩ := bind_eq_ok.mp h
  obtain ⟨-, -, h⟩ := bind_eq_ok.mp h
  cases h
  obtain ⟨-, -, -, rfl⟩ := Reducer.admitJob_some hnext
  cases hbody : (Codec.event m).body with
  | retried mode newDueAt =>
    simp only [Reducer.fromV1, Transition.next, hbody]
    split <;> exact ⟨rfl, rfl, rfl, rfl⟩
  | inserted | available | started | finished | cancelled =>
    simp only [Reducer.fromV1, Transition.next, hbody]
    exact ⟨rfl, rfl, rfl, rfl⟩

theorem transitionJob_uncharged {job : Job} {m : Mutation} {order : ℕ} {limits : Value.Limits}
    (h : Reducer.transitionJob none m order limits = .ok job) : job.charge = none := by
  simp only [Reducer.transitionJob, Option.map_none, Transition.prepare, bind_eq_ok, pure_eq_ok] at h
  obtain ⟨-, -, -, -, -, -, q, ⟨-, -, -, -, bytes, -, hq⟩, applied, happlied, -, -, h⟩ := h
  cases h
  cases hq
  simp only [Transition.apply, check_bind_eq_ok] at happlied
  cases hbody : (Codec.event m).body with
  | inserted definition eligibleAt =>
    rw [hbody] at happlied
    cases happlied.2
    rfl
  | available | started | finished | cancelled | retried =>
    rw [hbody] at happlied
    cases happlied.2

/-- A job without a charge is measured. -/
theorem charged_fresh {job : Job} {valueLimits : Value.Limits} (limits : CandidateLimits) {base : ℕ}
    (hnone : job.charge = none) (h : Transition.chargeBase vm job valueLimits = .ok base) :
    Charged vm valueLimits limits (job.charged ⟨base + Transition.resultReserve job limits, base⟩) := by
  unfold Transition.chargeBase at h
  rw [hnone] at h
  cases hmeasure : job.definition.toValue.measure valueLimits Value.maxBytes with
  | error e =>
    rw [hmeasure] at h
    cases h
  | ok stats =>
    rw [hmeasure] at h
    cases h
    exact ⟨stats, hmeasure, rfl⟩

/-- A charge goes over to the next version, up to the reserve of its state. -/
theorem Charged.next {p job : Job} {valueLimits : Value.Limits} {limits : CandidateLimits} {base : ℕ}
    (hvm : Steady vm) (hp : Charged vm valueLimits limits p) (hid : job.id = p.id)
    (hdefinition : job.definition = p.definition) (hbytes : job.definitionBytes = p.definitionBytes)
    (hcharge : job.charge = p.charge) (h : Transition.chargeBase vm job valueLimits = .ok base) :
    Charged vm valueLimits limits (job.charged ⟨base + Transition.resultReserve job limits, base⟩) := by
  obtain ⟨stats, hstats, hpcharge⟩ := hp
  unfold Transition.chargeBase at h
  rw [hcharge, hpcharge] at h
  cases h
  have hretained : Transition.retainedBytes vm p stats.binaryBytes =
      Transition.retainedBytes vm job stats.binaryBytes := by
    rw [Transition.retainedBytes, Transition.retainedBytes, hvm p job hid.symm hdefinition.symm hbytes.symm,
      hbytes]
  rw [hretained]
  exact ⟨stats, hdefinition ▸ hstats, rfl⟩

theorem Weighed.insertSnapshot {c c' : Candidate} {job : Job} (h : Weighed vm c)
    (hinsert : Reducer.insertSnapshot vm c job.durable = .ok c') : Weighed vm c' := by
  simp only [Reducer.insertSnapshot, bind_eq_ok, check_eq_ok, pure_eq_ok] at hinsert
  obtain ⟨-, -, -, hfree, -, -, next, hnext, hc'⟩ := hinsert
  obtain ⟨base, hbase, hjobs, hbytes, hbound⟩ := putCandidate_bytes vm hnext
  obtain ⟨ch, hframe⟩ := Transition.putCandidate_eq_ok vm hnext
  cases hc'
  rw [Option.isNone_iff_eq_none] at hfree
  refine h.insertJob vm (charged_fresh vm c.limits rfl hbase) hjobs ?_ hbound ?_ ?_ ?_ ?_
  · rw [hfree]
    exact hbytes
  · show next.schedules = c.schedules
    rw [hframe]
  · show next.results = c.results
    rw [hframe]
  · show next.limits = c.limits
    rw [hframe]
  · show next.valueLimits = c.valueLimits
    rw [hframe]

theorem Weighed.apply {c c' : Candidate} {m : Mutation} (hvm : Steady vm) (h : Weighed vm c)
    (happly : Reducer.apply vm c m = .ok c') : Weighed vm c' := by
  rw [Reducer.apply_eq] at happly
  obtain ⟨job, hjob, happly⟩ := bind_eq_ok.mp happly
  obtain ⟨next, hnext, hc'⟩ := bind_eq_ok.mp happly
  obtain ⟨base, hbase, hjobs, hbytes, hbound⟩ := putCandidate_bytes vm hnext
  obtain ⟨ch, hframe⟩ := Transition.putCandidate_eq_ok vm hnext
  cases hc'
  have hcharged : Charged vm c.valueLimits c.limits
      (job.charged ⟨base + Transition.resultReserve job c.limits, base⟩) := by
    cases hp : c.jobs[m.jobId]? with
    | none =>
      rw [hp] at hjob
      exact charged_fresh vm c.limits (transitionJob_uncharged hjob) hbase
    | some p =>
      rw [hp] at hjob
      obtain ⟨hid, hdefinition, hcopy, hcharge⟩ := transitionJob_kept hjob
      exact (h.charged _ p hp).next vm hvm hid hdefinition hcopy hcharge hbase
  rw [Reducer.transitionJob_id hjob] at hjobs
  refine h.insertJob vm hcharged hjobs hbytes hbound ?_ ?_ ?_ ?_
  · show next.schedules = c.schedules
    rw [hframe]
  · show next.results = c.results
    rw [hframe]
  · show next.limits = c.limits
    rw [hframe]
  · show next.valueLimits = c.valueLimits
    rw [hframe]

/-- An event moves the bytes by what its entry takes. -/
theorem reduce_bytes {c c' : Candidate} {e : AuxEvent} {sequence : ℕ}
    (h : Auxiliary.reduce vm c e sequence = .ok c') :
    ∃ next, Auxiliary.applyEvent c e sequence = .ok next ∧
      c' = { next with bytes := c'.bytes, auxiliaryBytes := c'.auxiliaryBytes } ∧
      c'.bytes = c.bytes - (Auxiliary.entryBytes vm c e.body : ℤ) + (Auxiliary.entryBytes vm next e.body : ℤ) ∧
      c'.bytes ≤ c.limits.maxBytes := by
  simp only [Auxiliary.reduce, bind_eq_ok, pure_eq_ok] at h
  obtain ⟨-, -, -, -, next, hnext, _, hcheck, h⟩ := h
  cases h
  exact ⟨next, hnext, rfl, rfl, check_bound hcheck⟩

/-- The bytes of the schedule an event names. -/
theorem entryBytes_schedule {c : Candidate} {body : AuxBody} {id : Binary} (h : body.scheduleId? = some id) :
    (Auxiliary.entryBytes vm c body : ℤ) = (c.schedules[id]?).elim 0 fun s ↦ (vm.scheduleBytes s : ℤ) := by
  have hentry : Auxiliary.entryBytes vm c body = (c.schedules[id]?).elim 0 vm.scheduleBytes := by
    cases body with
    | resultRecorded => cases h
    | scheduleRegistered | scheduleAdvanced | scheduleCancelled | scheduleDelivered | scheduleCheckpoint
      | scheduleMembership =>
      cases h
      rfl
  rw [hentry]
  cases c.schedules[id]? <;> rfl

theorem entryBytes_result (c : Candidate) (id : JobId) (value : Value) :
    (Auxiliary.entryBytes vm c (.resultRecorded id value) : ℤ) =
      (c.results[id]?).elim 0 fun r ↦ (vm.resultBytes r : ℤ) := by
  have hentry : Auxiliary.entryBytes vm c (.resultRecorded id value) =
      (c.results[id]?).elim 0 vm.resultBytes := rfl
  rw [hentry]
  cases c.results[id]? <;> rfl

theorem Weighed.reduce {c c' : Candidate} {e : AuxEvent} {sequence : ℕ} (h : Weighed vm c)
    (hkeyed : Keyed Schedule.id c.schedules) (hreduce : Auxiliary.reduce vm c e sequence = .ok c') :
    Weighed vm c' := by
  obtain ⟨next, hnext, hframe, hbytes, hbound⟩ := reduce_bytes vm hreduce
  have htotal := h.bytes
  cases accepted hkeyed hnext with
  | @schedule id s hid _ =>
    rw [entryBytes_schedule vm hid, entryBytes_schedule vm hid, Foundation.Table.get_insert, if_pos rfl] at hbytes
    rw [hframe]
    refine ⟨h.charged, ?_, hbound⟩
    show c'.bytes = Table.total jobBytes c.jobs +
      Table.total (fun s ↦ (vm.scheduleBytes s : ℤ)) (c.schedules.insert id s) +
      Table.total (fun r ↦ (vm.resultBytes r : ℤ)) c.results
    rw [Foundation.Table.total_insert, hbytes, Option.elim_some]
    omega
  | @result id value job hbody _ _ _ =>
    rw [hbody, entryBytes_result, entryBytes_result, Foundation.Table.get_insert, if_pos rfl] at hbytes
    rw [hframe]
    refine ⟨h.charged, ?_, hbound⟩
    show c'.bytes = Table.total jobBytes c.jobs +
      Table.total (fun s ↦ (vm.scheduleBytes s : ℤ)) c.schedules +
      Table.total (fun r ↦ (vm.resultBytes r : ℤ)) (c.results.insert id ⟨value, e.timestamp, job.revision⟩)
    rw [Foundation.Table.total_insert, hbytes, Option.elim_some]
    omega

theorem reachable_weighed (hvm : Steady vm) {c : Candidate} (hc : (replay vm).Reachable c) :
    Sound c ∧ Weighed vm c := by
  refine reachable_invariant vm (P := fun c ↦ Sound c ∧ Weighed vm c) ?_ ?_ hc
  · intro limits valueLimits
    exact ⟨sound_candidate limits valueLimits, weighed_candidate vm limits valueLimits⟩
  rintro c x c' ⟨hsound, hweighed⟩ hplay
  cases x with
  | snapshot job => exact ⟨hsound.insertSnapshot vm hplay, hweighed.insertSnapshot vm hplay⟩
  | mutation m => exact ⟨hsound.apply vm hplay, hweighed.apply vm hvm hplay⟩
  | auxiliary e sequence =>
    exact ⟨hsound.reduce vm hplay, hweighed.reduce vm hsound.schedules hplay⟩

/-! ## One event each -/

/-- A schedule that is missing is put back by its event. -/
theorem reduce_scheduleEvent {b : Candidate} {s : Schedule} {sequence : ℕ} {payload : Binary}
    (hfree : b.schedules[s.id]? = none)
    (hencode : (Auxiliary.scheduleEvent s).encode b.valueLimits Value.maxBytes = .ok payload)
    (hsequence : sequence? sequence = true) (hroom : b.bytes + vm.scheduleBytes s ≤ b.limits.maxBytes) :
    ∃ auxiliaryBytes, Auxiliary.reduce vm b (Auxiliary.scheduleEvent s) sequence = .ok { b with
      schedules := b.schedules.insert s.id s
      bytes := b.bytes + vm.scheduleBytes s
      auxiliaryBytes := auxiliaryBytes } := by
  have happly : Auxiliary.applyEvent b (Auxiliary.scheduleEvent s) sequence =
      .ok { b with schedules := b.schedules.insert s.id s } := by
    simp only [Auxiliary.applyEvent, Auxiliary.scheduleEvent, Auxiliary.restate, hfree, Auxiliary.revisionOf,
      beq_self_eq_true, check_true, ok_bind, pure_eq_ok, Auxiliary.update,
      Std.ExtTreeMap.getElem?_insert_self, insert_insert]
  have hid : (Auxiliary.scheduleEvent s).body.scheduleId? = some s.id := rfl
  have hold : (Auxiliary.entryBytes vm b (Auxiliary.scheduleEvent s).body : ℤ) = 0 := by
    rw [entryBytes_schedule vm hid, hfree, Option.elim_none]
  have hnew : (Auxiliary.entryBytes vm { b with schedules := b.schedules.insert s.id s }
      (Auxiliary.scheduleEvent s).body : ℤ) = vm.scheduleBytes s := by
    rw [entryBytes_schedule vm hid, Foundation.Table.get_insert, if_pos rfl, Option.elim_some]
  refine ⟨b.auxiliaryBytes + vm.scheduleBytes s, ?_⟩
  simp only [Auxiliary.reduce, hencode, hsequence, check_true, happly, ok_bind, hold, hnew, sub_zero,
    check_of_bound hroom, pure_eq_ok]

/-- And so is a result, behind its job. -/
theorem reduce_recorded {b : Candidate} {id : JobId} {r : JobResult} {job : Job} {sequence : ℕ}
    {payload : Binary} (hfree : b.results[id]? = none) (hjob : b.jobs[id]? = some job)
    (hcompleted : job.state = .completed) (hrevision : job.revision = r.jobRevision)
    (hencode : (recorded (id, r)).encode b.valueLimits Value.maxBytes = .ok payload)
    (hsequence : sequence? sequence = true) (hroom : b.bytes + vm.resultBytes r ≤ b.limits.maxBytes) :
    ∃ auxiliaryBytes, Auxiliary.reduce vm b (recorded (id, r)) sequence = .ok { b with
      results := b.results.insert id r
      bytes := b.bytes + vm.resultBytes r
      auxiliaryBytes := auxiliaryBytes } := by
  have happly : Auxiliary.applyEvent b (recorded (id, r)) sequence =
      .ok { b with results := b.results.insert id r } := by
    simp only [Auxiliary.applyEvent, recorded, hjob, hcompleted, hrevision, beq_self_eq_true, check_true,
      ok_bind, pure_eq_ok]
  have hold : (Auxiliary.entryBytes vm b (recorded (id, r)).body : ℤ) = 0 := by
    rw [recorded, entryBytes_result, hfree, Option.elim_none]
  have hnew : (Auxiliary.entryBytes vm { b with results := b.results.insert id r }
      (recorded (id, r)).body : ℤ) = vm.resultBytes r := by
    rw [recorded, entryBytes_result, Foundation.Table.get_insert, if_pos rfl, Option.elim_some]
  refine ⟨b.auxiliaryBytes + vm.resultBytes r, ?_⟩
  simp only [Auxiliary.reduce, hencode, hsequence, check_true, happly, ok_bind, hold, hnew, sub_zero,
    check_of_bound hroom, pure_eq_ok]

/-! ## All of them -/

/-- One event at its position. -/
def restore (b : Candidate) (x : AuxEvent × ℕ) : Except Reason Candidate := Auxiliary.reduce vm b x.1 x.2

theorem sequence_of_le {n : ℕ} (h : 1 ≤ n) (hmax : n ≤ maxSequence) : sequence? n = true := by
  simp only [sequence?, Bool.and_eq_true, decide_eq_true_eq]
  exact ⟨h, hmax⟩

theorem restore_schedules (l : List Schedule) : ∀ (b : Candidate) (first : ℕ),
    (∀ s ∈ l, b.schedules[s.id]? = none) → (l.map Schedule.id).Nodup →
    (∀ s ∈ l, ∃ payload, (Auxiliary.scheduleEvent s).encode b.valueLimits Value.maxBytes = .ok payload) →
    1 ≤ first → first + l.length ≤ maxSequence + 1 →
    b.bytes + (l.map fun s ↦ (vm.scheduleBytes s : ℤ)).sum ≤ b.limits.maxBytes →
    ∃ auxiliaryBytes, fold (restore vm) b ((l.map Auxiliary.scheduleEvent).zipIdx first) = .ok { b with
      schedules := l.foldl (fun t s ↦ t.insert s.id s) b.schedules
      bytes := b.bytes + (l.map fun s ↦ (vm.scheduleBytes s : ℤ)).sum
      auxiliaryBytes := auxiliaryBytes } := by
  induction l with
  | nil =>
    intro b first _ _ _ _ _ _
    refine ⟨b.auxiliaryBytes, ?_⟩
    simp only [List.map_nil, List.sum_nil, add_zero, List.foldl_nil, List.zipIdx_nil, fold_nil]
  | cons s l ih =>
    intro b first hfree hnodup hencode hfirst hlast hroom
    have hrest : 0 ≤ (l.map fun s ↦ (vm.scheduleBytes s : ℤ)).sum :=
      List.sum_nonneg fun x hx ↦ by
        obtain ⟨s, -, rfl⟩ := List.mem_map.mp hx
        exact Int.natCast_nonneg _
    rw [List.map_cons, List.sum_cons] at hroom
    rw [List.map_cons, List.nodup_cons] at hnodup
    rw [List.length_cons] at hlast
    obtain ⟨payload, hpayload⟩ := hencode s List.mem_cons_self
    obtain ⟨bytes, hstep⟩ := reduce_scheduleEvent vm (hfree s List.mem_cons_self) hpayload
      (sequence_of_le hfirst (by omega)) (by omega)
    have hfree' : ∀ s' ∈ l, (b.schedules.insert s.id s)[s'.id]? = none := by
      intro s' hs'
      rw [Foundation.Table.get_insert, if_neg]
      · exact hfree s' (List.mem_cons_of_mem s hs')
      · exact fun hid ↦ hnodup.1 (List.mem_map.mpr ⟨s', hs', hid.symm⟩)
    obtain ⟨rest, hfold⟩ := ih { b with
        schedules := b.schedules.insert s.id s
        bytes := b.bytes + vm.scheduleBytes s
        auxiliaryBytes := bytes } (first + 1) hfree' hnodup.2
      (fun s' hs' ↦ hencode s' (List.mem_cons_of_mem s hs')) (by omega) (by omega)
      (by simp only [add_assoc, hroom])
    refine ⟨rest, ?_⟩
    rw [List.map_cons, List.zipIdx_cons, fold_cons, restore, hstep, ok_bind, hfold, List.map_cons, List.sum_cons,
      add_assoc, List.foldl_cons]

theorem restore_results (l : List (JobId × JobResult)) : ∀ (b : Candidate) (first : ℕ),
    (∀ x ∈ l, b.results[x.1]? = none) → (l.map Prod.fst).Nodup → (∀ x ∈ l, Recorded b x.1 x.2) →
    1 ≤ first → first + l.length ≤ maxSequence + 1 →
    b.bytes + (l.map fun x ↦ (vm.resultBytes x.2 : ℤ)).sum ≤ b.limits.maxBytes →
    ∃ auxiliaryBytes, fold (restore vm) b ((l.map recorded).zipIdx first) = .ok { b with
      results := l.foldl (fun t x ↦ t.insert x.1 x.2) b.results
      bytes := b.bytes + (l.map fun x ↦ (vm.resultBytes x.2 : ℤ)).sum
      auxiliaryBytes := auxiliaryBytes } := by
  induction l with
  | nil =>
    intro b first _ _ _ _ _ _
    refine ⟨b.auxiliaryBytes, ?_⟩
    simp only [List.map_nil, List.sum_nil, add_zero, List.foldl_nil, List.zipIdx_nil, fold_nil]
  | cons x l ih =>
    intro b first hfree hnodup hrecorded hfirst hlast hroom
    have hrest : 0 ≤ (l.map fun x ↦ (vm.resultBytes x.2 : ℤ)).sum :=
      List.sum_nonneg fun y hy ↦ by
        obtain ⟨x, -, rfl⟩ := List.mem_map.mp hy
        exact Int.natCast_nonneg _
    rw [List.map_cons, List.sum_cons] at hroom
    rw [List.map_cons, List.nodup_cons] at hnodup
    rw [List.length_cons] at hlast
    have hx := hrecorded x List.mem_cons_self
    obtain ⟨job, hjob, hcompleted, hrevision⟩ := hx.job
    obtain ⟨payload, hpayload⟩ := hx.encodes
    obtain ⟨bytes, hstep⟩ := reduce_recorded vm (hfree x List.mem_cons_self) hjob hcompleted hrevision hpayload
      (sequence_of_le hfirst (by omega)) (by omega)
    have hfree' : ∀ y ∈ l, (b.results.insert x.1 x.2)[y.1]? = none := by
      intro y hy
      rw [Foundation.Table.get_insert, if_neg]
      · exact hfree y (List.mem_cons_of_mem x hy)
      · exact fun hid ↦ hnodup.1 (List.mem_map.mpr ⟨y, hy, hid.symm⟩)
    obtain ⟨rest, hfold⟩ := ih { b with
        results := b.results.insert x.1 x.2
        bytes := b.bytes + vm.resultBytes x.2
        auxiliaryBytes := bytes } (first + 1) hfree' hnodup.2
      (fun y hy ↦ ⟨(hrecorded y (List.mem_cons_of_mem x hy)).job, (hrecorded y (List.mem_cons_of_mem x hy)).encodes⟩)
      (by omega) (by omega) (by simp only [add_assoc, hroom])
    refine ⟨rest, ?_⟩
    rw [List.map_cons, List.zipIdx_cons, fold_cons, restore, hstep, ok_bind, hfold, List.map_cons, List.sum_cons,
      add_assoc, List.foldl_cons]

/-! ## Behind the snapshots -/

/-- The replay of the snapshots of all jobs, in the order of their ids. -/
def snapshots (c : Candidate) : Except Reason Candidate :=
  fold (fun b x ↦ Reducer.insertSnapshot vm b x.2.durable) (candidate c.limits c.valueLimits) c.jobs.toList

theorem durable_insert (t : Table JobId Job) (id : JobId) (job : Job) :
    Snapshot.durable (t.insert id job) = (Snapshot.durable t).insert id job.durable := by
  apply Std.ExtTreeMap.ext_getElem?
  intro k
  simp only [Snapshot.durable, Std.ExtTreeMap.getElem?_map, Std.ExtTreeMap.getElem?_insert]
  split <;> rfl

theorem insertSnapshots_spec {l : List (JobId × Job)} (hid : ∀ x ∈ l, x.2.id = x.1) :
    ∀ {b base : Candidate}, fold (fun b x ↦ Reducer.insertSnapshot vm b x.2.durable) b l = .ok base →
      base.schedules = b.schedules ∧ base.results = b.results ∧ base.limits = b.limits ∧
      base.valueLimits = b.valueLimits ∧ Snapshot.durable base.jobs =
        (l.map fun x ↦ (x.1, x.2.durable)).foldl (fun t x ↦ t.insert x.1 x.2) (Snapshot.durable b.jobs) := by
  induction l with
  | nil =>
    intro b base h
    cases h
    exact ⟨rfl, rfl, rfl, rfl, rfl⟩
  | cons x l ih =>
    intro b base h
    obtain ⟨next, hnext, h⟩ := bind_eq_ok.mp h
    obtain ⟨hschedules, hresults, hlimits, hvalues, hjobs⟩ :=
      ih (fun y hy ↦ hid y (List.mem_cons_of_mem x hy)) h
    obtain ⟨ch, hframe⟩ := Reducer.insertSnapshot_eq_ok vm hnext
    have hfirst : Snapshot.durable next.jobs = (Snapshot.durable b.jobs).insert x.1 x.2.durable := by
      rw [hframe, durable_insert, ← hid x List.mem_cons_self]
      rfl
    refine ⟨hschedules.trans ?_, hresults.trans ?_, hlimits.trans ?_, hvalues.trans ?_, ?_⟩
    · rw [hframe]
    · rw [hframe]
    · rw [hframe]
    · rw [hframe]
    · rw [hjobs, hfirst]
      rfl

theorem toList_keys (α β : Type) [Ord α] [Std.TransOrd α] [Std.LawfulEqOrd α] (t : Table α β) :
    (t.toList.map Prod.fst).Nodup := by
  rw [Std.ExtTreeMap.map_fst_toList_eq_keys]
  exact (Std.ExtTreeMap.distinct_keys (t := t)).imp fun hne heq ↦
    hne (Std.LawfulEqCmp.compare_eq_iff_eq.mpr heq)

/-- The charge is a function of the durable job. -/
theorem Charged.jobBytes_eq {valueLimits : Value.Limits} {limits : CandidateLimits} {j k : Job}
    (hj : Charged vm valueLimits limits j) (hk : Charged vm valueLimits limits k)
    (hjk : k.durable = j.durable) : jobBytes j = jobBytes k := by
  obtain ⟨⟩ := j
  obtain ⟨⟩ := k
  simp only [Job.durable, Job.mk.injEq, and_true] at hjk
  obtain ⟨rfl, rfl, rfl, rfl, rfl, rfl, rfl, rfl, rfl, rfl, rfl, rfl, rfl, rfl, rfl, rfl, rfl⟩ := hjk
  obtain ⟨stats, hstats, hj⟩ := hj
  obtain ⟨stats', hstats', hk⟩ := hk
  rw [hstats] at hstats'
  cases hstats'
  have hcharge := hj.trans hk.symm
  cases hcharge
  rfl

/-- The snapshots give the same jobs at the same cost, and nothing else. -/
theorem snapshots_spec {c base : Candidate} (hsound : Sound c) (hweighed : Weighed vm c)
    (h : snapshots vm c = .ok base) :
    base.schedules = ∅ ∧ base.results = ∅ ∧ base.limits = c.limits ∧ base.valueLimits = c.valueLimits ∧
      (∀ id : JobId, (base.jobs[id]?).map Job.durable = (c.jobs[id]?).map Job.durable) ∧
      base.bytes = Table.total jobBytes c.jobs := by
  have hid : ∀ x ∈ c.jobs.toList, x.2.id = x.1 := by
    intro x hx
    exact hsound.jobs x.1 x.2 (Std.ExtTreeMap.mem_toList_iff_getElem?_eq_some.mp hx)
  obtain ⟨hschedules, hresults, hlimits, hvalues, hjobs⟩ := insertSnapshots_spec vm hid h
  have hsame : Snapshot.durable base.jobs = Snapshot.durable c.jobs := by
    have hempty : Snapshot.durable (candidate c.limits c.valueLimits).jobs = ∅ := by
      apply Std.ExtTreeMap.ext_getElem?
      intro k
      simp [Snapshot.durable, candidate]
    rw [hjobs, hempty]
    have hentries : c.jobs.toList.map (fun x ↦ (x.1, x.2.durable)) = (Snapshot.durable c.jobs).toList := by
      rw [Snapshot.durable, Std.ExtTreeMap.toList_map]
    rw [hentries]
    exact Foundation.Table.foldl_insert_eq _ (toList_keys _ _ _) fun e ↦
      Std.ExtTreeMap.mem_toList_iff_getElem?_eq_some
  have hdurable : ∀ id : JobId, (base.jobs[id]?).map Job.durable = (c.jobs[id]?).map Job.durable := by
    intro id
    have hat := congrArg (fun t : Table JobId Job ↦ t[id]?) hsame
    simpa only [Snapshot.durable, Std.ExtTreeMap.getElem?_map] using hat
  have hbase : Weighed vm base :=
    fold_invariant (P := Weighed vm) (fun b x b' hb hstep ↦ hb.insertSnapshot vm hstep)
      (weighed_candidate vm c.limits c.valueLimits) h
  refine ⟨hschedules, hresults, hlimits, hvalues, hdurable, ?_⟩
  have htotal := hbase.bytes
  rw [hschedules, hresults] at htotal
  simp only [candidate, Foundation.Table.total_empty, add_zero] at htotal
  rw [htotal]
  refine Foundation.Table.total_congr _ _ fun id ↦ ?_
  have hat := hdurable id
  cases hb : base.jobs[id]? with
  | none =>
    rw [hb, Option.map_none] at hat
    rw [Option.map_eq_none_iff.mp hat.symm]
  | some j =>
    rw [hb, Option.map_some] at hat
    obtain ⟨k, hk, hjk⟩ := Option.map_eq_some_iff.mp hat.symm
    rw [hk, Option.map_some, Option.map_some]
    have hj := hbase.charged id j hb
    rw [hlimits, hvalues] at hj
    rw [hj.jobBytes_eq vm (hweighed.charged id k hk) hjk]

/-! ## The canonical form -/

/-- The schedules in the order of their ids. -/
def ordered (c : Candidate) : List Schedule :=
  (c.schedules.toList.map Prod.snd).insertionSort fun s t ↦ compare s.id t.id ≠ .gt

/-- Every result is restated by the event that recorded it. -/
theorem canonicalEvents_eq {c : Candidate} (h : Orderly c) : Auxiliary.canonicalEvents c =
    (ordered c).map Auxiliary.scheduleEvent ++ c.results.toList.map recorded := by
  have hresults : (c.results.toList.filterMap fun r ↦ (c.jobs[r.1]?).bind fun job ↦
      if job.state == .completed then some (Auxiliary.resultEvent r.1 job r.2) else none) =
      c.results.toList.map recorded := by
    rw [← List.filterMap_eq_map]
    refine List.filterMap_congr fun x hx ↦ ?_
    have hr := h.results x.1 x.2 (Std.ExtTreeMap.mem_toList_iff_getElem?_eq_some.mp hx)
    obtain ⟨job, hjob, hcompleted, hrevision⟩ := hr.job
    rw [hjob, Option.bind_some, hcompleted, beq_self_eq_true, if_pos rfl, Function.comp_apply,
      Auxiliary.resultEvent, recorded, hrevision]
  rw [Auxiliary.canonicalEvents, hresults, ordered]

theorem ordered_perm (c : Candidate) : (ordered c).Perm (c.schedules.toList.map Prod.snd) :=
  List.perm_insertionSort _ _

theorem mem_ordered {c : Candidate} (h : Keyed Schedule.id c.schedules) (s : Schedule) :
    s ∈ ordered c ↔ c.schedules[s.id]? = some s := by
  rw [(ordered_perm c).mem_iff, List.mem_map]
  constructor
  · rintro ⟨x, hx, rfl⟩
    have hat := Std.ExtTreeMap.mem_toList_iff_getElem?_eq_some.mp hx
    rw [h x.1 x.2 hat]
    exact hat
  · intro hs
    exact ⟨(s.id, s), Std.ExtTreeMap.mem_toList_iff_getElem?_eq_some.mpr hs, rfl⟩

theorem ordered_ids {c : Candidate} (h : Keyed Schedule.id c.schedules) :
    ((ordered c).map Schedule.id).Nodup := by
  have hkeys : (c.schedules.toList.map Prod.snd).map Schedule.id = c.schedules.toList.map Prod.fst := by
    rw [List.map_map]
    refine List.map_congr_left fun x hx ↦ ?_
    exact h x.1 x.2 (Std.ExtTreeMap.mem_toList_iff_getElem?_eq_some.mp hx)
  rw [((ordered_perm c).map Schedule.id).nodup_iff, hkeys]
  exact toList_keys _ _ _

theorem foldl_ordered {c : Candidate} (h : Keyed Schedule.id c.schedules) :
    (ordered c).foldl (fun t s ↦ t.insert s.id s) ∅ = c.schedules := by
  have hfold := Foundation.Table.foldl_insert_eq c.schedules (l := (ordered c).map fun s ↦ (s.id, s))
  rw [List.map_map, List.foldl_map] at hfold
  refine hfold (ordered_ids h) fun e ↦ ?_
  rw [List.mem_map]
  constructor
  · rintro ⟨s, hs, rfl⟩
    exact (mem_ordered h s).mp hs
  · intro he
    have hid := h e.1 e.2 he
    refine ⟨e.2, (mem_ordered h e.2).mpr ?_, ?_⟩
    · rw [hid]
      exact he
    · rw [hid]

theorem ordered_bytes (c : Candidate) : ((ordered c).map fun s ↦ (vm.scheduleBytes s : ℤ)).sum =
    Table.total (fun s ↦ (vm.scheduleBytes s : ℤ)) c.schedules := by
  rw [((ordered_perm c).map fun s ↦ (vm.scheduleBytes s : ℤ)).sum_eq, List.map_map]
  rfl

/-- **The way back.** If the events of the schedules fit the limits on values, replaying the canonical
events behind the snapshots gives the schedules and the results again. -/
theorem restore_canonical {c base : Candidate} (horderly : Orderly c) (hweighed : Weighed vm c)
    (hbase : snapshots vm c = .ok base)
    (hencode : ∀ (id : Binary) (s : Schedule), c.schedules[id]? = some s →
      ∃ payload, (Auxiliary.scheduleEvent s).encode c.valueLimits Value.maxBytes = .ok payload)
    {first : ℕ} (hfirst : 1 ≤ first)
    (hlast : first + (Auxiliary.canonicalEvents c).length ≤ maxSequence + 1) :
    ∃ back, fold (restore vm) base ((Auxiliary.canonicalEvents c).zipIdx first) = .ok back ∧
      back.schedules = c.schedules ∧ back.results = c.results := by
  have hkeyed := horderly.sound.schedules
  obtain ⟨hschedules, hresults, hlimits, hvalues, hjobs, hbytes⟩ :=
    snapshots_spec vm horderly.sound hweighed hbase
  rw [canonicalEvents_eq horderly] at hlast ⊢
  rw [List.length_append, List.length_map, List.length_map] at hlast
  have htotal := hweighed.bytes
  have hbound := hweighed.bound
  have hsum := ordered_bytes vm c
  have hnonneg : 0 ≤ Table.total (fun r ↦ (vm.resultBytes r : ℤ)) c.results :=
    List.sum_nonneg fun y hy ↦ by
      obtain ⟨x, -, rfl⟩ := List.mem_map.mp hy
      exact Int.natCast_nonneg _
  obtain ⟨bytes, hfold⟩ := restore_schedules vm (ordered c) base first
    (fun s _ ↦ by rw [hschedules]; simp) (ordered_ids hkeyed)
    (fun s hs ↦ hvalues ▸ hencode s.id s ((mem_ordered hkeyed s).mp hs)) hfirst (by omega)
    (by rw [hlimits]; omega)
  have hrecorded : ∀ x ∈ c.results.toList, Recorded base x.1 x.2 := by
    intro x hx
    have hr := horderly.results x.1 x.2 (Std.ExtTreeMap.mem_toList_iff_getElem?_eq_some.mp hx)
    obtain ⟨job, hjob, hcompleted, hrevision⟩ := hr.job
    have hat := hjobs x.1
    rw [hjob, Option.map_some] at hat
    obtain ⟨old, hold, hdurable⟩ := Option.map_eq_some_iff.mp hat
    have hstate : old.state = job.state := by rw [← Job.durable_state, hdurable, Job.durable_state]
    have hnumber : old.revision = job.revision := by
      rw [← Job.durable_revision, hdurable, Job.durable_revision]
    exact ⟨⟨old, hold, hstate.trans hcompleted, hnumber.trans hrevision⟩, hvalues ▸ hr.encodes⟩
  obtain ⟨rest, hfold'⟩ := restore_results vm c.results.toList { base with
      schedules := (ordered c).foldl (fun t s ↦ t.insert s.id s) base.schedules
      bytes := base.bytes + ((ordered c).map fun s ↦ (vm.scheduleBytes s : ℤ)).sum
      auxiliaryBytes := bytes } (first + (ordered c).length)
    (fun x _ ↦ by simp only [hresults]; simp) (toList_keys _ _ _)
    (fun x hx ↦ ⟨(hrecorded x hx).job, (hrecorded x hx).encodes⟩) (by omega) (by omega)
    (by
      have hresultBytes : (c.results.toList.map fun x ↦ (vm.resultBytes x.2 : ℤ)).sum =
          Table.total (fun r ↦ (vm.resultBytes r : ℤ)) c.results := rfl
      simp only [hresultBytes, hlimits]
      omega)
  rw [List.zipIdx_append, fold_append, hfold, ok_bind, List.length_map, hfold']
  refine ⟨_, rfl, ?_, ?_⟩
  · simp only [hschedules]
    exact foldl_ordered hkeyed
  · simp only [hresults]
    exact Foundation.Table.foldl_insert_eq _ (toList_keys _ _ _) fun e ↦
      Std.ExtTreeMap.mem_toList_iff_getElem?_eq_some

theorem sortUniq_pairwise (ids : List JobId) : (sortUniq ids).Pairwise (· < ·) := by
  have hnodup : (sortUniq ids).Nodup :=
    (List.perm_insertionSort (· ≤ ·) _).nodup_iff.mpr (List.nodup_dedup ids)
  exact ((List.pairwise_insertionSort (· ≤ ·) _).and hnodup).imp fun h ↦ lt_of_le_of_ne h.1 h.2

/-- **The auxiliary state survives its canonical form.** In every replay the schedules are in order and
their restating events pass every check of the codec, whatever limits there are; a restated, delivered or
renewed schedule has a higher revision, and one of an older log that of its position. If the restating
events fit the limits on values, the snapshots and the canonical events give the schedules and results
again, and these are results of completed jobs. -/
theorem canonical_form (hvm : Steady vm) {c : Candidate} (hc : (replay vm).Reachable c) :
    (∀ (id : Binary) (s : Schedule), c.schedules[id]? = some s →
      (∀ t, s.lastAt = some t → t < s.nextAt) ∧ s.activeJobIds.Pairwise (· < ·)) ∧
    (∀ (e : AuxEvent) (sequence : ℕ) (c' : Candidate) (id : Binary),
      Auxiliary.reduce vm c e sequence = .ok c' → e.body.scheduleId? = some id →
      if numbered e.body then Auxiliary.revisionOf c'.schedules[id]? = sequence
      else Auxiliary.revisionOf c.schedules[id]? < Auxiliary.revisionOf c'.schedules[id]?) ∧
    (∀ e ∈ Auxiliary.canonicalEvents c, validateAux e = true) ∧
    (∀ (id : JobId) (r : JobResult), c.results[id]? = some r →
      ∃ job, c.jobs[id]? = some job ∧ job.state = .completed) ∧
    ∀ (base : Candidate) (first : ℕ), snapshots vm c = .ok base → 1 ≤ first →
      first + (Auxiliary.canonicalEvents c).length ≤ maxSequence + 1 →
      (∀ (id : Binary) (s : Schedule), c.schedules[id]? = some s →
        ∃ payload, (Auxiliary.scheduleEvent s).encode c.valueLimits Value.maxBytes = .ok payload) →
      ∃ back, fold (restore vm) base ((Auxiliary.canonicalEvents c).zipIdx first) = .ok back ∧
        back.schedules = c.schedules ∧ back.results = c.results := by
  have horderly := reachable_orderly vm hc
  have hweighed := (reachable_weighed vm hvm hc).2
  have hkeyed := horderly.sound.schedules
  refine ⟨?_, ?_, ?_, ?_, ?_⟩
  · intro id s hs
    have hfit := horderly.fit id s hs
    refine ⟨?_, ?_⟩
    · intro t ht
      have hlast := hfit.lastAt
      rw [ht, Option.all_some, Bool.and_eq_true, decide_eq_true_eq] at hlast
      exact hlast.2
    · rw [hfit.sorted]
      exact sortUniq_pairwise s.activeJobIds
  · intro e sequence c' id hreduce hid
    exact revision_reduce vm hkeyed hreduce hid
  · intro e he
    rw [canonicalEvents_eq horderly, List.mem_append, List.mem_map, List.mem_map] at he
    rcases he with ⟨s, hs, rfl⟩ | ⟨x, hx, rfl⟩
    · exact restatable_iff.mpr (horderly.fit s.id s ((mem_ordered hkeyed s).mp hs))
    · obtain ⟨payload, hpayload⟩ :=
        (horderly.results x.1 x.2 (Std.ExtTreeMap.mem_toList_iff_getElem?_eq_some.mp hx)).encodes
      exact valid_of_encode hpayload
  · intro id r hr
    obtain ⟨job, hjob, hcompleted, -⟩ := (horderly.results id r hr).job
    exact ⟨job, hjob, hcompleted⟩
  · intro base first hbase hfirst hlast hencode
    exact restore_canonical vm horderly hweighed hbase hencode hfirst hlast

namespace Sample

open Tay.Sample

/-- A job with a result, and a schedule that is declared, delivered twice and cancelled. -/
def history : List Entry :=
  [.mutation ⟨1, 0, 1, 10, .inserted definition 10 (some 1)⟩,
    .mutation ⟨2, 0, 1, 10, .inserted definition 10 (some 2)⟩,
    .mutation ⟨1, 1, 2, 13, .started 1 1⟩,
    .mutation ⟨1, 2, 3, 14, .finished 0 0 (some 2) none none none⟩,
    .auxiliary ⟨3, 14, .resultRecorded 1 (.int 5)⟩ 5,
    .auxiliary ⟨0, 15, .scheduleRegistered (text "s") scheduleDefinition 20⟩ 6,
    .auxiliary ⟨6, 20, .scheduleDelivered (text "s") (some 2) 20 30⟩ 7,
    .auxiliary ⟨7, 31, .scheduleDelivered (text "s") none 30 40⟩ 8,
    .auxiliary ⟨8, 32, .scheduleCancelled (text "s")⟩ 9]

/-- A schedule that was restated with a high revision, and then advanced. -/
def advanced : List Entry :=
  [.auxiliary ⟨0, 15, .scheduleMembership ⟨text "s", none, none, scheduleDefinition, none, 20, 15, 1000⟩ [] true⟩
    1]

def declared : List Entry := [.auxiliary ⟨0, 15, .scheduleRegistered (text "s") scheduleDefinition 20⟩ 1]

/-- Room for the event that declares a schedule, and no more. -/
def narrow : Candidate := candidate limits ⟨64, 27, Value.maxBytes⟩

end Sample

/-- A schedule can fall back to a lower revision, and it may fit the limits when it is declared and not
when it is restated. -/
theorem canonical_form_exceeded :
    (∃ c c' e, (replay Tay.Sample.runtime).Reachable c ∧
      Auxiliary.reduce Tay.Sample.runtime c e 2 = .ok c' ∧ e.body.scheduleId? = some (text "s") ∧
      Auxiliary.revisionOf c'.schedules[text "s"]? < Auxiliary.revisionOf c.schedules[text "s"]?) ∧
    ∃ c base, (replay Tay.Sample.runtime).Reachable c ∧ snapshots Tay.Sample.runtime c = .ok base ∧
      (∃ e ∈ Auxiliary.canonicalEvents c, (e.encode c.valueLimits Value.maxBytes).isOk = false) ∧
      (fold (restore Tay.Sample.runtime) base ((Auxiliary.canonicalEvents c).zipIdx 1)).isOk = false := by
  constructor
  · let e : AuxEvent := ⟨1000, 21, .scheduleAdvanced (text "s") 20 30⟩
    obtain ⟨c, hc, hp⟩ := played Tay.Sample.runtime Tay.Sample.fresh Sample.advanced
      (p := fun c ↦ (Auxiliary.reduce Tay.Sample.runtime c e 2).toOption.any fun c' ↦
        Auxiliary.revisionOf c'.schedules[text "s"]? < Auxiliary.revisionOf c.schedules[text "s"]?)
      ⟨_, _, rfl⟩ (by decide +kernel)
    obtain ⟨c', hc', hlt⟩ := (Option.any_eq_true _ _).mp hp
    exact ⟨c, c', e, hc, toOption_eq_some.mp hc', rfl, of_decide_eq_true hlt⟩
  · obtain ⟨c, hc, hp⟩ := played Tay.Sample.runtime Sample.narrow Sample.declared
      (p := fun c ↦ (snapshots Tay.Sample.runtime c).toOption.any fun base ↦
        ((Auxiliary.canonicalEvents c).any fun e ↦ !(e.encode c.valueLimits Value.maxBytes).isOk) &&
          !(fold (restore Tay.Sample.runtime) base ((Auxiliary.canonicalEvents c).zipIdx 1)).isOk)
      ⟨_, _, rfl⟩ (by decide +kernel)
    obtain ⟨base, hbase, hfails⟩ := (Option.any_eq_true _ _).mp hp
    rw [Bool.and_eq_true, List.any_eq_true, Bool.not_eq_true'] at hfails
    obtain ⟨⟨e, he, hencode⟩, hfold⟩ := hfails
    rw [Bool.not_eq_true'] at hencode
    exact ⟨c, base, hc, toOption_eq_some.mp hbase, ⟨e, he, hencode⟩, hfold⟩

theorem canonical_form_delivered : ∃ c base back, (replay Tay.Sample.runtime).Reachable c ∧
    snapshots Tay.Sample.runtime c = .ok base ∧
    fold (restore Tay.Sample.runtime) base ((Auxiliary.canonicalEvents c).zipIdx 3) = .ok back ∧
    (Auxiliary.canonicalEvents c).length = 2 ∧ back.schedules = c.schedules ∧ back.results = c.results := by
  obtain ⟨c, hc, hp⟩ := played Tay.Sample.runtime Tay.Sample.fresh Sample.history
    (p := fun c ↦ (snapshots Tay.Sample.runtime c).isOk &&
      (Auxiliary.canonicalEvents c).length == 2 && c.schedules.toList.all fun x ↦
        ((Auxiliary.scheduleEvent x.2).encode c.valueLimits Value.maxBytes).isOk)
    ⟨_, _, rfl⟩ (by decide +kernel)
  rw [Bool.and_eq_true, Bool.and_eq_true, beq_iff_eq, List.all_eq_true] at hp
  obtain ⟨⟨hsnapshots, hlength⟩, hencode⟩ := hp
  obtain ⟨base, hbase⟩ := exists_ok hsnapshots
  obtain ⟨-, -, -, -, hrestore⟩ := canonical_form Tay.Sample.runtime (fun _ _ _ _ _ ↦ rfl) hc
  obtain ⟨back, hback, hsame⟩ := hrestore base 3 hbase (by decide) (by rw [hlength]; decide) fun id s hs ↦
    exists_ok (hencode (id, s) (Std.ExtTreeMap.mem_toList_iff_getElem?_eq_some.mpr hs))
  exact ⟨c, base, back, hc, hbase, hback, hlength, hsame⟩

end Canonical

end Tay
