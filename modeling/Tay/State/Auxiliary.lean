import Tay.State.Transition

/-!
# Schedules and results

`Tay.State.Auxiliary`: replay of the auxiliary events, the active membership of a schedule, and the
canonical events a compacted epoch restates its schedules and results with.
-/

open Foundation

namespace Tay

open V2

namespace Auxiliary

/-- The members of a schedule that are still running: known, and not in a terminal state. -/
def activeMembers (jobs : Table JobId Job) (ids : List JobId) : List JobId :=
  (ids.dedup.filter fun id ↦ active? jobs[id]?).insertionSort (· ≤ ·)

def revisionOf (schedule : Option Schedule) : ℕ :=
  match schedule with
  | some s => s.revision
  | none => 0

/-- Types 8 and 11 begin alike: an uncancelled schedule moves to its next occurrence. -/
def advance (c : Candidate) (e : AuxEvent) (scheduleId : Binary) (dueAt nextAt sequence : ℕ) :
    Except Reason Candidate :=
  match c.schedules[scheduleId]? with
  | none => .error .missingSchedule
  | some schedule => do
    check schedule.cancelledAt.isNone .cancelledSchedule
    check (schedule.revision == e.expectedRevision) .revisionConflict
    check (schedule.nextAt == dueAt) .dueConflict
    return { c with
      schedules := c.schedules.insert schedule.id
        { schedule with revision := sequence, lastAt := some dueAt, nextAt := nextAt } }

/-- Types 12 and 13 begin alike: a declaration is restated, keeping the known membership. -/
def restate (c : Candidate) (e : AuxEvent) (k : Checkpoint) : Except Reason Candidate := do
  let previous := c.schedules[k.scheduleId]?
  check (e.expectedRevision == revisionOf previous) .revisionConflict
  return { c with
    schedules := c.schedules.insert k.scheduleId
      { id := k.scheduleId
        definition := k.definition
        revision := k.revision
        registeredAt := k.registeredAt
        nextAt := k.nextAt
        lastAt := k.lastAt
        cancelledAt := k.cancelledAt
        activeJobId := k.activeJobId
        activeJobIds := match previous with
          | some p => p.activeJobIds
          | none => k.activeJobId.toList
        membershipComplete := match previous with
          | some p => p.membershipComplete
          | none => false } }

/-- Change the schedule stored under `id`, which the step before has just written. -/
def update (c : Candidate) (id : Binary) (f : Schedule → Schedule) : Except Reason Candidate :=
  match c.schedules[id]? with
  | some schedule => .ok { c with schedules := c.schedules.insert id (f schedule) }
  | none => .error .raised

def applyEvent (c : Candidate) (e : AuxEvent) (sequence : ℕ) : Except Reason Candidate :=
  match e.body with
  | .scheduleRegistered scheduleId definition nextAt => do
    check (e.expectedRevision == revisionOf c.schedules[scheduleId]?) .revisionConflict
    return { c with
      schedules := c.schedules.insert scheduleId
        { id := scheduleId
          definition := definition
          revision := sequence
          registeredAt := e.timestamp
          nextAt := nextAt
          lastAt := none
          cancelledAt := none
          activeJobId := none
          activeJobIds := []
          membershipComplete := false } }
  | .scheduleAdvanced scheduleId dueAt nextAt => advance c e scheduleId dueAt nextAt sequence
  | .scheduleCheckpoint k => restate c e k
  | .scheduleMembership k activeJobIds membershipComplete => do
    let next ← restate c e k
    update next k.scheduleId fun s ↦
      { s with activeJobIds := activeJobIds, membershipComplete := membershipComplete }
  | .scheduleDelivered scheduleId activeJobId dueAt nextAt => do
    let next ← advance c e scheduleId dueAt nextAt sequence
    update next scheduleId fun s ↦
      { s with
        activeJobId := activeJobId
        revision := e.expectedRevision + 1
        activeJobIds := activeMembers c.jobs (s.activeJobIds ++ activeJobId.toList) }
  | .scheduleCancelled scheduleId =>
    match c.schedules[scheduleId]? with
    | none => .error .missingSchedule
    | some schedule => do
      check (schedule.revision == e.expectedRevision) .revisionConflict
      return { c with
        schedules := c.schedules.insert schedule.id
          { schedule with revision := sequence, cancelledAt := some e.timestamp } }
  | .resultRecorded jobId result =>
    match c.jobs[jobId]? with
    | none => .error .missingJob
    | some job => do
      check (job.state == .completed) .jobNotCompleted
      check (job.revision == e.expectedRevision) .revisionConflict
      return { c with
        results := c.results.insert jobId ⟨result, e.timestamp, job.revision⟩ }

/-- The member ids an event on a schedule can ask about. -/
def memberIds (schedules : Table Binary Schedule) (e : AuxEvent) : List JobId :=
  (match e.body.scheduleId?.bind fun id ↦ schedules[id]? with
    | some schedule => schedule.activeJobIds
    | none => []) ++ e.body.activeJobId?.toList

variable (vm : Runtime)

/-- The bytes retained for the entry an event concerns. -/
def entryBytes (c : Candidate) : AuxBody → ℕ
  | .resultRecorded jobId _ => (c.results[jobId]?).elim 0 vm.resultBytes
  | body => (body.scheduleId?.bind fun id ↦ c.schedules[id]?).elim 0 vm.scheduleBytes

def reduce (c : Candidate) (e : AuxEvent) (sequence : ℕ) : Except Reason Candidate := do
  let _ ← e.encode c.valueLimits Value.maxBytes
  check (sequence? sequence) .invalidPosition
  let next ← applyEvent c e sequence
  let old : ℤ := entryBytes vm c e.body
  let added : ℤ := entryBytes vm next e.body
  let bytes := c.bytes - old + added
  Memory.check c.limits bytes
  return { next with bytes := bytes, auxiliaryBytes := c.auxiliaryBytes - old + added }

/-- An event that applies can only be refused for memory. -/
theorem reduce_cases {c c' : Candidate} {e : AuxEvent} {sequence : ℕ} {payload : Binary}
    (hencode : e.encode c.valueLimits Value.maxBytes = .ok payload)
    (hsequence : sequence? sequence = true) (happly : applyEvent c e sequence = .ok c') :
    (∃ bytes auxiliaryBytes, reduce vm c e sequence =
        .ok { c' with bytes := bytes, auxiliaryBytes := auxiliaryBytes }) ∨
      ∃ err, reduce vm c e sequence = .error err ∧ err.memory = true := by
  simp only [reduce, hencode, hsequence, happly, check_true, ok_bind]
  rcases Memory.check_cases c.limits
      (c.bytes - (entryBytes vm c e.body : ℤ) + (entryBytes vm c' e.body : ℤ)) with
    hok | ⟨err, herr, hmem⟩
  · rw [hok]
    exact .inl ⟨_, _, rfl⟩
  · rw [herr]
    exact .inr ⟨err, rfl, hmem⟩

theorem reduce_eq_ok {c c' : Candidate} {e : AuxEvent} {sequence : ℕ}
    (h : reduce vm c e sequence = .ok c') :
    (∃ payload, e.encode c.valueLimits Value.maxBytes = .ok payload) ∧
      sequence? sequence = true ∧ ∃ applied, applyEvent c e sequence = .ok applied ∧
        c' = { applied with bytes := c'.bytes, auxiliaryBytes := c'.auxiliaryBytes } := by
  simp only [reduce, bind_eq_ok, check_eq_ok, pure_eq_ok] at h
  obtain ⟨payload, hpayload, -, hsequence, applied, happlied, -, -, h⟩ := h
  cases h
  exact ⟨⟨payload, hpayload⟩, hsequence, applied, happlied, rfl⟩

/-! ## Ownership -/

/-- `Auxiliary.owners`: the schedule each active member belongs to. -/
def owners (schedules : Table Binary Schedule) : Table JobId Binary :=
  schedules.foldl (fun acc id schedule ↦
    schedule.activeJobIds.foldl (fun acc raw ↦ acc.insert raw id) acc) ∅

def replaceOwners (owners : Table JobId Binary) (previous : Option Schedule) (next : Schedule) :
    Table JobId Binary :=
  let previousIds := match previous with | some p => p.activeJobIds | none => []
  let owners := previousIds.foldl (fun acc raw ↦ acc.erase raw) owners
  next.activeJobIds.foldl (fun acc raw ↦ acc.insert raw next.id) owners

/-! ## Canonical events -/

/-- The membership event that restates a schedule in full. -/
def scheduleEvent (s : Schedule) : AuxEvent where
  expectedRevision := 0
  timestamp := s.registeredAt
  body := .scheduleMembership
    { scheduleId := s.id
      activeJobId := s.activeJobId
      cancelledAt := s.cancelledAt
      definition := s.definition
      lastAt := s.lastAt
      nextAt := s.nextAt
      registeredAt := s.registeredAt
      revision := s.revision }
    s.activeJobIds s.membershipComplete

/-- The event that restates a result of the completed job `job`. -/
def resultEvent (id : JobId) (job : Job) (result : JobResult) : AuxEvent where
  expectedRevision := job.revision
  timestamp := result.recordedAt
  body := .resultRecorded id result.value

/-- `canonical_events`: every schedule in id order, then every result of a completed job in id
order. -/
def canonicalEvents (c : Candidate) : List AuxEvent :=
  (c.schedules.toList.map Prod.snd |>.insertionSort fun s t ↦ compare s.id t.id ≠ .gt).map
      scheduleEvent ++
    c.results.toList.filterMap fun r ↦
      (c.jobs[r.1]?).bind fun job ↦
        if job.state == .completed then some (resultEvent r.1 job r.2) else none

/-! ## Two replays of one event

A schedule may list members that one of two states does not know. The comparison below is made
outside a set of such ids: an event that one state accepts is accepted by the other, and the
schedules still agree outside the set. -/

/-- A schedule without the given members. -/
def outside (ids : Finset JobId) (s : Schedule) : Schedule :=
  { s with activeJobIds := s.activeJobIds.filter (· ∉ ids) }

/-- The same schedules, apart from some member ids. -/
def SameOutside (ids : Finset JobId) (a b : Table Binary Schedule) : Prop :=
  ∀ k : Binary, b[k]?.map (outside ids) = a[k]?.map (outside ids)

theorem sameOutside_refl (ids : Finset JobId) (a : Table Binary Schedule) : SameOutside ids a a :=
  fun _ ↦ rfl

section Simulation

variable {ids : Finset JobId} {a b : Candidate} {e : AuxEvent}

/-- Two schedules that agree outside some ids differ in their members at most. -/
theorem outside_eq {x y : Schedule} (h : outside ids y = outside ids x) :
    ∃ l, y = { x with activeJobIds := l } ∧
      l.filter (· ∉ ids) = x.activeJobIds.filter (· ∉ ids) := by
  obtain ⟨⟩ := x
  obtain ⟨⟩ := y
  simp only [outside, Schedule.mk.injEq] at h
  obtain ⟨rfl, rfl, rfl, rfl, rfl, rfl, rfl, rfl, hids, rfl⟩ := h
  exact ⟨_, rfl, hids⟩

theorem outside_congr {x y : Schedule} (h : y = { x with activeJobIds := y.activeJobIds })
    (hids : y.activeJobIds.filter (· ∉ ids) = x.activeJobIds.filter (· ∉ ids)) :
    outside ids y = outside ids x := by
  rw [h]
  simp only [outside, hids]

theorem SameOutside.get {a b : Table Binary Schedule} (h : SameOutside ids a b) {k : Binary}
    {x : Schedule} (hx : a[k]? = some x) :
    ∃ l, b[k]? = some { x with activeJobIds := l } ∧
      l.filter (· ∉ ids) = x.activeJobIds.filter (· ∉ ids) := by
  have hk := h k
  rw [hx, Option.map_some] at hk
  obtain ⟨y, hy, hxy⟩ := Option.map_eq_some_iff.mp hk
  obtain ⟨l, rfl, hl⟩ := outside_eq hxy
  exact ⟨l, hy, hl⟩

theorem SameOutside.get_none {a b : Table Binary Schedule} (h : SameOutside ids a b) {k : Binary}
    (hx : a[k]? = none) : b[k]? = none := by
  have hk := h k
  rwa [hx, Option.map_none, Option.map_eq_none_iff] at hk

theorem SameOutside.revisionOf {a b : Table Binary Schedule} (h : SameOutside ids a b)
    (k : Binary) : revisionOf b[k]? = revisionOf a[k]? := by
  cases hx : a[k]? with
  | none => rw [h.get_none hx]
  | some x =>
    obtain ⟨l, hy, -⟩ := h.get hx
    rw [hy]
    rfl

theorem SameOutside.insert {a b : Table Binary Schedule} (h : SameOutside ids a b) (k : Binary)
    {x y : Schedule} (hxy : outside ids y = outside ids x) :
    SameOutside ids (a.insert k x) (b.insert k y) := by
  intro l
  simp only [Std.ExtTreeMap.getElem?_insert]
  split
  · rw [Option.map_some, Option.map_some, hxy]
  · exact h l

theorem advance_simulates (h : SameOutside ids a.schedules b.schedules) {scheduleId : Binary}
    {dueAt nextAt sequence : ℕ} {a' : Candidate}
    (ha : advance a e scheduleId dueAt nextAt sequence = .ok a') :
    ∃ schedules, advance b e scheduleId dueAt nextAt sequence =
        .ok { b with schedules := schedules } ∧
      SameOutside ids a'.schedules schedules ∧ a' = { a with schedules := a'.schedules } ∧
      ∀ x, a'.schedules[scheduleId]? = some x →
        ∃ x₀, a.schedules[scheduleId]? = some x₀ ∧ x.activeJobIds = x₀.activeJobIds := by
  unfold advance at ha
  cases hx : a.schedules[scheduleId]? with
  | none =>
    rw [hx] at ha
    cases ha
  | some x =>
    rw [hx] at ha
    simp only [bind_eq_ok, check_eq_ok, pure_eq_ok] at ha
    obtain ⟨-, hcancelled, -, hrevision, -, hnext, ha⟩ := ha
    cases ha
    obtain ⟨l, hy, hl⟩ := h.get hx
    refine ⟨b.schedules.insert x.id { x with
        revision := sequence, lastAt := some dueAt, nextAt := nextAt, activeJobIds := l }, ?_,
      h.insert x.id (outside_congr rfl hl), rfl, ?_⟩
    · simp only [advance, hy, hcancelled, hrevision, hnext, check_true, ok_bind, pure_eq_ok]
    · intro z hz
      simp only [Std.ExtTreeMap.getElem?_insert] at hz
      split at hz
      · cases hz
        exact ⟨x, rfl, rfl⟩
      · rw [hx] at hz
        cases hz
        exact ⟨x, rfl, rfl⟩

theorem restate_simulates (h : SameOutside ids a.schedules b.schedules) {k : Checkpoint}
    {a' : Candidate} (ha : restate a e k = .ok a') :
    ∃ schedules, restate b e k = .ok { b with schedules := schedules } ∧
      SameOutside ids a'.schedules schedules ∧ a' = { a with schedules := a'.schedules } := by
  simp only [restate, bind_eq_ok, check_eq_ok, pure_eq_ok] at ha
  obtain ⟨-, hrevision, ha⟩ := ha
  cases ha
  have hb := hrevision
  rw [← h.revisionOf] at hb
  simp only [restate, hb, check_true, ok_bind, pure_eq_ok]
  refine ⟨_, rfl, h.insert k.scheduleId ?_, trivial⟩
  cases hx : a.schedules[k.scheduleId]? with
  | none => rw [h.get_none hx]
  | some x =>
    obtain ⟨l, hy, hl⟩ := h.get hx
    rw [hy]
    exact outside_congr rfl hl

theorem update_simulates (h : SameOutside ids a.schedules b.schedules) {id : Binary}
    {f g : Schedule → Schedule} {a' : Candidate}
    (hfg : ∀ x l, a.schedules[id]? = some x →
      l.filter (· ∉ ids) = x.activeJobIds.filter (· ∉ ids) →
      outside ids (g { x with activeJobIds := l }) = outside ids (f x))
    (ha : update a id f = .ok a') :
    ∃ schedules, update b id g = .ok { b with schedules := schedules } ∧
      SameOutside ids a'.schedules schedules ∧ a' = { a with schedules := a'.schedules } := by
  unfold update at ha
  cases hx : a.schedules[id]? with
  | none =>
    rw [hx] at ha
    cases ha
  | some x =>
    rw [hx] at ha
    cases ha
    obtain ⟨l, hy, hl⟩ := h.get hx
    refine ⟨_, ?_, h.insert id (hfg x l hx hl), rfl⟩
    rw [update, hy]

/-- The running members outside some ids depend only on what is known outside them. -/
theorem filter_activeMembers {jobs jobs' : Table JobId Job} {l l' : List JobId}
    (hl : l'.filter (· ∉ ids) = l.filter (· ∉ ids))
    (hjobs : ∀ x ∈ l, x ∉ ids → active? jobs'[x]? = active? jobs[x]?) :
    (activeMembers jobs' l').filter (· ∉ ids) = (activeMembers jobs l).filter (· ∉ ids) := by
  have hsorted : ∀ (t : Table JobId Job) (m : List JobId),
      ((activeMembers t m).filter (· ∉ ids)).Pairwise (· ≤ ·) := fun t m ↦
    (List.pairwise_insertionSort (· ≤ ·) _).filter _
  have hnodup : ∀ (t : Table JobId Job) (m : List JobId),
      ((activeMembers t m).filter (· ∉ ids)).Nodup := fun t m ↦
    ((List.perm_insertionSort (· ≤ ·) _).nodup_iff.mpr ((List.nodup_dedup m).filter _)).filter _
  refine List.Perm.eq_of_pairwise ?_ (hsorted _ _) (hsorted _ _) ?_
  · intro x y _ _ hxy hyx
    exact le_antisymm hxy hyx
  · rw [List.perm_ext_iff_of_nodup (hnodup _ _) (hnodup _ _)]
    intro x
    have hmem : x ∈ l'.filter (· ∉ ids) ↔ x ∈ l.filter (· ∉ ids) := by rw [hl]
    simp only [List.mem_filter, decide_eq_true_eq] at hmem
    simp only [activeMembers, List.mem_filter, List.mem_insertionSort, List.mem_dedup,
      decide_eq_true_eq]
    constructor
    · rintro ⟨⟨hx, hactive⟩, hout⟩
      have hx' := (hmem.mp ⟨hx, hout⟩).1
      exact ⟨⟨hx', hjobs x hx' hout ▸ hactive⟩, hout⟩
    · rintro ⟨⟨hx, hactive⟩, hout⟩
      exact ⟨⟨(hmem.mpr ⟨hx, hout⟩).1, (hjobs x hx hout).symm ▸ hactive⟩, hout⟩

theorem applyEvent_result {c c' : Candidate} {sequence : ℕ} {id : JobId} {result : Value}
    (hbody : e.body = .resultRecorded id result) (h : applyEvent c e sequence = .ok c') :
    ∃ job, c.jobs[id]? = some job := by
  simp only [applyEvent, hbody] at h
  cases hj : c.jobs[id]? with
  | none =>
    rw [hj] at h
    cases h
  | some job => exact ⟨job, rfl⟩

/-- **One auxiliary event, twice.** What one state accepts, the other accepts, with schedules that
agree outside `ids` and the same change to the results; a job the other does not know gets none. -/
theorem applyEvent_simulates {sequence : ℕ} {a' : Candidate}
    (hschedules : SameOutside ids a.schedules b.schedules)
    (hmembers : ∀ x ∈ memberIds a.schedules e, x ∉ ids → active? b.jobs[x]? = active? a.jobs[x]?)
    (hresult : ∀ id result, e.body = .resultRecorded id result →
      (b.jobs[id]?).map Job.durable = (a.jobs[id]?).map Job.durable)
    (h : applyEvent a e sequence = .ok a') :
    ∃ b', applyEvent b e sequence = .ok b' ∧ SameOutside ids a'.schedules b'.schedules ∧
      a' = { a with schedules := a'.schedules, results := a'.results } ∧
      b' = { b with schedules := b'.schedules, results := b'.results } ∧
      (∀ id : JobId, b.results[id]? = a.results[id]? → b'.results[id]? = a'.results[id]?) ∧
      ∀ id : JobId, b.jobs[id]? = none → b'.results[id]? = b.results[id]? := by
  obtain ⟨expected, timestamp, body⟩ := e
  cases body with
  | scheduleRegistered scheduleId definition nextAt =>
    simp only [applyEvent, bind_eq_ok, check_eq_ok, pure_eq_ok] at h
    obtain ⟨-, hrevision, h⟩ := h
    cases h
    have hb := hrevision
    rw [← hschedules.revisionOf] at hb
    simp only [applyEvent, hb, check_true, ok_bind, pure_eq_ok]
    exact ⟨_, rfl, hschedules.insert scheduleId rfl, trivial, rfl, fun _ h ↦ h, fun _ _ ↦ rfl⟩
  | scheduleAdvanced scheduleId dueAt nextAt =>
    obtain ⟨schedules, hb, hsame, ha', -⟩ := advance_simulates hschedules h
    refine ⟨_, hb, hsame, by rw [ha'], rfl, ?_, fun _ _ ↦ rfl⟩
    rw [ha']
    exact fun _ h ↦ h
  | scheduleCancelled scheduleId =>
    simp only [applyEvent] at h
    cases hx : a.schedules[scheduleId]? with
    | none =>
      rw [hx] at h
      cases h
    | some x =>
      rw [hx] at h
      simp only [bind_eq_ok, check_eq_ok, pure_eq_ok] at h
      obtain ⟨-, hrevision, h⟩ := h
      cases h
      obtain ⟨l, hy, hl⟩ := hschedules.get hx
      simp only [applyEvent, hy, hrevision, check_true, ok_bind, pure_eq_ok]
      exact ⟨_, rfl, hschedules.insert x.id (outside_congr rfl hl), trivial, rfl, fun _ h ↦ h,
        fun _ _ ↦ rfl⟩
  | resultRecorded jobId result =>
    simp only [applyEvent] at h
    have hdurable := hresult jobId result rfl
    cases hx : a.jobs[jobId]? with
    | none =>
      rw [hx] at h
      cases h
    | some x =>
      rw [hx] at h hdurable
      simp only [bind_eq_ok, check_eq_ok, pure_eq_ok] at h
      obtain ⟨-, hstate, -, hrevision, h⟩ := h
      cases h
      obtain ⟨y, hy, hxy⟩ := Option.map_eq_some_iff.mp hdurable
      have hstate' : y.state = x.state := by rw [← Job.durable_state, hxy, Job.durable_state]
      have hrevision' : y.revision = x.revision := by
        rw [← Job.durable_revision, hxy, Job.durable_revision]
      simp only [applyEvent, hy, hstate', hrevision', hstate, hrevision, check_true, ok_bind,
        pure_eq_ok]
      refine ⟨_, rfl, hschedules, trivial, rfl, ?_, ?_⟩
      · intro id hid
        simp only [Std.ExtTreeMap.getElem?_insert, hid]
      · intro id hid
        have hne : ¬jobId = id := by
          rintro rfl
          rw [hy] at hid
          cases hid
        simp only [Std.ExtTreeMap.getElem?_insert, Std.LawfulEqCmp.compare_eq_iff_eq, hne, if_false]
  | scheduleCheckpoint k =>
    obtain ⟨schedules, hb, hsame, ha'⟩ := restate_simulates hschedules h
    refine ⟨_, hb, hsame, by rw [ha'], rfl, ?_, fun _ _ ↦ rfl⟩
    rw [ha']
    exact fun _ h ↦ h
  | scheduleMembership k activeJobIds membershipComplete =>
    obtain ⟨c, hc, h⟩ := bind_eq_ok.mp h
    obtain ⟨schedules, hb, hsame, hc'⟩ := restate_simulates hschedules hc
    obtain ⟨schedules', hb', hsame', ha'⟩ := update_simulates
      (b := { b with schedules := schedules })
      (g := fun s ↦ { s with
        activeJobIds := activeJobIds
        membershipComplete := membershipComplete }) hsame (fun x l _ _ ↦ rfl) h
    refine ⟨{ b with schedules := schedules' }, ?_, hsame', ?_, rfl, ?_, fun _ _ ↦ rfl⟩
    · simp only [applyEvent, hb, ok_bind]
      exact hb'
    · rw [ha', hc']
    · rw [ha', hc']
      exact fun _ h ↦ h
  | scheduleDelivered scheduleId activeJobId dueAt nextAt =>
    obtain ⟨c, hc, h⟩ := bind_eq_ok.mp h
    obtain ⟨schedules, hb, hsame, hc', hkept⟩ := advance_simulates hschedules hc
    obtain ⟨schedules', hb', hsame', ha'⟩ := update_simulates
      (b := { b with schedules := schedules })
      (g := fun s ↦ { s with
        activeJobId := activeJobId
        revision := expected + 1
        activeJobIds := activeMembers b.jobs (s.activeJobIds ++ activeJobId.toList) }) hsame (by
      intro x l hx hl
      obtain ⟨x₀, hx₀, hids⟩ := hkept x hx
      refine outside_congr rfl (filter_activeMembers ?_ ?_)
      · rw [List.filter_append, List.filter_append, hl]
      · intro z hz hout
        apply hmembers z _ hout
        simpa [memberIds, AuxBody.scheduleId?, AuxBody.activeJobId?, hx₀, hids] using hz) h
    refine ⟨{ b with schedules := schedules' }, ?_, hsame', ?_, rfl, ?_, fun _ _ ↦ rfl⟩
    · simp only [applyEvent, hb, ok_bind]
      exact hb'
    · rw [ha', hc']
    · rw [ha', hc']
      exact fun _ h ↦ h

/-- An auxiliary event changes schedules and results only. -/
theorem applyEvent_frame {c c' : Candidate} {sequence : ℕ} (h : applyEvent c e sequence = .ok c') :
    c' = { c with schedules := c'.schedules, results := c'.results } := by
  obtain ⟨-, -, -, hframe, -⟩ := applyEvent_simulates (b := c) (sameOutside_refl ∅ _)
    (fun _ _ _ ↦ rfl) (fun _ _ _ ↦ rfl) h
  exact hframe

end Simulation

end Auxiliary

end Tay
