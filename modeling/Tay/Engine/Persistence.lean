import Tay.Engine.State

/-!
# Commits

`Tay.Engine.Persistence`: how a command becomes durable. A commit is prepared against the current
state (the mutation, the next version of the job, the headroom, the memory), appended by the writer,
and then finished against whatever state the reply leaves: if the writer has meanwhile switched
epochs, the reply carries the compacted epoch and the engine adopts it before it finishes.

What the environment decides is in `Environment`: whether the shared memory counter admits a growth,
and the writer's reply to the append. A commit that succeeds also returns the records it has put in
the log.
-/

open Foundation

namespace Tay.Engine

open V2 Transition ProjectionState

/-! ## The environment -/

/-- The writer's reply to an append. -/
inductive Reply
  | ok (receipt : Receipt)
  /-- The record went to the epoch a finished compaction has just published. -/
  | switched (receipt : Receipt) (stats : OnlineCheckpoint.Stats)
  | error (reason : Reason)

structure Environment where
  /-- Whether the shared memory counter has room for a growth. -/
  admits : ℤ → Bool
  /-- The writer's reply to an append of a payload. -/
  append : Payload → Reply

/-! ## Positions and headroom -/

/-- Whether an append of `bytes` opens a new segment. -/
def rotates (s : State) (bytes : ℕ) : Bool :=
  0 < s.segment.count &&
    (s.segment.sealed || s.config.rotationTargetBytes < s.segment.bytes + bytes + 28 + 64)

def expectedPosition (s : State) (bytes : ℕ) : Receipt where
  sequence := s.nextSequence
  segmentId := s.segment.id + if rotates s bytes then 1 else 0
  offset := if rotates s bytes then 44 else s.segment.bytes

def historyDelta (s : State) (bytes : ℕ) : ℕ :=
  bytes + 28 + if rotates s bytes then 44 + (if s.segment.sealed then 0 else 64) else 0

/-- Bytes kept free for one settlement. -/
def outcomeReserve (count : ℤ) : ℤ := count * (1024 + 64 + 44)

def overLimit (value : ℤ) : Option ℕ → Bool
  | none => false
  | some limit => (limit : ℤ) < value

def headroom (s : State) (bytes : ℕ) (reserve : ℤ) : Except Reason Unit := do
  check (s.nextSequence + reserve ≤ maxId) .sequenceExhausted
  check ((expectedPosition s bytes).segmentId + reserve ≤ maxId) .segmentIdExhausted
  check (!overLimit (s.historyBytes + historyDelta s bytes + outcomeReserve reserve)
    s.config.maxHistoryBytes) (.resourceLimit .maxHistoryBytes)
  check (!overLimit (s.segmentCount + (expectedPosition s bytes).segmentId - s.segment.id + reserve)
    s.config.maxSegments) (.resourceLimit .maxSegments)

/-- How a job event changes a settlement reserve. -/
def reservationAfter (reserve : ℤ) (previous : Option Job) : JobBody → ℤ
  | .started .. => reserve + 1
  | .finished .. | .cancelled .. =>
    if previous.any (·.state == .executing) then reserve - 1 else reserve
  | _ => reserve

/-- The engine's coordinates after it has accepted a receipt. -/
def advance (s : State) (receipt : Receipt) (bytes : ℕ) : State :=
  { s with
    nextSequence := s.nextSequence + 1
    historyBytes := s.historyBytes + historyDelta s bytes
    segmentCount := s.segmentCount + receipt.segmentId - s.segment.id
    segment :=
      { id := receipt.segmentId
        sealed := false
        bytes := receipt.offset + bytes + 28
        count := if receipt.segmentId == s.segment.id then s.segment.count + 1 else 1
        sealed_count := fun h ↦ nomatch h } }

/-- `validate_receipt!`. -/
def validateReceipt (s : State) (receipt : Receipt) (bytes : ℕ) : Except Reason Unit :=
  check (receipt == expectedPosition s bytes) .raised

variable (vm : Runtime)

/-- `append_record`: adopt the published epoch when the reply carries one. -/
def appendRecord (s : State) (payload : Payload) (env : Environment) :
    Except Reason (Receipt × State) :=
  match env.append payload with
  | .ok receipt => .ok (receipt, s)
  | .error reason => .error reason
  | .switched receipt stats =>
    match s.onlineCompaction with
    | .running token retention => do
      let adopted ← OnlineCheckpoint.adopt vm s stats retention env.admits
      return (receipt, { adopted with onlineCompaction := .switched token retention })
    | _ => .error .raised

/-- How `commit_v2` reads a failed append: an exhausted coordinate is an answer, and anything else
leaves the commit unknown, which ends the process. -/
def commitUnknown : Reason → Reason
  | .sequenceExhausted => .sequenceExhausted
  | .segmentIdExhausted => .segmentIdExhausted
  | _ => .raised

/-! ## Job commits -/

/-- A commit that has passed every check before the append. -/
structure Prepared where
  mutation : Mutation
  job : Job
  budget : Accounting
  reserve : ℤ
  nextOrder : ℕ

/-- What a successful commit returns, and what it has put in the log. -/
structure Committed where
  job : Job
  state : State
  records : List Record

def prepareV2 (s : State) (previous : Option Job) (e : JobEvent) : Except Reason Prepared := do
  let mutation ← Mutation.fromEvent e previous s.nextAvailabilityOrder
  let payload ← Codec.encodeMutation mutation s.config.valueLimits
  let predicted ← Reducer.applyOne vm previous mutation s.nextAvailabilityOrder
    s.config.candidateLimits s.config.valueLimits
  let reserve := reservationAfter s.persistentSettlementReserve previous e.body
  headroom s payload.length reserve
  let charged ← accountActive vm s previous predicted.1 .persistent
  return ⟨mutation, charged.1, charged.2, reserve, predicted.2⟩

def finishCommit (s : State) (previous : Option Job) (e : JobEvent) (p : Prepared)
    (receipt : Receipt) : Except Reason Committed := do
  let charged ← accountActive vm s previous p.job .persistent
  let published := publish s previous charged.1 .persistent
  let advanced := advance published receipt (Payload.mutation p.mutation).bytes
  let next ← ensureActiveAccounting
    { advanced with
      budget := charged.2
      activeBudget := replacePartition s.activeBudget previous charged.1 .active .persistent
      terminalBudget := replacePartition s.terminalBudget previous charged.1 .terminal .persistent
      nextAvailabilityOrder := p.nextOrder
      settlementReserve := reservationAfter s.settlementReserve previous e.body
      persistentSettlementReserve := p.reserve }
  return ⟨charged.1, next, [⟨receipt.sequence, .mutation p.mutation⟩]⟩

def commitV2 (s : State) (previous : Option Job) (e : JobEvent) (env : Environment) :
    Except Reason Committed := do
  let p ← prepareV2 vm s previous e
  check (env.admits (p.budget.bytes - s.budget.bytes)) (.resourceLimit .retainedBytes)
  let r ← (appendRecord vm s (.mutation p.mutation) env).mapError commitUnknown
  validateReceipt r.2 r.1 (Payload.mutation p.mutation).bytes
  finishCommit vm r.2 previous e p r.1

/-- `CompactionEstimate.terminal_time`. -/
def terminalTime (job : Job) (timestamp : ℕ) : Option ℕ :=
  if job.state.terminal then some timestamp else none

def commitVolatile (s : State) (previous : Option Job) (e : JobEvent) (env : Environment) :
    Except Reason Committed := do
  let mutation ← Mutation.fromEvent e previous s.volatileNextAvailabilityOrder
  let _ ← Codec.encodeMutation mutation s.config.valueLimits
  let predicted ← Reducer.applyOne vm previous mutation s.volatileNextAvailabilityOrder
    s.config.candidateLimits s.config.valueLimits
  let charged ← accountActive vm s previous predicted.1 .volatile
  check (env.admits (charged.2.bytes - s.budget.bytes)) (.resourceLimit .retainedBytes)
  let job := { charged.1 with terminalAt := terminalTime charged.1 e.timestamp }
  let published := publish s previous job .volatile
  let next ← ensureActiveAccounting
    { published with
      volatileIds := insert job.id s.volatileIds
      volatileNextAvailabilityOrder := predicted.2
      budget := charged.2
      activeBudget := replacePartition s.activeBudget previous job .active .volatile
      volatileTerminalBudget :=
        replacePartition s.volatileTerminalBudget previous job .terminal .persistent
      settlementReserve := reservationAfter s.settlementReserve previous e.body }
  return ⟨job, next, []⟩

/-- `commit`: a durability given by the caller, or the one the job already has. -/
def commit (s : State) (previous : Option Job) (e : JobEvent) (given : Option Durability)
    (env : Environment) : Except Reason Committed :=
  match given.getD (match previous with | some p => durability s p.id | none => .persistent) with
  | .volatile => commitVolatile vm s previous e env
  | .persistent => commitV2 vm s previous e env

/-! ## Auxiliary commits -/

/-- Add the known jobs among `ids` to a table. -/
def seedJobs (s : State) (ids : List JobId) (jobs : Table JobId Job) : Table JobId Job :=
  ids.foldl (fun acc raw ↦
    match lookup s raw with
    | some value => acc.insert raw value
    | none => acc) jobs

/-- The candidate an auxiliary event is validated against: the schedules and results, and only the
jobs it can concern. -/
def auxiliarySeed (s : State) (e : AuxEvent) (job : Option Job) : Candidate :=
  let jobs := seedJobs s (Auxiliary.memberIds s.schedules e).dedup ∅
  { candidate s.config.candidateLimits s.config.valueLimits with
    jobs := match job with | some j => jobs.insert j.id j | none => jobs
    schedules := s.schedules
    results := s.results
    bytes := s.budget.bytes + s.auxiliaryBytes
    auxiliaryBytes := s.auxiliaryBytes }

/-- The owners after an event: only a schedule event can change them. -/
def ownersAfter (s : State) (e : AuxEvent) (schedules : Table Binary Schedule) :
    Table JobId Binary :=
  match e.body.scheduleId?.bind fun id ↦ schedules[id]?.map fun next ↦ (id, next) with
  | some (id, next) => Auxiliary.replaceOwners s.scheduleOwners s.schedules[id]? next
  | none => s.scheduleOwners

def prepareAuxiliary (s : State) (e : AuxEvent) (job : Option Job) : Except Reason Candidate := do
  let payload ← e.encode s.config.valueLimits s.config.maxDecodePayloadBytes
  let c ← Auxiliary.reduce vm (auxiliarySeed s e job) e s.nextSequence
  headroom s payload.length s.persistentSettlementReserve
  return c

def finishAuxiliary (s : State) (e : AuxEvent) (job : Option Job) (receipt : Receipt) :
    Except Reason (State × List Record) := do
  match Auxiliary.reduce vm (auxiliarySeed s e job) e s.nextSequence with
  | .error _ => .error .raised
  | .ok c =>
    return ({ advance s receipt (Payload.auxiliary e).bytes with
      schedules := c.schedules
      auxiliaryBytes := c.auxiliaryBytes
      scheduleOwners := ownersAfter s e c.schedules
      results := c.results }, [⟨receipt.sequence, .auxiliary e⟩])

def commitPersistentAuxiliary (s : State) (e : AuxEvent) (job : Option Job) (env : Environment) :
    Except Reason (State × List Record) := do
  let c ← prepareAuxiliary vm s e job
  check (env.admits (c.auxiliaryBytes - s.auxiliaryBytes)) (.resourceLimit .retainedBytes)
  let r ← appendRecord vm s (.auxiliary e) env
  validateReceipt r.2 r.1 (Payload.auxiliary e).bytes
  finishAuxiliary vm r.2 e job r.1

def commitVolatileAuxiliary (s : State) (e : AuxEvent) (job : Option Job) (env : Environment) :
    Except Reason (State × List Record) := do
  let _ ← e.encode s.config.valueLimits s.config.maxDecodePayloadBytes
  let c ← Auxiliary.reduce vm (auxiliarySeed s e job) e 1
  check (env.admits (c.auxiliaryBytes - s.auxiliaryBytes)) (.resourceLimit .retainedBytes)
  return ({ s with results := c.results, auxiliaryBytes := c.auxiliaryBytes }, [])

def commitAuxiliary (s : State) (e : AuxEvent) (job : Option Job) (env : Environment) :
    Except Reason (State × List Record) :=
  if job.any fun j ↦ durability s j.id == .volatile then commitVolatileAuxiliary vm s e job env
  else commitPersistentAuxiliary vm s e job env

/-! ## What a commit does

One lemma for each of the functions above, saying everything a success implies. Later results never
unfold a commit again. -/

theorem accountActive_charged {s : State} {previous : Option Job} {job : Job} {mode : Durability}
    {r : Job × Accounting} (h : accountActive vm s previous job mode = .ok r) :
    ∃ ch, r.1 = job.charged ch := by
  simp only [accountActive, account, charge, bind_eq_ok, pure_eq_ok] at h
  obtain ⟨q, ⟨job', ⟨base, -, hjob⟩, -, -, hq⟩, h⟩ := h
  cases hjob
  cases hq
  cases h
  exact ⟨_, rfl⟩

/-- Where an appended record lands: in the log the engine knows, or in the epoch a finished online
compaction has published and the engine adopts with the reply. -/
inductive Landing (s : State) (payload : Payload) (env : Environment) : State → Prop
  | stay {receipt : Receipt} : env.append payload = .ok receipt → Landing s payload env s
  | switch {receipt : Receipt} {stats : OnlineCheckpoint.Stats} {token : ℕ} {retention : Retention}
      {adopted : State} : s.onlineCompaction = .running token retention →
      env.append payload = .switched receipt stats →
      OnlineCheckpoint.adopt vm s stats retention env.admits = .ok adopted →
      Landing s payload env { adopted with onlineCompaction := .switched token retention }

theorem appendRecord_landing {s : State} {payload : Payload} {env : Environment}
    {r : Receipt × State} (h : appendRecord vm s payload env = .ok r) :
    Landing vm s payload env r.2 := by
  unfold appendRecord at h
  split at h
  case h_1 receipt happend =>
    cases h
    exact .stay happend
  case h_2 => cases h
  case h_3 receipt stats happend =>
    split at h
    case h_1 token retention honline =>
      obtain ⟨adopted, hadopted, h⟩ := bind_eq_ok.mp h
      cases h
      exact .switch honline happend hadopted
    case h_2 => cases h

/-- Outside an online compaction a record lands where the engine is. -/
theorem Landing.eq_of_none {s t : State} {payload : Payload} {env : Environment}
    (h : Landing vm s payload env t) (hs : s.onlineCompaction = .none) : t = s := by
  cases h with
  | stay => rfl
  | switch honline => rw [hs] at honline; cases honline

/-- A prepared commit, in full. -/
structure PreparedSpec (s : State) (previous : Option Job) (e : JobEvent) (p : Prepared) :
    Prop where
  mutation : Mutation.fromEvent e previous s.nextAvailabilityOrder = .ok p.mutation
  encoded : Codec.encodeMutation p.mutation s.config.valueLimits =
    .ok (Codec.mutationPayload p.mutation)
  transition : ∃ job, p.job.durable = job.durable ∧
    Reducer.transitionJob previous p.mutation s.nextAvailabilityOrder s.config.valueLimits =
      .ok job ∧
    p.nextOrder = Reducer.orderAfter s.nextAvailabilityOrder job.availabilityOrder
  reserve : p.reserve = reservationAfter s.persistentSettlementReserve previous e.body
  headroom : headroom s (Payload.mutation p.mutation).bytes p.reserve = .ok ()

theorem encodeMutation_eq_ok {m : Mutation} {limits : Value.Limits} {payload : Binary}
    (h : Codec.encodeMutation m limits = .ok payload) : payload = Codec.mutationPayload m := by
  simp only [Codec.encodeMutation, bind_eq_ok, pure_eq_ok] at h
  obtain ⟨-, -, -, -, -, -, h⟩ := h
  cases h
  rfl

theorem prepareV2_spec {s : State} {previous : Option Job} {e : JobEvent} {p : Prepared}
    (h : prepareV2 vm s previous e = .ok p) : PreparedSpec s previous e p := by
  simp only [prepareV2, bind_eq_ok, pure_eq_ok] at h
  obtain ⟨m, hm, payload, hpayload, predicted, hpredicted, u, hroom, charged, hcharged, h⟩ := h
  cases h
  cases encodeMutation_eq_ok hpayload
  obtain ⟨job, hjob, hdurable, horder⟩ := Reducer.applyOne_eq_ok vm hpredicted
  obtain ⟨ch, hch⟩ := accountActive_charged vm hcharged
  refine ⟨hm, hpayload, ⟨job, ?_, hjob, horder⟩, rfl, hroom⟩
  rw [hch, Job.durable_charged, hdurable]

/-- The state a finished job commit leaves, apart from the memory budgets. -/
structure FinishedSpec (s : State) (previous : Option Job) (e : JobEvent) (p : Prepared)
    (receipt : Receipt) (c : Committed) : Prop where
  job : c.job.durable = p.job.durable
  hot : c.state.hot = (publish s previous c.job .persistent).hot
  terminalStore : c.state.terminalStore = (publish s previous c.job .persistent).terminalStore
  records : c.records = [⟨receipt.sequence, .mutation p.mutation⟩]
  config : c.state.config = s.config
  schedules : c.state.schedules = s.schedules
  scheduleOwners : c.state.scheduleOwners = s.scheduleOwners
  results : c.state.results = s.results
  volatileIds : c.state.volatileIds = s.volatileIds
  order : c.state.nextAvailabilityOrder = p.nextOrder
  volatileOrder : c.state.volatileNextAvailabilityOrder = s.volatileNextAvailabilityOrder
  sequence : c.state.nextSequence = s.nextSequence + 1
  historyBytes : c.state.historyBytes =
    s.historyBytes + historyDelta s (Payload.mutation p.mutation).bytes
  segmentCount : c.state.segmentCount = s.segmentCount + receipt.segmentId - s.segment.id
  segment : c.state.segment = (advance s receipt (Payload.mutation p.mutation).bytes).segment
  settlement : c.state.settlementReserve = reservationAfter s.settlementReserve previous e.body
  persistent : c.state.persistentSettlementReserve = p.reserve
  epochId : c.state.epochId = s.epochId
  online : c.state.onlineCompaction = s.onlineCompaction

/-- Publishing a job moves nothing but the job. -/
structure SameButJobs (s t : State) : Prop where
  config : t.config = s.config
  schedules : t.schedules = s.schedules
  scheduleOwners : t.scheduleOwners = s.scheduleOwners
  results : t.results = s.results
  volatileIds : t.volatileIds = s.volatileIds
  order : t.nextAvailabilityOrder = s.nextAvailabilityOrder
  volatileOrder : t.volatileNextAvailabilityOrder = s.volatileNextAvailabilityOrder
  sequence : t.nextSequence = s.nextSequence
  segment : t.segment = s.segment
  historyBytes : t.historyBytes = s.historyBytes
  segmentCount : t.segmentCount = s.segmentCount
  settlement : t.settlementReserve = s.settlementReserve
  persistent : t.persistentSettlementReserve = s.persistentSettlementReserve
  epochId : t.epochId = s.epochId
  online : t.onlineCompaction = s.onlineCompaction

theorem publish_same (s : State) (previous : Option Job) (job : Job) (mode : Durability) :
    SameButJobs s (publish s previous job mode) := by
  unfold publish
  split
  · constructor <;> rfl
  · split <;> constructor <;> rfl

/-- The size of an append depends on the segment and the rotation target alone. -/
theorem historyDelta_congr {s t : State} (hsegment : t.segment = s.segment)
    (hconfig : t.config = s.config) (bytes : ℕ) : historyDelta t bytes = historyDelta s bytes := by
  unfold historyDelta rotates
  rw [hsegment, hconfig]

theorem finishCommit_spec {s : State} {previous : Option Job} {e : JobEvent} {p : Prepared}
    {receipt : Receipt} {c : Committed} (h : finishCommit vm s previous e p receipt = .ok c) :
    FinishedSpec s previous e p receipt c := by
  simp only [finishCommit, ensureActiveAccounting, bind_eq_ok, pure_eq_ok] at h
  obtain ⟨charged, hcharged, next, ⟨-, -, hnext⟩, h⟩ := h
  cases hnext
  cases h
  obtain ⟨ch, hch⟩ := accountActive_charged vm hcharged
  have same := publish_same s previous charged.1 .persistent
  constructor
  case job => rw [hch, Job.durable_charged]
  case historyBytes =>
    rw [← historyDelta_congr same.segment same.config, ← same.historyBytes]
    rfl
  case segmentCount => simp only [advance, same.segmentCount, same.segment]
  case segment => simp only [advance, same.segment]
  all_goals first
    | rfl
    | exact same.config
    | exact same.schedules
    | exact same.scheduleOwners
    | exact same.results
    | exact same.volatileIds
    | exact same.volatileOrder
    | exact same.epochId
    | exact same.online
    | exact congrArg (· + 1) same.sequence

/-- A persistent commit: prepared against the current state, appended, and finished where the record
has landed. -/
theorem commitV2_landing {s : State} {previous : Option Job} {e : JobEvent} {env : Environment}
    {c : Committed} (h : commitV2 vm s previous e env = .ok c) :
    ∃ p base, PreparedSpec s previous e p ∧ Landing vm s (.mutation p.mutation) env base ∧
      FinishedSpec base previous e p
        (expectedPosition base (Payload.mutation p.mutation).bytes) c := by
  simp only [commitV2, bind_eq_ok, mapError_eq_ok] at h
  obtain ⟨p, hp, -, -, r, hr, u, hvalid, h⟩ := h
  obtain ⟨receipt, base⟩ := r
  simp only [validateReceipt, check_eq_ok, beq_iff_eq] at hvalid
  cases hvalid
  exact ⟨p, base, prepareV2_spec vm hp, appendRecord_landing vm hr, finishCommit_spec vm h⟩

/-- A persistent commit outside an online compaction. -/
theorem commitV2_spec {s : State} {previous : Option Job} {e : JobEvent} {env : Environment}
    {c : Committed} (hs : s.onlineCompaction = .none) (h : commitV2 vm s previous e env = .ok c) :
    ∃ p, PreparedSpec s previous e p ∧
      FinishedSpec s previous e p (expectedPosition s (Payload.mutation p.mutation).bytes) c := by
  obtain ⟨p, base, hp, hlanding, hc⟩ := commitV2_landing vm h
  cases hlanding.eq_of_none vm hs
  exact ⟨p, hp, hc⟩

/-- A volatile commit: the job moves, and nothing the log knows does. -/
structure VolatileSpec (s : State) (previous : Option Job) (e : JobEvent) (c : Committed) :
    Prop where
  transition : ∃ m job, Mutation.fromEvent e previous s.volatileNextAvailabilityOrder = .ok m ∧
    Reducer.transitionJob previous m s.volatileNextAvailabilityOrder s.config.valueLimits =
      .ok job ∧ c.job.id = job.id ∧ c.job.state = job.state
  hot : c.state.hot = (publish s previous c.job .volatile).hot
  terminalStore : c.state.terminalStore = (publish s previous c.job .volatile).terminalStore
  records : c.records = []
  volatileIds : c.state.volatileIds = insert c.job.id s.volatileIds
  config : c.state.config = s.config
  schedules : c.state.schedules = s.schedules
  results : c.state.results = s.results
  order : c.state.nextAvailabilityOrder = s.nextAvailabilityOrder
  sequence : c.state.nextSequence = s.nextSequence
  segment : c.state.segment = s.segment
  historyBytes : c.state.historyBytes = s.historyBytes
  segmentCount : c.state.segmentCount = s.segmentCount
  persistent : c.state.persistentSettlementReserve = s.persistentSettlementReserve
  epochId : c.state.epochId = s.epochId
  online : c.state.onlineCompaction = s.onlineCompaction

theorem commitVolatile_spec {s : State} {previous : Option Job} {e : JobEvent} {env : Environment}
    {c : Committed} (h : commitVolatile vm s previous e env = .ok c) :
    VolatileSpec s previous e c := by
  simp only [commitVolatile, ensureActiveAccounting, bind_eq_ok, pure_eq_ok] at h
  obtain ⟨m, hm, -, -, predicted, hpredicted, charged, hcharged, -, -, next, ⟨-, -, hnext⟩, h⟩ := h
  cases hnext
  cases h
  obtain ⟨job, hjob, hdurable, -⟩ := Reducer.applyOne_eq_ok vm hpredicted
  obtain ⟨ch, hch⟩ := accountActive_charged vm hcharged
  have hid : charged.1.id = job.id := by
    rw [hch, Job.charged_id, ← Job.durable_id predicted.1, hdurable, Job.durable_id]
  have hstate : charged.1.state = job.state := by
    rw [hch, Job.charged_state, ← Job.durable_state predicted.1, hdurable, Job.durable_state]
  have same := publish_same s previous
    { charged.1 with terminalAt := terminalTime charged.1 e.timestamp } .volatile
  constructor
  case transition => exact ⟨m, job, hm, hjob, hid, hstate⟩
  case config => exact same.config
  case schedules => exact same.schedules
  case results => exact same.results
  case order => exact same.order
  case sequence => exact same.sequence
  case segment => exact same.segment
  case historyBytes => exact same.historyBytes
  case segmentCount => exact same.segmentCount
  case persistent => exact same.persistent
  case epochId => exact same.epochId
  case online => exact same.online
  all_goals rfl

theorem seedJobs_get (s : State) (ids : List JobId) (id : JobId) :
    ∀ jobs : Table JobId Job, (seedJobs s ids jobs)[id]? =
      if id ∈ ids then (lookup s id).or jobs[id]? else jobs[id]? := by
  induction ids with
  | nil =>
    intro jobs
    rfl
  | cons x ids ih =>
    intro jobs
    rw [seedJobs, List.foldl_cons, ← seedJobs, ih]
    by_cases hx : x = id
    · subst hx
      cases hlookup : lookup s x with
      | none => simp
      | some j => simp
    · have hne : ¬id = x := fun h ↦ hx h.symm
      cases hlookup : lookup s x with
      | none => simp [hne]
      | some j => simp [hne, hx, Std.ExtTreeMap.getElem?_insert]

/-- A persistent auxiliary commit that was checked in `s` and finished in `base`. -/
structure AuxiliarySpec (s base : State) (e : AuxEvent) (job : Option Job) (t : State)
    (records : List Record) : Prop where
  encoded : ∃ payload, e.encode s.config.valueLimits s.config.maxDecodePayloadBytes = .ok payload
  headroom : headroom s (Payload.auxiliary e).bytes s.persistentSettlementReserve = .ok ()
  reduced : ∃ c, Auxiliary.reduce vm (auxiliarySeed base e job) e base.nextSequence = .ok c ∧
    t = { advance base (expectedPosition base (Payload.auxiliary e).bytes)
        (Payload.auxiliary e).bytes with
      schedules := c.schedules
      auxiliaryBytes := c.auxiliaryBytes
      scheduleOwners := ownersAfter base e c.schedules
      results := c.results }
  records : records = [⟨base.nextSequence, .auxiliary e⟩]

theorem encodeAux_eq_ok {e : AuxEvent} {limits : Value.Limits} {max : ℕ} {payload : Binary}
    (h : e.encode limits max = .ok payload) : payload = e.toValue.wire := by
  simp only [AuxEvent.encode, Value.encode, bind_eq_ok, pure_eq_ok] at h
  obtain ⟨-, -, -, -, -, -, h⟩ := h
  cases h
  rfl

theorem commitPersistentAuxiliary_landing {s : State} {e : AuxEvent} {job : Option Job}
    {env : Environment} {r : State × List Record}
    (h : commitPersistentAuxiliary vm s e job env = .ok r) :
    ∃ base, Landing vm s (.auxiliary e) env base ∧ AuxiliarySpec vm s base e job r.1 r.2 := by
  simp only [commitPersistentAuxiliary, prepareAuxiliary, bind_eq_ok] at h
  obtain ⟨-, ⟨payload, hpayload, -, -, u, hroom, -⟩, -, -, a, ha, u', hvalid, h⟩ := h
  obtain ⟨receipt, base⟩ := a
  simp only [validateReceipt, check_eq_ok, beq_iff_eq] at hvalid
  cases hvalid
  cases encodeAux_eq_ok hpayload
  simp only [finishAuxiliary] at h
  cases hreduce : Auxiliary.reduce vm (auxiliarySeed base e job) e base.nextSequence with
  | error reason =>
    rw [hreduce] at h
    cases h
  | ok c =>
    rw [hreduce] at h
    cases h
    exact ⟨base, appendRecord_landing vm ha, ⟨⟨_, hpayload⟩, hroom, ⟨c, hreduce, rfl⟩, rfl⟩⟩

/-- A persistent auxiliary commit outside an online compaction. -/
theorem commitPersistentAuxiliary_spec {s : State} {e : AuxEvent} {job : Option Job}
    {env : Environment} {r : State × List Record} (hs : s.onlineCompaction = .none)
    (h : commitPersistentAuxiliary vm s e job env = .ok r) :
    AuxiliarySpec vm s s e job r.1 r.2 := by
  obtain ⟨base, hlanding, hspec⟩ := commitPersistentAuxiliary_landing vm h
  cases hlanding.eq_of_none vm hs
  exact hspec

end Tay.Engine
