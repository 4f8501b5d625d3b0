import Tay.Engine.Execution
import Tay.Engine.Headroom
import Tay.Foundation.Run

/-!
# The reserve over whole runs

The life of a generation as a machine: commands, the rotation that starts an online compaction, and
the adoption of the epoch it publishes. Commits check their own headroom. The rotation and the
adoption do not, so the reserve is secured over those runs in which they happen to leave the reserved
room; `Permitted` says so step by step.

Over such runs the count is exact, the room is there in every state, and neither settling an
execution nor reconciling the interrupted ones after a restart is ever refused for capacity. At the
end of the module a run that is not of this kind loses a settlement.
-/

open Foundation

namespace Tay

open V2

namespace Engine

open Transition ProjectionState

variable (vm : Runtime)

/-! ## The engine as a machine -/

/-- The end of an online compaction, as the writer reports it. -/
inductive CompactResult
  /-- `{:ok, stats, false}`: no append has carried the switch yet. -/
  | ok (stats : OnlineCheckpoint.Stats) (admits : ℤ → Bool)
  /-- `{:ok, stats, true}`: an append has carried it. -/
  | switched
  | error

/-- The messages that move the engine's coordinates, with everything their senders decide. -/
inductive Action
  | command (op : Op) (env : Environment)
  | compactOnline (rotation : OnlineCheckpoint.Rotation) (token : ℕ) (retention : Retention)
  | compactResult (token : ℕ) (result : CompactResult)

/-- One message. A message that does not belong to the compaction in progress is ignored. -/
def handle (s : State) : Action → Except Reason State
  | .command op env => Prod.fst <$> perform vm s op env
  | .compactOnline rotation token retention =>
    match s.onlineCompaction with
    | .none => do
      let next ← OnlineCheckpoint.adoptRotation s rotation
      return { next with onlineCompaction := .running token retention }
    | _ => .ok s
  | .compactResult token result =>
    match result, s.onlineCompaction with
    | .ok stats admits, .running current retention =>
      if token == current then OnlineCheckpoint.adopt vm s stats retention admits else .ok s
    | .switched, .switched current _ =>
      .ok (if token == current then { s with onlineCompaction := .none } else s)
    | .error, .running current _ =>
      .ok (if token == current then { s with onlineCompaction := .none } else s)
    | _, _ => .ok s

/-- `Execution.reconcile`, before its first commit: the interrupted executions are counted. -/
def countInterrupted (s : State) : State :=
  { s with
    settlementReserve := (executing s).card
    persistentSettlementReserve := (executing s).card }

/-- A generation starts on a store that recovers, and that has the reserved room under the
configured limits. Reconciling the interrupted executions is part of the run. -/
def Starts (s : State) : Prop :=
  ∃ d config r segment,
    Reader.recover vm d (candidate config.candidateLimits config.valueLimits) = .ok r ∧
      s = countInterrupted (init config r segment) ∧ Fits s

/-- The engine's life in one generation. A refused command leaves the state as it was. -/
def machine : Machine State Action where
  initial := Starts vm
  step s a := (handle vm s a).toOption

/-! ## Steps that leave the reserved room -/

/-- The payload a command appends if it comes to that. -/
def appended (s : State) : Op → Option Payload
  | .insert e _ | .change e =>
    (Mutation.fromEvent e (lookup s e.jobId) s.nextAvailabilityOrder).toOption.map .mutation
  | .auxiliary e => some (.auxiliary e)

/-- The settlements to be reserved once a command is done. -/
def settlementsAfter (s : State) : Op → ℤ
  | .insert e _ | .change e =>
    reservationAfter s.persistentSettlementReserve (lookup s e.jobId) e.body
  | .auxiliary _ => s.persistentSettlementReserve

/-- Room for a fresh segment on top of the reserved settlements. -/
structure RoomToRotate (s : State) : Prop where
  segmentId : s.segment.id + 1 + s.persistentSettlementReserve ≤ maxId
  history : ∀ limit ∈ s.config.maxHistoryBytes,
    (s.historyBytes + 44 + if s.segment.sealed then 0 else 64 : ℕ) +
      1132 * s.persistentSettlementReserve ≤ limit
  segments : ∀ limit ∈ s.config.maxSegments,
    s.segmentCount + 1 + s.persistentSettlementReserve ≤ limit

/-- The side condition on the steps that move the coordinates without a check: the rotation at the
start of an online compaction must find room, and an adopted epoch must leave the reserved room,
also for the record that was appended to it before the engine knew of it. -/
def Permitted (s : State) : Action → Prop
  | .command op env =>
    s.onlineCompaction ≠ .none → ∀ payload ∈ appended s op, ∀ receipt stats segment,
      env.append payload = .switched receipt stats →
      stats.recovered.highest.bind Summary.view? = some segment →
      HasRoom (moved s stats segment) payload.bytes (settlementsAfter s op)
  | .compactOnline rotation _ _ => rotation.segment.id ≠ s.segment.id → RoomToRotate s
  | .compactResult _ (.ok stats _) =>
    ∀ segment, stats.recovered.highest.bind Summary.view? = some segment →
      Fits (moved s stats segment)
  | .compactResult _ _ => True

/-- The invariant: the reserve is the number of running persistent executions, and their room is
there. -/
structure Secured (s : State) : Prop extends Counted s, Fits s

theorem Fits.congr {s t : State} (h : Fits s)
    (hmaxHistory : t.config.maxHistoryBytes = s.config.maxHistoryBytes)
    (hmaxSegments : t.config.maxSegments = s.config.maxSegments)
    (hreserve : t.persistentSettlementReserve = s.persistentSettlementReserve)
    (hsequence : t.nextSequence = s.nextSequence) (hsegment : t.segment = s.segment)
    (hhistory : t.historyBytes = s.historyBytes) (hcount : t.segmentCount = s.segmentCount) :
    Fits t := by
  constructor
  · rw [hsequence, hreserve]
    exact h.sequence
  · rw [hsegment, hreserve]
    exact h.segmentId
  · rw [hmaxHistory, hhistory, hreserve]
    exact h.history
  · rw [hmaxSegments, hcount, hreserve]
    exact h.segments

theorem HasRoom.congr {s t : State} {bytes : ℕ} {reserve : ℤ} (h : HasRoom s bytes reserve)
    (hconfig : ∃ retention, t.config = { s.config with terminalRetention := retention })
    (hsequence : t.nextSequence = s.nextSequence) (hsegment : t.segment = s.segment)
    (hhistory : t.historyBytes = s.historyBytes) (hcount : t.segmentCount = s.segmentCount) :
    HasRoom t bytes reserve := by
  obtain ⟨retention, hconfig⟩ := hconfig
  have hrotates : rotates t bytes = rotates s bytes := by
    unfold rotates
    rw [hsegment, hconfig]
  have hposition : (expectedPosition t bytes).segmentId = (expectedPosition s bytes).segmentId := by
    simp only [expectedPosition, hrotates, hsegment]
  have hdelta : historyDelta t bytes = historyDelta s bytes := by
    simp only [historyDelta, hrotates, hsegment]
  constructor
  · rw [hsequence]
    exact h.sequence
  · rw [hposition]
    exact h.segmentId
  · rw [hconfig, hhistory, hdelta]
    exact h.history
  · rw [hconfig, hcount, hposition, hsegment]
    exact h.segments

/-- A record that was admitted with room has room where it lands. -/
theorem hasRoom_landing {s base : State} {payload : Payload} {env : Environment} {reserve : ℤ}
    (hroom : HasRoom s payload.bytes reserve)
    (hpermitted : s.onlineCompaction ≠ .none → ∀ receipt stats segment,
      env.append payload = .switched receipt stats → stats.recovered.highest.bind Summary.view? = some segment →
      HasRoom (moved s stats segment) payload.bytes reserve)
    (hlanding : Landing vm s payload env base) : HasRoom base payload.bytes reserve := by
  cases hlanding with
  | stay => exact hroom
  | switch honline happend hadopt =>
    have hspec := adopt_spec vm hadopt
    exact (hpermitted (by simp [honline]) _ _ _ happend hspec.segment).congr hspec.config hspec.nextSequence rfl
      hspec.historyBytes hspec.segmentCount

/-- A command keeps the count. -/
theorem perform_counted {s : State} {op : Op} {env : Environment} {out : State × List Record}
    (hs : Counted s) (h : perform vm s op env = .ok out) : Counted out.1 := by
  rcases perform_cases vm hs.volatileHot h with
    ⟨e, c, -, hknown, hc, rfl⟩ | ⟨e, c, -, hfresh, hcommit, rfl⟩ | ⟨e, j, rfl, hj, hmem, haux⟩ |
      ⟨e, rfl, -, haux⟩
  · exact hs.volatile hknown hc
  · obtain ⟨p, base, hp, hlanding, hc⟩ := commitV2_landing vm hcommit
    exact hs.persistent vm hfresh hp hlanding hc
  · simp only [commitVolatileAuxiliary, bind_eq_ok, pure_eq_ok] at haux
    obtain ⟨-, -, c, -, -, -, haux⟩ := haux
    cases haux
    exact hs.congr rfl rfl rfl rfl
  · obtain ⟨base, hlanding, hspec⟩ := commitPersistentAuxiliary_landing vm haux
    obtain ⟨c, -, hout⟩ := hspec.reduced
    rw [hout]
    exact (hs.landing vm hlanding).1.congr rfl rfl rfl rfl

/-- A permitted command keeps the room. -/
theorem perform_fits {s : State} {op : Op} {env : Environment} {out : State × List Record}
    (hs : Secured s) (hpermitted : Permitted s (.command op env))
    (h : perform vm s op env = .ok out) : Fits out.1 := by
  rcases perform_cases vm hs.volatileHot h with
    ⟨e, c, -, hknown, hc, rfl⟩ | ⟨e, c, he, hfresh, hcommit, rfl⟩ | ⟨e, j, rfl, hj, hmem, haux⟩ |
      ⟨e, rfl, -, haux⟩
  · exact hs.toFits.congr (by rw [hc.config]) (by rw [hc.config]) hc.persistent hc.sequence
      hc.segment hc.historyBytes hc.segmentCount
  · obtain ⟨p, base, hp, hlanding, hc⟩ := commitV2_landing vm hcommit
    have hafter : settlementsAfter s op = p.reserve := by
      rw [hp.reserve]
      cases op <;> cases he <;> rfl
    have hpayload : .mutation p.mutation ∈ appended s op := by
      have : appended s op = some (.mutation p.mutation) := by
        cases op <;> cases he <;> simp only [appended, hp.mutation] <;> rfl
      exact this
    have hroom : HasRoom base (Payload.mutation p.mutation).bytes
        c.state.persistentSettlementReserve := by
      rw [hc.persistent]
      refine hasRoom_landing vm (headroom_eq_ok.mp hp.headroom) ?_ hlanding
      intro honline receipt stats segment happend hsegment
      rw [← hafter]
      exact hpermitted honline _ hpayload receipt stats segment happend hsegment
    refine hroom.fits hc.config hc.sequence hc.historyBytes hc.segmentCount ?_
    rw [hc.segment]
    rfl
  · simp only [commitVolatileAuxiliary, bind_eq_ok, pure_eq_ok] at haux
    obtain ⟨-, -, c, -, -, -, haux⟩ := haux
    cases haux
    exact hs.toFits.congr rfl rfl rfl rfl rfl rfl rfl
  · obtain ⟨base, hlanding, hspec⟩ := commitPersistentAuxiliary_landing vm haux
    obtain ⟨-, hreserve, -⟩ := hs.toCounted.landing vm hlanding
    obtain ⟨c, -, hout⟩ := hspec.reduced
    have hroom : HasRoom base (Payload.auxiliary e).bytes s.persistentSettlementReserve :=
      hasRoom_landing vm (headroom_eq_ok.mp hspec.headroom)
        (fun honline ↦ hpermitted honline _ rfl) hlanding
    rw [hout]
    rw [← hreserve] at hroom
    exact HasRoom.fits hroom rfl rfl rfl rfl rfl

/-- The ways a message is handled: a command, the adoption of an epoch, the rotation into a fresh
segment, or nothing that concerns the reserve. -/
theorem handle_cases {s t : State} {a : Action} (h : handle vm s a = .ok t) :
    (∃ op env out, a = .command op env ∧ perform vm s op env = .ok out ∧ t = out.1) ∨
      (∃ token stats admits, a = .compactResult token (.ok stats admits) ∧ AdoptedSpec s stats t) ∨
      (∃ rotation token retention, a = .compactOnline rotation token retention ∧
        rotation.segment.id = s.segment.id + 1 ∧
        t = { s with
          segment := rotation.segment
          segmentCount := s.segmentCount + 1
          historyBytes := s.historyBytes + 44 + if s.segment.sealed then 0 else 64
          onlineCompaction := .running token retention }) ∨
      ∃ online, t = { s with onlineCompaction := online } := by
  cases a with
  | command op env =>
    simp only [handle] at h
    cases hperform : perform vm s op env with
    | error reason =>
      rw [hperform] at h
      cases h
    | ok out =>
      rw [hperform] at h
      cases h
      exact .inl ⟨op, env, out, rfl, hperform, rfl⟩
  | compactOnline rotation token retention =>
    simp only [handle] at h
    split at h
    case h_2 =>
      cases h
      exact .inr (.inr (.inr ⟨_, rfl⟩))
    case h_1 =>
      obtain ⟨next, hnext, h⟩ := bind_eq_ok.mp h
      cases h
      simp only [OnlineCheckpoint.adoptRotation, check_bind_eq_ok] at hnext
      obtain ⟨-, -, -, hnext⟩ := hnext
      split at hnext
      case isTrue =>
        cases hnext
        exact .inr (.inr (.inr ⟨_, rfl⟩))
      case isFalse =>
        obtain ⟨hsucc, hnext⟩ := check_bind_eq_ok.mp hnext
        cases hnext
        exact .inr (.inr (.inl ⟨rotation, token, retention, rfl, beq_iff_eq.mp hsucc, rfl⟩))
  | compactResult token result =>
    simp only [handle] at h
    split at h
    case h_1 =>
      split at h
      · exact .inr (.inl ⟨token, _, _, rfl, adopt_spec vm h⟩)
      · cases h
        exact .inr (.inr (.inr ⟨_, rfl⟩))
    case h_4 =>
      cases h
      exact .inr (.inr (.inr ⟨_, rfl⟩))
    all_goals
      cases h
      split
      · exact .inr (.inr (.inr ⟨_, rfl⟩))
      · exact .inr (.inr (.inr ⟨_, rfl⟩))

/-- **The step lemma for the count.** Every message keeps it. -/
theorem handle_counted {s t : State} {a : Action} (hs : Counted s) (h : handle vm s a = .ok t) :
    Counted t := by
  rcases handle_cases vm h with ⟨op, env, out, -, hperform, rfl⟩ | ⟨token, stats, admits, -, hspec⟩ |
    ⟨rotation, token, retention, -, -, rfl⟩ | ⟨online, rfl⟩
  · exact perform_counted vm hs hperform
  · exact hs.adopted hspec
  · exact hs.congr rfl rfl rfl rfl
  · exact hs.congr rfl rfl rfl rfl

/-- **The step lemma for the room.** Every permitted message keeps it. -/
theorem handle_fits {s t : State} {a : Action} (hs : Secured s) (hpermitted : Permitted s a)
    (h : handle vm s a = .ok t) : Fits t := by
  rcases handle_cases vm h with ⟨op, env, out, rfl, hperform, rfl⟩ |
    ⟨token, stats, admits, rfl, hspec⟩ | ⟨rotation, token, retention, rfl, hid, rfl⟩ | ⟨online, rfl⟩
  · exact perform_fits vm hs hpermitted hperform
  · obtain ⟨retention, hconfig⟩ := hspec.config
    exact (hpermitted _ hspec.segment).congr (by rw [hconfig]; rfl) (by rw [hconfig]; rfl)
      hspec.reserve hspec.nextSequence rfl hspec.historyBytes hspec.segmentCount
  · have hroom := hpermitted (by omega)
    refine ⟨hs.sequence, ?_, hroom.history, ?_⟩
    · have := hroom.segmentId
      simp only
      omega
    · intro limit hlimit
      have := hroom.segments limit hlimit
      simp only
      omega
  · exact hs.toFits.congr rfl rfl rfl rfl rfl rfl rfl

/-! ## Starting and restarting -/

theorem counted_start {config : Config} {r : Reader.Recovered} (segment : SegmentView)
    (hr : Sound r.candidate) : Counted (countInterrupted (init config r segment)) := by
  constructor
  · intro id job hjob
    simp only [countInterrupted, init, Std.ExtTreeMap.getElem?_filter'] at hjob
    exact hr.jobs id job (Option.filter_eq_some_iff.mp hjob).1
  · intro id job hjob
    simp only [countInterrupted, init, Std.ExtTreeMap.getElem?_filter'] at hjob
    exact (Option.filter_eq_some_iff.mp hjob).2
  · intro id hid
    cases hid
  · rw [show executing (countInterrupted (init config r segment)) =
      executing (init config r segment) from executing_congr rfl rfl]
    rfl

theorem starts_secured {s : State} (h : Starts vm s) : Secured s := by
  obtain ⟨d, config, r, segment, hr, rfl, hfits⟩ := h
  exact ⟨counted_start segment (Reader.recover_sound vm (sound_candidate _ _) hr), hfits⟩

/-- What recovery finds after the engine has stopped in state `s`: its persistent jobs and its
coordinates, under the same limits. -/
structure Restart (s : State) (config : Config) (r : Reader.Recovered) (segment : SegmentView) :
    Prop where
  jobs : ∀ id ∉ s.volatileIds,
    (r.candidate.jobs[id]?).map Job.durable = (lookup s id).map Job.durable
  volatileJobs : ∀ id ∈ s.volatileIds, r.candidate.jobs[id]? = none
  nextSequence : r.nextSequence = s.nextSequence
  totalSegmentBytes : r.totalSegmentBytes = s.historyBytes
  segmentCount : r.segmentCount = s.segmentCount
  highest : r.highest.map Summary.id = some s.segment.id
  segment : segment = s.segment
  maxHistoryBytes : config.maxHistoryBytes = s.config.maxHistoryBytes
  maxSegments : config.maxSegments = s.config.maxSegments

theorem running_durable (job : Option Job) : running (job.map Job.durable) = running job := by
  cases job <;> rfl

/-- A restart counts the executions the stopped engine had running. -/
theorem Restart.executing_eq {s : State} {config : Config} {r : Reader.Recovered}
    {segment : SegmentView} (h : Restart s config r segment) (hs : Counted s) :
    executing (init config r segment) = executing s := by
  have hfilter : ∀ job : Option Job,
      running (job.filter fun j ↦ !j.state.terminal) = running job := by
    intro job
    rcases job with _ | job
    · rfl
    · cases hstate : job.state <;> simp [Option.filter, running, hstate, JobState.terminal]
  ext id
  rw [mem_executing, mem_executing]
  simp only [init, Std.ExtTreeMap.getElem?_filter', hfilter]
  by_cases hin : id ∈ s.volatileIds
  · simp [hin, h.volatileJobs id hin, running]
  · rw [← running_durable, h.jobs id hin, running_durable, hs.running_lookup]
    simp [hin]

theorem Restart.starts {s : State} {d : Directory} {config : Config} {r : Reader.Recovered}
    {segment : SegmentView} (hs : Secured s)
    (hr : Reader.recover vm d (candidate config.candidateLimits config.valueLimits) = .ok r)
    (h : Restart s config r segment) : Starts vm (countInterrupted (init config r segment)) := by
  refine ⟨d, config, r, segment, hr, rfl, ?_⟩
  have hopened : init.opened r segment = 0 := by simp [init.opened, h.highest, h.segment]
  refine hs.toFits.congr h.maxHistoryBytes h.maxSegments ?_ h.nextSequence h.segment ?_ ?_
  · exact (congrArg (fun x : Finset JobId ↦ (x.card : ℤ)) (h.executing_eq hs.toCounted)).trans
      hs.reserve.symm
  · simp [countInterrupted, init, hopened, h.totalSegmentBytes]
  · simp [countInterrupted, init, hopened, h.segmentCount]

/-! ## Settling is never refused -/

/-- With the reserved room in place, ending a running persistent execution is not refused for
capacity. -/
theorem Secured.settle {s : State} {e : JobEvent} {p : Job} {env : Environment} (hs : Secured s)
    (hp : s.hot[e.jobId]? = some p) (hrunning : p.state = .executing)
    (hpersistent : e.jobId ∉ s.volatileIds) (he : settles e.body = true)
    (hfollows : env.Follows s) : NotCapacity (commit vm s (some p) e none env) := by
  have hid : p.id = e.jobId := hs.keyed _ _ hp
  have hany : (some p).any (·.state == .executing) = true := by simp [hrunning]
  have hcard : 1 ≤ s.persistentSettlementReserve := by
    have hmem : e.jobId ∈ executing s :=
      mem_executing.mpr ⟨by rw [hp]; exact hany, hpersistent⟩
    rw [hs.reserve]
    exact_mod_cast Finset.card_pos.mpr ⟨_, hmem⟩
  have hafter : reservationAfter s.persistentSettlementReserve (some p) e.body =
      s.persistentSettlementReserve - 1 := by
    obtain ⟨jobId, expected, timestamp, body⟩ := e
    rcases body with _ | _ | _ | _ | _ | _ <;> try cases he
    · exact if_pos hany
    · exact if_pos hany
  have hmode : durability s p.id = .persistent := by simp [durability, hid, hpersistent]
  simp only [commit, Option.getD_none, hmode]
  apply commitV2_notCapacity vm hfollows
  · omega
  · intro m hm
    rw [hafter]
    exact headroom_eq_ok.mpr (hs.toFits.settle (settlement_bytes hm he))

/-- What reconciliation keeps: the invariant, no volatile job, and no compaction. -/
structure Reconciling (s : State) : Prop extends Secured s where
  volatileIds : s.volatileIds = ∅
  online : s.onlineCompaction = .none

theorem reconcileStep_reconciling {s t : State} {writer : State → Environment} {i : Interruption}
    (hs : Reconciling s) (h : reconcileStep vm writer s i = .ok t) : Reconciling t := by
  unfold reconcileStep at h
  split at h
  case h_1 => cases h
  case h_2 job hjob =>
    obtain ⟨e, he, h⟩ := bind_eq_ok.mp h
    obtain ⟨c, hc, h⟩ := bind_eq_ok.mp h
    cases h
    obtain ⟨hrunning, hid, -⟩ := Outcome.event_eq_ok (mapError_eq_ok.mp he)
    have hjobId : e.jobId = i.jobId := hid.trans (hs.keyed _ _ hjob)
    have hlookup : lookup s e.jobId = some job := by rw [hjobId, lookup, hjob]; rfl
    have hperform : perform vm s (.change e) (writer s) = .ok (c.state, c.records) := by
      simp only [perform, hlookup, hc]
      rfl
    have hpermitted : Permitted s (.command (.change e) (writer s)) :=
      fun honline ↦ absurd hs.online honline
    have hmode : durability s job.id = .persistent := by simp [durability, hs.volatileIds]
    simp only [commit, Option.getD_none, hmode] at hc
    obtain ⟨p, -, hspec⟩ := commitV2_spec vm hs.online hc
    exact ⟨⟨perform_counted vm hs.toCounted hperform,
      perform_fits vm hs.toSecured hpermitted hperform⟩, hspec.volatileIds.trans hs.volatileIds, hspec.online.trans hs.online⟩

theorem reconcileStep_notCapacity {s : State} {writer : State → Environment} (hs : Reconciling s)
    (hwriter : (writer s).Follows s) (i : Interruption) :
    NotCapacity (reconcileStep vm writer s i) := by
  unfold reconcileStep
  split
  case h_1 => exact failsWith_error rfl
  case h_2 job hjob =>
    refine .bind ?_ fun e he ↦ .bind ?_ fun _ _ ↦ notCapacity_ok _
    · cases Outcome.event job .interrupted i.timestamp i.draws with
      | ok e => exact notCapacity_ok _
      | error r => exact failsWith_error rfl
    · obtain ⟨hrunning, hid, -, c, due, -, hbody⟩ := Outcome.event_eq_ok (mapError_eq_ok.mp he)
      have hjobId : e.jobId = i.jobId := hid.trans (hs.keyed _ _ hjob)
      refine hs.toSecured.settle vm (hjobId ▸ hjob) hrunning ?_ (by rw [hbody]; rfl) hwriter
      simp [hs.volatileIds]

theorem reconcileBatch_notCapacity {writer : State → Environment}
    (hwriter : ∀ t, (writer t).Follows t) (interruptions : List Interruption) :
    ∀ {s : State}, Reconciling s → NotCapacity (reconcileBatch vm writer s interruptions) := by
  induction interruptions with
  | nil => exact fun _ ↦ notCapacity_ok _
  | cons i rest ih =>
    intro s hs
    exact .bind (reconcileStep_notCapacity vm hs (hwriter s) i) fun t ht ↦
      ih (reconcileStep_reconciling vm hs ht)

/-- Whatever the steps leave of the room, the reserve counts the running executions. -/
theorem reachable_counted {s : State} (h : (machine vm).Reachable s) : Counted s := by
  apply Machine.Reachable.invariant _ _ h
  · intro s hs
    exact (starts_secured vm hs).toCounted
  · intro s a t hs hstep
    exact handle_counted vm hs (toOption_eq_some.mp hstep)

/-- **Settlement headroom.** In every state reached by steps that leave the reserved room, the
reserve is the number of running persistent executions and their room is there. So the finish or the
cancellation of such an execution is never refused for capacity, and neither is the reconciliation
of the interrupted executions when a restart finds the store of that state. -/
theorem settlement_headroom {s : State} (h : (machine vm).ReachableUnder Permitted s) :
    (s.persistentSettlementReserve = (executing s).card ∧ Fits s) ∧
      (∀ e env, e.jobId ∈ executing s → settles e.body = true → env.Follows s →
        NotCapacity (perform vm s (.change e) env)) ∧
      ∀ d config r segment writer interruptions,
        Reader.recover vm d (candidate config.candidateLimits config.valueLimits) = .ok r →
        Restart s config r segment → (∀ t, (writer t).Follows t) →
        NotCapacity (reconcileBatch vm writer (countInterrupted (init config r segment))
          interruptions) := by
  have hs : Secured s := h.invariant (fun s hs ↦ starts_secured vm hs) fun s a t hs hok hstep ↦
    have hhandle := toOption_eq_some.mp hstep
    ⟨handle_counted vm hs.toCounted hhandle, handle_fits vm hs hok hhandle⟩
  refine ⟨⟨hs.reserve, hs.toFits⟩, ?_, ?_⟩
  · intro e env hmem he hfollows
    obtain ⟨hrunning, hpersistent⟩ := mem_executing.mp hmem
    rcases hp : s.hot[e.jobId]? with _ | p
    · rw [hp] at hrunning
      cases hrunning
    · rw [hp] at hrunning
      have hlookup : lookup s e.jobId = some p := by rw [lookup, hp]; rfl
      simp only [perform, hlookup]
      refine .map (hs.settle vm hp ?_ hpersistent he hfollows) _
      simpa [running] using hrunning
  · intro d config r segment writer interruptions hr hrestart hwriter
    have hstart := starts_secured vm (hrestart.starts vm hs hr)
    exact reconcileBatch_notCapacity vm hwriter interruptions ⟨hstart, rfl, rfl⟩

/-! ## A compacted epoch can be larger than its log

A snapshot takes more room than the insertion of the job it restates, so adopting a compacted epoch
can take the engine over its limits. -/

namespace Sample

open Tay.Sample

/-- Exactly the room that eight insertions, one start and its settlement need. -/
def tight : Config := { config with maxHistoryBytes := some 4640 }

/-- An open segment. -/
def openSegment (id bytes count : ℕ) : SegmentView :=
  ⟨id, false, bytes, count, fun h ↦ absurd h (by decide)⟩

/-- Eight jobs, inserted and ready. -/
def insertions : List Payload :=
  (List.range' 1 8).map fun id ↦ .mutation ⟨id, 0, 1, 10, .inserted definition 10 (some id)⟩

def store : Directory := ⟨manifest 0, [⟨1, 1, Publisher.Sample.framed 1 insertions, false⟩]⟩

def stored : Reader.Recovered := (Reader.recover runtime store fresh).toOption.getD recovered

def start : State := countInterrupted (init tight stored (openSegment 1 3388 8))

def startFirst : Op := .change ⟨1, 1, 13, .started 1 1⟩

def finishFirst : JobEvent := ⟨1, 2, 14, .finished none 0 (some 2) none none 0⟩

/-- The log once the first job has been started and the writer has rotated. -/
def source : Directory :=
  ⟨manifest 0, [⟨1, 1, Publisher.Sample.framed 1 (insertions ++
    [.mutation ⟨1, 1, 2, 13, .started 1 1⟩]), true⟩, ⟨2, 10, [], false⟩]⟩

/-- The epoch the publisher makes of that log. -/
def epoch : Publisher.Published :=
  (Publisher.publishOnline runtime Publisher.Sample.request source 9 2 []).toOption.getD
    ⟨source, recovered⟩

/-- The start, the rotation that begins an online compaction, and its result. -/
def actions : List Action :=
  [.command startFirst (writer start),
    .compactOnline ⟨openSegment 1 3508 9, openSegment 2 44 0, 10⟩ 1 (.minutes 0),
    .compactResult 1 (.ok ⟨epoch.recovered, 100, .minutes 0⟩ fun _ ↦ true)]

def adoptedEpoch : State := ((machine runtime).run start actions).getD start


/-- The state after a message that is accepted. -/
def after (s : State) (a : Action) : State := ((machine runtime).step s a).getD s

/-- A fresh store under ample limits. -/
def empty : State := countInterrupted (init config recovered segment)

def inserted : State :=
  after empty (.command (.insert ⟨1, 0, 10, .inserted definition 10⟩ .persistent) (writer empty))

def started : State := after inserted (.command startFirst (writer inserted))

/-- The job is running and an online compaction has begun. -/
def compacting : State :=
  after started (.compactOnline ⟨started.segment, openSegment 2 44 0, 3⟩ 1 (.minutes 0))

end Sample

theorem reachableUnder_after {ok : State → Action → Prop} {s : State} {a : Action}
    (hs : (machine Tay.Sample.runtime).ReachableUnder ok s) (hok : ok s a)
    (h : ((machine Tay.Sample.runtime).step s a).isSome = true) :
    (machine Tay.Sample.runtime).ReachableUnder ok (Sample.after s a) := by
  obtain ⟨t, ht⟩ := Option.isSome_iff_exists.mp h
  rw [Sample.after, ht]
  exact hs.step hok ht

/-- A writer that always answers with the expected position follows the engine. -/
theorem writer_follows (s : State) : (Sample.writer s).Follows s := by
  constructor
  · intro payload h
    simp [Sample.writer] at h
  · intro payload h
    simp [Sample.writer] at h
  · intro payload key h
    simp [Sample.writer] at h

/-- A job runs, an online compaction begins, and the finish is still not refused for capacity. -/
theorem settlement_headroom_sample :
    (machine Tay.Sample.runtime).ReachableUnder Permitted Sample.compacting ∧
      Sample.compacting.onlineCompaction = .running 1 (.minutes 0) ∧
      1 ∈ executing Sample.compacting ∧
      Sample.compacting.persistentSettlementReserve = 1 ∧ Fits Sample.compacting ∧
      NotCapacity (perform Tay.Sample.runtime Sample.compacting (.change Sample.finishFirst)
        (Sample.writer Sample.compacting)) := by
  have heval : Sample.inserted.onlineCompaction = .none ∧
      ((machine Tay.Sample.runtime).step Sample.empty (.command
        (.insert ⟨1, 0, 10, .inserted Tay.Sample.definition 10⟩ .persistent)
        (Sample.writer Sample.empty))).isSome = true ∧
      ((machine Tay.Sample.runtime).step Sample.inserted
        (.command Sample.startFirst (Sample.writer Sample.inserted))).isSome = true ∧
      ((machine Tay.Sample.runtime).step Sample.started (.compactOnline ⟨Sample.started.segment,
        Sample.openSegment 2 44 0, 3⟩ 1 (.minutes 0))).isSome = true ∧
      Sample.started.segment.id = 1 ∧ Sample.started.persistentSettlementReserve = 1 ∧
      Sample.started.config = Sample.config ∧ Sample.started.segmentCount = 1 ∧
      Sample.started.historyBytes = 582 ∧ Sample.started.segment.sealed = false ∧
      Sample.compacting.onlineCompaction = .running 1 (.minutes 0) ∧
      1 ∈ executing Sample.compacting ∧ Sample.compacting.persistentSettlementReserve = 1 := by
    decide +kernel
  obtain ⟨hnone, hinsert, hstart, hcompact, hid, hreserve, hconfig, hcount, hhistory, hsealed,
    honline, hmem, hone⟩ := heval
  have hempty : (machine Tay.Sample.runtime).ReachableUnder Permitted Sample.empty := by
    refine .initial ⟨⟨Tay.Sample.manifest 0, [⟨1, 1, [], false⟩]⟩, Sample.config, Sample.recovered,
      Sample.segment, by decide +kernel, rfl, ⟨by decide +kernel, by decide +kernel, ?_, ?_⟩⟩
    · rintro limit ⟨⟩
      decide +kernel
    · rintro limit ⟨⟩
      decide +kernel
  have hinserted : (machine Tay.Sample.runtime).ReachableUnder Permitted Sample.inserted :=
    reachableUnder_after hempty (fun h ↦ absurd rfl h) hinsert
  have hstarted : (machine Tay.Sample.runtime).ReachableUnder Permitted Sample.started :=
    reachableUnder_after hinserted (fun h ↦ absurd hnone h) hstart
  have hcompacting : (machine Tay.Sample.runtime).ReachableUnder Permitted Sample.compacting := by
    refine reachableUnder_after hstarted (fun _ ↦ ⟨?_, ?_, ?_⟩) hcompact
    · rw [hid, hreserve]
      decide
    · rw [hconfig, hhistory, hsealed, hreserve]
      rintro limit ⟨⟩
      decide
    · rw [hconfig, hcount, hreserve]
      rintro limit ⟨⟩
      decide
  obtain ⟨⟨-, hfits⟩, hsettle, -⟩ := settlement_headroom Tay.Sample.runtime hcompacting
  exact ⟨hcompacting, honline, hmem, hone, hfits,
    hsettle Sample.finishFirst _ hmem rfl (writer_follows _)⟩

/-- Once a compacted epoch has been adopted that is larger than the log it replaces, the reserved
room is gone, and the finish of a running execution is refused for history bytes. -/
theorem settlement_headroom_fails :
    Publisher.publishOnline Tay.Sample.runtime Publisher.Sample.request Sample.source 9 2 [] =
        .ok Sample.epoch ∧
      (machine Tay.Sample.runtime).Reachable Sample.adoptedEpoch ∧
      Sample.finishFirst.jobId ∈ executing Sample.adoptedEpoch ∧ ¬Fits Sample.adoptedEpoch ∧
      perform Tay.Sample.runtime Sample.adoptedEpoch (.change Sample.finishFirst)
        (Sample.writer Sample.adoptedEpoch) = .error (.resourceLimit .maxHistoryBytes) := by
  have heval : (Reader.recover Tay.Sample.runtime Sample.store Tay.Sample.fresh).isOk = true ∧
      (Publisher.publishOnline Tay.Sample.runtime Publisher.Sample.request Sample.source 9 2
        []).isOk = true ∧
      ((machine Tay.Sample.runtime).run Sample.start Sample.actions).isSome = true ∧
      Sample.finishFirst.jobId ∈ executing Sample.adoptedEpoch ∧
      perform Tay.Sample.runtime Sample.adoptedEpoch (.change Sample.finishFirst)
        (Sample.writer Sample.adoptedEpoch) = .error (.resourceLimit .maxHistoryBytes) ∧
      Sample.start.nextSequence = 9 ∧ Sample.start.historyBytes = 3388 ∧
      Sample.start.segmentCount = 1 ∧ Sample.start.persistentSettlementReserve = 0 ∧
      Sample.adoptedEpoch.config.maxHistoryBytes = some 4640 ∧
      (4640 : ℤ) < Sample.adoptedEpoch.historyBytes +
        1132 * Sample.adoptedEpoch.persistentSettlementReserve := by
    decide +kernel
  obtain ⟨hstore, hpublish, hrun, hmem, hrefused, hsequence, hhistory, hcount, hreserve, hlimit,
    hover⟩ := heval
  refine ⟨eq_ok_of_isOk hpublish, ?_, hmem, ?_, hrefused⟩
  · have hstart : Starts Tay.Sample.runtime Sample.start := by
      refine ⟨Sample.store, Sample.tight, Sample.stored, _, eq_ok_of_isOk hstore, rfl, ?_⟩
      constructor
      · rw [hsequence, hreserve]
        decide
      · rw [hreserve]
        decide
      · rintro limit ⟨⟩
        rw [hhistory, hreserve]
        decide
      · rintro limit ⟨⟩
        rw [hcount, hreserve]
        decide
    obtain ⟨t, ht⟩ := Option.isSome_iff_exists.mp hrun
    rw [Sample.adoptedEpoch, ht]
    exact Machine.reachable_of_run hstart ht
  · intro hfits
    have := hfits.history 4640 hlimit
    omega

end Engine

end Tay
