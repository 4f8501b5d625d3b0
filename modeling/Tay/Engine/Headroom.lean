import Mathlib.Data.Finset.Card
import Tay.Engine.Refusal
import Tay.Engine.Replay
import Tay.Storage.Compaction

/-!
# Settlement headroom

Every commit checks, before it appends, that the store would still have room to settle each running
execution: 1132 bytes of history, one segment and one sequence number apiece. The engine counts the
running persistent executions in `persistentSettlementReserve`.

This module has the two halves of that bookkeeping. `Fits` is the room itself: what a checked record
leaves of it, and that it is enough to settle one execution. `Counted` says that the reserve is the
number of running executions; every commit keeps it, and so does the adoption of a compacted epoch.
-/

open Foundation

namespace Tay

open V2

/-! ## Room -/

namespace Engine

open Transition ProjectionState

/-- The four inequalities `headroom` checks. -/
structure HasRoom (s : State) (bytes : ℕ) (reserve : ℤ) : Prop where
  sequence : s.nextSequence + reserve ≤ maxId
  segmentId : (expectedPosition s bytes).segmentId + reserve ≤ maxId
  history : ∀ limit ∈ s.config.maxHistoryBytes,
    s.historyBytes + historyDelta s bytes + outcomeReserve reserve ≤ limit
  segments : ∀ limit ∈ s.config.maxSegments,
    s.segmentCount + (expectedPosition s bytes).segmentId - s.segment.id + reserve ≤ limit

theorem overLimit_eq_false {value : ℤ} {limit : Option ℕ} :
    (!overLimit value limit) = true ↔ ∀ n ∈ limit, value ≤ n := by
  cases limit with
  | none => simp [overLimit]
  | some n => simp [overLimit]

theorem headroom_eq_ok {s : State} {bytes : ℕ} {reserve : ℤ} {u : Unit} :
    headroom s bytes reserve = .ok u ↔ HasRoom s bytes reserve := by
  simp only [headroom, check_bind_eq_ok, check_eq_ok, overLimit_eq_false, decide_eq_true_eq]
  constructor
  · rintro ⟨hsequence, hsegment, hhistory, hsegments⟩
    exact ⟨hsequence, hsegment, hhistory, hsegments⟩
  · intro h
    exact ⟨h.sequence, h.segmentId, h.history, h.segments⟩

/-- The reserved room is there: each of the `persistentSettlementReserve` settlements has its bytes,
its segment and its coordinates. -/
structure Fits (s : State) : Prop where
  sequence : s.nextSequence + s.persistentSettlementReserve ≤ maxId + 1
  segmentId : s.segment.id + s.persistentSettlementReserve ≤ maxId
  history : ∀ limit ∈ s.config.maxHistoryBytes,
    s.historyBytes + 1132 * s.persistentSettlementReserve ≤ limit
  segments : ∀ limit ∈ s.config.maxSegments,
    s.segmentCount + s.persistentSettlementReserve ≤ limit

theorem expectedPosition_segmentId (s : State) (bytes : ℕ) :
    (expectedPosition s bytes).segmentId = s.segment.id ∨
      (expectedPosition s bytes).segmentId = s.segment.id + 1 := by
  simp only [expectedPosition]
  split
  · exact .inr rfl
  · exact .inl rfl

/-- A record placed with room leaves the reserved room. -/
theorem HasRoom.fits {s t : State} {bytes : ℕ}
    (h : HasRoom s bytes t.persistentSettlementReserve) (hconfig : t.config = s.config)
    (hsequence : t.nextSequence = s.nextSequence + 1)
    (hhistory : t.historyBytes = s.historyBytes + historyDelta s bytes)
    (hcount : t.segmentCount = s.segmentCount + (expectedPosition s bytes).segmentId - s.segment.id)
    (hsegment : t.segment.id = (expectedPosition s bytes).segmentId) : Fits t := by
  have hid := expectedPosition_segmentId s bytes
  constructor
  · have := h.sequence
    omega
  · have := h.segmentId
    omega
  · intro limit hlimit
    have := h.history limit (hconfig ▸ hlimit)
    unfold outcomeReserve at this
    omega
  · intro limit hlimit
    have := h.segments limit (hconfig ▸ hlimit)
    omega

/-! ## The size of a settlement -/

/-- A finish or a cancellation. -/
def settles : JobBody → Bool
  | .finished .. | .cancelled .. => true
  | _ => false

theorem wire_nat_length (n : ℕ) : (Value.nat n).wire.length = 9 := by
  simp [Value.nat, Value.wire]

theorem wire_opt_length (o : Option ℕ) : (Value.opt Value.nat o).wire.length ≤ 9 := by
  cases o with
  | none => simp [Value.opt, Value.wire]
  | some n => rw [Value.opt, wire_nat_length]

theorem wire_diagnostic_length (o : Option Diagnostic) :
    (Value.opt Diagnostic.toValue o).wire.length ≤ 44 := by
  cases o with
  | none => simp [Value.opt, Value.wire]
  | some d =>
    simp only [Value.opt, Diagnostic.toValue, Value.record, List.map_cons, List.map_nil, Value.wire,
      Value.wire.wireMap, List.length_cons, List.length_append, Value.bigEndian_length,
      wire_nat_length, List.length_nil, show (text "code").length = 4 from by decide,
      show (text "version").length = 7 from by decide]
    omega

/-- Every integer is nine bytes on the wire, so a settlement never outgrows its reserve. -/
theorem settlement_bytes {e : JobEvent} {previous : Option Job} {order : ℕ} {m : Mutation}
    (hm : Mutation.fromEvent e previous order = .ok m) (he : settles e.body = true) :
    (Payload.mutation m).bytes ≤ 231 := by
  obtain ⟨jobId, expected, timestamp, body⟩ := e
  simp only [Mutation.fromEvent, bind_eq_ok, pure_eq_ok] at hm
  obtain ⟨b, hb, hm⟩ := hm
  cases hm
  rcases body with _ | _ | _ | ⟨diagnostic, disposition, token, nextAttempt, nextDueAt, outcome⟩ |
    token | _ <;> try cases he
  · cases hb
    have := wire_diagnostic_length diagnostic
    have := wire_opt_length (previous.bind (·.execution))
    have := wire_opt_length nextAttempt
    have := wire_opt_length nextDueAt
    simp only [Payload.bytes, Codec.mutationPayload, MutationBody.toValue, Value.record,
      List.map_cons, List.map_nil, Value.wire, Value.wire.wireMap, List.length_cons,
      List.length_append, Value.bigEndian_length, wire_nat_length, List.length_nil,
      show (text "diagnostic").length = 10 from by decide,
      show (text "disposition").length = 11 from by decide,
      show (text "execution_token").length = 15 from by decide,
      show (text "next_attempt").length = 12 from by decide,
      show (text "next_due_at").length = 11 from by decide,
      show (text "outcome").length = 7 from by decide]
    omega
  · cases hb
    have := wire_opt_length (previous.bind (·.execution))
    simp only [Payload.bytes, Codec.mutationPayload, MutationBody.toValue, Value.record,
      List.map_cons, List.map_nil, Value.wire, Value.wire.wireMap, List.length_cons,
      List.length_append, Value.bigEndian_length, List.length_nil,
      show (text "execution_token").length = 15 from by decide]
    omega

/-- Reserved room is room to settle one execution and keep the rest. -/
theorem Fits.settle {s : State} {bytes : ℕ} (h : Fits s) (hbytes : bytes ≤ 231) :
    HasRoom s bytes (s.persistentSettlementReserve - 1) := by
  have hid := expectedPosition_segmentId s bytes
  have hdelta : historyDelta s bytes ≤ bytes + 28 + 108 := by
    unfold historyDelta
    split
    · split <;> omega
    · omega
  constructor
  · have := h.sequence
    omega
  · have := h.segmentId
    omega
  · intro limit hlimit
    have := h.history limit hlimit
    unfold outcomeReserve
    omega
  · intro limit hlimit
    have := h.segments limit hlimit
    omega

/-! ## Running executions -/

/-- Whether a version of a job holds a reserved settlement. -/
def running (job : Option Job) : Bool := job.any (·.state == .executing)

/-- Which versions are running before and after a transition, by its kind. -/
theorem transitionJob_running {previous : Option Job} {m : Mutation} {order : ℕ}
    {limits : Value.Limits} {job : Job}
    (h : Reducer.transitionJob previous m order limits = .ok job) :
    match m.body with
    | .started .. => running previous = false ∧ running (some job) = true
    | .finished .. => running previous = true ∧ running (some job) = false
    | .cancelled .. => running (some job) = false
    | _ => running previous = false ∧ running (some job) = false := by
  obtain ⟨jobId, expected, revision, timestamp, body⟩ := m
  simp only [Reducer.transitionJob, prepare, apply, bind_eq_ok, check_eq_ok, pure_eq_ok] at h
  obtain ⟨-, -, -, -, -, -, q, ⟨-, -, u, hvalid, bytes, -, hq⟩, applied, ⟨u', -, happlied⟩, -, -, h⟩ := h
  cases hq
  have hstate : running (some job) = (applied.state == .executing) := by
    rw [← Except.ok.inj h]
    rfl
  rcases previous with _ | p
  · rcases body with ⟨definition, eligibleAt, o⟩ | _ | _ | _ | _ | _ <;>
      simp only [Codec.event, Option.map_none, validPrevious?, Bool.false_eq_true] at hvalid
    simp only [Codec.event, Option.map_none] at happlied
    refine ⟨rfl, ?_⟩
    rw [hstate, ← Except.ok.inj happlied]
    simp only [inserted]
    split <;> rfl
  · have hnext := congrArg Job.state (Except.ok.inj happlied)
    have hrunning : running (some p) = (p.state == .executing) := rfl
    rcases body with _ | _ | _ | ⟨outcome, disposition, _, _, _, _⟩ | _ | ⟨mode, _, _⟩ <;>
      simp only [Codec.event, Option.map_some, validPrevious?, validTransition?, Reducer.toV1,
        Bool.and_eq_true, Bool.or_eq_true, beq_iff_eq, Bool.false_eq_true] at hvalid <;>
      simp only [Codec.event, next] at hnext
    · rw [hrunning, hstate, ← hnext]
      rcases hvalid.2.1 with hp | hp <;> rw [hp] <;> exact ⟨rfl, rfl⟩
    · rw [hrunning, hstate, ← hnext, hvalid.2.1.1.1.1]
      exact ⟨rfl, rfl⟩
    · rw [hrunning, hstate, ← hnext, hvalid.2.1.1]
      refine ⟨rfl, ?_⟩
      split
      · rfl
      · split <;> rfl
    · rw [hstate, ← hnext]
      rfl
    · rw [hrunning, hstate, ← hnext]
      rcases hvalid.2 with hp | hp <;> rw [hp.1] <;> exact ⟨rfl, rfl⟩

/-- One more settlement for a start, one fewer for the end of an execution: the reserve moves as
the number of running executions does. -/
theorem reservationAfter_eq {e : JobEvent} {previous : Option Job} {order : ℕ} {m : Mutation}
    {limits : Value.Limits} {job : Job} (hm : Mutation.fromEvent e previous order = .ok m)
    (h : Reducer.transitionJob previous m order limits = .ok job) (reserve : ℤ) :
    reservationAfter reserve previous e.body =
      reserve + (running (some job)).toInt - (running previous).toInt := by
  have hrunning := transitionJob_running h
  obtain ⟨jobId, expected, timestamp, body⟩ := e
  simp only [Mutation.fromEvent, bind_eq_ok, pure_eq_ok] at hm
  obtain ⟨b, hb, hm⟩ := hm
  cases hm
  rcases body with _ | _ | _ | _ | token | _ <;> simp only [Mutation.translate] at hb
  case started =>
    rcases previous with _ | p
    · cases hb
    · cases hb
      simp [reservationAfter, hrunning.1, hrunning.2]
  case finished =>
    cases hb
    have hp : previous.any (·.state == .executing) = true := hrunning.1
    simp [reservationAfter, hp, hrunning.1, hrunning.2]
  case cancelled =>
    cases hb
    have hafter : reservationAfter reserve previous (.cancelled token) =
        if running previous then reserve - 1 else reserve := rfl
    rw [hafter, show running (some job) = false from hrunning]
    cases running previous <;> simp
  all_goals
    cases hb
    simp [reservationAfter, hrunning.1, hrunning.2]

/-- The persistent jobs in state executing. -/
def executing (s : State) : Finset JobId :=
  ((s.hot.toList.filter fun entry ↦
    running (some entry.2) && entry.1 ∉ s.volatileIds).map (·.1)).toFinset

theorem mem_executing {s : State} {id : JobId} :
    id ∈ executing s ↔ running s.hot[id]? = true ∧ id ∉ s.volatileIds := by
  simp only [executing, List.mem_toFinset, List.mem_map, List.mem_filter, Prod.exists,
    Bool.and_eq_true, decide_eq_true_eq, Std.ExtTreeMap.mem_toList_iff_getElem?_eq_some]
  constructor
  · rintro ⟨k, job, ⟨hjob, hrunning, hout⟩, rfl⟩
    exact ⟨hjob ▸ hrunning, hout⟩
  · rintro ⟨hrunning, hout⟩
    rcases hjob : s.hot[id]? with _ | job
    · rw [hjob] at hrunning
      cases hrunning
    · exact ⟨id, job, ⟨hjob, hjob ▸ hrunning, hout⟩, rfl⟩

theorem executing_congr {s t : State} (hhot : t.hot = s.hot)
    (hvolatile : t.volatileIds = s.volatileIds) : executing t = executing s := by
  ext id
  rw [mem_executing, mem_executing, hhot, hvolatile]

/-- Changing one job of the set changes its size by whether the job was, and is, a member. -/
theorem card_of_agree {a b : Finset JobId} {id : JobId} (h : ∀ k ≠ id, k ∈ b ↔ k ∈ a) :
    (b.card : ℤ) = a.card + (decide (id ∈ b)).toInt - (decide (id ∈ a)).toInt := by
  have herase : b.erase id = a.erase id := by
    ext k
    simp only [Finset.mem_erase]
    constructor
    · rintro ⟨hne, hk⟩
      exact ⟨hne, (h k hne).mp hk⟩
    · rintro ⟨hne, hk⟩
      exact ⟨hne, (h k hne).mpr hk⟩
  have hcard : ∀ x : Finset JobId, (x.card : ℤ) = (x.erase id).card + (decide (id ∈ x)).toInt := by
    intro x
    by_cases hx : id ∈ x
    · rw [← Finset.card_erase_add_one hx]
      simp [hx]
    · rw [Finset.erase_eq_of_notMem hx]
      simp [hx]
  rw [hcard b, hcard a, herase]
  omega

/-! ## Adopting a compacted epoch -/

/-- What dropping expired volatile jobs leaves alone. -/
structure Purged (s t : State) : Prop where
  subset : t.volatileIds ⊆ s.volatileIds
  outside : ∀ id ∉ s.volatileIds, t.hot[id]? = s.hot[id]?
  kept : ∀ id ∈ t.volatileIds, t.hot[id]? = s.hot[id]?
  dropped : ∀ id ∈ s.volatileIds, id ∉ t.volatileIds → t.hot[id]? = none
  terminalStore : t.terminalStore = s.terminalStore
  config : t.config = s.config
  reserve : t.persistentSettlementReserve = s.persistentSettlementReserve

theorem purge_purged {s t : State} {retention : Retention} {capturedAt : ℕ}
    (h : OnlineCheckpoint.purgeExpiredVolatileTerminals s retention capturedAt = .ok t) :
    Purged s t := by
  refine fold_invariant (P := Purged s) ?_ ⟨subset_rfl, fun _ _ ↦ rfl, fun _ _ ↦ rfl,
    fun _ hin hout ↦ absurd hin hout, rfl, rfl, rfl⟩ h
  rintro a ⟨key, job⟩ b ha hstep
  simp only [OnlineCheckpoint.purgeStep] at hstep
  split at hstep
  case isFalse =>
    cases hstep
    exact ha
  case isTrue hjob =>
    obtain ⟨expired, -, hrest⟩ := bind_eq_ok.mp hstep
    split at hrest
    case isFalse =>
      cases hrest
      exact ha
    case isTrue =>
      cases hrest
      simp only [Bool.and_eq_true, decide_eq_true_eq] at hjob
      have hmem : job.id ∈ s.volatileIds := ha.subset hjob.1
      constructor
      · exact (Finset.erase_subset _ _).trans ha.subset
      · intro id hid
        have hne : ¬job.id = id := fun h ↦ hid (h ▸ hmem)
        simp only [Std.ExtTreeMap.getElem?_erase, Std.LawfulEqCmp.compare_eq_iff_eq, hne, if_false]
        exact ha.outside id hid
      · intro id hid
        rw [Finset.mem_erase] at hid
        have hne : ¬job.id = id := fun h ↦ hid.1 h.symm
        simp only [Std.ExtTreeMap.getElem?_erase, Std.LawfulEqCmp.compare_eq_iff_eq, hne, if_false]
        exact ha.kept id hid.2
      · intro id hin hout
        by_cases heq : job.id = id
        · simp [heq]
        · simp only [Std.ExtTreeMap.getElem?_erase, Std.LawfulEqCmp.compare_eq_iff_eq, heq,
            if_false]
          rw [Finset.mem_erase, not_and_or, not_not] at hout
          exact ha.dropped id hin (hout.resolve_left fun h ↦ heq h.symm)
      · exact ha.terminalStore
      · exact ha.config
      · exact ha.reserve

theorem Purged.executing {s t : State} (h : Purged s t) : executing t = executing s := by
  ext id
  rw [mem_executing, mem_executing]
  by_cases hin : id ∈ s.volatileIds
  · by_cases hkept : id ∈ t.volatileIds
    · simp [hin, hkept]
    · rw [h.dropped id hin hkept]
      simp [hin, running]
  · have hout : id ∉ t.volatileIds := fun hid ↦ hin (h.subset hid)
    simp [hin, hout, h.outside id hin]

/-- The coordinates of an epoch, with everything else as in `s`. -/
def moved (s : State) (stats : OnlineCheckpoint.Stats) (segment : SegmentView) : State :=
  { s with
    nextSequence := stats.recovered.nextSequence
    segment := segment
    historyBytes := stats.recovered.totalSegmentBytes
    segmentCount := stats.recovered.segmentCount }

/-- An adoption moves to the coordinates of the epoch; it drops terminal jobs and volatile ones, and
no other. -/
structure AdoptedSpec (s : State) (stats : OnlineCheckpoint.Stats) (t : State) : Prop where
  segment : stats.recovered.highest.bind Summary.view? = some t.segment
  nextSequence : t.nextSequence = stats.recovered.nextSequence
  historyBytes : t.historyBytes = stats.recovered.totalSegmentBytes
  segmentCount : t.segmentCount = stats.recovered.segmentCount
  config : ∃ retention, t.config = { s.config with terminalRetention := retention }
  reserve : t.persistentSettlementReserve = s.persistentSettlementReserve
  subset : t.volatileIds ⊆ s.volatileIds
  outside : ∀ id ∉ s.volatileIds, t.hot[id]? = s.hot[id]?
  kept : ∀ id ∈ t.volatileIds, t.hot[id]? = s.hot[id]?
  dropped : ∀ id ∈ s.volatileIds, id ∉ t.volatileIds → t.hot[id]? = none
  terminalStore : ∀ (id : JobId) (job : Job), t.terminalStore[id]? = some job →
    s.terminalStore[id]? = some job
  executing : executing t = executing s

variable (vm : Runtime)

theorem adopt_spec {s t : State} {stats : OnlineCheckpoint.Stats} {retention : Retention}
    {admits : ℤ → Bool} (h : OnlineCheckpoint.adopt vm s stats retention admits = .ok t) :
    AdoptedSpec s stats t := by
  obtain ⟨purged, hpurged, hrest⟩ := bind_eq_ok.mp h
  have hp := purge_purged hpurged
  split at hrest
  case h_1 => cases hrest
  case h_2 segment hsegment =>
    obtain ⟨-, hnext⟩ := check_bind_eq_ok.mp hrest
    cases hnext
    constructor
    case segment => exact hsegment
    case config => exact ⟨_, by rw [← hp.config]; rfl⟩
    case reserve => exact hp.reserve
    case subset => exact hp.subset
    case outside => exact hp.outside
    case kept => exact hp.kept
    case dropped => exact hp.dropped
    case terminalStore =>
      intro id job hjob
      simp only [OnlineCheckpoint.adopted, Std.ExtTreeMap.getElem?_filter', hp.terminalStore]
        at hjob
      exact (Option.filter_eq_some_iff.mp hjob).1
    case executing => exact hp.executing
    all_goals rfl

/-! ## Publishing a job -/

/-- What the hot projection holds after a publication. -/
theorem hot_publish {s : State} {previous : Option Job} {job : Job} {mode : Durability}
    (hkeyed : Keyed Job.id s.hot) (hprevious : hotPrevious s previous = s.hot[job.id]?)
    (id : JobId) :
    (publish s previous job mode).hot[id]? =
      if job.id = id then
        if mode == .persistent && terminal? (some job) then none else some job
      else s.hot[id]? := by
  have hid : ∀ p ∈ hotPrevious s previous, p.id = job.id := by
    intro p hp
    rw [hprevious] at hp
    exact hkeyed _ _ hp
  by_cases heq : job.id = id
  · rw [if_pos heq]
    subst heq
    unfold publish
    split
    · cases hp : hotPrevious s previous with
      | none => exact hprevious.symm.trans hp
      | some p => simp [hid p hp]
    · split <;> exact Std.ExtTreeMap.getElem?_insert_self
  · rw [if_neg heq]
    exact hot_publish_of_ne hid heq

theorem terminalStore_publish {s : State} {previous : Option Job} {job : Job} {mode : Durability}
    (h : ∀ (id : JobId) (j : Job), s.terminalStore[id]? = some j → j.state.terminal = true) :
    ∀ (id : JobId) (j : Job), (publish s previous job mode).terminalStore[id]? = some j →
      j.state.terminal = true := by
  intro id j hj
  unfold publish at hj
  split at hj
  case isTrue hterminal =>
    simp only [Std.ExtTreeMap.getElem?_insert, Std.LawfulEqCmp.compare_eq_iff_eq] at hj
    split at hj
    · cases hj
      simp only [Bool.and_eq_true] at hterminal
      exact hterminal.2
    · exact h id j hj
  case isFalse =>
    split at hj
    · exact h id j hj
    · simp only at hj
      split at hj
      · rw [Std.ExtTreeMap.getElem?_erase] at hj
        split at hj
        · cases hj
        · exact h id j hj
      · exact h id j hj

/-! ## The count -/

/-- The reserve counts the running persistent executions, and the projection is in order. -/
structure Counted (s : State) : Prop where
  keyed : Keyed Job.id s.hot
  terminal : ∀ (id : JobId) (job : Job), s.terminalStore[id]? = some job →
    job.state.terminal = true
  volatileHot : ∀ id ∈ s.volatileIds, (s.hot[id]?).isSome
  reserve : s.persistentSettlementReserve = (executing s).card

theorem Counted.nonneg {s : State} (h : Counted s) : 0 ≤ s.persistentSettlementReserve := by
  rw [h.reserve]
  exact Int.natCast_nonneg _

/-- A running job is hot: the terminal store holds none. -/
theorem Counted.running_lookup {s : State} (h : Counted s) (id : JobId) :
    running (lookup s id) = running s.hot[id]? := by
  rcases hhot : s.hot[id]? with _ | job
  · rcases hterminal : s.terminalStore[id]? with _ | job
    · simp [lookup, hhot, hterminal]
    · have := h.terminal id job hterminal
      simp only [lookup, hhot, hterminal, Option.none_or, running, Option.any_some, Option.any_none]
      cases hstate : job.state <;> simp_all [JobState.terminal]
  · simp [lookup, hhot]

theorem Counted.unknown {s : State} (h : Counted s) {id : JobId} (hid : lookup s id = none) :
    id ∉ s.volatileIds := by
  intro hmem
  have hhot := h.volatileHot id hmem
  rw [lookup, Option.or_eq_none_iff] at hid
  rw [hid.1] at hhot
  cases hhot

theorem Counted.adopted {s t : State} {stats : OnlineCheckpoint.Stats} (h : Counted s)
    (ht : AdoptedSpec s stats t) : Counted t := by
  constructor
  · intro id job hjob
    by_cases hin : id ∈ s.volatileIds
    · by_cases hkept : id ∈ t.volatileIds
      · exact h.keyed id job (ht.kept id hkept ▸ hjob)
      · rw [ht.dropped id hin hkept] at hjob
        cases hjob
    · exact h.keyed id job (ht.outside id hin ▸ hjob)
  · intro id job hjob
    exact h.terminal id job (ht.terminalStore id job hjob)
  · intro id hid
    rw [ht.kept id hid]
    exact h.volatileHot id (ht.subset hid)
  · rw [ht.reserve, ht.executing]
    exact h.reserve

/-- Only the hot projection, the terminal store, the volatile ids and the reserve matter. -/
theorem Counted.congr {s t : State} (h : Counted s) (hhot : t.hot = s.hot)
    (hterminal : t.terminalStore = s.terminalStore) (hvolatile : t.volatileIds = s.volatileIds)
    (hreserve : t.persistentSettlementReserve = s.persistentSettlementReserve) : Counted t := by
  refine ⟨hhot ▸ h.keyed, hterminal ▸ h.terminal, ?_, ?_⟩
  · rw [hvolatile, hhot]
    exact h.volatileHot
  · rw [hreserve, executing_congr hhot hvolatile]
    exact h.reserve

theorem Counted.landing {s t : State} {payload : Payload} {env : Environment} (h : Counted s)
    (ht : Landing vm s payload env t) :
    Counted t ∧ t.persistentSettlementReserve = s.persistentSettlementReserve ∧
      ∀ id ∉ s.volatileIds, id ∉ t.volatileIds ∧ t.hot[id]? = s.hot[id]? := by
  cases ht with
  | stay => exact ⟨h, rfl, fun _ hid ↦ ⟨hid, rfl⟩⟩
  | switch _ _ hadopt =>
    have hspec := adopt_spec vm hadopt
    refine ⟨(h.adopted hspec).congr rfl rfl rfl rfl, hspec.reserve, fun id hid ↦ ⟨?_, ?_⟩⟩
    · exact fun hmem ↦ hid (hspec.subset hmem)
    · exact hspec.outside id hid

/-- A persistent job commit keeps the count. -/
theorem Counted.persistent {s base : State} {e : JobEvent} {p : Prepared} {receipt : Receipt}
    {c : Committed} {env : Environment} (h : Counted s) (hfresh : e.jobId ∉ s.volatileIds)
    (hp : PreparedSpec s (lookup s e.jobId) e p)
    (hlanding : Landing vm s (.mutation p.mutation) env base)
    (hc : FinishedSpec base (lookup s e.jobId) e p receipt c) : Counted c.state := by
  obtain ⟨hbase, hreserve, hsame⟩ := h.landing vm hlanding
  obtain ⟨job, hjob, htransition, -⟩ := hp.transition
  have hmid : p.mutation.jobId = e.jobId := fromEvent_jobId hp.mutation
  have hid : c.job.id = e.jobId := by
    rw [← Job.durable_id, hc.job, hjob, Job.durable_id, Reducer.transitionJob_id htransition, hmid]
  have hprevious : ∀ q ∈ lookup s e.jobId, q.id = e.jobId := by
    intro q hq
    rw [Option.mem_def.mp hq] at htransition
    rw [Reducer.transitionJob_previous htransition, hmid]
  have hhot : hotPrevious base (lookup s e.jobId) = base.hot[c.job.id]? := by
    rw [hid, (hsame _ hfresh).2, ← hotPrevious_eq rfl hprevious]
    cases hlookup : lookup s e.jobId with
    | none => rfl
    | some q =>
      simp only [hotPrevious, Option.bind_some, hprevious q hlookup]
      exact (hsame _ hfresh).2
  have hget := @hot_publish base _ c.job .persistent hbase.keyed hhot
  rw [← hc.hot] at hget
  constructor
  · intro id j hj
    rw [hget] at hj
    split at hj
    case isTrue heq =>
      split at hj
      · cases hj
      · cases hj
        exact heq
    case isFalse => exact hbase.keyed id j hj
  · rw [hc.terminalStore]
    exact terminalStore_publish hbase.terminal
  · intro id hmem
    rw [hc.volatileIds] at hmem
    have hne : ¬c.job.id = id := by
      rintro rfl
      exact (hsame _ hfresh).1 (hid ▸ hmem)
    rw [hget, if_neg hne]
    exact hbase.volatileHot id hmem
  · -- The set of running executions can change at this job only.
    have hcard := @card_of_agree (executing base) (executing c.state) e.jobId (by
      intro k hk
      rw [mem_executing, mem_executing, hget, hid, if_neg fun h ↦ hk h.symm, hc.volatileIds])
    have hafter : decide (e.jobId ∈ executing c.state) = running (some job) := by
      have hstate : c.job.state = job.state := by
        rw [← Job.durable_state, hc.job, hjob, Job.durable_state]
      have hrunning : running c.state.hot[e.jobId]? = running (some job) := by
        rw [hget, if_pos hid]
        split
        case isTrue hterminal =>
          simp only [terminal?, hstate, Bool.and_eq_true] at hterminal
          simp only [running, Option.any_none, Option.any_some]
          cases hs : job.state <;> simp_all [JobState.terminal]
        case isFalse => simp only [running, Option.any_some, hstate]
      have hout : e.jobId ∉ c.state.volatileIds := by
        rw [hc.volatileIds]
        exact (hsame _ hfresh).1
      simp only [mem_executing, hrunning, hout, not_false_eq_true, and_true, Bool.decide_eq_true]
    have hbefore : decide (e.jobId ∈ executing base) = running (lookup s e.jobId) := by
      simp only [mem_executing, (hsame _ hfresh).1, (hsame _ hfresh).2, h.running_lookup,
        not_false_eq_true, and_true, Bool.decide_eq_true]
    rw [hc.persistent, hp.reserve, reservationAfter_eq hp.mutation htransition, hcard, hafter,
      hbefore, ← hbase.reserve, hreserve]

/-- A volatile job commit keeps the count. -/
theorem Counted.volatile {s : State} {e : JobEvent} {c : Committed} (h : Counted s)
    (hknown : e.jobId ∈ s.volatileIds ∨ lookup s e.jobId = none)
    (hc : VolatileSpec s (lookup s e.jobId) e c) : Counted c.state := by
  obtain ⟨m, job, hm, htransition, hjobId, -⟩ := hc.transition
  have hmid : m.jobId = e.jobId := fromEvent_jobId hm
  have hid : c.job.id = e.jobId := by rw [hjobId, Reducer.transitionJob_id htransition, hmid]
  have hprevious : ∀ q ∈ lookup s e.jobId, q.id = e.jobId := by
    intro q hq
    rw [Option.mem_def.mp hq] at htransition
    rw [Reducer.transitionJob_previous htransition, hmid]
  have hget := @hot_publish s _ c.job .volatile h.keyed
    (by rw [hid]; exact hotPrevious_eq rfl hprevious)
  rw [← hc.hot] at hget
  constructor
  · intro id j hj
    rw [hget] at hj
    split at hj
    case isTrue heq =>
      cases hj
      exact heq
    case isFalse => exact h.keyed id j hj
  · rw [hc.terminalStore]
    exact terminalStore_publish h.terminal
  · intro id hmem
    rw [hc.volatileIds, Finset.mem_insert] at hmem
    rw [hget]
    split
    · rfl
    case isFalse hne => exact h.volatileHot id (hmem.resolve_left fun heq ↦ hne heq.symm)
  · have hsame : executing c.state = executing s := by
      ext id
      rw [mem_executing, mem_executing, hget, hc.volatileIds, Finset.mem_insert, not_or]
      by_cases heq : c.job.id = id
      · -- The job was volatile already, or unknown; it is volatile now.
        subst heq
        simp only [not_true_eq_false, false_and, and_false, false_iff, not_and, not_not]
        intro hrunning
        rcases hknown with hknown | hknown
        · exact hid ▸ hknown
        · rw [← h.running_lookup, hid, hknown] at hrunning
          cases hrunning
      · rw [if_neg heq]
        simp only [ne_comm.mp heq, not_false_eq_true, true_and]
    rw [hc.persistent, hsame]
    exact h.reserve

end Engine

end Tay
