import Tay.Engine.Reserve

/-!
# Storing a result

An execution that ran outside the engine ends with two records: the finish of the job, and the
result its worker sent back. The start of the execution reserves room for one settlement, which the
finish uses up; the result has no reserve, and its size is the worker's choice.

So whether a success is stored is decided by the room left at its end. `RoomForResult` is that room,
in numbers, and `settleSuccess_iff` says that it is exactly what a success needs.
-/

open Foundation

namespace Tay

open V2

namespace Engine

open Transition ProjectionState

/-! ## Sizes -/

/-- The mutation that a success appends first. -/
def successMutation (job : Job) (timestamp : ℕ) : Mutation :=
  ⟨job.id, job.revision, job.revision + 1, timestamp, .finished 0 0 job.execution none none none⟩

theorem success_event {job : Job} {timestamp : ℕ} {e : JobEvent}
    (h : Outcome.event job .success timestamp [] = .ok e) :
    e = ⟨job.id, job.revision, timestamp, .finished none 0 job.execution none none 0⟩ ∧
      job.execution.isSome = true := by
  simp only [Outcome.event, bind_eq_ok, check_eq_ok, pure_eq_ok, Bool.and_eq_true] at h
  obtain ⟨-, -, -, hvalid, c, hc, due, hdue, h⟩ := h
  cases hc
  cases hdue
  cases h
  refine ⟨rfl, ?_⟩
  obtain ⟨token, htoken, -⟩ := (Option.any_eq_true _ _).mp hvalid.1.1.1.1.1.2
  rw [htoken]
  rfl

theorem success_mutation {job : Job} {timestamp order : ℕ} {e : JobEvent} {m : Mutation}
    (he : Outcome.event job .success timestamp [] = .ok e)
    (hm : Mutation.fromEvent e (some job) order = .ok m) : m = successMutation job timestamp := by
  obtain ⟨rfl, -⟩ := success_event he
  cases hm
  rfl

theorem success_bytes {job : Job} (timestamp : ℕ) (h : job.execution.isSome = true) :
    (Payload.mutation (successMutation job timestamp)).bytes = 172 := by
  obtain ⟨token, htoken⟩ := Option.isSome_iff_exists.mp h
  simp only [successMutation, htoken, Payload.bytes, Codec.mutationPayload, MutationBody.toValue,
    Value.record, Value.opt, List.map_cons, List.map_nil, Value.wire, Value.wire.wireMap,
    List.length_cons, List.length_append, Value.bigEndian_length, wire_nat_length, List.length_nil,
    show (text "diagnostic").length = 10 from by decide,
    show (text "disposition").length = 11 from by decide,
    show (text "execution_token").length = 15 from by decide,
    show (text "next_attempt").length = 12 from by decide,
    show (text "next_due_at").length = 11 from by decide,
    show (text "outcome").length = 7 from by decide]

/-- The size of a result record's payload. -/
def resultBytes (result : Value) : ℕ := 95 + result.wire.length

theorem resultOf_bytes (job : Job) (result : Value) :
    (Payload.auxiliary (resultOf job result)).bytes = resultBytes result := by
  simp only [Payload.bytes, resultOf, AuxEvent.toValue, idValue, Value.record, List.map_cons,
    List.map_nil, Value.wire, Value.wire.wireMap, List.length_cons, List.length_append,
    Value.bigEndian_length, wire_nat_length, List.length_nil, resultBytes,
    show (text "at").length = 2 from by decide,
    show (text "expected_revision").length = 17 from by decide,
    show (text "job_id").length = 6 from by decide,
    show (text "result").length = 6 from by decide]
  omega

/-! ## Room -/

/-- Whether the result record, placed behind the finish, opens a segment of its own. -/
def resultRotates (base : State) (result : Value) : Bool :=
  base.config.rotationTargetBytes <
    (expectedPosition base 172).offset + 172 + 28 + resultBytes result + 28 + 64

/-- The segments the two records open. -/
def segmentsFor (base : State) (result : Value) : ℕ :=
  (if rotates base 172 then 1 else 0) + if resultRotates base result then 1 else 0

/-- The bytes the two records add to the history. -/
def bytesFor (base : State) (result : Value) : ℕ :=
  historyDelta base 172 + (resultBytes result + 28 + if resultRotates base result then 108 else 0)

/-- Room for a finish in `s`, and for it and the result at the coordinates of `base`, next to the
settlements of the other running executions. -/
structure RoomForResult (s base : State) (result : Value) : Prop where
  finish : HasRoom s 172 (s.persistentSettlementReserve - 1)
  sequence : base.nextSequence + s.persistentSettlementReserve ≤ maxId
  segmentId : base.segment.id + segmentsFor base result + (s.persistentSettlementReserve - 1) ≤ maxId
  history : ∀ limit ∈ s.config.maxHistoryBytes,
    base.historyBytes + bytesFor base result + 1132 * (s.persistentSettlementReserve - 1) ≤ limit
  segments : ∀ limit ∈ s.config.maxSegments,
    base.segmentCount + segmentsFor base result + (s.persistentSettlementReserve - 1) ≤ limit

/-- The coordinates a record finds when it is appended: those of the engine, or those of the epoch
that the reply to the append carries. -/
def landed (s : State) : Reply → State
  | .switched _ stats =>
    match s.onlineCompaction, stats.recovered.highest.bind Summary.view? with
    | .running .., some segment => moved s stats segment
    | _, _ => s
  | _ => s

variable (vm : Runtime)

/-- Two states with the same coordinates, under the same limits. -/
structure SameRoom (s t : State) : Prop where
  rotationTarget : t.config.rotationTargetBytes = s.config.rotationTargetBytes
  maxHistoryBytes : t.config.maxHistoryBytes = s.config.maxHistoryBytes
  maxSegments : t.config.maxSegments = s.config.maxSegments
  nextSequence : t.nextSequence = s.nextSequence
  segment : t.segment = s.segment
  historyBytes : t.historyBytes = s.historyBytes
  segmentCount : t.segmentCount = s.segmentCount

theorem landed_same {s base : State} {payload : Payload} {env : Environment}
    (h : Landing vm s payload env base) : SameRoom base (landed s (env.append payload)) := by
  cases h with
  | stay happend =>
    rw [happend]
    exact ⟨rfl, rfl, rfl, rfl, rfl, rfl, rfl⟩
  | switch honline happend hadopt =>
    have hspec := adopt_spec vm hadopt
    obtain ⟨retention, hconfig⟩ := hspec.config
    rw [happend]
    simp only [landed, honline, hspec.segment]
    refine ⟨?_, ?_, ?_, hspec.nextSequence.symm, rfl, hspec.historyBytes.symm,
      hspec.segmentCount.symm⟩
    all_goals
      simp only [hconfig]
      rfl

theorem SameRoom.rotates {s t : State} (h : SameRoom s t) (bytes : ℕ) :
    rotates t bytes = rotates s bytes := by
  unfold Engine.rotates
  rw [h.segment, h.rotationTarget]

theorem SameRoom.resultRotates {s t : State} (h : SameRoom s t) (result : Value) :
    resultRotates t result = resultRotates s result := by
  have hoffset : (expectedPosition t 172).offset = (expectedPosition s 172).offset := by
    simp only [expectedPosition, h.rotates, h.segment]
  unfold Engine.resultRotates
  rw [hoffset, h.rotationTarget]

theorem SameRoom.segmentsFor {s t : State} (h : SameRoom s t) (result : Value) :
    segmentsFor t result = segmentsFor s result := by
  simp only [Engine.segmentsFor, h.rotates, h.resultRotates]

theorem SameRoom.bytesFor {s t : State} (h : SameRoom s t) (result : Value) :
    bytesFor t result = bytesFor s result := by
  simp only [Engine.bytesFor, historyDelta, h.rotates, h.resultRotates, h.segment]

/-- The room for a result behind a finish, in terms of where the finish was placed. -/
theorem hasRoom_result {base t : State} {result : Value} {reserve : ℤ}
    (hconfig : t.config = base.config)
    (hsegment : t.segment = (advance base (expectedPosition base 172) 172).segment)
    (hsequence : t.nextSequence = base.nextSequence + 1)
    (hhistory : t.historyBytes = base.historyBytes + historyDelta base 172)
    (hcount : t.segmentCount =
      base.segmentCount + (expectedPosition base 172).segmentId - base.segment.id) :
    HasRoom t (resultBytes result) reserve ↔
      base.nextSequence + 1 + reserve ≤ maxId ∧
      base.segment.id + segmentsFor base result + reserve ≤ maxId ∧
      (∀ limit ∈ base.config.maxHistoryBytes,
        base.historyBytes + bytesFor base result + 1132 * reserve ≤ limit) ∧
      ∀ limit ∈ base.config.maxSegments,
        base.segmentCount + segmentsFor base result + reserve ≤ limit := by
  have hrotates : rotates t (resultBytes result) = resultRotates base result := by
    have hpositive : 0 < t.segment.count := by
      rw [hsegment]
      simp only [advance]
      split <;> omega
    simp only [rotates, hpositive, decide_true, Bool.true_and]
    rw [hsegment, hconfig]
    rfl
  have hid : (expectedPosition base 172).segmentId =
      base.segment.id + if rotates base 172 then 1 else 0 := rfl
  have htid : t.segment.id = (expectedPosition base 172).segmentId := by rw [hsegment]; rfl
  have htsealed : t.segment.sealed = false := by rw [hsegment]; rfl
  have hposition : (expectedPosition t (resultBytes result)).segmentId =
      base.segment.id + segmentsFor base result := by
    simp only [expectedPosition, hrotates, htid, segmentsFor]
    omega
  have hdelta : historyDelta t (resultBytes result) =
      resultBytes result + 28 + if resultRotates base result then 108 else 0 := by
    simp only [historyDelta, hrotates, htsealed]
    rfl
  constructor
  · intro h
    refine ⟨?_, ?_, ?_, ?_⟩
    · have := h.sequence
      omega
    · have := h.segmentId
      omega
    · intro limit hlimit
      have := h.history limit (hconfig ▸ hlimit)
      unfold outcomeReserve at this
      unfold bytesFor
      omega
    · intro limit hlimit
      have := h.segments limit (hconfig ▸ hlimit)
      omega
  · rintro ⟨hseq, hsegmentId, hbytes, hsegments⟩
    constructor
    · omega
    · omega
    · intro limit hlimit
      have := hbytes limit (hconfig ▸ hlimit)
      unfold bytesFor at this
      unfold outcomeReserve
      omega
    · intro limit hlimit
      have := hsegments limit (hconfig ▸ hlimit)
      omega

theorem landed_config (s : State) (reply : Reply) : (landed s reply).config = s.config := by
  unfold landed
  split
  · split <;> rfl
  · rfl

/-! ## A success -/

/-- What the finish of a success leaves: one settlement fewer, the job still persistent, and room
for a result exactly if there was room for both records. -/
theorem success_committed {s : State} {job : Job} {timestamp : ℕ} {e : JobEvent}
    {env : Environment} {c : Committed} (hs : Counted s) (hhot : s.hot[job.id]? = some job)
    (hpersistent : job.id ∉ s.volatileIds)
    (he : Outcome.event job .success timestamp [] = .ok e)
    (hc : commit vm s (some job) e none env = .ok c) :
    Counted c.state ∧ durability c.state c.job.id = .persistent ∧
      ∀ result, RoomForResult s (landed s (env.append (.mutation (successMutation job timestamp))))
        result ↔ HasRoom c.state (resultBytes result) c.state.persistentSettlementReserve := by
  obtain ⟨hstate, hjobId, -⟩ := Outcome.event_eq_ok he
  obtain ⟨hevent, hexecution⟩ := success_event he
  have hlookup : lookup s e.jobId = some job := by rw [hjobId, lookup, hhot]; rfl
  have hmode : durability s job.id = .persistent := by simp [durability, hpersistent]
  simp only [commit, Option.getD_none, hmode] at hc
  obtain ⟨p, base, hp, hlanding, hfinished⟩ := commitV2_landing vm hc
  have hm : p.mutation = successMutation job timestamp := success_mutation he hp.mutation
  have hbytes : (Payload.mutation p.mutation).bytes = 172 := by
    rw [hm]
    exact success_bytes timestamp hexecution
  have hcounted : Counted c.state := by
    rw [← hlookup] at hp hfinished
    exact hs.persistent vm (hjobId ▸ hpersistent) hp hlanding hfinished
  have hreserve : c.state.persistentSettlementReserve = s.persistentSettlementReserve - 1 := by
    rw [hfinished.persistent, hp.reserve, hevent]
    simp [reservationAfter, hstate]
  obtain ⟨-, -, hkept⟩ := hs.landing vm hlanding
  have hid : c.job.id = job.id := by
    obtain ⟨next, hnext, htransition, -⟩ := hp.transition
    rw [← Job.durable_id, hfinished.job, hnext, Job.durable_id,
      Reducer.transitionJob_id htransition, hm]
    rfl
  refine ⟨hcounted, ?_, fun result ↦ ?_⟩
  · simp [durability, hid, hfinished.volatileIds, (hkept _ hpersistent).1]
  · rw [hm] at hlanding
    have hsame := landed_same vm hlanding
    have hconfig := landed_config s (env.append (.mutation (successMutation job timestamp)))
    have hfinish : HasRoom s 172 (s.persistentSettlementReserve - 1) := by
      rw [← hreserve, ← hbytes, hfinished.persistent]
      exact headroom_eq_ok.mp hp.headroom
    rw [hbytes] at hfinished
    have hsegment := hfinished.segment
    have hhistory := hfinished.historyBytes
    rw [hbytes] at hsegment hhistory
    rw [hasRoom_result hfinished.config hsegment hfinished.sequence hhistory
      hfinished.segmentCount, hreserve, ← hsame.maxHistoryBytes, ← hsame.maxSegments, hconfig]
    constructor
    · intro h
      rw [← hsame.nextSequence, ← hsame.segment, ← hsame.historyBytes, ← hsame.segmentCount,
        ← hsame.segmentsFor, ← hsame.bytesFor]
      refine ⟨?_, h.segmentId, h.history, h.segments⟩
      have := h.sequence
      omega
    · rintro ⟨hsequence, hsegmentId, hbytes, hsegments⟩
      refine ⟨hfinish, ?_, ?_, ?_, ?_⟩
      · rw [hsame.nextSequence]
        omega
      · rw [hsame.segment, hsame.segmentsFor]
        exact hsegmentId
      · rw [hsame.historyBytes, hsame.bytesFor]
        exact hbytes
      · rw [hsame.segmentCount, hsame.segmentsFor]
        exact hsegments

/-- **A success is stored exactly if there is room for its result.** In every reachable state and
for every running persistent execution: a success that is not refused for another reason is
committed, finish and result, if and only if the coordinates leave room for both records. -/
theorem settleSuccess_iff {s : State} {job : Job} {timestamp : ℕ} {result : Value}
    {writer : State → Environment} (hs : (machine vm).Reachable s)
    (hhot : s.hot[job.id]? = some job) (hrunning : job.id ∈ executing s)
    (hwriter : ∀ t, (writer t).Follows t)
    (hother : ∀ r, settleSuccess vm writer s job timestamp result = .error r →
      r.capacity = true) :
    (∃ t, settleSuccess vm writer s job timestamp result = .ok t) ↔
      RoomForResult s
        (landed s ((writer s).append (.mutation (successMutation job timestamp)))) result := by
  have hcounted := reachable_counted vm hs
  have hpersistent := (mem_executing.mp hrunning).2
  constructor
  · rintro ⟨t, ht⟩
    simp only [settleSuccess, bind_eq_ok, mapError_eq_ok] at ht
    obtain ⟨e, he, c, hc, r, hr, -⟩ := ht
    obtain ⟨-, hmode, hroom⟩ := success_committed vm hcounted hhot hpersistent he hc
    simp only [commitAuxiliary, Option.any_some, hmode] at hr
    obtain ⟨base, -, hspec⟩ := commitPersistentAuxiliary_landing vm hr
    rw [hroom, ← resultOf_bytes c.job]
    exact headroom_eq_ok.mp hspec.headroom
  · intro hroom
    have hcapacity : NotCapacity (settleSuccess vm writer s job timestamp result) := by
      unfold settleSuccess
      refine .bind ?_ fun e he ↦ ?_
      · cases Outcome.event job .success timestamp [] with
        | ok e => exact notCapacity_ok _
        | error r => exact failsWith_error rfl
      · rw [mapError_eq_ok] at he
        obtain ⟨hstate, -⟩ := Outcome.event_eq_ok he
        obtain ⟨hevent, hexecution⟩ := success_event he
        refine .bind ?_ fun c hc ↦ ?_
        · have hmode : durability s job.id = .persistent := by simp [durability, hpersistent]
          have hafter : reservationAfter s.persistentSettlementReserve (some job) e.body =
              s.persistentSettlementReserve - 1 := by
            rw [hevent]
            simp [reservationAfter, hstate]
          simp only [commit, Option.getD_none, hmode]
          apply commitV2_notCapacity vm (hwriter s)
          · rw [hafter, hcounted.reserve]
            have := Finset.card_pos.mpr ⟨_, hrunning⟩
            omega
          · intro m hm
            rw [hafter, success_mutation he hm, success_bytes timestamp hexecution]
            exact headroom_eq_ok.mpr hroom.finish
        · obtain ⟨hafter, hmode, hresult⟩ :=
            success_committed vm hcounted hhot hpersistent he hc
          simp only [commitAuxiliary, Option.any_some, hmode]
          refine .bind (commitPersistentAuxiliary_notCapacity vm (hwriter c.state) hafter.nonneg ?_)
            fun _ _ ↦ notCapacity_ok _
          rw [resultOf_bytes]
          exact headroom_eq_ok.mpr ((hresult result).mp hroom)
    cases h : settleSuccess vm writer s job timestamp result with
    | ok t => exact ⟨t, rfl⟩
    | error r =>
      have hnot : r.capacity = false := hcapacity r h
      rw [hother r h] at hnot
      cases hnot

/-! ## A result without room

The start of an execution is admitted with exactly one settlement to spare, and a result of 805
bytes, far below the 64 KiB an executor may send by default, is refused. -/

namespace Sample

open Tay.Sample

/-- Room for one insertion, one start, and the reserve of one settlement. -/
def narrow : Config := { config with maxHistoryBytes := some 1714 }

def unstarted : State := countInterrupted (init narrow recovered segment)

def waiting : State :=
  after unstarted
    (.command (.insert ⟨1, 0, 10, .inserted definition 10⟩ .persistent) (writer unstarted))

/-- The start passes the headroom check. -/
def admitted : State := after waiting (.command startFirst (writer waiting))

def runningJob : Job := (admitted.hot[(1 : JobId)]?).getD
  (Transition.inserted ⟨1, 0, 10, .cancelled none⟩ definition 10 [] 1)

/-- A string of the given length. -/
def answer (length : ℕ) : Value := .str (List.replicate length 97)

end Sample

theorem admitted_reachable : (machine Tay.Sample.runtime).Reachable Sample.admitted := by
  have heval : ((machine Tay.Sample.runtime).step Sample.unstarted (.command
        (.insert ⟨1, 0, 10, .inserted Tay.Sample.definition 10⟩ .persistent)
        (Sample.writer Sample.unstarted))).isSome = true ∧
      ((machine Tay.Sample.runtime).step Sample.waiting
        (.command Sample.startFirst (Sample.writer Sample.waiting))).isSome = true := by
    decide +kernel
  have hunstarted : (machine Tay.Sample.runtime).Reachable Sample.unstarted := by
    refine .initial ⟨⟨Tay.Sample.manifest 0, [⟨1, 1, [], false⟩]⟩, Sample.narrow, Sample.recovered,
      Sample.segment, by decide +kernel, rfl, ⟨by decide +kernel, by decide +kernel, ?_, ?_⟩⟩
    · rintro limit ⟨⟩
      decide +kernel
    · rintro limit ⟨⟩
      decide +kernel
  exact reachableUnder_after (reachableUnder_after hunstarted trivial heval.1) trivial heval.2

/-- With 804 bytes there is room, and with 805 there is not. -/
theorem settleSuccess_sample :
    (∃ t, settleSuccess Tay.Sample.runtime Sample.writer Sample.admitted Sample.runningJob 14
        (Sample.answer 804) = .ok t) ∧
      RoomForResult Sample.admitted Sample.admitted (Sample.answer 804) ∧
      ¬RoomForResult Sample.admitted Sample.admitted (Sample.answer 805) := by
  have heval : Sample.admitted.hot[Sample.runningJob.id]? = some Sample.runningJob ∧
      Sample.runningJob.id ∈ executing Sample.admitted ∧
      (settleSuccess Tay.Sample.runtime Sample.writer Sample.admitted Sample.runningJob 14
        (Sample.answer 804)).isOk = true ∧
      settleSuccess Tay.Sample.runtime Sample.writer Sample.admitted Sample.runningJob 14
        (Sample.answer 805) = .error (.resourceLimit .maxHistoryBytes) := by
    decide +kernel
  obtain ⟨hhot, hrunning, hok, hrefused⟩ := heval
  have hiff := fun result ↦ @settleSuccess_iff Tay.Sample.runtime Sample.admitted Sample.runningJob
    14 result Sample.writer admitted_reachable hhot hrunning writer_follows
  obtain ⟨t, ht⟩ := exists_ok hok
  refine ⟨⟨t, ht⟩, ?_, ?_⟩
  · refine (hiff (Sample.answer 804) fun r hr ↦ ?_).mp ⟨t, ht⟩
    rw [ht] at hr
    cases hr
  · intro hroom
    obtain ⟨t, ht⟩ := (hiff (Sample.answer 805) fun r hr ↦ by
      rw [hrefused] at hr
      cases hr
      rfl).mpr hroom
    rw [hrefused] at ht
    cases ht

/-- An admitted execution whose result is within the default limit of 64 KiB: the finish is
committed, and the result is refused for history bytes. -/
theorem settleSuccess_refused :
    (machine Tay.Sample.runtime).Reachable Sample.admitted ∧
      Sample.admitted.hot[(1 : JobId)]? = some Sample.runningJob ∧
      1 ∈ executing Sample.admitted ∧ (Sample.answer 805).wire.length ≤ 65536 ∧
      settleSuccess Tay.Sample.runtime Sample.writer Sample.admitted Sample.runningJob 14
        (Sample.answer 805) = .error (.resourceLimit .maxHistoryBytes) := by
  refine ⟨admitted_reachable, ?_⟩
  decide +kernel

end Engine

end Tay
