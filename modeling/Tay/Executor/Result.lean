import Tay.Engine.Settlement
import Tay.Executor.Protocol

/-!
# The result of an execution

From the socket to the log. The connection accepts a success whose frame is within the protocol's
limits and whose result has a short enough text; the engine then commits the finish of the job, and
only afterwards writes the event that stores the result. That event has its own limits, and a
refusal at this point ends the engine: `external_result_commit_failed`.

The two domains are not nested. What passes the first check and fails the second is determined here
exactly: an integer of more than 64 bits, or a result for which the limits of the engine leave too
little once the event is wrapped around it.
-/

open Foundation

namespace Tay

open V2

/-- What `Recovery.options` asks of the limits that every event is written under. -/
def Config.accepted (c : Config) : Bool :=
  Value.limits? c.valueLimits && c.maxDecodePayloadBytes ≤ Value.maxBytes

/-- The result can be written as an event: the integers fit, and so does the value with the eight
nodes, the 47 bytes of keys and identity and the 95 bytes of encoding around it. -/
structure ResultFits (c : Config) (result : Value) : Prop where
  integers : result.integers64 = true
  depth : result.cost.height + 1 ≤ c.valueLimits.depth
  nodes : result.cost.nodes + 8 ≤ c.valueLimits.outputNodes
  strings : result.cost.strings + 47 ≤ c.valueLimits.binaryBytes
  bytes : result.cost.bytes + 95 ≤ c.maxDecodePayloadBytes

namespace Engine

open ProjectionState

/-! ## The finished job -/

/-- What the event takes from the job is valid. -/
structure Recordable (job : Job) : Prop where
  id : id? job.id = true
  revision : sequence? job.revision = true
  completedAt : job.completedAt.all time? = true

theorem transitionJob_recordable {previous : Option Job} {m : Mutation} {order : ℕ}
    {limits : Value.Limits} {job : Job}
    (h : Reducer.transitionJob previous m order limits = .ok job) : Recordable job := by
  simp only [Reducer.transitionJob, bind_eq_ok, pure_eq_ok] at h
  obtain ⟨-, -, -, -, -, -, -, -, applied, -, u, hsnapshot, hjob⟩ := h
  cases hjob
  simp only [Codec.snapshot?, bind_eq_ok, check_eq_ok, Bool.and_eq_true, exists_const] at hsnapshot
  obtain ⟨hid, -, -, -, -, ⟨⟨hrevision, -⟩, -⟩, -, -, ⟨⟨-, hcompleted⟩, -⟩, -⟩ := hsnapshot
  exact ⟨hid, by simpa [Codec.uint?, sequence?] using hrevision, hcompleted⟩

theorem Recordable.congr {job next : Job} (h : Recordable job) (hid : next.id = job.id)
    (hrevision : next.revision = job.revision) (hcompleted : next.completedAt = job.completedAt) :
    Recordable next :=
  ⟨hid ▸ h.id, hrevision ▸ h.revision, hcompleted ▸ h.completedAt⟩

variable (vm : Runtime)

theorem commit_recordable {s : State} {previous : Option Job} {e : JobEvent}
    {given : Option Durability} {env : Environment} {c : Committed}
    (h : commit vm s previous e given env = .ok c) : Recordable c.job := by
  unfold commit at h
  split at h
  case h_1 =>
    simp only [commitVolatile, bind_eq_ok, pure_eq_ok] at h
    obtain ⟨m, -, -, -, predicted, hpredicted, charged, hcharged, -, -, next, -, h⟩ := h
    cases h
    obtain ⟨job, hjob, hdurable, -⟩ := Reducer.applyOne_eq_ok vm hpredicted
    obtain ⟨ch, hch⟩ := accountActive_charged vm hcharged
    have hdurable : charged.1.durable = job.durable := by rw [hch, Job.durable_charged, hdurable]
    exact (transitionJob_recordable hjob).congr (congrArg Job.id hdurable :)
      (congrArg Job.revision hdurable :) (congrArg Job.completedAt hdurable :)
  case h_2 =>
    obtain ⟨p, base, hp, -, hfinished⟩ := commitV2_landing vm h
    obtain ⟨job, hdurable, hjob, -⟩ := hp.transition
    have hdurable : c.job.durable = job.durable := hfinished.job.trans hdurable
    exact (transitionJob_recordable hjob).congr (congrArg Job.id hdurable :)
      (congrArg Job.revision hdurable :) (congrArg Job.completedAt hdurable :)

/-- No commit changes the limits of values. -/
theorem commit_limits {s : State} {previous : Option Job} {e : JobEvent}
    {given : Option Durability} {env : Environment} {c : Committed}
    (h : commit vm s previous e given env = .ok c) :
    c.state.config.valueLimits = s.config.valueLimits ∧
      c.state.config.maxDecodePayloadBytes = s.config.maxDecodePayloadBytes := by
  unfold commit at h
  split at h
  case h_1 =>
    rw [(commitVolatile_spec vm h).config]
    exact ⟨rfl, rfl⟩
  case h_2 =>
    obtain ⟨p, base, -, hlanding, hfinished⟩ := commitV2_landing vm h
    rw [hfinished.config]
    cases hlanding with
    | stay => exact ⟨rfl, rfl⟩
    | switch _ _ hadopt =>
      obtain ⟨retention, hconfig⟩ := (adopt_spec vm hadopt).config
      simp only [hconfig, and_self]

/-! ## The event -/

theorem writable_nat {n : ℕ} : (Value.nat n).writable = true ↔ n ≤ maxSequence := by
  simp only [Value.nat, Value.writable, Bool.and_eq_true, decide_eq_true_eq, maxSequence]
  omega

/-- The event around a result can be written exactly if the result can. -/
theorem resultOf_writable {job : Job} (hjob : Recordable job) (result : Value) :
    (resultOf job result).toValue.writable = result.writable := by
  have htime : (Value.nat (job.completedAt.getD 0)).writable = true := by
    rw [writable_nat]
    have hcompleted := hjob.completedAt
    cases hat : job.completedAt with
    | none => exact Nat.zero_le _
    | some t =>
      rw [hat, Option.all_some, time?, decide_eq_true_eq] at hcompleted
      exact hcompleted.trans (by decide)
  have hrevision : (Value.nat job.revision).writable = true := by
    have hsequence := hjob.revision
    rw [sequence?, Bool.and_eq_true, decide_eq_true_eq, decide_eq_true_eq] at hsequence
    exact writable_nat.mpr hsequence.2
  have hkeys : (Value.str (text "at")).writable = true ∧
      (Value.str (text "expected_revision")).writable = true ∧
      (Value.str (text "job_id")).writable = true ∧ (Value.str (text "result")).writable = true := by
    decide +kernel
  obtain ⟨hat, hexpected, hid, hresult⟩ := hkeys
  simp only [resultOf, AuxEvent.toValue, Value.record, List.map_cons, List.map_nil, idValue,
    Value.writable, Value.writable.writableMap, Value.isBinary, htime, hrevision, Bool.true_and,
    Bool.and_true] at hat hexpected hid hresult ⊢
  rw [hat, hexpected, hid, hresult]
  simp

theorem resultOf_cost (job : Job) (result : Value) :
    (resultOf job result).toValue.cost =
      ⟨1 + max 1 result.cost.height, 8 + result.cost.nodes, 47 + result.cost.strings,
        95 + result.cost.bytes⟩ := by
  have hlengths : (text "at").length = 2 ∧ (text "expected_revision").length = 17 ∧
      (text "job_id").length = 6 ∧ (text "result").length = 6 := by decide
  obtain ⟨hat, hexpected, hid, hresult⟩ := hlengths
  simp only [resultOf, AuxEvent.toValue, Value.record, List.map_cons, List.map_nil, idValue,
    Value.nat, Value.cost, Value.cost.costMap, Value.Cost.enclosed, Value.Cost.beside,
    Value.Cost.binary, Value.Cost.leaf, Value.Cost.empty, Value.bigEndian_length, hat, hexpected,
    hid, hresult, Value.Cost.mk.injEq]
  omega

theorem auxEncode_isOk_iff {e : AuxEvent} {limits : Value.Limits} {max : ℕ} :
    (∃ payload, e.encode limits max = .ok payload) ↔
      (∃ m, e.toValue.measure limits max = .ok m) ∧ validateAux e = true := by
  constructor
  · rintro ⟨payload, h⟩
    simp only [AuxEvent.encode, bind_eq_ok, check_eq_ok] at h
    obtain ⟨m, hm, -, hvalid, -⟩ := h
    exact ⟨⟨m, hm⟩, hvalid⟩
  · rintro ⟨⟨m, hm⟩, hvalid⟩
    refine ⟨e.toValue.wire, ?_⟩
    simp only [AuxEvent.encode, Value.encode, hm, hvalid, check_true, ok_bind, pure_eq_ok]

theorem resultOf_valid {job : Job} (hjob : Recordable job) {result : Value}
    (hresult : args? result = true) : validateAux (resultOf job result) = true := by
  have htime : time? (job.completedAt.getD 0) = true := by
    have hcompleted := hjob.completedAt
    cases hat : job.completedAt with
    | none => rfl
    | some t => rwa [hat, Option.all_some] at hcompleted
  simp only [validateAux, resultOf, auxIdentity?, auxRevision?, auxFields?, htime, hjob.id,
    hjob.revision, hresult, Bool.and_self]

/-- The event with a plain result is accepted exactly if the result fits. -/
theorem resultOf_encodes_iff {s : State} {previous : Option Job} {e : JobEvent}
    {given : Option Durability} {env : Environment} {c : Committed} {result : Value}
    (hconfig : s.config.accepted = true) (hc : commit vm s previous e given env = .ok c)
    (hplain : args? result = true ∧ result.writable = result.integers64) :
    (∃ payload, (resultOf c.job result).encode c.state.config.valueLimits
      c.state.config.maxDecodePayloadBytes = .ok payload) ↔ ResultFits s.config result := by
  obtain ⟨hargs, hwritable⟩ := hplain
  have hjob := commit_recordable vm hc
  obtain ⟨hlimits, hmax⟩ := commit_limits vm hc
  simp only [Config.accepted, Bool.and_eq_true, decide_eq_true_eq] at hconfig
  have hpositive : 0 < result.cost.height := Value.height_pos result
  rw [hlimits, hmax, auxEncode_isOk_iff, and_iff_left (resultOf_valid hjob hargs),
    Value.measure_isOk_iff hconfig.1 hconfig.2, resultOf_writable hjob, hwritable, resultOf_cost]
  constructor
  · rintro ⟨hintegers, hdepth, hnodes, hstrings, hbytes⟩
    dsimp only at hdepth hnodes hstrings hbytes
    exact ⟨hintegers, by omega, by omega, by omega, by omega⟩
  · rintro ⟨hintegers, hdepth, hnodes, hstrings, hbytes⟩
    refine ⟨hintegers, ?_, ?_, ?_, ?_⟩ <;> dsimp only <;> omega

/-- A result that cannot be encoded ends the engine, after the finish has been committed. -/
theorem settleSuccess_unencodable {writer : State → Environment} {s : State} {job : Job}
    {timestamp : ℕ} {e : JobEvent} {c : Committed} {result : Value}
    (he : Outcome.event job .success timestamp [] = .ok e)
    (hc : commit vm s (some job) e none (writer s) = .ok c)
    (h : ¬∃ payload, (resultOf c.job result).encode c.state.config.valueLimits
      c.state.config.maxDecodePayloadBytes = .ok payload) :
    ∃ reason, settleSuccess vm writer s job timestamp result = .error reason := by
  cases hsettle : settleSuccess vm writer s job timestamp result with
  | error reason => exact ⟨reason, rfl⟩
  | ok t =>
    refine absurd ?_ h
    simp only [settleSuccess, bind_eq_ok, mapError_eq_ok] at hsettle
    obtain ⟨e', he', c', hc', r, hr, -⟩ := hsettle
    cases he.symm.trans he'
    cases hc.symm.trans hc'
    unfold commitAuxiliary at hr
    split at hr
    · simp only [commitVolatileAuxiliary, bind_eq_ok] at hr
      obtain ⟨payload, hpayload, -⟩ := hr
      exact ⟨payload, hpayload⟩
    · obtain ⟨base, -, hspec⟩ := commitPersistentAuxiliary_landing vm hr
      exact hspec.encoded

/-! ## From the socket to the log -/

/-- **Which accepted results are stored.** For every success the connection accepts, whatever the
limits of the connection and the engine: once the finish of the job is committed, the event with the
result is accepted by the encoder if and only if the result fits, and a result that does not fit ends
the engine. -/
theorem result_encodes_iff {json : Protocol.Json} (hjson : json.Finite)
    {options : Protocol.Options} {buffer reservation execution : Binary} {result : Value}
    (haccepts : Protocol.Accepts json options buffer reservation execution result) {s : State}
    {job : Job} {timestamp : ℕ} {e : JobEvent} {writer : State → Environment} {c : Committed}
    (hconfig : s.config.accepted = true) (he : Outcome.event job .success timestamp [] = .ok e)
    (hc : commit vm s (some job) e none (writer s) = .ok c) :
    ((∃ payload, (resultOf c.job result).encode c.state.config.valueLimits
      c.state.config.maxDecodePayloadBytes = .ok payload) ↔ ResultFits s.config result) ∧
    (¬ResultFits s.config result →
      ∃ reason, settleSuccess vm writer s job timestamp result = .error reason) := by
  have hiff := resultOf_encodes_iff vm hconfig hc (haccepts.plain hjson)
  exact ⟨hiff, fun h ↦ settleSuccess_unencodable vm he hc fun hencodes ↦ h (hiff.mp hencodes)⟩

/-! ## A result of 65 bits

The number `2 ^ 64` is twenty digits of JSON. The connection accepts it, the finish is committed, and
the event that stores it is refused. -/

namespace Sample

/-- The text of a success with a result, in the order of its keys. -/
def successText (result : String) : String :=
  "\x7b\"execution_id\":\"x\",\"request_id\":\"r\",\"reservation_id\":\"y\",\"result\":" ++ result ++
    ",\"type\":\"succeeded\",\"version\":1\x7d"

def success (result : Value) : Protocol.Message :=
  [(.str (text "execution_id"), .str (text "x")), (.str (text "request_id"), .str (text "r")),
    (.str (text "reservation_id"), .str (text "y")), (.str (text "result"), result),
    (.str (text "type"), .str (text "succeeded")), (.str (text "version"), .nat 1)]

/-- The codec on one message and its result. -/
def json (number : ℕ) (digits : String) : Protocol.Json where
  decode bytes :=
    if bytes = text (successText digits) then some (.map (success (.nat number))) else none
  encode value := if value = .nat number then some (text digits) else none

def frame (digits : String) : Binary :=
  Value.bigEndian 4 (text (successText digits)).length ++ text (successText digits)

/-- The limits a connection has by default. -/
def options : Protocol.Options := ⟨1048576, 65536⟩

end Sample

theorem json_finite (number : ℕ) (digits : String) : (Sample.json number digits).Finite := by
  intro bytes value h
  simp only [Sample.json, Option.ite_none_right_eq_some, Option.some.injEq] at h
  obtain ⟨-, rfl⟩ := h
  rfl

/-- The connection accepts a success whose message decodes. -/
theorem accepts_sample {number : ℕ} {digits : String}
    (hsize : ∃ a b c d, Sample.frame digits = a :: b :: c :: d :: text (Sample.successText digits) ∧
      Protocol.frameSize a b c d = (text (Sample.successText digits)).length)
    (hdecode : Protocol.decodeMessage (Sample.json number digits) (text (Sample.successText digits))
      1048576 = .ok (Sample.success (.nat number)))
    (hrequest : Protocol.succeeded (Sample.json number digits) Sample.options
      (Sample.success (.nat number)) = .ok (text "y", text "x", .nat number)) :
    Protocol.Accepts (Sample.json number digits) Sample.options (Sample.frame digits) (text "y")
      (text "x") (.nat number) := by
  obtain ⟨a, b, c, d, hframe, hsize⟩ := hsize
  refine ⟨[Sample.success (.nat number)], [], ?_, _, List.mem_singleton_self _, hrequest⟩
  rw [hframe]
  exact Protocol.decodeFrames_single (by decide) hsize hdecode

/-- A small result is accepted, fits, and is encoded. -/
theorem result_encodes_small :
    Protocol.Accepts (Sample.json 5 "5") Sample.options (Sample.frame "5") (text "y") (text "x")
        (.nat 5) ∧ Sample.admitted.config.accepted = true ∧
      ∃ e c, Outcome.event Sample.runningJob .success 14 [] = .ok e ∧
        commit Tay.Sample.runtime Sample.admitted (some Sample.runningJob) e none
          (Sample.writer Sample.admitted) = .ok c ∧
        ∃ payload, (resultOf c.job (.nat 5)).encode c.state.config.valueLimits
          c.state.config.maxDecodePayloadBytes = .ok payload := by
  have haccepts := @accepts_sample 5 "5" ⟨_, _, _, _, rfl, by decide +kernel⟩ (by decide +kernel)
    (by decide +kernel)
  have hconfig : Sample.admitted.config.accepted = true := by decide +kernel
  have hfits : ResultFits Sample.admitted.config (.nat 5) :=
    ⟨by decide +kernel, by decide +kernel, by decide +kernel, by decide +kernel, by decide +kernel⟩
  have hcommits : (Outcome.event Sample.runningJob .success 14 []).toOption.any (fun e ↦
      (commit Tay.Sample.runtime Sample.admitted (some Sample.runningJob) e none
        (Sample.writer Sample.admitted)).isOk) = true := by decide +kernel
  obtain ⟨e, he, hc⟩ := (Option.any_eq_true _ _).mp hcommits
  rw [toOption_eq_some] at he
  obtain ⟨c, hc⟩ := exists_ok hc
  refine ⟨haccepts, hconfig, e, c, he, hc, ?_⟩
  exact (result_encodes_iff Tay.Sample.runtime (json_finite 5 "5") haccepts hconfig he hc).1.mpr hfits

/-- The connection accepts the result `2 ^ 64`; the finish of the execution is committed, and the
event with the result is not a value of the codec. -/
theorem result_unencodable :
    (machine Tay.Sample.runtime).Reachable Sample.admitted ∧
      Sample.admitted.config.accepted = true ∧
      Sample.admitted.hot[(1 : JobId)]? = some Sample.runningJob ∧ 1 ∈ executing Sample.admitted ∧
      (Sample.json (2 ^ 64) "18446744073709551616").Finite ∧
      Protocol.Accepts (Sample.json (2 ^ 64) "18446744073709551616") Sample.options
        (Sample.frame "18446744073709551616") (text "y") (text "x") (.nat (2 ^ 64)) ∧
      ∃ e c, Outcome.event Sample.runningJob .success 14 [] = .ok e ∧
        commit Tay.Sample.runtime Sample.admitted (some Sample.runningJob) e none
          (Sample.writer Sample.admitted) = .ok c ∧
        (resultOf c.job (.nat (2 ^ 64))).encode c.state.config.valueLimits
          c.state.config.maxDecodePayloadBytes = .error .invalidValue ∧
        settleSuccess Tay.Sample.runtime Sample.writer Sample.admitted Sample.runningJob 14
          (.nat (2 ^ 64)) = .error .invalidValue := by
  have haccepts := @accepts_sample (2 ^ 64) "18446744073709551616"
    ⟨_, _, _, _, rfl, by decide +kernel⟩ (by decide +kernel) (by decide +kernel)
  have heval : (Outcome.event Sample.runningJob .success 14 []).toOption.any (fun e ↦
      (commit Tay.Sample.runtime Sample.admitted (some Sample.runningJob) e none
        (Sample.writer Sample.admitted)).toOption.any fun c ↦
          (resultOf c.job (.nat (2 ^ 64))).encode c.state.config.valueLimits
            c.state.config.maxDecodePayloadBytes = .error .invalidValue) = true := by
    decide +kernel
  obtain ⟨e, he, hc⟩ := (Option.any_eq_true _ _).mp heval
  obtain ⟨c, hc, hencode⟩ := (Option.any_eq_true _ _).mp hc
  rw [toOption_eq_some] at he hc
  refine ⟨admitted_reachable, ?_, ?_, ?_, json_finite _ _, haccepts, e, c, he, hc,
    of_decide_eq_true hencode, ?_⟩
  · decide +kernel
  · decide +kernel
  · decide +kernel
  · decide +kernel

end Engine

end Tay
