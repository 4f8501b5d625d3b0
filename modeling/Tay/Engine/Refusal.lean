import Tay.Engine.Persistence

/-!
# Why a commit is refused

A commit passes a long chain of checks, most of them shared with replay. Only one of them is about
capacity: `headroom`. This module follows every reason a commit can stop with back to the check it
comes from, and concludes that a commit whose headroom check passes is never refused for capacity
unless the writer itself has run out of coordinates.
-/

open Foundation

namespace Tay

open V2

/-- The refusals for sequence numbers, segment ids, history bytes or segments. -/
def Reason.capacity : Reason → Bool
  | .sequenceExhausted | .segmentIdExhausted => true
  | .resourceLimit .maxHistoryBytes | .resourceLimit .maxSegments => true
  | _ => false

/-- A computation that never stops for capacity. -/
abbrev NotCapacity {α : Type} (x : Except Reason α) : Prop :=
  FailsWith (fun r ↦ r.capacity = false) x

theorem notCapacity_check {b : Bool} {r : Reason} (h : r.capacity = false) :
    NotCapacity (check b r) :=
  failsWith_check h

theorem notCapacity_ok {α : Type} (a : α) : NotCapacity (.ok a) := failsWith_ok _ a

/-! ## Values -/

namespace Value

theorem node_notCapacity (b : Budget) (m : Measure) (depth : ℕ) : NotCapacity (node b m depth) :=
  .bind (failsWith_check rfl) fun _ _ ↦ .bind (failsWith_check rfl) fun _ _ ↦ notCapacity_ok _

theorem encoded_notCapacity (b : Budget) (m : Measure) (bytes : ℕ) :
    NotCapacity (encoded b m bytes) :=
  .bind (failsWith_check rfl) fun _ _ ↦ notCapacity_ok _

theorem binaryCharge_notCapacity (b : Budget) (m : Measure) (n : ℕ) :
    NotCapacity (binaryCharge b m n) :=
  .bind (failsWith_check rfl) fun _ _ ↦ .bind (failsWith_check rfl) fun _ _ ↦ notCapacity_ok _

mutual

theorem measureValue_notCapacity (b : Budget) (value : Value) (depth : ℕ) (m : Measure) :
    NotCapacity (measureValue b value depth m) := by
  unfold measureValue
  refine .bind (node_notCapacity b m depth) fun m _ ↦ ?_
  cases value with
  | null | bool => exact encoded_notCapacity b m 1
  | int | float => exact .bind (failsWith_check rfl) fun _ _ ↦ encoded_notCapacity b m 9
  | str s =>
    exact .bind (binaryCharge_notCapacity b m _) fun m _ ↦
      .bind (encoded_notCapacity b m _) fun m _ ↦ .bind (failsWith_check rfl) fun _ _ ↦
        notCapacity_ok _
  | bytes s =>
    exact .bind (binaryCharge_notCapacity b m _) fun m _ ↦ encoded_notCapacity b m _
  | list items =>
    exact .bind (encoded_notCapacity b m _) fun m _ ↦ measureList_notCapacity b items _ m 0
  | map entries =>
    exact .bind (failsWith_check rfl) fun _ _ ↦ .bind (encoded_notCapacity b m _) fun m _ ↦
      .bind (.bind (failsWith_check rfl) fun _ _ ↦ notCapacity_ok _) fun m _ ↦
        measureMap_notCapacity b entries _ m
  | other => exact failsWith_error rfl

theorem measureList_notCapacity (b : Budget) (items : List Value) (depth : ℕ) (m : Measure)
    (n : ℕ) : NotCapacity (measureValue.measureList b items depth m n) := by
  unfold measureValue.measureList
  match items with
  | [] => exact notCapacity_ok _
  | head :: tail =>
    exact .bind (failsWith_check rfl) fun _ _ ↦
      .bind (measureValue_notCapacity b head depth m) fun m _ ↦
        measureList_notCapacity b tail depth m (n + 1)

theorem measureMap_notCapacity (b : Budget) (entries : List (Value × Value)) (depth : ℕ)
    (m : Measure) : NotCapacity (measureValue.measureMap b entries depth m) := by
  unfold measureValue.measureMap
  match entries with
  | [] => exact notCapacity_ok _
  | (key, value) :: next =>
    exact .bind (failsWith_check rfl) fun _ _ ↦
      .bind (measureValue_notCapacity b key depth m) fun m _ ↦
        .bind (measureValue_notCapacity b value depth m) fun m _ ↦
          measureMap_notCapacity b next depth m

end

theorem measure_notCapacity (value : Value) (limits : Limits) (max : ℕ) :
    NotCapacity (measure value limits max) :=
  .bind (failsWith_check rfl) fun _ _ ↦ measureValue_notCapacity _ value 1 _

theorem encode_notCapacity (value : Value) (limits : Limits) (max : ℕ) :
    NotCapacity (encode value limits max) :=
  .bind (measure_notCapacity value limits max) fun _ _ ↦ notCapacity_ok _

end Value

/-! ## Transitions -/

theorem jobEncode_notCapacity (e : JobEvent) (limits : Value.Limits) (max : ℕ) :
    NotCapacity (e.encode limits max) :=
  .bind (Value.measure_notCapacity _ _ _) fun _ _ ↦ .bind (failsWith_check rfl) fun _ _ ↦
    Value.encode_notCapacity _ _ _

theorem auxEncode_notCapacity (e : AuxEvent) (limits : Value.Limits) (max : ℕ) :
    NotCapacity (e.encode limits max) :=
  .bind (Value.measure_notCapacity _ _ _) fun _ _ ↦ .bind (failsWith_check rfl) fun _ _ ↦
    Value.encode_notCapacity _ _ _

/-- The memory limit is not one of the capacity limits. -/
theorem memoryCheck_notCapacity (limits : CandidateLimits) (bytes : ℤ) :
    NotCapacity (Memory.check limits bytes) := by
  unfold Memory.check
  split
  · split
    · exact failsWith_error rfl
    · exact failsWith_error rfl
  · exact notCapacity_ok _

namespace Codec

theorem mutation?_notCapacity (m : Mutation) (limits : Value.Limits) :
    NotCapacity (mutation? m limits) := by
  unfold mutation?
  iterate 6 refine .bind (failsWith_check rfl) fun _ _ ↦ ?_
  exact .bind (jobEncode_notCapacity _ _ _) fun _ _ ↦ notCapacity_ok _

theorem encodeMutation_notCapacity (m : Mutation) (limits : Value.Limits) :
    NotCapacity (encodeMutation m limits) :=
  .bind (mutation?_notCapacity m limits) fun _ _ ↦ .bind (Value.encode_notCapacity _ _ _) fun _ _ ↦
    .bind (failsWith_check rfl) fun _ _ ↦ notCapacity_ok _

theorem snapshot?_notCapacity (job : Job) (limits : Value.Limits) :
    NotCapacity (snapshot? job limits) := by
  unfold snapshot?
  iterate 2 refine .bind (failsWith_check rfl) fun _ _ ↦ ?_
  refine .bind (Value.encode_notCapacity _ _ _) fun _ _ ↦ ?_
  iterate 10 refine .bind (failsWith_check rfl) fun _ _ ↦ ?_
  exact failsWith_check rfl

end Codec

namespace Transition

variable (vm : Runtime)

theorem prepare_notCapacity (previous : Option Job) (e : JobEvent) (limits : Value.Limits) :
    NotCapacity (prepare previous e limits) := by
  unfold prepare
  refine .bind (jobEncode_notCapacity _ _ _) fun _ _ ↦ .bind (failsWith_check rfl) fun _ _ ↦
    .bind ?_ fun _ _ ↦ notCapacity_ok _
  unfold definitionBytes
  split
  · exact Value.encode_notCapacity _ _ _
  · exact failsWith_error rfl
  · exact notCapacity_ok _

theorem apply_notCapacity (p : Prepared) (sequence : ℕ) : NotCapacity (apply p sequence) := by
  unfold apply
  refine .bind (failsWith_check rfl) fun _ _ ↦ ?_
  split
  · exact notCapacity_ok _
  · exact failsWith_error rfl
  · exact notCapacity_ok _

theorem charge_notCapacity (job : Job) (valueLimits : Value.Limits) (limits : CandidateLimits) :
    NotCapacity (charge vm job valueLimits limits) := by
  refine .bind ?_ fun _ _ ↦ notCapacity_ok _
  unfold chargeBase
  split
  · exact notCapacity_ok _
  · split
    · exact notCapacity_ok _
    · exact failsWith_error rfl

theorem account_notCapacity (budget : Accounting) (valueLimits : Value.Limits)
    (limits : CandidateLimits) (previous : Option Job) (job : Job) :
    NotCapacity (account vm budget valueLimits limits previous job) :=
  .bind (charge_notCapacity vm _ _ _) fun _ _ ↦ .bind (memoryCheck_notCapacity _ _) fun _ _ ↦
    notCapacity_ok _

end Transition

namespace Reducer

variable (vm : Runtime)

theorem transitionJob_notCapacity (previous : Option Job) (m : Mutation) (nextOrder : ℕ)
    (valueLimits : Value.Limits) : NotCapacity (transitionJob previous m nextOrder valueLimits) := by
  unfold transitionJob
  refine .bind (Codec.mutation?_notCapacity m valueLimits) fun _ _ ↦ .bind ?_ fun _ _ ↦
    .bind ?_ fun _ _ ↦ .bind (Transition.prepare_notCapacity _ _ _) fun _ _ ↦
      .bind (Transition.apply_notCapacity _ _) fun _ _ ↦
        .bind (Codec.snapshot?_notCapacity _ _) fun _ _ ↦ notCapacity_ok _
  · unfold revisionGate
    split
    · split
      · exact failsWith_check rfl
      · exact failsWith_error rfl
    · split
      · exact failsWith_error rfl
      · split
        · exact failsWith_error rfl
        · exact failsWith_check rfl
  · unfold availabilityGate
    split
    · exact notCapacity_ok _
    · exact failsWith_check rfl

theorem applyOne_notCapacity (previous : Option Job) (m : Mutation) (nextOrder : ℕ)
    (limits : CandidateLimits) (valueLimits : Value.Limits) :
    NotCapacity (applyOne vm previous m nextOrder limits valueLimits) := by
  unfold applyOne
  refine .bind ?_ fun next _ ↦ ?_
  · rw [apply_eq]
    refine .bind (transitionJob_notCapacity _ _ _ _) fun _ _ ↦ .bind ?_ fun _ _ ↦ notCapacity_ok _
    exact .bind (Transition.charge_notCapacity vm _ _ _) fun _ _ ↦
      .bind (memoryCheck_notCapacity _ _) fun _ _ ↦ notCapacity_ok _
  · split
    · exact notCapacity_ok _
    · exact failsWith_error rfl

end Reducer

theorem Auxiliary.reduce_notCapacity (vm : Runtime) (c : Candidate) (e : AuxEvent)
    (sequence : ℕ) : NotCapacity (Auxiliary.reduce vm c e sequence) := by
  have hadvance : ∀ id dueAt nextAt, NotCapacity (Auxiliary.advance c e id dueAt nextAt sequence) := by
    intro id dueAt nextAt
    unfold Auxiliary.advance
    split
    · exact failsWith_error rfl
    · iterate 3 refine .bind (failsWith_check rfl) fun _ _ ↦ ?_
      exact notCapacity_ok _
  have hrestate : ∀ k, NotCapacity (Auxiliary.restate c e k) := fun k ↦
    .bind (failsWith_check rfl) fun _ _ ↦ notCapacity_ok _
  have hupdate : ∀ c' id f, NotCapacity (Auxiliary.update c' id f) := by
    intro c' id f
    unfold Auxiliary.update
    split
    · exact notCapacity_ok _
    · exact failsWith_error rfl
  refine .bind (auxEncode_notCapacity _ _ _) fun _ _ ↦ .bind (failsWith_check rfl) fun _ _ ↦
    .bind ?_ fun _ _ ↦ .bind (memoryCheck_notCapacity _ _) fun _ _ ↦ notCapacity_ok _
  unfold Auxiliary.applyEvent
  split
  · exact .bind (failsWith_check rfl) fun _ _ ↦ notCapacity_ok _
  · exact hadvance _ _ _
  · exact hrestate _
  · exact .bind (hrestate _) fun _ _ ↦ hupdate _ _ _
  · exact .bind (hadvance _ _ _) fun _ _ ↦ hupdate _ _ _
  · split
    · exact failsWith_error rfl
    · exact .bind (failsWith_check rfl) fun _ _ ↦ notCapacity_ok _
  · split
    · exact failsWith_error rfl
    · exact .bind (failsWith_check rfl) fun _ _ ↦ .bind (failsWith_check rfl) fun _ _ ↦
        notCapacity_ok _

/-! ## Commits -/

namespace Engine

open Transition ProjectionState

/-- The writer stands where the engine believes it does: it reports an exhausted coordinate only
when the engine's own coordinates are exhausted, and knows no other capacity limit. -/
structure Environment.Follows (env : Environment) (s : State) : Prop where
  sequence : ∀ payload, env.append payload = .error .sequenceExhausted → maxId < s.nextSequence
  segmentId : ∀ payload, env.append payload = .error .segmentIdExhausted →
    maxId < (expectedPosition s payload.bytes).segmentId
  limits : ∀ payload key, env.append payload = .error (.resourceLimit key) →
    (Reason.resourceLimit key).capacity = false

variable (vm : Runtime)

theorem accountActive_notCapacity (s : State) (previous : Option Job) (job : Job)
    (mode : Durability) : NotCapacity (accountActive vm s previous job mode) :=
  .bind (account_notCapacity vm _ _ _ _ _) fun _ _ ↦ notCapacity_ok _

theorem ensureActiveAccounting_notCapacity (s : State) : NotCapacity (ensureActiveAccounting s) :=
  .bind (failsWith_check rfl) fun _ _ ↦ notCapacity_ok _

theorem adopt_notCapacity (s : State) (stats : OnlineCheckpoint.Stats) (retention : Retention)
    (admits : ℤ → Bool) : NotCapacity (OnlineCheckpoint.adopt vm s stats retention admits) := by
  have hpurge : ∀ entry t, NotCapacity
      (OnlineCheckpoint.purgeStep retention stats.capturedAt t entry) := by
    intro entry t
    simp only [OnlineCheckpoint.purgeStep]
    split
    · refine .bind ?_ fun b _ ↦ ?_
      · refine .bind (failsWith_check rfl) fun _ _ ↦ .bind (failsWith_check rfl) fun _ _ ↦ ?_
        split <;> exact notCapacity_ok _
      · split <;> exact notCapacity_ok _
    · exact notCapacity_ok _
  unfold OnlineCheckpoint.adopt
  refine .bind (failsWith_fold hpurge _ _) fun _ _ ↦ ?_
  split
  · exact failsWith_error rfl
  · exact .bind (failsWith_check rfl) fun _ _ ↦ notCapacity_ok _

/-- Headroom that has just been checked leaves the writer a coordinate. -/
theorem appendRecord_notCapacity {s : State} {payload : Payload} {env : Environment} {reserve : ℤ}
    (hfollows : env.Follows s) (hreserve : 0 ≤ reserve)
    (hroom : headroom s payload.bytes reserve = .ok ()) :
    NotCapacity (appendRecord vm s payload env) := by
  simp only [headroom, check_bind_eq_ok, decide_eq_true_eq] at hroom
  obtain ⟨hsequence, hsegment, -⟩ := hroom
  unfold appendRecord
  split
  · exact notCapacity_ok _
  case h_2 reason happend =>
    apply failsWith_error
    by_contra hcapacity
    rcases reason with key | _ | _ | _ | _ | _ | _ | _ | _ | _ <;> try exact hcapacity rfl
    · exact hcapacity (hfollows.limits payload key happend)
    · have := hfollows.sequence payload happend
      omega
    · have := hfollows.segmentId payload happend
      omega
  · split
    · exact .bind (adopt_notCapacity vm _ _ _ _) fun _ _ ↦ notCapacity_ok _
    · exact failsWith_error rfl

theorem commitUnknown_notCapacity {α : Type} {x : Except Reason α} (h : NotCapacity x) :
    NotCapacity (x.mapError commitUnknown) := by
  cases x with
  | ok a => exact notCapacity_ok _
  | error r =>
    apply failsWith_error
    have hr := h r rfl
    unfold commitUnknown
    split
    · exact hr
    · exact hr
    · rfl

/-- A job commit that has headroom is not refused for capacity. -/
theorem commitV2_notCapacity {s : State} {previous : Option Job} {e : JobEvent} {env : Environment}
    (hfollows : env.Follows s)
    (hreserve : 0 ≤ reservationAfter s.persistentSettlementReserve previous e.body)
    (hroom : ∀ m, Mutation.fromEvent e previous s.nextAvailabilityOrder = .ok m →
      headroom s (Payload.mutation m).bytes
        (reservationAfter s.persistentSettlementReserve previous e.body) = .ok ()) :
    NotCapacity (commitV2 vm s previous e env) := by
  unfold commitV2
  refine .bind ?_ fun p hp ↦ ?_
  · unfold prepareV2
    refine .bind ?_ fun m hm ↦ .bind (Codec.encodeMutation_notCapacity _ _) fun payload hpayload ↦
      .bind (Reducer.applyOne_notCapacity vm _ _ _ _ _) fun _ _ ↦ .bind ?_ fun _ _ ↦
        .bind (accountActive_notCapacity vm _ _ _ _) fun _ _ ↦ notCapacity_ok _
    · refine .bind ?_ fun _ _ ↦ notCapacity_ok _
      unfold Mutation.translate
      split
      case h_3 =>
        split
        · exact notCapacity_ok _
        · exact failsWith_error rfl
      all_goals exact notCapacity_ok _
    · cases encodeMutation_eq_ok hpayload
      rw [show (Codec.mutationPayload m).length = (Payload.mutation m).bytes from rfl, hroom m hm]
      exact notCapacity_ok _
  · have hspec := prepareV2_spec vm hp
    refine .bind (failsWith_check rfl) fun _ _ ↦ .bind (commitUnknown_notCapacity ?_) fun _ _ ↦
      .bind (failsWith_check rfl) fun _ _ ↦ .bind (accountActive_notCapacity vm _ _ _ _) fun _ _ ↦
        .bind (ensureActiveAccounting_notCapacity _) fun _ _ ↦ notCapacity_ok _
    exact appendRecord_notCapacity vm hfollows hreserve (hroom _ hspec.mutation)

/-- A persistent auxiliary commit that has headroom is not refused for capacity. -/
theorem commitPersistentAuxiliary_notCapacity {s : State} {e : AuxEvent} {job : Option Job}
    {env : Environment} (hfollows : env.Follows s) (hreserve : 0 ≤ s.persistentSettlementReserve)
    (hroom : headroom s (Payload.auxiliary e).bytes s.persistentSettlementReserve = .ok ()) :
    NotCapacity (commitPersistentAuxiliary vm s e job env) := by
  unfold commitPersistentAuxiliary
  refine .bind ?_ fun _ _ ↦ .bind (failsWith_check rfl) fun _ _ ↦
    .bind (appendRecord_notCapacity vm hfollows hreserve hroom) fun _ _ ↦
      .bind (failsWith_check rfl) fun _ _ ↦ ?_
  · refine .bind (auxEncode_notCapacity _ _ _) fun payload hpayload ↦
      .bind (Auxiliary.reduce_notCapacity vm _ _ _) fun _ _ ↦ .bind ?_ fun _ _ ↦ notCapacity_ok _
    cases encodeAux_eq_ok hpayload
    rw [show e.toValue.wire.length = (Payload.auxiliary e).bytes from rfl, hroom]
    exact notCapacity_ok _
  · unfold finishAuxiliary
    split
    · exact failsWith_error rfl
    · exact notCapacity_ok _

end Engine

end Tay
