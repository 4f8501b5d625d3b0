import Tay.Engine.Insertion
import Tay.Engine.Placement
import Tay.Storage.Numbering

/-!
# Every outcome can be recorded

The end of an execution is one event, and the engine exits if it is refused. The event is built in
`Outcome` and `Retry`, from the job, the outcome, the time and the random source, and is then checked
twice against bounds that are written elsewhere: by the validator of events and by `Transition`.

Both agree to it. The job was stored as a snapshot, so its id, its revision, its attempt and its
execution are within the bounds of the fields they are copied to, and the limits under which its
definition was encoded also cover the event, which has fewer nodes and shorter strings than any
definition. What is drawn is at most the jitter that the interval of `V2` allows for, and both are cut
off at the same last time.
-/

open Foundation

namespace Tay

open V2

/-! ## Drawing -/

namespace Retry

/-- The samples below this one are accepted. -/
def cutoff (maximum : ℕ) : ℕ := sampleSpace - sampleSpace % (maximum + 1)

/-- If there is jitter to draw, the source gives an acceptable sample within the draws that are made. -/
def Yields (maximum : ℕ) (draws : List UInt16) : Prop :=
  maximum ≠ 0 → ∃ n < maxDraws, ∃ x, draws[n]? = some x ∧ x.toNat < cutoff maximum

theorem sample_ok {count bound : ℕ} (hcount : 0 < count) {remaining : ℕ} :
    ∀ {draws : List UInt16}, (∃ n < remaining, ∃ x, draws[n]? = some x ∧ x.toNat < bound) →
      ∃ r < count, sample count bound remaining draws = .ok r := by
  induction remaining with
  | zero =>
    rintro draws ⟨n, hn, -⟩
    cases hn
  | succ remaining ih =>
    rintro draws ⟨n, hn, x, hx, hlt⟩
    cases draws with
    | nil => cases hx
    | cons y draws =>
      unfold sample
      split
      case isTrue hy => exact ⟨y.toNat % count, Nat.mod_lt _ hcount, rfl⟩
      case isFalse hy =>
        -- the first sample is refused, so the acceptable one comes later
        cases n with
        | zero =>
          cases hx
          exact absurd hlt hy
        | succ n => exact ih ⟨n, Nat.lt_of_succ_lt_succ hn, x, hx, hlt⟩

theorem jitter_ok {maximum : ℕ} {draws : List UInt16} (h : Yields maximum draws) :
    ∃ j ≤ maximum, jitter maximum draws = .ok j := by
  by_cases hzero : maximum = 0
  · exact ⟨0, Nat.zero_le _, if_pos (beq_iff_eq.mpr hzero)⟩
  · obtain ⟨j, hj, hsample⟩ := sample_ok (Nat.succ_pos maximum) (h hzero)
    exact ⟨j, Nat.le_of_lt_succ hj, (if_neg fun heq ↦ hzero (beq_iff_eq.mp heq)).trans hsample⟩

/-- What a job must be for `Outcome` and `Retry` to accept it. -/
structure Context (job : Job) (timestamp : ℕ) : Prop where
  timestamp : time? timestamp = true
  attempt : attempt? job.attempt = true
  maxAttempts : attempt? job.definition.maxAttempts = true
  attempt_le : job.attempt ≤ job.definition.maxAttempts
  policy : job.definition.retryPolicy = policy

/-- **The due time lies in the interval.** -/
theorem dueAt_ok {job : Job} {timestamp : ℕ} {draws : List UInt16} (h : Context job timestamp)
    (hdraws : Yields (retryJitterMax (retryDelay job.attempt)) draws) :
    ∃ due, dueAt job timestamp draws = .ok due ∧ (retryInterval timestamp job.attempt).1 ≤ due ∧
      due ≤ (retryInterval timestamp job.attempt).2 ∧ due ≤ maxTime := by
  obtain ⟨j, hj, hjitter⟩ := jitter_ok hdraws
  refine ⟨min maxTime (timestamp + retryDelay job.attempt + j), ?_, ?_, ?_, min_le_left _ _⟩
  · simp only [dueAt, h.timestamp, h.attempt, h.maxAttempts, h.attempt_le, h.policy, beq_self_eq_true,
      decide_true, Bool.and_self, check_true, ok_bind, hjitter, pure_eq_ok]
  · exact min_le_min_left _ (Nat.le_add_right _ j)
  · exact min_le_min_left _ (Nat.add_le_add_left hj _)

end Retry

/-! ## The event -/

namespace Outcome

/-- The outcomes the engine produces. -/
def produced? : Normalized → Bool
  | .failure code => [1, 2, 3, 4, 6].contains code
  | .success | .timeout | .interrupted => true

variable {outcome : Normalized}

theorem classify_ok (h : produced? outcome = true) : ∃ c, classify outcome = .ok c := by
  rcases outcome with _ | code | _ | _
  · exact ⟨_, rfl⟩
  · exact ⟨_, if_pos h⟩
  · exact ⟨_, rfl⟩
  · exact ⟨_, rfl⟩

/-- The outcome, the disposition and the diagnostic are one of the combinations that an event may have. -/
theorem finish?_classify {c : ℕ × Option Diagnostic} (hc : classify outcome = .ok c) (attempt maximum : ℕ) :
    finish? c.1 (disposition outcome attempt maximum).1 c.2 = true := by
  rcases outcome with _ | code | _ | _ <;> simp only [classify] at hc
  · cases hc
    rfl
  · split at hc
    case isTrue hcode =>
      cases hc
      simp only [finish?, disposition, hcode]
      split <;> rfl
    case isFalse => cases hc
  · cases hc
    simp only [finish?, disposition]
    split <;> rfl
  · cases hc
    rfl

/-- `Outcome` and `Transition` decide alike what follows. -/
theorem expectedFinish_classify {c : ℕ × Option Diagnostic} (hc : classify outcome = .ok c) (job : Job) :
    Transition.expectedFinish job c.1 = disposition outcome job.attempt job.definition.maxAttempts := by
  rcases outcome with _ | code | _ | _ <;> simp only [classify] at hc
  · cases hc
    rfl
  · split at hc
    · cases hc
      rfl
    · cases hc
  · cases hc
    rfl
  · cases hc
    rfl

/-- A retry has a next attempt, within the attempts of the job; any other end has none. -/
theorem disposition_next {attempt maximum : ℕ} (hpos : 1 ≤ attempt) (hle : attempt ≤ maximum) :
    if (disposition outcome attempt maximum).1 = 1 then
      ∃ n, (disposition outcome attempt maximum).2 = some n ∧ 1 ≤ n ∧ n ≤ maximum
    else (disposition outcome attempt maximum).2 = none := by
  rcases outcome with _ | code | _ | _ <;> simp only [disposition]
  case success => simp
  case interrupted => simpa using ⟨hpos, hle⟩
  all_goals
    by_cases hlt : attempt < maximum
    · simp only [if_pos hlt, if_true]
      exact ⟨attempt + 1, rfl, Nat.le_add_left 1 _, hlt⟩
    · simp [hlt]

end Outcome

namespace Codec

/-- What a definition costs at the least: the keys of its map and of its retry policy. -/
theorem definition_costs (d : Definition) :
    24 ≤ d.toValue.cost.nodes ∧ 118 ≤ d.toValue.cost.strings := by
  simp only [Definition.toValue, RetryPolicy.toValue, Value.record, List.map_cons, List.map_nil, Value.cost,
    Value.cost.costMap, Value.cost_nat, Value.cost_opt_nat, Value.Cost.enclosed, Value.Cost.beside,
    Value.Cost.leaf, Value.Cost.binary, Value.Cost.empty,
    show (text "definition_version").length = 18 from by decide,
    show (text "max_attempts").length = 12 from by decide,
    show (text "queue_key").length = 9 from by decide,
    show (text "retry_policy").length = 12 from by decide,
    show (text "scheduled_at").length = 12 from by decide,
    show (text "timeout_ms").length = 10 from by decide,
    show (text "worker_key").length = 10 from by decide,
    show (text "args").length = 4 from by decide,
    show (text "base_ms").length = 7 from by decide,
    show (text "cap_ms").length = 6 from by decide,
    show (text "jitter_divisor").length = 14 from by decide,
    show (text "version").length = 7 from by decide]
  omega

end Codec

namespace Outcome

open Retry

/-- The event of an outcome. -/
def finish (job : Job) (c : ℕ × Option Diagnostic) (d : ℕ × Option ℕ) (timestamp : ℕ) (due : Option ℕ) :
    JobEvent :=
  ⟨job.id, job.revision, timestamp, .finished c.2 d.1 job.execution d.2 due c.1⟩

/-- An event that ends an execution costs less than the definition of a job, but for its bytes. -/
theorem cost_finish (job : Job) (c : ℕ × Option Diagnostic) (d : ℕ × Option ℕ) (timestamp : ℕ)
    (due : Option ℕ) : (finish job c d timestamp due).toValue.cost.height ≤ 3 ∧
      (finish job c d timestamp due).toValue.cost.nodes ≤ 23 ∧
      (finish job c d timestamp due).toValue.cost.strings ≤ 118 ∧
      (finish job c d timestamp due).toValue.cost.bytes ≤ 500 := by
  have hdiagnostic : (Value.opt Diagnostic.toValue c.2).cost.height ≤ 2 ∧
      (Value.opt Diagnostic.toValue c.2).cost.nodes ≤ 5 ∧
      (Value.opt Diagnostic.toValue c.2).cost.strings ≤ 11 ∧
      (Value.opt Diagnostic.toValue c.2).cost.bytes ≤ 44 := by
    cases c.2 with
    | none => decide
    | some d =>
      simp only [Value.opt, Diagnostic.toValue, Value.record, List.map_cons, List.map_nil, Value.cost,
        Value.cost.costMap, Value.cost_nat, Value.Cost.enclosed, Value.Cost.beside, Value.Cost.leaf,
        Value.Cost.binary, Value.Cost.empty, show (text "code").length = 4 from by decide,
        show (text "version").length = 7 from by decide]
      omega
  have hopt : ∀ o : Option ℕ, (if o.isSome then 9 else 1) ≤ 9 := by
    intro o
    split <;> decide
  have h1 := hopt job.execution
  have h2 := hopt d.2
  have h3 := hopt due
  simp only [finish, JobEvent.toValue, idValue, Value.record, List.map_cons, List.map_nil, Value.cost,
    Value.cost.costMap, Value.cost_nat, Value.cost_opt_nat, Value.Cost.enclosed, Value.Cost.beside,
    Value.Cost.leaf, Value.Cost.binary, Value.Cost.empty, Value.bigEndian_length,
    show (text "at").length = 2 from by decide, show (text "diagnostic").length = 10 from by decide,
    show (text "disposition").length = 11 from by decide,
    show (text "execution_token").length = 15 from by decide,
    show (text "expected_revision").length = 17 from by decide,
    show (text "job_id").length = 6 from by decide, show (text "next_attempt").length = 12 from by decide,
    show (text "next_due_at").length = 11 from by decide, show (text "outcome").length = 7 from by decide]
  omega

variable {job : Job} {limits : Value.Limits} {timestamp : ℕ} {draws : List UInt16}

/-- A stored job that is running has what `Outcome` asks of it. -/
theorem context_of_snapshot (hfields : Codec.Fields job limits) (hshape : Codec.Shape job)
    (hstate : job.state = .executing) (htime : time? timestamp = true) :
    Context job timestamp ∧ sequence? job.revision = true ∧
      ∃ token, job.execution = some token ∧ sequence? token = true := by
  have hcredible := hshape.credible
  simp only [Codec.credibleState?, hstate, Bool.and_eq_true, decide_eq_true_eq, beq_iff_eq] at hcredible
  obtain ⟨⟨⟨hpos, -⟩, hexecution⟩, -⟩ := hcredible
  have hdefinition := hfields.definition
  simp only [definition?, Bool.and_eq_true, beq_iff_eq] at hdefinition
  obtain ⟨⟨⟨⟨⟨⟨⟨-, hmaximum⟩, -⟩, -⟩, hpolicy⟩, -⟩, -⟩, -⟩ := hdefinition
  have hattempt : attempt? job.attempt = true := by
    simp only [attempt?, Bool.and_eq_true, decide_eq_true_eq] at hmaximum ⊢
    exact ⟨hpos, hfields.attempt.trans hmaximum.2⟩
  exact ⟨⟨htime, hattempt, hmaximum, hfields.attempt, hpolicy⟩, hfields.revision, _, hexecution,
    (hfields.execution _ hexecution).1⟩

/-- The event is built. A source is asked only for a retry. -/
theorem event_ok (hid : id? job.id = true) (hcontext : Context job timestamp)
    (hrevision : sequence? job.revision = true)
    (hexecution : ∃ token, job.execution = some token ∧ sequence? token = true)
    (hstate : job.state = .executing) (houtcome : produced? outcome = true)
    (hdraws : (disposition outcome job.attempt job.definition.maxAttempts).1 = 1 →
      Yields (retryJitterMax (retryDelay job.attempt)) draws) :
    ∃ c due, classify outcome = .ok c ∧
      event job outcome timestamp draws = .ok (finish job c
        (disposition outcome job.attempt job.definition.maxAttempts) timestamp due) ∧
      if (disposition outcome job.attempt job.definition.maxAttempts).1 = 1 then
        ∃ t, due = some t ∧ (retryInterval timestamp job.attempt).1 ≤ t ∧
          t ≤ (retryInterval timestamp job.attempt).2 ∧ t ≤ maxTime
      else due = none := by
  obtain ⟨c, hc⟩ := classify_ok houtcome
  obtain ⟨token, htoken, hsequence⟩ := hexecution
  have hany : job.execution.any sequence? = true := by rw [htoken, Option.any_some, hsequence]
  have hevent : ∀ due, dueAt (disposition outcome job.attempt job.definition.maxAttempts).1 job timestamp
      draws = .ok due → event job outcome timestamp draws = .ok (finish job c
        (disposition outcome job.attempt job.definition.maxAttempts) timestamp due) := by
    intro due hdue
    simp only [event, hstate, hid, hrevision, hany, hcontext.timestamp, hcontext.attempt,
      hcontext.maxAttempts, hcontext.attempt_le, hcontext.policy, beq_self_eq_true, decide_true,
      Bool.and_self, check_true, ok_bind, hc, hdue, pure_eq_ok, finish]
  by_cases hretry : (disposition outcome job.attempt job.definition.maxAttempts).1 = 1
  · obtain ⟨t, ht, hbounds⟩ := dueAt_ok hcontext (hdraws hretry)
    refine ⟨c, some t, hc, hevent _ ?_, ?_⟩
    · simp only [dueAt, hretry, beq_self_eq_true, if_true, ht]
      rfl
    · rw [if_pos hretry]
      exact ⟨t, rfl, hbounds⟩
  · refine ⟨c, none, hc, hevent _ ?_, ?_⟩
    · simp only [dueAt, beq_iff_eq, if_neg hretry]
    · rw [if_neg hretry]

/-- What the event must be for the validator of events, apart from the job and its limits. -/
structure Planned (job : Job) (c : ℕ × Option Diagnostic) (d : ℕ × Option ℕ) (due : Option ℕ) : Prop where
  finish : finish? c.1 d.1 c.2 = true
  next : if d.1 = 1 then ∃ n, d.2 = some n ∧ 1 ≤ n ∧ n ≤ job.definition.maxAttempts else d.2 = none
  due : if d.1 = 1 then ∃ t, due = some t ∧ t ≤ maxTime else due = none

variable {c : ℕ × Option Diagnostic} {d : ℕ × Option ℕ} {due : Option ℕ}

theorem Planned.attempts (h : Planned job c d due) (hcontext : Context job timestamp) (n : ℕ)
    (hn : d.2 = some n) : attempt? n = true := by
  have hnext := h.next
  have hmaximum := hcontext.maxAttempts
  simp only [attempt?, Bool.and_eq_true, decide_eq_true_eq] at hmaximum ⊢
  split at hnext
  · obtain ⟨m, hm, hpos, hle⟩ := hnext
    rw [hm] at hn
    cases hn
    exact ⟨hpos, hle.trans hmaximum.2⟩
  · rw [hnext] at hn
    cases hn

theorem Planned.times (h : Planned job c d due) (t : ℕ) (ht : due = some t) : t ≤ maxTime := by
  have hdue := h.due
  split at hdue
  · obtain ⟨u, hu, hle⟩ := hdue
    rw [hu] at ht
    cases ht
    exact hle
  · rw [hdue] at ht
    cases ht

/-- The event passes the validator. -/
theorem validateJob_finish (hid : id? job.id = true) (hcontext : Context job timestamp)
    (hrevision : sequence? job.revision = true)
    (hexecution : ∃ token, job.execution = some token ∧ sequence? token = true)
    (h : Planned job c d due) : validateJob (finish job c d timestamp due) = true := by
  obtain ⟨token, htoken, hsequence⟩ := hexecution
  have hnext := h.next
  have hdue := h.due
  have hfields : jobFields? (finish job c d timestamp due) = true := by
    simp only [jobFields?, finish, htoken, Option.any_some, hsequence, h.finish, Bool.true_and]
    by_cases hretry : d.1 = 1
    · rw [if_pos hretry] at hnext hdue
      obtain ⟨n, hn, -⟩ := hnext
      obtain ⟨t, ht, hle⟩ := hdue
      rw [if_pos (beq_iff_eq.mpr hretry), hn, ht, Option.any_some, Option.any_some,
        h.attempts hcontext n hn, Bool.true_and]
      exact decide_eq_true hle
    · rw [if_neg hretry] at hnext hdue
      rw [if_neg fun heq ↦ hretry (beq_iff_eq.mp heq), hnext, hdue]
      rfl
  simp only [validateJob, hfields, Bool.and_true, Bool.and_eq_true]
  exact ⟨⟨hcontext.timestamp, hid⟩, hrevision⟩

/-- Its numbers are of 64 bits. -/
theorem writable_finish (hcontext : Context job timestamp) (hrevision : sequence? job.revision = true)
    (hexecution : ∃ token, job.execution = some token ∧ sequence? token = true)
    (h : Planned job c d due) : (finish job c d timestamp due).toValue.writable = true := by
  have hsequence : ∀ {n : ℕ}, sequence? n = true → n ≤ maxSequence := by
    intro n hn
    simp only [sequence?, Bool.and_eq_true, decide_eq_true_eq] at hn
    exact hn.2
  have hexecutions : ∀ n, job.execution = some n → n ≤ maxSequence := by
    intro n hn
    obtain ⟨token, htoken, htoken'⟩ := hexecution
    rw [htoken] at hn
    cases hn
    exact hsequence htoken'
  have hattempts : ∀ n, d.2 = some n → n ≤ maxSequence := by
    intro n hn
    have hattempt := h.attempts hcontext n hn
    simp only [attempt?, Bool.and_eq_true, decide_eq_true_eq] at hattempt
    exact hattempt.2.trans (by decide)
  have htimes : ∀ n, due = some n → n ≤ maxSequence := fun n hn ↦ (h.times n hn).trans (by decide)
  have htime : timestamp ≤ maxSequence := (of_decide_eq_true hcontext.timestamp).trans (by decide)
  obtain ⟨hdisposition, houtcome, hdiagnostic⟩ : d.1 ≤ maxSequence ∧ c.1 ≤ maxSequence ∧
      (Value.opt Diagnostic.toValue c.2).writable = true := by
    have hfinish := h.finish
    cases hdiagnostic : c.2 with
    | none =>
      simp only [hdiagnostic, finish?, Bool.and_eq_true, beq_iff_eq] at hfinish
      exact ⟨hfinish.2.trans_le (Nat.zero_le _), hfinish.1.trans_le (Nat.zero_le _), rfl⟩
    | some v =>
      simp only [hdiagnostic, finish?, Bool.and_eq_true, Bool.or_eq_true, beq_iff_eq, List.contains_eq_mem,
        List.mem_cons, List.not_mem_nil, or_false, decide_eq_true_eq] at hfinish
      have hcode : (Value.nat v.code).writable = true := Value.writable_nat (by unfold maxSequence; omega)
      have hversion : (Value.nat v.version).writable = true := Value.writable_nat (by unfold maxSequence; omega)
      refine ⟨by unfold maxSequence; omega, by unfold maxSequence; omega, ?_⟩
      simp only [Value.opt, Diagnostic.toValue, Value.record, List.map_cons, List.map_nil, Value.writable,
        Value.writable.writableMap, Value.isBinary, hcode, hversion, Bool.and_eq_true]
      decide
  simp only [finish, JobEvent.toValue, idValue, Value.record, List.map_cons, List.map_nil, Value.writable,
    Value.writable.writableMap, Value.isBinary, Value.writable_nat htime, hdiagnostic,
    Value.writable_nat hdisposition, Value.writable_opt_nat hexecutions,
    Value.writable_nat (hsequence hrevision), Value.writable_opt_nat hattempts, Value.writable_opt_nat htimes,
    Value.writable_nat houtcome, Bool.and_eq_true]
  decide

/-- The limits under which the definition was encoded cover the event. -/
theorem encode_finish (hfields : Codec.Fields job limits) (hcontext : Context job timestamp)
    (hexecution : ∃ token, job.execution = some token ∧ sequence? token = true)
    (h : Planned job c d due) : ∃ payload,
      (finish job c d timestamp due).encode limits Value.maxBytes = .ok payload := by
  obtain ⟨⟨hlimits, hmax, -, hdepth, hcount, hstrings, -⟩, -⟩ := Value.encode_eq_ok.mp hfields.bytes
  obtain ⟨hnodes, hkeys⟩ := Codec.definition_costs job.definition
  have hheight := Codec.three_le_height job.definition
  obtain ⟨h1, h2, h3, h4⟩ := cost_finish job c d timestamp due
  have hencode : (finish job c d timestamp due).toValue.encode limits Value.maxBytes =
      .ok (finish job c d timestamp due).toValue.wire :=
    Value.encode_eq_ok.mpr ⟨⟨hlimits, hmax, writable_finish hcontext hfields.revision hexecution h,
      by omega, by omega, by omega, h4.trans (by decide)⟩, rfl⟩
  obtain ⟨measured, hmeasured, -⟩ := bind_eq_ok.mp hencode
  refine ⟨(finish job c d timestamp due).toValue.wire, ?_⟩
  simp only [JobEvent.encode, hmeasured, ok_bind, hencode,
    validateJob_finish hfields.id hcontext hfields.revision hexecution h, check_true]

/-- What it takes for an event to be the record of an outcome: the validator passes it, `Transition` accepts
it on the job, at whatever position follows the job's, a retry is due in the interval and in time, and so
the reducer makes the transition, unless the revisions of the job are used up. -/
structure Recorded (limits : Value.Limits) (job : Job) (e : JobEvent) : Prop where
  valid : validateJob e = true
  accepted : ∃ q, Transition.prepare (some (Reducer.toV1 job)) e limits = .ok q ∧
    ∀ sequence, sequence? sequence = true → job.revision < sequence →
      ∃ next, Transition.apply q sequence = .ok next
  due : ∀ diagnostic disposition token nextAttempt due code,
    e.body = .finished diagnostic disposition token nextAttempt (some due) code →
    (retryInterval e.timestamp job.attempt).1 ≤ due ∧ due ≤ (retryInterval e.timestamp job.attempt).2 ∧
      due ≤ maxTime
  reduced : job.revision < maxSequence → ∀ order, ∃ m next,
    Mutation.fromEvent e (some job) order = .ok m ∧
      Reducer.transitionJob (some job) m order limits = .ok next

/-- The event of an outcome is one that `Transition` accepts. -/
theorem prepare_finish (hfields : Codec.Fields job limits) (hcontext : Context job timestamp)
    (hexecution : ∃ token, job.execution = some token ∧ sequence? token = true)
    (hstate : job.state = .executing) (h : Planned job c d due)
    (hexpected : Transition.expectedFinish job c.1 = d)
    (hdue : d.1 = 1 → Transition.validDue? timestamp job.attempt due = true) :
    Transition.prepare (some (Reducer.toV1 job)) (finish job c d timestamp due) limits =
      .ok ⟨some (Reducer.toV1 job), finish job c d timestamp due, job.definitionBytes⟩ := by
  obtain ⟨payload, hpayload⟩ := encode_finish hfields hcontext hexecution h
  have hsame : Transition.expectedFinish (Reducer.toV1 job) c.1 = d := hexpected
  have hrunning : (Reducer.toV1 job).state = .executing := hstate
  have hid : (Reducer.toV1 job).id = job.id := rfl
  have hrevision : (Reducer.toV1 job).revision = job.revision := rfl
  have htoken : (Reducer.toV1 job).execution = job.execution := rfl
  have hvalid : Transition.validPrevious? (some (Reducer.toV1 job)) (finish job c d timestamp due) = true := by
    simp only [Transition.validPrevious?, finish, Transition.validTransition?, hsame, hrunning, hid, hrevision,
      htoken, beq_self_eq_true, Bool.true_and]
    split
    case isTrue hretry => exact hdue (beq_iff_eq.mp hretry)
    case isFalse => rfl
  simp only [Transition.prepare, hpayload, hvalid, ok_bind, check_true, Transition.definitionBytes, pure_eq_ok]
  rfl

/-- It is applied at every later position, and takes no place in the order of the ready jobs. -/
theorem apply_finish {sequence : ℕ} (hsequence : sequence? sequence = true) (hlt : job.revision < sequence) :
    ∃ next, Transition.apply ⟨some (Reducer.toV1 job), finish job c d timestamp due, job.definitionBytes⟩
      sequence = .ok next ∧ next.availableSequence = job.availabilityOrder := by
  have hposition : (sequence? sequence && decide (job.revision < sequence)) = true := by
    rw [hsequence, decide_eq_true hlt]
    rfl
  exact ⟨_, check_bind_eq_ok.mpr ⟨hposition, rfl⟩, rfl⟩

/-- **Every outcome of a stored job can be recorded.** -/
theorem recorded_of_snapshot (hsnapshot : Codec.snapshot? job limits = .ok ()) (hstate : job.state = .executing)
    (houtcome : produced? outcome = true) (htime : timestamp ≤ maxTime)
    (hdraws : (disposition outcome job.attempt job.definition.maxAttempts).1 = 1 →
      Yields (retryJitterMax (retryDelay job.attempt)) draws) :
    ∃ e, event job outcome timestamp draws = .ok e ∧ Recorded limits job e := by
  obtain ⟨hfields, hshape⟩ := Codec.snapshot?_iff.mp hsnapshot
  obtain ⟨hcontext, hrevision, hexecution⟩ :=
    context_of_snapshot hfields hshape hstate (decide_eq_true htime)
  obtain ⟨c, due, hc, hevent, hdue⟩ :=
    event_ok hfields.id hcontext hrevision hexecution hstate houtcome hdraws
  have hattempt := hcontext.attempt
  simp only [attempt?, Bool.and_eq_true, decide_eq_true_eq] at hattempt
  have hplanned : Planned job c (disposition outcome job.attempt job.definition.maxAttempts) due := by
    refine ⟨finish?_classify hc _ _, disposition_next hattempt.1 hcontext.attempt_le, ?_⟩
    split at hdue
    case isTrue hretry =>
      obtain ⟨t, ht, -, -, hle⟩ := hdue
      rw [if_pos hretry]
      exact ⟨t, ht, hle⟩
    case isFalse hretry =>
      rw [if_neg hretry]
      exact hdue
  have hinterval : ∀ t, due = some t → (retryInterval timestamp job.attempt).1 ≤ t ∧
      t ≤ (retryInterval timestamp job.attempt).2 ∧ t ≤ maxTime := by
    intro t ht
    split at hdue
    · obtain ⟨u, hu, hbounds⟩ := hdue
      rw [hu] at ht
      cases ht
      exact hbounds
    · rw [hdue] at ht
      cases ht
  have hvalidDue : (disposition outcome job.attempt job.definition.maxAttempts).1 = 1 →
      Transition.validDue? timestamp job.attempt due = true := by
    intro hretry
    rw [if_pos hretry] at hdue
    obtain ⟨t, ht, hlow, hhigh, -⟩ := hdue
    simp only [Transition.validDue?, ht, Option.any_some, Bool.and_eq_true, decide_eq_true_eq]
    exact ⟨hlow, hhigh⟩
  have hprepare := prepare_finish hfields hcontext hexecution hstate hplanned
    (expectedFinish_classify hc job) hvalidDue
  refine ⟨_, hevent, validateJob_finish hfields.id hcontext hrevision hexecution hplanned,
    ⟨_, hprepare, fun sequence hsequence hlt ↦ ?_⟩, ?_, fun hlt order ↦ ?_⟩
  · obtain ⟨next, hnext, -⟩ := apply_finish hsequence hlt
    exact ⟨next, hnext⟩
  · intro diagnostic disposition token nextAttempt t code hbody
    cases hbody
    exact hinterval t rfl
  · -- the reducer makes the same transition, under the revision that follows
    have hnumber : sequence? (job.revision + 1) = true := by
      simp only [sequence?, Bool.and_eq_true, decide_eq_true_eq]
      exact ⟨Nat.le_add_left 1 _, hlt⟩
    obtain ⟨next, hnext, havailable⟩ := apply_finish hnumber (Nat.lt_succ_self _)
    have hstored : ∀ p, some job = some p → Codec.snapshot? p limits = .ok () := by
      rintro p ⟨rfl⟩
      exact hsnapshot
    obtain ⟨m, hm, -, -, hadmit⟩ := Reducer.admitJob_simulates order hstored hprepare hnext
    have hnone : next.availableSequence = none := by
      have hfieldsOf := hshape.state
      simp only [Codec.stateFields?, hstate, Bool.and_eq_true, Option.isNone_iff_eq_none] at hfieldsOf
      rw [havailable, hfieldsOf.1.1.2]
    have hadmitted := hadmit fun hsome ↦ by
      rw [hnone] at hsome
      cases hsome
    have hsame : Reducer.transitionJob (some job) m order limits = Reducer.admitJob (some job) m order limits :=
      Reducer.transitionJob_eq_admitJob fun _ hj ↦ Reducer.admitJob_next hsnapshot hj
    exact ⟨m, _, hm, hsame.trans hadmitted⟩

end Outcome

/-! ## Every reachable job -/

namespace Engine

open ProjectionState

variable (vm : Runtime)

/-- The reducer stamps the end of a job with the time of the mutation. -/
theorem transitionJob_terminalAt {previous : Option Job} {m : Mutation} {order : ℕ} {limits : Value.Limits}
    {job : Job} (h : Reducer.transitionJob previous m order limits = .ok job) :
    job.terminalAt = terminalTime job m.timestamp := by
  simp only [Reducer.transitionJob, bind_eq_ok, pure_eq_ok] at h
  obtain ⟨-, -, -, -, -, -, -, -, applied, -, -, -, h⟩ := h
  cases h
  rfl

theorem fromEvent_timestamp {e : JobEvent} {previous : Option Job} {order : ℕ} {m : Mutation}
    (h : Mutation.fromEvent e previous order = .ok m) : m.timestamp = e.timestamp := by
  simp only [Mutation.fromEvent, bind_eq_ok, pure_eq_ok] at h
  obtain ⟨body, -, h⟩ := h
  cases h
  rfl

/-- A volatile commit stores a snapshot as well: the time of the end it sets is the one that is there. -/
theorem commitVolatile_snapshot {s : State} {previous : Option Job} {e : JobEvent} {env : Environment}
    {r : Committed} (h : commitVolatile vm s previous e env = .ok r) :
    Codec.snapshot? r.job s.config.valueLimits = .ok () := by
  simp only [commitVolatile, bind_eq_ok, pure_eq_ok] at h
  obtain ⟨m, hm, -, -, predicted, hpredicted, charged, hcharged, -, -, next, -, h⟩ := h
  cases h
  obtain ⟨job, hjob, hdurable, -⟩ := Reducer.applyOne_eq_ok vm hpredicted
  obtain ⟨ch, hch⟩ := accountActive_charged vm hcharged
  have hterminal := transitionJob_terminalAt hjob
  rw [fromEvent_timestamp hm] at hterminal
  have hsame : ({ charged.1 with terminalAt := terminalTime charged.1 e.timestamp } : Job).durable =
      job.durable := by
    have hstate : predicted.1.durable.state = job.durable.state := by rw [hdurable]
    have htime : terminalTime charged.1 e.timestamp = job.terminalAt := by
      rw [hterminal, hch]
      exact congrArg (fun state : JobState ↦ if state.terminal then some e.timestamp else none) hstate
    rw [htime, hch]
    exact congrArg (fun j : Job ↦ { j with terminalAt := job.terminalAt }) hdurable
  have hforget : ∀ j : Job, Codec.snapshot? j.durable s.config.valueLimits =
      Codec.snapshot? j s.config.valueLimits := fun _ ↦ rfl
  rw [← hforget, hsame, hforget]
  exact Reducer.transitionJob_snapshot hjob

theorem commit_snapshot {s : State} {previous : Option Job} {e : JobEvent} {given : Option Durability}
    {env : Environment} {r : Committed} (h : commit vm s previous e given env = .ok r) :
    Codec.snapshot? r.job s.config.valueLimits = .ok () := by
  unfold commit at h
  split at h
  case h_1 => exact commitVolatile_snapshot vm h
  case h_2 =>
    obtain ⟨-, -, -, -, -, -, hsnapshot⟩ := commitV2_snapshot vm h
    exact hsnapshot

variable {vm} in
/-- The version a message produces is a snapshot. -/
theorem produced_snapshot {s : State} {a : Action} {job : Job} (h : produced vm s a = some job) :
    Codec.snapshot? job s.config.valueLimits = .ok () := by
  unfold produced at h
  split at h
  case h_1 =>
    split at h
    case h_1 => cases h
    case h_2 =>
      obtain ⟨r, hr, rfl⟩ := Option.map_eq_some_iff.mp h
      exact commit_snapshot vm (toOption_eq_some.mp hr)
  case h_2 =>
    split at h
    case h_1 => cases h
    case h_2 =>
      obtain ⟨r, hr, rfl⟩ := Option.map_eq_some_iff.mp h
      exact commit_snapshot vm (toOption_eq_some.mp hr)
  all_goals cases h

/-- No message changes the limits for values. -/
theorem landing_valueLimits {s t : State} {payload : Payload} {env : Environment}
    (h : Landing vm s payload env t) : t.config.valueLimits = s.config.valueLimits := by
  cases h with
  | stay => rfl
  | @switch receipt stats token retention adopted _ _ hadopted =>
    obtain ⟨kept, hconfig⟩ := (adopt_spec vm hadopted).config
    show adopted.config.valueLimits = s.config.valueLimits
    rw [hconfig]

theorem perform_valueLimits {s : State} {op : Op} {env : Environment} {out : State × List Record}
    (hs : Placed s) (h : perform vm s op env = .ok out) :
    out.1.config.valueLimits = s.config.valueLimits := by
  rcases perform_cases vm hs.volatileHot h with
    ⟨e, c, -, -, hc, rfl⟩ | ⟨e, c, -, -, hcommit, rfl⟩ | ⟨e, j, rfl, -, -, haux⟩ | ⟨e, rfl, -, haux⟩
  · exact congrArg Config.valueLimits hc.config
  · obtain ⟨p, base, -, hlanding, hc⟩ := commitV2_landing vm hcommit
    exact (congrArg Config.valueLimits hc.config).trans (landing_valueLimits vm hlanding)
  · simp only [commitVolatileAuxiliary, bind_eq_ok, pure_eq_ok] at haux
    obtain ⟨-, -, c, -, -, -, haux⟩ := haux
    cases haux
    rfl
  · obtain ⟨base, hlanding, hspec⟩ := commitPersistentAuxiliary_landing vm haux
    obtain ⟨c, -, hout⟩ := hspec.reduced
    rw [hout]
    exact (landing_valueLimits vm hlanding : base.config.valueLimits = s.config.valueLimits)

theorem handle_valueLimits {s t : State} {a : Action} (hs : Placed s) (h : handle vm s a = .ok t) :
    t.config.valueLimits = s.config.valueLimits := by
  rcases handle_cases vm h with ⟨op, env, out, -, hperform, rfl⟩ | ⟨token, stats, admits, -, hspec⟩ |
    ⟨rotation, token, retention, -, -, rfl⟩ | ⟨online, rfl⟩
  · exact perform_valueLimits vm hs hperform
  · obtain ⟨retention, hconfig⟩ := hspec.config
    rw [hconfig]
  · rfl
  · rfl

/-- The invariant: the tables are in order, and hold snapshots. -/
structure Sealed (s : State) : Prop where
  placed : Placed s
  snapshots : ∀ id job, lookup s id = some job → Codec.snapshot? job s.config.valueLimits = .ok ()

/-- **The step lemma.** A message stores at most one version, and that is a snapshot. -/
theorem Sealed.handle {s t : State} {a : Action} (hs : Sealed s) (h : Engine.handle vm s a = .ok t) :
    Sealed t := by
  have hlimits := handle_valueLimits vm hs.placed h
  rcases handle_placed hs.placed h with ⟨job, hproduced, hmoves⟩ | ⟨-, hquiet⟩
  · refine ⟨hmoves.placed, fun id stored hstored ↦ ?_⟩
    rw [hlimits]
    rw [hmoves.lookup] at hstored
    split at hstored
    · cases hstored
      exact produced_snapshot hproduced
    · exact hs.snapshots id stored (Option.filter_eq_some_iff.mp hstored).1
  · refine ⟨hquiet.placed, fun id stored hstored ↦ ?_⟩
    rw [hlimits]
    rw [hquiet.lookup] at hstored
    exact hs.snapshots id stored (Option.filter_eq_some_iff.mp hstored).1

/-- A generation on any store that recovers, with or without room for its settlements. -/
def generation : Machine State Action where
  initial s := ∃ d config r segment,
    Reader.recover vm d (candidate config.candidateLimits config.valueLimits) = .ok r ∧
      s = countInterrupted (init config r segment)
  step s a := (Engine.handle vm s a).toOption

/-- Recovery rebuilds a store of snapshots. -/
theorem recover_snapshots {d : Directory} {limits : CandidateLimits} {valueLimits : Value.Limits}
    {r : Reader.Recovered} (h : Reader.recover vm d (candidate limits valueLimits) = .ok r) (id : JobId)
    (job : Job) (hjob : r.candidate.jobs[id]? = some job) : Codec.snapshot? job valueLimits = .ok () := by
  obtain ⟨s, hs, rfl⟩ := (Reader.recover_spec vm h).scanned
  have hlimits : s.candidate.valueLimits = valueLimits := Reader.scan_valueLimits vm hs
  have hjobs := Reader.scan_invariant vm
    (P := fun c ↦ ∀ (id : JobId) (job : Job), c.jobs[id]? = some job →
      Codec.snapshot? job c.valueLimits = .ok ()) ?_ ?_ ?_ (fun _ _ hc ↦ hc) ?_ hs
  · rw [← hlimits]
    exact hjobs id job hjob
  · intro c job c' hc h k stored hstored
    obtain ⟨ch, hc'⟩ := Reducer.insertSnapshot_eq_ok vm h
    simp only [Reducer.insertSnapshot, bind_eq_ok] at h
    obtain ⟨_, hsnapshot, -⟩ := h
    rw [hc'] at hstored ⊢
    rw [Foundation.Table.get_insert] at hstored
    split at hstored
    · cases hstored
      exact hsnapshot
    · exact hc k stored hstored
  · intro c m c' hc h k stored hstored
    obtain ⟨job, ch, hjob, hc'⟩ := Reducer.apply_eq_ok vm h
    rw [hc'] at hstored ⊢
    rw [Foundation.Table.get_insert] at hstored
    split at hstored
    · cases hstored
      exact (Reducer.transitionJob_snapshot hjob : Codec.snapshot? job c.valueLimits = .ok ())
    · exact hc k stored hstored
  · intro c e sequence c' hc h
    obtain ⟨-, -, applied, happlied, hc'⟩ := Auxiliary.reduce_eq_ok vm h
    rw [hc', Auxiliary.applyEvent_frame happlied]
    exact hc
  · intro k stored hstored
    simp [candidate] at hstored

theorem reachable_sealed {s : State} (hs : (generation vm).Reachable s) : Sealed s := by
  refine hs.invariant ?_ fun t a u ht hstep ↦ ht.handle vm (toOption_eq_some.mp hstep)
  rintro t ⟨d, config, r, segment, hr, rfl⟩
  refine ⟨placed_start segment (Reader.recover_sound vm (sound_candidate _ _) hr), fun id job hjob ↦ ?_⟩
  have hstored : r.candidate.jobs[id]? = some job := by
    simp only [lookup, countInterrupted, init, Std.ExtTreeMap.getElem?_filter', Option.or_eq_some_iff,
      Option.filter_eq_some_iff] at hjob
    rcases hjob with h | ⟨-, h⟩
    · exact h.1
    · exact h.1
  exact recover_snapshots vm hr id job hstored

variable {vm} in
/-- **Every outcome can be recorded.** Whatever the engine produces as the outcome of a running job, at
whatever time, the event it builds is valid, `Transition` accepts it, and a retry is due in its interval. -/
theorem outcome_recorded {s : State} (hs : (generation vm).Reachable s) {id : JobId} {job : Job}
    (hjob : lookup s id = some job) (hstate : job.state = .executing) {outcome : Normalized}
    (houtcome : Outcome.produced? outcome = true) {timestamp : ℕ} (htime : timestamp ≤ maxTime)
    {draws : List UInt16}
    (hdraws : (Outcome.disposition outcome job.attempt job.definition.maxAttempts).1 = 1 →
      Retry.Yields (retryJitterMax (retryDelay job.attempt)) draws) :
    ∃ e, Outcome.event job outcome timestamp draws = .ok e ∧ Outcome.Recorded s.config.valueLimits job e :=
  Outcome.recorded_of_snapshot ((reachable_sealed vm hs).snapshots id job hjob) hstate houtcome htime hdraws

namespace Sample

/-- An insertion and a start. -/
def starting : List Action :=
  [.command (.insert ⟨1, 0, 10, .inserted Tay.Sample.definition 10⟩ .persistent) (writer empty),
    .command startFirst (writer inserted)]

end Sample

/-- A job that runs out of time. The first sample that is drawn is refused. -/
theorem outcome_recorded_timeout : ∃ s job e, lookup s 1 = some job ∧
    Outcome.event job .timeout 20 [65535, 600] = .ok e ∧
    Outcome.Recorded s.config.valueLimits job e := by
  have hrun : ((generation Tay.Sample.runtime).run Sample.empty Sample.starting).any (fun s ↦
      (lookup s 1).any fun job ↦ job.state == .executing && job.attempt == 1) = true := by
    decide +kernel
  obtain ⟨s, hs, hjob⟩ := (Option.any_eq_true _ _).mp hrun
  obtain ⟨job, hjob, hcheck⟩ := (Option.any_eq_true _ _).mp hjob
  simp only [Bool.and_eq_true, beq_iff_eq] at hcheck
  have hreachable : (generation Tay.Sample.runtime).Reachable s :=
    Machine.reachable_of_run ⟨⟨Tay.Sample.manifest 0, [⟨1, 1, [], false⟩]⟩, Sample.config,
      Sample.recovered, Sample.segment, by decide +kernel, rfl⟩ hs
  have hdraws : Retry.Yields (retryJitterMax (retryDelay job.attempt)) [65535, 600] := by
    rw [hcheck.2]
    exact fun _ ↦ ⟨1, by decide, 600, rfl, by decide⟩
  obtain ⟨e, he⟩ := @outcome_recorded Tay.Sample.runtime s hreachable 1 job hjob hcheck.1 .timeout rfl 20
    (by decide) [65535, 600] fun _ ↦ hdraws
  exact ⟨s, job, e, hjob, he⟩

end Engine

end Tay
