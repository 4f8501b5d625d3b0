import Tay.Foundation.Run
import Tay.Storage.Recovery
import Tay.Writer.Online

/-!
# One online compaction

The writer of `Tay.Writer.Online` together with the builder process it has started, as one machine.
The builder is `Publisher.catch_up` and what follows it: rounds of polling, the freeze request, the
last records, and the publication of CURRENT. All its native requests go through the writer, which
refuses them once the shared flag is set or the helper is gone.

Appends, polls, the freeze, cancellation and every way of ending are labels, so a run is one
interleaving of them. `Effect` says everything a step can do; what holds over runs is derived from
it in the modules that follow.
-/

open Foundation

namespace Tay.Writer

/-! ## The builder -/

/-- What the builder reports when it ends by itself. -/
inductive BuilderResult
  | ok (published : Published)
  | error (reason : Failure)
  deriving DecidableEq

/-- Where the builder is. `rounds` counts the batches it has taken from the journal. -/
inductive Phase
  /-- Writing the base segments and the manifest. -/
  | building
  | polling (rounds : ℕ)
  /-- Applying a batch; after a small one it asks for the freeze. -/
  | applying (rest : List Payload) (small : Bool) (rounds : ℕ)
  | requesting (rounds : ℕ)
  /-- The freeze is requested and not yet acknowledged. -/
  | waiting
  /-- Applying the last batch. -/
  | finishing (rest : List Payload)
  | publishing
  | done (result : BuilderResult)
  /-- The writer has dealt with the result, or with the builder's death. -/
  | gone
  deriving DecidableEq

/-- `length(records) <= @catch_up_target_events and batch_bytes <= @catch_up_target_bytes`. -/
def small (records : List Payload) : Bool :=
  records.length ≤ catchUpTargetEvents &&
    (records.map fun r ↦ r.bytes + 28).sum ≤ catchUpTargetBytes

/-! ## The compaction -/

/-- The writer, the builder, and what has happened since the compaction began. -/
structure Compaction where
  writer : State
  phase : Phase
  /-- The records the builder has written to the new epoch. -/
  applied : List Payload
  /-- The epoch CURRENT names, once it is the new one. -/
  landed : Option Published
  /-- The number of append calls so far. -/
  calls : ℕ
  /-- The records appended while the compaction was in progress. -/
  appended : List Payload
  /-- The appends that were queued. -/
  queued : List (Caller × Payload)
  /-- Everything the writer has sent. -/
  sent : List Sent
  deriving DecidableEq

/-- Whether a reply to this caller says that its record was written. -/
def acknowledges (sent : List Sent) (caller : Caller) : Bool :=
  sent.any fun
    | .reply c (.ok _) | .reply c (.switched ..) => c == caller
    | _ => false

/-- The callers that have been answered. -/
def repliedTo (sent : List Sent) : List Caller :=
  sent.filterMap fun
    | .reply c _ => some c
    | _ => none

/-- What happens next, with every choice of the environment. -/
inductive Label
  | append (request : Payload) (io : Except Failure Unit)
  /-- The lifecycle cancels the operation. -/
  | cancel
  | built
  | poll
  /-- The builder applies the next record of its batch, or fails to. -/
  | apply (ok : Bool)
  | batchDone
  | freeze
  /-- The engine acknowledges the freeze. -/
  | freezeAck (io : Except Failure Unit)
  /-- The builder asks for CURRENT to be published: whether it lands, and whether the builder learns
  so and can verify it. -/
  | publish (published : Published) (landed verified : Bool)
  | builderFails
  | builderResult (ending : Ending)
  | builderDown (ending : Ending)
  | portExit (closedByOwner : Bool)
  | unsolicited

namespace Compaction

/-- The writer refuses the builder's native requests. -/
def refused (s : Compaction) : Bool := s.writer.poisoned.isSome || s.writer.online.any (·.cancelFlag)

/-- The writer has handled a message. -/
def after (s : Compaction) (r : State × List Sent) : Compaction :=
  { s with writer := r.1, sent := s.sent ++ r.2 }

/-- The compaction ends: the queue is dealt with in the order of arrival. -/
def ended (s : Compaction) (o : Online) (r : State × List Sent) : Compaction :=
  { s.after r with
    phase := .gone
    appended := s.appended ++ (o.pending.reverse.filter (acknowledges r.2 ·.1)).map Prod.snd }

/-- An append call. -/
def append (s : Compaction) (request : Payload) (io : Except Failure Unit) : Compaction :=
  let r := handleAppend s.writer s.calls request io
  { s.after r with
    calls := s.calls + 1
    appended := if s.writer.online.isSome && acknowledges r.2 s.calls then s.appended ++ [request]
      else s.appended
    queued := if s.writer.online.any (·.frozen) && s.writer.admitted then
        s.queued ++ [(s.calls, request)]
      else s.queued }

/-- The phase after one more record of a batch. -/
def advance (s : Compaction) (record : Payload) (phase : Phase) (ok : Bool) : Compaction :=
  if ok && !s.refused then { s with applied := s.applied ++ [record], phase := phase }
  else { s with phase := .done (.error .native) }

/-- The builder asks for CURRENT to be published. A refused request has no effect; the outcome of
one that fails is unknown. -/
def publish (s : Compaction) (published : Published) (landed verified : Bool) : Compaction :=
  if s.refused || !landed then { s with phase := .done (.error .unknownPublicationOutcome) }
  else
    { s with
      landed := some published
      phase := .done (if verified then .ok published else .error .unknownPublicationOutcome) }

end Compaction

open Compaction

/-- One step. Each label is enabled only where the source can be at that point. -/
def step (s : Compaction) : Label → Option Compaction
  | .append request io => some (s.append request io)
  | .cancel =>
    some { s with writer := { s.writer with
      online := s.writer.online.map fun o ↦ { o with cancelFlag := true } } }
  | .built =>
    match s.phase with
    | .building => some { s with phase := .polling 0 }
    | _ => none
  | .poll =>
    match s.phase, s.writer.online with
    | .polling rounds, some o =>
      if o.freezing || o.frozen then none
      else if rounds < catchUpMaxRounds then
        some { s.after (poll s.writer o) with
          phase := .applying o.drain.1 (small o.drain.1) (rounds + 1) }
      else some { s with phase := .done (.error .native) }
    | _, _ => none
  | .apply ok =>
    match s.phase with
    | .applying (record :: rest) small rounds =>
      some (s.advance record (.applying rest small rounds) ok)
    | .finishing (record :: rest) => some (s.advance record (.finishing rest) ok)
    | _ => none
  | .batchDone =>
    match s.phase with
    | .applying [] true rounds => some { s with phase := .requesting rounds }
    | .applying [] false rounds => some { s with phase := .polling rounds }
    | .finishing [] => some { s with phase := .publishing }
    | _ => none
  | .freeze =>
    match s.phase, s.writer.online with
    | .requesting rounds, some o =>
      if o.freezing || o.frozen then none
      else match o.freeze with
        | .catchUp records _ =>
          if rounds < catchUpMaxRounds then
            some { s.after (freeze s.writer o) with phase := .applying records false (rounds + 1) }
          else some { s.after (freeze s.writer o) with phase := .done (.error .native) }
        | .freeze _ => some { s.after (freeze s.writer o) with phase := .waiting }
    | _, _ => none
  | .freezeAck io =>
    match s.phase, s.writer.online with
    | .waiting, some o =>
      if o.freezing && !o.frozen && s.writer.admitted then
        some { s.after (finishFreeze s.writer o io) with
          phase := match io with
            | .ok () => .finishing o.finishFreeze.1
            | .error _ => .done (.error .native) }
      else none
    | _, _ => none
  | .publish published landed verified =>
    match s.phase with
    | .publishing => some (s.publish published landed verified)
    | _ => none
  | .builderFails =>
    match s.phase with
    | .waiting | .done _ | .gone => none
    | _ => some { s with phase := .done (.error .native) }
  | .builderResult ending =>
    match s.phase, s.writer.online with
    | .done (.ok published), some o => some (s.ended o (complete s.writer o published ending))
    | .done (.error reason), some o => some (s.ended o (fail s.writer o reason s.landed ending))
    | _, _ => none
  | .builderDown ending =>
    match s.phase, s.writer.online with
    | .done _, _ | .gone, _ | _, none => none
    | _, some o => some (s.ended o (builderDown s.writer o ending))
  | .portExit closedByOwner => some (s.after (portExit s.writer closedByOwner))
  | .unsolicited => some (s.after (poison s.writer .unsolicitedNativeReply))

/-- Right after `compact_online` has started. -/
def Started (s : Compaction) : Prop :=
  s.writer.poisoned = none ∧ s.writer.admitted = true ∧
    (∃ token, s.writer.online = some (Online.new token)) ∧ s.phase = .building ∧ s.applied = [] ∧
    s.landed = none ∧ s.calls = 0 ∧ s.appended = [] ∧ s.queued = [] ∧ s.sent = []

/-- One online compaction. -/
def machine : Machine Compaction Label where
  initial := Started
  step := step

/-! ## Replies -/

@[simp] theorem repliedTo_append (a b : List Sent) :
    repliedTo (a ++ b) = repliedTo a ++ repliedTo b := List.filterMap_append

@[simp] theorem repliedTo_nil : repliedTo [] = [] := rfl

@[simp] theorem repliedTo_reply (caller : Caller) (reply : Reply) (rest : List Sent) :
    repliedTo (.reply caller reply :: rest) = caller :: repliedTo rest := rfl

@[simp] theorem repliedTo_result (token : ℕ) (result : Result) (rest : List Sent) :
    repliedTo (.result token result :: rest) = repliedTo rest := rfl

@[simp] theorem repliedTo_poison (s : State) (reason : Failure) :
    repliedTo (poison s reason).2 = [] := by
  unfold poison
  split <;> rfl

@[simp] theorem acknowledges_append (a b : List Sent) (caller : Caller) :
    acknowledges (a ++ b) caller = (acknowledges a caller || acknowledges b caller) :=
  List.any_append

/-- Only an answered caller is acknowledged. -/
theorem mem_repliedTo_of_acknowledges {sent : List Sent} {caller : Caller}
    (h : acknowledges sent caller = true) : caller ∈ repliedTo sent := by
  simp only [acknowledges, List.any_eq_true] at h
  obtain ⟨m, hm, h⟩ := h
  rw [repliedTo, List.mem_filterMap]
  refine ⟨m, hm, ?_⟩
  split at h
  · rw [beq_iff_eq.mp h]
  · rw [beq_iff_eq.mp h]
  · cases h

theorem acknowledges_eq_false {sent : List Sent} {caller : Caller}
    (h : caller ∉ repliedTo sent) : acknowledges sent caller = false := by
  by_contra hack
  exact h (mem_repliedTo_of_acknowledges (by simpa using hack))

@[simp] theorem poison_online (s : State) (reason : Failure) :
    (poison s reason).1.online = s.online := by
  unfold poison
  split <;> rfl

theorem poison_poisoned (s : State) (reason : Failure) :
    (poison s reason).1.poisoned ≠ none := by
  unfold poison
  split
  case h_1 previous hs => simp [hs]
  case h_2 => simp

/-- Carrying out an append leaves its reply to the caller, and changes the compaction only by
journaling. -/
theorem mutate_repliedTo (s : State) (request : Payload) (io : Except Failure Unit) :
    repliedTo (mutate s request io).2.2 = [] := by
  unfold mutate
  split
  · rfl
  · split
    · rfl
    · split
      · rfl
      · exact repliedTo_poison _ _

theorem mutate_online_none {s : State} (hs : s.online = none) (request : Payload)
    (io : Except Failure Unit) : (mutate s request io).2.1.online = none := by
  unfold mutate
  split
  · exact hs
  · split
    · exact hs
    · split
      · simp [journalCompaction, append, hs]
      · rw [poison_online, hs]

/-- The queue is answered in order, each call once. -/
theorem resumePending_repliedTo (stats : Option Engine.OnlineCheckpoint.Stats)
    (io : Caller → Except Failure Unit) (pending : List (Caller × Payload)) :
    ∀ (s : State) (delivered : Bool),
      repliedTo (resumePending s stats io delivered pending).2.1 = pending.map Prod.fst := by
  induction pending with
  | nil => exact fun _ _ ↦ rfl
  | cons call pending ih =>
    intro s delivered
    simp only [resumePending, repliedTo_append, repliedTo_reply, mutate_repliedTo, ih,
      List.nil_append, List.map_cons]

theorem resumePending_online (stats : Option Engine.OnlineCheckpoint.Stats)
    (io : Caller → Except Failure Unit) (pending : List (Caller × Payload)) :
    ∀ {s : State} (delivered : Bool), s.online = none →
      (resumePending s stats io delivered pending).1.online = none := by
  induction pending with
  | nil => exact fun _ hs ↦ hs
  | cons call pending ih =>
    intro s delivered hs
    exact ih _ (mutate_online_none hs _ _)

/-! ## How a compaction ends -/

/-- The two ways a compaction ends: the writer is back on a segment and has answered the queue, or
it is poisoned and the queue is left where it was. -/
inductive Ends (s : State) (o : Online) (r : State × List Sent) : Prop
  | resumed : r.1.online = none → repliedTo r.2 = o.pending.reverse.map Prod.fst → Ends s o r
  | abandoned : r.1.online = s.online → r.1.poisoned ≠ none → repliedTo r.2 = [] → Ends s o r

theorem giveUp_abandoned (s : State) (o : Online) (reason : Failure) :
    Ends s o (giveUp s o reason) :=
  .abandoned (poison_online s reason) (poison_poisoned s reason) (by simp [giveUp])

theorem complete_resumed (s : State) (o : Online) (p : Published) {e : Ending}
    (he : e.reopen = true) : (complete s o p e).1.online = none ∧
      repliedTo (complete s o p e).2 = o.pending.reverse.map Prod.fst := by
  rw [complete, if_pos he]
  refine ⟨resumePending_online _ _ _ _ rfl, ?_⟩
  rw [repliedTo_append, resumePending_repliedTo]
  simp

theorem complete_ends (s : State) (o : Online) (p : Published) (e : Ending) :
    Ends s o (complete s o p e) := by
  by_cases he : e.reopen = true
  · exact .resumed (complete_resumed s o p he).1 (complete_resumed s o p he).2
  · rw [complete, if_neg he]
    exact giveUp_abandoned s o .native

theorem resumeSource_resumed (s : State) (o : Online) (reason : Failure) {e : Ending}
    (he : (e.abort && e.reopen) = true) : (resumeSource s o reason e).1.online = none ∧
      repliedTo (resumeSource s o reason e).2 = o.pending.reverse.map Prod.fst := by
  rw [resumeSource, if_pos he]
  refine ⟨resumePending_online _ _ _ _ rfl, ?_⟩
  rw [repliedTo_append, resumePending_repliedTo]
  simp

theorem resumeSource_ends (s : State) (o : Online) (reason : Failure) (e : Ending) :
    Ends s o (resumeSource s o reason e) := by
  by_cases he : (e.abort && e.reopen) = true
  · exact .resumed (resumeSource_resumed s o reason he).1 (resumeSource_resumed s o reason he).2
  · rw [resumeSource, if_neg he]
    exact giveUp_abandoned s o _

/-- Before the freeze there is no queue to answer. -/
theorem abortPreparation_ends (s : State) {o : Online} (ho : o.pending = []) (reason : Failure)
    (e : Ending) : Ends s o (abortPreparation s o reason e) := by
  unfold abortPreparation
  split
  · exact .resumed rfl (by simp [ho])
  · exact giveUp_abandoned s o _

theorem fail_ends (s : State) {o : Online} (ho : o.frozen = false → o.pending = [])
    (reason : Failure) (landed : Option Published) (e : Ending) :
    Ends s o (fail s o reason landed e) := by
  simp only [fail]
  split
  · unfold reconcileUnknownPublication
    split
    · split
      · exact complete_ends s o _ e
      · exact resumeSource_ends s o _ e
    · exact giveUp_abandoned s o _
  · split
    case isTrue hidle =>
      simp only [Bool.and_eq_true, Bool.not_eq_true'] at hidle
      exact abortPreparation_ends s (ho hidle.2) _ e
    case isFalse => exact resumeSource_ends s o _ e

theorem builderDown_ends (s : State) {o : Online} (ho : o.frozen = false → o.pending = [])
    (e : Ending) : Ends s o (builderDown s o e) := by
  simp only [builderDown]
  split
  case isTrue hidle =>
    simp only [Bool.and_eq_true, Bool.not_eq_true'] at hidle
    exact abortPreparation_ends s (ho hidle.2) _ e
  case isFalse => exact giveUp_abandoned s o _


/-! ## What one step can do -/

/-- The builder is still at work. -/
def Phase.live : Phase → Bool
  | .done _ | .gone => false
  | _ => true

/-- Records that have left the journal and are not applied yet. -/
def Phase.inflight : Phase → List Payload
  | .applying rest _ _ => rest
  | .finishing rest => rest
  | _ => []

/-- The builder goes on without touching a record. -/
inductive Moves : Phase → Phase → Prop
  | built : Moves .building (.polling 0)
  | request (rounds : ℕ) : Moves (.applying [] true rounds) (.requesting rounds)
  | again (rounds : ℕ) : Moves (.applying [] false rounds) (.polling rounds)
  | publish : Moves (.finishing []) .publishing

/-- The builder takes a batch from the head of what is in flight. -/
inductive Takes (record : Payload) : Phase → Phase → Prop
  | applying (rest : List Payload) (small : Bool) (rounds : ℕ) :
      Takes record (.applying (record :: rest) small rounds) (.applying rest small rounds)
  | finishing (rest : List Payload) : Takes record (.finishing (record :: rest)) (.finishing rest)

/-- Everything a step can do. -/
inductive Effect (s : Compaction) : Label → Compaction → Prop
  | append (request : Payload) (io : Except Failure Unit) :
      Effect s (.append request io) (s.append request io)
  | cancel : Effect s .cancel { s with writer := { s.writer with
      online := s.writer.online.map fun o ↦ { o with cancelFlag := true } } }
  | moves {l : Label} {phase : Phase} : Moves s.phase phase → Effect s l { s with phase := phase }
  | stops {l : Label} (reason : Failure) : s.phase.live = true →
      Effect s l { s with phase := .done (.error reason) }
  | applies {l : Label} {record : Payload} {phase : Phase} : Takes record s.phase phase →
      s.refused = false →
      Effect s l { s with applied := s.applied ++ [record], phase := phase }
  | polls {l : Label} {o : Online} {rounds : ℕ} (isSmall : Bool) :
      s.phase = .polling rounds → s.writer.online = some o →
      Effect s l { s.after (poll s.writer o) with
        phase := .applying o.drain.1 isSmall (rounds + 1) }
  | catchesUp {l : Label} {o : Online} {rounds : ℕ} {phase : Phase} :
      s.phase = .requesting rounds → s.writer.online = some o →
      phase = .applying o.drain.1 false (rounds + 1) ∨ phase = .done (.error .native) →
      Effect s l { s.after (poll s.writer o) with phase := phase }
  | freezes {l : Label} {o : Online} {rounds : ℕ} :
      s.phase = .requesting rounds → s.writer.online = some o →
      Effect s l { s.after ({ s.writer with online := some { o with freezing := true } },
        [.switchRequested o.token]) with phase := .waiting }
  | frozen {l : Label} {o : Online} : s.phase = .waiting → s.writer.online = some o →
      Effect s l { s.after (finishFreeze s.writer o (.ok ())) with
        phase := .finishing o.finishFreeze.1 }
  | freezeFails {l : Label} {o : Online} (reason : Failure) : s.phase = .waiting →
      s.writer.online = some o → o.frozen = false →
      Effect s l { s.after (finishFreeze s.writer o (.error reason)) with
        phase := .done (.error .native) }
  | lands {l : Label} (published : Published) (result : BuilderResult) : s.phase = .publishing →
      s.refused = false →
      Effect s l { s with landed := some published, phase := .done result }
  | completes {e : Ending} {o : Online} {published : Published} :
      s.phase = .done (.ok published) → s.writer.online = some o →
      Effect s (.builderResult e) (s.ended o (complete s.writer o published e))
  | fails {e : Ending} {o : Online} {reason : Failure} : s.phase = .done (.error reason) →
      s.writer.online = some o →
      Effect s (.builderResult e) (s.ended o (fail s.writer o reason s.landed e))
  | dies {e : Ending} {o : Online} : s.phase.live = true → s.writer.online = some o →
      Effect s (.builderDown e) (s.ended o (builderDown s.writer o e))
  | ignores {l : Label} : Effect s l (s.after (s.writer, []))
  | exits {closedByOwner : Bool} : (closedByOwner && s.writer.online.isSome) = false →
      Effect s (.portExit closedByOwner) (s.after (poison s.writer .helperExit))
  | unsolicited : Effect s .unsolicited (s.after (poison s.writer .unsolicitedNativeReply))

theorem step_effect {s s' : Compaction} {l : Label} (h : step s l = some s') : Effect s l s' := by
  cases l with
  | append request io =>
    cases h
    exact .append request io
  | cancel =>
    cases h
    exact .cancel
  | built =>
    simp only [step] at h
    split at h
    case h_1 hphase =>
      cases h
      exact .moves (hphase ▸ .built)
    case h_2 => cases h
  | poll =>
    simp only [step] at h
    split at h
    case h_1 rounds o hphase honline =>
      split at h
      · cases h
      · split at h
        · cases h
          exact .polls _ hphase honline
        · cases h
          exact .stops _ (by rw [hphase]; rfl)
    case h_2 => cases h
  | apply ok =>
    simp only [step] at h
    split at h
    case h_1 record rest small rounds hphase =>
      cases h
      unfold Compaction.advance
      split
      case isTrue hok =>
        simp only [Bool.and_eq_true, Bool.not_eq_true'] at hok
        exact .applies (hphase ▸ .applying rest small rounds) hok.2
      case isFalse => exact .stops _ (by rw [hphase]; rfl)
    case h_2 record rest hphase =>
      cases h
      unfold Compaction.advance
      split
      case isTrue hok =>
        simp only [Bool.and_eq_true, Bool.not_eq_true'] at hok
        exact .applies (hphase ▸ .finishing rest) hok.2
      case isFalse => exact .stops _ (by rw [hphase]; rfl)
    case h_3 => cases h
  | batchDone =>
    simp only [step] at h
    split at h
    case h_1 rounds hphase =>
      cases h
      exact .moves (hphase ▸ .request rounds)
    case h_2 rounds hphase =>
      cases h
      exact .moves (hphase ▸ .again rounds)
    case h_3 hphase =>
      cases h
      exact .moves (hphase ▸ .publish)
    case h_4 => cases h
  | freeze =>
    simp only [step] at h
    split at h
    case h_1 rounds o hphase honline =>
      split at h
      · cases h
      · unfold Online.freeze Writer.freeze Online.freeze at h
        by_cases hlarge : (catchUpTargetEvents < o.deltaEvents || catchUpTargetBytes < o.deltaBytes)
        · simp only [hlarge, if_true] at h
          split at h
          · cases h
            exact .catchesUp hphase honline (.inl rfl)
          · cases h
            exact .catchesUp hphase honline (.inr rfl)
        · simp only [hlarge] at h
          cases h
          exact .freezes hphase honline
    case h_2 => cases h
  | freezeAck io =>
    simp only [step] at h
    split at h
    case h_1 o hphase honline =>
      split at h
      case isTrue hfreezing =>
        simp only [Bool.and_eq_true, Bool.not_eq_true'] at hfreezing
        cases h
        cases io with
        | ok u => exact .frozen hphase honline
        | error reason => exact .freezeFails reason hphase honline hfreezing.1.2
      case isFalse => cases h
    case h_2 => cases h
  | publish published landed verified =>
    simp only [step] at h
    split at h
    case h_1 hphase =>
      cases h
      unfold Compaction.publish
      split
      · exact .stops _ (by rw [hphase]; rfl)
      case isFalse hrefused =>
        simp only [Bool.or_eq_true, not_or, Bool.not_eq_true] at hrefused
        exact .lands published _ hphase hrefused.1
    case h_2 => cases h
  | builderFails =>
    simp only [step] at h
    cases hphase : s.phase with
    | waiting | done | gone => simp [hphase] at h
    | building | polling | applying | requesting | finishing | publishing =>
      simp only [hphase, Option.some.injEq] at h
      cases h
      exact .stops _ (by rw [hphase]; rfl)
  | builderResult e =>
    simp only [step] at h
    split at h
    case h_1 published o hphase honline =>
      cases h
      exact .completes hphase honline
    case h_2 reason o hphase honline =>
      cases h
      exact .fails hphase honline
    case h_3 => cases h
  | builderDown e =>
    simp only [step] at h
    cases honline : s.writer.online with
    | none => cases hphase : s.phase <;> simp [hphase, honline] at h
    | some o =>
      cases hphase : s.phase with
      | done | gone => simp [hphase] at h
      | building | polling | applying | requesting | waiting | finishing | publishing =>
        simp only [hphase, honline, Option.some.injEq] at h
        cases h
        exact .dies (by rw [hphase]; rfl) honline
  | portExit closedByOwner =>
    simp only [step, portExit, Option.some.injEq] at h
    split at h
    · cases h
      exact .ignores
    case isFalse hexit =>
      cases h
      exact .exits (by simpa using hexit)
  | unsolicited =>
    cases h
    exact .unsolicited

namespace Sample

open Tay.Sample

/-- An epoch without records. -/
def published : Published where
  stats :=
    { recovered := Reader.summarize (manifest 0) [⟨1, 1, [], false⟩] ⟨fresh, 1, none⟩
      capturedAt := 100
      terminalRetention := .hours 1 }
  segment := ⟨1, false, 44, 0, SegmentView.unsealed_empty⟩
  highest := by decide

/-- A compaction that has just started. -/
def started : Compaction where
  writer := ⟨3, ⟨2, false, 44, 0, SegmentView.unsealed_empty⟩, 7, 16777352, none, true, some (Online.new 1)⟩
  phase := .building
  applied := []
  landed := none
  calls := 0
  appended := []
  queued := []
  sent := []

def insertion (id : ℕ) : Payload := .mutation ⟨id, 0, 1, 10, .inserted definition 10 (some id)⟩

/-- Every native request succeeds. -/
def ending : Ending := ⟨true, true, true, true, fun _ ↦ .ok ()⟩

/-- One record is journaled, one is queued, and the compaction succeeds. -/
def labels : List Label :=
  [.built, .append (insertion 1) (.ok ()), .poll, .apply true, .batchDone, .freeze,
    .freezeAck (.ok ()), .append (insertion 2) (.ok ()), .batchDone, .publish published true true,
    .builderResult ending]

end Sample

end Tay.Writer
