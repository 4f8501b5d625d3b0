import Tay.Engine.Coordinates
import Tay.Engine.Reserve
import Tay.Writer.Queue

/-!
# The engine and its writer

The engine keeps a shadow of the writer's coordinates and checks every receipt against it. An online
compaction moves the writer to a new epoch on its own, and the engine learns of it in one of two
ways: with the reply to an append that was queued during the freeze, or by a message.

The pair of processes is a machine here: the engine of `Tay.Engine.Reserve`, the writer of
`Tay.Writer.Online`, the engine's mailbox, and the call the engine is blocked in. The builder is left
to the environment: any message it can send may come at any time. `Stage` says where the two are with
respect to each other; the module that follows shows that every step leads from stage to stage.
-/

open Foundation

namespace Tay

namespace Writer

open Engine (Op)

def State.coordinates (s : State) : Coordinates :=
  ⟨s.epochId, s.segment, s.nextSequence, s.rotationTargetBytes⟩

/-- `SegmentOps.rotate`, where it succeeds. An empty active segment is kept. -/
def rotate (s : State) : Option State :=
  if !s.segment.sealed && s.segment.count == 0 then some s
  else if s.segment.id == maxId || maxId < s.nextSequence then none
  else some { s with segment := ⟨s.segment.id + 1, false, 44, 0, SegmentView.unsealed_empty⟩ }

/-- How the engine reads a reply. -/
def Reply.toEngine : Reply → Engine.Reply
  | .ok receipt => .ok receipt
  | .switched receipt stats => .switched receipt stats
  | .error reason => .error reason
  | .uncertain _ | .mutationNotAdmitted | .poisoned _ => .error .raised

/-! ## The pair -/

/-- A command together with what the shared memory counter answers to it. -/
abbrev Command := Op × (ℤ → Bool)

structure Pair where
  engine : Engine.State
  writer : State
  /-- A builder is at work. -/
  building : Bool
  /-- Results the engine has not handled yet. -/
  mailbox : List (ℕ × Result)
  /-- The command the engine is blocked in. -/
  waiting : Option Command

inductive Event
  | command (op : Op) (admits : ℤ → Bool) (io : Except Failure Unit)
  | start (token : ℕ) (retention : Retention)
  | poll
  | freeze
  | freezeAck (io : Except Failure Unit)
  | complete (published : Published) (ending : Ending)
  | fail (reason : Failure) (landed : Option Published) (ending : Ending)
  | builderDown (ending : Ending)
  | portExit (closedByOwner : Bool)
  | unsolicited
  /-- The engine handles the next result. -/
  | deliver (admits : ℤ → Bool)

/-- The builder has ended. -/
def Event.ends : Event → Bool
  | .complete .. | .fail .. | .builderDown .. => true
  | _ => false

/-- The results among the messages sent. -/
def results (sent : List Sent) : List (ℕ × Result) :=
  sent.filterMap fun
    | .result token result => some (token, result)
    | _ => none

/-- The reply among the messages sent; the engine makes one call at a time. -/
def reply? (sent : List Sent) : Option Reply :=
  sent.findSome? fun
    | .reply _ reply => some reply
    | _ => none

variable (vm : Runtime)

/-- What the writer does with its next message. -/
def writes (s : Pair) : Event → Option (State × List Sent)
  | .command op admits io =>
    if s.waiting.isSome then none
    else (Engine.request vm s.engine op admits).map fun payload ↦
      handleAppend s.writer 0 payload io
  | .poll =>
    s.writer.online.bind fun o ↦
      if s.building && !o.freezing && !o.frozen then some (poll s.writer o) else none
  | .freeze =>
    s.writer.online.bind fun o ↦
      if s.building && !o.freezing && !o.frozen then some (freeze s.writer o) else none
  | .freezeAck io =>
    s.writer.online.bind fun o ↦
      if s.waiting.isNone && s.building && o.freezing && !o.frozen && s.writer.admitted then
        some (finishFreeze s.writer o io)
      else none
  | .complete published ending =>
    s.writer.online.bind fun o ↦
      if s.building then some (complete s.writer o published ending) else none
  | .fail reason landed ending =>
    s.writer.online.bind fun o ↦
      if s.building then some (fail s.writer o reason landed ending) else none
  | .builderDown ending =>
    s.writer.online.bind fun o ↦
      if s.building then some (builderDown s.writer o ending) else none
  | .portExit closedByOwner => some (portExit s.writer closedByOwner)
  | .unsolicited => some (poison s.writer .unsolicitedNativeReply)
  | .start .. | .deliver _ => none

/-- The engine goes on with the reply to its append. A failure after a successful append ends the
process, and so does a commit whose outcome is unknown. -/
def respond (s : Pair) (command : Command) (reply : Reply) : Option Pair :=
  match Engine.perform vm s.engine command.1 ⟨command.2, fun _ ↦ reply.toEngine⟩ with
  | .ok out => some { s with engine := out.1, waiting := none }
  | .error _ =>
    match reply, command.1 with
    | .error _, _ => some { s with waiting := none }
    | .ok _, _ | .switched .., _ => none
    | _, .auxiliary _ => some { s with waiting := none }
    | _, _ => none

/-- The writer's messages arrive: a reply goes to the blocked engine, a result into its mailbox. -/
def absorb (s : Pair) (r : State × List Sent) (building : Bool) : Option Pair :=
  let next := { s with
    writer := r.1
    building := building
    mailbox := s.mailbox ++ results r.2 }
  match s.waiting, reply? r.2 with
  | some command, some reply => respond vm next command reply
  | _, _ => some next

/-- The engine's reading of a result. -/
def Result.toEngine (admits : ℤ → Bool) : Result → Engine.CompactResult
  | .ok stats false => .ok stats admits
  | .ok _ true => .switched
  | .error _ => .error

def Pair.step (s : Pair) (l : Event) : Option Pair :=
  match l with
  | .command op admits _ =>
    if s.waiting.isSome then none
    else match Engine.request vm s.engine op admits with
      | none => respond vm s (op, admits) .mutationNotAdmitted
      | some _ =>
        (writes vm s l).bind fun r ↦ absorb vm { s with waiting := some (op, admits) } r s.building
  | .start token retention =>
    if s.waiting.isNone && s.writer.admitted && s.writer.online.isNone &&
        s.engine.onlineCompaction == .none then
      (rotate s.writer).bind fun rotated ↦
        (Engine.handle vm s.engine (.compactOnline
          ⟨s.writer.segment, rotated.segment, rotated.nextSequence⟩ token retention)).toOption.map
          fun engine ↦ { s with
            engine := engine
            writer := { rotated with online := some (Online.new token) }
            building := true }
    else none
  | .deliver admits =>
    match s.waiting, s.mailbox with
    | none, (token, result) :: rest =>
      (Engine.handle vm s.engine (.compactResult token (result.toEngine admits))).toOption.map
        fun engine ↦ { s with engine := engine, mailbox := rest }
    | _, _ => none
  | l => (writes vm s l).bind fun r ↦ absorb vm s r (s.building && !l.ends)

/-- A generation has just started: the engine has taken its coordinates from the writer. -/
def Pair.Starts (s : Pair) : Prop :=
  s.engine.coordinates = s.writer.coordinates ∧ s.engine.onlineCompaction = .none ∧
    s.writer.online = none ∧ s.building = false ∧ s.mailbox = [] ∧ s.waiting = none ∧
    s.writer.poisoned = none

def pair : Machine Pair Event where
  initial := Pair.Starts
  step := Pair.step vm

/-! ## The property and its condition -/

/-- The command whose append is answered in this step, if one is. -/
def Pair.command (s : Pair) : Event → Option Command
  | .command op admits _ => some (op, admits)
  | _ => s.waiting

/-- Every receipt the engine processes in this step is the one it expects. -/
def Expected (s : Pair) (l : Event) : Prop :=
  ∀ command payload r reply receipt base, s.command l = some command →
    Engine.request vm s.engine command.1 command.2 = some payload → writes vm s l = some r →
    reply? r.2 = some reply →
    Engine.appendRecord vm s.engine payload ⟨command.2, fun _ ↦ reply.toEngine⟩ =
      .ok (receipt, base) →
    Engine.validateReceipt base receipt payload.bytes = .ok ()

/-- A switch the engine has not been told of by a reply. -/
def Result.untold : Result → Bool
  | .ok _ false => true
  | _ => false

/-- The side condition: no command is handled while a switch waits in the mailbox. -/
def Undisturbed (s : Pair) : Event → Prop
  | .command .. => ∀ m ∈ s.mailbox, m.2.untold = false
  | _ => True

instance (s : Pair) (l : Event) : Decidable (Undisturbed s l) :=
  match l with
  | .command .. => inferInstanceAs (Decidable (∀ m ∈ s.mailbox, m.2.untold = false))
  | .start .. | .poll | .freeze | .freezeAck _ | .complete .. | .fail .. | .builderDown _
  | .portExit _ | .unsolicited | .deliver _ => .isTrue trivial


/-! ## Positions -/

/-- The engine expects the receipt the writer gives when their coordinates agree. -/
theorem expectedPosition_eq {e : Engine.State} {w : State} (h : e.coordinates = w.coordinates)
    (bytes : ℕ) : Engine.expectedPosition e bytes = receipt w bytes := by
  simp only [Engine.State.coordinates, State.coordinates, Coordinates.mk.injEq] at h
  obtain ⟨-, hsegment, hsequence, htarget⟩ := h
  have hrotates : Engine.rotates e bytes = rotates w bytes := by
    unfold Engine.rotates rotates
    rw [hsegment, htarget]
  simp only [Engine.expectedPosition, receipt, hrotates, hsegment, hsequence]

/-- Both advance in the same way. -/
theorem advance_coordinates {e : Engine.State} {w : State} (h : e.coordinates = w.coordinates)
    (bytes : ℕ) : (Engine.advance e (Engine.expectedPosition e bytes) bytes).coordinates =
      (append w bytes).coordinates := by
  rw [expectedPosition_eq h]
  simp only [Engine.State.coordinates, State.coordinates, Coordinates.mk.injEq] at h
  obtain ⟨hepoch, hsegment, hsequence, htarget⟩ := h
  simp only [Engine.State.coordinates, State.coordinates, Engine.advance, append, hepoch, hsequence,
    htarget, hsegment, Coordinates.mk.injEq, SegmentView.mk.injEq, true_and, and_true]
  unfold receipt
  cases rotates w bytes with
  | true => simp
  | false => simp

@[simp] theorem journalCompaction_coordinates (w : State) (record : Payload) :
    (journalCompaction w record).coordinates = w.coordinates := rfl

@[simp] theorem poison_coordinates (w : State) (reason : Failure) :
    (poison w reason).1.coordinates = w.coordinates := by
  unfold poison
  split <;> rfl

theorem poison_admitted {w : State} (hw : Halted w) (reason : Failure) :
    (poison w reason).1.admitted = false := (hw.poison reason) (poison_poisoned w reason)

/-- The three ways an admitted append goes. -/
inductive Mutates (w : State) (request : Payload) : Reply × State × List Sent → Prop
  | refused (reason : Reason) : Mutates w request (.error reason, w, [])
  | written : Mutates w request (.ok (receipt w request.bytes),
      journalCompaction (append w request.bytes) request, [])
  | failed (reason : Failure) : Mutates w request (.uncertain reason, poison w reason)

theorem mutate_mutates (w : State) (request : Payload) (io : Except Failure Unit) :
    Mutates w request (mutate w request io) := by
  unfold mutate
  split
  · exact .refused _
  · split
    · exact .refused _
    · cases io with
      | ok u => exact .written
      | error reason => exact .failed reason

/-! ## Replies and results among the messages -/

@[simp] theorem results_append (a b : List Sent) : results (a ++ b) = results a ++ results b :=
  List.filterMap_append

@[simp] theorem results_nil : results [] = [] := rfl

@[simp] theorem results_reply (caller : Caller) (reply : Reply) (rest : List Sent) :
    results (.reply caller reply :: rest) = results rest := rfl

@[simp] theorem results_result (token : ℕ) (result : Result) (rest : List Sent) :
    results (.result token result :: rest) = (token, result) :: results rest := rfl

@[simp] theorem results_poison (w : State) (reason : Failure) :
    results (poison w reason).2 = [] := by
  unfold poison
  split <;> rfl

@[simp] theorem reply?_poison (w : State) (reason : Failure) :
    reply? (poison w reason).2 = none := by
  unfold poison
  split <;> rfl

theorem Mutates.reply_none {w : State} {payload : Payload} {m : Reply × State × List Sent}
    (h : Mutates w payload m) : reply? m.2.2 = none := by
  cases h with
  | refused | written => rfl
  | failed reason => exact reply?_poison w reason

theorem reply?_append_of_none {a b : List Sent} (h : reply? a = none) :
    reply? (a ++ b) = reply? b := by
  rw [reply?, List.findSome?_append]
  change (reply? a).or _ = _
  rw [h]
  rfl

/-! ## The engine's answer to a reply -/

variable {vm}

/-- A command that sends nothing leaves the coordinates, whatever the reply would have been. -/
theorem respond_silent {s s' : Pair} {command : Command} {reply : Reply}
    (h : respond vm s command reply = some s')
    (hrequest : Engine.request vm s.engine command.1 command.2 = none) :
    s' = { s with engine := s'.engine, waiting := none } ∧
      s'.engine.coordinates = s.engine.coordinates ∧
      s'.engine.onlineCompaction = s.engine.onlineCompaction := by
  unfold respond at h
  split at h
  case h_1 out hout =>
    cases h
    cases Engine.perform_advances vm hout with
    | silent _ hcoordinates honline => exact ⟨rfl, hcoordinates, honline⟩
    | appends hsome => rw [hrequest] at hsome; cases hsome
  case h_2 =>
    split at h
    · cases h
      exact ⟨rfl, rfl, rfl⟩
    · cases h
    · cases h
    · cases h
      exact ⟨rfl, rfl, rfl⟩
    · cases h

/-- After a reply without a receipt the engine is where it was, or gone. -/
theorem respond_failed {s s' : Pair} {command : Command} {reply : Reply} {payload : Payload}
    (h : respond vm s command reply = some s')
    (hrequest : Engine.request vm s.engine command.1 command.2 = some payload)
    (hreply : ∀ receipt base, Engine.appendRecord vm s.engine payload
      ⟨command.2, fun _ ↦ reply.toEngine⟩ ≠ .ok (receipt, base)) : s' = { s with waiting := none } := by
  unfold respond at h
  split at h
  case h_1 out hout =>
    cases Engine.perform_advances vm hout with
    | silent hnone => rw [hrequest] at hnone; cases hnone
    | appends hsome happend =>
      rw [hrequest] at hsome
      cases hsome
      exact absurd happend (hreply _ _)
  case h_2 =>
    split at h
    · cases h
      rfl
    · cases h
    · cases h
    · cases h
      rfl
    · cases h

/-- After a reply with a receipt the engine has advanced from the base of the reply. -/
theorem respond_appended {s s' : Pair} {command : Command} {reply : Reply} {payload : Payload}
    {receipt : Receipt} {base : Engine.State}
    (h : respond vm s command reply = some s')
    (hrequest : Engine.request vm s.engine command.1 command.2 = some payload)
    (hreply : Engine.appendRecord vm s.engine payload ⟨command.2, fun _ ↦ reply.toEngine⟩ =
      .ok (receipt, base)) (hok : ∀ reason, reply ≠ .error reason) :
    s' = { s with engine := s'.engine, waiting := none } ∧
      s'.engine.coordinates =
        (Engine.advance base (Engine.expectedPosition base payload.bytes)
          payload.bytes).coordinates ∧
      s'.engine.onlineCompaction = base.onlineCompaction := by
  unfold respond at h
  split at h
  case h_1 out hout =>
    cases h
    cases Engine.perform_advances vm hout with
    | silent hnone => rw [hrequest] at hnone; cases hnone
    | appends hsome happend hexpected hcoordinates honline =>
      rw [hrequest] at hsome
      cases hsome
      rw [hreply] at happend
      cases happend
      subst hexpected
      exact ⟨rfl, hcoordinates, honline⟩
  case h_2 =>
    cases reply with
    | ok => cases h
    | switched => cases h
    | error reason => exact absurd rfl (hok reason)
    | uncertain | mutationNotAdmitted | poisoned => cases hreply


/-! ## How a compaction ends -/

/-- The writer on the segment of a published epoch. -/
def State.onto (w : State) (p : Published) : State :=
  { w with
    epochId := p.stats.recovered.epochId
    segment := p.segment
    nextSequence := p.stats.recovered.nextSequence
    online := none }

/-- The three ends: the new epoch, the old one, or neither. -/
inductive Ended (w : State) (o : Online) : State × List Sent → Prop
  | switched (p : Published) (io : Caller → Except Failure Unit) {x : State × List Sent × Bool} :
      x = resumePending (w.onto p) (some p.stats) io false o.pending.reverse →
      Ended w o (x.1, x.2.1 ++ [.result o.token (.ok p.stats x.2.2)])
  | resumed (reason : Failure) (io : Caller → Except Failure Unit) {x : State × List Sent × Bool} :
      x = resumePending { w with online := none } none io false o.pending.reverse →
      Ended w o (x.1, x.2.1 ++ [.result o.token (.error reason)])
  | abandoned (reason : Failure) : Ended w o (giveUp w o reason)

theorem complete_ended (w : State) (o : Online) (p : Published) (e : Ending) :
    Ended w o (complete w o p e) := by
  unfold complete
  split
  · exact .switched p e.io rfl
  · exact .abandoned _

theorem resumeSource_ended (w : State) (o : Online) (reason : Failure) (e : Ending) :
    Ended w o (resumeSource w o reason e) := by
  unfold resumeSource
  split
  · exact .resumed reason e.io rfl
  · exact .abandoned _

theorem abortPreparation_ended (w : State) {o : Online} (ho : o.pending = []) (reason : Failure)
    (e : Ending) : Ended w o (abortPreparation w o reason e) := by
  unfold abortPreparation
  split
  · exact .resumed reason e.io (x := ({ w with online := none }, [], false)) (by rw [ho]; rfl)
  · exact .abandoned _

theorem fail_ended (w : State) {o : Online} (ho : o.frozen = false → o.pending = [])
    (reason : Failure) (landed : Option Published) (e : Ending) :
    Ended w o (fail w o reason landed e) := by
  simp only [fail]
  split
  · unfold reconcileUnknownPublication
    split
    · split
      · exact complete_ended w o _ e
      · exact resumeSource_ended w o _ e
    · exact .abandoned _
  · split
    case isTrue hidle =>
      simp only [Bool.and_eq_true, Bool.not_eq_true'] at hidle
      exact abortPreparation_ended w (ho hidle.2) _ e
    case isFalse => exact resumeSource_ended w o _ e

theorem builderDown_ended (w : State) {o : Online} (ho : o.frozen = false → o.pending = [])
    (e : Ending) : Ended w o (builderDown w o e) := by
  simp only [builderDown]
  split
  case isTrue hidle =>
    simp only [Bool.and_eq_true, Bool.not_eq_true'] at hidle
    exact abortPreparation_ended w (ho hidle.2) _ e
  case isFalse => exact .abandoned _

/-- Adopting an epoch takes the engine to its coordinates. -/
theorem adopt_coordinates {e t : Engine.State} {p : Published} {retention : Retention}
    {admits : ℤ → Bool} {w : State} (htarget : e.config.rotationTargetBytes = w.rotationTargetBytes)
    (h : Engine.OnlineCheckpoint.adopt vm e p.stats retention admits = .ok t) :
    t.coordinates = (w.onto p).coordinates ∧ t.onlineCompaction = .none := by
  have hspec := Engine.adopt_spec vm h
  have hsegment : t.segment = p.segment := by
    have hview := hspec.segment
    rw [p.highest] at hview
    exact (Option.some.inj hview).symm
  obtain ⟨terminal, hconfig⟩ := hspec.config
  have hepoch : t.epochId = p.stats.recovered.epochId ∧ t.onlineCompaction = .none := by
    simp only [Engine.OnlineCheckpoint.adopt, bind_eq_ok] at h
    obtain ⟨purged, -, h⟩ := h
    split at h
    · cases h
    · simp only [check_bind_eq_ok, pure_eq_ok] at h
      cases h.2
      exact ⟨rfl, rfl⟩
  refine ⟨?_, hepoch.2⟩
  simp only [Engine.State.coordinates, State.coordinates, State.onto, hepoch.1, hsegment,
    hspec.nextSequence, hconfig, htarget]

/-! ## The stages of a compaction -/

/-- The queue holds the append of the blocked command, and nothing else. -/
def Blocked (vm : Runtime) (s : Pair) (o : Online) : Prop :=
  match s.waiting with
  | none => o.pending = []
  | some command => o.frozen = true ∧ ∃ payload, o.pending = [(0, payload)] ∧
      Engine.request vm s.engine command.1 command.2 = some payload

/-- Where the engine and the writer are with respect to each other. -/
inductive Stage (vm : Runtime) (s : Pair) : Prop
  | idle : s.mailbox = [] → s.building = false → s.waiting = none →
      s.engine.onlineCompaction = .none → s.engine.coordinates = s.writer.coordinates →
      s.writer.online = none ∨ s.writer.admitted = false → Stage vm s
  | building {o : Online} {retention : Retention} : s.mailbox = [] → s.building = true →
      s.writer.online = some o → s.engine.onlineCompaction = .running o.token retention →
      s.engine.coordinates = s.writer.coordinates → Blocked vm s o → Stage vm s
  /-- The engine has adopted the epoch with a reply. -/
  | switched (token : ℕ) (stats : Engine.OnlineCheckpoint.Stats) {retention : Retention} :
      s.mailbox = [(token, .ok stats true)] → s.building = false → s.waiting = none →
      s.engine.onlineCompaction = .switched token retention →
      s.engine.coordinates = s.writer.coordinates → s.writer.online = none → Stage vm s
  | failed (token : ℕ) (reason : Failure) {retention : Retention} :
      s.mailbox = [(token, .error reason)] → s.building = false →
      s.engine.onlineCompaction = .running token retention →
      s.engine.coordinates = s.writer.coordinates →
      s.writer.online = none ∧ s.waiting = none ∨ s.writer.admitted = false → Stage vm s
  /-- The writer is on the new epoch and the engine does not know. -/
  | ahead (token : ℕ) (p : Published) {retention : Retention} :
      s.mailbox = [(token, .ok p.stats false)] → s.building = false → s.waiting = none →
      s.engine.onlineCompaction = .running token retention →
      s.engine.config.rotationTargetBytes = s.writer.rotationTargetBytes →
      s.writer.coordinates = (s.writer.onto p).coordinates → s.writer.online = none → Stage vm s

/-- The invariant of the pair. -/
structure InStep (vm : Runtime) (s : Pair) : Prop where
  stage : Stage vm s
  halted : Halted s.writer

end Writer

end Tay
