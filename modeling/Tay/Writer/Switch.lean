import Tay.Writer.Pair

/-!
# Switching epochs under the engine

Every step of the pair leads from stage to stage, so the receipts the engine processes are the ones
it expects, with one exception. Between the writer's switch and the engine's handling of the message
that reports it, the two disagree, and an append that falls in between is answered with coordinates
the engine does not expect. `Undisturbed` excludes commands there; the run at the end of the module
has one.
-/

open Foundation

namespace Tay.Writer

open Engine (Op)

variable {vm : Runtime}

/-! ## Commands -/

/-- A reply without a receipt. -/
def Reply.refuses : Reply → Bool
  | .ok _ | .switched .. => false
  | _ => true

theorem appendRecord_refused {e : Engine.State} {payload : Payload} {admits : ℤ → Bool}
    {reply : Reply} (h : reply.refuses = true) (receipt : Receipt) (base : Engine.State) :
    Engine.appendRecord vm e payload ⟨admits, fun _ ↦ reply.toEngine⟩ ≠ .ok (receipt, base) := by
  cases reply with
  | ok | switched => cases h
  | error | uncertain | mutationNotAdmitted | poisoned => simp [Engine.appendRecord, Reply.toEngine]

/-- What the writer does with an append call. -/
inductive Handles (w : State) (payload : Payload) : State × List Sent → Prop
  | queued {o : Online} : w.online = some o → o.frozen = true → w.admitted = true →
      Handles w payload ({ w with online := some (o.queue 0 payload) }, [])
  | turned (reply : Reply) : reply.refuses = true → Handles w payload (w, [.reply 0 reply])
  | mutated {m : Reply × State × List Sent} : w.online.any (·.frozen) = false →
      Mutates w payload m → Handles w payload (m.2.1, m.2.2 ++ [.reply 0 m.1])

theorem handleAppend_handles (w : State) (payload : Payload) (io : Except Failure Unit) :
    Handles w payload (handleAppend w 0 payload io) := by
  have hdirect : w.online.any (·.frozen) = false →
      Handles w payload (handleAppend.direct w 0 payload io) := by
    intro hfrozen
    unfold handleAppend.direct
    split
    · exact .turned _ rfl
    · split
      · exact .mutated hfrozen (mutate_mutates w payload io)
      · exact .turned _ rfl
  unfold handleAppend
  cases honline : w.online with
  | none => exact hdirect (by simp [honline])
  | some o =>
    cases hfrozen : o.frozen with
    | false => simpa [hfrozen] using hdirect (by simp [honline, hfrozen])
    | true =>
      by_cases hadmitted : w.admitted = true
      · simp only [hfrozen, if_true, if_pos hadmitted]
        exact .queued honline hfrozen hadmitted
      · simp only [hfrozen, if_true, if_neg hadmitted]
        exact .turned _ rfl

/-- A writer that goes on with the same compaction and the same queue. -/
structure Keeps (w w' : State) : Prop where
  online : ∃ g : Online → Online, w'.online = w.online.map g ∧ ∀ o, (g o).token = o.token ∧
    (g o).pending = o.pending ∧ (o.frozen = true → (g o).frozen = true)
  admitted : w.admitted = false → w'.admitted = false

theorem Keeps.refl (w : State) : Keeps w w :=
  ⟨⟨id, by simp, fun o ↦ ⟨rfl, rfl, id⟩⟩, id⟩

theorem Keeps.poison (w : State) (reason : Failure) : Keeps w (poison w reason).1 := by
  unfold Writer.poison
  split
  · exact .refl w
  · exact ⟨⟨id, by simp, fun o ↦ ⟨rfl, rfl, id⟩⟩, fun _ ↦ rfl⟩

theorem journal_token (o : Online) (record : Payload) :
    (o.journal record).token = o.token := by
  unfold Online.journal
  split
  · simp only
    split <;> rfl
  · rfl

theorem Mutates.keeps {w : State} {payload : Payload} {m : Reply × State × List Sent}
    (h : Mutates w payload m) : Keeps w m.2.1 := by
  cases h with
  | refused => exact .refl w
  | written =>
    refine ⟨⟨fun o ↦ if o.frozen then o else o.journal payload, rfl, ?_⟩, id⟩
    intro o
    cases hfrozen : o.frozen with
    | true => simp [hfrozen]
    | false => simp [hfrozen, journal_token, (journal_pending o payload).1]
  | failed reason => exact .poison w reason

theorem Mutates.halted {w : State} {payload : Payload} {m : Reply × State × List Sent}
    (h : Mutates w payload m) (hw : Halted w) : Halted m.2.1 := by
  cases h with
  | refused => exact hw
  | written => exact hw
  | failed reason => exact hw.poison reason

/-- A command from agreement: it is queued, or it is answered and they still agree. -/
theorem command_step {s s' : Pair} {op : Op} {admits : ℤ → Bool} {io : Except Failure Unit}
    (hagree : s.engine.coordinates = s.writer.coordinates)
    (h : s.step vm (.command op admits io) = some s') :
    (∃ o payload, s.writer.online = some o ∧ o.frozen = true ∧ s.writer.admitted = true ∧
      Engine.request vm s.engine op admits = some payload ∧
      s' = { s with
        writer := { s.writer with online := some (o.queue 0 payload) }
        waiting := some (op, admits) }) ∨
    (s'.mailbox = s.mailbox ∧ s'.building = s.building ∧ s'.waiting = none ∧
      s'.engine.coordinates = s'.writer.coordinates ∧
      s'.engine.onlineCompaction = s.engine.onlineCompaction ∧ Keeps s.writer s'.writer ∧
      (Halted s.writer → Halted s'.writer)) := by
  simp only [Pair.step] at h
  split at h
  case isTrue => cases h
  case isFalse hwaiting =>
    cases hrequest : Engine.request vm s.engine op admits with
    | none =>
      rw [hrequest] at h
      obtain ⟨hs', hcoordinates, honline⟩ := respond_silent h hrequest
      rw [hs']
      exact .inr ⟨rfl, rfl, rfl, hcoordinates.trans hagree, honline, .refl _, id⟩
    | some payload =>
      simp only [hrequest, writes, if_neg hwaiting, Option.map_some, Option.bind_some] at h
      have hhandles := handleAppend_handles s.writer payload io
      generalize handleAppend s.writer 0 payload io = r at h hhandles
      unfold absorb at h
      cases hhandles with
      | queued honline hfrozen hadmitted =>
        cases h
        exact .inl ⟨_, payload, honline, hfrozen, hadmitted, rfl, by simp⟩
      | turned reply hrefuses =>
        simp only [reply?, List.findSome?_cons] at h
        have hs' := respond_failed h hrequest (appendRecord_refused hrefuses)
        rw [hs']
        exact .inr ⟨by simp, rfl, rfl, hagree, rfl, .refl _, id⟩
      | mutated hfrozen hmutates =>
        have hkeeps := hmutates.keeps
        have hhalted := hmutates.halted
        cases hmutates with
        | refused reason =>
          simp only [List.nil_append, reply?, List.findSome?_cons] at h
          have hs' := respond_failed h hrequest (appendRecord_refused rfl)
          rw [hs']
          exact .inr ⟨by simp, rfl, rfl, hagree, rfl, hkeeps, hhalted⟩
        | written =>
          simp only [List.nil_append, reply?, List.findSome?_cons] at h
          obtain ⟨hs', hcoordinates, honline⟩ := respond_appended h hrequest rfl (by simp)
          rw [hs']
          refine .inr ⟨by simp, rfl, rfl, ?_, honline, hkeeps, hhalted⟩
          exact hcoordinates.trans (advance_coordinates hagree _)
        | failed reason =>
          rw [reply?_append_of_none (reply?_poison _ _)] at h
          simp only [reply?, List.findSome?_cons] at h
          have hs' := respond_failed h hrequest (appendRecord_refused rfl)
          rw [hs']
          refine .inr ⟨?_, rfl, rfl, ?_, rfl, hkeeps, hhalted⟩
          · simp
          · simp [hagree]


/-! ## Steps that keep the stage -/

theorem Keeps.online_none {w w' : State} (h : Keeps w w') (hw : w.online = none) :
    w'.online = none := by
  obtain ⟨g, hg, -⟩ := h.online
  rw [hg, hw]
  rfl

theorem Keeps.idle {w w' : State} (h : Keeps w w') (hw : w.online = none ∨ w.admitted = false) :
    w'.online = none ∨ w'.admitted = false :=
  hw.imp h.online_none h.admitted

/-- The writer does something that concerns only itself or the builder. -/
theorem Stage.quiet {s s' : Pair} (h : Stage vm s) (hengine : s'.engine = s.engine)
    (hmailbox : s'.mailbox = s.mailbox) (hbuilding : s'.building = s.building)
    (hwaiting : s'.waiting = s.waiting)
    (hcoordinates : s'.writer.coordinates = s.writer.coordinates)
    (hkeeps : Keeps s.writer s'.writer) : Stage vm s' := by
  cases h with
  | idle hm hb hw he hc ho =>
    exact .idle (hmailbox.trans hm) (hbuilding.trans hb) (hwaiting.trans hw) (by rw [hengine, he])
      (by rw [hengine, hcoordinates, hc]) (hkeeps.idle ho)
  | building hm hb ho he hc hblocked =>
    rename_i o retention
    obtain ⟨g, hg, hsame⟩ := hkeeps.online
    obtain ⟨htoken, hpending, hfrozen⟩ := hsame o
    refine .building (o := g o) (hmailbox.trans hm) (hbuilding.trans hb) (by rw [hg, ho]; rfl)
      (by rw [hengine, htoken, he]) (by rw [hengine, hcoordinates, hc]) ?_
    unfold Blocked at hblocked ⊢
    rw [hwaiting, hpending, hengine]
    revert hblocked
    cases s.waiting with
    | none => exact id
    | some command => exact fun hblocked ↦ ⟨hfrozen hblocked.1, hblocked.2⟩
  | switched token stats hm hb hw he hc ho =>
    exact .switched token stats (hmailbox.trans hm) (hbuilding.trans hb) (hwaiting.trans hw)
      (by rw [hengine, he]) (by rw [hengine, hcoordinates, hc]) (hkeeps.online_none ho)
  | failed token reason hm hb he hc ho =>
    refine .failed token reason (hmailbox.trans hm) (hbuilding.trans hb) (by rw [hengine, he])
      (by rw [hengine, hcoordinates, hc]) ?_
    rcases ho with ⟨ho, hw⟩ | ho
    · exact .inl ⟨hkeeps.online_none ho, hwaiting.trans hw⟩
    · exact .inr (hkeeps.admitted ho)
  | ahead token p hm hb hw he ht hc ho =>
    have htarget : s'.writer.rotationTargetBytes = s.writer.rotationTargetBytes :=
      congrArg Coordinates.rotationTargetBytes hcoordinates
    refine .ahead token p (hmailbox.trans hm) (hbuilding.trans hb) (hwaiting.trans hw)
      (by rw [hengine, he]) (by rw [hengine, ht, htarget]) ?_ (hkeeps.online_none ho)
    rw [hcoordinates, hc]
    simp [State.coordinates, State.onto, htarget]

/-- A command has been answered, and they agree. -/
theorem Stage.answered {s s' : Pair} (h : Stage vm s) (hmailbox : s'.mailbox = s.mailbox)
    (hbuilding : s'.building = s.building) (hwaiting : s.waiting = none)
    (hwaiting' : s'.waiting = none)
    (hahead : ∀ m ∈ s.mailbox, m.2.untold = false)
    (honline : s'.engine.onlineCompaction = s.engine.onlineCompaction)
    (hagree : s'.engine.coordinates = s'.writer.coordinates) (hkeeps : Keeps s.writer s'.writer) :
    Stage vm s' := by
  cases h with
  | idle hm hb hw he hc ho =>
    exact .idle (hmailbox.trans hm) (hbuilding.trans hb) hwaiting' (honline.trans he) hagree
      (hkeeps.idle ho)
  | building hm hb ho he hc hblocked =>
    rename_i o retention
    obtain ⟨g, hg, hsame⟩ := hkeeps.online
    obtain ⟨htoken, hpending, -⟩ := hsame o
    refine .building (o := g o) (hmailbox.trans hm) (hbuilding.trans hb) (by rw [hg, ho]; rfl)
      (by rw [honline, htoken, he]) hagree ?_
    unfold Blocked at hblocked ⊢
    rw [hwaiting] at hblocked
    rw [hwaiting']
    exact hpending.trans hblocked
  | switched token stats hm hb hw he hc ho =>
    exact .switched token stats (hmailbox.trans hm) (hbuilding.trans hb) hwaiting' (honline.trans he) hagree
      (hkeeps.online_none ho)
  | failed token reason hm hb he hc ho =>
    refine .failed token reason (hmailbox.trans hm) (hbuilding.trans hb) (honline.trans he) hagree ?_
    rcases ho with ⟨ho, -⟩ | ho
    · exact .inl ⟨hkeeps.online_none ho, hwaiting'⟩
    · exact .inr (hkeeps.admitted ho)
  | ahead token p hm =>
    rw [hm] at hahead
    cases hahead _ List.mem_cons_self

/-- Where commands are allowed, the coordinates agree. -/
theorem Stage.agree {s : Pair} (h : Stage vm s)
    (hahead : ∀ m ∈ s.mailbox, m.2.untold = false) :
    s.engine.coordinates = s.writer.coordinates := by
  cases h with
  | idle _ _ _ _ hc => exact hc
  | building _ _ _ _ hc => exact hc
  | switched _ _ _ _ _ _ hc => exact hc
  | failed _ _ _ _ _ hc => exact hc
  | ahead token p hm =>
    rw [hm] at hahead
    cases hahead _ List.mem_cons_self

/-- Messages that are answered to the builder alone, or not at all. -/
def Event.quiet : Event → Bool
  | .poll | .freeze | .freezeAck _ | .portExit _ | .unsolicited => true
  | _ => false

theorem writes_quiet {s : Pair} {l : Event} {r : State × List Sent} (hl : l.quiet = true)
    (hhalted : Halted s.writer) (h : writes vm s l = some r) :
    results r.2 = [] ∧ reply? r.2 = none ∧ r.1.coordinates = s.writer.coordinates ∧
      Keeps s.writer r.1 ∧ Halted r.1 := by
  have hpoison : ∀ reason, results (poison s.writer reason).2 = [] ∧
      reply? (poison s.writer reason).2 = none ∧
      (poison s.writer reason).1.coordinates = s.writer.coordinates ∧
      Keeps s.writer (poison s.writer reason).1 ∧ Halted (poison s.writer reason).1 :=
    fun reason ↦ ⟨results_poison _ _, reply?_poison _ _, poison_coordinates _ _, .poison _ _,
      hhalted.poison _⟩
  have hkeeps : ∀ {o : Online} (g : Online → Online), s.writer.online = some o →
      (∀ o, (g o).token = o.token ∧ (g o).pending = o.pending ∧
        (o.frozen = true → (g o).frozen = true)) →
      Keeps s.writer { s.writer with online := some (g o) } :=
    fun g ho hg ↦ ⟨⟨g, by rw [ho]; rfl, hg⟩, id⟩
  cases l with
  | command | start | complete | fail | builderDown | deliver => cases hl
  | poll =>
    simp only [writes, Option.bind_eq_some_iff] at h
    obtain ⟨o, ho, h⟩ := h
    split at h
    · cases h
      exact ⟨rfl, rfl, rfl, hkeeps (fun o ↦ o.drain.2) ho fun _ ↦ ⟨rfl, rfl, id⟩, hhalted⟩
    · cases h
  | freeze =>
    simp only [writes, Option.bind_eq_some_iff] at h
    obtain ⟨o, ho, h⟩ := h
    split at h
    · cases h
      unfold Writer.freeze Online.freeze
      split
      case h_1 records next hnext =>
        split at hnext
        · cases hnext
          exact ⟨rfl, rfl, rfl, hkeeps (fun o ↦ o.drain.2) ho fun _ ↦ ⟨rfl, rfl, id⟩, hhalted⟩
        · cases hnext
      case h_2 next hnext =>
        split at hnext
        · cases hnext
        · cases hnext
          exact ⟨rfl, rfl, rfl, hkeeps (fun o ↦ { o with freezing := true }) ho
            fun _ ↦ ⟨rfl, rfl, id⟩, hhalted⟩
    · cases h
  | freezeAck io =>
    simp only [writes, Option.bind_eq_some_iff] at h
    obtain ⟨o, ho, h⟩ := h
    split at h
    · cases h
      cases io with
      | ok u =>
        exact ⟨rfl, rfl, rfl, hkeeps (fun o ↦ o.finishFreeze.2) ho fun _ ↦ ⟨rfl, rfl, fun _ ↦ rfl⟩,
          hhalted⟩
      | error reason => exact hpoison reason
    · cases h
  | portExit closedByOwner =>
    simp only [writes, portExit, Option.some.injEq] at h
    split at h
    · cases h
      exact ⟨rfl, rfl, rfl, .refl _, hhalted⟩
    · cases h
      exact hpoison _
  | unsolicited =>
    cases h
    exact hpoison _


/-! ## The end of a compaction -/

theorem onto_coordinates (w : State) (p : Published) : (w.onto p).coordinates =
    ⟨p.stats.recovered.epochId, p.segment, p.stats.recovered.nextSequence,
      w.rotationTargetBytes⟩ := rfl

/-- An end with one append in the queue. -/
inductive Reopens (w : State) (token : ℕ) (payload : Payload) : State × List Sent → Prop
  | switched (p : Published) {m : Reply × State × List Sent} : Mutates (w.onto p) payload m →
      Reopens w token payload (m.2.1,
        m.2.2 ++ [.reply 0 (taggedReply m.1 (some p.stats) false),
          .result token (.ok p.stats (taggedReply m.1 (some p.stats) false).isSwitched)])
  | resumed (reason : Failure) {m : Reply × State × List Sent} :
      Mutates { w with online := none } payload m →
      Reopens w token payload (m.2.1, m.2.2 ++ [.reply 0 m.1, .result token (.error reason)])
  | abandoned (reason : Failure) : Reopens w token payload
      ((poison w reason).1, .result token (.error reason) :: (poison w reason).2)

theorem Ended.reopens {w : State} {o : Online} {payload : Payload} {r : State × List Sent}
    (h : Ended w o r) (ho : o.pending = [(0, payload)]) : Reopens w o.token payload r := by
  cases h with
  | switched p io hx =>
    rw [ho] at hx
    subst hx
    simpa [resumePending] using .switched p (mutate_mutates (w.onto p) payload (io 0))
  | resumed reason io hx =>
    rw [ho] at hx
    subst hx
    have htag : ∀ reply : Reply, taggedReply reply none false = reply := by
      intro reply
      cases reply <;> rfl
    simpa [resumePending, htag] using
      .resumed reason (mutate_mutates { w with online := none } payload (io 0))
  | abandoned reason => exact .abandoned reason

/-- The switch that a queued append carries: the engine adopts the epoch and expects exactly the
receipt it is given. -/
theorem switched_append {s : Pair} {admits : ℤ → Bool} {payload : Payload} {p : Published}
    {token : ℕ} {retention : Retention} {receipt' : Receipt} {base : Engine.State}
    (hagree : s.engine.coordinates = s.writer.coordinates)
    (honline : s.engine.onlineCompaction = .running token retention)
    (h : Engine.appendRecord vm s.engine payload ⟨admits, fun _ ↦
      .switched (receipt (s.writer.onto p) payload.bytes) p.stats⟩ = .ok (receipt', base)) :
    receipt' = receipt (s.writer.onto p) payload.bytes ∧
      base.coordinates = (s.writer.onto p).coordinates ∧
      base.onlineCompaction = .switched token retention := by
  simp only [Engine.appendRecord, honline, bind_eq_ok, pure_eq_ok] at h
  obtain ⟨adopted, hadopted, h⟩ := h
  cases h
  have htarget : s.engine.config.rotationTargetBytes = s.writer.rotationTargetBytes :=
    congrArg Coordinates.rotationTargetBytes hagree
  exact ⟨rfl, (adopt_coordinates htarget hadopted).1, rfl⟩

/-- With a command waiting. -/
theorem stage_of_reopens {s s' : Pair} {o : Online} {retention : Retention} {command : Command}
    {payload : Payload} {r : State × List Sent} (hhalted : Halted s.writer) (hmailbox : s.mailbox = [])
    (honline : s.engine.onlineCompaction = .running o.token retention)
    (hagree : s.engine.coordinates = s.writer.coordinates) (hwaiting : s.waiting = some command)
    (hrequest : Engine.request vm s.engine command.1 command.2 = some payload)
    (hr : Reopens s.writer o.token payload r) (h : absorb vm s r false = some s') :
    Stage vm s' := by
  unfold absorb at h
  cases hr with
  | abandoned reason =>
    have hreply : reply? (.result o.token (.error reason) :: (poison s.writer reason).2) = none :=
      reply?_poison _ _
    simp only [hwaiting, hreply] at h
    cases h
    exact .failed o.token reason (by simp [hmailbox]) rfl honline
      (by simp [hagree]) (.inr (poison_admitted hhalted reason))
  | resumed reason hm =>
    cases hm with
    | refused cause =>
      simp only [hwaiting, List.nil_append, reply?, List.findSome?_cons] at h
      rw [respond_failed h hrequest (appendRecord_refused rfl)]
      exact .failed o.token reason (by simp [hmailbox]) rfl honline hagree
        (.inl ⟨rfl, rfl⟩)
    | written =>
      simp only [hwaiting, List.nil_append, reply?, List.findSome?_cons] at h
      obtain ⟨hs', hcoordinates, honline'⟩ := respond_appended h hrequest rfl (by simp)
      rw [hs']
      refine .failed o.token reason (by simp [hmailbox]) rfl
        (honline'.trans honline) ?_ (.inl ⟨rfl, rfl⟩)
      have hsource : s.engine.coordinates = ({ s.writer with online := none } : State).coordinates :=
        hagree
      exact hcoordinates.trans (advance_coordinates hsource _)
    | failed cause =>
      rw [reply?_append_of_none (reply?_poison _ _)] at h
      simp only [hwaiting, reply?, List.findSome?_cons] at h
      rw [respond_failed h hrequest (appendRecord_refused rfl)]
      refine .failed o.token reason (by simp [hmailbox]) rfl honline ?_
        (.inl ⟨by simp, rfl⟩)
      rw [poison_coordinates]
      exact hagree
  | switched p hm =>
    have htarget : s.engine.config.rotationTargetBytes = s.writer.rotationTargetBytes :=
      congrArg Coordinates.rotationTargetBytes hagree
    cases hm with
    | refused cause =>
      simp only [hwaiting, List.nil_append, reply?, List.findSome?_cons] at h
      rw [respond_failed h hrequest (appendRecord_refused rfl)]
      exact .ahead o.token p (by simp [hmailbox, taggedReply, Reply.isSwitched])
        rfl rfl honline htarget rfl rfl
    | written =>
      simp only [hwaiting, List.nil_append, reply?, List.findSome?_cons, taggedReply] at h
      cases happend : Engine.appendRecord vm s.engine payload ⟨command.2, fun _ ↦
          (Reply.switched (receipt (s.writer.onto p) payload.bytes) p.stats).toEngine⟩ with
      | error reason =>
        have hs' := respond_failed h hrequest (by rw [happend]; simp)
        -- The engine fails to adopt the epoch and is gone.
        unfold respond at h
        split at h
        case h_1 out hout =>
          cases Engine.perform_advances vm hout with
          | silent hnone => rw [hrequest] at hnone; cases hnone
          | appends hsome happend' =>
            rw [hrequest] at hsome
            cases hsome
            rw [happend] at happend'
            cases happend'
        case h_2 => cases h
      | ok x =>
        obtain ⟨receipt', base⟩ := x
        obtain ⟨-, hbase, hswitched⟩ := switched_append hagree honline happend
        obtain ⟨hs', hcoordinates, honline'⟩ := respond_appended h hrequest happend (by simp)
        rw [hs']
        refine .switched o.token p.stats (by simp [hmailbox, Reply.isSwitched])
          rfl rfl (honline'.trans hswitched) ?_ rfl
        exact hcoordinates.trans (advance_coordinates hbase _)
    | failed cause =>
      rw [reply?_append_of_none (reply?_poison _ _)] at h
      simp only [hwaiting, reply?, List.findSome?_cons] at h
      rw [respond_failed h hrequest (appendRecord_refused rfl)]
      refine .ahead o.token p (by simp [hmailbox, taggedReply, Reply.isSwitched])
        rfl rfl honline ?_ ?_ (by simp [State.onto])
      · rw [htarget]
        exact (congrArg Coordinates.rotationTargetBytes
          (poison_coordinates (s.writer.onto p) cause)).symm
      · rw [poison_coordinates]
        have htarget' : (poison (s.writer.onto p) cause).1.rotationTargetBytes =
            s.writer.rotationTargetBytes :=
          congrArg Coordinates.rotationTargetBytes (poison_coordinates (s.writer.onto p) cause)
        rw [onto_coordinates, onto_coordinates, htarget']

/-- With nobody waiting. -/
theorem stage_of_ended {s s' : Pair} {o : Online} {retention : Retention} {r : State × List Sent}
    (hhalted : Halted s.writer) (hmailbox : s.mailbox = [])
    (honline : s.engine.onlineCompaction = .running o.token retention)
    (hagree : s.engine.coordinates = s.writer.coordinates) (hwaiting : s.waiting = none)
    (hpending : o.pending = []) (hr : Ended s.writer o r) (h : absorb vm s r false = some s') :
    Stage vm s' := by
  simp only [absorb, hwaiting, Option.some.injEq] at h
  subst h
  cases hr with
  | switched p io hx =>
    rw [hpending] at hx
    subst hx
    exact .ahead o.token p (by simp [hmailbox, resumePending]) rfl rfl honline
      (congrArg Coordinates.rotationTargetBytes hagree) rfl rfl
  | resumed reason io hx =>
    rw [hpending] at hx
    subst hx
    exact .failed o.token reason (by simp [hmailbox, resumePending]) rfl honline hagree
      (.inl ⟨rfl, rfl⟩)
  | abandoned reason =>
    exact .failed o.token reason (by simp [hmailbox, giveUp]) rfl honline (by simp [giveUp, hagree])
      (.inr (poison_admitted hhalted reason))

/-- Whatever the end, it leads to another stage. -/
theorem Stage.ended {s s' : Pair} {o : Online} {r : State × List Sent} (h : Stage vm s)
    (hhalted : Halted s.writer) (hbuilding : s.building = true) (ho : s.writer.online = some o)
    (hr : (o.frozen = false → o.pending = []) → Ended s.writer o r)
    (hstep : absorb vm s r false = some s') : Stage vm s' := by
  cases h with
  | idle _ hb | switched _ _ _ hb | failed _ _ _ hb | ahead _ _ _ hb =>
    rw [hbuilding] at hb
    cases hb
  | building hm _ ho' he hc hblocked =>
    rw [ho] at ho'
    cases ho'
    unfold Blocked at hblocked
    split at hblocked
    case h_1 hwaiting =>
      exact stage_of_ended hhalted hm he hc hwaiting hblocked (hr fun _ ↦ hblocked) hstep
    case h_2 command hwaiting =>
      obtain ⟨hfrozen, payload, hpending, hrequest⟩ := hblocked
      have hends : Ended s.writer o r := hr (by simp [hfrozen])
      exact stage_of_reopens hhalted hm he hc hwaiting hrequest (hends.reopens hpending) hstep

/-! ## Whole runs -/

/-- The rotation that starts a compaction is followed by the engine. -/
theorem start_coordinates {e t : Engine.State} {w rotated : State} {token : ℕ}
    {retention : Retention} (hagree : e.coordinates = w.coordinates)
    (honline : e.onlineCompaction = .none) (hrotate : rotate w = some rotated)
    (h : Engine.handle vm e (.compactOnline ⟨w.segment, rotated.segment, rotated.nextSequence⟩
      token retention) = .ok t) :
    t.coordinates = rotated.coordinates ∧ t.onlineCompaction = .running token retention := by
  simp only [Engine.handle, honline, Engine.OnlineCheckpoint.adoptRotation, bind_eq_ok, check_eq_ok,
    pure_eq_ok] at h
  obtain ⟨next, ⟨-, -, -, -, -, -, hnext⟩, h⟩ := h
  cases h
  refine ⟨?_, rfl⟩
  change next.coordinates = _
  simp only [Engine.State.coordinates, State.coordinates, Coordinates.mk.injEq] at hagree
  obtain ⟨hepoch, hsegment, hsequence, htarget⟩ := hagree
  unfold rotate at hrotate
  split at hrotate
  · cases hrotate
    simp only [hsegment, beq_self_eq_true, if_true, Except.ok.injEq] at hnext
    subst hnext
    simp only [Engine.State.coordinates, State.coordinates, hepoch, hsegment, hsequence, htarget]
  · split at hrotate
    · cases hrotate
    · cases hrotate
      simp only [hsegment, beq_eq_false_iff_ne.mpr (Nat.succ_ne_self w.segment.id)] at hnext
      rw [if_neg (by simp)] at hnext
      obtain ⟨-, -, hnext⟩ := bind_eq_ok.mp hnext
      cases hnext
      simp only [Engine.State.coordinates, State.coordinates, hepoch, hsequence, htarget]

theorem rotate_halted {w rotated : State} (h : rotate w = some rotated) (hw : Halted w) :
    Halted rotated := by
  unfold rotate at h
  split at h
  · cases h
    exact hw
  · split at h
    · cases h
    · cases h
      exact hw

theorem Stage.deliver {s s' : Pair} {admits : ℤ → Bool} (h : Stage vm s)
    (hstep : s.step vm (.deliver admits) = some s') : Stage vm s' ∧ s'.writer = s.writer := by
  simp only [Pair.step] at hstep
  split at hstep
  case h_2 => cases hstep
  case h_1 token' result rest hwaiting hmail =>
    rw [Option.map_eq_some_iff] at hstep
    obtain ⟨engine, hengine, rfl⟩ := hstep
    rw [toOption_eq_some] at hengine
    refine ⟨?_, rfl⟩
    cases h with
    | idle hm | building hm =>
      rw [hm] at hmail
      cases hmail
    | switched token stats hm hb hw he hc ho =>
      rw [hm] at hmail
      cases hmail
      simp only [Result.toEngine, Engine.handle, he, beq_self_eq_true, if_true,
        Except.ok.injEq] at hengine
      subst hengine
      exact .idle rfl hb hw rfl hc (.inl ho)
    | failed token reason hm hb he hc ho =>
      rw [hm] at hmail
      cases hmail
      simp only [Result.toEngine, Engine.handle, he, beq_self_eq_true, if_true,
        Except.ok.injEq] at hengine
      subst hengine
      exact .idle rfl hb hwaiting rfl hc (ho.imp And.left id)
    | ahead token p hm hb hw he ht hc ho =>
      rw [hm] at hmail
      cases hmail
      simp only [Result.toEngine, Engine.handle, he, beq_self_eq_true, if_true] at hengine
      obtain ⟨hcoordinates, honline⟩ := adopt_coordinates ht hengine
      exact .idle rfl hb hw honline (hcoordinates.trans hc.symm) (.inl ho)

theorem respond_writer {s s' : Pair} {command : Command} {reply : Reply}
    (h : respond vm s command reply = some s') : s'.writer = s.writer := by
  unfold respond at h
  split at h
  · cases h
    rfl
  · split at h
    · cases h
      rfl
    · cases h
    · cases h
    · cases h
      rfl
    · cases h

theorem absorb_writer {s s' : Pair} {r : State × List Sent} {building : Bool}
    (h : absorb vm s r building = some s') : s'.writer = r.1 := by
  unfold absorb at h
  split at h
  · rw [respond_writer h]
  · cases h
    rfl

/-- Messages from the builder and the port go straight to the writer. -/
theorem step_absorb {s s' : Pair} {l : Event} (hl : (l.quiet || l.ends) = true)
    (h : s.step vm l = some s') :
    ∃ r, writes vm s l = some r ∧ absorb vm s r (s.building && !l.ends) = some s' := by
  rw [← Option.bind_eq_some_iff]
  cases l with
  | command | start | deliver => cases hl
  | poll | freeze | freezeAck | portExit | unsolicited | complete | fail | builderDown => exact h

theorem InStep.step {s s' : Pair} {l : Event} (h : InStep vm s) (hok : Undisturbed s l)
    (hstep : s.step vm l = some s') : InStep vm s' := by
  have hquiet : l.quiet = true → l.ends = false → InStep vm s' := by
    intro hl hends
    obtain ⟨r, hr, habsorb⟩ := step_absorb (by rw [hl]; rfl) hstep
    obtain ⟨hresults, hreply, hcoordinates, hkeeps, hhalted⟩ := writes_quiet hl h.halted hr
    rw [hends, Bool.not_false, Bool.and_true] at habsorb
    have hs' : s' = { s with writer := r.1, mailbox := s.mailbox ++ results r.2 } := by
      unfold absorb at habsorb
      rw [hreply] at habsorb
      split at habsorb
      · rename_i hsome
        cases hsome
      · cases habsorb
        rfl
    rw [hs']
    exact ⟨h.stage.quiet rfl (by simp [hresults]) rfl rfl hcoordinates hkeeps, hhalted⟩
  have hended : ∀ {o : Online} {r : State × List Sent}, s.writer.online = some o →
      s.building = true → ((o.frozen = false → o.pending = []) → Ended s.writer o r) → Halted r.1 →
      absorb vm s r (s.building && !true) = some s' → InStep vm s' := by
    intro o r ho hbuilding hr hhalted habsorb
    rw [Bool.not_true, Bool.and_false] at habsorb
    exact ⟨h.stage.ended h.halted hbuilding ho hr habsorb, absorb_writer habsorb ▸ hhalted⟩
  cases l with
  | poll | freeze | freezeAck | portExit | unsolicited => exact hquiet rfl rfl
  | command op admits io =>
    have hwaiting : s.waiting = none := by
      simp only [Pair.step] at hstep
      split at hstep
      · cases hstep
      case isFalse hnone => simpa using hnone
    rcases command_step (h.stage.agree hok) hstep with ⟨o, payload, ho, hfrozen, hadmitted, hrequest, rfl⟩ |
      ⟨hmailbox, hbuilding, hwaiting', hagree, honline, hkeeps, hhalted⟩
    · refine ⟨?_, h.halted⟩
      -- A queue is only there while the builder is at work.
      cases h.stage with
      | idle hm hb hw he hc hidle => simp [ho, hadmitted] at hidle
      | building hm hb ho' he hc hblocked =>
        rw [ho] at ho'
        cases ho'
        refine .building (o := o.queue 0 payload) hm hb rfl he hc ?_
        unfold Blocked at hblocked ⊢
        rw [hwaiting] at hblocked
        exact ⟨hfrozen, payload, by simp [Online.queue, hblocked], hrequest⟩
      | switched token stats hm hb hw he hc hnone => rw [ho] at hnone; cases hnone
      | failed token reason hm hb he hc hidle => simp [ho, hadmitted] at hidle
      | ahead token p hm hb hw he ht hc hnone => rw [ho] at hnone; cases hnone
    · exact ⟨h.stage.answered hmailbox hbuilding hwaiting hwaiting' hok honline hagree hkeeps,
        hhalted h.halted⟩
  | start token retention =>
    simp only [Pair.step] at hstep
    split at hstep
    case isFalse => cases hstep
    case isTrue hready =>
      simp only [Bool.and_eq_true, Option.isNone_iff_eq_none, beq_iff_eq] at hready
      obtain ⟨⟨⟨hwaiting, -⟩, hnone⟩, honline⟩ := hready
      obtain ⟨rotated, hrotate, hstep⟩ := Option.bind_eq_some_iff.mp hstep
      rw [Option.map_eq_some_iff] at hstep
      obtain ⟨engine, hengine, rfl⟩ := hstep
      rw [toOption_eq_some] at hengine
      cases h.stage with
      | building _ _ _ he | switched _ _ _ _ _ he | failed _ _ _ _ he | ahead _ _ _ _ _ he =>
        rw [honline] at he
        cases he
      | idle hm hb hw he hc hidle =>
        obtain ⟨hcoordinates, hrunning⟩ := start_coordinates hc he hrotate hengine
        have hhalted : Halted rotated := rotate_halted hrotate h.halted
        refine ⟨.building (o := Online.new token) hm rfl rfl hrunning hcoordinates ?_, hhalted⟩
        unfold Blocked
        simp only [hwaiting]
        rfl
  | deliver admits =>
    obtain ⟨hstage, hwriter⟩ := h.stage.deliver hstep
    exact ⟨hstage, hwriter ▸ h.halted⟩
  | complete p e =>
    obtain ⟨r, hr, habsorb⟩ := step_absorb rfl hstep
    simp only [writes, Option.bind_eq_some_iff] at hr
    obtain ⟨o, ho, hr⟩ := hr
    split at hr
    case isFalse => cases hr
    case isTrue hbuilding =>
      cases hr
      exact hended ho hbuilding (fun _ ↦ complete_ended _ _ _ _) (h.halted.complete _ _ _) habsorb
  | fail reason landed e =>
    obtain ⟨r, hr, habsorb⟩ := step_absorb rfl hstep
    simp only [writes, Option.bind_eq_some_iff] at hr
    obtain ⟨o, ho, hr⟩ := hr
    split at hr
    case isFalse => cases hr
    case isTrue hbuilding =>
      cases hr
      exact hended ho hbuilding (fun hf ↦ fail_ended _ hf _ _ _) (h.halted.fail _ _ _ _) habsorb
  | builderDown e =>
    obtain ⟨r, hr, habsorb⟩ := step_absorb rfl hstep
    simp only [writes, Option.bind_eq_some_iff] at hr
    obtain ⟨o, ho, hr⟩ := hr
    split at hr
    case isFalse => cases hr
    case isTrue hbuilding =>
      cases hr
      exact hended ho hbuilding (fun hf ↦ builderDown_ended _ hf _) (h.halted.builderDown _ _) habsorb

theorem reachable_inStep {s : Pair} (hs : (pair vm).ReachableUnder Undisturbed s) : InStep vm s := by
  refine Machine.ReachableUnder.invariant (I := InStep vm) ?_ ?_ hs
  · intro s h
    obtain ⟨hagree, hengine, hwriter, hbuilding, hmailbox, hwaiting, hpoisoned⟩ := h
    exact ⟨.idle hmailbox hbuilding hwaiting hengine hagree (.inl hwriter),
      fun hp ↦ absurd hpoisoned hp⟩
  · exact fun s l s' h hok hl ↦ h.step hok hl

/-- A reply on the coordinates the engine has. -/
theorem expected_of_agree {e : Engine.State} {w : State} {payload : Payload} {admits : ℤ → Bool}
    {m : Reply × State × List Sent} {receipt' : Receipt} {base : Engine.State}
    (hagree : e.coordinates = w.coordinates) (hm : Mutates w payload m)
    (h : Engine.appendRecord vm e payload ⟨admits, fun _ ↦ m.1.toEngine⟩ = .ok (receipt', base)) :
    receipt' = Engine.expectedPosition base payload.bytes := by
  cases hm with
  | refused | failed => exact absurd h (appendRecord_refused rfl _ _)
  | written =>
    cases h
    exact (expectedPosition_eq hagree _).symm

theorem expected_of_command {s : Pair} {payload : Payload} {admits : ℤ → Bool}
    {r : State × List Sent} {reply : Reply} {receipt' : Receipt} {base : Engine.State}
    (hagree : s.engine.coordinates = s.writer.coordinates) (hr : Handles s.writer payload r)
    (hreply : reply? r.2 = some reply)
    (h : Engine.appendRecord vm s.engine payload ⟨admits, fun _ ↦ reply.toEngine⟩ =
      .ok (receipt', base)) : receipt' = Engine.expectedPosition base payload.bytes := by
  cases hr with
  | queued => cases hreply
  | turned reply' hrefuses =>
    cases hreply
    exact absurd h (appendRecord_refused hrefuses _ _)
  | mutated _ hm =>
    have hnone := hm.reply_none
    rw [reply?_append_of_none hnone] at hreply
    cases hreply
    exact expected_of_agree hagree hm h

theorem expected_of_reopens {s : Pair} {payload : Payload} {admits : ℤ → Bool} {token : ℕ}
    {retention : Retention} {r : State × List Sent} {reply : Reply} {receipt' : Receipt}
    {base : Engine.State} (hagree : s.engine.coordinates = s.writer.coordinates)
    (honline : s.engine.onlineCompaction = .running token retention)
    (hr : Reopens s.writer token payload r) (hreply : reply? r.2 = some reply)
    (h : Engine.appendRecord vm s.engine payload ⟨admits, fun _ ↦ reply.toEngine⟩ =
      .ok (receipt', base)) : receipt' = Engine.expectedPosition base payload.bytes := by
  cases hr with
  | abandoned reason =>
    have hnone : reply? (poison s.writer reason).2 = some reply := hreply
    rw [reply?_poison] at hnone
    cases hnone
  | resumed reason hm =>
    have hnone := hm.reply_none
    rw [reply?_append_of_none hnone] at hreply
    cases hreply
    have hsource : s.engine.coordinates = ({ s.writer with online := none } : State).coordinates :=
      hagree
    exact expected_of_agree hsource hm h
  | switched p hm =>
    have hnone := hm.reply_none
    rw [reply?_append_of_none hnone] at hreply
    cases hreply
    cases hm with
    | refused | failed => exact absurd h (appendRecord_refused rfl _ _)
    | written =>
      obtain ⟨rfl, hbase, -⟩ := switched_append hagree honline h
      exact (expectedPosition_eq hbase _).symm

/-- **Engine and writer agree across a switch**: in every run in which no command is handled while a
switch waits in the engine's mailbox, every receipt the engine processes is the one it expects. -/
theorem receipts_expected {s : Pair} (hs : (pair vm).ReachableUnder Undisturbed s) {l : Event}
    (hl : Undisturbed s l) : Expected vm s l := by
  have hinv := reachable_inStep hs
  intro command payload r reply receipt' base hcommand hrequest hwrites hreply happend
  rw [Engine.validateReceipt, check_eq_ok, beq_iff_eq]
  have hquiet : l.quiet = true → receipt' = Engine.expectedPosition base payload.bytes := by
    intro hq
    rw [(writes_quiet hq hinv.halted hwrites).2.1] at hreply
    cases hreply
  have hended : ∀ {o : Online}, s.writer.online = some o → s.building = true →
      s.waiting = some command → ((o.frozen = false → o.pending = []) → Ended s.writer o r) →
      receipt' = Engine.expectedPosition base payload.bytes := by
    intro o ho hbuilding hwaiting hr
    cases hinv.stage with
    | idle _ hb | switched _ _ _ hb | failed _ _ _ hb | ahead _ _ _ hb =>
      rw [hbuilding] at hb
      cases hb
    | building hm _ ho' he hc hblocked =>
      rw [ho] at ho'
      cases ho'
      unfold Blocked at hblocked
      rw [hwaiting] at hblocked
      obtain ⟨hfrozen, queued, hpending, hqueued⟩ := hblocked
      rw [hrequest] at hqueued
      cases hqueued
      have hends : Ended s.writer o r := hr (by simp [hfrozen])
      exact expected_of_reopens hc he (hends.reopens hpending) hreply happend
  cases l with
  | poll | freeze | freezeAck | portExit | unsolicited => exact hquiet rfl
  | start | deliver => cases hwrites
  | command op admits io =>
    cases hcommand
    simp only [writes, hrequest, Option.map_some] at hwrites
    split at hwrites
    · cases hwrites
    · cases hwrites
      exact expected_of_command (hinv.stage.agree hl) (handleAppend_handles _ _ _) hreply happend
  | complete p e =>
    simp only [writes, Option.bind_eq_some_iff] at hwrites
    obtain ⟨o, ho, hr⟩ := hwrites
    split at hr
    case isFalse => cases hr
    case isTrue hbuilding =>
      cases hr
      exact hended ho hbuilding hcommand fun _ ↦ complete_ended _ _ _ _
  | fail reason landed e =>
    simp only [writes, Option.bind_eq_some_iff] at hwrites
    obtain ⟨o, ho, hr⟩ := hwrites
    split at hr
    case isFalse => cases hr
    case isTrue hbuilding =>
      cases hr
      exact hended ho hbuilding hcommand fun hf ↦ fail_ended _ hf _ _ _
  | builderDown e =>
    simp only [writes, Option.bind_eq_some_iff] at hwrites
    obtain ⟨o, ho, hr⟩ := hwrites
    split at hr
    case isFalse => cases hr
    case isTrue hbuilding =>
      cases hr
      exact hended ho hbuilding hcommand fun hf ↦ builderDown_ended _ hf _

namespace Sample

open Tay.Sample

/-- The log of one job, inserted and started, after the rotation that begins a compaction. -/
def log : Directory :=
  ⟨manifest 0, [⟨1, 1, Publisher.Sample.framed 1
    [insertion 1, .mutation ⟨1, 1, 2, 13, .started 1 1⟩], true⟩, ⟨2, 3, [], false⟩]⟩

/-- What the publisher makes of it: the job is one snapshot now. -/
def compacted : Publisher.Published :=
  (Publisher.publishOnline runtime Publisher.Sample.request log 2 2 []).toOption.getD
    ⟨log, Engine.Sample.recovered⟩

def epoch : Published where
  stats := ⟨compacted.recovered, 100, .minutes 0⟩
  segment := Engine.Sample.openSegment 2 44 0
  highest := by decide +kernel

/-- A generation on a fresh store. -/
def generation : Pair where
  engine := Engine.Sample.empty
  writer := ⟨Engine.Sample.empty.epochId, Engine.Sample.segment, 1, 16777352, none, true, none⟩
  building := false
  mailbox := []
  waiting := none

def insert (id : ℕ) : Event :=
  .command (.insert ⟨id, 0, 10, .inserted definition 10⟩ .persistent) (fun _ ↦ true) (.ok ())

/-- A job is inserted and started, and an online compaction gets as far as the freeze. -/
def frozen : List Event :=
  [insert 1, .command Engine.Sample.startFirst (fun _ ↦ true) (.ok ()), .start 1 (.minutes 0),
    .freeze, .freezeAck (.ok ())]

end Sample

/-- An insertion is queued, and carries the switch when the compaction succeeds. -/
theorem receipts_expected_sample :
    ∃ s r receipt stats, (pair Tay.Sample.runtime).ReachableUnder Undisturbed s ∧
      writes Tay.Sample.runtime s (.complete Sample.epoch Sample.ending) = some r ∧
      reply? r.2 = some (.switched receipt stats) ∧
      Expected Tay.Sample.runtime s (.complete Sample.epoch Sample.ending) := by
  have hrun : (((pair Tay.Sample.runtime).under Undisturbed).run Sample.generation
      (Sample.frozen ++ [Sample.insert 2])).any (fun s ↦
        (writes Tay.Sample.runtime s (.complete Sample.epoch Sample.ending)).any fun r ↦
          (reply? r.2).any Reply.isSwitched) = true := by decide +kernel
  obtain ⟨s, hs, h⟩ := (Option.any_eq_true _ _).mp hrun
  obtain ⟨r, hr, h⟩ := (Option.any_eq_true _ _).mp h
  obtain ⟨reply, hreply, h⟩ := (Option.any_eq_true _ _).mp h
  have hreachable : (pair Tay.Sample.runtime).ReachableUnder Undisturbed s :=
    Machine.reachableUnder_of_run
      (.initial ⟨by decide +kernel, by decide +kernel, rfl, rfl, rfl, rfl, rfl⟩) hs
  cases reply with
  | switched receipt stats =>
    exact ⟨s, r, receipt, stats, hreachable, hr, hreply, receipts_expected hreachable trivial⟩
  | ok | error | uncertain | mutationNotAdmitted | poisoned => cases h

/-- The switch is complete and its message waits in the mailbox; the next insertion is answered with
the coordinates of the new epoch, which the engine does not know. -/
theorem receipts_unexpected :
    Publisher.publishOnline Tay.Sample.runtime Publisher.Sample.request Sample.log 2 2 [] =
        .ok Sample.compacted ∧
      ¬ ∀ s l, (pair Tay.Sample.runtime).Reachable s → Expected Tay.Sample.runtime s l := by
  have heval : (Publisher.publishOnline Tay.Sample.runtime Publisher.Sample.request Sample.log 2 2
      []).isOk = true ∧
      ((pair Tay.Sample.runtime).run Sample.generation
        (Sample.frozen ++ [.complete Sample.epoch Sample.ending])).any (fun s ↦
          (Engine.request Tay.Sample.runtime s.engine
              (.insert ⟨2, 0, 10, .inserted Tay.Sample.definition 10⟩ .persistent)
              (fun _ ↦ true)).any fun payload ↦
            (writes Tay.Sample.runtime s (Sample.insert 2)).any fun r ↦
              (reply? r.2).any fun reply ↦
                match Engine.appendRecord Tay.Sample.runtime s.engine payload
                    ⟨fun _ ↦ true, fun _ ↦ reply.toEngine⟩ with
                | .ok x => x.1 != Engine.expectedPosition x.2 payload.bytes
                | .error _ => false) = true := by decide +kernel
  obtain ⟨hpublish, hrun⟩ := heval
  refine ⟨eq_ok_of_isOk hpublish, fun hall ↦ ?_⟩
  obtain ⟨s, hs, h⟩ := (Option.any_eq_true _ _).mp hrun
  obtain ⟨payload, hrequest, h⟩ := (Option.any_eq_true _ _).mp h
  obtain ⟨r, hr, h⟩ := (Option.any_eq_true _ _).mp h
  obtain ⟨reply, hreply, h⟩ := (Option.any_eq_true _ _).mp h
  have hreachable : (pair Tay.Sample.runtime).Reachable s :=
    Machine.reachable_of_run ⟨by decide +kernel, by decide +kernel, rfl, rfl, rfl, rfl, rfl⟩ hs
  split at h
  case h_2 => cases h
  case h_1 x happend =>
    have hexpected := hall s (Sample.insert 2) hreachable _ payload r reply x.1 x.2 rfl hrequest hr
      hreply happend
    rw [Engine.validateReceipt, check_eq_ok, beq_iff_eq] at hexpected
    rw [bne_iff_ne] at h
    exact h hexpected

end Tay.Writer
