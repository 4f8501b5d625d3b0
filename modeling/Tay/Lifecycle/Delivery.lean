import Tay.Foundation.Window
import Tay.Lifecycle.Admission

/-!
# Delivery of commands

`CommandDelivery` is a window over the commands the guardian has accepted: it is fed by `:submit`, a
completion or a yield frees a place in it, and the start of a drain and the switch of an online compaction
flush it in front of the message to the engine that fences it.

The guardian is observed: what it accepts, sends and hears of is written down in order, a fence after what was
flushed for it. The record begins anew with every generation that is revoked or cleared, which drops what is
pending. A yield frees the place of a command that is not answered yet, so the window bounds the commands that
were sent and neither answered nor yielded, and the unanswered ones only where none has yielded.
-/

open Foundation Foundation.Window

namespace Tay.Lifecycle

/-! ## The record -/

/-- What a command is known by: its slot and its token. -/
def Command.permit (c : Command) : Slot × ℕ := (c.slot, c.token)

/-- Why a command leaves the window. -/
inductive Reason
  | answered
  | yielded
  deriving DecidableEq, Repr

/-- The messages to the engine that everything submitted before goes in front of: `:lifecycle_drain` and
`:online_compaction_switch_ack`. -/
inductive Fence
  | drain (token : ℕ)
  | switchAck (token : ℕ)
  deriving DecidableEq, Repr

abbrev Entry := Window.Entry Command (Slot × ℕ) Reason Fence

namespace World

variable (w : World) (oracle : Oracle)

/-- The queue and the active set. -/
def window : Window Command (Slot × ℕ) := ⟨w.delivery.pending, w.delivery.active⟩

/-- Whether a submission is accepted. -/
def accepts (owner generation : ℕ) (slot : Slot) (token : ℕ) : Bool :=
  (w.slots slot).any (fun h ↦ h.token = token && h.owner = owner && h.stage = .reserved) &&
    w.admissionReady? generation

/-- Whether a completion answers a submitted command. -/
def answers (engine : ℕ) (slot : Slot) (token owner : ℕ) : Bool :=
  w.engine = some engine &&
    (w.slots slot).any fun h ↦ h.token = token && h.owner = owner && h.stage = .submitted

/-- Whether a requested operation begins by draining. -/
def drains (owner generation token : ℕ) (kind : Kind) (force : Bool) (deadline : ℕ) (valid : Bool) : Bool :=
  w.row = some ⟨token, owner, .claimed, deadline⟩ && w.startable oracle generation kind force deadline valid &&
    !(force || [StateName.stopped, .failed].contains w.status.state) && kind ≠ .compact

/-- What a message tells about the window before anything is sent. -/
def heard : Message → List Entry
  | .submit owner generation slot token =>
    if w.accepts owner generation slot token then [.accepted ⟨generation, slot, token, owner⟩] else []
  | .completed engine slot token owner _ =>
    if w.answers engine slot token owner then [.freed (slot, token) .answered] else []
  | .commandYielded engine slot token =>
    if w.engine = some engine then [.freed (slot, token) .yielded] else []
  | _ => []

/-- The fence that ends the handling of a message. -/
def fenced : Message → List Entry
  | .operation owner generation token kind force deadline valid =>
    if w.drains oracle owner generation token kind force deadline valid then [.fence (.drain token)] else []
  | .onlineUnsupported engine token =>
    if (w.current engine token (inCompaction [.compacting])).isSome then [.fence (.drain token)] else []
  | .switchRequested engine token =>
    if (w.current engine token (inCompaction [.compacting])).isSome then [.fence (.switchAck token)] else []
  | _ => []

/-- What was sent between two states. -/
def sentSince (w' : World) : List Entry := (w'.sent.drop w.sent.length).map .sent

/-- What one step adds to the record. -/
def entries (w' : World) : Label → List Entry
  | .handle oracle =>
    match w.mailbox with
    | [] => []
    | m :: rest =>
      heard { w with mailbox := rest } m ++ w.sentSince w' ++ fenced { w with mailbox := rest } oracle m
  | _ => []

/-- The record of the generation: it begins anew where the generation is cleared or fails. -/
def note (l : Label) (w' : World) (log : List Entry) : List Entry :=
  if w'.clears ≠ w.clears ∨ w'.status.state = .failed then [] else log ++ w.entries w' l

end World

/-- The guardian from its start, with the record beside it. -/
def delivery : Machine (World × List Entry) Label :=
  { machine with initial := fun w ↦ ∃ settings, w = World.init settings }.observed (fun _ ↦ []) World.note

namespace World

/-! ## What a message does to the delivery -/

/-- Nothing happens to the delivery. -/
structure Quiet (w w' : World) : Prop where
  delivery : w'.delivery = w.delivery
  sent : w'.sent = w.sent
  clears : w'.clears = w.clears
  failed : w'.status.state = .failed → w.status.state = .failed

/-- The delivery is given up with its generation. -/
structure Renewed (w w' : World) : Prop where
  delivery : w'.delivery = .new
  sent : w'.sent = w.sent
  abandoned : w'.clears ≠ w.clears ∨ w'.status.state = .failed

theorem Quiet.refl (w : World) : Quiet w w := ⟨rfl, rfl, rfl, id⟩

theorem Quiet.trans {u v w : World} (h : Quiet u v) (h' : Quiet v w) : Quiet u w where
  delivery := h'.delivery.trans h.delivery
  sent := h'.sent.trans h.sent
  clears := h'.clears.trans h.clears
  failed := h.failed ∘ h'.failed

theorem Quiet.renewed {u v w : World} (h : Quiet u v) (h' : Renewed v w) : Renewed u w where
  delivery := h'.delivery
  sent := h'.sent.trans h.sent
  abandoned := h'.abandoned.imp_left fun hclears heq ↦ hclears (heq.trans h.clears.symm)

theorem Quiet.window {w w' : World} (h : Quiet w w') : w'.window = w.window := by
  rw [World.window, World.window, h.delivery]

variable (w : World)

theorem quiet_publish {status : Status} (h : status.state ≠ .failed) : Quiet w (w.publish status) :=
  ⟨rfl, rfl, rfl, fun hfailed ↦ absurd hfailed h⟩

theorem quiet_kill (p : ℕ) : Quiet w (w.kill p) := by
  unfold kill
  split
  · exact ⟨rfl, rfl, rfl, id⟩
  · exact .refl w

theorem quiet_killEngine : Quiet w w.killEngine := by
  unfold killEngine
  split
  · exact w.quiet_kill _
  · exact .refl w

theorem quiet_release (slot : Slot) (token : ℕ) : Quiet w (w.release slot token) := by
  unfold release
  dsimp only
  split <;> split <;> exact ⟨rfl, rfl, rfl, id⟩

theorem quiet_finishOperation : Quiet w w.finishOperation := by
  unfold finishOperation
  split
  · exact .refl w
  · exact ⟨rfl, rfl, rfl, id⟩

theorem quiet_mergeSnapshot (mode : Mode) : Quiet w (w.mergeSnapshot mode) := by
  unfold mergeSnapshot
  split
  · split
    · exact .refl w
    · exact w.quiet_publish (by cases mode <;> simp [Mode.state])
  · exact .refl w

theorem quiet_closeGeneration (o : Operation) : Quiet w (w.closeGeneration o) := by
  have hrow : Quiet w { w with row := some ⟨o.token, o.owner, .closing, o.deadline⟩, operation := some o } :=
    ⟨rfl, rfl, rfl, id⟩
  have hstopping : (Status.transition .stopping).state ≠ .failed := by simp [Status.transition]
  have hkilled := (hrow.trans (quiet_publish _ hstopping)).trans (quiet_killEngine _)
  exact ⟨hkilled.delivery, hkilled.sent, hkilled.clears, hkilled.failed⟩

theorem quiet_beginClosing : Quiet w w.beginClosing := by
  unfold beginClosing
  split
  · exact .refl w
  · split
    · exact .refl w
    · exact w.quiet_closeGeneration _

theorem quiet_expireOperation : Quiet w w.expireOperation := by
  unfold expireOperation
  split
  · exact .refl w
  · split
    · split
      · exact (w.quiet_publish (by simp [Status.transition])).trans (quiet_finishOperation _)
      · exact w.quiet_finishOperation
    · exact .refl w

theorem renewed_revoke : Renewed w w.revoke := by
  unfold revoke
  dsimp only
  split
  · have hended : Quiet (w.publish (.transition .failed)) (w.publish (.transition .failed)).finishOperation :=
      quiet_finishOperation _
    have hkilled := hended.trans (quiet_killEngine _)
    refine ⟨rfl, hkilled.sent, .inr ?_⟩
    unfold killEngine kill finishOperation
    repeat' split
    all_goals rfl
  · have hkilled := quiet_killEngine (w.publish (.transition .failed))
    refine ⟨rfl, hkilled.sent, .inr ?_⟩
    unfold killEngine kill
    repeat' split
    all_goals rfl

theorem renewed_clear (status : Status) : Renewed w (w.clearGeneration.publish status) :=
  ⟨rfl, rfl, .inl (Nat.succ_ne_self _)⟩

theorem Renewed.ended {w w' : World} (h : Renewed w w') : Renewed w w'.finishOperation := by
  have hquiet := w'.quiet_finishOperation
  refine ⟨hquiet.delivery.trans h.delivery, hquiet.sent.trans h.sent, ?_⟩
  rw [hquiet.clears]
  refine h.abandoned.imp_right fun hfailed ↦ ?_
  unfold finishOperation
  split <;> exact hfailed

variable (oracle : Oracle)

/-- What handling a message can do to the delivery, with what is heard before and the fence behind. -/
inductive Effect (w w' : World) (told fence : List Entry) : Prop
  | quiet : told = [] → fence = [] → Quiet w w' → Effect w w' told fence
  | renewed : Renewed w w' → Effect w w' told fence
  | accepted (owner generation : ℕ) (slot : Slot) (h : Hold) : w.slots slot = some h → h.stage = .reserved →
      w'.slots slot = some { h with stage := .submitted } → w.status.state ≠ .failed →
      told = [.accepted ⟨generation, slot, h.token, owner⟩] → fence = [] →
      w'.window = (w.window.accept ⟨generation, slot, h.token, owner⟩).dispatch Command.permit w.settings.window →
      w'.sent = w.sent ++ (w.window.accept ⟨generation, slot, h.token, owner⟩).ready w.settings.window →
      w'.clears = w.clears → w'.status = w.status → Effect w w' told fence
  | freed (p : Slot × ℕ) (reason : Reason) : told = [.freed p reason] → fence = [] →
      w'.window = (w.window.free p).dispatch Command.permit w.settings.window →
      w'.sent = w.sent ++ (w.window.free p).ready w.settings.window →
      w'.clears = w.clears → (w'.status.state = .failed → w.status.state = .failed) → Effect w w' told fence
  | flushed (f : Fence) : told = [] → fence = [.fence f] →
      w'.window = ⟨[], w.delivery.active ∪ (w.delivery.pending.map Command.permit).toFinset⟩ →
      w'.sent = w.sent ++ w.delivery.pending → w'.clears = w.clears → w'.status.state ≠ .failed →
      Effect w w' told fence

/-- A flush sends the whole queue. -/
theorem flushCommands_eq : w.flushCommands.sent = w.sent ++ w.delivery.pending ∧ w.flushCommands.window =
    ⟨[], w.delivery.active ∪ (w.delivery.pending.map Command.permit).toFinset⟩ := by
  have hroom : w.delivery.active.card + w.delivery.pending.length - w.delivery.active.card =
      w.delivery.pending.length := by omega
  have hready : w.delivery.pending.take
      (w.delivery.active.card + w.delivery.pending.length - w.delivery.active.card) = w.delivery.pending := by
    rw [hroom, List.take_length]
  have hrest : w.delivery.pending.drop
      (w.delivery.active.card + w.delivery.pending.length - w.delivery.active.card) = [] := by
    rw [hroom, List.drop_length]
  unfold flushCommands dispatch World.window
  dsimp only
  rw [hready, hrest]
  exact ⟨rfl, rfl⟩

theorem effect_submit (owner generation : ℕ) (slot : Slot) (token : ℕ) :
    Effect w (w.handleSubmit owner generation slot token) (w.heard (.submit owner generation slot token)) [] := by
  have hheard : w.heard (.submit owner generation slot token) =
      if w.accepts owner generation slot token then [.accepted ⟨generation, slot, token, owner⟩] else [] := rfl
  unfold handleSubmit
  rcases hslot : w.slots slot with _ | h
  · have hnot : w.accepts owner generation slot token = false := by rw [accepts, hslot]; rfl
    rw [hnot] at hheard
    exact .quiet hheard rfl (.refl w)
  dsimp only
  by_cases hmatch : h.token = token ∧ h.owner = owner ∧ h.stage = .reserved
  · have haccepts : w.accepts owner generation slot token = w.admissionReady? generation := by
      obtain ⟨htoken, howner, hstage⟩ := hmatch
      simp only [accepts, hslot, Option.any_some, htoken, howner, hstage, decide_true, Bool.and_self, Bool.true_and]
    rw [if_pos hmatch]
    by_cases hready : w.admissionReady? generation = true
    · rw [if_pos hready]
      rw [haccepts, if_pos hready] at hheard
      have hserving : w.status.state ≠ .failed := fun hfailed ↦ by
        rw [admissionReady?, hfailed] at hready
        simp at hready
      obtain ⟨rfl, -, hstage⟩ := hmatch
      exact .accepted owner generation slot h hslot hstage (Function.update_self slot _ w.slots) hserving hheard rfl
        rfl rfl rfl rfl
    · rw [if_neg hready]
      rw [haccepts, if_neg hready] at hheard
      exact .quiet hheard rfl (w.quiet_release slot token)
  · have hnot : w.accepts owner generation slot token = false := by
      rw [accepts, hslot, Option.any_some]
      simp only [Bool.and_eq_false_iff, decide_eq_false_iff_not]
      tauto
    rw [if_neg hmatch]
    rw [hnot] at hheard
    exact .quiet hheard rfl (.refl w)

theorem effect_completed (engine : ℕ) (slot : Slot) (token owner : ℕ) (mode : Mode) :
    Effect w (w.handleCompleted engine slot token owner mode)
      (w.heard (.completed engine slot token owner mode)) [] := by
  have hheard : w.heard (.completed engine slot token owner mode) =
      if w.answers engine slot token owner then [.freed (slot, token) .answered] else [] := rfl
  unfold handleCompleted
  by_cases hengine : w.engine = some engine
  · rw [if_pos hengine]
    rcases hslot : w.slots slot with _ | h
    · have hnot : w.answers engine slot token owner = false := by
        rw [answers, hslot, Option.any_none, Bool.and_false]
      rw [hnot] at hheard
      exact .quiet hheard rfl (.refl w)
    dsimp only
    by_cases hmatch : h.token = token ∧ h.owner = owner ∧ h.stage = .submitted
    · have hanswers : w.answers engine slot token owner = true := by
        obtain ⟨htoken, howner, hstage⟩ := hmatch
        simp only [answers, hengine, hslot, Option.any_some, htoken, howner, hstage, decide_true, Bool.and_self]
      rw [if_pos hmatch]
      rw [hanswers] at hheard
      have hmerged := w.quiet_mergeSnapshot mode
      have hfinished : ((w.mergeSnapshot mode).finishDelivery slot token).window = w.window.free (slot, token) :=
        congrArg (Window.free · (slot, token)) hmerged.window
      have hreleased := quiet_release ((w.mergeSnapshot mode).finishDelivery slot token) slot token
      have hwindow := hreleased.window.trans hfinished
      have hsent := hreleased.sent.trans hmerged.sent
      refine .freed (slot, token) .answered hheard rfl ?_ ?_ (hreleased.clears.trans hmerged.clears)
        (hmerged.failed ∘ hreleased.failed)
      · rw [← hwindow]
        rfl
      · rw [← hwindow, ← hsent]
        rfl
    · have hnot : w.answers engine slot token owner = false := by
        rw [answers, hslot, Option.any_some]
        simp only [Bool.and_eq_false_iff, decide_eq_false_iff_not]
        tauto
      rw [if_neg hmatch]
      rw [hnot] at hheard
      exact .quiet hheard rfl (.refl w)
  · have hnot : w.answers engine slot token owner = false := by
      rw [answers, decide_eq_false hengine, Bool.false_and]
    rw [if_neg hengine]
    rw [hnot] at hheard
    exact .quiet hheard rfl (.refl w)

theorem effect_yielded (engine : ℕ) (slot : Slot) (token : ℕ) :
    Effect w (w.handle oracle (.commandYielded engine slot token)) (w.heard (.commandYielded engine slot token))
      [] := by
  rw [handle, heard]
  by_cases hengine : w.engine = some engine
  · rw [if_pos hengine, if_pos hengine]
    exact .freed (slot, token) .yielded rfl rfl rfl rfl rfl id
  · rw [if_neg hengine, if_neg hengine]
    exact .quiet rfl rfl (.refl w)

theorem effect_operation (owner generation token : ℕ) (kind : Kind) (force : Bool) (deadline : ℕ)
    (valid : Bool) :
    Effect w (w.handleOperation oracle owner generation token kind force deadline valid) []
      (w.fenced oracle (.operation owner generation token kind force deadline valid)) := by
  have hfenced : w.fenced oracle (.operation owner generation token kind force deadline valid) =
      if w.drains oracle owner generation token kind force deadline valid then [.fence (.drain token)] else [] := rfl
  unfold handleOperation
  by_cases hrow : w.row = some ⟨token, owner, .claimed, deadline⟩
  · rw [if_pos hrow]
    by_cases hstart : w.startable oracle generation kind force deadline valid = true
    · rw [if_pos hstart]
      dsimp only
      by_cases hnow : (force || [StateName.stopped, .failed].contains w.status.state) = true
      · have hnot : w.drains oracle owner generation token kind force deadline valid = false := by
          rw [drains, hnow, Bool.not_true, Bool.and_false, Bool.false_and]
        rw [hnot] at hfenced
        rw [if_pos hnow]
        refine .quiet rfl hfenced (Quiet.trans ?_ (quiet_beginClosing _))
        exact ⟨rfl, rfl, rfl, id⟩
      · rw [if_neg hnow]
        have hdrains : w.drains oracle owner generation token kind force deadline valid =
            decide (kind ≠ .compact) := by
          rw [drains, decide_eq_true hrow, hstart, Bool.eq_false_iff.mpr hnow]
          rfl
        rw [hdrains] at hfenced
        have hflush := fun operation : Option Operation ↦ flushCommands_eq ({ w with
          row := some ⟨token, owner, .submitted, deadline⟩
          operation }.publish ⟨.draining, some .draining⟩)
        cases kind with
        | compact =>
          refine .quiet rfl hfenced ⟨rfl, rfl, rfl, fun hfailed ↦ ?_⟩
          exact StateName.noConfusion hfailed
        | stop | restart =>
          refine .flushed (.drain token) rfl hfenced (hflush _).2 (hflush _).1 rfl fun hfailed ↦ ?_
          exact StateName.noConfusion hfailed
    · have hnot : w.drains oracle owner generation token kind force deadline valid = false := by
        rw [drains, Bool.eq_false_iff.mpr hstart, Bool.and_false, Bool.false_and, Bool.false_and]
      rw [if_neg hstart]
      rw [hnot] at hfenced
      exact .quiet rfl hfenced ⟨rfl, rfl, rfl, id⟩
  · have hnot : w.drains oracle owner generation token kind force deadline valid = false := by
      rw [drains, decide_eq_false hrow, Bool.false_and, Bool.false_and, Bool.false_and]
    rw [if_neg hrow]
    rw [hnot] at hfenced
    exact .quiet rfl hfenced (.refl w)

/-- The policy only ever starts a compaction, which serves on. -/
theorem quiet_automatic (policy token generation deadline : ℕ) :
    Quiet w (w.handleAutomatic oracle policy token generation deadline) := by
  unfold handleAutomatic
  split
  · unfold handleOperation
    split
    · split
      · dsimp only
        split
        · refine Quiet.trans ?_ (quiet_beginClosing _)
          exact ⟨rfl, rfl, rfl, id⟩
        · exact ⟨rfl, rfl, rfl, fun hfailed ↦ StateName.noConfusion hfailed⟩
      · exact ⟨rfl, rfl, rfl, id⟩
    · exact ⟨rfl, rfl, rfl, id⟩
  · exact .refl w

theorem effect_unsupported (engine token : ℕ) :
    Effect w (w.handleUnsupported engine token) [] (w.fenced oracle (.onlineUnsupported engine token)) := by
  rw [handleUnsupported, fenced]
  rcases w.current engine token (inCompaction [.compacting]) with _ | o
  · exact .quiet rfl rfl (.refl w)
  · have hflush := flushCommands_eq ({ w with operation := some { o with phase := .draining } }.publish
      ⟨.migrating, some .draining⟩)
    refine .flushed (.drain token) rfl rfl hflush.2 hflush.1 rfl fun hfailed ↦ ?_
    exact StateName.noConfusion hfailed

theorem effect_switchRequested (engine token : ℕ) :
    Effect w (w.handleSwitchRequested engine token) [] (w.fenced oracle (.switchRequested engine token)) := by
  rw [handleSwitchRequested, fenced]
  rcases w.current engine token (inCompaction [.compacting]) with _ | o
  · exact .quiet rfl rfl (.refl w)
  · have hflush := flushCommands_eq (w.publish ⟨.compacting, some .switching⟩)
    refine .flushed (.switchAck token) rfl rfl hflush.2 hflush.1 rfl fun hfailed ↦ ?_
    exact StateName.noConfusion hfailed

/-! ### Messages that are not about delivery -/

theorem quiet_ended (state : StateName) (h : state ≠ .failed) :
    Quiet w (w.publish (.transition state)).finishOperation :=
  (w.quiet_publish h).trans (quiet_finishOperation _)

theorem renewed_componentDown : Quiet w w.handleComponentDown ∨ Renewed w w.handleComponentDown := by
  unfold handleComponentDown
  split
  · exact .inr (w.quiet_finishOperation.renewed (renewed_revoke _))
  · split
    · exact .inl (.refl w)
    · exact .inr w.renewed_revoke

theorem quiet_drained (engine token : ℕ) : Quiet w (w.handleDrained oracle engine token) := by
  unfold handleDrained
  split
  · exact .refl w
  · split
    · exact w.quiet_expireOperation
    · split
      · exact ⟨rfl, rfl, rfl, id⟩
      · exact w.quiet_closeGeneration _
      · exact .refl w

theorem renewed_starting (driver token : ℕ) :
    Quiet w (w.handleStarting driver token) ∨ Renewed w (w.handleStarting driver token) := by
  unfold handleStarting
  split
  · exact .inl (.refl w)
  · split
    · split
      · exact .inl (.refl w)
      · exact .inr ⟨rfl, rfl, .inl (Nat.succ_ne_self _)⟩
    · exact .inl (.refl w)

theorem renewed_result (driver token : ℕ) (result : DriverResult) :
    Quiet w (w.handleResult oracle driver token result) ∨
      Renewed w (w.handleResult oracle driver token result) := by
  unfold handleResult
  split
  · exact .inl (.refl w)
  · split
    · split
      · exact .inr (w.renewed_clear (.transition .stopped)).ended
      · exact .inr (w.renewed_clear (.transition .stopped)).ended
      · split
        · exact .inl w.quiet_finishOperation
        · exact .inr w.renewed_revoke.ended
      · split
        · exact .inl w.quiet_finishOperation
        · exact .inr w.renewed_revoke.ended
      · exact .inr w.renewed_revoke.ended
    · exact .inl (.refl w)

theorem renewed_writerEvent (writer : ℕ) (event : WriterEvent) :
    Quiet w (w.handleWriterEvent writer event) ∨ Renewed w (w.handleWriterEvent writer event) := by
  unfold handleWriterEvent
  split
  · split
    · exact .inl (.refl w)
    · split
      · exact .inl (.refl w)
      · exact .inr w.renewed_revoke
  · exact .inl (.refl w)

theorem renewed_fenceRevoked (generation : ℕ) :
    Quiet w (w.handleFenceRevoked generation) ∨ Renewed w (w.handleFenceRevoked generation) := by
  unfold handleFenceRevoked
  split
  · split
    · exact .inl (.refl w)
    · exact .inr w.renewed_revoke
  · exact .inl (.refl w)

theorem renewed_down (ref : ℕ) : Quiet w (w.handleDown ref) ∨ Renewed w (w.handleDown ref) := by
  unfold handleDown
  split
  · exact .inl (.refl w)
  · split
    case h_5 => exact .inr w.renewed_revoke.ended
    case h_6 slot token _ =>
      refine .inl ?_
      unfold handleOwnerDown
      split
      · exact .refl w
      · split
        · exact w.quiet_release slot token
        · exact .refl w
    all_goals exact w.renewed_componentDown

theorem handle_effect (m : Message) :
    Effect w (w.handle oracle m) (w.heard m) (w.fenced oracle m) := by
  have hplain : ∀ {w' : World}, Quiet w w' ∨ Renewed w w' → Effect w w' [] [] :=
    fun h ↦ h.elim (.quiet rfl rfl) .renewed
  cases m with
  | submit owner generation slot token => exact w.effect_submit owner generation slot token
  | completed engine slot token owner mode => exact w.effect_completed engine slot token owner mode
  | commandYielded engine slot token => exact w.effect_yielded oracle engine slot token
  | operation owner generation token kind force deadline valid =>
    exact w.effect_operation oracle owner generation token kind force deadline valid
  | onlineUnsupported engine token => exact w.effect_unsupported oracle engine token
  | switchRequested engine token => exact w.effect_switchRequested oracle engine token
  | automaticCompaction policy token generation deadline =>
    exact .quiet rfl rfl (w.quiet_automatic oracle policy token generation deadline)
  | operationStarting driver token => exact hplain (w.renewed_starting driver token)
  | operationResult driver token result => exact hplain (w.renewed_result oracle driver token result)
  | operationDrained engine token => exact .quiet rfl rfl (w.quiet_drained oracle engine token)
  | writerEvent writer event => exact hplain (w.renewed_writerEvent writer event)
  | fenceRevoked generation => exact hplain (w.renewed_fenceRevoked generation)
  | down ref => exact hplain (w.renewed_down ref)
  | reap => exact .quiet rfl rfl ⟨rfl, rfl, rfl, id⟩
  | reserve owner generation slot token bytes =>
    refine .quiet rfl rfl ?_
    simp only [handle, handleReserve]
    repeat' split
    all_goals exact ⟨rfl, rfl, rfl, id⟩
  | cancelReservation owner slot token =>
    refine .quiet rfl rfl ?_
    simp only [handle, handleCancel]
    repeat' split
    all_goals first
      | exact .refl w
      | exact w.quiet_release slot token
  | executionSnapshot engine mode =>
    refine .quiet rfl rfl ?_
    simp only [handle]
    split
    · exact w.quiet_mergeSnapshot mode
    · exact .refl w
  | attachRuntime | attachEngine | attachWriter | attachFence | cancelOperationClaim =>
    refine .quiet rfl rfl ?_
    simp only [handle]
    split <;> exact ⟨rfl, rfl, rfl, id⟩
  | ready engine =>
    refine .quiet rfl rfl ?_
    simp only [handle, handleReady]
    split
    · exact w.quiet_publish StateName.noConfusion
    · exact .refl w
  | reconciliation engine =>
    refine .quiet rfl rfl ?_
    simp only [handle]
    split
    · exact w.quiet_publish StateName.noConfusion
    · exact .refl w
  | operationDeadline token =>
    refine .quiet rfl rfl ?_
    simp only [handle]
    split
    · exact w.quiet_expireOperation
    · exact .refl w
  | sourceChanged engine token | policyDraining engine token | onlineResult engine token ok =>
    refine .quiet rfl rfl ?_
    simp only [handle, handleSourceChanged, handlePolicyDraining, handleOnlineResult]
    split
    · exact .refl w
    · exact w.quiet_ended _ StateName.noConfusion
  | compactionResult engine token ok =>
    refine .quiet rfl rfl ?_
    simp only [handle, handleCompactionResult]
    split
    · exact .refl w
    · exact w.quiet_beginClosing

/-! ## Tokens of commands -/

/-- The commands sent and pending, over the whole run. -/
def commands : List Command := w.sent ++ w.delivery.pending

/-- The token of a command has been given out, and is not the token of a reservation. -/
def Spent (c : Command) : Prop :=
  c.token < w.fresh ∧ ∀ h, w.slots c.slot = some h → h.token = c.token → h.stage = .submitted

/-- Of the messages about a slot only the completion finds a submitted row, and it frees it. -/
theorem handle_own_submitted {m : Message} {slot : Slot} {h : Hold} (hm : w.carries m = some (slot, h.token))
    (hslot : w.slots slot = some h) (hstage : h.stage = .submitted) :
    (w.handle oracle m).slots slot = some h ∨ (w.handle oracle m).slots slot = none := by
  cases m with
  | reserve owner generation slot' token bytes =>
    obtain ⟨rfl, rfl⟩ := Prod.mk.inj (Option.some.inj hm)
    refine .inl ?_
    rw [handle, handleReserve, hslot]
    dsimp only
    rw [if_neg fun hmatch ↦ by rw [hstage] at hmatch; exact Stage.noConfusion hmatch.2.2, hslot]
  | submit owner generation slot' token =>
    obtain ⟨rfl, rfl⟩ := Prod.mk.inj (Option.some.inj hm)
    refine .inl ?_
    rw [handle, handleSubmit, hslot]
    dsimp only
    rw [if_neg fun hmatch ↦ by rw [hstage] at hmatch; exact Stage.noConfusion hmatch.2.2, hslot]
  | cancelReservation owner slot' token =>
    obtain ⟨rfl, rfl⟩ := Prod.mk.inj (Option.some.inj hm)
    refine .inl ?_
    rw [handle, handleCancel, hslot]
    dsimp only
    rw [if_neg fun hmatch ↦ hmatch.2.2 hstage, hslot]
  | completed engine slot' token owner mode =>
    obtain ⟨rfl, rfl⟩ := Prod.mk.inj (Option.some.inj hm)
    rw [handle, handleCompleted]
    split
    · rw [hslot]
      dsimp only
      split
      · have hframe : Frame w ((w.mergeSnapshot mode).finishDelivery slot' h.token) :=
          (w.frame_mergeSnapshot mode).trans (frame_finishDelivery _ slot' h.token)
        have hslot' := (congrFun hframe.slots slot').trans hslot
        have hfreed := congrFun (slots_release _ hslot') slot'
        rw [Function.update_self] at hfreed
        exact .inr hfreed
      · exact .inl hslot
    · exact .inl hslot
  | down ref =>
    obtain ⟨m, hfind, hwatch⟩ := Option.bind_eq_some_iff.mp hm
    refine .inl ?_
    rw [handle, handleDown, hfind]
    dsimp only
    rcases hm' : m.watch with _ | _ | _ | _ | _ | ⟨slot', token⟩
    case owner =>
      rw [hm'] at hwatch
      obtain ⟨rfl, rfl⟩ := Prod.mk.inj (Option.some.inj hwatch)
      dsimp only
      rw [handleOwnerDown, hslot]
      dsimp only
      rw [if_neg fun hmatch ↦ by rw [hstage] at hmatch; exact Stage.noConfusion hmatch.2, hslot]
    all_goals
      rw [hm'] at hwatch
      cases hwatch
  | _ => cases hm

/-- A submitted row stays as it is until it is freed. -/
theorem handle_submitted (m : Message) {slot : Slot} {h : Hold} (hslot : w.slots slot = some h)
    (hstage : h.stage = .submitted) :
    (w.handle oracle m).slots slot = some h ∨ (w.handle oracle m).slots slot = none := by
  cases w.handle_touches oracle m with
  | nothing hslots => exact .inl (by rw [hslots, hslot])
  | @freed slot' _ _ _ _ hslots =>
    rw [hslots]
    by_cases heq : slot = slot'
    · subst heq
      exact .inr (Function.update_self slot none w.slots)
    · exact .inl ((Function.update_of_ne heq none w.slots).trans hslot)
  | reaped _ hslots =>
    refine .inl ?_
    rw [hslots]
    simp only [hslot, expired, hstage, reduceCtorEq, decide_false, Bool.false_and, Bool.not_false,
      Option.filter_some, if_true]
  | cleared _ hclears =>
    rw [hclears.slots]
    rcases slot with index | index
    · change (if 1 ≤ index ∧ index ≤ w.settings.clientSlots then none else w.slots (.client index)) = some h ∨
        (if 1 ≤ index ∧ index ≤ w.settings.clientSlots then none else w.slots (.client index)) = none
      split
      · exact .inr rfl
      · exact .inl hslot
    · exact .inl hslot
  | @moved slot' k stage hcarries hk hslots =>
    by_cases heq : slot = slot'
    · subst heq
      obtain rfl : h = k := Option.some.inj (hslot.symm.trans hk)
      exact w.handle_own_submitted oracle hcarries hslot hstage
    · exact .inl ((congrFun hslots slot).trans ((Function.update_of_ne heq _ w.slots).trans hslot))

/-! ## Every run -/

variable {w oracle} {w' : World}

theorem Spent.handled {c : Command} (hc : w.Spent c) (m : Message) : (w.handle oracle m).Spent c := by
  refine ⟨hc.1.trans_le (w.handle_carried oracle m).fresh, fun h' hslot' htoken ↦ ?_⟩
  obtain ⟨h, hslot, heq⟩ := (w.handle_touches oracle m).continues c.slot h' hslot'
  have hstage := hc.2 h hslot (heq.trans htoken)
  rcases w.handle_submitted oracle m hslot hstage with hsame | hnone
  · obtain rfl := Option.some.inj (hslot'.symm.trans hsame)
    exact hstage
  · exact absurd (hslot'.symm.trans hnone) (Option.some_ne_none h')

/-- What is true of the commands of a whole run. -/
structure Accounted (w : World) : Prop where
  once : (w.commands.map Command.permit).Nodup
  spent : ∀ c ∈ w.commands, w.Spent c
  held : w.status.state = .failed → w.delivery = .new
  exclusive : Exclusive w

/-- A message adds at most the command that it submits. -/
theorem Effect.submits {told fence : List Entry} (heffect : Effect w w' told fence) :
    w'.commands.Sublist w.commands ∨ ∃ c h, w'.commands = w.commands ++ [c] ∧ w.slots c.slot = some h ∧
      h.token = c.token ∧ h.stage = .reserved ∧ w'.slots c.slot = some { h with stage := .submitted } := by
  cases heffect with
  | quiet _ _ hquiet => exact .inl (by rw [commands, commands, hquiet.sent, hquiet.delivery])
  | renewed hrenewed =>
    refine .inl ?_
    rw [commands, hrenewed.sent, hrenewed.delivery]
    exact (List.Sublist.refl w.sent).append (List.nil_sublist _)
  | accepted owner generation slot h hslot hstage hslot' _ _ _ hwindow hsent =>
    refine .inr ⟨⟨generation, slot, h.token, owner⟩, h, ?_, hslot, rfl, hstage, hslot'⟩
    have hpending := congrArg Window.pending hwindow
    change w'.delivery.pending = _ at hpending
    rw [commands, hsent, hpending, List.append_assoc, commands, List.append_assoc]
    exact congrArg (w.sent ++ ·) (List.take_append_drop _ _)
  | freed p reason _ _ hwindow hsent =>
    have hpending := congrArg Window.pending hwindow
    change w'.delivery.pending = _ at hpending
    refine .inl ?_
    have hsame : w'.commands = w.commands := by
      rw [commands, hsent, hpending, List.append_assoc]
      exact congrArg (w.sent ++ ·) (List.take_append_drop _ _)
    exact hsame ▸ List.Sublist.refl _
  | flushed f _ _ hwindow hsent =>
    have hpending := congrArg Window.pending hwindow
    change w'.delivery.pending = _ at hpending
    refine .inl ?_
    rw [commands, hsent, hpending, List.append_nil]
    exact List.Sublist.refl _

theorem delivery_of_window (h : w.window = Window.new) : w.delivery = .new := by
  rw [World.window, Window.new, Window.mk.injEq] at h
  rw [Delivery.new, ← h.1, ← h.2]

theorem Effect.held {told fence : List Entry} (heffect : Effect w w' told fence)
    (h : w.status.state = .failed → w.delivery = .new) (hfailed : w'.status.state = .failed) :
    w'.delivery = .new := by
  cases heffect with
  | quiet _ _ hquiet => exact hquiet.delivery.trans (h (hquiet.failed hfailed))
  | renewed hrenewed => exact hrenewed.delivery
  | accepted _ _ _ _ _ _ _ hserving _ _ _ _ _ hstatus => exact absurd (hstatus ▸ hfailed) hserving
  | freed p reason _ _ hwindow _ _ hfailed' =>
    refine delivery_of_window (hwindow.trans ?_)
    rw [World.window, h (hfailed' hfailed)]
    simp [Delivery.new, Window.free, Window.dispatch, Window.ready, Window.new]
  | flushed _ _ _ _ _ _ hserving => exact absurd hfailed hserving

theorem Accounted.handled (h : Accounted w) (m : Message) : Accounted (w.handle oracle m) := by
  have heffect := w.handle_effect oracle m
  have hexclusive := h.exclusive.continued (w.handle_touches oracle m).continues (w.handle_carried oracle m)
  rcases heffect.submits with hsublist | ⟨c, k, hcommands, hslot, htoken, hstage, hslot'⟩
  · exact ⟨h.once.sublist (hsublist.map _), fun c hc ↦ (h.spent c (hsublist.subset hc)).handled m,
      heffect.held h.held, hexclusive⟩
  · refine ⟨?_, fun c' hc' ↦ ?_, heffect.held h.held, hexclusive⟩
    · rw [hcommands, List.map_append, List.map_singleton]
      refine h.once.append (List.nodup_singleton _) (List.disjoint_singleton.mpr fun hmem ↦ ?_)
      -- A command with this permit has been submitted before, so the row would not be a reservation.
      obtain ⟨c', hc', heq⟩ := List.mem_map.mp hmem
      obtain ⟨hslots, htokens⟩ := Prod.mk.inj heq
      have hsubmitted := (h.spent c' hc').2 k (hslots ▸ hslot) (htoken.trans htokens.symm)
      rw [hstage] at hsubmitted
      cases hsubmitted
    · rw [hcommands] at hc'
      rcases List.mem_append.mp hc' with hold | hnew
      · exact (h.spent c' hold).handled m
      · obtain rfl := List.mem_singleton.mp hnew
        refine ⟨htoken ▸ (h.exclusive.issued hslot).trans_le (w.handle_carried oracle m).fresh, fun k' hk' _ ↦ ?_⟩
        obtain rfl := Option.some.inj (hk'.symm.trans hslot')
        rfl

/-- A step that is not the guardian's leaves the delivery alone. -/
theorem step_quiet {l : Label} (hl : w.step l = some w') :
    (∃ oracle, l = .handle oracle) ∨ Quiet w w' ∧ w'.settings = w.settings ∧ w.entries w' l = [] := by
  cases l with
  | handle oracle => exact .inl ⟨oracle, rfl⟩
  | claim | claimOperation | send | poison =>
    simp only [step] at hl
    split at hl
    case isFalse => cases hl
    case isTrue =>
      obtain rfl := Option.some.inj hl
      exact .inr ⟨⟨rfl, rfl, rfl, id⟩, rfl, rfl⟩
  | startEngine | startWriter =>
    obtain rfl := Option.some.inj hl
    exact .inr ⟨⟨rfl, rfl, rfl, id⟩, rfl, rfl⟩
  | kill p =>
    obtain rfl := Option.some.inj hl
    exact .inr ⟨w.quiet_kill p, (w.frame_kill p).settings, rfl⟩
  | recover bytes =>
    simp only [step] at hl
    split at hl
    case h_2 => cases hl
    case h_1 =>
      split at hl
      case isFalse => cases hl
      case isTrue =>
        obtain ⟨counter, -, rfl⟩ := Option.map_eq_some_iff.mp hl
        exact .inr ⟨⟨rfl, rfl, rfl, id⟩, rfl, rfl⟩
  | act action =>
    obtain ⟨a, -, ha⟩ := Option.bind_eq_some_iff.mp hl
    refine .inr ?_
    cases action with
    | reserve bytes =>
      obtain ⟨counter, -, rfl⟩ := Option.map_eq_some_iff.mp ha
      exact ⟨⟨rfl, rfl, rfl, id⟩, rfl, rfl⟩
    | release | account =>
      obtain rfl := Option.some.inj ha
      exact ⟨⟨rfl, rfl, rfl, id⟩, rfl, rfl⟩

theorem Spent.stepped {c : Command} (hc : w.Spent c) {l : Label} (hl : w.step l = some w') : w'.Spent c := by
  obtain ⟨slot, owner, expires, rfl⟩ | ⟨oracle, rfl⟩ | ⟨hslots, hcarried⟩ := step_slots hl
  · simp only [step] at hl
    split at hl
    case isFalse => cases hl
    case isTrue =>
      obtain rfl := Option.some.inj hl
      refine ⟨hc.1.trans (Nat.lt_succ_self _), fun h' hslot' htoken ↦ ?_⟩
      change Function.update w.slots slot _ c.slot = some h' at hslot'
      rw [Function.update_apply] at hslot'
      split at hslot'
      case isTrue =>
        -- The claim has a token of its own.
        obtain rfl := Option.some.inj hslot'
        exact absurd htoken hc.1.ne'
      case isFalse => exact hc.2 h' hslot' htoken
  · obtain ⟨m, rest, -, rfl⟩ := step_handle hl
    have hrest : Spent { w with mailbox := rest } c := hc
    exact hrest.handled m
  · exact ⟨hc.1.trans_le hcarried.fresh, fun h' hslot' ↦ hc.2 h' (hslots ▸ hslot')⟩

theorem Accounted.stepped (h : Accounted w) {l : Label} (hl : w.step l = some w') : Accounted w' := by
  rcases step_quiet hl with ⟨oracle, rfl⟩ | ⟨hquiet, -⟩
  · obtain ⟨m, rest, -, rfl⟩ := step_handle hl
    have hexclusive : Exclusive { w with mailbox := rest } :=
      h.exclusive.continued (fun slot k hk ↦ ⟨k, hk, rfl⟩) ⟨rfl, le_rfl⟩
    have hrest : Accounted { w with mailbox := rest } := ⟨h.once, h.spent, h.held, hexclusive⟩
    exact hrest.handled m
  · have hcommands : w'.commands = w.commands := by rw [commands, commands, hquiet.sent, hquiet.delivery]
    exact ⟨hcommands ▸ h.once, fun c hc ↦ (h.spent c (hcommands ▸ hc)).stepped hl,
      fun hfailed ↦ hquiet.delivery.trans (h.held (hquiet.failed hfailed)), h.exclusive.stepped hl⟩

/-! ## The record of a generation -/

/-- What is true of the delivery and the record beside it. -/
structure Logged (w : World) (log : List Entry) : Prop where
  books : Books Command.permit w.settings.window w.window log
  waits : w.delivery.pending ≠ [] → w.settings.window ≤ w.delivery.active.card
  sent : ∃ earlier, w.sent = earlier ++ sentOf log

/-- A generation begins with nothing on its record. -/
theorem logged_new (h : w.delivery = .new) : Logged w [] := by
  refine ⟨?_, fun hpending ↦ absurd (congrArg Delivery.pending h) hpending, w.sent, (List.append_nil _).symm⟩
  rw [World.window, h]
  exact .start

/-- Something is heard, and the window sends what it has room for. -/
theorem Logged.dispatched {log : List Entry} (h : Logged w log) {u : Window Command (Slot × ℕ)} {e : Entry}
    (hbooks : Books Command.permit w.settings.window u (log ++ [e])) (he : sentOf [e] = [])
    (hsettings : w'.settings = w.settings) (hwindow : w'.window = u.dispatch Command.permit w.settings.window)
    (hsent : w'.sent = w.sent ++ u.ready w.settings.window) :
    Logged w' (log ++ ([e] ++ w.sentSince w' ++ [])) := by
  have hsince : w.sentSince w' = (u.ready w.settings.window).map .sent := by
    rw [sentSince, hsent, List.drop_left]
  obtain ⟨earlier, hearlier⟩ := h.sent
  rw [hsince, List.append_nil, ← List.append_assoc]
  refine ⟨?_, fun hpending ↦ ?_, earlier, ?_⟩
  · rw [hsettings, hwindow]
    exact hbooks.dispatch
  · have hpending' : (u.dispatch Command.permit w.settings.window).pending ≠ [] := hwindow ▸ hpending
    have hactive : w'.delivery.active = (u.dispatch Command.permit w.settings.window).active :=
      congrArg Window.active hwindow
    rw [hsettings, hactive]
    exact hbooks.waits hpending'
  · rw [hsent, hearlier, sentOf_append, sentOf_append, he, List.append_nil, sentOf_sent, List.append_assoc]

/-- The queue is flushed in front of a fence. -/
theorem Logged.flushed {log : List Entry} (h : Logged w log) (f : Fence) (hsettings : w'.settings = w.settings)
    (hwindow : w'.window = ⟨[], w.delivery.active ∪ (w.delivery.pending.map Command.permit).toFinset⟩)
    (hsent : w'.sent = w.sent ++ w.delivery.pending) : Logged w' (log ++ ([] ++ w.sentSince w' ++ [.fence f])) := by
  have hsince : w.sentSince w' = w.delivery.pending.map .sent := by rw [sentSince, hsent, List.drop_left]
  obtain ⟨earlier, hearlier⟩ := h.sent
  rw [hsince, List.nil_append]
  refine ⟨?_, fun hpending ↦ absurd (congrArg Window.pending hwindow) hpending, earlier, ?_⟩
  · rw [hsettings, hwindow]
    exact h.books.flush f
  · rw [hsent, hearlier, sentOf_append, sentOf_append, sentOf_sent, List.append_assoc]
    exact congrArg (earlier ++ ·) (congrArg (sentOf log ++ ·) (List.append_nil _).symm)

/-- Nothing happens to the delivery. -/
theorem Logged.quiet {log : List Entry} (h : Logged w log) (hquiet : Quiet w w')
    (hsettings : w'.settings = w.settings) : Logged w' log := by
  refine ⟨?_, ?_, ?_⟩
  · rw [hsettings, hquiet.window]
    exact h.books
  · rw [hsettings, hquiet.delivery]
    exact h.waits
  · rw [hquiet.sent]
    exact h.sent

theorem Effect.logged {told fence log : List Entry} (heffect : Effect w w' told fence) (hlog : Logged w log)
    (h : Accounted w) (hsettings : w'.settings = w.settings) :
    Logged w' (if w'.clears ≠ w.clears ∨ w'.status.state = .failed then []
      else log ++ (told ++ w.sentSince w' ++ fence)) := by
  by_cases hfailed : w'.status.state = .failed
  · rw [if_pos (.inr hfailed)]
    exact logged_new (heffect.held h.held hfailed)
  have hcontinues : w'.clears = w.clears → ¬(w'.clears ≠ w.clears ∨ w'.status.state = .failed) :=
    fun hclears hor ↦ hor.elim (absurd hclears) hfailed
  cases heffect with
  | quiet htold hfence hquiet =>
    have hsince : w.sentSince w' = [] := by rw [sentSince, hquiet.sent, List.drop_length, List.map_nil]
    rw [if_neg (hcontinues hquiet.clears), htold, hfence, hsince, List.append_nil, List.append_nil, List.append_nil]
    exact hlog.quiet hquiet hsettings
  | renewed hrenewed =>
    rw [if_pos hrenewed.abandoned]
    exact logged_new hrenewed.delivery
  | accepted owner generation slot k hslot hstage _ _ htold hfence hwindow hsent hclears =>
    rw [if_neg (hcontinues hclears), htold, hfence]
    refine hlog.dispatched (hlog.books.accept fun hmem ↦ ?_) rfl hsettings hwindow hsent
    -- Everything accepted so far has spent its token, and this one is a reservation's.
    obtain ⟨c, hc, heq⟩ := List.mem_map.mp hmem
    have hcommand : c ∈ w.commands := by
      obtain ⟨earlier, hearlier⟩ := hlog.sent
      rw [hlog.books.order] at hc
      rw [commands, hearlier, List.append_assoc]
      exact List.mem_append_right _ hc
    obtain ⟨hslots, htokens⟩ := Prod.mk.inj heq
    have hsubmitted := (h.spent c hcommand).2 k (hslots ▸ hslot) htokens.symm
    rw [hstage] at hsubmitted
    cases hsubmitted
  | freed p reason htold hfence hwindow hsent hclears =>
    rw [if_neg (hcontinues hclears), htold, hfence]
    exact hlog.dispatched (hlog.books.free p reason) rfl hsettings hwindow hsent
  | flushed f htold hfence hwindow hsent hclears =>
    rw [if_neg (hcontinues hclears), htold, hfence]
    exact hlog.flushed f hsettings hwindow hsent

theorem Logged.stepped {log : List Entry} (hlog : Logged w log) (h : Accounted w) {l : Label}
    (hl : w.step l = some w') : Logged w' (w.note l w' log) := by
  rcases step_quiet hl with ⟨oracle, rfl⟩ | ⟨hquiet, hsettings, hentries⟩
  · obtain ⟨m, rest, hmailbox, rfl⟩ := step_handle hl
    have hexclusive : Exclusive { w with mailbox := rest } :=
      h.exclusive.continued (fun slot k hk ↦ ⟨k, hk, rfl⟩) ⟨rfl, le_rfl⟩
    have hrest : Accounted { w with mailbox := rest } := ⟨h.once, h.spent, h.held, hexclusive⟩
    have hlogged : Logged { w with mailbox := rest } log := ⟨hlog.books, hlog.waits, hlog.sent⟩
    have hnext := (handle_effect { w with mailbox := rest } oracle m).logged hlogged hrest
      (handle_carried { w with mailbox := rest } oracle m).settings
    have hentries : w.entries ({ w with mailbox := rest }.handle oracle m) (.handle oracle) =
        heard { w with mailbox := rest } m ++ w.sentSince ({ w with mailbox := rest }.handle oracle m) ++
          fenced { w with mailbox := rest } oracle m := by
      rw [entries, hmailbox]
    rw [note, hentries]
    exact hnext
  · have hnext : Logged w' log := hlog.quiet hquiet hsettings
    rw [note, hentries, List.append_nil]
    by_cases hfailed : w'.status.state = .failed
    · rw [if_pos (.inr hfailed)]
      exact logged_new (hquiet.delivery.trans (h.held (hquiet.failed hfailed)))
    · rw [if_neg fun hor ↦ hor.elim (absurd hquiet.clears) hfailed]
      exact hnext

end World

/-- Both hold throughout. -/
theorem kept_of_reachable {w : World} {log : List Entry} (h : delivery.Reachable (w, log)) :
    w.Accounted ∧ w.Logged log := by
  refine h.invariant (I := fun x ↦ x.1.Accounted ∧ x.1.Logged x.2) ?_ ?_
  · rintro ⟨w, log⟩ ⟨⟨settings, rfl⟩, hlog⟩
    obtain rfl : log = [] := hlog
    refine ⟨⟨List.nodup_nil, fun c hc ↦ absurd hc List.not_mem_nil, fun _ ↦ rfl, ?_⟩, World.logged_new rfl⟩
    constructor <;> intros <;> simp_all only [World.init, reduceCtorEq]
  · rintro ⟨w, log⟩ l ⟨w', log'⟩ ⟨haccounted, hlogged⟩ hl
    obtain ⟨t, ht, heq⟩ := Option.map_eq_some_iff.mp hl
    obtain ⟨rfl, rfl⟩ := Prod.mk.inj heq
    exact ⟨haccounted.stepped ht, hlogged.stepped haccounted ht⟩

/-- `dispatch_commands` takes one command after another until the window is full. -/
theorem World.dispatch_loop {w : World} {limit : ℕ} {log : List Entry}
    (h : Books Command.permit limit w.window log) (n : ℕ) :
    takeAll Command.permit n w.delivery.pending.length w.window = (w.window.ready n, (w.dispatch n).window) :=
  h.takeAll n

/-! ## Once and in order -/

/-- What holds of the delivery at every moment of a generation. -/
structure Delivered (w : World) (log : List Entry) : Prop where
  /-- What was accepted was sent, in this order, but for what is pending. -/
  order : acceptedOf log = sentOf log ++ w.delivery.pending
  sent : ∃ earlier, w.sent = earlier ++ sentOf log
  once : (w.commands.map Command.permit).Nodup
  /-- A command waits for a place in the window and for nothing else. -/
  waits : w.delivery.pending ≠ [] →
    w.settings.window ≤ (outstanding Command.permit (fun _ ↦ true) log).card
  /-- Outside a flush a command is sent into a place of the window. -/
  room : ∀ before c rest, log = before ++ .sent c :: rest →
    (outstanding Command.permit (fun _ ↦ true) (before ++ [.sent c])).card ≤ w.settings.window ∨ Flushed rest
  fence : ∀ before f rest, log = before ++ .fence f :: rest → acceptedOf before = sentOf before

/-- **Commands reach the engine once and in order.** At every moment of a generation the commands accepted are
those sent and behind them those pending, and no command is ever sent twice. A command waits only while the
window is full; outside a flush it is sent only into a place of the window, where those that were answered or
have yielded take none; and what was accepted before a fence was sent before it. -/
theorem commands_delivered {w : World} {log : List Entry} (h : delivery.Reachable (w, log)) : Delivered w log := by
  obtain ⟨haccounted, hlogged⟩ := kept_of_reachable h
  refine ⟨hlogged.books.order, hlogged.sent, haccounted.once, fun hpending ↦ ?_, hlogged.books.room,
    hlogged.books.fence⟩
  rw [← hlogged.books.active]
  exact hlogged.waits hpending

namespace Sample

/-- Two callers, and a window of one. -/
def narrow : Settings := ⟨2, 1000, 1, false, none⟩

/-- The requests of the callers, under the tokens they claim. -/
def first : Command := ⟨0, .client 1, 5, 100⟩

def second : Command := ⟨0, .client 2, 7, 101⟩

def submits (c : Command) : List Label :=
  [.claim c.slot c.owner 50, .send (.reserve c.owner 0 c.slot c.token 10), .handle clock,
    .send (.submit c.owner 0 c.slot c.token), .handle clock]

/-- The second command waits, until a drain flushes it. -/
def drained : List Label :=
  attached ++ submits first ++ submits second ++
    [.claimOperation 102 1000, .send (.operation 102 0 9 .stop false 1000 true), .handle clock]

/-- The first command yields, and the second takes its place. -/
def yielding : List Label :=
  attached ++ submits first ++ [.send (.commandYielded 1 first.slot first.token), .handle clock] ++ submits second

end Sample

open Sample

theorem commands_delivered_drained : ∃ w, delivery.Reachable
      (w, [.accepted first, .sent first, .accepted second, .sent second, .fence (.drain 9)]) ∧
    Delivered w [.accepted first, .sent first, .accepted second, .sent second, .fence (.drain 9)] := by
  have hrun : (delivery.run (World.init narrow, []) drained).any (fun x ↦
      x.2 = [.accepted first, .sent first, .accepted second, .sent second, .fence (.drain 9)]) = true := by
    decide +kernel
  obtain ⟨⟨w, log⟩, hw, hlog⟩ := (Option.any_eq_true _ _).mp hrun
  obtain rfl := of_decide_eq_true hlog
  have hreach := Machine.reachable_of_run (M := delivery) ⟨⟨narrow, rfl⟩, rfl⟩ hw
  exact ⟨w, hreach, commands_delivered hreach⟩

/-- Two commands are unanswered at once through a window of one, and nothing is flushed. -/
theorem unanswered_exceed : ¬∀ w log, delivery.Reachable (w, log) →
    ∀ before c rest, log = before ++ .sent c :: rest →
      (outstanding Command.permit (fun reason ↦ reason = .answered) (before ++ [.sent c])).card ≤ w.settings.window ∨
        Flushed rest := by
  intro hall
  have hrun : (delivery.run (World.init narrow, []) yielding).any (fun x ↦ x.1.settings.window = 1 &&
      x.2 = [.accepted first, .sent first, .freed first.permit .yielded, .accepted second, .sent second]) = true := by
    decide +kernel
  obtain ⟨⟨w, log⟩, hw, hx⟩ := (Option.any_eq_true _ _).mp hrun
  simp only [Bool.and_eq_true, decide_eq_true_eq] at hx
  obtain ⟨hwindow, rfl⟩ := hx
  have hreach := Machine.reachable_of_run (M := delivery) ⟨⟨narrow, rfl⟩, rfl⟩ hw
  rcases hall w _ hreach [.accepted first, .sent first, .freed first.permit .yielded, .accepted second] second []
    rfl with hcard | ⟨items, f, rest, hflushed⟩
  · rw [hwindow] at hcard
    exact absurd hcard (by decide)
  · exact List.cons_ne_nil _ _ (List.append_eq_nil_iff.mp hflushed.symm).2

end Tay.Lifecycle
