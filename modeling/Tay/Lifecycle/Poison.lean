import Tay.Lifecycle.Admission

/-!
# Poisoned writers

A writer that cannot vouch for its files any more poisons itself and tells the guardian, whose answer
is to revoke the generation. The notice is dropped in two phases. While a generation is being closed
there is nothing left to revoke. While a compaction runs, the guardian relies on the engine's report
of it instead; but that report, good or bad, publishes the generation as ready again.

So the argument has one exception. Whenever the attached writer is poisoned, or missing, its notice is
still on the way or the generation is condemned: not serving, with no operation that could publish it
as serving, and if it is still recovering, without a report of readiness on the way. Each message
keeps that, except a notice that arrives during a compaction.
-/

open Foundation

namespace Tay.Lifecycle

def Message.isDown : Message → Bool
  | .down _ => true
  | _ => false

/-- The states in which the generation serves, or did before an operation began. -/
def StateName.serving : StateName → Bool
  | .ready | .compacting | .draining | .drained | .migrating => true
  | _ => false

/-- The phases in which an operation can still publish the generation as serving. -/
def Phase.active : Phase → Bool
  | .draining | .compacting => true
  | _ => false

namespace World

/-! ## What one message does to the generation -/

/-- The messages other processes have sent, without the reports of monitors. -/
def letters (w : World) : List Message := w.mailbox.filter fun m ↦ !m.isDown

/-- An operation that compacts is a compaction. -/
def wellKinded (operation : Option Operation) : Prop :=
  ∀ o, operation = some o → o.phase = .compacting → o.kind = .compact

/-- What decides whether a generation serves. -/
structure View where
  state : StateName
  operation : Option Operation
  engine : Option ℕ
  writer : Option ℕ

def view (w : World) : View := ⟨w.status.state, w.operation, w.engine, w.writer⟩

@[simp] theorem view_state (w : World) : w.view.state = w.status.state := rfl

@[simp] theorem view_operation (w : World) : w.view.operation = w.operation := rfl

@[simp] theorem view_engine (w : World) : w.view.engine = w.engine := rfl

@[simp] theorem view_writer (w : World) : w.view.writer = w.writer := rfl

/-- What one message can do to the view. -/
inductive Governs (v : View) (m : Message) (v' : View) : Prop
  | quiet : v'.state = v.state → v'.operation = v.operation → v'.engine = v.engine →
      v'.writer = v.writer → Governs v m v'
  | recovered {engine : ℕ} : m = .ready engine → v.engine = some engine →
      v.state = .recovering → v'.state = .ready → v'.operation = v.operation →
      v'.engine = v.engine → v'.writer = v.writer → v.writer.isSome → Governs v m v'
  /-- A report of the serving engine, or a new operation on it. -/
  | served : v.state.serving = true → v'.operation = v.operation ∨ v.operation = none →
      (wellKinded v.operation → wellKinded v'.operation) →
      v'.operation.any (·.phase = .closing) = v.operation.any (·.phase = .closing) →
      v'.engine = v.engine → v'.writer = v.writer → Governs v m v'
  /-- A running operation goes on, or is given up. -/
  | moved : v.operation.any (·.phase.active) = true →
      v'.operation.all (·.phase.active) = true → (wellKinded v.operation → wellKinded v'.operation) →
      v'.engine = v.engine → v'.writer = v.writer → Governs v m v'
  | closed : v'.operation.any (·.phase = .closing) = true → v'.state = .stopping →
      v'.engine = v.engine → v'.writer = v.writer → Governs v m v'
  | failed : v'.state = .failed →
      v'.operation = none ∨ (v'.operation = v.operation ∧
        v.operation.any (fun o ↦ o.phase = .draining || o.phase = .closing) = false) →
      v'.engine = v.engine → v'.writer = v.writer → Governs v m v'
  /-- An operation ends and leaves the generation as it found it. -/
  | ended : v'.state = .ready → v.state = .ready → v'.operation = none →
      v'.engine = v.engine → v'.writer = v.writer → Governs v m v'
  | cleared : v'.engine = none → v'.writer = none →
      (v'.state = .recovering ∧ v'.operation.any (·.phase = .starting) = true) ∨
        (v'.state = .stopped ∧ v'.operation = none) → Governs v m v'
  | engineAttached {engine : ℕ} : m = .attachEngine engine → v'.state = v.state →
      v'.operation = v.operation → v'.engine = some engine → v'.writer = v.writer → Governs v m v'
  | writerAttached : v.writer = none → v'.state = v.state → v'.operation = v.operation →
      v'.engine = v.engine → Governs v m v'

variable (w : World) (oracle : Oracle) {m : Message}

theorem operation_finishOperation : w.finishOperation.operation = none := by
  unfold finishOperation
  split
  · assumption
  · rfl

theorem status_finishOperation : w.finishOperation.status = w.status := by
  unfold finishOperation
  split <;> rfl

theorem kill_keeps (p : ℕ) :
    (w.kill p).status = w.status ∧ (w.kill p).operation = w.operation ∧
      (w.kill p).letters = w.letters := by
  unfold kill
  split
  case isFalse => exact ⟨rfl, rfl, rfl⟩
  case isTrue =>
    refine ⟨rfl, rfl, ?_⟩
    simp only [letters, List.filter_append, List.filter_map]
    simp [Function.comp_def, Message.isDown]

theorem killEngine_keeps :
    w.killEngine.status = w.status ∧ w.killEngine.operation = w.operation ∧
      w.killEngine.letters = w.letters := by
  unfold killEngine
  split
  · exact w.kill_keeps _
  · exact ⟨rfl, rfl, rfl⟩

theorem letters_demonitor (p : Monitor → Bool) : (w.demonitor p).letters = w.letters := by
  unfold letters demonitor
  rw [List.filter_filter]
  refine List.filter_congr fun m _ ↦ ?_
  cases m <;> simp [Message.isDown]

theorem letters_monitor (watch : Watch) (target : ℕ) :
    (w.monitor watch target).letters = w.letters := by
  unfold letters monitor
  dsimp only
  split
  · rfl
  · rw [List.filter_append]
    exact List.append_nil _

theorem letters_finishOperation : w.finishOperation.letters = w.letters := by
  unfold finishOperation
  split
  · rfl
  · exact w.letters_demonitor _

theorem revoke_keeps :
    w.revoke.status.state = .failed ∧
      w.revoke.operation = (if w.operation.any (·.phase = .draining) then none else w.operation) ∧
      w.revoke.letters = w.letters := by
  unfold revoke
  dsimp only
  split
  case isTrue hdraining =>
    have hkilled := killEngine_keeps (w.publish (.transition .failed)).finishOperation
    refine ⟨?_, ?_, ?_⟩
    · rw [hkilled.1, status_finishOperation]
      rfl
    · rw [hkilled.2.1, operation_finishOperation]
      exact (if_pos hdraining).symm
    · change (killEngine _).letters = _
      rw [hkilled.2.2, letters_finishOperation]
      rfl
  case isFalse hdraining =>
    have hkilled := killEngine_keeps (w.publish (.transition .failed))
    refine ⟨?_, ?_, ?_⟩
    · rw [hkilled.1]
      rfl
    · rw [hkilled.2.1]
      exact (if_neg hdraining).symm
    · change (killEngine _).letters = _
      rw [hkilled.2.2]
      rfl

theorem closeGeneration_keeps (o : Operation) :
    (w.closeGeneration o).status.state = .stopping ∧
      (w.closeGeneration o).operation.map (·.phase) = some o.phase ∧
      (w.closeGeneration o).letters = w.letters := by
  have hkilled := killEngine_keeps ({ w with
    row := some ⟨o.token, o.owner, .closing, o.deadline⟩, operation := some o }.publish
      (.transition .stopping))
  refine ⟨?_, rfl, ?_⟩
  · change (killEngine _).status.state = _
    rw [hkilled.1]
    rfl
  · refine Eq.trans ?_ hkilled.2.2
    exact letters_monitor { killEngine ({ w with
      row := some ⟨o.token, o.owner, .closing, o.deadline⟩, operation := some o }.publish
        (.transition .stopping)) with fresh := _ } .driver _

theorem governs_refl : Governs w.view m w.view := .quiet rfl rfl rfl rfl

theorem governs_revoke (hclosing : w.operation.any (·.phase = .closing) = false) :
    Governs w.view m w.revoke.view := by
  obtain ⟨hstate, hoperation, -⟩ := w.revoke_keeps
  refine .failed hstate ?_ w.frame_revoke.engine w.frame_revoke.writer
  rw [view_operation, view_operation, hoperation]
  split
  case isTrue => exact .inl rfl
  case isFalse hdraining =>
    refine .inr ⟨rfl, ?_⟩
    cases ho : w.operation <;> simp_all

theorem governs_given_up : Governs w.view m w.revoke.finishOperation.view := by
  have hframe := w.frame_revoke.trans (frame_finishOperation _)
  refine .failed ?_ (.inl (operation_finishOperation _)) hframe.engine hframe.writer
  rw [view_state, status_finishOperation, w.revoke_keeps.1]

theorem governs_close {o : Operation} (hphase : o.phase = .closing) :
    Governs w.view m (w.closeGeneration o).view := by
  obtain ⟨hstate, hoperation, -⟩ := w.closeGeneration_keeps o
  obtain ⟨o', ho', hphase'⟩ := Option.map_eq_some_iff.mp hoperation
  refine .closed ?_ hstate (w.frame_closeGeneration o).engine (w.frame_closeGeneration o).writer
  rw [view_operation, ho', Option.any_some, hphase', hphase]
  rfl

/-- An operation that can be closed is closed. -/
theorem governs_beginClosing {o : Operation} (ho : w.operation = some o)
    (hphase : transitions o.kind o.phase .close = some .closing) :
    Governs w.view m w.beginClosing.view := by
  unfold beginClosing
  simp only [ho, hphase]
  exact w.governs_close rfl

theorem governs_operation (owner generation token : ℕ) (kind : Kind) (force : Bool)
    (deadline : ℕ) (valid : Bool) :
    Governs w.view m (w.handleOperation oracle owner generation token kind force deadline valid).view := by
  unfold handleOperation
  split
  case isFalse => exact w.governs_refl
  case isTrue =>
    split
    case isFalse => exact .quiet rfl rfl rfl rfl
    case isTrue hstart =>
      simp only [startable, Bool.and_eq_true, Option.isNone_iff_eq_none] at hstart
      obtain ⟨⟨⟨⟨hnone, -⟩, -⟩, -⟩, hkind⟩ := hstart
      dsimp only
      split
      case isTrue =>
        -- Every kind can be closed from its first phase.
        have hphase : transitions kind kind.firstPhase .close = some .closing := by
          cases kind <;> rfl
        have hframe := frame_beginClosing { w with
          row := some ⟨token, owner, .submitted, deadline⟩
          operation := some ⟨token, kind, owner, deadline, kind.firstPhase, none, none⟩ }
        have hclosed := closeGeneration_keeps { w with
          row := some ⟨token, owner, .submitted, deadline⟩
          operation := some ⟨token, kind, owner, deadline, kind.firstPhase, none, none⟩ }
          ⟨token, kind, owner, deadline, .closing, none, none⟩
        unfold beginClosing at hframe ⊢
        simp only [hphase] at hframe ⊢
        exact .closed rfl hclosed.1 hframe.engine hframe.writer
      case isFalse hclose =>
        have hserving : w.status.state.serving = true := by
          rw [Bool.not_eq_true, Bool.or_eq_false_iff] at hclose
          obtain ⟨hforce, hstate⟩ := hclose
          cases kind <;> cases hs : w.status.state <;> simp_all [StateName.serving]
        have hkinded : wellKinded (some ⟨token, kind, owner, deadline, kind.firstPhase, none, none⟩) := by
          intro o ho hphase
          cases ho
          cases kind <;> simp_all [Kind.firstPhase]
        have hopen : (some (Operation.mk token kind owner deadline kind.firstPhase none none)).any
            (·.phase = .closing) = w.operation.any (·.phase = .closing) := by
          rw [hnone]
          cases kind <;> rfl
        split <;> exact .served hserving (.inr hnone) (fun _ ↦ hkinded) hopen rfl rfl

theorem governs_automatic (policy token generation deadline : ℕ) :
    Governs w.view m (w.handleAutomatic oracle policy token generation deadline).view := by
  unfold handleAutomatic
  split
  case isFalse => exact w.governs_refl
  case isTrue =>
    exact governs_operation { w with row := some ⟨token, policy, .claimed, deadline⟩ } oracle
      policy generation token .compact false deadline true

/-- A compaction that is given up. -/
theorem governs_ended {engine token : ℕ} {phases : List Phase} {o : Operation} (status : Status)
    (hcurrent : w.current engine token (inCompaction phases) = some o)
    (hphases : ∀ phase ∈ phases, phase.active = true) :
    Governs w.view m (w.publish status).finishOperation.view := by
  obtain ⟨-, ho, -, hin⟩ := w.current_eq_some hcurrent
  simp only [inCompaction, Bool.and_eq_true, decide_eq_true_eq, List.contains_eq_mem] at hin
  have hframe := w.frame_ended status
  refine .moved ?_ ?_ (fun _ ↦ ?_) hframe.engine hframe.writer
  · simp [ho, hphases _ hin.2]
  · simp [operation_finishOperation]
  · intro o' ho'
    rw [view_operation, operation_finishOperation] at ho'
    cases ho'

theorem governs_expire : Governs w.view m w.expireOperation.view := by
  unfold expireOperation
  split
  case h_1 => exact w.governs_refl
  case h_2 o ho =>
    split
    case isFalse => exact w.governs_refl
    case isTrue hphase =>
      have hnone : wellKinded none := by
        intro o' ho'
        cases ho'
      have hactive : w.operation.any (·.phase.active) = true := by simp [ho, hphase, Phase.active]
      split
      · have hframe := w.frame_ended (.transition .ready)
        refine .moved hactive ?_ (fun _ ↦ ?_) hframe.engine hframe.writer <;>
          rw [view_operation, operation_finishOperation]
        · rfl
        · exact hnone
      · refine .moved hactive ?_ (fun _ ↦ ?_) w.frame_finishOperation.engine
          w.frame_finishOperation.writer <;> rw [view_operation, operation_finishOperation]
        · rfl
        · exact hnone

theorem governs_drained (engine token : ℕ) :
    Governs w.view m (w.handleDrained oracle engine token).view := by
  unfold handleDrained
  split
  case h_1 => exact w.governs_refl
  case h_2 o hcurrent =>
    obtain ⟨-, ho, -, hphase⟩ := w.current_eq_some hcurrent
    rw [decide_eq_true_eq] at hphase
    split
    case isTrue => exact w.governs_expire
    case isFalse =>
      split
      case h_1 htransition =>
        refine .moved (by simp [ho, hphase, Phase.active]) rfl (fun _ o' ho' _ ↦ ?_) rfl rfl
        cases ho'
        cases hkind : o.kind <;> simp_all [transitions]
      case h_2 => exact w.governs_close rfl
      case h_3 => exact w.governs_refl

theorem governs_result (driver token : ℕ) (result : DriverResult) :
    Governs w.view m (w.handleResult oracle driver token result).view := by
  have hstopped : Governs w.view m w.stopped.finishOperation.view := by
    have hframe := w.stopped.frame_finishOperation
    refine .cleared hframe.engine hframe.writer (.inr ⟨?_, operation_finishOperation _⟩)
    rw [view_state, status_finishOperation]
    rfl
  have hrestarted : (if w.restarted oracle then w else w.revoke).finishOperation =
      if w.restarted oracle then w.finishOperation else w.revoke.finishOperation := by
    split <;> rfl
  have hended : Governs w.view m (if w.restarted oracle then w else w.revoke).finishOperation.view := by
    rw [hrestarted]
    split
    case isTrue hup =>
      have hready : w.status.state = .ready := by
        simp only [restarted, Bool.and_eq_true, decide_eq_true_eq] at hup
        exact hup.1.1.1
      exact .ended (by rw [view_state, status_finishOperation, hready]) hready (operation_finishOperation _)
        w.frame_finishOperation.engine w.frame_finishOperation.writer
    case isFalse => exact w.governs_given_up
  unfold handleResult
  split
  case h_1 => exact w.governs_refl
  case h_2 =>
    split
    case isFalse => exact w.governs_refl
    case isTrue =>
      split
      case h_1 | h_2 => exact hstopped
      case h_3 | h_4 => exact hended
      case h_5 => exact w.governs_given_up

theorem governs_componentDown : Governs w.view m w.handleComponentDown.view := by
  unfold handleComponentDown
  split
  case isTrue =>
    have hframe := w.frame_finishOperation.trans (frame_revoke _)
    obtain ⟨hstate, hoperation, -⟩ := revoke_keeps w.finishOperation
    refine .failed hstate (.inl ?_) hframe.engine hframe.writer
    rw [view_operation, hoperation, operation_finishOperation]
    rfl
  case isFalse =>
    split
    case isTrue => exact w.governs_refl
    case isFalse hclosing => exact w.governs_revoke (Bool.not_eq_true _ ▸ hclosing)

/-- Nothing about the generation is in a slot. -/
structure Aside (w w' : World) : Prop where
  view : w'.view = w.view
  poisoned : w'.poisoned = w.poisoned
  letters : w'.letters = w.letters

theorem aside_release (slot : Slot) (token : ℕ) : Aside w (w.release slot token) := by
  unfold release
  dsimp only
  split <;> split
  all_goals first
    | exact ⟨rfl, rfl, rfl⟩
    | exact ⟨rfl, rfl, letters_demonitor _ _⟩

theorem aside_reserve (owner generation : ℕ) (slot : Slot) (token bytes : ℕ) :
    Aside w (w.handleReserve oracle owner generation slot token bytes) := by
  unfold handleReserve
  repeat' split
  all_goals first
    | exact ⟨rfl, rfl, rfl⟩
    | exact ⟨rfl, rfl, w.letters_monitor (.owner slot token) owner⟩

theorem aside_submit (owner generation : ℕ) (slot : Slot) (token : ℕ) :
    Aside w (w.handleSubmit owner generation slot token) := by
  unfold handleSubmit
  repeat' split
  all_goals first
    | exact ⟨rfl, rfl, rfl⟩
    | exact w.aside_release slot token

theorem aside_cancel (owner : ℕ) (slot : Slot) (token : ℕ) :
    Aside w (w.handleCancel owner slot token) := by
  unfold handleCancel
  repeat' split
  all_goals first
    | exact ⟨rfl, rfl, rfl⟩
    | exact w.aside_release slot token

theorem aside_ownerDown (slot : Slot) (token : ℕ) : Aside w (w.handleOwnerDown slot token) := by
  unfold handleOwnerDown
  repeat' split
  all_goals first
    | exact ⟨rfl, rfl, rfl⟩
    | exact w.aside_release slot token

theorem governs_of_aside {w' : World} (h : Aside w w') : Governs w.view m w'.view := by
  rw [h.view]
  exact w.governs_refl

theorem governs_merge (mode : Mode) : Governs w.view m (w.mergeSnapshot mode).view := by
  unfold mergeSnapshot
  split
  case isFalse => exact w.governs_refl
  case isTrue hstate =>
    split
    case isTrue => exact w.governs_refl
    case isFalse =>
      refine .served ?_ (.inl rfl) id rfl rfl rfl
      cases hs : w.status.state <;> simp_all [StateName.serving]

theorem governs_completed (engine : ℕ) (slot : Slot) (token owner : ℕ) (mode : Mode) :
    Governs w.view m (w.handleCompleted engine slot token owner mode).view := by
  have haside := aside_release ((w.mergeSnapshot mode).finishDelivery slot token) slot token
  unfold handleCompleted
  repeat' split
  all_goals try exact w.governs_refl
  change Governs w.view m (release _ slot token).view
  rw [haside.view]
  exact w.governs_merge mode

theorem handle_governs (m : Message) : Governs w.view m (w.handle oracle m).view := by
  cases m with
  | reserve owner generation slot token bytes =>
    exact w.governs_of_aside (w.aside_reserve oracle owner generation slot token bytes)
  | submit owner generation slot token =>
    exact w.governs_of_aside (w.aside_submit owner generation slot token)
  | cancelReservation owner slot token => exact w.governs_of_aside (w.aside_cancel owner slot token)
  | completed engine slot token owner mode => exact w.governs_completed engine slot token owner mode
  | executionSnapshot engine mode =>
    simp only [handle]
    split
    · exact w.governs_merge mode
    · exact w.governs_refl
  | commandYielded engine slot token =>
    simp only [handle]
    split <;> exact .quiet rfl rfl rfl rfl
  | attachRuntime | attachFence =>
    simp only [handle]
    split <;> exact .quiet rfl rfl rfl rfl
  | attachEngine engine =>
    simp only [handle]
    split
    · exact .engineAttached rfl rfl rfl rfl rfl
    · exact w.governs_refl
  | attachWriter engine writer =>
    simp only [handle]
    split
    case isTrue h => exact .writerAttached (Option.isNone_iff_eq_none.mp h.2) rfl rfl rfl
    case isFalse => exact w.governs_refl
  | ready engine =>
    simp only [handle, handleReady]
    split
    case isTrue h =>
      obtain ⟨hengine, hstate, hwriter, -⟩ := h
      refine .recovered rfl hengine hstate rfl rfl rfl rfl ?_
      cases hw : w.writer <;> simp_all [liveProcess]
    case isFalse => exact w.governs_refl
  | reconciliation engine =>
    simp only [handle]
    split
    case isTrue h => exact .quiet h.2.symm rfl rfl rfl
    case isFalse => exact w.governs_refl
  | operation owner generation token kind force deadline valid =>
    exact w.governs_operation oracle owner generation token kind force deadline valid
  | automaticCompaction policy token generation deadline =>
    exact w.governs_automatic oracle policy token generation deadline
  | cancelOperationClaim owner token =>
    simp only [handle]
    split <;> exact .quiet rfl rfl rfl rfl
  | operationStarting driver token =>
    simp only [handle, handleStarting]
    repeat' split
    all_goals try exact w.governs_refl
    case h_2 _ o ho hmatch _ phase hphase =>
      refine .cleared rfl rfl (.inl ⟨rfl, ?_⟩)
      have hstarting : phase = .starting := by
        rw [hmatch.2.2] at hphase
        cases hkind : o.kind <;> rw [hkind] at hphase <;> cases hphase <;> rfl
      simp [hstarting]
  | operationResult driver token result => exact w.governs_result oracle driver token result
  | operationDeadline token =>
    simp only [handle]
    split
    · exact w.governs_expire
    · exact w.governs_refl
  | sourceChanged engine token =>
    simp only [handle, handleSourceChanged]
    split
    case h_1 => exact w.governs_refl
    case h_2 hcurrent => exact w.governs_ended _ hcurrent (by decide)
  | policyDraining engine token =>
    simp only [handle, handlePolicyDraining]
    split
    case h_1 => exact w.governs_refl
    case h_2 hcurrent => exact w.governs_ended _ hcurrent (by decide)
  | onlineResult engine token ok =>
    simp only [handle, handleOnlineResult]
    split
    case h_1 => exact w.governs_refl
    case h_2 hcurrent => exact w.governs_ended _ hcurrent (by decide)
  | onlineUnsupported engine token =>
    simp only [handle, handleUnsupported]
    split
    case h_1 => exact w.governs_refl
    case h_2 o hcurrent =>
      obtain ⟨-, ho, -, hin⟩ := w.current_eq_some hcurrent
      have hphase : o.kind = .compact ∧ o.phase = .compacting := by simpa [inCompaction] using hin
      refine .moved (by simp [ho, hphase.2, Phase.active]) rfl (fun _ o' ho' hphase' ↦ ?_) rfl rfl
      cases ho'
      cases hphase'
  | switchRequested engine token =>
    simp only [handle, handleSwitchRequested]
    split
    case h_1 => exact w.governs_refl
    case h_2 o hcurrent =>
      obtain ⟨-, ho, -, hin⟩ := w.current_eq_some hcurrent
      have hphase : o.kind = .compact ∧ o.phase = .compacting := by simpa [inCompaction] using hin
      have hactive : w.operation.any (·.phase.active) = true := by simp [ho, hphase.2, Phase.active]
      refine .moved hactive ?_ id rfl rfl
      change w.operation.all _ = true
      simp [ho, hphase.2, Phase.active]
  | operationDrained engine token => exact w.governs_drained oracle engine token
  | compactionResult engine token ok =>
    simp only [handle, handleCompactionResult]
    split
    case h_1 => exact w.governs_refl
    case h_2 o hcurrent =>
      obtain ⟨-, ho, -, hin⟩ := w.current_eq_some hcurrent
      have hphase : o.kind = .compact ∧ o.phase = .compacting := by simpa [inCompaction] using hin
      exact w.governs_beginClosing ho (by rw [hphase.1, hphase.2]; rfl)
  | writerEvent writer event =>
    simp only [handle, handleWriterEvent]
    repeat' split
    all_goals try exact w.governs_refl
    case isFalse hclosing _ => exact w.governs_revoke (Bool.not_eq_true _ ▸ hclosing)
  | fenceRevoked generation =>
    simp only [handle, handleFenceRevoked]
    repeat' split
    all_goals try exact w.governs_refl
    case isFalse hclosing => exact w.governs_revoke (Bool.not_eq_true _ ▸ hclosing)
  | down ref =>
    simp only [handle, handleDown]
    split
    case h_1 => exact w.governs_refl
    case h_2 =>
      split
      case h_1 | h_2 | h_3 | h_4 => exact w.governs_componentDown
      case h_5 => exact w.governs_given_up
      case h_6 slot token _ => exact w.governs_of_aside (w.aside_ownerDown slot token)
  | reap => exact .quiet rfl rfl rfl rfl

/-! ## What stays in the mailbox -/

theorem letters_beginClosing : w.beginClosing.letters = w.letters := by
  unfold beginClosing
  repeat' split
  all_goals first
    | rfl
    | exact (w.closeGeneration_keeps _).2.2

theorem letters_operation (owner generation token : ℕ) (kind : Kind) (force : Bool)
    (deadline : ℕ) (valid : Bool) :
    (w.handleOperation oracle owner generation token kind force deadline valid).letters =
      w.letters := by
  unfold handleOperation
  split
  case isFalse => rfl
  case isTrue =>
    split
    case isFalse => rfl
    case isTrue =>
      dsimp only
      split
      · exact letters_beginClosing _
      · split <;> rfl

theorem letters_clearGeneration : w.clearGeneration.letters = w.letters := w.letters_demonitor _

/-- The guardian takes letters out of its mailbox only by handling them. -/
theorem handle_letters (m : Message) : (w.handle oracle m).letters = w.letters := by
  cases m with
  | reserve owner generation slot token bytes =>
    exact (w.aside_reserve oracle owner generation slot token bytes).letters
  | submit owner generation slot token => exact (w.aside_submit owner generation slot token).letters
  | cancelReservation owner slot token => exact (w.aside_cancel owner slot token).letters
  | completed engine slot token owner mode =>
    have hmerge : (w.mergeSnapshot mode).letters = w.letters := by
      unfold mergeSnapshot
      repeat' split
      all_goals rfl
    have haside := aside_release ((w.mergeSnapshot mode).finishDelivery slot token) slot token
    simp only [handle, handleCompleted]
    repeat' split
    all_goals first
      | rfl
      | exact haside.letters.trans hmerge
  | executionSnapshot engine mode =>
    simp only [handle, mergeSnapshot]
    repeat' split
    all_goals rfl
  | attachRuntime | attachEngine | attachWriter | attachFence =>
    simp only [handle]
    split
    · exact w.letters_monitor .runtime _
    · rfl
  | operation owner generation token kind force deadline valid =>
    exact w.letters_operation oracle owner generation token kind force deadline valid
  | automaticCompaction policy token generation deadline =>
    simp only [handle, handleAutomatic]
    split
    · exact letters_operation { w with row := some ⟨token, policy, .claimed, deadline⟩ } oracle
        policy generation token .compact false deadline true
    · rfl
  | operationStarting driver token =>
    simp only [handle, handleStarting]
    repeat' split
    all_goals first
      | rfl
      | exact w.letters_clearGeneration
  | operationResult driver token result =>
    simp only [handle, handleResult]
    repeat' split
    all_goals first
      | rfl
      | exact w.letters_finishOperation
      | exact (letters_finishOperation _).trans w.letters_clearGeneration
      | exact (letters_finishOperation _).trans w.revoke_keeps.2.2
  | operationDeadline token =>
    simp only [handle, expireOperation]
    repeat' split
    all_goals first
      | rfl
      | exact letters_finishOperation _
  | sourceChanged | policyDraining | onlineResult =>
    simp only [handle, handleSourceChanged, handlePolicyDraining, handleOnlineResult]
    split
    · rfl
    · exact letters_finishOperation _
  | operationDrained engine token =>
    simp only [handle, handleDrained, expireOperation]
    repeat' split
    all_goals first
      | rfl
      | exact letters_finishOperation _
      | exact (closeGeneration_keeps _ _).2.2
  | compactionResult engine token ok =>
    simp only [handle, handleCompactionResult]
    split
    · rfl
    · exact w.letters_beginClosing
  | writerEvent | fenceRevoked =>
    simp only [handle, handleWriterEvent, handleFenceRevoked]
    repeat' split
    all_goals first
      | rfl
      | exact w.revoke_keeps.2.2
  | down ref =>
    simp only [handle, handleDown, handleComponentDown]
    repeat' split
    all_goals first
      | rfl
      | exact w.revoke_keeps.2.2
      | exact (revoke_keeps _).2.2.trans w.letters_finishOperation
      | exact (letters_finishOperation _).trans w.revoke_keeps.2.2
      | exact (w.aside_ownerDown _ _).letters
  | _ =>
    simp only [handle, handleReady, handleUnsupported, handleSwitchRequested, handleReap]
    repeat' split
    all_goals rfl

theorem handle_poisoned (m : Message) : (w.handle oracle m).poisoned = w.poisoned := by
  by_cases hm : m.administrative = true
  · exact (w.frame_handle oracle hm).poisoned
  · cases m with
    | reserve owner generation slot token bytes =>
      exact (w.aside_reserve oracle owner generation slot token bytes).poisoned
    | submit owner generation slot token => exact (w.aside_submit owner generation slot token).poisoned
    | cancelReservation owner slot token => exact (w.aside_cancel owner slot token).poisoned
    | completed engine slot token owner mode =>
      have haside := aside_release ((w.mergeSnapshot mode).finishDelivery slot token) slot token
      simp only [handle, handleCompleted]
      repeat' split
      all_goals first
        | rfl
        | exact haside.poisoned.trans (w.frame_mergeSnapshot mode).poisoned
    | attachRuntime | attachEngine | attachWriter | attachFence =>
      simp only [handle]
      split <;> rfl
    | operationStarting driver token =>
      simp only [handle, handleStarting]
      repeat' split
      all_goals rfl
    | operationResult driver token result =>
      simp only [handle, handleResult]
      repeat' split
      all_goals first
        | rfl
        | exact (frame_finishOperation _).poisoned
        | exact (w.frame_revoke.trans (frame_finishOperation _)).poisoned
    | down ref =>
      simp only [handle, handleDown]
      split
      · rfl
      · split
        case h_6 slot token _ => exact (w.aside_ownerDown slot token).poisoned
        case h_5 => exact (w.frame_revoke.trans (frame_finishOperation _)).poisoned
        all_goals exact w.frame_handleComponentDown.poisoned
    | reap => rfl
    | _ => exact absurd rfl hm

/-! ## Condemned generations -/

/-- The generation does not serve, no operation can make it, and its engine has not reported that it
has recovered. -/
structure Condemned (w : World) : Prop where
  idle : w.operation.all (fun o ↦ !o.phase.active) = true
  state : w.status.state.serving = false
  unready : w.status.state = .recovering → ∀ engine, w.engine = some engine →
    .ready engine ∉ w.letters

/-- The engine a letter announces. -/
def announces : Message → Option ℕ
  | .attachEngine engine => some engine
  | _ => none

theorem announces_eq_some {engine : ℕ} (h : announces m = some engine) :
    m = .attachEngine engine := by
  cases m with
  | attachEngine => exact congrArg Message.attachEngine (Option.some.inj h)
  | _ => cases h

/-- An engine is announced once, under a new number, before it reports anything. -/
structure Announced (w : World) : Prop where
  engine : ∀ {engine : ℕ}, w.engine = some engine → engine < w.fresh
  ready : ∀ {engine : ℕ}, .ready engine ∈ w.letters → engine < w.fresh
  attaching : ∀ {engine : ℕ}, .attachEngine engine ∈ w.letters →
    engine < w.fresh ∧ w.engine ≠ some engine ∧ .ready engine ∉ w.letters
  once : (w.letters.filterMap announces).Nodup

/-- What keeps a poisoned writer from being forgotten. -/
structure Watched (w : World) : Prop where
  kinded : wellKinded w.operation
  closing : w.operation.any (·.phase = .closing) = true → w.status.state = .stopping
  announced : Announced w
  sound : (∃ p, w.writer = some p ∧ p ∉ w.poisoned) ∨
    (∃ p, w.writer = some p ∧ .writerEvent p .poisoned ∈ w.letters) ∨ Condemned w

variable {w} {w' : World} {oracle}

/-- A letter that is handled is the first of the letters. -/
theorem letters_cons {rest : List Message} (h : w.mailbox = m :: rest) :
    w.letters = if m.isDown then letters { w with mailbox := rest }
      else m :: letters { w with mailbox := rest } := by
  unfold letters
  rw [h, List.filter_cons]
  cases m.isDown <;> rfl

theorem Announced.handled (h : Announced w) {rest : List Message} (hmailbox : w.mailbox = m :: rest)
    (hgoverns : Governs w.view m w'.view) (hletters : w'.letters = letters { w with mailbox := rest })
    (hfresh : w.fresh ≤ w'.fresh) : Announced w' := by
  have hcons := letters_cons hmailbox
  rw [← hletters] at hcons
  have hsublist : w'.letters.Sublist w.letters := by
    rw [hcons]
    split
    · exact List.Sublist.refl _
    · exact List.sublist_cons_self _ _
  -- Only an announcement brings an engine.
  have hengine : ∀ engine, w'.engine = some engine →
      w.engine = some engine ∨ m = .attachEngine engine := by
    intro engine hengine
    cases hgoverns with
    | cleared hnone => exact absurd (hengine.symm.trans hnone) (by simp)
    | engineAttached hm _ _ hsome =>
      cases hengine.symm.trans hsome
      exact .inr hm
    | _ =>
      left
      simp_all only [view_engine]
  have hfirst : ∀ engine, m = .attachEngine engine → w.letters = m :: w'.letters := by
    rintro engine rfl
    exact hcons
  refine ⟨?_, ?_, ?_, h.once.sublist (hsublist.filterMap _)⟩
  · intro engine hsome
    obtain hold | rfl := hengine engine hsome
    · exact (h.engine hold).trans_le hfresh
    · refine (h.attaching ?_).1.trans_le hfresh
      rw [hfirst engine rfl]
      exact List.mem_cons_self
  · intro engine hmem
    exact (h.ready (hsublist.subset hmem)).trans_le hfresh
  · intro engine hmem
    obtain ⟨hlt, hne, hready⟩ := h.attaching (hsublist.subset hmem)
    refine ⟨hlt.trans_le hfresh, fun hsome ↦ ?_, fun hmem' ↦ hready (hsublist.subset hmem')⟩
    obtain hold | rfl := hengine engine hsome
    · exact hne hold
    · -- A second announcement of the same engine.
      have hannounced : announces (.attachEngine engine) = some engine := rfl
      have honce := h.once
      rw [hfirst engine rfl, List.filterMap_cons_some hannounced, List.nodup_cons] at honce
      exact honce.1 (List.mem_filterMap.mpr ⟨_, hmem, hannounced⟩)

/-- A generation that has been cleared serves only once its successors report. -/
theorem Condemned.of_cleared (hengine : w'.engine = none)
    (hends : (w'.status.state = .recovering ∧ w'.operation.any (·.phase = .starting) = true) ∨
      (w'.status.state = .stopped ∧ w'.operation = none)) : Condemned w' := by
  refine ⟨?_, ?_, fun _ engine hsome ↦ absurd (hengine.symm.trans hsome) (by simp)⟩
  · obtain ⟨-, hstarting⟩ | ⟨-, hnone⟩ := hends
    · obtain ⟨o, ho, hphase⟩ := (Option.any_eq_true _ _).mp hstarting
      rw [decide_eq_true_eq] at hphase
      rw [ho, Option.all_some, hphase]
      rfl
    · rw [hnone]
      rfl
  · obtain ⟨hstate, -⟩ | ⟨hstate, -⟩ := hends <;> (rw [hstate]; rfl)

/-- A condemned generation stays condemned until it is replaced. -/
theorem Condemned.handled (h : Condemned w) (hannounced : Announced w)
    (hgoverns : Governs w.view m w'.view) (hm : m.isDown = false → m ∈ w.letters)
    (hletters : ∀ x ∈ w'.letters, x ∈ w.letters) : Condemned w' := by
  have hactive : ∀ {operation : Option Operation}, operation = w.operation →
      operation.all (fun o ↦ !o.phase.active) = true := by
    rintro _ rfl
    exact h.idle
  cases hgoverns with
  | quiet hstate hoperation hengine =>
    refine ⟨hactive hoperation, (congrArg _ hstate).trans h.state, fun hrec engine hsome hmem ↦ ?_⟩
    exact h.unready (hstate.symm.trans hrec) engine (hengine.symm.trans hsome) (hletters _ hmem)
  | @recovered engine hready hengine hstate =>
    -- There was no report of the engine left to handle.
    subst hready
    exact absurd (hm rfl) (h.unready hstate engine hengine)
  | served hserving => exact absurd (hserving.symm.trans h.state) (by simp)
  | moved hrunning =>
    obtain ⟨o, ho, hphase⟩ := (Option.any_eq_true _ _).mp hrunning
    have hidle := h.idle
    rw [show w.operation = some o from ho, Option.all_some, hphase] at hidle
    cases hidle
  | closed hclosing hstate =>
    obtain ⟨o, ho, hphase⟩ := (Option.any_eq_true _ _).mp hclosing
    rw [decide_eq_true_eq] at hphase
    refine ⟨?_, ?_, fun hrec ↦ ?_⟩
    · rw [show w'.operation = some o from ho, Option.all_some, hphase]
      rfl
    · rw [show w'.status.state = .stopping from hstate]
      rfl
    · exact absurd (hstate.symm.trans hrec) (by simp)
  | failed hstate hoperation =>
    refine ⟨?_, ?_, fun hrec ↦ ?_⟩
    · obtain hnone | ⟨hsame, -⟩ := hoperation
      · rw [show w'.operation = none from hnone]
        rfl
      · exact hactive hsame
    · rw [show w'.status.state = .failed from hstate]
      rfl
    · exact absurd (hstate.symm.trans hrec) (by simp)
  | ended _ hstate => exact absurd ((congrArg _ hstate).symm.trans h.state) (by simp [StateName.serving])
  | cleared hengine _ hends => exact .of_cleared hengine hends
  | @engineAttached engine hattach hstate hoperation hengine =>
    subst hattach
    refine ⟨hactive hoperation, (congrArg _ hstate).trans h.state, fun _ engine' hsome hmem ↦ ?_⟩
    cases hengine.symm.trans hsome
    exact (hannounced.attaching (hm rfl)).2.2 (hletters _ hmem)
  | writerAttached _ hstate hoperation hengine =>
    refine ⟨hactive hoperation, (congrArg _ hstate).trans h.state, fun hrec engine hsome hmem ↦ ?_⟩
    exact h.unready (hstate.symm.trans hrec) engine (hengine.symm.trans hsome) (hletters _ hmem)

/-- The notice of the attached writer condemns its generation, unless a compaction runs. -/
theorem condemned_of_notice (hkinded : wellKinded w.operation)
    (hclosing : w.operation.any (·.phase = .closing) = true → w.status.state = .stopping) {p : ℕ}
    (hwriter : w.writer = some p) (hcompacting : w.compacting? = false) :
    Condemned (w.handleWriterEvent p .poisoned) := by
  unfold handleWriterEvent
  rw [if_pos hwriter]
  split
  case isTrue hphase =>
    have hstate := hclosing hphase
    obtain ⟨o, ho, hphase⟩ := (Option.any_eq_true _ _).mp hphase
    rw [decide_eq_true_eq] at hphase
    refine ⟨?_, ?_, fun hrec ↦ absurd (hstate.symm.trans hrec) (by simp)⟩
    · rw [ho, Option.all_some, hphase]
      rfl
    · rw [hstate]
      rfl
  case isFalse hopen =>
    rw [if_neg (by simp [hcompacting])]
    obtain ⟨hstate, hoperation, -⟩ := w.revoke_keeps
    refine ⟨?_, ?_, fun hrec ↦ absurd (hstate.symm.trans hrec) (by simp)⟩
    · rw [hoperation]
      split
      case isTrue => rfl
      case isFalse hdraining =>
        cases ho : w.operation with
        | none => rfl
        | some o =>
          have hkind := hkinded o ho
          simp only [compacting?, ho, Option.any_some, Bool.and_eq_false_iff, decide_eq_false_iff_not]
            at hcompacting
          cases hphase : o.phase <;> simp_all [Phase.active]
    · rw [hstate]
      rfl

theorem wellKinded_handled (h : wellKinded w.operation) (hgoverns : Governs w.view m w'.view) :
    wellKinded w'.operation := by
  have hnone : w'.operation = none → wellKinded w'.operation := by
    rintro hnone o ho
    rw [hnone] at ho
    cases ho
  have hphase : ∀ phase, phase ≠ .compacting → w'.operation.any (·.phase = phase) = true →
      wellKinded w'.operation := by
    intro phase hne hany o ho hcompacting
    rw [ho, Option.any_some, decide_eq_true_eq] at hany
    exact absurd (hany.symm.trans hcompacting) hne
  have hsame : w'.operation = w.operation → wellKinded w'.operation := fun heq ↦ heq ▸ h
  cases hgoverns with
  | quiet _ hoperation => exact hsame hoperation
  | recovered _ _ _ _ hoperation => exact hsame hoperation
  | served _ _ hkinded => exact hkinded h
  | moved _ _ hkinded => exact hkinded h
  | closed hclosing => exact hphase .closing (by simp) hclosing
  | failed _ hoperation => exact hoperation.elim hnone fun hfailed ↦ hsame hfailed.1
  | ended _ _ hoperation => exact hnone hoperation
  | cleared _ _ hends =>
    exact hends.elim (fun hstarting ↦ hphase .starting (by simp) hstarting.2) fun hstop ↦ hnone hstop.2
  | engineAttached _ _ hoperation => exact hsame hoperation
  | writerAttached _ _ hoperation => exact hsame hoperation

theorem closing_handled
    (h : w.operation.any (·.phase = .closing) = true → w.status.state = .stopping)
    (hgoverns : Governs w.view m w'.view) :
    w'.operation.any (·.phase = .closing) = true → w'.status.state = .stopping := by
  intro hclosing
  have hnone : w'.operation ≠ none := by
    intro hnone
    rw [hnone] at hclosing
    cases hclosing
  have hsame : w'.operation = w.operation → w.status.state = .stopping := fun heq ↦ h (heq ▸ hclosing)
  cases hgoverns with
  | quiet hstate hoperation => exact hstate.trans (hsame hoperation)
  | recovered _ _ hstate _ hoperation => exact absurd (hstate.symm.trans (hsame hoperation)) (by simp)
  | served hserving _ _ hopen =>
    have hstate := h (hopen.symm.trans hclosing)
    rw [view_state, hstate] at hserving
    cases hserving
  | moved _ hactive =>
    obtain ⟨o, ho, hphase⟩ := (Option.any_eq_true _ _).mp hclosing
    rw [decide_eq_true_eq] at hphase
    rw [view_operation, ho, Option.all_some, hphase] at hactive
    cases hactive
  | closed _ hstate => exact hstate
  | failed _ hoperation =>
    obtain hgone | ⟨heq, hopen⟩ := hoperation
    · exact absurd hgone hnone
    · rw [show w'.operation = w.operation from heq] at hclosing
      obtain ⟨o, ho, hphase⟩ := (Option.any_eq_true _ _).mp hclosing
      rw [view_operation, ho, Option.any_some, hphase, Bool.or_true] at hopen
      cases hopen
  | ended _ _ hoperation => exact absurd hoperation hnone
  | cleared _ _ hends =>
    obtain ⟨-, hstarting⟩ | ⟨-, hgone⟩ := hends
    · obtain ⟨o, ho, hphase⟩ := (Option.any_eq_true _ _).mp hclosing
      rw [view_operation, ho, Option.any_some, decide_eq_true_eq] at hstarting
      rw [decide_eq_true_eq] at hphase
      exact absurd (hphase.symm.trans hstarting) (by simp)
    · exact absurd hgone hnone
  | engineAttached _ hstate hoperation => exact hstate.trans (hsame hoperation)
  | writerAttached _ hstate hoperation => exact hstate.trans (hsame hoperation)

/-- The notice of the attached writer is not handled while a compaction runs. -/
def attentive (w : World) : Label → Bool
  | .handle _ =>
    w.mailbox.head?.all fun
      | .writerEvent p .poisoned => !(w.writer = some p && w.compacting?)
      | _ => true
  | _ => true

theorem Watched.handled (h : Watched w) {rest : List Message} (hmailbox : w.mailbox = m :: rest)
    (hok : w.attentive (.handle oracle) = true) :
    Watched ({ w with mailbox := rest }.handle oracle m) := by
  have hgoverns := handle_governs { w with mailbox := rest } oracle m
  have hletters := handle_letters { w with mailbox := rest } oracle m
  have hpoisoned := handle_poisoned { w with mailbox := rest } oracle m
  have hcons := letters_cons hmailbox
  rw [← hletters] at hcons
  have hsubset : ∀ x ∈ ({ w with mailbox := rest }.handle oracle m).letters, x ∈ w.letters := by
    intro x hx
    rw [hcons]
    split
    · exact hx
    · exact List.mem_cons_of_mem _ hx
  have hfirst : m.isDown = false → m ∈ w.letters := by
    intro hdown
    rw [hcons, hdown]
    exact List.mem_cons_self
  refine ⟨wellKinded_handled (w := w) h.kinded hgoverns, closing_handled (w := w) h.closing hgoverns,
    h.announced.handled hmailbox hgoverns hletters
      (handle_carried { w with mailbox := rest } oracle m).fresh, ?_⟩
  -- The writer stays, unless the generation is cleared or has none.
  have hwriter : ∀ p, w.writer = some p →
      ({ w with mailbox := rest }.handle oracle m).writer = some p ∨
        Condemned ({ w with mailbox := rest }.handle oracle m) := by
    intro p hp
    cases hgoverns with
    | cleared hengine _ hends => exact .inr (.of_cleared hengine hends)
    | writerAttached hnone => exact absurd (hp.symm.trans hnone) (by simp)
    | _ =>
      left
      simp_all only [view_writer]
  rcases h.sound with ⟨p, hp, hfine⟩ | ⟨p, hp, hnotice⟩ | hcondemned
  · rcases hwriter p hp with hsame | hcleared
    · refine .inl ⟨p, hsame, ?_⟩
      rw [hpoisoned]
      exact hfine
    · exact .inr (.inr hcleared)
  · by_cases hm : m = .writerEvent p .poisoned
    · subst hm
      refine .inr (.inr ?_)
      have hcompacting : w.compacting? = false := by
        simpa [attentive, hmailbox, hp] using hok
      exact condemned_of_notice (w := { w with mailbox := rest }) h.kinded h.closing hp hcompacting
    · rcases hwriter p hp with hsame | hcleared
      · refine .inr (.inl ⟨p, hsame, ?_⟩)
        rw [hcons] at hnotice
        split at hnotice
        · exact hnotice
        · exact (List.mem_cons.mp hnotice).resolve_left fun heq ↦ hm heq.symm
      · exact .inr (.inr hcleared)
  · exact .inr (.inr (hcondemned.handled h.announced hgoverns hfirst hsubset))

/-- A step of another process that adds letters to the mailbox: none that reports readiness of a
generation whose writer is poisoned, and no second announcement of an engine. -/
theorem Watched.posted (h : Watched w) (hview : w'.view = w.view) (hfresh : w.fresh ≤ w'.fresh)
    (letters : List Message) (hletters : w'.letters = w.letters ++ letters)
    (hpoisoned : ∀ p, w.writer = some p → p ∈ w'.poisoned → p ∈ w.poisoned ∨
      .writerEvent p .poisoned ∈ letters)
    (hready : ∀ engine, .ready engine ∈ letters → w.engine = some engine ∧
      ∃ p, w.writer = some p ∧ p ∉ w.poisoned)
    (hattach : ∀ engine, .attachEngine engine ∈ letters → engine = w.fresh ∧ w.fresh < w'.fresh ∧
      .ready engine ∉ letters)
    (honce : (letters.filterMap announces).Nodup) : Watched w' := by
  have hoperation : w'.operation = w.operation := congrArg View.operation hview
  have hstate : w'.status.state = w.status.state := congrArg View.state hview
  have hengine : w'.engine = w.engine := congrArg View.engine hview
  have hwriter : w'.writer = w.writer := congrArg View.writer hview
  have hold : ∀ x ∈ w.letters, x ∈ w'.letters := by
    intro x hx
    rw [hletters]
    exact List.mem_append_left _ hx
  refine ⟨hoperation ▸ h.kinded, hoperation ▸ hstate ▸ h.closing, ⟨?_, ?_, ?_, ?_⟩, ?_⟩
  · intro engine hsome
    exact (h.announced.engine (hengine ▸ hsome)).trans_le hfresh
  · intro engine hmem
    rw [hletters, List.mem_append] at hmem
    rcases hmem with hmem | hmem
    · exact (h.announced.ready hmem).trans_le hfresh
    · exact (h.announced.engine (hready engine hmem).1).trans_le hfresh
  · intro engine hmem
    rw [hletters, List.mem_append] at hmem
    rw [hengine, hletters, List.mem_append]
    rcases hmem with hmem | hmem
    · obtain ⟨hlt, hne, hnot⟩ := h.announced.attaching hmem
      refine ⟨hlt.trans_le hfresh, hne, fun hmem' ↦ ?_⟩
      exact hmem'.elim hnot fun hnew ↦ hne (hready engine hnew).1
    · obtain ⟨rfl, hlt, hnot⟩ := hattach engine hmem
      refine ⟨hlt, fun hsome ↦ lt_irrefl _ (h.announced.engine hsome), fun hmem' ↦ ?_⟩
      exact hmem'.elim (fun hmem' ↦ lt_irrefl _ (h.announced.ready hmem')) hnot
  · rw [hletters, List.filterMap_append]
    refine h.announced.once.append honce fun engine hmem hmem' ↦ ?_
    obtain ⟨x, hx, hengine⟩ := List.mem_filterMap.mp hmem
    obtain ⟨y, hy, hengine'⟩ := List.mem_filterMap.mp hmem'
    obtain rfl := announces_eq_some hengine
    obtain rfl := announces_eq_some hengine'
    exact absurd (hattach engine hy).1 (h.announced.attaching hx).1.ne
  · rw [hwriter]
    rcases h.sound with ⟨p, hp, hfine⟩ | ⟨p, hp, hnotice⟩ | hcondemned
    · by_cases hnew : p ∈ w'.poisoned
      · refine .inr (.inl ⟨p, hp, ?_⟩)
        rw [hletters]
        exact List.mem_append_right _ ((hpoisoned p hp hnew).resolve_left hfine)
      · exact .inl ⟨p, hp, hnew⟩
    · exact .inr (.inl ⟨p, hp, hold _ hnotice⟩)
    · by_cases hfine : ∃ p, w.writer = some p ∧ p ∉ w.poisoned
      · obtain ⟨p, hp, hfine⟩ := hfine
        by_cases hnew : p ∈ w'.poisoned
        · refine .inr (.inl ⟨p, hp, ?_⟩)
          rw [hletters]
          exact List.mem_append_right _ ((hpoisoned p hp hnew).resolve_left hfine)
        · exact .inl ⟨p, hp, hnew⟩
      · refine .inr (.inr ⟨hoperation ▸ hcondemned.idle, hstate ▸ hcondemned.state, ?_⟩)
        intro hrec engine hsome hmem
        rw [hletters, List.mem_append] at hmem
        rcases hmem with hmem | hmem
        · exact hcondemned.unready (hstate ▸ hrec) engine (hengine ▸ hsome) hmem
        · exact hfine (hready engine hmem).2

theorem letters_post (w : World) {m : Message} (hm : m.isDown = false) :
    (w.post m).letters = w.letters ++ [m] := by
  unfold letters post
  rw [List.filter_append]
  simp [hm]

theorem Watched.stepped (h : Watched w) {l : Label} (hok : w.attentive l = true)
    (hl : w.step l = some w') : Watched w' := by
  -- A step that posts nothing and leaves the generation alone.
  have hquiet : w'.view = w.view → w.fresh ≤ w'.fresh → w'.letters = w.letters →
      w'.poisoned = w.poisoned → Watched w' := by
    intro hview hfresh hletters hpoisoned
    refine h.posted hview hfresh [] (by rw [hletters, List.append_nil]) ?_ ?_ ?_ List.nodup_nil
    · intro p _ hp
      exact .inl (hpoisoned ▸ hp)
    · intro engine hmem
      cases hmem
    · intro engine hmem
      cases hmem
  cases l with
  | claim | claimOperation =>
    simp only [step] at hl
    split at hl
    case isFalse => cases hl
    case isTrue =>
      cases hl
      exact hquiet rfl (Nat.le_succ _) rfl rfl
  | send m =>
    simp only [step] at hl
    split at hl
    case isFalse => cases hl
    case isTrue hsend =>
      cases hl
      have hdown : m.isDown = false := by cases m <;> first | rfl | cases hsend
      refine h.posted rfl le_rfl [m] (w.letters_post hdown) (fun p _ hp ↦ .inl hp) ?_ ?_ ?_
      · intro engine hmem
        obtain rfl := List.mem_singleton.mp hmem
        simp only [sendable, Bool.and_eq_true, decide_eq_true_eq] at hsend
        obtain ⟨p, hp, hfine⟩ := (Option.any_eq_true _ _).mp hsend.2
        exact ⟨hsend.1, p, hp, by simpa using hfine⟩
      · intro engine hmem
        obtain rfl := List.mem_singleton.mp hmem
        cases hsend
      · cases m <;> first | exact List.nodup_nil | cases hsend
  | startEngine =>
    cases hl
    refine h.posted rfl (Nat.le_succ _) [.attachEngine w.fresh] (w.letters_post rfl)
      (fun p _ hp ↦ .inl hp) ?_ ?_ (List.nodup_singleton _)
    · intro engine hmem
      cases List.mem_singleton.mp hmem
    · intro engine hmem
      cases List.mem_singleton.mp hmem
      exact ⟨rfl, Nat.lt_succ_self _, by simp⟩
  | startWriter engine =>
    cases hl
    refine h.posted rfl (Nat.le_succ _) [.attachWriter engine w.fresh] (w.letters_post rfl)
      (fun p _ hp ↦ .inl hp) ?_ ?_ List.nodup_nil
    · intro engine hmem
      cases List.mem_singleton.mp hmem
    · intro engine hmem
      cases List.mem_singleton.mp hmem
  | poison writer =>
    simp only [step] at hl
    split at hl
    case isFalse => cases hl
    case isTrue =>
      cases hl
      refine h.posted rfl le_rfl [.writerEvent writer .poisoned] (w.letters_post rfl) ?_ ?_ ?_
        List.nodup_nil
      · intro p _ hp
        rcases Finset.mem_insert.mp hp with rfl | hp
        · exact .inr (List.mem_singleton_self _)
        · exact .inl hp
      · intro engine hmem
        cases List.mem_singleton.mp hmem
      · intro engine hmem
        cases List.mem_singleton.mp hmem
  | kill p =>
    cases hl
    obtain ⟨hstatus, hoperation, hletters⟩ := w.kill_keeps p
    have hframe := w.frame_kill p
    refine hquiet ?_ hframe.fresh hletters hframe.poisoned
    simp only [view, hstatus, hoperation, hframe.engine, hframe.writer]
  | recover bytes =>
    simp only [step] at hl
    split at hl
    case h_2 => cases hl
    case h_1 =>
      split at hl
      case isFalse => cases hl
      case isTrue =>
        obtain ⟨counter, -, rfl⟩ := Option.map_eq_some_iff.mp hl
        exact hquiet rfl le_rfl rfl rfl
  | act action =>
    obtain ⟨a, -, hperform⟩ := Option.bind_eq_some_iff.mp hl
    cases action with
    | reserve bytes =>
      obtain ⟨counter, -, rfl⟩ := Option.map_eq_some_iff.mp hperform
      exact hquiet rfl le_rfl rfl rfl
    | release | account =>
      cases hperform
      exact hquiet rfl le_rfl rfl rfl
  | handle oracle =>
    obtain ⟨m, rest, hmailbox, rfl⟩ := step_handle hl
    exact h.handled hmailbox hok

/-! ## Every run -/

/-- A message about the loss of the generation is on its way. -/
def alarmed (w : World) : Bool :=
  w.mailbox.any fun
    | .writerEvent p _ => w.writer = some p
    | .down ref => w.monitors.any fun m ↦
        m.ref == ref && [Watch.engine, .writer, .runtime, .fence].contains m.watch
    | _ => false

/-- The generation is published as ready, on a writer that has poisoned itself, and nothing is going
to change that. -/
def Deceived (w : World) : Prop :=
  w.status.state = .ready ∧ w.operation = none ∧ (∃ p, w.writer = some p ∧ p ∈ w.poisoned) ∧
    w.alarmed = false

/-- **A poisoned writer takes its generation down.** In every run in which no notice of the attached
writer is handled during a compaction, no state is reached in which the generation is published as
ready on a poisoned writer with no message about it on the way. -/
theorem poisoned_revoked {w : World}
    (hw : machine.ReachableUnder (fun w l ↦ w.attentive l = true) w) : ¬ Deceived w := by
  have hwatched : Watched w := by
    refine hw.invariant (fun w hstart ↦ ?_) (fun _ _ _ h hok hl ↦ h.stepped hok hl)
    have hletters : w.letters = [] := by rw [letters, hstart.mailbox, List.filter_nil]
    refine ⟨?_, ?_, ⟨?_, ?_, ?_, ?_⟩, .inr (.inr ⟨?_, ?_, ?_⟩)⟩ <;>
      simp [wellKinded, hstart.operation, hstart.engine, hstart.status, hletters,
        Status.transition, StateName.serving]
  rintro ⟨hready, -, ⟨p, hp, hpoisoned⟩, hquiet⟩
  rcases hwatched.sound with ⟨q, hq, hfine⟩ | ⟨q, hq, hnotice⟩ | hcondemned
  · cases hp.symm.trans hq
    exact hfine hpoisoned
  · have halarmed : w.alarmed = true :=
      List.any_eq_true.mpr ⟨.writerEvent q .poisoned, (List.mem_filter.mp hnotice).1, by simpa using hq⟩
    rw [halarmed] at hquiet
    cases hquiet
  · have hstate := hcondemned.state
    rw [hready] at hstate
    cases hstate

end World

namespace Sample

/-- The writer poisons itself while the generation serves. -/
def noticed : List Label := attached ++ [.poison 3, .handle clock]

/-- The writer poisons itself while a compaction runs, which then fails. -/
def compacted : List Label :=
  attached ++ [.claimOperation 101 1000, .send (.operation 101 0 5 .compact false 1000 true),
    .handle clock, .poison 3, .handle clock, .send (.onlineResult 1 5 false), .handle clock]

end Sample

namespace World

open Sample

theorem poisoned_revoked_noticed : ∃ w,
    machine.ReachableUnder (fun w l ↦ w.attentive l = true) w ∧ w.writer = some 3 ∧
    3 ∈ w.poisoned ∧ w.status.state = .failed ∧ ¬ Deceived w := by
  have hrun : ((machine.under fun w l ↦ w.attentive l = true).run (init config) noticed).any
      (fun w ↦ w.writer = some 3 && 3 ∈ w.poisoned && w.status.state = .failed) = true := by
    decide +kernel
  obtain ⟨w, hw, h⟩ := (Option.any_eq_true _ _).mp hrun
  simp only [Bool.and_eq_true, decide_eq_true_eq] at h
  have hreach : machine.ReachableUnder (fun w l ↦ w.attentive l = true) w :=
    Machine.reachableUnder_of_run (.initial (starts_init config)) hw
  exact ⟨w, hreach, h.1.1, h.1.2, h.2, poisoned_revoked hreach⟩

theorem poisoned_ready : ∃ w, machine.Reachable w ∧ Deceived w := by
  have hrun : (machine.run (init config) compacted).any (fun w ↦ w.status.state = .ready &&
      w.operation.isNone && w.writer = some 3 && 3 ∈ w.poisoned && !w.alarmed) = true := by
    decide +kernel
  obtain ⟨w, hw, h⟩ := (Option.any_eq_true _ _).mp hrun
  simp only [Bool.and_eq_true, decide_eq_true_eq, Option.isNone_iff_eq_none, Bool.not_eq_true'] at h
  obtain ⟨⟨⟨⟨hstate, hoperation⟩, hwriter⟩, hpoisoned⟩, hquiet⟩ := h
  exact ⟨w, Machine.reachable_of_run (starts_init config) hw, hstate, hoperation,
    ⟨3, hwriter, hpoisoned⟩, hquiet⟩

end World

end Tay.Lifecycle
