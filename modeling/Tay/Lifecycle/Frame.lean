import Tay.Lifecycle.Machine

/-!
# What administration leaves alone

Publishing a status, starting and ending operations, revoking a generation: none of it touches the
admission table, the memory budget, or which engine and writer belong to the generation. `Frame` says
so once for all of them, and the results about slots, memory and poisoned writers start from it.
-/

open Foundation

namespace Tay.Lifecycle

/-- The admission table, the budget and the attached processes are the same. -/
structure Frame (w w' : World) : Prop where
  settings : w'.settings = w.settings
  slots : w'.slots = w.slots
  generation : w'.generation = w.generation
  engine : w'.engine = w.engine
  writer : w'.writer = w.writer
  memoryPermits : w'.memoryPermits = w.memoryPermits
  counter : w'.counter = w.counter
  poisoned : w'.poisoned = w.poisoned
  clears : w'.clears = w.clears
  fresh : w.fresh ≤ w'.fresh

theorem Frame.refl (w : World) : Frame w w := ⟨rfl, rfl, rfl, rfl, rfl, rfl, rfl, rfl, rfl, le_rfl⟩

theorem Frame.trans {u v w : World} (h : Frame u v) (h' : Frame v w) : Frame u w where
  settings := h'.settings.trans h.settings
  slots := h'.slots.trans h.slots
  generation := h'.generation.trans h.generation
  engine := h'.engine.trans h.engine
  writer := h'.writer.trans h.writer
  memoryPermits := h'.memoryPermits.trans h.memoryPermits
  counter := h'.counter.trans h.counter
  poisoned := h'.poisoned.trans h.poisoned
  clears := h'.clears.trans h.clears
  fresh := h.fresh.trans h'.fresh

namespace World

variable (w : World)

/-! ## The parts of a handler -/

theorem frame_kill (p : ℕ) : Frame w (w.kill p) := by
  unfold kill
  split
  · exact ⟨rfl, rfl, rfl, rfl, rfl, rfl, rfl, rfl, rfl, le_rfl⟩
  · exact .refl w

theorem frame_killEngine : Frame w w.killEngine := by
  unfold killEngine
  split
  · exact w.frame_kill _
  · exact .refl w

theorem frame_monitor (watch : Watch) (target : ℕ) : Frame w (w.monitor watch target) :=
  ⟨rfl, rfl, rfl, rfl, rfl, rfl, rfl, rfl, rfl, Nat.le_succ _⟩

theorem frame_demonitor (p : Monitor → Bool) : Frame w (w.demonitor p) :=
  ⟨rfl, rfl, rfl, rfl, rfl, rfl, rfl, rfl, rfl, le_rfl⟩

theorem frame_publish (status : Status) : Frame w (w.publish status) :=
  ⟨rfl, rfl, rfl, rfl, rfl, rfl, rfl, rfl, rfl, le_rfl⟩

theorem frame_dispatch (limit : ℕ) : Frame w (w.dispatch limit) :=
  ⟨rfl, rfl, rfl, rfl, rfl, rfl, rfl, rfl, rfl, le_rfl⟩

theorem frame_finishDelivery (slot : Slot) (token : ℕ) : Frame w (w.finishDelivery slot token) :=
  ⟨rfl, rfl, rfl, rfl, rfl, rfl, rfl, rfl, rfl, le_rfl⟩

theorem frame_mergeSnapshot (mode : Mode) : Frame w (w.mergeSnapshot mode) := by
  unfold mergeSnapshot
  split
  · split
    · exact .refl w
    · exact w.frame_publish _
  · exact .refl w

theorem frame_finishOperation : Frame w w.finishOperation := by
  unfold finishOperation
  split
  · exact .refl w
  · exact ⟨rfl, rfl, rfl, rfl, rfl, rfl, rfl, rfl, rfl, le_rfl⟩

theorem frame_revoke : Frame w w.revoke := by
  have hgated : Frame w (if (w.publish (.transition .failed)).operation.any (·.phase = .draining)
      then (w.publish (.transition .failed)).finishOperation
      else w.publish (.transition .failed)) := by
    split
    · exact (w.frame_publish _).trans (frame_finishOperation _)
    · exact w.frame_publish _
  have hkilled := hgated.trans (frame_killEngine _)
  exact ⟨hkilled.settings, hkilled.slots, hkilled.generation, hkilled.engine, hkilled.writer,
    hkilled.memoryPermits, hkilled.counter, hkilled.poisoned, hkilled.clears, hkilled.fresh⟩

theorem frame_closeGeneration (o : Operation) : Frame w (w.closeGeneration o) := by
  have hkilled := frame_killEngine ({ w with
    row := some ⟨o.token, o.owner, .closing, o.deadline⟩, operation := some o }.publish
      (.transition .stopping))
  exact ⟨hkilled.settings, hkilled.slots, hkilled.generation, hkilled.engine, hkilled.writer,
    hkilled.memoryPermits, hkilled.counter, hkilled.poisoned, hkilled.clears,
    hkilled.fresh.trans (Nat.le_add_right _ 2)⟩

theorem frame_beginClosing : Frame w w.beginClosing := by
  unfold beginClosing
  split
  · exact .refl w
  · split
    · exact .refl w
    · exact w.frame_closeGeneration _

theorem frame_expireOperation : Frame w w.expireOperation := by
  unfold expireOperation
  split
  · exact .refl w
  · split
    · split
      · exact (w.frame_publish _).trans (frame_finishOperation _)
      · exact w.frame_finishOperation
    · exact .refl w

/-! ## The handlers -/

/-- A notice about the running operation comes from the attached engine and names its token. -/
theorem current_eq_some {engine token : ℕ} {p : Operation → Bool} {o : Operation}
    (h : w.current engine token p = some o) :
    w.engine = some engine ∧ w.operation = some o ∧ o.token = token ∧ p o = true := by
  unfold current at h
  split at h
  case isTrue hengine =>
    obtain ⟨ho, hp⟩ := Option.filter_eq_some_iff.mp h
    rw [Bool.and_eq_true, decide_eq_true_eq] at hp
    exact ⟨hengine, ho, hp.1, hp.2⟩
  case isFalse => cases h

variable (oracle : Oracle)

theorem frame_handleOperation (owner generation token : ℕ) (kind : Kind) (force : Bool)
    (deadline : ℕ) (valid : Bool) :
    Frame w (w.handleOperation oracle owner generation token kind force deadline valid) := by
  unfold handleOperation
  split
  · split
    · dsimp only
      split
      · refine Frame.trans ?_ (frame_beginClosing _)
        exact ⟨rfl, rfl, rfl, rfl, rfl, rfl, rfl, rfl, rfl, le_rfl⟩
      · split
        · exact ⟨rfl, rfl, rfl, rfl, rfl, rfl, rfl, rfl, rfl, le_rfl⟩
        · exact ⟨rfl, rfl, rfl, rfl, rfl, rfl, rfl, rfl, rfl, le_rfl⟩
    · exact ⟨rfl, rfl, rfl, rfl, rfl, rfl, rfl, rfl, rfl, le_rfl⟩
  · exact .refl w

theorem frame_handleAutomatic (policy token generation deadline : ℕ) :
    Frame w (w.handleAutomatic oracle policy token generation deadline) := by
  unfold handleAutomatic
  split
  · refine Frame.trans ?_ (frame_handleOperation _ oracle policy generation token .compact false
      deadline true)
    exact ⟨rfl, rfl, rfl, rfl, rfl, rfl, rfl, rfl, rfl, le_rfl⟩
  · exact .refl w

theorem frame_ended (status : Status) : Frame w (w.publish status).finishOperation :=
  (w.frame_publish status).trans (frame_finishOperation _)

theorem frame_handleDrained (engine token : ℕ) : Frame w (w.handleDrained oracle engine token) := by
  unfold handleDrained
  split
  · exact .refl w
  · split
    · exact w.frame_expireOperation
    · split
      · exact ⟨rfl, rfl, rfl, rfl, rfl, rfl, rfl, rfl, rfl, le_rfl⟩
      · exact w.frame_closeGeneration _
      · exact .refl w

theorem frame_handleComponentDown : Frame w w.handleComponentDown := by
  unfold handleComponentDown
  split
  · exact w.frame_finishOperation.trans (frame_revoke _)
  · split
    · exact .refl w
    · exact w.frame_revoke

theorem frame_handleWriterEvent (writer : ℕ) (event : WriterEvent) :
    Frame w (w.handleWriterEvent writer event) := by
  unfold handleWriterEvent
  split
  · split
    · exact .refl w
    · split
      · exact .refl w
      · exact w.frame_revoke
  · exact .refl w

theorem frame_handleFenceRevoked (generation : ℕ) :
    Frame w (w.handleFenceRevoked generation) := by
  unfold handleFenceRevoked
  split
  · split
    · exact .refl w
    · exact w.frame_revoke
  · exact .refl w

end World

/-- Messages of administration: neither a slot, nor an attachment, nor the end of a generation. -/
def Message.administrative : Message → Bool
  | .reserve .. | .submit .. | .cancelReservation .. | .completed .. | .reap | .down _
  | .attachRuntime _ | .attachEngine _ | .attachWriter .. | .attachFence ..
  | .operationStarting .. | .operationResult .. => false
  | _ => true

theorem World.frame_handle (w : World) (oracle : Oracle) {m : Message}
    (hm : m.administrative = true) : Frame w (w.handle oracle m) := by
  cases m with
  | reserve | submit | cancelReservation | completed | reap | down | attachRuntime | attachEngine
  | attachWriter | attachFence | operationStarting | operationResult => cases hm
  | executionSnapshot engine mode =>
    simp only [handle]
    split
    · exact w.frame_mergeSnapshot mode
    · exact .refl w
  | commandYielded engine slot token =>
    simp only [handle]
    split
    · exact (w.frame_finishDelivery slot token).trans (frame_dispatch _ _)
    · exact .refl w
  | ready engine =>
    simp only [handle, handleReady]
    split
    · exact w.frame_publish _
    · exact .refl w
  | reconciliation engine =>
    simp only [handle]
    split
    · exact w.frame_publish _
    · exact .refl w
  | operation owner generation token kind force deadline valid =>
    exact w.frame_handleOperation oracle owner generation token kind force deadline valid
  | automaticCompaction policy token generation deadline =>
    exact w.frame_handleAutomatic oracle policy token generation deadline
  | cancelOperationClaim owner token =>
    simp only [handle]
    split
    · exact ⟨rfl, rfl, rfl, rfl, rfl, rfl, rfl, rfl, rfl, le_rfl⟩
    · exact .refl w
  | operationDeadline token =>
    simp only [handle]
    split
    · exact w.frame_expireOperation
    · exact .refl w
  | sourceChanged engine token =>
    simp only [handle, handleSourceChanged]
    split
    · exact .refl w
    · exact w.frame_ended _
  | policyDraining engine token =>
    simp only [handle, handlePolicyDraining]
    split
    · exact .refl w
    · exact w.frame_ended _
  | onlineUnsupported engine token =>
    simp only [handle, handleUnsupported]
    split
    · exact .refl w
    · exact ⟨rfl, rfl, rfl, rfl, rfl, rfl, rfl, rfl, rfl, le_rfl⟩
  | switchRequested engine token =>
    simp only [handle, handleSwitchRequested]
    split
    · exact .refl w
    · exact ⟨rfl, rfl, rfl, rfl, rfl, rfl, rfl, rfl, rfl, le_rfl⟩
  | onlineResult engine token ok =>
    simp only [handle, handleOnlineResult]
    split
    · exact .refl w
    · exact w.frame_ended _
  | operationDrained engine token => exact w.frame_handleDrained oracle engine token
  | compactionResult engine token ok =>
    simp only [handle, handleCompactionResult]
    split
    · exact .refl w
    · exact w.frame_beginClosing
  | writerEvent writer event => exact w.frame_handleWriterEvent writer event
  | fenceRevoked generation => exact w.frame_handleFenceRevoked generation

end Tay.Lifecycle
