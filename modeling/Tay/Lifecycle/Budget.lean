import Tay.Lifecycle.Admission

/-!
# The memory budget across generations

The counter of the budget is made once, with the guardian, and outlives every engine. Two parties
charge it: the engine, for the state it retains, and the guardian, for payloads on their way in. Each
gives back what it took as long as it lives and its bookkeeping is kept.

An engine that ends takes its accounts with it and leaves its charge behind; a clear forgets which
permit belongs to which client slot. Neither is undone by the next generation, which charges its own
state anew. Away from these two events the counter is exact.
-/

open Foundation

namespace Tay.Lifecycle

/-- What the counter holds for an engine: the bytes it accounts for, and what a commit under way has
taken beyond them. -/
def Accounts.charge (a : Accounts) : ℤ := a.bytes + a.held

namespace World

variable (w : World)

/-- The charge of the live engine; nothing when there is none. -/
def charge : ℤ := (w.accounts.map Accounts.charge).getD 0

/-- The token of a permit still owns its slot. -/
def holds (key : Slot × ℕ) : Bool := (w.slots key.1).any (·.token = key.2)

/-- The bytes of the outstanding permits. -/
def outstanding : ℤ := (w.memoryPermits.map fun p ↦ if w.holds p.1 then (p.2 : ℤ) else 0).sum

/-! ## Where a charge is lost -/

/-- Whether an operation ends badly. -/
def fails (oracle : Oracle) (o : Operation) (result : DriverResult) : Bool :=
  match o.kind, result with
  | .stop, .ok | .stop, .ownershipUnconfirmed => false
  | .restart, .ok | .compact, .ok => !w.restarted oracle
  | _, _ => true

def closing? : Bool := w.operation.any (·.phase = .closing)

/-- Whether handling a message ends the engine: the branches that revoke or close the generation. -/
def ending (oracle : Oracle) : Message → Bool
  | .operation owner generation token kind force deadline valid =>
    w.row = some ⟨token, owner, .claimed, deadline⟩ &&
      w.startable oracle generation kind force deadline valid &&
      (force || [StateName.stopped, .failed].contains w.status.state)
  | .operationDrained engine token =>
    (w.current engine token (·.phase = .draining)).any fun o ↦
      oracle.now < o.deadline && o.kind ≠ .compact
  | .compactionResult engine token _ => (w.current engine token (inCompaction [.compacting])).isSome
  | .operationResult driver token result =>
    w.operation.any fun o ↦ o.driver = some driver && o.token = token && w.fails oracle o result
  | .writerEvent writer event =>
    w.writer = some writer && !w.closing? && !(event = .poisoned && w.compacting?)
  | .fenceRevoked generation => w.generation = generation && !w.closing?
  | .down ref =>
    (w.monitors.find? (·.ref == ref)).any fun m ↦
      match m.watch with
      | .owner .. => false
      | .driver => true
      | _ => !w.closing?
  | _ => false

/-- Whether handling a message clears the generation. -/
def clearing : Message → Bool
  | .operationStarting driver token =>
    w.operation.any fun o ↦ o.token = token && o.driver = some driver && o.phase = .closing &&
      (transitions o.kind o.phase .starting).isSome
  | .operationResult driver token result =>
    w.operation.any fun o ↦ o.driver = some driver && o.token = token && o.kind = .stop &&
      result ≠ .error
  | _ => false

/-- No permit of a client slot holds anything. -/
def unpermitted : Bool :=
  w.memoryPermits.all fun p ↦
    match p.1.1 with
    | .client _ => !w.holds p.1 || p.2 = 0
    | .schedule _ => true

/-- No charged engine ends in the step, and no permit of a client slot is forgotten. -/
def lossless : Label → Bool
  | .kill p => w.accounts.all fun a ↦ a.engine ≠ p || a.charge = 0
  | .handle oracle =>
    w.mailbox.head?.all fun m ↦
      (!w.ending oracle m || w.accounts.all fun a ↦ w.engine ≠ some a.engine || a.charge = 0) &&
        (!w.clearing m || w.unpermitted)
  | _ => true

/-! ## The engine's accounts -/

variable {w} in
theorem accounts_killEngine_congr {w' : World} (hengine : w'.engine = w.engine)
    (hdead : w'.dead = w.dead) (haccounts : w'.accounts = w.accounts) :
    w'.killEngine.accounts = w.killEngine.accounts := by
  unfold killEngine
  rw [hengine]
  split
  · unfold kill alive
    rw [hdead]
    split
    · simp only [haccounts]
    · exact haccounts
  · exact haccounts

theorem accounts_finishOperation : w.finishOperation.accounts = w.accounts := by
  unfold finishOperation
  split <;> rfl

theorem accounts_revoke : w.revoke.accounts = w.killEngine.accounts := by
  unfold revoke
  dsimp only
  split
  · refine accounts_killEngine_congr ?_ ?_ ?_ <;>
      (unfold finishOperation; split <;> rfl)
  · exact accounts_killEngine_congr rfl rfl rfl

theorem accounts_closeGeneration (o : Operation) :
    (w.closeGeneration o).accounts = w.killEngine.accounts :=
  accounts_killEngine_congr rfl rfl rfl

theorem accounts_mergeSnapshot (mode : Mode) : (w.mergeSnapshot mode).accounts = w.accounts := by
  unfold mergeSnapshot
  repeat' split
  all_goals rfl

theorem accounts_release (slot : Slot) (token : ℕ) :
    (w.release slot token).accounts = w.accounts := by
  unfold release
  dsimp only
  split <;> split <;> rfl

theorem accounts_expireOperation : w.expireOperation.accounts = w.accounts := by
  unfold expireOperation
  split
  · rfl
  · split
    · split <;> exact accounts_finishOperation _
    · rfl

theorem accounts_beginClosing {o : Operation} (ho : w.operation = some o) {phase : Phase}
    (hphase : transitions o.kind o.phase .close = some phase) :
    w.beginClosing.accounts = w.killEngine.accounts := by
  unfold beginClosing
  simp only [ho, hphase]
  exact w.accounts_closeGeneration _

variable (oracle : Oracle)

theorem accounts_operation (owner generation token : ℕ) (kind : Kind) (force : Bool)
    (deadline : ℕ) (valid : Bool) :
    (w.handleOperation oracle owner generation token kind force deadline valid).accounts =
      if w.ending oracle (.operation owner generation token kind force deadline valid)
      then w.killEngine.accounts else w.accounts := by
  unfold handleOperation
  simp only [ending, Bool.and_eq_true, decide_eq_true_eq]
  by_cases hrow : w.row = some ⟨token, owner, .claimed, deadline⟩
  · by_cases hstart : w.startable oracle generation kind force deadline valid = true
    · by_cases hclose : (force || [StateName.stopped, .failed].contains w.status.state) = true
      · -- Every kind can be closed from its first phase.
        have hphase : transitions kind kind.firstPhase .close = some .closing := by
          cases kind <;> rfl
        simp only [hrow, hstart, hclose, and_self, if_true]
        exact (accounts_beginClosing _ rfl hphase).trans (accounts_killEngine_congr rfl rfl rfl)
      · simp only [hrow, hstart, hclose, and_false, if_true, if_false, Bool.false_eq_true]
        cases kind <;> rfl
    · simp only [hrow, hstart, if_true, and_false, false_and, if_false, Bool.false_eq_true]
  · simp only [hrow, if_false, false_and]

theorem accounts_automatic (policy token generation deadline : ℕ) :
    (w.handleAutomatic oracle policy token generation deadline).accounts = w.accounts := by
  unfold handleAutomatic
  split
  case isFalse => rfl
  case isTrue h =>
    -- The policy starts a compaction only in a generation that is ready.
    have hready : w.status.state = .ready := by
      have := h.2.1
      simp only [policyReady, Bool.and_eq_true, decide_eq_true_eq] at this
      exact this.1.1.1.2
    rw [accounts_operation]
    simp [ending, hready]

theorem accounts_drained (engine token : ℕ) :
    (w.handleDrained oracle engine token).accounts =
      if w.ending oracle (.operationDrained engine token) then w.killEngine.accounts
      else w.accounts := by
  unfold handleDrained
  simp only [ending]
  split
  case h_1 hcurrent => simp only [hcurrent, Option.any_none, Bool.false_eq_true, if_false]
  case h_2 o hcurrent =>
    -- Only a drain in progress is concluded.
    have hphase : o.phase = .draining := by simpa using (w.current_eq_some hcurrent).2.2.2
    by_cases hdue : o.deadline ≤ oracle.now
    · have hnot : ¬ oracle.now < o.deadline := by omega
      simp only [if_pos hdue, hcurrent, Option.any_some, hnot, decide_false, Bool.false_and,
        Bool.false_eq_true, if_false]
      exact w.accounts_expireOperation
    · have hdue' : oracle.now < o.deadline := by omega
      rw [if_neg hdue, hphase]
      cases hkind : o.kind <;>
        simp only [hcurrent, hkind, hdue', transitions, Option.any_some, decide_true, Bool.true_and,
          ne_eq, reduceCtorEq, not_false_eq_true, not_true_eq_false, decide_false, if_true, if_false,
          Bool.false_eq_true]
      all_goals exact w.accounts_closeGeneration _

theorem accounts_result (driver token : ℕ) (result : DriverResult) :
    (w.handleResult oracle driver token result).accounts =
      if w.ending oracle (.operationResult driver token result) then w.killEngine.accounts
      else w.accounts := by
  unfold handleResult
  simp only [ending]
  split
  case h_1 hnone => simp only [hnone, Option.any_none, Bool.false_eq_true, if_false]
  case h_2 o ho =>
    by_cases howned : o.driver = some driver ∧ o.token = token
    · rw [if_pos howned, accounts_finishOperation]
      simp only [ho, Option.any_some, howned, decide_true, Bool.true_and]
      cases hkind : o.kind <;> cases result <;> by_cases hup : w.restarted oracle = true <;>
        simp only [fails, hkind, hup, if_true, if_false, Bool.not_true, Bool.not_false,
          Bool.false_eq_true, accounts_revoke] <;> rfl
    · have hnot : (decide (o.driver = some driver) && decide (o.token = token)) = false := by
        simpa using howned
      simp only [if_neg howned, ho, Option.any_some, hnot, Bool.false_and, Bool.false_eq_true,
        if_false]

theorem accounts_componentDown :
    w.handleComponentDown.accounts = if w.closing? then w.accounts else w.killEngine.accounts := by
  unfold handleComponentDown closing?
  by_cases hcompacting : w.operation.any (·.phase = .compacting) = true
  · have hclosing : w.operation.any (·.phase = .closing) = false := by
      obtain ⟨o, ho, hphase⟩ := (Option.any_eq_true _ _).mp hcompacting
      rw [decide_eq_true_eq] at hphase
      simp [ho, hphase]
    rw [if_pos hcompacting, hclosing, accounts_revoke]
    refine accounts_killEngine_congr ?_ ?_ ?_ <;> (unfold finishOperation; split <;> rfl)
  · rw [if_neg hcompacting]
    split
    · rfl
    · exact w.accounts_revoke

theorem accounts_down (ref : ℕ) :
    (w.handleDown ref).accounts =
      if w.ending oracle (.down ref) then w.killEngine.accounts else w.accounts := by
  unfold handleDown
  simp only [ending]
  split
  case h_1 hnone => simp only [hnone, Option.any_none, Bool.false_eq_true, if_false]
  case h_2 m hm =>
    simp only [hm, Option.any_some]
    cases hwatch : m.watch with
    | engine | writer | runtime | fence =>
      simp only [accounts_componentDown]
      cases w.closing? <;> rfl
    | driver => exact (accounts_finishOperation _).trans w.accounts_revoke
    | owner slot token =>
      simp only [handleOwnerDown, Bool.false_eq_true, if_false]
      repeat' split
      all_goals first
        | rfl
        | exact w.accounts_release slot token

/-- **The engine's accounts survive a message unless it ends the engine.** -/
theorem handle_accounts (m : Message) :
    (w.handle oracle m).accounts =
      if w.ending oracle m then w.killEngine.accounts else w.accounts := by
  cases m with
  | reserve =>
    simp only [handle, handleReserve, ending, Bool.false_eq_true, if_false]
    repeat' split
    all_goals rfl
  | submit | cancelReservation =>
    simp only [handle, handleSubmit, handleCancel, ending, Bool.false_eq_true, if_false]
    repeat' split
    all_goals first
      | rfl
      | exact w.accounts_release _ _
  | completed engine slot token owner mode =>
    simp only [handle, handleCompleted, ending, Bool.false_eq_true, if_false]
    repeat' split
    all_goals first
      | rfl
      | exact (accounts_release _ slot token).trans (w.accounts_mergeSnapshot mode)
  | executionSnapshot engine mode =>
    simp only [handle, ending, Bool.false_eq_true, if_false]
    split
    · exact w.accounts_mergeSnapshot mode
    · rfl
  | operation owner generation token kind force deadline valid =>
    exact w.accounts_operation oracle owner generation token kind force deadline valid
  | automaticCompaction policy token generation deadline =>
    exact w.accounts_automatic oracle policy token generation deadline
  | operationDrained engine token => exact w.accounts_drained oracle engine token
  | operationResult driver token result => exact w.accounts_result oracle driver token result
  | down ref => exact w.accounts_down oracle ref
  | compactionResult engine token ok =>
    simp only [handle, handleCompactionResult, ending]
    split
    case h_1 hnone => simp only [hnone, Option.isSome_none, Bool.false_eq_true, if_false]
    case h_2 o hcurrent =>
      obtain ⟨-, ho, -, hphase⟩ := w.current_eq_some hcurrent
      have hcompacting : o.kind = .compact ∧ o.phase = .compacting := by
        simpa [inCompaction] using hphase
      simp only [hcurrent, Option.isSome_some, if_true]
      exact w.accounts_beginClosing ho (by rw [hcompacting.1, hcompacting.2]; rfl)
  | writerEvent writer event =>
    simp only [handle, handleWriterEvent, ending, closing?]
    by_cases hwriter : w.writer = some writer <;>
      by_cases hclosing : w.operation.any (·.phase = .closing) = true <;>
      by_cases hcompacting : event = .poisoned ∧ w.compacting? = true <;>
      simp [hwriter, hclosing, hcompacting, accounts_revoke]
  | fenceRevoked generation =>
    simp only [handle, handleFenceRevoked, ending, closing?]
    by_cases hgeneration : w.generation = generation <;>
      by_cases hclosing : w.operation.any (·.phase = .closing) = true <;>
      simp [hgeneration, hclosing, accounts_revoke]
  | sourceChanged | policyDraining | onlineResult =>
    simp only [handle, handleSourceChanged, handlePolicyDraining, handleOnlineResult, ending,
      Bool.false_eq_true, if_false]
    split
    · rfl
    · exact accounts_finishOperation _
  | operationDeadline token =>
    simp only [handle, ending, Bool.false_eq_true, if_false]
    split
    · exact w.accounts_expireOperation
    · rfl
  | _ =>
    simp only [handle, handleReady, handleStarting, handleUnsupported, handleSwitchRequested, ending,
      Bool.false_eq_true, if_false]
    repeat' split
    all_goals rfl

/-! ## The permits -/

/-- What handling one message can do to the permits and the counter: nothing; granting a reservation;
passing a command on; releasing; withdrawing claims, which have no permit yet; clearing. -/
inductive Charges (w : World) (m : Message) (w' : World) : Prop
  | kept : w'.slots = w.slots → w'.memoryPermits = w.memoryPermits → w'.counter = w.counter →
      Charges w m w'
  | granted {slot : Slot} {h : Hold} (bytes : ℕ) : w.slots slot = some h → h.stage = .claimed →
      Memory.reserve w.settings.maxStateBytes w.counter bytes = some w'.counter →
      w'.slots = Function.update w.slots slot (some { h with stage := .reserved }) →
      w'.memoryPermits = ((slot, h.token), bytes) :: w.memoryPermits → Charges w m w'
  | submitted {slot : Slot} {h : Hold} : w.slots slot = some h →
      w'.slots = Function.update w.slots slot (some { h with stage := .submitted }) →
      w'.memoryPermits = w.memoryPermits → w'.counter = w.counter → Charges w m w'
  | released {slot : Slot} {h : Hold} : w.slots slot = some h →
      w'.slots = Function.update w.slots slot none →
      w'.memoryPermits = dropPermit w.memoryPermits (slot, h.token) →
      w'.counter = Memory.release w.counter
        ((lookupPermit w.memoryPermits (slot, h.token)).getD 0) → Charges w m w'
  | withdrawn : (∀ slot, w'.slots slot = w.slots slot ∨
        (w'.slots slot = none ∧ ∃ h, w.slots slot = some h ∧ h.stage = .claimed)) →
      w'.memoryPermits = w.memoryPermits → w'.counter = w.counter → Charges w m w'
  | cleared : w.clearing m = true → w'.slots = w.clearGeneration.slots →
      w'.memoryPermits = w.memoryPermits → w'.counter = w.counter → Charges w m w'

theorem Charges.of_frame {m : Message} {w' : World} (h : Frame w w') : Charges w m w' :=
  .kept h.slots h.memoryPermits h.counter

theorem release_permits (slot : Slot) (token : ℕ) :
    (w.release slot token).memoryPermits = dropPermit w.memoryPermits (slot, token) ∧
      (w.release slot token).counter = Memory.release w.counter
        ((lookupPermit w.memoryPermits (slot, token)).getD 0) := by
  unfold release
  dsimp only
  split <;> split <;> exact ⟨rfl, rfl⟩

theorem charges_release {m : Message} {slot : Slot} {h : Hold} (hslot : w.slots slot = some h) :
    Charges w m (w.release slot h.token) :=
  .released hslot (w.slots_release hslot) (w.release_permits slot h.token).1
    (w.release_permits slot h.token).2

/-- A claim that is withdrawn. -/
theorem charges_withdrawn {m : Message} {slot : Slot} {h : Hold} (hslot : w.slots slot = some h)
    (hstage : h.stage = .claimed) : Charges w m (w.setSlot slot none) := by
  refine .withdrawn (fun slot' ↦ ?_) rfl rfl
  by_cases heq : slot' = slot
  · subst heq
    exact .inr ⟨Function.update_self .., h, hslot, hstage⟩
  · exact .inl (Function.update_of_ne heq ..)

theorem charges_reserve {m : Message} (owner generation : ℕ) (slot : Slot) (token bytes : ℕ) :
    Charges w m (w.handleReserve oracle owner generation slot token bytes) := by
  unfold handleReserve
  split
  case h_1 => exact .of_frame w (.refl w)
  case h_2 h hslot =>
    split
    case isFalse => exact .of_frame w (.refl w)
    case isTrue hmatch =>
      obtain ⟨rfl, -, hstage⟩ := hmatch
      split
      · split
        case h_1 => exact w.charges_withdrawn hslot hstage
        case h_2 counter hcounter => exact .granted bytes hslot hstage hcounter rfl rfl
      · exact w.charges_withdrawn hslot hstage

theorem charges_completed {m : Message} (engine : ℕ) (slot : Slot) (token owner : ℕ) (mode : Mode) :
    Charges w m (w.handleCompleted engine slot token owner mode) := by
  unfold handleCompleted
  split
  case isFalse => exact .of_frame w (.refl w)
  case isTrue =>
    split
    case h_1 => exact .of_frame w (.refl w)
    case h_2 h hslot =>
      split
      case isFalse => exact .of_frame w (.refl w)
      case isTrue hmatch =>
        obtain ⟨rfl, -, -⟩ := hmatch
        have hframe : Frame w ((w.mergeSnapshot mode).finishDelivery slot h.token) :=
          (w.frame_mergeSnapshot mode).trans (frame_finishDelivery _ slot h.token)
        have hpermits := release_permits ((w.mergeSnapshot mode).finishDelivery slot h.token) slot
          h.token
        rw [hframe.memoryPermits, hframe.counter] at hpermits
        refine .released hslot ?_ hpermits.1 hpermits.2
        exact (slots_release _ ((congrFun hframe.slots slot).trans hslot)).trans (by rw [hframe.slots])

theorem charges_down {m : Message} (ref : ℕ) : Charges w m (w.handleDown ref) := by
  unfold handleDown
  split
  case h_1 => exact .of_frame w (.refl w)
  case h_2 =>
    split
    case h_1 | h_2 | h_3 | h_4 => exact .of_frame w w.frame_handleComponentDown
    case h_5 => exact .of_frame w (w.frame_revoke.trans (frame_finishOperation _))
    case h_6 slot token _ =>
      unfold handleOwnerDown
      split
      case h_1 => exact .of_frame w (.refl w)
      case h_2 h hslot =>
        split
        case isFalse => exact .of_frame w (.refl w)
        case isTrue hmatch =>
          obtain ⟨rfl, -⟩ := hmatch
          exact w.charges_release hslot

theorem charges_starting (driver token : ℕ) :
    Charges w (.operationStarting driver token) (w.handleStarting driver token) := by
  unfold handleStarting
  split
  case h_1 => exact .of_frame w (.refl w)
  case h_2 o ho =>
    split
    case isFalse => exact .of_frame w (.refl w)
    case isTrue hmatch =>
      split
      case h_1 => exact .of_frame w (.refl w)
      case h_2 phase hphase =>
        obtain ⟨rfl, hdriver, hclosing⟩ := hmatch
        rw [hclosing] at hphase
        exact .cleared (by simp [clearing, ho, hdriver, hclosing, hphase]) rfl rfl rfl

theorem charges_result (driver token : ℕ) (result : DriverResult) :
    Charges w (.operationResult driver token result) (w.handleResult oracle driver token result) := by
  have hfailed : Charges w (.operationResult driver token result) w.revoke.finishOperation :=
    .of_frame w (w.frame_revoke.trans (frame_finishOperation _))
  unfold handleResult
  split
  case h_1 => exact .of_frame w (.refl w)
  case h_2 o ho =>
    split
    case isFalse => exact .of_frame w (.refl w)
    case isTrue hmatch =>
      have hstopped : o.kind = .stop → result ≠ .error →
          Charges w (.operationResult driver token result) w.stopped.finishOperation := by
        intro hkind hresult
        have hframe := w.stopped.frame_finishOperation
        refine .cleared ?_ hframe.slots hframe.memoryPermits hframe.counter
        simp [clearing, ho, hmatch, hkind, hresult]
      split
      case h_1 hkind => exact hstopped hkind (by simp)
      case h_2 hkind => exact hstopped hkind (by simp)
      case h_3 | h_4 =>
        split
        · exact .of_frame w w.frame_finishOperation
        · exact hfailed
      case h_5 => exact hfailed

theorem handle_charges (m : Message) : Charges w m (w.handle oracle m) := by
  by_cases hm : m.administrative = true
  · exact .of_frame w (w.frame_handle oracle hm)
  · cases m with
    | reserve owner generation slot token bytes =>
      exact w.charges_reserve oracle owner generation slot token bytes
    | submit owner generation slot token =>
      simp only [handle, handleSubmit]
      split
      case h_1 => exact .of_frame w (.refl w)
      case h_2 h hslot =>
        split
        case isFalse => exact .of_frame w (.refl w)
        case isTrue hmatch =>
          obtain ⟨rfl, -, -⟩ := hmatch
          split
          · exact .submitted hslot rfl rfl rfl
          · exact w.charges_release hslot
    | cancelReservation owner slot token =>
      simp only [handle, handleCancel]
      split
      case h_1 => exact .of_frame w (.refl w)
      case h_2 h hslot =>
        split
        case isFalse => exact .of_frame w (.refl w)
        case isTrue hmatch =>
          obtain ⟨rfl, -, -⟩ := hmatch
          exact w.charges_release hslot
    | completed engine slot token owner mode => exact w.charges_completed engine slot token owner mode
    | attachRuntime | attachEngine | attachWriter | attachFence =>
      simp only [handle]
      split <;> exact .kept rfl rfl rfl
    | operationStarting driver token => exact w.charges_starting driver token
    | operationResult driver token result => exact w.charges_result oracle driver token result
    | down ref => exact w.charges_down ref
    | reap =>
      refine .withdrawn (fun slot ↦ ?_) rfl rfl
      simp only [handle, handleReap]
      cases hslot : w.slots slot with
      | none => exact .inl rfl
      | some h =>
        by_cases hexpired : w.expired oracle h = true
        · refine .inr ⟨by simp [hexpired], h, rfl, ?_⟩
          simp only [expired, Bool.and_eq_true, decide_eq_true_eq] at hexpired
          exact hexpired.1
        · exact .inl (by simp [hexpired])
    | _ => exact absurd rfl hm

/-! ## The books -/

/-- Dropping a permit takes its share out of any sum over the permits. -/
theorem sum_dropPermit (key : Slot × ℕ) (f : (Slot × ℕ) × ℕ → ℤ) (permits : List ((Slot × ℕ) × ℕ)) :
    ((dropPermit permits key).map f).sum + ((permits.find? fun p ↦ p.1 = key).map f).getD 0 =
      (permits.map f).sum := by
  induction permits with
  | nil => simp [dropPermit]
  | cons p permits ih =>
    unfold dropPermit at ih ⊢
    by_cases hp : p.1 = key
    · rw [List.eraseP_cons_of_pos (by simpa using hp), List.find?_cons_of_pos (by simpa using hp)]
      simp only [Option.map_some, Option.getD_some, List.map_cons, List.sum_cons]
      omega
    · rw [List.eraseP_cons_of_neg (by simpa using hp), List.find?_cons_of_neg (by simpa using hp)]
      simp only [List.map_cons, List.sum_cons]
      omega

theorem key_ne_of_mem_dropPermit {key : Slot × ℕ} {permits : List ((Slot × ℕ) × ℕ)}
    (hnodup : (permits.map (·.1)).Nodup) {p : (Slot × ℕ) × ℕ} (hp : p ∈ dropPermit permits key) :
    p.1 ≠ key := by
  induction permits with
  | nil => simp [dropPermit] at hp
  | cons q permits ih =>
    rw [List.map_cons, List.nodup_cons] at hnodup
    unfold dropPermit at hp ih
    by_cases hq : q.1 = key
    · rw [List.eraseP_cons_of_pos (by simpa using hq)] at hp
      rintro hkey
      exact hnodup.1 (List.mem_map.mpr ⟨p, hp, hkey.trans hq.symm⟩)
    · rw [List.eraseP_cons_of_neg (by simpa using hq), List.mem_cons] at hp
      rcases hp with rfl | hp
      · exact hq
      · exact ih hnodup.2 hp

/-- The counter is exact, and each permit has its own key, which no claim has yet. -/
structure Exact (w : World) : Prop where
  nodup : (w.memoryPermits.map (·.1)).Nodup
  unclaimed : ∀ {slot : Slot} {h : Hold}, w.slots slot = some h → h.stage = .claimed →
    (slot, h.token) ∉ w.memoryPermits.map (·.1)
  known : ∀ p ∈ w.memoryPermits, p.1.2 < w.fresh
  balanced : w.counter = w.charge + w.outstanding
  bounded : w.counter ≤ w.settings.maxStateBytes

variable {w} {w' : World}

/-- A step that keeps the permits and what they hold keeps what is outstanding. -/
theorem outstanding_congr (hpermits : w'.memoryPermits = w.memoryPermits)
    (hholds : ∀ p ∈ w.memoryPermits, w'.holds p.1 = w.holds p.1 ∨ p.2 = 0) :
    w'.outstanding = w.outstanding := by
  unfold outstanding
  rw [hpermits]
  refine congrArg List.sum (List.map_congr_left fun p hp ↦ ?_)
  rcases hholds p hp with h | h
  · rw [h]
  · simp [h]

theorem holds_update {slot : Slot} {h h' : Hold} (hslot : w.slots slot = some h)
    (hslots : w'.slots = Function.update w.slots slot (some h')) (htoken : h'.token = h.token)
    (key : Slot × ℕ) : w'.holds key = w.holds key := by
  unfold holds
  rw [hslots, Function.update_apply]
  split
  case isTrue heq => rw [heq, hslot, Option.any_some, Option.any_some, htoken]
  case isFalse => rfl

/-- A release gives back what the permit holds. -/
theorem outstanding_release (hnodup : (w.memoryPermits.map (·.1)).Nodup) {slot : Slot} {h : Hold}
    (hslot : w.slots slot = some h) (hslots : w'.slots = Function.update w.slots slot none)
    (hpermits : w'.memoryPermits = dropPermit w.memoryPermits (slot, h.token)) :
    w'.outstanding + ((lookupPermit w.memoryPermits (slot, h.token)).getD 0 : ℕ) = w.outstanding := by
  have hholds : ∀ p ∈ dropPermit w.memoryPermits (slot, h.token), w'.holds p.1 = w.holds p.1 := by
    intro p hp
    have hkey := key_ne_of_mem_dropPermit hnodup hp
    unfold holds
    rw [hslots, Function.update_apply]
    split
    case isTrue heq =>
      -- Another token of the same slot: it does not own the slot before either.
      have htoken : h.token ≠ p.1.2 := fun htoken ↦ hkey (Prod.ext heq htoken.symm)
      simp [heq, hslot, htoken]
    case isFalse => rfl
  have hfound : ((w.memoryPermits.find? fun p ↦ p.1 = (slot, h.token)).map fun p ↦
      if w.holds p.1 then (p.2 : ℤ) else 0).getD 0 =
      ((lookupPermit w.memoryPermits (slot, h.token)).getD 0 : ℕ) := by
    unfold lookupPermit
    cases hfind : w.memoryPermits.find? fun p ↦ p.1 = (slot, h.token) with
    | none => rfl
    | some p =>
      have hkey : p.1 = (slot, h.token) := by simpa using List.find?_some hfind
      have howned : w.holds p.1 = true := by simp [holds, hkey, hslot]
      simp [howned]
  have hsum := sum_dropPermit (slot, h.token) (fun p ↦ if w.holds p.1 then (p.2 : ℤ) else 0)
    w.memoryPermits
  rw [hfound] at hsum
  unfold outstanding
  rw [hpermits, ← hsum]
  congr 2
  exact List.map_congr_left fun p hp ↦ by rw [hholds p hp]

/-- A message keeps the books, if it does not lose the charge of the engine or clear a generation in
which client slots still hold permits. -/
theorem Exact.handled (h : Exact w) (hexclusive : Exclusive w) {m : Message} (hm : Charges w m w')
    (hcarried : Carried w w') (hcharge : w'.charge = w.charge)
    (hclear : w.clearing m = true → w.unpermitted = true) : Exact w' := by
  have hlimit : (w'.settings.maxStateBytes : ℤ) = w.settings.maxStateBytes := by
    rw [hcarried.settings]
  have hknown : w'.memoryPermits = w.memoryPermits → ∀ p ∈ w'.memoryPermits, p.1.2 < w'.fresh := by
    intro hpermits p hp
    exact (h.known p (hpermits ▸ hp)).trans_le hcarried.fresh
  cases hm with
  | kept hslots hpermits hcounter =>
    have hout : w'.outstanding = w.outstanding :=
      outstanding_congr hpermits fun p _ ↦ .inl (by rw [holds, holds, hslots])
    refine ⟨hpermits ▸ h.nodup, ?_, hknown hpermits, ?_, ?_⟩
    · intro slot k hk hstage
      rw [hpermits]
      exact h.unclaimed (hslots ▸ hk) hstage
    · rw [hcounter, hcharge, hout, h.balanced]
    · rw [hcounter, hlimit]
      exact h.bounded
  | @granted slot k bytes hslot hstage hcounter hslots hpermits =>
    obtain ⟨hadded, hbound⟩ := Memory.reserve_eq_some hcounter
    have hfresh : (slot, k.token) ∉ w.memoryPermits.map (·.1) := h.unclaimed hslot hstage
    have hholds := holds_update hslot hslots rfl
    have hout : w'.outstanding = bytes + w.outstanding := by
      have howned : w.holds (slot, k.token) = true := by simp [holds, hslot]
      unfold outstanding
      rw [hpermits, List.map_cons, List.sum_cons]
      simp only [hholds, howned, if_true]
    refine ⟨?_, ?_, ?_, ?_, ?_⟩
    · rw [hpermits, List.map_cons, List.nodup_cons]
      exact ⟨hfresh, h.nodup⟩
    · intro slot' k' hk' hstage'
      rw [hslots, Function.update_apply] at hk'
      split at hk'
      case isTrue =>
        cases hk'
        cases hstage'
      case isFalse hne =>
        rw [hpermits, List.map_cons, List.mem_cons]
        rintro (heq | hmem)
        · exact hne (congrArg Prod.fst heq)
        · exact h.unclaimed hk' hstage' hmem
    · intro p hp
      rw [hpermits, List.mem_cons] at hp
      rcases hp with rfl | hp
      · exact (hexclusive.issued hslot).trans_le hcarried.fresh
      · exact (h.known p hp).trans_le hcarried.fresh
    · have := h.balanced
      rw [hcharge, hout]
      omega
    · rw [hlimit]
      exact hbound
  | @submitted slot k hslot hslots hpermits hcounter =>
    have hout : w'.outstanding = w.outstanding :=
      outstanding_congr hpermits fun p _ ↦
        .inl (holds_update hslot hslots rfl p.1)
    refine ⟨hpermits ▸ h.nodup, ?_, hknown hpermits, ?_, ?_⟩
    · intro slot' k' hk' hstage'
      rw [hslots, Function.update_apply] at hk'
      split at hk'
      case isTrue =>
        cases hk'
        cases hstage'
      case isFalse =>
        rw [hpermits]
        exact h.unclaimed hk' hstage'
    · rw [hcounter, hcharge, hout, h.balanced]
    · rw [hcounter, hlimit]
      exact h.bounded
  | @released slot k hslot hslots hpermits hcounter =>
    have hsub : w'.memoryPermits.Sublist w.memoryPermits := hpermits ▸ List.eraseP_sublist
    have hout := outstanding_release h.nodup hslot hslots hpermits
    refine ⟨h.nodup.sublist (hsub.map _), ?_, ?_, ?_, ?_⟩
    · intro slot' k' hk' hstage' hmem
      rw [hslots, Function.update_apply] at hk'
      split at hk'
      case isTrue => cases hk'
      case isFalse => exact h.unclaimed hk' hstage' ((hsub.map _).subset hmem)
    · intro p hp
      exact (h.known p (hsub.subset hp)).trans_le hcarried.fresh
    · have := h.balanced
      rw [hcounter, hcharge, Memory.release]
      omega
    · have := h.bounded
      rw [hcounter, Memory.release, hlimit]
      omega
  | withdrawn hslots hpermits hcounter =>
    have hout : w'.outstanding = w.outstanding := by
      refine outstanding_congr hpermits fun p hp ↦ .inl ?_
      unfold holds
      rcases hslots p.1.1 with heq | ⟨hnone, k, hk, hstage⟩
      · rw [heq]
      · -- The claim that is withdrawn has no permit.
        have htoken : k.token ≠ p.1.2 := by
          rintro htoken
          refine h.unclaimed hk hstage (List.mem_map.mpr ⟨p, hp, ?_⟩)
          exact Prod.ext rfl htoken.symm
        simp [hnone, hk, htoken]
    refine ⟨hpermits ▸ h.nodup, ?_, hknown hpermits, ?_, ?_⟩
    · intro slot k hk hstage
      rw [hpermits]
      rcases hslots slot with heq | ⟨hnone, -⟩
      · exact h.unclaimed (heq ▸ hk) hstage
      · rw [hnone] at hk
        cases hk
    · rw [hcounter, hcharge, hout, h.balanced]
    · rw [hcounter, hlimit]
      exact h.bounded
  | cleared hclearing hslots hpermits hcounter =>
    have hrow : ∀ slot k, w'.slots slot = some k → w.slots slot = some k := by
      intro slot k hk
      rw [hslots] at hk
      cases slot with
      | schedule index => exact hk
      | client index =>
        change (if 1 ≤ index ∧ index ≤ w.settings.clientSlots then none
          else w.slots (.client index)) = some k at hk
        split at hk
        · cases hk
        · exact hk
    have hout : w'.outstanding = w.outstanding := by
      refine outstanding_congr hpermits fun p hp ↦ ?_
      have hp' := List.all_eq_true.mp (hclear hclearing) p hp
      unfold holds at hp' ⊢
      rw [hslots]
      cases hslot : p.1.1 with
      | schedule index => exact .inl rfl
      | client index =>
        simp only [hslot, Bool.or_eq_true, Bool.not_eq_true', decide_eq_true_eq] at hp'
        refine hp'.imp_left fun hfree ↦ ?_
        change (if 1 ≤ index ∧ index ≤ w.settings.clientSlots then none
          else w.slots (.client index)).any (fun x ↦ decide (x.token = p.1.2)) = _
        split
        · rw [hfree]
          rfl
        · rfl
    refine ⟨hpermits ▸ h.nodup, ?_, hknown hpermits, ?_, ?_⟩
    · intro slot k hk hstage
      rw [hpermits]
      exact h.unclaimed (hrow slot k hk) hstage
    · rw [hcounter, hcharge, hout, h.balanced]
    · rw [hcounter, hlimit]
      exact h.bounded

/-! ## Every run -/

/-- An engine without a charge may end. -/
theorem charge_kill {w : World} {p : ℕ}
    (h : w.accounts.all (fun a ↦ a.engine ≠ p || a.charge = 0) = true) :
    (w.kill p).charge = w.charge := by
  unfold kill charge
  split
  case isFalse => rfl
  case isTrue =>
    cases haccounts : w.accounts with
    | none => rfl
    | some a =>
      by_cases hp : a.engine = p
      · have hzero : a.charge = 0 := by simpa [haccounts, hp] using h
        simp [Option.filter, hp, hzero]
      · simp [Option.filter, hp]

theorem charge_killEngine {w : World}
    (h : w.accounts.all (fun a ↦ w.engine ≠ some a.engine || a.charge = 0) = true) :
    w.killEngine.charge = w.charge := by
  unfold killEngine
  split
  case h_2 => rfl
  case h_1 p hp =>
    refine charge_kill ?_
    simpa only [hp, ne_eq, Option.some.injEq, eq_comm] using h

theorem charge_handle {w : World} {oracle : Oracle} {m : Message}
    (h : w.ending oracle m = true →
      w.accounts.all (fun a ↦ w.engine ≠ some a.engine || a.charge = 0) = true) :
    (w.handle oracle m).charge = w.charge := by
  unfold charge
  rw [handle_accounts]
  split
  case isTrue hending => exact charge_killEngine (h hending)
  case isFalse => rfl

/-- A claim has no permit yet. -/
theorem Exact.claimed (h : Exact w) {slot : Slot} (hfree : w.slots slot = none)
    (owner expires : ℕ) :
    Exact { w.setSlot slot (some ⟨w.fresh, owner, .claimed, expires⟩) with
      fresh := w.fresh + 1 } := by
  have hholds : ∀ p ∈ w.memoryPermits,
      (Function.update w.slots slot (some ⟨w.fresh, owner, .claimed, expires⟩) p.1.1).any
        (fun k ↦ decide (k.token = p.1.2)) = w.holds p.1 := by
    intro p hp
    have hne : w.fresh ≠ p.1.2 := (h.known p hp).ne'
    rw [Function.update_apply]
    split
    case isTrue heq => simp [holds, heq, hfree, hne]
    case isFalse => rfl
  refine ⟨h.nodup, ?_, fun p hp ↦ Nat.lt_succ_of_lt (h.known p hp), ?_, h.bounded⟩
  · intro slot' k hk hstage hmem
    replace hk : Function.update w.slots slot (some ⟨w.fresh, owner, .claimed, expires⟩) slot' =
      some k := hk
    rw [Function.update_apply] at hk
    split at hk
    case isTrue =>
      -- The new token is not one of the permits'.
      cases hk
      obtain ⟨p, hp, hkey⟩ := List.mem_map.mp hmem
      have := h.known p hp
      rw [hkey] at this
      exact lt_irrefl _ this
    case isFalse => exact h.unclaimed hk hstage hmem
  · have hout : outstanding { w.setSlot slot (some ⟨w.fresh, owner, .claimed, expires⟩) with
        fresh := w.fresh + 1 } = w.outstanding :=
      outstanding_congr rfl fun p hp ↦ .inl (hholds p hp)
    rw [hout]
    exact h.balanced

theorem Exact.stepped (h : Exact w) (hexclusive : Exclusive w) {l : Label}
    (hok : w.lossless l = true) (hl : w.step l = some w') : Exact w' := by
  -- A step that moves neither the permits nor the table, and the counter with the charge.
  have hmoved : w'.slots = w.slots → Carried w w' → w'.memoryPermits = w.memoryPermits →
      w'.counter - w'.charge = w.counter - w.charge → w'.counter ≤ w.settings.maxStateBytes →
      Exact w' := by
    intro hslots hcarried hpermits hcounter hbound
    have hout : w'.outstanding = w.outstanding :=
      outstanding_congr hpermits fun p _ ↦ .inl (by rw [holds, holds, hslots])
    refine ⟨hpermits ▸ h.nodup, ?_, ?_, ?_, hcarried.settings ▸ hbound⟩
    · intro slot k hk hstage
      rw [hpermits]
      exact h.unclaimed (hslots ▸ hk) hstage
    · intro p hp
      exact (h.known p (hpermits ▸ hp)).trans_le hcarried.fresh
    · have := h.balanced
      rw [hout]
      omega
  cases l with
  | claim slot owner expires =>
    simp only [step] at hl
    split at hl
    case isFalse => cases hl
    case isTrue hfree =>
      cases hl
      exact h.claimed hfree.2 owner expires
  | claimOperation | send | poison =>
    simp only [step] at hl
    split at hl
    case isFalse => cases hl
    case isTrue =>
      cases hl
      exact hmoved rfl ⟨rfl, by first | exact le_rfl | exact Nat.le_succ _⟩ rfl rfl h.bounded
  | startEngine | startWriter =>
    cases hl
    exact hmoved rfl ⟨rfl, Nat.le_succ _⟩ rfl rfl h.bounded
  | kill p =>
    cases hl
    have hframe := w.frame_kill p
    refine hmoved hframe.slots (.of_frame hframe) hframe.memoryPermits ?_ ?_
    · rw [hframe.counter, charge_kill hok]
    · rw [hframe.counter]
      exact h.bounded
  | recover bytes =>
    simp only [step] at hl
    split at hl
    case h_2 => cases hl
    case h_1 engine _ hnone =>
      split at hl
      case isFalse => cases hl
      case isTrue =>
        obtain ⟨counter, hcounter, rfl⟩ := Option.map_eq_some_iff.mp hl
        obtain ⟨hadded, hbound⟩ := Memory.reserve_eq_some hcounter
        refine hmoved rfl ⟨rfl, le_rfl⟩ rfl ?_ hbound
        simp only [charge, hnone, Accounts.charge, Option.map_some, Option.map_none, Option.getD_some,
          Option.getD_none]
        omega
  | act action =>
    obtain ⟨a, ha, hperform⟩ := Option.bind_eq_some_iff.mp hl
    obtain ⟨hslots, hcarried⟩ := perform_frames hperform
    cases action with
    | reserve bytes =>
      obtain ⟨counter, hcounter, rfl⟩ := Option.map_eq_some_iff.mp hperform
      obtain ⟨hadded, hbound⟩ := Memory.reserve_eq_some hcounter
      refine hmoved rfl hcarried rfl ?_ hbound
      simp only [charge, ha, Accounts.charge, Option.map_some, Option.getD_some]
      omega
    | release bytes =>
      cases hperform
      have := h.bounded
      refine hmoved rfl hcarried rfl ?_ ?_
      · simp only [charge, ha, Accounts.charge, Memory.release, Option.map_some, Option.getD_some]
        omega
      · simp only [Memory.release]
        omega
    | account delta =>
      cases hperform
      refine hmoved rfl hcarried rfl ?_ h.bounded
      simp only [charge, ha, Accounts.charge, Option.map_some, Option.getD_some]
      omega
  | handle oracle =>
    obtain ⟨m, rest, hmailbox, rfl⟩ := step_handle hl
    simp only [lossless, hmailbox, List.head?_cons, Option.all_some, Bool.and_eq_true,
      Bool.or_eq_true, Bool.not_eq_true'] at hok
    have hrest : Exact { w with mailbox := rest } := ⟨h.nodup, h.unclaimed, h.known, h.balanced,
      h.bounded⟩
    have hexclusive' : Exclusive { w with mailbox := rest } :=
      hexclusive.continued (fun slot k hk ↦ ⟨k, hk, rfl⟩) ⟨rfl, le_rfl⟩
    refine hrest.handled hexclusive' (handle_charges _ oracle m) (handle_carried _ oracle m) ?_ ?_
    · refine charge_handle fun hending ↦ ?_
      exact hok.1.resolve_left fun hfalse ↦ Bool.false_ne_true (hfalse.symm.trans hending)
    · intro hclearing
      exact hok.2.resolve_left fun hfalse ↦ Bool.false_ne_true (hfalse.symm.trans hclearing)

end World

namespace Sample

/-- An engine with a state of its own, a payload on its way to it, and a commit. -/
def served : List Label :=
  attached ++ [.recover 100, .claim (.client 1) 100 50, .send (.reserve 100 0 (.client 1) 5 10),
    .handle clock, .send (.submit 100 0 (.client 1) 5), .handle clock, .act (.reserve 40),
    .act (.account 30), .act (.release 10)]

/-- The engine is lost, and the generation restarted until its successor is ready. -/
def crashed : List Label :=
  attached ++ [.recover 100, .kill 1, .handle clock, .claimOperation 101 1000,
    .send (.operation 101 0 5 .restart false 1000 true), .handle clock,
    .send (.operationStarting 6 5), .handle clock, .startEngine, .handle clock, .startWriter 9,
    .handle clock, .recover 100, .send (.ready 9), .handle clock,
    .send (.operationResult 6 5 .ok), .handle clock]

end Sample

namespace World

open Sample

variable {w w' : World}

/-! ## A commit in the middle of a run -/

theorem accounts_kill (w : World) (p : ℕ) :
    (w.kill p).accounts = w.accounts ∨ (w.kill p).accounts = none := by
  unfold kill
  split
  case isFalse => exact .inl rfl
  case isTrue =>
    cases w.accounts with
    | none => exact .inl rfl
    | some a =>
      by_cases hp : a.engine = p
      · exact .inr (by simp [Option.filter, hp])
      · exact .inl (by simp [Option.filter, hp])

/-- Apart from its own actions, an engine's accounts only ever end. -/
theorem step_accounts {l : Label} (hl : w.step l = some w') :
    (∃ action, l = .act action) ∨ (∃ bytes, l = .recover bytes) ∨ w'.accounts = w.accounts ∨
      w'.accounts = none := by
  cases l with
  | act action => exact .inl ⟨action, rfl⟩
  | recover bytes => exact .inr (.inl ⟨bytes, rfl⟩)
  | claim | claimOperation | send | poison =>
    simp only [step] at hl
    split at hl
    case isFalse => cases hl
    case isTrue =>
      cases hl
      exact .inr (.inr (.inl rfl))
  | startEngine | startWriter =>
    cases hl
    exact .inr (.inr (.inl rfl))
  | kill p =>
    cases hl
    exact .inr (.inr (w.accounts_kill p))
  | handle oracle =>
    obtain ⟨m, rest, -, rfl⟩ := step_handle hl
    rw [handle_accounts]
    split
    case isFalse => exact .inr (.inr (.inl rfl))
    case isTrue =>
      unfold killEngine
      split
      · exact .inr (.inr (accounts_kill _ _))
      · exact .inr (.inr (.inl rfl))

theorem perform_held {a : Accounts} {action : Memory.Action} (h : w.perform a action = some w') :
    ∃ a', w'.accounts = some a' ∧ a'.held = a.held + action.held := by
  cases action with
  | reserve bytes =>
    obtain ⟨counter, -, rfl⟩ := Option.map_eq_some_iff.mp h
    exact ⟨_, rfl, rfl⟩
  | release | account =>
    cases h
    exact ⟨_, rfl, rfl⟩

end World

/-- What the engine does to the budget in a step. -/
def Label.action? : Label → Option Memory.Action
  | .act action => some action
  | _ => none

/-- An engine recovers only once, before it commits anything. -/
def Label.recovers : Label → Bool
  | .recover _ => true
  | _ => false

namespace World

theorem accounts_none_run {labels : List Label} (hlabels : ∀ l ∈ labels, l.recovers = false) :
    ∀ {w w' : World}, w.accounts = none → machine.run w labels = some w' → w'.accounts = none := by
  induction labels with
  | nil =>
    intro w w' hnone hrun
    cases hrun
    exact hnone
  | cons l labels ih =>
    intro w w' hnone hrun
    rw [Machine.run_cons, Option.bind_eq_some_iff] at hrun
    obtain ⟨v, hl, hrest⟩ := hrun
    refine ih (fun l hmem ↦ hlabels l (List.mem_cons_of_mem _ hmem)) ?_ hrest
    obtain ⟨action, rfl⟩ | ⟨bytes, rfl⟩ | hsame | hgone := step_accounts hl
    · simp [machine, step, hnone] at hl
    · cases hlabels _ List.mem_cons_self
    · exact hsame.trans hnone
    · exact hgone

/-- What the engine holds moves by its own actions, whatever happens in between. -/
theorem held_run {labels : List Label} (hlabels : ∀ l ∈ labels, l.recovers = false) :
    ∀ {w w' : World} {a a' : Accounts}, w.accounts = some a → machine.run w labels = some w' →
      w'.accounts = some a' → a'.held = a.held + Memory.held (labels.filterMap Label.action?) := by
  induction labels with
  | nil =>
    intro w w' a a' ha hrun ha'
    cases hrun
    cases ha.symm.trans ha'
    simp
  | cons l labels ih =>
    intro w w' a a' ha hrun ha'
    rw [Machine.run_cons, Option.bind_eq_some_iff] at hrun
    obtain ⟨v, hl, hrest⟩ := hrun
    have htail : ∀ l ∈ labels, l.recovers = false :=
      fun l hmem ↦ hlabels l (List.mem_cons_of_mem _ hmem)
    by_cases haction : ∃ action, l = .act action
    · obtain ⟨action, rfl⟩ := haction
      obtain ⟨b, hb, hperform⟩ := Option.bind_eq_some_iff.mp hl
      cases hb.symm.trans ha
      obtain ⟨c, hc, hheld⟩ := perform_held hperform
      have := ih htail hc hrest ha'
      simp only [List.filterMap_cons, Label.action?, Memory.held, List.map_cons, List.sum_cons] at this ⊢
      omega
    · have hnone : Label.action? l = none := by
        cases l with
        | act action => exact absurd ⟨action, rfl⟩ haction
        | _ => rfl
      rw [List.filterMap_cons_none hnone]
      obtain hact | ⟨bytes, rfl⟩ | hsame | hgone := step_accounts hl
      · exact absurd hact haction
      · cases hlabels _ List.mem_cons_self
      · exact ih htail (hsame.trans ha) hrest ha'
      · -- An engine that has ended does not come back.
        rw [accounts_none_run htail hgone hrest] at ha'
        cases ha'

/-- **A settlement ends holding what it began with.** Whatever other processes do meanwhile, an engine
that is still there at the end of a settlement holds nothing of it beyond its accounts. -/
theorem settlement_held {labels : List Label} (hlabels : ∀ l ∈ labels, l.recovers = false)
    {flow : Memory.Flow} (hsettles : Memory.Settles (labels.filterMap Label.action?) flow)
    {w w' : World} {a a' : Accounts} (ha : w.accounts = some a)
    (hrun : machine.run w labels = some w') (ha' : w'.accounts = some a') : a'.held = a.held := by
  have hheld := held_run hlabels ha hrun ha'
  have hbalanced := hsettles.balanced
  omega

end World

end Tay.Lifecycle
