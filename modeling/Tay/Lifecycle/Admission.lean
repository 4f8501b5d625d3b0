import Tay.Lifecycle.Frame

/-!
# Admission slots

A slot passes from its caller to the guardian and back: claimed by a compare-and-swap, reserved,
submitted, and freed by whichever message ends the request. Every message that concerns a slot
carries the token it was claimed with, and the guardian acts on a slot only if the token is still the
one in the table.

What one message can do to the table is said once, in `handle_touches`. That no token owns two slots
and that a stale token moves nothing follow in every run. Clearing a generation is the one step that
frees slots without a token, and it frees those of the first kind only: a schedule slot is left to
whatever message is still on its way, and for submitted work there is none.
-/

open Foundation

namespace Tay.Lifecycle

namespace World

variable (w : World)

/-! ## One message -/

/-- A release frees the slot if the token still owns it. -/
theorem slots_release {slot : Slot} {h : Hold} (hslot : w.slots slot = some h) :
    (w.release slot h.token).slots = Function.update w.slots slot none := by
  have howned : (w.slots slot).any (·.token = h.token) = true := by simp [hslot]
  unfold release
  dsimp only
  rw [if_pos howned]
  split <;> rfl

theorem clears_release (slot : Slot) (token : ℕ) :
    (w.release slot token).clears = w.clears := by
  unfold release
  dsimp only
  split <;> split <;> rfl

/-- The slot and the token a message is about. -/
def carries : Message → Option (Slot × ℕ)
  | .reserve _ _ slot token _ | .submit _ _ slot token | .cancelReservation _ slot token
  | .completed _ slot token _ _ => some (slot, token)
  | .down ref =>
    (w.monitors.find? (·.ref == ref)).bind fun m ↦
      match m.watch with
      | .owner slot token => some (slot, token)
      | _ => none
  | _ => none

/-- Whether a message may free the row it carries the token of. -/
def frees (h : Hold) : Message → Bool
  | .reserve .. => h.stage = .claimed
  | .submit owner .. => h.owner = owner && h.stage = .reserved
  | .cancelReservation owner .. => h.owner = owner && h.stage ≠ .submitted
  | .completed engine .. => w.engine = some engine && h.stage = .submitted
  | .down _ => h.stage = .reserved
  | _ => false

/-- After a clear: the table without its client slots, nothing attached, no admission, and every
message that was there but for the reports of lost processes. -/
structure Clears (w w' : World) : Prop where
  slots : w'.slots = w.clearGeneration.slots
  clears : w'.clears = w.clears + 1
  engine : w'.engine = none
  watched : ∀ m ∈ w'.monitors, m.watch = .driver
  closed : w'.status.state = .recovering ∨ w'.status.state = .stopped
  mailbox : ∀ m : Message, (∀ ref, m ≠ .down ref) → (m ∈ w'.mailbox ↔ m ∈ w.mailbox)

/-- What handling one message can do to the table: nothing; something to the slot it is about, if the
token is the one in the table; freeing what has expired; clearing. -/
inductive Touches (w : World) (oracle : Oracle) (m : Message) (w' : World) : Prop
  | nothing : w'.slots = w.slots → w'.clears = w.clears → Touches w oracle m w'
  | freed {slot : Slot} {h : Hold} : w.carries m = some (slot, h.token) → w.frees h m = true →
      w.slots slot = some h → w'.slots = Function.update w.slots slot none →
      w'.clears = w.clears → Touches w oracle m w'
  | moved {slot : Slot} {h : Hold} (stage : Stage) : w.carries m = some (slot, h.token) →
      w.slots slot = some h → w'.slots = Function.update w.slots slot (some { h with stage }) →
      w'.clears = w.clears → Touches w oracle m w'
  | reaped : m = .reap → w'.slots = (fun slot ↦ (w.slots slot).filter fun h ↦ !w.expired oracle h) →
      w'.clears = w.clears → Touches w oracle m w'
  | cleared : w.carries m = none → Clears w w' → Touches w oracle m w'

/-- Forgetting monitors removes nothing else from the mailbox. -/
theorem mem_demonitor {p : Monitor → Bool} {m : Message} (hm : ∀ ref, m ≠ .down ref) :
    m ∈ (w.demonitor p).mailbox ↔ m ∈ w.mailbox := by
  cases m with
  | down ref => exact absurd rfl (hm ref)
  | _ => simp only [demonitor, List.mem_filter, and_true]

theorem watched_clearGeneration : ∀ m ∈ w.clearGeneration.monitors, m.watch = .driver := by
  intro m hm
  simpa using (List.mem_filter.mp hm).2

theorem clears_reset : Clears w w.resetGeneration :=
  ⟨rfl, rfl, rfl, w.watched_clearGeneration, .inl rfl, fun _ hm ↦ w.mem_demonitor hm⟩

theorem clears_stopped : Clears w w.stopped :=
  ⟨rfl, rfl, rfl, w.watched_clearGeneration, .inr rfl, fun _ hm ↦ w.mem_demonitor hm⟩

theorem Clears.finished {w w' : World} (h : Clears w w') : Clears w w'.finishOperation := by
  have hframe := w'.frame_finishOperation
  refine ⟨hframe.slots.trans h.slots, hframe.clears.trans h.clears, hframe.engine.trans h.engine,
    fun m hm ↦ ?_, ?_, fun m hm ↦ ?_⟩
  · unfold finishOperation at hm
    split at hm
    · exact h.watched m hm
    · exact h.watched m (List.mem_filter.mp hm).1
  · unfold finishOperation
    split <;> exact h.closed
  · rw [← h.mailbox m hm]
    unfold finishOperation
    split
    · exact Iff.rfl
    · exact w'.mem_demonitor hm

variable (oracle : Oracle)

theorem Touches.of_frame {m : Message} {w' : World} (h : Frame w w') : Touches w oracle m w' :=
  .nothing h.slots h.clears

theorem touches_release {m : Message} {slot : Slot} {h : Hold}
    (hm : w.carries m = some (slot, h.token)) (hfrees : w.frees h m = true)
    (hslot : w.slots slot = some h) : Touches w oracle m (w.release slot h.token) :=
  .freed hm hfrees hslot (w.slots_release hslot) (w.clears_release _ _)

theorem touches_reserve (owner generation : ℕ) (slot : Slot) (token bytes : ℕ) :
    Touches w oracle (.reserve owner generation slot token bytes)
      (w.handleReserve oracle owner generation slot token bytes) := by
  unfold handleReserve
  split
  case h_1 => exact .of_frame w oracle (.refl w)
  case h_2 h hslot =>
    split
    case isFalse => exact .of_frame w oracle (.refl w)
    case isTrue hmatch =>
      obtain ⟨rfl, -, hstage⟩ := hmatch
      split
      · split
        · exact .freed rfl (by simp [frees, hstage]) hslot rfl rfl
        · exact .moved .reserved rfl hslot rfl rfl
      · exact .freed rfl (by simp [frees, hstage]) hslot rfl rfl

theorem touches_submit (owner generation : ℕ) (slot : Slot) (token : ℕ) :
    Touches w oracle (.submit owner generation slot token)
      (w.handleSubmit owner generation slot token) := by
  unfold handleSubmit
  split
  case h_1 => exact .of_frame w oracle (.refl w)
  case h_2 h hslot =>
    split
    case isFalse => exact .of_frame w oracle (.refl w)
    case isTrue hmatch =>
      obtain ⟨rfl, rfl, hstage⟩ := hmatch
      split
      · exact .moved .submitted rfl hslot rfl rfl
      · exact w.touches_release oracle rfl (by simp [frees, hstage]) hslot

theorem touches_cancel (owner : ℕ) (slot : Slot) (token : ℕ) :
    Touches w oracle (.cancelReservation owner slot token) (w.handleCancel owner slot token) := by
  unfold handleCancel
  split
  case h_1 => exact .of_frame w oracle (.refl w)
  case h_2 h hslot =>
    split
    case isFalse => exact .of_frame w oracle (.refl w)
    case isTrue hmatch =>
      obtain ⟨rfl, rfl, hstage⟩ := hmatch
      exact w.touches_release oracle rfl (by simp [frees, hstage]) hslot

theorem touches_completed (engine : ℕ) (slot : Slot) (token owner : ℕ) (mode : Mode) :
    Touches w oracle (.completed engine slot token owner mode)
      (w.handleCompleted engine slot token owner mode) := by
  unfold handleCompleted
  split
  case isFalse => exact .of_frame w oracle (.refl w)
  case isTrue hengine =>
    split
    case h_1 => exact .of_frame w oracle (.refl w)
    case h_2 h hslot =>
      split
      case isFalse => exact .of_frame w oracle (.refl w)
      case isTrue hmatch =>
        obtain ⟨rfl, -, hstage⟩ := hmatch
        have hframe : Frame w ((w.mergeSnapshot mode).finishDelivery slot h.token) :=
          (w.frame_mergeSnapshot mode).trans (frame_finishDelivery _ slot h.token)
        have hslot' := (congrFun hframe.slots slot).trans hslot
        refine .freed rfl (by simp [frees, hengine, hstage]) hslot ?_ ?_
        · exact (slots_release _ hslot').trans (by rw [hframe.slots])
        · exact (clears_release _ _ _).trans hframe.clears

theorem touches_ownerDown {ref : ℕ} {slot : Slot} {token : ℕ}
    (hm : w.carries (.down ref) = some (slot, token)) :
    Touches w oracle (.down ref) (w.handleOwnerDown slot token) := by
  unfold handleOwnerDown
  split
  case h_1 => exact .of_frame w oracle (.refl w)
  case h_2 h hslot =>
    split
    case isFalse => exact .of_frame w oracle (.refl w)
    case isTrue hmatch =>
      obtain ⟨rfl, hstage⟩ := hmatch
      exact w.touches_release oracle hm (by simp [frees, hstage]) hslot

theorem touches_down (ref : ℕ) : Touches w oracle (.down ref) (w.handleDown ref) := by
  unfold handleDown
  split
  case h_1 => exact .of_frame w oracle (.refl w)
  case h_2 m hm =>
    split
    case h_1 | h_2 | h_3 | h_4 => exact .of_frame w oracle w.frame_handleComponentDown
    case h_5 => exact .of_frame w oracle (w.frame_revoke.trans (frame_finishOperation _))
    case h_6 slot token hwatch =>
      refine w.touches_ownerDown oracle ?_
      simp only [carries, hm, Option.bind_some, hwatch]

theorem touches_starting (driver token : ℕ) :
    Touches w oracle (.operationStarting driver token) (w.handleStarting driver token) := by
  unfold handleStarting
  split
  · exact .of_frame w oracle (.refl w)
  · split
    · split
      · exact .of_frame w oracle (.refl w)
      · have hreset := w.clears_reset
        exact .cleared rfl ⟨hreset.slots, hreset.clears, rfl, hreset.watched, hreset.closed,
          hreset.mailbox⟩
    · exact .of_frame w oracle (.refl w)

theorem touches_result (driver token : ℕ) (result : DriverResult) :
    Touches w oracle (.operationResult driver token result)
      (w.handleResult oracle driver token result) := by
  unfold handleResult
  split
  · exact .of_frame w oracle (.refl w)
  · split
    · split
      · exact .cleared rfl w.clears_stopped.finished
      · exact .cleared rfl w.clears_stopped.finished
      · split
        · exact .of_frame w oracle w.frame_finishOperation
        · exact .of_frame w oracle (w.frame_revoke.trans (frame_finishOperation _))
      · split
        · exact .of_frame w oracle w.frame_finishOperation
        · exact .of_frame w oracle (w.frame_revoke.trans (frame_finishOperation _))
      · exact .of_frame w oracle (w.frame_revoke.trans (frame_finishOperation _))
    · exact .of_frame w oracle (.refl w)

theorem handle_touches (m : Message) : Touches w oracle m (w.handle oracle m) := by
  by_cases hm : m.administrative = true
  · exact .of_frame w oracle (w.frame_handle oracle hm)
  · cases m with
    | reserve owner generation slot token bytes =>
      exact w.touches_reserve oracle owner generation slot token bytes
    | submit owner generation slot token => exact w.touches_submit oracle owner generation slot token
    | cancelReservation owner slot token => exact w.touches_cancel oracle owner slot token
    | completed engine slot token owner mode =>
      exact w.touches_completed oracle engine slot token owner mode
    | attachRuntime | attachEngine | attachWriter | attachFence =>
      simp only [handle]
      split <;> exact .nothing rfl rfl
    | operationStarting driver token => exact w.touches_starting oracle driver token
    | operationResult driver token result => exact w.touches_result oracle driver token result
    | down ref => exact w.touches_down oracle ref
    | reap => exact .reaped rfl rfl rfl
    | _ => exact absurd rfl hm

/-! ## Tokens -/

/-- No token owns two slots, every token has been given out, and only slots of the table are taken. -/
structure Exclusive (w : World) : Prop where
  unique : ∀ {a b : Slot} {h k : Hold}, w.slots a = some h → w.slots b = some k →
    h.token = k.token → a = b
  issued : ∀ {a : Slot} {h : Hold}, w.slots a = some h → h.token < w.fresh
  tabled : ∀ {a : Slot} {h : Hold}, w.slots a = some h → w.inTable a = true

/-- Every row of `w'` continues a row of `w`, under the same token. -/
def Continues (w w' : World) : Prop :=
  ∀ slot h', w'.slots slot = some h' → ∃ h, w.slots slot = some h ∧ h.token = h'.token

variable {w} {w' : World}

/-- The configuration stays, and numbers are only ever taken. -/
structure Carried (w w' : World) : Prop where
  settings : w'.settings = w.settings
  fresh : w.fresh ≤ w'.fresh

theorem Carried.of_frame (h : Frame w w') : Carried w w' := ⟨h.settings, h.fresh⟩

theorem inTable_congr (h : w'.settings = w.settings) (slot : Slot) :
    w'.inTable slot = w.inTable slot := by
  cases slot <;> simp only [inTable, h]

theorem Exclusive.continued (h : Exclusive w) (hslots : Continues w w') (hcarried : Carried w w') :
    Exclusive w' := by
  constructor
  · intro a b x y ha hb htoken
    obtain ⟨x', ha', hx⟩ := hslots a x ha
    obtain ⟨y', hb', hy⟩ := hslots b y hb
    exact h.unique ha' hb' (hx.trans (htoken.trans hy.symm))
  · intro a x ha
    obtain ⟨x', ha', hx⟩ := hslots a x ha
    exact hx ▸ (h.issued ha').trans_le hcarried.fresh
  · intro a x ha
    obtain ⟨x', ha', -⟩ := hslots a x ha
    exact (inTable_congr hcarried.settings a).trans (h.tabled ha')

theorem Touches.continues {oracle : Oracle} {m : Message} (h : Touches w oracle m w') :
    Continues w w' := by
  intro slot h' hslot'
  cases h with
  | nothing hslots => exact ⟨h', hslots ▸ hslot', rfl⟩
  | @freed a k _ _ ha hslots =>
    rw [hslots, Function.update_apply] at hslot'
    split at hslot'
    case isTrue => cases hslot'
    case isFalse => exact ⟨h', hslot', rfl⟩
  | @moved a k stage _ ha hslots =>
    rw [hslots, Function.update_apply] at hslot'
    split at hslot'
    case isTrue heq =>
      cases hslot'
      exact ⟨k, heq ▸ ha, rfl⟩
    case isFalse => exact ⟨h', hslot', rfl⟩
  | reaped _ hslots =>
    rw [hslots] at hslot'
    exact ⟨h', (Option.filter_eq_some_iff.mp hslot').1, rfl⟩
  | cleared _ hclears =>
    rw [hclears.slots] at hslot'
    cases slot with
    | schedule index => exact ⟨h', hslot', rfl⟩
    | client index =>
      change (if 1 ≤ index ∧ index ≤ w.settings.clientSlots then none
        else w.slots (.client index)) = some h' at hslot'
      by_cases hindex : 1 ≤ index ∧ index ≤ w.settings.clientSlots
      · rw [if_pos hindex] at hslot'
        cases hslot'
      · rw [if_neg hindex] at hslot'
        exact ⟨h', hslot', rfl⟩

/-- A message with a token that is not the one in the table leaves the row as it is. -/
theorem Touches.stale {oracle : Oracle} {m : Message} (h : Touches w oracle m w') {slot : Slot}
    {token : ℕ} {k : Hold} (hm : w.carries m = some (slot, token)) (hslot : w.slots slot = some k)
    (htoken : k.token ≠ token) : w'.slots slot = some k := by
  cases h with
  | nothing hslots => rw [hslots, hslot]
  | @freed a x hx _ ha hslots | @moved a x stage hx ha hslots =>
    -- The row that moves is the one the message is about, under the message's own token.
    rw [hm] at hx
    cases hx
    rw [hslot] at ha
    cases ha
    exact absurd rfl htoken
  | reaped hreap =>
    subst hreap
    cases hm
  | cleared hnone =>
    rw [hm] at hnone
    cases hnone

/-! ## Every run -/

theorem carried_release (w : World) (slot : Slot) (token : ℕ) :
    Carried w (w.release slot token) := by
  unfold release
  dsimp only
  split <;> split <;> exact ⟨rfl, le_rfl⟩

theorem carried_ownerDown (w : World) (slot : Slot) (token : ℕ) :
    Carried w (w.handleOwnerDown slot token) := by
  unfold handleOwnerDown
  split
  · exact ⟨rfl, le_rfl⟩
  · split
    · exact w.carried_release slot token
    · exact ⟨rfl, le_rfl⟩

theorem carried_completed (w : World) (engine : ℕ) (slot : Slot) (token owner : ℕ) (mode : Mode) :
    Carried w (w.handleCompleted engine slot token owner mode) := by
  have hframe : Frame w ((w.mergeSnapshot mode).finishDelivery slot token) :=
    (w.frame_mergeSnapshot mode).trans (frame_finishDelivery _ slot token)
  have hrelease := carried_release ((w.mergeSnapshot mode).finishDelivery slot token) slot token
  unfold handleCompleted
  repeat' split
  all_goals first
    | exact ⟨rfl, le_rfl⟩
    | exact ⟨hrelease.settings.trans hframe.settings, hframe.fresh.trans hrelease.fresh⟩

theorem handle_carried (w : World) (oracle : Oracle) (m : Message) :
    Carried w (w.handle oracle m) := by
  by_cases hm : m.administrative = true
  · exact .of_frame (w.frame_handle oracle hm)
  · cases m with
    | reserve =>
      simp only [handle, handleReserve]
      repeat' split
      all_goals first
        | exact ⟨rfl, le_rfl⟩
        | exact ⟨rfl, Nat.le_succ _⟩
    | submit | cancelReservation =>
      simp only [handle, handleSubmit, handleCancel]
      repeat' split
      all_goals first
        | exact ⟨rfl, le_rfl⟩
        | exact w.carried_release _ _
    | completed engine slot token owner mode =>
      exact w.carried_completed engine slot token owner mode
    | down ref =>
      simp only [handle, handleDown]
      split
      · exact ⟨rfl, le_rfl⟩
      · split
        case h_6 => exact w.carried_ownerDown _ _
        case h_5 => exact .of_frame (w.frame_revoke.trans (frame_finishOperation _))
        all_goals exact .of_frame w.frame_handleComponentDown
    | attachRuntime | attachEngine | attachWriter | attachFence =>
      simp only [handle]
      split
      · exact ⟨rfl, Nat.le_succ _⟩
      · exact ⟨rfl, le_rfl⟩
    | operationStarting driver token =>
      simp only [handle, handleStarting]
      repeat' split
      all_goals first
        | exact ⟨rfl, le_rfl⟩
        | exact ⟨rfl, Nat.le_succ _⟩
    | operationResult driver token result =>
      have hstopped := w.stopped.frame_finishOperation
      simp only [handle, handleResult]
      repeat' split
      all_goals first
        | exact ⟨rfl, le_rfl⟩
        | exact ⟨hstopped.settings, hstopped.fresh⟩
        | exact .of_frame w.frame_finishOperation
        | exact .of_frame (w.frame_revoke.trans (frame_finishOperation _))
    | reap => exact ⟨rfl, le_rfl⟩
    | _ => exact absurd rfl hm

/-- A claim takes a slot nobody has, under a token nobody has. -/
theorem Exclusive.claimed (h : Exclusive w) {slot : Slot} (htable : w.inTable slot = true)
    (owner expires : ℕ) :
    Exclusive { w.setSlot slot (some ⟨w.fresh, owner, .claimed, expires⟩) with
      fresh := w.fresh + 1 } := by
  -- Every row is the new one or one of before, whose token is older.
  have hrow : ∀ {a : Slot} {x : Hold},
      Function.update w.slots slot (some ⟨w.fresh, owner, .claimed, expires⟩) a = some x →
      (a = slot ∧ x.token = w.fresh) ∨ (w.slots a = some x ∧ x.token < w.fresh) := by
    intro a x ha
    rw [Function.update_apply] at ha
    split at ha
    case isTrue heq =>
      cases ha
      exact .inl ⟨heq, rfl⟩
    case isFalse => exact .inr ⟨ha, h.issued ha⟩
  constructor
  · intro a b x y ha hb htoken
    obtain ⟨rfl, hx⟩ | ⟨ha', hx⟩ := hrow ha <;> obtain ⟨rfl, hy⟩ | ⟨hb', hy⟩ := hrow hb
    · rfl
    · omega
    · omega
    · exact h.unique ha' hb' htoken
  · intro a x ha
    change x.token < w.fresh + 1
    obtain ⟨-, hx⟩ | ⟨-, hx⟩ := hrow ha <;> omega
  · intro a x ha
    obtain ⟨rfl, -⟩ | ⟨ha', -⟩ := hrow ha
    · cases a <;> exact htable
    · have := h.tabled ha'
      cases a <;> exact this

theorem perform_frames {a : Accounts} {action : Memory.Action} (h : w.perform a action = some w') :
    w'.slots = w.slots ∧ Carried w w' := by
  cases action with
  | reserve bytes =>
    obtain ⟨counter, -, rfl⟩ := Option.map_eq_some_iff.mp h
    exact ⟨rfl, rfl, le_rfl⟩
  | release | account =>
    cases h
    exact ⟨rfl, rfl, le_rfl⟩

/-- Only a claim and the guardian move the table. -/
theorem step_slots {l : Label} (h : w.step l = some w') :
    (∃ slot owner expires, l = .claim slot owner expires) ∨ (∃ oracle, l = .handle oracle) ∨
      (w'.slots = w.slots ∧ Carried w w') := by
  cases l with
  | claim slot owner expires => exact .inl ⟨slot, owner, expires, rfl⟩
  | handle oracle => exact .inr (.inl ⟨oracle, rfl⟩)
  | claimOperation | send | poison =>
    simp only [step] at h
    split at h
    case isFalse => cases h
    case isTrue =>
      cases h
      exact .inr (.inr ⟨rfl, rfl, by first | exact le_rfl | exact Nat.le_succ _⟩)
  | startEngine | startWriter =>
    cases h
    exact .inr (.inr ⟨rfl, rfl, Nat.le_succ _⟩)
  | kill p =>
    cases h
    exact .inr (.inr ⟨(w.frame_kill p).slots, .of_frame (w.frame_kill p)⟩)
  | recover bytes =>
    simp only [step] at h
    split at h
    case h_2 => cases h
    case h_1 =>
      split at h
      case isFalse => cases h
      case isTrue =>
        obtain ⟨counter, -, rfl⟩ := Option.map_eq_some_iff.mp h
        exact .inr (.inr ⟨rfl, rfl, le_rfl⟩)
  | act action =>
    obtain ⟨a, -, ha⟩ := Option.bind_eq_some_iff.mp h
    exact .inr (.inr (perform_frames ha))

theorem step_handle {oracle : Oracle} (h : w.step (.handle oracle) = some w') :
    ∃ m rest, w.mailbox = m :: rest ∧ w' = { w with mailbox := rest }.handle oracle m := by
  simp only [step] at h
  split at h
  case h_1 => cases h
  case h_2 m rest hmailbox =>
    cases h
    exact ⟨m, rest, hmailbox, rfl⟩

theorem Exclusive.stepped (h : Exclusive w) {l : Label} (hl : w.step l = some w') :
    Exclusive w' := by
  obtain ⟨slot, owner, expires, rfl⟩ | ⟨oracle, rfl⟩ | ⟨hslots, hcarried⟩ := step_slots hl
  · simp only [step] at hl
    split at hl
    case isFalse => cases hl
    case isTrue hfree =>
      cases hl
      exact h.claimed hfree.1 owner expires
  · obtain ⟨m, rest, -, rfl⟩ := step_handle hl
    have hrest : Exclusive { w with mailbox := rest } :=
      h.continued (fun slot k hk ↦ ⟨k, hk, rfl⟩) ⟨rfl, le_rfl⟩
    exact hrest.continued (handle_touches _ oracle m).continues (handle_carried _ oracle m)
  · exact h.continued (fun slot k hk ↦ ⟨k, hslots ▸ hk, rfl⟩) hcarried

theorem exclusive_of_reachable (hw : machine.Reachable w) : Exclusive w := by
  refine hw.invariant (fun w hstart ↦ ?_) (fun _ _ _ h hl ↦ h.stepped hl)
  constructor <;> intros <;> simp_all only [hstart.slots, reduceCtorEq]

/-! ## Recovery of a slot -/

/-- The slot is free, or is freed by a message on its way; `:reap` always is, on a timer. -/
def Recovers (w : World) (slot : Slot) : Prop :=
  ∃ m ∈ Message.reap :: w.mailbox, ∃ oracle, (w.handle oracle m).slots slot = none

/-- The message by which the owner of a reservation ends it. -/
def ends (slot : Slot) (h : Hold) : Message → Bool
  | .submit owner _ slot' token => owner = h.owner && slot' = slot && token = h.token
  | .cancelReservation owner slot' token => owner = h.owner && slot' = slot && token = h.token
  | _ => false

/-- A schedule slot that a clear does not strand: free, claimed, or reserved by an owner whose next
message has arrived. -/
def settled (w : World) (index : ℕ) : Bool :=
  match w.slots (.schedule index) with
  | none => true
  | some h =>
    match h.stage with
    | .claimed => true
    | .reserved => w.mailbox.any (ends (.schedule index) h)
    | .submitted => false

variable (w)

/-- Nothing is admitted between two generations. -/
theorem admissionReady_closed (h : w.status.state = .recovering ∨ w.status.state = .stopped)
    (generation : ℕ) : w.admissionReady? generation = false := by
  obtain h | h := h <;> simp [admissionReady?, h]

theorem recovers_free {slot : Slot} (h : w.slots slot = none) : w.Recovers slot := by
  refine ⟨.reap, List.mem_cons_self, ⟨0, true⟩, ?_⟩
  simp only [handle, handleReap, h, Option.filter_none]

theorem recovers_claimed {slot : Slot} {h : Hold} (hslot : w.slots slot = some h)
    (hstage : h.stage = .claimed) : w.Recovers slot := by
  refine ⟨.reap, List.mem_cons_self, ⟨h.expires, true⟩, ?_⟩
  simp [handle, handleReap, hslot, expired, hstage]

/-- Between two generations the owner's next message frees its reservation. -/
theorem recovers_ended {slot : Slot} {h : Hold} (hslot : w.slots slot = some h)
    (hstage : h.stage = .reserved)
    (hclosed : w.status.state = .recovering ∨ w.status.state = .stopped) {m : Message}
    (hm : m ∈ w.mailbox) (hends : ends slot h m = true) : w.Recovers slot := by
  refine ⟨m, List.mem_cons_of_mem _ hm, ⟨0, true⟩, ?_⟩
  have hfreed : (w.release slot h.token).slots slot = none := by
    rw [w.slots_release hslot, Function.update_self]
  cases m with
  | submit owner generation slot' token =>
    simp only [ends, Bool.and_eq_true, decide_eq_true_eq] at hends
    obtain ⟨⟨rfl, rfl⟩, rfl⟩ := hends
    simp [handle, handleSubmit, hslot, hstage, w.admissionReady_closed hclosed, hfreed]
  | cancelReservation owner slot' token =>
    simp only [ends, Bool.and_eq_true, decide_eq_true_eq] at hends
    obtain ⟨⟨rfl, rfl⟩, rfl⟩ := hends
    simp [handle, handleCancel, hslot, hstage, hfreed]
  | _ => cases hends

/-- After a clear a row that is no longer a claim is freed by its owner's next message only. -/
theorem Touches.stranded {w w' : World} {oracle : Oracle} {m : Message} (h : Touches w oracle m w')
    (hengine : w.engine = none) (hwatched : ∀ m ∈ w.monitors, m.watch = .driver) {index : ℕ}
    {k : Hold} (hslot : w.slots (.schedule index) = some k) (hstage : k.stage ≠ .claimed)
    (hm : k.stage = .reserved → ends (.schedule index) k m = false) :
    w'.slots (.schedule index) ≠ none := by
  intro hnone
  cases h with
  | nothing hslots => simp_all only [reduceCtorEq]
  | @freed a x hx hfrees ha hslots =>
    rw [hslots, Function.update_apply] at hnone
    split at hnone
    case isFalse => simp_all only [reduceCtorEq]
    case isTrue heq =>
      subst heq
      obtain rfl : x = k := by simpa [hslot] using ha.symm
      cases m with
      | submit owner generation slot token | cancelReservation owner slot token =>
        cases hx
        simp only [frees, Bool.and_eq_true, decide_eq_true_eq] at hfrees
        have hreserved : x.stage = .reserved := by
          cases hx : x.stage <;> simp_all
        simp [ends, hfrees.1] at hm
        exact hm hreserved
      | down ref =>
        -- No caller is watched any more.
        obtain ⟨m, hm', hx⟩ := Option.bind_eq_some_iff.mp hx
        rw [hwatched m (List.mem_of_find?_eq_some hm')] at hx
        cases hx
      | _ => simp_all [frees]
  | @moved a x stage hx ha hslots =>
    rw [hslots, Function.update_apply] at hnone
    split at hnone <;> simp_all only [reduceCtorEq]
  | reaped _ hslots =>
    simp [hslots, hslot, expired, hstage] at hnone
  | cleared _ hclears =>
    rw [hclears.slots] at hnone
    exact absurd (hslot.symm.trans hnone) (by simp)

theorem carries_of_ends {w : World} {slot : Slot} {h : Hold} {m : Message}
    (hm : ends slot h m = true) : w.carries m = some (slot, h.token) ∧ ∀ ref, m ≠ .down ref := by
  cases m with
  | submit | cancelReservation =>
    simp only [ends, Bool.and_eq_true, decide_eq_true_eq] at hm
    simp [carries, hm]
  | _ => cases hm

/-- After a clear, the schedule slots that recover are those that were settled before it. -/
theorem Clears.recovers_iff {w w' : World} (h : Clears w w') (index : ℕ) :
    w'.Recovers (.schedule index) ↔ w.settled index = true := by
  have hsame : w'.slots (.schedule index) = w.slots (.schedule index) := by rw [h.slots]; rfl
  unfold settled
  cases hslot : w.slots (.schedule index) with
  | none => simpa only [iff_true] using w'.recovers_free (hsame.trans hslot)
  | some k =>
    have hslot' := hsame.trans hslot
    -- The mailbox lost only reports of processes, so an owner's message is there iff it was before.
    have hends : (w'.mailbox.any (ends (.schedule index) k) = true) ↔
        w.mailbox.any (ends (.schedule index) k) = true := by
      simp only [List.any_eq_true]
      refine exists_congr fun m ↦ and_congr_left fun hm ↦ ?_
      exact h.mailbox m (carries_of_ends (w := w) hm).2
    have hstranded : ∀ hstage : k.stage ≠ .claimed,
        (k.stage = .reserved → w'.mailbox.any (ends (.schedule index) k) = false) →
        ¬ w'.Recovers (.schedule index) := by
      rintro hstage hnone ⟨m, hm, oracle, hfree⟩
      refine (handle_touches w' oracle m).stranded h.engine h.watched hslot' hstage ?_ hfree
      intro hreserved
      rcases List.mem_cons.mp hm with rfl | hm
      · rfl
      · exact Bool.eq_false_iff.mpr (List.any_eq_false.mp (hnone hreserved) m hm)
    cases hstage : k.stage with
    | claimed => simpa [hstage] using w'.recovers_claimed hslot' hstage
    | submitted => simpa [hstage] using hstranded (by simp [hstage]) (by simp [hstage])
    | reserved =>
      simp only [hstage]
      rw [← hends]
      constructor
      · intro hrecovers
        by_contra hnone
        exact hstranded (by simp [hstage]) (fun _ ↦ Bool.eq_false_iff.mpr hnone) hrecovers
      · intro hany
        obtain ⟨m, hm, hmends⟩ := List.any_eq_true.mp hany
        exact w'.recovers_ended hslot' hstage h.closed hm hmends

/-- A client slot is free after a clear. -/
theorem Clears.client_free {w w' : World} (h : Clears w w') (hexclusive : Exclusive w) (index : ℕ) :
    w'.slots (.client index) = none := by
  rw [h.slots]
  change (if 1 ≤ index ∧ index ≤ w.settings.clientSlots then none
    else w.slots (.client index)) = none
  split
  case isTrue => rfl
  case isFalse hout =>
    cases hslot : w.slots (.client index) with
    | none => rfl
    | some k =>
      have htable := hexclusive.tabled hslot
      simp only [inTable, Bool.and_eq_true, decide_eq_true_eq] at htable
      exact absurd htable hout

/-- Only slots of the table can be unsettled. -/
theorem settled_of_table {w : World} (h : Exclusive w)
    (hall : ∀ index < w.settings.clientSlots + 1, w.settled index = true) (index : ℕ) :
    w.settled index = true := by
  by_cases hindex : index < w.settings.clientSlots + 1
  · exact hall index hindex
  · unfold settled
    split
    case h_1 => rfl
    case h_2 k hslot =>
      have htable := h.tabled hslot
      simp only [inTable, Bool.and_eq_true, decide_eq_true_eq] at htable
      omega

/-- With no message left to handle, only a claim is still recovered. -/
theorem not_recovers_of_quiet {w : World} {slot : Slot} {k : Hold} (hslot : w.slots slot = some k)
    (hstage : k.stage ≠ .claimed) (hmailbox : w.mailbox = []) : ¬ w.Recovers slot := by
  rintro ⟨m, hm, oracle, hnone⟩
  rw [hmailbox, List.mem_singleton] at hm
  subst hm
  simp [handle, handleReap, hslot, expired, hstage] at hnone

/-- **Slots are exclusive, and a clear recovers all of them exactly when it strands no schedule
slot.** In every reachable state no token owns two slots and no message with a stale token moves a
row; and when a generation is cleared, every slot of both kinds is free or about to be freed if and
only if no schedule slot was submitted, nor reserved by an owner that had yet to send its next
message. -/
theorem slots_recovered_iff {w : World} (hw : machine.Reachable w) :
    Exclusive w ∧
    (∀ oracle m slot token k, w.carries m = some (slot, token) → w.slots slot = some k →
      k.token ≠ token → (w.handle oracle m).slots slot = some k) ∧
    ∀ oracle w', machine.step w (.handle oracle) = some w' → w'.clears ≠ w.clears →
      ((∀ slot, w'.Recovers slot) ↔ ∀ index, w.settled index = true) := by
  have hexclusive := exclusive_of_reachable hw
  refine ⟨hexclusive, fun oracle m slot token k hm hslot htoken ↦
    (handle_touches w oracle m).stale hm hslot htoken, fun oracle w' hl hclears ↦ ?_⟩
  obtain ⟨m, rest, hmailbox, rfl⟩ := step_handle hl
  cases handle_touches { w with mailbox := rest } oracle m with
  | nothing _ hsame => exact absurd hsame hclears
  | freed _ _ _ _ hsame => exact absurd hsame hclears
  | moved _ _ _ _ hsame => exact absurd hsame hclears
  | reaped _ _ hsame => exact absurd hsame hclears
  | cleared hcarries hc =>
    have hrest : Exclusive { w with mailbox := rest } :=
      hexclusive.continued (fun slot k hk ↦ ⟨k, hk, rfl⟩) ⟨rfl, le_rfl⟩
    have hsettled : ∀ index, settled { w with mailbox := rest } index = w.settled index := by
      intro index
      have hm : ∀ k, ends (.schedule index) k m = false := by
        intro k
        by_contra h
        rw [(carries_of_ends (Bool.not_eq_false _ ▸ h)).1] at hcarries
        cases hcarries
      simp only [settled, hmailbox, List.any_cons, hm, Bool.false_or]
    simp only [← hsettled]
    constructor
    · intro hall index
      exact (hc.recovers_iff index).mp (hall (.schedule index))
    · rintro hall (index | index)
      · exact recovers_free _ (hc.client_free hrest index)
      · exact (hc.recovers_iff index).mpr (hall index)

end World

namespace Sample

open World

def config : Settings := ⟨1, 1000, 1, false, none⟩

def clock : Oracle := ⟨0, true⟩

/-- An engine and its writer start and become ready. -/
def attached : List Label :=
  [.startEngine, .handle clock, .startWriter 1, .handle clock, .send (.ready 1), .handle clock]

/-- A caller's request through a slot, as far as the reservation. -/
def reserved (slot : Slot) : List Label :=
  attached ++ [.claim slot 100 50, .send (.reserve 100 0 slot 5 10), .handle clock]

def submitted (slot : Slot) : List Label :=
  reserved slot ++ [.send (.submit 100 0 slot 5), .handle clock]

/-- A forced restart, up to the moment the driver asks for a new generation. -/
def restart : List Label :=
  [.claimOperation 101 1000, .send (.operation 101 0 7 .restart true 1000 true), .handle clock,
    .handle clock, .send (.operationStarting 8 7)]

/-- The caller gives its reservation up while the generation is being closed. -/
def cancelled : List Label :=
  reserved (.schedule 1) ++ restart ++ [.send (.cancelReservation 100 (.schedule 1) 5)]

/-- The generation is cleared with work of the schedule coordinator under way. -/
def interrupted : List Label := submitted (.schedule 1) ++ restart

end Sample

namespace World

open Sample

theorem slots_recovered_cancelled : ∃ w w', machine.Reachable w ∧
    machine.step w (.handle clock) = some w' ∧ w'.clears ≠ w.clears ∧
    w.slots (.schedule 1) ≠ none ∧ ∀ slot, w'.Recovers slot := by
  have hrun : (machine.run (init config) cancelled).any (fun w ↦
      w.settings.clientSlots = 1 && w.settled 0 && w.settled 1 && (w.slots (.schedule 1)).isSome &&
        (machine.step w (.handle clock)).any fun w' ↦ w'.clears ≠ w.clears) = true := by
    decide +kernel
  obtain ⟨w, hw, h⟩ := (Option.any_eq_true _ _).mp hrun
  simp only [Bool.and_eq_true, decide_eq_true_eq] at h
  obtain ⟨⟨⟨⟨htable, hzero⟩, hone⟩, hheld⟩, hstep⟩ := h
  obtain ⟨w', hw', hclears⟩ := (Option.any_eq_true _ _).mp hstep
  rw [decide_eq_true_eq] at hclears
  have hreach := Machine.reachable_of_run (starts_init config) hw
  refine ⟨w, w', hreach, hw', hclears, Option.isSome_iff_ne_none.mp hheld, ?_⟩
  refine ((slots_recovered_iff hreach).2.2 clock w' hw' hclears).mpr ?_
  refine settled_of_table (exclusive_of_reachable hreach) fun index hindex ↦ ?_
  rw [htable] at hindex
  obtain rfl | rfl : index = 0 ∨ index = 1 := by omega
  · exact hzero
  · exact hone

theorem slots_stranded : ∃ w w', machine.Reachable w ∧
    machine.step w (.handle clock) = some w' ∧ w'.clears ≠ w.clears ∧
    ¬ ∀ slot, w'.Recovers slot := by
  have hrun : (machine.run (init config) interrupted).any (fun w ↦
      (machine.step w (.handle clock)).any fun w' ↦ w'.clears ≠ w.clears && w'.mailbox.isEmpty &&
        (w'.slots (.schedule 1)).any (·.stage = .submitted)) = true := by
    decide +kernel
  obtain ⟨w, hw, hstep⟩ := (Option.any_eq_true _ _).mp hrun
  obtain ⟨w', hw', h⟩ := (Option.any_eq_true _ _).mp hstep
  simp only [Bool.and_eq_true, decide_eq_true_eq] at h
  obtain ⟨⟨hclears, hmailbox⟩, hslot⟩ := h
  obtain ⟨k, hk, hstage⟩ := (Option.any_eq_true _ _).mp hslot
  rw [decide_eq_true_eq] at hstage
  refine ⟨w, w', Machine.reachable_of_run (starts_init config) hw, hw', hclears, fun hall ↦ ?_⟩
  exact not_recovers_of_quiet hk (by simp [hstage]) (List.isEmpty_iff.mp hmailbox)
    (hall (.schedule 1))

end World

end Tay.Lifecycle
