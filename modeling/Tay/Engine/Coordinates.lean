import Tay.Engine.Replay

/-!
# What a command does to the coordinates

The engine's shadow of the writer is an epoch, a segment and a sequence number. A command that stays
in memory leaves them alone; one that is persisted sends exactly one payload to the writer, checks
the receipt, and advances. `request` is the payload, and `perform_advances` is all the rest of the
development needs to know about a command when only its coordinates matter.
-/

open Foundation

namespace Tay

/-! ## Coordinates -/

/-- Where the next record goes. -/
structure Coordinates where
  epochId : ℕ
  segment : SegmentView
  nextSequence : ℕ
  rotationTargetBytes : ℕ
  deriving DecidableEq

namespace Engine

open V2 Transition ProjectionState

def State.coordinates (s : State) : Coordinates :=
  ⟨s.epochId, s.segment, s.nextSequence, s.config.rotationTargetBytes⟩

variable (vm : Runtime)

/-- The durability a commit is made with. -/
def commitMode (s : State) (previous : Option Job) (given : Option Durability) : Durability :=
  given.getD (match previous with | some p => durability s p.id | none => .persistent)

/-- The payload a job commit sends to the writer, when it gets that far. -/
def commitRequest (s : State) (previous : Option Job) (e : JobEvent) (given : Option Durability)
    (admits : ℤ → Bool) : Option Payload :=
  match commitMode s previous given with
  | .volatile => none
  | .persistent =>
    match prepareV2 vm s previous e with
    | .ok p => if admits (p.budget.bytes - s.budget.bytes) then some (.mutation p.mutation) else none
    | .error _ => none

/-- The payload a command sends to the writer, when it gets that far. -/
def request (s : State) (op : Op) (admits : ℤ → Bool) : Option Payload :=
  match op with
  | .insert e mode =>
    match lookup s e.jobId with
    | some _ => none
    | none => commitRequest vm s none e (some mode) admits
  | .change e =>
    match lookup s e.jobId with
    | none => none
    | some p => commitRequest vm s (some p) e none admits
  | .auxiliary e =>
    if (resultJob s e.body).any fun j ↦ durability s j.id == .volatile then none
    else match prepareAuxiliary vm s e (resultJob s e.body) with
      | .ok c => if admits (c.auxiliaryBytes - s.auxiliaryBytes) then some (.auxiliary e) else none
      | .error _ => none

/-- What a successful command has done to the coordinates: nothing, or it has gone through an append
whose receipt was the expected one. -/
inductive Advances (s : State) (op : Op) (env : Environment) (t : State) : Prop
  | silent : request vm s op env.admits = none → t.coordinates = s.coordinates →
      t.onlineCompaction = s.onlineCompaction → Advances s op env t
  | appends {payload : Payload} {receipt : Receipt} {base : State} :
      request vm s op env.admits = some payload →
      appendRecord vm s payload env = .ok (receipt, base) →
      receipt = expectedPosition base payload.bytes →
      t.coordinates = (advance base receipt payload.bytes).coordinates →
      t.onlineCompaction = base.onlineCompaction → Advances s op env t

theorem publish_coordinates (s : State) (previous : Option Job) (job : Job) (mode : Durability) :
    (publish s previous job mode).coordinates = s.coordinates ∧
      (publish s previous job mode).onlineCompaction = s.onlineCompaction := by
  unfold publish
  split
  · exact ⟨rfl, rfl⟩
  · split
    · exact ⟨rfl, rfl⟩
    · exact ⟨rfl, rfl⟩

theorem ensureActiveAccounting_eq {s t : State} (h : ensureActiveAccounting s = .ok t) : t = s := by
  simp only [ensureActiveAccounting, check_bind_eq_ok, pure_eq_ok] at h
  cases h.2
  rfl

theorem finishCommit_coordinates {s : State} {previous : Option Job} {e : JobEvent} {p : Prepared}
    {receipt : Receipt} {c : Committed} (h : finishCommit vm s previous e p receipt = .ok c) :
    c.state.coordinates = (advance s receipt (Payload.mutation p.mutation).bytes).coordinates ∧
      c.state.onlineCompaction = s.onlineCompaction := by
  simp only [finishCommit, bind_eq_ok, pure_eq_ok] at h
  obtain ⟨charged, -, next, hnext, h⟩ := h
  cases h
  rw [ensureActiveAccounting_eq hnext]
  obtain ⟨hcoordinates, honline⟩ := publish_coordinates s previous charged.1 .persistent
  refine ⟨?_, honline⟩
  simp only [State.coordinates, Coordinates.mk.injEq] at hcoordinates
  obtain ⟨hepoch, hsegment, hsequence, htarget⟩ := hcoordinates
  simp only [State.coordinates, advance, hepoch, hsequence, htarget, hsegment]

theorem commit_advances {s : State} {previous : Option Job} {e : JobEvent}
    {given : Option Durability} {env : Environment} {c : Committed} {op : Op}
    (hrequest : request vm s op env.admits = commitRequest vm s previous e given env.admits)
    (h : commit vm s previous e given env = .ok c) : Advances vm s op env c.state := by
  unfold commitRequest at hrequest
  unfold commit at h
  split at h
  case h_1 hmode =>
    have hvolatile : commitMode s previous given = .volatile := hmode
    rw [hvolatile] at hrequest
    simp only [commitVolatile, bind_eq_ok, pure_eq_ok] at h
    obtain ⟨m, -, -, -, predicted, -, charged, -, -, -, next, hnext, h⟩ := h
    cases h
    rw [ensureActiveAccounting_eq hnext]
    obtain ⟨hcoordinates, honline⟩ := publish_coordinates s previous
      { charged.1 with terminalAt := terminalTime charged.1 e.timestamp } .volatile
    exact .silent hrequest hcoordinates honline
  case h_2 hmode =>
    have hpersistent : commitMode s previous given = .persistent := hmode
    rw [hpersistent] at hrequest
    simp only [commitV2, bind_eq_ok, mapError_eq_ok, check_eq_ok] at h
    obtain ⟨p, hp, -, hadmits, r, hr, u, hvalid, h⟩ := h
    obtain ⟨receipt, base⟩ := r
    simp only [validateReceipt, check_eq_ok, beq_iff_eq] at hvalid
    simp only [hp, hadmits, if_true] at hrequest
    obtain ⟨hcoordinates, honline⟩ := finishCommit_coordinates vm h
    exact .appends hrequest hr hvalid hcoordinates honline

/-- What a command does to the coordinates. -/
theorem perform_advances {s : State} {op : Op} {env : Environment} {out : State × List Record}
    (h : perform vm s op env = .ok out) : Advances vm s op env out.1 := by
  cases op with
  | insert e mode =>
    simp only [perform] at h
    cases hlookup : lookup s e.jobId with
    | some p => simp [hlookup] at h
    | none =>
      rw [hlookup] at h
      obtain ⟨c, hc, rfl⟩ := map_eq_ok.mp h
      exact commit_advances vm (by simp [request, hlookup]) hc
  | change e =>
    simp only [perform] at h
    cases hlookup : lookup s e.jobId with
    | none => simp [hlookup] at h
    | some p =>
      rw [hlookup] at h
      obtain ⟨c, hc, rfl⟩ := map_eq_ok.mp h
      exact commit_advances vm (by simp [request, hlookup]) hc
  | auxiliary e =>
    simp only [perform, commitAuxiliary] at h
    split at h
    case isTrue hvolatile =>
      simp only [commitVolatileAuxiliary, bind_eq_ok, pure_eq_ok] at h
      obtain ⟨-, -, c, -, -, -, h⟩ := h
      cases h
      exact .silent (by simp only [request, if_pos hvolatile]) rfl rfl
    case isFalse hpersistent =>
      simp only [commitPersistentAuxiliary, bind_eq_ok, check_eq_ok] at h
      obtain ⟨c, hc, -, hadmits, r, hr, u, hvalid, h⟩ := h
      obtain ⟨receipt, base⟩ := r
      simp only [validateReceipt, check_eq_ok, beq_iff_eq] at hvalid
      have hrequest : request vm s (.auxiliary e) env.admits = some (.auxiliary e) := by
        simp only [request, if_neg hpersistent, hc, hadmits, if_true]
      simp only [finishAuxiliary] at h
      split at h
      · cases h
      · cases h
        exact .appends hrequest hr hvalid rfl rfl

end Engine

end Tay
