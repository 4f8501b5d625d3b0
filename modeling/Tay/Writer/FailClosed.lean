import Tay.Writer.Files

/-!
# Requests that fail

`Tay.Storage.Writer`: what a request leaves behind when it does not succeed. Most requests go through
`mutate` or `GroupCommit.finish`, and there a step that fails poisons the writer: it drops its admission,
and whatever is asked of it later is refused. A refusal comes before the first step, so it changes nothing.

The start of an online compaction is the exception. `do_start` rotates like the others but answers an
error with the state it had, so a rotation that fails between the footer and the opened successor leaves a
writer that is not poisoned and knows the segment as it was. `strands` says which answers of the port
bring this about.
-/

open Foundation

namespace Tay.SegmentOps

open Physical

/-! ## Commands -/

structure Session where
  writer : Writer
  /-- Whether an online compaction is under way. -/
  online : Bool
  deriving DecidableEq

inductive Command
  | mutate (request : Request)
  /-- `admits`: the caller has the admission reference. -/
  | beginGroup (admits : Bool)
  /-- `owns`: the caller has begun the group. -/
  | finishGroup (owns : Bool)
  /-- `admits`: the caller has the admission reference, and its deadline and its retention are good. -/
  | compactOnline (frontier : ℤ) (admits : Bool)
  deriving DecidableEq, Repr

inductive Answer
  | mutated (reply : Reply)
  | groupBegun
  | groupFinished (size : ℕ)
  | compacting (previous segment : Segment) (nextSequence : ℕ)
  | mutationNotAdmitted
  | compactionNotAdmitted
  | groupCommitRequiresSync
  | groupCommitActive
  | groupCommitNotActive
  | error (failure : Failure)
  | uncertain (failure : Failure)
  | poisoned
  deriving DecidableEq

def Answer.succeeded : Answer → Bool
  | .mutated (.appended _) | .mutated .done => true
  | .groupBegun | .groupFinished _ | .compacting .. => true
  | _ => false

/-- What `finish` does to the files before it forgets the group. -/
def syncGroup (count : ℕ) (io : Io) : Action Unit := do
  if count = 0 then pure () else Action.perform io .groupSync
  Action.perform io .groupCheck

/-- `begin`. -/
def beginGroup (x : Session) (d : Disk) (admits : Bool) : Answer × Session × Disk :=
  if !admits then (.mutationNotAdmitted, x, d)
  else if x.writer.durability ≠ .sync then (.groupCommitRequiresSync, x, d)
  else if x.writer.groupCommit.isSome then (.groupCommitActive, x, d)
  else (.groupBegun, { x with writer := { x.writer with groupCommit := some 0 } }, d)

/-- `finish`. -/
def finishGroup (x : Session) (d : Disk) (owns : Bool) (io : Io) : Answer × Session × Disk :=
  match x.writer.groupCommit with
  | none => (.groupCommitNotActive, x, d)
  | some count =>
    if !owns then (.groupCommitNotActive, x, d)
    else match syncGroup count io d with
      | (.ok _, d') =>
        (.groupFinished count, { x with writer := { x.writer with groupCommit := none } }, d')
      | (.error failure, d') =>
        (.uncertain failure, { x with writer := { x.writer with poisoned := true } }, d')

/-- `start` and `do_start`. A poisoned writer has no admission reference to be asked with. -/
def startCompaction (x : Session) (d : Disk) (frontier : ℤ) (admits : Bool) (io : Io) :
    Answer × Session × Disk :=
  if x.writer.poisoned || x.online || !admits || frontier != (x.writer.nextSequence : ℤ) - 1 then
    (.compactionNotAdmitted, x, d)
  else match rotate x.writer io d with
    | (.ok rotated, d') =>
      (.compacting x.writer.segment rotated.segment rotated.nextSequence, ⟨rotated, true⟩, d')
    -- the state is the one from before, whatever the rotation has done
    | (.error failure, d') => (.error failure, x, d')

/-- `handle_call`. -/
def serve (x : Session) (d : Disk) (command : Command) (io : Io) : Answer × Session × Disk :=
  match command with
  | .compactOnline frontier admits => startCompaction x d frontier admits io
  | .mutate request =>
    let out := mutate x.writer d request io
    (.mutated out.1, { x with writer := out.2.1 }, out.2.2)
  | .beginGroup admits => if x.writer.poisoned then (.poisoned, x, d) else beginGroup x d admits
  | .finishGroup owns => if x.writer.poisoned then (.poisoned, x, d) else finishGroup x d owns io

/-! ## What a rotation leaves behind -/

/-- The footer is sent. -/
def Sends (w : Writer) (io : Io) : Prop := io.ok .sealCheck = true ∧ (footer w).Valid

/-- What of the footer reaches the file. -/
def sent (w : Writer) (io : Io) : Binary :=
  let bytes := CRC32C.checked (footer w).body
  if io.ok .footerWrite then bytes else bytes.take (io.torn .footerWrite)

/-- Every step of the seal succeeds. -/
def Seals (w : Writer) (io : Io) : Prop :=
  Sends w io ∧ ∀ step ∈ [Step.footerWrite, .footerSync, .footerClose, .footerCheck], io.ok step = true

/-- The header of the successor is staged. -/
def Stages (w : Writer) (io : Io) : Prop :=
  (successorHeader w).Valid ∧
    ∀ step ∈ [Step.existingSync, .stageCreate, .headerWrite, .headerSync, .headerClose],
      io.ok step = true

/-- The successor is there, whatever the port says. -/
def Appears (w : Writer) (io : Io) : Prop := Stages w io ∧ (io.ok .publish || io.landed) = true

/-- Every step of the succession succeeds. -/
def Opens (w : Writer) (io : Io) : Prop :=
  Stages w io ∧ ∀ step ∈ [Step.publish, .directorySync, .successorCheck, .activeOpen, .openedCheck],
    io.ok step = true

/-- A rotation is begun, some of it reaches the files, and it does not succeed. -/
def Strands (w : Writer) (d : Disk) (io : Io) : Prop :=
  w.segment.id ≠ maxSegmentId ∧ w.nextSequence ≤ maxSegmentId ∧
    if w.segment.sealed then Appears w io ∧ ¬Opens w io
    else w.segment.count ≠ 0 ∧ Sends w io ∧ ¬(Seals w io ∧ Opens w io) ∧
      (d.write w.segment.bytes (sent w io) ≠ d ∨ Seals w io ∧ Appears w io)

/-- The ways a seal can end. -/
inductive SealEnds (w : Writer) (io : Io) (d : Disk) : Except Failure Writer × Disk → Prop
  | unsent {failure : Failure} : ¬Sends w io → SealEnds w io d (.error failure, d)
  | halted {failure : Failure} : Sends w io → ¬Seals w io →
      SealEnds w io d (.error failure, d.write w.segment.bytes (sent w io))
  | sealed {w' : Writer} : Seals w io → successorHeader w' = successorHeader w →
      SealEnds w io d (.ok w', d.write w.segment.bytes (sent w io))

/-- The ways a succession can end. -/
inductive SuccessorEnds (w : Writer) (io : Io) (d : Disk) : Except Failure Writer × Disk → Prop
  | unpublished {failure : Failure} : ¬Appears w io → SuccessorEnds w io d (.error failure, d)
  | halted {failure : Failure} {file : File} : Appears w io → ¬Opens w io →
      SuccessorEnds w io d (.error failure, d.publish file)
  | opened {w' : Writer} {file : File} : Opens w io → SuccessorEnds w io d (.ok w', d.publish file)

namespace Action

variable {α β : Type} {io : Io} {step : Step} {d : Disk}

theorem perform_run (f : Unit → Action β) : (perform io step >>= f) d =
    if io.ok step then f () d else (.error (.io step), d) := by
  show andThen f (perform io step d) = _
  unfold perform
  cases io.ok step <;> rfl

theorem write_run (f : Unit → Action β) (offset : ℕ) (bytes : Binary) :
    (write io step offset bytes >>= f) d = if io.ok step then f () (d.write offset bytes)
      else (.error (.io step), d.write offset (bytes.take (io.torn step))) := by
  show andThen f (write io step offset bytes d) = _
  unfold write
  cases io.ok step <;> rfl

theorem publish_run (f : Unit → Action β) (file : File) : (publish io file >>= f) d =
    if io.ok .publish then f () (d.publish file)
      else (.error (.io .publish), if io.landed then d.publish file else d) := by
  show andThen f (publish io file d) = _
  unfold publish
  cases io.ok .publish <;> rfl

theorem lift_ok_run (a : α) (f : α → Action β) : (lift (.ok a) >>= f) d = f a d := rfl

theorem lift_error_run (e : SegmentError) (f : α → Action β) :
    (lift (.error e) >>= f) d = (.error (.segment e), d) := rfl

theorem guard_run {test : Bool} {failure : Failure} (htest : test = true) (f : Unit → Action β) :
    (guard test failure >>= f) d = f () d := by
  rw [htest]
  rfl

end Action

theorem sealSegment_ends (w : Writer) (io : Io) (d : Disk) : SealEnds w io d (sealSegment w io d) := by
  unfold sealSegment
  rw [Action.perform_run]
  split
  case isFalse hcheck => exact .unsent fun h ↦ hcheck h.1
  case isTrue hcheck =>
    cases hencoded : (footer w).encode with
    | error e =>
      rw [Action.lift_error_run]
      refine .unsent fun h ↦ ?_
      rw [Footer.encode_eq_ok.mpr ⟨h.2, rfl⟩] at hencoded
      cases hencoded
    | ok bytes =>
      obtain ⟨hvalid, rfl⟩ := Footer.encode_eq_ok.mp hencoded
      have hsends : Sends w io := ⟨hcheck, hvalid⟩
      rw [Action.lift_ok_run, Action.write_run]
      split
      case isFalse hwrite =>
        have hsent : (CRC32C.checked (footer w).body).take (io.torn .footerWrite) = sent w io :=
          (if_neg hwrite).symm
        rw [hsent]
        exact .halted hsends fun h ↦ hwrite (h.2 _ (by simp))
      case isTrue hwrite =>
        have hsent : CRC32C.checked (footer w).body = sent w io := (if_pos hwrite).symm
        rw [hsent, Action.perform_run]
        split
        case isFalse hstep => exact .halted hsends fun h ↦ hstep (h.2 _ (by simp))
        case isTrue hsync =>
          rw [Action.perform_run]
          split
          case isFalse hstep => exact .halted hsends fun h ↦ hstep (h.2 _ (by simp))
          case isTrue hclose =>
            rw [Action.perform_run]
            split
            case isFalse hstep => exact .halted hsends fun h ↦ hstep (h.2 _ (by simp))
            case isTrue hdone =>
              refine .sealed ⟨hsends, fun step hstep ↦ ?_⟩ rfl
              simp only [List.mem_cons, List.not_mem_nil, or_false] at hstep
              rcases hstep with rfl | rfl | rfl | rfl
              · exact hwrite
              · exact hsync
              · exact hclose
              · exact hdone

/-- What follows once the header is staged. -/
theorem staged_ends {w : Writer} {io : Io} {d : Disk} (h : Stages w io) :
    SuccessorEnds w io d ((do
      Action.publish io ⟨w.segment.id + 1, CRC32C.checked (successorHeader w).body⟩
      Action.perform io .directorySync
      let header ← Action.lift (decodeSegmentHeader (CRC32C.checked (successorHeader w).body)
        (some (w.segment.id + 1)) (some w.storeId))
      Action.guard (header.firstSequence == w.nextSequence) .successorMismatch
      Action.perform io .successorCheck
      Action.perform io .activeOpen
      Action.perform io .openedCheck
      return { w with segment :=
        { id := header.id, firstSequence := header.firstSequence, storeId := header.storeId
          crcState := CRC32C.update CRC32C.initial (CRC32C.checked (successorHeader w).body) } } :
        Action Writer) d) := by
  have hback : decodeSegmentHeader (CRC32C.checked (successorHeader w).body) (some (w.segment.id + 1))
      (some w.storeId) = .ok (successorHeader w) :=
    Header.Valid.decode_wire h.1 (fun e he ↦ by cases he; rfl) (fun e he ↦ by cases he; rfl)
  rw [Action.publish_run]
  split
  case isFalse hpublish =>
    have hopens : ¬Opens w io := fun hopens ↦ hpublish (hopens.2 _ (by simp))
    cases hlanded : io.landed with
    | false =>
      rw [if_neg Bool.false_ne_true]
      refine .unpublished fun happears ↦ ?_
      have hthere := happears.2
      rw [hlanded, Bool.or_false] at hthere
      exact hpublish hthere
    | true =>
      rw [if_pos rfl]
      exact .halted ⟨h, by rw [hlanded, Bool.or_true]⟩ hopens
  case isTrue hpublish =>
    have happears : Appears w io := ⟨h, by rw [hpublish, Bool.true_or]⟩
    rw [Action.perform_run]
    split
    case isFalse hstep => exact .halted happears fun hopens ↦ hstep (hopens.2 _ (by simp))
    case isTrue hdirectory =>
      have hsame : ((successorHeader w).firstSequence == w.nextSequence) = true := beq_self_eq_true _
      rw [hback, Action.lift_ok_run, Action.guard_run hsame, Action.perform_run]
      split
      case isFalse hstep => exact .halted happears fun hopens ↦ hstep (hopens.2 _ (by simp))
      case isTrue hcheck =>
        rw [Action.perform_run]
        split
        case isFalse hstep => exact .halted happears fun hopens ↦ hstep (hopens.2 _ (by simp))
        case isTrue hactive =>
          rw [Action.perform_run]
          split
          case isFalse hstep => exact .halted happears fun hopens ↦ hstep (hopens.2 _ (by simp))
          case isTrue hopened =>
            refine .opened ⟨h, fun step hstep ↦ ?_⟩
            simp only [List.mem_cons, List.not_mem_nil, or_false] at hstep
            rcases hstep with rfl | rfl | rfl | rfl | rfl
            · exact hpublish
            · exact hdirectory
            · exact hcheck
            · exact hactive
            · exact hopened

theorem createSuccessor_ends (w : Writer) (io : Io) (d : Disk) :
    SuccessorEnds w io d (createSuccessor w io d) := by
  unfold createSuccessor
  rw [Action.perform_run]
  split
  case isFalse hstep => exact .unpublished fun h ↦ hstep (h.1.2 _ (by simp))
  case isTrue hexisting =>
    cases hencoded : (successorHeader w).encode with
    | error e =>
      rw [Action.lift_error_run]
      refine .unpublished fun h ↦ ?_
      rw [Header.encode_eq_ok.mpr ⟨h.1.1, rfl⟩] at hencoded
      cases hencoded
    | ok bytes =>
      obtain ⟨hvalid, rfl⟩ := Header.encode_eq_ok.mp hencoded
      rw [Action.lift_ok_run, Action.perform_run]
      split
      case isFalse hstep => exact .unpublished fun h ↦ hstep (h.1.2 _ (by simp))
      case isTrue hstage =>
        rw [Action.perform_run]
        split
        case isFalse hstep => exact .unpublished fun h ↦ hstep (h.1.2 _ (by simp))
        case isTrue hwrite =>
          rw [Action.perform_run]
          split
          case isFalse hstep => exact .unpublished fun h ↦ hstep (h.1.2 _ (by simp))
          case isTrue hsync =>
            rw [Action.perform_run]
            split
            case isFalse hstep => exact .unpublished fun h ↦ hstep (h.1.2 _ (by simp))
            case isTrue hclose =>
              refine staged_ends ⟨hvalid, fun step hstep ↦ ?_⟩
              simp only [List.mem_cons, List.not_mem_nil, or_false] at hstep
              rcases hstep with rfl | rfl | rfl | rfl | rfl
              · exact hexisting
              · exact hstage
              · exact hwrite
              · exact hsync
              · exact hclose

theorem publish_ne (d d' : Disk) (file : File) (h : d'.earlier = d.earlier) : d'.publish file ≠ d := by
  intro hsame
  have hlength := congrArg (fun disk ↦ disk.earlier.length) hsame
  simp only [Disk.publish, h, List.length_append, List.length_singleton] at hlength
  omega

theorem appears_congr {w w' : Writer} (h : successorHeader w' = successorHeader w) (io : Io) :
    (Appears w' io ↔ Appears w io) ∧ (Opens w' io ↔ Opens w io) := by
  unfold Appears Opens Stages
  rw [h]
  exact ⟨Iff.rfl, Iff.rfl⟩

theorem Opens.appears {w : Writer} {io : Io} (h : Opens w io) : Appears w io := by
  refine ⟨h.1, ?_⟩
  rw [h.2 .publish (by simp), Bool.true_or]

/-- A rotation that fails has left the files alone. -/
def Spares (x : Action Writer) (d : Disk) : Prop := ∀ failure d', x d = (.error failure, d') → d' = d

/-- The rotation of a sealed segment, onto the disk of a seal or onto an older one. -/
theorem spares_createSuccessor (w : Writer) (io : Io) (d : Disk) :
    Spares (createSuccessor w io) d ↔ ¬(Appears w io ∧ ¬Opens w io) := by
  have hends := createSuccessor_ends w io d
  unfold Spares
  generalize createSuccessor w io d = out at hends
  cases hends with
  | unpublished happears =>
    refine ⟨fun _ h ↦ happears h.1, fun _ failure d' h ↦ ?_⟩
    cases h
    rfl
  | halted happears hopens =>
    refine ⟨fun h ↦ absurd (h _ _ rfl) (publish_ne d d _ rfl), fun h ↦ absurd ⟨happears, hopens⟩ h⟩
  | opened hopens =>
    refine ⟨fun _ h ↦ h.2 hopens, fun _ failure d' h ↦ ?_⟩
    cases h

/-- The rotation of an open segment. -/
theorem spares_sealed (w : Writer) (io : Io) (d : Disk) :
    Spares (sealSegment w io >>= fun closed ↦ createSuccessor closed io) d ↔
      ¬(Sends w io ∧ ¬(Seals w io ∧ Opens w io) ∧
        (d.write w.segment.bytes (sent w io) ≠ d ∨ Seals w io ∧ Appears w io)) := by
  have hrun : ∀ d, (sealSegment w io >>= fun closed ↦ createSuccessor closed io) d =
      Action.andThen (fun closed ↦ createSuccessor closed io) (sealSegment w io d) := fun _ ↦ rfl
  have hends := sealSegment_ends w io d
  unfold Spares
  rw [hrun d]
  generalize sealSegment w io d = out at hends
  cases hends with
  | unsent hsends =>
    refine ⟨fun _ h ↦ hsends h.1, fun _ failure d' h ↦ ?_⟩
    cases h
    rfl
  | halted hsends hseals =>
    constructor
    · rintro h ⟨-, -, hchanged | ⟨hsealed, -⟩⟩
      · exact hchanged (h _ _ rfl)
      · exact hseals hsealed
    · intro h failure d' hout
      cases hout
      by_contra hchanged
      exact h ⟨hsends, fun hdone ↦ hseals hdone.1, .inl hchanged⟩
  | @sealed closed hseals hheader =>
    obtain ⟨happears, hopens⟩ := appears_congr hheader io
    show (∀ failure d', createSuccessor closed io (d.write w.segment.bytes (sent w io)) =
      (.error failure, d') → d' = d) ↔ _
    have hnext := createSuccessor_ends closed io (d.write w.segment.bytes (sent w io))
    generalize createSuccessor closed io (d.write w.segment.bytes (sent w io)) = out at hnext
    cases hnext with
    | unpublished hnone =>
      constructor
      · rintro h ⟨-, -, hchanged | ⟨-, happear⟩⟩
        · exact hchanged (h _ _ rfl)
        · exact hnone (happears.mpr happear)
      · intro h failure d' hout
        cases hout
        by_contra hchanged
        exact h ⟨hseals.1, fun hdone ↦ hnone (happears.mpr hdone.2.appears), .inl hchanged⟩
    | halted happear hhalt =>
      constructor
      · intro h
        exact absurd (h _ _ rfl) (publish_ne d _ _ rfl)
      · intro h
        exact absurd ⟨hseals.1, fun hdone ↦ hhalt (hopens.mpr hdone.2),
          .inr ⟨hseals, happears.mp happear⟩⟩ h
    | opened hopen =>
      refine ⟨fun _ h ↦ h.2.1 ⟨hseals, hopens.mp hopen⟩, fun _ failure d' hout ↦ ?_⟩
      cases hout

theorem spares_rotate (w : Writer) (io : Io) (d : Disk) :
    Spares (rotate w io) d ↔ ¬Strands w d io := by
  have hrefused : ∀ {x : Action Writer}, (∀ failure d', x d = (.error failure, d') → d' = d) →
      ¬Strands w d io → (Spares x d ↔ ¬Strands w d io) :=
    fun hspares hstrands ↦ ⟨fun _ ↦ hstrands, fun _ ↦ hspares⟩
  unfold rotate
  split
  case isTrue hempty =>
    rw [Bool.and_eq_true, Bool.not_eq_true', beq_iff_eq] at hempty
    refine hrefused (fun failure d' h ↦ by cases h) ?_
    rintro ⟨-, -, h⟩
    rw [hempty.1, if_neg Bool.false_ne_true] at h
    exact h.1 hempty.2
  case isFalse hfull =>
    split
    case isTrue hid =>
      refine hrefused (fun failure d' h ↦ by cases h; rfl) fun h ↦ h.1 (beq_iff_eq.mp hid)
    case isFalse hid =>
      split
      case isTrue hsequence =>
        refine hrefused (fun failure d' h ↦ by cases h; rfl) fun h ↦ ?_
        exact absurd h.2.1 (Nat.not_le.mpr hsequence)
      case isFalse hsequence =>
        rw [beq_iff_eq] at hid
        rw [Nat.not_lt] at hsequence
        unfold Strands
        split
        case isTrue hsealed =>
          rw [spares_createSuccessor]
          simp only [hid, hsequence, ne_eq, not_false_eq_true, true_and]
        case isFalse hopen =>
          rw [Bool.not_eq_true] at hopen
          have hcount : w.segment.count ≠ 0 := by
            intro hzero
            rw [hopen, hzero] at hfull
            exact hfull rfl
          have hdo := spares_sealed w io d
          simp only [hid, hsequence, hcount, ne_eq, not_false_eq_true, true_and] at hdo ⊢
          exact hdo

/-! ## Requests that do not succeed -/

/-- The writer is poisoned, and whatever is asked of it changes nothing. -/
def Shut (x : Session) (d : Disk) : Prop :=
  x.writer.poisoned = true ∧ ∀ command io,
    (serve x d command io).1.succeeded = false ∧ (serve x d command io).2 = (x, d)

theorem shut_of_poisoned {x : Session} (hpoisoned : x.writer.poisoned = true) (d : Disk) : Shut x d := by
  refine ⟨hpoisoned, fun command io ↦ ?_⟩
  cases command with
  | mutate request => simp [serve, mutate, hpoisoned, Answer.succeeded]
  | beginGroup admits => simp [serve, hpoisoned, Answer.succeeded]
  | finishGroup owns => simp [serve, hpoisoned, Answer.succeeded]
  | compactOnline frontier admits => simp [serve, startCompaction, hpoisoned, Answer.succeeded]

/-- The request succeeds, changes nothing, or shuts the writer. -/
def FailsClosed (x : Session) (d : Disk) (command : Command) (io : Io) : Prop :=
  (serve x d command io).1.succeeded = true ∨ (serve x d command io).2 = (x, d) ∨
    Shut (serve x d command io).2.1 (serve x d command io).2.2

theorem failsClosed_mutate (x : Session) (d : Disk) (request : Request) (io : Io) :
    FailsClosed x d (.mutate request) io := by
  have hended := mutate_ended x.writer d request io
  unfold FailsClosed serve
  dsimp only
  generalize mutate x.writer d request io = out at hended
  obtain ⟨reply, w, d'⟩ := out
  cases hended with
  | appended => exact .inl rfl
  | sealed => exact .inl rfl
  | rotated => exact .inl rfl
  | refused => exact .inr (.inl rfl)
  | uncertain => exact .inr (.inr (shut_of_poisoned rfl _))

theorem failsClosed_beginGroup (x : Session) (d : Disk) (admits : Bool) (io : Io) :
    FailsClosed x d (.beginGroup admits) io := by
  unfold FailsClosed serve
  dsimp only
  split
  · exact .inr (.inl rfl)
  · unfold beginGroup
    split
    · exact .inr (.inl rfl)
    · split
      · exact .inr (.inl rfl)
      · split
        · exact .inr (.inl rfl)
        · exact .inl rfl

theorem failsClosed_finishGroup (x : Session) (d : Disk) (owns : Bool) (io : Io) :
    FailsClosed x d (.finishGroup owns) io := by
  unfold FailsClosed serve
  dsimp only
  split
  · exact .inr (.inl rfl)
  · unfold finishGroup
    split
    · exact .inr (.inl rfl)
    · split
      · exact .inr (.inl rfl)
      · split
        · exact .inl rfl
        · exact .inr (.inr (shut_of_poisoned rfl _))

/-- The start of an online compaction is let in. -/
def Session.Lets (x : Session) (frontier : ℤ) (admits : Bool) : Prop :=
  x.writer.poisoned = false ∧ x.online = false ∧ admits = true ∧ frontier = (x.writer.nextSequence : ℤ) - 1

theorem failsClosed_compactOnline (x : Session) (d : Disk) (frontier : ℤ) (admits : Bool) (io : Io) :
    FailsClosed x d (.compactOnline frontier admits) io ↔
      ¬(x.Lets frontier admits ∧ Strands x.writer d io) := by
  have hspares := spares_rotate x.writer io d
  unfold FailsClosed serve startCompaction
  dsimp only
  split
  case isTrue hrefused =>
    refine ⟨fun _ ↦ ?_, fun _ ↦ .inr (.inl rfl)⟩
    rintro ⟨⟨hpoisoned, honline, hadmits, hfrontier⟩, -⟩
    simp [hpoisoned, honline, hadmits, hfrontier] at hrefused
  case isFalse hlets =>
    have hlets : x.Lets frontier admits := by
      simpa [Session.Lets, and_assoc] using hlets
    split
    case h_1 w d' hrotate =>
      refine ⟨fun _ h ↦ ?_, fun _ ↦ .inl rfl⟩
      refine hspares.mp (fun failure d' hfailed ↦ ?_) h.2
      rw [hrotate] at hfailed
      cases hfailed
    case h_2 failure d' hrotate =>
      constructor
      · rintro (hdone | hsame | hshut) ⟨-, hstrands⟩
        · cases hdone
        · refine hspares.mp (fun failure' d'' hfailed ↦ ?_) hstrands
          rw [hrotate] at hfailed
          cases hfailed
          exact congrArg Prod.snd hsame
        · exact Bool.false_ne_true (hlets.1.symm.trans hshut.1)
      · intro h
        have hd : d' = d := hspares.mpr (fun hstrands ↦ h ⟨hlets, hstrands⟩) failure d' hrotate
        rw [hd]
        exact .inr (.inl rfl)

/-- **A request that does not succeed changes nothing or shuts the writer**, and this is so in every
state and for every answer of the port, except for an online compaction that is let in and whose
rotation fails when some of it is on the disk. -/
theorem fails_closed (x : Session) (d : Disk) (command : Command) (io : Io) :
    FailsClosed x d command io ↔ ∀ frontier admits, command = .compactOnline frontier admits →
      ¬(x.Lets frontier admits ∧ Strands x.writer d io) := by
  cases command with
  | mutate request => exact ⟨fun _ _ _ h ↦ (by cases h), fun _ ↦ failsClosed_mutate x d request io⟩
  | beginGroup admits => exact ⟨fun _ _ _ h ↦ (by cases h), fun _ ↦ failsClosed_beginGroup x d admits io⟩
  | finishGroup owns => exact ⟨fun _ _ _ h ↦ (by cases h), fun _ ↦ failsClosed_finishGroup x d owns io⟩
  | compactOnline frontier admits =>
    constructor
    · intro h frontier' admits' hsame
      cases hsame
      exact (failsClosed_compactOnline x d frontier admits io).mp h
    · intro h
      exact (failsClosed_compactOnline x d frontier admits io).mpr (h frontier admits rfl)

/-- The footer is written and not synced. -/
theorem Holds.strands {w : Writer} {d : Disk} {earlier : List Stored} {last : Stored} {io : Io}
    (h : Holds w d earlier last false) (hrecords : last.records ≠ []) (hid : w.segment.id ≠ maxSegmentId)
    (hsequence : w.nextSequence ≤ maxSegmentId) (hcheck : io.ok .sealCheck = true)
    (hwrite : io.ok .footerWrite = true) (hsync : io.ok .footerSync = false) : Strands w d io := by
  have hsegment : w.segment = scanned last.header last.records := h.segment
  have hvalid : (footer w).Valid := by
    rw [h.footer_eq hrecords]
    exact h.written.footer hrecords
  have hseals : ¬Seals w io := fun hseals ↦
    Bool.false_ne_true (hsync.symm.trans (hseals.2 .footerSync (by simp)))
  refine ⟨hid, hsequence, ?_⟩
  rw [hsegment]
  refine ⟨fun hzero ↦ hrecords (List.length_eq_zero_iff.mp hzero), ⟨hcheck, hvalid⟩,
    fun hdone ↦ hseals hdone.1, .inl fun hsame ↦ ?_⟩
  -- the file has grown by the footer
  have hwritten : d.write (openBytes last.header last.records).length (sent w io) =
      ⟨earlier.map Stored.sealedFile,
        ⟨last.header.id, openBytes last.header last.records ++ sent w io⟩⟩ := by
    rw [h.disk]
    exact write_end _ _ _ _
  have hlength := congrArg (fun disk ↦ disk.highest.bytes.length) (hwritten.symm.trans hsame)
  have hfile : d.highest.bytes = openBytes last.header last.records := by
    rw [h.disk]
    rfl
  have hsent : (sent w io).length = 64 := by
    rw [sent, if_pos hwrite, hvalid.length_wire]
  simp only [List.length_append, hfile, hsent] at hlength
  omega

/-- A port that cannot sync a footer. -/
def unsynced : Io := ⟨fun step ↦ step != .footerSync, fun _ ↦ 0, false⟩

/-- After one record, a compaction is asked for, and the footer is written but cannot be synced. The
writer goes on with the segment as it was. -/
theorem compaction_stranded :
    ∃ s, files.run (Run.fresh sampleHeader minRotationBytes .sync)
        [.request (.append 1 1 [1, 2, 3]) sound] = some s ∧
      ¬FailsClosed ⟨s.writer, false⟩ s.disk (.compactOnline 1 true) unsynced := by
  have hinitial : files.initial (Run.fresh sampleHeader minRotationBytes .sync) :=
    ⟨sampleHeader, minRotationBytes, .sync, sampleHeader_valid, le_rfl, by decide, rfl⟩
  have hrun : ((files.run (Run.fresh sampleHeader minRotationBytes .sync)
      [.request (.append 1 1 [1, 2, 3]) sound]).any fun s ↦
        s.last.records.length == 1 && !s.writer.segment.sealed && s.writer.segment.id == 1 &&
          s.writer.nextSequence == 2 && !s.writer.poisoned) = true := by decide +kernel
  obtain ⟨s, hs, hresult⟩ := (Option.any_eq_true _ _).mp hrun
  simp only [Bool.and_eq_true, beq_iff_eq, Bool.not_eq_true'] at hresult
  obtain ⟨⟨⟨⟨hrecords, hopen⟩, hid⟩, hsequence⟩, hpoisoned⟩ := hresult
  refine ⟨s, hs, fun hclosed ↦ ?_⟩
  obtain ⟨closed, h⟩ := reachable_held (Machine.reachable_of_run hinitial hs)
  have hfalse : closed = false := by
    rw [h.segment] at hopen
    cases closed with
    | false => rfl
    | true => cases hopen
  rw [hfalse] at h
  refine (failsClosed_compactOnline _ _ _ _ _).mp hclosed ⟨⟨hpoisoned, rfl, rfl, ?_⟩, ?_⟩
  · show (1 : ℤ) = (s.writer.nextSequence : ℤ) - 1
    rw [hsequence]
    rfl
  · refine h.strands ?_ ?_ ?_ rfl rfl rfl
    · intro hnil
      rw [hnil] at hrecords
      cases hrecords
    · rw [hid]
      decide
    · rw [hsequence]
      decide

end Tay.SegmentOps
