import Tay.Engine.State
import Tay.Foundation.Run
import Tay.Storage.Scan

/-!
# The files of the writer

`Tay.Storage.Writer.SegmentOps`: how a record reaches the disk. An append goes into the active segment,
unless it would leave no room for a footer there; then the segment is sealed, and a successor is created,
published and opened first. Every step is a request to the native port and may fail; a write that fails
may have written some of its bytes, and a publication that fails may have happened. The footer, the header
and the record are the bytes of `Tay.Storage.Segment` and `Tay.Storage.Record`.

The run at the end keeps, beside the files, the records that were put into them. Every file is what these
records are written as, so that the parser gives back exactly them.
-/

open Foundation

namespace Tay.SegmentOps

open Physical

/-! ## Files -/

structure File where
  id : ℕ
  bytes : Binary
  deriving DecidableEq, Repr

/-- The canonical segment files. Only the highest one is ever written to. -/
structure Disk where
  earlier : List File
  highest : File
  deriving DecidableEq, Repr

/-- A write at an offset. -/
def Disk.write (d : Disk) (offset : ℕ) (bytes : Binary) : Disk :=
  { d with highest := ⟨d.highest.id,
    d.highest.bytes.take offset ++ bytes ++ d.highest.bytes.drop (offset + bytes.length)⟩ }

/-- A file appears under its canonical name. -/
def Disk.publish (d : Disk) (file : File) : Disk := ⟨d.earlier ++ [d.highest], file⟩

/-- The requests to the native port, by their place in the operation. -/
inductive Step
  | sealCheck
  | footerWrite
  | footerSync
  | footerClose
  | footerCheck
  | existingSync
  | stageCreate
  | headerWrite
  | headerSync
  | headerClose
  | publish
  | directorySync
  | successorCheck
  | activeOpen
  | openedCheck
  | appendWrite
  | appendSync
  | appendCheck
  | groupSync
  | groupCheck
  deriving DecidableEq, Repr

/-- What the port answers during one request of the writer. -/
structure Io where
  ok : Step → Bool
  /-- How much of a write that fails is on the disk. -/
  torn : Step → ℕ
  /-- A publication that fails has happened nevertheless. -/
  landed : Bool

inductive Refusal
  | sequenceExhausted
  | segmentIdExhausted
  deriving DecidableEq, Repr

inductive Failure
  /-- `{:reject, reason}`: nothing was attempted. -/
  | reject (reason : Refusal)
  | io (step : Step)
  | segment (error : SegmentError)
  | successorMismatch
  deriving DecidableEq, Repr

/-- An operation on the files that may fail at any step. -/
def Action (α : Type) : Type := Disk → Except Failure α × Disk

namespace Action

/-- What follows an operation, if it succeeds. -/
def andThen {α β : Type} (f : α → Action β) : Except Failure α × Disk → Except Failure β × Disk
  | (.ok a, d) => f a d
  | (.error e, d) => (.error e, d)

instance : Monad Action where
  pure a := fun d ↦ (.ok a, d)
  bind x f := fun d ↦ andThen f (x d)

/-- A step without an effect on the canonical files. -/
def perform (io : Io) (step : Step) : Action Unit :=
  fun d ↦ (if io.ok step then .ok () else .error (.io step), d)

def write (io : Io) (step : Step) (offset : ℕ) (bytes : Binary) : Action Unit :=
  fun d ↦ if io.ok step then (.ok (), d.write offset bytes)
    else (.error (.io step), d.write offset (bytes.take (io.torn step)))

def publish (io : Io) (file : File) : Action Unit :=
  fun d ↦ if io.ok .publish then (.ok (), d.publish file)
    else (.error (.io .publish), if io.landed then d.publish file else d)

def reject {α : Type} (reason : Refusal) : Action α := fun d ↦ (.error (.reject reason), d)

/-- An encoding or a decoding within an operation. -/
def lift {α : Type} (x : Except SegmentError α) : Action α :=
  fun d ↦ (match x with | .ok a => .ok a | .error e => .error (.segment e), d)

def guard (b : Bool) (failure : Failure) : Action Unit :=
  fun d ↦ (if b then .ok () else .error failure, d)

end Action

/-! ## The writer -/

inductive SyncMode
  | write
  | sync
  deriving DecidableEq, Repr

structure Writer where
  segment : Segment
  nextSequence : ℕ
  storeId : Binary
  rotationTargetBytes : ℕ
  durability : SyncMode
  /-- The records of an open group. -/
  groupCommit : Option ℕ
  poisoned : Bool
  deriving DecidableEq

/-- What `seal` writes. -/
def footer (w : Writer) : Footer where
  id := w.segment.id
  firstSequence := w.segment.firstSequence
  lastSequence := w.segment.lastSequence.getD 0
  count := w.segment.count
  storeId := w.storeId
  segmentCrc := (w.segment.crcState.bind CRC32C.finalize).getD 0

/-- `seal`. -/
def sealSegment (w : Writer) (io : Io) : Action Writer := do
  Action.perform io .sealCheck
  let bytes ← Action.lift (footer w).encode
  Action.write io .footerWrite w.segment.bytes bytes
  Action.perform io .footerSync
  Action.perform io .footerClose
  Action.perform io .footerCheck
  return { w with segment := { w.segment with
    sealed := true, footer := some (footer w), bytes := w.segment.bytes + 64 } }

/-- The header of a successor. -/
def successorHeader (w : Writer) : Header := ⟨w.segment.id + 1, w.nextSequence, w.storeId⟩

/-- `create_successor`; what goes to the stage is published as it is. -/
def createSuccessor (w : Writer) (io : Io) : Action Writer := do
  Action.perform io .existingSync
  let bytes ← Action.lift (successorHeader w).encode
  Action.perform io .stageCreate
  Action.perform io .headerWrite
  Action.perform io .headerSync
  Action.perform io .headerClose
  Action.publish io ⟨w.segment.id + 1, bytes⟩
  Action.perform io .directorySync
  let header ← Action.lift (decodeSegmentHeader bytes (some (w.segment.id + 1)) (some w.storeId))
  Action.guard (header.firstSequence == w.nextSequence) .successorMismatch
  Action.perform io .successorCheck
  Action.perform io .activeOpen
  Action.perform io .openedCheck
  return { w with segment :=
    { id := header.id, firstSequence := header.firstSequence, storeId := header.storeId
      crcState := CRC32C.update CRC32C.initial bytes } }

/-- `rotate`. -/
def rotate (w : Writer) (io : Io) : Action Writer :=
  if !w.segment.sealed && w.segment.count == 0 then pure w
  else if w.segment.id == maxSegmentId then Action.reject .segmentIdExhausted
  else if maxSegmentId < w.nextSequence then Action.reject .sequenceExhausted
  else if w.segment.sealed then createSuccessor w io
  else do
    let closed ← sealSegment w io
    createSuccessor closed io

/-- `sync_append`. -/
def syncAppend (w : Writer) (io : Io) : Action Unit :=
  if w.durability = .write || w.groupCommit.isSome then pure () else Action.perform io .appendSync

/-- `check_append`. -/
def checkAppend (w : Writer) (io : Io) : Action Unit :=
  if w.groupCommit.isSome then pure () else Action.perform io .appendCheck

/-- `append_bytes`. -/
def appendBytes (w : Writer) (bytes : Binary) (io : Io) : Action (Writer × Receipt) := do
  Action.write io .appendWrite w.segment.bytes bytes
  syncAppend w io
  checkAppend w io
  return ({ w with
    segment := { w.segment with
      lastSequence := some w.nextSequence
      count := w.segment.count + 1
      bytes := w.segment.bytes + bytes.length
      crcState := w.segment.crcState.bind (CRC32C.update · bytes) }
    nextSequence := w.nextSequence + 1
    groupCommit := w.groupCommit.map (· + 1) },
    ⟨w.nextSequence, w.segment.id, w.segment.bytes⟩)

/-- Whether an append makes the writer try to rotate. -/
def mustRotate (w : Writer) (bytes : Binary) : Bool :=
  w.segment.sealed || w.rotationTargetBytes < w.segment.bytes + bytes.length + 64

/-- `append_with_capacity`. -/
def appendWithCapacity (w : Writer) (bytes : Binary) (io : Io) : Action (Writer × Receipt) :=
  if mustRotate w bytes then do
    let next ← rotate w io
    appendBytes next bytes io
  else appendBytes w bytes io

/-! ## Requests -/

inductive Request
  | append (type schema : ℕ) (payload : Binary)
  | sealSegment
  | rotate
  deriving DecidableEq, Repr

inductive Reply
  | appended (receipt : Receipt)
  | done
  | refused (reason : Refusal)
  | invalidRecord (error : RecordError)
  | alreadySealed
  | emptySegment
  | uncertain (failure : Failure)
  | poisoned
  deriving DecidableEq, Repr

/-- The record of an append. -/
def candidate (w : Writer) (type schema : ℕ) (payload : Binary) : Physical.Record where
  recordType := type
  payloadSchemaVersion := schema
  sequence := w.nextSequence
  payload := payload

/-- What `mutate` makes of a failure. -/
def failed (w : Writer) (d : Disk) : Failure → Reply × Writer × Disk
  | .reject reason => (.refused reason, w, d)
  | failure => (.uncertain failure, { w with poisoned := true }, d)

/-- `mutate`; a poisoned writer refuses before. -/
def mutate (w : Writer) (d : Disk) (request : Request) (io : Io) : Reply × Writer × Disk :=
  if w.poisoned then (.poisoned, w, d)
  else match request with
    | .append type schema payload =>
      -- `encode_candidate`
      if maxSegmentId < w.nextSequence then (.refused .sequenceExhausted, w, d)
      else match (candidate w type schema payload).encode with
        | .error error => (.invalidRecord error, w, d)
        | .ok bytes =>
          match appendWithCapacity w bytes io d with
          | (.ok (next, receipt), d') => (.appended receipt, next, d')
          | (.error failure, d') => failed w d' failure
    | .sealSegment =>
      if w.segment.sealed then (.alreadySealed, w, d)
      else if w.segment.count == 0 then (.emptySegment, w, d)
      else match sealSegment w io d with
        | (.ok next, d') => (.done, next, d')
        | (.error failure, d') => (.uncertain failure, { w with poisoned := true }, d')
    | .rotate =>
      match rotate w io d with
      | (.ok next, d') => (.done, next, d')
      | (.error failure, d') => failed w d' failure

/-! ## Steps that succeed -/

namespace Action

variable {α β : Type} {io : Io} {step : Step} {d d' : Disk}

theorem bind_ok {x : Action α} {f : α → Action β} {b : β} :
    (x >>= f) d = (.ok b, d') ↔ ∃ a d'', x d = (.ok a, d'') ∧ f a d'' = (.ok b, d') := by
  show andThen f (x d) = _ ↔ _
  constructor
  · intro h
    cases hx : x d with
    | mk result d'' =>
      rw [hx] at h
      cases result with
      | error e => cases h
      | ok a => exact ⟨a, d'', rfl, h⟩
  · rintro ⟨a, d'', hx, hf⟩
    rw [hx]
    exact hf

theorem pure_ok {a b : α} : (pure a : Action α) d = (.ok b, d') ↔ b = a ∧ d' = d := by
  show (Except.ok a, d) = (.ok b, d') ↔ _
  constructor
  · intro h
    cases h
    exact ⟨rfl, rfl⟩
  · rintro ⟨rfl, rfl⟩
    rfl

theorem perform_bind {f : Unit → Action β} {b : β} : (perform io step >>= f) d = (.ok b, d') ↔
    io.ok step = true ∧ f () d = (.ok b, d') := by
  show andThen f (perform io step d) = _ ↔ _
  unfold perform
  cases io.ok step <;> simp [andThen]

theorem write_bind {f : Unit → Action β} {b : β} {offset : ℕ} {bytes : Binary} :
    (write io step offset bytes >>= f) d = (.ok b, d') ↔
      io.ok step = true ∧ f () (d.write offset bytes) = (.ok b, d') := by
  show andThen f (write io step offset bytes d) = _ ↔ _
  unfold write
  cases io.ok step <;> simp [andThen]

theorem publish_bind {f : Unit → Action β} {b : β} {file : File} :
    (publish io file >>= f) d = (.ok b, d') ↔
      io.ok .publish = true ∧ f () (d.publish file) = (.ok b, d') := by
  show andThen f (publish io file d) = _ ↔ _
  unfold publish
  cases io.ok .publish <;> simp [andThen]

theorem lift_bind {x : Except SegmentError α} {f : α → Action β} {b : β} :
    (lift x >>= f) d = (.ok b, d') ↔ ∃ a, x = .ok a ∧ f a d = (.ok b, d') := by
  show andThen f (lift x d) = _ ↔ _
  unfold lift
  cases x <;> simp [andThen]

theorem guard_bind {f : Unit → Action β} {b : β} {test : Bool} {failure : Failure} :
    (guard test failure >>= f) d = (.ok b, d') ↔ test = true ∧ f () d = (.ok b, d') := by
  show andThen f (guard test failure d) = _ ↔ _
  unfold guard
  cases test <;> simp [andThen]

end Action

/-- The footer goes to the end of the segment. -/
theorem sealSegment_ok {w w' : Writer} {io : Io} {d d' : Disk}
    (h : sealSegment w io d = (.ok w', d')) :
    (footer w).Valid ∧ d' = d.write w.segment.bytes (CRC32C.checked (footer w).body) ∧
      w' = { w with segment := { w.segment with
        sealed := true, footer := some (footer w), bytes := w.segment.bytes + 64 } } := by
  obtain ⟨-, h⟩ := Action.perform_bind.mp h
  obtain ⟨bytes, hencoded, h⟩ := Action.lift_bind.mp h
  obtain ⟨-, h⟩ := Action.write_bind.mp h
  obtain ⟨-, h⟩ := Action.perform_bind.mp h
  obtain ⟨-, h⟩ := Action.perform_bind.mp h
  obtain ⟨-, h⟩ := Action.perform_bind.mp h
  obtain ⟨rfl, rfl⟩ := Action.pure_ok.mp h
  obtain ⟨hvalid, rfl⟩ := Footer.encode_eq_ok.mp hencoded
  exact ⟨hvalid, rfl, rfl⟩

/-- A successor is a file with a header and nothing else. -/
theorem createSuccessor_ok {w w' : Writer} {io : Io} {d d' : Disk}
    (h : createSuccessor w io d = (.ok w', d')) :
    (successorHeader w).Valid ∧
      d' = d.publish ⟨w.segment.id + 1, openBytes (successorHeader w) []⟩ ∧
      w' = { w with segment := scanned (successorHeader w) [] } := by
  obtain ⟨-, h⟩ := Action.perform_bind.mp h
  obtain ⟨bytes, hencoded, h⟩ := Action.lift_bind.mp h
  obtain ⟨-, h⟩ := Action.perform_bind.mp h
  obtain ⟨-, h⟩ := Action.perform_bind.mp h
  obtain ⟨-, h⟩ := Action.perform_bind.mp h
  obtain ⟨-, h⟩ := Action.perform_bind.mp h
  obtain ⟨-, h⟩ := Action.publish_bind.mp h
  obtain ⟨-, h⟩ := Action.perform_bind.mp h
  obtain ⟨header, hdecoded, h⟩ := Action.lift_bind.mp h
  obtain ⟨-, h⟩ := Action.guard_bind.mp h
  obtain ⟨-, h⟩ := Action.perform_bind.mp h
  obtain ⟨-, h⟩ := Action.perform_bind.mp h
  obtain ⟨-, h⟩ := Action.perform_bind.mp h
  obtain ⟨rfl, rfl⟩ := Action.pure_ok.mp h
  obtain ⟨hvalid, rfl⟩ := Header.encode_eq_ok.mp hencoded
  have hback : decodeSegmentHeader (CRC32C.checked (successorHeader w).body) (some (w.segment.id + 1))
      (some w.storeId) = .ok (successorHeader w) :=
    Header.Valid.decode_wire hvalid (fun e he ↦ by cases he; rfl) (fun e he ↦ by cases he; rfl)
  have hheader : header = successorHeader w := Except.ok.inj (hdecoded.symm.trans hback)
  have hempty : openBytes (successorHeader w) [] = CRC32C.checked (successorHeader w).body :=
    List.append_nil _
  refine ⟨hvalid, by rw [hempty], ?_⟩
  rw [hheader, scanned, hempty, hvalid.length_wire]
  rfl

/-- An append that succeeds puts its bytes at the end of the segment. -/
theorem appendBytes_ok {w : Writer} {bytes : Binary} {io : Io} {d d' : Disk} {out : Writer × Receipt}
    (h : appendBytes w bytes io d = (.ok out, d')) :
    d' = d.write w.segment.bytes bytes ∧ out = ({ w with
      segment := { w.segment with
        lastSequence := some w.nextSequence
        count := w.segment.count + 1
        bytes := w.segment.bytes + bytes.length
        crcState := w.segment.crcState.bind (CRC32C.update · bytes) }
      nextSequence := w.nextSequence + 1
      groupCommit := w.groupCommit.map (· + 1) },
      ⟨w.nextSequence, w.segment.id, w.segment.bytes⟩) := by
  obtain ⟨-, h⟩ := Action.write_bind.mp h
  obtain ⟨_, d₁, hsync, h⟩ := Action.bind_ok.mp h
  obtain ⟨_, d₂, hcheck, h⟩ := Action.bind_ok.mp h
  obtain ⟨rfl, hd⟩ := Action.pure_ok.mp h
  have hsynced : d₁ = d.write w.segment.bytes bytes := by
    unfold syncAppend at hsync
    split at hsync
    case isTrue => exact (Action.pure_ok.mp hsync).2
    case isFalse => exact (congrArg Prod.snd hsync).symm
  have hchecked : d₂ = d₁ := by
    unfold checkAppend at hcheck
    split at hcheck
    case isTrue => exact (Action.pure_ok.mp hcheck).2
    case isFalse => exact (congrArg Prod.snd hcheck).symm
  exact ⟨by rw [hd, hchecked, hsynced], rfl⟩

/-! ## What the files hold -/

/-- A segment by what was put into it. -/
structure Stored where
  header : Header
  records : List Physical.Record

namespace Stored

def openFile (s : Stored) : File := ⟨s.header.id, openBytes s.header s.records⟩

def sealedFile (s : Stored) : File := ⟨s.header.id, sealedBytes s.header s.records⟩

/-- The segment that a scan of the sealed file gives. -/
def sealedSegment (s : Stored) : Segment :=
  { scanned s.header s.records with
    sealed := true
    footer := some (footerOf s.header s.records)
    bytes := (sealedBytes s.header s.records).length }

/-- The file, and what is known of it, before or after it was sealed. -/
def file (s : Stored) (closed : Bool) : File := if closed then s.sealedFile else s.openFile

def segment (s : Stored) (closed : Bool) : Segment :=
  if closed then s.sealedSegment else scanned s.header s.records

def Whole (s : Stored) : Prop := Written s.header s.records ∧ s.records ≠ []

end Stored

/-- The files are the segments, and the writer knows where the highest one ends. -/
structure Holds (w : Writer) (d : Disk) (earlier : List Stored) (last : Stored) (closed : Bool) :
    Prop where
  target : minRotationBytes ≤ w.rotationTargetBytes ∧ w.rotationTargetBytes ≤ maxBytes
  disk : d = ⟨earlier.map Stored.sealedFile, last.file closed⟩
  segment : w.segment = last.segment closed
  sequence : w.nextSequence = last.header.firstSequence + last.records.length
  storeId : w.storeId = last.header.storeId
  written : Written last.header last.records
  closed : closed = true → last.records ≠ []
  earlier : ∀ s ∈ earlier, s.Whole

theorem write_end (earlier : List File) (id : ℕ) (content bytes : Binary) :
    Disk.write ⟨earlier, ⟨id, content⟩⟩ content.length bytes = ⟨earlier, ⟨id, content ++ bytes⟩⟩ := by
  have hbehind : content.drop (content.length + bytes.length) = [] :=
    List.drop_eq_nil_of_le (Nat.le_add_right _ _)
  rw [Disk.write]
  dsimp only
  rw [List.take_length, hbehind, List.append_nil]

theorem length_sealed {s : Stored} (h : s.Whole) :
    (sealedBytes s.header s.records).length = (openBytes s.header s.records).length + 64 := by
  rw [sealedBytes, List.length_append, (h.1.footer h.2).length_wire]

section Holds

variable {w w' : Writer} {d d' : Disk} {earlier : List Stored} {last : Stored} {io : Io}

/-- The footer counts what is in the segment. -/
theorem Holds.footer_eq (h : Holds w d earlier last false) (hrecords : last.records ≠ []) :
    footer w = footerOf last.header last.records := by
  have hcrc : CRC32C.checksum (openBytes last.header last.records) =
      (scanned last.header last.records).crcState.bind CRC32C.finalize := rfl
  have hsegment : w.segment = scanned last.header last.records := h.segment
  rw [footer, hsegment, h.storeId, footerOf, hcrc, scanned, if_neg hrecords]
  rfl

/-- Sealing an open segment with records. -/
theorem Holds.sealSegment (h : Holds w d earlier last false) (hrecords : last.records ≠ [])
    (hseal : sealSegment w io d = (.ok w', d')) : Holds w' d' earlier last true := by
  obtain ⟨-, hd, hw⟩ := sealSegment_ok hseal
  have hsegment : w.segment = scanned last.header last.records := h.segment
  have hfooter := h.footer_eq hrecords
  have hbytes : w.segment.bytes = (openBytes last.header last.records).length := by
    rw [hsegment]
    rfl
  have hwhole : last.Whole := ⟨h.written, hrecords⟩
  refine ⟨by rw [hw]; exact h.target, ?_, ?_, by rw [hw]; exact h.sequence, by rw [hw]; exact h.storeId,
    h.written, fun _ ↦ hrecords, h.earlier⟩
  · rw [hd, h.disk, hfooter, hbytes]
    exact write_end _ _ _ _
  · rw [hw]
    show { w.segment with sealed := true, footer := some (footer w), bytes := w.segment.bytes + 64 } =
      last.sealedSegment
    rw [hfooter, Stored.sealedSegment, length_sealed hwhole, hbytes, hsegment]

/-- A successor of a sealed segment. -/
theorem Holds.createSuccessor (h : Holds w d earlier last true)
    (hcreate : createSuccessor w io d = (.ok w', d')) :
    Holds w' d' (earlier ++ [last]) ⟨successorHeader w, []⟩ false := by
  obtain ⟨hvalid, hd, hw⟩ := createSuccessor_ok hcreate
  have hwhole : last.Whole := ⟨h.written, h.closed rfl⟩
  refine ⟨by rw [hw]; exact h.target, ?_, by rw [hw]; rfl, by rw [hw]; rfl, by rw [hw]; rfl, ?_, ?_, ?_⟩
  · rw [hd, h.disk, Disk.publish, List.map_append]
    rfl
  · refine ⟨hvalid, trivial, ?_⟩
    have hempty : openBytes (successorHeader w) [] = CRC32C.checked (successorHeader w).body :=
      List.append_nil _
    rw [hempty, hvalid.length_wire]
    decide
  · intro hfalse
    cases hfalse
  · intro s hs
    rcases List.mem_append.mp hs with hs | hs
    · exact h.earlier s hs
    · rw [List.mem_singleton.mp hs]
      exact hwhole

/-- What a rotation that succeeds leaves. -/
theorem Holds.rotate {closed : Bool} (h : Holds w d earlier last closed)
    (hrotate : rotate w io d = (.ok w', d')) :
    (closed = false ∧ last.records = [] ∧ w' = w ∧ d' = d) ∨
      Holds w' d' (earlier ++ [last]) ⟨successorHeader w, []⟩ false := by
  have hsealed : w.segment.sealed = closed := by
    rw [h.segment]
    cases closed <;> rfl
  have hcount : w.segment.count = last.records.length := by
    rw [h.segment]
    cases closed <;> rfl
  unfold SegmentOps.rotate at hrotate
  split at hrotate
  case isTrue hempty =>
    rw [Bool.and_eq_true, Bool.not_eq_true', hsealed, beq_iff_eq, hcount] at hempty
    obtain ⟨hw, hd⟩ := Action.pure_ok.mp hrotate
    exact .inl ⟨hempty.1, List.length_eq_zero_iff.mp hempty.2, hw, hd⟩
  case isFalse hempty =>
    refine .inr ?_
    split at hrotate
    case isTrue => cases hrotate
    case isFalse =>
      split at hrotate
      case isTrue => cases hrotate
      case isFalse =>
        split at hrotate
        case isTrue hclosed =>
          rw [hsealed] at hclosed
          subst hclosed
          exact h.createSuccessor hrotate
        case isFalse hclosed =>
          rw [hsealed, Bool.not_eq_true] at hclosed
          subst hclosed
          have hrecords : last.records ≠ [] := by
            intro hnil
            refine hempty ?_
            rw [hsealed, hcount, hnil]
            rfl
          obtain ⟨closed, d₁, hseal, hcreate⟩ := Action.bind_ok.mp hrotate
          have hsame : successorHeader closed = successorHeader w := by
            obtain ⟨-, -, hw⟩ := sealSegment_ok hseal
            rw [hw]
            rfl
          rw [← hsame]
          exact (h.sealSegment hrecords hseal).createSuccessor hcreate

/-- A record goes to the end of an open segment that has room for it. -/
theorem Holds.append {r : Physical.Record} {receipt : Receipt} (h : Holds w d earlier last false)
    (hr : r.Valid) (hsequence : r.sequence = w.nextSequence)
    (hroom : w.segment.bytes + r.wire.length + 64 ≤ maxBytes)
    (happend : appendBytes w r.wire io d = (.ok (w', receipt), d')) :
    Holds w' d' earlier ⟨last.header, last.records ++ [r]⟩ false := by
  obtain ⟨hd, hout⟩ := appendBytes_ok happend
  obtain ⟨rfl, -⟩ := Prod.mk.inj hout
  have hsegment : w.segment = scanned last.header last.records := h.segment
  have hbytes : w.segment.bytes = (openBytes last.header last.records).length := by
    rw [hsegment]
    rfl
  have hopen : openBytes last.header (last.records ++ [r]) =
      openBytes last.header last.records ++ r.wire := by
    rw [openBytes_append, recordBytes_singleton]
  have hnumber := hsequence.trans h.sequence
  refine ⟨h.target, ?_, ?_, ?_, h.storeId, ⟨h.written.header, ?_, ?_⟩, ?_, h.earlier⟩
  · rw [hd, h.disk, hbytes]
    show Disk.write ⟨_, ⟨last.header.id, openBytes last.header last.records⟩⟩ _ _ = _
    rw [write_end, ← hopen]
    rfl
  · show _ = scanned last.header (last.records ++ [r])
    rw [hsegment, ← hsequence, hnumber, scanned_append]
  · show w.nextSequence + 1 = _
    rw [h.sequence, List.length_append, List.length_singleton, Nat.add_assoc]
  · exact numbered_append.mpr ⟨h.written.numbered, hr, hnumber, trivial⟩
  · rw [hopen, List.length_append, ← hbytes]
    exact hroom
  · intro hfalse
    cases hfalse

end Holds

/-- Whether an append of these bytes goes into a successor. -/
def rotates (w : Writer) (bytes : Binary) : Bool := 0 < w.segment.count && mustRotate w bytes

/-- What an append that succeeds has done. -/
inductive Appended (w : Writer) (d : Disk) (earlier : List Stored) (last : Stored) (r : Physical.Record) :
    Receipt → Writer → Disk → Prop
  | here {w' : Writer} {d' : Disk} : rotates w r.wire = false →
      Holds w' d' earlier ⟨last.header, last.records ++ [r]⟩ false →
      Appended w d earlier last r ⟨w.nextSequence, w.segment.id, w.segment.bytes⟩ w' d'
  | successor {w' : Writer} {d' : Disk} : rotates w r.wire = true →
      Holds w' d' (earlier ++ [last]) ⟨successorHeader w, [r]⟩ false →
      Appended w d earlier last r ⟨w.nextSequence, w.segment.id + 1, 44⟩ w' d'

section Append

variable {w w' : Writer} {d d' : Disk} {earlier : List Stored} {last : Stored} {closed : Bool} {io : Io}
  {receipt : Receipt}

theorem length_wire_le {r : Physical.Record} (hr : r.Valid) : 44 + r.wire.length + 64 ≤ minRotationBytes := by
  have hpayload := hr.payload
  unfold hardPayloadMax at hpayload
  rw [r.length_wire]
  unfold minRotationBytes
  omega

theorem Holds.appendBytes_receipt {bytes : Binary} {out : Writer × Receipt}
    (h : appendBytes w bytes io d = (.ok out, d')) :
    out.2 = ⟨w.nextSequence, w.segment.id, w.segment.bytes⟩ := by
  rw [(appendBytes_ok h).2]

/-- Into the segment that is there, after a rotation, or after none because the segment is empty. -/
theorem Holds.appendWithCapacity {r : Physical.Record} (h : Holds w d earlier last closed) (hr : r.Valid)
    (hsequence : r.sequence = w.nextSequence)
    (happend : appendWithCapacity w r.wire io d = (.ok (w', receipt), d')) :
    Appended w d earlier last r receipt w' d' := by
  have hcount : w.segment.count = last.records.length := by
    rw [h.segment]
    cases closed <;> rfl
  have hbound := length_wire_le hr
  have htarget := h.target
  unfold SegmentOps.appendWithCapacity at happend
  split at happend
  case isFalse hstay =>
    rw [Bool.not_eq_true] at hstay
    have hrotates : rotates w r.wire = false := by rw [rotates, hstay, Bool.and_false]
    rw [mustRotate, Bool.or_eq_false_iff, decide_eq_false_iff_not] at hstay
    have hopen : closed = false := by
      have hsealed := hstay.1
      rw [h.segment] at hsealed
      cases closed with
      | false => rfl
      | true => cases hsealed
    subst hopen
    have hreceipt := appendBytes_receipt happend
    dsimp only at hreceipt
    subst hreceipt
    exact .here hrotates (h.append hr hsequence (by omega) happend)
  case isTrue hmust =>
    obtain ⟨next, d₁, hrotate, hbytes⟩ := Action.bind_ok.mp happend
    have hreceipt := appendBytes_receipt hbytes
    dsimp only at hreceipt
    subst hreceipt
    rcases h.rotate hrotate with ⟨rfl, hempty, hw, hd⟩ | hnext
    · rw [hw, hd] at hbytes
      rw [hw]
      have hrotates : rotates w r.wire = false := by
        rw [rotates, hcount, hempty]
        rfl
      have hoffset : w.segment.bytes = 44 := by
        rw [h.segment]
        show (openBytes last.header last.records).length = 44
        rw [hempty, h.written.length_nil]
      exact .here hrotates (h.append hr hsequence (by omega) hbytes)
    · have hsegment : next.segment = scanned (successorHeader w) [] := hnext.segment
      have hvalid : (successorHeader w).Valid := hnext.written.header
      have hoffset : next.segment.bytes = 44 := by
        rw [hsegment]
        exact hnext.written.length_nil
      have hnumber : next.nextSequence = w.nextSequence := hnext.sequence
      have hid : next.segment.id = w.segment.id + 1 := by rw [hsegment]; rfl
      have hrotates : rotates w r.wire = true := by
        rw [rotates, hmust, Bool.and_true, decide_eq_true_eq, hcount]
        have hrecords : last.records ≠ [] := (hnext.earlier last (by simp)).2
        exact List.length_pos_iff.mpr hrecords
      have hnexttarget := hnext.target
      rw [hnumber, hid, hoffset]
      exact .successor hrotates (hnext.append hr (by rw [hnumber, hsequence]) (by omega) hbytes)

/-- An append request that is answered with a receipt. -/
theorem Holds.mutate_append {type schema : ℕ} {payload : Binary} (h : Holds w d earlier last closed)
    (hmutate : mutate w d (.append type schema payload) io = (.appended receipt, w', d')) :
    (candidate w type schema payload).Valid ∧
      Appended w d earlier last (candidate w type schema payload) receipt w' d' := by
  unfold mutate at hmutate
  split at hmutate
  case isTrue => cases hmutate
  case isFalse =>
    dsimp only at hmutate
    split at hmutate
    case isTrue => cases hmutate
    case isFalse =>
      split at hmutate
      case h_1 => cases hmutate
      case h_2 bytes hencoded =>
        obtain ⟨hvalid, rfl⟩ := Physical.Record.encode_eq_ok.mp hencoded
        split at hmutate
        case h_1 next receipt' d₁ happend =>
          obtain ⟨hreply, hrest⟩ := Prod.mk.inj hmutate
          obtain ⟨rfl, rfl⟩ := Prod.mk.inj hrest
          cases hreply
          exact ⟨hvalid, h.appendWithCapacity hvalid rfl happend⟩
        case h_2 failure d₁ _ =>
          unfold failed at hmutate
          split at hmutate
          · cases hmutate
          · cases hmutate

end Append

/-! ## Refusals -/

/-- An operation that never refuses: what it fails with is a failure of a step. -/
def Firm {α : Type} (x : Action α) : Prop := ∀ d reason, (x d).1 ≠ .error (.reject reason)

theorem Firm.bind {α β : Type} {x : Action α} {f : α → Action β} (hx : Firm x) (hf : ∀ a, Firm (f a)) :
    Firm (x >>= f) := by
  intro d reason
  show (Action.andThen f (x d)).1 ≠ _
  have hfirst := hx d reason
  cases hd : x d with
  | mk result d' =>
    rw [hd] at hfirst
    cases result with
    | ok a => exact hf a d' reason
    | error e =>
      intro heq
      have hfailure : (Except.error e : Except Failure β) = .error (.reject reason) := heq
      exact hfirst (congrArg Except.error (Except.error.inj hfailure))

theorem firm_pure {α : Type} (a : α) : Firm (pure a : Action α) := by
  intro d reason heq
  cases heq

theorem firm_perform (io : Io) (step : Step) : Firm (Action.perform io step) := by
  intro d reason
  unfold Action.perform
  cases io.ok step <;> simp

theorem firm_write (io : Io) (step : Step) (offset : ℕ) (bytes : Binary) :
    Firm (Action.write io step offset bytes) := by
  intro d reason
  unfold Action.write
  cases io.ok step <;> simp

theorem firm_publish (io : Io) (file : File) : Firm (Action.publish io file) := by
  intro d reason
  unfold Action.publish
  cases io.ok .publish <;> simp

theorem firm_lift {α : Type} (x : Except SegmentError α) : Firm (Action.lift x) := by
  intro d reason
  unfold Action.lift
  cases x <;> simp

theorem firm_mismatch (test : Bool) : Firm (Action.guard test .successorMismatch) := by
  intro d reason
  unfold Action.guard
  cases test <;> simp

theorem firm_sealSegment (w : Writer) (io : Io) : Firm (sealSegment w io) := by
  refine (firm_perform io _).bind fun _ ↦ (firm_lift _).bind fun _ ↦ (firm_write io _ _ _).bind fun _ ↦ ?_
  refine (firm_perform io _).bind fun _ ↦ (firm_perform io _).bind fun _ ↦ ?_
  exact (firm_perform io _).bind fun _ ↦ firm_pure _

theorem firm_createSuccessor (w : Writer) (io : Io) : Firm (createSuccessor w io) := by
  refine (firm_perform io _).bind fun _ ↦ (firm_lift _).bind fun _ ↦ (firm_perform io _).bind fun _ ↦ ?_
  refine (firm_perform io _).bind fun _ ↦ (firm_perform io _).bind fun _ ↦ ?_
  refine (firm_perform io _).bind fun _ ↦ (firm_publish io _).bind fun _ ↦ ?_
  refine (firm_perform io _).bind fun _ ↦ (firm_lift _).bind fun _ ↦ (firm_mismatch _).bind fun _ ↦ ?_
  refine (firm_perform io _).bind fun _ ↦ (firm_perform io _).bind fun _ ↦ ?_
  exact (firm_perform io _).bind fun _ ↦ firm_pure _

theorem firm_appendBytes (w : Writer) (bytes : Binary) (io : Io) : Firm (appendBytes w bytes io) := by
  have hsync : Firm (syncAppend w io) := by
    unfold syncAppend
    split
    · exact firm_pure _
    · exact firm_perform io _
  have hcheck : Firm (checkAppend w io) := by
    unfold checkAppend
    split
    · exact firm_pure _
    · exact firm_perform io _
  exact (firm_write io _ _ _).bind fun _ ↦ hsync.bind fun _ ↦ hcheck.bind fun _ ↦ firm_pure _

/-- A rotation refuses before it has touched anything. -/
theorem rotate_reject {w : Writer} {io : Io} {d d' : Disk} {reason : Refusal}
    (h : rotate w io d = (.error (.reject reason), d')) : d' = d := by
  unfold rotate at h
  split at h
  case isTrue => cases h
  case isFalse =>
    split at h
    case isTrue =>
      cases h
      rfl
    case isFalse =>
      split at h
      case isTrue =>
        cases h
        rfl
      case isFalse =>
        split at h
        case isTrue => exact absurd (congrArg Prod.fst h) (firm_createSuccessor w io d reason)
        case isFalse =>
          exact absurd (congrArg Prod.fst h)
            ((firm_sealSegment w io).bind (fun closed ↦ firm_createSuccessor closed io) d reason)

theorem appendWithCapacity_reject {w : Writer} {bytes : Binary} {io : Io} {d d' : Disk}
    {reason : Refusal} (h : appendWithCapacity w bytes io d = (.error (.reject reason), d')) : d' = d := by
  unfold appendWithCapacity at h
  split at h
  case isFalse => exact absurd (congrArg Prod.fst h) (firm_appendBytes w bytes io d reason)
  case isTrue =>
    have hbind : Action.andThen (fun next ↦ appendBytes next bytes io) (rotate w io d) =
        (.error (.reject reason), d') := h
    cases hrotate : rotate w io d with
    | mk result d₁ =>
      rw [hrotate] at hbind
      cases result with
      | ok next => exact absurd (congrArg Prod.fst hbind) (firm_appendBytes next bytes io d₁ reason)
      | error e =>
        cases hbind
        exact rotate_reject hrotate

/-- The ways a request can end. -/
inductive Ended (w : Writer) (d : Disk) (request : Request) (io : Io) : Reply → Writer → Disk → Prop
  | appended {type schema : ℕ} {payload : Binary} {receipt : Receipt} {w' : Writer} {d' : Disk} :
      request = .append type schema payload → Ended w d request io (.appended receipt) w' d'
  | sealed {w' : Writer} {d' : Disk} : request = .sealSegment → w.segment.sealed = false →
      w.segment.count ≠ 0 → sealSegment w io d = (.ok w', d') → Ended w d request io .done w' d'
  | rotated {w' : Writer} {d' : Disk} : request = .rotate → rotate w io d = (.ok w', d') →
      Ended w d request io .done w' d'
  | refused {reply : Reply} : (∀ receipt, reply ≠ .appended receipt) → reply ≠ .done →
      (∀ f, reply ≠ .uncertain f) → Ended w d request io reply w d
  | uncertain {failure : Failure} {d' : Disk} :
      Ended w d request io (.uncertain failure) { w with poisoned := true } d'

theorem ended_refused {w : Writer} {d : Disk} {request : Request} {io : Io} {reply : Reply}
    (h : reply ∈ [Reply.poisoned, .alreadySealed, .emptySegment, .refused .sequenceExhausted,
      .refused .segmentIdExhausted] ∨ ∃ error, reply = .invalidRecord error) :
    Ended w d request io reply w d := by
  rcases h with h | ⟨error, rfl⟩
  · refine .refused ?_ ?_ ?_
    · rintro receipt rfl
      simp at h
    · rintro rfl
      simp at h
    · rintro failure rfl
      simp at h
  · exact .refused (fun _ h ↦ by cases h) (fun h ↦ by cases h) (fun _ h ↦ by cases h)

theorem ended_failed {w : Writer} {d d' : Disk} {request : Request} {io : Io} {failure : Failure}
    (hreject : ∀ reason, failure = .reject reason → d' = d) :
    Ended w d request io (failed w d' failure).1 (failed w d' failure).2.1
      (failed w d' failure).2.2 := by
  cases failure with
  | reject reason =>
    rw [hreject reason rfl]
    refine ended_refused (.inl ?_)
    cases reason <;> simp [failed]
  | io step => exact .uncertain
  | segment error => exact .uncertain
  | successorMismatch => exact .uncertain

theorem mutate_ended (w : Writer) (d : Disk) (request : Request) (io : Io) :
    Ended w d request io (mutate w d request io).1 (mutate w d request io).2.1
      (mutate w d request io).2.2 := by
  unfold mutate
  split
  case isTrue => exact ended_refused (.inl (by simp))
  case isFalse =>
    cases request with
    | append type schema payload =>
      dsimp only
      split
      case isTrue => exact ended_refused (.inl (by simp))
      case isFalse =>
        split
        case h_1 error _ => exact ended_refused (.inr ⟨error, rfl⟩)
        case h_2 bytes _ =>
          split
          case h_1 => exact .appended rfl
          case h_2 failure d' happend =>
            refine ended_failed ?_
            rintro reason rfl
            exact appendWithCapacity_reject happend
    | sealSegment =>
      dsimp only
      split
      case isTrue => exact ended_refused (.inl (by simp))
      case isFalse hsealed =>
        split
        case isTrue => exact ended_refused (.inl (by simp))
        case isFalse hcount =>
          split
          case h_1 next d' hseal =>
            exact .sealed rfl (Bool.eq_false_iff.mpr hsealed) (fun hzero ↦ hcount (beq_iff_eq.mpr hzero)) hseal
          case h_2 => exact .uncertain
    | rotate =>
      dsimp only
      split
      case h_1 next d' hrotate => exact .rotated rfl hrotate
      case h_2 failure d' hrotate =>
        refine ended_failed ?_
        rintro reason rfl
        exact rotate_reject hrotate

end Tay.SegmentOps
