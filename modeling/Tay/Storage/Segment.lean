import Tay.Storage.Record

/-!
# Segments

`Tay.Storage.Segment` and its parser: a segment is a header of forty-four bytes, records with consecutive
sequence numbers, and, once it is sealed, a footer of sixty-four bytes that repeats what the records add
up to. The parser reads the file through a window, one record at a time, and looks at four bytes to see
what comes next. An error returns nothing of what was read before it.
-/

open Foundation

namespace Tay.Physical

open CRC32C (checked)

/-- `@max_id`. -/
def maxSegmentId : ℕ := uint64Max

/-- `@max_bytes`. -/
def maxBytes : ℕ := 1073741824

/-- `@max_count`. -/
def maxCount : ℕ := 38347918

/-- `@min_rotation_bytes`. -/
def minRotationBytes : ℕ := 16777352

/-- A field of a header or a footer that is compared with an expected value. -/
inductive Key
  | id
  | storeId
  | firstSequence
  | count
  | lastSequence
  | segmentCrc
  deriving DecidableEq, Repr

/-- Why a header or a footer is not read; `incomplete` is the answer to a short input. -/
inductive SegmentError
  | incomplete (needed : ℕ)
  | invalidMagic
  | invalidVersion
  | unsupportedVersion (version : ℕ)
  | checksum
  | unsupportedFlags (flags : ℕ)
  | reservedBytes
  | invalidSegmentId
  | invalidFirstSequence
  | invalidLastSequence
  | invalidRecordCount
  | invalidStoreId
  | invalidCrc
  | countSequenceRelation
  | trailingFooterBytes
  | mismatch (key : Key)
  deriving DecidableEq, Repr

/-- `uint64?`. -/
def uint64? (n : ℕ) : Bool := 1 ≤ n && n ≤ maxSegmentId

/-- `valid_store_id?`. -/
def validStoreId? (id : Binary) : Bool := id.length == 16 && id != List.replicate 16 0

/-- `equal`. -/
def equal {α : Type} [DecidableEq α] (expected : Option α) (key : Key) (value : α) :
    Except SegmentError Unit :=
  check (expected.all (· == value)) (.mismatch key)

/-- `fixed`: a body with a magic, a version, no flags and a checksum. -/
def fixed (bytes magic : Binary) (size : ℕ) : Except SegmentError Binary := do
  check (bytes.take 4 == magic.take bytes.length) .invalidMagic
  check (5 ≤ bytes.length) (.incomplete size)
  check (byteAt bytes 4 != 0) .invalidVersion
  check (byteAt bytes 4 == 1) (.unsupportedVersion (byteAt bytes 4))
  check (size ≤ bytes.length) (.incomplete size)
  check (CRC32C.checksum (bytes.take (size - 4)) ==
    some (Value.ofBigEndian ((bytes.drop (size - 4)).take 4))) .checksum
  check (byteAt bytes 5 == 0) (.unsupportedFlags (byteAt bytes 5))
  check ((bytes.drop 6).take 2 == [0, 0]) .reservedBytes
  return bytes.take (size - 4)

/-! ## Headers -/

/-- What a header says. -/
structure Header where
  id : ℕ
  firstSequence : ℕ
  storeId : Binary
  deriving DecidableEq, Repr

def headerMagic : Binary := [84, 65, 89, 83]

def Header.body (h : Header) : Binary :=
  headerMagic ++ ([1, 0, 0, 0] ++ (Value.bigEndian 8 h.id ++ (Value.bigEndian 8 h.firstSequence ++
    h.storeId)))

/-- `encode_header`. -/
def Header.encode (h : Header) : Except SegmentError Binary := do
  check (uint64? h.id) .invalidSegmentId
  check (uint64? h.firstSequence) .invalidFirstSequence
  check (validStoreId? h.storeId) .invalidStoreId
  return checked h.body

/-- `decode_header`. -/
def decodeSegmentHeader (bytes : Binary) (id : Option ℕ) (storeId : Option Binary) :
    Except SegmentError Header := do
  let body ← fixed bytes headerMagic 44
  let h : Header := ⟨Value.ofBigEndian ((body.drop 8).take 8), Value.ofBigEndian ((body.drop 16).take 8),
    body.drop 24⟩
  check (uint64? h.id) .invalidSegmentId
  check (uint64? h.firstSequence) .invalidFirstSequence
  check (validStoreId? h.storeId) .invalidStoreId
  equal id .id h.id
  equal storeId .storeId h.storeId
  return h

/-! ## Footers -/

structure Footer where
  id : ℕ
  firstSequence : ℕ
  lastSequence : ℕ
  count : ℕ
  storeId : Binary
  segmentCrc : ℕ
  deriving DecidableEq, Repr

def footerMagic : Binary := [84, 65, 89, 70]

def Footer.body (f : Footer) : Binary :=
  footerMagic ++ ([1, 0, 0, 0] ++ (Value.bigEndian 8 f.id ++ (Value.bigEndian 8 f.firstSequence ++
    (Value.bigEndian 8 f.lastSequence ++ (Value.bigEndian 8 f.count ++ (f.storeId ++
      Value.bigEndian 4 f.segmentCrc))))))

/-- `footer_values`. -/
def footerValues (f : Footer) (checkStore : Bool) : Except SegmentError Unit := do
  check (uint64? f.id) .invalidSegmentId
  check (uint64? f.firstSequence) .invalidFirstSequence
  check (uint64? f.lastSequence) .invalidLastSequence
  check (1 ≤ f.count && f.count ≤ maxCount) .invalidRecordCount
  check (!checkStore || validStoreId? f.storeId) .invalidStoreId
  check (f.segmentCrc ≤ CRC32C.mask) .invalidCrc

/-- `encode_footer`. -/
def Footer.encode (f : Footer) : Except SegmentError Binary := do
  footerValues f true
  check (f.lastSequence + 1 == f.firstSequence + f.count) .countSequenceRelation
  return checked f.body

/-- `decode_footer`, with everything that is expected of it. -/
def decodeFooter (bytes : Binary) (id firstSequence : ℕ) (storeId : Binary) (count : ℕ)
    (lastSequence segmentCrc : Option ℕ) : Except SegmentError Footer := do
  let body ← fixed bytes footerMagic 64
  check (bytes.length == 64) .trailingFooterBytes
  let f : Footer := ⟨Value.ofBigEndian ((body.drop 8).take 8), Value.ofBigEndian ((body.drop 16).take 8),
    Value.ofBigEndian ((body.drop 24).take 8), Value.ofBigEndian ((body.drop 32).take 8),
    (body.drop 40).take 16, Value.ofBigEndian (body.drop 56)⟩
  footerValues f false
  equal (some id) .id f.id
  equal (some firstSequence) .firstSequence f.firstSequence
  check (validStoreId? f.storeId) .invalidStoreId
  equal (some storeId) .storeId f.storeId
  check (f.firstSequence + f.count - 1 ≤ maxSegmentId && f.lastSequence + 1 == f.firstSequence + f.count)
    .countSequenceRelation
  equal (some count) .count f.count
  equal (some lastSequence) .lastSequence (some f.lastSequence)
  equal (some segmentCrc) .segmentCrc (some f.segmentCrc)
  return f

/-! ## The parser -/

/-- A segment as far as it has been read. -/
structure Segment where
  id : ℕ
  firstSequence : ℕ
  storeId : Binary
  sealed : Bool := false
  lastSequence : Option ℕ := none
  crcState : Option ℕ := none
  footer : Option Footer := none
  count : ℕ := 0
  bytes : ℕ := 44
  deriving DecidableEq, Repr

structure Options where
  id : Option ℕ := none
  storeId : Option Binary := none
  highest : Bool := true
  maxDecodePayloadBytes : ℕ := hardPayloadMax

/-- `valid_options?`. -/
def validOptions? (o : Options) : Bool :=
  o.id.all uint64? && o.storeId.all validStoreId? && o.maxDecodePayloadBytes ≤ hardPayloadMax

inductive ReadError
  | io
  | changedFileOrShortRead
  deriving DecidableEq, Repr

structure Context where
  read : ℕ → ℕ → Except ReadError Binary
  size : ℕ
  options : Options
  id : Option ℕ
  bufferOffset : ℕ := 0
  buffer : Binary := []

inductive Kind
  | ambiguousShortTail
  | corruptFooter
  | corruptSegmentHeader
  | idOrStoreMismatch
  | incompleteFooter
  | incompleteRecord
  | incompleteSegmentHeader
  | invalidArgument
  | ioOrResourceError
  | recordOrSequenceError
  | sealedHistoryError
  | segmentCrc
  | unsupportedSegmentVersion
  | unsupportedSegmentFlags
  | visitorError
  deriving DecidableEq, Repr

inductive Cause
  | kind (kind : Kind)
  | read (error : ReadError)
  | segment (error : SegmentError)
  | record (result : Decoded)
  | sequence (expected actual : ℕ)
  | segmentSizeExceedsFormat
  | earlierActiveSegment
  | activeSizeExceedsFormat
  | recordCountExceedsFormat
  | trailingFooterBytes
  | visitor
  deriving DecidableEq, Repr

structure Failure where
  kind : Kind
  cause : Cause
  segmentId : Option ℕ
  offset : ℕ
  /-- For something that ends early: the bytes there are, and the bytes there should be. -/
  tail : Option (ℕ × ℕ)
  deriving DecidableEq, Repr

/-- What a visitor says about a record. -/
inductive Visit (α : Type)
  | cont (accumulator : α)
  | halt (accumulator : α)
  | error

inductive Scan (α : Type)
  | ok (segment : Segment) (accumulator : α)
  | halted (segment : Segment) (accumulator : α)
  | error (failure : Failure)
  deriving DecidableEq

/-- One turn of the loop. -/
inductive Turn (α : Type)
  | stop (scan : Scan α)
  | more (context : Context) (segment : Segment) (accumulator : α)

/-- `fail`. -/
def fail {α : Type} (ctx : Context) (kind : Kind) (offset : ℕ) (cause : Cause) : Scan α :=
  .error ⟨kind, cause, ctx.id, offset, none⟩

/-- `incomplete`: an end that is too early can be a torn write in the highest segment only. -/
def incomplete {α : Type} (ctx : Context) (kind : Kind) (offset available expected : ℕ)
    (cause : Cause) : Scan α :=
  .error ⟨if ctx.options.highest then kind else .sealedHistoryError, cause, ctx.id, offset,
    some (available, expected)⟩

/-- `@read_window`. -/
def readWindow : ℕ := 1048576

/-- `read_exact`. -/
def readExact (ctx : Context) (offset length : ℕ) : Except ReadError Binary := do
  let bytes ← ctx.read offset length
  check (bytes.length == length) .changedFileOrShortRead
  return bytes

/-- `read_at`. -/
def readAt (ctx : Context) (offset limit : ℕ) : Except ReadError (Binary × Context) :=
  let length := min limit (ctx.size - offset)
  if length == 0 then .ok ([], ctx)
  else if ctx.bufferOffset ≤ offset && offset + length ≤ ctx.bufferOffset + ctx.buffer.length then
    .ok ((ctx.buffer.drop (offset - ctx.bufferOffset)).take length, ctx)
  else if readWindow < length then do
    let bytes ← readExact { ctx with buffer := [] } offset length
    return (bytes, { ctx with buffer := [] })
  else do
    let buffer ← readExact ctx offset (min readWindow (ctx.size - offset))
    return (buffer.take length, { ctx with bufferOffset := offset, buffer })

section Loop

variable {α : Type} (visitor : Record → ℕ → α → Visit α)

/-- `record_failure`. -/
def recordFailure (ctx : Context) (offset available : ℕ) (result : Decoded) : Scan α :=
  match result with
  | .incompleteHeader => incomplete ctx .incompleteRecord offset available 24 (.record result)
  | .incomplete _ metadata =>
    incomplete ctx .incompleteRecord offset available metadata.recordBytes (.record result)
  | .error (.resourceLimit _ _) => fail ctx .ioOrResourceError offset (.record result)
  | _ => fail ctx .recordOrSequenceError offset (.record result)

/-- `accept_record`. -/
def acceptRecord (ctx : Context) (segment : Segment) (acc : α) (bytes : Binary) (result : Decoded) :
    Turn α :=
  match result with
  | .ok record [] =>
    if record.sequence ≠ segment.firstSequence + segment.count then
      .stop (fail ctx .recordOrSequenceError segment.bytes
        (.sequence (segment.firstSequence + segment.count) record.sequence))
    else if maxCount ≤ segment.count then
      .stop (fail ctx .recordOrSequenceError segment.bytes .recordCountExceedsFormat)
    else
      let updated := { segment with
        lastSequence := some record.sequence
        count := segment.count + 1
        bytes := segment.bytes + bytes.length
        crcState := segment.crcState.bind (CRC32C.update · bytes) }
      match visitor record segment.bytes acc with
      | .cont acc => .more ctx updated acc
      | .halt acc => .stop (.halted updated acc)
      | .error => .stop (fail ctx .visitorError segment.bytes .visitor)
  | result => .stop (recordFailure ctx segment.bytes bytes.length result)

/-- `record`. -/
def record (ctx : Context) (segment : Segment) (acc : α) : Turn α :=
  match readAt ctx segment.bytes 24 with
  | .error reason => .stop (fail ctx .ioOrResourceError segment.bytes (.read reason))
  | .ok (header, ctx) =>
    match decode header ctx.options.maxDecodePayloadBytes with
    | .incomplete _ metadata =>
      match readAt ctx segment.bytes metadata.recordBytes with
      | .error reason => .stop (fail ctx .ioOrResourceError segment.bytes (.read reason))
      | .ok (bytes, ctx) =>
        acceptRecord visitor ctx segment acc bytes (decode bytes ctx.options.maxDecodePayloadBytes)
    | other => .stop (recordFailure ctx segment.bytes header.length other)

/-- How `finish` classifies a footer that is not read. -/
def footerFailure (ctx : Context) (offset : ℕ) (error : SegmentError) : Scan α :=
  match error with
  | .unsupportedVersion _ => fail ctx .unsupportedSegmentVersion offset (.segment error)
  | .unsupportedFlags _ => fail ctx .unsupportedSegmentFlags offset (.segment error)
  | .mismatch .segmentCrc => fail ctx .segmentCrc offset (.segment error)
  | _ => fail ctx .corruptFooter offset (.segment error)

/-- `finish`. -/
def finish (ctx : Context) (segment : Segment) (acc : α) : Scan α :=
  let remaining := ctx.size - segment.bytes
  if remaining < 64 then
    incomplete ctx .incompleteFooter segment.bytes remaining 64 (.kind .incompleteFooter)
  else if 64 < remaining then fail ctx .corruptFooter segment.bytes .trailingFooterBytes
  else
    match readAt ctx segment.bytes 64 with
    | .error reason => fail ctx .ioOrResourceError segment.bytes (.read reason)
    | .ok (bytes, ctx) =>
      match decodeFooter bytes segment.id segment.firstSequence segment.storeId segment.count
          segment.lastSequence (segment.crcState.bind CRC32C.finalize) with
      | .ok footer =>
        .ok { segment with sealed := true, footer := some footer, bytes := ctx.size } acc
      | .error error => footerFailure ctx segment.bytes error

/-- `next`: four bytes say what comes next. -/
def next (ctx : Context) (segment : Segment) (acc : α) : Turn α :=
  match readAt ctx segment.bytes 4 with
  | .error reason => .stop (fail ctx .ioOrResourceError segment.bytes (.read reason))
  | .ok (four, ctx) =>
    if four = [] then
      if !ctx.options.highest then
        .stop (fail ctx .sealedHistoryError segment.bytes .earlierActiveSegment)
      else if maxBytes - 64 < ctx.size then
        .stop (fail ctx .recordOrSequenceError segment.bytes .activeSizeExceedsFormat)
      else .stop (.ok { segment with sealed := false } acc)
    else if four = footerMagic then .stop (finish ctx segment acc)
    else if four = recordMagic then record visitor ctx segment acc
    else if four.length < 4 && four == (recordMagic.take 3).take four.length then
      .stop (incomplete ctx .ambiguousShortTail segment.bytes four.length 4 (.kind .ambiguousShortTail))
    else
      .stop (fail ctx .recordOrSequenceError segment.bytes (.record (.error (.corrupt .invalidMagic))))

/-- The loop; the fuel stands for the bytes that are left. -/
def loop : ℕ → Context → Segment → α → Option (Scan α)
  | 0, _, _, _ => none
  | fuel + 1, ctx, segment, acc =>
    match next visitor ctx segment acc with
    | .stop scan => some scan
    | .more ctx segment acc => loop fuel ctx segment acc

/-- How `start` classifies a header that is not read. -/
def headerFailure (ctx : Context) (available : ℕ) (error : SegmentError) : Scan α :=
  match error with
  | .incomplete needed =>
    incomplete ctx .incompleteSegmentHeader 0 available needed (.kind .incompleteSegmentHeader)
  | .unsupportedVersion _ => fail ctx .unsupportedSegmentVersion 0 (.segment error)
  | .unsupportedFlags _ => fail ctx .unsupportedSegmentFlags 0 (.segment error)
  | .mismatch _ => fail ctx .idOrStoreMismatch 0 (.segment error)
  | _ => fail ctx .corruptSegmentHeader 0 (.segment error)

/-- `start`. -/
def start (ctx : Context) (header : Binary) (acc : α) : Option (Scan α) :=
  match decodeSegmentHeader header ctx.options.id ctx.options.storeId with
  | .error error => some (headerFailure ctx header.length error)
  | .ok h =>
    let ctx := { ctx with id := some h.id }
    if maxBytes < ctx.size then some (fail ctx .corruptSegmentHeader 0 .segmentSizeExceedsFormat)
    else loop visitor (ctx.size + 1) ctx
      { id := h.id, firstSequence := h.firstSequence, storeId := h.storeId
        crcState := CRC32C.update CRC32C.initial header } acc

/-- `run`. -/
def run (read : ℕ → ℕ → Except ReadError Binary) (size : ℕ) (options : Options) (acc : α) :
    Option (Scan α) :=
  if validOptions? options then
    let ctx : Context := { read, size, options, id := options.id }
    match readExact ctx 0 (min size 44) with
    | .error reason => some (fail ctx .ioOrResourceError 0 (.read reason))
    | .ok header => start visitor ctx header acc
  else some (.error ⟨.invalidArgument, .kind .invalidArgument, none, 0, none⟩)

end Loop

/-- The records in the order in which they stand. -/
def collect (record : Record) (_ : ℕ) (acc : List Record) : Visit (List Record) :=
  .cont (acc ++ [record])

/-- `binary_part`. -/
def binaryPart (bytes : Binary) (offset length : ℕ) : Except ReadError Binary :=
  .ok ((bytes.drop offset).take length)

/-- `parse`, with the records. -/
def parse (bytes : Binary) (options : Options) : Option (Scan (List Record)) :=
  run collect (binaryPart bytes) bytes.length options []

/-! ## The window -/

/-- A piece of a binary. -/
def slice (bytes : Binary) (offset length : ℕ) : Binary := (bytes.drop offset).take length

theorem length_slice (bytes : Binary) (offset length : ℕ) :
    (slice bytes offset length).length = min length (bytes.length - offset) := by
  rw [slice, List.length_take, List.length_drop]

theorem slice_slice (bytes : Binary) {offset length start limit : ℕ} (h : start + limit ≤ length) :
    slice (slice bytes offset length) start limit = slice bytes (offset + start) limit := by
  rw [slice, slice, slice, List.drop_take, List.take_take, List.drop_drop, Nat.min_eq_left]
  omega

/-- The context reads a binary that does not change, and its buffer is a piece of it. -/
structure Context.Sees (ctx : Context) (bytes : Binary) : Prop where
  read : ctx.read = binaryPart bytes
  size : ctx.size = bytes.length
  buffer : ctx.buffer = slice bytes ctx.bufferOffset ctx.buffer.length

theorem readExact_sees {ctx : Context} {bytes : Binary} (h : ctx.Sees bytes) {offset length : ℕ}
    (hlength : offset + length ≤ bytes.length) :
    readExact ctx offset length = .ok (slice bytes offset length) := by
  have hslice : (slice bytes offset length).length = length := by
    rw [length_slice]
    omega
  rw [readExact, h.read]
  refine check_bind_eq_ok.mpr ⟨?_, rfl⟩
  exact beq_iff_eq.mpr hslice

/-- A read gives what stands in the file, and only the buffer changes. -/
theorem readAt_sees {ctx : Context} {bytes : Binary} (h : ctx.Sees bytes) (offset limit : ℕ) :
    ∃ ctx', readAt ctx offset limit = .ok (slice bytes offset limit, ctx') ∧ ctx'.Sees bytes ∧
      ctx'.options = ctx.options ∧ ctx'.id = ctx.id := by
  have hsize := h.size
  have hmin : slice bytes offset (min limit (ctx.size - offset)) = slice bytes offset limit := by
    rw [slice, slice, hsize, ← List.length_drop, ← List.take_eq_take_min]
  unfold readAt
  dsimp only
  split
  case isTrue hzero =>
    refine ⟨ctx, ?_, h, rfl, rfl⟩
    have hempty : slice bytes offset limit = [] := by
      rw [← hmin, beq_iff_eq.mp hzero, slice, List.take_zero]
    rw [hempty]
  case isFalse hzero =>
    rw [beq_iff_eq] at hzero
    have hoffset : offset + min limit (ctx.size - offset) ≤ bytes.length := by omega
    split
    case isTrue hbuffer =>
      rw [Bool.and_eq_true, decide_eq_true_eq, decide_eq_true_eq] at hbuffer
      refine ⟨ctx, ?_, h, rfl, rfl⟩
      have hpiece : (ctx.buffer.drop (offset - ctx.bufferOffset)).take
          (min limit (ctx.size - offset)) = slice bytes offset limit := by
        conv_lhs => rw [h.buffer]
        show slice (slice bytes ctx.bufferOffset ctx.buffer.length) _ _ = _
        rw [slice_slice bytes (by omega), Nat.add_sub_cancel' hbuffer.1, hmin]
      rw [hpiece]
    case isFalse =>
      split
      case isTrue =>
        have hsees : Context.Sees { ctx with buffer := [] } bytes := ⟨h.read, h.size, rfl⟩
        refine ⟨{ ctx with buffer := [] }, ?_, hsees, rfl, rfl⟩
        rw [readExact_sees hsees hoffset, hmin]
        rfl
      case isFalse hwindow =>
        have hwide : offset + min readWindow (ctx.size - offset) ≤ bytes.length := by omega
        have hlength : (slice bytes offset (min readWindow (ctx.size - offset))).length =
            min readWindow (ctx.size - offset) := by
          rw [length_slice]
          omega
        have hpiece : (slice bytes offset (min readWindow (ctx.size - offset))).take
            (min limit (ctx.size - offset)) = slice bytes offset limit := by
          rw [slice, List.take_take, Nat.min_eq_left (by omega)]
          exact hmin
        let window := slice bytes offset (min readWindow (ctx.size - offset))
        refine ⟨{ ctx with bufferOffset := offset, buffer := window }, ?_, ⟨h.read, h.size, ?_⟩, rfl, rfl⟩
        · rw [readExact_sees h hwide, ok_bind, hpiece]
          rfl
        · show slice bytes offset _ = slice bytes offset _
          rw [hlength]

/-! ## Headers and footers that are written -/

/-- A body with its magic, the version, no flags and no reserved bytes. -/
def framed (a b c d : UInt8) (rest : Binary) : Binary := [a, b, c, d] ++ ([1, 0, 0, 0] ++ rest)

theorem length_framed (a b c d : UInt8) (rest : Binary) :
    (framed a b c d rest).length = rest.length + 8 := by
  rw [framed, List.length_append, List.length_append]
  simp only [List.length_cons, List.length_nil]
  omega

theorem fixed_checked (a b c d : UInt8) (rest : Binary) :
    fixed (checked (framed a b c d rest)) [a, b, c, d] (rest.length + 12) =
      .ok (framed a b c d rest) := by
  have hlength : (checked (framed a b c d rest)).length = rest.length + 12 := by
    rw [CRC32C.length_checked, length_framed]
  have hbody : (framed a b c d rest).length = rest.length + 12 - 4 := by
    rw [length_framed]
    omega
  have htake : (checked (framed a b c d rest)).take (rest.length + 12 - 4) = framed a b c d rest := by
    rw [← hbody, checked, List.take_left]
  have hstored : ((checked (framed a b c d rest)).drop (rest.length + 12 - 4)).take 4 =
      Value.bigEndian 4 ((CRC32C.checksum (framed a b c d rest)).getD 0) := by
    rw [← hbody, checked, List.drop_left]
    exact List.take_of_length_le (Nat.le_of_eq (Value.bigEndian_length 4 _))
  have hmagic : ([a, b, c, d] : Binary).take (checked (framed a b c d rest)).length = [a, b, c, d] :=
    List.take_of_length_le (show 4 ≤ (checked (framed a b c d rest)).length by omega)
  have hsum : (CRC32C.checksum (framed a b c d rest) == some (Value.ofBigEndian
      (Value.bigEndian 4 ((CRC32C.checksum (framed a b c d rest)).getD 0)))) = true := by
    rw [← CRC32C.ofBigEndian_checksum, beq_self_eq_true]
  refine check_bind_eq_ok.mpr ⟨?_, check_bind_eq_ok.mpr ⟨?_, check_bind_eq_ok.mpr ⟨rfl,
    check_bind_eq_ok.mpr ⟨rfl, check_bind_eq_ok.mpr ⟨?_, check_bind_eq_ok.mpr ⟨?_,
      check_bind_eq_ok.mpr ⟨rfl, check_bind_eq_ok.mpr ⟨?_, congrArg Except.ok htake⟩⟩⟩⟩⟩⟩⟩⟩
  · rw [hmagic]
    exact beq_self_eq_true _
  · rw [hlength, decide_eq_true_eq]
    omega
  · rw [hlength]
    exact decide_eq_true le_rfl
  · rw [htake, hstored]
    exact hsum
  · exact beq_self_eq_true _

/-- What is cut is not mistaken for something else. -/
theorem fixed_cut (a b c d : UInt8) (rest : Binary) {n : ℕ} (hn : n < rest.length + 12) :
    fixed ((checked (framed a b c d rest)).take n) [a, b, c, d] (rest.length + 12) =
      .error (.incomplete (rest.length + 12)) := by
  have hlength : ((checked (framed a b c d rest)).take n).length = n := by
    rw [List.length_take, CRC32C.length_checked, length_framed]
    omega
  have hfirst : (checked (framed a b c d rest)).take 4 = [a, b, c, d] := rfl
  have hmagic : (((checked (framed a b c d rest)).take n).take 4 ==
      ([a, b, c, d] : Binary).take ((checked (framed a b c d rest)).take n).length) = true := by
    rw [hlength, ← hfirst, List.take_take, List.take_take, Nat.min_comm]
    exact beq_self_eq_true _
  rw [fixed, hmagic, check_true, ok_bind, hlength]
  by_cases hfive : 5 ≤ n
  · have hbyte : byteAt ((checked (framed a b c d rest)).take n) 4 = 1 := by
      rw [byteAt, List.getD_eq_getElem?_getD, List.getElem?_take_of_lt (by omega)]
      rfl
    rw [decide_eq_true hfive, check_true, ok_bind, hbyte]
    show (check (decide (rest.length + 12 ≤ n)) _ >>= _) = _
    rw [decide_eq_false (by omega), check_false, error_bind]
  · rw [decide_eq_false hfive, check_false, error_bind]

/-- What `encode_header` accepts. -/
structure Header.Valid (h : Header) : Prop where
  id : uint64? h.id = true
  firstSequence : uint64? h.firstSequence = true
  storeId : validStoreId? h.storeId = true

theorem Header.encode_eq_ok {h : Header} {bytes : Binary} :
    h.encode = .ok bytes ↔ h.Valid ∧ bytes = checked h.body := by
  simp only [Header.encode, check_bind_eq_ok, pure_eq_ok, Except.ok.injEq]
  constructor
  · rintro ⟨hid, hfirst, hstore, rfl⟩
    exact ⟨⟨hid, hfirst, hstore⟩, rfl⟩
  · rintro ⟨⟨hid, hfirst, hstore⟩, rfl⟩
    exact ⟨hid, hfirst, hstore, rfl⟩

theorem ofBigEndian_uint64 {n : ℕ} (h : uint64? n = true) :
    Value.ofBigEndian (Value.bigEndian 8 n) = n := by
  rw [uint64?, Bool.and_eq_true, decide_eq_true_eq, decide_eq_true_eq] at h
  have hle := h.2
  unfold maxSegmentId uint64Max at hle
  rw [Value.ofBigEndian_bigEndian, Nat.mod_eq_of_lt]
  rw [Value.pow_eight]
  omega

theorem length_storeId {id : Binary} (h : validStoreId? id = true) : id.length = 16 := by
  rw [validStoreId?, Bool.and_eq_true, beq_iff_eq] at h
  exact h.1

/-- What follows the reserved bytes of a header. -/
def Header.rest (h : Header) : Binary :=
  Value.bigEndian 8 h.id ++ (Value.bigEndian 8 h.firstSequence ++ h.storeId)

theorem Header.body_eq (h : Header) : h.body = framed 84 65 89 83 h.rest := rfl

theorem Header.Valid.length_rest {h : Header} (hv : h.Valid) : h.rest.length = 32 := by
  rw [Header.rest, List.length_append, List.length_append, Value.bigEndian_length,
    Value.bigEndian_length, length_storeId hv.storeId]

/-- A header takes forty-four bytes. -/
theorem Header.Valid.length_wire {h : Header} (hv : h.Valid) : (checked h.body).length = 44 := by
  rw [CRC32C.length_checked, h.body_eq, length_framed, hv.length_rest]

theorem equal_of_forall {α : Type} [DecidableEq α] {expected : Option α} {value : α}
    (h : ∀ e ∈ expected, e = value) (key : Key) : equal expected key value = .ok () := by
  refine check_eq_ok.mpr ?_
  rw [Option.all_eq_true]
  intro e he
  exact beq_iff_eq.mpr (h e he)

theorem Header.Valid.decode_wire {h : Header} (hv : h.Valid) {id : Option ℕ} {storeId : Option Binary}
    (hid : ∀ e ∈ id, e = h.id) (hstore : ∀ e ∈ storeId, e = h.storeId) :
    decodeSegmentHeader (checked h.body) id storeId = .ok h := by
  have hfixed := fixed_checked 84 65 89 83 h.rest
  rw [hv.length_rest, ← h.body_eq] at hfixed
  have hfirst : (h.body.drop 8).take 8 = Value.bigEndian 8 h.id := by
    show h.rest.take 8 = _
    exact List.take_left' (Value.bigEndian_length 8 _)
  have hsecond : (h.body.drop 16).take 8 = Value.bigEndian 8 h.firstSequence := by
    show ((h.rest.drop 8)).take 8 = _
    rw [Header.rest, List.drop_left' (Value.bigEndian_length 8 _)]
    exact List.take_left' (Value.bigEndian_length 8 _)
  have hthird : h.body.drop 24 = h.storeId := by
    show h.rest.drop 16 = _
    rw [Header.rest, ← List.append_assoc]
    exact List.drop_left' (by rw [List.length_append, Value.bigEndian_length, Value.bigEndian_length])
  unfold decodeSegmentHeader
  rw [show headerMagic = [84, 65, 89, 83] from rfl, hfixed, ok_bind]
  dsimp only
  rw [hfirst, hsecond, hthird, ofBigEndian_uint64 hv.id, ofBigEndian_uint64 hv.firstSequence, hv.id,
    hv.firstSequence, hv.storeId, check_true, ok_bind, check_true, ok_bind, check_true, ok_bind,
    equal_of_forall hid, ok_bind, equal_of_forall hstore, ok_bind]
  rfl

theorem Header.Valid.decode_cut {h : Header} (hv : h.Valid) (id : Option ℕ) (storeId : Option Binary)
    {n : ℕ} (hn : n < 44) :
    decodeSegmentHeader ((checked h.body).take n) id storeId = .error (.incomplete 44) := by
  have hshort : n < h.rest.length + 12 := by
    rw [hv.length_rest]
    omega
  have hfixed := fixed_cut 84 65 89 83 h.rest hshort
  rw [hv.length_rest, ← h.body_eq] at hfixed
  rw [decodeSegmentHeader, show headerMagic = [84, 65, 89, 83] from rfl, hfixed, error_bind]

/-- What `encode_footer` accepts. -/
structure Footer.Valid (f : Footer) : Prop where
  id : uint64? f.id = true
  firstSequence : uint64? f.firstSequence = true
  lastSequence : uint64? f.lastSequence = true
  count : 1 ≤ f.count ∧ f.count ≤ maxCount
  storeId : validStoreId? f.storeId = true
  segmentCrc : f.segmentCrc ≤ CRC32C.mask
  relation : f.lastSequence + 1 = f.firstSequence + f.count

theorem Footer.encode_eq_ok {f : Footer} {bytes : Binary} :
    f.encode = .ok bytes ↔ f.Valid ∧ bytes = checked f.body := by
  simp only [Footer.encode, footerValues, bind_eq_ok, check_eq_ok, pure_eq_ok, Except.ok.injEq,
    exists_const, Bool.and_eq_true, decide_eq_true_eq, Bool.not_true, Bool.false_or, beq_iff_eq]
  constructor
  · rintro ⟨⟨hid, hfirst, hlast, hcount, hstore, hcrc⟩, hrelation, rfl⟩
    exact ⟨⟨hid, hfirst, hlast, hcount, hstore, hcrc, hrelation⟩, rfl⟩
  · rintro ⟨h, rfl⟩
    exact ⟨⟨h.id, h.firstSequence, h.lastSequence, h.count, h.storeId, h.segmentCrc⟩, h.relation, rfl⟩

/-- What follows the reserved bytes of a footer. -/
def Footer.rest (f : Footer) : Binary :=
  Value.bigEndian 8 f.id ++ (Value.bigEndian 8 f.firstSequence ++ (Value.bigEndian 8 f.lastSequence ++
    (Value.bigEndian 8 f.count ++ (f.storeId ++ Value.bigEndian 4 f.segmentCrc))))

theorem Footer.body_eq (f : Footer) : f.body = framed 84 65 89 70 f.rest := rfl

theorem Footer.Valid.length_rest {f : Footer} (hv : f.Valid) : f.rest.length = 52 := by
  simp only [Footer.rest, List.length_append, Value.bigEndian_length, length_storeId hv.storeId]

/-- A footer takes sixty-four bytes. -/
theorem Footer.Valid.length_wire {f : Footer} (hv : f.Valid) : (checked f.body).length = 64 := by
  rw [CRC32C.length_checked, f.body_eq, length_framed, hv.length_rest]

/-- A footer is read back by what it was written from. -/
theorem Footer.Valid.decode_wire {f : Footer} (hv : f.Valid) :
    decodeFooter (checked f.body) f.id f.firstSequence f.storeId f.count (some f.lastSequence)
      (some f.segmentCrc) = .ok f := by
  have hfixed := fixed_checked 84 65 89 70 f.rest
  rw [hv.length_rest, ← f.body_eq] at hfixed
  have hfirst : (f.body.drop 8).take 8 = Value.bigEndian 8 f.id := by
    show f.rest.take 8 = _
    exact List.take_left' (Value.bigEndian_length 8 _)
  have hsecond : (f.body.drop 16).take 8 = Value.bigEndian 8 f.firstSequence := by
    show ((f.rest.drop 8)).take 8 = _
    rw [Footer.rest, List.drop_left' (Value.bigEndian_length 8 _)]
    exact List.take_left' (Value.bigEndian_length 8 _)
  have hthird : (f.body.drop 24).take 8 = Value.bigEndian 8 f.lastSequence := by
    show ((f.rest.drop (8 + 8))).take 8 = _
    rw [Footer.rest, ← List.drop_drop, List.drop_left' (Value.bigEndian_length 8 _),
      List.drop_left' (Value.bigEndian_length 8 _)]
    exact List.take_left' (Value.bigEndian_length 8 _)
  have hfourth : (f.body.drop 32).take 8 = Value.bigEndian 8 f.count := by
    show ((f.rest.drop (8 + 8 + 8))).take 8 = _
    rw [Footer.rest, ← List.drop_drop, ← List.drop_drop, List.drop_left' (Value.bigEndian_length 8 _),
      List.drop_left' (Value.bigEndian_length 8 _), List.drop_left' (Value.bigEndian_length 8 _)]
    exact List.take_left' (Value.bigEndian_length 8 _)
  have htail : f.body.drop 40 = f.storeId ++ Value.bigEndian 4 f.segmentCrc := by
    show f.rest.drop (8 + 8 + 8 + 8) = _
    rw [Footer.rest, ← List.drop_drop, ← List.drop_drop, ← List.drop_drop,
      List.drop_left' (Value.bigEndian_length 8 _), List.drop_left' (Value.bigEndian_length 8 _),
      List.drop_left' (Value.bigEndian_length 8 _), List.drop_left' (Value.bigEndian_length 8 _)]
  have hfifth : (f.body.drop 40).take 16 = f.storeId := by
    rw [htail]
    exact List.take_left' (length_storeId hv.storeId)
  have hsixth : f.body.drop 56 = Value.bigEndian 4 f.segmentCrc := by
    have hmore : f.body.drop 56 = (f.body.drop 40).drop 16 := by rw [List.drop_drop]
    rw [hmore, htail]
    exact List.drop_left' (length_storeId hv.storeId)
  have hcount : Value.ofBigEndian (Value.bigEndian 8 f.count) = f.count := by
    have hle := hv.count.2
    unfold maxCount at hle
    rw [Value.ofBigEndian_bigEndian, Nat.mod_eq_of_lt]
    rw [Value.pow_eight]
    omega
  have hcrc : Value.ofBigEndian (Value.bigEndian 4 f.segmentCrc) = f.segmentCrc := by
    have hle := hv.segmentCrc
    unfold CRC32C.mask at hle
    rw [Value.ofBigEndian_bigEndian, Nat.mod_eq_of_lt]
    rw [Value.pow_four]
    omega
  have hvalues : footerValues f false = .ok () := by
    simp only [footerValues, hv.id, hv.firstSequence, hv.lastSequence, hv.count, hv.segmentCrc, check_true,
      ok_bind, decide_true, Bool.and_self, Bool.not_false, Bool.true_or]
  have hrelation : (f.firstSequence + f.count - 1 ≤ maxSegmentId &&
      f.lastSequence + 1 == f.firstSequence + f.count) = true := by
    have hlast := hv.lastSequence
    rw [uint64?, Bool.and_eq_true, decide_eq_true_eq, decide_eq_true_eq] at hlast
    have heq := hv.relation
    rw [Bool.and_eq_true, decide_eq_true_eq, beq_iff_eq]
    exact ⟨by omega, heq⟩
  have hsame {α : Type} [DecidableEq α] (v : α) (key : Key) : equal (some v) key v = .ok () := by
    refine equal_of_forall (fun e he ↦ ?_) key
    exact (Option.some.inj he).symm
  unfold decodeFooter
  rw [show footerMagic = [84, 65, 89, 70] from rfl, hfixed, ok_bind, hv.length_wire, beq_self_eq_true,
    check_true, ok_bind]
  dsimp only
  rw [hfirst, hsecond, hthird, hfourth, hfifth, hsixth, ofBigEndian_uint64 hv.id,
    ofBigEndian_uint64 hv.firstSequence, ofBigEndian_uint64 hv.lastSequence, hcount, hcrc]
  rw [hvalues, ok_bind, hsame, ok_bind, hsame, ok_bind, hv.storeId, check_true, ok_bind, hsame, ok_bind,
    hrelation, check_true, ok_bind, hsame, ok_bind, hsame, ok_bind, hsame, ok_bind]
  rfl

end Tay.Physical
