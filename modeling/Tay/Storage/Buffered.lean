import Tay.Foundation.Inquiry
import Tay.Storage.Segment

/-!
# Buffered reading

`Tay.Storage.BufferedRead` keeps the last chunk that it read in the process, and answers a request from it
when the whole range stands there. The parser asks this reader, and keeps a window of its own. The cache
changes with every request, so that the parser is stated here as someone who asks; answered by a function, it
is the parser of a file. Both buffers hold a piece of the file, and nothing that is answered depends on which.
-/

open Foundation

namespace Tay

/-! ## The reader -/

namespace BufferedRead

open Physical (slice)

variable {ε : Type}

/-- `@default_chunk_bytes`. -/
def defaultChunkBytes : ℕ := 1048576

/-- The arguments of `with_reader`. -/
structure Reader (ε : Type) where
  source : ℕ → ℕ → Except ε Binary
  size : ℕ
  chunkBytes : ℕ := defaultChunkBytes
  invalidRange : ε
  shortRead : ε

/-- What stands in the process dictionary. -/
structure Cache where
  offset : ℕ
  bytes : Binary

/-- `cached_slice`. -/
def cachedSlice (cache : Option Cache) (offset length : ℕ) : Option Binary :=
  match cache with
  | some c =>
    if c.offset ≤ offset && offset + length ≤ c.offset + c.bytes.length then
      some (slice c.bytes (offset - c.offset) length)
    else none
  | none => none

/-- `exact_read`. -/
def exactRead (r : Reader ε) (offset length : ℕ) : Except ε Binary := do
  let bytes ← r.source offset length
  check (bytes.length == length) r.shortRead
  return bytes

/-- `read`. -/
def read (r : Reader ε) (cache : Option Cache) (offset length : ℕ) : Except ε Binary × Option Cache :=
  if length = 0 then (.ok [], cache)
  else if offset + length ≤ r.size then
    match cachedSlice cache offset length with
    | some bytes => (.ok bytes, cache)
    | none =>
      if r.chunkBytes < length then (exactRead r offset length, cache)
      else
        match exactRead r offset (min r.chunkBytes (r.size - offset)) with
        | .ok bytes => (.ok (bytes.take length), some ⟨offset, bytes⟩)
        | .error reason => (.error reason, cache)
  else (.error r.invalidRange, cache)

inductive Refusal
  | invalidReadBufferSize
  deriving DecidableEq, Repr

/-- `with_reader`: the function asks, and nothing is kept before its first question. -/
def withReader {β : Type} (r : Reader ε) (asker : Inquiry (ℕ × ℕ) (Except ε Binary) β) : Except Refusal β :=
  if 0 < r.chunkBytes then .ok (asker.serve (fun cache q ↦ read r cache q.1 q.2) none)
  else .error .invalidReadBufferSize

/-- A read of a file, with fewer bytes where the file ends. -/
def pread (file : Binary) (offset length : ℕ) : Except ε Binary := .ok (slice file offset length)

/-- The reader of a file. -/
def Reader.ofFile (file : Binary) (chunkBytes : ℕ) (invalidRange shortRead : ε) : Reader ε :=
  ⟨pread file, file.length, chunkBytes, invalidRange, shortRead⟩

/-- The same request with no cache at all. -/
def directRead (r : Reader ε) (offset length : ℕ) : Except ε Binary :=
  if length = 0 then .ok []
  else if offset + length ≤ r.size then exactRead r offset length
  else .error r.invalidRange

/-- What is kept is a piece of the file. -/
def Holds (file : Binary) (cache : Option Cache) : Prop :=
  ∀ c ∈ cache, c.bytes = slice file c.offset c.bytes.length

/-- The reader reads a file that does not change, and it was told its size. -/
structure Reader.Reads (r : Reader ε) (file : Binary) : Prop where
  source : r.source = pread file
  size : r.size = file.length

theorem Reader.ofFile_reads (file : Binary) (chunkBytes : ℕ) (invalidRange shortRead : ε) :
    (ofFile file chunkBytes invalidRange shortRead).Reads file := ⟨rfl, rfl⟩

section File

variable {r : Reader ε} {file : Binary} {cache : Option Cache} {offset length : ℕ}

theorem exactRead_eq (hr : r.Reads file) (h : offset + length ≤ r.size) :
    exactRead r offset length = .ok (slice file offset length) := by
  rw [hr.size] at h
  rw [exactRead, hr.source]
  refine check_bind_eq_ok.mpr ⟨beq_iff_eq.mpr ?_, rfl⟩
  rw [Physical.length_slice]
  omega

theorem cachedSlice_eq {bytes : Binary} (hcache : Holds file cache)
    (h : cachedSlice cache offset length = some bytes) : bytes = slice file offset length := by
  rcases cache with _ | c
  · cases h
  · rw [cachedSlice, Option.ite_none_right_eq_some, Bool.and_eq_true, decide_eq_true_eq, decide_eq_true_eq] at h
    obtain ⟨⟨hstart, hend⟩, hbytes⟩ := h
    obtain rfl := Option.some.inj hbytes
    calc slice c.bytes (offset - c.offset) length
        = slice (slice file c.offset c.bytes.length) (offset - c.offset) length := by rw [← hcache c rfl]
      _ = slice file (c.offset + (offset - c.offset)) length := Physical.slice_slice file (by omega)
      _ = slice file offset length := by rw [Nat.add_sub_cancel' hstart]

/-- A request is answered as if nothing were kept, and what is kept is a piece of the file again. -/
theorem read_eq_direct (hr : r.Reads file) (hcache : Holds file cache) (offset length : ℕ) :
    (read r cache offset length).1 = directRead r offset length ∧ Holds file (read r cache offset length).2 := by
  rw [read, directRead]
  by_cases hzero : length = 0
  · rw [if_pos hzero, if_pos hzero]
    exact ⟨rfl, hcache⟩
  by_cases hrange : offset + length ≤ r.size
  · rw [if_neg hzero, if_neg hzero, if_pos hrange, if_pos hrange, exactRead_eq hr hrange]
    rcases hslice : cachedSlice cache offset length with _ | bytes
    · by_cases hlong : r.chunkBytes < length
      · dsimp only
        rw [if_pos hlong]
        exact ⟨rfl, hcache⟩
      -- The chunk begins with the range, and it ends where the file ends at the latest.
      · have hchunk : offset + min r.chunkBytes (r.size - offset) ≤ r.size := by omega
        have hbegins : (slice file offset (min r.chunkBytes (r.size - offset))).take length =
            slice file offset length := by
          rw [slice, slice, List.take_take, Nat.min_eq_left (by omega)]
        dsimp only
        rw [if_neg hlong, exactRead_eq hr hchunk]
        refine ⟨congrArg Except.ok hbegins, fun c hc ↦ ?_⟩
        obtain rfl := Option.some.inj hc
        rw [Physical.length_slice, ← hr.size]
        exact congrArg (slice file offset) (by omega)
    · obtain rfl := cachedSlice_eq hcache hslice
      exact ⟨rfl, hcache⟩
  · rw [if_neg hzero, if_neg hzero, if_neg hrange, if_neg hrange]
    exact ⟨rfl, hcache⟩

/-- Bytes are answered for what stands in the file, and then they are the bytes that stand there. -/
theorem directRead_eq_ok (hr : r.Reads file) {bytes : Binary} :
    directRead r offset length = .ok bytes ↔
      (length = 0 ∨ offset + length ≤ file.length) ∧ bytes = slice file offset length := by
  rw [directRead, ← hr.size]
  by_cases hzero : length = 0
  · rw [if_pos hzero, hzero, slice, List.take_zero, Except.ok.injEq, eq_comm]
    exact (and_iff_right (Or.inl rfl)).symm
  by_cases hrange : offset + length ≤ r.size
  · rw [if_neg hzero, if_pos hrange, exactRead_eq hr hrange, Except.ok.injEq, eq_comm]
    exact (and_iff_right (Or.inr hrange)).symm
  · rw [if_neg hzero, if_neg hrange]
    refine ⟨fun h ↦ ?_, fun h ↦ absurd h.1 (not_or.mpr ⟨hzero, hrange⟩)⟩
    cases h

theorem withReader_eq_answer {β : Type} {f : ℕ × ℕ → Except ε Binary} {P : ℕ × ℕ → Prop}
    {Q : β → Prop} (hr : r.Reads file) (hchunk : 0 < r.chunkBytes) (hf : ∀ q, P q → directRead r q.1 q.2 = f q)
    {asker : Inquiry (ℕ × ℕ) (Except ε Binary) β} (hasker : asker.Within P Q) :
    withReader r asker = .ok (asker.answer f) := by
  rw [withReader, if_pos hchunk]
  refine congrArg Except.ok (Inquiry.serve_eq_answer (I := Holds file) (fun cache q hcache hq ↦ ?_) hasker
    fun c hc ↦ ?_)
  · obtain ⟨hanswer, hnext⟩ := read_eq_direct hr hcache q.1 q.2
    exact ⟨hanswer.trans (hf q hq), hnext⟩
  · cases hc

/-- Whoever asks is answered as by direct reads. -/
theorem withReader_eq {β : Type} (hr : r.Reads file) (hchunk : 0 < r.chunkBytes)
    (asker : Inquiry (ℕ × ℕ) (Except ε Binary) β) :
    withReader r asker = .ok (asker.answer fun q ↦ directRead r q.1 q.2) :=
  withReader_eq_answer hr hchunk (fun _ _ ↦ rfl) asker.within_true

/-- Whoever stays in the file is answered by the file. -/
theorem withReader_eq_pread {β : Type} {Q : β → Prop} (hr : r.Reads file) (hchunk : 0 < r.chunkBytes)
    {asker : Inquiry (ℕ × ℕ) (Except ε Binary) β} (hasker : asker.Within (fun q ↦ q.1 + q.2 ≤ file.length) Q) :
    withReader r asker = .ok (asker.answer fun q ↦ pread file q.1 q.2) := by
  refine withReader_eq_answer hr hchunk (fun q hq ↦ ?_) hasker
  exact (directRead_eq_ok hr).mpr ⟨.inr hq, rfl⟩

end File

end BufferedRead

/-! ## The parser, as someone who asks -/

namespace Physical

/-- A range is asked for, and the answer is its bytes. -/
abbrev Asking (β : Type) := Inquiry (ℕ × ℕ) (Except ReadError Binary) β

namespace Asking

/-- `read_exact`. -/
def readExact (offset length : ℕ) : Asking (Except ReadError Binary) :=
  .ask (offset, length) fun answer ↦ .done do
    let bytes ← answer
    check (bytes.length == length) .changedFileOrShortRead
    return bytes

/-- `read_at`. -/
def readAt (ctx : Context) (offset limit : ℕ) : Asking (Except ReadError (Binary × Context)) :=
  let length := min limit (ctx.size - offset)
  if length == 0 then .done (.ok ([], ctx))
  else if ctx.bufferOffset ≤ offset && offset + length ≤ ctx.bufferOffset + ctx.buffer.length then
    .done (.ok ((ctx.buffer.drop (offset - ctx.bufferOffset)).take length, ctx))
  else if readWindow < length then
    (readExact offset length).bind fun result ↦ .done do
      let bytes ← result
      return (bytes, { ctx with buffer := [] })
  else
    (readExact offset (min readWindow (ctx.size - offset))).bind fun result ↦ .done do
      let buffer ← result
      return (buffer.take length, { ctx with bufferOffset := offset, buffer })

variable {α : Type} (visitor : Record → ℕ → α → Visit α)

/-- `record`. -/
def record (ctx : Context) (segment : Segment) (acc : α) : Asking (Turn α) :=
  (readAt ctx segment.bytes 24).bind fun result ↦
    match result with
    | .error reason => .done (.stop (fail ctx .ioOrResourceError segment.bytes (.read reason)))
    | .ok (header, ctx) =>
      match decode header ctx.options.maxDecodePayloadBytes with
      | .incomplete _ metadata =>
        (readAt ctx segment.bytes metadata.recordBytes).bind fun result ↦
          match result with
          | .error reason => .done (.stop (fail ctx .ioOrResourceError segment.bytes (.read reason)))
          | .ok (bytes, ctx) =>
            .done (acceptRecord visitor ctx segment acc bytes (decode bytes ctx.options.maxDecodePayloadBytes))
      | other => .done (.stop (recordFailure ctx segment.bytes header.length other))

/-- `finish`. -/
def finish (ctx : Context) (segment : Segment) (acc : α) : Asking (Scan α) :=
  let remaining := ctx.size - segment.bytes
  if remaining < 64 then
    .done (incomplete ctx .incompleteFooter segment.bytes remaining 64 (.kind .incompleteFooter))
  else if 64 < remaining then .done (fail ctx .corruptFooter segment.bytes .trailingFooterBytes)
  else
    (readAt ctx segment.bytes 64).bind fun result ↦
      match result with
      | .error reason => .done (fail ctx .ioOrResourceError segment.bytes (.read reason))
      | .ok (bytes, ctx) =>
        match decodeFooter bytes segment.id segment.firstSequence segment.storeId segment.count
            segment.lastSequence (segment.crcState.bind CRC32C.finalize) with
        | .ok footer =>
          .done (.ok { segment with sealed := true, footer := some footer, bytes := ctx.size } acc)
        | .error error => .done (footerFailure ctx segment.bytes error)

/-- `next`. -/
def next (ctx : Context) (segment : Segment) (acc : α) : Asking (Turn α) :=
  (readAt ctx segment.bytes 4).bind fun result ↦
    match result with
    | .error reason => .done (.stop (fail ctx .ioOrResourceError segment.bytes (.read reason)))
    | .ok (four, ctx) =>
      if four = [] then
        if !ctx.options.highest then
          .done (.stop (fail ctx .sealedHistoryError segment.bytes .earlierActiveSegment))
        else if maxBytes - 64 < ctx.size then
          .done (.stop (fail ctx .recordOrSequenceError segment.bytes .activeSizeExceedsFormat))
        else .done (.stop (.ok { segment with sealed := false } acc))
      else if four = footerMagic then (finish ctx segment acc).bind fun scan ↦ .done (.stop scan)
      else if four = recordMagic then record visitor ctx segment acc
      else if four.length < 4 && four == (recordMagic.take 3).take four.length then
        .done (.stop (incomplete ctx .ambiguousShortTail segment.bytes four.length 4 (.kind .ambiguousShortTail)))
      else
        .done (.stop (fail ctx .recordOrSequenceError segment.bytes (.record (.error (.corrupt .invalidMagic)))))

/-- The loop, with the fuel of the parser of a file. -/
def loop : ℕ → Context → Segment → α → Asking (Option (Scan α))
  | 0, _, _, _ => .done none
  | fuel + 1, ctx, segment, acc =>
    (next visitor ctx segment acc).bind fun turn ↦
      match turn with
      | .stop scan => .done (some scan)
      | .more ctx segment acc => loop fuel ctx segment acc

/-- `start`. -/
def start (ctx : Context) (header : Binary) (acc : α) : Asking (Option (Scan α)) :=
  match decodeSegmentHeader header ctx.options.id ctx.options.storeId with
  | .error error => .done (some (headerFailure ctx header.length error))
  | .ok h =>
    let ctx := { ctx with id := some h.id }
    if maxBytes < ctx.size then .done (some (fail ctx .corruptSegmentHeader 0 .segmentSizeExceedsFormat))
    else loop visitor (ctx.size + 1) ctx
      { id := h.id, firstSequence := h.firstSequence, storeId := h.storeId
        crcState := CRC32C.update CRC32C.initial header } acc

/-- `run`: nothing here reads but by asking, and the function in the context is none. -/
def run (size : ℕ) (options : Options) (acc : α) : Asking (Option (Scan α)) :=
  if validOptions? options then
    let ctx : Context := { read := fun _ _ ↦ .error .io, size, options, id := options.id }
    (readExact 0 (min size 44)).bind fun result ↦
      match result with
      | .error reason => .done (some (fail ctx .ioOrResourceError 0 (.read reason)))
      | .ok header => start visitor ctx header acc
  else .done (some (.error ⟨.invalidArgument, .kind .invalidArgument, none, 0, none⟩))

end Asking

/-! ## What is asked, and what is answered -/

/-- The context with a function that reads. -/
def Context.over (ctx : Context) (f : ℕ × ℕ → Except ReadError Binary) : Context :=
  { ctx with read := fun offset length ↦ f (offset, length) }

def Turn.over {α : Type} (turn : Turn α) (f : ℕ × ℕ → Except ReadError Binary) : Turn α :=
  match turn with
  | .stop scan => .stop scan
  | .more ctx segment acc => .more (ctx.over f) segment acc

section Over

variable {α : Type} {visitor : Record → ℕ → α → Visit α} {f : ℕ × ℕ → Except ReadError Binary}

theorem readExact_over (ctx : Context) (offset length : ℕ) :
    readExact (ctx.over f) offset length = (Asking.readExact offset length).answer f := rfl

theorem readAt_over (ctx : Context) (offset limit : ℕ) : readAt (ctx.over f) offset limit =
    ((Asking.readAt ctx offset limit).answer f).map fun p ↦ (p.1, p.2.over f) := by
  show (if (min limit (ctx.size - offset) == 0) = true then _ else if (decide (ctx.bufferOffset ≤ offset) &&
    decide (offset + min limit (ctx.size - offset) ≤ ctx.bufferOffset + ctx.buffer.length)) = true then _
    else if readWindow < min limit (ctx.size - offset) then
      (Asking.readExact offset (min limit (ctx.size - offset))).answer f >>= _
    else (Asking.readExact offset (min readWindow (ctx.size - offset))).answer f >>= _) = _
  rw [Asking.readAt]
  split
  · rfl
  split
  · rfl
  split
  · rw [Inquiry.answer_bind, Inquiry.answer_done]
    rcases (Asking.readExact offset (min limit (ctx.size - offset))).answer f with reason | bytes <;> rfl
  · rw [Inquiry.answer_bind, Inquiry.answer_done]
    rcases (Asking.readExact offset (min readWindow (ctx.size - offset))).answer f with reason | buffer <;> rfl

theorem acceptRecord_over (ctx : Context) (segment : Segment) (acc : α) (bytes : Binary) (result : Decoded) :
    acceptRecord visitor (ctx.over f) segment acc bytes result =
      (acceptRecord visitor ctx segment acc bytes result).over f := by
  unfold acceptRecord
  split
  case h_2 => rfl
  split
  · rfl
  split
  · rfl
  dsimp only
  split <;> rfl

theorem record_over (ctx : Context) (segment : Segment) (acc : α) :
    record visitor (ctx.over f) segment acc = ((Asking.record visitor ctx segment acc).answer f).over f := by
  rw [record, Asking.record, Inquiry.answer_bind, readAt_over]
  rcases (Asking.readAt ctx segment.bytes 24).answer f with reason | ⟨header, ctx₁⟩
  · rfl
  dsimp only [Except.map]
  have hoptions : (ctx₁.over f).options = ctx₁.options := rfl
  rw [hoptions]
  rcases decode header ctx₁.options.maxDecodePayloadBytes with _ | _ | ⟨_, metadata⟩ | _
  case incomplete =>
    dsimp only
    rw [readAt_over, Inquiry.answer_bind]
    rcases (Asking.readAt ctx₁ segment.bytes metadata.recordBytes).answer f with reason | ⟨bytes, ctx₂⟩
    · rfl
    · exact acceptRecord_over ctx₂ segment acc bytes _
  all_goals rfl

theorem finish_over (ctx : Context) (segment : Segment) (acc : α) :
    finish (ctx.over f) segment acc = (Asking.finish ctx segment acc).answer f := by
  rw [finish, readAt_over]
  show (if ctx.size - segment.bytes < 64 then _ else if 64 < ctx.size - segment.bytes then _ else _) = _
  rw [Asking.finish]
  split
  · rfl
  split
  · rfl
  rw [Inquiry.answer_bind]
  rcases (Asking.readAt ctx segment.bytes 64).answer f with reason | ⟨bytes, ctx₁⟩
  · rfl
  dsimp only [Except.map]
  rcases decodeFooter bytes segment.id segment.firstSequence segment.storeId segment.count segment.lastSequence
    (segment.crcState.bind CRC32C.finalize) with error | footer
  · cases error <;> rfl
  · rfl

theorem next_over (ctx : Context) (segment : Segment) (acc : α) :
    next visitor (ctx.over f) segment acc = ((Asking.next visitor ctx segment acc).answer f).over f := by
  rw [next, Asking.next, Inquiry.answer_bind, readAt_over]
  rcases (Asking.readAt ctx segment.bytes 4).answer f with reason | ⟨four, ctx₁⟩
  · rfl
  dsimp only [Except.map]
  by_cases hempty : four = []
  · rw [if_pos hempty, if_pos hempty]
    show (if (!ctx₁.options.highest) = true then _ else if maxBytes - 64 < ctx₁.size then _ else _) = _
    split
    · rfl
    split <;> rfl
  rw [if_neg hempty, if_neg hempty]
  by_cases hfooter : four = footerMagic
  · rw [if_pos hfooter, if_pos hfooter, Inquiry.answer_bind, finish_over]
    rfl
  rw [if_neg hfooter, if_neg hfooter]
  by_cases hrecord : four = recordMagic
  · rw [if_pos hrecord, if_pos hrecord]
    exact record_over ctx₁ segment acc
  rw [if_neg hrecord, if_neg hrecord]
  split <;> rfl

theorem loop_over (fuel : ℕ) (ctx : Context) (segment : Segment) (acc : α) :
    loop visitor fuel (ctx.over f) segment acc = (Asking.loop visitor fuel ctx segment acc).answer f := by
  induction fuel generalizing ctx segment acc with
  | zero => rfl
  | succ fuel ih =>
    rw [loop, Asking.loop, Inquiry.answer_bind, next_over]
    rcases (Asking.next visitor ctx segment acc).answer f with scan | ⟨ctx₁, segment₁, acc₁⟩
    · rfl
    · exact ih ctx₁ segment₁ acc₁

theorem start_over (ctx : Context) (header : Binary) (acc : α) :
    start visitor (ctx.over f) header acc = (Asking.start visitor ctx header acc).answer f := by
  rw [start, Asking.start]
  have hoptions : (ctx.over f).options = ctx.options := rfl
  rw [hoptions]
  rcases decodeSegmentHeader header ctx.options.id ctx.options.storeId with error | h
  · cases error with
    | mismatch key => rfl
    | _ => rfl
  · dsimp only
    show (if maxBytes < ctx.size then _ else loop visitor (ctx.size + 1)
      (Context.over { ctx with id := some h.id } f) _ _) = _
    split
    · rfl
    · exact loop_over _ _ _ _

/-- Answered by a function, the parser that asks is the parser that reads by it. -/
theorem run_over (size : ℕ) (options : Options) (acc : α) :
    run visitor (fun offset length ↦ f (offset, length)) size options acc =
      (Asking.run visitor size options acc).answer f := by
  rw [run, Asking.run]
  split
  · have hctx : (⟨fun offset length ↦ f (offset, length), size, options, options.id, 0, []⟩ : Context) =
        Context.over ⟨fun _ _ ↦ .error .io, size, options, options.id, 0, []⟩ f := rfl
    dsimp only
    rw [Inquiry.answer_bind, hctx, readExact_over]
    rcases (Asking.readExact 0 (min size 44)).answer f with reason | header
    · rfl
    · exact start_over _ _ _
  · rfl

end Over

section Range

variable {α : Type} {visitor : Record → ℕ → α → Visit α} {n : ℕ}

/-- The range ends in a file of this size. -/
def InFile (n : ℕ) (q : ℕ × ℕ) : Prop := q.1 + q.2 ≤ n

/-- The loop goes on over a file of this size. -/
def Turn.Sized (n : ℕ) (turn : Turn α) : Prop :=
  ∀ ctx segment acc, turn = .more ctx segment acc → ctx.size = n

theorem Turn.sized_stop (scan : Scan α) : (Turn.stop scan).Sized n := by
  intro _ _ _ h
  cases h

theorem readAt_within {ctx : Context} (hctx : ctx.size = n) (offset limit : ℕ) :
    (Asking.readAt ctx offset limit).Within (InFile n) fun result ↦ ∀ p, result = .ok p → p.2.size = n := by
  have hexact : ∀ length, offset + length ≤ n →
      (Asking.readExact offset length).Within (InFile n) fun _ ↦ True := fun _ h ↦ ⟨h, fun _ ↦ trivial⟩
  rw [Asking.readAt, hctx]
  split
  · rintro p ⟨⟩
    exact hctx
  case isFalse hzero =>
    rw [beq_iff_eq] at hzero
    split
    · rintro p ⟨⟩
      exact hctx
    split
    all_goals
      refine (hexact _ (by omega)).bind fun result _ p hp ↦ ?_
      obtain ⟨bytes, -, hbytes⟩ := bind_eq_ok.mp hp
      cases hbytes
      rfl

theorem acceptRecord_sized {ctx : Context} (hctx : ctx.size = n) (segment : Segment) (acc : α) (bytes : Binary)
    (result : Decoded) : (acceptRecord visitor ctx segment acc bytes result).Sized n := by
  intro ctx' segment' acc' h
  unfold acceptRecord at h
  split at h
  case h_2 => cases h
  split at h
  · cases h
  split at h
  · cases h
  dsimp only at h
  split at h
  · cases h
    exact hctx
  all_goals cases h

theorem record_within {ctx : Context} (hctx : ctx.size = n) (segment : Segment) (acc : α) :
    (Asking.record visitor ctx segment acc).Within (InFile n) (Turn.Sized n) := by
  refine (readAt_within hctx segment.bytes 24).bind fun result hresult ↦ ?_
  rcases result with reason | ⟨header, ctx₁⟩
  · exact Turn.sized_stop _
  dsimp only
  rcases decode header ctx₁.options.maxDecodePayloadBytes with _ | _ | ⟨_, metadata⟩ | _
  case incomplete =>
    refine (readAt_within (hresult _ rfl) segment.bytes metadata.recordBytes).bind fun result hresult ↦ ?_
    rcases result with reason | ⟨bytes, ctx₂⟩
    · exact Turn.sized_stop _
    · exact acceptRecord_sized (hresult _ rfl) segment acc bytes _
  all_goals exact Turn.sized_stop _

theorem finish_within {ctx : Context} (hctx : ctx.size = n) (segment : Segment) (acc : α) :
    (Asking.finish ctx segment acc).Within (InFile n) fun _ ↦ True := by
  rw [Asking.finish]
  split
  · trivial
  split
  · trivial
  refine (readAt_within hctx segment.bytes 64).bind fun result _ ↦ ?_
  rcases result with reason | ⟨bytes, ctx₁⟩
  · trivial
  dsimp only
  split <;> trivial

theorem next_within {ctx : Context} (hctx : ctx.size = n) (segment : Segment) (acc : α) :
    (Asking.next visitor ctx segment acc).Within (InFile n) (Turn.Sized n) := by
  refine (readAt_within hctx segment.bytes 4).bind fun result hresult ↦ ?_
  rcases result with reason | ⟨four, ctx₁⟩
  · exact Turn.sized_stop _
  have hctx₁ : ctx₁.size = n := hresult _ rfl
  dsimp only
  split
  · split
    · exact Turn.sized_stop _
    split <;> exact Turn.sized_stop _
  split
  · exact (finish_within hctx₁ segment acc).bind fun scan _ ↦ Turn.sized_stop scan
  split
  · exact record_within hctx₁ segment acc
  split <;> exact Turn.sized_stop _

theorem loop_within (fuel : ℕ) {ctx : Context} (hctx : ctx.size = n) (segment : Segment) (acc : α) :
    (Asking.loop visitor fuel ctx segment acc).Within (InFile n) fun _ ↦ True := by
  induction fuel generalizing ctx segment acc with
  | zero => trivial
  | succ fuel ih =>
    refine (next_within hctx segment acc).bind fun turn hturn ↦ ?_
    rcases turn with scan | ⟨ctx₁, segment₁, acc₁⟩
    · trivial
    · exact ih (hturn _ _ _ rfl) segment₁ acc₁

/-- The parser never asks for what is not in the file. -/
theorem run_within (size : ℕ) (options : Options) (acc : α) :
    (Asking.run visitor size options acc).Within (InFile size) fun _ ↦ True := by
  rw [Asking.run]
  split
  · refine ⟨?_, fun answer ↦ ?_⟩
    · show 0 + min size 44 ≤ size
      omega
    dsimp only [Inquiry.bind]
    split
    · trivial
    rw [Asking.start]
    split
    · trivial
    dsimp only
    split
    · trivial
    · refine loop_within (size + 1) ?_ _ _
      rfl
  · trivial

end Range

/-! ## Transparency -/

/-- `read_at`, again and again. -/
def Asking.readsAt (ctx : Context) : List (ℕ × ℕ) → Asking (Except ReadError (List Binary))
  | [] => .done (.ok [])
  | q :: rest =>
    (readAt ctx q.1 q.2).bind fun result ↦
      match result with
      | .error reason => .done (.error reason)
      | .ok (bytes, ctx) => (readsAt ctx rest).bind fun result ↦ .done (result.map (bytes :: ·))

theorem readsAt_within (requests : List (ℕ × ℕ)) {ctx : Context} {n : ℕ} (hctx : ctx.size = n) :
    (Asking.readsAt ctx requests).Within (InFile n) fun _ ↦ True := by
  induction requests generalizing ctx with
  | nil => trivial
  | cons q rest ih =>
    refine (readAt_within hctx q.1 q.2).bind fun result hresult ↦ ?_
    rcases result with reason | ⟨bytes, ctx₁⟩
    · trivial
    · exact (ih (hresult _ rfl)).bind fun _ _ ↦ trivial

/-- The window shows what stands in the file, wherever it was before. -/
theorem readsAt_eq {file : Binary} (requests : List (ℕ × ℕ)) {ctx : Context}
    (hctx : (ctx.over fun q ↦ BufferedRead.pread file q.1 q.2).Sees file) :
    (Asking.readsAt ctx requests).answer (fun q ↦ BufferedRead.pread file q.1 q.2) =
      .ok (requests.map fun q ↦ slice file q.1 q.2) := by
  induction requests generalizing ctx with
  | nil => rfl
  | cons q rest ih =>
    obtain ⟨ctx', hread, hsees, -⟩ := readAt_sees hctx q.1 q.2
    rw [readAt_over] at hread
    rw [Asking.readsAt, Inquiry.answer_bind]
    rcases hanswer : (Asking.readAt ctx q.1 q.2).answer fun q ↦ BufferedRead.pread file q.1 q.2 with
      reason | ⟨bytes, ctx₁⟩
    · rw [hanswer] at hread
      cases hread
    · rw [hanswer] at hread
      obtain ⟨rfl, rfl⟩ := Prod.mk.inj (Except.ok.inj hread)
      rw [hanswer]
      dsimp only
      rw [Inquiry.answer_bind, ih hsees, List.map_cons]
      rfl

/-- The context of a parser before it has read anything. -/
def Asking.context (size : ℕ) (options : Options) : Context :=
  ⟨fun _ _ ↦ .error .io, size, options, options.id, 0, []⟩

end Physical

namespace BufferedRead

open Physical (ReadError Asking slice)

/-- A file is read through a reader as it is read without one. -/
structure Transparent (r : Reader ReadError) (file : Binary) : Prop where
  /-- Every sequence of requests is answered by direct reads, one by one. -/
  requests : ∀ l : List (ℕ × ℕ), withReader r (.each l) = .ok (l.map fun q ↦ directRead r q.1 q.2)
  /-- So is a request that depends on the answers before it. -/
  asker : ∀ {β : Type} (asker : Asking β), withReader r asker = .ok (asker.answer fun q ↦ directRead r q.1 q.2)
  /-- A direct read answers what stands in the file. -/
  direct : ∀ (offset length : ℕ) (bytes : Binary), directRead r offset length = .ok bytes ↔
    (length = 0 ∨ offset + length ≤ file.length) ∧ bytes = slice file offset length
  /-- Where the range leaves the file, there are no bytes, whether or not the size is looked at first. -/
  ended : ∀ offset length : ℕ, (directRead r offset length).toOption = (exactRead r offset length).toOption
  /-- The window of the parser shows the file from every offset, as far as the file goes. -/
  window : ∀ (options : Physical.Options) (l : List (ℕ × ℕ)),
    withReader r (Asking.readsAt (Asking.context file.length options) l) =
      .ok (.ok (l.map fun q ↦ slice file q.1 q.2))
  /-- The parser says what it says of the bytes of the file. -/
  parse : ∀ {α : Type} (visitor : Physical.Record → ℕ → α → Physical.Visit α) (options : Physical.Options)
      (acc : α),
    withReader r (Asking.run visitor file.length options acc) =
      .ok (Physical.run visitor (Physical.binaryPart file) file.length options acc)

theorem directRead_toOption {ε : Type} {r : Reader ε} {file : Binary} (hr : r.Reads file) (offset length : ℕ) :
    (directRead r offset length).toOption = (exactRead r offset length).toOption := by
  have hlength := Physical.length_slice file offset length
  refine Option.ext fun bytes ↦ ?_
  rw [toOption_eq_some, toOption_eq_some, directRead_eq_ok hr, exactRead, hr.source]
  constructor
  · rintro ⟨hrange, rfl⟩
    exact check_bind_eq_ok.mpr ⟨beq_iff_eq.mpr (by omega), rfl⟩
  · intro h
    obtain ⟨hexact, hbytes⟩ := check_bind_eq_ok.mp h
    obtain rfl := Except.ok.inj hbytes
    rw [beq_iff_eq] at hexact
    exact ⟨by omega, rfl⟩

/-- **Buffered reading is transparent.** For every file and every size of the chunk. -/
theorem buffered_transparent (file : Binary) {chunkBytes : ℕ} (hchunk : 0 < chunkBytes)
    (invalidRange shortRead : ReadError) : Transparent (.ofFile file chunkBytes invalidRange shortRead) file where
  requests l := by
    rw [withReader_eq (Reader.ofFile_reads _ _ _ _) hchunk, Inquiry.answer_each]
  asker asker := withReader_eq (Reader.ofFile_reads _ _ _ _) hchunk asker
  direct _ _ _ := directRead_eq_ok (Reader.ofFile_reads _ _ _ _)
  ended := directRead_toOption (Reader.ofFile_reads _ _ _ _)
  window options l := by
    rw [withReader_eq_pread (Reader.ofFile_reads _ _ _ _) hchunk (Physical.readsAt_within l rfl)]
    exact congrArg Except.ok (Physical.readsAt_eq l ⟨rfl, rfl, rfl⟩)
  parse visitor options acc := by
    rw [withReader_eq_pread (Reader.ofFile_reads _ _ _ _) hchunk (Physical.run_within _ options acc),
      ← Physical.run_over]
    rfl

theorem buffered_transparent_short : 0 < 2 ∧ Transparent (.ofFile [84, 65, 89] 2 .io .io) [84, 65, 89] :=
  ⟨by decide, buffered_transparent [84, 65, 89] (by decide) .io .io⟩

-- The second request goes back before the chunk, and the last one over the end.
example : withReader (.ofFile [1, 2, 3, 4, 5] 2 .io .changedFileOrShortRead) (.each [(2, 1), (1, 2), (2, 1), (4, 2)]) =
    .ok [.ok [3], .ok [2, 3], .ok [3], .error ReadError.io] := by
  decide

end BufferedRead

end Tay
