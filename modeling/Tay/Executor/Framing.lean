import Tay.Executor.Protocol

/-!
# Chunks

A socket delivers bytes in chunks of any length, and `Tay.Executor.Connection` decodes after each of them
what is complete, and keeps the rest. The frames of a stream do not depend on how it was cut. What does
depend on it is which of the frames in front of a bad one are still delivered: `decode_frames` answers with
the error alone, and the frames that came in the same chunk are lost with it. A chunk that is too long for
the buffer closes the connection before anything is decoded.
-/

open Foundation

namespace Tay.Protocol

/-! ## The connection -/

/-- Why a connection is closed by its bytes. -/
inductive Fault
  | bufferLimit
  | refused (reason : Refusal)
  deriving DecidableEq, Repr

/-- `max_buffer_bytes`. -/
def maxBufferBytes (maxFrameBytes : ℕ) : ℕ := maxFrameBytes * 2 + 8

/-- `handle_info({:tcp, socket, bytes}, s)`: the messages, and the buffer that is kept. -/
def handleData (json : Json) (maxFrameBytes : ℕ) (buffer bytes : Binary) : Except Fault (List Message × Binary) :=
  if maxBufferBytes maxFrameBytes < buffer.length + bytes.length then .error .bufferLimit
  else (decodeFrames json (buffer ++ bytes) maxFrameBytes).mapError .refused

/-- One chunk after another: all messages that are delivered, and the buffer or what closed the connection. -/
def feed (json : Json) (maxFrameBytes : ℕ) : Binary → List Binary → List Message × Except Fault Binary
  | buffer, [] => ([], .ok buffer)
  | buffer, bytes :: chunks =>
    match handleData json maxFrameBytes buffer bytes with
    | .error fault => ([], .error fault)
    | .ok (messages, rest) =>
      let later := feed json maxFrameBytes rest chunks
      (messages ++ later.1, later.2)

/-! ## The frames of a stream -/

/-- The messages of a stream up to its end or its first bad frame, and what follows them. -/
def framesOf (json : Json) (maxFrameBytes : ℕ) (stream : Binary) : List Message × Except Refusal Binary :=
  match stream with
  | a :: b :: c :: d :: rest =>
    let size := frameSize a b c d
    if size == 0 then ([], .error .emptyFrame)
    else if maxFrameBytes < size then ([], .error .frameTooLarge)
    else if rest.length < size then ([], .ok stream)
    else
      match decodeMessage json (rest.take size) maxFrameBytes with
      | .error reason => ([], .error reason)
      | .ok message =>
        let later := framesOf json maxFrameBytes (rest.drop size)
        (message :: later.1, later.2)
  | short => ([], .ok short)
termination_by stream.length
decreasing_by
  simp only [List.length_drop, List.length_cons]
  omega

variable {json : Json} {maxFrameBytes : ℕ}

theorem decodeLoop_eq (buffer : Binary) (acc : List Message) : decodeLoop json maxFrameBytes buffer acc =
    (framesOf json maxFrameBytes buffer).2.map fun rest ↦
      (acc.reverse ++ (framesOf json maxFrameBytes buffer).1, rest) := by
  fun_induction decodeLoop json maxFrameBytes buffer acc with
  | case1 acc a b c d rest size hzero =>
    rw [framesOf, if_pos hzero]
    rfl
  | case2 acc a b c d rest size hzero hlarge =>
    rw [framesOf, if_neg hzero, if_pos hlarge]
    rfl
  | case3 acc a b c d rest size hzero hlarge hshort =>
    rw [framesOf, if_neg hzero, if_neg hlarge, if_pos hshort]
    simp only [Except.map, List.append_nil]
  | case4 acc a b c d rest size hzero hlarge hshort reason hdecode =>
    rw [framesOf, if_neg hzero, if_neg hlarge, if_neg hshort, hdecode]
    rfl
  | case5 acc a b c d rest size hzero hlarge hshort message hdecode ih =>
    rw [framesOf, if_neg hzero, if_neg hlarge, if_neg hshort, hdecode, ih, List.reverse_cons]
    simp only [List.append_assoc, List.singleton_append]
    rfl
  | case6 acc short hshort =>
    rw [framesOf]
    · simp only [Except.map, List.append_nil]
    · exact hshort

theorem decodeFrames_eq (hlimit : validFrameLimit maxFrameBytes = true) (buffer : Binary) :
    decodeFrames json buffer maxFrameBytes =
      (framesOf json maxFrameBytes buffer).2.map fun rest ↦ ((framesOf json maxFrameBytes buffer).1, rest) := by
  rw [decodeFrames, hlimit, check_true, ok_bind, decodeLoop_eq]
  rfl

/-- What is incomplete is less than one frame. -/
theorem length_rest {stream rest : Binary} (h : (framesOf json maxFrameBytes stream).2 = .ok rest) :
    rest.length ≤ maxFrameBytes + 3 := by
  fun_induction framesOf json maxFrameBytes stream with
  | case1 => cases h
  | case2 => cases h
  | case3 a b c d rest size hzero hlarge hshort =>
    cases h
    simp only [List.length_cons]
    omega
  | case4 => cases h
  | case5 a b c d rest size hzero hlarge hshort message hdecode later ih => exact ih h
  | case6 short hshort =>
    cases h
    rcases rest with _ | ⟨a, _ | ⟨b, _ | ⟨c, _ | ⟨d, l⟩⟩⟩⟩
    case cons.cons.cons.cons => exact absurd rfl (hshort a b c d l)
    all_goals
      simp only [List.length_cons, List.length_nil]
      omega

/-- What is incomplete is decoded again and found incomplete. -/
theorem framesOf_rest {stream rest : Binary} (h : (framesOf json maxFrameBytes stream).2 = .ok rest) :
    framesOf json maxFrameBytes rest = ([], .ok rest) := by
  fun_induction framesOf json maxFrameBytes stream with
  | case1 => cases h
  | case2 => cases h
  | case3 a b c d rest size hzero hlarge hshort =>
    cases h
    rw [framesOf, if_neg hzero, if_neg hlarge, if_pos hshort]
  | case4 => cases h
  | case5 a b c d rest size hzero hlarge hshort message hdecode later ih => exact ih h
  | case6 short hshort =>
    cases h
    rw [framesOf]
    exact hshort

/-- What has been decoded, and then more bytes. -/
def resume (json : Json) (maxFrameBytes : ℕ) (read : List Message × Except Refusal Binary) (more : Binary) :
    List Message × Except Refusal Binary :=
  match read.2 with
  | .error _ => read
  | .ok rest =>
    let later := framesOf json maxFrameBytes (rest ++ more)
    (read.1 ++ later.1, later.2)

theorem resume_cons (message : Message) (read : List Message × Except Refusal Binary) (more : Binary) :
    resume json maxFrameBytes (message :: read.1, read.2) more =
      (message :: (resume json maxFrameBytes read more).1, (resume json maxFrameBytes read more).2) := by
  obtain ⟨messages, reason | rest⟩ := read <;> rfl

/-- A bad frame is one however the stream goes on, and what was incomplete is decoded with what follows it. -/
theorem framesOf_append (stream more : Binary) : framesOf json maxFrameBytes (stream ++ more) =
    resume json maxFrameBytes (framesOf json maxFrameBytes stream) more := by
  fun_induction framesOf json maxFrameBytes stream with
  | case1 a b c d rest size hzero =>
    rw [List.cons_append, List.cons_append, List.cons_append, List.cons_append, framesOf, if_pos hzero]
    rfl
  | case2 a b c d rest size hzero hlarge =>
    rw [List.cons_append, List.cons_append, List.cons_append, List.cons_append, framesOf, if_neg hzero,
      if_pos hlarge]
    rfl
  | case3 => rfl
  | case4 a b c d rest size hzero hlarge hshort reason hdecode =>
    have hlength : ¬(rest ++ more).length < size := by
      rw [List.length_append]
      omega
    rw [List.cons_append, List.cons_append, List.cons_append, List.cons_append, framesOf, if_neg hzero,
      if_neg hlarge, if_neg hlength, List.take_append_of_le_length (by omega), hdecode]
    rfl
  | case5 a b c d rest size hzero hlarge hshort message hdecode later ih =>
    have hlength : ¬(rest ++ more).length < size := by
      rw [List.length_append]
      omega
    rw [List.cons_append, List.cons_append, List.cons_append, List.cons_append, framesOf, if_neg hzero,
      if_neg hlarge, if_neg hlength, List.take_append_of_le_length (by omega), hdecode,
      List.drop_append_of_le_length (by omega)]
    dsimp only
    rw [ih, resume_cons]
  | case6 => rfl

theorem framesOf_nil : framesOf json maxFrameBytes [] = ([], .ok []) := by
  rw [framesOf]
  rintro _ _ _ _ _ ⟨⟩

/-! ## Any cut of it -/

/-- One chunk, by the frames of what has been read. -/
theorem handleData_eq (hlimit : validFrameLimit maxFrameBytes = true) {buffer bytes : Binary}
    (hroom : ¬maxBufferBytes maxFrameBytes < buffer.length + bytes.length) :
    handleData json maxFrameBytes buffer bytes = ((framesOf json maxFrameBytes (buffer ++ bytes)).2.map fun rest ↦
      ((framesOf json maxFrameBytes (buffer ++ bytes)).1, rest)).mapError .refused := by
  rw [handleData, if_neg hroom, decodeFrames_eq hlimit]

/-- What chunks deliver, against the frames of what they add up to. -/
structure Cut (json : Json) (maxFrameBytes : ℕ) (stream : Binary) (chunks : List Binary)
    (fed : List Message × Except Fault Binary) : Prop where
  delivered : fed.1 <+: (framesOf json maxFrameBytes stream).1
  complete : ∀ rest, fed.2 = .ok rest → framesOf json maxFrameBytes stream = (fed.1, .ok rest)
  refused : ∀ reason, fed.2 = .error (.refused reason) → (framesOf json maxFrameBytes stream).2 = .error reason
  overflow : fed.2 = .error .bufferLimit → ∃ bytes ∈ chunks, maxFrameBytes + 5 < bytes.length

theorem feed_cut (hlimit : validFrameLimit maxFrameBytes = true) (chunks : List Binary) {buffer : Binary}
    (hbuffer : framesOf json maxFrameBytes buffer = ([], .ok buffer)) :
    Cut json maxFrameBytes (buffer ++ chunks.flatten) chunks (feed json maxFrameBytes buffer chunks) := by
  induction chunks generalizing buffer with
  | nil =>
    rw [List.flatten_nil, List.append_nil, feed]
    exact ⟨List.nil_prefix, by rintro rest ⟨⟩; exact hbuffer, by rintro reason ⟨⟩, by rintro ⟨⟩⟩
  | cons bytes chunks ih =>
    have hstream : framesOf json maxFrameBytes (buffer ++ (bytes :: chunks).flatten) =
        resume json maxFrameBytes (framesOf json maxFrameBytes (buffer ++ bytes)) chunks.flatten := by
      rw [List.flatten_cons, ← List.append_assoc, framesOf_append]
    rw [feed]
    by_cases hroom : maxBufferBytes maxFrameBytes < buffer.length + bytes.length
    · rw [handleData, if_pos hroom]
      refine ⟨List.nil_prefix, by rintro rest ⟨⟩, by rintro reason ⟨⟩, fun _ ↦ ⟨bytes, List.mem_cons_self, ?_⟩⟩
      have hkept := length_rest (congrArg Prod.snd hbuffer)
      rw [maxBufferBytes] at hroom
      omega
    rw [handleData_eq hlimit hroom]
    rcases hread : framesOf json maxFrameBytes (buffer ++ bytes) with ⟨messages, reason | rest⟩
    · rw [hread] at hstream
      refine ⟨List.nil_prefix, by rintro rest ⟨⟩, ?_, by rintro ⟨⟩⟩
      rintro reason ⟨⟩
      rw [hstream]
      rfl
    · rw [hread] at hstream
      have hrest := framesOf_rest (congrArg Prod.snd hread)
      obtain ⟨hdelivered, hcomplete, hrefused, hoverflow⟩ := ih hrest
      have hwhole : framesOf json maxFrameBytes (buffer ++ (bytes :: chunks).flatten) =
          (messages ++ (framesOf json maxFrameBytes (rest ++ chunks.flatten)).1,
            (framesOf json maxFrameBytes (rest ++ chunks.flatten)).2) := hstream
      refine ⟨?_, fun last hlast ↦ ?_, fun reason hreason ↦ ?_, fun h ↦ ?_⟩
      · rw [hwhole]
        exact (List.prefix_append_right_inj messages).mpr hdelivered
      · rw [hwhole, hcomplete last hlast]
        rfl
      · rw [hwhole]
        exact hrefused reason hreason
      · obtain ⟨long, hlong, hlength⟩ := hoverflow h
        exact ⟨long, List.mem_cons_of_mem _ hlong, hlength⟩

theorem feed_append {buffer rest : Binary} {first : List Binary}
    (h : (feed json maxFrameBytes buffer first).2 = .ok rest) (more : List Binary) :
    feed json maxFrameBytes buffer (first ++ more) =
      ((feed json maxFrameBytes buffer first).1 ++ (feed json maxFrameBytes rest more).1,
        (feed json maxFrameBytes rest more).2) := by
  induction first generalizing buffer with
  | nil =>
    cases h
    rfl
  | cons bytes first ih =>
    rw [feed] at h ⊢
    rw [List.cons_append, feed]
    rcases hdata : handleData json maxFrameBytes buffer bytes with fault | ⟨messages, kept⟩
    · rw [hdata] at h
      cases h
    · rw [hdata] at h
      dsimp only at h ⊢
      rw [ih h, List.append_assoc]

/-- Without a limit that can be, every chunk is refused. -/
theorem handleData_refused (hlimit : ¬validFrameLimit maxFrameBytes = true) (buffer bytes : Binary) :
    handleData json maxFrameBytes buffer bytes = .error .bufferLimit ∧
        maxFrameBytes + 5 < buffer.length + bytes.length ∨
      handleData json maxFrameBytes buffer bytes = .error (.refused .invalidFrameLimit) := by
  rw [handleData, decodeFrames, Bool.eq_false_of_not_eq_true hlimit, check_false, error_bind]
  split
  case isTrue hlong =>
    rw [maxBufferBytes] at hlong
    exact .inl ⟨rfl, by omega⟩
  case isFalse => exact .inr rfl

/-- How a stream is cut matters in two ways only: frames that come in one chunk with a bad frame are not
delivered, and a chunk can be longer than what fits in the buffer. -/
structure Independent (json : Json) (maxFrameBytes : ℕ) (stream : Binary) (chunks : List Binary)
    (fed : List Message × Except Fault Binary) : Prop where
  accepted : ∀ messages rest, decodeFrames json stream maxFrameBytes = .ok (messages, rest) →
    fed.2 ≠ .error .bufferLimit → fed = (messages, .ok rest)
  refused : ∀ reason, decodeFrames json stream maxFrameBytes = .error reason →
    fed.2 ≠ .error .bufferLimit → fed.2 = .error (.refused reason)
  /-- Before an error, frames are delivered in their order, and none is left out. -/
  delivered : fed.1 <+: (framesOf json maxFrameBytes stream).1
  /-- They are those that were complete before the chunk of the error. -/
  before : ∀ (first : List Binary) (bytes : Binary) (more : List Binary) (rest : Binary) (fault : Fault),
    chunks = first ++ bytes :: more → (feed json maxFrameBytes [] first).2 = .ok rest →
      handleData json maxFrameBytes rest bytes = .error fault → fed.1 = (framesOf json maxFrameBytes first.flatten).1
  overflow : fed.2 = .error .bufferLimit → ∃ bytes ∈ chunks, maxFrameBytes + 5 < bytes.length

/-- A chunk that closes the connection delivers nothing. -/
theorem feed_fault {buffer bytes : Binary} {fault : Fault}
    (h : handleData json maxFrameBytes buffer bytes = .error fault) (chunks : List Binary) :
    feed json maxFrameBytes buffer (bytes :: chunks) = ([], .error fault) := by
  rw [feed, h]

theorem independent_of_valid (hlimit : validFrameLimit maxFrameBytes = true) (chunks : List Binary) :
    Independent json maxFrameBytes chunks.flatten chunks (feed json maxFrameBytes [] chunks) := by
  have hnil : framesOf json maxFrameBytes [] = ([], .ok []) := framesOf_nil
  obtain ⟨hdelivered, hcomplete, hrefused, hoverflow⟩ := feed_cut hlimit chunks hnil
  have hwhole : decodeFrames json chunks.flatten maxFrameBytes = _ := decodeFrames_eq hlimit chunks.flatten
  rw [List.nil_append] at hdelivered hcomplete hrefused
  refine ⟨fun messages rest h hroom ↦ ?_, fun reason h hroom ↦ ?_, hdelivered, ?_, hoverflow⟩
  · rcases hfed : (feed json maxFrameBytes [] chunks).2 with (_ | reason) | rest'
    · exact absurd hfed hroom
    · rw [hwhole, hrefused reason hfed] at h
      cases h
    · rw [hwhole, hcomplete rest' hfed] at h
      cases h
      exact Prod.ext rfl hfed
  · rcases hfed : (feed json maxFrameBytes [] chunks).2 with (_ | reason') | rest'
    · exact absurd hfed hroom
    · rw [hwhole, hrefused reason' hfed] at h
      cases h
      rfl
    · rw [hwhole, hcomplete rest' hfed] at h
      cases h
  · rintro first bytes more rest fault rfl hfirst hdata
    have hbefore := (feed_cut hlimit first hnil).complete rest hfirst
    rw [List.nil_append] at hbefore
    rw [feed_append hfirst, feed_fault hdata, hbefore, List.append_nil]

/-- **Framing does not depend on the chunks**, but for what an error takes with it. A stream in at least one
chunk. -/
theorem feed_independent (json : Json) (maxFrameBytes : ℕ) (bytes : Binary) (chunks : List Binary) :
    Independent json maxFrameBytes (bytes :: chunks).flatten (bytes :: chunks)
      (feed json maxFrameBytes [] (bytes :: chunks)) := by
  by_cases hlimit : validFrameLimit maxFrameBytes = true
  · exact independent_of_valid hlimit _
  -- Whatever comes first closes the connection.
  · have hrefused : ∀ chunk : Binary, handleData json maxFrameBytes [] chunk = .error .bufferLimit ∧
        maxFrameBytes + 5 < ([] : Binary).length + chunk.length ∨
          handleData json maxFrameBytes [] chunk = .error (.refused .invalidFrameLimit) := handleData_refused hlimit []
    have hwhole : decodeFrames json (bytes :: chunks).flatten maxFrameBytes = .error .invalidFrameLimit := by
      rw [decodeFrames, Bool.eq_false_of_not_eq_true hlimit, check_false, error_bind]
    have hbefore : ∀ (first : List Binary) (bytes' : Binary) (more : List Binary) (rest : Binary) (fault : Fault),
        bytes :: chunks = first ++ bytes' :: more → (feed json maxFrameBytes [] first).2 = .ok rest →
          handleData json maxFrameBytes rest bytes' = .error fault →
            ([] : List Message) = (framesOf json maxFrameBytes first.flatten).1 := by
      rintro (_ | ⟨head, first⟩) bytes' more rest fault hchunks hfirst hdata
      · rw [List.flatten_nil, framesOf_nil]
      · rcases hrefused head with ⟨hfault, -⟩ | hfault
        all_goals
          rw [feed_fault hfault] at hfirst
          cases hfirst
    rcases hrefused bytes with ⟨hfault, hlong⟩ | hfault
    · rw [feed_fault hfault]
      refine ⟨fun _ _ h _ ↦ ?_, fun _ _ hroom ↦ absurd rfl hroom, List.nil_prefix, hbefore, fun _ ↦ ?_⟩
      · rw [hwhole] at h
        cases h
      · exact ⟨bytes, List.mem_cons_self, by rwa [List.length_nil, Nat.zero_add] at hlong⟩
    · rw [feed_fault hfault]
      refine ⟨fun _ _ h _ ↦ ?_, fun reason h _ ↦ ?_, List.nil_prefix, hbefore, by rintro ⟨⟩⟩
      · rw [hwhole] at h
        cases h
      · rw [hwhole] at h
        cases h
        rfl

namespace Sample

def helloText : String := "\x7b\"request_id\":\"r\",\"type\":\"hello\",\"version\":1\x7d"

def hello : Message :=
  [(.str (text "request_id"), .str (text "r")), (.str (text "type"), .str (text "hello")),
    (.str (text "version"), .nat 1)]

/-- The codec on this text. -/
def helloJson : Json where
  decode bytes := if bytes = text helloText then some (.map hello) else none
  encode _ := none

def helloFrame : Binary := [0, 0, 0, 45] ++ text helloText

end Sample

theorem framesOf_hello : framesOf Sample.helloJson 64 Sample.helloFrame = ([Sample.hello], .ok []) := by
  have hdecode : decodeMessage Sample.helloJson ((text Sample.helloText).take (frameSize 0 0 0 45)) 64 =
      .ok Sample.hello := by
    decide
  have hrest : (text Sample.helloText).drop (frameSize 0 0 0 45) = [] := by
    decide
  rw [Sample.helloFrame, List.cons_append, List.cons_append, List.cons_append, List.cons_append,
    List.nil_append, framesOf, if_neg (by decide), if_neg (by decide), if_neg (by decide), hdecode, hrest,
    framesOf_nil]

theorem framesOf_empty : framesOf Sample.helloJson 64 [0, 0, 0, 0] = ([], .error .emptyFrame) := by
  rw [framesOf, if_pos (by decide)]

/-- A message and an empty frame: the message is delivered if it comes in a chunk of its own. -/
theorem feed_chunked : ¬∀ chunks : List Binary,
    feed Sample.helloJson 64 [] chunks = feed Sample.helloJson 64 [] [chunks.flatten] := by
  intro h
  have hcut : (feed Sample.helloJson 64 [] [Sample.helloFrame, [0, 0, 0, 0]]).1 = [Sample.hello] := by
    rw [feed, handleData_eq (by decide) (by decide), List.nil_append, framesOf_hello]
    show [Sample.hello] ++ (feed Sample.helloJson 64 [] [[0, 0, 0, 0]]).1 = _
    rw [feed, handleData_eq (by decide) (by decide), List.nil_append, framesOf_empty]
    rfl
  have hwhole : (feed Sample.helloJson 64 [] [Sample.helloFrame ++ [0, 0, 0, 0]]).1 = [] := by
    have hread : framesOf Sample.helloJson 64 (Sample.helloFrame ++ [0, 0, 0, 0]) =
        ([Sample.hello], .error .emptyFrame) := by
      rw [framesOf_append, framesOf_hello]
      show ([Sample.hello] ++ (framesOf Sample.helloJson 64 [0, 0, 0, 0]).1,
        (framesOf Sample.helloJson 64 [0, 0, 0, 0]).2) = _
      rw [framesOf_empty]
      rfl
    rw [feed, handleData_eq (by decide) (by decide), List.nil_append, hread]
    rfl
  have heq := congrArg Prod.fst (h [Sample.helloFrame, [0, 0, 0, 0]])
  rw [List.flatten_cons, List.flatten_cons, List.flatten_nil, List.append_nil, hcut, hwhole] at heq
  cases heq

end Tay.Protocol
