import Tay.Event.Size
import Tay.Event.V2

/-!
# The executor protocol

`Tay.Protocol.V1`, and what `Tay.Executor.Connection` does with a `succeeded` event before the
server hears of it. A peer speaks JSON in frames with a length prefix. A frame is decoded, its value
is held against the protocol's own limits of depth and nodes, and its envelope is read; the result
of a task is a field of the message, and is bounded once more by the size of its text.

The domain of values that passes is not the one of `Tay.Event.Value`: an integer may have any size,
keys are not counted as nodes, and no limit of the engine is consulted. What the two have in common
is proved at the end.

Erlang's `:json` is a parameter, with exceptions as `none`; `null` is already the `nil` that
`decode_json_value` makes of it.
-/

open Foundation

namespace Tay

namespace Protocol

open V2

/-! ## Values -/

inductive Refusal
  | invalidFrameLimit
  | emptyFrame
  | frameTooLarge
  | malformedJson
  | invalidJsonValue
  | jsonTooLarge
  | unsupportedVersion
  | invalidVersion
  | invalidType
  | unknownMessage
  | invalidRequestId
  | invalidEnvelope
  | invalidExecution
  deriving DecidableEq, Repr

/-- Erlang's JSON codec. -/
structure Json where
  decode : Binary → Option Value
  encode : Value → Option Binary

/-- `value == value` on a float: not a number is not equal to itself. -/
def reflexive (bits : UInt64) : Bool :=
  !(bits.toNat / 2 ^ 52 % 2048 == 2047 && bits.toNat % 2 ^ 52 != 0)

def maxKeyBytes : ℕ := 4096

def validKey (key : Value) : Bool :=
  match key with
  | .str s => Value.validUtf8 s && s.length ≤ maxKeyBytes
  | _ => false

/-- `validate_value`: the nodes that remain, or nothing where the source throws. -/
def validateValue (value : Value) (depth nodes : ℕ) : Option ℕ :=
  if nodes == 0 || depth == 0 then none
  else match value with
    | .null | .bool _ | .int _ => some (nodes - 1)
    | .float bits => if reflexive bits then some (nodes - 1) else none
    | .str s => if Value.validUtf8 s then some (nodes - 1) else none
    | .list items => validateList items (depth - 1) (nodes - 1)
    | .map entries => validateMap entries (depth - 1) (nodes - 1)
    | .bytes _ | .other => none
where
  validateList (items : List Value) (depth nodes : ℕ) : Option ℕ :=
    match items with
    | [] => some nodes
    | head :: tail => validateValue head depth nodes >>= validateList tail depth
  validateMap (entries : List (Value × Value)) (depth nodes : ℕ) : Option ℕ :=
    match entries with
    | [] => some nodes
    | (key, value) :: next =>
      if validKey key then validateValue value depth nodes >>= validateMap next depth else none

def defaultMaxDepth : ℕ := 32

def defaultMaxNodes : ℕ := 10000

/-- `json_value?` at its default limits. -/
def jsonValue? (value : Value) : Bool :=
  (validateValue value defaultMaxDepth defaultMaxNodes).isSome

def jsonBytes (json : Json) (value : Value) (maxBytes : ℕ) : Except Refusal Binary := do
  check (1 ≤ maxBytes) .invalidJsonValue
  match json.encode value with
  | none => .error .invalidJsonValue
  | some bytes => do
    check (bytes.length ≤ maxBytes) .jsonTooLarge
    return bytes

/-! ## Messages -/

/-- A message: a map, by its entries. -/
abbrev Message := List (Value × Value)

namespace Message

def get? (m : Message) (key : String) : Option Value :=
  (m.find? fun e ↦ e.1 == .str (text key)).map (·.2)

/-- `Map.put`, in key order. -/
def put (key : Binary) (value : Value) : Message → Message
  | [] => [(.str key, value)]
  | (k, v) :: rest =>
    match k with
    | .str s =>
      if s == key then (k, value) :: rest
      else if key < s then (.str key, value) :: (k, v) :: rest
      else (k, v) :: put key value rest
    | _ => (k, v) :: put key value rest

/-- `Map.delete`. -/
def delete (m : Message) (key : String) : Message := m.filter fun e ↦ e.1 != .str (text key)

end Message

def version : ℕ := 1

/-- `value == 1`: integers and floats compare by their numbers. -/
def isVersion : Value → Bool
  | .int n => n == version
  | .float bits => bits == 0x3FF0000000000000
  | _ => false

def types : List Binary :=
  ["hello", "register_tasks", "unregister_tasks", "enqueue", "status", "result", "cancel",
    "started", "succeeded", "failed", "heartbeat", "schedule", "cancel_schedule", "schedules",
    "schedule_status", "register_schedules"].map text

/-- `Map.get(message, key) || {:error, reason}`, which has to be a binary. -/
def requiredBinary (m : Message) (key : String) (missing : Refusal) : Except Refusal Binary :=
  match m.get? key with
  | none | some .null | some (.bool false) => .error missing
  | some (.str s) => .ok s
  | some _ => .error .invalidEnvelope

def envelope : Value → Except Refusal Message
  | .map m => do
    let spelled := Message.get? m "version"
    let short := Message.get? m "v"
    check ((spelled.or short).any isVersion) .unsupportedVersion
    -- With `version` equal to 1, a second spelling is equal to it exactly if it is 1 as well.
    check (spelled.isNone || short.all isVersion) .invalidVersion
    let type ← requiredBinary m "type" .invalidType
    check (types.contains type) .unknownMessage
    let requestId ← requiredBinary m "request_id" .invalidRequestId
    check (identifier? requestId) .invalidRequestId
    return (Message.put (text "version") (.nat version) m).delete "v"
  | _ => .error .invalidEnvelope

/-! ## Frames -/

def validFrameLimit (limit : ℕ) : Bool := 1 ≤ limit && limit ≤ 16777216

def decodeMessage (json : Json) (bytes : Binary) (maxFrameBytes : ℕ) : Except Refusal Message := do
  check (validFrameLimit maxFrameBytes) .invalidFrameLimit
  check (1 ≤ bytes.length && bytes.length ≤ maxFrameBytes) .frameTooLarge
  match json.decode bytes with
  | none => .error .malformedJson
  | some value => do
    check (jsonValue? value) .invalidJsonValue
    envelope value

/-- A length prefix: four bytes, most significant first. -/
def frameSize (a b c d : UInt8) : ℕ := ((a.toNat * 256 + b.toNat) * 256 + c.toNat) * 256 + d.toNat

/-- The loop of `decode_frames`: every complete frame, and the incomplete tail. -/
def decodeLoop (json : Json) (maxFrameBytes : ℕ) (buffer : Binary) (acc : List Message) :
    Except Refusal (List Message × Binary) :=
  match buffer with
  | a :: b :: c :: d :: rest =>
    let size := frameSize a b c d
    if size == 0 then .error .emptyFrame
    else if maxFrameBytes < size then .error .frameTooLarge
    else if rest.length < size then .ok (acc.reverse, buffer)
    else
      match decodeMessage json (rest.take size) maxFrameBytes with
      | .error reason => .error reason
      | .ok message => decodeLoop json maxFrameBytes (rest.drop size) (message :: acc)
  | short => .ok (acc.reverse, short)
termination_by buffer.length
decreasing_by
  simp only [List.length_drop, List.length_cons]
  omega

def decodeFrames (json : Json) (buffer : Binary) (maxFrameBytes : ℕ) :
    Except Refusal (List Message × Binary) := do
  check (validFrameLimit maxFrameBytes) .invalidFrameLimit
  decodeLoop json maxFrameBytes buffer []

/-- One complete frame and nothing behind it. -/
theorem decodeFrames_single {json : Json} {maxFrameBytes : ℕ} {a b c d : UInt8} {payload : Binary}
    {m : Message} (hlimit : validFrameLimit maxFrameBytes = true)
    (hsize : frameSize a b c d = payload.length)
    (h : decodeMessage json payload maxFrameBytes = .ok m) :
    decodeFrames json (a :: b :: c :: d :: payload) maxFrameBytes = .ok ([m], []) := by
  have hlength : 1 ≤ payload.length ∧ payload.length ≤ maxFrameBytes := by
    simp only [decodeMessage, check_bind_eq_ok, Bool.and_eq_true, decide_eq_true_eq] at h
    exact h.2.1
  have hzero : (payload.length == 0) = false := by
    rw [beq_eq_false_iff_ne]
    omega
  rw [decodeFrames, hlimit, check_true, ok_bind, decodeLoop]
  simp only [hsize, hzero, Bool.false_eq_true, if_false, Nat.not_lt.mpr hlength.2, Nat.lt_irrefl,
    List.take_length, List.drop_length, h]
  rw [decodeLoop]
  · rfl
  · intro _ _ _ _ _ hnil
    cases hnil

/-! ## A success event -/

/-- What a connection is configured with, as far as a result is concerned. -/
structure Options where
  maxFrameBytes : ℕ
  resultBytes : ℕ

/-- A string that is a protocol identifier. -/
def identifierField (m : Message) (key : String) : Except Refusal Binary :=
  match m.get? key with
  | some (.str s) => if identifier? s then .ok s else .error .invalidExecution
  | _ => .error .invalidExecution

/-- `execution_context`. -/
def executionContext (m : Message) : Except Refusal (Binary × Binary) := do
  let reservation ← identifierField m "reservation_id"
  let execution ← identifierField m "execution_id"
  return (reservation, execution)

/-- The checks of `request` on a `succeeded` event: what it hands to the server. -/
def succeeded (json : Json) (options : Options) (m : Message) :
    Except Refusal (Binary × Binary × Value) := do
  check (m.get? "type" == some (.str (text "succeeded"))) .unknownMessage
  let context ← executionContext m
  -- A message without the field has the result `nil`.
  let result := (m.get? "result").getD .null
  let _ ← jsonBytes json result options.resultBytes
  return (context.1, context.2, result)

/-- The connection accepts a success: some frame of what it has read is one, with this result. -/
def Accepts (json : Json) (options : Options) (buffer reservation execution : Binary)
    (result : Value) : Prop :=
  ∃ messages rest, decodeFrames json buffer options.maxFrameBytes = .ok (messages, rest) ∧
    ∃ m ∈ messages, succeeded json options m = .ok (reservation, execution, result)

end Protocol

/-! ## What an accepted result is -/

namespace Value

/-- Every float is finite, as every float of the Erlang machine is. -/
def finite : Value → Bool
  | .float bits => bits.toNat / 2 ^ 52 % 2048 != 2047
  | .list items => finiteList items
  | .map entries => finiteMap entries
  | _ => true
where
  finiteList : List Value → Bool
    | [] => true
    | head :: tail => finite head && finiteList tail
  finiteMap : List (Value × Value) → Bool
    | [] => true
    | (_, value) :: next => finite value && finiteMap next

/-- Every integer fits in 64 bits, signed or unsigned. -/
def integers64 : Value → Bool
  | .int n => -9223372036854775808 ≤ n && n ≤ 18446744073709551615
  | .list items => integersList items
  | .map entries => integersMap entries
  | _ => true
where
  integersList : List Value → Bool
    | [] => true
    | head :: tail => integers64 head && integersList tail
  integersMap : List (Value × Value) → Bool
    | [] => true
    | (_, value) :: next => integers64 value && integersMap next

end Value

namespace Protocol

open V2

/-- What `:json.decode` is relied on for: the floats it returns are floats of the machine. -/
def Json.Finite (json : Json) : Prop :=
  ∀ bytes value, json.decode bytes = some value → value.finite = true

theorem validateValue_list {items : List Value} {depth nodes rest : ℕ}
    (h : validateValue (.list items) depth nodes = some rest) :
    validateValue.validateList items (depth - 1) (nodes - 1) = some rest := by
  rw [validateValue] at h
  split at h
  case isTrue => cases h
  case isFalse => exact h

theorem validateValue_map {entries : List (Value × Value)} {depth nodes rest : ℕ}
    (h : validateValue (.map entries) depth nodes = some rest) :
    validateValue.validateMap entries (depth - 1) (nodes - 1) = some rest := by
  rw [validateValue] at h
  split at h
  case isTrue => cases h
  case isFalse => exact h

/-- What validation leaves open of writing a value: the integers. -/
structure Plain (args finite writable integers : Bool) : Prop where
  args : args = true
  writable : finite = true → writable = integers

mutual

theorem validateValue_plain {value : Value} {depth nodes rest : ℕ}
    (h : validateValue value depth nodes = some rest) :
    Plain (args? value) value.finite value.writable value.integers64 := by
  cases value with
  | null | bool | int => exact ⟨rfl, fun _ ↦ rfl⟩
  | float bits => exact ⟨rfl, fun hfinite ↦ hfinite⟩
  | str s =>
    have hvalid : Value.validUtf8 s = true := by
      rw [validateValue] at h
      split at h
      case isTrue => cases h
      case isFalse =>
        by_contra hs
        rw [if_neg hs] at h
        cases h
    exact ⟨rfl, fun _ ↦ hvalid⟩
  | list items =>
    have hitems := validateList_plain (validateValue_list h)
    exact ⟨hitems.args, hitems.writable⟩
  | map entries =>
    have hentries := validateMap_plain (validateValue_map h)
    exact ⟨hentries.args, hentries.writable⟩
  | bytes | other =>
    rw [validateValue] at h
    split at h <;> cases h

theorem validateList_plain {items : List Value} {depth nodes rest : ℕ}
    (h : validateValue.validateList items depth nodes = some rest) :
    Plain (args?.argsList items) (Value.finite.finiteList items)
      (Value.writable.writableList items) (Value.integers64.integersList items) := by
  match items with
  | [] => exact ⟨rfl, fun _ ↦ rfl⟩
  | head :: tail =>
    rw [validateValue.validateList, Option.bind_eq_bind, Option.bind_eq_some_iff] at h
    obtain ⟨n, hhead, htail⟩ := h
    have hhead := validateValue_plain hhead
    have htail := validateList_plain htail
    refine ⟨?_, fun hfinite ↦ ?_⟩
    · simp only [args?.argsList, hhead.args, htail.args, Bool.and_self]
    · simp only [Value.finite.finiteList, Bool.and_eq_true] at hfinite
      simp only [Value.writable.writableList, Value.integers64.integersList,
        hhead.writable hfinite.1, htail.writable hfinite.2]

theorem validateMap_plain {entries : List (Value × Value)} {depth nodes rest : ℕ}
    (h : validateValue.validateMap entries depth nodes = some rest) :
    Plain (args?.argsMap entries) (Value.finite.finiteMap entries)
      (Value.writable.writableMap entries) (Value.integers64.integersMap entries) := by
  match entries with
  | [] => exact ⟨rfl, fun _ ↦ rfl⟩
  | (key, value) :: next =>
    rw [validateValue.validateMap] at h
    split at h
    case isFalse => cases h
    case isTrue hkey =>
      rw [Option.bind_eq_bind, Option.bind_eq_some_iff] at h
      obtain ⟨n, hvalue, hnext⟩ := h
      have hvalue := validateValue_plain hvalue
      have hnext := validateMap_plain hnext
      have hbinary : key.isBinary = true ∧ key.writable = true := by
        unfold validKey at hkey
        split at hkey
        case h_1 s =>
          rw [Bool.and_eq_true] at hkey
          exact ⟨rfl, hkey.1⟩
        case h_2 => cases hkey
      refine ⟨?_, fun hfinite ↦ ?_⟩
      · simp only [args?.argsMap, hbinary.1, hvalue.args, hnext.args, Bool.and_self]
      · simp only [Value.finite.finiteMap, Bool.and_eq_true] at hfinite
        simp only [Value.writable.writableMap, Value.integers64.integersMap, hbinary.1, hbinary.2,
          hvalue.writable hfinite.1, hnext.writable hfinite.2, Bool.true_and]

end

/-- The fields of a validated message are validated. -/
theorem validateMap_mem {entries : List (Value × Value)} {depth nodes rest : ℕ}
    (h : validateValue.validateMap entries depth nodes = some rest) {e : Value × Value}
    (he : e ∈ entries) : ∃ n r, validateValue e.2 depth n = some r := by
  induction entries generalizing nodes with
  | nil => cases he
  | cons x next ih =>
    rw [validateValue.validateMap] at h
    split at h
    case isFalse => cases h
    case isTrue =>
      rw [Option.bind_eq_bind, Option.bind_eq_some_iff] at h
      obtain ⟨n, hvalue, hnext⟩ := h
      rcases List.mem_cons.mp he with rfl | he
      · exact ⟨nodes, n, hvalue⟩
      · exact ih hnext he

theorem finiteMap_mem {entries : List (Value × Value)}
    (h : Value.finite.finiteMap entries = true) {e : Value × Value} (he : e ∈ entries) :
    e.2.finite = true := by
  induction entries with
  | nil => cases he
  | cons x next ih =>
    rw [Value.finite.finiteMap, Bool.and_eq_true] at h
    rcases List.mem_cons.mp he with rfl | he
    · exact h.1
    · exact ih h.2 he

namespace Message

theorem mem_of_get? {m : Message} {key : String} {value : Value} (h : get? m key = some value) :
    (.str (text key), value) ∈ m := by
  simp only [get?, Option.map_eq_some_iff] at h
  obtain ⟨e, he, rfl⟩ := h
  have hkey : e.1 = .str (text key) := eq_of_beq (List.find?_some he :)
  rw [← hkey]
  exact List.mem_of_find?_eq_some he

theorem mem_put {key : Binary} {value : Value} {m : Message} {e : Value × Value}
    (h : e ∈ put key value m) : e ∈ m ∨ e = (.str key, value) := by
  induction m with
  | nil => exact .inr (List.mem_singleton.mp h)
  | cons x rest ih =>
    obtain ⟨k, v⟩ := x
    unfold put at h
    grind

end Message

/-- A message that passes is the decoded one but for its version. -/
theorem envelope_mem {value : Value} {m : Message} (h : envelope value = .ok m) :
    ∃ entries, value = .map entries ∧
      ∀ e ∈ m, e ∈ entries ∨ e = (.str (text "version"), .nat version) := by
  unfold envelope at h
  split at h
  case h_2 => cases h
  case h_1 entries =>
    simp only [bind_eq_ok, pure_eq_ok, Except.ok.injEq] at h
    obtain ⟨-, -, -, -, -, -, -, -, -, -, -, -, rfl⟩ := h
    exact ⟨entries, rfl, fun e he ↦ Message.mem_put (List.mem_of_mem_filter he)⟩

theorem decodeMessage_eq_ok {json : Json} {bytes : Binary} {maxFrameBytes : ℕ} {m : Message}
    (h : decodeMessage json bytes maxFrameBytes = .ok m) :
    ∃ value, json.decode bytes = some value ∧ jsonValue? value = true ∧ envelope value = .ok m := by
  unfold decodeMessage at h
  obtain ⟨-, h⟩ := check_bind_eq_ok.mp h
  obtain ⟨-, h⟩ := check_bind_eq_ok.mp h
  split at h
  case h_1 => cases h
  case h_2 value hvalue =>
    obtain ⟨hjson, h⟩ := check_bind_eq_ok.mp h
    exact ⟨value, hvalue, hjson, h⟩

/-- Every message of the loop was decoded from a frame. -/
theorem decodeLoop_mem {json : Json} {maxFrameBytes : ℕ} {buffer : Binary} {acc : List Message}
    {messages : List Message} {rest : Binary}
    (h : decodeLoop json maxFrameBytes buffer acc = .ok (messages, rest)) {m : Message}
    (hm : m ∈ messages) : m ∈ acc ∨ ∃ bytes, decodeMessage json bytes maxFrameBytes = .ok m := by
  fun_induction decodeLoop json maxFrameBytes buffer acc with
  | case1 | case2 | case4 => cases h
  | case3 =>
    cases h
    exact .inl (List.mem_reverse.mp hm)
  | case5 acc a b c d rest size _ _ _ message hmessage ih =>
    rcases ih h with hacc | hframe
    · rcases List.mem_cons.mp hacc with rfl | hacc
      · exact .inr ⟨_, hmessage⟩
      · exact .inl hacc
    · exact .inr hframe
  | case6 =>
    cases h
    exact .inl (List.mem_reverse.mp hm)

/-- A field of an accepted message is plain data, and only its integers can keep it from being
written. -/
theorem get?_plain {json : Json} (hjson : json.Finite) {bytes : Binary} {maxFrameBytes : ℕ}
    {m : Message} (h : decodeMessage json bytes maxFrameBytes = .ok m) (key : String)
    (hkey : text key ≠ text "version") :
    Plain (args? ((Message.get? m key).getD .null)) true ((Message.get? m key).getD .null).writable
      ((Message.get? m key).getD .null).integers64 := by
  cases hget : Message.get? m key with
  | none => exact ⟨rfl, fun _ ↦ rfl⟩
  | some value =>
    obtain ⟨decoded, hdecoded, hvalid, henvelope⟩ := decodeMessage_eq_ok h
    obtain ⟨entries, rfl, hmem⟩ := envelope_mem henvelope
    obtain ⟨rest, hrest⟩ := Option.isSome_iff_exists.mp hvalid
    have hentry : (.str (text key), value) ∈ entries := by
      rcases hmem _ (Message.mem_of_get? hget) with hentry | hversion
      · exact hentry
      · simp only [Prod.mk.injEq, Value.str.injEq] at hversion
        exact absurd hversion.1 hkey
    obtain ⟨n, r, hvalue⟩ := validateMap_mem (validateValue_map hrest) hentry
    have hplain := validateValue_plain hvalue
    have hfinite : value.finite = true := finiteMap_mem (hjson _ _ hdecoded) hentry
    exact ⟨hplain.args, fun _ ↦ hplain.writable hfinite⟩

theorem Accepts.plain {json : Json} (hjson : json.Finite) {options : Options}
    {buffer reservation execution : Binary} {result : Value}
    (h : Accepts json options buffer reservation execution result) :
    args? result = true ∧ result.writable = result.integers64 := by
  obtain ⟨messages, rest, hframes, m, hm, hrequest⟩ := h
  obtain ⟨-, hloop⟩ := check_bind_eq_ok.mp hframes
  simp only [succeeded, bind_eq_ok, pure_eq_ok, Except.ok.injEq, Prod.mk.injEq] at hrequest
  obtain ⟨-, -, -, -, -, -, -, -, rfl⟩ := hrequest
  rcases decodeLoop_mem hloop hm with hacc | ⟨bytes, hbytes⟩
  · cases hacc
  · have hplain := get?_plain hjson hbytes "result" (by decide)
    exact ⟨hplain.args, hplain.writable rfl⟩

end Protocol

end Tay
