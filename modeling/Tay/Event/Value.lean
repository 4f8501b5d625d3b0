import Mathlib.Algebra.Ring.Nat
import Mathlib.Data.Int.Notation
import Tay.Foundation.Outcome

/-!
# Canonical inert values

`Tay.Event.Value`: the bounded term language every persisted payload is written in. A value is
first measured against the resource limits and only then turned into bytes, so that an oversized
term is refused before any output is built. Both passes are here; `Tay.Event.Reading` reads the bytes
back.

An Elixir binary is a list of bytes. A map is listed in key order without repeats, which is the
order its encoding has, and an Elixir float is its 64-bit pattern.
-/

open Foundation

namespace Tay

/-! ## Reasons -/

/-- What a resource refusal names. -/
inductive LimitKey
  | depth
  | outputNodes
  | encodedBytes
  | binaryBytes
  | retainedBytes
  /-- The detailed form: bytes required and the limit, reported when the caller asked for it. -/
  | maxStateBytes (required : ℤ) (limit : ℕ)
  | maxHistoryBytes
  | maxSegments
  deriving DecidableEq, Repr

/-- The reasons the modelled functions stop with. -/
inductive Reason
  | resourceLimit (key : LimitKey)
  | invalidValueLimits
  | invalidValue
  | length
  | count
  | mapKey
  | list
  | utf8
  | nonfiniteFloat
  | truncatedValue
  | noncanonicalInteger
  | unknownTag
  | mapOrder
  | trailingBytes
  | payloadHardLimit
  | unknownEventType
  | unsupportedPayloadSchema
  | mutationKeys
  | invalidMutation
  | invalidSnapshot
  | snapshotKeys
  | snapshotState
  | state
  | invalidEvent
  | invalidTransition
  | invalidPosition
  | jobId
  | mutationKind
  | revision
  | timestamp
  | availabilityOrder
  | definition
  | definitionBytes
  | attempt
  | nextAttempt
  | executionToken
  | diagnostic
  | terminalAt
  | stateFields
  | payloadTooLarge
  | duplicateSnapshot
  | duplicateAvailabilityOrder
  | invalidInsertRevision
  | missingJob
  | duplicateInsert
  | logicalRevisionExhausted
  | revisionConflict
  | availabilityOrderConflict
  | dueConflict
  | missingSchedule
  | cancelledSchedule
  | jobNotCompleted
  | physicalSequence
  | snapshotOrder
  | recordProfile
  | availabilityFrontier
  | tailMissing
  | tailId
  | segmentIds
  | tailFrontier
  | baseInventory
  | sourceEpochChanged
  | sourceSegmentsMissing
  | topology
  | sequenceExhausted
  | segmentIdExhausted
  | invalidRetention
  | invalidCaptureTime
  | manifestFields
  | unsealedSource
  | sourceFrontierChanged
  | snapshotExceedsSegment
  | candidateMismatch
  | onlineDeltaRecord
  | onlineDeltaTooLarge
  | invalidOutcomeContext
  | invalidOutcome
  | invalidRetryContext
  | randomSourceFailed
  /-- An Elixir exception or an `exit`: the process that ran the code is gone. -/
  | raised
  deriving DecidableEq, Repr

/-! ## Values -/

/-- An Elixir binary. -/
abbrev Binary := List UInt8

/-- The UTF-8 bytes of a literal. -/
def text (s : String) : Binary := s.toByteArray.data.toList

inductive Value
  | null
  | bool (b : Bool)
  | int (n : ℤ)
  /-- A float, by its IEEE-754 bit pattern. -/
  | float (bits : UInt64)
  /-- An Elixir string: any binary, whether or not it is valid UTF-8. -/
  | str (s : Binary)
  /-- The internal `{:bytes, binary}` carrier. -/
  | bytes (s : Binary)
  | list (items : List Value)
  | map (entries : List (Value × Value))
  /-- Any other Elixir term: an atom, a tuple, a struct, a process. -/
  | other
  deriving Repr

namespace Value

/-- Structural equality, spelled out because nothing derives it for a nested type. -/
def decEq : (v w : Value) → Decidable (v = w)
  | .null, .null => isTrue rfl
  | .bool a, .bool b => decidable_of_iff (a = b) (by simp)
  | .int a, .int b => decidable_of_iff (a = b) (by simp)
  | .float a, .float b => decidable_of_iff (a = b) (by simp)
  | .str a, .str b => decidable_of_iff (a = b) (by simp)
  | .bytes a, .bytes b => decidable_of_iff (a = b) (by simp)
  | .list a, .list b => letI := decEqList a b; decidable_of_iff (a = b) (by simp)
  | .map a, .map b => letI := decEqMap a b; decidable_of_iff (a = b) (by simp)
  | .other, .other => isTrue rfl
  | .null, .bool _ | .null, .int _ | .null, .float _ | .null, .str _ | .null, .bytes _
  | .null, .list _ | .null, .map _ | .null, .other
  | .bool _, .null | .bool _, .int _ | .bool _, .float _ | .bool _, .str _ | .bool _, .bytes _
  | .bool _, .list _ | .bool _, .map _ | .bool _, .other
  | .int _, .null | .int _, .bool _ | .int _, .float _ | .int _, .str _ | .int _, .bytes _
  | .int _, .list _ | .int _, .map _ | .int _, .other
  | .float _, .null | .float _, .bool _ | .float _, .int _ | .float _, .str _ | .float _, .bytes _
  | .float _, .list _ | .float _, .map _ | .float _, .other
  | .str _, .null | .str _, .bool _ | .str _, .int _ | .str _, .float _ | .str _, .bytes _
  | .str _, .list _ | .str _, .map _ | .str _, .other
  | .bytes _, .null | .bytes _, .bool _ | .bytes _, .int _ | .bytes _, .float _ | .bytes _, .str _
  | .bytes _, .list _ | .bytes _, .map _ | .bytes _, .other
  | .list _, .null | .list _, .bool _ | .list _, .int _ | .list _, .float _ | .list _, .str _
  | .list _, .bytes _ | .list _, .map _ | .list _, .other
  | .map _, .null | .map _, .bool _ | .map _, .int _ | .map _, .float _ | .map _, .str _
  | .map _, .bytes _ | .map _, .list _ | .map _, .other
  | .other, .null | .other, .bool _ | .other, .int _ | .other, .float _ | .other, .str _
  | .other, .bytes _ | .other, .list _ | .other, .map _ => isFalse (by simp)
where
  decEqList : (vs ws : List Value) → Decidable (vs = ws)
    | [], [] => isTrue rfl
    | v :: vs, w :: ws =>
      letI := decEq v w
      letI := decEqList vs ws
      decidable_of_iff (v = w ∧ vs = ws) (by simp)
    | [], _ :: _ | _ :: _, [] => isFalse (by simp)
  decEqMap : (vs ws : List (Value × Value)) → Decidable (vs = ws)
    | [], [] => isTrue rfl
    | (k, v) :: vs, (l, w) :: ws =>
      letI := decEq k l
      letI := decEq v w
      letI := decEqMap vs ws
      decidable_of_iff ((k = l ∧ v = w) ∧ vs = ws) (by simp)
    | [], _ :: _ | _ :: _, [] => isFalse (by simp)

instance : DecidableEq Value := decEq

/-! ## Limits -/

/-- `@max`: the hard bound of a payload. -/
def maxBytes : ℕ := 16777216

structure Limits where
  depth : ℕ
  outputNodes : ℕ
  binaryBytes : ℕ
  deriving DecidableEq, Repr

def defaults : Limits := ⟨64, 100000, maxBytes⟩

def limits? (l : Limits) : Bool := 0 < l.depth && 0 < l.outputNodes

/-- The totals of a measurement. -/
structure Measure where
  depth : ℕ
  nodes : ℕ
  binaryBytes : ℕ
  encodedBytes : ℕ
  deriving DecidableEq, Repr

/-- A budget: the limits and the byte bound of one measurement. -/
structure Budget where
  limits : Limits
  maxBytes : ℕ

private def exceeded (key : LimitKey) : Reason := .resourceLimit key

def node (b : Budget) (m : Measure) (depth : ℕ) : Except Reason Measure := do
  check (depth ≤ b.limits.depth) (exceeded .depth)
  check (m.nodes < b.limits.outputNodes) (exceeded .outputNodes)
  return { m with nodes := m.nodes + 1, depth := max depth m.depth }

def encoded (b : Budget) (m : Measure) (bytes : ℕ) : Except Reason Measure := do
  check (m.encodedBytes + bytes ≤ b.maxBytes) (exceeded .encodedBytes)
  return { m with encodedBytes := m.encodedBytes + bytes }

def binaryCharge (b : Budget) (m : Measure) (n : ℕ) : Except Reason Measure := do
  check (n ≤ 4294967295) .length
  check (m.binaryBytes + n ≤ b.limits.binaryBytes) (exceeded .binaryBytes)
  return { m with binaryBytes := m.binaryBytes + n }

def children (b : Budget) (m : Measure) (n : ℕ) : Except Reason Measure := do
  check (m.nodes + n ≤ b.limits.outputNodes) (exceeded .outputNodes)
  return m

/-! ## UTF-8 -/

private def continuation (b : UInt8) : Bool := 0x80 ≤ b && b ≤ 0xBF

/-- `String.valid?`: well-formed UTF-8, without surrogates and overlong forms. -/
def validUtf8 : Binary → Bool
  | [] => true
  | a :: rest =>
    if a ≤ 0x7F then validUtf8 rest
    else match rest with
      | [] => false
      | b :: rest =>
        if 0xC2 ≤ a && a ≤ 0xDF then continuation b && validUtf8 rest
        else match rest with
          | [] => false
          | c :: rest =>
            if 0xE0 ≤ a && a ≤ 0xEF then
              continuation b && continuation c && (a != 0xE0 || 0xA0 ≤ b) &&
                (a != 0xED || b ≤ 0x9F) && validUtf8 rest
            else match rest with
              | [] => false
              | d :: rest =>
                0xF0 ≤ a && a ≤ 0xF4 && continuation b && continuation c && continuation d &&
                  (a != 0xF0 || 0x90 ≤ b) && (a != 0xF4 || b ≤ 0x8F) && validUtf8 rest

/-! ## Measuring -/

def isBinary : Value → Bool
  | .str _ => true
  | _ => false

/-- Measure one value at a depth. The order of the checks is the source's: the node first, then the
byte charges, then validity. -/
def measureValue (b : Budget) (value : Value) (depth : ℕ) (m : Measure) : Except Reason Measure := do
  let m ← node b m depth
  match value with
  | .null => encoded b m 1
  | .bool _ => encoded b m 1
  | .int n =>
    check (-9223372036854775808 ≤ n && n ≤ 18446744073709551615) .invalidValue
    encoded b m 9
  | .float bits =>
    check (bits.toNat / 2 ^ 52 % 2048 != 2047) .nonfiniteFloat
    encoded b m 9
  | .str s =>
    let m ← binaryCharge b m s.length
    let m ← encoded b m (5 + s.length)
    check (validUtf8 s) .utf8
    return m
  | .bytes s =>
    let m ← binaryCharge b m s.length
    encoded b m (5 + s.length)
  | .list items =>
    let m ← encoded b m 5
    measureList items (depth + 1) m 0
  | .map entries =>
    check (entries.length ≤ 4294967295) .count
    let m ← encoded b m 5
    let m ← children b m (2 * entries.length)
    measureMap entries (depth + 1) m
  | .other => .error .invalidValue
where
  measureList (items : List Value) (depth : ℕ) (m : Measure) (n : ℕ) : Except Reason Measure :=
    match items with
    | [] => .ok m
    | head :: tail => do
      check (n < 4294967295) .list
      let m ← measureValue b head depth m
      measureList tail depth m (n + 1)
  measureMap (entries : List (Value × Value)) (depth : ℕ) (m : Measure) : Except Reason Measure :=
    match entries with
    | [] => .ok m
    | (key, value) :: next => do
      check (isBinary key) .mapKey
      let m ← measureValue b key depth m
      let m ← measureValue b value depth m
      measureMap next depth m

def measure (value : Value) (limits : Limits) (max : ℕ) : Except Reason Measure := do
  check (limits? limits && max ≤ maxBytes) .invalidValueLimits
  measureValue ⟨limits, max⟩ value 1 ⟨0, 0, 0, 0⟩

/-! ## Bytes -/

/-- The low `width` bytes of `n`, most significant first. -/
def bigEndian : ℕ → ℕ → Binary
  | 0, _ => []
  | width + 1, n => UInt8.ofNat (n / 256 ^ width) :: bigEndian width n

@[simp] theorem bigEndian_length (width n : ℕ) : (bigEndian width n).length = width := by
  induction width with
  | zero => rfl
  | succ width ih => rw [bigEndian, List.length_cons, ih]

def wire : Value → Binary
  | .null => [0]
  | .bool false => [1]
  | .bool true => [2]
  | .int (.negSucc n) => 3 :: bigEndian 8 (2 ^ 64 - (n + 1))
  | .int (.ofNat n) => 4 :: bigEndian 8 n
  | .float bits => 5 :: bigEndian 8 bits.toNat
  | .str s => 6 :: (bigEndian 4 s.length ++ s)
  | .bytes s => 7 :: (bigEndian 4 s.length ++ s)
  | .list items => 8 :: (bigEndian 4 items.length ++ wireList items)
  | .map entries => 9 :: (bigEndian 4 entries.length ++ wireMap entries)
  | .other => []
where
  wireList : List Value → Binary
    | [] => []
    | head :: tail => wire head ++ wireList tail
  wireMap : List (Value × Value) → Binary
    | [] => []
    | (key, value) :: next => wire key ++ wire value ++ wireMap next

def encode (value : Value) (limits : Limits) (max : ℕ) : Except Reason Binary := do
  let _ ← measure value limits max
  return wire value

/-! ## Construction -/

/-- A map with literal keys, listed in key order. -/
def record (fields : List (String × Value)) : Value :=
  .map (fields.map fun f ↦ (.str (text f.1), f.2))

def nat (n : ℕ) : Value := .int n

def opt {α : Type} (f : α → Value) : Option α → Value
  | none => .null
  | some a => f a

end Value

end Tay
