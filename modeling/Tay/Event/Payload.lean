import Tay.Event.Reading
import Tay.Event.V2

/-!
# Event payloads

`Tay.Event`: an event as the program passes it around, a record type, a schema version and a
string-keyed map, and the codec of its payload. Encoding puts the identity of a job into the byte
carrier, measures the map, validates it and writes it; decoding reads it back, takes the identity out
of the carrier and validates it again. `V2.validate` is written here as in the source, on terms: the
keys are exactly those of the type, and then every field is checked. The structures of `Tay.Event.V2`
are the events that pass: on them both validations and both encodings agree.
-/

open Foundation

namespace Tay

namespace Value

/-! ## Maps -/

/-- What stands under a key. -/
def findEntries (key : Value) : List (Value × Value) → Option Value
  | [] => none
  | entry :: rest => if entry.1 == key then some entry.2 else findEntries key rest

/-- `Map.fetch` with a string key. -/
def fetch (value : Value) (key : String) : Option Value :=
  match value with
  | .map entries => findEntries (.str (text key)) entries
  | _ => none

/-- `value[key]`, which is `nil` where there is no such key. -/
def get (value : Value) (key : String) : Value := (value.fetch key).getD .null

/-- Replace what stands under a key. -/
def putEntries (key value : Value) : List (Value × Value) → List (Value × Value)
  | [] => []
  | entry :: rest => if entry.1 == key then (key, value) :: rest else entry :: putEntries key value rest

/-- `Map.put` with a key that is there. -/
def put (data : Value) (key : String) (value : Value) : Value :=
  match data with
  | .map entries => .map (putEntries (.str (text key)) value entries)
  | _ => data

/-- `exact?`: a map with exactly these keys, which are given in order. -/
def exactly? (data : Value) (keys : List String) : Bool :=
  match data with
  | .map entries => entries.map Prod.fst == keys.map fun key ↦ .str (text key)
  | _ => false

end Value

/-! ## Events -/

structure Event where
  recordType : ℕ
  payloadSchemaVersion : ℕ
  data : Value
  deriving DecidableEq

namespace Event

/-- How the identity of an event is written. -/
inductive Encoding
  | bytes
  | string
  deriving DecidableEq, Repr

/-- What revision an event may expect. -/
inductive Revision
  | insert
  | upsert
  | existing
  deriving DecidableEq, Repr

/-- An entry of `@types`. -/
structure Spec where
  schema : ℕ
  identity : String
  encoding : Encoding
  revision : Revision
  fields : List String
  deriving DecidableEq

/-- `@types_by_code`. -/
def spec : ℕ → Option Spec
  | 1 => some ⟨1, "job_id", .bytes, .insert,
      ["at", "definition", "eligible_at", "expected_revision", "job_id"]⟩
  | 2 => some ⟨1, "job_id", .bytes, .existing, ["at", "due_at", "expected_revision", "job_id"]⟩
  | 3 => some ⟨1, "job_id", .bytes, .existing,
      ["at", "attempt", "cycle_token", "expected_revision", "job_id"]⟩
  | 4 => some ⟨1, "job_id", .bytes, .existing,
      ["at", "diagnostic", "disposition", "execution_token", "expected_revision", "job_id",
        "next_attempt", "next_due_at", "outcome"]⟩
  | 5 => some ⟨1, "job_id", .bytes, .existing,
      ["at", "execution_token", "expected_revision", "job_id"]⟩
  | 6 => some ⟨1, "job_id", .bytes, .existing,
      ["at", "expected_revision", "job_id", "mode", "new_due_at"]⟩
  | 7 => some ⟨2, "schedule_id", .string, .upsert,
      ["at", "definition", "expected_revision", "next_at", "schedule_id"]⟩
  | 8 => some ⟨2, "schedule_id", .string, .existing,
      ["at", "due_at", "expected_revision", "next_at", "schedule_id"]⟩
  | 9 => some ⟨2, "schedule_id", .string, .existing, ["at", "expected_revision", "schedule_id"]⟩
  | 10 => some ⟨2, "job_id", .bytes, .existing, ["at", "expected_revision", "job_id", "result"]⟩
  | 11 => some ⟨2, "schedule_id", .string, .existing,
      ["active_job_id", "at", "due_at", "expected_revision", "next_at", "schedule_id"]⟩
  | 12 => some ⟨2, "schedule_id", .string, .upsert,
      ["active_job_id", "at", "cancelled_at", "definition", "expected_revision", "last_at", "next_at",
        "registered_at", "revision", "schedule_id"]⟩
  | 13 => some ⟨2, "schedule_id", .string, .upsert,
      ["active_job_id", "active_job_ids", "at", "cancelled_at", "definition", "expected_revision",
        "last_at", "membership_complete", "next_at", "registered_at", "revision", "schedule_id"]⟩
  | _ => none

/-! ## Fields -/

/-- An integer that passes a test. -/
def natural? (test : ℕ → Bool) : Value → Bool
  | .int (.ofNat n) => test n
  | _ => false

/-- A string that passes a test. -/
def string? (test : Binary → Bool) : Value → Bool
  | .str s => test s
  | _ => false

/-- `nil`, or a value that passes a test. -/
def optional? (test : Value → Bool) (v : Value) : Bool := v == .null || test v

def time? : Value → Bool := natural? V2.time?

def sequence? : Value → Bool := natural? V2.sequence?

def attempt? : Value → Bool := natural? V2.attempt?

def id? : Value → Bool := string? fun s ↦ s.length == 16 && s != List.replicate 16 0

def key? : Value → Bool := string? V2.key?

def identifier? : Value → Bool := string? V2.identifier?

/-- Two integers that compare. -/
def compare? (test : ℤ → ℤ → Bool) : Value → Value → Bool
  | .int a, .int b => test a b
  | _, _ => false

/-- A lower-case hexadecimal digit. -/
def hexDigit? (c : UInt8) : Bool := (48 ≤ c && c ≤ 57) || (97 ≤ c && c ≤ 102)

/-- `Tay.JobID.decode` succeeds: thirty-two digits, not all of them zero. -/
def jobId? : Value → Bool :=
  string? fun s ↦ s.length == 32 && s.all hexDigit? && s != List.replicate 32 48

/-- `definition?`. -/
def definition? (d : Value) : Bool :=
  d.exactly? ["args", "definition_version", "max_attempts", "queue_key", "retry_policy", "scheduled_at",
      "timeout_ms", "worker_key"] &&
    V2.isMap (d.get "args") && V2.args? (d.get "args") && d.get "definition_version" == .nat 1 &&
    attempt? (d.get "max_attempts") && key? (d.get "worker_key") && key? (d.get "queue_key") &&
    d.get "retry_policy" == V2.policy.toValue && optional? time? (d.get "scheduled_at") &&
    natural? (fun n ↦ 1 ≤ n && n ≤ V2.maxTimeoutMs) (d.get "timeout_ms")

/-- `schedule_expression?`. -/
def scheduleExpression? (kind value : Value) : Bool :=
  if kind == .str (text "cron") then identifier? value
  else if kind == .str (text "every") then natural? (0 < ·) value
  else false

/-- `schedule_definition?`. -/
def scheduleDefinition? (d : Value) : Bool :=
  d.exactly? ["args", "catch_up", "expression", "kind", "options", "overlap", "task", "timezone"] &&
    key? (d.get "task") && V2.isMap (d.get "args") && V2.args? (d.get "args") &&
    [.str (text "cron"), .str (text "every")].contains (d.get "kind") &&
    scheduleExpression? (d.get "kind") (d.get "expression") &&
    optional? identifier? (d.get "timezone") &&
    [.str (text "allow"), .str (text "skip"), .str (text "queue")].contains (d.get "overlap") &&
    [.str (text "latest"), .str (text "all")].contains (d.get "catch_up") &&
    V2.isMap (d.get "options") && V2.args? (d.get "options")

/-- A diagnostic of version 1 with one of some codes. -/
def diagnostic? (codes : List ℕ) (d : Value) : Bool :=
  d.exactly? ["code", "version"] && natural? codes.contains (d.get "code") && d.get "version" == .nat 1

/-- `finish?`. -/
def finish? (outcome disposition diagnostic : Value) : Bool :=
  (outcome == .nat 0 && disposition == .nat 0 && diagnostic == .null) ||
    (outcome == .nat 1 && natural? [1, 2].contains disposition &&
      diagnostic? [1, 2, 3, 4, 6] diagnostic) ||
    (outcome == .nat 2 && natural? [1, 2].contains disposition && diagnostic? [5] diagnostic) ||
    (outcome == .nat 3 && disposition == .nat 1 && diagnostic? [7] diagnostic)

/-- The fields of an advance. -/
def advanced? (d : Value) : Bool :=
  time? (d.get "due_at") && time? (d.get "next_at") &&
    compare? (fun due instant ↦ due ≤ instant) (d.get "due_at") (d.get "at") &&
    compare? (fun due next ↦ due < next) (d.get "due_at") (d.get "next_at")

/-- The fields of a checkpoint. -/
def checkpoint? (d : Value) : Bool :=
  scheduleDefinition? (d.get "definition") && time? (d.get "next_at") &&
    (d.get "expected_revision" == .nat 0 ||
      compare? (fun revision expected ↦ revision == expected + 1) (d.get "revision")
        (d.get "expected_revision")) &&
    time? (d.get "registered_at") && sequence? (d.get "revision") &&
    optional? (fun last ↦ time? last && compare? (fun l next ↦ l < next) last (d.get "next_at"))
      (d.get "last_at") &&
    optional? time? (d.get "cancelled_at") && optional? jobId? (d.get "active_job_id")

/-- The bytes of a string, if it is one. -/
def stringOf : Value → Option Binary
  | .str s => some s
  | _ => none

/-- The strings of a list, if it is one. -/
def strings : Value → Option (List Binary)
  | .list items => items.mapM stringOf
  | _ => none

/-- A list of job ids that `Enum.uniq` and `Enum.sort` leave as it is. -/
def sortedIds? (v : Value) : Bool :=
  match strings v with
  | some ids => ids == ids.dedup.insertionSort (· ≤ ·) && ids.all fun s ↦ jobId? (.str s)
  | none => false

/-- A boolean. -/
def boolean? : Value → Bool
  | .bool _ => true
  | _ => false

/-- `fields?`, by type. -/
def fields? (type : ℕ) (d : Value) : Bool :=
  match type with
  | 1 =>
    definition? (d.get "definition") && time? (d.get "eligible_at") &&
      d.get "eligible_at" == (if (d.get "definition").get "scheduled_at" == .null then d.get "at"
        else (d.get "definition").get "scheduled_at")
  | 2 => time? (d.get "due_at") && compare? (fun due instant ↦ due ≤ instant) (d.get "due_at") (d.get "at")
  | 3 => attempt? (d.get "attempt") && sequence? (d.get "cycle_token")
  | 4 =>
    sequence? (d.get "execution_token") &&
      finish? (d.get "outcome") (d.get "disposition") (d.get "diagnostic") &&
      if d.get "disposition" == .nat 1 then
        attempt? (d.get "next_attempt") && time? (d.get "next_due_at")
      else d.get "next_attempt" == .null && d.get "next_due_at" == .null
  | 5 => optional? sequence? (d.get "execution_token")
  | 6 =>
    natural? [0, 1].contains (d.get "mode") && time? (d.get "new_due_at") &&
      d.get "new_due_at" == d.get "at"
  | 7 => scheduleDefinition? (d.get "definition") && time? (d.get "next_at")
  | 8 => advanced? d
  | 9 => true
  | 10 => V2.args? (d.get "result")
  | 11 =>
    advanced? d &&
      compare? (fun expected bound ↦ expected < bound) (d.get "expected_revision")
        (.nat V2.maxSequence) &&
      optional? jobId? (d.get "active_job_id")
  | 12 => checkpoint? d
  | 13 => checkpoint? d && boolean? (d.get "membership_complete") && sortedIds? (d.get "active_job_ids")
  | _ => false

/-- `revision?`. -/
def revision? (revision : Revision) (n : Value) : Bool :=
  match revision with
  | .insert => n == .nat 0
  | .upsert => n == .nat 0 || sequence? n
  | .existing => sequence? n

/-- `identity?`. -/
def identity? (s : Spec) (d : Value) : Bool :=
  match s.encoding with
  | .bytes => id? (d.get s.identity)
  | .string => identifier? (d.get s.identity)

/-- `V2.validate`. -/
def validate (type schema : ℕ) (data : Value) : Except Reason Unit :=
  match spec type with
  | some s =>
    check (s.schema == schema && data.exactly? s.fields && time? (data.get "at") && identity? s data &&
      revision? s.revision (data.get "expected_revision") && fields? type data) .invalidEvent
  | none => .error .invalidEvent

/-! ## The codec -/

/-- `capability`. -/
def capability (type schema : ℕ) : Except Reason Unit :=
  match spec type with
  | none => .error .unknownEventType
  | some s => check (s.schema == schema) .unsupportedPayloadSchema

/-- `binary_identity_field`. -/
def binaryIdentityField (type : ℕ) : Option String :=
  match spec type with
  | some s => if s.encoding = .bytes then some s.identity else none
  | none => none

/-- `{:bytes, id}`; of anything but a binary it is no value of the codec. -/
def carrier : Value → Value
  | .str s => .bytes s
  | _ => .other

/-- `encode_identity`. -/
def encodeIdentity (type : ℕ) (data : Value) : Except Reason Value :=
  match binaryIdentityField type with
  | none => .ok data
  | some field =>
    match data.fetch field with
    | some id => .ok (data.put field (carrier id))
    | none => .error .invalidEvent

/-- `decode_identity`. -/
def decodeIdentity (type : ℕ) (wire : Value) : Except Reason Value := do
  check (V2.isMap wire) .invalidEvent
  match binaryIdentityField type with
  | none => .ok wire
  | some field =>
    match wire.fetch field with
    | some (.bytes id) => .ok (wire.put field (.str id))
    | _ => .error .invalidEvent

/-- `encode`. -/
def encode (event : Event) (limits : Value.Limits) (max : ℕ) : Except Reason (ℕ × ℕ × Binary) := do
  capability event.recordType event.payloadSchemaVersion
  check (V2.isMap event.data) .invalidEvent
  let wire ← encodeIdentity event.recordType event.data
  let _ ← wire.measure limits max
  validate event.recordType event.payloadSchemaVersion event.data
  let payload ← wire.encode limits max
  return (event.recordType, event.payloadSchemaVersion, payload)

/-- `decode_payload`. -/
def decodePayload (type schema : ℕ) (payload : Binary) (limits : Value.Limits) :
    Except Reason (Event × ℕ) := do
  capability type schema
  let wire ← Value.decode payload limits
  let data ← decodeIdentity type wire
  validate type schema data
  return (⟨type, schema, data⟩, payload.length)

end Event

/-! ## Replacing an entry -/

namespace Value

theorem find_putEntries {key value w : Value} : ∀ {entries : List (Value × Value)},
    findEntries key entries = some w → findEntries key (putEntries key value entries) = some value
  | [], h => by cases h
  | entry :: rest, h => by
    rw [findEntries] at h
    rw [putEntries]
    by_cases hk : (entry.1 == key) = true
    · rw [if_pos hk, findEntries, if_pos (beq_self_eq_true key)]
    · rw [if_neg hk] at h
      rw [if_neg hk, findEntries, if_neg hk]
      exact find_putEntries h

theorem putEntries_putEntries (key value value' : Value) : ∀ entries : List (Value × Value),
    putEntries key value' (putEntries key value entries) = putEntries key value' entries
  | [] => rfl
  | entry :: rest => by
    by_cases hk : (entry.1 == key) = true
    · rw [putEntries, if_pos hk, putEntries, if_pos (beq_self_eq_true key), putEntries, if_pos hk]
    · rw [putEntries, if_neg hk, putEntries, if_neg hk, putEntries_putEntries key value value' rest,
        putEntries, if_neg hk]

theorem putEntries_same {key w : Value} : ∀ {entries : List (Value × Value)},
    findEntries key entries = some w → putEntries key w entries = entries
  | [], h => by cases h
  | entry :: rest, h => by
    rw [findEntries] at h
    rw [putEntries]
    by_cases hk : (entry.1 == key) = true
    · rw [if_pos hk] at h ⊢
      cases h
      rw [← beq_iff_eq.mp hk]
    · rw [if_neg hk] at h ⊢
      rw [putEntries_same h]

theorem writable_findEntries {key w : Value} : ∀ {entries : List (Value × Value)},
    writable.writableMap entries = true → findEntries key entries = some w → w.writable = true
  | [], _, h => by cases h
  | entry :: rest, hw, h => by
    simp only [writable.writableMap, Bool.and_eq_true] at hw
    rw [findEntries] at h
    split at h
    case isTrue =>
      cases h
      exact hw.1.2
    case isFalse => exact writable_findEntries hw.2 h

/-- Another value under the same key keeps the order. -/
theorem orderedMap_putEntries {key value : Value} (hvalue : value.ordered = true) :
    ∀ {previous : Option Value} {entries : List (Value × Value)},
      ordered.orderedMap previous entries = true →
        ordered.orderedMap previous (putEntries key value entries) = true
  | _, [], _ => rfl
  | previous, entry :: rest, h => by
    simp only [ordered.orderedMap, Bool.and_eq_true] at h
    by_cases hk : (entry.1 == key) = true
    · rw [putEntries, if_pos hk, ← beq_iff_eq.mp hk]
      simp only [ordered.orderedMap, h.1.1, hvalue, h.2, Bool.and_self]
    · rw [putEntries, if_neg hk]
      simp only [ordered.orderedMap, h.1.1, h.1.2, orderedMap_putEntries hvalue h.2, Bool.and_self]

variable {data value value' w : Value} {key : String}

theorem fetch_put (h : data.fetch key = some w) : (data.put key value).fetch key = some value := by
  cases data with
  | map entries => exact find_putEntries h
  | _ => cases h

theorem writable_fetch (hw : data.writable = true) (h : data.fetch key = some w) : w.writable = true := by
  cases data with
  | map entries => exact writable_findEntries hw h
  | _ => cases h

theorem put_put : (data.put key value).put key value' = data.put key value' := by
  cases data with
  | map entries => exact congrArg Value.map (putEntries_putEntries _ _ _ entries)
  | _ => rfl

theorem put_same (h : data.fetch key = some w) : data.put key w = data := by
  cases data with
  | map entries => exact congrArg Value.map (putEntries_same h)
  | _ => cases h

theorem ordered_put (hdata : data.ordered = true) (hvalue : value.ordered = true) :
    (data.put key value).ordered = true := by
  cases data with
  | map entries => exact orderedMap_putEntries hvalue hdata
  | _ => exact hdata

theorem isMap_put : V2.isMap (data.put key value) = V2.isMap data := by
  cases data with
  | map entries => rfl
  | _ => rfl

end Value

/-! ## Round trips -/

namespace Event

variable {type schema : ℕ} {data wire : Value} {limits : Value.Limits} {max : ℕ}

/-- Writing the identity: a map in order, from which the identity is read back. -/
theorem encodeIdentity_eq_ok (h : encodeIdentity type data = .ok wire)
    (hwritable : wire.writable = true) (hordered : data.ordered = true) (hmap : V2.isMap data = true) :
    wire.ordered = true ∧ decodeIdentity type wire = .ok data := by
  rw [encodeIdentity.eq_def] at h
  rw [decodeIdentity.eq_def]
  cases hfield : binaryIdentityField type with
  | none =>
    rw [hfield] at h
    cases h
    exact ⟨hordered, check_bind_eq_ok.mpr ⟨hmap, rfl⟩⟩
  | some field =>
    rw [hfield] at h
    cases hid : data.fetch field with
    | none =>
      simp only [hid] at h
      cases h
    | some id =>
      simp only [hid] at h
      cases h
      have hcarrier : (data.put field (carrier id)).fetch field = some (carrier id) := Value.fetch_put hid
      have hwrite := Value.writable_fetch hwritable hcarrier
      cases id with
      | str s =>
        refine ⟨Value.ordered_put hordered rfl, check_bind_eq_ok.mpr ⟨Value.isMap_put.trans hmap, ?_⟩⟩
        rw [carrier] at hcarrier
        simp only [carrier, hcarrier, Value.put_put, Value.put_same hid]
      | _ => cases hwrite

/-- Reading the identity: it is written to the same map. -/
theorem decodeIdentity_eq_ok (h : decodeIdentity type wire = .ok data) (hordered : wire.ordered = true) :
    V2.isMap data = true ∧ data.ordered = true ∧ encodeIdentity type data = .ok wire := by
  rw [decodeIdentity.eq_def] at h
  rw [encodeIdentity.eq_def]
  obtain ⟨hmap, h⟩ := check_bind_eq_ok.mp h
  cases hfield : binaryIdentityField type with
  | none =>
    rw [hfield] at h
    cases h
    exact ⟨hmap, hordered, rfl⟩
  | some field =>
    simp only [hfield] at h
    split at h
    case h_2 => cases h
    case h_1 id hid =>
      cases h
      have hback : (wire.put field (.str id)).fetch field = some (.str id) := Value.fetch_put hid
      refine ⟨Value.isMap_put.trans hmap, Value.ordered_put hordered rfl, ?_⟩
      simp only [hback, carrier, Value.put_put, Value.put_same hid]

/-- **The payload codec.** What is encoded is decoded to the same event; what is decoded passes the
same validation and is encoded to the same bytes. -/
theorem payload_codec (limits : Value.Limits) :
    (∀ (recordType version : ℕ) (term : Value.Term) (max type schema : ℕ) (payload : Binary),
      encode ⟨recordType, version, term.value⟩ limits max = .ok (type, schema, payload) →
        decodePayload type schema payload limits =
          .ok (⟨recordType, version, term.value⟩, payload.length)) ∧
    ∀ (type schema : ℕ) (payload : Binary) (event : Event) (size : ℕ),
      decodePayload type schema payload limits = .ok (event, size) →
        event.recordType = type ∧ event.payloadSchemaVersion = schema ∧ size = payload.length ∧
        event.data.ordered = true ∧ validate type schema event.data = .ok () ∧
        encode event limits Value.maxBytes = .ok (type, schema, payload) := by
  constructor
  · intro recordType version term max type schema payload h
    obtain ⟨_, hcapability, h⟩ := bind_eq_ok.mp h
    obtain ⟨hmap, h⟩ := check_bind_eq_ok.mp h
    obtain ⟨wire, hwire, h⟩ := bind_eq_ok.mp h
    obtain ⟨_, -, h⟩ := bind_eq_ok.mp h
    obtain ⟨_, hvalid, h⟩ := bind_eq_ok.mp h
    obtain ⟨bytes, hbytes, h⟩ := bind_eq_ok.mp h
    cases h
    obtain ⟨⟨-, -, hwritable, -⟩, -⟩ := Value.encode_eq_ok.mp hbytes
    obtain ⟨hwordered, hback⟩ := encodeIdentity_eq_ok hwire hwritable term.ordered hmap
    have hdecoded := Value.decode_encode hwordered hbytes
    exact bind_eq_ok.mpr ⟨_, hcapability, bind_eq_ok.mpr ⟨wire, hdecoded,
      bind_eq_ok.mpr ⟨term.value, hback, bind_eq_ok.mpr ⟨_, hvalid, rfl⟩⟩⟩⟩
  · intro type schema payload event size h
    obtain ⟨_, hcapability, h⟩ := bind_eq_ok.mp h
    obtain ⟨wire, hdecoded, h⟩ := bind_eq_ok.mp h
    obtain ⟨data, hdata, h⟩ := bind_eq_ok.mp h
    obtain ⟨_, hvalid, h⟩ := bind_eq_ok.mp h
    cases h
    obtain ⟨hwordered, hencoded⟩ := Value.decode_eq_ok.mp hdecoded
    obtain ⟨hmap, hordered, hwire⟩ := decodeIdentity_eq_ok hdata hwordered
    obtain ⟨m, hm, -⟩ := bind_eq_ok.mp hencoded
    exact ⟨rfl, rfl, rfl, hordered, hvalid, bind_eq_ok.mpr ⟨_, hcapability,
      check_bind_eq_ok.mpr ⟨hmap, bind_eq_ok.mpr ⟨wire, hwire, bind_eq_ok.mpr ⟨m, hm,
        bind_eq_ok.mpr ⟨_, hvalid, bind_eq_ok.mpr ⟨payload, hencoded, rfl⟩⟩⟩⟩⟩⟩⟩

/-- The cancellation of a job. -/
def sampleData : Value :=
  .record [("at", .nat 5), ("execution_token", .null), ("expected_revision", .nat 1),
    ("job_id", .str (List.replicate 16 1))]

theorem sampleData_ordered : sampleData.ordered = true := by decide +kernel

def sampleWire : Value := sampleData.put "job_id" (.bytes (List.replicate 16 1))

theorem payload_codec_cancelled :
    decodePayload 5 1 sampleWire.wire Value.defaults =
        .ok (⟨5, 1, sampleData⟩, sampleWire.wire.length) ∧
      encode ⟨5, 1, sampleData⟩ Value.defaults Value.maxBytes = .ok (5, 1, sampleWire.wire) := by
  have hdecoded : decodePayload 5 1 sampleWire.wire Value.defaults =
      .ok (⟨5, 1, sampleData⟩, sampleWire.wire.length) :=
    (payload_codec Value.defaults).1 5 1 ⟨sampleData, sampleData_ordered⟩ Value.maxBytes 5 1
      sampleWire.wire (by decide +kernel)
  exact ⟨hdecoded, ((payload_codec Value.defaults).2 5 1 _ _ _ hdecoded).2.2.2.2.2⟩

end Event

end Tay
