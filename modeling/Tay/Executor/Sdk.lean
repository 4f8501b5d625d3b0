import Tay.Executor.Options

/-!
# What a Python client sends

The SDK's side of a submission: `normalize_json`, the options of a job, and the frame that is made of both.
A Python value is what the program passes in: mappings keep the order of their items, a string is a list of
code points that may hold one half of a surrogate pair, and every value that is not JSON is one value here.
An exception of any kind is `none`.

`json.dumps` is a parameter. A mapping's keys are distinct, which `Call` carries for the caller's own.
-/

open Foundation

namespace Tay.Sdk

open Protocol

/-! ## Strings -/

inductive CodePoint
  | scalar (c : Char)
  | surrogate (n : Fin 2048)
  deriving DecidableEq, Repr

namespace CodePoint

def ord : CodePoint → ℕ
  | .scalar c => c.toNat
  | .surrogate n => 0xD800 + n

def scalar? : CodePoint → Option Char
  | .scalar c => some c
  | .surrogate _ => none

end CodePoint

abbrev Text := List CodePoint

def literal (s : String) : Text := s.toList.map .scalar

/-- `encode("utf-8")`, which raises on a surrogate. -/
def encode (t : Text) : Option Binary := (t.mapM CodePoint.scalar?).map fun cs ↦ text (String.ofList cs)

/-- `len(t.encode("utf-8")) <= maximum` -/
def encodesWithin (t : Text) (maximum : ℕ) : Bool := (encode t).any fun bytes ↦ bytes.length ≤ maximum

/-! ## Values -/

inductive Key
  | str (t : Text)
  /-- Any other hashable value, by a number of its own. -/
  | other (n : ℕ)
  deriving DecidableEq, Repr

inductive PyValue
  | none
  | bool (b : Bool)
  | int (n : ℤ)
  /-- A float, by its IEEE-754 bit pattern. -/
  | float (bits : UInt64)
  | str (t : Text)
  | list (items : List PyValue)
  | mapping (entries : List (Key × PyValue))
  /-- A tuple, bytes, an instance of any class, a subclass of `str` or `int` included. -/
  | other

/-- The items of a dictionary, in the order of their insertion. -/
abbrev Entries := List (Key × PyValue)

namespace Entries

/-- `entries[key] = value` -/
def assign (entries : Entries) (key : Key) (value : PyValue) : Entries :=
  match entries with
  | [] => [(key, value)]
  | e :: rest => if e.1 = key then (key, value) :: rest else e :: assign rest key value

/-- `entries.update(more)` -/
def update (entries more : Entries) : Entries := more.foldl (fun d e ↦ d.assign e.1 e.2) entries

def find? (entries : Entries) (name : String) : Option PyValue :=
  (List.find? (fun e ↦ e.1 == .str (literal name)) entries).map Prod.snd

/-- `name in entries` -/
def has (entries : Entries) (name : String) : Bool := (entries.find? name).isSome

/-- `entries.get(name)` -/
def get (entries : Entries) (name : String) : PyValue := (entries.find? name).getD .none

def keys (entries : Entries) : List Key := entries.map Prod.fst

end Entries

/-! ## JSON -/

def defaultMaxJsonDepth : ℕ := 32

def defaultMaxCollectionItems : ℕ := 10000

/-- `math.isfinite` -/
def isFinite (bits : UInt64) : Bool := bits.toNat / 2 ^ 52 % 2048 != 2047

/-- `normalize_json` at its default limits. -/
def normalizeJson (value : PyValue) (depth : ℕ) : Option PyValue :=
  if defaultMaxJsonDepth < depth then none
  else match value with
    | .none => some .none
    | .bool b => some (.bool b)
    | .int n => some (.int n)
    | .float bits => if isFinite bits then some (.float bits) else none
    | .str t => some (.str t)
    | .list items =>
      if defaultMaxCollectionItems < items.length then none
      else (normalizeList items (depth + 1)).map .list
    | .mapping entries =>
      if defaultMaxCollectionItems < entries.length then none
      else (normalizeEntries entries (depth + 1) []).map .mapping
    | .other => none
where
  normalizeList (items : List PyValue) (depth : ℕ) : Option (List PyValue) :=
    match items with
    | [] => some []
    | item :: rest => do
      let head ← normalizeJson item depth
      let tail ← normalizeList rest depth
      return head :: tail
  normalizeEntries (entries : List (Key × PyValue)) (depth : ℕ) (normalized : Entries) : Option Entries :=
    match entries with
    | [] => some normalized
    | (.str key, item) :: rest => do
      let item ← normalizeJson item depth
      normalizeEntries rest depth (normalized.assign (.str key) item)
    | (.other _, _) :: _ => none

/-! ## Options -/

def maxTime : ℕ := 9223372036854775807

/-- `_milliseconds`. The quotient is the double that `Tay.JobOptions.seconds` is, and a product with 1,000
is rounded to a double before it is rounded to a whole number, halves up. -/
def milliseconds (value : PyValue) (maximum minimum : ℕ) : Bool :=
  match value with
  | .int n => 0 ≤ n && n ≤ JobOptions.seconds maximum && (minimum ≤ n * 1000 && n * 1000 ≤ maximum)
  | .float bits =>
    let amount := Double.ofBits bits.toNat
    let scaled := amount.times 1000
    let converted := scaled.floor + if scaled.pastHalf then 1 else 0
    amount.isNonnegative && isFinite bits && amount.atMost (JobOptions.seconds maximum) &&
      (minimum ≤ converted && converted ≤ maximum)
  | _ => false

/-- An integer within bounds, or no value. -/
def optionalWithin (value : PyValue) (minimum maximum : ℤ) : Bool :=
  match value with
  | .none => true
  | .int n => minimum ≤ n && n ≤ maximum
  | _ => false

/-- A string that passes a test. -/
def isText (test : Text → Bool) (value : PyValue) : Bool :=
  match value with
  | .str t => test t
  | _ => false

/-- A string that is neither empty nor has a NUL in it, within a number of bytes. -/
def isPlain (maximum : ℕ) : PyValue → Bool :=
  isText fun t ↦ !t.isEmpty && !t.contains (.scalar '\x00') && encodesWithin t maximum

/-- `identifier` -/
def isIdentifier : PyValue → Bool := isPlain 128

def isQueue : PyValue → Bool := isPlain 255

def isHexDigit (c : CodePoint) : Bool :=
  (48 ≤ c.ord && c.ord ≤ 57) || (97 ≤ c.ord && c.ord ≤ 102)

/-- A match of `[0-9a-f]{32}` that is not zero as a number. -/
def isJobId : PyValue → Bool :=
  isText fun t ↦ t.length == 32 && t.all isHexDigit && !t.all fun c ↦ c.ord == 48

def isNone : PyValue → Bool
  | .none => true
  | _ => false

def isStr (value : PyValue) (s : String) : Bool := isText (· == literal s) value

/-- `validate_durability`. An instance of a subclass of `str` that passes here is not JSON. -/
def validateDurability (value : PyValue) : Bool :=
  isNone value || isStr value "persistent" || isStr value "volatile"

def validateExecutionOptions (options : Entries) : Bool :=
  optionalWithin (options.get "retries") 0 65534 &&
    (isNone (options.get "backoff") || isStr (options.get "backoff") "exponential") &&
    validateDurability (options.get "durability")

def enqueueOptionNames : List String :=
  ["id", "submission_id", "delay", "delay_ms", "run_at", "retries", "timeout", "timeout_ms", "backoff",
    "queue", "durability"]

def validateSubmissionOptions (options : Entries) : Bool :=
  options.keys.all (fun key ↦ enqueueOptionNames.any fun name ↦ key == .str (literal name)) &&
  validateExecutionOptions options &&
  (isNone (options.get "id") || isJobId (options.get "id")) &&
  (isNone (options.get "submission_id") ||
    isIdentifier (options.get "submission_id") && isNone (options.get "id")) &&
  (isNone (options.get "delay") || milliseconds (options.get "delay") maxTime 0) &&
  optionalWithin (options.get "delay_ms") 0 maxTime &&
  (isNone (options.get "delay") || isNone (options.get "delay_ms")) &&
  (isNone (options.get "run_at") || optionalWithin (options.get "run_at") 0 maxTime &&
    isNone (options.get "delay") && isNone (options.get "delay_ms")) &&
  (isNone (options.get "timeout") || milliseconds (options.get "timeout") 86400000 1) &&
  optionalWithin (options.get "timeout_ms") 1 86400000 &&
  (isNone (options.get "timeout") || isNone (options.get "timeout_ms")) &&
  (!options.has "queue" || isQueue (options.get "queue")) &&
  !(options.has "retries" && isNone (options.get "retries"))

/-- `dict(options) if options is not None else {}` -/
def givenOptions (options : PyValue) : Option Entries :=
  match options with
  | .none => some []
  | .mapping entries => some entries
  | _ => none

/-- `merge_enqueue_options` -/
def mergeEnqueueOptions (options : PyValue) (keywords : Entries) (durability : PyValue) : Option Entries := do
  let given ← givenOptions options
  guard (given.keys.all fun key ↦ !keywords.keys.contains key)
  let merged := given.update keywords
  guard (isNone durability || !merged.has "durability")
  let merged := if isNone durability then merged else merged.assign (.str (literal "durability")) durability
  guard (validateSubmissionOptions merged)
  return merged

/-- `job_arguments` -/
def jobArguments (args : PyValue) : Option PyValue :=
  match args with
  | .none => normalizeJson (.mapping []) 0
  | .mapping entries => normalizeJson (.mapping entries) 0
  | _ => none

/-! ## Frames -/

/-- `validate_task_name` -/
def validateTaskName (name : PyValue) : Option Text :=
  match name with
  | .str t => if !t.isEmpty && encodesWithin t 255 && t.all (fun c ↦ 0x20 ≤ c.ord) then some t else none
  | _ => none

/-- `enqueue_payload` -/
def enqueuePayload (taskName : Text) (args options : PyValue) (keywords : Entries) (durability : PyValue) :
    Option PyValue := do
  let arguments ← jobArguments args
  let merged ← mergeEnqueueOptions options keywords durability
  let normalized ← normalizeJson (.mapping merged) 0
  return .mapping [(.str (literal "task"), .str taskName), (.str (literal "args"), arguments),
    (.str (literal "options"), normalized)]

/-- `version == PROTOCOL_VERSION`: an integer, a float and a boolean compare by their numbers. -/
def isProtocolVersion : PyValue → Bool
  | .int n => n == 1
  | .bool b => b
  | .float bits => bits == 0x3FF0000000000000
  | _ => false

/-- A string that is neither empty nor longer than the number of bytes. -/
def isBounded (maximum : ℕ) : PyValue → Bool := isText fun t ↦ !t.isEmpty && encodesWithin t maximum

/-- `validate_envelope` of a message of the client's own. -/
def validateEnvelope (envelope : PyValue) : Option PyValue := do
  let normalized ← normalizeJson envelope 0
  let .mapping entries := normalized | none
  guard (isProtocolVersion (Entries.get entries "version"))
  guard (isBounded 64 (Entries.get entries "type"))
  guard (isBounded 128 (Entries.get entries "request_id"))
  return normalized

/-- `struct.pack(">I", size)` -/
def packSize (size : ℕ) : Binary :=
  [UInt8.ofNat (size / 16777216), UInt8.ofNat (size / 65536), UInt8.ofNat (size / 256), UInt8.ofNat size]

/-- `encode_frame`, with `json_bytes` as the parameter. -/
def encodeFrame (jsonBytes : PyValue → Option Binary) (envelope : PyValue) (maxFrameBytes : ℕ) : Option Binary := do
  guard (1 ≤ maxFrameBytes)
  let normalized ← validateEnvelope envelope
  let payload ← jsonBytes normalized
  guard (1 ≤ payload.length ∧ payload.length ≤ maxFrameBytes)
  guard (payload.length < 4294967296)
  return packSize payload.length ++ payload

/-! ## Calls -/

namespace PyValue

/-- No mapping has a key twice. -/
def distinct : PyValue → Bool
  | .list items => distinctList items
  | .mapping entries => decide (entries.map Prod.fst).Nodup && distinctEntries entries
  | _ => true
where
  distinctList : List PyValue → Bool
    | [] => true
    | head :: tail => distinct head && distinctList tail
  distinctEntries : List (Key × PyValue) → Bool
    | [] => true
    | (_, value) :: rest => distinct value && distinctEntries rest

end PyValue

/-- What a program passes to `enqueue`. -/
structure Call where
  task : PyValue
  args : PyValue
  options : PyValue
  keywords : Entries
  durability : PyValue
  argsDistinct : args.distinct = true
  optionsDistinct : options.distinct = true
  keywordsDistinct : (PyValue.mapping keywords).distinct = true

/-- `uuid.uuid4().hex` -/
structure RequestId where
  hex : String
  digits : hex.toList.all (fun c ↦ isHexDigit (.scalar c)) = true
  size : hex.length = 32

/-- `enqueue`, up to the frame that `_exchange` writes. -/
def enqueueFrame (jsonBytes : PyValue → Option Binary) (call : Call) (requestId : RequestId) (maxFrameBytes : ℕ) :
    Option Binary := do
  let taskName ← validateTaskName call.task
  let payload ← enqueuePayload taskName call.args call.options call.keywords call.durability
  let .mapping fields ← normalizeJson payload 0 | none
  let envelope := Entries.update [(.str (literal "version"), .int 1), (.str (literal "type"), .str (literal "enqueue")),
    (.str (literal "request_id"), .str (literal requestId.hex))] fields
  encodeFrame jsonBytes (.mapping envelope) maxFrameBytes

end Tay.Sdk
