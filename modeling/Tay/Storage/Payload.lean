import Tay.Event.Typed
import Tay.Storage.Codec

/-!
# Snapshot and mutation payloads

`Tay.Storage.V2.Codec` on bytes. A snapshot is the id, both counters, an optional token and a map of
eleven fields; a mutation is the id, a kind, both revisions, the time and a map whose keys its kind
fixes. A job and a mutation are here as the program holds them, with terms for everything that comes out
of a map, and are validated by the same function before they are written and after they are read. The
structures of `Tay.Storage.Codec` are those that pass.
-/

open Foundation

namespace Tay

namespace Value

/-- `Map.delete`. -/
def deleteEntries (key : Value) : List (Value × Value) → List (Value × Value)
  | [] => []
  | entry :: rest => if entry.1 == key then rest else entry :: deleteEntries key rest

/-- `Map.put`: in the order of the keys. -/
def insertEntries (key : Binary) (value : Value) : List (Value × Value) → List (Value × Value)
  | [] => [(.str key, value)]
  | entry :: rest =>
    if entry.1 == .str key then (.str key, value) :: rest
    else if ascends (some entry.1) (.str key) then entry :: insertEntries key value rest
    else (.str key, value) :: entry :: rest

def delete (data : Value) (key : String) : Value :=
  match data with
  | .map entries => .map (deleteEntries (.str (text key)) entries)
  | _ => data

def insert (data : Value) (key : String) (value : Value) : Value :=
  match data with
  | .map entries => .map (insertEntries (text key) value entries)
  | _ => data

end Value

theorem Value.findEntries_keys : ∀ {keys : List String} {entries : List (Value × Value)},
    keys.Nodup → entries.map Prod.fst = keys.map (fun key ↦ .str (text key)) →
      entries = keys.map fun key ↦
        (.str (text key), (findEntries (.str (text key)) entries).getD .null)
  | [], entries, _, h => List.map_eq_nil_iff.mp h
  | key :: keys, [], _, h => by cases h
  | key :: keys, entry :: entries, hnodup, h => by
    rw [List.map_cons, List.map_cons, List.cons.injEq] at h
    rw [List.nodup_cons] at hnodup
    have hhead : entry = (.str (text key), entry.2) := Prod.ext h.1 rfl
    have htail := findEntries_keys hnodup.2 h.2
    have hskip : ∀ k ∈ keys, findEntries (.str (text k)) (entry :: entries) =
        findEntries (.str (text k)) entries := by
      intro k hk
      have hne : ¬(entry.1 == .str (text k)) = true := by
        rw [h.1, beq_iff_eq]
        intro heq
        exact hnodup.1 (text_injective (Value.str.inj heq) ▸ hk)
      rw [findEntries, if_neg hne]
    have hself : findEntries (.str (text key)) (entry :: entries) = some entry.2 := by
      rw [findEntries, if_pos (beq_iff_eq.mpr h.1)]
    rw [List.map_cons, hself, Option.getD_some, ← hhead]
    congr 1
    conv_lhs => rw [htail]
    refine List.map_congr_left fun k hk ↦ ?_
    rw [hskip k hk]

/-- A map with exactly some keys is the record of its fields. -/
theorem Value.eq_record_of_exact {v : Value} {keys : List String} (h : v.exactly? keys = true)
    (hkeys : keys.Nodup) : v = .record (keys.map fun key ↦ (key, v.get key)) := by
  cases v with
  | map entries =>
    have hfst : entries.map Prod.fst = keys.map fun key ↦ .str (text key) := beq_iff_eq.mp h
    refine congrArg Value.map ?_
    rw [List.map_map]
    exact findEntries_keys hkeys hfst
  | _ => cases h

/-- `<<id::binary-size(n), rest::binary>>`. -/
def takeBytes (n : ℕ) (input : Binary) : Option (Binary × Binary) :=
  if n ≤ input.length then some (input.take n, input.drop n) else none

theorem takeBytes_eq_some {n : ℕ} {input : Binary} {f : Binary × Binary} :
    takeBytes n input = some f ↔ f.1.length = n ∧ input = f.1 ++ f.2 := by
  constructor
  · intro h
    rw [takeBytes] at h
    split at h
    case isFalse => cases h
    case isTrue hlength =>
      cases h
      exact ⟨List.length_take_of_le hlength, (List.take_append_drop n input).symm⟩
  · rintro ⟨hlength, rfl⟩
    have hle : n ≤ (f.1 ++ f.2).length := by
      rw [List.length_append]
      omega
    rw [takeBytes, if_pos hle, List.take_left' hlength, List.drop_left' hlength]

/-! ## Mutations -/

/-- The kinds of a mutation. -/
inductive MutationKind
  | inserted
  | available
  | started
  | finished
  | cancelled
  | retried
  deriving DecidableEq, Repr

namespace MutationKind

/-- `@kinds`. -/
def code : MutationKind → ℕ
  | .inserted => 1
  | .available => 2
  | .started => 3
  | .finished => 4
  | .cancelled => 5
  | .retried => 6

/-- `kind`. -/
def ofCode : ℕ → Option MutationKind
  | 1 => some .inserted
  | 2 => some .available
  | 3 => some .started
  | 4 => some .finished
  | 5 => some .cancelled
  | 6 => some .retried
  | _ => none

/-- `@bodies`, in the order of the keys. -/
def keys : MutationKind → List String
  | .inserted => ["availability_order", "definition", "eligible_at"]
  | .available => ["availability_order", "due_at"]
  | .started => ["attempt", "cycle_token"]
  | .finished =>
    ["diagnostic", "disposition", "execution_token", "next_attempt", "next_due_at", "outcome"]
  | .cancelled => ["execution_token"]
  | .retried => ["availability_order", "mode", "new_due_at"]

theorem ofCode_code (kind : MutationKind) : ofCode kind.code = some kind := by
  cases kind <;> rfl

theorem code_of_ofCode {n : ℕ} {kind : MutationKind} (h : ofCode n = some kind) : n = kind.code := by
  unfold ofCode at h
  split at h <;> cases h <;> rfl

end MutationKind

/-- A mutation as the program holds it. -/
structure MutationMap where
  jobId : Binary
  kind : MutationKind
  expectedRevision : ℕ
  newRevision : ℕ
  timestamp : ℕ
  body : Value
  deriving DecidableEq

namespace MutationMap

/-- `event`. -/
def event (m : MutationMap) : Event :=
  ⟨m.kind.code, 1, (((m.body.delete "availability_order").insert "job_id" (.str m.jobId)).insert
    "expected_revision" (.nat m.expectedRevision)).insert "at" (.nat m.timestamp)⟩

def uint? : Value → Bool := Event.natural? Codec.uint?

/-- `mutation_order?`. -/
def order? (kind : MutationKind) (timestamp : ℕ) (body : Value) : Bool :=
  match kind with
  | .inserted =>
    if Event.compare? (fun eligible instant ↦ eligible ≤ instant) (body.get "eligible_at")
        (.nat timestamp)
    then uint? (body.get "availability_order") else body.get "availability_order" == .null
  | .available | .retried => uint? (body.get "availability_order")
  | _ => true

/-- `mutation?`. -/
def mutation? (m : MutationMap) (limits : Value.Limits) : Except Reason Unit := do
  check (Event.id? (.str m.jobId)) .jobId
  check (m.expectedRevision ≤ V2.maxSequence - 1) .revision
  check (m.newRevision == m.expectedRevision + 1) .revision
  check ((m.kind == .inserted) == (m.expectedRevision == 0)) .revision
  check (V2.time? m.timestamp) .timestamp
  check (m.body.exactly? m.kind.keys) .mutationKeys
  check (order? m.kind m.timestamp m.body) .availabilityOrder
  let _ ← m.event.encode limits Value.maxBytes
  return ()

/-- What stands before the body. -/
def header (m : MutationMap) : Binary :=
  m.jobId ++ (Value.bigEndian 1 m.kind.code ++ (Value.bigEndian 8 m.expectedRevision ++
    (Value.bigEndian 8 m.newRevision ++ Value.bigEndian 8 m.timestamp)))

/-- `encode_mutation`. -/
def encode (m : MutationMap) (limits : Value.Limits) : Except Reason Binary := do
  m.mutation? limits
  let body ← m.body.encode limits Value.maxBytes
  check ((m.header ++ body).length ≤ Value.maxBytes) .payloadTooLarge
  return m.header ++ body

/-- The fixed part of a payload, and the bytes of the body. -/
structure Header where
  jobId : Binary
  kindByte : ℕ
  expectedRevision : ℕ
  newRevision : ℕ
  timestamp : ℕ
  body : Binary

/-- The pattern of `decode_mutation`. -/
def readHeader (payload : Binary) : Option Header := do
  let id ← takeBytes 16 payload
  let kindByte ← Value.field 1 id.2
  let expected ← Value.field 8 kindByte.2
  let revision ← Value.field 8 expected.2
  let instant ← Value.field 8 revision.2
  return ⟨id.1, kindByte.1, expected.1, revision.1, instant.1, instant.2⟩

/-- `decode_mutation`. -/
def decode (payload : Binary) (limits : Value.Limits) : Except Reason MutationMap := do
  check (payload.length ≤ Value.maxBytes) .payloadTooLarge
  match readHeader payload with
  | none => .error .invalidMutation
  | some h =>
    match MutationKind.ofCode h.kindByte with
    | none => .error .mutationKind
    | some kind =>
      let body ← Value.decode h.body limits
      mutation? ⟨h.jobId, kind, h.expectedRevision, h.newRevision, h.timestamp, body⟩ limits
      return ⟨h.jobId, kind, h.expectedRevision, h.newRevision, h.timestamp, body⟩

theorem readHeader_eq_some {payload : Binary} {h : Header} :
    readHeader payload = some h ↔ h.jobId.length = 16 ∧ h.kindByte < 256 ∧
      h.expectedRevision < 256 ^ 8 ∧ h.newRevision < 256 ^ 8 ∧ h.timestamp < 256 ^ 8 ∧
      payload = h.jobId ++ (Value.bigEndian 1 h.kindByte ++ (Value.bigEndian 8 h.expectedRevision ++
        (Value.bigEndian 8 h.newRevision ++ (Value.bigEndian 8 h.timestamp ++ h.body)))) := by
  constructor
  · intro heq
    obtain ⟨id, hid, heq⟩ := Option.bind_eq_some_iff.mp heq
    obtain ⟨kindByte, hkind, heq⟩ := Option.bind_eq_some_iff.mp heq
    obtain ⟨expected, hexpected, heq⟩ := Option.bind_eq_some_iff.mp heq
    obtain ⟨revision, hrevision, heq⟩ := Option.bind_eq_some_iff.mp heq
    obtain ⟨instant, hinstant, heq⟩ := Option.bind_eq_some_iff.mp heq
    cases heq
    obtain ⟨hlength, hpayload⟩ := takeBytes_eq_some.mp hid
    obtain ⟨hk, hkrest⟩ := Value.field_eq_some.mp hkind
    obtain ⟨he, herest⟩ := Value.field_eq_some.mp hexpected
    obtain ⟨hr, hrrest⟩ := Value.field_eq_some.mp hrevision
    obtain ⟨ht, htrest⟩ := Value.field_eq_some.mp hinstant
    rw [pow_one] at hk
    exact ⟨hlength, hk, he, hr, ht, by rw [hpayload, hkrest, herest, hrrest, htrest]⟩
  · rintro ⟨hlength, hk, he, hr, ht, rfl⟩
    rw [← pow_one 256] at hk
    exact Option.bind_eq_some_iff.mpr ⟨(h.jobId, _), takeBytes_eq_some.mpr ⟨hlength, rfl⟩,
      Option.bind_eq_some_iff.mpr ⟨(h.kindByte, _), Value.field_eq_some.mpr ⟨hk, rfl⟩,
      Option.bind_eq_some_iff.mpr ⟨(h.expectedRevision, _), Value.field_eq_some.mpr ⟨he, rfl⟩,
      Option.bind_eq_some_iff.mpr ⟨(h.newRevision, _), Value.field_eq_some.mpr ⟨hr, rfl⟩,
      Option.bind_eq_some_iff.mpr ⟨(h.timestamp, _), Value.field_eq_some.mpr ⟨ht, rfl⟩, rfl⟩⟩⟩⟩⟩

/-! ### Round trips -/

/-- What `mutation?` says about the fixed part. -/
theorem mutation_eq_ok {m : MutationMap} {limits : Value.Limits} (h : m.mutation? limits = .ok ()) :
    m.jobId.length = 16 ∧ m.expectedRevision < 256 ^ 8 ∧ m.newRevision < 256 ^ 8 ∧
      m.timestamp < 256 ^ 8 := by
  obtain ⟨hid, h⟩ := check_bind_eq_ok.mp h
  obtain ⟨hexpected, h⟩ := check_bind_eq_ok.mp h
  obtain ⟨hnew, h⟩ := check_bind_eq_ok.mp h
  obtain ⟨-, h⟩ := check_bind_eq_ok.mp h
  obtain ⟨htime, -⟩ := check_bind_eq_ok.mp h
  simp only [Event.id?, Event.string?, Bool.and_eq_true, beq_iff_eq] at hid
  have hbound : m.expectedRevision ≤ V2.maxSequence - 1 := of_decide_eq_true hexpected
  have hnext : m.newRevision = m.expectedRevision + 1 := beq_iff_eq.mp hnew
  have hlate : m.timestamp ≤ V2.maxTime := of_decide_eq_true htime
  unfold V2.maxSequence at hbound
  unfold V2.maxTime at hlate
  rw [Value.pow_eight]
  exact ⟨hid.1, by omega, by omega, by omega⟩

/-- What `encode_mutation` writes. -/
theorem encode_eq_ok {m : MutationMap} {limits : Value.Limits} {payload : Binary} :
    m.encode limits = .ok payload ↔ m.mutation? limits = .ok () ∧
      ∃ body, m.body.encode limits Value.maxBytes = .ok body ∧ payload = m.header ++ body ∧
        payload.length ≤ Value.maxBytes := by
  constructor
  · intro h
    obtain ⟨_, hvalid, h⟩ := bind_eq_ok.mp h
    obtain ⟨body, hbody, h⟩ := bind_eq_ok.mp h
    obtain ⟨hsize, h⟩ := check_bind_eq_ok.mp h
    cases h
    exact ⟨hvalid, body, hbody, rfl, of_decide_eq_true hsize⟩
  · rintro ⟨hvalid, body, hbody, rfl, hsize⟩
    exact bind_eq_ok.mpr ⟨_, hvalid, bind_eq_ok.mpr ⟨body, hbody,
      check_bind_eq_ok.mpr ⟨decide_eq_true hsize, rfl⟩⟩⟩

/-- What `decode_mutation` accepts is what is written. -/
theorem decode_eq_ok {payload : Binary} {m : MutationMap} {limits : Value.Limits} :
    decode payload limits = .ok m ↔ m.body.ordered = true ∧ m.encode limits = .ok payload := by
  rw [encode_eq_ok]
  constructor
  · intro h
    obtain ⟨hsize, h⟩ := check_bind_eq_ok.mp h
    split at h
    case h_1 => cases h
    case h_2 hd hheader =>
      split at h
      case h_1 => cases h
      case h_2 kind hkind =>
        obtain ⟨body, hbody, h⟩ := bind_eq_ok.mp h
        obtain ⟨_, hvalid, h⟩ := bind_eq_ok.mp h
        cases h
        obtain ⟨-, -, -, -, -, hpayload⟩ := readHeader_eq_some.mp hheader
        obtain ⟨hordered, hencoded⟩ := Value.decode_eq_ok.mp hbody
        refine ⟨hordered, hvalid, hd.body, hencoded, ?_, of_decide_eq_true hsize⟩
        rw [hpayload, header, MutationKind.code_of_ofCode hkind]
        simp only [List.append_assoc]
  · rintro ⟨hordered, hvalid, body, hbody, hpayload, hsize⟩
    obtain ⟨hlength, hexpected, hnew, htime⟩ := mutation_eq_ok hvalid
    have hkind : m.kind.code < 256 := by
      cases m.kind <;> decide
    have hheader : readHeader payload =
        some ⟨m.jobId, m.kind.code, m.expectedRevision, m.newRevision, m.timestamp, body⟩ := by
      refine readHeader_eq_some.mpr ⟨hlength, hkind, hexpected, hnew, htime, ?_⟩
      rw [hpayload, header]
      simp only [List.append_assoc]
    refine check_bind_eq_ok.mpr ⟨decide_eq_true hsize, ?_⟩
    simp only [hheader, MutationKind.ofCode_code]
    exact bind_eq_ok.mpr ⟨m.body, Value.decode_encode hordered hbody,
      bind_eq_ok.mpr ⟨_, hvalid, rfl⟩⟩

end MutationMap

/-! ## Snapshots -/

/-- A job as the program holds it: the sixteen keys that a snapshot restates. -/
structure JobMap where
  id : Binary
  revision : ℕ
  cycle : ℕ
  execution : Option ℕ
  definition : Value
  definitionBytes : Binary
  state : JobState
  attempt : Value
  nextAttempt : Value
  eligibleAt : Value
  availabilityOrder : Value
  insertedAt : Value
  attemptedAt : Value
  completedAt : Value
  terminalAt : Value
  diagnostic : Value
  deriving DecidableEq

namespace JobMap

open Event

def uint? : Value → Bool := natural? Codec.uint?

/-- `maybe_time?`. -/
def maybeTime? : Value → Bool := optional? time?

/-- `definition["max_attempts"]`. -/
def maxAttempts (definition : Value) : ℕ :=
  match definition.get "max_attempts" with
  | .int (.ofNat n) => n
  | _ => 0

/-- `valid_diagnostic?`. -/
def validDiagnostic? (v : Value) : Bool :=
  v == .null || (v.exactly? ["code", "version"] && v.get "version" == .nat 1 &&
    natural? (fun code ↦ 1 ≤ code && code ≤ 7) (v.get "code"))

/-- `terminal_fields?`. -/
def terminalFields? (job : JobMap) : Bool :=
  match job.state with
  | .completed => time? job.terminalAt && job.terminalAt == job.completedAt
  | .cancelled | .discarded => time? job.terminalAt && job.completedAt == .null
  | _ => job.terminalAt == .null

/-- `state_fields?`. -/
def stateFields? (job : JobMap) : Bool :=
  match job.state with
  | .scheduled | .retryable =>
    job.nextAttempt != .null && job.eligibleAt != .null && job.availabilityOrder == .null &&
      job.execution.isNone && job.completedAt == .null
  | .available =>
    job.nextAttempt != .null && job.eligibleAt != .null && job.availabilityOrder != .null &&
      job.execution.isNone && job.completedAt == .null
  | .executing =>
    job.nextAttempt != .null && job.eligibleAt == .null && job.availabilityOrder == .null &&
      job.execution.isSome && job.completedAt == .null
  | .completed =>
    job.nextAttempt == .null && job.eligibleAt == .null && job.availabilityOrder == .null &&
      job.execution.isNone && job.completedAt != .null
  | .cancelled | .discarded =>
    job.nextAttempt == .null && job.eligibleAt == .null && job.availabilityOrder == .null &&
      job.execution.isNone && job.completedAt == .null

/-- `job.attempt > 0`, of an attempt that is a number. -/
def tried? (job : JobMap) : Bool := natural? (0 < ·) job.attempt

/-- `credible_state?`. -/
def credibleState? (job : JobMap) : Bool :=
  match job.state with
  | .scheduled =>
    job.revision == 1 && job.cycle == 1 && job.attempt == .nat 0 && job.nextAttempt == .nat 1 &&
      job.attemptedAt == .null && job.diagnostic == .null
  | .available =>
    (job.attempt == .nat 0 && job.nextAttempt == .nat 1 && job.attemptedAt == .null) ||
      (job.tried? && job.attemptedAt != .null)
  | .executing =>
    job.tried? && job.attemptedAt != .null && job.execution == some job.revision &&
      job.nextAttempt == job.attempt
  | .retryable | .discarded => job.tried? && job.attemptedAt != .null && job.diagnostic != .null
  | .completed => job.tried? && job.attemptedAt != .null
  | .cancelled => true

/-- `snapshot?`. -/
def snapshot? (job : JobMap) (limits : Value.Limits) : Except Reason Unit := do
  check (id? (.str job.id)) .jobId
  check (definition? job.definition) .definition
  let bytes ← job.definition.encode limits Value.maxBytes
  check (job.definitionBytes == bytes) .definitionBytes
  check (Codec.uint? job.revision && Codec.uint? job.cycle && job.cycle ≤ job.revision) .revision
  check (natural? (· ≤ maxAttempts job.definition) job.attempt) .attempt
  check (optional? (natural? fun n ↦ 1 ≤ n && n ≤ maxAttempts job.definition) job.nextAttempt)
    .nextAttempt
  check (time? job.insertedAt && maybeTime? job.eligibleAt && maybeTime? job.attemptedAt &&
    maybeTime? job.completedAt && maybeTime? job.terminalAt) .timestamp
  check (optional? uint? job.availabilityOrder) .availabilityOrder
  check (job.execution.all fun token ↦ Codec.uint? token && token ≤ job.revision) .executionToken
  check (validDiagnostic? job.diagnostic) .diagnostic
  check job.terminalFields? .terminalAt
  check job.stateFields? .stateFields
  check job.credibleState? .stateFields

/-- `@snapshot_keys`, in order. -/
def keys : List String :=
  ["attempt", "attempted_at", "availability_order", "completed_at", "definition", "diagnostic",
    "eligible_at", "inserted_at", "next_attempt", "state", "terminal_at"]

/-- `snapshot_body`. -/
def body (job : JobMap) : Value :=
  .record [("attempt", job.attempt), ("attempted_at", job.attemptedAt),
    ("availability_order", job.availabilityOrder), ("completed_at", job.completedAt),
    ("definition", job.definition), ("diagnostic", job.diagnostic), ("eligible_at", job.eligibleAt),
    ("inserted_at", job.insertedAt), ("next_attempt", job.nextAttempt),
    ("state", .str (Codec.stateText job.state)), ("terminal_at", job.terminalAt)]

/-- The optional token. -/
def present : Option ℕ → Binary
  | none => [0]
  | some token => 1 :: Value.bigEndian 8 token

/-- What stands before the body. -/
def header (job : JobMap) : Binary :=
  job.id ++ (Value.bigEndian 8 job.revision ++ (Value.bigEndian 8 job.cycle ++ present job.execution))

/-- `encode_snapshot`. -/
def encode (job : JobMap) (limits : Value.Limits) : Except Reason Binary := do
  job.snapshot? limits
  let body ← job.body.encode limits Value.maxBytes
  check ((job.header ++ body).length ≤ Value.maxBytes) .payloadTooLarge
  return job.header ++ body

/-- The fixed part of a payload: id, revision, cycle, the byte that says whether there is a token, and
the rest. -/
structure Header where
  id : Binary
  revision : ℕ
  cycle : ℕ
  present : ℕ
  rest : Binary

/-- The pattern of `decode_snapshot`. -/
def readHeader (payload : Binary) : Option Header := do
  let id ← takeBytes 16 payload
  let revision ← Value.field 8 id.2
  let cycle ← Value.field 8 revision.2
  let present ← Value.field 1 cycle.2
  return ⟨id.1, revision.1, cycle.1, present.1, present.2⟩

/-- `execution`. -/
def readExecution (present : ℕ) (rest : Binary) : Except Reason (Option ℕ × Binary) :=
  match present with
  | 0 => .ok (none, rest)
  | 1 =>
    match Value.field 8 rest with
    | some f => if 0 < f.1 then .ok (some f.1, f.2) else .error .executionToken
    | none => .error .executionToken
  | _ => .error .executionToken

/-- `Enum.find(@states, …)`. -/
def readState (v : Value) : Option JobState :=
  [.scheduled, .available, .executing, .retryable, .completed, .cancelled, .discarded].find?
    fun state ↦ v == .str (Codec.stateText state)

/-- `snapshot_job`. -/
def ofBody (h : Header) (execution : Option ℕ) (body : Value) (limits : Value.Limits) :
    Except Reason JobMap :=
  match readState (body.get "state") with
  | none => .error .snapshotState
  | some state => do
    let bytes ← (body.get "definition").encode limits Value.maxBytes
    return ⟨h.id, h.revision, h.cycle, execution, body.get "definition", bytes, state,
      body.get "attempt", body.get "next_attempt", body.get "eligible_at",
      body.get "availability_order", body.get "inserted_at", body.get "attempted_at",
      body.get "completed_at", body.get "terminal_at", body.get "diagnostic"⟩

/-- `decode_snapshot`. -/
def decode (payload : Binary) (limits : Value.Limits) : Except Reason JobMap := do
  check (payload.length ≤ Value.maxBytes) .payloadTooLarge
  match readHeader payload with
  | none => .error .invalidSnapshot
  | some h =>
    let execution ← readExecution h.present h.rest
    let body ← Value.decode execution.2 limits
    check (body.exactly? keys) .snapshotKeys
    let job ← ofBody h execution.1 body limits
    job.snapshot? limits
    return job

/-! ### Round trips -/

theorem readHeader_eq_some {payload : Binary} {h : Header} :
    readHeader payload = some h ↔ h.id.length = 16 ∧ h.revision < 256 ^ 8 ∧ h.cycle < 256 ^ 8 ∧
      h.present < 256 ∧ payload = h.id ++ (Value.bigEndian 8 h.revision ++
        (Value.bigEndian 8 h.cycle ++ (Value.bigEndian 1 h.present ++ h.rest))) := by
  constructor
  · intro heq
    obtain ⟨id, hid, heq⟩ := Option.bind_eq_some_iff.mp heq
    obtain ⟨revision, hrevision, heq⟩ := Option.bind_eq_some_iff.mp heq
    obtain ⟨cycle, hcycle, heq⟩ := Option.bind_eq_some_iff.mp heq
    obtain ⟨present, hpresent, heq⟩ := Option.bind_eq_some_iff.mp heq
    cases heq
    obtain ⟨hlength, hpayload⟩ := takeBytes_eq_some.mp hid
    obtain ⟨hr, hrrest⟩ := Value.field_eq_some.mp hrevision
    obtain ⟨hc, hcrest⟩ := Value.field_eq_some.mp hcycle
    obtain ⟨hp, hprest⟩ := Value.field_eq_some.mp hpresent
    rw [pow_one] at hp
    exact ⟨hlength, hr, hc, hp, by rw [hpayload, hrrest, hcrest, hprest]⟩
  · rintro ⟨hlength, hr, hc, hp, rfl⟩
    rw [← pow_one 256] at hp
    exact Option.bind_eq_some_iff.mpr ⟨(h.id, _), takeBytes_eq_some.mpr ⟨hlength, rfl⟩,
      Option.bind_eq_some_iff.mpr ⟨(h.revision, _), Value.field_eq_some.mpr ⟨hr, rfl⟩,
      Option.bind_eq_some_iff.mpr ⟨(h.cycle, _), Value.field_eq_some.mpr ⟨hc, rfl⟩,
      Option.bind_eq_some_iff.mpr ⟨(h.present, _), Value.field_eq_some.mpr ⟨hp, rfl⟩, rfl⟩⟩⟩⟩

/-- The token is read as it was written. -/
theorem readExecution_present {execution : Option ℕ} (body : Binary)
    (h : ∀ token, execution = some token → 0 < token ∧ token < 256 ^ 8) :
    ∃ present rest, present < 256 ∧
      JobMap.present execution ++ body = Value.bigEndian 1 present ++ rest ∧
      readExecution present rest = .ok (execution, body) := by
  cases execution with
  | none => exact ⟨0, body, by decide, rfl, rfl⟩
  | some token =>
    obtain ⟨hpos, hlt⟩ := h token rfl
    have hfield : Value.field 8 (Value.bigEndian 8 token ++ body) = some (token, body) :=
      Value.field_eq_some.mpr ⟨hlt, rfl⟩
    refine ⟨1, Value.bigEndian 8 token ++ body, by decide, rfl, ?_⟩
    simp only [readExecution, hfield, if_pos hpos]

theorem readExecution_eq_ok {present : ℕ} {rest : Binary} {f : Option ℕ × Binary}
    (h : readExecution present rest = .ok f) :
    Value.bigEndian 1 present ++ rest = JobMap.present f.1 ++ f.2 := by
  unfold readExecution at h
  split at h
  case h_1 =>
    cases h
    rfl
  case h_2 =>
    split at h
    case h_2 => cases h
    case h_1 g hg =>
      split at h
      case isFalse => cases h
      case isTrue =>
        cases h
        rw [(Value.field_eq_some.mp hg).2]
        rfl
  case h_3 => cases h

theorem readState_stateText (state : JobState) : readState (.str (Codec.stateText state)) = some state := by
  cases state <;> decide

theorem readState_eq_some {v : Value} {state : JobState} (h : readState v = some state) :
    v = .str (Codec.stateText state) := by
  have hfound := @List.find?_some _ (fun state ↦ v == .str (Codec.stateText state)) _ _ h
  exact beq_iff_eq.mp hfound

/-- A map with exactly the keys of a snapshot is the body of the job it is read to. -/
theorem ofBody_eq_ok {h : Header} {execution : Option ℕ} {v : Value} {limits : Value.Limits}
    {job : JobMap} (hexact : v.exactly? keys = true) (hjob : ofBody h execution v limits = .ok job) :
    v = job.body ∧ job.id = h.id ∧ job.revision = h.revision ∧ job.cycle = h.cycle ∧
      job.execution = execution := by
  unfold ofBody at hjob
  split at hjob
  case h_1 => cases hjob
  case h_2 state hstate =>
    obtain ⟨bytes, -, hjob⟩ := bind_eq_ok.mp hjob
    cases hjob
    refine ⟨?_, rfl, rfl, rfl, rfl⟩
    rw [body, ← readState_eq_some hstate]
    exact Value.eq_record_of_exact hexact (by decide)

/-- And the body of a job is read to that job. -/
theorem ofBody_body {job : JobMap} {limits : Value.Limits} {present : ℕ} {rest : Binary}
    (hbytes : job.definition.encode limits Value.maxBytes = .ok job.definitionBytes) :
    ofBody ⟨job.id, job.revision, job.cycle, present, rest⟩ job.execution job.body limits = .ok job := by
  have hstate : job.body.get "state" = .str (Codec.stateText job.state) := by
    simp [body, Value.get_record, List.lookup_cons]
  have hdefinition : job.body.get "definition" = job.definition := by
    simp [body, Value.get_record, List.lookup_cons]
  simp only [ofBody, hstate, readState_stateText, hdefinition, hbytes, ok_bind]
  simp [body, Value.get_record, List.lookup_cons]

theorem exact_body (job : JobMap) : job.body.exactly? keys = true := by
  simp [body, keys, Value.exact_record]

/-- What `snapshot?` says about the fixed part and the definition. -/
theorem snapshot_eq_ok {job : JobMap} {limits : Value.Limits} (h : job.snapshot? limits = .ok ()) :
    job.id.length = 16 ∧ job.revision < 256 ^ 8 ∧ job.cycle < 256 ^ 8 ∧
      (∀ token, job.execution = some token → 0 < token ∧ token < 256 ^ 8) ∧
      job.definition.encode limits Value.maxBytes = .ok job.definitionBytes := by
  obtain ⟨hid, h⟩ := check_bind_eq_ok.mp h
  obtain ⟨-, h⟩ := check_bind_eq_ok.mp h
  obtain ⟨bytes, hbytes, h⟩ := bind_eq_ok.mp h
  obtain ⟨hsame, h⟩ := check_bind_eq_ok.mp h
  obtain ⟨hrevision, h⟩ := check_bind_eq_ok.mp h
  obtain ⟨-, h⟩ := check_bind_eq_ok.mp h
  obtain ⟨-, h⟩ := check_bind_eq_ok.mp h
  obtain ⟨-, h⟩ := check_bind_eq_ok.mp h
  obtain ⟨-, h⟩ := check_bind_eq_ok.mp h
  obtain ⟨htoken, -⟩ := check_bind_eq_ok.mp h
  simp only [id?, string?, Bool.and_eq_true, beq_iff_eq] at hid
  have huint {n : ℕ} (hn : Codec.uint? n = true) : 0 < n ∧ n < 256 ^ 8 := by
    simp only [Codec.uint?, Bool.and_eq_true, decide_eq_true_eq] at hn
    have hupper : n ≤ 18446744073709551615 := hn.2
    rw [Value.pow_eight]
    exact ⟨hn.1, by omega⟩
  rw [Bool.and_eq_true, Bool.and_eq_true] at hrevision
  refine ⟨hid.1, (huint hrevision.1.1).2, (huint hrevision.1.2).2, fun token htok ↦ ?_, ?_⟩
  · rw [htok, Option.all_some, Bool.and_eq_true] at htoken
    exact huint htoken.1
  · rw [beq_iff_eq.mp hsame]
    exact hbytes

/-- What `encode_snapshot` writes. -/
theorem encode_eq_ok {job : JobMap} {limits : Value.Limits} {payload : Binary} :
    job.encode limits = .ok payload ↔ job.snapshot? limits = .ok () ∧
      ∃ body, job.body.encode limits Value.maxBytes = .ok body ∧ payload = job.header ++ body ∧
        payload.length ≤ Value.maxBytes := by
  constructor
  · intro h
    obtain ⟨_, hvalid, h⟩ := bind_eq_ok.mp h
    obtain ⟨body, hbody, h⟩ := bind_eq_ok.mp h
    obtain ⟨hsize, h⟩ := check_bind_eq_ok.mp h
    cases h
    exact ⟨hvalid, body, hbody, rfl, of_decide_eq_true hsize⟩
  · rintro ⟨hvalid, body, hbody, rfl, hsize⟩
    exact bind_eq_ok.mpr ⟨_, hvalid, bind_eq_ok.mpr ⟨body, hbody,
      check_bind_eq_ok.mpr ⟨decide_eq_true hsize, rfl⟩⟩⟩

/-- What `decode_snapshot` accepts is what is written. -/
theorem decode_eq_ok {payload : Binary} {job : JobMap} {limits : Value.Limits} :
    decode payload limits = .ok job ↔ job.body.ordered = true ∧ job.encode limits = .ok payload := by
  rw [encode_eq_ok]
  constructor
  · intro h
    obtain ⟨hsize, h⟩ := check_bind_eq_ok.mp h
    split at h
    case h_1 => cases h
    case h_2 hd hheader =>
      obtain ⟨execution, hexecution, h⟩ := bind_eq_ok.mp h
      obtain ⟨body, hbody, h⟩ := bind_eq_ok.mp h
      obtain ⟨hexact, h⟩ := check_bind_eq_ok.mp h
      obtain ⟨job', hjob, h⟩ := bind_eq_ok.mp h
      obtain ⟨_, hvalid, h⟩ := bind_eq_ok.mp h
      cases h
      obtain ⟨-, -, -, -, hpayload⟩ := readHeader_eq_some.mp hheader
      obtain ⟨hordered, hencoded⟩ := Value.decode_eq_ok.mp hbody
      obtain ⟨rfl, hid, hrevision, hcycle, htoken⟩ := ofBody_eq_ok hexact hjob
      refine ⟨hordered, hvalid, execution.2, hencoded, ?_, of_decide_eq_true hsize⟩
      rw [hpayload, header, hid, hrevision, hcycle, htoken, readExecution_eq_ok hexecution]
      simp only [List.append_assoc]
  · rintro ⟨hordered, hvalid, body, hbody, hpayload, hsize⟩
    obtain ⟨hlength, hrevision, hcycle, htoken, hbytes⟩ := snapshot_eq_ok hvalid
    obtain ⟨present, rest, hlt, hwritten, hread⟩ := readExecution_present body htoken
    have hheader : readHeader payload = some ⟨job.id, job.revision, job.cycle, present, rest⟩ := by
      refine readHeader_eq_some.mpr ⟨hlength, hrevision, hcycle, hlt, ?_⟩
      rw [hpayload, header, List.append_assoc, List.append_assoc, List.append_assoc, hwritten]
    refine check_bind_eq_ok.mpr ⟨decide_eq_true hsize, ?_⟩
    simp only [hheader]
    exact bind_eq_ok.mpr ⟨_, hread, bind_eq_ok.mpr ⟨job.body, Value.decode_encode hordered hbody,
      check_bind_eq_ok.mpr ⟨exact_body job, bind_eq_ok.mpr ⟨job, ofBody_body hbytes,
        bind_eq_ok.mpr ⟨_, hvalid, rfl⟩⟩⟩⟩⟩

end JobMap

/-! ## The structures that pass -/

/-- A job as the program holds it. -/
def Job.toMap (job : Job) : JobMap where
  id := Value.bigEndian 16 job.id
  revision := job.revision
  cycle := job.cycle
  execution := job.execution
  definition := job.definition.toValue
  definitionBytes := job.definitionBytes
  state := job.state
  attempt := .nat job.attempt
  nextAttempt := .opt .nat job.nextAttempt
  eligibleAt := .opt .nat job.eligibleAt
  availabilityOrder := .opt .nat job.availabilityOrder
  insertedAt := .nat job.insertedAt
  attemptedAt := .opt .nat job.attemptedAt
  completedAt := .opt .nat job.completedAt
  terminalAt := .opt .nat job.terminalAt
  diagnostic := .opt V2.Diagnostic.toValue job.diagnostic

theorem Job.body_toMap (job : Job) : job.toMap.body = Codec.snapshotBody job := rfl

theorem maxAttempts_toValue (d : V2.Definition) : JobMap.maxAttempts d.toValue = d.maxAttempts := by
  have hget : d.toValue.get "max_attempts" = .nat d.maxAttempts := by
    simp [V2.Definition.toValue, Value.get_record, List.lookup_cons]
  rw [JobMap.maxAttempts, hget]
  rfl

theorem optional_natural (test : ℕ → Bool) (o : Option ℕ) :
    Event.optional? (Event.natural? test) (.opt .nat o) = o.all test :=
  Event.optional_opt (Event.natural? test) .nat o fun _ h ↦ by cases h

theorem validDiagnostic_toValue (d : Option V2.Diagnostic) :
    JobMap.validDiagnostic? (.opt V2.Diagnostic.toValue d) = Codec.validDiagnostic? d := by
  cases d with
  | none => rfl
  | some d =>
    have hnull : (d.toValue == .null) = false := rfl
    have hexact : d.toValue.exactly? ["code", "version"] = true := by
      simp [V2.Diagnostic.toValue, Value.exact_record]
    have hversion : d.toValue.get "version" = .nat d.version := by
      simp [V2.Diagnostic.toValue, Value.get_record, List.lookup_cons]
    have hcode : d.toValue.get "code" = .nat d.code := by
      simp [V2.Diagnostic.toValue, Value.get_record, List.lookup_cons]
    simp only [JobMap.validDiagnostic?, Codec.validDiagnostic?, Value.opt, hnull, hexact, hversion,
      hcode, Event.nat_beq_nat, Event.natural_nat, Bool.false_or, Bool.true_and, Bool.and_assoc]

section Fields

variable (a b : Option ℕ) (n : ℕ)

theorem opt_beq_opt : (Value.opt .nat a == Value.opt .nat b) = (a == b) := by
  cases a <;> cases b <;> first | rfl | exact Event.nat_beq_nat _ _

theorem opt_beq_nat : (Value.opt .nat a == .nat n) = (a == some n) := by
  cases a <;> first | rfl | exact Event.nat_beq_nat _ _

theorem opt_bne_null : (Value.opt .nat a != .null) = a.isSome := by
  cases a <;> rfl

theorem diagnostic_beq_null (d : Option V2.Diagnostic) :
    (Value.opt V2.Diagnostic.toValue d == .null) = d.isNone := by
  cases d <;> rfl

theorem diagnostic_bne_null (d : Option V2.Diagnostic) :
    (Value.opt V2.Diagnostic.toValue d != .null) = d.isSome := by
  cases d <;> rfl

end Fields

theorem terminalFields_toMap (job : Job) : job.toMap.terminalFields? = Codec.terminalFields? job := by
  simp only [JobMap.terminalFields?, Codec.terminalFields?, Job.toMap, Event.time_opt, opt_beq_opt,
    Event.opt_beq_null] <;>
  cases job.state <;> rfl

theorem stateFields_toMap (job : Job) : job.toMap.stateFields? = Codec.stateFields? job := by
  simp only [JobMap.stateFields?, Codec.stateFields?, Job.toMap, Event.opt_beq_null, opt_bne_null] <;>
  cases job.state <;> rfl

theorem credibleState_toMap (job : Job) : job.toMap.credibleState? = Codec.credibleState? job := by
  simp only [JobMap.credibleState?, Codec.credibleState?, Job.toMap, JobMap.tried?, Event.natural_nat,
    Event.opt_beq_null, opt_bne_null, opt_beq_nat, Event.nat_beq_nat, diagnostic_beq_null,
    diagnostic_bne_null] <;>
  cases job.state <;> rfl

/-- Both validations agree. -/
theorem snapshot_toMap (job : Job) (h : job.id < 2 ^ 128) (limits : Value.Limits) :
    job.toMap.snapshot? limits = Codec.snapshot? job limits := by
  have hid : Event.id? (.str job.toMap.id) = V2.id? job.id := V2.id_bigEndian h
  have hdefinition : Event.definition? job.toMap.definition = V2.definition? job.definition :=
    Event.definition_toValue job.definition
  have hmax : JobMap.maxAttempts job.toMap.definition = job.definition.maxAttempts :=
    maxAttempts_toValue job.definition
  simp only [JobMap.snapshot?, hid, hdefinition, hmax, terminalFields_toMap, stateFields_toMap,
    credibleState_toMap]
  simp only [Codec.snapshot?, Job.toMap, JobMap.maybeTime?, Event.natural_nat, Event.time_nat,
    Event.optional_time, optional_natural, JobMap.uint?, validDiagnostic_toValue]
  rfl

/-- And both write the same bytes. -/
theorem encode_toMap (job : Job) (h : job.id < 2 ^ 128) (limits : Value.Limits) :
    job.toMap.encode limits = Codec.encodeSnapshot job limits := by
  have hheader : job.toMap.header ++ (Codec.snapshotBody job).wire = Codec.snapshotPayload job := by
    simp only [JobMap.header, Job.toMap, Codec.snapshotPayload, List.append_assoc]
    cases job.execution <;> rfl
  rw [JobMap.encode, Codec.encodeSnapshot, snapshot_toMap job h, Job.body_toMap]
  cases Codec.snapshot? job limits with
  | error reason => rw [error_bind, error_bind]
  | ok u =>
    rw [ok_bind, ok_bind, Value.encode]
    cases (Codec.snapshotBody job).measure limits Value.maxBytes with
    | error reason => rw [error_bind, error_bind, error_bind]
    | ok m => simp only [ok_bind, pure_eq_ok, hheader]


/-- Remove a field. -/
def Value.deleteFields (key : String) : List (String × Value) → List (String × Value)
  | [] => []
  | f :: rest => if f.1 = key then rest else f :: deleteFields key rest

/-- Put a field in its place. -/
def Value.insertFields (key : String) (value : Value) : List (String × Value) → List (String × Value)
  | [] => [(key, value)]
  | f :: rest =>
    if f.1 = key then (key, value) :: rest
    else if text f.1 < text key then f :: insertFields key value rest
    else (key, value) :: f :: rest

theorem Value.delete_record (key : String) (fields : List (String × Value)) :
    (Value.record fields).delete key = .record (deleteFields key fields) := by
  refine congrArg Value.map ?_
  induction fields with
  | nil => rfl
  | cons f rest ih =>
    by_cases hk : f.1 = key
    · simp [deleteEntries, deleteFields, hk]
    · have hne : text f.1 ≠ text key := fun h ↦ hk (text_injective h)
      simp [deleteEntries, deleteFields, hk, hne, ih]

theorem Value.insert_record (key : String) (value : Value) (fields : List (String × Value)) :
    (Value.record fields).insert key value = .record (insertFields key value fields) := by
  refine congrArg Value.map ?_
  induction fields with
  | nil => rfl
  | cons f rest ih =>
    by_cases hk : f.1 = key
    · simp [insertEntries, insertFields, hk]
    · have hne : text f.1 ≠ text key := fun h ↦ hk (text_injective h)
      by_cases hlt : text f.1 < text key
      · simp [insertEntries, insertFields, ascends, hk, hne, hlt, ih]
      · simp [insertEntries, insertFields, ascends, hk, hne, hlt]

/-- The kind of a body. -/
def MutationBody.kindOf : MutationBody → MutationKind
  | .inserted .. => .inserted
  | .available .. => .available
  | .started .. => .started
  | .finished .. => .finished
  | .cancelled .. => .cancelled
  | .retried .. => .retried

/-- A mutation as the program holds it. -/
def Mutation.toMap (m : Mutation) : MutationMap :=
  ⟨Value.bigEndian 16 m.jobId, m.body.kindOf, m.expectedRevision, m.newRevision, m.timestamp,
    m.body.toValue⟩

theorem event_toMap (m : Mutation) : m.toMap.event = (Codec.event m).event := by
  obtain ⟨id, expected, revision, timestamp, body⟩ := m
  cases body
  all_goals
    simp +decide only [Mutation.toMap, MutationMap.event, MutationBody.kindOf, MutationKind.code,
      MutationBody.toValue, Value.delete_record, Value.insert_record, Value.deleteFields,
      Value.insertFields, Codec.event, V2.JobEvent.event, V2.JobBody.code, V2.JobEvent.toValue,
      Value.put_record, Value.putFields, if_true, if_false]

theorem exact_toValue (body : MutationBody) : body.toValue.exactly? body.kindOf.keys = true := by
  cases body <;> simp [MutationBody.toValue, MutationBody.kindOf, MutationKind.keys, Value.exact_record]

theorem order_toMap (m : Mutation) :
    MutationMap.order? m.toMap.kind m.toMap.timestamp m.toMap.body = Codec.mutationOrder? m := by
  obtain ⟨id, expected, revision, timestamp, body⟩ := m
  cases body <;>
    simp [MutationMap.order?, Codec.mutationOrder?, Mutation.toMap, MutationBody.kindOf,
      MutationBody.toValue, Value.get_record, List.lookup_cons, MutationMap.uint?, -beq_iff_eq]

/-- Both validations agree. -/
theorem mutation_toMap (m : Mutation) (h : m.jobId < 2 ^ 128) (limits : Value.Limits) :
    m.toMap.mutation? limits = Codec.mutation? m limits := by
  have hid : Event.id? (.str m.toMap.jobId) = V2.id? m.jobId := V2.id_bigEndian h
  have hkind : (m.toMap.kind == .inserted) = m.body.isInserted := by
    rw [Mutation.toMap]
    cases m.body <;> rfl
  have hexact : m.toMap.body.exactly? m.toMap.kind.keys = true := exact_toValue m.body
  have hencode := V2.encode_jobEvent (Codec.event m) h limits Value.maxBytes
  simp only [MutationMap.mutation?, hid, hkind, hexact, order_toMap, event_toMap, hencode, check_true,
    ok_bind, Codec.mutation?]
  cases (Codec.event m).encode limits Value.maxBytes <;> rfl

/-- And both write the same bytes. -/
theorem encodeMutation_toMap (m : Mutation) (h : m.jobId < 2 ^ 128) (limits : Value.Limits) :
    m.toMap.encode limits = Codec.encodeMutation m limits := by
  have hheader : m.toMap.header ++ m.body.toValue.wire = Codec.mutationPayload m := by
    have hkind : m.toMap.kind.code = m.body.kind := by
      rw [Mutation.toMap]
      cases m.body <;> rfl
    have hone : Value.bigEndian 1 m.body.kind = [UInt8.ofNat m.body.kind] := by
      rw [Value.bigEndian, pow_zero, Nat.div_one, Value.bigEndian]
    rw [MutationMap.header, hkind, hone, Codec.mutationPayload]
    simp only [Mutation.toMap, List.append_assoc]
  have hbody : m.toMap.body = m.body.toValue := rfl
  rw [MutationMap.encode, Codec.encodeMutation, mutation_toMap m h, hbody]
  cases Codec.mutation? m limits with
  | error reason => rw [error_bind, error_bind]
  | ok u =>
    rw [ok_bind, ok_bind, Value.encode]
    cases m.body.toValue.measure limits Value.maxBytes with
    | error reason => rw [error_bind, error_bind, error_bind]
    | ok n => simp only [ok_bind, pure_eq_ok, hheader]

/-! ## The codec -/

/-- A job whose terms are listed in order. -/
structure JobTerm where
  job : JobMap
  ordered : job.body.ordered = true

/-- A mutation whose terms are listed in order. -/
structure MutationTerm where
  mutation : MutationMap
  ordered : mutation.body.ordered = true

/-- **Snapshots and mutations round-trip**, and nothing but what is written is read. -/
theorem store_codec (limits : Value.Limits) :
    (∀ (term : JobTerm) (payload : Binary), term.job.encode limits = .ok payload →
      JobMap.decode payload limits = .ok term.job) ∧
    (∀ (term : MutationTerm) (payload : Binary), term.mutation.encode limits = .ok payload →
      MutationMap.decode payload limits = .ok term.mutation) ∧
    (∀ (payload : Binary) (job : JobMap), JobMap.decode payload limits = .ok job →
      job.snapshot? limits = .ok () ∧ job.encode limits = .ok payload) ∧
    ∀ (payload : Binary) (mutation : MutationMap), MutationMap.decode payload limits = .ok mutation →
      mutation.mutation? limits = .ok () ∧ mutation.encode limits = .ok payload := by
  refine ⟨fun term payload h ↦ JobMap.decode_eq_ok.mpr ⟨term.ordered, h⟩,
    fun term payload h ↦ MutationMap.decode_eq_ok.mpr ⟨term.ordered, h⟩, fun payload job h ↦ ?_,
    fun payload mutation h ↦ ?_⟩
  · have hencoded := (JobMap.decode_eq_ok.mp h).2
    exact ⟨(JobMap.encode_eq_ok.mp hencoded).1, hencoded⟩
  · have hencoded := (MutationMap.decode_eq_ok.mp h).2
    exact ⟨(MutationMap.encode_eq_ok.mp hencoded).1, hencoded⟩

/-- A job that waits to be run, and its cancellation. -/
def sampleDefinition : V2.Definition := ⟨.map [], 1, 3, text "q", V2.policy, none, 1000, text "w"⟩

def sampleJob : JobMap where
  id := List.replicate 16 1
  revision := 1
  cycle := 1
  execution := none
  definition := sampleDefinition.toValue
  definitionBytes := sampleDefinition.toValue.wire
  state := .available
  attempt := .nat 0
  nextAttempt := .nat 1
  eligibleAt := .nat 5
  availabilityOrder := .nat 1
  insertedAt := .nat 5
  attemptedAt := .null
  completedAt := .null
  terminalAt := .null
  diagnostic := .null

def sampleMutation : MutationMap :=
  ⟨List.replicate 16 1, .cancelled, 1, 2, 6, .record [("execution_token", .null)]⟩

theorem sampleJob_ordered : sampleJob.body.ordered = true := by decide +kernel

theorem sampleMutation_ordered : sampleMutation.body.ordered = true := by decide +kernel

theorem store_codec_sample :
    (∃ payload, JobMap.decode payload Value.defaults = .ok sampleJob ∧
      sampleJob.encode Value.defaults = .ok payload) ∧
    ∃ payload, MutationMap.decode payload Value.defaults = .ok sampleMutation ∧
      sampleMutation.encode Value.defaults = .ok payload := by
  have hjob : sampleJob.encode Value.defaults =
      .ok (sampleJob.header ++ sampleJob.body.wire) := by decide +kernel
  have hmutation : sampleMutation.encode Value.defaults =
      .ok (sampleMutation.header ++ sampleMutation.body.wire) := by decide +kernel
  have hjobBack := (store_codec Value.defaults).1 ⟨sampleJob, sampleJob_ordered⟩ _ hjob
  have hmutationBack :=
    (store_codec Value.defaults).2.1 ⟨sampleMutation, sampleMutation_ordered⟩ _ hmutation
  exact ⟨⟨_, hjobBack, ((store_codec Value.defaults).2.2.1 _ _ hjobBack).2⟩,
    ⟨_, hmutationBack, ((store_codec Value.defaults).2.2.2 _ _ hmutationBack).2⟩⟩

end Tay
