import Tay.Storage.CRC32C
import Tay.Storage.Payload
import Tay.Storage.Snapshot

/-!
# Authority files

`Tay.Storage.V2.Authority`: the three files that say which epoch is live. The marker names the store,
CURRENT the epoch and the digest of its manifest, and the manifest the segments of the epoch. Each ends
in a checksum over everything before it. The marker and CURRENT have a fixed layout; the manifest holds
one value of the event codec, so that its fields are terms until `manifest?` has seen them.

Reading is strict but for one field. `unbytes` turns whatever is not a byte carrier into `nil`, and the
check of a field that must be there then refuses it; `source_epoch_id` may be `nil`, so that any term
under this key is read as no source at all. Such a file is accepted and is not what its manifest is
written as.
-/

open Foundation

namespace Tay

namespace Value

/-- `==` of a term and a whole number: a float is compared by what it is worth. -/
def equals (n : ℕ) : Value → Bool
  | .int m => m == n
  | .float bits =>
    if bits.toNat / 2 ^ 52 % 2048 == 0 then bits.toNat % 2 ^ 52 == 0 && n == 0
    else bits.toNat < 2 ^ 63 &&
      (2 ^ 52 + bits.toNat % 2 ^ 52) * 2 ^ (bits.toNat / 2 ^ 52 % 2048) == n * 2 ^ 1075
  | _ => false

/-- `unbytes`. -/
def unbytes : Value → Option Binary
  | .bytes s => some s
  | _ => none

/-- `{:bytes, binary}`; of `nil` it is no value of the codec. -/
def ofBytes : Option Binary → Value
  | some s => .bytes s
  | none => .other

end Value

namespace Authority

open CRC32C (checked length_checked ofBigEndian_checksum)

/-- Why a file is refused. -/
inductive Reason
  | storeId
  | markerFormat
  | currentFields
  | currentFormat
  | metadataLength
  | metadataChecksum
  | manifestFormat
  | manifestLength
  | manifestKeys
  | manifestEntries
  | manifestTooLarge
  | manifestId
  | sourceEpoch
  | sourceFrontier
  | availabilityFrontier
  | capturedAt
  | terminalRetention
  | sourceSegments
  | baseSegments
  /-- The codec of values refuses the body. -/
  | value (reason : Tay.Reason)
  deriving DecidableEq

/-- An error of the codec of values, as it is passed on. -/
def lift {α : Type} : Except Tay.Reason α → Except Reason α
  | .ok a => .ok a
  | .error e => .error (.value e)

theorem lift_eq_ok {α : Type} {x : Except Tay.Reason α} {a : α} : lift x = .ok a ↔ x = .ok a := by
  cases x <;> simp [lift]

def id? (s : Binary) : Bool := s.length == 16 && s != List.replicate 16 0

/-! ## Checksums -/

/-- `checked_body`. -/
def checkedBody (bytes : Binary) (size : Option ℕ) : Except Reason Binary := do
  check (4 ≤ bytes.length && size.all (· == bytes.length - 4)) .metadataLength
  check (CRC32C.checksum (bytes.take (bytes.length - 4)) ==
    some (Value.ofBigEndian (bytes.drop (bytes.length - 4)))) .metadataChecksum
  return bytes.take (bytes.length - 4)

/-- What a file of this kind begins with. -/
def magic (tag : String) : Binary := text tag ++ [1, 0, 0, 0]

/-- The pattern `<<tag, 1, 0::24, rest::binary>>`. -/
def afterMagic (tag : String) (body : Binary) : Option Binary := do
  let f ← takeBytes 8 body
  if f.1 = magic tag then some f.2 else none

/-! ## The marker -/

def encodeMarker (storeId : Binary) : Except Reason Binary :=
  if id? storeId then .ok (checked (magic "TAY2" ++ storeId)) else .error .storeId

def decodeMarker (bytes : Binary) : Except Reason Binary := do
  let body ← checkedBody bytes (some 24)
  match afterMagic "TAY2" body with
  | some storeId =>
    check (id? storeId) .storeId
    return storeId
  | none => .error .markerFormat

/-! ## CURRENT -/

structure Current where
  storeId : Binary
  epochId : Binary
  manifestDigest : Binary
  deriving DecidableEq

def digest? (s : Binary) : Bool := s.length == 32

def Current.wire (c : Current) : Binary :=
  magic "TAYC" ++ (c.storeId ++ (c.epochId ++ c.manifestDigest))

def encodeCurrent (c : Current) : Except Reason Binary :=
  if id? c.storeId && id? c.epochId && digest? c.manifestDigest then .ok (checked c.wire)
  else .error .currentFields

/-- The pattern of `decode_current`. -/
def readCurrent (body : Binary) : Option Current := do
  let rest ← afterMagic "TAYC" body
  let store ← takeBytes 16 rest
  let epoch ← takeBytes 16 store.2
  if epoch.2.length = 32 then some ⟨store.1, epoch.1, epoch.2⟩ else none

def decodeCurrent (bytes : Binary) : Except Reason Current := do
  let body ← checkedBody bytes (some 72)
  match readCurrent body with
  | some c =>
    check (id? c.storeId && id? c.epochId) .currentFields
    return c
  | none => .error .currentFormat

end Authority

/-! ## Retention -/

namespace Retention

def toValue : Retention → Value
  | .infinity => .str (text "infinity")
  | .minutes n => .record [("minutes", .nat n)]
  | .hours n => .record [("hours", .nat n)]

/-- A whole number of units that `validate` accepts. -/
def span (unit : ℕ → Retention) : Value → Except Authority.Reason Retention
  | .int (.ofNat n) => if (unit n).validate then .ok (unit n) else .error .terminalRetention
  | _ => .error .terminalRetention

def fromValue (v : Value) : Except Authority.Reason Retention :=
  if v == .str (text "infinity") then .ok .infinity
  else if v.exactly? ["minutes"] then span .minutes (v.get "minutes")
  else if v.exactly? ["hours"] then span .hours (v.get "hours")
  else .error .terminalRetention

end Retention

namespace Authority

open CRC32C (checked length_checked ofBigEndian_checksum)

/-! ## The manifest -/

/-- `@max`. -/
def max : ℕ := 18446744073709551615

/-- An entry of `source_segments`. -/
structure SourceMap where
  id : Value
  digest : Option Binary
  deriving DecidableEq

/-- An entry of `base_segments`. -/
structure BaseMap where
  id : Value
  firstSequence : Value
  lastSequence : Value
  bytes : Value
  digest : Option Binary
  deriving DecidableEq

/-- A manifest as the program holds it. A manifest without the key `availability_frontier` is one of the
older kind. -/
structure ManifestMap where
  storeId : Option Binary
  epochId : Option Binary
  sourceEpochId : Option Binary
  sourceFrontier : Value
  capturedAt : Value
  terminalRetention : Retention
  sourceSegments : List SourceMap
  baseSegments : List BaseMap
  tailSegmentId : Value
  tailFirstSequence : Value
  availabilityFrontier : Option Value
  deriving DecidableEq

/-- `@source_keys`, in order. -/
def SourceMap.keys : List String := ["digest", "id"]

def SourceMap.toValue (e : SourceMap) : Value :=
  .record [("digest", .ofBytes e.digest), ("id", e.id)]

def SourceMap.ofValue (v : Value) : SourceMap := ⟨v.get "id", (v.get "digest").unbytes⟩

/-- `@base_keys`, in order. -/
def BaseMap.keys : List String := ["bytes", "digest", "first_sequence", "id", "last_sequence"]

def BaseMap.toValue (e : BaseMap) : Value :=
  .record [("bytes", e.bytes), ("digest", .ofBytes e.digest), ("first_sequence", e.firstSequence),
    ("id", e.id), ("last_sequence", e.lastSequence)]

def BaseMap.ofValue (v : Value) : BaseMap :=
  ⟨v.get "id", v.get "first_sequence", v.get "last_sequence", v.get "bytes",
    (v.get "digest").unbytes⟩

/-- `valid_source?`, from an index on. -/
def validSource? : ℕ → List SourceMap → Bool
  | _, [] => true
  | id, entry :: rest =>
    entry.id.equals id && entry.digest.any digest? && validSource? (id + 1) rest

/-- A term that is a whole number is this number, and any other is nothing. -/
def natOf : Value → ℕ
  | .int (.ofNat n) => n
  | _ => 0

def BaseMap.valid? (entry : BaseMap) (id next : ℕ) : Bool :=
  entry.id.equals id && entry.firstSequence.equals next &&
    Event.natural? (fun last ↦ 1 ≤ last && last ≤ max && next ≤ last) entry.lastSequence &&
    Event.natural? (fun bytes ↦ 64 ≤ bytes && bytes ≤ 1073741824) entry.bytes &&
    entry.digest.any digest?

/-- The step of `valid_base?`. -/
def baseStep (acc : Bool × ℕ) (entry : BaseMap × ℕ) : Bool × ℕ :=
  (acc.1 && entry.1.valid? entry.2 acc.2,
    if entry.1.valid? entry.2 acc.2 then natOf entry.1.lastSequence + 1 else acc.2)

/-- `valid_base?`. -/
def validBase? (base : List BaseMap) (tailId tailFirst : Value) : Bool :=
  let walked := (base.zipIdx 1).foldl baseStep (true, 1)
  walked.1 && Event.natural? (· == base.length + 1) tailId &&
    Event.natural? (fun first ↦ first == walked.2 && 1 ≤ first && first ≤ max) tailFirst

/-- `manifest?`. -/
def ManifestMap.manifest? (m : ManifestMap) : Except Reason Unit := do
  check (m.storeId.any id? && m.epochId.any id?) .manifestId
  check (m.sourceEpochId.all id?) .sourceEpoch
  check (Event.natural? (· ≤ max) m.sourceFrontier) .sourceFrontier
  check (Event.optional? (Event.natural? (· ≤ max)) (m.availabilityFrontier.getD .null))
    .availabilityFrontier
  check (Event.time? m.capturedAt) .capturedAt
  check m.terminalRetention.validate .terminalRetention
  check (validSource? 1 m.sourceSegments) .sourceSegments
  check (validBase? m.baseSegments m.tailSegmentId m.tailFirstSequence) .baseSegments

/-- `@legacy_manifest_keys`, in order. -/
def legacyManifestKeys : List String :=
  ["base_segments", "captured_at", "epoch_id", "source_epoch_id", "source_frontier", "source_segments",
    "store_id", "tail_first_sequence", "tail_segment_id", "terminal_retention"]

/-- `@manifest_keys`, in order. -/
def manifestKeys : List String := "availability_frontier" :: legacyManifestKeys

/-- The fields that every manifest has. -/
def ManifestMap.fields (m : ManifestMap) : List (String × Value) :=
  [("base_segments", .list (m.baseSegments.map BaseMap.toValue)),
    ("captured_at", m.capturedAt),
    ("epoch_id", .ofBytes m.epochId),
    ("source_epoch_id", .opt .bytes m.sourceEpochId),
    ("source_frontier", m.sourceFrontier),
    ("source_segments", .list (m.sourceSegments.map SourceMap.toValue)),
    ("store_id", .ofBytes m.storeId),
    ("tail_first_sequence", m.tailFirstSequence),
    ("tail_segment_id", m.tailSegmentId),
    ("terminal_retention", m.terminalRetention.toValue)]

/-- `manifest_body`. -/
def ManifestMap.body (m : ManifestMap) : Value :=
  .record ((m.availabilityFrontier.toList.map fun frontier ↦ ("availability_frontier", frontier)) ++
    m.fields)

/-- `entries`: the first entry with other keys stops it. -/
def entries {α : Type} (v : Value) (keys : List String) (read : Value → α) :
    Except Reason (List α) :=
  match v with
  | .list items =>
    if items.all (·.exactly? keys) then .ok (items.map read) else .error .manifestEntries
  | _ => .error .manifestEntries

/-- `manifest_from_body`. -/
def manifestFromBody (body : Value) : Except Reason ManifestMap := do
  let retention ← Retention.fromValue (body.get "terminal_retention")
  let source ← entries (body.get "source_segments") SourceMap.keys SourceMap.ofValue
  let base ← entries (body.get "base_segments") BaseMap.keys BaseMap.ofValue
  return {
    storeId := (body.get "store_id").unbytes
    epochId := (body.get "epoch_id").unbytes
    sourceEpochId := (body.get "source_epoch_id").unbytes
    sourceFrontier := body.get "source_frontier"
    capturedAt := body.get "captured_at"
    terminalRetention := retention
    sourceSegments := source
    baseSegments := base
    tailSegmentId := body.get "tail_segment_id"
    tailFirstSequence := body.get "tail_first_sequence"
    availabilityFrontier := body.fetch "availability_frontier" }

/-- What stands before the checksum of a manifest file. -/
def framed (body : Binary) : Binary := magic "TAYM" ++ (Value.bigEndian 4 body.length ++ body)

def encodeManifest (m : ManifestMap) : Except Reason Binary := do
  m.manifest?
  let body ← lift (m.body.encode Value.defaults Value.maxBytes)
  check (body.length ≤ 16777216 - 16) .manifestTooLarge
  return checked (framed body)

/-- The pattern of `decode_manifest`: the length and what follows it. -/
def readFrame (file : Binary) : Option (ℕ × Binary) := do
  let rest ← afterMagic "TAYM" file
  Value.field 4 rest

def decodeManifest (bytes : Binary) : Except Reason ManifestMap := do
  check (bytes.length ≤ 16777216) .manifestFormat
  let file ← checkedBody bytes none
  match readFrame file with
  | none => .error .manifestFormat
  | some frame =>
    check (frame.1 == frame.2.length) .manifestLength
    let value ← lift (Value.decode frame.2 Value.defaults)
    check (value.exactly? manifestKeys || value.exactly? legacyManifestKeys) .manifestKeys
    let m ← manifestFromBody value
    m.manifest?
    return m

/-! ## Checksums and fixed layouts -/

/-- What `checked_body` accepts is what `checked` writes. -/
theorem checkedBody_eq_ok {bytes body : Binary} {size : Option ℕ} :
    checkedBody bytes size = .ok body ↔ bytes = checked body ∧ size.all (· == body.length) = true := by
  constructor
  · intro h
    obtain ⟨hlength, h⟩ := check_bind_eq_ok.mp h
    obtain ⟨hsum, h⟩ := check_bind_eq_ok.mp h
    cases h
    rw [Bool.and_eq_true, decide_eq_true_eq] at hlength
    rw [beq_iff_eq] at hsum
    have htake : (bytes.take (bytes.length - 4)).length = bytes.length - 4 := by
      rw [List.length_take]
      omega
    have hdrop : (bytes.drop (bytes.length - 4)).length = 4 := by
      rw [List.length_drop]
      omega
    refine ⟨?_, by rw [htake]; exact hlength.2⟩
    conv_lhs => rw [← List.take_append_drop (bytes.length - 4) bytes]
    have hword := Value.bigEndian_ofBigEndian (bytes.drop (bytes.length - 4))
    rw [hdrop] at hword
    rw [checked, hsum, Option.getD_some, hword]
  · rintro ⟨rfl, hsize⟩
    have hbody : (checked body).length - 4 = body.length := by
      rw [length_checked, Nat.add_sub_cancel]
    have htake : (checked body).take ((checked body).length - 4) = body := by
      rw [hbody, checked, List.take_left]
    have hdrop : (checked body).drop ((checked body).length - 4) =
        Value.bigEndian 4 ((CRC32C.checksum body).getD 0) := by
      rw [hbody, checked, List.drop_left]
    refine check_bind_eq_ok.mpr ⟨?_, check_bind_eq_ok.mpr ⟨?_, congrArg Except.ok htake⟩⟩
    · rw [hbody, hsize, length_checked, Bool.and_true, decide_eq_true_eq]
      exact Nat.le_add_left 4 body.length
    · rw [htake, hdrop, ← ofBigEndian_checksum, beq_self_eq_true]

theorem afterMagic_eq_some (tag : String) {body rest : Binary} (htag : (magic tag).length = 8) :
    afterMagic tag body = some rest ↔ body = magic tag ++ rest := by
  constructor
  · intro h
    obtain ⟨f, hf, h⟩ := Option.bind_eq_some_iff.mp h
    split at h
    case isFalse => cases h
    case isTrue hmagic =>
      cases h
      rw [← hmagic]
      exact (takeBytes_eq_some.mp hf).2
  · rintro rfl
    refine Option.bind_eq_some_iff.mpr ⟨(magic tag, rest), takeBytes_eq_some.mpr ⟨htag, rfl⟩, ?_⟩
    exact if_pos rfl

theorem length_of_id {s : Binary} (h : id? s = true) : s.length = 16 := by
  rw [id?, Bool.and_eq_true, beq_iff_eq] at h
  exact h.1

/-- The marker: what is accepted is what is written. -/
theorem decodeMarker_eq_ok {bytes storeId : Binary} :
    decodeMarker bytes = .ok storeId ↔ encodeMarker storeId = .ok bytes := by
  constructor
  · intro h
    obtain ⟨body, hbody, h⟩ := bind_eq_ok.mp h
    split at h
    case h_2 => cases h
    case h_1 rest hrest =>
      obtain ⟨hid, h⟩ := check_bind_eq_ok.mp h
      cases h
      rw [encodeMarker, if_pos hid, (checkedBody_eq_ok.mp hbody).1,
        (afterMagic_eq_some _ rfl).mp hrest]
  · intro h
    unfold encodeMarker at h
    split at h
    case isFalse => cases h
    case isTrue hid =>
      cases h
      have hsize : (some 24 : Option ℕ).all (· == (magic "TAY2" ++ storeId).length) = true := by
        rw [List.length_append, length_of_id hid]
        rfl
      refine bind_eq_ok.mpr ⟨magic "TAY2" ++ storeId, checkedBody_eq_ok.mpr ⟨rfl, hsize⟩, ?_⟩
      simp only [(afterMagic_eq_some "TAY2" rfl).mpr rfl]
      exact check_bind_eq_ok.mpr ⟨hid, rfl⟩

theorem readCurrent_eq_some {body : Binary} {c : Current} :
    readCurrent body = some c ↔ body = c.wire ∧ c.storeId.length = 16 ∧ c.epochId.length = 16 ∧
      c.manifestDigest.length = 32 := by
  constructor
  · intro h
    obtain ⟨rest, hrest, h⟩ := Option.bind_eq_some_iff.mp h
    obtain ⟨store, hstore, h⟩ := Option.bind_eq_some_iff.mp h
    obtain ⟨epoch, hepoch, h⟩ := Option.bind_eq_some_iff.mp h
    split at h
    case isFalse => cases h
    case isTrue hdigest =>
      cases h
      obtain ⟨hs, hsrest⟩ := takeBytes_eq_some.mp hstore
      obtain ⟨he, herest⟩ := takeBytes_eq_some.mp hepoch
      refine ⟨?_, hs, he, hdigest⟩
      rw [(afterMagic_eq_some _ rfl).mp hrest, hsrest, herest]
      rfl
  · rintro ⟨rfl, hs, he, hd⟩
    have hrest : afterMagic "TAYC" c.wire = some (c.storeId ++ (c.epochId ++ c.manifestDigest)) :=
      (afterMagic_eq_some _ rfl).mpr rfl
    rw [readCurrent, hrest, Option.bind_eq_bind, Option.bind_some]
    refine Option.bind_eq_some_iff.mpr ⟨(c.storeId, _), takeBytes_eq_some.mpr ⟨hs, rfl⟩, ?_⟩
    refine Option.bind_eq_some_iff.mpr ⟨(c.epochId, _), takeBytes_eq_some.mpr ⟨he, rfl⟩, ?_⟩
    exact if_pos hd

/-- CURRENT: what is accepted is what is written. -/
theorem decodeCurrent_eq_ok {bytes : Binary} {c : Current} :
    decodeCurrent bytes = .ok c ↔ encodeCurrent c = .ok bytes := by
  constructor
  · intro h
    obtain ⟨body, hbody, h⟩ := bind_eq_ok.mp h
    split at h
    case h_2 => cases h
    case h_1 c' hc =>
      obtain ⟨hid, h⟩ := check_bind_eq_ok.mp h
      cases h
      obtain ⟨rfl, -, -, hd⟩ := readCurrent_eq_some.mp hc
      have hvalid : (id? c.storeId && id? c.epochId && digest? c.manifestDigest) = true := by
        rw [hid, digest?, hd]
        rfl
      rw [encodeCurrent, if_pos hvalid, (checkedBody_eq_ok.mp hbody).1]
  · intro h
    unfold encodeCurrent at h
    split at h
    case isFalse => cases h
    case isTrue hvalid =>
      cases h
      rw [Bool.and_eq_true, Bool.and_eq_true] at hvalid
      obtain ⟨⟨hs, he⟩, hd⟩ := hvalid
      have hdigest : c.manifestDigest.length = 32 := beq_iff_eq.mp hd
      have hread := readCurrent_eq_some.mpr ⟨rfl, length_of_id hs, length_of_id he, hdigest⟩
      have hsize : (some 72 : Option ℕ).all (· == c.wire.length) = true := by
        rw [Current.wire, List.length_append, List.length_append, List.length_append,
          length_of_id hs, length_of_id he, hdigest]
        rfl
      refine bind_eq_ok.mpr ⟨c.wire, checkedBody_eq_ok.mpr ⟨rfl, hsize⟩, ?_⟩
      simp only [hread]
      exact check_bind_eq_ok.mpr ⟨by rw [hs, he]; rfl, rfl⟩

/-! ## Fields of the body -/

theorem ofBytes_unbytes {v : Value} {s : Binary} (h : v.unbytes = some s) : v = .bytes s := by
  cases v with
  | bytes s' => exact congrArg Value.bytes (Option.some.inj h)
  | _ => cases h

theorem ofBytes_of_any {v : Value} {test : Binary → Bool} (h : v.unbytes.any test = true) :
    Value.ofBytes v.unbytes = v := by
  obtain ⟨s, hs, -⟩ := (Option.any_eq_true _ _).mp h
  rw [hs, ofBytes_unbytes hs]
  rfl

theorem unbytes_ofBytes {o : Option Binary} {test : Binary → Bool} (h : o.any test = true) :
    (Value.ofBytes o).unbytes = o := by
  obtain ⟨s, rfl, -⟩ := (Option.any_eq_true _ _).mp h
  rfl

/-- `nil` or a byte carrier. -/
def carried? : Value → Bool
  | .null => true
  | .bytes _ => true
  | _ => false

theorem opt_unbytes {v : Value} : Value.opt .bytes v.unbytes = v ↔ carried? v = true := by
  cases v <;> simp [Value.unbytes, Value.opt, carried?]

theorem unbytes_opt (o : Option Binary) : (Value.opt .bytes o).unbytes = o := by
  cases o <;> rfl

theorem span_eq_ok {unit : ℕ → Retention} {v : Value} {r : Retention} :
    Retention.span unit v = .ok r ↔ ∃ n, v = .nat n ∧ (unit n).validate = true ∧ r = unit n := by
  constructor
  · intro h
    unfold Retention.span at h
    split at h
    case h_2 => cases h
    case h_1 n =>
      split at h
      case isFalse => cases h
      case isTrue hvalid =>
        cases h
        exact ⟨n, rfl, hvalid, rfl⟩
  · rintro ⟨n, rfl, hvalid, rfl⟩
    exact if_pos hvalid

theorem record_of_exact {v : Value} {key : String} (h : v.exactly? [key] = true) {n : ℕ}
    (hn : v.get key = .nat n) : v = .record [(key, .nat n)] := by
  have hv := Value.eq_record_of_exact h (List.nodup_singleton key)
  rwa [List.map_singleton, hn] at hv

/-- `Retention.from_value` accepts what `to_value` writes. -/
theorem fromValue_eq_ok {v : Value} {r : Retention} :
    Retention.fromValue v = .ok r ↔ v = r.toValue ∧ r.validate = true := by
  constructor
  · intro h
    unfold Retention.fromValue at h
    split at h
    case isTrue hv =>
      cases h
      exact ⟨beq_iff_eq.mp hv, rfl⟩
    case isFalse =>
      split at h
      case isTrue hkeys =>
        obtain ⟨n, hn, hvalid, rfl⟩ := span_eq_ok.mp h
        exact ⟨record_of_exact hkeys hn, hvalid⟩
      case isFalse =>
        split at h
        case isFalse => cases h
        case isTrue hkeys =>
          obtain ⟨n, hn, hvalid, rfl⟩ := span_eq_ok.mp h
          exact ⟨record_of_exact hkeys hn, hvalid⟩
  · rintro ⟨rfl, hvalid⟩
    cases r with
    | infinity => rfl
    | minutes n => exact span_eq_ok.mpr ⟨n, rfl, hvalid, rfl⟩
    | hours n => exact span_eq_ok.mpr ⟨n, rfl, hvalid, rfl⟩

theorem entries_eq_ok {α : Type} {v : Value} {keys : List String} {read : Value → α} {l : List α} :
    entries v keys read = .ok l ↔
      ∃ items, v = .list items ∧ items.all (·.exactly? keys) = true ∧ l = items.map read := by
  constructor
  · intro h
    unfold entries at h
    split at h
    case h_2 => cases h
    case h_1 items =>
      split at h
      case isFalse => cases h
      case isTrue hkeys =>
        cases h
        exact ⟨items, rfl, hkeys, rfl⟩
  · rintro ⟨items, rfl, hkeys, rfl⟩
    exact if_pos hkeys

/-- A list of entries is read and written back. -/
theorem entries_back {α : Type} {v : Value} {keys : List String} {read : Value → α} {l : List α}
    (h : entries v keys read = .ok l) {write : α → Value}
    (hback : ∀ item, item.exactly? keys = true → read item ∈ l → write (read item) = item) :
    Value.list (l.map write) = v := by
  obtain ⟨items, rfl, hkeys, rfl⟩ := entries_eq_ok.mp h
  rw [List.map_map, Value.list.injEq]
  conv_rhs => rw [← List.map_id items]
  refine List.map_congr_left fun item hitem ↦ ?_
  exact hback item (List.all_eq_true.mp hkeys item hitem) (List.mem_map_of_mem hitem)

/-- A list of entries is written and read back. -/
theorem entries_list {α : Type} {keys : List String} {read : Value → α} {write : α → Value} {l : List α}
    (hkeys : ∀ e, (write e).exactly? keys = true) (hback : ∀ e ∈ l, read (write e) = e) :
    entries (.list (l.map write)) keys read = .ok l := by
  refine entries_eq_ok.mpr ⟨l.map write, rfl, ?_, ?_⟩
  · rw [List.all_map, List.all_eq_true]
    intro e _
    exact hkeys e
  · rw [List.map_map]
    conv_lhs => rw [← List.map_id l]
    exact List.map_congr_left fun e he ↦ (hback e he).symm

theorem SourceMap.toValue_ofValue {v : Value} (hkeys : v.exactly? keys = true)
    (hdigest : (ofValue v).digest.any digest? = true) : (ofValue v).toValue = v := by
  have hv := Value.eq_record_of_exact hkeys (by decide)
  conv_rhs => rw [hv]
  rw [toValue, ofValue, ofBytes_of_any hdigest]
  rfl

theorem SourceMap.ofValue_toValue {e : SourceMap} (hdigest : e.digest.any digest? = true) :
    ofValue e.toValue = e := by
  have hread : ofValue e.toValue = ⟨e.id, (Value.ofBytes e.digest).unbytes⟩ := by
    simp +decide only [ofValue, toValue, Value.get_record, List.lookup_cons]
    rfl
  rw [hread, unbytes_ofBytes hdigest]

theorem BaseMap.toValue_ofValue {v : Value} (hkeys : v.exactly? keys = true)
    (hdigest : (ofValue v).digest.any digest? = true) : (ofValue v).toValue = v := by
  have hv := Value.eq_record_of_exact hkeys (by decide)
  conv_rhs => rw [hv]
  rw [toValue, ofValue, ofBytes_of_any hdigest]
  rfl

theorem BaseMap.ofValue_toValue {e : BaseMap} (hdigest : e.digest.any digest? = true) :
    ofValue e.toValue = e := by
  have hread : ofValue e.toValue = ⟨e.id, e.firstSequence, e.lastSequence, e.bytes,
      (Value.ofBytes e.digest).unbytes⟩ := by
    simp +decide only [ofValue, toValue, Value.get_record, List.lookup_cons]
    rfl
  rw [hread, unbytes_ofBytes hdigest]

/-! ## What `manifest?` says -/

theorem ordered_equals {v : Value} {n : ℕ} (h : v.equals n = true) : v.ordered = true := by
  cases v with
  | list items => cases h
  | map entries => cases h
  | _ => rfl

theorem ordered_natural {v : Value} {test : ℕ → Bool} (h : Event.natural? test v = true) :
    v.ordered = true := by
  cases v with
  | list items => cases h
  | map entries => cases h
  | _ => rfl

/-- Numbers that are not containers, and a digest. -/
theorem validSource_mem : ∀ {l : List SourceMap} {id : ℕ}, validSource? id l = true →
    ∀ e ∈ l, e.digest.any digest? = true ∧ e.toValue.ordered = true
  | [], _, _, e, he => by cases he
  | head :: rest, id, h, e, he => by
    rw [validSource?, Bool.and_eq_true, Bool.and_eq_true] at h
    obtain ⟨⟨hid, hdigest⟩, hrest⟩ := h
    rcases List.mem_cons.mp he with rfl | he
    · refine ⟨hdigest, ?_⟩
      obtain ⟨s, hs, -⟩ := (Option.any_eq_true _ _).mp hdigest
      have hordered := ordered_equals hid
      simp +decide [SourceMap.toValue, hs, Value.ofBytes, Value.record, Value.ordered,
        Value.ordered.orderedMap, Value.ascends, hordered]
    · exact validSource_mem hrest e he

theorem BaseMap.ordered_toValue {e : BaseMap} {id next : ℕ} (h : e.valid? id next = true) :
    e.digest.any digest? = true ∧ e.toValue.ordered = true := by
  simp only [BaseMap.valid?, Bool.and_eq_true] at h
  obtain ⟨⟨⟨⟨hid, hfirst⟩, hlast⟩, hbytes⟩, hdigest⟩ := h
  refine ⟨hdigest, ?_⟩
  obtain ⟨s, hs, -⟩ := (Option.any_eq_true _ _).mp hdigest
  simp +decide [BaseMap.toValue, hs, Value.ofBytes, Value.record, Value.ordered,
    Value.ordered.orderedMap, Value.ascends, ordered_equals hid, ordered_equals hfirst,
    ordered_natural hlast, ordered_natural hbytes]

/-- Every entry of a fold that stayed valid was valid where it stood. -/
theorem foldl_baseStep (l : List (BaseMap × ℕ)) : ∀ {acc : Bool × ℕ},
    (l.foldl baseStep acc).1 = true →
      acc.1 = true ∧ ∀ e ∈ l, ∃ next, e.1.valid? e.2 next = true := by
  induction l with
  | nil =>
    intro acc h
    exact ⟨h, fun e he ↦ by cases he⟩
  | cons head rest ih =>
    intro acc h
    rw [List.foldl_cons] at h
    obtain ⟨hstep, hrest⟩ := ih h
    rw [baseStep, Bool.and_eq_true] at hstep
    refine ⟨hstep.1, fun e he ↦ ?_⟩
    rcases List.mem_cons.mp he with rfl | he
    · exact ⟨_, hstep.2⟩
    · exact hrest e he

theorem validBase_mem {base : List BaseMap} {tailId tailFirst : Value}
    (h : validBase? base tailId tailFirst = true) :
    ∀ e ∈ base, e.digest.any digest? = true ∧ e.toValue.ordered = true := by
  rw [validBase?, Bool.and_eq_true, Bool.and_eq_true] at h
  intro e he
  obtain ⟨i, hi, rfl⟩ := List.getElem_of_mem he
  have hmem : (base[i], 1 + i) ∈ base.zipIdx 1 := by
    exact List.mk_add_mem_zipIdx_iff_getElem?.mpr (List.getElem?_eq_getElem hi)
  obtain ⟨next, hvalid⟩ := (foldl_baseStep _ h.1.1).2 _ hmem
  exact BaseMap.ordered_toValue hvalid

/-- The checks of `manifest?` in one place. -/
structure ManifestMap.Valid (m : ManifestMap) : Prop where
  storeId : m.storeId.any id? = true
  epochId : m.epochId.any id? = true
  sourceEpochId : m.sourceEpochId.all id? = true
  sourceFrontier : Event.natural? (· ≤ max) m.sourceFrontier = true
  availabilityFrontier :
    Event.optional? (Event.natural? (· ≤ max)) (m.availabilityFrontier.getD .null) = true
  capturedAt : Event.time? m.capturedAt = true
  terminalRetention : m.terminalRetention.validate = true
  sourceSegments : validSource? 1 m.sourceSegments = true
  baseSegments : validBase? m.baseSegments m.tailSegmentId m.tailFirstSequence = true

theorem ManifestMap.valid_of_manifest {m : ManifestMap} (h : m.manifest? = .ok ()) : m.Valid := by
  obtain ⟨hids, h⟩ := check_bind_eq_ok.mp h
  obtain ⟨hsource, h⟩ := check_bind_eq_ok.mp h
  obtain ⟨hfrontier, h⟩ := check_bind_eq_ok.mp h
  obtain ⟨havailability, h⟩ := check_bind_eq_ok.mp h
  obtain ⟨hcaptured, h⟩ := check_bind_eq_ok.mp h
  obtain ⟨hretention, h⟩ := check_bind_eq_ok.mp h
  obtain ⟨hsegments, h⟩ := check_bind_eq_ok.mp h
  rw [Bool.and_eq_true] at hids
  exact ⟨hids.1, hids.2, hsource, hfrontier, havailability, hcaptured, hretention, hsegments,
    check_eq_ok.mp h⟩

/-! ## The body of a manifest -/

namespace ManifestMap

theorem exact_body (m : ManifestMap) :
    (m.body.exactly? manifestKeys || m.body.exactly? legacyManifestKeys) = true := by
  cases havailability : m.availabilityFrontier <;>
    simp +decide [body, fields, havailability, Value.exact_record, manifestKeys, legacyManifestKeys]

theorem ordered_list {α : Type} {write : α → Value} {l : List α} (h : ∀ e ∈ l, (write e).ordered = true) :
    Value.ordered.orderedList (l.map write) = true := by
  induction l with
  | nil => rfl
  | cons head rest ih =>
    rw [List.map_cons, Value.ordered.orderedList, h head List.mem_cons_self, Bool.true_and]
    exact ih fun e he ↦ h e (List.mem_cons_of_mem _ he)

theorem ordered_retention (r : Retention) : r.toValue.ordered = true := by
  cases r <;> rfl

theorem ordered_ofBytes (o : Option Binary) : (Value.ofBytes o).ordered = true := by
  cases o <;> rfl

theorem ordered_opt (o : Option Binary) : (Value.opt .bytes o).ordered = true := by
  cases o <;> rfl

theorem ordered_frontier {v : Value} {test : ℕ → Bool}
    (h : Event.optional? (Event.natural? test) v = true) : v.ordered = true := by
  rw [Event.optional?, Bool.or_eq_true, beq_iff_eq] at h
  rcases h with rfl | h
  · rfl
  · exact ordered_natural h

theorem Valid.ordered_tail {m : ManifestMap} (h : m.Valid) :
    m.tailSegmentId.ordered = true ∧ m.tailFirstSequence.ordered = true := by
  have hbase := h.baseSegments
  rw [validBase?, Bool.and_eq_true, Bool.and_eq_true] at hbase
  exact ⟨ordered_natural hbase.1.2, ordered_natural hbase.2⟩

theorem Valid.ordered_body {m : ManifestMap} (h : m.Valid) : m.body.ordered = true := by
  have hbase := ordered_list fun e he ↦ (validBase_mem h.baseSegments e he).2
  have hsource := ordered_list fun e he ↦ (validSource_mem h.sourceSegments e he).2
  have hcaptured : m.capturedAt.ordered = true := ordered_natural h.capturedAt
  have havailability := ordered_frontier h.availabilityFrontier
  obtain ⟨htail, hfirst⟩ := h.ordered_tail
  cases hfrontier : m.availabilityFrontier with
  | none =>
    simp +decide [body, fields, hfrontier, Value.record, Value.ordered, Value.ordered.orderedMap,
      Value.ascends, hbase, hsource, hcaptured, htail, hfirst, ordered_natural h.sourceFrontier,
      ordered_retention, ordered_ofBytes, ordered_opt]
  | some frontier =>
    rw [hfrontier, Option.getD_some] at havailability
    simp +decide [body, fields, hfrontier, Value.record, Value.ordered, Value.ordered.orderedMap,
      Value.ascends, hbase, hsource, hcaptured, htail, hfirst, ordered_natural h.sourceFrontier,
      ordered_retention, ordered_ofBytes, ordered_opt, havailability]

theorem get_body (m : ManifestMap) {key : String} (hkey : key ≠ "availability_frontier") :
    m.body.get key = (m.fields.lookup key).getD .null := by
  rw [Value.get, body, Value.fetch_record]
  cases m.availabilityFrontier with
  | none => rfl
  | some frontier =>
    rw [Option.toList_some, List.map_singleton, List.singleton_append, List.lookup_cons,
      beq_false_of_ne hkey]

/-- A manifest is read back from its body. -/
theorem Valid.fromBody_body {m : ManifestMap} (h : m.Valid) : manifestFromBody m.body = .ok m := by
  have hfrontier : m.body.fetch "availability_frontier" = m.availabilityFrontier := by
    rw [body, Value.fetch_record]
    cases m.availabilityFrontier <;> rfl
  have hretention : Retention.fromValue m.terminalRetention.toValue = .ok m.terminalRetention :=
    fromValue_eq_ok.mpr ⟨rfl, h.terminalRetention⟩
  have hsource : entries (.list (m.sourceSegments.map SourceMap.toValue)) SourceMap.keys
      SourceMap.ofValue = .ok m.sourceSegments :=
    entries_list (fun e ↦ by rw [SourceMap.toValue, Value.exact_record]; rfl)
      fun e he ↦ SourceMap.ofValue_toValue (validSource_mem h.sourceSegments e he).1
  have hbase : entries (.list (m.baseSegments.map BaseMap.toValue)) BaseMap.keys
      BaseMap.ofValue = .ok m.baseSegments :=
    entries_list (fun e ↦ by rw [BaseMap.toValue, Value.exact_record]; rfl)
      fun e he ↦ BaseMap.ofValue_toValue (validBase_mem h.baseSegments e he).1
  have hterminal : m.body.get "terminal_retention" = m.terminalRetention.toValue := m.get_body (by decide)
  have hsources : m.body.get "source_segments" = .list (m.sourceSegments.map SourceMap.toValue) :=
    m.get_body (by decide)
  have hbases : m.body.get "base_segments" = .list (m.baseSegments.map BaseMap.toValue) :=
    m.get_body (by decide)
  have hstore : m.body.get "store_id" = .ofBytes m.storeId := m.get_body (by decide)
  have hepoch : m.body.get "epoch_id" = .ofBytes m.epochId := m.get_body (by decide)
  have hfrom : m.body.get "source_epoch_id" = .opt .bytes m.sourceEpochId := m.get_body (by decide)
  have hreplayed : m.body.get "source_frontier" = m.sourceFrontier := m.get_body (by decide)
  have hcaptured : m.body.get "captured_at" = m.capturedAt := m.get_body (by decide)
  have htail : m.body.get "tail_segment_id" = m.tailSegmentId := m.get_body (by decide)
  have hfirst : m.body.get "tail_first_sequence" = m.tailFirstSequence := m.get_body (by decide)
  rw [manifestFromBody, hterminal, hretention, ok_bind, hsources, hsource, ok_bind, hbases, hbase,
    ok_bind, hstore, hepoch, hfrom, hreplayed, hcaptured, htail, hfirst, hfrontier,
    unbytes_ofBytes h.storeId, unbytes_ofBytes h.epochId, unbytes_opt]
  rfl

/-- A body is written back if what stands under `source_epoch_id` is `nil` or a carrier, and only
then. -/
theorem body_of_fromBody {value : Value} {m : ManifestMap}
    (hkeys : (value.exactly? manifestKeys || value.exactly? legacyManifestKeys) = true)
    (h : manifestFromBody value = .ok m) (hvalid : m.Valid) :
    m.body = value ↔ carried? (value.get "source_epoch_id") = true := by
  constructor
  · rintro rfl
    have hfrom : m.body.get "source_epoch_id" = .opt .bytes m.sourceEpochId := m.get_body (by decide)
    rw [hfrom]
    cases m.sourceEpochId <;> rfl
  · intro hcarried
    obtain ⟨retention, hretention, h⟩ := bind_eq_ok.mp h
    obtain ⟨source, hsource, h⟩ := bind_eq_ok.mp h
    obtain ⟨base, hbase, h⟩ := bind_eq_ok.mp h
    cases h
    have hsources := entries_back hsource fun item hitem hmem ↦
      SourceMap.toValue_ofValue hitem (validSource_mem hvalid.sourceSegments _ hmem).1
    have hbases := entries_back hbase fun item hitem hmem ↦
      BaseMap.toValue_ofValue hitem (validBase_mem hvalid.baseSegments _ hmem).1
    rw [body, fields]
    dsimp only
    rw [hsources, hbases, ofBytes_of_any hvalid.storeId, ofBytes_of_any hvalid.epochId,
      opt_unbytes.mpr hcarried, ← (fromValue_eq_ok.mp hretention).1]
    rw [Bool.or_eq_true] at hkeys
    rcases hkeys with hkeys | hkeys
    · have hvalue := Value.eq_record_of_exact hkeys (by decide)
      have hfetch : value.fetch "availability_frontier" = some (value.get "availability_frontier") := by
        rw [hvalue, Value.get_record, Value.fetch_record]
        rfl
      rw [hfetch]
      exact hvalue.symm
    · have hvalue := Value.eq_record_of_exact hkeys (by decide)
      have hfetch : value.fetch "availability_frontier" = none := by
        rw [hvalue, Value.fetch_record]
        rfl
      rw [hfetch]
      exact hvalue.symm

end ManifestMap

/-! ## The manifest -/

theorem readFrame_eq_some {file : Binary} {frame : ℕ × Binary} :
    readFrame file = some frame ↔
      frame.1 < 256 ^ 4 ∧ file = magic "TAYM" ++ (Value.bigEndian 4 frame.1 ++ frame.2) := by
  constructor
  · intro h
    obtain ⟨rest, hrest, h⟩ := Option.bind_eq_some_iff.mp h
    obtain ⟨hlt, hfield⟩ := Value.field_eq_some.mp h
    rw [(afterMagic_eq_some _ rfl).mp hrest, hfield]
    exact ⟨hlt, rfl⟩
  · rintro ⟨hlt, rfl⟩
    rw [readFrame, (afterMagic_eq_some _ rfl).mpr rfl, Option.bind_eq_bind, Option.bind_some]
    exact Value.field_eq_some.mpr ⟨hlt, rfl⟩

theorem length_framed (body : Binary) : (checked (framed body)).length = body.length + 16 := by
  have hmagic : (magic "TAYM").length = 8 := rfl
  rw [length_checked, framed, List.length_append, List.length_append, hmagic, Value.bigEndian_length]
  omega

/-- What `encode_manifest` writes. -/
theorem encodeManifest_eq_ok {m : ManifestMap} {bytes : Binary} :
    encodeManifest m = .ok bytes ↔ m.manifest? = .ok () ∧
      ∃ body, m.body.encode Value.defaults Value.maxBytes = .ok body ∧ body.length + 16 ≤ 16777216 ∧
        bytes = checked (framed body) := by
  constructor
  · intro h
    obtain ⟨_, hvalid, h⟩ := bind_eq_ok.mp h
    obtain ⟨body, hbody, h⟩ := bind_eq_ok.mp h
    obtain ⟨hsize, h⟩ := check_bind_eq_ok.mp h
    cases h
    have hle : body.length ≤ 16777216 - 16 := of_decide_eq_true hsize
    exact ⟨hvalid, body, lift_eq_ok.mp hbody, by omega, rfl⟩
  · rintro ⟨hvalid, body, hbody, hsize, rfl⟩
    have hle : body.length ≤ 16777216 - 16 := by omega
    exact bind_eq_ok.mpr ⟨_, hvalid, bind_eq_ok.mpr ⟨body, lift_eq_ok.mpr hbody,
      check_bind_eq_ok.mpr ⟨decide_eq_true hle, rfl⟩⟩⟩

/-- What `decode_manifest` accepts. -/
theorem decodeManifest_eq_ok {m : ManifestMap} {bytes : Binary} :
    decodeManifest bytes = .ok m ↔ m.manifest? = .ok () ∧
      ∃ body value, Value.decode body Value.defaults = .ok value ∧
        (value.exactly? manifestKeys || value.exactly? legacyManifestKeys) = true ∧
        manifestFromBody value = .ok m ∧ body.length + 16 ≤ 16777216 ∧
        bytes = checked (framed body) := by
  constructor
  · intro h
    obtain ⟨hsize, h⟩ := check_bind_eq_ok.mp h
    obtain ⟨file, hfile, h⟩ := bind_eq_ok.mp h
    split at h
    case h_1 => cases h
    case h_2 frame hframe =>
      obtain ⟨hlength, h⟩ := check_bind_eq_ok.mp h
      obtain ⟨value, hvalue, h⟩ := bind_eq_ok.mp h
      obtain ⟨hkeys, h⟩ := check_bind_eq_ok.mp h
      obtain ⟨m', hm, h⟩ := bind_eq_ok.mp h
      obtain ⟨_, hvalid, h⟩ := bind_eq_ok.mp h
      cases h
      have hbytes : bytes = checked (framed frame.2) := by
        rw [(checkedBody_eq_ok.mp hfile).1, (readFrame_eq_some.mp hframe).2, beq_iff_eq.mp hlength,
          framed]
      have hle : bytes.length ≤ 16777216 := of_decide_eq_true hsize
      rw [hbytes, length_framed] at hle
      exact ⟨hvalid, frame.2, value, lift_eq_ok.mp hvalue, hkeys, hm, hle, hbytes⟩
  · rintro ⟨hvalid, body, value, hvalue, hkeys, hm, hsize, rfl⟩
    have hframe : readFrame (framed body) = some (body.length, body) := by
      refine readFrame_eq_some.mpr ⟨?_, rfl⟩
      rw [Value.pow_four]
      show body.length < 4294967296
      omega
    refine check_bind_eq_ok.mpr ⟨?_, bind_eq_ok.mpr ⟨framed body, checkedBody_eq_ok.mpr ⟨rfl, rfl⟩, ?_⟩⟩
    · rw [length_framed]
      exact decide_eq_true hsize
    · simp only [hframe]
      exact check_bind_eq_ok.mpr ⟨beq_self_eq_true _, bind_eq_ok.mpr ⟨value, lift_eq_ok.mpr hvalue,
        check_bind_eq_ok.mpr ⟨hkeys, bind_eq_ok.mpr ⟨m, hm, bind_eq_ok.mpr ⟨_, hvalid, rfl⟩⟩⟩⟩⟩

/-- The body in a manifest file. -/
def manifestBytes (bytes : Binary) : Binary := (bytes.take (bytes.length - 4)).drop 12

theorem manifestBytes_framed (body : Binary) : manifestBytes (checked (framed body)) = body := by
  have hlength : (checked (framed body)).length - 4 = (framed body).length := by
    rw [length_checked, Nat.add_sub_cancel]
  have hhead : (magic "TAYM" ++ Value.bigEndian 4 body.length).length = 12 := by
    rw [List.length_append, Value.bigEndian_length]
    rfl
  rw [manifestBytes, hlength, checked, List.take_left, framed, ← List.append_assoc,
    List.drop_left' hhead]

/-- The file has `nil` or a byte carrier under `source_epoch_id`. -/
def sourceEpochCarried (bytes : Binary) : Bool :=
  match Value.decode (manifestBytes bytes) Value.defaults with
  | .ok value => carried? (value.get "source_epoch_id")
  | .error _ => false

theorem decodeManifest_encode {m : ManifestMap} {bytes : Binary} (h : encodeManifest m = .ok bytes) :
    decodeManifest bytes = .ok m := by
  obtain ⟨hvalid, body, hbody, hsize, hbytes⟩ := encodeManifest_eq_ok.mp h
  have hv := ManifestMap.valid_of_manifest hvalid
  exact decodeManifest_eq_ok.mpr ⟨hvalid, body, m.body, Value.decode_encode hv.ordered_body hbody,
    m.exact_body, hv.fromBody_body, hsize, hbytes⟩

theorem encodeManifest_decode {m : ManifestMap} {bytes : Binary} (h : decodeManifest bytes = .ok m) :
    encodeManifest m = .ok bytes ↔ sourceEpochCarried bytes = true := by
  obtain ⟨hvalid, body, value, hvalue, hkeys, hm, hsize, rfl⟩ := decodeManifest_eq_ok.mp h
  have hv := ManifestMap.valid_of_manifest hvalid
  have hcarried : sourceEpochCarried (checked (framed body)) =
      carried? (value.get "source_epoch_id") := by
    rw [sourceEpochCarried, manifestBytes_framed, hvalue]
  rw [hcarried, ← ManifestMap.body_of_fromBody hkeys hm hv, encodeManifest_eq_ok]
  constructor
  · rintro ⟨-, body', hbody', -, hbytes⟩
    have hsame : body' = body := by
      rw [← manifestBytes_framed body, hbytes, manifestBytes_framed]
    have hdecoded := Value.decode_encode hv.ordered_body hbody'
    rw [hsame, hvalue] at hdecoded
    exact (Except.ok.inj hdecoded).symm
  · rintro hbody
    refine ⟨hvalid, body, ?_, hsize, rfl⟩
    rw [hbody]
    exact (Value.decode_eq_ok.mp hvalue).2

/-- What a codec makes of a file: a file that is written is read back; a file that is accepted is what is
written for it exactly if it is of some class; and no other file of that class is read as the same thing. -/
def Canonical {α : Type} (encode : α → Except Reason Binary) (decode : Binary → Except Reason α)
    (file : Binary → Bool) (bytes : Binary) : Prop :=
  (∀ a, encode a = .ok bytes → decode bytes = .ok a) ∧
    (∀ a, decode bytes = .ok a → (encode a = .ok bytes ↔ file bytes = true)) ∧
    ∀ bytes' a, decode bytes = .ok a → decode bytes' = .ok a → file bytes = true →
      file bytes' = true → bytes = bytes'

/-- The third property follows from the second. -/
theorem canonical_of {α : Type} {encode : α → Except Reason Binary} {decode : Binary → Except Reason α}
    {file : Binary → Bool} (hdecode : ∀ a bytes, encode a = .ok bytes → decode bytes = .ok a)
    (hencode : ∀ bytes a, decode bytes = .ok a → (encode a = .ok bytes ↔ file bytes = true))
    (bytes : Binary) : Canonical encode decode file bytes := by
  refine ⟨fun a ↦ hdecode a bytes, hencode bytes, fun bytes' a h h' hfile hfile' ↦ ?_⟩
  have hfirst := (hencode bytes a h).mpr hfile
  have hsecond := (hencode bytes' a h').mpr hfile'
  rw [hfirst] at hsecond
  exact Except.ok.inj hsecond

/-- **The codecs of the authority files.** The marker and CURRENT are canonical on all files. A manifest
is always read back, and a manifest file that is accepted is the encoding of its manifest exactly if it
has `nil` or a byte carrier under `source_epoch_id`. -/
theorem authority_codec (bytes : Binary) :
    Canonical encodeMarker decodeMarker (fun _ ↦ true) bytes ∧
      Canonical encodeCurrent decodeCurrent (fun _ ↦ true) bytes ∧
      Canonical encodeManifest decodeManifest sourceEpochCarried bytes := by
  refine ⟨canonical_of (fun _ _ h ↦ decodeMarker_eq_ok.mpr h) (fun bytes storeId h ↦ ?_) bytes,
    canonical_of (fun _ _ h ↦ decodeCurrent_eq_ok.mpr h) (fun bytes c h ↦ ?_) bytes,
    canonical_of (fun _ _ h ↦ decodeManifest_encode h) (fun _ _ h ↦ encodeManifest_decode h) bytes⟩
  · exact ⟨fun _ ↦ rfl, fun _ ↦ decodeMarker_eq_ok.mp h⟩
  · exact ⟨fun _ ↦ rfl, fun _ ↦ decodeCurrent_eq_ok.mp h⟩

/-- An empty epoch with no source. -/
def emptyManifest : ManifestMap where
  storeId := some (List.replicate 16 1)
  epochId := some (List.replicate 16 2)
  sourceEpochId := none
  sourceFrontier := .nat 0
  capturedAt := .nat 0
  terminalRetention := .hours 1
  sourceSegments := []
  baseSegments := []
  tailSegmentId := .nat 1
  tailFirstSequence := .nat 1
  availabilityFrontier := some (.nat 0)

/-- The body of the same epoch with a number for its source. -/
def numberedBody : Value := emptyManifest.body.put "source_epoch_id" (.nat 5)

/-- The file around this body. -/
def numberedFile : Binary := checked (framed (Value.wire numberedBody))

/-- The file with a number under `source_epoch_id` is accepted, and it is not the encoding of the
manifest it is read as, which is the manifest without a source. -/
theorem numberedFile_not_canonical :
    decodeManifest numberedFile = .ok emptyManifest ∧
      ¬encodeManifest emptyManifest = .ok numberedFile := by
  have hvalue : Value.decode (Value.wire numberedBody) Value.defaults = .ok numberedBody := by
    decide +kernel
  have hdecoded : decodeManifest numberedFile = .ok emptyManifest :=
    decodeManifest_eq_ok.mpr ⟨by decide +kernel, Value.wire numberedBody, numberedBody, hvalue,
      by decide +kernel, by decide +kernel, by decide +kernel, rfl⟩
  refine ⟨hdecoded, ?_⟩
  rw [encodeManifest_decode hdecoded, sourceEpochCarried, numberedFile, manifestBytes_framed, hvalue]
  decide +kernel

end Authority

end Tay
