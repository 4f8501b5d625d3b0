import Tay.Storage.CRC32C

/-!
# Physical records

`Tay.Storage.Record`: how a record lies in a segment. A header of twenty bytes with its checksum, the
payload, and a checksum over both. The length in the header is used only after the checksum of the header
has been found right, so that a record that is cut anywhere is recognised as cut: before the end of the
header by its length, and after it by the length that the header states.
-/

open Foundation

namespace Tay.Physical

/-- `@magic`. -/
def recordMagic : Binary := [84, 65, 89, 0]

/-- `@hard_payload_max`. -/
def hardPayloadMax : ℕ := 16777216

/-- `@uint64_max`. -/
def uint64Max : ℕ := 18446744073709551615

structure Record where
  formatVersion : ℕ := 1
  recordType : ℕ
  flags : ℕ := 0
  payloadSchemaVersion : ℕ
  sequence : ℕ
  payload : Binary
  deriving DecidableEq, Repr

/-- A field with a range of its own. -/
inductive Field
  | formatVersion
  | recordType
  | flags
  | payloadSchemaVersion
  | sequence
  deriving DecidableEq, Repr

inductive CorruptReason
  | invalidFormat
  | reservedType (type : ℕ)
  | invalidSchema
  | invalidSequence
  | payloadLengthExceedsFormat (length : ℕ)
  | invalidMagic
  | headerChecksum
  | recordChecksum
  deriving DecidableEq, Repr

inductive RecordError
  | field (field : Field)
  | invalidRecord (reason : CorruptReason)
  | corrupt (reason : CorruptReason)
  | unsupportedFormat (version : ℕ)
  | unsupportedFlags (flags : ℕ)
  | resourceLimit (length limit : ℕ)
  deriving DecidableEq, Repr

/-! ## Encoding -/

/-- `validate_primitives`. -/
def validatePrimitives (r : Record) : Except RecordError Unit := do
  check (r.formatVersion ≤ 255) (.field .formatVersion)
  check (r.recordType ≤ 255) (.field .recordType)
  check (r.flags ≤ 255) (.field .flags)
  check (r.payloadSchemaVersion ≤ 255) (.field .payloadSchemaVersion)
  check (r.sequence ≤ uint64Max) (.field .sequence)

/-- `validate_version`. -/
def validateVersion : ℕ → Except RecordError Unit
  | 1 => .ok ()
  | 0 => .error (.corrupt .invalidFormat)
  | version => .error (.unsupportedFormat version)

/-- `validate_metadata`. -/
def validateMetadata (type flags schema sequence n : ℕ) : Except RecordError Unit := do
  check (flags == 0) (.unsupportedFlags flags)
  check (type != 0 && type != 255) (.corrupt (.reservedType type))
  check (schema != 0) (.corrupt .invalidSchema)
  check (sequence != 0) (.corrupt .invalidSequence)
  check (n ≤ hardPayloadMax) (.corrupt (.payloadLengthExceedsFormat n))

/-- The first twenty bytes. -/
def Record.header (r : Record) : Binary :=
  recordMagic ++ ([UInt8.ofNat r.formatVersion, UInt8.ofNat r.recordType, UInt8.ofNat r.flags,
    UInt8.ofNat r.payloadSchemaVersion] ++ (Value.bigEndian 8 r.sequence ++
      Value.bigEndian 4 r.payload.length))

/-- A header and the checksum of it. -/
def Record.head (r : Record) : Binary :=
  r.header ++ Value.bigEndian 4 (CRC32C.recordChecksums r.header r.payload).1

def Record.wire (r : Record) : Binary :=
  r.head ++ (r.payload ++ Value.bigEndian 4 (CRC32C.recordChecksums r.header r.payload).2)

/-- What is wrong with bytes is what is wrong with a record. -/
def asInvalid : RecordError → RecordError
  | .corrupt reason => .invalidRecord reason
  | error => error

/-- `encode`. -/
def Record.encode (r : Record) : Except RecordError Binary :=
  Except.mapError asInvalid do
    validatePrimitives r
    validateVersion r.formatVersion
    validateMetadata r.recordType r.flags r.payloadSchemaVersion r.sequence r.payload.length
    return r.wire

/-! ## Decoding -/

/-- Where a record with a good header ends early. -/
inductive Stage
  | payload
  | checksum
  deriving DecidableEq, Repr

structure Metadata where
  recordType : ℕ
  payloadSchemaVersion : ℕ
  sequence : ℕ
  payloadLength : ℕ
  recordBytes : ℕ
  availableBytes : ℕ
  missingBytes : ℕ
  deriving DecidableEq, Repr

inductive Decoded
  | ok (record : Record) (rest : Binary)
  | incompleteHeader
  | incomplete (stage : Stage) (metadata : Metadata)
  | error (reason : RecordError)
  deriving DecidableEq, Repr

/-- `decode_body`. -/
def decodeBody (input : Binary) (limit type schema sequence n : ℕ) (headerState : Option ℕ) :
    Decoded :=
  if limit < n then .error (.resourceLimit n limit)
  else if input.length < 28 + n then
    .incomplete (if input.length < 24 + n then .payload else .checksum)
      ⟨type, schema, sequence, n, 28 + n, input.length, 28 + n - input.length⟩
  else
    let payload := (input.drop 24).take n
    if (headerState.bind fun state ↦ (CRC32C.update state payload).bind CRC32C.finalize) =
        some (Value.ofBigEndian ((input.drop (24 + n)).take 4)) then
      .ok { recordType := type, payloadSchemaVersion := schema, sequence, payload }
        (input.drop (28 + n))
    else .error (.corrupt .recordChecksum)

/-- A byte of a binary that is long enough. -/
def byteAt (input : Binary) (i : ℕ) : ℕ := (input.getD i 0).toNat

/-- `decode_header`. -/
def decodeHeader (input : Binary) (limit : ℕ) : Decoded :=
  if input.length < 24 then .incompleteHeader
  else
    let header := input.take 20
    let headerState := CRC32C.update CRC32C.initial header
    if headerState.bind CRC32C.finalize = some (Value.ofBigEndian ((input.drop 20).take 4)) then
      let type := byteAt header 5
      let flags := byteAt header 6
      let schema := byteAt header 7
      let sequence := Value.ofBigEndian ((header.drop 8).take 8)
      let n := Value.ofBigEndian (header.drop 16)
      match validateMetadata type flags schema sequence n with
      | .ok () => decodeBody input limit type schema sequence n headerState
      | .error reason => .error reason
    else .error (.corrupt .headerChecksum)

/-- `decode_prefix`. -/
def decode (input : Binary) (limit : ℕ) : Decoded :=
  if input.take 4 ≠ recordMagic.take input.length then .error (.corrupt .invalidMagic)
  else if input.length < 5 then .incompleteHeader
  else
    match validateVersion (byteAt input 4) with
    | .ok () => decodeHeader input limit
    | .error reason => .error reason

/-! ## What is written -/

/-- A record that `encode` accepts. -/
structure Record.Valid (r : Record) : Prop where
  formatVersion : r.formatVersion = 1
  recordType : 0 < r.recordType ∧ r.recordType < 255
  flags : r.flags = 0
  payloadSchemaVersion : 0 < r.payloadSchemaVersion ∧ r.payloadSchemaVersion ≤ 255
  sequence : 0 < r.sequence ∧ r.sequence ≤ uint64Max
  payload : r.payload.length ≤ hardPayloadMax

theorem validateVersion_eq_ok {version : ℕ} {u : Unit} :
    validateVersion version = .ok u ↔ version = 1 := by
  constructor
  · intro h
    unfold validateVersion at h
    split at h
    case h_1 => rfl
    case h_2 => cases h
    case h_3 => cases h
  · rintro rfl
    rfl

theorem validateMetadata_eq_ok {type flags schema sequence n : ℕ} {u : Unit} :
    validateMetadata type flags schema sequence n = .ok u ↔
      flags = 0 ∧ type ≠ 0 ∧ type ≠ 255 ∧ schema ≠ 0 ∧ sequence ≠ 0 ∧ n ≤ hardPayloadMax := by
  simp only [validateMetadata, check_bind_eq_ok, check_eq_ok, beq_iff_eq, Bool.and_eq_true, bne_iff_ne,
    decide_eq_true_eq, and_assoc]

theorem Record.encode_eq_ok {r : Record} {bytes : Binary} :
    r.encode = .ok bytes ↔ r.Valid ∧ bytes = r.wire := by
  rw [Record.encode, mapError_eq_ok]
  simp only [validatePrimitives, bind_eq_ok, check_eq_ok, validateVersion_eq_ok,
    validateMetadata_eq_ok, decide_eq_true_eq, pure_eq_ok, exists_const]
  constructor
  · rintro ⟨⟨-, h2, -, h4, h5⟩, hversion, ⟨hflags, htype, htype', hschema, hsequence, hlength⟩, h⟩
    cases h
    exact ⟨⟨hversion, by omega, hflags, by omega, by omega, hlength⟩, rfl⟩
  · rintro ⟨h, rfl⟩
    have htype := h.recordType
    have hschema := h.payloadSchemaVersion
    have hsequence := h.sequence
    exact ⟨⟨by rw [h.formatVersion]; omega, by omega, by rw [h.flags]; omega, by omega, by omega⟩,
      h.formatVersion, ⟨h.flags, by omega, by omega, by omega, by omega, h.payload⟩, rfl⟩

theorem Record.length_header (r : Record) : r.header.length = 20 := by
  rw [header, List.length_append, List.length_append, List.length_append, Value.bigEndian_length,
    Value.bigEndian_length]
  rfl

theorem Record.length_head (r : Record) : r.head.length = 24 := by
  rw [head, List.length_append, length_header, Value.bigEndian_length]

/-- Twenty-eight bytes more than the payload. -/
theorem Record.length_wire (r : Record) : r.wire.length = r.payload.length + 28 := by
  rw [wire, List.length_append, List.length_append, length_head, Value.bigEndian_length]
  omega

/-! ## What is read -/

section Reading

variable {r : Record}

theorem finalize_update (bytes : Binary) :
    (CRC32C.update CRC32C.initial bytes).bind CRC32C.finalize = CRC32C.checksum bytes := rfl

/-- The checksum of the whole, from the register of the first part. -/
theorem bind_update_finalize (first rest : Binary) :
    ((CRC32C.update CRC32C.initial first).bind fun state ↦
      (CRC32C.update state rest).bind CRC32C.finalize) = CRC32C.checksum (first ++ rest) := by
  rw [CRC32C.checksum, CRC32C.update_append, Option.bind_assoc]

theorem ofBigEndian_checksums (r : Record) :
    some (Value.ofBigEndian (Value.bigEndian 4 (CRC32C.recordChecksums r.header r.payload).1)) =
        CRC32C.checksum r.header ∧
      some (Value.ofBigEndian (Value.bigEndian 4 (CRC32C.recordChecksums r.header r.payload).2)) =
        CRC32C.checksum (r.header ++ r.payload) := by
  obtain ⟨hfirst, hsecond⟩ := CRC32C.recordChecksums_eq r.header r.payload
  have hheader := CRC32C.ofBigEndian_checksum r.header
  have hrecord := CRC32C.ofBigEndian_checksum (r.header ++ r.payload)
  rw [← hfirst, Option.getD_some] at hheader
  rw [← hsecond, Option.getD_some] at hrecord
  rw [← hfirst, ← hsecond]
  exact ⟨hheader.symm, hrecord.symm⟩

theorem Record.Valid.fields (h : r.Valid) :
    byteAt r.header 4 = 1 ∧ byteAt r.header 5 = r.recordType ∧ byteAt r.header 6 = 0 ∧
      byteAt r.header 7 = r.payloadSchemaVersion ∧
      Value.ofBigEndian ((r.header.drop 8).take 8) = r.sequence ∧
      Value.ofBigEndian (r.header.drop 16) = r.payload.length := by
  have htype := h.recordType
  have hschema := h.payloadSchemaVersion
  have hsequence := h.sequence.2
  have hpayload := h.payload
  unfold uint64Max at hsequence
  unfold hardPayloadMax at hpayload
  have hbyte {n : ℕ} (hn : n ≤ 255) : (UInt8.ofNat n).toNat = n := by
    rw [UInt8.toNat_ofNat']
    omega
  have hdrop : r.header.drop 8 = Value.bigEndian 8 r.sequence ++ Value.bigEndian 4 r.payload.length := by
    rw [header, ← List.append_assoc]
    exact List.drop_left' rfl
  have hlength : r.header.drop 16 = Value.bigEndian 4 r.payload.length := by
    have hmore : r.header.drop 16 = (r.header.drop 8).drop 8 := by rw [List.drop_drop]
    rw [hmore, hdrop]
    exact List.drop_left' (Value.bigEndian_length 8 _)
  refine ⟨?_, ?_, ?_, ?_, ?_, ?_⟩
  · rw [← h.formatVersion]
    exact hbyte (by rw [h.formatVersion]; omega)
  · exact hbyte (by omega)
  · rw [← h.flags]
    exact hbyte (by rw [h.flags]; omega)
  · exact hbyte hschema.2
  · rw [hdrop, List.take_left' (Value.bigEndian_length 8 _), Value.ofBigEndian_bigEndian,
      Nat.mod_eq_of_lt]
    rw [Value.pow_eight]
    omega
  · rw [hlength, Value.ofBigEndian_bigEndian, Nat.mod_eq_of_lt]
    rw [Value.pow_four]
    omega

/-- With the whole header there, what follows decides. -/
theorem Record.Valid.decode_head (h : r.Valid) (limit : ℕ) (tail : Binary) :
    decode (r.head ++ tail) limit = decodeBody (r.head ++ tail) limit r.recordType
      r.payloadSchemaVersion r.sequence r.payload.length (CRC32C.update CRC32C.initial r.header) := by
  obtain ⟨hversion, htype, hflags, hschema, hsequence, hlength⟩ := h.fields
  have hlong : ¬(r.head ++ tail).length < 24 := by
    rw [List.length_append, length_head]
    omega
  have hmagic : ¬(r.head ++ tail).take 4 ≠ recordMagic.take (r.head ++ tail).length := by
    have hwhole : recordMagic.take (r.head ++ tail).length = recordMagic :=
      List.take_of_length_le (show 4 ≤ (r.head ++ tail).length by omega)
    rw [not_not, hwhole]
    rfl
  have hheader : (r.head ++ tail).take 20 = r.header := by
    rw [head, List.append_assoc]
    exact List.take_left' r.length_header
  have hstored : ((r.head ++ tail).drop 20).take 4 =
      Value.bigEndian 4 (CRC32C.recordChecksums r.header r.payload).1 := by
    rw [head, List.append_assoc, List.drop_left' r.length_header,
      List.take_left' (Value.bigEndian_length 4 _)]
  have hfirst : byteAt (r.head ++ tail) 4 = 1 := hversion
  have hone : validateVersion 1 = .ok () := rfl
  have hvalid : validateMetadata r.recordType 0 r.payloadSchemaVersion r.sequence r.payload.length =
      .ok () := by
    refine validateMetadata_eq_ok.mpr ⟨rfl, ?_, ?_, ?_, ?_, h.payload⟩
    · exact Nat.pos_iff_ne_zero.mp h.recordType.1
    · exact Nat.ne_of_lt h.recordType.2
    · exact Nat.pos_iff_ne_zero.mp h.payloadSchemaVersion.1
    · exact Nat.pos_iff_ne_zero.mp h.sequence.1
  rw [decode, if_neg hmagic, if_neg (by omega), hfirst, hone]
  dsimp only
  rw [decodeHeader, if_neg hlong]
  dsimp only
  rw [hheader, hstored, finalize_update, (ofBigEndian_checksums r).1, if_pos rfl, htype, hflags,
    hschema, hsequence, hlength, hvalid]

/-- **A whole record** is read back, whatever follows it. -/
theorem Record.Valid.decode_wire (h : r.Valid) {limit : ℕ} (hlimit : r.payload.length ≤ limit)
    (rest : Binary) : decode (r.wire ++ rest) limit = .ok r rest := by
  have hdrop : (r.wire ++ rest).drop 24 =
      r.payload ++ (Value.bigEndian 4 (CRC32C.recordChecksums r.header r.payload).2 ++ rest) := by
    rw [wire, List.append_assoc, List.append_assoc]
    exact List.drop_left' r.length_head
  have hpayload : ((r.wire ++ rest).drop 24).take r.payload.length = r.payload := by
    rw [hdrop, List.take_left]
  have hstored : ((r.wire ++ rest).drop (24 + r.payload.length)).take 4 =
      Value.bigEndian 4 (CRC32C.recordChecksums r.header r.payload).2 := by
    rw [← List.drop_drop, hdrop, List.drop_left, List.take_left' (Value.bigEndian_length 4 _)]
  have hrest : (r.wire ++ rest).drop (28 + r.payload.length) = rest := by
    rw [Nat.add_comm, ← r.length_wire, List.drop_left]
  have hshort : ¬(r.wire ++ rest).length < 28 + r.payload.length := by
    rw [List.length_append, r.length_wire]
    omega
  have hhead : r.wire ++ rest =
      r.head ++ (r.payload ++ Value.bigEndian 4 (CRC32C.recordChecksums r.header r.payload).2 ++ rest) := by
    rw [wire, List.append_assoc]
  have hdecoded := h.decode_head limit
    (r.payload ++ Value.bigEndian 4 (CRC32C.recordChecksums r.header r.payload).2 ++ rest)
  rw [← hhead] at hdecoded
  rw [hdecoded, decodeBody, if_neg (by omega), if_neg hshort]
  dsimp only
  rw [hpayload, hstored, hrest, bind_update_finalize, (ofBigEndian_checksums r).2, if_pos rfl]
  have hformat := h.formatVersion
  have hflags := h.flags
  cases r with
  | mk formatVersion recordType flags schema sequence payload =>
    cases hformat
    cases hflags
    rfl

/-- A record that is cut within its header. -/
theorem Record.Valid.decode_cut_header (h : r.Valid) (limit : ℕ) {n : ℕ} (hn : n < 24) :
    decode (r.wire.take n) limit = .incompleteHeader := by
  have hlength : (r.wire.take n).length = n := by
    rw [List.length_take, r.length_wire]
    omega
  have hmagic : r.wire.take 4 = recordMagic := rfl
  have hfirst : ¬(r.wire.take n).take 4 ≠ recordMagic.take (r.wire.take n).length := by
    rw [not_not, hlength, ← hmagic, List.take_take, List.take_take, Nat.min_comm]
  rw [decode, if_neg hfirst, hlength]
  by_cases hfive : n < 5
  · rw [if_pos hfive]
  · have hbyte : byteAt (r.wire.take n) 4 = byteAt r.header 4 := by
      rw [byteAt, byteAt, List.getD_eq_getElem?_getD, List.getElem?_take_of_lt (by omega)]
      rfl
    have hone : validateVersion 1 = .ok () := rfl
    rw [if_neg hfive, hbyte, h.fields.1, hone]
    dsimp only
    rw [decodeHeader, hlength, if_pos hn]

/-- A record that is cut after its header: the header tells how long it is. -/
theorem Record.Valid.decode_cut (h : r.Valid) {limit : ℕ} (hlimit : r.payload.length ≤ limit) {n : ℕ}
    (hn : 24 ≤ n) (hlt : n < r.wire.length) :
    ∃ stage metadata, decode (r.wire.take n) limit = .incomplete stage metadata ∧
      metadata.recordBytes = r.wire.length := by
  have hlength : (r.wire.take n).length = n := by
    rw [List.length_take]
    omega
  have hhead : r.wire.take n = r.head ++ (r.wire.take n).drop 24 := by
    have hfirst : (r.wire.take n).take 24 = r.head := by
      rw [List.take_take, Nat.min_eq_left hn, wire]
      exact List.take_left' r.length_head
    conv_lhs => rw [← List.take_append_drop 24 (r.wire.take n)]
    rw [hfirst]
  have hdecoded := h.decode_head limit ((r.wire.take n).drop 24)
  rw [← hhead] at hdecoded
  have hshort : (r.wire.take n).length < 28 + r.payload.length := by
    rw [hlength]
    rw [r.length_wire] at hlt
    omega
  rw [hdecoded, decodeBody, if_neg (by omega), if_pos hshort]
  exact ⟨_, _, rfl, by rw [r.length_wire, Nat.add_comm]⟩

end Reading

/-! ## What is accepted -/

theorem bigEndian_of_length {field : Binary} {width : ℕ} (h : field.length = width) :
    Value.bigEndian width (Value.ofBigEndian field) = field := by
  subst h
  exact Value.bigEndian_ofBigEndian field

/-- Twenty bytes are the header of a record with the fields that are read from them. -/
theorem header_of_bytes {h payload : Binary} (hlength : h.length = 20) (hmagic : h.take 4 = recordMagic)
    (hversion : byteAt h 4 = 1) (hflags : byteAt h 6 = 0)
    (hpayload : payload.length = Value.ofBigEndian (h.drop 16)) :
    Record.header ⟨1, byteAt h 5, 0, byteAt h 7, Value.ofBigEndian ((h.drop 8).take 8), payload⟩ = h := by
  have hbyte : ∀ i, UInt8.ofNat (byteAt h i) = h.getD i 0 := fun i ↦ UInt8.ofNat_toNat
  have hfour : (h.drop 4).take 4 = [h.getD 4 0, h.getD 5 0, h.getD 6 0, h.getD 7 0] := by
    rw [List.drop_eq_getElem_cons (by omega), List.drop_eq_getElem_cons (by omega),
      List.drop_eq_getElem_cons (by omega), List.drop_eq_getElem_cons (by omega)]
    simp only [List.getD_eq_getElem?_getD, List.getElem?_eq_getElem (show 4 < h.length by omega),
      List.getElem?_eq_getElem (show 5 < h.length by omega), List.getElem?_eq_getElem (show 6 < h.length by omega),
      List.getElem?_eq_getElem (show 7 < h.length by omega), Option.getD_some]
    rfl
  have height : Value.bigEndian 8 (Value.ofBigEndian ((h.drop 8).take 8)) = (h.drop 8).take 8 :=
    bigEndian_of_length (by rw [List.length_take, List.length_drop]; omega)
  have hlast : Value.bigEndian 4 payload.length = h.drop 16 := by
    rw [hpayload]
    exact bigEndian_of_length (by rw [List.length_drop]; omega)
  have hparts : h = h.take 4 ++ ((h.drop 4).take 4 ++ ((h.drop 8).take 8 ++ h.drop 16)) := by
    conv_lhs => rw [← List.take_append_drop 4 h, ← List.take_append_drop 4 (h.drop 4),
      ← List.take_append_drop 8 ((h.drop 4).drop 4)]
    rw [List.drop_drop, List.drop_drop]
  have hone : UInt8.ofNat 1 = h.getD 4 0 := by rw [← hversion, hbyte]
  have hzero : UInt8.ofNat 0 = h.getD 6 0 := by rw [← hflags, hbyte]
  conv_rhs => rw [hparts]
  rw [Record.header, hmagic, hfour, height, hlast, hbyte, hbyte, hone, hzero]

/-- **What is accepted** is a record that is encoded to the bytes that were read, and the rest. -/
theorem decode_eq_ok {input rest : Binary} {limit : ℕ} {r : Record} (h : decode input limit = .ok r rest) :
    r.Valid ∧ r.payload.length ≤ limit ∧ input = r.wire ++ rest := by
  rw [decode] at h
  split at h
  · cases h
  rename_i hmagic
  split at h
  · cases h
  rename_i hfive
  split at h
  case h_2 => cases h
  rename_i u hversion
  rw [decodeHeader] at h
  split at h
  · cases h
  rename_i hlong
  dsimp only at h
  split at h
  case isFalse => cases h
  rename_i hchecked
  split at h
  case h_2 => cases h
  rename_i u' hmetadata
  rw [decodeBody] at h
  split at h
  · cases h
  rename_i hlimit
  split at h
  · cases h
  rename_i hshort
  dsimp only at h
  split at h
  case isFalse => cases h
  rename_i hsum
  cases h
  obtain ⟨hflags, htype, htype', hschema, hsequence, hpayload⟩ := validateMetadata_eq_ok.mp hmetadata
  have hbyte : ∀ i, byteAt (input.take 20) i ≤ 255 := fun i ↦ Nat.le_of_lt_succ (UInt8.toNat_lt _)
  have hone : byteAt (input.take 20) 4 = 1 := by
    rw [byteAt, List.getD_eq_getElem?_getD, List.getElem?_take_of_lt (by omega), ← List.getD_eq_getElem?_getD]
    exact validateVersion_eq_ok.mp hversion
  have hfirst : (input.take 20).take 4 = recordMagic := by
    rw [not_not, List.take_of_length_le (show recordMagic.length ≤ input.length by simp [recordMagic]; omega)]
      at hmagic
    rw [List.take_take]
    exact hmagic
  have hpayload' : ((input.drop 24).take (Value.ofBigEndian ((input.take 20).drop 16))).length =
      Value.ofBigEndian ((input.take 20).drop 16) := by
    rw [List.length_take, List.length_drop]
    omega
  have hheader := header_of_bytes (by rw [List.length_take]; omega) hfirst hone hflags hpayload'
  generalize hn : Value.ofBigEndian ((input.take 20).drop 16) = n at *
  -- The checksums that are stored are those that would be written.
  obtain ⟨hhead, hwhole⟩ := CRC32C.recordChecksums_eq (input.take 20) ((input.drop 24).take n)
  rw [finalize_update, ← hhead] at hchecked
  rw [bind_update_finalize, ← hwhole] at hsum
  have hsequence' : Value.ofBigEndian (((input.take 20).drop 8).take 8) ≤ uint64Max := by
    have hlt := Value.ofBigEndian_lt (((input.take 20).drop 8).take 8)
    have hwidth : (((input.take 20).drop 8).take 8).length = 8 := by
      rw [List.length_take, List.length_drop, List.length_take]
      omega
    rw [hwidth, Value.pow_eight] at hlt
    rw [uint64Max]
    omega
  refine ⟨⟨rfl, ⟨Nat.pos_of_ne_zero htype, ?_⟩, rfl, ⟨Nat.pos_of_ne_zero hschema, hbyte 7⟩,
    ⟨Nat.pos_of_ne_zero hsequence, hsequence'⟩, ?_⟩, ?_, ?_⟩
  · have := hbyte 5
    dsimp only
    omega
  · exact hpayload'.trans_le hpayload
  · exact hpayload'.trans_le (Nat.le_of_not_lt hlimit)
  · rw [Record.wire, Record.head, hheader, Option.some.inj hchecked, Option.some.inj hsum,
      bigEndian_of_length (by rw [List.length_take, List.length_drop]; omega),
      bigEndian_of_length (by rw [List.length_take, List.length_drop]; omega)]
    conv_lhs => rw [← List.take_append_drop 20 input, ← List.take_append_drop 4 (input.drop 20),
      ← List.take_append_drop n ((input.drop 20).drop 4), ← List.take_append_drop 4 (((input.drop 20).drop 4).drop n)]
    simp only [List.drop_drop, List.append_assoc]
    rw [Nat.add_comm 28 n, Nat.add_comm 24 n]

/-! ## The codec -/

/-- The bytes end before the record does. -/
def Decoded.incomplete? : Decoded → Bool
  | .incompleteHeader | .incomplete .. => true
  | .ok .. | .error _ => false

/-- What the encoding of a record is read as. -/
structure Reads (r : Record) (bytes : Binary) (limit : ℕ) : Prop where
  whole : ∀ rest, decode (bytes ++ rest) limit = .ok r rest
  cut : ∀ torn, torn <+: bytes → torn ≠ bytes → (decode torn limit).incomplete? = true

/-- **The codec of records.** An encoding is read as its record, and what follows it is left; any part of it that is
torn off is incomplete; and what is accepted is an encoding and a rest. -/
theorem record_codec (limit : ℕ) :
    (∀ (r : Record) (bytes : Binary), r.encode = .ok bytes → r.payload.length ≤ limit → Reads r bytes limit) ∧
      ∀ (input rest : Binary) (r : Record), decode input limit = .ok r rest →
        ∃ bytes, r.encode = .ok bytes ∧ input = bytes ++ rest := by
  refine ⟨fun r bytes h hlimit ↦ ?_, fun input rest r h ↦ ?_⟩
  · obtain ⟨hvalid, rfl⟩ := Record.encode_eq_ok.mp h
    refine ⟨hvalid.decode_wire hlimit, fun torn htorn hne ↦ ?_⟩
    have hshort : torn.length < r.wire.length :=
      lt_of_le_of_ne htorn.length_le fun heq ↦ hne (htorn.eq_of_length heq)
    rw [List.prefix_iff_eq_take.mp htorn]
    by_cases hhead : torn.length < 24
    · rw [hvalid.decode_cut_header limit hhead]
      rfl
    · obtain ⟨stage, metadata, hcut, -⟩ := hvalid.decode_cut hlimit (Nat.le_of_not_lt hhead) hshort
      rw [hcut]
      rfl
  · obtain ⟨hvalid, -, hinput⟩ := decode_eq_ok h
    exact ⟨r.wire, Record.encode_eq_ok.mpr ⟨hvalid, rfl⟩, hinput⟩

namespace Sample

def record : Record := ⟨1, 7, 0, 1, 42, [1, 2, 3]⟩

end Sample

theorem record_codec_sample : ∃ bytes, Sample.record.encode = .ok bytes ∧
    decode (bytes ++ [255]) 3 = .ok Sample.record [255] ∧ (decode (bytes.take 30) 3).incomplete? = true := by
  have hvalid : Sample.record.Valid := ⟨rfl, by decide, rfl, by decide, by decide, by decide⟩
  have hencode := Record.encode_eq_ok.mpr ⟨hvalid, rfl⟩
  have hreads := (record_codec 3).1 Sample.record _ hencode (by decide)
  refine ⟨_, hencode, hreads.whole [255], hreads.cut _ (List.take_prefix 30 _) fun heq ↦ ?_⟩
  have hlength := congrArg List.length heq
  rw [List.length_take, Record.length_wire] at hlength
  exact absurd hlength (by decide)

end Tay.Physical
