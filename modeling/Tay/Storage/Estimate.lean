import Tay.Event.Exact
import Tay.Event.Typed
import Tay.Storage.Publisher
import Tay.Storage.Recovery
import Tay.Storage.Segment

/-!
# The size of a base, before it is written

`Publisher.estimate` adds up what a base will take, and `write_base` writes it, header by header and
record by record. They share no arithmetic: one measures every payload without encoding it and keeps
four counters, the other asks for room with the size of an encoded record. What they have in common is
`place`, the rule by which a record goes to the open segment or to a new one, and both are a run of it
over the same sizes.
-/

open Foundation

namespace Tay

open V2

namespace Publisher

/-! ## What is written -/

/-- A source of a base record: a job, or an event. -/
inductive BaseSource
  | job (job : Job)
  | event (event : Event)

/-- The kept jobs, then the canonical events. -/
def baseSources (jobs : Table JobId Job) (events : List AuxEvent) : List BaseSource :=
  jobs.toList.map (fun entry ↦ .job entry.2) ++ events.map fun e ↦ .event e.event

inductive WriteError
  | payload (reason : Reason)
  | record (error : Physical.RecordError)
  | segment (error : Physical.SegmentError)

/-- `encode_base_record`. -/
def encodeBaseSource : BaseSource → Except Reason (ℕ × ℕ × Binary)
  | .job job => do
    let payload ← Codec.encodeSnapshot job Value.defaults
    return (7, 1, payload)
  | .event event => event.encode Value.defaults Value.maxBytes

/-! ## The estimate -/

/-- `snapshot_size_validated`. -/
def snapshotSizeValidated (job : Job) (limits : Value.Limits) : Except Reason ℕ := do
  let stats ← (Codec.snapshotBody job).measure limits Value.maxBytes
  let executionBytes := if job.execution.isNone then 1 else 9
  let bytes := 16 + 8 + 8 + executionBytes + stats.encodedBytes
  check (bytes ≤ Value.maxBytes) .payloadTooLarge
  return bytes

def basePayloadSize : BaseSource → Except Reason ℕ
  | .job job => snapshotSizeValidated job Value.defaults
  | .event event => do
    let encoded ← event.encode Value.defaults Value.maxBytes
    return encoded.2.2.length

structure Sizing where
  current : ℕ
  count : ℕ
  total : ℕ
  segments : ℕ

def estimateStep (target : ℕ) (acc : Sizing) (source : BaseSource) : Except Reason Sizing := do
  let payloadBytes ← basePayloadSize source
  let size := payloadBytes + 28
  if maxSegmentBytes < 44 + size + 64 then .error .snapshotExceedsSegment
  else if 0 < acc.count ∧ target < acc.current + size + 64 then
    return ⟨44 + size, 1, acc.total + acc.current + 64, acc.segments + 1⟩
  else return { acc with current := acc.current + size, count := acc.count + 1 }

structure Estimate where
  bytes : ℕ
  baseSegments : ℕ
  deriving DecidableEq, Repr

def estimate (target : ℕ) (sources : List BaseSource) : Except Reason Estimate := do
  let acc ← fold (estimateStep target) ⟨44, 0, 0, 0⟩ sources
  if acc.count = 0 then return ⟨acc.total + 44, acc.segments⟩
  else return ⟨acc.total + acc.current + 64 + 44, acc.segments + 1⟩

/-! ## The writer -/

/-- What a write leaves in a file: the bytes before its offset, what was written, and what was already
there behind it. -/
def writeAt (file : Binary) (offset : ℕ) (bytes : Binary) : Binary :=
  file.take offset ++ bytes ++ file.drop (offset + bytes.length)

/-- The segment that is being written, with its file. -/
structure Writing where
  id : ℕ
  firstSequence : ℕ
  count : ℕ
  size : ℕ
  crc : ℕ
  file : Binary

/-- A sealed segment, with its file. -/
structure Entry where
  id : ℕ
  firstSequence : ℕ
  lastSequence : ℕ
  bytes : ℕ
  file : Binary

variable (storeId : Binary)

def beginSegment (id first : ℕ) : Except WriteError Writing := do
  let header ← (Physical.Header.encode ⟨id, first, storeId⟩).mapError .segment
  return ⟨id, first, 0, 44, (CRC32C.update CRC32C.initial header).getD 0, writeAt [] 0 header⟩

def appendRecord (current : Writing) (record : Binary) : Writing :=
  { current with
    count := current.count + 1
    size := current.size + record.length
    crc := (CRC32C.update current.crc record).getD 0
    file := writeAt current.file current.size record }

/-- `seal`. -/
def sealSegment (current : Writing) : Except WriteError Entry := do
  let last := current.firstSequence + current.count - 1
  let footer ← (Physical.Footer.encode ⟨current.id, current.firstSequence, last, current.count,
    storeId, (CRC32C.finalize current.crc).getD 0⟩).mapError .segment
  return ⟨current.id, current.firstSequence, last, current.size + footer.length,
    writeAt current.file current.size footer⟩

/-- The segment being written, the sealed ones, and the bytes of those. -/
structure Writer where
  current : Option Writing
  entries : List Entry
  bytes : ℕ

/-- `room`. -/
def makeRoom (target : ℕ) (w : Writer) (size sequence : ℕ) :
    Except WriteError (Writing × List Entry × ℕ) :=
  match w.current with
  | none => do
    let fresh ← beginSegment storeId 1 sequence
    return (fresh, w.entries, w.bytes)
  | some current =>
    if current.size + size + 64 ≤ target then return (current, w.entries, w.bytes)
    else do
      let entry ← sealSegment storeId current
      let fresh ← beginSegment storeId (current.id + 1) sequence
      return (fresh, w.entries ++ [entry], w.bytes + entry.bytes)

def writeSource (target : ℕ) (w : Writer) (x : BaseSource × ℕ) : Except WriteError Writer := do
  let encoded ← (encodeBaseSource x.1).mapError .payload
  let record ← (Physical.Record.encode
    { recordType := encoded.1
      payloadSchemaVersion := encoded.2.1
      sequence := x.2
      payload := encoded.2.2 }).mapError .record
  let r ← makeRoom storeId target w record.length x.2
  return ⟨some (appendRecord r.1 record), r.2.1, r.2.2⟩

/-- The sealed segments of a base and what they take. -/
structure Base where
  entries : List Entry
  bytes : ℕ

/-- `write_base`. -/
def writeSources (target : ℕ) (sources : List BaseSource) : Except WriteError Base := do
  let w ← fold (writeSource storeId target) ⟨none, [], 0⟩ (sources.zipIdx 1)
  match w.current with
  | none => return ⟨w.entries, w.bytes⟩
  | some current =>
    let entry ← sealSegment storeId current
    return ⟨w.entries ++ [entry], w.bytes + entry.bytes⟩

/-- The file that `write_tail` creates. -/
def writeTail (id first : ℕ) : Except WriteError Binary := do
  let header ← (Physical.Header.encode ⟨id, first, storeId⟩).mapError .segment
  return writeAt [] 0 header

/-! ## The rule they share -/

/-- The sizes of the sealed segments and of the open one. -/
structure Placed where
  closed : List ℕ
  current : Option ℕ

/-- A record goes to the open segment while its footer still fits behind it. -/
def place (target : ℕ) (p : Placed) (size : ℕ) : Placed :=
  match p.current with
  | none => ⟨p.closed, some (44 + size)⟩
  | some c =>
    if c + size + 64 ≤ target then ⟨p.closed, some (c + size)⟩
    else ⟨p.closed ++ [c + 64], some (44 + size)⟩

/-- All segments once the open one is sealed. -/
def Placed.sizes (p : Placed) : List ℕ := p.closed ++ (p.current.map (· + 64)).toList

/-- A source has a payload, and its record takes that many bytes. -/
def Sized (source : BaseSource) (size : ℕ) : Prop :=
  ∃ encoded, encodeBaseSource source = .ok encoded ∧
    encoded.2.2.length ≤ Value.maxBytes ∧ size = encoded.2.2.length + 28

/-! ## The payloads -/

theorem length_snapshotPayload (job : Job) : (Codec.snapshotPayload job).length =
    16 + 8 + 8 + (if job.execution.isNone then 1 else 9) + (Codec.snapshotBody job).wire.length := by
  unfold Codec.snapshotPayload
  cases job.execution <;>
    simp only [List.length_append, Value.bigEndian_length, List.length_cons, List.length_nil,
      Option.isNone_none, Option.isNone_some, if_true, Bool.false_eq_true, if_false]

theorem encodeSnapshot_length {job : Job} {limits : Value.Limits} {payload : Binary}
    (h : Codec.encodeSnapshot job limits = .ok payload) : payload.length ≤ Value.maxBytes := by
  simp only [Codec.encodeSnapshot, bind_eq_ok, check_eq_ok, pure_eq_ok, Except.ok.injEq,
    decide_eq_true_eq] at h
  obtain ⟨-, -, -, -, -, hlength, rfl⟩ := h
  exact hlength

/-- The size of a snapshot is the length of its payload. -/
theorem snapshotSizeValidated_eq {job : Job} {limits : Value.Limits} {payload : Binary}
    (h : Codec.encodeSnapshot job limits = .ok payload) :
    snapshotSizeValidated job limits = .ok payload.length := by
  simp only [Codec.encodeSnapshot, bind_eq_ok, check_eq_ok, pure_eq_ok, Except.ok.injEq,
    decide_eq_true_eq] at h
  obtain ⟨-, -, wire, hwire, -, hlength, rfl⟩ := h
  obtain ⟨stats, hstats, -⟩ := bind_eq_ok.mp hwire
  have hbytes : 16 + 8 + 8 + (if job.execution.isNone then 1 else 9) + stats.encodedBytes =
      (Codec.snapshotPayload job).length := by
    rw [length_snapshotPayload, Value.measure_encodedBytes hstats]
  simp only [snapshotSizeValidated, hstats, ok_bind, hbytes, pure_eq_ok]
  rw [decide_eq_true hlength, check_true, ok_bind]

theorem basePayloadSize_eq {source : BaseSource} {encoded : ℕ × ℕ × Binary}
    (h : encodeBaseSource source = .ok encoded) :
    basePayloadSize source = .ok encoded.2.2.length := by
  cases source with
  | job job =>
    simp only [encodeBaseSource, bind_eq_ok, pure_eq_ok, Except.ok.injEq] at h
    obtain ⟨payload, hpayload, rfl⟩ := h
    exact snapshotSizeValidated_eq hpayload
  | event event =>
    simp only [basePayloadSize]
    rw [show event.encode Value.defaults Value.maxBytes = .ok encoded from h, ok_bind, pure_eq_ok]

/-! ## The estimate places -/

section Sizing

variable {target : ℕ}

/-- The four counters stand for what has been placed. -/
structure Sizing.Tracks (acc : Sizing) (p : Placed) : Prop where
  total : acc.total = p.closed.sum
  segments : acc.segments = p.closed.length
  current : (p.current = none ∧ acc.count = 0 ∧ acc.current = 44) ∨
    (p.current = some acc.current ∧ 0 < acc.count)

/-- No payload is near the size of a segment. -/
theorem estimateStep_tracks {acc : Sizing} {p : Placed} {source : BaseSource} {size : ℕ}
    (h : acc.Tracks p) (hsize : Sized source size) :
    ∃ acc', estimateStep target acc source = .ok acc' ∧ acc'.Tracks (place target p size) := by
  obtain ⟨encoded, hencoded, hmax, rfl⟩ := hsize
  obtain ⟨htotal, hsegments, hcurrent⟩ := h
  have hfits : ¬maxSegmentBytes < 44 + (encoded.2.2.length + 28) + 64 := by
    unfold maxSegmentBytes
    unfold Value.maxBytes at hmax
    omega
  simp only [estimateStep, basePayloadSize_eq hencoded, ok_bind, if_neg hfits]
  rcases hcurrent with ⟨hnone, hcount, h44⟩ | ⟨hsome, hcount⟩
  · rw [if_neg (by omega)]
    refine ⟨_, rfl, ?_⟩
    rw [place, hnone]
    exact ⟨htotal, hsegments, .inr ⟨by simp only [h44], Nat.succ_pos _⟩⟩
  · rw [place, hsome]
    dsimp only
    by_cases hroom : acc.current + (encoded.2.2.length + 28) + 64 ≤ target
    · rw [if_neg (by omega), if_pos hroom]
      exact ⟨_, rfl, htotal, hsegments, .inr ⟨rfl, Nat.succ_pos _⟩⟩
    · rw [if_pos ⟨hcount, by omega⟩, if_neg hroom]
      refine ⟨_, rfl, ?_, ?_, .inr ⟨rfl, Nat.one_pos⟩⟩
      · simp only [List.sum_append, List.sum_singleton]
        omega
      · simp only [List.length_append, List.length_singleton, hsegments]

theorem fold_estimateStep_tracks {sources : List BaseSource} {sizes : List ℕ}
    (hsizes : List.Forall₂ Sized sources sizes) :
    ∀ {acc : Sizing} {p : Placed}, acc.Tracks p →
      ∃ acc', fold (estimateStep target) acc sources = .ok acc' ∧
        acc'.Tracks (sizes.foldl (place target) p) := by
  induction hsizes with
  | nil => exact fun h ↦ ⟨_, rfl, h⟩
  | cons hsize _ ih =>
    intro acc p h
    obtain ⟨next, hnext, htracks⟩ := @estimateStep_tracks target _ _ _ _ h hsize
    obtain ⟨last, hlast, hlasts⟩ := ih htracks
    exact ⟨last, by rw [fold_cons, hnext, ok_bind, hlast], hlasts⟩

/-- The estimate is the sum of the segments placed, with the tail behind them. -/
theorem estimate_of_sized {sources : List BaseSource} {sizes : List ℕ}
    (hsizes : List.Forall₂ Sized sources sizes) :
    estimate target sources = .ok
      ⟨(sizes.foldl (place target) ⟨[], none⟩).sizes.sum + 44,
        (sizes.foldl (place target) ⟨[], none⟩).sizes.length⟩ := by
  obtain ⟨acc, hfold, htotal, hsegments, hcurrent⟩ :=
    @fold_estimateStep_tracks target _ _ hsizes ⟨44, 0, 0, 0⟩ ⟨[], none⟩
      ⟨rfl, rfl, .inl ⟨rfl, rfl, rfl⟩⟩
  simp only [estimate, hfold, ok_bind, Placed.sizes]
  rcases hcurrent with ⟨hnone, hcount, -⟩ | ⟨hsome, hcount⟩
  · rw [if_pos hcount, hnone, htotal, hsegments]
    simp
  · rw [if_neg (by omega), hsome, htotal, hsegments]
    simp [Nat.add_assoc]

end Sizing

/-! ## The writer places -/

theorem writeAt_length (file bytes : Binary) : writeAt file file.length bytes = file ++ bytes := by
  rw [writeAt, List.take_length, List.drop_eq_nil_of_le (by omega), List.append_nil]

theorem beginSegment_eq_ok {storeId : Binary} {id first : ℕ} {w : Writing}
    (h : beginSegment storeId id first = .ok w) : w.size = 44 ∧ w.file.length = w.size := by
  simp only [beginSegment, bind_eq_ok, pure_eq_ok, Except.ok.injEq, mapError_eq_ok] at h
  obtain ⟨header, hheader, rfl⟩ := h
  obtain ⟨hvalid, rfl⟩ := Physical.Header.encode_eq_ok.mp hheader
  refine ⟨rfl, ?_⟩
  rw [show writeAt [] 0 _ = _ from writeAt_length [] _, List.nil_append]
  exact hvalid.length_wire

theorem appendRecord_size {w : Writing} (h : w.file.length = w.size) (record : Binary) :
    (appendRecord w record).size = w.size + record.length ∧
      (appendRecord w record).file.length = (appendRecord w record).size := by
  refine ⟨rfl, ?_⟩
  simp only [appendRecord, ← h, writeAt_length, List.length_append]

theorem sealSegment_eq_ok {storeId : Binary} {w : Writing} {entry : Entry}
    (h : sealSegment storeId w = .ok entry) (hsize : w.file.length = w.size) :
    entry.bytes = w.size + 64 ∧ entry.file.length = w.size + 64 := by
  simp only [sealSegment, bind_eq_ok, pure_eq_ok, Except.ok.injEq, mapError_eq_ok] at h
  obtain ⟨footer, hfooter, rfl⟩ := h
  obtain ⟨hvalid, rfl⟩ := Physical.Footer.encode_eq_ok.mp hfooter
  simp only [← hsize, writeAt_length, List.length_append, hvalid.length_wire, and_self]

section Writer

variable {storeId : Binary} {target : ℕ}

/-- The files have the sizes of what has been placed. -/
structure Writer.Tracks (w : Writer) (p : Placed) : Prop where
  entries : w.entries.map (fun e ↦ e.file.length) = p.closed
  bytes : w.bytes = p.closed.sum
  current : w.current.map Writing.size = p.current
  file : ∀ c ∈ w.current, c.file.length = c.size

theorem makeRoom_tracks {w : Writer} {p : Placed} {size sequence : ℕ}
    {r : Writing × List Entry × ℕ} (h : w.Tracks p)
    (hroom : makeRoom storeId target w size sequence = .ok r) (record : Binary)
    (hsize : record.length = size) :
    Writer.Tracks ⟨some (appendRecord r.1 record), r.2.1, r.2.2⟩ (place target p size) := by
  obtain ⟨hentries, hbytes, hcurrent, hfile⟩ := h
  unfold makeRoom at hroom
  split at hroom
  · next hnone =>
    obtain ⟨fresh, hfresh, hr⟩ := bind_eq_ok.mp hroom
    cases hr
    obtain ⟨h44, hlength⟩ := beginSegment_eq_ok hfresh
    obtain ⟨hnext, hnextFile⟩ := appendRecord_size hlength record
    rw [hnone, Option.map_none] at hcurrent
    rw [place, ← hcurrent]
    refine ⟨hentries, hbytes, ?_, ?_⟩
    · simp only [Option.map_some, hnext, h44, hsize]
    · rintro c hc
      cases hc
      exact hnextFile
  · next current hsome =>
    rw [hsome] at hcurrent
    have hcurrentFile := hfile current hsome
    rw [place, ← hcurrent]
    dsimp only [Option.map_some]
    split at hroom
    · next hin =>
      cases hroom
      obtain ⟨hnext, hnextFile⟩ := appendRecord_size hcurrentFile record
      rw [if_pos hin]
      refine ⟨hentries, hbytes, ?_, ?_⟩
      · simp only [Option.map_some, hnext, hsize]
      · rintro c hc
        cases hc
        exact hnextFile
    · next hout =>
      simp only [bind_eq_ok, pure_eq_ok, Except.ok.injEq] at hroom
      obtain ⟨entry, hentry, fresh, hfresh, rfl⟩ := hroom
      obtain ⟨hentryBytes, hentryFile⟩ := sealSegment_eq_ok hentry hcurrentFile
      obtain ⟨h44, hlength⟩ := beginSegment_eq_ok hfresh
      obtain ⟨hnext, hnextFile⟩ := appendRecord_size hlength record
      rw [if_neg hout]
      refine ⟨?_, ?_, ?_, ?_⟩
      · simp only [List.map_append, List.map_cons, List.map_nil, hentries, hentryFile]
      · simp only [List.sum_append, List.sum_singleton, hbytes, hentryBytes]
      · simp only [Option.map_some, hnext, h44, hsize]
      · rintro c hc
        cases hc
        exact hnextFile

theorem writeSource_tracks {w w' : Writer} {p : Placed} {source : BaseSource} {sequence : ℕ}
    (h : w.Tracks p) (hwrite : writeSource storeId target w (source, sequence) = .ok w') :
    ∃ size, Sized source size ∧ w'.Tracks (place target p size) := by
  simp only [writeSource, bind_eq_ok, pure_eq_ok, Except.ok.injEq, mapError_eq_ok] at hwrite
  obtain ⟨encoded, hencoded, record, hrecord, r, hroom, rfl⟩ := hwrite
  obtain ⟨hvalid, rfl⟩ := Physical.Record.encode_eq_ok.mp hrecord
  rw [Physical.Record.length_wire] at hroom
  refine ⟨_, ⟨encoded, hencoded, hvalid.payload, rfl⟩, makeRoom_tracks h hroom _ ?_⟩
  exact Physical.Record.length_wire _

theorem fold_writeSource_tracks {sources : List BaseSource} :
    ∀ {w w' : Writer} {p : Placed} (first : ℕ), w.Tracks p →
      fold (writeSource storeId target) w (sources.zipIdx first) = .ok w' →
      ∃ sizes, List.Forall₂ Sized sources sizes ∧ w'.Tracks (sizes.foldl (place target) p) := by
  induction sources with
  | nil =>
    intro w w' p first h hfold
    cases hfold
    exact ⟨[], .nil, h⟩
  | cons source sources ih =>
    intro w w' p first h hfold
    rw [List.zipIdx_cons, fold_cons] at hfold
    obtain ⟨next, hnext, hrest⟩ := bind_eq_ok.mp hfold
    obtain ⟨size, hsize, htracks⟩ := writeSource_tracks h hnext
    obtain ⟨sizes, hsizes, hlast⟩ := ih (first + 1) htracks hrest
    exact ⟨size :: sizes, .cons hsize hsizes, hlast⟩

/-- A base has the segments that its records are placed in. -/
theorem writeSources_sized {sources : List BaseSource} {base : Base}
    (h : writeSources storeId target sources = .ok base) :
    ∃ sizes, List.Forall₂ Sized sources sizes ∧
      base.entries.map (fun e ↦ e.file.length) =
        (sizes.foldl (place target) ⟨[], none⟩).sizes ∧
      base.bytes = (base.entries.map fun e ↦ e.file.length).sum := by
  obtain ⟨w, hfold, h⟩ := bind_eq_ok.mp h
  obtain ⟨sizes, hsizes, hentries, hbytes, hcurrent, hfile⟩ := fold_writeSource_tracks 1
    (p := ⟨[], none⟩) ⟨rfl, rfl, rfl, fun c hc ↦ by cases hc⟩ hfold
  refine ⟨sizes, hsizes, ?_⟩
  split at h
  · next hnone =>
    cases h
    rw [hnone] at hcurrent
    rw [Placed.sizes, ← hcurrent, hentries]
    exact ⟨by simp, hbytes⟩
  · next current hsome =>
    obtain ⟨entry, hentry, h⟩ := bind_eq_ok.mp h
    cases h
    rw [hsome] at hcurrent
    obtain ⟨hentryBytes, hentryFile⟩ := sealSegment_eq_ok hentry (hfile current hsome)
    rw [Placed.sizes, ← hcurrent]
    constructor
    · simp [hentries, hentryFile]
    · simp [hentries, hbytes, hentryFile, hentryBytes]

theorem writeTail_length {id first : ℕ} {tail : Binary}
    (h : writeTail storeId id first = .ok tail) : tail.length = 44 := by
  simp only [writeTail, bind_eq_ok, pure_eq_ok, Except.ok.injEq, mapError_eq_ok] at h
  obtain ⟨header, hheader, rfl⟩ := h
  obtain ⟨hvalid, rfl⟩ := Physical.Header.encode_eq_ok.mp hheader
  rw [show writeAt [] 0 _ = _ from writeAt_length [] _, List.nil_append]
  exact hvalid.length_wire

/-- The estimate of a base is what the base and its tail take, to the byte and to the segment. -/
theorem estimate_exact {jobs : Table JobId Job} {c : Candidate} {base : Base} {id first : ℕ}
    {tail : Binary}
    (hbase : writeSources storeId target (baseSources jobs (Auxiliary.canonicalEvents c)) = .ok base)
    (htail : writeTail storeId id first = .ok tail) :
    estimate target (baseSources jobs (Auxiliary.canonicalEvents c)) = .ok
        ⟨(base.entries.map fun e ↦ e.file.length).sum + tail.length, base.entries.length⟩ ∧
      base.bytes = (base.entries.map fun e ↦ e.file.length).sum := by
  obtain ⟨sizes, hsizes, hlengths, hbytes⟩ := writeSources_sized hbase
  refine ⟨?_, hbytes⟩
  rw [estimate_of_sized hsizes, writeTail_length htail, ← hlengths, List.length_map]

theorem finalize_le_mask (register : ℕ) : (CRC32C.finalize register).getD 0 ≤ CRC32C.mask := by
  unfold CRC32C.finalize
  split_ifs with hregister
  · have hlt := Nat.xor_lt_two_pow (n := 32) (x := register) (y := CRC32C.mask)
      (Nat.lt_succ_of_le hregister) (by decide)
    exact Nat.le_of_lt_succ hlt
  · exact Nat.zero_le _

/-- A base of one record is written if its payload is. -/
theorem writeSources_single {source : BaseSource} {encoded : ℕ × ℕ × Binary}
    (hstore : Physical.validStoreId? storeId = true) (hencoded : encodeBaseSource source = .ok encoded)
    (hrecord : Physical.Record.Valid
      { recordType := encoded.1
        payloadSchemaVersion := encoded.2.1
        sequence := 1
        payload := encoded.2.2 }) : ∃ base, writeSources storeId target [source] = .ok base := by
  have hone : Physical.uint64? 1 = true := by decide
  have hcount : 1 ≤ 1 ∧ 1 ≤ Physical.maxCount := by decide
  have hheader : Physical.Header.encode ⟨1, 1, storeId⟩ =
      .ok (CRC32C.checked (Physical.Header.body ⟨1, 1, storeId⟩)) :=
    Physical.Header.encode_eq_ok.mpr ⟨⟨hone, hone, hstore⟩, rfl⟩
  have hfooter (register : ℕ) : Physical.Footer.encode
      ⟨1, 1, 1, 1, storeId, (CRC32C.finalize register).getD 0⟩ =
        .ok (CRC32C.checked (Physical.Footer.body
          ⟨1, 1, 1, 1, storeId, (CRC32C.finalize register).getD 0⟩)) :=
    Physical.Footer.encode_eq_ok.mpr
      ⟨⟨hone, hone, hone, hcount, hstore, finalize_le_mask register, rfl⟩, rfl⟩
  simp [writeSources, fold, writeSource, hencoded, Physical.Record.encode_eq_ok.mpr ⟨hrecord, rfl⟩,
    Except.mapError, makeRoom, beginSegment, hheader, appendRecord, sealSegment, hfooter]

namespace Sample

open Tay.Sample

/-- A job that waits. -/
def waiting : Job :=
  ⟨1, definition, definition.toValue.wire, .available, 0, some 1, 1, none, some 10, none, some 1,
    10, none, none, none, none, 1, none⟩

def waitingJobs : Table JobId Job := (∅ : Table JobId Job).insert 1 waiting

end Sample

theorem estimate_exact_sample :
    ∃ base tail, writeSources (List.replicate 16 1) 16777352
        (baseSources Sample.waitingJobs (Auxiliary.canonicalEvents Tay.Sample.fresh)) = .ok base ∧
      writeTail (List.replicate 16 1) 2 2 = .ok tail ∧
      estimate 16777352 (baseSources Sample.waitingJobs (Auxiliary.canonicalEvents Tay.Sample.fresh)) =
        .ok ⟨(base.entries.map fun e ↦ e.file.length).sum + tail.length, 1⟩ := by
  obtain ⟨payload, hpayload⟩ := exists_ok (x := Codec.encodeSnapshot Sample.waiting Value.defaults)
    (by decide +kernel)
  have hencoded : encodeBaseSource (.job Sample.waiting) = .ok (7, 1, payload) := by
    rw [encodeBaseSource, hpayload]
    rfl
  have hsources : baseSources Sample.waitingJobs (Auxiliary.canonicalEvents Tay.Sample.fresh) =
      [.job Sample.waiting] := rfl
  have htype : 0 < 7 ∧ 7 < 255 := by decide
  have hschema : 0 < 1 ∧ 1 ≤ 255 := by decide
  have hsequence : 0 < 1 ∧ 1 ≤ Physical.uint64Max := by decide
  obtain ⟨base, hbase⟩ : ∃ base,
      writeSources (List.replicate 16 1) 16777352 [.job Sample.waiting] = .ok base :=
    writeSources_single (by decide) hencoded
      ⟨rfl, htype, rfl, hschema, hsequence, encodeSnapshot_length hpayload⟩
  rw [← hsources] at hbase
  obtain ⟨tail, htail⟩ := exists_ok (x := writeTail (List.replicate 16 1) 2 2) (by decide +kernel)
  have hexact := (estimate_exact hbase htail).1
  have hone : ((estimate 16777352 (baseSources Sample.waitingJobs
      (Auxiliary.canonicalEvents Tay.Sample.fresh))).toOption.map Estimate.baseSegments) = some 1 := by
    decide +kernel
  rw [hexact] at hone
  have hlength : base.entries.length = 1 := Option.some.inj hone
  rw [hlength] at hexact
  exact ⟨base, tail, hbase, htail, hexact⟩

end Writer

/-! ## The segments of the model -/

/-- The source of a payload of the base. -/
def sourceOf : Payload → Option BaseSource
  | .snapshot job => some (.job job)
  | .auxiliary e => some (.event e.event)
  | .mutation _ => none

theorem basePayloads_sources (jobs : Table JobId Job) (events : List AuxEvent) :
    (basePayloads jobs events).map sourceOf = (baseSources jobs events).map some := by
  simp [basePayloads, baseSources, sourceOf, Function.comp_def]

/-- The payload that is encoded is as long as the one of the model. -/
theorem Sized.payload {x : Payload} {source : BaseSource} {size : ℕ} (h : Sized source size)
    (hx : sourceOf x = some source) : size = x.bytes + 28 := by
  obtain ⟨encoded, hencoded, -, rfl⟩ := h
  cases x with
  | snapshot job =>
    cases hx
    simp only [encodeBaseSource, Codec.encodeSnapshot, bind_eq_ok, pure_eq_ok, Except.ok.injEq]
      at hencoded
    obtain ⟨-, ⟨-, -, -, -, -, -, rfl⟩, rfl⟩ := hencoded
    rfl
  | auxiliary e =>
    cases hx
    simp only [encodeBaseSource, Event.encode, bind_eq_ok, pure_eq_ok, Except.ok.injEq] at hencoded
    obtain ⟨-, -, -, -, wire, hwire, -, -, -, -, payload, hpayload, rfl⟩ := hencoded
    rw [show e.event.recordType = e.body.code from rfl, encodeIdentity_auxEvent e] at hwire
    cases hwire
    obtain ⟨-, rfl⟩ := Value.encode_eq_ok.mp hpayload
    rfl
  | mutation m => cases hx

section BaseWriter

variable {target : ℕ}

/-- The segments of the model have the sizes of what has been placed. -/
structure BaseWriter.Tracks (w : BaseWriter) (p : Placed) : Prop where
  closed : w.sealedSegments.map SegmentFile.bytes = p.closed
  current : w.current.map SegmentFile.bytes = p.current
  unsealed : ∀ c ∈ w.current, c.sealed = false

theorem bytes_sealed {c : SegmentFile} (h : c.sealed = false) :
    SegmentFile.bytes { c with sealed := true } = c.bytes + 64 := by
  simp [SegmentFile.bytes, h]

theorem bytes_append {c : SegmentFile} (r : Record) :
    SegmentFile.bytes { c with records := c.records ++ [r] } = c.bytes + r.bytes := by
  simp only [SegmentFile.bytes, List.map_append, List.map_cons, List.map_nil, List.sum_append,
    List.sum_singleton]
  omega

theorem writeStep_tracks {w w' : BaseWriter} {p : Placed} {x : Payload} {sequence : ℕ}
    (h : w.Tracks p) (hwrite : writeStep target w (x, sequence) = .ok w') :
    w'.Tracks (place target p (x.bytes + 28)) := by
  obtain ⟨hclosed, hcurrent, hunsealed⟩ := h
  simp only [writeStep, bind_eq_ok, pure_eq_ok, Except.ok.injEq] at hwrite
  obtain ⟨-, -, -, -, rfl⟩ := hwrite
  have hsize : Record.bytes ⟨sequence, x⟩ = x.bytes + 28 := rfl
  unfold room
  split
  · next hnone =>
    rw [hnone, Option.map_none] at hcurrent
    rw [place, ← hcurrent]
    exact ⟨hclosed, rfl, fun c hc ↦ by cases hc; rfl⟩
  · next current hsome =>
    rw [hsome, Option.map_some] at hcurrent
    rw [place, ← hcurrent, hsize]
    dsimp only
    have hopen := hunsealed current hsome
    by_cases hin : current.bytes + (x.bytes + 28) + 64 ≤ target
    · rw [if_pos hin, if_pos hin]
      refine ⟨hclosed, ?_, fun c hc ↦ by cases hc; exact hopen⟩
      simp only [Option.map_some, bytes_append, hsize]
    · rw [if_neg hin, if_neg hin]
      refine ⟨?_, ?_, fun c hc ↦ by cases hc; rfl⟩
      · simp only [List.map_append, List.map_cons, List.map_nil, hclosed, bytes_sealed hopen]
      · rfl

theorem fold_writeStep_tracks {payloads : List Payload} :
    ∀ {w w' : BaseWriter} {p : Placed} (first : ℕ), w.Tracks p →
      fold (writeStep target) w (payloads.zipIdx first) = .ok w' →
      w'.Tracks ((payloads.map fun x ↦ x.bytes + 28).foldl (place target) p) := by
  induction payloads with
  | nil =>
    intro w w' p first h hfold
    cases hfold
    exact h
  | cons x payloads ih =>
    intro w w' p first h hfold
    rw [List.zipIdx_cons, fold_cons] at hfold
    obtain ⟨next, hnext, hrest⟩ := bind_eq_ok.mp hfold
    exact ih (first + 1) (writeStep_tracks h hnext) hrest

theorem writeBase_sized {payloads : List Payload} {segments : List SegmentFile}
    (h : writeBase target payloads = .ok segments) :
    segments.map SegmentFile.bytes =
      ((payloads.map fun x ↦ x.bytes + 28).foldl (place target) ⟨[], none⟩).sizes := by
  obtain ⟨w, hfold, h⟩ := bind_eq_ok.mp h
  obtain ⟨hclosed, hcurrent, hunsealed⟩ := fold_writeStep_tracks 1 (p := ⟨[], none⟩)
    ⟨rfl, rfl, fun c hc ↦ by cases hc⟩ hfold
  cases h
  rw [Placed.sizes, ← hcurrent, ← hclosed]
  split
  · next hnone => simp [hnone]
  · next current hsome => simp [hsome, bytes_sealed (hunsealed current hsome)]

/-- The files of a base have the sizes of its segments in the model. -/
theorem writeSources_segments {storeId : Binary} {jobs : Table JobId Job} {events : List AuxEvent}
    {base : Base} {segments : List SegmentFile}
    (hbase : writeSources storeId target (baseSources jobs events) = .ok base)
    (hsegments : writeBase target (basePayloads jobs events) = .ok segments) :
    base.entries.map (fun e ↦ e.file.length) = segments.map SegmentFile.bytes := by
  obtain ⟨sizes, hsizes, hlengths, -⟩ := writeSources_sized hbase
  have hsame : ∀ {payloads : List Payload} {sources : List BaseSource} {sizes : List ℕ},
      payloads.map sourceOf = sources.map some → List.Forall₂ Sized sources sizes →
      payloads.map (fun x ↦ x.bytes + 28) = sizes := by
    intro payloads sources sizes heq hsizes
    induction hsizes generalizing payloads with
    | nil =>
      rw [List.map_nil, List.map_eq_nil_iff] at heq
      rw [heq, List.map_nil]
    | cons hsize _ ih =>
      obtain ⟨x, xs, rfl, hx, hxs⟩ := List.map_eq_cons_iff.mp heq
      rw [List.map_cons, ih hxs, ← hsize.payload hx]
  rw [hlengths, writeBase_sized hsegments, hsame (basePayloads_sources jobs events) hsizes]

end BaseWriter

end Publisher

end Tay
