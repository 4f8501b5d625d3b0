import Tay.State.Auxiliary
import Tay.Storage.Reducer
import Tay.Storage.Snapshot

/-!
# Recovery

`Tay.Storage.V2.Reader`: replaying an epoch directory. A directory is what the lock-owning session
reads from it: the manifest `CURRENT` points at and the parsed segment files, in id order. The base
segments named by the manifest hold snapshots; the tail and everything after it hold mutations; both
may hold auxiliary events.

Checksums, digests and file identities are not represented: a segment here is one whose bytes have
been accepted.
-/

open Foundation

namespace Tay

open V2

/-! ## Records and segments -/

/-- What a record's payload says. -/
inductive Payload
  | snapshot (job : Job)
  | mutation (m : Mutation)
  | auxiliary (e : AuxEvent)
  deriving DecidableEq

/-- `byte_size(payload)`. -/
def Payload.bytes : Payload → ℕ
  | .snapshot job => (Codec.snapshotPayload job).length
  | .mutation m => (Codec.mutationPayload m).length
  | .auxiliary e => e.toValue.wire.length

structure Record where
  sequence : ℕ
  payload : Payload
  deriving DecidableEq

/-- A framed record: 24 bytes of header, the payload, 4 bytes of checksum. -/
def Record.bytes (r : Record) : ℕ := r.payload.bytes + 28

/-- A segment file: 44 bytes of header, records, and 64 bytes of footer once sealed. -/
structure SegmentFile where
  id : ℕ
  firstSequence : ℕ
  records : List Record
  sealed : Bool
  deriving DecidableEq

def SegmentFile.bytes (s : SegmentFile) : ℕ :=
  44 + (s.records.map Record.bytes).sum + if s.sealed then 64 else 0

/-- The segment with more records at its end. -/
def SegmentFile.append (s : SegmentFile) (records : List Record) : SegmentFile :=
  { s with records := s.records ++ records }

/-- What a scan reports of a segment. -/
structure Summary where
  id : ℕ
  firstSequence : ℕ
  lastSequence : Option ℕ
  count : ℕ
  bytes : ℕ
  sealed : Bool
  deriving DecidableEq, Repr

def SegmentFile.summary (s : SegmentFile) : Summary where
  id := s.id
  firstSequence := s.firstSequence
  lastSequence := (s.records.getLast?).map (·.sequence)
  count := s.records.length
  bytes := s.bytes
  sealed := s.sealed

structure BaseEntry where
  id : ℕ
  firstSequence : ℕ
  lastSequence : ℕ
  bytes : ℕ
  deriving DecidableEq, Repr

structure Manifest where
  epochId : ℕ
  sourceEpochId : Option ℕ
  sourceFrontier : ℕ
  capturedAt : ℕ
  terminalRetention : Retention
  baseSegments : List BaseEntry
  tailSegmentId : ℕ
  tailFirstSequence : ℕ
  availabilityFrontier : Option ℕ
  deriving DecidableEq, Repr

/-- An epoch directory. -/
structure Directory where
  manifest : Manifest
  segments : List SegmentFile
  deriving DecidableEq

namespace Reader

/-! ## One record -/

structure State where
  candidate : Candidate
  nextSequence : ℕ
  lastSnapshotId : Option JobId
  deriving DecidableEq

variable (vm : Runtime)

/-- `Event.decode_payload` on an auxiliary event. -/
def decodeAux (e : AuxEvent) (limits : Value.Limits) : Except Reason AuxEvent := do
  let _ ← e.toValue.measure limits Value.maxBytes
  check (validateAux e) .invalidEvent
  return e

def consumeKind (s : State) (r : Record) (base? : Bool) :
    Except Reason (Candidate × Option JobId) :=
  match r.payload, base? with
  | .snapshot job, true => do
    let job ← Codec.decodeSnapshot job s.candidate.valueLimits
    check (s.lastSnapshotId.all (· < job.id)) .snapshotOrder
    let next ← Reducer.insertSnapshot vm s.candidate job
    return (next, some job.id)
  | .mutation m, false => do
    let m ← Codec.decodeMutation m s.candidate.valueLimits
    let next ← Reducer.apply vm s.candidate m
    return (next, s.lastSnapshotId)
  | .auxiliary e, _ => do
    let e ← decodeAux e s.candidate.valueLimits
    let next ← Auxiliary.reduce vm s.candidate e r.sequence
    return (next, s.lastSnapshotId)
  | _, _ => .error .recordProfile

def consume (base? : Bool) (s : State) (r : Record) : Except Reason State := do
  check (r.sequence == s.nextSequence) .physicalSequence
  let next ← consumeKind vm s r base?
  return ⟨next.1, s.nextSequence + 1, next.2⟩

/-! ## One segment -/

/-- The physical checks of a scan: consecutive sequences from the header's, a footer only on a
segment with records, and no footer missing before the highest segment. -/
def wellFormed (s : SegmentFile) (highest : Bool) : Bool :=
  (s.records.map (·.sequence)) == List.range' s.firstSequence s.records.length &&
    (if s.sealed then 0 < s.records.length else highest)

def seedAvailabilityFrontier (s : State) (m : Manifest) (ordinal : ℕ) : Except Reason State :=
  if ordinal == m.baseSegments.length + 1 then
    match m.availabilityFrontier with
    | none => .ok s
    | some frontier => do
      check (s.candidate.nextAvailabilityOrder ≤ frontier + 1) .availabilityFrontier
      return { s with candidate := { s.candidate with nextAvailabilityOrder := frontier + 1 } }
  else .ok s

def segmentProfile (s : SegmentFile) (m : Manifest) (ordinal : ℕ) : Except Reason Unit :=
  match m.baseSegments[ordinal - 1]? with
  | some entry =>
    check (s.sealed && s.id == entry.id && s.firstSequence == entry.firstSequence &&
      s.summary.lastSequence == some entry.lastSequence && s.bytes == entry.bytes) .baseInventory
  | none =>
    check (ordinal != m.baseSegments.length + 1 || s.firstSequence == m.tailFirstSequence)
      .tailFrontier

/-- One segment of `scan_all`: seed the frontier, replay the records, check the profile. -/
def scanSegment (m : Manifest) (total : ℕ) (s : State) (x : SegmentFile × ℕ) :
    Except Reason State := do
  let s ← seedAvailabilityFrontier s m x.2
  check (wellFormed x.1 (x.2 == total)) .topology
  let s ← fold (consume vm (x.2 ≤ m.baseSegments.length)) s x.1.records
  segmentProfile x.1 m x.2
  return s

def scanAll (m : Manifest) (segments : List SegmentFile) (c : Candidate) : Except Reason State :=
  fold (scanSegment vm m segments.length) ⟨c, 1, none⟩ (segments.zipIdx 1)

/-! ## A directory -/

/-- One step of `validate_topology`: the sequence the next segment must start at. -/
def topologyStep (total : ℕ) (next : ℕ) (x : SegmentFile × ℕ) : Except Reason ℕ := do
  check (x.1.id == x.2 && x.1.firstSequence == next && (x.2 == total || x.1.sealed)) .topology
  return match x.1.summary.lastSequence with | some last => last + 1 | none => next

def validateTopology (segments : List SegmentFile) : Except Reason ℕ := do
  check (!segments.isEmpty) .topology
  fold (topologyStep segments.length) 1 (segments.zipIdx 1)

/-- What recovery returns of a directory. -/
structure Recovered where
  candidate : Candidate
  highest : Option Summary
  nextSequence : ℕ
  totalSegmentBytes : ℕ
  segmentCount : ℕ
  epochId : ℕ
  manifest : Manifest
  segments : List Summary
  deriving DecidableEq

def summarize (m : Manifest) (segments : List SegmentFile) (s : State) : Recovered where
  candidate := s.candidate
  highest := segments.getLast?.map SegmentFile.summary
  nextSequence := s.nextSequence
  totalSegmentBytes := (segments.map SegmentFile.bytes).sum
  segmentCount := segments.length
  epochId := m.epochId
  manifest := m
  segments := segments.map SegmentFile.summary

def replay (m : Manifest) (segments : List SegmentFile) (c : Candidate) :
    Except Reason Recovered := do
  check (m.baseSegments.length + 1 ≤ segments.length) .tailMissing
  check (m.tailSegmentId == m.baseSegments.length + 1) .tailId
  check (segments.map (·.id) == List.range' 1 segments.length) .segmentIds
  let s ← scanAll vm m segments c
  let _ ← validateTopology segments
  check (segments[m.baseSegments.length]?.any (·.firstSequence == m.tailFirstSequence))
    .tailFrontier
  return summarize m segments s

/-- One step of `valid_base?`: base entries are consecutive and the tail follows them. -/
def baseStep (next : Option ℕ) (x : BaseEntry × ℕ) : Option ℕ :=
  next.bind fun n ↦
    if x.1.id == x.2 && x.1.firstSequence == n && n ≤ x.1.lastSequence &&
      x.1.lastSequence ≤ maxSequence && 64 ≤ x.1.bytes && x.1.bytes ≤ 1073741824 then
      some (x.1.lastSequence + 1)
    else none

def validBase? (m : Manifest) : Bool :=
  (m.baseSegments.zipIdx 1).foldl baseStep (some 1) == some m.tailFirstSequence &&
    m.tailSegmentId == m.baseSegments.length + 1 && 1 ≤ m.tailFirstSequence &&
    m.tailFirstSequence ≤ maxSequence

/-- `Authority.manifest?` on the fields that are represented. -/
def manifest? (m : Manifest) : Bool :=
  m.sourceFrontier ≤ maxSequence && m.availabilityFrontier.all (· ≤ maxSequence) &&
    time? m.capturedAt && m.terminalRetention.validate && validBase? m

/-- `classify_entries`: the segment names are 1, 2, … without a gap. -/
def contiguous? (segments : List SegmentFile) : Bool :=
  segments.map (·.id) == List.range' 1 segments.length

def recover (d : Directory) (c : Candidate) : Except Reason Recovered := do
  check (manifest? d.manifest) .manifestFields
  check (contiguous? d.segments) .segmentIds
  replay vm d.manifest d.segments c

/-- `replay_frozen`: the three branches, on the segments below the excluded one. -/
def replayFrozen (m : Manifest) (canonical : List SegmentFile) (c : Candidate) (exclude : ℕ) :
    Except Reason Recovered :=
  if m.baseSegments.length + 1 ≤ canonical.length then replay vm m canonical c
  else if canonical.isEmpty && m.baseSegments.isEmpty && m.tailFirstSequence == 1 &&
      exclude == m.tailSegmentId then
    .ok (summarize m [] ⟨c, 1, none⟩)
  else if canonical.length == m.baseSegments.length && exclude == m.tailSegmentId then do
    let s ← scanAll vm m canonical c
    let _ ← validateTopology canonical
    check (s.nextSequence == m.tailFirstSequence) .tailFrontier
    return summarize m canonical s
  else .error .sourceSegmentsMissing

def recoverFrozen (d : Directory) (c : Candidate) (epochId exclude : ℕ) :
    Except Reason Recovered := do
  check (d.manifest.epochId == epochId) .sourceEpochChanged
  check (manifest? d.manifest) .manifestFields
  check (contiguous? d.segments) .segmentIds
  replayFrozen vm d.manifest (d.segments.filter fun s ↦ s.id < exclude) c exclude

end Reader

end Tay
