import Tay.Storage.Reader

/-!
# Publication of a compacted epoch

`Tay.Storage.V2.Publisher`. A compaction replays its source, plans the jobs to keep, writes them with
the schedules and results as a sealed base, opens an empty tail behind it, and replays what it wrote
before anything points at it. Offline, that is all. Online, the writer has gone on appending: the
records accepted since the frontier are applied to the replayed base one by one and framed into the
tail, and the tail is *not* replayed again.

Space admission, deadlines and cancellation can only refuse; they are left out.
-/

open Foundation

namespace Tay

open V2

namespace Publisher

/-! ## The base -/

/-- `Segment.max_bytes`. -/
def maxSegmentBytes : ℕ := 1073741824

/-- The base: kept jobs in id order, then the canonical events. -/
def basePayloads (jobs : Table JobId Job) (events : List AuxEvent) : List Payload :=
  jobs.toList.map (fun entry ↦ .snapshot entry.2) ++ events.map .auxiliary

/-- `encode_base_record`: a payload is checked as it is encoded. -/
def encodeBaseRecord : Payload → Except Reason Unit
  | .snapshot job => do
    let _ ← Codec.encodeSnapshot job Value.defaults
    return ()
  | .auxiliary e => do
    let _ ← e.encode Value.defaults Value.maxBytes
    return ()
  | .mutation _ => .error .recordProfile

/-- The segment being written and those sealed before it. -/
structure BaseWriter where
  current : Option SegmentFile
  sealedSegments : List SegmentFile

/-- `room`: seal the current segment when the record would pass the rotation target. -/
def room (target : ℕ) (w : BaseWriter) (r : Record) : SegmentFile × List SegmentFile :=
  match w.current with
  | none => (⟨1, r.sequence, [], false⟩, w.sealedSegments)
  | some current =>
    if current.bytes + r.bytes + 64 ≤ target then (current, w.sealedSegments)
    else (⟨current.id + 1, r.sequence, [], false⟩,
      w.sealedSegments ++ [{ current with sealed := true }])

def writeStep (target : ℕ) (w : BaseWriter) (x : Payload × ℕ) : Except Reason BaseWriter := do
  encodeBaseRecord x.1
  let r : Record := ⟨x.2, x.1⟩
  check (44 + r.bytes + 64 ≤ maxSegmentBytes) .snapshotExceedsSegment
  let next := room target w r
  return ⟨some { next.1 with records := next.1.records ++ [r] }, next.2⟩

/-- `write_base`: the sealed base segments. -/
def writeBase (target : ℕ) (payloads : List Payload) : Except Reason (List SegmentFile) := do
  let w ← fold (writeStep target) ⟨none, []⟩ (payloads.zipIdx 1)
  return match w.current with
    | none => w.sealedSegments
    | some current => w.sealedSegments ++ [{ current with sealed := true }]

def baseEntry (s : SegmentFile) : BaseEntry where
  id := s.id
  firstSequence := s.firstSequence
  lastSequence := s.firstSequence + s.records.length - 1
  bytes := s.bytes

/-! ## One publication -/

/-- What a publication is asked for. -/
structure Request where
  epochId : ℕ
  retention : Retention
  capturedAt : ℕ
  rotationTargetBytes : ℕ
  limits : CandidateLimits
  valueLimits : Value.Limits

/-- The source as it was replayed. The next availability order is handed on by an online source
only. -/
structure Source where
  epochId : ℕ
  frontier : ℕ
  jobs : Table JobId Job
  schedules : Table Binary Schedule
  results : Table JobId JobResult
  nextAvailabilityOrder : Option ℕ

/-- `auxiliary_candidate`: what the new epoch must hold. -/
def auxiliaryCandidate (q : Request) (source : Source) (jobs : Table JobId Job) : Candidate :=
  { candidate q.limits q.valueLimits with
    jobs := jobs
    schedules := source.schedules
    results := source.results.filter fun id _ ↦ (jobs[id]?).isSome }

def manifest (q : Request) (source : Source) (base : List SegmentFile) (tailFirst : ℕ) : Manifest where
  epochId := q.epochId
  sourceEpochId := some source.epochId
  sourceFrontier := source.frontier
  capturedAt := q.capturedAt
  terminalRetention := q.retention.persisted
  baseSegments := base.map baseEntry
  tailSegmentId := base.length + 1
  tailFirstSequence := tailFirst
  availabilityFrontier := source.nextAvailabilityOrder.map (· - 1)

variable (vm : Runtime)

/-- The private epoch before any delta, and its replay. -/
structure Built where
  manifest : Manifest
  base : List SegmentFile
  tail : SegmentFile
  candidate : Reader.Recovered

/-- `build_candidate`, with the plan and the comparison of the two kinds of compaction. -/
def buildCandidate (q : Request) (source : Source) (kept : Snapshot.Kept)
    (equivalent : Table JobId Job → Table JobId Job → Bool) : Except Reason Built := do
  let auxiliary := auxiliaryCandidate q source kept.jobs
  let payloads := basePayloads kept.jobs (Auxiliary.canonicalEvents auxiliary)
  let base ← writeBase q.rotationTargetBytes payloads
  let m := manifest q source base (payloads.length + 1)
  let tail : SegmentFile := ⟨base.length + 1, payloads.length + 1, [], false⟩
  let r ← Reader.recover vm ⟨m, base ++ [tail]⟩ (candidate q.limits q.valueLimits)
  check (equivalent auxiliary.jobs r.candidate.jobs && auxiliary.schedules == r.candidate.schedules &&
    auxiliary.results == r.candidate.results) .candidateMismatch
  return ⟨m, base, tail, r⟩

/-- A published epoch and the state its owner continues with. -/
structure Published where
  directory : Directory
  recovered : Reader.Recovered

/-! ## Offline -/

/-- `source_state`: sealed, or the empty highest segment. -/
def sealedSource (segments : List SegmentFile) : Bool :=
  (segments.zipIdx 1).all fun x ↦
    x.1.sealed || (x.1.records.isEmpty && x.2 == segments.length)

/-- Offline compaction: replay the sealed source, renumber what is kept, build, and replay the
published epoch once more. -/
def publish (q : Request) (d : Directory) : Except Reason Published := do
  let source ← Reader.recover vm d (candidate q.limits q.valueLimits)
  let kept ← Snapshot.prepare source.candidate.jobs q.retention q.capturedAt
  check (sealedSource d.segments) .unsealedSource
  let built ← buildCandidate vm q
    ⟨d.manifest.epochId, source.nextSequence - 1, source.candidate.jobs, source.candidate.schedules,
      source.candidate.results, none⟩ kept Snapshot.equivalent?
  let directory : Directory := ⟨built.manifest, built.base ++ [built.tail]⟩
  let recovered ← Reader.recover vm directory (candidate q.limits q.valueLimits)
  check (Snapshot.equivalent? built.candidate.candidate.jobs recovered.candidate.jobs &&
    built.candidate.candidate.schedules == recovered.candidate.schedules &&
    built.candidate.candidate.results == recovered.candidate.results) .candidateMismatch
  return ⟨directory, recovered⟩

/-! ## Online -/

/-- `catch_up_candidate`. -/
def catchUpCandidate (c : Candidate) (next : ℕ) : Except Reason Candidate := do
  check (1 ≤ next && next ≤ maxSequence + 1 && c.nextAvailabilityOrder ≤ next)
    .availabilityFrontier
  return { c with nextAvailabilityOrder := next }

/-- The logical state and the tail the delta is framed into. -/
structure Delta where
  logical : Candidate
  tail : SegmentFile

def Delta.sequence (s : Delta) : ℕ := s.tail.firstSequence + s.tail.records.length

/-- A record is framed once the logical state has accepted it. -/
def frame (s : Delta) (logical : Candidate) (p : Payload) : Except Reason Delta := do
  check (s.tail.bytes + (p.bytes + 28) + 64 ≤ maxSegmentBytes) .onlineDeltaTooLarge
  return ⟨logical, s.tail.append [⟨s.sequence, p⟩]⟩

/-- One record of `append_delta`. -/
def appendDelta (s : Delta) (p : Payload) : Except Reason Delta :=
  match p with
  | .mutation m => do
    let m ← Codec.decodeMutation m s.logical.valueLimits
    let next ← Reducer.apply vm s.logical m
    frame s next p
  | .auxiliary e => do
    let e ← Reader.decodeAux e s.logical.valueLimits
    let next ← Auxiliary.reduce vm s.logical e s.sequence
    frame s next p
  | .snapshot _ => .error .onlineDeltaRecord

/-- `recover_published_candidate` of an online compaction: the replay of the base, patched with the
caught-up state. -/
def patched (r : Reader.Recovered) (segments : List SegmentFile) (s : Delta) (next : ℕ) :
    Reader.Recovered :=
  { r with
    candidate := s.logical
    highest := some s.tail.summary
    nextSequence := next
    totalSegmentBytes := r.totalSegmentBytes - (r.highest.map Summary.bytes).getD 0 + s.tail.bytes
    segments := segments.map SegmentFile.summary }

/-- What an online source is: the segments below the excluded one, replayed. -/
def loadSource (q : Request) (d : Directory) (frontier exclude : ℕ) : Except Reason Source := do
  let r ← Reader.recoverFrozen vm d (candidate q.limits q.valueLimits) d.manifest.epochId exclude
  check (r.nextSequence - 1 == frontier) .sourceFrontierChanged
  return ⟨d.manifest.epochId, frontier, r.candidate.jobs, r.candidate.schedules,
    r.candidate.results, some r.candidate.nextAvailabilityOrder⟩

/-- The payloads of a list of segments, in log order. -/
def payloads (segments : List SegmentFile) : List Payload :=
  segments.flatMap fun s ↦ s.records.map (·.payload)

/-- What the writer has appended from segment `exclude` on. -/
def accepted (d : Directory) (exclude : ℕ) : List Payload :=
  payloads (d.segments.filter fun s ↦ exclude ≤ s.id)

/-- Online compaction of the segments of `d` below `exclude`, caught up with `delta`. -/
def publishOnline (q : Request) (d : Directory) (frontier exclude : ℕ) (delta : List Payload) :
    Except Reason Published := do
  let source ← loadSource vm q d frontier exclude
  let kept ← Snapshot.prepareOnline source.jobs q.retention q.capturedAt
  let built ← buildCandidate vm q source kept Snapshot.onlineEquivalent?
  let logical ← catchUpCandidate built.candidate.candidate (source.nextAvailabilityOrder.getD 0)
  let s ← fold (appendDelta vm) ⟨logical, built.tail⟩ delta
  let segments := built.base ++ [s.tail]
  let next ← Reader.validateTopology segments
  return ⟨⟨built.manifest, segments⟩, patched built.candidate segments s next⟩

end Publisher

end Tay
