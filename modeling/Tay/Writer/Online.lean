import Tay.Engine.Persistence

/-!
# Online compaction in the writer

`Tay.Storage.Writer`, `Writer.OnlineCompaction` and `Writer.OnlineCompactionLifecycle`. While a
builder process writes the compacted epoch, the writer goes on appending to the old one and journals
every record it appends. The builder polls the journal and applies what it gets. When little is left
it asks for a freeze; from then on appends are queued, the rest of the journal goes to the builder,
and the builder publishes. However that ends, the writer must get back to a segment it can append to
and deal with the queue.

Native requests can fail at any point. How each one ends is an argument of the handler that makes it,
so the handlers are functions of the state, the message and the answers of the native helper.
-/

open Foundation

namespace Tay.Writer

/-- Why a writer was poisoned, or an online compaction ended. -/
inductive Failure
  /-- Any error of the native helper, of the builder's own checks, or a passed deadline. -/
  | native
  | compactionCancelled
  | checkpointDeltaOverloaded
  | unknownPublicationOutcome
  | builderExit
  | compactionAbortFailed (reason : Failure)
  | compactionSourceResumeFailed (reason : Failure)
  | compactionReconciliationFailed (reason : Failure)
  | helperExit
  | unsolicitedNativeReply
  deriving DecidableEq, Repr

/-- A caller that waits for a reply: its calls are numbered. -/
abbrev Caller := ℕ

/-! ## The journal -/

/-- `CompactionLimits.catch_up_target_events`. -/
def catchUpTargetEvents : ℕ := 1024

/-- `CompactionLimits.catch_up_target_bytes`. -/
def catchUpTargetBytes : ℕ := 1048576

/-- `CompactionLimits.catch_up_max_rounds`. -/
def catchUpMaxRounds : ℕ := 64

/-- The `online_compaction` field of the writer. The two lists have their newest element first. -/
structure Online where
  token : ℕ
  /-- The shared flag that stops the builder's native requests. -/
  cancelFlag : Bool
  abortReason : Option Failure
  delta : List Payload
  deltaEvents : ℕ
  deltaBytes : ℕ
  maxDeltaEvents : ℕ
  maxDeltaBytes : ℕ
  freezing : Bool
  frozen : Bool
  pending : List (Caller × Payload)
  deriving DecidableEq

namespace Online

def new (token : ℕ) : Online where
  token := token
  cancelFlag := false
  abortReason := none
  delta := []
  deltaEvents := 0
  deltaBytes := 0
  maxDeltaEvents := 65536
  maxDeltaBytes := 67108864
  freezing := false
  frozen := false
  pending := []

def clearDelta (o : Online) : Online := { o with delta := [], deltaEvents := 0, deltaBytes := 0 }

def drain (o : Online) : List Payload × Online := (o.delta.reverse, o.clearDelta)

/-- The two answers to a freeze request. -/
inductive Freeze
  | catchUp (records : List Payload) (next : Online)
  | freeze (next : Online)

def freeze (o : Online) : Freeze :=
  if catchUpTargetEvents < o.deltaEvents || catchUpTargetBytes < o.deltaBytes then
    .catchUp o.drain.1 o.drain.2
  else .freeze { o with freezing := true }

def finishFreeze (o : Online) : List Payload × Online :=
  (o.delta.reverse, { o.clearDelta with freezing := false, frozen := true })

/-- Journal an appended record. A journal that grows over its limits is dropped, and the builder is
stopped for good. -/
def journal (o : Online) (record : Payload) : Online :=
  if o.frozen = false ∧ o.abortReason = none then
    let next := { o with
      delta := record :: o.delta
      deltaEvents := o.deltaEvents + 1
      deltaBytes := o.deltaBytes + record.bytes + 28 }
    if next.maxDeltaEvents < next.deltaEvents || next.maxDeltaBytes < next.deltaBytes then
      { next.clearDelta with
        cancelFlag := true
        abortReason := some .checkpointDeltaOverloaded }
    else next
  else o

def queue (o : Online) (caller : Caller) (request : Payload) : Online :=
  { o with pending := (caller, request) :: o.pending }

end Online

/-! ## The writer's state -/

structure State where
  epochId : ℕ
  segment : SegmentView
  nextSequence : ℕ
  rotationTargetBytes : ℕ
  poisoned : Option Failure
  /-- The engine's admission reference is still the current one. -/
  admitted : Bool
  online : Option Online
  deriving DecidableEq

/-- The reply to an append. -/
inductive Reply
  | ok (receipt : Receipt)
  /-- The record was the first one written to the epoch just published. -/
  | switched (receipt : Receipt) (stats : Engine.OnlineCheckpoint.Stats)
  | error (reason : Reason)
  | uncertain (reason : Failure)
  | mutationNotAdmitted
  | poisoned (reason : Failure)
  deriving DecidableEq

/-- How an online compaction ended, as the engine is told. -/
inductive Result
  | ok (stats : Engine.OnlineCheckpoint.Stats) (delivered : Bool)
  | error (reason : Failure)
  deriving DecidableEq

/-- What the writer sends while it handles one message. -/
inductive Sent
  | reply (caller : Caller) (reply : Reply)
  | catchUp (records : List Payload)
  | final (records : List Payload)
  | freezeFailed
  | switchRequested (token : ℕ)
  | result (token : ℕ) (result : Result)
  /-- The notice to the lifecycle observer. -/
  | poisonedNotice
  deriving DecidableEq

/-- `Session.poison`: only the first failure counts. -/
def poison (s : State) (reason : Failure) : State × List Sent :=
  match s.poisoned with
  | some _ => (s, [])
  | none => ({ s with poisoned := some reason, admitted := false }, [.poisonedNotice])

/-! ## Appends -/

/-- Whether an append of `bytes` opens a new segment; an empty active segment is never rotated. -/
def rotates (s : State) (bytes : ℕ) : Bool :=
  0 < s.segment.count &&
    (s.segment.sealed || s.rotationTargetBytes < s.segment.bytes + bytes + 28 + 64)

/-- The receipt of an append that succeeds. -/
def receipt (s : State) (bytes : ℕ) : Receipt where
  sequence := s.nextSequence
  segmentId := s.segment.id + if rotates s bytes then 1 else 0
  offset := if rotates s bytes then 44 else s.segment.bytes

/-- The segment and the sequence number after an append. -/
def append (s : State) (bytes : ℕ) : State :=
  { s with
    segment :=
      { id := (receipt s bytes).segmentId
        sealed := false
        bytes := (receipt s bytes).offset + bytes + 28
        count := if rotates s bytes then 1 else s.segment.count + 1
        sealed_count := fun h ↦ nomatch h }
    nextSequence := s.nextSequence + 1 }

def journalCompaction (s : State) (record : Payload) : State :=
  { s with online := s.online.map fun o ↦ if o.frozen then o else o.journal record }

/-- `mutate` on an append request. -/
def mutate (s : State) (request : Payload) (io : Except Failure Unit) : Reply × State × List Sent :=
  if maxId < s.nextSequence then (.error .sequenceExhausted, s, [])
  else if rotates s request.bytes && s.segment.id == maxId then (.error .segmentIdExhausted, s, [])
  else match io with
    | .ok () =>
      (.ok (receipt s request.bytes), journalCompaction (append s request.bytes) request, [])
    | .error reason => (.uncertain reason, poison s reason)

/-- An append call: queued while frozen, refused when poisoned. -/
def handleAppend (s : State) (caller : Caller) (request : Payload) (io : Except Failure Unit) :
    State × List Sent :=
  match s.online with
  | some o =>
    if o.frozen then
      if s.admitted then ({ s with online := some (o.queue caller request) }, [])
      else (s, [.reply caller .mutationNotAdmitted])
    else direct
  | none => direct
where
  direct : State × List Sent :=
    match s.poisoned with
    | some reason => (s, [.reply caller (.poisoned reason)])
    | none =>
      if s.admitted then
        let r := mutate s request io
        (r.2.1, r.2.2 ++ [.reply caller r.1])
      else (s, [.reply caller .mutationNotAdmitted])

/-! ## The freeze -/

def poll (s : State) (o : Online) : State × List Sent :=
  ({ s with online := some o.drain.2 }, [.catchUp o.drain.1])

def freeze (s : State) (o : Online) : State × List Sent :=
  match o.freeze with
  | .catchUp records next => ({ s with online := some next }, [.catchUp records])
  | .freeze next => ({ s with online := some next }, [.switchRequested o.token])

/-- The engine acknowledges the freeze; `io` is the outcome of the sync and the close. -/
def finishFreeze (s : State) (o : Online) (io : Except Failure Unit) : State × List Sent :=
  match io with
  | .ok () => ({ s with online := some o.finishFreeze.2 }, [.final o.finishFreeze.1])
  | .error reason => ((poison s reason).1, .freezeFailed :: (poison s reason).2)

/-! ## The end -/

/-- A published epoch: its report, with the highest segment the writer reopens. -/
structure Published where
  stats : Engine.OnlineCheckpoint.Stats
  segment : SegmentView
  highest : stats.recovered.highest.bind Summary.view? = some segment
  deriving DecidableEq

/-- `tagged_reply`: the first success on a new epoch carries the epoch. -/
def taggedReply (reply : Reply) (stats : Option Engine.OnlineCheckpoint.Stats)
    (delivered : Bool) : Reply :=
  match reply, stats, delivered with
  | .ok receipt, some stats, false => .switched receipt stats
  | reply, _, _ => reply

def Reply.isSwitched : Reply → Bool
  | .switched .. => true
  | _ => false

/-- `resume_pending`, on the queue in order of arrival. `io` answers the native writes. -/
def resumePending (s : State) (stats : Option Engine.OnlineCheckpoint.Stats)
    (io : Caller → Except Failure Unit) (delivered : Bool) :
    List (Caller × Payload) → State × List Sent × Bool
  | [] => (s, [], delivered)
  | (caller, request) :: rest =>
    let r := mutate s request (io caller)
    let reply := taggedReply r.1 stats delivered
    let next := resumePending r.2.1 stats io (delivered || reply.isSwitched) rest
    (next.1, r.2.2 ++ .reply caller reply :: next.2.1, next.2.2)

/-- How the native requests at the end of a compaction turn out. -/
structure Ending where
  /-- `v2_abort`. -/
  abort : Bool
  /-- `open_active`. -/
  reopen : Bool
  /-- The lock is reacquired and the store recovers as one of the two epochs. -/
  recovered : Bool
  /-- `enable_mutations`. -/
  enabled : Bool
  /-- The appends of the queue. -/
  io : Caller → Except Failure Unit

/-- Report a failure and stop. -/
def giveUp (s : State) (o : Online) (reason : Failure) : State × List Sent :=
  ((poison s reason).1, .result o.token (.error reason) :: (poison s reason).2)

def complete (s : State) (o : Online) (p : Published) (e : Ending) : State × List Sent :=
  if e.reopen then
    let next := { s with
      epochId := p.stats.recovered.epochId
      segment := p.segment
      nextSequence := p.stats.recovered.nextSequence
      online := none }
    let r := resumePending next (some p.stats) e.io false o.pending.reverse
    (r.1, r.2.1 ++ [.result o.token (.ok p.stats r.2.2)])
  else giveUp s o .native

def abortPreparation (s : State) (o : Online) (reason : Failure) (e : Ending) :
    State × List Sent :=
  if e.abort then ({ s with online := none }, [.result o.token (.error reason)])
  else giveUp s o (.compactionAbortFailed reason)

def resumeSource (s : State) (o : Online) (reason : Failure) (e : Ending) : State × List Sent :=
  if e.abort && e.reopen then
    let r := resumePending { s with online := none } none e.io false o.pending.reverse
    (r.1, r.2.1 ++ [.result o.token (.error reason)])
  else giveUp s o (.compactionSourceResumeFailed reason)

/-- `reconcile_unknown_publication`. `landed` is what CURRENT names: the new epoch, with its report,
or the old one. -/
def reconcileUnknownPublication (s : State) (o : Online) (reason : Failure)
    (landed : Option Published) (e : Ending) : State × List Sent :=
  if e.recovered && e.enabled then
    match landed with
    | some p => complete s o p e
    | none => resumeSource s o reason e
  else giveUp s o (.compactionReconciliationFailed reason)

def fail (s : State) (o : Online) (reason : Failure) (landed : Option Published) (e : Ending) :
    State × List Sent :=
  let reason := o.abortReason.getD reason
  if reason = .unknownPublicationOutcome then reconcileUnknownPublication s o reason landed e
  else if !o.freezing && !o.frozen then abortPreparation s o reason e
  else resumeSource s o reason e

def builderDown (s : State) (o : Online) (e : Ending) : State × List Sent :=
  let reason := o.abortReason.getD .builderExit
  if !o.freezing && !o.frozen then abortPreparation s o reason e
  else giveUp s o reason

/-- The helper's port is gone. An exit the writer itself asked for is ignored during a
compaction. -/
def portExit (s : State) (closedByOwner : Bool) : State × List Sent :=
  if closedByOwner && s.online.isSome then (s, []) else poison s .helperExit

end Tay.Writer
