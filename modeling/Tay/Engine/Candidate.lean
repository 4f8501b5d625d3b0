import Tay.Engine.Estimated
import Tay.Engine.Insertion
import Tay.Storage.Authority
import Tay.Storage.Estimate
import Tay.Storage.Planning
import Tay.Storage.Restored

/-!
# What a candidate takes

The files of a candidate are those that `publish_current` adds up: the base, an empty tail, the manifest and
CURRENT. Each record of the base costs its payload, its frame, at most one segment and the entry of this
segment in the manifest. The estimate allows that much for every job that is kept, 256 bytes for every source
segment, and one MiB for all the rest. Schedules and results are written to the base as well, and they have
no share of their own: the bound holds as long as they fit in this MiB.
-/

open Foundation

namespace Tay

open V2

namespace Publisher

open Authority (SourceMap BaseMap ManifestMap)

/-- The ids and digests of a store: they are drawn and computed elsewhere. -/
structure Names where
  storeId : Binary
  epochId : ℕ → Binary
  segmentDigest : BaseEntry → Binary
  manifestDigest : Binary → Binary

/-- An entry of `inventory.sealed`. -/
structure SealedSource where
  id : ℕ
  digest : Binary

def SealedSource.entry (s : SealedSource) : SourceMap := ⟨.nat s.id, some s.digest⟩

def baseMap (names : Names) (e : BaseEntry) : BaseMap :=
  ⟨.nat e.id, .nat e.firstSequence, .nat e.lastSequence, .nat e.bytes, some (names.segmentDigest e)⟩

/-- The manifest as it is encoded. -/
def manifestMap (names : Names) (sources : List SealedSource) (m : Manifest) : ManifestMap where
  storeId := some names.storeId
  epochId := some (names.epochId m.epochId)
  sourceEpochId := m.sourceEpochId.map names.epochId
  sourceFrontier := .nat m.sourceFrontier
  capturedAt := .nat m.capturedAt
  terminalRetention := m.terminalRetention
  sourceSegments := sources.map SealedSource.entry
  baseSegments := m.baseSegments.map (baseMap names)
  tailSegmentId := .nat m.tailSegmentId
  tailFirstSequence := .nat m.tailFirstSequence
  availabilityFrontier := m.availabilityFrontier.map Value.nat

/-- `prepare_snapshot`. -/
def prepareSnapshot (online : Bool) (q : Request) (source : Source) : Except Reason Snapshot.Kept :=
  if online then Snapshot.prepareOnline source.jobs q.retention q.capturedAt
  else Snapshot.prepare source.jobs q.retention q.capturedAt

/-- The schedules and results of a candidate, as records. -/
def auxiliaryEvents (q : Request) (source : Source) (kept : Snapshot.Kept) : List AuxEvent :=
  Auxiliary.canonicalEvents (auxiliaryCandidate q source kept.jobs)

/-- `candidate_bytes`, before any delta. -/
def candidateBytes (names : Names) (online : Bool) (q : Request) (source : Source) (sources : List SealedSource) :
    Option ℕ := do
  let kept ← (prepareSnapshot online q source).toOption
  let payloads := basePayloads kept.jobs (auxiliaryEvents q source kept)
  let base ← (writeBase q.rotationTargetBytes payloads).toOption
  let tail : SegmentFile := ⟨base.length + 1, payloads.length + 1, [], false⟩
  let file ← (Authority.encodeManifest (manifestMap names sources (manifest q source base (payloads.length + 1)))).toOption
  let current ← (Authority.encodeCurrent
    ⟨names.storeId, names.epochId q.epochId, names.manifestDigest file⟩).toOption
  return (base.map SegmentFile.bytes).sum + tail.bytes + file.length + current.length

/-! ## The base -/

variable {target : ℕ}

/-- Every segment adds a header and a footer to its records. -/
theorem place_sizes (p : Placed) (size : ℕ) :
    (place target p size).sizes.sum + 108 * p.sizes.length =
        p.sizes.sum + size + 108 * (place target p size).sizes.length ∧
      (place target p size).sizes.length ≤ p.sizes.length + 1 := by
  rw [place]
  split
  case h_1 hnone =>
    simp only [Placed.sizes, hnone, Option.map_none, Option.map_some, Option.toList_none, Option.toList_some,
      List.sum_append, List.sum_cons, List.sum_nil, List.length_append, List.length_cons, List.length_nil]
    omega
  case h_2 c hsome =>
    split
    all_goals
      simp only [Placed.sizes, hsome, Option.map_some, Option.toList_some, List.sum_append, List.sum_cons,
        List.sum_nil, List.length_append, List.length_cons, List.length_nil]
      omega

theorem foldl_place_sizes (sizes : List ℕ) (p : Placed) :
    (sizes.foldl (place target) p).sizes.sum + 108 * p.sizes.length =
        p.sizes.sum + sizes.sum + 108 * (sizes.foldl (place target) p).sizes.length ∧
      (sizes.foldl (place target) p).sizes.length ≤ p.sizes.length + sizes.length := by
  induction sizes generalizing p with
  | nil => exact ⟨rfl, le_refl _⟩
  | cons size sizes ih =>
    obtain ⟨hsum', hlength'⟩ := ih (place target p size)
    obtain ⟨hsum, hlength⟩ := @place_sizes target p size
    rw [List.foldl_cons, List.sum_cons, List.length_cons]
    omega

/-- A base takes the payloads of its records, their frames and its segments, of which there are no more than
records. -/
theorem writeBase_bytes {payloads : List Payload} {base : List SegmentFile}
    (h : writeBase target payloads = .ok base) :
    (base.map SegmentFile.bytes).sum = (payloads.map fun p ↦ p.bytes + 28).sum + 108 * base.length ∧
      base.length ≤ payloads.length := by
  have hsized := writeBase_sized h
  obtain ⟨hsum, hlength⟩ := @foldl_place_sizes target (payloads.map fun p ↦ p.bytes + 28) ⟨[], none⟩
  rw [← hsized, List.length_map, List.length_map] at hlength
  rw [← hsized, List.length_map] at hsum
  simp only [Placed.sizes, Option.map_none, Option.toList_none, List.append_nil, List.sum_nil,
    List.length_nil] at hsum hlength
  omega

end Publisher

/-! ## The manifest -/

namespace Authority

open CRC32C (length_checked)

theorem wire_bytes_length (s : Binary) : (Value.bytes s).wire.length = 5 + s.length := by
  rw [Value.wire, List.length_cons, List.length_append, Value.bigEndian_length]
  omega

theorem wire_list_length {α : Type} {write : α → Value} {n : ℕ} (l : List α)
    (h : ∀ e ∈ l, (write e).wire.length = n) : (Value.list (l.map write)).wire.length = 5 + n * l.length := by
  have hitems : ∀ l : List α, (∀ e ∈ l, (write e).wire.length = n) →
      (Value.wire.wireList (l.map write)).length = n * l.length := by
    intro l
    induction l with
    | nil => exact fun _ ↦ rfl
    | cons e l ih =>
      intro h
      rw [List.map_cons, Value.wire.wireList, List.length_append, h e List.mem_cons_self,
        ih fun e he ↦ h e (List.mem_cons_of_mem _ he), List.length_cons, Nat.mul_add, Nat.mul_one, Nat.add_comm]
  rw [Value.wire, List.length_cons, List.length_append, Value.bigEndian_length, hitems l h]
  omega

theorem validSource_digests {l : List SourceMap} {id : ℕ} (h : validSource? id l = true) :
    ∀ e ∈ l, ∃ s, e.digest = some s ∧ s.length = 32 := by
  intro e he
  obtain ⟨s, hs, hlength⟩ := (Option.any_eq_true _ _).mp (validSource_mem h e he).1
  exact ⟨s, hs, beq_iff_eq.mp hlength⟩

theorem retention_length (r : Retention) : r.toValue.wire.length ≤ 27 := by
  cases r with
  | infinity => decide
  | minutes n =>
    simp only [Retention.toValue, Value.record, List.map_cons, List.map_nil, Value.wire, Value.wire.wireMap,
      List.length_cons, List.length_append, Value.bigEndian_length, List.length_nil, Engine.wire_nat_length,
      show (text "minutes").length = 7 from by decide]
    omega
  | hours n =>
    simp only [Retention.toValue, Value.record, List.map_cons, List.map_nil, Value.wire, Value.wire.wireMap,
      List.length_cons, List.length_append, Value.bigEndian_length, List.length_nil, Engine.wire_nat_length,
      show (text "hours").length = 5 from by decide]
    omega

theorem wire_source_length (s : Publisher.SealedSource) (h : s.digest.length = 32) :
    s.entry.toValue.wire.length = 69 := by
  simp only [Publisher.SealedSource.entry, SourceMap.toValue, Value.ofBytes, Value.record, List.map_cons,
    List.map_nil, Value.wire, Value.wire.wireMap, List.length_cons, List.length_append, Value.bigEndian_length,
    List.length_nil, Engine.wire_nat_length, h, show (text "digest").length = 6 from by decide,
    show (text "id").length = 2 from by decide]

theorem wire_base_length (names : Publisher.Names) (e : BaseEntry) (h : (names.segmentDigest e).length = 32) :
    (Publisher.baseMap names e).toValue.wire.length = 143 := by
  simp only [Publisher.baseMap, BaseMap.toValue, Value.ofBytes, Value.record, List.map_cons,
    List.map_nil, Value.wire, Value.wire.wireMap, List.length_cons, List.length_append, Value.bigEndian_length,
    List.length_nil, Engine.wire_nat_length, h, show (text "digest").length = 6 from by decide,
    show (text "id").length = 2 from by decide, show (text "bytes").length = 5 from by decide,
    show (text "first_sequence").length = 14 from by decide, show (text "last_sequence").length = 13 from by decide]

/-- CURRENT has one size. -/
theorem encodeCurrent_length {c : Current} {bytes : Binary} (h : encodeCurrent c = .ok bytes) : bytes.length = 76 := by
  rw [encodeCurrent] at h
  split at h
  case isTrue hvalid =>
    cases h
    rw [Bool.and_eq_true, Bool.and_eq_true] at hvalid
    rw [length_checked, Current.wire, List.length_append, List.length_append, List.length_append,
      length_of_id hvalid.1.1, length_of_id hvalid.1.2, beq_iff_eq.mp hvalid.2]
    rfl
  case isFalse => cases h

/-- A manifest has its fixed fields, 69 bytes for a source segment and 143 for a segment of the base. -/
theorem manifest_length {names : Publisher.Names} {sources : List Publisher.SealedSource} {m : Manifest}
    {bytes : Binary} (h : encodeManifest (Publisher.manifestMap names sources m) = .ok bytes) :
    bytes.length ≤ 400 + 69 * sources.length + 143 * m.baseSegments.length := by
  obtain ⟨hvalid, body, hbody, -, rfl⟩ := encodeManifest_eq_ok.mp h
  have hm := ManifestMap.valid_of_manifest hvalid
  obtain ⟨-, rfl⟩ := Value.encode_eq_ok.mp hbody
  have hsources : (Value.list ((sources.map Publisher.SealedSource.entry).map SourceMap.toValue)).wire.length =
      5 + 69 * sources.length := by
    rw [List.map_map]
    refine wire_list_length sources fun s hs ↦ wire_source_length s ?_
    obtain ⟨digest, hdigest, hlength⟩ := validSource_digests hm.sourceSegments _ (List.mem_map_of_mem hs)
    rw [← hlength, ← Option.some.inj hdigest]
  have hbase : (Value.list ((m.baseSegments.map (Publisher.baseMap names)).map BaseMap.toValue)).wire.length =
      5 + 143 * m.baseSegments.length := by
    rw [List.map_map]
    refine wire_list_length m.baseSegments fun e he ↦ wire_base_length names e ?_
    obtain ⟨s, hs, hlength⟩ := (Option.any_eq_true _ _).mp (validBase_mem hm.baseSegments _ (List.mem_map_of_mem he)).1
    rw [← beq_iff_eq.mp hlength, ← Option.some.inj hs]
  have hids : names.storeId.length = 16 ∧ (names.epochId m.epochId).length = 16 :=
    ⟨length_of_id hm.storeId, length_of_id hm.epochId⟩
  have hsourceId : (Value.opt .bytes (m.sourceEpochId.map names.epochId)).wire.length ≤ 21 := by
    have hid := hm.sourceEpochId
    cases hepoch : m.sourceEpochId with
    | none => exact Nat.le_add_left 1 20
    | some epoch =>
      rw [Publisher.manifestMap, hepoch] at hid
      rw [Option.map_some, Value.opt, wire_bytes_length, length_of_id hid]
  have hretention := retention_length m.terminalRetention
  rw [length_framed]
  cases hfrontier : m.availabilityFrontier <;>
    simp only [ManifestMap.body, ManifestMap.fields, Publisher.manifestMap, Value.record, Value.ofBytes, hfrontier,
      Option.map_none, Option.map_some, Option.toList_none, Option.toList_some, List.nil_append, List.cons_append,
      List.map_cons, List.map_nil, Value.wire, Value.wire.wireMap, List.length_cons, List.length_append,
      List.length_nil, Value.bigEndian_length, Engine.wire_nat_length,
      show (text "availability_frontier").length = 21 from by decide, show (text "base_segments").length = 13 from by decide,
      show (text "captured_at").length = 11 from by decide, show (text "epoch_id").length = 8 from by decide,
      show (text "source_epoch_id").length = 15 from by decide, show (text "source_frontier").length = 15 from by decide,
      show (text "source_segments").length = 15 from by decide, show (text "store_id").length = 8 from by decide,
      show (text "tail_first_sequence").length = 19 from by decide, show (text "tail_segment_id").length = 15 from by decide,
      show (text "terminal_retention").length = 18 from by decide] at hsources hbase hsourceId hretention ⊢ <;>
    omega

end Authority

/-! ## The jobs that are kept -/

namespace Publisher

open CompactionEstimate (isExpired)

/-- A job that the estimate counts as expired is dropped, if it is a snapshot. -/
theorem classify_of_isExpired {job : Job} {retention : Retention} {now : ℕ}
    (hjob : Codec.snapshot? job Value.defaults = .ok ()) (h : isExpired retention now job = true) :
    Snapshot.classify job retention now = .ok .expire := by
  have hexpired : Retention.expired? job.terminalAt retention now = .ok true := by
    rw [isExpired] at h
    split at h
    case h_1 answer hanswer => rw [hanswer, h]
    case h_2 => cases h
  obtain ⟨-, hvalid⟩ := check_bind_eq_ok.mp hexpired
  obtain ⟨htime, hretention⟩ := check_bind_eq_ok.mp hvalid
  have hterminal : job.state.terminal = true := by
    have hshape := (Codec.snapshot?_iff.mp hjob).2.terminal
    cases hstate : job.state <;> simp_all [Codec.terminalFields?, JobState.terminal]
  cases retention with
  | infinity => cases hretention
  | minutes n | hours n =>
    simp only [Snapshot.classify, hterminal, if_true, hexpired]
    rfl

/-- What a plan keeps: jobs of the source that have not expired, with other orders at most. -/
theorem prepareSnapshot_kept {online : Bool} {q : Request} {source : Source} {kept : Snapshot.Kept}
    (h : prepareSnapshot online q source = .ok kept) {id : JobId} {job : Job} (hjob : kept.jobs[id]? = some job) :
    ∃ p, source.jobs[id]? = some p ∧ p.unnumbered = job.unnumbered ∧
      isExpired q.retention q.capturedAt p = false := by
  have hretained : ∃ k, Snapshot.retained source.jobs q.retention q.capturedAt = .ok k ∧
      (k.jobs[id]?).map Job.unnumbered = some job.unnumbered := by
    rw [prepareSnapshot] at h
    split at h
    · exact ⟨kept, h, by rw [hjob, Option.map_some]⟩
    · obtain ⟨k, hk, h⟩ := bind_eq_ok.mp h
      cases h
      exact ⟨k, hk, by rw [← Snapshot.normalize_unnumbered, hjob, Option.map_some]⟩
  obtain ⟨k, hk, hsome⟩ := hretained
  obtain ⟨p, hp, hsame⟩ := Option.map_eq_some_iff.mp hsome
  obtain ⟨-, hdropped, hothers⟩ := Snapshot.retained_spec hk
  have hlive : ¬ Snapshot.Expired source.jobs q.retention q.capturedAt id := by
    intro hexpired
    rw [hdropped id hexpired] at hp
    cases hp
  rw [hothers id hlive] at hp
  refine ⟨p, hp, hsame, ?_⟩
  rw [← Bool.not_eq_true]
  intro hexpired
  simp only [Snapshot.retained, bind_eq_ok] at hk
  obtain ⟨-, -, -, -, u, hvalid, -⟩ := hk
  exact hlive ⟨p, hp, classify_of_isExpired ((Snapshot.validateJob_of_validateSource hvalid hp).2) hexpired⟩

/-- Every record of a base has been encoded. -/
theorem writeBase_encoded {payloads : List Payload} {base : List SegmentFile}
    (h : writeBase target payloads = .ok base) {p : Payload} (hp : p ∈ payloads) : encodeBaseRecord p = .ok () := by
  obtain ⟨w, hw, -⟩ := bind_eq_ok.mp h
  obtain ⟨i, hi⟩ := List.mem_iff_getElem?.mp hp
  obtain ⟨a, b, hstep⟩ := fold_forall hw (p, 1 + i) (List.mk_add_mem_zipIdx_iff_getElem?.mpr hi)
  obtain ⟨_, hencoded, -⟩ := bind_eq_ok.mp hstep
  exact hencoded

/-- A job that is written takes 326 bytes besides its definition, at most. -/
theorem snapshot_bytes {job : Job} (h : encodeBaseRecord (.snapshot job) = .ok ()) :
    (Payload.snapshot job).bytes ≤ job.definitionBytes.length + 326 := by
  obtain ⟨_, hencoded, -⟩ := bind_eq_ok.mp h
  obtain ⟨_, hsnapshot, -⟩ := bind_eq_ok.mp hencoded
  obtain ⟨hfields, hshape⟩ := Codec.snapshot?_iff.mp hsnapshot
  obtain ⟨-, hdefinition⟩ := Value.encode_eq_ok.mp hfields.bytes
  have haround := Codec.bytesAround_le hshape
  rw [Payload.bytes, Codec.length_snapshotPayload_around, hdefinition]
  omega

/-- What the schedules and results of a candidate take: a record, at most a segment, and its entry in the
manifest. -/
def auxiliaryShare (events : List AuxEvent) : ℕ := (events.map fun e ↦ e.toValue.wire.length + 279).sum

/-- The share of a job. -/
def jobShare (job : Job) : ℤ := (Payload.snapshot job).bytes + 279

/-- The share of the jobs and that of the schedules and results. -/
theorem shares_sum (jobs : Table JobId Job) (events : List AuxEvent) :
    (((basePayloads jobs events).map fun p ↦ p.bytes + 28).sum + 251 * (basePayloads jobs events).length : ℕ) =
      Foundation.Table.total jobShare jobs + auxiliaryShare events := by
  have hsum : ∀ l : List Payload, ((l.map fun p ↦ p.bytes + 28).sum + 251 * l.length : ℕ) =
      (l.map fun p ↦ (p.bytes + 279 : ℤ)).sum := by
    intro l
    induction l with
    | nil => rfl
    | cons p l ih =>
      rw [List.map_cons, List.sum_cons, List.map_cons, List.sum_cons, List.length_cons, ← ih]
      push_cast
      omega
  have hevents : (auxiliaryShare events : ℤ) = (events.map fun e ↦ (e.toValue.wire.length + 279 : ℤ)).sum := by
    rw [auxiliaryShare]
    induction events with
    | nil => rfl
    | cons e events ih =>
      rw [List.map_cons, List.sum_cons, List.map_cons, List.sum_cons, ← ih]
      push_cast
      rfl
  rw [hsum, hevents, basePayloads, List.map_append, List.sum_append, List.map_map, List.map_map]
  rfl

/-- What a candidate takes, once its files are known. -/
theorem candidateBytes_eq_some {names : Names} {online : Bool} {q : Request} {source : Source}
    {sources : List SealedSource} {kept : Snapshot.Kept} {payloads : List Payload} {base : List SegmentFile}
    {file current : Binary} (hkept : prepareSnapshot online q source = .ok kept)
    (hpayloads : basePayloads kept.jobs (auxiliaryEvents q source kept) = payloads)
    (hbase : writeBase q.rotationTargetBytes payloads = .ok base)
    (hfile : Authority.encodeManifest (manifestMap names sources (manifest q source base (payloads.length + 1))) =
      .ok file)
    (hcurrent : Authority.encodeCurrent ⟨names.storeId, names.epochId q.epochId, names.manifestDigest file⟩ =
      .ok current) :
    candidateBytes names online q source sources =
      some ((base.map SegmentFile.bytes).sum + 44 + file.length + current.length) := by
  subst hpayloads
  simp only [candidateBytes, hkept, hbase, hfile, hcurrent, Except.toOption, Option.bind_eq_bind, Option.bind_some,
    Option.pure_def]
  rfl

/-- The files of a candidate, share by share. -/
theorem candidateBytes_le {names : Names} {online : Bool} {q : Request} {source : Source}
    {sources : List SealedSource} {kept : Snapshot.Kept} {bytes : ℕ} (hkept : prepareSnapshot online q source = .ok kept)
    (h : candidateBytes names online q source sources = some bytes) :
    (∀ (id : JobId) (job : Job), kept.jobs[id]? = some job → encodeBaseRecord (.snapshot job) = .ok ()) ∧
      (bytes : ℤ) ≤ Foundation.Table.total jobShare kept.jobs + auxiliaryShare (auxiliaryEvents q source kept) + 520 +
        69 * sources.length := by
  rw [candidateBytes, hkept] at h
  obtain ⟨k, hk, h⟩ := Option.bind_eq_some_iff.mp h
  obtain rfl := Option.some.inj hk
  obtain ⟨base, hbase, h⟩ := Option.bind_eq_some_iff.mp h
  obtain ⟨file, hfile, h⟩ := Option.bind_eq_some_iff.mp h
  obtain ⟨current, hcurrent, h⟩ := Option.bind_eq_some_iff.mp h
  obtain rfl := Option.some.inj h
  have hwritten := toOption_eq_some.mp hbase
  obtain ⟨hbytes, hsegments⟩ := writeBase_bytes hwritten
  have hmanifest := Authority.manifest_length (toOption_eq_some.mp hfile)
  have hpointer := Authority.encodeCurrent_length (toOption_eq_some.mp hcurrent)
  have hshares := shares_sum kept.jobs (auxiliaryEvents q source kept)
  refine ⟨fun id job hjob ↦ writeBase_encoded hwritten (List.mem_append_left _ ?_), ?_⟩
  · exact List.mem_map.mpr ⟨(id, job), Std.ExtTreeMap.mem_toList_iff_getElem?_eq_some.mpr hjob, rfl⟩
  · have htail : SegmentFile.bytes ⟨base.length + 1, (basePayloads kept.jobs (auxiliaryEvents q source kept)).length + 1,
        [], false⟩ = 44 := rfl
    rw [manifest, List.length_map] at hmanifest
    rw [htail, hbytes]
    omega

end Publisher

namespace Engine

open Publisher CompactionEstimate

variable {vm : Runtime}

/-- The jobs that are kept have their shares in the estimate. -/
theorem shares_le {s : Tracked} (hexact : Exact s) {online : Bool} {q : Request} {source : Source}
    {kept : Snapshot.Kept} (hjobs : ∀ id : JobId, (source.jobs[id]?).map Job.unnumbered = (s.jobs[id]?).map Job.unnumbered)
    (hkept : prepareSnapshot online q source = .ok kept)
    (hwritten : ∀ (id : JobId) (job : Job), kept.jobs[id]? = some job → encodeBaseRecord (.snapshot job) = .ok ())
    (havailable : s.estimate.available = true) (hvalid : Retention.validate q.retention = true)
    (hnow : time? q.capturedAt = true) :
    Foundation.Table.total jobShare kept.jobs ≤ s.estimate.definitionBytes + 768 * s.estimate.jobs -
      (expired s.estimate q.retention q.capturedAt).2 - 256 * (expired s.estimate q.retention q.capturedAt).1 := by
  obtain ⟨hcount, hbytes⟩ := expired_le (hexact.counts havailable) hvalid hnow
  have hkeep : Foundation.Table.total jobShare kept.jobs ≤
      Foundation.Table.total (fun job ↦ if isExpired q.retention q.capturedAt job then 0 else bound job + 256) s.jobs := by
    refine Foundation.Table.total_le (fun job ↦ ?_) fun id job hjob ↦ ?_
    · split
      · exact le_refl 0
      · exact Int.add_nonneg (bound_nonneg job) (by decide)
    · obtain ⟨p, hp, hsame, hlive⟩ := prepareSnapshot_kept hkept hjob
      have htracked := hjobs id
      rw [hp, Option.map_some, hsame] at htracked
      obtain ⟨w, hw, hsame'⟩ := Option.map_eq_some_iff.mp htracked.symm
      obtain ⟨-, -, hterminal, hdefinition⟩ := unnumbered_fields hsame'
      obtain ⟨-, -, hterminal', -⟩ := unnumbered_fields hsame
      have hlive' : isExpired q.retention q.capturedAt w = false := by
        rw [← hlive, isExpired, isExpired, hterminal, hterminal']
      have hsize := snapshot_bytes (hwritten id job hjob)
      refine ⟨w, hw, ?_⟩
      rw [hlive', if_neg Bool.false_ne_true, jobShare, bound, jobBound, hdefinition]
      push_cast
      omega
  have hsplit : Foundation.Table.total (fun job ↦ if isExpired q.retention q.capturedAt job then 0 else bound job + 256)
      s.jobs + (Foundation.Table.total (lapsed q.retention q.capturedAt bound) s.jobs +
        256 * Foundation.Table.total (lapsed q.retention q.capturedAt one) s.jobs) =
      s.estimate.definitionBytes + 768 * s.estimate.jobs := by
    rw [hexact.definitions, hexact.jobs, ← Foundation.Table.total_one, ← Foundation.Table.total_mul,
      ← Foundation.Table.total_mul, ← Foundation.Table.total_add, ← Foundation.Table.total_add,
      ← Foundation.Table.total_add]
    refine congrArg (Foundation.Table.total · s.jobs) (funext fun job ↦ ?_)
    simp only [lapsed, one, bound, jobBound, definitionSize]
    split
    all_goals
      push_cast
      omega
  omega

/-- **The bound holds while schedules and results fit in the allowance.** In every run in which adopted epochs are the
engine's own, in every state, and for every candidate of the engine's persistent jobs. -/
theorem candidate_bounded {w : Estimated} (hw : (estimated vm).ReachableUnder (Owns vm) w) {names : Names} {online : Bool}
    {q : Request} {source : Source} {sources : List SealedSource} {kept : Snapshot.Kept} {bytes sealedBytes sealedSegments : ℕ}
    {r : EstimateSummary}
    (hjobs : ∀ id : JobId, (source.jobs[id]?).map Job.unnumbered = (persistent w.engine id).map Job.unnumbered)
    (hkept : prepareSnapshot online q source = .ok kept)
    (hbytes : candidateBytes names online q source sources = some bytes)
    (hsealed : sources.length ≤ sealedSegments + 1)
    (hr : w.estimate.summarize sealedBytes sealedSegments q.retention q.capturedAt = some r)
    (hfits : auxiliaryShare (auxiliaryEvents q source kept) + 589 ≤ 1048576) :
    (bytes : ℤ) ≤ r.candidateUpperBytes := by
  obtain ⟨jobs, hexact, htracked⟩ := Estimated.reachable_tracks hw
  obtain ⟨havailable, hvalid, hnow, -, -, -, hupper⟩ := summarize_eq_some hr
  obtain ⟨hwritten, hle⟩ := candidateBytes_le hkept hbytes
  have hshares := shares_le hexact (fun id ↦ (hjobs id).trans (htracked id).symm) hkept hwritten havailable hvalid hnow
  rw [hupper]
  dsimp only at hshares
  omega

/-! ## A schedule of any length -/

namespace Sample

open Tay.Sample

/-- A schedule whose task is given a text. -/
def noting (s : Binary) : Schedule where
  id := text "s"
  definition := { scheduleDefinition with args := .map [(.str (text "a"), .str s)] }
  revision := 1
  registeredAt := 10
  nextAt := 20
  lastAt := none
  cancelledAt := none
  activeJobId := none
  activeJobIds := []
  membershipComplete := false

theorem cost_noting (s : Binary) :
    (Auxiliary.scheduleEvent (noting s)).toValue.cost = ⟨4, 43, s.length + 204, s.length + 423⟩ := by
  simp only [Auxiliary.scheduleEvent, noting, AuxEvent.toValue, Value.record, ScheduleDefinition.toValue,
    Tay.Sample.scheduleDefinition, List.map_cons, List.map_nil, Value.cost, Value.cost.costMap, Value.cost.costList,
    Value.nat, Value.opt, CatchUp.toValue, Trigger.kind, Trigger.expression, Overlap.toValue, Value.Cost.enclosed,
    Value.Cost.beside, Value.Cost.binary, Value.Cost.leaf, Value.Cost.empty,
    show (text "active_job_id").length = 13 from by decide, show (text "active_job_ids").length = 14 from by decide,
    show (text "at").length = 2 from by decide, show (text "cancelled_at").length = 12 from by decide,
    show (text "definition").length = 10 from by decide, show (text "expected_revision").length = 17 from by decide,
    show (text "last_at").length = 7 from by decide, show (text "membership_complete").length = 19 from by decide,
    show (text "next_at").length = 7 from by decide, show (text "registered_at").length = 13 from by decide,
    show (text "revision").length = 8 from by decide, show (text "schedule_id").length = 11 from by decide,
    show (text "args").length = 4 from by decide, show (text "catch_up").length = 8 from by decide,
    show (text "expression").length = 10 from by decide, show (text "kind").length = 4 from by decide,
    show (text "options").length = 7 from by decide, show (text "overlap").length = 7 from by decide,
    show (text "task").length = 4 from by decide, show (text "timezone").length = 8 from by decide,
    show (text "a").length = 1 from by decide, show (text "s").length = 1 from by decide,
    show (text "w").length = 1 from by decide, show (text "latest").length = 6 from by decide,
    show (text "every").length = 5 from by decide, show (text "allow").length = 5 from by decide]
  rw [Value.Cost.mk.injEq]
  refine ⟨by decide, by decide, by omega, by omega⟩

theorem validUtf8_replicate (n : ℕ) : Value.validUtf8 (List.replicate n 97) = true := by
  induction n with
  | zero => rfl
  | succ n ih =>
    rw [List.replicate_succ, Value.validUtf8.eq_def]
    dsimp only
    rw [if_pos (by decide)]
    exact ih

theorem restatable_noting (s : Binary) : Canonical.Restatable (noting s) := by
  refine ⟨rfl, ?_, rfl, rfl, rfl, rfl, rfl, rfl, rfl, rfl⟩
  show (key? (text "w") && isMap _ && args? (.map [(.str (text "a"), .str s)]) && _ && _ && _ && _) = true
  rfl

theorem writable_noting {s : Binary} (h : Value.validUtf8 s = true) :
    (Auxiliary.scheduleEvent (noting s)).toValue.writable = true := by
  simp only [Auxiliary.scheduleEvent, noting, AuxEvent.toValue, Value.record, ScheduleDefinition.toValue,
    Tay.Sample.scheduleDefinition, List.map_cons, List.map_nil, Value.writable, Value.writable.writableMap,
    Value.writable.writableList, Value.nat, Value.opt, CatchUp.toValue, Trigger.kind, Trigger.expression,
    Overlap.toValue, h, Value.isBinary, Bool.true_and, Bool.and_true]
  decide

theorem encode_noting {s : Binary} (h : Value.validUtf8 s = true) (hlength : s.length ≤ 16000000) :
    ∃ payload, (Auxiliary.scheduleEvent (noting s)).encode Value.defaults Value.maxBytes = .ok payload := by
  have hcost := cost_noting s
  have hencode : (Auxiliary.scheduleEvent (noting s)).toValue.encode Value.defaults Value.maxBytes =
      .ok (Auxiliary.scheduleEvent (noting s)).toValue.wire := by
    refine Value.encode_eq_ok.mpr ⟨⟨by decide, le_refl _, writable_noting h, ?_, ?_, ?_, ?_⟩, rfl⟩
    all_goals
      rw [hcost]
      simp only [Value.defaults, Value.maxBytes]
      omega
  obtain ⟨m, hm, -⟩ := bind_eq_ok.mp hencode
  refine ⟨(Auxiliary.scheduleEvent (noting s)).toValue.wire, ?_⟩
  rw [AuxEvent.encode, hm, ok_bind, Canonical.restatable_iff.mpr (restatable_noting s), check_true, ok_bind, hencode]

/-- A store with one schedule, and no jobs. -/
def noted (s : Binary) : Directory :=
  ⟨manifest 0, [⟨1, 1, [⟨1, .auxiliary (Auxiliary.scheduleEvent (noting s))⟩], false⟩]⟩

theorem recover_noted {s : Binary} (h : Value.validUtf8 s = true) (hlength : s.length ≤ 16000000) :
    ∃ r, Reader.recover runtime (noted s) (candidate config.candidateLimits config.valueLimits) = .ok r ∧
      r.candidate.jobs = ∅ ∧ r.candidate.results = ∅ ∧
      r.candidate.schedules = (∅ : Table Binary Schedule).insert (text "s") (noting s) := by
  obtain ⟨payload, hpayload⟩ := encode_noting h hlength
  have hempty : Reader.recover runtime ⟨manifest 0, [] ++ [⟨1, 1, [], false⟩]⟩
      (candidate config.candidateLimits config.valueLimits) =
        .ok (Reader.summarize (manifest 0) [⟨1, 1, [], false⟩] ⟨fresh, 1, none⟩) := by decide +kernel
  have hroom : fresh.bytes + (runtime.scheduleBytes (noting s) : ℤ) ≤ fresh.limits.maxBytes := by
    show (0 : ℤ) + 3000 ≤ 268435456
    omega
  have hsequence : sequence? 1 = true := by decide
  obtain ⟨bytes, hreduce⟩ := Canonical.reduce_scheduleEvent runtime (b := fresh) rfl hpayload hsequence hroom
  obtain ⟨m, hmeasure, -⟩ := bind_eq_ok.mp hpayload
  have hm : (Auxiliary.scheduleEvent (noting s)).toValue.measure fresh.valueLimits Value.maxBytes = .ok m := hmeasure
  have hvalid := Canonical.restatable_iff.mpr (restatable_noting s)
  have hfold : ∀ last, fold (Reader.consume runtime false) ⟨fresh, 1, last⟩
      [⟨1, .auxiliary (Auxiliary.scheduleEvent (noting s))⟩] =
        .ok ⟨{ fresh with
          schedules := fresh.schedules.insert (noting s).id (noting s)
          bytes := fresh.bytes + runtime.scheduleBytes (noting s)
          auxiliaryBytes := bytes }, 2, last⟩ := by
    intro last
    simp only [fold_cons, fold_nil, Reader.consume, Reader.consumeKind, Reader.decodeAux, hm, hvalid, hreduce,
      beq_self_eq_true, check_true, ok_bind, pure_eq_ok]
  have hrecover := Reader.recover_append runtime hempty rfl hfold
  exact ⟨_, hrecover, by rfl, by rfl, by rfl⟩

def noteNames : Names :=
  ⟨List.replicate 16 1, fun n ↦ List.replicate 16 (UInt8.ofNat n), fun _ ↦ List.replicate 32 3,
    fun _ ↦ List.replicate 32 4⟩

def noteRequest : Request := ⟨8, .hours 1, 100, 16777352, limits, Value.defaults⟩

def noteSource (s : Binary) : Source :=
  ⟨7, 1, ∅, (∅ : Table Binary Schedule).insert (text "s") (noting s), ∅, none⟩

/-- Nothing is kept of no jobs. -/
def nothing : Snapshot.Kept := ⟨∅, 0, 0⟩

theorem prepare_noted (s : Binary) : prepareSnapshot false noteRequest (noteSource s) = .ok nothing := by rfl

theorem events_noted (s : Binary) :
    auxiliaryEvents noteRequest (noteSource s) nothing = [Auxiliary.scheduleEvent (noting s)] := by
  have hsingle : ((∅ : Table Binary Schedule).insert (text "s") (noting s)).toList = [(text "s", noting s)] := by
    have hperm := Foundation.Table.toList_insert_perm (∅ : Table Binary Schedule) (noting s) (k := text "s") rfl
    exact List.perm_singleton.mp hperm
  have hresults : ((noteSource s).results.filter fun id _ ↦ (nothing.jobs[id]?).isSome) = ∅ := rfl
  rw [auxiliaryEvents, Auxiliary.canonicalEvents, auxiliaryCandidate]
  dsimp only
  rw [hresults, noteSource, hsingle]
  rfl

/-- The manifest of a candidate whose base takes `n` bytes. -/
def noteManifest (n : ℕ) : Authority.ManifestMap :=
  manifestMap noteNames [] ⟨8, some 7, 1, 100, .hours 1, [⟨1, 1, 1, n⟩], 2, 2, none⟩

theorem candidate_noted {s : Binary} (h : Value.validUtf8 s = true) (hlength : s.length ≤ 16000000)
    (hmanifest : (Authority.encodeManifest (noteManifest (s.length + 559))).isOk = true) :
    ∃ bytes, candidateBytes noteNames false noteRequest (noteSource s) [] = some bytes ∧ s.length ≤ bytes := by
  obtain ⟨payload, hpayload⟩ := encode_noting h hlength
  have hbytes : (Payload.auxiliary (Auxiliary.scheduleEvent (noting s))).bytes = s.length + 423 := by
    rw [Payload.bytes, Value.length_wire (writable_noting h), cost_noting]
  have hbase : writeBase 16777352 [.auxiliary (Auxiliary.scheduleEvent (noting s))] =
      .ok [⟨1, 1, [⟨1, .auxiliary (Auxiliary.scheduleEvent (noting s))⟩], true⟩] := by
    have hfits : 44 + Record.bytes ⟨1, .auxiliary (Auxiliary.scheduleEvent (noting s))⟩ + 64 ≤ maxSegmentBytes := by
      rw [Record.bytes, hbytes, maxSegmentBytes]
      omega
    simp [writeBase, writeStep, encodeBaseRecord, hpayload, room, hfits]
  have hsegment : SegmentFile.bytes ⟨1, 1, [⟨1, .auxiliary (Auxiliary.scheduleEvent (noting s))⟩], true⟩ =
      s.length + 559 := by
    simp only [SegmentFile.bytes, Record.bytes, hbytes, List.map_cons, List.map_nil, List.sum_cons, List.sum_nil, if_true]
    omega
  have hmap : manifestMap noteNames [] (manifest noteRequest (noteSource s)
      [⟨1, 1, [⟨1, .auxiliary (Auxiliary.scheduleEvent (noting s))⟩], true⟩] 2) = noteManifest (s.length + 559) := by
    rw [noteManifest, ← hsegment]
    rfl
  obtain ⟨file, hfile⟩ := exists_ok hmanifest
  obtain ⟨current, hcurrent⟩ := exists_ok (x := Authority.encodeCurrent
    ⟨noteNames.storeId, noteNames.epochId 8, noteNames.manifestDigest file⟩) rfl
  refine ⟨s.length + 559 + 44 + file.length + current.length, ?_, by omega⟩
  have hpayloads : basePayloads nothing.jobs (auxiliaryEvents noteRequest (noteSource s) nothing) =
      [.auxiliary (Auxiliary.scheduleEvent (noting s))] := by
    rw [events_noted]
    rfl
  have hsome := candidateBytes_eq_some (prepare_noted s) hpayloads hbase (hmap ▸ hfile) hcurrent
  rw [hsome, List.map_cons, List.map_nil, List.sum_cons, List.sum_nil, hsegment]
  rfl

/-- A generation starts with the schedule, and the estimate of no jobs. -/
theorem starts_noted {s : Binary} (h : Value.validUtf8 s = true) (hlength : s.length ≤ 16000000) :
    ∃ w : Estimated, w.Starts runtime ∧ w.estimate = .new ∧ (∀ id, persistent w.engine id = none) ∧
      w.engine.schedules = (noteSource s).schedules ∧ w.engine.results = ∅ := by
  obtain ⟨r, hr, hjobs, hresults, hschedules⟩ := recover_noted h hlength
  refine ⟨⟨countInterrupted (init config r segment), .ofJobs r.candidate.jobs⟩, ⟨_, _, _, _, hr, rfl⟩, ?_, fun id ↦ ?_,
    hschedules, hresults⟩
  · rw [hjobs]
    rfl
  · rw [persistent_of_notMem (Finset.notMem_empty id)]
    simp only [ProjectionState.lookup, countInterrupted, init, hjobs]
    rfl

end Sample

open Tay.Engine.Sample

theorem candidate_bounded_noted : ∃ (w : Estimated) (bytes : ℕ) (r : EstimateSummary),
    (estimated Tay.Sample.runtime).ReachableUnder (Owns Tay.Sample.runtime) w ∧
    candidateBytes noteNames false noteRequest (noteSource (text "text")) [] = some bytes ∧
    w.estimate.summarize 0 0 noteRequest.retention noteRequest.capturedAt = some r ∧
    (bytes : ℤ) ≤ r.candidateUpperBytes := by
  obtain ⟨w, hw, hestimate, hpersistent, -, -⟩ := starts_noted (s := text "text") (by decide) (by decide)
  obtain ⟨bytes, hbytes, -⟩ := candidate_noted (s := text "text") (by decide) (by decide) (by decide +kernel)
  have hreach : (estimated Tay.Sample.runtime).ReachableUnder (Owns Tay.Sample.runtime) w := .initial hw
  have hsummary : w.estimate.summarize 0 0 noteRequest.retention noteRequest.capturedAt =
      some ⟨0, 0, 1048576, 0, 0, 0, 0⟩ := by
    rw [hestimate]
    decide
  refine ⟨w, bytes, _, hreach, hbytes, hsummary, ?_⟩
  refine candidate_bounded hreach (fun id ↦ ?_) (prepare_noted (text "text")) hbytes (Nat.zero_le _) hsummary ?_
  · rw [hpersistent]
    rfl
  · rw [events_noted]
    decide +kernel

/-- A schedule of two megabytes has no share. -/
theorem candidate_unbounded : ¬∀ (vm : Runtime) (w : Estimated), (estimated vm).Reachable w →
    ∀ (names : Names) (online : Bool) (q : Request) (source : Source) (sources : List SealedSource) (bytes sealedBytes
      sealedSegments : ℕ) (r : EstimateSummary),
      (∀ id : JobId, (source.jobs[id]?).map Job.unnumbered = (persistent w.engine id).map Job.unnumbered) →
      source.schedules = w.engine.schedules → source.results = w.engine.results →
      candidateBytes names online q source sources = some bytes → sources.length ≤ sealedSegments + 1 →
      w.estimate.summarize sealedBytes sealedSegments q.retention q.capturedAt = some r →
      (bytes : ℤ) ≤ r.candidateUpperBytes := by
  intro hall
  have hutf8 := validUtf8_replicate 2000000
  have hlength : (List.replicate 2000000 (97 : UInt8)).length = 2000000 := List.length_replicate
  obtain ⟨w, hw, hestimate, hpersistent, hschedules, hresults⟩ := starts_noted hutf8 (by rw [hlength]; decide)
  obtain ⟨bytes, hbytes, hle⟩ := candidate_noted hutf8 (by rw [hlength]; decide) (by rw [hlength]; decide +kernel)
  have hsummary : w.estimate.summarize 0 0 noteRequest.retention noteRequest.capturedAt =
      some ⟨0, 0, 1048576, 0, 0, 0, 0⟩ := by
    rw [hestimate]
    decide
  have hbound := hall Tay.Sample.runtime w (.initial hw) noteNames false noteRequest _ [] bytes 0 0 _
    (fun id ↦ by rw [hpersistent]; rfl) hschedules.symm hresults.symm hbytes (Nat.zero_le _) hsummary
  rw [hlength] at hle
  dsimp only at hbound
  omega

end Engine

end Tay
