import Tay.Storage.Reader

/-!
# Facts about recovery

What a successful recovery has checked, and how a scan behaves when its list of segments changes at
the end: fewer segments, more segments, or more records in the last one. `recover_append` is the fact
the writer lives by. A record that the recovered state accepts can be added to the open tail, and the
longer log is recovered to the state after it.
-/

open Foundation

namespace Tay

namespace Reader

variable (vm : Runtime)

/-! ## What recovery has checked -/

/-- Everything a successful `recover` implies. -/
structure RecoverSpec (d : Directory) (c : Candidate) (r : Recovered) : Prop where
  manifest : manifest? d.manifest = true
  ids : d.segments.map (·.id) = List.range' 1 d.segments.length
  tailPresent : d.manifest.baseSegments.length + 1 ≤ d.segments.length
  tailId : d.manifest.tailSegmentId = d.manifest.baseSegments.length + 1
  scanned : ∃ s, scanAll vm d.manifest d.segments c = .ok s ∧ r = summarize d.manifest d.segments s
  topology : ∃ next, validateTopology d.segments = .ok next
  tailFirst : d.segments[d.manifest.baseSegments.length]?.any
    (·.firstSequence == d.manifest.tailFirstSequence) = true

theorem replay_eq_ok {m : Manifest} {segments : List SegmentFile} {c : Candidate} {r : Recovered} :
    replay vm m segments c = .ok r ↔
      m.baseSegments.length + 1 ≤ segments.length ∧
      m.tailSegmentId = m.baseSegments.length + 1 ∧
      segments.map (·.id) = List.range' 1 segments.length ∧
      (∃ s, scanAll vm m segments c = .ok s ∧ r = summarize m segments s) ∧
      (∃ next, validateTopology segments = .ok next) ∧
      segments[m.baseSegments.length]?.any (·.firstSequence == m.tailFirstSequence) = true := by
  simp only [replay, bind_eq_ok, check_eq_ok, pure_eq_ok, decide_eq_true_eq, beq_iff_eq]
  constructor
  · rintro ⟨-, h₁, -, h₂, -, h₃, s, hs, next, hnext, -, h₄, h⟩
    cases h
    exact ⟨h₁, h₂, h₃, ⟨s, hs, rfl⟩, ⟨next, hnext⟩, h₄⟩
  · rintro ⟨h₁, h₂, h₃, ⟨s, hs, rfl⟩, ⟨next, hnext⟩, h₄⟩
    exact ⟨(), h₁, (), h₂, (), h₃, s, hs, next, hnext, (), h₄, rfl⟩

theorem recover_spec {d : Directory} {c : Candidate} {r : Recovered}
    (h : recover vm d c = .ok r) : RecoverSpec vm d c r := by
  simp only [recover, bind_eq_ok, check_eq_ok] at h
  obtain ⟨-, hbase, -, -, h⟩ := h
  obtain ⟨h₁, h₂, h₃, hs, ht, h₄⟩ := (replay_eq_ok vm).mp h
  exact ⟨hbase, h₃, h₁, h₂, hs, ht, h₄⟩

/-! ## Consuming records -/

/-- A replayed list of records ends at its last sequence. -/
theorem consume_sequence {base? : Bool} {records : List Record} :
    ∀ {s t : State}, fold (consume vm base?) s records = .ok t →
      t.nextSequence = (match records.getLast? with
        | some r => r.sequence + 1
        | none => s.nextSequence) := by
  induction records with
  | nil =>
    intro s t h
    cases h
    rfl
  | cons r records ih =>
    intro s t h
    obtain ⟨u, hu, hrest⟩ := bind_eq_ok.mp h
    have hlast := ih hrest
    simp only [consume, bind_eq_ok, check_eq_ok, beq_iff_eq, pure_eq_ok] at hu
    obtain ⟨-, hsequence, next, -, hu⟩ := hu
    cases hu
    rcases records.eq_nil_or_concat with rfl | ⟨init, last, rfl⟩
    · simpa [hsequence] using hlast
    · simpa [List.getLast?_cons] using hlast

/-! ## Scanning segments -/

theorem seedAvailabilityFrontier_sequence {s t : State} {m : Manifest} {ordinal : ℕ}
    (h : seedAvailabilityFrontier s m ordinal = .ok t) : t.nextSequence = s.nextSequence := by
  unfold seedAvailabilityFrontier at h
  split at h
  · split at h
    · cases h
      rfl
    · simp only [bind_eq_ok, pure_eq_ok] at h
      obtain ⟨-, -, h⟩ := h
      cases h
      rfl
  · cases h
    rfl

theorem seedAvailabilityFrontier_of_ne {s : State} {m : Manifest} {ordinal : ℕ}
    (hne : ordinal ≠ m.baseSegments.length + 1) : seedAvailabilityFrontier s m ordinal = .ok s := by
  rw [seedAvailabilityFrontier, if_neg (by simpa using hne)]

/-- At the tail the next order becomes the one after the frontier, if there is a frontier. -/
theorem seedAvailabilityFrontier_at_tail {s t : State} {m : Manifest}
    (h : seedAvailabilityFrontier s m (m.baseSegments.length + 1) = .ok t) :
    t.candidate = { s.candidate with
      nextAvailabilityOrder :=
        m.availabilityFrontier.elim s.candidate.nextAvailabilityOrder (· + 1) } := by
  rw [seedAvailabilityFrontier, if_pos (by simp)] at h
  rcases hfrontier : m.availabilityFrontier with _ | frontier
  · rw [hfrontier] at h
    cases h
    rfl
  · simp only [hfrontier, bind_eq_ok, pure_eq_ok] at h
    obtain ⟨-, -, h⟩ := h
    cases h
    rfl

/-- Below the highest segment a scan does not depend on how many segments follow. -/
theorem scanSegment_total {m : Manifest} {total : ℕ} (total' : ℕ) {s t : State}
    {x : SegmentFile × ℕ} (hx : x.2 ≠ total) (h : scanSegment vm m total s x = .ok t) :
    scanSegment vm m total' s x = .ok t := by
  simp only [scanSegment, bind_eq_ok, check_eq_ok, pure_eq_ok] at h ⊢
  obtain ⟨s', hs', u, hwell, rest⟩ := h
  refine ⟨s', hs', u, ?_, rest⟩
  have hne : (x.2 == total) = false := by simpa using hx
  rcases hsealed : x.1.sealed with _ | _
  · simp [wellFormed, hne, hsealed] at hwell
  · simpa [wellFormed, hsealed] using hwell

/-- How many segments follow is only checked. -/
theorem scanSegment_unique {m : Manifest} {total total' : ℕ} {s t t' : State}
    {x : SegmentFile × ℕ} (h : scanSegment vm m total s x = .ok t)
    (h' : scanSegment vm m total' s x = .ok t') : t = t' := by
  simp only [scanSegment, bind_eq_ok, pure_eq_ok] at h h'
  obtain ⟨u, hu, -, -, v, hv, -, -, h⟩ := h
  obtain ⟨u', hu', -, -, v', hv', -, -, h'⟩ := h'
  rw [hu] at hu'
  cases hu'
  rw [hv] at hv'
  cases hv'
  exact (Except.ok.inj h).symm.trans (Except.ok.inj h')

theorem topologyStep_total {total : ℕ} (total' : ℕ) {next next' : ℕ} {x : SegmentFile × ℕ}
    (hx : x.2 ≠ total) (h : topologyStep total next x = .ok next') :
    topologyStep total' next x = .ok next' := by
  have hne : (x.2 == total) = false := by simpa using hx
  simp only [topologyStep, hne, Bool.false_or, bind_eq_ok, check_eq_ok, Bool.and_eq_true] at h ⊢
  obtain ⟨u, ⟨hid, hsealed⟩, h⟩ := h
  exact ⟨u, ⟨hid, by rw [hsealed, Bool.or_true]⟩, h⟩

/-- The scan and the topology check count the same sequences. -/
theorem scan_topology {m : Manifest} {total total' : ℕ} {xs : List (SegmentFile × ℕ)} :
    ∀ {s t : State} {next : ℕ}, fold (scanSegment vm m total) s xs = .ok t →
      fold (topologyStep total') s.nextSequence xs = .ok next → next = t.nextSequence := by
  induction xs with
  | nil =>
    intro s t next hs hn
    cases hs
    cases hn
    rfl
  | cons x xs ih =>
    intro s t next hs hn
    obtain ⟨u, hu, hs⟩ := bind_eq_ok.mp hs
    obtain ⟨n, hn', hn⟩ := bind_eq_ok.mp hn
    simp only [scanSegment, bind_eq_ok, pure_eq_ok] at hu
    obtain ⟨s', hs', -, -, v, hv, -, -, hu⟩ := hu
    cases hu
    have hnext : n = u.nextSequence := by
      rw [consume_sequence vm hv, seedAvailabilityFrontier_sequence hs']
      simp only [topologyStep, bind_eq_ok, pure_eq_ok] at hn'
      obtain ⟨-, -, hn'⟩ := hn'
      cases hn'
      simp only [SegmentFile.summary]
      rcases x.1.records.getLast? with _ | r <;> rfl
    subst hnext
    exact ih hs hn

theorem recover_topology {d : Directory} {c : Candidate} {r : Recovered} {next : ℕ}
    (h : recover vm d c = .ok r) (hnext : validateTopology d.segments = .ok next) :
    r.nextSequence = next := by
  obtain ⟨s, hs, rfl⟩ := (recover_spec vm h).scanned
  obtain ⟨-, -, hnext⟩ := bind_eq_ok.mp hnext
  exact (scan_topology vm hs hnext).symm

/-! ## Appending -/

theorem scanAll_concat {m : Manifest} {pre : List SegmentFile} {z : SegmentFile} {c : Candidate}
    {s : State} : scanAll vm m (pre ++ [z]) c = .ok s ↔
      ∃ u, fold (scanSegment vm m (pre.length + 1)) ⟨c, 1, none⟩ (pre.zipIdx 1) = .ok u ∧
        scanSegment vm m (pre.length + 1) u (z, pre.length + 1) = .ok s := by
  rw [scanAll, List.zipIdx_append, fold_append, Nat.add_comm 1, bind_eq_ok]
  simp only [List.length_append, List.length_singleton, List.zipIdx_singleton, fold_cons, fold_nil,
    bind_eq_ok, Except.ok.injEq, exists_eq_right]

theorem validateTopology_concat {pre : List SegmentFile} {z : SegmentFile} {next : ℕ} :
    validateTopology (pre ++ [z]) = .ok next ↔
      ∃ n, fold (topologyStep (pre.length + 1)) 1 (pre.zipIdx 1) = .ok n ∧
        topologyStep (pre.length + 1) n (z, pre.length + 1) = .ok next := by
  have hne : (!(pre ++ [z]).isEmpty) = true := by simp
  rw [validateTopology, hne, check_true, ok_bind, List.zipIdx_append, fold_append, Nat.add_comm 1,
    bind_eq_ok]
  simp only [List.length_append, List.length_singleton, List.zipIdx_singleton, fold_cons, fold_nil,
    bind_eq_ok, Except.ok.injEq, exists_eq_right]

/-- Replayed records are consecutive. -/
theorem consume_sequences {base? : Bool} {records : List Record} :
    ∀ {s t : State}, fold (consume vm base?) s records = .ok t →
      records.map (·.sequence) = List.range' s.nextSequence records.length ∧
        t.nextSequence = s.nextSequence + records.length := by
  induction records with
  | nil =>
    intro s t h
    cases h
    exact ⟨rfl, rfl⟩
  | cons r records ih =>
    intro s t h
    obtain ⟨u, hu, hrest⟩ := bind_eq_ok.mp h
    simp only [consume, bind_eq_ok, check_eq_ok, beq_iff_eq, pure_eq_ok] at hu
    obtain ⟨-, hsequence, next, -, hu⟩ := hu
    cases hu
    obtain ⟨hmap, hnext⟩ := ih hrest
    constructor
    · rw [List.map_cons, hmap, hsequence]
      rfl
    · simp only at hnext
      rw [hnext, List.length_cons]
      omega

/-- **Appending to the open tail.** -/
theorem recover_append {m : Manifest} {pre : List SegmentFile} {z : SegmentFile} {c c' : Candidate}
    {r : Recovered} {records : List Record} (h : recover vm ⟨m, pre ++ [z]⟩ c = .ok r)
    (hopen : z.sealed = false)
    (hfold : ∀ last, fold (consume vm false) ⟨r.candidate, r.nextSequence, last⟩ records =
      .ok ⟨c', r.nextSequence + records.length, last⟩) :
    recover vm ⟨m, pre ++ [z.append records]⟩ c =
      .ok (summarize m (pre ++ [z.append records])
        ⟨c', r.nextSequence + records.length, none⟩) := by
  have hspec := recover_spec vm h
  obtain ⟨s, hs, rfl⟩ := hspec.scanned
  obtain ⟨next, hnext⟩ := hspec.topology
  obtain ⟨u, hu, hz⟩ := (scanAll_concat vm).mp hs
  obtain ⟨n, hn, hzn⟩ := validateTopology_concat.mp hnext
  have htail : m.baseSegments.length ≤ pre.length := by
    have htail := hspec.tailPresent
    simp only [List.length_append, List.length_singleton] at htail
    omega
  have hnotBase : decide (pre.length + 1 ≤ m.baseSegments.length) = false := by
    simp only [decide_eq_false_iff_not]
    omega
  have hseq : n = u.nextSequence := scan_topology vm hu hn
  subst hseq
  simp only [topologyStep, bind_eq_ok, check_eq_ok, Bool.and_eq_true, beq_iff_eq] at hzn
  obtain ⟨-, ⟨⟨hid, hfirst⟩, -⟩, -⟩ := hzn
  simp only [scanSegment, bind_eq_ok, check_eq_ok, pure_eq_ok, hnotBase] at hz
  obtain ⟨v, hv, -, -, w, hw, x, hprofile, hz⟩ := hz
  have hws : w = s := Except.ok.inj hz
  subst w
  have hvseq := seedAvailabilityFrontier_sequence hv
  obtain ⟨hmap, hsseq⟩ := consume_sequences vm hw
  have hall : fold (consume vm false) s records =
      .ok ⟨c', s.nextSequence + records.length, s.lastSnapshotId⟩ := hfold s.lastSnapshotId
  obtain ⟨hmap', -⟩ := consume_sequences vm hall
  have hwell : wellFormed (z.append records) true = true := by
    have hrange : (z.records ++ records).map (·.sequence) =
        List.range' z.firstSequence (z.records ++ records).length := by
      rw [List.map_append, hmap, hmap', hsseq, hvseq, ← hfirst, List.length_append,
        List.range'_append_1]
    simp [wellFormed, SegmentFile.append, hrange, hopen]
  have hprofile' : segmentProfile (z.append records) m (pre.length + 1) =
      .ok () := by
    have hnone : m.baseSegments[pre.length + 1 - 1]? = none := by
      simpa using htail
    simp only [segmentProfile, hnone] at hprofile ⊢
    exact hprofile
  have hrecords : fold (consume vm false) v (z.append records).records =
      .ok ⟨c', s.nextSequence + records.length, s.lastSnapshotId⟩ := by
    simp only [SegmentFile.append, fold_append, hw, ok_bind, hall]
  have hz' : scanSegment vm m (pre.length + 1) u (z.append records, pre.length + 1) =
      .ok ⟨c', s.nextSequence + records.length, s.lastSnapshotId⟩ := by
    simp only [scanSegment, hv, ok_bind, BEq.rfl, hwell, check_true, hnotBase, hrecords, hprofile',
      pure_eq_ok]
  have hscan := (scanAll_concat vm).mpr ⟨u, hu, hz'⟩
  have htopology := validateTopology_concat.mpr ⟨_, hn, show topologyStep (pre.length + 1)
      u.nextSequence (z.append records, pre.length + 1) = .ok _ by
    simp [topologyStep, SegmentFile.append, hid, hfirst]
    rfl⟩
  have hids : (pre ++ [z.append records]).map (·.id) =
      List.range' 1 (pre ++ [z.append records]).length := by
    have hids := hspec.ids
    simp only [List.map_append, List.map_cons, List.map_nil, List.length_append,
      List.length_singleton] at hids ⊢
    exact hids
  have hcontiguous : contiguous? (pre ++ [z.append records]) = true := by
    simpa [contiguous?] using hids
  have hreplay := (replay_eq_ok vm).mpr ⟨by simpa using htail, hspec.tailId, hids,
    ⟨_, hscan, rfl⟩, ⟨_, htopology⟩, by
      have hfirst' := hspec.tailFirst
      rcases Nat.lt_or_ge m.baseSegments.length pre.length with hlt | hge
      · simpa [List.getElem?_append_left hlt] using hfirst'
      · simpa [List.getElem?_append_right hge, show m.baseSegments.length = pre.length by omega,
          SegmentFile.append] using hfirst'⟩
  rw [recover, hspec.manifest, hcontiguous, check_true, ok_bind, check_true, ok_bind, hreplay]
  rfl

end Reader

/-! ## Data for concrete runs -/

namespace Sample

def runtime : Runtime := ⟨fun _ ↦ 400, fun _ ↦ 3000, fun _ ↦ 200⟩

def limits : CandidateLimits := ⟨268435456, 0, false, []⟩

def fresh : Candidate := candidate limits Value.defaults

def definition : V2.Definition where
  args := .map []
  definitionVersion := 1
  maxAttempts := 3
  queueKey := text "q"
  retryPolicy := V2.policy
  scheduledAt := none
  timeoutMs := 1000
  workerKey := text "w"

def scheduleDefinition : V2.ScheduleDefinition where
  args := .map []
  catchUp := .latest
  trigger := .every 1000
  options := .map []
  overlap := .allow
  task := text "w"
  timezone := none

/-- The manifest of an epoch without a base. -/
def manifest (frontier : ℕ) : Manifest where
  epochId := 7
  sourceEpochId := none
  sourceFrontier := 0
  capturedAt := 0
  terminalRetention := .hours 1
  baseSegments := []
  tailSegmentId := 1
  tailFirstSequence := 1
  availabilityFrontier := some frontier

end Sample

end Tay
