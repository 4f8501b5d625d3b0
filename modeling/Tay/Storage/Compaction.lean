import Tay.Storage.Frozen
import Tay.Storage.Planning
import Tay.Storage.Publisher

/-!
# Compaction preserves meaning

Two arguments. Offline, the published epoch is replayed and compared with the plan up to renumbering;
what has to be shown is that the comparison is strong enough, down to the order of dispatch.

Online, the tail is never replayed. The source goes on from the frozen state and the new epoch from
the compacted one, both through the same records, and a simulation carries the comparison along. An
expired job is the only difference between the two, and the new epoch refuses every record that
touches one. `publishOnline_recover` closes the gap: replaying what was published gives exactly the
state the publisher vouched for.
-/

open Foundation

namespace Tay

open V2

/-! ## What every replay maintains -/

/-- Tables are keyed by the ids of their entries, and only known jobs have results. -/
structure Sound (c : Candidate) : Prop where
  jobs : Keyed Job.id c.jobs
  schedules : Keyed Schedule.id c.schedules
  results : ∀ id : JobId, c.jobs[id]? = none → c.results[id]? = none

theorem Sound.insertJob {c c' : Candidate} (h : Sound c) {id : JobId} {job : Job}
    (hid : job.id = id) (hjobs : c'.jobs = c.jobs.insert id job)
    (hschedules : c'.schedules = c.schedules) (hresults : c'.results = c.results) : Sound c' := by
  refine ⟨hjobs ▸ h.jobs.insert hid, hschedules ▸ h.schedules, ?_⟩
  intro k hk
  rw [hjobs] at hk
  rw [hresults]
  exact h.results k (insert_eq_none hk).1

namespace Auxiliary

theorem advance_keyed {c c' : Candidate} {e : AuxEvent} {id : Binary} {dueAt nextAt sequence : ℕ}
    (h : Keyed Schedule.id c.schedules) (ha : advance c e id dueAt nextAt sequence = .ok c') :
    Keyed Schedule.id c'.schedules := by
  unfold advance at ha
  rcases hs : c.schedules[id]? with _ | s
  · rw [hs] at ha
    cases ha
  · rw [hs] at ha
    simp only [bind_eq_ok, pure_eq_ok] at ha
    obtain ⟨-, -, -, -, -, -, ha⟩ := ha
    cases ha
    exact h.insert rfl

theorem restate_keyed {c c' : Candidate} {e : AuxEvent} {k : Checkpoint}
    (h : Keyed Schedule.id c.schedules) (ha : restate c e k = .ok c') :
    Keyed Schedule.id c'.schedules := by
  simp only [restate, bind_eq_ok, pure_eq_ok] at ha
  obtain ⟨-, -, ha⟩ := ha
  cases ha
  exact h.insert rfl

theorem update_keyed {c c' : Candidate} {id : Binary} {f : Schedule → Schedule}
    (hf : ∀ s, (f s).id = s.id) (h : Keyed Schedule.id c.schedules) (ha : update c id f = .ok c') :
    Keyed Schedule.id c'.schedules := by
  unfold update at ha
  rcases hs : c.schedules[id]? with _ | s
  · rw [hs] at ha
    cases ha
  · rw [hs] at ha
    cases ha
    exact h.insert ((hf s).trans (h id s hs))

theorem applyEvent_keyed {c c' : Candidate} {e : AuxEvent} {sequence : ℕ}
    (h : Keyed Schedule.id c.schedules) (ha : applyEvent c e sequence = .ok c') :
    Keyed Schedule.id c'.schedules := by
  obtain ⟨expected, timestamp, body⟩ := e
  cases body with
  | scheduleRegistered id definition nextAt =>
    simp only [applyEvent, bind_eq_ok, pure_eq_ok] at ha
    obtain ⟨-, -, ha⟩ := ha
    cases ha
    exact h.insert rfl
  | scheduleAdvanced id dueAt nextAt => exact advance_keyed h ha
  | scheduleCancelled id =>
    simp only [applyEvent] at ha
    rcases hs : c.schedules[id]? with _ | s
    · rw [hs] at ha
      cases ha
    · rw [hs] at ha
      simp only [bind_eq_ok, pure_eq_ok] at ha
      obtain ⟨-, -, ha⟩ := ha
      cases ha
      exact h.insert rfl
  | resultRecorded id result =>
    simp only [applyEvent] at ha
    rcases hj : c.jobs[id]? with _ | job
    · rw [hj] at ha
      cases ha
    · rw [hj] at ha
      simp only [bind_eq_ok, pure_eq_ok] at ha
      obtain ⟨-, -, -, -, ha⟩ := ha
      cases ha
      exact h
  | scheduleDelivered id active dueAt nextAt =>
    obtain ⟨next, hnext, ha⟩ := bind_eq_ok.mp ha
    exact update_keyed (by intro s; rfl) (advance_keyed h hnext) ha
  | scheduleCheckpoint k => exact restate_keyed h ha
  | scheduleMembership k members complete =>
    obtain ⟨next, hnext, ha⟩ := bind_eq_ok.mp ha
    exact update_keyed (by intro s; rfl) (restate_keyed h hnext) ha

/-- A result is recorded for a known job only. -/
theorem applyEvent_results {c c' : Candidate} {e : AuxEvent} {sequence : ℕ}
    (ha : applyEvent c e sequence = .ok c') {id : JobId} (hid : c.jobs[id]? = none) :
    c'.results[id]? = c.results[id]? := by
  obtain ⟨b, hb, -, -, -, -, hresults⟩ := applyEvent_simulates (b := c) (sameOutside_refl ∅ _)
    (fun _ _ _ ↦ rfl) (fun _ _ _ ↦ rfl) ha
  rw [ha] at hb
  cases hb
  exact hresults id hid

/-- The events a running engine appends: memberships, deliveries and results. The others are of
older logs. -/
def live : AuxBody → Bool
  | .scheduleMembership .. | .scheduleDelivered .. | .resultRecorded .. => true
  | _ => false

/-- What a live event does to keyed schedules does not depend on where it is recorded. -/
theorem applyEvent_live {c : Candidate} {e : AuxEvent} (hlive : live e.body = true)
    (h : Keyed Schedule.id c.schedules) (sequence sequence' : ℕ) :
    applyEvent c e sequence = applyEvent c e sequence' := by
  obtain ⟨expected, timestamp, body⟩ := e
  cases body with
  | scheduleRegistered | scheduleAdvanced | scheduleCancelled | scheduleCheckpoint => cases hlive
  | resultRecorded | scheduleMembership => rfl
  | scheduleDelivered id active dueAt nextAt =>
    simp only [applyEvent, advance]
    rcases hs : c.schedules[id]? with _ | s
    · rfl
    · obtain rfl : s.id = id := h id s hs
      -- the entry the advance wrote is overwritten, and with it the sequence
      simp only [bind_assoc, pure_eq_ok, ok_bind, update, Std.ExtTreeMap.getElem?_insert_self,
        insert_insert]

end Auxiliary

section Recovery

variable (vm : Runtime)

theorem Reducer.insertSnapshot_eq_ok {c c' : Candidate} {job : Job}
    (h : Reducer.insertSnapshot vm c job = .ok c') : ∃ ch, c' = { c with
      jobs := c.jobs.insert job.id (job.charged ch)
      count := c'.count
      bytes := c'.bytes
      availabilityOrders := c'.availabilityOrders
      nextAvailabilityOrder := c'.nextAvailabilityOrder } := by
  simp only [Reducer.insertSnapshot, bind_eq_ok, pure_eq_ok] at h
  obtain ⟨-, -, -, -, -, -, next, hnext, h⟩ := h
  cases h
  obtain ⟨ch, hch⟩ := Transition.putCandidate_eq_ok vm hnext
  refine ⟨ch, ?_⟩
  rw [hch]
  rfl

theorem Sound.insertSnapshot {c c' : Candidate} {job : Job} (hc : Sound c)
    (h : Reducer.insertSnapshot vm c job = .ok c') : Sound c' := by
  obtain ⟨ch, hc'⟩ := Reducer.insertSnapshot_eq_ok vm h
  rw [hc']
  have hid : (job.charged ch).id = job.id := rfl
  exact hc.insertJob hid rfl rfl rfl

theorem Sound.apply {c c' : Candidate} {m : Mutation} (hc : Sound c)
    (h : Reducer.apply vm c m = .ok c') : Sound c' := by
  obtain ⟨job, ch, hjob, hc'⟩ := Reducer.apply_eq_ok vm h
  rw [hc']
  have hid : (job.charged ch).id = m.jobId := by
    rw [Job.charged_id, Reducer.transitionJob_id hjob]
  exact hc.insertJob hid rfl rfl rfl

theorem Sound.reduce {c c' : Candidate} {e : AuxEvent} {sequence : ℕ} (hc : Sound c)
    (h : Auxiliary.reduce vm c e sequence = .ok c') : Sound c' := by
  obtain ⟨-, -, applied, happlied, hc'⟩ := Auxiliary.reduce_eq_ok vm h
  have hjobs : applied.jobs = c.jobs := by rw [Auxiliary.applyEvent_frame happlied]
  have hschedules := Auxiliary.applyEvent_keyed hc.schedules happlied
  rw [hc']
  refine ⟨hjobs ▸ hc.jobs, hschedules, ?_⟩
  intro id hid
  rw [hjobs] at hid
  rw [Auxiliary.applyEvent_results happlied hid]
  exact hc.results id hid

theorem sound_candidate (limits : CandidateLimits) (valueLimits : Value.Limits) :
    Sound (candidate limits valueLimits) := by
  refine ⟨?_, ?_, ?_⟩
  · intro k x hx
    simp [candidate] at hx
  · intro k x hx
    simp [candidate] at hx
  · intro id _
    simp [candidate]

namespace Reader

/-- **The replay rule.** What each kind of record and the seeding of the frontier preserve, every
scan preserves. A snapshot that has been decoded has no charge yet. -/
theorem scan_decoded {P : Candidate → Prop}
    (hsnapshot : ∀ c job c', job.charge = none → P c → Reducer.insertSnapshot vm c job = .ok c' → P c')
    (happly : ∀ c m c', P c → Reducer.apply vm c m = .ok c' → P c')
    (hreduce : ∀ c e sequence c', P c → Auxiliary.reduce vm c e sequence = .ok c' → P c')
    (hseed : ∀ c next, P c → P { c with nextAvailabilityOrder := next }) {m : Manifest} {total : ℕ}
    {xs : List (SegmentFile × ℕ)} {s t : State} (hs : P s.candidate)
    (h : fold (scanSegment vm m total) s xs = .ok t) : P t.candidate := by
  have hconsume : ∀ (base? : Bool) (s : State) (r : Record) (t : State), P s.candidate →
      consume vm base? s r = .ok t → P t.candidate := by
    intro base? s r t hs h
    simp only [consume, bind_eq_ok, pure_eq_ok] at h
    obtain ⟨-, -, next, hnext, h⟩ := h
    cases h
    obtain ⟨sequence, payload⟩ := r
    rcases payload with job | m | e <;> rcases base? with _ | _ <;>
      simp only [consumeKind, bind_eq_ok, pure_eq_ok] at hnext
    · cases hnext
    · obtain ⟨job', hdecode, -, -, c, hc, hnext⟩ := hnext
      cases hnext
      have hcharge : job'.charge = none := by
        simp only [Codec.decodeSnapshot, bind_eq_ok, pure_eq_ok] at hdecode
        obtain ⟨-, -, -, -, -, -, bytes, -, -, -, hjob⟩ := hdecode
        cases hjob
        rfl
      exact hsnapshot _ _ _ hcharge hs hc
    · obtain ⟨m', -, c, hc, hnext⟩ := hnext
      cases hnext
      exact happly _ _ _ hs hc
    · cases hnext
    all_goals
      obtain ⟨e', -, c, hc, hnext⟩ := hnext
      cases hnext
      exact hreduce _ _ _ _ hs hc
  refine fold_invariant (P := fun s : State ↦ P s.candidate) ?_ hs h
  intro s x t hs h
  simp only [scanSegment, bind_eq_ok, pure_eq_ok] at h
  obtain ⟨s', hs', -, -, t', ht', -, -, h⟩ := h
  cases h
  refine fold_invariant (P := fun s : State ↦ P s.candidate)
    (fun s r t hs h ↦ hconsume _ s r t hs h) ?_ ht'
  unfold seedAvailabilityFrontier at hs'
  split at hs'
  · split at hs'
    · cases hs'
      exact hs
    · simp only [bind_eq_ok, pure_eq_ok] at hs'
      obtain ⟨-, -, hs'⟩ := hs'
      cases hs'
      exact hseed _ _ hs
  · cases hs'
    exact hs

/-- The same for a property that a charge does not matter for. -/
theorem scan_invariant {P : Candidate → Prop}
    (hsnapshot : ∀ c job c', P c → Reducer.insertSnapshot vm c job = .ok c' → P c')
    (happly : ∀ c m c', P c → Reducer.apply vm c m = .ok c' → P c')
    (hreduce : ∀ c e sequence c', P c → Auxiliary.reduce vm c e sequence = .ok c' → P c')
    (hseed : ∀ c next, P c → P { c with nextAvailabilityOrder := next }) {m : Manifest} {total : ℕ}
    {xs : List (SegmentFile × ℕ)} {s t : State} (hs : P s.candidate)
    (h : fold (scanSegment vm m total) s xs = .ok t) : P t.candidate :=
  scan_decoded vm (fun c job c' _ ↦ hsnapshot c job c') happly hreduce hseed hs h

theorem scan_sound {m : Manifest} {total : ℕ} {xs : List (SegmentFile × ℕ)} {s t : State}
    (hs : Sound s.candidate) (h : fold (scanSegment vm m total) s xs = .ok t) :
    Sound t.candidate :=
  scan_invariant vm (fun _ _ _ hc h ↦ hc.insertSnapshot vm h) (fun _ _ _ hc h ↦ hc.apply vm h)
    (fun _ _ _ _ hc h ↦ hc.reduce vm h) (fun _ _ hc ↦ ⟨hc.jobs, hc.schedules, hc.results⟩) hs h

theorem scan_valueLimits {m : Manifest} {total : ℕ} {xs : List (SegmentFile × ℕ)} {s t : State}
    (h : fold (scanSegment vm m total) s xs = .ok t) :
    t.candidate.valueLimits = s.candidate.valueLimits := by
  refine scan_invariant vm (P := fun c ↦ c.valueLimits = s.candidate.valueLimits)
    ?_ ?_ ?_ (fun _ _ hc ↦ hc) rfl h
  · intro c job c' hc h
    obtain ⟨ch, hc'⟩ := Reducer.insertSnapshot_eq_ok vm h
    rw [hc']
    exact hc
  · intro c m c' hc h
    obtain ⟨job, ch, -, hc'⟩ := Reducer.apply_eq_ok vm h
    rw [hc']
    exact hc
  · intro c e sequence c' hc h
    obtain ⟨-, -, applied, happlied, hc'⟩ := Auxiliary.reduce_eq_ok vm h
    rw [hc', Auxiliary.applyEvent_frame happlied]
    exact hc

theorem recover_sound {d : Directory} {c : Candidate} {r : Recovered} (hc : Sound c)
    (h : recover vm d c = .ok r) : Sound r.candidate := by
  obtain ⟨s, hs, rfl⟩ := (recover_spec vm h).scanned
  exact scan_sound vm hc hs

end Reader

end Recovery

/-! ## What is preserved -/

open Snapshot

/-- A compacted state against its source, given the jobs that had expired. -/
structure Preserves (expired : JobId → Prop) (source compacted : Candidate) : Prop where
  kept : ∀ id, ¬expired id →
    (compacted.jobs[id]?).map Job.unnumbered = (source.jobs[id]?).map Job.unnumbered
  dropped : ∀ id, expired id → compacted.jobs[id]? = none
  keptResults : ∀ id, ¬expired id → compacted.results[id]? = source.results[id]?
  droppedResults : ∀ id, expired id → compacted.results[id]? = none
  schedules : compacted.schedules = source.schedules
  queueOrder : ∀ tasks queue now limit,
    QueueIndex.ready tasks compacted.jobs queue now limit =
      QueueIndex.ready tasks source.jobs queue now limit
  taskOrder : ∀ tasks queue task now limit,
    TaskIndex.ready tasks compacted.jobs queue task now limit =
      TaskIndex.ready tasks source.jobs queue task now limit

/-- The results of the kept jobs are those of the jobs that have not expired. -/
theorem filter_results {jobs kept : Table JobId Job} {results : Table JobId JobResult}
    {expired : JobId → Prop} (hknown : ∀ id : JobId, jobs[id]? = none → results[id]? = none)
    (hdropped : ∀ id, expired id → kept[id]? = none)
    (hkept : ∀ id, ¬expired id → (kept[id]?).isSome = (jobs[id]?).isSome) :
    (∀ id, ¬expired id →
      (results.filter fun id _ ↦ (kept[id]?).isSome)[id]? = results[id]?) ∧
      ∀ id, expired id → (results.filter fun id _ ↦ (kept[id]?).isSome)[id]? = none := by
  constructor
  · intro id hid
    rw [Std.ExtTreeMap.getElem?_filter', hkept id hid]
    rcases hjob : jobs[id]? with _ | job
    · rw [hknown id hjob]
      rfl
    · rcases results[id]? with _ | r <;> rfl
  · intro id hid
    rw [Std.ExtTreeMap.getElem?_filter', hdropped id hid]
    rcases results[id]? with _ | r <;> rfl

namespace Publisher

variable (vm : Runtime)

/-- Everything a successful build has compared. -/
theorem buildCandidate_spec {q : Request} {source : Source} {kept : Kept}
    {equivalent : Table JobId Job → Table JobId Job → Bool} {built : Built}
    (h : buildCandidate vm q source kept equivalent = .ok built) :
    ∃ tailFirst, built.manifest = manifest q source built.base tailFirst ∧
      built.tail = ⟨built.base.length + 1, tailFirst, [], false⟩ ∧
      Reader.recover vm ⟨built.manifest, built.base ++ [built.tail]⟩
        (candidate q.limits q.valueLimits) = .ok built.candidate ∧
      equivalent kept.jobs built.candidate.candidate.jobs = true ∧
      built.candidate.candidate.schedules = source.schedules ∧
      built.candidate.candidate.results =
        source.results.filter fun id _ ↦ (kept.jobs[id]?).isSome := by
  simp only [buildCandidate, bind_eq_ok, check_eq_ok, pure_eq_ok, Bool.and_eq_true,
    beq_iff_eq] at h
  obtain ⟨base, -, r, hr, -, ⟨⟨hjobs, hschedules⟩, hresults⟩, h⟩ := h
  cases h
  exact ⟨_, rfl, rfl, hr, hjobs, hschedules.symm, hresults.symm⟩

theorem equivalent_spec {before after : Table JobId Job} (h : equivalent? before after = true) :
    Keyed Job.id before ∧ Keyed Job.id after ∧
      Snapshot.durable (normalizeAvailability before) =
        Snapshot.durable (normalizeAvailability after) := by
  unfold equivalent? at h
  split at h
  · rename_i hbefore hafter
    exact ⟨keyed_of_validateSource hbefore, keyed_of_validateSource hafter, beq_iff_eq.mp h⟩
  · cases h

/-- **Offline compaction.** -/
theorem publish_preserves {q : Request} {d : Directory} {r : Reader.Recovered} {p : Published}
    (hr : Reader.recover vm d (candidate q.limits q.valueLimits) = .ok r)
    (hp : publish vm q d = .ok p) :
    Reader.recover vm p.directory (candidate q.limits q.valueLimits) = .ok p.recovered ∧
      Preserves (Expired r.candidate.jobs q.retention q.capturedAt) r.candidate
        p.recovered.candidate := by
  have hsound := Reader.recover_sound vm (sound_candidate _ _) hr
  simp only [publish, hr, ok_bind, Snapshot.prepare, bind_eq_ok, pure_eq_ok] at hp
  obtain ⟨plan, ⟨kept, hkept, hplan⟩, -, -, built, hbuilt, recovered, hrecovered, -, -, hp⟩ := hp
  cases hplan
  cases hp
  obtain ⟨hkeyed, hdropped, hkeep⟩ := retained_spec hkept
  obtain ⟨tailFirst, -, -, hbuilt', hequivalent, hschedules, hresults⟩ :=
    buildCandidate_spec vm hbuilt
  -- the published epoch is the one that was built and compared
  rw [hbuilt'] at hrecovered
  cases hrecovered
  obtain ⟨hkeyedPlan, hkeyed', hdurable⟩ := equivalent_spec hequivalent
  have hplanned (id : JobId) : (built.candidate.candidate.jobs[id]?).map Job.unnumbered =
      (kept.jobs[id]?).map Job.unnumbered := by
    rw [← unnumbered_of_durable_eq hdurable, normalize_unnumbered]
  have hplaces : places built.candidate.candidate.jobs = places r.candidate.jobs := by
    have havailable : availableSorted kept.jobs = availableSorted r.candidate.jobs := by
      refine availableSorted_congr ?_
      intro id job hstate
      by_cases hid : Expired r.candidate.jobs q.retention q.capturedAt id
      · have ⟨x, hx, hexpire⟩ := hid
        rw [hdropped id hid, hx]
        constructor
        · rintro ⟨⟩
        · rintro ⟨⟩
          have hterminal := terminal_of_expire hexpire
          rw [hstate] at hterminal
          cases hterminal
      · rw [hkeep id hid]
    rw [← places_of_durable_eq hdurable, places_normalize, places, havailable, places]
  have horder := ready_congr hkeyed hkeyed' (by
    rw [dispatchOrder_eq hkeyed, dispatchOrder_eq hkeyed', hplaces])
  have hsome (id : JobId) :
      ((normalizeAvailability kept.jobs)[id]?).isSome = (kept.jobs[id]?).isSome := by
    have h := congrArg Option.isSome (normalize_unnumbered kept.jobs id)
    simpa only [Option.isSome_map] using h
  have hnone {id : JobId} (hid : Expired r.candidate.jobs q.retention q.capturedAt id) :
      (normalizeAvailability kept.jobs)[id]? = none := by
    have h := normalize_unnumbered kept.jobs id
    rwa [hdropped id hid, Option.map_none, Option.map_eq_none_iff] at h
  obtain ⟨hkeptResults, hdroppedResults⟩ := filter_results hsound.results (fun id ↦ hnone)
    (fun id hid ↦ by rw [hsome id, hkeep id hid])
  refine ⟨hbuilt', ?_, ?_, hresults ▸ hkeptResults, hresults ▸ hdroppedResults, hschedules,
    horder.1, horder.2⟩
  · intro id hid
    rw [hplanned id, hkeep id hid]
  · intro id hid
    have h := hplanned id
    rwa [hdropped id hid, Option.map_none, Option.map_eq_none_iff] at h

end Publisher

/-! ## Catching up

The source and the new epoch go through the same records from different states. -/

/-- The new epoch against the source: the same, but for the jobs that had expired when the base was
captured. -/
structure CaughtUp (expired : JobId → Prop) (source logical : Candidate) : Prop where
  kept : ∀ id, ¬expired id →
    (logical.jobs[id]?).map Job.durable = (source.jobs[id]?).map Job.durable
  dropped : ∀ id, expired id → logical.jobs[id]? = none
  terminal : ∀ id, expired id → terminal? source.jobs[id]? = true
  keptResults : ∀ id, ¬expired id → logical.results[id]? = source.results[id]?
  droppedResults : ∀ id, expired id → logical.results[id]? = none
  schedules : logical.schedules = source.schedules
  valueLimits : logical.valueLimits = source.valueLimits

namespace CaughtUp

variable {vm : Runtime} {expired : JobId → Prop} {a a' b b' : Candidate}

/-- The next orders are not compared. -/
theorem reorder (h : CaughtUp expired a b) (next next' : ℕ) :
    CaughtUp expired { a with nextAvailabilityOrder := next }
      { b with nextAvailabilityOrder := next' } :=
  ⟨h.kept, h.dropped, h.terminal, h.keptResults, h.droppedResults, h.schedules, h.valueLimits⟩

/-- Neither side's running members include an expired job. -/
theorem active (h : CaughtUp expired a b) (id : JobId) :
    active? b.jobs[id]? = active? a.jobs[id]? := by
  by_cases hid : expired id
  · have hterminal := h.terminal id hid
    rw [h.dropped id hid]
    rcases hjob : a.jobs[id]? with _ | job
    · rfl
    · rw [hjob] at hterminal
      simp only [terminal?] at hterminal
      simp only [active?, hterminal, Bool.not_true]
  · rw [← active?_durable, h.kept id hid, active?_durable]

/-- A mutation both sides accept leaves the expired jobs alone. -/
theorem apply {m : Mutation} (h : CaughtUp expired a b) (ha : Reducer.apply vm a m = .ok a')
    (hb : Reducer.apply vm b m = .ok b') : CaughtUp expired a' b' := by
  obtain ⟨x, ch, hx, ha'⟩ := Reducer.apply_eq_ok vm ha
  obtain ⟨y, ch', hy, hb'⟩ := Reducer.apply_eq_ok vm hb
  have hid : ¬expired m.jobId := by
    intro hid
    have hinserted := Reducer.transitionJob_inserted hx
    rw [Reducer.transitionJob_inserted hy, h.dropped _ hid] at hinserted
    have hterminal := h.terminal _ hid
    rw [Option.isNone_iff_eq_none.mp hinserted.symm] at hterminal
    cases hterminal
  have hxy : y.durable = x.durable := by
    obtain ⟨z, hz, hzx⟩ := Reducer.transitionJob_congr (h.kept _ hid).symm hx
    rw [h.valueLimits] at hy
    rw [← hzx, Reducer.transitionJob_order hz hy]
  have hjobs : a'.jobs = a.jobs.insert m.jobId (x.charged ch) := by rw [ha']
  have hjobs' : b'.jobs = b.jobs.insert m.jobId (y.charged ch') := by rw [hb']
  have hother {id : JobId} (hne : ¬m.jobId = id) :
      a'.jobs[id]? = a.jobs[id]? ∧ b'.jobs[id]? = b.jobs[id]? := by
    rw [hjobs, hjobs']
    simp only [Std.ExtTreeMap.getElem?_insert, Std.LawfulEqCmp.compare_eq_iff_eq, hne, if_false,
      and_self]
  have hexpired {id : JobId} (hid' : expired id) : ¬m.jobId = id := by
    rintro rfl
    exact hid hid'
  refine ⟨?_, ?_, ?_, ?_, ?_, ?_, ?_⟩
  · intro id hid'
    by_cases hne : m.jobId = id
    · subst hne
      rw [hjobs, hjobs', Std.ExtTreeMap.getElem?_insert_self, Std.ExtTreeMap.getElem?_insert_self,
        Option.map_some, Option.map_some, Job.durable_charged, Job.durable_charged, hxy]
    · rw [(hother hne).1, (hother hne).2]
      exact h.kept id hid'
  · intro id hid'
    rw [(hother (hexpired hid')).2]
    exact h.dropped id hid'
  · intro id hid'
    rw [(hother (hexpired hid')).1]
    exact h.terminal id hid'
  · rw [ha', hb']
    exact h.keptResults
  · rw [hb']
    exact h.droppedResults
  · rw [ha', hb']
    exact h.schedules
  · rw [ha', hb']
    exact h.valueLimits

theorem sameOutside_empty {s t : Table Binary Schedule} (h : Auxiliary.SameOutside ∅ s t) : t = s := by
  refine Std.ExtTreeMap.ext_getElem? fun k ↦ ?_
  have houtside : Auxiliary.outside ∅ = id := by
    funext x
    simp [Auxiliary.outside]
  have hk := h k
  rwa [houtside, Option.map_id, id, id] at hk

/-- A live event both sides accept, wherever each records it. -/
theorem reduce {e : AuxEvent} {sequence sequence' : ℕ} (h : CaughtUp expired a b)
    (hkeyed : Keyed Schedule.id a.schedules) (hlive : Auxiliary.live e.body = true)
    (ha : Auxiliary.reduce vm a e sequence = .ok a')
    (hb : Auxiliary.reduce vm b e sequence' = .ok b') : CaughtUp expired a' b' := by
  obtain ⟨-, -, x, hx, ha'⟩ := Auxiliary.reduce_eq_ok vm ha
  obtain ⟨-, -, y, hy, hb'⟩ := Auxiliary.reduce_eq_ok vm hb
  rw [Auxiliary.applyEvent_live hlive (h.schedules ▸ hkeyed) sequence' sequence] at hy
  have hresult : ∀ id result, e.body = .resultRecorded id result →
      (b.jobs[id]?).map Job.durable = (a.jobs[id]?).map Job.durable := by
    intro id result hbody
    obtain ⟨job, hjob⟩ := Auxiliary.applyEvent_result hbody hy
    refine h.kept id fun hid ↦ ?_
    rw [h.dropped id hid] at hjob
    cases hjob
  have hschedules : Auxiliary.SameOutside ∅ a.schedules b.schedules :=
    h.schedules ▸ Auxiliary.sameOutside_refl ∅ _
  obtain ⟨z, hz, hsame, hxa, hzb, hresults, hnone⟩ := Auxiliary.applyEvent_simulates
    hschedules (fun id _ _ ↦ h.active id) hresult hx
  rw [hy] at hz
  cases hz
  have hjobs : a'.jobs = a.jobs ∧ b'.jobs = b.jobs := by
    rw [ha', hxa, hb', hzb]
    exact ⟨rfl, rfl⟩
  refine ⟨?_, ?_, ?_, ?_, ?_, ?_, ?_⟩
  · rw [hjobs.1, hjobs.2]
    exact h.kept
  · rw [hjobs.2]
    exact h.dropped
  · rw [hjobs.1]
    exact h.terminal
  · intro id hid
    rw [ha', hb']
    exact hresults id (h.keptResults id hid)
  · intro id hid
    rw [hb']
    exact (hnone id (h.dropped id hid)).trans (h.droppedResults id hid)
  · rw [ha', hb']
    exact sameOutside_empty hsame
  · rw [ha', hxa, hb', hzb]
    exact h.valueLimits

/-- Caught up, the two dispatch alike. -/
theorem preserves (h : CaughtUp expired a b) (ha : Keyed Job.id a.jobs) (hb : Keyed Job.id b.jobs) :
    Preserves expired a b := by
  have havailable : availableSorted (Snapshot.durable b.jobs) =
      availableSorted (Snapshot.durable a.jobs) := by
    refine availableSorted_congr ?_
    intro id job hstate
    rw [durable_get, durable_get]
    by_cases hid : expired id
    · rw [h.dropped id hid]
      have hterminal := h.terminal id hid
      constructor
      · rintro ⟨⟩
      · intro hjob
        obtain ⟨x, hx, rfl⟩ := Option.map_eq_some_iff.mp hjob
        rw [hx, terminal?, ← Job.durable_state, hstate] at hterminal
        cases hterminal
    · rw [h.kept id hid]
  have hplaces : places b.jobs = places a.jobs := by
    rw [← places_durable, places, havailable, ← places, places_durable]
  have horder := ready_congr ha hb (by rw [dispatchOrder_eq ha, dispatchOrder_eq hb, hplaces])
  refine ⟨?_, h.dropped, h.keptResults, h.droppedResults, h.schedules, horder.1, horder.2⟩
  intro id hid
  have hforget (x : Option Job) : x.map Job.unnumbered = (x.map Job.durable).map Job.unnumbered := by
    rw [Option.map_map]
    rfl
  rw [hforget, h.kept id hid, ← hforget]

end CaughtUp

/-- What a running engine appends. -/
def Payload.live : Payload → Bool
  | .mutation _ => true
  | .auxiliary e => Auxiliary.live e.body
  | .snapshot _ => false

namespace Publisher

variable {vm : Runtime} {expired : JobId → Prop}

theorem decodeMutation_eq {m m' : Mutation} {limits : Value.Limits}
    (h : Codec.decodeMutation m limits = .ok m') : m' = m := by
  simp only [Codec.decodeMutation, bind_eq_ok, pure_eq_ok] at h
  obtain ⟨-, -, -, -, -, -, h⟩ := h
  exact (Except.ok.inj h).symm

theorem decodeAux_eq {e e' : AuxEvent} {limits : Value.Limits}
    (h : Reader.decodeAux e limits = .ok e') : e' = e := by
  simp only [Reader.decodeAux, bind_eq_ok, pure_eq_ok] at h
  obtain ⟨-, -, -, -, h⟩ := h
  exact (Except.ok.inj h).symm

theorem frame_eq_ok {s t : Delta} {logical : Candidate} {p : Payload}
    (h : frame s logical p = .ok t) :
    t = ⟨logical, s.tail.append [⟨s.sequence, p⟩]⟩ := by
  simp only [frame, bind_eq_ok, pure_eq_ok] at h
  obtain ⟨-, -, h⟩ := h
  exact (Except.ok.inj h).symm

/-- One record, replayed by the source and caught up by the new epoch. -/
theorem follow_record {a a' : Reader.State} {b b' : Delta} {r : Record}
    (h : CaughtUp expired a.candidate b.logical) (hsound : Sound a.candidate)
    (hlive : r.payload.live = true) (ha : Reader.consume vm false a r = .ok a')
    (hb : appendDelta vm b r.payload = .ok b') :
    CaughtUp expired a'.candidate b'.logical ∧ Sound a'.candidate := by
  simp only [Reader.consume, bind_eq_ok, pure_eq_ok] at ha
  obtain ⟨-, -, next, hnext, ha⟩ := ha
  cases ha
  obtain ⟨sequence, payload⟩ := r
  rcases payload with job | m | e
  · cases hlive
  · simp only [Reader.consumeKind, bind_eq_ok, pure_eq_ok] at hnext
    simp only [appendDelta, bind_eq_ok] at hb
    obtain ⟨m₁, hm₁, c, hc, hnext⟩ := hnext
    obtain ⟨m₂, hm₂, l, hl, hb⟩ := hb
    cases hnext
    rw [decodeMutation_eq hm₁] at hc
    rw [decodeMutation_eq hm₂] at hl
    rw [frame_eq_ok hb]
    exact ⟨h.apply hc hl, hsound.apply vm hc⟩
  · simp only [Reader.consumeKind, bind_eq_ok, pure_eq_ok] at hnext
    simp only [appendDelta, bind_eq_ok] at hb
    obtain ⟨e₁, he₁, c, hc, hnext⟩ := hnext
    obtain ⟨e₂, he₂, l, hl, hb⟩ := hb
    cases hnext
    rw [decodeAux_eq he₁] at hc
    rw [decodeAux_eq he₂] at hl
    rw [frame_eq_ok hb]
    exact ⟨h.reduce hsound.schedules hlive hc hl, hsound.reduce vm hc⟩

theorem follow_records {records : List Record} (hlive : ∀ r ∈ records, r.payload.live = true) :
    ∀ {a a' : Reader.State} {b b' : Delta}, CaughtUp expired a.candidate b.logical →
      Sound a.candidate → fold (Reader.consume vm false) a records = .ok a' →
      fold (appendDelta vm) b (records.map (·.payload)) = .ok b' →
        CaughtUp expired a'.candidate b'.logical ∧ Sound a'.candidate := by
  induction records with
  | nil =>
    intro a a' b b' h hsound ha hb
    cases ha
    cases hb
    exact ⟨h, hsound⟩
  | cons r records ih =>
    intro a a' b b' h hsound ha hb
    obtain ⟨c, hc, ha⟩ := bind_eq_ok.mp ha
    obtain ⟨l, hl, hb⟩ := bind_eq_ok.mp hb
    obtain ⟨h', hsound'⟩ := follow_record h hsound (hlive r List.mem_cons_self) hc hl
    exact ih (fun x hx ↦ hlive x (List.mem_cons_of_mem _ hx)) h' hsound' ha hb

/-- Whole segments behind the base. The source may seed its frontier on the way. -/
theorem follow_segments {m : Manifest} {total : ℕ} {segments : List SegmentFile}
    (hlive : ∀ p ∈ payloads segments, p.live = true) :
    ∀ {k : ℕ} {a a' : Reader.State} {b b' : Delta}, m.baseSegments.length < k →
      CaughtUp expired a.candidate b.logical → Sound a.candidate →
      fold (Reader.scanSegment vm m total) a (segments.zipIdx k) = .ok a' →
      fold (appendDelta vm) b (payloads segments) = .ok b' →
        CaughtUp expired a'.candidate b'.logical := by
  induction segments with
  | nil =>
    intro k a a' b b' _ h _ ha hb
    cases ha
    cases hb
    exact h
  | cons s segments ih =>
    intro k a a' b b' hk h hsound ha hb
    obtain ⟨c, hc, ha⟩ := bind_eq_ok.mp ha
    simp only [payloads, List.flatMap_cons, fold_append] at hb
    obtain ⟨l, hl, hb⟩ := bind_eq_ok.mp hb
    have hbase : decide (k ≤ m.baseSegments.length) = false := by simpa using hk
    simp only [Reader.scanSegment, bind_eq_ok, pure_eq_ok, hbase] at hc
    obtain ⟨a₁, ha₁, -, -, a₂, ha₂, -, -, hc⟩ := hc
    cases hc
    have hseeded : CaughtUp expired a₁.candidate b.logical ∧ Sound a₁.candidate := by
      by_cases htail : k = m.baseSegments.length + 1
      · subst htail
        rw [Reader.seedAvailabilityFrontier_at_tail ha₁]
        exact ⟨h.reorder _ b.logical.nextAvailabilityOrder, hsound.jobs, hsound.schedules,
          hsound.results⟩
      · rw [Reader.seedAvailabilityFrontier_of_ne htail] at ha₁
        cases ha₁
        exact ⟨h, hsound⟩
    have hmem {p : Payload} (hp : p ∈ s.records.map (·.payload)) : p ∈ payloads (s :: segments) :=
      List.mem_flatMap.mpr ⟨s, List.mem_cons_self, hp⟩
    obtain ⟨h', hsound'⟩ := follow_records
      (fun r hr ↦ hlive _ (hmem (List.mem_map_of_mem hr))) hseeded.1 hseeded.2 ha₂ hl
    refine ih ?_ (Nat.lt_succ_of_lt hk) h' hsound' ha hb
    intro p hp
    obtain ⟨x, hx, hp⟩ := List.mem_flatMap.mp hp
    exact hlive p (List.mem_flatMap.mpr ⟨x, List.mem_cons_of_mem _ hx, hp⟩)

/-! ## Replaying what was published -/

/-- A framed record replays to the state it was framed from. -/
theorem appendDelta_consume {s t : Delta} {p : Payload} (h : appendDelta vm s p = .ok t)
    (last : Option JobId) :
    t.tail = s.tail.append [⟨s.sequence, p⟩] ∧
      Reader.consume vm false ⟨s.logical, s.sequence, last⟩ ⟨s.sequence, p⟩ =
        .ok ⟨t.logical, s.sequence + 1, last⟩ := by
  rcases p with job | m | e
  · cases h
  · simp only [appendDelta, bind_eq_ok] at h
    obtain ⟨m', hm, next, hnext, h⟩ := h
    rw [frame_eq_ok h]
    simp [Reader.consume, Reader.consumeKind, hm, hnext]
  · simp only [appendDelta, bind_eq_ok] at h
    obtain ⟨e', he, next, hnext, h⟩ := h
    rw [frame_eq_ok h]
    simp [Reader.consume, Reader.consumeKind, he, hnext]

theorem delta_consume {delta : List Payload} : ∀ {s t : Delta},
    fold (appendDelta vm) s delta = .ok t → ∃ records : List Record,
      t.tail = s.tail.append records ∧
      ∀ last, fold (Reader.consume vm false) ⟨s.logical, s.sequence, last⟩ records =
        .ok ⟨t.logical, s.sequence + records.length, last⟩ := by
  induction delta with
  | nil =>
    intro s t h
    cases h
    exact ⟨[], by simp [SegmentFile.append], fun _ ↦ rfl⟩
  | cons p delta ih =>
    intro s t h
    obtain ⟨u, hu, h⟩ := bind_eq_ok.mp h
    obtain ⟨records, htail, hconsume⟩ := ih h
    have hutail := (appendDelta_consume hu none).1
    have hsequence : u.sequence = s.sequence + 1 := by
      simp only [Delta.sequence, hutail, SegmentFile.append, List.length_append,
        List.length_singleton]
      omega
    refine ⟨⟨s.sequence, p⟩ :: records, ?_, ?_⟩
    · rw [htail, hutail]
      simp [SegmentFile.append]
    · intro last
      rw [fold_cons, (appendDelta_consume hu last).2, ok_bind, ← hsequence, hconsume last, hsequence,
        List.length_cons, Nat.add_assoc, Nat.add_comm 1]

/-- What a successful online publication went through. -/
theorem publishOnline_spec {q : Request} {d : Directory} {frontier exclude : ℕ}
    {delta : List Payload} {p : Published}
    (h : publishOnline vm q d frontier exclude delta = .ok p) :
    ∃ (f : Reader.Recovered) (kept : Kept) (built : Built) (t : Delta) (next : ℕ),
      Reader.recoverFrozen vm d (candidate q.limits q.valueLimits) d.manifest.epochId exclude =
        .ok f ∧
      retained f.candidate.jobs q.retention q.capturedAt = .ok kept ∧
      buildCandidate vm q ⟨d.manifest.epochId, frontier, f.candidate.jobs, f.candidate.schedules,
        f.candidate.results, some f.candidate.nextAvailabilityOrder⟩ kept onlineEquivalent? =
          .ok built ∧
      1 ≤ f.candidate.nextAvailabilityOrder ∧
      fold (appendDelta vm)
        ⟨{ built.candidate.candidate with
            nextAvailabilityOrder := f.candidate.nextAvailabilityOrder }, built.tail⟩ delta =
          .ok t ∧
      Reader.validateTopology (built.base ++ [t.tail]) = .ok next ∧
      p = ⟨⟨built.manifest, built.base ++ [t.tail]⟩,
        patched built.candidate (built.base ++ [t.tail]) t next⟩ := by
  simp only [publishOnline, loadSource, bind_eq_ok, pure_eq_ok] at h
  obtain ⟨source, ⟨f, hf, -, -, hsource⟩, kept, hkept, built, hbuilt, logical, hlogical, t, ht,
    next, hnext, h⟩ := h
  cases hsource
  cases h
  simp only [catchUpCandidate, bind_eq_ok, check_eq_ok, pure_eq_ok, Bool.and_eq_true,
    decide_eq_true_eq, Option.getD_some] at hlogical
  obtain ⟨-, ⟨⟨hone, -⟩, -⟩, hlogical⟩ := hlogical
  cases hlogical
  exact ⟨f, kept, built, t, next, hf, hkept, hbuilt, hone, ht, hnext, rfl⟩

/-- **The published epoch replays.** The tail is framed without being read back; reading it back
gives the state the publisher returns. -/
theorem publishOnline_recover {q : Request} {d : Directory} {frontier exclude : ℕ}
    {delta : List Payload} {p : Published}
    (h : publishOnline vm q d frontier exclude delta = .ok p) :
    Reader.recover vm p.directory (candidate q.limits q.valueLimits) = .ok p.recovered := by
  obtain ⟨f, kept, built, t, next, -, -, hbuilt, hone, ht, hnext, rfl⟩ := publishOnline_spec h
  obtain ⟨tailFirst, hmanifest, htail, hrecover, -⟩ := buildCandidate_spec vm hbuilt
  have hspec := Reader.recover_spec vm hrecover
  obtain ⟨u, s, -, -, hfirst, hseed, hcandidate⟩ :=
    Reader.recover_split vm hspec rfl (by rw [htail])
  obtain ⟨records, hrecords, hconsume⟩ := delta_consume ht
  have hbase : built.manifest.baseSegments.length = built.base.length := by
    rw [hmanifest]
    exact List.length_map _
  have hcandidate' : built.candidate.candidate = s.candidate := by
    rw [hcandidate]
    rfl
  have hnext' : built.candidate.nextSequence = built.tail.firstSequence + built.tail.records.length := by
    have hs : built.candidate.nextSequence = s.nextSequence := by
      rw [hcandidate]
      rfl
    rw [hs, Reader.seedAvailabilityFrontier_sequence hseed, ← hfirst, htail]
    rfl
  have hlogical : { built.candidate.candidate with
      nextAvailabilityOrder := f.candidate.nextAvailabilityOrder } = built.candidate.candidate := by
    have hs := Reader.seedAvailabilityFrontier_at_tail (hbase ▸ hseed)
    have hfrontier : built.manifest.availabilityFrontier =
        some (f.candidate.nextAvailabilityOrder - 1) := by rw [hmanifest]; rfl
    simp only [hfrontier, Option.elim_some, Nat.sub_add_cancel hone] at hs
    rw [hcandidate', hs]
  have hfold : ∀ last, fold (Reader.consume vm false)
      ⟨built.candidate.candidate, built.candidate.nextSequence, last⟩ records =
        .ok ⟨t.logical, built.candidate.nextSequence + records.length, last⟩ := by
    intro last
    have h := hconsume last
    rw [hlogical] at h
    rw [hnext']
    exact h
  have hrecovered := Reader.recover_append vm hrecover (by rw [htail]) hfold
  have hsegments : built.tail.append records = t.tail := hrecords.symm
  rw [hsegments] at hrecovered
  have hsequence := Reader.recover_topology vm hrecovered hnext
  have hpatched : patched built.candidate (built.base ++ [t.tail]) t next =
      Reader.summarize built.manifest (built.base ++ [t.tail]) ⟨t.logical, next, none⟩ := by
    rw [hcandidate]
    simp [patched, Reader.summarize, SegmentFile.summary]
  rw [hpatched, ← hsequence]
  exact hrecovered

/-- The base of an online compaction is the frozen source without the expired jobs. -/
theorem built_caughtUp {q : Request} {c : Candidate} {kept : Kept} {built : Built}
    {epochId frontier : ℕ} (hsound : Sound c)
    (hlimits : c.valueLimits = built.candidate.candidate.valueLimits)
    (hkept : retained c.jobs q.retention q.capturedAt = .ok kept)
    (hbuilt : buildCandidate vm q ⟨epochId, frontier, c.jobs, c.schedules,
      c.results, some c.nextAvailabilityOrder⟩ kept onlineEquivalent? =
        .ok built) :
    CaughtUp (Expired c.jobs q.retention q.capturedAt) c
      built.candidate.candidate := by
  obtain ⟨-, hdropped, hkeep⟩ := retained_spec hkept
  obtain ⟨-, -, -, -, hequivalent, hschedules, hresults⟩ := buildCandidate_spec vm hbuilt
  have hdurable (id : JobId) : (built.candidate.candidate.jobs[id]?).map Job.durable =
      (kept.jobs[id]?).map Job.durable := by
    rw [← durable_get, ← durable_get, ← beq_iff_eq.mp hequivalent]
  obtain ⟨hkeptResults, hdroppedResults⟩ := filter_results hsound.results hdropped
    (fun id hid ↦ by rw [hkeep id hid])
  refine ⟨?_, ?_, fun id hid ↦ hid.terminal, hresults ▸ hkeptResults, hresults ▸ hdroppedResults,
    hschedules, hlimits.symm⟩
  · intro id hid
    rw [hdurable id, hkeep id hid]
  · intro id hid
    have h := hdurable id
    rwa [hdropped id hid, Option.map_none, Option.map_eq_none_iff] at h

/-- **Online compaction.** The source is `d` with everything the writer appended to it, and the
delta is what was appended from segment `exclude` on. -/
theorem publishOnline_preserves {q : Request} {d : Directory} {frontier exclude : ℕ}
    {r : Reader.Recovered} {p : Published}
    (hr : Reader.recover vm d (candidate q.limits q.valueLimits) = .ok r)
    (hlive : ∀ x ∈ accepted d exclude, x.live = true)
    (hp : publishOnline vm q d frontier exclude (accepted d exclude) = .ok p) :
    Reader.recover vm p.directory (candidate q.limits q.valueLimits) = .ok p.recovered ∧
      ∃ f, Reader.recoverFrozen vm d (candidate q.limits q.valueLimits) d.manifest.epochId exclude =
          .ok f ∧
        Preserves (Expired f.candidate.jobs q.retention q.capturedAt) r.candidate
          p.recovered.candidate := by
  have hrecover := publishOnline_recover hp
  refine ⟨hrecover, ?_⟩
  obtain ⟨f, kept, built, t, next, hf, hkept, hbuilt, -, ht, -, rfl⟩ := publishOnline_spec hp
  refine ⟨f, hf, ?_⟩
  obtain ⟨pre, k, u, s, hk, hu, hpre, hpost, hrs⟩ := Reader.recover_from_frozen vm hr hf
  have hfresh := sound_candidate q.limits q.valueLimits
  have hsound : Sound u.candidate := Reader.scan_sound vm hfresh hpre
  have hlimits : u.candidate.valueLimits = built.candidate.candidate.valueLimits := by
    obtain ⟨-, -, -, hbase, -⟩ := buildCandidate_spec vm hbuilt
    obtain ⟨v, hv, hcandidate⟩ := (Reader.recover_spec vm hbase).scanned
    rw [Reader.scan_valueLimits vm hpre, hcandidate]
    exact (Reader.scan_valueLimits vm hv).symm
  rw [← hu] at hkept hbuilt ht ⊢
  have hstart := (built_caughtUp hsound hlimits hkept hbuilt).reorder
    u.candidate.nextAvailabilityOrder u.candidate.nextAvailabilityOrder
  have hcaughtUp := follow_segments hlive hk hstart hsound hpost ht
  rw [hrs]
  exact hcaughtUp.preserves (Reader.scan_sound vm hsound hpost).jobs
    (Reader.recover_sound vm hfresh hrecover).jobs

/-- **Compaction preserves meaning.** Whatever an offline or an online compaction of a source
publishes is recovered to the source's replay without the jobs that had expired at the capture. -/
theorem compaction_preserves (vm : Runtime) (q : Request) (d : Directory) (r : Reader.Recovered)
    (hr : Reader.recover vm d (candidate q.limits q.valueLimits) = .ok r) :
    (∀ p, publish vm q d = .ok p →
      Reader.recover vm p.directory (candidate q.limits q.valueLimits) = .ok p.recovered ∧
        Preserves (Expired r.candidate.jobs q.retention q.capturedAt) r.candidate
          p.recovered.candidate) ∧
      ∀ frontier exclude p, (∀ x ∈ accepted d exclude, x.live = true) →
        publishOnline vm q d frontier exclude (accepted d exclude) = .ok p →
        Reader.recover vm p.directory (candidate q.limits q.valueLimits) = .ok p.recovered ∧
          ∃ f, Reader.recoverFrozen vm d (candidate q.limits q.valueLimits) d.manifest.epochId
              exclude = .ok f ∧
            Preserves (Expired f.candidate.jobs q.retention q.capturedAt) r.candidate
              p.recovered.candidate :=
  ⟨fun _ hp ↦ publish_preserves vm hr hp, fun _ _ _ hlive hp ↦ publishOnline_preserves hr hlive hp⟩

namespace Sample

open Tay.Sample

/-- Two ready jobs and a completed one with its result. -/
def history : List Payload :=
  [.mutation ⟨1, 0, 1, 10, .inserted definition 10 (some 1)⟩,
    .mutation ⟨2, 0, 1, 11, .inserted definition 11 (some 2)⟩,
    .mutation ⟨3, 0, 1, 12, .inserted definition 12 (some 3)⟩,
    .mutation ⟨2, 1, 2, 13, .started 1 1⟩,
    .mutation ⟨2, 2, 3, 14, .finished 0 0 (some 2) none none none⟩,
    .auxiliary ⟨3, 14, .resultRecorded 2 (.int 5)⟩]

/-- What arrives while the base is written: a schedule, and a start. -/
def delta : List Payload :=
  [.auxiliary ⟨0, 15, .scheduleMembership
      ⟨text "s", none, none, scheduleDefinition, none, 20, 15, 1⟩ [3] true⟩,
    .mutation ⟨1, 1, 2, 16, .started 1 1⟩]

def framed (first : ℕ) (payloads : List Payload) : List Record :=
  (payloads.zipIdx first).map fun x ↦ ⟨x.2, x.1⟩

def source (tail : List Payload) : Directory :=
  ⟨Tay.Sample.manifest 0, [⟨1, 1, framed 1 history, true⟩, ⟨2, 7, framed 7 tail, false⟩]⟩

/-- Keep no terminal job. -/
def request : Request := ⟨8, .minutes 0, 100, 16777352, limits, Value.defaults⟩

end Sample

/-- Both compactions of a small store go through: the completed job is dropped, the rest is kept. -/
theorem compaction_preserves_sample :
    (∃ r p, Reader.recover Sample.runtime (Sample.source []) Sample.fresh = .ok r ∧
      publish Sample.runtime Sample.request (Sample.source []) = .ok p ∧
      Preserves (Expired r.candidate.jobs (.minutes 0) 100) r.candidate p.recovered.candidate) ∧
    ∃ r p f, Reader.recover Sample.runtime (Sample.source Sample.delta) Sample.fresh = .ok r ∧
      publishOnline Sample.runtime Sample.request (Sample.source Sample.delta) 6 2
        (accepted (Sample.source Sample.delta) 2) = .ok p ∧
      Reader.recoverFrozen Sample.runtime (Sample.source Sample.delta) Sample.fresh 7 2 = .ok f ∧
      Preserves (Expired f.candidate.jobs (.minutes 0) 100) r.candidate p.recovered.candidate := by
  constructor
  · obtain ⟨r, hr⟩ : ∃ r, Reader.recover Sample.runtime (Sample.source []) Sample.fresh = .ok r :=
      exists_ok (by decide +kernel)
    obtain ⟨p, hp⟩ : ∃ p, publish Sample.runtime Sample.request (Sample.source []) = .ok p :=
      exists_ok (by decide +kernel)
    exact ⟨r, p, hr, hp,
      ((compaction_preserves Sample.runtime Sample.request _ r hr).1 p hp).2⟩
  · obtain ⟨r, hr⟩ : ∃ r, Reader.recover Sample.runtime (Sample.source Sample.delta) Sample.fresh =
      .ok r := exists_ok (by decide +kernel)
    obtain ⟨p, hp⟩ : ∃ p, publishOnline Sample.runtime Sample.request (Sample.source Sample.delta)
      6 2 (accepted (Sample.source Sample.delta) 2) = .ok p := exists_ok (by decide +kernel)
    obtain ⟨-, f, hf, hpreserves⟩ := (compaction_preserves Sample.runtime Sample.request _ r hr).2
      6 2 p (by decide +kernel) hp
    exact ⟨r, p, f, hr, hp, hf, hpreserves⟩

end Publisher

end Tay
