import Tay.Engine.Persistence
import Tay.Storage.Recovery

/-!
# Replaying the log

The engine validates one job at a time against a hot projection and a terminal store; recovery folds
whole records over a candidate. The two are separate implementations of one state. This module shows
that they agree: whatever the engine has committed, folding `Reader.consume` over the records it
appended rebuilds the same persistent jobs, schedules and results, and the same next availability
order.

Volatile jobs are the engine's alone. The log never mentions them, except as member ids of a
schedule, so the comparison is made outside the volatile ids and schedules are compared after
dropping them from the membership.
-/

open Foundation

namespace Tay.Engine

open V2 Transition ProjectionState

/-! ## Commands -/

/-- The commits an engine performs. An insertion is attempted only for an unknown id; every other job
event is applied to the job it names; a result event is committed with the job it belongs to. -/
inductive Op
  | insert (e : JobEvent) (mode : Durability)
  | change (e : JobEvent)
  | auxiliary (e : AuxEvent)

/-- The job event of a command, if it is about a job. -/
def Op.event? : Op → Option JobEvent
  | .insert e _ | .change e => some e
  | .auxiliary _ => none

/-- The job a result event is committed with. -/
def resultJob (s : State) : AuxBody → Option Job
  | .resultRecorded jobId _ => lookup s jobId
  | _ => none

variable (vm : Runtime)

/-- One command: the state it leaves and the records it appends. -/
def perform (s : State) (op : Op) (env : Environment) : Except Reason (State × List Record) :=
  match op with
  | .insert e mode =>
    match lookup s e.jobId with
    | some _ => .error .duplicateInsert
    | none => (fun c ↦ (c.state, c.records)) <$> commit vm s none e (some mode) env
  | .change e =>
    match lookup s e.jobId with
    | none => .error .missingJob
    | some p => (fun c ↦ (c.state, c.records)) <$> commit vm s (some p) e none env
  | .auxiliary e => commitAuxiliary vm s e (resultJob s e.body) env

/-- A run of accepted commands, and everything it appends. -/
def runCommands (s : State) : List (Op × Environment) → Except Reason (State × List Record)
  | [] => .ok (s, [])
  | (op, env) :: rest => do
    let r ← perform vm s op env
    let t ← runCommands r.1 rest
    return (t.1, r.2 ++ t.2)

/-! ## Agreement -/

/-- The live state and a replayed one agree on everything persistent. `c₀` is the candidate both
started from. -/
structure Agrees (c₀ : Candidate) (s : State) (r : Reader.State) : Prop where
  jobs : ∀ id ∉ s.volatileIds,
    (r.candidate.jobs[id]?).map Job.durable = (lookup s id).map Job.durable
  volatileJobs : ∀ id ∈ s.volatileIds, r.candidate.jobs[id]? = none
  schedules : Auxiliary.SameOutside s.volatileIds s.schedules r.candidate.schedules
  results : ∀ id ∉ s.volatileIds, r.candidate.results[id]? = s.results[id]?
  /-- Replay records no result for a job it does not know. -/
  unrecorded : ∀ id : JobId, r.candidate.jobs[id]? = none →
    r.candidate.results[id]? = c₀.results[id]?
  order : r.candidate.nextAvailabilityOrder = s.nextAvailabilityOrder
  sequence : r.nextSequence = s.nextSequence

/-- Agreement together with what keeps it going: volatile jobs are hot, the limits are those of the
configuration, and no epoch switch is pending. -/
structure Tracks (c₀ : Candidate) (s : State) (r : Reader.State) : Prop
    extends Agrees c₀ s r where
  volatileHot : ∀ id ∈ s.volatileIds, (s.hot[id]?).isSome
  limits : r.candidate.valueLimits = s.config.valueLimits
  online : s.onlineCompaction = .none

/-! ## Looking up a published job -/

/-- The hot version of the looked-up job is what the projection holds under its id. -/
theorem hotPrevious_eq {s : State} {id : JobId} {previous : Option Job}
    (hprevious : previous = lookup s id) (hid : ∀ p ∈ previous, p.id = id) :
    hotPrevious s previous = s.hot[id]? := by
  cases hp : previous with
  | none =>
    have hnone : s.hot[id]?.or s.terminalStore[id]? = none := by rw [← hp, hprevious]; rfl
    rw [(Option.or_eq_none_iff.mp hnone).1]
    rfl
  | some p => rw [hotPrevious, Option.bind_some, hid p hp]

/-- After publication the id maps to the new version and every other id to what it did before. -/
theorem lookup_publish {s : State} {previous : Option Job} {job : Job} {mode : Durability}
    (hprevious : previous = lookup s job.id) (hid : ∀ p ∈ previous, p.id = job.id) (id : JobId) :
    lookup (publish s previous job mode) id = if job.id = id then some job else lookup s id := by
  have hhot := hotPrevious_eq hprevious hid
  unfold publish
  split
  · -- A persistent terminal job leaves the projection for the terminal store.
    simp only [lookup, hhot]
    cases hold : s.hot[job.id]? with
    | none =>
      simp only [Std.ExtTreeMap.getElem?_insert, Std.LawfulEqCmp.compare_eq_iff_eq]
      split
      case isTrue heq =>
        subst heq
        rw [hold]
        rfl
      case isFalse => rfl
    | some p =>
      have hp : p.id = job.id := by
        apply hid
        rw [Option.mem_def, hprevious, lookup, hold]
        rfl
      simp only [hp, Std.ExtTreeMap.getElem?_insert, Std.ExtTreeMap.getElem?_erase,
        Std.LawfulEqCmp.compare_eq_iff_eq]
      split
      · rfl
      · rfl
  · rw [hhot]
    cases hold : s.hot[job.id]? with
    | some p =>
      simp only [lookup, Std.ExtTreeMap.getElem?_insert, Std.LawfulEqCmp.compare_eq_iff_eq]
      split
      · rfl
      · rfl
    | none =>
      cases hp : previous with
      | none =>
        simp only [lookup, Std.ExtTreeMap.getElem?_insert, Std.LawfulEqCmp.compare_eq_iff_eq]
        split
        · rfl
        · rfl
      | some p =>
        simp only [lookup, hid p hp, Std.ExtTreeMap.getElem?_insert, Std.ExtTreeMap.getElem?_erase,
          Std.LawfulEqCmp.compare_eq_iff_eq]
        split
        · rfl
        · rfl

theorem lookup_congr {s t : State} (hhot : s.hot = t.hot)
    (hterminal : s.terminalStore = t.terminalStore) (id : JobId) : lookup s id = lookup t id := by
  rw [lookup, lookup, hhot, hterminal]

/-- A volatile job is hot once it is published. -/
theorem hot_publish_volatile (s : State) (previous : Option Job) (job : Job) :
    (publish s previous job .volatile).hot[job.id]? = some job := by
  unfold publish
  rw [if_neg (by simp)]
  split
  · exact Std.ExtTreeMap.getElem?_insert_self
  · exact Std.ExtTreeMap.getElem?_insert_self

/-- Publishing leaves the hot versions of other jobs alone. -/
theorem hot_publish_of_ne {s : State} {previous : Option Job} {job : Job} {mode : Durability}
    (hid : ∀ p ∈ hotPrevious s previous, p.id = job.id) {id : JobId} (hne : job.id ≠ id) :
    (publish s previous job mode).hot[id]? = s.hot[id]? := by
  unfold publish
  split
  · cases hp : hotPrevious s previous with
    | none => rfl
    | some p =>
      simp only [hid p hp, Std.ExtTreeMap.getElem?_erase, Std.LawfulEqCmp.compare_eq_iff_eq, hne,
        if_false]
  · split
    · simp only [Std.ExtTreeMap.getElem?_insert, Std.LawfulEqCmp.compare_eq_iff_eq, hne, if_false]
    · simp only [Std.ExtTreeMap.getElem?_insert, Std.LawfulEqCmp.compare_eq_iff_eq, hne, if_false]

/-! ## Job commits -/

theorem fromEvent_jobId {e : JobEvent} {previous : Option Job} {nextOrder : ℕ} {m : Mutation}
    (h : Mutation.fromEvent e previous nextOrder = .ok m) : m.jobId = e.jobId := by
  simp only [Mutation.fromEvent, bind_eq_ok, pure_eq_ok] at h
  obtain ⟨body, -, h⟩ := h
  cases h
  rfl

/-- What has been encoded decodes to itself. -/
theorem decodeMutation_of_encodeMutation {m : Mutation} {limits : Value.Limits} {payload : Binary}
    (h : Codec.encodeMutation m limits = .ok payload) : Codec.decodeMutation m limits = .ok m := by
  simp only [Codec.encodeMutation, Value.encode, bind_eq_ok, check_eq_ok, pure_eq_ok] at h
  obtain ⟨u, hm, -, ⟨stats, hstats, -⟩, -, hlength, -⟩ := h
  simp only [Codec.decodeMutation, hlength, hstats, hm, check_true, ok_bind, pure_eq_ok]

/-- Replaying the record of a persistent commit: the same job, or a refusal for memory. -/
theorem consume_mutation {c₀ : Candidate} {s : State} {r : Reader.State} {e : JobEvent}
    {c : Committed} {p : Prepared} (htracks : Tracks c₀ s r) (hfresh : e.jobId ∉ s.volatileIds)
    (hp : PreparedSpec s (lookup s e.jobId) e p)
    (hc : FinishedSpec s (lookup s e.jobId) e p
      (expectedPosition s (Payload.mutation p.mutation).bytes) c) :
    (∃ r', Reader.consume vm false r ⟨s.nextSequence, .mutation p.mutation⟩ = .ok r' ∧
        Tracks c₀ c.state r') ∨
      ∃ err, Reader.consume vm false r ⟨s.nextSequence, .mutation p.mutation⟩ = .error err ∧
        err.memory = true := by
  obtain ⟨job, hjob, htransition, horder⟩ := hp.transition
  have hmid : p.mutation.jobId = e.jobId := fromEvent_jobId hp.mutation
  have hid : c.job.id = e.jobId := by
    rw [← Job.durable_id, hc.job, hjob, Job.durable_id, Reducer.transitionJob_id htransition, hmid]
  have hprevious : ∀ q ∈ lookup s e.jobId, q.id = c.job.id := by
    intro q hq
    rw [Option.mem_def.mp hq] at htransition
    rw [Reducer.transitionJob_previous htransition, hmid, hid]
  have hlookup : ∀ id, lookup c.state id = if e.jobId = id then some c.job else lookup s id := by
    intro id
    have hpub := @lookup_publish s _ c.job .persistent (by rw [hid]) hprevious id
    rw [hid] at hpub
    rw [← hpub, lookup_congr hc.hot hc.terminalStore]
  -- The replayed job makes the same transition, up to its charge.
  obtain ⟨job', hjob', hdurable⟩ :=
    Reducer.transitionJob_congr (q := r.candidate.jobs[p.mutation.jobId]?)
      (by rw [hmid, htracks.jobs _ hfresh]) htransition
  rw [← htracks.order, ← htracks.limits] at hjob'
  have hdecode := decodeMutation_of_encodeMutation hp.encoded
  rw [← htracks.limits] at hdecode
  simp only [Reader.consume, Reader.consumeKind, htracks.sequence, beq_self_eq_true, check_true,
    ok_bind, hdecode]
  rcases Reducer.apply_cases vm hjob' with ⟨ch, count, bytes, orders, happly⟩ | ⟨err, herr, hmem⟩
  · rw [happly]
    refine .inl ⟨_, rfl, ?_⟩
    have hjobs : job'.durable = c.job.durable := by rw [hdurable, hc.job, hjob]
    refine ⟨⟨?_, ?_, ?_, ?_, ?_, ?_, ?_⟩, ?_, ?_, ?_⟩
    · intro id hvolatile
      rw [hc.volatileIds] at hvolatile
      simp only [hlookup, hmid, Std.ExtTreeMap.getElem?_insert, Std.LawfulEqCmp.compare_eq_iff_eq]
      split
      · rw [Option.map_some, Option.map_some, Job.durable_charged, hjobs]
      · exact htracks.jobs id hvolatile
    · intro id hvolatile
      rw [hc.volatileIds] at hvolatile
      have hne : ¬e.jobId = id := fun h ↦ hfresh (h ▸ hvolatile)
      simp only [hmid, Std.ExtTreeMap.getElem?_insert, Std.LawfulEqCmp.compare_eq_iff_eq, hne,
        if_false]
      exact htracks.volatileJobs id hvolatile
    · rw [hc.volatileIds, hc.schedules]
      exact htracks.schedules
    · intro id hvolatile
      rw [hc.volatileIds] at hvolatile
      rw [hc.results]
      exact htracks.results id hvolatile
    · intro id hnone
      simp only [hmid, Std.ExtTreeMap.getElem?_insert, Std.LawfulEqCmp.compare_eq_iff_eq] at hnone
      split at hnone
      · cases hnone
      · exact htracks.unrecorded id hnone
    · rw [hc.order, horder]
      have horders : job'.availabilityOrder = job.availabilityOrder := by
        rw [← Job.durable_availabilityOrder, hdurable, Job.durable_availabilityOrder]
      simp only [horders, htracks.order]
    · rw [hc.sequence]
    · intro id hvolatile
      rw [hc.volatileIds] at hvolatile
      have hne : ¬e.jobId = id := fun h ↦ hfresh (h ▸ hvolatile)
      have hhotId : ∀ q ∈ hotPrevious s (lookup s e.jobId), q.id = c.job.id := by
        intro q hq
        rw [hotPrevious_eq rfl (hid ▸ hprevious)] at hq
        apply hprevious
        rw [Option.mem_def, lookup, Option.mem_def.mp hq]
        rfl
      rw [hc.hot, hot_publish_of_ne hhotId (hid ▸ hne)]
      exact htracks.volatileHot id hvolatile
    · rw [hc.config]
      exact htracks.limits
    · rw [hc.online]
      exact htracks.online
  · rw [herr]
    exact .inr ⟨err, rfl, hmem⟩

/-- Schedules that agree outside some ids agree outside more of them. -/
theorem sameOutside_insert {ids : Finset JobId} {a b : Table Binary Schedule} (id : JobId)
    (h : Auxiliary.SameOutside ids a b) : Auxiliary.SameOutside (insert id ids) a b := by
  have houtside : ∀ s, Auxiliary.outside (insert id ids) s =
      Auxiliary.outside (insert id ids) (Auxiliary.outside ids s) := by
    intro s
    simp only [Auxiliary.outside, List.filter_filter]
    congr 1
    apply List.filter_congr
    intro x _
    by_cases hx : x ∈ ids <;> simp [hx]
  intro k
  have hk := congrArg (Option.map (Auxiliary.outside (insert id ids))) (h k)
  simpa only [Option.map_map, Function.comp_def, ← houtside] using hk

/-- A volatile commit is invisible to the log. -/
theorem tracks_volatile {c₀ : Candidate} {s : State} {r : Reader.State} {e : JobEvent}
    {c : Committed} (htracks : Tracks c₀ s r)
    (hknown : e.jobId ∈ s.volatileIds ∨ lookup s e.jobId = none)
    (hc : VolatileSpec s (lookup s e.jobId) e c) : Tracks c₀ c.state r := by
  obtain ⟨m, job, hm, htransition, hjobId, -⟩ := hc.transition
  have hmid : m.jobId = e.jobId := fromEvent_jobId hm
  have hid : c.job.id = e.jobId := by
    rw [hjobId, Reducer.transitionJob_id htransition, hmid]
  have hprevious : ∀ q ∈ lookup s e.jobId, q.id = c.job.id := by
    intro q hq
    rw [Option.mem_def.mp hq] at htransition
    rw [Reducer.transitionJob_previous htransition, hmid, hid]
  have hvolatileIds : c.state.volatileIds = insert e.jobId s.volatileIds := by
    rw [hc.volatileIds, hid]
  have hmem : ∀ id, id ∉ c.state.volatileIds → id ≠ e.jobId ∧ id ∉ s.volatileIds := by
    intro id h
    rw [hvolatileIds, Finset.mem_insert, not_or] at h
    exact h
  refine ⟨⟨?_, ?_, ?_, ?_, ?_, ?_, ?_⟩, ?_, ?_, ?_⟩
  · intro id h
    obtain ⟨hne, hold⟩ := hmem id h
    have hpub := @lookup_publish s _ c.job .volatile (by rw [hid]) hprevious id
    rw [hid, if_neg hne.symm] at hpub
    rw [htracks.jobs id hold, ← hpub, lookup_congr hc.hot hc.terminalStore]
  · intro id h
    rw [hvolatileIds, Finset.mem_insert] at h
    rcases h with rfl | h
    · rcases hknown with hknown | hknown
      · exact htracks.volatileJobs _ hknown
      · have hold : e.jobId ∉ s.volatileIds := by
          intro h
          have hhot := htracks.volatileHot _ h
          rw [lookup, Option.or_eq_none_iff] at hknown
          rw [hknown.1] at hhot
          cases hhot
        have := htracks.jobs _ hold
        rw [hknown] at this
        exact Option.map_eq_none_iff.mp this
    · exact htracks.volatileJobs id h
  · rw [hvolatileIds, hc.schedules]
    exact sameOutside_insert _ htracks.schedules
  · intro id h
    rw [hc.results]
    exact htracks.results id (hmem id h).2
  · exact htracks.unrecorded
  · rw [hc.order]
    exact htracks.order
  · rw [hc.sequence]
    exact htracks.sequence
  · intro id h
    rw [hvolatileIds, Finset.mem_insert] at h
    rw [hc.hot]
    by_cases hne : id = e.jobId
    · rw [hne, ← hid, hot_publish_volatile]
      rfl
    · rw [hot_publish_of_ne (fun q hq ↦ ?_) (by rw [hid]; exact fun h ↦ hne h.symm)]
      · exact htracks.volatileHot id (h.resolve_left hne)
      · rw [hotPrevious_eq rfl (hid ▸ hprevious)] at hq
        apply hprevious
        rw [Option.mem_def, lookup, Option.mem_def.mp hq]
        rfl
  · rw [hc.config]
    exact htracks.limits
  · rw [hc.online]
    exact htracks.online

/-! ## Auxiliary commits -/

theorem decodeAux_of_encode {e : AuxEvent} {limits : Value.Limits} {payload : Binary}
    (h : e.encode limits Value.maxBytes = .ok payload) : Reader.decodeAux e limits = .ok e := by
  simp only [AuxEvent.encode, bind_eq_ok, check_eq_ok] at h
  obtain ⟨stats, hstats, -, hvalid, -⟩ := h
  simp only [Reader.decodeAux, hstats, hvalid, check_true, ok_bind, pure_eq_ok]

/-- The jobs of the seed are those the projection holds, for every member the event asks about. -/
theorem auxiliarySeed_member {s : State} {e : AuxEvent} {x : JobId}
    (hx : x ∈ Auxiliary.memberIds s.schedules e) :
    (auxiliarySeed s e (resultJob s e.body)).jobs[x]? = lookup s x := by
  have hjob : resultJob s e.body = none := by
    obtain ⟨expected, timestamp, body⟩ := e
    cases body with
    | resultRecorded jobId result =>
      simp [Auxiliary.memberIds, AuxBody.scheduleId?, AuxBody.activeJobId?] at hx
    | _ => rfl
  simp [auxiliarySeed, hjob, seedJobs_get, hx]

/-- The seed of a result event holds the completed job and nothing else. -/
theorem auxiliarySeed_result {s : State} {e : AuxEvent} {jobId : JobId} {result : Value}
    {job : Job} (hbody : e.body = .resultRecorded jobId result)
    (h : (auxiliarySeed s e (resultJob s e.body)).jobs[jobId]? = some job) :
    lookup s jobId = some job ∧ job.id = jobId := by
  have hids : Auxiliary.memberIds s.schedules e = [] := by
    simp [Auxiliary.memberIds, hbody, AuxBody.scheduleId?, AuxBody.activeJobId?]
  simp only [auxiliarySeed, hids, hbody, resultJob, List.dedup_nil] at h
  cases hj : lookup s jobId with
  | none =>
    rw [hj] at h
    simp [seedJobs] at h
  | some j =>
    rw [hj] at h
    simp only [seedJobs, List.foldl_nil, Std.ExtTreeMap.getElem?_insert,
      Std.LawfulEqCmp.compare_eq_iff_eq] at h
    split at h
    case isTrue heq =>
      cases h
      exact ⟨rfl, heq⟩
    case isFalse => simp at h

/-- Replaying the record of an auxiliary commit: the same schedules and results, or a refusal for
memory. -/
theorem consume_auxiliary {c₀ : Candidate} {s t : State} {r : Reader.State} {e : AuxEvent}
    {records : List Record} (htracks : Tracks c₀ s r)
    (hpersistent : ∀ j ∈ resultJob s e.body, j.id ∉ s.volatileIds)
    (h : AuxiliarySpec vm s s e (resultJob s e.body) t records) :
    (∃ r', Reader.consume vm false r ⟨s.nextSequence, .auxiliary e⟩ = .ok r' ∧ Tracks c₀ t r') ∨
      ∃ err, Reader.consume vm false r ⟨s.nextSequence, .auxiliary e⟩ = .error err ∧
        err.memory = true := by
  obtain ⟨c, hreduce, ht⟩ := h.reduced
  obtain ⟨⟨payload, hencode⟩, hsequence, applied, happlied, hc⟩ := Auxiliary.reduce_eq_ok vm hreduce
  have hlimits : (auxiliarySeed s e (resultJob s e.body)).valueLimits = r.candidate.valueLimits :=
    htracks.limits.symm
  rw [hlimits] at hencode
  have hmembers : ∀ x ∈ Auxiliary.memberIds s.schedules e, x ∉ s.volatileIds →
      active? r.candidate.jobs[x]? =
        active? (auxiliarySeed s e (resultJob s e.body)).jobs[x]? := by
    intro x hx hout
    rw [auxiliarySeed_member hx, ← active?_durable, htracks.jobs x hout, active?_durable]
  have hresult : ∀ id result, e.body = .resultRecorded id result →
      (r.candidate.jobs[id]?).map Job.durable =
        ((auxiliarySeed s e (resultJob s e.body)).jobs[id]?).map Job.durable := by
    intro id result hbody
    obtain ⟨j, hj⟩ := Auxiliary.applyEvent_result hbody happlied
    obtain ⟨hlookup, hid⟩ := auxiliarySeed_result hbody hj
    have hout : id ∉ s.volatileIds := by
      rw [← hid]
      exact hpersistent j (by rw [hbody]; exact hlookup)
    rw [htracks.jobs id hout, hlookup, hj]
  obtain ⟨b, hb, hsame, happlied', hb', hresults, hunknown⟩ :=
    Auxiliary.applyEvent_simulates htracks.schedules hmembers hresult happlied
  simp only [Reader.consume, Reader.consumeKind, htracks.sequence, beq_self_eq_true, check_true,
    ok_bind, decodeAux_of_encode hencode]
  rcases Auxiliary.reduce_cases vm hencode hsequence hb with
    ⟨bytes, auxiliaryBytes, hok⟩ | ⟨err, herr, hmem⟩
  · rw [hok]
    refine .inl ⟨_, rfl, ?_⟩
    have hschedules : t.schedules = applied.schedules := by rw [ht, hc]
    have hlive : t.results = applied.results := by rw [ht, hc]
    have hvolatile : t.volatileIds = s.volatileIds := by rw [ht]; rfl
    have hlookup : ∀ id, lookup t id = lookup s id := lookup_congr (by rw [ht]; rfl) (by rw [ht]; rfl)
    have hjobs : b.jobs = r.candidate.jobs := by rw [hb']
    refine ⟨⟨?_, ?_, ?_, ?_, ?_, ?_, ?_⟩, ?_, ?_, ?_⟩
    · intro id hid
      rw [hvolatile] at hid
      rw [hlookup]
      simp only [hjobs]
      exact htracks.jobs id hid
    · intro id hid
      rw [hvolatile] at hid
      simp only [hjobs]
      exact htracks.volatileJobs id hid
    · rw [hvolatile, hschedules]
      exact hsame
    · intro id hid
      rw [hvolatile] at hid
      rw [hlive]
      exact hresults id (htracks.results id hid)
    · intro id hid
      simp only [hjobs] at hid
      exact (hunknown id hid).trans (htracks.unrecorded id hid)
    · rw [hb', ht]
      exact htracks.order
    · rw [ht]
      rfl
    · intro id hid
      rw [hvolatile] at hid
      rw [ht]
      exact htracks.volatileHot id hid
    · rw [hb', ht]
      exact htracks.limits
    · rw [ht]
      exact htracks.online
  · rw [herr]
    exact .inr ⟨err, rfl, hmem⟩

/-- The result of a volatile job stays with the engine. -/
theorem tracks_volatileAuxiliary {c₀ : Candidate} {s : State} {r : Reader.State} {e : AuxEvent}
    {env : Environment} {out : State × List Record} {j : Job} (htracks : Tracks c₀ s r)
    (hj : resultJob s e.body = some j) (hvolatile : j.id ∈ s.volatileIds)
    (h : commitVolatileAuxiliary vm s e (resultJob s e.body) env = .ok out) :
    out.2 = [] ∧ Tracks c₀ out.1 r := by
  simp only [commitVolatileAuxiliary, bind_eq_ok, pure_eq_ok] at h
  obtain ⟨-, -, c, hreduce, -, -, h⟩ := h
  cases h
  obtain ⟨-, -, applied, happlied, hc⟩ := Auxiliary.reduce_eq_ok vm hreduce
  have hresults : ∀ id ∉ s.volatileIds, c.results[id]? = s.results[id]? := by
    intro id hid
    rw [hc]
    obtain ⟨expected, timestamp, body⟩ := e
    cases body with
    | resultRecorded jobId result =>
      obtain ⟨k, hk⟩ := Auxiliary.applyEvent_result rfl happlied
      obtain ⟨hlookup, hkid⟩ := auxiliarySeed_result rfl hk
      simp only [resultJob, hlookup, Option.some.injEq] at hj
      subst hj
      simp only [Auxiliary.applyEvent] at happlied
      rw [hk] at happlied
      simp only [bind_eq_ok, pure_eq_ok] at happlied
      obtain ⟨-, -, -, -, happlied⟩ := happlied
      cases happlied
      have hne : ¬jobId = id := by
        rintro rfl
        exact hid (hkid ▸ hvolatile)
      simp only [Std.ExtTreeMap.getElem?_insert, Std.LawfulEqCmp.compare_eq_iff_eq, hne, if_false]
      rfl
    | scheduleRegistered | scheduleAdvanced | scheduleCancelled | scheduleDelivered
    | scheduleCheckpoint | scheduleMembership => cases hj
  refine ⟨rfl, ⟨⟨htracks.jobs, htracks.volatileJobs, htracks.schedules, ?_, htracks.unrecorded,
    htracks.order, htracks.sequence⟩, htracks.volatileHot, htracks.limits, htracks.online⟩⟩
  intro id hid
  exact (htracks.results id hid).trans (hresults id hid).symm

/-! ## What a command commits -/

/-- A commit on the job it names is volatile on a volatile or new job, and persistent on a job that
is not volatile. -/
theorem commit_cases {s : State} {e : JobEvent} {given : Option Durability} {env : Environment}
    {c : Committed} (hhot : ∀ id ∈ s.volatileIds, (s.hot[id]?).isSome)
    (hgiven : given.isSome ↔ lookup s e.jobId = none)
    (h : commit vm s (lookup s e.jobId) e given env = .ok c) :
    ((e.jobId ∈ s.volatileIds ∨ lookup s e.jobId = none) ∧
        VolatileSpec s (lookup s e.jobId) e c) ∨
      e.jobId ∉ s.volatileIds ∧ commitV2 vm s (lookup s e.jobId) e env = .ok c := by
  have hunknown : lookup s e.jobId = none → e.jobId ∉ s.volatileIds := by
    intro hnone hmem
    have := hhot _ hmem
    rw [lookup, Option.or_eq_none_iff] at hnone
    rw [hnone.1] at this
    cases this
  unfold commit at h
  split at h
  case h_1 hmode =>
    have hc := commitVolatile_spec vm h
    refine .inl ⟨?_, hc⟩
    cases hp : lookup s e.jobId with
    | none => exact .inr rfl
    | some p =>
      obtain ⟨m, job, hm, htransition, -⟩ := hc.transition
      rw [hp] at htransition hgiven
      have hid := Reducer.transitionJob_previous htransition
      have hnone : given = none := by simpa using hgiven
      rw [hp, hnone] at hmode
      simp only [Option.getD_none, durability] at hmode
      split at hmode
      case isTrue hvolatile =>
        rw [fromEvent_jobId hm] at hid
        exact .inl (hid ▸ hvolatile)
      case isFalse => cases hmode
  case h_2 hmode =>
    refine .inr ⟨?_, h⟩
    cases hlookup : lookup s e.jobId with
    | none => exact hunknown hlookup
    | some q =>
      obtain ⟨p, base, hp, -⟩ := commitV2_landing vm h
      obtain ⟨job, -, htransition, -⟩ := hp.transition
      rw [hlookup] at htransition hgiven
      have hid := Reducer.transitionJob_previous htransition
      have hnone : given = none := by simpa using hgiven
      rw [hlookup, hnone] at hmode
      simp only [Option.getD_none, durability] at hmode
      split at hmode
      case isTrue => cases hmode
      case isFalse hvolatile =>
        rw [fromEvent_jobId hp.mutation] at hid
        exact hid ▸ hvolatile

/-- The four ways a command is carried out. -/
theorem perform_cases {s : State} {op : Op} {env : Environment} {out : State × List Record}
    (hhot : ∀ id ∈ s.volatileIds, (s.hot[id]?).isSome) (h : perform vm s op env = .ok out) :
    (∃ e c, op.event? = some e ∧ (e.jobId ∈ s.volatileIds ∨ lookup s e.jobId = none) ∧
        VolatileSpec s (lookup s e.jobId) e c ∧ out = (c.state, c.records)) ∨
      (∃ e c, op.event? = some e ∧ e.jobId ∉ s.volatileIds ∧
        commitV2 vm s (lookup s e.jobId) e env = .ok c ∧ out = (c.state, c.records)) ∨
      (∃ e j, op = .auxiliary e ∧ resultJob s e.body = some j ∧ j.id ∈ s.volatileIds ∧
        commitVolatileAuxiliary vm s e (resultJob s e.body) env = .ok out) ∨
      ∃ e, op = .auxiliary e ∧ (∀ j ∈ resultJob s e.body, j.id ∉ s.volatileIds) ∧
        commitPersistentAuxiliary vm s e (resultJob s e.body) env = .ok out := by
  have hjob : ∀ e given, op.event? = some e → (given.isSome ↔ lookup s e.jobId = none) →
      (fun c : Committed ↦ (c.state, c.records)) <$> commit vm s (lookup s e.jobId) e given env =
        .ok out →
      (∃ e c, op.event? = some e ∧ (e.jobId ∈ s.volatileIds ∨ lookup s e.jobId = none) ∧
        VolatileSpec s (lookup s e.jobId) e c ∧ out = (c.state, c.records)) ∨
      ∃ e c, op.event? = some e ∧ e.jobId ∉ s.volatileIds ∧
        commitV2 vm s (lookup s e.jobId) e env = .ok c ∧ out = (c.state, c.records) := by
    intro e given he hgiven hcommit
    cases hc : commit vm s (lookup s e.jobId) e given env with
    | error reason =>
      rw [hc] at hcommit
      cases hcommit
    | ok c =>
      rw [hc] at hcommit
      cases hcommit
      rcases commit_cases vm hhot hgiven hc with ⟨hknown, hspec⟩ | ⟨hfresh, hv2⟩
      · exact .inl ⟨e, c, he, hknown, hspec, rfl⟩
      · exact .inr ⟨e, c, he, hfresh, hv2, rfl⟩
  cases op with
  | insert e mode =>
    cases hlookup : lookup s e.jobId with
    | some p =>
      simp only [perform, hlookup] at h
      cases h
    | none =>
      simp only [perform, hlookup] at h
      rw [← hlookup] at h
      rcases hjob e (some mode) rfl ⟨fun _ ↦ hlookup, fun _ ↦ rfl⟩ h with hv | hp
      · exact .inl hv
      · exact .inr (.inl hp)
  | change e =>
    cases hlookup : lookup s e.jobId with
    | none =>
      simp only [perform, hlookup] at h
      cases h
    | some p =>
      simp only [perform, hlookup] at h
      rw [← hlookup] at h
      rcases hjob e none rfl (by simp [hlookup]) h with hv | hp
      · exact .inl hv
      · exact .inr (.inl hp)
  | auxiliary e =>
    simp only [perform, commitAuxiliary] at h
    split at h
    case isTrue hvolatile =>
      rw [Option.any_eq_true] at hvolatile
      obtain ⟨j, hj, hvolatile⟩ := hvolatile
      have hmem : j.id ∈ s.volatileIds := by
        by_contra hnot
        simp [durability, hnot] at hvolatile
      exact .inr (.inr (.inl ⟨e, j, rfl, hj, hmem, h⟩))
    case isFalse hpersistent =>
      refine .inr (.inr (.inr ⟨e, rfl, ?_, h⟩))
      intro j hj hmem
      apply hpersistent
      rw [Option.any_eq_true]
      exact ⟨j, hj, by simp [durability, hmem]⟩

/-! ## Runs -/

/-- The replay of a list of records keeps up with the engine, unless memory is refused. -/
def KeepsUp (c₀ : Candidate) (t : State) (r : Reader.State) (records : List Record) : Prop :=
  (∃ r', fold (Reader.consume vm false) r records = .ok r' ∧ Tracks c₀ t r') ∨
    ∃ err, fold (Reader.consume vm false) r records = .error err ∧ err.memory = true

theorem keepsUp_singleton {c₀ : Candidate} {t : State} {r : Reader.State} {record : Record}
    (h : (∃ r', Reader.consume vm false r record = .ok r' ∧ Tracks c₀ t r') ∨
      ∃ err, Reader.consume vm false r record = .error err ∧ err.memory = true) :
    KeepsUp vm c₀ t r [record] := by
  rcases h with ⟨r', hr, htracks⟩ | ⟨err, herr, hmem⟩
  · exact .inl ⟨r', by rw [fold_cons, hr, ok_bind, fold_nil], htracks⟩
  · exact .inr ⟨err, by rw [fold_cons, herr, error_bind], hmem⟩

/-- **The step lemma.** Whatever command the engine accepts, replaying its records keeps up. -/
theorem perform_keepsUp {c₀ : Candidate} {s : State} {r : Reader.State} {op : Op}
    {env : Environment} {out : State × List Record} (htracks : Tracks c₀ s r)
    (h : perform vm s op env = .ok out) : KeepsUp vm c₀ out.1 r out.2 := by
  rcases perform_cases vm htracks.volatileHot h with
    ⟨e, c, -, hknown, hc, rfl⟩ | ⟨e, c, -, hfresh, hcommit, rfl⟩ | ⟨e, j, rfl, hj, hmem, haux⟩ |
      ⟨e, rfl, hpersistent, haux⟩
  · have htracks' := tracks_volatile htracks hknown hc
    rw [show (c.state, c.records).2 = [] from hc.records]
    exact .inl ⟨r, rfl, htracks'⟩
  · obtain ⟨p, hp, hc⟩ := commitV2_spec vm htracks.online hcommit
    rw [show (c.state, c.records).2 = _ from hc.records]
    exact keepsUp_singleton vm (consume_mutation vm htracks hfresh hp hc)
  · obtain ⟨hrecords, htracks'⟩ := tracks_volatileAuxiliary vm htracks hj hmem haux
    rw [hrecords]
    exact .inl ⟨r, rfl, htracks'⟩
  · have hspec := commitPersistentAuxiliary_spec vm htracks.online haux
    rw [hspec.records]
    exact keepsUp_singleton vm (consume_auxiliary vm htracks hpersistent hspec)

theorem runCommands_keepsUp {c₀ : Candidate} {ops : List (Op × Environment)} :
    ∀ {s : State} {r : Reader.State} {out : State × List Record}, Tracks c₀ s r →
      runCommands vm s ops = .ok out → KeepsUp vm c₀ out.1 r out.2 := by
  induction ops with
  | nil =>
    intro s r out htracks h
    cases h
    exact .inl ⟨r, rfl, htracks⟩
  | cons op ops ih =>
    intro s r out htracks h
    simp only [runCommands, bind_eq_ok, pure_eq_ok] at h
    obtain ⟨first, hfirst, rest, hrest, h⟩ := h
    cases h
    rcases perform_keepsUp vm htracks hfirst with ⟨r', hr', htracks'⟩ | ⟨err, herr, hmem⟩
    · rcases ih htracks' hrest with ⟨r'', hr'', htracks''⟩ | ⟨err, herr, hmem⟩
      · exact .inl ⟨r'', by rw [fold_append, hr', ok_bind, hr''], htracks''⟩
      · exact .inr ⟨err, by rw [fold_append, hr', ok_bind, herr], hmem⟩
    · exact .inr ⟨err, by rw [fold_append, herr, error_bind], hmem⟩

theorem init_tracks {config : Config} {r : Reader.Recovered} (segment : SegmentView)
    (hlimits : r.candidate.valueLimits = config.valueLimits) (last : Option JobId) :
    Tracks r.candidate (init config r segment) ⟨r.candidate, r.nextSequence, last⟩ := by
  refine ⟨⟨?_, ?_, fun _ ↦ rfl, fun _ _ ↦ rfl, fun _ _ ↦ rfl, rfl, rfl⟩, ?_, hlimits, rfl⟩
  · intro id _
    simp only [lookup, init, Std.ExtTreeMap.getElem?_filter']
    cases hj : r.candidate.jobs[id]? with
    | none => rfl
    | some j => cases hstate : j.state.terminal <;> simp [Option.filter, hstate]
  · intro id hid
    cases hid
  · intro id hid
    cases hid

/-- **Log replay equals live state.** Start an engine on any recovered store and let it accept any
sequence of commands. Unless the replay runs out of its memory limit, folding the recovery step over
the appended records from the same candidate succeeds, and what it rebuilds agrees with the engine:
the persistent jobs up to their memory charge, the results, the schedules up to volatile members, and
the next availability order. -/
theorem replay_agrees (config : Config) (r : Reader.Recovered) (segment : SegmentView)
    (last : Option JobId) (ops : List (Op × Environment)) (out : State × List Record)
    (hlimits : r.candidate.valueLimits = config.valueLimits)
    (hrun : runCommands vm (init config r segment) ops = .ok out)
    (hmemory : ∀ err, fold (Reader.consume vm false) ⟨r.candidate, r.nextSequence, last⟩ out.2 =
      .error err → err.memory = false) :
    ∃ r', fold (Reader.consume vm false) ⟨r.candidate, r.nextSequence, last⟩ out.2 = .ok r' ∧
      Agrees r.candidate out.1 r' := by
  rcases runCommands_keepsUp vm (init_tracks segment hlimits last) hrun with
    ⟨r', hr', htracks⟩ | ⟨err, herr, hmem⟩
  · exact ⟨r', hr', htracks.toAgrees⟩
  · rw [hmemory err herr] at hmem
    cases hmem

/-! ## A small store

The concrete values below run every kind of commit once: a persistent job from insertion to its
result, a volatile job, and a schedule that delivers the volatile one. -/

namespace Sample

open Tay.Sample

def config : Config where
  valueLimits := Value.defaults
  candidateLimits := limits
  rotationTargetBytes := 16777352
  maxDecodePayloadBytes := 16777216
  maxHistoryBytes := some 1073741824
  maxSegments := some 1000
  terminalRetention := .hours 1

def segment : SegmentView := ⟨1, false, 44, 0, fun h ↦ nomatch h⟩

/-- A freshly initialized store. -/
def recovered : Reader.Recovered :=
  Reader.summarize (manifest 0) [⟨1, 1, [], false⟩] ⟨fresh, 1, none⟩

def ops : List Op :=
  [.insert ⟨1, 0, 10, .inserted definition 10⟩ .persistent,
    .insert ⟨2, 0, 11, .inserted definition 11⟩ .volatile,
    .auxiliary ⟨0, 12, .scheduleMembership
      ⟨text "s", none, none, scheduleDefinition, none, 20, 12, 1⟩ [] true⟩,
    .change ⟨1, 1, 13, .started 1 1⟩,
    .change ⟨1, 2, 14, .finished none 0 (some 2) none none 0⟩,
    .auxiliary ⟨3, 14, .resultRecorded 1 (.int 5)⟩,
    .auxiliary ⟨1, 21, .scheduleDelivered (text "s") (some 2) 20 1020⟩]

/-- A writer that is where the engine expects it. -/
def writer (s : State) : Environment := ⟨fun _ ↦ true, fun p ↦ .ok (expectedPosition s p.bytes)⟩

/-- Every command with the reply of such a writer. -/
def withWriter (vm : Runtime) : State → List Op → List (Op × Environment)
  | _, [] => []
  | s, op :: rest =>
    (op, writer s) ::
      match perform vm s op (writer s) with
      | .ok r => withWriter vm r.1 rest
      | .error _ => []

def run : List (Op × Environment) :=
  withWriter Tay.Sample.runtime (init config recovered segment) ops

end Sample

/-- The run above is accepted whole, and its log replays. -/
theorem replay_agrees_sample :
    ∃ out r', runCommands Tay.Sample.runtime (init Sample.config Sample.recovered Sample.segment)
        Sample.run = .ok out ∧ out.2.length = 6 ∧
      fold (Reader.consume Tay.Sample.runtime false)
        ⟨Sample.recovered.candidate, Sample.recovered.nextSequence, none⟩ out.2 = .ok r' ∧
      Agrees Sample.recovered.candidate out.1 r' := by
  have hreplay : (runCommands Tay.Sample.runtime (init Sample.config Sample.recovered Sample.segment)
      Sample.run >>= fun out ↦ check (out.2.length == 6) Reason.raised >>= fun _ ↦
        fold (Reader.consume Tay.Sample.runtime false)
          ⟨Sample.recovered.candidate, Sample.recovered.nextSequence, none⟩ out.2).isOk = true := by
    decide +kernel
  obtain ⟨final, hfinal⟩ := exists_ok hreplay
  obtain ⟨out, hout, hfinal⟩ := bind_eq_ok.mp hfinal
  obtain ⟨hlength, hfinal⟩ := check_bind_eq_ok.mp hfinal
  obtain ⟨r', hr', hagrees⟩ := replay_agrees Tay.Sample.runtime Sample.config Sample.recovered
    Sample.segment none Sample.run out rfl hout (by rw [hfinal]; rintro err ⟨⟩)
  exact ⟨out, r', hout, by simpa using hlength, hr', hagrees⟩

end Tay.Engine
