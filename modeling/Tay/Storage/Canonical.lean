import Tay.Foundation.Run
import Tay.Foundation.Total
import Tay.Storage.Compaction
import Tay.Storage.Credible

/-!
# The canonical form of the auxiliary state

A compacted epoch begins with a snapshot of every job, and then restates the schedules and results that
go with them: one membership event for each schedule, whatever its history was, and one event for each
result of a completed job. Here the two are compared over every replay of job and auxiliary records.

Every accepted record leaves schedules that pass the checks of a membership event, and results of
completed jobs that nothing can change any more. So each canonical event passes its checks, and replayed
on the snapshots it puts its entry back. What is left is room: an event is measured against the limits on
values, and the restated entries against the memory limit. The bytes of a candidate are those of its
entries, so the second is the same as before.
-/

open Foundation

namespace Tay

open V2

namespace Canonical

variable (vm : Runtime)

/-! ## Replay -/

inductive Entry
  | snapshot (job : Job)
  | mutation (m : Mutation)
  | auxiliary (e : AuxEvent) (sequence : ℕ)

/-- What one record does to a candidate. A snapshot has no charge yet. -/
def play (c : Candidate) : Entry → Except Reason Candidate
  | .snapshot job => Reducer.insertSnapshot vm c job.durable
  | .mutation m => Reducer.apply vm c m
  | .auxiliary e sequence => Auxiliary.reduce vm c e sequence

def replay : Machine Candidate Entry where
  initial c := ∃ limits valueLimits, c = candidate limits valueLimits
  step c x := (play vm c x).toOption

theorem reachable_invariant {P : Candidate → Prop}
    (hinitial : ∀ limits valueLimits, P (candidate limits valueLimits))
    (hplay : ∀ c x c', P c → play vm c x = .ok c' → P c') {c : Candidate}
    (hc : (replay vm).Reachable c) : P c := by
  refine hc.invariant ?_ ?_
  · rintro t ⟨limits, valueLimits, rfl⟩
    exact hinitial limits valueLimits
  · intro t x t' ht hstep
    exact hplay t x t' ht (toOption_eq_some.mp hstep)

/-- A replay from the start that passes a check. -/
theorem played (start : Candidate) (ls : List Entry) {p : Candidate → Bool}
    (hstart : ∃ limits valueLimits, start = candidate limits valueLimits)
    (h : ((replay vm).run start ls).any p = true) : ∃ c, (replay vm).Reachable c ∧ p c = true := by
  obtain ⟨c, hrun, hp⟩ := (Option.any_eq_true _ _).mp h
  exact ⟨c, Machine.reachable_of_run hstart hrun, hp⟩

/-! ## Schedules -/

/-- A schedule that passes the checks of the event that restates it. -/
structure Restatable (s : Schedule) : Prop where
  id : identifier? s.id = true
  definition : scheduleDefinition? s.definition = true
  nextAt : time? s.nextAt = true
  registeredAt : time? s.registeredAt = true
  revision : sequence? s.revision = true
  lastAt : s.lastAt.all (fun t ↦ time? t && t < s.nextAt) = true
  cancelledAt : s.cancelledAt.all time? = true
  activeJobId : s.activeJobId.all id? = true
  sorted : s.activeJobIds = sortUniq s.activeJobIds
  members : s.activeJobIds.all id? = true

theorem restatable_iff {s : Schedule} :
    validateAux (Auxiliary.scheduleEvent s) = true ↔ Restatable s := by
  simp only [validateAux, Auxiliary.scheduleEvent, auxIdentity?, auxRevision?, auxFields?, checkpoint?,
    beq_self_eq_true, Bool.true_or, Bool.and_true, Bool.and_eq_true, beq_iff_eq]
  constructor
  · rintro ⟨⟨-, hid⟩, ⟨⟨⟨⟨⟨⟨⟨hdefinition, hnext⟩, hregistered⟩, hrevision⟩, hlast⟩, hcancelled⟩, hactive⟩,
      hsorted⟩, hmembers⟩
    exact ⟨hid, hdefinition, hnext, hregistered, hrevision, hlast, hcancelled, hactive, hsorted, hmembers⟩
  · intro h
    exact ⟨⟨h.registeredAt, h.id⟩, ⟨⟨⟨⟨⟨⟨⟨h.definition, h.nextAt⟩, h.registeredAt⟩, h.revision⟩, h.lastAt⟩,
      h.cancelledAt⟩, h.activeJobId⟩, h.sorted⟩, h.members⟩

/-- What an accepted event makes of the schedule it names. -/
inductive Next (c : Candidate) (e : AuxEvent) (sequence : ℕ) : Binary → Schedule → Prop
  | registered {id : Binary} {definition : ScheduleDefinition} {nextAt : ℕ} :
      e.body = .scheduleRegistered id definition nextAt →
      e.expectedRevision = Auxiliary.revisionOf c.schedules[id]? →
      Next c e sequence id ⟨id, definition, sequence, e.timestamp, nextAt, none, none, none, [], false⟩
  | advanced {id : Binary} {dueAt nextAt : ℕ} {s : Schedule} :
      e.body = .scheduleAdvanced id dueAt nextAt → c.schedules[id]? = some s →
      s.revision = e.expectedRevision →
      Next c e sequence id { s with revision := sequence, lastAt := some dueAt, nextAt := nextAt }
  | cancelled {id : Binary} {s : Schedule} :
      e.body = .scheduleCancelled id → c.schedules[id]? = some s → s.revision = e.expectedRevision →
      Next c e sequence id { s with revision := sequence, cancelledAt := some e.timestamp }
  | delivered {id : Binary} {activeJobId : Option JobId} {dueAt nextAt : ℕ} {s : Schedule} :
      e.body = .scheduleDelivered id activeJobId dueAt nextAt → c.schedules[id]? = some s →
      s.revision = e.expectedRevision →
      Next c e sequence id { s with
        revision := e.expectedRevision + 1, lastAt := some dueAt, nextAt := nextAt
        activeJobId := activeJobId
        activeJobIds := Auxiliary.activeMembers c.jobs (s.activeJobIds ++ activeJobId.toList) }
  | restated {k : Checkpoint} {members : List JobId} {complete : Bool} :
      e.body = .scheduleCheckpoint k → e.expectedRevision = Auxiliary.revisionOf c.schedules[k.scheduleId]? →
      ((∃ s, c.schedules[k.scheduleId]? = some s ∧ members = s.activeJobIds) ∨
        members = k.activeJobId.toList) →
      Next c e sequence k.scheduleId ⟨k.scheduleId, k.definition, k.revision, k.registeredAt, k.nextAt,
        k.lastAt, k.cancelledAt, k.activeJobId, members, complete⟩
  | members {k : Checkpoint} {members : List JobId} {complete : Bool} :
      e.body = .scheduleMembership k members complete →
      e.expectedRevision = Auxiliary.revisionOf c.schedules[k.scheduleId]? →
      Next c e sequence k.scheduleId ⟨k.scheduleId, k.definition, k.revision, k.registeredAt, k.nextAt,
        k.lastAt, k.cancelledAt, k.activeJobId, members, complete⟩

/-- Every way an auxiliary event is accepted. -/
inductive Accepted (c : Candidate) (e : AuxEvent) (sequence : ℕ) : Candidate → Prop
  | schedule {id : Binary} {s : Schedule} : e.body.scheduleId? = some id → Next c e sequence id s →
      Accepted c e sequence { c with schedules := c.schedules.insert id s }
  | result {id : JobId} {value : Value} {job : Job} : e.body = .resultRecorded id value →
      c.jobs[id]? = some job → job.state = .completed → job.revision = e.expectedRevision →
      Accepted c e sequence { c with results := c.results.insert id ⟨value, e.timestamp, job.revision⟩ }

theorem advance_eq_ok {c c' : Candidate} {e : AuxEvent} {id : Binary} {dueAt nextAt sequence : ℕ}
    (hkeyed : Keyed Schedule.id c.schedules)
    (h : Auxiliary.advance c e id dueAt nextAt sequence = .ok c') :
    ∃ s, c.schedules[id]? = some s ∧ s.revision = e.expectedRevision ∧
      c' = { c with schedules := (c.schedules.insert id
        { s with revision := sequence, lastAt := some dueAt, nextAt := nextAt }) } := by
  unfold Auxiliary.advance at h
  cases hs : c.schedules[id]? with
  | none =>
    rw [hs] at h
    cases h
  | some s =>
    rw [hs] at h
    simp only [bind_eq_ok, check_eq_ok, beq_iff_eq, pure_eq_ok] at h
    obtain ⟨-, -, -, hrevision, -, -, h⟩ := h
    cases h
    obtain rfl := hkeyed id s hs
    exact ⟨s, rfl, hrevision, rfl⟩

theorem accepted {c c' : Candidate} {e : AuxEvent} {sequence : ℕ}
    (hkeyed : Keyed Schedule.id c.schedules) (h : Auxiliary.applyEvent c e sequence = .ok c') :
    Accepted c e sequence c' := by
  obtain ⟨expected, timestamp, body⟩ := e
  cases body with
  | scheduleRegistered id definition nextAt =>
    simp only [Auxiliary.applyEvent, bind_eq_ok, check_eq_ok, beq_iff_eq, pure_eq_ok] at h
    obtain ⟨-, hrevision, h⟩ := h
    cases h
    exact .schedule rfl (.registered rfl hrevision)
  | scheduleAdvanced id dueAt nextAt =>
    obtain ⟨s, hs, hrevision, rfl⟩ := advance_eq_ok hkeyed h
    exact .schedule rfl (.advanced rfl hs hrevision)
  | scheduleCancelled id =>
    simp only [Auxiliary.applyEvent] at h
    cases hs : c.schedules[id]? with
    | none =>
      rw [hs] at h
      cases h
    | some s =>
      rw [hs] at h
      simp only [bind_eq_ok, check_eq_ok, beq_iff_eq, pure_eq_ok] at h
      obtain ⟨-, hrevision, h⟩ := h
      cases h
      obtain rfl := hkeyed id s hs
      exact .schedule rfl (.cancelled rfl hs hrevision)
  | resultRecorded id value =>
    simp only [Auxiliary.applyEvent] at h
    cases hjob : c.jobs[id]? with
    | none =>
      rw [hjob] at h
      cases h
    | some job =>
      rw [hjob] at h
      simp only [bind_eq_ok, check_eq_ok, beq_iff_eq, pure_eq_ok] at h
      obtain ⟨-, hstate, -, hrevision, h⟩ := h
      cases h
      exact .result rfl hjob hstate hrevision
  | scheduleDelivered id activeJobId dueAt nextAt =>
    obtain ⟨next, hnext, h⟩ := bind_eq_ok.mp h
    obtain ⟨s, hs, hrevision, rfl⟩ := advance_eq_ok hkeyed hnext
    simp only [Auxiliary.update, Std.ExtTreeMap.getElem?_insert_self, insert_insert] at h
    cases h
    exact .schedule rfl (.delivered rfl hs hrevision)
  | scheduleCheckpoint k =>
    simp only [Auxiliary.applyEvent, Auxiliary.restate, bind_eq_ok, check_eq_ok, beq_iff_eq,
      pure_eq_ok] at h
    obtain ⟨-, hrevision, h⟩ := h
    cases h
    refine .schedule rfl (.restated rfl hrevision ?_)
    cases hs : c.schedules[k.scheduleId]? with
    | none => exact .inr rfl
    | some s => exact .inl ⟨s, rfl, rfl⟩
  | scheduleMembership k members complete =>
    simp only [Auxiliary.applyEvent, Auxiliary.restate, bind_eq_ok, check_eq_ok, beq_iff_eq,
      pure_eq_ok] at h
    obtain ⟨next, ⟨-, hrevision, hnext⟩, h⟩ := h
    cases hnext
    simp only [Auxiliary.update, Std.ExtTreeMap.getElem?_insert_self, insert_insert] at h
    cases h
    exact .schedule rfl (.members rfl hrevision)

/-- Every schedule of the table can be restated. -/
def Fit (t : Table Binary Schedule) : Prop := ∀ (k : Binary) (s : Schedule), t[k]? = some s → Restatable s

theorem activeMembers_sorted (jobs : Table JobId Job) (ids : List JobId) :
    Auxiliary.activeMembers jobs ids = sortUniq (Auxiliary.activeMembers jobs ids) := by
  have hnodup : (Auxiliary.activeMembers jobs ids).Nodup :=
    (List.perm_insertionSort (· ≤ ·) _).nodup_iff.mpr ((List.nodup_dedup ids).filter _)
  rw [sortUniq, hnodup.dedup]
  exact (List.pairwise_insertionSort (· ≤ ·) _).insertionSort_eq.symm

theorem activeMembers_members {jobs : Table JobId Job} {ids : List JobId} (h : ids.all id? = true) :
    (Auxiliary.activeMembers jobs ids).all id? = true := by
  rw [List.all_eq_true] at h ⊢
  intro id hid
  rw [Auxiliary.activeMembers, List.mem_insertionSort, List.mem_filter, List.mem_dedup] at hid
  exact h id hid.1

theorem checkpoint_restatable {e : AuxEvent} {k : Checkpoint} (hid : identifier? k.scheduleId = true)
    (h : checkpoint? e.expectedRevision k = true) {members : List JobId} {complete : Bool}
    (hsorted : members = sortUniq members) (hmembers : members.all id? = true) :
    Restatable ⟨k.scheduleId, k.definition, k.revision, k.registeredAt, k.nextAt, k.lastAt, k.cancelledAt,
      k.activeJobId, members, complete⟩ := by
  simp only [checkpoint?, Bool.and_eq_true] at h
  obtain ⟨⟨⟨⟨⟨⟨⟨hdefinition, hnext⟩, -⟩, hregistered⟩, hrevision⟩, hlast⟩, hcancelled⟩, hactive⟩ := h
  exact ⟨hid, hdefinition, hnext, hregistered, hrevision, hlast, hcancelled, hactive, hsorted, hmembers⟩

theorem toList_all {id : Option JobId} (h : id.all id? = true) : id.toList.all id? = true := by
  cases id with
  | none => rfl
  | some id =>
    rw [Option.toList_some, List.all_cons, List.all_nil, Bool.and_true]
    exact h

theorem toList_sorted (id : Option JobId) : id.toList = sortUniq id.toList := by cases id <;> rfl

/-- The schedule that an event leaves can be restated, if it could be before. -/
theorem Next.restatable {c : Candidate} {e : AuxEvent} {sequence : ℕ} {id : Binary} {s : Schedule}
    (hfit : Fit c.schedules) (hvalid : validateAux e = true) (hsequence : sequence? sequence = true)
    (h : Next c e sequence id s) : Restatable s := by
  simp only [validateAux, Bool.and_eq_true] at hvalid
  obtain ⟨⟨⟨htime, hidentity⟩, hrevision⟩, hfields⟩ := hvalid
  cases h with
  | registered hbody _ =>
    simp only [hbody, auxIdentity?, auxFields?, Bool.and_eq_true] at hidentity hfields
    exact ⟨hidentity, hfields.1, hfields.2, htime, hsequence, rfl, rfl, rfl, rfl, rfl⟩
  | advanced hbody hs _ =>
    have hold := hfit _ _ hs
    simp only [hbody, auxFields?, advanced?, Bool.and_eq_true, decide_eq_true_eq] at hfields
    obtain ⟨⟨⟨hdue, hnext⟩, -⟩, hlt⟩ := hfields
    refine ⟨hold.id, hold.definition, hnext, hold.registeredAt, hsequence, ?_, hold.cancelledAt,
      hold.activeJobId, hold.sorted, hold.members⟩
    simp only [Option.all_some, hdue, Bool.true_and, decide_eq_true_eq]
    exact hlt
  | cancelled _ hs _ =>
    have hold := hfit _ _ hs
    exact ⟨hold.id, hold.definition, hold.nextAt, hold.registeredAt, hsequence, hold.lastAt, htime,
      hold.activeJobId, hold.sorted, hold.members⟩
  | delivered hbody hs _ =>
    have hold := hfit _ _ hs
    simp only [hbody, auxFields?, auxRevision?, advanced?, sequence?, Bool.and_eq_true,
      decide_eq_true_eq] at hfields hrevision
    obtain ⟨⟨⟨⟨⟨hdue, hnext⟩, -⟩, hlt⟩, hbound⟩, hactive⟩ := hfields
    refine ⟨hold.id, hold.definition, hnext, hold.registeredAt, ?_, ?_, hold.cancelledAt, hactive,
      activeMembers_sorted _ _, activeMembers_members ?_⟩
    · simp only [sequence?, Bool.and_eq_true, decide_eq_true_eq]
      omega
    · simp only [Option.all_some, hdue, Bool.true_and, decide_eq_true_eq]
      exact hlt
    · rw [List.all_append, hold.members, Bool.true_and]
      exact toList_all hactive
  | restated hbody _ hmembers =>
    simp only [hbody, auxIdentity?, auxFields?] at hidentity hfields
    rcases hmembers with ⟨s, hs, rfl⟩ | rfl
    · exact checkpoint_restatable hidentity hfields (hfit _ _ hs).sorted (hfit _ _ hs).members
    · refine checkpoint_restatable hidentity hfields (toList_sorted _) (toList_all ?_)
      simp only [checkpoint?, Bool.and_eq_true] at hfields
      exact hfields.2
  | members hbody _ =>
    simp only [hbody, auxIdentity?, auxFields?, Bool.and_eq_true, beq_iff_eq] at hidentity hfields
    exact checkpoint_restatable hidentity hfields.1.1 hfields.1.2 hfields.2

theorem valid_of_encode {e : AuxEvent} {limits : Value.Limits} {max : ℕ} {payload : Binary}
    (h : e.encode limits max = .ok payload) : validateAux e = true := by
  simp only [AuxEvent.encode, bind_eq_ok, check_eq_ok] at h
  obtain ⟨-, -, -, hvalid, -⟩ := h
  exact hvalid

/-- What an accepted event did to the schedules and the results, whatever it costs. -/
theorem reduce_accepted {c c' : Candidate} {e : AuxEvent} {sequence : ℕ}
    (hkeyed : Keyed Schedule.id c.schedules) (h : Auxiliary.reduce vm c e sequence = .ok c') :
    validateAux e = true ∧ sequence? sequence = true ∧ ∃ next, Accepted c e sequence next ∧
      c' = { next with bytes := c'.bytes, auxiliaryBytes := c'.auxiliaryBytes } := by
  obtain ⟨⟨payload, hpayload⟩, hsequence, next, hnext, hc'⟩ := Auxiliary.reduce_eq_ok vm h
  exact ⟨valid_of_encode hpayload, hsequence, next, accepted hkeyed hnext, hc'⟩

theorem Fit.reduce {c c' : Candidate} {e : AuxEvent} {sequence : ℕ}
    (hkeyed : Keyed Schedule.id c.schedules) (hfit : Fit c.schedules)
    (h : Auxiliary.reduce vm c e sequence = .ok c') : Fit c'.schedules := by
  obtain ⟨hvalid, hsequence, next, hnext, hc'⟩ := reduce_accepted vm hkeyed h
  rw [hc']
  cases hnext with
  | result _ _ _ _ => exact hfit
  | schedule _ hs =>
    intro k s hk
    rw [Foundation.Table.get_insert] at hk
    split at hk
    · cases hk
      exact hs.restatable hfit hvalid hsequence
    · exact hfit k s hk

/-! ## Revisions -/

/-- The events of older logs that number a schedule by their position. -/
def numbered : AuxBody → Bool
  | .scheduleRegistered .. | .scheduleAdvanced .. | .scheduleCancelled .. => true
  | _ => false

/-- An event raises the revision, or sets it to its own position. -/
theorem Next.revision {c : Candidate} {e : AuxEvent} {sequence : ℕ} {id : Binary} {s : Schedule}
    (hvalid : validateAux e = true) (h : Next c e sequence id s) :
    if numbered e.body then s.revision = sequence
    else Auxiliary.revisionOf c.schedules[id]? < s.revision := by
  have hrestated : ∀ k : Checkpoint, checkpoint? e.expectedRevision k = true →
      e.expectedRevision = Auxiliary.revisionOf c.schedules[k.scheduleId]? →
      Auxiliary.revisionOf c.schedules[k.scheduleId]? < k.revision := by
    intro k hk hrevision
    simp only [checkpoint?, Bool.and_eq_true, Bool.or_eq_true, beq_iff_eq] at hk
    obtain ⟨⟨⟨⟨⟨⟨-, hnumber⟩, -⟩, hsequence⟩, -⟩, -⟩, -⟩ := hk
    simp only [sequence?, Bool.and_eq_true, decide_eq_true_eq] at hsequence
    omega
  simp only [validateAux, Bool.and_eq_true] at hvalid
  obtain ⟨-, hfields⟩ := hvalid
  cases h with
  | registered hbody _ =>
    rw [hbody]
    exact rfl
  | advanced hbody _ _ =>
    rw [hbody]
    exact rfl
  | cancelled hbody _ _ =>
    rw [hbody]
    exact rfl
  | delivered hbody hs hrevision =>
    rw [hbody, hs]
    exact Nat.lt_succ_of_le hrevision.le
  | restated hbody hrevision _ =>
    simp only [auxFields?, hbody] at hfields
    rw [hbody]
    exact hrestated _ hfields hrevision
  | members hbody hrevision =>
    simp only [auxFields?, hbody, Bool.and_eq_true] at hfields
    rw [hbody]
    exact hrestated _ hfields.1.1 hrevision

theorem revision_reduce {c c' : Candidate} {e : AuxEvent} {sequence : ℕ} {id : Binary}
    (hkeyed : Keyed Schedule.id c.schedules) (h : Auxiliary.reduce vm c e sequence = .ok c')
    (hid : e.body.scheduleId? = some id) :
    if numbered e.body then Auxiliary.revisionOf c'.schedules[id]? = sequence
    else Auxiliary.revisionOf c.schedules[id]? < Auxiliary.revisionOf c'.schedules[id]? := by
  obtain ⟨hvalid, -, next, hnext, hc'⟩ := reduce_accepted vm hkeyed h
  rw [hc']
  cases hnext with
  | result hbody _ _ _ =>
    rw [hbody] at hid
    cases hid
  | schedule hschedule hs =>
    rw [hid] at hschedule
    cases hschedule
    rw [Foundation.Table.get_insert, if_pos rfl]
    exact hs.revision hvalid

/-! ## Results -/

/-- The event that recorded a result: the one that restates it as long as the job is as it was. -/
def recorded (x : JobId × JobResult) : AuxEvent where
  expectedRevision := x.2.jobRevision
  timestamp := x.2.recordedAt
  body := .resultRecorded x.1 x.2.value

/-- The results are of completed jobs, in the version that was recorded, and the events that recorded
them are still accepted by the codec. -/
structure Recorded (c : Candidate) (id : JobId) (r : JobResult) : Prop where
  job : ∃ job, c.jobs[id]? = some job ∧ job.state = .completed ∧ job.revision = r.jobRevision
  encodes : ∃ payload, (recorded (id, r)).encode c.valueLimits Value.maxBytes = .ok payload

/-- No transition leads out of a completed job. -/
theorem transitionJob_completed {p job : Job} {m : Mutation} {order : ℕ} {limits : Value.Limits}
    (h : Reducer.transitionJob (some p) m order limits = .ok job) : p.state ≠ .completed := by
  rw [Reducer.transitionJob_admitted] at h
  obtain ⟨next, hnext, -⟩ := bind_eq_ok.mp h
  obtain ⟨-, -, hvalid, -⟩ := Reducer.admitJob_some hnext
  intro hcompleted
  have hstate : (Reducer.toV1 p).state = .completed := hcompleted
  cases hbody : (Codec.event m).body <;> simp [Transition.validTransition?, hbody, hstate] at hvalid

theorem Recorded.apply {c c' : Candidate} {m : Mutation} {id : JobId} {r : JobResult}
    (h : Recorded c id r) (happly : Reducer.apply vm c m = .ok c') : Recorded c' id r := by
  obtain ⟨next, ch, htransition, hc'⟩ := Reducer.apply_eq_ok vm happly
  rw [hc']
  refine ⟨?_, h.encodes⟩
  obtain ⟨job, hjob, hcompleted, hrevision⟩ := h.job
  refine ⟨job, ?_, hcompleted, hrevision⟩
  rw [Foundation.Table.get_insert]
  split
  case isTrue hid =>
    rw [hid, hjob] at htransition
    exact absurd hcompleted (transitionJob_completed htransition)
  case isFalse => exact hjob

theorem Recorded.insertSnapshot {c c' : Candidate} {job : Job} {id : JobId} {r : JobResult}
    (h : Recorded c id r) (hinsert : Reducer.insertSnapshot vm c job = .ok c') : Recorded c' id r := by
  have hfree : (c.jobs[job.id]?).isNone = true := by
    simp only [Reducer.insertSnapshot, bind_eq_ok, check_eq_ok] at hinsert
    obtain ⟨-, -, -, hfree, -⟩ := hinsert
    exact hfree
  obtain ⟨ch, hc'⟩ := Reducer.insertSnapshot_eq_ok vm hinsert
  rw [hc']
  refine ⟨?_, h.encodes⟩
  obtain ⟨old, hold, hcompleted, hrevision⟩ := h.job
  refine ⟨old, ?_, hcompleted, hrevision⟩
  rw [Foundation.Table.get_insert]
  split
  case isTrue hid =>
    rw [hid, hold] at hfree
    cases hfree
  case isFalse => exact hold

theorem Recorded.reduce {c c' : Candidate} {e : AuxEvent} {sequence : ℕ}
    (hkeyed : Keyed Schedule.id c.schedules)
    (hresults : ∀ (id : JobId) (r : JobResult), c.results[id]? = some r → Recorded c id r)
    (h : Auxiliary.reduce vm c e sequence = .ok c') :
    ∀ (id : JobId) (r : JobResult), c'.results[id]? = some r → Recorded c' id r := by
  obtain ⟨⟨payload, hpayload⟩, -, next, hnext, hc'⟩ := Auxiliary.reduce_eq_ok vm h
  rw [hc']
  intro id r hr
  cases accepted hkeyed hnext with
  | schedule _ _ => exact ⟨(hresults id r hr).job, (hresults id r hr).encodes⟩
  | @result id' value job hbody hjob hcompleted hrevision =>
    rw [Foundation.Table.get_insert] at hr
    split at hr
    case isTrue hid =>
      cases hr
      subst hid
      refine ⟨⟨job, hjob, hcompleted, rfl⟩, payload, ?_⟩
      have hevent : recorded (id', ⟨value, e.timestamp, job.revision⟩) = e := by
        obtain ⟨expected, timestamp, body⟩ := e
        cases hbody
        cases hrevision
        rfl
      rw [hevent]
      exact hpayload
    case isFalse => exact ⟨(hresults id r hr).job, (hresults id r hr).encodes⟩

/-! ## Every replay -/

/-- What every replay maintains of the auxiliary state. -/
structure Orderly (c : Candidate) : Prop where
  sound : Sound c
  fit : Fit c.schedules
  results : ∀ (id : JobId) (r : JobResult), c.results[id]? = some r → Recorded c id r

theorem orderly_candidate (limits : CandidateLimits) (valueLimits : Value.Limits) :
    Orderly (candidate limits valueLimits) := by
  refine ⟨sound_candidate limits valueLimits, ?_, ?_⟩
  · intro k s hs
    simp [candidate] at hs
  · intro id r hr
    simp [candidate] at hr

theorem Orderly.play {c c' : Candidate} {x : Entry} (h : Orderly c) (hplay : play vm c x = .ok c') :
    Orderly c' := by
  cases x with
  | snapshot job =>
    have hsound := h.sound.insertSnapshot vm hplay
    obtain ⟨ch, hc'⟩ := Reducer.insertSnapshot_eq_ok vm hplay
    have hschedules : c'.schedules = c.schedules := by rw [hc']
    have hresults : c'.results = c.results := by rw [hc']
    refine ⟨hsound, hschedules ▸ h.fit, ?_⟩
    rw [hresults]
    exact fun id r hr ↦ (h.results id r hr).insertSnapshot vm hplay
  | mutation m =>
    have hsound := h.sound.apply vm hplay
    obtain ⟨job, ch, -, hc'⟩ := Reducer.apply_eq_ok vm hplay
    have hschedules : c'.schedules = c.schedules := by rw [hc']
    have hresults : c'.results = c.results := by rw [hc']
    refine ⟨hsound, hschedules ▸ h.fit, ?_⟩
    rw [hresults]
    exact fun id r hr ↦ (h.results id r hr).apply vm hplay
  | auxiliary e sequence =>
    exact ⟨h.sound.reduce vm hplay, h.fit.reduce vm h.sound.schedules hplay,
      Recorded.reduce vm h.sound.schedules h.results hplay⟩

theorem reachable_orderly {c : Candidate} (hc : (replay vm).Reachable c) : Orderly c :=
  reachable_invariant vm orderly_candidate (fun _ _ _ h hplay ↦ h.play vm hplay) hc

end Canonical

end Tay
