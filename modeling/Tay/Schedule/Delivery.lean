import Tay.Schedule.Armed

/-!
# Occurrences are delivered once

The job of an occurrence has an id derived from the schedule and the time, so a delivery that is
repeated, whatever became of the one before, finds the job instead of inserting it again. The count
is kept for every id: a `Tally` lists the insertions that were accepted and the jobs that have gone
since, by retention or with the generation that held them.

The other half is that a schedule does not move on without the job. A schedule's next occurrence
changes when it is declared anew, and otherwise only with the delivery of the one that was due, which
either finds its job there or skips it because its policy says so.
-/

set_option linter.unusedSectionVars false

open Foundation

namespace Tay

open V2

namespace Engine

open ProjectionState

/-! ## Insertions and removals -/

/-- Every insertion that was accepted and every job that has gone, newest first. -/
structure Tally where
  inserted : List JobId
  removed : List JobId

def insertedBy : Action → List JobId
  | .command (.insert e _) _ => [e.jobId]
  | _ => []

variable (vm : Runtime)

/-- The jobs a message makes retention remove. -/
def removedBy (s : State) (a : Action) : List JobId :=
  (s.hot.keys ++ s.terminalStore.keys).dedup.filter fun id ↦
    (lookup s id).any (fun job ↦ !survives s (adoption vm s a) job) &&
      (produced vm s a).all fun job ↦ job.id != id

def Tally.note (s : State) (a : Action) (g : Tally) : Tally :=
  ⟨insertedBy a ++ g.inserted, removedBy vm s a ++ g.removed⟩

/-- The tally after a run of messages that are all accepted. -/
def Tally.noteAll (s : State) : List Action → Tally → Tally
  | [], g => g
  | a :: as, g =>
    match handle vm s a with
    | .ok t => noteAll t as (g.note vm s a)
    | .error _ => g

/-- The jobs of a state. -/
def jobIds (s : State) : List JobId := (s.hot.keys ++ s.terminalStore.keys).dedup

variable {vm} {s t : State}

/-- What was inserted is there or has gone. -/
def Balanced (s : State) (g : Tally) : Prop :=
  ∀ id, g.inserted.count id = g.removed.count id + (lookup s id).isSome.toNat

theorem mem_jobIds {id : JobId} : id ∈ jobIds s ↔ (lookup s id).isSome = true := by
  rw [jobIds, List.mem_dedup, List.mem_append, Std.ExtTreeMap.mem_keys, Std.ExtTreeMap.mem_keys,
    Std.ExtTreeMap.mem_iff_isSome_getElem?, Std.ExtTreeMap.mem_iff_isSome_getElem?, lookup,
    Option.isSome_or, Bool.or_eq_true]

theorem count_jobIds (s : State) (id : JobId) :
    (jobIds s).count id = (lookup s id).isSome.toNat := by
  cases h : (lookup s id).isSome with
  | true => exact List.count_eq_one_of_mem (List.nodup_dedup _) (mem_jobIds.mpr h)
  | false =>
    refine List.count_eq_zero_of_not_mem fun hmem ↦ ?_
    rw [mem_jobIds, h] at hmem
    cases hmem

theorem count_removedBy (s : State) (a : Action) (id : JobId) :
    (removedBy vm s a).count id =
      ((lookup s id).any (fun job ↦ !survives s (adoption vm s a) job) &&
        (produced vm s a).all fun job ↦ job.id != id).toNat := by
  have hnodup : (removedBy vm s a).Nodup := (List.nodup_dedup _).filter _
  cases h : (lookup s id).any (fun job ↦ !survives s (adoption vm s a) job) &&
      (produced vm s a).all fun job ↦ job.id != id with
  | true =>
    refine List.count_eq_one_of_mem hnodup (List.mem_filter.mpr ⟨?_, h⟩)
    rw [Bool.and_eq_true] at h
    obtain ⟨job, hjob, -⟩ := (Option.any_eq_true _ _).mp h.1
    exact mem_jobIds.mpr (Option.isSome_of_eq_some hjob)
  | false =>
    refine List.count_eq_zero_of_not_mem fun hmem ↦ ?_
    rw [(List.mem_filter.mp hmem).2] at h
    cases h

/-- An accepted insertion produces the job it names, which was not there; no other message produces
a job that was not. -/
theorem insertedBy_spec {a : Action} {job : Job} (hjob : produced vm s a = some job) :
    (insertedBy a = [job.id] ∧ lookup s job.id = none) ∨
      insertedBy a = [] ∧ (lookup s job.id).isSome = true := by
  cases a with
  | command op env =>
    cases op with
    | insert e mode =>
      simp only [produced] at hjob
      split at hjob
      case h_1 => cases hjob
      case h_2 hnone =>
        obtain ⟨c, hc, rfl⟩ := Option.map_eq_some_iff.mp hjob
        have hid := commit_jobId (toOption_eq_some.mp hc)
        refine .inl ⟨?_, ?_⟩
        · rw [insertedBy, hid]
        · rw [hid, hnone]
    | change e =>
      simp only [produced] at hjob
      split at hjob
      case h_1 => cases hjob
      case h_2 p hp =>
        obtain ⟨c, hc, rfl⟩ := Option.map_eq_some_iff.mp hjob
        have hid := commit_jobId (toOption_eq_some.mp hc)
        refine .inr ⟨rfl, ?_⟩
        rw [hid, hp]
        rfl
    | auxiliary e => cases hjob
  | compactOnline rotation token retention => cases hjob
  | compactResult token result => cases hjob

/-- A message that produces nothing inserts nothing. -/
theorem insertedBy_quiet {a : Action} (h : handle vm s a = .ok t) (hjob : produced vm s a = none) :
    insertedBy a = [] := by
  cases a with
  | command op env =>
    cases op with
    | insert e mode =>
      simp only [handle] at h
      obtain ⟨out, hperform, -⟩ := map_eq_ok.mp h
      simp only [perform] at hperform
      cases hlookup : lookup s e.jobId with
      | some p => simp [hlookup] at hperform
      | none =>
        rw [hlookup] at hperform
        obtain ⟨c, hc, -⟩ := map_eq_ok.mp hperform
        simp only [produced, hlookup, hc] at hjob
        cases hjob
    | change e => rfl
    | auxiliary e => rfl
  | compactOnline rotation token retention => rfl
  | compactResult token result => rfl

/-- **One message.** -/
theorem Balanced.handle {a : Action} {g : Tally} (hs : Placed s) (hg : Balanced s g)
    (h : handle vm s a = .ok t) : Placed t ∧ Balanced t (g.note vm s a) := by
  have hfilter (id : JobId) (p : Job → Bool) :
      (lookup s id).isSome.toNat =
        ((lookup s id).any fun job ↦ !p job).toNat + ((lookup s id).filter p).isSome.toNat := by
    cases lookup s id with
    | none => rfl
    | some job => cases hp : p job <;> simp [hp]
  rcases handle_placed hs h with ⟨job, hproduced, hmoves⟩ | ⟨hproduced, hquiet⟩
  · refine ⟨hmoves.placed, fun id ↦ ?_⟩
    rw [Tally.note, List.count_append, List.count_append, hg id, count_removedBy, hproduced,
      Option.all_some, hmoves.lookup]
    by_cases hid : job.id = id
    · rw [if_pos hid]
      subst hid
      rcases insertedBy_spec hproduced with ⟨hinserted, hnone⟩ | ⟨hinserted, hsome⟩
      · simp [hinserted, hnone, Nat.add_comm]
      · simp [hinserted, hsome]
    · rw [if_neg hid, hfilter id (survives s (adoption vm s a))]
      have hinserted : (insertedBy a).count id = 0 := by
        rcases insertedBy_spec hproduced with ⟨hinserted, -⟩ | ⟨hinserted, -⟩
        · rw [hinserted, List.count_singleton, if_neg (by simpa using hid)]
        · rw [hinserted, List.count_nil]
      rw [hinserted, show (job.id != id) = true from bne_iff_ne.mpr hid, Bool.and_true]
      omega
  · refine ⟨hquiet.placed, fun id ↦ ?_⟩
    rw [Tally.note, List.count_append, List.count_append, hg id, count_removedBy, hproduced,
      Option.all_none, Bool.and_true, hquiet.lookup, insertedBy_quiet h hproduced, List.count_nil,
      hfilter id (survives s (adoption vm s a))]
    omega

/-- Every message of a run. -/
theorem Balanced.run {as : List Action} : ∀ {s : State} {g : Tally}, Placed s → Balanced s g →
    (machine vm).run s as = some t → Placed t ∧ Balanced t (g.noteAll vm s as) := by
  induction as with
  | nil =>
    intro s g hs hg h
    cases h
    exact ⟨hs, hg⟩
  | cons a as ih =>
    intro s g hs hg h
    rw [Machine.run_cons, Option.bind_eq_some_iff] at h
    obtain ⟨u, hu, h⟩ := h
    have hhandle : Engine.handle vm s a = .ok u := toOption_eq_some.mp hu
    obtain ⟨hplaced, hbalanced⟩ := hg.handle hs hhandle
    simp only [Tally.noteAll, hhandle]
    exact ih hplaced hbalanced h

end Engine

namespace Coordinator

open Engine ProjectionState

variable {κ : Type} [DecidableEq κ] (cron : Cron κ) (vm : Runtime) (jobs : Jobs)

/-- A new generation on the log of the one before: the declarations and the persistent jobs are
those it had, and its volatile jobs are gone. -/
structure Resumes (s t : Engine.State) : Prop where
  starts : Starts vm t
  decls : decls t = decls s
  persistent : ∀ id ∉ s.volatileIds, (lookup t id).isSome = (lookup s id).isSome
  volatile : ∀ id ∈ s.volatileIds, lookup t id = none

/-- Adopted epochs declare the schedules the engine has, and so does a new generation. -/
def Faithful (x : System) (l : Label) : Prop :=
  Restating vm x l ∧ ∀ engine, l = .restart engine → Resumes vm x.engine engine

/-- What a step does to the tally. A new generation has lost the volatile jobs. -/
def Tally.observe (x : System) (l : Label) (_ : System) (g : Tally) : Tally :=
  match l with
  | .engine a => g.note vm x.engine a
  | .result outcome => (x.coordinator.operation.bind fun op ↦
      (settle vm jobs x.engine op outcome).map fun r ↦ g.noteAll vm x.engine r.2.2).getD g
  | .restart _ =>
    ⟨g.inserted, (jobIds x.engine).filter (fun id ↦ id ∈ x.engine.volatileIds) ++ g.removed⟩
  | _ => g

/-- The system beside its tally, which starts with the jobs that were found. -/
def tallied : Machine (System × Tally) Label :=
  (system cron vm jobs).observed (fun x ↦ ⟨jobIds x.engine, []⟩) (Tally.observe vm jobs)

variable {cron} {vm} {jobs}

theorem execute_run {engine : Engine.State} {op : Operation} {conditions : Conditions}
    {x : Executed} (hx : execute vm jobs engine op conditions = some x) :
    (machine vm).run engine x.actions = some x.state := by
  cases op with
  | register d => exact registerSchedule_run hx
  | cancel d => exact cancelSchedule_run hx
  | deliver d next dueAt now =>
    simp only [execute] at hx
    split at hx
    case h_1 =>
      cases hx
      rfl
    case h_2 => exact deliverSchedule_run hx

theorem settle_run {engine engine' : Engine.State} {op : Operation} {outcome : Outcome}
    {ending : Ending} {actions : List Action}
    (h : settle vm jobs engine op outcome = some (ending, engine', actions)) :
    (machine vm).run engine actions = some engine' := by
  cases outcome with
  | refused r =>
    cases h
    rfl
  | answered conditions =>
    obtain ⟨x, hx, heq⟩ := Option.map_eq_some_iff.mp h
    cases heq
    exact execute_run hx
  | lost conditions =>
    cases conditions with
    | none =>
      cases h
      rfl
    | some conditions =>
      obtain ⟨x, hx, heq⟩ := Option.map_eq_some_iff.mp h
      cases heq
      exact execute_run hx

/-- The invariant: the jobs are where they belong and the tally is right. -/
def Counted (x : System × Tally) : Prop := Placed x.1.engine ∧ Balanced x.1.engine x.2

theorem placed_of_starts {engine : Engine.State} (h : Starts vm engine) : Placed engine := by
  obtain ⟨d, config, r, segment, hr, rfl, -⟩ := h
  exact placed_start segment (Reader.recover_sound vm (sound_candidate _ _) hr)

theorem counted_initial {x : System × Tally} (hx : (tallied cron vm jobs).initial x) :
    Counted x := by
  obtain ⟨⟨hstarts, -⟩, htally⟩ := hx
  refine ⟨placed_of_starts hstarts, fun id ↦ ?_⟩
  rw [htally, count_jobIds, List.count_nil, Nat.zero_add]

theorem Resumes.balanced {s t : Engine.State} {g : Tally} (h : Resumes vm s t)
    (hg : Balanced s g) :
    Balanced t ⟨g.inserted, (jobIds s).filter (fun id ↦ id ∈ s.volatileIds) ++ g.removed⟩ := by
  intro id
  rw [List.count_append, hg id]
  by_cases hid : id ∈ s.volatileIds
  · rw [List.count_filter (by simpa using hid), count_jobIds, h.volatile id hid]
    exact Nat.add_comm _ _
  · have hnone : ((jobIds s).filter fun id ↦ id ∈ s.volatileIds).count id = 0 :=
      List.count_eq_zero_of_not_mem fun hmem ↦ hid (by simpa using (List.mem_filter.mp hmem).2)
    rw [hnone, Nat.zero_add, h.persistent id hid]

theorem counted_step {x y : System × Tally} {l : Label} (hx : Counted x)
    (hfaithful : Faithful vm x.1 l) (hy : (tallied cron vm jobs).step x l = some y) :
    Counted y := by
  obtain ⟨⟨engine, c⟩, g⟩ := x
  obtain ⟨hplaced, hbalanced⟩ := hx
  simp only [tallied, Machine.observed, system, Option.map_eq_some_iff] at hy
  obtain ⟨t, ht, rfl⟩ := hy
  cases l with
  | register d =>
    simp only [step] at ht
    split at ht
    case isTrue =>
      cases ht
      exact ⟨hplaced, hbalanced⟩
    case isFalse => cases ht
  | cancel id =>
    cases ht
    exact ⟨hplaced, hbalanced⟩
  | fire ref =>
    obtain ⟨timer, -, rfl⟩ := Option.map_eq_some_iff.mp ht
    exact ⟨hplaced, hbalanced⟩
  | due id dueAt now =>
    simp only [step] at ht
    split at ht
    case isTrue =>
      cases ht
      exact ⟨hplaced, hbalanced⟩
    case isFalse => cases ht
  | result outcome =>
    simp only [step, Option.bind_eq_some_iff, Option.map_eq_some_iff] at ht
    obtain ⟨op, hop, ⟨ending, engine', actions⟩, hsettle, rfl⟩ := ht
    simp only [Counted, Tally.observe, hop, Option.bind_some, hsettle, Option.map_some,
      Option.getD_some]
    exact hbalanced.run hplaced (settle_run hsettle)
  | engine a =>
    simp only [step] at ht
    split at ht
    case isFalse => cases ht
    case isTrue =>
      obtain ⟨engine', hengine, rfl⟩ := Option.map_eq_some_iff.mp ht
      exact hbalanced.handle hplaced (toOption_eq_some.mp hengine)
  | restart engine' =>
    cases ht
    have hresumes := hfaithful.2 engine' rfl
    exact ⟨placed_of_starts hresumes.starts, hresumes.balanced hbalanced⟩

/-! ## Moving on -/

variable (cron vm jobs) in
/-- A delivery has moved the schedule from the occurrence that was due to the one its policy asks
for; and the occurrence's job was there when the advance was committed, or an earlier occurrence was
still busy and the policy is to skip. -/
structure Advances (x : System) (l : Label) (y : System) (d d' : Decl) (schedule next : Declared)
    (now : ℕ) (e : Expression κ) (conditions : Conditions) : Prop where
  running : x.coordinator.operation = some (.deliver schedule next d.nextAt now)
  label : l = .result (.answered conditions) ∨ l = .result (.lost (some conditions))
  live : d.cancelledAt = none
  definition : d'.definition = d.definition
  expression : Timing.runtimeExpression cron d.definition = some e
  nextAt : Timing.advanceAfterDelivery cron d.definition.catchUp e d.nextAt now =
    some d'.nextAt
  passed : ∀ t, Timing.Follows cron e d.nextAt t → t < d'.nextAt →
    d.definition.catchUp = .latest ∧ t ≤ now
  job : (∃ actions between a, (machine vm).run x.engine actions = some between ∧
      (lookup between (jobs.occurrenceId d.id d.nextAt)).isSome = true ∧
      handle vm between a = .ok y.engine) ∨
    d.definition.overlap = .skip ∧ ∃ stored, x.engine.schedules[d.id]? = some stored ∧
      busy x.engine stored conditions = true

/-- The job of an occurrence that was inserted, or found, is there. -/
theorem insertOccurrence_lookup {engine between : Engine.State} {q : Delivery} {c : Conditions}
    {actions : List Action} (hplaced : Placed engine)
    (h : insertOccurrence vm engine q c = some (.ok (), between, actions)) :
    (lookup between q.raw).isSome = true := by
  rcases insertOccurrence_cases h with ⟨r, heq⟩ | ⟨existing, hexisting, -, heq⟩ |
    ⟨mode, out, hnone, hout, heq⟩
  · cases heq
  · cases heq
    exact Option.isSome_of_eq_some hexisting
  · cases heq
    have hhandle : handle vm engine (.command (.insert (q.event c) mode) c.insert) =
        .ok out.1 := by
      simp only [handle, hout]
      rfl
    rcases handle_placed hplaced hhandle with ⟨job, hproduced, hmoves⟩ | ⟨hproduced, -⟩
    · rcases insertedBy_spec hproduced with ⟨hinserted, -⟩ | ⟨hinserted, -⟩
      · have hid : q.raw = job.id := List.singleton_inj.mp hinserted
        rw [hmoves.lookup, if_pos hid.symm]
        rfl
      · cases hinserted
    · cases insertedBy_quiet hhandle hproduced

/-- A delivery that has rewritten its schedule: its job was there when it did, or it was skipped. -/
theorem deliverSchedule_job {engine : Engine.State} {q : Delivery} {c : Conditions} {x : Executed}
    {stored : Schedule} (hplaced : Placed engine) (h : deliverSchedule vm engine q c = some x)
    (hanswer : x.answer = .ok stored) (hmoved : decls x.state ≠ decls engine) :
    (∃ actions between a, (machine vm).run engine actions = some between ∧
        (lookup between q.raw).isSome = true ∧ handle vm between a = .ok x.state) ∨
      q.definition.overlap = .skip ∧ ∃ schedule, engine.schedules[q.id]? = some schedule ∧
        busy engine schedule c = true := by
  cases deliverSchedule_delivers h with
  | refused hx =>
    subst hx
    cases hanswer
  | passed _ _ _ hx =>
    subst hx
    exact absurd rfl hmoved
  | skipped hs _ _ _ hbusy hskip _ => exact .inr ⟨hskip, _, hs, hbusy⟩
  | @inserted schedule next between actions y hs _ _ _ hinsert _ hy hx =>
    subst hx
    rcases auxiliaryCommit_cases hy with ⟨r, rfl⟩ | ⟨out, _, hperform, -, rfl⟩
    · cases hanswer
    · refine .inl ⟨actions, between, .command (.auxiliary ⟨next.revision, q.timestamp,
        .scheduleDelivered next.id (some q.raw) q.dueAt q.nextAt⟩) c.advance,
        insertOccurrence_run hinsert, insertOccurrence_lookup hplaced hinsert, ?_⟩
      simp only [handle, hperform]
      rfl

theorem advanced_eq_some {d next : Declared} {dueAt now : ℕ}
    (h : advanced cron d dueAt now = some next) :
    ∃ x, Timing.runtimeExpression cron d.definition = some x ∧
      Timing.advanceAfterDelivery cron d.definition.catchUp x dueAt now = some next.nextAt := by
  simp only [advanced, Option.bind_eq_some_iff, Option.map_eq_some_iff] at h
  obtain ⟨x, hx, nextAt, hadvance, rfl⟩ := h
  exact ⟨x, hx, hadvance⟩

/-- What the execution of an operation has done to the declaration of `id`, if it has moved it. -/
theorem execute_moves {x : System} {g : Ledger} {op : Operation} {conditions : Conditions}
    {r : Executed} {id : Binary} {d d' : Decl} (hcached : Cached cron (x, g))
    (hplaced : Placed x.engine) (hop : x.coordinator.operation = some op)
    (hinsert : Restates x.engine conditions.insert)
    (hadvance : Restates x.engine conditions.advance)
    (hr : execute vm jobs x.engine op conditions = some r)
    (hd : decls x.engine id = some d) (hd' : decls r.state id = some d')
    (hmoved : d'.nextAt ≠ d.nextAt) :
    (∃ schedule, op = .register schedule ∧ schedule.id = id ∧ d'.nextAt = schedule.nextAt) ∨
      ∃ schedule next now expression, op = .deliver schedule next d.nextAt now ∧
        d.cancelledAt = none ∧ d'.definition = d.definition ∧
        Timing.runtimeExpression cron d.definition = some expression ∧
        Timing.advanceAfterDelivery cron d.definition.catchUp expression d.nextAt now =
          some d'.nextAt ∧
        ((∃ actions between a, (machine vm).run x.engine actions = some between ∧
            (lookup between (jobs.occurrenceId d.id d.nextAt)).isSome = true ∧
            handle vm between a = .ok r.state) ∨
          d.definition.overlap = .skip ∧ ∃ stored, x.engine.schedules[d.id]? = some stored ∧
            busy x.engine stored conditions = true) := by
  obtain ⟨h, hk⟩ := hcached
  have hsame (hdecls : decls r.state = decls x.engine) : False := by
    rw [hdecls, hd] at hd'
    cases hd'
    exact hmoved rfl
  -- only the schedule of the operation can have been rewritten
  have hwrote {subject : Binary} {next : Decl}
      (hdecls : decls r.state = Function.update (decls x.engine) subject (some next)) :
      id = subject ∧ d' = next := by
    by_cases hid : id = subject
    · rw [hdecls, hid, Function.update_self] at hd'
      exact ⟨hid, (Option.some.inj hd').symm⟩
    · rw [hdecls, Function.update_of_ne hid, hd] at hd'
      cases hd'
      exact absurd rfl hmoved
  cases op with
  | register schedule =>
    cases registerSchedule_declares hadvance hr with
    | refused _ hdecls => exact (hsame hdecls).elim
    | found _ _ _ hdecls => exact (hsame hdecls).elim
    | wrote _ hnext hdecls =>
      obtain ⟨rfl, rfl⟩ := hwrote hdecls
      exact .inl ⟨schedule, rfl, rfl, by rw [hnext]⟩
  | cancel schedule =>
    cases cancelSchedule_declares hadvance hr with
    | refused _ hdecls => exact (hsame hdecls).elim
    | found _ _ _ hdecls => exact (hsame hdecls).elim
    | wrote _ hnext hdecls =>
      obtain ⟨rfl, rfl⟩ := hwrote hdecls
      obtain ⟨-, old, hold, -, hnext⟩ := hnext
      rw [hd] at hold
      cases hold
      exact absurd (congrArg Decl.nextAt hnext) hmoved
  | deliver schedule next dueAt now =>
    obtain ⟨-, -, hplanned⟩ := hk.running schedule next dueAt now hop
    simp only [execute] at hr
    split at hr
    case h_1 =>
      cases hr
      exact (hsame rfl).elim
    case h_2 job bytes durability _ =>
      cases deliverSchedule_declares hinsert hadvance hk.keyed hr with
      | refused _ hdecls => exact (hsame hdecls).elim
      | found _ _ _ hdecls => exact (hsame hdecls).elim
      | wrote hanswer hnext hdecls =>
        obtain ⟨hid, rfl⟩ := hwrote hdecls
        obtain ⟨old, hold, hdefinition, hlive, hdue, hnext⟩ := hnext
        rw [← hid, hd] at hold
        cases hold
        have hdue' : d.nextAt = dueAt := hdue
        have hid' : d.id = schedule.id := (hk.keyed id d hd).trans hid
        subst hdue'
        obtain ⟨expression, hexpression, hadvanced⟩ := advanced_eq_some hplanned.next
        have hdefinition' : d.definition = schedule.definition := hdefinition
        rw [← hdefinition'] at hexpression hadvanced
        have hjob := deliverSchedule_job hplaced hr hanswer fun heq ↦ hsame heq
        refine .inr ⟨schedule, next, now, expression, rfl, hlive, ?_, hexpression, ?_, ?_⟩
        · rw [hnext]
        · rw [hnext]
          exact hadvanced
        · rw [hid', hdefinition']
          exact hjob

/-- What one step has done to the declaration of `id`, if it has moved it. -/
theorem step_moves {x y : System} {g : Ledger} {l : Label} {id : Binary} {d d' : Decl}
    (hcached : Cached cron (x, g)) (hplaced : Placed x.engine) (hfaithful : Faithful vm x l)
    (hy : (system cron vm jobs).step x l = some y) (hd : decls x.engine id = some d)
    (hd' : decls y.engine id = some d') (hmoved : d'.nextAt ≠ d.nextAt) :
    (∃ schedule, x.coordinator.operation = some (.register schedule) ∧ schedule.id = id ∧
        d'.nextAt = schedule.nextAt) ∨
      ∃ schedule next now e conditions,
        Advances cron vm jobs x l y d d' schedule next now e conditions := by
  have hsame (hdecls : decls y.engine = decls x.engine) : False := by
    rw [hdecls, hd] at hd'
    cases hd'
    exact hmoved rfl
  have hexecuted {op : Operation} {conditions : Conditions} {r : Executed}
      (hop : x.coordinator.operation = some op)
      (hl : l = .result (.answered conditions) ∨ l = .result (.lost (some conditions)))
      (hr : execute vm jobs x.engine op conditions = some r) (hengine : y.engine = r.state) :
      (∃ schedule, x.coordinator.operation = some (.register schedule) ∧ schedule.id = id ∧
          d'.nextAt = schedule.nextAt) ∨
        ∃ schedule next now e conditions,
          Advances cron vm jobs x l y d d' schedule next now e conditions := by
    have hrestates : Restates x.engine conditions.insert ∧
        Restates x.engine conditions.advance := by
      rcases hl with rfl | rfl
      · exact hfaithful.1
      · exact hfaithful.1
    rw [hengine] at hd'
    rcases execute_moves hcached hplaced hop hrestates.1 hrestates.2 hr hd hd' hmoved with
      ⟨schedule, rfl, hid, hnext⟩ |
      ⟨schedule, next, now, e, rfl, hlive, hdefinition, hexpression, hadvance, hjob⟩
    · exact .inl ⟨schedule, hop, hid, hnext⟩
    · refine .inr ⟨schedule, next, now, e, conditions, hop, hl, hlive, hdefinition, hexpression,
        hadvance, ?_, hengine ▸ hjob⟩
      exact fun t ht hlt ↦ Timing.passed_of_follows (Timing.runtimeExpression_pos hexpression)
        hadvance ht hlt
  cases l with
  | register schedule =>
    simp only [system, step] at hy
    split at hy
    case isTrue =>
      cases hy
      exact (hsame rfl).elim
    case isFalse => cases hy
  | cancel id =>
    cases hy
    exact (hsame rfl).elim
  | fire ref =>
    obtain ⟨timer, -, rfl⟩ := Option.map_eq_some_iff.mp hy
    exact (hsame rfl).elim
  | due id dueAt now =>
    simp only [system, step] at hy
    split at hy
    case isTrue =>
      cases hy
      exact (hsame rfl).elim
    case isFalse => cases hy
  | engine a =>
    simp only [system, step] at hy
    split at hy
    case isFalse => cases hy
    case isTrue hforeign =>
      obtain ⟨engine, hengine, rfl⟩ := Option.map_eq_some_iff.mp hy
      refine (hsame (handle_decls ?_ ?_ ?_ (toOption_eq_some.mp hengine))).elim
      · rintro op env rfl
        exact hfaithful.1
      · rintro e env rfl
        exact Option.isNone_iff_eq_none.mp hforeign
      · rintro token stats admits rfl
        exact hfaithful.1
  | restart engine =>
    cases hy
    exact (hsame (hfaithful.2 engine rfl).decls).elim
  | result outcome =>
    simp only [system, step, Option.bind_eq_some_iff, Option.map_eq_some_iff] at hy
    obtain ⟨op, hop, ⟨ending, engine, actions⟩, hsettle, rfl⟩ := hy
    cases outcome with
    | refused r =>
      cases hsettle
      exact (hsame rfl).elim
    | answered conditions =>
      obtain ⟨r, hr, heq⟩ := Option.map_eq_some_iff.mp hsettle
      cases heq
      exact hexecuted hop (.inl rfl) hr rfl
    | lost conditions =>
      cases conditions with
      | none =>
        cases hsettle
        exact (hsame rfl).elim
      | some conditions =>
        obtain ⟨r, hr, heq⟩ := Option.map_eq_some_iff.mp hsettle
        cases heq
        exact hexecuted hop (.inr rfl) hr rfl

/-- **One job for an occurrence, and no occurrence without its job.** In every run, the insertions of
a job id are as many as its removals, and one more while the job is there. And a step that moves the
next occurrence of a schedule is a registration of it, or a delivery of the occurrence that was due. -/
theorem deliveries_exact {x : System} {g : Tally}
    (hx : (tallied cron vm jobs).ReachableUnder (fun x l ↦ Faithful vm x.1 l) (x, g)) :
    (∀ id, g.inserted.count id = g.removed.count id + (lookup x.engine id).isSome.toNat) ∧
      ∀ l y, Faithful vm x l → (system cron vm jobs).step x l = some y →
        ∀ id d d', decls x.engine id = some d → decls y.engine id = some d' →
          d'.nextAt ≠ d.nextAt →
          (∃ schedule, x.coordinator.operation = some (.register schedule) ∧ schedule.id = id ∧
              d'.nextAt = schedule.nextAt) ∨
            ∃ schedule next now e conditions,
              Advances cron vm jobs x l y d d' schedule next now e conditions := by
  obtain ⟨hplaced, hbalanced⟩ : Counted (x, g) :=
    Machine.ReachableUnder.invariant (fun _ ↦ counted_initial)
      (fun _ _ _ hI hok hl ↦ counted_step hI hok hl) hx
  refine ⟨hbalanced, fun l y hfaithful hy id d d' hd hd' hmoved ↦ ?_⟩
  obtain ⟨ledger, hledger⟩ : ∃ ledger, (ledgered cron vm jobs).ReachableUnder
      (fun x l ↦ Faithful vm x.1 l) (x, ledger) := hx.of_observed.observed
  have hcached : Cached cron (x, ledger) :=
    Machine.ReachableUnder.invariant (fun _ ↦ cached_initial)
      (fun _ _ _ hI hok hl ↦ cached_step hI hok.1 hl) hledger
  exact step_moves hcached hplaced hfaithful hy hd hd' hmoved

namespace Sample

/-- Every missed occurrence is wanted, and none is skipped. -/
def eager : Declared :=
  { declared with definition := { Tay.Sample.scheduleDefinition with catchUp := .all } }

/-- The same schedule with another interval, declared when the first occurrence is long due. -/
def redeclared : Declared :=
  { declared with
    definition := { Tay.Sample.scheduleDefinition with catchUp := .all, trigger := .every 2000 }
    registeredAt := 5000
    nextAt := 5000 }

/-- The delivery of the first occurrence. -/
def delivering : Operation :=
  .deliver { declared with revision := 1 }
    { declared with revision := 1, lastAt := some 20, nextAt := 1020 } 20 25

def eagerly : Engine.State := (after (after empty (.register eager))
  (.result (.answered (conditions Engine.Sample.empty Engine.Sample.empty)))).engine

end Sample

theorem faithful_of_restating {x : System} {l : Label} (h : Restating vm x l)
    (hl : ∀ engine, l ≠ .restart engine) : Faithful vm x l :=
  ⟨h, fun engine heq ↦ absurd heq (hl engine)⟩

/-- The first delivery of the sample schedule: nothing was inserted before it, and it moves the
schedule with the job of the occurrence in place. -/
theorem deliveries_exact_delivered :
    ∃ (x y : System) (g : Tally) (d d' : Decl) (schedule next : Declared) (now : ℕ)
      (e : Expression Unit) (c : Conditions),
      (tallied Sample.calendar Tay.Sample.runtime Sample.occurrences).ReachableUnder
        (fun x l ↦ Faithful Tay.Sample.runtime x.1 l) (x, g) ∧
      g.inserted.count 20 = g.removed.count 20 + (lookup x.engine 20).isSome.toNat ∧
      d.nextAt = 20 ∧ d'.nextAt = 1020 ∧
      Advances Sample.calendar Tay.Sample.runtime Sample.occurrences x
        (.result (.answered (Sample.conditions Sample.registered Sample.inserted))) y d d' schedule
        next now e c := by
  have heval : ((tallied Sample.calendar Tay.Sample.runtime Sample.occurrences).run
      (Sample.empty, ⟨jobIds Sample.empty.engine, []⟩) (Sample.registration ++
        [.fire 0, .due (text "s") 20 25])).any (fun x ↦
        (decls x.1.engine (text "s")).any (fun d ↦ d.nextAt == 20) &&
          x.1.coordinator.operation == some Sample.delivering &&
          ((system Sample.calendar Tay.Sample.runtime Sample.occurrences).step x.1 (.result
            (.answered (Sample.conditions Sample.registered Sample.inserted)))).any fun y ↦
              (decls y.engine (text "s")).any fun d ↦ d.nextAt == 1020) = true := by
    decide +kernel
  obtain ⟨⟨x, g⟩, hrun, hx⟩ := (Option.any_eq_true _ _).mp heval
  simp only [Bool.and_eq_true, beq_iff_eq] at hx
  obtain ⟨⟨hd, hop⟩, hy⟩ := hx
  obtain ⟨d, hd, hdue⟩ := (Option.any_eq_true _ _).mp hd
  obtain ⟨y, hy, hd'⟩ := (Option.any_eq_true _ _).mp hy
  obtain ⟨d', hd', hnext⟩ := (Option.any_eq_true _ _).mp hd'
  rw [beq_iff_eq] at hdue hnext
  have hreachable : (tallied Sample.calendar Tay.Sample.runtime Sample.occurrences).ReachableUnder
      (fun x l ↦ Faithful Tay.Sample.runtime x.1 l) (x, g) := by
    refine Machine.ReachableUnder.run ?_ (.initial ⟨⟨starts_empty, rfl⟩, rfl⟩) hrun
    intro y l hl
    simp only [Sample.registration, List.cons_append, List.nil_append, List.mem_cons,
      List.not_mem_nil, or_false] at hl
    rcases hl with rfl | rfl | rfl | rfl
    · exact faithful_of_restating trivial fun _ heq ↦ by cases heq
    · exact faithful_of_restating ⟨writer_restates _ _, writer_restates _ _⟩
        fun _ heq ↦ by cases heq
    · exact faithful_of_restating trivial fun _ heq ↦ by cases heq
    · exact faithful_of_restating trivial fun _ heq ↦ by cases heq
  obtain ⟨hcount, hmoves⟩ := deliveries_exact hreachable
  have hfaithful : Faithful Tay.Sample.runtime x (.result (.answered
      (Sample.conditions Sample.registered Sample.inserted))) :=
    faithful_of_restating ⟨writer_restates _ _, writer_restates _ _⟩ fun _ heq ↦ by cases heq
  rcases hmoves _ y hfaithful hy _ d d' hd hd' (by rw [hdue, hnext]; decide) with
    ⟨schedule, hregister, -⟩ | ⟨schedule, next, now, e, c, hadvances⟩
  · rw [hop] at hregister
    cases hregister
  · exact ⟨x, y, g, d, d', schedule, next, now, e, c, hreachable, hcount 20, hdue, hnext,
      hadvances⟩

/-- A schedule that wants every occurrence and skips none is declared anew while its first one is
long due and has no job: the schedule moves past it. -/
theorem deliveries_exact_redeclared :
    ∃ (x y : System) (d d' : Decl),
      (system Sample.calendar Tay.Sample.runtime Sample.occurrences).Reachable x ∧
      (system Sample.calendar Tay.Sample.runtime Sample.occurrences).step x (.result (.answered
        (Sample.conditions Sample.eagerly Sample.eagerly))) = some y ∧
      decls x.engine (text "s") = some d ∧ d.nextAt = 20 ∧ d.cancelledAt = none ∧
      d.definition.catchUp = .all ∧ d.definition.overlap = .allow ∧
      x.coordinator.operation = some (.register Sample.redeclared) ∧
      decls y.engine (text "s") = some d' ∧ d'.nextAt = 5000 ∧
      lookup x.engine (Sample.occurrences.occurrenceId (text "s") 20) = none ∧
      lookup y.engine (Sample.occurrences.occurrenceId (text "s") 20) = none := by
  have heval : ((system Sample.calendar Tay.Sample.runtime Sample.occurrences).run Sample.empty
      [.register Sample.eager, .result (.answered (Sample.conditions Engine.Sample.empty
        Engine.Sample.empty)), .register Sample.redeclared]).any (fun x ↦
        (decls x.engine (text "s")).any (fun d ↦ d.nextAt == 20 && d.cancelledAt.isNone &&
            d.definition.catchUp == .all && d.definition.overlap == .allow) &&
          x.coordinator.operation == some (.register Sample.redeclared) &&
          (lookup x.engine 20).isNone &&
          ((system Sample.calendar Tay.Sample.runtime Sample.occurrences).step x (.result
            (.answered (Sample.conditions Sample.eagerly Sample.eagerly)))).any fun y ↦
              (decls y.engine (text "s")).any (fun d ↦ d.nextAt == 5000) &&
                (lookup y.engine 20).isNone) = true := by
    decide +kernel
  obtain ⟨x, hrun, hx⟩ := (Option.any_eq_true _ _).mp heval
  simp only [Bool.and_eq_true, beq_iff_eq, Option.isNone_iff_eq_none] at hx
  obtain ⟨⟨⟨hd, hop⟩, hnone⟩, hy⟩ := hx
  obtain ⟨d, hd, hd'⟩ := (Option.any_eq_true _ _).mp hd
  simp only [Bool.and_eq_true, beq_iff_eq, Option.isNone_iff_eq_none] at hd'
  obtain ⟨⟨⟨hdue, hlive⟩, hcatchUp⟩, hoverlap⟩ := hd'
  obtain ⟨y, hy, hy'⟩ := (Option.any_eq_true _ _).mp hy
  rw [Bool.and_eq_true, Option.isNone_iff_eq_none] at hy'
  obtain ⟨d', hd', hnext⟩ := (Option.any_eq_true _ _).mp hy'.1
  exact ⟨x, y, d, d', Machine.reachable_of_run ⟨starts_empty, rfl⟩ hrun, hy, hd, hdue, hlive,
    hcatchUp, hoverlap, hop, hd', beq_iff_eq.mp hnext, hnone, hy'.2⟩

end Coordinator

end Tay
