import Tay.Storage.Reducer

/-!
# Every version of a job is a snapshot

`Codec.snapshot?` is the check a job must pass to be written as a snapshot, and `Reducer.apply` makes
it of every version it computes. The check relates a dozen fields, with rules of their own for each
state, while the transitions set them in separate clauses. Here the two are shown to agree: what the
transitions make of a snapshot is a snapshot, so the check never stands in the way of an event they
have accepted.

The check is first read as a structure, and each clause of the transition is then a short list of
fields that change.
-/

open Foundation

namespace Tay

open V2

namespace Codec

/-- What `snapshot?` checks, apart from the rules of the states. -/
structure Fields (job : Job) (limits : Value.Limits) : Prop where
  id : id? job.id = true
  definition : definition? job.definition = true
  bytes : job.definition.toValue.encode limits Value.maxBytes = .ok job.definitionBytes
  revision : uint? job.revision = true
  cycle : uint? job.cycle = true
  cycle_le : job.cycle ≤ job.revision
  attempt : job.attempt ≤ job.definition.maxAttempts
  nextAttempt : ∀ n, job.nextAttempt = some n → 1 ≤ n ∧ n ≤ job.definition.maxAttempts
  insertedAt : time? job.insertedAt = true
  eligibleAt : job.eligibleAt.all time? = true
  attemptedAt : job.attemptedAt.all time? = true
  completedAt : job.completedAt.all time? = true
  terminalAt : job.terminalAt.all time? = true
  availabilityOrder : job.availabilityOrder.all uint? = true
  execution : ∀ t, job.execution = some t → uint? t = true ∧ t ≤ job.revision
  diagnostic : validDiagnostic? job.diagnostic = true

/-- The rules of the states. -/
structure Shape (job : Job) : Prop where
  terminal : terminalFields? job = true
  state : stateFields? job = true
  credible : credibleState? job = true

theorem snapshot?_iff {job : Job} {limits : Value.Limits} :
    snapshot? job limits = .ok () ↔ Fields job limits ∧ Shape job := by
  simp only [snapshot?, bind_eq_ok, check_eq_ok, Bool.and_eq_true, decide_eq_true_eq]
  constructor
  · rintro ⟨-, hid, -, hdefinition, bytes, hencode, -, hbytes, -, ⟨⟨hrevision, hcycle⟩, hle⟩, -,
      hattempt, -, hnext, -, ⟨⟨⟨⟨hinserted, heligible⟩, hattempted⟩, hcompleted⟩, hterminal⟩, -, horder,
      -, hexecution, -, hdiagnostic, -, hterminals, -, hstate, hcredible⟩
    refine ⟨⟨hid, hdefinition, ?_, hrevision, hcycle, hle, hattempt, ?_, hinserted, heligible,
      hattempted, hcompleted, hterminal, horder, ?_, hdiagnostic⟩, hterminals, hstate, hcredible⟩
    · rw [hencode, beq_iff_eq.mp hbytes]
    · intro n hn
      simpa [hn] using hnext
    · intro t ht
      simpa [ht] using hexecution
  · rintro ⟨h, hshape⟩
    refine ⟨(), h.id, (), h.definition, _, h.bytes, (), beq_self_eq_true _, (),
      ⟨⟨h.revision, h.cycle⟩, h.cycle_le⟩, (), h.attempt, (), ?_, (),
      ⟨⟨⟨⟨h.insertedAt, h.eligibleAt⟩, h.attemptedAt⟩, h.completedAt⟩, h.terminalAt⟩, (),
      h.availabilityOrder, (), ?_, (), h.diagnostic, (), hshape.terminal, (), hshape.state,
      hshape.credible⟩
    · cases hn : job.nextAttempt with
      | none => rfl
      | some n => simpa using h.nextAttempt n hn
    · cases ht : job.execution with
      | none => rfl
      | some t => simpa using h.execution t ht

end Codec

namespace Reducer

/-- The next version of a job as `Transition` computes it, under the revision and the availability
order of the mutation: `transitionJob` before it makes the check of the snapshot. -/
def admitJob (previous : Option Job) (m : Mutation) (nextOrder : ℕ) (valueLimits : Value.Limits) :
    Except Reason Job := do
  Codec.mutation? m valueLimits
  revisionGate previous m
  availabilityGate nextOrder m
  let prepared ← Transition.prepare (previous.map toV1) (Codec.event m) valueLimits
  let applied ← Transition.apply prepared m.newRevision
  return fromV1 applied m

theorem transitionJob_admitted (previous : Option Job) (m : Mutation) (nextOrder : ℕ)
    (valueLimits : Value.Limits) :
    transitionJob previous m nextOrder valueLimits =
      admitJob previous m nextOrder valueLimits >>= fun job ↦
        Codec.snapshot? job valueLimits >>= fun _ ↦ .ok job := by
  simp only [transitionJob, admitJob, bind_assoc, pure_eq_ok, ok_bind]

/-- What is known of a mutation that has been admitted. -/
structure Admitted (m : Mutation) : Prop where
  id : id? m.jobId = true
  revision : m.newRevision = m.expectedRevision + 1
  bound : m.expectedRevision ≤ maxSequence - 1
  timestamp : time? m.timestamp = true
  order : Codec.mutationOrder? m = true
  fields : jobFields? (Codec.event m) = true

theorem admitted_of_mutation? {m : Mutation} {limits : Value.Limits} {u : Unit}
    (h : Codec.mutation? m limits = .ok u) : Admitted m := by
  simp only [Codec.mutation?, JobEvent.encode, bind_eq_ok, check_eq_ok, decide_eq_true_eq,
    beq_iff_eq] at h
  obtain ⟨-, hid, -, hbound, -, hrevision, -, -, -, htime, -, horder, -, ⟨-, -, -, hvalid, -⟩, -⟩ := h
  simp only [validateJob, Bool.and_eq_true] at hvalid
  exact ⟨hid, hrevision, hbound, htime, horder, hvalid.2⟩

theorem Admitted.uint {m : Mutation} (h : Admitted m) : Codec.uint? m.newRevision = true := by
  have hbound := h.bound
  have hrevision := h.revision
  simp only [Codec.uint?, Bool.and_eq_true, decide_eq_true_eq]
  unfold maxSequence at hbound ⊢
  omega

/-- An insertion makes a snapshot. -/
theorem admitJob_inserted {m : Mutation} {nextOrder : ℕ} {limits : Value.Limits} {job : Job}
    (h : admitJob none m nextOrder limits = .ok job) : Codec.snapshot? job limits = .ok () := by
  simp only [admitJob, bind_eq_ok] at h
  obtain ⟨_, hmutation, _, hgate, _, -, q, hq, applied, happlied, hjob⟩ := h
  have hm := admitted_of_mutation? hmutation
  have huint := hm.uint
  obtain ⟨jobId, expected, newRevision, timestamp, body⟩ := m
  cases body with
  | available | started | finished | cancelled | retried => cases hgate
  | inserted definition eligibleAt order =>
    have hone : expected = 0 ∧ newRevision = 1 := by
      simpa [revisionGate, MutationBody.isInserted, check_eq_ok] using hgate
    obtain ⟨rfl, rfl⟩ := hone
    simp only [Transition.prepare, bind_eq_ok, check_eq_ok, pure_eq_ok, Codec.event, Option.map_none,
      Transition.definitionBytes] at hq
    obtain ⟨-, -, -, -, bytes, hbytes, hq⟩ := hq
    cases hq
    simp only [Transition.apply, check_bind_eq_ok, pure_eq_ok] at happlied
    cases happlied.2
    cases hjob
    have hfields := hm.fields
    simp only [jobFields?, Codec.event, Bool.and_eq_true] at hfields
    have hattempts : 1 ≤ definition.maxAttempts := by
      have := hfields.1.1
      simp only [definition?, Bool.and_eq_true, attempt?, decide_eq_true_eq] at this
      exact this.1.1.1.1.1.1.2.1
    have horder := hm.order
    simp only [Codec.mutationOrder?] at horder
    rw [Codec.snapshot?_iff]
    have hnext : ∀ n, some 1 = some n → 1 ≤ n ∧ n ≤ definition.maxAttempts := by
      rintro n ⟨rfl⟩
      exact ⟨le_rfl, hattempts⟩
    have hnone : ∀ t, (none : Option ℕ) = some t → Codec.uint? t = true ∧ t ≤ 1 := by
      intro t ht
      cases ht
    by_cases havailable : eligibleAt ≤ timestamp
    · rw [if_pos havailable] at horder
      obtain ⟨o, rfl, ho⟩ := (Option.any_eq_true _ _).mp horder
      refine ⟨⟨hm.id, hfields.1.1, hbytes, huint, huint, le_rfl, Nat.zero_le _, hnext, hm.timestamp,
        hfields.1.2, rfl, rfl, ?_, ?_, hnone, rfl⟩, ?_, ?_, ?_⟩ <;>
      simp [fromV1, Transition.inserted, havailable, JobState.terminal, Codec.terminalFields?,
        Codec.stateFields?, Codec.credibleState?, MutationBody.availabilityOrder?, ho]
    · rw [if_neg havailable, Option.isNone_iff_eq_none] at horder
      subst horder
      refine ⟨⟨hm.id, hfields.1.1, hbytes, huint, huint, le_rfl, Nat.zero_le _, hnext, hm.timestamp,
        hfields.1.2, rfl, rfl, ?_, ?_, hnone, rfl⟩, ?_, ?_, ?_⟩ <;>
      simp [fromV1, Transition.inserted, havailable, JobState.terminal, Codec.terminalFields?,
        Codec.stateFields?, Codec.credibleState?]

/-- The version of a job a mutation is applied to. -/
theorem admitJob_some {p : Job} {m : Mutation} {nextOrder : ℕ} {limits : Value.Limits} {job : Job}
    (h : admitJob (some p) m nextOrder limits = .ok job) :
    Admitted m ∧ p.revision = m.expectedRevision ∧
      Transition.validTransition? (toV1 p) (Codec.event m) = true ∧
      job = fromV1 { Transition.next (toV1 p) (Codec.event m) m.newRevision with
        revision := m.newRevision } m := by
  simp only [admitJob, bind_eq_ok] at h
  obtain ⟨_, hmutation, _, hgate, _, -, q, hq, applied, happlied, hjob⟩ := h
  simp only [Transition.prepare, bind_eq_ok, check_eq_ok, pure_eq_ok, Option.map_some,
    Transition.definitionBytes] at hq
  obtain ⟨-, -, -, hvalid, bytes, -, hq⟩ := hq
  cases hq
  simp only [Transition.apply, check_bind_eq_ok, pure_eq_ok] at happlied
  cases happlied.2
  cases hjob
  have hprevious : p.revision = m.expectedRevision ∧
      Transition.validTransition? (toV1 p) (Codec.event m) = true := by
    cases hbody : (Codec.event m).body with
    | inserted => simp [Transition.validPrevious?, hbody] at hvalid
    | available | started | finished | cancelled | retried =>
      simp only [Transition.validPrevious?, hbody, Bool.and_eq_true, beq_iff_eq] at hvalid
      exact ⟨hvalid.1.2, hvalid.2⟩
  exact ⟨admitted_of_mutation? hmutation, hprevious.1, hprevious.2, rfl⟩

/-- A transition keeps the definition and what identifies the job, and raises the revision. -/
theorem fields_next {p : Job} {m : Mutation} {limits : Value.Limits} {job : Job}
    (hp : Codec.Fields p limits) (hm : Admitted m) (hrevision : p.revision = m.expectedRevision)
    (hid : job.id = p.id) (hdefinition : job.definition = p.definition)
    (hbytes : job.definitionBytes = p.definitionBytes) (hinserted : job.insertedAt = p.insertedAt)
    (hnew : job.revision = m.newRevision) (hcycle : job.cycle = p.cycle ∨ job.cycle = m.newRevision)
    (hattempt : job.attempt ≤ p.definition.maxAttempts)
    (hnext : ∀ n, job.nextAttempt = some n → 1 ≤ n ∧ n ≤ p.definition.maxAttempts)
    (heligible : job.eligibleAt.all time? = true) (hattempted : job.attemptedAt.all time? = true)
    (hcompleted : job.completedAt.all time? = true) (hterminal : job.terminalAt.all time? = true)
    (horder : job.availabilityOrder.all Codec.uint? = true)
    (hexecution : ∀ t, job.execution = some t → t = m.newRevision)
    (hdiagnostic : Codec.validDiagnostic? job.diagnostic = true) : Codec.Fields job limits := by
  have hlt : p.revision < m.newRevision := by
    rw [hrevision, hm.revision]
    exact Nat.lt_succ_self _
  refine ⟨hid ▸ hp.id, hdefinition ▸ hp.definition, ?_, hnew ▸ hm.uint, ?_, ?_, hdefinition ▸ hattempt,
    hdefinition ▸ hnext, hinserted ▸ hp.insertedAt, heligible, hattempted, hcompleted, hterminal,
    horder, ?_, hdiagnostic⟩
  · rw [hdefinition, hbytes]
    exact hp.bytes
  · rcases hcycle with h | h
    · exact h ▸ hp.cycle
    · exact h ▸ hm.uint
  · rw [hnew]
    rcases hcycle with h | h
    · exact h ▸ (hp.cycle_le.trans hlt.le)
    · exact h.le
  · intro t ht
    rw [hexecution t ht, hnew]
    exact ⟨hm.uint, le_rfl⟩

/-- The attempt that follows is one the definition allows. -/
theorem expectedFinish_next {p : Job} {outcome n : ℕ} (hpos : 0 < p.attempt)
    (hle : p.attempt ≤ p.definition.maxAttempts)
    (h : (Transition.expectedFinish p outcome).2 = some n) :
    1 ≤ n ∧ n ≤ p.definition.maxAttempts := by
  unfold Transition.expectedFinish at h
  split at h
  · cases h
  · split at h
    · cases h
      exact ⟨hpos, hle⟩
    · split at h
      · cases h
        omega
      · cases h

/-- A success carries no diagnostic, and any other end a valid one. -/
theorem finish_cases {outcome disposition : ℕ} {diagnostic : Option Diagnostic}
    (h : finish? outcome disposition diagnostic = true) :
    (disposition = 0 ∧ diagnostic = none) ∨
      (disposition = 1 ∧ ∃ d, diagnostic = some d ∧ Codec.validDiagnostic? (some d) = true) ∨
      (disposition = 2 ∧ ∃ d, diagnostic = some d ∧ Codec.validDiagnostic? (some d) = true) := by
  cases diagnostic with
  | none =>
    simp only [finish?, Bool.and_eq_true, beq_iff_eq] at h
    exact .inl ⟨h.2, rfl⟩
  | some d =>
    simp only [finish?, Bool.and_eq_true, Bool.or_eq_true, beq_iff_eq, List.contains_eq_mem,
      List.mem_cons, List.not_mem_nil, or_false, decide_eq_true_eq] at h
    have hvalid : Codec.validDiagnostic? (some d) = true := by
      simp only [Codec.validDiagnostic?, h.1, beq_self_eq_true, Bool.true_and, Bool.and_eq_true,
        decide_eq_true_eq]
      omega
    rcases h.2 with (⟨⟨-, h1 | h2⟩, -⟩ | ⟨⟨-, h1 | h2⟩, -⟩) | ⟨⟨-, h1⟩, -⟩
    · exact .inr (.inl ⟨h1, d, rfl, hvalid⟩)
    · exact .inr (.inr ⟨h2, d, rfl, hvalid⟩)
    · exact .inr (.inl ⟨h1, d, rfl, hvalid⟩)
    · exact .inr (.inr ⟨h2, d, rfl, hvalid⟩)
    · exact .inr (.inl ⟨h1, d, rfl, hvalid⟩)

/-- **A transition makes a snapshot of a snapshot.** -/
theorem admitJob_next {p : Job} {m : Mutation} {nextOrder : ℕ} {limits : Value.Limits} {job : Job}
    (hp : Codec.snapshot? p limits = .ok ()) (h : admitJob (some p) m nextOrder limits = .ok job) :
    Codec.snapshot? job limits = .ok () := by
  rw [Codec.snapshot?_iff] at hp ⊢
  obtain ⟨hp, hshape⟩ := hp
  obtain ⟨hm, hrevision, hvalid, rfl⟩ := admitJob_some h
  have hstate := hshape.state
  have hcredible := hshape.credible
  have horder := hm.order
  have hfields := hm.fields
  have htime := hm.timestamp
  obtain ⟨jobId, expected, newRevision, timestamp, body⟩ := m
  cases body with
  | inserted => simp [Transition.validTransition?, Codec.event] at hvalid
  | available dueAt order =>
    simp only [Transition.validTransition?, Codec.event, toV1, Bool.and_eq_true, Bool.or_eq_true,
      beq_iff_eq] at hvalid
    have hdue : time? dueAt = true := by
      simp only [jobFields?, Codec.event, Bool.and_eq_true] at hfields
      exact hfields.1
    refine ⟨fields_next hp hm hrevision rfl rfl rfl rfl rfl (.inl rfl) hp.attempt hp.nextAttempt hdue
      hp.attemptedAt hp.completedAt rfl horder ?_ hp.diagnostic, rfl, ?_, ?_⟩
    all_goals
      rcases hvalid.1 with hs | hs <;>
      simp only [Codec.stateFields?, Codec.credibleState?, hs, Bool.and_eq_true, beq_iff_eq,
        decide_eq_true_eq, Option.isNone_iff_eq_none] at hstate hcredible <;>
      simp [fromV1, Transition.next, Codec.event, toV1, MutationBody.availabilityOrder?, hstate,
        hcredible, Codec.stateFields?, Codec.credibleState?]
  | started attempt cycleToken =>
    simp only [Transition.validTransition?, Codec.event, toV1, Bool.and_eq_true, beq_iff_eq] at hvalid
    obtain ⟨⟨⟨⟨hs, hattempt⟩, hle⟩, -⟩, -⟩ := hvalid
    simp only [Codec.stateFields?, hs, Bool.and_eq_true, Option.isNone_iff_eq_none] at hstate
    have hpos := (hp.nextAttempt attempt hattempt).1
    refine ⟨fields_next hp hm hrevision rfl rfl rfl rfl rfl (.inl rfl) (of_decide_eq_true hle)
      hp.nextAttempt rfl htime hp.completedAt rfl rfl ?_ hp.diagnostic, rfl, ?_, ?_⟩
    · rintro t ⟨rfl⟩
      rfl
    · simp [fromV1, Transition.next, Codec.event, toV1, hstate, hattempt, Codec.stateFields?]
    · simp [fromV1, Transition.next, Codec.event, toV1, hattempt, Codec.credibleState?]
      omega
  | finished outcome disposition executionToken nextAttempt nextDueAt diagnostic =>
    simp only [Transition.validTransition?, Codec.event, toV1, Bool.and_eq_true, beq_iff_eq] at hvalid
    obtain ⟨⟨hs, -⟩, ⟨hdisposition, hnext⟩, -⟩ := hvalid
    simp only [Codec.stateFields?, Codec.credibleState?, hs, Bool.and_eq_true, beq_iff_eq,
      decide_eq_true_eq, Option.isNone_iff_eq_none] at hstate hcredible
    simp only [jobFields?, Codec.event, Bool.and_eq_true] at hfields
    obtain ⟨⟨-, hfinish⟩, hplan⟩ := hfields
    have hnexts : ∀ n, nextAttempt = some n → 1 ≤ n ∧ n ≤ p.definition.maxAttempts := by
      rintro n rfl
      exact expectedFinish_next hcredible.1.1.1 hp.attempt hnext.symm
    have hcompleted : p.completedAt = none := hstate.2
    have hexecution : ∀ t, (none : Option ℕ) = some t → t = newRevision := by
      intro t ht
      cases ht
    rcases finish_cases hfinish with ⟨rfl, rfl⟩ | ⟨hone, d, rfl, hd⟩ | ⟨htwo, d, rfl, hd⟩
    · obtain ⟨rfl, rfl⟩ : nextAttempt = none ∧ nextDueAt = none := by simpa using hplan
      refine ⟨fields_next hp hm hrevision rfl rfl rfl rfl rfl (.inl rfl) hp.attempt hnexts rfl
        hp.attemptedAt htime htime rfl hexecution hp.diagnostic, ?_, ?_, ?_⟩
      all_goals
        simp [fromV1, Transition.next, Codec.event, toV1, hcredible, htime, JobState.terminal,
          Codec.terminalFields?, Codec.stateFields?, Codec.credibleState?]
    · subst hone
      obtain ⟨hsome, hdue⟩ : nextAttempt.any attempt? = true ∧ nextDueAt.any time? = true := by
        simpa using hplan
      obtain ⟨n, rfl, -⟩ := (Option.any_eq_true _ _).mp hsome
      obtain ⟨due, rfl, hdue⟩ := (Option.any_eq_true _ _).mp hdue
      refine ⟨fields_next hp hm hrevision rfl rfl rfl rfl rfl (.inl rfl) hp.attempt hnexts hdue
        hp.attemptedAt hp.completedAt rfl rfl hexecution hd, ?_, ?_, ?_⟩
      all_goals
        simp [fromV1, Transition.next, Codec.event, toV1, hcredible, hcompleted, JobState.terminal,
          Codec.terminalFields?, Codec.stateFields?, Codec.credibleState?]
    · subst htwo
      obtain ⟨rfl, rfl⟩ : nextAttempt = none ∧ nextDueAt = none := by simpa using hplan
      refine ⟨fields_next hp hm hrevision rfl rfl rfl rfl rfl (.inl rfl) hp.attempt hnexts rfl
        hp.attemptedAt hp.completedAt htime rfl hexecution hd, ?_, ?_, ?_⟩
      all_goals
        simp [fromV1, Transition.next, Codec.event, toV1, hcredible, hcompleted, htime,
          JobState.terminal, Codec.terminalFields?, Codec.stateFields?, Codec.credibleState?]
  | cancelled executionToken =>
    simp only [Transition.validTransition?, Codec.event, toV1, Bool.and_eq_true, Bool.or_eq_true,
      beq_iff_eq] at hvalid
    have hopen : p.completedAt = none := by
      rcases hvalid.1 with ((hs | hs) | hs) | hs <;>
        simp only [Codec.stateFields?, hs, Bool.and_eq_true, Option.isNone_iff_eq_none] at hstate <;>
        exact hstate.2
    refine ⟨fields_next hp hm hrevision rfl rfl rfl rfl rfl (.inl rfl) hp.attempt ?_ rfl
      hp.attemptedAt hp.completedAt htime rfl ?_ hp.diagnostic, ?_, ?_, rfl⟩
    · intro n hn
      cases hn
    · intro t ht
      cases ht
    · simp [fromV1, Transition.next, Codec.event, toV1, hopen, Codec.terminalFields?,
        JobState.terminal, htime]
    · simp [fromV1, Transition.next, Codec.event, toV1, hopen, Codec.stateFields?]
  | retried mode newDueAt order =>
    have hdue : time? timestamp = true := htime
    simp only [Transition.validTransition?, Codec.event, toV1, Bool.and_eq_true, Bool.or_eq_true,
      beq_iff_eq] at hvalid
    rcases hvalid with ⟨hs, rfl⟩ | ⟨hs, rfl⟩
    · simp only [Codec.stateFields?, Codec.credibleState?, hs, Bool.and_eq_true, decide_eq_true_eq,
        Option.isNone_iff_eq_none] at hstate hcredible
      refine ⟨fields_next hp hm hrevision rfl rfl rfl rfl rfl (.inl rfl) hp.attempt hp.nextAttempt
        htime hp.attemptedAt hp.completedAt rfl horder ?_ hp.diagnostic, rfl, ?_, ?_⟩
      all_goals
        simp [fromV1, Transition.next, Codec.event, toV1, MutationBody.availabilityOrder?, hstate,
          hcredible, Codec.stateFields?, Codec.credibleState?]
    · simp only [Codec.stateFields?, Codec.credibleState?, hs, Bool.and_eq_true, decide_eq_true_eq,
        Option.isNone_iff_eq_none] at hstate hcredible
      have hattempts : 1 ≤ p.definition.maxAttempts := (Nat.succ_le_of_lt hcredible.1.1).trans hp.attempt
      refine ⟨fields_next hp hm hrevision rfl rfl rfl rfl rfl (.inr rfl) (Nat.zero_le _) ?_
        htime rfl rfl rfl horder ?_ hp.diagnostic, rfl, ?_, ?_⟩
      · rintro n ⟨rfl⟩
        exact ⟨le_rfl, hattempts⟩
      all_goals
        simp [fromV1, Transition.next, Codec.event, toV1, MutationBody.availabilityOrder?,
          Codec.stateFields?, Codec.credibleState?]

/-! ## Every reachable job -/

/-- The versions of jobs that events make: from an insertion on, by whatever events `Transition`
accepts, under the revisions and orders the reducer assigns. A charge may be set at any time. -/
inductive Grown (limits : Value.Limits) : Job → Prop
  | inserted {m : Mutation} {nextOrder : ℕ} {job : Job} :
      admitJob none m nextOrder limits = .ok job → Grown limits job
  | next {p job : Job} {m : Mutation} {nextOrder : ℕ} : Grown limits p →
      admitJob (some p) m nextOrder limits = .ok job → Grown limits job
  | charged {p : Job} (charge : Charge) : Grown limits p → Grown limits (p.charged charge)

theorem Grown.snapshot {limits : Value.Limits} {job : Job} (h : Grown limits job) :
    Codec.snapshot? job limits = .ok () := by
  induction h with
  | inserted h => exact admitJob_inserted h
  | next _ h ih => exact admitJob_next ih h
  | charged _ _ ih => exact ih

/-- The check of the snapshot does nothing where every admitted version passes it. -/
theorem transitionJob_eq_admitJob {previous : Option Job} {m : Mutation} {nextOrder : ℕ}
    {limits : Value.Limits}
    (h : ∀ job, admitJob previous m nextOrder limits = .ok job →
      Codec.snapshot? job limits = .ok ()) :
    transitionJob previous m nextOrder limits = admitJob previous m nextOrder limits := by
  rw [transitionJob_admitted]
  cases hadmit : admitJob previous m nextOrder limits with
  | error e => rfl
  | ok job => rw [ok_bind, h job hadmit, ok_bind]

theorem transitionJob_grown {previous : Option Job} {m : Mutation} {nextOrder : ℕ}
    {limits : Value.Limits} (h : ∀ p, previous = some p → Grown limits p) :
    transitionJob previous m nextOrder limits = admitJob previous m nextOrder limits := by
  refine transitionJob_eq_admitJob fun job hjob ↦ ?_
  cases previous with
  | none => exact admitJob_inserted hjob
  | some p => exact admitJob_next (h p rfl).snapshot hjob

/-- **Every reachable job is a valid snapshot.** A job that events have made passes the check, and so
does whatever the next event makes of it: applying a mutation to a candidate of such jobs never fails
for the sake of the snapshot. -/
theorem snapshots_valid {limits : Value.Limits} {job : Job} (h : Grown limits job) :
    Codec.snapshot? job limits = .ok () ∧
    (∀ m nextOrder, transitionJob (some job) m nextOrder limits =
      admitJob (some job) m nextOrder limits) ∧
    ∀ (vm : Runtime) (c : Candidate) (m : Mutation), c.valueLimits = limits →
      (∀ p, c.jobs[m.jobId]? = some p → Grown limits p) →
      apply vm c m =
        admitJob c.jobs[m.jobId]? m c.nextAvailabilityOrder limits >>= fun job ↦
          Transition.putCandidate vm c c.jobs[m.jobId]? job >>= fun next ↦
            .ok (updateOrder next ((c.jobs[m.jobId]?).bind (·.availabilityOrder))
              job.availabilityOrder .mutation) := by
  refine ⟨h.snapshot, fun m nextOrder ↦ ?_, fun vm c m hlimits hgrown ↦ ?_⟩
  · refine transitionJob_grown fun p hp ↦ ?_
    cases hp
    exact h
  · rw [apply_eq, hlimits, transitionJob_grown hgrown]

end Reducer

namespace Sample

/-- A job that fails once and is tried again. -/
def history : List Mutation :=
  let definition : Definition := ⟨.map [], 1, 2, text "default", policy, none, 1000, text "worker"⟩
  [⟨7, 0, 1, 100, .inserted definition 100 (some 1)⟩,
    ⟨7, 1, 2, 110, .started 1 1⟩,
    ⟨7, 2, 3, 120, .finished 1 1 (some 2) (some 2) (some 1200) (some ⟨1, 1⟩)⟩,
    ⟨7, 3, 4, 130, .retried 0 130 2⟩]

/-- The version the history ends in. -/
def grow : Option Job → ℕ → List Mutation → Except Reason (Option Job)
  | job, _, [] => .ok job
  | job, order, m :: rest => do
    let next ← Reducer.admitJob job m order Value.defaults
    grow (some next) (Reducer.orderAfter order next.availabilityOrder) rest

theorem grown_of_grow {ms : List Mutation} :
    ∀ {previous : Option Job} {order : ℕ} {job : Job},
      (∀ p, previous = some p → Reducer.Grown Value.defaults p) →
      grow previous order ms = .ok (some job) → Reducer.Grown Value.defaults job := by
  induction ms with
  | nil =>
    intro previous order job hprevious h
    cases h
    exact hprevious job rfl
  | cons m ms ih =>
    intro previous order job hprevious h
    obtain ⟨next, hnext, hrest⟩ := bind_eq_ok.mp h
    refine ih (fun p hp ↦ ?_) hrest
    cases hp
    cases previous with
    | none => exact .inserted hnext
    | some p => exact .next (hprevious p rfl) hnext

end Sample

namespace Reducer

theorem snapshots_valid_retried : ∃ job, Grown Value.defaults job ∧ job.attempt = 1 ∧
    Codec.snapshot? job Value.defaults = .ok () := by
  have hgrow : ((Sample.grow none 1 Sample.history).toOption.join).any (·.attempt == 1) = true := by
    decide +kernel
  obtain ⟨job, hjob, hattempt⟩ := (Option.any_eq_true _ _).mp hgrow
  have hgrown : Grown Value.defaults job := by
    refine Sample.grown_of_grow (fun p hp ↦ ?_) (toOption_eq_some.mp (Option.join_eq_some_iff.mp hjob))
    cases hp
  exact ⟨job, hgrown, beq_iff_eq.mp hattempt, (snapshots_valid hgrown).1⟩

end Reducer

end Tay
