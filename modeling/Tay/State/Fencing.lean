import Tay.State.Transition

/-!
# Fencing

What the lifecycle promises over a whole history of one job. Events are offered one after another,
each with the position it would take in the log; those that pass `prepare` and `apply` make a new
version of the job, the others change nothing. A start takes its own position as its execution
token, so a settlement is fenced: it must name the token of the execution that is still open, and
once one has been accepted no other ever will be.
-/

open Foundation

namespace Tay

open V2

/-! ## Histories -/

/-- A start. -/
def V2.JobBody.isStarted : JobBody → Bool
  | .started .. => true
  | _ => false

/-- A finish or a cancellation that names this execution token. -/
def V2.JobBody.settles (token : ℕ) : JobBody → Bool
  | .finished _ _ executionToken _ _ _ => executionToken == some token
  | .cancelled executionToken => executionToken == some token
  | _ => false

namespace Transition

/-- `prepare`, then `apply` at a position. -/
def accept (previous : Option Job) (e : JobEvent) (limits : Value.Limits) (sequence : ℕ) :
    Except Reason Job := do
  let prepared ← prepare previous e limits
  apply prepared sequence

/-- An accepted event and the version of the job it made. -/
structure Version where
  event : JobEvent
  job : Job

/-- The accepted events of one job, the latest first. -/
abbrev History := List Version

def History.current (h : History) : Option Job := h.head?.map Version.job

/-- Offer an event at a position. A rejected event leaves the history as it is. -/
def offer (limits : Value.Limits) (h : History) (o : JobEvent × ℕ) : History :=
  match accept h.current o.1 limits o.2 with
  | .ok job => ⟨o.1, job⟩ :: h
  | .error _ => h

/-- The history that a sequence of offers leaves, from before the insertion on. -/
def history (limits : Value.Limits) (offers : List (JobEvent × ℕ)) : History :=
  offers.foldl (offer limits) []

/-! ## One accepted event -/

/-- Everything an accepted event implies. -/
structure AcceptedSpec (previous : Option Job) (e : JobEvent) (sequence : ℕ) (job : Job) :
    Prop where
  valid : validateJob e = true
  later : e.expectedRevision < sequence
  revision : job.revision = sequence
  version : (previous = none ∧ ∃ definition eligibleAt bytes,
      e.body = .inserted definition eligibleAt ∧
        job = { inserted e definition eligibleAt bytes sequence with revision := sequence }) ∨
    ∃ p, previous = some p ∧ p.revision = e.expectedRevision ∧ validTransition? p e = true ∧
      job = { next p e sequence with revision := sequence }

theorem accept_spec {previous : Option Job} {e : JobEvent} {limits : Value.Limits} {sequence : ℕ}
    {job : Job} (h : accept previous e limits sequence = .ok job) :
    AcceptedSpec previous e sequence job := by
  simp only [accept, prepare, JobEvent.encode, bind_eq_ok, check_eq_ok, pure_eq_ok] at h
  obtain ⟨q, ⟨-, ⟨-, -, -, hvalid, -⟩, -, hprevious, bytes, -, hq⟩, h⟩ := h
  cases hq
  simp only [apply, check_bind_eq_ok, Bool.and_eq_true, decide_eq_true_eq] at h
  obtain ⟨⟨-, hlater⟩, h⟩ := h
  cases previous with
  | none =>
    cases hbody : e.body with
    | inserted definition eligibleAt =>
      rw [hbody] at h
      cases h
      exact ⟨hvalid, hlater, rfl, .inl ⟨rfl, definition, eligibleAt, bytes, hbody, rfl⟩⟩
    | available | started | finished | cancelled | retried =>
      rw [hbody] at h
      cases h
  | some p =>
    cases h
    have hmatch : p.revision = e.expectedRevision ∧ validTransition? p e = true := by
      unfold validPrevious? at hprevious
      cases hbody : e.body with
      | inserted => simp [hbody] at hprevious
      | available | started | finished | cancelled | retried =>
        simp only [hbody, Bool.and_eq_true, beq_iff_eq] at hprevious
        exact ⟨hprevious.1.2, hprevious.2⟩
    exact ⟨hvalid, hlater, rfl, .inr ⟨p, rfl, hmatch.1, hmatch.2, rfl⟩⟩

/-- A new version has a higher revision than the one before it. -/
theorem AcceptedSpec.revision_lt {p job : Job} {e : JobEvent} {sequence : ℕ}
    (h : AcceptedSpec (some p) e sequence job) : p.revision < job.revision := by
  rcases h.version with ⟨hnone, -⟩ | ⟨q, hq, hrevision, -⟩
  · cases hnone
  · cases hq
    rw [h.revision, hrevision]
    exact h.later

/-- A start opens an execution under the revision it creates. -/
theorem AcceptedSpec.started {previous : Option Job} {job : Job} {e : JobEvent} {sequence : ℕ}
    (h : AcceptedSpec previous e sequence job) (hstart : e.body.isStarted = true) :
    job.state = .executing ∧ job.execution = some job.revision := by
  rcases h.version with ⟨-, definition, eligibleAt, bytes, hbody, -⟩ | ⟨p, -, -, -, rfl⟩
  · rw [hbody] at hstart
    cases hstart
  · cases hbody : e.body with
    | started attempt cycleToken => simp [next, hbody]
    | inserted | available | finished | cancelled | retried =>
      rw [hbody] at hstart
      cases hstart

/-- A settlement names the execution that is open, and closes it. -/
theorem AcceptedSpec.settled {previous : Option Job} {job : Job} {e : JobEvent} {sequence token : ℕ}
    (h : AcceptedSpec previous e sequence job) (hsettles : e.body.settles token = true) :
    ∃ p, previous = some p ∧ p.execution = some token ∧ job.execution = none := by
  rcases h.version with ⟨-, definition, eligibleAt, bytes, hbody, -⟩ | ⟨p, hp, -, hvalid, rfl⟩
  · rw [hbody] at hsettles
    cases hsettles
  · refine ⟨p, hp, ?_⟩
    cases hbody : e.body with
    | finished diagnostic disposition executionToken nextAttempt nextDueAt outcome =>
      simp only [hbody, JobBody.settles, beq_iff_eq] at hsettles
      simp only [validTransition?, hbody, Bool.and_eq_true, beq_iff_eq] at hvalid
      exact ⟨hvalid.1.2.trans hsettles, by simp [next, hbody]⟩
    | cancelled executionToken =>
      simp only [hbody, JobBody.settles, beq_iff_eq] at hsettles
      simp only [validTransition?, hbody, Bool.and_eq_true, beq_iff_eq] at hvalid
      -- Only an executing job is cancelled under a token.
      have htoken := hvalid.2
      rw [hsettles] at htoken
      split at htoken
      · exact ⟨htoken.symm, by simp [next, hbody]⟩
      · cases htoken
    | inserted | available | started | retried =>
      rw [hbody] at hsettles
      cases hsettles

/-- Executing and having an open execution are the same thing. -/
def Consistent (job : Job) : Prop := job.execution.isSome = true ↔ job.state = .executing

/-- An event other than a start leaves no execution open. -/
theorem AcceptedSpec.closed {previous : Option Job} {job : Job} {e : JobEvent} {sequence : ℕ}
    (h : AcceptedSpec previous e sequence job) (hprevious : ∀ p ∈ previous, Consistent p)
    (hstart : e.body.isStarted = false) : job.execution = none ∧ job.state ≠ .executing := by
  rcases h.version with ⟨-, definition, eligibleAt, bytes, hbody, rfl⟩ | ⟨p, hp, -, hvalid, rfl⟩
  · refine ⟨rfl, ?_⟩
    simp only [inserted]
    split <;> simp
  · cases hbody : e.body with
    | inserted => simp [validTransition?, hbody] at hvalid
    | available dueAt =>
      -- The job was waiting, so it had no open execution to carry over.
      simp only [validTransition?, hbody, Bool.and_eq_true, Bool.or_eq_true, beq_iff_eq] at hvalid
      have hidle : p.state ≠ .executing := by
        rcases hvalid.1 with h | h <;> simp [h]
      have hnone : p.execution.isSome = false := by
        simpa using mt (hprevious p hp).mp hidle
      simpa [next, hbody] using hnone
    | started => simp [hbody, JobBody.isStarted] at hstart
    | finished diagnostic disposition executionToken nextAttempt nextDueAt outcome =>
      refine ⟨by simp [next, hbody], ?_⟩
      simp only [next, hbody]
      split
      · simp
      · split <;> simp
    | cancelled => simp [next, hbody]
    | retried => simp [next, hbody]

theorem AcceptedSpec.consistent {previous : Option Job} {job : Job} {e : JobEvent} {sequence : ℕ}
    (h : AcceptedSpec previous e sequence job) (hprevious : ∀ p ∈ previous, Consistent p) :
    Consistent job := by
  unfold Consistent
  by_cases hstart : e.body.isStarted = true
  · obtain ⟨hstate, hexecution⟩ := h.started hstart
    simp [hstate, hexecution]
  · obtain ⟨hexecution, hstate⟩ := h.closed hprevious (by simpa using hstart)
    simp [hstate, hexecution]

/-- An accepted event keeps the attempt counter within the definition's bound. -/
theorem AcceptedSpec.attempt_le {previous : Option Job} {job : Job} {e : JobEvent} {sequence : ℕ}
    (h : AcceptedSpec previous e sequence job)
    (hprevious : ∀ p ∈ previous, p.attempt ≤ p.definition.maxAttempts) :
    job.attempt ≤ job.definition.maxAttempts := by
  rcases h.version with ⟨-, definition, eligibleAt, bytes, hbody, rfl⟩ | ⟨p, hp, -, hvalid, rfl⟩
  · exact Nat.zero_le _
  · have hle := hprevious p hp
    cases hbody : e.body with
    | started attempt cycleToken =>
      simp only [validTransition?, hbody, Bool.and_eq_true, decide_eq_true_eq] at hvalid
      simpa [next, hbody] using hvalid.1.1.2
    | retried mode newDueAt =>
      -- A retry of a discarded job starts a cycle with the counter back at zero.
      simp only [next, hbody]
      split
      · exact Nat.zero_le _
      · exact hle
    | inserted | available | finished | cancelled => simpa [next, hbody] using hle

/-- In a terminal state only a retry of a discarded job is accepted. -/
theorem AcceptedSpec.terminal {p job : Job} {e : JobEvent} {sequence : ℕ}
    (h : AcceptedSpec (some p) e sequence job) (hterminal : p.state.terminal = true) :
    p.state = .discarded ∧ ∃ newDueAt, e.body = .retried 1 newDueAt := by
  rcases h.version with ⟨hnone, -⟩ | ⟨q, hq, -, hvalid, -⟩
  · cases hnone
  · cases hq
    cases hstate : p.state with
    | scheduled | available | executing | retryable => simp [hstate, JobState.terminal] at hterminal
    | completed | cancelled | discarded =>
      cases hbody : e.body with
      | inserted | available | started | finished | cancelled =>
        simp [validTransition?, hbody, hstate] at hvalid
      | retried mode newDueAt => simp_all [validTransition?]

/-! ## Whole histories -/

/-- The invariant of a history: every version was accepted on top of the one before it. -/
def Accepted (limits : Value.Limits) : History → Prop
  | [] => True
  | v :: h => accept (History.current h) v.event limits v.job.revision = .ok v.job ∧
      Accepted limits h

theorem offer_accepted {limits : Value.Limits} {h : History} (hh : Accepted limits h)
    (o : JobEvent × ℕ) : Accepted limits (offer limits h o) := by
  unfold offer
  split
  case h_1 job hjob =>
    have hrevision := (accept_spec hjob).revision
    exact ⟨hrevision ▸ hjob, hh⟩
  case h_2 => exact hh

theorem history_accepted (limits : Value.Limits) (offers : List (JobEvent × ℕ)) :
    Accepted limits (history limits offers) := by
  have hfold : ∀ (offers : List (JobEvent × ℕ)) (h : History), Accepted limits h →
      Accepted limits (offers.foldl (offer limits) h) := by
    intro offers
    induction offers with
    | nil => exact fun h hh ↦ hh
    | cons o offers ih => exact fun h hh ↦ ih _ (offer_accepted hh o)
  exact hfold offers [] trivial

/-- The latest version is newer than every other. -/
theorem Accepted.revision_lt_head {limits : Value.Limits} {v : Version} {h : History}
    (hh : Accepted limits (v :: h)) : ∀ w ∈ h, w.job.revision < v.job.revision := by
  induction h generalizing v with
  | nil => simp
  | cons u h ih =>
    intro w hw
    have hlt : u.job.revision < v.job.revision := (accept_spec hh.1).revision_lt
    rcases List.mem_cons.mp hw with rfl | hw
    · exact hlt
    · exact (ih hh.2 w hw).trans hlt

theorem Accepted.consistent {limits : Value.Limits} {h : History} (hh : Accepted limits h) :
    ∀ p ∈ h.current, Consistent p := by
  induction h with
  | nil => simp [History.current]
  | cons v h ih =>
    intro p hp
    cases hp
    exact (accept_spec hh.1).consistent (ih hh.2)

theorem Accepted.revisions {limits : Value.Limits} {h : History} (hh : Accepted limits h) :
    h.Pairwise fun later earlier ↦ earlier.job.revision < later.job.revision := by
  induction h with
  | nil => exact .nil
  | cons v h ih => exact .cons hh.revision_lt_head (ih hh.2)

theorem Accepted.token {limits : Value.Limits} {h : History} (hh : Accepted limits h) :
    ∀ v ∈ h, v.event.body.isStarted = true → v.job.execution = some v.job.revision := by
  induction h with
  | nil => simp
  | cons v h ih =>
    intro w hw hstart
    rcases List.mem_cons.mp hw with rfl | hw
    · exact ((accept_spec hh.1).started hstart).2
    · exact ih hh.2 w hw hstart

theorem Accepted.attempts {limits : Value.Limits} {h : History} (hh : Accepted limits h) :
    ∀ v ∈ h, v.job.attempt ≤ v.job.definition.maxAttempts := by
  induction h with
  | nil => simp
  | cons v h ih =>
    intro w hw
    rcases List.mem_cons.mp hw with rfl | hw
    · refine (accept_spec hh.1).attempt_le ?_
      intro p hp
      obtain ⟨u, hu, rfl⟩ := Option.map_eq_some_iff.mp hp
      exact ih hh.2 u (List.mem_of_mem_head? hu)
    · exact ih hh.2 w hw

/-- The execution tokens of a history: which starts they come from, and that each settles once. -/
structure Tokens (h : History) : Prop where
  /-- The open execution was opened by a start. -/
  opened : ∀ p ∈ h.current, ∀ token, p.execution = some token →
    ∃ v ∈ h, v.event.body.isStarted = true ∧ v.job.revision = token
  /-- No settlement has named the open execution yet. -/
  unsettled : ∀ p ∈ h.current, ∀ token, p.execution = some token →
    ∀ v ∈ h, v.event.body.settles token = false
  /-- Every settlement names a start. -/
  owned : ∀ v ∈ h, ∀ token, v.event.body.settles token = true →
    ∃ s ∈ h, s.event.body.isStarted = true ∧ s.job.revision = token
  /-- No token is settled twice. -/
  once : ∀ token, h.countP (fun v ↦ v.event.body.settles token) ≤ 1

theorem Accepted.tokens {limits : Value.Limits} {h : History} (hh : Accepted limits h) :
    Tokens h := by
  induction h with
  | nil => constructor <;> simp [History.current]
  | cons v h ih =>
    have hspec := accept_spec hh.1
    have hrest := ih hh.2
    by_cases hstart : v.event.body.isStarted = true
    · -- A start is newer than every token in use, and settles nothing.
      obtain ⟨-, hexecution⟩ := hspec.started hstart
      have hidle : ∀ token, v.event.body.settles token = false := by
        intro token
        cases hbody : v.event.body with
        | started => rfl
        | inserted | available | finished | cancelled | retried =>
          rw [hbody] at hstart
          cases hstart
      have hfresh : ∀ w ∈ h, w.event.body.settles v.job.revision = false := by
        intro w hw
        by_contra hsettles
        obtain ⟨s, hs, -, hrevision⟩ := hrest.owned w hw v.job.revision (by simpa using hsettles)
        have hlt := hh.revision_lt_head s hs
        omega
      refine ⟨?_, ?_, ?_, ?_⟩
      · intro p hp token htoken
        cases hp
        rw [hexecution] at htoken
        exact ⟨v, List.mem_cons_self, hstart, Option.some.inj htoken⟩
      · intro p hp token htoken w hw
        cases hp
        rw [hexecution] at htoken
        obtain rfl := Option.some.inj htoken
        rcases List.mem_cons.mp hw with rfl | hw
        · exact hidle _
        · exact hfresh w hw
      · intro w hw token hsettles
        rcases List.mem_cons.mp hw with rfl | hw
        · simp [hidle] at hsettles
        · obtain ⟨s, hs, h1, h2⟩ := hrest.owned w hw token hsettles
          exact ⟨s, List.mem_cons_of_mem _ hs, h1, h2⟩
      · intro token
        rw [List.countP_cons_of_neg (by simp [hidle])]
        exact hrest.once token
    · obtain ⟨hexecution, -⟩ := hspec.closed hh.2.consistent (by simpa using hstart)
      refine ⟨?_, ?_, ?_, ?_⟩
      · intro p hp token htoken
        cases hp
        rw [hexecution] at htoken
        cases htoken
      · intro p hp token htoken
        cases hp
        rw [hexecution] at htoken
        cases htoken
      · intro w hw token hsettles
        rcases List.mem_cons.mp hw with rfl | hw
        · obtain ⟨p, hp, hopen, -⟩ := hspec.settled hsettles
          obtain ⟨s, hs, h1, h2⟩ := hrest.opened p hp token hopen
          exact ⟨s, List.mem_cons_of_mem _ hs, h1, h2⟩
        · obtain ⟨s, hs, h1, h2⟩ := hrest.owned w hw token hsettles
          exact ⟨s, List.mem_cons_of_mem _ hs, h1, h2⟩
      · intro token
        by_cases hsettles : v.event.body.settles token = true
        · -- The execution was open until now, so nothing has settled it before.
          obtain ⟨p, hp, hopen, -⟩ := hspec.settled hsettles
          have hnone : h.countP (fun w ↦ w.event.body.settles token) = 0 := by
            rw [List.countP_eq_zero]
            intro w hw
            simp [hrest.unsettled p hp token hopen w hw]
          rw [List.countP_cons_of_pos (by simpa using hsettles), hnone]
        · rw [List.countP_cons_of_neg (by simpa using hsettles)]
          exact hrest.once token

/-- A finish is accepted only under the revision and the token that are current. -/
theorem offer_finished_stale {limits : Value.Limits} {h : History} {e : JobEvent} {sequence : ℕ}
    {diagnostic : Option Diagnostic} {disposition outcome : ℕ}
    {executionToken nextAttempt nextDueAt : Option ℕ}
    (hbody : e.body =
      .finished diagnostic disposition executionToken nextAttempt nextDueAt outcome)
    (hstale : ∀ p ∈ h.current, e.expectedRevision ≠ p.revision ∨ executionToken ≠ p.execution) :
    offer limits h (e, sequence) = h := by
  unfold offer
  split
  case h_2 => rfl
  case h_1 job hjob =>
    rcases (accept_spec hjob).version with ⟨-, definition, eligibleAt, bytes, hinserted, -⟩ |
      ⟨p, hp, hrevision, hvalid, -⟩
    · rw [hbody] at hinserted
      cases hinserted
    · simp only [validTransition?, hbody, Bool.and_eq_true, beq_iff_eq] at hvalid
      rcases hstale p hp with hne | hne
      · exact absurd hrevision.symm hne
      · exact absurd hvalid.1.2.symm hne

/-- What fencing means for a history. -/
structure Fenced (limits : Value.Limits) (h : History) : Prop where
  /-- Every accepted event raises the revision. -/
  revisions : h.Pairwise fun later earlier ↦ earlier.job.revision < later.job.revision
  /-- The token of a start is the revision the start creates. -/
  token : ∀ v ∈ h, v.event.body.isStarted = true → v.job.execution = some v.job.revision
  /-- No two starts have the same token. -/
  reuse : h.Pairwise fun later earlier ↦ later.event.body.isStarted = true →
    earlier.event.body.isStarted = true → later.job.execution ≠ earlier.job.execution
  /-- A start is settled at most once. -/
  settled : ∀ later start earlier, h = later ++ start :: earlier →
    start.event.body.isStarted = true →
    later.countP (fun v ↦ v.event.body.settles start.job.revision) ≤ 1
  /-- Every settlement under a token names a start of this history. -/
  owned : ∀ v ∈ h, ∀ token, v.event.body.settles token = true →
    ∃ start ∈ h, start.event.body.isStarted = true ∧ start.job.revision = token
  /-- A finish under another revision or token than the current ones is rejected. -/
  stale : ∀ e sequence diagnostic disposition executionToken nextAttempt nextDueAt outcome,
    e.body = .finished diagnostic disposition executionToken nextAttempt nextDueAt outcome →
    (∀ p ∈ h.current, e.expectedRevision ≠ p.revision ∨ executionToken ≠ p.execution) →
    offer limits h (e, sequence) = h
  /-- The attempt counter stays within the definition's bound. -/
  attempts : ∀ v ∈ h, v.job.attempt ≤ v.job.definition.maxAttempts
  /-- A terminal job accepts nothing but the retry of a discarded one. -/
  terminal : ∀ p ∈ h.current, p.state.terminal = true → ∀ e sequence job,
    accept (some p) e limits sequence = .ok job →
    p.state = .discarded ∧ ∃ newDueAt, e.body = .retried 1 newDueAt

/-- **Execution fencing**, for every sequence of events offered to a job from its insertion on. -/
theorem execution_fencing (limits : Value.Limits) (offers : List (JobEvent × ℕ)) :
    Fenced limits (history limits offers) := by
  have hh := history_accepted limits offers
  generalize history limits offers = h at hh
  have hrevisions : h.Pairwise fun later earlier ↦ earlier.job.revision < later.job.revision :=
    hh.revisions
  have htoken := hh.token
  refine ⟨hrevisions, htoken, ?_, ?_, hh.tokens.owned, ?_, hh.attempts, ?_⟩
  · refine hrevisions.imp_of_mem ?_
    intro later earlier hlater hearlier hlt hstart hstart'
    rw [htoken _ hlater hstart, htoken _ hearlier hstart']
    simp only [ne_eq, Option.some.injEq]
    omega
  · rintro later start earlier rfl -
    have honce := hh.tokens.once start.job.revision
    rw [List.countP_append] at honce
    omega
  · intro e sequence diagnostic disposition executionToken nextAttempt nextDueAt outcome hbody
    exact offer_finished_stale hbody
  · intro p hp hterminal e sequence job hjob
    exact (accept_spec hjob).terminal hterminal

end Transition

end Tay
