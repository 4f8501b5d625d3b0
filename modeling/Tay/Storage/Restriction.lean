import Tay.Storage.Restored

/-!
# One job and the whole candidate

`apply_one` seeds a candidate with the one job it is given and applies the mutation there; `apply` uses
the candidate it has. What they check of the mutation, of the previous version and of the next order is
the same, and so is the charge. They differ in the bytes they hold against the memory limit: the job's
own, or those of all that is retained.

The bytes of a candidate are those of its entries, so a job that fits among the others fits alone. For a
candidate whose account is too low for the job it stores, which no replay produces, `apply` may accept a
version that `apply_one` finds too large.
-/

open Foundation

namespace Tay

open V2

namespace Reducer

variable (vm : Runtime)

/-- The charged version both entry points compute before they look at the memory limit. -/
def version (previous : Option Job) (m : Mutation) (nextOrder : ℕ) (limits : CandidateLimits)
    (valueLimits : Value.Limits) : Except Reason Job := do
  let job ← transitionJob previous m nextOrder valueLimits
  Transition.charge vm job valueLimits limits

/-- The bytes retained once a version has taken the place of the last one. -/
def bytesAfter (c : Candidate) (previous : Option Job) (job : Job) : ℤ :=
  c.bytes - Transition.activeBytes previous + Transition.activeBytes (some job)

/-- The candidate with a version in the place of the last one. -/
def replaced (c : Candidate) (m : Mutation) (job : Job) : Candidate :=
  updateOrder { c with
      jobs := c.jobs.insert m.jobId job
      count := c.count - Transition.activeCount c.jobs[m.jobId]? + Transition.activeCount (some job)
      bytes := bytesAfter c c.jobs[m.jobId]? job }
    ((c.jobs[m.jobId]?).bind (·.availabilityOrder)) job.availabilityOrder .mutation

/-! ## Both entry points -/

theorem apply_version (c : Candidate) (m : Mutation) :
    apply vm c m =
      version vm c.jobs[m.jobId]? m c.nextAvailabilityOrder c.limits c.valueLimits >>= fun job ↦
        Memory.check c.limits (bytesAfter c c.jobs[m.jobId]? job) >>= fun _ ↦ .ok (replaced c m job) := by
  rw [apply_eq, version]
  cases hplain : transitionJob c.jobs[m.jobId]? m c.nextAvailabilityOrder c.valueLimits with
  | error e => rfl
  | ok plain =>
    have hid := transitionJob_id hplain
    simp only [ok_bind, Transition.putCandidate, bind_assoc]
    cases hcharge : Transition.charge vm plain c.valueLimits c.limits with
    | error e => rfl
    | ok job =>
      obtain ⟨base, -, hjob⟩ := bind_eq_ok.mp hcharge
      cases hjob
      simp only [ok_bind, pure_eq_ok, bytesAfter, replaced, Job.charged_id, hid]
      rfl

/-- A job alone holds its own bytes. -/
theorem bytesAfter_seed (previous : Option Job) (m : Mutation) (nextOrder : ℕ) (limits : CandidateLimits)
    (valueLimits : Value.Limits) (job : Job) :
    bytesAfter (seed previous m nextOrder limits valueLimits) previous job =
      Transition.activeBytes (some job) := by
  rw [bytesAfter]
  have hbytes : (seed previous m nextOrder limits valueLimits).bytes = Transition.activeBytes previous := by
    cases previous <;> rfl
  rw [hbytes]
  omega

theorem applyOne_version (previous : Option Job) (m : Mutation) (nextOrder : ℕ) (limits : CandidateLimits)
    (valueLimits : Value.Limits) :
    applyOne vm previous m nextOrder limits valueLimits =
      version vm previous m nextOrder limits valueLimits >>= fun job ↦
        Memory.check limits (Transition.activeBytes (some job)) >>= fun _ ↦
          .ok (job, orderAfter nextOrder job.availabilityOrder) := by
  have hseed : (seed previous m nextOrder limits valueLimits).jobs[m.jobId]? = previous := by
    cases previous with
    | none => simp [seed, candidate]
    | some p => simp [seed]
  have horder : (seed previous m nextOrder limits valueLimits).nextAvailabilityOrder = nextOrder := by
    cases previous <;> rfl
  have hlimits : (seed previous m nextOrder limits valueLimits).limits = limits := by
    cases previous <;> rfl
  have hvalues : (seed previous m nextOrder limits valueLimits).valueLimits = valueLimits := by
    cases previous <;> rfl
  rw [applyOne, apply_version, hseed, horder, hlimits, hvalues]
  cases version vm previous m nextOrder limits valueLimits with
  | error e => rfl
  | ok job =>
    rw [ok_bind, ok_bind, bytesAfter_seed]
    cases Memory.check limits (Transition.activeBytes (some job)) with
    | error e => rfl
    | ok u =>
      simp only [ok_bind, replaced, updateOrder, Std.ExtTreeMap.getElem?_insert_self, horder]
      rfl

/-! ## Accounts -/

theorem activeBytes_nonneg (job : Option Job) : 0 ≤ Transition.activeBytes job := by
  cases job with
  | none => exact le_refl 0
  | some j =>
    rw [Transition.activeBytes]
    split
    · rw [Transition.chargedBytes]
      split
      · exact Int.natCast_nonneg _
      · exact le_refl 0
    · exact le_refl 0

/-- The bytes of a stored job are among those of the candidate. -/
theorem activeBytes_le {c : Candidate} (h : Canonical.Weighed vm c) (id : JobId) :
    Transition.activeBytes c.jobs[id]? ≤ c.bytes := by
  have hschedules := Foundation.Table.total_nonneg (fun s ↦ (vm.scheduleBytes s : ℤ)) c.schedules
    fun s ↦ Int.natCast_nonneg _
  have hresults := Foundation.Table.total_nonneg (fun r ↦ (vm.resultBytes r : ℤ)) c.results
    fun r ↦ Int.natCast_nonneg _
  have hbytes := h.bytes
  cases hjob : c.jobs[id]? with
  | none =>
    have hjobs := Foundation.Table.total_nonneg Canonical.jobBytes c.jobs fun j ↦ activeBytes_nonneg (some j)
    show (0 : ℤ) ≤ c.bytes
    omega
  | some job =>
    have hle := Foundation.Table.le_total Canonical.jobBytes c.jobs (fun j ↦ activeBytes_nonneg (some j)) hjob
    show Canonical.jobBytes job ≤ c.bytes
    omega

/-! ## The restriction -/

/-- What a memory check lets through, it lets through unchanged; and it refuses for memory alone. -/
theorem checked_cases {α : Type} (limits : CandidateLimits) (bytes : ℤ) (x : α) :
    (bytes ≤ limits.maxBytes ∧ (Memory.check limits bytes >>= fun _ ↦ Except.ok x) = .ok x) ∨
      ((limits.maxBytes : ℤ) < bytes ∧
        ∃ e, e.memory = true ∧ (Memory.check limits bytes >>= fun _ ↦ Except.ok x) = .error e) := by
  rcases le_or_gt bytes limits.maxBytes with hle | hlt
  · rw [Canonical.check_of_bound hle]
    exact .inl ⟨hle, rfl⟩
  · rcases Memory.check_cases limits bytes with hok | ⟨e, he, hmemory⟩
    · exact absurd (Canonical.check_bound hok) (not_le.mpr hlt)
    · rw [he]
      exact .inr ⟨hlt, e, hmemory, rfl⟩

theorem checked_eq_ok {α : Type} {limits : CandidateLimits} {bytes : ℤ} {x y : α}
    (h : (Memory.check limits bytes >>= fun _ ↦ Except.ok x) = .ok y) : x = y ∧ bytes ≤ limits.maxBytes := by
  obtain ⟨u, hcheck, hxy⟩ := bind_eq_ok.mp h
  exact ⟨Except.ok.inj hxy, Canonical.check_bound hcheck⟩

theorem checked_eq_error {α : Type} {limits : CandidateLimits} {bytes : ℤ} {x : α} {e : Reason}
    (h : (Memory.check limits bytes >>= fun _ ↦ Except.ok x) = .error e) : e.memory = true := by
  rcases checked_cases limits bytes x with ⟨-, hok⟩ | ⟨-, e', hmemory, herror⟩
  · rw [hok] at h
    cases h
  · rw [herror] at h
    cases h
    exact hmemory

/-- `apply_one` restricts `apply` to the job of the mutation. A version that fits the memory limit on
its own and with everything else is accepted by both, which then give the same job and the same next
order; `apply` changes nothing else. A refusal for another reason than memory is the same. When the
candidate's bytes are those of its entries, `apply_one` accepts whatever `apply` does. -/
theorem applyOne_restricts (c : Candidate) (m : Mutation) :
    (∀ e : Reason, e.memory = false →
      (applyOne vm c.jobs[m.jobId]? m c.nextAvailabilityOrder c.limits c.valueLimits = .error e ↔
        apply vm c m = .error e)) ∧
    (∀ (job : Job) (order : ℕ),
      applyOne vm c.jobs[m.jobId]? m c.nextAvailabilityOrder c.limits c.valueLimits = .ok (job, order) →
        (∃ c', apply vm c m = .ok c' ∧ c'.jobs[m.jobId]? = some job ∧ c'.nextAvailabilityOrder = order) ∨
        ∃ e, apply vm c m = .error e ∧ e.memory = true ∧
          (c.limits.maxBytes : ℤ) < bytesAfter c c.jobs[m.jobId]? job) ∧
    (∀ c' : Candidate, apply vm c m = .ok c' →
      (∀ id : JobId, id ≠ m.jobId → c'.jobs[id]? = c.jobs[id]?) ∧
      c'.schedules = c.schedules ∧ c'.results = c.results ∧
      ((∃ job, c'.jobs[m.jobId]? = some job ∧
          applyOne vm c.jobs[m.jobId]? m c.nextAvailabilityOrder c.limits c.valueLimits =
            .ok (job, c'.nextAvailabilityOrder)) ∨
        c.bytes < Transition.activeBytes c.jobs[m.jobId]? ∧ ¬ Canonical.Weighed vm c)) := by
  rw [apply_version, applyOne_version]
  cases hversion : version vm c.jobs[m.jobId]? m c.nextAvailabilityOrder c.limits c.valueLimits with
  | error e' =>
    simp only [error_bind]
    refine ⟨?_, ?_, ?_⟩
    · intro e _
      constructor <;> intro h <;> cases h <;> rfl
    · intro job order h
      cases h
    · intro c' h
      cases h
  | ok job =>
    simp only [ok_bind]
    have hone : (replaced c m job).jobs[m.jobId]? = some job := Std.ExtTreeMap.getElem?_insert_self
    have hother : ∀ id : JobId, id ≠ m.jobId → (replaced c m job).jobs[id]? = c.jobs[id]? := by
      intro id hid
      exact (Foundation.Table.get_insert c.jobs m.jobId id job).trans (if_neg fun h ↦ hid h.symm)
    have hnext : (replaced c m job).nextAvailabilityOrder =
        orderAfter c.nextAvailabilityOrder job.availabilityOrder := rfl
    refine ⟨?_, ?_, ?_⟩
    · intro e he
      constructor
      · intro h
        rw [checked_eq_error h] at he
        cases he
      · intro h
        rw [checked_eq_error h] at he
        cases he
    · intro job' order h
      obtain ⟨heq, -⟩ := checked_eq_ok h
      cases heq
      rcases checked_cases c.limits (bytesAfter c c.jobs[m.jobId]? job) (replaced c m job) with
        ⟨-, hok⟩ | ⟨hlt, e, hmemory, herror⟩
      · exact .inl ⟨_, hok, hone, hnext⟩
      · exact .inr ⟨e, herror, hmemory, hlt⟩
    · intro c' h
      obtain ⟨rfl, hfit⟩ := checked_eq_ok h
      refine ⟨hother, rfl, rfl, ?_⟩
      rcases checked_cases c.limits (Transition.activeBytes (some job))
          (job, orderAfter c.nextAvailabilityOrder job.availabilityOrder) with ⟨-, hok⟩ | ⟨hlt, -⟩
      · exact .inl ⟨job, hone, hok⟩
      · -- What fits among the others does not fit alone: the account is below the job it stores.
        rw [bytesAfter] at hfit
        refine .inr ⟨by omega, fun hweighed ↦ ?_⟩
        have hle := activeBytes_le vm hweighed m.jobId
        omega

end Reducer

end Tay
