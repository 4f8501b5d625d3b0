import Tay.Storage.Compaction
import Tay.Storage.Credible

/-!
# Reconciling a publication

An offline compaction that loses the reply to the switch of CURRENT reopens the store and looks whether it
is the epoch it published: the same epoch id, the same CURRENT, and what a replay of it holds is what the
compaction planned to keep. The plan is made again from the source in memory, with the retention that the
publication records.

The publication records the retention of the *next* compactions. For a request that keeps no terminal job
that is one hour, so the plan that is made again keeps the jobs that ended within the last hour, which the
published epoch does not have.
-/

open Foundation

namespace Tay

open V2 Snapshot

namespace Writer

/-- What the publisher reports of a publication whose outcome is unknown. -/
structure Publication where
  epochId : ℕ
  current : Binary
  terminalRetention : Retention
  capturedAt : ℕ

/-- Why a store is not recognised as the outcome. -/
inductive Mismatch
  | store (reason : Reason)
  | oldCurrent
  | currentChanged
  | reconciledCandidateMismatch
  | scheduleMismatch
  | resultMismatch
  deriving DecidableEq, Repr

section

variable (vm : Runtime) (current : Manifest → Binary)

/-- The publication of an epoch: `current` is the content of CURRENT that selects a manifest. -/
def publication (q : Publisher.Request) (m : Manifest) : Publication where
  epochId := q.epochId
  current := current m
  terminalRetention := q.retention.persisted
  capturedAt := q.capturedAt

def Mismatch.of {α : Type} (x : Except Reason α) : Except Mismatch α :=
  match x with
  | .ok a => .ok a
  | .error e => .error (.store e)

/-- `verify_reconciled`, on the store as it was reopened. -/
def verifyReconciled (source : Candidate) (limits : CandidateLimits) (valueLimits : Value.Limits)
    (publication : Publication) (d : Directory) : Except Mismatch Reader.Recovered := do
  let recovered ← Mismatch.of (Reader.recover vm d (candidate limits valueLimits))
  check (recovered.epochId == publication.epochId) .oldCurrent
  check (current recovered.manifest == publication.current) .currentChanged
  let kept ← Mismatch.of (Snapshot.prepare source.jobs publication.terminalRetention publication.capturedAt)
  check (Snapshot.equivalent? kept.jobs recovered.candidate.jobs) .reconciledCandidateMismatch
  check (source.schedules == recovered.candidate.schedules) .scheduleMismatch
  check ((source.results.filter fun id _ ↦ (kept.jobs[id]?).isSome) == recovered.candidate.results) .resultMismatch
  return recovered

end

variable {vm : Runtime} {current : Manifest → Binary}

theorem Mismatch.of_eq_ok {α : Type} {x : Except Reason α} {a : α} : Mismatch.of x = .ok a ↔ x = .ok a := by
  cases x <;> simp [Mismatch.of]

/-- Everything a recognised store has been compared with. -/
theorem verifyReconciled_eq_ok {source : Candidate} {limits : CandidateLimits} {valueLimits : Value.Limits}
    {p : Publication} {d : Directory} {r : Reader.Recovered} :
    verifyReconciled vm current source limits valueLimits p d = .ok r ↔
      Reader.recover vm d (candidate limits valueLimits) = .ok r ∧ r.epochId = p.epochId ∧
        current r.manifest = p.current ∧
        ∃ kept, Snapshot.prepare source.jobs p.terminalRetention p.capturedAt = .ok kept ∧
          Snapshot.equivalent? kept.jobs r.candidate.jobs = true ∧
          source.schedules = r.candidate.schedules ∧
          (source.results.filter fun id _ ↦ (kept.jobs[id]?).isSome) = r.candidate.results := by
  simp only [verifyReconciled, bind_eq_ok, check_eq_ok, pure_eq_ok, beq_iff_eq, Mismatch.of_eq_ok, Except.ok.injEq]
  constructor
  · rintro ⟨r', hr, -, hepoch, -, hcurrent, kept, hkept, -, hjobs, -, hschedules, -, hresults, rfl⟩
    exact ⟨hr, hepoch, hcurrent, kept, hkept, hjobs, hschedules, hresults⟩
  · rintro ⟨hr, hepoch, hcurrent, kept, hkept, hjobs, hschedules, hresults⟩
    exact ⟨r, hr, (), hepoch, (), hcurrent, kept, hkept, (), hjobs, (), hschedules, (), hresults, rfl⟩

/-- A replayed epoch is the one its manifest names. -/
theorem recover_manifest {d : Directory} {c : Candidate} {r : Reader.Recovered}
    (h : Reader.recover vm d c = .ok r) : r.epochId = d.manifest.epochId ∧ r.manifest = d.manifest := by
  obtain ⟨s, -, rfl⟩ := (Reader.recover_spec vm h).scanned
  exact ⟨rfl, rfl⟩

/-! ## The plan that is made again -/

/-- The plan made again is the plan of the publication: the retention is recorded as it was asked for, or
every terminal job of the source has expired under the one that is recorded. -/
def Replanned (jobs : Table JobId Job) (retention : Retention) (capturedAt : ℕ) : Prop :=
  retention.persisted = retention ∨
    ∀ (id : JobId) (job : Job), jobs[id]? = some job → job.state.terminal = true →
      Retention.expired? job.terminalAt retention.persisted capturedAt = .ok true

/-- A retention that keeps no terminal job. -/
def Immediate (retention : Retention) : Prop := retention = .minutes 0 ∨ retention = .hours 0

theorem persisted_cases (retention : Retention) :
    retention.persisted = retention ∨ Immediate retention ∧ retention.persisted = .hours 1 := by
  match retention with
  | .infinity => exact .inl rfl
  | .minutes 0 => exact .inr ⟨.inl rfl, rfl⟩
  | .hours 0 => exact .inr ⟨.inr rfl, rfl⟩
  | .minutes (n + 1) => exact .inl rfl
  | .hours (n + 1) => exact .inl rfl

/-- Times that one retention accepts. -/
theorem expired?_times {t : Option ℕ} {retention : Retention} {now : ℕ} {b : Bool}
    (h : Retention.expired? t retention now = .ok b) : (t.any time? && time? now) = true := by
  simp only [Retention.expired?, bind_eq_ok, check_eq_ok] at h
  obtain ⟨-, -, -, htimes, -⟩ := h
  exact htimes

theorem expired?_immediate {t : Option ℕ} {retention : Retention} {now : ℕ} (h : Immediate retention)
    (htimes : (t.any time? && time? now) = true) : Retention.expired? t retention now = .ok true := by
  rcases h with rfl | rfl <;> rw [Retention.expired?, htimes] <;> rfl

theorem classify_terminal {job : Job} {retention : Retention} {now : ℕ} (hfinite : retention ≠ .infinity)
    (hterminal : job.state.terminal = true) {b : Bool}
    (h : Retention.expired? job.terminalAt retention now = .ok b) :
    classify job retention now = .ok (if b then .expire else .retain) := by
  cases retention with
  | infinity => exact absurd rfl hfinite
  | minutes n | hours n => simp only [classify, hterminal, if_true, h, ok_bind]; rfl

theorem classify_live {job : Job} {retention retention' : Retention} {now : ℕ}
    (hterminal : job.state.terminal = false) (hvalid : Retention.validate retention' = true)
    (hnow : time? now = true) {v : Verdict} (h : classify job retention now = .ok v) :
    classify job retention' now = .ok v := by
  have hretain : ∀ {r : Retention} {w : Verdict}, classify job r now = .ok w → w = .retain := by
    intro r w hw
    cases r with
    | infinity =>
      cases hw
      rfl
    | minutes n | hours n =>
      simp only [classify, hterminal, Bool.false_eq_true, if_false, bind_eq_ok, pure_eq_ok, Except.ok.injEq] at hw
      obtain ⟨-, -, -, -, hw⟩ := hw
      exact hw.symm
  rw [hretain h]
  cases retention' with
  | infinity => rfl
  | minutes n | hours n =>
    simp only [classify, hterminal, Bool.false_eq_true, if_false, hvalid, hnow, check_true, ok_bind]
    rfl

theorem prepare_eq_ok {jobs : Table JobId Job} {retention : Retention} {capturedAt : ℕ} {kept : Kept} :
    prepare jobs retention capturedAt = .ok kept ↔
      ∃ plan, Retention.validate retention = true ∧ time? capturedAt = true ∧ validateSource jobs = .ok () ∧
        fold (keepStep retention capturedAt) ⟨∅, 0, 0⟩ jobs.toList = .ok plan ∧
        kept = { plan with jobs := normalizeAvailability plan.jobs } := by
  simp only [prepare, retained, bind_eq_ok, check_eq_ok, pure_eq_ok, Except.ok.injEq]
  constructor
  · rintro ⟨plan, ⟨-, hvalid, -, hnow, u, hsource, hplan⟩, hkept⟩
    exact ⟨plan, hvalid, hnow, hsource, hplan, hkept.symm⟩
  · rintro ⟨plan, hvalid, hnow, hsource, hplan, hkept⟩
    exact ⟨plan, ⟨(), hvalid, (), hnow, (), hsource, hplan⟩, hkept.symm⟩

/-- A request that keeps no terminal job, over a source whose terminal jobs have all been over for an hour:
the recorded retention makes the same plan. -/
theorem prepare_replanned {jobs : Table JobId Job} {retention : Retention} {capturedAt : ℕ} {kept : Kept}
    (hreplanned : Replanned jobs retention capturedAt) (h : prepare jobs retention capturedAt = .ok kept) :
    prepare jobs retention.persisted capturedAt = .ok kept := by
  rcases persisted_cases retention with hsame | ⟨himmediate, hhour⟩
  · rw [hsame]
    exact h
  obtain ⟨plan, -, hnow, hsource, hplan, hkept⟩ := prepare_eq_ok.mp h
  have hvalid : Retention.validate retention.persisted = true := by
    rw [hhour]
    decide
  refine prepare_eq_ok.mpr ⟨plan, hvalid, hnow, hsource, fold_mono ?_ hplan, hkept⟩
  rintro ⟨id, job⟩ hmem k k' hstep
  have hjob := Std.ExtTreeMap.mem_toList_iff_getElem?_eq_some.mp hmem
  obtain ⟨verdict, hverdict, hrest⟩ := bind_eq_ok.mp hstep
  refine bind_eq_ok.mpr ⟨verdict, ?_, hrest⟩
  cases hterminal : job.state.terminal with
  | false => exact classify_live hterminal hvalid hnow hverdict
  | true =>
    rcases hreplanned with hsame | hall
    · rw [hsame]
      exact hverdict
    · have hexpired := hall id job hjob hterminal
      have hnow := expired?_immediate himmediate (expired?_times hexpired)
      have hfinite : retention ≠ .infinity := by
        rcases himmediate with rfl | rfl <;> intro heq <;> cases heq
      have hfirst := classify_terminal hfinite hterminal hnow
      rw [hfirst] at hverdict
      rw [classify_terminal (by rw [hhour]; intro heq; cases heq) hterminal hexpired]
      exact hverdict

/-- An expired job has a time before the cutoff. -/
theorem expired?_of_expire {job : Job} {retention : Retention} {now : ℕ}
    (h : classify job retention now = .ok .expire) : Retention.expired? job.terminalAt retention now = .ok true := by
  have hterminal := terminal_of_expire h
  cases retention with
  | infinity => cases h
  | minutes n | hours n =>
    simp only [classify, hterminal, if_true, bind_eq_ok, pure_eq_ok, Except.ok.injEq] at h
    obtain ⟨expired, hexpired, hverdict⟩ := h
    cases expired with
    | true => exact hexpired
    | false => cases hverdict

/-! ## Recognition -/

/-- What the publisher has checked of the epoch it publishes. -/
theorem publish_spec {q : Publisher.Request} {d : Directory} {r : Reader.Recovered} {p : Publisher.Published}
    (hr : Reader.recover vm d (candidate q.limits q.valueLimits) = .ok r) (hp : Publisher.publish vm q d = .ok p) :
    p.directory.manifest.epochId = q.epochId ∧
      Reader.recover vm p.directory (candidate q.limits q.valueLimits) = .ok p.recovered ∧
      ∃ kept, prepare r.candidate.jobs q.retention q.capturedAt = .ok kept ∧
        equivalent? kept.jobs p.recovered.candidate.jobs = true ∧
        r.candidate.schedules = p.recovered.candidate.schedules ∧
        (r.candidate.results.filter fun id _ ↦ (kept.jobs[id]?).isSome) = p.recovered.candidate.results := by
  simp only [Publisher.publish, hr, ok_bind, bind_eq_ok, pure_eq_ok] at hp
  obtain ⟨kept, hkept, -, -, built, hbuilt, recovered, hrecovered, -, -, hp⟩ := hp
  cases hp
  obtain ⟨tailFirst, hmanifest, -, hbuilt', hequivalent, hschedules, hresults⟩ :=
    Publisher.buildCandidate_spec vm hbuilt
  have hepoch : built.manifest.epochId = q.epochId := by
    rw [hmanifest]
    rfl
  rw [hbuilt'] at hrecovered
  cases hrecovered
  exact ⟨hepoch, hbuilt', kept, hkept, hequivalent, hschedules.symm, hresults.symm⟩

/-- A terminal job of a source that was compacted with no retention is not in the published epoch. -/
theorem dropped_of_immediate {q : Publisher.Request} {d : Directory} {r : Reader.Recovered} {p : Publisher.Published}
    (hr : Reader.recover vm d (candidate q.limits q.valueLimits) = .ok r) (hp : Publisher.publish vm q d = .ok p)
    (himmediate : Immediate q.retention) {id : JobId} {job : Job} (hjob : r.candidate.jobs[id]? = some job)
    (hterminal : job.state.terminal = true) : p.recovered.candidate.jobs[id]? = none := by
  obtain ⟨-, -, kept, hkept, -⟩ := publish_spec hr hp
  obtain ⟨plan, -, hnow, hsource, hplan, -⟩ := prepare_eq_ok.mp hkept
  have hmem : (id, job) ∈ r.candidate.jobs.toList := Std.ExtTreeMap.mem_toList_iff_getElem?_eq_some.mpr hjob
  obtain ⟨orders, horders, -⟩ := bind_eq_ok.mp hsource
  obtain ⟨a, b, hvalid⟩ := fold_forall horders _ hmem
  simp only [Snapshot.validateJob, bind_eq_ok] at hvalid
  obtain ⟨-, -, -, -, u, hsnapshot, -⟩ := hvalid
  have hshape := (Codec.snapshot?_iff.mp hsnapshot).2.terminal
  have htime : job.terminalAt.any time? = true := by
    cases hstate : job.state with
    | completed | cancelled | discarded =>
      simp only [Codec.terminalFields?, hstate, Bool.and_eq_true] at hshape
      exact hshape.1
    | scheduled | available | executing | retryable =>
      rw [hstate] at hterminal
      cases hterminal
  have htimes : (job.terminalAt.any time? && time? q.capturedAt) = true := by
    rw [htime, hnow]
    rfl
  have hexpired := expired?_immediate himmediate htimes
  have hfinite : q.retention ≠ .infinity := by
    rcases himmediate with heq | heq <;> rw [heq] <;> intro h <;> cases h
  have hexpire := classify_terminal hfinite hterminal hexpired
  exact (Publisher.publish_preserves vm hr hp).2.dropped id ⟨job, hjob, hexpire⟩

/-- A recognised store: the plan made again keeps no job that the published epoch does not have. -/
theorem replanned_of_recognised {q : Publisher.Request} {d : Directory} {r x : Reader.Recovered}
    {p : Publisher.Published} (hr : Reader.recover vm d (candidate q.limits q.valueLimits) = .ok r)
    (hp : Publisher.publish vm q d = .ok p)
    (hx : verifyReconciled vm current r.candidate q.limits q.valueLimits
      (publication current q p.directory.manifest) p.directory = .ok x) :
    Replanned r.candidate.jobs q.retention q.capturedAt := by
  obtain ⟨-, hrecovered, -⟩ := publish_spec hr hp
  obtain ⟨hx, -, -, again, hagain, hsame, -⟩ := verifyReconciled_eq_ok.mp hx
  rw [hrecovered] at hx
  cases hx
  rcases persisted_cases q.retention with hpersisted | ⟨himmediate, -⟩
  · exact .inl hpersisted
  · refine .inr fun id job hjob hterminal ↦ ?_
    obtain ⟨plan, hplan, hagain⟩ := bind_eq_ok.mp hagain
    cases hagain
    obtain ⟨-, -, hkeep⟩ := retained_spec hplan
    by_contra hlives
    have hkept := hkeep id fun ⟨j, hj, hexpire⟩ ↦ by
      rw [hjob] at hj
      cases hj
      exact hlives (expired?_of_expire hexpire)
    have hgone := dropped_of_immediate hr hp himmediate hjob hterminal
    have hat := unnumbered_of_durable_eq (Publisher.equivalent_spec hsame).2.2 id
    rw [normalize_unnumbered, hkept, hjob, hgone] at hat
    cases hat

/-- **Reconciliation.** The reopened store is recognised as the outcome of the compaction exactly if the
plan that is made again is the plan of the publication. An epoch that another compaction has published,
under the id it drew, is never recognised. -/
theorem reconcile_recognises {q : Publisher.Request} {d : Directory} {r : Reader.Recovered}
    {p : Publisher.Published} (current : Manifest → Binary)
    (hr : Reader.recover vm d (candidate q.limits q.valueLimits) = .ok r) (hp : Publisher.publish vm q d = .ok p) :
    ((∃ x, verifyReconciled vm current r.candidate q.limits q.valueLimits
        (publication current q p.directory.manifest) p.directory = .ok x) ↔
      Replanned r.candidate.jobs q.retention q.capturedAt) ∧
    ∀ (q' : Publisher.Request) (d' : Directory) (p' : Publisher.Published),
      Publisher.publish vm q' d' = .ok p' → q'.epochId ≠ q.epochId →
        ∀ x, verifyReconciled vm current r.candidate q.limits q.valueLimits
          (publication current q p.directory.manifest) p'.directory ≠ .ok x := by
  obtain ⟨hepoch, hrecovered, kept, hkept, hjobs, hschedules, hresults⟩ := publish_spec hr hp
  refine ⟨⟨?_, ?_⟩, ?_⟩
  · rintro ⟨x, hx⟩
    exact replanned_of_recognised hr hp hx
  · intro hreplanned
    obtain ⟨hepoch', hmanifest⟩ := recover_manifest hrecovered
    exact ⟨p.recovered, verifyReconciled_eq_ok.mpr ⟨hrecovered, hepoch'.trans hepoch, congrArg current hmanifest,
      kept, prepare_replanned hreplanned hkept, hjobs, hschedules, hresults⟩⟩
  · intro q' d' p' hp' hne x hx
    obtain ⟨hx, hepoch', -⟩ := verifyReconciled_eq_ok.mp hx
    obtain ⟨r', hr'⟩ : ∃ r', Reader.recover vm d' (candidate q'.limits q'.valueLimits) = .ok r' := by
      simp only [Publisher.publish, bind_eq_ok] at hp'
      obtain ⟨r', hr', -⟩ := hp'
      exact ⟨r', hr'⟩
    obtain ⟨hother, -⟩ := publish_spec hr' hp'
    rw [(recover_manifest hx).1, hother] at hepoch'
    exact hne hepoch'

namespace Sample

open Tay.Sample

/-- A store of one job, which completed at 14. -/
def ended : Directory :=
  ⟨Tay.Sample.manifest 0, [⟨1, 1, Publisher.Sample.framed 1
    [.mutation ⟨2, 0, 1, 11, .inserted definition 11 (some 1)⟩, .mutation ⟨2, 1, 2, 13, .started 1 1⟩,
      .mutation ⟨2, 2, 3, 14, .finished 0 0 (some 2) none none none⟩], true⟩, ⟨2, 4, [], false⟩]⟩

/-- Keep everything. -/
def keeping : Publisher.Request := { Publisher.Sample.request with retention := .infinity }

end Sample

/-- The job is dropped, the epoch is published, and it is not recognised. -/
theorem reconcile_immediate :
    ∃ r p, Reader.recover Tay.Sample.runtime Sample.ended Tay.Sample.fresh = .ok r ∧
      Publisher.publish Tay.Sample.runtime Publisher.Sample.request Sample.ended = .ok p ∧
      ∀ x, verifyReconciled Tay.Sample.runtime (fun _ ↦ []) r.candidate Publisher.Sample.request.limits
        Publisher.Sample.request.valueLimits
        (publication (fun _ ↦ []) Publisher.Sample.request p.directory.manifest) p.directory ≠ .ok x := by
  obtain ⟨p, hp⟩ : ∃ p, Publisher.publish Tay.Sample.runtime Publisher.Sample.request Sample.ended = .ok p :=
    exists_ok (by decide +kernel)
  have hlives : ((Reader.recover Tay.Sample.runtime Sample.ended Tay.Sample.fresh).toOption.any fun r ↦
      (r.candidate.jobs[2]?).any fun job ↦ job.state.terminal &&
        (Retention.expired? job.terminalAt (.hours 1) 100).toOption == some false) = true := by decide +kernel
  obtain ⟨r, hr, hlives⟩ := (Option.any_eq_true _ _).mp hlives
  obtain ⟨job, hjob, hlives⟩ := (Option.any_eq_true _ _).mp hlives
  rw [toOption_eq_some] at hr
  rw [Bool.and_eq_true, beq_iff_eq, toOption_eq_some] at hlives
  refine ⟨r, p, hr, hp, fun x hx ↦ ?_⟩
  rcases replanned_of_recognised (q := Publisher.Sample.request) hr hp hx with hpersisted | hall
  · cases hpersisted
  · have hexpired := hall 2 job hjob hlives.1
    rw [show Publisher.Sample.request.retention.persisted = .hours 1 from rfl,
      show Publisher.Sample.request.capturedAt = 100 from rfl, hlives.2] at hexpired
    cases hexpired

/-- The same store, compacted to keep everything. -/
theorem reconcile_kept :
    ∃ r p x, Reader.recover Tay.Sample.runtime Sample.ended Tay.Sample.fresh = .ok r ∧
      Publisher.publish Tay.Sample.runtime Sample.keeping Sample.ended = .ok p ∧
      verifyReconciled Tay.Sample.runtime (fun _ ↦ []) r.candidate Sample.keeping.limits Sample.keeping.valueLimits
        (publication (fun _ ↦ []) Sample.keeping p.directory.manifest) p.directory = .ok x := by
  obtain ⟨r, hr⟩ : ∃ r, Reader.recover Tay.Sample.runtime Sample.ended Tay.Sample.fresh = .ok r :=
    exists_ok (by decide +kernel)
  obtain ⟨p, hp⟩ : ∃ p, Publisher.publish Tay.Sample.runtime Sample.keeping Sample.ended = .ok p :=
    exists_ok (by decide +kernel)
  obtain ⟨x, hx⟩ := (reconcile_recognises (q := Sample.keeping) (fun _ ↦ []) hr hp).1.mpr (.inl rfl)
  exact ⟨r, p, x, hr, hp, hx⟩

end Writer

end Tay
