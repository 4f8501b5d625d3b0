import Tay.Foundation.Total
import Tay.Storage.Restored

/-!
# The compaction estimate

`Tay.Engine.CompactionEstimate` keeps, beside the jobs, what a compaction would find: how many there are,
the bytes of their definitions, and the terminal jobs by the hour in which they ended. At most 128 hours
are kept. The newest is dropped when there is one more, and a job whose hour was dropped is removed from a
bucket that no longer counts it, or counts others of that hour.

So a bucket is a lower bound: it counts no more jobs than are tracked in its hour, and no more bytes than
they are bounded by. A job of the hour is among those tracked when it is removed, which keeps the bound
although the removal is subtracted from a bucket that may have forgotten the job.
-/

open Foundation

namespace Tay

open V2

/-- The terminal jobs of an hour. -/
structure Bucket where
  count : ℤ
  bytes : ℤ
  deriving DecidableEq, Repr

structure CompactionEstimate where
  jobs : ℕ
  definitionBytes : ℕ
  terminalJobs : ℤ
  terminalBytes : ℤ
  buckets : Table ℕ Bucket
  available : Bool
  deriving DecidableEq

/-- What `summarize` reports, less the ratio, which is a float. -/
structure EstimateSummary where
  sealedBytes : ℕ
  sealedSegments : ℕ
  candidateUpperBytes : ℤ
  reclaimableBytes : ℤ
  expiredTerminals : ℤ
  activeJobs : ℤ
  terminalJobs : ℤ
  deriving DecidableEq, Repr

namespace CompactionEstimate

def bucketMs : ℕ := 3600000

def maxBuckets : ℕ := 128

def new : CompactionEstimate := ⟨0, 0, 0, 0, ∅, true⟩

def jobBound (job : Job) : ℕ := job.definitionBytes.length + 512

/-- `Map.get(estimate.buckets, key, %{count: 0, bytes: 0})`. -/
def bucketAt (buckets : Table ℕ Bucket) (key : ℕ) : Bucket := (buckets[key]?).getD ⟨0, 0⟩

def putBucket (buckets : Table ℕ Bucket) (key : ℕ) (next : Bucket) : Table ℕ Bucket :=
  if next.count == 0 then buckets.erase key else buckets.insert key next

/-- Drop the newest hour when there are too many. -/
def evict (buckets : Table ℕ Bucket) : Table ℕ Bucket :=
  if maxBuckets < buckets.size then
    match buckets.maxKey? with
    | some key => buckets.erase key
    | none => buckets
  else buckets

def bucket (e : CompactionEstimate) (job : Job) (sign : ℤ) : CompactionEstimate :=
  if job.state.terminal then
    match job.terminalAt.filter time? with
    | some t =>
      let key := t / bucketMs
      let old := bucketAt e.buckets key
      { e with
        buckets := evict <| putBucket e.buckets key
          ⟨max 0 (old.count + sign), max 0 (old.bytes + sign * jobBound job)⟩
        terminalJobs := max 0 (e.terminalJobs + sign)
        terminalBytes := max 0 (e.terminalBytes + sign * jobBound job) }
    | none => { e with available := false }
  else e

def replace (e : CompactionEstimate) (previous : Option Job) (job : Job) : CompactionEstimate :=
  let e := match previous with
    | some p => bucket e p (-1)
    | none => e
  bucket { e with
    jobs := e.jobs + if previous.isSome then 0 else 1
    definitionBytes := e.definitionBytes + if previous.isSome then 0 else job.definitionBytes.length } job 1

/-- The buckets whose hour has passed, and what they count. -/
def passed (buckets : Table ℕ Bucket) (cutoff : ℤ) : ℤ × ℤ :=
  buckets.toList.foldl
    (fun acc x ↦ if ((x.1 + 1) * bucketMs - 1 : ℤ) ≤ cutoff then (acc.1 + x.2.count, acc.2 + x.2.bytes) else acc)
    (0, 0)

/-- The terminal jobs that are known to have expired, and their bound. -/
def expired (e : CompactionEstimate) (retention : Retention) (now : ℕ) : ℤ × ℤ :=
  match retention with
  | .infinity => (0, 0)
  | .minutes 0 | .hours 0 => (e.terminalJobs, e.terminalBytes)
  | .minutes n => passed e.buckets (now - (n * Retention.minuteMs : ℕ))
  | .hours n => passed e.buckets (now - (n * Retention.hourMs : ℕ))

def summarize (e : CompactionEstimate) (sealedBytes sealedSegments : ℕ) (retention : Retention) (now : ℕ) :
    Option EstimateSummary :=
  if e.available && Retention.validate retention && time? now then
    let found := expired e retention now
    let snapshotBound : ℤ := e.definitionBytes + e.jobs * 512 - found.2
    let candidateBound : ℤ := snapshotBound + 1048576 + (sealedSegments + e.jobs - found.1) * 256
    some
      { sealedBytes := sealedBytes
        sealedSegments := sealedSegments
        candidateUpperBytes := candidateBound
        reclaimableBytes := max 0 (sealedBytes - candidateBound)
        expiredTerminals := found.1
        activeJobs := max (e.jobs - e.terminalJobs) 0
        terminalJobs := e.terminalJobs }
  else none

/-! ## What is tracked -/

/-- The hour in which a job ended. -/
def hour (job : Job) : Option ℕ :=
  if job.state.terminal then (job.terminalAt.filter time?).map (· / bucketMs) else none

/-- A weight of the terminal jobs. -/
def ended (f : Job → ℤ) (job : Job) : ℤ := if job.state.terminal then f job else 0

/-- A weight of the jobs that ended in an hour. -/
def within (f : Job → ℤ) (key : ℕ) (job : Job) : ℤ := if hour job = some key then f job else 0

def one (_ : Job) : ℤ := 1

def bound (job : Job) : ℤ := jobBound job

/-- What the buckets say of the jobs: the totals are those of the terminal jobs, each of which has a valid
time, and a bucket is a lower bound for its hour. -/
structure Counts (e : CompactionEstimate) (jobs : Table JobId Job) : Prop where
  times : ∀ (id : JobId) (job : Job), jobs[id]? = some job → job.state.terminal = true →
    ∃ t, job.terminalAt = some t ∧ time? t = true
  count : e.terminalJobs = Table.total (ended one) jobs
  bytes : e.terminalBytes = Table.total (ended bound) jobs
  buckets : ∀ (key : ℕ) (b : Bucket), e.buckets[key]? = some b →
    b.count ≤ Table.total (within one key) jobs ∧ b.bytes ≤ Table.total (within bound key) jobs

theorem counts_new : Counts new ∅ := by
  refine ⟨?_, ?_, ?_, ?_⟩
  · intro id job hjob
    simp at hjob
  · exact (Table.total_empty _).symm
  · exact (Table.total_empty _).symm
  · intro key b hb
    simp [new] at hb

theorem ended_nonneg {f : Job → ℤ} (hf : ∀ job, 0 ≤ f job) (job : Job) : 0 ≤ ended f job := by
  rw [ended]
  split
  · exact hf job
  · exact le_refl 0

theorem within_nonneg {f : Job → ℤ} (hf : ∀ job, 0 ≤ f job) (key : ℕ) (job : Job) : 0 ≤ within f key job := by
  rw [within]
  split
  · exact hf job
  · exact le_refl 0

theorem one_nonneg (job : Job) : 0 ≤ one job := Int.one_nonneg

theorem bound_nonneg (job : Job) : 0 ≤ bound job := Int.natCast_nonneg _

/-! ## Buckets -/

theorem evict_get {buckets : Table ℕ Bucket} {key : ℕ} {b : Bucket} (h : (evict buckets)[key]? = some b) :
    buckets[key]? = some b := by
  rw [evict] at h
  split at h
  · split at h
    · rw [Foundation.Table.get_erase] at h
      split at h
      · cases h
      · exact h
    · exact h
  · exact h

theorem putBucket_get {buckets : Table ℕ Bucket} {key key' : ℕ} {next b : Bucket}
    (h : (putBucket buckets key next)[key']? = some b) :
    (key' = key ∧ b = next) ∨ (key' ≠ key ∧ buckets[key']? = some b) := by
  rw [putBucket] at h
  split at h
  · rw [Foundation.Table.get_erase] at h
    split at h
    · cases h
    · exact .inr ⟨Ne.symm ‹_›, h⟩
  · rw [Foundation.Table.get_insert] at h
    split at h
    · exact .inl ⟨Eq.symm ‹_›, (Option.some.inj h).symm⟩
    · exact .inr ⟨Ne.symm ‹_›, h⟩

theorem bucket_live {e : CompactionEstimate} {job : Job} {sign : ℤ} (h : job.state.terminal = false) :
    bucket e job sign = e := by
  rw [bucket, if_neg (by rw [h]; decide)]

theorem bucket_untimed {e : CompactionEstimate} {job : Job} {sign : ℤ} (h : job.state.terminal = true)
    (ht : job.terminalAt.filter time? = none) : bucket e job sign = { e with available := false } := by
  rw [bucket, if_pos h, ht]

theorem hour_eq {job : Job} {t : ℕ} (h : job.state.terminal = true) (ht : job.terminalAt.filter time? = some t) :
    hour job = some (t / bucketMs) := by
  rw [hour, if_pos h, ht, Option.map_some]

/-- A job is added to the jobs, or taken from them, and so in its bucket. -/
theorem Counts.moved {e : CompactionEstimate} {jobs jobs' : Table JobId Job} (h : Counts e jobs) {job : Job}
    {sign : ℤ} (hmoved : ∀ f : Job → ℤ, Table.total f jobs' = Table.total f jobs + sign * f job)
    (htimes : ∀ (id : JobId) (j : Job), jobs'[id]? = some j → j.state.terminal = true →
      ∃ t, j.terminalAt = some t ∧ time? t = true)
    (hjob : job.state.terminal = true → ∃ t, job.terminalAt = some t ∧ time? t = true) :
    Counts (bucket e job sign) jobs' := by
  cases hterminal : job.state.terminal with
  | false =>
    rw [bucket_live hterminal]
    have hended : ∀ f : Job → ℤ, ended f job = 0 := fun f ↦ if_neg (by rw [hterminal]; decide)
    have hwithin : ∀ (f : Job → ℤ) (key : ℕ), within f key job = 0 := by
      intro f key
      rw [within, hour, hterminal]
      exact if_neg fun h ↦ by cases h
    refine ⟨htimes, ?_, ?_, ?_⟩
    · rw [hmoved, hended, Int.mul_zero, Int.add_zero, h.count]
    · rw [hmoved, hended, Int.mul_zero, Int.add_zero, h.bytes]
    · intro key b hb
      rw [hmoved, hwithin, hmoved, hwithin, Int.mul_zero, Int.add_zero, Int.add_zero]
      exact h.buckets key b hb
  | true =>
    obtain ⟨t, ht, hvalid⟩ := hjob hterminal
    have hfilter : job.terminalAt.filter time? = some t := by
      rw [ht, Option.filter_some, if_pos hvalid]
    have hhour := hour_eq hterminal hfilter
    have hended : ∀ f : Job → ℤ, ended f job = f job := fun f ↦ if_pos hterminal
    have hin : ∀ f : Job → ℤ, within f (t / bucketMs) job = f job := fun f ↦ if_pos hhour
    have hout : ∀ (f : Job → ℤ) (key : ℕ), key ≠ t / bucketMs → within f key job = 0 := by
      intro f key hne
      rw [within, hhour, if_neg fun heq ↦ hne (Option.some.inj heq).symm]
    rw [bucket, if_pos hterminal, hfilter]
    have hcount := hmoved (ended one)
    have hbytes := hmoved (ended bound)
    have hcount' := Foundation.Table.total_nonneg (ended one) jobs' (ended_nonneg one_nonneg)
    have hbytes' := Foundation.Table.total_nonneg (ended bound) jobs' (ended_nonneg bound_nonneg)
    rw [hended, ← h.count] at hcount
    rw [hended, ← h.bytes] at hbytes
    refine ⟨htimes, ?_, ?_, ?_⟩
    · show max 0 (e.terminalJobs + sign) = Table.total (ended one) jobs'
      rw [one, Int.mul_one] at hcount
      omega
    · show max 0 (e.terminalBytes + sign * bound job) = Table.total (ended bound) jobs'
      omega
    · intro key b hb
      rcases putBucket_get (evict_get hb) with ⟨rfl, rfl⟩ | ⟨hne, hb⟩
      · have hold : (bucketAt e.buckets (t / bucketMs)).count ≤ Table.total (within one (t / bucketMs)) jobs ∧
            (bucketAt e.buckets (t / bucketMs)).bytes ≤ Table.total (within bound (t / bucketMs)) jobs := by
          rw [bucketAt]
          cases hget : e.buckets[t / bucketMs]? with
          | none =>
            exact ⟨Foundation.Table.total_nonneg _ jobs (within_nonneg one_nonneg _),
              Foundation.Table.total_nonneg _ jobs (within_nonneg bound_nonneg _)⟩
          | some old => exact h.buckets _ old hget
        have hmoved₁ := hmoved (within one (t / bucketMs))
        have hmoved₂ := hmoved (within bound (t / bucketMs))
        have hnonneg₁ := Foundation.Table.total_nonneg (within one (t / bucketMs)) jobs' (within_nonneg one_nonneg _)
        have hnonneg₂ := Foundation.Table.total_nonneg (within bound (t / bucketMs)) jobs'
          (within_nonneg bound_nonneg _)
        rw [hin, one, Int.mul_one] at hmoved₁
        rw [hin] at hmoved₂
        refine ⟨?_, ?_⟩
        · show max 0 ((bucketAt e.buckets (t / bucketMs)).count + sign) ≤ _
          omega
        · show max 0 ((bucketAt e.buckets (t / bucketMs)).bytes + sign * bound job) ≤ _
          omega
      · rw [hmoved, hout _ key hne, hmoved, hout _ key hne, Int.mul_zero, Int.add_zero, Int.add_zero]
        exact h.buckets key b hb

/-! ## Replacements -/

/-- The job has its time, if it ended. -/
def Timed (job : Job) : Prop := job.state.terminal = true → ∃ t, job.terminalAt = some t ∧ time? t = true

theorem Counts.remove {e : CompactionEstimate} {jobs : Table JobId Job} (h : Counts e jobs) {id : JobId} {p : Job}
    (hp : jobs[id]? = some p) : Counts (bucket e p (-1)) (jobs.erase id) := by
  refine h.moved (fun f ↦ ?_) ?_ (h.times id p hp)
  · rw [Foundation.Table.total_erase f jobs hp]
    omega
  · intro id' job hjob
    rw [Foundation.Table.get_erase] at hjob
    split at hjob
    · cases hjob
    · exact h.times id' job hjob

theorem Counts.add {e : CompactionEstimate} {jobs : Table JobId Job} (h : Counts e jobs) {id : JobId} {job : Job}
    (hfresh : jobs[id]? = none) (htimed : Timed job) : Counts (bucket e job 1) (jobs.insert id job) := by
  refine h.moved (fun f ↦ ?_) ?_ htimed
  · rw [Foundation.Table.total_insert_fresh f jobs job hfresh]
    omega
  · intro id' j hj
    rw [Foundation.Table.get_insert] at hj
    split at hj
    · cases hj
      exact htimed
    · exact h.times id' j hj

theorem Counts.replace {e : CompactionEstimate} {jobs : Table JobId Job} (h : Counts e jobs) {job : Job}
    (htimed : Timed job) : Counts (e.replace jobs[job.id]? job) (jobs.insert job.id job) := by
  have hsame : ∀ {e e' : CompactionEstimate} {jobs : Table JobId Job}, Counts e jobs →
      e'.terminalJobs = e.terminalJobs → e'.terminalBytes = e.terminalBytes → e'.buckets = e.buckets →
      Counts e' jobs := by
    intro e e' jobs h hcount hbytes hbuckets
    exact ⟨h.times, hcount.trans h.count, hbytes.trans h.bytes, hbuckets ▸ h.buckets⟩
  cases hp : jobs[job.id]? with
  | none =>
    have hfed : Counts { e with
        jobs := e.jobs + 1
        definitionBytes := e.definitionBytes + job.definitionBytes.length } jobs := hsame h rfl rfl rfl
    exact hfed.add hp htimed
  | some p =>
    have hremoved := h.remove hp
    have hfree : (jobs.erase job.id)[job.id]? = none := by rw [Foundation.Table.get_erase, if_pos rfl]
    rw [← Foundation.Table.insert_erase_other jobs job.id job]
    exact (hsame hremoved rfl rfl rfl).add hfree htimed

theorem bucket_available {e : CompactionEstimate} {job : Job} {sign : ℤ} (htimed : Timed job) :
    (bucket e job sign).available = e.available := by
  rw [bucket]
  split
  · rename_i hterminal
    obtain ⟨t, ht, hvalid⟩ := htimed hterminal
    have hfilter : job.terminalAt.filter time? = some t := by
      rw [ht, Option.filter_some, if_pos hvalid]
    rw [hfilter]
  · rfl

/-- A terminal job without a valid time is the end of the estimate. -/
theorem bucket_timed {e : CompactionEstimate} {job : Job} {sign : ℤ} (h : (bucket e job sign).available = true) :
    e.available = true ∧ Timed job := by
  cases hterminal : job.state.terminal with
  | false =>
    rw [bucket_live hterminal] at h
    refine ⟨h, fun hended ↦ ?_⟩
    rw [hterminal] at hended
    cases hended
  | true =>
    cases ht : job.terminalAt.filter time? with
    | none =>
      rw [bucket_untimed hterminal ht] at h
      cases h
    | some t =>
      rw [Option.filter_eq_some_iff] at ht
      have htimed : Timed job := fun _ ↦ ⟨t, ht⟩
      rw [bucket_available htimed] at h
      exact ⟨h, htimed⟩

theorem replace_timed {e : CompactionEstimate} {previous : Option Job} {job : Job}
    (h : (e.replace previous job).available = true) : e.available = true ∧ Timed job := by
  obtain ⟨hremoved, htimed⟩ := bucket_timed h
  cases previous with
  | none => exact ⟨hremoved, htimed⟩
  | some p => exact ⟨(bucket_timed hremoved).1, htimed⟩

theorem bucket_totals (e : CompactionEstimate) (job : Job) (sign : ℤ) :
    (bucket e job sign).jobs = e.jobs ∧ (bucket e job sign).definitionBytes = e.definitionBytes := by
  rw [bucket]
  split
  · split <;> exact ⟨rfl, rfl⟩
  · exact ⟨rfl, rfl⟩

/-! ## A sequence of versions -/

/-- The estimate, and the jobs whose last versions it was given. -/
structure Tracked where
  estimate : CompactionEstimate
  jobs : Table JobId Job

/-- A version takes the place of the one that is tracked. -/
def feed (s : Tracked) (job : Job) : Tracked :=
  ⟨s.estimate.replace s.jobs[job.id]? job, s.jobs.insert job.id job⟩

def track (versions : List Job) : Tracked := versions.foldl feed ⟨new, ∅⟩

theorem track_append (versions : List Job) (job : Job) : track (versions ++ [job]) = feed (track versions) job := by
  rw [track, List.foldl_append, List.foldl_cons, List.foldl_nil]
  rfl

/-- The bytes of a definition. -/
def definitionSize (job : Job) : ℤ := job.definitionBytes.length

/-- What holds of the estimate whatever is fed to it. -/
structure Exact (s : Tracked) : Prop where
  jobs : s.estimate.jobs = s.jobs.size
  definitions : (s.estimate.definitionBytes : ℤ) = Table.total definitionSize s.jobs
  counts : s.estimate.available = true → Counts s.estimate s.jobs

theorem track_mem {versions : List Job} {id : JobId} {job : Job} (h : (track versions).jobs[id]? = some job) :
    job ∈ versions ∧ job.id = id := by
  induction versions using List.reverseRecOn with
  | nil => simp [track] at h
  | append_singleton versions version ih =>
    rw [track_append, feed, Foundation.Table.get_insert] at h
    split at h
    · cases h
      exact ⟨List.mem_append_right _ List.mem_cons_self, ‹_›⟩
    · obtain ⟨hmem, hid⟩ := ih h
      exact ⟨List.mem_append_left _ hmem, hid⟩

theorem replace_totals (e : CompactionEstimate) (previous : Option Job) (job : Job) :
    (e.replace previous job).jobs = e.jobs + (if previous.isSome then 0 else 1) ∧
      (e.replace previous job).definitionBytes =
        e.definitionBytes + if previous.isSome then 0 else job.definitionBytes.length := by
  have hadd := bucket_totals
  cases previous with
  | none => exact ⟨(hadd _ job 1).1, (hadd _ job 1).2⟩
  | some p =>
    refine ⟨(hadd _ job 1).1.trans ?_, (hadd _ job 1).2.trans ?_⟩
    · exact congrArg (· + 0) (hadd e p (-1)).1
    · exact congrArg (· + 0) (hadd e p (-1)).2

/-- One version: the counts stay exact if it keeps the definition of the version it replaces. -/
theorem Exact.feed {s : Tracked} (h : Exact s) {job : Job}
    (hkept : ∀ p, s.jobs[job.id]? = some p → p.definitionBytes = job.definitionBytes) :
    Exact (feed s job) := by
  obtain ⟨hjobs, hdefinitions⟩ := replace_totals s.estimate s.jobs[job.id]? job
  refine ⟨?_, ?_, ?_⟩
  · show (s.estimate.replace s.jobs[job.id]? job).jobs = (s.jobs.insert job.id job).size
    rw [hjobs, h.jobs, Std.ExtTreeMap.size_insert, Std.ExtTreeMap.contains_eq_isSome_getElem?]
    cases s.jobs[job.id]? with
    | none => rfl
    | some p => rfl
  · show ((s.estimate.replace s.jobs[job.id]? job).definitionBytes : ℤ) =
      Table.total definitionSize (s.jobs.insert job.id job)
    rw [hdefinitions, Foundation.Table.total_insert, ← h.definitions]
    cases hp : s.jobs[job.id]? with
    | none =>
      simp only [Option.isSome_none, Option.elim_none, definitionSize]
      simp
    | some p =>
      simp only [Option.isSome_some, Option.elim_some, definitionSize, hkept p hp]
      simp
  · intro hlive
    obtain ⟨hbefore, htimed⟩ := replace_timed hlive
    exact (h.counts hbefore).replace htimed

theorem exact_track {versions : List Job}
    (hkept : ∀ v ∈ versions, ∀ w ∈ versions, v.id = w.id → v.definitionBytes = w.definitionBytes) :
    Exact (track versions) := by
  induction versions using List.reverseRecOn with
  | nil =>
    refine ⟨?_, (Table.total_empty _).symm, fun _ ↦ counts_new⟩
    show 0 = (∅ : Table JobId Job).size
    rw [Std.ExtTreeMap.size_empty]
  | append_singleton versions version ih =>
    rw [track_append]
    refine (ih fun v hv w hw ↦ hkept v (List.mem_append_left _ hv) w (List.mem_append_left _ hw)).feed ?_
    intro p hp
    obtain ⟨hmem, hid⟩ := track_mem hp
    exact hkept p (List.mem_append_left _ hmem) version (List.mem_append_right _ List.mem_cons_self) hid

/-- As long as every terminal version has its time, there is an estimate. -/
theorem track_available {versions : List Job} (h : ∀ v ∈ versions, Timed v) :
    (track versions).estimate.available = true := by
  induction versions using List.reverseRecOn with
  | nil => rfl
  | append_singleton versions version ih =>
    rw [track_append]
    have hlive := ih fun v hv ↦ h v (List.mem_append_left _ hv)
    have htimed := h version (List.mem_append_right _ List.mem_cons_self)
    show (bucket _ version 1).available = true
    rw [bucket_available htimed]
    cases hp : (track versions).jobs[version.id]? with
    | none => exact hlive
    | some p =>
      show (bucket _ p (-1)).available = true
      rw [bucket_available (h p (List.mem_append_left _ (track_mem hp).1))]
      exact hlive

/-! ## What has expired -/

/-- The jobs a retention lets a compaction drop. -/
def isExpired (retention : Retention) (now : ℕ) (job : Job) : Bool :=
  match Retention.expired? job.terminalAt retention now with
  | .ok answer => answer
  | .error _ => false

/-- The jobs of the hours that have passed. -/
theorem passed_eq (buckets : Table ℕ Bucket) (cutoff : ℤ) :
    passed buckets cutoff =
      (((buckets.toList.filter fun x ↦ ((x.1 + 1) * bucketMs - 1 : ℤ) ≤ cutoff).map fun x ↦ x.2.count).sum,
        ((buckets.toList.filter fun x ↦ ((x.1 + 1) * bucketMs - 1 : ℤ) ≤ cutoff).map fun x ↦ x.2.bytes).sum) := by
  have hfold : ∀ (l : List (ℕ × Bucket)) (acc : ℤ × ℤ),
      l.foldl (fun acc x ↦ if ((x.1 + 1) * bucketMs - 1 : ℤ) ≤ cutoff then
          (acc.1 + x.2.count, acc.2 + x.2.bytes) else acc) acc =
        (acc.1 + ((l.filter fun x ↦ ((x.1 + 1) * bucketMs - 1 : ℤ) ≤ cutoff).map fun x ↦ x.2.count).sum,
          acc.2 + ((l.filter fun x ↦ ((x.1 + 1) * bucketMs - 1 : ℤ) ≤ cutoff).map fun x ↦ x.2.bytes).sum) := by
    intro l
    induction l with
    | nil => intro acc; simp
    | cons x l ih =>
      intro acc
      rw [List.foldl_cons, ih, List.filter_cons]
      by_cases hx : ((x.1 + 1) * bucketMs - 1 : ℤ) ≤ cutoff
      · simp only [hx, if_true, decide_true, List.map_cons, List.sum_cons, Int.add_assoc]
      · simp only [hx, if_false, decide_false, Bool.false_eq_true]
  rw [passed, hfold]
  simp

/-- A job whose hour has passed has expired. -/
theorem passed_expired {job : Job} {key now duration : ℕ} {retention : Retention} (hhour : hour job = some key)
    (hpassed : ((key + 1) * bucketMs - 1 : ℤ) ≤ now - duration)
    (hretention : ∀ t, time? t = true →
      Retention.expired? (some t) retention now = .ok (decide (duration ≤ now) && decide (t ≤ now - duration))) :
    isExpired retention now job = true := by
  rw [hour] at hhour
  split at hhour
  · obtain ⟨t, ht, hkey⟩ := Option.map_eq_some_iff.mp hhour
    obtain ⟨htime, hvalid⟩ := Option.filter_eq_some_iff.mp ht
    have hbefore : t ≤ (key + 1) * bucketMs - 1 := by
      rw [bucketMs] at hkey ⊢
      omega
    rw [bucketMs] at hbefore hpassed
    rw [isExpired, htime, hretention t hvalid]
    simp only [Bool.and_eq_true, decide_eq_true_eq]
    omega
  · cases hhour

/-- A weight of the expired jobs. -/
def lapsed (retention : Retention) (now : ℕ) (f : Job → ℤ) (job : Job) : ℤ :=
  if isExpired retention now job then f job else 0

/-- Buckets that are lower bounds for their hours, added up over the hours that have passed. -/
theorem sum_passed_le {buckets : Table ℕ Bucket} {jobs : Table JobId Job} {g : Bucket → ℤ} {f : Job → ℤ}
    (hf : ∀ job, 0 ≤ f job) (hle : ∀ (key : ℕ) (b : Bucket), buckets[key]? = some b → g b ≤ Table.total (within f key) jobs)
    {p : ℕ → Bool} {retention : Retention} {now : ℕ}
    (hexpired : ∀ (job : Job) (key : ℕ), hour job = some key → p key = true → isExpired retention now job = true) :
    ((buckets.toList.filter fun x ↦ p x.1).map fun x ↦ g x.2).sum ≤ Table.total (lapsed retention now f) jobs := by
  have hkeys : ((buckets.toList.filter fun x ↦ p x.1).map Prod.fst).Nodup := by
    have hall : (buckets.toList.map Prod.fst).Nodup :=
      List.pairwise_map.mpr (Std.ExtTreeMap.distinct_keys_toList.imp fun hne heq ↦
        hne (Std.LawfulEqCmp.compare_eq_iff_eq.mpr heq))
    exact hall.sublist (List.filter_sublist.map Prod.fst)
  calc ((buckets.toList.filter fun x ↦ p x.1).map fun x ↦ g x.2).sum
      ≤ ((buckets.toList.filter fun x ↦ p x.1).map fun x ↦ Table.total (within f x.1) jobs).sum :=
        List.sum_le_sum fun x hx ↦
          hle x.1 x.2 (Std.ExtTreeMap.mem_toList_iff_getElem?_eq_some.mp (List.mem_of_mem_filter hx))
    _ = (((buckets.toList.filter fun x ↦ p x.1).map Prod.fst).map fun key ↦
          Table.total (within f key) jobs).sum := by rw [List.map_map]; rfl
    _ = Table.total (fun job ↦
          if hour job ∈ ((buckets.toList.filter fun x ↦ p x.1).map Prod.fst).map some then f job else 0) jobs :=
        Foundation.Table.sum_classes f jobs hour hkeys
    _ ≤ Table.total (lapsed retention now f) jobs := by
        refine Foundation.Table.total_mono fun id job _ ↦ ?_
        rw [lapsed]
        split
        · rename_i hmem
          obtain ⟨key, hkey, hhour⟩ := List.mem_map.mp hmem
          obtain ⟨x, hx, rfl⟩ := List.mem_map.mp hkey
          rw [if_pos (hexpired job x.1 hhour.symm (List.mem_filter.mp hx).2)]
        · split
          · exact hf job
          · exact le_refl 0

/-- What is reported as expired is at most what has expired. -/
theorem expired_le {e : CompactionEstimate} {jobs : Table JobId Job} (h : Counts e jobs) {retention : Retention}
    {now : ℕ} (hvalid : Retention.validate retention = true) (hnow : time? now = true) :
    (expired e retention now).1 ≤ Table.total (lapsed retention now one) jobs ∧
      (expired e retention now).2 ≤ Table.total (lapsed retention now bound) jobs := by
  have hpassed : ∀ duration : ℕ, (∀ t, time? t = true →
      Retention.expired? (some t) retention now = .ok (decide (duration ≤ now) && decide (t ≤ now - duration))) →
      (passed e.buckets (now - duration)).1 ≤ Table.total (lapsed retention now one) jobs ∧
        (passed e.buckets (now - duration)).2 ≤ Table.total (lapsed retention now bound) jobs := by
    intro duration hretention
    have hexpired : ∀ (job : Job) (key : ℕ), hour job = some key →
        decide (((key + 1) * bucketMs - 1 : ℤ) ≤ now - duration) = true → isExpired retention now job = true :=
      fun job key hhour hle ↦ passed_expired hhour (of_decide_eq_true hle) hretention
    rw [passed_eq]
    exact ⟨sum_passed_le one_nonneg (fun key b hb ↦ (h.buckets key b hb).1) hexpired,
      sum_passed_le bound_nonneg (fun key b hb ↦ (h.buckets key b hb).2) hexpired⟩
  have hzero : (∀ t, time? t = true → Retention.expired? (some t) retention now = .ok true) →
      e.terminalJobs ≤ Table.total (lapsed retention now one) jobs ∧
        e.terminalBytes ≤ Table.total (lapsed retention now bound) jobs := by
    intro hretention
    have hle : ∀ f : Job → ℤ, (∀ job, 0 ≤ f job) →
        Table.total (ended f) jobs ≤ Table.total (lapsed retention now f) jobs := by
      intro f hf
      refine Foundation.Table.total_mono fun id job hjob ↦ ?_
      rw [ended, lapsed]
      split
      · obtain ⟨t, ht, htime⟩ := h.times id job hjob ‹_›
        rw [isExpired, ht, hretention t htime, if_pos rfl]
      · split
        · exact hf job
        · exact le_refl 0
    rw [h.count, h.bytes]
    exact ⟨hle one one_nonneg, hle bound bound_nonneg⟩
  have hnonneg : ∀ f : Job → ℤ, (∀ job, 0 ≤ f job) → 0 ≤ Table.total (lapsed retention now f) jobs := by
    intro f hf
    refine Foundation.Table.total_nonneg _ jobs fun job ↦ ?_
    rw [lapsed]
    split
    · exact hf job
    · exact le_refl 0
  match retention with
  | .infinity => exact ⟨hnonneg one one_nonneg, hnonneg bound bound_nonneg⟩
  | .minutes 0 => exact hzero fun t ht ↦ by simp [Retention.expired?, hvalid, ht, hnow]
  | .hours 0 => exact hzero fun t ht ↦ by simp [Retention.expired?, hvalid, ht, hnow]
  | .minutes (n + 1) =>
    exact hpassed ((n + 1) * Retention.minuteMs) fun t ht ↦ by simp [Retention.expired?, hvalid, ht, hnow]
  | .hours (n + 1) =>
    exact hpassed ((n + 1) * Retention.hourMs) fun t ht ↦ by simp [Retention.expired?, hvalid, ht, hnow]

theorem summarize_eq_some {e : CompactionEstimate} {sealedBytes sealedSegments now : ℕ} {retention : Retention}
    {r : EstimateSummary} (h : e.summarize sealedBytes sealedSegments retention now = some r) :
    e.available = true ∧ Retention.validate retention = true ∧ time? now = true ∧
      r.expiredTerminals = (expired e retention now).1 ∧ r.terminalJobs = e.terminalJobs ∧
      r.activeJobs = max (e.jobs - e.terminalJobs) 0 ∧
      r.candidateUpperBytes = e.definitionBytes + e.jobs * 512 - (expired e retention now).2 + 1048576 +
        (sealedSegments + e.jobs - (expired e retention now).1) * 256 := by
  rw [summarize] at h
  split at h
  · rename_i hcond
    simp only [Bool.and_eq_true] at hcond
    cases h
    exact ⟨hcond.1.1, hcond.1.2, hcond.2, rfl, rfl, rfl, rfl⟩
  · cases h

/-- The estimate does not promise too much. Whatever sequence of versions it is fed, when all versions of
a job have the same definition: the numbers of jobs and of definition bytes are exact; there is an estimate
if every terminal version has its time; as long as there is one, the number of terminal jobs is exact; and
no summary reports more expired jobs than have expired. -/
theorem estimate_conservative {versions : List Job}
    (hkept : ∀ v ∈ versions, ∀ w ∈ versions, v.id = w.id → v.definitionBytes = w.definitionBytes) :
    (track versions).estimate.jobs = (track versions).jobs.size ∧
    ((track versions).estimate.definitionBytes : ℤ) =
      Table.total (fun job ↦ (job.definitionBytes.length : ℤ)) (track versions).jobs ∧
    ((∀ v ∈ versions, v.state.terminal = true → ∃ t, v.terminalAt = some t ∧ time? t = true) →
      (track versions).estimate.available = true) ∧
    ((track versions).estimate.available = true →
      (track versions).estimate.terminalJobs =
        Table.total (fun job ↦ if job.state.terminal then 1 else 0) (track versions).jobs) ∧
    ∀ (sealedBytes sealedSegments now : ℕ) (retention : Retention) (r : EstimateSummary),
      (track versions).estimate.summarize sealedBytes sealedSegments retention now = some r →
        r.terminalJobs = Table.total (fun job ↦ if job.state.terminal then 1 else 0) (track versions).jobs ∧
        r.expiredTerminals ≤
          Table.total (fun job ↦ if isExpired retention now job then 1 else 0) (track versions).jobs := by
  have hexact := exact_track hkept
  refine ⟨hexact.jobs, hexact.definitions, track_available, fun hlive ↦ (hexact.counts hlive).count, ?_⟩
  intro sealedBytes sealedSegments now retention r hr
  obtain ⟨hlive, hvalid, hnow, hexpired, hterminal, -, -⟩ := summarize_eq_some hr
  refine ⟨hterminal.trans (hexact.counts hlive).count, ?_⟩
  rw [hexpired]
  exact (expired_le (hexact.counts hlive) hvalid hnow).1

namespace Sample

open Tay.Sample

/-- A job that completed. -/
def completed (id revision t : ℕ) : Job :=
  ⟨id, definition, definition.toValue.wire, .completed, 1, none, 1, none, none, none, none, 10, some 10, some t, some t,
    none, revision, none⟩

/-- Two jobs, one of which is run again. -/
def versions : List Job := [completed 1 3 10, completed 2 3 3600005, completed 1 6 20]

end Sample

theorem estimate_conservative_sample :
    ∃ r, (track Sample.versions).estimate.summarize 0 0 (.hours 1) 7200000 = some r ∧ r.expiredTerminals = 1 ∧
      1 ≤ Table.total (fun job ↦ if isExpired (.hours 1) 7200000 job then 1 else 0) (track Sample.versions).jobs := by
  have hsummary : ((track Sample.versions).estimate.summarize 0 0 (.hours 1) 7200000).any
      (fun r ↦ r.expiredTerminals == 1) = true := by decide +kernel
  obtain ⟨r, hr, hone⟩ := (Option.any_eq_true _ _).mp hsummary
  have hkept : ∀ v ∈ Sample.versions, ∀ w ∈ Sample.versions, v.id = w.id →
      v.definitionBytes = w.definitionBytes := by
    intro v hv w hw _
    simp only [Sample.versions, List.mem_cons, List.not_mem_nil, or_false] at hv hw
    rcases hv with rfl | rfl | rfl <;> rcases hw with rfl | rfl | rfl <;> rfl
  obtain ⟨-, hle⟩ := (estimate_conservative hkept).2.2.2.2 0 0 7200000 (.hours 1) r hr
  rw [beq_iff_eq] at hone
  rw [hone] at hle
  exact ⟨r, hr, hone, hle⟩

/-- The versions the reducer stores are of that kind: they keep the definition of the version they replace,
and a terminal version has its time. -/
theorem apply_fed {vm : Runtime} {c c' : Candidate} {m : Mutation} (h : Reducer.apply vm c m = .ok c') :
    ∃ job, c'.jobs[m.jobId]? = some job ∧ job.id = m.jobId ∧ Timed job ∧
      ∀ p, c.jobs[m.jobId]? = some p → job.definitionBytes = p.definitionBytes := by
  obtain ⟨job, charge, hjob, hc'⟩ := Reducer.apply_eq_ok vm h
  have hid := Reducer.transitionJob_id hjob
  refine ⟨job.charged charge, ?_, hid, ?_, ?_⟩
  · rw [hc', Foundation.Table.get_insert, if_pos rfl]
  · have hshape := (Codec.snapshot?_iff.mp (Reducer.transitionJob_snapshot hjob)).2.terminal
    intro hterminal
    cases hstate : job.state with
    | completed | cancelled | discarded =>
      simp only [Codec.terminalFields?, hstate, Bool.and_eq_true, Option.any_eq_true] at hshape
      exact hshape.1
    | scheduled | available | executing | retryable =>
      rw [Job.charged_state, hstate] at hterminal
      cases hterminal
  · intro p hp
    rw [hp] at hjob
    exact (Canonical.transitionJob_kept hjob).2.2.1

end CompactionEstimate

end Tay
