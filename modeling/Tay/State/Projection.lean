import Mathlib.Order.Std
import Tay.Foundation.Index
import Tay.Storage.Planning

/-!
# The private indexes

`Tay.State.Projection`: the hot jobs and five indexes beside them, which the engine updates in place.
A job that can be dispatched is in the index of its queue, if a worker of this node takes it, and in
the indexes of its task and of everything ready; one that waits for a time is in the scheduler's; and
every job is in the order of insertion and in the counters of the inspection. A job that is held is in
none of the first three, whatever its state.

`valid?` recomputes the indexes from the jobs and compares. `Represents` is what it finds, index by
index, and is kept by every operation that is given the stored version of a job. `hold` and `release`
are also called with a version that is not the stored one; there neither version may be available.
-/

open Foundation

namespace Tay

open V2

/-! ## Keys -/

/-- The comparison of the linear order, which is computed. -/
instance ordWithTop : Ord (WithTop ℕ) := (WithTop.linearOrder : LinearOrder (WithTop ℕ)).toOrd

/-- The key of a job that waits for a time. -/
abbrev SchedulerKey := Lex (WithTop ℕ × ℕ)

def SchedulerIndex.key (job : Job) : SchedulerKey := toLex ((job.eligibleAt : WithTop ℕ), job.id)

/-- The key of a job in the order of insertion. -/
abbrev InspectionKey := Lex (ℕ × ℕ)

def InspectionIndex.key (job : Job) : InspectionKey := toLex (job.insertedAt, job.id)

/-- What the inspection counts. -/
inductive CountKey
  | state (state : JobState)
  | queue (queue : Binary)
  | queueState (queue : Binary) (state : JobState)
  | worker (worker : Binary)
  | facet (queue : Binary) (state : JobState) (worker : Binary)
  deriving DecidableEq

namespace CountKey

def stateCode : JobState → ℕ
  | .scheduled => 0
  | .available => 1
  | .executing => 2
  | .retryable => 3
  | .completed => 4
  | .cancelled => 5
  | .discarded => 6

def code : CountKey → List (List ℕ)
  | .state s => [[0], [stateCode s]]
  | .queue q => [[1], binaryKey q]
  | .queueState q s => [[2], binaryKey q, [stateCode s]]
  | .worker w => [[3], binaryKey w]
  | .facet q s w => [[4], binaryKey q, [stateCode s], binaryKey w]

theorem stateCode_injective : ∀ {a b : JobState}, stateCode a = stateCode b → a = b := by
  intro a b h
  cases a <;> cases b <;> first | rfl | cases h

theorem binaryKey_injective : ∀ {a b : Binary}, binaryKey a = binaryKey b → a = b := by
  intro a b h
  exact List.map_injective_iff.mpr (fun x y hxy ↦ UInt8.toNat_inj.mp hxy) h

theorem code_injective {a b : CountKey} (h : a.code = b.code) : a = b := by
  cases a <;> cases b <;> simp only [code, List.cons.injEq, and_true, reduceCtorEq, and_false,
    false_and] at h <;> first | omega | skip
  case state.state => rw [stateCode_injective h.2]
  case queue.queue => rw [binaryKey_injective h.2]
  case queueState.queueState => rw [binaryKey_injective h.2.1, stateCode_injective h.2.2]
  case worker.worker => rw [binaryKey_injective h.2]
  case facet.facet =>
    rw [binaryKey_injective h.2.1, stateCode_injective h.2.2.1, binaryKey_injective h.2.2.2]

instance : Ord CountKey := ⟨fun a b ↦ compare a.code b.code⟩

theorem compare_eq (a b : CountKey) : compare a b = compare a.code b.code := rfl

instance : Std.TransOrd CountKey where
  eq_swap := by
    intro a b
    rw [compare_eq, compare_eq]
    exact Std.OrientedCmp.eq_swap
  isLE_trans := by
    intro a b c hab hbc
    rw [compare_eq] at hab hbc ⊢
    exact Std.TransCmp.isLE_trans hab hbc

instance : Std.LawfulEqOrd CountKey where
  compare_self := by
    intro a
    rw [compare_eq]
    exact Std.ReflCmp.compare_self
  eq_of_compare := by
    intro a b h
    rw [compare_eq] at h
    exact code_injective (Std.LawfulEqCmp.eq_of_compare h)

end CountKey

/-! ## The inspection -/

/-- `InspectionIndex`: the order of insertion, and the counters. -/
structure InspectionIndex where
  order : Table InspectionKey JobId
  counts : Table CountKey ℤ
  deriving DecidableEq

namespace InspectionIndex

/-- The counters a job is counted in. -/
def facets (job : Job) : List CountKey :=
  [.state job.state, .queue job.definition.queueKey, .queueState job.definition.queueKey job.state,
    .worker job.definition.workerKey,
    .facet job.definition.queueKey job.state job.definition.workerKey]

/-- `increment`; a counter that comes to zero is deleted. -/
def increment (counts : Table CountKey ℤ) (job : Job) (amount : ℤ) : Table CountKey ℤ :=
  bumps counts (facets job) amount

def replace (index : InspectionIndex) (previous : Option Job) (job : Job) : InspectionIndex where
  order := index.order.insert (key job) job.id
  counts := match previous with
    | none => increment index.counts job 1
    | some p => increment (increment index.counts p (-1)) job 1

def delete (index : InspectionIndex) (job : Job) : InspectionIndex where
  order := index.order.erase (key job)
  counts := increment index.counts job (-1)

/-- `map_increment`, which keeps every counter. -/
def mapIncrement (counts : Table CountKey ℤ) (job : Job) (amount : ℤ) : Table CountKey ℤ :=
  (facets job).foldl (fun acc k ↦ acc.insert k (acc[k]?.getD 0 + amount)) counts

/-- `expected`: the entries and the counters of a list of jobs. -/
def expected (jobs : List Job) : List (InspectionKey × JobId) × Table CountKey ℤ :=
  (jobs.map fun job ↦ (key job, job.id), jobs.foldl (fun acc job ↦ mapIncrement acc job 1) ∅)

end InspectionIndex

/-! ## The projection -/

structure Projection where
  jobs : Table JobId Job
  queue : Table QueueKey JobId
  task : Table TaskKey JobId
  ready : Table QueueKey JobId
  schedule : Table SchedulerKey ℕ
  inspection : InspectionIndex
  registry : Finset Binary
  queues : Finset Binary
  held : Finset JobId
  deriving DecidableEq

namespace Projection

def new (registry queues : Finset Binary) : Projection :=
  ⟨∅, ∅, ∅, ∅, ∅, ⟨∅, ∅⟩, registry, queues, ∅⟩

def available (p : Projection) (job : Job) : Bool :=
  job.state == .available && decide (job.definition.workerKey ∈ p.registry) &&
    decide (job.definition.queueKey ∈ p.queues) && decide (job.id ∉ p.held)

def taskAvailable (p : Projection) (job : Job) : Bool :=
  job.state == .available && decide (job.definition.queueKey ∈ p.queues) &&
    decide (job.id ∉ p.held)

def scheduled (job : Job) : Bool := job.state == .scheduled || job.state == .retryable

/-- Take a job out of the indexes it is dispatched from. -/
def unqueue (p : Projection) (job : Job) : Projection :=
  { p with
    queue := if p.available job then p.queue.erase (QueueIndex.key job) else p.queue
    task := if p.taskAvailable job then p.task.erase (TaskIndex.key job) else p.task
    ready := if p.taskAvailable job then p.ready.erase (QueueIndex.key job) else p.ready }

/-- And put it there. -/
def enqueue (p : Projection) (job : Job) : Projection :=
  { p with
    queue := if p.available job then p.queue.insert (QueueIndex.key job) job.id else p.queue
    task := if p.taskAvailable job then p.task.insert (TaskIndex.key job) job.id else p.task
    ready := if p.taskAvailable job then p.ready.insert (QueueIndex.key job) job.id else p.ready }

def unschedule (p : Projection) (job : Job) : Projection :=
  { p with
    schedule := if scheduled job then p.schedule.erase (SchedulerIndex.key job) else p.schedule }

def reschedule (p : Projection) (job : Job) : Projection :=
  { p with
    schedule :=
      if scheduled job then p.schedule.insert (SchedulerIndex.key job) job.revision
      else p.schedule }

def replace (p : Projection) (previous : Option Job) (job : Job) : Projection :=
  let cleared := match previous with | some q => (p.unqueue q).unschedule q | none => p
  let written :=
    { cleared with
      jobs := cleared.jobs.insert job.id job
      inspection := cleared.inspection.replace previous job }
  (written.enqueue job).reschedule job

def delete (p : Projection) (job : Job) : Projection :=
  let cleared := (p.unqueue job).unschedule job
  { cleared with
    jobs := cleared.jobs.erase job.id
    inspection := cleared.inspection.delete job }

def hold (p : Projection) (job : Job) : Projection :=
  { p.unqueue job with held := insert job.id p.held }

def release (p : Projection) (job : Job) : Projection :=
  { p with held := p.held.erase job.id }.enqueue job

/-- `release/3`: the job may be gone. -/
def releaseId (p : Projection) (job : Option Job) (id : JobId) : Projection :=
  match job with
  | none => { p with held := p.held.erase id }
  | some job => p.release job

def load (p : Projection) (jobs : Table JobId Job) : Projection :=
  jobs.toList.foldl (fun p entry ↦ p.replace none entry.2) p

/-- `valid?`. Two sorted lists are equal when one is a permutation of the other. -/
def valid (p : Projection) : Bool :=
  let jobs := p.jobs.toList.map Prod.snd
  let queue := (jobs.filter p.available).map fun job ↦ (QueueIndex.key job, job.id)
  let task := (jobs.filter p.taskAvailable).map fun job ↦ (TaskIndex.key job, job.id)
  let schedule := (jobs.filter scheduled).map fun job ↦ (SchedulerIndex.key job, job.revision)
  let inspection := InspectionIndex.expected jobs
  let ready := (jobs.filter p.taskAvailable).map fun job ↦ (QueueIndex.key job, job.id)
  ready.isPerm p.ready.toList && queue.isPerm p.queue.toList && task.isPerm p.task.toList &&
    schedule.isPerm p.schedule.toList && inspection.1.isPerm p.inspection.order.toList &&
    inspection.2 == p.inspection.counts

/-! ## What the indexes hold -/

/-- The entry of a job that passes a test, under a key. -/
def entryOf {κ ν : Type} (test : Job → Bool) (key : Job → κ) (value : Job → ν) (job : Job) :
    Option (κ × ν) := if test job then some (key job, value job) else none

/-- The indexes are those of the jobs and the held ids. -/
structure Represents (p : Projection) : Prop where
  keyed : Keyed Job.id p.jobs
  queue : Lists (entryOf p.available QueueIndex.key Job.id) p.jobs p.queue
  task : Lists (entryOf p.taskAvailable TaskIndex.key Job.id) p.jobs p.task
  ready : Lists (entryOf p.taskAvailable QueueIndex.key Job.id) p.jobs p.ready
  schedule : Lists (entryOf scheduled SchedulerIndex.key Job.revision) p.jobs p.schedule
  order : Lists (entryOf (fun _ ↦ true) InspectionIndex.key Job.id) p.jobs p.inspection.order
  counts : Counts InspectionIndex.facets p.jobs p.inspection.counts

end Projection

end Tay
