import Mathlib.Data.Finset.Sort
import Tay.Execution.Consistency
import Tay.Execution.RateLimiter
import Tay.Foundation.Heads
import Tay.State.Projection

/-!
# Which job a queue runs next

`next_ready` of `Tay.Engine.Execution`, with `Tay.Executor.Registry.capabilities` and
`Tay.Execution.Dispatcher`. The engine asks which tasks anyone could take, looks at the head of the index
of each of these tasks, and takes the least of the heads. The key of that index puts the task before the
time, so of the heads it is the one with the first task name that is taken, not the oldest job.

The tasks on offer are those of every connection with a free slot, while a reservation also looks at the
queue the connection serves. A task that is only offered to another queue can therefore be the first by
name, and the queue waits for it whatever else is ready.
-/

open Foundation

namespace Tay

open V2

/-! ## Names in order -/

/-- The order of names. -/
def ByName (a b : Binary) : Prop := binaryKey a ≤ binaryKey b

instance byNameDecidable : DecidableRel ByName := fun a b ↦
  inferInstanceAs (Decidable (binaryKey a ≤ binaryKey b))

instance byNameTrans : IsTrans Binary ByName := ⟨fun _ _ _ h h' ↦ le_trans h h'⟩

instance byNameAntisymm : Std.Antisymm ByName :=
  ⟨fun _ _ h h' ↦ CountKey.binaryKey_injective (le_antisymm h h')⟩

instance byNameTotal : Std.Total ByName := ⟨fun a b ↦ le_total (binaryKey a) (binaryKey b)⟩

/-! ## What is on offer -/

/-- `capabilities`: every task of every connection that has a slot left. -/
def Executor.Registry.capabilities (connections : Table ℕ Executor.Connection) : Finset Binary :=
  (connections.toList.filter fun e ↦ available? e.2).foldr (fun e acc ↦ e.2.tasks ∪ acc) ∅

theorem Executor.Registry.mem_capabilities {connections : Table ℕ Executor.Connection}
    {task : Binary} : task ∈ capabilities connections ↔ ∃ (connection : ℕ) (entry : Executor.Connection),
      connections[connection]? = some entry ∧ available? entry = true ∧ task ∈ entry.tasks := by
  have hfold : ∀ l : List (ℕ × Executor.Connection),
      task ∈ l.foldr (fun e acc ↦ e.2.tasks ∪ acc) (∅ : Finset Binary) ↔ ∃ e ∈ l, task ∈ e.2.tasks := by
    intro l
    induction l with
    | nil => simp
    | cons e l ih => simp only [List.foldr_cons, Finset.mem_union, ih, List.exists_mem_cons_iff]
  rw [capabilities, hfold]
  simp only [List.mem_filter, Std.ExtTreeMap.mem_toList_iff_getElem?_eq_some, Prod.exists, and_assoc]

namespace Execution

variable (s : State) (limiter : RateLimiter.Limiter) (queue : Binary)

/-- `Dispatcher.available_tasks`: a server that is gone offers nothing. -/
def availableTasks : Finset Binary :=
  if s.executorServer = some s.link.pid then
    Executor.Registry.capabilities s.link.server.connections
  else ∅

/-- The tasks `next_ready` looks at: those that this node runs and those on offer, while the rate
limiter allows them. -/
def candidates (monotonic : ℤ) : List Binary :=
  ((s.registry ∪ availableTasks s).filter fun task ↦
    limiter.allowed? queue task monotonic = true).sort ByName

variable {s limiter queue}

theorem mem_candidates {monotonic : ℤ} {task : Binary} :
    task ∈ candidates s limiter queue monotonic ↔
      (task ∈ s.registry ∨ task ∈ availableTasks s) ∧ limiter.allowed? queue task monotonic = true := by
  simp only [candidates, Finset.mem_sort, Finset.mem_filter, Finset.mem_union]

/-! ## What is ready -/

/-- The ready jobs of a queue that nothing holds. -/
def queued (s : State) (queue : Binary) : List Job :=
  (indexed (fun _ ↦ true) (dispatchable s)).filter fun job ↦ job.definition.queueKey == queue

def due (now : ℕ) (job : Job) : Bool := job.eligibleAt.any (· ≤ now)

def worker (job : Job) : Binary := job.definition.workerKey

/-- Those that are due, and of these tasks. -/
def ready (s : State) (queue : Binary) (tasks : List Binary) (now : ℕ) : List Job :=
  takeable worker (due now) tasks (queued s queue)

/-- Those that are due, whatever their task. -/
def waiting (s : State) (queue : Binary) (now : ℕ) : List Job := (queued s queue).filter (due now)

def eligible (job : Job) : WithTop ℕ := job.eligibleAt

/-- The order in which jobs become available to run. -/
def dispatchKey (job : Job) : Lex (WithTop ℕ × Lex (WithTop ℕ × ℕ)) :=
  toLex (eligible job, toLex ((job.availabilityOrder : WithTop ℕ), job.id))

variable {tasks : List Binary} {now : ℕ} {job other : Job}

theorem dispatchable_hot {id : JobId} (h : (dispatchable s)[id]? = some job) :
    s.engine.hot[id]? = some job := by
  rw [dispatchable, Std.ExtTreeMap.getElem?_filter', Option.filter_eq_some_iff] at h
  exact h.1

theorem mem_queued (hkeyed : Keyed Job.id s.engine.hot) : job ∈ queued s queue ↔
    s.engine.hot[job.id]? = some job ∧ job.id ∉ s.held ∧ job.definition.queueKey ∈ s.queues ∧
      job.state = .available ∧ job.definition.queueKey = queue := by
  have hmem : (∃ id : JobId, (dispatchable s)[id]? = some job) ↔ s.engine.hot[job.id]? = some job ∧
      job.id ∉ s.held ∧ job.definition.queueKey ∈ s.queues := by
    simp only [dispatchable, Std.ExtTreeMap.getElem?_filter', Option.filter_eq_some_iff,
      decide_eq_true_eq]
    constructor
    · rintro ⟨id, hid, hqueue, hheld⟩
      obtain rfl := hkeyed id job hid
      exact ⟨hid, hheld, hqueue⟩
    · rintro ⟨hid, hheld, hqueue⟩
      exact ⟨job.id, hid, hqueue, hheld⟩
  simp only [queued, indexed, List.mem_filter, List.mem_map, Prod.exists, exists_eq_right,
    Std.ExtTreeMap.mem_toList_iff_getElem?_eq_some, hmem, Bool.and_true, beq_iff_eq, and_assoc]

/-- Ids tell the ready jobs apart. -/
theorem queued_inj (hkeyed : Keyed Job.id s.engine.hot) {κ : Type} {key : Job → κ}
    (hkey : ∀ {a b : Job}, key a = key b → a.id = b.id) :
    ∀ a ∈ queued s queue, ∀ b ∈ queued s queue, key a = key b → a = b := by
  intro a ha b hb h
  have ha := ((mem_queued hkeyed).mp ha).1
  have hb := ((mem_queued hkeyed).mp hb).1
  rw [hkey h, hb] at ha
  exact (Option.some.inj ha).symm

theorem dispatchKey_id {a b : Job} (h : dispatchKey a = dispatchKey b) : a.id = b.id :=
  congrArg (fun k : Lex (WithTop ℕ × Lex (WithTop ℕ × ℕ)) ↦ (ofLex (ofLex k).2).2) h

/-- Within a queue the index compares the tasks first, and then the rest. -/
theorem taskKey_le_iff (hkeyed : Keyed Job.id s.engine.hot) (ha : job ∈ queued s queue)
    (hb : other ∈ queued s queue) : TaskIndex.key job ≤ TaskIndex.key other ↔
      binaryKey (worker job) < binaryKey (worker other) ∨
        worker job = worker other ∧ dispatchKey job ≤ dispatchKey other := by
  have ha := ((mem_queued hkeyed).mp ha).2.2.2.2
  have hb := ((mem_queued hkeyed).mp hb).2.2.2.2
  simp only [TaskIndex.key, dispatchKey, eligible, worker, ha, hb, Prod.Lex.toLex_le_toLex, lt_irrefl, true_and,
    false_or]
  constructor
  · rintro (h | ⟨h, hrest⟩)
    · exact .inl h
    · exact .inr ⟨CountKey.binaryKey_injective h, hrest⟩
  · rintro (h | ⟨h, hrest⟩)
    · exact .inl h
    · exact .inr ⟨congrArg binaryKey h, hrest⟩

theorem due_iff : due now job = true ↔ eligible job ≤ WithTop.some now := by
  unfold due eligible
  cases job.eligibleAt with
  | none => exact iff_of_false Bool.false_ne_true (WithTop.not_top_le_coe now)
  | some e => exact decide_eq_true_iff.trans WithTop.coe_le_coe.symm

/-- Of two jobs of one task the one that comes first is due if the other is. -/
theorem due_of_le (hkeyed : Keyed Job.id s.engine.hot) {a b : Job} (ha : a ∈ queued s queue)
    (hb : b ∈ queued s queue) (htask : worker a = worker b) (hle : TaskIndex.key a ≤ TaskIndex.key b)
    (hdue : due now b) : due now a := by
  have hkey : dispatchKey a ≤ dispatchKey b := by
    rcases (taskKey_le_iff hkeyed ha hb).mp hle with hlt | ⟨-, h⟩
    · exact absurd (congrArg binaryKey htask) hlt.ne
    · exact h
  have htime : eligible a ≤ eligible b := Prod.Lex.monotone_fst _ _ hkey
  exact due_iff.mpr (htime.trans (due_iff.mp hdue))

/-! ## What is picked -/

/-- A walk of one step. -/
theorem takeDue_one (l : List Job) : takeDue now 1 l = ((l.head?.filter (due now)).toList).map Job.id := by
  cases l with
  | nil => rfl
  | cons job l =>
    rw [takeDue, List.takeWhile_cons, List.head?_cons, Option.filter_some]
    cases hdue : due now job with
    | true =>
      unfold due at hdue
      rw [if_pos hdue, if_pos rfl]
      rfl
    | false =>
      unfold due at hdue
      rw [if_neg (Bool.eq_false_iff.mp hdue), if_neg Bool.false_ne_true]
      rfl

/-- The index of one task is a part of what is queued. -/
theorem taskIndex_ready (hkeyed : Keyed Job.id s.engine.hot) (task : Binary) :
    TaskIndex.ready (fun _ ↦ true) (dispatchable s) queue task now 1 =
      ((sortBy TaskIndex.key ((queued s queue).filter fun job ↦ decide (worker job = task))).head?.filter
        (due now)).toList.map Job.id := by
  have hsort : ∀ a ∈ indexed (fun _ ↦ true) (dispatchable s),
      ∀ b ∈ indexed (fun _ ↦ true) (dispatchable s), TaskIndex.key a = TaskIndex.key b → a = b := by
    intro a ha b hb h
    exact Snapshot.indexed_inj (fun id job hjob ↦ hkeyed id job (dispatchable_hot hjob)) ha hb
      (Snapshot.taskKey_id h)
  have hfilter : (queued s queue).filter (fun job ↦ decide (worker job = task)) =
      (indexed (fun _ ↦ true) (dispatchable s)).filter fun job ↦
        job.definition.queueKey == queue && job.definition.workerKey == task := by
    rw [queued, List.filter_filter]
    refine List.filter_congr fun job _ ↦ ?_
    rw [Bool.eq_iff_iff, Bool.and_eq_true, Bool.and_eq_true, decide_eq_true_iff, beq_iff_eq, beq_iff_eq]
    exact and_comm
  rw [TaskIndex.ready, ← sortBy_filter hsort, takeDue_one, hfilter]

/-- `next_ready` looks at the heads. -/
theorem nextReady_eq (hkeyed : Keyed Job.id s.engine.hot) :
    nextReady s queue tasks now =
      (sortBy TaskIndex.key (heads TaskIndex.key worker (due now) tasks.dedup (queued s queue))).head? := by
  have hhead : ∀ task : Binary,
      (TaskIndex.ready (fun _ ↦ true) (dispatchable s) queue task now 1).filterMap
        (fun id ↦ s.engine.hot[id]?) =
      ((sortBy TaskIndex.key ((queued s queue).filter fun job ↦ decide (worker job = task))).head?.filter
        (due now)).toList := by
    intro task
    rw [taskIndex_ready hkeyed, List.filterMap_map]
    cases hcase : (sortBy TaskIndex.key
        ((queued s queue).filter fun job ↦ decide (worker job = task))).head?.filter (due now) with
    | none => rfl
    | some job =>
      have hmem := (first_of_head? (Option.filter_eq_some_iff.mp hcase).1).1
      have hhot := ((mem_queued hkeyed).mp (List.mem_of_mem_filter hmem)).1
      simp only [Option.toList_some, List.filterMap_cons, Function.comp_apply, hhot, List.filterMap_nil]
  simp only [nextReady, hhead, heads]

/-- **What is picked** is the first of the ready jobs by the key of the index. -/
theorem nextReady_eq_some (hkeyed : Keyed Job.id s.engine.hot) :
    nextReady s queue tasks now = some job ↔ First TaskIndex.key (ready s queue tasks now) job := by
  have hinj : ∀ a ∈ queued s queue, ∀ b ∈ queued s queue, TaskIndex.key a = TaskIndex.key b → a = b :=
    queued_inj hkeyed Snapshot.taskKey_id
  have htaken : takeable worker (due now) tasks.dedup (queued s queue) = ready s queue tasks now :=
    List.filter_congr fun a _ ↦ congrArg (due now a && ·) (decide_eq_decide.mpr List.mem_dedup)
  rw [nextReady_eq hkeyed, head?_sortBy, first_heads_iff hinj fun a ha b hb htask hle hdue ↦
    due_of_le hkeyed ha hb htask hle hdue, htaken]
  exact fun a ha b hb ↦ hinj a (mem_takeable.mp (mem_heads ha).1).1 b (mem_takeable.mp (mem_heads hb).1).1

theorem exists_nextReady (hkeyed : Keyed Job.id s.engine.hot) (h : job ∈ ready s queue tasks now) :
    ∃ picked, nextReady s queue tasks now = some picked := by
  obtain ⟨picked, hpicked⟩ := exists_first TaskIndex.key h
  exact ⟨picked, (nextReady_eq_some hkeyed).mpr hpicked⟩

/-- The oldest of the ready jobs comes first by name as well. -/
def Leads (s : State) (queue : Binary) (tasks : List Binary) (now : ℕ) : Prop :=
  ∀ first other, First dispatchKey (ready s queue tasks now) first → other ∈ ready s queue tasks now →
    ByName (worker first) (worker other)

/-- **Selection is fair** when the oldest ready job is of the first task by name, and only then. Of any
other two jobs the index compares the tasks, whatever their times. -/
theorem selection_fair {vm : Runtime} (h : (machine vm).Reachable s) (limiter : RateLimiter.Limiter)
    (queue : Binary) (monotonic : ℤ) (now : ℕ) :
    (∀ job, nextReady s queue (candidates s limiter queue monotonic) now = some job →
        First dispatchKey (ready s queue (candidates s limiter queue monotonic) now) job) ↔
      Leads s queue (candidates s limiter queue monotonic) now := by
  have hkeyed : Keyed Job.id s.engine.hot := (reachable_books vm h).counted.keyed
  generalize candidates s limiter queue monotonic = tasks
  have hinj : ∀ a ∈ ready s queue tasks now, ∀ b ∈ ready s queue tasks now,
      dispatchKey a = dispatchKey b → a = b := fun a ha b hb ↦
    queued_inj hkeyed dispatchKey_id a (mem_takeable.mp ha).1 b (mem_takeable.mp hb).1
  constructor
  · intro hfair first other hfirst hother
    obtain ⟨picked, hpicked⟩ := exists_nextReady hkeyed hfirst.1
    obtain rfl := hfirst.unique hinj (hfair picked hpicked)
    have hle := ((nextReady_eq_some hkeyed).mp hpicked).2 other hother
    rcases (taskKey_le_iff hkeyed (mem_takeable.mp hfirst.1).1 (mem_takeable.mp hother).1).mp hle with
      hlt | ⟨heq, -⟩
    · exact hlt.le
    · exact le_of_eq (congrArg binaryKey heq)
  · intro hleads picked hpicked
    obtain ⟨hmem, hleast⟩ := (nextReady_eq_some hkeyed).mp hpicked
    obtain ⟨first, hfirst⟩ := exists_first dispatchKey hmem
    have hname := hleads first picked hfirst hmem
    rcases (taskKey_le_iff hkeyed (mem_takeable.mp hmem).1 (mem_takeable.mp hfirst.1).1).mp
      (hleast first hfirst.1) with hlt | ⟨-, hle⟩
    · exact absurd hlt (not_lt.mpr hname)
    · exact ⟨hmem, fun b hb ↦ hle.trans (hfirst.2 b hb)⟩

/-! ## Whether it can be taken -/

/-- Whether `Dispatcher.select` would reserve an executor for a job of this task and queue. -/
def reservable (s : State) (queue task : Binary) : Bool :=
  decide (task ∉ s.registry) && decide (task ∉ s.workers) &&
    decide (s.executorServer = some s.link.pid) &&
    (Executor.Registry.choose s.link.server.connections task (some queue)).isSome

/-- Whether it would find anyone. -/
def servable (s : State) (queue task : Binary) : Bool :=
  decide (task ∈ s.registry) || reservable s queue task

theorem reservable_iff {task : Binary} : reservable s queue task = true ↔
    task ∉ s.registry ∧ task ∉ s.workers ∧ s.executorServer = some s.link.pid ∧
      (Executor.Registry.choose s.link.server.connections task (some queue)).isSome = true := by
  simp only [reservable, Bool.and_eq_true, decide_eq_true_eq, and_assoc]

theorem servable_iff {task : Binary} : servable s queue task = true ↔
    task ∈ s.registry ∨ reservable s queue task = true := by
  rw [servable, Bool.or_eq_true, decide_eq_true_eq]

/-- The state stays as it is between the search and the reservation: a server that is there comes to the
request next, under an identifier that is new. -/
structure Undisturbed (s : State) (c : Claim) : Prop where
  inbox : s.link.inbox = []
  reserving : c.reserving = if s.executorServer = some s.link.pid then [.serve] else []
  fresh : s.link.server.reservations[c.reservation]? = none
  unissued : c.reservation ∉ s.link.issued

/-- A reservation is granted when there is a connection to choose. -/
theorem answer_reserve {server : Executor.Server} {task : Binary} {queue : Option Binary}
    {reservation : ℕ} : server.answer (.reserve task queue reservation) = .ok () ↔
      (Executor.Registry.choose server.connections task queue).isSome = true := by
  cases hchoose : Executor.Registry.choose server.connections task queue with
  | none =>
    have hrefused : server.reserve task queue reservation = .error .unavailable := by
      rw [Executor.Server.reserve, hchoose]
    rw [Executor.Server.answer, hrefused]
    exact iff_of_false (fun h ↦ by cases h) Bool.false_ne_true
  | some connection =>
    obtain ⟨entry, hentry, -⟩ := Executor.Registry.choose_serves hchoose
    obtain ⟨r, hgranted⟩ : ∃ r, server.reserve task queue reservation = .ok r := by
      rw [Executor.Server.reserve, hchoose]
      simp only [hentry]
      exact ⟨_, rfl⟩
    rw [Executor.Server.answer, hgranted]
    exact iff_of_true rfl rfl

theorem call_reserve {c : Claim} (hc : Undisturbed s c) {server : ℕ} (hserver : s.executorServer = some server)
    (task : Binary) : ∃ r, s.link.call server (.reserve task (some queue) c.reservation) c.reserving = some r ∧
      (r.2 = some (.ok ()) ↔ server = s.link.pid ∧
        (Executor.Registry.choose s.link.server.connections task (some queue)).isSome = true) := by
  have hturns : c.reserving = if server = s.link.pid then [Turn.serve] else [] := by
    simpa only [hserver, Option.some_inj] using hc.reserving
  by_cases hpid : server = s.link.pid
  · rw [if_pos hpid] at hturns
    have hadmits : (s.link.server.admits (.reserve task (some queue) c.reservation) &&
        decide (Disjoint (drawn (.reserve task (some queue) c.reservation)) s.link.issued)) = true := by
      simp only [Executor.Server.admits, hc.fresh, drawn, Finset.disjoint_singleton_left, hc.unissued,
        Option.isNone_none, not_false_iff, decide_true, Bool.and_self]
    simp only [Link.call, hturns, hc.inbox, List.nil_append, Link.await, List.isEmpty_nil,
      if_true, Link.handle, hadmits, Executor.Server.handle, Option.map_some, Option.some_inj, exists_eq_left',
      answer_reserve, hpid, true_and]
  · rw [if_neg hpid] at hturns
    refine ⟨(s.link, none), ?_, iff_of_false (fun h ↦ ?_) fun h ↦ hpid h.1⟩
    · rw [Link.call, if_neg hpid, hturns]
      rfl
    · cases h

/-- What the control step finds, when nothing comes between. -/
theorem select_iff {c : Claim} (hc : Undisturbed s c) (hqueue : job.definition.queueKey = queue) :
    ∃ r, select s job c = some r ∧ (r.2 ≠ .unavailable ↔ servable s queue (worker job) = true) := by
  rw [servable_iff, reservable_iff]
  simp only [select, worker, hqueue]
  split
  case isTrue hlocal => exact ⟨_, rfl, iff_of_true (fun h ↦ by cases h) (.inl hlocal)⟩
  case isFalse hlocal =>
    split
    case isTrue hworker => exact ⟨_, rfl, by simp only [ne_eq, not_true_eq_false, hlocal, hworker, false_and, and_false, or_false]⟩
    case isFalse hworker =>
      cases hserver : s.executorServer with
      | none => exact ⟨_, rfl, by simp only [ne_eq, not_true_eq_false, hlocal, reduceCtorEq, false_and, and_false, or_false]⟩
      | some server =>
        obtain ⟨r, hr, hgranted⟩ := @call_reserve _ queue _ hc _ hserver job.definition.workerKey
        simp only [hr, Option.bind_eq_bind, Option.bind_some, hlocal, hworker, false_or, not_false_eq_true,
          true_and, Option.some_inj, ← hgranted]
        split
        case h_1 hok => exact ⟨_, rfl, iff_of_true (fun h ↦ by cases h) hok⟩
        case h_2 hrefused => exact ⟨_, rfl, iff_of_false (fun h ↦ h rfl) hrefused⟩

/-- Somebody can take the first, by name, of the tasks with a ready job. -/
def Served (s : State) (queue : Binary) (tasks : List Binary) (now : ℕ) : Prop :=
  ∀ task, First binaryKey ((ready s queue tasks now).map worker) task → servable s queue task = true

theorem mem_waiting {job : Job} (h : job ∈ ready s queue tasks now) : job ∈ waiting s queue now := by
  obtain ⟨hqueued, hdue, -⟩ := mem_takeable.mp h
  exact List.mem_filter.mpr ⟨hqueued, hdue⟩

/-- The task of the job that is picked is the first by name. -/
theorem first_worker (hkeyed : Keyed Job.id s.engine.hot)
    (h : nextReady s queue tasks now = some job) :
    First binaryKey ((ready s queue tasks now).map worker) (worker job) := by
  obtain ⟨hmem, hleast⟩ := (nextReady_eq_some hkeyed).mp h
  refine ⟨List.mem_map_of_mem hmem, fun task htask ↦ ?_⟩
  obtain ⟨other, hother, rfl⟩ := List.mem_map.mp htask
  rcases (taskKey_le_iff hkeyed (mem_takeable.mp hmem).1 (mem_takeable.mp hother).1).mp
    (hleast other hother) with hlt | ⟨heq, -⟩
  · exact hlt.le
  · exact le_of_eq (congrArg binaryKey heq)

/-- **No job blocks its queue**, while another could be reserved, exactly when somebody can take the first
task by name of those that are on offer and have a ready job. -/
theorem queue_unblocked {vm : Runtime} (h : (machine vm).Reachable s) (limiter : RateLimiter.Limiter)
    (queue : Binary) (monotonic : ℤ) (c : Claim)
    (htasks : c.tasks = candidates s limiter queue monotonic) (hc : Undisturbed s c) :
    ((∃ job ∈ waiting s queue c.now, reservable s queue (worker job) = true) →
        ∀ job r, nextReady s queue c.tasks c.now = some job → select s job c = some r →
          r.2 ≠ .unavailable) ↔
      ((∃ job ∈ waiting s queue c.now, reservable s queue (worker job) = true) →
        Served s queue (candidates s limiter queue monotonic) c.now) := by
  have hkeyed : Keyed Job.id s.engine.hot := (reachable_books vm h).counted.keyed
  rw [htasks]
  refine imp_congr_right fun _ ↦ ⟨fun hgoes task htask ↦ ?_, fun hserved job r hpicked hselect ↦ ?_⟩
  · obtain ⟨other, hother, -⟩ := List.mem_map.mp htask.1
    obtain ⟨job, hpicked⟩ := exists_nextReady hkeyed hother
    have hworker := first_worker hkeyed hpicked
    have hqueue := (mem_queued hkeyed).mp
      (mem_takeable.mp ((nextReady_eq_some hkeyed).mp hpicked).1).1
    obtain ⟨r, hr, hiff⟩ := select_iff hc hqueue.2.2.2.2
    rw [htask.unique (fun a _ b _ hab ↦ CountKey.binaryKey_injective hab) hworker]
    exact hiff.mp (hgoes job r hpicked hr)
  · have hqueue := (mem_queued hkeyed).mp
      (mem_takeable.mp ((nextReady_eq_some hkeyed).mp hpicked).1).1
    obtain ⟨r', hr, hiff⟩ := select_iff hc hqueue.2.2.2.2
    rw [hselect, Option.some_inj] at hr
    subst hr
    exact hiff.mpr (hserved _ (first_worker hkeyed hpicked))

/-! ## Two tasks -/

namespace Sample

open Tay.Sample

def named (task : String) : Definition := { definition with workerKey := text task }

/-- A worker offers a task to every queue, and an HTTP worker offers another to another queue only; then a
job of each task is inserted, the one that the HTTP worker offers second. -/
def offering : List Event :=
  [.turn (.receive (.accepted 1 1)), .turn (.receive (.hello 1 ⟨.worker, text "w", 1⟩)),
    .turn (.receive (.registerTasks 1 [text "b"])),
    .turn (.receive (.registerHttpWorker (text "h") [text "a"] 1 (text "other") 2 2 2)),
    .executorServerReady 0,
    .commands [(.insert ⟨1, 0, 10, .inserted (named "b") 10⟩ .persistent, Engine.Sample.writer)],
    .commands [(.insert ⟨2, 0, 11, .inserted (named "a") 11⟩ .persistent, Engine.Sample.writer)]]

/-- No rule at all. -/
def unlimited : RateLimiter.Limiter := RateLimiter.new fun _ ↦ ∅

/-- The older job is of the later task. -/
def inserted (s : State) : Bool :=
  (s.engine.hot[1]?).any (fun job ↦ decide (job.state = .available ∧ job.eligibleAt = some 10 ∧
    job.definition.queueKey = text "q" ∧ job.definition.workerKey = text "b")) &&
  (s.engine.hot[2]?).any (fun job ↦ decide (job.state = .available ∧ job.eligibleAt = some 11 ∧
    job.definition.queueKey = text "q" ∧ job.definition.workerKey = text "a")) &&
  s.engine.hot.toList.all fun e ↦
    decide (e.2.definition.workerKey = text "a" ∧ e.2.eligibleAt = some 11 ∨
      e.2.definition.workerKey = text "b")

/-- Both tasks are on offer, and one of them to the queue. -/
def offered (s : State) : Bool :=
  decide (s.held = ∅ ∧ s.registry = ∅ ∧ s.workers = ∅ ∧ text "q" ∈ s.queues) &&
  decide (s.executorServer = some s.link.pid ∧ s.link.inbox = [] ∧
    s.link.server.reservations[7]? = none ∧ s.link.issued = ∅) &&
  decide (text "a" ∈ Executor.Registry.capabilities s.link.server.connections ∧
    text "b" ∈ Executor.Registry.capabilities s.link.server.connections ∧
    (Executor.Registry.choose s.link.server.connections (text "a") (some (text "q"))).isSome = false ∧
    (Executor.Registry.choose s.link.server.connections (text "b") (some (text "q"))).isSome = true)

/-- The claim that is made after that. -/
def claiming (s : State) : Claim :=
  { claim with tasks := candidates s unlimited (text "q") 0 }

end Sample

/-- Where two tasks are on offer, and their jobs are ready. -/
structure Sample.Offered (s : State) : Prop where
  reachable : (machine Tay.Sample.runtime).Reachable s
  older : ∃ job ∈ waiting s (text "q") 13, job.eligibleAt = some 10 ∧ worker job = text "b" ∧
    job ∈ ready s (text "q") (candidates s Sample.unlimited (text "q") 0) 13
  later : ∃ job ∈ ready s (text "q") (candidates s Sample.unlimited (text "q") 0) 13, worker job = text "a"
  others : ∀ job ∈ waiting s (text "q") 13,
    worker job = text "a" ∧ job.eligibleAt = some 11 ∨ worker job = text "b"
  undisturbed : Undisturbed s (Sample.claiming s)
  taken : reservable s (text "q") (text "b") = true
  refused : servable s (text "q") (text "a") = false

theorem Sample.exists_offered : ∃ s, Sample.Offered s := by
  have hrun : ((machine Tay.Sample.runtime).run Sample.start Sample.offering).any (fun s ↦
      Sample.inserted s && Sample.offered s) = true := by
    decide +kernel
  obtain ⟨s, hs, h⟩ := (Option.any_eq_true _ _).mp hrun
  have hreachable := Machine.reachable_of_run Sample.starts hs
  have hkeyed : Keyed Job.id s.engine.hot := (reachable_books _ hreachable).counted.keyed
  simp only [Sample.inserted, Sample.offered, Bool.and_eq_true, decide_eq_true_eq, List.all_eq_true,
    Option.any_eq_true] at h
  obtain ⟨⟨⟨⟨b, hb, hbstate, hbtime, hbqueue, hbtask⟩, a, ha, hastate, hatime, haqueue, hatask⟩, hall⟩,
    ⟨⟨hheld, hregistry, hworkers, hqueue⟩, hserver, hinbox, hfresh, hissued⟩, hoffera, hofferb, hrefused, htaken⟩ := h
  have hoffers : ∀ task ∈ Executor.Registry.capabilities s.link.server.connections,
      task ∈ candidates s Sample.unlimited (text "q") 0 := by
    intro task htask
    refine mem_candidates.mpr ⟨.inr ?_, ?_⟩
    · rwa [availableTasks, if_pos hserver]
    · refine RateLimiter.Limiter.allowed?_iff.mpr fun key q _ hq ↦ ?_
      simp [RateLimiter.Limiter.policy, Sample.unlimited, RateLimiter.new] at hq
  have hwaiting : ∀ job : Job, s.engine.hot[job.id]? = some job → job.state = .available →
      job.eligibleAt.any (· ≤ 13) = true → job.definition.queueKey = text "q" →
      job ∈ waiting s (text "q") 13 := by
    intro job hjob hstate htime hq
    refine List.mem_filter.mpr ⟨(mem_queued hkeyed).mpr ⟨hjob, ?_, ?_, hstate, hq⟩, htime⟩
    · rw [hheld]
      exact Finset.notMem_empty _
    · rwa [hq]
  have hready : ∀ job ∈ waiting s (text "q") 13,
      worker job ∈ Executor.Registry.capabilities s.link.server.connections →
      job ∈ ready s (text "q") (candidates s Sample.unlimited (text "q") 0) 13 := by
    intro job hjob htask
    obtain ⟨hq, hdue⟩ := List.mem_filter.mp hjob
    exact mem_takeable.mpr ⟨hq, hdue, hoffers _ htask⟩
  have hb' := hwaiting b (by rwa [hkeyed 1 b hb]) hbstate (by rw [hbtime]; rfl) hbqueue
  have ha' := hwaiting a (by rwa [hkeyed 2 a ha]) hastate (by rw [hatime]; rfl) haqueue
  refine ⟨s, hreachable, ⟨b, hb', hbtime, hbtask, hready b hb' (by rwa [worker, hbtask])⟩,
    ⟨a, hready a ha' (by rwa [worker, hatask]), hatask⟩, ?_, ⟨hinbox, ?_, hfresh, ?_⟩, ?_, ?_⟩
  · intro job hjob
    have hhot := ((mem_queued hkeyed).mp (List.mem_of_mem_filter hjob)).1
    exact hall (job.id, job) (Std.ExtTreeMap.mem_toList_iff_getElem?_eq_some.mpr hhot)
  · rw [if_pos hserver]
    rfl
  · rw [hissued]
    exact Finset.notMem_empty _
  · refine reservable_iff.mpr ⟨?_, ?_, hserver, htaken⟩
    · rw [hregistry]
      exact Finset.notMem_empty _
    · rw [hworkers]
      exact Finset.notMem_empty _
  · refine Bool.eq_false_iff.mpr fun h ↦ ?_
    rcases servable_iff.mp h with hlocal | h
    · rw [hregistry] at hlocal
      exact Finset.notMem_empty _ hlocal
    · have := (reservable_iff.mp h).2.2.2
      rw [hrefused] at this
      cases this

/-- The job that is picked is the younger one. -/
theorem Sample.Offered.picks (h : Sample.Offered s) {job : Job}
    (hjob : nextReady s (text "q") (candidates s Sample.unlimited (text "q") 0) 13 = some job) :
    worker job = text "a" ∧ job.eligibleAt = some 11 := by
  have hkeyed : Keyed Job.id s.engine.hot := (reachable_books _ h.reachable).counted.keyed
  obtain ⟨hmem, hfirst⟩ := first_worker hkeyed hjob
  obtain ⟨later, hlater, htask⟩ := h.later
  have hle := hfirst _ (List.mem_map_of_mem hlater)
  rcases h.others job (mem_waiting ((nextReady_eq_some hkeyed).mp hjob).1) with ha | hb
  · exact ha
  · rw [htask, hb] at hle
    exact absurd hle (by decide)

theorem selection_fair_offered : ∃ s, Sample.Offered s ∧
    ((∀ job, nextReady s (text "q") (candidates s Sample.unlimited (text "q") 0) 13 = some job →
        First dispatchKey (ready s (text "q") (candidates s Sample.unlimited (text "q") 0) 13) job) ↔
      Leads s (text "q") (candidates s Sample.unlimited (text "q") 0) 13) := by
  obtain ⟨s, hs⟩ := Sample.exists_offered
  exact ⟨s, hs, selection_fair hs.reachable Sample.unlimited (text "q") 0 13⟩

/-- The older job is passed over for its task's name. -/
theorem selection_unfair : ¬ ∀ s, (machine Tay.Sample.runtime).Reachable s →
    ∀ limiter queue monotonic now job,
      nextReady s queue (candidates s limiter queue monotonic) now = some job →
      First dispatchKey (ready s queue (candidates s limiter queue monotonic) now) job := by
  intro hall
  obtain ⟨s, hs⟩ := Sample.exists_offered
  have hkeyed : Keyed Job.id s.engine.hot := (reachable_books _ hs.reachable).counted.keyed
  obtain ⟨old, -, htime, -, hold⟩ := hs.older
  obtain ⟨job, hjob⟩ := exists_nextReady hkeyed hold
  obtain ⟨-, hfirst⟩ := hall s hs.reachable _ _ _ _ job hjob
  have hle : eligible job ≤ eligible old := Prod.Lex.monotone_fst _ _ (hfirst old hold)
  rw [eligible, eligible, (hs.picks hjob).2, htime] at hle
  exact absurd (WithTop.coe_le_coe.mp hle) (by decide)

theorem queue_unblocked_offered : ∃ s, Sample.Offered s ∧
    (((∃ job ∈ waiting s (text "q") 13, reservable s (text "q") (worker job) = true) →
        ∀ job r, nextReady s (text "q") (candidates s Sample.unlimited (text "q") 0) 13 = some job →
          select s job (Sample.claiming s) = some r → r.2 ≠ .unavailable) ↔
      ((∃ job ∈ waiting s (text "q") 13, reservable s (text "q") (worker job) = true) →
        Served s (text "q") (candidates s Sample.unlimited (text "q") 0) 13)) := by
  obtain ⟨s, hs⟩ := Sample.exists_offered
  exact ⟨s, hs, queue_unblocked hs.reachable Sample.unlimited (text "q") 0 (Sample.claiming s) rfl
    hs.undisturbed⟩

/-- It is picked, and no executor takes it, while another job could be reserved. -/
theorem queue_blocked : ¬ ∀ s, (machine Tay.Sample.runtime).Reachable s →
    ∀ limiter queue monotonic (c : Claim), c.tasks = candidates s limiter queue monotonic →
      Undisturbed s c → (∃ job ∈ waiting s queue c.now, reservable s queue (worker job) = true) →
      ∀ job r, nextReady s queue c.tasks c.now = some job → select s job c = some r →
        r.2 ≠ .unavailable := by
  intro hall
  obtain ⟨s, hs⟩ := Sample.exists_offered
  have hkeyed : Keyed Job.id s.engine.hot := (reachable_books _ hs.reachable).counted.keyed
  obtain ⟨old, hwaiting, -, htask, hold⟩ := hs.older
  obtain ⟨job, hjob⟩ := exists_nextReady hkeyed hold
  have hqueue := (mem_queued hkeyed).mp (mem_takeable.mp ((nextReady_eq_some hkeyed).mp hjob).1).1
  obtain ⟨r, hr, hiff⟩ := select_iff hs.undisturbed hqueue.2.2.2.2
  have hserved := hiff.mp (hall s hs.reachable _ _ _ (Sample.claiming s) rfl hs.undisturbed
    ⟨old, hwaiting, by rw [htask]; exact hs.taken⟩ job r hjob hr)
  rw [(hs.picks hjob).1, hs.refused] at hserved
  cases hserved

end Execution

end Tay
