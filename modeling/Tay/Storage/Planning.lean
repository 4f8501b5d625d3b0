import Tay.Storage.Snapshot

/-!
# What a snapshot plan keeps

Facts about `Snapshot.retained` and `Snapshot.normalizeAvailability`. Retention removes the expired
jobs and nothing else. Renumbering changes availability orders and nothing else, and leaves the order
in which the ready jobs of a queue, or of a task within a queue, are dispatched.

The dispatch order is carried by one list: the available jobs by queue key, with their orders
forgotten. Two tables that agree there answer every `ready` query alike.
-/

open Foundation

namespace Tay

open V2

/-- A job without its availability order, and without its memory charge. -/
def Job.unnumbered (job : Job) : Job := { job with availabilityOrder := none, charge := none }

@[simp] theorem Job.unnumbered_durable (job : Job) : job.durable.unnumbered = job.unnumbered := rfl

theorem Job.unnumbered_of_durable {x y : Job} (h : x.durable = y.durable) :
    x.unnumbered = y.unnumbered := by
  rw [← x.unnumbered_durable, h, y.unnumbered_durable]

/-! ## Tables keyed by their entries -/

section Keyed

variable {α β : Type} [Ord α] [Std.TransOrd α] [Std.LawfulEqOrd α]

/-- Every entry is stored under its own id. -/
def Keyed (id : β → α) (t : Table α β) : Prop := ∀ (k : α) (x : β), t[k]? = some x → id x = k

theorem Keyed.insert {id : β → α} {t : Table α β} (h : Keyed id t) {k : α} {x : β}
    (hid : id x = k) : Keyed id (t.insert k x) := by
  intro l y hy
  rw [Std.ExtTreeMap.getElem?_insert] at hy
  split at hy
  · rename_i heq
    cases hy
    rw [hid]
    exact Std.LawfulEqCmp.compare_eq_iff_eq.mp heq
  · exact h l y hy

theorem insert_insert (t : Table α β) (k : α) (x y : β) :
    (t.insert k x).insert k y = t.insert k y := by
  refine Std.ExtTreeMap.ext_getElem? fun l ↦ ?_
  simp only [Std.ExtTreeMap.getElem?_insert]
  split <;> rfl

theorem insert_eq_none {t : Table α β} {k l : α} {x : β} (h : (t.insert k x)[l]? = none) :
    t[l]? = none ∧ k ≠ l := by
  rw [Std.ExtTreeMap.getElem?_insert] at h
  split at h
  · cases h
  · rename_i hne
    exact ⟨h, fun heq ↦ hne (Std.LawfulEqCmp.compare_eq_iff_eq.mpr heq)⟩

end Keyed

namespace Snapshot

/-! ## The dispatch order -/

/-- The ready jobs in the order of the queue index. -/
def dispatchOrder (jobs : Table JobId Job) : List Job :=
  sortBy QueueIndex.key (indexed (fun _ ↦ true) jobs)

theorem indexed_eq (tasks : Binary → Bool) (jobs : Table JobId Job) :
    indexed tasks jobs =
      (indexed (fun _ ↦ true) jobs).filter fun job ↦ tasks job.definition.workerKey := by
  rw [indexed, indexed, List.filter_filter]
  refine List.filter_congr ?_
  intro job _
  rw [Bool.and_true, Bool.and_comm]

theorem queueKey_id {x y : Job} (h : QueueIndex.key x = QueueIndex.key y) : x.id = y.id :=
  congrArg (fun k : QueueKey ↦ (ofLex (ofLex (ofLex k).2).2).2) h

theorem taskKey_id {x y : Job} (h : TaskIndex.key x = TaskIndex.key y) : x.id = y.id :=
  congrArg (fun k : TaskKey ↦ (ofLex (ofLex (ofLex (ofLex k).2).2).2).2) h

theorem mem_indexed {tasks : Binary → Bool} {jobs : Table JobId Job} {job : Job}
    (h : job ∈ indexed tasks jobs) : ∃ id : JobId, jobs[id]? = some job := by
  obtain ⟨hmem, -⟩ := List.mem_filter.mp h
  obtain ⟨⟨id, job'⟩, hentry, rfl⟩ := List.mem_map.mp hmem
  exact ⟨id, Std.ExtTreeMap.mem_toList_iff_getElem?_eq_some.mp hentry⟩

/-- Ids tell the jobs of a keyed table apart. -/
theorem indexed_inj {tasks : Binary → Bool} {jobs : Table JobId Job} (hkeyed : Keyed Job.id jobs)
    {x y : Job} (hx : x ∈ indexed tasks jobs) (hy : y ∈ indexed tasks jobs) (hid : x.id = y.id) :
    x = y := by
  obtain ⟨i, hi⟩ := mem_indexed hx
  obtain ⟨j, hj⟩ := mem_indexed hy
  have hij : i = j := by rw [← hkeyed i x hi, ← hkeyed j y hj, hid]
  rw [hij, hj] at hi
  exact (Option.some.inj hi).symm

theorem queueIndex_ready_eq {jobs : Table JobId Job} (hkeyed : Keyed Job.id jobs) (tasks : Binary → Bool)
    (queue : Binary) (now limit : ℕ) :
    QueueIndex.ready tasks jobs queue now limit =
      takeDue now limit ((dispatchOrder jobs).filter fun job ↦
        job.definition.queueKey == queue && tasks job.definition.workerKey) := by
  have hinj : ∀ x ∈ indexed (fun _ ↦ true) jobs, ∀ y ∈ indexed (fun _ ↦ true) jobs,
      QueueIndex.key x = QueueIndex.key y → x = y :=
    fun x hx y hy h ↦ indexed_inj hkeyed hx hy (queueKey_id h)
  rw [QueueIndex.ready, indexed_eq, sortBy_filter hinj, List.filter_filter, dispatchOrder]

/-- Within one task of one queue the two indexes agree. -/
theorem taskIndex_ready_eq {jobs : Table JobId Job} (hkeyed : Keyed Job.id jobs) (tasks : Binary → Bool)
    (queue task : Binary) (now limit : ℕ) :
    TaskIndex.ready tasks jobs queue task now limit =
      takeDue now limit ((dispatchOrder jobs).filter fun job ↦
        (job.definition.queueKey == queue && job.definition.workerKey == task) &&
          tasks job.definition.workerKey) := by
  have hinj : ∀ x ∈ indexed (fun _ ↦ true) jobs, ∀ y ∈ indexed (fun _ ↦ true) jobs,
      x.id = y.id → x = y := fun x hx y hy ↦ indexed_inj hkeyed hx hy
  rw [TaskIndex.ready, indexed_eq, sortBy_filter fun x hx y hy h ↦ hinj x hx y hy (taskKey_id h),
    List.filter_filter, ← sortBy_filter fun x hx y hy h ↦ hinj x hx y hy (taskKey_id h),
    dispatchOrder, ← sortBy_filter fun x hx y hy h ↦ hinj x hx y hy (queueKey_id h)]
  congr 1
  refine sortBy_congr ?_ ?_
  · intro x hx y hy h
    exact hinj x (List.mem_of_mem_filter hx) y (List.mem_of_mem_filter hy) (taskKey_id h)
  · intro x hx y hy hle
    -- both jobs are of this queue and this task, so the rest of the keys decides
    have hx' := (List.mem_filter.mp hx).2
    have hy' := (List.mem_filter.mp hy).2
    simp only [Bool.and_eq_true, beq_iff_eq] at hx' hy'
    simp only [QueueIndex.key, hx'.1.1, hy'.1.1, Prod.Lex.toLex_le_toLex, lt_irrefl, true_and,
      false_or] at hle
    simpa only [TaskIndex.key, hx'.1.1, hy'.1.1, hx'.1.2, hy'.1.2, Prod.Lex.toLex_le_toLex,
      lt_irrefl, true_and, false_or] using hle

/-- A walk of the index reads ids, definitions and due times only. -/
theorem takeDue_map_unnumbered (now limit : ℕ) (jobs : List Job) :
    takeDue now limit (jobs.map Job.unnumbered) = takeDue now limit jobs := by
  rw [takeDue, takeDue, List.takeWhile_map, ← List.map_take, List.map_map]
  rfl

theorem takeDue_congr {now limit : ℕ} {p : Definition → Bool} {l l' : List Job}
    (h : l'.map Job.unnumbered = l.map Job.unnumbered) :
    takeDue now limit (l'.filter fun job ↦ p job.definition) =
      takeDue now limit (l.filter fun job ↦ p job.definition) := by
  have hfilter (m : List Job) : (m.filter fun job ↦ p job.definition).map Job.unnumbered =
      (m.map Job.unnumbered).filter fun job ↦ p job.definition := by
    rw [List.filter_map]
    rfl
  rw [← takeDue_map_unnumbered, ← takeDue_map_unnumbered now limit (l.filter _), hfilter, hfilter, h]

/-- Two keyed tables with the same dispatch order answer alike. -/
theorem ready_congr {jobs jobs' : Table JobId Job} (hkeyed : Keyed Job.id jobs) (hkeyed' : Keyed Job.id jobs')
    (h : (dispatchOrder jobs').map Job.unnumbered = (dispatchOrder jobs).map Job.unnumbered) :
    (∀ tasks queue now limit, QueueIndex.ready tasks jobs' queue now limit =
        QueueIndex.ready tasks jobs queue now limit) ∧
      ∀ tasks queue task now limit, TaskIndex.ready tasks jobs' queue task now limit =
        TaskIndex.ready tasks jobs queue task now limit := by
  constructor
  · intro tasks queue now limit
    rw [queueIndex_ready_eq hkeyed, queueIndex_ready_eq hkeyed']
    exact takeDue_congr (p := fun d ↦ d.queueKey == queue && tasks d.workerKey) h
  · intro tasks queue task now limit
    rw [taskIndex_ready_eq hkeyed, taskIndex_ready_eq hkeyed']
    exact takeDue_congr
      (p := fun d ↦ (d.queueKey == queue && d.workerKey == task) && tasks d.workerKey) h

/-! ## Retention -/

/-- The job stored under `id` is dropped by a compaction with this retention and capture time. -/
def Expired (jobs : Table JobId Job) (retention : Retention) (capturedAt : ℕ) (id : JobId) : Prop :=
  ∃ job, jobs[id]? = some job ∧ classify job retention capturedAt = .ok .expire

theorem terminal_of_expire {job : Job} {retention : Retention} {now : ℕ}
    (h : classify job retention now = .ok .expire) : job.state.terminal = true := by
  by_contra hterminal
  simp only [Bool.not_eq_true] at hterminal
  rcases retention with _ | n | n <;>
    simp [classify, hterminal, bind_eq_ok, check_eq_ok] at h

theorem Expired.terminal {jobs : Table JobId Job} {retention : Retention} {capturedAt : ℕ}
    {id : JobId} (h : Expired jobs retention capturedAt id) : terminal? jobs[id]? = true := by
  obtain ⟨job, hjob, hclassify⟩ := h
  rw [hjob]
  exact terminal_of_expire hclassify

/-- A job of a source that is valid has passed every check. -/
theorem validateJob_of_validateSource {jobs : Table JobId Job} {u : Unit} (h : validateSource jobs = .ok u)
    {id : JobId} {job : Job} (hjob : jobs[id]? = some job) :
    job.id = id ∧ Codec.snapshot? job Value.defaults = .ok () := by
  obtain ⟨orders, horders, -⟩ := bind_eq_ok.mp h
  have hmem : (id, job) ∈ jobs.toList := Std.ExtTreeMap.mem_toList_iff_getElem?_eq_some.mpr hjob
  obtain ⟨a, b, hstep⟩ := fold_forall horders _ hmem
  simp only [validateJob, bind_eq_ok, check_eq_ok, beq_iff_eq] at hstep
  obtain ⟨-, hid, -, -, _, hsnapshot, -⟩ := hstep
  exact ⟨hid, hsnapshot⟩

theorem keyed_of_validateSource {jobs : Table JobId Job} {u : Unit}
    (h : validateSource jobs = .ok u) : Keyed Job.id jobs := by
  intro id job hjob
  exact (validateJob_of_validateSource h hjob).1

/-- The entries of a table name their keys once. -/
theorem nodup_keys (jobs : Table JobId Job) : (jobs.toList.map Prod.fst).Nodup := by
  have h := Std.ExtTreeMap.distinct_keys_toList (t := jobs)
  rw [List.nodup_iff_pairwise_ne, List.pairwise_map]
  refine h.imp ?_
  intro a b hab heq
  exact hab (by rw [heq]; exact Std.ReflCmp.compare_self)

theorem keepStep_other {retention : Retention} {capturedAt : ℕ} {l : List (JobId × Job)} {id : JobId}
    (hid : ∀ x ∈ l, x.1 ≠ id) : ∀ {k k' : Kept},
      fold (keepStep retention capturedAt) k l = .ok k' → k'.jobs[id]? = k.jobs[id]? := by
  induction l with
  | nil =>
    intro k k' h
    cases h
    rfl
  | cons x l ih =>
    intro k k' h
    obtain ⟨m, hm, h⟩ := bind_eq_ok.mp h
    rw [ih (fun y hy ↦ hid y (List.mem_cons_of_mem _ hy)) h]
    obtain ⟨verdict, hverdict, hm⟩ := bind_eq_ok.mp hm
    rcases verdict with _ | _
    · cases hm
      have hne : ¬x.1 = id := hid x List.mem_cons_self
      simp only [Std.ExtTreeMap.getElem?_insert, Std.LawfulEqCmp.compare_eq_iff_eq, hne, if_false]
    · cases hm
      rfl

theorem keepStep_mem {retention : Retention} {capturedAt : ℕ} {l : List (JobId × Job)}
    (hnodup : (l.map Prod.fst).Nodup) {x : JobId × Job} (hx : x ∈ l) : ∀ {k k' : Kept},
      fold (keepStep retention capturedAt) k l = .ok k' →
        (classify x.2 retention capturedAt = .ok .expire ∧ k'.jobs[x.1]? = k.jobs[x.1]?) ∨
          (classify x.2 retention capturedAt = .ok .retain ∧ k'.jobs[x.1]? = some x.2) := by
  induction l with
  | nil => exact nomatch hx
  | cons y l ih =>
    intro k k' h
    obtain ⟨m, hm, hrest⟩ := bind_eq_ok.mp h
    simp only [List.map_cons, List.nodup_cons] at hnodup
    obtain ⟨verdict, hverdict, hm⟩ := bind_eq_ok.mp hm
    rcases List.mem_cons.mp hx with rfl | hx
    · have hother : ∀ z ∈ l, z.1 ≠ x.1 := by
        intro z hz heq
        exact hnodup.1 (heq ▸ List.mem_map_of_mem hz)
      rw [keepStep_other hother hrest]
      rcases verdict with _ | _
      · cases hm
        exact .inr ⟨hverdict, Std.ExtTreeMap.getElem?_insert_self⟩
      · cases hm
        exact .inl ⟨hverdict, rfl⟩
    · have hne : ¬y.1 = x.1 := fun heq ↦ hnodup.1 (heq ▸ List.mem_map_of_mem hx)
      have hkeep : m.jobs[x.1]? = k.jobs[x.1]? := by
        rcases verdict with _ | _
        · cases hm
          simp only [Std.ExtTreeMap.getElem?_insert, Std.LawfulEqCmp.compare_eq_iff_eq, hne,
            if_false]
        · cases hm
          rfl
      rw [← hkeep]
      exact ih hnodup.2 hx hrest

/-- **Retention.** Exactly the expired jobs are dropped. -/
theorem retained_spec {jobs : Table JobId Job} {retention : Retention} {capturedAt : ℕ} {kept : Kept}
    (h : retained jobs retention capturedAt = .ok kept) :
    Keyed Job.id jobs ∧ (∀ id, Expired jobs retention capturedAt id → kept.jobs[id]? = none) ∧
      ∀ id, ¬Expired jobs retention capturedAt id → kept.jobs[id]? = jobs[id]? := by
  simp only [retained, bind_eq_ok] at h
  obtain ⟨-, -, -, -, u, hvalid, h⟩ := h
  have hmem {id : JobId} {job : Job} (hjob : jobs[id]? = some job) : (id, job) ∈ jobs.toList :=
    Std.ExtTreeMap.mem_toList_iff_getElem?_eq_some.mpr hjob
  refine ⟨keyed_of_validateSource hvalid, ?_, ?_⟩
  · rintro id ⟨job, hjob, hclassify⟩
    rcases keepStep_mem (nodup_keys jobs) (hmem hjob) h with ⟨-, hkept⟩ | ⟨hretain, -⟩
    · rw [hkept]
      exact Std.ExtTreeMap.getElem?_empty
    · rw [hclassify] at hretain
      cases hretain
  · intro id hid
    rcases hjob : jobs[id]? with _ | job
    · rw [keepStep_other _ h]
      · exact Std.ExtTreeMap.getElem?_empty
      · rintro ⟨id', job⟩ hx rfl
        rw [Std.ExtTreeMap.mem_toList_iff_getElem?_eq_some] at hx
        rw [hx] at hjob
        cases hjob
    · rcases keepStep_mem (nodup_keys jobs) (hmem hjob) h with ⟨hexpire, -⟩ | ⟨-, hkept⟩
      · exact absurd ⟨job, hjob, hexpire⟩ hid
      · exact hkept

/-! ## Renumbering -/

theorem numberStep_other {acc : Table JobId Job} {x : (JobId × Job) × ℕ} {id : JobId}
    (hid : x.1.1 ≠ id) : (numberStep acc x)[id]? = acc[id]? := by
  unfold numberStep
  split
  · rfl
  · simp only [Std.ExtTreeMap.getElem?_insert, Std.LawfulEqCmp.compare_eq_iff_eq, hid, if_false]

theorem numberStep_self {acc : Table JobId Job} {x : (JobId × Job) × ℕ}
    (hx : acc[x.1.1]? = some x.1.2) :
    (numberStep acc x)[x.1.1]? = some { x.1.2 with availabilityOrder := some x.2 } := by
  unfold numberStep
  split
  · rename_i horder
    rw [hx, ← beq_iff_eq.mp horder]
  · exact Std.ExtTreeMap.getElem?_insert_self

theorem foldl_number_other {xs : List ((JobId × Job) × ℕ)} {id : JobId}
    (hid : ∀ x ∈ xs, x.1.1 ≠ id) :
    ∀ acc : Table JobId Job, (xs.foldl numberStep acc)[id]? = acc[id]? := by
  induction xs with
  | nil => exact fun _ ↦ rfl
  | cons x xs ih =>
    intro acc
    rw [List.foldl_cons, ih fun y hy ↦ hid y (List.mem_cons_of_mem _ hy),
      numberStep_other (hid x List.mem_cons_self)]

theorem foldl_number_mem {xs : List ((JobId × Job) × ℕ)}
    (hnodup : (xs.map fun x ↦ x.1.1).Nodup) {x : (JobId × Job) × ℕ} (hx : x ∈ xs) :
    ∀ acc : Table JobId Job, (∀ y ∈ xs, acc[y.1.1]? = some y.1.2) →
      (xs.foldl numberStep acc)[x.1.1]? = some { x.1.2 with availabilityOrder := some x.2 } := by
  induction xs with
  | nil => exact nomatch hx
  | cons y xs ih =>
    intro acc hacc
    simp only [List.map_cons, List.nodup_cons] at hnodup
    have hother : ∀ z ∈ xs, z.1.1 ≠ y.1.1 := by
      intro z hz heq
      exact hnodup.1 (heq ▸ List.mem_map_of_mem hz)
    rw [List.foldl_cons]
    rcases List.mem_cons.mp hx with rfl | hx
    · rw [foldl_number_other hother, numberStep_self (hacc _ List.mem_cons_self)]
    · refine ih hnodup.2 hx _ ?_
      intro z hz
      rw [numberStep_other (hother z hz).symm]
      exact hacc z (List.mem_cons_of_mem _ hz)

theorem mem_availableSorted {jobs : Table JobId Job} {x : JobId × Job} :
    x ∈ availableSorted jobs ↔ jobs[x.1]? = some x.2 ∧ x.2.state = .available := by
  rw [availableSorted, mem_sortBy, List.mem_filter, beq_iff_eq]
  exact and_congr_left fun _ ↦ Std.ExtTreeMap.mem_toList_iff_getElem?_eq_some

theorem nodup_available (jobs : Table JobId Job) :
    ((jobs.toList.filter fun entry ↦ entry.2.state == .available).map Prod.fst).Nodup :=
  (nodup_keys jobs).sublist (List.filter_sublist.map Prod.fst)

theorem nodup_availableSorted (jobs : Table JobId Job) :
    ((availableSorted jobs).map Prod.fst).Nodup :=
  ((sortBy_perm _ _).map Prod.fst).nodup_iff.mpr (nodup_available jobs)

theorem availabilityKey_fst {x y : JobId × Job} (h : availabilityKey x = availabilityKey y) :
    x.1 = y.1 := queueKey_id h

theorem available_inj {jobs : Table JobId Job} :
    ∀ x ∈ jobs.toList.filter fun entry ↦ entry.2.state == .available,
      ∀ y ∈ jobs.toList.filter fun entry ↦ entry.2.state == .available,
        availabilityKey x = availabilityKey y → x = y := by
  rintro ⟨i, x⟩ hx ⟨j, y⟩ hy h
  obtain rfl : i = j := availabilityKey_fst h
  have hx' := Std.ExtTreeMap.mem_toList_iff_getElem?_eq_some.mp (List.mem_of_mem_filter hx)
  have hy' := Std.ExtTreeMap.mem_toList_iff_getElem?_eq_some.mp (List.mem_of_mem_filter hy)
  rw [hx'] at hy'
  rw [Option.some.inj hy']

/-- The job at place `i` of the canonical order gets the order `i + 1`. -/
theorem normalize_get {jobs : Table JobId Job} {i : ℕ} {x : JobId × Job}
    (h : (availableSorted jobs)[i]? = some x) :
    (normalizeAvailability jobs)[x.1]? = some { x.2 with availabilityOrder := some (i + 1) } := by
  have hnodup : (((availableSorted jobs).zipIdx 1).map fun x ↦ x.1.1).Nodup := by
    have hmap : ((availableSorted jobs).zipIdx 1).map (fun x ↦ x.1.1) =
        (availableSorted jobs).map Prod.fst := by
      rw [← List.zipIdx_map_fst 1 (availableSorted jobs), List.map_map]
      simp
    rw [hmap]
    exact nodup_availableSorted jobs
  have hmem : (x, i + 1) ∈ (availableSorted jobs).zipIdx 1 :=
    List.mk_mem_zipIdx_iff_le_and_getElem?_sub.mpr ⟨by omega, by simpa using h⟩
  refine foldl_number_mem hnodup hmem jobs ?_
  intro y hy
  obtain ⟨-, hy⟩ := List.mem_zipIdx_iff_le_and_getElem?_sub.mp hy
  exact (mem_availableSorted.mp (List.mem_of_getElem? hy)).1

theorem normalize_get_other {jobs : Table JobId Job} {id : JobId}
    (h : ∀ job, jobs[id]? = some job → job.state ≠ .available) :
    (normalizeAvailability jobs)[id]? = jobs[id]? := by
  refine foldl_number_other ?_ jobs
  rintro x hx rfl
  obtain ⟨-, hx⟩ := List.mem_zipIdx_iff_le_and_getElem?_sub.mp hx
  obtain ⟨hjob, hstate⟩ := mem_availableSorted.mp (List.mem_of_getElem? hx)
  exact h _ hjob hstate

/-- An available job has a place. -/
theorem exists_place {jobs : Table JobId Job} {id : JobId} {job : Job} (hjob : jobs[id]? = some job)
    (hstate : job.state = .available) :
    ∃ i : ℕ, (availableSorted jobs)[i]? = some (id, job) :=
  List.mem_iff_getElem?.mp (mem_availableSorted.mpr ⟨hjob, hstate⟩)

/-- Renumbering changes availability orders only. -/
theorem normalize_unnumbered (jobs : Table JobId Job) (id : JobId) :
    ((normalizeAvailability jobs)[id]?).map Job.unnumbered = (jobs[id]?).map Job.unnumbered := by
  by_cases h : ∃ job, jobs[id]? = some job ∧ job.state = .available
  · obtain ⟨job, hjob, hstate⟩ := h
    obtain ⟨i, hi⟩ := exists_place hjob hstate
    rw [normalize_get hi, hjob]
    rfl
  · rw [normalize_get_other fun job hjob hstate ↦ h ⟨job, hjob, hstate⟩]

/-- The normalized job under `id`, when it is available, says where `id` stands. -/
theorem place_of_normalize {jobs : Table JobId Job} {id : JobId} {job : Job}
    (h : (normalizeAvailability jobs)[id]? = some job) (hstate : job.state = .available) :
    ∃ (i : ℕ) (job' : Job), (availableSorted jobs)[i]? = some (id, job') ∧
      job = { job' with availabilityOrder := some (i + 1) } := by
  have hunnumbered := normalize_unnumbered jobs id
  rw [h, Option.map_some] at hunnumbered
  obtain ⟨job', hjob', heq⟩ := Option.map_eq_some_iff.mp hunnumbered.symm
  have hstate' : job'.state = .available := by
    have := congrArg Job.state heq
    exact this.trans hstate
  obtain ⟨i, hi⟩ := exists_place hjob' hstate'
  rw [normalize_get hi] at h
  exact ⟨i, job', hi, (Option.some.inj h).symm⟩

/-! ## Equivalence -/

/-- Who stands where, with orders forgotten. -/
def places (jobs : Table JobId Job) : List (JobId × Job) :=
  (availableSorted jobs).map fun x ↦ (x.1, x.2.unnumbered)

theorem durable_get (jobs : Table JobId Job) (id : JobId) :
    (durable jobs)[id]? = (jobs[id]?).map Job.durable := by
  rw [durable, Std.ExtTreeMap.getElem?_map]

theorem unnumbered_of_durable_eq {jobs jobs' : Table JobId Job}
    (h : durable (normalizeAvailability jobs) = durable (normalizeAvailability jobs'))
    (id : JobId) : (jobs[id]?).map Job.unnumbered = (jobs'[id]?).map Job.unnumbered := by
  have hforget (t : Table JobId Job) :
      ((durable (normalizeAvailability t))[id]?).map Job.unnumbered =
        (t[id]?).map Job.unnumbered := by
    rw [← normalize_unnumbered t, durable_get, Option.map_map]
    rfl
  rw [← hforget jobs, h, hforget jobs']

theorem place_of_durable_eq {jobs jobs' : Table JobId Job}
    (h : durable (normalizeAvailability jobs) = durable (normalizeAvailability jobs')) {i : ℕ}
    {x : JobId × Job} (hx : (availableSorted jobs)[i]? = some x) :
    ∃ y : JobId × Job, (availableSorted jobs')[i]? = some y ∧
      (y.1, y.2.unnumbered) = (x.1, x.2.unnumbered) := by
  have hget := congrArg (fun t : Table JobId Job ↦ t[x.1]?) h
  simp only [durable_get, normalize_get hx, Option.map_some] at hget
  obtain ⟨job, hjob, heq⟩ := Option.map_eq_some_iff.mp hget.symm
  have hstate : job.state = .available := by
    have := congrArg Job.state heq
    exact this.trans (mem_availableSorted.mp (List.mem_of_getElem? hx)).2
  obtain ⟨j, job', hj, rfl⟩ := place_of_normalize hjob hstate
  have horder := congrArg Job.availabilityOrder heq
  simp only [Job.durable_availabilityOrder, Option.some.injEq, Nat.add_right_cancel_iff] at horder
  subst horder
  have hunnumbered := Job.unnumbered_of_durable heq
  exact ⟨_, hj, Prod.ext rfl hunnumbered⟩

/-- Equal normal forms put the same jobs in the same places. -/
theorem places_of_durable_eq {jobs jobs' : Table JobId Job}
    (h : durable (normalizeAvailability jobs) = durable (normalizeAvailability jobs')) :
    places jobs = places jobs' := by
  refine List.ext_getElem? fun i ↦ ?_
  rw [places, places, List.getElem?_map, List.getElem?_map]
  rcases hx : (availableSorted jobs)[i]? with _ | x
  · rcases hy : (availableSorted jobs')[i]? with _ | y
    · rfl
    · obtain ⟨x, hx', -⟩ := place_of_durable_eq h.symm hy
      rw [hx] at hx'
      cases hx'
  · obtain ⟨y, hy, heq⟩ := place_of_durable_eq h hx
    rw [hy, Option.map_some, Option.map_some, heq]

/-- The canonical order, renumbered. -/
def numbered (jobs : Table JobId Job) : List (JobId × Job) :=
  ((availableSorted jobs).zipIdx 1).map fun x ↦
    (x.1.1, { x.1.2 with availabilityOrder := some x.2 })

theorem numbered_getElem? (jobs : Table JobId Job) (i : ℕ) :
    (numbered jobs)[i]? = ((availableSorted jobs)[i]?).map fun x ↦
      (x.1, { x.2 with availabilityOrder := some (i + 1) }) := by
  rw [numbered, List.getElem?_map, List.getElem?_zipIdx, Option.map_map, Nat.add_comm]
  rfl

theorem mem_numbered {jobs : Table JobId Job} {x : JobId × Job} :
    x ∈ numbered jobs ↔
      (normalizeAvailability jobs)[x.1]? = some x.2 ∧ x.2.state = .available := by
  rw [List.mem_iff_getElem?]
  constructor
  · rintro ⟨i, hi⟩
    rw [numbered_getElem?] at hi
    obtain ⟨y, hy, rfl⟩ := Option.map_eq_some_iff.mp hi
    have hget := normalize_get hy
    exact ⟨hget, (mem_availableSorted.mp (List.mem_of_getElem? hy)).2⟩
  · rintro ⟨hget, hstate⟩
    obtain ⟨i, job', hi, hjob⟩ := place_of_normalize hget hstate
    refine ⟨i, ?_⟩
    rw [numbered_getElem?, hi, Option.map_some, ← hjob]

theorem nodup_numbered (jobs : Table JobId Job) : (numbered jobs).Nodup := by
  have hfst : (numbered jobs).map Prod.fst = (availableSorted jobs).map Prod.fst := by
    refine List.ext_getElem? fun i ↦ ?_
    rw [List.getElem?_map, List.getElem?_map, numbered_getElem?, Option.map_map]
    rfl
  have hnodup := nodup_availableSorted jobs
  rw [← hfst] at hnodup
  exact hnodup.of_map

/-- A smaller place is a smaller key once the places are the orders: queue and due time compare as
before, and the place decides the rest. -/
theorem numbered_key {x y : JobId × Job} {m n : ℕ} (h : availabilityKey x ≤ availabilityKey y)
    (hmn : m < n) :
    availabilityKey (x.1, { x.2 with availabilityOrder := some m }) ≤
      availabilityKey (y.1, { y.2 with availabilityOrder := some n }) := by
  have hlt : (m : WithTop ℕ) < (n : WithTop ℕ) := WithTop.coe_lt_coe.mpr hmn
  simp only [availabilityKey, QueueIndex.key, Prod.Lex.toLex_le_toLex] at h ⊢
  rcases h with h | ⟨hqueue, h | ⟨hdue, -⟩⟩
  · exact .inl h
  · exact .inr ⟨hqueue, .inl h⟩
  · exact .inr ⟨hqueue, .inr ⟨hdue, .inl hlt⟩⟩

theorem pairwise_numbered (jobs : Table JobId Job) :
    (numbered jobs).Pairwise fun x y ↦ availabilityKey x ≤ availabilityKey y := by
  have hsorted := pairwise_sortBy availabilityKey
    (jobs.toList.filter fun entry ↦ entry.2.state == .available)
  rw [List.pairwise_iff_getElem] at hsorted ⊢
  intro i j hi hj hij
  have hlength : (numbered jobs).length = (availableSorted jobs).length := by
    rw [numbered, List.length_map, List.length_zipIdx]
  have hget (k : ℕ) (hk : k < (numbered jobs).length) : (numbered jobs)[k] =
      (((availableSorted jobs)[k]).1,
        { ((availableSorted jobs)[k]).2 with availabilityOrder := some (k + 1) }) := by
    have h := numbered_getElem? jobs k
    rw [List.getElem?_eq_getElem hk, List.getElem?_eq_getElem (hlength ▸ hk)] at h
    exact Option.some.inj h
  rw [hget i hi, hget j hj]
  exact numbered_key (hsorted i j (hlength ▸ hi) (hlength ▸ hj) hij) (by omega)

/-- The renumbered jobs stand in the same order. -/
theorem availableSorted_normalize (jobs : Table JobId Job) :
    availableSorted (normalizeAvailability jobs) = numbered jobs := by
  refine sortBy_eq available_inj ?_ (pairwise_numbered jobs)
  refine (List.perm_ext_iff_of_nodup (nodup_numbered jobs) (nodup_available _).of_map).mpr ?_
  intro x
  rw [mem_numbered, ← mem_availableSorted, availableSorted, mem_sortBy]

/-- Renumbering leaves everyone in place. -/
theorem places_normalize (jobs : Table JobId Job) :
    places (normalizeAvailability jobs) = places jobs := by
  refine List.ext_getElem? fun i ↦ ?_
  rw [places, availableSorted_normalize, places, List.getElem?_map, List.getElem?_map, numbered_getElem?,
    Option.map_map]
  rfl

/-- Jobs that are not ready play no part. -/
theorem availableSorted_congr {jobs jobs' : Table JobId Job}
    (h : ∀ (id : JobId) (job : Job), job.state = .available →
      (jobs'[id]? = some job ↔ jobs[id]? = some job)) :
    availableSorted jobs' = availableSorted jobs := by
  refine sortBy_eq available_inj ?_ (pairwise_sortBy _ _)
  refine (List.perm_ext_iff_of_nodup (nodup_availableSorted jobs).of_map
    (nodup_available jobs').of_map).mpr ?_
  rintro ⟨id, job⟩
  rw [← mem_sortBy (k := availabilityKey) (l := jobs'.toList.filter _)]
  change _ ∈ availableSorted jobs ↔ _ ∈ availableSorted jobs'
  rw [mem_availableSorted, mem_availableSorted]
  exact and_congr_left fun hstate ↦ (h id job hstate).symm

/-- Memory charges play no part either. -/
theorem places_durable (jobs : Table JobId Job) : places (durable jobs) = places jobs := by
  have hsorted : availableSorted (durable jobs) =
      (availableSorted jobs).map fun x ↦ (x.1, x.2.durable) := by
    rw [availableSorted, durable, Std.ExtTreeMap.toList_map, List.filter_map]
    exact sortBy_map _ fun _ _ _ _ ↦ Iff.rfl
  rw [places, hsorted, List.map_map, places]
  rfl

theorem dispatchOrder_eq {jobs : Table JobId Job} (hkeyed : Keyed Job.id jobs) :
    (dispatchOrder jobs).map Job.unnumbered = (places jobs).map Prod.snd := by
  have hindexed : indexed (fun _ ↦ true) jobs =
      (jobs.toList.filter fun entry ↦ entry.2.state == .available).map Prod.snd := by
    rw [indexed, List.filter_map]
    simp only [Bool.and_true]
    rfl
  have hkey : ∀ x ∈ jobs.toList.filter fun entry ↦ entry.2.state == .available,
      availabilityKey x = QueueIndex.key x.2 := by
    rintro ⟨id, job⟩ hx
    have hjob := Std.ExtTreeMap.mem_toList_iff_getElem?_eq_some.mp (List.mem_of_mem_filter hx)
    rw [availabilityKey, ← hkeyed id job hjob]
  rw [dispatchOrder, hindexed, sortBy_map Prod.snd (k := availabilityKey), places, availableSorted,
    List.map_map, List.map_map]
  · rfl
  · intro x hx y hy
    rw [hkey x hx, hkey y hy]

end Snapshot

end Tay
