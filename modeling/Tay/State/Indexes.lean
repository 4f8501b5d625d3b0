import Tay.State.Projection

/-!
# Updates of the private indexes

Each operation of `Tay.State.Projection` takes the old entries of one job out of the indexes and puts
its new ones in. `replace` and `delete` do so for the stored version. `hold` and `release` are given
whatever version their caller has, and only the entries in the indexes of ready jobs are at stake. A job
may be held in an older version once the stored one is not ready any more, for then nothing is left to
take out; and it may be released in any version that is not ready, as long as the stored one is not ready
either. `Stale` is that condition.

So every operation keeps `Represents`, and `valid?` then finds nothing.
-/

open Foundation

namespace Tay

open V2

namespace Projection

/-! ## Entries -/

section Entries

variable {κ ν : Type} [Ord κ] [Std.TransOrd κ] [Std.LawfulEqOrd κ] [DecidableEq κ]
  {test test' : Job → Bool} {key : Job → κ} {value : Job → ν} {job : Job}

theorem drop_entryOf (index : Table κ ν) (test : Job → Bool) (key : Job → κ) (value : Job → ν) (job : Job) :
    drop index ((entryOf test key value job).map Prod.fst) =
      if test job then index.erase (key job) else index := by
  unfold entryOf
  split
  · rfl
  · rfl

theorem put_entryOf (index : Table κ ν) (test : Job → Bool) (key : Job → κ) (value : Job → ν) (job : Job) :
    put index (entryOf test key value job) =
      if test job then index.insert (key job) (value job) else index := by
  unfold entryOf
  split
  · rfl
  · rfl

theorem entryOf_eq_some {k : κ} {v : ν} :
    entryOf test key value job = some (k, v) ↔ test job = true ∧ key job = k ∧ value job = v := by
  unfold entryOf
  split
  case isTrue h => simp only [Option.some_inj, Prod.mk.injEq, h, true_and]
  case isFalse h => simp only [reduceCtorEq, h, false_and]

theorem named_entryOf {owner : κ → JobId} {t : Table JobId Job} (hkeyed : Keyed Job.id t)
    (howner : ∀ job, owner (key job) = job.id) : Named Job.id owner (entryOf test key value) t := by
  refine ⟨hkeyed, fun b k v h ↦ ?_⟩
  obtain ⟨-, rfl, -⟩ := entryOf_eq_some.mp h
  exact howner b

theorem keyed_erase {t : Table JobId Job} (h : Keyed Job.id t) (id : JobId) : Keyed Job.id (t.erase id) := by
  intro k stored hstored
  rw [Foundation.Table.get_erase] at hstored
  split at hstored
  · cases hstored
  · exact h k stored hstored

/-- One job changes. -/
theorem lists_replace (owner : κ → JobId) {t : Table JobId Job} {index : Table κ ν}
    (h : Lists (entryOf test key value) t index) (hkeyed : Keyed Job.id t)
    (howner : ∀ job, owner (key job) = job.id) (job : Job) :
    Lists (entryOf test key value) (t.insert job.id job)
      (put (drop index ((t[job.id]?.bind (entryOf test key value)).map Prod.fst)) (entryOf test key value job)) := by
  have hmoved := h.moved (named_entryOf hkeyed howner) (named_entryOf (hkeyed.insert rfl) howner)
    (i := job.id) (fun j hj ↦ by rw [Foundation.Table.get_insert, if_neg fun heq ↦ hj heq.symm]) fun _ _ ↦ rfl
  rwa [Foundation.Table.get_insert, if_pos rfl, Option.bind_some] at hmoved

/-- One job goes. -/
theorem lists_delete (owner : κ → JobId) {t : Table JobId Job} {index : Table κ ν}
    (h : Lists (entryOf test key value) t index) (hkeyed : Keyed Job.id t)
    (howner : ∀ job, owner (key job) = job.id) (id : JobId) :
    Lists (entryOf test key value) (t.erase id)
      (drop index ((t[id]?.bind (entryOf test key value)).map Prod.fst)) := by
  have hmoved := h.moved (named_entryOf hkeyed howner) (named_entryOf (keyed_erase hkeyed id) howner)
    (i := id) (fun j hj ↦ by rw [Foundation.Table.get_erase, if_neg fun heq ↦ hj heq.symm]) fun _ _ ↦ rfl
  rwa [Foundation.Table.get_erase, if_pos rfl, Option.bind_none] at hmoved

/-- One job is no longer wanted, given in whatever version, if the stored one is wanted only as that. -/
theorem lists_drop (owner : κ → JobId) {t : Table JobId Job} {index : Table κ ν}
    (h : Lists (entryOf test key value) t index) (hkeyed : Keyed Job.id t)
    (howner : ∀ job, owner (key job) = job.id) {job : Job}
    (hothers : ∀ b : Job, b.id ≠ job.id → test' b = test b)
    (hgone : ∀ b : Job, b.id = job.id → test' b = false)
    (hstored : ∀ q, t[job.id]? = some q → test q = true → job = q) :
    Lists (entryOf test' key value) t (drop index ((entryOf test key value job).map Prod.fst)) := by
  have hentry : ∀ b : Job, b.id ≠ job.id → entryOf test' key value b = entryOf test key value b := by
    intro b hb
    rw [entryOf, entryOf, hothers b hb]
  have hmoved := h.moved (named_entryOf hkeyed howner) (named_entryOf hkeyed howner) (fun _ _ ↦ rfl) hentry
  have hnew : t[job.id]?.bind (entryOf test' key value) = none := by
    cases hq : t[job.id]? with
    | none => rfl
    | some q =>
      rw [Option.bind_some, entryOf, hgone q (hkeyed _ _ hq)]
      rfl
  rw [hnew] at hmoved
  cases hold : t[job.id]?.bind (entryOf test key value) with
  | none =>
    -- nothing stands for the job, so nothing goes
    rw [hold] at hmoved
    rwa [h.drop_free (named_entryOf hkeyed howner) hold]
    intro k hk
    obtain ⟨e, he, rfl⟩ := Option.map_eq_some_iff.mp hk
    obtain ⟨-, hkey, -⟩ := entryOf_eq_some.mp he
    rw [← hkey, howner]
  | some e =>
    obtain ⟨q, hq, he⟩ := Option.bind_eq_some_iff.mp hold
    rw [hold, ← he] at hmoved
    rwa [hstored q hq (entryOf_eq_some.mp he).1]

/-- One job may be wanted again, given in a version whose entry is that of the stored one. -/
theorem lists_put (owner : κ → JobId) {t : Table JobId Job} {index : Table κ ν}
    (h : Lists (entryOf test key value) t index) (hkeyed : Keyed Job.id t)
    (howner : ∀ job, owner (key job) = job.id) {job : Job}
    (hothers : ∀ b : Job, b.id ≠ job.id → test' b = test b)
    (hmore : ∀ b : Job, test b = true → test' b = true)
    (hstored : t[job.id]?.bind (entryOf test' key value) = entryOf test' key value job) :
    Lists (entryOf test' key value) t (put index (entryOf test' key value job)) := by
  have hentry : ∀ b : Job, b.id ≠ job.id → entryOf test' key value b = entryOf test key value b := by
    intro b hb
    rw [entryOf, entryOf, hothers b hb]
  have hmoved := h.moved (named_entryOf hkeyed howner) (named_entryOf hkeyed howner) (fun _ _ ↦ rfl) hentry
  rw [hstored] at hmoved
  cases hold : t[job.id]?.bind (entryOf test key value) with
  | none =>
    rw [hold] at hmoved
    exact hmoved
  | some e =>
    -- the entry is there already
    obtain ⟨q, hq, he⟩ := Option.bind_eq_some_iff.mp hold
    have hsame : entryOf test' key value q = entryOf test key value q := by
      have htest := (entryOf_eq_some.mp he).1
      rw [entryOf, entryOf, htest, hmore q htest]
    have hnew : entryOf test' key value job = some e := by
      rw [← hstored, hq, Option.bind_some, hsame, he]
    have hput : put (drop index (some e.1)) (some e) = put index (some e) := by
      apply Std.ExtTreeMap.ext_getElem?
      intro k
      rw [get_put, get_put, get_drop, Option.map_some]
      by_cases hk : some e.1 = some k
      · rw [if_pos hk, if_pos hk]
      · rw [if_neg hk, if_neg hk, if_neg hk]
    rw [hold, hnew, Option.map_some, hput] at hmoved
    rwa [hnew]

end Entries

/-! ## The operations -/

variable {p : Projection} {job : Job}

/-- The job a key of each index is for. -/
def queueOwner (k : QueueKey) : JobId := (ofLex (ofLex (ofLex k).2).2).2

def taskOwner (k : TaskKey) : JobId := queueOwner (ofLex k).2

def scheduleOwner (k : SchedulerKey) : JobId := (ofLex k).2

def orderOwner (k : InspectionKey) : JobId := (ofLex k).2

theorem facets_nodup (job : Job) : (InspectionIndex.facets job).Nodup := by
  simp [InspectionIndex.facets]

/-- What `replace` does to an index, whichever it is. -/
theorem replace_index {κ ν : Type} [Ord κ] [Std.TransOrd κ] [Std.LawfulEqOrd κ] [DecidableEq κ]
    (test : Job → Bool) (key : Job → κ) (value : Job → ν) (previous : Option Job) (job : Job)
    (index : Table κ ν) :
    put (drop index ((previous.bind (entryOf test key value)).map Prod.fst)) (entryOf test key value job) =
      (let cleared := match previous with
        | some q => if test q then index.erase (key q) else index
        | none => index
      if test job then cleared.insert (key job) (value job) else cleared) := by
  rw [put_entryOf]
  cases previous with
  | none => rfl
  | some q => rw [Option.bind_some, drop_entryOf]

/-- **Replacing the stored version.** A job keeps the time of its insertion. -/
theorem Represents.replace (h : Represents p) {previous : Option Job} (hprevious : previous = p.jobs[job.id]?)
    (hinserted : ∀ q, previous = some q → q.insertedAt = job.insertedAt) :
    Represents (p.replace previous job) := by
  subst hprevious
  have hqueue := lists_replace queueOwner h.queue h.keyed (fun _ ↦ rfl) job
  have htask := lists_replace taskOwner h.task h.keyed (fun _ ↦ rfl) job
  have hready := lists_replace queueOwner h.ready h.keyed (fun _ ↦ rfl) job
  have hschedule := lists_replace scheduleOwner h.schedule h.keyed (fun _ ↦ rfl) job
  have horder := lists_replace orderOwner h.order h.keyed (fun _ ↦ rfl) job
  rw [replace_index] at hqueue htask hready hschedule
  have hkeyed := h.keyed.insert (k := job.id) (x := job) rfl
  cases hq : p.jobs[job.id]? with
  | none =>
    rw [hq] at hqueue htask hready hschedule horder
    exact ⟨hkeyed, hqueue, htask, hready, hschedule, horder, h.counts.insert (facets_nodup job) hq⟩
  | some q =>
    rw [hq] at hqueue htask hready hschedule horder
    refine ⟨hkeyed, hqueue, htask, hready, hschedule, ?_,
      h.counts.replace (facets_nodup q) (facets_nodup job) hq⟩
    -- the order has one key for the job, before and after
    have hkey : InspectionIndex.key q = InspectionIndex.key job := by
      rw [InspectionIndex.key, InspectionIndex.key, hinserted q hq, h.keyed _ _ hq]
    have hput : put (drop p.inspection.order (some (InspectionIndex.key q)))
        (some (InspectionIndex.key job, job.id)) = p.inspection.order.insert (InspectionIndex.key job) job.id := by
      rw [hkey]
      exact insert_erase _ _ _
    have hsame : Lists (entryOf (fun _ ↦ true) InspectionIndex.key Job.id) (p.jobs.insert job.id job)
        (put (drop p.inspection.order (some (InspectionIndex.key q)))
          (some (InspectionIndex.key job, job.id))) := horder
    rwa [hput] at hsame

/-- **Deleting the stored version.** -/
theorem Represents.delete (h : Represents p) (hjob : p.jobs[job.id]? = some job) :
    Represents (p.delete job) := by
  have hqueue := lists_delete queueOwner h.queue h.keyed (fun _ ↦ rfl) job.id
  have htask := lists_delete taskOwner h.task h.keyed (fun _ ↦ rfl) job.id
  have hready := lists_delete queueOwner h.ready h.keyed (fun _ ↦ rfl) job.id
  have hschedule := lists_delete scheduleOwner h.schedule h.keyed (fun _ ↦ rfl) job.id
  have horder := lists_delete orderOwner h.order h.keyed (fun _ ↦ rfl) job.id
  rw [hjob, Option.bind_some, drop_entryOf] at hqueue htask hready hschedule
  rw [hjob] at horder
  exact ⟨keyed_erase h.keyed job.id, hqueue, htask, hready, hschedule, horder,
    h.counts.erase (facets_nodup job) hjob⟩

/-- A version of a job that the indexes of ready jobs do not tell from the stored one: it is the stored
one, or neither is ready. -/
def Stale (p : Projection) (job : Job) : Prop :=
  p.jobs[job.id]? = some job ∨
    job.state ≠ .available ∧ ∀ q, p.jobs[job.id]? = some q → q.state ≠ .available

theorem available_state {b : Job} (h : p.available b = true) : b.state = .available := by
  simp only [available, Bool.and_eq_true, beq_iff_eq] at h
  exact h.1.1.1

theorem taskAvailable_state {b : Job} (h : p.taskAvailable b = true) : b.state = .available := by
  simp only [taskAvailable, Bool.and_eq_true, beq_iff_eq] at h
  exact h.1.1

/-- Its entry, if it has one, is that of the stored version. -/
theorem Stale.entry (h : Stale p job) {κ ν : Type} {test : Job → Bool} {key : Job → κ} {value : Job → ν}
    (htest : ∀ b, test b = true → b.state = .available) :
    p.jobs[job.id]?.bind (entryOf test key value) = entryOf test key value job := by
  have hnone : ∀ b : Job, b.state ≠ .available → entryOf test key value b = none :=
    fun b hb ↦ if_neg fun hready ↦ hb (htest b hready)
  rcases h with hjob | ⟨hjob, hothers⟩
  · rw [hjob, Option.bind_some]
  · rw [hnone job hjob, Option.bind_eq_none_iff]
    exact fun q hq ↦ hnone q (hothers q hq)

theorem mem_hold {id : JobId} : id ∈ (p.hold job).held ↔ id = job.id ∨ id ∈ p.held := Finset.mem_insert

theorem mem_release {id : JobId} : id ∈ (p.release job).held ↔ id ≠ job.id ∧ id ∈ p.held := Finset.mem_erase

/-- **Holding a job.** What is taken out is what stands for the stored version, if that is ready. -/
theorem Represents.hold (h : Represents p)
    (hjob : ∀ q, p.jobs[job.id]? = some q → q.state = .available → job = q) : Represents (p.hold job) := by
  have hothers : ∀ b : Job, b.id ≠ job.id → decide (b.id ∉ (p.hold job).held) = decide (b.id ∉ p.held) := by
    intro b hb
    simp only [mem_hold, hb, false_or]
  have hgone : ∀ b : Job, b.id = job.id → decide (b.id ∉ (p.hold job).held) = false :=
    fun b hb ↦ decide_eq_false fun hout ↦ hout (mem_hold.mpr (.inl hb))
  have havailable : ∀ b : Job, b.id ≠ job.id → (p.hold job).available b = p.available b :=
    fun b hb ↦ congrArg (_ && ·) (hothers b hb)
  have htaskAvailable : ∀ b : Job, b.id ≠ job.id → (p.hold job).taskAvailable b = p.taskAvailable b :=
    fun b hb ↦ congrArg (_ && ·) (hothers b hb)
  have hnone : ∀ b : Job, b.id = job.id → (p.hold job).available b = false := by
    intro b hb
    rw [available, hgone b hb, Bool.and_false]
  have htaskNone : ∀ b : Job, b.id = job.id → (p.hold job).taskAvailable b = false := by
    intro b hb
    rw [taskAvailable, hgone b hb, Bool.and_false]
  have hqueue := lists_drop queueOwner h.queue h.keyed (fun _ ↦ rfl) havailable hnone
    fun q hq hready ↦ hjob q hq (available_state hready)
  have htask := lists_drop taskOwner h.task h.keyed (fun _ ↦ rfl) htaskAvailable htaskNone
    fun q hq hready ↦ hjob q hq (taskAvailable_state hready)
  have hready := lists_drop queueOwner h.ready h.keyed (fun _ ↦ rfl) htaskAvailable htaskNone
    fun q hq hready ↦ hjob q hq (taskAvailable_state hready)
  rw [drop_entryOf] at hqueue htask hready
  exact ⟨h.keyed, hqueue, htask, hready, h.schedule, h.order, h.counts⟩

/-- **Releasing a job.** -/
theorem Represents.release (h : Represents p) (hjob : Stale p job) : Represents (p.release job) := by
  have hothers : ∀ b : Job, b.id ≠ job.id → decide (b.id ∉ (p.release job).held) = decide (b.id ∉ p.held) := by
    intro b hb
    simp only [mem_release, ne_eq, hb, not_false_eq_true, true_and]
  have hmore : ∀ b : Job, decide (b.id ∉ p.held) = true → decide (b.id ∉ (p.release job).held) = true := by
    intro b hb
    exact decide_eq_true fun hin ↦ of_decide_eq_true hb (mem_release.mp hin).2
  have havailable : ∀ b : Job, b.id ≠ job.id → (p.release job).available b = p.available b :=
    fun b hb ↦ congrArg (_ && ·) (hothers b hb)
  have htaskAvailable : ∀ b : Job, b.id ≠ job.id → (p.release job).taskAvailable b = p.taskAvailable b :=
    fun b hb ↦ congrArg (_ && ·) (hothers b hb)
  have hstill : ∀ b : Job, p.available b = true → (p.release job).available b = true := by
    intro b hb
    rw [available, Bool.and_eq_true] at hb ⊢
    exact ⟨hb.1, hmore b hb.2⟩
  have htaskStill : ∀ b : Job, p.taskAvailable b = true → (p.release job).taskAvailable b = true := by
    intro b hb
    rw [taskAvailable, Bool.and_eq_true] at hb ⊢
    exact ⟨hb.1, hmore b hb.2⟩
  have hqueue := lists_put queueOwner h.queue h.keyed (fun _ ↦ rfl) havailable hstill
    (hjob.entry fun _ ↦ available_state)
  have htask := lists_put taskOwner h.task h.keyed (fun _ ↦ rfl) htaskAvailable htaskStill
    (hjob.entry fun _ ↦ taskAvailable_state)
  have hready := lists_put queueOwner h.ready h.keyed (fun _ ↦ rfl) htaskAvailable htaskStill
    (hjob.entry fun _ ↦ taskAvailable_state)
  rw [put_entryOf] at hqueue htask hready
  exact ⟨h.keyed, hqueue, htask, hready, h.schedule, h.order, h.counts⟩

theorem Represents.releaseId (h : Represents p) {job : Option Job} {id : JobId}
    (hid : ∀ j, job = some j → j.id = id ∧ Stale p j) (hgone : job = none → p.jobs[id]? = none) :
    Represents (p.releaseId job id) := by
  cases job with
  | some j => exact h.release (hid j rfl).2
  | none =>
    -- the hold on an id without a job keeps nothing out of an index
    have hnone := hgone rfl
    have hsame : ∀ b : Job, b.id ≠ id → decide (b.id ∉ p.held.erase id) = decide (b.id ∉ p.held) := by
      intro b hb
      simp only [Finset.mem_erase, ne_eq, hb, not_false_eq_true, true_and]
    have hlists : ∀ {κ ν : Type} [Ord κ] [Std.TransOrd κ] [Std.LawfulEqOrd κ] {test test' : Job → Bool}
        {key : Job → κ} {value : Job → ν} {index : Table κ ν}, (∀ b : Job, b.id ≠ id → test' b = test b) →
        Lists (entryOf test key value) p.jobs index → Lists (entryOf test' key value) p.jobs index := by
      intro κ ν _ _ _ test test' key value index htest hlists k v
      rw [hlists k v]
      refine exists_congr fun i ↦ exists_congr fun b ↦ and_congr_right fun hb ↦ ?_
      have hne : b.id ≠ id := by
        rintro rfl
        rw [h.keyed i b hb] at hnone
        rw [hnone] at hb
        cases hb
      rw [entryOf, entryOf, htest b hne]
    exact ⟨h.keyed, hlists (fun b hb ↦ congrArg (_ && ·) (hsame b hb)) h.queue,
      hlists (fun b hb ↦ congrArg (_ && ·) (hsame b hb)) h.task,
      hlists (fun b hb ↦ congrArg (_ && ·) (hsame b hb)) h.ready, h.schedule, h.order, h.counts⟩

/-! ## Loading -/

theorem represents_new (registry queues : Finset Binary) : Represents (new registry queues) := by
  refine ⟨fun id job hjob ↦ ?_, lists_empty, lists_empty, lists_empty, lists_empty, lists_empty, counts_empty⟩
  simp [new] at hjob

@[simp] theorem jobs_replace (p : Projection) (previous : Option Job) (job : Job) :
    (p.replace previous job).jobs = p.jobs.insert job.id job := by
  cases previous <;> rfl

@[simp] theorem held_replace (p : Projection) (previous : Option Job) (job : Job) :
    (p.replace previous job).held = p.held := by
  cases previous <;> rfl

theorem held_load (p : Projection) (jobs : Table JobId Job) : (p.load jobs).held = p.held := by
  unfold load
  induction jobs.toList generalizing p with
  | nil => rfl
  | cons e l ih => rw [List.foldl_cons, ih, held_replace]

theorem load_entries {l : List (JobId × Job)} (hdistinct : l.Pairwise fun a b ↦ a.1 ≠ b.1) :
    ∀ {p : Projection}, Represents p → (∀ e ∈ l, e.2.id = e.1 ∧ p.jobs[e.1]? = none) →
      Represents (l.foldl (fun p entry ↦ p.replace none entry.2) p) ∧
        ∀ id job, (l.foldl (fun p entry ↦ p.replace none entry.2) p).jobs[id]? = some job ↔
          (id, job) ∈ l ∨ p.jobs[id]? = some job := by
  induction l with
  | nil =>
    intro p h _
    exact ⟨h, fun id job ↦ by simp⟩
  | cons e l ih =>
    intro p h hfresh
    obtain ⟨hid, hnone⟩ := hfresh e List.mem_cons_self
    rw [List.pairwise_cons] at hdistinct
    have hprevious : none = p.jobs[e.2.id]? := by rw [hid, hnone]
    have hnext := h.replace hprevious fun q hq ↦ by cases hq
    obtain ⟨hrest, hjobs⟩ := ih hdistinct.2 hnext fun x hx ↦ by
      refine ⟨(hfresh x (List.mem_cons_of_mem _ hx)).1, ?_⟩
      rw [jobs_replace, Foundation.Table.get_insert, hid, if_neg (hdistinct.1 x hx)]
      exact (hfresh x (List.mem_cons_of_mem _ hx)).2
    refine ⟨hrest, fun id job ↦ ?_⟩
    rw [List.foldl_cons, hjobs, jobs_replace, Foundation.Table.get_insert, hid, List.mem_cons, or_assoc,
      or_left_comm]
    refine or_congr_right ?_
    by_cases hsame : e.1 = id
    · subst hsame
      rw [if_pos rfl, hnone, Option.some_inj]
      constructor
      · rintro rfl
        exact .inl rfl
      · rintro (h | h)
        · exact (congrArg Prod.snd h).symm
        · cases h
    · rw [if_neg hsame]
      constructor
      · exact .inr
      · rintro (h | h)
        · exact absurd (congrArg Prod.fst h).symm hsame
        · exact h

/-- **Loading a table of jobs** builds its indexes. -/
theorem represents_load {jobs : Table JobId Job} (hkeyed : Keyed Job.id jobs) (registry queues : Finset Binary) :
    Represents ((new registry queues).load jobs) ∧ ((new registry queues).load jobs).jobs = jobs := by
  have hdistinct : jobs.toList.Pairwise fun a b ↦ a.1 ≠ b.1 :=
    Std.ExtTreeMap.distinct_keys_toList.imp fun hne heq ↦ hne (Std.LawfulEqCmp.compare_eq_iff_eq.mpr heq)
  obtain ⟨hrepresents, hjobs⟩ := load_entries hdistinct (represents_new registry queues) fun e he ↦
    ⟨hkeyed _ _ (Std.ExtTreeMap.mem_toList_iff_getElem?_eq_some.mp he), by simp [new]⟩
  refine ⟨hrepresents, Std.ExtTreeMap.ext_getElem? fun {id} ↦ Option.ext fun job ↦ ?_⟩
  have hiff := hjobs id job
  rw [Std.ExtTreeMap.mem_toList_iff_getElem?_eq_some] at hiff
  simpa [load, new] using hiff

/-! ## What `valid?` finds -/

theorem filterMap_entryOf {κ ν : Type} (test : Job → Bool) (key : Job → κ) (value : Job → ν) (l : List Job) :
    l.filterMap (entryOf test key value) = (l.filter test).map fun job ↦ (key job, value job) := by
  induction l with
  | nil => rfl
  | cons job l ih =>
    by_cases htest : test job = true
    · have hentry : entryOf test key value job = some (key job, value job) := if_pos htest
      rw [List.filterMap_cons_some hentry, List.filter_cons_of_pos htest, List.map_cons, ih]
    · have hentry : entryOf test key value job = none := if_neg htest
      rw [List.filterMap_cons_none hentry, List.filter_cons_of_neg htest, ih]

/-- An exact index is a permutation of the one that is recomputed. -/
theorem isPerm_index {κ ν : Type} [Ord κ] [Std.TransOrd κ] [Std.LawfulEqOrd κ] [DecidableEq κ]
    [BEq (κ × ν)] [LawfulBEq (κ × ν)]
    {test : Job → Bool} {key : Job → κ} {value : Job → ν} (owner : κ → JobId) {t : Table JobId Job}
    {index : Table κ ν} (h : Lists (entryOf test key value) t index) (hkeyed : Keyed Job.id t)
    (howner : ∀ job, owner (key job) = job.id) :
    (((t.toList.map Prod.snd).filter test).map fun job ↦ (key job, value job)).isPerm index.toList = true := by
  rw [List.isPerm_iff, ← filterMap_entryOf, List.filterMap_map]
  exact h.perm (named_entryOf hkeyed howner)

/-- Counting up never meets the counters that come to zero. -/
theorem mapIncrement_eq {counts : Table CountKey ℤ} (h : ∀ (k : CountKey) (v : ℤ), counts[k]? = some v → 0 < v)
    (job : Job) : InspectionIndex.mapIncrement counts job 1 = bumps counts (InspectionIndex.facets job) 1 ∧
      ∀ (k : CountKey) (v : ℤ), (InspectionIndex.mapIncrement counts job 1)[k]? = some v → 0 < v := by
  unfold InspectionIndex.mapIncrement bumps
  induction InspectionIndex.facets job generalizing counts with
  | nil => exact ⟨rfl, h⟩
  | cons k ks ih =>
    have hpos : 0 < counts[k]?.getD 0 + 1 := by
      cases hk : counts[k]? with
      | none => decide
      | some v =>
        have := h k v hk
        simp only [Option.getD_some]
        omega
    have hbump : bump counts k 1 = counts.insert k (counts[k]?.getD 0 + 1) := if_neg hpos.ne'
    rw [List.foldl_cons, List.foldl_cons, hbump]
    refine ih fun l v hv ↦ ?_
    rw [Foundation.Table.get_insert] at hv
    split at hv
    · cases hv
      exact hpos
    · exact h l v hv

theorem expected_counts {l : List Job} : ∀ {counts : Table CountKey ℤ},
    (∀ (k : CountKey) (v : ℤ), counts[k]? = some v → 0 < v) →
    l.foldl (fun acc job ↦ InspectionIndex.mapIncrement acc job 1) counts =
      l.foldl (fun acc job ↦ bumps acc (InspectionIndex.facets job) 1) counts := by
  induction l with
  | nil =>
    intro counts _
    rfl
  | cons job l ih =>
    intro counts h
    obtain ⟨heq, hpos⟩ := mapIncrement_eq h job
    rw [List.foldl_cons, List.foldl_cons, ← heq]
    exact ih hpos

/-- **`valid?` holds** of exact indexes. -/
theorem Represents.valid (h : Represents p) : p.valid = true := by
  have hqueue := isPerm_index queueOwner h.queue h.keyed fun _ ↦ rfl
  have htask := isPerm_index taskOwner h.task h.keyed fun _ ↦ rfl
  have hready := isPerm_index queueOwner h.ready h.keyed fun _ ↦ rfl
  have hschedule := isPerm_index scheduleOwner h.schedule h.keyed fun _ ↦ rfl
  have horder := isPerm_index orderOwner h.order h.keyed fun _ ↦ rfl
  have hcounts : (InspectionIndex.expected (p.jobs.toList.map Prod.snd)).2 = p.inspection.counts :=
    (expected_counts fun k v hv ↦ by simp at hv).trans (h.counts.eq_foldl facets_nodup)
  rw [List.filter_true] at horder
  have hand : ∀ {a b : Bool}, a = true → b = true → (a && b) = true := fun ha hb ↦ by rw [ha, hb]; rfl
  exact hand (hand (hand (hand (hand hready hqueue) htask) hschedule) horder) (beq_iff_eq.mpr hcounts)

end Projection

end Tay
