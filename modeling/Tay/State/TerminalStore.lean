import Tay.State.Indexes

/-!
# The terminal store

`Tay.State.TerminalStore`: the terminal jobs on disk, and beside them in memory their order of insertion,
with what a filter asks of a job, and two kinds of counters. Every operation reads the stored version back
before it writes, so the caller need not have it.

The table on disk is a map here. Its file, its slot and its batches are left out.
-/

open Foundation

namespace Tay

open V2

structure TerminalStore where
  table : Table JobId Job
  order : Table InspectionKey (JobId × JobState × Binary × Binary)
  counts : Table CountKey ℤ
  deriving DecidableEq

namespace TerminalStore

/-- What the order keeps of a job. -/
def metadata (job : Job) : JobId × JobState × Binary × Binary :=
  (job.id, job.state, job.definition.queueKey, job.definition.workerKey)

/-- The counters a job is counted in. -/
def facets (job : Job) : List CountKey :=
  [.state job.state, .facet job.definition.queueKey job.state job.definition.workerKey]

/-- A store that has just been opened. -/
def empty : TerminalStore := ⟨∅, ∅, ∅⟩

def get (store : TerminalStore) (id : JobId) : Option Job := store.table[id]?

def addIndex (store : TerminalStore) (job : Job) : TerminalStore :=
  { store with
    order := store.order.insert (InspectionIndex.key job) (metadata job)
    counts := bumps store.counts (facets job) 1 }

def removeIndex (store : TerminalStore) (job : Job) : TerminalStore :=
  { store with
    order := store.order.erase (InspectionIndex.key job)
    counts := bumps store.counts (facets job) (-1) }

def put (store : TerminalStore) (job : Job) : TerminalStore :=
  let written := { store with table := store.table.insert job.id job }
  let cleared := match store.get job.id with
    | some previous => written.removeIndex previous
    | none => written
  cleared.addIndex job

def delete (store : TerminalStore) (id : JobId) : TerminalStore :=
  let written := { store with table := store.table.erase id }
  match store.get id with
  | some previous => written.removeIndex previous
  | none => written

/-- `load`: the terminal jobs of a table. -/
def load (jobs : Table JobId Job) : TerminalStore :=
  jobs.toList.foldl (fun store entry ↦
    if entry.2.state.terminal then
      { store.addIndex entry.2 with table := store.table.insert entry.2.id entry.2 }
    else store) empty

/-! ## What the store keeps up -/

/-- The order and the counters are those of the table. -/
structure Exact (store : TerminalStore) : Prop where
  keyed : Keyed Job.id store.table
  order : Lists (Projection.entryOf (fun _ ↦ true) InspectionIndex.key metadata) store.table store.order
  counts : Counts facets store.table store.counts

theorem facets_nodup (job : Job) : (facets job).Nodup := by
  simp [facets]

variable {store : TerminalStore} {job : Job}

@[simp] theorem table_put (store : TerminalStore) (job : Job) :
    (store.put job).table = store.table.insert job.id job := by
  unfold put
  split
  · rfl
  · rfl

@[simp] theorem table_delete (store : TerminalStore) (id : JobId) :
    (store.delete id).table = store.table.erase id := by
  unfold delete
  split
  · rfl
  · rfl

theorem exact_empty : Exact empty := by
  refine ⟨fun id job hjob ↦ ?_, lists_empty, counts_empty⟩
  simp [empty] at hjob

/-- **Storing a job**, whether or not it is known. -/
theorem Exact.put (h : Exact store) (job : Job) : Exact (store.put job) := by
  have hkeyed := h.keyed.insert (k := job.id) (x := job) rfl
  have horder := Projection.lists_replace Projection.orderOwner h.order h.keyed (fun _ ↦ rfl) job
  unfold TerminalStore.put TerminalStore.get
  cases hq : store.table[job.id]? with
  | none =>
    rw [hq] at horder
    exact ⟨hkeyed, horder, h.counts.insert (facets_nodup job) hq⟩
  | some q =>
    rw [hq] at horder
    exact ⟨hkeyed, horder, h.counts.replace (facets_nodup q) (facets_nodup job) hq⟩

theorem Exact.delete (h : Exact store) (id : JobId) : Exact (store.delete id) := by
  have hkeyed := Projection.keyed_erase h.keyed id
  have horder := Projection.lists_delete Projection.orderOwner h.order h.keyed (fun _ ↦ rfl) id
  unfold TerminalStore.delete TerminalStore.get
  cases hq : store.table[id]? with
  | none =>
    have hsame : store.table.erase id = store.table := by
      apply Std.ExtTreeMap.ext_getElem?
      intro k
      rw [Foundation.Table.get_erase]
      split
      case isTrue heq => rw [← heq, hq]
      case isFalse => rfl
    rw [hq, hsame] at horder
    exact ⟨hkeyed, hsame.symm ▸ horder, hsame.symm ▸ h.counts⟩
  | some q =>
    rw [hq] at horder
    exact ⟨hkeyed, horder, h.counts.erase (facets_nodup q) hq⟩

theorem load_entries {l : List (JobId × Job)} (hdistinct : l.Pairwise fun a b ↦ a.1 ≠ b.1) :
    ∀ {store : TerminalStore}, Exact store → (∀ e ∈ l, e.2.id = e.1 ∧ store.table[e.1]? = none) →
      let loaded := l.foldl (fun store entry ↦
        if entry.2.state.terminal then
          { store.addIndex entry.2 with table := store.table.insert entry.2.id entry.2 }
        else store) store
      Exact loaded ∧ ∀ id job, loaded.table[id]? = some job ↔
        ((id, job) ∈ l ∧ job.state.terminal = true) ∨ store.table[id]? = some job := by
  induction l with
  | nil =>
    intro store h _
    exact ⟨h, fun id job ↦ by simp⟩
  | cons e l ih =>
    intro store h hfresh
    obtain ⟨hid, hnone⟩ := hfresh e List.mem_cons_self
    rw [List.pairwise_cons] at hdistinct
    rw [List.foldl_cons]
    split
    case isTrue hterminal =>
      -- a job that is not known is put as `put` would
      have hsame : ({ store.addIndex e.2 with table := store.table.insert e.2.id e.2 } : TerminalStore) =
          store.put e.2 := by
        rw [TerminalStore.put, TerminalStore.get, hid, hnone]
        rfl
      rw [hsame]
      obtain ⟨hexact, htable⟩ := ih hdistinct.2 (h.put e.2) fun x hx ↦ by
        refine ⟨(hfresh x (List.mem_cons_of_mem _ hx)).1, ?_⟩
        rw [table_put, Foundation.Table.get_insert, hid, if_neg (hdistinct.1 x hx)]
        exact (hfresh x (List.mem_cons_of_mem _ hx)).2
      refine ⟨hexact, fun id job ↦ ?_⟩
      rw [htable, table_put, Foundation.Table.get_insert, hid, List.mem_cons]
      by_cases heq : e.1 = id
      · subst heq
        rw [if_pos rfl, hnone, Option.some_inj]
        constructor
        · rintro (⟨hmem, hstate⟩ | rfl)
          · exact .inl ⟨.inr hmem, hstate⟩
          · exact .inl ⟨.inl rfl, hterminal⟩
        · rintro (⟨hmem | hmem, hstate⟩ | hnone)
          · exact .inr (congrArg Prod.snd hmem).symm
          · exact .inl ⟨hmem, hstate⟩
          · cases hnone
      · rw [if_neg heq]
        refine or_congr_left (and_congr_left fun _ ↦ ⟨.inr, ?_⟩)
        rintro (hmem | hmem)
        · exact absurd (congrArg Prod.fst hmem).symm heq
        · exact hmem
    case isFalse hactive =>
      obtain ⟨hexact, htable⟩ := ih hdistinct.2 h fun x hx ↦ hfresh x (List.mem_cons_of_mem _ hx)
      refine ⟨hexact, fun id job ↦ ?_⟩
      rw [htable, List.mem_cons]
      refine or_congr_left ⟨fun hx ↦ ⟨.inr hx.1, hx.2⟩, ?_⟩
      rintro ⟨hmem | hmem, hstate⟩
      · rw [← hmem] at hactive
        exact absurd hstate hactive
      · exact ⟨hmem, hstate⟩

/-- **Opening the store** on a table of jobs. -/
theorem exact_load {jobs : Table JobId Job} (hkeyed : Keyed Job.id jobs) :
    Exact (load jobs) ∧ (load jobs).table = jobs.filter fun _ job ↦ job.state.terminal := by
  have hdistinct : jobs.toList.Pairwise fun a b ↦ a.1 ≠ b.1 :=
    Std.ExtTreeMap.distinct_keys_toList.imp fun hne heq ↦ hne (Std.LawfulEqCmp.compare_eq_iff_eq.mpr heq)
  obtain ⟨hexact, htable⟩ := load_entries hdistinct exact_empty fun e he ↦
    ⟨hkeyed _ _ (Std.ExtTreeMap.mem_toList_iff_getElem?_eq_some.mp he), by simp [empty]⟩
  refine ⟨hexact, Std.ExtTreeMap.ext_getElem? fun {id} ↦ Option.ext fun job ↦ ?_⟩
  have hiff := htable id job
  rw [Std.ExtTreeMap.mem_toList_iff_getElem?_eq_some] at hiff
  rw [Std.ExtTreeMap.getElem?_filter', Option.filter_eq_some_iff]
  simpa [load, empty] using hiff

end TerminalStore

end Tay
