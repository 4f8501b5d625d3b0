import Tay.Foundation.Counters
import Tay.Foundation.Pages
import Tay.State.TerminalStore

/-!
# Pages of jobs from two sources

`Tay.State.CombinedInspection`: a page of the jobs that a filter lets through, the newest first. The hot
projection and the terminal store are each asked for as many jobs as a page holds, from the place the
query names and in the direction it reads, and the answers are put together, sorted and cut off. How many
jobs there are in all is added up from counters, and where a page stands is carried along in the positions
of the pages next to it.

`Inspectable` is what the two sources must be for this: their indexes are exact and they have no id in
common. Then, in whichever of them a job is, the pages are those of one sorted list.
-/

open Foundation

namespace Tay

open V2

/-! ## Queries -/

namespace Inspection

/-- What a query asks of a job. A field that is not given asks nothing. -/
structure Filter where
  states : Option (List JobState)
  queues : Option (List Binary)
  workers : Option (List Binary)
  workerContains : Option Binary
  id : Option JobId
  deriving DecidableEq

/-- Where a page starts: after a job, before one, or at the end. The offset is that of the page. -/
inductive Position
  | after (key : InspectionKey) (offset : Option ℕ)
  | before (key : InspectionKey) (offset : Option ℕ)
  | last
  deriving DecidableEq

def maxLimit : ℕ := 100

structure Query where
  filter : Filter
  limit : ℕ
  position : Option Position
  limit_pos : 1 ≤ limit
  limit_le : limit ≤ maxLimit

/-- `String.contains?`. -/
def contains? : Binary → Binary → Bool
  | [], pattern => pattern.isEmpty
  | b :: rest, pattern => pattern.isPrefixOf (b :: rest) || contains? rest pattern

end Inspection

open Inspection

/-- What a source answers. -/
structure Candidates where
  jobs : List Job
  totalCount : ℕ

/-- `candidate_start`, and the entries that are met from there on. -/
def walk {ν : Type} (order : Table InspectionKey ν) : Option Position → List (InspectionKey × ν)
  | none => order.toList.reverse
  | some (.after key _) => (order.toList.filter fun e ↦ decide (e.1 < key)).reverse
  | some (.before key _) => order.toList.filter fun e ↦ decide (key < e.1)
  | some .last => order.toList

/-- `scan`: the jobs that are picked, the last one first, until there are enough. -/
def scan {ε : Type} (pick : ε → Option Job) (limit : ℕ) : List ε → List Job → List Job
  | [], acc => acc
  | e :: es, acc =>
    if limit ≤ acc.length then acc
    else scan pick limit es (match pick e with | some job => job :: acc | none => acc)

/-! ## The hot jobs -/

namespace InspectionIndex

def facetMatches? (queue : Binary) (state : JobState) (worker : Binary) (f : Filter) : Bool :=
  f.states.all (·.contains state) && f.queues.all (·.contains queue) && f.workers.all (·.contains worker) &&
    f.workerContains.all (contains? worker)

def matches? (job : Job) (f : Filter) : Bool :=
  f.id.all (job.id == ·) && f.states.all (·.contains job.state) &&
    f.queues.all (·.contains job.definition.queueKey) && f.workers.all (·.contains job.definition.workerKey) &&
    f.workerContains.all (contains? job.definition.workerKey)

/-- The counters that are added up. -/
def counted (f : Filter) : CountKey → Bool
  | .facet queue state worker => facetMatches? queue state worker f
  | .state _ | .queue _ | .queueState .. | .worker _ => false

/-- `matching_count`. No counter is negative. -/
def matchingCount (counts : Table CountKey ℤ) (jobs : Table JobId Job) (f : Filter) : ℕ :=
  match f.id with
  | some id =>
    match jobs[id]? with
    | none => 0
    | some job => if matches? job f then 1 else 0
  | none => (counts.toList.foldl (fun (total : ℤ) e ↦ if counted f e.1 then total + e.2 else total) 0).toNat

/-- What the walk makes of an entry. -/
def pick (jobs : Table JobId Job) (f : Filter) (entry : InspectionKey × JobId) : Option Job :=
  jobs[entry.2]?.filter fun job ↦ matches? job f

def candidates (index : InspectionIndex) (jobs : Table JobId Job) (q : Query) : Candidates where
  jobs := (scan (pick jobs q.filter) q.limit (walk index.order q.position) []).reverse
  totalCount := matchingCount index.counts jobs q.filter

end InspectionIndex

/-! ## The terminal jobs -/

namespace TerminalStore

/-- `matches_metadata?`; a counter has no id. -/
def matchesMetadata? (id : Option JobId) (state : JobState) (queue worker : Binary) (f : Filter) : Bool :=
  f.id.all (id == some ·) && f.states.all (·.contains state) && f.queues.all (·.contains queue) &&
    f.workers.all (·.contains worker) && f.workerContains.all (contains? worker)

def matchesJob? (job : Job) (f : Filter) : Bool :=
  matchesMetadata? (some job.id) job.state job.definition.queueKey job.definition.workerKey f

def counted (f : Filter) : CountKey → Bool
  | .facet queue state worker => matchesMetadata? none state queue worker f
  | .state _ | .queue _ | .queueState .. | .worker _ => false

def matchingCount (store : TerminalStore) (f : Filter) : ℕ :=
  match f.id with
  | some id =>
    match store.get id with
    | none => 0
    | some job => if matchesJob? job f then 1 else 0
  | none => (store.counts.toList.foldl (fun (total : ℤ) e ↦ if counted f e.1 then total + e.2 else total) 0).toNat

/-- What the walk makes of an entry. A job is read only if it is let through. -/
def pick (store : TerminalStore) (f : Filter) (entry : InspectionKey × JobId × JobState × Binary × Binary) :
    Option Job :=
  if matchesMetadata? (some entry.2.1) entry.2.2.1 entry.2.2.2.1 entry.2.2.2.2 f then store.table[entry.2.1]?
  else none

def candidates (store : TerminalStore) (q : Query) : Candidates where
  jobs := (scan (pick store q.filter) q.limit (walk store.order q.position) []).reverse
  totalCount := matchingCount store q.filter

end TerminalStore

/-! ## Pages -/

namespace CombinedInspection

structure Page where
  jobs : List Job
  totalCount : ℕ
  nextKey : Option Position
  previousKey : Option Position
  last : Bool
  deriving DecidableEq

def key (job : Job) : InspectionKey := InspectionIndex.key job

/-- `Enum.sort_by(&key/1, :asc)`. -/
def ascending (jobs : List Job) : List Job := sortBy key jobs

/-- `Enum.sort_by(&key/1, :desc)`. -/
def descending (jobs : List Job) : List Job := sortBy (fun job ↦ OrderDual.toDual (key job)) jobs

/-- Sorted in the `order` of a position. -/
def sorted : Option Position → List Job → List Job
  | some .last => ascending
  | some (.before ..) => ascending
  | some (.after ..) | none => descending

def finalize (selected : List Job) (limit total : ℕ) : Option Position → List Job
  | some .last =>
    let pageSize := if total % limit = 0 then min total limit else total % limit
    descending (selected.take pageSize)
  | some (.before ..) => descending selected
  | some (.after ..) | none => selected

def offset (total count : ℕ) : Option Position → ℕ
  | none => 0
  | some .last => total - count
  | some (.after _ value) => value.getD 0
  | some (.before _ value) => value.getD 0

def nextKey (jobs : List Job) (offset count total : ℕ) : Option Position :=
  match jobs.getLast? with
  | none => none
  | some job => if total ≤ offset + count then none else some (.after (key job) (some (offset + count)))

def previousKey (jobs : List Job) (offset limit : ℕ) : Option Position :=
  match jobs.head? with
  | none => none
  | some job => if offset = 0 then none else some (.before (key job) (some (offset - limit)))

def page (inspection : InspectionIndex) (jobs : Table JobId Job) (terminals : TerminalStore) (q : Query) : Page :=
  let hot := inspection.candidates jobs q
  let cold := terminals.candidates q
  let total := hot.totalCount + cold.totalCount
  let listed := finalize ((sorted q.position (hot.jobs ++ cold.jobs)).take q.limit) q.limit total q.position
  let offset := offset total listed.length q.position
  let count := listed.length
  { jobs := listed
    totalCount := total
    nextKey := nextKey listed offset count total
    previousKey := previousKey listed offset q.limit
    last := decide (total ≤ offset + count) }

end CombinedInspection

/-! ## What a source answers -/

section Answers

variable {ε : Type} {pick : ε → Option Job} {limit : ℕ}

/-- The scan finds the first jobs that are picked. -/
theorem scan_eq (es : List ε) : ∀ acc : List Job, acc.length ≤ limit →
    (scan pick limit es acc).reverse = acc.reverse ++ (es.filterMap pick).take (limit - acc.length) := by
  induction es with
  | nil =>
    intro acc _
    rw [scan, List.filterMap_nil, List.take_nil, List.append_nil]
  | cons e es ih =>
    intro acc hle
    rw [scan]
    split
    case isTrue hfull => rw [Nat.sub_eq_zero_of_le hfull, List.take_zero, List.append_nil]
    case isFalse hmore =>
      cases hpick : pick e with
      | none => rw [List.filterMap_cons_none hpick, ih acc hle]
      | some job =>
        obtain ⟨room, hroom⟩ := Nat.exists_eq_add_of_lt (not_le.mp hmore)
        have hlength : (job :: acc).length ≤ limit := by
          rw [List.length_cons]
          omega
        rw [List.filterMap_cons_some hpick, ih _ hlength, List.reverse_cons, List.append_assoc,
          List.length_cons, show limit - acc.length = (limit - (acc.length + 1)) + 1 by omega,
          List.take_succ_cons, List.singleton_append]

/-- A test of what is picked is as good as one of the entries. -/
theorem filterMap_filter_of {test : ε → Bool} {test' : Job → Bool} {es : List ε}
    (h : ∀ e ∈ es, ∀ job, pick e = some job → test e = test' job) :
    (es.filter test).filterMap pick = (es.filterMap pick).filter test' := by
  induction es with
  | nil => rfl
  | cons e es ih =>
    have hrest := ih fun e he ↦ h e (List.mem_cons_of_mem _ he)
    cases hpick : pick e with
    | none =>
      rw [List.filterMap_cons_none hpick, ← hrest, List.filter_cons]
      split
      · rw [List.filterMap_cons_none hpick]
      · rfl
    | some job =>
      rw [List.filterMap_cons_some hpick, List.filter_cons, List.filter_cons,
        h e List.mem_cons_self job hpick, ← hrest]
      split
      · rw [List.filterMap_cons_some hpick]
      · rfl

end Answers

namespace CombinedInspection

/-- The jobs of a table that a filter lets through. -/
def matching (t : Table JobId Job) (f : Filter) : List Job :=
  (t.toList.map Prod.snd).filter fun job ↦ InspectionIndex.matches? job f

/-- The part of a listing that a position leaves. -/
def within : Option Position → Job → Bool
  | none, _ => true
  | some .last, _ => true
  | some (.after k _), job => decide (key job < k)
  | some (.before k _), job => decide (k < key job)

section Matching

variable {t : Table JobId Job} {f : Filter}

theorem mem_matching (hkeyed : Keyed Job.id t) {job : Job} :
    job ∈ matching t f ↔ t[job.id]? = some job ∧ InspectionIndex.matches? job f = true := by
  rw [matching, List.mem_filter, List.mem_map]
  refine and_congr_left fun _ ↦ ?_
  constructor
  · rintro ⟨e, he, rfl⟩
    have hstored := Std.ExtTreeMap.mem_toList_iff_getElem?_eq_some.mp he
    rw [hkeyed _ _ hstored]
    exact hstored
  · intro hstored
    exact ⟨(job.id, job), Std.ExtTreeMap.mem_toList_iff_getElem?_eq_some.mpr hstored, rfl⟩

theorem nodup_matching (hkeyed : Keyed Job.id t) : (matching t f).Nodup := by
  refine List.Nodup.filter _ ?_
  rw [List.Nodup, List.pairwise_map]
  refine Std.ExtTreeMap.distinct_keys_toList.imp_of_mem ?_
  intro a b ha hb hne heq
  refine hne (Std.LawfulEqCmp.compare_eq_iff_eq.mpr ?_)
  rw [← hkeyed _ _ (Std.ExtTreeMap.mem_toList_iff_getElem?_eq_some.mp ha),
    ← hkeyed _ _ (Std.ExtTreeMap.mem_toList_iff_getElem?_eq_some.mp hb), heq]

theorem key_id {a b : Job} (h : key a = key b) : a.id = b.id :=
  congrArg (fun k : InspectionKey ↦ (ofLex k).2) h

theorem matching_inj (hkeyed : Keyed Job.id t) : ∀ a ∈ matching t f, ∀ b ∈ matching t f, key a = key b → a = b := by
  intro a ha b hb hkey
  have hstored := (mem_matching hkeyed).mp ha
  rw [key_id hkey, ((mem_matching hkeyed).mp hb).1] at hstored
  exact (Option.some_inj.mp hstored.1).symm

/-- With an id in the filter there is at most one job. -/
theorem length_matching_id (hkeyed : Keyed Job.id t) {id : JobId} (hid : f.id = some id) :
    (matching t f).length = match t[id]? with
      | none => 0
      | some job => if InspectionIndex.matches? job f then 1 else 0 := by
  have hmem : ∀ job, job ∈ matching t f ↔ t[id]? = some job ∧ InspectionIndex.matches? job f = true := by
    intro job
    rw [mem_matching hkeyed]
    refine and_congr_left fun hmatch ↦ ?_
    have hsame : job.id = id := by
      simp only [InspectionIndex.matches?, hid, Option.all_some, Bool.and_eq_true, beq_iff_eq] at hmatch
      exact hmatch.1.1.1.1
    rw [hsame]
  cases hjob : t[id]? with
  | none =>
    refine List.length_eq_zero_iff.mpr (List.eq_nil_iff_forall_not_mem.mpr fun job hin ↦ ?_)
    rw [hmem, hjob] at hin
    cases hin.1
  | some job =>
    split
    case h_1 hnone => cases hnone
    case h_2 stored hstored =>
      cases hstored
      split
      case isTrue hmatch =>
        have hperm : (matching t f).Perm [job] := by
          refine (List.perm_ext_iff_of_nodup (nodup_matching hkeyed) (List.nodup_singleton job)).mpr fun b ↦ ?_
          rw [hmem, hjob, List.mem_singleton, Option.some_inj]
          constructor
          · rintro ⟨rfl, -⟩
            rfl
          · rintro rfl
            exact ⟨rfl, hmatch⟩
        exact hperm.length_eq
      case isFalse hmatch =>
        refine List.length_eq_zero_iff.mpr (List.eq_nil_iff_forall_not_mem.mpr fun b hin ↦ ?_)
        rw [hmem, hjob, Option.some_inj] at hin
        exact hmatch (hin.1 ▸ hin.2)

end Matching

theorem lt_of_compare {x y : InspectionKey} (h : compare x y = .lt) : x < y := by
  rw [Prod.Lex.compare_def, compareLex, Ordering.then_eq_lt] at h
  rw [Prod.Lex.lt_iff]
  rcases h with h | ⟨h, h'⟩
  · exact .inl (compare_lt_iff_lt.mp h)
  · exact .inr ⟨compare_eq_iff_eq.mp h, compare_lt_iff_lt.mp h'⟩

/-- The order of insertion, read from the front, gives the jobs in that order. -/
theorem filterMap_pick {ν : Type} {value : Job → ν} {order : Table InspectionKey ν} {t : Table JobId Job}
    {f : Filter} {pick : InspectionKey × ν → Option Job}
    (h : Lists (Projection.entryOf (fun _ ↦ true) InspectionIndex.key value) t order) (hkeyed : Keyed Job.id t)
    (hpick : ∀ (id : JobId) (job : Job), t[id]? = some job →
      pick (key job, value job) = if InspectionIndex.matches? job f then some job else none) :
    order.toList.filterMap pick = ascending (matching t f) ∧
      ∀ e ∈ order.toList, ∀ job, pick e = some job → e.1 = key job := by
  have hentry : ∀ e ∈ order.toList, ∃ (id : JobId) (job : Job), t[id]? = some job ∧ e = (key job, value job) := by
    intro e he
    obtain ⟨id, job, hjob, hlisted⟩ := (h e.1 e.2).mp (Std.ExtTreeMap.mem_toList_iff_getElem?_eq_some.mp he)
    obtain ⟨-, hkey, hvalue⟩ := Projection.entryOf_eq_some.mp hlisted
    exact ⟨id, job, hjob, Prod.ext hkey.symm hvalue.symm⟩
  have hpicked : ∀ e ∈ order.toList, ∀ job, pick e = some job →
      t[job.id]? = some job ∧ InspectionIndex.matches? job f = true ∧ e = (key job, value job) := by
    intro e he job hjob
    obtain ⟨id, stored, hstored, rfl⟩ := hentry e he
    rw [hpick id stored hstored] at hjob
    split at hjob
    case isTrue hmatch =>
      cases hjob
      rw [hkeyed id job hstored]
      exact ⟨hstored, hmatch, rfl⟩
    case isFalse => cases hjob
  have hkeys : order.toList.Pairwise fun a b ↦ a.1 < b.1 :=
    (Std.ExtTreeMap.ordered_keys_toList (t := order)).imp lt_of_compare
  refine ⟨(sortBy_eq (matching_inj hkeyed) ?_ ?_).symm, fun e he job hjob ↦
    congrArg Prod.fst (hpicked e he job hjob).2.2⟩
  · refine (List.perm_ext_iff_of_nodup ?_ (nodup_matching hkeyed)).mpr fun job ↦ ?_
    · rw [List.Nodup, List.pairwise_filterMap]
      refine hkeys.imp_of_mem ?_
      rintro a b ha hb hlt x hx y hy rfl
      rw [(hpicked a ha x hx).2.2, (hpicked b hb x hy).2.2] at hlt
      exact lt_irrefl _ hlt
    · rw [mem_matching hkeyed, List.mem_filterMap]
      constructor
      · rintro ⟨e, he, hjob⟩
        obtain ⟨hstored, hmatch, -⟩ := hpicked e he job hjob
        exact ⟨hstored, hmatch⟩
      · rintro ⟨hstored, hmatch⟩
        refine ⟨(key job, value job), ?_, ?_⟩
        · rw [Std.ExtTreeMap.mem_toList_iff_getElem?_eq_some, h]
          exact ⟨job.id, job, hstored, Projection.entryOf_eq_some.mpr ⟨rfl, rfl, rfl⟩⟩
        · rw [hpick job.id job hstored, if_pos hmatch]
  · rw [List.pairwise_filterMap]
    refine hkeys.imp_of_mem ?_
    intro a b ha hb hlt x hx y hy
    rw [(hpicked a ha x hx).2.2, (hpicked b hb y hy).2.2] at hlt
    exact hlt.le

theorem descending_eq {jobs : List Job} (hinj : ∀ a ∈ jobs, ∀ b ∈ jobs, key a = key b → a = b) :
    descending jobs = (ascending jobs).reverse := sortBy_toDual hinj

/-- A walk in either direction, from any place. -/
theorem walk_pick {ν : Type} {value : Job → ν} {order : Table InspectionKey ν} {t : Table JobId Job}
    {f : Filter} {pick : InspectionKey × ν → Option Job}
    (h : Lists (Projection.entryOf (fun _ ↦ true) InspectionIndex.key value) t order) (hkeyed : Keyed Job.id t)
    (hpick : ∀ (id : JobId) (job : Job), t[id]? = some job →
      pick (key job, value job) = if InspectionIndex.matches? job f then some job else none)
    (position : Option Position) :
    (walk order position).filterMap pick = sorted position ((matching t f).filter (within position)) := by
  obtain ⟨hall, hkey⟩ := filterMap_pick h hkeyed hpick
  have hinj := matching_inj (f := f) hkeyed
  have hpart : ∀ test : Job → Bool, ∀ a ∈ (matching t f).filter test, ∀ b ∈ (matching t f).filter test,
      key a = key b → a = b :=
    fun _ a ha b hb ↦ hinj a (List.mem_of_mem_filter ha) b (List.mem_of_mem_filter hb)
  have hfilter : ∀ (test : InspectionKey → Bool), (order.toList.filter fun e ↦ test e.1).filterMap pick =
      ascending ((matching t f).filter fun job ↦ test (key job)) := by
    intro test
    have hsame : (order.toList.filter fun e ↦ test e.1).filterMap pick =
        (order.toList.filterMap pick).filter fun job ↦ test (key job) :=
      filterMap_filter_of fun e he job hjob ↦ congrArg test (hkey e he job hjob)
    rw [hsame, hall]
    exact (sortBy_filter hinj fun job ↦ test (key job)).symm
  have htrue : (matching t f).filter (fun _ ↦ true) = matching t f := List.filter_true _
  cases position with
  | none =>
    show order.toList.reverse.filterMap pick = descending ((matching t f).filter fun _ ↦ true)
    rw [htrue, List.filterMap_reverse, hall, descending_eq hinj]
  | some position =>
    cases position with
    | last =>
      show order.toList.filterMap pick = ascending ((matching t f).filter fun _ ↦ true)
      rw [htrue, hall]
    | before k offset => exact hfilter fun k' ↦ decide (k < k')
    | after k offset =>
      show ((order.toList.filter fun e ↦ decide (e.1 < k)).reverse).filterMap pick =
        descending ((matching t f).filter fun job ↦ decide (key job < k))
      rw [List.filterMap_reverse, hfilter fun k' ↦ decide (k' < k), descending_eq (hpart _)]

/-! ## Both sources answer alike -/

/-- What a source with these jobs must answer. -/
structure Answers (t : Table JobId Job) (q : Query) (c : Candidates) : Prop where
  jobs : c.jobs = (sorted q.position ((matching t q.filter).filter (within q.position))).take q.limit
  total : c.totalCount = (matching t q.filter).length

theorem scan_walk {ν : Type} {value : Job → ν} {order : Table InspectionKey ν} {t : Table JobId Job}
    {q : Query} {pick : InspectionKey × ν → Option Job}
    (h : Lists (Projection.entryOf (fun _ ↦ true) InspectionIndex.key value) t order) (hkeyed : Keyed Job.id t)
    (hpick : ∀ (id : JobId) (job : Job), t[id]? = some job →
      pick (key job, value job) = if InspectionIndex.matches? job q.filter then some job else none) :
    (scan pick q.limit (walk order q.position) []).reverse =
      (sorted q.position ((matching t q.filter).filter (within q.position))).take q.limit := by
  rw [scan_eq _ _ (Nat.zero_le _), walk_pick h hkeyed hpick]
  rfl

theorem countP_toNat {sum : ℤ} {l : List Job} {p : Job → Bool} (h : sum = l.countP p) :
    sum.toNat = (l.filter p).length := by
  rw [h, Int.toNat_natCast, List.countP_eq_length_filter]

/-- **The hot projection.** -/
theorem hot_answers {p : Projection} (h : Projection.Represents p) (q : Query) :
    Answers p.jobs q (p.inspection.candidates p.jobs q) := by
  refine ⟨scan_walk h.order h.keyed fun id job hjob ↦ ?_, ?_⟩
  · rw [InspectionIndex.pick, h.keyed id job hjob, hjob, Option.filter_some]
  · show InspectionIndex.matchingCount p.inspection.counts p.jobs q.filter = _
    unfold InspectionIndex.matchingCount
    cases hid : q.filter.id with
    | some id => exact (length_matching_id h.keyed hid).symm
    | none =>
      refine countP_toNat ?_
      rw [← sumWhere_eq_foldl]
      refine h.counts.sumWhere_eq Projection.facets_nodup fun job ↦ ?_
      have hmatch : InspectionIndex.matches? job q.filter = InspectionIndex.facetMatches?
          job.definition.queueKey job.state job.definition.workerKey q.filter := by
        simp only [InspectionIndex.matches?, InspectionIndex.facetMatches?, hid, Option.all_none, Bool.true_and]
      simp only [InspectionIndex.facets, List.countP_cons, List.countP_nil, InspectionIndex.counted, hmatch,
        Bool.false_eq_true, if_false, Nat.zero_add, Nat.add_zero]
      rfl

theorem matchesJob?_eq (job : Job) (f : Filter) :
    TerminalStore.matchesJob? job f = InspectionIndex.matches? job f := by
  have hid : f.id.all (some job.id == some ·) = f.id.all (job.id == ·) := by
    cases f.id with
    | none => rfl
    | some id => rfl
  rw [TerminalStore.matchesJob?, TerminalStore.matchesMetadata?, InspectionIndex.matches?, hid]

/-- **The terminal store.** -/
theorem cold_answers {store : TerminalStore} (h : TerminalStore.Exact store) (q : Query) :
    Answers store.table q (store.candidates q) := by
  refine ⟨scan_walk h.order h.keyed fun id job hjob ↦ ?_, ?_⟩
  · obtain rfl := h.keyed id job hjob
    have hmatch := matchesJob?_eq job q.filter
    rw [TerminalStore.matchesJob?] at hmatch
    rw [TerminalStore.pick]
    simp only [TerminalStore.metadata, hmatch, hjob]
  · show TerminalStore.matchingCount store q.filter = _
    unfold TerminalStore.matchingCount
    cases hid : q.filter.id with
    | some id =>
      simp only [TerminalStore.get, matchesJob?_eq]
      exact (length_matching_id h.keyed hid).symm
    | none =>
      refine countP_toNat ?_
      rw [← sumWhere_eq_foldl]
      refine h.counts.sumWhere_eq TerminalStore.facets_nodup fun job ↦ ?_
      have hmatch : InspectionIndex.matches? job q.filter = TerminalStore.matchesMetadata? none job.state
          job.definition.queueKey job.definition.workerKey q.filter := by
        simp only [InspectionIndex.matches?, TerminalStore.matchesMetadata?, hid, Option.all_none, Bool.true_and]
      simp only [TerminalStore.facets, List.countP_cons, List.countP_nil, TerminalStore.counted, hmatch,
        Bool.false_eq_true, if_false, Nat.zero_add, Nat.add_zero]
      rfl

/-! ## The listing -/

/-- What the two sources must be: their indexes are exact, and no job is in both. -/
structure Inspectable (p : Projection) (store : TerminalStore) : Prop where
  represents : Projection.Represents p
  exact : TerminalStore.Exact store
  apart : ∀ id : JobId, (p.jobs[id]?).isSome → store.table[id]? = none

/-- All jobs that a filter lets through, the newest first. -/
def listing (p : Projection) (store : TerminalStore) (f : Filter) : List Job :=
  descending (matching p.jobs f ++ matching store.table f)

section Listing

variable {p : Projection} {store : TerminalStore} {f : Filter}

theorem Inspectable.inj (h : Inspectable p store) : ∀ a ∈ matching p.jobs f ++ matching store.table f,
    ∀ b ∈ matching p.jobs f ++ matching store.table f, key a = key b → a = b := by
  have hhot : ∀ {job : Job}, job ∈ matching p.jobs f → p.jobs[job.id]? = some job :=
    fun hjob ↦ ((mem_matching h.represents.keyed).mp hjob).1
  have hcold : ∀ {job : Job}, job ∈ matching store.table f → store.table[job.id]? = some job :=
    fun hjob ↦ ((mem_matching h.exact.keyed).mp hjob).1
  -- a job of one source cannot have the key of a job of the other
  have hcross : ∀ {a b : Job}, a ∈ matching p.jobs f → b ∈ matching store.table f → key a ≠ key b := by
    intro a b ha hb hkey
    have hgone := h.apart a.id (Option.isSome_of_eq_some (hhot ha))
    rw [key_id hkey, hcold hb] at hgone
    cases hgone
  intro a ha b hb hkey
  rcases List.mem_append.mp ha with ha | ha
  · rcases List.mem_append.mp hb with hb | hb
    · exact matching_inj h.represents.keyed a ha b hb hkey
    · exact absurd hkey (hcross ha hb)
  · rcases List.mem_append.mp hb with hb | hb
    · exact absurd hkey.symm (hcross hb ha)
    · exact matching_inj h.exact.keyed a ha b hb hkey

theorem Inspectable.mem_listing (h : Inspectable p store) {job : Job} : job ∈ listing p store f ↔
    (p.jobs[job.id]?.or store.table[job.id]?) = some job ∧ InspectionIndex.matches? job f = true := by
  rw [listing, descending, mem_sortBy, List.mem_append, mem_matching h.represents.keyed,
    mem_matching h.exact.keyed, ← or_and_right, Option.or_eq_some_iff]
  refine and_congr_left fun _ ↦ or_congr_right ?_
  constructor
  · intro hcold
    refine ⟨?_, hcold⟩
    by_contra hhot
    rw [h.apart job.id (Option.isSome_iff_ne_none.mpr hhot)] at hcold
    cases hcold
  · exact fun hcold ↦ hcold.2

/-- **The listing descends**, and no two jobs of it have one key. -/
theorem Inspectable.sorted_listing (h : Inspectable p store) :
    (listing p store f).Pairwise fun a b ↦ key b < key a := by
  have hnodup : (listing p store f).Nodup := by
    rw [listing, descending, (sortBy_perm _ _).nodup_iff, List.nodup_append]
    refine ⟨nodup_matching h.represents.keyed, nodup_matching h.exact.keyed, ?_⟩
    rintro a ha b hb rfl
    have hhot := ((mem_matching h.represents.keyed).mp ha).1
    have hcold := ((mem_matching h.exact.keyed).mp hb).1
    rw [h.apart a.id (Option.isSome_of_eq_some hhot)] at hcold
    cases hcold
  have hle := pairwise_sortBy (fun job ↦ OrderDual.toDual (key job)) (matching p.jobs f ++ matching store.table f)
  refine (hnodup.and hle).imp_of_mem ?_
  rintro a b ha hb ⟨hne, hab⟩
  refine lt_of_le_of_ne (OrderDual.toDual_le_toDual.mp hab) fun hkey ↦ hne ?_
  exact h.inj a (mem_sortBy.mp ha) b (mem_sortBy.mp hb) hkey.symm

theorem length_listing (p : Projection) (store : TerminalStore) (f : Filter) :
    (listing p store f).length = (matching p.jobs f).length + (matching store.table f).length := by
  rw [listing, descending, (sortBy_perm _ _).length_eq, List.length_append]

/-- The first jobs of both sources are the first of the listing, in the order of the position. -/
theorem Inspectable.selected (h : Inspectable p store) (q : Query) :
    (sorted q.position ((p.inspection.candidates p.jobs q).jobs ++ (store.candidates q).jobs)).take q.limit =
      (sorted q.position ((matching p.jobs q.filter ++ matching store.table q.filter).filter
        (within q.position))).take q.limit := by
  have hinj : ∀ a ∈ (matching p.jobs q.filter).filter (within q.position) ++
      (matching store.table q.filter).filter (within q.position),
      ∀ b ∈ (matching p.jobs q.filter).filter (within q.position) ++
        (matching store.table q.filter).filter (within q.position), key a = key b → a = b := by
    rw [← List.filter_append]
    exact fun a ha b hb ↦ h.inj a (List.mem_of_mem_filter ha) b (List.mem_of_mem_filter hb)
  have hdual : ∀ a ∈ (matching p.jobs q.filter).filter (within q.position) ++
      (matching store.table q.filter).filter (within q.position),
      ∀ b ∈ (matching p.jobs q.filter).filter (within q.position) ++
        (matching store.table q.filter).filter (within q.position),
      OrderDual.toDual (key a) = OrderDual.toDual (key b) → a = b :=
    fun a ha b hb hkey ↦ hinj a ha b hb (OrderDual.toDual_inj.mp hkey)
  rw [(hot_answers h.represents q).jobs, (cold_answers h.exact q).jobs, List.filter_append]
  cases hposition : q.position with
  | none =>
    rw [hposition] at hdual
    exact firsts_append hdual
  | some position =>
    rw [hposition] at hinj hdual
    cases position with
    | last => exact firsts_append hinj
    | before k offset => exact firsts_append hinj
    | after k offset => exact firsts_append hdual

/-- The listing read the other way round. -/
theorem Inspectable.ascending_eq (h : Inspectable p store) :
    ascending (matching p.jobs f ++ matching store.table f) = (listing p store f).reverse := by
  rw [listing, descending_eq h.inj, List.reverse_reverse]

end Listing

/-! ## The pages of the listing -/

/-- The page of a number, from zero, as it should be reported. -/
def pageOf (limit : ℕ) (jobs : List Job) (i : ℕ) : Page where
  jobs := sheet limit jobs i
  totalCount := jobs.length
  nextKey :=
    if (i + 1) * limit < jobs.length then
      jobs[(i + 1) * limit - 1]?.map fun job ↦ .after (key job) (some ((i + 1) * limit))
    else none
  previousKey :=
    if i = 0 then none else jobs[i * limit]?.map fun job ↦ .before (key job) (some ((i - 1) * limit))
  last := decide (jobs.length ≤ (i + 1) * limit)

section Assembling

variable {limit i : ℕ} {jobs : List Job}

/-- A page that starts where its number says, reported. -/
theorem report_sheet (hlimit : 0 < limit) (hi : i ≤ lastSheet limit jobs) :
    ({ jobs := sheet limit jobs i
       totalCount := jobs.length
       nextKey := nextKey (sheet limit jobs i) (i * limit) (sheet limit jobs i).length jobs.length
       previousKey := previousKey (sheet limit jobs i) (i * limit) limit
       last := decide (jobs.length ≤ i * limit + (sheet limit jobs i).length) } : Page) =
      pageOf limit jobs i := by
  have hstart : i * limit ≤ jobs.length - 1 := (Nat.mul_le_mul_right _ hi).trans (Nat.div_mul_le_self _ _)
  have hlength := length_sheet limit jobs i
  have hsucc : (i + 1) * limit = i * limit + limit := Nat.succ_mul i limit
  have hend : jobs.length ≤ i * limit + (sheet limit jobs i).length ↔ jobs.length ≤ (i + 1) * limit := by
    rw [hlength, hsucc]
    omega
  have hnext : nextKey (sheet limit jobs i) (i * limit) (sheet limit jobs i).length jobs.length =
      (pageOf limit jobs i).nextKey := by
    simp only [nextKey, pageOf]
    by_cases hmore : (i + 1) * limit < jobs.length
    · -- a full page, with its last job just before the next page
      have hfull : (sheet limit jobs i).length = limit := by
        rw [hlength]
        omega
      have hplace : (sheet limit jobs i).getLast? = jobs[(i + 1) * limit - 1]? := by
        rw [List.getLast?_eq_getElem?, hfull, sheet, List.getElem?_take, if_pos (by omega), List.getElem?_drop]
        congr 1
        omega
      rw [if_pos hmore, hplace]
      cases jobs[(i + 1) * limit - 1]? with
      | none => rfl
      | some job =>
        show (if jobs.length ≤ i * limit + (sheet limit jobs i).length then none
          else some (Position.after (key job) (some (i * limit + (sheet limit jobs i).length)))) = _
        rw [if_neg (by rw [hend]; omega), hfull, ← hsucc]
        rfl
    · rw [if_neg hmore]
      split
      · rfl
      · rw [if_pos (hend.mpr (not_lt.mp hmore))]
  have hprevious : previousKey (sheet limit jobs i) (i * limit) limit = (pageOf limit jobs i).previousKey := by
    simp only [previousKey, pageOf]
    by_cases hzero : i = 0
    · rw [if_pos hzero, hzero, Nat.zero_mul]
      split
      · rfl
      · rfl
    · have hplace : (sheet limit jobs i).head? = jobs[i * limit]? := by
        rw [List.head?_eq_getElem?, sheet, List.getElem?_take, if_pos hlimit, List.getElem?_drop, Nat.add_zero]
      have hpos : ¬ i * limit = 0 := (Nat.mul_pos (Nat.pos_of_ne_zero hzero) hlimit).ne'
      rw [if_neg hzero, hplace]
      cases jobs[i * limit]? with
      | none => rfl
      | some job =>
        show (if i * limit = 0 then none else some (Position.before (key job) (some (i * limit - limit)))) = _
        rw [if_neg hpos, Nat.sub_one_mul]
        rfl
  rw [hnext, hprevious, decide_eq_decide.mpr hend]
  rfl

end Assembling

section Pages

variable {p : Projection} {store : TerminalStore} {q : Query}

/-- A page is reported once its jobs and its offset are known. -/
theorem Inspectable.page_eq (h : Inspectable p store) {i : ℕ} (hi : i ≤ lastSheet q.limit (listing p store q.filter))
    (hjobs : finalize ((sorted q.position ((matching p.jobs q.filter ++ matching store.table q.filter).filter
      (within q.position))).take q.limit) q.limit (listing p store q.filter).length q.position =
        sheet q.limit (listing p store q.filter) i)
    (hoffset : offset (listing p store q.filter).length (sheet q.limit (listing p store q.filter) i).length
      q.position = i * q.limit) :
    page p.inspection p.jobs store q = pageOf q.limit (listing p store q.filter) i := by
  rw [← report_sheet q.limit_pos hi]
  simp only [page]
  rw [h.selected q, (hot_answers h.represents q).total, (cold_answers h.exact q).total,
    ← length_listing p store q.filter, hjobs, hoffset]

/-- The descending order, seen as an ascending one. -/
theorem Inspectable.pairwise_dual (h : Inspectable p store) (f : Filter) :
    (listing p store f).Pairwise fun a b ↦ OrderDual.toDual (key a) < OrderDual.toDual (key b) :=
  h.sorted_listing.imp OrderDual.toDual_lt_toDual.mpr

/-- **The first page.** -/
theorem Inspectable.page_first (h : Inspectable p store) (hposition : q.position = none) :
    page p.inspection p.jobs store q = pageOf q.limit (listing p store q.filter) 0 := by
  refine h.page_eq (Nat.zero_le _) ?_ ?_
  · rw [hposition, sheet, Nat.zero_mul, List.drop_zero]
    show (descending ((matching p.jobs q.filter ++ matching store.table q.filter).filter fun _ ↦ true)).take _ = _
    rw [List.filter_true]
    rfl
  · rw [hposition, Nat.zero_mul]
    rfl

/-- **The page after** the last job of a page. -/
theorem Inspectable.page_after (h : Inspectable p store) {i : ℕ} {job : Job}
    (hjob : (listing p store q.filter)[(i + 1) * q.limit - 1]? = some job)
    (hi : i < lastSheet q.limit (listing p store q.filter))
    (hposition : q.position = some (.after (key job) (some ((i + 1) * q.limit)))) :
    page p.inspection p.jobs store q = pageOf q.limit (listing p store q.filter) (i + 1) := by
  have hpos : 0 < (i + 1) * q.limit := Nat.mul_pos (Nat.succ_pos i) q.limit_pos
  refine h.page_eq hi ?_ ?_
  · have hrest := filter_after (h.pairwise_dual q.filter) hjob
    rw [Nat.sub_add_cancel hpos] at hrest
    rw [hposition, sheet, ← hrest, listing, descending, ← sortBy_filter
      (fun a ha b hb hkey ↦ h.inj a ha b hb (OrderDual.toDual_inj.mp hkey))]
    rfl
  · rw [hposition]
    rfl

/-- **The page before** the first job of a page. -/
theorem Inspectable.page_before (h : Inspectable p store) {i : ℕ} {job : Job}
    (hjob : (listing p store q.filter)[(i + 1) * q.limit]? = some job)
    (hposition : q.position = some (.before (key job) (some (i * q.limit)))) :
    page p.inspection p.jobs store q = pageOf q.limit (listing p store q.filter) i := by
  have hlt : (i + 1) * q.limit < (listing p store q.filter).length := (List.getElem?_eq_some_iff.mp hjob).1
  have hi : i < lastSheet q.limit (listing p store q.filter) := (lt_lastSheet_iff q.limit_pos _ _).mpr hlt
  have hinj := h.inj (f := q.filter)
  refine h.page_eq hi.le ?_ ?_
  · have hfront := filter_before (h.pairwise_dual q.filter) hjob
    rw [hposition]
    show descending ((ascending ((matching p.jobs q.filter ++ matching store.table q.filter).filter fun b ↦
      decide (key job < key b))).take q.limit) = _
    -- the jobs in front of the page, from its end
    have hupto : ascending ((matching p.jobs q.filter ++ matching store.table q.filter).filter fun b ↦
        decide (key job < key b)) = ((listing p store q.filter).take ((i + 1) * q.limit)).reverse := by
      rw [ascending, sortBy_filter hinj, ← ascending, h.ascending_eq, List.filter_reverse, ← hfront]
      rfl
    have hpage : ((listing p store q.filter).take ((i + 1) * q.limit)).reverse.take q.limit =
        (sheet q.limit (listing p store q.filter) i).reverse := by
      rw [List.take_reverse, List.length_take, min_eq_left hlt.le, Nat.succ_mul, Nat.add_sub_cancel, sheet,
        List.drop_take, Nat.add_sub_cancel_left]
    rw [hupto, hpage]
    refine sortBy_eq ?_ (List.reverse_perm _).symm ?_
    · intro a ha b hb hkey
      have hmem : ∀ {c : Job}, c ∈ (sheet q.limit (listing p store q.filter) i).reverse →
          c ∈ matching p.jobs q.filter ++ matching store.table q.filter :=
        fun hc ↦ mem_sortBy.mp (List.mem_of_mem_drop (List.mem_of_mem_take (List.mem_reverse.mp hc)))
      exact hinj a (hmem ha) b (hmem hb) (OrderDual.toDual_inj.mp hkey)
    · exact ((h.pairwise_dual q.filter).sublist
        ((List.take_sublist _ _).trans (List.drop_sublist _ _))).imp le_of_lt
  · rw [hposition]
    rfl

/-- **The last page.** -/
theorem Inspectable.page_last (h : Inspectable p store) (hposition : q.position = some .last) :
    page p.inspection p.jobs store q =
      pageOf q.limit (listing p store q.filter) (lastSheet q.limit (listing p store q.filter)) := by
  have hinj := h.inj (f := q.filter)
  have hlength := length_lastSheet q.limit_pos (listing p store q.filter)
  have hsheet := sheet_last q.limit_pos (listing p store q.filter)
  have hsize : (sheet q.limit (listing p store q.filter) (lastSheet q.limit (listing p store q.filter))).length ≤
      q.limit := by
    rw [length_sheet]
    exact min_le_left _ _
  refine h.page_eq le_rfl ?_ ?_
  · rw [hposition]
    show descending (((ascending ((matching p.jobs q.filter ++ matching store.table q.filter).filter
      fun _ ↦ true)).take q.limit).take _) = _
    rw [List.filter_true, h.ascending_eq, List.take_take, ← hlength, min_eq_left hsize, List.take_reverse,
      ← hsheet]
    refine sortBy_eq ?_ (List.reverse_perm _).symm ?_
    · intro a ha b hb hkey
      have hmem : ∀ {c : Job}, c ∈ (sheet q.limit (listing p store q.filter)
          (lastSheet q.limit (listing p store q.filter))).reverse →
          c ∈ matching p.jobs q.filter ++ matching store.table q.filter :=
        fun hc ↦ mem_sortBy.mp (List.mem_of_mem_drop (List.mem_of_mem_take (List.mem_reverse.mp hc)))
      exact hinj a (hmem ha) b (hmem hb) (OrderDual.toDual_inj.mp hkey)
    · exact ((h.pairwise_dual q.filter).sublist
        ((List.take_sublist _ _).trans (List.drop_sublist _ _))).imp le_of_lt
  · rw [hposition]
    show (listing p store q.filter).length - _ = _
    have hstart : lastSheet q.limit (listing p store q.filter) * q.limit ≤
        (listing p store q.filter).length - 1 := Nat.div_mul_le_self _ _
    have hend := length_le_lastSheet q.limit_pos (listing p store q.filter)
    rw [Nat.succ_mul] at hend
    rw [length_sheet]
    omega

end Pages

end CombinedInspection

end Tay
