import Mathlib.Data.Set.Function
import Mathlib.Order.Interval.Set.Basic
import Tay.Foundation.Table
import Tay.Storage.Credible
import Tay.Storage.Planning
import Tay.Storage.Recovery

/-!
# Renumbering and dispatch

`Snapshot.normalize_availability` sorts the available jobs by queue, due time, order and id, and gives
each its place. The place replaces the order within the key that was sorted by, so the list stays sorted:
what the queue index compares is where two jobs stand, before and after. The index of a task within a
queue compares the same three components, so it follows.
-/

open Foundation

namespace Tay

open V2

namespace Snapshot

/-! ## Places -/

/-- The order a job is given: its place, from 1. -/
def place (jobs : Table JobId Job) (id : JobId) : ℕ := ((availableSorted jobs).map Prod.fst).idxOf id + 1

/-- The ids of the available jobs. -/
def availableIds (jobs : Table JobId Job) : Set JobId :=
  {id | ∃ job, jobs[id]? = some job ∧ job.state = .available}

theorem place_eq {jobs : Table JobId Job} {i : ℕ} {x : JobId × Job}
    (h : (availableSorted jobs)[i]? = some x) : place jobs x.1 = i + 1 := by
  have hi : i < ((availableSorted jobs).map Prod.fst).length := by
    rw [List.length_map]
    exact (List.getElem?_eq_some_iff.mp h).1
  have hx : ((availableSorted jobs).map Prod.fst)[i] = x.1 := by
    rw [List.getElem_map, (List.getElem?_eq_some_iff.mp h).2]
  rw [place, ← hx, (nodup_availableSorted jobs).idxOf_getElem i hi]

theorem mem_availableIds {jobs : Table JobId Job} {id : JobId} :
    id ∈ availableIds jobs ↔ ∃ (i : ℕ) (job : Job), (availableSorted jobs)[i]? = some (id, job) := by
  constructor
  · rintro ⟨job, hjob, hstate⟩
    obtain ⟨i, hi⟩ := exists_place hjob hstate
    exact ⟨i, job, hi⟩
  · rintro ⟨i, job, hi⟩
    exact ⟨job, mem_availableSorted.mp (List.mem_of_getElem? hi)⟩

theorem place_bijOn (jobs : Table JobId Job) :
    Set.BijOn (place jobs) (availableIds jobs) (Set.Icc 1 (availableSorted jobs).length) := by
  refine ⟨?_, ?_, ?_⟩
  · intro id hid
    obtain ⟨i, job, hi⟩ := mem_availableIds.mp hid
    have hlt := (List.getElem?_eq_some_iff.mp hi).1
    rw [place_eq hi]
    exact ⟨by omega, by omega⟩
  · intro id hid id' hid' heq
    obtain ⟨i, job, hi⟩ := mem_availableIds.mp hid
    obtain ⟨j, job', hj⟩ := mem_availableIds.mp hid'
    rw [place_eq hi, place_eq hj] at heq
    obtain rfl : i = j := by omega
    rw [hi] at hj
    exact congrArg Prod.fst (Option.some.inj hj)
  · rintro n ⟨hn, hle⟩
    have hlt : n - 1 < (availableSorted jobs).length := by omega
    have hget := List.getElem?_eq_getElem hlt
    refine ⟨((availableSorted jobs)[n - 1]).1, mem_availableIds.mpr ⟨n - 1, _, hget⟩, ?_⟩
    rw [place_eq hget]
    omega

/-- Renumbering gives every available job its place and leaves every other job alone. -/
theorem normalize_place (jobs : Table JobId Job) (id : JobId) :
    (normalizeAvailability jobs)[id]? = (jobs[id]?).map fun job ↦
      if job.state = .available then { job with availabilityOrder := some (place jobs id) } else job := by
  by_cases h : id ∈ availableIds jobs
  · obtain ⟨i, job, hi⟩ := mem_availableIds.mp h
    obtain ⟨hjob, hstate⟩ := mem_availableSorted.mp (List.mem_of_getElem? hi)
    rw [normalize_get hi, hjob, Option.map_some, if_pos hstate, place_eq hi]
  · have hother : ∀ job, jobs[id]? = some job → job.state ≠ .available :=
      fun job hjob hstate ↦ h ⟨job, hjob, hstate⟩
    rw [normalize_get_other hother]
    cases hjob : jobs[id]? with
    | none => rfl
    | some job => rw [Option.map_some, if_neg (hother job hjob)]

/-- The places of renumbered jobs are the old ones. -/
theorem place_normalize (jobs : Table JobId Job) : place (normalizeAvailability jobs) = place jobs := by
  have hfst : (numbered jobs).map Prod.fst = (availableSorted jobs).map Prod.fst := by
    refine List.ext_getElem? fun i ↦ ?_
    rw [List.getElem?_map, List.getElem?_map, numbered_getElem?, Option.map_map]
    rfl
  funext id
  rw [place, place, availableSorted_normalize, hfst]

theorem normalize_idem (jobs : Table JobId Job) :
    normalizeAvailability (normalizeAvailability jobs) = normalizeAvailability jobs := by
  apply Std.ExtTreeMap.ext_getElem?
  intro id
  rw [normalize_place, place_normalize, normalize_place, Option.map_map]
  cases jobs[id]? with
  | none => rfl
  | some job =>
    by_cases hstate : job.state = .available
    · simp [hstate]
    · simp [hstate]

/-! ## The two indexes -/

/-- What the queue index compares is where two jobs stand. -/
theorem queueKey_lt_iff {jobs : Table JobId Job} {x y : Job} (hx : jobs[x.id]? = some x) (hy : jobs[y.id]? = some y) (hxs : x.state = .available)
    (hys : y.state = .available) :
    QueueIndex.key x < QueueIndex.key y ↔ place jobs x.id < place jobs y.id := by
  obtain ⟨i, hi⟩ := exists_place hx hxs
  obtain ⟨j, hj⟩ := exists_place hy hys
  rw [place_eq hi, place_eq hj]
  have hlt := sortBy_lt_iff available_inj (nodup_available jobs).of_map hi hj
  simp only [availabilityKey] at hlt
  exact hlt.trans (by omega)

theorem taskKey_lt_iff {x y : Job} (hqueue : x.definition.queueKey = y.definition.queueKey)
    (hworker : x.definition.workerKey = y.definition.workerKey) :
    TaskIndex.key x < TaskIndex.key y ↔ QueueIndex.key x < QueueIndex.key y := by
  simp only [TaskIndex.key, QueueIndex.key, Prod.Lex.toLex_lt_toLex, hqueue, hworker, lt_irrefl, true_and,
    false_or]

/-- What the keys read besides the order stays. -/
theorem normalize_fields {jobs : Table JobId Job} {id : JobId} {x x' : Job} (hx : jobs[id]? = some x)
    (hstate : x.state = .available) (hx' : (normalizeAvailability jobs)[id]? = some x') :
    x'.id = x.id ∧ x'.state = .available ∧ x'.definition.queueKey = x.definition.queueKey ∧
      x'.definition.workerKey = x.definition.workerKey := by
  rw [normalize_place, hx, Option.map_some, if_pos hstate] at hx'
  cases hx'
  exact ⟨rfl, hstate, rfl, rfl⟩

/-- A job that is not available has no order. -/
theorem order_eq_none {job : Job} {limits : Value.Limits} (h : Codec.snapshot? job limits = .ok ())
    (hstate : job.state ≠ .available) : job.availabilityOrder = none := by
  have hfields := (Codec.snapshot?_iff.mp h).2.state
  cases hcase : job.state with
  | available => exact absurd hcase hstate
  | scheduled | retryable | executing | completed | cancelled | discarded =>
    simp only [Codec.stateFields?, hcase, Bool.and_eq_true, Option.isNone_iff_eq_none] at hfields
    exact hfields.1.1.2

/-- Renumbering preserves the dispatch order. In a map of valid snapshots under their ids, it gives the
available jobs the orders 1 to their number, one each, and changes nothing else; doing it again changes
nothing; and two available jobs compare as before in the index of their queue, and in the index of their
queue and task. -/
theorem normalizeAvailability_preserves {jobs : Table JobId Job} {limits : Value.Limits}
    (hkeyed : Keyed Job.id jobs)
    (hvalid : ∀ (id : JobId) (job : Job), jobs[id]? = some job → Codec.snapshot? job limits = .ok ()) :
    (∃ (n : ℕ) (order : JobId → ℕ), Set.BijOn order (availableIds jobs) (Set.Icc 1 n) ∧
      ∀ id : JobId, (normalizeAvailability jobs)[id]? = (jobs[id]?).map fun job ↦
        { job with availabilityOrder := if job.state = .available then some (order id) else none }) ∧
    normalizeAvailability (normalizeAvailability jobs) = normalizeAvailability jobs ∧
    ∀ (a b : JobId) (x y x' y' : Job), jobs[a]? = some x → jobs[b]? = some y →
      x.state = .available → y.state = .available →
      (normalizeAvailability jobs)[a]? = some x' → (normalizeAvailability jobs)[b]? = some y' →
      x.definition.queueKey = y.definition.queueKey →
        (QueueIndex.key x' < QueueIndex.key y' ↔ QueueIndex.key x < QueueIndex.key y) ∧
        (x.definition.workerKey = y.definition.workerKey →
          (TaskIndex.key x' < TaskIndex.key y' ↔ TaskIndex.key x < TaskIndex.key y)) := by
  refine ⟨⟨_, place jobs, place_bijOn jobs, fun id ↦ ?_⟩, normalize_idem jobs, ?_⟩
  · rw [normalize_place]
    cases hjob : jobs[id]? with
    | none => rfl
    | some job =>
      by_cases hstate : job.state = .available
      · simp only [Option.map_some, if_pos hstate]
      · simp only [Option.map_some, if_neg hstate]
        rw [← order_eq_none (hvalid id job hjob) hstate]
  · intro a b x y x' y' hx hy hxs hys hx' hy' hqueue
    obtain rfl := hkeyed a x hx
    obtain rfl := hkeyed b y hy
    obtain ⟨hxid, hxs', hxq, hxw⟩ := normalize_fields hx hxs hx'
    obtain ⟨hyid, hys', hyq, hyw⟩ := normalize_fields hy hys hy'
    have hbefore := queueKey_lt_iff hx hy hxs hys
    have hafter := queueKey_lt_iff (hxid ▸ hx') (hyid ▸ hy') hxs' hys'
    rw [place_normalize, hxid, hyid] at hafter
    have hqueues := hafter.trans hbefore.symm
    refine ⟨hqueues, fun hworker ↦ ?_⟩
    have htask := taskKey_lt_iff hqueue hworker
    have htask' := taskKey_lt_iff (hxq.trans (hqueue.trans hyq.symm)) (hxw.trans (hworker.trans hyw.symm))
    exact htask'.trans (hqueues.trans htask.symm)

namespace Sample

open Tay.Sample

/-- A ready job. -/
def ready (id order : ℕ) : Job :=
  ⟨id, definition, definition.toValue.wire, .available, 0, some 1, 1, none, some 10, none, some order, 10, none,
    none, none, none, 1, none⟩

/-- Two jobs whose orders leave holes, against the order of their ids. -/
def holes : Table JobId Job := ((∅ : Table JobId Job).insert 1 (ready 1 9)).insert 2 (ready 2 4)

end Sample

theorem normalizeAvailability_preserves_holes :
    (normalizeAvailability Sample.holes)[1]? = some (Sample.ready 1 2) ∧
    (normalizeAvailability Sample.holes)[2]? = some (Sample.ready 2 1) ∧
    normalizeAvailability (normalizeAvailability Sample.holes) = normalizeAvailability Sample.holes := by
  have hget : ∀ (id : JobId) (job : Job), Sample.holes[id]? = some job →
      job.id = id ∧ Codec.snapshot? job Value.defaults = .ok () := by
    intro id job hjob
    rw [Sample.holes, Foundation.Table.get_insert, Foundation.Table.get_insert] at hjob
    split at hjob
    · cases hjob
      exact ⟨‹2 = id›, by decide +kernel⟩
    · split at hjob
      · cases hjob
        exact ⟨‹1 = id›, by decide +kernel⟩
      · simp at hjob
  refine ⟨by decide +kernel, by decide +kernel, ?_⟩
  exact (normalizeAvailability_preserves (fun id job hjob ↦ (hget id job hjob).1)
    fun id job hjob ↦ (hget id job hjob).2).2.1

end Snapshot

end Tay
