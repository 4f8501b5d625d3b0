import Mathlib.Order.Bounds.Basic
import Tay.Foundation.Index
import Tay.Storage.Canonical

/-!
# The index of the schedules

`Tay.State.ScheduleIndex`: beside the schedules the engine keeps a row for each of them, and the set of
the times at which those that are not cancelled are due. Every accepted event on a schedule puts the
version it leaves; the key of the version before is found in its row. So the index is always the one
that would be made from the schedules, and a page of it, cut off by a number of entries or of bytes, is
followed by the next one until every schedule has been listed.
-/

open Foundation

namespace Tay.ScheduleIndex

open V2

/-! ## The index -/

structure Index where
  /-- `{id, cancelled_at, next_at}`. -/
  ids : Table Binary (Option ℕ × ℕ)
  /-- `{next_at, id}`. -/
  due : Table (ℕ ×ₗ Binary) Unit

/-- The key of an uncancelled schedule. -/
def dueKey (s : Schedule) : Option ((ℕ ×ₗ Binary) × Unit) :=
  if s.cancelledAt.isNone then some (toLex (s.nextAt, s.id), ()) else none

/-- The key that a row stands for. -/
def rowKey (id : Binary) : Option (Option ℕ × ℕ) → Option (ℕ ×ₗ Binary)
  | some (none, nextAt) => some (toLex (nextAt, id))
  | _ => none

def put (index : Index) (s : Schedule) : Index where
  ids := index.ids.insert s.id (s.cancelledAt, s.nextAt)
  due := Foundation.put (drop index.due (rowKey s.id index.ids[s.id]?)) (dueKey s)

def new (schedules : Table Binary Schedule) : Index :=
  (schedules.toList.map Prod.snd).foldl put ⟨∅, ∅⟩

structure Stats where
  activeSchedules : ℕ
  cancelledSchedules : ℤ
  scheduleNextAt : Option ℕ
  deriving DecidableEq, Repr

def stats (index : Index) : Stats where
  activeSchedules := index.due.size
  cancelledSchedules := index.ids.size - index.due.size
  scheduleNextAt := index.due.minKey?.map fun k ↦ (ofLex k).1

/-! ## Pages -/

def defaultLimit : ℤ := 50

def maxLimit : ℤ := 100

def pageBytes : ℕ := 262144

structure Query where
  limit : ℕ
  after : Option Binary
  deriving DecidableEq, Repr

/-- `query`; a limit or a cursor that is missing is `none`. -/
def query (limit : Option ℤ) (after : Option Binary) : Option Query :=
  let limit := limit.getD defaultLimit
  if 1 ≤ limit ∧ limit ≤ maxLimit ∧ after.all identifier? then some ⟨limit.toNat, after⟩ else none

/-- `Schedule.view`: what a schedule shows. -/
structure View where
  id : Binary
  definition : ScheduleDefinition
  activeJobId : Option JobId
  nextAt : ℕ
  lastAt : Option ℕ
  cancelledAt : Option ℕ
  revision : ℕ
  deriving DecidableEq

def view (s : Schedule) : View where
  id := s.id
  definition := s.definition
  activeJobId := s.activeJobId
  nextAt := s.nextAt
  lastAt := s.lastAt
  cancelledAt := s.cancelledAt
  revision := s.revision

structure Page where
  schedules : List View
  nextCursor : Option Binary
  deriving DecidableEq

/-- The keys of the table from a cursor on, in the order in which `:ets.next` finds them. -/
def keysAfter (index : Index) : Option Binary → List Binary
  | none => index.ids.keys
  | some after => index.ids.keys.filter fun k ↦ compare after k == .lt

section Pages

-- `Memory.bytes` of a view, and the bytes a page may have
variable (size : View → ℕ) (budget : ℕ)

/-- `collect`, over the keys that are left; `none` where the schedule of a key is missing. -/
def collect (schedules : Table Binary Schedule) :
    List Binary → ℕ → List View → ℕ → Option Page
  | [], _, acc, _ => some ⟨acc.reverse, none⟩
  | _ :: _, 0, acc, _ => some ⟨acc.reverse, acc.head?.map View.id⟩
  | key :: keys, left + 1, acc, bytes =>
    (schedules[key]?).bind fun s ↦
      let value := view s
      if acc ≠ [] ∧ budget < bytes + size value then
        some ⟨acc.reverse, acc.head?.map View.id⟩
      else collect schedules keys left (value :: acc) (bytes + size value)

def page (index : Index) (schedules : Table Binary Schedule) (q : Query) : Option Page :=
  collect size budget schedules (keysAfter index q.after) q.limit [] 0

/-- Pages of one size, each from where the one before has ended, `n` at most. -/
def follow (index : Index) (schedules : Table Binary Schedule) (limit : Option ℤ) :
    ℕ → Option Binary → Option (List Page)
  | 0, _ => none
  | n + 1, after =>
    (query limit after).bind fun q ↦
      (page size budget index schedules q).bind fun p ↦
        match p.nextCursor with
        | none => some [p]
        | some cursor => (follow index schedules limit n (some cursor)).map (p :: ·)

end Pages

/-! ## What the index is -/

/-- The index is beside the schedules it was made for. -/
structure Mirrors (schedules : Table Binary Schedule) (index : Index) : Prop where
  keyed : Keyed Schedule.id schedules
  rows : ∀ id : Binary, index.ids[id]? = (schedules[id]?).map fun s ↦ (s.cancelledAt, s.nextAt)
  due : Lists dueKey schedules index.due

variable {schedules : Table Binary Schedule} {index : Index} {s : Schedule}

theorem named (h : Keyed Schedule.id schedules) :
    Named Schedule.id (fun k : ℕ ×ₗ Binary ↦ (ofLex k).2) dueKey schedules := by
  refine ⟨h, fun s k u hk ↦ ?_⟩
  unfold dueKey at hk
  split at hk
  case isTrue =>
    cases hk
    rfl
  case isFalse => cases hk

/-- The row of a schedule tells its key. -/
theorem Mirrors.rowKey (h : Mirrors schedules index) (id : Binary) :
    rowKey id index.ids[id]? = ((schedules[id]?).bind dueKey).map Prod.fst := by
  rw [h.rows id]
  cases hs : schedules[id]? with
  | none => rfl
  | some s =>
    obtain rfl := h.keyed id s hs
    rw [Option.map_some, Option.bind_some]
    cases hc : s.cancelledAt <;> simp [ScheduleIndex.rowKey, dueKey, hc]

theorem mirrors_empty : Mirrors ∅ ⟨∅, ∅⟩ := by
  refine ⟨fun id s hs ↦ ?_, fun id ↦ ?_, lists_empty⟩
  · simp at hs
  · simp

/-- **A version is put.** -/
theorem Mirrors.put (h : Mirrors schedules index) (s : Schedule) :
    Mirrors (schedules.insert s.id s) (put index s) := by
  have hkeyed : Keyed Schedule.id (schedules.insert s.id s) := h.keyed.insert rfl
  refine ⟨hkeyed, fun id ↦ ?_, ?_⟩
  · rw [ScheduleIndex.put, Foundation.Table.get_insert, Foundation.Table.get_insert]
    split
    · rfl
    · exact h.rows id
  · have hmoved := h.due.moved (i := s.id) (named h.keyed) (named hkeyed)
      (fun j hj ↦ by rw [Foundation.Table.get_insert, if_neg hj.symm]) fun _ _ ↦ rfl
    rw [Foundation.Table.get_insert, if_pos rfl, Option.bind_some, ← h.rowKey] at hmoved
    exact hmoved

/-- A new index is made of all the schedules. -/
theorem mirrors_new (h : Keyed Schedule.id schedules) : Mirrors schedules (new schedules) := by
  have hmem (p : Binary × Schedule) : p ∈ schedules.toList ↔ schedules[p.1]? = some p.2 :=
    Std.ExtTreeMap.mem_toList_iff_getElem?_eq_some
  have hfold : ∀ (l : List (Binary × Schedule)) (t : Table Binary Schedule) (index : Index),
      (∀ p ∈ l, p.2.id = p.1) → Mirrors t index →
        Mirrors (l.foldl (fun t p ↦ t.insert p.1 p.2) t)
          ((l.map Prod.snd).foldl ScheduleIndex.put index) := by
    intro l
    induction l with
    | nil => exact fun _ _ _ h ↦ h
    | cons p l ih =>
      intro t index hids ht
      have hput := ht.put p.2
      rw [hids p List.mem_cons_self] at hput
      exact ih _ _ (fun q hq ↦ hids q (List.mem_cons_of_mem _ hq)) hput
  have hnodup : (schedules.toList.map Prod.fst).Nodup := by
    rw [Std.ExtTreeMap.map_fst_toList_eq_keys]
    exact Std.ExtTreeMap.nodup_keys
  have hall := hfold schedules.toList ∅ ⟨∅, ∅⟩ (fun p hp ↦ h p.1 p.2 ((hmem p).mp hp)) mirrors_empty
  rwa [Foundation.Table.foldl_insert_eq schedules hnodup hmem] at hall

/-! ## Statistics -/

/-- The due set has the uncancelled schedules. -/
theorem Mirrors.due_iff (h : Mirrors schedules index) (t : ℕ) (id : Binary) :
    (index.due[toLex (t, id)]?).isSome ↔
      ∃ s, schedules[id]? = some s ∧ s.cancelledAt = none ∧ s.nextAt = t := by
  rw [Option.isSome_iff_exists]
  constructor
  · rintro ⟨u, hu⟩
    obtain ⟨j, s, hs, hkey⟩ := (h.due _ u).mp hu
    unfold dueKey at hkey
    split at hkey
    case isFalse => cases hkey
    case isTrue hnone =>
      simp only [Option.some.injEq, Prod.mk.injEq, toLex_inj] at hkey
      obtain ⟨⟨rfl, rfl⟩, -⟩ := hkey
      obtain rfl := h.keyed j s hs
      exact ⟨s, hs, Option.isNone_iff_eq_none.mp hnone, rfl⟩
  · rintro ⟨s, hs, hnone, rfl⟩
    refine ⟨(), (h.due _ ()).mpr ⟨id, s, hs, ?_⟩⟩
    rw [dueKey, hnone, h.keyed id s hs]
    rfl

theorem Mirrors.active (h : Mirrors schedules index) :
    index.due.size = Foundation.Table.tally (fun s ↦ s.cancelledAt.isNone) schedules := by
  have hlength := (h.due.perm (named h.keyed)).length_eq
  rw [Std.ExtTreeMap.length_toList] at hlength
  rw [← hlength, tally_eq_countP, List.countP_eq_length_filter]
  generalize schedules.toList = l
  induction l with
  | nil => rfl
  | cons p l ih =>
    rw [List.filterMap_cons, List.filter_cons, dueKey]
    by_cases hnone : p.2.cancelledAt.isNone = true
    · rw [if_pos hnone, if_pos hnone]
      exact congrArg Nat.succ ih
    · rw [if_neg hnone, if_neg hnone]
      exact ih

theorem Mirrors.ids (h : Mirrors schedules index) :
    index.ids = schedules.map fun _ s ↦ (s.cancelledAt, s.nextAt) := by
  apply Std.ExtTreeMap.ext_getElem?
  intro id
  rw [h.rows id, Std.ExtTreeMap.getElem?_map]

theorem Mirrors.size (h : Mirrors schedules index) : index.ids.size = schedules.size := by
  rw [h.ids, Std.ExtTreeMap.size_map]

theorem Mirrors.keys (h : Mirrors schedules index) : index.ids.keys = schedules.keys := by
  rw [h.ids, Std.ExtTreeMap.keys_map]

/-- What is active and what is not are all. -/
theorem tally_not (p : Schedule → Bool) (t : Table Binary Schedule) :
    Foundation.Table.tally p t + Foundation.Table.tally (fun s ↦ !p s) t = t.size := by
  rw [tally_eq_countP, tally_eq_countP, ← Std.ExtTreeMap.length_toList]
  rw [List.length_eq_countP_add_countP (fun x : Binary × Schedule ↦ p x.2)]
  congr 2
  funext x
  cases p x.2 <;> rfl

/-- An earlier key is due no later. -/
theorem le_of_compare {x y : ℕ ×ₗ Binary} (h : (compare x y).isLE = true) :
    (ofLex x).1 ≤ (ofLex y).1 := by
  rw [Prod.Lex.compare_def, compareLex] at h
  by_contra hlt
  have hgt : compare (ofLex x).1 (ofLex y).1 = .gt := compare_gt_iff_gt.mpr (not_le.mp hlt)
  have hfirst : compareOn (fun p : ℕ ×ₗ Binary ↦ (ofLex p).1) x y = .gt := hgt
  rw [hfirst] at h
  cases h

/-- When the schedules that are not cancelled are due. -/
def dueTimes (schedules : Table Binary Schedule) : Set ℕ :=
  {n | ∃ (id : Binary) (s : Schedule), schedules[id]? = some s ∧ s.cancelledAt = none ∧ s.nextAt = n}

theorem Mirrors.earliest (h : Mirrors schedules index) (t : ℕ) :
    (stats index).scheduleNextAt = some t ↔ IsLeast (dueTimes schedules) t := by
  have hmem : ∀ k : ℕ ×ₗ Binary, k ∈ index.due ↔
      ∃ s, schedules[(ofLex k).2]? = some s ∧ s.cancelledAt = none ∧ s.nextAt = (ofLex k).1 :=
    fun k ↦ Std.ExtTreeMap.mem_iff_isSome_getElem?.trans (h.due_iff (ofLex k).1 (ofLex k).2)
  have hleast : ∀ k, index.due.minKey? = some k →
      IsLeast (dueTimes schedules) (ofLex k).1 := by
    intro k hk
    obtain ⟨hin, hmin⟩ := Std.ExtTreeMap.minKey?_eq_some_iff_mem_and_forall.mp hk
    obtain ⟨s, hs, hnone, hnext⟩ := (hmem k).mp hin
    refine ⟨⟨_, s, hs, hnone, hnext⟩, ?_⟩
    rintro n ⟨id, s', hs', hnone', rfl⟩
    exact le_of_compare (hmin (toLex (s'.nextAt, id)) ((hmem _).mpr ⟨s', hs', hnone', rfl⟩))
  simp only [stats]
  constructor
  · intro ht
    obtain ⟨k, hk, rfl⟩ := Option.map_eq_some_iff.mp ht
    exact hleast k hk
  · intro ht
    obtain ⟨id, s, hs, hnone, hnext⟩ := ht.1
    have hin : toLex (t, id) ∈ index.due := (hmem _).mpr ⟨s, hs, hnone, hnext⟩
    have hne : index.due ≠ ∅ := by
      intro hempty
      rw [hempty] at hin
      exact Std.ExtTreeMap.not_mem_empty hin
    obtain ⟨k, hk⟩ := Option.isSome_iff_exists.mp
      (Std.ExtTreeMap.isSome_minKey?_iff_ne_empty.mpr hne)
    rw [hk, Option.map_some, (hleast k hk).unique ht]

/-! ## Following the pages -/

section Pages

variable {size : View → ℕ} {budget : ℕ}

/-- A page takes what is next, as long as there is room, and at least one schedule. -/
theorem collect_eq (vs : List View) : ∀ (left : ℕ) (acc : List View) (bytes : ℕ),
    (∀ v ∈ vs, (schedules[v.id]?).map view = some v) →
    ∃ n ≤ vs.length, (acc = [] → 0 < left → vs ≠ [] → 0 < n) ∧
      collect size budget schedules (vs.map View.id) left acc bytes =
        some ⟨acc.reverse ++ vs.take n, if n < vs.length then
          ((acc.reverse ++ vs.take n).getLast?).map View.id else none⟩ := by
  induction vs with
  | nil =>
    intro left acc bytes _
    exact ⟨0, le_rfl, fun _ _ hne ↦ absurd rfl hne, by simp [collect]⟩
  | cons v vs ih =>
    intro left acc bytes hknown
    cases left with
    | zero =>
      exact ⟨0, Nat.zero_le _, fun _ hleft ↦ absurd hleft (lt_irrefl _), by simp [collect]⟩
    | succ left =>
      obtain ⟨s, hs, hv⟩ := Option.map_eq_some_iff.mp (hknown v List.mem_cons_self)
      by_cases hcut : acc ≠ [] ∧ budget < bytes + size v
      · refine ⟨0, Nat.zero_le _, fun hacc ↦ absurd hacc hcut.1, ?_⟩
        simp [collect, hs, hv, hcut]
      · obtain ⟨n, hn, -, hcollect⟩ := ih left (v :: acc) (bytes + size v) fun w hw ↦
          hknown w (List.mem_cons_of_mem _ hw)
        refine ⟨n + 1, Nat.succ_le_succ hn, fun _ _ _ ↦ Nat.succ_pos n, ?_⟩
        rw [List.map_cons, collect, hs, Option.bind_some, hv]
        simp only [if_neg hcut, hcollect, List.reverse_cons, List.append_assoc, List.cons_append,
          List.nil_append, List.take_succ_cons, List.length_cons, Nat.add_lt_add_iff_right]

/-- What comes after a key of an ascending list. -/
theorem filter_after {before after : List Binary} {x : Binary}
    (hsorted : (before ++ x :: after).Pairwise fun a b ↦ compare a b = .lt) :
    (before ++ x :: after).filter (fun k ↦ compare x k == .lt) = after := by
  obtain ⟨-, hx, hbefore⟩ := List.pairwise_append.mp hsorted
  obtain ⟨hafter, -⟩ := List.pairwise_cons.mp hx
  have hdropped : before.filter (fun k ↦ compare x k == .lt) = [] := by
    refine List.filter_eq_nil_iff.mpr fun k hk ↦ ?_
    have hlt := hbefore k hk x List.mem_cons_self
    have hswap : compare x k = (compare k x).swap := Std.OrientedCmp.eq_swap
    rw [hswap, hlt]
    decide
  have hkept : after.filter (fun k ↦ compare x k == .lt) = after :=
    List.filter_eq_self.mpr fun k hk ↦ by rw [hafter k hk]; rfl
  have hself : compare x x = .eq := Std.ReflCmp.compare_self
  rw [List.filter_append, List.filter_cons, hdropped, hkept, hself]
  rfl

theorem query_after {limit : Option ℤ} {after : Option Binary} (h : (query limit none).isSome)
    (hafter : after.all identifier? = true) : ∃ l, 0 < l ∧ query limit after = some ⟨l, after⟩ := by
  unfold query at h ⊢
  simp only at h ⊢
  split at h
  case isFalse => cases h
  case isTrue hlimit =>
    exact ⟨_, by omega, if_pos ⟨hlimit.1, hlimit.2.1, hafter⟩⟩

/-- **Page after page.** The schedules that are left are listed, none twice, and every page lists at
least one of them. -/
theorem follow_eq (hvalid : ∀ id ∈ index.ids.keys, identifier? id = true) {limit : Option ℤ}
    (hlimit : (query limit none).isSome) (n : ℕ) :
    ∀ (after : Option Binary) (before : List Binary) (vs : List View),
      index.ids.keys = before ++ vs.map View.id → keysAfter index after = vs.map View.id →
      after.all identifier? = true → (∀ v ∈ vs, (schedules[v.id]?).map view = some v) →
      vs.length < n →
      ∃ pages, follow size budget index schedules limit n after = some pages ∧
        pages.flatMap Page.schedules = vs ∧ (vs ≠ [] → ∀ p ∈ pages, p.schedules ≠ []) := by
  induction n with
  | zero => exact fun _ _ vs _ _ _ _ hn ↦ absurd hn (Nat.not_lt_zero _)
  | succ n ih =>
    intro after before vs hkeys hafter hcursor hknown hn
    obtain ⟨l, hl, hquery⟩ := query_after hlimit hcursor
    obtain ⟨m, hm, hprogress, hcollect⟩ := @collect_eq schedules size budget vs l [] 0 hknown
    have hpage : page size budget index schedules ⟨l, after⟩ = some ⟨vs.take m,
        if m < vs.length then ((vs.take m).getLast?).map View.id else none⟩ := by
      rw [page, hafter, hcollect]
      rfl
    have hnonempty : vs ≠ [] → vs.take m ≠ [] := by
      intro hne htake
      have := hprogress rfl hl hne
      rcases List.take_eq_nil_iff.mp htake with hzero | hnil
      · omega
      · exact hne hnil
    rw [follow, hquery, Option.bind_some, hpage, Option.bind_some]
    by_cases hmore : m < vs.length
    · have hne : vs ≠ [] := by
        rintro rfl
        exact absurd hmore (Nat.not_lt_zero _)
      obtain ⟨init, v, hlast⟩ : ∃ init v, vs.take m = init ++ [v] :=
        ⟨_, _, (List.dropLast_append_getLast (hnonempty hne)).symm⟩
      have hsplit : vs = init ++ v :: vs.drop m := by
        conv_lhs => rw [← List.take_append_drop m vs, hlast]
        simp
      -- the next page starts behind the last schedule of this one
      have hkeys' : index.ids.keys = (before ++ init.map View.id) ++ v.id :: (vs.drop m).map View.id := by
        rw [hkeys]
        conv_lhs => rw [hsplit]
        simp
      have hrest : keysAfter index (some v.id) = (vs.drop m).map View.id := by
        have hsorted := Std.ExtTreeMap.ordered_keys (t := index.ids)
        rw [keysAfter, hkeys']
        rw [hkeys'] at hsorted
        exact filter_after hsorted
      have hv : identifier? v.id = true := hvalid _ (by rw [hkeys']; simp)
      have hlength : (vs.drop m).length < n := by
        have := hprogress rfl hl hne
        rw [List.length_drop]
        omega
      obtain ⟨pages, hpages, hall, hlisted⟩ := ih (some v.id) (before ++ init.map View.id ++ [v.id])
        (vs.drop m) (by rw [hkeys']; simp) hrest hv (fun w hw ↦ hknown w (List.mem_of_mem_drop hw)) hlength
      have hdrop : vs.drop m ≠ [] := by
        intro hnil
        have := congrArg List.length hnil
        rw [List.length_drop, List.length_nil] at this
        omega
      refine ⟨⟨vs.take m, some v.id⟩ :: pages, ?_, ?_, fun _ p hp ↦ ?_⟩
      · simp only [if_pos hmore, hlast, List.getLast?_append_cons, List.getLast?_singleton,
          Option.map_some, hpages]
      · rw [List.flatMap_cons, hall, List.take_append_drop]
      · rcases List.mem_cons.mp hp with rfl | hp
        · exact hnonempty hne
        · exact hlisted hdrop p hp
    · have hlen : vs.take m = vs := List.take_of_length_le (by omega)
      refine ⟨[⟨vs, none⟩], by rw [if_neg hmore, hlen], by simp, fun hne p hp ↦ ?_⟩
      rw [List.mem_singleton.mp hp]
      exact hne

end Pages

/-! ## Runs -/

/-- The schedules of an engine and their index. -/
structure Store where
  schedules : Table Binary Schedule
  index : Index

/-- An auxiliary event is accepted at a sequence, by a candidate with these schedules; or a generation
starts, with an index made anew. -/
inductive Label
  | commit (seed : Candidate) (e : AuxEvent) (sequence : ℕ)
  | generation

/-- The index after an event: the version it leaves of its schedule is put. -/
def indexAfter (index : Index) (e : AuxEvent) (schedules : Table Binary Schedule) : Index :=
  match e.body.scheduleId?.bind fun id ↦ schedules[id]? with
  | some s => put index s
  | none => index

/-- Registrations, advances, deliveries, cancellations and restatements, in any order. Nothing removes a
schedule. -/
def indexing (vm : Runtime) : Machine Store Label where
  initial x := x.schedules = ∅ ∧ x.index = new ∅
  step x
    | .commit seed e sequence =>
      (Auxiliary.reduce vm { seed with schedules := x.schedules } e sequence).toOption.map fun c ↦
        ⟨c.schedules, indexAfter x.index e c.schedules⟩
    | .generation => some { x with index := new x.schedules }

/-- The index is right, and every schedule can be restated, so that its id can be a cursor. -/
structure Indexed (x : Store) : Prop where
  mirrors : Mirrors x.schedules x.index
  fit : Canonical.Fit x.schedules

variable {vm : Runtime} {x x' : Store}

/-- What an event leaves is a version of the schedule it names. -/
theorem next_id {c : Candidate} {e : AuxEvent} {sequence : ℕ} {id : Binary} {s : Schedule}
    (hkeyed : Keyed Schedule.id c.schedules) (h : Canonical.Next c e sequence id s) : s.id = id := by
  cases h with
  | registered _ _ => rfl
  | restated _ _ _ => rfl
  | members _ _ => rfl
  | advanced _ hs _ =>
    have hid := hkeyed id _ hs
    exact hid
  | cancelled _ hs _ =>
    have hid := hkeyed id _ hs
    exact hid
  | delivered _ hs _ =>
    have hid := hkeyed id _ hs
    exact hid

theorem indexed_commit {seed : Candidate} {e : AuxEvent} {sequence : ℕ} {c : Candidate}
    (hx : Indexed x)
    (h : Auxiliary.reduce vm { seed with schedules := x.schedules } e sequence = .ok c) :
    Indexed ⟨c.schedules, indexAfter x.index e c.schedules⟩ := by
  have hkeyed : Keyed Schedule.id { seed with schedules := x.schedules }.schedules := hx.mirrors.keyed
  refine ⟨?_, Canonical.Fit.reduce vm hkeyed hx.fit h⟩
  obtain ⟨-, -, next, haccepted, hc⟩ := Canonical.reduce_accepted vm hkeyed h
  rw [hc]
  cases haccepted with
  | @schedule id s hid hs =>
    have hget : (x.schedules.insert id s)[id]? = some s := by
      rw [Foundation.Table.get_insert, if_pos rfl]
    have hindex : indexAfter x.index e (x.schedules.insert id s) = put x.index s := by
      simp only [indexAfter, hid, Option.bind_some, hget]
    have hput := hx.mirrors.put s
    rw [next_id hkeyed hs] at hput
    simp only [hindex]
    exact hput
  | @result id value job hbody =>
    have hindex : indexAfter x.index e x.schedules = x.index := by
      simp only [indexAfter, hbody, AuxBody.scheduleId?, Option.bind_none]
    simp only [hindex]
    exact hx.mirrors

theorem indexed_step {l : Label} (hx : Indexed x) (h : (indexing vm).step x l = some x') :
    Indexed x' := by
  cases l with
  | commit seed e sequence =>
    obtain ⟨c, hc, rfl⟩ := Option.map_eq_some_iff.mp h
    exact indexed_commit hx (toOption_eq_some.mp hc)
  | generation =>
    cases h
    exact ⟨mirrors_new hx.mirrors.keyed, hx.fit⟩

theorem indexed_of_reachable (hx : (indexing vm).Reachable x) : Indexed x := by
  refine hx.invariant (fun x hinit ↦ ?_) fun x l x' hI hl ↦ indexed_step hI hl
  obtain ⟨hschedules, hindex⟩ := hinit
  refine ⟨?_, fun id s hs ↦ ?_⟩
  · rw [hschedules, hindex]
    exact mirrors_new fun id s hs ↦ by simp at hs
  · simp [hschedules] at hs

/-- The index says of the schedules what is so: the due set has those that are not cancelled at their
next times, the statistics are theirs, and the pages of any size list every schedule once, in order, and
never an empty page. -/
structure Exact (x : Store) : Prop where
  due : ∀ (t : ℕ) (id : Binary), (x.index.due[toLex (t, id)]?).isSome ↔
    ∃ s, x.schedules[id]? = some s ∧ s.cancelledAt = none ∧ s.nextAt = t
  active : (stats x.index).activeSchedules =
    Foundation.Table.tally (fun s ↦ s.cancelledAt.isNone) x.schedules
  cancelled : (stats x.index).cancelledSchedules =
    Foundation.Table.tally (fun s ↦ !s.cancelledAt.isNone) x.schedules
  earliest : ∀ t, (stats x.index).scheduleNextAt = some t ↔ IsLeast (dueTimes x.schedules) t
  pages : ∀ (size : View → ℕ) (budget : ℕ) (limit : Option ℤ), (query limit none).isSome →
    ∃ pages, follow size budget x.index x.schedules limit (x.schedules.size + 1) none = some pages ∧
      pages.flatMap Page.schedules = x.schedules.toList.map (fun p ↦ view p.2) ∧
      (x.schedules ≠ ∅ → ∀ p ∈ pages, p.schedules ≠ [])

/-- **The index is right**, after any events on schedules. -/
theorem index_exact (hx : (indexing vm).Reachable x) : Exact x := by
  obtain ⟨hmirrors, hfit⟩ := indexed_of_reachable hx
  have hmem (p : Binary × Schedule) : p ∈ x.schedules.toList ↔ x.schedules[p.1]? = some p.2 :=
    Std.ExtTreeMap.mem_toList_iff_getElem?_eq_some
  have hcursors : ∀ id ∈ x.index.ids.keys, identifier? id = true := by
    intro id hid
    rw [hmirrors.keys, Std.ExtTreeMap.mem_keys, Std.ExtTreeMap.mem_iff_isSome_getElem?,
      Option.isSome_iff_exists] at hid
    obtain ⟨s, hs⟩ := hid
    have hvalid := (hfit id s hs).id
    rwa [hmirrors.keyed id s hs] at hvalid
  have hviews : ∀ v ∈ x.schedules.toList.map fun p ↦ view p.2,
      (x.schedules[v.id]?).map view = some v := by
    intro v hv
    obtain ⟨p, hp, rfl⟩ := List.mem_map.mp hv
    have hget := (hmem p).mp hp
    have hid : (view p.2).id = p.1 := hmirrors.keyed p.1 p.2 hget
    rw [hid, hget, Option.map_some]
  refine ⟨hmirrors.due_iff, hmirrors.active, ?_, hmirrors.earliest, fun size budget limit hlimit ↦ ?_⟩
  · have hall := tally_not (fun s ↦ s.cancelledAt.isNone) x.schedules
    simp only [stats, hmirrors.size, hmirrors.active]
    omega
  · have hids : x.index.ids.keys = (x.schedules.toList.map fun p ↦ view p.2).map View.id := by
      rw [hmirrors.keys, List.map_map, ← Std.ExtTreeMap.map_fst_toList_eq_keys]
      exact List.map_congr_left fun p hp ↦ (hmirrors.keyed p.1 p.2 ((hmem p).mp hp)).symm
    obtain ⟨pages, hpages, hall, hlisted⟩ := @follow_eq x.schedules x.index size budget hcursors limit
      hlimit (x.schedules.size + 1) none []
      (x.schedules.toList.map fun p : Binary × Schedule ↦ view p.2) hids hids rfl hviews
      (by rw [List.length_map, Std.ExtTreeMap.length_toList]; omega)
    refine ⟨pages, hpages, hall, fun hne ↦ hlisted fun hnil ↦ hne ?_⟩
    exact Std.ExtTreeMap.toList_eq_nil_iff.mp (List.map_eq_nil_iff.mp hnil)

/-- Registered, then advanced and cancelled, in a later generation. -/
def sampleRun : List Label :=
  [.commit Tay.Sample.fresh
      ⟨0, 5, .scheduleRegistered (text "nightly") Tay.Sample.scheduleDefinition 60000⟩ 1,
    .generation,
    .commit Tay.Sample.fresh
      ⟨1, 60001, .scheduleAdvanced (text "nightly") 60000 120000⟩ 2]

theorem index_exact_sample : ∃ x, (indexing Tay.Sample.runtime).Reachable x ∧
    (x.schedules[text "nightly"]?).any (fun s ↦ s.nextAt == 120000) ∧ Exact x := by
  have hrun : ((indexing Tay.Sample.runtime).run ⟨∅, new ∅⟩ sampleRun).any (fun x ↦
      (x.schedules[text "nightly"]?).any fun s ↦ s.nextAt == 120000) = true := by decide +kernel
  obtain ⟨x, hx, hnext⟩ := (Option.any_eq_true _ _).mp hrun
  have hreachable := Machine.reachable_of_run (M := indexing Tay.Sample.runtime) ⟨rfl, rfl⟩ hx
  exact ⟨x, hreachable, hnext, index_exact hreachable⟩

end Tay.ScheduleIndex
