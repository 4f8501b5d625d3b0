import Tay.Engine.Coordinates
import Tay.Engine.Reserve
import Tay.Foundation.Table
import Tay.Storage.Compaction

/-!
# Where a job lives

A job that is not terminal is hot. A persistent job moves to the terminal store with the event that
ends it and comes back with a retry; a volatile job stays hot to its end. The moves are made by the
publication of a commit, by the purge of expired volatile jobs, and by the filter an adopted epoch
puts on the terminal store, each in a module of its own. `Placed` is what they keep up together.

To say which version a lookup returns, the machine of the engine is run beside a history: the version
the last accepted event has given to each job, and the ids that retention has removed since.
-/

open Foundation

namespace Tay.Engine

open V2 Transition ProjectionState OnlineCheckpoint

/-- No id is both hot and in the terminal store, and every job is where its state and its durability
put it. -/
structure Placed (s : State) : Prop where
  hotKeyed : Keyed Job.id s.hot
  terminalKeyed : Keyed Job.id s.terminalStore
  apart : ∀ id : JobId, (s.hot[id]?).isSome → s.terminalStore[id]? = none
  terminal : ∀ (id : JobId) (job : Job), s.terminalStore[id]? = some job →
    job.state.terminal = true
  hotTerminal : ∀ (id : JobId) (job : Job), s.hot[id]? = some job → job.state.terminal = true →
    id ∈ s.volatileIds
  volatileHot : ∀ id ∈ s.volatileIds, (s.hot[id]?).isSome

namespace Placed

variable {s t : State}

/-- Only the two tables and the volatile ids matter. -/
theorem congr (h : Placed s) (hhot : t.hot = s.hot) (hterminal : t.terminalStore = s.terminalStore)
    (hvolatile : t.volatileIds = s.volatileIds) : Placed t := by
  refine ⟨hhot ▸ h.hotKeyed, hterminal ▸ h.terminalKeyed, ?_, hterminal ▸ h.terminal, ?_, ?_⟩
  · rw [hhot, hterminal]
    exact h.apart
  · rw [hhot, hvolatile]
    exact h.hotTerminal
  · rw [hhot, hvolatile]
    exact h.volatileHot

theorem lookup_hot (h : Placed s) {id : JobId} {job : Job} (hjob : s.hot[id]? = some job) :
    s.terminalStore[id]? = none :=
  h.apart id (Option.isSome_of_eq_some hjob)

/-- What a lookup finds has the id it was asked for. -/
theorem lookup_id (h : Placed s) {id : JobId} {job : Job} (hjob : lookup s id = some job) :
    job.id = id := by
  rw [lookup, Option.or_eq_some_iff] at hjob
  rcases hjob with hhot | ⟨-, hterminal⟩
  · exact h.hotKeyed id job hhot
  · exact h.terminalKeyed id job hterminal

end Placed

/-! ## Publication -/

/-- The volatile ids after a commit of the given durability. -/
def volatileAfter (s : State) (job : Job) : Durability → Finset JobId
  | .persistent => s.volatileIds
  | .volatile => insert job.id s.volatileIds

section Publication

variable {s : State} {previous : Option Job} {job : Job}

theorem hotPrevious_of_id (hid : ∀ p ∈ previous, p.id = job.id)
    (hunknown : previous = none → lookup s job.id = none) :
    hotPrevious s previous = s.hot[job.id]? := by
  cases hprevious : previous with
  | none =>
    have hnone := hunknown hprevious
    rw [lookup, Option.or_eq_none_iff] at hnone
    rw [hnone.1]
    rfl
  | some p => rw [hotPrevious, Option.bind_some, hid p hprevious]

/-- What the terminal store holds after a publication. -/
theorem Placed.terminalStore_publish (h : Placed s) (mode : Durability) (hid : ∀ p ∈ previous, p.id = job.id)
    (hunknown : previous = none → lookup s job.id = none) (id : JobId) :
    (publish s previous job mode).terminalStore[id]? =
      if job.id = id then
        if mode == .persistent && terminal? (some job) then some job else none
      else s.terminalStore[id]? := by
  have hhot := hotPrevious_of_id hid hunknown
  unfold publish
  split
  case isTrue hterminal => rw [Foundation.Table.get_insert]
  case isFalse hactive =>
    split
    case h_1 p hp =>
      -- the job was hot, so the terminal store has nothing to give up
      rw [hhot] at hp
      split
      case isTrue heq => rw [← heq, h.lookup_hot hp]
      case isFalse => rfl
    case h_2 =>
      cases hprevious : previous with
      | none =>
        have hnone := hunknown hprevious
        rw [lookup, Option.or_eq_none_iff] at hnone
        by_cases heq : job.id = id
        · rw [if_pos heq, ← heq, hnone.2]
        · rw [if_neg heq]
      | some p =>
        rw [Foundation.Table.get_erase, hid p hprevious]

/-- A publication keeps the order, and a lookup finds the version that was published. -/
theorem Placed.publish {t : State} (h : Placed s) (mode : Durability) (hid : ∀ p ∈ previous, p.id = job.id)
    (hunknown : previous = none → lookup s job.id = none)
    (hpersistent : mode = .persistent → job.id ∉ s.volatileIds)
    (hhot : t.hot = (publish s previous job mode).hot)
    (hterminal : t.terminalStore = (ProjectionState.publish s previous job mode).terminalStore)
    (hvolatile : t.volatileIds = volatileAfter s job mode) :
    Placed t ∧ ∀ id, lookup t id = if job.id = id then some job else lookup s id := by
  have hhot' (id : JobId) : t.hot[id]? = _ := hhot ▸
    hot_publish h.hotKeyed (hotPrevious_of_id hid hunknown) id
  have hterminal' (id : JobId) : t.terminalStore[id]? = _ := hterminal ▸
    h.terminalStore_publish mode hid hunknown id
  have hsubset : s.volatileIds ⊆ t.volatileIds := by
    rw [hvolatile]
    cases mode with
    | persistent => exact subset_rfl
    | volatile => exact Finset.subset_insert _ _
  refine ⟨⟨?_, ?_, ?_, ?_, ?_, ?_⟩, ?_⟩
  · intro id j hj
    rw [hhot'] at hj
    split at hj
    case isTrue heq =>
      split at hj
      · cases hj
      · cases hj
        exact heq
    case isFalse => exact h.hotKeyed id j hj
  · intro id j hj
    rw [hterminal'] at hj
    split at hj
    case isTrue heq =>
      split at hj
      · cases hj
        exact heq
      · cases hj
    case isFalse => exact h.terminalKeyed id j hj
  · intro id hsome
    rw [hhot'] at hsome
    rw [hterminal']
    split
    case isTrue heq =>
      rw [if_pos heq] at hsome
      split
      case isTrue hcold =>
        rw [if_pos hcold] at hsome
        cases hsome
      case isFalse => rfl
    case isFalse hne =>
      rw [if_neg hne] at hsome
      exact h.apart id hsome
  · intro id j hj
    rw [hterminal'] at hj
    split at hj
    case isTrue =>
      split at hj
      case isTrue hcold =>
        cases hj
        rw [Bool.and_eq_true] at hcold
        exact hcold.2
      case isFalse => cases hj
    case isFalse => exact h.terminal id j hj
  · intro id j hj hstate
    rw [hhot'] at hj
    split at hj
    case isTrue heq =>
      split at hj
      · cases hj
      case isFalse hkept =>
        -- a terminal job stays hot only when it is volatile
        cases hj
        rw [hvolatile]
        cases mode with
        | persistent => exact absurd hstate hkept
        | volatile => exact heq ▸ Finset.mem_insert_self _ _
    case isFalse => exact hsubset (h.hotTerminal id j hj hstate)
  · intro id hmem
    rw [hhot']
    split
    case isTrue heq =>
      split
      case isTrue hcold =>
        rw [Bool.and_eq_true, beq_iff_eq] at hcold
        rw [hvolatile, hcold.1] at hmem
        exact absurd (heq ▸ hmem) (hpersistent hcold.1)
      case isFalse => rfl
    case isFalse hne =>
      refine h.volatileHot id ?_
      rw [hvolatile] at hmem
      cases mode with
      | persistent => exact hmem
      | volatile => exact (Finset.mem_insert.mp hmem).resolve_left fun heq ↦ hne heq.symm
  · intro id
    rw [lookup, hhot', hterminal']
    split
    case isTrue =>
      split
      · rfl
      · rfl
    case isFalse => rfl

end Publication

/-! ## Retention -/

/-- What an adoption removes: a terminal job that the compacted epoch does not hold, or a volatile one
whose retention has passed when the epoch was captured. -/
def expires (s : State) (stats : Stats) (retention : Retention) (job : Job) : Bool :=
  job.state.terminal &&
    if job.id ∈ s.volatileIds then
      (Retention.expired? job.terminalAt retention stats.capturedAt).toOption == some true
    else (stats.recovered.candidate.jobs[job.id]?).isNone

/-- A terminal job whose retention has passed at `capturedAt`. -/
def overdue (retention : Retention) (capturedAt : ℕ) (job : Job) : Bool :=
  job.state.terminal && (Retention.expired? job.terminalAt retention capturedAt).toOption == some true

/-- One turn of the purge. -/
theorem purgeStep_cases {retention : Retention} {capturedAt : ℕ} {s t : State}
    {entry : JobId × Job} (h : purgeStep retention capturedAt s entry = .ok t) :
    ((entry.2.id ∈ s.volatileIds ∧ overdue retention capturedAt entry.2 = true) ∧
        t.hot = s.hot.erase entry.2.id ∧ t.volatileIds = s.volatileIds.erase entry.2.id) ∨
      ¬ (entry.2.id ∈ s.volatileIds ∧ overdue retention capturedAt entry.2 = true) ∧ t = s := by
  simp only [purgeStep] at h
  split at h
  case isFalse hother =>
    cases h
    refine .inr ⟨fun hdrop ↦ hother ?_, rfl⟩
    have hterminal := hdrop.2
    rw [overdue, Bool.and_eq_true] at hterminal
    simp [hdrop.1, hterminal.1]
  case isTrue hjob =>
    rw [Bool.and_eq_true, decide_eq_true_eq] at hjob
    obtain ⟨expired, hexpired, h⟩ := bind_eq_ok.mp h
    cases expired with
    | true =>
      cases h
      refine .inl ⟨⟨hjob.1, ?_⟩, rfl, rfl⟩
      simp [overdue, hjob.2, hexpired, Except.toOption]
    | false =>
      cases h
      refine .inr ⟨fun hdrop ↦ ?_, rfl⟩
      have hoverdue := hdrop.2
      simp [overdue, hexpired, Except.toOption] at hoverdue

/-- The purge removes the overdue volatile jobs of the list, and nothing else. -/
theorem purge_fold {retention : Retention} {capturedAt : ℕ} (id : JobId) :
    ∀ {l : List (JobId × Job)} {s t : State}, fold (purgeStep retention capturedAt) s l = .ok t →
      ((∃ entry ∈ l, entry.2.id = id ∧ id ∈ s.volatileIds ∧
          overdue retention capturedAt entry.2 = true) ∧ t.hot[id]? = none ∧ id ∉ t.volatileIds) ∨
      (¬ ∃ entry ∈ l, entry.2.id = id ∧ id ∈ s.volatileIds ∧
          overdue retention capturedAt entry.2 = true) ∧
        t.hot[id]? = s.hot[id]? ∧ (id ∈ t.volatileIds ↔ id ∈ s.volatileIds) := by
  intro l
  induction l with
  | nil =>
    intro s t h
    cases h
    exact .inr ⟨by simp, rfl, Iff.rfl⟩
  | cons entry l ih =>
    intro s t h
    rw [fold_cons] at h
    obtain ⟨u, hu, hfold⟩ := bind_eq_ok.mp h
    rcases purgeStep_cases hu with ⟨⟨hvolatile, hoverdue⟩, hhot, hids⟩ | ⟨hkept, rfl⟩
    · by_cases heq : entry.2.id = id
      · -- dropped here, and nothing after this turn can bring it back
        have hgone : id ∉ u.volatileIds := by
          rw [hids, heq]
          exact Finset.notMem_erase id _
        rcases ih hfold with ⟨⟨other, -, -, hin, -⟩, -⟩ | ⟨-, hsame, hiff⟩
        · exact absurd hin hgone
        · refine .inl ⟨⟨entry, List.mem_cons_self, heq, heq ▸ hvolatile, hoverdue⟩, ?_, ?_⟩
          · rw [hsame, hhot, Foundation.Table.get_erase, if_pos heq]
          · exact fun hin ↦ hgone (hiff.mp hin)
      · have hother : u.hot[id]? = s.hot[id]? := by
          rw [hhot, Foundation.Table.get_erase, if_neg heq]
        have hiff : id ∈ u.volatileIds ↔ id ∈ s.volatileIds := by
          rw [hids, Finset.mem_erase]
          exact ⟨fun hin ↦ hin.2, fun hin ↦ ⟨fun h ↦ heq h.symm, hin⟩⟩
        rw [← hother, ← hiff]
        rcases ih hfold with ⟨⟨other, hmem, hdrop⟩, hrest⟩ | ⟨hnone, hrest⟩
        · exact .inl ⟨⟨other, List.mem_cons_of_mem _ hmem, hdrop⟩, hrest⟩
        · refine .inr ⟨?_, hrest⟩
          rintro ⟨other, hmem, hdrop⟩
          rcases List.mem_cons.mp hmem with rfl | hmem
          · exact heq hdrop.1
          · exact hnone ⟨other, hmem, hdrop⟩
    · rcases ih hfold with ⟨⟨other, hmem, hdrop⟩, hrest⟩ | ⟨hnone, hrest⟩
      · exact .inl ⟨⟨other, List.mem_cons_of_mem _ hmem, hdrop⟩, hrest⟩
      · refine .inr ⟨?_, hrest⟩
        rintro ⟨other, hmem, heq, hin, hoverdue⟩
        rcases List.mem_cons.mp hmem with rfl | hmem
        · exact hkept ⟨heq ▸ hin, hoverdue⟩
        · exact hnone ⟨other, hmem, heq, hin, hoverdue⟩

variable {vm : Runtime} {s t : State} {stats : Stats} {retention : Retention} {admits : ℤ → Bool}

/-- What the tables of an adopted state hold. -/
theorem adopt_tables (h : Placed s) (ht : adopt vm s stats retention admits = .ok t) (id : JobId) :
    t.hot[id]? = (s.hot[id]?).filter (fun job ↦ !expires s stats retention job) ∧
      t.terminalStore[id]? =
        (s.terminalStore[id]?).filter (fun job ↦ !expires s stats retention job) ∧
      (id ∈ t.volatileIds ↔ id ∈ s.volatileIds ∧ (t.hot[id]?).isSome) := by
  obtain ⟨purged, hpurged, ht⟩ := bind_eq_ok.mp ht
  have hstore := (purge_purged hpurged).terminalStore
  split at ht
  case h_1 => cases ht
  case h_2 segment hsegment =>
    obtain ⟨-, ht⟩ := check_bind_eq_ok.mp ht
    cases ht
    simp only [adopted]
    have hterminal : ((purged.terminalStore.filter fun id _ ↦
          (stats.recovered.candidate.jobs[id]?).isSome)[id]? : Option Job) =
        (s.terminalStore[id]?).filter fun job ↦ !expires s stats retention job := by
      rw [Std.ExtTreeMap.getElem?_filter', hstore]
      cases hjob : s.terminalStore[id]? with
      | none => rfl
      | some job =>
        have hid : job.id = id := h.terminalKeyed id job hjob
        have hout : id ∉ s.volatileIds := by
          intro hin
          rw [h.apart id (h.volatileHot id hin)] at hjob
          cases hjob
        have hexpires : expires s stats retention job =
            (stats.recovered.candidate.jobs[id]?).isNone := by
          rw [expires, h.terminal id job hjob, Bool.true_and, hid, if_neg hout]
        rw [Option.filter_some, Option.filter_some, hexpires, Option.not_isNone]
    rcases purge_fold id hpurged with ⟨⟨⟨key, job⟩, hmem, hid, hin, hoverdue⟩, hgone, hout⟩ |
      ⟨hkept, hsame, hiff⟩
    · have hjob := Std.ExtTreeMap.mem_toList_iff_getElem?_eq_some.mp hmem
      have hkey : job.id = key := h.hotKeyed key job hjob
      rw [← hkey, hid] at hjob
      refine ⟨?_, hterminal, ?_⟩
      · have hexpires : expires s stats retention job = true := by
          rw [overdue, Bool.and_eq_true] at hoverdue
          rw [expires, Bool.and_eq_true, if_pos (show job.id ∈ s.volatileIds from hid ▸ hin)]
          exact hoverdue
        rw [hgone, hjob, Option.filter_some, hexpires]
        rfl
      · simp [hgone, hout]
    · refine ⟨?_, hterminal, ?_⟩
      · rw [hsame]
        cases hjob : s.hot[id]? with
        | none => rfl
        | some job =>
          have hid : job.id = id := h.hotKeyed id job hjob
          have hstays : expires s stats retention job = false := by
            by_contra hexpires
            rw [Bool.not_eq_false, expires, Bool.and_eq_true, hid] at hexpires
            have hin := h.hotTerminal id job hjob hexpires.1
            refine hkept ⟨(id, job), Std.ExtTreeMap.mem_toList_iff_getElem?_eq_some.mpr hjob, hid,
              hin, ?_⟩
            rw [overdue, Bool.and_eq_true]
            exact ⟨hexpires.1, by simpa [hin] using hexpires.2⟩
          rw [Option.filter_some, hstays]
          rfl
      · rw [hiff, hsame]
        exact ⟨fun hin ↦ ⟨hin, h.volatileHot id hin⟩, fun hin ↦ hin.1⟩

/-- An adoption keeps the order, and a lookup misses what retention has removed. -/
theorem Placed.adopted (h : Placed s) (ht : adopt vm s stats retention admits = .ok t) :
    Placed t ∧
      ∀ id, lookup t id = (lookup s id).filter fun job ↦ !expires s stats retention job := by
  have htables := adopt_tables h ht
  have hhot {id : JobId} {job : Job} (hjob : t.hot[id]? = some job) : s.hot[id]? = some job := by
    rw [(htables id).1] at hjob
    exact (Option.filter_eq_some_iff.mp hjob).1
  have hterminal {id : JobId} {job : Job} (hjob : t.terminalStore[id]? = some job) :
      s.terminalStore[id]? = some job := by
    rw [(htables id).2.1] at hjob
    exact (Option.filter_eq_some_iff.mp hjob).1
  refine ⟨⟨?_, ?_, ?_, ?_, ?_, ?_⟩, ?_⟩
  · exact fun id job hjob ↦ h.hotKeyed id job (hhot hjob)
  · exact fun id job hjob ↦ h.terminalKeyed id job (hterminal hjob)
  · intro id hsome
    obtain ⟨job, hjob⟩ := Option.isSome_iff_exists.mp hsome
    rw [(htables id).2.1, h.lookup_hot (hhot hjob)]
    rfl
  · exact fun id job hjob ↦ h.terminal id job (hterminal hjob)
  · intro id job hjob hstate
    rw [(htables id).2.2]
    exact ⟨h.hotTerminal id job (hhot hjob) hstate, Option.isSome_of_eq_some hjob⟩
  · exact fun id hin ↦ ((htables id).2.2.mp hin).2
  · intro id
    rw [lookup, lookup, (htables id).1, (htables id).2.1]
    cases hjob : s.hot[id]? with
    | none => rfl
    | some job => rw [h.lookup_hot hjob, Option.or_none, Option.filter_none, Option.or_none]

/-! ## Commits -/

variable (vm) in
/-- The epoch a message makes the engine adopt, with the retention the compaction was started with:
the one a result reports, or the one the reply to an append carries. -/
def adoption (s : State) : Action → Option (Stats × Retention)
  | .command op env =>
    match s.onlineCompaction, (request vm s op env.admits).map env.append with
    | .running _ retention, some (.switched _ stats) => some (stats, retention)
    | _, _ => none
  | .compactResult token (.ok stats _) =>
    match s.onlineCompaction with
    | .running current retention => if token == current then some (stats, retention) else none
    | _ => none
  | .compactOnline .. | .compactResult .. => none

variable (vm) in
/-- The state a record is finished in: `s`, or what adopting the epoch makes of it. -/
inductive Settles (s : State) : Option (Stats × Retention) → State → Prop
  | stay : Settles s none s
  | adopt {stats : Stats} {retention : Retention} {admits : ℤ → Bool} {adopted : State}
      {online : OnlineCompaction} :
      OnlineCheckpoint.adopt vm s stats retention admits = .ok adopted →
      Settles s (some (stats, retention)) { adopted with onlineCompaction := online }

theorem appendRecord_settles {op : Op} {env : Environment} {payload : Payload} {receipt : Receipt}
    {base : State} (hrequest : request vm s op env.admits = some payload)
    (h : appendRecord vm s payload env = .ok (receipt, base)) :
    Settles vm s (adoption vm s (.command op env)) base := by
  simp only [adoption, hrequest, Option.map_some]
  unfold appendRecord at h
  split at h
  case h_1 happend =>
    cases h
    rw [happend]
    split
    case h_1 heq => cases heq
    case h_2 => exact .stay
  case h_2 => cases h
  case h_3 stats happend =>
    split at h
    case h_2 => cases h
    case h_1 token retention honline =>
      obtain ⟨adopted, hadopted, h⟩ := bind_eq_ok.mp h
      cases h
      rw [happend, honline]
      exact .adopt hadopted

/-- What adoption leaves of a lookup. -/
def survives (s : State) : Option (Stats × Retention) → Job → Bool
  | none, _ => true
  | some (stats, retention), job => !expires s stats retention job

theorem Settles.placed {adoption : Option (Stats × Retention)} {base : State} (h : Placed s)
    (hbase : Settles vm s adoption base) :
    Placed base ∧ (∀ id, lookup base id = (lookup s id).filter (survives s adoption)) ∧
      ∀ id ∉ s.volatileIds, id ∉ base.volatileIds := by
  cases hbase with
  | stay =>
    refine ⟨h, fun id ↦ ?_, fun _ hid ↦ hid⟩
    cases lookup s id <;> rfl
  | adopt hadopted =>
    obtain ⟨hplaced, hlookup⟩ := h.adopted hadopted
    exact ⟨hplaced.congr rfl rfl rfl, hlookup, fun id hid hin ↦
      hid ((adopt_tables h hadopted id).2.2.mp hin).1⟩

variable (vm) in
/-- A command that moves a job: what it produced, and where its record has landed. -/
structure Moves (s : State) (a : Action) (job : Job) (t : State) : Prop where
  placed : Placed t
  lookup : ∀ id, lookup t id = if job.id = id then some job else
    (ProjectionState.lookup s id).filter (survives s (adoption vm s a))

/-- A commit is about the job its event names. -/
theorem commit_jobId {previous : Option Job} {e : JobEvent} {given : Option Durability}
    {env : Environment} {c : Committed} (h : commit vm s previous e given env = .ok c) :
    c.job.id = e.jobId := by
  unfold commit at h
  split at h
  case h_1 =>
    obtain ⟨m, job, hm, hjob, hid, -⟩ := (commitVolatile_spec vm h).transition
    rw [hid, Reducer.transitionJob_id hjob, fromEvent_jobId hm]
  case h_2 =>
    obtain ⟨p, base, hp, -, hc⟩ := commitV2_landing vm h
    obtain ⟨job, hdurable, hjob, -⟩ := hp.transition
    rw [← Job.durable_id, hc.job, hdurable, Job.durable_id, Reducer.transitionJob_id hjob,
      fromEvent_jobId hp.mutation]

variable (vm) in
/-- A commit has put a version of a job where its state and its durability say, in place of the one that
was known. -/
structure Publishes (s : State) (a : Action) (previous : Option Job) (job : Job) (mode : Durability)
    (t : State) : Prop where
  known : previous = lookup s job.id
  persistent : mode = .persistent → job.id ∉ s.volatileIds
  landing : ∃ base, Settles vm s (adoption vm s a) base ∧ t.hot = (publish base previous job mode).hot ∧
    t.terminalStore = (publish base previous job mode).terminalStore ∧
    t.volatileIds = volatileAfter base job mode

theorem Publishes.moves {a : Action} {previous : Option Job} {job : Job} {mode : Durability}
    (h : Publishes vm s a previous job mode t) (hs : Placed s) : Moves vm s a job t := by
  obtain ⟨base, hsettles, hhot, hterminal, hvolatile⟩ := h.landing
  obtain ⟨hbase, hkept, hids⟩ := hsettles.placed hs
  have hid : ∀ p ∈ previous, p.id = job.id := fun p hp ↦ hs.lookup_id (h.known ▸ hp)
  have hunknown : previous = none → lookup base job.id = none := by
    intro hnone
    rw [hkept, ← h.known, hnone]
    rfl
  obtain ⟨hplaced, hlookup⟩ := hbase.publish mode hid hunknown
    (fun hmode ↦ hids _ (h.persistent hmode)) hhot hterminal hvolatile
  exact ⟨hplaced, fun id ↦ by rw [hlookup, hkept]⟩

theorem commit_publishes {previous : Option Job} {e : JobEvent} {given : Option Durability}
    {env : Environment} {c : Committed} {op : Op} (hs : Placed s)
    (hprevious : previous = lookup s e.jobId) (hgiven : given.isSome ↔ previous = none)
    (hrequest : request vm s op env.admits = commitRequest vm s previous e given env.admits)
    (h : commit vm s previous e given env = .ok c) :
    Publishes vm s (.command op env) previous c.job (commitMode s previous given) c.state := by
  subst hprevious
  have hcid := commit_jobId h
  have hcases := commit_cases vm hs.volatileHot hgiven h
  unfold commitRequest at hrequest
  unfold commit at h
  split at h
  case h_1 hmode =>
    have hvolatile : commitMode s (lookup s e.jobId) given = .volatile := hmode
    rw [hvolatile] at hrequest ⊢
    have hc := commitVolatile_spec vm h
    have hnone : adoption vm s (.command op env) = none := by
      simp only [adoption, hrequest, Option.map_none]
      split
      case h_1 heq => cases heq
      case h_2 => rfl
    refine ⟨by rw [hcid], fun hmode ↦ Durability.noConfusion hmode, s, ?_, hc.hot, hc.terminalStore,
      hc.volatileIds⟩
    rw [hnone]
    exact .stay
  case h_2 hmode =>
    have hpersistent : commitMode s (lookup s e.jobId) given = .persistent := hmode
    rw [hpersistent] at hrequest ⊢
    simp only [commitV2, bind_eq_ok, mapError_eq_ok, check_eq_ok] at h
    obtain ⟨p, hp, -, hadmits, ⟨receipt, base⟩, hr, -, -, h⟩ := h
    simp only [hp, hadmits, if_true] at hrequest
    have hc := finishCommit_spec vm h
    have hout : e.jobId ∉ s.volatileIds := by
      rcases hcases with ⟨-, hvolatile⟩ | ⟨hout, -⟩
      · have hrecords := hvolatile.records
        rw [hc.records] at hrecords
        cases hrecords
      · exact hout
    exact ⟨by rw [hcid], fun _ ↦ hcid ▸ hout, base, appendRecord_settles hrequest hr, hc.hot,
      hc.terminalStore, hc.volatileIds⟩

/-! ## Messages -/

variable (vm) in
/-- The version a message gives to a job, if it is an accepted event on one. -/
def produced (s : State) : Action → Option Job
  | .command (.insert e mode) env =>
    match lookup s e.jobId with
    | some _ => none
    | none => (commit vm s none e (some mode) env).toOption.map Committed.job
  | .command (.change e) env =>
    match lookup s e.jobId with
    | none => none
    | some p => (commit vm s (some p) e none env).toOption.map Committed.job
  | .command (.auxiliary _) _ | .compactOnline .. | .compactResult .. => none

variable (vm) in
/-- A message that is no accepted event on a job: only retention takes something away. -/
structure Quiet (s : State) (a : Action) (t : State) : Prop where
  placed : Placed t
  lookup : ∀ id, lookup t id =
    (ProjectionState.lookup s id).filter (survives s (adoption vm s a))

variable (vm) in
/-- What a message publishes, if it is an accepted event on a job: the version that was known, the new
one, and the durability of the commit. -/
def published (s : State) : Action → Option (Option Job × Job × Durability)
  | .command (.insert e mode) env =>
    match lookup s e.jobId with
    | some _ => none
    | none => (commit vm s none e (some mode) env).toOption.map fun c ↦
      (none, c.job, commitMode s none (some mode))
  | .command (.change e) env =>
    match lookup s e.jobId with
    | none => none
    | some p => (commit vm s (some p) e none env).toOption.map fun c ↦
      (some p, c.job, commitMode s (some p) none)
  | .command (.auxiliary _) _ | .compactOnline .. | .compactResult .. => none

theorem produced_eq (s : State) (a : Action) :
    produced vm s a = (published vm s a).map fun x ↦ x.2.1 := by
  unfold produced published
  split
  · split
    · rfl
    · rw [Option.map_map]
      rfl
  · split
    · rfl
    · rw [Option.map_map]
      rfl
  · rfl
  · rfl
  · rfl

variable (vm) in
/-- The tables are those a record is finished in. -/
def Rests (s : State) (a : Action) (t : State) : Prop :=
  ∃ base, Settles vm s (adoption vm s a) base ∧ t.hot = base.hot ∧ t.terminalStore = base.terminalStore ∧
    t.volatileIds = base.volatileIds

theorem Rests.quiet {a : Action} (h : Rests vm s a t) (hs : Placed s) : Quiet vm s a t := by
  obtain ⟨base, hsettles, hhot, hterminal, hvolatile⟩ := h
  obtain ⟨hplaced, hlookup, -⟩ := hsettles.placed hs
  refine ⟨hplaced.congr hhot hterminal hvolatile, fun id ↦ ?_⟩
  rw [lookup_congr hhot hterminal, hlookup]

theorem commitAuxiliary_rests {e : AuxEvent} {env : Environment} {r : State × List Record}
    (h : commitAuxiliary vm s e (resultJob s e.body) env = .ok r) :
    Rests vm s (.command (.auxiliary e) env) r.1 := by
  unfold commitAuxiliary at h
  split at h
  case isTrue hvolatile =>
    simp only [commitVolatileAuxiliary, bind_eq_ok, pure_eq_ok] at h
    obtain ⟨-, -, c, -, -, -, h⟩ := h
    cases h
    have hnone : adoption vm s (.command (.auxiliary e) env) = none := by
      simp only [adoption, request, if_pos hvolatile, Option.map_none]
      split
      case h_1 heq => cases heq
      case h_2 => rfl
    refine ⟨s, ?_, rfl, rfl, rfl⟩
    rw [hnone]
    exact .stay
  case isFalse hpersistent =>
    simp only [commitPersistentAuxiliary, bind_eq_ok, check_eq_ok] at h
    obtain ⟨c, hc, -, hadmits, ⟨receipt, base⟩, hr, -, -, h⟩ := h
    have hrequest : request vm s (.auxiliary e) env.admits = some (.auxiliary e) := by
      simp only [request, if_neg hpersistent, hc, hadmits, if_true]
    have hbase := appendRecord_settles hrequest hr
    simp only [finishAuxiliary] at h
    split at h
    · cases h
    · cases h
      exact ⟨base, hbase, rfl, rfl, rfl⟩

theorem commitAuxiliary_quiet {e : AuxEvent} {env : Environment} {r : State × List Record}
    (hs : Placed s) (h : commitAuxiliary vm s e (resultJob s e.body) env = .ok r) :
    Quiet vm s (.command (.auxiliary e) env) r.1 := (commitAuxiliary_rests h).quiet hs

/-- A report without an epoch changes nothing but the state of the compaction. -/
theorem handle_online {token : ℕ} {result : CompactResult}
    (hresult : ∀ stats admits, result ≠ .ok stats admits)
    (h : handle vm s (.compactResult token result) = .ok t) :
    ∃ online, t = { s with onlineCompaction := online } := by
  rcases handle_cases vm h with ⟨op, env, out, heq, -⟩ | ⟨token, stats, admits, heq, -⟩ |
    ⟨rotation, token, retention, heq, -⟩ | honline
  · cases heq
  · cases heq
    exact absurd rfl (hresult stats admits)
  · cases heq
  · exact honline

/-- **One message.** It publishes one job, or none, in a state that retention may have cut down. -/
theorem handle_lands {a : Action} (hs : Placed s) (h : handle vm s a = .ok t) :
    (∃ x, published vm s a = some x ∧ Publishes vm s a x.1 x.2.1 x.2.2 t) ∨
      published vm s a = none ∧ Rests vm s a t := by
  cases a with
  | command op env =>
    simp only [handle] at h
    obtain ⟨out, hperform, rfl⟩ := map_eq_ok.mp h
    cases op with
    | insert e mode =>
      simp only [perform] at hperform
      cases hlookup : lookup s e.jobId with
      | some p => simp [hlookup] at hperform
      | none =>
        rw [hlookup] at hperform
        obtain ⟨c, hc, rfl⟩ := map_eq_ok.mp hperform
        refine .inl ⟨(none, c.job, commitMode s none (some mode)), ?_, ?_⟩
        · simp only [published, hlookup, hc]
          rfl
        · exact commit_publishes hs hlookup.symm (by simp) (by simp [request, hlookup]) hc
    | change e =>
      simp only [perform] at hperform
      cases hlookup : lookup s e.jobId with
      | none => simp [hlookup] at hperform
      | some p =>
        rw [hlookup] at hperform
        obtain ⟨c, hc, rfl⟩ := map_eq_ok.mp hperform
        refine .inl ⟨(some p, c.job, commitMode s (some p) none), ?_, ?_⟩
        · simp only [published, hlookup, hc]
          rfl
        · exact commit_publishes hs hlookup.symm (by simp) (by simp [request, hlookup]) hc
    | auxiliary e => exact .inr ⟨rfl, commitAuxiliary_rests hperform⟩
  | compactOnline rotation token retention =>
    have hsame : t.hot = s.hot ∧ t.terminalStore = s.terminalStore ∧
        t.volatileIds = s.volatileIds := by
      rcases handle_cases vm h with ⟨op, env, out, heq, -⟩ | ⟨token, stats, admits, heq, -⟩ |
        ⟨rotation, token, retention, -, -, rfl⟩ | ⟨online, rfl⟩
      · cases heq
      · cases heq
      · exact ⟨rfl, rfl, rfl⟩
      · exact ⟨rfl, rfl, rfl⟩
    exact .inr ⟨rfl, s, .stay, hsame⟩
  | compactResult token result =>
    refine .inr ⟨rfl, ?_⟩
    cases result with
    | ok stats admits =>
      cases honline : s.onlineCompaction with
      | running current retention =>
        simp only [handle, honline] at h
        by_cases htoken : (token == current) = true
        · rw [if_pos htoken] at h
          refine ⟨{ t with onlineCompaction := t.onlineCompaction }, ?_, rfl, rfl, rfl⟩
          simp only [adoption, honline, if_pos htoken]
          exact .adopt h
        · rw [if_neg htoken] at h
          cases h
          refine ⟨s, ?_, rfl, rfl, rfl⟩
          simp only [adoption, honline, if_neg htoken]
          exact .stay
      | none =>
        simp only [handle, honline] at h
        cases h
        refine ⟨s, ?_, rfl, rfl, rfl⟩
        simp only [adoption, honline]
        exact .stay
      | switched current retention =>
        simp only [handle, honline] at h
        cases h
        refine ⟨s, ?_, rfl, rfl, rfl⟩
        simp only [adoption, honline]
        exact .stay
    | switched =>
      obtain ⟨online, rfl⟩ := handle_online (fun _ _ heq ↦ by cases heq) h
      exact ⟨s, .stay, rfl, rfl, rfl⟩
    | error =>
      obtain ⟨online, rfl⟩ := handle_online (fun _ _ heq ↦ by cases heq) h
      exact ⟨s, .stay, rfl, rfl, rfl⟩

/-- It gives one job a new version, or none; apart from that a lookup can only lose what retention
removes. -/
theorem handle_placed {a : Action} (hs : Placed s) (h : handle vm s a = .ok t) :
    (∃ job, produced vm s a = some job ∧ Moves vm s a job t) ∨
      produced vm s a = none ∧ Quiet vm s a t := by
  rw [produced_eq]
  rcases handle_lands hs h with ⟨x, hx, hpublishes⟩ | ⟨hnone, hrests⟩
  · exact .inl ⟨x.2.1, by rw [hx, Option.map_some], hpublishes.moves hs⟩
  · exact .inr ⟨by rw [hnone, Option.map_none], hrests.quiet hs⟩

/-! ## The engine beside its history -/

/-- An engine, the version the last accepted event on each job has produced, and the ids that
retention has removed since. -/
structure Watched where
  engine : State
  versions : Table JobId Job
  purged : Finset JobId

/-- The ids a message makes retention remove. -/
def removed (w : Watched) (adoption : Option (Stats × Retention)) : Finset JobId :=
  (w.versions.keys.filter fun id ↦
    (lookup w.engine id).any fun job ↦ !survives w.engine adoption job).toFinset

variable (vm) in
def Watched.observe (w : Watched) (a : Action) (engine : State) : Watched :=
  let purged := w.purged ∪ removed w (adoption vm w.engine a)
  match produced vm w.engine a with
  | none => ⟨engine, w.versions, purged⟩
  | some job => ⟨engine, w.versions.insert job.id job, purged.erase job.id⟩

variable (vm) in
/-- The machine of the engine, watched from its start. -/
def watched : Machine Watched Action where
  initial w := Starts vm w.engine ∧ (∀ id : JobId, w.versions[id]? = lookup w.engine id) ∧
    w.purged = ∅
  step w a := (handle vm w.engine a).toOption.map (w.observe vm a)

/-- The invariant: the tables are in order, and a lookup finds the latest version unless retention
has removed it. -/
structure Current (w : Watched) : Prop where
  placed : Placed w.engine
  latest : ∀ id, lookup w.engine id = if id ∈ w.purged then none else w.versions[id]?

theorem mem_removed {w : Watched} (h : Current w) {adoption : Option (Stats × Retention)}
    {id : JobId} : id ∈ removed w adoption ↔
      (lookup w.engine id).any (fun job ↦ !survives w.engine adoption job) = true := by
  rw [removed, List.mem_toFinset, List.mem_filter]
  refine ⟨fun hmem ↦ hmem.2, fun hany ↦ ⟨?_, hany⟩⟩
  obtain ⟨job, hjob, -⟩ := (Option.any_eq_true _ _).mp hany
  rw [h.latest] at hjob
  split at hjob
  · cases hjob
  · exact Std.ExtTreeMap.mem_keys.mpr
      (Std.ExtTreeMap.mem_iff_isSome_getElem?.mpr (Option.isSome_of_eq_some hjob))

/-- What survives a message, in terms of the history. -/
theorem Current.filter {w : Watched} (h : Current w) (adoption : Option (Stats × Retention))
    (id : JobId) : (lookup w.engine id).filter (survives w.engine adoption) =
      if id ∈ w.purged ∪ removed w adoption then none else w.versions[id]? := by
  have hlatest := h.latest id
  by_cases hpurged : id ∈ w.purged
  · rw [if_pos hpurged] at hlatest
    rw [hlatest, if_pos (Finset.mem_union_left _ hpurged)]
    rfl
  · rw [if_neg hpurged] at hlatest
    by_cases hremoved : id ∈ removed w adoption
    · rw [if_pos (Finset.mem_union_right _ hremoved)]
      obtain ⟨job, hjob, hgone⟩ := (Option.any_eq_true _ _).mp ((mem_removed h).mp hremoved)
      rw [hjob, Option.filter_some, if_neg]
      simpa using hgone
    · rw [if_neg (by simp [hpurged, hremoved]), ← hlatest]
      cases hjob : lookup w.engine id with
      | none => rfl
      | some job =>
        rw [mem_removed h, hjob, Option.any_some, Bool.not_eq_true, Bool.not_eq_false'] at hremoved
        rw [Option.filter_some, if_pos hremoved]

theorem current_step (w : Watched) (a : Action) (w' : Watched) (h : Current w)
    (hw : (watched vm).step w a = some w') : Current w' := by
  simp only [watched, Option.map_eq_some_iff] at hw
  obtain ⟨engine, hengine, rfl⟩ := hw
  have hhandle : handle vm w.engine a = .ok engine := toOption_eq_some.mp hengine
  rcases handle_placed h.placed hhandle with ⟨job, hproduced, hmoves⟩ | ⟨hproduced, hquiet⟩
  · simp only [Watched.observe, hproduced]
    refine ⟨hmoves.placed, fun id ↦ ?_⟩
    rw [hmoves.lookup, h.filter, Foundation.Table.get_insert]
    by_cases heq : job.id = id
    · rw [if_pos heq, if_neg (by rw [heq]; exact Finset.notMem_erase id _), if_pos heq]
    · have hiff : (id ∈ (w.purged ∪ removed w (adoption vm w.engine a)).erase job.id) ↔
          id ∈ w.purged ∪ removed w (adoption vm w.engine a) := by
        rw [Finset.mem_erase]
        exact ⟨fun hmem ↦ hmem.2, fun hmem ↦ ⟨fun hid ↦ heq hid.symm, hmem⟩⟩
      simp only [if_neg heq, hiff]
  · simp only [Watched.observe, hproduced]
    exact ⟨hquiet.placed, fun id ↦ by rw [hquiet.lookup, h.filter]⟩

theorem placed_start {config : Config} {r : Reader.Recovered} (segment : SegmentView)
    (hr : Sound r.candidate) : Placed (countInterrupted (init config r segment)) := by
  constructor
  · intro id job hjob
    simp only [countInterrupted, init, Std.ExtTreeMap.getElem?_filter'] at hjob
    exact hr.jobs id job (Option.filter_eq_some_iff.mp hjob).1
  · intro id job hjob
    simp only [countInterrupted, init, Std.ExtTreeMap.getElem?_filter'] at hjob
    exact hr.jobs id job (Option.filter_eq_some_iff.mp hjob).1
  · intro id hsome
    obtain ⟨job, hjob⟩ := Option.isSome_iff_exists.mp hsome
    simp only [countInterrupted, init, Std.ExtTreeMap.getElem?_filter'] at hjob ⊢
    obtain ⟨hjob, hactive⟩ := Option.filter_eq_some_iff.mp hjob
    rw [hjob, Option.filter_some, if_neg]
    simpa using hactive
  · intro id job hjob
    simp only [countInterrupted, init, Std.ExtTreeMap.getElem?_filter'] at hjob
    exact (Option.filter_eq_some_iff.mp hjob).2
  · intro id job hjob hstate
    simp only [countInterrupted, init, Std.ExtTreeMap.getElem?_filter'] at hjob
    have hactive := (Option.filter_eq_some_iff.mp hjob).2
    simp [hstate] at hactive
  · intro id hid
    cases hid

theorem watched_current {w : Watched} (hw : (watched vm).Reachable w) : Current w := by
  refine hw.invariant ?_ current_step
  rintro v ⟨⟨d, config, r, segment, hr, hengine, -⟩, hversions, hpurged⟩
  refine ⟨?_, fun id ↦ ?_⟩
  · rw [hengine]
    exact placed_start segment (Reader.recover_sound vm (sound_candidate _ _) hr)
  · rw [hpurged, if_neg (Finset.notMem_empty id), hversions]

variable (vm) in
/-- The epoch was published from the log of the engine, which holds its persistent jobs. -/
structure Compacts (s : State) (stats : Stats) (retention : Retention) (q : Publisher.Request)
    (d : Directory) (exclude : ℕ) (f : Reader.Recovered) : Prop where
  frozen : Reader.recoverFrozen vm d (candidate q.limits q.valueLimits) d.manifest.epochId exclude =
    .ok f
  live : ∀ x ∈ Publisher.accepted d exclude, x.live = true
  retention : q.retention = retention
  capturedAt : q.capturedAt = stats.capturedAt
  published : ∃ frontier p, p.recovered = stats.recovered ∧
    Publisher.publishOnline vm q d frontier exclude (Publisher.accepted d exclude) = .ok p
  log : ∃ r, Reader.recover vm d (candidate q.limits q.valueLimits) = .ok r ∧
    ∀ id ∉ s.volatileIds, (lookup s id).isSome → (r.candidate.jobs[id]?).isSome

/-- What an adoption takes from a lookup had passed its retention when the epoch was captured. -/
theorem Compacts.expired {w : Watched} (h : Current w) {q : Publisher.Request} {d : Directory}
    {exclude : ℕ} {f : Reader.Recovered} (hepoch : Compacts vm w.engine stats retention q d exclude f)
    {id : JobId} (hremoved : id ∈ removed w (some (stats, retention))) :
    ∃ job, lookup w.engine id = some job ∧ job.state.terminal = true ∧
      ((id ∈ w.engine.volatileIds ∧
          Retention.expired? job.terminalAt retention stats.capturedAt = .ok true) ∨
        id ∉ w.engine.volatileIds ∧
          Snapshot.Expired f.candidate.jobs retention stats.capturedAt id) := by
  obtain ⟨job, hjob, hgone⟩ := (Option.any_eq_true _ _).mp ((mem_removed h).mp hremoved)
  rw [survives, Bool.not_not, expires, Bool.and_eq_true, h.placed.lookup_id hjob] at hgone
  refine ⟨job, hjob, hgone.1, ?_⟩
  by_cases hvolatile : id ∈ w.engine.volatileIds
  · refine .inl ⟨hvolatile, ?_⟩
    rw [if_pos hvolatile, beq_iff_eq] at hgone
    exact toOption_eq_some.mp hgone.2
  · refine .inr ⟨hvolatile, ?_⟩
    rw [if_neg hvolatile, Option.isNone_iff_eq_none] at hgone
    obtain ⟨r, hr, hlog⟩ := hepoch.log
    obtain ⟨frontier, p, hp, hpublish⟩ := hepoch.published
    obtain ⟨-, f', hf, hpreserves⟩ := Publisher.publishOnline_preserves hr hepoch.live hpublish
    rw [hepoch.frozen] at hf
    cases hf
    rw [← hepoch.retention, ← hepoch.capturedAt]
    by_contra hkept
    -- a job that has not expired is in the epoch
    have hsame := hpreserves.kept id hkept
    rw [hp, hgone.2] at hsame
    obtain ⟨known, hknown⟩ := Option.isSome_iff_exists.mp
      (hlog id hvolatile (Option.isSome_of_eq_some hjob))
    rw [hknown] at hsame
    cases hsame

/-- **Every job has one place, and a lookup finds its latest version.** -/
theorem placement_exact {w : Watched} (hw : (watched vm).Reachable w) (id : JobId) :
    ¬ ((w.engine.hot[id]?).isSome ∧ (w.engine.terminalStore[id]?).isSome) ∧
      (∀ job, lookup w.engine id = some job →
        (w.engine.hot[id]? = some job ∧ (job.state.terminal = true → id ∈ w.engine.volatileIds)) ∨
          w.engine.terminalStore[id]? = some job ∧ job.state.terminal = true ∧
            id ∉ w.engine.volatileIds) ∧
      lookup w.engine id = (if id ∈ w.purged then none else w.versions[id]?) ∧
      ∀ stats retention q d exclude f, Compacts vm w.engine stats retention q d exclude f →
        id ∈ removed w (some (stats, retention)) →
        ∃ job, lookup w.engine id = some job ∧ job.state.terminal = true ∧
          ((id ∈ w.engine.volatileIds ∧
              Retention.expired? job.terminalAt retention stats.capturedAt = .ok true) ∨
            id ∉ w.engine.volatileIds ∧
              Snapshot.Expired f.candidate.jobs retention stats.capturedAt id) := by
  have h := watched_current hw
  refine ⟨?_, ?_, h.latest id, fun _ _ _ _ _ _ hepoch hremoved ↦ hepoch.expired h hremoved⟩
  · rintro ⟨hhot, hterminal⟩
    rw [h.placed.apart id hhot] at hterminal
    cases hterminal
  · intro job hjob
    rw [lookup, Option.or_eq_some_iff] at hjob
    rcases hjob with hhot | ⟨hnone, hterminal⟩
    · exact .inl ⟨hhot, h.placed.hotTerminal id job hhot⟩
    · refine .inr ⟨hterminal, h.placed.terminal id job hterminal, fun hin ↦ ?_⟩
      have hsome := h.placed.volatileHot id hin
      rw [hnone] at hsome
      cases hsome

namespace Sample

/-- The commands of the run, on an engine that is watched from a fresh store. -/
def watchedActions : List Action := run.map fun x ↦ .command x.1 x.2

/-- Job 1 has been finished and job 2 is volatile and ready. -/
def watchedEnd : Watched :=
  ((watched Tay.Sample.runtime).run ⟨empty, ∅, ∅⟩ watchedActions).getD ⟨empty, ∅, ∅⟩

end Sample

/-- After the run above the finished job is in the terminal store and nowhere else. -/
theorem placement_exact_finished :
    (watched Tay.Sample.runtime).Reachable Sample.watchedEnd ∧
      (Sample.watchedEnd.engine.terminalStore[(1 : JobId)]?).isSome = true ∧
      (1 : JobId) ∉ Sample.watchedEnd.purged ∧
      Sample.watchedEnd.engine.hot[(1 : JobId)]? = none ∧
      lookup Sample.watchedEnd.engine 1 = Sample.watchedEnd.versions[(1 : JobId)]? := by
  have heval : ((watched Tay.Sample.runtime).run ⟨Sample.empty, ∅, ∅⟩
        Sample.watchedActions).isSome = true ∧
      (Sample.watchedEnd.engine.terminalStore[(1 : JobId)]?).isSome = true ∧
      (1 : JobId) ∉ Sample.watchedEnd.purged := by
    decide +kernel
  obtain ⟨hrun, hterminal, hpurged⟩ := heval
  have hstart : (watched Tay.Sample.runtime).initial ⟨Sample.empty, ∅, ∅⟩ := by
    refine ⟨⟨⟨Tay.Sample.manifest 0, [⟨1, 1, [], false⟩]⟩, Sample.config, Sample.recovered,
      Sample.segment, by decide +kernel, rfl, ⟨by decide +kernel, by decide +kernel, ?_, ?_⟩⟩, ?_,
      rfl⟩
    · rintro limit ⟨⟩
      decide +kernel
    · rintro limit ⟨⟩
      decide +kernel
    · intro id
      rfl
  obtain ⟨w, hw⟩ := Option.isSome_iff_exists.mp hrun
  have hreachable : (watched Tay.Sample.runtime).Reachable Sample.watchedEnd := by
    rw [Sample.watchedEnd, hw]
    exact Machine.reachable_of_run hstart hw
  obtain ⟨hone, -, hlatest, -⟩ := placement_exact hreachable 1
  refine ⟨hreachable, hterminal, hpurged, ?_, ?_⟩
  · cases hhot : Sample.watchedEnd.engine.hot[(1 : JobId)]? with
    | none => rfl
    | some job => exact absurd ⟨Option.isSome_of_eq_some hhot, hterminal⟩ hone
  · rw [hlatest, if_neg hpurged]

end Tay.Engine
