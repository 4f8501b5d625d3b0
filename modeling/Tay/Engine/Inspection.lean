import Tay.Engine.Finish
import Tay.State.Inspection

/-!
# The views an engine answers from

The hot projection and the terminal store, with their indexes, as the engine updates them: when a commit is
published, when expired volatile jobs are purged, and when the terminal store is cut down to what an adopted
epoch holds. They are run beside the state of the engine, whose two tables of jobs are all it needs for
everything else.

The views show that state at any time: they hold the same jobs, and their indexes are exact. So an engine
answers a query for jobs with a page of one sorted list, wherever the jobs are.
-/

open Foundation

namespace Tay.Engine

open V2 Transition ProjectionState OnlineCheckpoint

/-- `projection` and `terminal_store`. -/
structure Views where
  projection : Projection
  terminals : TerminalStore

namespace Views

/-- `Engine.init`: the active jobs are loaded, and the terminal ones stored. -/
def start (registry queues : Finset Binary) (jobs : Table JobId Job) : Views where
  projection := (Projection.new registry queues).load (jobs.filter fun _ job ↦ !job.state.terminal)
  terminals := TerminalStore.load jobs

/-- `ProjectionState.publish`. -/
def publish (v : Views) (previous : Option Job) (job : Job) (mode : Durability) : Views :=
  let hotPrevious := previous.bind fun p ↦ v.projection.jobs[p.id]?
  if mode == .persistent && terminal? (some job) then
    { projection := match hotPrevious with | some p => v.projection.delete p | none => v.projection
      terminals := v.terminals.put job }
  else match hotPrevious with
    | some p => { v with projection := v.projection.replace (some p) job }
    | none =>
      { projection := v.projection.replace none job
        terminals := match previous with | some p => v.terminals.delete p.id | none => v.terminals }

/-- `purge_expired_volatile_terminals`: the expired jobs are collected first. -/
def purge (v : Views) (volatileIds : Finset JobId) (retention : Retention) (capturedAt : ℕ) : Views :=
  let expired := (v.projection.jobs.toList.map Prod.snd).filter fun job ↦
    decide (job.id ∈ volatileIds) && overdue retention capturedAt job
  { v with projection := expired.foldl Projection.delete v.projection }

/-- The terminal jobs that an adopted epoch does not hold are deleted. -/
def retain (v : Views) (retained : Table JobId Job) : Views :=
  let gone := (v.terminals.table.toList.map Prod.snd).filter fun job ↦ (retained[job.id]?).isNone
  { v with terminals := gone.foldl (fun store job ↦ store.delete job.id) v.terminals }

/-- `adopt`, as far as the views go. -/
def adopt (v : Views) (s : State) (stats : Stats) (retention : Retention) : Views :=
  (v.purge s.volatileIds retention stats.capturedAt).retain stats.recovered.candidate.jobs

variable (vm : Runtime)

/-- What a message does to the views: an epoch that comes with it is adopted, and then the job of an
accepted event is published. -/
def observe (v : Views) (s : State) (a : Action) : Views :=
  let settled := match adoption vm s a with
    | none => v
    | some (stats, retention) => v.adopt s stats retention
  match published vm s a with
  | none => settled
  | some (previous, job, mode) => settled.publish previous job mode

end Views

/-- A generation with its views. -/
def viewed (vm : Runtime) (registry queues : Finset Binary) : Machine (State × Views) Action where
  initial x := ∃ d config r segment,
    Reader.recover vm d (candidate config.candidateLimits config.valueLimits) = .ok r ∧
      x = (countInterrupted (init config r segment), Views.start registry queues r.candidate.jobs)
  step x a := (handle vm x.1 a).toOption.map fun t ↦ (t, x.2.observe vm x.1 a)

/-! ## Taking several jobs out -/

/-- Deleting some stored jobs. -/
theorem delete_jobs {l : List Job} (hdistinct : l.Pairwise fun a b ↦ a.id ≠ b.id) : ∀ {p : Projection},
    Projection.Represents p → (∀ job ∈ l, p.jobs[job.id]? = some job) →
      Projection.Represents (l.foldl Projection.delete p) ∧
        (l.foldl Projection.delete p).held = p.held ∧
        (l.foldl Projection.delete p).jobs = (l.map Job.id).foldl (fun t id ↦ t.erase id) p.jobs := by
  induction l with
  | nil =>
    intro p h _
    exact ⟨h, rfl, rfl⟩
  | cons job l ih =>
    intro p h hstored
    rw [List.pairwise_cons] at hdistinct
    have hjobs : (p.delete job).jobs = p.jobs.erase job.id := rfl
    refine ih hdistinct.2 (h.delete (hstored job List.mem_cons_self)) fun b hb ↦ ?_
    rw [hjobs, Foundation.Table.get_erase, if_neg (hdistinct.1 b hb)]
    exact hstored b (List.mem_cons_of_mem _ hb)

theorem delete_terminals (l : List Job) : ∀ {store : TerminalStore}, TerminalStore.Exact store →
    TerminalStore.Exact (l.foldl (fun store job ↦ store.delete job.id) store) ∧
      (l.foldl (fun store job ↦ store.delete job.id) store).table =
        (l.map Job.id).foldl (fun t id ↦ t.erase id) store.table := by
  induction l with
  | nil =>
    intro store h
    exact ⟨h, rfl⟩
  | cons job l ih =>
    intro store h
    obtain ⟨hrest, htable⟩ := ih (h.delete job.id)
    rw [TerminalStore.table_delete] at htable
    exact ⟨hrest, htable⟩

/-- The jobs of a table that pass a test, by their ids. -/
theorem mem_ids_filter {t : Table JobId Job} (hkeyed : Keyed Job.id t) (test : Job → Bool) (id : JobId) :
    id ∈ ((t.toList.map Prod.snd).filter test).map Job.id ↔ (t[id]?).any test = true := by
  rw [List.mem_map, Option.any_eq_true]
  constructor
  · rintro ⟨job, hjob, rfl⟩
    obtain ⟨hmem, htest⟩ := List.mem_filter.mp hjob
    obtain ⟨e, he, rfl⟩ := List.mem_map.mp hmem
    have hstored := Std.ExtTreeMap.mem_toList_iff_getElem?_eq_some.mp he
    exact ⟨e.2, by rw [hkeyed _ _ hstored]; exact hstored, htest⟩
  · rintro ⟨job, hjob, htest⟩
    refine ⟨job, List.mem_filter.mpr ⟨List.mem_map.mpr ⟨(id, job), ?_, rfl⟩, htest⟩, hkeyed id job hjob⟩
    exact Std.ExtTreeMap.mem_toList_iff_getElem?_eq_some.mpr hjob

/-! ## What the views show -/

/-- The views hold the jobs of the state, and their indexes are exact. -/
structure Shows (v : Views) (s : State) : Prop where
  jobs : v.projection.jobs = s.hot
  table : v.terminals.table = s.terminalStore
  represents : Projection.Represents v.projection
  exact : TerminalStore.Exact v.terminals

/-- What is left of a table when the ids of some of its jobs go. -/
theorem ite_none_eq_filter {t : Table JobId Job} {gone : Prop} [Decidable gone] {test : Job → Bool} {id : JobId}
    (h : ∀ job, t[id]? = some job → (gone ↔ test job = true)) :
    (if gone then none else t[id]?) = (t[id]?).filter fun job ↦ !test job := by
  cases hjob : t[id]? with
  | none => exact ite_self none
  | some job =>
    rw [Option.filter_some]
    by_cases hgone : gone
    · rw [if_pos hgone, (h job hjob).mp hgone]
      rfl
    · have htest : test job = false := by
        rw [← Bool.not_eq_true]
        exact fun htest ↦ hgone ((h job hjob).mpr htest)
      rw [if_neg hgone, htest]
      rfl

section Steps

variable {vm : Runtime} {v : Views} {s t : State} {stats : Stats} {retention : Retention} {admits : ℤ → Bool}

/-- **Adopting an epoch.** -/
theorem Shows.adopt (h : Shows v s) (hs : Placed s)
    (ht : OnlineCheckpoint.adopt vm s stats retention admits = .ok t) :
    Shows (v.adopt s stats retention) t ∧ (v.adopt s stats retention).projection.held = v.projection.held := by
  have htables := adopt_tables hs ht
  have hdistinct : ((v.projection.jobs.toList.map Prod.snd).filter fun job ↦
      decide (job.id ∈ s.volatileIds) && overdue retention stats.capturedAt job).Pairwise
        fun a b ↦ a.id ≠ b.id := by
    refine List.Pairwise.filter _ (List.pairwise_map.mpr ?_)
    refine Std.ExtTreeMap.distinct_keys_toList.imp_of_mem ?_
    intro a b ha hb hne heq
    rw [h.represents.keyed _ _ (Std.ExtTreeMap.mem_toList_iff_getElem?_eq_some.mp ha),
      h.represents.keyed _ _ (Std.ExtTreeMap.mem_toList_iff_getElem?_eq_some.mp hb)] at heq
    exact hne (Std.LawfulEqCmp.compare_eq_iff_eq.mpr heq)
  obtain ⟨hrepresents, hheld, hjobs⟩ := delete_jobs hdistinct h.represents fun job hjob ↦ by
    obtain ⟨e, he, rfl⟩ := List.mem_map.mp (List.mem_filter.mp hjob).1
    have hstored := Std.ExtTreeMap.mem_toList_iff_getElem?_eq_some.mp he
    rw [h.represents.keyed _ _ hstored]
    exact hstored
  obtain ⟨hexact, htable⟩ := delete_terminals ((v.terminals.table.toList.map Prod.snd).filter fun job ↦
    (stats.recovered.candidate.jobs[job.id]?).isNone) h.exact
  refine ⟨⟨?_, ?_, hrepresents, hexact⟩, hheld⟩
  · apply Std.ExtTreeMap.ext_getElem?
    intro id
    refine (congrArg (·[id]?) hjobs).trans ?_
    rw [(htables id).1, h.jobs]
    refine (Foundation.Table.get_foldl_erase id _ _).trans ?_
    refine ite_none_eq_filter fun job hjob ↦ ?_
    have hid := hs.hotKeyed id job hjob
    rw [mem_ids_filter hs.hotKeyed, hjob, Option.any_some, expires, overdue, hid, Bool.and_eq_true,
      Bool.and_eq_true, decide_eq_true_eq, Bool.and_eq_true]
    constructor
    · rintro ⟨hin, hterminal, hexpired⟩
      rw [if_pos hin]
      exact ⟨hterminal, hexpired⟩
    · rintro ⟨hterminal, hexpired⟩
      have hin := hs.hotTerminal id job hjob hterminal
      rw [if_pos hin] at hexpired
      exact ⟨hin, hterminal, hexpired⟩
  · apply Std.ExtTreeMap.ext_getElem?
    intro id
    refine (congrArg (·[id]?) htable).trans ?_
    rw [(htables id).2.1, h.table]
    refine (Foundation.Table.get_foldl_erase id _ _).trans ?_
    refine ite_none_eq_filter fun job hjob ↦ ?_
    have hid := hs.terminalKeyed id job hjob
    have hout : id ∉ s.volatileIds := by
      intro hin
      rw [hs.apart id (hs.volatileHot id hin)] at hjob
      cases hjob
    rw [mem_ids_filter hs.terminalKeyed, hjob, Option.any_some, expires, hid, if_neg hout,
      hs.terminal id job hjob, Bool.true_and]

/-- **Publishing a job.** A version of it that is hot was inserted at the same time. -/
theorem Shows.publish {previous : Option Job} {job : Job} {mode : Durability} (h : Shows v s)
    (hprevious : hotPrevious s previous = s.hot[job.id]?)
    (hinserted : ∀ q, s.hot[job.id]? = some q → q.insertedAt = job.insertedAt)
    (hhot : t.hot = (ProjectionState.publish s previous job mode).hot)
    (hterminal : t.terminalStore = (ProjectionState.publish s previous job mode).terminalStore) :
    Shows (v.publish previous job mode) t ∧
      (v.publish previous job mode).projection.held = v.projection.held := by
  have hsame : (previous.bind fun p ↦ v.projection.jobs[p.id]?) = hotPrevious s previous := by
    rw [hotPrevious, h.jobs]
  unfold Views.publish
  unfold ProjectionState.publish at hhot hterminal
  rw [hsame]
  split
  case isTrue hcold =>
    rw [if_pos hcold] at hhot hterminal
    cases hq : hotPrevious s previous with
    | none =>
      rw [hq] at hhot
      refine ⟨⟨h.jobs.trans hhot.symm, ?_, h.represents, h.exact.put job⟩, rfl⟩
      rw [TerminalStore.table_put, h.table, hterminal]
    | some q =>
      rw [hq] at hhot
      have hstored : v.projection.jobs[job.id]? = some q := by rw [h.jobs, ← hprevious, hq]
      have hid : q.id = job.id := h.represents.keyed _ _ hstored
      refine ⟨⟨?_, ?_, h.represents.delete (hid ▸ hstored), h.exact.put job⟩, rfl⟩
      · rw [hhot, ← h.jobs]
        rfl
      · rw [TerminalStore.table_put, h.table, hterminal]
  case isFalse hwarm =>
    rw [if_neg hwarm] at hhot hterminal
    cases hq : hotPrevious s previous with
    | none =>
      rw [hq] at hhot hterminal
      have hstored : none = v.projection.jobs[job.id]? := by rw [h.jobs, ← hprevious, hq]
      have hrepresents := h.represents.replace hstored fun q hq ↦ by cases hq
      cases previous with
      | none =>
        refine ⟨⟨?_, h.table.trans hterminal.symm, hrepresents, h.exact⟩, Projection.held_replace _ none job⟩
        rw [Projection.jobs_replace, h.jobs, hhot]
      | some p =>
        refine ⟨⟨?_, ?_, hrepresents, h.exact.delete p.id⟩, Projection.held_replace _ none job⟩
        · rw [Projection.jobs_replace, h.jobs, hhot]
        · rw [TerminalStore.table_delete, h.table, hterminal]
    | some q =>
      rw [hq] at hhot hterminal
      have hstored : some q = v.projection.jobs[job.id]? := by rw [h.jobs, ← hprevious, hq]
      have hrepresents := h.represents.replace hstored fun q' hq' ↦ by
        cases hq'
        exact hinserted q (by rw [← hprevious, hq])
      refine ⟨⟨?_, h.table.trans hterminal.symm, hrepresents, h.exact⟩, Projection.held_replace _ (some q) job⟩
      rw [Projection.jobs_replace, h.jobs, hhot]

/-- A transition keeps the time of the insertion. -/
theorem transitionJob_insertedAt {p job : Job} {m : Mutation} {order : ℕ} {limits : Value.Limits}
    (h : Reducer.transitionJob (some p) m order limits = .ok job) : job.insertedAt = p.insertedAt := by
  rw [Reducer.transitionJob_admitted] at h
  obtain ⟨next, hnext, h⟩ := bind_eq_ok.mp h
  obtain ⟨-, -, h⟩ := bind_eq_ok.mp h
  cases h
  obtain ⟨-, -, -, rfl⟩ := Reducer.admitJob_some hnext
  cases hbody : (Codec.event m).body with
  | retried mode newDueAt =>
    simp only [Reducer.fromV1, Transition.next, hbody]
    split
    · rfl
    · rfl
  | inserted | available | started | finished | cancelled =>
    simp only [Reducer.fromV1, Transition.next, hbody]
    rfl

theorem commit_insertedAt {p : Job} {e : JobEvent} {given : Option Durability} {env : Environment}
    {c : Committed} (h : commit vm s (some p) e given env = .ok c) : c.job.insertedAt = p.insertedAt := by
  have hdurable : ∀ {a b : Job}, a.durable = b.durable → a.insertedAt = b.insertedAt := by
    intro a b heq
    have hsame := congrArg Job.insertedAt heq
    exact hsame
  unfold commit at h
  split at h
  case h_1 =>
    simp only [commitVolatile, bind_eq_ok, pure_eq_ok] at h
    obtain ⟨m, hm, -, -, predicted, hpredicted, charged, hcharged, -, -, next, -, h⟩ := h
    cases h
    obtain ⟨job, hjob, hsame, -⟩ := Reducer.applyOne_eq_ok vm hpredicted
    obtain ⟨ch, hch⟩ := accountActive_charged vm hcharged
    show charged.1.insertedAt = p.insertedAt
    rw [hch]
    exact (hdurable hsame).trans (transitionJob_insertedAt hjob)
  case h_2 =>
    obtain ⟨q, base, hq, -, hc⟩ := commitV2_landing vm h
    obtain ⟨job, hsame, hjob, -⟩ := hq.transition
    exact (hdurable (hc.job.trans hsame)).trans (transitionJob_insertedAt hjob)

theorem published_insertedAt {a : Action} {p job : Job} {mode : Durability}
    (h : published vm s a = some (some p, job, mode)) : job.insertedAt = p.insertedAt := by
  unfold published at h
  split at h
  case h_1 =>
    split at h
    · cases h
    · obtain ⟨c, -, hc⟩ := Option.map_eq_some_iff.mp h
      cases hc
  case h_2 =>
    split at h
    · cases h
    · obtain ⟨c, hc, heq⟩ := Option.map_eq_some_iff.mp h
      cases heq
      exact commit_insertedAt (toOption_eq_some.mp hc)
  all_goals cases h

/-- **The step lemma.** The views follow every message. -/
theorem Shows.step {a : Action} (h : Shows v s) (hs : Placed s) (ht : handle vm s a = .ok t) :
    Shows (v.observe vm s a) t ∧ (v.observe vm s a).projection.held = v.projection.held := by
  -- what adopting an epoch makes of the views
  have hsettled : ∀ {base : State}, Settles vm s (adoption vm s a) base →
      Shows (match adoption vm s a with
        | none => v
        | some (stats, retention) => v.adopt s stats retention) base ∧
      (match adoption vm s a with
        | none => v
        | some (stats, retention) => v.adopt s stats retention).projection.held = v.projection.held := by
    intro base hbase
    generalize adoption vm s a = adoption at hbase
    cases hbase with
    | stay => exact ⟨h, rfl⟩
    | adopt hadopt =>
      obtain ⟨hshows, hheld⟩ := h.adopt hs hadopt
      exact ⟨⟨hshows.jobs, hshows.table, hshows.represents, hshows.exact⟩, hheld⟩
  unfold Views.observe
  rcases handle_lands hs ht with ⟨⟨previous, job, mode⟩, hpublished, hpublishes⟩ | ⟨hnone, hrests⟩
  · obtain ⟨base, hbase, hhot, hterminal, -⟩ := hpublishes.landing
    obtain ⟨hshows, hheld⟩ := hsettled hbase
    obtain ⟨hplaced, hkept, -⟩ := hbase.placed hs
    have hid : ∀ p ∈ previous, p.id = job.id := fun p hp ↦ hs.lookup_id (hpublishes.known ▸ hp)
    have hunknown : previous = none → lookup base job.id = none := by
      intro hnone
      rw [hkept, ← hpublishes.known, hnone]
      rfl
    have hinserted : ∀ q, base.hot[job.id]? = some q → q.insertedAt = job.insertedAt := by
      intro q hq
      have hknown : lookup base job.id = some q := by
        rw [lookup, hq]
        rfl
      rw [hkept, ← hpublishes.known] at hknown
      obtain ⟨hprevious, -⟩ := Option.filter_eq_some_iff.mp hknown
      subst hprevious
      exact (published_insertedAt hpublished).symm
    obtain ⟨hdone, hheld'⟩ := hshows.publish (hotPrevious_of_id hid hunknown) hinserted hhot hterminal
    rw [hpublished]
    exact ⟨hdone, hheld'.trans hheld⟩
  · obtain ⟨base, hbase, hhot, hterminal, -⟩ := hrests
    obtain ⟨hshows, hheld⟩ := hsettled hbase
    rw [hnone]
    exact ⟨⟨hshows.jobs.trans hhot.symm, hshows.table.trans hterminal.symm, hshows.represents, hshows.exact⟩,
      hheld⟩

end Steps

theorem shows_start {config : Config} {r : Reader.Recovered} (segment : SegmentView)
    (registry queues : Finset Binary) (hr : Sound r.candidate) :
    Shows (Views.start registry queues r.candidate.jobs) (countInterrupted (init config r segment)) := by
  have hkeyed : Keyed Job.id r.candidate.jobs := fun id job hjob ↦ hr.jobs id job hjob
  have hactive : Keyed Job.id (r.candidate.jobs.filter fun _ job ↦ !job.state.terminal) := by
    intro id job hjob
    rw [Std.ExtTreeMap.getElem?_filter'] at hjob
    exact hkeyed id job (Option.filter_eq_some_iff.mp hjob).1
  obtain ⟨hrepresents, hjobs⟩ := Projection.represents_load hactive registry queues
  obtain ⟨hexact, htable⟩ := TerminalStore.exact_load hkeyed
  exact ⟨hjobs, htable, hrepresents, hexact⟩

section Runs

variable {vm : Runtime} {registry queues : Finset Binary} {x : State × Views}

/-- A run with views is a run. -/
theorem reachable_of_viewed (hx : (viewed vm registry queues).Reachable x) : (generation vm).Reachable x.1 := by
  induction hx with
  | initial h =>
    obtain ⟨d, config, r, segment, hr, rfl⟩ := h
    exact .initial ⟨d, config, r, segment, hr, rfl⟩
  | step _ _ hstep ih =>
    obtain ⟨t, ht, rfl⟩ := Option.map_eq_some_iff.mp hstep
    exact ih.step trivial ht

theorem reachable_shows (hx : (viewed vm registry queues).Reachable x) : Placed x.1 ∧ Shows x.2 x.1 := by
  refine Machine.Reachable.invariant (I := fun y ↦ Placed y.1 ∧ Shows y.2 y.1) ?_ ?_ hx
  · rintro _ ⟨d, config, r, segment, hr, rfl⟩
    have hsound := Reader.recover_sound vm (sound_candidate _ _) hr
    exact ⟨placed_start segment hsound, shows_start segment registry queues hsound⟩
  · rintro y a z ⟨hplaced, hshows⟩ hstep
    obtain ⟨t, ht, rfl⟩ := Option.map_eq_some_iff.mp hstep
    have hhandle := toOption_eq_some.mp ht
    refine ⟨?_, (hshows.step hplaced hhandle).1⟩
    rcases handle_placed hplaced hhandle with ⟨job, -, hmoves⟩ | ⟨-, hquiet⟩
    · exact hmoves.placed
    · exact hquiet.placed

theorem Shows.lookup {v : Views} {s : State} (h : Shows v s) (id : JobId) :
    ProjectionState.lookup s id = v.projection.jobs[id]?.or v.terminals.table[id]? := by
  rw [ProjectionState.lookup, h.jobs, h.table]

theorem Shows.inspectable {v : Views} {s : State} (h : Shows v s) (hs : Placed s) :
    CombinedInspection.Inspectable v.projection v.terminals := by
  refine ⟨h.represents, h.exact, fun id hsome ↦ ?_⟩
  rw [h.jobs] at hsome
  rw [h.table]
  exact hs.apart id hsome

/-- The pages of a filter, from an engine whose lookups they are about. -/
structure Enumerates (s : State) (v : Views) (q : Inspection.Query) (fingerprint : Binary) : Prop where
  lookup : ∀ id, ProjectionState.lookup s id = v.projection.jobs[id]?.or v.terminals.table[id]?
  paginates : Inspection.Paginates v.projection v.terminals q fingerprint

/-- **Following the cursors enumerates the jobs.** In every state of an engine, for every filter and page
size, the pages are exactly the jobs that match. -/
theorem pagination_exact (hx : (viewed vm registry queues).Reachable x) (q : Inspection.Query)
    (fingerprint : Inspection.Filter → Binary) : Enumerates x.1 x.2 q (fingerprint q.filter) := by
  obtain ⟨hplaced, hshows⟩ := reachable_shows hx
  have hsealed := reachable_sealed vm (reachable_of_viewed hx)
  refine ⟨hshows.lookup, Inspection.paginates (hshows.inspectable hplaced) (fun id job hjob ↦ ?_) _⟩
  -- the keys of stored jobs can be written in a cursor
  have hsnapshot := hsealed.snapshots id job ((hshows.lookup id).trans hjob)
  obtain ⟨hfields, -⟩ := Codec.snapshot?_iff.mp hsnapshot
  exact ⟨hfields.insertedAt, hfields.id⟩

end Runs

namespace Sample

/-- The first page of one job each. -/
def query : Inspection.Query := ⟨⟨none, none, none, none, none⟩, 1, none, by decide, by decide⟩

end Sample

/-- A job that has been started is listed. -/
theorem pagination_exact_started : ∃ x, (viewed Tay.Sample.runtime ∅ ∅).Reachable x ∧
    (∃ job, ProjectionState.lookup x.1 1 = some job ∧
      job ∈ Inspection.listed x.2.projection x.2.terminals Sample.query) ∧
    Enumerates x.1 x.2 Sample.query [] := by
  have hrun : ((viewed Tay.Sample.runtime ∅ ∅).run
      (Sample.empty, Views.start ∅ ∅ Sample.recovered.candidate.jobs) Sample.starting).any (fun x ↦
        (ProjectionState.lookup x.1 1).any fun job ↦ job.id == 1) = true := by
    decide +kernel
  obtain ⟨x, hx, hjob⟩ := (Option.any_eq_true _ _).mp hrun
  obtain ⟨job, hjob, hid⟩ := (Option.any_eq_true _ _).mp hjob
  have hreachable : (viewed Tay.Sample.runtime ∅ ∅).Reachable x :=
    Machine.reachable_of_run ⟨⟨Tay.Sample.manifest 0, [⟨1, 1, [], false⟩]⟩, Sample.config,
      Sample.recovered, Sample.segment, by decide +kernel, rfl⟩ hx
  have hexact := pagination_exact hreachable Sample.query fun _ ↦ []
  refine ⟨x, hreachable, ⟨job, hjob, (hexact.paginates.complete job).mpr ⟨?_, rfl⟩⟩, hexact⟩
  rw [← hexact.lookup, beq_iff_eq.mp hid]
  exact hjob

end Tay.Engine
