import Tay.Engine.Reserve
import Tay.Foundation.Table

/-!
# The hot projection

What a commit does to the jobs in memory. It moves the job it names and no other that is still
active: an epoch the reply carries may drop volatile jobs, but only terminal ones. These are the
facts an observer of running executions needs of the store.
-/

open Foundation

namespace Tay.Engine

open V2 Transition ProjectionState

/-- Every active job but the one excepted is as it was. -/
def KeepsActive (s t : State) (except : Option JobId) : Prop :=
  ∀ (id : JobId) (job : Job), s.hot[id]? = some job → job.state.terminal = false →
    some id ≠ except → t.hot[id]? = some job

theorem KeepsActive.refl (s : State) (except : Option JobId) : KeepsActive s s except :=
  fun _ _ hjob _ _ ↦ hjob

theorem KeepsActive.trans {s t u : State} {except : Option JobId} (h : KeepsActive s t none)
    (h' : KeepsActive t u except) : KeepsActive s u except := by
  intro id job hjob hactive hne
  exact h' id job (h id job hjob hactive (by simp)) hactive hne

theorem KeepsActive.congr {s t u : State} {except : Option JobId} (h : KeepsActive s t except)
    (hhot : u.hot = t.hot) : KeepsActive s u except := by
  intro id job hjob hactive hne
  rw [hhot]
  exact h id job hjob hactive hne

/-! ## Adoption -/

theorem purge_active {s t : State} {retention : Retention} {capturedAt : ℕ}
    (hkeyed : Keyed Job.id s.hot)
    (h : OnlineCheckpoint.purgeExpiredVolatileTerminals s retention capturedAt = .ok t) :
    KeepsActive s t none := by
  intro id job hjob hactive _
  refine fold_invariant_mem (P := fun u : State ↦ u.hot[id]? = some job) ?_ hjob h
  rintro ⟨key, j⟩ hmem a b ha hstep
  have hj : s.hot[key]? = some j := Std.ExtTreeMap.mem_toList_iff_getElem?_eq_some.mp hmem
  simp only [OnlineCheckpoint.purgeStep] at hstep
  split at hstep
  case isFalse =>
    cases hstep
    exact ha
  case isTrue hterminal =>
    obtain ⟨expired, -, hrest⟩ := bind_eq_ok.mp hstep
    split at hrest
    case isFalse =>
      cases hrest
      exact ha
    case isTrue =>
      cases hrest
      -- the dropped job is terminal, so it is not the active one
      have hne : j.id ≠ id := by
        intro heq
        have hkey : key = id := (hkeyed key j hj).symm.trans heq
        rw [hkey, hjob] at hj
        cases hj
        simp [hactive] at hterminal
      simp only [Table.get_erase, hne, if_false]
      exact ha

variable (vm : Runtime)

theorem adopt_active {s t : State} {stats : OnlineCheckpoint.Stats} {retention : Retention}
    {admits : ℤ → Bool} (hkeyed : Keyed Job.id s.hot)
    (h : OnlineCheckpoint.adopt vm s stats retention admits = .ok t) : KeepsActive s t none := by
  obtain ⟨purged, hpurged, hrest⟩ := bind_eq_ok.mp h
  have hp := purge_active hkeyed hpurged
  split at hrest
  case h_1 => cases hrest
  case h_2 =>
    obtain ⟨-, hnext⟩ := check_bind_eq_ok.mp hrest
    cases hnext
    exact hp.congr rfl

theorem landing_active {s t : State} {payload : Payload} {env : Environment}
    (hkeyed : Keyed Job.id s.hot) (h : Landing vm s payload env t) : KeepsActive s t none := by
  cases h with
  | stay => exact KeepsActive.refl s none
  | switch _ _ hadopt => exact (adopt_active vm hkeyed hadopt).congr rfl

/-! ## Commits -/

/-- Whether an event starts an execution. -/
def starts : JobBody → Bool
  | .started .. => true
  | _ => false

/-- A start is the one event that leaves a job executing. -/
theorem transition_running {e : JobEvent} {previous : Option Job} {m : Mutation} {order : ℕ}
    {limits : Value.Limits} {job : Job} (hm : Mutation.fromEvent e previous order = .ok m)
    (h : Reducer.transitionJob previous m order limits = .ok job) :
    running (some job) = starts e.body := by
  have hrunning := transitionJob_running h
  obtain ⟨jobId, expected, timestamp, body⟩ := e
  simp only [Mutation.fromEvent, bind_eq_ok, pure_eq_ok] at hm
  obtain ⟨b, hb, hm⟩ := hm
  cases hm
  rcases body with _ | _ | _ | _ | token | _ <;> simp only [Mutation.translate] at hb
  case started =>
    rcases previous with _ | p
    · cases hb
    · cases hb
      exact hrunning.2
  case cancelled =>
    cases hb
    exact hrunning
  all_goals
    cases hb
    exact hrunning.2

/-- What a commit on a known or a new job leaves in memory. -/
structure HotSpec (s : State) (e : JobEvent) (c : Committed) : Prop where
  counted : Counted c.state
  job : c.job.id = e.jobId
  others : KeepsActive s c.state (some e.jobId)
  running : running (some c.job) = starts e.body
  /-- The job is hot, unless it is persistent and has ended. -/
  own : c.state.hot[e.jobId]? = some c.job ∨
    e.jobId ∉ s.volatileIds ∧ c.job.state.terminal = true

theorem volatile_hot {s : State} {e : JobEvent} {c : Committed} (h : Counted s)
    (hknown : e.jobId ∈ s.volatileIds ∨ lookup s e.jobId = none)
    (hc : VolatileSpec s (lookup s e.jobId) e c) : HotSpec s e c := by
  obtain ⟨m, job, hm, htransition, hjobId, hstate⟩ := hc.transition
  have hmid : m.jobId = e.jobId := fromEvent_jobId hm
  have hid : c.job.id = e.jobId := by rw [hjobId, Reducer.transitionJob_id htransition, hmid]
  have hprevious : ∀ q ∈ lookup s e.jobId, q.id = e.jobId := by
    intro q hq
    rw [Option.mem_def.mp hq] at htransition
    rw [Reducer.transitionJob_previous htransition, hmid]
  have hget := @hot_publish s _ c.job .volatile h.keyed
    (by rw [hid]; exact hotPrevious_eq rfl hprevious)
  rw [← hc.hot, hid] at hget
  constructor
  case counted => exact h.volatile hknown hc
  case job => exact hid
  case running => rw [← transition_running hm htransition, Engine.running, Engine.running,
      Option.any_some, Option.any_some, hstate]
  case others =>
    intro id j hj _ hne
    rw [hget, if_neg fun heq ↦ hne (congrArg some heq.symm)]
    exact hj
  case own =>
    refine .inl ?_
    rw [hget, if_pos rfl]
    rfl

theorem persistent_hot {s : State} {e : JobEvent} {c : Committed} {env : Environment}
    (h : Counted s) (hfresh : e.jobId ∉ s.volatileIds)
    (hcommit : commitV2 vm s (lookup s e.jobId) e env = .ok c) : HotSpec s e c := by
  obtain ⟨p, base, hp, hlanding, hc⟩ := commitV2_landing vm hcommit
  obtain ⟨hbase, -, hsame⟩ := h.landing vm hlanding
  obtain ⟨job, hjob, htransition, -⟩ := hp.transition
  have hmid : p.mutation.jobId = e.jobId := fromEvent_jobId hp.mutation
  have hid : c.job.id = e.jobId := by
    rw [← Job.durable_id, hc.job, hjob, Job.durable_id, Reducer.transitionJob_id htransition, hmid]
  have hstate : c.job.state = job.state := by
    rw [← Job.durable_state, hc.job, hjob, Job.durable_state]
  have hprevious : ∀ q ∈ lookup s e.jobId, q.id = e.jobId := by
    intro q hq
    rw [Option.mem_def.mp hq] at htransition
    rw [Reducer.transitionJob_previous htransition, hmid]
  have hhot : hotPrevious base (lookup s e.jobId) = base.hot[c.job.id]? := by
    rw [hid, (hsame _ hfresh).2, ← hotPrevious_eq rfl hprevious]
    cases hlookup : lookup s e.jobId with
    | none => rfl
    | some q =>
      simp only [hotPrevious, Option.bind_some, hprevious q hlookup]
      exact (hsame _ hfresh).2
  have hget := @hot_publish base _ c.job .persistent hbase.keyed hhot
  rw [← hc.hot, hid] at hget
  constructor
  case counted => exact h.persistent vm hfresh hp hlanding hc
  case job => exact hid
  case running => rw [← transition_running hp.mutation htransition, Engine.running, Engine.running,
      Option.any_some, Option.any_some, hstate]
  case others =>
    intro id j hj hactive hne
    rw [hget, if_neg fun heq ↦ hne (congrArg some heq.symm)]
    exact landing_active vm h.keyed hlanding id j hj hactive (by simp)
  case own =>
    rw [hget, if_pos rfl]
    by_cases hterminal : c.job.state.terminal = true
    · exact .inr ⟨hfresh, hterminal⟩
    · exact .inl (by simp [terminal?, hterminal])

/-- A commit on the job it names. -/
theorem commit_hot {s : State} {e : JobEvent} {env : Environment} {p : Job} {c : Committed}
    (h : Counted s) (hlookup : lookup s e.jobId = some p)
    (hcommit : commit vm s (some p) e none env = .ok c) : HotSpec s e c := by
  rw [← hlookup] at hcommit
  rcases commit_cases vm h.volatileHot (by simp [hlookup]) hcommit with ⟨hknown, hc⟩ | ⟨hfresh, hc⟩
  · exact volatile_hot h hknown hc
  · exact persistent_hot vm h hfresh hc

theorem lookup_of_hot {s : State} {id : JobId} {job : Job} (h : s.hot[id]? = some job) :
    lookup s id = some job := by
  rw [lookup, h, Option.some_or]

/-- An auxiliary commit moves no job. -/
theorem auxiliary_hot {s : State} {e : AuxEvent} {job : Option Job} {env : Environment}
    {out : State × List Record} (hs : Counted s) (h : commitAuxiliary vm s e job env = .ok out) :
    Counted out.1 ∧ KeepsActive s out.1 none := by
  unfold commitAuxiliary at h
  split at h
  · simp only [commitVolatileAuxiliary, bind_eq_ok, pure_eq_ok] at h
    obtain ⟨-, -, c, -, -, -, h⟩ := h
    cases h
    exact ⟨hs.congr rfl rfl rfl rfl, KeepsActive.refl s none⟩
  · obtain ⟨base, hlanding, hspec⟩ := commitPersistentAuxiliary_landing vm h
    obtain ⟨c, -, hout⟩ := hspec.reduced
    rw [hout]
    exact ⟨(hs.landing vm hlanding).1.congr rfl rfl rfl rfl,
      (landing_active vm hs.keyed hlanding).congr rfl⟩

/-! ## Commands and compactions -/

/-- The job a command is about. -/
def Op.jobId? (op : Op) : Option JobId := op.event?.map JobEvent.jobId

theorem perform_active {s : State} {op : Op} {env : Environment} {out : State × List Record}
    (hs : Counted s) (h : perform vm s op env = .ok out) : KeepsActive s out.1 op.jobId? := by
  rcases perform_cases vm hs.volatileHot h with
    ⟨e, c, he, hknown, hc, rfl⟩ | ⟨e, c, he, hfresh, hcommit, rfl⟩ | ⟨e, j, rfl, -⟩ | ⟨e, rfl, -⟩
  · rw [Op.jobId?, he]
    exact (volatile_hot hs hknown hc).others
  · rw [Op.jobId?, he]
    exact (persistent_hot vm hs hfresh hcommit).others
  · exact (auxiliary_hot vm hs h).2
  · exact (auxiliary_hot vm hs h).2

/-- An insertion is of a job that is not there, so it touches none that is. -/
theorem insert_active {s : State} {e : JobEvent} {mode : Durability} {env : Environment}
    {out : State × List Record} (hs : Counted s)
    (h : perform vm s (.insert e mode) env = .ok out) : KeepsActive s out.1 none := by
  intro id job hjob hactive _
  refine perform_active vm hs h id job hjob hactive ?_
  rintro heq
  cases heq
  simp only [perform, lookup_of_hot hjob] at h
  cases h

/-- The messages of an online compaction leave every active job. -/
theorem handle_active {s t : State} {a : Action} (hs : Counted s)
    (ha : ∀ op env, a ≠ .command op env) (h : handle vm s a = .ok t) : KeepsActive s t none := by
  cases a with
  | command op env => exact absurd rfl (ha op env)
  | compactOnline rotation token retention =>
    rcases handle_cases vm h with ⟨op, env, out, ha, -⟩ | ⟨_, _, _, ha, -⟩ | ⟨_, _, _, -, -, rfl⟩ |
      ⟨online, rfl⟩
    · cases ha
    · cases ha
    · exact KeepsActive.refl s none
    · exact KeepsActive.refl s none
  | compactResult token result =>
    simp only [handle] at h
    split at h
    case h_1 stats admits current retention _ =>
      split at h
      · exact adopt_active vm hs.keyed h
      · cases h
        exact KeepsActive.refl s none
    all_goals
      cases h
      first
        | exact KeepsActive.refl s none
        | (split <;> exact KeepsActive.refl s none)

theorem purge_settlement {s t : State} {retention : Retention} {capturedAt : ℕ}
    (h : OnlineCheckpoint.purgeExpiredVolatileTerminals s retention capturedAt = .ok t) :
    t.settlementReserve = s.settlementReserve := by
  refine fold_invariant (P := fun u : State ↦ u.settlementReserve = s.settlementReserve) ?_ rfl h
  rintro a ⟨key, job⟩ b ha hstep
  simp only [OnlineCheckpoint.purgeStep] at hstep
  split at hstep
  case isFalse =>
    cases hstep
    exact ha
  case isTrue =>
    obtain ⟨expired, -, hrest⟩ := bind_eq_ok.mp hstep
    split at hrest <;> cases hrest <;> exact ha

/-- A compaction reserves and settles nothing. -/
theorem handle_settlement {s t : State} {a : Action} (ha : ∀ op env, a ≠ .command op env)
    (h : handle vm s a = .ok t) : t.settlementReserve = s.settlementReserve := by
  cases a with
  | command op env => exact absurd rfl (ha op env)
  | compactOnline rotation token retention =>
    rcases handle_cases vm h with ⟨op, env, out, ha, -⟩ | ⟨_, _, _, ha, -⟩ | ⟨_, _, _, -, -, rfl⟩ |
      ⟨online, rfl⟩
    · cases ha
    · cases ha
    · rfl
    · rfl
  | compactResult token result =>
    simp only [handle] at h
    split at h
    case h_1 stats admits current retention _ =>
      split at h
      · obtain ⟨purged, hpurged, hrest⟩ := bind_eq_ok.mp h
        split at hrest
        · cases hrest
        · obtain ⟨-, hrest⟩ := check_bind_eq_ok.mp hrest
          cases hrest
          exact (purge_settlement hpurged :)
      · cases h
        rfl
    all_goals
      cases h
      first
        | rfl
        | (split <;> rfl)

end Tay.Engine
