import Tay.Engine.Inspection
import Tay.Execution.Consistency

/-!
# The private indexes of a running engine

The handlers of `Tay.Execution` once more, as far as the views of the engine go: the jobs that commits
publish, the hold on a job that is started, and its release when the execution ends. They are run beside
the handlers themselves, from the views the engine loads when it starts.

## The versions that are held and released

A start under a relay holds the job before it commits, in the version the index has just yielded. The
other callers have a version that is not the stored one, or may be not:

* a start on an executor holds the version from before its commit, and the stored one is executing;
* a settlement releases the version from before its commits, which was executing, and the stored one, if
  the job is still hot, is not ready.

Neither version has an entry in the indexes of ready jobs, so what is taken out or put in is nothing. The
end of a relay releases the stored version, or an id without one.

The indexes are therefore exact in every state, and the held jobs are those of the engine.
-/

open Foundation

namespace Tay

open V2 Transition

/-! ## Handlers -/

namespace Engine.Views

open Execution Executor

variable (vm : Runtime)

/-- `Projection.hold`. -/
def hold (v : Views) (job : Job) : Views := { v with projection := v.projection.hold job }

/-- `Projection.release/2`. -/
def release (v : Views) (job : Job) : Views := { v with projection := v.projection.release job }

/-- `Projection.release/3`. -/
def releaseId (v : Views) (job : Option Job) (id : JobId) : Views :=
  { v with projection := v.projection.releaseId job id }

/-- What an accepted event on a known job does to the views. -/
def change (v : Views) (s : Engine.State) (e : JobEvent) (env : Environment) : Views :=
  v.observe vm s (.command (.change e) env)

/-- `settle_job` and `persist_result`. -/
def settleJob (v : Views) (s : Engine.State) (job : Job) (result : Result) (w : Settling) : Views :=
  match Outcome.event job (outcome result) w.timestamp w.draws with
  | .error _ => v
  | .ok e =>
    match Engine.commit vm s (some job) e none (w.writer s), result with
    | .ok c, .success value =>
      (v.change vm s e (w.writer s)).observe vm c.state
        (.command (.auxiliary (Engine.resultOf c.job value)) (w.writer c.state))
    | _, _ => v.change vm s e (w.writer s)

def settleEngine (v : Views) (s : Execution.State) (entry : Entry) (result : Result) (w : Settling) : Views :=
  match result, s.engine.hot[entry.id]? with
  | .cancelled, _ => v
  | _, none => v
  | result, some job =>
    if job.state = .executing ∧ job.execution = entry.execution then
      v.settleJob vm s.engine job result w
    else v

/-- `Dispatcher.settle`. What is released is the version from before the settlement. -/
def settle (v : Views) (s : Execution.State) (entry : Entry) (result : Result) (w : Settling) : Views :=
  match s.engine.hot[entry.id]? with
  | some job => (v.settleEngine vm s entry result w).release job
  | none => v.settleEngine vm s entry result w

/-- `Dispatcher.start_external`. What is held is the version from before the commit. -/
def startExternal (v : Views) (s : Execution.State) (job : Job) (queue : Binary) (server : ℕ) (c : Claim) :
    Views :=
  match Engine.commit vm s.engine (some job) (startedEvent job c.timestamp) none (c.writer s.engine) with
  | .error _ => v
  | .ok committed =>
    let held := (v.change vm s.engine (startedEvent job c.timestamp) (c.writer s.engine)).hold job
    let entry : Entry :=
      ⟨job.id, queue, committed.job.execution, .external c.reservation server⟩
    let next := { s with engine := committed.state }.occupy (.executor c.reservation) entry
    match next.link.call server (.dispatch c.reservation committed.job c.execution) c.dispatching with
    | some (_, some (.ok ())) | none => held
    | some (l, _) => held.settle vm { next with link := l } entry .lost c.settling

/-- `finish_runtime`. -/
def finishRuntime (v : Views) (s : Execution.State) (pid : ℕ) : Views :=
  match relayEntry s pid with
  | none => v
  | some (entry, r) =>
    if r.settled && r.dead then v.releaseId s.engine.hot[entry.id]? entry.id else v

/-- `start_waiting`. -/
def startWaiting (v : Views) (s : Execution.State) (job : Job) (c : Claim) : Views :=
  let held := v.hold job
  if c.taskAlive && job.eligibleAt.any (· ≤ c.startedAt) then
    match Engine.commit vm s.engine (some job) (startedEvent job c.startedAt) none (c.writer s.engine) with
    | .error _ => held
    | .ok _ => held.change vm s.engine (startedEvent job c.startedAt) (c.writer s.engine)
  else held

def claim (v : Views) (s : Execution.State) (job : Job) (queue : Binary) (c : Claim) : Views :=
  match select s job c with
  | none => v
  | some (l, selection) =>
    let s := { s with link := l }
    match selection with
    | .unavailable => v
    | .relay => if claimable vm s job c.timestamp then v.startWaiting vm s job c else v
    | .external server =>
      if claimable vm s job c.timestamp then v.startExternal vm s job queue server c else v

def controlQueue (v : Views) (s : Execution.State) (queue : Binary) (c : Claim) : Views :=
  match s.slots[queue]?, s.queueLimits[queue]? with
  | some used, some limit =>
    if s.mode = .ready ∧ queue ∉ s.paused ∧ used < limit then
      match nextReady s queue c.tasks c.now with
      | some job => v.claim vm s job queue c
      | none => v
    else v
  | _, _ => v

/-- One due job of `control(:scheduler, s)`. -/
def makeAvailable (v : Views) (s : Execution.State) (id : JobId) (timestamp : ℕ)
    (writer : Engine.State → Environment) : Views :=
  match (s.engine.hot[id]?).filter fun job ↦ job.state == .scheduled || job.state == .retryable with
  | none => v
  | some job =>
    match job.eligibleAt with
    | none => v
    | some due =>
      if due ≤ timestamp then
        match Engine.commit vm s.engine (some job) ⟨id, job.revision, timestamp, .available due⟩ none
            (writer s.engine) with
        | .error _ => v
        | .ok _ => v.change vm s.engine ⟨id, job.revision, timestamp, .available due⟩ (writer s.engine)
      else v

/-- `execution_message(s, relay, entry, {:outcome, outcome})`. -/
def relayOutcome (v : Views) (s : Execution.State) (pid : ℕ) (entry : Entry) (r : Execution.Relay)
    (o : Normalized) (w : Settling) : Views :=
  if !r.settled && r.released then
    match s.engine.hot[entry.id]? with
    | none => v
    | some job =>
      if job.state = .executing ∧ job.execution = entry.execution ∧
          some job.revision = entry.execution then
        match Outcome.event job o w.timestamp w.draws with
        | .error _ => v
        | .ok e =>
          match Engine.commit vm s.engine (some job) e none (w.writer s.engine) with
          | .error _ => v
          | .ok c =>
            (v.change vm s.engine e (w.writer s.engine)).finishRuntime
              (putRelay { s with engine := c.state } pid entry ({ · with settled := true })) pid
      else v
  else v

/-- `execution_message(s, relay, entry, :dead)`. -/
def relayDead (v : Views) (s : Execution.State) (pid : ℕ) (entry : Entry) : Views :=
  v.finishRuntime (putRelay s pid entry ({ · with dead := true })) pid

def executionMessage (v : Views) (s : Execution.State) (pid ticket : ℕ) (execution : Option ℕ)
    (m : RelayMessage) (w : Settling) : Views :=
  match relayEntry s pid with
  | none => v
  | some (entry, r) =>
    if r.ticket = ticket ∧ (execution = entry.execution ∨ (execution = none ∧ r.released = false)) then
      match m with
      | .outcome o => v.relayOutcome vm s pid entry r o w
      | .dead => v.relayDead s pid entry
    else v

/-- `cancel_task`. -/
def cancelTask (v : Views) (s : Execution.State) (id : JobId) (w : Settling) : Views :=
  match s.executions[id]? with
  | none => v
  | some (.executor reservation) =>
    match externalEntry s reservation with
    | none => v
    | some (entry, _, server) =>
      match s.link.call server (.cancel reservation) w.cancelling with
      | none => v
      | some (l, _) => v.settle vm { s with link := l } entry .cancelled w
  | some (.relay pid) =>
    match s.running[Key.relay pid]? with
    | none => v
    | some entry => v.finishRuntime (putRelay s pid entry ({ · with settled := true })) pid

/-- `Commands.execute`. -/
def command (v : Views) (s : Execution.State) (writer : Engine.State → Environment) :
    Execution.Command → Views
  | .insert e mode =>
    if s.mode = .ready then
      match Engine.perform vm s.engine (.insert e mode) (writer s.engine) with
      | .error _ => v
      | .ok _ => v.observe vm s.engine (.command (.insert e mode) (writer s.engine))
    else v
  | .auxiliary e =>
    match Engine.perform vm s.engine (.auxiliary e) (writer s.engine) with
    | .error _ => v
    | .ok _ => v.observe vm s.engine (.command (.auxiliary e) (writer s.engine))
  | .cancel id revision timestamp stopping w =>
    match mutable? s id revision stopping fun state ↦ !state.terminal with
    | none => v
    | some job =>
      let e : JobEvent := ⟨id, job.revision, timestamp, .cancelled job.execution⟩
      match Engine.commit vm s.engine (some job) e none (writer s.engine) with
      | .error _ => v
      | .ok c =>
        (v.change vm s.engine e (writer s.engine)).cancelTask vm { s with engine := c.state } id w
  | .retry id revision timestamp stopping =>
    match mutable? s id revision stopping fun state ↦ state == .retryable || state == .discarded with
    | none => v
    | some job =>
      let e : JobEvent := ⟨id, job.revision, timestamp,
        .retried (if job.state = .discarded then 1 else 0) timestamp⟩
      match Engine.commit vm s.engine (some job) e none (writer s.engine) with
      | .error _ => v
      | .ok _ => v.change vm s.engine e (writer s.engine)
  | .pauseQueue _ | .resumeQueue _ => v

def commands (v : Views) (s : Execution.State) :
    List (Execution.Command × (Engine.State → Environment)) → Views
  | [] => v
  | (c, writer) :: rest =>
    match Execution.command vm s writer c with
    | none => v
    | some next => commands (v.command vm s writer c) next rest

def executorCompletion (v : Views) (s : Execution.State) (server reservation : ℕ) (result : Completion)
    (w : Settling) : Views :=
  if s.executorServer = some server then
    match externalEntry s reservation with
    | some (entry, _, _) => v.settle vm s entry (.ofCompletion result) w
    | none => v
  else v

def executorTimeout (v : Views) (s : Execution.State) (reservation : ℕ) (execution : Option ℕ)
    (w : Settling) : Views :=
  match externalEntry s reservation with
  | some (entry, _, server) =>
    if entry.execution = execution then
      match s.link.call server (.cancel reservation) w.cancelling with
      | none => v
      | some (l, _) => v.settle vm { s with link := l } entry .timeout w
    else v
  | none => v

/-- What one message does to the views. -/
def follow (v : Views) (s : Execution.State) : Execution.Event → Views
  | .commands cs => v.commands vm s cs
  | .executorCompletion w =>
    match s.link.completions with
    | [] => v
    | (server, reservation, result) :: rest =>
      v.executorCompletion vm { s with link := { s.link with completions := rest } } server reservation
        result w
  | .executorTimeout reservation execution w => v.executorTimeout vm s reservation execution w
  | .controlScheduler now id timestamp writer =>
    let s := releasePending s now
    if s.mode = .ready then v.makeAvailable vm s id timestamp writer else v
  | .controlQueue now queue c => v.controlQueue vm (releasePending s now) queue c
  | .execution pid ticket execution m w => v.executionMessage vm s pid ticket execution m w
  | .compaction a => v.observe vm s.engine a
  | .drain .. | .drainDeadline _ | .lifecycleDrain .. | .policyDrainCancel _ | .executorServerReady _
  | .turn _ => v

/-- `reconcile_batch`. -/
def reconcileBatch (v : Views) (writer : Engine.State → Environment) (s : Engine.State) :
    List Interruption → Views
  | [] => v
  | i :: rest =>
    match s.hot[i.jobId]? with
    | none => v
    | some job =>
      match Outcome.event job .interrupted i.timestamp i.draws with
      | .error _ => v
      | .ok e =>
        match Engine.commit vm s (some job) e none (writer s) with
        | .error _ => v
        | .ok c => reconcileBatch (v.change vm s e (writer s)) writer c.state rest

end Engine.Views

/-! ## Commits -/

namespace Engine

open ProjectionState

/-- The events that make a job ready. -/
def readies : JobBody → Bool
  | .inserted .. | .available _ | .retried .. => true
  | .started .. | .finished .. | .cancelled _ => false

/-- The other events leave a job in another state. -/
theorem transition_unready {e : JobEvent} {p job : Job} {m : Mutation} {order : ℕ} {limits : Value.Limits}
    (hm : Mutation.fromEvent e (some p) order = .ok m)
    (h : Reducer.transitionJob (some p) m order limits = .ok job) (hready : readies e.body = false) :
    job.state ≠ .available := by
  rw [Reducer.transitionJob_admitted] at h
  obtain ⟨next, hnext, h⟩ := bind_eq_ok.mp h
  obtain ⟨-, -, h⟩ := bind_eq_ok.mp h
  obtain rfl := Except.ok.inj h
  obtain ⟨-, -, -, rfl⟩ := Reducer.admitJob_some hnext
  obtain ⟨jobId, expected, timestamp, body⟩ := e
  simp only [Mutation.fromEvent, bind_eq_ok, pure_eq_ok] at hm
  obtain ⟨b, hb, hm⟩ := hm
  obtain rfl := Except.ok.inj hm
  rcases body with _ | _ | _ | ⟨diagnostic, disposition, token, attempt, due, result⟩ | _ | _ <;>
    simp only [readies, Bool.true_eq_false] at hready <;> simp only [Mutation.translate] at hb <;>
    obtain rfl := Except.ok.inj hb
  · simp [Reducer.fromV1, Transition.next, Codec.event]
  · simp only [Reducer.fromV1, Transition.next, Codec.event]
    split
    · simp
    · split
      · simp
      · simp
  · simp [Reducer.fromV1, Transition.next, Codec.event]

variable {vm : Runtime} {s : State} {e : JobEvent} {env : Environment} {p : Job} {c : Committed}

theorem commit_unready (h : commit vm s (some p) e none env = .ok c) (hready : readies e.body = false) :
    c.job.state ≠ .available := by
  unfold commit at h
  split at h
  case h_1 =>
    obtain ⟨m, job, hm, hjob, -, hstate⟩ := (commitVolatile_spec vm h).transition
    rw [hstate]
    exact transition_unready hm hjob hready
  case h_2 =>
    obtain ⟨prepared, base, hp, -, hc⟩ := commitV2_landing vm h
    obtain ⟨job, hdurable, hjob, -⟩ := hp.transition
    rw [← Job.durable_state, hc.job, hdurable, Job.durable_state]
    exact transition_unready hp.mutation hjob hready

/-- A commit on a known job is one message of the engine. -/
theorem handle_change (hlookup : lookup s e.jobId = some p) (h : commit vm s (some p) e none env = .ok c) :
    handle vm s (.command (.change e) env) = .ok c.state := by
  simp only [handle, perform, hlookup, h, map_ok]

/-- The job it is about is then found in the version it has given to it. -/
theorem commit_latest (hs : Placed s) (hlookup : lookup s e.jobId = some p)
    (h : commit vm s (some p) e none env = .ok c) : lookup c.state c.job.id = some c.job := by
  have hproduced : produced vm s (.command (.change e) env) = some c.job := by
    simp only [produced, hlookup, h]
    rfl
  rcases handle_placed hs (handle_change hlookup h) with ⟨job, hjob, hmoves⟩ | ⟨hnone, -⟩
  · obtain rfl := Option.some.inj (hjob.symm.trans hproduced)
    rw [hmoves.lookup, if_pos rfl]
  · rw [hproduced] at hnone
    exact absurd hnone (Option.some_ne_none _)

theorem Shows.handle {v : Views} {t : State} {a : Action} (h : Shows v s) (hs : Placed s)
    (ht : handle vm s a = .ok t) :
    Placed t ∧ Shows (v.observe vm s a) t ∧ (v.observe vm s a).projection.held = v.projection.held := by
  refine ⟨?_, h.step hs ht⟩
  rcases handle_placed hs ht with ⟨_, _, hmoves⟩ | ⟨-, hquiet⟩
  · exact hmoves.placed
  · exact hquiet.placed

/-- Reconciling the interrupted executions. -/
theorem Shows.reconcile {v : Views} {t : State} {writer : State → Environment} {l : List Interruption}
    (h : Shows v s) (hs : Placed s) (ht : reconcileBatch vm writer s l = .ok t) :
    Placed t ∧ Shows (v.reconcileBatch vm writer s l) t ∧
      (v.reconcileBatch vm writer s l).projection.held = v.projection.held := by
  induction l generalizing s v with
  | nil =>
    obtain rfl := Except.ok.inj ht
    exact ⟨hs, h, rfl⟩
  | cons i rest ih =>
    rw [reconcileBatch, fold_cons] at ht
    obtain ⟨u, hu, hrest⟩ := bind_eq_ok.mp ht
    unfold reconcileStep at hu
    rcases hjob : s.hot[i.jobId]? with _ | job
    · rw [hjob] at hu
      exact absurd hu (by simp)
    rw [hjob] at hu
    simp only [bind_eq_ok, pure_eq_ok, mapError_eq_ok] at hu
    obtain ⟨e, he, c, hc, hu⟩ := hu
    obtain rfl := Except.ok.inj hu
    obtain ⟨-, hid, -⟩ := Outcome.event_eq_ok he
    have hlookup : ProjectionState.lookup s e.jobId = some job := by
      rw [hid, hs.hotKeyed _ _ hjob]
      exact lookup_of_hot hjob
    obtain ⟨hplaced, hshows, hheld⟩ := h.handle hs (handle_change hlookup hc)
    obtain ⟨hplaced', hshows', hheld'⟩ := ih hshows hplaced hrest
    simp only [Views.reconcileBatch, hjob, he, hc]
    exact ⟨hplaced', hshows', hheld'.trans hheld⟩

end Engine

namespace Execution

open Executor

/-- A generation with its views. They are loaded from the recovered jobs, and the interrupted executions
are reconciled in them. -/
def indexed (vm : Runtime) : Machine (State × Engine.Views) Event where
  initial x := Starts vm x.1 ∧ ∃ d config r segment writer interruptions,
    Reader.recover vm d (candidate config.candidateLimits config.valueLimits) = .ok r ∧
      Engine.reconcileBatch vm writer (Engine.countInterrupted (Engine.init config r segment))
        interruptions = .ok x.1.engine ∧
      x.2 = (Engine.Views.start x.1.registry x.1.queues r.candidate.jobs).reconcileBatch vm writer
        (Engine.countInterrupted (Engine.init config r segment)) interruptions
  step x e := (step vm x.1 e).map fun t ↦ (t, x.2.follow vm x.1 e)

/-! ## The invariant -/

/-- The views show the jobs of the engine, and what they hold back is what the engine does. -/
structure Indexed (s : State) (v : Engine.Views) : Prop where
  placed : Engine.Placed s.engine
  shows : Engine.Shows v s.engine
  held : v.projection.held = s.held

variable {vm : Runtime} {s t : State} {v : Engine.Views} {job : Job}

namespace Indexed

/-- Only the store and the held jobs matter. -/
theorem congr (h : Indexed s v) (hengine : t.engine = s.engine) (hheld : t.held = s.held) : Indexed t v :=
  ⟨hengine ▸ h.placed, hengine ▸ h.shows, h.held.trans hheld.symm⟩

theorem hot_id (h : Indexed s v) {id : JobId} (hjob : s.engine.hot[id]? = some job) : job.id = id :=
  h.placed.hotKeyed id job hjob

/-- A message of the engine's store. -/
theorem handle {a : Engine.Action} {engine : Engine.State} (h : Indexed s v)
    (ha : Engine.handle vm s.engine a = .ok engine) :
    Indexed { s with engine := engine } (v.observe vm s.engine a) := by
  obtain ⟨hplaced, hshows, hheld⟩ := h.shows.handle h.placed ha
  exact ⟨hplaced, hshows, hheld.trans h.held⟩

theorem change {e : JobEvent} {env : Engine.Environment} {c : Engine.Committed} (h : Indexed s v)
    (hlookup : Engine.ProjectionState.lookup s.engine e.jobId = some job)
    (hc : Engine.commit vm s.engine (some job) e none env = .ok c) :
    Indexed { s with engine := c.state } (v.change vm s.engine e env) :=
  h.handle (Engine.handle_change hlookup hc)

/-- What the engine holds back, the index does not offer. -/
theorem hold (h : Indexed s v) (hjob : ∀ q, s.engine.hot[job.id]? = some q → q.state = .available → job = q)
    (hengine : t.engine = s.engine) (hheld : t.held = insert job.id s.held) : Indexed t (v.hold job) := by
  have hrepresents : Projection.Represents (v.projection.hold job) :=
    h.shows.represents.hold fun q hq ↦ hjob q (h.shows.jobs ▸ hq)
  refine ⟨hengine ▸ h.placed, hengine ▸ ⟨h.shows.jobs, h.shows.table, hrepresents, h.shows.exact⟩, ?_⟩
  rw [hheld, ← h.held]
  rfl

theorem release (h : Indexed s v)
    (hjob : s.engine.hot[job.id]? = some job ∨
      job.state ≠ .available ∧ ∀ q, s.engine.hot[job.id]? = some q → q.state ≠ .available)
    (hengine : t.engine = s.engine) (hheld : t.held = s.held.erase job.id) : Indexed t (v.release job) := by
  have hstale : Projection.Stale v.projection job := by
    rw [Projection.Stale, h.shows.jobs]
    exact hjob
  have hrepresents := h.shows.represents.release hstale
  refine ⟨hengine ▸ h.placed, hengine ▸ ⟨h.shows.jobs, h.shows.table, hrepresents, h.shows.exact⟩, ?_⟩
  rw [hheld, ← h.held]
  rfl

/-- The release of an id, with the stored version of its job if there is one. -/
theorem releaseId (h : Indexed s v) (id : JobId) (hengine : t.engine = s.engine)
    (hheld : t.held = s.held.erase (((s.engine.hot[id]?).map Job.id).getD id)) :
    Indexed t (v.releaseId s.engine.hot[id]? id) := by
  have hrepresents : Projection.Represents (v.projection.releaseId s.engine.hot[id]? id) :=
    h.shows.represents.releaseId
      (fun job hjob ↦ ⟨h.hot_id hjob, .inl (by rw [h.hot_id hjob, h.shows.jobs]; exact hjob)⟩)
      fun hnone ↦ h.shows.jobs ▸ hnone
  have hjobs : (v.projection.releaseId s.engine.hot[id]? id).jobs = v.projection.jobs := by
    rcases s.engine.hot[id]? with _ | job
    · rfl
    · rfl
  have hsame : (v.projection.releaseId s.engine.hot[id]? id).held = t.held := by
    rw [hheld, ← h.held]
    rcases s.engine.hot[id]? with _ | job
    · rfl
    · rfl
  have hshows : Engine.Shows (v.releaseId s.engine.hot[id]? id) s.engine :=
    ⟨hjobs.trans h.shows.jobs, h.shows.table, hrepresents, h.shows.exact⟩
  exact ⟨hengine ▸ h.placed, by rw [hengine]; exact hshows, hsame⟩

end Indexed

/-! ## Settlements -/

/-- The ways a settlement goes: nothing is committed, or the job that runs is settled. -/
theorem settleEngine_cases {entry : Entry} {result : Result} {w : Settling} {engine : Engine.State}
    (ht : settleEngine vm s entry result w = some engine) (v : Engine.Views) :
    (engine = s.engine ∧ v.settleEngine vm s entry result w = v) ∨
      ∃ job, s.engine.hot[entry.id]? = some job ∧ job.state = .executing ∧
        settleJob vm s.engine job result w = some engine ∧
        v.settleEngine vm s entry result w = v.settleJob vm s.engine job result w := by
  unfold Engine.Views.settleEngine
  unfold settleEngine at ht
  rcases hjob : s.engine.hot[entry.id]? with _ | job
  · rw [hjob] at ht
    refine .inl ?_
    rcases result <;> exact ⟨(Option.some.inj ht).symm, rfl⟩
  · rw [hjob] at ht
    rcases result with value | _ | _ | _ | _
    case cancelled => exact .inl ⟨(Option.some.inj ht).symm, rfl⟩
    all_goals
      simp only at ht ⊢
      by_cases hrunning : job.state = .executing ∧ job.execution = entry.execution
      · rw [if_pos hrunning] at ht ⊢
        exact .inr ⟨job, rfl, hrunning.1, ht, rfl⟩
      · rw [if_neg hrunning] at ht ⊢
        exact .inl ⟨(Option.some.inj ht).symm, rfl⟩

/-- What the settlement of a running job leaves in memory of it is not ready. -/
theorem settleJob_indexed {result : Result} {w : Settling} {engine : Engine.State} (h : Indexed s v)
    (hjob : s.engine.hot[job.id]? = some job) (ht : settleJob vm s.engine job result w = some engine) :
    Indexed { s with engine := engine } (v.settleJob vm s.engine job result w) ∧
      ∀ q, engine.hot[job.id]? = some q → q.state ≠ .available := by
  simp only [settleJob, Option.bind_eq_bind, Option.bind_eq_some_iff, toOption_eq_some] at ht
  obtain ⟨e, he, c, hc, ht⟩ := ht
  obtain ⟨-, hid, -, classified, due, -, hbody⟩ := Outcome.event_eq_ok he
  have hlookup : Engine.ProjectionState.lookup s.engine e.jobId = some job := by
    rw [hid]
    exact Engine.lookup_of_hot hjob
  have hfinished := h.change hlookup hc
  have hcid : c.job.id = job.id := (Engine.commit_jobId hc).trans hid
  have hlatest := Engine.commit_latest h.placed hlookup hc
  have hunready : ∀ q, c.state.hot[job.id]? = some q → q.state ≠ .available := by
    intro q hq
    rw [hcid, Engine.lookup_of_hot hq] at hlatest
    obtain rfl := Option.some.inj hlatest
    exact Engine.commit_unready hc (by rw [hbody]; rfl)
  simp only [Engine.Views.settleJob, he, hc]
  rcases result with value | _ | _ | _ | _
  case success =>
    simp only [Option.bind_eq_some_iff, toOption_eq_some] at ht
    obtain ⟨r, hr, ht⟩ := ht
    obtain rfl := Option.some.inj ht
    -- the result is committed with the version the finish has produced
    have hresult : Engine.resultJob c.state (Engine.resultOf c.job value).body = some c.job := hlatest
    rw [← hresult] at hr
    have hhandle : Engine.handle vm c.state
        (.command (.auxiliary (Engine.resultOf c.job value)) (w.writer c.state)) = .ok r.1 := by
      simp only [Engine.handle, Engine.perform, hr, map_ok]
    refine ⟨hfinished.handle hhandle, fun q hq ↦ ?_⟩
    obtain ⟨base, hbase, hhot, -⟩ := Engine.commitAuxiliary_rests hr
    obtain ⟨hplaced, hkept, -⟩ := hbase.placed hfinished.placed
    rw [hhot] at hq
    have hfound := Engine.lookup_of_hot hq
    rw [hkept] at hfound
    obtain ⟨hsame, -⟩ := Option.filter_eq_some_iff.mp hfound
    rw [← hcid, hlatest] at hsame
    obtain rfl := Option.some.inj hsame
    exact Engine.commit_unready hc (by rw [hbody]; rfl)
  all_goals
    obtain rfl := Option.some.inj ht
    exact ⟨hfinished, hunready⟩

/-- After a settlement the version from before it is not told from the stored one. -/
theorem settleEngine_indexed {entry : Entry} {result : Result} {w : Settling} {engine : Engine.State}
    (h : Indexed s v) (ht : settleEngine vm s entry result w = some engine) :
    Indexed { s with engine := engine } (v.settleEngine vm s entry result w) ∧
      ∀ job, s.engine.hot[entry.id]? = some job → engine.hot[job.id]? = some job ∨
        job.state ≠ .available ∧ ∀ q, engine.hot[job.id]? = some q → q.state ≠ .available := by
  rcases settleEngine_cases ht v with ⟨rfl, hviews⟩ | ⟨job, hjob, hrunning, hsettled, hviews⟩
  · rw [hviews]
    exact ⟨h, fun job hjob ↦ .inl ((h.hot_id hjob).symm ▸ hjob)⟩
  · rw [hviews]
    have hown : s.engine.hot[job.id]? = some job := (h.hot_id hjob).symm ▸ hjob
    obtain ⟨hindexed, hunready⟩ := settleJob_indexed h hown hsettled
    refine ⟨hindexed, fun found hfound ↦ .inr ?_⟩
    obtain rfl := Option.some.inj (hfound.symm.trans hjob)
    exact ⟨by rw [hrunning]; decide, hunready⟩

theorem settle_indexed {key : Key} {entry : Entry} {reservation server : ℕ} {result : Result} {w : Settling}
    (h : Indexed s v) (ht : settle vm s key entry reservation server result w = some t) :
    Indexed t (v.settle vm s entry result w) := by
  obtain ⟨engine, l, answer, hengine, -, rfl⟩ := settle_spec vm ht
  obtain ⟨hindexed, hversions⟩ := settleEngine_indexed h hengine
  unfold Engine.Views.settle
  rcases hjob : s.engine.hot[entry.id]? with _ | job
  · exact hindexed.congr rfl rfl
  · exact hindexed.release (hversions job hjob) rfl rfl

theorem Indexed.putRelay (h : Indexed s v) (pid : ℕ) (entry : Entry) (f : Relay → Relay) :
    Indexed (putRelay s pid entry f) v := h.congr rfl rfl

theorem finishRuntime_indexed (h : Indexed s v) (pid : ℕ) :
    Indexed (finishRuntime s pid) (v.finishRuntime s pid) := by
  unfold Engine.Views.finishRuntime finishRuntime relayEntry
  rcases hentry : s.running[Key.relay pid]? with _ | ⟨id, queue, execution, kind⟩
  · exact h
  rcases kind with r | ⟨reservation, server⟩
  · simp only [Option.bind_some]
    by_cases hdone : (r.settled && r.dead) = true
    · rw [if_pos hdone, if_pos hdone]
      exact h.releaseId id rfl rfl
    · rw [if_neg hdone, if_neg hdone]
      exact h
  · exact h

/-! ## Claims -/

/-- The start has left the job executing, so that the version from before has no entry. -/
theorem started_unready {timestamp : ℕ} {env : Engine.Environment} {c : Engine.Committed} (h : Indexed s v)
    (hjob : s.engine.hot[job.id]? = some job)
    (hc : Engine.commit vm s.engine (some job) (startedEvent job timestamp) none env = .ok c) :
    ∀ q, c.state.hot[job.id]? = some q → q.state ≠ .available := by
  intro q hq
  have hlatest := Engine.commit_latest h.placed (e := startedEvent job timestamp) (Engine.lookup_of_hot hjob) hc
  have hcid : c.job.id = job.id := Engine.commit_jobId hc
  rw [hcid, Engine.lookup_of_hot hq] at hlatest
  obtain rfl := Option.some.inj hlatest
  exact Engine.commit_unready hc rfl

theorem startExternal_indexed {queue : Binary} {server : ℕ} {c : Claim} (h : Indexed s v)
    (hjob : s.engine.hot[job.id]? = some job) (ht : startExternal vm s job queue server c = some t) :
    Indexed t (v.startExternal vm s job queue server c) := by
  unfold startExternal onCommit at ht
  unfold Engine.Views.startExternal
  rcases hc : Engine.commit vm s.engine (some job) (startedEvent job c.timestamp) none (c.writer s.engine) with
    reason | committed
  · -- the start is refused, and the reservation given back
    rw [hc] at ht
    refine h.congr (t := t) ?_ ?_
    all_goals
      rcases reason <;> simp only [Option.bind_eq_bind, Option.bind_eq_some_iff, reduceCtorEq] at ht <;>
        obtain ⟨r, -, ht⟩ := ht <;> obtain rfl := Option.some.inj ht <;> rfl
  · rw [hc] at ht
    simp only [Option.bind_eq_bind, Option.bind_eq_some_iff] at ht ⊢
    obtain ⟨⟨l, answer⟩, hcall, ht⟩ := ht
    have hchanged := h.change (e := startedEvent job c.timestamp) (Engine.lookup_of_hot hjob) hc
    have hheld : Indexed ({ s with engine := committed.state }.occupy (.executor c.reservation)
        ⟨job.id, queue, committed.job.execution, .external c.reservation server⟩)
        ((v.change vm s.engine (startedEvent job c.timestamp) (c.writer s.engine)).hold job) :=
      hchanged.hold (fun q hq hready ↦ absurd hready (started_unready h hjob hc q hq)) rfl rfl
    rw [hcall]
    rcases answer with _ | ⟨reason | _⟩
    · exact settle_indexed (hheld.congr rfl rfl) ht
    · exact settle_indexed (hheld.congr rfl rfl) ht
    · obtain rfl := Option.some.inj ht
      exact hheld.congr rfl rfl

theorem startWaiting_indexed {queue : Binary} {c : Claim} (h : Indexed s v)
    (hjob : s.engine.hot[job.id]? = some job) (ht : startWaiting vm s job queue c = some t) :
    Indexed t (v.startWaiting vm s job c) := by
  have hheld : Indexed (waitingState s job queue c) (v.hold job) := by
    refine h.hold (fun q hq _ ↦ ?_) rfl rfl
    exact Option.some.inj (hjob.symm.trans hq)
  unfold startWaiting at ht
  unfold Engine.Views.startWaiting
  by_cases hdue : (c.taskAlive && job.eligibleAt.any (· ≤ c.startedAt)) = true
  · rw [if_pos hdue] at ht ⊢
    have hengine : (waitingState s job queue c).engine = s.engine := rfl
    rw [hengine] at ht
    unfold onCommit at ht
    rcases hc : Engine.commit vm s.engine (some job) (startedEvent job c.startedAt) none (c.writer s.engine) with
      reason | committed
    · rw [hc] at ht
      rcases reason <;> simp only [reduceCtorEq] at ht <;> obtain rfl := Option.some.inj ht <;>
        exact hheld.congr rfl rfl
    · rw [hc] at ht
      obtain rfl := Option.some.inj ht
      exact (hheld.change (e := startedEvent job c.startedAt) (Engine.lookup_of_hot hjob) hc).congr rfl rfl
  · rw [if_neg hdue] at ht ⊢
    obtain rfl := Option.some.inj ht
    exact hheld.congr rfl rfl

theorem claim_indexed {queue : Binary} {c : Claim} (h : Indexed s v) (hjob : s.engine.hot[job.id]? = some job)
    (ht : claim vm s job queue c = some t) : Indexed t (v.claim vm s job queue c) := by
  unfold claim at ht
  unfold Engine.Views.claim
  rcases hselect : select s job c with _ | ⟨l, selection⟩
  · rw [hselect] at ht
    exact absurd ht (by simp)
  · rw [hselect] at ht
    simp only [Option.bind_eq_bind, Option.bind_some] at ht ⊢
    have hlinked : Indexed { s with link := l } v := h.congr rfl rfl
    rcases selection with _ | server | _
    · by_cases hclaimable : claimable vm { s with link := l } job c.timestamp = true
      · rw [if_pos hclaimable] at ht ⊢
        exact startWaiting_indexed hlinked hjob ht
      · rw [if_neg hclaimable] at ht ⊢
        obtain rfl := Option.some.inj ht
        exact hlinked
    · by_cases hclaimable : claimable vm { s with link := l } job c.timestamp = true
      · simp only [if_pos hclaimable] at ht ⊢
        exact startExternal_indexed hlinked hjob ht
      · simp only [if_neg hclaimable] at ht ⊢
        obtain rfl := Option.some.inj ht
        exact hlinked
    · obtain rfl := Option.some.inj ht
      exact hlinked

theorem controlQueue_indexed {queue : Binary} {c : Claim} (h : Indexed s v)
    (ht : controlQueue vm s queue c = some t) : Indexed t (v.controlQueue vm s queue c) := by
  unfold controlQueue at ht
  unfold Engine.Views.controlQueue
  rcases hused : s.slots[queue]? with _ | used
  · rw [hused] at ht
    obtain rfl := Option.some.inj ht
    exact h
  rcases hlimit : s.queueLimits[queue]? with _ | limit
  · rw [hused, hlimit] at ht
    obtain rfl := Option.some.inj ht
    exact h
  rw [hused, hlimit] at ht
  simp only at ht ⊢
  by_cases hready : s.mode = .ready ∧ queue ∉ s.paused ∧ used < limit
  · rw [if_pos hready] at ht ⊢
    rcases hnext : nextReady s queue c.tasks c.now with _ | job
    · rw [hnext] at ht
      obtain rfl := Option.some.inj ht
      exact h
    · rw [hnext] at ht
      obtain ⟨id, hjob⟩ := nextReady_hot hnext
      exact claim_indexed h ((h.hot_id hjob).symm ▸ hjob) ht
  · rw [if_neg hready] at ht ⊢
    obtain rfl := Option.some.inj ht
    exact h

theorem makeAvailable_indexed {id : JobId} {timestamp : ℕ} {writer : Engine.State → Engine.Environment}
    (h : Indexed s v) (ht : makeAvailable vm s id timestamp writer = some t) :
    Indexed t (v.makeAvailable vm s id timestamp writer) := by
  unfold makeAvailable at ht
  unfold Engine.Views.makeAvailable
  rcases hjob : s.engine.hot[id]? with _ | job
  · rw [hjob] at ht
    exact absurd ht (by simp)
  rw [hjob] at ht
  simp only at ht
  by_cases hdue : job.state = .scheduled ∨ job.state = .retryable
  · have hfound : (some job).filter (fun job ↦ job.state == .scheduled || job.state == .retryable) =
        some job := by
      rw [Option.filter_some, if_pos]
      simpa using hdue
    rw [if_pos hdue] at ht
    rw [hfound]
    rcases heligible : job.eligibleAt with _ | due
    · rw [heligible] at ht
      obtain rfl := Option.some.inj ht
      simp only [heligible]
      exact h
    · rw [heligible] at ht
      simp only [heligible] at ht ⊢
      by_cases hpast : due ≤ timestamp
      · rw [if_pos hpast] at ht ⊢
        unfold onCommit at ht
        rcases hc : Engine.commit vm s.engine (some job) ⟨id, job.revision, timestamp, .available due⟩ none
            (writer s.engine) with reason | committed
        · rw [hc] at ht
          rcases reason <;> simp only [reduceCtorEq] at ht <;> obtain rfl := Option.some.inj ht <;>
            exact h
        · rw [hc] at ht
          obtain rfl := Option.some.inj ht
          exact h.change (e := ⟨id, job.revision, timestamp, .available due⟩) (Engine.lookup_of_hot hjob) hc
      · rw [if_neg hpast] at ht ⊢
        obtain rfl := Option.some.inj ht
        exact h
  · have hnone : (some job).filter (fun job ↦ job.state == .scheduled || job.state == .retryable) =
        none := by
      rw [Option.filter_some, if_neg]
      simpa using hdue
    rw [if_neg hdue] at ht
    obtain rfl := Option.some.inj ht
    rw [hnone]
    exact h

/-! ## Messages of relays and executors -/

theorem relayOutcome_indexed {pid : ℕ} {entry : Entry} {r : Relay} {o : Normalized} {w : Settling}
    (h : Indexed s v) (ht : relayOutcome vm s pid entry r o w = some t) :
    Indexed t (v.relayOutcome vm s pid entry r o w) := by
  unfold relayOutcome at ht
  unfold Engine.Views.relayOutcome
  by_cases hlive : (!r.settled && r.released) = true
  · rw [if_pos hlive] at ht ⊢
    rcases hjob : s.engine.hot[entry.id]? with _ | job
    · rw [hjob] at ht
      exact absurd ht (by simp)
    rw [hjob] at ht
    simp only at ht ⊢
    by_cases hown : job.state = .executing ∧ job.execution = entry.execution ∧
        some job.revision = entry.execution
    · rw [if_pos hown] at ht ⊢
      simp only [Option.bind_eq_bind, Option.bind_eq_some_iff, toOption_eq_some] at ht
      obtain ⟨e, he, c, hc, ht⟩ := ht
      obtain rfl := Option.some.inj ht
      obtain ⟨-, hid, -⟩ := Outcome.event_eq_ok he
      have hlookup : Engine.ProjectionState.lookup s.engine e.jobId = some job := by
        rw [hid, h.hot_id hjob]
        exact Engine.lookup_of_hot hjob
      simp only [he, hc]
      exact finishRuntime_indexed ((h.change hlookup hc).putRelay pid entry _) pid
    · rw [if_neg hown] at ht ⊢
      obtain rfl := Option.some.inj ht
      exact h
  · rw [if_neg hlive] at ht ⊢
    obtain rfl := Option.some.inj ht
    exact h

theorem executionMessage_indexed {pid ticket : ℕ} {execution : Option ℕ} {m : RelayMessage} {w : Settling}
    (h : Indexed s v) (ht : executionMessage vm s pid ticket execution m w = some t) :
    Indexed t (v.executionMessage vm s pid ticket execution m w) := by
  unfold executionMessage at ht
  unfold Engine.Views.executionMessage
  rcases hentry : relayEntry s pid with _ | ⟨entry, r⟩
  · rw [hentry] at ht
    obtain rfl := Option.some.inj ht
    exact h
  rw [hentry] at ht
  simp only at ht ⊢
  by_cases hours : r.ticket = ticket ∧ (execution = entry.execution ∨ (execution = none ∧ r.released = false))
  · rw [if_pos hours] at ht ⊢
    rcases m with o | _
    · exact relayOutcome_indexed h ht
    · simp only [relayDead] at ht
      split at ht
      · exact absurd ht (by simp)
      · obtain rfl := Option.some.inj ht
        exact finishRuntime_indexed (h.putRelay pid entry _) pid
  · rw [if_neg hours] at ht ⊢
    obtain rfl := Option.some.inj ht
    exact h

theorem executorCompletion_indexed {server reservation : ℕ} {result : Completion} {w : Settling}
    (h : Indexed s v) (ht : executorCompletion vm s server reservation result w = some t) :
    Indexed t (v.executorCompletion vm s server reservation result w) := by
  unfold executorCompletion at ht
  unfold Engine.Views.executorCompletion
  by_cases hserver : s.executorServer = some server
  · rw [if_pos hserver] at ht ⊢
    rcases hentry : externalEntry s reservation with _ | ⟨entry, r, target⟩
    · rw [hentry] at ht
      obtain rfl := Option.some.inj ht
      exact h
    · rw [hentry] at ht
      exact settle_indexed h ht
  · rw [if_neg hserver] at ht ⊢
    obtain rfl := Option.some.inj ht
    exact h

theorem executorTimeout_indexed {reservation : ℕ} {execution : Option ℕ} {w : Settling}
    (h : Indexed s v) (ht : executorTimeout vm s reservation execution w = some t) :
    Indexed t (v.executorTimeout vm s reservation execution w) := by
  unfold executorTimeout at ht
  unfold Engine.Views.executorTimeout
  rcases hentry : externalEntry s reservation with _ | ⟨entry, r, server⟩
  · rw [hentry] at ht
    obtain rfl := Option.some.inj ht
    exact h
  rw [hentry] at ht
  simp only at ht ⊢
  by_cases hours : entry.execution = execution
  · rw [if_pos hours] at ht ⊢
    simp only [Option.bind_eq_bind, Option.bind_eq_some_iff] at ht
    obtain ⟨⟨l, answer⟩, hcall, ht⟩ := ht
    rw [hcall]
    exact settle_indexed (h.congr rfl rfl) ht
  · rw [if_neg hours] at ht ⊢
    obtain rfl := Option.some.inj ht
    exact h

/-! ## Commands -/

theorem cancelTask_indexed {id : JobId} {w : Settling} (h : Indexed s v)
    (ht : cancelTask vm s id w = some t) : Indexed t (v.cancelTask vm s id w) := by
  unfold cancelTask at ht
  unfold Engine.Views.cancelTask
  rcases hkey : s.executions[id]? with _ | pid | reservation
  · rw [hkey] at ht
    obtain rfl := Option.some.inj ht
    exact h
  · rw [hkey] at ht
    simp only at ht ⊢
    rcases hentry : s.running[Key.relay pid]? with _ | entry
    · rw [hentry] at ht
      exact absurd ht (by simp)
    · rw [hentry] at ht
      obtain rfl := Option.some.inj ht
      exact finishRuntime_indexed (h.putRelay pid entry _) pid
  · rw [hkey] at ht
    simp only at ht ⊢
    rcases hentry : externalEntry s reservation with _ | ⟨entry, r, server⟩
    · rw [hentry] at ht
      obtain rfl := Option.some.inj ht
      exact h
    · rw [hentry] at ht
      simp only [Option.bind_eq_bind, Option.bind_eq_some_iff] at ht ⊢
      obtain ⟨⟨l, answer⟩, hcall, ht⟩ := ht
      rw [hcall]
      exact settle_indexed (h.congr rfl rfl) ht

theorem command_indexed {c : Command} {writer : Engine.State → Engine.Environment} (h : Indexed s v)
    (ht : command vm s writer c = some t) : Indexed t (v.command vm s writer c) := by
  rcases c with ⟨e, mode⟩ | e | ⟨id, revision, timestamp, stopping, w⟩ | ⟨id, revision, timestamp, stopping⟩ |
    queue | queue
  · simp only [command, Engine.Views.command] at ht ⊢
    by_cases hready : s.mode = .ready
    · rw [if_pos hready] at ht ⊢
      unfold onCommit at ht
      rcases hperform : Engine.perform vm s.engine (.insert e mode) (writer s.engine) with reason | out
      · rw [hperform] at ht
        rcases reason <;> simp only [reduceCtorEq] at ht <;> obtain rfl := Option.some.inj ht <;> exact h
      · rw [hperform] at ht
        obtain rfl := Option.some.inj ht
        exact h.handle (by simp only [Engine.handle, hperform, map_ok])
    · rw [if_neg hready] at ht ⊢
      obtain rfl := Option.some.inj ht
      exact h
  · simp only [command, Engine.Views.command, onCommit] at ht ⊢
    rcases hperform : Engine.perform vm s.engine (.auxiliary e) (writer s.engine) with reason | out
    · rw [hperform] at ht
      rcases reason <;> simp only [reduceCtorEq] at ht <;> obtain rfl := Option.some.inj ht <;> exact h
    · rw [hperform] at ht
      obtain rfl := Option.some.inj ht
      exact h.handle (by simp only [Engine.handle, hperform, map_ok])
  · simp only [command, Engine.Views.command] at ht ⊢
    rcases hjob : mutable? s id revision stopping fun state ↦ !state.terminal with _ | job
    · rw [hjob] at ht
      obtain rfl := Option.some.inj ht
      exact h
    · rw [hjob] at ht
      simp only [onCommit] at ht ⊢
      obtain ⟨hlookup, -⟩ := mutable?_eq hjob
      rcases hc : Engine.commit vm s.engine (some job) ⟨id, job.revision, timestamp, .cancelled job.execution⟩
          none (writer s.engine) with reason | c
      · rw [hc] at ht
        rcases reason <;> simp only [reduceCtorEq] at ht <;> obtain rfl := Option.some.inj ht <;> exact h
      · rw [hc] at ht
        exact cancelTask_indexed
          (h.change (e := ⟨id, job.revision, timestamp, .cancelled job.execution⟩) hlookup hc) ht
  · simp only [command, Engine.Views.command] at ht ⊢
    rcases hjob : mutable? s id revision stopping fun state ↦ state == .retryable || state == .discarded with
      _ | job
    · rw [hjob] at ht
      obtain rfl := Option.some.inj ht
      exact h
    · rw [hjob] at ht
      simp only [onCommit] at ht ⊢
      obtain ⟨hlookup, -⟩ := mutable?_eq hjob
      rcases hc : Engine.commit vm s.engine (some job) ⟨id, job.revision, timestamp,
          .retried (if job.state = .discarded then 1 else 0) timestamp⟩ none (writer s.engine) with reason | c
      · rw [hc] at ht
        rcases reason <;> simp only [reduceCtorEq] at ht <;> obtain rfl := Option.some.inj ht <;> exact h
      · rw [hc] at ht
        obtain rfl := Option.some.inj ht
        exact h.change (e := ⟨id, job.revision, timestamp,
          .retried (if job.state = .discarded then 1 else 0) timestamp⟩) hlookup hc
  · obtain rfl := Option.some.inj ht
    refine h.congr ?_ ?_ <;> split <;> rfl
  · obtain rfl := Option.some.inj ht
    refine h.congr ?_ ?_ <;> split <;> rfl

theorem commands_indexed {cs : List (Command × (Engine.State → Engine.Environment))} (h : Indexed s v)
    (ht : commands vm s cs = some t) : Indexed t (v.commands vm s cs) := by
  induction cs generalizing s v with
  | nil =>
    obtain rfl := Option.some.inj ht
    exact h
  | cons head rest ih =>
    obtain ⟨next, hnext, hrest⟩ := Option.bind_eq_some_iff.mp ht
    rw [Engine.Views.commands, hnext]
    exact ih (command_indexed h hnext) hrest

/-! ## Runs -/

theorem completeDrains_indexed (h : Indexed s v) : Indexed (completeDrains s) v := by
  refine h.congr ?_ ?_ <;> unfold completeDrains <;> split <;> rfl

/-- **The step lemma.** Every message keeps the indexes exact. -/
theorem step_indexed {e : Event} (h : Indexed s v) (ht : step vm s e = some t) :
    Indexed t (v.follow vm s e) := by
  rcases e with cs | ⟨permit, caller⟩ | permit | ⟨token, policy, same⟩ | token | pid | w |
    ⟨reservation, execution, w⟩ | ⟨now, id, timestamp, writer⟩ | ⟨now, queue, c⟩ |
    ⟨pid, ticket, execution, m, w⟩ | a | u
  · obtain ⟨next, hnext, rfl⟩ := Option.map_eq_some_iff.mp ht
    exact completeDrains_indexed (commands_indexed h hnext)
  · simp only [step] at ht
    split at ht
    · exact absurd ht (by simp)
    · obtain rfl := Option.some.inj ht
      exact completeDrains_indexed (h.congr rfl rfl)
  · obtain rfl := Option.some.inj ht
    refine h.congr ?_ ?_ <;> split <;> rfl
  · simp only [step] at ht
    split at ht
    · obtain rfl := Option.some.inj ht
      exact h
    · obtain rfl := Option.some.inj ht
      exact completeDrains_indexed (h.congr rfl rfl)
  · obtain rfl := Option.some.inj ht
    refine h.congr ?_ ?_ <;> split <;> rfl
  · simp only [step] at ht
    split at ht
    · obtain rfl := Option.some.inj ht
      exact h.congr rfl rfl
    · exact absurd ht (by simp)
  · simp only [step] at ht
    simp only [Engine.Views.follow]
    rcases hcompletions : s.link.completions with _ | ⟨⟨server, reservation, result⟩, rest⟩
    · rw [hcompletions] at ht
      exact absurd ht (by simp)
    · rw [hcompletions] at ht
      exact executorCompletion_indexed (h.congr rfl rfl) ht
  · exact executorTimeout_indexed h ht
  · have hreleased : Indexed (releasePending s now) v := h.congr rfl rfl
    simp only [step] at ht
    simp only [Engine.Views.follow]
    by_cases hready : (releasePending s now).mode = .ready
    · rw [if_pos hready] at ht ⊢
      exact makeAvailable_indexed hreleased ht
    · rw [if_neg hready] at ht ⊢
      obtain rfl := Option.some.inj ht
      exact hreleased
  · simp only [step] at ht
    split at ht
    · exact absurd ht (by simp)
    · exact controlQueue_indexed (s := releasePending s now) (h.congr rfl rfl) ht
  · obtain ⟨next, hnext, rfl⟩ := Option.map_eq_some_iff.mp ht
    exact completeDrains_indexed (executionMessage_indexed h hnext)
  · simp only [step] at ht
    split at ht
    · obtain ⟨engine, hengine, rfl⟩ := Option.map_eq_some_iff.mp ht
      exact h.handle (toOption_eq_some.mp hengine)
    · exact absurd ht (by simp)
  · obtain ⟨l, -, rfl⟩ := Option.map_eq_some_iff.mp ht
    exact h.congr rfl rfl

theorem Indexed.start {d : Directory} {config : Config} {r : Reader.Recovered}
    {segment : SegmentView} {writer : Engine.State → Engine.Environment}
    {interruptions : List Engine.Interruption} (hheld : s.held = ∅)
    (hr : Reader.recover vm d (candidate config.candidateLimits config.valueLimits) = .ok r)
    (hs : Engine.reconcileBatch vm writer (Engine.countInterrupted (Engine.init config r segment))
      interruptions = .ok s.engine) :
    Indexed s ((Engine.Views.start s.registry s.queues r.candidate.jobs).reconcileBatch vm writer
      (Engine.countInterrupted (Engine.init config r segment)) interruptions) := by
  have hsound := Reader.recover_sound vm (sound_candidate _ _) hr
  obtain ⟨hplaced, hshows, hkept⟩ := (Engine.shows_start segment s.registry s.queues hsound).reconcile
    (Engine.placed_start segment hsound) hs
  exact ⟨hplaced, hshows, hkept.trans (hheld.symm ▸ Projection.held_load _ _)⟩

theorem reachable_indexed {x : State × Engine.Views} (hx : (indexed vm).Reachable x) : Indexed x.1 x.2 := by
  refine Machine.Reachable.invariant (I := fun y ↦ Indexed y.1 y.2) ?_ ?_ hx
  · rintro y ⟨hstarts, d, config, r, segment, writer, interruptions, hr, hreconciled, hviews⟩
    rw [hviews]
    exact Indexed.start hstarts.held hr hreconciled
  · rintro y e z hindexed hstep
    obtain ⟨t, ht, rfl⟩ := Option.map_eq_some_iff.mp hstep
    exact step_indexed hindexed ht

variable (vm) in
/-- The projection of a running engine: what `valid?` finds of it, now and after a start or a settlement,
and what it holds. -/
structure Valid (s : State) (v : Engine.Views) : Prop where
  valid : v.projection.valid = true
  jobs : v.projection.jobs = s.engine.hot
  held : v.projection.held = s.held
  started : ∀ (job : Job) (queue : Binary) (server : ℕ) (c : Claim) (t : State),
    s.engine.hot[job.id]? = some job → startExternal vm s job queue server c = some t →
      (v.startExternal vm s job queue server c).projection.valid = true
  settled : ∀ (key : Key) (entry : Entry) (reservation server : ℕ) (result : Result) (w : Settling) (t : State),
    settle vm s key entry reservation server result w = some t →
      (v.settle vm s entry result w).projection.valid = true

/-- **The indexes are exact in every state.** Loading a table of jobs builds them, and every message the
engine handles keeps them. -/
theorem projection_valid {x : State × Engine.Views} (hx : (indexed vm).Reachable x) {jobs : Table JobId Job}
    (hjobs : Keyed Job.id jobs) (registry queues : Finset Binary) :
    ((Projection.new registry queues).load jobs).valid = true ∧ Valid vm x.1 x.2 := by
  have h := reachable_indexed hx
  refine ⟨(Projection.represents_load hjobs registry queues).1.valid, h.shows.represents.valid, h.shows.jobs,
    h.held, fun job queue server c t hjob ht ↦ ?_, fun key entry reservation server result w t ht ↦ ?_⟩
  · exact (startExternal_indexed h hjob ht).shows.represents.valid
  · exact (settle_indexed h ht).shows.represents.valid

/-- A job that was started on an executor, and whose time there has run out. -/
theorem projection_valid_settled : ∃ x, (indexed Tay.Sample.runtime).Reachable x ∧ x.1.settled = [7] ∧
    ((Projection.new ∅ ∅).load x.1.engine.hot).valid = true ∧ Valid Tay.Sample.runtime x.1 x.2 := by
  have hrun : ((indexed Tay.Sample.runtime).run
      (Sample.start, Engine.Views.start ∅ Sample.start.queues Engine.Sample.recovered.candidate.jobs)
      (Sample.starting .persistent ++ [.executorTimeout 7 (some 2) Sample.settling])).any (fun x ↦
        decide (x.1.settled = [7])) = true := by
    decide +kernel
  obtain ⟨x, hx, hsettled⟩ := (Option.any_eq_true _ _).mp hrun
  have hstart : (indexed Tay.Sample.runtime).initial
      (Sample.start, Engine.Views.start ∅ Sample.start.queues Engine.Sample.recovered.candidate.jobs) :=
    ⟨Sample.starts, ⟨Tay.Sample.manifest 0, [⟨1, 1, [], false⟩]⟩, Engine.Sample.config,
      Engine.Sample.recovered, Engine.Sample.segment, Engine.Sample.writer, [], by decide +kernel, rfl, rfl⟩
  have hreachable := Machine.reachable_of_run hstart hx
  obtain ⟨hload, hvalid⟩ := projection_valid hreachable (reachable_indexed hreachable).placed.hotKeyed ∅ ∅
  exact ⟨x, hreachable, of_decide_eq_true hsettled, hload, hvalid⟩

end Execution

end Tay
