import Tay.Execution.Bookkeeping

/-!
# Every handler keeps the books

One lemma for each handler of the engine, and from them the invariant of every run. The one handler
that does not keep the holds exact is the cancellation of a persistent job that runs outside: it
commits before it settles, the commit moves the job to the terminal store, and the settlement looks
for it among the hot jobs only.
-/

open Foundation

namespace Tay.Execution

open V2 Transition Executor

variable {s t : State} (vm : Runtime)

/-! ## Settlements -/

/-- Both commits of a settlement are on the one job. -/
theorem settleJob_keeps {e e' : Engine.State} {job : Job} {result : Result} {w : Settling}
    (he : Engine.Counted e) (hjob : e.hot[job.id]? = some job)
    (h : settleJob vm e job result w = some e') :
    Engine.Counted e' ∧ Engine.KeepsActive e e' (some job.id) := by
  simp only [settleJob, Option.bind_eq_bind, Option.bind_eq_some_iff, toOption_eq_some] at h
  obtain ⟨finish, hfinish, c, hc, h⟩ := h
  obtain ⟨-, hid, -⟩ := Outcome.event_eq_ok hfinish
  have hlookup : Engine.ProjectionState.lookup e finish.jobId = some job := by
    rw [hid]
    exact Engine.lookup_of_hot hjob
  have hspec := Engine.commit_hot vm he hlookup hc
  rw [← hid]
  split at h
  · obtain ⟨r, hr, h⟩ := Option.bind_eq_some_iff.mp h
    cases h
    obtain ⟨hcounted, hkeeps⟩ := Engine.auxiliary_hot vm hspec.counted (toOption_eq_some.mp hr)
    refine ⟨hcounted, ?_⟩
    intro id j hj hactive hne
    exact hkeeps id j (hspec.others id j hj hactive hne) hactive (by simp)
  · cases h
    exact ⟨hspec.counted, hspec.others⟩

theorem settleEngine_keeps {entry : Entry} {result : Result} {w : Settling} {e : Engine.State}
    (hs : Engine.Counted s.engine) (h : settleEngine vm s entry result w = some e) :
    Engine.Counted e ∧ Engine.KeepsActive s.engine e (some entry.id) := by
  unfold settleEngine at h
  split at h
  · cases h
    exact ⟨hs, Engine.KeepsActive.refl _ _⟩
  · cases h
    exact ⟨hs, Engine.KeepsActive.refl _ _⟩
  case h_3 job _ hjob =>
    have hid : job.id = entry.id := hs.keyed _ _ hjob
    split at h
    · rw [← hid]
      exact settleJob_keeps vm hs (hid ▸ hjob) h
    · cases h
      exact ⟨hs, Engine.KeepsActive.refl _ _⟩

/-- Everything a settlement does. -/
theorem settle_spec {key : Key} {entry : Entry} {reservation server : ℕ} {result : Result}
    {w : Settling} (h : settle vm s key entry reservation server result w = some t) :
    ∃ engine l answer, settleEngine vm s entry result w = some engine ∧
      s.link.call server (.release reservation) w.releasing = some (l, answer) ∧
      t = { s with
        engine := engine
        link := l
        running := s.running.erase key
        executions := s.executions.erase entry.id
        slots := s.slots.modify entry.queue fun n ↦ max (n - 1) 0
        held := match s.engine.hot[entry.id]? with
          | some job => s.held.erase job.id
          | none => s.held
        settled := s.settled ++ [reservation] } := by
  simp only [settle, Option.bind_eq_bind, Option.bind_eq_some_iff] at h
  obtain ⟨engine, hengine, ⟨l, answer⟩, hcall, h⟩ := h
  cases h
  exact ⟨engine, l, answer, hengine, hcall, rfl⟩

/-- A settlement keeps the books; the hold is given back if the job is found. -/
theorem settle_keeps {key : Key} {entry : Entry} {reservation server : ℕ} {result : Result}
    {w : Settling} (hb : Books s) (hentry : s.running[key]? = some entry)
    (h : settle vm s key entry reservation server result w = some t) :
    Books t ∧ ((s.engine.hot[entry.id]?).isSome → ExactBut (some key) s → Exact t) := by
  obtain ⟨engine, l, answer, hengine, hcall, rfl⟩ := settle_spec vm h
  obtain ⟨hcounted, hkeeps⟩ := settleEngine_keeps vm hb.counted hengine
  have hissued := Link.issued_call hcall
  have hown : ∀ job : Job, s.engine.hot[entry.id]? = some job → job.id = entry.id :=
    fun job hjob ↦ hb.counted.keyed _ _ hjob
  constructor
  · refine hb.vacate hentry hcounted ?_ rfl rfl rfl rfl ?_ hissued
    · intro n hn
      omega
    · intro id hid hne
      split
      case h_1 job hjob => exact Finset.mem_erase.mpr ⟨hown job hjob ▸ hne, hid⟩
      case h_2 => exact hid
  · intro hhot hexact
    obtain ⟨job, hjob⟩ := Option.isSome_iff_exists.mp hhot
    have hstore : ExactBut (some key) { s with engine := engine } := by
      refine hexact.store hkeeps fun r e he hne heq ↦ hne ?_
      exact congrArg some (hb.unique he hentry (Option.some.inj heq))
    refine hstore.vacate rfl rfl rfl ?_
    simp only [hjob, hown job hjob]

/-! ## Handlers -/

/-- A handler keeps the books, and keeps them exact. -/
def Keeps (s t : State) : Prop := Books s → Books t ∧ (Exact s → Exact t)

theorem Keeps.refl (s : State) : Keeps s s := fun hb ↦ ⟨hb, id⟩

theorem Keeps.trans {u : State} (h : Keeps s t) (h' : Keeps t u) : Keeps s u := by
  intro hb
  obtain ⟨hbt, hexact⟩ := h hb
  obtain ⟨hbu, hexact'⟩ := h' hbt
  exact ⟨hbu, fun he ↦ hexact' (hexact he)⟩

/-- Changes outside the books. -/
theorem Keeps.congr (hengine : t.engine = s.engine) (hrunning : t.running = s.running)
    (hexecutions : t.executions = s.executions) (hslots : t.slots = s.slots)
    (hlimits : t.queueLimits = s.queueLimits) (hheld : t.held = s.held)
    (hissued : s.link.issued ⊆ t.link.issued) : Keeps s t := by
  intro hb
  refine ⟨hb.congr (hengine ▸ hb.counted) hrunning hexecutions hslots hlimits hheld hissued, ?_⟩
  exact fun he ↦ ExactBut.congr he hengine hrunning hexecutions hheld

theorem Keeps.link {l : Link} (h : s.link.issued ⊆ l.issued) : Keeps s { s with link := l } :=
  Keeps.congr rfl rfl rfl rfl rfl rfl h

/-- Changes of entries that leave what they are indexed by. -/
theorem Keeps.relabel (hengine : t.engine = s.engine)
    (hrunning : ∀ key : Key,
      (t.running[key]?).map Entry.shape = (s.running[key]?).map Entry.shape)
    (hexecutions : t.executions = s.executions) (hslots : t.slots = s.slots)
    (hlimits : t.queueLimits = s.queueLimits) (hheld : t.held = s.held)
    (hissued : s.link.issued ⊆ t.link.issued) : Keeps s t := by
  intro hb
  refine ⟨hb.relabel (hengine ▸ hb.counted) hrunning hexecutions hslots hlimits hheld hissued, ?_⟩
  exact fun he ↦ ExactBut.relabel he hengine hrunning hexecutions hheld

/-- A change of the store that moves no job which runs outside. -/
theorem Keeps.store {touched : Option JobId} {engine : Engine.State}
    (hcounted : Engine.Counted s.engine → Engine.Counted engine)
    (hkeeps : Engine.Counted s.engine → Engine.KeepsActive s.engine engine touched)
    (htouched : Books s → Exact s → ∀ (r : ℕ) (entry : Entry),
      s.running[Key.executor r]? = some entry → some entry.id ≠ touched) :
    Keeps s { s with engine := engine } := by
  intro hb
  refine ⟨hb.congr (hcounted hb.counted) rfl rfl rfl rfl rfl Finset.Subset.rfl, fun he ↦ ?_⟩
  exact ExactBut.store he (hkeeps hb.counted) fun r entry hentry _ ↦ htouched hb he r entry hentry

/-- A commit on a job that does not run outside. -/
theorem change_keeps {e : JobEvent} {p : Job} {env : Engine.Environment} {c : Engine.Committed}
    (hlookup : Engine.ProjectionState.lookup s.engine e.jobId = some p)
    (hc : Engine.commit vm s.engine (some p) e none env = .ok c)
    (hnot : Books s → Exact s → ∀ (r : ℕ) (entry : Entry),
      s.running[Key.executor r]? = some entry → entry.id ≠ e.jobId) :
    Keeps s { s with engine := c.state } := by
  intro hb
  have hspec := Engine.commit_hot vm hb.counted hlookup hc
  refine Keeps.store (fun _ ↦ hspec.counted) (fun _ ↦ hspec.others) ?_ hb
  intro hb he r entry hentry heq
  exact hnot hb he r entry hentry (Option.some.inj heq)

theorem onCommit_cases {α : Type} {x : Except Reason α} {ok : α → Option State}
    {refused : Option State} (h : onCommit x ok refused = some t) :
    (∃ a, x = .ok a ∧ ok a = some t) ∨ refused = some t := by
  unfold onCommit at h
  split at h
  case h_1 a => exact .inl ⟨a, rfl, h⟩
  case h_2 => cases h
  case h_3 => exact .inr h

theorem completeDrains_keeps (s : State) : Keeps s (completeDrains s) := by
  unfold completeDrains
  split
  · exact Keeps.congr rfl rfl rfl rfl rfl rfl Finset.Subset.rfl
  · exact Keeps.refl s

theorem shape_mapRelay (entry : Entry) (f : Relay → Relay) :
    (entry.mapRelay f).shape = entry.shape := by
  unfold Entry.mapRelay
  split
  case h_1 r hr => simp [Entry.shape, hr]
  case h_2 => rfl

theorem releasePending_keeps (s : State) (now : ℕ) : Keeps s (releasePending s now) := by
  refine Keeps.relabel rfl ?_ rfl rfl rfl rfl Finset.Subset.rfl
  intro key
  simp only [releasePending, Std.ExtTreeMap.getElem?_map, Option.map_map]
  congr 1
  funext entry
  simp only [Function.comp_apply]
  split
  · exact shape_mapRelay entry _
  · rfl

theorem putRelay_keeps {pid : ℕ} {entry : Entry} {f : Relay → Relay}
    (hentry : s.running[Key.relay pid]? = some entry) : Keeps s (putRelay s pid entry f) := by
  refine Keeps.relabel rfl ?_ rfl rfl rfl rfl Finset.Subset.rfl
  intro key
  simp only [putRelay, Table.get_insert]
  split
  case isTrue hkey => rw [← hkey, hentry, Option.map_some, Option.map_some, shape_mapRelay]
  case isFalse => rfl

theorem finishRuntime_keeps (s : State) (pid : ℕ) : Keeps s (finishRuntime s pid) := by
  unfold finishRuntime
  split
  case h_1 => exact Keeps.refl s
  case h_2 entry hentry =>
    split
    case h_2 => exact Keeps.refl s
    case h_1 r hr =>
      split
      case isFalse => exact Keeps.refl s
      case isTrue =>
        intro hb
        have hid : ((s.engine.hot[entry.id]?).map Job.id).getD entry.id = entry.id := by
          rcases hjob : s.engine.hot[entry.id]? with _ | job
          · rfl
          · exact hb.counted.keyed _ _ hjob
        rw [hid]
        constructor
        · refine hb.vacate hentry hb.counted (fun n _ ↦ rfl) rfl rfl rfl rfl ?_ Finset.Subset.rfl
          intro id hin hne
          exact Finset.mem_erase.mpr ⟨hne, hin⟩
        · intro he
          exact (he.but _).vacate rfl rfl rfl rfl

/-! ## Claims -/

theorem nextReady_hot {queue : Binary} {tasks : List Binary} {now : ℕ} {job : Job}
    (h : nextReady s queue tasks now = some job) : ∃ id : JobId, s.engine.hot[id]? = some job := by
  have hmem := List.mem_of_mem_head? h
  rw [mem_sortBy, List.mem_flatMap] at hmem
  obtain ⟨task, -, hmem⟩ := hmem
  obtain ⟨id, -, hid⟩ := List.mem_filterMap.mp hmem
  exact ⟨id, hid⟩

/-- What `claim` knows of the job and the queue it starts. -/
structure Claims (s : State) (job : Job) (queue : Binary) : Prop where
  hot : ∃ id : JobId, s.engine.hot[id]? = some job
  unheld : job.id ∉ s.held
  room : ∃ (used : ℤ) (limit : ℕ), s.slots[queue]? = some used ∧
    s.queueLimits[queue]? = some limit ∧ used < limit

/-- The job of a claim is hot under its own id. -/
theorem Claims.lookup {job : Job} {queue : Binary} (h : Claims s job queue) (hb : Books s)
    (timestamp : ℕ) :
    Engine.ProjectionState.lookup s.engine (startedEvent job timestamp).jobId = some job := by
  obtain ⟨id, hjob⟩ := h.hot
  have hid : job.id = id := hb.counted.keyed _ _ hjob
  rw [← hid] at hjob
  exact Engine.lookup_of_hot hjob

/-- The start has left the job hot and executing. -/
theorem started_live {e : Engine.State} {job : Job} {timestamp : ℕ} {c : Engine.Committed}
    (h : Engine.HotSpec e (startedEvent job timestamp) c) :
    ∃ j, c.state.hot[job.id]? = some j ∧ j.state = .executing := by
  have hrunning : c.job.state = .executing := by
    have hstarts := h.running
    simpa [Engine.running, Engine.starts, startedEvent] using hstarts
  rcases h.own with hown | ⟨-, hterminal⟩
  · exact ⟨c.job, hown, hrunning⟩
  · rw [hrunning] at hterminal
    cases hterminal

/-- The entry goes in whatever becomes of the start. -/
theorem waiting_keeps {job : Job} {queue : Binary} {c : Claim} (h : Claims s job queue)
    (hfresh : s.running[Key.relay c.relay]? = none) : Keeps s (waitingState s job queue c) := by
  intro hb
  obtain ⟨used, limit, hused, hlimit, hroom⟩ := h.room
  have hbooks : Books (s.occupy (.relay c.relay) (c.entry job queue none)) :=
    hb.occupy hfresh h.unheld rfl hused hlimit hroom fun r heq ↦ by cases heq
  refine ⟨hbooks.congr hb.counted rfl rfl rfl rfl rfl Finset.Subset.rfl, fun he ↦ ?_⟩
  exact ExactBut.congr (ExactBut.occupy he fun r heq ↦ by cases heq) rfl rfl rfl rfl

theorem waiting_entry (s : State) (job : Job) (queue : Binary) (c : Claim) :
    (waitingState s job queue c).running[Key.relay c.relay]? = some (c.entry job queue none) :=
  Std.ExtTreeMap.getElem?_insert_self

theorem startWaiting_keeps {job : Job} {queue : Binary} {c : Claim} (h : Claims s job queue)
    (hfresh : s.running[Key.relay c.relay]? = none)
    (ht : startWaiting vm s job queue c = some t) : Keeps s t := by
  have hwaiting := waiting_keeps (c := c) h hfresh
  have hentry := waiting_entry s job queue c
  have habandoned : Keeps s (abandonWaiting (waitingState s job queue c) c.relay
      (c.entry job queue none)) := hwaiting.trans (putRelay_keeps hentry)
  unfold startWaiting at ht
  split at ht
  case isFalse =>
    cases ht
    exact habandoned
  case isTrue =>
    rcases onCommit_cases ht with ⟨committed, hc, ht⟩ | ht
    · cases ht
      intro hb
      have hlookup := h.lookup hb c.startedAt
      have hcommit := change_keeps vm (s := waitingState s job queue c) hlookup hc ?_
      · refine (hwaiting.trans hcommit).trans (Keeps.trans ?_ (releasePending_keeps _ _)) hb
        refine Keeps.relabel rfl ?_ rfl rfl rfl rfl Finset.Subset.rfl
        intro key
        simp only [Table.get_insert]
        split
        case isTrue hkey =>
          subst hkey
          rw [hentry]
          rfl
        case isFalse => rfl
      · -- the job runs under this relay, so nothing outside runs it
        intro hbooks _ r entry hr hid
        exact absurd (hbooks.unique hr hentry hid) (by simp)
    · cases ht
      exact habandoned

theorem startExternal_keeps {job : Job} {queue : Binary} {server : ℕ} {c : Claim}
    (h : Claims s job queue) (hfresh : s.running[Key.executor c.reservation]? = none)
    (hissued : c.reservation ∈ s.link.issued)
    (ht : startExternal vm s job queue server c = some t) : Keeps s t := by
  intro hb
  obtain ⟨used, limit, hused, hlimit, hroom⟩ := h.room
  rcases onCommit_cases ht with ⟨committed, hc, ht⟩ | ht
  · have hspec := Engine.commit_hot vm hb.counted (h.lookup hb c.timestamp) hc
    have hstore := change_keeps vm (h.lookup hb c.timestamp) hc fun hb _ r entry hentry hid ↦ by
      have hheld := hb.held hentry
      rw [hid] at hheld
      exact h.unheld hheld
    simp only [Option.bind_eq_bind, Option.bind_eq_some_iff] at ht
    obtain ⟨⟨l, answer⟩, hcall, ht⟩ := ht
    have hentry : Keeps { s with engine := committed.state }
        ({ s with engine := committed.state }.occupy (.executor c.reservation)
          ⟨job.id, queue, committed.job.execution, .external c.reservation server⟩) := by
      intro hb'
      refine ⟨hb'.occupy hfresh h.unheld ⟨server, rfl⟩ hused hlimit hroom ?_, fun he ↦ ?_⟩
      · intro r heq
        cases heq
        exact hissued
      · exact ExactBut.occupy he fun r _ ↦ started_live hspec
    have hcalled := (hstore.trans hentry).trans (Keeps.link (Link.issued_call hcall))
    split at ht
    · cases ht
      exact hcalled hb
    · -- the dispatch failed, and the new entry is settled at once
      obtain ⟨hbooks, hexact⟩ := hcalled hb
      have hget : (({ s with engine := committed.state }.occupy (.executor c.reservation)
          ⟨job.id, queue, committed.job.execution, .external c.reservation server⟩).running)[
            Key.executor c.reservation]? =
          some ⟨job.id, queue, committed.job.execution, .external c.reservation server⟩ :=
        Std.ExtTreeMap.getElem?_insert_self
      obtain ⟨hbooks', hexact'⟩ := settle_keeps vm hbooks hget ht
      refine ⟨hbooks', fun he ↦ hexact' ?_ ((hexact he).but _)⟩
      obtain ⟨j, hj, -⟩ := started_live hspec
      exact Option.isSome_of_eq_some hj
  · simp only [Option.bind_eq_bind, Option.bind_eq_some_iff] at ht
    obtain ⟨⟨l, answer⟩, hcall, ht⟩ := ht
    cases ht
    exact Keeps.link (Link.issued_call hcall) hb

/-- What `select` does to the link: nothing, or one call. -/
theorem select_cases {job : Job} {c : Claim} {l : Link} {selection : Selection}
    (h : select s job c = some (l, selection)) :
    (l = s.link ∧ ∀ server, selection ≠ .external server) ∨
      ∃ server answer, s.executorServer = some server ∧
        s.link.call server (.reserve job.definition.workerKey (some job.definition.queueKey)
          c.reservation) c.reserving = some (l, answer) ∧
        selection = if answer = some (.ok ()) then .external server else .unavailable := by
  simp only [select] at h
  split at h
  · cases h
    exact .inl ⟨rfl, by simp⟩
  · split at h
    · cases h
      exact .inl ⟨rfl, by simp⟩
    · split at h
      · cases h
        exact .inl ⟨rfl, by simp⟩
      case h_2 server hserver =>
        simp only [Option.bind_eq_bind, Option.bind_eq_some_iff] at h
        obtain ⟨⟨l', answer⟩, hcall, h⟩ := h
        refine .inr ⟨server, answer, hserver, ?_⟩
        split at h
        case h_1 hanswer =>
          cases h
          exact ⟨hcall, by simp_all⟩
        case h_2 hanswer =>
          cases h
          refine ⟨hcall, ?_⟩
          rw [if_neg fun heq ↦ hanswer (by simpa using heq)]

theorem claimable_unheld {job : Job} {timestamp : ℕ} (h : claimable vm s job timestamp = true) :
    job.id ∉ s.held := by
  simp only [claimable, Bool.and_eq_true, decide_eq_true_eq] at h
  exact h.1

theorem claim_keeps {job : Job} {queue : Binary} {c : Claim} {used : ℤ} {limit : ℕ}
    (hhot : ∃ id : JobId, s.engine.hot[id]? = some job) (hused : s.slots[queue]? = some used)
    (hlimit : s.queueLimits[queue]? = some limit) (hroom : used < limit)
    (hfresh : s.running[Key.relay c.relay]? = none) (ht : claim vm s job queue c = some t) :
    Keeps s t := by
  intro hb
  simp only [claim, Option.bind_eq_bind, Option.bind_eq_some_iff] at ht
  obtain ⟨⟨l, selection⟩, hselect, ht⟩ := ht
  have hcases := select_cases hselect
  have hissued : s.link.issued ⊆ l.issued := by
    rcases hcases with ⟨rfl, -⟩ | ⟨server, answer, -, hcall, -⟩
    · exact Finset.Subset.rfl
    · exact Link.issued_call hcall
  have hlink : Keeps s { s with link := l } := Keeps.link hissued
  have hclaims : claimable vm { s with link := l } job c.timestamp = true →
      Claims { s with link := l } job queue := fun hclaimable ↦
    ⟨hhot, claimable_unheld vm hclaimable, used, limit, hused, hlimit, hroom⟩
  split at ht
  · cases ht
    exact hlink hb
  · split at ht
    case isTrue hclaimable =>
      exact hlink.trans (startWaiting_keeps vm (hclaims hclaimable) hfresh ht) hb
    case isFalse =>
      cases ht
      exact hlink hb
  case h_3 server hexternal =>
    subst hexternal
    split at ht
    case isFalse =>
      cases ht
      exact hlink hb
    case isTrue hclaimable =>
      rcases hcases with ⟨-, hno⟩ | ⟨server', answer, -, hcall, hselection⟩
      · exact absurd rfl (hno server)
      · split at hselection
        case isFalse => cases hselection
        case isTrue hanswer =>
          subst hanswer
          obtain ⟨hnew, hdrawn⟩ := Link.reserve_fresh hcall
          -- the identifier is new, so no entry can have it as its key
          have hkey : s.running[Key.executor c.reservation]? = none := by
            by_contra hsome
            obtain ⟨entry, hentry⟩ := Option.ne_none_iff_exists'.mp hsome
            exact hnew (hb.drawn _ entry hentry)
          exact hlink.trans (startExternal_keeps vm (hclaims hclaimable) hkey hdrawn ht) hb

theorem controlQueue_keeps {queue : Binary} {c : Claim}
    (hfresh : s.running[Key.relay c.relay]? = none)
    (ht : controlQueue vm s queue c = some t) : Keeps s t := by
  unfold controlQueue at ht
  split at ht
  case h_1 used limit hused hlimit =>
    split at ht
    case isTrue hready =>
      split at ht
      case h_1 job hjob =>
        exact claim_keeps vm (nextReady_hot hjob) hused hlimit hready.2.2 hfresh ht
      case h_2 =>
        cases ht
        exact Keeps.refl s
    case isFalse =>
      cases ht
      exact Keeps.refl s
  case h_2 =>
    cases ht
    exact Keeps.refl s

/-- A job in a state no execution has is not one that runs outside. -/
theorem Exact.not_external (he : Exact s) {id : JobId} {job : Job}
    (hjob : s.engine.hot[id]? = some job) (hstate : job.state ≠ .executing) {r : ℕ} {entry : Entry}
    (hentry : s.running[Key.executor r]? = some entry) : entry.id ≠ id := by
  intro heq
  obtain ⟨j, hj, hexecuting⟩ := he.live r entry hentry (by simp)
  rw [heq, hjob] at hj
  cases hj
  exact hstate hexecuting

theorem makeAvailable_keeps {id : JobId} {timestamp : ℕ}
    {writer : Engine.State → Engine.Environment}
    (ht : makeAvailable vm s id timestamp writer = some t) : Keeps s t := by
  unfold makeAvailable at ht
  split at ht
  case h_1 => cases ht
  case h_2 job hjob =>
    split at ht
    case isFalse =>
      cases ht
      exact Keeps.refl s
    case isTrue hstate =>
      split at ht
      case h_1 =>
        cases ht
        exact Keeps.refl s
      case h_2 due _ =>
        split at ht
        case isFalse =>
          cases ht
          exact Keeps.refl s
        case isTrue =>
          rcases onCommit_cases ht with ⟨c, hc, ht⟩ | ht
          · cases ht
            refine change_keeps vm (Engine.lookup_of_hot hjob) hc ?_
            intro _ he r entry hentry
            refine he.not_external hjob ?_ hentry
            rcases hstate with hstate | hstate <;> rw [hstate] <;> decide
          · cases ht
            exact Keeps.refl s

/-! ## Messages of relays and executors -/

theorem relayEntry_eq {pid : ℕ} {entry : Entry} {r : Relay}
    (h : relayEntry s pid = some (entry, r)) : s.running[Key.relay pid]? = some entry := by
  obtain ⟨e, he, h⟩ := Option.bind_eq_some_iff.mp h
  split at h <;> cases h
  exact he

theorem externalEntry_eq {reservation r server : ℕ} {entry : Entry}
    (h : externalEntry s reservation = some (entry, r, server)) :
    s.running[Key.executor reservation]? = some entry ∧ entry.kind = .external r server := by
  obtain ⟨e, he, h⟩ := Option.bind_eq_some_iff.mp h
  split at h
  · cases h
  case h_2 hkind =>
    cases h
    exact ⟨he, hkind⟩

theorem executionMessage_keeps {pid ticket : ℕ} {execution : Option ℕ} {m : RelayMessage}
    {w : Settling} (ht : executionMessage vm s pid ticket execution m w = some t) : Keeps s t := by
  unfold executionMessage at ht
  split at ht
  case h_1 =>
    cases ht
    exact Keeps.refl s
  case h_2 entry r hentry =>
    have hrunning := relayEntry_eq hentry
    split at ht
    case isFalse =>
      cases ht
      exact Keeps.refl s
    case isTrue =>
      split at ht
      · -- an outcome: one commit on a job that runs under this relay
        unfold relayOutcome at ht
        split at ht
        case isFalse =>
          cases ht
          exact Keeps.refl s
        case isTrue =>
          split at ht
          case h_1 => cases ht
          case h_2 job hjob =>
            split at ht
            case isFalse =>
              cases ht
              exact Keeps.refl s
            case isTrue =>
              simp only [Option.bind_eq_bind, Option.bind_eq_some_iff, toOption_eq_some] at ht
              obtain ⟨e, he, c, hc, ht⟩ := ht
              cases ht
              obtain ⟨-, hid, -⟩ := Outcome.event_eq_ok he
              intro hb
              have hown : job.id = entry.id := hb.counted.keyed _ _ hjob
              have hlookup : Engine.ProjectionState.lookup s.engine e.jobId = some job := by
                rw [hid, hown]
                exact Engine.lookup_of_hot hjob
              refine (((change_keeps vm hlookup hc ?_).trans (putRelay_keeps hrunning)).trans
                (finishRuntime_keeps _ pid)) hb
              intro hb _ reservation other hother heq
              exact absurd (hb.unique hother hrunning (heq.trans (hid.trans hown))) (by simp)
      · unfold relayDead at ht
        split at ht
        · cases ht
        · cases ht
          exact (putRelay_keeps hrunning).trans (finishRuntime_keeps _ pid)

/-- The settlement of an execution that still runs. -/
theorem settleLive_keeps {reservation r server : ℕ} {entry : Entry} {result : Result} {w : Settling}
    (hentry : externalEntry s reservation = some (entry, r, server))
    (ht : settle vm s (.executor reservation) entry r server result w = some t) : Keeps s t := by
  intro hb
  obtain ⟨hrunning, -⟩ := externalEntry_eq hentry
  obtain ⟨hbooks, hexact⟩ := settle_keeps vm hb hrunning ht
  refine ⟨hbooks, fun he ↦ hexact ?_ (he.but _)⟩
  obtain ⟨job, hjob, -⟩ := he.live _ entry hrunning (by simp)
  exact Option.isSome_of_eq_some hjob

theorem executorCompletion_keeps {server reservation : ℕ} {result : Completion} {w : Settling}
    (ht : executorCompletion vm s server reservation result w = some t) : Keeps s t := by
  unfold executorCompletion at ht
  split at ht
  case isTrue =>
    split at ht
    case h_1 hentry => exact settleLive_keeps vm hentry ht
    case h_2 =>
      cases ht
      exact Keeps.refl s
  case isFalse =>
    cases ht
    exact Keeps.refl s

theorem executorTimeout_keeps {reservation : ℕ} {execution : Option ℕ} {w : Settling}
    (ht : executorTimeout vm s reservation execution w = some t) : Keeps s t := by
  unfold executorTimeout at ht
  split at ht
  case h_1 entry r server hentry =>
    split at ht
    case isTrue =>
      simp only [Option.bind_eq_bind, Option.bind_eq_some_iff] at ht
      obtain ⟨⟨l, answer⟩, hcall, ht⟩ := ht
      exact (Keeps.link (Link.issued_call hcall)).trans
        (settleLive_keeps vm (s := { s with link := l }) hentry ht)
    case isFalse =>
      cases ht
      exact Keeps.refl s
  case h_2 =>
    cases ht
    exact Keeps.refl s

/-! ## Commands -/

/-- A cancellation of a persistent job that runs outside: the commit moves the job to the terminal
store, and the settlement that follows does not find it. -/
def Command.leaks (s : State) : Command → Bool
  | .cancel id .. =>
    (s.executions[id]?).any (fun key ↦ match key with | .executor _ => true | .relay _ => false) &&
      decide (id ∉ s.engine.volatileIds)
  | _ => false

theorem mutable?_eq {id : JobId} {revision : ℕ} {stopping : Bool} {allowed : JobState → Bool}
    {job : Job} (h : mutable? s id revision stopping allowed = some job) :
    Engine.ProjectionState.lookup s.engine id = some job ∧ allowed job.state = true := by
  unfold mutable? at h
  split at h
  · cases h
  · obtain ⟨hlookup, hp⟩ := Option.filter_eq_some_iff.mp h
    simp only [Bool.and_eq_true] at hp
    exact ⟨hlookup, hp.2⟩

/-- The end of an execution whose job has just been cancelled. -/
theorem cancelTask_keeps {id : JobId} {w : Settling} {e : JobEvent} {c : Engine.Committed}
    {job : Job} {env : Engine.Environment} (hid : e.jobId = id)
    (hlookup : Engine.ProjectionState.lookup s.engine id = some job)
    (hc : Engine.commit vm s.engine (some job) e none env = .ok c)
    (ht : cancelTask vm { s with engine := c.state } id w = some t) (hb : Books s) :
    Books t ∧ ((∀ r, s.executions[id]? = some (.executor r) → id ∈ s.engine.volatileIds) →
      Exact s → Exact t) := by
  subst hid
  have hspec := Engine.commit_hot vm hb.counted hlookup hc
  unfold cancelTask at ht
  split at ht
  case h_1 hnone =>
    cases ht
    have hkeeps := change_keeps vm hlookup hc fun hb _ r entry hentry heq ↦ by
      rw [← heq, (hb.inverse entry.id _).mpr ⟨entry, hentry, rfl⟩] at hnone
      cases hnone
    exact ⟨(hkeeps hb).1, fun _ ↦ (hkeeps hb).2⟩
  case h_2 reservation hkey =>
    have hbooks : Books { s with engine := c.state } :=
      hb.congr hspec.counted rfl rfl rfl rfl rfl Finset.Subset.rfl
    obtain ⟨entry, hentry, hid⟩ := (hb.inverse e.jobId _).mp hkey
    obtain ⟨server, hserver⟩ := hb.kinds _ entry hentry
    have hexternal : externalEntry { s with engine := c.state } reservation =
        some (entry, reservation, server) := by
      simp only [Entry.shape] at hserver
      simp only [externalEntry, hentry, Option.bind_some]
      split at hserver <;> cases hserver
      case h_2 hkind => simp [hkind]
    rw [hexternal] at ht
    simp only [Option.bind_eq_bind, Option.bind_eq_some_iff] at ht
    obtain ⟨⟨l, answer⟩, hcall, ht⟩ := ht
    have hlinked : Books { s with engine := c.state, link := l } :=
      hbooks.congr hbooks.counted rfl rfl rfl rfl rfl (Link.issued_call hcall)
    obtain ⟨hbooks', hexact⟩ := settle_keeps vm hlinked hentry ht
    refine ⟨hbooks', fun hvolatile he ↦ hexact ?_ ?_⟩
    · rcases hspec.own with hown | ⟨hpersistent, -⟩
      · rw [hid]
        exact Option.isSome_of_eq_some hown
      · exact absurd (hvolatile reservation hkey) hpersistent
    · refine ExactBut.congr (ExactBut.store (he.but (some (.executor reservation))) hspec.others ?_)
        rfl rfl rfl rfl
      intro r other hother hne heq
      refine hne (congrArg some (hb.unique hother hentry ?_))
      rw [hid]
      exact Option.some.inj heq
  case h_3 pid hkey =>
    split at ht
    · cases ht
    case h_2 entry hentry =>
      cases ht
      obtain ⟨found, hfound, hid⟩ := (hb.inverse e.jobId _).mp hkey
      have hsame : found = entry := by
        rw [show s.running[Key.relay pid]? = some entry from hentry] at hfound
        exact (Option.some.inj hfound).symm
      subst hsame
      have hkeeps := ((change_keeps vm hlookup hc fun hb _ r other hother heq ↦ ?_).trans
        (putRelay_keeps (f := ({ · with settled := true })) hentry)).trans
          (finishRuntime_keeps _ pid)
      · exact ⟨(hkeeps hb).1, fun _ ↦ (hkeeps hb).2⟩
      · exact absurd (hb.unique hother hentry (heq.trans hid.symm)) (by simp)

theorem command_keeps {command : Command} {writer : Engine.State → Engine.Environment}
    (ht : Execution.command vm s writer command = some t) (hb : Books s) :
    Books t ∧ (command.leaks s = false → Exact s → Exact t) := by
  have hkept : Keeps s t → Books t ∧ (command.leaks s = false → Exact s → Exact t) :=
    fun h ↦ ⟨(h hb).1, fun _ ↦ (h hb).2⟩
  cases command with
  | insert e mode =>
    simp only [Execution.command] at ht
    split at ht
    case isFalse =>
      cases ht
      exact hkept (Keeps.refl s)
    case isTrue =>
      rcases onCommit_cases ht with ⟨out, hout, ht⟩ | ht <;> cases ht
      · exact hkept (Keeps.store (fun h ↦ Engine.perform_counted vm h hout)
          (fun h ↦ Engine.insert_active vm h hout) (by simp))
      · exact hkept (Keeps.refl s)
  | auxiliary e =>
    rcases onCommit_cases ht with ⟨out, hout, ht⟩ | ht <;> cases ht
    · exact hkept (Keeps.store (fun h ↦ Engine.perform_counted vm h hout)
        (fun h ↦ Engine.perform_active vm h hout) (by simp [Engine.Op.jobId?, Engine.Op.event?]))
    · exact hkept (Keeps.refl s)
  | cancel id revision timestamp stopping w =>
    simp only [Execution.command] at ht
    split at ht
    case h_1 =>
      cases ht
      exact hkept (Keeps.refl s)
    case h_2 job hjob =>
      obtain ⟨hlookup, -⟩ := mutable?_eq hjob
      rcases onCommit_cases ht with ⟨c, hc, ht⟩ | ht
      · obtain ⟨hbooks, hexact⟩ := cancelTask_keeps vm rfl hlookup hc ht hb
        refine ⟨hbooks, fun hclean he ↦ hexact (fun r hr ↦ ?_) he⟩
        simpa [Command.leaks, hr] using hclean
      · cases ht
        exact hkept (Keeps.refl s)
  | retry id revision timestamp stopping =>
    simp only [Execution.command] at ht
    split at ht
    case h_1 =>
      cases ht
      exact hkept (Keeps.refl s)
    case h_2 job hjob =>
      obtain ⟨hlookup, hstate⟩ := mutable?_eq hjob
      rcases onCommit_cases ht with ⟨c, hc, ht⟩ | ht <;> cases ht
      · refine hkept (change_keeps vm hlookup hc fun _ he r entry hentry heq ↦ ?_)
        obtain ⟨j, hj, hexecuting⟩ := he.live r entry hentry (by simp)
        -- a job that runs is the hot one, and it is in neither of the two states
        rw [heq] at hj
        have hsame := Engine.lookup_of_hot hj
        rw [hlookup] at hsame
        cases hsame
        simp [hexecuting] at hstate
      · exact hkept (Keeps.refl s)
  | pauseQueue queue =>
    cases ht
    refine hkept ?_
    split
    · exact Keeps.congr rfl rfl rfl rfl rfl rfl Finset.Subset.rfl
    · exact Keeps.refl s
  | resumeQueue queue =>
    cases ht
    refine hkept ?_
    split
    · exact Keeps.congr rfl rfl rfl rfl rfl rfl Finset.Subset.rfl
    · exact Keeps.refl s

/-- No command of a message leaks, each in the state it finds. -/
def clean (s : State) : List (Command × (Engine.State → Engine.Environment)) → Bool
  | [] => true
  | (c, writer) :: rest =>
    !c.leaks s && (command vm s writer c).all fun next ↦ clean next rest

theorem commands_keeps {cs : List (Command × (Engine.State → Engine.Environment))} (hb : Books s)
    (ht : commands vm s cs = some t) : Books t ∧ (clean vm s cs = true → Exact s → Exact t) := by
  induction cs generalizing s with
  | nil =>
    cases ht
    exact ⟨hb, fun _ he ↦ he⟩
  | cons head rest ih =>
    obtain ⟨next, hnext, hrest⟩ := Option.bind_eq_some_iff.mp ht
    obtain ⟨hbooks, hexact⟩ := command_keeps vm hnext hb
    obtain ⟨hbooks', hexact'⟩ := ih hbooks hrest
    refine ⟨hbooks', fun hclean he ↦ ?_⟩
    simp only [clean, hnext, Option.all_some, Bool.and_eq_true, Bool.not_eq_true'] at hclean
    exact hexact' hclean.2 (hexact hclean.1 he)

/-! ## Runs -/

/-- No message of the run cancels a persistent job while it runs outside. -/
def Permitted (s : State) : Event → Prop
  | .commands cs => clean vm s cs = true
  | _ => True

instance (s : State) (e : Event) : Decidable (Permitted vm s e) := by
  unfold Permitted
  split <;> infer_instance

/-- **One message.** The books are kept whatever it is, and kept exact when it is permitted. -/
theorem step_keeps {e : Event} (hb : Books s) (ht : step vm s e = some t) :
    Books t ∧ (Permitted vm s e → Exact s → Exact t) := by
  have hkept : Keeps s t → Books t ∧ (Permitted vm s e → Exact s → Exact t) :=
    fun h ↦ ⟨(h hb).1, fun _ ↦ (h hb).2⟩
  cases e with
  | commands cs =>
    obtain ⟨u, hu, rfl⟩ := Option.map_eq_some_iff.mp ht
    obtain ⟨hbooks, hexact⟩ := commands_keeps vm hb hu
    obtain ⟨hdrained, hexact'⟩ := completeDrains_keeps u hbooks
    exact ⟨hdrained, fun hclean he ↦ hexact' (hexact hclean he)⟩
  | drain permit caller =>
    simp only [step] at ht
    split at ht <;> cases ht
    refine hkept (Keeps.trans ?_ (completeDrains_keeps _))
    exact Keeps.congr rfl rfl rfl rfl rfl rfl Finset.Subset.rfl
  | drainDeadline permit =>
    cases ht
    refine hkept ?_
    split
    · exact Keeps.refl s
    · exact Keeps.congr rfl rfl rfl rfl rfl rfl Finset.Subset.rfl
  | lifecycleDrain token policy same =>
    cases ht
    refine hkept ?_
    split
    · exact Keeps.refl s
    · refine Keeps.trans ?_ (completeDrains_keeps _)
      exact Keeps.congr rfl rfl rfl rfl rfl rfl Finset.Subset.rfl
  | policyDrainCancel token =>
    cases ht
    refine hkept ?_
    split
    · exact Keeps.congr rfl rfl rfl rfl rfl rfl Finset.Subset.rfl
    · exact Keeps.refl s
  | executorServerReady pid =>
    simp only [step] at ht
    split at ht <;> cases ht
    exact hkept (Keeps.congr rfl rfl rfl rfl rfl rfl Finset.Subset.rfl)
  | executorCompletion w =>
    simp only [step] at ht
    split at ht
    · cases ht
    case h_2 server reservation result rest _ =>
      exact hkept ((Keeps.link (l := { s.link with completions := rest }) Finset.Subset.rfl).trans
        (executorCompletion_keeps vm ht))
  | executorTimeout reservation execution w => exact hkept (executorTimeout_keeps vm ht)
  | controlScheduler now id timestamp writer =>
    simp only [step] at ht
    split at ht
    · exact hkept ((releasePending_keeps s now).trans (makeAvailable_keeps vm ht))
    · cases ht
      exact hkept (releasePending_keeps s now)
  | controlQueue now queue c =>
    simp only [step] at ht
    split at ht
    · cases ht
    case isFalse hfresh =>
      refine hkept ((releasePending_keeps s now).trans (controlQueue_keeps vm ?_ ht))
      rw [Option.not_isSome_iff_eq_none] at hfresh
      simp [releasePending, hfresh]
  | execution pid ticket execution m w =>
    obtain ⟨u, hu, rfl⟩ := Option.map_eq_some_iff.mp ht
    exact hkept ((executionMessage_keeps vm hu).trans (completeDrains_keeps u))
  | compaction a =>
    simp only [step] at ht
    split at ht
    case isFalse => cases ht
    case isTrue hcompaction =>
      obtain ⟨engine, hengine, rfl⟩ := Option.map_eq_some_iff.mp ht
      rw [toOption_eq_some] at hengine
      have hnot : ∀ op env, a ≠ .command op env := by
        rintro op env rfl
        cases hcompaction
      exact hkept (Keeps.store (fun h ↦ Engine.handle_counted vm h hengine)
        (fun h ↦ Engine.handle_active vm h hnot hengine) (by simp))
  | turn u =>
    obtain ⟨l, hl, rfl⟩ := Option.map_eq_some_iff.mp ht
    exact hkept (Keeps.link (Link.issued_turn hl))

/-- The books balance: entries and their index are inverse to each other, the slots of a queue count
its entries and stay within its limit, the held jobs are those with an entry, and no job has two. -/
structure Consistent (s : State) : Prop where
  inverse : ∀ (id : JobId) (key : Key),
    s.executions[id]? = some key ↔ ∃ entry, s.running[key]? = some entry ∧ entry.id = id
  slots : ∀ (q : Binary) (n : ℤ), s.slots[q]? = some n → n = Table.tally (inQueue q) s.running
  limit : ∀ (q : Binary) (n : ℤ) (limit : ℕ), s.slots[q]? = some n →
    s.queueLimits[q]? = some limit → n ≤ limit
  held : ∀ id : JobId, id ∈ s.held ↔
    ∃ (key : Key) (entry : Entry), s.running[key]? = some entry ∧ entry.id = id
  once : ∀ (key key' : Key) (entry entry' : Entry), s.running[key]? = some entry →
    s.running[key']? = some entry' → entry.id = entry'.id → key = key'

theorem Books.consistent (hb : Books s) (he : Exact s) : Consistent s where
  inverse := hb.inverse
  slots := by
    intro q n hn
    rw [hb.slots] at hn
    obtain ⟨limit, -, rfl⟩ := Option.map_eq_some_iff.mp hn
    rfl
  limit := by
    intro q n limit hn hlimit
    rw [hb.slots, hlimit] at hn
    cases hn
    exact Int.ofNat_le.mpr (hb.limit q limit hlimit)
  held := by
    intro id
    constructor
    · intro hid
      obtain ⟨key, hkey⟩ := Option.isSome_iff_exists.mp (he.free id hid)
      exact ⟨key, (hb.inverse id key).mp hkey⟩
    · rintro ⟨key, entry, hentry, rfl⟩
      exact hb.held hentry
  once := fun key key' entry entry' h h' hid ↦ hb.unique h h' hid

/-- Reconciling the interrupted executions keeps the store in order. -/
theorem reconcile_counted {writer : Engine.State → Engine.Environment} {e e' : Engine.State}
    {interruptions : List Engine.Interruption} (he : Engine.Counted e)
    (h : Engine.reconcileBatch vm writer e interruptions = .ok e') : Engine.Counted e' := by
  refine fold_invariant (P := Engine.Counted) ?_ he h
  intro a i b ha hstep
  unfold Engine.reconcileStep at hstep
  split at hstep
  · cases hstep
  case h_2 job hjob =>
    simp only [bind_eq_ok, pure_eq_ok, mapError_eq_ok] at hstep
    obtain ⟨e, he, c, hc, hb⟩ := hstep
    cases hb
    obtain ⟨-, hid, -⟩ := Outcome.event_eq_ok he
    have hlookup : Engine.ProjectionState.lookup a e.jobId = some job := by
      rw [hid, ha.keyed _ _ hjob]
      exact Engine.lookup_of_hot hjob
    exact (Engine.commit_hot vm ha hlookup hc).counted

theorem Starts.books (h : Starts vm s) : Books s := by
  obtain ⟨d, config, r, segment, writer, interruptions, hr, hreconcile⟩ := h.store
  have hcounted : Engine.Counted (Engine.countInterrupted (Engine.init config r segment)) :=
    Engine.counted_start segment (Reader.recover_sound vm (sound_candidate _ _) hr)
  constructor
  case counted => exact reconcile_counted vm hcounted hreconcile
  case slots =>
    intro q
    rw [h.slots, h.running]
    simp
  case limit =>
    intro q limit _
    rw [h.running]
    simp
  all_goals simp [h.running, h.executions]

theorem Starts.exact (h : Starts vm s) : Exact s :=
  ⟨by simp [h.running], by simp [h.held]⟩

/-- The books are kept in every run. -/
theorem reachable_books (h : (machine vm).Reachable s) : Books s :=
  h.invariant (I := Books) (fun _ (hs : Starts vm _) ↦ hs.books) fun _ _ _ hb hstep ↦
    (step_keeps vm hb hstep).1

/-- **Execution bookkeeping stays consistent.** In every run in which no persistent job is cancelled
while it runs on an external executor, whatever the order of claims, outcomes, deaths, completions,
losses, timeouts, cancellations and settlements. -/
theorem bookkeeping_consistent (h : (machine vm).ReachableUnder (Permitted vm) s) :
    Consistent s := by
  have hinv : Books s ∧ Exact s := by
    refine h.invariant (I := fun s ↦ Books s ∧ Exact s) (fun s (hs : Starts vm s) ↦
      ⟨hs.books, hs.exact⟩) ?_
    rintro s e t ⟨hb, he⟩ hpermitted hstep
    obtain ⟨hb', he'⟩ := step_keeps vm hb hstep
    exact ⟨hb', he' hpermitted he⟩
  exact hinv.1.consistent hinv.2

/-! ## A job cancelled on its executor -/

namespace Sample

open Tay.Sample

/-- The executor server before anyone has connected. -/
def link : Link :=
  ⟨0, ⟨8, 8, 0, ∅, ∅, ∅, ∅⟩, [], [], ∅⟩

/-- One queue with one slot, and no local worker. -/
def start : State where
  engine := Engine.Sample.empty
  link := link
  registry := ∅
  workers := ∅
  queues := {definition.queueKey}
  queueLimits := (∅ : Table Binary ℕ).insert definition.queueKey 1
  running := ∅
  executions := ∅
  relayMonitors := ∅
  slots := (∅ : Table Binary ℤ).insert definition.queueKey 0
  held := ∅
  paused := ∅
  mode := .ready
  drainers := ∅
  lifecycleOperation := none
  lifecycleFenced := none
  executorServer := none
  sent := []
  requested := []
  settled := []

def settling : Settling := ⟨14, [0], Engine.Sample.writer, [.serve], [.serve]⟩

def claim : Claim where
  now := 13
  timestamp := 13
  tasks := [definition.workerKey]
  writer := Engine.Sample.writer
  reservation := 7
  execution := 9
  reserving := [.serve]
  dispatching := [.serve]
  settling := settling
  relay := 1
  ticket := 1
  monitor := 1
  taskAlive := true
  startedAt := 13

/-- A worker connects and offers the task; a job is inserted and starts on it. -/
def starting (mode : Durability) : List Event :=
  [.turn (.receive (.accepted 1 1)), .turn (.receive (.hello 1 ⟨.worker, text "w", 1⟩)),
    .turn (.receive (.registerTasks 1 [definition.workerKey])), .executorServerReady 0,
    .commands [(.insert ⟨1, 0, 10, .inserted definition 10⟩ mode, Engine.Sample.writer)],
    .controlQueue 13 definition.queueKey claim]

/-- And then it is cancelled. -/
def cancelling : Event :=
  .commands [(.cancel 1 2 14 false settling, Engine.Sample.writer)]

end Sample

theorem Sample.starts : Starts Tay.Sample.runtime Sample.start where
  store := ⟨⟨Tay.Sample.manifest 0, [⟨1, 1, [], false⟩]⟩, Engine.Sample.config,
    Engine.Sample.recovered, Engine.Sample.segment, Engine.Sample.writer, [], by decide +kernel, rfl⟩
  running := rfl
  executions := rfl
  slots := by
    intro q
    simp only [Sample.start, Table.get_insert]
    split <;> simp
  held := rfl
  mode := rfl
  drainers := rfl
  requested := rfl
  sent := rfl
  settled := rfl
  link := ⟨rfl, rfl, rfl⟩

/-- A job that runs on its executor. -/
theorem bookkeeping_external :
    ∃ s, (machine Tay.Sample.runtime).ReachableUnder (Permitted Tay.Sample.runtime) s ∧
      s.executions[1]? = some (.executor 7) ∧ s.held = {1} ∧ Consistent s := by
  have hrun : (((machine Tay.Sample.runtime).under (Permitted Tay.Sample.runtime)).run Sample.start
      (Sample.starting .persistent)).any (fun s ↦ decide (s.executions[1]? = some (.executor 7) ∧
        s.held = {1})) = true := by
    decide +kernel
  obtain ⟨s, hs, h⟩ := (Option.any_eq_true _ _).mp hrun
  obtain ⟨hkey, hheld⟩ := of_decide_eq_true h
  have hreachable := Machine.reachableUnder_of_run (.initial Sample.starts) hs
  exact ⟨s, hreachable, hkey, hheld, bookkeeping_consistent _ hreachable⟩

/-- Its cancellation leaves it held with nothing running. -/
theorem bookkeeping_cancelled : ¬ ∀ s, (machine Tay.Sample.runtime).Reachable s → Consistent s := by
  intro hall
  have hrun : ((machine Tay.Sample.runtime).run Sample.start
      (Sample.starting .persistent ++ [Sample.cancelling])).any (fun s ↦
        decide (1 ∈ s.held) && s.running.isEmpty) = true := by
    decide +kernel
  obtain ⟨s, hs, h⟩ := (Option.any_eq_true _ _).mp hrun
  simp only [Bool.and_eq_true, decide_eq_true_eq, Std.ExtTreeMap.isEmpty_iff] at h
  obtain ⟨key, entry, hentry, -⟩ :=
    ((hall s (Machine.reachable_of_run Sample.starts hs)).held 1).mp h.1
  rw [h.2] at hentry
  simp at hentry

end Tay.Execution
