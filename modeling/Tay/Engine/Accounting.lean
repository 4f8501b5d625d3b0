import Tay.Engine.Accounts
import Tay.Engine.Estimated

/-!
# The accounts of a running engine

The accounts of the last module beside what moves jobs between them: commits on persistent and volatile
jobs, retries that bring a finished job back, the purge of expired volatile jobs, and the adoption of an
epoch, which brings the sums of the finished jobs with it. The counts of finished jobs by state and by
queue are kept beside the engine.

As long as the epochs that are adopted hold the engine's own jobs, every account is that of the jobs that
are stored, and a commit whose record is in the log is finished: no account ends the process.
-/

open Foundation

namespace Tay.Engine

open V2 Transition ProjectionState OnlineCheckpoint

/-! ## Statistics -/

/-- `terminal_stats`: the finished jobs that are stored, by state, and in each queue. -/
structure QueueStats where
  count : ℤ
  states : JobState → ℤ

structure TerminalStats where
  states : JobState → ℤ
  queues : Table Binary QueueStats

namespace TerminalStats

def empty : TerminalStats := ⟨fun _ ↦ 0, ∅⟩

def bumpState (states : JobState → ℤ) (state : JobState) (amount : ℤ) : JobState → ℤ :=
  fun x ↦ if x = state then states x + amount else states x

/-- `update_terminal_stats`. -/
def update (stats : TerminalStats) (job : Job) (amount : ℤ) : TerminalStats :=
  let queue := job.definition.queueKey
  let queueStats := (stats.queues[queue]?).getD ⟨0, fun _ ↦ 0⟩
  { states := bumpState stats.states job.state amount
    queues := stats.queues.insert queue
      ⟨queueStats.count + amount, bumpState queueStats.states job.state amount⟩ }

/-- `replace_terminal_stats`. -/
def replace (stats : TerminalStats) (previous : Option Job) (job : Job) : TerminalStats :=
  let stats := match previous with
    | some p => if p.state.terminal then update stats p (-1) else stats
    | none => stats
  if job.state.terminal then update stats job 1 else stats

/-- `terminal_statistics`. -/
def ofJobs (jobs : Table JobId Job) : TerminalStats :=
  jobs.foldl (fun stats _ job ↦ if job.state.terminal then update stats job 1 else stats) empty

/-- The items of the statistics. -/
inductive Item
  | state (state : JobState)
  | queue (queue : Binary)
  | queueState (queue : Binary) (state : JobState)

def weight : Item → Job → ℤ
  | .state state, job => if state = job.state then 1 else 0
  | .queue queue, job => if job.definition.queueKey = queue then 1 else 0
  | .queueState queue state, job =>
    if job.definition.queueKey = queue then if state = job.state then 1 else 0 else 0

def read (stats : TerminalStats) : Item → ℤ
  | .state state => stats.states state
  | .queue queue => ((stats.queues[queue]?).elim 0 QueueStats.count)
  | .queueState queue state => ((stats.queues[queue]?).elim 0 fun q ↦ q.states state)

theorem read_update (stats : TerminalStats) (job : Job) (amount : ℤ) (i : Item) :
    (stats.update job amount).read i = stats.read i + amount * weight i job := by
  rcases i with state | queue | ⟨queue, state⟩
  · simp only [read, update, bumpState, weight]
    split <;> simp
  · simp only [read, update, weight, Foundation.Table.get_insert]
    split
    case isTrue hq =>
      subst hq
      cases stats.queues[job.definition.queueKey]? <;> simp
    case isFalse => simp
  · simp only [read, update, weight, Foundation.Table.get_insert]
    split
    case isTrue hq =>
      subst hq
      rcases stats.queues[job.definition.queueKey]? with _ | queueStats
      · by_cases hs : state = job.state <;> simp [bumpState, hs]
      · by_cases hs : state = job.state <;> simp [bumpState, hs]
    case isFalse => simp

theorem read_replace (stats : TerminalStats) (previous : Option Job) (job : Job) (i : Item) :
    (stats.replace previous job).read i = stats.read i -
      previous.elim 0 (gate (fun p ↦ p.state.terminal) weight i) +
        gate (fun p ↦ p.state.terminal) weight i job := by
  have hone : ∀ (x : TerminalStats) (p : Job), (if p.state.terminal then x.update p 1 else x).read i =
      x.read i + gate (fun p ↦ p.state.terminal) weight i p := by
    intro x p
    rw [gate]
    split
    · rw [read_update, one_mul]
    · exact (add_zero _).symm
  simp only [replace, hone]
  rcases previous with _ | p
  · simp
  · simp only [Option.elim_some, gate]
    split
    · rw [read_update]
      omega
    · omega

theorem ledger_ofJobs (jobs : Table JobId Job) :
    Ledger weight (ofJobs jobs).read (jobs.filter fun _ job ↦ job.state.terminal) := by
  refine Ledger.filter_iff.mpr (Ledger.opened (fun x v i ↦ ?_) (fun i ↦ ?_) jobs)
  · rw [gate]
    split
    · rw [read_update, one_mul]
    · exact (add_zero _).symm
  · rcases i with _ | _ | _
    · rfl
    · simp [read, empty]
    · simp [read, empty]

end TerminalStats

/-! ## Adoption -/

/-- What recovery rebuilds is charged within the limits it was given. -/
theorem recover_weighed {vm : Runtime} (hvm : Canonical.Steady vm) {d : Directory} {limits : CandidateLimits}
    {valueLimits : Value.Limits} {r : Reader.Recovered}
    (h : Reader.recover vm d (candidate limits valueLimits) = .ok r) :
    Canonical.Weighed vm r.candidate ∧ r.candidate.limits = limits ∧ r.candidate.valueLimits = valueLimits := by
  obtain ⟨s, hs, rfl⟩ := (Reader.recover_spec vm h).scanned
  have hscan : Sound s.candidate ∧ Canonical.Weighed vm s.candidate ∧ s.candidate.limits = limits ∧
      s.candidate.valueLimits = valueLimits := by
    refine Reader.scan_decoded vm (P := fun c ↦ Sound c ∧ Canonical.Weighed vm c ∧ c.limits = limits ∧
      c.valueLimits = valueLimits) ?_ ?_ ?_ ?_ ?_ hs
    · rintro c job c' hcharge ⟨hsound, hweighed, hlimits⟩ h
      obtain ⟨ch, hframe⟩ := Reducer.insertSnapshot_eq_ok vm h
      have hdurable : job.durable = job := by
        obtain ⟨⟩ := job
        exact congrArg _ hcharge.symm
      refine ⟨hsound.insertSnapshot vm h, hweighed.insertSnapshot vm (hdurable.symm ▸ h), ?_⟩
      rw [hframe]
      exact hlimits
    · rintro c m c' ⟨hsound, hweighed, hlimits⟩ h
      obtain ⟨job, ch, -, hframe⟩ := Reducer.apply_eq_ok vm h
      refine ⟨hsound.apply vm h, hweighed.apply vm hvm h, ?_⟩
      rw [hframe]
      exact hlimits
    · rintro c e sequence c' ⟨hsound, hweighed, hlimits⟩ h
      obtain ⟨-, -, applied, happlied, hframe⟩ := Auxiliary.reduce_eq_ok vm h
      refine ⟨hsound.reduce vm h, hweighed.reduce vm (fun id schedule hid ↦ hsound.schedules id schedule hid) h, ?_⟩
      rw [hframe, Auxiliary.applyEvent_frame happlied]
      exact hlimits
    · rintro c next ⟨hsound, hweighed, hlimits⟩
      exact ⟨⟨hsound.jobs, hsound.schedules, hsound.results⟩, ⟨hweighed.charged, hweighed.bytes, hweighed.bound⟩,
        hlimits⟩
    · exact ⟨sound_candidate _ _, Canonical.weighed_candidate vm _ _, rfl, rfl⟩
  exact hscan.2

/-- An adopted epoch is one of the engine's own, as recovery reads it: its jobs are persistent jobs of the
engine, no running one is missing, nor one that the message is about. -/
structure Keeps (vm : Runtime) (s : State) (a : Action) (r : Reader.Recovered) : Prop where
  recovered : ∃ d, Reader.recover vm d (candidate s.config.candidateLimits s.config.valueLimits) = .ok r
  known : ∀ (id : JobId) (job : Job), r.candidate.jobs[id]? = some job →
    (persistent s id).map Job.unnumbered = some job.unnumbered
  running : ∀ (id : JobId) (job : Job), persistent s id = some job → job.state.terminal = false →
    (r.candidate.jobs[id]?).isSome
  named : ∀ e env, a = .command (.change e) env → (persistent s e.jobId).isSome →
    (r.candidate.jobs[e.jobId]?).isSome

section Adoption

variable {vm : Runtime} {s t : State} {a : Action} {stats : Stats} {retention : Retention} {capturedAt : ℕ}
  {admits : ℤ → Bool}

theorem ledger_terminalBudget (jobs : Table JobId Job) :
    Ledger Amount.weight (Amount.read (OnlineCheckpoint.terminalBudget jobs))
      (jobs.filter fun _ job ↦ job.state.terminal) := by
  refine Ledger.filter_iff.mpr (Ledger.opened (fun x v i ↦ ?_) (fun i ↦ ?_) jobs)
  · rw [gate]
    split
    · rw [read_addCharge, one_mul]
    · exact (add_zero _).symm
  · rcases i with _ | _ <;> rfl

theorem Sums.purgeStep (h : Sums vm s) {entry : JobId × Job} (hhot : s.hot[entry.2.id]? = some entry.2)
    (ht : OnlineCheckpoint.purgeStep retention capturedAt s entry = .ok t) : Sums vm t := by
  simp only [OnlineCheckpoint.purgeStep] at ht
  split at ht
  case isFalse =>
    obtain rfl := Except.ok.inj ht
    exact h
  case isTrue hjob =>
    obtain ⟨expired, -, ht⟩ := bind_eq_ok.mp ht
    rw [Bool.and_eq_true] at hjob
    rcases expired with _ | _
    · obtain rfl := Except.ok.inj ht
      exact h
    · obtain rfl := Except.ok.inj ht
      have hset : ∀ id, (s.hot.erase entry.2.id)[id]? = if entry.2.id = id then none else s.hot[id]? :=
        fun id ↦ Foundation.Table.get_erase ..
      exact {
        active := h.active.set hset fun i ↦ by
          rw [read_addCharge, hhot]
          simp only [Option.elim_some, Option.elim_none]
          omega
        budget := congrArg (addCharge · entry.2 (-1)) h.budget
        terminal := h.terminal
        volatileTerminal := h.volatileTerminal.set hset fun i ↦ by
          rw [read_addCharge, hhot]
          simp only [Option.elim_some, Option.elim_none, gate, hjob.2, if_true]
          omega
        hotCharged := fun id job hid ↦ by
          rw [hset] at hid
          split at hid
          · exact absurd hid (by simp)
          · exact h.hotCharged id job hid
        terminalCharged := h.terminalCharged }

/-- The purge takes off what it drops. -/
theorem Sums.purge {l : List (JobId × Job)} : ∀ {s : State}, Sums vm s →
    (∀ entry ∈ l, s.hot[entry.2.id]? = some entry.2) → l.Pairwise (fun x y ↦ x.2.id ≠ y.2.id) →
    fold (OnlineCheckpoint.purgeStep retention capturedAt) s l = .ok t → Sums vm t := by
  induction l with
  | nil =>
    intro s h _ _ ht
    obtain rfl := Except.ok.inj ht
    exact h
  | cons entry l ih =>
    intro s h hhot hdistinct ht
    rw [fold_cons] at ht
    obtain ⟨u, hu, ht⟩ := bind_eq_ok.mp ht
    obtain ⟨hentry, hrest⟩ := List.pairwise_cons.mp hdistinct
    refine ih (h.purgeStep (hhot entry List.mem_cons_self) hu) (fun x hx ↦ ?_) hrest ht
    have hx' := hhot x (List.mem_cons_of_mem _ hx)
    rcases purgeStep_cases hu with ⟨-, hhot', -⟩ | ⟨-, rfl⟩
    · rw [hhot', Foundation.Table.get_erase, if_neg (hentry x hx), hx']
    · exact hx'

/-- What an adoption leaves in the terminal store is what the epoch holds there, apart from its numbers. -/
theorem Keeps.terminals {r : Reader.Recovered} (h : Keeps vm s a r) (hs : Placed s) (id : JobId) :
    ((s.terminalStore.filter fun id _ ↦ (r.candidate.jobs[id]?).isSome)[id]?).map Job.unnumbered =
      ((r.candidate.jobs.filter fun _ job ↦ job.state.terminal)[id]?).map Job.unnumbered := by
  rw [Std.ExtTreeMap.getElem?_filter', Std.ExtTreeMap.getElem?_filter']
  rcases hkept : r.candidate.jobs[id]? with _ | kept
  · rcases s.terminalStore[id]? with _ | job <;> rfl
  · obtain ⟨job, hjob, hsame⟩ := Option.map_eq_some_iff.mp (h.known id kept hkept)
    obtain ⟨hout, hlookup⟩ := persistent_eq_some.mp hjob
    have hstate := (CompactionEstimate.unnumbered_fields hsame).2.1
    have hplace := Option.or_eq_some_iff.mp hlookup
    rcases hterminal : kept.state.terminal with _ | _
    · rcases hstored : s.terminalStore[id]? with _ | stored
      · simp [hterminal]
      · -- a job that is not over is not there
        have hover := hs.terminal id stored hstored
        rcases hplace with hhot | ⟨-, hfound⟩
        · rw [hs.lookup_hot hhot] at hstored
          exact absurd hstored (by simp)
        · obtain rfl := Option.some_inj.mp (hstored.symm.trans hfound)
          rw [hstate, hterminal] at hover
          exact absurd hover Bool.false_ne_true
    · rcases hplace with hhot | ⟨-, hfound⟩
      · exact absurd (hs.hotTerminal id job hhot (hstate ▸ hterminal)) hout
      · rw [hfound, Option.filter_some, Option.filter_some, hterminal]
        exact congrArg some hsame

/-- **The adoption.** The epoch brings the sums of what is left. -/
theorem Sums.adopt (hvm : Canonical.Steady vm) (h : Sums vm s) (hs : Placed s)
    (hkeeps : Keeps vm s a stats.recovered) (ht : OnlineCheckpoint.adopt vm s stats retention admits = .ok t) :
    Sums vm t := by
  obtain ⟨purged, hpurged, ht⟩ := bind_eq_ok.mp ht
  have hstore := (purge_purged hpurged).terminalStore
  have hp : Sums vm purged := by
    refine h.purge (fun entry hentry ↦ ?_) ?_ hpurged
    · have hmem := Std.ExtTreeMap.mem_toList_iff_getElem?_eq_some.mp hentry
      rw [hs.hotKeyed _ _ hmem, hmem]
    · refine Std.ExtTreeMap.distinct_keys_toList.imp_of_mem fun {x y} hx hy hne heq ↦ ?_
      rw [hs.hotKeyed _ _ (Std.ExtTreeMap.mem_toList_iff_getElem?_eq_some.mp hx),
        hs.hotKeyed _ _ (Std.ExtTreeMap.mem_toList_iff_getElem?_eq_some.mp hy)] at heq
      exact hne (Std.LawfulEqCmp.compare_eq_iff_eq.mpr heq)
  split at ht
  case h_1 => exact absurd ht (by simp)
  case h_2 segment hsegment =>
    obtain ⟨-, ht⟩ := check_bind_eq_ok.mp ht
    obtain rfl := Except.ok.inj ht
    have hstored : ∀ (id : JobId) (job : Job), (purged.terminalStore.filter fun id _ ↦
        (stats.recovered.candidate.jobs[id]?).isSome)[id]? = some job → s.terminalStore[id]? = some job := by
      intro id job hid
      rw [Std.ExtTreeMap.getElem?_filter', hstore] at hid
      exact (Option.filter_eq_some_iff.mp hid).1
    obtain ⟨d, hrecovered⟩ := hkeeps.recovered
    obtain ⟨hweighed, hlimits, hvalues⟩ := recover_weighed hvm hrecovered
    refine ⟨hp.active, hp.budget, ?_, hp.volatileTerminal, hp.hotCharged, fun id job hid ↦
      hp.terminalCharged id job (hstore ▸ hstored id job hid)⟩
    refine (ledger_terminalBudget stats.recovered.candidate.jobs).congr fun i id ↦ ?_
    have hterminals := hkeeps.terminals hs id
    have hcharge : ∀ job kept : Job, (purged.terminalStore.filter fun id _ ↦
        (stats.recovered.candidate.jobs[id]?).isSome)[id]? = some job →
        (stats.recovered.candidate.jobs.filter fun _ job ↦ job.state.terminal)[id]? = some kept →
        job.unnumbered = kept.unnumbered → Amount.weight i job = Amount.weight i kept := by
      intro job kept hjob hkept hsame
      rw [Std.ExtTreeMap.getElem?_filter'] at hkept
      have hcharged := hweighed.charged id kept (Option.filter_eq_some_iff.mp hkept).1
      rw [hlimits, hvalues] at hcharged
      obtain ⟨hid, hstate, -, hcopy⟩ := CompactionEstimate.unnumbered_fields hsame
      have hdefinition : job.definition = kept.definition := by
        have hfield := congrArg Job.definition hsame
        exact hfield
      have hequal := charge_same hvm (h.terminalCharged id job (hstored id job hjob)) hcharged hid hdefinition
        hcopy hstate
      rcases i with _ | _
      · rfl
      · simp only [Amount.weight, chargedBytes, hequal]
    show ((purged.terminalStore.filter fun id _ ↦ (stats.recovered.candidate.jobs[id]?).isSome)[id]?).map _ = _
    rw [← hstore] at hterminals
    rcases hjob : (purged.terminalStore.filter fun id _ ↦
      (stats.recovered.candidate.jobs[id]?).isSome)[id]? with _ | job
    · rw [hjob] at hterminals
      rw [Option.map_eq_none_iff.mp hterminals.symm, Option.map_none]
    · rw [hjob] at hterminals
      obtain ⟨kept, hkept, hsame⟩ := Option.map_eq_some_iff.mp hterminals.symm
      rw [hkept, Option.map_some, Option.map_some, hcharge job kept hjob hkept hsame.symm]

end Adoption

/-! ## Commits -/

section Commits

variable {vm : Runtime} {s t base : State} {previous : Option Job} {e : JobEvent} {env : Environment} {c : Committed}

theorem prepared_charged (hvm : Canonical.Steady vm) {p : Prepared}
    (hprevious : ∀ q ∈ previous, Canonical.Charged vm s.config.valueLimits s.config.candidateLimits q)
    (h : prepareV2 vm s previous e = .ok p) :
    Canonical.Charged vm s.config.valueLimits s.config.candidateLimits p.job ∧
      s.budget.bytes - (hotPrevious s previous).elim 0 chargedBytes + chargedBytes p.job ≤
        s.config.candidateLimits.maxBytes := by
  simp only [prepareV2, bind_eq_ok, pure_eq_ok] at h
  obtain ⟨m, -, payload, -, ⟨predicted, order⟩, hpredicted, -, -, charged, hcharged, h⟩ := h
  obtain rfl := Except.ok.inj h
  have hjob := applyOne_charged hvm hprevious hpredicted
  have haccounts := accountActive_accounts hcharged
  have hsame : charged.1 = predicted := Except.ok.inj (haccounts.charge.symm.trans (charge_self hjob))
  exact ⟨hsame ▸ hjob, haccounts.bound⟩

/-- What `finish_commit` writes down, before the accounts are compared. -/
theorem finished_enters {p : Prepared} {budget : Accounting} (e : JobEvent) (receipt : Receipt)
    (hjob : Canonical.Charged vm base.config.valueLimits base.config.candidateLimits p.job)
    (h : accountActive vm base previous p.job .persistent = .ok (p.job, budget)) :
    Enters vm base previous p.job .persistent
      { advance (publish base previous p.job .persistent) receipt (Payload.mutation p.mutation).bytes with
        budget := budget
        activeBudget := replacePartition base.activeBudget previous p.job .active .persistent
        terminalBudget := replacePartition base.terminalBudget previous p.job .terminal .persistent
        nextAvailabilityOrder := p.nextOrder
        settlementReserve := reservationAfter base.settlementReserve previous e.body
        persistentSettlementReserve := p.reserve } where
  hot := rfl
  terminalStore := rfl
  volatileIds := (publish_same base previous p.job .persistent).volatileIds
  valueLimits := congrArg Config.valueLimits (publish_same base previous p.job .persistent).config
  candidateLimits := congrArg Config.candidateLimits (publish_same base previous p.job .persistent).config
  charged := hjob
  budget := (accountActive_accounts h).amounts
  active := rfl
  terminal := rfl
  volatileTerminal := by
    unfold publish
    split
    · rfl
    · split <;> rfl

theorem finishCommit_enters {p : Prepared} {receipt : Receipt}
    (hjob : Canonical.Charged vm base.config.valueLimits base.config.candidateLimits p.job)
    (h : finishCommit vm base previous e p receipt = .ok c) : Enters vm base previous c.job .persistent c.state := by
  simp only [finishCommit, ensureActiveAccounting, bind_eq_ok, pure_eq_ok] at h
  obtain ⟨⟨charged, budget⟩, hcharged, next, ⟨-, -, hnext⟩, h⟩ := h
  obtain rfl := Except.ok.inj hnext
  obtain rfl := Except.ok.inj h
  obtain rfl : charged = p.job :=
    Except.ok.inj ((accountActive_accounts hcharged).charge.symm.trans (charge_self hjob))
  exact finished_enters e receipt hjob hcharged

/-- What a volatile commit writes down, before the accounts are compared. -/
theorem volatile_enters {predicted charged : Job} {budget : Accounting} (e : JobEvent) (order : ℕ)
    (time : Option ℕ) (hvm : Canonical.Steady vm)
    (hjob : Canonical.Charged vm s.config.valueLimits s.config.candidateLimits predicted)
    (h : accountActive vm s previous predicted .volatile = .ok (charged, budget)) :
    Enters vm s previous { charged with terminalAt := time } .volatile
      { publish s previous { charged with terminalAt := time } .volatile with
        volatileIds := insert charged.id s.volatileIds
        volatileNextAvailabilityOrder := order
        budget := budget
        activeBudget := replacePartition s.activeBudget previous { charged with terminalAt := time } .active .volatile
        volatileTerminalBudget :=
          replacePartition s.volatileTerminalBudget previous { charged with terminalAt := time } .terminal .persistent
        settlementReserve := reservationAfter s.settlementReserve previous e.body } := by
  have haccounts := accountActive_accounts h
  obtain rfl : charged = predicted := Except.ok.inj (haccounts.charge.symm.trans (charge_self hjob))
  have same := publish_same s previous { charged with terminalAt := time } .volatile
  exact {
    hot := rfl
    terminalStore := rfl
    volatileIds := rfl
    valueLimits := congrArg Config.valueLimits same.config
    candidateLimits := congrArg Config.candidateLimits same.config
    charged := charged_at hvm hjob _
    budget := fun i ↦ (haccounts.amounts i).trans (by rcases i with _ | _ <;> rfl)
    active := rfl
    terminal := by
      show (publish s previous _ .volatile).terminalBudget = _
      unfold publish
      split
      · rfl
      · split <;> rfl
    volatileTerminal := rfl }

theorem commitVolatile_enters (hvm : Canonical.Steady vm)
    (hprevious : ∀ q ∈ previous, Canonical.Charged vm s.config.valueLimits s.config.candidateLimits q)
    (h : commitVolatile vm s previous e env = .ok c) : Enters vm s previous c.job .volatile c.state := by
  simp only [commitVolatile, ensureActiveAccounting, bind_eq_ok, pure_eq_ok] at h
  obtain ⟨m, -, payload, -, ⟨predicted, order⟩, hpredicted, ⟨charged, budget⟩, hcharged, -, -, next,
    ⟨-, -, hnext⟩, h⟩ := h
  obtain rfl := Except.ok.inj hnext
  obtain rfl := Except.ok.inj h
  exact volatile_enters e order _ hvm (applyOne_charged hvm hprevious hpredicted) hcharged

end Commits

/-! ## Messages -/

/-- Nothing of the accounts is different. -/
structure SameAccounts (s t : State) : Prop where
  hot : t.hot = s.hot
  terminalStore : t.terminalStore = s.terminalStore
  valueLimits : t.config.valueLimits = s.config.valueLimits
  candidateLimits : t.config.candidateLimits = s.config.candidateLimits
  budget : t.budget = s.budget
  active : t.activeBudget = s.activeBudget
  terminal : t.terminalBudget = s.terminalBudget
  volatileTerminal : t.volatileTerminalBudget = s.volatileTerminalBudget

section Messages

variable {vm : Runtime} {s t base : State} {a : Action}

theorem SameAccounts.refl (s : State) : SameAccounts s s := ⟨rfl, rfl, rfl, rfl, rfl, rfl, rfl, rfl⟩

theorem Sums.same (h : Sums vm s) (hsame : SameAccounts s t) : Sums vm t where
  active := by rw [hsame.active, hsame.hot]; exact h.active
  budget := by rw [hsame.budget, hsame.active]; exact h.budget
  terminal := by rw [hsame.terminal, hsame.terminalStore]; exact h.terminal
  volatileTerminal := by rw [hsame.volatileTerminal, hsame.hot]; exact h.volatileTerminal
  hotCharged := by rw [hsame.hot, hsame.valueLimits, hsame.candidateLimits]; exact h.hotCharged
  terminalCharged := by rw [hsame.terminalStore, hsame.valueLimits, hsame.candidateLimits]; exact h.terminalCharged

theorem Sums.settles (hvm : Canonical.Steady vm) (h : Sums vm s) (hs : Placed s)
    (hkeeps : ∀ x ∈ adoption vm s a, Keeps vm s a x.1.recovered) (hbase : Settles vm s (adoption vm s a) base) :
    Sums vm base := by
  generalize adoption vm s a = x at hkeeps hbase
  rcases hbase with _ | @⟨stats, retention, admits, adopted, online, hadopted⟩
  · exact h
  · exact (h.adopt hvm hs (hkeeps _ rfl) hadopted).same ⟨rfl, rfl, rfl, rfl, rfl, rfl, rfl, rfl⟩

/-- The job of a lookup is charged. -/
theorem Sums.charged (h : Sums vm s) {id : JobId} {job : Job} (hjob : lookup s id = some job) :
    Canonical.Charged vm s.config.valueLimits s.config.candidateLimits job := by
  rcases Option.or_eq_some_iff.mp hjob with hhot | ⟨-, hstored⟩
  · exact h.hotCharged id job hhot
  · exact h.terminalCharged id job hstored

theorem settles_limits (hbase : Settles vm s (adoption vm s a) base) :
    base.config.valueLimits = s.config.valueLimits ∧ base.config.candidateLimits = s.config.candidateLimits := by
  generalize adoption vm s a = x at hbase
  rcases hbase with _ | @⟨stats, retention, admits, adopted, online, hadopted⟩
  · exact ⟨rfl, rfl⟩
  · obtain ⟨purged, hpurged, hadopted⟩ := bind_eq_ok.mp hadopted
    have hconfig := (purge_purged hpurged).config
    split at hadopted
    case h_1 => exact absurd hadopted (by simp)
    case h_2 =>
      obtain ⟨-, hadopted⟩ := check_bind_eq_ok.mp hadopted
      obtain rfl := Except.ok.inj hadopted
      have hvalues : purged.config.valueLimits = s.config.valueLimits := congrArg Config.valueLimits hconfig
      have hlimits : purged.config.candidateLimits = s.config.candidateLimits :=
        congrArg Config.candidateLimits hconfig
      exact ⟨hvalues, hlimits⟩

/-- A commit, in the state it is finished in. -/
def EntersFrom (vm : Runtime) (s : State) (a : Action) (previous : Option Job) (job : Job) (mode : Durability)
    (t : State) : Prop := ∃ base, Settles vm s (adoption vm s a) base ∧ Enters vm base previous job mode t

theorem commit_enters (hvm : Canonical.Steady vm) {previous : Option Job} {e : JobEvent} {given : Option Durability}
    {env : Environment} {c : Committed} {op : Op}
    (hprevious : ∀ q ∈ previous, Canonical.Charged vm s.config.valueLimits s.config.candidateLimits q)
    (hrequest : request vm s op env.admits = commitRequest vm s previous e given env.admits)
    (h : commit vm s previous e given env = .ok c) :
    EntersFrom vm s (.command op env) previous c.job (commitMode s previous given) c.state := by
  unfold commitRequest at hrequest
  unfold commit at h
  split at h
  case h_1 hmode =>
    have hvolatile : commitMode s previous given = .volatile := hmode
    rw [hvolatile] at hrequest ⊢
    have hnone : adoption vm s (.command op env) = none := by
      simp only [adoption, hrequest, Option.map_none]
      split
      case h_1 heq => exact absurd heq (by simp)
      case h_2 => rfl
    refine ⟨s, ?_, commitVolatile_enters hvm hprevious h⟩
    rw [hnone]
    exact .stay
  case h_2 hmode =>
    have hpersistent : commitMode s previous given = .persistent := hmode
    rw [hpersistent] at hrequest ⊢
    simp only [commitV2, bind_eq_ok, mapError_eq_ok, check_eq_ok] at h
    obtain ⟨p, hp, -, hadmits, ⟨receipt, base⟩, hr, -, -, h⟩ := h
    simp only [hp, hadmits, if_true] at hrequest
    have hbase := appendRecord_settles hrequest hr
    obtain ⟨hvalues, hlimits⟩ := settles_limits hbase
    refine ⟨base, hbase, finishCommit_enters ?_ h⟩
    rw [hvalues, hlimits]
    exact (prepared_charged hvm hprevious hp).1

theorem handle_enters (hvm : Canonical.Steady vm) (h : Sums vm s) (ht : handle vm s a = .ok t) :
    (∃ x, published vm s a = some x ∧ EntersFrom vm s a x.1 x.2.1 x.2.2 t) ∨
      published vm s a = none ∧ ∃ base, Settles vm s (adoption vm s a) base ∧ SameAccounts base t := by
  rcases a with ⟨op, env⟩ | ⟨rotation, token, retention⟩ | ⟨token, result⟩
  · simp only [handle] at ht
    obtain ⟨out, hperform, rfl⟩ := map_eq_ok.mp ht
    rcases op with ⟨e, mode⟩ | e | e
    · simp only [perform] at hperform
      rcases hlookup : lookup s e.jobId with _ | p
      · rw [hlookup] at hperform
        obtain ⟨c, hc, rfl⟩ := map_eq_ok.mp hperform
        refine .inl ⟨(none, c.job, commitMode s none (some mode)), ?_, ?_⟩
        · simp only [published, hlookup, hc]
          rfl
        · exact commit_enters hvm (fun q hq ↦ absurd hq (by simp)) (by simp [request, hlookup]) hc
      · simp [hlookup] at hperform
    · simp only [perform] at hperform
      rcases hlookup : lookup s e.jobId with _ | p
      · simp [hlookup] at hperform
      · rw [hlookup] at hperform
        obtain ⟨c, hc, rfl⟩ := map_eq_ok.mp hperform
        refine .inl ⟨(some p, c.job, commitMode s (some p) none), ?_, ?_⟩
        · simp only [published, hlookup, hc]
          rfl
        · refine commit_enters hvm (fun q hq ↦ ?_) (by simp [request, hlookup]) hc
          obtain rfl := Option.mem_some_iff.mp hq
          exact h.charged hlookup
    · refine .inr ⟨rfl, ?_⟩
      simp only [perform, commitAuxiliary] at hperform
      split at hperform
      case isTrue hvolatile =>
        simp only [commitVolatileAuxiliary, bind_eq_ok, pure_eq_ok] at hperform
        obtain ⟨-, -, c, -, -, -, hout⟩ := hperform
        obtain rfl := Except.ok.inj hout
        have hnone : adoption vm s (.command (.auxiliary e) env) = none := by
          simp only [adoption, request, if_pos hvolatile, Option.map_none]
          split
          case h_1 heq => exact absurd heq (by simp)
          case h_2 => rfl
        refine ⟨s, ?_, rfl, rfl, rfl, rfl, rfl, rfl, rfl, rfl⟩
        rw [hnone]
        exact .stay
      case isFalse hpersistent =>
        simp only [commitPersistentAuxiliary, bind_eq_ok, check_eq_ok] at hperform
        obtain ⟨c, hc, -, hadmits, ⟨receipt, base⟩, hr, -, -, hout⟩ := hperform
        have hrequest : request vm s (.auxiliary e) env.admits = some (.auxiliary e) := by
          simp only [request, if_neg hpersistent, hc, hadmits, if_true]
        have hbase := appendRecord_settles hrequest hr
        simp only [finishAuxiliary] at hout
        split at hout
        · exact absurd hout (by simp)
        · obtain rfl := Except.ok.inj hout
          exact ⟨base, hbase, rfl, rfl, rfl, rfl, rfl, rfl, rfl, rfl⟩
  · refine .inr ⟨rfl, s, .stay, ?_⟩
    rcases handle_cases vm ht with ⟨op, env, out, heq, -⟩ | ⟨token, stats, admits, heq, -⟩ |
      ⟨rotation, token, retention, -, -, rfl⟩ | ⟨online, rfl⟩
    · exact absurd heq (by simp)
    · exact absurd heq (by simp)
    · exact ⟨rfl, rfl, rfl, rfl, rfl, rfl, rfl, rfl⟩
    · exact ⟨rfl, rfl, rfl, rfl, rfl, rfl, rfl, rfl⟩
  · refine .inr ⟨rfl, ?_⟩
    rcases result with ⟨stats, admits⟩ | _ | _
    · rcases honline : s.onlineCompaction with _ | ⟨current, retention⟩ | ⟨current, retention⟩
      · simp only [handle, honline] at ht
        obtain rfl := Except.ok.inj ht
        refine ⟨s, ?_, .refl s⟩
        simp only [adoption, honline]
        exact .stay
      · simp only [handle, honline] at ht
        by_cases htoken : (token == current) = true
        · rw [if_pos htoken] at ht
          refine ⟨{ t with onlineCompaction := t.onlineCompaction }, ?_, .refl t⟩
          simp only [adoption, honline, if_pos htoken]
          exact .adopt ht
        · rw [if_neg htoken] at ht
          obtain rfl := Except.ok.inj ht
          refine ⟨s, ?_, .refl s⟩
          simp only [adoption, honline, if_neg htoken]
          exact .stay
      · simp only [handle, honline] at ht
        obtain rfl := Except.ok.inj ht
        refine ⟨s, ?_, .refl s⟩
        simp only [adoption, honline]
        exact .stay
    · obtain ⟨online, rfl⟩ := handle_online (fun _ _ heq ↦ absurd heq (by simp)) ht
      exact ⟨s, .stay, rfl, rfl, rfl, rfl, rfl, rfl, rfl, rfl⟩
    · obtain ⟨online, rfl⟩ := handle_online (fun _ _ heq ↦ absurd heq (by simp)) ht
      exact ⟨s, .stay, rfl, rfl, rfl, rfl, rfl, rfl, rfl, rfl⟩

end Messages

/-! ## The engine beside its statistics -/

structure Accounted where
  engine : State
  terminalStats : TerminalStats

section Machine

variable (vm : Runtime)

/-- The statistics a commit is counted in: those there are, or those of an adopted epoch. -/
def Accounted.carried (w : Accounted) (a : Action) : TerminalStats :=
  match adoption vm w.engine a with
  | none => w.terminalStats
  | some x => .ofJobs x.1.recovered.candidate.jobs

def Accounted.observe (w : Accounted) (a : Action) (engine : State) : Accounted :=
  match published vm w.engine a with
  | some (previous, job, .persistent) => ⟨engine, (w.carried vm a).replace previous job⟩
  | _ => ⟨engine, w.carried vm a⟩

/-- A generation starts with the statistics of the jobs it has recovered. -/
def Accounted.Starts (w : Accounted) : Prop :=
  ∃ d config r segment,
    Reader.recover vm d (candidate config.candidateLimits config.valueLimits) = .ok r ∧
      w = ⟨countInterrupted (init config r segment), .ofJobs r.candidate.jobs⟩

/-- The machine of the engine, with the statistics beside it. -/
def accounted : Machine Accounted Action where
  initial := Accounted.Starts vm
  step w a := (handle vm w.engine a).toOption.map (w.observe vm a)

/-- The epoch a message brings is one of the engine's own. -/
def OwnEpoch (w : Accounted) (a : Action) : Prop :=
  ∀ x ∈ adoption vm w.engine a, Keeps vm w.engine a x.1.recovered

end Machine

/-- What every state of every run satisfies. -/
structure Accounted.Balanced (vm : Runtime) (w : Accounted) : Prop where
  placed : Placed w.engine
  sums : Sums vm w.engine
  stats : Ledger TerminalStats.weight w.terminalStats.read w.engine.terminalStore

section Steps

variable {vm : Runtime} {w : Accounted} {s t base : State} {a : Action} {previous : Option Job} {job : Job}
  {mode : Durability}

theorem Accounted.observe_engine (w : Accounted) (a : Action) (t : State) : (w.observe vm a t).engine = t := by
  rw [observe]
  split <;> rfl

/-- Without an epoch nothing is different. -/
theorem Settles.stays (h : Settles vm s none base) : base = s := by
  generalize hx : (none : Option (Stats × Retention)) = x at h
  rcases h with _ | _
  · rfl
  · exact absurd hx (by simp)

/-- A volatile commit asks nothing of the writer, so it brings no epoch. -/
theorem published_volatile (h : published vm s a = some (previous, job, .volatile)) :
    adoption vm s a = none ∧ ∀ p ∈ previous, p.id ∈ s.volatileIds := by
  have hrequest : ∀ {op : Op} {env : Environment}, request vm s op env.admits = none →
      adoption vm s (.command op env) = none := by
    intro op env hnone
    simp only [adoption, hnone, Option.map_none]
    split
    case h_1 heq => exact absurd heq (by simp)
    case h_2 => rfl
  unfold published at h
  split at h
  case h_1 e given env =>
    split at h
    case h_1 => exact absurd h (by simp)
    case h_2 hlookup =>
      obtain ⟨c, -, hc⟩ := Option.map_eq_some_iff.mp h
      obtain ⟨rfl, hrest⟩ := Prod.mk.inj hc
      obtain ⟨-, hmode⟩ := Prod.mk.inj hrest
      refine ⟨hrequest ?_, fun p hp ↦ absurd hp (by simp)⟩
      simp only [request, hlookup, commitRequest, hmode]
  case h_2 e env =>
    split at h
    case h_1 => exact absurd h (by simp)
    case h_2 p hlookup =>
      obtain ⟨c, -, hc⟩ := Option.map_eq_some_iff.mp h
      obtain ⟨rfl, hrest⟩ := Prod.mk.inj hc
      obtain ⟨-, hmode⟩ := Prod.mk.inj hrest
      refine ⟨hrequest ?_, fun q hq ↦ ?_⟩
      · simp only [request, hlookup, commitRequest, hmode]
      · obtain rfl := Option.mem_some_iff.mp hq
        by_contra hout
        rw [commitMode, Option.getD_none, durability, if_neg hout] at hmode
        exact Durability.noConfusion hmode
  all_goals exact absurd h (by simp)

/-- The job a persistent commit replaces is named by the message. -/
theorem published_named {p : Job} (hs : Placed s) (h : published vm s a = some (some p, job, mode)) :
    ∃ e env, a = .command (.change e) env ∧ e.jobId = p.id := by
  unfold published at h
  split at h
  case h_1 =>
    split at h
    · exact absurd h (by simp)
    · obtain ⟨c, -, hc⟩ := Option.map_eq_some_iff.mp h
      exact absurd (Prod.mk.inj hc).1 (by simp)
  case h_2 e env =>
    split at h
    case h_1 => exact absurd h (by simp)
    case h_2 q hlookup =>
      obtain ⟨c, -, hc⟩ := Option.map_eq_some_iff.mp h
      obtain rfl := Option.some_inj.mp (Prod.mk.inj hc).1
      exact ⟨e, env, rfl, (hs.lookup_id hlookup).symm⟩
  all_goals exact absurd h (by simp)

/-- The version of a persistent job is still there when a commit on it is finished. -/
theorem lookup_settled {id : JobId} (hs : Placed s) (hkeeps : ∀ x ∈ adoption vm s a, Keeps vm s a x.1.recovered)
    (hprevious : previous = lookup s id) (hout : id ∉ s.volatileIds)
    (hnamed : previous.isSome → ∃ e env, a = .command (.change e) env ∧ e.jobId = id)
    (hbase : Settles vm s (adoption vm s a) base) : previous = lookup base id := by
  rw [(hbase.placed hs).2.1, ← hprevious]
  rcases previous with _ | p
  · rfl
  · have hid : p.id = id := hs.lookup_id hprevious.symm
    have hsurvives : survives s (adoption vm s a) p = true := by
      rcases hx : adoption vm s a with _ | ⟨stats, retention⟩
      · rfl
      · obtain ⟨e, env, ha, heid⟩ := hnamed rfl
        have hpersistent : (persistent s e.jobId).isSome := by
          rw [heid, persistent_of_notMem hout, ← hprevious]
          rfl
        have hsome := (hkeeps _ hx).named e env ha hpersistent
        rw [heid] at hsome
        simp only [survives, expires, hid, if_neg hout]
        simp [Option.isNone_eq_false_iff.mpr hsome]
    rw [Option.filter_some, hsurvives]
    rfl

/-- The version that was known is still there in the state the commit is finished in. -/
theorem Publishes.found (hs : Placed s) (hkeeps : ∀ x ∈ adoption vm s a, Keeps vm s a x.1.recovered)
    (hpublished : published vm s a = some (previous, job, mode)) (h : Publishes vm s a previous job mode t)
    (hbase : Settles vm s (adoption vm s a) base) :
    previous = lookup base job.id ∧ (previous.isSome → (mode = .volatile ↔ job.id ∈ base.volatileIds)) := by
  rcases mode with _ | _
  · have hout := h.persistent rfl
    have hstill := (hbase.placed hs).2.2 _ hout
    refine ⟨lookup_settled hs hkeeps h.known hout (fun hsome ↦ ?_) hbase, fun _ ↦
      ⟨fun hmode ↦ Durability.noConfusion hmode, fun hin ↦ absurd hin hstill⟩⟩
    obtain ⟨p, rfl⟩ := Option.isSome_iff_exists.mp hsome
    obtain ⟨e, env, ha, heid⟩ := published_named hs hpublished
    exact ⟨e, env, ha, heid.trans (hs.lookup_id h.known.symm)⟩
  · obtain ⟨hnone, hvolatile⟩ := published_volatile hpublished
    rw [hnone] at hbase
    obtain rfl := hbase.stays
    refine ⟨h.known, fun hsome ↦ ⟨fun _ ↦ ?_, fun _ ↦ rfl⟩⟩
    obtain ⟨p, rfl⟩ := Option.isSome_iff_exists.mp hsome
    rw [← hs.lookup_id h.known.symm]
    exact hvolatile p rfl

/-- The statistics in which a commit is counted. -/
theorem Accounted.Balanced.carried (h : w.Balanced vm) (hown : OwnEpoch vm w a)
    (hbase : Settles vm w.engine (adoption vm w.engine a) base) :
    Ledger TerminalStats.weight (w.carried vm a).read base.terminalStore := by
  rcases hx : adoption vm w.engine a with _ | ⟨stats, retention⟩
  · rw [hx] at hbase
    obtain rfl := hbase.stays
    rw [Accounted.carried, hx]
    exact h.stats
  · rw [Accounted.carried, hx]
    rw [hx] at hbase
    have hkeeps : Keeps vm w.engine a stats.recovered := hown _ hx
    generalize hy : some (stats, retention) = y at hbase
    rcases hbase with _ | @⟨stats', retention', admits, adopted, online, hadopted⟩
    · exact absurd hy (by simp)
    · obtain ⟨rfl, -⟩ := Prod.mk.inj (Option.some_inj.mp hy)
      obtain ⟨purged, hpurged, hadopted⟩ := bind_eq_ok.mp hadopted
      have hstore := (purge_purged hpurged).terminalStore
      split at hadopted
      case h_1 => exact absurd hadopted (by simp)
      case h_2 =>
        obtain ⟨-, hadopted⟩ := check_bind_eq_ok.mp hadopted
        obtain rfl := Except.ok.inj hadopted
        refine (TerminalStats.ledger_ofJobs stats.recovered.candidate.jobs).congr fun i id ↦ ?_
        have hterminals := hkeeps.terminals h.placed id
        rw [← hstore] at hterminals
        -- the epoch has renumbered the jobs, and that does not count
        have hweight : ∀ j k : Job, j.unnumbered = k.unnumbered →
            TerminalStats.weight i j = TerminalStats.weight i k := by
          intro j k hjk
          have hstate := (CompactionEstimate.unnumbered_fields hjk).2.1
          have hdefinition : j.definition = k.definition := by
            have hfield := congrArg Job.definition hjk
            exact hfield
          rcases i with _ | _ | _ <;> simp only [TerminalStats.weight, hstate, hdefinition]
        show ((purged.terminalStore.filter fun id _ ↦ (stats.recovered.candidate.jobs[id]?).isSome)[id]?).map _ = _
        rcases hjob : (purged.terminalStore.filter fun id _ ↦
          (stats.recovered.candidate.jobs[id]?).isSome)[id]? with _ | j
        · rw [hjob] at hterminals
          rw [Option.map_eq_none_iff.mp hterminals.symm, Option.map_none]
        · rw [hjob] at hterminals
          obtain ⟨k, hk, hkj⟩ := Option.map_eq_some_iff.mp hterminals.symm
          rw [hk, Option.map_some, Option.map_some, hweight j k hkj.symm]

/-- **One message.** -/
theorem Accounted.Balanced.step (hvm : Canonical.Steady vm) (h : w.Balanced vm) (hown : OwnEpoch vm w a)
    (ht : handle vm w.engine a = .ok t) : (w.observe vm a t).Balanced vm := by
  have hs := h.placed
  rcases handle_lands hs ht with ⟨⟨previous, job, mode⟩, hpublished, hpublishes⟩ | ⟨hnone, hrests⟩
  · obtain ⟨base, hbase, henters⟩ : EntersFrom vm w.engine a previous job mode t := by
      rcases handle_enters hvm h.sums ht with ⟨x, hx, henters⟩ | ⟨hnone, -⟩
      · obtain rfl := Option.some_inj.mp (hpublished.symm.trans hx)
        exact henters
      · exact absurd (hpublished.symm.trans hnone) (by simp)
    obtain ⟨hplaced, -, -⟩ := hbase.placed hs
    obtain ⟨hprevious, hmode⟩ := hpublishes.found hs hown hpublished hbase
    have hid : ∀ p ∈ previous, p.id = job.id := fun p hp ↦ hplaced.lookup_id (hprevious ▸ hp)
    have hunknown : previous = none → lookup base job.id = none := fun hnone ↦ by rw [← hprevious, hnone]
    have hstore : ∀ id, t.terminalStore[id]? = _ := fun id ↦ henters.terminalStore ▸
      hplaced.terminalStore_publish mode hid hunknown id
    have hcarried := h.carried hown hbase
    have hfound := hplaced.found hprevious hmode
    have hstats : Ledger TerminalStats.weight (w.observe vm a t).terminalStats.read t.terminalStore := by
      refine hcarried.set hstore fun i ↦ ?_
      rcases mode with _ | _
      · have hobserved : w.observe vm a t = ⟨t, (w.carried vm a).replace previous job⟩ := by
          rw [observe, hpublished]
        rw [hobserved, TerminalStats.read_replace]
        rcases hfound with ⟨-, hfree⟩ | ⟨-, hfree, hstate⟩ | ⟨-, hold, hstate⟩
        · rcases hjob : job.state.terminal with _ | _ <;> simp [gate, terminal?, hjob, hfree]
        · rcases hjob : job.state.terminal with _ | _ <;> simp [gate, terminal?, hjob, hfree, hstate]
        · rcases hjob : job.state.terminal with _ | _ <;> simp [gate, terminal?, hjob, hold, hstate]
      · have hobserved : w.observe vm a t = ⟨t, w.carried vm a⟩ := by rw [observe, hpublished]
        have hfree : base.terminalStore[job.id]? = none := by
          rcases hfound with ⟨-, hfree⟩ | ⟨-, hfree, -⟩
          · exact hfree
          · exact hfree
        rw [hobserved, hfree]
        simp
    refine ⟨?_, ?_, ?_⟩
    · rw [w.observe_engine]
      exact (hpublishes.moves hs).placed
    · rw [w.observe_engine]
      exact (h.sums.settles hvm hs hown hbase).enter hplaced hprevious hmode henters
    · rw [w.observe_engine]
      exact hstats
  · obtain ⟨base, hbase, hsame⟩ :
        ∃ base, Settles vm w.engine (adoption vm w.engine a) base ∧ SameAccounts base t := by
      rcases handle_enters hvm h.sums ht with ⟨x, hx, -⟩ | ⟨-, hbase⟩
      · exact absurd (hnone.symm.trans hx) (by simp)
      · exact hbase
    have hobserved : w.observe vm a t = ⟨t, w.carried vm a⟩ := by rw [observe, hnone]
    rw [hobserved]
    refine ⟨(hrests.quiet hs).placed, (h.sums.settles hvm hs hown hbase).same hsame, ?_⟩
    show Ledger TerminalStats.weight (w.carried vm a).read t.terminalStore
    rw [hsame.terminalStore]
    exact h.carried hown hbase

end Steps

/-! ## Every run -/

/-- What the jobs of a table amount to. -/
def tally (jobs : Table JobId Job) : Accounting := ⟨jobs.size, Table.total chargedBytes jobs⟩

/-- The accounts are those of the jobs that are stored. -/
structure Accounted.Correct (w : Accounted) : Prop where
  active : w.engine.activeBudget = tally w.engine.hot
  budget : w.engine.budget = tally w.engine.hot
  terminal : w.engine.terminalBudget = tally w.engine.terminalStore
  volatileTerminal : w.engine.volatileTerminalBudget =
    tally (w.engine.hot.filter fun id job ↦ id ∈ w.engine.volatileIds && job.state.terminal)
  states : ∀ state, w.terminalStats.states state =
    ((w.engine.terminalStore.filter fun _ job ↦ job.state == state).size : ℤ)
  queues : ∀ queue, (w.terminalStats.queues[queue]?).elim 0 QueueStats.count =
    ((w.engine.terminalStore.filter fun _ job ↦ job.definition.queueKey == queue).size : ℤ)
  queueStates : ∀ queue state, ((w.terminalStats.queues[queue]?).elim 0 fun q ↦ q.states state) =
    ((w.engine.terminalStore.filter fun _ job ↦
      job.definition.queueKey == queue && job.state == state).size : ℤ)

section Runs

variable {vm : Runtime} {w : Accounted} {s base : State} {jobs : Table JobId Job}

theorem tally_of_ledger {b : Accounting} (h : Ledger Amount.weight (Amount.read b) jobs) : b = tally jobs := by
  refine read_injective fun i ↦ (h i).trans ?_
  rcases i with _ | _
  · exact Table.total_one jobs
  · rfl

/-- How many jobs pass a test. -/
theorem size_filter (p : Job → Bool) :
    ((jobs.filter fun _ job ↦ p job).size : ℤ) = Table.total (fun job ↦ if p job then 1 else 0) jobs := by
  rw [← Table.total_one, Table.total_filter]

theorem Accounted.Balanced.correct (h : w.Balanced vm) : w.Correct where
  active := tally_of_ledger h.sums.active
  budget := h.sums.budget.trans (tally_of_ledger h.sums.active)
  terminal := tally_of_ledger h.sums.terminal
  volatileTerminal := by
    -- a finished job that is hot is volatile
    have hfilter : (w.engine.hot.filter fun id job ↦ id ∈ w.engine.volatileIds && job.state.terminal) =
        w.engine.hot.filter fun _ job ↦ job.state.terminal := by
      apply Std.ExtTreeMap.ext_getElem?
      intro id
      rw [Std.ExtTreeMap.getElem?_filter', Std.ExtTreeMap.getElem?_filter']
      rcases hjob : w.engine.hot[id]? with _ | job
      · rfl
      · rcases hstate : job.state.terminal with _ | _
        · simp [Option.filter_some, hstate]
        · simp [Option.filter_some, hstate, h.placed.hotTerminal id job hjob hstate]
    rw [hfilter]
    exact tally_of_ledger (Ledger.filter_iff.mpr h.sums.volatileTerminal)
  states state := by
    rw [size_filter]
    refine (h.stats (.state state)).trans (congrArg (Table.total · _) (funext fun job ↦ ?_))
    simp only [TerminalStats.weight, beq_iff_eq, eq_comm (a := state)]
  queues queue := by
    rw [size_filter]
    refine (h.stats (.queue queue)).trans (congrArg (Table.total · _) (funext fun job ↦ ?_))
    simp only [TerminalStats.weight, beq_iff_eq]
  queueStates queue state := by
    rw [size_filter]
    refine (h.stats (.queueState queue state)).trans (congrArg (Table.total · _) (funext fun job ↦ ?_))
    simp only [TerminalStats.weight, Bool.and_eq_true, beq_iff_eq, ite_and, eq_comm (a := state)]

/-- A generation starts with the sums over what it has recovered. -/
theorem balanced_start (hvm : Canonical.Steady vm) {d : Directory} {config : Config} {r : Reader.Recovered}
    (segment : SegmentView)
    (hr : Reader.recover vm d (candidate config.candidateLimits config.valueLimits) = .ok r) :
    (⟨countInterrupted (init config r segment), .ofJobs r.candidate.jobs⟩ : Accounted).Balanced vm := by
  have hsound := Reader.recover_sound vm (sound_candidate _ _) hr
  obtain ⟨hweighed, hlimits, hvalues⟩ := recover_weighed hvm hr
  have hcharged : ∀ (id : JobId) (job : Job) (p : Job → Bool),
      (r.candidate.jobs.filter fun _ job ↦ p job)[id]? = some job →
        Canonical.Charged vm config.valueLimits config.candidateLimits job := by
    intro id job p hjob
    rw [Std.ExtTreeMap.getElem?_filter'] at hjob
    have hstored := hweighed.charged id job (Option.filter_eq_some_iff.mp hjob).1
    rwa [hlimits, hvalues] at hstored
  have hactive : Ledger Amount.weight (Amount.read (init config r segment).activeBudget)
      (r.candidate.jobs.filter fun _ job ↦ !job.state.terminal) := by
    refine Ledger.filter_iff.mpr (Ledger.opened (fun x v i ↦ ?_) (fun i ↦ ?_) _)
    · rcases hstate : v.state.terminal with _ | _
      · simp [gate, hstate]
      · simp [gate, hstate]
    · rcases i with _ | _ <;> rfl
  refine ⟨placed_start segment hsound, ⟨hactive, rfl, ledger_terminalBudget _, fun i ↦ ?_,
    fun id job ↦ hcharged id job _, fun id job ↦ hcharged id job _⟩, TerminalStats.ledger_ofJobs _⟩
  -- nothing volatile has been inserted yet
  have hzero : Table.total (gate (fun job ↦ job.state.terminal) Amount.weight i)
      (r.candidate.jobs.filter fun _ job ↦ !job.state.terminal) = 0 := by
    rw [Table.total_filter]
    refine List.sum_eq_zero fun y hy ↦ ?_
    obtain ⟨e, -, rfl⟩ := List.mem_map.mp hy
    rcases hstate : e.2.state.terminal with _ | _ <;> simp [gate, hstate]
  refine Eq.trans ?_ hzero.symm
  rcases i with _ | _ <;> rfl

theorem reachable_balanced (hvm : Canonical.Steady vm) (hw : (accounted vm).ReachableUnder (OwnEpoch vm) w) :
    w.Balanced vm := by
  refine Machine.ReachableUnder.invariant (I := Accounted.Balanced vm) ?_ ?_ hw
  · rintro _ ⟨d, config, r, segment, hr, rfl⟩
    exact balanced_start hvm segment hr
  · rintro w a _ hbalanced hown hstep
    obtain ⟨t, ht, rfl⟩ := Option.map_eq_some_iff.mp hstep
    exact hbalanced.step hvm hown (toOption_eq_some.mp ht)

/-- **Every account is that of the stored jobs.** In every state of every run in which the adopted epochs
are the engine's own: over commits on persistent and volatile jobs, retries that bring a finished job back,
purges and adoptions. -/
theorem accounts_correct (hvm : Canonical.Steady vm) (hw : (accounted vm).ReachableUnder (OwnEpoch vm) w) :
    w.Correct := (reachable_balanced hvm hw).correct

/-- Nothing that is left of a commit can fail. -/
structure Finishes (vm : Runtime) (w : Accounted) : Prop where
  /-- A job command whose record is in the log, with the receipt the engine expects. -/
  recorded : ∀ (op : Op) (env : Environment) (payload : Payload) (receipt : Receipt) (base : State),
    op.event?.isSome → OwnEpoch vm w (.command op env) → request vm w.engine op env.admits = some payload →
      appendRecord vm w.engine payload env = .ok (receipt, base) →
        validateReceipt base receipt payload.bytes = .ok () → ∃ out, perform vm w.engine op env = .ok out
  /-- A volatile commit that fits in memory. -/
  volatile : ∀ (previous : Option Job) (e : JobEvent) (env : Environment) (m : Mutation) (payload : Binary)
    (predicted charged : Job) (order : ℕ) (budget : Accounting),
    previous = lookup w.engine e.jobId → (previous.isSome → e.jobId ∈ w.engine.volatileIds) →
      Mutation.fromEvent e previous w.engine.volatileNextAvailabilityOrder = .ok m →
        Codec.encodeMutation m w.engine.config.valueLimits = .ok payload →
          Reducer.applyOne vm previous m w.engine.volatileNextAvailabilityOrder
            w.engine.config.candidateLimits w.engine.config.valueLimits = .ok (predicted, order) →
            accountActive vm w.engine previous predicted .volatile = .ok (charged, budget) →
              env.admits (budget.bytes - w.engine.budget.bytes) →
                ∃ c, commitVolatile vm w.engine previous e env = .ok c

/-- The accounts the engine compares at the end of a commit agree. -/
theorem Sums.enter_ensure {t : State} {previous : Option Job} {job : Job} {mode : Durability} (h : Sums vm base)
    (hs : Placed base) (hprevious : previous = lookup base job.id)
    (hmode : previous.isSome → (mode = .volatile ↔ job.id ∈ base.volatileIds))
    (he : Enters vm base previous job mode t) : ensureActiveAccounting t = .ok t :=
  (h.enter hs hprevious hmode he).ensure

theorem finishCommit_ok {previous : Option Job} {p : Prepared} (e : JobEvent) (receipt : Receipt)
    (h : Sums vm base) (hs : Placed base) (hprevious : previous = lookup base p.job.id)
    (hmode : previous.isSome → p.job.id ∉ base.volatileIds)
    (hjob : Canonical.Charged vm base.config.valueLimits base.config.candidateLimits p.job)
    (hbound : base.budget.bytes - (hotPrevious base previous).elim 0 chargedBytes + chargedBytes p.job ≤
      base.config.candidateLimits.maxBytes) : ∃ c, finishCommit vm base previous e p receipt = .ok c := by
  obtain ⟨budget, hcharged⟩ := accountActive_of_charged .persistent hjob hbound
  have hensure := h.enter_ensure hs hprevious
    (fun hsome ↦ ⟨fun hmode ↦ Durability.noConfusion hmode, fun hin ↦ absurd hin (hmode hsome)⟩)
    (finished_enters e receipt hjob hcharged)
  rw [finishCommit, hcharged, ok_bind]
  dsimp only
  rw [hensure]
  exact ⟨_, rfl⟩

/-- An adoption leaves no more to account for. -/
theorem settles_bytes {a : Action} (hvm : Canonical.Steady vm) (h : Sums vm s) (hs : Placed s)
    (hkeeps : ∀ x ∈ adoption vm s a, Keeps vm s a x.1.recovered) (hbase : Settles vm s (adoption vm s a) base) :
    base.budget.bytes ≤ s.budget.bytes ∧
      ∀ (id : JobId) (p : Job), base.hot[id]? = some p → s.hot[id]? = some p := by
  have hkept : ∀ (id : JobId) (p : Job), base.hot[id]? = some p → s.hot[id]? = some p := by
    intro id p hp
    generalize adoption vm s a = x at hbase
    rcases hbase with _ | @⟨stats, retention, admits, adopted, online, hadopted⟩
    · exact hp
    · have hfilter := (adopt_tables hs hadopted id).1
      rw [show adopted.hot[id]? = some p from hp] at hfilter
      exact (Option.filter_eq_some_iff.mp hfilter.symm).1
  have hbytes : ∀ {u : State}, Sums vm u → u.budget.bytes = Table.total chargedBytes u.hot := fun hu ↦ by
    rw [hu.budget]
    exact hu.active .bytes
  refine ⟨?_, hkept⟩
  rw [hbytes h, hbytes (h.settles hvm hs hkeeps hbase)]
  exact Table.total_le (weight_nonneg .bytes) fun id p hp ↦ ⟨p, hkept id p hp, le_rfl⟩

/-- A command on a job whose record has been written. -/
theorem commit_recorded (hvm : Canonical.Steady vm) (h : w.Balanced vm) {op : Op} {e : JobEvent} {env : Environment}
    {previous : Option Job} {payload : Payload} {receipt : Receipt} (given : Option Durability)
    (hprevious : previous = lookup w.engine e.jobId) (hgiven : previous.isSome → op = .change e ∧ given = none)
    (hown : OwnEpoch vm w (.command op env)) (hrequest : request vm w.engine op env.admits = some payload)
    (hsame : request vm w.engine op env.admits = commitRequest vm w.engine previous e given env.admits)
    (hreply : appendRecord vm w.engine payload env = .ok (receipt, base))
    (hreceipt : validateReceipt base receipt payload.bytes = .ok ()) :
    ∃ c, commit vm w.engine previous e given env = .ok c := by
  have hs := h.placed
  have hbase := appendRecord_settles hrequest hreply
  obtain ⟨hvalues, hlimits⟩ := settles_limits hbase
  rw [hsame, commitRequest] at hrequest
  rcases hmode : commitMode w.engine previous given with _ | _
  · rw [hmode] at hrequest
    rcases hp : prepareV2 vm w.engine previous e with reason | p
    · rw [hp] at hrequest
      exact absurd hrequest (by simp)
    · rw [hp] at hrequest
      dsimp only at hrequest
      split at hrequest
      case isFalse => exact absurd hrequest (by simp)
      case isTrue hadmits =>
        obtain rfl := Option.some_inj.mp hrequest
        have hcharged : ∀ q ∈ previous,
            Canonical.Charged vm w.engine.config.valueLimits w.engine.config.candidateLimits q :=
          fun q hq ↦ h.sums.charged (hprevious ▸ hq)
        obtain ⟨hjob, hbound⟩ := prepared_charged hvm hcharged hp
        have hspec := prepareV2_spec vm hp
        have hid : p.job.id = e.jobId := by
          obtain ⟨job, hdurable, htransition, -⟩ := hspec.transition
          rw [← Job.durable_id, hdurable, Job.durable_id, Reducer.transitionJob_id htransition,
            fromEvent_jobId hspec.mutation]
        have hout : e.jobId ∉ w.engine.volatileIds := by
          rcases hq : previous with _ | q
          · intro hin
            have hhot := hs.volatileHot _ hin
            rw [hq] at hprevious
            rw [(Option.or_eq_none_iff.mp hprevious.symm).1] at hhot
            exact Bool.false_ne_true hhot
          · intro hin
            rw [hq] at hmode hprevious hgiven
            rw [commitMode, (hgiven rfl).2, Option.getD_none, durability, hs.lookup_id hprevious.symm,
              if_pos hin] at hmode
            exact Durability.noConfusion hmode
        have hstill := (hbase.placed hs).2.2 _ hout
        have hknown : previous = lookup base e.jobId := by
          refine lookup_settled hs hown hprevious hout (fun hsome ↦ ?_) hbase
          obtain ⟨rfl, -⟩ := hgiven hsome
          exact ⟨e, env, rfl, rfl⟩
        obtain ⟨hbytes, hkept⟩ := settles_bytes hvm h.sums hs hown hbase
        -- the version that is taken off is the same in both states
        have hwas : hotPrevious base previous = hotPrevious w.engine previous := by
          rcases hq : previous with _ | q
          · rfl
          · rw [hq] at hknown hprevious
            have hqid : q.id = e.jobId := hs.lookup_id hprevious.symm
            show base.hot[q.id]? = w.engine.hot[q.id]?
            rw [hqid]
            rcases hhot : w.engine.hot[e.jobId]? with _ | q'
            · rcases hb : base.hot[e.jobId]? with _ | b
              · rfl
              · rw [hkept _ _ hb] at hhot
                exact absurd hhot (by simp)
            · have hq' : some q = some q' := by
                rw [hprevious, lookup, hhot]
                rfl
              obtain rfl := Option.some_inj.mp hq'
              rcases Option.or_eq_some_iff.mp hknown.symm with hb | ⟨-, hb⟩
              · exact hb
              · have hterminal := (hbase.placed hs).1.terminal _ _ hb
                exact absurd (hs.hotTerminal _ _ hhot hterminal) hout
        obtain ⟨c, hc⟩ := finishCommit_ok e receipt (h.sums.settles hvm hs hown hbase)
          (hbase.placed hs).1 (hid ▸ hknown) (fun _ ↦ hid ▸ hstill) (hvalues ▸ hlimits ▸ hjob) (by
            rw [hwas, hlimits]
            exact le_trans (by omega) hbound)
        refine ⟨c, ?_⟩
        have hcommit : commit vm w.engine previous e given env = commitV2 vm w.engine previous e env := by
          unfold commit
          split
          case h_1 hother => exact absurd (hmode.symm.trans hother) (by simp)
          case h_2 => rfl
        rw [hcommit, commitV2, hp, ok_bind, hadmits, hreply]
        show (validateReceipt base receipt _ >>= fun _ ↦ _) = _
        rw [hreceipt]
        exact hc
  · rw [hmode] at hrequest
    exact absurd hrequest (by simp)

/-- **No account ends the process.** In every state of every run, what is left of a commit once its record
is in the log cannot fail, and neither can a volatile commit for which there is room. -/
theorem accounts_never_exit (hvm : Canonical.Steady vm) (hw : (accounted vm).ReachableUnder (OwnEpoch vm) w) :
    Finishes vm w where
  recorded op env payload receipt base hjob hown hrequest hreply hreceipt := by
    have h := reachable_balanced hvm hw
    rcases op with ⟨e, mode⟩ | e | e
    · rcases hlookup : lookup w.engine e.jobId with _ | p
      · obtain ⟨c, hc⟩ := commit_recorded hvm h (some mode) hlookup.symm (fun hsome ↦ absurd hsome (by simp))
          hown hrequest (by simp [request, hlookup]) hreply hreceipt
        exact ⟨(c.state, c.records), by simp [perform, hlookup, hc]⟩
      · simp [request, hlookup] at hrequest
    · rcases hlookup : lookup w.engine e.jobId with _ | p
      · simp [request, hlookup] at hrequest
      · obtain ⟨c, hc⟩ := commit_recorded hvm h none hlookup.symm (fun _ ↦ ⟨rfl, rfl⟩) hown hrequest
          (by simp [request, hlookup]) hreply hreceipt
        exact ⟨(c.state, c.records), by simp [perform, hlookup, hc]⟩
    · exact absurd hjob (by simp [Op.event?])
  volatile previous e env m payload predicted charged order budget hprevious hvolatile hm hpayload hpredicted
      hcharged hadmits := by
    have h := reachable_balanced hvm hw
    have hjob := applyOne_charged hvm (fun q hq ↦ h.sums.charged (hprevious ▸ hq)) hpredicted
    have hid : charged.id = e.jobId := by
      obtain ⟨job, htransition, hdurable, -⟩ := Reducer.applyOne_eq_ok vm hpredicted
      obtain ⟨ch, hch⟩ := accountActive_charged vm hcharged
      rw [show charged = predicted.charged ch from hch, Job.charged_id, ← Job.durable_id, hdurable, Job.durable_id,
        Reducer.transitionJob_id htransition, fromEvent_jobId hm]
    have hensure := h.sums.enter_ensure h.placed (hid ▸ hprevious)
      (fun hsome ↦ ⟨fun _ ↦ hid ▸ hvolatile hsome, fun _ ↦ rfl⟩)
      (volatile_enters e order (terminalTime charged e.timestamp) hvm hjob hcharged)
    rw [commitVolatile, hm, ok_bind, hpayload, ok_bind, hpredicted, ok_bind, hcharged, ok_bind, hadmits]
    dsimp only
    rw [hensure]
    exact ⟨_, rfl⟩

end Runs

namespace Sample

theorem steady : Canonical.Steady Tay.Sample.runtime := fun _ _ _ _ _ ↦ rfl

/-- An engine on a fresh store. -/
def opened : Accounted := ⟨empty, .ofJobs recovered.candidate.jobs⟩

theorem opened_starts : opened.Starts Tay.Sample.runtime :=
  ⟨⟨Tay.Sample.manifest 0, [⟨1, 1, [], false⟩]⟩, config, recovered, segment, by decide +kernel, rfl⟩

/-- The writer has not published anything by itself. -/
def quiet (w : Accounted) (a : Action) : Bool := (adoption Tay.Sample.runtime w.engine a).isNone

/-- Job 1 is finished and job 2 is volatile and ready. -/
def settled : Option Accounted :=
  ((accounted Tay.Sample.runtime).under fun w a ↦ quiet w a = true).run opened watchedActions

theorem settled_isSome : settled.isSome = true := by decide +kernel

theorem ownEpoch_of_quiet {w : Accounted} {a : Action} (h : quiet w a = true) : OwnEpoch Tay.Sample.runtime w a :=
  fun x hx ↦ absurd (Option.isNone_iff_eq_none.mp h ▸ hx) (by simp)

theorem settled_reachable :
    (accounted Tay.Sample.runtime).ReachableUnder (OwnEpoch Tay.Sample.runtime) (settled.get settled_isSome) :=
  (Machine.reachableUnder_of_run (.initial opened_starts) (Option.some_get settled_isSome).symm).mono
    fun _ _ ↦ ownEpoch_of_quiet

end Sample

theorem accounts_correct_settled : (Sample.settled.get Sample.settled_isSome).Correct :=
  accounts_correct Sample.steady Sample.settled_reachable

theorem accounts_never_exit_settled : Finishes Tay.Sample.runtime (Sample.settled.get Sample.settled_isSome) :=
  accounts_never_exit Sample.steady Sample.settled_reachable

end Tay.Engine
