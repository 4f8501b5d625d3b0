import Tay.Engine.Placement
import Tay.Foundation.Ledger
import Tay.Storage.Restored

/-!
# The engine's accounts

What its jobs cost the engine keeps in four accounts: of the hot jobs, twice, of the finished persistent
ones, and of the finished volatile ones among the hot. None of them is added up from the jobs again: a
commit takes the old version off and puts the new one on, in the account of the partition each belongs to.
After every commit the process compares the two accounts of the hot jobs, and exits when they differ.

A job is charged for the largest form it can take in its life, so a charge is a matter of the state alone,
and taking off the version that is found takes off what was put on.
-/

open Foundation

namespace Tay.Engine

open V2 Transition ProjectionState OnlineCheckpoint

/-! ## What is counted -/

/-- The items of an account. -/
inductive Amount
  | count
  | bytes
  deriving DecidableEq

def Amount.weight : Amount → Job → ℤ
  | .count, _ => 1
  | .bytes, job => chargedBytes job

def Amount.read (b : Accounting) : Amount → ℤ
  | .count => b.count
  | .bytes => b.bytes

theorem read_injective {b b' : Accounting} (h : ∀ i, Amount.read b i = Amount.read b' i) : b = b' := by
  obtain ⟨count, bytes⟩ := b
  obtain ⟨count', bytes'⟩ := b'
  obtain rfl := h .count
  obtain rfl := h .bytes
  rfl

@[simp] theorem read_addCharge (b : Accounting) (job : Job) (sign : ℤ) (i : Amount) :
    Amount.read (addCharge b job sign) i = Amount.read b i + sign * Amount.weight i job := by
  rcases i with _ | _
  · exact congrArg (b.count + ·) (mul_one sign).symm
  · rfl

theorem weight_nonneg (i : Amount) (job : Job) : 0 ≤ Amount.weight i job := by
  rcases i with _ | _
  · exact Int.one_nonneg
  · show 0 ≤ chargedBytes job
    rw [chargedBytes]
    split
    · exact Int.natCast_nonneg _
    · exact le_rfl

/-! ## Charges -/

section Charges

open Canonical

variable {vm : Runtime} {valueLimits : Value.Limits} {limits : CandidateLimits} {j k : Job}

theorem charged_of {c : Charge} (h : j.charge = some c) : j.charged c = j := by
  obtain ⟨⟩ := j
  exact congrArg _ h.symm

/-- A job that is charged once is charged the same again. -/
theorem charge_self (h : Charged vm valueLimits limits j) : charge vm j valueLimits limits = .ok j := by
  obtain ⟨stats, -, hcharge⟩ := h
  rw [charge, chargeBase, hcharge]
  exact congrArg Except.ok (charged_of hcharge)

/-- What a transition and a renumbering leave alone decides the charge, with the state. -/
theorem charge_same (hvm : Steady vm) (hj : Charged vm valueLimits limits j) (hk : Charged vm valueLimits limits k)
    (hid : j.id = k.id) (hdefinition : j.definition = k.definition) (hcopy : j.definitionBytes = k.definitionBytes)
    (hstate : j.state = k.state) : j.charge = k.charge := by
  obtain ⟨stats, hstats, hj⟩ := hj
  obtain ⟨stats', hstats', hk⟩ := hk
  rw [← hdefinition, hstats] at hstats'
  obtain rfl := Except.ok.inj hstats'
  have hretained : retainedBytes vm j stats.binaryBytes = retainedBytes vm k stats.binaryBytes := by
    rw [retainedBytes, retainedBytes, hvm j k hid hdefinition hcopy, hcopy]
  have hactive : active? (some j) = active? (some k) := by simp only [active?, hstate]
  have hreserve : resultReserve j limits = resultReserve k limits := by
    rw [resultReserve, resultReserve, hactive, hdefinition]
  rw [hj, hk, hretained, hreserve]

/-- The times of a job weigh nothing. -/
theorem charged_at (hvm : Steady vm) (h : Charged vm valueLimits limits j) (time : Option ℕ) :
    Charged vm valueLimits limits { j with terminalAt := time } := by
  obtain ⟨stats, hstats, hcharge⟩ := h
  refine ⟨stats, hstats, hcharge.trans ?_⟩
  have hretained : retainedBytes vm { j with terminalAt := time } stats.binaryBytes =
      retainedBytes vm j stats.binaryBytes := by
    rw [retainedBytes, retainedBytes, hvm { j with terminalAt := time } j rfl rfl rfl]
  rw [hretained]
  rfl

/-- A transition leaves a job charged. -/
theorem applyOne_charged (hvm : Steady vm) {previous : Option Job} {m : Mutation} {nextOrder order : ℕ} {job : Job}
    (hprevious : ∀ p ∈ previous, Charged vm valueLimits limits p)
    (h : Reducer.applyOne vm previous m nextOrder limits valueLimits = .ok (job, order)) :
    Charged vm valueLimits limits job := by
  obtain ⟨next, hnext, h⟩ := bind_eq_ok.mp h
  have hseed : (Reducer.seed previous m nextOrder limits valueLimits).jobs[m.jobId]? = previous := by
    rcases previous with _ | p
    · simp [Reducer.seed, candidate]
    · simp [Reducer.seed]
  have hlimits : (Reducer.seed previous m nextOrder limits valueLimits).limits = limits ∧
      (Reducer.seed previous m nextOrder limits valueLimits).valueLimits = valueLimits := by
    rcases previous with _ | p
    · exact ⟨rfl, rfl⟩
    · exact ⟨rfl, rfl⟩
  rw [Reducer.apply_eq, hseed] at hnext
  obtain ⟨applied, happlied, hnext⟩ := bind_eq_ok.mp hnext
  obtain ⟨put, hput, hnext⟩ := bind_eq_ok.mp hnext
  obtain ⟨base, hbase, hjobs, -, -⟩ := putCandidate_bytes vm hput
  obtain rfl := Except.ok.inj hnext
  rw [hlimits.2] at happlied hbase
  rw [hlimits.1] at hjobs
  have hfound : (Reducer.updateOrder put (previous.bind (·.availabilityOrder)) applied.availabilityOrder
      .mutation).jobs[m.jobId]? = some (applied.charged ⟨base + resultReserve applied limits, base⟩) := by
    show put.jobs[m.jobId]? = _
    rw [hjobs, Foundation.Table.get_insert, if_pos (Reducer.transitionJob_id happlied)]
  rw [hfound] at h
  obtain ⟨rfl, -⟩ := Prod.mk.inj (Except.ok.inj h)
  rcases previous with _ | p
  · exact charged_fresh vm limits (transitionJob_uncharged happlied) hbase
  · obtain ⟨hid, hdefinition, hcopy, hcharge⟩ := transitionJob_kept happlied
    exact (hprevious p rfl).next vm hvm hid hdefinition hcopy hcharge hbase

variable {s : State} {previous : Option Job} {job : Job} {mode : Durability} {r : Job × Accounting}

/-- What `account_active` answers. -/
structure Accounts (vm : Runtime) (s : State) (previous : Option Job) (job : Job) (mode : Durability)
    (r : Job × Accounting) : Prop where
  charge : Transition.charge vm job s.config.valueLimits s.config.candidateLimits = .ok r.1
  amounts : ∀ i, Amount.read r.2 i = Amount.read s.budget i - (hotPrevious s previous).elim 0 (Amount.weight i) +
    if mode == .persistent && r.1.state.terminal then 0 else Amount.weight i r.1
  bound : s.budget.bytes - (hotPrevious s previous).elim 0 chargedBytes + chargedBytes r.1 ≤
    s.config.candidateLimits.maxBytes

/-- A version comes in the place of another one. -/
def entered (b : Accounting) (old : Option Job) (job : Job) : Accounting :=
  ⟨b.count + if old.isSome then 0 else 1, b.bytes - old.elim 0 chargedBytes + chargedBytes job⟩

theorem read_entered (b : Accounting) (old : Option Job) (job : Job) (i : Amount) :
    Amount.read (entered b old job) i = Amount.read b i - old.elim 0 (Amount.weight i) + Amount.weight i job := by
  rcases i with _ | _
  · rcases old with _ | p
    · simp [Amount.read, Amount.weight, entered]
    · simp [Amount.read, Amount.weight, entered]
  · rfl

theorem account_eq {budget : Accounting} {old : Option Job} {charged : Job}
    (h : charge vm job valueLimits limits = .ok charged)
    (hbound : budget.bytes - old.elim 0 chargedBytes + chargedBytes charged ≤ limits.maxBytes) :
    account vm budget valueLimits limits old job = .ok (charged, entered budget old charged) := by
  rcases old with _ | p
  · rw [account, h, ok_bind]
    exact bind_eq_ok.mpr ⟨(), check_of_bound hbound, rfl⟩
  · rw [account, h, ok_bind]
    exact bind_eq_ok.mpr ⟨(), check_of_bound hbound, rfl⟩

theorem account_bound {budget : Accounting} {old : Option Job}
    (h : account vm budget valueLimits limits old job = .ok r) :
    charge vm job valueLimits limits = .ok r.1 ∧
      budget.bytes - old.elim 0 chargedBytes + chargedBytes r.1 ≤ limits.maxBytes := by
  obtain ⟨charged, hcharged, h⟩ := bind_eq_ok.mp h
  obtain ⟨u, hcheck, h⟩ := bind_eq_ok.mp h
  obtain rfl := Except.ok.inj h
  rcases old with _ | p
  · exact ⟨hcharged, check_bound hcheck⟩
  · exact ⟨hcharged, check_bound hcheck⟩

theorem accountActive_accounts (h : accountActive vm s previous job mode = .ok r) :
    Accounts vm s previous job mode r := by
  obtain ⟨⟨charged, budget⟩, hx, h⟩ := bind_eq_ok.mp h
  obtain ⟨hcharged, hbound⟩ := account_bound hx
  rw [account_eq hcharged hbound] at hx
  dsimp only at hx hcharged hbound
  obtain ⟨-, rfl⟩ := Prod.mk.inj (Except.ok.inj hx)
  obtain rfl := Except.ok.inj h
  refine ⟨hcharged, fun i ↦ ?_, hbound⟩
  show Amount.read (if (mode == .persistent && charged.state.terminal) = true then _ else _) i = _ + ite _ _ _
  by_cases hcold : (mode == .persistent && charged.state.terminal) = true
  · rw [if_pos hcold, if_pos hcold, read_addCharge, read_entered]
    dsimp only
    omega
  · rw [if_neg hcold, if_neg hcold, read_entered]

theorem accountActive_of_charged (mode : Durability)
    (hjob : Charged vm s.config.valueLimits s.config.candidateLimits job)
    (hbound : s.budget.bytes - (hotPrevious s previous).elim 0 chargedBytes + chargedBytes job ≤
      s.config.candidateLimits.maxBytes) : ∃ budget, accountActive vm s previous job mode = .ok (job, budget) := by
  rw [accountActive, account_eq (charge_self hjob) hbound]
  exact ⟨_, rfl⟩

end Charges

/-! ## The sums of a state -/

/-- Every account is the sum over the jobs that belong to it, and every job is charged. -/
structure Sums (vm : Runtime) (s : State) : Prop where
  active : Ledger Amount.weight (Amount.read s.activeBudget) s.hot
  budget : s.budget = s.activeBudget
  terminal : Ledger Amount.weight (Amount.read s.terminalBudget) s.terminalStore
  volatileTerminal : Ledger (gate (fun job ↦ job.state.terminal) Amount.weight)
    (Amount.read s.volatileTerminalBudget) s.hot
  hotCharged : ∀ (id : JobId) (job : Job), s.hot[id]? = some job →
    Canonical.Charged vm s.config.valueLimits s.config.candidateLimits job
  terminalCharged : ∀ (id : JobId) (job : Job), s.terminalStore[id]? = some job →
    Canonical.Charged vm s.config.valueLimits s.config.candidateLimits job

section Sums

variable {vm : Runtime} {s t base : State} {previous : Option Job} {job : Job} {mode : Durability}

/-- The two accounts the engine compares agree, and are those of some jobs. -/
theorem Sums.ensure (h : Sums vm s) : ensureActiveAccounting s = .ok s := by
  have hcount : s.activeBudget.count = s.hot.size := (h.active .count).trans (Table.total_one s.hot)
  have hbytes : s.activeBudget.bytes = Table.total chargedBytes s.hot := h.active .bytes
  have hnonneg : 0 ≤ s.activeBudget.bytes := h.active.nonneg (weight_nonneg .bytes)
  have hempty : 0 < s.activeBudget.count ∨ s.activeBudget.bytes = 0 := by
    rcases Nat.eq_zero_or_pos s.hot.size with hzero | hpos
    · refine .inr ?_
      have hnil : s.hot.toList = [] := List.length_eq_zero_iff.mp (by rw [Std.ExtTreeMap.length_toList, hzero])
      rw [hbytes, Table.total, hnil]
      rfl
    · refine .inl ?_
      rw [hcount]
      exact_mod_cast hpos
  have hsize : 0 ≤ s.activeBudget.count := by
    rw [hcount]
    exact Int.natCast_nonneg _
  have hcheck : (decide (0 ≤ s.activeBudget.count) && decide (0 ≤ s.activeBudget.bytes) &&
      (decide (0 < s.activeBudget.count) || s.activeBudget.bytes == 0) && s.activeBudget == s.budget) = true := by
    simpa [hsize, hnonneg, h.budget] using hempty
  rw [ensureActiveAccounting, hcheck]
  rfl

/-- What a commit does to the accounts of the state it is finished in. -/
structure Enters (vm : Runtime) (base : State) (previous : Option Job) (job : Job) (mode : Durability)
    (t : State) : Prop where
  hot : t.hot = (publish base previous job mode).hot
  terminalStore : t.terminalStore = (publish base previous job mode).terminalStore
  volatileIds : t.volatileIds = volatileAfter base job mode
  valueLimits : t.config.valueLimits = base.config.valueLimits
  candidateLimits : t.config.candidateLimits = base.config.candidateLimits
  charged : Canonical.Charged vm base.config.valueLimits base.config.candidateLimits job
  budget : ∀ i, Amount.read t.budget i =
    Amount.read base.budget i - (hotPrevious base previous).elim 0 (Amount.weight i) +
      if mode == .persistent && job.state.terminal then 0 else Amount.weight i job
  active : t.activeBudget = replacePartition base.activeBudget previous job .active mode
  terminal : t.terminalBudget =
    if mode = .persistent then replacePartition base.terminalBudget previous job .terminal .persistent
    else base.terminalBudget
  volatileTerminal : t.volatileTerminalBudget =
    if mode = .volatile then replacePartition base.volatileTerminalBudget previous job .terminal .persistent
    else base.volatileTerminalBudget

theorem read_replacePartition (b : Accounting) (previous : Option Job) (job : Job) (kind : Partition)
    (mode : Durability) (i : Amount) : Amount.read (replacePartition b previous job kind mode) i =
      Amount.read b i - previous.elim 0 (fun p ↦ if partition p mode == kind then Amount.weight i p else 0) +
        if partition job mode == kind then Amount.weight i job else 0 := by
  have hoff : ∀ p : Job, Amount.read (if partition p mode == kind then addCharge b p (-1) else b) i =
      Amount.read b i - if partition p mode == kind then Amount.weight i p else 0 := by
    intro p
    split
    · rw [read_addCharge]
      omega
    · exact (sub_zero _).symm
  have hon : ∀ b : Accounting, Amount.read (if partition job mode == kind then addCharge b job 1 else b) i =
      Amount.read b i + if partition job mode == kind then Amount.weight i job else 0 := by
    intro b
    split
    · rw [read_addCharge, one_mul]
    · exact (add_zero _).symm
  rcases previous with _ | p
  · simp only [replacePartition, hon, Option.elim_none, sub_zero]
  · simp only [replacePartition, hon, hoff, Option.elim_some]

/-- Where the version of before is found. -/
inductive Found (base : State) (id : JobId) : Option Job → Durability → Prop
  | unknown {mode : Durability} : base.hot[id]? = none → base.terminalStore[id]? = none → Found base id none mode
  | hot {p : Job} {mode : Durability} : base.hot[id]? = some p → base.terminalStore[id]? = none →
      (mode = .persistent → p.state.terminal = false) → Found base id (some p) mode
  | stored {p : Job} : base.hot[id]? = none → base.terminalStore[id]? = some p → p.state.terminal = true →
      Found base id (some p) .persistent

theorem Placed.found (hs : Placed base) {id : JobId} (hprevious : previous = lookup base id)
    (hmode : previous.isSome → (mode = .volatile ↔ id ∈ base.volatileIds)) : Found base id previous mode := by
  subst hprevious
  rcases hhot : base.hot[id]? with _ | p
  · rcases hstored : base.terminalStore[id]? with _ | p
    · rw [lookup, hhot, hstored]
      exact .unknown hhot hstored
    · have hlookup : lookup base id = some p := by rw [lookup, hhot, hstored]; rfl
      rw [hlookup] at hmode ⊢
      rcases mode with _ | _
      · exact .stored hhot hstored (hs.terminal id p hstored)
      · have hvolatile := hs.volatileHot id ((hmode rfl).mp rfl)
        rw [hhot] at hvolatile
        exact absurd hvolatile Bool.false_ne_true
  · have hlookup : lookup base id = some p := by rw [lookup, hhot]; rfl
    rw [hlookup] at hmode ⊢
    refine .hot hhot (hs.lookup_hot hhot) fun hpersistent ↦ ?_
    by_contra hterminal
    have hin := hs.hotTerminal id p hhot (Bool.not_eq_false _ ▸ hterminal)
    rw [(hmode rfl).mpr hin] at hpersistent
    exact Durability.noConfusion hpersistent

/-- **The commit.** Every account follows the job to where it goes. -/
theorem Sums.enter (h : Sums vm base) (hs : Placed base) (hprevious : previous = lookup base job.id)
    (hmode : previous.isSome → (mode = .volatile ↔ job.id ∈ base.volatileIds))
    (he : Enters vm base previous job mode t) : Sums vm t := by
  have hid : ∀ p ∈ previous, p.id = job.id := fun p hp ↦ hs.lookup_id (hprevious ▸ hp)
  have hunknown : previous = none → lookup base job.id = none := fun hnone ↦ by rw [← hprevious, hnone]
  have hwas := hotPrevious_of_id hid hunknown
  have hhot : ∀ id, t.hot[id]? = _ := fun id ↦ he.hot ▸ hot_publish hs.hotKeyed hwas id
  have hstore : ∀ id, t.terminalStore[id]? = _ := fun id ↦ he.terminalStore ▸
    hs.terminalStore_publish mode hid hunknown id
  have hfound := hs.found hprevious hmode
  have hactive : ∀ i, Amount.read t.activeBudget i =
      Amount.read base.activeBudget i - (base.hot[job.id]?).elim 0 (Amount.weight i) +
        (if mode == .persistent && terminal? (some job) then none else some job).elim 0 (Amount.weight i) := by
    intro i
    rw [he.active, read_replacePartition]
    rcases hfound with ⟨hnone, -⟩ | ⟨hold, -, hstate⟩ | ⟨hnone, -, hstate⟩
    · rcases mode with _ | _ <;> rcases hjob : job.state.terminal with _ | _ <;>
        simp [partition, terminal?, hjob, hnone]
    · rcases mode with _ | _
      · rcases hjob : job.state.terminal with _ | _ <;> simp [partition, terminal?, hjob, hold, hstate]
      · simp [partition, hold]
    · rcases hjob : job.state.terminal with _ | _ <;> simp [partition, terminal?, hjob, hnone, hstate]
  have hbudget : t.budget = t.activeBudget := by
    refine read_injective fun i ↦ ?_
    rw [he.budget, hactive, hwas, h.budget]
    rcases mode with _ | _ <;> rcases hjob : job.state.terminal with _ | _ <;> simp [terminal?, hjob]
  exact {
    active := h.active.set hhot hactive
    budget := hbudget
    terminal := by
      refine h.terminal.set hstore fun i ↦ ?_
      rw [he.terminal]
      rcases hfound with ⟨-, hnone⟩ | ⟨-, hnone, hstate⟩ | ⟨-, hold, hstate⟩
      · rcases mode with _ | _ <;> rcases hjob : job.state.terminal with _ | _ <;>
          simp [read_replacePartition, partition, terminal?, hjob, hnone]
      · rcases mode with _ | _ <;> rcases hjob : job.state.terminal with _ | _ <;>
          simp [read_replacePartition, partition, terminal?, hjob, hnone, hstate]
      · rcases hjob : job.state.terminal with _ | _ <;>
          simp [read_replacePartition, partition, terminal?, hjob, hold, hstate]
    volatileTerminal := by
      refine h.volatileTerminal.set hhot fun i ↦ ?_
      rw [he.volatileTerminal]
      rcases hfound with ⟨hnone, -⟩ | @⟨p, _, hold, -, hstate⟩ | ⟨hnone, -, hstate⟩
      · rcases mode with _ | _ <;> rcases hjob : job.state.terminal with _ | _ <;>
          simp [read_replacePartition, partition, terminal?, gate, hjob, hnone]
      · rcases mode with _ | _
        · rcases hjob : job.state.terminal with _ | _ <;> simp [terminal?, gate, hjob, hold, hstate]
        · rcases hjob : job.state.terminal with _ | _ <;> rcases hp : p.state.terminal with _ | _ <;>
            simp [read_replacePartition, partition, gate, hjob, hold, hp]
      · rcases hjob : job.state.terminal with _ | _ <;> simp [terminal?, gate, hjob, hnone]
    hotCharged := by
      intro id k hk
      rw [he.valueLimits, he.candidateLimits]
      rw [hhot] at hk
      split at hk
      · split at hk
        · exact absurd hk (by simp)
        · obtain rfl := Option.some_inj.mp hk
          exact he.charged
      · exact h.hotCharged id k hk
    terminalCharged := by
      intro id k hk
      rw [he.valueLimits, he.candidateLimits]
      rw [hstore] at hk
      split at hk
      · split at hk
        · obtain rfl := Option.some_inj.mp hk
          exact he.charged
        · exact absurd hk (by simp)
      · exact h.terminalCharged id k hk }

end Sums

end Tay.Engine
