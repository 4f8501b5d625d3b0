import Tay.Foundation.FixedWindow
import Tay.Foundation.Run
import Tay.Foundation.Table
import Tay.State.Job

/-!
# Execution limits

`Tay.Execution.RateLimiter`: how many starts a queue, or a task, may have in a window of monotonic time.
The engine asks `allowed?` when it looks for a job, and calls `consume` when the start of the job has
been committed, later. Each rule is a counter of its own; a start has to be allowed by the rule of its
queue and by that of its task, and uses up both.
-/

open Foundation

namespace Tay.RateLimiter

/-! ## Policies -/

inductive Kind
  | queues
  | tasks
  deriving DecidableEq, Repr

/-- What a rule is about: a queue or a task. -/
abbrev Key := Kind × Binary

/-- Two tables of rules. -/
def byKind {α : Type} (queues tasks : α) : Kind → α
  | .queues => queues
  | .tasks => tasks

def maxPolicies : ℕ := 1024

theorem toNat_pos {n m : ℤ} (h : 1 ≤ n ∧ n ≤ m) : 0 < n.toNat := by omega

/-- `policy?`, with the policy as it is used. -/
def policy? (limit intervalMs : ℤ) : Option Quota :=
  if h : (1 ≤ limit ∧ limit ≤ 65536) ∧ 1 ≤ intervalMs ∧ intervalMs ≤ 86400000 then
    some ⟨limit.toNat, intervalMs.toNat, toNat_pos h.1, toNat_pos h.2⟩
  else none

/-- `rules?`, with the rules as they are used. -/
def rules? (rules : Table Binary (ℤ × ℤ)) : Option (Table Binary Quota) :=
  if rules.size ≤ maxPolicies ∧
      rules.toList.all (fun r ↦ V2.key? r.1 && (policy? r.2.1 r.2.2).isSome) = true then
    some (rules.filterMap fun _ p ↦ policy? p.1 p.2)
  else none

/-- `normalize`, of rules for queues and for tasks, where there may be none. -/
def normalize (queueRules taskRules : Table Binary (ℤ × ℤ)) (queues : Finset Binary) :
    Option (Kind → Table Binary Quota) :=
  (rules? queueRules).bind fun q ↦ (rules? taskRules).bind fun t ↦
    if ∀ key ∈ q.keys, key ∈ queues then some (byKind q t) else none

/-! ## The limiter -/

structure Limiter where
  policies : Kind → Table Binary Quota
  /-- When the last window was opened, and how many starts it has counted. -/
  windows : Kind → Table Binary (ℤ × ℕ)

def new (policies : Kind → Table Binary Quota) : Limiter := ⟨policies, fun _ ↦ ∅⟩

namespace Limiter

variable (l : Limiter)

def policy (key : Key) : Option Quota := (l.policies key.1)[key.2]?

def window (key : Key) : Option (ℤ × ℕ) := (l.windows key.1)[key.2]?

def put (key : Key) (w : ℤ × ℕ) : Limiter :=
  { l with windows := fun kind ↦
      if kind = key.1 then (l.windows kind).insert key.2 w else l.windows kind }

/-- The rules a start has to meet. -/
def rules (queue task : Binary) : List (Key × Quota) :=
  [(Kind.queues, queue), (Kind.tasks, task)].filterMap fun key ↦ (l.policy key).map fun q ↦ (key, q)

def allowed? (queue task : Binary) (now : ℤ) : Bool :=
  (l.rules queue task).all fun r ↦ r.2.allows (l.window r.1) now

def consume (queue task : Binary) (now : ℤ) : Limiter :=
  (l.rules queue task).foldl (fun acc r ↦ acc.put r.1 (r.2.consume (acc.window r.1) now)) l

variable {l}

@[simp] theorem policy_put (key key' : Key) (w : ℤ × ℕ) :
    (l.put key w).policy key' = l.policy key' := rfl

theorem window_put (key key' : Key) (w : ℤ × ℕ) :
    (l.put key w).window key' = if key = key' then some w else l.window key' := by
  obtain ⟨kind, name⟩ := key
  obtain ⟨kind', name'⟩ := key'
  simp only [window, put, Prod.mk.injEq]
  by_cases hkind : kind' = kind
  · subst hkind
    rw [if_pos rfl, Foundation.Table.get_insert]
    simp only [true_and]
  · rw [if_neg hkind, if_neg fun h ↦ hkind h.1.symm]

theorem mem_rules {queue task : Binary} {key : Key} {q : Quota} :
    (key, q) ∈ l.rules queue task ↔
      (key = (.queues, queue) ∨ key = (.tasks, task)) ∧ l.policy key = some q := by
  simp only [rules, List.mem_filterMap, List.mem_cons, List.not_mem_nil, or_false,
    Option.map_eq_some_iff, Prod.mk.injEq]
  constructor
  · rintro ⟨k, hk, q', hq', rfl, rfl⟩
    exact ⟨hk, hq'⟩
  · rintro ⟨hk, hq⟩
    exact ⟨key, hk, q, hq, rfl, rfl⟩

/-- A start is allowed when the rule of its queue and the rule of its task allow it. -/
theorem allowed?_iff {queue task : Binary} {now : ℤ} : l.allowed? queue task now = true ↔
    ∀ key q, (key = (.queues, queue) ∨ key = (.tasks, task)) → l.policy key = some q →
      q.allows (l.window key) now = true := by
  rw [allowed?, List.all_eq_true]
  exact ⟨fun h key q hkey hq ↦ h (key, q) (mem_rules.mpr ⟨hkey, hq⟩),
    fun h r hr ↦ h r.1 r.2 (mem_rules.mp hr).1 (mem_rules.mp hr).2⟩

/-- What a start does to one counter. -/
def used (key : Key) (queue task : Binary) (now : ℤ) (l : Limiter) : Option (ℤ × ℕ) :=
  if key = (.queues, queue) ∨ key = (.tasks, task) then
    match l.policy key with
    | some q => some (q.consume (l.window key) now)
    | none => l.window key
  else l.window key

/-- The two rules of a start are about different things, so that each is used once. -/
theorem window_consume (queue task : Binary) (now : ℤ) (key : Key) :
    (l.consume queue task now).window key = used key queue task now l := by
  have hne : ((Kind.queues, queue) : Key) ≠ (.tasks, task) := by simp
  unfold consume used rules
  simp only [List.filterMap_cons, List.filterMap_nil]
  cases hq : l.policy (.queues, queue) <;> cases ht : l.policy (.tasks, task) <;>
    simp only [Option.map_some, Option.map_none, List.foldl_cons, List.foldl_nil, window_put]
  all_goals
    by_cases hkey : key = (.queues, queue)
    · subst hkey
      simp [hq]
    · by_cases hkey' : key = (.tasks, task)
      · subst hkey'
        simp [ht]
      · simp [hkey, hkey', Ne.symm hkey, Ne.symm hkey']

theorem policies_consume (queue task : Binary) (now : ℤ) :
    (l.consume queue task now).policies = l.policies := by
  unfold consume
  generalize l.rules queue task = rs
  induction rs generalizing l with
  | nil => rfl
  | cons r rs ih => exact ih

end Limiter

/-! ## Runs of starts -/

/-- A start that was committed. -/
structure Start where
  queue : Binary
  task : Binary
  monotonicMs : ℤ

/-- A start uses the rules of its queue and of its task. -/
def Start.uses (s : Start) (key : Key) : Bool :=
  key = (.queues, s.queue) ∨ key = (.tasks, s.task)

/-- The limiter, the time, and the starts so far, the latest first. -/
structure World where
  limiter : Limiter
  monotonicMs : ℤ
  starts : List Start

/-- A start: when its rules are checked, and when it is committed. -/
structure Label where
  queue : Binary
  task : Binary
  checked : ℤ
  committed : ℤ

/-- Starts one after another, each of which was allowed, by a clock that does not go back. -/
def limiting : Machine World Label where
  initial w := (∃ policies, w.limiter = new policies) ∧ w.starts = []
  step w l :=
    if w.monotonicMs ≤ l.checked ∧ l.checked ≤ l.committed ∧
        w.limiter.allowed? l.queue l.task l.checked = true then
      some { limiter := w.limiter.consume l.queue l.task l.committed
             monotonicMs := l.committed
             starts := ⟨l.queue, l.task, l.committed⟩ :: w.starts }
    else none

/-- When a rule was used. -/
def World.times (w : World) (key : Key) : List ℤ :=
  (w.starts.filter (·.uses key)).map Start.monotonicMs

/-- Every rule has counted its uses, and no window opens ahead of time. -/
def Metered (w : World) : Prop :=
  ∀ key q, w.limiter.policy key = some q →
    q.Counts (w.limiter.window key) (w.times key) ∧
      ∀ start count, w.limiter.window key = some (start, count) → start ≤ w.monotonicMs

variable {w w' : World} {l : Label}

theorem step_eq_some (h : limiting.step w l = some w') :
    w.monotonicMs ≤ l.checked ∧ l.checked ≤ l.committed ∧
      w.limiter.allowed? l.queue l.task l.checked = true ∧
      w' = ⟨w.limiter.consume l.queue l.task l.committed, l.committed,
        ⟨l.queue, l.task, l.committed⟩ :: w.starts⟩ := by
  simp only [limiting] at h
  split at h
  case isTrue hstep =>
    cases h
    exact ⟨hstep.1, hstep.2.1, hstep.2.2, rfl⟩
  case isFalse => cases h

/-- One counter in a step: a rule of the start is used, any other is left alone. -/
theorem step_counter (h : limiting.step w l = some w') {key : Key} {q : Quota}
    (hq : w.limiter.policy key = some q) :
    ((key = (.queues, l.queue) ∨ key = (.tasks, l.task)) ∧
        q.allows (w.limiter.window key) l.checked = true ∧
        w'.limiter.window key = some (q.consume (w.limiter.window key) l.committed) ∧
        w'.times key = l.committed :: w.times key) ∨
      (¬(key = (.queues, l.queue) ∨ key = (.tasks, l.task)) ∧
        w'.limiter.window key = w.limiter.window key ∧ w'.times key = w.times key) := by
  obtain ⟨-, -, hallowed, rfl⟩ := step_eq_some h
  simp only [World.times, List.filter_cons, Start.uses, Limiter.window_consume, Limiter.used, hq]
  by_cases hkey : key = (.queues, l.queue) ∨ key = (.tasks, l.task)
  · refine .inl ⟨hkey, Limiter.allowed?_iff.mp hallowed key q hkey hq, if_pos hkey, ?_⟩
    rw [if_pos (decide_eq_true hkey)]
    rfl
  · refine .inr ⟨hkey, if_neg hkey, ?_⟩
    rw [if_neg (by simpa using hkey)]

theorem policy_step (h : limiting.step w l = some w') (key : Key) :
    w'.limiter.policy key = w.limiter.policy key := by
  obtain ⟨-, -, -, rfl⟩ := step_eq_some h
  rw [Limiter.policy, Limiter.policy, Limiter.policies_consume]

theorem metered_step (hw : Metered w) (h : limiting.step w l = some w') : Metered w' := by
  intro key q hq
  rw [policy_step h] at hq
  obtain ⟨hcounts, hstart⟩ := hw key q hq
  have htime := step_eq_some h
  have hlater : ∀ start count, w.limiter.window key = some (start, count) → start ≤ l.committed :=
    fun start count heq ↦ ((hstart start count heq).trans htime.1).trans htime.2.1
  rcases step_counter h hq with ⟨-, hallows, hwindow, htimes⟩ | ⟨-, hwindow, htimes⟩
  · rw [hwindow, htimes]
    refine ⟨hcounts.consume htime.2.1 hlater hallows, fun start count heq ↦ ?_⟩
    cases heq
    rw [htime.2.2.2]
    exact Quota.consume_start_le hlater
  · rw [hwindow, htimes]
    refine ⟨hcounts, fun start count heq ↦ ?_⟩
    rw [htime.2.2.2]
    exact hlater start count heq

theorem metered_of_reachable (hw : limiting.Reachable w) : Metered w := by
  refine hw.invariant (fun w hinit ↦ ?_) fun w l w' hI hl ↦ metered_step hI hl
  obtain ⟨⟨policies, hlimiter⟩, hstarts⟩ := hinit
  intro key q _
  have hwindow : w.limiter.window key = none := by
    rw [hlimiter]
    exact Std.ExtTreeMap.getElem?_empty
  rw [hwindow, World.times, hstarts]
  exact ⟨.unused, fun _ _ heq ↦ by cases heq⟩

/-- A window that is open stays within the limit of its rule, in whatever comes later. -/
theorem within_run {key : Key} {q : Quota} {start : ℤ} {ls : List Label} : ∀ {w : World}, Metered w →
    w.limiter.policy key = some q → q.Within start (w.limiter.window key) (w.times key) →
    limiting.run w ls = some w' →
    Metered w' ∧ w'.limiter.policy key = some q ∧
      q.Within start (w'.limiter.window key) (w'.times key) := by
  induction ls with
  | nil =>
    intro w hw hq hwithin h
    cases h
    exact ⟨hw, hq, hwithin⟩
  | cons l ls ih =>
    intro w hw hq hwithin h
    rw [Machine.run_cons, Option.bind_eq_some_iff] at h
    obtain ⟨u, hu, hrest⟩ := h
    refine ih (metered_step hw hu) ((policy_step hu key).trans hq) ?_ hrest
    obtain ⟨hcounts, hstart⟩ := hw key q hq
    have htime := step_eq_some hu
    rcases step_counter hu hq with ⟨-, -, hwindow, htimes⟩ | ⟨-, hwindow, htimes⟩
    · rw [hwindow, htimes]
      exact hcounts.within_consume hwithin fun s c heq ↦
        ((hstart s c heq).trans htime.1).trans htime.2.1
    · rw [hwindow, htimes]
      exact hwithin

/-- Starts of other queues and other tasks do not change what is allowed. -/
theorem allowed?_run {queue task : Binary} {ls : List Label} : ∀ {w : World},
    (∀ l ∈ ls, l.queue ≠ queue ∧ l.task ≠ task) → limiting.run w ls = some w' →
    ∀ now, w'.limiter.allowed? queue task now = w.limiter.allowed? queue task now := by
  induction ls with
  | nil =>
    intro w _ h now
    cases h
    rfl
  | cons l ls ih =>
    intro w hothers h now
    rw [Machine.run_cons, Option.bind_eq_some_iff] at h
    obtain ⟨u, hu, hrest⟩ := h
    rw [ih (fun k hk ↦ hothers k (List.mem_cons_of_mem _ hk)) hrest]
    obtain ⟨hqueue, htask⟩ := hothers l List.mem_cons_self
    have hsame : ∀ key : Key, key = (.queues, queue) ∨ key = (.tasks, task) → ∀ q,
        w.limiter.policy key = some q → u.limiter.window key = w.limiter.window key := by
      intro key hkey q hq
      rcases step_counter hu hq with ⟨hmine, -⟩ | ⟨-, hwindow, -⟩
      · rcases hkey with rfl | rfl <;> simp [hqueue.symm, htask.symm] at hmine
      · exact hwindow
    rw [Bool.eq_iff_iff, Limiter.allowed?_iff, Limiter.allowed?_iff]
    simp only [policy_step hu]
    constructor
    · intro hallowed key q hkey hq
      rw [← hsame key hkey q hq]
      exact hallowed key q hkey hq
    · intro hallowed key q hkey hq
      rw [hsame key hkey q hq]
      exact hallowed key q hkey hq

/-- How many starts used a rule in a window that was opened at `start`. -/
def World.counted (w : World) (key : Key) (q : Quota) (start : ℤ) : ℕ :=
  (w.times key).countP fun t ↦ decide (start ≤ t) && decide (t < start + q.interval)

/-- The limits hold: of every window that is open, at all later times; and of every interval as long as a
window, twice over. A start is allowed by both of its rules together, and what is allowed does not depend
on the starts of others. -/
structure Limited (w : World) : Prop where
  windows : ∀ key q start count, w.limiter.policy key = some q →
    w.limiter.window key = some (start, count) → ∀ ls w', limiting.run w ls = some w' →
      w'.counted key q start ≤ q.limit
  intervals : ∀ key q a, w.limiter.policy key = some q → q.during a (w.times key) ≤ 2 * q.limit
  together : ∀ queue task now, w.limiter.allowed? queue task now = true ↔
    ∀ key q, (key = (.queues, queue) ∨ key = (.tasks, task)) → w.limiter.policy key = some q →
      q.allows (w.limiter.window key) now = true
  independent : ∀ queue task ls w', (∀ l ∈ ls, l.queue ≠ queue ∧ l.task ≠ task) →
    limiting.run w ls = some w' →
    ∀ now, w'.limiter.allowed? queue task now = w.limiter.allowed? queue task now

/-- **The limits hold** in every run of starts that were allowed. -/
theorem limits_hold (hw : limiting.Reachable w) : Limited w := by
  have hmetered := metered_of_reachable hw
  refine ⟨fun key q start count hq hopen ls w' hrun ↦ ?_, fun key q a hq ↦ ?_,
    fun queue task now ↦ Limiter.allowed?_iff, fun queue task ls w' hothers hrun ↦
      allowed?_run hothers hrun⟩
  · obtain ⟨hmetered', hq', hwithin⟩ := within_run hmetered hq (.inl ⟨count, hopen⟩) hrun
    exact (hmetered' key q hq').1.within_le hwithin
  · exact (hmetered key q hq).1.during_le a

/-- One start of a task in 50 ms, and two of its queue in 100 ms. -/
def samplePolicies : Kind → Table Binary Quota :=
  (normalize ((∅ : Table Binary (ℤ × ℤ)).insert (text "q") (2, 100))
    ((∅ : Table Binary (ℤ × ℤ)).insert (text "w") (1, 50)) {text "q"}).getD (byKind ∅ ∅)

theorem limits_hold_sample : ∃ w, limiting.Reachable w ∧
    w.times (.queues, text "q") = [-900, -950, -1000] ∧ Limited w := by
  have hrun : (limiting.run ⟨new samplePolicies, -1000, []⟩ [⟨text "q", text "w", -1000, -1000⟩,
      ⟨text "q", text "v", -951, -950⟩, ⟨text "q", text "w", -900, -900⟩]).any (fun w ↦
      w.times (.queues, text "q") == [-900, -950, -1000]) = true := by decide +kernel
  obtain ⟨w, hw, htimes⟩ := (Option.any_eq_true _ _).mp hrun
  have hreachable := Machine.reachable_of_run (M := limiting) ⟨⟨_, rfl⟩, rfl⟩ hw
  exact ⟨w, hreachable, beq_iff_eq.mp htimes, limits_hold hreachable⟩

end Tay.RateLimiter
