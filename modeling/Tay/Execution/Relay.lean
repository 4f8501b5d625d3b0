import Tay.Engine.Execution
import Tay.Foundation.Run

/-!
# The relay of an execution

`Tay.Execution.Relay`: the process between the task that runs a job and the engine that settles it. A
result, the death of the task, a deadline, a settlement and a revocation reach it as messages, in any
order, and some of them lie in its mailbox while another is handled. What it tells the engine about the
execution it chooses once: `chosen` is set by the first message that decides anything, and nothing is
reported after that.
-/

open Foundation

namespace Tay.Relay

/-! ## The process -/

/-- What the relay is started with, and the processes and references it starts with. -/
structure Options where
  engine : ℕ
  guardian : ℕ
  tasks : ℕ
  generation : ℕ
  timeoutMs : ℕ
  ticket : ℕ
  task : ℕ
  taskMonitor : ℕ
  ownerMonitors : List ℕ
  deriving DecidableEq, Repr

inductive Chosen
  | outcome (o : Normalized)
  | fenced
  | infrastructureLost
  deriving DecidableEq, Repr

structure State where
  options : Options
  execution : Option ℤ
  deadline : Option ℤ
  timer : Option ℕ
  chosen : Option Chosen
  dead : Bool
  settled : Bool
  deriving DecidableEq, Repr

/-- The state `init` returns. -/
def State.init (options : Options) : State where
  options := options
  execution := none
  deadline := none
  timer := none
  chosen := none
  dead := false
  settled := false

/-- What arrives: calls with their caller, and messages. A result is `none` where the task sent a term
that is no outcome at all. -/
inductive Message
  | identity
  | revoke
  | release (caller ticket : ℕ) (execution : ℤ)
  | settled (caller ticket : ℕ)
  | terminateTask (caller ticket : ℕ)
  | invalidated (task ticket : ℕ)
  | result (task ticket : ℕ) (execution : ℤ) (outcome : Option Normalized)
  | timeout (ticket : ℕ)
  | down (ref pid : ℕ)
  | other (call : Bool)
  deriving DecidableEq, Repr

/-- What the relay learns while it handles a message: the clock, the reference of a timer it starts, and
what it is told about the engine, the guardian and the supervisor of its task. -/
structure Env where
  monotonicMs : ℤ
  timer : ℕ
  live : Bool
  infrastructureLive : Bool
  deathConfirmed : Bool
  deriving DecidableEq, Repr

/-- What the engine is told of the execution. -/
inductive Notice
  | outcome (o : Normalized)
  | dead
  deriving DecidableEq, Repr

inductive Refusal
  | alreadyReleased
  | taskDead
  | generationRevoked
  | invalidExecutionRequest
  deriving DecidableEq, Repr

inductive Reply
  | ok
  | identity (task ticket : ℕ)
  | error (refusal : Refusal)
  deriving DecidableEq, Repr

inductive Stop
  | normal
  | generationRevoked
  deriving DecidableEq, Repr

/-- What handling one message comes to. -/
structure Handled where
  state : State
  reply : Option Reply := none
  /-- What is sent to the engine. -/
  notices : List Notice := []
  /-- The execution and the deadline that are sent to the task. -/
  released : Option (ℤ × ℤ) := none
  /-- The task is told to exit. -/
  killed : Bool := false
  stop : Option Stop := none

def validOutcome? : Option Normalized → Bool
  | some .success => true
  | some (.failure code) => [1, 2, 3, 4, 6].contains code
  | _ => false

def expired? (s : State) (e : Env) : Bool := s.deadline.any fun deadline ↦ deadline ≤ e.monotonicMs

/-- `choose`: the engine is told, and the choice is kept. -/
def choose (s : State) (o : Normalized) : State × List Notice :=
  ({ s with chosen := some (.outcome o), timer := none }, [.outcome o])

/-- Where everything is settled, the relay lasts as long as its task. -/
def stopIfDead (s : State) : Option Stop := if s.dead then some .normal else none

/-- `confirmed_down`: the guardian has to strike the task off before the engine hears of it. -/
def confirmedDown (s : State) (observed : Normalized) (e : Env) : Handled :=
  if e.deathConfirmed then
    let chosen := if s.execution.isSome && s.chosen.isNone then choose s observed else (s, [])
    { state := chosen.1
      notices := chosen.2 ++ [.dead]
      stop := if chosen.1.settled then some .normal else none }
  else { state := { s with chosen := some .infrastructureLost }, stop := some .generationRevoked }

/-- The task was released before: the timer and the deadline start now. -/
def released (s : State) (execution : ℤ) (e : Env) : Handled :=
  if s.execution.isSome || s.settled then { state := s, reply := some (.error .alreadyReleased) }
  else if s.dead then { state := s, reply := some (.error .taskDead) }
  else if e.live then
    let deadline := e.monotonicMs + s.options.timeoutMs
    { state := { s with
        execution := some execution, deadline := some deadline, timer := some e.timer }
      reply := some .ok
      released := some (execution, deadline) }
  else { state := s, reply := some (.error .generationRevoked) }

/-- `:settled` and `:terminate_task`: nothing more is to be reported. -/
def fenced (s : State) : Handled :=
  let next := { s with settled := true, chosen := s.chosen <|> some .fenced }
  { state := next, reply := some .ok, killed := !s.dead, stop := stopIfDead s }

/-- The task is gone. -/
def taskDown (s : State) (e : Env) : Handled :=
  let next := { s with dead := true }
  let observed := if s.execution.isSome && expired? s e then .timeout else .failure 4
  if s.execution.isSome && s.chosen.isNone && !e.infrastructureLive then
    { state := { next with chosen := some .infrastructureLost }, stop := some .generationRevoked }
  else confirmedDown next observed e

def handle (s : State) (e : Env) : Message → Handled
  | .identity => { state := s, reply := some (.identity s.options.task s.options.ticket) }
  | .revoke =>
    { state := { s with settled := true, chosen := some .infrastructureLost }
      reply := some .ok
      killed := !s.dead
      stop := stopIfDead s }
  | .release caller ticket execution =>
    if ticket = s.options.ticket ∧ caller = s.options.engine ∧ 0 < execution then
      released s execution e
    else { state := s, reply := some (.error .invalidExecutionRequest) }
  | .settled caller ticket | .terminateTask caller ticket =>
    if ticket = s.options.ticket ∧ caller = s.options.engine then fenced s
    else { state := s, reply := some (.error .invalidExecutionRequest) }
  | .invalidated task ticket =>
    if task = s.options.task ∧ ticket = s.options.ticket then
      { state := { s with chosen := some .infrastructureLost }, stop := some .generationRevoked }
    else { state := s }
  | .result task ticket execution outcome =>
    if task = s.options.task ∧ ticket = s.options.ticket ∧ s.execution = some execution then
      if s.chosen.isNone && validOutcome? outcome then
        let chosen := choose s (if expired? s e then .timeout else outcome.getD .timeout)
        { state := chosen.1, notices := chosen.2 }
      else { state := s }
    else { state := s }
  | .timeout ticket =>
    if ticket = s.options.ticket ∧ s.chosen = none ∧ s.execution.isSome then
      if expired? s e then
        let chosen := choose s .timeout
        { state := chosen.1, notices := chosen.2 }
      else { state := { s with timer := some e.timer } }
    else { state := s }
  | .down ref pid =>
    if ref = s.options.taskMonitor ∧ pid = s.options.task then taskDown s e
    else if ref ∈ s.options.ownerMonitors then
      { state := { s with settled := true, chosen := some .infrastructureLost }
        killed := !s.dead
        stop := stopIfDead s }
    else { state := s }
  | .other call =>
    { state := s, reply := if call then some (.error .invalidExecutionRequest) else none }

/-! ## One message -/

/-- The outcomes among what the engine is told. -/
def outcomes (notices : List Notice) : List Normalized :=
  notices.filterMap fun n ↦
    match n with
    | .outcome o => some o
    | .dead => none

theorem outcomes_append (xs ys : List Notice) : outcomes (xs ++ ys) = outcomes xs ++ outcomes ys :=
  List.filterMap_append

/-- What a message can do: report nothing and take back nothing, or report the first outcome of an
execution for which nothing was chosen. -/
inductive Handles (s : State) (e : Env) (h : Handled) : Prop
  | quiet : outcomes h.notices = [] → (s.chosen.isSome → h.state.chosen.isSome) →
      (s.settled = true → h.state.settled = true) →
      (h.state.settled = true → s.settled = true ∨ h.state.chosen.isSome) → Handles s e h
  | reports (o : Normalized) : outcomes h.notices = [o] → s.chosen = none →
      (expired? s e = true → o = .timeout) → h.state.chosen.isSome → h.state.settled = s.settled →
      Handles s e h

section Handling

variable {s : State} {e : Env} {h : Handled}

/-- Nothing happens to the state. -/
theorem Handles.same (hstate : h.state = s) (hnotices : outcomes h.notices = []) : Handles s e h :=
  .quiet hnotices (fun hc ↦ hstate ▸ hc) (fun hs ↦ hstate ▸ hs) fun hs ↦ .inl (hstate ▸ hs)

/-- Something is chosen that is not reported. -/
theorem Handles.chosen (hchosen : h.state.chosen.isSome) (hnotices : outcomes h.notices = [])
    (hsettled : s.settled = true → h.state.settled = true) : Handles s e h :=
  .quiet hnotices (fun _ ↦ hchosen) hsettled fun _ ↦ .inr hchosen

theorem released_handles (execution : ℤ) : Handles s e (released s execution e) := by
  unfold released
  split
  · exact .same rfl rfl
  · split
    · exact .same rfl rfl
    · split
      · exact .quiet rfl id id .inl
      · exact .same rfl rfl

theorem fenced_handles : Handles s e (fenced s) := by
  refine .chosen ?_ rfl fun _ ↦ rfl
  cases hchosen : s.chosen <;> simp [fenced, hchosen]

/-- The death of a task is reported as an outcome only where nothing is chosen. -/
theorem taskDown_handles : Handles s e (taskDown s e) := by
  unfold taskDown
  simp only
  split
  case isTrue => exact .chosen rfl rfl id
  case isFalse =>
    unfold confirmedDown
    split
    case isFalse => exact .chosen rfl rfl id
    case isTrue =>
      simp only
      split
      case isFalse => exact .quiet rfl id id .inl
      case isTrue hnone =>
        rw [Bool.and_eq_true] at hnone
        refine .reports _ rfl (Option.isNone_iff_eq_none.mp hnone.2) (fun hexpired ↦ ?_) rfl rfl
        rw [hnone.1, hexpired]
        rfl

/-- **One message.** -/
theorem handle_handles (m : Message) : Handles s e (handle s e m) := by
  unfold handle
  split
  case h_1 => exact .same rfl rfl
  case h_2 => exact .chosen rfl rfl fun _ ↦ rfl
  case h_3 =>
    split
    · exact released_handles _
    · exact .same rfl rfl
  case h_4 | h_5 =>
    split
    · exact fenced_handles
    · exact .same rfl rfl
  case h_6 =>
    split
    · exact .chosen rfl rfl id
    · exact .same rfl rfl
  case h_7 =>
    split
    case isFalse => exact .same rfl rfl
    case isTrue =>
      split
      case isFalse => exact .same rfl rfl
      case isTrue hnone =>
        rw [Bool.and_eq_true] at hnone
        exact .reports _ rfl (Option.isNone_iff_eq_none.mp hnone.1) (fun hexpired ↦ if_pos hexpired)
          rfl rfl
  case h_8 =>
    split
    case isFalse => exact .same rfl rfl
    case isTrue hnone =>
      split
      · exact .reports _ rfl hnone.2.1 (fun _ ↦ rfl) rfl rfl
      · exact .quiet rfl id id .inl
  case h_9 =>
    split
    · exact taskDown_handles
    · split
      · exact .chosen rfl rfl fun _ ↦ rfl
      · exact .same rfl rfl
  case h_10 => exact .same rfl rfl

end Handling

/-! ## Runs -/

/-- The relay with its mailbox, the time, and what the engine has been told. -/
structure World where
  relay : State
  /-- What has arrived, and when. -/
  mailbox : List (Message × ℤ)
  monotonicMs : ℤ
  sent : List Notice
  stopped : Bool

/-- A message arrives, or the next one is handled. -/
inductive Label
  | arrive (m : Message) (monotonicMs : ℤ)
  | handle (e : Env)

/-- Messages arrive in any order and at any time, and are handled in the order in which they arrive, by
a clock that does not go back. -/
def relaying : Machine World Label where
  initial w := (∃ options, w.relay = .init options) ∧ w.mailbox = [] ∧ w.sent = [] ∧ w.stopped = false
  step w
    | .arrive m monotonicMs =>
      if w.monotonicMs ≤ monotonicMs then
        some { w with mailbox := w.mailbox ++ [(m, monotonicMs)], monotonicMs := monotonicMs }
      else none
    | .handle e =>
      match w.mailbox with
      | [] => none
      | (m, _) :: rest =>
        if w.stopped = false ∧ w.monotonicMs ≤ e.monotonicMs then
          let h := handle w.relay e m
          some { relay := h.state
                 mailbox := rest
                 monotonicMs := e.monotonicMs
                 sent := w.sent ++ h.notices
                 stopped := h.stop.isSome }
        else none

/-- At most one outcome has been reported, and none while nothing is chosen; then nothing is settled
either. What lies in the mailbox has arrived. -/
structure Reported (w : World) : Prop where
  once : (outcomes w.sent).length ≤ 1
  undecided : w.relay.chosen = none → outcomes w.sent = [] ∧ w.relay.settled = false
  arrived : ∀ p ∈ w.mailbox, p.2 ≤ w.monotonicMs

variable {w w' : World} {e : Env}

/-- Handling takes the first message of the mailbox. -/
theorem handle_eq_some {m : Message} {arrived : ℤ} {rest : List (Message × ℤ)}
    (hmailbox : w.mailbox = (m, arrived) :: rest) (h : relaying.step w (.handle e) = some w') :
    w.monotonicMs ≤ e.monotonicMs ∧ w'.relay = (handle w.relay e m).state ∧
      w'.sent = w.sent ++ (handle w.relay e m).notices ∧ w'.mailbox = rest ∧
      w'.monotonicMs = e.monotonicMs := by
  simp only [relaying, hmailbox] at h
  split at h
  case isTrue htime =>
    cases h
    exact ⟨htime.2, rfl, rfl, rfl, rfl⟩
  case isFalse => cases h

theorem arrive_eq_some {m : Message} {t : ℤ} (h : relaying.step w (.arrive m t) = some w') :
    w.monotonicMs ≤ t ∧
      w' = { w with mailbox := w.mailbox ++ [(m, t)], monotonicMs := t } := by
  simp only [relaying] at h
  split at h
  case isTrue htime =>
    cases h
    exact ⟨htime, rfl⟩
  case isFalse => cases h

/-- A step that handles something takes it from the mailbox. -/
theorem mailbox_of_handle (h : relaying.step w (.handle e) = some w') :
    ∃ m arrived rest, w.mailbox = (m, arrived) :: rest := by
  cases hmailbox : w.mailbox with
  | nil =>
    simp only [relaying, hmailbox] at h
    cases h
  | cons p rest => exact ⟨p.1, p.2, rest, rfl⟩

theorem reported_step {l : Label} (hw : Reported w) (h : relaying.step w l = some w') :
    Reported w' := by
  cases l with
  | arrive m t =>
    obtain ⟨htime, rfl⟩ := arrive_eq_some h
    refine ⟨hw.once, hw.undecided, fun p hp ↦ ?_⟩
    rcases List.mem_append.mp hp with hp | hp
    · exact (hw.arrived p hp).trans htime
    · rw [List.mem_singleton.mp hp]
  | handle e =>
    obtain ⟨m, arrived, rest, hmailbox⟩ := mailbox_of_handle h
    obtain ⟨htime, hrelay, hsent, hrest, hclock⟩ := handle_eq_some hmailbox h
    have harrived : ∀ p ∈ w'.mailbox, p.2 ≤ w'.monotonicMs := by
      intro p hp
      rw [hrest] at hp
      have := hw.arrived p (hmailbox ▸ List.mem_cons_of_mem _ hp)
      omega
    cases handle_handles (s := w.relay) (e := e) m with
    | quiet hquiet hchosen _ hsettled =>
      have hsame : outcomes w'.sent = outcomes w.sent := by
        rw [hsent, outcomes_append, hquiet, List.append_nil]
      refine ⟨hsame ▸ hw.once, fun hundecided ↦ ?_, harrived⟩
      rw [hrelay] at hundecided ⊢
      have hbefore : w.relay.chosen = none := by
        by_contra hsome
        have := hchosen (Option.isSome_iff_ne_none.mpr hsome)
        rw [hundecided] at this
        cases this
      obtain ⟨hempty, hopen⟩ := hw.undecided hbefore
      refine ⟨hsame ▸ hempty, Bool.eq_false_iff.mpr fun htrue ↦ ?_⟩
      rcases hsettled htrue with hsettled | hsome
      · rw [hopen] at hsettled
        cases hsettled
      · rw [hundecided] at hsome
        cases hsome
    | reports o hreport hbefore _ hafter _ =>
      have hone : outcomes w'.sent = [o] := by
        rw [hsent, outcomes_append, hreport, (hw.undecided hbefore).1, List.nil_append]
      refine ⟨by rw [hone, List.length_singleton], fun hundecided ↦ ?_, harrived⟩
      rw [hrelay] at hundecided
      rw [hundecided] at hafter
      cases hafter

theorem reported_of_reachable (hw : relaying.Reachable w) : Reported w := by
  refine hw.invariant (fun w hinit ↦ ?_) fun w l w' hI hl ↦ reported_step hI hl
  obtain ⟨⟨options, hrelay⟩, hmailbox, hsent, -⟩ := hinit
  refine ⟨by simp [hsent, outcomes], fun _ ↦ ⟨by simp [hsent, outcomes], by rw [hrelay]; rfl⟩, ?_⟩
  simp [hmailbox]

/-- What was settled stays so, and nothing is reported any more. -/
theorem settled_run {ls : List Label} : ∀ {w : World}, Reported w → w.relay.settled = true →
    relaying.run w ls = some w' → outcomes w'.sent = outcomes w.sent := by
  induction ls with
  | nil =>
    intro w _ _ h
    cases h
    rfl
  | cons l ls ih =>
    intro w hw hsettled h
    rw [Machine.run_cons, Option.bind_eq_some_iff] at h
    obtain ⟨u, hu, hrest⟩ := h
    have hkept : u.relay.settled = true ∧ outcomes u.sent = outcomes w.sent := by
      cases l with
      | arrive m t =>
        obtain ⟨-, rfl⟩ := arrive_eq_some hu
        exact ⟨hsettled, rfl⟩
      | handle e =>
        obtain ⟨m, arrived, rest, hmailbox⟩ := mailbox_of_handle hu
        obtain ⟨-, hrelay, hsent, -⟩ := handle_eq_some hmailbox hu
        rw [hrelay, hsent, outcomes_append]
        cases handle_handles (s := w.relay) (e := e) m with
        | quiet hquiet _ hkeeps _ => exact ⟨hkeeps hsettled, by rw [hquiet, List.append_nil]⟩
        | reports o _ hbefore _ _ _ =>
          rw [(hw.undecided hbefore).2] at hsettled
          cases hsettled
    rw [ih (reported_step hw hu) hkept.1 hrest, hkept.2]

/-- A message that ends the relay's part: a revocation, or the engine's word that the execution is
settled or to be given up. -/
def Closes (s : State) (m : Message) : Prop :=
  m = .revoke ∨ ∃ caller ticket, (m = .settled caller ticket ∨ m = .terminateTask caller ticket) ∧
    ticket = s.options.ticket ∧ caller = s.options.engine

theorem handle_closes {s : State} {m : Message} (h : Closes s m) :
    (handle s e m).state.settled = true ∧ (handle s e m).notices = [] := by
  rcases h with rfl | ⟨caller, ticket, rfl | rfl, hticket, hcaller⟩
  · exact ⟨rfl, rfl⟩
  · simp only [handle, hticket, hcaller, and_self, if_true]
    exact ⟨rfl, rfl⟩
  · simp only [handle, hticket, hcaller, and_self, if_true]
    exact ⟨rfl, rfl⟩

/-- The result decides: it is an outcome of the execution that was released, and nothing is chosen. -/
def Decides (s : State) (task ticket : ℕ) (execution : ℤ) (outcome : Option Normalized) : Prop :=
  task = s.options.task ∧ ticket = s.options.ticket ∧ s.execution = some execution ∧
    s.chosen = none ∧ validOutcome? outcome = true

instance (s : State) (task ticket : ℕ) (execution : ℤ) (outcome : Option Normalized) :
    Decidable (Decides s task ticket execution outcome) :=
  inferInstanceAs (Decidable (_ ∧ _))

/-- A result that is late is reported as a timeout, if it is reported. -/
theorem handle_late {s : State} {task ticket : ℕ} {execution deadline : ℤ}
    {outcome : Option Normalized} (hdeadline : s.deadline = some deadline)
    (hlate : deadline ≤ e.monotonicMs) :
    outcomes (handle s e (.result task ticket execution outcome)).notices =
      if Decides s task ticket execution outcome then [.timeout] else [] := by
  have hexpired : expired? s e = true := by simp [expired?, hdeadline, hlate]
  simp only [handle]
  split
  case isFalse hother => rw [if_neg fun h ↦ hother ⟨h.1, h.2.1, h.2.2.1⟩]; rfl
  case isTrue hmine =>
    split
    case isTrue hopen =>
      rw [Bool.and_eq_true, Option.isNone_iff_eq_none] at hopen
      rw [if_pos ⟨hmine.1, hmine.2.1, hmine.2.2, hopen⟩]
      rfl
    case isFalse hclosed =>
      rw [Bool.and_eq_true, Option.isNone_iff_eq_none] at hclosed
      rw [if_neg fun h ↦ hclosed h.2.2.2]
      rfl

/-- What can be said of the outcomes a relay reports: there is at most one, none comes after the relay was
settled or revoked, and a result that arrives when the deadline has passed is reported as a timeout. -/
structure Single (w : World) : Prop where
  once : (outcomes w.sent).length ≤ 1
  closed : ∀ m arrived rest, w.mailbox = (m, arrived) :: rest → Closes w.relay m →
    ∀ e w₁ ls w', relaying.step w (.handle e) = some w₁ → relaying.run w₁ ls = some w' →
      outcomes w'.sent = outcomes w.sent
  late : ∀ task ticket execution outcome arrived rest deadline,
    w.mailbox = (.result task ticket execution outcome, arrived) :: rest →
    w.relay.deadline = some deadline → deadline ≤ arrived →
    ∀ e w', relaying.step w (.handle e) = some w' → outcomes w'.sent = outcomes w.sent ++
      if Decides w.relay task ticket execution outcome then [.timeout] else []

/-- **At most one outcome**, in whatever order the messages come. -/
theorem reports_once (hw : relaying.Reachable w) : Single w := by
  have hreported := reported_of_reachable hw
  refine ⟨hreported.once, ?_, ?_⟩
  · intro m arrived rest hmailbox hcloses e w₁ ls w' hstep hrun
    obtain ⟨-, hrelay, hsent, -⟩ := handle_eq_some hmailbox hstep
    obtain ⟨hsettled, hquiet⟩ := handle_closes (e := e) hcloses
    rw [settled_run (reported_step hreported hstep) (by rw [hrelay, hsettled]) hrun, hsent, hquiet,
      List.append_nil]
  · intro task ticket execution outcome arrived rest deadline hmailbox hdeadline hlate e w' hstep
    obtain ⟨htime, -, hsent, -⟩ := handle_eq_some hmailbox hstep
    have harrived : arrived ≤ w.monotonicMs := hreported.arrived (_, arrived) (hmailbox ▸ List.mem_cons_self)
    rw [hsent, outcomes_append, handle_late hdeadline (by omega)]

/-- A task that is released at 0 for 1000 ms, and whose result and whose death have both arrived when
they are handled, with the engine's settlement between them. -/
def sampleRun : List Label :=
  let e (monotonicMs : ℤ) : Env := ⟨monotonicMs, 0, true, true, true⟩
  [.arrive (.release 1 7 5) 0, .handle (e 0), .arrive (.result 2 7 5 (some .success)) 400,
    .arrive (.settled 1 7) 450, .arrive (.down 3 2) 460, .handle (e 500), .handle (e 500),
    .handle (e 500)]

theorem reports_once_sample : ∃ w, relaying.Reachable w ∧
    w.sent = [.outcome .success, .dead] ∧ Single w := by
  have hrun : (relaying.run ⟨.init ⟨1, 10, 11, 4, 1000, 7, 2, 3, [12, 13, 14]⟩, [], 0, [], false⟩
      sampleRun).any (fun w ↦ w.sent == [.outcome .success, .dead]) = true := by decide +kernel
  obtain ⟨w, hw, hsent⟩ := (Option.any_eq_true _ _).mp hrun
  have hreachable := Machine.reachable_of_run (M := relaying) ⟨⟨_, rfl⟩, rfl, rfl, rfl⟩ hw
  exact ⟨w, hreachable, beq_iff_eq.mp hsent, reports_once hreachable⟩

end Tay.Relay
