import Mathlib.Data.Int.Order.Basic
import Mathlib.Data.List.Basic
import Mathlib.Logic.Function.Basic
import Tay.Foundation.Simulation

/-!
# The demand of the control processes

The engine runs its scheduler, and each of its queues, only when asked. A control process does the
asking: its timer fires, it sends the engine one request and waits for the acknowledgement, which
carries the delay until the next one. When there may be work before that, the engine wakes the
process, but only once until it has served another request of that control.

Everything here happens by messages. The acknowledgement and the wake are casts, the timer of the
runtime may fire on its way into the mailbox while the process arms another, and the process may be
restarted by its supervisor, which the engine learns only from the first request of the new one.

Where a process stands is one of four phases, and its mailbox is determined by the phase up to one
message. From the phases follows what the engine relies on: no demand is lost, and the engine is
never flooded.
-/

open Foundation

namespace Tay.Execution.Control

/-! ## The process -/

/-- What a control process receives. -/
inductive Incoming
  /-- Its timer has fired. -/
  | timer (reference : ℕ)
  /-- The engine has served the request with this token. -/
  | ack (token : ℕ) (delay : ℤ)
  | wake
  deriving DecidableEq

/-- The process that asks on behalf of one control, beside the timer it has running. -/
structure Queue where
  wakeMs : ℕ
  /-- The token of the request the engine has not acknowledged. -/
  pending : Option ℕ
  /-- The reference of the timer armed last. -/
  timer : Option ℕ
  /-- The timer that has not fired, with the delay it was started with. -/
  running : Option (ℕ × ℕ)
  /-- References drawn so far. -/
  fresh : ℕ
  deriving DecidableEq

namespace Queue

/-- Start a timer, in place of the one that is running. -/
def arm (s : Queue) (delay : ℕ) : Queue :=
  { s with timer := some s.fresh, running := some (s.fresh, delay), fresh := s.fresh + 1 }

def init (wakeMs fresh : ℕ) : Queue :=
  { wakeMs, pending := none, timer := none, running := none, fresh : Queue }.arm 0

/-- One message; the second part is the token of the request it makes the process send. -/
def handle (s : Queue) : Incoming → Queue × Option ℕ
  | .timer reference =>
    if s.timer = some reference ∧ s.pending = none then
      ({ s with timer := none, pending := some s.fresh, fresh := s.fresh + 1 }, some s.fresh)
    else (s, none)
  | .ack token delay =>
    if s.pending = some token then
      ({ s with pending := none }.arm (min (max delay 0).toNat s.wakeMs), none)
    else (s, none)
  | .wake => if s.pending = none then (s.arm 0, none) else (s, none)

/-- Every message of the mailbox in turn, with the requests this sends. -/
def absorb (s : Queue) : List Incoming → Queue × List ℕ
  | [] => (s, [])
  | m :: ms =>
    let r := s.handle m
    let e := r.1.absorb ms
    (e.1, r.2.toList ++ e.2)

end Queue

/-! ## One control -/

/-- A control process, and what the engine knows of it. -/
structure Loop where
  pid : ℕ
  queue : Queue
  /-- The mailbox of the process. -/
  inbox : List Incoming
  /-- Requests in the mailbox of the engine, each with its sender. -/
  requests : List (ℕ × ℕ)
  /-- The process the engine wakes. -/
  known : ℕ
  /-- Whether the engine has sent a wake since it last served a request. -/
  woken : Bool
  deriving DecidableEq

namespace Loop

/-- What happens next to a control process. -/
inductive Label
  /-- It handles the oldest message of its mailbox. -/
  | receive
  /-- Its timer fires. -/
  | expire
  /-- The engine comes to one of its requests, and answers with the delay. -/
  | serve (i : ℕ) (delay : ℤ)
  /-- It stops, and its supervisor starts another. -/
  | restart

def Label.restarts : Label → Bool
  | .restart => true
  | _ => false

def start (wakeMs : ℕ) : Loop where
  pid := 0
  queue := .init wakeMs 0
  inbox := []
  requests := []
  known := 0
  woken := false

def receive (l : Loop) : Option Loop :=
  match l.inbox with
  | [] => none
  | m :: rest =>
    let r := l.queue.handle m
    some { l with
      queue := r.1
      inbox := rest
      requests := l.requests ++ r.2.toList.map (l.pid, ·) }

def expire (l : Loop) : Option Loop :=
  l.queue.running.map fun r ↦
    { l with queue := { l.queue with running := none }, inbox := l.inbox ++ [.timer r.1] }

/-- A message to a process that is gone is dropped. -/
def post (l : Loop) (pid : ℕ) (m : Incoming) : Loop :=
  if pid = l.pid then { l with inbox := l.inbox ++ [m] } else l

def wakeControl (l : Loop) : Loop :=
  if l.woken then l else { l.post l.known .wake with woken := true }

/-- Whether the engine takes a request for one of this control. -/
def controlMember (l : Loop) (pid : ℕ) : Bool := l.known == pid || l.pid == pid

def executionControl (l : Loop) (pid token : ℕ) (delay : ℤ) : Loop :=
  if l.controlMember pid then
    { l with known := pid, woken := false }.post pid (.ack token delay)
  else l

def serve (l : Loop) (i : ℕ) (delay : ℤ) : Option Loop :=
  l.requests[i]?.map fun r ↦
    { l with requests := l.requests.eraseIdx i }.executionControl r.1 r.2 delay

def restart (l : Loop) : Loop :=
  { l with pid := l.pid + 1, queue := .init l.queue.wakeMs l.queue.fresh, inbox := [] }

def step (l : Loop) : Label → Option Loop
  | .receive => l.receive
  | .expire => l.expire
  | .serve i delay => l.serve i delay
  | .restart => some l.restart

/-! ## Where a process stands

`T` below is the message of the timer armed last. A wake can still be in the mailbox in every
phase, but only while the engine will not send another; and a wake that armed a timer anew may have
left the message of the one before. -/

/-- Tokens of the requests of the living process the engine has not come to. -/
def outstanding (l : Loop) : List ℕ := (l.requests.filter (·.1 == l.pid)).map (·.2)

/-- The timer is running. -/
structure Idle (l : Loop) (r d : ℕ) : Prop where
  pending : l.queue.pending = none
  timer : l.queue.timer = some r
  running : l.queue.running = some (r, d)
  fresh : r < l.queue.fresh
  bounded : d ≤ l.queue.wakeMs
  outstanding : l.outstanding = []
  inbox : l.inbox = [] ∨ l.inbox = [.wake] ∨ d = 0 ∧ ∃ r', r' ≠ r ∧ l.inbox = [.timer r']
  heard : l.inbox ≠ [] → l.woken = true ∧ l.known = l.pid
  urgent : l.woken = true ∨ l.known ≠ l.pid → l.inbox = [.wake] ∨ d = 0

/-- The timer has fired, and its message `T` waits. -/
structure Expired (l : Loop) (r : ℕ) : Prop where
  pending : l.queue.pending = none
  timer : l.queue.timer = some r
  running : l.queue.running = none
  fresh : r < l.queue.fresh
  outstanding : l.outstanding = []
  inbox : l.inbox = [.timer r] ∨ l.inbox = [.timer r, .wake] ∨ l.inbox = [.wake, .timer r] ∨
    ∃ r', r' ≠ r ∧ l.inbox = [.timer r', .timer r]
  heard : l.inbox ≠ [.timer r] → l.woken = true ∧ l.known = l.pid

/-- The engine has the request before it. -/
structure Asked (l : Loop) (token : ℕ) : Prop where
  pending : l.queue.pending = some token
  timer : l.queue.timer = none
  running : l.queue.running = none
  outstanding : l.outstanding = [token]
  inbox : l.inbox = [] ∨ l.inbox = [.wake]
  heard : l.inbox ≠ [] → l.woken = true ∧ l.known = l.pid

/-- The acknowledgement waits in the mailbox; a wake behind it is the only one that counts. -/
structure Answered (l : Loop) (token : ℕ) (delay : ℤ) : Prop where
  pending : l.queue.pending = some token
  timer : l.queue.timer = none
  running : l.queue.running = none
  outstanding : l.outstanding = []
  known : l.known = l.pid
  inbox : l.woken = false ∧
      (l.inbox = [.ack token delay] ∨ l.inbox = [.wake, .ack token delay]) ∨
    l.woken = true ∧
      (l.inbox = [.ack token delay, .wake] ∨ l.inbox = [.wake, .ack token delay, .wake])

inductive Phase (l : Loop) : Prop
  | idle (r d : ℕ) : l.Idle r d → Phase l
  | expired (r : ℕ) : l.Expired r → Phase l
  | asked (token : ℕ) : l.Asked token → Phase l
  | answered (token : ℕ) (delay : ℤ) : l.Answered token delay → Phase l

/-- The process is in one of the phases, and no request is from a process still to come. -/
structure Kept (l : Loop) : Prop where
  phase : l.Phase
  past : ∀ x ∈ l.requests, x.1 ≤ l.pid

variable {l l' : Loop} {r d token i : ℕ} {delay : ℤ}

/-! ### The process takes a message -/

theorem receive_cons {m : Incoming} {rest : List Incoming} (h : l.inbox = m :: rest) :
    l.receive = some { l with
      queue := (l.queue.handle m).1
      inbox := rest
      requests := l.requests ++ (l.queue.handle m).2.toList.map (l.pid, ·) } := by
  simp only [receive, h]

/-- A message that sends no request. -/
theorem receive_silent {m : Incoming} {rest : List Incoming} {q : Queue}
    (h : l.inbox = m :: rest) (hm : l.queue.handle m = (q, none)) (hr : l.receive = some l') :
    l' = { l with queue := q, inbox := rest } := by
  rw [receive_cons h, hm] at hr
  simpa using hr.symm

theorem outstanding_append (l : Loop) (q : Queue) (ms : List Incoming) (tokens : List ℕ) :
    outstanding { l with
      queue := q, inbox := ms, requests := l.requests ++ tokens.map (l.pid, ·) } =
      l.outstanding ++ tokens := by
  have hf : (tokens.map (l.pid, ·)).filter (·.1 == l.pid) = tokens.map (l.pid, ·) :=
    List.filter_eq_self.mpr (by simp)
  simp [outstanding, List.filter_append, hf, Function.comp_def]

theorem handle_wake (h : l.queue.pending = none) :
    l.queue.handle .wake = (l.queue.arm 0, none) := by
  simp only [Queue.handle, h, if_true]

theorem handle_wake_pending (h : l.queue.pending = some token) :
    l.queue.handle .wake = (l.queue, none) := by
  simp [Queue.handle, h]

theorem handle_stale {r' : ℕ} (h : l.queue.timer = some r) (hne : r' ≠ r) :
    l.queue.handle (.timer r') = (l.queue, none) := by
  simp [Queue.handle, h, hne.symm]

/-- A timer just armed at once waits, whatever is in the mailbox from before. -/
theorem armed (q : Queue) (h : q.pending = none) (ms : List Incoming) (ho : l.outstanding = [])
    (hi : ms = [] ∨ ∃ r', r' ≠ q.fresh ∧ ms = [.timer r'])
    (hh : ms ≠ [] → l.woken = true ∧ l.known = l.pid) :
    Idle { l with queue := q.arm 0, inbox := ms } q.fresh 0 where
  pending := h
  timer := rfl
  running := rfl
  fresh := Nat.lt_succ_self _
  bounded := Nat.zero_le _
  outstanding := ho
  inbox := hi.imp_right fun h ↦ .inr ⟨rfl, h⟩
  heard := hh
  urgent _ := .inr rfl

theorem Idle.receive (h : l.Idle r d) (hr : l.receive = some l') : l'.Phase := by
  rcases h.inbox with hi | hi | ⟨rfl, r', hne, hi⟩
  · simp [Loop.receive, hi] at hr
  · -- the wake arms the timer anew, and nobody hears of the one it replaces
    obtain rfl := receive_silent hi (handle_wake h.pending) hr
    exact .idle _ _ (armed _ h.pending [] h.outstanding (.inl rfl) fun hn ↦ absurd rfl hn)
  · -- the message of a timer that was replaced
    obtain rfl := receive_silent hi (handle_stale h.timer hne) hr
    exact .idle r 0 { h with
      inbox := .inl rfl
      heard := fun hn ↦ absurd rfl hn
      urgent := fun _ ↦ .inr rfl }

/-- The timer's message makes the process ask. -/
theorem Expired.ask {rest : List Incoming} (h : l.Expired r) (hi : l.inbox = .timer r :: rest)
    (hrest : rest = [] ∨ rest = [.wake]) (hr : l.receive = some l') : l'.Phase := by
  have hm : l.queue.handle (.timer r) =
      ({ l.queue with timer := none, pending := some l.queue.fresh, fresh := l.queue.fresh + 1 },
        some l.queue.fresh) := by
    simp [Queue.handle, h.timer, h.pending]
  rw [receive_cons hi, hm] at hr
  obtain rfl := Option.some_inj.mp hr
  refine .asked l.queue.fresh
    { pending := rfl, timer := rfl, running := h.running, outstanding := ?_, inbox := hrest,
      heard := fun hn ↦ h.heard ?_ }
  · simpa [h.outstanding] using outstanding_append l _ _ [l.queue.fresh]
  · rw [hi]
    simpa using hn

theorem Expired.receive (h : l.Expired r) (hr : l.receive = some l') : l'.Phase := by
  rcases h.inbox with hi | hi | hi | ⟨r', hne, hi⟩
  · exact h.ask hi (.inl rfl) hr
  · exact h.ask hi (.inr rfl) hr
  · -- the timer is replaced, and its message will be ignored
    obtain rfl := receive_silent hi (handle_wake h.pending) hr
    exact .idle _ _ (armed _ h.pending _ h.outstanding (.inr ⟨r, Nat.ne_of_lt h.fresh, rfl⟩)
      fun _ ↦ h.heard (by simp [hi]))
  · obtain rfl := receive_silent hi (handle_stale h.timer hne) hr
    exact .expired r { h with inbox := .inl rfl, heard := fun hn ↦ absurd rfl hn }

theorem Asked.receive (h : l.Asked token) (hr : l.receive = some l') : l'.Phase := by
  rcases h.inbox with hi | hi
  · simp [Loop.receive, hi] at hr
  · -- the request is still to be served, and that is all the wake could ask for
    obtain rfl := receive_silent hi (handle_wake_pending h.pending) hr
    exact .asked token { h with inbox := .inl rfl, heard := fun hn ↦ absurd rfl hn }

/-- The acknowledgement arms the timer; a wake behind it will arm it at once. -/
theorem Answered.rearm {rest : List Incoming} (h : l.Answered token delay)
    (hi : l.inbox = .ack token delay :: rest)
    (hrest : l.woken = false ∧ rest = [] ∨ l.woken = true ∧ rest = [.wake])
    (hr : l.receive = some l') : l'.Phase := by
  have hm : l.queue.handle (.ack token delay) =
      ({ l.queue with pending := none }.arm (min (max delay 0).toNat l.queue.wakeMs), none) := by
    simp [Queue.handle, h.pending]
  obtain rfl := receive_silent hi hm hr
  refine .idle l.queue.fresh (min (max delay 0).toNat l.queue.wakeMs)
    { pending := rfl, timer := rfl, running := rfl, fresh := Nat.lt_succ_self _,
      bounded := Nat.min_le_right _ _, outstanding := h.outstanding, inbox := ?_, heard := ?_,
      urgent := ?_ }
  · exact hrest.imp And.right fun hw ↦ .inl hw.2
  · intro hn
    rcases hrest with hw | hw
    · exact absurd hw.2 hn
    · exact ⟨hw.1, h.known⟩
  · rintro (hw | hk)
    · rcases hrest with hf | ht
      · exact absurd (hf.1.symm.trans hw) Bool.false_ne_true
      · exact .inl ht.2
    · exact absurd h.known hk

theorem Answered.receive (h : l.Answered token delay) (hr : l.receive = some l') : l'.Phase := by
  rcases h.inbox with ⟨hw, hi | hi⟩ | ⟨hw, hi | hi⟩
  · exact h.rearm hi (.inl ⟨hw, rfl⟩) hr
  · obtain rfl := receive_silent hi (handle_wake_pending h.pending) hr
    exact .answered token delay { h with inbox := .inl ⟨hw, .inl rfl⟩ }
  · exact h.rearm hi (.inr ⟨hw, rfl⟩) hr
  · obtain rfl := receive_silent hi (handle_wake_pending h.pending) hr
    exact .answered token delay { h with inbox := .inr ⟨hw, .inl rfl⟩ }

theorem Phase.receive (h : l.Phase) (hr : l.receive = some l') : l'.Phase := by
  rcases h with ⟨_, _, h⟩ | ⟨_, h⟩ | ⟨_, h⟩ | ⟨_, _, h⟩
  · exact h.receive hr
  · exact h.receive hr
  · exact h.receive hr
  · exact h.receive hr

/-! ### The engine and the supervisor -/

/-- Only an idle process has a timer that can fire. -/
theorem Phase.expire (h : l.Phase) (hr : l.expire = some l') : l'.Phase := by
  obtain ⟨⟨r, d⟩, hrun, rfl⟩ := Option.map_eq_some_iff.mp hr
  rcases h with ⟨r', d', h⟩ | ⟨_, h⟩ | ⟨_, h⟩ | ⟨_, _, h⟩
  · obtain ⟨rfl, rfl⟩ : r' = r ∧ d' = d := by simpa [h.running] using hrun
    refine .expired r'
      { pending := h.pending, timer := h.timer, running := rfl, fresh := h.fresh,
        outstanding := h.outstanding, inbox := ?_, heard := fun hn ↦ h.heard fun hi ↦ hn ?_ }
    · rcases h.inbox with hi | hi | ⟨-, r, hne, hi⟩
      · exact .inl (by simp [hi])
      · exact .inr (.inr (.inl (by simp [hi])))
      · exact .inr (.inr (.inr ⟨r, hne, by simp [hi]⟩))
    · simp [hi]
  · simp [h.running] at hrun
  · simp [h.running] at hrun
  · simp [h.running] at hrun

/-- A wake is sent only where none is left in the mailbox that counts. -/
theorem Phase.wakeControl (h : l.Phase) : l.wakeControl.Phase := by
  unfold Loop.wakeControl Loop.post
  split_ifs with hw hk
  · exact h
  · -- the wake arrives
    rcases h with ⟨r, d, h⟩ | ⟨r, h⟩ | ⟨token, h⟩ | ⟨token, delay, h⟩
    · have hi : l.inbox = [] := by_contra fun hn ↦ hw (h.heard hn).1
      exact .idle r d { h with
        inbox := .inr (.inl (by simp [hi]))
        heard := fun _ ↦ ⟨rfl, hk⟩
        urgent := fun _ ↦ .inl (by simp [hi]) }
    · have hi : l.inbox = [.timer r] := by_contra fun hn ↦ hw (h.heard hn).1
      exact .expired r { h with
        inbox := .inr (.inl (by simp [hi]))
        heard := fun _ ↦ ⟨rfl, hk⟩ }
    · have hi : l.inbox = [] := by_contra fun hn ↦ hw (h.heard hn).1
      exact .asked token { h with
        inbox := .inr (by simp [hi])
        heard := fun _ ↦ ⟨rfl, hk⟩ }
    · rcases h.inbox with ⟨-, hi⟩ | ⟨ht, -⟩
      · exact .answered token delay { h with
          inbox := .inr ⟨rfl, hi.imp (by simp [·]) (by simp [·])⟩ }
      · exact absurd ht hw
  · -- the engine knows only a process that is gone, and the living one is about to ask
    rcases h with ⟨r, d, h⟩ | ⟨r, h⟩ | ⟨token, h⟩ | ⟨token, delay, h⟩
    · have hi : l.inbox = [] := by_contra fun hn ↦ hw (h.heard hn).1
      have hd : d = 0 := (h.urgent (.inr hk)).resolve_left (by simp [hi])
      exact .idle r d { h with heard := fun hn ↦ absurd hi hn, urgent := fun _ ↦ .inr hd }
    · have hi : l.inbox = [.timer r] := by_contra fun hn ↦ hw (h.heard hn).1
      exact .expired r { h with heard := fun hn ↦ absurd hi hn }
    · have hi : l.inbox = [] := by_contra fun hn ↦ hw (h.heard hn).1
      exact .asked token { h with heard := fun hn ↦ absurd hi hn }
    · exact absurd h.known hk

/-- Serving a request of another process than the living one leaves its mailbox alone. -/
theorem Phase.stale (h : l.Phase) (hk : l.known ≠ l.pid) : { l with woken := false }.Phase := by
  rcases h with ⟨r, d, h⟩ | ⟨r, h⟩ | ⟨token, h⟩ | ⟨token, delay, h⟩
  · have hi : l.inbox = [] := by_contra fun hn ↦ hk (h.heard hn).2
    exact .idle r d { h with
      heard := fun hn ↦ absurd hi hn
      urgent := fun _ ↦ h.urgent (.inr hk) }
  · have hi : l.inbox = [.timer r] := by_contra fun hn ↦ hk (h.heard hn).2
    exact .expired r { h with heard := fun hn ↦ absurd hi hn }
  · have hi : l.inbox = [] := by_contra fun hn ↦ hk (h.heard hn).2
    exact .asked token { h with heard := fun hn ↦ absurd hi hn }
  · exact absurd h.known hk

/-- The request served is the one outstanding, or one of a process that is gone. -/
theorem outstanding_erase {x : ℕ × ℕ} (h : l.requests[i]? = some x) :
    if x.1 = l.pid then
      x.2 ∈ l.outstanding ∧ (l.outstanding.length ≤ 1 →
        outstanding { l with requests := l.requests.eraseIdx i } = [])
    else outstanding { l with requests := l.requests.eraseIdx i } = l.outstanding := by
  obtain ⟨hi, hx⟩ := List.getElem?_eq_some_iff.mp h
  have hs : l.requests = l.requests.take i ++ x :: l.requests.drop (i + 1) := by
    rw [← hx, List.getElem_cons_drop, List.take_append_drop]
  have he : l.requests.eraseIdx i = l.requests.take i ++ l.requests.drop (i + 1) :=
    List.eraseIdx_eq_take_drop_succ ..
  split_ifs with hp
  · refine ⟨List.mem_map.mpr ⟨x, List.mem_filter.mpr ⟨List.mem_of_getElem? h, by simp [hp]⟩, rfl⟩,
      fun hl ↦ ?_⟩
    unfold Loop.outstanding at hl ⊢
    rw [hs] at hl
    simp only [List.filter_append, List.filter_cons, hp, beq_self_eq_true, if_true, List.length_map,
      List.length_append, List.length_cons] at hl
    have ha : (l.requests.take i).filter (·.1 == l.pid) = [] := by
      rw [← List.length_eq_zero_iff]
      omega
    have hb : (l.requests.drop (i + 1)).filter (·.1 == l.pid) = [] := by
      rw [← List.length_eq_zero_iff]
      omega
    simp [he, ha, hb]
  · unfold Loop.outstanding
    conv_rhs => rw [hs]
    simp [he, hp]

/-- Requests of processes that are gone play no part. -/
theorem Phase.requests {rs : List (ℕ × ℕ)} (h : l.Phase)
    (ho : outstanding { l with requests := rs } = l.outstanding) :
    { l with requests := rs }.Phase := by
  rcases h with ⟨r, d, h⟩ | ⟨r, h⟩ | ⟨token, h⟩ | ⟨token, delay, h⟩
  · exact .idle r d { h with outstanding := ho.trans h.outstanding }
  · exact .expired r { h with outstanding := ho.trans h.outstanding }
  · exact .asked token { h with outstanding := ho.trans h.outstanding }
  · exact .answered token delay { h with outstanding := ho.trans h.outstanding }

/-- A process with a request outstanding has asked, and waits for the answer to just that one. -/
theorem Phase.asked_of_mem (h : l.Phase) (hm : token ∈ l.outstanding) : l.Asked token := by
  rcases h with ⟨r, d, h⟩ | ⟨r, h⟩ | ⟨t, h⟩ | ⟨t, delay, h⟩
  · simp [h.outstanding] at hm
  · simp [h.outstanding] at hm
  · obtain rfl : token = t := by simpa [h.outstanding] using hm
    exact h
  · simp [h.outstanding] at hm

theorem Asked.answer (h : l.Asked token) {rs : List (ℕ × ℕ)}
    (ho : Loop.outstanding { l with requests := rs } = []) :
    Answered { l with
      inbox := l.inbox ++ [.ack token delay], requests := rs, known := l.pid, woken := false }
      token delay where
  pending := h.pending
  timer := h.timer
  running := h.running
  outstanding := ho
  known := rfl
  inbox := .inl ⟨rfl, h.inbox.imp (by simp [·]) (by simp [·])⟩

theorem Phase.serve (h : l.Phase) (hr : l.serve i delay = some l') : l'.Phase := by
  obtain ⟨⟨pid, token⟩, hx, rfl⟩ := Option.map_eq_some_iff.mp hr
  have he := outstanding_erase hx
  unfold executionControl controlMember post
  by_cases hp : pid = l.pid
  · -- the living process
    obtain ⟨hm, hone⟩ := (if_pos hp).mp he
    have ha := h.asked_of_mem hm
    simpa [hp] using Phase.answered token delay (ha.answer (hone (by simp [ha.outstanding])))
  · have ho := (if_neg hp).mp he
    by_cases hk : l.known = pid
    · -- one the engine does not know to be gone: the answer is lost
      have hs := (h.requests ho).stale (hk.trans_ne hp)
      simpa [hp, hk] using hs
    · simpa [Ne.symm hp, hk] using h.requests ho

/-- What is left of a process that stops are its requests. -/
theorem Kept.restart (h : l.Kept) : l.restart.Phase := by
  have hr : outstanding l.restart = [] := by
    simp only [Loop.outstanding, Loop.restart, List.map_eq_nil_iff, List.filter_eq_nil_iff]
    intro x hx he
    exact absurd (h.past x hx) (by simp_all)
  exact .idle l.queue.fresh 0
    { pending := rfl, timer := rfl, running := rfl, fresh := Nat.lt_succ_self _,
      bounded := Nat.zero_le _, outstanding := hr, inbox := .inl rfl,
      heard := fun hn ↦ absurd rfl hn, urgent := fun _ ↦ .inr rfl }

theorem Kept.wakeControl (h : l.Kept) : l.wakeControl.Kept where
  phase := h.phase.wakeControl
  past := by
    unfold Loop.wakeControl Loop.post
    split_ifs <;> exact h.past

theorem Kept.step {y : Label} (h : l.Kept) (hr : l.step y = some l') : l'.Kept := by
  rcases y with _ | _ | ⟨i, delay⟩ | _
  · refine ⟨h.phase.receive hr, ?_⟩
    rcases hi : l.inbox with _ | ⟨m, rest⟩
    · simp [Loop.step, Loop.receive, hi] at hr
    · obtain rfl := Option.some_inj.mp ((receive_cons hi).symm.trans hr)
      intro x hx
      rcases List.mem_append.mp hx with hx | hx
      · exact h.past x hx
      · obtain ⟨t, -, rfl⟩ := List.mem_map.mp hx
        exact Nat.le_refl _
  · refine ⟨h.phase.expire hr, ?_⟩
    obtain ⟨_, -, rfl⟩ := Option.map_eq_some_iff.mp hr
    exact h.past
  · refine ⟨h.phase.serve hr, ?_⟩
    obtain ⟨_, -, rfl⟩ := Option.map_eq_some_iff.mp hr
    have hx : ∀ x ∈ l.requests.eraseIdx i, x.1 ≤ l.pid :=
      fun x hx ↦ h.past x (List.mem_of_mem_eraseIdx hx)
    unfold executionControl post
    split_ifs <;> exact hx
  · obtain rfl := Option.some_inj.mp hr
    exact ⟨h.restart, fun x hx ↦ Nat.le_succ_of_le (h.past x hx)⟩

theorem start_kept (wakeMs : ℕ) : (start wakeMs).Kept where
  phase := .idle 0 0
    { pending := rfl, timer := rfl, running := rfl, fresh := Nat.one_pos, bounded := Nat.zero_le _,
      outstanding := rfl, inbox := .inl rfl, heard := fun hn ↦ absurd rfl hn,
      urgent := fun _ ↦ .inr rfl }
  past := by simp [start]

/-! ## What the engine can rely on -/

/-- The process once it has handled all of its mailbox. -/
def settled (l : Loop) : Queue := (l.queue.absorb l.inbox).1

/-- The requests the engine has then, from the living process. -/
def intents (l : Loop) : List ℕ := l.outstanding ++ (l.queue.absorb l.inbox).2

/-- Either one request is on its way, or a timer is running; and where the engine has asked, it need
not wait for the timer. -/
structure Attentive (l : Loop) : Prop where
  mailbox : l.inbox.length ≤ 3
  asked : l.intents = l.settled.pending.toList
  armed : l.settled.pending = none → ∃ r d, l.settled.timer = some r ∧
    l.settled.running = some (r, d) ∧ d ≤ l.settled.wakeMs
  urgent : l.woken = true ∨ l.known ≠ l.pid → l.settled.pending = none →
    ∃ r, l.settled.running = some (r, 0)

theorem Phase.mailbox (h : l.Phase) : l.inbox.length ≤ 3 := by
  rcases h with ⟨_, _, h⟩ | ⟨_, h⟩ | ⟨_, h⟩ | ⟨_, _, h⟩
  · rcases h.inbox with hi | hi | ⟨-, _, -, hi⟩ <;> simp [hi]
  · rcases h.inbox with hi | hi | hi | ⟨_, -, hi⟩ <;> simp [hi]
  · rcases h.inbox with hi | hi <;> simp [hi]
  · rcases h.inbox with ⟨-, hi | hi⟩ | ⟨-, hi | hi⟩ <;> simp [hi]

/-- Handling a message brings the process no nearer to where it will stand. -/
theorem receive_settled {m : Incoming} {rest : List Incoming} (hi : l.inbox = m :: rest)
    (hr : l.receive = some l') : l'.settled = l.settled ∧ l'.intents = l.intents := by
  obtain rfl := Option.some_inj.mp ((receive_cons hi).symm.trans hr)
  refine ⟨by simp only [settled, hi, Queue.absorb], ?_⟩
  simp only [intents, outstanding_append, hi, Queue.absorb, List.append_assoc]

/-- With an empty mailbox only two of the phases are left. -/
theorem Phase.attentive_nil (h : l.Phase) (hi : l.inbox = []) : l.Attentive := by
  have hs : l.settled = l.queue := by simp only [settled, hi, Queue.absorb]
  have ht : l.intents = l.outstanding := by simp only [intents, hi, Queue.absorb, List.append_nil]
  have hm := h.mailbox
  rcases h with ⟨r, d, h⟩ | ⟨r, h⟩ | ⟨token, h⟩ | ⟨token, delay, h⟩
  · refine ⟨hm, ?_, fun _ ↦ ⟨r, d, ?_⟩, fun hu _ ↦ ⟨r, ?_⟩⟩
    · rw [ht, hs, h.outstanding, h.pending]
      rfl
    · rw [hs]
      exact ⟨h.timer, h.running, h.bounded⟩
    · have hd : d = 0 := (h.urgent hu).resolve_left (by simp [hi])
      rw [hs, h.running, hd]
  · rcases h.inbox with hn | hn | hn | ⟨_, -, hn⟩ <;> simp [hi] at hn
  · refine ⟨hm, ?_, fun hn ↦ ?_, fun _ hn ↦ ?_⟩
    · rw [ht, hs, h.outstanding, h.pending]
      rfl
    · simp [hs, h.pending] at hn
    · simp [hs, h.pending] at hn
  · rcases h.inbox with ⟨-, hn | hn⟩ | ⟨-, hn | hn⟩ <;> simp [hi] at hn

theorem Phase.attentive (h : l.Phase) : l.Attentive := by
  -- by induction on the mailbox, whose messages are handled one by one
  induction hi : l.inbox generalizing l with
  | nil => exact h.attentive_nil hi
  | cons m rest ih =>
    have hr := receive_cons hi
    obtain ⟨hs, ht⟩ := receive_settled hi hr
    have ha := ih (h.receive hr) rfl
    exact ⟨h.mailbox, ht ▸ hs ▸ ha.asked, hs ▸ ha.armed, hs ▸ ha.urgent⟩

/-! ## No demand waits for long -/

/-- How much a message can still cause: a timer a request, everything else a timer. -/
def weight : Incoming → ℕ
  | .timer _ => 2
  | .ack _ _ => 4
  | .wake => 4

/-- What the process and the engine can do at most before one of its requests is served. -/
def effort (l : Loop) : ℕ :=
  l.requests.length + (l.inbox.map weight).sum + (if l.queue.running.isSome then 3 else 0) +
    if l.woken then 0 else 5

/-- The step is one in which the engine runs the control. -/
def serves (l : Loop) : Label → Bool
  | .serve i _ => l.requests[i]?.any fun r ↦ l.controlMember r.1
  | _ => false

theorem receive_effort (hr : l.receive = some l') : l'.effort < l.effort := by
  rcases hi : l.inbox with _ | ⟨m, rest⟩
  · simp [Loop.receive, hi] at hr
  · obtain rfl := Option.some_inj.mp ((receive_cons hi).symm.trans hr)
    have hrun : (if l.queue.running.isSome then 3 else 0) ≤ 3 := by split <;> simp
    simp only [effort, hi, List.map_cons, List.sum_cons]
    rcases m with r | ⟨t, d⟩ | _
    · simp only [Queue.handle, weight]
      split_ifs <;> simp <;> omega
    · simp only [Queue.handle, weight]
      split_ifs <;> simp <;> omega
    · simp only [Queue.handle, weight]
      split_ifs <;> simp <;> omega

theorem expire_effort (hr : l.expire = some l') : l'.effort < l.effort := by
  obtain ⟨r, hrun, rfl⟩ := Option.map_eq_some_iff.mp hr
  simp [effort, hrun, weight]
  omega

theorem wakeControl_effort (l : Loop) : l.wakeControl.effort ≤ l.effort := by
  unfold Loop.wakeControl Loop.post
  split_ifs with hw hk <;> simp [effort, hw, weight]
  omega

/-- A request of a process neither known nor living is dropped. -/
theorem executionControl_refused {pid : ℕ} (h : l.controlMember pid = false)
    (rs : List (ℕ × ℕ)) (token : ℕ) (delay : ℤ) :
    { l with requests := rs }.executionControl pid token delay = { l with requests := rs } := by
  have hm : controlMember { l with requests := rs } pid = false := h
  simp [executionControl, hm]

theorem serve_effort (hr : l.serve i delay = some l') (hn : ¬l.serves (.serve i delay)) :
    l'.effort < l.effort := by
  obtain ⟨r, hx, rfl⟩ := Option.map_eq_some_iff.mp hr
  have hm : l.controlMember r.1 = false := by simpa [serves, hx] using hn
  have hl : i < l.requests.length := (List.getElem?_eq_some_iff.mp hx).1
  rw [executionControl_refused hm]
  simp only [effort, List.length_eraseIdx, hl, if_true]
  omega

/-- Steps that are taken without waiting for a timer. -/
def prompt (l : Loop) : Label → Bool
  | .receive => true
  | .expire => l.queue.running.any fun r ↦ r.2 == 0
  | .serve _ _ => true
  | .restart => false

theorem Phase.exists_prompt (h : l.Phase) (hw : l.woken = true) :
    ∃ y, l.prompt y = true ∧ (l.step y).isSome := by
  rcases hi : l.inbox with _ | ⟨m, rest⟩
  · -- with nothing to handle, a timer armed at once is running, or the request is the engine's
    rcases h with ⟨r, d, h⟩ | ⟨r, h⟩ | ⟨token, h⟩ | ⟨token, delay, h⟩
    · have hd : d = 0 := (h.urgent (.inl hw)).resolve_left (by simp [hi])
      exact ⟨.expire, by simp [prompt, h.running, hd], by simp [Loop.step, Loop.expire, h.running]⟩
    · rcases h.inbox with hn | hn | hn | ⟨_, -, hn⟩ <;> simp [hi] at hn
    · have hm : token ∈ l.outstanding := by simp [h.outstanding]
      obtain ⟨x, hx, -⟩ := List.mem_map.mp hm
      obtain ⟨i, hx⟩ := List.mem_iff_getElem?.mp (List.mem_filter.mp hx).1
      exact ⟨.serve i 0, rfl, by simp [Loop.step, Loop.serve, hx]⟩
    · rcases h.inbox with ⟨-, hn | hn⟩ | ⟨-, hn | hn⟩ <;> simp [hi] at hn
  · exact ⟨.receive, rfl, by simp [Loop.step, receive_cons hi]⟩

/-- Only running the control takes the mark of the wake away. -/
theorem step_woken {y : Label} (hr : l.step y = some l') (hn : ¬l.serves y)
    (hw : l.woken = true) : l'.woken = true := by
  rcases y with _ | _ | ⟨i, delay⟩ | _
  · rcases hi : l.inbox with _ | ⟨m, rest⟩
    · simp [Loop.step, Loop.receive, hi] at hr
    · obtain rfl := Option.some_inj.mp ((receive_cons hi).symm.trans hr)
      exact hw
  · obtain ⟨_, -, rfl⟩ := Option.map_eq_some_iff.mp hr
    exact hw
  · obtain ⟨r, hx, rfl⟩ := Option.map_eq_some_iff.mp hr
    have hm : l.controlMember r.1 = false := by simpa [serves, hx] using hn
    exact (congrArg Loop.woken (executionControl_refused hm _ _ _)).trans hw
  · obtain rfl := Option.some_inj.mp hr
    exact hw

theorem wakeControl_woken (l : Loop) : l.wakeControl.woken = true := by
  unfold Loop.wakeControl
  split_ifs with hw
  · exact hw
  · rfl

/-- Every step of a process that is not restarted brings it nearer to being served. -/
theorem step_effort {y : Label} (hr : l.step y = some l') (hn : ¬l.serves y) (hy : y ≠ .restart) :
    l'.effort < l.effort := by
  rcases y with _ | _ | ⟨i, delay⟩ | _
  · exact receive_effort hr
  · exact expire_effort hr
  · exact serve_effort hr hn
  · exact absurd rfl hy

end Loop

/-! ## All controls -/

/-- The controls of the engine: the scheduler, and one for each queue. -/
inductive Kind (κ : Type)
  | scheduler
  | queue (name : κ)
  deriving DecidableEq

def Kind.isQueue {κ : Type} : Kind κ → Bool
  | .queue _ => true
  | .scheduler => false

/-- The control processes, and the engine's part in each. -/
abbrev Plane (κ : Type) := Kind κ → Loop

inductive Label (κ : Type)
  /-- A step of one control; `ready` is whether the engine runs it if it comes to that. -/
  | own (kind : Kind κ) (y : Loop.Label) (ready : Bool)
  | wakeControls
  | wakeQueues

namespace Plane

variable {κ : Type}

def wakeControls (p : Plane κ) : Plane κ := fun k ↦ (p k).wakeControl

def wakeQueues (p : Plane κ) : Plane κ := fun k ↦ if k.isQueue then (p k).wakeControl else p k

/-- Running the scheduler makes jobs available, and so it wakes the queues. -/
def step [DecidableEq κ] (p : Plane κ) : Label κ → Option (Plane κ)
  | .own kind y ready => ((p kind).step y).map fun l ↦
      let next : Plane κ := Function.update p kind l
      if ready && !kind.isQueue && (p kind).serves y then next.wakeQueues else next
  | .wakeControls => some p.wakeControls
  | .wakeQueues => some p.wakeQueues

end Plane

/-- The engine has started a process for every control. -/
def controlPlane (κ : Type) [DecidableEq κ] (wakeMs : ℕ) : Machine (Plane κ) (Label κ) where
  initial p := p = fun _ ↦ .start wakeMs
  step := Plane.step

section Runs

variable {κ : Type} [DecidableEq κ] {wakeMs : ℕ} {p p' : Plane κ} {k : Kind κ}

/-- What one step can do to a control: a step of its own, perhaps a wake, or nothing. -/
theorem step_cases {x : Label κ} (h : p.step x = some p') (k : Kind κ) :
    (∃ y ready, x = .own k y ready ∧ (p k).step y = some (p' k)) ∨
      (∀ y ready, x ≠ .own k y ready) ∧ (p' k = p k ∨ p' k = (p k).wakeControl) := by
  rcases x with ⟨kind, y, ready⟩ | _ | _
  · obtain ⟨l, hl, rfl⟩ := Option.map_eq_some_iff.mp h
    by_cases hk : kind = k
    · subst hk
      refine .inl ⟨y, ready, rfl, ?_⟩
      rw [hl]
      split_ifs with hs
      · have hq : kind.isQueue = false := by simp_all
        simp [Plane.wakeQueues, hq]
      · simp
    · refine .inr ⟨fun _ _ he ↦ hk (by injection he), ?_⟩
      have hu : Function.update p kind l k = p k := Function.update_of_ne (Ne.symm hk) ..
      split_ifs with hs
      · by_cases hq : k.isQueue <;> simp [Plane.wakeQueues, hq, hu]
      · exact .inl hu
  · obtain rfl := Option.some_inj.mp h
    exact .inr ⟨by simp, .inr rfl⟩
  · obtain rfl := Option.some_inj.mp h
    refine .inr ⟨by simp, ?_⟩
    by_cases hq : k.isQueue <;> simp [Plane.wakeQueues, hq]

theorem step_kept {x : Label κ} (hp : ∀ k, (p k).Kept) (h : p.step x = some p') :
    ∀ k, (p' k).Kept := by
  intro k
  rcases step_cases h k with ⟨y, ready, rfl, hy⟩ | ⟨-, he | he⟩
  · exact (hp k).step hy
  · rw [he]
    exact hp k
  · rw [he]
    exact (hp k).wakeControl

theorem reachable_kept (hp : (controlPlane κ wakeMs).Reachable p) : ∀ k, (p k).Kept := by
  refine hp.invariant (I := fun p ↦ ∀ k, (p k).Kept) ?_ fun s x s' hs hx ↦ step_kept hs hx
  intro s hs k
  rw [hs]
  exact Loop.start_kept wakeMs

/-- Whatever the controls, the engine and the supervisor do, every control is attended to. -/
theorem controls_attentive (hp : (controlPlane κ wakeMs).Reachable p) (k : Kind κ) :
    (p k).Attentive := (reachable_kept hp k).phase.attentive

/-- The step neither restarts the control's process nor makes the engine run the control. -/
def unserved (k : Kind κ) (p : Plane κ) : Label κ → Bool
  | .own kind y _ => kind != k || !(p k).serves y && !y.restarts
  | _ => true

/-- One for the steps of the control's own. -/
def share (k : Kind κ) : Label κ → ℕ
  | .own kind _ _ => if kind = k then 1 else 0
  | _ => 0

theorem step_effort {x : Label κ} (hok : unserved k p x = true) (h : p.step x = some p') :
    share k x + (p' k).effort ≤ (p k).effort := by
  rcases step_cases h k with ⟨y, ready, rfl, hy⟩ | ⟨hne, he⟩
  · obtain ⟨hs, hr⟩ : (p k).serves y = false ∧ y.restarts = false := by simpa [unserved] using hok
    have hlt := Loop.step_effort hy (by simp [hs]) (by rintro rfl; cases hr)
    simp only [share, if_true]
    omega
  · have hx : share k x = 0 := by
      rcases x with ⟨kind, y, ready⟩ | _ | _
      · exact if_neg fun hk ↦ hne y ready (by rw [hk])
      · rfl
      · rfl
    rcases he with he | he
    · simp [hx, he]
    · rw [hx, he, Nat.zero_add]
      exact (p k).wakeControl_effort

theorem step_woken {x : Label κ} (hok : unserved k p x = true) (h : p.step x = some p')
    (hw : (p k).woken = true) : (p' k).woken = true := by
  rcases step_cases h k with ⟨y, ready, rfl, hy⟩ | ⟨-, he | he⟩
  · obtain ⟨hs, -⟩ : (p k).serves y = false ∧ y.restarts = false := by simpa [unserved] using hok
    exact Loop.step_woken hy (by simp [hs]) hw
  · rwa [he]
  · rw [he]
    exact (p k).wakeControl_woken

/-- The control still owes the demand `spent` steps after it was raised, but it owes less, and it
can go on without waiting for time to pass. -/
structure Due (l l' : Loop) (spent : ℕ) : Prop where
  nearer : spent + l'.effort ≤ l.effort
  woken : l'.woken = true
  prompt : ∃ y, l'.prompt y = true ∧ (l'.step y).isSome

/-- **No demand waits for long.** While the process is not restarted, the engine runs a control it
has woken after a number of steps of this control that is known when it wakes it, and a timer that
takes time need not fire in between. -/
theorem demand_due {ls : List (Label κ)} (hp : (controlPlane κ wakeMs).Reachable p)
    (hw : (p k).woken = true)
    (h : ((controlPlane κ wakeMs).under fun p x ↦ unserved k p x = true).run p ls = some p') :
    Due (p k) (p' k) (ls.map (share k)).sum := by
  have hkept : (∀ k, (p' k).Kept) ∧ (p' k).woken = true := by
    refine Machine.run_preserves (I := fun p ↦ (∀ k, (p k).Kept) ∧ (p k).woken = true) ?_
      ⟨reachable_kept hp, hw⟩ h
    intro s x s' hs hx
    obtain ⟨hok, hx⟩ : unserved k s x = true ∧ s.step x = some s' := by
      simpa [Machine.under, controlPlane] using hx
    exact ⟨step_kept hs.1 hx, step_woken hok hx hs.2⟩
  exact {
    nearer := Machine.run_weight (μ := fun p ↦ (p k).effort) (w := share k)
      (fun s x s' hok hx ↦ step_effort hok hx) h
    woken := hkept.2
    prompt := (hkept.1 k).phase.exists_prompt hkept.2 }

end Runs

namespace Sample

/-- The scheduler asks and is served, the queue is woken by it, and then again by the engine. -/
def labels : List (Label Unit) :=
  [.own .scheduler .expire false, .own .scheduler .receive false,
    .own .scheduler (.serve 0 40) true, .own (.queue ()) .expire false,
    .own (.queue ()) .receive false, .wakeControls]

def plane : Option (Plane Unit) := (controlPlane Unit 1000).run (fun _ ↦ .start 1000) labels

theorem plane_isSome : plane.isSome = true := by decide

theorem plane_run :
    (controlPlane Unit 1000).run (fun _ ↦ .start 1000) labels = some (plane.get plane_isSome) :=
  (Option.some_get plane_isSome).symm

/-- What is left of the process's mailbox, while the engine does something else. -/
def waiting : List (Label Unit) := [.own (.queue ()) .receive false, .wakeControls]

def later : Option (Plane Unit) :=
  ((controlPlane Unit 1000).under fun p x ↦ unserved (.queue ()) p x = true).run
    (plane.get plane_isSome) waiting

theorem later_isSome : later.isSome = true := by decide

theorem later_run :
    ((controlPlane Unit 1000).under fun p x ↦ unserved (.queue ()) p x = true).run
      (plane.get plane_isSome) waiting = some (later.get later_isSome) :=
  (Option.some_get later_isSome).symm

end Sample

/-- A wake on its way to a process whose timer has fired. -/
theorem sample_attentive : (Sample.plane.get Sample.plane_isSome (.queue ())).Attentive :=
  controls_attentive (Machine.reachable_of_run rfl Sample.plane_run) _

/-- And handled while the request is before the engine. -/
theorem sample_due :
    Due (Sample.plane.get Sample.plane_isSome (.queue ()))
      (Sample.later.get Sample.later_isSome (.queue ())) 1 :=
  demand_due (Machine.reachable_of_run rfl Sample.plane_run) (by decide) Sample.later_run

end Tay.Execution.Control
