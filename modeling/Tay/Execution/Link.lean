import Tay.Executor.Server

/-!
# Calls to the executor server

How the engine reaches the executor server: by synchronous calls that may time out, and by the
completions the server sends back. A call that times out is not undone, since the request stays in
the server's mailbox and is handled later; and while the engine waits, the server goes on handling
the messages of its connections. A call therefore takes a list of turns, which is what the server
does from the request on until the engine goes on: it is answered if its own request is handled in
the last of them.

The server may also be restarted, and then the requests in its mailbox and all it held are gone.
-/

open Foundation

namespace Tay.Execution

open Executor

/-- The executor server, as far as the engine is concerned with it. -/
structure Link where
  pid : ℕ
  server : Server
  /-- Requests of the engine the server has not come to. -/
  inbox : List Message
  /-- Completions on their way to the engine, each with the server that sent it. -/
  completions : List (ℕ × ℕ × Completion)
  /-- Every identifier drawn for a reservation. -/
  issued : Finset ℕ

/-- What the server does next. -/
inductive Turn
  /-- Handle a message of a connection or of the listener. -/
  | receive (m : Message)
  /-- Handle the oldest request of the engine. -/
  | serve
  /-- Stop, and come back under a new process. -/
  | restart (pid : ℕ)

def completion? (pid : ℕ) : Sent → Option (ℕ × ℕ × Completion)
  | .completion reservation outcome => some (pid, reservation, outcome)
  | _ => none

def drawn : Message → Finset ℕ
  | .reserve _ _ reservation => {reservation}
  | _ => ∅

namespace Link

/-- One message, with fresh identifiers; the completions it causes are on their way. -/
def handle (l : Link) (m : Message) : Option Link :=
  if l.server.admits m && decide (Disjoint (drawn m) l.issued) then
    (l.server.handle m).map fun r ↦
      { l with
        server := r.1
        completions := l.completions ++ r.2.filterMap (completion? l.pid)
        issued := drawn m ∪ l.issued }
  else none

/-- The server after a restart: the configuration is the same, and nobody is connected. -/
def restarted (s : Server) : Server :=
  { s with connections := ∅, monitors := ∅, httpWorkers := ∅, reservations := ∅ }

def turn (l : Link) : Turn → Option Link
  | .receive m => if m.requested then none else l.handle m
  | .serve =>
    match l.inbox with
    | [] => none
    | m :: rest => { l with inbox := rest }.handle m
  | .restart pid =>
    if l.pid < pid then some { l with pid := pid, server := restarted l.server, inbox := [] }
    else none

/-- Take turns until the last request in the mailbox has been handled, or the caller gives up. -/
def await (l : Link) : List Turn → Option (Link × Option (Except Refusal Unit))
  | [] => some (l, none)
  | .serve :: turns =>
    match l.inbox with
    | [m] =>
      if turns.isEmpty then
        ({ l with inbox := [] }.handle m).map (·, some (l.server.answer m))
      else none
    | _ => (l.turn .serve).bind (await · turns)
  | t :: turns => (l.turn t).bind (await · turns)

/-- A synchronous call. One to a process that is gone ends at once. -/
def call (l : Link) (target : ℕ) (m : Message) (turns : List Turn) :
    Option (Link × Option (Except Refusal Unit)) :=
  if target = l.pid then { l with inbox := l.inbox ++ [m] }.await turns
  else if turns.isEmpty then some (l, none)
  else none

/-! ## What every turn keeps -/

/-- The server's indexes agree, and every reservation it holds has been drawn. -/
structure Sound (l : Link) : Prop where
  indexed : l.server.Indexed
  issued : ∀ r, l.server.held r = true → r ∈ l.issued

/-- A link moves by handling messages, by new requests, and by restarts. An invariant of these, for
messages of one kind, is one of every call that leads to no others, whatever turns it takes. -/
structure Closed (P : Message → Prop) (I : Link → Prop) : Prop where
  receive : ∀ {l l' m}, P m → I l → l.handle m = some l' → I l'
  serve : ∀ {l l' : Link} {m : Message} {rest : List Message}, P m → I l → l.inbox = m :: rest →
    { l with inbox := rest }.handle m = some l' → I l'
  push : ∀ {l : Link} (m : Message), I l → I { l with inbox := l.inbox ++ [m] }
  restart : ∀ {l : Link} {pid : ℕ}, l.pid < pid → I l →
    I { l with pid := pid, server := restarted l.server, inbox := [] }

/-- The messages of connections are of the kind, and so are the requests that wait. -/
structure Confined (P : Message → Prop) (l : Link) : Prop where
  received : ∀ m, m.requested = false → P m
  waiting : ∀ m ∈ l.inbox, P m

def any (_ : Message) : Prop := True

theorem confined_any (l : Link) : Confined any l := ⟨fun _ _ ↦ trivial, fun _ _ ↦ trivial⟩

variable {P : Message → Prop} {I : Link → Prop} {l l' : Link}

theorem handle_inbox {m : Message} (h : l.handle m = some l') : l'.inbox = l.inbox := by
  unfold Link.handle at h
  split at h
  · obtain ⟨r, -, rfl⟩ := Option.map_eq_some_iff.mp h
    rfl
  · cases h

theorem handle_pid {m : Message} (h : l.handle m = some l') : l'.pid = l.pid := by
  unfold Link.handle at h
  split at h
  · obtain ⟨r, -, rfl⟩ := Option.map_eq_some_iff.mp h
    rfl
  · cases h

/-- The mailbox has no part in handling a message. -/
theorem handle_mail {m : Message} (h : l.handle m = some l') (ms : List Message) :
    { l with inbox := ms }.handle m = some { l' with inbox := ms } := by
  unfold Link.handle at h ⊢
  split at h
  case isTrue hguard =>
    obtain ⟨r, hr, rfl⟩ := Option.map_eq_some_iff.mp h
    rw [if_pos hguard]
    exact Option.map_eq_some_iff.mpr ⟨r, hr, rfl⟩
  case isFalse => cases h

/-- What a turn does: a message of a connection, the oldest request, or a restart. -/
theorem turn_cases {t : Turn} (ht : l.turn t = some l') :
    (∃ m, m.requested = false ∧ l.handle m = some l') ∨
      (∃ m rest, l.inbox = m :: rest ∧ { l with inbox := rest }.handle m = some l') ∨
      ∃ pid, l.pid < pid ∧ l' = { l with pid := pid, server := restarted l.server, inbox := [] } := by
  cases t with
  | receive m =>
    simp only [Link.turn] at ht
    split at ht
    · cases ht
    case isFalse hm => exact .inl ⟨m, by simpa using hm, ht⟩
  | serve =>
    simp only [Link.turn] at ht
    split at ht
    · cases ht
    case h_2 m rest hinbox => exact .inr (.inl ⟨m, rest, hinbox, ht⟩)
  | restart pid =>
    simp only [Link.turn] at ht
    split at ht
    case isTrue hpid =>
      cases ht
      exact .inr (.inr ⟨pid, hpid, rfl⟩)
    case isFalse => cases ht

theorem Closed.turn (hI : Closed P I) {t : Turn} (hP : Confined P l) (h : I l)
    (ht : l.turn t = some l') : I l' ∧ Confined P l' := by
  rcases turn_cases ht with ⟨m, hm, hhandle⟩ | ⟨m, rest, hinbox, hhandle⟩ | ⟨pid, hpid, rfl⟩
  · refine ⟨hI.receive (hP.received m hm) h hhandle, hP.received, ?_⟩
    rw [handle_inbox hhandle]
    exact hP.waiting
  · have hm := hP.waiting m (hinbox ▸ List.mem_cons_self)
    refine ⟨hI.serve hm h hinbox hhandle, hP.received, ?_⟩
    rw [handle_inbox hhandle]
    exact fun n hn ↦ hP.waiting n (hinbox ▸ List.mem_cons_of_mem m hn)
  · exact ⟨hI.restart hpid h, hP.received, by simp⟩

theorem Closed.await (hI : Closed P I) {turns : List Turn} {answer : Option (Except Refusal Unit)}
    (hP : Confined P l) (h : I l) (ha : l.await turns = some (l', answer)) :
    I l' ∧ Confined P l' := by
  induction turns generalizing l with
  | nil =>
    cases ha
    exact ⟨h, hP⟩
  | cons t turns ih =>
    have hstep : ∀ {u : Turn}, (l.turn u).bind (Link.await · turns) = some (l', answer) →
        I l' ∧ Confined P l' := by
      intro u hu
      obtain ⟨m, hm, hrest⟩ := Option.bind_eq_some_iff.mp hu
      obtain ⟨hm', hPm⟩ := hI.turn hP h hm
      exact ih hPm hm' hrest
    cases t with
    | receive m => exact hstep ha
    | restart pid => exact hstep ha
    | serve =>
      simp only [Link.await] at ha
      split at ha
      case h_1 n hinbox =>
        split at ha
        · obtain ⟨m, hm, hl⟩ := Option.map_eq_some_iff.mp ha
          cases hl
          have hn := hP.waiting n (by simp [hinbox])
          refine ⟨hI.serve hn h hinbox hm, hP.received, ?_⟩
          rw [handle_inbox hm]
          simp
        · cases ha
      · exact hstep ha

theorem Confined.push {m : Message} (hP : Confined P l) (hm : P m) :
    Confined P { l with inbox := l.inbox ++ [m] } := by
  refine ⟨hP.received, fun n hn ↦ ?_⟩
  rcases List.mem_append.mp hn with hn | hn
  · exact hP.waiting n hn
  · exact List.mem_singleton.mp hn ▸ hm

theorem Closed.call (hI : Closed P I) {target : ℕ} {m : Message} {turns : List Turn}
    {answer : Option (Except Refusal Unit)} (hP : Confined P l) (hm : P m) (h : I l)
    (hc : l.call target m turns = some (l', answer)) : I l' ∧ Confined P l' := by
  unfold Link.call at hc
  split at hc
  · exact hI.await (hP.push hm) (hI.push m h) hc
  · split at hc
    · cases hc
      exact ⟨h, hP⟩
    · cases hc

theorem Sound.handle {m : Message} (h : Sound l) (hm : l.handle m = some l') : Sound l' := by
  unfold Link.handle at hm
  split at hm
  case isFalse => cases hm
  case isTrue hguard =>
    obtain ⟨hadmits, -⟩ := Bool.and_eq_true_iff.mp hguard
    obtain ⟨r, hr, rfl⟩ := Option.map_eq_some_iff.mp hm
    refine ⟨h.indexed.handle hadmits hr, ?_⟩
    intro x hx
    rcases Server.handle_held hr hx with hold | ⟨task, queue, rfl⟩
    · exact Finset.mem_union_right _ (h.issued x hold)
    · exact Finset.mem_union_left _ (Finset.mem_singleton_self x)

/-- A server that has just started holds nothing. -/
theorem sound_restarted (h : l.server = restarted l.server) : Sound l := by
  have hconnections : l.server.connections = ∅ := by rw [h]; rfl
  have hreservations : l.server.reservations = ∅ := by rw [h]; rfl
  refine ⟨⟨?_, ?_, ?_⟩, ?_⟩
  · intro r c
    simp [hconnections, hreservations]
  · intro c entry hc
    simp [hconnections] at hc
  · intro c entry hc
    simp [hconnections] at hc
  · intro r hr
    simp [Server.held, hreservations] at hr

theorem sound_closed : Closed any Sound where
  receive := fun _ h hm ↦ h.handle hm
  serve := by
    intro l l' m rest _ h _ hm
    exact Sound.handle (l := { l with inbox := rest }) ⟨h.indexed, h.issued⟩ hm
  push := fun _ h ↦ ⟨h.indexed, h.issued⟩
  restart := fun _ _ ↦ sound_restarted rfl

theorem issued_handle {m : Message} (h : l.handle m = some l') : l.issued ⊆ l'.issued := by
  unfold Link.handle at h
  split at h
  · obtain ⟨r, -, rfl⟩ := Option.map_eq_some_iff.mp h
    exact Finset.subset_union_right
  · cases h

/-- Every identifier drawn stays drawn. -/
theorem issued_closed (base : Finset ℕ) : Closed any fun l ↦ base ⊆ l.issued where
  receive := fun _ h hm ↦ h.trans (issued_handle hm)
  serve := by
    intro l l' m rest _ h _ hm
    exact h.trans (issued_handle (l := { l with inbox := rest }) hm)
  push := fun _ h ↦ h
  restart := fun _ h ↦ h

theorem issued_call {target : ℕ} {m : Message} {turns : List Turn}
    {answer : Option (Except Refusal Unit)} (h : l.call target m turns = some (l', answer)) :
    l.issued ⊆ l'.issued :=
  ((issued_closed l.issued).call (confined_any l) trivial Finset.Subset.rfl h).1

theorem issued_turn {t : Turn} (h : l.turn t = some l') : l.issued ⊆ l'.issued :=
  ((issued_closed l.issued).turn (confined_any l) Finset.Subset.rfl h).1

/-! ## Answered calls -/

/-- With no request in the mailbox nothing is answered. -/
theorem await_empty {turns : List Turn} {a : Except Refusal Unit} (hempty : l.inbox = []) :
    l.await turns ≠ some (l', some a) := by
  induction turns generalizing l with
  | nil => simp [Link.await]
  | cons t turns ih =>
    intro h
    have hnext : ∃ l₁, l.turn t = some l₁ ∧ l₁.await turns = some (l', some a) := by
      cases t with
      | receive m => exact Option.bind_eq_some_iff.mp h
      | restart pid => exact Option.bind_eq_some_iff.mp h
      | serve =>
        simp only [Link.await, hempty] at h
        exact Option.bind_eq_some_iff.mp h
    obtain ⟨l₁, hturn, hrest⟩ := hnext
    refine ih ?_ hrest
    rcases turn_cases hturn with ⟨m, -, hhandle⟩ | ⟨m, rest, hinbox, -⟩ | ⟨pid, -, rfl⟩
    · rw [handle_inbox hhandle, hempty]
    · rw [hempty] at hinbox
      cases hinbox
    · rfl

/-- How the wait for the last request in the mailbox goes on after its first turn: it is handled at
once, or the turn was a message of a connection, an older request, or a restart. -/
theorem await_cases {t : Turn} {turns : List Turn} {answer : Option (Except Refusal Unit)}
    {m : Message} {ms : List Message} (hinbox : l.inbox = ms ++ [m])
    (h : l.await (t :: turns) = some (l', answer)) :
    (ms = [] ∧ { l with inbox := [] }.handle m = some l' ∧ answer = some (l.server.answer m)) ∨
      ∃ l₁, l₁.await turns = some (l', answer) ∧
        ((∃ n, n.requested = false ∧ l.handle n = some l₁ ∧ l₁.inbox = ms ++ [m]) ∨
          (∃ n rest, ms = n :: rest ∧ { l with inbox := rest ++ [m] }.handle n = some l₁ ∧
            l₁.inbox = rest ++ [m]) ∨
          ∃ pid, l.pid < pid ∧
            l₁ = { l with pid := pid, server := restarted l.server, inbox := [] }) := by
  have hturn : ∀ {u : Turn}, (l.turn u).bind (Link.await · turns) = some (l', answer) →
      ∃ l₁, l₁.await turns = some (l', answer) ∧ l.turn u = some l₁ := by
    intro u hu
    obtain ⟨l₁, hl₁, hrest⟩ := Option.bind_eq_some_iff.mp hu
    exact ⟨l₁, hrest, hl₁⟩
  cases t with
  | receive n =>
    obtain ⟨l₁, hrest, hl₁⟩ := hturn h
    simp only [Link.turn] at hl₁
    split at hl₁
    · cases hl₁
    case isFalse hn =>
      exact .inr ⟨l₁, hrest, .inl ⟨n, by simpa using hn, hl₁, (handle_inbox hl₁).trans hinbox⟩⟩
  | restart pid =>
    obtain ⟨l₁, hrest, hl₁⟩ := hturn h
    simp only [Link.turn] at hl₁
    split at hl₁
    case isTrue hpid =>
      cases hl₁
      exact .inr ⟨_, hrest, .inr (.inr ⟨pid, hpid, rfl⟩)⟩
    case isFalse => cases hl₁
  | serve =>
    rcases ms with _ | ⟨n, rest⟩
    · simp only [Link.await, hinbox, List.nil_append] at h
      split at h
      · obtain ⟨l₁, hhandle, hl⟩ := Option.map_eq_some_iff.mp h
        cases hl
        exact .inl ⟨rfl, hhandle, rfl⟩
      · cases h
    · have hmore : (l.turn .serve).bind (Link.await · turns) = some (l', answer) := by
        rcases rest with _ | ⟨n', rest⟩ <;> simpa only [Link.await, hinbox, List.cons_append,
          List.nil_append] using h
      obtain ⟨l₁, hrest, hl₁⟩ := hturn hmore
      have hhandle : { l with inbox := rest ++ [m] }.handle n = some l₁ := by
        simpa only [Link.turn, hinbox, List.cons_append] using hl₁
      exact .inr ⟨l₁, hrest, .inr (.inl ⟨n, rest, rfl, hhandle, handle_inbox hhandle⟩)⟩

/-- A request that is answered is handled by the same server, in a state that keeps every invariant
of links and of the older requests. -/
theorem await_answered {turns : List Turn} {a : Except Refusal Unit} {m : Message}
    {ms : List Message} (hinbox : l.inbox = ms ++ [m]) (h : l.await turns = some (l', some a)) :
    ∃ l₁, l₁.pid = l.pid ∧ (∀ P I, Closed P I → Confined P { l with inbox := ms } →
        I { l with inbox := ms } → I l₁) ∧ l₁.inbox = [] ∧
      l₁.handle m = some l' ∧ a = l₁.server.answer m := by
  induction turns generalizing l ms with
  | nil => simp [Link.await] at h
  | cons t turns ih =>
    rcases await_cases hinbox h with ⟨rfl, hhandle, ha⟩ |
      ⟨l₁, hrest, ⟨n, hn, hhandle, hl₁⟩ | ⟨n, rest, rfl, hhandle, hl₁⟩ | ⟨pid, -, rfl⟩⟩
    · exact ⟨{ l with inbox := [] }, rfl, fun P I _ _ hl ↦ hl, rfl, hhandle, Option.some.inj ha⟩
    · obtain ⟨l₂, hpid, hkeeps, hdone⟩ := ih hl₁ hrest
      refine ⟨l₂, hpid.trans (handle_pid hhandle), fun P I hI hP hl ↦ ?_, hdone⟩
      refine hkeeps P I hI ⟨hP.received, hP.waiting⟩ ?_
      exact hI.receive (hP.received n hn) hl (handle_mail hhandle ms)
    · obtain ⟨l₂, hpid, hkeeps, hdone⟩ := ih hl₁ hrest
      have hpid₁ : l₁.pid = l.pid := handle_pid (l := { l with inbox := rest ++ [m] }) hhandle
      refine ⟨l₂, hpid.trans hpid₁, fun P I hI hP hl ↦ ?_, hdone⟩
      have hn := hP.waiting n List.mem_cons_self
      refine hkeeps P I hI ⟨hP.received, fun k hk ↦ hP.waiting k (List.mem_cons_of_mem n hk)⟩ ?_
      exact hI.serve hn hl rfl (handle_mail (l := { l with inbox := rest ++ [m] }) hhandle rest)
    · exact absurd hrest (await_empty rfl)

theorem call_answered {target : ℕ} {turns : List Turn} {a : Except Refusal Unit} {m : Message}
    (h : l.call target m turns = some (l', some a)) :
    target = l.pid ∧ ∃ l₁, l₁.pid = l.pid ∧ (∀ P I, Closed P I → Confined P l → I l → I l₁) ∧
      l₁.inbox = [] ∧ l₁.handle m = some l' ∧ a = l₁.server.answer m := by
  unfold Link.call at h
  split at h
  case isTrue htarget =>
    exact ⟨htarget, await_answered (l := { l with inbox := l.inbox ++ [m] }) rfl h⟩
  case isFalse => split at h <;> cases h

/-- A request that is not answered is still waiting, or it was lost in a restart. -/
theorem await_unanswered {turns : List Turn} {m : Message} {ms : List Message}
    (hinbox : l.inbox = ms ++ [m]) (h : l.await turns = some (l', none)) :
    m ∈ l'.inbox ∨ ∀ P I, Closed P I → Confined P { l with inbox := ms } →
      I { l with inbox := ms } → I l' := by
  induction turns generalizing l ms with
  | nil =>
    cases h
    exact .inl (by simp [hinbox])
  | cons t turns ih =>
    rcases await_cases hinbox h with ⟨-, -, ha⟩ |
      ⟨l₁, hrest, ⟨n, hn, hhandle, hl₁⟩ | ⟨n, rest, rfl, hhandle, hl₁⟩ | ⟨pid, hpid, rfl⟩⟩
    · cases ha
    · refine (ih hl₁ hrest).imp id fun hkeeps P I hI hP hl ↦ ?_
      refine hkeeps P I hI ⟨hP.received, hP.waiting⟩ ?_
      exact hI.receive (hP.received n hn) hl (handle_mail hhandle ms)
    · refine (ih hl₁ hrest).imp id fun hkeeps P I hI hP hl ↦ ?_
      have hn := hP.waiting n List.mem_cons_self
      refine hkeeps P I hI ⟨hP.received, fun k hk ↦ hP.waiting k (List.mem_cons_of_mem n hk)⟩ ?_
      exact hI.serve hn hl rfl (handle_mail (l := { l with inbox := rest ++ [m] }) hhandle rest)
    · refine .inr fun P I hI hP hl ↦ ?_
      have hrestarted := hI.restart (l := { l with inbox := ms }) hpid hl
      exact (hI.await ⟨hP.received, by simp⟩ hrestarted hrest).1

/-- A granted reservation has a new identifier. -/
theorem reserve_fresh {target r : ℕ} {turns : List Turn} {a : Except Refusal Unit} {task : Binary}
    {queue : Option Binary} (h : l.call target (.reserve task queue r) turns = some (l', some a)) :
    r ∉ l.issued ∧ r ∈ l'.issued := by
  obtain ⟨-, l₁, -, hkeeps, -, hhandle, -⟩ := call_answered h
  have hissued := hkeeps _ _ (issued_closed l.issued) (confined_any l) Finset.Subset.rfl
  unfold Link.handle at hhandle
  split at hhandle
  case isTrue hguard =>
    obtain ⟨r', -, rfl⟩ := Option.map_eq_some_iff.mp hhandle
    simp only [Bool.and_eq_true, decide_eq_true_eq, drawn, Finset.disjoint_singleton_left] at hguard
    exact ⟨fun hr ↦ hguard.2 (hissued hr), Finset.mem_union_left _ (Finset.mem_singleton_self r)⟩
  case isFalse => cases hhandle

/-! ## What a server holds -/

def reserves : Message → Bool
  | .reserve .. => true
  | _ => false

/-- Every message but a reservation. -/
def quiet (m : Message) : Prop := reserves m = false

instance (m : Message) : Decidable (quiet m) := inferInstanceAs (Decidable (reserves m = false))

theorem confined_quiet (h : ∀ m ∈ l.inbox, quiet m) : Confined quiet l := by
  refine ⟨fun m hm ↦ ?_, h⟩
  cases m <;> first | rfl | cases hm

/-- A message that reserves nothing makes the server hold no more, and a release makes it hold
less. -/
theorem handle_held {m : Message} {r : ℕ} (hm : quiet m) (h : l.handle m = some l')
    (hr : l'.server.held r = true) : l.server.held r = true ∧ m ≠ .release r := by
  unfold Link.handle at h
  split at h
  case isFalse => cases h
  case isTrue =>
    obtain ⟨x, hx, rfl⟩ := Option.map_eq_some_iff.mp h
    refine ⟨?_, ?_⟩
    · rcases Server.handle_held hx hr with hold | ⟨task, queue, rfl⟩
      · exact hold
      · cases hm
    · rintro rfl
      cases hx
      rw [Server.release_held] at hr
      cases hr

/-- Every reservation the server holds is for something, or its release is on the way. -/
def Backs (base : ℕ → Prop) (pid : ℕ) (l : Link) : Prop :=
  ∀ r, l.server.held r = true → (base r ∧ l.pid = pid) ∨ .release r ∈ l.inbox

theorem backs_closed (base : ℕ → Prop) (pid : ℕ) : Closed quiet (Backs base pid) where
  receive := by
    intro l l' m hm h hhandle r hr
    rw [handle_pid hhandle, handle_inbox hhandle]
    exact h r (handle_held hm hhandle hr).1
  serve := by
    intro l l' m rest hm h hinbox hhandle r hr
    obtain ⟨hold, hne⟩ := handle_held (l := { l with inbox := rest }) hm hhandle hr
    rw [handle_pid hhandle, handle_inbox hhandle]
    refine (h r hold).imp id fun hwaiting ↦ ?_
    rw [hinbox] at hwaiting
    exact (List.mem_cons.mp hwaiting).resolve_left fun heq ↦ hne heq.symm
  push := fun _ h r hr ↦ (h r hr).imp id fun hwaiting ↦ List.mem_append_left _ hwaiting
  restart := by
    intro l pid' _ _ r hr
    simp [Server.held, restarted] at hr

/-- After a release nothing need be left of what it releases. -/
theorem Backs.release {base : ℕ → Prop} {pid r target : ℕ} {turns : List Turn}
    {answer : Option (Except Refusal Unit)} (h : Backs base pid l) (hP : Confined quiet l)
    (hbase : base r → target = pid)
    (hc : l.call target (.release r) turns = some (l', answer)) :
    Backs (fun x ↦ base x ∧ x ≠ r) pid l' ∧ Confined quiet l' := by
  unfold Link.call at hc
  split at hc
  case isTrue htarget =>
    have hquiet : quiet (.release r) := rfl
    refine (backs_closed (fun x ↦ base x ∧ x ≠ r) pid).await (hP.push hquiet) ?_ hc
    intro x hx
    by_cases heq : x = r
    · exact .inr (by simp [heq])
    · exact (h x hx).imp (fun hx ↦ ⟨⟨hx.1, heq⟩, hx.2⟩) fun hwaiting ↦ List.mem_append_left _ hwaiting
  case isFalse htarget =>
    split at hc <;> cases hc
    refine ⟨fun x hx ↦ (h x hx).imp (fun hb ↦ ⟨⟨hb.1, ?_⟩, hb.2⟩) id, hP⟩
    rintro rfl
    exact htarget ((hbase hb.1).trans hb.2.symm)

/-- A reservation that is granted is the only one the server did not hold before. -/
theorem Backs.granted {base : ℕ → Prop} {pid target r : ℕ} {task : Binary} {queue : Option Binary}
    {turns : List Turn} {a : Except Refusal Unit} (h : Backs base pid l) (hP : Confined quiet l)
    (hc : l.call target (.reserve task queue r) turns = some (l', some a)) :
    target = l.pid ∧ l'.pid = l.pid ∧ l'.inbox = [] ∧
      Backs (fun x ↦ x = r ∨ (base x ∧ l.pid = pid)) l.pid l' := by
  obtain ⟨htarget, l₁, hpid, hkeeps, hempty, hhandle, -⟩ := call_answered hc
  have hbacks := hkeeps _ _ (backs_closed base pid) hP h
  have hpid' := (handle_pid hhandle).trans hpid
  refine ⟨htarget, hpid', (handle_inbox hhandle).trans hempty, fun x hx ↦ .inl ⟨?_, hpid'⟩⟩
  unfold Link.handle at hhandle
  split at hhandle
  case isFalse => cases hhandle
  case isTrue =>
    obtain ⟨y, hy, rfl⟩ := Option.map_eq_some_iff.mp hhandle
    rcases Server.handle_held hy hx with hold | ⟨_, _, heq⟩
    · rcases hbacks x hold with hbase | hwaiting
      · exact .inr ⟨hbase.1, hpid ▸ hbase.2⟩
      · simp [hempty] at hwaiting
    · cases heq
      exact .inl rfl

/-- A reservation that is not granted leaves nothing, once its request is not waiting any more. -/
theorem Backs.unavailable {base : ℕ → Prop} {pid target r : ℕ} {task : Binary}
    {queue : Option Binary} {turns : List Turn} {answer : Option (Except Refusal Unit)}
    (h : Backs base pid l) (hP : Confined quiet l)
    (hc : l.call target (.reserve task queue r) turns = some (l', answer))
    (hanswer : answer ≠ some (.ok ())) (hquiet : ∀ m ∈ l'.inbox, quiet m) : Backs base pid l' := by
  cases answer with
  | some a =>
    obtain ⟨-, l₁, -, hkeeps, -, hhandle, rfl⟩ := call_answered hc
    have hbacks := hkeeps _ _ (backs_closed base pid) hP h
    unfold Link.handle at hhandle
    split at hhandle
    case isFalse => cases hhandle
    case isTrue =>
      obtain ⟨y, hy, rfl⟩ := Option.map_eq_some_iff.mp hhandle
      -- a refused reservation leaves the server as it was
      have hsame : y.1 = l₁.server := by
        cases hy
        simp only [Server.answer] at hanswer
        cases hreserve : l₁.server.reserve task queue r with
        | error e => rfl
        | ok x => simp [hreserve, Functor.map, Except.map] at hanswer
      intro x hx
      rw [hsame] at hx
      exact hbacks x hx
  | none =>
    unfold Link.call at hc
    split at hc
    case isTrue =>
      rcases await_unanswered (l := { l with inbox := l.inbox ++ [.reserve task queue r] }) rfl hc
        with hwaiting | hkeeps
      · cases hquiet _ hwaiting
      · exact hkeeps _ _ (backs_closed base pid) ⟨hP.received, hP.waiting⟩ h
    case isFalse =>
      split at hc <;> cases hc
      exact h

end Link

end Tay.Execution
