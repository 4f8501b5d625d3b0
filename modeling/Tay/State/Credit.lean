import Mathlib.Algebra.Ring.Int.Defs
import Tay.Foundation.Run
import Tay.State.Memory

/-!
# Nested transactions and other processes

`Tay.State.Memory` step by step: a reservation reads the counter and exchanges it, and starts again when
another process was faster. One process runs its calls, nested as its functions nest them; other processes
reserve and release between any two steps.

What a function does is a tree, because what it does after a call may depend on the answer. The calls in
progress are a stack. An open call holds what it took until it is settled, and the credit in the process
dictionary is what has been taken and not used, so the counter is always what was accounted, what others
hold, the credit, and what the calls in progress hold.
-/

open Foundation

namespace Tay.Memory

/-- How a function answers: with `:ok` and the delta it had, if it states one, with anything else, or by
raising. -/
inductive Answer
  | ok (actual : Option ℤ)
  | other
  | raised
  deriving DecidableEq, Repr

/-- What a function does with the memory. -/
inductive Script
  | answer (a : Answer)
  | transaction (delta : ℤ) (work : Script) (next : Answer → Script)
  | settling (work : Script) (next : Answer → Script)

/-- A call in progress. -/
inductive Call
  /-- The outermost settlement. -/
  | settling (next : Answer → Script)
  /-- A settlement inside another. -/
  | nested (next : Answer → Script)
  /-- The work of a transaction. -/
  | transaction (delta : ℤ)

/-- What `take` is called for: to begin the work, or for what the work needs beyond the estimate. -/
inductive Purpose
  | begin (work : Script)
  | extra (actual : ℤ)

/-- What the process does next. `seen` is the value `reserve` has read. -/
inductive Control
  | run (script : Script)
  | take (purpose : Purpose) (delta bytes : ℤ) (seen : Option ℤ)
  | answer (a : Answer)

/-- A reservation of another process, and the value it has read. -/
structure Reserving where
  bytes : ℕ
  seen : Option ℤ

structure World where
  counter : ℤ
  /-- The entry of the process dictionary. -/
  credit : Option ℤ
  calls : List Call
  control : Control
  others : ℕ → Option Reserving
  /-- What the transactions that succeeded have accounted. -/
  accounted : ℤ
  /-- What the other processes have reserved and not released. -/
  foreign : ℤ

inductive Label
  | own
  /-- Another process starts a reservation. -/
  | begin (pid bytes : ℕ)
  | proceed (pid : ℕ)
  | release (bytes : ℕ)

/-- `max(delta, 0)`. -/
def upper (delta : ℤ) : ℤ := max delta 0

def World.held (w : World) : ℤ := w.credit.getD 0

/-- What `take` asks the counter for: less the credit it can use. -/
def World.wanted (w : World) (bytes : ℤ) : ℤ := bytes - min w.held bytes

/-- A call of `settling`. -/
def World.enter (w : World) (next : Answer → Script) (control : Control) : World :=
  if w.credit.isSome then { w with calls := .nested next :: w.calls, control := control }
  else { w with credit := some 0, calls := .settling next :: w.calls, control := control }

/-- The work of a transaction has failed: what was taken is credit. -/
def World.fail (w : World) (delta : ℤ) (a : Answer) : World :=
  { w with credit := some (w.held + upper delta), control := .answer a }

/-- The work of a transaction has answered. -/
def World.settle (w : World) (delta : ℤ) (a : Answer) : World :=
  match a with
  | .ok actual =>
    let actual := actual.getD delta
    let extra := upper actual - upper delta
    if 0 < extra then { w with control := .take (.extra actual) delta extra none }
    else
      { w with
        credit := some (w.held - extra - min actual 0)
        control := .answer (.ok none)
        accounted := w.accounted + actual }
  | a => w.fail delta a

/-- `take` is granted. -/
def World.granted (w : World) (purpose : Purpose) (delta bytes : ℤ) : World :=
  let w := { w with
    counter := w.counter + w.wanted bytes
    credit := some (w.held - min w.held bytes) }
  match purpose with
  | .begin work => { w with calls := .transaction delta :: w.calls, control := .run work }
  | .extra actual => { w with control := .answer (.ok none), accounted := w.accounted + actual }

/-- And refused: the first is the answer of the call, the second a failed match. -/
def World.refused (w : World) (purpose : Purpose) (delta : ℤ) : World :=
  match purpose with
  | .begin _ => { w with control := .answer .other }
  | .extra _ => w.fail delta .raised

variable (limit : ℤ)

/-- One step of the process. -/
def World.own (w : World) : Option World :=
  match w.control with
  | .run (.answer a) => some { w with control := .answer a }
  | .run (.transaction delta work next) =>
    some (w.enter next (.take (.begin work) delta (upper delta) none))
  | .run (.settling work next) => some (w.enter next (.run work))
  | .take purpose delta bytes none =>
    if limit < w.counter + w.wanted bytes then some (w.refused purpose delta)
    else some { w with control := .take purpose delta bytes (some w.counter) }
  | .take purpose delta bytes (some seen) =>
    if w.counter = seen then some (w.granted purpose delta bytes)
    else some { w with control := .take purpose delta bytes none }
  | .answer a =>
    match w.calls with
    | [] => none
    | .settling next :: calls =>
      some { w with
        counter := w.counter - w.held, credit := none, calls := calls, control := .run (next a) }
    | .nested next :: calls => some { w with calls := calls, control := .run (next a) }
    | .transaction delta :: calls => some (World.settle { w with calls := calls } delta a)

/-- One step of another process's reservation. -/
def World.other (w : World) (pid : ℕ) (r : Reserving) : World :=
  match r.seen with
  | none =>
    if limit < w.counter + r.bytes then { w with others := Function.update w.others pid none }
    else { w with others := Function.update w.others pid (some ⟨r.bytes, some w.counter⟩) }
  | some seen =>
    if w.counter = seen then
      { w with
        counter := w.counter + r.bytes
        others := Function.update w.others pid none
        foreign := w.foreign + r.bytes }
    else { w with others := Function.update w.others pid (some ⟨r.bytes, none⟩) }

def step (w : World) : Label → Option World
  | .own => w.own limit
  | .begin pid bytes =>
    match w.others pid with
    | none => some { w with others := Function.update w.others pid (some ⟨bytes, none⟩) }
    | some _ => none
  | .proceed pid => (w.others pid).map (w.other limit pid)
  | .release bytes =>
    some { w with counter := w.counter - bytes, foreign := w.foreign - bytes }

/-- The process runs a script; nothing is reserved yet. -/
def machine (start : ℤ) (script : Script) : Machine World Label where
  initial w := w = ⟨start, none, [], .run script, fun _ ↦ none, 0, 0⟩
  step := step limit

/-! ## What the calls in progress hold -/

/-- What a call took before its work. -/
def Call.owed : Call → ℤ
  | .transaction delta => upper delta
  | _ => 0

def owed (calls : List Call) : ℤ := (calls.map Call.owed).sum

/-- While more is taken, the call still holds what it took. -/
def Control.owed : Control → ℤ
  | .take (.extra _) delta _ _ => upper delta
  | _ => 0

@[simp] theorem owed_nil : owed [] = 0 := rfl

@[simp] theorem owed_cons (call : Call) (calls : List Call) : owed (call :: calls) = call.owed + owed calls := by
  simp [owed]

/-- Calls inside one outermost settlement. -/
inductive Open : List Call → Prop
  | settling (next : Answer → Script) : Open [.settling next]
  | nested {calls : List Call} (next : Answer → Script) : Open calls → Open (.nested next :: calls)
  | transaction {calls : List Call} (delta : ℤ) : Open calls → Open (.transaction delta :: calls)

/-- No call is in progress and there is no credit, or there is an outermost settlement and its credit. -/
def Settled (calls : List Call) (credit : Option ℤ) : Prop :=
  (calls = [] ∧ credit = none) ∨ (Open calls ∧ ∃ c, credit = some c ∧ 0 ≤ c)

/-- What `take` is asked for, by its purpose. -/
def Purpose.asks (purpose : Purpose) (delta bytes : ℤ) : Prop :=
  match purpose with
  | .begin _ => bytes = upper delta
  | .extra actual => bytes = upper actual - upper delta ∧ 0 < bytes

/-- A reservation that has read the counter, and may go on. -/
structure Taking (w : World) (purpose : Purpose) (delta bytes : ℤ) (seen : Option ℤ) : Prop where
  inside : Open w.calls
  asks : purpose.asks delta bytes
  room : ∀ v, seen = some v → v + w.wanted bytes ≤ limit

structure Sound (start : ℤ) (w : World) : Prop where
  books : w.counter = start + w.accounted + w.foreign + w.held + owed w.calls + w.control.owed
  settled : Settled w.calls w.credit
  taking : ∀ purpose delta bytes seen, w.control = .take purpose delta bytes seen →
    Taking limit w purpose delta bytes seen
  others : ∀ pid r v, w.others pid = some r → r.seen = some v → v + r.bytes ≤ limit

variable {limit} {start : ℤ} {w w' : World}

theorem upper_nonneg (delta : ℤ) : 0 ≤ upper delta := le_max_right _ _

theorem Purpose.asks_nonneg {purpose : Purpose} {delta bytes : ℤ} (h : purpose.asks delta bytes) : 0 ≤ bytes := by
  cases purpose with
  | begin work =>
    rw [show bytes = upper delta from h]
    exact upper_nonneg delta
  | extra actual => exact h.2.le

theorem Settled.held_nonneg (h : Settled w.calls w.credit) : 0 ≤ w.held := by
  rcases h with ⟨-, hcredit⟩ | ⟨-, c, hcredit, hc⟩
  · rw [World.held, hcredit]
    exact le_refl 0
  · rw [World.held, hcredit]
    exact hc

theorem Settled.credit_of_open (h : Settled w.calls w.credit) (hopen : Open w.calls) :
    ∃ c, w.credit = some c ∧ 0 ≤ c := by
  rcases h with ⟨hcalls, -⟩ | ⟨-, hcredit⟩
  · rw [hcalls] at hopen
    cases hopen
  · exact hcredit

/-- A state that does not reserve. -/
theorem Sound.of_books (hbooks : w'.counter = start + w'.accounted + w'.foreign + w'.held + owed w'.calls)
    (hsettled : Settled w'.calls w'.credit)
    (htaking : ∀ purpose delta bytes seen, w'.control ≠ .take purpose delta bytes seen)
    (hothers : ∀ pid r v, w'.others pid = some r → r.seen = some v → v + r.bytes ≤ limit) :
    Sound limit start w' := by
  refine ⟨?_, hsettled, fun purpose delta bytes seen h ↦ absurd h (htaking _ _ _ _), hothers⟩
  have howed : w'.control.owed = 0 := by
    cases hcontrol : w'.control with
    | take purpose delta bytes seen => exact absurd hcontrol (htaking _ _ _ _)
    | run script => rfl
    | answer a => rfl
  rw [howed, hbooks]
  omega

/-! ## The steps of the process -/

/-- A settlement begins. -/
theorem Sound.enter (h : Sound limit start w) (howed : w.control.owed = 0) (next : Answer → Script)
    {control : Control} (hcontrol : control.owed = 0)
    (htaking : ∀ purpose delta bytes seen, control = .take purpose delta bytes seen →
      purpose.asks delta bytes ∧ seen = none) :
    Sound limit start (w.enter next control) := by
  have hbooks := h.books
  rw [howed] at hbooks
  rcases h.settled with ⟨hcalls, hcredit⟩ | ⟨hopen, c, hcredit, hc⟩
  · have henter : w.enter next control =
        { w with credit := some 0, calls := .settling next :: w.calls, control := control } := by
      rw [World.enter, hcredit]
      rfl
    have hopen : Open (.settling next :: w.calls) := by
      rw [hcalls]
      exact .settling next
    rw [henter]
    refine ⟨?_, .inr ⟨hopen, 0, rfl, le_refl 0⟩, ?_, h.others⟩
    · simp only [World.held, hcredit, Option.getD_none, Option.getD_some, owed_cons, Call.owed, hcontrol] at hbooks ⊢
      omega
    · intro purpose delta bytes seen hctl
      obtain ⟨hasks, rfl⟩ := htaking purpose delta bytes seen hctl
      exact ⟨hopen, hasks, fun v hv ↦ by cases hv⟩
  · have henter : w.enter next control = { w with calls := .nested next :: w.calls, control := control } := by
      rw [World.enter, hcredit]
      rfl
    rw [henter]
    refine ⟨?_, .inr ⟨.nested next hopen, c, hcredit, hc⟩, ?_, h.others⟩
    · simp only [World.held, owed_cons, Call.owed, hcontrol] at hbooks ⊢
      omega
    · intro purpose delta bytes seen hctl
      obtain ⟨hasks, rfl⟩ := htaking purpose delta bytes seen hctl
      exact ⟨.nested next hopen, hasks, fun v hv ↦ by cases hv⟩

/-- The work has failed: what was owed is credit. -/
theorem sound_fail {delta : ℤ} {a : Answer} (hopen : Open w.calls) (hcredit : ∃ c, w.credit = some c ∧ 0 ≤ c)
    (hbooks : w.counter = start + w.accounted + w.foreign + w.held + owed w.calls + upper delta)
    (hothers : ∀ pid r v, w.others pid = some r → r.seen = some v → v + r.bytes ≤ limit) :
    Sound limit start (w.fail delta a) := by
  obtain ⟨c, hc, hnonneg⟩ := hcredit
  have hupper := upper_nonneg delta
  have hheld : w.held = c := by rw [World.held, hc, Option.getD_some]
  refine Sound.of_books ?_ (.inr ⟨hopen, _, rfl, ?_⟩) (fun _ _ _ _ h ↦ by cases h) hothers
  · show w.counter = start + w.accounted + w.foreign + (w.held + upper delta) + owed w.calls
    omega
  · omega

/-- The work has answered. -/
theorem sound_settle {delta : ℤ} {a : Answer} (hopen : Open w.calls) (hcredit : ∃ c, w.credit = some c ∧ 0 ≤ c)
    (hbooks : w.counter = start + w.accounted + w.foreign + w.held + owed w.calls + upper delta)
    (hothers : ∀ pid r v, w.others pid = some r → r.seen = some v → v + r.bytes ≤ limit) :
    Sound limit start (w.settle delta a) := by
  cases a with
  | other | raised => exact sound_fail hopen hcredit hbooks hothers
  | ok actual =>
    obtain ⟨c, hc, hnonneg⟩ := hcredit
    have hheld : w.held = c := by rw [World.held, hc, Option.getD_some]
    simp only [World.settle]
    split
    · rename_i hextra
      refine ⟨hbooks, .inr ⟨hopen, c, hc, hnonneg⟩, ?_, hothers⟩
      intro purpose delta' bytes seen h
      cases h
      exact ⟨hopen, ⟨rfl, hextra⟩, fun v hv ↦ by cases hv⟩
    · rename_i hextra
      rw [upper, upper] at hextra
      refine Sound.of_books ?_ (.inr ⟨hopen, _, rfl, ?_⟩) (fun _ _ _ _ h ↦ by cases h) hothers
      · simp only [World.held, Option.getD_some, upper] at hbooks ⊢
        omega
      · simp only [upper]
        omega

/-- A reservation is granted. -/
theorem Sound.granted (h : Sound limit start w) {purpose : Purpose} {delta bytes : ℤ} {seen : Option ℤ}
    (hcontrol : w.control = .take purpose delta bytes seen) :
    Sound limit start (w.granted purpose delta bytes) := by
  have ht := h.taking purpose delta bytes seen hcontrol
  obtain ⟨c, hc, hnonneg⟩ := h.settled.credit_of_open ht.inside
  have hbytes := Purpose.asks_nonneg ht.asks
  have hheld : w.held = c := by rw [World.held, hc, Option.getD_some]
  have hbooks := h.books
  rw [hcontrol] at hbooks
  cases purpose with
  | begin work =>
    have hasks : bytes = upper delta := ht.asks
    refine Sound.of_books ?_ (.inr ⟨.transaction delta ht.inside, _, rfl, ?_⟩) (fun _ _ _ _ h ↦ by cases h) h.others
    · simp only [World.granted, World.wanted, World.held, Option.getD_some, owed_cons, Call.owed, Control.owed,
        ← hasks] at hbooks ⊢
      omega
    · omega
  | extra actual =>
    obtain ⟨hasks, hpos⟩ := ht.asks
    rw [upper] at hasks
    refine Sound.of_books ?_ (.inr ⟨ht.inside, _, rfl, ?_⟩) (fun _ _ _ _ h ↦ by cases h) h.others
    · simp only [World.granted, World.wanted, World.held, Option.getD_some, Control.owed] at hbooks ⊢
      have hupper := upper_nonneg delta
      omega
    · omega

/-- And a reservation is refused. -/
theorem Sound.refused (h : Sound limit start w) {purpose : Purpose} {delta bytes : ℤ} {seen : Option ℤ}
    (hcontrol : w.control = .take purpose delta bytes seen) : Sound limit start (w.refused purpose delta) := by
  have ht := h.taking purpose delta bytes seen hcontrol
  have hbooks := h.books
  rw [hcontrol] at hbooks
  cases purpose with
  | begin work =>
    have hbooks' : w.counter = start + w.accounted + w.foreign + w.held + owed w.calls := by
      simpa [Control.owed] using hbooks
    exact Sound.of_books hbooks' h.settled (fun _ _ _ _ h ↦ by cases h) h.others
  | extra actual => exact sound_fail ht.inside (h.settled.credit_of_open ht.inside) hbooks h.others

/-- An answer goes to the innermost call. -/
theorem Sound.answered (h : Sound limit start w) {a : Answer} (hcontrol : w.control = .answer a)
    (hstep : w.own limit = some w') : Sound limit start w' := by
  have hbooks := h.books
  rw [hcontrol] at hbooks
  simp only [World.own, hcontrol] at hstep
  cases hcalls : w.calls with
  | nil =>
    rw [hcalls] at hstep
    cases hstep
  | cons call calls =>
    have hopen : Open (call :: calls) := by
      rcases h.settled with ⟨hnil, -⟩ | ⟨hopen, -⟩
      · rw [hcalls] at hnil
        cases hnil
      · rwa [hcalls] at hopen
    obtain ⟨c, hc, hnonneg⟩ := h.settled.credit_of_open (hcalls ▸ hopen)
    rw [hcalls] at hstep hbooks
    simp only [owed_cons, Control.owed] at hbooks
    cases hopen with
    | settling next =>
      cases hstep
      refine Sound.of_books ?_ (.inl ⟨rfl, rfl⟩) (fun _ _ _ _ h ↦ by cases h) h.others
      simp only [World.held, Option.getD_none, Call.owed, owed_nil] at hbooks ⊢
      omega
    | nested next hinner =>
      cases hstep
      refine Sound.of_books ?_ (.inr ⟨hinner, c, hc, hnonneg⟩) (fun _ _ _ _ h ↦ by cases h) h.others
      simp only [World.held, Call.owed] at hbooks ⊢
      omega
    | transaction delta hinner =>
      cases hstep
      refine sound_settle hinner ⟨c, hc, hnonneg⟩ ?_ h.others
      simp only [World.held, Call.owed] at hbooks ⊢
      omega

theorem Sound.own (h : Sound limit start w) (hstep : w.own limit = some w') : Sound limit start w' := by
  have hbooks := h.books
  cases hcontrol : w.control with
  | answer a => exact h.answered hcontrol hstep
  | run script =>
    rw [hcontrol] at hbooks
    cases script with
    | answer a =>
      simp only [World.own, hcontrol] at hstep
      cases hstep
      have hbooks' : w.counter = start + w.accounted + w.foreign + w.held + owed w.calls := by
        simpa [Control.owed] using hbooks
      exact Sound.of_books hbooks' h.settled (fun _ _ _ _ h ↦ by cases h) h.others
    | transaction delta work next =>
      simp only [World.own, hcontrol] at hstep
      cases hstep
      refine h.enter (by rw [hcontrol]; rfl) next rfl fun purpose delta' bytes seen heq ↦ ?_
      cases heq
      exact ⟨rfl, rfl⟩
    | settling work next =>
      simp only [World.own, hcontrol] at hstep
      cases hstep
      exact h.enter (by rw [hcontrol]; rfl) next rfl fun _ _ _ _ heq ↦ by cases heq
  | take purpose delta bytes seen =>
    have ht := h.taking purpose delta bytes seen hcontrol
    simp only [World.own, hcontrol] at hstep
    rw [hcontrol] at hbooks
    have hagain : ∀ seen' : Option ℤ, (∀ v, seen' = some v → v + w.wanted bytes ≤ limit) →
        Sound limit start { w with control := .take purpose delta bytes seen' } := by
      intro seen' hroom
      have howed : (Control.take purpose delta bytes seen').owed = (Control.take purpose delta bytes seen).owed := by
        cases purpose <;> rfl
      refine ⟨?_, h.settled, ?_, h.others⟩
      · rw [howed]
        exact hbooks
      · intro purpose' delta' bytes' seen'' heq
        cases heq
        exact ⟨ht.inside, ht.asks, hroom⟩
    cases seen with
    | none =>
      simp only at hstep
      split at hstep
      · cases hstep
        exact h.refused hcontrol
      · rename_i hroom
        cases hstep
        refine hagain (some w.counter) fun v hv ↦ ?_
        cases hv
        exact not_lt.mp hroom
    | some v =>
      simp only at hstep
      split at hstep
      · cases hstep
        exact h.granted hcontrol
      · cases hstep
        exact hagain none fun v hv ↦ by cases hv

/-! ## The other processes -/

/-- A step of another process leaves what the process holds alone. -/
theorem Sound.foreign (h : Sound limit start w) {counter foreign : ℤ} {others : ℕ → Option Reserving}
    (hbooks : counter - foreign = w.counter - w.foreign)
    (hothers : ∀ pid r v, others pid = some r → r.seen = some v → v + r.bytes ≤ limit) :
    Sound limit start { w with counter := counter, foreign := foreign, others := others } := by
  have hold := h.books
  refine ⟨?_, h.settled, ?_, hothers⟩
  · simp only [World.held] at hold ⊢
    omega
  · intro purpose delta bytes seen hcontrol
    obtain ⟨hinside, hasks, hroom⟩ := h.taking purpose delta bytes seen hcontrol
    exact ⟨hinside, hasks, hroom⟩

theorem others_update {others : ℕ → Option Reserving} {limit : ℤ}
    (h : ∀ pid r v, others pid = some r → r.seen = some v → v + r.bytes ≤ limit) (pid : ℕ) (entry : Option Reserving)
    (hentry : ∀ r v, entry = some r → r.seen = some v → v + r.bytes ≤ limit) :
    ∀ pid' r v, Function.update others pid entry pid' = some r → r.seen = some v → v + r.bytes ≤ limit := by
  intro pid' r v hr hv
  rw [Function.update_apply] at hr
  split at hr
  · exact hentry r v hr hv
  · exact h pid' r v hr hv

theorem Sound.step (h : Sound limit start w) {l : Label} (hstep : step limit w l = some w') :
    Sound limit start w' := by
  cases l with
  | own => exact h.own hstep
  | release bytes =>
    cases hstep
    exact h.foreign (by omega) h.others
  | begin pid bytes =>
    simp only [Memory.step] at hstep
    split at hstep
    · cases hstep
      refine h.foreign rfl (others_update h.others pid _ fun r v hr hv ↦ ?_)
      cases hr
      cases hv
    · cases hstep
  | proceed pid =>
    obtain ⟨r, hr, rfl⟩ := Option.map_eq_some_iff.mp hstep
    have hnone : ∀ r' v, (none : Option Reserving) = some r' → r'.seen = some v → v + r'.bytes ≤ limit := by
      intro r' v h'
      cases h'
    rw [World.other]
    cases hseen : r.seen with
    | none =>
      simp only
      split
      · exact h.foreign rfl (others_update h.others pid _ hnone)
      · rename_i hroom
        refine h.foreign rfl (others_update h.others pid _ fun r' v hr' hv ↦ ?_)
        cases hr'
        cases hv
        exact not_lt.mp hroom
    | some seen =>
      simp only
      split
      · exact h.foreign (by omega) (others_update h.others pid _ hnone)
      · refine h.foreign rfl (others_update h.others pid _ fun r' v hr' hv ↦ ?_)
        cases hr'
        cases hv

theorem sound_of_reachable {script : Script} (h : (machine limit start script).Reachable w) :
    Sound limit start w := by
  refine h.invariant ?_ fun w l w' hw hl ↦ hw.step hl
  rintro w rfl
  refine Sound.of_books ?_ (.inl ⟨rfl, rfl⟩) (fun _ _ _ _ h ↦ by cases h) fun _ _ _ h ↦ by cases h
  simp [World.held]

/-! ## Exact settlement -/

/-- The step is a compare-and-exchange that succeeds. -/
def Grants (w : World) (l : Label) : Prop :=
  (l = .own ∧ ∃ purpose delta bytes, w.control = .take purpose delta bytes (some w.counter)) ∨
    ∃ pid bytes, l = .proceed pid ∧ w.others pid = some ⟨bytes, some w.counter⟩

theorem granted_counter (w : World) (purpose : Purpose) (delta bytes : ℤ) :
    (w.granted purpose delta bytes).counter = w.counter + w.wanted bytes := by
  cases purpose <;> rfl

theorem settle_counter (w : World) (delta : ℤ) (a : Answer) : (w.settle delta a).counter = w.counter := by
  cases a with
  | ok actual =>
    simp only [World.settle]
    split <;> rfl
  | other | raised => rfl

/-- A reservation that is granted was within the limit when the counter was read, and the counter is what
was read. -/
theorem Sound.grants_le (h : Sound limit start w) {l : Label} (hstep : Memory.step limit w l = some w')
    (hgrants : Grants w l) : w'.counter ≤ limit := by
  rcases hgrants with ⟨rfl, purpose, delta, bytes, hcontrol⟩ | ⟨pid, bytes, rfl, hpid⟩
  · have hroom := (h.taking _ _ _ _ hcontrol).room w.counter rfl
    simp only [Memory.step, World.own, hcontrol, if_true] at hstep
    cases hstep
    rw [granted_counter]
    exact hroom
  · have hroom := h.others pid _ w.counter hpid rfl
    simp only [Memory.step, hpid, Option.map_some, World.other, if_true] at hstep
    cases hstep
    exact hroom

/-- Nothing else raises the counter: a settlement returns credit, which is never negative. -/
theorem Sound.raises (h : Sound limit start w) {l : Label} (hstep : Memory.step limit w l = some w')
    (hlt : w.counter < w'.counter) : Grants w l := by
  cases l with
  | release bytes =>
    cases hstep
    simp only at hlt
    omega
  | begin pid bytes =>
    simp only [Memory.step] at hstep
    split at hstep
    · cases hstep
      exact absurd hlt (lt_irrefl _)
    · cases hstep
  | proceed pid =>
    obtain ⟨⟨bytes, seen⟩, hr, rfl⟩ := Option.map_eq_some_iff.mp hstep
    rw [World.other] at hlt
    cases seen with
    | none =>
      simp only at hlt
      split at hlt <;> exact absurd hlt (lt_irrefl _)
    | some v =>
      simp only at hlt
      split at hlt
      · rename_i heq
        subst heq
        exact .inr ⟨pid, bytes, rfl, hr⟩
      · exact absurd hlt (lt_irrefl _)
  | own =>
    have hheld := h.settled.held_nonneg
    simp only [Memory.step, World.own] at hstep
    cases hcontrol : w.control with
    | run script =>
      rw [hcontrol] at hstep
      have henter : ∀ next control, (w.enter next control).counter = w.counter := by
        intro next control
        rw [World.enter]
        split <;> rfl
      cases script with
      | answer a =>
        cases hstep
        exact absurd hlt (lt_irrefl _)
      | transaction delta work next | settling work next =>
        cases hstep
        rw [henter] at hlt
        exact absurd hlt (lt_irrefl _)
    | take purpose delta bytes seen =>
      rw [hcontrol] at hstep
      cases seen with
      | none =>
        simp only at hstep
        split at hstep
        · cases hstep
          cases purpose <;> exact absurd hlt (lt_irrefl _)
        · cases hstep
          exact absurd hlt (lt_irrefl _)
      | some v =>
        simp only at hstep
        split at hstep
        · rename_i heq
          subst heq
          exact .inl ⟨rfl, purpose, delta, bytes, hcontrol⟩
        · cases hstep
          exact absurd hlt (lt_irrefl _)
    | answer a =>
      rw [hcontrol] at hstep
      simp only at hstep
      split at hstep
      · cases hstep
      · cases hstep
        simp only at hlt
        omega
      · cases hstep
        exact absurd hlt (lt_irrefl _)
      · cases hstep
        rw [settle_counter] at hlt
        exact absurd hlt (lt_irrefl _)

/-- **Exact settlement.** However the calls nest, succeed, fail or raise, and whatever other processes do in
between: when no call is in progress the counter has changed by what the transactions that succeeded have
accounted, and by what the others hold. The counter is raised by a reservation only, and no reservation
raises it above the limit. -/
theorem transactions_settle {script : Script} (h : (machine limit start script).Reachable w) :
    (w.calls = [] → w.counter = start + w.accounted + w.foreign) ∧
      ∀ (l : Label) (w' : World), Memory.step limit w l = some w' →
        (w.counter < w'.counter → Grants w l) ∧ (Grants w l → w'.counter ≤ limit) := by
  have hsound := sound_of_reachable h
  refine ⟨fun hcalls ↦ ?_, fun l w' hstep ↦ ⟨hsound.raises hstep, hsound.grants_le hstep⟩⟩
  have hbooks := hsound.books
  have hcredit : w.credit = none := by
    rcases hsound.settled with ⟨-, hcredit⟩ | ⟨hopen, -⟩
    · exact hcredit
    · rw [hcalls] at hopen
      cases hopen
  have howed : w.control.owed = 0 := by
    cases hcontrol : w.control with
    | run script => rfl
    | answer a => rfl
    | take purpose delta bytes seen =>
      have hinside := (hsound.taking _ _ _ _ hcontrol).inside
      rw [hcalls] at hinside
      cases hinside
  rw [World.held, hcredit, hcalls, howed] at hbooks
  simpa using hbooks

namespace Sample

/-- An estimate of 10 around an inner transaction of 3, which turns out to need 12. -/
def script : Script :=
  .transaction 10 (.transaction 3 (.answer (.ok none)) fun _ ↦ .answer (.ok (some 12))) .answer

/-- Another process reserves 7 between the read and the exchange, so the first exchange fails. -/
def labels : List Label :=
  [.own, .own, .begin 1 7, .proceed 1, .proceed 1, .own, .own, .own, .own, .own, .own, .own, .own, .own, .own, .own,
    .own, .own, .own, .release 2, .own]

end Sample

theorem transactions_settle_sample :
    ∃ w, (machine 100 5 Sample.script).Reachable w ∧ w.accounted = 15 ∧ w.foreign = 5 ∧ w.counter = 5 + 15 + 5 := by
  have hrun : ∃ w, (machine 100 5 Sample.script).run ⟨5, none, [], .run Sample.script, fun _ ↦ none, 0, 0⟩
      Sample.labels = some w ∧ w.calls = [] ∧ w.accounted = 15 ∧ w.foreign = 5 := ⟨_, rfl, rfl, rfl, rfl⟩
  obtain ⟨w, hw, hcalls, haccounted, hforeign⟩ := hrun
  have hreachable := Machine.reachable_of_run (M := machine 100 5 Sample.script) rfl hw
  have hcounter := (transactions_settle hreachable).1 hcalls
  rw [haccounted, hforeign] at hcounter
  exact ⟨w, hreachable, haccounted, hforeign, hcounter⟩

end Tay.Memory
