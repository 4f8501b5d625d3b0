import Mathlib.Algebra.Ring.Int.Defs
import Tay.State.Transition

/-!
# The shared memory budget

`Tay.State.Memory`: one counter for everything the engine retains and every payload admitted on its
way to the engine. A reservation is a compare-and-exchange against the limit; a release subtracts.

A commit of the engine runs as a transaction. It takes what it may need before the work, and settles
the difference afterwards; transactions nest, when an append adopts a published epoch, and follow one
another inside one settlement, when a result is stored behind its finish. What is taken and not
accounted yet is held as credit in the process dictionary, and the outermost block returns it.

A block is described by the actions it performs on the counter and on the engine's accounts, with
whatever the counter answers to a reservation. Other processes may act in between, so nothing is said
about the value of the counter, only about what the block adds to it.
-/

namespace Tay.Memory

/-- `reserve`; `none` when the limit would be exceeded. -/
def reserve (limit counter : ℤ) (bytes : ℕ) : Option ℤ :=
  if limit < counter + bytes then none else some (counter + bytes)

/-- `release`. -/
def release (counter : ℤ) (bytes : ℕ) : ℤ := counter - bytes

theorem reserve_eq_some {limit counter counter' : ℤ} {bytes : ℕ}
    (h : reserve limit counter bytes = some counter') :
    counter' = counter + bytes ∧ counter' ≤ limit := by
  unfold reserve at h
  split at h
  · cases h
  · cases h
    exact ⟨rfl, by omega⟩

/-! ## Transactions -/

inductive Action
  /-- A reservation that was granted. -/
  | reserve (bytes : ℕ)
  | release (bytes : ℕ)
  /-- The engine's accounted bytes change. -/
  | account (delta : ℤ)
  deriving DecidableEq, Repr

/-- How a function ends. -/
inductive Flow
  | done
  | raised
  deriving DecidableEq, Repr

/-- `take`: what it asks the counter for, and the credit that is left. -/
def take (credit bytes : ℕ) : List Action × ℕ :=
  ([.reserve (bytes - min credit bytes)], credit - min credit bytes)

/-- One call of `transact`, or several inside one function. -/
inductive Extent
  | transact
  | block
  deriving DecidableEq, Repr

/-- A run of the transaction code, from one credit to another: the actions it performs and how it
ends. -/
inductive Runs : Extent → ℕ → List Action → ℕ → Flow → Prop
  /-- The counter refuses what the transaction wants to take. -/
  | refused (credit : ℕ) : Runs .transact credit [] credit .done
  /-- The work succeeds and needs no more than was taken. -/
  | committed {credit rest : ℕ} {delta actual : ℤ} {inner : List Action} :
      Runs .block (take credit delta.toNat).2 inner rest .done → actual.toNat ≤ delta.toNat →
      Runs .transact credit ((take credit delta.toNat).1 ++ inner ++ [.account actual])
        (rest + (delta.toNat - actual.toNat) + (-actual).toNat) .done
  /-- The work succeeds and needs more, which is taken. -/
  | extended {credit rest : ℕ} {delta actual : ℤ} {inner : List Action} :
      Runs .block (take credit delta.toNat).2 inner rest .done → delta.toNat < actual.toNat →
      Runs .transact credit ((take credit delta.toNat).1 ++ inner ++
          (take rest (actual.toNat - delta.toNat)).1 ++ [.account actual])
        (take rest (actual.toNat - delta.toNat)).2 .done
  /-- The work is refused. -/
  | failed {credit rest : ℕ} {delta : ℤ} {inner : List Action} :
      Runs .block (take credit delta.toNat).2 inner rest .done →
      Runs .transact credit ((take credit delta.toNat).1 ++ inner) (rest + delta.toNat) .done
  /-- The work raises, or what it needs beyond the estimate is refused. -/
  | raised {credit rest : ℕ} {delta : ℤ} {inner : List Action} {flow : Flow} :
      Runs .block (take credit delta.toNat).2 inner rest flow →
      Runs .transact credit ((take credit delta.toNat).1 ++ inner) (rest + delta.toNat) .raised
  /-- A function without transactions. -/
  | empty (credit : ℕ) (flow : Flow) : Runs .block credit [] credit flow
  /-- The first transaction raises. -/
  | stopped {credit rest : ℕ} {actions : List Action} :
      Runs .transact credit actions rest .raised → Runs .block credit actions rest .raised
  | next {credit between rest : ℕ} {first others : List Action} {flow : Flow} :
      Runs .transact credit first between .done → Runs .block between others rest flow →
      Runs .block credit (first ++ others) rest flow

/-- `settling`: a function run from no credit; what is left of the credit is returned, also when it
raises. -/
inductive Settles : List Action → Flow → Prop
  | intro {actions : List Action} {credit : ℕ} {flow : Flow} : Runs .block 0 actions credit flow →
      Settles (actions ++ [.release credit]) flow

/-- What an action adds to the counter beyond what the engine accounts. -/
def Action.held : Action → ℤ
  | .reserve bytes => bytes
  | .release bytes => -bytes
  | .account delta => -delta

def held (actions : List Action) : ℤ := (actions.map Action.held).sum

@[simp] theorem held_nil : held [] = 0 := rfl

@[simp] theorem held_append (first others : List Action) :
    held (first ++ others) = held first + held others := by
  simp [held]

@[simp] theorem held_account (delta : ℤ) : held [.account delta] = -delta := by simp [held, Action.held]

@[simp] theorem held_release (bytes : ℕ) : held [.release bytes] = -bytes := by
  simp [held, Action.held]

/-- Taking moves the credit and the counter by what is taken. -/
theorem held_take (credit bytes : ℕ) :
    held (take credit bytes).1 + credit = (take credit bytes).2 + bytes := by
  simp only [take, held, Action.held, List.map_cons, List.map_nil, List.sum_cons, List.sum_nil]
  omega

/-- What a run holds beyond the engine's accounts is the credit it leaves. -/
theorem Runs.held_eq {extent : Extent} {credit rest : ℕ} {actions : List Action} {flow : Flow}
    (h : Runs extent credit actions rest flow) : held actions + credit = rest := by
  induction h with
  | refused => simp
  | @committed credit rest delta actual inner _ hle ih =>
    have htake := held_take credit delta.toNat
    simp only [held_append, held_account]
    omega
  | @extended credit rest delta actual inner _ hlt ih =>
    have htake := held_take credit delta.toNat
    have hextra := held_take rest (actual.toNat - delta.toNat)
    simp only [held_append, held_account]
    omega
  | @failed credit rest delta inner _ ih | @raised credit rest delta inner flow _ ih =>
    have htake := held_take credit delta.toNat
    simp only [held_append]
    omega
  | empty => simp
  | stopped _ ih => exact ih
  | next _ _ hfirst hothers =>
    simp only [held_append]
    omega

/-- **A settlement keeps the books.** However its transactions nest, succeed, fail or raise, what it
adds to the counter is what it adds to the engine's accounts. -/
theorem Settles.balanced {actions : List Action} {flow : Flow} (h : Settles actions flow) :
    held actions = 0 := by
  obtain ⟨hblock⟩ := h
  have := hblock.held_eq
  simp only [held_append, held_release]
  omega

end Tay.Memory
