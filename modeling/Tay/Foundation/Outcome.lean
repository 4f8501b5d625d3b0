import Mathlib.Data.List.Basic

/-!
# Fallible computations

A computation that either returns a value or stops with a reason is a term of `Except ε α`. The
lemmas here peel such a computation apart one bind at a time, so that a proof about a chain of
checks never unfolds the monad.

The fold rules at the end are what a replay argument needs: a fold of a fallible step splits at any
point of its list, and a relation that every step preserves is preserved by the whole fold.
-/

namespace Foundation

variable {ε α β γ : Type}

/-- A guard: continue when `b` holds, stop with `e` otherwise. -/
def check (b : Bool) (e : ε) : Except ε Unit := if b then .ok () else .error e

@[simp] theorem check_true (e : ε) : check true e = .ok () := rfl

@[simp] theorem check_false (e : ε) : check false e = .error e := rfl

theorem check_eq_ok {b : Bool} {e : ε} {u : Unit} : check b e = .ok u ↔ b = true := by
  cases b <;> simp [check]

theorem bind_eq_ok {x : Except ε α} {f : α → Except ε β} {b : β} :
    x >>= f = .ok b ↔ ∃ a, x = .ok a ∧ f a = .ok b := by
  cases x with
  | error e =>
    constructor
    · intro h
      cases h
    · rintro ⟨a, ha, -⟩
      cases ha
  | ok a =>
    constructor
    · intro h
      exact ⟨a, rfl, h⟩
    · rintro ⟨a', ha, hf⟩
      cases ha
      exact hf

@[simp] theorem ok_bind (a : α) (f : α → Except ε β) : (Except.ok a >>= f) = f a := rfl

@[simp] theorem error_bind (e : ε) (f : α → Except ε β) :
    (Except.error e >>= f) = .error e := rfl

@[simp] theorem pure_eq_ok (a : α) : (pure a : Except ε α) = .ok a := rfl

@[simp] theorem map_ok (f : α → β) (a : α) : (f <$> (Except.ok a : Except ε α)) = .ok (f a) := rfl

@[simp] theorem map_error (f : α → β) (e : ε) :
    (f <$> (Except.error e : Except ε α)) = .error e := rfl

/-- A guarded computation succeeds exactly when the guard holds and the rest succeeds. -/
theorem check_bind_eq_ok {c : Bool} {e : ε} {f : Unit → Except ε β} {b : β} :
    check c e >>= f = .ok b ↔ c = true ∧ f () = .ok b := by
  cases c <;> simp [check]

theorem mapError_eq_ok {ε' : Type} {x : Except ε α} {f : ε → ε'} {a : α} :
    x.mapError f = .ok a ↔ x = .ok a := by
  cases x <;> simp [Except.mapError]

theorem map_eq_ok {x : Except ε α} {f : α → β} {b : β} :
    (f <$> x) = .ok b ↔ ∃ a, x = .ok a ∧ f a = b := by
  cases x <;> simp

theorem toOption_eq_some {x : Except ε α} {a : α} : x.toOption = some a ↔ x = .ok a := by
  cases x <;> simp [Except.toOption]

theorem exists_ok {x : Except ε α} (h : x.isOk = true) : ∃ a, x = .ok a := by
  cases x with
  | error e => cases h
  | ok a => exact ⟨a, rfl⟩

theorem eq_ok_of_isOk {x : Except ε α} {d : α} (h : x.isOk = true) :
    x = .ok (x.toOption.getD d) := by
  obtain ⟨a, rfl⟩ := exists_ok h
  rfl

/-! ## Where a failure can come from -/

/-- Every reason the computation can stop with satisfies `P`. -/
def FailsWith (P : ε → Prop) (x : Except ε α) : Prop := ∀ e, x = .error e → P e

theorem failsWith_ok (P : ε → Prop) (a : α) : FailsWith P (.ok a : Except ε α) := nofun

theorem failsWith_error {P : ε → Prop} {e : ε} (h : P e) :
    FailsWith P (.error e : Except ε α) := by
  rintro e' ⟨⟩
  exact h

theorem failsWith_check {P : ε → Prop} {b : Bool} {e : ε} (h : P e) : FailsWith P (check b e) := by
  cases b
  · exact failsWith_error h
  · exact failsWith_ok P ()

theorem FailsWith.bind {P : ε → Prop} {x : Except ε α} {f : α → Except ε β} (hx : FailsWith P x)
    (hf : ∀ a, x = .ok a → FailsWith P (f a)) : FailsWith P (x >>= f) := by
  cases x with
  | error e => exact failsWith_error (hx e rfl)
  | ok a => exact hf a rfl

theorem FailsWith.map {P : ε → Prop} {x : Except ε α} (hx : FailsWith P x) (f : α → β) :
    FailsWith P (f <$> x) := by
  cases x with
  | error e => exact failsWith_error (hx e rfl)
  | ok a => exact failsWith_ok P (f a)

/-! ## Folding a fallible step -/

/-- Fold a fallible step over a list, from the left, stopping at the first failure. -/
def fold (step : α → γ → Except ε α) (a : α) : List γ → Except ε α
  | [] => .ok a
  | x :: xs => step a x >>= fun a' ↦ fold step a' xs

@[simp] theorem fold_nil (step : α → γ → Except ε α) (a : α) : fold step a [] = .ok a := rfl

@[simp] theorem fold_cons (step : α → γ → Except ε α) (a : α) (x : γ) (xs : List γ) :
    fold step a (x :: xs) = step a x >>= fun a' ↦ fold step a' xs := rfl

theorem fold_append (step : α → γ → Except ε α) (xs ys : List γ) :
    ∀ a, fold step a (xs ++ ys) = fold step a xs >>= fun a' ↦ fold step a' ys := by
  induction xs with
  | nil => intro a; rfl
  | cons x xs ih =>
    intro a
    rw [List.cons_append, fold_cons, fold_cons]
    cases step a x with
    | error e => rfl
    | ok a' => exact ih a'

theorem failsWith_fold {P : ε → Prop} {step : α → γ → Except ε α}
    (hstep : ∀ x a, FailsWith P (step a x)) : ∀ xs a, FailsWith P (fold step a xs) := by
  intro xs
  induction xs with
  | nil => exact fun a ↦ failsWith_ok P a
  | cons x xs ih => exact fun a ↦ (hstep x a).bind fun a' _ ↦ ih a'

/-- A property that every successful step keeps is kept by a successful fold. -/
theorem fold_invariant_mem {step : α → γ → Except ε α} {P : α → Prop} {xs : List γ}
    (hstep : ∀ x ∈ xs, ∀ a a', P a → step a x = .ok a' → P a') :
    ∀ {a b : α}, P a → fold step a xs = .ok b → P b := by
  induction xs with
  | nil =>
    intro a b ha h
    cases h
    exact ha
  | cons x xs ih =>
    intro a b ha h
    obtain ⟨a', hx, hrest⟩ := bind_eq_ok.mp h
    exact ih (fun y hy ↦ hstep y (List.mem_cons_of_mem _ hy))
      (hstep x List.mem_cons_self a a' ha hx) hrest

theorem fold_invariant {step : α → γ → Except ε α} {P : α → Prop}
    (hstep : ∀ a x a', P a → step a x = .ok a' → P a') :
    ∀ {xs : List γ} {a b : α}, P a → fold step a xs = .ok b → P b := by
  intro xs a b
  exact fold_invariant_mem fun x _ a a' ↦ hstep a x a'

/-- Every step of a successful fold succeeded. -/
theorem fold_forall {step : α → γ → Except ε α} {xs : List γ} :
    ∀ {a b : α}, fold step a xs = .ok b → ∀ x ∈ xs, ∃ c d, step c x = .ok d := by
  induction xs with
  | nil => exact fun _ x hx ↦ nomatch hx
  | cons y xs ih =>
    intro a b h x hx
    obtain ⟨c, hy, hrest⟩ := bind_eq_ok.mp h
    rcases List.mem_cons.mp hx with rfl | hx
    · exact ⟨a, c, hy⟩
    · exact ih hrest x hx

/-- A fold that succeeds still succeeds with any step that extends the one used. -/
theorem fold_mono {step step' : α → γ → Except ε α} {xs : List γ}
    (hstep : ∀ x ∈ xs, ∀ a b, step a x = .ok b → step' a x = .ok b) :
    ∀ {a b}, fold step a xs = .ok b → fold step' a xs = .ok b := by
  induction xs with
  | nil => exact fun h ↦ h
  | cons x xs ih =>
    intro a b h
    obtain ⟨c, hx, hrest⟩ := bind_eq_ok.mp h
    rw [fold_cons, hstep x List.mem_cons_self a c hx, ok_bind]
    exact ih (fun y hy ↦ hstep y (List.mem_cons_of_mem _ hy)) hrest

/-- Two folds over one list stay related when every pair of successful steps keeps the relation. -/
theorem fold_related {α' : Type} {step : α → γ → Except ε α} {step' : α' → γ → Except ε α'}
    {R : α → α' → Prop} {xs : List γ}
    (hstep : ∀ x ∈ xs, ∀ a a' b b', R a a' → step a x = .ok b → step' a' x = .ok b' → R b b') :
    ∀ {a a' b b'}, R a a' → fold step a xs = .ok b → fold step' a' xs = .ok b' → R b b' := by
  induction xs with
  | nil =>
    intro a a' b b' hR h h'
    cases h
    cases h'
    exact hR
  | cons x xs ih =>
    intro a a' b b' hR h h'
    obtain ⟨c, hx, hrest⟩ := bind_eq_ok.mp h
    obtain ⟨c', hx', hrest'⟩ := bind_eq_ok.mp h'
    exact ih (fun y hy ↦ hstep y (List.mem_cons_of_mem _ hy))
      (hstep x List.mem_cons_self _ _ _ _ hR hx hx') hrest hrest'

end Foundation
