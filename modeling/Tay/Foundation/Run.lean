import Mathlib.Data.List.Basic

/-!
# Runs of a labelled machine

A machine is a set of initial states and an executable step: a label names what happens next,
including every choice the environment makes, and the step says what state results, or that the
label is not enabled. Interleavings of several parties are then just lists of labels.

A statement about every run is proved from what one step preserves. The rule comes in two
strengths. `Reachable` quantifies over all runs; `ReachableUnder` over those runs every step of
which meets a side condition on the state before it, which is how a result that holds only away
from a faulty branch is stated.
-/

namespace Foundation

/-- Initial states and an executable labelled step; `none` means the label is not enabled. -/
structure Machine (σ ℓ : Type) where
  /-- The states a run may start from. -/
  initial : σ → Prop
  /-- The state after one labelled step. -/
  step : σ → ℓ → Option σ

namespace Machine

variable {σ ℓ : Type} (M : Machine σ ℓ)

/-- Perform the labels in order, from the left. -/
def run (s : σ) : List ℓ → Option σ
  | [] => some s
  | l :: ls => (M.step s l).bind fun s' ↦ run s' ls

@[simp] theorem run_nil (s : σ) : M.run s [] = some s := rfl

@[simp] theorem run_cons (s : σ) (l : ℓ) (ls : List ℓ) :
    M.run s (l :: ls) = (M.step s l).bind fun s' ↦ M.run s' ls := rfl

/-- States reached by a run each step of which meets `ok` in the state it is taken from. -/
inductive ReachableUnder (ok : σ → ℓ → Prop) : σ → Prop
  | initial {s : σ} : M.initial s → ReachableUnder ok s
  | step {s s' : σ} {l : ℓ} : ReachableUnder ok s → ok s l → M.step s l = some s' →
      ReachableUnder ok s'

/-- States reached by any run. -/
def Reachable (s : σ) : Prop := M.ReachableUnder (fun _ _ ↦ True) s

variable {M}

/-- **The invariant rule.** A property of the initial states that every permitted step preserves
holds in every state reached by permitted steps. -/
theorem ReachableUnder.invariant {ok : σ → ℓ → Prop} {I : σ → Prop}
    (hinit : ∀ s, M.initial s → I s)
    (hstep : ∀ s l s', I s → ok s l → M.step s l = some s' → I s') {s : σ}
    (hs : M.ReachableUnder ok s) : I s := by
  induction hs with
  | initial h => exact hinit _ h
  | step _ hok hl ih => exact hstep _ _ _ ih hok hl

theorem Reachable.invariant {I : σ → Prop} (hinit : ∀ s, M.initial s → I s)
    (hstep : ∀ s l s', I s → M.step s l = some s' → I s') {s : σ} (hs : M.Reachable s) : I s :=
  ReachableUnder.invariant hinit (fun s l s' hI _ hl ↦ hstep s l s' hI hl) hs

/-- Permitting more reaches more. -/
theorem ReachableUnder.mono {ok ok' : σ → ℓ → Prop} (h : ∀ s l, ok s l → ok' s l) {s : σ}
    (hs : M.ReachableUnder ok s) : M.ReachableUnder ok' s := by
  induction hs with
  | initial hinit => exact .initial hinit
  | step _ hok hl ih => exact ih.step (h _ _ hok) hl

/-- Permitted runs extend permitted runs. -/
theorem ReachableUnder.run {ok : σ → ℓ → Prop} :
    ∀ {ls : List ℓ} {s t : σ}, (∀ s, ∀ l ∈ ls, ok s l) → M.ReachableUnder ok s →
      M.run s ls = some t → M.ReachableUnder ok t := by
  intro ls
  induction ls with
  | nil =>
    intro s t _ hs h
    cases h
    exact hs
  | cons l ls ih =>
    intro s t hok hs h
    rw [run_cons, Option.bind_eq_some_iff] at h
    obtain ⟨s', hl, hrest⟩ := h
    refine ih ?_ (hs.step (hok _ l List.mem_cons_self) hl) hrest
    exact fun s l hmem ↦ hok s l (List.mem_cons_of_mem _ hmem)

/-- What every step preserves, every run preserves. -/
theorem run_preserves {I : σ → Prop} (hstep : ∀ s l s', I s → M.step s l = some s' → I s') :
    ∀ {ls : List ℓ} {s t : σ}, I s → M.run s ls = some t → I t := by
  intro ls
  induction ls with
  | nil =>
    intro s t hs h
    cases h
    exact hs
  | cons l ls ih =>
    intro s t hs h
    rw [run_cons, Option.bind_eq_some_iff] at h
    obtain ⟨s', hl, hrest⟩ := h
    exact ih (hstep s l s' hs hl) hrest

/-- Runs compose. -/
theorem run_append {ls ls' : List ℓ} : ∀ {s t u : σ}, M.run s ls = some t →
    M.run t ls' = some u → M.run s (ls ++ ls') = some u := by
  induction ls with
  | nil =>
    intro s t u h h'
    cases h
    exact h'
  | cons l ls ih =>
    intro s t u h h'
    rw [run_cons, Option.bind_eq_some_iff] at h
    obtain ⟨s', hl, hrest⟩ := h
    rw [List.cons_append, run_cons, Option.bind_eq_some_iff]
    exact ⟨s', hl, ih hrest h'⟩

/-- The machine beside a record of what has happened so far. -/
def observed {γ : Type} (M : Machine σ ℓ) (start : σ → γ) (note : σ → ℓ → σ → γ → γ) :
    Machine (σ × γ) ℓ where
  initial x := M.initial x.1 ∧ x.2 = start x.1
  step x l := (M.step x.1 l).map fun t ↦ (t, note x.1 l t x.2)

section Observed

variable {γ : Type} {start : σ → γ} {note : σ → ℓ → σ → γ → γ} {ok : σ → ℓ → Prop}

/-- Every run can be observed. -/
theorem ReachableUnder.observed {s : σ} (hs : M.ReachableUnder ok s) :
    ∃ g, (M.observed start note).ReachableUnder (fun x l ↦ ok x.1 l) (s, g) := by
  induction hs with
  | @initial s h => exact ⟨start s, .initial ⟨h, rfl⟩⟩
  | @step s t l _ hok hl ih =>
    obtain ⟨g, hg⟩ := ih
    refine ⟨note s l t g, hg.step hok ?_⟩
    simp only [Machine.observed, hl, Option.map_some]

/-- And what is observed is a run. -/
theorem ReachableUnder.of_observed {x : σ × γ}
    (hx : (M.observed start note).ReachableUnder (fun x l ↦ ok x.1 l) x) :
    M.ReachableUnder ok x.1 := by
  induction hx with
  | initial h => exact .initial h.1
  | step _ hok hl ih =>
    obtain ⟨t, ht, rfl⟩ := Option.map_eq_some_iff.mp hl
    exact ih.step hok ht

end Observed

/-- The machine that takes only the steps that meet `ok`. -/
def under (M : Machine σ ℓ) (ok : σ → ℓ → Prop) [∀ s l, Decidable (ok s l)] : Machine σ ℓ where
  initial := M.initial
  step s l := if ok s l then M.step s l else none

theorem reachableUnder_of_run {ok : σ → ℓ → Prop} [∀ s l, Decidable (ok s l)] :
    ∀ {ls : List ℓ} {s t : σ}, M.ReachableUnder ok s → (M.under ok).run s ls = some t →
      M.ReachableUnder ok t := by
  intro ls
  induction ls with
  | nil =>
    intro s t hs h
    cases h
    exact hs
  | cons l ls ih =>
    intro s t hs h
    rw [run_cons, Option.bind_eq_some_iff] at h
    obtain ⟨s', hl, hrest⟩ := h
    simp only [under] at hl
    split at hl
    case isTrue hok => exact ih (hs.step hok hl) hrest
    case isFalse => cases hl

/-- A concrete list of labels that runs from an initial state shows its end state reachable. -/
theorem reachable_of_run {ls : List ℓ} {s t : σ} (hs : M.initial s) (h : M.run s ls = some t) :
    M.Reachable t :=
  ReachableUnder.run (fun _ _ _ ↦ trivial) (.initial hs) h

end Machine

end Foundation
