import Mathlib.Algebra.BigOperators.Group.List.Basic
import Mathlib.Algebra.Ring.Nat
import Tay.Foundation.Run

/-!
# Simulations, costs and logs

Three more rules for runs. A relation between the states of two machines, under which every step of the
one is matched by a run of the other, carries over what is reachable: the second machine may take
several steps, or none, where the first takes one. A measure that every permitted step lowers by
the weight of its label bounds what a run of them can weigh. And a log that grows by one entry at a time
has been every list between what it was and what it has become.
-/

namespace Foundation

namespace Machine

variable {σ τ ℓ κ : Type} {M : Machine σ ℓ} {N : Machine τ κ}

/-- Whatever the one machine does, the other can follow. -/
structure Simulation (M : Machine σ ℓ) (N : Machine τ κ) (R : σ → τ → Prop) : Prop where
  initial : ∀ s, M.initial s → ∃ t, N.initial t ∧ R s t
  step : ∀ s l s' t, R s t → M.step s l = some s' → ∃ ls t', N.run t ls = some t' ∧ R s' t'

/-- What a run of the one machine does, a run of the other does. -/
theorem Simulation.run {R : σ → τ → Prop} (h : Simulation M N R) {ls : List ℓ} :
    ∀ {s s' : σ} {t : τ}, R s t → M.run s ls = some s' → ∃ ls' t', N.run t ls' = some t' ∧ R s' t' := by
  induction ls with
  | nil =>
    intro s s' t hr hrun
    obtain rfl := Option.some_inj.mp hrun
    exact ⟨[], t, rfl, hr⟩
  | cons l ls ih =>
    intro s s' t hr hrun
    rw [run_cons, Option.bind_eq_some_iff] at hrun
    obtain ⟨u, hl, hrest⟩ := hrun
    obtain ⟨ls₁, t₁, hrun₁, hr₁⟩ := h.step _ _ _ t hr hl
    obtain ⟨ls₂, t₂, hrun₂, hr₂⟩ := ih hr₁ hrest
    exact ⟨ls₁ ++ ls₂, t₂, run_append hrun₁ hrun₂, hr₂⟩

/-- **The simulation rule.** -/
theorem Simulation.reachable {R : σ → τ → Prop} (h : Simulation M N R) {s : σ}
    (hs : M.Reachable s) : ∃ t, N.Reachable t ∧ R s t := by
  induction hs with
  | initial hinit =>
    obtain ⟨t, ht, hr⟩ := h.initial _ hinit
    exact ⟨t, .initial ht, hr⟩
  | step _ _ hl ih =>
    obtain ⟨t, ht, hr⟩ := ih
    obtain ⟨ls, t', hrun, hr'⟩ := h.step _ _ _ t hr hl
    exact ⟨t', ReachableUnder.run (fun _ _ _ ↦ trivial) ht hrun, hr'⟩

/-- **The cost rule.** Where every permitted step uses up at least its weight of a measure, a run of
them weighs no more than the measure had to give. -/
theorem run_weight {ok : σ → ℓ → Prop} [∀ s l, Decidable (ok s l)] {μ : σ → ℕ} {w : ℓ → ℕ}
    (hstep : ∀ s l s', ok s l → M.step s l = some s' → w l + μ s' ≤ μ s) {ls : List ℓ} :
    ∀ {s t : σ}, (M.under ok).run s ls = some t → (ls.map w).sum + μ t ≤ μ s := by
  induction ls with
  | nil =>
    intro s t h
    obtain rfl := Option.some_inj.mp h
    simp
  | cons l ls ih =>
    intro s t h
    rw [run_cons, Option.bind_eq_some_iff] at h
    obtain ⟨s', hl, hrest⟩ := h
    obtain ⟨hok, hl⟩ : ok s l ∧ M.step s l = some s' := by simpa [under] using hl
    have hle := hstep s l s' hok hl
    have hih := ih hrest
    simp only [List.map_cons, List.sum_cons]
    omega

section Log

variable {α : Type} {I : σ → Prop} {log : σ → List α}

/-- A step keeps the invariant, and adds at most one entry to the log. -/
def Logs (M : Machine σ ℓ) (I : σ → Prop) (log : σ → List α) : Prop :=
  ∀ s l s', I s → M.step s l = some s' → I s' ∧ (log s' = log s ∨ ∃ a, log s' = log s ++ [a])

theorem Logs.grows (h : M.Logs I log) {ls : List ℓ} :
    ∀ {s t : σ}, I s → M.run s ls = some t → log s <+: log t := by
  induction ls with
  | nil =>
    intro s t _ hrun
    obtain rfl := Option.some_inj.mp hrun
    exact List.prefix_rfl
  | cons l ls ih =>
    intro s t hs hrun
    rw [run_cons, Option.bind_eq_some_iff] at hrun
    obtain ⟨s', hl, hrest⟩ := hrun
    obtain ⟨hs', hlog | ⟨a, hlog⟩⟩ := h _ _ _ hs hl
    · exact hlog ▸ ih hs' hrest
    · exact (hlog ▸ List.prefix_append _ _).trans (ih hs' hrest)

/-- **The log rule.** Every list between the log of before and the log of after was the log of some
moment of the run. -/
theorem Logs.passes (h : M.Logs I log) {ls : List ℓ} : ∀ {s t : σ} {entries : List α}, I s →
    M.run s ls = some t → log s <+: entries → entries <+: log t →
      ∃ ls' u, ls' <+: ls ∧ M.run s ls' = some u ∧ log u = entries := by
  induction ls with
  | nil =>
    intro s t entries _ hrun hleft hright
    obtain rfl := Option.some_inj.mp hrun
    exact ⟨[], s, List.prefix_rfl, rfl, hleft.eq_of_length_le hright.length_le⟩
  | cons l ls ih =>
    intro s t entries hs hrun hleft hright
    rw [run_cons, Option.bind_eq_some_iff] at hrun
    obtain ⟨s', hl, hrest⟩ := hrun
    obtain ⟨hs', hlog⟩ := h _ _ _ hs hl
    by_cases hmore : log s' <+: entries
    · obtain ⟨ls', u, hls, hu, hentries⟩ := ih hs' hrest hmore hright
      refine ⟨l :: ls', u, (List.prefix_cons_inj l).mpr hls, ?_, hentries⟩
      rw [run_cons, hl]
      exact hu
    · -- the list is shorter than the log after the step, so it is the log before it
      have hless : entries <+: log s' :=
        (List.prefix_or_prefix_of_prefix (h.grows hs' hrest) hright).resolve_left hmore
      have hback : entries <+: log s := by
        rcases hlog with hlog | ⟨a, hlog⟩
        · exact hlog ▸ hless
        · rw [hlog, List.prefix_concat_iff, ← hlog] at hless
          exact hless.resolve_left fun heq ↦ hmore (heq ▸ List.prefix_rfl)
      exact ⟨[], s, List.nil_prefix, rfl, hleft.eq_of_length_le hback.length_le⟩

end Log

end Machine

end Foundation
