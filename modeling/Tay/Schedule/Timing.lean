import Mathlib.Tactic.Positivity
import Mathlib.Tactic.Ring
import Tay.Event.V2

/-!
# Occurrences of a schedule

`Tay.Schedule` and `Tay.Schedule.Cron`, as far as they decide when a schedule is due next. An interval
is added to the occurrence that was due; a cron expression is searched minute by minute. Which minutes
match is a matter of the calendar, which stays a parameter: everything here holds for any set of
matching minutes.

After a delivery the policy of the schedule decides how far to move. `catch_up: "all"` takes the next
occurrence, whenever that was; `catch_up: "latest"` takes the next one that still lies ahead.
-/

namespace Tay

open V2

/-- A parsed expression and the minutes it matches. -/
structure Cron (κ : Type) where
  /-- `Cron.parse`. -/
  parse : Binary → Binary → Option κ
  /-- `Cron.matches?`, of the local time at a UTC millisecond. -/
  matching : κ → ℕ → Bool

namespace Cron

variable {κ : Type} (cron : Cron κ) (e : κ)

def maxSearchMinutes : ℕ := 5 * 366 * 24 * 60

def seek (utcMs : ℕ) : ℕ → Option ℕ
  | 0 => none
  | remaining + 1 =>
    if cron.matching e utcMs then some utcMs else seek (utcMs + 60000) remaining

/-- The first matching minute strictly later than `afterMs`, searched for five years. -/
def next (afterMs : ℕ) : Option ℕ := seek cron e (afterMs / 60000 * 60000 + 60000) maxSearchMinutes

variable {cron e}

theorem seek_eq_some {remaining : ℕ} : ∀ {utcMs t : ℕ}, seek cron e utcMs remaining = some t →
    cron.matching e t = true ∧ (∃ k, t = utcMs + 60000 * k) ∧
      ∀ k, utcMs + 60000 * k < t → cron.matching e (utcMs + 60000 * k) = false := by
  induction remaining with
  | zero =>
    intro utcMs t h
    cases h
  | succ remaining ih =>
    intro utcMs t h
    rw [seek] at h
    split at h
    case isTrue hmatch =>
      cases h
      exact ⟨hmatch, ⟨0, rfl⟩, fun k hk ↦ absurd hk (by omega)⟩
    case isFalse hmatch =>
      obtain ⟨hfound, ⟨k, rfl⟩, hleast⟩ := ih h
      refine ⟨hfound, ⟨k + 1, by ring⟩, fun j hj ↦ ?_⟩
      cases j with
      | zero => exact Bool.eq_false_iff.mpr hmatch
      | succ j =>
        rw [show utcMs + 60000 * (j + 1) = utcMs + 60000 + 60000 * j by ring] at hj ⊢
        exact hleast j hj

/-- What a search finds lies ahead, matches, and is a whole minute. -/
theorem next_spec {t u : ℕ} (h : next cron e t = some u) :
    t < u ∧ cron.matching e u = true ∧ u % 60000 = 0 := by
  obtain ⟨hmatch, ⟨k, rfl⟩, -⟩ := seek_eq_some h
  exact ⟨by omega, hmatch, by omega⟩

/-- Nothing that matches is passed on the way. -/
theorem next_least {t u v : ℕ} (h : next cron e t = some u) (hv : t < v)
    (hmatch : cron.matching e v = true) (hminute : v % 60000 = 0) : u ≤ v := by
  obtain ⟨-, -, hleast⟩ := seek_eq_some h
  by_contra hlt
  have hv' : v = t / 60000 * 60000 + 60000 + 60000 * (v / 60000 - (t / 60000 + 1)) := by omega
  have hmiss := hleast (v / 60000 - (t / 60000 + 1)) (by omega)
  rw [← hv', hmatch] at hmiss
  cases hmiss

end Cron

/-! ## Advancing -/

/-- The `kind` of a schedule together with its runtime expression. -/
inductive Expression (κ : Type)
  | cron (e : κ)
  | every (interval : ℕ)
  deriving DecidableEq

namespace Timing

variable {κ : Type} (cron : Cron κ)

/-- `runtime_expression`. -/
def runtimeExpression (d : ScheduleDefinition) : Option (Expression κ) :=
  match d.trigger, d.timezone with
  | .cron e, some timezone => (cron.parse e timezone).map .cron
  | .every interval, none => if 0 < interval then some (.every interval) else none
  | _, _ => none

/-- `advance`: the occurrence after the one at `dueAt`. -/
def advance (dueAt : ℕ) : Expression κ → Option ℕ
  | .cron e => cron.next e dueAt
  | .every interval => if dueAt + interval ≤ maxTime then some (dueAt + interval) else none

/-- `advance_after_delivery`. -/
def advanceAfterDelivery (catchUp : CatchUp) (x : Expression κ) (dueAt now : ℕ) : Option ℕ :=
  match catchUp, x with
  | .all, x => advance cron dueAt x
  | .latest, .cron e => cron.next e (max dueAt now)
  | .latest, .every interval =>
    let nextAt := dueAt + ((now - dueAt) / interval + 1) * interval
    if nextAt ≤ maxTime then some nextAt else none

/-- The occurrences a schedule has after the one at `dueAt`. -/
inductive Follows (x : Expression κ) (dueAt : ℕ) : ℕ → Prop
  | next {t : ℕ} : advance cron dueAt x = some t → Follows x dueAt t
  | step {t u : ℕ} : Follows x dueAt t → advance cron t x = some u → Follows x dueAt u

variable {cron} {x : Expression κ} {d : ScheduleDefinition} {dueAt now nextAt t u : ℕ}

/-- Only positive intervals pass. -/
theorem runtimeExpression_pos (h : runtimeExpression cron d = some x) :
    ∀ interval, x = .every interval → 0 < interval := by
  rintro interval rfl
  unfold runtimeExpression at h
  split at h
  · obtain ⟨e, -, he⟩ := Option.map_eq_some_iff.mp h
    cases he
  · split at h
    case isTrue hpos =>
      cases h
      exact hpos
    case isFalse => cases h
  · cases h

theorem lt_of_advance (hpos : ∀ interval, x = .every interval → 0 < interval)
    (h : advance cron t x = some u) : t < u := by
  cases x with
  | cron e => exact (Cron.next_spec h).1
  | every interval =>
    simp only [advance] at h
    split at h
    case isTrue =>
      cases h
      exact Nat.lt_add_of_pos_right (hpos interval rfl)
    case isFalse => cases h

/-- A delivery always moves a schedule forward. -/
theorem lt_of_advanceAfterDelivery {catchUp : CatchUp}
    (hpos : ∀ interval, x = .every interval → 0 < interval)
    (h : advanceAfterDelivery cron catchUp x dueAt now = some nextAt) : dueAt < nextAt := by
  unfold advanceAfterDelivery at h
  split at h
  · exact lt_of_advance hpos h
  · exact lt_of_le_of_lt (le_max_left _ _) (Cron.next_spec h).1
  case h_3 interval =>
    have hinterval := hpos interval rfl
    simp only at h
    split at h
    case isTrue =>
      cases h
      have hstep : 0 < ((now - dueAt) / interval + 1) * interval := by positivity
      exact Nat.lt_add_of_pos_right hstep
    case isFalse => cases h

theorem Follows.lt (hpos : ∀ interval, x = .every interval → 0 < interval)
    (h : Follows cron x dueAt t) : dueAt < t := by
  induction h with
  | next h => exact lt_of_advance hpos h
  | step _ h ih => exact ih.trans (lt_of_advance hpos h)

/-- The next occurrence is the first one. -/
theorem Follows.le_of_advance (hpos : ∀ interval, x = .every interval → 0 < interval)
    (h : Follows cron x dueAt t) (hu : advance cron dueAt x = some u) : u ≤ t := by
  induction h with
  | next h =>
    rw [h] at hu
    cases hu
    exact le_rfl
  | step _ h ih => exact ih.trans (lt_of_advance hpos h).le

/-- An occurrence of a cron expression is a matching minute. -/
theorem Follows.matching {e : κ} (h : Follows cron (.cron e) dueAt t) :
    cron.matching e t = true ∧ t % 60000 = 0 := by
  cases h with
  | next h => exact (Cron.next_spec h).2
  | step _ h => exact (Cron.next_spec h).2

/-- The occurrences of an interval are its multiples away. -/
theorem Follows.multiple {interval : ℕ} (h : Follows cron (.every interval) dueAt t) :
    ∃ k, t = dueAt + (k + 1) * interval := by
  induction h with
  | next h =>
    simp only [advance] at h
    split at h
    case isTrue =>
      cases h
      exact ⟨0, by ring⟩
    case isFalse => cases h
  | step _ h ih =>
    obtain ⟨k, rfl⟩ := ih
    simp only [advance] at h
    split at h
    case isTrue =>
      cases h
      exact ⟨k + 1, by ring⟩
    case isFalse => cases h

/-- **What a delivery passes.** An occurrence between the one that was due and the next one stored is
passed only by a schedule that asks for the latest, and only when its time has gone by. -/
theorem passed_of_follows {catchUp : CatchUp}
    (hpos : ∀ interval, x = .every interval → 0 < interval)
    (h : advanceAfterDelivery cron catchUp x dueAt now = some nextAt)
    (ht : Follows cron x dueAt t) (hlt : t < nextAt) : catchUp = .latest ∧ t ≤ now := by
  unfold advanceAfterDelivery at h
  split at h
  case h_1 => exact absurd (ht.le_of_advance hpos h) (by omega)
  case h_2 e =>
    refine ⟨rfl, ?_⟩
    by_contra hnow
    obtain ⟨hmatch, hminute⟩ := ht.matching
    have hdue := ht.lt hpos
    have hle := Cron.next_least h (max_lt hdue (not_le.mp hnow)) hmatch hminute
    omega
  case h_3 interval =>
    refine ⟨rfl, ?_⟩
    simp only at h
    split at h
    case isTrue =>
      cases h
      obtain ⟨k, rfl⟩ := ht.multiple
      have hk : k + 1 ≤ (now - dueAt) / interval := by
        have hmul : (k + 1) * interval < ((now - dueAt) / interval + 1) * interval := by omega
        have := Nat.lt_of_mul_lt_mul_right hmul
        omega
      have hle : (k + 1) * interval ≤ now - dueAt := (Nat.le_div_iff_mul_le (hpos interval rfl)).mp hk
      have : 0 < (k + 1) * interval := by
        have := hpos interval rfl
        positivity
      omega
    case isFalse => cases h

end Timing

end Tay
