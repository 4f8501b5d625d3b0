import Mathlib.Data.List.Basic
import Mathlib.Algebra.Order.Group.Int
import Mathlib.Algebra.Ring.Int.Defs

/-!
# Fixed windows

A counter that admits so many uses in a window of time. A window opens with the first use after the one
before it has run out, so windows do not follow one another at fixed times, and a use is checked before
it is counted, perhaps in another window. `Counts` is what such a counter has gone through.

No window counts more than the limit. An interval as long as a window can touch two of them and no more,
since the second opens within it and the third only a whole window later; hence the bound for intervals.
-/

namespace Foundation

/-- So many uses, in a window of this length. -/
structure Quota where
  limit : ℕ
  interval : ℕ
  limit_pos : 0 < limit
  interval_pos : 0 < interval
  deriving DecidableEq

namespace Quota

variable (q : Quota)

/-- The window a use at `now` falls into, and how many it has counted. -/
def window (w : Option (ℤ × ℕ)) (now : ℤ) : ℤ × ℕ :=
  match w with
  | some (start, count) => if now - start < q.interval then (start, count) else (now, 0)
  | none => (now, 0)

def allows (w : Option (ℤ × ℕ)) (now : ℤ) : Bool := (q.window w now).2 < q.limit

def consume (w : Option (ℤ × ℕ)) (now : ℤ) : ℤ × ℕ :=
  ((q.window w now).1, (q.window w now).2 + 1)

/-- A counter that has counted these times, the latest first: each opened a window when the one before
had run out, or fell into the window that was open. -/
inductive Counts : Option (ℤ × ℕ) → List ℤ → Prop
  | unused : Counts none []
  | opened {w : Option (ℤ × ℕ)} {times : List ℤ} {now : ℤ} : Counts w times →
      (∀ start count, w = some (start, count) → start + q.interval ≤ now) →
      Counts (some (now, 1)) (now :: times)
  | counted {start : ℤ} {count : ℕ} {times : List ℤ} {now : ℤ} : Counts (some (start, count)) times →
      start ≤ now → now < start + q.interval → count < q.limit →
      Counts (some (start, count + 1)) (now :: times)

variable {q} {w : Option (ℤ × ℕ)} {times : List ℤ} {start : ℤ} {count : ℕ}

theorem consume_start_le {now : ℤ} (h : ∀ start count, w = some (start, count) → start ≤ now) :
    (q.consume w now).1 ≤ now := by
  obtain _ | ⟨start, count⟩ := w
  · exact le_rfl
  · simp only [Quota.consume, window]
    split
    · exact h start count rfl
    · exact le_rfl

/-- A use that was allowed is counted, even if the check was earlier. -/
theorem Counts.consume (h : q.Counts w times) {checked now : ℤ} (hle : checked ≤ now)
    (hstart : ∀ start count, w = some (start, count) → start ≤ now)
    (hallows : q.allows w checked = true) :
    q.Counts (some (q.consume w now)) (now :: times) := by
  have hlimit := of_decide_eq_true hallows
  cases w with
  | none => exact .opened h fun _ _ hnone ↦ by cases hnone
  | some w =>
    obtain ⟨start, count⟩ := w
    simp only [Quota.consume, window] at hlimit ⊢
    by_cases hopen : now - start < q.interval
    · -- the check saw the same window
      rw [if_pos (by omega)] at hlimit
      rw [if_pos hopen]
      exact .counted h (hstart start count rfl) (by omega) hlimit
    · rw [if_neg hopen]
      refine .opened h fun s c heq ↦ ?_
      cases heq
      omega

/-! ## Windows -/

theorem Counts.eq_nil (h : q.Counts none times) : times = [] := by
  cases h
  rfl

/-- Nothing was counted after the end of the last window. -/
theorem Counts.lt_end (h : q.Counts w times) : ∀ start count, w = some (start, count) →
    ∀ t ∈ times, t < start + q.interval := by
  induction h with
  | unused => exact fun _ _ heq ↦ by cases heq
  | @opened w times now h hclosed ih =>
    intro start count heq t ht
    cases heq
    have hpos := q.interval_pos
    rcases List.mem_cons.mp ht with rfl | ht
    · omega
    · obtain _ | ⟨s, c⟩ := w
      · rw [h.eq_nil] at ht
        cases ht
      · have := ih s c rfl t ht
        have := hclosed s c rfl
        omega
  | counted _ _ hopen _ ih =>
    intro start count heq t ht
    cases heq
    rcases List.mem_cons.mp ht with rfl | ht
    · exact hopen
    · exact ih _ _ rfl t ht

/-- When a window opens, everything before has gone by. -/
theorem Counts.lt_of_closed (h : q.Counts w times) {now : ℤ}
    (hclosed : ∀ start count, w = some (start, count) → start + q.interval ≤ now) :
    ∀ t ∈ times, t < now := by
  intro t ht
  obtain _ | ⟨s, c⟩ := w
  · rw [h.eq_nil] at ht
    cases ht
  · exact lt_of_lt_of_le (h.lt_end s c rfl t ht) (hclosed s c rfl)

theorem countP_eq_zero {p : ℤ → Bool} (h : ∀ t ∈ times, p t = false) : times.countP p = 0 :=
  List.countP_eq_zero.mpr fun t ht ↦ by rw [h t ht]; exact Bool.false_ne_true

/-- The open window has counted what came since it opened, within the limit. -/
theorem Counts.count_le (h : q.Counts w times) : ∀ start count, w = some (start, count) →
    times.countP (fun t ↦ start ≤ t) = count ∧ count ≤ q.limit := by
  induction h with
  | unused => exact fun _ _ heq ↦ by cases heq
  | @opened w times now h hclosed ih =>
    intro start count heq
    cases heq
    have hbefore : times.countP (fun t ↦ now ≤ t) = 0 :=
      countP_eq_zero fun t ht ↦ decide_eq_false (not_le.mpr (h.lt_of_closed hclosed t ht))
    rw [List.countP_cons_of_pos (by simp), hbefore]
    exact ⟨rfl, q.limit_pos⟩
  | @counted s c times now h hstart _ hlimit ih =>
    intro start count heq
    cases heq
    rw [List.countP_cons_of_pos (by simpa using hstart), (ih _ _ rfl).1]
    exact ⟨rfl, hlimit⟩

/-! ## Intervals -/

/-- As many uses as fall into an interval of the length of a window, its ends included. -/
def during (q : Quota) (a : ℤ) (times : List ℤ) : ℕ :=
  times.countP fun t ↦ decide (a ≤ t) && decide (t ≤ a + q.interval)

theorem during_le_countP (a b : ℤ) (hab : b ≤ a) :
    q.during a times ≤ times.countP fun t ↦ b ≤ t :=
  List.countP_mono_left fun t _ ht ↦ by
    rw [Bool.and_eq_true, decide_eq_true_eq] at ht
    exact decide_eq_true (hab.trans ht.1)

theorem during_cons_le (a now : ℤ) : q.during a (now :: times) ≤ q.during a times + 1 := by
  rw [during, List.countP_cons]
  split <;> simp [during]

theorem during_cons_later {a now : ℤ} (h : a + q.interval < now) :
    q.during a (now :: times) = q.during a times :=
  List.countP_cons_of_neg (by simp only [Bool.and_eq_true, decide_eq_true_eq]; omega)

/-- An interval that reaches into the open window has at most one more, and that one is full at most. -/
theorem Counts.during_le_add (h : q.Counts w times) (a : ℤ) : ∀ start count,
    w = some (start, count) → start ≤ a + q.interval → q.during a times ≤ q.limit + count := by
  induction h with
  | unused => exact fun _ _ heq ↦ by cases heq
  | @opened w times now h hclosed _ =>
    intro start count heq hreach
    cases heq
    refine (during_cons_le a now).trans (Nat.add_le_add_right ?_ 1)
    obtain _ | ⟨s, c⟩ := w
    · rw [h.eq_nil]
      exact Nat.zero_le _
    · have hs := hclosed s c rfl
      obtain ⟨hcount, hlimit⟩ := h.count_le s c rfl
      exact (during_le_countP a s (by omega)).trans (hcount.trans_le hlimit)
  | counted _ _ _ _ ih =>
    intro start count heq hreach
    cases heq
    exact (during_cons_le a _).trans (Nat.add_le_add_right (ih _ _ rfl hreach) 1)

/-- **Two windows.** No interval of the length of a window has more than twice the limit. -/
theorem Counts.during_le (h : q.Counts w times) (a : ℤ) : q.during a times ≤ 2 * q.limit := by
  induction h with
  | unused => exact Nat.zero_le _
  | @opened w times now h hclosed ih =>
    by_cases hreach : now ≤ a + q.interval
    · have := (h.opened hclosed).during_le_add a now 1 rfl hreach
      have := q.limit_pos
      omega
    · rwa [during_cons_later (not_le.mp hreach)]
  | @counted s c times now h hstart hopen hlimit ih =>
    by_cases hreach : s ≤ a + q.interval
    · have := (h.counted hstart hopen hlimit).during_le_add a s (c + 1) rfl hreach
      omega
    · rwa [during_cons_later (by omega)]

/-! ## Later -/

/-- A window that was open is open still, or has run out; either way it has counted within the limit. -/
def Within (q : Quota) (start : ℤ) (w : Option (ℤ × ℕ)) (times : List ℤ) : Prop :=
  (∃ count, w = some (start, count)) ∨
    (∃ start' count, w = some (start', count) ∧ start + q.interval ≤ start') ∧
      times.countP (fun t ↦ decide (start ≤ t) && decide (t < start + q.interval)) ≤ q.limit

theorem Counts.within_le (h : q.Counts w times) (hw : q.Within start w times) :
    times.countP (fun t ↦ decide (start ≤ t) && decide (t < start + q.interval)) ≤ q.limit := by
  rcases hw with ⟨count, rfl⟩ | ⟨-, hle⟩
  · obtain ⟨hcount, hlimit⟩ := h.count_le start count rfl
    refine le_trans (List.countP_mono_left fun t _ ht ↦ ?_) (hcount.trans_le hlimit)
    rw [Bool.and_eq_true] at ht
    exact ht.1
  · exact hle

/-- The next use keeps every window within the limit. -/
theorem Counts.within_consume (h : q.Counts w times) (hw : q.Within start w times) {now : ℤ}
    (hstart : ∀ start count, w = some (start, count) → start ≤ now) :
    q.Within start (some (q.consume w now)) (now :: times) := by
  have hle := h.within_le hw
  have hpast : start + q.interval ≤ now →
      (now :: times).countP (fun t ↦ decide (start ≤ t) && decide (t < start + q.interval)) ≤
        q.limit := by
    intro hnow
    rwa [List.countP_cons_of_neg (by simp only [Bool.and_eq_true, decide_eq_true_eq]; omega)]
  rcases hw with ⟨count, rfl⟩ | ⟨⟨start', count, rfl, hafter⟩, -⟩
  · simp only [Quota.consume, window]
    by_cases hopen : now - start < q.interval
    · rw [if_pos hopen]
      exact .inl ⟨count + 1, rfl⟩
    · rw [if_neg hopen]
      exact .inr ⟨⟨now, _, rfl, by omega⟩, hpast (by omega)⟩
  · have hnow := hstart start' count rfl
    simp only [Quota.consume, window]
    split
    · exact .inr ⟨⟨start', _, rfl, hafter⟩, hpast (hafter.trans hnow)⟩
    · exact .inr ⟨⟨now, _, rfl, hafter.trans hnow⟩, hpast (hafter.trans hnow)⟩

end Quota

end Foundation
