import Tay.Schedule.Occurrence

/-!
# Exact progress

A delivery moves a schedule to the next of its occurrences, or past all whose time has gone by. The
occurrences are the grid of an interval, counted from the one that was due, or the minutes at which a
cron expression matches. Interval arithmetic and cron search agree on what comes next: the least
occurrence after a time. So repeated deliveries under `catch_up: "all"` walk through the occurrences
one by one, and the one delivery under `catch_up: "latest"` lands where they would end.
-/

open Foundation

namespace Tay.Timing

open V2 CronExpression

/-! ## Occurrences -/

/-- The occurrences of a schedule that is due at `dueAt`. -/
def Occurrence (x : Expression CronExpression) (dueAt t : ℕ) : Prop :=
  match x with
  | .cron c => 60000 ∣ t ∧ Matches c (wallClock (t + c.offsetMinutes * 60000))
  | .every interval => ∃ k, t = dueAt + k * interval

variable {d : ScheduleDefinition} {x : Expression CronExpression} {c : CronExpression}
  {dueAt now nextAt t u : ℕ}

theorem runtimeExpression_cron (h : runtimeExpression calendar d = some (.cron c)) :
    ∃ s timezone, CronExpression.parse s timezone = .ok c := by
  unfold runtimeExpression at h
  split at h
  case h_1 s timezone _ _ =>
    obtain ⟨e, he, heq⟩ := Option.map_eq_some_iff.mp h
    cases heq
    exact ⟨s, timezone, toOption_eq_some.mp he⟩
  case h_2 =>
    split at h
    · cases h
    · cases h
  case h_3 => cases h

/-- A minute before one that the search finds has a date, so that what occurs there also matches. -/
theorem matching_of_occurrence {s timezone : Binary} (hparse : CronExpression.parse s timezone = .ok c)
    (hu : calendar.matching c u = true) (hle : t ≤ u) (ht : Occurrence (.cron c) dueAt t) :
    calendar.matching c t = true ∧ t % 60000 = 0 := by
  obtain ⟨hminute, hmatches⟩ := ht
  obtain ⟨-, -, hoffset, -⟩ := parse_days hparse
  have hdated : Dated c u := by
    by_contra hnot
    have hnone : fromUnix (u + c.offsetMinutes * 60000) = none := if_neg hnot
    rw [calendar_matching, hnone, Option.any_none] at hu
    cases hu
  have hdated' : Dated c t := by
    simp only [Dated] at hdated ⊢
    omega
  rw [calendar_matching, fromUnix_of_dated hdated', Option.any_some]
  exact ⟨(matched_iff hparse _).mpr hmatches, Nat.mod_eq_zero_of_dvd hminute⟩

/-- What matches in the calendar of the schedules is an occurrence. -/
theorem occurrence_of_matching {s timezone : Binary}
    (hparse : CronExpression.parse s timezone = .ok c) (ht : calendar.matching c t = true)
    (hminute : t % 60000 = 0) : Occurrence (.cron c) dueAt t := by
  refine ⟨Nat.dvd_of_mod_eq_zero hminute, ?_⟩
  rw [calendar_matching] at ht
  obtain ⟨l, hl, hmatched⟩ := (Option.any_eq_true _ _).mp ht
  unfold fromUnix at hl
  split at hl
  case isTrue =>
    cases hl
    exact (matched_iff hparse _).mp hmatched
  case isFalse => cases hl

/-- The search finds the least occurrence after a time. -/
theorem isLeast_of_next {s timezone : Binary} (hparse : CronExpression.parse s timezone = .ok c)
    (h : Cron.next calendar c t = some u) :
    IsLeast {v | t < v ∧ Occurrence (.cron c) dueAt v} u := by
  obtain ⟨hlater, hmatch, hminute⟩ := Cron.next_spec h
  refine ⟨⟨hlater, occurrence_of_matching hparse hmatch hminute⟩, ?_⟩
  rintro v ⟨hv, hoccurs⟩
  by_contra hlt
  obtain ⟨hmatch', hminute'⟩ := matching_of_occurrence hparse hmatch (not_le.mp hlt).le hoccurs
  exact hlt (Cron.next_least h hv hmatch' hminute')

/-- `advance` takes the least occurrence after the one that was due. -/
theorem isLeast_of_advance (hx : runtimeExpression calendar d = some x)
    (h : advance calendar dueAt x = some u) : IsLeast {v | dueAt < v ∧ Occurrence x dueAt v} u := by
  cases x with
  | cron c =>
    obtain ⟨s, timezone, hparse⟩ := runtimeExpression_cron hx
    exact isLeast_of_next hparse h
  | every interval =>
    have hpos := runtimeExpression_pos hx interval rfl
    simp only [advance] at h
    split at h
    case isFalse => cases h
    case isTrue =>
      cases h
      refine ⟨⟨by omega, 1, by ring⟩, ?_⟩
      rintro v ⟨hv, k, rfl⟩
      -- a multiple that lies ahead is at least one
      have hk : 0 < k := by
        rcases Nat.eq_zero_or_pos k with rfl | hk
        · omega
        · exact hk
      exact Nat.add_le_add_left (Nat.le_mul_of_pos_left interval hk) dueAt

/-- **The latest.** A delivery that catches up at once moves to the least occurrence ahead. -/
theorem isLeast_of_latest (hx : runtimeExpression calendar d = some x) (hdue : dueAt ≤ now)
    (h : advanceAfterDelivery calendar .latest x dueAt now = some nextAt) :
    IsLeast {t | now < t ∧ Occurrence x dueAt t} nextAt := by
  cases x with
  | cron c =>
    obtain ⟨s, timezone, hparse⟩ := runtimeExpression_cron hx
    simp only [advanceAfterDelivery, max_eq_right hdue] at h
    exact isLeast_of_next hparse h
  | every interval =>
    have hpos := runtimeExpression_pos hx interval rfl
    simp only [advanceAfterDelivery] at h
    split at h
    case isFalse => cases h
    case isTrue =>
      cases h
      refine ⟨⟨?_, (now - dueAt) / interval + 1, rfl⟩, ?_⟩
      · have hbeyond : now - dueAt < ((now - dueAt) / interval + 1) * interval :=
          Nat.lt_mul_of_div_lt (Nat.lt_succ_self _) hpos
        omega
      · rintro v ⟨hv, k, rfl⟩
        have hk : (now - dueAt) / interval < k := (Nat.div_lt_iff_lt_mul hpos).mpr (by omega)
        exact Nat.add_le_add_left (Nat.mul_le_mul_right interval hk) dueAt

/-! ## Repeated deliveries -/

/-- Deliveries under `catch_up: "all"` while the schedule is due, `n` at most: the occurrences that are
delivered, and the one the schedule is at afterwards. -/
def deliverAll {κ : Type} (cron : Cron κ) (x : Expression κ) (now : ℕ) : ℕ → ℕ → Option (List ℕ × ℕ)
  | 0, dueAt => some ([], dueAt)
  | n + 1, dueAt =>
    if dueAt ≤ now then
      (advanceAfterDelivery cron .all x dueAt now).bind fun nextAt ↦
        (deliverAll cron x now n nextAt).map fun r ↦ (dueAt :: r.1, r.2)
    else some ([], dueAt)

/-- The occurrence a schedule is at, and those after it. -/
def Upcoming (x : Expression CronExpression) (dueAt t : ℕ) : Prop :=
  t = dueAt ∨ dueAt < t ∧ Occurrence x dueAt t

/-- Counted from the next occurrence, what is upcoming is what was, without the one that was due. -/
theorem upcoming_of_advance (hx : runtimeExpression calendar d = some x)
    (h : advance calendar dueAt x = some u) :
    Upcoming x u t ↔ Upcoming x dueAt t ∧ dueAt < t := by
  obtain ⟨⟨hlater, hoccurs⟩, hleast⟩ := isLeast_of_advance hx h
  have hshift : u < t → (Occurrence x u t ↔ Occurrence x dueAt t) := by
    intro hut
    cases x with
    | cron c => exact Iff.rfl
    | every interval =>
      simp only [advance] at h
      split at h
      case isFalse => cases h
      case isTrue =>
        cases h
        constructor
        · rintro ⟨k, rfl⟩
          exact ⟨k + 1, by ring⟩
        · rintro ⟨k, rfl⟩
          cases k with
          | zero => omega
          | succ k => exact ⟨k, by ring⟩
  constructor
  · rintro (rfl | ⟨hut, ht⟩)
    · exact ⟨.inr ⟨hlater, hoccurs⟩, hlater⟩
    · exact ⟨.inr ⟨hlater.trans hut, (hshift hut).mp ht⟩, hlater.trans hut⟩
  · rintro ⟨rfl | ⟨-, ht⟩, hlt⟩
    · exact absurd hlt (lt_irrefl _)
    · rcases (hleast ⟨hlt, ht⟩).eq_or_lt with rfl | hut
      · exact .inl rfl
      · exact .inr ⟨hut, (hshift hut).mpr ht⟩

/-- **One by one.** Deliveries go through what is upcoming, in order, without leaving anything out. -/
theorem deliverAll_spec (hx : runtimeExpression calendar d = some x) {n : ℕ} :
    ∀ {dueAt : ℕ} {delivered : List ℕ}, deliverAll calendar x now n dueAt = some (delivered, nextAt) →
      delivered.Pairwise (· < ·) ∧
        (∀ t, t ∈ delivered ↔ Upcoming x dueAt t ∧ t ≤ now ∧ t < nextAt) ∧ dueAt ≤ nextAt ∧
        (now < dueAt + n → now < nextAt) := by
  induction n with
  | zero =>
    intro dueAt delivered h
    cases h
    refine ⟨.nil, fun t ↦ ⟨fun ht ↦ (List.not_mem_nil ht).elim, ?_⟩, le_rfl, fun hlt ↦ hlt⟩
    rintro ⟨rfl | ⟨hlater, -⟩, -, hlt⟩ <;> omega
  | succ n ih =>
    intro dueAt delivered h
    rw [deliverAll] at h
    split at h
    case isFalse hnot =>
      cases h
      refine ⟨.nil, fun t ↦ ⟨fun ht ↦ (List.not_mem_nil ht).elim, ?_⟩, le_rfl, fun _ ↦ by omega⟩
      rintro ⟨rfl | ⟨hlater, -⟩, -, hlt⟩ <;> omega
    case isTrue hdue =>
      obtain ⟨u, hu, hrest⟩ := Option.bind_eq_some_iff.mp h
      obtain ⟨⟨rest, v⟩, hlast, heq⟩ := Option.map_eq_some_iff.mp hrest
      cases heq
      have hadvance : advance calendar dueAt x = some u := hu
      obtain ⟨hsorted, hmem, hle, hpast⟩ := ih hlast
      have hlater : dueAt < u := (isLeast_of_advance hx hadvance).1.1
      have hafter : ∀ t ∈ rest, dueAt < t := fun t ht ↦
        ((upcoming_of_advance hx hadvance).mp ((hmem t).mp ht).1).2
      refine ⟨List.pairwise_cons.mpr ⟨hafter, hsorted⟩, fun t ↦ ?_, by omega, fun hlt ↦ hpast (by omega)⟩
      rw [List.mem_cons, hmem, upcoming_of_advance hx hadvance]
      constructor
      · rintro (rfl | ⟨⟨hupcoming, -⟩, hnow, hnext⟩)
        · exact ⟨.inl rfl, hdue, by omega⟩
        · exact ⟨hupcoming, hnow, hnext⟩
      · rintro ⟨hupcoming, hnow, hnext⟩
        rcases hupcoming with heq | ⟨hlt, hoccurs⟩
        · exact .inl heq
        · exact .inr ⟨⟨.inr ⟨hlt, hoccurs⟩, hlt⟩, hnow, hnext⟩

/-- What deliveries of a schedule that is due at `dueAt` do, at a time `now`: each moves it forward; one
that catches up at once moves it to the least occurrence ahead; and repeated ones that catch up one by one
deliver what is upcoming, each once and in order, and as many as it takes get past `now`. -/
structure Progress (x : Expression CronExpression) (dueAt now : ℕ) : Prop where
  forward : ∀ catchUp nextAt, advanceAfterDelivery calendar catchUp x dueAt now = some nextAt →
    dueAt < nextAt
  latest : ∀ nextAt, advanceAfterDelivery calendar .latest x dueAt now = some nextAt →
    IsLeast {t | now < t ∧ Occurrence x dueAt t} nextAt
  all : ∀ n delivered nextAt, deliverAll calendar x now n dueAt = some (delivered, nextAt) →
    delivered.Pairwise (· < ·) ∧
      (∀ t, t ∈ delivered ↔ Upcoming x dueAt t ∧ t ≤ now ∧ t < nextAt) ∧
      (now < dueAt + n → now < nextAt)

/-- **Exact progress**, of every schedule whose expression is understood. -/
theorem advanceAfterDelivery_exact (hx : runtimeExpression calendar d = some x)
    (hdue : dueAt ≤ now) : Progress x dueAt now := by
  refine ⟨fun catchUp nextAt h ↦ ?_, fun nextAt h ↦ isLeast_of_latest hx hdue h,
    fun n delivered nextAt h ↦ ?_⟩
  · exact lt_of_advanceAfterDelivery (runtimeExpression_pos hx) h
  · obtain ⟨hsorted, hmem, -, hpast⟩ := deliverAll_spec hx h
    exact ⟨hsorted, hmem, hpast⟩

/-- `0 0 29 2 *`, due on the leap day of 2024 and delivered two years later. -/
def leapDays : ScheduleDefinition where
  args := .map []
  catchUp := .all
  trigger := .cron (text "0 0 29 2 *")
  options := .map []
  overlap := .allow
  task := text "w"
  timezone := some (text "UTC")

theorem advanceAfterDelivery_leapDays : Progress (.cron leapDay) 1709164800000 1772236800000 := by
  have hx : runtimeExpression calendar leapDays = some (.cron leapDay) := by decide +kernel
  exact advanceAfterDelivery_exact hx (by decide)

end Tay.Timing
