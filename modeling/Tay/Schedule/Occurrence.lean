import Tay.Foundation.Calendar
import Tay.Schedule.Cron
import Tay.Schedule.Timing

/-!
# The next occurrence of a cron expression

The search goes from minute to minute and stops at the first that matches. It gives up after
`maxSearchMinutes`, five times 366 days, and every minute it looks at is converted to a date, which
raises after the year 9999. So the first occurrence is what it returns when that one lies within both
bounds, and for an expression without any occurrence the answer is right while the whole window does.

Between the leap days of 2096 and 2104 there are eight years, more than the window.
-/

open Foundation

namespace Tay.CronExpression

/-! ## Wall clocks -/

/-- What the search reads of a date with a time. -/
structure DateTime where
  date : Date
  hour : ℤ
  minute : ℤ
  dayOfWeek : ℤ
  deriving DecidableEq

/-- The wall clock at a number of milliseconds since the start of 1970. -/
def wallClock (ms : ℤ) : DateTime where
  date := civil (ms / 86400000)
  hour := ms % 86400000 / 3600000
  minute := ms % 3600000 / 60000
  dayOfWeek := Foundation.dayOfWeek (ms / 86400000)

/-- The last millisecond of the year 9999. -/
def lastUnix : ℤ := 253402300799999

/-- `DateTime.from_unix!`, which raises outside the years from -9999 to 9999. -/
def fromUnix (ms : ℤ) : Option DateTime :=
  if -377705116800000 ≤ ms ∧ ms ≤ lastUnix then some (wallClock ms) else none

/-! ## The search -/

def maxSearchMinutes : ℕ := 5 * 366 * 24 * 60

inductive Failure
  | noNextOccurrence
  | raised
  deriving DecidableEq

def weekday (l : DateTime) : ℤ := l.dayOfWeek % 7

def dayMatches (c : CronExpression) (l : DateTime) : Bool :=
  match c.domAny, c.dowAny with
  | true, true => true
  | true, false => decide (weekday l ∈ c.dayOfWeek)
  | false, true => decide (l.date.day ∈ c.dayOfMonth)
  | false, false => decide (l.date.day ∈ c.dayOfMonth) || decide (weekday l ∈ c.dayOfWeek)

/-- `matches?` -/
def matched (c : CronExpression) (l : DateTime) : Bool :=
  decide (l.minute ∈ c.minute) && decide (l.hour ∈ c.hour) && decide (l.date.month ∈ c.month) &&
    dayMatches c l

def seek (c : CronExpression) : ℕ → ℤ → Except Failure ℤ
  | 0, _ => .error .noNextOccurrence
  | remaining + 1, utc =>
    match fromUnix (utc + c.offsetMinutes * 60000) with
    | none => .error .raised
    | some l => if matched c l then .ok utc else seek c remaining (utc + 60000)

/-- The minute after a time. -/
def firstMinute (after : ℕ) : ℤ := (after / 60000 * 60000 + 60000 : ℕ)

def next (c : CronExpression) (after : ℕ) : Except Failure ℤ :=
  seek c maxSearchMinutes (firstMinute after)

/-! ## What is searched for -/

/-- All five fields match: a day by either of its fields where both are restricted, else by both. -/
def Matches (c : CronExpression) (l : DateTime) : Prop :=
  l.minute ∈ c.minute ∧ l.hour ∈ c.hour ∧ l.date.month ∈ c.month ∧
    if c.domAny = true ∨ c.dowAny = true then
      l.date.day ∈ c.dayOfMonth ∧ weekday l ∈ c.dayOfWeek
    else l.date.day ∈ c.dayOfMonth ∨ weekday l ∈ c.dayOfWeek

/-- A whole minute after a time at which the wall clock of the expression matches. -/
def Occurs (c : CronExpression) (after : ℕ) (t : ℤ) : Prop :=
  60000 ∣ t ∧ (after : ℤ) < t ∧ Matches c (wallClock (t + c.offsetMinutes * 60000))

/-- The first occurrence after a time. -/
def First (c : CronExpression) (after : ℕ) (t : ℤ) : Prop :=
  Occurs c after t ∧ ∀ u, Occurs c after u → t ≤ u

/-! ## What a parsed expression keeps -/

theorem timezoneOffset_bounds {timezone : Binary} {offset : ℤ}
    (h : timezoneOffset timezone = .ok offset) : -1439 ≤ offset ∧ offset ≤ 1439 := by
  have hclock : ∀ (sign : UInt8) (rest : Binary), clockOffset sign rest = .ok offset →
      -1439 ≤ offset ∧ offset ≤ 1439 := by
    intro sign rest h
    unfold clockOffset at h
    split at h
    · split at h
      · split at h
        · cases h
          split_ifs <;> omega
        · cases h
      · cases h
    · cases h
  have hhour : ∀ value : Binary, hourOffset value = .ok offset →
      -1439 ≤ offset ∧ offset ≤ 1439 := by
    intro value h
    unfold hourOffset at h
    split at h
    · split at h
      · split at h
        · split at h
          · cases h
            split_ifs <;> omega
          · cases h
        · cases h
      · cases h
    · cases h
  unfold timezoneOffset at h
  split at h
  · cases h
    omega
  · split at h
    · split at h
      · exact hclock _ _ h
      · exact hhour _ h
    · cases h

/-- A day field that is `*` has every day, and the offset is less than a day. -/
theorem parse_days {s timezone : Binary} {c : CronExpression} (h : parse s timezone = .ok c) :
    (c.domAny = true → c.dayOfMonth = steps 1 1 31) ∧ (c.dowAny = true → c.dayOfWeek = steps 0 1 6) ∧
      -1439 ≤ c.offsetMinutes ∧ c.offsetMinutes ≤ 1439 := by
  unfold parse at h
  split at h
  · simp only [mapError_eq_ok, parseFields, bind_eq_ok, pure_eq_ok, Except.ok.injEq] at h
    obtain ⟨offset, hoffset, vmi, -, vho, -, vdm, -, vmo, -, vdw, -, rfl⟩ := h
    refine ⟨fun hany ↦ ?_, fun hany ↦ ?_, timezoneOffset_bounds hoffset⟩
    · rw [of_decide_eq_true hany]
      rfl
    · rw [of_decide_eq_true hany]
      rfl
  · cases h

theorem wallClock_day (ms : ℤ) : (wallClock ms).date.day ∈ steps 1 1 31 := by
  rw [← Finset.mem_coe, coe_steps_one]
  exact (civil_bounds _).2

theorem wallClock_weekday (ms : ℤ) : weekday (wallClock ms) ∈ steps 0 1 6 := by
  rw [← Finset.mem_coe, coe_steps_one]
  constructor <;> simp only [weekday] <;> omega

/-- The search matches the day as the rule for the two day fields has it. -/
theorem matched_iff {s timezone : Binary} {c : CronExpression} (h : parse s timezone = .ok c) (ms : ℤ) :
    matched c (wallClock ms) = true ↔ Matches c (wallClock ms) := by
  obtain ⟨hdom, hdow, -⟩ := parse_days h
  have hday := wallClock_day ms
  have hweek := wallClock_weekday ms
  have hdays : dayMatches c (wallClock ms) = true ↔
      if c.domAny = true ∨ c.dowAny = true then
        (wallClock ms).date.day ∈ c.dayOfMonth ∧ weekday (wallClock ms) ∈ c.dayOfWeek
      else (wallClock ms).date.day ∈ c.dayOfMonth ∨ weekday (wallClock ms) ∈ c.dayOfWeek := by
    cases hd : c.domAny <;> cases hw : c.dowAny <;> simp only [dayMatches, hd, hw]
    · simp
    · simp [hdow hw, hweek]
    · simp [hdom hd, hday]
    · simp [hdom hd, hday, hdow hw, hweek]
  simp only [matched, Matches, Bool.and_eq_true, decide_eq_true_eq, hdays, and_assoc]

/-! ## Where the search stops -/

section Search

variable (c : CronExpression)

/-- A time whose date the calendar has. -/
def Dated (t : ℤ) : Prop :=
  -377705116800000 ≤ t + c.offsetMinutes * 60000 ∧ t + c.offsetMinutes * 60000 ≤ lastUnix

/-- The search goes on from a time. -/
def Passed (t : ℤ) : Prop :=
  Dated c t ∧ matched c (wallClock (t + c.offsetMinutes * 60000)) = false

variable {c}

theorem fromUnix_of_dated {u : ℤ} (h : Dated c u) :
    fromUnix (u + c.offsetMinutes * 60000) = some (wallClock (u + c.offsetMinutes * 60000)) :=
  if_pos h

theorem seek_raised {u : ℤ} (h : ¬Dated c u) (n : ℕ) : seek c (n + 1) u = .error .raised := by
  have hnone : fromUnix (u + c.offsetMinutes * 60000) = none := if_neg h
  simp only [seek, hnone]

theorem seek_found {u : ℤ} (hdated : Dated c u)
    (hmatch : matched c (wallClock (u + c.offsetMinutes * 60000)) = true) (n : ℕ) :
    seek c (n + 1) u = .ok u := by
  simp only [seek, fromUnix_of_dated hdated, hmatch, if_true]

theorem seek_passed {u : ℤ} (h : Passed c u) (n : ℕ) :
    seek c (n + 1) u = seek c n (u + 60000) := by
  simp only [seek, fromUnix_of_dated h.1, h.2, Bool.false_eq_true, if_false]

/-- What has been passed changes only where the search goes on, and how long. -/
theorem seek_skip (k n : ℕ) : ∀ u : ℤ, (∀ i < k, Passed c (u + 60000 * i)) →
    seek c (k + n) u = seek c n (u + 60000 * k) := by
  induction k with
  | zero => simp
  | succ k ih =>
    intro u h
    have hfirst : Passed c u := by simpa using h 0 (Nat.succ_pos k)
    rw [Nat.add_right_comm, seek_passed hfirst, ih]
    · congr 1
      push_cast
      omega
    · intro i hi
      have := h (i + 1) (by omega)
      rwa [show u + 60000 + 60000 * (i : ℤ) = u + 60000 * ((i + 1 : ℕ) : ℤ) by push_cast; omega]

theorem seek_eq_ok {t : ℤ} (n : ℕ) : ∀ u : ℤ, seek c n u = .ok t →
    t < u + 60000 * n ∧ Dated c t := by
  induction n with
  | zero =>
    intro u h
    cases h
  | succ n ih =>
    intro u h
    by_cases hdated : Dated c u
    · cases hmatch : matched c (wallClock (u + c.offsetMinutes * 60000)) with
      | true =>
        rw [seek_found hdated hmatch] at h
        cases h
        exact ⟨by push_cast; omega, hdated⟩
      | false =>
        rw [seek_passed ⟨hdated, hmatch⟩] at h
        have := ih _ h
        exact ⟨by push_cast; omega, this.2⟩
    · rw [seek_raised hdated] at h
      cases h

theorem seek_eq_none (n : ℕ) : ∀ u : ℤ, seek c n u = .error .noNextOccurrence →
    ∀ i < n, Dated c (u + 60000 * i) := by
  induction n with
  | zero =>
    intro u _ i hi
    omega
  | succ n ih =>
    intro u h
    by_cases hdated : Dated c u
    · cases hmatch : matched c (wallClock (u + c.offsetMinutes * 60000)) with
      | true =>
        rw [seek_found hdated hmatch] at h
        cases h
      | false =>
        rw [seek_passed ⟨hdated, hmatch⟩] at h
        rintro (_ | i) hi
        · simpa using hdated
        · have := ih _ h i (by omega)
          rwa [show u + 60000 + 60000 * (i : ℤ) = u + 60000 * ((i + 1 : ℕ) : ℤ) by
            push_cast; omega] at this
    · rw [seek_raised hdated] at h
      cases h

end Search

/-! ## The first occurrence -/

/-- The search finds the first occurrence, or reports that there is none. -/
def Finds (c : CronExpression) (after : ℕ) : Prop :=
  (∃ t, next c after = .ok t ∧ First c after t) ∨
    (next c after = .error .noNextOccurrence ∧ ∀ t, ¬Occurs c after t)

/-- The first occurrence is within the window and the calendar, or there is none and the calendar has
the whole window. -/
def InReach (c : CronExpression) (after : ℕ) : Prop :=
  (∃ t, First c after t ∧ t < firstMinute after + 60000 * maxSearchMinutes ∧
      t + c.offsetMinutes * 60000 ≤ lastUnix) ∨
    ((∀ t, ¬Occurs c after t) ∧
      firstMinute after + 60000 * (maxSearchMinutes - 1) + c.offsetMinutes * 60000 ≤ lastUnix)

section First

variable {c : CronExpression} {after : ℕ}

theorem firstMinute_minute (i : ℕ) : 60000 ∣ firstMinute after + 60000 * i ∧
    (after : ℤ) < firstMinute after + 60000 * i ∧ 60000 ≤ firstMinute after := by
  simp only [firstMinute]
  omega

/-- An occurrence is one of the minutes the search counts. -/
theorem Occurs.minute {t : ℤ} (h : Occurs c after t) : ∃ i : ℕ, t = firstMinute after + 60000 * i := by
  obtain ⟨⟨k, rfl⟩, hlater, -⟩ := h
  refine ⟨(k - (after / 60000 + 1 : ℕ)).toNat, ?_⟩
  simp only [firstMinute]
  omega

variable {s timezone : Binary} (hparse : parse s timezone = .ok c)

include hparse

theorem occurs_iff (i : ℕ) : Occurs c after (firstMinute after + 60000 * i) ↔
    matched c (wallClock (firstMinute after + 60000 * i + c.offsetMinutes * 60000)) = true := by
  rw [matched_iff hparse]
  exact ⟨fun h ↦ h.2.2, fun h ↦ ⟨(firstMinute_minute i).1, (firstMinute_minute i).2.1, h⟩⟩

/-- A minute that is no occurrence is passed while the calendar has it. -/
theorem passed_of {i : ℕ} (hnot : ¬Occurs c after (firstMinute after + 60000 * i))
    (hlast : firstMinute after + 60000 * i + c.offsetMinutes * 60000 ≤ lastUnix) :
    Passed c (firstMinute after + 60000 * i) := by
  have hlow := (@firstMinute_minute after i).2.2
  obtain ⟨-, -, hoffset, -⟩ := parse_days hparse
  refine ⟨⟨by omega, hlast⟩, ?_⟩
  rw [← Bool.not_eq_true, ← occurs_iff hparse]
  exact hnot

theorem next_of_first {t : ℤ} (hfirst : First c after t)
    (hwindow : t < firstMinute after + 60000 * maxSearchMinutes)
    (hlast : t + c.offsetMinutes * 60000 ≤ lastUnix) : next c after = .ok t := by
  obtain ⟨i, rfl⟩ := hfirst.1.minute
  obtain ⟨n, hn⟩ : ∃ n, maxSearchMinutes = i + (n + 1) := ⟨maxSearchMinutes - i - 1, by omega⟩
  have hlow := (@firstMinute_minute after i).2.2
  obtain ⟨-, -, hoffset, -⟩ := parse_days hparse
  rw [next, hn, seek_skip, seek_found ⟨by omega, hlast⟩ ((occurs_iff hparse i).mp hfirst.1)]
  intro j hj
  refine passed_of hparse (fun hoccurs ↦ ?_) (by omega)
  have := hfirst.2 _ hoccurs
  omega

/-- The search gives up over a window without an occurrence. -/
theorem next_of_none (hnone : ∀ i < maxSearchMinutes, ¬Occurs c after (firstMinute after + 60000 * i))
    (hlast : firstMinute after + 60000 * (maxSearchMinutes - 1) + c.offsetMinutes * 60000 ≤ lastUnix) :
    next c after = .error .noNextOccurrence := by
  have h := seek_skip (c := c) maxSearchMinutes 0 (firstMinute after) fun i hi ↦
    passed_of hparse (hnone i hi) (by omega)
  rw [next]
  exact h

/-- The search is right exactly when what it looks for is in reach. -/
theorem next_first_iff : Finds c after ↔ InReach c after := by
  constructor
  · rintro (⟨t, hnext, hfirst⟩ | ⟨hnext, hnone⟩)
    · obtain ⟨hwindow, -, hlast⟩ := seek_eq_ok _ _ hnext
      exact .inl ⟨t, hfirst, hwindow, hlast⟩
    · have h := (seek_eq_none _ _ hnext (maxSearchMinutes - 1) (by decide)).2
      exact .inr ⟨hnone, h⟩
  · rintro (⟨t, hfirst, hwindow, hlast⟩ | ⟨hnone, hlast⟩)
    · exact .inl ⟨t, next_of_first hparse hfirst hwindow hlast, hfirst⟩
    · exact .inr ⟨next_of_none hparse (fun i _ ↦ hnone _) hlast, hnone⟩

end First

/-! ## A leap day out of reach -/

/-- `0 0 29 2 *`, midnight on every leap day. -/
def leapDay : CronExpression where
  minute := {0}
  hour := {0}
  dayOfMonth := {29}
  month := {2}
  dayOfWeek := steps 0 1 6
  domAny := false
  dowAny := true
  offsetMinutes := 0

theorem parse_leapDay : parse (text "0 0 29 2 *") (text "UTC") = .ok leapDay := by decide +kernel

theorem next_first_leapDay : Finds leapDay 1767225600000 ↔ InReach leapDay 1767225600000 :=
  next_first_iff parse_leapDay

/-- In the 1831 days from the first of March 2096 there is no leap day. -/
theorem civil_gap : ∀ k : ℕ, k < 1831 →
    ¬((civil (46081 + k)).month = 2 ∧ (civil (46081 + k)).day = 29) := by
  decide +kernel

theorem not_occurs_gap {i : ℕ} (hi : i < maxSearchMinutes) :
    ¬Occurs leapDay 3981398400000 (firstMinute 3981398400000 + 60000 * i) := by
  rintro ⟨-, -, -, -, hmonth, hday⟩
  have hoffset : leapDay.offsetMinutes = 0 := rfl
  have hfirst : firstMinute 3981398400000 = 3981398460000 := by decide
  rw [hoffset, hfirst] at hmonth hday
  obtain ⟨k, hk, hdays⟩ : ∃ k : ℕ, k < 1831 ∧
      (3981398460000 + 60000 * (i : ℤ) + 0 * 60000) / 86400000 = 46081 + k := by
    simp only [maxSearchMinutes] at hi
    exact ⟨(i + 1) / 1440, by omega, by omega⟩
  simp only [leapDay, wallClock, hdays, Finset.mem_singleton] at hmonth hday
  exact civil_gap k hk ⟨hmonth, hday.1⟩

/-- From the first of March 2096 the search gives up before the leap day of 2104, and after the last
minute of the year 9999 it raises. -/
theorem next_not_first :
    (next leapDay 3981398400000 = .error .noNextOccurrence ∧
      Occurs leapDay 3981398400000 4233686400000 ∧ ¬Finds leapDay 3981398400000) ∧
      next leapDay 253402300799999 = .error .raised ∧ ¬Finds leapDay 253402300799999 := by
  have hnext : next leapDay 3981398400000 = .error .noNextOccurrence :=
    next_of_none parse_leapDay (fun i hi ↦ not_occurs_gap hi) (by decide)
  have hoccurs : Occurs leapDay 3981398400000 4233686400000 := by
    refine ⟨by decide, by decide, by decide, by decide, by decide, ?_⟩
    exact ⟨by decide, by decide⟩
  have hraised : next leapDay 253402300799999 = .error .raised :=
    seek_raised (fun h ↦ absurd h.2 (by decide)) _
  refine ⟨⟨hnext, hoccurs, ?_⟩, hraised, ?_⟩
  · rintro (⟨t, ht, -⟩ | ⟨-, hnone⟩)
    · rw [hnext] at ht
      cases ht
    · exact hnone _ hoccurs
  · rintro (⟨t, ht, -⟩ | ⟨ht, -⟩) <;>
    · rw [hraised] at ht
      cases ht

/-! ## The calendar of the schedules -/

/-- The expressions that schedules are advanced by, and the minutes they match. A time without a date
matches nothing, since the search raises there. -/
def calendar : Cron CronExpression where
  parse s timezone := (parse s timezone).toOption
  matching c ms := (fromUnix (ms + c.offsetMinutes * 60000)).any (matched c)

theorem calendar_matching (c : CronExpression) (u : ℕ) : calendar.matching c u =
    (fromUnix (u + c.offsetMinutes * 60000)).any (matched c) := rfl

theorem calendar_undated {c : CronExpression} (hoffset : -1439 ≤ c.offsetMinutes) (n : ℕ) :
    ∀ u : ℕ, ¬Dated c u → Cron.seek calendar c u n = none := by
  induction n with
  | zero => exact fun _ _ ↦ rfl
  | succ n ih =>
    intro u hu
    have hmiss : calendar.matching c u = false := by
      have hnone : fromUnix (u + c.offsetMinutes * 60000) = none := if_neg hu
      rw [calendar_matching, hnone, Option.any_none]
    -- A time after the start of 1970 has no date only if it comes after the last one.
    have hlate : ¬Dated c ((u + 60000 : ℕ) : ℤ) := by
      simp only [Dated, lastUnix] at hu ⊢
      omega
    rw [Cron.seek, hmiss]
    exact ih _ hlate

theorem calendar_seek {c : CronExpression} (hoffset : -1439 ≤ c.offsetMinutes) (n : ℕ) :
    ∀ u : ℕ, Cron.seek calendar c u n = (seek c n u).toOption.map Int.toNat := by
  induction n with
  | zero => exact fun _ ↦ rfl
  | succ n ih =>
    intro u
    by_cases hdated : Dated c u
    · have hmatching : calendar.matching c u = matched c (wallClock (u + c.offsetMinutes * 60000)) := by
        rw [calendar_matching, fromUnix_of_dated hdated, Option.any_some]
      rw [Cron.seek, hmatching]
      cases hmatch : matched c (wallClock (u + c.offsetMinutes * 60000)) with
      | true =>
        rw [seek_found hdated hmatch]
        rfl
      | false =>
        rw [seek_passed ⟨hdated, hmatch⟩]
        exact ih (u + 60000)
    · rw [seek_raised hdated, calendar_undated hoffset (n + 1) u hdated]
      rfl

/-- The search of the schedules, which is over any calendar, finds what this one finds. -/
theorem calendar_next {s timezone : Binary} {c : CronExpression} (h : parse s timezone = .ok c)
    (after : ℕ) : Cron.next calendar c after = (next c after).toOption.map Int.toNat :=
  calendar_seek (parse_days h).2.2.1 maxSearchMinutes _

end Tay.CronExpression
