import Mathlib.Data.Int.Order.Basic
import Mathlib.Tactic.IntervalCases

/-!
# The Gregorian calendar

`civil` takes the number of days since the first of January 1970 to a date, for days before it too.
Counting from the first of March, the leap day is the last of its year, so a day number falls apart
into periods of four hundred, one hundred, four years and one year. `civil_zero` and `civil_succ` say
that it is the calendar: it starts at that day, and a day later is the next date by the lengths of
the months.
-/

namespace Foundation

/-- A date of the calendar, the months and the days from one. -/
structure Date where
  year : ℤ
  month : ℤ
  day : ℤ
  deriving DecidableEq

def leap (year : ℤ) : Bool :=
  decide (year % 4 = 0 ∧ (year % 100 ≠ 0 ∨ year % 400 = 0))

def monthDays (year month : ℤ) : ℤ :=
  if month = 2 then if leap year then 29 else 28
  else if month = 4 ∨ month = 6 ∨ month = 9 ∨ month = 11 then 30
  else 31

/-- The date after a date. -/
def Date.succ (d : Date) : Date :=
  if d.day < monthDays d.year d.month then { d with day := d.day + 1 }
  else if d.month < 12 then ⟨d.year, d.month + 1, 1⟩
  else ⟨d.year + 1, 1, 1⟩

/-! ## Periods -/

/-- A day as the number of whole periods before it, and its place in a year that starts in March. -/
structure Period where
  era : ℤ
  century : ℤ
  olympiad : ℤ
  year : ℤ
  day : ℤ

namespace Period

def number (p : Period) : ℤ :=
  146097 * p.era + 36524 * p.century + 1461 * p.olympiad + 365 * p.year + p.day

/-- The last day of four hundred and of four years is counted to the year before. -/
def of (n : ℤ) : Period :=
  let r := n % 146097
  let century := min (r / 36524) 3
  let s := r - 36524 * century
  let t := s % 1461
  let year := min (t / 365) 3
  ⟨n / 146097, century, s / 1461, year, t - 365 * year⟩

/-- Whether the February at the end of the year has a leap day. -/
def long (p : Period) : Prop := p.year = 3 ∧ (p.olympiad = 24 → p.century = 3)

instance (p : Period) : Decidable p.long :=
  inferInstanceAs (Decidable (p.year = 3 ∧ (p.olympiad = 24 → p.century = 3)))

/-- Each number is within its period, and a year has a last day more only where it is long. -/
structure Valid (p : Period) : Prop where
  century : 0 ≤ p.century ∧ p.century ≤ 3
  olympiad : 0 ≤ p.olympiad ∧ p.olympiad ≤ 24
  year : 0 ≤ p.year ∧ p.year ≤ 3
  day : 0 ≤ p.day ∧ p.day ≤ 365
  last : p.day = 365 → p.long

theorem number_of (n : ℤ) : (of n).number = n := by
  simp only [number, of]
  omega

theorem valid_of (n : ℤ) : (of n).Valid := by
  constructor <;> simp only [of, long] <;> omega

theorem of_number {p : Period} (h : p.Valid) : of p.number = p := by
  obtain ⟨⟨hc0, hc⟩, ⟨ho0, ho⟩, ⟨hy0, hy⟩, ⟨hd0, hd⟩, hlast⟩ := h
  obtain ⟨era, century, olympiad, year, day⟩ := p
  simp only [long] at *
  have hr : number ⟨era, century, olympiad, year, day⟩ % 146097 =
      36524 * century + 1461 * olympiad + 365 * year + day := by
    simp only [number]
    omega
  have he : number ⟨era, century, olympiad, year, day⟩ / 146097 = era := by
    simp only [number]
    omega
  have hcentury : min ((36524 * century + 1461 * olympiad + 365 * year + day) / 36524) 3 =
      century := by omega
  have hs : 36524 * century + 1461 * olympiad + 365 * year + day - 36524 * century =
      1461 * olympiad + (365 * year + day) := by omega
  have ht : (1461 * olympiad + (365 * year + day)) % 1461 = 365 * year + day := by omega
  have ho : (1461 * olympiad + (365 * year + day)) / 1461 = olympiad := by omega
  have hyear : min ((365 * year + day) / 365) 3 = year := by omega
  simp only [of, hr, he, hcentury, hs, ht, ho, hyear]
  rw [show 365 * year + day - 365 * year = day by omega]

/-- The next day: in the same year, or the first one of the next period that is not full. -/
def next (p : Period) : Period :=
  if p.day < 364 ∨ (p.day = 364 ∧ p.long) then { p with day := p.day + 1 }
  else if p.year < 3 then { p with year := p.year + 1, day := 0 }
  else if p.olympiad < 24 then { p with olympiad := p.olympiad + 1, year := 0, day := 0 }
  else if p.century < 3 then
    { p with century := p.century + 1, olympiad := 0, year := 0, day := 0 }
  else ⟨p.era + 1, 0, 0, 0, 0⟩

theorem Valid.next {p : Period} (h : p.Valid) : p.next.Valid := by
  obtain ⟨hc, ho, hy, hd, hlast⟩ := h
  simp only [long] at hlast
  unfold Period.next
  split_ifs with hday hyear holympiad hcentury <;> simp only [long] at * <;>
    constructor <;> simp only [long] <;> omega

theorem number_next {p : Period} (h : p.Valid) : p.next.number = p.number + 1 := by
  obtain ⟨hc, ho, hy, hd, hlast⟩ := h
  simp only [long] at hlast
  unfold Period.next
  split_ifs with hday hyear holympiad hcentury <;> simp only [long, number] at * <;> omega

theorem of_succ (n : ℤ) : of (n + 1) = (of n).next := by
  have h := of_number (valid_of n).next
  rwa [number_next (valid_of n), number_of] at h

/-- The month, counted from March. -/
def month (p : Period) : ℤ := (5 * p.day + 2) / 153

/-- The year of its March. -/
def march (p : Period) : ℤ := 400 * p.era + 100 * p.century + 4 * p.olympiad + p.year

def date (p : Period) : Date :=
  if p.month < 10 then ⟨p.march, p.month + 3, p.day - (153 * p.month + 2) / 5 + 1⟩
  else ⟨p.march + 1, p.month - 9, p.day - (153 * p.month + 2) / 5 + 1⟩

theorem leap_march {p : Period} (h : p.Valid) : leap (p.march + 1) = true ↔ p.long := by
  obtain ⟨hc, ho, hy, -, -⟩ := h
  rw [leap, decide_eq_true_iff, march, long]
  omega

/-- The first day of a month, counted from March. -/
def start (m : ℤ) : ℤ := (153 * m + 2) / 5

theorem monthDays_eq {m : ℤ} (hm : 0 ≤ m) (hlt : m < 10) (year : ℤ) :
    monthDays year (m + 3) = start (m + 1) - start m := by
  interval_cases m <;> rfl

theorem date_of_lt {p : Period} (hm : p.month < 10) :
    p.date = ⟨p.march, p.month + 3, p.day - start p.month + 1⟩ := if_pos hm

theorem date_of_le {p : Period} (hm : 10 ≤ p.month) :
    p.date = ⟨p.march + 1, p.month - 9, p.day - start p.month + 1⟩ := if_neg (by omega)

theorem month_of_start {p : Period} : start p.month ≤ p.day ∧ p.day < start (p.month + 1) := by
  simp only [month, start]
  omega

theorem start_mono {m n : ℤ} (h : m ≤ n) : start m ≤ start n := by
  simp only [start]
  omega

theorem succ_of_lt {d : Date} (h : d.day < monthDays d.year d.month) :
    d.succ = { d with day := d.day + 1 } := if_pos h

theorem succ_of_le {d : Date} (h : monthDays d.year d.month ≤ d.day) :
    d.succ = if d.month < 12 then ⟨d.year, d.month + 1, 1⟩ else ⟨d.year + 1, 1, 1⟩ :=
  if_neg (by omega)

/-- A later day of the same month. -/
theorem date_next_same {p q : Period} (hmarch : q.march = p.march) (hmonth : q.month = p.month)
    (hday : q.day = p.day + 1)
    (hlt : p.date.day < monthDays p.date.year p.date.month) : q.date = p.date.succ := by
  rw [succ_of_lt hlt]
  rcases lt_or_ge p.month 10 with hm | hm
  · rw [date_of_lt hm, date_of_lt (hmonth ▸ hm), hmarch, hmonth, hday]
    simp only [Date.mk.injEq, true_and]
    omega
  · rw [date_of_le hm, date_of_le (hmonth ▸ hm), hmarch, hmonth, hday]
    simp only [Date.mk.injEq, true_and]
    omega

/-- The first day of the next month, in the same year of March. -/
theorem date_next_month {p q : Period} (hmarch : q.march = p.march) (hmonth : q.month = p.month + 1)
    (hday : q.day = start q.month) (hzero : 0 ≤ p.month) (hlast : p.month ≤ 10)
    (hle : monthDays p.date.year p.date.month ≤ p.date.day) : q.date = p.date.succ := by
  rw [succ_of_le hle]
  rcases lt_or_ge q.month 10 with hm | hm
  · rw [date_of_lt hm, date_of_lt (by omega), if_pos (by simp only; omega), hmarch, hday, hmonth]
    simp only [Date.mk.injEq, true_and]
    omega
  · rw [date_of_le hm, hmarch, hday, hmonth]
    rcases lt_or_ge p.month 10 with hp | hp
    · rw [date_of_lt hp, if_neg (by simp only; omega)]
      simp only [Date.mk.injEq, true_and]
      omega
    · rw [date_of_le hp, if_pos (by simp only; omega)]
      simp only [Date.mk.injEq, true_and]
      omega

/-- The day after the last one of February is the first of March. -/
theorem date_next_year {p q : Period} (hmarch : q.march = p.march + 1) (hday : q.day = 0)
    (hmonth : p.month = 11) (hle : monthDays p.date.year p.date.month ≤ p.date.day) :
    q.date = p.date.succ := by
  have hq : q.month = 0 := by simp only [month, hday]; rfl
  rw [succ_of_le hle, date_of_le (p := p) (by omega), date_of_lt (p := q) (by omega),
    if_pos (by simp only; omega), hmarch, hday, hq, hmonth]
  rfl

theorem day_date (p : Period) : p.date.day = p.day - start p.month + 1 := by
  rcases lt_or_ge p.month 10 with hm | hm
  · rw [date_of_lt hm]
  · rw [date_of_le hm]

theorem monthDays_date {p : Period} (hzero : 0 ≤ p.month) (hlast : p.month ≤ 10) :
    monthDays p.date.year p.date.month = start (p.month + 1) - start p.month := by
  rcases lt_or_ge p.month 10 with hm | hm
  · rw [date_of_lt hm, monthDays_eq hzero hm]
  · have heq : p.month = 10 := by omega
    rw [date_of_le hm, heq]
    rfl

theorem monthDays_february {p : Period} (h : p.Valid) (hm : p.month = 11) :
    monthDays p.date.year p.date.month = if p.long then 29 else 28 := by
  rw [date_of_le (by omega), hm]
  simp only [monthDays, if_pos, leap_march h, show (11 : ℤ) - 9 = 2 by decide]

theorem date_next {p : Period} (h : p.Valid) : p.next.date = p.date.succ := by
  have hbounds := month_of_start (p := p)
  have hdays := monthDays_february h
  have hday := day_date p
  have hstart : start 11 = 337 ∧ start (11 + 1) = 367 := by decide
  obtain ⟨hc, ho, hy, hd, hlast⟩ := h
  have hzero : 0 ≤ p.month ∧ p.month ≤ 11 := by
    simp only [month]
    omega
  by_cases hsame : p.day < 364 ∨ (p.day = 364 ∧ p.long)
  · have hnext : p.next = { p with day := p.day + 1 } := if_pos hsame
    have hmonth : p.next.month =
        if p.day + 1 < start (p.month + 1) then p.month else p.month + 1 := by
      rw [hnext]
      simp only [month, start]
      split_ifs <;> omega
    have hmarch : p.next.march = p.march := by rw [hnext]; rfl
    have hstep : p.next.day = p.day + 1 := by rw [hnext]
    rcases hzero.2.eq_or_lt with hm | hm
    · specialize hdays hm
      rw [hm] at hmonth hday hbounds
      rw [if_pos (by omega)] at hmonth
      refine date_next_same hmarch (hmonth.trans hm.symm) hstep ?_
      rw [hdays, hday]
      split_ifs with hlong
      · omega
      · have : p.day < 364 := hsame.resolve_right fun h ↦ hlong h.2
        omega
    · have hlen := monthDays_date hzero.1 (by omega)
      split_ifs at hmonth with hin
      · exact date_next_same hmarch hmonth hstep (by omega)
      · exact date_next_month hmarch hmonth (by rw [hmonth]; omega) hzero.1 (by omega)
          (by omega)
  -- the last day of February
  · have hm : p.month = 11 := by
      simp only [month]
      omega
    specialize hdays hm
    rw [hm] at hday
    refine date_next_year ?_ ?_ hm ?_
    · unfold next
      simp only [if_neg hsame, march]
      split_ifs <;> simp only [long] at * <;> omega
    · unfold next
      simp only [if_neg hsame]
      split_ifs <;> rfl
    · rw [hdays, hday]
      split_ifs with hlong
      · have : p.day ≠ 364 := fun h ↦ hsame (.inr ⟨h, hlong⟩)
        omega
      · have : p.day ≠ 365 := fun h ↦ hlong (hlast h)
        omega

end Period

/-- The date that many days after the first of January 1970. -/
def civil (n : ℤ) : Date := (Period.of (n + 719468)).date

theorem civil_zero : civil 0 = ⟨1970, 1, 1⟩ := by decide

theorem civil_succ (n : ℤ) : civil (n + 1) = (civil n).succ := by
  have h := Period.date_next (Period.valid_of (n + 719468))
  rwa [← Period.of_succ, show n + 719468 + 1 = n + 1 + 719468 by omega] at h

/-- The month and the day of a date are in their ranges. -/
theorem civil_bounds (n : ℤ) :
    (1 ≤ (civil n).month ∧ (civil n).month ≤ 12) ∧ 1 ≤ (civil n).day ∧ (civil n).day ≤ 31 := by
  have hd := (Period.valid_of (n + 719468)).day
  have hbounds := Period.month_of_start (p := Period.of (n + 719468))
  have hm : 0 ≤ (Period.of (n + 719468)).month ∧ (Period.of (n + 719468)).month ≤ 11 := by
    simp only [Period.month]
    omega
  have hday := Period.day_date (Period.of (n + 719468))
  have hlen : Period.start ((Period.of (n + 719468)).month + 1) ≤
      Period.start (Period.of (n + 719468)).month + 31 := by
    simp only [Period.start]
    omega
  refine ⟨?_, by simp only [civil]; omega⟩
  rcases lt_or_ge (Period.of (n + 719468)).month 10 with h | h
  · rw [civil, Period.date_of_lt h]
    simp only
    omega
  · rw [civil, Period.date_of_le h]
    simp only
    omega

/-- The day of the week, from Monday as `1` to Sunday as `7`: the first of January 1970 was a
Thursday. -/
def dayOfWeek (n : ℤ) : ℤ := (n + 3) % 7 + 1

end Foundation
