import Mathlib.Data.Finset.Image
import Mathlib.Data.List.Iterate
import Tay.Event.Value
import Tay.Foundation.Outcome
import Tay.Foundation.Splitting

/-!
# Cron expressions

The parser splits an expression at white space into five fields, a field at commas into items, an item
at a slash into a base and a step, and a base at a dash into two numbers, which it reads with the
integer parser of the standard library. The grammar below puts expressions together from the other end
and knows nothing of the order of the splits.

Two of the delegations let more through than the grammar has. The split at commas leaves empty items
out, so that `,` is a field without any value, and the integer parser takes a sign. The wider grammar
has both, and the parser accepts exactly that one.
-/

open Foundation

namespace Tay.CronExpression

abbrev plus : UInt8 := 43
abbrev comma : UInt8 := 44
abbrev dash : UInt8 := 45
abbrev slash : UInt8 := 47
abbrev colon : UInt8 := 58

inductive Error
  | invalidCron
  | invalidTimezone
  deriving DecidableEq

/-! ## Numbers -/

def isDigit (b : UInt8) : Bool := decide (48 ≤ b ∧ b ≤ 57)

/-- The number that some digits stand for. -/
def decimal (ds : Binary) : ℕ := ds.foldl (fun n d ↦ 10 * n + (d.toNat - 48)) 0

def parseDigits (s : Binary) : Option (ℕ × Binary) :=
  if (s.takeWhile isDigit).isEmpty then none
  else some (decimal (s.takeWhile isDigit), s.dropWhile isDigit)

/-- `Integer.parse`: an optional sign, the longest run of digits, and what follows it. -/
def parseInteger : Binary → Option (ℤ × Binary)
  | [] => none
  | b :: s =>
    if b = plus then (parseDigits s).map fun r ↦ ((r.1 : ℤ), r.2)
    else if b = dash then (parseDigits s).map fun r ↦ (-(r.1 : ℤ), r.2)
    else (parseDigits (b :: s)).map fun r ↦ ((r.1 : ℤ), r.2)

/-- The integer of a string that is one to its end. -/
def integer? (s : Binary) : Option ℤ :=
  match parseInteger s with
  | some (n, []) => some n
  | _ => none

/-! ## Fields -/

/-- The values from `start` up to `finish`. `Stream.iterate` has no end, so it is cut off where the
values have passed `finish`. -/
def steps (start step finish : ℤ) : Finset ℤ :=
  ((List.iterate (· + step) start (finish - start + 1).toNat).takeWhile (· ≤ finish)).toFinset

def range (value : Binary) (low high step : ℤ) : Except Error (Finset ℤ) :=
  if value = text "*" then .ok (steps low step high)
  else match cut dash value with
    | (single, none) =>
      match integer? single with
      | some number => if low ≤ number ∧ number ≤ high then .ok {number} else .error .invalidCron
      | none => .error .invalidCron
    | (first, some last) =>
      match integer? first, integer? last with
      | some start, some finish =>
        if (low ≤ start ∧ start ≤ high) ∧ start ≤ finish ∧ finish ≤ high then
          .ok (steps start step finish)
        else .error .invalidCron
      | _, _ => .error .invalidCron

def fieldPart (part : Binary) (low high : ℤ) : Except Error (Finset ℤ) :=
  match cut slash part with
  | (base, none) => range base low high 1
  | (base, some step) =>
    match integer? step with
    | some n => if 0 < n then range base low high n else .error .invalidCron
    | none => .error .invalidCron

/-- The union of the items, up to the first that is none. -/
def collect (low high : ℤ) : List Binary → Finset ℤ → Except Error (Finset ℤ)
  | [], values => .ok values
  | part :: parts, values =>
    match fieldPart part low high with
    | .ok partValues => collect low high parts (values ∪ partValues)
    | .error e => .error e

/-- A field is `*` alone, or has values. -/
inductive FieldValue
  | any
  | values (vs : Finset ℤ)
  deriving DecidableEq

def field (value : Binary) (low high : ℤ) : Except Error FieldValue :=
  if value = text "*" then .ok .any
  else (collect low high (words (· == comma) value) ∅).map .values

/-! ## Time zones -/

def clockOffset (sign : UInt8) (rest : Binary) : Except Error ℤ :=
  match cut colon rest with
  | (hours, some minutes) =>
    match integer? hours, integer? minutes with
    | some hour, some minute =>
      if (0 ≤ hour ∧ hour ≤ 23) ∧ 0 ≤ minute ∧ minute ≤ 59 then
        .ok ((if sign = plus then 1 else -1) * (hour * 60 + minute))
      else .error .invalidTimezone
    | _, _ => .error .invalidTimezone
  | _ => .error .invalidTimezone

/-- A sign and two digits. The end that the pattern asks for may also be before a last line feed. -/
def hourOffset : Binary → Except Error ℤ
  | sign :: a :: b :: rest =>
    if (sign = plus ∨ sign = dash) ∧ isDigit a ∧ isDigit b ∧ (rest = [] ∨ rest = [10]) then
      match integer? [a, b] with
      | some number =>
        if 0 ≤ number ∧ number ≤ 23 then .ok (if sign = plus then number * 60 else -number * 60)
        else .error .invalidTimezone
      | none => .error .invalidTimezone
    else .error .invalidTimezone
  | _ => .error .invalidTimezone

def timezoneOffset (value : Binary) : Except Error ℤ :=
  if value = text "UTC" ∨ value = text "Z" then .ok 0
  else match value with
    | sign :: rest =>
      if (sign = plus ∨ sign = dash) ∧ rest.length = 5 then clockOffset sign rest
      else hourOffset value
    | [] => .error .invalidTimezone

/-! ## Expressions -/

end CronExpression

/-- A parsed expression: the values of each field, which of the two day fields are `*`, and the
offset of the wall clock. -/
structure CronExpression where
  minute : Finset ℤ
  hour : Finset ℤ
  dayOfMonth : Finset ℤ
  month : Finset ℤ
  dayOfWeek : Finset ℤ
  domAny : Bool
  dowAny : Bool
  offsetMinutes : ℤ
  deriving DecidableEq

namespace CronExpression

/-- `7` is Sunday as `0` is. -/
def weekdayOf (day : ℤ) : ℤ := if day = 7 then 0 else day

def normalizeWeekdays : FieldValue → FieldValue
  | .any => .any
  | .values vs => .values (vs.image weekdayOf)

def anyToFull (low high : ℤ) : FieldValue → Finset ℤ
  | .any => steps low 1 high
  | .values vs => vs

/-- The white space of the pattern `\s`. -/
def isSpace (b : UInt8) : Bool := decide (9 ≤ b ∧ b ≤ 13) || b == 32

def parseFields (minute hour dayOfMonth month dayOfWeek timezone : Binary) :
    Except Error CronExpression := do
  let offsetMinutes ← timezoneOffset timezone
  let minute ← field minute 0 59
  let hour ← field hour 0 23
  let dayOfMonth ← field dayOfMonth 1 31
  let month ← field month 1 12
  let dayOfWeek ← field dayOfWeek 0 7
  return { minute := anyToFull 0 59 minute
           hour := anyToFull 0 23 hour
           dayOfMonth := anyToFull 1 31 dayOfMonth
           month := anyToFull 1 12 month
           dayOfWeek := anyToFull 0 6 (normalizeWeekdays dayOfWeek)
           domAny := dayOfMonth = .any
           dowAny := dayOfWeek = .any
           offsetMinutes := offsetMinutes }

def parse (expression timezone : Binary) : Except Error CronExpression :=
  match words isSpace expression with
  | [minute, hour, dayOfMonth, month, dayOfWeek] =>
    (parseFields minute hour dayOfMonth month dayOfWeek timezone).mapError fun _ ↦ .invalidCron
  | _ => .error .invalidCron

/-! ## The grammar -/

/-- Decimal digits, with the number they stand for. -/
inductive Numeral : Binary → ℤ → Prop
  | digit (d : UInt8) (hd : isDigit d = true) : Numeral [d] (d.toNat - 48)
  | more {ds : Binary} {n : ℤ} (h : Numeral ds n) (d : UInt8) (hd : isDigit d = true) :
    Numeral (ds ++ [d]) (10 * n + (d.toNat - 48))

/-- A number that may have a plus sign. -/
inductive Positive : Binary → ℤ → Prop
  | plain {ds : Binary} {n : ℤ} (h : Numeral ds n) : Positive ds n
  | signed {ds : Binary} {n : ℤ} (h : Numeral ds n) : Positive (plus :: ds) n

/-- A number that may have a sign. -/
inductive Signed : Binary → ℤ → Prop
  | positive {s : Binary} {n : ℤ} (h : Positive s n) : Signed s n
  | minus {ds : Binary} {n : ℤ} (h : Numeral ds n) : Signed (dash :: ds) (-n)

/-! What counts as a number is a parameter: a number after a dash may be of another kind. -/

section Grammar

variable (Number Last : Binary → ℤ → Prop) (low high : ℤ)

/-- `*`, `n` or `a-b`, with the least and the greatest value. -/
inductive Base : Binary → ℤ → ℤ → Prop
  | star : Base (text "*") low high
  | single {s : Binary} {n : ℤ} (h : Number s n) (hlow : low ≤ n) (hhigh : n ≤ high) : Base s n n
  | span {s t : Binary} {a b : ℤ} (hs : Number s a) (ht : Last t b) (hlow : low ≤ a) (hab : a ≤ b)
    (hhigh : b ≤ high) : Base (s ++ dash :: t) a b

/-- A base with an optional step, and the values it denotes. -/
inductive Item : Binary → Set ℤ → Prop
  | plain {s : Binary} {a b : ℤ} (h : Base Number Last low high s a b) : Item s {v | a ≤ v ∧ v ≤ b}
  | stepped {s t : Binary} {a b k : ℤ} (h : Base Number Last low high s a b) (ht : Number t k)
    (hk : 1 ≤ k) : Item (s ++ slash :: t) {v | (a ≤ v ∧ v ≤ b) ∧ k ∣ v - a}

/-- Some items and the union of what they denote. -/
inductive Items : List Binary → Set ℤ → Prop
  | nil : Items [] ∅
  | cons {s : Binary} {ss : List Binary} {x xs : Set ℤ} (h : Item Number Last low high s x)
    (hs : Items ss xs) : Items (s :: ss) (x ∪ xs)

end Grammar

/-- A nonempty list of items with a comma between any two, whose numbers are plain. -/
def Listed (low high : ℤ) (s : Binary) (x : Set ℤ) : Prop :=
  ∃ items, items ≠ [] ∧ s = [comma].intercalate items ∧ Items Numeral Numeral low high items x

/-- Items with at least one comma between any two, and maybe others around, whose numbers may be
signed. -/
def Loose (low high : ℤ) (s : Binary) (x : Set ℤ) : Prop :=
  ∃ items, Laid (· == comma) items s ∧ Items Positive Signed low high items x

/-- What the five fields denote. -/
structure Denoted where
  minute : Set ℤ
  hour : Set ℤ
  dayOfMonth : Set ℤ
  month : Set ℤ
  dayOfWeek : Set ℤ

/-- Five fields between white space. -/
def Expression (Field : ℤ → ℤ → Binary → Set ℤ → Prop) (s : Binary) (d : Denoted) : Prop :=
  ∃ minute hour dayOfMonth month dayOfWeek : Binary,
    Laid isSpace [minute, hour, dayOfMonth, month, dayOfWeek] s ∧
    Field 0 59 minute d.minute ∧ Field 0 23 hour d.hour ∧ Field 1 31 dayOfMonth d.dayOfMonth ∧
    Field 1 12 month d.month ∧ Field 0 7 dayOfWeek d.dayOfWeek

/-! ## Numbers of the grammar -/

theorem decimal_append (ds : Binary) (d : UInt8) :
    decimal (ds ++ [d]) = 10 * decimal ds + (d.toNat - 48) := by
  simp [decimal, List.foldl_append]

theorem toNat_of_isDigit {d : UInt8} (h : isDigit d = true) : 48 ≤ d.toNat ∧ d.toNat ≤ 57 := by
  simpa [isDigit, UInt8.le_iff_toNat_le] using h

theorem numeral_iff {ds : Binary} {n : ℤ} :
    Numeral ds n ↔ ds ≠ [] ∧ (∀ d ∈ ds, isDigit d = true) ∧ n = decimal ds := by
  constructor
  · intro h
    induction h with
    | digit d hd =>
      have := toNat_of_isDigit hd
      refine ⟨by simp, by simpa using hd, ?_⟩
      simp only [decimal, List.foldl_cons, List.foldl_nil]
      omega
    | more _ d hd ih =>
      obtain ⟨-, hall, rfl⟩ := ih
      have := toNat_of_isDigit hd
      refine ⟨by simp, ?_, by rw [decimal_append]; omega⟩
      simpa [or_imp, forall_and] using ⟨hall, hd⟩
  · rintro ⟨hne, hall, rfl⟩
    induction ds using List.reverseRecOn with
    | nil => exact absurd rfl hne
    | append_singleton ds d ih =>
      have hd := hall d (by simp)
      have hval := toNat_of_isDigit hd
      rcases eq_or_ne ds [] with rfl | hds
      · have h := Numeral.digit d hd
        rwa [show ((d.toNat : ℤ) - 48) = decimal ([] ++ [d]) by rw [decimal_append]; simp [decimal]; omega]
          at h
      · have h := (ih hds fun e he ↦ hall e (by simp [he])).more d hd
        rwa [show (10 * (decimal ds : ℤ) + (d.toNat - 48)) = decimal (ds ++ [d]) by
          rw [decimal_append]; omega] at h

theorem Numeral.isDigit {ds : Binary} {n : ℤ} (h : Numeral ds n) :
    ∀ d ∈ ds, CronExpression.isDigit d = true :=
  (numeral_iff.mp h).2.1

theorem Numeral.ne_nil {ds : Binary} {n : ℤ} (h : Numeral ds n) : ds ≠ [] := (numeral_iff.mp h).1

/-- Nothing but a digit occurs in a numeral. -/
theorem Numeral.notMem {ds : Binary} {n : ℤ} (h : Numeral ds n) {b : UInt8}
    (hb : CronExpression.isDigit b = false) : b ∉ ds := fun hmem ↦ by
  rw [h.isDigit b hmem] at hb
  exact absurd hb (by decide)

theorem Positive.ne_nil {s : Binary} {n : ℤ} (h : Positive s n) : s ≠ [] := by
  cases h with
  | plain h => exact h.ne_nil
  | signed h => simp

theorem Signed.ne_nil {s : Binary} {n : ℤ} (h : Signed s n) : s ≠ [] := by
  cases h with
  | positive h => exact h.ne_nil
  | minus h => simp

theorem Positive.notMem {s : Binary} {n : ℤ} (h : Positive s n) {b : UInt8}
    (hb : CronExpression.isDigit b = false) (hplus : b ≠ plus) : b ∉ s := by
  cases h with
  | plain h => exact h.notMem hb
  | signed h => simpa using ⟨hplus, h.notMem hb⟩

theorem Signed.notMem {s : Binary} {n : ℤ} (h : Signed s n) {b : UInt8}
    (hb : CronExpression.isDigit b = false) (hplus : b ≠ plus) (hdash : b ≠ dash) : b ∉ s := by
  cases h with
  | positive h => exact h.notMem hb hplus
  | minus h => simpa using ⟨hdash, h.notMem hb⟩

/-- Without the signs a number is plain. -/
theorem Positive.numeral {s : Binary} {n : ℤ} (h : Positive s n) (hplus : plus ∉ s) :
    Numeral s n := by
  cases h with
  | plain h => exact h
  | signed h => simp at hplus

theorem Signed.positive_of {s : Binary} {n : ℤ} (h : Signed s n) (hdash : dash ∉ s) :
    Positive s n := by
  cases h with
  | positive h => exact h
  | minus h => simp at hdash

theorem parseDigits_eq_some {s : Binary} {n : ℕ} :
    parseDigits s = some (n, []) ↔ Numeral s n := by
  rw [numeral_iff, parseDigits]
  have hiff : s.dropWhile isDigit = [] ↔ ∀ d ∈ s, isDigit d = true := by
    simp [List.dropWhile_eq_nil_iff]
  by_cases hall : ∀ d ∈ s, isDigit d = true
  · have htake : s.takeWhile isDigit = s := List.takeWhile_eq_self_iff.mpr hall
    rw [htake, hiff.mpr hall]
    cases s with
    | nil => simp
    | cons d ds =>
      simp only [List.isEmpty_cons, Option.some.injEq, Prod.mk.injEq, and_true, ne_eq,
        Bool.false_eq_true, if_false, reduceCtorEq, not_false_eq_true, true_and, Int.natCast_inj]
      exact ⟨fun h ↦ ⟨hall, h.symm⟩, fun h ↦ h.2.symm⟩
  · have hrest : s.dropWhile isDigit ≠ [] := fun h ↦ hall (hiff.mp h)
    constructor
    · intro h
      split at h
      · simp at h
      · simp only [Option.some.injEq, Prod.mk.injEq] at h
        exact absurd h.2 hrest
    · exact fun h ↦ absurd h.2.1 hall

theorem integer?_eq_some {s : Binary} {n : ℤ} :
    integer? s = some n ↔ parseInteger s = some (n, []) := by
  unfold integer?
  constructor
  · intro h
    split at h
    · next heq =>
      rw [heq, Option.some.inj h]
    · exact absurd h (by simp)
  · intro h
    rw [h]

/-- The integer parser takes a numeral with an optional sign. -/
theorem integer?_iff {s : Binary} {n : ℤ} : integer? s = some n ↔ Signed s n := by
  rw [integer?_eq_some]
  cases s with
  | nil =>
    refine ⟨fun h ↦ absurd h (by simp [parseInteger]), fun h ↦ ?_⟩
    rcases h with h | h
    rcases h with h
    exact absurd rfl h.ne_nil
  | cons b s =>
    have hmap : ∀ (f : ℕ → ℤ) (r : Binary),
        (parseDigits r).map (fun r ↦ (f r.1, r.2)) = some (n, []) ↔
          ∃ m : ℕ, Numeral r m ∧ f m = n := by
      intro f r
      simp only [Option.map_eq_some_iff, Prod.exists, Prod.mk.injEq, ← parseDigits_eq_some]
      grind
    simp only [parseInteger]
    split_ifs with hplus hdash
    · subst hplus
      rw [hmap fun m ↦ m]
      constructor
      · rintro ⟨m, hm, rfl⟩
        exact .positive (.signed hm)
      · rintro ((h | h) | _)
        · exact absurd (List.mem_cons_self) (h.notMem (b := plus) (by decide))
        · obtain ⟨-, -, rfl⟩ := numeral_iff.mp h
          exact ⟨_, h, rfl⟩
    · subst hdash
      rw [hmap fun m ↦ -m]
      constructor
      · rintro ⟨m, hm, rfl⟩
        exact .minus hm
      · rintro (h | h)
        · rcases h with h
          exact absurd (List.mem_cons_self) (h.notMem (b := dash) (by decide) (by decide))
        · obtain ⟨-, -, rfl⟩ := numeral_iff.mp h
          exact ⟨_, h, rfl⟩
    · rw [hmap fun m ↦ m]
      constructor
      · rintro ⟨m, hm, rfl⟩
        exact .positive (.plain hm)
      · rintro ((h | h) | _)
        · obtain ⟨-, -, rfl⟩ := numeral_iff.mp h
          exact ⟨_, h, rfl⟩
        · exact absurd rfl hplus
        · exact absurd rfl hdash

/-! ## What a base and an item are read as -/

theorem mem_takeWhile_iterate {k b v : ℤ} (hk : 1 ≤ k) (fuel : ℕ) :
    ∀ a : ℤ, (b - a + 1).toNat ≤ fuel →
      (v ∈ (List.iterate (· + k) a fuel).takeWhile (· ≤ b) ↔ (a ≤ v ∧ v ≤ b) ∧ k ∣ v - a) := by
  induction fuel with
  | zero =>
    intro a hfuel
    simp only [List.iterate, List.takeWhile_nil, List.not_mem_nil, false_iff]
    omega
  | succ fuel ih =>
    intro a hfuel
    by_cases hab : a ≤ b
    · have hshift : k ∣ v - (a + k) ↔ k ∣ v - a := by
        rw [show v - (a + k) = v - a - k by omega]
        exact Int.dvd_iff_dvd_of_dvd_sub ⟨-1, by omega⟩
      simp only [List.iterate, List.takeWhile_cons, hab, decide_true, if_true, List.mem_cons,
        ih (a + k) (by omega), hshift]
      constructor
      · rintro (rfl | ⟨⟨hlow, hhigh⟩, hdvd⟩)
        · exact ⟨⟨le_refl _, hab⟩, by simp⟩
        · exact ⟨⟨by omega, hhigh⟩, hdvd⟩
      · rintro ⟨⟨hlow, hhigh⟩, hdvd⟩
        rcases hlow.eq_or_lt with heq | hlt
        · exact .inl heq.symm
        · have := Int.le_of_dvd (by omega) hdvd
          exact .inr ⟨⟨by omega, hhigh⟩, hdvd⟩
    · simp only [List.iterate, List.takeWhile_cons, hab, decide_false, Bool.false_eq_true, if_false,
        List.not_mem_nil, false_iff]
      omega

theorem coe_steps {a b k : ℤ} (hk : 1 ≤ k) :
    (steps a k b : Set ℤ) = {v | (a ≤ v ∧ v ≤ b) ∧ k ∣ v - a} := by
  ext v
  rw [steps, List.coe_toFinset]
  exact mem_takeWhile_iterate hk _ a (le_refl _)

theorem coe_steps_one (a b : ℤ) : (steps a 1 b : Set ℤ) = {v | a ≤ v ∧ v ≤ b} := by
  rw [coe_steps (le_refl 1)]
  ext v
  simp

theorem steps_self (a k : ℤ) : steps a k a = {a} := by
  simp [steps, List.iterate]

theorem integer?_of_signed {s : Binary} {n : ℤ} (h : Signed s n) : integer? s = some n :=
  integer?_iff.mpr h

theorem Positive.ne_star {s : Binary} {n : ℤ} (h : Positive s n) : s ≠ text "*" := fun hstar ↦
  h.notMem (b := 42) (by decide) (by decide) (by rw [hstar]; decide)

/-- A base is read as one, and nothing else is. -/
theorem range_eq_ok {s : Binary} {low high k : ℤ} {vs : Finset ℤ} :
    range s low high k = .ok vs ↔
      ∃ a b, Base Positive Signed low high s a b ∧ vs = steps a k b := by
  constructor
  · intro h
    unfold range at h
    split at h
    · next hstar =>
      cases h
      exact ⟨low, high, hstar ▸ .star, rfl⟩
    · split at h
      · next single hcut =>
        obtain ⟨rfl, hdash⟩ := cut_eq_none.mp hcut
        split at h
        · next n hn =>
          split at h
          · next hbounds =>
            cases h
            have hpos := (integer?_iff.mp hn).positive_of hdash
            exact ⟨n, n, .single hpos hbounds.1 hbounds.2, (steps_self n k).symm⟩
          · cases h
        · cases h
      · next first last hcut =>
        obtain ⟨rfl, hdash⟩ := cut_eq_some.mp hcut
        split at h
        · next a b ha hb =>
          split at h
          · next hbounds =>
            cases h
            have hpos := (integer?_iff.mp ha).positive_of hdash
            exact ⟨a, b, .span hpos (integer?_iff.mp hb) hbounds.1.1 hbounds.2.1 hbounds.2.2, rfl⟩
          · cases h
        · cases h
  · rintro ⟨a, b, hbase, rfl⟩
    cases hbase with
    | star => rw [range, if_pos rfl]
    | single hs hlow hhigh =>
      have hcut := cut_of_notMem (hs.notMem (b := dash) (by decide) (by decide))
      simp [range, hs.ne_star, hcut, integer?_of_signed (.positive hs), hlow, hhigh, steps_self]
    | span hs ht hlow hab hhigh =>
      next s t =>
      have hcut := cut_append (hs.notMem (b := dash) (by decide) (by decide)) t
      have hne : s ++ dash :: t ≠ text "*" := fun hstar ↦ by
        have hmem : dash ∈ text "*" := by simp [← hstar]
        exact absurd hmem (by decide)
      simp [range, hne, hcut, integer?_of_signed (.positive hs), integer?_of_signed ht, hlow, hab,
        hhigh, hab.trans hhigh]

theorem Base.notMem {s : Binary} {low high a b : ℤ} (h : Base Positive Signed low high s a b)
    {c : UInt8} (hc : CronExpression.isDigit c = false) (hstar : c ∉ text "*") (hplus : c ≠ plus)
    (hdash : c ≠ dash) : c ∉ s := by
  cases h with
  | star => exact hstar
  | single h => exact h.notMem hc hplus
  | span hs ht =>
    simpa using ⟨hs.notMem hc hplus, hdash, ht.notMem hc hplus hdash⟩

theorem Base.ne_nil {s : Binary} {low high a b : ℤ} (h : Base Positive Signed low high s a b) :
    s ≠ [] := by
  cases h with
  | star => decide
  | single h => exact h.ne_nil
  | span => simp

theorem fieldPart_eq_ok {s : Binary} {low high : ℤ} {x : Set ℤ} :
    (∃ vs, fieldPart s low high = .ok vs ∧ (vs : Set ℤ) = x) ↔
      Item Positive Signed low high s x := by
  constructor
  · rintro ⟨vs, h, rfl⟩
    unfold fieldPart at h
    split at h
    · next base hcut =>
      obtain ⟨rfl, -⟩ := cut_eq_none.mp hcut
      obtain ⟨a, b, hbase, rfl⟩ := range_eq_ok.mp h
      rw [coe_steps_one]
      exact .plain hbase
    · next base step hcut =>
      obtain ⟨rfl, -⟩ := cut_eq_some.mp hcut
      split at h
      · next n hn =>
        split at h
        · next hpos =>
          obtain ⟨a, b, hbase, rfl⟩ := range_eq_ok.mp h
          rw [coe_steps hpos]
          refine .stepped hbase ?_ hpos
          -- a step with a minus sign is not positive
          rcases integer?_iff.mp hn with hstep | hstep
          · exact hstep
          · obtain ⟨-, -, rfl⟩ := numeral_iff.mp hstep
            omega
        · cases h
      · cases h
  · intro h
    cases h with
    | plain hbase =>
      have hcut := cut_of_notMem (hbase.notMem (c := slash) (by decide) (by decide) (by decide)
        (by decide))
      exact ⟨_, by rw [fieldPart, hcut]; exact range_eq_ok.mpr ⟨_, _, hbase, rfl⟩, coe_steps_one _ _⟩
    | stepped hbase ht hk =>
      next s t a b k =>
      have hcut := cut_append (hbase.notMem (c := slash) (by decide) (by decide) (by decide)
        (by decide)) t
      refine ⟨_, ?_, coe_steps hk⟩
      have hpos := Int.lt_of_lt_of_le Int.zero_lt_one hk
      simp only [fieldPart, hcut, integer?_of_signed (.positive ht), if_pos hpos]
      exact range_eq_ok.mpr ⟨_, _, hbase, rfl⟩

theorem collect_eq_ok {low high : ℤ} {parts : List Binary} {x : Set ℤ} :
    ∀ values : Finset ℤ,
      (∃ vs, collect low high parts values = .ok vs ∧ (vs : Set ℤ) = x) ↔
        ∃ y, Items Positive Signed low high parts y ∧ ↑values ∪ y = x := by
  induction parts with
  | nil =>
    intro values
    constructor
    · rintro ⟨vs, h, rfl⟩
      cases h
      exact ⟨∅, .nil, Set.union_empty _⟩
    · rintro ⟨y, hy, rfl⟩
      cases hy
      exact ⟨values, rfl, (Set.union_empty _).symm⟩
  | cons part parts ih =>
    intro values
    constructor
    · rintro ⟨vs, h, hx⟩
      simp only [collect] at h
      split at h
      · next ps hps =>
        obtain ⟨y, hy, rfl⟩ := (ih _).mp ⟨vs, h, hx⟩
        refine ⟨↑ps ∪ y, .cons (fieldPart_eq_ok.mp ⟨ps, hps, rfl⟩) hy, ?_⟩
        rw [Finset.coe_union, Set.union_assoc]
      · cases h
    · rintro ⟨y, hy, rfl⟩
      cases hy with
      | cons hpart hrest =>
        obtain ⟨ps, hps, rfl⟩ := fieldPart_eq_ok.mpr hpart
        simp only [collect, hps]
        refine (ih (values ∪ ps)).mpr ⟨_, hrest, ?_⟩
        rw [Finset.coe_union, Set.union_assoc]

/-- A field is accepted when it is loosely one, and keeps what it denotes. -/
theorem field_eq_ok {s : Binary} {low high : ℤ} {x : Set ℤ} :
    (∃ v, field s low high = .ok v ∧ (anyToFull low high v : Set ℤ) = x) ↔ Loose low high s x := by
  have hitems : Loose low high s x ↔ ∃ vs, collect low high (words (· == comma) s) ∅ = .ok vs ∧
      (vs : Set ℤ) = x := by
    rw [collect_eq_ok]
    constructor
    · rintro ⟨items, hlaid, hitems⟩
      rw [laid_iff.mp hlaid]
      exact ⟨x, hitems, by simp⟩
    · rintro ⟨y, hy, rfl⟩
      exact ⟨_, laid_iff.mpr rfl, by simpa using hy⟩
  rw [hitems]
  by_cases hstar : s = text "*"
  · have hcollect : collect low high (words (· == comma) s) ∅ = .ok (∅ ∪ steps low 1 high) := by
      rw [hstar, show words (· == comma) (text "*") = [text "*"] by decide]
      have hcut : cut slash (text "*") = (text "*", none) := by decide
      simp only [collect, fieldPart, hcut, range, if_pos]
    simp only [field, if_pos hstar, hcollect, Except.ok.injEq, exists_eq_left', anyToFull,
      Finset.empty_union]
  · simp only [field, if_neg hstar]
    cases collect low high (words (· == comma) s) ∅ with
    | ok vs => simp [Except.map, anyToFull]
    | error e => simp [Except.map]

/-! ## What makes an expression loose -/

/-- An item that is empty, has a plus sign, or has a minus sign beside the dash of a range. -/
def blemished (item : Binary) : Bool :=
  item.isEmpty || item.contains plus || decide (1 < item.count dash)

theorem blemished_eq_false {s : Binary} :
    blemished s = false ↔ s ≠ [] ∧ plus ∉ s ∧ s.count dash ≤ 1 := by
  simp [blemished, and_assoc]

/-- Some item of an expression is blemished. -/
def Blemished (s : Binary) : Prop :=
  ∃ f ∈ words isSpace s, ∃ item ∈ f.splitOn comma, blemished item = true

theorem Numeral.positive {s : Binary} {n : ℤ} (h : Numeral s n) : Positive s n := .plain h

theorem Numeral.signed {s : Binary} {n : ℤ} (h : Numeral s n) : Signed s n := .positive h.positive

theorem Numeral.count_dash {s : Binary} {n : ℤ} (h : Numeral s n) : s.count dash = 0 :=
  List.count_eq_zero.mpr (h.notMem (by decide))

section Plain

variable {s : Binary} {low high a b : ℤ}

theorem Base.loose (h : Base Numeral Numeral low high s a b) :
    Base Positive Signed low high s a b := by
  cases h with
  | star => exact .star
  | single h hlow hhigh => exact .single h.positive hlow hhigh
  | span hs ht hlow hab hhigh => exact .span hs.positive ht.signed hlow hab hhigh

theorem Base.clean (h : Base Numeral Numeral low high s a b) :
    plus ∉ s ∧ s.count dash ≤ 1 := by
  cases h with
  | star => decide
  | single h => exact ⟨h.notMem (by decide), by simp [h.count_dash]⟩
  | span hs ht =>
    refine ⟨?_, by simp [hs.count_dash, ht.count_dash]⟩
    simpa using ⟨hs.notMem (b := plus) (by decide), by decide, ht.notMem (b := plus) (by decide)⟩

theorem Base.plain (h : Base Positive Signed low high s a b) (hplus : plus ∉ s)
    (hdash : s.count dash ≤ 1) : Base Numeral Numeral low high s a b := by
  cases h with
  | star => exact .star
  | single h hlow hhigh => exact .single (h.numeral hplus) hlow hhigh
  | span hs ht hlow hab hhigh =>
    next s t =>
    simp only [List.mem_append, List.mem_cons, not_or] at hplus
    simp only [List.count_append, List.count_cons_self] at hdash
    have hnone : dash ∉ t := List.count_eq_zero.mp (by omega)
    exact .span (hs.numeral hplus.1) ((ht.positive_of hnone).numeral hplus.2.2) hlow hab hhigh

theorem Item.loose {x : Set ℤ} (h : Item Numeral Numeral low high s x) :
    Item Positive Signed low high s x := by
  cases h with
  | plain h => exact .plain h.loose
  | stepped h ht hk => exact .stepped h.loose ht.positive hk

theorem Item.clean {x : Set ℤ} (h : Item Numeral Numeral low high s x) : blemished s = false := by
  rw [blemished_eq_false]
  cases h with
  | plain h => exact ⟨h.loose.ne_nil, h.clean⟩
  | stepped h ht =>
    refine ⟨by simp, ?_, ?_⟩
    · simpa using ⟨h.clean.1, by decide, ht.notMem (b := plus) (by decide)⟩
    · rw [List.count_append, List.count_cons_of_ne (by decide), ht.count_dash]
      exact h.clean.2

theorem Item.plain_of {x : Set ℤ} (h : Item Positive Signed low high s x)
    (hclean : blemished s = false) : Item Numeral Numeral low high s x := by
  obtain ⟨-, hplus, hdash⟩ := blemished_eq_false.mp hclean
  cases h with
  | plain h => exact .plain (h.plain hplus hdash)
  | stepped h ht hk =>
    simp only [List.mem_append, List.mem_cons, not_or] at hplus
    simp only [List.count_append] at hdash
    exact .stepped (h.plain hplus.1 (by omega)) (ht.numeral hplus.2.2) hk

theorem Item.ne_nil {x : Set ℤ} (h : Item Positive Signed low high s x) : s ≠ [] := by
  cases h with
  | plain h => exact h.ne_nil
  | stepped => simp

theorem Item.comma_notMem {x : Set ℤ} (h : Item Positive Signed low high s x) : comma ∉ s := by
  have hbase : ∀ {t : Binary} {a b : ℤ}, Base Positive Signed low high t a b → comma ∉ t :=
    fun h ↦ h.notMem (by decide) (by decide) (by decide) (by decide)
  cases h with
  | plain h => exact hbase h
  | stepped h ht => 
    simpa using ⟨hbase h, by decide, ht.notMem (b := comma) (by decide) (by decide)⟩

/-- What an item denotes is a nonempty part of the range of its field. -/
theorem Item.denotes {x : Set ℤ} (h : Item Numeral Numeral low high s x) (hrange : low ≤ high) :
    x.Nonempty ∧ ∀ v ∈ x, low ≤ v ∧ v ≤ high := by
  have hbase : ∀ {t : Binary} {a b : ℤ}, Base Numeral Numeral low high t a b →
      low ≤ a ∧ a ≤ b ∧ b ≤ high := by
    intro t a b h
    cases h with
    | star => exact ⟨le_refl _, hrange, le_refl _⟩
    | single _ hlow hhigh => exact ⟨hlow, le_refl _, hhigh⟩
    | span _ _ hlow hab hhigh => exact ⟨hlow, hab, hhigh⟩
  cases h with
  | plain h =>
    obtain ⟨hlow, hab, hhigh⟩ := hbase h
    exact ⟨⟨_, le_refl _, hab⟩, fun v hv ↦ ⟨hlow.trans hv.1, hv.2.trans hhigh⟩⟩
  | stepped h _ _ =>
    obtain ⟨hlow, hab, hhigh⟩ := hbase h
    refine ⟨⟨_, ⟨le_refl _, hab⟩, by simp⟩, fun v hv ↦ ?_⟩
    exact ⟨hlow.trans hv.1.1, hv.1.2.trans hhigh⟩

end Plain

section Fields

variable {low high : ℤ} {items : List Binary} {x : Set ℤ}

theorem Items.loose (h : Items Numeral Numeral low high items x) :
    Items Positive Signed low high items x := by
  induction h with
  | nil => exact .nil
  | cons h _ ih => exact .cons h.loose ih

theorem Items.clean (h : Items Numeral Numeral low high items x) :
    ∀ item ∈ items, blemished item = false := by
  induction h with
  | nil => simp
  | cons h _ ih => simpa using ⟨h.clean, ih⟩

theorem Items.plain_of (h : Items Positive Signed low high items x)
    (hclean : ∀ item ∈ items, blemished item = false) :
    Items Numeral Numeral low high items x := by
  induction h with
  | nil => exact .nil
  | cons h _ ih =>
    rw [List.forall_mem_cons] at hclean
    exact .cons (h.plain_of hclean.1) (ih hclean.2)

theorem Items.comma_notMem (h : Items Positive Signed low high items x) :
    ∀ item ∈ items, comma ∉ item := by
  induction h with
  | nil => simp
  | cons h _ ih => exact List.forall_mem_cons.mpr ⟨h.comma_notMem, ih⟩

theorem Items.subset (h : Items Numeral Numeral low high items x) (hrange : low ≤ high) :
    ∀ v ∈ x, low ≤ v ∧ v ≤ high := by
  induction h with
  | nil => exact fun _ hv ↦ hv.elim
  | cons h _ ih => exact fun v hv ↦ hv.elim ((h.denotes hrange).2 v) (ih v)

theorem Items.nonempty (h : Items Numeral Numeral low high items x) (hrange : low ≤ high)
    (hne : items ≠ []) : x.Nonempty := by
  cases h with
  | nil => exact absurd rfl hne
  | cons h _ => exact (h.denotes hrange).1.inl

/-- A list of items is a loose one without blemishes. -/
theorem listed_iff {s : Binary} :
    Listed low high s x ↔ Loose low high s x ∧ ∀ item ∈ s.splitOn comma, blemished item = false := by
  constructor
  · rintro ⟨items, hne, rfl, hitems⟩
    have hsplit := List.splitOn_intercalate comma hitems.loose.comma_notMem hne
    have hwords : words (· == comma) ([comma].intercalate items) = items := by
      rw [words, ← List.splitOn_eq_splitOnP, hsplit, List.filter_eq_self]
      intro item hmem
      have := (blemished_eq_false.mp (hitems.clean item hmem)).1
      simpa using this
    refine ⟨⟨items, laid_iff.mpr hwords, hitems.loose⟩, ?_⟩
    rw [hsplit]
    exact hitems.clean
  · rintro ⟨⟨items, hlaid, hitems⟩, hclean⟩
    have hsplit : s.splitOn comma = items := by
      rw [← laid_iff.mp hlaid, words, ← List.splitOn_eq_splitOnP, eq_comm, List.filter_eq_self]
      intro item hmem
      have := (blemished_eq_false.mp (hclean item hmem)).1
      simpa using this
    refine ⟨items, hsplit ▸ List.splitOn_ne_nil comma s, ?_, hitems.plain_of (hsplit ▸ hclean)⟩
    rw [← hsplit, List.intercalate_splitOn]

theorem Listed.within {s : Binary} (h : Listed low high s x) (hrange : low ≤ high) :
    x.Nonempty ∧ ∀ v ∈ x, low ≤ v ∧ v ≤ high := by
  obtain ⟨items, hne, -, hitems⟩ := h
  exact ⟨hitems.nonempty hrange hne, hitems.subset hrange⟩

end Fields

theorem expression_listed_iff {s : Binary} {d : Denoted} :
    Expression Listed s d ↔ Expression Loose s d ∧ ¬Blemished s := by
  constructor
  · rintro ⟨mi, ho, dm, mo, dw, hlaid, hmi, hho, hdm, hmo, hdw⟩
    rw [listed_iff] at hmi hho hdm hmo hdw
    refine ⟨⟨mi, ho, dm, mo, dw, hlaid, hmi.1, hho.1, hdm.1, hmo.1, hdw.1⟩, ?_⟩
    rintro ⟨f, hf, item, hitem, hblemished⟩
    rw [laid_iff.mp hlaid] at hf
    have hclean : blemished item = false := by
      simp only [List.mem_cons, List.not_mem_nil, or_false] at hf
      rcases hf with rfl | rfl | rfl | rfl | rfl
      exacts [hmi.2 item hitem, hho.2 item hitem, hdm.2 item hitem, hmo.2 item hitem,
        hdw.2 item hitem]
    rw [hclean] at hblemished
    exact absurd hblemished (by decide)
  · rintro ⟨⟨mi, ho, dm, mo, dw, hlaid, hmi, hho, hdm, hmo, hdw⟩, hclean⟩
    have hfield : ∀ f ∈ words isSpace s, ∀ item ∈ f.splitOn comma, blemished item = false := by
      intro f hf item hitem
      rw [← Bool.not_eq_true]
      exact fun h ↦ hclean ⟨f, hf, item, hitem, h⟩
    rw [laid_iff.mp hlaid] at hfield
    simp only [List.forall_mem_cons] at hfield
    obtain ⟨cmi, cho, cdm, cmo, cdw, -⟩ := hfield
    exact ⟨mi, ho, dm, mo, dw, hlaid, listed_iff.mpr ⟨hmi, cmi⟩, listed_iff.mpr ⟨hho, cho⟩,
      listed_iff.mpr ⟨hdm, cdm⟩, listed_iff.mpr ⟨hmo, cmo⟩, listed_iff.mpr ⟨hdw, cdw⟩⟩

/-! ## What the parser accepts -/

/-- The fields of a parsed expression are what the expression denotes, with `7` read as Sunday. -/
structure Denotes (c : CronExpression) (d : Denoted) : Prop where
  minute : (c.minute : Set ℤ) = d.minute
  hour : (c.hour : Set ℤ) = d.hour
  dayOfMonth : (c.dayOfMonth : Set ℤ) = d.dayOfMonth
  month : (c.month : Set ℤ) = d.month
  dayOfWeek : (c.dayOfWeek : Set ℤ) = weekdayOf '' d.dayOfWeek

/-- Each field has a value, and only values of its range. -/
structure Within (c : CronExpression) : Prop where
  minute : c.minute.Nonempty ∧ ∀ v ∈ c.minute, 0 ≤ v ∧ v ≤ 59
  hour : c.hour.Nonempty ∧ ∀ v ∈ c.hour, 0 ≤ v ∧ v ≤ 23
  dayOfMonth : c.dayOfMonth.Nonempty ∧ ∀ v ∈ c.dayOfMonth, 1 ≤ v ∧ v ≤ 31
  month : c.month.Nonempty ∧ ∀ v ∈ c.month, 1 ≤ v ∧ v ≤ 12
  dayOfWeek : c.dayOfWeek.Nonempty ∧ ∀ v ∈ c.dayOfWeek, 0 ≤ v ∧ v ≤ 6

theorem anyToFull_normalizeWeekdays (v : FieldValue) :
    anyToFull 0 6 (normalizeWeekdays v) = (anyToFull 0 7 v).image weekdayOf := by
  cases v with
  | any => decide
  | values vs => rfl

theorem coe_anyToFull_weekdays {s : Binary} {v : FieldValue} {x : Set ℤ}
    (hx : (anyToFull 0 7 v : Set ℤ) = x) (hs : field s 0 7 = .ok v) :
    Loose 0 7 s x ∧ (anyToFull 0 6 (normalizeWeekdays v) : Set ℤ) = weekdayOf '' x := by
  refine ⟨field_eq_ok.mp ⟨v, hs, hx⟩, ?_⟩
  rw [anyToFull_normalizeWeekdays, Finset.coe_image, hx]

/-- What a parsed expression was split into. -/
theorem parse_eq_ok {s timezone : Binary} {c : CronExpression} (h : parse s timezone = .ok c) :
    ∃ d, Expression Loose s d ∧ Denotes c d := by
  unfold parse at h
  split at h
  · next mi ho dm mo dw hwords =>
    simp only [mapError_eq_ok, parseFields, bind_eq_ok, pure_eq_ok, Except.ok.injEq] at h
    obtain ⟨-, -, vmi, hmi, vho, hho, vdm, hdm, vmo, hmo, vdw, hdw, rfl⟩ := h
    obtain ⟨hloose, hdays⟩ := coe_anyToFull_weekdays rfl hdw
    refine ⟨⟨anyToFull 0 59 vmi, anyToFull 0 23 vho, anyToFull 1 31 vdm, anyToFull 1 12 vmo,
      anyToFull 0 7 vdw⟩, ⟨mi, ho, dm, mo, dw, laid_iff.mpr hwords, ?_, ?_, ?_, ?_, hloose⟩,
      ⟨rfl, rfl, rfl, rfl, hdays⟩⟩
    exacts [field_eq_ok.mp ⟨vmi, hmi, rfl⟩, field_eq_ok.mp ⟨vho, hho, rfl⟩,
      field_eq_ok.mp ⟨vdm, hdm, rfl⟩, field_eq_ok.mp ⟨vmo, hmo, rfl⟩]
  · cases h

/-- With an accepted time zone the parser takes every loose expression. -/
theorem exists_parse {s timezone : Binary} {d : Denoted}
    (hzone : (timezoneOffset timezone).isOk = true) (h : Expression Loose s d) :
    ∃ c, parse s timezone = .ok c := by
  obtain ⟨offset, hoffset⟩ := exists_ok hzone
  obtain ⟨mi, ho, dm, mo, dw, hlaid, hmi, hho, hdm, hmo, hdw⟩ := h
  obtain ⟨vmi, hmi, -⟩ := field_eq_ok.mpr hmi
  obtain ⟨vho, hho, -⟩ := field_eq_ok.mpr hho
  obtain ⟨vdm, hdm, -⟩ := field_eq_ok.mpr hdm
  obtain ⟨vmo, hmo, -⟩ := field_eq_ok.mpr hmo
  obtain ⟨vdw, hdw, -⟩ := field_eq_ok.mpr hdw
  simp only [parse, laid_iff.mp hlaid, parseFields, hoffset, hmi, hho, hdm, hmo, hdw, ok_bind,
    pure_eq_ok, mapError_eq_ok, Except.ok.injEq, exists_eq']

theorem Denotes.within {c : CronExpression} {s : Binary} {d : Denoted} (h : Denotes c d)
    (hs : Expression Listed s d) : Within c := by
  obtain ⟨mi, ho, dm, mo, dw, -, hmi, hho, hdm, hmo, hdw⟩ := hs
  have hof : ∀ {low high : ℤ} {vs : Finset ℤ},
      ((vs : Set ℤ).Nonempty ∧ ∀ v ∈ (vs : Set ℤ), low ≤ v ∧ v ≤ high) →
      vs.Nonempty ∧ ∀ v ∈ vs, low ≤ v ∧ v ≤ high :=
    fun h ↦ ⟨Finset.coe_nonempty.mp h.1, fun v hv ↦ h.2 v (Finset.mem_coe.mpr hv)⟩
  have hweek : (weekdayOf '' d.dayOfWeek).Nonempty ∧
      ∀ v ∈ weekdayOf '' d.dayOfWeek, 0 ≤ v ∧ v ≤ 6 := by
    obtain ⟨hne, hsub⟩ := hdw.within (by decide)
    refine ⟨hne.image _, ?_⟩
    rintro _ ⟨day, hday, rfl⟩
    have := hsub day hday
    simp only [weekdayOf]
    split_ifs <;> omega
  exact {
    minute := hof (h.minute ▸ hmi.within (by decide))
    hour := hof (h.hour ▸ hho.within (by decide))
    dayOfMonth := hof (h.dayOfMonth ▸ hdm.within (by decide))
    month := hof (h.month ▸ hmo.within (by decide))
    dayOfWeek := hof (h.dayOfWeek ▸ hweek) }

/-- The parser is exact on an expression: it accepts it when it is five lists of items, and then each
field is the nonempty union of its items, within its range. -/
def Exact (s timezone : Binary) : Prop :=
  ((∃ c, parse s timezone = .ok c) ↔ ∃ d, Expression Listed s d) ∧
    ∀ c, parse s timezone = .ok c → ∃ d, Expression Listed s d ∧ Denotes c d ∧ Within c

/-- The parser is exact on all expressions but the loose ones with a blemish. -/
theorem parse_exact_iff {s timezone : Binary} (hzone : (timezoneOffset timezone).isOk = true) :
    Exact s timezone ↔ ¬((∃ d, Expression Loose s d) ∧ Blemished s) := by
  constructor
  · rintro ⟨hiff, -⟩ ⟨⟨d, hd⟩, hblemished⟩
    obtain ⟨d', hd'⟩ := hiff.mp (exists_parse hzone hd)
    exact (expression_listed_iff.mp hd').2 hblemished
  · intro h
    have hlisted : ∀ d, Expression Loose s d → Expression Listed s d := fun d hd ↦
      expression_listed_iff.mpr ⟨hd, fun hblemished ↦ h ⟨⟨d, hd⟩, hblemished⟩⟩
    refine ⟨⟨?_, ?_⟩, ?_⟩
    · rintro ⟨c, hc⟩
      obtain ⟨d, hd, -⟩ := parse_eq_ok hc
      exact ⟨d, hlisted d hd⟩
    · rintro ⟨d, hd⟩
      exact exists_parse hzone (expression_listed_iff.mp hd).1
    · intro c hc
      obtain ⟨d, hd, hdenotes⟩ := parse_eq_ok hc
      exact ⟨d, hlisted d hd, hdenotes, hdenotes.within (hlisted d hd)⟩

theorem parse_exact_nightly :
    (timezoneOffset (text "+05:30")).isOk = true ∧
      (Exact (text "15 9 * * 1-5") (text "+05:30") ↔
        ¬((∃ d, Expression Loose (text "15 9 * * 1-5") d) ∧ Blemished (text "15 9 * * 1-5"))) :=
  ⟨by decide +kernel, parse_exact_iff (by decide +kernel)⟩

/-- An expression the parser accepts, with a blemish. -/
theorem not_exact {s timezone : Binary} (hparse : (parse s timezone).isOk = true)
    (hblemished : Blemished s) : ¬Exact s timezone := by
  rintro ⟨hiff, -⟩
  obtain ⟨d, hd⟩ := hiff.mp (exists_ok hparse)
  exact (expression_listed_iff.mp hd).2 hblemished

/-- A field of one comma is accepted and denotes nothing, and a sign is taken as part of a number. -/
theorem parse_not_exact :
    (timezoneOffset (text "UTC")).isOk = true ∧
      (∃ c, parse (text ", * * * *") (text "UTC") = .ok c ∧ c.minute = ∅) ∧
      ¬Exact (text ", * * * *") (text "UTC") ∧ ¬Exact (text "+5 0--0 */+7 * *") (text "UTC") := by
  refine ⟨by decide +kernel, ?_, not_exact (by decide +kernel) ?_, not_exact (by decide +kernel) ?_⟩
  · obtain ⟨c, hc⟩ := exists_ok (x := parse (text ", * * * *") (text "UTC")) (by decide +kernel)
    have hempty : ((parse (text ", * * * *") (text "UTC")).toOption.map CronExpression.minute) = some ∅ := by
      decide +kernel
    rw [hc] at hempty
    exact ⟨c, hc, Option.some.inj hempty⟩
  · exact ⟨text ",", by decide +kernel, [], by decide +kernel, by decide⟩
  · exact ⟨text "+5", by decide +kernel, text "+5", by decide +kernel, by decide +kernel⟩

end CronExpression

end Tay
