import Mathlib.Algebra.Order.Ring.Int
import Mathlib.Algebra.Order.Ring.Nat
import Mathlib.Data.Int.Notation

/-!
# Doubles as numbers

What a program reads of a finite double when it uses it as an amount: whether it is positive, how it
compares with a whole number, the double nearest to a multiple of it, and the whole number nearest to it.
A finite double is a sign, a whole significand and a power of two, and each of these is exact arithmetic
on them.
-/

namespace Foundation

/-- The number `± significand * 2 ^ exponent`. -/
structure Double where
  negative : Bool
  significand : ℕ
  exponent : ℤ
  deriving DecidableEq

namespace Double

/-- A finite double, by its 64 bits. -/
def ofBits (bits : ℕ) : Double :=
  let biased := bits / 2 ^ 52 % 2048
  let fraction := bits % 2 ^ 52
  { negative := bits / 2 ^ 63 % 2 == 1
    significand := if biased = 0 then fraction else 2 ^ 52 + fraction
    exponent := (if biased = 0 then 1 else biased : ℕ) - 1075 }

variable (d : Double)

def isPositive : Bool := !d.negative && d.significand != 0

/-- `0 <= d`; the negative zero is a zero. -/
def isNonnegative : Bool := !d.negative || d.significand == 0

/-- `d <= n`, compared exactly. -/
def atMost (n : ℤ) : Bool :=
  let signed : ℤ := if d.negative then -d.significand else d.significand
  if 0 ≤ d.exponent then signed * 2 ^ d.exponent.toNat ≤ n
  else signed ≤ n * 2 ^ (-d.exponent).toNat

/-- The product with a whole number, rounded to 53 bits and to even. -/
def times (k : ℕ) : Double :=
  let product := d.significand * k
  let excess := product.log2 - 52
  let kept := product / 2 ^ excess
  let left := 2 * (product % 2 ^ excess)
  let up := decide (2 ^ excess < left) || (left == 2 ^ excess && kept % 2 == 1 && 0 < excess)
  { d with
    significand := if up then kept + 1 else kept
    exponent := d.exponent + excess }

/-- The nearest whole number, away from zero where two are as near. -/
def round : ℤ :=
  let magnitude : ℕ :=
    if 0 ≤ d.exponent then d.significand * 2 ^ d.exponent.toNat
    else (2 * d.significand + 2 ^ (-d.exponent).toNat) / 2 ^ ((-d.exponent).toNat + 1)
  if d.negative then -magnitude else magnitude

/-- The whole number below. -/
def floor : ℤ :=
  let signed : ℤ := if d.negative then -d.significand else d.significand
  if 0 ≤ d.exponent then signed * 2 ^ d.exponent.toNat else signed / 2 ^ (-d.exponent).toNat

/-- The number is at least half of one above the whole number below it. -/
def pastHalf : Bool :=
  let signed : ℤ := if d.negative then -d.significand else d.significand
  decide (d.exponent < 0) && decide ((2 : ℤ) ^ (-d.exponent).toNat ≤ 2 * (signed % 2 ^ (-d.exponent).toNat))

/-- 0.5, 1.5 and 1.0e-3, a thousand times. -/
example : ((ofBits 0x3FE0000000000000).times 1000).round = 500 ∧
    (ofBits 0x3FF8000000000000).round = 2 ∧ ((ofBits 0x3F50624DD2F1A9FC).times 1000).round = 1 := by
  decide +kernel

variable {d : Double}

/-- The number that is meant with its sign: the negative zero has none. -/
theorem signed_eq (h : d.isNonnegative = true) :
    (if d.negative then -(d.significand : ℤ) else d.significand) = d.significand := by
  rw [isNonnegative, Bool.or_eq_true, Bool.not_eq_true', beq_iff_eq] at h
  rcases h with h | h
  · rw [h]
    rfl
  · rw [h]
    exact ite_self _

theorem half_up (s p : ℕ) (hp : 0 < p) :
    (2 * s + p) / (2 * p) = s / p + if p ≤ 2 * (s % p) then 1 else 0 := by
  have hmod := Nat.mod_lt s hp
  have hsum : 2 * s + p = 2 * (s % p) + p + 2 * p * (s / p) := by
    have hdiv : 2 * s = 2 * (s % p) + 2 * p * (s / p) := by
      rw [Nat.mul_assoc, ← Nat.mul_add, Nat.mod_add_div]
    omega
  rw [hsum, Nat.add_mul_div_left _ _ (by omega), Nat.add_comm]
  refine congrArg (s / p + ·) ?_
  split
  · exact Nat.div_eq_of_lt_le (by omega) (by omega)
  · exact Nat.div_eq_of_lt (by omega)

/-- Rounding halves up is rounding away from zero, where nothing is below zero. -/
theorem round_eq (h : d.isNonnegative = true) : d.round = d.floor + if d.pastHalf then 1 else 0 := by
  have hsigned := signed_eq h
  have hsign (m : ℕ) (hm : d.significand = 0 → m = 0) : (if d.negative then -(m : ℤ) else m) = m := by
    rw [isNonnegative, Bool.or_eq_true, Bool.not_eq_true', beq_iff_eq] at h
    rcases h with h | h
    · rw [h]
      rfl
    · rw [hm h]
      exact ite_self _
  rw [round, floor, pastHalf]
  simp only [hsigned]
  by_cases he : 0 ≤ d.exponent
  · rw [if_pos he, if_pos he, hsign _ fun h ↦ by rw [h, Nat.zero_mul], decide_eq_false (by omega)]
    simp
  · have hpow : 0 < 2 ^ (-d.exponent).toNat := Nat.two_pow_pos _
    have hhalf := half_up d.significand _ hpow
    rw [if_neg he, if_neg he, Nat.pow_succ, Nat.mul_comm (2 ^ _) 2, hhalf, decide_eq_true (by omega), Bool.true_and]
    have hcast : (decide ((2 : ℤ) ^ (-d.exponent).toNat ≤ 2 * ((d.significand : ℤ) % 2 ^ (-d.exponent).toNat)) = true) ↔
        2 ^ (-d.exponent).toNat ≤ 2 * (d.significand % 2 ^ (-d.exponent).toNat) := by
      rw [decide_eq_true_iff]
      exact_mod_cast Iff.rfl
    rw [hsign _ fun h ↦ ?_, if_congr hcast rfl rfl]
    · push_cast
      rfl
    · rw [h, Nat.zero_div, Nat.zero_mod, if_neg (by omega)]

theorem significand_times_zero (h : d.significand = 0) (k : ℕ) : (d.times k).significand = 0 := by
  rw [times, h]
  simp

theorem isNonnegative_times (h : d.isNonnegative = true) (k : ℕ) : (d.times k).isNonnegative = true := by
  rw [isNonnegative, Bool.or_eq_true, Bool.not_eq_true', beq_iff_eq] at h ⊢
  exact h.imp_right fun h ↦ significand_times_zero h k

theorem round_of_zero (h : d.significand = 0) : d.round = 0 := by
  have hpow : 2 ^ (-d.exponent).toNat < 2 ^ ((-d.exponent).toNat + 1) := by
    rw [Nat.pow_succ]
    have := Nat.two_pow_pos (-d.exponent).toNat
    omega
  rw [round, h, Nat.zero_mul, Nat.mul_zero, Nat.zero_add, Nat.div_eq_of_lt hpow]
  simp

end Double

end Foundation
