import Mathlib.Data.List.Basic

/-!
# Base 64 for URLs

Three bytes are four characters of six bits. What is left over at the end is written without padding, and
read with or without it; the bits that the last character has in excess are not looked at.
-/

namespace Foundation

namespace Base64

def pad : UInt8 := 61

/-- The character of six bits. -/
def digit (n : ℕ) : UInt8 :=
  if n < 26 then UInt8.ofNat (65 + n)
  else if n < 52 then UInt8.ofNat (71 + n)
  else if n < 62 then UInt8.ofNat (n - 4)
  else if n = 62 then 45 else 95

/-- The six bits of a character. -/
def value? (c : UInt8) : Option ℕ :=
  let n := c.toNat
  if 65 ≤ n ∧ n ≤ 90 then some (n - 65)
  else if 97 ≤ n ∧ n ≤ 122 then some (n - 71)
  else if 48 ≤ n ∧ n ≤ 57 then some (n + 4)
  else if n = 45 then some 62
  else if n = 95 then some 63
  else none

def encode : List UInt8 → List UInt8
  | [] => []
  | [a] =>
    let n := a.toNat * 16
    [digit (n / 64), digit (n % 64)]
  | [a, b] =>
    let n := (a.toNat * 256 + b.toNat) * 4
    [digit (n / 4096), digit (n / 64 % 64), digit (n % 64)]
  | a :: b :: c :: rest =>
    let n := (a.toNat * 256 + b.toNat) * 256 + c.toNat
    digit (n / 262144) :: digit (n / 4096 % 64) :: digit (n / 64 % 64) :: digit (n % 64) :: encode rest

/-- One byte from two characters. -/
def decodeTwo (c d : UInt8) : Option (List UInt8) := do
  let n := (← value? c) * 64 + (← value? d)
  return [UInt8.ofNat (n / 16)]

/-- Two bytes from three characters. -/
def decodeThree (c d e : UInt8) : Option (List UInt8) := do
  let n := ((← value? c) * 64 + (← value? d)) * 64 + (← value? e)
  return [UInt8.ofNat (n / 1024), UInt8.ofNat (n / 4 % 256)]

/-- Three bytes from four characters. -/
def decodeFour (c d e f : UInt8) : Option (List UInt8) := do
  let n := (((← value? c) * 64 + (← value? d)) * 64 + (← value? e)) * 64 + (← value? f)
  return [UInt8.ofNat (n / 65536), UInt8.ofNat (n / 256 % 256), UInt8.ofNat (n % 256)]

def decode : List UInt8 → Option (List UInt8)
  | [] => some []
  | [_] => none
  | [c, d] => decodeTwo c d
  | [c, d, e] => decodeThree c d e
  | c :: d :: e :: f :: rest =>
    if f = pad ∧ rest = [] then if e = pad then decodeTwo c d else decodeThree c d e
    else do
      let bytes ← decodeFour c d e f
      return bytes ++ (← decode rest)

theorem value?_digit {n : ℕ} (h : n < 64) : value? (digit n) = some n := by
  have hall : ∀ i : Fin 64, value? (digit i) = some i.val := by decide
  exact hall ⟨n, h⟩

theorem digit_ne_pad {n : ℕ} (h : n < 64) : digit n ≠ pad := by
  have hall : ∀ i : Fin 64, digit i ≠ pad := by decide
  exact hall ⟨n, h⟩

theorem ofNat_eq {a : UInt8} {n : ℕ} (h : n = a.toNat) : UInt8.ofNat n = a := by
  rw [h, UInt8.ofNat_toNat]

/-- **What is written is read back.** -/
theorem decode_encode (bytes : List UInt8) : decode (encode bytes) = some bytes := by
  induction bytes using encode.induct with
  | case1 => rfl
  | case2 a =>
    have ha := a.toNat_lt
    simp only [encode, decode, decodeTwo, value?_digit (show a.toNat * 16 / 64 < 64 by omega),
      value?_digit (show a.toNat * 16 % 64 < 64 by omega), Option.bind_eq_bind, Option.bind_some, Option.pure_def]
    rw [ofNat_eq (show (a.toNat * 16 / 64 * 64 + a.toNat * 16 % 64) / 16 = a.toNat by omega)]
  | case3 a b =>
    have ha := a.toNat_lt
    have hb := b.toNat_lt
    generalize hn : (a.toNat * 256 + b.toNat) * 4 = n
    simp only [encode, hn, decode, decodeThree, value?_digit (show n / 4096 < 64 by omega),
      value?_digit (show n / 64 % 64 < 64 by omega), value?_digit (show n % 64 < 64 by omega),
      Option.bind_eq_bind, Option.bind_some, Option.pure_def]
    rw [ofNat_eq (show ((n / 4096 * 64 + n / 64 % 64) * 64 + n % 64) / 1024 = a.toNat by omega),
      ofNat_eq (show ((n / 4096 * 64 + n / 64 % 64) * 64 + n % 64) / 4 % 256 = b.toNat by omega)]
  | case4 a b c rest ih =>
    have ha := a.toNat_lt
    have hb := b.toNat_lt
    have hc := c.toNat_lt
    generalize hn : (a.toNat * 256 + b.toNat) * 256 + c.toNat = n
    have hback : ((n / 262144 * 64 + n / 4096 % 64) * 64 + n / 64 % 64) * 64 + n % 64 = n := by omega
    have hlast : digit (n % 64) ≠ pad := digit_ne_pad (Nat.mod_lt n (by decide))
    simp only [encode, hn, decode, hlast, false_and, if_false, decodeFour,
      value?_digit (show n / 262144 < 64 by omega), value?_digit (show n / 4096 % 64 < 64 by omega),
      value?_digit (show n / 64 % 64 < 64 by omega), value?_digit (show n % 64 < 64 by omega), ih, hback,
      Option.bind_eq_bind, Option.bind_some, Option.pure_def]
    rw [ofNat_eq (show n / 65536 = a.toNat by omega), ofNat_eq (show n / 256 % 256 = b.toNat by omega),
      ofNat_eq (show n % 256 = c.toNat by omega)]
    rfl

end Base64

end Foundation
