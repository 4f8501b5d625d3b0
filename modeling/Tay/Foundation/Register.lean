import Mathlib.Data.Nat.Notation
import Mathlib.Logic.Function.Iterate

/-!
# Reflected shift registers

A register of `w` bits that takes its input at the low end: it moves down by one place, and a bit that
falls out adds the polynomial. The step is linear in exclusive or, so that what several inputs do
together is the exclusive or of what each does alone, and bits above the window only move down. Both
facts together give the registers that take several bytes at a time from tables.
-/

namespace Foundation

variable {w : ℕ}

/-- One place down; the bit that falls out adds the polynomial. -/
def shift (p c : BitVec w) : BitVec w := if c.getLsbD 0 then (c >>> 1) ^^^ p else c >>> 1

def shifts (p : BitVec w) (n : ℕ) (c : BitVec w) : BitVec w := (shift p)^[n] c

/-- A byte goes into the low end. -/
def feed (p c : BitVec w) (b : BitVec 8) : BitVec w := shifts p 8 (c ^^^ b.setWidth w)

variable (p : BitVec w)

theorem xor_xor_xor_cancel (a b : BitVec w) : (a ^^^ p) ^^^ (b ^^^ p) = a ^^^ b := by
  rw [BitVec.xor_assoc, ← BitVec.xor_assoc p, BitVec.xor_comm p b, BitVec.xor_assoc b,
    BitVec.xor_self, BitVec.xor_zero]

theorem shift_xor (a b : BitVec w) : shift p (a ^^^ b) = shift p a ^^^ shift p b := by
  simp only [shift, BitVec.getLsbD_xor, BitVec.ushiftRight_xor_distrib]
  cases a.getLsbD 0 <;> cases b.getLsbD 0
  · rfl
  · exact BitVec.xor_assoc _ _ _
  · change (a >>> 1 ^^^ b >>> 1) ^^^ p = (a >>> 1 ^^^ p) ^^^ b >>> 1
    rw [BitVec.xor_assoc, BitVec.xor_comm (b >>> 1), ← BitVec.xor_assoc]
  · exact (xor_xor_xor_cancel p _ _).symm

theorem shifts_xor (n : ℕ) : ∀ a b : BitVec w, shifts p n (a ^^^ b) = shifts p n a ^^^ shifts p n b := by
  induction n with
  | zero =>
    intro a b
    rfl
  | succ n ih =>
    intro a b
    simp only [shifts, Function.iterate_succ_apply] at ih ⊢
    rw [shift_xor, ih]

theorem shifts_add (m n : ℕ) (c : BitVec w) : shifts p (m + n) c = shifts p m (shifts p n c) :=
  Function.iterate_add_apply _ m n c

/-- While the bits that fall out are clear, the register only moves down. -/
theorem shifts_of_low {c : BitVec w} (n : ℕ) (h : ∀ i, i < n → c.getLsbD i = false) :
    shifts p n c = c >>> n := by
  induction n with
  | zero => exact (BitVec.ushiftRight_zero c).symm
  | succ n ih =>
    have hlow : (c >>> n).getLsbD 0 = false := by simpa using h n n.lt_succ_self
    rw [shifts, Function.iterate_succ_apply', ← shifts, ih fun i hi ↦ h i (Nat.lt_succ_of_lt hi),
      shift, hlow, BitVec.shiftRight_add]
    rfl

/-- What stands `n` places up has come down after `n` steps. -/
theorem shifts_shiftLeft {c : BitVec w} (n : ℕ) (h : ∀ i, w ≤ i + n → c.getLsbD i = false) :
    shifts p n (c <<< n) = c := by
  rw [shifts_of_low]
  · apply BitVec.eq_of_getLsbD_eq
    intro i hi
    rw [BitVec.getLsbD_ushiftRight, BitVec.getLsbD_shiftLeft]
    by_cases hn : n + i < w
    · simp [hn]
    · have htop : c.getLsbD i = false := h i (by omega)
      simp [hn, htop]
  · intro i hi
    rw [BitVec.getLsbD_shiftLeft]
    simp [hi]

end Foundation
