import Mathlib.Algebra.Ring.Nat
import Tay.Event.Reading
import Tay.Foundation.Register

/-!
# The checksum

`Tay.Storage.CRC32C` is CRC-32C, the reflected Castagnoli polynomial, in two implementations. The C
library takes eight bytes a step from eight tables, which it derives from the first, and the rest byte
by byte; `Tay.Storage.CRC32C.Reference` takes every byte from one table, on unbounded integers. Both
are the same shift register: slice `n` of the tables is a byte followed by `n` zero bytes, and the
register is linear, so that the exclusive or of eight entries is eight bytes in a row.
-/

open Foundation

namespace Tay

namespace CRC32C

/-- The reflected Castagnoli polynomial. -/
def polynomial : BitVec 32 := 0x82F63B78#32

def mask : ℕ := 0xFFFFFFFF

/-! ## The C library -/

namespace Native

/-- `crc32c_table`. -/
abbrev Tables := Vector (Vector (BitVec 32) 256) 8

/-- A cell of the tables. -/
def cell (table : Tables) (slice : Fin 8) (i : BitVec 32) : BitVec 32 :=
  (table.get slice)[i.toNat]?.getD 0

/-- `crc32c_update_byte`. -/
def updateByte (table : Tables) (crc : BitVec 32) (byte : UInt8) : BitVec 32 :=
  (crc >>> 8) ^^^ cell table 0 ((crc ^^^ byte.toBitVec.setWidth 32) &&& 0xFF#32)

/-- One bit of the first table. -/
def shiftBit (crc : BitVec 32) : BitVec 32 :=
  if crc &&& 1#32 ≠ 0#32 then (crc >>> 1) ^^^ polynomial else crc >>> 1

/-- The loop over the bytes of one slice. -/
def fill (table : Tables) (slice : Fin 8) (value : Tables → Fin 256 → BitVec 32) : Tables :=
  (List.finRange 256).foldl
    (fun t (byte : Fin 256) ↦ t.set slice.1 ((t.get slice).set byte.1 (value t byte))) table

/-- An entry of the first table: the eight bits of a byte. -/
def firstEntry (_ : Tables) (byte : Fin 256) : BitVec 32 :=
  (List.range 8).foldl (fun crc _ ↦ shiftBit crc) (BitVec.ofNat 32 byte)

/-- An entry of a later table: the entry of the one before, advanced by a zero byte. -/
def nextEntry (slice : Fin 8) (table : Tables) (byte : Fin 256) : BitVec 32 :=
  updateByte table ((table.get (slice - 1)).get byte) 0

/-- `initialize_crc32c_tables`; the memory is zero before. -/
def initializeTables : Tables :=
  [1, 2, 3, 4, 5, 6, 7].foldl (fun t slice ↦ fill t slice (nextEntry slice))
    (fill (Vector.replicate 8 (Vector.replicate 256 0)) 0 firstEntry)

/-- `load_u32_le`. -/
def loadU32 (b₀ b₁ b₂ b₃ : UInt8) : BitVec 32 :=
  b₀.toBitVec.setWidth 32 ||| (b₁.toBitVec.setWidth 32 <<< 8) ||| (b₂.toBitVec.setWidth 32 <<< 16) |||
    (b₃.toBitVec.setWidth 32 <<< 24)

/-- `crc32c_update`: eight bytes a step while there are eight, and then byte by byte. -/
def updateTables (table : Tables) (crc : BitVec 32) : Binary → BitVec 32
  | b₀ :: b₁ :: b₂ :: b₃ :: b₄ :: b₅ :: b₆ :: b₇ :: bytes =>
    let mixed := crc ^^^ loadU32 b₀ b₁ b₂ b₃
    updateTables table
      (cell table 7 (mixed &&& 0xFF#32) ^^^ cell table 6 ((mixed >>> 8) &&& 0xFF#32) ^^^
        cell table 5 ((mixed >>> 16) &&& 0xFF#32) ^^^ cell table 4 (mixed >>> 24) ^^^
        cell table 3 (b₄.toBitVec.setWidth 32) ^^^ cell table 2 (b₅.toBitVec.setWidth 32) ^^^
        cell table 1 (b₆.toBitVec.setWidth 32) ^^^ cell table 0 (b₇.toBitVec.setWidth 32)) bytes
  | bytes => bytes.foldl (updateByte table) crc

/-- `update`, with the tables that were made when the library was loaded. -/
def update (register : BitVec 32) (bytes : Binary) : BitVec 32 :=
  updateTables initializeTables register bytes

/-- `record_checksums_result`. -/
def recordChecksums (header payload : Binary) : ℕ × ℕ :=
  let headerState := update 0xFFFFFFFF#32 header
  let recordState := update headerState payload
  ((headerState ^^^ 0xFFFFFFFF#32).toNat, (recordState ^^^ 0xFFFFFFFF#32).toNat)

end Native

/-- `initial`. -/
def initial : ℕ := mask

/-- `update`; a register out of range matches no clause. -/
def update (register : ℕ) (bytes : Binary) : Option ℕ :=
  if register ≤ mask then some (Native.update (BitVec.ofNat 32 register) bytes).toNat else none

/-- `finalize`. -/
def finalize (register : ℕ) : Option ℕ := if register ≤ mask then some (register ^^^ mask) else none

/-- `checksum`. -/
def checksum (bytes : Binary) : Option ℕ := (update initial bytes).bind finalize

/-- `record_checksums`. -/
def recordChecksums (header payload : Binary) : ℕ × ℕ := Native.recordChecksums header payload

/-! ## The reference -/

namespace Reference

/-- One bit of the table. -/
def shiftBit (register : ℕ) : ℕ :=
  if register &&& 1 = 1 then (register >>> 1) ^^^ 0x82F63B78 else register >>> 1

/-- `@table`. -/
def table : List ℕ :=
  (List.range 256).map fun byte ↦ (List.range 8).foldl (fun register _ ↦ shiftBit register) byte

/-- `step`. -/
def step (register : ℕ) (byte : UInt8) : ℕ :=
  (register >>> 8) ^^^ table.getD ((register ^^^ byte.toNat) &&& 0xFF) 0

/-- `update_bytes`. -/
def updateBytes (register : ℕ) : Binary → ℕ
  | a :: b :: c :: d :: e :: f :: g :: h :: rest =>
    updateBytes (step (step (step (step (step (step (step (step register a) b) c) d) e) f) g) h) rest
  | byte :: rest => updateBytes (step register byte) rest
  | [] => register

/-- `update`. -/
def update (register : ℕ) (bytes : Binary) : Option ℕ :=
  if register ≤ mask then some (updateBytes register bytes) else none

/-- `checksum`. -/
def checksum (bytes : Binary) : Option ℕ := (update initial bytes).bind finalize

end Reference

/-! ## The tables -/

namespace Native

theorem shiftBit_eq (crc : BitVec 32) : shiftBit crc = shift polynomial crc := by
  have hlow : crc &&& 1#32 ≠ 0#32 ↔ crc.getLsbD 0 = true := by
    rw [BitVec.and_one_eq_setWidth_ofBool_getLsbD]
    cases crc.getLsbD 0 <;> decide
  simp only [shiftBit, shift, hlow]

theorem foldl_shiftBit (n : ℕ) (crc : BitVec 32) :
    (List.range n).foldl (fun c _ ↦ shiftBit c) crc = shifts polynomial n crc := by
  induction n with
  | zero => rfl
  | succ n ih =>
    rw [List.range_succ, List.foldl_append, ih, shifts, shifts, Function.iterate_succ_apply']
    exact shiftBit_eq _

/-- Writing a row cell by cell. -/
theorem foldl_set {slice : Fin 8} {value : Tables → Fin 256 → BitVec 32} {table : Tables}
    {entry : Fin 256 → BitVec 32}
    (hvalue : ∀ t : Tables, (∀ s, s ≠ slice → t.get s = table.get s) → value t = entry)
    (l : List (Fin 256)) : ∀ t : Tables, (∀ s, s ≠ slice → t.get s = table.get s) →
      let done := l.foldl
        (fun t (byte : Fin 256) ↦
          t.set slice.1 ((t.get slice).set byte.1 (value t byte) byte.2) slice.2) t
      (∀ s, s ≠ slice → done.get s = table.get s) ∧
        ∀ b, (b ∈ l → (done.get slice).get b = entry b) ∧ (b ∉ l → (done.get slice).get b = (t.get slice).get b) := by
  induction l with
  | nil =>
    intro t ht
    exact ⟨ht, fun b ↦ ⟨fun hb ↦ absurd hb List.not_mem_nil, fun _ ↦ rfl⟩⟩
  | cons byte l ih =>
    intro t ht
    have hothers : ∀ s, s ≠ slice →
        (t.set slice.1 ((t.get slice).set byte.1 (value t byte) byte.2) slice.2).get s = table.get s := by
      intro s hs
      have hne : slice.1 ≠ s.1 := fun heq ↦ hs (Fin.ext heq.symm)
      rw [← ht s hs]
      exact Vector.getElem_set_ne slice.2 s.2 hne
    have hrow : (t.set slice.1 ((t.get slice).set byte.1 (value t byte) byte.2) slice.2).get slice =
        (t.get slice).set byte.1 (value t byte) byte.2 := Vector.getElem_set_self slice.2
    obtain ⟨hrest, hdone⟩ := ih _ hothers
    refine ⟨hrest, fun b ↦ ?_⟩
    obtain ⟨hin, hout⟩ := hdone b
    rw [hrow] at hout
    rw [List.foldl_cons]
    by_cases hb : byte = b
    · subst hb
      have hself : ((t.get slice).set byte.1 (value t byte) byte.2).get byte = entry byte := by
        rw [hvalue t ht]
        exact Vector.getElem_set_self byte.2
      refine ⟨fun _ ↦ ?_, fun hnot ↦ absurd List.mem_cons_self hnot⟩
      by_cases hlater : byte ∈ l
      · exact hin hlater
      · exact (hout hlater).trans hself
    · have hne : byte.1 ≠ b.1 := fun heq ↦ hb (Fin.ext heq)
      have hkept : ((t.get slice).set byte.1 (value t byte) byte.2).get b = (t.get slice).get b :=
        Vector.getElem_set_ne byte.2 b.2 hne
      have hmem : b ∈ byte :: l ↔ b ∈ l := by
        rw [List.mem_cons]
        exact ⟨fun h ↦ h.resolve_left fun heq ↦ hb heq.symm, .inr⟩
      rw [hmem]
      exact ⟨hin, fun hnot ↦ (hout hnot).trans hkept⟩

/-- A row whose values do not depend on the row itself. -/
theorem fill_get {slice : Fin 8} {value : Tables → Fin 256 → BitVec 32} {table : Tables}
    {entry : Fin 256 → BitVec 32}
    (hvalue : ∀ t : Tables, (∀ s, s ≠ slice → t.get s = table.get s) → value t = entry) :
    (∀ s, s ≠ slice → (fill table slice value).get s = table.get s) ∧
      ∀ b, ((fill table slice value).get slice).get b = entry b := by
  obtain ⟨hothers, hrow⟩ := foldl_set hvalue (List.finRange 256) table fun s _ ↦ rfl
  refine ⟨hothers, fun b ↦ ?_⟩
  exact (hrow b).1 (List.mem_finRange b)

/-- The slices up to one of them: a byte followed by as many zero bytes as the slice says. -/
def Filled (table : Tables) (last : Fin 8) : Prop :=
  ∀ slice, slice ≤ last → ∀ byte : Fin 256,
    (table.get slice).get byte = shifts polynomial (8 * (slice.1 + 1)) (BitVec.ofNat 32 byte)

variable {table : Tables} {last : Fin 8}

theorem Filled.cell (h : Filled table last) {slice : Fin 8} (hs : slice ≤ last) {i : BitVec 32}
    (hi : i.toNat < 256) : cell table slice i = shifts polynomial (8 * (slice.1 + 1)) i := by
  have hget : (table.get slice)[i.toNat]? = some ((table.get slice).get ⟨i.toNat, hi⟩) :=
    Vector.getElem?_eq_getElem hi
  rw [Native.cell, hget, Option.getD_some, h slice hs, BitVec.ofNat_toNat, BitVec.setWidth_eq]

theorem and_mask_lt (x : BitVec 32) : (x &&& 0xFF#32).toNat < 256 := by
  rw [BitVec.toNat_and]
  exact Nat.lt_succ_of_le Nat.and_le_right

/-- The low byte and the rest of a register. -/
theorem split_low (x : BitVec 32) : x = (x &&& 0xFF#32) ^^^ (x &&& ~~~0xFF#32) := by
  apply BitVec.eq_of_getLsbD_eq
  intro i hi
  simp only [BitVec.getLsbD_xor, BitVec.getLsbD_and, BitVec.getLsbD_not, hi, decide_true,
    Bool.true_and]
  cases x.getLsbD i <;> cases (0xFF#32).getLsbD i <;> rfl

theorem getLsbD_mask (i : ℕ) : (0xFF#32).getLsbD i = decide (i < 8) := by
  rw [BitVec.getLsbD_ofNat, show (255 : ℕ) = 2 ^ 8 - 1 from rfl, Nat.testBit_two_pow_sub_one]
  by_cases hi : i < 8
  · simp [hi, show i < 32 by omega]
  · simp [hi]

theorem shifts_high (x : BitVec 32) : shifts polynomial 8 (x &&& ~~~0xFF#32) = x >>> 8 := by
  rw [shifts_of_low]
  · apply BitVec.eq_of_getLsbD_eq
    intro i hi
    rw [BitVec.getLsbD_ushiftRight, BitVec.getLsbD_ushiftRight, BitVec.getLsbD_and,
      BitVec.getLsbD_not, getLsbD_mask]
    by_cases h : 8 + i < 32
    · simp [h]
    · simp [BitVec.getLsbD_of_ge x (8 + i) (by omega)]
  · intro i hi
    rw [BitVec.getLsbD_and, BitVec.getLsbD_not, getLsbD_mask]
    simp [hi]

theorem byte_shift (byte : UInt8) : (byte.toBitVec.setWidth 32) >>> 8 = 0#32 := by
  apply BitVec.eq_of_getLsbD_eq
  intro i hi
  rw [BitVec.getLsbD_ushiftRight, BitVec.getLsbD_setWidth,
    BitVec.getLsbD_of_ge byte.toBitVec (8 + i) (by omega)]
  simp

/-- `crc32c_update_byte` is one byte into the register. -/
theorem Filled.updateByte (h : Filled table last) (crc : BitVec 32) (byte : UInt8) :
    updateByte table crc byte = feed polynomial crc byte.toBitVec := by
  rw [Native.updateByte, h.cell (Fin.zero_le last) (and_mask_lt _)]
  calc crc >>> 8 ^^^ shifts polynomial 8 ((crc ^^^ byte.toBitVec.setWidth 32) &&& 0xFF#32)
      = shifts polynomial 8 ((crc ^^^ byte.toBitVec.setWidth 32) &&& 0xFF#32) ^^^
          (crc ^^^ byte.toBitVec.setWidth 32) >>> 8 := by
        rw [BitVec.ushiftRight_xor_distrib, byte_shift, BitVec.xor_zero, BitVec.xor_comm]
    _ = feed polynomial crc byte.toBitVec := by
        rw [← shifts_high, ← shifts_xor, ← split_low, feed]

theorem filled_first (table : Tables) : Filled (fill table 0 firstEntry) 0 := by
  intro slice hslice byte
  have hzero : slice = 0 := Fin.le_zero_iff.mp hslice
  subst hzero
  have hvalue : ∀ t : Tables, (∀ s, s ≠ 0 → t.get s = table.get s) → firstEntry t = firstEntry table :=
    fun _ _ ↦ rfl
  rw [(fill_get hvalue).2 byte, firstEntry, foldl_shiftBit]
  rfl

theorem shifts_eight_eq_feed (c : BitVec 32) : shifts polynomial 8 c = feed polynomial c 0#8 := by
  rw [feed, BitVec.setWidth_zero, BitVec.xor_zero]

/-- The next slice. -/
theorem Filled.next (h : Filled table last) (slice : Fin 8) (hslice : slice.1 = last.1 + 1) :
    Filled (fill table slice (nextEntry slice)) slice := by
  have hprevious : slice - 1 = last := by
    apply Fin.ext
    have := last.2
    omega
  have hne : ∀ s, s ≤ last → s ≠ slice := by
    rintro s hs rfl
    have : s.1 ≤ last.1 := hs
    omega
  have hvalue : ∀ t : Tables, (∀ s, s ≠ slice → t.get s = table.get s) →
      nextEntry slice t = fun byte ↦ feed polynomial ((table.get last).get byte) 0#8 := by
    intro t ht
    have hfilled : Filled t last := fun s hs byte ↦ by rw [ht s (hne s hs), h s hs byte]
    funext byte
    rw [nextEntry, hfilled.updateByte, hprevious, ht last (hne last (Nat.le_refl _))]
    rfl
  obtain ⟨hothers, hrow⟩ := fill_get hvalue
  intro s hs byte
  by_cases heq : s = slice
  · subst heq
    rw [hrow byte, ← shifts_eight_eq_feed, h last (Nat.le_refl _), ← shifts_add, hslice]
    congr 1
    omega
  · have hlast : s ≤ last := by
      have hle : s.1 ≤ slice.1 := hs
      have hval : s.1 ≠ slice.1 := fun hval ↦ heq (Fin.ext hval)
      show s.1 ≤ last.1
      omega
    rw [hothers s heq, h s hlast byte]

theorem filled_initializeTables : Filled initializeTables 7 := by
  have h₀ := filled_first (Vector.replicate 8 (Vector.replicate 256 0))
  have h₁ := h₀.next 1 rfl
  have h₂ := h₁.next 2 rfl
  have h₃ := h₂.next 3 rfl
  have h₄ := h₃.next 4 rfl
  have h₅ := h₄.next 5 rfl
  have h₆ := h₅.next 6 rfl
  have h₇ := h₆.next 7 rfl
  simpa only [initializeTables, List.foldl_cons, List.foldl_nil] using h₇

/-! ## Eight bytes at once -/

/-- A byte that stands some places up comes down first. -/
theorem shifts_place {m : BitVec 32} (hm : m.toNat < 256) {n k l : ℕ} (hl : n + k = l) (hk : k ≤ 24) :
    shifts polynomial l (m <<< k) = shifts polynomial n m := by
  rw [← hl, shifts_add, shifts_shiftLeft]
  intro i hi
  have hpow : 2 ^ 8 ≤ 2 ^ i := Nat.pow_le_pow_right Nat.two_pos (show 8 ≤ i by omega)
  exact Nat.testBit_lt_two_pow (Nat.lt_of_lt_of_le hm hpow)

theorem byte_lt (byte : UInt8) : (byte.toBitVec.setWidth 32).toNat < 256 := by
  rw [BitVec.toNat_setWidth]
  exact Nat.lt_of_le_of_lt (Nat.mod_le _ _) byte.toBitVec.isLt

theorem shiftRight_lt (x : BitVec 32) : (x >>> 24).toNat < 256 := by
  rw [BitVec.toNat_ushiftRight, Nat.shiftRight_eq_div_pow]
  have := x.isLt
  omega

/-- The four bytes of a register. -/
theorem split_bytes (x : BitVec 32) :
    x = (x &&& 0xFF#32) ^^^ (((x >>> 8) &&& 0xFF#32) <<< 8) ^^^ (((x >>> 16) &&& 0xFF#32) <<< 16) ^^^
      ((x >>> 24) <<< 24) := by
  apply BitVec.eq_of_getLsbD_eq
  intro i hi
  simp only [BitVec.getLsbD_xor, BitVec.getLsbD_shiftLeft, BitVec.getLsbD_and,
    BitVec.getLsbD_ushiftRight, getLsbD_mask, hi, decide_true, Bool.true_and]
  have hcases : i < 8 ∨ (8 ≤ i ∧ i < 16) ∨ (16 ≤ i ∧ i < 24) ∨ 24 ≤ i := by omega
  obtain h | ⟨hl, hu⟩ | ⟨hl, hu⟩ | h := hcases
  · simp [h, show i < 16 by omega, show i < 24 by omega]
  · simp [show ¬i < 8 by omega, hu, show i < 24 by omega, show 8 + (i - 8) = i by omega,
      show i - 8 < 8 by omega]
  · simp [show ¬i < 8 by omega, show ¬i < 16 by omega, hu, show 16 + (i - 16) = i by omega,
      show i - 16 < 8 by omega, show ¬i - 8 < 8 by omega]
  · simp [show ¬i < 8 by omega, show ¬i < 16 by omega, show ¬i < 24 by omega,
      show 24 + (i - 24) = i by omega, show ¬i - 16 < 8 by omega, show ¬i - 8 < 8 by omega]

theorem shifts_split (x : BitVec 32) :
    shifts polynomial 64 x = shifts polynomial 64 (x &&& 0xFF#32) ^^^
      shifts polynomial 56 ((x >>> 8) &&& 0xFF#32) ^^^
      shifts polynomial 48 ((x >>> 16) &&& 0xFF#32) ^^^ shifts polynomial 40 (x >>> 24) := by
  conv_lhs => rw [split_bytes x]
  rw [shifts_xor, shifts_xor, shifts_xor, shifts_place (and_mask_lt _) (show 56 + 8 = 64 from rfl) (by decide),
    shifts_place (and_mask_lt _) (show 48 + 16 = 64 from rfl) (by decide), shifts_place (shiftRight_lt _) (show 40 + 24 = 64 from rfl) (by decide)]

theorem loadU32_eq (b₀ b₁ b₂ b₃ : UInt8) :
    loadU32 b₀ b₁ b₂ b₃ = b₀.toBitVec.setWidth 32 ^^^ (b₁.toBitVec.setWidth 32 <<< 8) ^^^
      (b₂.toBitVec.setWidth 32 <<< 16) ^^^ (b₃.toBitVec.setWidth 32 <<< 24) := by
  apply BitVec.eq_of_getLsbD_eq
  intro i hi
  simp only [loadU32, BitVec.getLsbD_or, BitVec.getLsbD_xor, BitVec.getLsbD_shiftLeft,
    BitVec.getLsbD_setWidth, hi, decide_true, Bool.true_and]
  have hclear (b : UInt8) {j : ℕ} (hj : 8 ≤ j) : b.toBitVec.getLsbD j = false :=
    BitVec.getLsbD_of_ge b.toBitVec j hj
  have hcases : i < 8 ∨ (8 ≤ i ∧ i < 16) ∨ (16 ≤ i ∧ i < 24) ∨ 24 ≤ i := by omega
  obtain h | ⟨hl, hu⟩ | ⟨hl, hu⟩ | h := hcases
  · simp [h, show i < 16 by omega, show i < 24 by omega]
  · simp [hclear b₀ hl, hu, show i < 24 by omega]
  · simp [hclear b₀ (show 8 ≤ i by omega), hclear b₁ (show 8 ≤ i - 8 by omega), hu]
  · simp [hclear b₀ (show 8 ≤ i by omega), hclear b₁ (show 8 ≤ i - 8 by omega),
      hclear b₂ (show 8 ≤ i - 16 by omega)]

theorem shifts_loadU32 (b₀ b₁ b₂ b₃ : UInt8) :
    shifts polynomial 64 (loadU32 b₀ b₁ b₂ b₃) = shifts polynomial 64 (b₀.toBitVec.setWidth 32) ^^^
      shifts polynomial 56 (b₁.toBitVec.setWidth 32) ^^^
      shifts polynomial 48 (b₂.toBitVec.setWidth 32) ^^^
      shifts polynomial 40 (b₃.toBitVec.setWidth 32) := by
  rw [loadU32_eq, shifts_xor, shifts_xor, shifts_xor, shifts_place (byte_lt _) (show 56 + 8 = 64 from rfl) (by decide),
    shifts_place (byte_lt _) (show 48 + 16 = 64 from rfl) (by decide), shifts_place (byte_lt _) (show 40 + 24 = 64 from rfl) (by decide)]

/-- The bytes of a string, one after the other. -/
def feeds (crc : BitVec 32) (bytes : Binary) : BitVec 32 :=
  bytes.foldl (fun c b ↦ feed polynomial c b.toBitVec) crc

/-- Eight bytes in a row are eight entries. -/
theorem feeds_eight (crc : BitVec 32) (b₀ b₁ b₂ b₃ b₄ b₅ b₆ b₇ : UInt8) :
    feeds crc [b₀, b₁, b₂, b₃, b₄, b₅, b₆, b₇] =
      shifts polynomial 64 (crc ^^^ loadU32 b₀ b₁ b₂ b₃) ^^^
        shifts polynomial 32 (b₄.toBitVec.setWidth 32) ^^^
        shifts polynomial 24 (b₅.toBitVec.setWidth 32) ^^^
        shifts polynomial 16 (b₆.toBitVec.setWidth 32) ^^^
        shifts polynomial 8 (b₇.toBitVec.setWidth 32) := by
  rw [shifts_xor, shifts_loadU32]
  simp only [feeds, List.foldl_cons, List.foldl_nil, feed, shifts_xor, ← shifts_add, Nat.reduceAdd]
  ac_rfl

/-- **The loop** reads its bytes one after the other. -/
theorem Filled.updateTables (h : Filled table 7) (crc : BitVec 32) (bytes : Binary) :
    updateTables table crc bytes = feeds crc bytes := by
  fun_induction Native.updateTables table crc bytes with
  | case1 crc b₀ b₁ b₂ b₃ b₄ b₅ b₆ b₇ bytes mixed ih =>
    have hle (s : Fin 8) : s ≤ 7 := Nat.le_of_lt_succ s.2
    have height := feeds_eight crc b₀ b₁ b₂ b₃ b₄ b₅ b₆ b₇
    rw [shifts_split] at height
    rw [ih, h.cell (hle 7) (and_mask_lt _), h.cell (hle 6) (and_mask_lt _),
      h.cell (hle 5) (and_mask_lt _), h.cell (hle 4) (shiftRight_lt _), h.cell (hle 3) (byte_lt _),
      h.cell (hle 2) (byte_lt _), h.cell (hle 1) (byte_lt _), h.cell (hle 0) (byte_lt _)]
    refine (congrArg (feeds · bytes) height).symm.trans ?_
    rfl
  | case2 crc bytes =>
    rw [feeds]
    congr 1
    funext c b
    exact h.updateByte c b

theorem update_eq (register : BitVec 32) (bytes : Binary) :
    update register bytes = feeds register bytes := filled_initializeTables.updateTables register bytes

end Native

/-! ## The reference is the same register -/

namespace Reference

theorem shiftBit_eq (c : BitVec 32) : shiftBit c.toNat = (shift polynomial c).toNat := by
  have hlow : c.toNat &&& 1 = 1 ↔ c.getLsbD 0 = true := by
    rw [Nat.and_one_is_mod, BitVec.getLsbD, Nat.testBit_zero, decide_eq_true_iff]
  rw [shiftBit, shift]
  by_cases hc : c.getLsbD 0 = true
  · rw [if_pos (hlow.mpr hc), if_pos hc, BitVec.toNat_xor, BitVec.toNat_ushiftRight]
    rfl
  · rw [if_neg fun h ↦ hc (hlow.mp h), if_neg hc, BitVec.toNat_ushiftRight]

theorem foldl_shiftBit (n : ℕ) (c : BitVec 32) :
    (List.range n).foldl (fun r _ ↦ shiftBit r) c.toNat = (shifts polynomial n c).toNat := by
  induction n with
  | zero => rfl
  | succ n ih =>
    rw [List.range_succ, List.foldl_append, ih, shifts, shifts, Function.iterate_succ_apply']
    exact shiftBit_eq _

theorem table_getD {x : BitVec 32} (hx : x.toNat < 256) :
    table.getD x.toNat 0 = (shifts polynomial 8 x).toNat := by
  have hget : table[x.toNat]? = some ((shifts polynomial 8 x).toNat) := by
    rw [table, List.getElem?_map, List.getElem?_range hx, Option.map_some, foldl_shiftBit]
  rw [List.getD_eq_getElem?_getD, hget, Option.getD_some]

theorem step_eq (c : BitVec 32) (byte : UInt8) :
    step c.toNat byte = (feed polynomial c byte.toBitVec).toNat := by
  have hindex : (c.toNat ^^^ byte.toNat) &&& 0xFF =
      ((c ^^^ byte.toBitVec.setWidth 32) &&& 0xFF#32).toNat := by
    have hbyte : (byte.toBitVec.setWidth 32).toNat = byte.toNat :=
      BitVec.toNat_setWidth_of_le (by decide)
    rw [BitVec.toNat_and, BitVec.toNat_xor, hbyte]
    rfl
  rw [step, hindex, table_getD (Native.and_mask_lt _), ← BitVec.toNat_ushiftRight, ← BitVec.toNat_xor,
    ← Native.filled_initializeTables.updateByte, Native.updateByte,
    Native.filled_initializeTables.cell (Fin.zero_le 7) (Native.and_mask_lt _)]
  rfl

theorem updateBytes_eq (register : ℕ) (bytes : Binary) :
    updateBytes register bytes = bytes.foldl step register := by
  fun_induction updateBytes register bytes with
  | case1 register a b c d e f g h rest ih => rw [ih]; rfl
  | case2 register byte rest hshort ih => rw [ih]; rfl
  | case3 register => rfl

theorem foldl_step (bytes : Binary) :
    ∀ c : BitVec 32, bytes.foldl step c.toNat = (Native.feeds c bytes).toNat := by
  induction bytes with
  | nil =>
    intro c
    rfl
  | cons byte bytes ih =>
    intro c
    rw [List.foldl_cons, step_eq, ih]
    rfl

theorem updateBytes_toNat (c : BitVec 32) (bytes : Binary) :
    updateBytes c.toNat bytes = (Native.update c bytes).toNat := by
  rw [updateBytes_eq, foldl_step, Native.update_eq]

end Reference

/-! ## Agreement -/

theorem Native.update_append (register : BitVec 32) (first rest : Binary) :
    Native.update register (first ++ rest) = Native.update (Native.update register first) rest := by
  rw [Native.update_eq, Native.update_eq, Native.update_eq]
  exact List.foldl_append

theorem toNat_le_mask (c : BitVec 32) : c.toNat ≤ mask := Nat.le_of_lt_succ c.isLt

theorem update_toNat (c : BitVec 32) (bytes : Binary) :
    update c.toNat bytes = some (Native.update c bytes).toNat := by
  rw [update, if_pos (toNat_le_mask c), BitVec.ofNat_toNat, BitVec.setWidth_eq]

theorem update_eq_reference (register : ℕ) (bytes : Binary) :
    update register bytes = Reference.update register bytes := by
  rw [update, Reference.update]
  split
  case isFalse => rfl
  case isTrue h =>
    have hregister : (BitVec.ofNat 32 register).toNat = register := by
      rw [BitVec.toNat_ofNat]
      exact Nat.mod_eq_of_lt (Nat.lt_succ_of_le h)
    rw [← Reference.updateBytes_toNat, hregister]

/-- A checksum that is taken part by part: the register of a file that grows. -/
def running (step : ℕ → Binary → Option ℕ) (register : ℕ) (parts : List Binary) : Option ℕ :=
  parts.foldlM step register

theorem running_toNat (parts : List Binary) :
    ∀ c : BitVec 32, running update c.toNat parts = update c.toNat parts.flatten := by
  induction parts with
  | nil =>
    intro c
    rw [update_toNat]
    exact congrArg (fun d : BitVec 32 ↦ some d.toNat) (Native.update_eq c []).symm
  | cons part parts ih =>
    intro c
    have hfirst : running update c.toNat (part :: parts) =
        (update c.toNat part).bind fun r ↦ running update r parts := rfl
    rw [hfirst, update_toNat, Option.bind_some, ih, List.flatten_cons, update_toNat, update_toNat,
      Native.update_append]

theorem running_update (register : ℕ) (hregister : register ≤ mask) (parts : List Binary) :
    running update register parts = update register parts.flatten := by
  have hlt : register < 2 ^ 32 := Nat.lt_succ_of_le hregister
  have hback := running_toNat parts (BitVec.ofNatLT register hlt)
  rwa [BitVec.toNat_ofNatLT] at hback

theorem checksum_eq_reference (bytes : Binary) : checksum bytes = Reference.checksum bytes := by
  rw [checksum, Reference.checksum, update_eq_reference]

theorem checksum_eq (bytes : Binary) :
    checksum bytes = some (Native.update 0xFFFFFFFF#32 bytes ^^^ 0xFFFFFFFF#32).toNat := by
  have hinitial : initial = (0xFFFFFFFF#32).toNat := rfl
  rw [checksum, hinitial, update_toNat, Option.bind_some, finalize, if_pos (toNat_le_mask _),
    BitVec.toNat_xor]
  rfl

/-- `record_checksums` is the checksum of the header and of the header with its payload. -/
theorem recordChecksums_eq (header payload : Binary) :
    some (recordChecksums header payload).1 = checksum header ∧
      some (recordChecksums header payload).2 = checksum (header ++ payload) := by
  rw [checksum_eq, checksum_eq, Native.update_append]
  exact ⟨rfl, rfl⟩

/-- A register out of range is refused with the first part. -/
theorem running_cons (register : ℕ) (part : Binary) (parts : List Binary) :
    running update register (part :: parts) = update register (part ++ parts.flatten) := by
  by_cases hregister : register ≤ mask
  · exact running_update register hregister (part :: parts)
  · have hnone (bytes : Binary) : update register bytes = none := if_neg hregister
    rw [hnone]
    show (update register part).bind _ = none
    rw [hnone, Option.bind_none]

theorem update_append (register : ℕ) (first rest : Binary) :
    update register (first ++ rest) = (update register first).bind fun r ↦ update r rest := by
  have htwo := running_cons register first [rest]
  rw [List.flatten_cons, List.flatten_nil, List.append_nil] at htwo
  rw [← htwo]
  show (update register first).bind _ = _
  congr 1
  funext r
  show (update r rest).bind some = _
  exact Option.bind_fun_some _

/-! ## Bytes with their checksum -/

/-- `checked`: bytes followed by their checksum. -/
def checked (body : Binary) : Binary := body ++ Value.bigEndian 4 ((checksum body).getD 0)

theorem ofBigEndian_checksum (body : Binary) :
    checksum body = some (Value.ofBigEndian (Value.bigEndian 4 ((checksum body).getD 0))) := by
  rw [checksum_eq, Option.getD_some, Value.ofBigEndian_bigEndian, Nat.mod_eq_of_lt]
  rw [Value.pow_four]
  exact BitVec.isLt _

theorem length_checked (body : Binary) : (checked body).length = body.length + 4 := by
  rw [checked, List.length_append, Value.bigEndian_length]

/-- **The two implementations agree**, on every register and every string, and each of them takes a
string part by part, however it is cut: a record's two checksums and the running checksum of a file are
the same with either. -/
theorem implementations_agree :
    (∀ (register : BitVec 32) (bytes : Binary),
      (Native.update register bytes).toNat = Reference.updateBytes register.toNat bytes) ∧
    (∀ (register : ℕ) (bytes : Binary), update register bytes = Reference.update register bytes) ∧
    (∀ (register : ℕ) (first rest : Binary),
      update register (first ++ rest) = (update register first).bind (fun r ↦ update r rest) ∧
      Reference.update register (first ++ rest) =
        (Reference.update register first).bind fun r ↦ Reference.update r rest) ∧
    (∀ (register : ℕ) (part : Binary) (parts : List Binary),
      running update register (part :: parts) = Reference.update register (part ++ parts.flatten) ∧
      running Reference.update register (part :: parts) =
        update register (part ++ parts.flatten)) ∧
    (∀ bytes : Binary, checksum bytes = Reference.checksum bytes) ∧
    ∀ header payload : Binary,
      some (recordChecksums header payload).1 = Reference.checksum header ∧
      some (recordChecksums header payload).2 = Reference.checksum (header ++ payload) := by
  have hsame : update = Reference.update := funext₂ update_eq_reference
  refine ⟨fun register bytes ↦ (Reference.updateBytes_toNat register bytes).symm,
    update_eq_reference, fun register first rest ↦ ?_, fun register part parts ↦ ?_,
    checksum_eq_reference, fun header payload ↦ ?_⟩
  · rw [← hsame]
    exact ⟨update_append register first rest, update_append register first rest⟩
  · rw [← hsame]
    exact ⟨running_cons register part parts, running_cons register part parts⟩
  · rw [← checksum_eq_reference, ← checksum_eq_reference]
    exact recordChecksums_eq header payload

end CRC32C

end Tay
