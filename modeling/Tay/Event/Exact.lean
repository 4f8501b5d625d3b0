import Tay.Event.Reading

/-!
# What a measurement says

Admission measures a value without writing it, and recovery reads what was written. Both go by the cost of
the value, so that they agree under all limits: what is measured is what an encoding takes, and an encoding is
read back under some limits exactly if its value can be measured under them. The reader refuses a count
that its remaining bytes or nodes do not cover before it reads the items; no encoding within the limits is
refused by that.
-/

open Foundation

namespace Tay.Value

theorem measure_encodedBytes {value : Value} {limits : Limits} {max : ℕ} {m : Measure}
    (h : value.measure limits max = .ok m) : m.encodedBytes = value.wire.length := by
  obtain ⟨-, h⟩ := check_bind_eq_ok.mp h
  have hmeasured := measureValue_measured (by constructor <;> simp [Cost.empty]) h
  rw [length_wire hmeasured.writable, hmeasured.charged.bytes, Nat.zero_add]

/-- Whatever limits it is written under, an encoding is read as the value it was made of. -/
theorem eq_of_decode_encode {value result : Value} {limits limits' : Limits} {max : ℕ} {input : Binary}
    (ho : value.ordered = true) (h : encode value limits max = .ok input)
    (hdecode : decode input limits' = .ok result) : result = value := by
  obtain ⟨ho', hother⟩ := decode_eq_ok.mp hdecode
  obtain ⟨⟨hlimits, hmax, hw, h1, h2, h3, h4⟩, rfl⟩ := encode_eq_ok.mp h
  obtain ⟨⟨hlimits', -, hw', h1', h2', h3', h4'⟩, hwire⟩ := encode_eq_ok.mp hother
  -- Both values are within the sums of the limits.
  let both : Limits := ⟨limits.depth + limits'.depth, limits.outputNodes + limits'.outputNodes,
    limits.binaryBytes + limits'.binaryBytes⟩
  have hboth : limits? both = true := by
    simp only [limits?, Bool.and_eq_true, decide_eq_true_eq] at hlimits ⊢
    dsimp only [both]
    omega
  have hvalue : decode (wire value) both = .ok value := decode_eq_ok.mpr ⟨ho, encode_eq_ok.mpr
    ⟨⟨hboth, le_rfl, hw, Nat.le_add_right_of_le h1, Nat.le_add_right_of_le h2, Nat.le_add_right_of_le h3,
      h4.trans hmax⟩, rfl⟩⟩
  have hsame : decode (wire value) both = .ok result := decode_eq_ok.mpr ⟨ho', encode_eq_ok.mpr
    ⟨⟨hboth, le_rfl, hw', Nat.le_add_left_of_le h1', Nat.le_add_left_of_le h2', Nat.le_add_left_of_le h3', h4'⟩,
      hwire⟩⟩
  rw [hvalue] at hsame
  exact (Except.ok.inj hsame).symm

/-- What a measurement of a term under some limits says of its encoding. -/
structure Exact (term : Term) (limits : Limits) (max : ℕ) : Prop where
  /-- It succeeds exactly if `encode` does. -/
  encodes : (∃ m, measure term.value limits max = .ok m) ↔ ∃ input, encode term.value limits max = .ok input
  /-- It reports the size of the encoding. -/
  size : ∀ m input, measure term.value limits max = .ok m → encode term.value limits max = .ok input →
    m.encodedBytes = input.length
  /-- Under other limits, the encoding is read exactly if the term can be measured. -/
  decodes : ∀ input, encode term.value limits max = .ok input → ∀ other,
    (∃ value, decode input other = .ok value) ↔ ∃ m, measure term.value other maxBytes = .ok m
  /-- And it is read as the term. -/
  reads : ∀ input, encode term.value limits max = .ok input → ∀ other value,
    decode input other = .ok value → value = term.value

/-- **Measurements are exact.** -/
theorem measure_exact (term : Term) (limits : Limits) (max : ℕ) : Exact term limits max := by
  have hencodes : ∀ (limits : Limits) (max : ℕ), (∃ m, measure term.value limits max = .ok m) ↔
      ∃ input, encode term.value limits max = .ok input := by
    intro limits max
    constructor
    · rintro ⟨m, hm⟩
      exact ⟨wire term.value, bind_eq_ok.mpr ⟨m, hm, rfl⟩⟩
    · rintro ⟨input, h⟩
      obtain ⟨m, hm, -⟩ := bind_eq_ok.mp h
      exact ⟨m, hm⟩
  have hreads : ∀ input, encode term.value limits max = .ok input → ∀ other value,
      decode input other = .ok value → value = term.value :=
    fun input h other value hdecode ↦ eq_of_decode_encode term.ordered h hdecode
  refine ⟨hencodes limits max, ?_, ?_, hreads⟩
  · intro m input hm h
    rw [measure_encodedBytes hm, (encode_eq_ok.mp h).2]
  · intro input h other
    constructor
    · rintro ⟨value, hvalue⟩
      obtain rfl := hreads input h other value hvalue
      exact (hencodes other maxBytes).mpr ⟨input, (decode_eq_ok.mp hvalue).2⟩
    · intro hm
      obtain ⟨input', h'⟩ := (hencodes other maxBytes).mp hm
      have hsame : input' = input := (encode_eq_ok.mp h').2.trans (encode_eq_ok.mp h).2.symm
      exact ⟨term.value, decode_encode term.ordered (hsame ▸ h')⟩

/-- One more level is refused by both. -/
example : (decode (wire sampleTerm.value) ⟨2, 100, 100⟩).isOk = false ∧
    (measure sampleTerm.value ⟨2, 100, 100⟩ maxBytes).isOk = false := by decide +kernel

end Tay.Value
