import Tay.Event.Value

/-!
# The text of a string

A string as bytes is well-formed UTF-8, no byte of it is zero unless a character is, and two strings with
the same bytes are the same. For characters below 128 the bytes are the characters.
-/

namespace Tay

theorem text_ofList (cs : List Char) : text (String.ofList cs) = cs.flatMap String.utf8EncodeChar := by
  rw [text, String.toByteArray_ofList, List.utf8Encode, List.data_toByteArray]

theorem text_inj {s t : String} : text s = text t ↔ s = t := by
  refine ⟨fun h ↦ ?_, fun h ↦ congrArg text h⟩
  exact String.toByteArray_inj.mp (ByteArray.ext (Array.toList_inj.mp h))

/-! ## Well-formed bytes -/

variable {a b c d : UInt8} {rest : Binary}

/-- A byte that follows the first one of a character. -/
def Trails (b : UInt8) : Prop := 0x80 ≤ b ∧ b ≤ 0xBF

theorem not_le_of_le {a b : UInt8} (n : UInt8) (h : b ≤ a) (hn : n < b) : ¬ a ≤ n := by
  rw [UInt8.le_iff_toNat_le] at h ⊢
  exact Nat.not_le_of_gt (Nat.lt_of_lt_of_le (UInt8.lt_iff_toNat_lt.mp hn) h)

theorem validUtf8_one (ha : a ≤ 0x7F) : Value.validUtf8 (a :: rest) = Value.validUtf8 rest := by
  rw [Value.validUtf8.eq_def]
  exact if_pos ha

theorem validUtf8_two (ha : 0xC2 ≤ a ∧ a ≤ 0xDF) (hb : Trails b) :
    Value.validUtf8 (a :: b :: rest) = Value.validUtf8 rest := by
  have hone := not_le_of_le 0x7F ha.1 (by decide)
  rw [Value.validUtf8.eq_def]
  show (if a ≤ 0x7F then _ else if 0xC2 ≤ a && a ≤ 0xDF then (0x80 ≤ b && b ≤ 0xBF) && _ else _) = _
  simp only [hone, ha.1, ha.2, hb.1, hb.2, decide_true, Bool.and_self, Bool.true_and, if_true, if_false]

theorem validUtf8_three (ha : 0xE0 ≤ a ∧ a ≤ 0xEF) (hb : Trails b) (hc : Trails c) (hlow : a = 0xE0 → 0xA0 ≤ b)
    (hhigh : a = 0xED → b ≤ 0x9F) : Value.validUtf8 (a :: b :: c :: rest) = Value.validUtf8 rest := by
  have hone := not_le_of_le 0x7F ha.1 (by decide)
  have htwo := not_le_of_le 0xDF ha.1 (by decide)
  have hlow : (a != 0xE0 || decide (0xA0 ≤ b)) = true := by
    rw [Bool.or_eq_true, bne_iff_ne, decide_eq_true_eq]
    exact (Decidable.em (a = 0xE0)).elim (fun h ↦ .inr (hlow h)) .inl
  have hhigh : (a != 0xED || decide (b ≤ 0x9F)) = true := by
    rw [Bool.or_eq_true, bne_iff_ne, decide_eq_true_eq]
    exact (Decidable.em (a = 0xED)).elim (fun h ↦ .inr (hhigh h)) .inl
  rw [Value.validUtf8.eq_def]
  show (if a ≤ 0x7F then _ else if 0xC2 ≤ a && a ≤ 0xDF then _ else
    if 0xE0 ≤ a && a ≤ 0xEF then (0x80 ≤ b && b ≤ 0xBF) && (0x80 ≤ c && c ≤ 0xBF) && _ && _ && _ else _) = _
  simp only [hone, htwo, ha.1, ha.2, hb.1, hb.2, hc.1, hc.2, hlow, hhigh, decide_true, decide_false, Bool.and_self,
    Bool.and_false, Bool.true_and, Bool.false_eq_true, if_true, if_false]

theorem validUtf8_four (ha : 0xF0 ≤ a ∧ a ≤ 0xF4) (hb : Trails b) (hc : Trails c) (hd : Trails d)
    (hlow : a = 0xF0 → 0x90 ≤ b) (hhigh : a = 0xF4 → b ≤ 0x8F) :
    Value.validUtf8 (a :: b :: c :: d :: rest) = Value.validUtf8 rest := by
  have hone := not_le_of_le 0x7F ha.1 (by decide)
  have htwo := not_le_of_le 0xDF ha.1 (by decide)
  have hthree := not_le_of_le 0xEF ha.1 (by decide)
  have hlow : (a != 0xF0 || decide (0x90 ≤ b)) = true := by
    rw [Bool.or_eq_true, bne_iff_ne, decide_eq_true_eq]
    exact (Decidable.em (a = 0xF0)).elim (fun h ↦ .inr (hlow h)) .inl
  have hhigh : (a != 0xF4 || decide (b ≤ 0x8F)) = true := by
    rw [Bool.or_eq_true, bne_iff_ne, decide_eq_true_eq]
    exact (Decidable.em (a = 0xF4)).elim (fun h ↦ .inr (hhigh h)) .inl
  rw [Value.validUtf8.eq_def]
  show (if a ≤ 0x7F then _ else if 0xC2 ≤ a && a ≤ 0xDF then _ else if 0xE0 ≤ a && a ≤ 0xEF then _ else
    0xF0 ≤ a && a ≤ 0xF4 && (0x80 ≤ b && b ≤ 0xBF) && (0x80 ≤ c && c ≤ 0xBF) && (0x80 ≤ d && d ≤ 0xBF) &&
      _ && _ && _) = _
  simp only [hone, htwo, hthree, ha.1, ha.2, hb.1, hb.2, hc.1, hc.2, hd.1, hd.2, hlow, hhigh, decide_true,
    decide_false, Bool.and_self, Bool.and_false, Bool.true_and, Bool.false_eq_true, if_false]

/-! ## Characters -/

theorem ofNat_le_ofNat {m n : ℕ} (hm : m < 256) (hn : n < 256) : UInt8.ofNat m ≤ UInt8.ofNat n ↔ m ≤ n := by
  rw [UInt8.le_iff_toNat_le, UInt8.toNat_ofNat', UInt8.toNat_ofNat', Nat.mod_eq_of_lt hm, Nat.mod_eq_of_lt hn]

theorem ofNat_eq_ofNat {m n : ℕ} (hm : m < 256) (hn : n < 256) : UInt8.ofNat m = UInt8.ofNat n ↔ m = n := by
  rw [← UInt8.toNat_inj, UInt8.toNat_ofNat', UInt8.toNat_ofNat', Nat.mod_eq_of_lt hm, Nat.mod_eq_of_lt hn]

theorem trails_ofNat (n : ℕ) : Trails (UInt8.ofNat (n % 64 + 128)) :=
  ⟨(@ofNat_le_ofNat 0x80 _ (by decide) (by omega)).mpr (by omega),
    (@ofNat_le_ofNat _ 0xBF (by omega) (by decide)).mpr (by omega)⟩

/-- A first byte, by the range its number is in. -/
theorem ofNat_mem {n low high : ℕ} (hlow : low ≤ n) (hhigh : n ≤ high) (hbyte : high < 256) :
    UInt8.ofNat low ≤ UInt8.ofNat n ∧ UInt8.ofNat n ≤ UInt8.ofNat high :=
  ⟨(ofNat_le_ofNat (by omega) (by omega)).mpr hlow, (ofNat_le_ofNat (by omega) hbyte).mpr hhigh⟩

/-- A character in front of bytes. -/
theorem validUtf8_append (c : Char) (rest : Binary) :
    Value.validUtf8 (String.utf8EncodeChar c ++ rest) = Value.validUtf8 rest := by
  have hvalid : c.val.toNat < 0xD800 ∨ 0xDFFF < c.val.toNat ∧ c.val.toNat < 0x110000 := c.valid
  rw [String.utf8EncodeChar]
  generalize c.val.toNat = v at hvalid
  by_cases hone : v ≤ 0x7F
  · rw [if_pos hone]
    exact validUtf8_one ((ofNat_le_ofNat (by omega) (by decide)).mpr hone)
  by_cases htwo : v ≤ 0x7FF
  · rw [if_neg hone, if_pos htwo]
    exact validUtf8_two (@ofNat_mem _ 0xC2 0xDF (by omega) (by omega) (by decide)) (trails_ofNat v)
  by_cases hthree : v ≤ 0xFFFF
  · rw [if_neg hone, if_neg htwo, if_pos hthree]
    -- The first byte and the second one together rule out an overlong form and a surrogate.
    refine validUtf8_three (@ofNat_mem _ 0xE0 0xEF (by omega) (by omega) (by decide)) (trails_ofNat _)
      (trails_ofNat _) (fun h ↦ ?_) fun h ↦ ?_
    · have h := (@ofNat_eq_ofNat _ 0xE0 (by omega) (by decide)).mp h
      exact (@ofNat_le_ofNat 0xA0 _ (by decide) (by omega)).mpr (by omega)
    · have h := (@ofNat_eq_ofNat _ 0xED (by omega) (by decide)).mp h
      exact (@ofNat_le_ofNat _ 0x9F (by omega) (by decide)).mpr (by omega)
  · rw [if_neg hone, if_neg htwo, if_neg hthree]
    refine validUtf8_four (@ofNat_mem _ 0xF0 0xF4 (by omega) (by omega) (by decide)) (trails_ofNat _)
      (trails_ofNat _) (trails_ofNat _) (fun h ↦ ?_) fun h ↦ ?_
    · have h := (@ofNat_eq_ofNat _ 0xF0 (by omega) (by decide)).mp h
      exact (@ofNat_le_ofNat 0x90 _ (by decide) (by omega)).mpr (by omega)
    · have h := (@ofNat_eq_ofNat _ 0xF4 (by omega) (by decide)).mp h
      exact (@ofNat_le_ofNat _ 0x8F (by omega) (by decide)).mpr (by omega)

theorem validUtf8_text (s : String) : Value.validUtf8 (text s) = true := by
  obtain ⟨cs, rfl⟩ := s.exists_eq_ofList
  rw [text_ofList]
  induction cs with
  | nil => rfl
  | cons c cs ih => rw [List.flatMap_cons, validUtf8_append, ih]

theorem zero_mem_utf8EncodeChar {c : Char} : 0 ∈ String.utf8EncodeChar c ↔ c = '\x00' := by
  have hzero (n : ℕ) (h : n < 256) : (0 : UInt8) = UInt8.ofNat n ↔ 0 = n := @ofNat_eq_ofNat 0 n (by decide) h
  have hchar : c = '\x00' ↔ c.val.toNat = 0 := by
    rw [← Char.toNat_inj]
    rfl
  rw [hchar, String.utf8EncodeChar]
  generalize hv : c.val.toNat = v
  have hvalid : c.val.toNat < 0xD800 ∨ 0xDFFF < c.val.toNat ∧ c.val.toNat < 0x110000 := c.valid
  rw [hv] at hvalid
  split
  · rw [List.mem_singleton, hzero v (by omega)]
    exact eq_comm
  · split
    · simp only [List.mem_cons, List.not_mem_nil, or_false]
      rw [hzero _ (by omega), hzero _ (by omega)]
      omega
    · split
      · simp only [List.mem_cons, List.not_mem_nil, or_false]
        rw [hzero _ (by omega), hzero _ (by omega), hzero _ (by omega)]
        omega
      · simp only [List.mem_cons, List.not_mem_nil, or_false]
        rw [hzero _ (by omega), hzero _ (by omega), hzero _ (by omega), hzero _ (by omega)]
        omega

theorem zero_mem_text {s : String} : 0 ∈ text s ↔ '\x00' ∈ s.toList := by
  obtain ⟨cs, rfl⟩ := s.exists_eq_ofList
  rw [text_ofList, String.toList_ofList, List.mem_flatMap]
  simp only [zero_mem_utf8EncodeChar, exists_eq_right]

theorem text_of_le {cs : List Char} (h : ∀ c ∈ cs, c.toNat ≤ 0x7F) :
    text (String.ofList cs) = cs.map fun c ↦ UInt8.ofNat c.toNat := by
  rw [text_ofList]
  induction cs with
  | nil => rfl
  | cons c cs ih =>
    have hc : c.val.toNat ≤ 0x7F := h c List.mem_cons_self
    rw [List.flatMap_cons, String.utf8EncodeChar, if_pos hc, ih fun d hd ↦ h d (List.mem_cons_of_mem c hd)]
    rfl

end Tay
