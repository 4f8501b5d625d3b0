import Mathlib.Algebra.Ring.Nat
import Mathlib.Tactic.Ring
import Tay.Event.Size

/-!
# Reading values back

`Tay.Event.Value.decode`. The reader walks the bytes with the same limits as the measurement and
returns a value, what is left of the bytes, and the totals. It accepts one form of each value only: an
integer under the tag of its sign, a finite float, a string of valid UTF-8, the keys of a map in
strictly ascending order, and nothing after the value.

The depth of a value is bounded by the limits, so the reader recurses on the levels that are left; with
none left it stops as the source does at a depth above the limit.
-/

open Foundation

namespace Tay.Value

/-! ## Numbers of a fixed width -/

/-- The number that a string of bytes is, most significant first. -/
def ofBigEndian (bytes : Binary) : ℕ := bytes.foldl (fun n byte ↦ n * 256 + byte.toNat) 0

theorem foldl_ofBigEndian (input : Binary) : ∀ acc : ℕ,
    input.foldl (fun n byte ↦ n * 256 + byte.toNat) acc =
      acc * 256 ^ input.length + ofBigEndian input := by
  induction input with
  | nil =>
    intro acc
    simp [ofBigEndian]
  | cons byte input ih =>
    intro acc
    have hcons : ofBigEndian (byte :: input) = (0 * 256 + byte.toNat) * 256 ^ input.length +
        ofBigEndian input := ih _
    rw [List.foldl_cons, ih, hcons, List.length_cons, pow_succ]
    ring

theorem ofBigEndian_cons (byte : UInt8) (input : Binary) :
    ofBigEndian (byte :: input) = byte.toNat * 256 ^ input.length + ofBigEndian input := by
  rw [ofBigEndian, List.foldl_cons, foldl_ofBigEndian, Nat.zero_mul, Nat.zero_add]

theorem ofBigEndian_lt (input : Binary) : ofBigEndian input < 256 ^ input.length := by
  induction input with
  | nil => exact Nat.zero_lt_one
  | cons byte input ih =>
    have hbyte : byte.toNat + 1 ≤ 256 := byte.toNat_lt
    have hmul : (byte.toNat + 1) * 256 ^ input.length ≤ 256 * 256 ^ input.length :=
      Nat.mul_le_mul_right _ hbyte
    rw [ofBigEndian_cons, List.length_cons, pow_succ, Nat.mul_comm (256 ^ input.length) 256]
    rw [Nat.add_mul, Nat.one_mul] at hmul
    omega

theorem ofBigEndian_bigEndian (width n : ℕ) : ofBigEndian (bigEndian width n) = n % 256 ^ width := by
  induction width with
  | zero =>
    rw [pow_zero, Nat.mod_one]
    rfl
  | succ width ih =>
    rw [bigEndian, ofBigEndian_cons, ih, bigEndian_length, Nat.mod_pow_succ, UInt8.toNat_ofNat',
      Nat.mul_comm, Nat.add_comm]

/-- Two strings of one length that are the same number are the same string. -/
theorem ofBigEndian_injective : ∀ {input input' : Binary}, input.length = input'.length →
    ofBigEndian input = ofBigEndian input' → input = input' := by
  intro input
  induction input with
  | nil =>
    intro input' hlength _
    exact (List.length_eq_zero_iff.mp hlength.symm).symm
  | cons byte input ih =>
    intro input' hlength hsame
    cases input' with
    | nil => cases hlength
    | cons byte' input' =>
      have hrest : input.length = input'.length := Nat.succ.inj hlength
      rw [ofBigEndian_cons, ofBigEndian_cons, ← hrest] at hsame
      have hlt := ofBigEndian_lt input
      have hlt' := ofBigEndian_lt input'
      rw [← hrest] at hlt'
      have hpos : 0 < 256 ^ input.length := Nat.lt_of_le_of_lt (Nat.zero_le _) hlt
      have hbyte : byte.toNat = byte'.toNat := by
        have hdiv := congrArg (· / 256 ^ input.length) hsame
        simpa only [Nat.add_comm (_ * _), Nat.add_mul_div_right _ _ hpos, Nat.div_eq_of_lt hlt,
          Nat.div_eq_of_lt hlt', Nat.zero_add] using hdiv
      rw [hbyte] at hsame
      rw [UInt8.toNat_inj.mp hbyte, ih hrest (Nat.add_left_cancel hsame)]

theorem bigEndian_ofBigEndian (input : Binary) :
    bigEndian input.length (ofBigEndian input) = input := by
  refine ofBigEndian_injective (bigEndian_length _ _) ?_
  rw [ofBigEndian_bigEndian, Nat.mod_eq_of_lt (ofBigEndian_lt input)]

/-- `<<n::size, rest::binary>>`: a number of some bytes and what follows, if there are so many. -/
def field (width : ℕ) (bytes : Binary) : Option (ℕ × Binary) :=
  if width ≤ bytes.length then some (ofBigEndian (bytes.take width), bytes.drop width) else none

/-! ## The reader -/

/-- What a reader returns: what it has read, the rest of the bytes, and the totals. -/
structure Parse (α : Type) where
  value : α
  rest : Binary
  totals : Measure

/-- A number of some bytes, or the input is cut short. -/
def fixed (width : ℕ) (bytes : Binary) : Except Reason (ℕ × Binary) :=
  match field width bytes with
  | some f => .ok f
  | none => .error .truncatedValue

/-- Tag 3. -/
def readNegative (bytes : Binary) (m : Measure) : Except Reason (Parse Value) := do
  let f ← fixed 8 bytes
  check (2 ^ 63 ≤ f.1) .noncanonicalInteger
  return ⟨.int ((f.1 : ℤ) - 18446744073709551616), f.2, m⟩

/-- Tag 4. -/
def readUnsigned (bytes : Binary) (m : Measure) : Except Reason (Parse Value) := do
  let f ← fixed 8 bytes
  return ⟨.int f.1, f.2, m⟩

/-- Tag 5. -/
def readFloat (bytes : Binary) (m : Measure) : Except Reason (Parse Value) := do
  let f ← fixed 8 bytes
  check (f.1 / 2 ^ 52 % 2048 != 2047) .nonfiniteFloat
  return ⟨.float (UInt64.ofNat f.1), f.2, m⟩

/-- Tags 6 and 7: the bytes of a string or of the carrier. -/
def readBinary (b : Budget) (carrier : Bool) (bytes : Binary) (m : Measure) :
    Except Reason (Parse Value) := do
  let f ← fixed 4 bytes
  check (f.1 ≤ f.2.length) .truncatedValue
  let m ← binaryCharge b m f.1
  check (carrier || validUtf8 (f.2.take f.1)) .utf8
  return ⟨if carrier then .bytes (f.2.take f.1) else .str (f.2.take f.1), f.2.drop f.1, m⟩

/-- `read_list`. -/
def readList (read : Binary → Measure → Except Reason (Parse Value)) :
    ℕ → Binary → Measure → Except Reason (Parse (List Value))
  | 0, rest, m => .ok ⟨[], rest, m⟩
  | n + 1, input, m => do
    let head ← read input m
    let tail ← readList read n head.rest head.totals
    return ⟨head.value :: tail.value, tail.rest, tail.totals⟩

/-- Strictly after the previous key; only strings are compared. -/
def ascends (previous : Option Value) (key : Value) : Bool :=
  match previous, key with
  | some (.str a), .str b => a < b
  | _, _ => true

/-- `read_map`. A key goes after all the others, so that putting it into the map is appending it. -/
def readMap (read : Binary → Measure → Except Reason (Parse Value)) :
    ℕ → Option Value → Binary → Measure → Except Reason (Parse (List (Value × Value)))
  | 0, _, rest, m => .ok ⟨[], rest, m⟩
  | n + 1, previous, input, m => do
    let key ← read input m
    check (isBinary key.value) .mapKey
    check (ascends previous key.value) .mapOrder
    let value ← read key.rest key.totals
    let next ← readMap read n (some key.value) value.rest value.totals
    return ⟨(key.value, value.value) :: next.value, next.rest, next.totals⟩

/-- Tag 8. -/
def readItems (b : Budget) (read : Binary → Measure → Except Reason (Parse Value)) (bytes : Binary)
    (m : Measure) : Except Reason (Parse Value) := do
  let f ← fixed 4 bytes
  check (f.1 ≤ f.2.length) .truncatedValue
  let m ← children b m f.1
  let items ← readList read f.1 f.2 m
  return ⟨.list items.value, items.rest, items.totals⟩

/-- Tag 9. -/
def readEntries (b : Budget) (read : Binary → Measure → Except Reason (Parse Value)) (bytes : Binary)
    (m : Measure) : Except Reason (Parse Value) := do
  let f ← fixed 4 bytes
  check (6 * f.1 ≤ f.2.length) .truncatedValue
  let m ← children b m (2 * f.1)
  let entries ← readMap read f.1 none f.2 m
  return ⟨.map entries.value, entries.rest, entries.totals⟩

/-- What follows a tag. -/
def readTagged (b : Budget) (read : Binary → Measure → Except Reason (Parse Value)) (tag : ℕ)
    (rest : Binary) (m : Measure) : Except Reason (Parse Value) :=
  match tag with
  | 0 => .ok ⟨.null, rest, m⟩
  | 1 => .ok ⟨.bool false, rest, m⟩
  | 2 => .ok ⟨.bool true, rest, m⟩
  | 3 => readNegative rest m
  | 4 => readUnsigned rest m
  | 5 => readFloat rest m
  | 6 => readBinary b false rest m
  | 7 => readBinary b true rest m
  | 8 => readItems b read rest m
  | 9 => readEntries b read rest m
  | _ => .error .unknownTag

/-- `read`, at a depth that leaves so many levels. -/
def read (b : Budget) : ℕ → Binary → Measure → Except Reason (Parse Value)
  | 0, _, _ => .error (.resourceLimit .depth)
  | levels + 1, input, m => do
    let m ← node b m (b.limits.depth - levels)
    match input with
    | [] => .error .truncatedValue
    | byte :: rest => readTagged b (read b levels) byte.toNat rest m

/-- `decode`. -/
def decode (bytes : Binary) (limits : Limits) : Except Reason Value := do
  check (limits? limits) .invalidValueLimits
  check (bytes.length ≤ maxBytes) .payloadHardLimit
  let parse ← read ⟨limits, maxBytes⟩ limits.depth bytes ⟨0, 0, 0, 0⟩
  check (parse.rest = []) .trailingBytes
  return parse.value

/-- A field of a fixed width is a number that fits it and is written in full. -/
theorem field_eq_some {width : ℕ} {input : Binary} {f : ℕ × Binary} :
    field width input = some f ↔ f.1 < 256 ^ width ∧ input = bigEndian width f.1 ++ f.2 := by
  constructor
  · intro h
    rw [field] at h
    split at h
    case isFalse => cases h
    case isTrue hlength =>
      cases h
      have htake : (input.take width).length = width := List.length_take_of_le hlength
      have hlt := ofBigEndian_lt (input.take width)
      have hback := bigEndian_ofBigEndian (input.take width)
      rw [htake] at hlt hback
      refine ⟨hlt, ?_⟩
      rw [hback, List.take_append_drop]
  · rintro ⟨hlt, rfl⟩
    have hlength : width ≤ (bigEndian width f.1 ++ f.2).length := by
      rw [List.length_append, bigEndian_length]
      exact Nat.le_add_right _ _
    rw [field, if_pos hlength, List.take_left' (bigEndian_length _ _),
      List.drop_left' (bigEndian_length _ _), ofBigEndian_bigEndian, Nat.mod_eq_of_lt hlt]

theorem fixed_bigEndian {width n : ℕ} (h : n < 256 ^ width) (rest : Binary) :
    fixed width (bigEndian width n ++ rest) = .ok (n, rest) := by
  have hfield : field width (bigEndian width n ++ rest) = some (n, rest) := field_eq_some.mpr ⟨h, rfl⟩
  rw [fixed, hfield]

theorem fixed_eq_ok {width : ℕ} {input : Binary} {f : ℕ × Binary} (h : fixed width input = .ok f) :
    f.1 < 256 ^ width ∧ input = bigEndian width f.1 ++ f.2 := by
  unfold fixed at h
  split at h
  case h_2 => cases h
  case h_1 g hg =>
    cases h
    exact field_eq_some.mp hg

/-! ## Maps in order -/

/-- The keys of every map are in strictly ascending order, as the keys of an Elixir map are written. -/
def ordered : Value → Bool
  | .list items => orderedList items
  | .map entries => orderedMap none entries
  | _ => true
where
  orderedList : List Value → Bool
    | [] => true
    | head :: tail => ordered head && orderedList tail
  orderedMap : Option Value → List (Value × Value) → Bool
    | _, [] => true
    | previous, (key, value) :: next => ascends previous key && ordered value && orderedMap (some key) next

/-- An Elixir term: a map has its keys once each, and the model lists them in order. -/
structure Term where
  value : Value
  ordered : value.ordered = true

/-! ## The length of an encoding -/

mutual

theorem length_wire {value : Value} (h : value.writable = true) :
    (wire value).length = value.cost.bytes := by
  cases value with
  | null => rfl
  | bool b => cases b <;> rfl
  | int n => cases n <;> simp [wire, cost, Cost.leaf]
  | float => simp [wire, cost, Cost.leaf]
  | str s | bytes s =>
    simp only [wire, cost, Cost.binary, List.length_cons, List.length_append, bigEndian_length]
    omega
  | list items =>
    have hitems := @length_wireList items h
    simp only [wire, cost, Cost.enclosed, List.length_cons, List.length_append, bigEndian_length, hitems]
    omega
  | map entries =>
    have hentries := @length_wireMap entries h
    simp only [wire, cost, Cost.enclosed, List.length_cons, List.length_append, bigEndian_length,
      hentries]
    omega
  | other => cases h

theorem length_wireList {items : List Value} (h : writable.writableList items = true) :
    (wire.wireList items).length = (cost.costList items).bytes := by
  match items with
  | [] => rfl
  | head :: tail =>
    simp only [writable.writableList, Bool.and_eq_true] at h
    simp only [wire.wireList, cost.costList, Cost.beside, List.length_append, length_wire h.1,
      length_wireList h.2]

theorem length_wireMap {entries : List (Value × Value)} (h : writable.writableMap entries = true) :
    (wire.wireMap entries).length = (cost.costMap entries).bytes := by
  match entries with
  | [] => rfl
  | (key, value) :: next =>
    simp only [writable.writableMap, Bool.and_eq_true] at h
    simp only [wire.wireMap, cost.costMap, Cost.beside, List.length_append, length_wire h.1.1.2,
      length_wire h.1.2, length_wireMap h.2, Nat.add_assoc]

end

/-- An entry of a map has six bytes at least: the tag and the length of its key, and its value. -/
theorem six_mul_le_map : ∀ {entries : List (Value × Value)}, writable.writableMap entries = true →
    6 * entries.length ≤ (cost.costMap entries).bytes
  | [], _ => Nat.zero_le _
  | (key, value) :: next, h => by
    simp only [writable.writableMap, Bool.and_eq_true] at h
    have hvalue := bytes_pos h.1.2
    have hnext := six_mul_le_map h.2
    have hkey : 5 ≤ key.cost.bytes := by
      cases key with
      | str s => exact Nat.le_add_right _ _
      | _ => cases h.1.1.1
    simp only [cost.costMap, Cost.beside, List.length_cons]
    omega

theorem length_le_nodes : ∀ items : List Value, items.length ≤ (cost.costList items).nodes
  | [] => Nat.zero_le _
  | head :: tail => by
    have hhead := nodes_pos head
    have htail := length_le_nodes tail
    simp only [cost.costList, Cost.beside, List.length_cons]
    omega

/-! ## What the reader charges -/

/-- What is left of the limits, with so many levels, covers a cost. The reader counts no bytes. -/
structure Room (b : Budget) (levels : ℕ) (m : Measure) (c : Cost) : Prop where
  height : c.height ≤ levels
  nodes : m.nodes + c.nodes ≤ b.limits.outputNodes
  strings : m.binaryBytes + c.strings ≤ b.limits.binaryBytes

/-- The totals have grown by a cost. -/
structure Used (m : Measure) (c : Cost) (m' : Measure) : Prop where
  nodes : m'.nodes = m.nodes + c.nodes
  strings : m'.binaryBytes = m.binaryBytes + c.strings

variable {b : Budget} {levels : ℕ} {m m' : Measure} {c d : Cost}

theorem Used.refl (m : Measure) : Used m .empty m := ⟨rfl, rfl⟩

theorem Used.trans {m'' : Measure} (h : Used m c m') (h' : Used m' d m'') :
    Used m (c.beside d) m'' := by
  refine ⟨?_, ?_⟩
  · rw [h'.nodes, h.nodes, Nat.add_assoc]
    rfl
  · rw [h'.strings, h.strings, Nat.add_assoc]
    rfl

/-- Two costs, spent one after the other. -/
theorem room_beside (h : Used m c m') :
    Room b levels m (c.beside d) ↔ Room b levels m c ∧ Room b levels m' d := by
  obtain ⟨hnodes, hstrings⟩ := h
  constructor
  · rintro ⟨h1, h2, h3⟩
    simp only [Cost.beside] at h1 h2 h3
    refine ⟨⟨?_, ?_, ?_⟩, ⟨?_, ?_, ?_⟩⟩ <;> omega
  · rintro ⟨⟨h1, h2, h3⟩, ⟨h4, h5, h6⟩⟩
    refine ⟨?_, ?_, ?_⟩ <;> simp only [Cost.beside] <;> omega

theorem Room.left (h : Room b levels m (c.beside d)) : Room b levels m c := by
  obtain ⟨h1, h2, h3⟩ := h
  simp only [Cost.beside] at h1 h2 h3
  refine ⟨?_, ?_, ?_⟩ <;> omega

/-- The totals after a node. -/
def counted (b : Budget) (levels : ℕ) (m : Measure) : Measure :=
  { m with nodes := m.nodes + 1, depth := max (b.limits.depth - levels) m.depth }

/-- A node around its children. -/
theorem room_enclosed :
    Room b (levels + 1) m c.enclosed ↔
      Room b levels (counted b levels m) c := by
  constructor
  · rintro ⟨h1, h2, h3⟩
    simp only [Cost.enclosed] at h1 h2 h3
    exact ⟨by omega, by simp only [counted]; omega, by simp only [counted]; omega⟩
  · rintro ⟨h1, h2, h3⟩
    simp only [counted] at h2 h3
    refine ⟨?_, ?_, ?_⟩ <;> simp only [Cost.enclosed] <;> omega

theorem Used.enclosed (h : Used (counted b levels m) c m') : Used m c.enclosed m' := by
  obtain ⟨hnodes, hstrings⟩ := h
  simp only [counted] at hnodes hstrings
  refine ⟨?_, ?_⟩ <;> simp only [Cost.enclosed] <;> omega

/-- One step of the reader. -/
theorem read_cons (hnodes : m.nodes < b.limits.outputNodes) (byte : UInt8) (rest : Binary) :
    read b (levels + 1) (byte :: rest) m =
      readTagged b (read b levels) byte.toNat rest (counted b levels m) := by
  have hnode : node b m (b.limits.depth - levels) = .ok (counted b levels m) :=
    node_eq_ok.mpr ⟨Nat.sub_le _ _, hnodes, rfl⟩
  rw [read, hnode, ok_bind]

/-! ## What is written is read -/

theorem pow_eight : (256 : ℕ) ^ 8 = 18446744073709551616 := by norm_num

theorem pow_four : (256 : ℕ) ^ 4 = 4294967296 := by norm_num

theorem readTagged_negative {n : ℕ} (h : n < 2 ^ 63) (read : Binary → Measure → Except Reason (Parse Value))
    (rest : Binary) (m : Measure) :
    readTagged b read 3 (bigEndian 8 (2 ^ 64 - (n + 1)) ++ rest) m =
      .ok ⟨.int (.negSucc n), rest, m⟩ := by
  have hlt : 2 ^ 64 - (n + 1) < 256 ^ 8 := by
    rw [pow_eight]
    omega
  rw [readTagged, readNegative, fixed_bigEndian hlt, ok_bind]
  refine check_bind_eq_ok.mpr ⟨decide_eq_true (by dsimp only; omega), ?_⟩
  have hint : ((2 ^ 64 - (n + 1) : ℕ) : ℤ) - 18446744073709551616 = .negSucc n := by
    rw [Int.negSucc_eq]
    omega
  rw [hint]
  rfl

theorem readTagged_unsigned {n : ℕ} (h : n < 18446744073709551616)
    (read : Binary → Measure → Except Reason (Parse Value)) (rest : Binary) (m : Measure) :
    readTagged b read 4 (bigEndian 8 n ++ rest) m = .ok ⟨.int (.ofNat n), rest, m⟩ := by
  rw [readTagged, readUnsigned, fixed_bigEndian (by rwa [pow_eight]), ok_bind]
  rfl

theorem readTagged_float {bits : UInt64} (h : (bits.toNat / 2 ^ 52 % 2048 != 2047) = true)
    (read : Binary → Measure → Except Reason (Parse Value)) (rest : Binary) (m : Measure) :
    readTagged b read 5 (bigEndian 8 bits.toNat ++ rest) m = .ok ⟨.float bits, rest, m⟩ := by
  have hlt : bits.toNat < 256 ^ 8 := by
    rw [pow_eight]
    exact bits.toNat_lt
  rw [readTagged, readFloat, fixed_bigEndian hlt, ok_bind]
  refine check_bind_eq_ok.mpr ⟨h, ?_⟩
  rw [UInt64.ofNat_toNat]
  rfl

/-- A string or a carrier that the limits cover. -/
theorem readBinary_wire {carrier : Bool} {s : Binary} (hlength : s.length ≤ 4294967295)
    (hroom : m.binaryBytes + s.length ≤ b.limits.binaryBytes)
    (hvalid : (carrier || validUtf8 s) = true) (rest : Binary) :
    readBinary b carrier (bigEndian 4 s.length ++ s ++ rest) m =
      .ok ⟨if carrier then .bytes s else .str s, rest,
        { m with binaryBytes := m.binaryBytes + s.length }⟩ := by
  have hlt : s.length < 256 ^ 4 := by
    rw [pow_four]
    omega
  have htake : (s ++ rest).take s.length = s := List.take_left' rfl
  have hdrop : (s ++ rest).drop s.length = rest := List.drop_left' rfl
  rw [List.append_assoc, readBinary, fixed_bigEndian hlt, ok_bind]
  refine check_bind_eq_ok.mpr ⟨decide_eq_true ?_, ?_⟩
  · rw [List.length_append]
    exact Nat.le_add_right _ _
  · refine bind_eq_ok.mpr ⟨_, binaryCharge_eq_ok.mpr ⟨hlength, hroom, rfl⟩, ?_⟩
    rw [htake, hdrop]
    exact check_bind_eq_ok.mpr ⟨hvalid, rfl⟩

/-- The items of a list, around what reads them. -/
theorem readItems_wire {items : List Value} {rest : Binary}
    {read : Binary → Measure → Except Reason (Parse Value)} (hw : writable.writableList items = true)
    (hbytes : (cost.costList items).bytes ≤ maxBytes) (hroom : Room b levels m (cost.costList items))
    (hread : readList read items.length (wire.wireList items ++ rest) m = .ok ⟨items, rest, m'⟩) :
    readItems b read (bigEndian 4 items.length ++ wire.wireList items ++ rest) m =
      .ok ⟨.list items, rest, m'⟩ := by
  have hlength := length_le_list hw
  have hnodes := length_le_nodes items
  have hlt : items.length < 256 ^ 4 := by
    rw [pow_four]
    unfold maxBytes at hbytes
    omega
  rw [List.append_assoc, readItems, fixed_bigEndian hlt, ok_bind]
  refine check_bind_eq_ok.mpr ⟨decide_eq_true ?_, ?_⟩
  · rw [List.length_append, length_wireList hw]
    omega
  · refine bind_eq_ok.mpr ⟨_, children_eq_ok.mpr ⟨?_, rfl⟩, bind_eq_ok.mpr ⟨_, hread, rfl⟩⟩
    have := hroom.nodes
    dsimp only
    omega

/-- And the entries of a map. -/
theorem readEntries_wire {entries : List (Value × Value)} {rest : Binary}
    {read : Binary → Measure → Except Reason (Parse Value)}
    (hw : writable.writableMap entries = true) (hbytes : (cost.costMap entries).bytes ≤ maxBytes)
    (hroom : Room b levels m (cost.costMap entries))
    (hread : readMap read entries.length none (wire.wireMap entries ++ rest) m =
      .ok ⟨entries, rest, m'⟩) :
    readEntries b read (bigEndian 4 entries.length ++ wire.wireMap entries ++ rest) m =
      .ok ⟨.map entries, rest, m'⟩ := by
  have hlength := length_le_map hw
  have hsix := six_mul_le_map hw
  have hlt : entries.length < 256 ^ 4 := by
    rw [pow_four]
    unfold maxBytes at hbytes
    omega
  rw [List.append_assoc, readEntries, fixed_bigEndian hlt, ok_bind]
  refine check_bind_eq_ok.mpr ⟨decide_eq_true ?_, ?_⟩
  · rw [List.length_append, length_wireMap hw]
    omega
  · refine bind_eq_ok.mpr ⟨_, children_eq_ok.mpr ⟨?_, rfl⟩, bind_eq_ok.mpr ⟨_, hread, rfl⟩⟩
    have := hroom.nodes
    dsimp only
    omega

/-- The reader returns the value and leaves the rest. -/
def Reads (b : Budget) (levels : ℕ) (m : Measure) (value : Value) (rest : Binary) : Prop :=
  ∃ m', read b levels (wire value ++ rest) m = .ok ⟨value, rest, m'⟩ ∧ Used m value.cost m'

mutual

theorem read_wire {value : Value} {levels : ℕ} {m : Measure} (hw : value.writable = true)
    (ho : value.ordered = true) (hbytes : value.cost.bytes ≤ maxBytes)
    (hroom : Room b levels m value.cost) (rest : Binary) : Reads b levels m value rest := by
  obtain ⟨levels, rfl⟩ : ∃ l, levels = l + 1 :=
    Nat.exists_eq_succ_of_ne_zero (Nat.ne_of_gt (Nat.lt_of_lt_of_le (height_pos value) hroom.height))
  have hnodes : m.nodes < b.limits.outputNodes := by
    have := hroom.nodes
    have := nodes_pos value
    omega
  unfold maxBytes at hbytes
  cases value with
  | null => exact ⟨_, read_cons hnodes 0 rest, rfl, rfl⟩
  | bool x =>
    cases x with
    | false => exact ⟨_, read_cons hnodes 1 rest, rfl, rfl⟩
    | true => exact ⟨_, read_cons hnodes 2 rest, rfl, rfl⟩
  | int n =>
    simp only [writable, Bool.and_eq_true, decide_eq_true_eq] at hw
    cases n with
    | ofNat n =>
      refine ⟨_, (read_cons hnodes 4 _).trans (readTagged_unsigned ?_ _ rest _), rfl, rfl⟩
      have hupper : (n : ℤ) ≤ 18446744073709551615 := hw.2
      omega
    | negSucc n =>
      refine ⟨_, (read_cons hnodes 3 _).trans (readTagged_negative ?_ _ rest _), rfl, rfl⟩
      have := hw.1
      omega
  | float x => exact ⟨_, (read_cons hnodes 5 _).trans (readTagged_float hw _ rest _), rfl, rfl⟩
  | str s =>
    have hlength : s.length ≤ 4294967295 := by
      simp only [cost, Cost.binary] at hbytes
      omega
    have hvalid : (false || validUtf8 s) = true := hw
    exact ⟨_, (read_cons hnodes 6 _).trans
      (readBinary_wire (m := counted b levels m) hlength hroom.strings hvalid rest), rfl, rfl⟩
  | bytes s =>
    have hlength : s.length ≤ 4294967295 := by
      simp only [cost, Cost.binary] at hbytes
      omega
    have hvalid : (true || validUtf8 s) = true := rfl
    exact ⟨_, (read_cons hnodes 7 _).trans
      (readBinary_wire (m := counted b levels m) hlength hroom.strings hvalid rest), rfl, rfl⟩
  | list items =>
    have hcost : (cost.costList items).bytes ≤ maxBytes := by
      simp only [cost, Cost.enclosed] at hbytes
      unfold maxBytes
      omega
    have hinside := room_enclosed.mp hroom
    obtain ⟨m', hread, hused⟩ := readList_wire hw ho hcost hinside rest
    exact ⟨m', (read_cons hnodes 8 _).trans (readItems_wire hw hcost hinside hread), hused.enclosed⟩
  | map entries =>
    have hcost : (cost.costMap entries).bytes ≤ maxBytes := by
      simp only [cost, Cost.enclosed] at hbytes
      unfold maxBytes
      omega
    have hinside := room_enclosed.mp hroom
    obtain ⟨m', hread, hused⟩ := readMap_wire hw ho hcost hinside rest
    exact ⟨m', (read_cons hnodes 9 _).trans (readEntries_wire hw hcost hinside hread), hused.enclosed⟩
  | other => cases hw

theorem readList_wire {items : List Value} {levels : ℕ} {m : Measure}
    (hw : writable.writableList items = true) (ho : ordered.orderedList items = true)
    (hbytes : (cost.costList items).bytes ≤ maxBytes)
    (hroom : Room b levels m (cost.costList items)) (rest : Binary) :
    ∃ m', readList (read b levels) items.length (wire.wireList items ++ rest) m =
      .ok ⟨items, rest, m'⟩ ∧ Used m (cost.costList items) m' := by
  match items with
  | [] => exact ⟨m, rfl, .refl m⟩
  | head :: tail =>
    simp only [writable.writableList, ordered.orderedList, Bool.and_eq_true] at hw ho
    simp only [cost.costList, Cost.beside] at hbytes
    obtain ⟨m₁, hhead, hused⟩ := read_wire hw.1 ho.1 (by omega) hroom.left (wire.wireList tail ++ rest)
    obtain ⟨m₂, htail, hused'⟩ :=
      readList_wire hw.2 ho.2 (by omega) ((room_beside hused).mp hroom).2 rest
    refine ⟨m₂, ?_, hused.trans hused'⟩
    rw [wire.wireList, List.append_assoc]
    exact bind_eq_ok.mpr ⟨_, hhead, bind_eq_ok.mpr ⟨_, htail, rfl⟩⟩

theorem readMap_wire {entries : List (Value × Value)} {levels : ℕ} {m : Measure}
    {previous : Option Value} (hw : writable.writableMap entries = true)
    (ho : ordered.orderedMap previous entries = true)
    (hbytes : (cost.costMap entries).bytes ≤ maxBytes)
    (hroom : Room b levels m (cost.costMap entries)) (rest : Binary) :
    ∃ m', readMap (read b levels) entries.length previous (wire.wireMap entries ++ rest) m =
      .ok ⟨entries, rest, m'⟩ ∧ Used m (cost.costMap entries) m' := by
  match entries with
  | [] => exact ⟨m, rfl, .refl m⟩
  | (key, value) :: next =>
    simp only [writable.writableMap, ordered.orderedMap, Bool.and_eq_true] at hw ho
    simp only [cost.costMap, Cost.beside] at hbytes
    have hkey : key.ordered = true := by
      cases key with
      | str s => rfl
      | _ => cases hw.1.1.1
    obtain ⟨m₁, hread₁, hused₁⟩ := read_wire hw.1.1.2 hkey (by omega) hroom.left
      (wire value ++ (wire.wireMap next ++ rest))
    have hroom₁ := ((room_beside hused₁).mp hroom).2
    obtain ⟨m₂, hread₂, hused₂⟩ := read_wire hw.1.2 ho.1.2 (by omega) hroom₁.left
      (wire.wireMap next ++ rest)
    obtain ⟨m₃, hread₃, hused₃⟩ :=
      readMap_wire hw.2 ho.2 (by omega) ((room_beside hused₂).mp hroom₁).2 rest
    refine ⟨m₃, ?_, hused₁.trans (hused₂.trans hused₃)⟩
    rw [wire.wireMap, List.append_assoc, List.append_assoc]
    exact bind_eq_ok.mpr ⟨_, hread₁, check_bind_eq_ok.mpr ⟨hw.1.1.1, check_bind_eq_ok.mpr ⟨ho.1.1,
      bind_eq_ok.mpr ⟨_, hread₂, bind_eq_ok.mpr ⟨_, hread₃, rfl⟩⟩⟩⟩⟩

end

/-! ## What is read was written -/

/-- The bytes that were read are an encoding, of something the codec writes and the limits cover. -/
structure Wrote (b : Budget) (levels : ℕ) (m : Measure) (input encoding rest : Binary) (w o : Bool)
    (c : Cost) (m' : Measure) : Prop where
  wire : input = encoding ++ rest
  writable : w = true
  ordered : o = true
  room : Room b levels m c
  used : Used m c m'

theorem Room.spent (h : Room b levels m c) (hused : Used m c m') : Room b levels m' .empty := by
  obtain ⟨h1, h2, h3⟩ := h
  obtain ⟨hnodes, hstrings⟩ := hused
  refine ⟨Nat.zero_le _, ?_, ?_⟩ <;> simp only [Cost.empty] <;> omega

/-- Whatever a reader of values accepts was written. -/
def Sound (b : Budget) (levels : ℕ) (read : Binary → Measure → Except Reason (Parse Value)) : Prop :=
  ∀ input m p, Room b levels m .empty → read input m = .ok p →
    Wrote b levels m input (wire p.value) p.rest p.value.writable p.value.ordered p.value.cost p.totals

variable {read : Binary → Measure → Except Reason (Parse Value)}

theorem readList_sound (hread : Sound b levels read) (n : ℕ) :
    ∀ {input : Binary} {m : Measure} {p : Parse (List Value)}, Room b levels m .empty →
      readList read n input m = .ok p → p.value.length = n ∧
        Wrote b levels m input (wire.wireList p.value) p.rest (writable.writableList p.value)
          (ordered.orderedList p.value) (cost.costList p.value) p.totals := by
  induction n with
  | zero =>
    intro input m p h0 h
    cases h
    exact ⟨rfl, rfl, rfl, rfl, h0, .refl m⟩
  | succ n ih =>
    intro input m p h0 h
    obtain ⟨head, hhead, h⟩ := bind_eq_ok.mp h
    obtain ⟨tail, htail, h⟩ := bind_eq_ok.mp h
    cases h
    have hfirst := hread input m head h0 hhead
    obtain ⟨hlength, hrest⟩ := ih (hfirst.room.spent hfirst.used) htail
    refine ⟨congrArg (· + 1) hlength, ?_, ?_, ?_, ?_, hfirst.used.trans hrest.used⟩
    · rw [hfirst.wire, hrest.wire, wire.wireList, List.append_assoc]
    · simp only [writable.writableList, hfirst.writable, hrest.writable, Bool.and_self]
    · simp only [ordered.orderedList, hfirst.ordered, hrest.ordered, Bool.and_self]
    · exact (room_beside hfirst.used).mpr ⟨hfirst.room, hrest.room⟩

theorem readMap_sound (hread : Sound b levels read) (n : ℕ) :
    ∀ {previous : Option Value} {input : Binary} {m : Measure} {p : Parse (List (Value × Value))},
      Room b levels m .empty → readMap read n previous input m = .ok p → p.value.length = n ∧
        Wrote b levels m input (wire.wireMap p.value) p.rest (writable.writableMap p.value)
          (ordered.orderedMap previous p.value) (cost.costMap p.value) p.totals := by
  induction n with
  | zero =>
    intro previous input m p h0 h
    cases h
    exact ⟨rfl, rfl, rfl, rfl, h0, .refl m⟩
  | succ n ih =>
    intro previous input m p h0 h
    obtain ⟨key, hkey, h⟩ := bind_eq_ok.mp h
    obtain ⟨hbinary, h⟩ := check_bind_eq_ok.mp h
    obtain ⟨hascends, h⟩ := check_bind_eq_ok.mp h
    obtain ⟨value, hvalue, h⟩ := bind_eq_ok.mp h
    obtain ⟨next, hnext, h⟩ := bind_eq_ok.mp h
    cases h
    have h₁ := hread input m key h0 hkey
    have h₂ := hread key.rest key.totals value (h₁.room.spent h₁.used) hvalue
    obtain ⟨hlength, h₃⟩ := ih (h₂.room.spent h₂.used) hnext
    refine ⟨congrArg (· + 1) hlength, ?_, ?_, ?_, ?_, h₁.used.trans (h₂.used.trans h₃.used)⟩
    · rw [h₁.wire, h₂.wire, h₃.wire, wire.wireMap, List.append_assoc, List.append_assoc]
    · simp only [writable.writableMap, hbinary, h₁.writable, h₂.writable, h₃.writable, Bool.and_self]
    · simp only [ordered.orderedMap, hascends, h₂.ordered, h₃.ordered, Bool.and_self]
    · exact (room_beside h₁.used).mpr ⟨h₁.room, (room_beside h₂.used).mpr ⟨h₂.room, h₃.room⟩⟩

/-- The room for one more node. -/
theorem room_leaf (hnodes : m.nodes < b.limits.outputNodes)
    (hstrings : m.binaryBytes ≤ b.limits.binaryBytes) (n : ℕ) : Room b (levels + 1) m (.leaf n) :=
  ⟨Nat.succ_le_succ (Nat.zero_le _), hnodes, hstrings⟩

theorem readNegative_sound {input : Binary} {p : Parse Value} (h : readNegative input m = .ok p) :
    ∃ n : ℕ, n < 2 ^ 63 ∧ p.value = .int (.negSucc n) ∧ p.totals = m ∧
      input = bigEndian 8 (2 ^ 64 - (n + 1)) ++ p.rest := by
  obtain ⟨f, hf, h⟩ := bind_eq_ok.mp h
  obtain ⟨hsign, h⟩ := check_bind_eq_ok.mp h
  cases h
  obtain ⟨hlt, hinput⟩ := fixed_eq_ok hf
  rw [pow_eight] at hlt
  have hlow : 2 ^ 63 ≤ f.1 := of_decide_eq_true hsign
  refine ⟨2 ^ 64 - 1 - f.1, by omega, ?_, rfl, ?_⟩
  · have hint : (f.1 : ℤ) - 18446744073709551616 = .negSucc (2 ^ 64 - 1 - f.1) := by
      rw [Int.negSucc_eq]
      omega
    exact congrArg Value.int hint
  · rw [show 2 ^ 64 - (2 ^ 64 - 1 - f.1 + 1) = f.1 by omega]
    exact hinput

theorem readUnsigned_sound {input : Binary} {p : Parse Value} (h : readUnsigned input m = .ok p) :
    ∃ n : ℕ, n < 18446744073709551616 ∧ p.value = .int (.ofNat n) ∧ p.totals = m ∧
      input = bigEndian 8 n ++ p.rest := by
  obtain ⟨f, hf, h⟩ := bind_eq_ok.mp h
  cases h
  obtain ⟨hlt, hinput⟩ := fixed_eq_ok hf
  rw [pow_eight] at hlt
  exact ⟨f.1, hlt, rfl, rfl, hinput⟩

theorem readFloat_sound {input : Binary} {p : Parse Value} (h : readFloat input m = .ok p) :
    ∃ bits : UInt64, (bits.toNat / 2 ^ 52 % 2048 != 2047) = true ∧ p.value = .float bits ∧
      p.totals = m ∧ input = bigEndian 8 bits.toNat ++ p.rest := by
  obtain ⟨f, hf, h⟩ := bind_eq_ok.mp h
  obtain ⟨hfinite, h⟩ := check_bind_eq_ok.mp h
  cases h
  obtain ⟨hlt, hinput⟩ := fixed_eq_ok hf
  rw [pow_eight] at hlt
  have hbits : (UInt64.ofNat f.1).toNat = f.1 := by
    rw [UInt64.toNat_ofNat']
    exact Nat.mod_eq_of_lt hlt
  refine ⟨UInt64.ofNat f.1, ?_, rfl, rfl, ?_⟩
  · rw [hbits]
    exact hfinite
  · rw [hbits]
    exact hinput

theorem readBinary_sound {carrier : Bool} {input : Binary} {p : Parse Value}
    (h : readBinary b carrier input m = .ok p) :
    ∃ s : Binary, (carrier || validUtf8 s) = true ∧ m.binaryBytes + s.length ≤ b.limits.binaryBytes ∧
      p.value = (if carrier then .bytes s else .str s) ∧
      p.totals = { m with binaryBytes := m.binaryBytes + s.length } ∧
      input = bigEndian 4 s.length ++ s ++ p.rest := by
  obtain ⟨f, hf, h⟩ := bind_eq_ok.mp h
  obtain ⟨hlength, h⟩ := check_bind_eq_ok.mp h
  obtain ⟨m', hcharge, h⟩ := bind_eq_ok.mp h
  obtain ⟨-, hroom, rfl⟩ := binaryCharge_eq_ok.mp hcharge
  obtain ⟨hvalid, h⟩ := check_bind_eq_ok.mp h
  cases h
  have htake : (f.2.take f.1).length = f.1 := List.length_take_of_le (of_decide_eq_true hlength)
  obtain ⟨-, hinput⟩ := fixed_eq_ok hf
  refine ⟨f.2.take f.1, hvalid, by rwa [htake], rfl, by rw [htake], ?_⟩
  rw [htake, List.append_assoc, List.take_append_drop]
  exact hinput

theorem readItems_sound (hread : Sound b levels read) {input : Binary} {p : Parse Value}
    (h0 : Room b levels m .empty) (h : readItems b read input m = .ok p) :
    ∃ items : List Value, p.value = .list items ∧
      Wrote b levels m input (bigEndian 4 items.length ++ wire.wireList items) p.rest
        (writable.writableList items) (ordered.orderedList items) (cost.costList items) p.totals := by
  obtain ⟨f, hf, h⟩ := bind_eq_ok.mp h
  obtain ⟨-, h⟩ := check_bind_eq_ok.mp h
  obtain ⟨m', hchildren, hread'⟩ := bind_eq_ok.mp h
  obtain ⟨-, rfl⟩ := children_eq_ok.mp hchildren
  obtain ⟨items, hitems, hp⟩ := bind_eq_ok.mp hread'
  cases hp
  obtain ⟨hlength, hwrote⟩ := readList_sound hread f.1 h0 hitems
  obtain ⟨-, hinput⟩ := fixed_eq_ok hf
  refine ⟨items.value, rfl, ?_, hwrote.writable, hwrote.ordered, hwrote.room, hwrote.used⟩
  rw [hinput, hlength, List.append_assoc, ← hwrote.wire]

theorem readEntries_sound (hread : Sound b levels read) {input : Binary} {p : Parse Value}
    (h0 : Room b levels m .empty) (h : readEntries b read input m = .ok p) :
    ∃ entries : List (Value × Value), p.value = .map entries ∧
      Wrote b levels m input (bigEndian 4 entries.length ++ wire.wireMap entries) p.rest
        (writable.writableMap entries) (ordered.orderedMap none entries) (cost.costMap entries)
        p.totals := by
  obtain ⟨f, hf, h⟩ := bind_eq_ok.mp h
  obtain ⟨-, h⟩ := check_bind_eq_ok.mp h
  obtain ⟨m', hchildren, hread'⟩ := bind_eq_ok.mp h
  obtain ⟨-, rfl⟩ := children_eq_ok.mp hchildren
  obtain ⟨entries, hentries, hp⟩ := bind_eq_ok.mp hread'
  cases hp
  obtain ⟨hlength, hwrote⟩ := readMap_sound hread f.1 h0 hentries
  obtain ⟨-, hinput⟩ := fixed_eq_ok hf
  refine ⟨entries.value, rfl, ?_, hwrote.writable, hwrote.ordered, hwrote.room, hwrote.used⟩
  rw [hinput, hlength, List.append_assoc, ← hwrote.wire]

/-- The tag and what follows it. -/
theorem readTagged_sound (hread : Sound b levels read) {byte : UInt8} {rest : Binary} {p : Parse Value}
    (h0 : Room b (levels + 1) m .empty) (hnodes : m.nodes < b.limits.outputNodes)
    (h : readTagged b read byte.toNat rest (counted b levels m) = .ok p) :
    Wrote b (levels + 1) m (byte :: rest) (wire p.value) p.rest p.value.writable p.value.ordered
      p.value.cost p.totals := by
  have hstrings : m.binaryBytes ≤ b.limits.binaryBytes := h0.strings
  have hinside : Room b levels (counted b levels m) .empty := ⟨Nat.zero_le _, hnodes, hstrings⟩
  have hbyte {k : ℕ} (hk : byte.toNat = k) : byte = UInt8.ofNat k := by rw [← hk, UInt8.ofNat_toNat]
  obtain ⟨value, rest', totals⟩ := p
  unfold readTagged at h
  split at h
  case h_1 htag | h_2 htag | h_3 htag =>
    cases h
    rw [hbyte htag]
    exact ⟨rfl, rfl, rfl, room_leaf hnodes hstrings 1, rfl, rfl⟩
  case h_4 htag =>
    obtain ⟨n, hn, rfl, rfl, hinput⟩ := readNegative_sound h
    refine ⟨?_, ?_, rfl, room_leaf hnodes hstrings 9, rfl, rfl⟩
    · rw [hbyte htag, hinput]
      rfl
    · simp only [writable, Bool.and_eq_true, decide_eq_true_eq]
      omega
  case h_5 htag =>
    obtain ⟨n, hn, rfl, rfl, hinput⟩ := readUnsigned_sound h
    refine ⟨?_, ?_, rfl, room_leaf hnodes hstrings 9, rfl, rfl⟩
    · rw [hbyte htag, hinput]
      rfl
    · simp only [writable, Bool.and_eq_true, decide_eq_true_eq, Int.ofNat_eq_natCast]
      omega
  case h_6 htag =>
    obtain ⟨bits, hfinite, rfl, rfl, hinput⟩ := readFloat_sound h
    refine ⟨?_, hfinite, rfl, room_leaf hnodes hstrings 9, rfl, rfl⟩
    rw [hbyte htag, hinput]
    rfl
  case h_7 htag =>
    obtain ⟨s, hvalid, hroom, rfl, rfl, hinput⟩ := readBinary_sound h
    refine ⟨?_, hvalid, rfl, ⟨Nat.succ_le_succ (Nat.zero_le _), hnodes, hroom⟩, rfl, rfl⟩
    rw [hbyte htag, hinput]
    rfl
  case h_8 htag =>
    obtain ⟨s, -, hroom, rfl, rfl, hinput⟩ := readBinary_sound h
    refine ⟨?_, rfl, rfl, ⟨Nat.succ_le_succ (Nat.zero_le _), hnodes, hroom⟩, rfl, rfl⟩
    rw [hbyte htag, hinput]
    rfl
  case h_9 htag =>
    obtain ⟨items, rfl, hwrote⟩ := readItems_sound hread hinside h
    refine ⟨?_, hwrote.writable, hwrote.ordered, room_enclosed.mpr hwrote.room, hwrote.used.enclosed⟩
    rw [hbyte htag, hwrote.wire]
    rfl
  case h_10 htag =>
    obtain ⟨entries, rfl, hwrote⟩ := readEntries_sound hread hinside h
    refine ⟨?_, hwrote.writable, hwrote.ordered, room_enclosed.mpr hwrote.room, hwrote.used.enclosed⟩
    rw [hbyte htag, hwrote.wire]
    rfl
  case h_11 => cases h

theorem read_sound (levels : ℕ) : Sound b levels (Value.read b levels) := by
  induction levels with
  | zero =>
    intro input m p _ h
    cases h
  | succ levels ih =>
    intro input m p h0 h
    rw [Value.read] at h
    obtain ⟨n, hn, h⟩ := bind_eq_ok.mp h
    obtain ⟨-, hnodes, rfl⟩ := node_eq_ok.mp hn
    cases input with
    | nil => cases h
    | cons byte rest => exact readTagged_sound ih h0 hnodes h

/-! ## The codec -/

/-- What `encode` writes. -/
theorem encode_eq_ok {value : Value} {limits : Limits} {max : ℕ} {input : Binary} :
    encode value limits max = .ok input ↔ (limits? limits = true ∧ max ≤ maxBytes ∧
      value.writable = true ∧ value.cost.height ≤ limits.depth ∧
      value.cost.nodes ≤ limits.outputNodes ∧ value.cost.strings ≤ limits.binaryBytes ∧
      value.cost.bytes ≤ max) ∧ input = wire value := by
  constructor
  · intro h
    obtain ⟨m, hm, h⟩ := bind_eq_ok.mp h
    cases h
    have hchecked := hm
    unfold measure at hchecked
    obtain ⟨hlimits, -⟩ := check_bind_eq_ok.mp hchecked
    rw [Bool.and_eq_true, decide_eq_true_eq] at hlimits
    obtain ⟨hw, h1, h2, h3, h4⟩ := (measure_isOk_iff hlimits.1 hlimits.2).mp ⟨m, hm⟩
    exact ⟨⟨hlimits.1, hlimits.2, hw, h1, h2, h3, h4⟩, rfl⟩
  · rintro ⟨⟨hlimits, hmax, h⟩, rfl⟩
    obtain ⟨m, hm⟩ := (measure_isOk_iff hlimits hmax).mpr h
    exact bind_eq_ok.mpr ⟨m, hm, rfl⟩

/-- What `decode` accepts: the encoding of a value in order that the limits cover. -/
theorem decode_eq_ok {value : Value} {limits : Limits} {input : Binary} :
    decode input limits = .ok value ↔
      value.ordered = true ∧ encode value limits maxBytes = .ok input := by
  have hroom (c : Cost) : Room ⟨limits, maxBytes⟩ limits.depth ⟨0, 0, 0, 0⟩ c ↔
      c.height ≤ limits.depth ∧ c.nodes ≤ limits.outputNodes ∧ c.strings ≤ limits.binaryBytes := by
    constructor
    · rintro ⟨h1, h2, h3⟩
      dsimp only at h2 h3
      exact ⟨h1, by omega, by omega⟩
    · rintro ⟨h1, h2, h3⟩
      exact ⟨h1, by dsimp only; omega, by dsimp only; omega⟩
  rw [encode_eq_ok]
  constructor
  · intro h
    obtain ⟨hlimits, h⟩ := check_bind_eq_ok.mp h
    obtain ⟨hsize, h⟩ := check_bind_eq_ok.mp h
    obtain ⟨parse, hparse, h⟩ := bind_eq_ok.mp h
    obtain ⟨hrest, h⟩ := check_bind_eq_ok.mp h
    cases h
    have hwrote := read_sound limits.depth input _ parse ((hroom .empty).mpr (by simp [Cost.empty])) hparse
    have hinput : input = wire parse.value := by
      have hwire := hwrote.wire
      rwa [of_decide_eq_true hrest, List.append_nil] at hwire
    obtain ⟨h1, h2, h3⟩ := (hroom _).mp hwrote.room
    refine ⟨hwrote.ordered, ⟨hlimits, le_rfl, hwrote.writable, h1, h2, h3, ?_⟩, hinput⟩
    rw [← length_wire hwrote.writable, ← hinput]
    exact of_decide_eq_true hsize
  · rintro ⟨ho, ⟨hlimits, -, hw, h1, h2, h3, h4⟩, rfl⟩
    obtain ⟨m', hread, -⟩ := read_wire hw ho h4 ((hroom _).mpr ⟨h1, h2, h3⟩) []
    rw [List.append_nil] at hread
    refine check_bind_eq_ok.mpr ⟨hlimits, check_bind_eq_ok.mpr ⟨decide_eq_true ?_,
      bind_eq_ok.mpr ⟨_, hread, check_bind_eq_ok.mpr ⟨rfl, rfl⟩⟩⟩⟩
    rwa [length_wire hw]

/-- What is encoded is decoded, under the same limits. -/
theorem decode_encode {value : Value} {limits : Limits} {max : ℕ} {input : Binary}
    (ho : value.ordered = true) (h : encode value limits max = .ok input) :
    decode input limits = .ok value := by
  obtain ⟨⟨hlimits, hmax, hw, h1, h2, h3, h4⟩, rfl⟩ := encode_eq_ok.mp h
  exact decode_eq_ok.mpr ⟨ho,
    encode_eq_ok.mpr ⟨⟨hlimits, le_rfl, hw, h1, h2, h3, h4.trans hmax⟩, rfl⟩⟩

/-- Bytes after a value are refused. -/
theorem decode_append {value : Value} {limits : Limits} {input extra : Binary}
    (h : decode input limits = .ok value) (hextra : extra ≠ []) :
    decode (input ++ extra) limits = .error
      (if (input ++ extra).length ≤ maxBytes then .trailingBytes else .payloadHardLimit) := by
  obtain ⟨ho, henc⟩ := decode_eq_ok.mp h
  obtain ⟨⟨hlimits, -, hw, h1, h2, h3, h4⟩, rfl⟩ := encode_eq_ok.mp henc
  have hroom : Room ⟨limits, maxBytes⟩ limits.depth ⟨0, 0, 0, 0⟩ value.cost :=
    ⟨h1, by dsimp only; omega, by dsimp only; omega⟩
  obtain ⟨m', hread, -⟩ := read_wire hw ho h4 hroom extra
  rw [decode, hlimits, check_true, ok_bind]
  split
  case isTrue hsize => rw [decide_eq_true hsize, check_true, ok_bind, hread, ok_bind,
      decide_eq_false hextra, check_false, error_bind]
  case isFalse hsize => rw [decide_eq_false hsize, check_false, error_bind]

/-- **The codec is canonical.** What is encoded is decoded to the same term under the same limits, with
nothing left over; what is decoded is encoded to the same bytes, so that no term has two encodings; and
nothing may follow an encoding. -/
theorem codec_canonical (limits : Limits) :
    (∀ (term : Term) (max : ℕ) (input : Binary),
      encode term.value limits max = .ok input → decode input limits = .ok term.value) ∧
    ∀ (input : Binary) (value : Value), decode input limits = .ok value →
      (value.ordered = true ∧ encode value limits maxBytes = .ok input) ∧
      (∀ other, decode other limits = .ok value → other = input) ∧
      ∀ extra, extra ≠ [] → decode (input ++ extra) limits = .error
        (if (input ++ extra).length ≤ maxBytes then .trailingBytes else .payloadHardLimit) := by
  refine ⟨fun term max input h ↦ decode_encode term.ordered h, fun input value h ↦
    ⟨decode_eq_ok.mp h, fun other hother ↦ ?_, fun extra hextra ↦ decode_append h hextra⟩⟩
  have hfirst := (decode_eq_ok.mp h).2
  have hsecond := (decode_eq_ok.mp hother).2
  rw [hfirst] at hsecond
  exact (Except.ok.inj hsecond).symm

/-- A map in order, with a list, a negative integer, a float and a carrier in it. -/
def sampleValue : Value :=
  .map [(.str (text "a"), .list [.int (-1), .int 7, .float 0x3FF0000000000000]),
    (.str (text "b"), .bytes [0, 255])]

theorem sampleValue_ordered : sampleValue.ordered = true := by decide +kernel

def sampleTerm : Term := ⟨sampleValue, sampleValue_ordered⟩

theorem codec_canonical_sample :
    decode (wire sampleTerm.value) defaults = .ok sampleTerm.value ∧
      decode (wire sampleTerm.value ++ [0]) defaults = .error .trailingBytes := by
  have hdecoded : decode (wire sampleTerm.value) defaults = .ok sampleTerm.value :=
    (codec_canonical defaults).1 sampleTerm maxBytes _ (by decide +kernel)
  refine ⟨hdecoded, ?_⟩
  rw [((codec_canonical defaults).2 _ _ hdecoded).2.2 [0] (by decide)]
  rfl

end Tay.Value
