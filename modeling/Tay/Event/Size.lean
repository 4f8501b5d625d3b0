import Tay.Event.Value

/-!
# What a value costs

A measurement walks a value with an accumulator and stops at the first limit it exceeds. Here the
cost of a value is a function of the value alone, four numbers, and the measurement succeeds exactly
if every scalar is one that the codec writes and the four numbers fit into what is left of the
budget.

Two of the checks of the walk never decide anything: the lengths are compared with `2 ^ 32`, and a
value that long has already failed the byte bound; the children of a map are counted ahead of
measuring them, which refuses nothing that the nodes themselves would not.
-/

open Foundation

namespace Tay.Value

/-! ## Costs -/

structure Cost where
  /-- The levels the value adds. -/
  height : ℕ
  nodes : ℕ
  /-- The bytes inside its strings, keys included. -/
  strings : ℕ
  /-- The bytes of its encoding. -/
  bytes : ℕ
  deriving DecidableEq, Repr

namespace Cost

def empty : Cost := ⟨0, 0, 0, 0⟩

def leaf (bytes : ℕ) : Cost := ⟨1, 1, 0, bytes⟩

def binary (length : ℕ) : Cost := ⟨1, 1, length, 5 + length⟩

/-- Two values at the same depth. -/
def beside (c d : Cost) : Cost :=
  ⟨max c.height d.height, c.nodes + d.nodes, c.strings + d.strings, c.bytes + d.bytes⟩

/-- A list or a map around its children. -/
def enclosed (c : Cost) : Cost := ⟨1 + c.height, 1 + c.nodes, c.strings, 5 + c.bytes⟩

end Cost

def cost : Value → Cost
  | .null | .bool _ => .leaf 1
  | .int _ | .float _ => .leaf 9
  | .str s | .bytes s => .binary s.length
  | .list items => (costList items).enclosed
  | .map entries => (costMap entries).enclosed
  | .other => .leaf 0
where
  costList : List Value → Cost
    | [] => .empty
    | head :: tail => (cost head).beside (costList tail)
  costMap : List (Value × Value) → Cost
    | [] => .empty
    | (key, value) :: next => (cost key).beside ((cost value).beside (costMap next))

/-- Every scalar is one the codec writes: integers of 64 bits, finite floats, valid strings, and
strings for keys. -/
def writable : Value → Bool
  | .null | .bool _ | .bytes _ => true
  | .int n => -9223372036854775808 ≤ n && n ≤ 18446744073709551615
  | .float bits => bits.toNat / 2 ^ 52 % 2048 != 2047
  | .str s => validUtf8 s
  | .list items => writableList items
  | .map entries => writableMap entries
  | .other => false
where
  writableList : List Value → Bool
    | [] => true
    | head :: tail => writable head && writableList tail
  writableMap : List (Value × Value) → Bool
    | [] => true
    | (key, value) :: next => isBinary key && writable key && writable value && writableMap next

/-! ## Affording a cost -/

/-- What is left of the budget, at a depth, covers the cost. -/
structure Affords (b : Budget) (depth : ℕ) (m : Measure) (c : Cost) : Prop where
  depth : depth + c.height ≤ b.limits.depth + 1
  nodes : m.nodes + c.nodes ≤ b.limits.outputNodes
  strings : m.binaryBytes + c.strings ≤ b.limits.binaryBytes
  bytes : m.encodedBytes + c.bytes ≤ b.maxBytes

/-- The totals have grown by the cost. -/
structure Charged (m : Measure) (c : Cost) (m' : Measure) : Prop where
  nodes : m'.nodes = m.nodes + c.nodes
  strings : m'.binaryBytes = m.binaryBytes + c.strings
  bytes : m'.encodedBytes = m.encodedBytes + c.bytes

variable {b : Budget} {depth : ℕ} {m m' : Measure} {c d : Cost}

theorem Charged.refl (m : Measure) : Charged m .empty m := ⟨rfl, rfl, rfl⟩

theorem Charged.trans {m'' : Measure} (h : Charged m c m') (h' : Charged m' d m'') :
    Charged m (c.beside d) m'' := by
  refine ⟨?_, ?_, ?_⟩
  · rw [h'.nodes, h.nodes, Nat.add_assoc]
    rfl
  · rw [h'.strings, h.strings, Nat.add_assoc]
    rfl
  · rw [h'.bytes, h.bytes, Nat.add_assoc]
    rfl

/-- What two costs need, spent one after the other. -/
theorem affords_beside (hcharged : Charged m c m') :
    Affords b depth m (c.beside d) ↔ Affords b depth m c ∧ Affords b depth m' d := by
  obtain ⟨hnodes, hstrings, hbytes⟩ := hcharged
  constructor
  · rintro ⟨h1, h2, h3, h4⟩
    simp only [Cost.beside] at h1 h2 h3 h4
    refine ⟨⟨?_, ?_, ?_, ?_⟩, ⟨?_, ?_, ?_, ?_⟩⟩ <;> omega
  · rintro ⟨⟨h1, h2, h3, h4⟩, ⟨h5, h6, h7, h8⟩⟩
    refine ⟨?_, ?_, ?_, ?_⟩ <;> simp only [Cost.beside] <;> omega

/-- What is left after a cost that was afforded. -/
theorem Affords.spent (h : Affords b depth m c) (hcharged : Charged m c m') :
    Affords b depth m' .empty := by
  obtain ⟨h1, h2, h3, h4⟩ := h
  obtain ⟨hnodes, hstrings, hbytes⟩ := hcharged
  refine ⟨?_, ?_, ?_, ?_⟩ <;> simp only [Cost.empty] <;> omega

/-- What is there before a cost that is afforded. -/
theorem Affords.start (h : Affords b depth m c) : Affords b depth m .empty := by
  obtain ⟨h1, h2, h3, h4⟩ := h
  refine ⟨?_, ?_, ?_, ?_⟩ <;> simp only [Cost.empty] <;> omega

theorem Affords.left (h : Affords b depth m (c.beside d)) : Affords b depth m c := by
  obtain ⟨h1, h2, h3, h4⟩ := h
  simp only [Cost.beside] at h1 h2 h3 h4
  refine ⟨?_, ?_, ?_, ?_⟩ <;> omega

/-! ## The charges -/

theorem node_eq_ok : node b m depth = .ok m' ↔ depth ≤ b.limits.depth ∧
    m.nodes < b.limits.outputNodes ∧
    m' = { m with nodes := m.nodes + 1, depth := max depth m.depth } := by
  simp only [node, check_bind_eq_ok, decide_eq_true_eq, pure_eq_ok, Except.ok.injEq,
    eq_comm (a := m')]

theorem encoded_eq_ok {n : ℕ} : encoded b m n = .ok m' ↔ m.encodedBytes + n ≤ b.maxBytes ∧
    m' = { m with encodedBytes := m.encodedBytes + n } := by
  simp only [encoded, check_bind_eq_ok, decide_eq_true_eq, pure_eq_ok, Except.ok.injEq,
    eq_comm (a := m')]

theorem binaryCharge_eq_ok {n : ℕ} : binaryCharge b m n = .ok m' ↔ n ≤ 4294967295 ∧
    m.binaryBytes + n ≤ b.limits.binaryBytes ∧
    m' = { m with binaryBytes := m.binaryBytes + n } := by
  simp only [binaryCharge, check_bind_eq_ok, decide_eq_true_eq, pure_eq_ok, Except.ok.injEq,
    eq_comm (a := m')]

theorem children_eq_ok {n : ℕ} :
    children b m n = .ok m' ↔ m.nodes + n ≤ b.limits.outputNodes ∧ m' = m := by
  simp only [children, check_bind_eq_ok, decide_eq_true_eq, pure_eq_ok, Except.ok.injEq,
    eq_comm (a := m')]

/-- Around the children of a list or a map: the node and its five bytes come first. -/
theorem affords_enclosed {n : Measure} (hnode : Charged m (.leaf 5) n) :
    Affords b depth m c.enclosed ↔ Affords b depth m (.leaf 5) ∧ Affords b (depth + 1) n c := by
  obtain ⟨hnodes, hstrings, hbytes⟩ := hnode
  simp only [Cost.leaf] at hnodes hstrings hbytes
  constructor
  · rintro ⟨h1, h2, h3, h4⟩
    simp only [Cost.enclosed] at h1 h2 h3 h4
    constructor
    · refine ⟨?_, ?_, ?_, ?_⟩ <;> simp only [Cost.leaf] <;> omega
    · refine ⟨?_, ?_, ?_, ?_⟩ <;> omega
  · rintro ⟨⟨h1, h2, h3, h4⟩, ⟨h5, h6, h7, h8⟩⟩
    refine ⟨?_, ?_, ?_, ?_⟩ <;> simp only [Cost.enclosed] <;> omega

/-- What is left for the children of a node. -/
theorem Affords.inside (h : Affords b depth m (.leaf 5)) (hcharged : Charged m (.leaf 5) m') :
    Affords b (depth + 1) m' .empty :=
  -- A node without children is enclosed nothing.
  ((affords_enclosed hcharged).mp (show Affords b depth m Cost.empty.enclosed from h)).2

theorem Charged.enclosed {n : Measure} (hnode : Charged m (.leaf 5) n) (h : Charged n c m') :
    Charged m c.enclosed m' := by
  obtain ⟨h1, h2, h3⟩ := hnode
  obtain ⟨h4, h5, h6⟩ := h
  simp only [Cost.leaf] at h1 h2 h3
  refine ⟨?_, ?_, ?_⟩ <;> simp only [Cost.enclosed] <;> omega

/-! ## What a success says -/

/-- The value is writable, its cost was afforded, and it is what the totals grew by. -/
structure Measured (b : Budget) (depth : ℕ) (m : Measure) (w : Bool) (c : Cost) (m' : Measure) :
    Prop where
  writable : w = true
  affords : Affords b depth m c
  charged : Charged m c m'

mutual

theorem measureValue_measured {value : Value} {depth : ℕ} {m m' : Measure}
    (h0 : Affords b depth m .empty)
    (h : measureValue b value depth m = .ok m') :
    Measured b depth m value.writable value.cost m' := by
  obtain ⟨-, -, hstrings, hbytes⟩ := h0
  unfold measureValue at h
  obtain ⟨n, hn, h⟩ := bind_eq_ok.mp h
  obtain ⟨hdepth, hnodes, rfl⟩ := node_eq_ok.mp hn
  cases value with
  | null | bool =>
    obtain ⟨hroom, rfl⟩ := encoded_eq_ok.mp h
    exact ⟨rfl, ⟨by simp only [cost, Cost.leaf]; omega, hnodes, hstrings, hroom⟩, rfl, rfl, rfl⟩
  | int | float =>
    obtain ⟨hscalar, h⟩ := check_bind_eq_ok.mp h
    obtain ⟨hroom, rfl⟩ := encoded_eq_ok.mp h
    exact ⟨hscalar, ⟨by simp only [cost, Cost.leaf]; omega, hnodes, hstrings, hroom⟩, rfl, rfl, rfl⟩
  | str s =>
    obtain ⟨n, hn, h⟩ := bind_eq_ok.mp h
    obtain ⟨-, hlength, rfl⟩ := binaryCharge_eq_ok.mp hn
    obtain ⟨n, hn, h⟩ := bind_eq_ok.mp h
    obtain ⟨hroom, rfl⟩ := encoded_eq_ok.mp hn
    obtain ⟨hvalid, h⟩ := check_bind_eq_ok.mp h
    cases h
    exact ⟨hvalid, ⟨by simp only [cost, Cost.binary]; omega, hnodes, hlength, hroom⟩, rfl, rfl, rfl⟩
  | bytes s =>
    obtain ⟨n, hn, h⟩ := bind_eq_ok.mp h
    obtain ⟨-, hlength, rfl⟩ := binaryCharge_eq_ok.mp hn
    obtain ⟨hroom, rfl⟩ := encoded_eq_ok.mp h
    exact ⟨rfl, ⟨by simp only [cost, Cost.binary]; omega, hnodes, hlength, hroom⟩, rfl, rfl, rfl⟩
  | list items =>
    obtain ⟨n, hn, h⟩ := bind_eq_ok.mp h
    obtain ⟨hroom, rfl⟩ := encoded_eq_ok.mp hn
    have hnode : Affords b depth m (.leaf 5) :=
      ⟨by simp only [Cost.leaf]; omega, hnodes, hstrings, hroom⟩
    have hcharged : Charged m (.leaf 5)
      ⟨max depth m.depth, m.nodes + 1, m.binaryBytes, m.encodedBytes + 5⟩ := ⟨rfl, rfl, rfl⟩
    have hitems := measureList_measured (hnode.inside hcharged) h
    exact ⟨hitems.writable, (affords_enclosed hcharged).mpr ⟨hnode, hitems.affords⟩,
      hcharged.enclosed hitems.charged⟩
  | map entries =>
    obtain ⟨-, h⟩ := check_bind_eq_ok.mp h
    obtain ⟨n, hn, h⟩ := bind_eq_ok.mp h
    obtain ⟨hroom, rfl⟩ := encoded_eq_ok.mp hn
    obtain ⟨n, hn, h⟩ := bind_eq_ok.mp h
    obtain ⟨-, rfl⟩ := children_eq_ok.mp hn
    have hnode : Affords b depth m (.leaf 5) :=
      ⟨by simp only [Cost.leaf]; omega, hnodes, hstrings, hroom⟩
    have hcharged : Charged m (.leaf 5)
      ⟨max depth m.depth, m.nodes + 1, m.binaryBytes, m.encodedBytes + 5⟩ := ⟨rfl, rfl, rfl⟩
    have hentries := measureMap_measured (hnode.inside hcharged) h
    exact ⟨hentries.writable, (affords_enclosed hcharged).mpr ⟨hnode, hentries.affords⟩,
      hcharged.enclosed hentries.charged⟩
  | other => cases h

theorem measureList_measured {items : List Value} {depth : ℕ} {m m' : Measure} {i : ℕ}
    (h0 : Affords b depth m .empty)
    (h : measureValue.measureList b items depth m i = .ok m') :
    Measured b depth m (writable.writableList items) (cost.costList items) m' := by
  unfold measureValue.measureList at h
  match items with
  | [] =>
    cases h
    exact ⟨rfl, h0, .refl m⟩
  | head :: tail =>
    obtain ⟨-, h⟩ := check_bind_eq_ok.mp h
    obtain ⟨n, hn, h⟩ := bind_eq_ok.mp h
    have hhead := measureValue_measured h0 hn
    have htail := measureList_measured (hhead.affords.spent hhead.charged) h
    refine ⟨?_, (affords_beside hhead.charged).mpr ⟨hhead.affords, htail.affords⟩,
      hhead.charged.trans htail.charged⟩
    simp only [writable.writableList, hhead.writable, htail.writable, Bool.and_self]

theorem measureMap_measured {entries : List (Value × Value)} {depth : ℕ} {m m' : Measure}
    (h0 : Affords b depth m .empty)
    (h : measureValue.measureMap b entries depth m = .ok m') :
    Measured b depth m (writable.writableMap entries) (cost.costMap entries) m' := by
  unfold measureValue.measureMap at h
  match entries with
  | [] =>
    cases h
    exact ⟨rfl, h0, .refl m⟩
  | (key, value) :: next =>
    obtain ⟨hbinary, h⟩ := check_bind_eq_ok.mp h
    obtain ⟨n, hn, h⟩ := bind_eq_ok.mp h
    obtain ⟨n', hn', h⟩ := bind_eq_ok.mp h
    have hkey := measureValue_measured h0 hn
    have hvalue := measureValue_measured (hkey.affords.spent hkey.charged) hn'
    have hnext := measureMap_measured (hvalue.affords.spent hvalue.charged) h
    refine ⟨?_, ?_, hkey.charged.trans (hvalue.charged.trans hnext.charged)⟩
    · simp only [writable.writableMap, hbinary, hkey.writable, hvalue.writable, hnext.writable,
        Bool.and_self]
    · exact (affords_beside hkey.charged).mpr ⟨hkey.affords,
        (affords_beside hvalue.charged).mpr ⟨hvalue.affords, hnext.affords⟩⟩

end

/-! ## What a success needs -/

/-- An item costs at least a byte, unless it is no value of the codec. -/
theorem bytes_pos {value : Value} (h : value.writable = true) : 0 < value.cost.bytes := by
  cases value with
  | other => cases h
  | null | bool | int | float => exact Nat.zero_lt_succ _
  | str s | bytes s =>
    simp only [cost, Cost.binary]
    omega
  | list items | map items =>
    simp only [cost, Cost.enclosed]
    omega

theorem nodes_pos (value : Value) : 0 < value.cost.nodes := by
  cases value with
  | null | bool | int | float | str | bytes | other => exact Nat.zero_lt_one
  | list | map =>
    simp only [cost, Cost.enclosed]
    omega

theorem height_pos (value : Value) : 0 < value.cost.height := by
  cases value with
  | null | bool | int | float | str | bytes | other => exact Nat.zero_lt_one
  | list | map =>
    simp only [cost, Cost.enclosed]
    omega

theorem length_le_list : ∀ {items : List Value}, writable.writableList items = true →
    items.length ≤ (cost.costList items).bytes
  | [], _ => Nat.zero_le _
  | head :: tail, h => by
    simp only [writable.writableList, Bool.and_eq_true] at h
    have hhead := bytes_pos h.1
    have htail := length_le_list h.2
    simp only [cost.costList, Cost.beside, List.length_cons]
    omega

theorem length_le_map : ∀ {entries : List (Value × Value)}, writable.writableMap entries = true →
    entries.length ≤ (cost.costMap entries).bytes ∧
      2 * entries.length ≤ (cost.costMap entries).nodes
  | [], _ => ⟨Nat.zero_le _, Nat.zero_le _⟩
  | (key, value) :: next, h => by
    simp only [writable.writableMap, Bool.and_eq_true] at h
    have hbytes := bytes_pos h.1.2
    have hkey := nodes_pos key
    have hvalue := nodes_pos value
    have hnext := length_le_map h.2
    simp only [cost.costMap, Cost.beside, List.length_cons]
    omega

/-- Within the byte bound a string is far below the length a prefix can carry. -/
theorem binary_length (hb : b.maxBytes ≤ maxBytes) {used n : ℕ}
    (h : used + (5 + n) ≤ b.maxBytes) : n ≤ 4294967295 := by
  unfold maxBytes at hb
  omega

/-- A node that is afforded is counted. -/
theorem node_of_affords (h : Affords b depth m c) (hheight : 0 < c.height) (hnodes : 0 < c.nodes) :
    node b m depth = .ok { m with nodes := m.nodes + 1, depth := max depth m.depth } := by
  obtain ⟨h1, h2, -, -⟩ := h
  exact node_eq_ok.mpr ⟨by omega, by omega, rfl⟩

mutual

theorem measureValue_of_affords (hb : b.maxBytes ≤ maxBytes) {value : Value} {depth : ℕ}
    {m : Measure} (hw : value.writable = true) (h : Affords b depth m value.cost) :
    ∃ m', measureValue b value depth m = .ok m' := by
  unfold measureValue
  cases value with
  | null | bool =>
    rw [node_of_affords h Nat.zero_lt_one Nat.zero_lt_one, ok_bind]
    exact ⟨_, encoded_eq_ok.mpr ⟨h.bytes, rfl⟩⟩
  | int | float =>
    rw [node_of_affords h Nat.zero_lt_one Nat.zero_lt_one, ok_bind]
    exact ⟨_, check_bind_eq_ok.mpr ⟨hw, encoded_eq_ok.mpr ⟨h.bytes, rfl⟩⟩⟩
  | str s =>
    rw [node_of_affords h Nat.zero_lt_one Nat.zero_lt_one, ok_bind]
    have hlength := binary_length hb h.bytes
    exact ⟨_, bind_eq_ok.mpr ⟨_, binaryCharge_eq_ok.mpr ⟨hlength, h.strings, rfl⟩,
      bind_eq_ok.mpr ⟨_, encoded_eq_ok.mpr ⟨h.bytes, rfl⟩, check_bind_eq_ok.mpr ⟨hw, rfl⟩⟩⟩⟩
  | bytes s =>
    rw [node_of_affords h Nat.zero_lt_one Nat.zero_lt_one, ok_bind]
    have hlength := binary_length hb h.bytes
    exact ⟨_, bind_eq_ok.mpr ⟨_, binaryCharge_eq_ok.mpr ⟨hlength, h.strings, rfl⟩,
      encoded_eq_ok.mpr ⟨h.bytes, rfl⟩⟩⟩
  | list items =>
    have hcharged : Charged m (.leaf 5)
      ⟨max depth m.depth, m.nodes + 1, m.binaryBytes, m.encodedBytes + 5⟩ := ⟨rfl, rfl, rfl⟩
    obtain ⟨hnode, hitems⟩ := (affords_enclosed hcharged).mp h
    have hcount : 0 + items.length ≤ 4294967295 := by
      have := length_le_list hw
      have := hitems.bytes
      unfold maxBytes at hb
      omega
    obtain ⟨m', hm'⟩ := measureList_of_affords hb hw hitems hcount
    rw [node_of_affords hnode Nat.zero_lt_one Nat.zero_lt_one, ok_bind]
    exact ⟨m', bind_eq_ok.mpr ⟨_, encoded_eq_ok.mpr ⟨hnode.bytes, rfl⟩, hm'⟩⟩
  | map entries =>
    have hcharged : Charged m (.leaf 5)
      ⟨max depth m.depth, m.nodes + 1, m.binaryBytes, m.encodedBytes + 5⟩ := ⟨rfl, rfl, rfl⟩
    obtain ⟨hnode, hentries⟩ := (affords_enclosed hcharged).mp h
    obtain ⟨hbytes, hnodes⟩ := length_le_map hw
    have hcount : entries.length ≤ 4294967295 := by
      have := hentries.bytes
      unfold maxBytes at hb
      omega
    have hchildren : m.nodes + 1 + 2 * entries.length ≤ b.limits.outputNodes := by
      have := hentries.nodes
      dsimp only at this
      omega
    obtain ⟨m', hm'⟩ := measureMap_of_affords hb hw hentries
    rw [node_of_affords hnode Nat.zero_lt_one Nat.zero_lt_one, ok_bind]
    exact ⟨m', check_bind_eq_ok.mpr ⟨decide_eq_true hcount,
      bind_eq_ok.mpr ⟨_, encoded_eq_ok.mpr ⟨hnode.bytes, rfl⟩,
        bind_eq_ok.mpr ⟨_, children_eq_ok.mpr ⟨hchildren, rfl⟩, hm'⟩⟩⟩⟩
  | other => cases hw

theorem measureList_of_affords (hb : b.maxBytes ≤ maxBytes) {items : List Value} {depth : ℕ}
    {m : Measure} {i : ℕ} (hw : writable.writableList items = true)
    (h : Affords b depth m (cost.costList items)) (hi : i + items.length ≤ 4294967295) :
    ∃ m', measureValue.measureList b items depth m i = .ok m' := by
  unfold measureValue.measureList
  match items with
  | [] => exact ⟨m, rfl⟩
  | head :: tail =>
    simp only [writable.writableList, Bool.and_eq_true] at hw
    obtain ⟨n, hn⟩ := measureValue_of_affords hb hw.1 h.left
    have hhead := measureValue_measured h.start hn
    obtain ⟨m', hm'⟩ := measureList_of_affords hb hw.2
      ((affords_beside hhead.charged).mp h).2 (i := i + 1) (by rw [List.length_cons] at hi; omega)
    exact ⟨m', check_bind_eq_ok.mpr ⟨by rw [List.length_cons] at hi; simp; omega,
      bind_eq_ok.mpr ⟨n, hn, hm'⟩⟩⟩

theorem measureMap_of_affords (hb : b.maxBytes ≤ maxBytes) {entries : List (Value × Value)}
    {depth : ℕ} {m : Measure} (hw : writable.writableMap entries = true)
    (h : Affords b depth m (cost.costMap entries)) :
    ∃ m', measureValue.measureMap b entries depth m = .ok m' := by
  unfold measureValue.measureMap
  match entries with
  | [] => exact ⟨m, rfl⟩
  | (key, value) :: next =>
    simp only [writable.writableMap, Bool.and_eq_true] at hw
    obtain ⟨⟨⟨hbinary, hkey⟩, hvalue⟩, hnext⟩ := hw
    obtain ⟨n, hn⟩ := measureValue_of_affords hb hkey h.left
    have hrest := ((affords_beside (measureValue_measured h.start hn).charged).mp h).2
    obtain ⟨n', hn'⟩ := measureValue_of_affords hb hvalue hrest.left
    have hlast := ((affords_beside (measureValue_measured hrest.start hn').charged).mp hrest).2
    obtain ⟨m', hm'⟩ := measureMap_of_affords hb hnext hlast
    exact ⟨m', check_bind_eq_ok.mpr ⟨hbinary,
      bind_eq_ok.mpr ⟨n, hn, bind_eq_ok.mpr ⟨n', hn', hm'⟩⟩⟩⟩

end

/-- **A measurement succeeds exactly if the value is writable and its cost is within the budget.** -/
theorem measure_isOk_iff {value : Value} {limits : Limits} {max : ℕ}
    (hlimits : limits? limits = true) (hmax : max ≤ maxBytes) :
    (∃ m, measure value limits max = .ok m) ↔ value.writable = true ∧
      value.cost.height ≤ limits.depth ∧ value.cost.nodes ≤ limits.outputNodes ∧
      value.cost.strings ≤ limits.binaryBytes ∧ value.cost.bytes ≤ max := by
  have hcheck : (limits? limits && decide (max ≤ maxBytes)) = true := by simp [hlimits, hmax]
  have haffords : ∀ c : Cost, Affords ⟨limits, max⟩ 1 ⟨0, 0, 0, 0⟩ c ↔ c.height ≤ limits.depth ∧
      c.nodes ≤ limits.outputNodes ∧ c.strings ≤ limits.binaryBytes ∧ c.bytes ≤ max := by
    intro c
    constructor
    · rintro ⟨h1, h2, h3, h4⟩
      dsimp only at h1 h2 h3 h4
      exact ⟨by omega, by omega, by omega, by omega⟩
    · rintro ⟨h1, h2, h3, h4⟩
      exact ⟨by dsimp only; omega, by dsimp only; omega, by dsimp only; omega, by dsimp only; omega⟩
  unfold measure
  constructor
  · rintro ⟨m, h⟩
    obtain ⟨-, h⟩ := check_bind_eq_ok.mp h
    have hmeasured := measureValue_measured ((haffords .empty).mpr (by simp [Cost.empty])) h
    exact ⟨hmeasured.writable, (haffords _).mp hmeasured.affords⟩
  · rintro ⟨hw, h⟩
    obtain ⟨m, hm⟩ := measureValue_of_affords hmax hw ((haffords _).mpr h)
    exact ⟨m, check_bind_eq_ok.mpr ⟨hcheck, hm⟩⟩

end Tay.Value
