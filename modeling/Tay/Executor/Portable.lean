import Tay.Executor.Protocol

/-!
# What the protocol's limits admit

`validate_value` walks a value with a depth and a number of nodes to spend, and throws where either is spent
or where a scalar or a key is not portable. What it admits does not depend on the order of the walk: a value
is admitted exactly if all of it is portable, it has no more levels than the depth and no more nodes than the
number, and the nodes that remain are those it does not have.
-/

open Foundation

namespace Tay.Protocol

/-- The levels of a value: a scalar has one. -/
def levels : Value → ℕ
  | .list items => 1 + levelsList items
  | .map entries => 1 + levelsMap entries
  | _ => 1
where
  levelsList : List Value → ℕ
    | [] => 0
    | head :: tail => max (levels head) (levelsList tail)
  levelsMap : List (Value × Value) → ℕ
    | [] => 0
    | (_, value) :: next => max (levels value) (levelsMap next)

/-- The nodes of a value: keys are not counted. -/
def nodes : Value → ℕ
  | .list items => 1 + nodesList items
  | .map entries => 1 + nodesMap entries
  | _ => 1
where
  nodesList : List Value → ℕ
    | [] => 0
    | head :: tail => nodes head + nodesList tail
  nodesMap : List (Value × Value) → ℕ
    | [] => 0
    | (_, value) :: next => nodes value + nodesMap next

/-- Every scalar and every key is one that the protocol admits. -/
def portable : Value → Bool
  | .null | .bool _ | .int _ => true
  | .float bits => reflexive bits
  | .str s => Value.validUtf8 s
  | .list items => portableList items
  | .map entries => portableMap entries
  | .bytes _ | .other => false
where
  portableList : List Value → Bool
    | [] => true
    | head :: tail => portable head && portableList tail
  portableMap : List (Value × Value) → Bool
    | [] => true
    | (key, value) :: next => validKey key && portable value && portableMap next

/-- A walk admits a part of a value: it is portable, and the depth and the nodes that are left cover it. -/
structure Admits (ok : Bool) (height count depth left rest : ℕ) : Prop where
  portable : ok = true
  levels : height ≤ depth
  nodes : count + rest = left

theorem levels_pos (value : Value) : 1 ≤ levels value := by
  rw [levels.eq_def]
  split
  · exact Nat.le_add_right 1 _
  · exact Nat.le_add_right 1 _
  · exact le_refl 1

theorem nodes_pos (value : Value) : 1 ≤ nodes value := by
  rw [nodes.eq_def]
  split
  · exact Nat.le_add_right 1 _
  · exact Nat.le_add_right 1 _
  · exact le_refl 1

mutual

theorem validateValue_iff {value : Value} {depth left rest : ℕ} : validateValue value depth left = some rest ↔
    Admits (portable value) (levels value) (nodes value) depth left rest := by
  rw [validateValue.eq_def]
  by_cases hspent : (left == 0 || depth == 0) = true
  · rw [if_pos hspent]
    refine ⟨fun h ↦ (by cases h), fun h ↦ ?_⟩
    have hlevels := (levels_pos value).trans h.levels
    have hnodes := nodes_pos value
    have hleft := h.nodes
    simp only [Bool.or_eq_true, beq_iff_eq] at hspent
    omega
  rw [if_neg hspent]
  simp only [Bool.or_eq_true, beq_iff_eq, not_or] at hspent
  have hscalar : ∀ {ok : Bool}, (if ok = true then some (left - 1) else none) = some rest ↔
      Admits ok 1 1 depth left rest := by
    intro ok
    constructor
    · intro h
      split at h
      case isTrue hok =>
        obtain rfl := Option.some.inj h
        exact ⟨hok, by omega, by omega⟩
      case isFalse => cases h
    · intro h
      have hleft := h.nodes
      rw [if_pos h.portable, ← hleft, Nat.add_sub_cancel_left]
  have hnested : ∀ {ok : Bool} {height count : ℕ}, Admits ok height count (depth - 1) (left - 1) rest ↔
      Admits ok (1 + height) (1 + count) depth left rest := by
    intro ok height count
    constructor
    · intro h
      have hlevels := h.levels
      have hleft := h.nodes
      exact ⟨h.portable, by omega, by omega⟩
    · intro h
      have hlevels := h.levels
      have hleft := h.nodes
      exact ⟨h.portable, by omega, by omega⟩
  cases value with
  | null | bool | int => exact (@hscalar true)
  | float bits => exact hscalar
  | str s => exact hscalar
  | list items => exact validateList_iff.trans hnested
  | map entries => exact validateMap_iff.trans hnested
  | bytes | other => exact ⟨fun h ↦ (by cases h), fun h ↦ (by cases h.portable)⟩

theorem validateList_iff {items : List Value} {depth left rest : ℕ} :
    validateValue.validateList items depth left = some rest ↔
      Admits (portable.portableList items) (levels.levelsList items) (nodes.nodesList items) depth left rest := by
  match items with
  | [] =>
    refine ⟨fun h ↦ ?_, fun h ↦ ?_⟩
    · obtain rfl := Option.some.inj h
      exact ⟨rfl, Nat.zero_le _, Nat.zero_add _⟩
    · exact congrArg some ((Nat.zero_add rest).symm.trans h.nodes).symm
  | head :: tail =>
    rw [validateValue.validateList, Option.bind_eq_bind, Option.bind_eq_some_iff]
    constructor
    · rintro ⟨n, hhead, htail⟩
      have hhead := validateValue_iff.mp hhead
      have htail := validateList_iff.mp htail
      have hleft := hhead.nodes
      have hrest := htail.nodes
      exact ⟨Bool.and_eq_true_iff.mpr ⟨hhead.portable, htail.portable⟩, Nat.max_le.mpr ⟨hhead.levels, htail.levels⟩,
        by rw [nodes.nodesList]; omega⟩
    · intro h
      obtain ⟨hhead, htail⟩ := Bool.and_eq_true_iff.mp h.portable
      obtain ⟨hlevel, hlevels⟩ := Nat.max_le.mp h.levels
      have hleft := h.nodes
      rw [nodes.nodesList] at hleft
      exact ⟨nodes.nodesList tail + rest, validateValue_iff.mpr ⟨hhead, hlevel, by omega⟩,
        validateList_iff.mpr ⟨htail, hlevels, rfl⟩⟩

theorem validateMap_iff {entries : List (Value × Value)} {depth left rest : ℕ} :
    validateValue.validateMap entries depth left = some rest ↔
      Admits (portable.portableMap entries) (levels.levelsMap entries) (nodes.nodesMap entries) depth left rest := by
  match entries with
  | [] =>
    refine ⟨fun h ↦ ?_, fun h ↦ ?_⟩
    · obtain rfl := Option.some.inj h
      exact ⟨rfl, Nat.zero_le _, Nat.zero_add _⟩
    · exact congrArg some ((Nat.zero_add rest).symm.trans h.nodes).symm
  | (key, value) :: next =>
    rw [validateValue.validateMap]
    by_cases hkey : validKey key = true
    · rw [if_pos hkey, Option.bind_eq_bind, Option.bind_eq_some_iff]
      constructor
      · rintro ⟨n, hvalue, hnext⟩
        have hvalue := validateValue_iff.mp hvalue
        have hnext := validateMap_iff.mp hnext
        have hleft := hvalue.nodes
        have hrest := hnext.nodes
        exact ⟨by rw [portable.portableMap, hkey, hvalue.portable, hnext.portable]; rfl,
          Nat.max_le.mpr ⟨hvalue.levels, hnext.levels⟩, by rw [nodes.nodesMap]; omega⟩
      · intro h
        have hportable := h.portable
        rw [portable.portableMap, hkey, Bool.true_and, Bool.and_eq_true] at hportable
        obtain ⟨hlevel, hlevels⟩ := Nat.max_le.mp h.levels
        have hleft := h.nodes
        rw [nodes.nodesMap] at hleft
        exact ⟨nodes.nodesMap next + rest, validateValue_iff.mpr ⟨hportable.1, hlevel, by omega⟩,
          validateMap_iff.mpr ⟨hportable.2, hlevels, rfl⟩⟩
    · rw [if_neg hkey]
      refine ⟨fun h ↦ (by cases h), fun h ↦ ?_⟩
      have hportable := h.portable
      rw [portable.portableMap, Bool.eq_false_of_not_eq_true hkey] at hportable
      cases hportable

end

/-- `json_value?`, without a walk. -/
theorem jsonValue?_iff {value : Value} :
    jsonValue? value = true ↔ portable value = true ∧ levels value ≤ 32 ∧ nodes value ≤ 10000 := by
  rw [jsonValue?, Option.isSome_iff_exists]
  constructor
  · rintro ⟨rest, h⟩
    have h := validateValue_iff.mp h
    exact ⟨h.portable, h.levels, Nat.le.intro h.nodes⟩
  · rintro ⟨hportable, hlevels, hnodes⟩
    exact ⟨10000 - nodes value, validateValue_iff.mpr ⟨hportable, hlevels, Nat.add_sub_cancel' hnodes⟩⟩

/-! ## The order of the entries -/

theorem levelsMap_perm {a b : List (Value × Value)} (h : a.Perm b) : levels.levelsMap a = levels.levelsMap b := by
  induction h with
  | nil => rfl
  | cons x _ ih => rw [levels.levelsMap, levels.levelsMap, ih]
  | swap x y l => rw [levels.levelsMap, levels.levelsMap, levels.levelsMap, levels.levelsMap, Nat.max_left_comm]
  | trans _ _ ih ih' => exact ih.trans ih'

theorem nodesMap_perm {a b : List (Value × Value)} (h : a.Perm b) : nodes.nodesMap a = nodes.nodesMap b := by
  induction h with
  | nil => rfl
  | cons x _ ih => rw [nodes.nodesMap, nodes.nodesMap, ih]
  | swap x y l => rw [nodes.nodesMap, nodes.nodesMap, nodes.nodesMap, nodes.nodesMap, Nat.add_left_comm]
  | trans _ _ ih ih' => exact ih.trans ih'

theorem portableMap_perm {a b : List (Value × Value)} (h : a.Perm b) :
    portable.portableMap a = portable.portableMap b := by
  induction h with
  | nil => rfl
  | cons x _ ih => rw [portable.portableMap, portable.portableMap, ih]
  | swap x y l =>
    rw [portable.portableMap, portable.portableMap, portable.portableMap, portable.portableMap, Bool.and_left_comm]
  | trans _ _ ih ih' => exact ih.trans ih'

end Tay.Protocol
