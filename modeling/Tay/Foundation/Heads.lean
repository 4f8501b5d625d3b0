import Tay.Foundation.Ranking

/-!
# The first of a list, and the first of its groups

A list kept by groups, each sorted by the same key, is searched by looking at the heads of the groups
only. What is found is the first of everything the groups hold: an element that may be taken comes before
any of its group that may not, so a head that may not be taken hides nothing.
-/

namespace Foundation

variable {α β κ : Type} [LinearOrder κ]

/-- A first element by a key. -/
def First (k : α → κ) (l : List α) (a : α) : Prop := a ∈ l ∧ ∀ b ∈ l, k a ≤ k b

variable {k : α → κ} {l : List α} {a b : α}

theorem First.unique (hinj : ∀ a ∈ l, ∀ b ∈ l, k a = k b → a = b) (ha : First k l a)
    (hb : First k l b) : a = b :=
  hinj a ha.1 b hb.1 (le_antisymm (ha.2 b hb.1) (hb.2 a ha.1))

theorem first_of_head? (h : (sortBy k l).head? = some a) : First k l a := by
  have hsorted := pairwise_sortBy k l
  obtain ⟨rest, hrest⟩ := List.head?_eq_some_iff.mp h
  refine ⟨mem_sortBy.mp (List.mem_of_mem_head? h), fun b hb ↦ ?_⟩
  have hmem : b ∈ sortBy k l := mem_sortBy.mpr hb
  rw [hrest] at hsorted hmem
  rcases List.mem_cons.mp hmem with rfl | hb
  · exact le_rfl
  · exact (List.pairwise_cons.mp hsorted).1 b hb

theorem exists_head? (h : b ∈ l) : ∃ a, (sortBy k l).head? = some a := by
  have hne : sortBy k l ≠ [] := List.ne_nil_of_mem (mem_sortBy.mpr h)
  exact ⟨_, List.head?_eq_some_head hne⟩

theorem exists_first (k : α → κ) (h : b ∈ l) : ∃ a, First k l a := by
  obtain ⟨a, ha⟩ : ∃ a, (sortBy k l).head? = some a := exists_head? h
  exact ⟨a, first_of_head? ha⟩

theorem head?_sortBy (hinj : ∀ a ∈ l, ∀ b ∈ l, k a = k b → a = b) :
    (sortBy k l).head? = some a ↔ First k l a := by
  refine ⟨first_of_head?, fun h ↦ ?_⟩
  obtain ⟨b, hb⟩ : ∃ b, (sortBy k l).head? = some b := exists_head? h.1
  rw [hb, (first_of_head? hb).unique hinj h]

/-! ## Groups -/

variable [DecidableEq β]

/-- The head of each group, where it may be taken. -/
def heads (k : α → κ) (group : α → β) (due : α → Bool) (groups : List β) (l : List α) : List α :=
  groups.flatMap fun g ↦
    ((sortBy k (l.filter fun a ↦ decide (group a = g))).head?.filter due).toList

/-- What may be taken from these groups. -/
def takeable (group : α → β) (due : α → Bool) (groups : List β) (l : List α) : List α :=
  l.filter fun a ↦ due a && decide (group a ∈ groups)

variable {group : α → β} {due : α → Bool} {groups : List β}

theorem mem_takeable : a ∈ takeable group due groups l ↔ a ∈ l ∧ due a = true ∧ group a ∈ groups := by
  simp only [takeable, List.mem_filter, Bool.and_eq_true, decide_eq_true_eq]

theorem mem_heads (h : a ∈ heads k group due groups l) :
    a ∈ takeable group due groups l ∧ First k (l.filter fun b ↦ decide (group b = group a)) a := by
  obtain ⟨g, hg, ha⟩ := List.mem_flatMap.mp h
  obtain ⟨hhead, hdue⟩ := Option.filter_eq_some_iff.mp (Option.mem_toList.mp ha)
  have hfirst := first_of_head? hhead
  obtain ⟨hmem, hgroup⟩ := List.mem_filter.mp hfirst.1
  obtain rfl := of_decide_eq_true hgroup
  exact ⟨mem_takeable.mpr ⟨hmem, hdue, hg⟩, hfirst⟩

/-- Whatever may be taken comes after the head of its group, or is it. -/
theorem exists_le_head (hdue : ∀ a ∈ l, ∀ b ∈ l, group a = group b → k a ≤ k b → due b → due a)
    (hb : b ∈ takeable group due groups l) : ∃ a ∈ heads k group due groups l, k a ≤ k b := by
  obtain ⟨hmem, hb, hgroup⟩ := mem_takeable.mp hb
  have hbgroup : b ∈ l.filter fun a ↦ decide (group a = group b) :=
    List.mem_filter.mpr ⟨hmem, decide_eq_true rfl⟩
  obtain ⟨a, hhead⟩ : ∃ a, (sortBy k (l.filter fun a ↦ decide (group a = group b))).head? = some a :=
    exists_head? hbgroup
  have hfirst := first_of_head? hhead
  obtain ⟨hamem, hsame⟩ := List.mem_filter.mp hfirst.1
  have hle := hfirst.2 b hbgroup
  have ha : due a = true := hdue a hamem b hmem (of_decide_eq_true hsame) hle hb
  refine ⟨a, List.mem_flatMap.mpr ⟨group b, hgroup, Option.mem_toList.mpr ?_⟩, hle⟩
  exact Option.filter_eq_some_iff.mpr ⟨hhead, ha⟩

/-- **The first of the heads is the first of all.** -/
theorem first_heads_iff (hinj : ∀ a ∈ l, ∀ b ∈ l, k a = k b → a = b)
    (hdue : ∀ a ∈ l, ∀ b ∈ l, group a = group b → k a ≤ k b → due b → due a) :
    First k (heads k group due groups l) a ↔ First k (takeable group due groups l) a := by
  constructor
  · rintro ⟨ha, hleast⟩
    refine ⟨(mem_heads ha).1, fun b hb ↦ ?_⟩
    obtain ⟨c, hc, hcb⟩ := exists_le_head hdue hb
    exact (hleast c hc).trans hcb
  · rintro ⟨ha, hleast⟩
    refine ⟨?_, fun b hb ↦ hleast b (mem_heads hb).1⟩
    obtain ⟨c, hc, hca⟩ := exists_le_head hdue ha
    have hctake := (mem_heads hc).1
    have heq : k c = k a := le_antisymm hca (hleast c hctake)
    rwa [hinj c (mem_takeable.mp hctake).1 a (mem_takeable.mp ha).1 heq] at hc

end Foundation
