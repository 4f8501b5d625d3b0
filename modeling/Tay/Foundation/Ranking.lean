import Mathlib.Data.List.Sort
import Mathlib.Order.Basic

/-!
# Sorting by a key

A list sorted by a key that tells its elements apart is determined by its elements alone. So any
rearrangement whose keys ascend *is* the sorted list, and that one fact is the whole interface:
filtering commutes with sorting, and so does any map that keeps the keys in order.
-/

namespace Foundation

variable {α β κ κ' : Type} [LinearOrder κ] [LinearOrder κ']

/-- The elements of `l` by ascending key. -/
def sortBy (k : α → κ) (l : List α) : List α := l.insertionSort fun a b ↦ k a ≤ k b

theorem sortBy_perm (k : α → κ) (l : List α) : (sortBy k l).Perm l := List.perm_insertionSort _ l

@[simp] theorem mem_sortBy {k : α → κ} {l : List α} {a : α} : a ∈ sortBy k l ↔ a ∈ l :=
  (sortBy_perm k l).mem_iff

theorem pairwise_sortBy (k : α → κ) (l : List α) : (sortBy k l).Pairwise fun a b ↦ k a ≤ k b := by
  have : Std.Total fun a b : α ↦ k a ≤ k b := ⟨fun a b ↦ le_total (k a) (k b)⟩
  have : IsTrans α fun a b ↦ k a ≤ k b := ⟨fun _ _ _ ↦ le_trans⟩
  exact List.pairwise_insertionSort _ l

/-- **Uniqueness.** A rearrangement with ascending keys is the sorted list, when keys tell the
elements apart. -/
theorem sortBy_eq {k : α → κ} {l s : List α} (hinj : ∀ a ∈ l, ∀ b ∈ l, k a = k b → a = b)
    (hperm : s.Perm l) (hsorted : s.Pairwise fun a b ↦ k a ≤ k b) : sortBy k l = s := by
  refine List.Perm.eq_of_pairwise ?_ (pairwise_sortBy k l) hsorted
    ((sortBy_perm k l).trans hperm.symm)
  intro a b ha hb hab hba
  exact hinj a (mem_sortBy.mp ha) b (hperm.mem_iff.mp hb) (le_antisymm hab hba)

theorem sortBy_filter {k : α → κ} {l : List α} (hinj : ∀ a ∈ l, ∀ b ∈ l, k a = k b → a = b)
    (p : α → Bool) : sortBy k (l.filter p) = (sortBy k l).filter p := by
  refine sortBy_eq ?_ ((sortBy_perm k l).filter p) ((pairwise_sortBy k l).filter p)
  intro a ha b hb
  exact hinj a (List.mem_of_mem_filter ha) b (List.mem_of_mem_filter hb)

/-- Two keys that order a list alike sort it alike. -/
theorem sortBy_congr {k : α → κ} {k' : α → κ'} {l : List α}
    (hinj : ∀ a ∈ l, ∀ b ∈ l, k' a = k' b → a = b)
    (hkeys : ∀ a ∈ l, ∀ b ∈ l, k a ≤ k b → k' a ≤ k' b) : sortBy k' l = sortBy k l := by
  refine sortBy_eq hinj (sortBy_perm k l) ?_
  refine (pairwise_sortBy k l).imp_of_mem ?_
  intro a b ha hb
  exact hkeys a (mem_sortBy.mp ha) b (mem_sortBy.mp hb)

theorem sortBy_map {k : α → κ} {k' : β → κ'} (f : α → β) {l : List α}
    (hkeys : ∀ a ∈ l, ∀ b ∈ l, k a ≤ k b ↔ k' (f a) ≤ k' (f b)) :
    sortBy k' (l.map f) = (sortBy k l).map f :=
  (List.map_insertionSort _ _ f l hkeys).symm

/-- Where elements stand in a list without repetitions is how their keys compare. -/
theorem sortBy_lt_iff {k : α → κ} {l : List α} (hinj : ∀ a ∈ l, ∀ b ∈ l, k a = k b → a = b) (hnodup : l.Nodup)
    {i j : ℕ} {a b : α} (ha : (sortBy k l)[i]? = some a) (hb : (sortBy k l)[j]? = some b) :
    k a < k b ↔ i < j := by
  have hsorted := List.pairwise_iff_getElem.mp (pairwise_sortBy k l)
  have hplaces : (sortBy k l).Nodup := (sortBy_perm k l).nodup_iff.mpr hnodup
  obtain ⟨hi, rfl⟩ := List.getElem?_eq_some_iff.mp ha
  obtain ⟨hj, rfl⟩ := List.getElem?_eq_some_iff.mp hb
  have hne : i ≠ j → k (sortBy k l)[i] ≠ k (sortBy k l)[j] := by
    intro hij hkey
    have heq := hinj _ (mem_sortBy.mp (List.getElem_mem hi)) _ (mem_sortBy.mp (List.getElem_mem hj)) hkey
    exact hij ((List.Nodup.getElem_inj_iff hplaces).mp heq)
  constructor
  · intro hlt
    by_contra hle
    rcases (not_lt.mp hle).lt_or_eq with hji | rfl
    · exact absurd (hsorted j i hj hi hji) (not_le.mpr hlt)
    · exact lt_irrefl _ hlt
  · intro hij
    exact lt_of_le_of_ne (hsorted i j hi hj hij) (hne hij.ne)

end Foundation
