import Mathlib.Data.Finset.Basic
import Std.Data.ExtTreeMap.Lemmas

/-!
# Ordered maps with a lawful order

Lookups after an update, decided by equality of keys, and the number of entries that satisfy a
predicate. The tally is what a counter kept beside a map should be equal to: one lemma for each
update says by how much it moves.
-/

namespace Foundation

namespace Table

variable {α β : Type} [Ord α] [Std.TransOrd α] [Std.LawfulEqOrd α]

section

variable [DecidableEq α] (t : Std.ExtTreeMap α β compare) (k k' : α)

theorem get_insert (v : β) : (t.insert k v)[k']? = if k = k' then some v else t[k']? := by
  simp only [Std.ExtTreeMap.getElem?_insert, Std.LawfulEqCmp.compare_eq_iff_eq]

theorem get_erase : (t.erase k)[k']? = if k = k' then none else t[k']? := by
  simp only [Std.ExtTreeMap.getElem?_erase, Std.LawfulEqCmp.compare_eq_iff_eq]

theorem get_modify (f : β → β) :
    (t.modify k f)[k']? = if k = k' then t[k]?.map f else t[k']? := by
  simp only [Std.ExtTreeMap.getElem?_modify, Std.LawfulEqCmp.compare_eq_iff_eq]

theorem get_foldl_insert (v : β) (ks : List α) : ∀ t : Std.ExtTreeMap α β compare,
    (ks.foldl (fun acc k ↦ acc.insert k v) t)[k']? = if k' ∈ ks then some v else t[k']? := by
  induction ks with
  | nil =>
    intro t
    rfl
  | cons k ks ih =>
    intro t
    rw [List.foldl_cons, ih, get_insert]
    by_cases hk : k = k'
    · subst hk
      simp
    · have hne : ¬k' = k := fun heq ↦ hk heq.symm
      simp [hk, hne]

theorem get_foldl_erase (ks : List α) : ∀ t : Std.ExtTreeMap α β compare,
    (ks.foldl (fun acc k ↦ acc.erase k) t)[k']? = if k' ∈ ks then none else t[k']? := by
  induction ks with
  | nil =>
    intro t
    rfl
  | cons k ks ih =>
    intro t
    rw [List.foldl_cons, ih, get_erase]
    by_cases hk : k = k'
    · subst hk
      simp
    · have hne : ¬k' = k := fun heq ↦ hk heq.symm
      simp [hk, hne]

end

/-- How many entries satisfy a predicate. -/
def tally (p : β → Bool) (t : Std.ExtTreeMap α β compare) : ℕ := (t.filter fun _ v ↦ p v).size

variable {p : β → Bool} {t : Std.ExtTreeMap α β compare} {k : α} {v : β}

@[simp] theorem tally_empty : tally p (∅ : Std.ExtTreeMap α β compare) = 0 := by
  have hempty : (∅ : Std.ExtTreeMap α β compare).filter (fun _ v ↦ p v) = ∅ := by
    apply Std.ExtTreeMap.ext_getElem?
    intro k
    simp
  simp [tally, hempty]

/-- The tally of a map is that of the map without one key, and one more if the entry counts. -/
theorem tally_erase_add (h : t[k]? = some v) :
    tally p (t.erase k) + (if p v then 1 else 0) = tally p t := by
  classical
  have herase : (t.erase k).filter (fun _ v ↦ p v) = (t.filter fun _ v ↦ p v).erase k := by
    apply Std.ExtTreeMap.ext_getElem?
    intro k'
    rw [Std.ExtTreeMap.getElem?_filter', get_erase, get_erase, Std.ExtTreeMap.getElem?_filter']
    split <;> simp
  have hmem : k ∈ (t.filter fun _ v ↦ p v) ↔ p v = true := by
    rw [Std.ExtTreeMap.mem_iff_isSome_getElem?, Std.ExtTreeMap.getElem?_filter', h]
    by_cases hp : p v = true <;> simp [hp]
  unfold tally
  rw [herase, Std.ExtTreeMap.size_erase]
  simp only [← Std.ExtTreeMap.mem_iff_contains]
  by_cases hp : p v = true
  · have hin := hmem.mpr hp
    have hpos : 0 < (t.filter fun _ v ↦ p v).size := by
      refine Nat.pos_of_ne_zero fun hzero ↦ ?_
      have hget := Std.ExtTreeMap.mem_iff_isSome_getElem?.mp hin
      rw [Std.ExtTreeMap.eq_empty_iff_size_eq_zero.mpr hzero] at hget
      simp at hget
    simp only [hin, if_true, hp]
    omega
  · have hout : k ∉ (t.filter fun _ v ↦ p v) := fun hin ↦ hp (hmem.mp hin)
    simp [hout, hp]

theorem tally_insert_fresh (h : t[k]? = none) :
    tally p (t.insert k v) = tally p t + if p v then 1 else 0 := by
  classical
  have hback : (t.insert k v).erase k = t := by
    apply Std.ExtTreeMap.ext_getElem?
    intro k'
    rw [get_erase, get_insert]
    by_cases hk : k = k'
    · rw [if_pos hk, ← hk, h]
    · rw [if_neg hk, if_neg hk]
  rw [← tally_erase_add (t := t.insert k v) Std.ExtTreeMap.getElem?_insert_self, hback]

/-- Two maps with the same keys, whose entries count alike, have the same tally. -/
theorem tally_congr {t' : Std.ExtTreeMap α β compare}
    (h : ∀ k : α, (t'[k]?).map p = (t[k]?).map p) : tally p t' = tally p t := by
  have hkeys : (t'.filter fun _ v ↦ p v).map (fun _ _ ↦ ()) =
      (t.filter fun _ v ↦ p v).map fun _ _ ↦ () := by
    apply Std.ExtTreeMap.ext_getElem?
    intro k
    have hk := h k
    simp only [Std.ExtTreeMap.getElem?_map, Std.ExtTreeMap.getElem?_filter']
    rcases ht : t[k]? with _ | v <;> rcases ht' : t'[k]? with _ | w <;>
      simp only [ht, ht', Option.map_some, Option.map_none, reduceCtorEq, Option.some.injEq] at hk
    · rfl
    · rw [Option.filter_some, Option.filter_some, hk]
      split <;> rfl
  have hsize := congrArg Std.ExtTreeMap.size hkeys
  simpa [tally] using hsize

end Table

end Foundation
