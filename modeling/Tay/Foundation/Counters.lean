import Tay.Foundation.Index
import Tay.Foundation.Total

/-!
# Sums of counters

Counters beside a table, added up over the keys that pass a test, are how many keys that pass the records
of the table carry. When each record carries at most one, they are how many records carry one.
-/

namespace Foundation

variable {α β κ : Type} [Ord α] [Std.TransOrd α] [Std.LawfulEqOrd α]
  [Ord κ] [Std.TransOrd κ] [Std.LawfulEqOrd κ] [DecidableEq κ]

/-- The sum of the counters under the keys that pass a test. -/
def sumWhere (test : κ → Bool) (counts : Std.ExtTreeMap κ ℤ compare) : ℤ :=
  Table.total id (counts.map fun k v ↦ if test k then v else 0)

variable {test : κ → Bool} {counts : Std.ExtTreeMap κ ℤ compare}

theorem sumWhere_empty : sumWhere test (∅ : Std.ExtTreeMap κ ℤ compare) = 0 := by
  have hempty : (∅ : Std.ExtTreeMap κ ℤ compare).map (fun k v ↦ if test k then v else 0) = ∅ := by
    apply Std.ExtTreeMap.ext_getElem?
    intro k
    simp
  rw [sumWhere, hempty, Table.total_empty]

/-- Read from the front. -/
theorem sumWhere_eq_foldl : sumWhere test counts =
    counts.toList.foldl (fun sum e ↦ if test e.1 then sum + e.2 else sum) 0 := by
  have hfold : ∀ (l : List (κ × ℤ)) (a : ℤ), l.foldl (fun sum e ↦ if test e.1 then sum + e.2 else sum) a =
      a + (l.map fun e ↦ if test e.1 then e.2 else 0).sum := by
    intro l
    induction l with
    | nil =>
      intro a
      exact (add_zero a).symm
    | cons e l ih =>
      intro a
      rw [List.foldl_cons, ih, List.map_cons, List.sum_cons]
      split
      · rw [add_assoc]
      · rw [zero_add]
  rw [hfold, zero_add, sumWhere, Table.total, Std.ExtTreeMap.toList_map, List.map_map]
  rfl

theorem sumWhere_bump (counts : Std.ExtTreeMap κ ℤ compare) (k : κ) (n : ℤ) :
    sumWhere test (bump counts k n) = sumWhere test counts + if test k then n else 0 := by
  have hold : (counts.map fun k v ↦ if test k then v else 0)[k]?.elim 0 id =
      if test k then counts[k]?.getD 0 else 0 := by
    rw [Std.ExtTreeMap.getElem?_map]
    cases counts[k]? with
    | none => exact (ite_self 0).symm
    | some v => rfl
  unfold bump
  split
  case isTrue hzero =>
    -- the counter goes
    have hmap : (counts.erase k).map (fun k v ↦ if test k then v else 0) =
        (counts.map fun k v ↦ if test k then v else 0).erase k := by
      apply Std.ExtTreeMap.ext_getElem?
      intro l
      rw [Std.ExtTreeMap.getElem?_map, Table.get_erase, Table.get_erase, Std.ExtTreeMap.getElem?_map]
      by_cases hk : k = l
      · rw [if_pos hk, if_pos hk, Option.map_none]
      · rw [if_neg hk, if_neg hk]
    rw [sumWhere, hmap, sumWhere]
    cases hv : (counts.map fun k v ↦ if test k then v else 0)[k]? with
    | none =>
      have hsame : (counts.map fun k v ↦ if test k then v else 0).erase k =
          counts.map fun k v ↦ if test k then v else 0 := by
        apply Std.ExtTreeMap.ext_getElem?
        intro l
        rw [Table.get_erase]
        split
        case isTrue heq => rw [← heq, hv]
        case isFalse => rfl
      rw [hv] at hold
      rw [hsame]
      simp only [Option.elim_none] at hold
      split
      · rename_i htest
        rw [if_pos htest] at hold
        omega
      · omega
    | some v =>
      rw [hv] at hold
      rw [Table.total_erase _ _ hv]
      simp only [Option.elim_some, id_eq] at hold ⊢
      split
      · rename_i htest
        rw [if_pos htest] at hold
        omega
      · rename_i htest
        rw [if_neg htest] at hold
        omega
  case isFalse =>
    have hmap : (counts.insert k (counts[k]?.getD 0 + n)).map (fun k v ↦ if test k then v else 0) =
        (counts.map fun k v ↦ if test k then v else 0).insert k
          (if test k then counts[k]?.getD 0 + n else 0) := by
      apply Std.ExtTreeMap.ext_getElem?
      intro l
      rw [Std.ExtTreeMap.getElem?_map, Table.get_insert, Table.get_insert, Std.ExtTreeMap.getElem?_map]
      by_cases hk : k = l
      · rw [if_pos hk, if_pos hk, Option.map_some, hk]
      · rw [if_neg hk, if_neg hk]
    rw [sumWhere, hmap, Table.total_insert, hold, sumWhere]
    split
    · simp only [id_eq]
      omega
    · simp only [id_eq]
      omega

theorem sumWhere_bumps {ks : List κ} (n : ℤ) : ∀ counts : Std.ExtTreeMap κ ℤ compare,
    sumWhere test (bumps counts ks n) = sumWhere test counts + ks.countP test * n := by
  induction ks with
  | nil =>
    intro counts
    rw [bumps, List.foldl_nil, List.countP_nil]
    omega
  | cons k ks ih =>
    intro counts
    have hrest := ih (bump counts k n)
    rw [bumps] at hrest
    rw [bumps, List.foldl_cons, hrest, sumWhere_bump, List.countP_cons]
    split
    · push_cast
      rw [add_mul, one_mul]
      omega
    · rw [Nat.add_zero]
      omega

variable {keys : β → List κ} {t : Std.ExtTreeMap α β compare}

/-- **The counters add up** to the records that carry one of the keys. -/
theorem Counts.sumWhere_eq (h : Counts keys t counts) (hkeys : ∀ b, (keys b).Nodup) {p : β → Bool}
    (hone : ∀ b, (keys b).countP test = if p b then 1 else 0) :
    sumWhere test counts = (t.toList.map Prod.snd).countP p := by
  have hfold : ∀ (l : List β) (counts : Std.ExtTreeMap κ ℤ compare),
      sumWhere test (l.foldl (fun acc b ↦ bumps acc (keys b) 1) counts) =
        sumWhere test counts + l.countP p := by
    intro l
    induction l with
    | nil =>
      intro counts
      exact (add_zero _).symm
    | cons b l ih =>
      intro counts
      rw [List.foldl_cons, ih, sumWhere_bumps, hone, List.countP_cons]
      split
      · push_cast
        omega
      · push_cast
        omega
  rw [← h.eq_foldl hkeys, hfold, sumWhere_empty, zero_add]

end Foundation
