import Mathlib.Algebra.BigOperators.Group.List.Basic
import Mathlib.Algebra.BigOperators.Ring.List
import Mathlib.Algebra.Order.BigOperators.Group.List
import Mathlib.Algebra.Order.Group.Int
import Mathlib.Algebra.Ring.Int.Defs
import Mathlib.Data.List.Perm.Basic
import Tay.Foundation.Table

/-!
# What the entries of a map amount to

The sum of a weight over the entries of a map is what an account kept beside the map should be equal
to. An update moves it by the difference of the two entries, and any list of the same entries has the
same sum.
-/

namespace Foundation

namespace Table

variable {α β : Type} [Ord α] [Std.TransOrd α] [Std.LawfulEqOrd α]
  (f : β → ℤ) (t : Std.ExtTreeMap α β compare)

/-- The sum of a weight over the entries. -/
def total : ℤ := (t.toList.map fun e ↦ f e.2).sum

theorem nodup_toList : t.toList.Nodup :=
  (Std.ExtTreeMap.distinct_keys_toList (t := t)).imp fun hne heq ↦
    hne (Std.LawfulEqCmp.compare_eq_iff_eq.mpr (congrArg Prod.fst heq))

theorem total_empty : total f (∅ : Std.ExtTreeMap α β compare) = 0 := by
  have hnil : (∅ : Std.ExtTreeMap α β compare).toList = [] := by
    refine List.eq_nil_iff_forall_not_mem.mpr fun e he ↦ ?_
    rw [Std.ExtTreeMap.mem_toList_iff_getElem?_eq_some] at he
    simp at he
  rw [total, hnil]
  rfl

/-- Two maps that weigh alike everywhere. -/
theorem total_congr {g : β → ℤ} {t' : Std.ExtTreeMap α β compare}
    (h : ∀ k : α, (t'[k]?).map g = (t[k]?).map f) : total g t' = total f t := by
  have hsame : t'.map (fun _ v ↦ g v) = t.map fun _ v ↦ f v := by
    apply Std.ExtTreeMap.ext_getElem?
    intro k
    rw [Std.ExtTreeMap.getElem?_map, Std.ExtTreeMap.getElem?_map]
    exact h k
  have hmap : ∀ (w : β → ℤ) (s : Std.ExtTreeMap α β compare),
      total w s = ((s.map fun _ v ↦ w v).toList.map Prod.snd).sum := by
    intro w s
    rw [total, Std.ExtTreeMap.toList_map, List.map_map]
    rfl
  rw [hmap, hmap, hsame]

omit [Std.LawfulEqOrd α] in
theorem total_nonneg (hf : ∀ v, 0 ≤ f v) : 0 ≤ total f t :=
  List.sum_nonneg fun y hy ↦ by
    obtain ⟨e, -, rfl⟩ := List.mem_map.mp hy
    exact hf e.2

omit [Std.LawfulEqOrd α] in
theorem total_add (g : β → ℤ) : total (fun v ↦ f v + g v) t = total f t + total g t :=
  List.sum_map_add

theorem total_mono {f g : β → ℤ} {t : Std.ExtTreeMap α β compare}
    (h : ∀ (k : α) (v : β), t[k]? = some v → f v ≤ g v) : total f t ≤ total g t :=
  List.sum_le_sum fun e he ↦ h e.1 e.2 (Std.ExtTreeMap.mem_toList_iff_getElem?_eq_some.mp he)

omit [Std.LawfulEqOrd α] in
/-- The entries of some classes, class by class. -/
theorem sum_classes {κ : Type} [DecidableEq κ] (cls : β → Option κ) {ks : List κ} (hks : ks.Nodup) :
    (ks.map fun k ↦ total (fun v ↦ if cls v = some k then f v else 0) t).sum =
      total (fun v ↦ if cls v ∈ ks.map some then f v else 0) t := by
  induction ks with
  | nil =>
    rw [List.map_nil, List.sum_nil, total]
    exact (List.sum_eq_zero fun y hy ↦ by
      obtain ⟨e, -, rfl⟩ := List.mem_map.mp hy
      exact if_neg List.not_mem_nil).symm
  | cons k ks ih =>
    obtain ⟨hk, hks⟩ := List.nodup_cons.mp hks
    rw [List.map_cons, List.sum_cons, ih hks, ← total_add]
    congr 1
    funext v
    rw [List.map_cons]
    by_cases hv : cls v = some k
    · have hout : cls v ∉ ks.map some := by
        rw [hv, List.mem_map]
        rintro ⟨k', hk', heq⟩
        exact hk (Option.some.inj heq ▸ hk')
      rw [if_pos hv, if_neg hout, if_pos (List.mem_cons.mpr (.inl hv)), add_zero]
    · rw [if_neg hv, zero_add]
      congr 1
      rw [List.mem_cons, eq_iff_iff, or_iff_right hv]

/-- A map whose entries are found in another one, and weigh no more there. -/
theorem total_le {f g : β → ℤ} {s t : Std.ExtTreeMap α β compare} (hg : ∀ v, 0 ≤ g v)
    (h : ∀ (k : α) (v : β), s[k]? = some v → ∃ w, t[k]? = some w ∧ f v ≤ g w) : total f s ≤ total g t := by
  have hkeys : ∀ u : Std.ExtTreeMap α β compare, (u.toList.map Prod.fst).Nodup := fun u ↦
    List.pairwise_map.mpr (Std.ExtTreeMap.distinct_keys_toList.imp fun hne heq ↦
      hne (Std.LawfulEqCmp.compare_eq_iff_eq.mpr heq))
  have hmem : ∀ {u : Std.ExtTreeMap α β compare} {e : α × β}, e ∈ u.toList → u[e.1]? = some e.2 :=
    Std.ExtTreeMap.mem_toList_iff_getElem?_eq_some.mp
  have hweigh : ∀ u : Std.ExtTreeMap α β compare,
      total g u = ((u.toList.map Prod.fst).map fun k ↦ (u[k]?).elim 0 g).sum := by
    intro u
    rw [total, List.map_map]
    refine congrArg List.sum (List.map_congr_left fun e he ↦ ?_)
    rw [Function.comp_apply, hmem he]
    rfl
  have hkeep : s.toList.map Prod.fst ⊆ t.toList.map Prod.fst := fun k hk ↦ by
    obtain ⟨e, he, rfl⟩ := List.mem_map.mp hk
    obtain ⟨w, hw, -⟩ := h e.1 e.2 (hmem he)
    exact List.mem_map.mpr ⟨(e.1, w), Std.ExtTreeMap.mem_toList_iff_getElem?_eq_some.mpr hw, rfl⟩
  obtain ⟨l, hperm, hsub⟩ := (hkeys s).subperm hkeep
  calc total f s
      ≤ ((s.toList.map Prod.fst).map fun k ↦ (t[k]?).elim 0 g).sum := by
        rw [total, List.map_map]
        refine List.sum_le_sum fun e he ↦ ?_
        obtain ⟨w, hw, hle⟩ := h e.1 e.2 (hmem he)
        rw [Function.comp_apply, hw]
        exact hle
    _ = (l.map fun k ↦ (t[k]?).elim 0 g).sum := (hperm.map _).sum_eq.symm
    _ ≤ ((t.toList.map Prod.fst).map fun k ↦ (t[k]?).elim 0 g).sum := by
        refine (hsub.map _).sum_le_sum fun w hw ↦ ?_
        obtain ⟨k, -, rfl⟩ := List.mem_map.mp hw
        cases t[k]? with
        | none => exact le_refl 0
        | some v => exact hg v
    _ = total g t := (hweigh t).symm

omit [Std.LawfulEqOrd α] in
theorem total_mul (c : ℤ) (f : β → ℤ) (t : Std.ExtTreeMap α β compare) :
    total (fun v ↦ c * f v) t = c * total f t :=
  List.sum_map_mul_left t.toList _ c

omit [Std.LawfulEqOrd α] in
theorem total_one : total (fun _ ↦ 1) t = t.size := by
  rw [total, List.map_const', List.sum_replicate, Std.ExtTreeMap.length_toList, nsmul_eq_mul, mul_one]

variable [DecidableEq α]

/-- A fresh entry comes in front of the others. -/
theorem toList_insert_perm {k : α} (v : β) (h : t[k]? = none) :
    (t.insert k v).toList.Perm ((k, v) :: t.toList) := by
  have hout : (k, v) ∉ t.toList := by
    rw [Std.ExtTreeMap.mem_toList_iff_getElem?_eq_some, h]
    exact fun hnone ↦ Option.some_ne_none _ hnone.symm
  refine (List.perm_ext_iff_of_nodup (nodup_toList _) (List.nodup_cons.mpr ⟨hout, nodup_toList t⟩)).mpr ?_
  intro e
  rw [List.mem_cons, Std.ExtTreeMap.mem_toList_iff_getElem?_eq_some,
    Std.ExtTreeMap.mem_toList_iff_getElem?_eq_some, get_insert]
  by_cases hk : k = e.1
  · rw [if_pos hk, ← hk, h, Option.some.injEq]
    constructor
    · intro hv
      exact .inl (Prod.ext hk.symm hv.symm)
    · rintro (he | he)
      · exact (congrArg Prod.snd he).symm
      · cases he
  · rw [if_neg hk]
    constructor
    · exact .inr
    · rintro (he | he)
      · exact absurd (congrArg Prod.fst he).symm hk
      · exact he

theorem total_insert_fresh {k : α} (v : β) (h : t[k]? = none) : total f (t.insert k v) = f v + total f t := by
  have hperm := (toList_insert_perm t v h).map fun e ↦ f e.2
  rw [total, hperm.sum_eq, List.map_cons, List.sum_cons, total]

theorem insert_erase_self {k : α} {v : β} (h : t[k]? = some v) : (t.erase k).insert k v = t := by
  apply Std.ExtTreeMap.ext_getElem?
  intro k'
  rw [get_insert, get_erase]
  by_cases hk : k = k'
  · rw [if_pos hk, ← hk, h]
  · rw [if_neg hk, if_neg hk]

theorem insert_erase_other (k : α) (v : β) : (t.erase k).insert k v = t.insert k v := by
  apply Std.ExtTreeMap.ext_getElem?
  intro k'
  rw [get_insert, get_insert, get_erase]
  by_cases hk : k = k'
  · rw [if_pos hk, if_pos hk]
  · rw [if_neg hk, if_neg hk, if_neg hk]

/-- The entry under a key is replaced. -/
theorem total_insert (k : α) (v : β) :
    total f (t.insert k v) = total f t - (t[k]?).elim 0 f + f v := by
  have hfree : (t.erase k)[k]? = none := by rw [get_erase, if_pos rfl]
  have hnew := total_insert_fresh f (t.erase k) v hfree
  rw [insert_erase_other] at hnew
  cases hold : t[k]? with
  | none =>
    rw [total_insert_fresh f t v hold, Option.elim_none]
    omega
  | some w =>
    have hback := total_insert_fresh f (t.erase k) w hfree
    rw [insert_erase_self t hold] at hback
    rw [hnew, hback, Option.elim_some]
    omega

theorem total_erase {k : α} {v : β} (h : t[k]? = some v) : total f (t.erase k) = total f t - f v := by
  have hfree : (t.erase k)[k]? = none := by rw [get_erase, if_pos rfl]
  have hback := total_insert_fresh f (t.erase k) v hfree
  rw [insert_erase_self t h] at hback
  omega

/-- An entry weighs no more than all of them. -/
theorem le_total (hf : ∀ v, 0 ≤ f v) {k : α} {v : β} (h : t[k]? = some v) : f v ≤ total f t := by
  have hrest := total_nonneg f (t.erase k) hf
  rw [total_erase f t h] at hrest
  omega

/-- Entries put one after another make the map they are the entries of. -/
theorem foldl_insert_eq {l : List (α × β)} (hl : (l.map Prod.fst).Nodup)
    (h : ∀ e, e ∈ l ↔ t[e.1]? = some e.2) : l.foldl (fun t e ↦ t.insert e.1 e.2) ∅ = t := by
  rw [← Std.ExtTreeMap.ofList_eq_foldl]
  have hdistinct : l.Pairwise fun a b ↦ ¬ compare a.1 b.1 = .eq :=
    (List.pairwise_map.mp hl).imp fun hne heq ↦ hne (Std.LawfulEqCmp.compare_eq_iff_eq.mp heq)
  apply Std.ExtTreeMap.ext_getElem?
  intro k
  cases hk : t[k]? with
  | some v => exact Std.ExtTreeMap.getElem?_ofList_of_mem Std.ReflCmp.compare_self hdistinct ((h (k, v)).mpr hk)
  | none =>
    apply Std.ExtTreeMap.getElem?_ofList_of_contains_eq_false
    rw [List.contains_eq_mem, decide_eq_false_iff_not]
    intro hmem
    obtain ⟨e, he, rfl⟩ := List.mem_map.mp hmem
    rw [(h e).mp he] at hk
    cases hk

end Table

end Foundation
