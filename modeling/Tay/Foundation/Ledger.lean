import Tay.Foundation.Total

/-!
# Accounts beside a map

An account shows some items, and each item is to be the sum of a weight over the entries of a map. It is
not added up again: an update that sets the entry of one key takes the old entry's weights off and puts the
new one's on. `Ledger` is that the account is right, for all items at once.
-/

namespace Foundation

variable {α β ι : Type} [Ord α] [Std.TransOrd α]

/-- Every item is the sum of its weight over the entries. -/
def Ledger (w : ι → β → ℤ) (a : ι → ℤ) (t : Std.ExtTreeMap α β compare) : Prop :=
  ∀ i, a i = Table.total (w i) t

/-- Only some entries count. -/
def gate (p : β → Bool) (w : ι → β → ℤ) (i : ι) (v : β) : ℤ := if p v then w i v else 0

namespace Table

variable {f : β → ℤ} {t t' : Std.ExtTreeMap α β compare} {k : α} {o : Option β}

/-- The entry of one key is set, or taken out. -/
theorem total_set [Std.LawfulEqOrd α] [DecidableEq α] (h : ∀ k', t'[k']? = if k = k' then o else t[k']?) :
    total f t' = total f t - (t[k]?).elim 0 f + o.elim 0 f := by
  rcases o with _ | v
  · have herase : t' = t.erase k := by
      apply Std.ExtTreeMap.ext_getElem?
      intro k'
      rw [h, get_erase]
    rcases hk : t[k]? with _ | old
    · have hsame : t' = t := by
        apply Std.ExtTreeMap.ext_getElem?
        intro k'
        rw [h]
        split
        case isTrue heq => rw [← heq, hk]
        case isFalse => rfl
      simp [hsame]
    · rw [herase, total_erase f t hk]
      simp
  · have hinsert : t' = t.insert k v := by
      apply Std.ExtTreeMap.ext_getElem?
      intro k'
      rw [h, get_insert]
    rw [hinsert, total_insert]
    rfl

/-- What a filter drops counts for nothing. -/
theorem total_filter (p : β → Bool) :
    total f (t.filter fun _ v ↦ p v) = total (fun v ↦ if p v then f v else 0) t := by
  rw [total, total, Std.ExtTreeMap.toList_filter]
  induction t.toList with
  | nil => rfl
  | cons e l ih =>
    rw [List.filter_cons]
    split
    case isTrue hp => simp [ih, hp]
    case isFalse hp => simp [ih, hp]

end Table

namespace Ledger

variable {w : ι → β → ℤ} {a a' : ι → ℤ} {t t' : Std.ExtTreeMap α β compare}

theorem set [Std.LawfulEqOrd α] [DecidableEq α] {k : α} {o : Option β} (h : Ledger w a t)
    (ht : ∀ k', t'[k']? = if k = k' then o else t[k']?)
    (ha : ∀ i, a' i = a i - (t[k]?).elim 0 (w i) + o.elim 0 (w i)) : Ledger w a' t' := fun i ↦ by
  rw [ha, h i, Table.total_set ht]

theorem filter_iff {p : β → Bool} : Ledger w a (t.filter fun _ v ↦ p v) ↔ Ledger (gate p w) a t := by
  refine forall_congr' fun i ↦ ?_
  rw [Table.total_filter]
  exact Iff.rfl

theorem nonneg (h : Ledger w a t) {i : ι} (hw : ∀ v, 0 ≤ w i v) : 0 ≤ a i := by
  rw [h i]
  exact Table.total_nonneg _ t hw

/-- Two maps that weigh alike everywhere. -/
theorem congr [Std.LawfulEqOrd α] (h : Ledger w a t)
    (hsame : ∀ (i : ι) (k : α), (t'[k]?).map (w i) = (t[k]?).map (w i)) : Ledger w a t' :=
  fun i ↦ (h i).trans (Table.total_congr _ _ (hsame i)).symm

/-- An account is opened by going through the entries once. -/
theorem opened {A : Type} {read : A → ι → ℤ} {step : A → β → A} {start : A}
    (hstep : ∀ x v i, read (step x v) i = read x i + w i v) (hstart : ∀ i, read start i = 0)
    (t : Std.ExtTreeMap α β compare) : Ledger w (read (t.foldl (fun x _ v ↦ step x v) start)) t := by
  have hfold : ∀ (l : List (α × β)) (x : A) (i : ι),
      read (l.foldl (fun x e ↦ step x e.2) x) i = read x i + (l.map fun e ↦ w i e.2).sum := by
    intro l
    induction l with
    | nil => simp
    | cons e l ih =>
      intro x i
      rw [List.foldl_cons, ih, hstep, List.map_cons, List.sum_cons]
      omega
  intro i
  rw [Std.ExtTreeMap.foldl_eq_foldl_toList, hfold, hstart, zero_add]
  rfl

end Ledger

end Foundation
