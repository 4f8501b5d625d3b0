import Mathlib.Order.OrderDual
import Tay.Foundation.Ranking

/-!
# Pages of a sorted listing

A listing in the order of a key that tells its elements apart is read in pages of one size. Three facts
carry this. The elements after a known one are what is left behind its place, and those before it are what
stands in front. The first elements of two sources together are among the first of each. And the pages, one
after another, are the listing.
-/

namespace Foundation

variable {α κ : Type} [LinearOrder κ] {k : α → κ} {l xs ys : List α} {n : ℕ}

/-! ## The first elements -/

/-- The first elements of a merge are a merge of first elements. -/
theorem take_merge (le : α → α → Bool) {n : ℕ} : ∀ {xs ys : List α} {m m' : ℕ}, n ≤ m → n ≤ m' →
    ((xs.take m).merge (ys.take m') le).take n = (xs.merge ys le).take n := by
  induction n with
  | zero =>
    intro xs ys m m' _ _
    rw [List.take_zero, List.take_zero]
  | succ n ih =>
    intro xs ys m m' hm hm'
    obtain ⟨m, rfl⟩ := Nat.exists_eq_add_of_lt hm
    obtain ⟨m', rfl⟩ := Nat.exists_eq_add_of_lt hm'
    cases xs with
    | nil => rw [List.take_nil, List.nil_merge, List.nil_merge, List.take_take, min_eq_left hm']
    | cons x xs =>
      cases ys with
      | nil => rw [List.take_nil, List.merge_right, List.merge_right, List.take_take, min_eq_left hm]
      | cons y ys =>
        rw [List.take_succ_cons, List.take_succ_cons, List.cons_merge_cons, List.cons_merge_cons]
        split
        case isTrue =>
          -- the rest of the second list still begins with `y`
          have hrest := @ih xs (y :: ys) (n + m) (n + m' + 1) (by omega) (by omega)
          rw [List.take_succ_cons] at hrest
          rw [List.take_succ_cons, List.take_succ_cons, hrest]
        case isFalse =>
          have hrest := @ih (x :: xs) ys (n + m + 1) (n + m') (by omega) (by omega)
          rw [List.take_succ_cons] at hrest
          rw [List.take_succ_cons, List.take_succ_cons, hrest]

/-- The first `n` elements by ascending key. -/
def firsts (k : α → κ) (n : ℕ) (l : List α) : List α := (sortBy k l).take n

theorem mem_firsts {a : α} (h : a ∈ firsts k n l) : a ∈ l := mem_sortBy.mp (List.mem_of_mem_take h)

theorem sortBy_append (hinj : ∀ a ∈ xs ++ ys, ∀ b ∈ xs ++ ys, k a = k b → a = b) :
    sortBy k (xs ++ ys) = (sortBy k xs).merge (sortBy k ys) fun a b ↦ decide (k a ≤ k b) := by
  refine sortBy_eq hinj ?_ ?_
  · exact (List.merge_perm_append _).trans ((sortBy_perm k xs).append (sortBy_perm k ys))
  · have htrans : ∀ a b c : α, decide (k a ≤ k b) = true → decide (k b ≤ k c) = true →
        decide (k a ≤ k c) = true :=
      fun a b c hab hbc ↦ decide_eq_true ((of_decide_eq_true hab).trans (of_decide_eq_true hbc))
    have hsorted := List.pairwise_merge htrans (fun a b ↦ by simpa using le_total (k a) (k b))
      (sortBy k xs) (sortBy k ys) ((pairwise_sortBy k xs).imp decide_eq_true)
      ((pairwise_sortBy k ys).imp decide_eq_true)
    exact hsorted.imp of_decide_eq_true

theorem sortBy_of_sorted (hinj : ∀ a ∈ l, ∀ b ∈ l, k a = k b → a = b) (hsorted : l.Pairwise fun a b ↦ k a ≤ k b) :
    sortBy k l = l := sortBy_eq hinj (List.Perm.refl l) hsorted

theorem sortBy_firsts (hinj : ∀ a ∈ l, ∀ b ∈ l, k a = k b → a = b) :
    sortBy k (firsts k n l) = firsts k n l :=
  sortBy_of_sorted (fun a ha b hb ↦ hinj a (mem_firsts ha) b (mem_firsts hb))
    ((pairwise_sortBy k l).sublist (List.take_sublist n _))

/-- **Two sources.** The first elements of both are among the first of each. -/
theorem firsts_append (hinj : ∀ a ∈ xs ++ ys, ∀ b ∈ xs ++ ys, k a = k b → a = b) :
    firsts k n (firsts k n xs ++ firsts k n ys) = firsts k n (xs ++ ys) := by
  have hsub : ∀ a ∈ firsts k n xs ++ firsts k n ys, a ∈ xs ++ ys := by
    intro a ha
    rw [List.mem_append] at ha ⊢
    exact ha.imp mem_firsts mem_firsts
  have hleft : ∀ a ∈ xs, ∀ b ∈ xs, k a = k b → a = b :=
    fun a ha b hb ↦ hinj a (List.mem_append_left _ ha) b (List.mem_append_left _ hb)
  have hright : ∀ a ∈ ys, ∀ b ∈ ys, k a = k b → a = b :=
    fun a ha b hb ↦ hinj a (List.mem_append_right _ ha) b (List.mem_append_right _ hb)
  unfold firsts
  rw [sortBy_append hinj]
  have hmerge := sortBy_append fun a ha b hb ↦ hinj a (hsub a ha) b (hsub b hb)
  rw [sortBy_firsts hleft, sortBy_firsts hright] at hmerge
  unfold firsts at hmerge
  rw [hmerge, take_merge _ le_rfl le_rfl]

/-- Sorting the other way round. -/
theorem sortBy_toDual (hinj : ∀ a ∈ l, ∀ b ∈ l, k a = k b → a = b) :
    sortBy (fun a ↦ OrderDual.toDual (k a)) l = (sortBy k l).reverse := by
  refine sortBy_eq (fun a ha b hb h ↦ hinj a ha b hb (OrderDual.toDual_inj.mp h)) ?_ ?_
  · exact (List.reverse_perm _).trans (sortBy_perm k l)
  · exact List.pairwise_reverse.mpr ((pairwise_sortBy k l).imp OrderDual.toDual_le_toDual.mpr)

/-! ## Before and after -/

theorem filter_after (hsorted : l.Pairwise fun a b ↦ k a < k b) {j : ℕ} {a : α} (ha : l[j]? = some a) :
    (l.filter fun b ↦ decide (k a < k b)) = l.drop (j + 1) := by
  obtain ⟨hj, rfl⟩ := List.getElem?_eq_some_iff.mp ha
  have hplaces := List.pairwise_iff_getElem.mp hsorted
  have hfront : ∀ b ∈ l.take (j + 1), ¬decide (k l[j] < k b) = true := by
    intro b hb
    obtain ⟨i, hi, rfl⟩ := List.mem_iff_getElem.mp hb
    rw [List.length_take] at hi
    rw [List.getElem_take, decide_eq_true_eq, not_lt]
    rcases (show i < j ∨ i = j by omega) with hlt | rfl
    · exact (hplaces i j (by omega) hj hlt).le
    · exact le_rfl
  have hback : ∀ b ∈ l.drop (j + 1), decide (k l[j] < k b) = true := by
    intro b hb
    obtain ⟨i, hi, rfl⟩ := List.mem_iff_getElem.mp hb
    rw [List.length_drop] at hi
    rw [List.getElem_drop]
    exact decide_eq_true (hplaces j (j + 1 + i) hj (by omega) (by omega))
  have hsplit := congrArg (List.filter fun b ↦ decide (k l[j] < k b)) (List.take_append_drop (j + 1) l)
  rwa [List.filter_append, List.filter_eq_nil_iff.mpr hfront, List.filter_eq_self.mpr hback, List.nil_append,
    eq_comm] at hsplit

theorem filter_before (hsorted : l.Pairwise fun a b ↦ k a < k b) {j : ℕ} {a : α} (ha : l[j]? = some a) :
    (l.filter fun b ↦ decide (k b < k a)) = l.take j := by
  obtain ⟨hj, rfl⟩ := List.getElem?_eq_some_iff.mp ha
  have hplaces := List.pairwise_iff_getElem.mp hsorted
  have hfront : ∀ b ∈ l.take j, decide (k b < k l[j]) = true := by
    intro b hb
    obtain ⟨i, hi, rfl⟩ := List.mem_iff_getElem.mp hb
    rw [List.length_take] at hi
    rw [List.getElem_take]
    exact decide_eq_true (hplaces i j (by omega) hj (by omega))
  have hback : ∀ b ∈ l.drop j, ¬decide (k b < k l[j]) = true := by
    intro b hb
    obtain ⟨i, hi, rfl⟩ := List.mem_iff_getElem.mp hb
    rw [List.length_drop] at hi
    rw [List.getElem_drop, decide_eq_true_eq, not_lt]
    rcases Nat.eq_zero_or_pos i with rfl | hpos
    · exact le_rfl
    · exact (hplaces j (j + i) hj (by omega) (by omega)).le
  have hsplit := congrArg (List.filter fun b ↦ decide (k b < k l[j])) (List.take_append_drop j l)
  rwa [List.filter_append, List.filter_eq_self.mpr hfront, List.filter_eq_nil_iff.mpr hback, List.append_nil,
    eq_comm] at hsplit

/-! ## Pages -/

/-- The page of a number, from zero. -/
def sheet (n : ℕ) (l : List α) (i : ℕ) : List α := (l.drop (i * n)).take n

/-- The number of the last page. An empty listing has one page. -/
def lastSheet (n : ℕ) (l : List α) : ℕ := (l.length - 1) / n

theorem length_sheet (n : ℕ) (l : List α) (i : ℕ) : (sheet n l i).length = min n (l.length - i * n) := by
  rw [sheet, List.length_take, List.length_drop]

/-- **The pages are the listing.** -/
theorem flatMap_sheet (n : ℕ) (l : List α) (m : ℕ) : (List.range m).flatMap (sheet n l) = l.take (m * n) := by
  induction m with
  | zero => rw [Nat.zero_mul, List.take_zero, List.range_zero, List.flatMap_nil]
  | succ m ih =>
    rw [List.range_succ, List.flatMap_append, ih, List.flatMap_singleton, sheet, Nat.succ_mul, List.take_add]

theorem length_le_lastSheet (hn : 0 < n) (l : List α) : l.length ≤ (lastSheet n l + 1) * n := by
  have hlt := Nat.lt_mul_div_succ (l.length - 1) hn
  rw [lastSheet, Nat.mul_comm]
  omega

/-- A page has a next one if elements are left. -/
theorem lt_lastSheet_iff (hn : 0 < n) (l : List α) (i : ℕ) : i < lastSheet n l ↔ (i + 1) * n < l.length := by
  rw [lastSheet, Nat.lt_iff_add_one_le, Nat.le_div_iff_mul_le hn]
  have hpos : 0 < (i + 1) * n := Nat.mul_pos (Nat.succ_pos i) hn
  omega

/-- The size of the last page. -/
theorem length_lastSheet (hn : 0 < n) (l : List α) : (sheet n l (lastSheet n l)).length =
    if l.length % n = 0 then min l.length n else l.length % n := by
  rw [length_sheet, lastSheet]
  obtain hzero | hpos := Nat.eq_zero_or_pos l.length
  · rw [hzero, Nat.zero_mod, if_pos rfl, Nat.zero_sub, min_comm]
  have hdiv := Nat.div_add_mod l.length n
  have hmod := Nat.mod_lt l.length hn
  split
  case isTrue hrem =>
    -- the listing is a number of full pages
    obtain ⟨q, hq⟩ : ∃ q, l.length / n = q + 1 := by
      refine Nat.exists_eq_succ_of_ne_zero fun hnone ↦ ?_
      rw [hnone, hrem, Nat.mul_zero] at hdiv
      omega
    have hlength : l.length = q * n + n := by
      rw [← hdiv, hrem, hq, Nat.add_zero, Nat.mul_comm, Nat.succ_mul]
    have hlast : (l.length - 1) / n = q := by
      rw [hlength]
      refine Nat.div_eq_of_lt_le ?_ ?_
      · omega
      · rw [Nat.succ_mul]
        omega
    rw [hlast, hlength]
    omega
  case isFalse hrem =>
    have hlast : (l.length - 1) / n = l.length / n := by
      refine Nat.div_eq_of_lt_le ?_ ?_
      · rw [Nat.mul_comm]
        omega
      · rw [Nat.succ_mul, Nat.mul_comm]
        omega
    rw [hlast, Nat.mul_comm]
    omega

/-- The last page is the end of the listing. -/
theorem sheet_last (hn : 0 < n) (l : List α) :
    sheet n l (lastSheet n l) = l.drop (l.length - (sheet n l (lastSheet n l)).length) := by
  have hle : lastSheet n l * n ≤ l.length := by
    have := Nat.div_mul_le_self (l.length - 1) n
    rw [lastSheet]
    omega
  have hlength := length_le_lastSheet hn l
  rw [Nat.succ_mul] at hlength
  rw [length_sheet, sheet, List.take_of_length_le (by rw [List.length_drop]; omega)]
  congr 1
  omega

end Foundation
