import Mathlib.Data.List.TakeWhile

/-!
# Splitting a list at separators

`words` are the pieces between separators with the empty ones left out, and `cut` is the piece before
the first separator with what follows it. Each is characterised from the other side, by how the list
is put together again: `Laid` for words between runs of separators, an append for a cut.
-/

namespace Foundation

variable {α : Type} (p : α → Bool)

/-- The pieces between separators, without the empty ones. -/
def words (xs : List α) : List (List α) :=
  (xs.splitOnP p).filter (fun w ↦ !w.isEmpty)

/-- A list is laid out as some words, any two of them with separators between. -/
inductive Laid : List (List α) → List α → Prop
  | nil : Laid [] []
  | blank {a : α} {ws : List (List α)} {xs : List α} (ha : p a = true) (h : Laid ws xs) :
    Laid ws (a :: xs)
  | word {w : List α} {ws : List (List α)} {xs : List α} (hne : w ≠ [])
    (hw : ∀ a ∈ w, p a = false) (hxs : ∀ a ∈ xs.head?, p a = true) (h : Laid ws xs) :
    Laid (w :: ws) (w ++ xs)

variable {p}

@[simp] theorem words_nil : words p [] = [] := rfl

theorem words_blank {a : α} (ha : p a = true) (xs : List α) : words p (a :: xs) = words p xs := by
  simp [words, List.splitOnP_cons_eq_if_modifyHead, ha]

theorem words_word {w xs : List α} (hne : w ≠ []) (hw : ∀ a ∈ w, p a = false)
    (hxs : ∀ a ∈ xs.head?, p a = true) : words p (w ++ xs) = w :: words p xs := by
  have hkeep : (!w.isEmpty) = true := by simpa using hne
  cases xs with
  | nil => simp [words, List.splitOnP_eq_singleton hw, hkeep]
  | cons a as =>
    have ha : p a = true := hxs a rfl
    rw [words_blank ha, words, List.splitOnP_append_cons_of_forall_mem hw a ha]
    exact List.filter_cons_of_pos hkeep

theorem Laid.words_eq {ws : List (List α)} {xs : List α} (h : Laid p ws xs) : words p xs = ws := by
  induction h with
  | nil => rfl
  | blank ha _ ih => rw [words_blank ha, ih]
  | word hne hw hxs _ ih => rw [words_word hne hw hxs, ih]

private theorem laid_of_length (n : ℕ) :
    ∀ xs : List α, xs.length = n → ∃ ws, Laid p ws xs := by
  induction n using Nat.strongRecOn with
  | ind n ih =>
    rintro (_ | ⟨a, as⟩) hn
    · exact ⟨[], .nil⟩
    by_cases ha : p a = true
    · obtain ⟨ws, hws⟩ := ih as.length (by simp only [List.length_cons] at hn; omega) as rfl
      exact ⟨ws, .blank ha hws⟩
    -- the first word is everything before the next separator
    · have hsplit := List.takeWhile_append_dropWhile (p := fun b ↦ !p b) (l := a :: as)
      have hne : (a :: as).takeWhile (fun b ↦ !p b) ≠ [] := by simp [ha]
      have hlt : ((a :: as).dropWhile fun b ↦ !p b).length < n := by
        have hsum := congrArg List.length hsplit
        have hpos := List.length_pos_iff.mpr hne
        simp only [List.length_append] at hsum
        omega
      obtain ⟨ws, hws⟩ := ih _ hlt _ rfl
      have hword : ∀ b ∈ (a :: as).takeWhile (fun b ↦ !p b), p b = false := fun b hb ↦ by
        simpa using List.mem_takeWhile_imp hb
      have hnext : ∀ b ∈ ((a :: as).dropWhile fun b ↦ !p b).head?, p b = true := fun b hb ↦ by
        have := List.head?_dropWhile_not (fun b ↦ !p b) (a :: as)
        rw [Option.mem_def.mp hb] at this
        simpa using this
      have h := Laid.word hne hword hnext hws
      rw [hsplit] at h
      exact ⟨_, h⟩

/-- The words of a list are the only ones it is laid out as. -/
theorem laid_iff {ws : List (List α)} {xs : List α} : Laid p ws xs ↔ words p xs = ws := by
  refine ⟨Laid.words_eq, fun h ↦ ?_⟩
  obtain ⟨vs, hvs⟩ := laid_of_length xs.length xs rfl
  rwa [← h, hvs.words_eq]

theorem ne_nil_of_mem_words {xs w : List α} (h : w ∈ words p xs) : w ≠ [] := by
  simpa using (List.mem_filter.mp h).2

theorem Laid.sub {ws : List (List α)} {xs : List α} (h : Laid p ws xs) :
    ∀ w ∈ ws, w ≠ [] ∧ ∀ a ∈ w, p a = false := by
  induction h with
  | nil => simp
  | blank _ _ ih => exact ih
  | word hne hw _ _ ih =>
    rintro v (_ | ⟨_, hv⟩)
    · exact ⟨hne, hw⟩
    · exact ih v hv

section Cut

variable [DecidableEq α]

/-- What stands before the first separator, and what follows it where there is one. -/
def cut (x : α) : List α → List α × Option (List α)
  | [] => ([], none)
  | a :: as => if a = x then ([], some as) else (a :: (cut x as).1, (cut x as).2)

theorem cut_eq_none {x : α} {xs ys : List α} : cut x xs = (ys, none) ↔ ys = xs ∧ x ∉ xs := by
  induction xs generalizing ys with
  | nil => simp [cut, eq_comm]
  | cons a as ih =>
    by_cases ha : a = x
    · simp [cut, ha]
    · have hx : x ≠ a := fun h ↦ ha h.symm
      simp only [cut, if_neg ha, Prod.mk.injEq, List.mem_cons, hx, false_or]
      constructor
      · rintro ⟨rfl, hnone⟩
        have h := (@ih (cut x as).fst).mp (Prod.ext rfl hnone)
        exact ⟨congrArg _ h.1, h.2⟩
      · rintro ⟨rfl, hmem⟩
        have h := ih.mpr ⟨rfl, hmem⟩
        rw [h]
        exact ⟨rfl, rfl⟩

theorem cut_eq_some {x : α} {xs ys zs : List α} :
    cut x xs = (ys, some zs) ↔ xs = ys ++ x :: zs ∧ x ∉ ys := by
  induction xs generalizing ys with
  | nil => simp [cut]
  | cons a as ih =>
    by_cases ha : a = x
    · subst ha
      cases ys with
      | nil => simp [cut, eq_comm]
      | cons b bs => simp only [cut, if_pos]; grind
    · simp only [cut, if_neg ha]
      cases ys with
      | nil => simp [ha]
      | cons b bs =>
        have h := @ih bs
        grind

theorem cut_of_notMem {x : α} {xs : List α} (h : x ∉ xs) : cut x xs = (xs, none) :=
  cut_eq_none.mpr ⟨rfl, h⟩

theorem cut_append {x : α} {ys : List α} (h : x ∉ ys) (zs : List α) :
    cut x (ys ++ x :: zs) = (ys, some zs) :=
  cut_eq_some.mpr ⟨rfl, h⟩

end Cut

end Foundation
