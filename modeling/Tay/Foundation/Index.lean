import Mathlib.Algebra.Ring.Int.Defs
import Mathlib.Data.List.Basic
import Mathlib.Data.Prod.Lex
import Tay.Foundation.Table

/-!
# Indexes and counters beside a table

A table of records, and maps that are kept beside it: an index has one entry for each record that
wants one, under a key that tells whose it is, and a counter map has, for each key, how many records
carry it and no entry where there are none. `Lists` and `Counts` say that such a map is what one would
compute from the table, and one lemma for each update says what to do to the map when one record
changes, or when what the records want changes for one of them.
-/

set_option linter.unusedSectionVars false

namespace Foundation

open Table

/-! ## Orders of pairs -/

instance lawfulEqOrd_lex {α β : Type} [Ord α] [Ord β] [Std.LawfulEqOrd α] [Std.LawfulEqOrd β] :
    Std.LawfulEqOrd (α ×ₗ β) where
  compare_self := by
    intro a
    rw [Prod.Lex.compare_def, compareLex, Ordering.then_eq_eq]
    exact ⟨Std.ReflCmp.compare_self, Std.ReflCmp.compare_self⟩
  eq_of_compare := by
    intro a b h
    rw [Prod.Lex.compare_def, compareLex, Ordering.then_eq_eq] at h
    have hfst : (ofLex a).1 = (ofLex b).1 :=
      Std.LawfulEqCmp.eq_of_compare (show compare (ofLex a).1 (ofLex b).1 = .eq from h.1)
    have hsnd : (ofLex a).2 = (ofLex b).2 :=
      Std.LawfulEqCmp.eq_of_compare (show compare (ofLex a).2 (ofLex b).2 = .eq from h.2)
    exact ofLex.injective (Prod.ext hfst hsnd)

/-! ## Indexes -/

section Index

variable {α β κ ν : Type} [Ord α] [Std.TransOrd α] [Std.LawfulEqOrd α]
  [Ord κ] [Std.TransOrd κ] [Std.LawfulEqOrd κ] [DecidableEq κ]

/-- Put an entry, if there is one. -/
def put (index : Std.ExtTreeMap κ ν compare) : Option (κ × ν) → Std.ExtTreeMap κ ν compare
  | none => index
  | some e => index.insert e.1 e.2

/-- Remove what stands under a key, if there is a key. -/
def drop (index : Std.ExtTreeMap κ ν compare) : Option κ → Std.ExtTreeMap κ ν compare
  | none => index
  | some k => index.erase k

theorem get_put (index : Std.ExtTreeMap κ ν compare) (e : Option (κ × ν)) (k : κ) :
    (put index e)[k]? = if e.map Prod.fst = some k then e.map Prod.snd else index[k]? := by
  cases e with
  | none => rfl
  | some e => simp only [put, get_insert, Option.map_some, Option.some.injEq]

theorem get_drop (index : Std.ExtTreeMap κ ν compare) (e : Option κ) (k : κ) :
    (drop index e)[k]? = if e = some k then none else index[k]? := by
  cases e with
  | none => rfl
  | some l => simp only [drop, get_erase, Option.some.injEq]

/-- The index has exactly the entries the records of the table want. -/
def Lists (entry : β → Option (κ × ν)) (t : Std.ExtTreeMap α β compare)
    (index : Std.ExtTreeMap κ ν compare) : Prop :=
  ∀ k v, index[k]? = some v ↔ ∃ (i : α) (b : β), t[i]? = some b ∧ entry b = some (k, v)

variable {name : β → α} {owner : κ → α} {entry entry' : β → Option (κ × ν)}
  {t t' : Std.ExtTreeMap α β compare} {index : Std.ExtTreeMap κ ν compare} {i : α}

theorem lists_empty : Lists entry (∅ : Std.ExtTreeMap α β compare) ∅ := by
  intro k v
  simp

/-- Records stand under their names, and a key tells the record it is for. -/
structure Named (name : β → α) (owner : κ → α) (entry : β → Option (κ × ν))
    (t : Std.ExtTreeMap α β compare) : Prop where
  keyed : ∀ (i : α) (b : β), t[i]? = some b → name b = i
  owned : ∀ b k v, entry b = some (k, v) → owner k = name b

/-- The keys of one record. -/
theorem Lists.own (h : Lists entry t index) (hn : Named name owner entry t) {k : κ}
    (hk : owner k = i) (v : ν) : index[k]? = some v ↔ t[i]?.bind entry = some (k, v) := by
  rw [h k v, Option.bind_eq_some_iff]
  constructor
  · rintro ⟨j, b, hb, he⟩
    have hij : i = j := by rw [← hk, hn.owned b k v he, hn.keyed j b hb]
    exact ⟨b, hij ▸ hb, he⟩
  · rintro ⟨b, hb, he⟩
    exact ⟨i, b, hb, he⟩

/-- A record that wants no entry has no key in the index. -/
theorem Lists.drop_free (h : Lists entry t index) (hn : Named name owner entry t)
    (hfree : t[i]?.bind entry = none) {e : Option κ} (he : ∀ k, e = some k → owner k = i) :
    drop index e = index := by
  apply Std.ExtTreeMap.ext_getElem?
  intro k
  rw [get_drop]
  split
  case isFalse => rfl
  case isTrue hk =>
    cases hv : index[k]? with
    | none => rfl
    | some v =>
      rw [h.own hn (he k hk), hfree] at hv
      cases hv

/-- Putting an entry that is there changes nothing. -/
theorem Lists.put_same (h : Lists entry t index) : put index (t[i]?.bind entry) = index := by
  apply Std.ExtTreeMap.ext_getElem?
  intro k
  rw [get_put]
  split
  case isFalse => rfl
  case isTrue hk =>
    obtain ⟨e, he, rfl⟩ := Option.map_eq_some_iff.mp hk
    obtain ⟨b, hb, hbe⟩ := Option.bind_eq_some_iff.mp he
    rw [he, Option.map_some]
    exact ((h e.1 e.2).mpr ⟨i, b, hb, hbe⟩).symm

/-- **One record changes**, or only what it wants: its old entry goes and its new one comes. -/
theorem Lists.moved (h : Lists entry t index) (hn : Named name owner entry t)
    (hn' : Named name owner entry' t') (hothers : ∀ j, j ≠ i → t'[j]? = t[j]?)
    (hentry : ∀ b, name b ≠ i → entry' b = entry b) :
    Lists entry' t' (put (drop index ((t[i]?.bind entry).map Prod.fst)) (t'[i]?.bind entry')) := by
  intro k v
  by_cases hk : owner k = i
  · -- a key of the record: only its new entry can stand there
    have hgone : (drop index ((t[i]?.bind entry).map Prod.fst))[k]? = none := by
      rw [get_drop]
      split
      case isTrue => rfl
      case isFalse hold =>
        cases hw : index[k]? with
        | none => rfl
        | some w =>
          rw [h.own hn hk] at hw
          rw [hw] at hold
          exact absurd rfl hold
    rw [get_put, hgone]
    constructor
    · intro hv
      split at hv
      case isFalse => cases hv
      case isTrue hnew =>
        obtain ⟨e, he, rfl⟩ := Option.map_eq_some_iff.mp hnew
        rw [he] at hv
        cases hv
        obtain ⟨b, hb, hbe⟩ := Option.bind_eq_some_iff.mp he
        exact ⟨i, b, hb, hbe⟩
    · rintro ⟨j, b, hb, hbe⟩
      have hij : i = j := by rw [← hk, hn'.owned b k v hbe, hn'.keyed j b hb]
      subst hij
      rw [hb, Option.bind_some, hbe]
      simp
  · -- a key of another record: nothing has happened to it
    have hkept : (put (drop index ((t[i]?.bind entry).map Prod.fst)) (t'[i]?.bind entry'))[k]? =
        index[k]? := by
      rw [get_put, get_drop]
      have hnew : (t'[i]?.bind entry').map Prod.fst ≠ some k := by
        intro heq
        obtain ⟨e, he, rfl⟩ := Option.map_eq_some_iff.mp heq
        obtain ⟨b, hb, hbe⟩ := Option.bind_eq_some_iff.mp he
        exact hk ((hn'.owned b e.1 e.2 hbe).trans (hn'.keyed i b hb))
      have hold : (t[i]?.bind entry).map Prod.fst ≠ some k := by
        intro heq
        obtain ⟨e, he, rfl⟩ := Option.map_eq_some_iff.mp heq
        obtain ⟨b, hb, hbe⟩ := Option.bind_eq_some_iff.mp he
        exact hk ((hn.owned b e.1 e.2 hbe).trans (hn.keyed i b hb))
      rw [if_neg hnew, if_neg hold]
    rw [hkept, h k v]
    constructor
    · rintro ⟨j, b, hb, hbe⟩
      have hj : name b = j := hn.keyed j b hb
      have hji : j ≠ i := by
        rintro rfl
        exact hk ((hn.owned b k v hbe).trans hj)
      exact ⟨j, b, (hothers j hji).trans hb, by rw [hentry b (hj ▸ hji), hbe]⟩
    · rintro ⟨j, b, hb, hbe⟩
      have hj : name b = j := hn'.keyed j b hb
      have hji : j ≠ i := by
        rintro rfl
        exact hk ((hn'.owned b k v hbe).trans hj)
      exact ⟨j, b, (hothers j hji).symm.trans hb, by rw [← hentry b (hj ▸ hji), hbe]⟩

/-- Read from the front, the index is the list of the wanted entries in some order. -/
theorem Lists.perm (h : Lists entry t index) (hn : Named name owner entry t) :
    (t.toList.filterMap fun p ↦ entry p.2).Perm index.toList := by
  have hmem (p : α × β) : p ∈ t.toList ↔ t[p.1]? = some p.2 :=
    Std.ExtTreeMap.mem_toList_iff_getElem?_eq_some
  have hkeys : t.toList.Pairwise fun p q ↦ p.1 ≠ q.1 :=
    Std.ExtTreeMap.distinct_keys_toList.imp fun hne heq ↦
      hne (Std.LawfulEqCmp.compare_eq_iff_eq.mpr heq)
  have hnodup : (t.toList.filterMap fun p ↦ entry p.2).Nodup := by
    rw [List.Nodup, List.pairwise_filterMap]
    refine hkeys.imp_of_mem ?_
    rintro p q hp hq hne e he e' he' rfl
    refine hne ?_
    rw [← hn.keyed p.1 p.2 ((hmem p).mp hp), ← hn.keyed q.1 q.2 ((hmem q).mp hq),
      ← hn.owned p.2 e.1 e.2 he, ← hn.owned q.2 e.1 e.2 he']
  have hnodup' : index.toList.Nodup :=
    (Std.ExtTreeMap.distinct_keys_toList (t := index)).imp fun hne heq ↦
      hne (Std.LawfulEqCmp.compare_eq_iff_eq.mpr (congrArg Prod.fst heq))
  rw [List.perm_ext_iff_of_nodup hnodup hnodup']
  intro e
  rw [Std.ExtTreeMap.mem_toList_iff_getElem?_eq_some, h e.1 e.2, List.mem_filterMap]
  constructor
  · rintro ⟨p, hp, he⟩
    exact ⟨p.1, p.2, (hmem p).mp hp, he⟩
  · rintro ⟨i, b, hb, he⟩
    exact ⟨(i, b), (hmem (i, b)).mpr hb, he⟩

end Index

/-! ## Counters -/

section Counters

variable {α β κ : Type} [Ord α] [Std.TransOrd α] [Std.LawfulEqOrd α]
  [Ord κ] [Std.TransOrd κ] [Std.LawfulEqOrd κ] [DecidableEq κ]

/-- A count as it is stored: zero is not. -/
def stored (n : ℤ) : Option ℤ := if n = 0 then none else some n

/-- Add to a counter, and drop it when it comes to zero. -/
def bump (counts : Std.ExtTreeMap κ ℤ compare) (k : κ) (n : ℤ) : Std.ExtTreeMap κ ℤ compare :=
  if counts[k]?.getD 0 + n = 0 then counts.erase k else counts.insert k (counts[k]?.getD 0 + n)

/-- Add to the counters of several keys. -/
def bumps (counts : Std.ExtTreeMap κ ℤ compare) (ks : List κ) (n : ℤ) :
    Std.ExtTreeMap κ ℤ compare := ks.foldl (fun acc k ↦ bump acc k n) counts

/-- The map that has `f k` for each `k`. -/
def Stores (counts : Std.ExtTreeMap κ ℤ compare) (f : κ → ℤ) : Prop := ∀ k, counts[k]? = stored (f k)

variable {counts : Std.ExtTreeMap κ ℤ compare} {f : κ → ℤ}

theorem getD_stored (n : ℤ) : (stored n).getD 0 = n := by
  unfold stored
  split
  case isTrue h => exact h.symm
  case isFalse => rfl

theorem Stores.bump (h : Stores counts f) (k : κ) (n : ℤ) :
    Stores (Foundation.bump counts k n) fun l ↦ f l + if k = l then n else 0 := by
  intro l
  rw [Foundation.bump, h k, getD_stored]
  by_cases hk : k = l
  · subst hk
    simp only [if_true, stored]
    split
    · rw [get_erase, if_pos rfl]
    · rw [get_insert, if_pos rfl]
  · simp only [hk, if_false, add_zero]
    split
    · rw [get_erase, if_neg hk, h l]
    · rw [get_insert, if_neg hk, h l]

theorem Stores.bumps {ks : List κ} (n : ℤ) : ∀ {counts : Std.ExtTreeMap κ ℤ compare} {f : κ → ℤ},
    ks.Nodup → Stores counts f →
      Stores (Foundation.bumps counts ks n) fun l ↦ f l + if l ∈ ks then n else 0 := by
  induction ks with
  | nil =>
    intro counts f _ h
    simpa [Foundation.bumps] using h
  | cons k ks ih =>
    intro counts f hnodup h l
    rw [List.nodup_cons] at hnodup
    have hrest := ih hnodup.2 (h.bump k n) l
    rw [Foundation.bumps, List.foldl_cons, ← Foundation.bumps, hrest]
    by_cases hk : k = l
    · subst hk
      simp [hnodup.1]
    · have hne : ¬l = k := fun heq ↦ hk heq.symm
      simp [hk, hne]

/-- The counters have, for each key, how many records of the table carry it. -/
def Counts (keys : β → List κ) (t : Std.ExtTreeMap α β compare)
    (counts : Std.ExtTreeMap κ ℤ compare) : Prop :=
  Stores counts fun k ↦ tally (fun b ↦ decide (k ∈ keys b)) t

variable {keys : β → List κ} {t : Std.ExtTreeMap α β compare} {i : α} {b b' : β}

theorem counts_empty : Counts keys (∅ : Std.ExtTreeMap α β compare) ∅ := by
  intro k
  beta_reduce
  rw [tally_empty]
  rfl

/-- A new record. -/
theorem Counts.insert (h : Counts keys t counts) (hkeys : (keys b).Nodup) (hi : t[i]? = none) :
    Counts keys (t.insert i b) (bumps counts (keys b) 1) := by
  intro k
  rw [Stores.bumps 1 hkeys h k]
  beta_reduce
  rw [tally_insert_fresh hi]
  by_cases hk : k ∈ keys b <;> simp [hk]

/-- A record that goes. -/
theorem Counts.erase (h : Counts keys t counts) (hkeys : (keys b).Nodup) (hi : t[i]? = some b) :
    Counts keys (t.erase i) (bumps counts (keys b) (-1)) := by
  intro k
  have htally := tally_erase_add (p := fun b ↦ decide (k ∈ keys b)) hi
  rw [Stores.bumps (-1) hkeys h k]
  beta_reduce
  rw [← htally]
  by_cases hk : k ∈ keys b <;> simp [hk]

theorem insert_erase [DecidableEq α] (t : Std.ExtTreeMap α β compare) (i : α) (b : β) :
    (t.erase i).insert i b = t.insert i b := by
  apply Std.ExtTreeMap.ext_getElem?
  intro j
  rw [get_insert, get_insert, get_erase]
  split <;> rfl

/-- A record that takes the place of another. -/
theorem Counts.replace [DecidableEq α] (h : Counts keys t counts) (hkeys : (keys b).Nodup)
    (hkeys' : (keys b').Nodup) (hi : t[i]? = some b) :
    Counts keys (t.insert i b') (bumps (bumps counts (keys b) (-1)) (keys b') 1) := by
  have hgone := h.erase hkeys hi
  have hback := hgone.insert (i := i) (b := b') hkeys' (by rw [get_erase, if_pos rfl])
  rwa [insert_erase] at hback

theorem tally_eq_countP (p : β → Bool) (t : Std.ExtTreeMap α β compare) :
    tally p t = t.toList.countP fun x ↦ p x.2 := by
  rw [tally, ← Std.ExtTreeMap.length_toList, Std.ExtTreeMap.toList_filter,
    List.countP_eq_length_filter]

/-- Counting up from nothing gives the same counters. -/
theorem stores_foldl {l : List β} (hkeys : ∀ b, (keys b).Nodup) :
    ∀ {counts : Std.ExtTreeMap κ ℤ compare} {f : κ → ℤ}, Stores counts f →
      Stores (l.foldl (fun acc b ↦ bumps acc (keys b) 1) counts)
        fun k ↦ f k + l.countP fun b ↦ decide (k ∈ keys b) := by
  induction l with
  | nil =>
    intro counts f h
    simpa using h
  | cons b l ih =>
    intro counts f h k
    rw [List.foldl_cons, ih (Stores.bumps 1 (hkeys b) h) k]
    beta_reduce
    rw [List.countP_cons]
    by_cases hk : k ∈ keys b
    · simp only [hk, decide_true, if_true]
      congr 1
      push_cast
      omega
    · simp [hk]

theorem Counts.eq_foldl (h : Counts keys t counts) (hkeys : ∀ b, (keys b).Nodup) :
    (t.toList.map Prod.snd).foldl (fun acc b ↦ bumps acc (keys b) 1) ∅ = counts := by
  apply Std.ExtTreeMap.ext_getElem?
  intro k
  have hzero : Stores (∅ : Std.ExtTreeMap κ ℤ compare) fun _ ↦ 0 := fun k ↦ rfl
  rw [stores_foldl hkeys hzero k, h k]
  beta_reduce
  rw [tally_eq_countP, List.countP_map, zero_add]
  rfl

end Counters

end Foundation
