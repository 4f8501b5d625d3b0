import Mathlib.Data.Finset.Card
import Mathlib.Data.List.Induction
import Mathlib.Data.List.Nodup

/-!
# Delivery through a window

Items are accepted into a queue and sent from its front, while fewer than a limit of those that were sent
are active. An item that is freed leaves the window, whatever the reason; a flush sends all that is pending,
however many are active, and a fence follows it.

What happened is kept as a log, in its order, and everything that is said about a window is said of the log:
what was accepted is what was sent and what is pending; each item was sent while there was room for it, or by
a flush; and everything accepted before a fence was sent before it.
-/

namespace Foundation

/-- The queue, and the keys of what was sent and is not freed. -/
structure Window (κ π : Type) where
  pending : List κ
  active : Finset π

namespace Window

variable {κ π ρ φ : Type}

/-! ## The log -/

inductive Entry (κ π ρ φ : Type)
  | accepted (x : κ)
  | sent (x : κ)
  | freed (p : π) (reason : ρ)
  | fence (f : φ)
  deriving DecidableEq

def acceptedOf (log : List (Entry κ π ρ φ)) : List κ :=
  log.filterMap fun
    | .accepted x => some x
    | _ => none

def sentOf (log : List (Entry κ π ρ φ)) : List κ :=
  log.filterMap fun
    | .sent x => some x
    | _ => none

/-- Only sent items come before the next fence. -/
def Flushed (log : List (Entry κ π ρ φ)) : Prop :=
  ∃ (items : List κ) (f : φ) (rest : List (Entry κ π ρ φ)), log = items.map .sent ++ .fence f :: rest

theorem acceptedOf_append (a b : List (Entry κ π ρ φ)) : acceptedOf (a ++ b) = acceptedOf a ++ acceptedOf b :=
  List.filterMap_append

theorem sentOf_append (a b : List (Entry κ π ρ φ)) : sentOf (a ++ b) = sentOf a ++ sentOf b :=
  List.filterMap_append

theorem acceptedOf_sent (items : List κ) : acceptedOf (items.map (.sent : κ → Entry κ π ρ φ)) = [] := by
  rw [acceptedOf, List.filterMap_map]
  exact List.filterMap_eq_nil_iff.mpr fun _ _ ↦ rfl

theorem sentOf_sent (items : List κ) : sentOf (items.map (.sent : κ → Entry κ π ρ φ)) = items := by
  rw [sentOf, List.filterMap_map]
  exact List.filterMap_some

/-- A log that goes on: what stands in it stands in the old part or in the new one. -/
theorem append_split {α : Type} {log more before rest : List α} {x : α} (h : log ++ more = before ++ x :: rest) :
    (∃ rest₀, log = before ++ x :: rest₀ ∧ rest = rest₀ ++ more) ∨
      ∃ before₁, before = log ++ before₁ ∧ more = before₁ ++ x :: rest := by
  rcases List.append_eq_append_iff.mp h with ⟨l, hbefore, hmore⟩ | ⟨l, hlog, hmore⟩
  · exact .inr ⟨l, hbefore, hmore⟩
  · rcases l with _ | ⟨y, l⟩
    · exact .inr ⟨[], by rw [List.append_nil] at hlog ⊢; exact hlog.symm, hmore.symm⟩
    · obtain ⟨rfl, rfl⟩ := List.cons.inj hmore
      exact .inl ⟨l, hlog, rfl⟩

theorem Flushed.append {log : List (Entry κ π ρ φ)} (h : Flushed log) (more : List (Entry κ π ρ φ)) :
    Flushed (log ++ more) := by
  obtain ⟨items, f, rest, rfl⟩ := h
  exact ⟨items, f, rest ++ more, by rw [List.append_assoc, List.cons_append]⟩

/-! ## The window -/

variable [DecidableEq π] (key : κ → π)

def new : Window κ π := ⟨[], ∅⟩

def accept (w : Window κ π) (x : κ) : Window κ π := { w with pending := w.pending ++ [x] }

def free (w : Window κ π) (p : π) : Window κ π := { w with active := w.active.erase p }

/-- The first item, where there is room for it. -/
def take (w : Window κ π) (limit : ℕ) : Option (κ × Window κ π) :=
  if w.active.card < limit then
    match w.pending with
    | x :: pending => some (x, ⟨pending, insert (key x) w.active⟩)
    | [] => none
  else none

/-- One item after another; the fuel stands for the queue. -/
def takeAll (limit : ℕ) : ℕ → Window κ π → List κ × Window κ π
  | 0, w => ([], w)
  | fuel + 1, w =>
    match w.take key limit with
    | some (x, next) =>
      let rest := takeAll limit fuel next
      (x :: rest.1, rest.2)
    | none => ([], w)

/-- The items there is room for. -/
def ready (w : Window κ π) (limit : ℕ) : List κ := w.pending.take (limit - w.active.card)

def dispatch (w : Window κ π) (limit : ℕ) : Window κ π :=
  ⟨w.pending.drop (limit - w.active.card), w.active ∪ ((w.ready limit).map key).toFinset⟩

/-- What one entry does to the keys of what was sent and not freed for such a reason. -/
def note (counts : ρ → Bool) (active : Finset π) : Entry κ π ρ φ → Finset π
  | .sent x => insert (key x) active
  | .freed p reason => if counts reason then active.erase p else active
  | _ => active

def outstanding (counts : ρ → Bool) (log : List (Entry κ π ρ φ)) : Finset π := log.foldl (note key counts) ∅

/-- A window and its log. -/
structure Books (limit : ℕ) (w : Window κ π) (log : List (Entry κ π ρ φ)) : Prop where
  order : acceptedOf log = sentOf log ++ w.pending
  once : ((acceptedOf log).map key).Nodup
  active : w.active = outstanding key (fun _ ↦ true) log
  room : ∀ before x rest, log = before ++ .sent x :: rest →
    (outstanding key (fun _ ↦ true) (before ++ [.sent x])).card ≤ limit ∨ Flushed rest
  fence : ∀ before f rest, log = before ++ .fence f :: rest → acceptedOf before = sentOf before

variable {key} {limit : ℕ} {w : Window κ π} {log : List (Entry κ π ρ φ)}

theorem outstanding_append (counts : ρ → Bool) (a b : List (Entry κ π ρ φ)) :
    outstanding key counts (a ++ b) = b.foldl (note key counts) (outstanding key counts a) :=
  List.foldl_append

theorem outstanding_sent (counts : ρ → Bool) (log : List (Entry κ π ρ φ)) (items : List κ) :
    outstanding key counts (log ++ items.map .sent) =
      outstanding key counts log ∪ (items.map key).toFinset := by
  induction items generalizing log with
  | nil => simp only [List.map_nil, List.append_nil, List.toFinset_nil, Finset.union_empty]
  | cons x items ih =>
    have hsplit : log ++ (x :: items).map .sent = (log ++ [.sent x]) ++ items.map .sent := by
      rw [List.map_cons, List.append_assoc, List.singleton_append]
    rw [hsplit, ih, outstanding_append, List.map_cons, List.toFinset_cons, Finset.union_insert,
      ← Finset.insert_union]
    rfl

/-- What is outstanding was sent. -/
theorem outstanding_subset (counts : ρ → Bool) (log : List (Entry κ π ρ φ)) :
    outstanding key counts log ⊆ ((sentOf log).map key).toFinset := by
  induction log using List.reverseRecOn with
  | nil => exact Finset.empty_subset _
  | append_singleton log e ih =>
    rw [outstanding_append, sentOf_append, List.map_append, List.toFinset_append]
    cases e with
    | sent x =>
      refine Finset.insert_subset (Finset.mem_union_right _ ?_) (ih.trans Finset.subset_union_left)
      exact List.mem_toFinset.mpr List.mem_cons_self
    | freed p reason =>
      refine Finset.Subset.trans ?_ (ih.trans Finset.subset_union_left)
      show (if counts reason then _ else _ : Finset π) ⊆ _
      split
      · exact Finset.erase_subset p _
      · exact Finset.Subset.refl _
    | accepted x => exact ih.trans Finset.subset_union_left
    | fence f => exact ih.trans Finset.subset_union_left

/-- Taking one item after another is taking as many as there is room for. -/
theorem takeAll_eq (pending : List κ) {active : Finset π} (honce : (pending.map key).Nodup)
    (hnew : ∀ x ∈ pending, key x ∉ active) :
    takeAll key limit pending.length ⟨pending, active⟩ =
      (ready ⟨pending, active⟩ limit, dispatch key ⟨pending, active⟩ limit) := by
  induction pending generalizing active with
  | nil =>
    rw [ready, dispatch, ready]
    simp only [List.take_nil, List.drop_nil, List.map_nil, List.toFinset_nil, Finset.union_empty]
    rfl
  | cons x pending ih =>
    obtain ⟨hx, honce⟩ := List.nodup_cons.mp honce
    rw [List.length_cons, takeAll, take]
    by_cases hroom : active.card < limit
    · have hcard := Finset.card_insert_of_notMem (hnew x List.mem_cons_self)
      have hone : limit - active.card = (limit - (insert (key x) active).card) + 1 := by
        rw [hcard]
        omega
      have hnew' : ∀ y ∈ pending, key y ∉ insert (key x) active := fun y hy hmem ↦ by
        rcases Finset.mem_insert.mp hmem with heq | hmem
        · exact hx (heq ▸ List.mem_map_of_mem hy)
        · exact hnew y (List.mem_cons_of_mem _ hy) hmem
      rw [if_pos hroom]
      dsimp only
      rw [ih honce hnew', ready, dispatch, dispatch, ready, ready, hone, List.take_succ_cons, List.drop_succ_cons,
        List.map_cons, List.toFinset_cons, Finset.union_insert, Finset.insert_union]
    · have hzero : limit - active.card = 0 := by omega
      rw [if_neg hroom, ready, dispatch, ready, hzero]
      simp only [List.take_zero, List.drop_zero, List.map_nil, List.toFinset_nil, Finset.union_empty]

namespace Books

theorem start : Books key limit (new : Window κ π) ([] : List (Entry κ π ρ φ)) where
  order := rfl
  once := List.nodup_nil
  active := rfl
  room before x rest h := by cases before <;> cases h
  fence before f rest h := by cases before <;> cases h

/-- Entries that are neither sent nor fences. -/
theorem extend (h : Books key limit w log) {w' : Window κ π} {e : Entry κ π ρ φ} (hsent : ∀ x, e ≠ .sent x)
    (hfence : ∀ f, e ≠ .fence f) (horder : acceptedOf (log ++ [e]) = sentOf (log ++ [e]) ++ w'.pending)
    (honce : ((acceptedOf (log ++ [e])).map key).Nodup)
    (hactive : w'.active = outstanding key (fun _ ↦ true) (log ++ [e])) : Books key limit w' (log ++ [e]) := by
  refine ⟨horder, honce, hactive, fun before x rest hlog ↦ ?_, fun before f rest hlog ↦ ?_⟩
  · rcases append_split hlog with ⟨rest₀, hold, rfl⟩ | ⟨before₁, -, hnew⟩
    · exact (h.room before x rest₀ hold).imp_right fun hflushed ↦ hflushed.append _
    · rcases before₁ with _ | ⟨y, l⟩
      · exact absurd (List.cons.inj hnew).1 (hsent x)
      · cases l <;> cases (List.cons.inj hnew).2
  · rcases append_split hlog with ⟨rest₀, hold, rfl⟩ | ⟨before₁, -, hnew⟩
    · exact h.fence before f rest₀ hold
    · rcases before₁ with _ | ⟨y, l⟩
      · exact absurd (List.cons.inj hnew).1 (hfence f)
      · cases l <;> cases (List.cons.inj hnew).2

theorem accept (h : Books key limit w log) {x : κ} (hx : key x ∉ (acceptedOf log).map key) :
    Books key limit (w.accept x) (log ++ [.accepted x]) := by
  have haccepted : acceptedOf (log ++ [.accepted x]) = acceptedOf log ++ [x] := acceptedOf_append log [.accepted x]
  have hsent : sentOf (log ++ [.accepted x]) = sentOf log := by
    rw [sentOf_append]
    exact List.append_nil _
  refine h.extend (by rintro _ ⟨⟩) (by rintro _ ⟨⟩) ?_ ?_ ?_
  · rw [haccepted, hsent, h.order, List.append_assoc]
    rfl
  · rw [haccepted, List.map_append, List.map_singleton]
    exact h.once.append (List.nodup_singleton _) (List.disjoint_singleton.mpr hx)
  · rw [outstanding_append]
    exact h.active

theorem free (h : Books key limit w log) (p : π) (reason : ρ) :
    Books key limit (w.free p) (log ++ [.freed p reason]) := by
  have haccepted : acceptedOf (log ++ [.freed p reason]) = acceptedOf log := by
    rw [acceptedOf_append]
    exact List.append_nil _
  have hsent : sentOf (log ++ [.freed p reason]) = sentOf log := by
    rw [sentOf_append]
    exact List.append_nil _
  refine h.extend (by rintro _ ⟨⟩) (by rintro _ ⟨⟩) ?_ ?_ ?_
  · rw [haccepted, hsent]
    exact h.order
  · rw [haccepted]
    exact h.once
  · rw [outstanding_append]
    exact congrArg (Finset.erase · p) h.active

/-- The front of the queue is sent: as much as there is room for, or all of it in front of a fence. -/
theorem send (h : Books key limit w log) {items rest : List κ} (hpending : w.pending = items ++ rest)
    {tail : List (Entry κ π ρ φ)} (htail : tail = [] ∧ items.length ≤ limit - w.active.card ∨
      ∃ f, tail = [.fence f] ∧ rest = []) :
    Books key limit ⟨rest, w.active ∪ (items.map key).toFinset⟩ (log ++ (items.map .sent ++ tail)) := by
  have hquiet : acceptedOf tail = [] ∧ sentOf tail = [] ∧
      ∀ active, tail.foldl (note key fun _ ↦ true) active = active := by
    rcases htail with ⟨rfl, -⟩ | ⟨f, rfl, -⟩ <;> exact ⟨rfl, rfl, fun _ ↦ rfl⟩
  have haccepted : acceptedOf (log ++ (items.map .sent ++ tail)) = acceptedOf log := by
    rw [acceptedOf_append, acceptedOf_append, acceptedOf_sent, hquiet.1, List.append_nil, List.append_nil]
  have hsent : sentOf (log ++ (items.map .sent ++ tail)) = sentOf log ++ items := by
    rw [sentOf_append, sentOf_append, sentOf_sent, hquiet.2.1, List.append_nil]
  refine ⟨?_, ?_, ?_, fun before x after hlog ↦ ?_, fun before f after hlog ↦ ?_⟩
  · rw [haccepted, hsent, h.order, hpending, List.append_assoc]
  · rw [haccepted]
    exact h.once
  · rw [← List.append_assoc, outstanding_append, hquiet.2.2, outstanding_sent, ← h.active]
  · rcases append_split hlog with ⟨after₀, hold, rfl⟩ | ⟨before₁, rfl, hnew⟩
    · exact (h.room before x after₀ hold).imp_right fun hflushed ↦ hflushed.append _
    rcases append_split hnew with ⟨after₀, hitems, rfl⟩ | ⟨before₂, -, hlast⟩
    · obtain ⟨l₁, l₂, rfl, rfl, hl₂⟩ := List.map_eq_append_iff.mp hitems
      obtain ⟨y, l₃, rfl, hy, rfl⟩ := List.map_eq_cons_iff.mp hl₂
      obtain rfl := Entry.sent.inj hy
      rcases htail with ⟨-, hroom⟩ | ⟨f, rfl, -⟩
      · refine .inl ?_
        rw [outstanding_append, outstanding_sent, ← h.active]
        have hinsert := Finset.card_insert_le (key y) (w.active ∪ (l₁.map key).toFinset)
        have hunion := Finset.card_union_le w.active (l₁.map key).toFinset
        have hitems := List.toFinset_card_le (l₁.map key)
        rw [List.length_map] at hitems
        rw [List.length_append, List.length_cons] at hroom
        exact hinsert.trans (by omega)
      · exact .inr ⟨l₃, f, [], rfl⟩
    · rcases htail with ⟨rfl, -⟩ | ⟨f, rfl, -⟩
      · cases before₂ <;> cases hlast
      · rcases before₂ with _ | ⟨_, _ | _⟩ <;> cases hlast
  · rcases append_split hlog with ⟨after₀, hold, rfl⟩ | ⟨before₁, rfl, hnew⟩
    · exact h.fence before f after₀ hold
    rcases append_split hnew with ⟨after₀, hitems, rfl⟩ | ⟨before₂, rfl, hlast⟩
    · obtain ⟨l₁, l₂, rfl, rfl, hl₂⟩ := List.map_eq_append_iff.mp hitems
      obtain ⟨y, l₃, rfl, hy, rfl⟩ := List.map_eq_cons_iff.mp hl₂
      cases hy
    · rcases htail with ⟨rfl, -⟩ | ⟨f', rfl, rfl⟩
      · cases before₂ <;> cases hlast
      · obtain rfl : before₂ = [] := by
          rcases before₂ with _ | ⟨_, _ | _⟩
          · rfl
          all_goals cases hlast
        rw [List.append_nil, acceptedOf_append, sentOf_append, acceptedOf_sent, sentOf_sent, h.order, hpending,
          List.append_nil, List.append_nil]

theorem dispatch (h : Books key limit w log) :
    Books key limit (w.dispatch key limit) (log ++ (w.ready limit).map .sent) := by
  have hsend : Books key limit (w.dispatch key limit) (log ++ ((w.ready limit).map .sent ++ [])) :=
    h.send (List.take_append_drop (limit - w.active.card) w.pending).symm (.inl ⟨rfl, List.length_take_le _ _⟩)
  rw [List.append_nil] at hsend
  exact hsend

/-- A flush and its fence. -/
theorem flush (h : Books key limit w log) (f : φ) :
    Books key limit ⟨[], w.active ∪ (w.pending.map key).toFinset⟩ (log ++ (w.pending.map .sent ++ [.fence f])) :=
  h.send (List.append_nil _).symm (.inr ⟨f, rfl, rfl⟩)

/-- What is pending has not been sent. -/
theorem fresh (h : Books key limit w log) : (w.pending.map key).Nodup ∧ ∀ x ∈ w.pending, key x ∉ w.active := by
  have honce := h.once
  rw [h.order, List.map_append, List.nodup_append'] at honce
  refine ⟨honce.2.1, fun x hx hactive ↦ ?_⟩
  rw [h.active] at hactive
  have hsent := List.mem_toFinset.mp (outstanding_subset _ log hactive)
  exact honce.2.2 hsent (List.mem_map_of_mem hx)

theorem takeAll (h : Books key limit w log) (n : ℕ) :
    Window.takeAll key n w.pending.length w = (w.ready n, w.dispatch key n) :=
  takeAll_eq w.pending h.fresh.1 h.fresh.2

/-- What waits, waits for a window that is full. -/
theorem waits (h : Books key limit w log) (hwaits : (w.dispatch key limit).pending ≠ []) :
    limit ≤ (w.dispatch key limit).active.card := by
  obtain ⟨honce, hnew⟩ := h.fresh
  have hlong : limit - w.active.card < w.pending.length := by
    by_contra hshort
    exact hwaits (List.drop_eq_nil_of_le (Nat.le_of_not_lt hshort))
  have hlength : (w.ready limit).length = limit - w.active.card := List.length_take_of_le hlong.le
  have hdisjoint : Disjoint w.active ((w.ready limit).map key).toFinset := by
    refine Finset.disjoint_right.mpr fun p hp ↦ ?_
    obtain ⟨x, hx, rfl⟩ := List.mem_map.mp (List.mem_toFinset.mp hp)
    exact hnew x (List.mem_of_mem_take hx)
  have hcard : ((w.ready limit).map key).toFinset.card = (w.ready limit).length := by
    rw [List.toFinset_card_of_nodup, List.length_map]
    exact honce.sublist ((List.take_sublist _ _).map key)
  rw [Window.dispatch, Finset.card_union_of_disjoint hdisjoint, hcard, hlength]
  omega

end Books

end Window

end Foundation
