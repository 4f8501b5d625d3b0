import Mathlib.Data.List.Basic
import Mathlib.Logic.Relation
import Tay.Lifecycle.Desk

/-!
# Every request is answered once

A docket is what remains of the guardian's desk if one only asks who is owed an answer: the running
operation and its row, the monitors of its driver, and the requests. It changes in a few ways only. An
operation is accepted when none is running and the row is claimed for it; it advances as the table of
transitions says; whoever waits for it is answered; and it is finished when nobody waits any more. Each
handler is a sequence of such moves, and an order of messages is a longer one.
-/

open Foundation

namespace Tay.Lifecycle

structure Docket where
  operation : Option Operation
  row : Option Row
  /-- The monitors of drivers. -/
  watched : List ℕ
  caller : Option ℕ
  calls : ℕ
  /-- The requests that were answered. -/
  answered : List ℕ
  accepted : List Request

namespace Docket

inductive Move (v : Docket) : Docket → Prop
  | unwatched {watched : List ℕ} : watched ⊆ v.watched → Move v { v with watched }
  | released : v.operation = none → Move v { v with row := none }
  | refused : Move v { v with calls := v.calls + 1, answered := v.answered ++ [v.calls] }
  | accepted {r : Row} {o : Operation} : v.operation = none → v.row = some r → r.stage = .claimed →
      o.token = r.token → o.phase = o.kind.firstPhase → o.driver = none → o.monitor = none →
      Move v { v with
        operation := some o
        row := some { r with stage := .submitted }
        caller := some v.calls
        calls := v.calls + 1
        accepted := ⟨o.token, o.kind, v.calls⟩ :: v.accepted }
  | answered {call : ℕ} : v.caller = some call →
      Move v { v with caller := none, answered := v.answered ++ [call] }
  | advanced {o : Operation} {event : Event} {phase : Phase} : v.operation = some o →
      transitions o.kind o.phase event = some phase →
      (phase.active = true → o.phase.active = true) →
      Move v { v with operation := some { o with phase } }
  | closed {o : Operation} {event : Event} (driver monitor : ℕ) : v.operation = some o →
      transitions o.kind o.phase event = some .closing →
      Move v { v with
        operation := some { o with phase := .closing, driver := some driver, monitor := some monitor }
        watched := monitor :: v.watched }
  | restated {o : Operation} {r : Row} : v.operation = some o → r.token = o.token → r.stage ≠ .claimed →
      Move v { v with row := some r }
  | finished {o : Operation} : v.operation = some o → v.caller = none →
      Move v { v with
        operation := none
        row := none
        watched := v.watched.filter fun ref ↦ o.monitor ≠ some ref }

abbrev Moves : Docket → Docket → Prop := Relation.ReflTransGen Move

/-- What holds between two messages, and between two moves. -/
structure Sound (v : Docket) : Prop where
  /-- Only the driver of the running operation is watched. -/
  watched : ∀ ref ∈ v.watched, ∃ o, v.operation = some o ∧ o.monitor = some ref
  kinded : ∀ o, v.operation = some o → o.phase = .compacting → o.kind = .compact
  driven : ∀ o, v.operation = some o → o.phase.active = true → o.driver = none ∧ o.monitor = none
  latest : ∀ o, v.operation = some o → ∃ a, v.accepted.head? = some a ∧ a.token = o.token ∧
    a.kind = o.kind ∧ ∀ call, v.caller = some call → call = a.call
  row : ∀ o, v.operation = some o → ∃ r, v.row = some r ∧ r.token = o.token ∧ r.stage ≠ .claimed
  claimed : v.operation = none → ∀ r, v.row = some r → r.stage = .claimed
  waiting : ∀ call, v.caller = some call →
    v.operation.isSome ∧ call < v.calls ∧ call ∉ v.answered
  answered : ∀ call < v.calls, call ∈ v.answered ∨ v.caller = some call
  once : v.answered.Nodup
  taken : ∀ call ∈ v.answered, call < v.calls
  numbered : (v.accepted.map Request.call).Nodup
  numbers : ∀ a ∈ v.accepted, a.call < v.calls

variable {v v' : Docket}

theorem transitions_compacting {kind : Kind} {phase : Phase} {event : Event}
    (h : transitions kind phase event = some .compacting) : kind = .compact := by
  revert h
  cases kind <;> cases phase <;> cases event <;> simp [transitions]

theorem Sound.move (h : Sound v) (hmove : Move v v') : Sound v' := by
  cases hmove with
  | unwatched hsub => exact { h with watched := fun ref href ↦ h.watched ref (hsub href) }
  | released hnone =>
    refine { h with row := ?_, claimed := ?_ }
    · intro o ho
      exact absurd (hnone.symm.trans ho) (by simp)
    · intro _ r hr
      cases hr
  | refused =>
    refine { h with waiting := ?_, answered := ?_, once := ?_, taken := ?_, numbers := ?_ }
    · intro call hcall
      obtain ⟨hsome, hlt, hnot⟩ := h.waiting call hcall
      refine ⟨hsome, Nat.lt_succ_of_lt hlt, fun hmem ↦ ?_⟩
      rcases List.mem_append.mp hmem with hmem | hmem
      · exact hnot hmem
      · exact absurd (List.mem_singleton.mp hmem) (Nat.ne_of_lt hlt)
    · intro call hlt
      rcases Nat.lt_succ_iff_lt_or_eq.mp hlt with hlt | rfl
      · exact (h.answered call hlt).imp_left (List.mem_append_left _)
      · exact .inl (List.mem_append_right _ List.mem_cons_self)
    · refine List.nodup_append'.mpr ⟨h.once, List.nodup_singleton _, ?_⟩
      intro call hmem hnew
      exact absurd (List.mem_singleton.mp hnew) (Nat.ne_of_lt (h.taken call hmem))
    · intro call hmem
      rcases List.mem_append.mp hmem with hmem | hmem
      · exact Nat.lt_succ_of_lt (h.taken call hmem)
      · obtain rfl := List.mem_singleton.mp hmem
        exact Nat.lt_succ_self _
    · exact fun a ha ↦ Nat.lt_succ_of_lt (h.numbers a ha)
  | @accepted r o hnone hrow hstage htoken hphase hdriver hmonitor =>
    have hidle : v.caller = none := by
      cases hcaller : v.caller with
      | none => rfl
      | some call =>
        have hsome := (h.waiting call hcaller).1
        rw [hnone] at hsome
        cases hsome
    have hunwatched : ∀ ref, ref ∉ v.watched := by
      intro ref href
      obtain ⟨o, ho, -⟩ := h.watched ref href
      exact absurd (hnone.symm.trans ho) (by simp)
    refine ⟨fun ref href ↦ absurd href (hunwatched ref), ?_, ?_, ?_, ?_, ?_, ?_, ?_, h.once, ?_, ?_, ?_⟩
    · rintro _ ⟨⟩ hcompacting
      rw [hphase] at hcompacting
      revert hcompacting
      cases o.kind <;> simp [Kind.firstPhase]
    · rintro _ ⟨⟩ _
      exact ⟨hdriver, hmonitor⟩
    · rintro _ ⟨⟩
      exact ⟨_, rfl, rfl, rfl, fun call hcall ↦ (Option.some.inj hcall).symm⟩
    · rintro _ ⟨⟩
      exact ⟨_, rfl, htoken.symm, by simp⟩
    · intro hsome
      cases hsome
    · rintro _ ⟨⟩
      refine ⟨rfl, Nat.lt_succ_self _, fun hmem ↦ ?_⟩
      exact absurd (h.taken _ hmem) (Nat.lt_irrefl _)
    · intro call hlt
      rcases Nat.lt_succ_iff_lt_or_eq.mp hlt with hlt | rfl
      · rcases h.answered call hlt with hmem | hwaits
        · exact .inl hmem
        · exact absurd (hidle.symm.trans hwaits) (by simp)
      · exact .inr rfl
    · exact fun call hmem ↦ Nat.lt_succ_of_lt (h.taken call hmem)
    · refine List.nodup_cons.mpr ⟨fun hmem ↦ ?_, h.numbered⟩
      obtain ⟨a, ha, hcall⟩ := List.mem_map.mp hmem
      exact absurd hcall (Nat.ne_of_lt (h.numbers a ha))
    · intro a ha
      rcases List.mem_cons.mp ha with rfl | ha
      · exact Nat.lt_succ_self _
      · exact Nat.lt_succ_of_lt (h.numbers a ha)
  | @answered call hcaller =>
    obtain ⟨hsome, hlt, hnot⟩ := h.waiting call hcaller
    refine { h with latest := ?_, waiting := ?_, answered := ?_, once := ?_, taken := ?_ }
    · intro o ho
      obtain ⟨a, ha, htoken, hkind, -⟩ := h.latest o ho
      refine ⟨a, ha, htoken, hkind, ?_⟩
      rintro _ ⟨⟩
    · rintro _ ⟨⟩
    · intro call' hlt'
      rcases h.answered call' hlt' with hmem | hwaits
      · exact .inl (List.mem_append_left _ hmem)
      · obtain rfl := Option.some.inj (hcaller.symm.trans hwaits)
        exact .inl (List.mem_append_right _ List.mem_cons_self)
    · refine List.nodup_append'.mpr ⟨h.once, List.nodup_singleton _, ?_⟩
      intro call' hmem hnew
      obtain rfl := List.mem_singleton.mp hnew
      exact hnot hmem
    · intro call' hmem
      rcases List.mem_append.mp hmem with hmem | hmem
      · exact h.taken call' hmem
      · obtain rfl := List.mem_singleton.mp hmem
        exact hlt
  | @advanced o event phase ho htransition hactive =>
    refine { h with watched := ?_, kinded := ?_, driven := ?_, latest := ?_, row := ?_, claimed := ?_, waiting := ?_ }
    · intro ref href
      obtain ⟨o', ho', hmonitor⟩ := h.watched ref href
      obtain rfl := Option.some.inj (ho.symm.trans ho')
      exact ⟨_, rfl, hmonitor⟩
    · rintro _ ⟨⟩ hcompacting
      obtain rfl : phase = .compacting := hcompacting
      exact transitions_compacting htransition
    · rintro _ ⟨⟩ hphase
      exact h.driven o ho (hactive hphase)
    · rintro _ ⟨⟩
      exact h.latest o ho
    · rintro _ ⟨⟩
      exact h.row o ho
    · intro hnone
      cases hnone
    · intro call hcall
      exact ⟨rfl, (h.waiting call hcall).2⟩
  | @closed o event driver monitor ho htransition =>
    refine { h with watched := ?_, kinded := ?_, driven := ?_, latest := ?_, row := ?_, claimed := ?_, waiting := ?_ }
    · intro ref href
      -- What closes was active until now, so that nothing was watched.
      have hactive : o.phase.active = true := by
        revert htransition
        cases o.kind <;> cases o.phase <;> cases event <;> simp [transitions, Phase.active]
      rcases List.mem_cons.mp href with rfl | href
      · exact ⟨_, rfl, rfl⟩
      · obtain ⟨o', ho', hmonitor⟩ := h.watched ref href
        obtain rfl := Option.some.inj (ho.symm.trans ho')
        exact absurd ((h.driven o ho hactive).2.symm.trans hmonitor) (by simp)
    · rintro _ ⟨⟩ hcompacting
      cases hcompacting
    · rintro _ ⟨⟩ hphase
      cases hphase
    · rintro _ ⟨⟩
      exact h.latest o ho
    · rintro _ ⟨⟩
      exact h.row o ho
    · intro hnone
      cases hnone
    · intro call hcall
      exact ⟨rfl, (h.waiting call hcall).2⟩
  | @restated o r ho htoken hstage =>
    refine { h with row := ?_, claimed := ?_ }
    · intro o' ho'
      obtain rfl := Option.some.inj (ho.symm.trans ho')
      exact ⟨r, rfl, htoken, hstage⟩
    · intro hnone
      exact absurd (ho.symm.trans hnone) (by simp)
  | @finished o ho hcaller =>
    refine { h with watched := ?_, kinded := ?_, driven := ?_, latest := ?_, row := ?_, claimed := ?_, waiting := ?_ }
    · intro ref href
      obtain ⟨hmem, hother⟩ := List.mem_filter.mp href
      obtain ⟨o', ho', hmonitor⟩ := h.watched ref hmem
      obtain rfl := Option.some.inj (ho.symm.trans ho')
      exact absurd hmonitor (of_decide_eq_true hother)
    · rintro _ ⟨⟩
    · rintro _ ⟨⟩
    · rintro _ ⟨⟩
    · rintro _ ⟨⟩
    · rintro _ _ ⟨⟩
    · intro call hcall
      exact absurd (hcaller.symm.trans hcall) (by simp)

/-- While an operation runs, nobody else has the row. -/
theorem Sound.idle (h : Sound v) {r : Row} (hrow : v.row = some r) (hstage : r.stage = .claimed) :
    v.operation = none := by
  cases ho : v.operation with
  | none => rfl
  | some o =>
    obtain ⟨r', hr', -, hother⟩ := h.row o ho
    obtain rfl := Option.some.inj (hrow.symm.trans hr')
    exact absurd hstage hother

theorem Sound.moves (h : Sound v) (hmoves : Moves v v') : Sound v' := by
  induction hmoves with
  | refl => exact h
  | tail _ hmove ih => exact ih.move hmove

theorem used_of_unclaimed {accepted : List Request} {row : Option Row}
    (h : ∀ r, row = some r → r.stage ≠ .claimed) :
    Desk.used accepted row = accepted.map Request.token := by
  have hnone : row.filter (·.stage = .claimed) = none := by
    rw [Option.filter_eq_none_iff]
    exact fun r hr hstage ↦ h r hr (of_decide_eq_true hstage)
  rw [Desk.used, hnone]
  rfl

theorem used_of_claimed {accepted : List Request} {r : Row} (h : r.stage = .claimed) :
    Desk.used accepted (some r) = r.token :: accepted.map Request.token := by
  rw [Desk.used, Option.filter_some, if_pos (decide_eq_true h)]
  rfl

/-- An operation is accepted under the token that its row was claimed with. -/
theorem Move.used (hmove : Move v v') :
    (Desk.used v'.accepted v'.row).Sublist (Desk.used v.accepted v.row) := by
  have hleast : (v.accepted.map Request.token).Sublist (Desk.used v.accepted v.row) :=
    List.sublist_append_right _ _
  cases hmove with
  | unwatched | refused | answered | advanced | closed => exact List.Sublist.refl _
  | released | finished => exact hleast
  | @accepted r o hnone hrow hstage htoken =>
    dsimp only
    rw [used_of_unclaimed (by rintro _ ⟨⟩; simp), hrow, used_of_claimed hstage, ← htoken]
    exact List.Sublist.refl _
  | @restated o r ho htoken hstage =>
    dsimp only
    rw [used_of_unclaimed (by rintro _ ⟨⟩; exact hstage)]
    exact hleast

theorem Moves.used (h : Moves v v') :
    (Desk.used v'.accepted v'.row).Sublist (Desk.used v.accepted v.row) := by
  induction h with
  | refl => exact List.Sublist.refl _
  | tail _ hmove ih => exact hmove.used.trans ih

theorem Moves.accepted (h : Moves v v') : v.accepted ⊆ v'.accepted := by
  induction h with
  | refl => exact fun a ha ↦ ha
  | tail _ hmove ih =>
    refine fun a ha ↦ ?_
    cases hmove with
    | accepted => exact List.mem_cons_of_mem _ (ih ha)
    | _ => exact ih ha

end Docket

/-! ## The guardian's part -/

namespace World

/-- The monitors of drivers. -/
def watched (w : World) : List ℕ := (w.monitors.filter (·.watch = .driver)).map Monitor.ref

/-- No operation is touched. -/
structure Idle (w w' : World) : Prop where
  operation : w'.operation = w.operation
  row : w'.row = w.row
  watched : w'.watched ⊆ w.watched

theorem Idle.trans {u v w : World} (h : Idle u v) (h' : Idle v w) : Idle u w :=
  ⟨h'.operation.trans h.operation, h'.row.trans h.row, fun _ href ↦ h.watched (h'.watched href)⟩

variable (w : World)

theorem Idle.refl : Idle w w := ⟨rfl, rfl, fun _ href ↦ href⟩

theorem idle_of_subset {w w' : World} (hoperation : w'.operation = w.operation) (hrow : w'.row = w.row)
    (hmonitors : w'.monitors ⊆ w.monitors) : Idle w w' := by
  refine ⟨hoperation, hrow, List.map_subset _ fun m hm ↦ ?_⟩
  obtain ⟨hmem, hdriver⟩ := List.mem_filter.mp hm
  exact List.mem_filter.mpr ⟨hmonitors hmem, hdriver⟩

theorem idle_publish (status : Status) : Idle w (w.publish status) :=
  idle_of_subset rfl rfl (List.Subset.refl _)

theorem idle_kill (p : ℕ) : Idle w (w.kill p) := by
  unfold kill
  split
  · exact idle_of_subset rfl rfl (List.Subset.refl _)
  · exact .refl w

theorem idle_killEngine : Idle w w.killEngine := by
  unfold killEngine
  split
  · exact w.idle_kill _
  · exact .refl w

theorem monitors_killEngine : w.killEngine.monitors = w.monitors := by
  unfold killEngine kill
  repeat' split
  all_goals rfl

theorem idle_monitor (watch : Watch) (target : ℕ) (h : watch ≠ .driver) :
    Idle w (w.monitor watch target) := by
  refine ⟨rfl, rfl, ?_⟩
  rw [watched, monitor, List.filter_cons_of_neg (by simpa using h)]
  exact fun _ href ↦ href

theorem idle_mergeSnapshot (mode : Mode) : Idle w (w.mergeSnapshot mode) := by
  unfold mergeSnapshot
  split
  · split
    · exact .refl w
    · exact w.idle_publish _
  · exact .refl w

theorem idle_release (slot : Slot) (token : ℕ) : Idle w (w.release slot token) := by
  unfold release
  dsimp only
  split
  · split <;> exact idle_of_subset rfl rfl (List.Subset.refl _)
  · split <;> exact idle_of_subset rfl rfl fun m hm ↦ List.mem_of_mem_filter hm

theorem idle_ownerDown (slot : Slot) (token : ℕ) : Idle w (w.handleOwnerDown slot token) := by
  unfold handleOwnerDown
  split
  · exact .refl w
  · split
    · exact w.idle_release slot token
    · exact .refl w

theorem idle_reserve (oracle : Oracle) (owner generation : ℕ) (slot : Slot) (token bytes : ℕ) :
    Idle w (w.handleReserve oracle owner generation slot token bytes) := by
  unfold handleReserve
  repeat' split
  case h_2 =>
    have hmonitored := w.idle_monitor (.owner slot token) owner (by simp)
    exact ⟨hmonitored.operation, hmonitored.row, hmonitored.watched⟩
  all_goals exact idle_of_subset rfl rfl (List.Subset.refl _)

theorem idle_completed (engine : ℕ) (slot : Slot) (token owner : ℕ) (mode : Mode) :
    Idle w (w.handleCompleted engine slot token owner mode) := by
  have hfinished : Idle w ((w.mergeSnapshot mode).finishDelivery slot token) :=
    (w.idle_mergeSnapshot mode).trans (idle_of_subset rfl rfl (List.Subset.refl _))
  have hdispatched : ∀ v : World, Idle w v → Idle w (v.dispatch w.settings.window) :=
    fun v hv ↦ hv.trans (idle_of_subset rfl rfl (List.Subset.refl _))
  unfold handleCompleted
  repeat' split
  case h_2.isTrue => exact hdispatched _ (hfinished.trans (idle_release _ slot token))
  all_goals exact .refl w

/-- The messages that no operation is concerned with. -/
def indifferent : Message → Bool
  | .reserve .. | .submit .. | .cancelReservation .. | .completed .. | .executionSnapshot .. |
    .commandYielded .. | .attachRuntime .. | .attachEngine .. | .attachWriter .. | .attachFence .. |
    .ready .. | .reconciliation .. | .switchRequested .. => true
  | _ => false

theorem idle_handle (oracle : Oracle) {m : Message} (hm : indifferent m = true) :
    Idle w (w.handle oracle m) := by
  have hsame : ∀ w' : World, w'.operation = w.operation → w'.row = w.row → w'.monitors = w.monitors →
      Idle w w' := fun w' hoperation hrow hmonitors ↦
    idle_of_subset hoperation hrow (by rw [hmonitors]; exact List.Subset.refl _)
  cases m with
  | reserve => exact w.idle_reserve oracle _ _ _ _ _
  | completed => exact w.idle_completed _ _ _ _ _
  | submit owner generation slot token =>
    simp only [handle, handleSubmit]
    repeat' split
    case h_2.isTrue.isTrue => exact hsame _ rfl rfl rfl
    case h_2.isTrue.isFalse => exact w.idle_release slot token
    all_goals exact .refl w
  | cancelReservation owner slot token =>
    simp only [handle, handleCancel]
    repeat' split
    case h_2.isTrue => exact w.idle_release slot token
    all_goals exact .refl w
  | executionSnapshot engine mode =>
    simp only [handle]
    split
    · exact w.idle_mergeSnapshot mode
    · exact .refl w
  | commandYielded | switchRequested | ready | reconciliation =>
    simp only [handle, handleReady, handleSwitchRequested]
    split <;> exact hsame _ rfl rfl rfl
  | attachRuntime p =>
    simp only [handle]
    split
    · have hmonitored := w.idle_monitor .runtime p (by simp)
      exact ⟨hmonitored.operation, hmonitored.row, hmonitored.watched⟩
    · exact .refl w
  | attachEngine p =>
    simp only [handle]
    split
    · have hmonitored := w.idle_monitor .engine p (by simp)
      exact ⟨hmonitored.operation, hmonitored.row, hmonitored.watched⟩
    · exact .refl w
  | attachWriter _ p =>
    simp only [handle]
    split
    · have hmonitored := w.idle_monitor .writer p (by simp)
      exact ⟨hmonitored.operation, hmonitored.row, hmonitored.watched⟩
    · exact .refl w
  | attachFence _ p =>
    simp only [handle]
    split
    · have hmonitored := w.idle_monitor .fence p (by simp)
      exact ⟨hmonitored.operation, hmonitored.row, hmonitored.watched⟩
    · exact .refl w
  | _ => cases hm

end World

namespace Desk

open Docket

variable {d d' : Desk} {oracle : Oracle}

def docket (d : Desk) : Docket :=
  ⟨d.world.operation, d.world.row, d.world.watched, d.caller, d.calls, d.replies.map Prod.fst, d.accepted⟩

theorem moves_guard {f : World → World} (h : World.Idle d.world (f d.world)) :
    Moves d.docket (d.guard f).docket := by
  have hdocket : (d.guard f).docket = { d.docket with watched := (f d.world).watched } := by
    rw [docket, guard]
    dsimp only
    rw [h.operation, h.row]
    rfl
  rw [hdocket]
  exact .single (.unwatched h.watched)

theorem moves_answer (r : Reply) : Moves d.docket (d.answer r).docket ∧ (d.answer r).caller = none := by
  unfold answer
  split
  case h_1 call hcall =>
    have hdocket : Desk.docket { d.reply call r with caller := none } =
        { d.docket with caller := none, answered := d.docket.answered ++ [call] } := by
      rw [docket, reply]
      dsimp only
      rw [List.map_append]
      rfl
    rw [hdocket]
    exact ⟨.single (.answered hcall), rfl⟩
  case h_2 hidle => exact ⟨.refl, hidle⟩

theorem moves_refuse (r : Reply) : Moves d.docket (d.refuse r).docket := by
  have hdocket : (d.refuse r).docket =
      { d.docket with calls := d.docket.calls + 1, answered := d.docket.answered ++ [d.docket.calls] } := by
    rw [docket, refuse, reply]
    dsimp only
    rw [List.map_append]
    rfl
  rw [hdocket]
  exact .single .refused

theorem moves_accept {owner token deadline : ℕ} (kind : Kind) (hfree : d.world.operation = none)
    (hrow : d.world.row = some ⟨token, owner, .claimed, deadline⟩) :
    Moves d.docket (d.accept owner token kind deadline).docket :=
  .single <| Move.accepted (v := d.docket) (r := ⟨token, owner, .claimed, deadline⟩)
    (o := ⟨token, kind, owner, deadline, kind.firstPhase, none, none⟩) hfree hrow rfl rfl rfl rfl rfl

theorem finishOperation_moves {o : Operation} (ho : d.world.operation = some o) (r : Reply) :
    ∃ d', d.finishOperation r = some d' ∧ Moves d.docket d'.docket ∧ d'.world.operation = none := by
  obtain ⟨hanswered, hidle⟩ := d.moves_answer r
  have hsame := d.world_answer r
  unfold finishOperation
  rw [ho]
  refine ⟨_, rfl, hanswered.tail ?_, World.operation_finishOperation _⟩
  have hoperation : (d.answer r).docket.operation = some o := (congrArg World.operation hsame).trans ho
  have hdocket : Desk.docket { (d.answer r).guard (·.finishOperation) with stats := none } =
      { (d.answer r).docket with
        operation := none
        row := none
        watched := (d.answer r).docket.watched.filter fun ref ↦ o.monitor ≠ some ref } := by
    have hworld : (d.answer r).world.finishOperation =
        { (d.answer r).world.demonitor (fun m ↦ o.monitor = some m.ref) with
          row := none, operation := none } := by
      rw [World.finishOperation, hsame, ho]
    rw [docket, guard]
    dsimp only
    rw [hworld]
    refine congrArg (fun watched ↦ Docket.mk none none watched _ _ _ _) ?_
    simp only [World.watched, docket, World.demonitor, List.filter_map, List.filter_filter]
    refine congrArg (List.map Monitor.ref) (List.filter_congr fun m _ ↦ ?_)
    simp [Bool.and_comm]
  rw [hdocket]
  exact .finished hoperation hidle

theorem revoke_moves : ∃ d', d.revoke = some d' ∧ Moves d.docket d'.docket ∧
    (d.world.operation.any (·.phase = .draining) = false → d'.world.operation = d.world.operation) := by
  have hpublished : Moves d.docket (d.guard (·.publish (.transition .failed))).docket :=
    moves_guard (d.world.idle_publish _)
  have hkilled : ∀ next : Desk,
      Moves next.docket (next.guard fun w ↦ { w.killEngine with delivery := .new }).docket :=
    fun next ↦ moves_guard (next.world.idle_killEngine.trans (World.idle_of_subset rfl rfl (List.Subset.refl _)))
  unfold revoke
  dsimp only
  split
  case isTrue hdraining =>
    obtain ⟨o, ho, -⟩ := (Option.any_eq_true _ _).mp hdraining
    obtain ⟨next, hnext, hmoves, -⟩ := finishOperation_moves ho .error
    rw [hnext]
    refine ⟨_, rfl, (hpublished.trans hmoves).trans (hkilled next), fun hnot ↦ ?_⟩
    exact absurd hdraining (by rw [guard]; exact hnot ▸ Bool.false_ne_true)
  case isFalse hdraining =>
    refine ⟨_, rfl, hpublished.trans (hkilled _), fun _ ↦ ?_⟩
    exact (World.idle_killEngine _).operation

theorem closeGeneration_moves {o : Operation} {event : Event} (ho : d.world.operation = some o)
    (htransition : transitions o.kind o.phase event = some .closing) :
    Moves d.docket (d.guard (·.closeGeneration { o with phase := .closing })).docket := by
  obtain ⟨w, hw⟩ : ∃ w : World, w = (({ d.world with
      row := some ⟨o.token, o.owner, .closing, o.deadline⟩
      operation := some { o with phase := .closing } } : World).publish (.transition .stopping)).killEngine :=
    ⟨_, rfl⟩
  have hrow : w.row = some ⟨o.token, o.owner, .closing, o.deadline⟩ := by
    rw [hw]
    exact (World.idle_killEngine _).row
  have hwatched : w.watched = d.world.watched := by
    rw [hw, World.watched, World.monitors_killEngine]
    rfl
  have hdocket : (d.guard (·.closeGeneration { o with phase := .closing })).docket =
      { d.docket with
        operation := some { o with phase := .closing, driver := some w.fresh, monitor := some (w.fresh + 1) }
        row := some ⟨o.token, o.owner, .closing, o.deadline⟩
        watched := (w.fresh + 1) :: d.docket.watched } := by
    have hclosed : d.world.closeGeneration { o with phase := .closing } =
        { ({ w with fresh := w.fresh + 1 } : World).monitor .driver w.fresh with
          operation := some { o with phase := .closing, driver := some w.fresh, monitor := some (w.fresh + 1) } } := by
      rw [hw]
      rfl
    rw [docket, guard, hclosed]
    dsimp only [World.monitor]
    rw [hrow]
    refine congrArg (fun watched ↦ Docket.mk _ _ watched _ _ _ _) ?_
    exact congrArg ((w.fresh + 1) :: ·) hwatched
  rw [hdocket]
  refine .tail (.single (.closed w.fresh (w.fresh + 1) ho htransition)) ?_
  exact .restated rfl rfl (by simp)

theorem close_closing {kind : Kind} {phase next : Phase} (h : transitions kind phase .close = some next) :
    next = .closing := by
  revert h
  cases kind <;> cases phase <;> simp [transitions, eq_comm]

theorem beginClosing_moves {o : Operation} (ho : d.world.operation = some o)
    (hclosable : (transitions o.kind o.phase .close).isSome) :
    ∃ d', d.beginClosing = some d' ∧ Moves d.docket d'.docket := by
  obtain ⟨phase, hphase⟩ := Option.isSome_iff_exists.mp hclosable
  obtain rfl := close_closing hphase
  unfold beginClosing
  rw [ho]
  dsimp only
  rw [hphase]
  exact ⟨_, rfl, closeGeneration_moves ho hphase⟩

theorem expireOperation_moves {o : Operation} (ho : d.world.operation = some o) :
    ∃ d', d.expireOperation = some d' ∧ Moves d.docket d'.docket := by
  unfold expireOperation
  rw [ho]
  dsimp only
  split
  · split
    · obtain ⟨d', hd', hmoves, -⟩ := finishOperation_moves (d := d.guard (·.publish (.transition .ready))) ho .error
      exact ⟨d', hd', (moves_guard (d.world.idle_publish _)).trans hmoves⟩
    · obtain ⟨d', hd', hmoves, -⟩ := finishOperation_moves ho .error
      exact ⟨d', hd', hmoves⟩
  · exact ⟨_, rfl, (d.moves_answer _).1⟩

theorem handleOperation_moves (oracle : Oracle) (hsound : d.docket.Sound) (owner generation token : ℕ) (kind : Kind)
    (force : Bool) (deadline : ℕ) (valid : Bool) :
    ∃ d', d.handleOperation oracle owner generation token kind force deadline valid = some d' ∧
      Moves d.docket d'.docket := by
  unfold handleOperation
  dsimp only
  split
  case isFalse hrow => exact ⟨_, rfl, d.moves_refuse _⟩
  case isTrue hrow =>
    have hfree : d.world.operation = none := hsound.idle hrow rfl
    split
    case isFalse hstart =>
      exact ⟨_, rfl, .head (.released hfree) (moves_refuse (d := d.guard fun w ↦ { w with row := none }) .error)⟩
    case isTrue hstart =>
      have haccepted := moves_accept kind hfree hrow
      split
      case isTrue hnow =>
        -- What closes at once is no compaction: that needs a guardian that serves, and no force.
        have hclosable : (transitions kind kind.firstPhase .close).isSome := by
          revert hstart hnow
          cases kind with
          | compact =>
            simp only [World.startable, Bool.and_eq_true, decide_eq_true_eq, Bool.not_eq_true']
            rintro ⟨-, hready, hforce⟩ hnow
            rw [hforce, hready] at hnow
            exact absurd hnow (by decide)
          | stop | restart => exact fun _ _ ↦ rfl
        obtain ⟨d', hd', hmoves⟩ := beginClosing_moves (d := d.accept owner token kind deadline) rfl hclosable
        exact ⟨d', hd', haccepted.trans hmoves⟩
      case isFalse hnow =>
        cases kind with
        | compact => exact ⟨_, rfl, haccepted.trans (moves_guard (World.idle_publish _ _))⟩
        | stop | restart =>
          exact ⟨_, rfl, haccepted.trans (moves_guard (World.idle_of_subset rfl rfl (List.Subset.refl _)))⟩

/-- The policy claims the row that nobody has. -/
def Claims (m : Message) (v v' : Docket) : Prop :=
  v' = v ∨ ∃ policy token generation deadline, m = .automaticCompaction policy token generation deadline ∧
    v.row = none ∧ v' = { v with row := some ⟨token, policy, .claimed, deadline⟩ }

theorem Claims.sound {m : Message} {v v' : Docket} (h : Claims m v v') (hsound : v.Sound) : v'.Sound := by
  rcases h with rfl | ⟨policy, token, generation, deadline, -, hrow, rfl⟩
  · exact hsound
  · refine { hsound with row := ?_, claimed := ?_ }
    · intro o ho
      obtain ⟨r, hr, -⟩ := hsound.row o ho
      exact absurd (hrow.symm.trans hr) (by simp)
    · rintro _ _ ⟨⟩
      rfl

theorem handleAutomatic_moves (hsound : d.docket.Sound) (policy token generation deadline : ℕ) :
    ∃ d', d.handleAutomatic oracle policy token generation deadline = some d' ∧
      ∃ v, Claims (.automaticCompaction policy token generation deadline) d.docket v ∧
        Moves v d'.docket := by
  unfold handleAutomatic
  split
  case isFalse => exact ⟨d, rfl, _, .inl rfl, .refl⟩
  case isTrue hpolicy =>
    split
    case isFalse => exact ⟨_, rfl, _, .inl rfl, d.moves_refuse _⟩
    case isTrue hready =>
      have hclaims : Claims (.automaticCompaction policy token generation deadline) d.docket
          (d.guard fun w ↦ { w with row := some ⟨token, policy, .claimed, deadline⟩ }).docket :=
        .inr ⟨policy, token, generation, deadline, rfl, hready.2.2, rfl⟩
      obtain ⟨d', hd', hmoves⟩ := handleOperation_moves oracle (hclaims.sound hsound) policy generation
        token .compact false deadline true
      exact ⟨d', hd', _, hclaims, hmoves⟩

/-- An operation that a notice ends. -/
theorem ended_moves {o : Operation} (ho : d.world.operation = some o) (status : Status) (r : Reply) :
    ∃ d', (d.guard (·.publish status)).finishOperation r = some d' ∧ Moves d.docket d'.docket := by
  obtain ⟨d', hd', hmoves, -⟩ := finishOperation_moves (d := d.guard (·.publish status)) ho r
  exact ⟨d', hd', (moves_guard (d.world.idle_publish status)).trans hmoves⟩

theorem handleUnsupported_moves (engine token : ℕ) :
    ∃ d', d.handleUnsupported engine token = some d' ∧ Moves d.docket d'.docket := by
  unfold handleUnsupported
  split
  · exact ⟨d, rfl, .refl⟩
  case h_2 o ho =>
    obtain ⟨-, hoperation, -, hcompaction⟩ := d.world.current_eq_some ho
    obtain ⟨hkind, hphase⟩ : o.kind = .compact ∧ o.phase = .compacting := by
      simpa [World.inCompaction] using hcompaction
    have htransition : transitions o.kind o.phase .offlineFallback = some .draining := by
      rw [hkind, hphase]
      rfl
    rw [htransition]
    refine ⟨_, rfl, .head (.advanced hoperation htransition fun _ ↦ by rw [hphase]; rfl) ?_⟩
    exact moves_guard (d := d.guard fun w ↦ { w with operation := some { o with phase := .draining } })
      (f := fun w ↦ (w.publish ⟨.migrating, some .draining⟩).flushCommands)
      (World.idle_of_subset rfl rfl (List.Subset.refl _))

theorem handleDrained_moves (engine token : ℕ) :
    ∃ d', d.handleDrained oracle engine token = some d' ∧ Moves d.docket d'.docket := by
  unfold handleDrained
  split
  · exact ⟨d, rfl, .refl⟩
  case h_2 o ho =>
    obtain ⟨-, hoperation, -, hphase⟩ := d.world.current_eq_some ho
    have hdraining : o.phase = .draining := of_decide_eq_true hphase
    obtain ⟨d', hd', hmoves⟩ := expireOperation_moves hoperation
    cases hkind : o.kind with
    | compact =>
      have htransition : transitions o.kind o.phase .drained = some .compacting := by
        rw [hkind, hdraining]
        rfl
      rw [← hkind, htransition]
      dsimp only
      split
      · exact ⟨d', hd', hmoves⟩
      · exact ⟨_, rfl, .single (.advanced hoperation htransition fun _ ↦ by rw [hdraining]; rfl)⟩
    | stop | restart =>
      have htransition : transitions o.kind o.phase .drained = some .closing := by
        rw [hkind, hdraining]
        rfl
      rw [← hkind, htransition]
      dsimp only
      split
      · exact ⟨d', hd', hmoves⟩
      · exact ⟨_, rfl, closeGeneration_moves hoperation htransition⟩

theorem handleCompactionResult_moves (engine token : ℕ) (ok : Bool) :
    ∃ d', d.handleCompactionResult engine token ok = some d' ∧ Moves d.docket d'.docket := by
  unfold handleCompactionResult
  split
  · exact ⟨d, rfl, .refl⟩
  case h_2 o ho =>
    obtain ⟨-, hoperation, -, hcompaction⟩ := d.world.current_eq_some ho
    obtain ⟨hkind, hphase⟩ : o.kind = .compact ∧ o.phase = .compacting := by
      simpa [World.inCompaction] using hcompaction
    exact beginClosing_moves (d := { d with stats := some ok }) hoperation (by rw [hkind, hphase]; rfl)

theorem handleStarting_moves (driver token : ℕ)
    (hkind : ∀ o, d.world.operation = some o → o.token = token → o.kind ≠ .stop) :
    ∃ d', d.handleStarting driver token = some d' ∧ Moves d.docket d'.docket := by
  unfold handleStarting
  split
  · exact ⟨d, rfl, .refl⟩
  case h_2 o ho =>
    split
    case isFalse => exact ⟨d, rfl, .refl⟩
    case isTrue hdriver =>
      obtain ⟨htoken, -, hclosing⟩ := hdriver
      have htransition : transitions o.kind o.phase .starting = some .starting := by
        have hstop := hkind o ho htoken
        revert hstop
        rw [hclosing]
        cases o.kind <;> simp [transitions]
      rw [htransition]
      have hcleared : Moves d.docket (d.guard (·.resetGeneration)).docket :=
        moves_guard (World.idle_of_subset rfl rfl fun _ hm ↦ List.mem_of_mem_filter hm)
      refine ⟨_, rfl, (hcleared.tail (.advanced ho htransition ?_)).tail (.restated rfl htoken.symm (by simp))⟩
      exact fun hactive ↦ by cases hactive

theorem idle_stopped (w : World) : World.Idle w w.stopped :=
  World.idle_of_subset rfl rfl fun _ hm ↦ List.mem_of_mem_filter hm

/-- Whatever the result means for the guardian, the operation is still there to be finished. -/
theorem conclude_moves (oracle : Oracle) {o : Operation} (ho : d.world.operation = some o) (hphase : o.phase ≠ .draining)
    (result : DriverResult) : ∃ next, (d.conclude oracle o result).1 = some next ∧
      Moves d.docket next.docket ∧ next.world.operation = some o := by
  obtain ⟨revoked, hrevoked, hmoves, hkept⟩ := d.revoke_moves
  have hrunning : revoked.world.operation = some o := by
    rw [hkept (by rw [ho, Option.any_some, decide_eq_false hphase]), ho]
  unfold conclude
  split
  · exact ⟨_, rfl, moves_guard (idle_stopped _), ho⟩
  · exact ⟨_, rfl, moves_guard (idle_stopped _), ho⟩
  · split
    · exact ⟨d, rfl, .refl, ho⟩
    · exact ⟨revoked, hrevoked, hmoves, hrunning⟩
  · split
    · exact ⟨d, rfl, .refl, ho⟩
    · exact ⟨revoked, hrevoked, hmoves, hrunning⟩
  · exact ⟨revoked, hrevoked, hmoves, hrunning⟩

theorem handleResult_moves (hsound : d.docket.Sound) (driver token : ℕ) (result : DriverResult) :
    ∃ d', d.handleResult oracle driver token result = some d' ∧ Moves d.docket d'.docket := by
  unfold handleResult
  split
  · exact ⟨d, rfl, .refl⟩
  case h_2 o ho =>
    split
    case isFalse => exact ⟨d, rfl, .refl⟩
    case isTrue hdriver =>
      -- An operation with a driver does not drain, so that a revocation leaves it alone.
      have hphase : o.phase ≠ .draining := by
        intro hdraining
        have hdriven := (hsound.driven o ho (by rw [hdraining]; rfl)).1
        exact absurd (hdriven.symm.trans hdriver.1) (by simp)
      obtain ⟨next, hnext, hmoves, hrunning⟩ := conclude_moves oracle ho hphase result
      obtain ⟨d', hd', hfinished, -⟩ := finishOperation_moves hrunning (d.conclude oracle o result).2
      exact ⟨d', by rw [hnext]; exact hd', hmoves.trans hfinished⟩

theorem handleComponentDown_moves : ∃ d', d.handleComponentDown = some d' ∧ Moves d.docket d'.docket := by
  unfold handleComponentDown
  split
  case isTrue hcompacting =>
    obtain ⟨o, ho, -⟩ := (Option.any_eq_true _ _).mp hcompacting
    obtain ⟨next, hnext, hfinished, -⟩ := finishOperation_moves ho .error
    obtain ⟨d', hd', hrevoked, -⟩ := next.revoke_moves
    exact ⟨d', by rw [hnext]; exact hd', hfinished.trans hrevoked⟩
  case isFalse =>
    split
    · exact ⟨d, rfl, .refl⟩
    · obtain ⟨d', hd', hrevoked, -⟩ := d.revoke_moves
      exact ⟨d', hd', hrevoked⟩

theorem handleDown_moves (hsound : d.docket.Sound) (ref : ℕ) :
    ∃ d', d.handleDown ref = some d' ∧ Moves d.docket d'.docket := by
  unfold handleDown
  split
  · exact ⟨d, rfl, .refl⟩
  case h_2 m hm =>
    split
    case h_5 hwatch =>
      have hwatched : m.ref ∈ d.world.watched :=
        List.mem_map_of_mem (List.mem_filter.mpr ⟨List.mem_of_find?_eq_some hm, decide_eq_true hwatch⟩)
      obtain ⟨o, ho, hmonitor⟩ := hsound.watched m.ref hwatched
      have hphase : d.world.operation.any (·.phase = .draining) = false := by
        replace ho : d.world.operation = some o := ho
        rw [ho, Option.any_some, decide_eq_false]
        intro hdraining
        have hdriven := (hsound.driven o ho (by rw [hdraining]; rfl)).2
        exact absurd (hdriven.symm.trans hmonitor) (by simp)
      obtain ⟨revoked, hrevoked, hmoves, hkept⟩ := d.revoke_moves
      obtain ⟨d', hd', hfinished, -⟩ := finishOperation_moves ((hkept hphase).trans ho) .error
      exact ⟨d', by rw [hrevoked]; exact hd', hmoves.trans hfinished⟩
    case h_6 _ slot token _ => exact ⟨_, rfl, moves_guard (d.world.idle_ownerDown slot token)⟩
    all_goals exact handleComponentDown_moves

/-- A claim is withdrawn, or has expired. -/
theorem unclaimed_moves (hsound : d.docket.Sound) {f : World → World}
    (hoperation : (f d.world).operation = d.world.operation) (hmonitors : (f d.world).monitors = d.world.monitors)
    (hrow : (f d.world).row = d.world.row ∨
      (f d.world).row = none ∧ ∃ r, d.world.row = some r ∧ r.stage = .claimed) :
    Moves d.docket (d.guard f).docket := by
  rcases hrow with hsame | ⟨hnone, r, hr, hstage⟩
  · exact moves_guard (World.idle_of_subset hoperation hsame (by rw [hmonitors]; exact List.Subset.refl _))
  · have hdocket : (d.guard f).docket = { d.docket with row := none } := by
      rw [docket, guard]
      dsimp only
      rw [hoperation, hnone, World.watched, hmonitors]
      rfl
    rw [hdocket]
    exact .single (.released (hsound.idle hr hstage))

/-- One message: the policy may claim the row, and then the desk makes its moves. In particular no handler
fails. -/
theorem handle_moves (oracle : Oracle) (hsound : d.docket.Sound) (m : Message)
    (hkind : ∀ driver token, m = .operationStarting driver token →
      ∀ o, d.world.operation = some o → o.token = token → o.kind ≠ .stop) :
    ∃ d', d.handle oracle m = some d' ∧ ∃ v, Claims m d.docket v ∧ Moves v d'.docket := by
  have hplain : ∀ next : Option Desk, (∃ d', next = some d' ∧ Moves d.docket d'.docket) →
      ∃ d', next = some d' ∧ ∃ v, Claims m d.docket v ∧ Moves v d'.docket := by
    rintro next ⟨d', hd', hmoves⟩
    exact ⟨d', hd', _, .inl rfl, hmoves⟩
  have hrevoked : ∃ d', d.revoke = some d' ∧ Moves d.docket d'.docket := by
    obtain ⟨d', hd', hmoves, -⟩ := d.revoke_moves
    exact ⟨d', hd', hmoves⟩
  cases m with
  | operation => exact hplain _ (handleOperation_moves oracle hsound _ _ _ _ _ _ _)
  | automaticCompaction => exact handleAutomatic_moves hsound _ _ _ _
  | operationStarting driver token => exact hplain _ (handleStarting_moves _ _ (hkind driver token rfl))
  | operationResult => exact hplain _ (handleResult_moves hsound _ _ _)
  | operationDeadline token =>
    refine hplain _ ?_
    simp only [handle]
    split
    case isTrue hcurrent =>
      obtain ⟨o, ho, -⟩ := (Option.any_eq_true _ _).mp hcurrent
      exact expireOperation_moves ho
    case isFalse => exact ⟨d, rfl, .refl⟩
  | sourceChanged | policyDraining | onlineResult =>
    refine hplain _ ?_
    simp only [handle, handleSourceChanged, handlePolicyDraining, handleOnlineResult]
    split
    · exact ⟨d, rfl, .refl⟩
    case h_2 o ho => exact ended_moves (d.world.current_eq_some ho).2.1 _ _
  | onlineUnsupported => exact hplain _ (handleUnsupported_moves _ _)
  | operationDrained => exact hplain _ (handleDrained_moves _ _)
  | compactionResult => exact hplain _ (handleCompactionResult_moves _ _ _)
  | writerEvent writer event =>
    refine hplain _ ?_
    simp only [handle, handleWriterEvent]
    repeat' split
    case isTrue.isFalse.isFalse => exact hrevoked
    all_goals exact ⟨d, rfl, .refl⟩
  | fenceRevoked generation =>
    refine hplain _ ?_
    simp only [handle, handleFenceRevoked]
    repeat' split
    case isTrue.isFalse => exact hrevoked
    all_goals exact ⟨d, rfl, .refl⟩
  | down => exact hplain _ (handleDown_moves hsound _)
  | cancelOperationClaim owner token =>
    refine hplain _ ⟨_, rfl, unclaimed_moves hsound ?_ ?_ ?_⟩ <;> simp only [World.handle]
    · split <;> rfl
    · split <;> rfl
    · split
      case isTrue hclaimed =>
        obtain ⟨r, hr, hstage⟩ := (Option.any_eq_true _ _).mp hclaimed
        simp only [Bool.and_eq_true, decide_eq_true_eq] at hstage
        exact .inr ⟨rfl, r, hr, hstage.2⟩
      case isFalse => exact .inl rfl
  | reap =>
    refine hplain _ ⟨_, rfl, unclaimed_moves hsound rfl rfl ?_⟩
    simp only [World.handle, World.handleReap]
    cases hr : d.world.row with
    | none => exact .inl rfl
    | some r =>
      rw [Option.filter_some]
      split
      case isTrue => exact .inl rfl
      case isFalse hexpired =>
        refine .inr ⟨rfl, r, rfl, ?_⟩
        simp only [Bool.not_eq_true', Bool.not_eq_false, Bool.and_eq_true, decide_eq_true_eq] at hexpired
        exact hexpired.1
  | _ => exact hplain _ ⟨_, rfl, moves_guard (d.world.idle_handle oracle rfl)⟩

/-! ## Late messages -/

end Desk

/-- The token of the operation that a message is about. -/
def Message.about : Message → Option ℕ
  | .operation _ _ token _ _ _ _ | .automaticCompaction _ token _ _ | .cancelOperationClaim _ token |
    .operationStarting _ token | .operationResult _ token _ | .operationDeadline token |
    .sourceChanged _ token | .policyDraining _ token | .onlineUnsupported _ token |
    .switchRequested _ token | .onlineResult _ token _ | .operationDrained _ token |
    .compactionResult _ token _ => some token
  | _ => none

/-- At most, somebody is refused. -/
structure Desk.Unmoved (d d' : Desk) : Prop where
  world : d'.world = d.world
  caller : d'.caller = d.caller
  stats : d'.stats = d.stats
  accepted : d'.accepted = d.accepted

namespace Desk

open Docket

variable {d d' : Desk}

theorem Unmoved.refl (d : Desk) : Unmoved d d := ⟨rfl, rfl, rfl, rfl⟩

theorem current_stale {o : Operation} {engine token : ℕ} {p : Operation → Bool}
    (ho : d.world.operation = some o) (hne : token ≠ o.token) : d.world.current engine token p = none := by
  unfold World.current
  split
  · rw [ho, Option.filter_some, if_neg]
    simp [hne.symm]
  · rfl

/-- A message about another operation than the one that runs. -/
theorem handle_stale (hsound : d.docket.Sound) (oracle : Oracle) {o : Operation} {m : Message} {token : ℕ}
    (ho : d.world.operation = some o) (hm : m.about = some token) (hne : token ≠ o.token) :
    ∃ d', d.handle oracle m = some d' ∧ Unmoved d d' := by
  have hcurrent : ∀ {engine : ℕ} {p : Operation → Bool}, d.world.current engine token p = none :=
    current_stale ho hne
  cases m with
  | operation owner generation t kind force deadline valid =>
    obtain rfl := Option.some.inj hm
    have hrow : d.world.row ≠ some ⟨t, owner, .claimed, deadline⟩ := by
      intro hrow
      exact absurd (ho.symm.trans (hsound.idle hrow rfl)) (by simp)
    rw [handle, handleOperation, if_neg hrow]
    exact ⟨_, rfl, rfl, rfl, rfl, rfl⟩
  | automaticCompaction policy t generation deadline =>
    have hbusy : d.world.policyReady oracle = false := by
      rw [World.policyReady, ho]
      rfl
    rw [handle, handleAutomatic]
    split
    · rw [if_neg (by rw [hbusy]; simp)]
      exact ⟨_, rfl, rfl, rfl, rfl, rfl⟩
    · exact ⟨d, rfl, .refl d⟩
  | operationStarting driver t | operationResult driver t result =>
    obtain rfl := Option.some.inj hm
    simp only [handle, handleStarting, handleResult, ho]
    rw [if_neg fun h ↦ by simp_all]
    exact ⟨d, rfl, .refl d⟩
  | operationDeadline t =>
    obtain rfl := Option.some.inj hm
    rw [handle, ho, Option.any_some, if_neg (by simpa using hne.symm)]
    exact ⟨d, rfl, .refl d⟩
  | sourceChanged engine t | policyDraining engine t | onlineUnsupported engine t
  | onlineResult engine t ok | operationDrained engine t | compactionResult engine t ok =>
    obtain rfl := Option.some.inj hm
    simp only [handle, handleSourceChanged, handlePolicyDraining, handleUnsupported, handleOnlineResult,
      handleDrained, handleCompactionResult, hcurrent]
    exact ⟨d, rfl, .refl d⟩
  | switchRequested engine t =>
    obtain rfl := Option.some.inj hm
    refine ⟨_, rfl, ?_, rfl, rfl, rfl⟩
    simp only [guard, World.handle, World.handleSwitchRequested, hcurrent]
  | cancelOperationClaim owner t =>
    obtain rfl := Option.some.inj hm
    obtain ⟨r, hr, -, hstage⟩ := hsound.row o ho
    refine ⟨_, rfl, ?_, rfl, rfl, rfl⟩
    replace hr : d.world.row = some r := hr
    simp only [guard, World.handle, hr, Option.any_some, decide_eq_false hstage, Bool.and_false,
      Bool.false_eq_true, if_false]
  | _ => cases hm

/-! ## Every run -/

/-- What every reachable desk keeps, with what is on its way to it. -/
structure Kept (d : Desk) : Prop where
  sound : d.docket.Sound
  unique : (used d.accepted d.world.row ++ proposed d.world.mailbox).Nodup
  starting : ∀ driver token, Message.operationStarting driver token ∈ d.world.mailbox →
    ∃ a ∈ d.accepted, a.token = token ∧ a.kind ≠ .stop

theorem proposed_append (xs ys : List Message) : proposed (xs ++ ys) = proposed xs ++ proposed ys :=
  List.filterMap_append

theorem proposed_letters (w : World) : proposed w.letters = proposed w.mailbox := by
  rw [proposed, World.letters, List.filterMap_filter]
  refine List.filterMap_congr fun m _ ↦ ?_
  cases m <;> rfl

theorem mem_letters {w : World} {driver token : ℕ} :
    Message.operationStarting driver token ∈ w.letters ↔ Message.operationStarting driver token ∈ w.mailbox := by
  simp [World.letters, Message.isDown]

theorem Starts.kept (h : Starts d) : Kept d := by
  have hdocket : d.docket = ⟨none, none, [], none, 0, [], []⟩ := by
    rw [docket, h.world.operation, h.world.row, World.watched, h.world.monitors, h.caller, h.calls, h.replies,
      h.accepted]
    rfl
  refine ⟨?_, ?_, ?_⟩
  · rw [hdocket]
    constructor <;> simp
  · rw [h.world.row, h.accepted, h.world.mailbox]
    exact List.nodup_nil
  · intro driver token hmem
    rw [h.world.mailbox] at hmem
    cases hmem

/-- What changes no operation, and posts nothing that an operation depends on. -/
theorem Kept.aside (h : Kept d) {w : World} (hidle : World.Idle d.world w) {ms : List Message}
    (hmailbox : w.mailbox = d.world.mailbox ++ ms) (hproposed : proposed ms = [])
    (hstarting : ∀ driver token, Message.operationStarting driver token ∉ ms) : Kept { d with world := w } := by
  refine ⟨h.sound.moves (moves_guard (f := fun _ ↦ w) hidle), ?_, ?_⟩
  · dsimp only
    rw [hidle.row, hmailbox, proposed_append, hproposed, List.append_nil]
    exact h.unique
  · intro driver token hmem
    dsimp only at hmem
    rw [hmailbox] at hmem
    rcases List.mem_append.mp hmem with hmem | hmem
    · exact h.starting driver token hmem
    · exact absurd hmem (hstarting driver token)

theorem Kept.handled (h : Kept d) (oracle : Oracle) {m : Message} {rest : List Message}
    (hmailbox : d.world.mailbox = m :: rest) :
    ∃ d', (d.guard fun w ↦ { w with mailbox := rest }).handle oracle m = some d' ∧ Kept d' := by
  have hkind : ∀ driver token, m = .operationStarting driver token →
      ∀ o, d.world.operation = some o → o.token = token → o.kind ≠ .stop := by
    rintro driver token rfl o ho rfl
    obtain ⟨a, ha, htoken, hkind⟩ := h.starting driver o.token (by rw [hmailbox]; exact List.mem_cons_self)
    obtain ⟨b, hb, htoken', hkind', -⟩ := h.sound.latest o ho
    have hnodup : (d.accepted.map Request.token).Nodup :=
      (List.nodup_append'.mp (List.nodup_append'.mp h.unique).1).2.1
    obtain rfl := List.inj_on_of_nodup_map hnodup ha (List.mem_of_head? hb) (htoken.trans htoken'.symm)
    rw [← hkind']
    exact hkind
  obtain ⟨d', hd', v, hclaims, hmoves⟩ := handle_moves (d := d.guard fun w ↦ { w with mailbox := rest })
    oracle h.sound m hkind
  have hworld := handle_world hd'
  have hproposed : proposed d'.world.mailbox = proposed rest := by
    rw [← proposed_letters, hworld, guard, World.handle_letters, proposed_letters]
  refine ⟨d', hd', (hclaims.sound h.sound).moves hmoves, ?_, ?_⟩
  · -- The policy's token moves from the mailbox to the row; every other token stays where it was.
    have hclaimed : (used v.accepted v.row ++ proposed rest).Nodup := by
      have hunique := h.unique
      rw [hmailbox] at hunique
      rcases hclaims with rfl | ⟨policy, token, generation, deadline, rfl, hrow, rfl⟩
      · refine hunique.sublist (List.Sublist.append (List.Sublist.refl _) ?_)
        exact (List.sublist_cons_self m rest).filterMap _
      · replace hrow : d.world.row = none := hrow
        rw [hrow, used_of_unclaimed (by rintro _ ⟨⟩)] at hunique
        rw [used_of_claimed rfl]
        exact (List.perm_middle.nodup_iff).mp hunique
    rw [hproposed]
    exact hclaimed.sublist (List.Sublist.append hmoves.used (List.Sublist.refl _))
  · intro driver token hmem
    rw [← mem_letters, hworld, guard, World.handle_letters, mem_letters] at hmem
    obtain ⟨a, ha, hstart⟩ := h.starting driver token (by rw [hmailbox]; exact List.mem_cons_of_mem _ hmem)
    refine ⟨a, hmoves.accepted ?_, hstart⟩
    rcases hclaims with rfl | ⟨policy, token', generation, deadline, -, -, rfl⟩ <;> exact ha

theorem Kept.claimed (h : Kept d) {owner deadline : ℕ} (hfree : d.world.row = none)
    (hpermits : d.permits (.claimOperation owner deadline) = true) :
    Kept { d with world := { d.world with
      row := some ⟨d.world.fresh, owner, .claimed, deadline⟩, fresh := d.world.fresh + 1 } } := by
  have hidle : d.world.operation = none := by
    cases ho : d.world.operation with
    | none => rfl
    | some o =>
      obtain ⟨r, hr, -⟩ := h.sound.row o ho
      exact absurd (hfree.symm.trans hr) (by simp)
  refine ⟨{ h.sound with row := ?_, claimed := ?_ }, ?_, h.starting⟩
  · intro o ho
    exact absurd (hidle.symm.trans ho) (by simp)
  · rintro _ _ ⟨⟩
    rfl
  · have hunique := h.unique
    simp only [permits, Bool.not_eq_true', List.contains_eq_mem, decide_eq_false_iff_not] at hpermits
    rw [hfree, used_of_unclaimed (by rintro _ ⟨⟩)] at hunique hpermits
    dsimp only
    rw [used_of_claimed rfl]
    exact List.nodup_cons.mpr ⟨hpermits, hunique⟩

theorem Kept.sent (h : Kept d) {m : Message} (hpermits : d.permits (.send m) = true) :
    Kept { d with world := d.world.post m } := by
  have hidle : World.Idle d.world (d.world.post m) := World.idle_of_subset rfl rfl (List.Subset.refl _)
  cases m with
  | automaticCompaction policy token generation deadline =>
    refine ⟨h.sound, ?_, ?_⟩
    · simp only [permits, Bool.not_eq_true', List.contains_eq_mem, decide_eq_false_iff_not] at hpermits
      dsimp only [World.post]
      rw [proposed_append, ← List.append_assoc]
      refine List.nodup_append'.mpr ⟨h.unique, List.nodup_singleton _, ?_⟩
      intro t ht hnew
      obtain rfl := List.mem_singleton.mp hnew
      exact hpermits ht
    · intro driver t hmem
      rcases List.mem_append.mp hmem with hmem | hmem
      · exact h.starting driver t hmem
      · cases List.mem_singleton.mp hmem
  | operationStarting driver token =>
    refine ⟨h.sound, ?_, ?_⟩
    · dsimp only [World.post]
      rw [proposed_append]
      exact (List.append_nil (proposed d.world.mailbox)).symm ▸ h.unique
    · intro driver' t hmem
      rcases List.mem_append.mp hmem with hmem | hmem
      · exact h.starting driver' t hmem
      · obtain ⟨rfl, rfl⟩ := Message.operationStarting.inj (List.mem_singleton.mp hmem)
        obtain ⟨a, ha, hstart⟩ := List.any_eq_true.mp hpermits
        simp only [Bool.and_eq_true, decide_eq_true_eq] at hstart
        exact ⟨a, ha, hstart⟩
  | _ => exact h.aside hidle rfl rfl (by simp)

theorem Kept.stepped (h : Kept d) {l : Label} (hl : d.step l = some d') : Kept d' := by
  by_cases hhandle : ∃ oracle, l = .handle oracle
  · obtain ⟨oracle, rfl⟩ := hhandle
    cases hmailbox : d.world.mailbox with
    | nil => simp [Desk.step, hmailbox] at hl
    | cons m rest =>
      rw [step_handle hmailbox] at hl
      obtain ⟨next, hnext, hkept⟩ := h.handled oracle hmailbox
      obtain rfl := Option.some.inj (hnext.symm.trans hl)
      exact hkept
  · obtain ⟨hpermits, w, hw, rfl⟩ := step_world (fun oracle h ↦ hhandle ⟨oracle, h⟩) hl
    have hquiet : ∀ {w : World}, World.Idle d.world w → w.mailbox = d.world.mailbox → Kept { d with world := w } :=
      fun hidle hmailbox ↦ h.aside hidle (hmailbox.trans (List.append_nil _).symm) rfl fun _ _ ↦ List.not_mem_nil
    have hsame : ∀ {w : World}, w.operation = d.world.operation → w.row = d.world.row →
        w.monitors = d.world.monitors → World.Idle d.world w := fun hoperation hrow hmonitors ↦
      World.idle_of_subset hoperation hrow (by rw [hmonitors]; exact List.Subset.refl _)
    cases l with
    | handle oracle => exact absurd ⟨oracle, rfl⟩ hhandle
    | claim slot owner expires =>
      rw [World.step] at hw
      split at hw
      · obtain rfl := Option.some.inj hw
        exact hquiet (hsame rfl rfl rfl) rfl
      · cases hw
    | claimOperation owner deadline =>
      rw [World.step] at hw
      split at hw
      case isTrue hfree =>
        obtain rfl := Option.some.inj hw
        exact h.claimed hfree hpermits
      case isFalse => cases hw
    | send m =>
      rw [World.step] at hw
      split at hw
      case isTrue =>
        obtain rfl := Option.some.inj hw
        exact h.sent hpermits
      case isFalse => cases hw
    | startEngine | startWriter =>
      obtain rfl := Option.some.inj hw
      exact h.aside (hsame rfl rfl rfl) rfl rfl (by simp)
    | poison writer =>
      rw [World.step] at hw
      split at hw
      · obtain rfl := Option.some.inj hw
        exact h.aside (hsame rfl rfl rfl) rfl rfl (by simp)
      · cases hw
    | kill p =>
      obtain rfl := Option.some.inj hw
      have hidle := d.world.idle_kill p
      revert hidle
      unfold World.kill
      split
      · refine fun hidle ↦ h.aside hidle rfl ?_ (by simp)
        rw [proposed, List.filterMap_map]
        exact List.filterMap_eq_nil_iff.mpr fun _ _ ↦ rfl
      · exact fun hidle ↦ hquiet hidle rfl
    | recover bytes =>
      rw [World.step] at hw
      split at hw
      · split at hw
        · obtain ⟨counter, -, rfl⟩ := Option.map_eq_some_iff.mp hw
          exact hquiet (hsame rfl rfl rfl) rfl
        · cases hw
      · cases hw
    | act action =>
      obtain ⟨a, -, ha⟩ := Option.bind_eq_some_iff.mp hw
      cases action with
      | reserve bytes =>
        obtain ⟨counter, -, rfl⟩ := Option.map_eq_some_iff.mp ha
        exact hquiet (hsame rfl rfl rfl) rfl
      | release bytes | account delta =>
        obtain rfl := Option.some.inj ha
        exact hquiet (hsame rfl rfl rfl) rfl

theorem kept_of_reachable (h : desk.Reachable d) : Kept d := by
  refine Machine.Reachable.invariant (I := Kept) ?_ ?_ h
  · exact fun d hd ↦ Starts.kept hd
  · exact fun d l d' hd hl ↦ Kept.stepped hd hl

end Desk

/-- What the requests and the operations of a guardian look like. -/
structure Answered (d : Desk) : Prop where
  /-- The next message is handled: nothing is finished that does not run, and no assertion fails. -/
  handles : ∀ (oracle : Oracle) (m : Message) (rest : List Message), d.world.mailbox = m :: rest →
    (d.step (.handle oracle)).isSome
  /-- No request is answered twice. -/
  once : ∀ call, d.replies.countP (·.1 = call) ≤ 1
  /-- The request of an operation that no longer runs was answered. -/
  finished : ∀ a ∈ d.accepted, (∀ o, d.world.operation = some o → o.token ≠ a.token) →
    d.replies.countP (·.1 = a.call) = 1
  /-- The running operation is the one accepted last. -/
  latest : ∀ o, d.world.operation = some o →
    ∃ a, d.accepted.head? = some a ∧ a.token = o.token ∧ a.kind = o.kind
  /-- The row has the token of an accepted operation exactly while that runs. -/
  row : ∀ a ∈ d.accepted, (d.world.row.any (·.token = a.token) ↔ d.world.operation.any (·.token = a.token))
  tokens : (d.accepted.map Request.token).Nodup
  /-- A message about an earlier operation does nothing to the one that runs. -/
  late : ∀ o, d.world.operation = some o → ∀ a ∈ d.accepted.tail, ∀ m, m.about = some a.token →
    ∀ oracle, ∃ d', d.handle oracle m = some d' ∧ Desk.Unmoved d d'

/-- **Administrative operations are exclusive and answered once.** -/
theorem operations_answered {d : Desk} (h : desk.Reachable d) : Answered d := by
  have hkept := Desk.kept_of_reachable h
  have hsound := hkept.sound
  have hused := (List.nodup_append'.mp hkept.unique).1
  have htokens : (d.accepted.map Request.token).Nodup := (List.nodup_append'.mp hused).2.1
  have hcount : ∀ call, d.replies.countP (·.1 = call) = (d.replies.map Prod.fst).count call := by
    intro call
    rw [List.count, List.countP_map]
    exact List.countP_congr fun x _ ↦ by simp
  refine ⟨?_, ?_, ?_, ?_, ?_, htokens, ?_⟩
  · intro oracle m rest hmailbox
    obtain ⟨d', hd', -⟩ := hkept.handled oracle hmailbox
    rw [Desk.step_handle hmailbox, hd']
    rfl
  · intro call
    rw [hcount]
    exact List.nodup_iff_count_le_one.mp hsound.once call
  · intro a ha hended
    rw [hcount]
    refine List.count_eq_one_of_mem hsound.once ?_
    refine (hsound.answered a.call (hsound.numbers a ha)).resolve_right fun hwaits ↦ ?_
    -- A request that waits is that of the running operation.
    obtain ⟨o, ho⟩ := Option.isSome_iff_exists.mp (hsound.waiting a.call hwaits).1
    obtain ⟨b, hb, htoken, -, hcall⟩ := hsound.latest o ho
    obtain rfl := List.inj_on_of_nodup_map hsound.numbered ha (List.mem_of_head? hb) (hcall _ hwaits)
    exact hended o ho htoken.symm
  · intro o ho
    obtain ⟨a, ha, htoken, hkind, -⟩ := hsound.latest o ho
    exact ⟨a, ha, htoken, hkind⟩
  · intro a ha
    cases ho : d.world.operation with
    | none =>
      refine ⟨fun hrow ↦ ?_, fun hnone ↦ by cases hnone⟩
      obtain ⟨r, hr, htoken⟩ := (Option.any_eq_true _ _).mp hrow
      have hstage := hsound.claimed ho r hr
      rw [hr, Docket.used_of_claimed hstage] at hused
      refine absurd (List.mem_map_of_mem (f := Request.token) ha) ?_
      rw [← of_decide_eq_true htoken]
      exact (List.nodup_cons.mp hused).1
    | some o =>
      obtain ⟨r, hr, htoken, -⟩ := hsound.row o ho
      replace hr : d.world.row = some r := hr
      rw [hr, Option.any_some, Option.any_some, htoken]
  · intro o ho a ha m hm oracle
    obtain ⟨b, hb, htoken, -⟩ := hsound.latest o ho
    refine Desk.handle_stale hsound oracle ho hm fun hsame ↦ ?_
    -- The head of the list is the running operation, and tokens are not used twice.
    replace hb : d.accepted.head? = some b := hb
    obtain ⟨earlier, hearlier⟩ := List.head?_eq_some_iff.mp hb
    rw [hearlier] at ha htokens
    refine absurd (List.mem_map_of_mem (f := Request.token) ha) ?_
    rw [hsame, ← htoken]
    exact (List.nodup_cons.mp htokens).1

namespace Sample

/-- A forced stop, a restart after it, and then the deadline of the stop. -/
def administered : List Label :=
  [.claimOperation 7 100, .send (.operation 7 0 1 .stop true 100 true), .handle clock,
    .send (.operationResult 2 1 .ok), .handle clock, .claimOperation 7 100,
    .send (.operation 7 0 4 .restart true 100 true), .handle clock, .send (.operationDeadline 1)]

end Sample

theorem operations_answered_sample : ∃ d, desk.Reachable d ∧ d.replies = [(0, .ok)] ∧
    d.accepted = [⟨4, .restart, 1⟩, ⟨1, .stop, 0⟩] ∧ d.world.operation.isSome ∧ Answered d := by
  have hrun : (desk.run (Desk.init Sample.config) Sample.administered).any (fun d ↦
      d.replies = [(0, .ok)] && d.accepted = [⟨4, .restart, 1⟩, ⟨1, .stop, 0⟩] &&
        d.world.operation.isSome) = true := by
    decide +kernel
  obtain ⟨d, hd, h⟩ := (Option.any_eq_true _ _).mp hrun
  simp only [Bool.and_eq_true, decide_eq_true_eq] at h
  have hreach := Machine.reachable_of_run (Desk.starts_init Sample.config) hd
  exact ⟨d, hreach, h.1.1, h.1.2, h.2, operations_answered hreach⟩

end Tay.Lifecycle
