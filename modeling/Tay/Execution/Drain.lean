import Tay.Execution.External

/-!
# Drains

A drain waits for the last execution: the message that takes it away should also move the engine to
`drained` and answer everyone who waits. `completeDrains` does this, and each handler that may end an
execution has to call it. The handlers of a completion and of a timeout of an external execution do
not, so that a drain which waits for nothing but external executions is answered by its deadline.

Away from that branch the engine is never left draining with nothing to wait for, and every drain
command is answered once.
-/

open Foundation

namespace Tay.Execution

open V2 Transition Executor

variable {s t u : State} (vm : Runtime)

/-! ## Completion -/

/-- Nothing runs and nothing is to be settled. -/
def State.Idle (s : State) : Prop := s.running = ∅ ∧ s.engine.settlementReserve = 0

/-- A drain with nothing to wait for. -/
def State.Stuck (s : State) : Prop := s.mode = .draining ∧ s.Idle

/-- What completing the drains of `s` leads to: everyone who waits is told, and nobody waits. -/
structure Finished (s t : State) : Prop where
  mode : t.mode = .drained
  drainers : t.drainers = ∅
  sent : t.sent = s.sent ++ s.drainers.keys.map (.drain · true) ++
    s.lifecycleOperation.toList.map .operationDrained

theorem completeDrains_finished (h : s.Stuck) : Finished s (completeDrains s) := by
  have hguard : s.mode = .draining ∧ s.engine.settlementReserve = 0 ∧ s.running = ∅ :=
    ⟨h.1, h.2.2, h.2.1⟩
  simp only [completeDrains, if_pos hguard]
  exact ⟨rfl, rfl, rfl⟩

theorem completeDrains_idle (s : State) : (completeDrains s).Idle ↔ s.Idle := by
  unfold completeDrains
  split <;> rfl

theorem completeDrains_not_stuck (s : State) : ¬ (completeDrains s).Stuck := by
  intro h
  unfold completeDrains at h
  split at h
  case isTrue => cases h.1
  case isFalse hguard => exact hguard ⟨h.1, h.2.2, h.2.1⟩

/-! ## The message that ends the last execution -/

/-- A completion or a timeout that settles the only execution there is. -/
def settlesLast (s : State) : Event → Bool
  | .executorCompletion _ =>
    match s.link.completions with
    | [] => false
    | (server, r, _) :: _ =>
      decide (s.executorServer = some server) && (externalEntry s r).isSome &&
        (s.running.erase (.executor r)).isEmpty
  | .executorTimeout r execution _ =>
    (externalEntry s r).any (fun e ↦ decide (e.1.execution = execution)) &&
      (s.running.erase (.executor r)).isEmpty
  | _ => false

/-- The side condition: no such message is handled while the engine drains. -/
def Completes (s : State) (e : Event) : Prop := s.mode = .draining → settlesLast s e = false

instance (s : State) (e : Event) : Decidable (Completes s e) :=
  inferInstanceAs (Decidable (_ → _))

/-- What a handler that does not complete drains has to show: it ends no drain, and it leaves a
draining engine with something to wait for. -/
structure Waits (s t : State) : Prop where
  draining : t.mode = .draining → s.mode = .draining
  idle : s.mode = .draining → t.Idle → s.Idle

theorem executorCompletion_waits {w : Settling} {server r : ℕ} {result : Completion}
    {rest : List (ℕ × ℕ × Completion)} (hb : Books s)
    (hcompletions : s.link.completions = (server, r, result) :: rest)
    (hok : Completes s (.executorCompletion w))
    (ht : executorCompletion vm { s with link := { s.link with completions := rest } } server r
      result w = some t) : Waits s t := by
  have hlinked : Books { s with link := { s.link with completions := rest } } :=
    hb.congr hb.counted rfl rfl rfl rfl rfl Finset.Subset.rfl
  have hmode : t.mode = s.mode :=
    congrArg Prod.fst (executorCompletion_moves vm hlinked ht).drains
  refine ⟨fun h ↦ hmode ▸ h, fun hdraining hidle ↦ ?_⟩
  have hlast := hok hdraining
  unfold executorCompletion at ht
  split at ht
  case isFalse =>
    cases ht
    exact hidle
  case isTrue hserver =>
    split at ht
    case h_2 =>
      cases ht
      exact hidle
    case h_1 hentry =>
      -- the entry is settled, and it was not the last one
      obtain ⟨engine, l, answer, -, -, rfl⟩ := settle_spec vm ht
      have hexternal : (externalEntry s r).isSome := Option.isSome_of_eq_some hentry
      have hready : s.executorServer = some server := hserver
      have hempty : (s.running.erase (.executor r)).isEmpty = true :=
        Std.ExtTreeMap.isEmpty_iff.mpr hidle.1
      simp [settlesLast, hcompletions, hready, hexternal, hempty] at hlast

theorem executorTimeout_waits {r : ℕ} {execution : Option ℕ} {w : Settling} (hb : Books s)
    (hok : Completes s (.executorTimeout r execution w))
    (ht : executorTimeout vm s r execution w = some t) : Waits s t := by
  have hmode : t.mode = s.mode := congrArg Prod.fst (executorTimeout_moves vm hb ht).drains
  refine ⟨fun h ↦ hmode ▸ h, fun hdraining hidle ↦ ?_⟩
  have hlast := hok hdraining
  unfold executorTimeout at ht
  split at ht
  case h_2 =>
    cases ht
    exact hidle
  case h_1 entry r' server hentry =>
    split at ht
    case isFalse =>
      cases ht
      exact hidle
    case isTrue hexecution =>
      simp only [Option.bind_eq_bind, Option.bind_eq_some_iff] at ht
      obtain ⟨⟨l, answer⟩, hcall, ht⟩ := ht
      obtain ⟨engine, l', answer', -, -, rfl⟩ := settle_spec vm ht
      have hempty : (s.running.erase (.executor r)).isEmpty = true :=
        Std.ExtTreeMap.isEmpty_iff.mpr hidle.1
      simp [settlesLast, hentry, hexecution, hempty] at hlast

theorem releasePending_idle {now : ℕ} (h : (releasePending s now).Idle) : s.Idle := by
  refine ⟨?_, h.2⟩
  have hempty := h.1
  simp only [releasePending, Std.ExtTreeMap.map_eq_empty_iff] at hempty
  exact hempty

/-- No control step does anything but release while the engine drains. -/
theorem control_waits (now : ℕ) (hdrains : t.mode = s.mode)
    (ht : s.mode = .draining → t = releasePending s now) : Waits s t := by
  refine ⟨fun h ↦ hdrains ▸ h, fun hdraining hidle ↦ ?_⟩
  rw [ht hdraining] at hidle
  exact releasePending_idle hidle

/-- **One message** leaves no drain with nothing to wait for, and the one that ends the last
execution answers everyone. -/
theorem drain_step {e : Event} (hb : Books s) (hs : ¬ s.Stuck) (hok : Completes s e)
    (ht : step vm s e = some t) :
    ¬ t.Stuck ∧ (s.mode = .draining → t.Idle → Finished s t) := by
  -- a handler that completes drains, after moves that have no part in them
  have hcompletes : ∀ {u : State}, Moves s u → t = completeDrains u →
      ¬ t.Stuck ∧ (s.mode = .draining → t.Idle → Finished s t) := by
    rintro u hmoves rfl
    refine ⟨completeDrains_not_stuck u, fun hdraining hidle ↦ ?_⟩
    have hdrains := hmoves.drains
    have hmode : u.mode = s.mode := congrArg Prod.fst hdrains
    have hdrainers : u.drainers = s.drainers := congrArg (·.2.1) hdrains
    have hoperation : u.lifecycleOperation = s.lifecycleOperation := congrArg (·.2.2.1) hdrains
    have hsent : u.sent = s.sent := congrArg (·.2.2.2.2.1) hdrains
    obtain ⟨hfinished, hnobody, htold⟩ :=
      completeDrains_finished (s := u) ⟨hmode ▸ hdraining, (completeDrains_idle u).mp hidle⟩
    rw [hsent, hdrainers, hoperation] at htold
    exact ⟨hfinished, hnobody, htold⟩
  -- a handler that does not
  have hwaits : Waits s t → ¬ t.Stuck ∧ (s.mode = .draining → t.Idle → Finished s t) := by
    intro hwaits
    refine ⟨?_, fun hdraining hidle ↦ ?_⟩
    · rintro ⟨hdraining, hidle⟩
      exact hs ⟨hwaits.draining hdraining, hwaits.idle (hwaits.draining hdraining) hidle⟩
    · exact absurd ⟨hdraining, hwaits.idle hdraining hidle⟩ hs
  -- a drain that is only just asked for
  have hasked : ∀ {u : State}, t = completeDrains u → u.running = s.running →
      u.engine = s.engine → ¬ t.Stuck ∧ (s.mode = .draining → t.Idle → Finished s t) := by
    rintro u rfl hrunning hengine
    refine ⟨completeDrains_not_stuck u, fun hdraining hidle ↦ ?_⟩
    have hu := (completeDrains_idle u).mp hidle
    exact absurd ⟨hdraining, hrunning ▸ hu.1, hengine ▸ hu.2⟩ hs
  cases e with
  | commands cs =>
    obtain ⟨u, hu, rfl⟩ := Option.map_eq_some_iff.mp ht
    exact hcompletes (commands_moves vm hb hu) rfl
  | execution pid ticket execution m w =>
    obtain ⟨u, hu, rfl⟩ := Option.map_eq_some_iff.mp ht
    exact hcompletes (executionMessage_moves vm hu) rfl
  | drain permit caller =>
    simp only [step] at ht
    split at ht <;> cases ht
    exact hasked rfl rfl rfl
  | lifecycleDrain token policy same =>
    simp only [step] at ht
    split at ht <;> cases ht
    · exact hwaits ⟨id, fun _ ↦ id⟩
    · exact hasked rfl rfl rfl
  | drainDeadline permit =>
    simp only [step] at ht
    split at ht <;> cases ht
    · exact hwaits ⟨id, fun _ ↦ id⟩
    · exact hwaits ⟨id, fun _ ↦ id⟩
  | policyDrainCancel token =>
    simp only [step] at ht
    split at ht <;> cases ht
    · exact hwaits ⟨fun hmode ↦ (by cases hmode), fun _ ↦ id⟩
    · exact hwaits ⟨id, fun _ ↦ id⟩
  | executorServerReady pid =>
    simp only [step] at ht
    split at ht <;> cases ht
    exact hwaits ⟨id, fun _ ↦ id⟩
  | executorCompletion w =>
    simp only [step] at ht
    split at ht
    · cases ht
    case h_2 hcompletions => exact hwaits (executorCompletion_waits vm hb hcompletions hok ht)
  | executorTimeout reservation execution w => exact hwaits (executorTimeout_waits vm hb hok ht)
  | controlScheduler now id timestamp writer =>
    simp only [step] at ht
    split at ht
    case isTrue hready =>
      have hmoves := (releasePending_moves s now).trans (makeAvailable_moves vm ht)
      refine hwaits (control_waits now (congrArg Prod.fst (Moves.drains hmoves)) ?_)
      intro hdraining
      rw [show (releasePending s now).mode = s.mode from rfl, hdraining] at hready
      cases hready
    case isFalse =>
      cases ht
      exact hwaits (control_waits now rfl fun _ ↦ rfl)
  | controlQueue now queue c =>
    simp only [step] at ht
    split at ht
    · cases ht
    · refine hwaits (control_waits now ?_ fun hdraining ↦ ?_)
      · rcases controlQueue_moves vm ht with hmoves | ⟨job, -, l, server, answer, -, rfl, -⟩
        · exact congrArg Prod.fst (Moves.drains ((releasePending_moves s now).trans hmoves))
        · rfl
      · have hnone : chosen (releasePending s now) queue c = none := by
          unfold chosen
          split
          · rw [if_neg]
            rintro ⟨hready, -⟩
            rw [show (releasePending s now).mode = s.mode from rfl, hdraining] at hready
            cases hready
          · rfl
        rw [controlQueue_eq, hnone] at ht
        exact (Option.some.inj ht).symm
  | compaction a =>
    simp only [step] at ht
    split at ht
    case isFalse => cases ht
    case isTrue hcompaction =>
      obtain ⟨engine, hengine, rfl⟩ := Option.map_eq_some_iff.mp ht
      rw [toOption_eq_some] at hengine
      have hnot : ∀ op env, a ≠ .command op env := by
        rintro op env rfl
        cases hcompaction
      refine hwaits ⟨id, fun _ hidle ↦ ⟨hidle.1, ?_⟩⟩
      rw [← Engine.handle_settlement vm hnot hengine]
      exact hidle.2
  | turn u =>
    obtain ⟨l, hl, rfl⟩ := Option.map_eq_some_iff.mp ht
    exact hwaits ⟨id, fun _ ↦ id⟩

/-! ## Answers -/

/-- The drain commands that have been answered. -/
def answered (sent : List Notice) : List ℕ :=
  sent.filterMap fun
    | .drain permit _ => some permit
    | .operationDrained _ => none

/-- Every drain command is waiting or answered, never both, and answered once. -/
structure Accounted (s : State) : Prop where
  requested : ∀ p : ℕ, p ∈ s.requested ↔ p ∈ answered s.sent ∨ (s.drainers[p]?).isSome
  once : (answered s.sent).Nodup
  apart : ∀ p ∈ answered s.sent, s.drainers[p]? = none

theorem answered_append (a b : List Notice) : answered (a ++ b) = answered a ++ answered b :=
  List.filterMap_append

theorem answered_drains (ps : List ℕ) (drained : Bool) :
    answered (ps.map (.drain · drained)) = ps := by
  simp [answered, List.filterMap_map]

theorem answered_operation (token : Option ℕ) :
    answered (token.toList.map .operationDrained) = [] := by
  cases token <;> rfl

theorem Accounted.congr (h : Accounted s) (hdrains : t.drains = s.drains) : Accounted t := by
  have hdrainers : t.drainers = s.drainers := congrArg (·.2.1) hdrains
  have hsent : t.sent = s.sent := congrArg (·.2.2.2.2.1) hdrains
  have hrequested : t.requested = s.requested := congrArg (·.2.2.2.2.2) hdrains
  refine ⟨?_, ?_, ?_⟩
  · rw [hrequested, hsent, hdrainers]
    exact h.requested
  · rw [hsent]
    exact h.once
  · rw [hsent, hdrainers]
    exact h.apart

theorem Accounted.completeDrains (h : Accounted s) : Accounted (completeDrains s) := by
  by_cases hguard : s.mode = .draining ∧ s.engine.settlementReserve = 0 ∧ s.running = ∅
  case neg =>
    rw [Execution.completeDrains, if_neg hguard]
    exact h
  case pos =>
    rw [Execution.completeDrains, if_pos hguard]
    have hkeys : ∀ p, p ∈ s.drainers.keys ↔ (s.drainers[p]?).isSome := by
      intro p
      rw [Std.ExtTreeMap.mem_keys, Std.ExtTreeMap.isSome_getElem?_iff_mem]
    have hanswered : answered (s.sent ++ s.drainers.keys.map (.drain · true) ++
        s.lifecycleOperation.toList.map .operationDrained) =
          answered s.sent ++ s.drainers.keys := by
      rw [answered_append, answered_append, answered_drains, answered_operation, List.append_nil]
    refine ⟨fun p ↦ ?_, ?_, fun p _ ↦ by simp⟩
    · simp only [hanswered, List.mem_append, hkeys, h.requested]
      simp
    · simp only [hanswered]
      refine List.nodup_append.mpr ⟨h.once, Std.ExtTreeMap.nodup_keys, ?_⟩
      rintro p hp q hq rfl
      rw [hkeys, h.apart p hp] at hq
      cases hq

/-- A new command waits. -/
theorem Accounted.ask {permit caller : ℕ} (h : Accounted s) (hnew : permit ∉ s.requested) :
    Accounted { s with
      mode := .draining
      drainers := s.drainers.insert permit caller
      requested := s.requested ++ [permit] } := by
  refine ⟨fun p ↦ ?_, h.once, fun p hp ↦ ?_⟩
  · simp only [List.mem_append, List.mem_singleton, Table.get_insert, h.requested]
    by_cases heq : permit = p
    · simp [heq]
    · simp [heq, Ne.symm heq]
  · have hne : permit ≠ p := by
      rintro rfl
      exact hnew ((h.requested permit).mpr (.inl hp))
    simp only [Table.get_insert, if_neg hne]
    exact h.apart p hp

/-- The deadline answers one that waits. -/
theorem Accounted.deadline {permit caller : ℕ} (h : Accounted s)
    (hwaiting : s.drainers[permit]? = some caller) :
    Accounted { s with
      drainers := s.drainers.erase permit
      sent := s.sent ++ [.drain permit false] } := by
  have hanswered : answered (s.sent ++ [.drain permit false]) = answered s.sent ++ [permit] :=
    answered_append _ _
  refine ⟨fun p ↦ ?_, ?_, fun p hp ↦ ?_⟩
  · simp only [hanswered, List.mem_append, List.mem_singleton, Table.get_erase, h.requested]
    by_cases heq : permit = p
    · simp [← heq, hwaiting]
    · simp [heq, Ne.symm heq]
  · simp only [hanswered]
    refine List.nodup_append.mpr ⟨h.once, by simp, ?_⟩
    rintro p hp q hq rfl
    rw [List.mem_singleton] at hq
    rw [h.apart permit (hq ▸ hp)] at hwaiting
    cases hwaiting
  · simp only [hanswered, List.mem_append, List.mem_singleton, Table.get_erase] at hp ⊢
    split
    · rfl
    case isFalse hne =>
      rcases hp with hp | rfl
      · exact h.apart p hp
      · exact absurd rfl hne

theorem Accounted.step {e : Event} (hb : Books s) (h : Accounted s) (ht : step vm s e = some t) :
    Accounted t := by
  cases e with
  | commands cs =>
    obtain ⟨u, hu, rfl⟩ := Option.map_eq_some_iff.mp ht
    exact (h.congr (commands_moves vm hb hu).drains).completeDrains
  | execution pid ticket execution m w =>
    obtain ⟨u, hu, rfl⟩ := Option.map_eq_some_iff.mp ht
    exact (h.congr (executionMessage_moves vm hu).drains).completeDrains
  | drain permit caller =>
    simp only [Execution.step] at ht
    split at ht
    case isTrue => cases ht
    case isFalse hnew =>
      cases ht
      exact (h.ask hnew).completeDrains
  | drainDeadline permit =>
    simp only [Execution.step] at ht
    split at ht
    case h_1 =>
      cases ht
      exact h
    case h_2 hwaiting =>
      cases ht
      exact h.deadline hwaiting
  | lifecycleDrain token policy same =>
    simp only [Execution.step] at ht
    split at ht <;> cases ht
    · exact h
    · exact Accounted.completeDrains ⟨h.requested, h.once, h.apart⟩
  | policyDrainCancel token =>
    simp only [Execution.step] at ht
    split at ht <;> cases ht
    · exact ⟨h.requested, h.once, h.apart⟩
    · exact h
  | executorServerReady pid =>
    simp only [Execution.step] at ht
    split at ht <;> cases ht
    exact h.congr rfl
  | executorCompletion w =>
    simp only [Execution.step] at ht
    split at ht
    · cases ht
    case h_2 server reservation result rest _ =>
      have hlinked : Books { s with link := { s.link with completions := rest } } :=
        hb.congr hb.counted rfl rfl rfl rfl rfl Finset.Subset.rfl
      exact h.congr (executorCompletion_moves vm hlinked ht).drains
  | executorTimeout reservation execution w =>
    exact h.congr (executorTimeout_moves vm hb ht).drains
  | controlScheduler now id timestamp writer =>
    simp only [Execution.step] at ht
    split at ht
    · exact h.congr (Moves.drains ((releasePending_moves s now).trans (makeAvailable_moves vm ht)))
    · cases ht
      exact h.congr rfl
  | controlQueue now queue c =>
    simp only [Execution.step] at ht
    split at ht
    · cases ht
    · rcases controlQueue_moves vm ht with hmoves | ⟨job, -, l, server, answer, -, rfl, -⟩
      · exact h.congr (Moves.drains ((releasePending_moves s now).trans hmoves))
      · exact h.congr rfl
  | compaction a =>
    simp only [Execution.step] at ht
    split at ht
    case isFalse => cases ht
    case isTrue =>
      obtain ⟨engine, -, rfl⟩ := Option.map_eq_some_iff.mp ht
      exact h.congr rfl
  | turn u =>
    obtain ⟨l, -, rfl⟩ := Option.map_eq_some_iff.mp ht
    exact h.congr rfl

theorem Starts.accounted (h : Starts vm s) : Accounted s :=
  ⟨by simp [h.requested, h.sent, h.drainers, answered], by simp [h.sent, answered],
    by simp [h.sent, answered]⟩

/-! ## Runs -/

/-- **A drain completes with the last execution**, in every run in which no completion or timeout of
an external execution is the message that ends it: the engine is never left draining with nothing to
wait for, the message that ends the last execution answers everyone who waits, and no drain command
is answered twice. -/
theorem drain_completes (h : (machine vm).ReachableUnder Completes s) :
    ¬ s.Stuck ∧ Accounted s ∧
      ∀ e t, Completes s e → step vm s e = some t → s.mode = .draining → t.Idle → Finished s t := by
  have hinv : Books s ∧ ¬ s.Stuck ∧ Accounted s := by
    refine h.invariant (I := fun s ↦ Books s ∧ ¬ s.Stuck ∧ Accounted s)
      (fun s (hs : Starts vm s) ↦ ⟨hs.books, fun hstuck ↦ ?_, hs.accounted⟩) ?_
    · rw [State.Stuck, hs.mode] at hstuck
      cases hstuck.1
    · rintro s e t ⟨hb, hstuck, haccounted⟩ hok hstep
      exact ⟨(step_keeps vm hb hstep).1, (drain_step vm hb hstuck hok hstep).1,
        haccounted.step vm hb hstep⟩
  refine ⟨hinv.2.1, hinv.2.2, fun e t hok hstep ↦ ?_⟩
  exact (drain_step vm hinv.1 hinv.2.1 hok hstep).2

namespace Sample

/-- A drain is asked for while the job runs on its executor, and then it completes there. -/
def draining : List Event :=
  starting .persistent ++ [.drain 3 0, .turn (.receive (.complete 1 7 9 .failure)),
    .executorCompletion settling]

/-- The job is cancelled instead. -/
def cancelled : List Event :=
  starting .persistent ++ [.drain 3 0, cancelling]

end Sample

/-- A drain that a cancellation completes. -/
theorem drain_completes_cancelled :
    ∃ s, (machine Tay.Sample.runtime).ReachableUnder Completes s ∧ s.mode = .drained ∧
      s.sent = [.drain 3 true] ∧ ¬ s.Stuck ∧ Accounted s := by
  have hrun : (((machine Tay.Sample.runtime).under Completes).run Sample.start
      Sample.cancelled).any (fun s ↦ decide (s.mode = .drained ∧ s.sent = [.drain 3 true])) =
        true := by
    decide +kernel
  obtain ⟨s, hs, h⟩ := (Option.any_eq_true _ _).mp hrun
  obtain ⟨hmode, hsent⟩ := of_decide_eq_true h
  have hreachable := Machine.reachableUnder_of_run (.initial Sample.starts) hs
  obtain ⟨hstuck, haccounted, -⟩ := drain_completes Tay.Sample.runtime hreachable
  exact ⟨s, hreachable, hmode, hsent, hstuck, haccounted⟩

/-- The executor reports the last execution, and the drain goes on waiting. -/
theorem drain_stuck : ¬ ∀ s, (machine Tay.Sample.runtime).Reachable s → ¬ s.Stuck := by
  intro hall
  have hrun : ((machine Tay.Sample.runtime).run Sample.start Sample.draining).any (fun s ↦
      decide (s.mode = .draining ∧ s.engine.settlementReserve = 0) && s.running.isEmpty) = true := by
    decide +kernel
  obtain ⟨s, hs, h⟩ := (Option.any_eq_true _ _).mp hrun
  simp only [Bool.and_eq_true, decide_eq_true_eq, Std.ExtTreeMap.isEmpty_iff] at h
  exact hall s (Machine.reachable_of_run Sample.starts hs) ⟨h.1.1, h.2, h.1.2⟩

end Tay.Execution
