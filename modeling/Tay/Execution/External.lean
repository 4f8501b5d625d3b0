import Mathlib.Logic.Relation
import Tay.Execution.Consistency

/-!
# What a message does to external executions

Every message the engine handles is a sequence of a few kinds of moves, as far as the executor
server, the entries of external executions and the record of settlements are concerned: something
inside the engine, a request, a start on a reservation that has just been granted, a settlement. The
one exception is a claim that ends with its reservation: it is not granted, or it is granted, the
checks of the claim fail, and the engine returns without giving it back.

A property of external executions is then proved once for each kind of move, and not once for each
handler.
-/

open Foundation

namespace Tay.Execution

open V2 Transition Executor

variable {s t u : State} (vm : Runtime)

/-- What a drain is about. -/
def State.drains (s : State) :
    Mode × Table ℕ ℕ × Option ℕ × Option ℕ × List Notice × List ℕ :=
  (s.mode, s.drainers, s.lifecycleOperation, s.lifecycleFenced, s.sent, s.requested)

/-- The executor server grants a reservation. -/
def Grants (l : Link) (server r : ℕ) (l' : Link) : Prop :=
  ∃ task queue turns, l.call server (.reserve task queue r) turns = some (l', some (.ok ()))

inductive Move : State → State → Prop
  /-- Nothing outside changes. -/
  | inside {s t : State}
      (hrunning : ∀ r : ℕ, (t.running[Key.executor r]?).map Entry.shape =
        (s.running[Key.executor r]?).map Entry.shape)
      (hlink : t.link = s.link) (hsettled : t.settled = s.settled) (hdrains : t.drains = s.drains) :
      Move s t
  /-- A completion is taken from the mailbox. -/
  | received {s : State} {rest : List (ℕ × ℕ × Completion)} :
      Move s { s with link := { s.link with completions := rest } }
  | turn {s : State} {l : Link} {t : Turn} (h : s.link.turn t = some l) :
      Move s { s with link := l }
  | request {s : State} {l : Link} {target : ℕ} {m : Message} {turns : List Turn}
      {answer : Option (Except Refusal Unit)} (hm : Link.quiet m)
      (h : s.link.call target m turns = some (l, answer)) : Move s { s with link := l }
  /-- A reservation is granted, and the start it was for is committed. -/
  | started {s t : State} {l : Link} {server r : ℕ} {entry : Entry} (h : Grants s.link server r l)
      (hshape : entry.shape.2.2 = some (r, server))
      (hrunning : t.running = s.running.insert (.executor r) entry) (hlink : t.link = l)
      (hsettled : t.settled = s.settled) (hdrains : t.drains = s.drains) : Move s t
  /-- A reservation is granted, the start is refused, and the reservation is given back. -/
  | refused {s : State} {l l' : Link} {server r : ℕ} {turns : List Turn}
      {answer : Option (Except Refusal Unit)} (h : Grants s.link server r l)
      (hrelease : l.call server (.release r) turns = some (l', answer)) :
      Move s { s with link := l' }
  | settled {s t : State} {l : Link} {server r : ℕ} {entry : Entry} {turns : List Turn}
      {answer : Option (Except Refusal Unit)} (hentry : s.running[Key.executor r]? = some entry)
      (hshape : entry.shape.2.2 = some (r, server))
      (hrelease : s.link.call server (.release r) turns = some (l, answer))
      (hrunning : t.running = s.running.erase (.executor r)) (hlink : t.link = l)
      (hsettled : t.settled = s.settled ++ [r]) (hdrains : t.drains = s.drains) : Move s t

abbrev Moves : State → State → Prop := Relation.ReflTransGen Move

theorem Move.drains (h : Move s t) : t.drains = s.drains := by
  cases h <;> first | rfl | assumption

theorem Moves.drains (h : Moves s t) : t.drains = s.drains := by
  induction h with
  | refl => rfl
  | tail _ hmove ih => rw [hmove.drains, ih]

/-- A change of what is not about external executions. -/
theorem Moves.inside (hrunning : ∀ r : ℕ, (t.running[Key.executor r]?).map Entry.shape =
      (s.running[Key.executor r]?).map Entry.shape) (hlink : t.link = s.link)
    (hsettled : t.settled = s.settled) (hdrains : t.drains = s.drains) : Moves s t :=
  .single (.inside hrunning hlink hsettled hdrains)

/-! ## Settlements -/

theorem settle_moves {entry : Entry} {r server : ℕ} {result : Result} {w : Settling}
    (hentry : s.running[Key.executor r]? = some entry)
    (hshape : entry.shape.2.2 = some (r, server))
    (h : settle vm s (.executor r) entry r server result w = some t) : Moves s t := by
  obtain ⟨engine, l, answer, -, hcall, rfl⟩ := settle_spec vm h
  exact .single (.settled hentry hshape hcall rfl rfl rfl rfl)

/-- The entry of an external execution carries the reservation it is under. -/
theorem Books.external {reservation r server : ℕ} {entry : Entry} (hb : Books s)
    (h : externalEntry s reservation = some (entry, r, server)) :
    r = reservation ∧ s.running[Key.executor reservation]? = some entry ∧
      entry.shape.2.2 = some (reservation, server) := by
  obtain ⟨hentry, hkind⟩ := externalEntry_eq h
  obtain ⟨server', hserver⟩ := hb.kinds _ entry hentry
  simp only [Entry.shape, hkind] at hserver
  cases hserver
  exact ⟨rfl, hentry, by simp [Entry.shape, hkind]⟩

theorem settleLive_moves {reservation r server : ℕ} {entry : Entry} {result : Result} {w : Settling}
    (hb : Books s) (hentry : externalEntry s reservation = some (entry, r, server))
    (ht : settle vm s (.executor reservation) entry r server result w = some t) : Moves s t := by
  obtain ⟨rfl, hrunning, hshape⟩ := hb.external hentry
  exact settle_moves vm hrunning hshape ht

theorem executorCompletion_moves {server reservation : ℕ} {result : Completion} {w : Settling}
    (hb : Books s) (ht : executorCompletion vm s server reservation result w = some t) :
    Moves s t := by
  unfold executorCompletion at ht
  split at ht
  case isTrue =>
    split at ht
    case h_1 hentry => exact settleLive_moves vm hb hentry ht
    case h_2 =>
      cases ht
      exact .refl
  case isFalse =>
    cases ht
    exact .refl

theorem executorTimeout_moves {reservation : ℕ} {execution : Option ℕ} {w : Settling}
    (hb : Books s) (ht : executorTimeout vm s reservation execution w = some t) : Moves s t := by
  unfold executorTimeout at ht
  split at ht
  case h_1 entry r server hentry =>
    split at ht
    case isTrue =>
      simp only [Option.bind_eq_bind, Option.bind_eq_some_iff] at ht
      obtain ⟨⟨l, answer⟩, hcall, ht⟩ := ht
      have hlinked : Books { s with link := l } :=
        hb.congr hb.counted rfl rfl rfl rfl rfl (Link.issued_call hcall)
      exact .head (.request (m := .cancel reservation) rfl hcall)
        (settleLive_moves vm (s := { s with link := l }) hlinked hentry ht)
    case isFalse =>
      cases ht
      exact .refl
  case h_2 =>
    cases ht
    exact .refl

/-! ## Relays -/

/-- Entries of relays are under other keys. -/
theorem get_insert_relay (running : Table Key Entry) (pid r : ℕ) (entry : Entry) :
    (running.insert (.relay pid) entry)[Key.executor r]? = running[Key.executor r]? := by
  rw [Table.get_insert, if_neg (by simp)]

theorem putRelay_moves (s : State) (pid : ℕ) (entry : Entry) (f : Relay → Relay) :
    Moves s (putRelay s pid entry f) :=
  .inside (fun r ↦ by simp only [putRelay, get_insert_relay]) rfl rfl rfl

theorem finishRuntime_moves (s : State) (pid : ℕ) : Moves s (finishRuntime s pid) := by
  unfold finishRuntime
  split
  case h_1 => exact .refl
  case h_2 =>
    split
    case h_2 => exact .refl
    case h_1 =>
      split
      case isFalse => exact .refl
      case isTrue =>
        refine .inside (fun r ↦ ?_) rfl rfl rfl
        rw [Table.get_erase, if_neg (by simp)]

theorem releasePending_moves (s : State) (now : ℕ) : Moves s (releasePending s now) := by
  refine .inside (fun r ↦ ?_) rfl rfl rfl
  simp only [releasePending, Std.ExtTreeMap.getElem?_map, Option.map_map]
  congr 1
  funext entry
  simp only [Function.comp_apply]
  split
  · exact shape_mapRelay entry _
  · rfl

/-- A commit is inside. -/
theorem store_moves (s : State) (engine : Engine.State) : Moves s { s with engine := engine } :=
  .inside (fun _ ↦ rfl) rfl rfl rfl

theorem startWaiting_moves {job : Job} {queue : Binary} {c : Claim}
    (ht : startWaiting vm s job queue c = some t) : Moves s t := by
  have hwaiting : Moves s (waitingState s job queue c) :=
    .inside (fun r ↦ by simp only [waitingState, State.occupy, get_insert_relay]) rfl rfl rfl
  have habandoned : Moves s (abandonWaiting (waitingState s job queue c) c.relay
      (c.entry job queue none)) := hwaiting.trans (putRelay_moves _ _ _ _)
  unfold startWaiting at ht
  split at ht
  case isFalse =>
    cases ht
    exact habandoned
  case isTrue =>
    rcases onCommit_cases ht with ⟨committed, -, ht⟩ | ht
    · cases ht
      refine hwaiting.trans (Relation.ReflTransGen.trans ?_ (releasePending_moves _ _))
      exact Moves.inside (fun r ↦ by simp only [get_insert_relay]) rfl rfl rfl
    · cases ht
      exact habandoned

theorem executionMessage_moves {pid ticket : ℕ} {execution : Option ℕ} {m : RelayMessage}
    {w : Settling} (ht : executionMessage vm s pid ticket execution m w = some t) : Moves s t := by
  unfold executionMessage at ht
  split at ht
  case h_1 =>
    cases ht
    exact .refl
  case h_2 entry r hentry =>
    split at ht
    case isFalse =>
      cases ht
      exact .refl
    case isTrue =>
      split at ht
      · unfold relayOutcome at ht
        split at ht
        case isFalse =>
          cases ht
          exact .refl
        case isTrue =>
          split at ht
          case h_1 => cases ht
          case h_2 job hjob =>
            split at ht
            case isFalse =>
              cases ht
              exact .refl
            case isTrue =>
              simp only [Option.bind_eq_bind, Option.bind_eq_some_iff] at ht
              obtain ⟨e, -, c, -, ht⟩ := ht
              cases ht
              exact (store_moves s c.state).trans ((putRelay_moves _ _ _ _).trans
                (finishRuntime_moves _ _))
      · unfold relayDead at ht
        split at ht
        · cases ht
        · cases ht
          exact (putRelay_moves _ _ _ _).trans (finishRuntime_moves _ _)

/-! ## Claims -/

/-- A start on a reservation that has been granted: it is committed, and dispatched or settled at
once, or it is refused. -/
theorem startExternal_moves {l : Link} {job : Job} {queue : Binary} {server : ℕ} {c : Claim}
    (hgrants : Grants s.link server c.reservation l)
    (ht : startExternal vm { s with link := l } job queue server c = some t) : Moves s t := by
  rcases onCommit_cases ht with ⟨committed, -, ht⟩ | ht
  · simp only [Option.bind_eq_bind, Option.bind_eq_some_iff] at ht
    obtain ⟨⟨l', answer⟩, hcall, ht⟩ := ht
    have hstarted : Move s ({ s with link := l, engine := committed.state }.occupy
        (.executor c.reservation)
        ⟨job.id, queue, committed.job.execution, .external c.reservation server⟩) :=
      .started hgrants rfl rfl rfl rfl rfl
    have hdispatched := Relation.ReflTransGen.tail (.single hstarted)
      (.request (m := .dispatch c.reservation committed.job c.execution) rfl hcall)
    split at ht
    · cases ht
      exact hdispatched
    · refine hdispatched.trans (settle_moves vm ?_ rfl ht)
      exact Std.ExtTreeMap.getElem?_insert_self
  · simp only [Option.bind_eq_bind, Option.bind_eq_some_iff] at ht
    obtain ⟨⟨l', answer⟩, hcall, ht⟩ := ht
    cases ht
    exact .single (.refused hgrants hcall)

/-- The claim ends with the reservation: it is not granted, or it is and then the checks of the claim
fail. -/
def Reserves (s : State) (job : Job) (c : Claim) (t : State) : Prop :=
  ∃ l server answer,
    s.link.call server (.reserve job.definition.workerKey (some job.definition.queueKey)
      c.reservation) c.reserving = some (l, answer) ∧
    t = { s with link := l } ∧
    (answer = some (.ok ()) →
      select s job c = some (l, .external server) ∧ claimable vm s job c.timestamp = false)

theorem claim_moves {job : Job} {queue : Binary} {c : Claim}
    (ht : claim vm s job queue c = some t) : Moves s t ∨ Reserves vm s job c t := by
  simp only [claim, Option.bind_eq_bind, Option.bind_eq_some_iff] at ht
  obtain ⟨⟨l, selection⟩, hselect, ht⟩ := ht
  rcases select_cases hselect with ⟨rfl, hno⟩ | ⟨server, answer, -, hcall, hselection⟩
  · split at ht
    · cases ht
      exact .inl .refl
    · split at ht
      case isTrue => exact .inl (startWaiting_moves vm ht)
      case isFalse =>
        cases ht
        exact .inl .refl
    case h_3 server hserver => exact absurd hserver (hno server)
  · split at hselection
    case isFalse hanswer =>
      subst hselection
      cases ht
      exact .inr ⟨l, server, answer, hcall, rfl, fun h ↦ absurd h hanswer⟩
    case isTrue hanswer =>
      subst hselection hanswer
      have hgrants : Grants s.link server c.reservation l := ⟨_, _, _, hcall⟩
      simp only at ht
      split at ht
      case isTrue => exact .inl (startExternal_moves vm hgrants ht)
      case isFalse hfails =>
        cases ht
        exact .inr ⟨l, server, _, hcall, rfl, fun _ ↦ ⟨hselect, Bool.eq_false_iff.mpr hfails⟩⟩

/-- The job a queue's control step claims. -/
def chosen (s : State) (queue : Binary) (c : Claim) : Option Job :=
  match s.slots[queue]?, s.queueLimits[queue]? with
  | some used, some limit =>
    if s.mode = .ready ∧ queue ∉ s.paused ∧ used < limit then nextReady s queue c.tasks c.now
    else none
  | _, _ => none

theorem controlQueue_eq (s : State) (queue : Binary) (c : Claim) :
    controlQueue vm s queue c =
      match chosen s queue c with
      | some job => claim vm s job queue c
      | none => some s := by
  unfold controlQueue chosen
  rcases s.slots[queue]? with _ | used
  · rfl
  rcases s.queueLimits[queue]? with _ | limit
  · rfl
  by_cases h : s.mode = .ready ∧ queue ∉ s.paused ∧ used < limit
  · simp only [if_pos h] <;> rfl
  · simp only [if_neg h]

theorem controlQueue_moves {queue : Binary} {c : Claim}
    (ht : controlQueue vm s queue c = some t) :
    Moves s t ∨ ∃ job, chosen s queue c = some job ∧ Reserves vm s job c t := by
  rw [controlQueue_eq] at ht
  split at ht
  case h_1 job hjob =>
    rcases claim_moves vm ht with hmoves | hreserves
    · exact .inl hmoves
    · exact .inr ⟨job, hjob, hreserves⟩
  case h_2 =>
    cases ht
    exact .inl .refl

theorem makeAvailable_moves {id : JobId} {timestamp : ℕ}
    {writer : Engine.State → Engine.Environment}
    (ht : makeAvailable vm s id timestamp writer = some t) : Moves s t := by
  unfold makeAvailable at ht
  split at ht
  case h_1 => cases ht
  case h_2 =>
    split at ht
    case isFalse =>
      cases ht
      exact .refl
    case isTrue =>
      split at ht
      case h_1 =>
        cases ht
        exact .refl
      case h_2 =>
        split at ht
        case isFalse =>
          cases ht
          exact .refl
        case isTrue =>
          rcases onCommit_cases ht with ⟨c, -, ht⟩ | ht <;> cases ht
          · exact store_moves s c.state
          · exact .refl

/-! ## Commands -/

theorem cancelTask_moves {id : JobId} {w : Settling} (hb : Books s)
    (ht : cancelTask vm s id w = some t) : Moves s t := by
  unfold cancelTask at ht
  split at ht
  case h_1 =>
    cases ht
    exact .refl
  case h_2 reservation _ =>
    split at ht
    case h_1 =>
      cases ht
      exact .refl
    case h_2 entry r server hentry =>
      simp only [Option.bind_eq_bind, Option.bind_eq_some_iff] at ht
      obtain ⟨⟨l, answer⟩, hcall, ht⟩ := ht
      obtain ⟨-, hrunning, hshape⟩ := hb.external hentry
      exact .head (.request (m := .cancel reservation) rfl hcall) (settle_moves vm hrunning hshape ht)
  case h_3 =>
    split at ht
    · cases ht
    · cases ht
      exact (putRelay_moves _ _ _ _).trans (finishRuntime_moves _ _)

theorem command_moves {command : Command} {writer : Engine.State → Engine.Environment}
    (hb : Books s) (ht : Execution.command vm s writer command = some t) : Moves s t := by
  cases command with
  | insert e mode =>
    simp only [Execution.command] at ht
    split at ht
    case isFalse =>
      cases ht
      exact .refl
    case isTrue =>
      rcases onCommit_cases ht with ⟨out, -, ht⟩ | ht <;> cases ht
      · exact store_moves s out.1
      · exact .refl
  | auxiliary e =>
    rcases onCommit_cases ht with ⟨out, -, ht⟩ | ht <;> cases ht
    · exact store_moves s out.1
    · exact .refl
  | cancel id revision timestamp stopping w =>
    simp only [Execution.command] at ht
    split at ht
    case h_1 =>
      cases ht
      exact .refl
    case h_2 job hjob =>
      obtain ⟨hlookup, -⟩ := mutable?_eq hjob
      rcases onCommit_cases ht with ⟨c, hc, ht⟩ | ht
      · have hspec := Engine.commit_hot vm hb.counted hlookup hc
        have hcommitted : Books { s with engine := c.state } :=
          hb.congr hspec.counted rfl rfl rfl rfl rfl Finset.Subset.rfl
        exact (store_moves s c.state).trans (cancelTask_moves vm hcommitted ht)
      · cases ht
        exact .refl
  | retry id revision timestamp stopping =>
    simp only [Execution.command] at ht
    split at ht
    case h_1 =>
      cases ht
      exact .refl
    case h_2 =>
      rcases onCommit_cases ht with ⟨c, -, ht⟩ | ht <;> cases ht
      · exact store_moves s c.state
      · exact .refl
  | pauseQueue queue =>
    cases ht
    split
    · exact .inside (fun _ ↦ rfl) rfl rfl rfl
    · exact .refl
  | resumeQueue queue =>
    cases ht
    split
    · exact .inside (fun _ ↦ rfl) rfl rfl rfl
    · exact .refl

theorem commands_moves {cs : List (Command × (Engine.State → Engine.Environment))} (hb : Books s)
    (ht : commands vm s cs = some t) : Moves s t := by
  induction cs generalizing s with
  | nil =>
    cases ht
    exact .refl
  | cons head rest ih =>
    obtain ⟨next, hnext, hrest⟩ := Option.bind_eq_some_iff.mp ht
    obtain ⟨hbooks, -⟩ := command_keeps vm hnext hb
    exact (command_moves vm hb hnext).trans (ih hbooks hrest)

/-! ## Messages -/

/-- Two states that differ in nothing an external execution is about. -/
structure Alike (s t : State) : Prop where
  link : t.link = s.link
  running : t.running = s.running
  settled : t.settled = s.settled

theorem Alike.refl (s : State) : Alike s s := ⟨rfl, rfl, rfl⟩

theorem completeDrains_alike (s : State) : Alike s (completeDrains s) := by
  unfold completeDrains
  split
  · exact ⟨rfl, rfl, rfl⟩
  · exact Alike.refl s

/-- **One message.** A sequence of moves, up to what is not about external executions, or a claim
that ends with its reservation. -/
theorem step_moves {e : Event} (hb : Books s) (ht : step vm s e = some t) :
    (∃ u, Moves s u ∧ Alike u t) ∨ ∃ now queue c job, e = .controlQueue now queue c ∧
      chosen (releasePending s now) queue c = some job ∧
      Reserves vm (releasePending s now) job c t := by
  have hmoved : Moves s t → ∃ u, Moves s u ∧ Alike u t := fun h ↦ ⟨t, h, Alike.refl t⟩
  cases e with
  | commands cs =>
    obtain ⟨u, hu, rfl⟩ := Option.map_eq_some_iff.mp ht
    exact .inl ⟨u, commands_moves vm hb hu, completeDrains_alike u⟩
  | drain permit caller =>
    simp only [step] at ht
    split at ht <;> cases ht
    obtain ⟨hlink, hrunning, hsettled⟩ := completeDrains_alike
      { s with
        mode := .draining
        drainers := s.drainers.insert permit caller
        requested := s.requested ++ [permit] }
    exact .inl ⟨s, .refl, hlink, hrunning, hsettled⟩
  | drainDeadline permit =>
    cases ht
    refine .inl ⟨s, .refl, ?_⟩
    split
    · exact Alike.refl s
    · exact ⟨rfl, rfl, rfl⟩
  | lifecycleDrain token policy same =>
    cases ht
    refine .inl ⟨s, .refl, ?_⟩
    split
    · exact Alike.refl s
    · obtain ⟨hlink, hrunning, hsettled⟩ :=
        completeDrains_alike { s with mode := .draining, lifecycleOperation := some token }
      exact ⟨hlink, hrunning, hsettled⟩
  | policyDrainCancel token =>
    cases ht
    refine .inl ⟨s, .refl, ?_⟩
    split
    · exact ⟨rfl, rfl, rfl⟩
    · exact Alike.refl s
  | executorServerReady pid =>
    simp only [step] at ht
    split at ht <;> cases ht
    exact .inl ⟨s, .refl, rfl, rfl, rfl⟩
  | executorCompletion w =>
    simp only [step] at ht
    split at ht
    · cases ht
    case h_2 server reservation result rest _ =>
      have hlinked : Books { s with link := { s.link with completions := rest } } :=
        hb.congr hb.counted rfl rfl rfl rfl rfl Finset.Subset.rfl
      exact .inl (hmoved (.head .received (executorCompletion_moves vm hlinked ht)))
  | executorTimeout reservation execution w =>
    exact .inl (hmoved (executorTimeout_moves vm hb ht))
  | controlScheduler now id timestamp writer =>
    simp only [step] at ht
    split at ht
    · exact .inl (hmoved ((releasePending_moves s now).trans (makeAvailable_moves vm ht)))
    · cases ht
      exact .inl (hmoved (releasePending_moves s now))
  | controlQueue now queue c =>
    simp only [step] at ht
    split at ht
    · cases ht
    · rcases controlQueue_moves vm ht with hmoves | ⟨job, hjob, hreserves⟩
      · exact .inl (hmoved ((releasePending_moves s now).trans hmoves))
      · exact .inr ⟨now, queue, c, job, rfl, hjob, hreserves⟩
  | execution pid ticket execution m w =>
    obtain ⟨u, hu, rfl⟩ := Option.map_eq_some_iff.mp ht
    exact .inl ⟨u, executionMessage_moves vm hu, completeDrains_alike u⟩
  | compaction a =>
    simp only [step] at ht
    split at ht
    case isFalse => cases ht
    case isTrue =>
      obtain ⟨engine, -, rfl⟩ := Option.map_eq_some_iff.mp ht
      exact .inl (hmoved (store_moves s engine))
  | turn u =>
    obtain ⟨l, hl, rfl⟩ := Option.map_eq_some_iff.mp ht
    exact .inl (hmoved (.single (.turn hl)))

end Tay.Execution
