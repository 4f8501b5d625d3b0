import Tay.Execution.External

/-!
# Reservations

Two properties of the reservations the executor server grants to the engine.

A reservation is settled at most once, in every run: its identifier is never drawn again, its entry
goes with the settlement, and a message about a reservation without an entry is ignored.

A reservation the server holds is for an execution of the engine. That is so as long as a claim whose
reservation is granted also passes its checks: `claim` reserves first, and its refusals after that
give nothing back.
-/

open Foundation

namespace Tay.Execution

open V2 Transition Executor

variable {s t u : State} (vm : Runtime)

/-! ## Settled once -/

/-- What is settled is over: it was drawn, it has no entry, and it is settled once. -/
structure Once (s : State) : Prop where
  sound : s.link.Sound
  drawn : ∀ r : ℕ, (s.running[Key.executor r]?).isSome → r ∈ s.link.issued
  nodup : s.settled.Nodup
  ended : ∀ r ∈ s.settled, s.running[Key.executor r]? = none ∧ r ∈ s.link.issued

/-- Only the link moves. -/
theorem Once.link {l : Link} (h : Once s) (hsound : l.Sound) (hissued : s.link.issued ⊆ l.issued) :
    Once { s with link := l } :=
  ⟨hsound, fun r hr ↦ hissued (h.drawn r hr), h.nodup,
    fun r hr ↦ ⟨(h.ended r hr).1, hissued (h.ended r hr).2⟩⟩

theorem Once.call {l : Link} {target : ℕ} {m : Message} {turns : List Turn}
    {answer : Option (Except Refusal Unit)} (h : Once s)
    (hcall : s.link.call target m turns = some (l, answer)) : Once { s with link := l } :=
  h.link (Link.sound_closed.call (Link.confined_any _) trivial h.sound hcall).1
    (Link.issued_call hcall)

theorem Once.inside (h : Once s) (hrunning : ∀ r : ℕ,
      (t.running[Key.executor r]?).map Entry.shape = (s.running[Key.executor r]?).map Entry.shape)
    (hlink : t.link = s.link) (hsettled : t.settled = s.settled) : Once t := by
  have hsome : ∀ r : ℕ, (t.running[Key.executor r]?).isSome = (s.running[Key.executor r]?).isSome := by
    intro r
    have hr := congrArg Option.isSome (hrunning r)
    rwa [Option.isSome_map, Option.isSome_map] at hr
  refine ⟨hlink ▸ h.sound, ?_, hsettled ▸ h.nodup, ?_⟩
  · intro r hr
    rw [hlink]
    exact h.drawn r (hsome r ▸ hr)
  · intro r hr
    obtain ⟨hnone, hissued⟩ := h.ended r (hsettled ▸ hr)
    refine ⟨?_, hlink ▸ hissued⟩
    rw [← Option.not_isSome_iff_eq_none, hsome r, hnone]
    simp

/-- Every kind of move keeps it. -/
theorem Once.move (h : Once s) (hmove : Move s t) : Once t := by
  cases hmove with
  | inside hrunning hlink hsettled => exact h.inside hrunning hlink hsettled
  | received => exact h.link ⟨h.sound.indexed, h.sound.issued⟩ Finset.Subset.rfl
  | turn hturn =>
    exact h.link (Link.sound_closed.turn (Link.confined_any _) h.sound hturn).1
      (Link.issued_turn hturn)
  | request _ hcall => exact h.call hcall
  | refused hgrants hrelease =>
    obtain ⟨task, queue, turns, hcall⟩ := hgrants
    exact (h.call hcall).call hrelease
  | @started _ l server r entry hgrants _ hrunning hlink hsettled =>
    obtain ⟨task, queue, turns, hcall⟩ := hgrants
    obtain ⟨hfresh, hdrawn⟩ := Link.reserve_fresh hcall
    have hlinked := h.call hcall
    refine ⟨hlink ▸ hlinked.sound, ?_, hsettled ▸ h.nodup, ?_⟩
    · intro x hx
      rw [hrunning, Table.get_insert] at hx
      rw [hlink]
      split at hx
      case isTrue heq =>
        cases heq
        exact hdrawn
      case isFalse => exact hlinked.drawn x hx
    · intro x hx
      rw [hsettled] at hx
      obtain ⟨hnone, hissued⟩ := hlinked.ended x hx
      rw [hrunning, Table.get_insert, hlink]
      refine ⟨?_, hissued⟩
      rw [if_neg]
      · exact hnone
      · -- what is settled was drawn before, and the new identifier was not
        intro heq
        cases heq
        exact hfresh (h.ended _ hx).2
  | @settled _ l server r entry turns answer hentry _ hrelease hrunning hlink hsettled =>
    have hlinked := h.call hrelease
    have hnew : r ∉ s.settled := by
      intro hr
      rw [(h.ended r hr).1] at hentry
      cases hentry
    refine ⟨hlink ▸ hlinked.sound, ?_, ?_, ?_⟩
    · intro x hx
      rw [hrunning, Table.get_erase] at hx
      rw [hlink]
      split at hx
      · cases hx
      · exact hlinked.drawn x hx
    · rw [hsettled]
      exact List.nodup_append.mpr ⟨h.nodup, by simp, by
        intro x hx y hy heq
        rw [List.mem_singleton] at hy
        exact hnew (hy ▸ heq ▸ hx)⟩
    · intro x hx
      rw [hsettled, List.mem_append, List.mem_singleton] at hx
      rw [hrunning, Table.get_erase, hlink]
      rcases hx with hx | rfl
      · refine ⟨?_, (hlinked.ended x hx).2⟩
        split
        · rfl
        · exact (h.ended x hx).1
      · exact ⟨by simp, hlinked.drawn x (by simp [hentry])⟩

theorem Once.moves (h : Once s) (hmoves : Moves s t) : Once t := by
  induction hmoves with
  | refl => exact h
  | tail _ hmove ih => exact ih.move hmove

theorem Once.step {e : Event} (hb : Books s) (h : Once s) (ht : step vm s e = some t) : Once t := by
  rcases step_moves vm hb ht with ⟨u, hmoves, halike⟩ | ⟨now, queue, c, job, -, -, hreserves⟩
  · have hu := h.moves hmoves
    exact hu.inside (fun r ↦ by rw [halike.running]) halike.link halike.settled
  · obtain ⟨l, server, answer, hcall, rfl, -⟩ := hreserves
    exact (h.moves (releasePending_moves s now)).call hcall

theorem Starts.once (h : Starts vm s) : Once s where
  sound := Link.sound_restarted h.link.1
  drawn := by simp [h.running]
  nodup := by simp [h.settled]
  ended := by simp [h.settled]

/-- The executor server's books, and the settlements so far. -/
structure Settled (s : State) : Prop where
  /-- A reservation is settled at most once, and then every message about it is ignored. -/
  once : s.settled.Nodup
  ended : ∀ r ∈ s.settled, externalEntry s r = none
  /-- The map of reservations and the sets of the connections are in bijection. -/
  bijection : ∀ r c, (s.link.server.reservations[r]?).map Reservation.connection = some c ↔
    ∃ entry, s.link.server.connections[c]? = some entry ∧ r ∈ entry.reservations
  capacity : ∀ (c : ℕ) (entry : Connection), s.link.server.connections[c]? = some entry →
    entry.reservations.card ≤ entry.capacity

/-- **External executions are settled at most once**, and the executor server's indexes agree, in
every run. -/
theorem external_settled_once (h : (machine vm).Reachable s) : Settled s := by
  have hinv : Books s ∧ Once s := by
    refine h.invariant (I := fun s ↦ Books s ∧ Once s) (fun s (hs : Starts vm s) ↦
      ⟨hs.books, hs.once⟩) ?_
    rintro s e t ⟨hb, ho⟩ hstep
    exact ⟨(step_keeps vm hb hstep).1, ho.step vm hb hstep⟩
  refine ⟨hinv.2.nodup, fun r hr ↦ ?_, hinv.2.sound.indexed.holder, hinv.2.sound.indexed.capacity⟩
  rw [externalEntry, (hinv.2.ended r hr).1, Option.bind_none]

namespace Sample

/-- The execution ends twice over: its runtime reports a result and then is gone, and both messages
reach the engine. -/
def completing : List Event :=
  starting .volatile ++
    [.turn (.receive (.started 1 7 9)), .turn (.receive (.complete 1 7 9 (.success .null))),
      .turn (.receive (.disconnected 1)), .executorCompletion settling, .executorCompletion settling]

end Sample

/-- A result and a loss of one execution. -/
theorem settled_once_completed :
    ∃ s, (machine Tay.Sample.runtime).Reachable s ∧ s.settled = [7] ∧ s.link.completions = [] ∧
      Settled s := by
  have hrun : ((machine Tay.Sample.runtime).run Sample.start Sample.completing).any (fun s ↦
      decide (s.settled = [7] ∧ s.link.completions = [])) = true := by
    decide +kernel
  obtain ⟨s, hs, h⟩ := (Option.any_eq_true _ _).mp hrun
  obtain ⟨hsettled, hempty⟩ := of_decide_eq_true h
  have hreachable := Machine.reachable_of_run Sample.starts hs
  exact ⟨s, hreachable, hsettled, hempty, external_settled_once _ hreachable⟩

/-! ## Held for an execution -/

/-- An external execution of the engine under a server. -/
def Runs (s : State) (pid r : ℕ) : Prop :=
  ∃ entry, s.running[Key.executor r]? = some entry ∧ entry.shape.2.2 = some (r, pid)

/-- What the server holds is for an execution under it, or its release is on the way; and no
reservation is waiting. -/
structure Backed (s : State) : Prop where
  backs : s.link.Backs (Runs s s.link.pid) s.link.pid
  confined : s.link.Confined Link.quiet

/-- What is said of the server before is said of it after. -/
theorem backs_pid (base : ℕ → ℕ → Prop) {pid : ℕ} {l : Link} (h : l.Backs (base pid) pid) :
    l.Backs (base l.pid) l.pid := by
  intro r hr
  refine (h r hr).imp (fun hbase ↦ ⟨?_, rfl⟩) id
  rw [hbase.2]
  exact hbase.1

theorem Backs.imp {base base' : ℕ → Prop} {pid : ℕ} {l : Link} (h : l.Backs base pid)
    (himp : ∀ r, base r → base' r) : l.Backs base' pid := by
  intro r hr
  exact (h r hr).imp (fun hbase ↦ ⟨himp r hbase.1, hbase.2⟩) id

theorem Backed.inside (h : Backed s) (hrunning : ∀ r : ℕ,
      (t.running[Key.executor r]?).map Entry.shape = (s.running[Key.executor r]?).map Entry.shape)
    (hlink : t.link = s.link) : Backed t := by
  refine ⟨?_, hlink ▸ h.confined⟩
  rw [hlink]
  refine Backs.imp h.backs fun r hr ↦ ?_
  obtain ⟨entry, hentry, hshape⟩ := hr
  have hr := hrunning r
  rw [hentry, Option.map_some] at hr
  obtain ⟨new, hnew, hsame⟩ := Option.map_eq_some_iff.mp hr
  exact ⟨new, hnew, hsame ▸ hshape⟩

/-- Every kind of move keeps it. -/
theorem Backed.move (h : Backed s) (hmove : Move s t) : Backed t := by
  cases hmove with
  | inside hrunning hlink => exact h.inside hrunning hlink
  | received => exact ⟨h.backs, h.confined.received, h.confined.waiting⟩
  | turn hturn =>
    obtain ⟨hbacks, hconfined⟩ := (Link.backs_closed _ _).turn h.confined h.backs hturn
    exact ⟨backs_pid (Runs s) hbacks, hconfined⟩
  | request hm hcall =>
    obtain ⟨hbacks, hconfined⟩ := (Link.backs_closed _ _).call h.confined hm h.backs hcall
    exact ⟨backs_pid (Runs s) hbacks, hconfined⟩
  | @refused l l' server r turns answer hgrants hrelease =>
    obtain ⟨task, queue, reserving, hcall⟩ := hgrants
    obtain ⟨htarget, hpid, hempty, hgranted⟩ := h.backs.granted h.confined hcall
    have hquiet : l.Confined Link.quiet := Link.confined_quiet (by simp [hempty])
    obtain ⟨hbacks, hconfined⟩ := hgranted.release hquiet (fun _ ↦ htarget) hrelease
    refine ⟨backs_pid (Runs s) (Backs.imp hbacks ?_), hconfined⟩
    rintro x ⟨rfl | ⟨hx, -⟩, hne⟩
    · exact absurd rfl hne
    · exact hx
  | @started _ l server r entry hgrants hshape hrunning hlink _ _ =>
    obtain ⟨task, queue, reserving, hcall⟩ := hgrants
    obtain ⟨htarget, hpid, hempty, hgranted⟩ := h.backs.granted h.confined hcall
    subst hlink
    refine ⟨backs_pid (Runs t) (Backs.imp hgranted ?_),
      Link.confined_quiet (by simp [hempty])⟩
    intro x hx
    by_cases heq : x = r
    · subst heq
      exact ⟨entry, by simp [hrunning], htarget ▸ hshape⟩
    · obtain ⟨other, hother, hsame⟩ := (hx.resolve_left heq).1
      refine ⟨other, ?_, hsame⟩
      rw [hrunning, Table.get_insert, if_neg fun hkey ↦ heq (Key.executor.inj hkey).symm]
      exact hother
  | @settled _ l server r entry turns answer hentry hshape hrelease hrunning hlink _ _ =>
    subst hlink
    obtain ⟨hbacks, hconfined⟩ := h.backs.release h.confined (r := r) (by
      rintro ⟨other, hother, hsame⟩
      rw [hentry] at hother
      cases hother
      rw [hshape] at hsame
      cases hsame
      rfl) hrelease
    refine ⟨backs_pid (Runs t) (Backs.imp hbacks ?_), hconfined⟩
    rintro x ⟨⟨other, hother, hsame⟩, hne⟩
    refine ⟨other, ?_, hsame⟩
    rw [hrunning, Table.get_erase, if_neg fun hkey ↦ hne (Key.executor.inj hkey).symm]
    exact hother

theorem Backed.moves (h : Backed s) (hmoves : Moves s t) : Backed t := by
  induction hmoves with
  | refl => exact h
  | tail _ hmove ih => exact ih.move hmove

/-- A claim that is granted a reservation for a job it then turns away. -/
def wastes (s : State) : Event → Bool
  | .controlQueue now queue c =>
    let s := releasePending s now
    match chosen s queue c with
    | none => false
    | some job =>
      match select s job c with
      | some (_, .external _) => !claimable vm s job c.timestamp
      | _ => false
  | _ => false

/-- No request of the engine is waiting for the executor server: every call so far was answered, or
was lost with the server. -/
def Prompt (s : State) : Prop := s.link.inbox = []

/-- The side condition of a step: the server is prompt, and a reservation it grants is used. -/
def Spends (s : State) (e : Event) : Prop := Prompt s ∧ wastes vm s e = false

instance (s : State) (e : Event) : Decidable (Spends vm s e) := by
  unfold Spends Prompt
  infer_instance

theorem Backed.step {e : Event} (hb : Books s) (h : Backed s) (hspends : Spends vm s e)
    (ht : step vm s e = some t) (hprompt : Prompt t) : Backed t := by
  rcases step_moves vm hb ht with ⟨u, hmoves, halike⟩ | ⟨now, queue, c, job, rfl, hjob, hreserves⟩
  · exact (h.moves hmoves).inside (fun r ↦ by rw [halike.running]) halike.link
  · obtain ⟨l, server, answer, hcall, rfl, hgranted⟩ := hreserves
    have hreleased := h.moves (releasePending_moves s now)
    have hunanswered : answer ≠ some (.ok ()) := by
      intro hanswer
      obtain ⟨hselect, hfails⟩ := hgranted hanswer
      have hwastes := hspends.2
      simp [wastes, hjob, hselect, hfails] at hwastes
    have hquiet : ∀ m ∈ l.inbox, Link.quiet m := by
      rw [show l.inbox = [] from hprompt]
      simp
    have hbacks := hreleased.backs.unavailable hreleased.confined hcall hunanswered hquiet
    exact ⟨backs_pid (Runs (releasePending s now)) hbacks, Link.confined_quiet hquiet⟩

theorem Starts.backed (h : Starts vm s) : Backed s := by
  refine ⟨fun r hr ↦ ?_, Link.confined_quiet (by simp [h.link.2.1])⟩
  rw [h.link.1] at hr
  simp [Server.held, Link.restarted] at hr

/-- Every reservation the executor server holds is for a running external execution, or for one
whose completion is on its way to the engine. -/
def Conserved (s : State) : Prop :=
  ∀ r, s.link.server.held r = true →
    (∃ entry, s.running[Key.executor r]? = some entry ∧ entry.kind = .external r s.link.pid) ∨
      ∃ outcome, (s.link.pid, r, outcome) ∈ s.link.completions

theorem Backed.conserved (h : Backed s) (hprompt : Prompt s) : Conserved s := by
  intro r hr
  rcases h.backs r hr with ⟨⟨entry, hentry, hshape⟩, -⟩ | hwaiting
  · refine .inl ⟨entry, hentry, ?_⟩
    simp only [Entry.shape] at hshape
    split at hshape
    · cases hshape
    case h_2 hkind =>
      cases hshape
      exact hkind
  · simp [show s.link.inbox = [] from hprompt] at hwaiting

/-- **Capacity is conserved** in every run in which the executor server answers every call and no
claim turns away a job it has reserved for. -/
theorem capacity_conserved (h : (machine vm).ReachableUnder (Spends vm) s) (hprompt : Prompt s) :
    Conserved s := by
  have hinv : Books s ∧ (Prompt s → Backed s) := by
    refine h.invariant (I := fun s ↦ Books s ∧ (Prompt s → Backed s)) (fun s (hs : Starts vm s) ↦
      ⟨hs.books, fun _ ↦ hs.backed⟩) ?_
    rintro s e t ⟨hb, hbacked⟩ hspends hstep
    exact ⟨(step_keeps vm hb hstep).1, (hbacked hspends.1).step vm hb hspends hstep⟩
  exact (hinv.2 hprompt).conserved hprompt

namespace Sample

/-- A store with room for the job and not for its execution. -/
def cramped : State :=
  { start with
    engine := Engine.countInterrupted (Engine.init
      { Engine.Sample.config with maxHistoryBytes := some 600 } Engine.Sample.recovered
      Engine.Sample.segment) }

end Sample

theorem Sample.cramped_starts : Starts Tay.Sample.runtime Sample.cramped where
  store := ⟨⟨Tay.Sample.manifest 0, [⟨1, 1, [], false⟩]⟩,
    { Engine.Sample.config with maxHistoryBytes := some 600 }, Engine.Sample.recovered,
    Engine.Sample.segment, Engine.Sample.writer, [], by decide +kernel, rfl⟩
  running := rfl
  executions := rfl
  slots := Sample.starts.slots
  held := rfl
  mode := rfl
  drainers := rfl
  requested := rfl
  sent := rfl
  settled := rfl
  link := ⟨rfl, rfl, rfl⟩

/-- A job that runs under its reservation. -/
theorem capacity_conserved_running :
    ∃ s, (machine Tay.Sample.runtime).ReachableUnder (Spends Tay.Sample.runtime) s ∧ Prompt s ∧
      s.link.server.held 7 = true ∧ Conserved s := by
  have hrun : (((machine Tay.Sample.runtime).under (Spends Tay.Sample.runtime)).run Sample.start
      (Sample.starting .persistent)).any (fun s ↦ decide (s.link.inbox = [] ∧
        s.link.server.held 7 = true)) = true := by
    decide +kernel
  obtain ⟨s, hs, h⟩ := (Option.any_eq_true _ _).mp hrun
  obtain ⟨hprompt, hheld⟩ := of_decide_eq_true h
  have hreachable := Machine.reachableUnder_of_run (.initial Sample.starts) hs
  exact ⟨s, hreachable, hprompt, hheld, capacity_conserved _ hreachable hprompt⟩

/-- The job is turned away for want of room, and the executor's slot stays taken. -/
theorem capacity_lost : ¬ ∀ s, (machine Tay.Sample.runtime).Reachable s → Conserved s := by
  intro hall
  have hrun : ((machine Tay.Sample.runtime).run Sample.cramped (Sample.starting .persistent)).any
      (fun s ↦ s.link.server.held 7 && s.running.isEmpty && s.link.completions.isEmpty) = true := by
    decide +kernel
  obtain ⟨s, hs, h⟩ := (Option.any_eq_true _ _).mp hrun
  simp only [Bool.and_eq_true, Std.ExtTreeMap.isEmpty_iff, List.isEmpty_iff] at h
  obtain ⟨⟨hheld, hrunning⟩, hcompletions⟩ := h
  rcases hall s (Machine.reachable_of_run Sample.cramped_starts hs) 7 hheld with
    ⟨entry, hentry, -⟩ | ⟨outcome, houtcome⟩
  · simp [hrunning] at hentry
  · simp [hcompletions] at houtcome

end Tay.Execution
