import Mathlib.Data.Nat.Pairing
import Tay.Schedule.Delivery
import Tay.Schedule.Membership

/-!
# Occurrences that must not overlap

A schedule whose policy is to skip or to queue gets no new job while one it has delivered has not
ended. The engine asks the schedule's list of members, and a delivery puts its job on the list with
the second of its two commits. When that one is refused, the job is there and not on the list; as long
as the schedule stays at its occurrence nothing is lost, since the job is found under its id.

What goes wrong is a schedule that is moved to another occurrence in between, by a registration or by
hand: then no list and no id leads to the job any more, and the next delivery inserts beside it.
`strands` is that case, and in runs without it the policy is kept.
-/

open Foundation

namespace Tay.Engine

open V2 ProjectionState OnlineCheckpoint

/-! ## Commands on schedules -/

/-- The commands, with what the environment decides about each. -/
inductive ScheduleCommand
  | register (d : Declared) (env : Environment)
  | cancel (id : Binary) (revision timestamp : ℕ) (env : Environment)
  | advance (id : Binary) (revision dueAt nextAt timestamp : ℕ) (env : Environment)
  | deliver (q : Delivery) (c : Conditions)

/-- What happens next: a command on a schedule, another message, or a new generation. -/
inductive Occasion
  | schedule (k : ScheduleCommand)
  | message (a : Action)
  | restart (t : State)

variable (vm : Runtime) (occurrenceId : Binary → ℕ → JobId)

/-- `Local.deliver_schedule` derives the id of the job. -/
def Delivery.derived (q : Delivery) : Delivery := { q with raw := occurrenceId q.id q.dueAt }

def ScheduleCommand.execute (s : State) : ScheduleCommand → Option Executed
  | .register d env => registerSchedule vm s d env
  | .cancel id revision timestamp env => cancelSchedule vm s id revision timestamp env
  | .advance id revision dueAt nextAt timestamp env =>
    advanceSchedule vm s id revision dueAt nextAt timestamp env
  | .deliver q c => deliverSchedule vm s (q.derived occurrenceId) c

/-- The engine, its schedules and the generations that follow one another. The members a store lists
are jobs of its schedules. -/
def scheduling : Machine State Occasion where
  initial s := Starts vm s ∧ ∀ (id : Binary) (x : Schedule), s.schedules[id]? = some x →
    ∀ raw ∈ x.activeJobIds ++ x.activeJobId.toList, ∃ n, raw = occurrenceId id n
  step s
    | .schedule k => (k.execute vm occurrenceId s).map Executed.state
    | .message a => if Coordinator.foreign a then (handle vm s a).toOption else none
    | .restart t => some t

/-! ## Deliveries -/

/-- The delivery a turn has inserted a job for. -/
def insertion (s : State) (l : Occasion) (t : State) : List (Binary × JobId) :=
  match l with
  | .schedule (.deliver q _) =>
    let raw := occurrenceId q.id q.dueAt
    if (lookup s raw).isNone && (lookup t raw).isSome then [(q.id, raw)] else []
  | _ => []

/-- The jobs that a schedule lists in the store a run starts from. -/
def listed (s : State) : List (Binary × JobId) :=
  s.schedules.toList.flatMap fun p ↦ p.2.activeJobIds.map (p.1, ·)

/-- The jobs that are there. -/
def present (s : State) (g : List (Binary × JobId)) : List (Binary × JobId) :=
  g.filter fun p ↦ (lookup s p.2).isSome

/-- The machine beside the jobs each schedule has delivered, as long as they are there. -/
def delivering : Machine (State × List (Binary × JobId)) Occasion :=
  (scheduling vm occurrenceId).observed (fun s ↦ present s (listed s))
    fun s l t g ↦ present t (insertion occurrenceId s l t ++ g)

/-! ## What a run is allowed -/

/-- The job of the schedule's next occurrence is there, has not ended, and is not on the list. -/
def unlisted (s : State) (x : Schedule) : Bool :=
  let raw := occurrenceId x.id x.nextAt
  active? (lookup s raw) && !x.activeJobIds.contains raw

/-- A command that moves a schedule away from such an occurrence. -/
def strands (s : State) : ScheduleCommand → Bool
  | .register d _ => (s.schedules[d.id]?).any fun x ↦
      unlisted occurrenceId s x && x.nextAt != d.nextAt &&
        !(x.cancelledAt.isNone && x.definition == d.definition)
  | .advance id _ _ nextAt _ _ => (s.schedules[id]?).any fun x ↦
      unlisted occurrenceId s x && x.nextAt != nextAt
  | .cancel .. | .deliver .. => false

/-- The epochs adopted in a sequence of messages have the engine's schedules. -/
def RecallsAll : State → List Action → Prop
  | _, [] => True
  | s, a :: as => Recalls vm s a ∧ ∀ t, handle vm s a = .ok t → RecallsAll t as

/-- A generation on the log of the one before: it has its schedules, and no running job that the one
before did not have as a persistent one. -/
structure Succeeds (s t : State) : Prop where
  starts : Starts vm t
  schedules : Recalled s t.schedules
  jobs : ∀ id, active? (lookup t id) = true → id ∉ s.volatileIds ∧ active? (lookup s id) = true

/-- Epochs and generations have the engine's schedules, and no discarded job is retried. -/
def Regular (s : State) : Occasion → Prop
  | .schedule k => ∀ x, k.execute vm occurrenceId s = some x → RecallsAll vm s x.actions
  | .message a => Recalls vm s a ∧ revives s a = false
  | .restart t => Succeeds vm s t

/-- And no schedule is moved away from a job it does not list. -/
def Tied (s : State) (l : Occasion) : Prop :=
  Regular vm occurrenceId s l ∧ ∀ k, l = .schedule k → strands occurrenceId s k = false

/-! ## The invariant along a run -/

variable {vm} {occurrenceId} {s t : State} {g : List (Binary × JobId)} {env : Environment}

theorem Enrolled.mono {g' : List (Binary × JobId)} (h : Enrolled occurrenceId g s) (hg : g' ⊆ g) :
    Enrolled occurrenceId g' s :=
  ⟨h.placed, h.keyed, h.derived, h.owned, fun p hp ↦ h.covered p (hg hp)⟩

theorem owners_of_starts (h : Starts vm s) : s.scheduleOwners = Auxiliary.owners s.schedules := by
  obtain ⟨d, config, r, segment, -, rfl, -⟩ := h
  rfl

theorem mem_listed {p : Binary × JobId} (hp : p ∈ listed s) :
    ∃ x, s.schedules[p.1]? = some x ∧ p.2 ∈ x.activeJobIds := by
  obtain ⟨q, hq, hp⟩ := List.mem_flatMap.mp hp
  obtain ⟨raw, hraw, rfl⟩ := List.mem_map.mp hp
  exact ⟨q.2, Std.ExtTreeMap.mem_toList_iff_getElem?_eq_some.mp hq, hraw⟩

/-- Every message of a sequence that is followed by another. -/
theorem RecallsAll.append {as bs : List Action} :
    ∀ {s : State}, RecallsAll vm s (as ++ bs) → (machine vm).run s as = some t →
      RecallsAll vm s as ∧ RecallsAll vm t bs := by
  induction as with
  | nil =>
    intro s h hrun
    cases hrun
    exact ⟨trivial, h⟩
  | cons a as ih =>
    intro s h hrun
    rw [Machine.run_cons, Option.bind_eq_some_iff] at hrun
    obtain ⟨u, hu, hrun⟩ := hrun
    have hhandle : handle vm s a = .ok u := toOption_eq_some.mp hu
    obtain ⟨hfirst, hrest⟩ := ih (h.2 u hhandle) hrun
    refine ⟨⟨h.1, fun v hv ↦ ?_⟩, hrest⟩
    rw [hhandle] at hv
    cases hv
    exact hfirst

/-- What is left of the members when the schedule is moved to `nextAt`, unless that strands a job. -/
theorem Enrolled.moved (h : Enrolled occurrenceId g s) {id : Binary} {x : Schedule}
    (nextAt : ℕ) (hx : s.schedules[id]? = some x)
    (hstrands : (unlisted occurrenceId s x && x.nextAt != nextAt) = false) :
    ∀ p ∈ g, p.1 = id → active? (lookup s p.2) = true →
      p.2 ∈ x.activeJobIds ∨ p.2 = occurrenceId id nextAt := by
  intro p hp hid hactive
  obtain ⟨x', hx', hcovered⟩ := h.covered p hp hactive
  rw [hid, hx] at hx'
  cases hx'
  rw [hid] at hcovered
  rcases hcovered with hin | heq
  · exact .inl hin
  · by_cases hmoved : x.nextAt = nextAt
    · exact .inr (hmoved ▸ heq)
    · by_cases hin : p.2 ∈ x.activeJobIds
      · exact .inl hin
      · have hkey : x.id = id := h.keyed id x hx
        rw [heq] at hin hactive
        simp [unlisted, hkey, hactive, hin, hmoved] at hstrands

/-- The occurrence a schedule is at does not change with a message about no schedule. -/
theorem handle_nextAt {a : Action} {id : Binary} {x y : Schedule}
    (hforeign : Coordinator.foreign a = true) (hrecalls : Recalls vm s a)
    (ht : handle vm s a = .ok t) (hx : s.schedules[id]? = some x)
    (hy : t.schedules[id]? = some y) : y.nextAt = x.nextAt := by
  obtain ⟨base, hbase, hschedules, -⟩ := handle_settled hforeign ht
  have hdecls : decls base = decls s := by
    cases hadoption : adoption vm s a with
    | none =>
      rw [hadoption] at hbase
      cases hbase
      rfl
    | some z =>
      have hrecalled := hrecalls z hadoption
      rw [hadoption] at hbase
      cases hbase with
      | @adopt stats retention _ _ _ hadopted =>
        have hrestated : Restated s stats := hrecalled.decls
        have hadopted' := adopt_decls hrestated hadopted
        exact hadopted'
  have hsame := congrFun hdecls id
  rw [decls, decls, ← hschedules, hx, hy] at hsame
  simp only [Option.map_some, Option.some.injEq, decl, Decl.mk.injEq] at hsame
  exact hsame.2.2.2.1

/-- A skipped occurrence has no job when the schedule has moved on either. -/
theorem deliverAdvance_lookup {q : Delivery} {schedule : Schedule} {activeId : Option JobId}
    {x : Executed} (hs : Placed s) (hx : deliverAdvance vm s schedule q activeId env = some x)
    {raw : JobId} (hnone : lookup s raw = none) : lookup x.state raw = none := by
  rw [Engine.deliverAdvance] at hx
  rcases auxiliaryCommit_cases hx with ⟨r, rfl⟩ | ⟨out, stored, hperform, -, rfl⟩
  · exact hnone
  · have hquiet := commitAuxiliary_quiet hs hperform
    rw [hquiet.lookup, hnone]
    rfl

/-- A job that a delivery has inserted was not there, and the schedule was not busy unless its policy
does not care. -/
theorem delivers_inserted {q : Delivery} {c : Conditions} {x : Executed} (hs : Placed s)
    (hx : Delivers vm s q c x) (hnone : lookup s q.raw = none)
    (hsome : (lookup x.state q.raw).isSome) :
    ∃ schedule, s.schedules[q.id]? = some schedule ∧ schedule.definition = q.definition ∧
      schedule.nextAt = q.dueAt ∧ (q.definition.overlap ≠ .allow → busy s schedule c = false) := by
  cases hx with
  | refused hx =>
    rw [hx, hnone] at hsome
    cases hsome
  | passed _ _ _ hx =>
    rw [hx, hnone] at hsome
    cases hsome
  | skipped _ _ _ _ _ _ hadvance =>
    rw [deliverAdvance_lookup hs hadvance hnone] at hsome
    cases hsome
  | inserted hschedule hcurrent hdue hfree =>
    exact ⟨_, hschedule, (current_iff.mp hcurrent).1, hdue, hfree hnone⟩

section

variable (hapart : ∀ id id' n n', occurrenceId id n = occurrenceId id' n' → id = id')
include hapart

theorem enrolled_initial (h : (scheduling vm occurrenceId).initial s) :
    Enrolled occurrenceId (present s (listed s)) s := by
  obtain ⟨hstarts, hderived⟩ := h
  refine ⟨Coordinator.placed_of_starts hstarts, fun id x hx ↦ ?_, hderived, fun raw id ↦ ?_,
    fun p hp _ ↦ ?_⟩
  · exact Coordinator.keyed_of_starts hstarts id _ (decls_of_some hx)
  · rw [owners_of_starts hstarts]
    refine owners_get fun id' x hx hraw id y hy hraw' ↦ ?_
    obtain ⟨n, hn⟩ := hderived id' x hx raw (List.mem_append_left _ hraw)
    obtain ⟨m, hm⟩ := hderived id y hy raw (List.mem_append_left _ hraw')
    exact hapart id' id n m (hn.symm.trans hm)
  · obtain ⟨x, hx, hraw⟩ := mem_listed (List.mem_filter.mp hp).1
    exact ⟨x, hx, .inl hraw⟩

/-- **A new generation.** -/
theorem Enrolled.succeeds (h : Enrolled occurrenceId g s) (ht : Succeeds vm s t) :
    Enrolled occurrenceId g t := by
  refine h.replaced hapart (Coordinator.placed_of_starts ht.starts) (owners_of_starts ht.starts)
    (fun p _ hactive ↦ (ht.jobs p.2 hactive).2) (fun id x hx ↦ ?_) fun id z hz ↦ ?_
  · obtain ⟨l, hl, -⟩ := ht.schedules.same.get hx
    exact ⟨_, hl⟩
  · obtain ⟨x, hx, hzx, hsubset, hkept⟩ := ht.schedules.get hz
    exact ⟨x, hx, hzx, hsubset, fun raw hraw hactive ↦ hkept raw hraw (ht.jobs raw hactive).1⟩

/-! ## Registrations, cancellations and manual advances -/

/-- A schedule restated with the members it has. -/
theorem Enrolled.auxiliaryCommit (h : Enrolled occurrenceId g s) {id : Binary}
    {revision timestamp : ℕ} {schedule : Schedule} {x : Executed}
    (hx : auxiliaryCommit vm s (scheduleStateEvent id revision timestamp schedule) id env = some x)
    (hrecalls : RecallsAll vm s x.actions)
    (hderived : ∀ raw ∈ schedule.activeJobIds ++ schedule.activeJobId.toList,
      ∃ n, raw = occurrenceId id n)
    (hcovered : ∀ p ∈ g, p.1 = id → active? (lookup s p.2) = true →
      p.2 ∈ schedule.activeJobIds ∨ p.2 = occurrenceId id schedule.nextAt) :
    Enrolled occurrenceId g x.state := by
  rcases auxiliaryCommit_cases hx with ⟨r, rfl⟩ | ⟨out, stored, hperform, -, rfl⟩
  · exact h
  · exact h.restated hapart hrecalls.1 hperform hderived hcovered

theorem Enrolled.registerSchedule (h : Enrolled occurrenceId g s) {d : Declared} {x : Executed}
    (hx : registerSchedule vm s d env = some x) (hrecalls : RecallsAll vm s x.actions)
    (hstrands : strands occurrenceId s (.register d env) = false) :
    Enrolled occurrenceId g x.state := by
  simp only [Engine.registerSchedule] at hx
  split at hx
  case isTrue =>
    cases hx
    exact h
  case isFalse =>
    split at hx
    case h_1 =>
      cases hx
      exact h
    case h_2 hother =>
      cases hprevious : s.schedules[d.id]? with
      | none =>
        rw [hprevious] at hx
        refine h.auxiliaryCommit hapart hx hrecalls (fun raw hraw ↦ ?_) fun p hp hid hactive ↦ ?_
        · simp [registered] at hraw
        · obtain ⟨y, hy, -⟩ := h.covered p hp hactive
          rw [hid, hprevious] at hy
          cases hy
      | some y =>
        rw [hprevious] at hx hother
        have hchanged : (y.cancelledAt.isNone && y.definition == d.definition) = false := by
          by_contra hsame
          rw [Bool.not_eq_false] at hsame
          rw [Option.filter_some, if_pos hsame] at hother
          cases hother
        simp only [strands, hprevious, Option.any_some, hchanged, Bool.not_false,
          Bool.and_true] at hstrands
        have hmoved := h.moved d.nextAt hprevious hstrands
        exact h.auxiliaryCommit hapart hx hrecalls (h.derived d.id y hprevious) hmoved

theorem Enrolled.cancelSchedule (h : Enrolled occurrenceId g s) {id : Binary}
    {revision timestamp : ℕ} {x : Executed}
    (hx : cancelSchedule vm s id revision timestamp env = some x)
    (hrecalls : RecallsAll vm s x.actions) : Enrolled occurrenceId g x.state := by
  unfold Engine.cancelSchedule at hx
  split at hx
  case h_1 =>
    cases hx
    exact h
  case h_2 y hy =>
    split at hx
    case isTrue =>
      cases hx
      exact h
    case isFalse =>
      split at hx
      case isFalse =>
        cases hx
        exact h
      case isTrue =>
        have hmoved := h.moved y.nextAt hy (by simp)
        exact h.auxiliaryCommit hapart hx hrecalls (h.derived id y hy) hmoved

theorem Enrolled.advanceSchedule (h : Enrolled occurrenceId g s) {id : Binary}
    {revision dueAt nextAt timestamp : ℕ} {x : Executed}
    (hx : advanceSchedule vm s id revision dueAt nextAt timestamp env = some x)
    (hrecalls : RecallsAll vm s x.actions)
    (hstrands : strands occurrenceId s (.advance id revision dueAt nextAt timestamp env) = false) :
    Enrolled occurrenceId g x.state := by
  unfold Engine.advanceSchedule at hx
  split at hx
  case h_1 =>
    cases hx
    exact h
  case h_2 y hy =>
    split at hx
    case isFalse =>
      cases hx
      exact h
    case isTrue =>
      simp only [strands, hy, Option.any_some] at hstrands
      have hmoved := h.moved nextAt hy hstrands
      exact h.auxiliaryCommit hapart hx hrecalls (h.derived id y hy) hmoved

/-! ## Deliveries -/

/-- The job of an occurrence, once it is inserted, belongs to the schedule that is at it. -/
theorem Enrolled.inserted (h : Enrolled occurrenceId g s) {q : Delivery} {c : Conditions}
    {mode : Durability} {schedule next : Schedule} {out : State × List Record}
    (hknown : ∀ p ∈ g, (lookup s p.2).isSome) (hraw : q.raw = occurrenceId q.id q.dueAt)
    (hschedule : s.schedules[q.id]? = some schedule) (hdue : schedule.nextAt = q.dueAt)
    (hrecalls : Recalls vm s (.command (.insert (q.event c) mode) c.insert))
    (hperform : perform vm s (.insert (q.event c) mode) c.insert = .ok out)
    (hnext : out.1.schedules[q.id]? = some next) :
    Enrolled occurrenceId ((q.id, q.raw) :: g) out.1 := by
  have hhandle : Engine.handle vm s (.command (.insert (q.event c) mode) c.insert) = .ok out.1 := by
    rw [Engine.handle, hperform]
    rfl
  have henrolled := h.handle hapart hknown rfl hrecalls rfl hhandle
  refine ⟨henrolled.placed, henrolled.keyed, henrolled.derived, henrolled.owned, ?_⟩
  intro p hp hactive
  rcases List.mem_cons.mp hp with rfl | hp
  · refine ⟨next, hnext, .inr ?_⟩
    rw [handle_nextAt rfl hrecalls hhandle hschedule hnext, hdue, hraw]
  · exact henrolled.covered p hp hactive

/-- The second commit of a delivery. -/
theorem Enrolled.deliverAdvance (h : Enrolled occurrenceId g s) {q : Delivery} {schedule : Schedule}
    {activeId : Option JobId} {x : Executed} (hschedule : s.schedules[q.id]? = some schedule)
    (hx : deliverAdvance vm s schedule q activeId env = some x)
    (hrecalls : RecallsAll vm s x.actions)
    (hderived : ∀ raw ∈ activeId.toList, ∃ n, raw = occurrenceId q.id n)
    (hdue : ∀ p ∈ g, p.1 = q.id → active? (lookup s p.2) = true →
      p.2 = occurrenceId q.id q.dueAt → activeId = some p.2) :
    Enrolled occurrenceId g x.state := by
  have hid : schedule.id = q.id := h.keyed q.id schedule hschedule
  rw [Engine.deliverAdvance, hid] at hx
  rcases auxiliaryCommit_cases hx with ⟨r, rfl⟩ | ⟨out, stored, hperform, -, rfl⟩
  · exact h
  · exact h.delivered hapart hrecalls.1 hperform hderived hdue

/-- **A delivery.** Where it has inserted a job, the job is one of the schedule's. -/
theorem Enrolled.deliverSchedule (h : Enrolled occurrenceId g s) {q : Delivery} {c : Conditions}
    {x : Executed} (hknown : ∀ p ∈ g, (lookup s p.2).isSome)
    (hraw : q.raw = occurrenceId q.id q.dueAt) (hx : deliverSchedule vm s q c = some x)
    (hrecalls : RecallsAll vm s x.actions) :
    Enrolled occurrenceId g x.state ∧
      (lookup s q.raw = none → (lookup x.state q.raw).isSome →
        Enrolled occurrenceId ((q.id, q.raw) :: g) x.state) := by
  have hderived : ∀ raw ∈ (some q.raw).toList, ∃ n, raw = occurrenceId q.id n := by
    intro raw hin
    exact ⟨q.dueAt, (List.mem_singleton.mp hin).trans hraw⟩
  cases deliverSchedule_delivers hx with
  | refused hx =>
    subst hx
    refine ⟨h, fun hnone hsome ↦ ?_⟩
    rw [hnone] at hsome
    cases hsome
  | passed _ _ _ hx =>
    subst hx
    refine ⟨h, fun hnone hsome ↦ ?_⟩
    rw [hnone] at hsome
    cases hsome
  | @skipped schedule hschedule _ hdue hnone _ _ hadvance =>
    have henrolled := h.deliverAdvance hapart hschedule hadvance hrecalls
      (fun raw hin ↦ h.derived q.id schedule hschedule raw (List.mem_append_right _ hin))
      (fun p _ _ hactive heq ↦ by
        rw [heq, ← hraw, hnone] at hactive
        cases hactive)
    refine ⟨henrolled, fun _ hsome ↦ ?_⟩
    rw [deliverAdvance_lookup h.placed hadvance hnone] at hsome
    cases hsome
  | @inserted schedule next u actions y hschedule hcurrent hdue hfree hinsert hnext hadvance hx =>
    subst hx
    obtain ⟨-, hlater⟩ := RecallsAll.append hrecalls (insertOccurrence_run hinsert)
    have hfirst := (RecallsAll.append hrecalls (insertOccurrence_run hinsert)).1
    rcases insertOccurrence_cases hinsert with ⟨_, heq⟩ | ⟨existing, hexisting, -, heq⟩ |
      ⟨mode, out, hnone, hperform, heq⟩
    · cases heq
    · cases heq
      refine ⟨h.deliverAdvance hapart hnext hadvance hlater hderived ?_, fun hnone _ ↦ ?_⟩
      · intro p _ _ _ heq
        rw [heq, ← hraw]
      · rw [hexisting] at hnone
        cases hnone
    · cases heq
      have henrolled := h.inserted hapart hknown hraw hschedule hdue hfirst.1 hperform hnext
      have hadvanced := henrolled.deliverAdvance hapart hnext hadvance hlater hderived (by
        intro p _ _ _ heq
        rw [heq, ← hraw])
      exact ⟨hadvanced.mono (List.subset_cons_self _ _), fun _ _ ↦ hadvanced⟩

/-! ## Runs -/

/-- **The step lemma.** -/
theorem enrolled_step {x y : State × List (Binary × JobId)} {l : Occasion}
    (h : Enrolled occurrenceId x.2 x.1) (hknown : ∀ p ∈ x.2, (lookup x.1 p.2).isSome)
    (htied : Tied vm occurrenceId x.1 l) (hy : (delivering vm occurrenceId).step x l = some y) :
    Enrolled occurrenceId y.2 y.1 ∧ ∀ p ∈ y.2, (lookup y.1 p.2).isSome := by
  obtain ⟨s, g⟩ := x
  simp only [delivering, Machine.observed, scheduling, Option.map_eq_some_iff] at hy
  obtain ⟨t, ht, rfl⟩ := hy
  refine ⟨?_, fun p hp ↦ (List.mem_filter.mp hp).2⟩
  suffices hall : Enrolled occurrenceId (insertion occurrenceId s l t ++ g) t from
    hall.mono List.filter_sublist.subset
  cases l with
  | schedule k =>
    obtain ⟨x, hx, rfl⟩ := Option.map_eq_some_iff.mp ht
    have hrecalls := htied.1 x hx
    have hstrands := htied.2 k rfl
    cases k with
    | register d env => exact h.registerSchedule hapart hx hrecalls hstrands
    | cancel id revision timestamp env => exact h.cancelSchedule hapart hx hrecalls
    | advance id revision dueAt nextAt timestamp env =>
      exact h.advanceSchedule hapart hx hrecalls hstrands
    | deliver q c =>
      obtain ⟨hkept, hnew⟩ := h.deliverSchedule hapart hknown rfl hx hrecalls
      simp only [insertion]
      split
      case isFalse => exact hkept
      case isTrue hinserted =>
        rw [Bool.and_eq_true, Option.isNone_iff_eq_none] at hinserted
        exact hnew hinserted.1 hinserted.2
  | message a =>
    simp only at ht
    split at ht
    case isFalse => cases ht
    case isTrue hforeign =>
      exact h.handle hapart hknown hforeign htied.1.1 htied.1.2 (toOption_eq_some.mp ht)
  | restart t =>
    cases ht
    exact h.succeeds hapart htied.1

/-- **No overlap.** In a run that strands no job, a delivery to a schedule whose policy is to skip or
to queue inserts a job only if every job the schedule has delivered before has ended. -/
theorem overlap_excluded {q : Delivery} {c : Conditions} {x : Schedule}
    (hs : (delivering vm occurrenceId).ReachableUnder (fun y l ↦ Tied vm occurrenceId y.1 l) (s, g))
    (ht : (scheduling vm occurrenceId).step s (.schedule (.deliver q c)) = some t)
    (hinserted : insertion occurrenceId s (.schedule (.deliver q c)) t ≠ [])
    (hx : s.schedules[q.id]? = some x) (hpolicy : x.definition.overlap ≠ .allow) :
    ∀ raw, (q.id, raw) ∈ g → active? (lookup s raw) = false := by
  obtain ⟨henrolled, -⟩ : Enrolled occurrenceId g s ∧ ∀ p ∈ g, (lookup s p.2).isSome :=
    Machine.ReachableUnder.invariant
      (I := fun y ↦ Enrolled occurrenceId y.2 y.1 ∧ ∀ p ∈ y.2, (lookup y.1 p.2).isSome)
      (fun y hy ↦ by
        obtain ⟨hinitial, hlisted⟩ := hy
        rw [hlisted]
        exact ⟨enrolled_initial hapart hinitial, fun p hp ↦ (List.mem_filter.mp hp).2⟩)
      (fun y l z hI hok hl ↦ enrolled_step hapart hI.1 hI.2 hok hl) hs
  obtain ⟨executed, hexecuted, rfl⟩ := Option.map_eq_some_iff.mp ht
  have hjob : lookup s (q.derived occurrenceId).raw = none ∧
      (lookup executed.state (q.derived occurrenceId).raw).isSome := by
    simp only [insertion] at hinserted
    split at hinserted
    case isFalse => exact absurd rfl hinserted
    case isTrue hboth =>
      rw [Bool.and_eq_true, Option.isNone_iff_eq_none] at hboth
      exact hboth
  obtain ⟨schedule, hschedule, hdefinition, hdue, hfree⟩ :=
    delivers_inserted henrolled.placed (deliverSchedule_delivers hexecuted) hjob.1 hjob.2
  have hsame : schedule = x := Option.some_inj.mp (hschedule.symm.trans hx)
  subst hsame
  rw [hdefinition] at hpolicy
  have hidle := hfree hpolicy
  intro raw hraw
  by_contra hactive
  rw [Bool.not_eq_false] at hactive
  obtain ⟨y, hy, hcovered⟩ := henrolled.covered (q.id, raw) hraw hactive
  rw [hx] at hy
  cases hy
  rcases hcovered with hin | heq
  · -- a listed job that has not ended makes the schedule busy
    have hmember : raw ∈ activeIds schedule := by
      rw [activeIds, List.mem_dedup]
      exact List.mem_append_left _ hin
    have hbusy : busy s schedule c = true := by
      rw [busy, Bool.or_eq_true, List.any_eq_true]
      exact .inl ⟨raw, hmember, by rw [hactive, Bool.or_true]⟩
    rw [hidle] at hbusy
    cases hbusy
  · -- the job of the occurrence itself was not there
    have hnone := hjob.1
    rw [hdue] at heq
    rw [show (q.derived occurrenceId).raw = raw from heq.symm] at hnone
    rw [hnone] at hactive
    cases hactive

end

/-- A generation that starts on the log of the one before is such a successor, when the log replays
to what the engine has. -/
theorem succeeds_of_agrees {c₀ : Candidate} {r : Reader.State} {config : Config}
    {recovered : Reader.Recovered} {segment : SegmentView} (hagrees : Agrees c₀ s r)
    (hlog : recovered.candidate = r.candidate)
    (hstarts : Starts vm (countInterrupted (init config recovered segment)))
    (hmembers : ∀ (id : Binary) (x y : Schedule), s.schedules[id]? = some x →
      recovered.candidate.schedules[id]? = some y → y.activeJobIds ⊆ x.activeJobIds) :
    Succeeds vm s (countInterrupted (init config recovered segment)) := by
  refine ⟨hstarts, ⟨?_, hmembers⟩, fun id hactive ↦ ?_⟩
  · have hsame := hagrees.schedules
    rw [← hlog] at hsame
    exact hsame
  · have hlookup : lookup (countInterrupted (init config recovered segment)) id =
        r.candidate.jobs[id]? := by
      rw [← hlog]
      simp only [lookup, countInterrupted, init, Std.ExtTreeMap.getElem?_filter']
      cases recovered.candidate.jobs[id]? with
      | none => rfl
      | some job => cases hterminal : job.state.terminal <;> simp [hterminal]
    rw [hlookup] at hactive
    by_cases hin : id ∈ s.volatileIds
    · rw [hagrees.volatileJobs id hin] at hactive
      cases hactive
    · have hjob := hagrees.jobs id hin
      refine ⟨hin, ?_⟩
      rw [← active?_durable, ← hjob, active?_durable]
      exact hactive

/-! ## Examples -/

namespace Sample

/-- The bytes of a schedule's id as one number. -/
def code : Binary → ℕ
  | [] => 0
  | b :: bs => 1 + b.toNat + 257 * code bs

def occurrence (id : Binary) (n : ℕ) : JobId := Nat.pair (code id) n

def skipping : ScheduleDefinition := { Tay.Sample.scheduleDefinition with overlap := .skip }

def declaration : Declared := ⟨text "s", skipping, 0, 12, 20, none, none, none⟩

/-- The same schedule with another interval. -/
def redeclaration : Declared :=
  ⟨text "s", { skipping with trigger := .every 2000 }, 0, 30, 40, none, none, none⟩

/-- A command that is answered by a writer where the engine expects it. -/
def turned (s : State) (l : Occasion) : State :=
  ((scheduling Tay.Sample.runtime occurrence).step s l).getD s

def occurrenceOf (d : Declared) (dueAt nextAt : ℕ) : Delivery :=
  ⟨d.id, d.definition, dueAt, nextAt, dueAt + 5, 0, Tay.Sample.definition, [], none⟩

/-- The state between the two commits of a delivery. -/
def between (s : State) (d : Declared) (dueAt : ℕ) : State :=
  after s (.command (.insert ⟨occurrence d.id dueAt, 0, dueAt + 5,
    .inserted Tay.Sample.definition (dueAt + 5)⟩ .persistent) (writer s))

/-- A delivery; the shared memory counter has room for the second commit or not. -/
def deliver (s : State) (d : Declared) (dueAt nextAt : ℕ) (room : Bool) : Occasion :=
  .schedule (.deliver (occurrenceOf d dueAt nextAt)
    ⟨true, ∅, [], .persistent, dueAt + 5, none, writer s,
      { writer (between s d dueAt) with admits := fun _ ↦ room }⟩)

def register (s : State) (d : Declared) : Occasion := .schedule (.register d (writer s))

/-- The engine once the schedule is registered, and after its first delivery. -/
def declared : State := turned empty (register empty declaration)

def delivered : State := turned declared (deliver declared declaration 20 1020 true)

/-- The job of the first occurrence is cancelled. -/
def cancellation : Occasion :=
  .message (.command (.change ⟨occurrence (text "s") 20, 1, 26, .cancelled none⟩) (writer delivered))

def cancelled : State := turned delivered cancellation

/-- The first delivery again, with no room for its second commit. -/
def halfway : State := turned declared (deliver declared declaration 20 1020 false)

def redeclared : State := turned halfway (register halfway redeclaration)

end Sample

theorem code_injective : ∀ {a b : Binary}, Sample.code a = Sample.code b → a = b := by
  intro a
  induction a with
  | nil =>
    intro b h
    cases b with
    | nil => rfl
    | cons y bs => simp only [Sample.code] at h; omega
  | cons x as ih =>
    intro b h
    cases b with
    | nil => simp only [Sample.code] at h; omega
    | cons y bs =>
      have hx := x.toNat_lt
      have hy := y.toNat_lt
      simp only [Sample.code] at h
      have hhead : x.toNat = y.toNat := by omega
      have htail : Sample.code as = Sample.code bs := by omega
      rw [ih htail, UInt8.toNat_inj.mp hhead]

theorem occurrence_apart (id id' : Binary) (n n' : ℕ)
    (h : Sample.occurrence id n = Sample.occurrence id' n') : id = id' :=
  code_injective (Nat.pair_eq_pair.mp h).1

variable (vm) in
/-- No message of a sequence brings an epoch. -/
def unswitched : State → List Action → Bool
  | _, [] => true
  | s, a :: as =>
    (adoption vm s a).isNone && (handle vm s a).toOption.all fun t ↦ unswitched t as

theorem recallsAll_of_unswitched {as : List Action} :
    ∀ {s : State}, unswitched vm s as = true → RecallsAll vm s as := by
  induction as with
  | nil =>
    intro s _
    trivial
  | cons a as ih =>
    intro s h
    rw [unswitched, Bool.and_eq_true, Option.isNone_iff_eq_none] at h
    refine ⟨fun x hx ↦ ?_, fun t ht ↦ ih ?_⟩
    · rw [h.1] at hx
      cases hx
    · have hall := h.2
      rw [ht] at hall
      exact hall

variable (vm occurrenceId) in
/-- A turn without an epoch, a new generation or a retry. -/
def plain (s : State) : Occasion → Bool
  | .schedule k => (k.execute vm occurrenceId s).all fun x ↦ unswitched vm s x.actions
  | .message a => (adoption vm s a).isNone && !revives s a
  | .restart _ => false

theorem regular_of_plain {l : Occasion} (h : plain vm occurrenceId s l = true) :
    Regular vm occurrenceId s l := by
  cases l with
  | schedule k =>
    intro x hx
    simp only [plain, hx, Option.all_some] at h
    exact recallsAll_of_unswitched h
  | message a =>
    simp only [plain, Bool.and_eq_true, Option.isNone_iff_eq_none, Bool.not_eq_true'] at h
    refine ⟨fun x hx ↦ ?_, h.2⟩
    rw [h.1] at hx
    cases hx
  | restart t => cases h

variable (occurrenceId) in
/-- The schedule command of a turn, if it strands a job. -/
def stranding (s : State) : Occasion → Bool
  | .schedule k => strands occurrenceId s k
  | _ => false

theorem tied_of_plain {l : Occasion} (h : plain vm occurrenceId s l = true)
    (hstranding : stranding occurrenceId s l = false) : Tied vm occurrenceId s l := by
  refine ⟨regular_of_plain h, fun k hk ↦ ?_⟩
  subst hk
  exact hstranding

/-- A fresh store has no schedules. -/
theorem delivering_fresh :
    (delivering Tay.Sample.runtime Sample.occurrence).initial (Sample.empty, []) := by
  have hnone : Sample.empty.schedules = ∅ := by decide +kernel
  refine ⟨⟨Coordinator.starts_empty, fun id x hx ↦ ?_⟩, by decide +kernel⟩
  rw [hnone] at hx
  cases hx

/-- The second occurrence is delivered once the job of the first has ended. -/
theorem overlap_excluded_ended :
    ∃ (s t : State) (g : List (Binary × JobId)) (q : Delivery) (c : Conditions),
      (delivering Tay.Sample.runtime Sample.occurrence).ReachableUnder
        (fun y l ↦ Tied Tay.Sample.runtime Sample.occurrence y.1 l) (s, g) ∧
      (scheduling Tay.Sample.runtime Sample.occurrence).step s (.schedule (.deliver q c)) = some t ∧
      insertion Sample.occurrence s (.schedule (.deliver q c)) t ≠ [] ∧
      (q.id, Sample.occurrence (text "s") 20) ∈ g ∧
      active? (lookup s (Sample.occurrence (text "s") 20)) = false := by
  have heval : (((delivering Tay.Sample.runtime Sample.occurrence).under fun y l ↦
        plain Tay.Sample.runtime Sample.occurrence y.1 l = true ∧
          stranding Sample.occurrence y.1 l = false).run (Sample.empty, [])
      [Sample.register Sample.empty Sample.declaration,
        Sample.deliver Sample.declared Sample.declaration 20 1020 true,
        Sample.cancellation]).any (fun y ↦
        decide ((text "s", Sample.occurrence (text "s") 20) ∈ y.2) &&
          (y.1.schedules[text "s"]?).any (fun x ↦ x.definition.overlap != .allow) &&
          ((scheduling Tay.Sample.runtime Sample.occurrence).step y.1
            (Sample.deliver Sample.cancelled Sample.declaration 1020 2020 true)).any fun t ↦
              !(insertion Sample.occurrence y.1
                (Sample.deliver Sample.cancelled Sample.declaration 1020 2020 true) t).isEmpty) =
      true := by
    decide +kernel
  obtain ⟨⟨s, g⟩, hrun, hy⟩ := (Option.any_eq_true _ _).mp heval
  simp only [Bool.and_eq_true, decide_eq_true_eq] at hy
  obtain ⟨⟨hmem, hpolicy⟩, hstep⟩ := hy
  obtain ⟨x, hx, hpolicy⟩ := (Option.any_eq_true _ _).mp hpolicy
  obtain ⟨t, ht, hinserted⟩ := (Option.any_eq_true _ _).mp hstep
  have hinsertion : insertion Sample.occurrence s
      (Sample.deliver Sample.cancelled Sample.declaration 1020 2020 true) t ≠ [] := by
    intro hempty
    rw [hempty] at hinserted
    cases hinserted
  have hreachable : (delivering Tay.Sample.runtime Sample.occurrence).ReachableUnder
      (fun y l ↦ Tied Tay.Sample.runtime Sample.occurrence y.1 l) (s, g) :=
    (Machine.reachableUnder_of_run (.initial delivering_fresh) hrun).mono fun _ _ hok ↦
      tied_of_plain hok.1 hok.2
  exact ⟨s, t, g, _, _, hreachable, ht, hinsertion, hmem,
    overlap_excluded occurrence_apart hreachable ht hinsertion hx (by simpa using hpolicy) _ hmem⟩

/-- A delivery whose second commit is refused, and a new declaration of the schedule: the next
delivery inserts a job while the first one has not ended, whatever the schedule's policy says. -/
theorem overlap_excluded_stranded :
    ∃ (s t : State) (g : List (Binary × JobId)) (q : Delivery) (c : Conditions) (x : Schedule),
      (delivering Tay.Sample.runtime Sample.occurrence).ReachableUnder
        (fun y l ↦ Regular Tay.Sample.runtime Sample.occurrence y.1 l) (s, g) ∧
      (scheduling Tay.Sample.runtime Sample.occurrence).step s (.schedule (.deliver q c)) = some t ∧
      insertion Sample.occurrence s (.schedule (.deliver q c)) t ≠ [] ∧
      s.schedules[q.id]? = some x ∧ x.membershipComplete = true ∧ x.definition.overlap = .skip ∧
      (q.id, Sample.occurrence (text "s") 20) ∈ g ∧
      active? (lookup s (Sample.occurrence (text "s") 20)) = true := by
  have heval : (((delivering Tay.Sample.runtime Sample.occurrence).under fun y l ↦
        plain Tay.Sample.runtime Sample.occurrence y.1 l = true).run (Sample.empty, [])
      [Sample.register Sample.empty Sample.declaration,
        Sample.deliver Sample.declared Sample.declaration 20 1020 false,
        Sample.register Sample.halfway Sample.redeclaration]).any (fun y ↦
        decide ((text "s", Sample.occurrence (text "s") 20) ∈ y.2) &&
          active? (lookup y.1 (Sample.occurrence (text "s") 20)) &&
          (y.1.schedules[text "s"]?).any (fun x ↦
            x.membershipComplete && x.definition.overlap == .skip) &&
          ((scheduling Tay.Sample.runtime Sample.occurrence).step y.1
            (Sample.deliver Sample.redeclared Sample.redeclaration 40 2040 true)).any fun t ↦
              !(insertion Sample.occurrence y.1
                (Sample.deliver Sample.redeclared Sample.redeclaration 40 2040 true) t).isEmpty) =
      true := by
    decide +kernel
  obtain ⟨⟨s, g⟩, hrun, hy⟩ := (Option.any_eq_true _ _).mp heval
  simp only [Bool.and_eq_true, decide_eq_true_eq] at hy
  obtain ⟨⟨⟨hmem, hactive⟩, hstored⟩, hstep⟩ := hy
  obtain ⟨x, hx, hstored⟩ := (Option.any_eq_true _ _).mp hstored
  rw [Bool.and_eq_true, beq_iff_eq] at hstored
  obtain ⟨t, ht, hinserted⟩ := (Option.any_eq_true _ _).mp hstep
  have hinsertion : insertion Sample.occurrence s
      (Sample.deliver Sample.redeclared Sample.redeclaration 40 2040 true) t ≠ [] := by
    intro hempty
    rw [hempty] at hinserted
    cases hinserted
  have hreachable : (delivering Tay.Sample.runtime Sample.occurrence).ReachableUnder
      (fun y l ↦ Regular Tay.Sample.runtime Sample.occurrence y.1 l) (s, g) :=
    (Machine.reachableUnder_of_run (.initial delivering_fresh) hrun).mono fun _ _ hok ↦
      regular_of_plain hok
  exact ⟨s, t, g, _, _, x, hreachable, ht, hinsertion, hx, hstored.1, hstored.2, hmem, hactive⟩

end Tay.Engine
