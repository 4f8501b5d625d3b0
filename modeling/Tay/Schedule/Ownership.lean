import Tay.Schedule.Overlap

/-!
# The owners of scheduled jobs

The engine keeps, beside its schedules, the schedule each listed job belongs to. A commit on a schedule
takes the owners of its former members out and puts those of its new members in; an adopted epoch brings
schedules of its own, and the owners are read off them anew. That the map is the one that would be read
off the current schedules rests on one fact: no job is listed by two schedules, since the id of a listed
job is derived from the schedule.

So the invariant of the members is carried along runs with no deliveries to account for, and an epoch, or
the store a generation starts from, has to list for each schedule jobs of that schedule only.
-/

open Foundation

namespace Tay.Engine

open V2 ProjectionState OnlineCheckpoint

/-! ## Schedules that list their own jobs -/

/-- Every schedule lists, under its id, jobs that are derived from it. -/
def Attributed (occurrenceId : Binary → ℕ → JobId) (schedules : Table Binary Schedule) : Prop :=
  ∀ (id : Binary) (x : Schedule), schedules[id]? = some x →
    x.id = id ∧ ∀ raw ∈ x.activeJobIds ++ x.activeJobId.toList, ∃ n, raw = occurrenceId id n

variable (vm : Runtime) (occurrenceId : Binary → ℕ → JobId)

/-- The epochs that a message makes the engine adopt list jobs so. -/
def Attributes (s : State) (a : Action) : Prop :=
  ∀ x ∈ adoption vm s a, Attributed occurrenceId x.1.recovered.candidate.schedules

/-- Every message of a sequence, where it is handled. -/
def AttributesAll (s : State) (as : List Action) : Prop :=
  ∀ before a after t, as = before ++ a :: after → (machine vm).run s before = some t →
    Attributes vm occurrenceId t a

/-- And so does the store a generation starts from. -/
def Attributing (s : State) : Occasion → Prop
  | .schedule k => ∀ x, k.execute vm occurrenceId s = some x → AttributesAll vm occurrenceId s x.actions
  | .message a => Attributes vm occurrenceId s a
  | .restart t => (scheduling vm occurrenceId).initial t

variable {vm} {occurrenceId} {s t : State} {env : Environment}

theorem AttributesAll.head {a : Action} {as : List Action}
    (h : AttributesAll vm occurrenceId s (a :: as)) : Attributes vm occurrenceId s a :=
  h [] a as s rfl rfl

theorem AttributesAll.left {as bs : List Action} (h : AttributesAll vm occurrenceId s (as ++ bs)) :
    AttributesAll vm occurrenceId s as := by
  intro before a after u has hrun
  exact h before a (after ++ bs) u (by rw [has, List.append_assoc, List.cons_append]) hrun

theorem AttributesAll.right {as bs : List Action} (h : AttributesAll vm occurrenceId s (as ++ bs))
    (hrun : (machine vm).run s as = some t) : AttributesAll vm occurrenceId t bs := by
  intro before a after u hbs hbefore
  exact h (as ++ before) a after u (by rw [hbs, List.append_assoc])
    (Machine.run_append hrun hbefore)

theorem Enrolled.attributed {g : List (Binary × JobId)} (h : Enrolled occurrenceId g s) :
    Attributed occurrenceId s.schedules :=
  fun id x hx ↦ ⟨h.keyed id x hx, h.derived id x hx⟩

/-- An epoch with the engine's schedules lists what they list. -/
theorem Recalled.attributed {schedules : Table Binary Schedule} (h : Recalled s schedules)
    (hs : Attributed occurrenceId s.schedules) : Attributed occurrenceId schedules := by
  intro id y hy
  obtain ⟨x, hx, hyx, hsubset, -⟩ := h.get hy
  obtain ⟨hid, hderived⟩ := hs id x hx
  refine ⟨by rw [hyx]; exact hid, fun raw hraw ↦ hderived raw ?_⟩
  rcases List.mem_append.mp hraw with hin | hin
  · exact List.mem_append_left _ (hsubset hin)
  · rw [hyx] at hin
    exact List.mem_append_right _ hin

section

variable (hapart : ∀ id id' n n', occurrenceId id n = occurrenceId id' n' → id = id')
include hapart

/-- The owners of such schedules are the converse of their members. -/
theorem Attributed.owned {schedules : Table Binary Schedule} (h : Attributed occurrenceId schedules)
    (raw : JobId) (id : Binary) : (Auxiliary.owners schedules)[raw]? = some id ↔
      ∃ x, schedules[id]? = some x ∧ raw ∈ x.activeJobIds := by
  refine owners_get fun id' x hx hraw id y hy hraw' ↦ ?_
  obtain ⟨n, hn⟩ := (h id' x hx).2 raw (List.mem_append_left _ hraw)
  obtain ⟨m, hm⟩ := (h id y hy).2 raw (List.mem_append_left _ hraw')
  exact hapart id' id n m (hn.symm.trans hm)

/-- Where the owners are read off, nothing else is needed. -/
theorem Attributed.enrolled (h : Attributed occurrenceId t.schedules) (hplaced : Placed t)
    (howners : t.scheduleOwners = Auxiliary.owners t.schedules) : Enrolled occurrenceId [] t := by
  refine ⟨hplaced, fun id x hx ↦ (h id x hx).1, fun id x hx ↦ (h id x hx).2, fun raw id ↦ ?_,
    fun p hp ↦ by cases hp⟩
  rw [howners]
  exact h.owned hapart raw id

/-- **An epoch is adopted.** The members it gets from the engine are put back to their owners. -/
theorem Enrolled.adopts (h : Enrolled occurrenceId [] s) {stats : Stats} {retention : Retention}
    {admits : ℤ → Bool} (hattributed : Attributed occurrenceId stats.recovered.candidate.schedules)
    (ht : adopt vm s stats retention admits = .ok t) : Enrolled occurrenceId [] t := by
  obtain ⟨purged, -, -, hpurged, hschedules, howners⟩ := adopt_schedules ht
  refine Attributed.enrolled hapart (fun id z hz ↦ ?_) (h.placed.adopted ht).1 howners
  rw [hschedules] at hz
  obtain ⟨y, hy, hzy, hmembers⟩ := retain_get purged hz
  obtain ⟨hid, hderived⟩ := hattributed id y hy
  refine ⟨by rw [hzy]; exact hid, fun raw hraw ↦ ?_⟩
  rcases List.mem_append.mp hraw with hin | hin
  · rcases (hmembers raw).mp hin with hin | ⟨howner, -⟩
    · exact hderived raw (List.mem_append_left _ hin)
    · rw [hpurged] at howner
      obtain ⟨x, hx, hin⟩ := (h.owned raw id).mp howner
      exact h.derived id x hx raw (List.mem_append_left _ hin)
  · rw [hzy] at hin
    exact hderived raw (List.mem_append_right _ hin)

theorem Enrolled.lands (h : Enrolled occurrenceId [] s) {adoption : Option (Stats × Retention)}
    {base : State} (hattributes : ∀ x ∈ adoption, Attributed occurrenceId x.1.recovered.candidate.schedules)
    (hbase : Settles vm s adoption base) : Enrolled occurrenceId [] base := by
  cases hbase with
  | stay => exact h
  | adopt hadopted =>
    have hnext := h.adopts hapart (hattributes _ rfl) hadopted
    exact hnext.congr (hnext.placed.congr rfl rfl rfl) rfl rfl fun p hp ↦ by cases hp

/-! ## Steps -/

/-- **A commit on a job, or a message of a compaction.** -/
theorem Enrolled.foreign (h : Enrolled occurrenceId [] s) {a : Action}
    (hforeign : Coordinator.foreign a = true) (hattributes : Attributes vm occurrenceId s a)
    (ht : Engine.handle vm s a = .ok t) : Enrolled occurrenceId [] t := by
  obtain ⟨base, hbase, hschedules, howners⟩ := handle_settled hforeign ht
  have hplaced : Placed t := by
    rcases handle_placed h.placed ht with ⟨job, -, hmoves⟩ | ⟨-, hquiet⟩
    · exact hmoves.placed
    · exact hquiet.placed
  exact (h.lands hapart hattributes hbase).congr hplaced hschedules howners fun p hp ↦ by cases hp

/-- **A schedule restated**, with members of its own. -/
theorem Enrolled.commits (h : Enrolled occurrenceId [] s) {id : Binary} {revision timestamp : ℕ}
    {schedule : Schedule} {x : Executed}
    (hx : Engine.auxiliaryCommit vm s (scheduleStateEvent id revision timestamp schedule) id env = some x)
    (hattributes : AttributesAll vm occurrenceId s x.actions)
    (hderived : ∀ raw ∈ schedule.activeJobIds ++ schedule.activeJobId.toList,
      ∃ n, raw = occurrenceId id n) : Enrolled occurrenceId [] x.state := by
  rcases auxiliaryCommit_cases hx with ⟨r, rfl⟩ | ⟨out, stored, hperform, -, rfl⟩
  · exact h
  · exact h.restates hapart (fun _ hbase ↦ h.lands hapart hattributes.head hbase) hperform hderived
      fun p hp ↦ by cases hp

/-- **A schedule moved on**, with the job of its occurrence. -/
theorem Enrolled.advances (h : Enrolled occurrenceId [] s) {q : Delivery} {schedule : Schedule}
    {activeId : Option JobId} {x : Executed} (hschedule : s.schedules[q.id]? = some schedule)
    (hx : Engine.deliverAdvance vm s schedule q activeId env = some x)
    (hattributes : AttributesAll vm occurrenceId s x.actions)
    (hderived : ∀ raw ∈ activeId.toList, ∃ n, raw = occurrenceId q.id n) :
    Enrolled occurrenceId [] x.state := by
  have hid : schedule.id = q.id := h.keyed q.id schedule hschedule
  rw [Engine.deliverAdvance, hid] at hx
  rcases auxiliaryCommit_cases hx with ⟨r, rfl⟩ | ⟨out, stored, hperform, -, rfl⟩
  · exact h
  · exact h.delivers hapart (fun _ hbase ↦ h.lands hapart hattributes.head hbase) hperform hderived
      fun p hp ↦ by cases hp

/-- **A delivery.** -/
theorem Enrolled.delivery (h : Enrolled occurrenceId [] s) {q : Delivery} {c : Conditions}
    {x : Executed} (hraw : q.raw = occurrenceId q.id q.dueAt)
    (hx : Engine.deliverSchedule vm s q c = some x)
    (hattributes : AttributesAll vm occurrenceId s x.actions) : Enrolled occurrenceId [] x.state := by
  have hderived : ∀ raw ∈ (some q.raw).toList, ∃ n, raw = occurrenceId q.id n := by
    intro raw hin
    exact ⟨q.dueAt, (List.mem_singleton.mp hin).trans hraw⟩
  cases deliverSchedule_delivers hx with
  | refused hx =>
    subst hx
    exact h
  | passed _ _ _ hx =>
    subst hx
    exact h
  | @skipped schedule hschedule _ _ _ _ _ hadvance =>
    exact h.advances hapart hschedule hadvance hattributes fun raw hin ↦
      h.derived q.id schedule hschedule raw (List.mem_append_right _ hin)
  | @inserted schedule next u actions y _ _ _ _ hinsert hnext hadvance hx =>
    subst hx
    have hlater := hattributes.right (insertOccurrence_run hinsert)
    have hu : Enrolled occurrenceId [] u := by
      rcases insertOccurrence_cases hinsert with ⟨_, heq⟩ | ⟨_, -, -, heq⟩ | ⟨mode, out, -, hperform, heq⟩
      · cases heq
      · cases heq
        exact h
      · cases heq
        refine h.foreign hapart rfl hattributes.left.head (?_ : Engine.handle vm s _ = .ok out.1)
        rw [Engine.handle, hperform]
        rfl
    have hadvanced := hu.advances hapart hnext hadvance hlater hderived
    exact hadvanced

/-- Registrations, cancellations and advances by hand keep the members of the schedule. -/
theorem Enrolled.executes (h : Enrolled occurrenceId [] s) {k : ScheduleCommand} {x : Executed}
    (hx : k.execute vm occurrenceId s = some x)
    (hattributes : AttributesAll vm occurrenceId s x.actions) : Enrolled occurrenceId [] x.state := by
  cases k with
  | register d env =>
    simp only [ScheduleCommand.execute, Engine.registerSchedule] at hx
    split at hx
    case isTrue =>
      cases hx
      exact h
    case isFalse =>
      split at hx
      case h_1 =>
        cases hx
        exact h
      case h_2 =>
        refine h.commits hapart hx hattributes fun raw hraw ↦ ?_
        cases hprevious : s.schedules[d.id]? with
        | none =>
          rw [hprevious] at hraw
          simp [registered] at hraw
        | some y =>
          rw [hprevious] at hraw
          exact h.derived d.id y hprevious raw hraw
  | cancel id revision timestamp env =>
    simp only [ScheduleCommand.execute, Engine.cancelSchedule] at hx
    split at hx
    case h_1 =>
      cases hx
      exact h
    case h_2 y hy =>
      split at hx
      case isTrue =>
        cases hx
        exact h
      case isFalse =>
        split at hx
        case isFalse =>
          cases hx
          exact h
        case isTrue => exact h.commits hapart hx hattributes (h.derived id y hy)
  | advance id revision dueAt nextAt timestamp env =>
    simp only [ScheduleCommand.execute, Engine.advanceSchedule] at hx
    split at hx
    case h_1 =>
      cases hx
      exact h
    case h_2 y hy =>
      split at hx
      case isFalse =>
        cases hx
        exact h
      case isTrue => exact h.commits hapart hx hattributes (h.derived id y hy)
  | deliver q c => exact h.delivery hapart rfl hx hattributes

/-! ## Runs -/

theorem enrolled_starts (h : (scheduling vm occurrenceId).initial s) : Enrolled occurrenceId [] s := by
  obtain ⟨hstarts, hderived⟩ := h
  refine Attributed.enrolled hapart (fun id x hx ↦ ⟨?_, hderived id x hx⟩)
    (Coordinator.placed_of_starts hstarts) (owners_of_starts hstarts)
  exact Coordinator.keyed_of_starts hstarts id _ (decls_of_some hx)

/-- **The step lemma.** -/
theorem enrolled_next {l : Occasion} (h : Enrolled occurrenceId [] s)
    (hattributing : Attributing vm occurrenceId s l) (ht : (scheduling vm occurrenceId).step s l = some t) :
    Enrolled occurrenceId [] t := by
  cases l with
  | schedule k =>
    obtain ⟨x, hx, rfl⟩ := Option.map_eq_some_iff.mp ht
    exact h.executes hapart hx (hattributing x hx)
  | message a =>
    simp only [scheduling] at ht
    split at ht
    case isFalse => cases ht
    case isTrue hforeign => exact h.foreign hapart hforeign hattributing (toOption_eq_some.mp ht)
  | restart t =>
    cases ht
    exact enrolled_starts hapart hattributing

/-- **The owners are exact.** In every run of commands on schedules, commits on jobs, adopted epochs and
new generations, the map of the owners is the one read off the current schedules. -/
theorem owners_exact (hs : (scheduling vm occurrenceId).ReachableUnder (Attributing vm occurrenceId) s) :
    s.scheduleOwners = Auxiliary.owners s.schedules := by
  have henrolled : Enrolled occurrenceId [] s :=
    Machine.ReachableUnder.invariant (I := fun s ↦ Enrolled occurrenceId [] s)
      (fun _ h ↦ enrolled_starts hapart h) (fun _ _ _ h hok hstep ↦ enrolled_next hapart h hok hstep) hs
  refine Std.ExtTreeMap.ext_getElem? fun raw ↦ Option.ext fun id ↦ ?_
  exact (henrolled.owned raw id).trans (henrolled.attributed.owned hapart raw id).symm

end

/-! ## A run -/

theorem attributesAll_of_unswitched {as : List Action} : ∀ {s : State},
    unswitched vm s as = true → AttributesAll vm occurrenceId s as := by
  induction as with
  | nil =>
    intro s _ before a after t has
    simp at has
  | cons a as ih =>
    intro s h before b after t has hrun
    rw [unswitched, Bool.and_eq_true, Option.isNone_iff_eq_none] at h
    cases before with
    | nil =>
      cases has
      cases hrun
      intro x hx
      rw [h.1] at hx
      cases hx
    | cons c before =>
      cases has
      rw [Machine.run_cons, Option.bind_eq_some_iff] at hrun
      obtain ⟨u, hu, hrun⟩ := hrun
      have hrest : (handle vm s a).toOption.all (fun t ↦ unswitched vm t (before ++ b :: after)) = true :=
        h.2
      rw [show (handle vm s a).toOption = some u from hu] at hrest
      exact ih hrest before b after t rfl hrun

theorem attributing_of_plain {l : Occasion} (h : plain vm occurrenceId s l = true) :
    Attributing vm occurrenceId s l := by
  cases l with
  | schedule k =>
    intro x hx
    simp only [plain, hx, Option.all_some] at h
    exact attributesAll_of_unswitched h
  | message a =>
    simp only [plain, Bool.and_eq_true, Option.isNone_iff_eq_none] at h
    intro x hx
    rw [h.1] at hx
    cases hx
  | restart t => cases h

/-- A schedule is registered and delivers a job. -/
theorem owners_exact_delivered : ∃ s,
    (scheduling Tay.Sample.runtime Sample.occurrence).ReachableUnder
      (Attributing Tay.Sample.runtime Sample.occurrence) s ∧
    s.scheduleOwners[Sample.occurrence (text "s") 20]? = some (text "s") ∧
    s.scheduleOwners = Auxiliary.owners s.schedules := by
  have heval : (((scheduling Tay.Sample.runtime Sample.occurrence).under fun s l ↦
        plain Tay.Sample.runtime Sample.occurrence s l = true).run Sample.empty
      [Sample.register Sample.empty Sample.declaration,
        Sample.deliver Sample.declared Sample.declaration 20 1020 true]).any (fun s ↦
        decide (s.scheduleOwners[Sample.occurrence (text "s") 20]? = some (text "s"))) = true := by
    decide +kernel
  obtain ⟨s, hrun, hs⟩ := (Option.any_eq_true _ _).mp heval
  have hreachable : (scheduling Tay.Sample.runtime Sample.occurrence).ReachableUnder
      (Attributing Tay.Sample.runtime Sample.occurrence) s :=
    (Machine.reachableUnder_of_run (.initial delivering_fresh.1) hrun).mono fun _ _ hok ↦
      attributing_of_plain hok
  exact ⟨s, hreachable, of_decide_eq_true hs, owners_exact occurrence_apart hreachable⟩

end Tay.Engine
