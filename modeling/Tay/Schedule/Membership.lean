import Tay.Schedule.Coordinator
import Tay.Storage.Credible

/-!
# Who belongs to a schedule

A schedule lists the jobs it has delivered that are still running, and the engine keeps the converse,
the schedule each of them belongs to. The list is what an overlap policy asks about, so a job that was
delivered and has not ended has to be on it, or has to be the job of the occurrence the schedule is
still at.

`Enrolled` says so for a given list of deliveries. It is kept by an adopted epoch that recalls the
engine's schedules (`Recalled`), by commits on jobs, and by every rewriting of one schedule that keeps
its running members (`Enrolled.store`). The ids of the jobs are derived from the schedule and the
time, which is what makes the converse a function.
-/

open Foundation

namespace Tay

open V2

namespace Engine

open ProjectionState OnlineCheckpoint

/-! ## The invariant -/

/-- What is known about the schedules of a state, after the deliveries `g` of a job to a schedule. -/
structure Enrolled (occurrenceId : Binary → ℕ → JobId) (g : List (Binary × JobId)) (s : State) :
    Prop where
  placed : Placed s
  keyed : Keyed Schedule.id s.schedules
  derived : ∀ (id : Binary) (x : Schedule), s.schedules[id]? = some x →
    ∀ raw ∈ x.activeJobIds ++ x.activeJobId.toList, ∃ n, raw = occurrenceId id n
  owned : ∀ (raw : JobId) (id : Binary), s.scheduleOwners[raw]? = some id ↔
    ∃ x, s.schedules[id]? = some x ∧ raw ∈ x.activeJobIds
  covered : ∀ p ∈ g, active? (lookup s p.2) = true → ∃ x, s.schedules[p.1]? = some x ∧
    (p.2 ∈ x.activeJobIds ∨ p.2 = occurrenceId p.1 x.nextAt)

/-- Schedules that are those of the engine: they differ in volatile members at most, and list no
member the engine does not. -/
structure Recalled (s : State) (schedules : Table Binary Schedule) : Prop where
  same : Auxiliary.SameOutside s.volatileIds s.schedules schedules
  members : ∀ (id : Binary) (x y : Schedule), s.schedules[id]? = some x →
    schedules[id]? = some y → y.activeJobIds ⊆ x.activeJobIds

/-- An epoch that was published from a log with the engine's schedules has them too. -/
theorem recalled_of_publishOnline {vm : Runtime} {s : State} {q : Publisher.Request}
    {d : Directory} {frontier exclude : ℕ} {r : Reader.Recovered} {p : Publisher.Published}
    (hr : Reader.recover vm d (candidate q.limits q.valueLimits) = .ok r)
    (hlive : ∀ x ∈ Publisher.accepted d exclude, x.live = true)
    (hp : Publisher.publishOnline vm q d frontier exclude (Publisher.accepted d exclude) = .ok p)
    (hlog : Recalled s r.candidate.schedules) : Recalled s p.recovered.candidate.schedules := by
  obtain ⟨-, f, -, hpreserves⟩ := Publisher.publishOnline_preserves hr hlive hp
  rw [hpreserves.schedules]
  exact hlog

/-- Apart from its members, a recalled schedule is the engine's. -/
theorem Recalled.get {s : State} {schedules : Table Binary Schedule} (h : Recalled s schedules)
    {id : Binary} {y : Schedule} (hy : schedules[id]? = some y) :
    ∃ x, s.schedules[id]? = some x ∧ y = { x with activeJobIds := y.activeJobIds } ∧
      y.activeJobIds ⊆ x.activeJobIds ∧
      ∀ raw ∈ x.activeJobIds, raw ∉ s.volatileIds → raw ∈ y.activeJobIds := by
  cases hx : s.schedules[id]? with
  | none =>
    rw [h.same.get_none hx] at hy
    cases hy
  | some x =>
    obtain ⟨l, hl, hfilter⟩ := h.same.get hx
    have hmembers := h.members id x y hx hy
    rw [hl] at hy
    cases hy
    refine ⟨x, rfl, rfl, hmembers, fun raw hraw hout ↦ ?_⟩
    have hin : raw ∈ x.activeJobIds.filter (· ∉ s.volatileIds) :=
      List.mem_filter.mpr ⟨hraw, by simpa using hout⟩
    rw [← hfilter] at hin
    exact (List.mem_filter.mp hin).1

/-- So it declares what the engine's does. -/
theorem Recalled.decls {s : State} {schedules : Table Binary Schedule} (h : Recalled s schedules)
    (id : Binary) : (schedules[id]?).map decl = decls s id := by
  rw [Engine.decls]
  cases hx : s.schedules[id]? with
  | none => rw [h.same.get_none hx]
  | some x =>
    obtain ⟨l, hl, -⟩ := h.same.get hx
    rw [hl]
    rfl

/-! ## Owners -/

section Owners

variable {schedules : Table Binary Schedule} {raw : JobId} {id : Binary}

/-- Every member of the listed schedules gets its owner. -/
theorem foldl_owners (l : List (Binary × Schedule)) : ∀ acc : Table JobId Binary,
    (∀ p ∈ l, raw ∈ p.2.activeJobIds → p.1 = id) →
    ((l.foldl (fun acc p ↦ p.2.activeJobIds.foldl (fun acc raw ↦ acc.insert raw p.1) acc) acc)[raw]? =
        some id ↔
      (∃ p ∈ l, raw ∈ p.2.activeJobIds) ∨ acc[raw]? = some id) := by
  induction l with
  | nil =>
    intro acc _
    simp
  | cons p l ih =>
    intro acc hone
    rw [List.foldl_cons, ih _ fun q hq ↦ hone q (List.mem_cons_of_mem _ hq),
      Foundation.Table.get_foldl_insert]
    by_cases hraw : raw ∈ p.2.activeJobIds
    · simp [hraw, hone p List.mem_cons_self hraw]
    · simp [hraw]

/-- Where no two schedules share a member, the owners are the converse of the members. -/
theorem owners_get
    (hone : ∀ (id' : Binary) (x : Schedule), schedules[id']? = some x → raw ∈ x.activeJobIds →
      ∀ (id : Binary) (y : Schedule), schedules[id]? = some y → raw ∈ y.activeJobIds → id' = id) :
    (Auxiliary.owners schedules)[raw]? = some id ↔
      ∃ x, schedules[id]? = some x ∧ raw ∈ x.activeJobIds := by
  rw [Auxiliary.owners, Std.ExtTreeMap.foldl_eq_foldl_toList]
  have hmem (p : Binary × Schedule) : p ∈ schedules.toList ↔ schedules[p.1]? = some p.2 :=
    Std.ExtTreeMap.mem_toList_iff_getElem?_eq_some
  constructor
  · intro h
    by_cases hany : ∃ p ∈ schedules.toList, raw ∈ p.2.activeJobIds
    · obtain ⟨p, hp, hraw⟩ := hany
      have hfound := (@foldl_owners raw p.1 schedules.toList ∅ fun q hq hq' ↦
        hone q.1 q.2 ((hmem q).mp hq) hq' p.1 p.2 ((hmem p).mp hp) hraw).mpr (.inl ⟨p, hp, hraw⟩)
      rw [h] at hfound
      cases hfound
      exact ⟨p.2, (hmem p).mp hp, hraw⟩
    · have hnone := (@foldl_owners raw id schedules.toList ∅
        fun q hq hq' ↦ absurd ⟨q, hq, hq'⟩ hany).mp h
      rcases hnone with hfound | hempty
      · exact absurd hfound hany
      · simp at hempty
  · rintro ⟨x, hx, hraw⟩
    refine (foldl_owners schedules.toList ∅ fun q hq hq' ↦
      hone q.1 q.2 ((hmem q).mp hq) hq' id x hx hraw).mpr (.inl ⟨(id, x), (hmem (id, x)).mpr hx, hraw⟩)

theorem replaceOwners_get (owners : Table JobId Binary) (previous : Option Schedule)
    (next : Schedule) : (Auxiliary.replaceOwners owners previous next)[raw]? =
      if raw ∈ next.activeJobIds then some next.id
      else if raw ∈ (previous.map Schedule.activeJobIds).getD [] then none else owners[raw]? := by
  simp only [Auxiliary.replaceOwners, Foundation.Table.get_foldl_insert,
    Foundation.Table.get_foldl_erase]
  cases previous <;> rfl

end Owners

/-- The members that are kept are those that are running. -/
theorem mem_activeMembers {jobs : Table JobId Job} {ids : List JobId} {raw : JobId} :
    raw ∈ Auxiliary.activeMembers jobs ids ↔ raw ∈ ids ∧ active? jobs[raw]? = true := by
  rw [Auxiliary.activeMembers, List.mem_insertionSort, List.mem_filter, List.mem_dedup]

/-! ## Adoption -/

/-- A volatile job that has not ended. -/
def Running (s : State) (raw : JobId) : Prop := raw ∈ s.volatileIds ∧ active? s.hot[raw]? = true

theorem mem_sortUniq {ids : List JobId} {raw : JobId} : raw ∈ sortUniq ids ↔ raw ∈ ids := by
  rw [sortUniq, List.mem_insertionSort, List.mem_dedup]

/-- The members that are put back are the volatile ones that are running. -/
theorem retain_get (s : State) {schedules : Table Binary Schedule} {id : Binary} {y : Schedule}
    (hy : (retainVolatileMemberships schedules s)[id]? = some y) :
    ∃ x, schedules[id]? = some x ∧ y = { x with activeJobIds := y.activeJobIds } ∧
      ∀ raw, raw ∈ y.activeJobIds ↔
        raw ∈ x.activeJobIds ∨ s.scheduleOwners[raw]? = some id ∧ Running s raw := by
  have hmem (raw : JobId) : s.scheduleOwners[raw]? = some id ↔
      (raw, id) ∈ s.scheduleOwners.toList := Std.ExtTreeMap.mem_toList_iff_getElem?_eq_some.symm
  simp only [hmem]
  rw [retainVolatileMemberships, Std.ExtTreeMap.foldl_eq_foldl_toList] at hy
  generalize s.scheduleOwners.toList = l at hy
  induction l generalizing schedules with
  | nil => exact ⟨y, hy, rfl, fun raw ↦ by simp⟩
  | cons p l ih =>
    obtain ⟨raw₀, id₀⟩ := p
    rw [List.foldl_cons] at hy
    obtain ⟨x, hx, hxy, hiff⟩ := ih hy
    -- an owner whose turn changes nothing is not both of this schedule and running
    have hskip (hx : schedules[id]? = some x) (hnot : id₀ = id → ¬Running s raw₀) :
        ∃ x, schedules[id]? = some x ∧ y = { x with activeJobIds := y.activeJobIds } ∧
          ∀ raw, raw ∈ y.activeJobIds ↔
            raw ∈ x.activeJobIds ∨ (raw, id) ∈ (raw₀, id₀) :: l ∧ Running s raw := by
      refine ⟨x, hx, hxy, fun raw ↦ ?_⟩
      rw [hiff raw, List.mem_cons, Prod.mk.injEq]
      constructor
      · rintro (hin | ⟨hin, hrunning⟩)
        · exact .inl hin
        · exact .inr ⟨.inr hin, hrunning⟩
      · rintro (hin | ⟨⟨rfl, rfl⟩ | hin, hrunning⟩)
        · exact .inl hin
        · exact absurd hrunning (hnot rfl)
        · exact .inr ⟨hin, hrunning⟩
    split at hx
    case h_2 hnone =>
      refine hskip hx ?_
      rintro rfl ⟨hvolatile, hactive⟩
      cases hjob : s.hot[raw₀]? with
      | none =>
        rw [hjob] at hactive
        cases hactive
      | some job => exact hnone job x (by rw [if_pos hvolatile, hjob]) hx
    case h_1 job schedule hjob hschedule =>
      have hhot : raw₀ ∈ s.volatileIds ∧ s.hot[raw₀]? = some job := by
        split at hjob
        case isTrue hvolatile => exact ⟨hvolatile, hjob⟩
        case isFalse => cases hjob
      split at hx
      case isTrue hterminal =>
        refine hskip hx ?_
        rintro rfl ⟨-, hactive⟩
        rw [hhot.2, active?, hterminal] at hactive
        cases hactive
      case isFalse hactive =>
        rw [Foundation.Table.get_insert] at hx
        split at hx
        case isFalse hne => exact hskip hx fun heq ↦ absurd heq hne
        case isTrue heq =>
          subst heq
          cases hx
          have hrunning : Running s raw₀ := ⟨hhot.1, by rw [hhot.2, active?]; simpa using hactive⟩
          refine ⟨schedule, hschedule, hxy, fun raw ↦ ?_⟩
          rw [hiff raw, mem_sortUniq, List.mem_append, List.mem_singleton, List.mem_cons,
            Prod.mk.injEq, and_iff_left rfl]
          constructor
          · rintro ((hin | rfl) | ⟨hin, hraw⟩)
            · exact .inl hin
            · exact .inr ⟨.inl rfl, hrunning⟩
            · exact .inr ⟨.inr hin, hraw⟩
          · rintro (hin | ⟨rfl | hin, hraw⟩)
            · exact .inl (.inl hin)
            · exact .inl (.inr rfl)
            · exact .inr ⟨hin, hraw⟩

variable {vm : Runtime} {s t : State}

theorem purge_owners {retention : Retention} {capturedAt : ℕ}
    (h : purgeExpiredVolatileTerminals s retention capturedAt = .ok t) :
    t.scheduleOwners = s.scheduleOwners := by
  refine fold_invariant (P := fun u ↦ u.scheduleOwners = s.scheduleOwners) ?_ rfl h
  intro a entry b ha hstep
  simp only [purgeStep] at hstep
  split at hstep
  case isFalse =>
    cases hstep
    exact ha
  case isTrue =>
    obtain ⟨expired, -, hstep⟩ := bind_eq_ok.mp hstep
    cases expired with
    | true =>
      cases hstep
      exact ha
    | false =>
      cases hstep
      exact ha

/-- The schedules of an adopted state: those of the epoch, with the running volatile members. -/
theorem adopt_schedules {stats : Stats} {retention : Retention} {admits : ℤ → Bool}
    (h : adopt vm s stats retention admits = .ok t) :
    ∃ purged, purged.hot = t.hot ∧ purged.volatileIds = t.volatileIds ∧
      purged.scheduleOwners = s.scheduleOwners ∧
      t.schedules = retainVolatileMemberships stats.recovered.candidate.schedules purged ∧
      t.scheduleOwners = Auxiliary.owners t.schedules := by
  obtain ⟨purged, hpurged, h⟩ := bind_eq_ok.mp h
  split at h
  case h_1 => cases h
  case h_2 =>
    obtain ⟨-, h⟩ := check_bind_eq_ok.mp h
    cases h
    exact ⟨purged, rfl, rfl, purge_owners hpurged, rfl, rfl⟩

/-- A job that has not ended is hot. -/
theorem Placed.active_hot (h : Placed s) {id : JobId} (hactive : active? (lookup s id) = true) :
    active? s.hot[id]? = true := by
  cases hhot : s.hot[id]? with
  | some job =>
    rw [lookup, hhot] at hactive
    exact hactive
  | none =>
    rw [lookup, hhot, Option.none_or] at hactive
    cases hjob : s.terminalStore[id]? with
    | none =>
      rw [hjob] at hactive
      cases hactive
    | some job =>
      rw [hjob, active?, h.terminal id job hjob] at hactive
      cases hactive

/-- Retention takes no job that has not ended. -/
theorem active_filter_survives (s : State) (adoption : Option (Stats × Retention))
    (job : Option Job) : active? (job.filter (survives s adoption)) = active? job := by
  cases job with
  | none => rfl
  | some job =>
    rw [Option.filter_some]
    split
    case isTrue => rfl
    case isFalse hdropped =>
      cases adoption with
      | none => exact absurd rfl hdropped
      | some x =>
        simp only [survives, Bool.not_eq_true, Bool.not_eq_false', expires,
          Bool.and_eq_true] at hdropped
        rw [active?, active?, hdropped.1]
        rfl

section

variable {occurrenceId : Binary → ℕ → JobId} {g : List (Binary × JobId)}

/-- Jobs may end, as long as the schedules stay. -/
theorem Enrolled.congr (h : Enrolled occurrenceId g s) (hplaced : Placed t)
    (hschedules : t.schedules = s.schedules) (howners : t.scheduleOwners = s.scheduleOwners)
    (hactive : ∀ p ∈ g, active? (lookup t p.2) = true → active? (lookup s p.2) = true) :
    Enrolled occurrenceId g t := by
  refine ⟨hplaced, hschedules ▸ h.keyed, hschedules ▸ h.derived, ?_, fun p hp hrunning ↦ ?_⟩
  · rw [howners, hschedules]
    exact h.owned
  · rw [hschedules]
    exact h.covered p hp (hactive p hp hrunning)

variable (hapart : ∀ id id' n n', occurrenceId id n = occurrenceId id' n' → id = id')
include hapart

/-- No two schedules share a member. -/
theorem Enrolled.member_unique (h : Enrolled occurrenceId g s) {raw : JobId} {id id' : Binary}
    {x : Schedule} (hx : s.schedules[id]? = some x) (hraw : raw ∈ x.activeJobIds)
    (hy : ∃ n, raw = occurrenceId id' n) : id = id' := by
  obtain ⟨n, hn⟩ := h.derived id x hx raw (List.mem_append_left _ hraw)
  obtain ⟨m, hm⟩ := hy
  exact hapart id id' n m (hn.symm.trans hm)

/-- New schedules for old ones: each has the members of the old one that are still running, and maybe
others of them, and the owners are read off anew. -/
theorem Enrolled.replaced (h : Enrolled occurrenceId g s) (hplaced : Placed t)
    (howners : t.scheduleOwners = Auxiliary.owners t.schedules)
    (hactive : ∀ p ∈ g, active? (lookup t p.2) = true → active? (lookup s p.2) = true)
    (hkept : ∀ (id : Binary) (x : Schedule), s.schedules[id]? = some x →
      ∃ z, t.schedules[id]? = some z)
    (hget : ∀ (id : Binary) (z : Schedule), t.schedules[id]? = some z → ∃ x,
      s.schedules[id]? = some x ∧ z = { x with activeJobIds := z.activeJobIds } ∧
        z.activeJobIds ⊆ x.activeJobIds ∧
        ∀ raw ∈ x.activeJobIds, active? (lookup t raw) = true → raw ∈ z.activeJobIds) :
    Enrolled occurrenceId g t := by
  have hderived (id : Binary) (z : Schedule) (hz : t.schedules[id]? = some z) :
      ∀ raw ∈ z.activeJobIds ++ z.activeJobId.toList, ∃ n, raw = occurrenceId id n := by
    obtain ⟨x, hx, hzx, hsubset, -⟩ := hget id z hz
    intro raw hraw
    refine h.derived id x hx raw ?_
    rcases List.mem_append.mp hraw with hin | hin
    · exact List.mem_append_left _ (hsubset hin)
    · rw [hzx] at hin
      exact List.mem_append_right _ hin
  refine ⟨hplaced, fun id z hz ↦ ?_, hderived, fun raw id ↦ ?_, fun p hp hrunning ↦ ?_⟩
  · obtain ⟨x, hx, hzx, -⟩ := hget id z hz
    rw [hzx]
    exact h.keyed id x hx
  · rw [howners]
    refine owners_get fun id' x hx hraw id y hy hraw' ↦ ?_
    obtain ⟨n, hn⟩ := hderived id' x hx raw (List.mem_append_left _ hraw)
    obtain ⟨m, hm⟩ := hderived id y hy raw (List.mem_append_left _ hraw')
    exact hapart id' id n m (hn.symm.trans hm)
  · obtain ⟨x, hx, hcovered⟩ := h.covered p hp (hactive p hp hrunning)
    obtain ⟨z, hz⟩ := hkept p.1 x hx
    obtain ⟨x', hx', hzx, -, hmembers⟩ := hget p.1 z hz
    rw [hx] at hx'
    cases hx'
    refine ⟨z, hz, ?_⟩
    rcases hcovered with hin | heq
    · exact .inl (hmembers p.2 hin hrunning)
    · refine .inr ?_
      rw [hzx]
      exact heq

/-- **Adoption.** An epoch that recalls the engine's schedules keeps every job that has not ended on
the list of its schedule. -/
theorem Enrolled.adopted (h : Enrolled occurrenceId g s) {stats : Stats} {retention : Retention}
    {admits : ℤ → Bool} (hrecalled : Recalled s stats.recovered.candidate.schedules)
    (ht : adopt vm s stats retention admits = .ok t) : Enrolled occurrenceId g t := by
  obtain ⟨hplaced, hlookup⟩ := h.placed.adopted ht
  obtain ⟨purged, hhot, hvolatile, hpurged, hschedules, howners⟩ := adopt_schedules ht
  refine h.replaced hapart hplaced howners (fun p _ hrunning ↦ ?_) (fun id x hx ↦ ?_)
    fun id z hz ↦ ?_
  · rw [hlookup] at hrunning
    exact (active_filter_survives s (some (stats, retention)) _).symm.trans hrunning
  · have hdecl : (t.schedules[id]?).map decl = some (decl x) := by
      rw [hschedules, retain_decl]
      obtain ⟨l, hl, -⟩ := hrecalled.same.get hx
      rw [hl]
      rfl
    obtain ⟨z, hz, -⟩ := Option.map_eq_some_iff.mp hdecl
    exact ⟨z, hz⟩
  · rw [hschedules] at hz
    obtain ⟨y, hy, hzy, hmembers⟩ := retain_get purged hz
    obtain ⟨x, hx, hyx, hsubset, hpersistent⟩ := hrecalled.get hy
    refine ⟨x, hx, ?_, fun raw hraw ↦ ?_, fun raw hraw hrunning ↦ (hmembers raw).mpr ?_⟩
    · rw [hzy, hyx]
    · rcases (hmembers raw).mp hraw with hin | ⟨howner, -⟩
      · exact hsubset hin
      · rw [hpurged] at howner
        obtain ⟨x', hx', hin⟩ := (h.owned raw id).mp howner
        rw [hx] at hx'
        cases hx'
        exact hin
    · by_cases hin : raw ∈ s.volatileIds
      · have hjob := hplaced.active_hot hrunning
        have hsome : (t.hot[raw]?).isSome := by
          cases hnone : t.hot[raw]? with
          | none =>
            rw [hnone] at hjob
            cases hjob
          | some job => rfl
        refine .inr ⟨?_, ?_⟩
        · rw [hpurged]
          exact (h.owned raw id).mpr ⟨x, hx, hraw⟩
        · rw [Running, hhot, hvolatile]
          exact ⟨(adopt_tables h.placed ht raw).2.2.mpr ⟨hin, hsome⟩, hjob⟩
      · exact .inl (hpersistent raw hraw hin)

/-- Where a record lands, with the epoch its reply may carry. -/
theorem Enrolled.settles (h : Enrolled occurrenceId g s)
    {adoption : Option (Stats × Retention)} {base : State}
    (hrecalled : ∀ x ∈ adoption, Recalled s x.1.recovered.candidate.schedules)
    (hbase : Settles vm s adoption base) : Enrolled occurrenceId g base := by
  cases hbase with
  | stay => exact h
  | adopt hadopted =>
    have hnext := h.adopted hapart (hrecalled _ rfl) hadopted
    exact hnext.congr (hnext.placed.congr rfl rfl rfl) rfl rfl fun _ _ hactive ↦ hactive

/-- **Rewriting one schedule.** Its new list has to have those of its jobs that have not ended. -/
theorem Enrolled.store (h : Enrolled occurrenceId g s) {id : Binary} {next : Schedule}
    (hplaced : Placed t) (hschedules : t.schedules = s.schedules.insert id next) (hid : next.id = id)
    (howners : t.scheduleOwners = Auxiliary.replaceOwners s.scheduleOwners s.schedules[id]? next)
    (hderived : ∀ raw ∈ next.activeJobIds ++ next.activeJobId.toList, ∃ n, raw = occurrenceId id n)
    (hactive : ∀ p ∈ g, active? (lookup t p.2) = true → active? (lookup s p.2) = true)
    (hcovered : ∀ p ∈ g, p.1 = id → active? (lookup s p.2) = true →
      p.2 ∈ next.activeJobIds ∨ p.2 = occurrenceId id next.nextAt) :
    Enrolled occurrenceId g t := by
  refine ⟨hplaced, hschedules ▸ h.keyed.insert hid, fun k z hz ↦ ?_, fun raw k ↦ ?_,
    fun p hp hrunning ↦ ?_⟩
  · rw [hschedules, Foundation.Table.get_insert] at hz
    split at hz
    case isTrue heq =>
      cases hz
      exact heq ▸ hderived
    case isFalse => exact h.derived k z hz
  · rw [howners, replaceOwners_get, hschedules, Foundation.Table.get_insert, hid]
    by_cases hraw : raw ∈ next.activeJobIds
    · rw [if_pos hraw, Option.some.injEq]
      constructor
      · intro heq
        exact ⟨next, if_pos heq, hraw⟩
      · rintro ⟨z, hz, hin⟩
        split at hz
        case isTrue heq => exact heq
        case isFalse =>
          have hmine := hderived raw (List.mem_append_left _ hraw)
          exact (h.member_unique hapart hz hin hmine).symm
    · rw [if_neg hraw]
      by_cases hk : id = k
      · subst hk
        rw [if_pos rfl]
        constructor
        · intro howner
          split at howner
          case isTrue => cases howner
          case isFalse hout =>
            obtain ⟨x, hx, hin⟩ := (h.owned raw id).mp howner
            rw [hx] at hout
            exact absurd hin hout
        · rintro ⟨z, hz, hin⟩
          cases hz
          exact absurd hin hraw
      · rw [if_neg hk, ← h.owned raw k]
        split
        case isFalse => rfl
        case isTrue hin =>
          -- a former member of the rewritten schedule is no member of another
          cases hx : s.schedules[id]? with
          | none =>
            rw [hx] at hin
            cases hin
          | some x =>
            rw [hx] at hin
            rw [(h.owned raw id).mpr ⟨x, hx, hin⟩, Option.some.injEq]
            simp [hk]
  · rw [hschedules, Foundation.Table.get_insert]
    by_cases hk : id = p.1
    · rw [if_pos hk]
      refine ⟨next, rfl, ?_⟩
      rw [← hk]
      exact hcovered p hp hk.symm (hactive p hp hrunning)
    · rw [if_neg hk]
      exact h.covered p hp (hactive p hp hrunning)

end

/-! ## Commits -/

section Commits

variable {env : Environment}

/-- A commit on a job leaves the schedules of the state its record has landed in. -/
theorem commit_settled {previous : Option Job} {e : JobEvent} {given : Option Durability}
    {c : Committed} {op : Op}
    (hrequest : request vm s op env.admits = commitRequest vm s previous e given env.admits)
    (h : commit vm s previous e given env = .ok c) :
    ∃ base, Settles vm s (adoption vm s (.command op env)) base ∧
      c.state.schedules = base.schedules ∧ c.state.scheduleOwners = base.scheduleOwners := by
  unfold commitRequest at hrequest
  unfold commit at h
  split at h
  case h_1 hmode =>
    have hvolatile : commitMode s previous given = .volatile := hmode
    rw [hvolatile] at hrequest
    have hnone : adoption vm s (.command op env) = none := by
      simp only [adoption, hrequest, Option.map_none]
      split
      case h_1 heq => cases heq
      case h_2 => rfl
    refine ⟨s, hnone ▸ .stay, ?_⟩
    simp only [commitVolatile, ensureActiveAccounting, bind_eq_ok, pure_eq_ok] at h
    obtain ⟨m, -, -, -, predicted, -, charged, -, -, -, next, ⟨-, -, hnext⟩, h⟩ := h
    cases hnext
    cases h
    have hsame := publish_same s previous
      { charged.1 with terminalAt := terminalTime charged.1 e.timestamp } .volatile
    exact ⟨hsame.schedules, hsame.scheduleOwners⟩
  case h_2 hmode =>
    have hpersistent : commitMode s previous given = .persistent := hmode
    rw [hpersistent] at hrequest
    simp only [commitV2, bind_eq_ok, mapError_eq_ok, check_eq_ok] at h
    obtain ⟨p, hp, -, hadmits, ⟨receipt, base⟩, hr, -, -, h⟩ := h
    simp only [hp, hadmits, if_true] at hrequest
    have hc := finishCommit_spec vm h
    exact ⟨base, appendRecord_settles hrequest hr, hc.schedules, hc.scheduleOwners⟩

/-- An auxiliary commit changes the schedules of the state its record has landed in as the event
says, and no job. -/
theorem auxiliary_settled {e : AuxEvent} {job : Option Job} {out : State × List Record}
    (hjob : job = resultJob s e.body) (hpersistent : ¬job.any (fun j ↦ durability s j.id == .volatile))
    (h : commitAuxiliary vm s e job env = .ok out) :
    ∃ base applied, Settles vm s (adoption vm s (.command (.auxiliary e) env)) base ∧
      Auxiliary.applyEvent (auxiliarySeed base e job) e base.nextSequence = .ok applied ∧
      out.1.schedules = applied.schedules ∧
      out.1.scheduleOwners = ownersAfter base e applied.schedules ∧
      out.1.hot = base.hot ∧ out.1.terminalStore = base.terminalStore ∧
      out.1.volatileIds = base.volatileIds := by
  subst hjob
  rw [commitAuxiliary, if_neg hpersistent] at h
  simp only [commitPersistentAuxiliary, bind_eq_ok, check_eq_ok] at h
  obtain ⟨c, hc, -, hadmits, ⟨receipt, base⟩, hr, -, -, h⟩ := h
  have hrequest : request vm s (.auxiliary e) env.admits = some (.auxiliary e) := by
    simp only [request, if_neg hpersistent, hc, hadmits, if_true]
  have hbase := appendRecord_settles hrequest hr
  simp only [finishAuxiliary] at h
  split at h
  case h_1 => cases h
  case h_2 c' hc' =>
    cases h
    obtain ⟨-, -, applied, happlied, hcandidate⟩ := Auxiliary.reduce_eq_ok vm hc'
    refine ⟨base, applied, hbase, happlied, ?_, ?_, rfl, rfl, rfl⟩
    · rw [hcandidate]
    · rw [hcandidate]

/-- A result changes no schedule. -/
theorem result_settled {e : AuxEvent} {out : State × List Record}
    (he : e.body.scheduleId? = none) (h : perform vm s (.auxiliary e) env = .ok out) :
    ∃ base, Settles vm s (adoption vm s (.command (.auxiliary e) env)) base ∧
      out.1.schedules = base.schedules ∧ out.1.scheduleOwners = base.scheduleOwners := by
  simp only [perform] at h
  by_cases hvolatile : (resultJob s e.body).any fun j ↦ durability s j.id == .volatile
  · rw [commitAuxiliary, if_pos hvolatile] at h
    simp only [commitVolatileAuxiliary, bind_eq_ok, pure_eq_ok] at h
    obtain ⟨-, -, c, -, -, -, h⟩ := h
    cases h
    have hnone : adoption vm s (.command (.auxiliary e) env) = none := by
      simp only [adoption, request, if_pos hvolatile, Option.map_none]
      split
      case h_1 heq => cases heq
      case h_2 => rfl
    exact ⟨s, hnone ▸ .stay, rfl, rfl⟩
  · obtain ⟨base, applied, hbase, happlied, hschedules, howners, -⟩ :=
      auxiliary_settled rfl hvolatile h
    refine ⟨base, hbase, ?_, ?_⟩
    · rw [hschedules]
      obtain ⟨revision, timestamp, body⟩ := e
      cases body with
      | resultRecorded jobId result =>
        simp only [Auxiliary.applyEvent] at happlied
        split at happlied
        case h_1 => cases happlied
        case h_2 =>
          simp only [bind_eq_ok, pure_eq_ok] at happlied
          obtain ⟨-, -, -, -, happlied⟩ := happlied
          cases happlied
          rfl
      | _ => cases he
    · rw [howners, ownersAfter, he]
      rfl

theorem auxiliarySeed_schedules (s : State) (e : AuxEvent) (job : Option Job) :
    (auxiliarySeed s e job).schedules = s.schedules := rfl

theorem ownersAfter_get {base : State} {e : AuxEvent} {id : Binary} {next : Schedule}
    {schedules : Table Binary Schedule} (he : e.body.scheduleId? = some id)
    (hnext : schedules[id]? = some next) :
    ownersAfter base e schedules =
      Auxiliary.replaceOwners base.scheduleOwners base.schedules[id]? next := by
  simp only [ownersAfter, he, Option.bind_some, hnext, Option.map_some]

end Commits

/-! ## Jobs that come back -/

def retried : JobBody → Bool
  | .retried .. => true
  | _ => false

/-- The manual retry of a discarded job. -/
def revives (s : State) : Action → Bool
  | .command (.change e) _ => retried e.body && (lookup s e.jobId).any (·.state == .discarded)
  | _ => false

/-- The one transition of a job that has ended. -/
theorem transition_terminal {e : JobEvent} {p job : Job} {m : Mutation} {order : ℕ}
    {limits : Value.Limits} (hm : Mutation.fromEvent e (some p) order = .ok m)
    (h : Reducer.transitionJob (some p) m order limits = .ok job)
    (hterminal : p.state.terminal = true) : retried e.body = true ∧ p.state = .discarded := by
  rw [Reducer.transitionJob_admitted] at h
  obtain ⟨admitted, hadmit, -⟩ := bind_eq_ok.mp h
  obtain ⟨-, -, hvalid, -⟩ := Reducer.admitJob_some hadmit
  have hstate : (Reducer.toV1 p).state = p.state := rfl
  obtain ⟨jobId, expected, timestamp, body⟩ := e
  simp only [Mutation.fromEvent, bind_eq_ok, pure_eq_ok] at hm
  obtain ⟨b, hb, hm⟩ := hm
  cases hm
  cases hp : p.state <;> rw [hp] at hterminal hstate <;> try cases hterminal
  all_goals
    cases body <;> simp only [Mutation.translate] at hb <;> try cases hb
    all_goals simp [Codec.event, Transition.validTransition?, hstate, retried] at hvalid ⊢

/-- So a commit on such a job is that retry. -/
theorem commit_terminal {e : JobEvent} {p : Job} {given : Option Durability} {env : Environment}
    {c : Committed} (h : commit vm s (some p) e given env = .ok c)
    (hterminal : p.state.terminal = true) : retried e.body = true ∧ p.state = .discarded := by
  unfold commit at h
  split at h
  case h_1 =>
    obtain ⟨m, job, hm, hjob, -⟩ := (commitVolatile_spec vm h).transition
    exact transition_terminal hm hjob hterminal
  case h_2 =>
    obtain ⟨prepared, base, hp, -⟩ := commitV2_landing vm h
    obtain ⟨job, -, hjob, -⟩ := hp.transition
    exact transition_terminal hp.mutation hjob hterminal

/-- Without such a retry, a job that has not ended is one that had not ended before, or a new one. -/
theorem handle_active_back {a : Action} (hs : Placed s) (hrevives : revives s a = false)
    (h : handle vm s a = .ok t) {id : JobId} (hactive : active? (lookup t id) = true) :
    active? (lookup s id) = true ∨ lookup s id = none := by
  rcases handle_placed hs h with ⟨job, hproduced, hmoves⟩ | ⟨-, hquiet⟩
  · rw [hmoves.lookup] at hactive
    by_cases hid : job.id = id
    · subst hid
      cases a with
      | command op env =>
        cases op with
        | insert e mode =>
          simp only [produced] at hproduced
          split at hproduced
          case h_1 => cases hproduced
          case h_2 hnone =>
            obtain ⟨c, hc, rfl⟩ := Option.map_eq_some_iff.mp hproduced
            rw [commit_jobId (toOption_eq_some.mp hc)]
            exact .inr hnone
        | change e =>
          simp only [produced] at hproduced
          split at hproduced
          case h_1 => cases hproduced
          case h_2 p hp =>
            obtain ⟨c, hc, rfl⟩ := Option.map_eq_some_iff.mp hproduced
            rw [commit_jobId (toOption_eq_some.mp hc), hp]
            refine .inl ?_
            by_contra hended
            rw [active?, Bool.not_eq_true, Bool.not_eq_false'] at hended
            obtain ⟨hretried, hdiscarded⟩ := commit_terminal (toOption_eq_some.mp hc) hended
            rw [revives, hretried, hp, Option.any_some, hdiscarded] at hrevives
            cases hrevives
        | auxiliary e => cases hproduced
      | compactOnline rotation token retention => cases hproduced
      | compactResult token result => cases hproduced
    · rw [if_neg hid, active_filter_survives] at hactive
      exact .inl hactive
  · rw [hquiet.lookup, active_filter_survives] at hactive
    exact .inl hactive

/-! ## Messages -/

/-- The epochs a message makes the engine adopt have the engine's schedules. -/
def Recalls (vm : Runtime) (s : State) (a : Action) : Prop :=
  ∀ x ∈ adoption vm s a, Recalled s x.1.recovered.candidate.schedules

/-- A message about no schedule leaves the schedules it finds, or those of the epoch it brings. -/
theorem handle_settled {a : Action} (hforeign : Coordinator.foreign a = true) (h : handle vm s a = .ok t) :
    ∃ base, Settles vm s (adoption vm s a) base ∧ t.schedules = base.schedules ∧
      t.scheduleOwners = base.scheduleOwners := by
  cases a with
  | command op env =>
    simp only [handle] at h
    obtain ⟨out, hperform, rfl⟩ := map_eq_ok.mp h
    cases op with
    | insert e mode =>
      simp only [perform] at hperform
      cases hlookup : lookup s e.jobId with
      | some p => simp [hlookup] at hperform
      | none =>
        rw [hlookup] at hperform
        obtain ⟨c, hc, rfl⟩ := map_eq_ok.mp hperform
        exact commit_settled (by simp [request, hlookup]) hc
    | change e =>
      simp only [perform] at hperform
      cases hlookup : lookup s e.jobId with
      | none => simp [hlookup] at hperform
      | some p =>
        rw [hlookup] at hperform
        obtain ⟨c, hc, rfl⟩ := map_eq_ok.mp hperform
        exact commit_settled (by simp [request, hlookup]) hc
    | auxiliary e => exact result_settled (Option.isNone_iff_eq_none.mp hforeign) hperform
  | compactOnline rotation token retention =>
    refine ⟨s, .stay, ?_⟩
    rcases handle_cases vm h with ⟨op, env, out, heq, -⟩ | ⟨token, stats, admits, heq, -⟩ |
      ⟨rotation, token, retention, -, -, rfl⟩ | ⟨online, rfl⟩
    · cases heq
    · cases heq
    · exact ⟨rfl, rfl⟩
    · exact ⟨rfl, rfl⟩
  | compactResult token result =>
    cases result with
    | ok stats admits =>
      cases honline : s.onlineCompaction with
      | running current retention =>
        simp only [handle, honline] at h
        by_cases htoken : (token == current) = true
        · rw [if_pos htoken] at h
          refine ⟨{ t with onlineCompaction := t.onlineCompaction }, ?_, rfl, rfl⟩
          simp only [adoption, honline, if_pos htoken]
          exact .adopt h
        · rw [if_neg htoken] at h
          cases h
          refine ⟨s, ?_, rfl, rfl⟩
          simp only [adoption, honline, if_neg htoken]
          exact .stay
      | none =>
        simp only [handle, honline] at h
        cases h
        refine ⟨s, ?_, rfl, rfl⟩
        simp only [adoption, honline]
        exact .stay
      | switched current retention =>
        simp only [handle, honline] at h
        cases h
        refine ⟨s, ?_, rfl, rfl⟩
        simp only [adoption, honline]
        exact .stay
    | switched =>
      obtain ⟨online, rfl⟩ := handle_online (fun _ _ heq ↦ by cases heq) h
      exact ⟨s, .stay, rfl, rfl⟩
    | error =>
      obtain ⟨online, rfl⟩ := handle_online (fun _ _ heq ↦ by cases heq) h
      exact ⟨s, .stay, rfl, rfl⟩

section

variable {occurrenceId : Binary → ℕ → JobId} {g : List (Binary × JobId)}
  (hapart : ∀ id id' n n', occurrenceId id n = occurrenceId id' n' → id = id')
include hapart

/-- **A message about no schedule.** No delivered job comes back to life with it. -/
theorem Enrolled.handle (h : Enrolled occurrenceId g s) {a : Action}
    (hknown : ∀ p ∈ g, (lookup s p.2).isSome) (hforeign : Coordinator.foreign a = true)
    (hrecalls : Recalls vm s a) (hrevives : revives s a = false)
    (ht : Engine.handle vm s a = .ok t) : Enrolled occurrenceId g t := by
  obtain ⟨base, hbase, hschedules, howners⟩ := handle_settled hforeign ht
  have hplaced : Placed t := by
    rcases handle_placed h.placed ht with ⟨job, -, hmoves⟩ | ⟨-, hquiet⟩
    · exact hmoves.placed
    · exact hquiet.placed
  refine (h.settles hapart hrecalls hbase).congr hplaced hschedules howners fun p hp hactive ↦ ?_
  rw [(hbase.placed h.placed).2.1, active_filter_survives]
  rcases handle_active_back h.placed hrevives ht hactive with hbefore | hnone
  · exact hbefore
  · have hsome := hknown p hp
    rw [hnone] at hsome
    cases hsome

/-! ## Schedule events -/

variable {env : Environment}

/-- **A schedule restated in full**, where the state its record lands in is in order. -/
theorem Enrolled.restates (h : Enrolled occurrenceId g s) {id : Binary} {revision timestamp : ℕ}
    {schedule : Schedule} {out : State × List Record}
    (hsettles : ∀ base, Settles vm s (adoption vm s
      (.command (.auxiliary (scheduleStateEvent id revision timestamp schedule)) env)) base →
        Enrolled occurrenceId g base)
    (hperform : perform vm s (.auxiliary (scheduleStateEvent id revision timestamp schedule)) env =
      .ok out)
    (hderived : ∀ raw ∈ schedule.activeJobIds ++ schedule.activeJobId.toList,
      ∃ n, raw = occurrenceId id n)
    (hcovered : ∀ p ∈ g, p.1 = id → active? (lookup s p.2) = true →
      p.2 ∈ schedule.activeJobIds ∨ p.2 = occurrenceId id schedule.nextAt) :
    Enrolled occurrenceId g out.1 := by
  obtain ⟨base, applied, hbase, happlied, hschedules, howners, hhot, hterminal, hvolatile⟩ :=
    auxiliary_settled (show none = resultJob s _ from rfl) Bool.false_ne_true hperform
  have henrolled := hsettles base hbase
  simp only [scheduleStateEvent, Auxiliary.applyEvent, Auxiliary.restate, Auxiliary.update,
    bind_eq_ok, check_eq_ok, pure_eq_ok] at happlied
  obtain ⟨next, ⟨-, -, hnext⟩, happlied⟩ := happlied
  cases hnext
  simp only [Foundation.Table.get_insert, if_true] at happlied
  cases happlied
  simp only [insert_insert, auxiliarySeed_schedules] at hschedules howners
  rw [ownersAfter_get rfl Std.ExtTreeMap.getElem?_insert_self] at howners
  refine henrolled.store hapart (henrolled.placed.congr hhot hterminal hvolatile) hschedules rfl
    howners hderived (fun p _ hactive ↦ ?_) fun p hp hid hactive ↦ ?_
  · rwa [lookup_congr hhot hterminal] at hactive
  · rw [(hbase.placed h.placed).2.1, active_filter_survives] at hactive
    exact hcovered p hp hid hactive

theorem Enrolled.restated (h : Enrolled occurrenceId g s) {id : Binary} {revision timestamp : ℕ}
    {schedule : Schedule} {out : State × List Record}
    (hrecalls : Recalls vm s
      (.command (.auxiliary (scheduleStateEvent id revision timestamp schedule)) env))
    (hperform : perform vm s (.auxiliary (scheduleStateEvent id revision timestamp schedule)) env =
      .ok out)
    (hderived : ∀ raw ∈ schedule.activeJobIds ++ schedule.activeJobId.toList,
      ∃ n, raw = occurrenceId id n)
    (hcovered : ∀ p ∈ g, p.1 = id → active? (lookup s p.2) = true →
      p.2 ∈ schedule.activeJobIds ∨ p.2 = occurrenceId id schedule.nextAt) :
    Enrolled occurrenceId g out.1 :=
  h.restates hapart (fun _ hbase ↦ h.settles hapart hrecalls hbase) hperform hderived hcovered

/-- **A schedule moved on.** Its running members stay on the list, and so does the job of the
occurrence if it is the one the event names. -/
theorem Enrolled.delivers (h : Enrolled occurrenceId g s) {id : Binary}
    {revision timestamp dueAt nextAt : ℕ} {activeId : Option JobId} {out : State × List Record}
    (hsettles : ∀ base, Settles vm s (adoption vm s (.command (.auxiliary ⟨revision, timestamp,
      .scheduleDelivered id activeId dueAt nextAt⟩) env)) base → Enrolled occurrenceId g base)
    (hperform : perform vm s (.auxiliary ⟨revision, timestamp,
      .scheduleDelivered id activeId dueAt nextAt⟩) env = .ok out)
    (hderived : ∀ raw ∈ activeId.toList, ∃ n, raw = occurrenceId id n)
    (hdue : ∀ p ∈ g, p.1 = id → active? (lookup s p.2) = true → p.2 = occurrenceId id dueAt →
      activeId = some p.2) : Enrolled occurrenceId g out.1 := by
  obtain ⟨base, applied, hbase, happlied, hschedules, howners, hhot, hterminal, hvolatile⟩ :=
    auxiliary_settled (show none = resultJob s _ from rfl) Bool.false_ne_true hperform
  have henrolled := hsettles base hbase
  simp only [Auxiliary.applyEvent, bind_eq_ok] at happlied
  obtain ⟨next, hnext, happlied⟩ := happlied
  unfold Auxiliary.advance at hnext
  split at hnext
  case h_1 => cases hnext
  case h_2 schedule hstored =>
    simp only [bind_eq_ok, check_eq_ok, pure_eq_ok, beq_iff_eq] at hnext
    obtain ⟨-, -, -, -, -, hnextAt, hnext⟩ := hnext
    have hschedule : base.schedules[id]? = some schedule := hstored
    have hid : schedule.id = id := henrolled.keyed id schedule hschedule
    cases hnext
    simp only [Auxiliary.update, hid, Foundation.Table.get_insert, if_true] at happlied
    cases happlied
    simp only [insert_insert, auxiliarySeed_schedules] at hschedules howners
    rw [ownersAfter_get rfl Std.ExtTreeMap.getElem?_insert_self] at howners
    refine henrolled.store hapart (henrolled.placed.congr hhot hterminal hvolatile) hschedules rfl
      howners (fun raw hraw ↦ ?_) (fun p _ hactive ↦ ?_) fun p hp hid hactive ↦ ?_
    · rcases List.mem_append.mp hraw with hin | hin
      · have hlisted := (mem_activeMembers.mp hin).1
        rcases List.mem_append.mp hlisted with hin | hin
        · exact henrolled.derived id schedule hschedule raw (List.mem_append_left _ hin)
        · exact hderived raw hin
      · exact hderived raw hin
    · rwa [lookup_congr hhot hterminal] at hactive
    · obtain ⟨x, hx, hcovered⟩ := henrolled.covered p hp hactive
      rw [hid, hschedule] at hx
      cases hx
      have hmember : p.2 ∈ schedule.activeJobIds ++ activeId.toList := by
        rcases hcovered with hin | heq
        · exact List.mem_append_left _ hin
        · rw [(hbase.placed h.placed).2.1, active_filter_survives] at hactive
          rw [hid, hnextAt] at heq
          rw [hdue p hp hid hactive heq]
          exact List.mem_append_right _ (List.mem_singleton.mpr rfl)
      refine .inl (mem_activeMembers.mpr ⟨hmember, ?_⟩)
      have hseed := auxiliarySeed_member (s := base) (x := p.2) (e := ⟨revision, timestamp,
        .scheduleDelivered id activeId dueAt nextAt⟩) (by
          simpa [Auxiliary.memberIds, AuxBody.scheduleId?, AuxBody.activeJobId?, hschedule]
            using hmember)
      rw [show (auxiliarySeed base _ none).jobs[p.2]? = lookup base p.2 from hseed]
      exact hactive

theorem Enrolled.delivered (h : Enrolled occurrenceId g s) {id : Binary}
    {revision timestamp dueAt nextAt : ℕ} {activeId : Option JobId} {out : State × List Record}
    (hrecalls : Recalls vm s (.command (.auxiliary ⟨revision, timestamp,
      .scheduleDelivered id activeId dueAt nextAt⟩) env))
    (hperform : perform vm s (.auxiliary ⟨revision, timestamp,
      .scheduleDelivered id activeId dueAt nextAt⟩) env = .ok out)
    (hderived : ∀ raw ∈ activeId.toList, ∃ n, raw = occurrenceId id n)
    (hdue : ∀ p ∈ g, p.1 = id → active? (lookup s p.2) = true → p.2 = occurrenceId id dueAt →
      activeId = some p.2) : Enrolled occurrenceId g out.1 :=
  h.delivers hapart (fun _ hbase ↦ h.settles hapart hrecalls hbase) hperform hderived hdue

end

end Engine

end Tay
