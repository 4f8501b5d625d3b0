import Tay.Schedule.Coordinator

/-!
# Every schedule is armed

The coordinator's entries are a cache of the engine's schedules, kept up from the results of its own
operations. An operation whose outcome is unknown is not repeated, and the entry it concerns is given
up; so is an entry whose delivery is refused for good, or whose time has run out. A `Ledger` records
which schedules have been forgotten that way, and which have a delivery of unknown outcome behind
them that has not been settled by a later one.

Away from the ledger the cache is exact: between operations every live schedule has an entry, every
entry stands for a live schedule, its message is pending, and it waits for the occurrence the engine
has stored.
-/

set_option linter.unusedSectionVars false

open Foundation

namespace Tay.Coordinator

open V2 Engine

/-! ## The ledger -/

/-- The schedules that were given up, and those that may be ahead of their entry. -/
structure Ledger where
  forgotten : Finset Binary
  uncertain : Finset Binary
  deriving DecidableEq

/-- What the end of an operation says about its schedule. -/
def Ledger.settled (g : Ledger) : Operation → Ending → Ledger
  | .register schedule, .ok _ | .deliver schedule _ _ _, .ok _ =>
    ⟨g.forgotten.erase schedule.id, g.uncertain.erase schedule.id⟩
  | .register schedule, .unknown | .cancel schedule, .unknown =>
    ⟨insert schedule.id g.forgotten, g.uncertain⟩
  | .deliver schedule _ _ _, .unknown =>
    ⟨g.forgotten.erase schedule.id, insert schedule.id g.uncertain⟩
  | .deliver schedule _ _ _, .refused r =>
    if retryable r then ⟨g.forgotten.erase schedule.id, g.uncertain⟩
    else ⟨insert schedule.id g.forgotten, g.uncertain⟩
  | .register _, .refused _ | .cancel _, .ok _ | .cancel _, .refused _ => g

variable {κ : Type} [DecidableEq κ] (cron : Cron κ) (vm : Runtime) (jobs : Jobs)

/-- A due occurrence has no successor. -/
def exhausted (c : State) (id : Binary) (dueAt now : ℕ) : Bool :=
  ((c.schedules[id]?).filter fun entry ↦ entry.schedule.nextAt == dueAt).any fun entry ↦
    decide (dueAt ≤ now) && (advanced cron entry.schedule dueAt now).isNone

/-- A stored schedule is forgotten from the start when its expression does not parse. -/
def Ledger.start (engine : Engine.State) : Ledger where
  forgotten := (engine.schedules.keys.filter fun id ↦
    (engine.schedules[id]?).any fun stored ↦ !armable cron stored).toFinset
  uncertain := ∅

def Ledger.note (x : System) (l : Label) (_ : System) (g : Ledger) : Ledger :=
  match l with
  | .due id dueAt now =>
    if exhausted cron x.coordinator id dueAt now then ⟨insert id g.forgotten, g.uncertain⟩ else g
  | .result outcome => ((x.coordinator.operation.bind fun op ↦
      (settle vm jobs x.engine op outcome).map fun r ↦ g.settled op r.1)).getD g
  | .restart engine => .start cron engine
  | _ => g

/-- The system beside its ledger. -/
def ledgered : Machine (System × Ledger) Label :=
  (system cron vm jobs).observed (fun x ↦ .start cron x.engine) (Ledger.note cron vm jobs)

/-- Every epoch that is adopted declares the schedules the engine has, and a new generation starts on
a recovered store. -/
def Restating (x : System) : Label → Prop
  | .engine (.command _ env) => Restates x.engine env
  | .engine (.compactResult _ (.ok stats _)) => Restated x.engine stats
  | .result (.answered c) | .result (.lost (some c)) =>
    Restates x.engine c.insert ∧ Restates x.engine c.advance
  | .restart engine => Starts vm engine
  | _ => True

/-! ## The invariant -/

/-- A message for the occurrence is on its way. -/
def Pending (c : State) (id : Binary) (dueAt : ℕ) : Prop :=
  (∃ t ∈ c.timers, t.id = id ∧ t.dueAt = dueAt) ∨ (id, dueAt) ∈ c.mailbox

/-- An entry is waiting for its message, or for a delivery that is running or will be launched. -/
inductive Waiting (c : State) (id : Binary) (entry : Entry) : Prop
  | pending : Pending c id entry.schedule.nextAt → Waiting c id entry
  | running {schedule next : Declared} {dueAt now : ℕ} :
      c.operation = some (.deliver schedule next dueAt now) → schedule.id = id → Waiting c id entry
  | queued {schedule next : Declared} {dueAt now : ℕ} :
      .deliver schedule next dueAt now ∈ c.operations → schedule.id = id →
      entry.schedule.revision = schedule.revision → entry.schedule.nextAt = dueAt →
      Waiting c id entry

/-- Timers are told apart, and an entry's timer is its own. -/
structure Timed (c : State) : Prop where
  fresh : ∀ t ∈ c.timers, t.ref < c.nextTimer
  named : ∀ (id : Binary) (entry : Entry) (ref : ℕ), c.schedules[id]? = some entry →
    entry.timer = some ref → ref < c.nextTimer ∧ ∀ t ∈ c.timers, t.ref = ref → t.id = id

/-- The revision of a schedule determines its definition; `h` remembers which it was. -/
structure Known (h : Binary → ℕ → ScheduleDefinition) (engine : Engine.State) (d : Declared) :
    Prop where
  definition : h d.id d.revision = d.definition
  revision : d.revision ≤ revisionAt engine d.id

/-- A schedule the engine has, not cancelled, and not behind what is known of it. -/
def Live (engine : Engine.State) (g : Ledger) (d : Declared) : Prop :=
  ∃ stored, decls engine d.id = some stored ∧ stored.cancelledAt = none ∧
    stored.definition = d.definition ∧ d.nextAt ≤ stored.nextAt ∧
    (d.id ∉ g.uncertain → d.nextAt = stored.nextAt)

/-- A delivery moves its own schedule, from the occurrence it was waiting for to the next one. -/
structure Planned (d next : Declared) (dueAt now : ℕ) : Prop where
  due : d.nextAt = dueAt
  next : advanced cron d dueAt now = some next

/-- The invariant, apart from what concerns the schedule `except`. -/
structure Kept (h : Binary → ℕ → ScheduleDefinition) (engine : Engine.State) (c : State)
    (g : Ledger) (except : Option Binary) : Prop where
  timed : Timed c
  keyed : ∀ id d, decls engine id = some d → d.id = id
  recorded : ∀ id d, decls engine id = some d → h id d.revision = d.definition
  ids : ∀ (id : Binary) (entry : Entry), c.schedules[id]? = some entry → entry.schedule.id = id
  known : ∀ (id : Binary) (entry : Entry), some id ≠ except → c.schedules[id]? = some entry →
    Known h engine entry.schedule
  live : ∀ (id : Binary) (entry : Entry), some id ≠ except → c.schedules[id]? = some entry →
    Live engine g entry.schedule
  waiting : ∀ (id : Binary) (entry : Entry), some id ≠ except → c.schedules[id]? = some entry →
    Waiting c id entry
  running : ∀ d next dueAt now, c.operation = some (.deliver d next dueAt now) →
    Known h engine d ∧ Live engine g d ∧ Planned cron d next dueAt now
  queued : ∀ d next dueAt now, .deliver d next dueAt now ∈ c.operations →
    Known h engine d ∧ Planned cron d next dueAt now
  armed : ∀ id d, some id ≠ except → decls engine id = some d → d.cancelledAt = none →
    id ∉ g.forgotten → (c.schedules[id]?).isSome

variable {cron} {vm} {jobs} {h : Binary → ℕ → ScheduleDefinition} {engine : Engine.State}
  {c : State} {g : Ledger}

theorem advanced_spec {d next : Declared} {dueAt now : ℕ}
    (hnext : advanced cron d dueAt now = some next) :
    next.id = d.id ∧ next.definition = d.definition ∧ dueAt < next.nextAt := by
  simp only [advanced, Option.bind_eq_some_iff, Option.map_eq_some_iff] at hnext
  obtain ⟨x, hx, nextAt, hadvance, rfl⟩ := hnext
  exact ⟨rfl, rfl, Timing.lt_of_advanceAfterDelivery (Timing.runtimeExpression_pos hx) hadvance⟩

theorem Planned.spec {d next : Declared} {dueAt now : ℕ} (hp : Planned cron d next dueAt now) :
    next.id = d.id ∧ next.definition = d.definition ∧ dueAt < next.nextAt := advanced_spec hp.next

/-! ## The queue -/

/-- Only a delivery whose entry still waits for it is launched. -/
theorem launched_deliver {request : Request} {d next : Declared} {dueAt now : ℕ}
    (hop : launched cron c request = some (.deliver d next dueAt now)) :
    request = .deliver d next dueAt now ∧ ∃ entry, c.schedules[d.id]? = some entry ∧
      entry.schedule.revision = d.revision ∧ entry.schedule.nextAt = dueAt := by
  unfold launched at hop
  split at hop
  · split at hop
    · cases hop
    · cases hop
  · obtain ⟨entry, -, heq⟩ := Option.map_eq_some_iff.mp hop
    cases heq
  · split at hop
    case isTrue hany =>
      cases hop
      obtain ⟨entry, hentry, hmatch⟩ := (Option.any_eq_true _ _).mp hany
      rw [Bool.and_eq_true, beq_iff_eq, beq_iff_eq] at hmatch
      exact ⟨rfl, entry, hentry, hmatch⟩
    case isFalse => cases hop

/-- And that one is. -/
theorem launched_of_match {d next : Declared} {dueAt now : ℕ} {entry : Entry}
    (hentry : c.schedules[d.id]? = some entry) (hrevision : entry.schedule.revision = d.revision)
    (hdue : entry.schedule.nextAt = dueAt) :
    launched cron c (.deliver d next dueAt now) = some (.deliver d next dueAt now) := by
  simp only [launched, hentry, Option.any_some, hrevision, hdue, beq_self_eq_true, Bool.and_self,
    if_true]

theorem Known.definition_eq {d d' : Declared} (hd : Known h engine d) (hd' : Known h engine d')
    (hid : d.id = d'.id) (hrevision : d.revision = d'.revision) : d.definition = d'.definition := by
  rw [← hd.definition, ← hd'.definition, hid, hrevision]

/-- Whatever is taken from the queue, the entries go on waiting. -/
theorem Kept.beginNext {l : List Request} (hk : Kept cron h engine { c with operations := l } g none)
    (hidle : c.operation = none) : Kept cron h engine (beginNext cron c l) g none := by
  induction l with
  | nil => exact hk
  | cons request rest ih =>
    rw [Coordinator.beginNext]
    split
    case h_1 running hrunning =>
      refine ⟨⟨hk.timed.fresh, hk.timed.named⟩, hk.keyed, hk.recorded, hk.ids, hk.known, hk.live,
        ?_, ?_, ?_, hk.armed⟩
      · intro id entry hid hentry
        cases hk.waiting id entry hid hentry with
        | pending hpending => exact .pending hpending
        | running hop =>
          rw [show c.operation = _ from hop] at hidle
          cases hidle
        | queued hmem hid hrevision hdue =>
          rcases List.mem_cons.mp hmem with rfl | hmem
          · -- the delivery this entry waits for is the one that is launched
            rw [← hid] at hentry
            rw [launched_of_match (c := c) hentry hrevision hdue] at hrunning
            cases hrunning
            exact .running rfl hid
          · exact .queued hmem hid hrevision hdue
      · intro d next dueAt now hop
        cases hop
        obtain ⟨rfl, entry, hentry, hrevision, hdue⟩ := launched_deliver hrunning
        obtain ⟨hknown, hplanned⟩ := hk.queued d next dueAt now List.mem_cons_self
        have hsome : some d.id ≠ none := Option.some_ne_none _
        obtain ⟨stored, hstored, hlive, hdefinition, hle, hexact⟩ := hk.live _ _ hsome hentry
        have hid := hk.ids _ _ hentry
        have hsame := (hk.known _ _ hsome hentry).definition_eq hknown hid hrevision
        rw [hid] at hstored hexact
        refine ⟨hknown, ⟨stored, hstored, hlive, hdefinition.trans hsame, ?_, ?_⟩, hplanned⟩
        · rw [hplanned.due, ← hdue]
          exact hle
        · rw [hplanned.due, ← hdue]
          exact hexact
      · exact fun d next dueAt now hmem ↦ hk.queued d next dueAt now (List.mem_cons_of_mem _ hmem)
    case h_2 hnone =>
      refine ih ⟨⟨hk.timed.fresh, hk.timed.named⟩, hk.keyed, hk.recorded, hk.ids, hk.known,
        hk.live, ?_, hk.running, ?_, hk.armed⟩
      · intro id entry hid hentry
        cases hk.waiting id entry hid hentry with
        | pending hpending => exact .pending hpending
        | running hop hid => exact .running hop hid
        | queued hmem hid hrevision hdue =>
          rcases List.mem_cons.mp hmem with rfl | hmem
          · rw [← hid] at hentry
            rw [launched_of_match (c := c) hentry hrevision hdue] at hnone
            cases hnone
          · exact .queued hmem hid hrevision hdue
      · exact fun d next dueAt now hmem ↦ hk.queued d next dueAt now (List.mem_cons_of_mem _ hmem)

theorem Kept.continueOperations (hk : Kept cron h engine c g none) :
    Kept cron h engine (continueOperations cron c) g none := by
  unfold Coordinator.continueOperations
  split
  case h_1 => exact hk
  case h_2 hidle => exact hk.beginNext hidle

/-! ## Entries -/

theorem Pending.mono {c' : State} {id : Binary} {dueAt : ℕ} (hp : Pending c id dueAt)
    (htimers : ∀ t ∈ c.timers, t.id = id → t ∈ c'.timers)
    (hmailbox : ∀ m ∈ c.mailbox, m.1 = id → m ∈ c'.mailbox) : Pending c' id dueAt := by
  rcases hp with ⟨t, ht, hid, hdue⟩ | hmem
  · exact .inl ⟨t, htimers t ht hid, hid, hdue⟩
  · exact .inr (hmailbox _ hmem rfl)

/-- What another schedule's entry needs is not touched. -/
theorem Waiting.mono {c' : State} {id : Binary} {entry : Entry} (hw : Waiting c id entry)
    (htimers : ∀ t ∈ c.timers, t.id = id → t ∈ c'.timers)
    (hmailbox : ∀ m ∈ c.mailbox, m.1 = id → m ∈ c'.mailbox)
    (hoperation : c'.operation = c.operation) (hoperations : c.operations ⊆ c'.operations) :
    Waiting c' id entry := by
  cases hw with
  | pending hp => exact .pending (hp.mono htimers hmailbox)
  | running hop hid => exact .running (hoperation.trans hop) hid
  | queued hmem hid hrevision hdue => exact .queued (hoperations hmem) hid hrevision hdue

theorem Timed.place (ht : Timed c) (d : Declared) (dueAt : ℕ) :
    Timed (place c d.id d dueAt) := by
  constructor
  · intro t hmem
    rcases List.mem_cons.mp hmem with rfl | hmem
    · exact Nat.lt_succ_self _
    · exact (ht.fresh t hmem).trans (Nat.lt_succ_self _)
  · intro id entry ref hentry href
    simp only [Coordinator.place, Foundation.Table.get_insert] at hentry
    split at hentry
    case isTrue heq =>
      cases hentry
      cases href
      refine ⟨Nat.lt_succ_self _, fun t hmem htref ↦ ?_⟩
      rcases List.mem_cons.mp hmem with rfl | hmem
      · exact heq
      · exact absurd htref (ht.fresh t hmem).ne
    case isFalse =>
      obtain ⟨hlt, hnamed⟩ := ht.named id entry ref hentry href
      refine ⟨hlt.trans (Nat.lt_succ_self _), fun t hmem htref ↦ ?_⟩
      rcases List.mem_cons.mp hmem with rfl | hmem
      · exact absurd htref hlt.ne'
      · exact hnamed t hmem htref

/-- An entry that is put for a live schedule has its message. -/
theorem Kept.place {except : Option Binary} {d : Declared} (hk : Kept cron h engine c g except)
    (hexcept : except = none ∨ except = some d.id) (hknown : Known h engine d)
    (hlive : Live engine g d) : Kept cron h engine (place c d.id d d.nextAt) g none := by
  have hother {id : Binary} (hid : ¬ d.id = id) : some id ≠ except := by
    rcases hexcept with rfl | rfl
    · exact Option.some_ne_none _
    · exact fun heq ↦ hid (Option.some.inj heq).symm
  refine ⟨hk.timed.place d d.nextAt, hk.keyed, hk.recorded, ?_, ?_, ?_, ?_, hk.running,
    hk.queued, ?_⟩
  · intro id entry hentry
    simp only [Coordinator.place, Foundation.Table.get_insert] at hentry
    split at hentry
    case isTrue heq =>
      cases hentry
      exact heq
    case isFalse => exact hk.ids id entry hentry
  · intro id entry _ hentry
    simp only [Coordinator.place, Foundation.Table.get_insert] at hentry
    split at hentry
    case isTrue =>
      cases hentry
      exact hknown
    case isFalse hid => exact hk.known id entry (hother hid) hentry
  · intro id entry _ hentry
    simp only [Coordinator.place, Foundation.Table.get_insert] at hentry
    split at hentry
    case isTrue =>
      cases hentry
      exact hlive
    case isFalse hid => exact hk.live id entry (hother hid) hentry
  · intro id entry _ hentry
    simp only [Coordinator.place, Foundation.Table.get_insert] at hentry
    split at hentry
    case isTrue heq =>
      cases hentry
      exact .pending (.inl ⟨_, List.mem_cons_self, heq, rfl⟩)
    case isFalse hid =>
      exact (hk.waiting id entry (hother hid) hentry).mono
        (fun t hmem _ ↦ List.mem_cons_of_mem _ hmem) (fun m hmem _ ↦ hmem) rfl
        (List.Subset.refl _)
  · intro id stored _ hstored hcancelled hforgotten
    simp only [Coordinator.place, Foundation.Table.get_insert]
    split
    case isTrue => rfl
    case isFalse hid => exact hk.armed id stored (hother hid) hstored hcancelled hforgotten

theorem drop_get (c : State) (id k : Binary) :
    (drop c id).schedules[k]? = if id = k then none else c.schedules[k]? := by
  unfold drop
  split
  case h_1 hnone =>
    by_cases hid : id = k
    · rw [if_pos hid, ← hid, hnone]
    · rw [if_neg hid]
  case h_2 => exact Foundation.Table.get_erase _ _ _

theorem drop_kept {id k : Binary} {entry : Entry}
    (hentry : (drop c id).schedules[k]? = some entry) :
    ¬ id = k ∧ c.schedules[k]? = some entry := by
  rw [drop_get] at hentry
  split at hentry
  case isTrue => cases hentry
  case isFalse hid => exact ⟨hid, hentry⟩

/-- Only the dropped entry's own timer is cancelled. -/
theorem Waiting.drop {id k : Binary} {entry : Entry} (hw : Waiting c k entry) (ht : Timed c)
    (hid : ¬ id = k) : Waiting (drop c id) k entry := by
  unfold Coordinator.drop
  split
  case h_1 => exact hw
  case h_2 old hold =>
    refine hw.mono (fun t hmem htid ↦ ?_) (fun m hmem _ ↦ hmem) rfl (List.Subset.refl _)
    rw [List.mem_filter, bne_iff_ne]
    refine ⟨hmem, fun href ↦ ?_⟩
    exact hid (((ht.named id old t.ref hold href.symm).2 t hmem rfl).symm.trans htid)

theorem drop_same (c : State) (id : Binary) : (drop c id).operation = c.operation ∧
    (drop c id).operations = c.operations ∧ (drop c id).nextTimer = c.nextTimer ∧
    (drop c id).timers ⊆ c.timers := by
  unfold drop
  split
  case h_1 => exact ⟨rfl, rfl, rfl, List.Subset.refl _⟩
  case h_2 => exact ⟨rfl, rfl, rfl, List.filter_subset_self _⟩

/-- An entry that is dropped concerns its own schedule only. -/
theorem Kept.dropped {except : Option Binary} {id : Binary} (hk : Kept cron h engine c g except)
    (hexcept : except = none ∨ except = some id) : Kept cron h engine (drop c id) g (some id) := by
  have hother {k : Binary} (hid : some k ≠ some id) : some k ≠ except := by
    rcases hexcept with rfl | rfl
    · exact Option.some_ne_none _
    · exact hid
  obtain ⟨hoperation, hoperations, hnext, htimers⟩ := drop_same c id
  refine ⟨⟨?_, ?_⟩, hk.keyed, hk.recorded, ?_, ?_, ?_, ?_, ?_, ?_, ?_⟩
  · rw [hnext]
    exact fun t hmem ↦ hk.timed.fresh t (htimers hmem)
  · intro k entry ref hentry href
    obtain ⟨hlt, hnamed⟩ := hk.timed.named k entry ref (drop_kept hentry).2 href
    rw [hnext]
    exact ⟨hlt, fun t hmem ↦ hnamed t (htimers hmem)⟩
  · exact fun k entry hentry ↦ hk.ids k entry (drop_kept hentry).2
  · exact fun k entry hne hentry ↦ hk.known k entry (hother hne) (drop_kept hentry).2
  · exact fun k entry hne hentry ↦ hk.live k entry (hother hne) (drop_kept hentry).2
  · intro k entry hne hentry
    obtain ⟨hid, hentry⟩ := drop_kept hentry
    exact (hk.waiting k entry (hother hne) hentry).drop hk.timed hid
  · rw [hoperation]
    exact hk.running
  · rw [hoperations]
    exact hk.queued
  · intro k d hne hd hlive hout
    rw [drop_get, if_neg fun heq ↦ hne (congrArg some heq.symm)]
    exact hk.armed k d (hother hne) hd hlive hout

/-- An entry can be given up once its schedule is cancelled or forgotten. -/
theorem Kept.drop {except : Option Binary} {id : Binary} (hk : Kept cron h engine c g except)
    (hexcept : except = none ∨ except = some id)
    (hgone : id ∈ g.forgotten ∨ ∀ d, decls engine id = some d → d.cancelledAt ≠ none) :
    Kept cron h engine (drop c id) g none := by
  have hd := hk.dropped hexcept
  have hne {k : Binary} {entry : Entry}
      (hentry : (Coordinator.drop c id).schedules[k]? = some entry) : some k ≠ some id :=
    fun heq ↦ (drop_kept hentry).1 (Option.some.inj heq).symm
  refine ⟨hd.timed, hd.keyed, hd.recorded, hd.ids,
    fun k entry _ hentry ↦ hd.known k entry (hne hentry) hentry,
    fun k entry _ hentry ↦ hd.live k entry (hne hentry) hentry,
    fun k entry _ hentry ↦ hd.waiting k entry (hne hentry) hentry, hd.running, hd.queued, ?_⟩
  intro k d _ hstored hlive hout
  refine hd.armed k d (fun heq ↦ ?_) hstored hlive hout
  cases heq
  rcases hgone with hgone | hgone
  · exact hout hgone
  · exact hgone d hstored hlive

/-! ## Requests and messages -/

theorem Kept.enqueueOperation (hk : Kept cron h engine c g none) {request : Request}
    (hrequest : ∀ d next dueAt now, request = .deliver d next dueAt now →
      Known h engine d ∧ Planned cron d next dueAt now) :
    Kept cron h engine (enqueueOperation cron c request) g none := by
  refine Kept.continueOperations ⟨⟨hk.timed.fresh, hk.timed.named⟩, hk.keyed, hk.recorded, hk.ids,
    hk.known, hk.live, ?_, hk.running, ?_, hk.armed⟩
  · intro id entry hid hentry
    exact (hk.waiting id entry hid hentry).mono (fun t hmem _ ↦ hmem) (fun m hmem _ ↦ hmem) rfl
      (List.subset_append_left _ _)
  · intro d next dueAt now hmem
    rcases List.mem_append.mp hmem with hmem | hmem
    · exact hk.queued d next dueAt now hmem
    · exact hrequest d next dueAt now (List.mem_singleton.mp hmem).symm

/-- A timer that fires leaves its message behind. -/
theorem Kept.fire (hk : Kept cron h engine c g none) (timer : Timer) :
    Kept cron h engine (Coordinator.fire c timer) g none := by
  refine ⟨⟨?_, ?_⟩, hk.keyed, hk.recorded, hk.ids, hk.known, hk.live, ?_, hk.running, hk.queued,
    hk.armed⟩
  · exact fun t hmem ↦ hk.timed.fresh t (List.mem_of_mem_erase hmem)
  · intro id entry ref hentry href
    obtain ⟨hlt, hnamed⟩ := hk.timed.named id entry ref hentry href
    exact ⟨hlt, fun t hmem ↦ hnamed t (List.mem_of_mem_erase hmem)⟩
  · intro id entry hid hentry
    cases hk.waiting id entry hid hentry with
    | running hop hid => exact .running hop hid
    | queued hmem hid hrevision hdue => exact .queued hmem hid hrevision hdue
    | pending hp =>
      refine .pending ?_
      rcases hp with ⟨t, ht, htid, hdue⟩ | hmem
      · by_cases heq : t = timer
        · refine .inr (List.mem_append.mpr (.inr (List.mem_singleton.mpr ?_)))
          rw [← heq, htid, hdue]
        · exact .inl ⟨t, (List.mem_erase_of_ne heq).mpr ht, htid, hdue⟩
      · exact .inr (List.mem_append.mpr (.inl hmem))

/-- Without the message that was taken, an entry that was not waiting for it goes on waiting. -/
theorem Waiting.taken {id : Binary} {entry : Entry} {message : Binary × ℕ}
    (hw : Waiting c id entry) (hne : (id, entry.schedule.nextAt) ≠ message) :
    Waiting (taken c message) id entry := by
  cases hw with
  | running hop hid => exact .running hop hid
  | queued hmem hid hrevision hdue => exact .queued hmem hid hrevision hdue
  | pending hp =>
    refine .pending ?_
    rcases hp with ht | hmem
    · exact .inl ht
    · exact .inr ((List.mem_erase_of_ne hne).mpr hmem)

theorem Kept.taken (hk : Kept cron h engine c g none) {id : Binary} {dueAt : ℕ}
    {except : Option Binary}
    (hexcept : ∀ (entry : Entry), c.schedules[id]? = some entry → entry.schedule.nextAt = dueAt →
      except = some id) : Kept cron h engine (taken c (id, dueAt)) g except := by
  refine ⟨⟨hk.timed.fresh, hk.timed.named⟩, hk.keyed, hk.recorded, hk.ids,
    fun k entry _ ↦ hk.known k entry (Option.some_ne_none _),
    fun k entry _ ↦ hk.live k entry (Option.some_ne_none _), ?_, hk.running, hk.queued,
    fun k d _ ↦ hk.armed k d (Option.some_ne_none _)⟩
  intro k entry hk' hentry
  refine (hk.waiting k entry (Option.some_ne_none _) hentry).taken fun heq ↦ ?_
  obtain ⟨rfl, hdue⟩ := Prod.mk.inj heq
  exact hk' (hexcept entry hentry hdue).symm

/-- The entry whose delivery joins the queue gives up its timer. -/
theorem Kept.delivering {id : Binary} (hk : Kept cron h engine c g (some id)) {entry : Entry}
    {next : Declared} {dueAt now : ℕ} (hentry : c.schedules[id]? = some entry)
    (hknown : Known h engine entry.schedule) (hlive : Live engine g entry.schedule)
    (hplanned : Planned cron entry.schedule next dueAt now) :
    Kept cron h engine (Coordinator.enqueueOperation cron
      { c with schedules := c.schedules.insert id { entry with timer := none } }
      (.deliver entry.schedule next dueAt now)) g none := by
  have hid := hk.ids id entry hentry
  have hother {k : Binary} (hk' : ¬ id = k) : some k ≠ some id :=
    fun heq ↦ hk' (Option.some.inj heq).symm
  have hget {k : Binary} {e : Entry}
      (he : (c.schedules.insert id { entry with timer := none })[k]? = some e) :
      (id = k ∧ e = { entry with timer := none }) ∨ ¬ id = k ∧ c.schedules[k]? = some e := by
    rw [Foundation.Table.get_insert] at he
    split at he
    case isTrue heq =>
      cases he
      exact .inl ⟨heq, rfl⟩
    case isFalse hne => exact .inr ⟨hne, he⟩
  refine Kept.continueOperations ⟨⟨hk.timed.fresh, ?_⟩, hk.keyed, hk.recorded, ?_, ?_, ?_, ?_,
    hk.running, ?_, ?_⟩
  · intro k e ref he href
    rcases hget he with ⟨-, rfl⟩ | ⟨-, he⟩
    · cases href
    · exact hk.timed.named k e ref he href
  · intro k e he
    rcases hget he with ⟨rfl, rfl⟩ | ⟨-, he⟩
    · exact hid
    · exact hk.ids k e he
  · intro k e _ he
    rcases hget he with ⟨-, rfl⟩ | ⟨hne, he⟩
    · exact hknown
    · exact hk.known k e (hother hne) he
  · intro k e _ he
    rcases hget he with ⟨-, rfl⟩ | ⟨hne, he⟩
    · exact hlive
    · exact hk.live k e (hother hne) he
  · intro k e _ he
    rcases hget he with ⟨rfl, rfl⟩ | ⟨hne, he⟩
    · exact .queued (List.mem_append.mpr (.inr List.mem_cons_self)) hid rfl hplanned.due
    · exact (hk.waiting k e (hother hne) he).mono (fun t hmem _ ↦ hmem) (fun m hmem _ ↦ hmem) rfl
        (List.subset_append_left _ _)
  · intro d next' dueAt' now' hmem
    rcases List.mem_append.mp hmem with hmem | hmem
    · exact hk.queued d next' dueAt' now' hmem
    · cases List.mem_singleton.mp hmem
      exact ⟨hknown, hplanned⟩
  · intro k d _ hd hcancelled hout
    by_cases hne : id = k
    · rw [Foundation.Table.get_insert, if_pos hne]
      rfl
    · rw [Foundation.Table.get_insert, if_neg hne]
      exact hk.armed k d (hother hne) hd hcancelled hout

/-- A due message that is handled: the entry waits anew, its delivery is queued, or it is given up
because there is nothing to wait for after it. -/
theorem Kept.handleDue (hk : Kept cron h engine c g none) {id : Binary} {dueAt now : ℕ} :
    Kept cron h engine (Coordinator.handleDue cron (Coordinator.taken c (id, dueAt)) id dueAt now)
      (if exhausted cron c id dueAt now then ⟨insert id g.forgotten, g.uncertain⟩ else g) none := by
  unfold Coordinator.handleDue
  split
  case h_1 hnone =>
    have hentry : (c.schedules[id]?).filter (fun entry ↦ entry.schedule.nextAt == dueAt) = none :=
      hnone
    simp only [exhausted, hentry, Option.any_none, Bool.false_eq_true, if_false]
    refine hk.taken fun entry hstored hdue ↦ ?_
    rw [hstored, Option.filter_some, if_pos (beq_iff_eq.mpr hdue)] at hentry
    cases hentry
  case h_2 entry hfilter =>
    have hfilter' : (c.schedules[id]?).filter (fun entry ↦ entry.schedule.nextAt == dueAt) =
        some entry := hfilter
    obtain ⟨hentry, hdue⟩ := Option.filter_eq_some_iff.mp hfilter'
    rw [beq_iff_eq] at hdue
    have hid := hk.ids id entry hentry
    have hknown := hk.known id entry (Option.some_ne_none _) hentry
    have hlive := hk.live id entry (Option.some_ne_none _) hentry
    have htaken : Kept cron h engine (Coordinator.taken c (id, dueAt)) g (some id) :=
      hk.taken fun _ _ _ ↦ rfl
    simp only [exhausted, hfilter', Option.any_some]
    split
    case isTrue hearly =>
      rw [if_neg (by simp [hearly])]
      have hplaced := htaken.place (.inr (congrArg some hid.symm)) hknown hlive
      rw [hid] at hplaced
      exact hplaced
    case isFalse hlate =>
      cases hnext : advanced cron entry.schedule dueAt now with
      | none =>
        rw [if_pos (by simp [not_lt.mp hlate])]
        have hforgotten : Kept cron h engine (Coordinator.taken c (id, dueAt))
            ⟨insert id g.forgotten, g.uncertain⟩ (some id) := by
          refine ⟨htaken.timed, htaken.keyed, htaken.recorded, htaken.ids, htaken.known,
            htaken.live, htaken.waiting, htaken.running, htaken.queued, ?_⟩
          exact fun k d hk' hd hcancelled hout ↦ htaken.armed k d hk' hd hcancelled
            fun hin ↦ hout (Finset.mem_insert_of_mem hin)
        exact hforgotten.drop (.inr rfl) (.inl (Finset.mem_insert_self _ _))
      | some next =>
        rw [if_neg (by simp)]
        exact htaken.delivering hentry hknown hlive ⟨hdue, hnext⟩

/-! ## What the engine does -/

/-- The engine has done something about the schedule `id` and nothing about another, and what was
known of any schedule still is, with `h'` in the place of `h`. -/
structure Moved (h h' : Binary → ℕ → ScheduleDefinition) (engine engine' : Engine.State)
    (id : Binary) : Prop where
  others : ∀ k, k ≠ id → decls engine' k = decls engine k
  known : ∀ d : Declared, Known h engine d → Known h' engine' d
  keyed : ∀ k d, decls engine' k = some d → d.id = k
  recorded : ∀ k d, decls engine' k = some d → h' k d.revision = d.definition

theorem Moved.of_eq {engine' : Engine.State} {except : Option Binary}
    (hk : Kept cron h engine c g except) (hdecls : decls engine' = decls engine) (id : Binary) :
    Moved h h engine engine' id := by
  refine ⟨fun k _ ↦ by rw [hdecls], fun d hd ↦ ⟨hd.definition, ?_⟩, ?_, ?_⟩
  · rw [revisionAt, hdecls]
    exact hd.revision
  · rw [hdecls]
    exact hk.keyed
  · rw [hdecls]
    exact hk.recorded

/-- A new revision is remembered with its definition. -/
theorem Moved.of_update {engine' : Engine.State} {except : Option Binary} {id : Binary} {d : Decl}
    (hk : Kept cron h engine c g except)
    (hdecls : decls engine' = Function.update (decls engine) id (some d)) (hid : d.id = id)
    (hrevision : d.revision = revisionAt engine id + 1) :
    ∃ h', Moved h h' engine engine' id ∧ h' id d.revision = d.definition := by
  refine ⟨fun k r ↦ if k = id ∧ r = d.revision then d.definition else h k r,
    ⟨?_, ?_, ?_, ?_⟩, if_pos ⟨rfl, rfl⟩⟩
  · intro k hk'
    rw [hdecls, Function.update_of_ne hk']
  · intro d' hd'
    have hle := hd'.revision
    constructor
    · rw [if_neg]
      · exact hd'.definition
      · rintro ⟨hid', heq⟩
        rw [hid', ← Nat.lt_succ_iff, Nat.succ_eq_add_one, ← hrevision, heq] at hle
        exact lt_irrefl _ hle
    · rw [revisionAt, hdecls]
      by_cases hid' : d'.id = id
      · rw [hid', Function.update_self, Option.map_some, Option.getD_some, hrevision]
        rw [hid'] at hle
        exact hle.trans (Nat.le_succ _)
      · rw [Function.update_of_ne hid']
        exact hle
  · intro k d' hd'
    rw [hdecls] at hd'
    by_cases hk' : k = id
    · rw [hk', Function.update_self] at hd'
      cases hd'
      rw [hid, hk']
    · rw [Function.update_of_ne hk'] at hd'
      exact hk.keyed k d' hd'
  · intro k d' hd'
    rw [hdecls] at hd'
    by_cases hk' : k = id
    · rw [hk', Function.update_self] at hd'
      cases hd'
      rw [if_pos ⟨hk', rfl⟩]
    · rw [Function.update_of_ne hk'] at hd'
      rw [if_neg fun heq ↦ hk' heq.1]
      exact hk.recorded k d' hd'

/-- The running operation has ended and its schedule is about to be dealt with. -/
theorem Kept.moved {h' : Binary → ℕ → ScheduleDefinition} {engine' : Engine.State} {g' : Ledger}
    {id : Binary} (hk : Kept cron h engine c g none) (hmoved : Moved h h' engine engine' id)
    (hforgotten : ∀ k, k ≠ id → k ∉ g'.forgotten → k ∉ g.forgotten)
    (huncertain : ∀ k, k ≠ id → k ∉ g'.uncertain → k ∉ g.uncertain)
    (hrunning : ∀ d next dueAt now, c.operation = some (.deliver d next dueAt now) → d.id = id) :
    Kept cron h' engine' { c with operation := none } g' (some id) := by
  refine ⟨⟨hk.timed.fresh, hk.timed.named⟩, hmoved.keyed, hmoved.recorded, hk.ids, ?_, ?_, ?_, ?_,
    ?_, ?_⟩
  · exact fun k entry _ hentry ↦ hmoved.known _ (hk.known k entry (Option.some_ne_none _) hentry)
  · intro k entry hne hentry
    have hne' : k ≠ id := fun heq ↦ hne (congrArg some heq)
    obtain ⟨stored, hstored, hlive, hdefinition, hle, hexact⟩ :=
      hk.live k entry (Option.some_ne_none _) hentry
    rw [hk.ids k entry hentry] at hstored hexact
    refine ⟨stored, ?_, hlive, hdefinition, hle, fun hout ↦ ?_⟩
    · rw [hk.ids k entry hentry, hmoved.others k hne']
      exact hstored
    · rw [hk.ids k entry hentry] at hout
      exact hexact (huncertain k hne' hout)
  · intro k entry hne hentry
    cases hk.waiting k entry (Option.some_ne_none _) hentry with
    | pending hp => exact .pending hp
    | queued hmem hid hrevision hdue => exact .queued hmem hid hrevision hdue
    | running hop hid =>
      exact absurd (congrArg some (hid.symm.trans (hrunning _ _ _ _ hop))) hne
  · intro d next dueAt now hop
    cases hop
  · intro d next dueAt now hmem
    obtain ⟨hknown, hplanned⟩ := hk.queued d next dueAt now hmem
    exact ⟨hmoved.known d hknown, hplanned⟩
  · intro k d hne hd hlive hout
    have hne' : k ≠ id := fun heq ↦ hne (congrArg some heq)
    rw [hmoved.others k hne'] at hd
    exact hk.armed k d (Option.some_ne_none _) hd hlive (hforgotten k hne' hout)

/-- The end of an operation that was no delivery is waited for by no entry. -/
theorem Kept.ended {op : Operation} (hk : Kept cron h engine c g none) (hop : c.operation = some op)
    (hother : ∀ d next dueAt now, op ≠ .deliver d next dueAt now) :
    Kept cron h engine { c with operation := none } g none := by
  refine ⟨⟨hk.timed.fresh, hk.timed.named⟩, hk.keyed, hk.recorded, hk.ids, hk.known, hk.live, ?_,
    ?_, hk.queued, hk.armed⟩
  · intro id entry hid hentry
    cases hk.waiting id entry hid hentry with
    | pending hp => exact .pending hp
    | queued hmem hid hrevision hdue => exact .queued hmem hid hrevision hdue
    | running hdeliver =>
      rw [hop] at hdeliver
      exact absurd (Option.some.inj hdeliver) (hother _ _ _ _)
  · intro d next dueAt now heq
    cases heq

/-- What the engine does otherwise leaves the coordinator in step. -/
theorem Kept.congr {engine' : Engine.State} (hk : Kept cron h engine c g none)
    (hdecls : decls engine' = decls engine) : Kept cron h engine' c g none := by
  have hknown {d : Declared} (hd : Known h engine d) : Known h engine' d := by
    refine ⟨hd.definition, ?_⟩
    rw [revisionAt, hdecls]
    exact hd.revision
  have hlive {d : Declared} (hd : Live engine g d) : Live engine' g d := by
    rw [Live, hdecls]
    exact hd
  refine ⟨hk.timed, ?_, ?_, hk.ids, fun id entry hid hentry ↦ hknown (hk.known id entry hid hentry),
    fun id entry hid hentry ↦ hlive (hk.live id entry hid hentry), hk.waiting, ?_, ?_, ?_⟩
  · rw [hdecls]
    exact hk.keyed
  · rw [hdecls]
    exact hk.recorded
  · intro d next dueAt now hop
    obtain ⟨hd, hl, hplanned⟩ := hk.running d next dueAt now hop
    exact ⟨hknown hd, hlive hl, hplanned⟩
  · intro d next dueAt now hmem
    obtain ⟨hd, hplanned⟩ := hk.queued d next dueAt now hmem
    exact ⟨hknown hd, hplanned⟩
  · rw [hdecls]
    exact hk.armed

/-! ## The end of an operation -/

/-- The schedule an operation is about. -/
def Operation.subject : Operation → Binary
  | .register schedule | .cancel schedule | .deliver schedule _ _ _ => schedule.id

/-- What an answered operation has found or made of its schedule. -/
def Operation.Meets (d : Decl) : Operation → Prop
  | .register schedule | .deliver schedule _ _ _ =>
    d.cancelledAt = none ∧ d.definition = schedule.definition
  | .cancel _ => d.cancelledAt.isSome = true

/-- How the engine stands after an operation that ended so. -/
inductive Settles (h h' : Binary → ℕ → ScheduleDefinition) (engine engine' : Engine.State)
    (op : Operation) : Ending → Prop
  | refused {r : Refusal} : h' = h → decls engine' = decls engine →
      Settles h h' engine engine' op (.refused r)
  | ok {stored : Schedule} : decls engine' op.subject = some (decl stored) →
      h' op.subject stored.revision = stored.definition → op.Meets (decl stored) →
      Settles h h' engine engine' op (.ok stored)
  | unknown : (∀ d next dueAt now, op = .deliver d next dueAt now →
      ∃ stored, decls engine' d.id = some stored ∧ stored.cancelledAt = none ∧
        stored.definition = d.definition ∧ d.nextAt ≤ stored.nextAt) →
      Settles h h' engine engine' op .unknown

theorem Moved.of_declares {id : Binary} {x : Executed} {P W : Decl → Prop}
    {except : Option Binary} (hk : Kept cron h engine c g except) (hd : Declares engine id x P W)
    (hW : ∀ d, W d → d.id = id ∧ d.revision = revisionAt engine id + 1) :
    ∃ h', Moved h h' engine x.state id ∧
      ((∃ r, x.answer = .error r ∧ h' = h ∧ decls x.state = decls engine) ∨
        ∃ stored, x.answer = .ok stored ∧ decls x.state id = some (decl stored) ∧
          h' id stored.revision = stored.definition ∧ (P (decl stored) ∨ W (decl stored))) := by
  cases hd with
  | refused hanswer hdecls => exact ⟨h, .of_eq hk hdecls id, .inl ⟨_, hanswer, rfl, hdecls⟩⟩
  | @found stored hanswer hfound hP hdecls =>
    refine ⟨h, .of_eq hk hdecls id, .inr ⟨stored, hanswer, ?_, ?_, .inl hP⟩⟩
    · rw [hdecls]
      exact hfound
    · exact hk.recorded id _ hfound
  | @wrote stored hanswer hwrote hdecls =>
    obtain ⟨hid, hrevision⟩ := hW _ hwrote
    obtain ⟨h', hmoved, hrecorded⟩ := Moved.of_update hk hdecls hid hrevision
    refine ⟨h', hmoved, .inr ⟨stored, hanswer, ?_, hrecorded, .inr hwrote⟩⟩
    rw [hdecls, Function.update_self]

/-- What executing a command does: it is refused and changes no declaration, or it is answered with
the declaration the operation asked for. -/
theorem execute_moved {op : Operation} {conditions : Conditions} {x : Executed}
    (hk : Kept cron h engine c g none) (hop : c.operation = some op)
    (hinsert : Restates engine conditions.insert) (hadvance : Restates engine conditions.advance)
    (hx : execute vm jobs engine op conditions = some x) :
    ∃ h', Moved h h' engine x.state op.subject ∧
      ((∃ r, x.answer = .error r ∧ h' = h ∧ decls x.state = decls engine) ∨
        ∃ stored, x.answer = .ok stored ∧ decls x.state op.subject = some (decl stored) ∧
          h' op.subject stored.revision = stored.definition ∧ op.Meets (decl stored) ∧
          ∀ d next dueAt now, op = .deliver d next dueAt now → d.nextAt ≤ stored.nextAt) := by
  have hrevision {id : Binary} {d : Decl} (hd : decls engine id = some d) :
      revisionAt engine id = d.revision := by
    rw [revisionAt, hd]
    rfl
  cases op with
  | register d =>
    obtain ⟨h', hmoved, hanswer⟩ := Moved.of_declares hk (registerSchedule_declares hadvance hx)
      (by rintro _ rfl; exact ⟨rfl, rfl⟩)
    refine ⟨h', hmoved, hanswer.imp_right ?_⟩
    rintro ⟨stored, hok, hstored, hrecorded, hfound | hwrote⟩
    · exact ⟨stored, hok, hstored, hrecorded, hfound, fun _ _ _ _ heq ↦ by cases heq⟩
    · refine ⟨stored, hok, hstored, hrecorded, ?_, fun _ _ _ _ heq ↦ by cases heq⟩
      rw [hwrote]
      exact ⟨rfl, rfl⟩
  | cancel d =>
    obtain ⟨h', hmoved, hanswer⟩ := Moved.of_declares hk (cancelSchedule_declares hadvance hx) (by
      rintro _ ⟨-, stored, hstored, hrev, rfl⟩
      exact ⟨rfl, by rw [hrevision hstored, hrev]⟩)
    refine ⟨h', hmoved, hanswer.imp_right ?_⟩
    rintro ⟨stored, hok, hstored, hrecorded, hfound | hwrote⟩
    · exact ⟨stored, hok, hstored, hrecorded, hfound, fun _ _ _ _ heq ↦ by cases heq⟩
    · exact ⟨stored, hok, hstored, hrecorded, hwrote.1, fun _ _ _ _ heq ↦ by cases heq⟩
  | deliver d next dueAt now =>
    obtain ⟨-, -, hplanned⟩ := hk.running d next dueAt now hop
    simp only [execute] at hx
    split at hx
    case h_1 =>
      cases hx
      exact ⟨h, .of_eq hk rfl _, .inl ⟨_, rfl, rfl, rfl⟩⟩
    case h_2 =>
      obtain ⟨h', hmoved, hanswer⟩ := Moved.of_declares hk
        (deliverSchedule_declares hinsert hadvance hk.keyed hx) (by
          rintro _ ⟨stored, hstored, -, -, -, rfl⟩
          have hid : stored.id = d.id := hk.keyed d.id stored hstored
          exact ⟨hid, by rw [hrevision hstored]⟩)
      refine ⟨h', hmoved, hanswer.imp_right ?_⟩
      rintro ⟨stored, hok, hstored, hrecorded, ⟨hdefinition, hcancelled, hlater⟩ | hwrote⟩
      · refine ⟨stored, hok, hstored, hrecorded, ⟨hcancelled, hdefinition⟩, ?_⟩
        rintro _ _ _ _ ⟨⟩
        exact hplanned.due.le.trans hlater.le
      · obtain ⟨old, -, hdefinition, hcancelled, -, hnext⟩ := hwrote
        refine ⟨stored, hok, hstored, hrecorded, ?_, ?_⟩
        · rw [hnext]
          exact ⟨hcancelled, hdefinition⟩
        · rintro _ _ _ _ ⟨⟩
          have hnextAt : stored.nextAt = next.nextAt := congrArg Decl.nextAt hnext
          rw [hnextAt, hplanned.due]
          exact hplanned.spec.2.2.le

/-- A delivery that has not reached the engine leaves its schedule where it was. -/
theorem Kept.undelivered {op : Operation} (hk : Kept cron h engine c g none)
    (hop : c.operation = some op) : ∀ d next dueAt now, op = .deliver d next dueAt now →
      ∃ stored, decls engine d.id = some stored ∧ stored.cancelledAt = none ∧
        stored.definition = d.definition ∧ d.nextAt ≤ stored.nextAt := by
  rintro d next dueAt now rfl
  obtain ⟨-, ⟨stored, hstored, hlive, hdefinition, hle, -⟩, -⟩ := hk.running d next dueAt now hop
  exact ⟨stored, hstored, hlive, hdefinition, hle⟩

theorem settle_settles {op : Operation} {outcome : Outcome} {ending : Ending}
    {engine' : Engine.State} {actions : List Action} (hk : Kept cron h engine c g none)
    (hop : c.operation = some op)
    (hrestating : Restating vm ⟨engine, c⟩ (.result outcome))
    (hsettle : settle vm jobs engine op outcome = some (ending, engine', actions)) :
    ∃ h', Moved h h' engine engine' op.subject ∧ Settles h h' engine engine' op ending := by
  cases outcome with
  | refused r =>
    cases hsettle
    exact ⟨h, .of_eq hk rfl _, .refused rfl rfl⟩
  | answered conditions =>
    simp only [settle, Option.map_eq_some_iff] at hsettle
    obtain ⟨x, hx, heq⟩ := hsettle
    cases heq
    obtain ⟨h', hmoved, ⟨r, hr, rfl, hdecls⟩ | ⟨stored, hok, hstored, hrecorded, hmeets, -⟩⟩ :=
      execute_moved hk hop hrestating.1 hrestating.2 hx
    · rw [hr]
      exact ⟨_, hmoved, .refused rfl hdecls⟩
    · rw [hok]
      exact ⟨h', hmoved, .ok hstored hrecorded hmeets⟩
  | lost conditions =>
    cases conditions with
    | none =>
      cases hsettle
      exact ⟨h, .of_eq hk rfl _, .unknown (hk.undelivered hop)⟩
    | some conditions =>
      simp only [settle, Option.map_eq_some_iff] at hsettle
      obtain ⟨x, hx, heq⟩ := hsettle
      cases heq
      obtain ⟨h', hmoved, ⟨r, -, rfl, hdecls⟩ | ⟨stored, -, hstored, -, hmeets, hlater⟩⟩ :=
        execute_moved hk hop hrestating.1 hrestating.2 hx
      · refine ⟨_, hmoved, .unknown ?_⟩
        rw [hdecls]
        exact hk.undelivered hop
      · refine ⟨h', hmoved, .unknown ?_⟩
        rintro d next dueAt now rfl
        exact ⟨decl stored, hstored, hmeets.1, hmeets.2, hlater d next dueAt now rfl⟩

theorem drop_idle (c : State) (id : Binary) :
    { drop c id with operation := none } = drop { c with operation := none } id := by
  simp only [drop]
  split <;> rfl

theorem completeOperation_idle (c : State) (op : Operation) (ending : Ending) :
    { completeOperation c op ending with operation := none } =
      completeOperation { c with operation := none } op ending := by
  cases op <;> cases ending <;> simp only [completeOperation, arm, place, ← drop_idle]
  split
  · rfl
  · rfl

/-- A schedule as its stored declaration has it. -/
theorem live_durable {d : Declared} {stored : Schedule} {id : Binary} (hid : d.id = id)
    (hstored : decls engine id = some (decl stored)) (hcancelled : stored.cancelledAt = none)
    (hdefinition : stored.definition = d.definition)
    (hrecorded : h id stored.revision = stored.definition) :
    Known h engine (durable d stored) ∧ Live engine g (durable d stored) := by
  have hid' : (durable d stored).id = id := hid
  refine ⟨⟨?_, ?_⟩, decl stored, ?_, hcancelled, hdefinition, le_rfl, fun _ ↦ rfl⟩
  · rw [hid']
    exact hrecorded.trans hdefinition
  · rw [hid', revisionAt, hstored]
    exact le_rfl
  · rw [hid']
    exact hstored

theorem Kept.finished {h' : Binary → ℕ → ScheduleDefinition} {engine' : Engine.State}
    {op : Operation} {ending : Ending} (hk : Kept cron h engine c g none) (hop : c.operation = some op)
    (hmoved : Moved h h' engine engine' op.subject)
    (hs : Settles h h' engine engine' op ending) :
    Kept cron h' engine' (finished cron c op ending) (g.settled op ending) none := by
  have hrunning : ∀ d next dueAt now, c.operation = some (.deliver d next dueAt now) →
      d.id = op.subject := by
    intro d next dueAt now heq
    rw [hop] at heq
    cases heq
    rfl
  rw [Coordinator.finished, completeOperation_idle]
  refine Kept.continueOperations ?_
  -- what is left of the invariant once the schedule of the operation is set aside
  have hapart {r : Ledger} (hforgotten : ∀ k, k ≠ op.subject → k ∉ r.forgotten → k ∉ g.forgotten)
      (huncertain : ∀ k, k ≠ op.subject → k ∉ r.uncertain → k ∉ g.uncertain) :
      Kept cron h' engine' { c with operation := none } r (some op.subject) :=
    hk.moved hmoved hforgotten huncertain hrunning
  have herase {f : Finset Binary} {id : Binary} : ∀ k, k ≠ id → k ∉ f.erase id → k ∉ f :=
    fun k hne hout hin ↦ hout (Finset.mem_erase.mpr ⟨hne, hin⟩)
  have hinsert {f : Finset Binary} {id : Binary} : ∀ k, k ≠ id → k ∉ insert id f → k ∉ f :=
    fun k _ hout hin ↦ hout (Finset.mem_insert_of_mem hin)
  have hsame {f : Finset Binary} {id : Binary} : ∀ k, k ≠ id → k ∉ f → k ∉ f :=
    fun _ _ hout ↦ hout
  cases op with
  | register d =>
    cases hs with
    | refused hh hdecls =>
      subst hh
      exact (hk.ended hop fun _ _ _ _ heq ↦ by cases heq).congr hdecls
    | @ok stored hstored hrecorded hmeets =>
      have hdropped := (hapart (r := g.settled (.register d) (.ok stored)) herase herase).dropped
        (.inr rfl)
      obtain ⟨hknown, hlive⟩ := live_durable rfl hstored hmeets.1 hmeets.2 hrecorded
      exact hdropped.place (d := durable d stored) (.inr rfl) hknown hlive
    | unknown =>
      exact (hapart (r := g.settled (.register d) .unknown) hinsert hsame).drop (.inr rfl)
        (.inl (Finset.mem_insert_self _ _))
  | cancel d =>
    cases hs with
    | refused hh hdecls =>
      subst hh
      exact (hk.ended hop fun _ _ _ _ heq ↦ by cases heq).congr hdecls
    | @ok stored hstored hrecorded hmeets =>
      refine (hapart (r := g) hsame hsame).drop (.inr rfl) (.inr fun d' hd' ↦ ?_)
      rw [show decls engine' d.id = some (decl stored) from hstored] at hd'
      cases hd'
      exact fun hnone ↦ by simp [Operation.Meets, hnone] at hmeets
    | unknown =>
      exact (hapart (r := g.settled (.cancel d) .unknown) hinsert hsame).drop (.inr rfl)
        (.inl (Finset.mem_insert_self _ _))
  | deliver d next dueAt now =>
    obtain ⟨hknown, ⟨stored, hstored, hcancelled, hdefinition, hle, hexact⟩, hplanned⟩ :=
      hk.running d next dueAt now hop
    cases hs with
    | @refused r hh hdecls =>
      subst hh
      simp only [completeOperation, Ledger.settled]
      split
      case isTrue =>
        have hapart' := hapart (r := ⟨g.forgotten.erase d.id, g.uncertain⟩) herase hsame
        rw [← hplanned.due]
        refine hapart'.place (.inr rfl) (hmoved.known d hknown) ⟨stored, ?_, hcancelled,
          hdefinition, hle, hexact⟩
        rw [hdecls]
        exact hstored
      case isFalse =>
        exact (hapart (r := ⟨insert d.id g.forgotten, g.uncertain⟩) hinsert hsame).drop (.inr rfl)
          (.inl (Finset.mem_insert_self _ _))
    | @ok stored' hstored' hrecorded hmeets =>
      have hapart' := hapart (r := g.settled (.deliver d next dueAt now) (.ok stored')) herase
        herase
      obtain ⟨hknown', hlive⟩ := live_durable hplanned.spec.1 hstored' hmeets.1
        (hmeets.2.trans hplanned.spec.2.1.symm) hrecorded
      have hplaced := hapart'.place (d := durable next stored')
        (.inr (congrArg some hplanned.spec.1.symm)) hknown' hlive
      rw [show (durable next stored').id = d.id from hplanned.spec.1] at hplaced
      exact hplaced
    | unknown hdelivered =>
      obtain ⟨stored', hstored', hcancelled', hdefinition', hle'⟩ :=
        hdelivered d next dueAt now rfl
      have hapart' := hapart (r := g.settled (.deliver d next dueAt now) .unknown) herase hinsert
      simp only [completeOperation]
      rw [← hplanned.due]
      exact hapart'.place (.inr rfl) (hmoved.known d hknown) ⟨stored', hstored', hcancelled',
        hdefinition', hle', fun hout ↦ absurd (Finset.mem_insert_self _ _) hout⟩

/-! ## Starting -/

variable (cron) in
theorem Kept.arm_all {l : List (Binary × Schedule)} :
    ∀ {c : State}, Kept cron h engine c g none →
      (∀ x ∈ l, engine.schedules[x.1]? = some x.2) →
      Kept cron h engine (l.foldl (fun c x ↦
        if armable cron x.2 then arm c x.2.id (fromDurable x.2) else c) c) g none ∧
      (∀ id : Binary, (c.schedules[id]?).isSome → ((l.foldl (fun c x ↦
        if armable cron x.2 then arm c x.2.id (fromDurable x.2) else c) c).schedules[id]?).isSome) ∧
      ∀ x ∈ l, armable cron x.2 = true → ((l.foldl (fun c x ↦
        if armable cron x.2 then arm c x.2.id (fromDurable x.2) else c) c).schedules[x.1]?).isSome := by
  induction l with
  | nil => exact fun hk _ ↦ ⟨hk, fun _ hsome ↦ hsome, fun x hx ↦ absurd hx List.not_mem_nil⟩
  | cons x l ih =>
    intro c hk hstored
    have hx := hstored x List.mem_cons_self
    have hdecl : decls engine x.1 = some (decl x.2) := decls_of_some hx
    have hid : x.2.id = x.1 := hk.keyed _ _ hdecl
    rw [List.foldl_cons]
    split
    case isTrue harmable =>
      rw [armable, Bool.and_eq_true, Option.isNone_iff_eq_none] at harmable
      have hplaced : Kept cron h engine (Coordinator.arm c x.2.id (fromDurable x.2)) g none := by
        have hdecl' : decls engine (fromDurable x.2).id = some (decl x.2) := by
          rw [show (fromDurable x.2).id = x.1 from hid]
          exact hdecl
        refine hk.place (d := fromDurable x.2) (.inl rfl) ⟨?_, ?_⟩ ⟨decl x.2, hdecl',
          harmable.1, rfl, le_rfl, fun _ ↦ rfl⟩
        · exact hk.recorded _ _ hdecl'
        · rw [revisionAt, hdecl']
          exact le_rfl
      obtain ⟨hkept, hmono, hall⟩ := ih hplaced fun y hy ↦ hstored y (List.mem_cons_of_mem _ hy)
      refine ⟨hkept, fun id hsome ↦ hmono id ?_, ?_⟩
      · simp only [Coordinator.arm, Coordinator.place, Foundation.Table.get_insert]
        split
        · rfl
        · exact hsome
      · intro y hy hyarmable
        rcases List.mem_cons.mp hy with rfl | hy
        · refine hmono _ ?_
          simp only [Coordinator.arm, Coordinator.place, Foundation.Table.get_insert, hid, if_true]
          rfl
        · exact hall y hy hyarmable
    case isFalse hother =>
      obtain ⟨hkept, hmono, hall⟩ := ih hk fun y hy ↦ hstored y (List.mem_cons_of_mem _ hy)
      refine ⟨hkept, hmono, ?_⟩
      intro y hy hyarmable
      rcases List.mem_cons.mp hy with rfl | hy
      · exact absurd hyarmable hother
      · exact hall y hy hyarmable

/-- A coordinator that has just started has everything it can arm. -/
theorem kept_start (hkeyed : ∀ id d, decls engine id = some d → d.id = id) :
    ∃ h, Kept cron h engine (start cron engine) (.start cron engine) none := by
  let h : Binary → ℕ → ScheduleDefinition := fun id _ ↦
    ((decls engine id).map Decl.definition).getD
      ⟨.null, .latest, .every 1, .null, .allow, [], none⟩
  have hstored : ∀ x ∈ engine.schedules.toList, engine.schedules[x.1]? = some x.2 :=
    fun x hx ↦ Std.ExtTreeMap.mem_toList_iff_getElem?_eq_some.mp hx
  -- nothing is armed yet, so everything counts as forgotten
  have hempty : Kept cron h engine ⟨∅, none, [], [], [], 0⟩ ⟨engine.schedules.keys.toFinset, ∅⟩ none := by
    refine ⟨⟨?_, ?_⟩, hkeyed, ?_, ?_, ?_, ?_, ?_, ?_, ?_, ?_⟩
    · exact fun t ht ↦ absurd ht List.not_mem_nil
    · intro id entry ref hentry
      simp at hentry
    · intro id d hd
      simp only [h, hd, Option.map_some, Option.getD_some]
    · intro id entry hentry
      simp at hentry
    · intro id entry _ hentry
      simp at hentry
    · intro id entry _ hentry
      simp at hentry
    · intro id entry _ hentry
      simp at hentry
    · intro d next dueAt now hop
      cases hop
    · exact fun d next dueAt now hmem ↦ absurd hmem List.not_mem_nil
    · intro id d _ hd _ hout
      refine absurd ?_ hout
      rw [List.mem_toFinset, Std.ExtTreeMap.mem_keys, Std.ExtTreeMap.mem_iff_isSome_getElem?]
      rw [decls, Option.map_eq_some_iff] at hd
      obtain ⟨stored, hstored, -⟩ := hd
      exact Option.isSome_of_eq_some hstored
  obtain ⟨hkept, -, hall⟩ := hempty.arm_all cron hstored
  refine ⟨h, hkept.timed, hkept.keyed, hkept.recorded, hkept.ids, hkept.known, hkept.live,
    hkept.waiting, hkept.running, hkept.queued, ?_⟩
  intro id d _ hd hcancelled hout
  rw [decls, Option.map_eq_some_iff] at hd
  obtain ⟨stored, hstored, rfl⟩ := hd
  refine hall (id, stored) (Std.ExtTreeMap.mem_toList_iff_getElem?_eq_some.mpr hstored) ?_
  by_contra harmable
  refine hout ?_
  rw [Ledger.start, List.mem_toFinset, List.mem_filter, Std.ExtTreeMap.mem_keys,
    Std.ExtTreeMap.mem_iff_isSome_getElem?, hstored]
  exact ⟨rfl, by simpa using harmable⟩

theorem keyed_of_starts (hs : Starts vm engine) : ∀ id d, decls engine id = some d → d.id = id := by
  obtain ⟨directory, config, r, segment, hr, rfl, -⟩ := hs
  intro id d hd
  rw [decls, Option.map_eq_some_iff] at hd
  obtain ⟨stored, hstored, rfl⟩ := hd
  exact (Reader.recover_sound vm (sound_candidate _ _) hr).schedules id stored hstored

/-! ## Runs -/

/-- The invariant of the system beside its ledger. -/
def Cached (cron : Cron κ) (x : System × Ledger) : Prop :=
  ∃ h, Kept cron h x.1.engine x.1.coordinator x.2 none

theorem cached_initial {x : System × Ledger} (hx : (ledgered cron vm jobs).initial x) :
    Cached cron x := by
  obtain ⟨⟨hstarts, hcoordinator⟩, hledger⟩ := hx
  rw [Cached, hcoordinator, hledger]
  exact kept_start (keyed_of_starts hstarts)

/-- **The step lemma.** -/
theorem cached_step {x y : System × Ledger} {l : Label} (hx : Cached cron x)
    (hrestating : Restating vm x.1 l) (hy : (ledgered cron vm jobs).step x l = some y) :
    Cached cron y := by
  obtain ⟨⟨engine, c⟩, g⟩ := x
  obtain ⟨h, hk⟩ := hx
  simp only [ledgered, Machine.observed, system, Option.map_eq_some_iff] at hy
  obtain ⟨t, ht, rfl⟩ := hy
  cases l with
  | register d =>
    simp only [step] at ht
    split at ht
    case isTrue =>
      cases ht
      exact ⟨h, hk.enqueueOperation fun _ _ _ _ heq ↦ by cases heq⟩
    case isFalse => cases ht
  | cancel id =>
    cases ht
    exact ⟨h, hk.enqueueOperation fun _ _ _ _ heq ↦ by cases heq⟩
  | fire ref =>
    simp only [step, Option.map_eq_some_iff] at ht
    obtain ⟨timer, -, rfl⟩ := ht
    exact ⟨h, hk.fire timer⟩
  | due id dueAt now =>
    simp only [step] at ht
    split at ht
    case isTrue =>
      cases ht
      exact ⟨h, hk.handleDue⟩
    case isFalse => cases ht
  | result outcome =>
    simp only [step, Option.bind_eq_some_iff, Option.map_eq_some_iff] at ht
    obtain ⟨op, hop, ⟨ending, engine', actions⟩, hsettle, rfl⟩ := ht
    obtain ⟨h', hmoved, hsettles⟩ := settle_settles hk hop hrestating hsettle
    refine ⟨h', ?_⟩
    simp only [Ledger.note, hop, Option.bind_some, hsettle, Option.map_some, Option.getD_some]
    exact hk.finished hop hmoved hsettles
  | engine a =>
    simp only [step] at ht
    split at ht
    case isFalse => cases ht
    case isTrue hforeign =>
      obtain ⟨engine', hengine, rfl⟩ := Option.map_eq_some_iff.mp ht
      refine ⟨h, hk.congr (handle_decls ?_ ?_ ?_ (toOption_eq_some.mp hengine))⟩
      · rintro op env rfl
        exact hrestating
      · rintro e env rfl
        exact Option.isNone_iff_eq_none.mp hforeign
      · rintro token stats admits rfl
        exact hrestating
  | restart engine' =>
    cases ht
    exact kept_start (keyed_of_starts hrestating)

/-- **Between operations the cache is exact.** Every entry stands for a schedule that the engine has
and that is not cancelled, and its message is pending; it waits for the stored occurrence, or for an
earlier one if a delivery of unknown outcome has not been settled since. And every live schedule has
an entry, unless it was forgotten. -/
theorem schedules_armed {x : System} {g : Ledger}
    (hx : (ledgered cron vm jobs).ReachableUnder (fun x l ↦ Restating vm x.1 l) (x, g))
    (hidle : x.coordinator.operation = none ∧ x.coordinator.operations = []) :
    (∀ (id : Binary) (entry : Entry), x.coordinator.schedules[id]? = some entry →
      Pending x.coordinator id entry.schedule.nextAt ∧
        ∃ stored, decls x.engine id = some stored ∧ stored.cancelledAt = none ∧
          stored.definition = entry.schedule.definition ∧
          entry.schedule.nextAt ≤ stored.nextAt ∧
          (id ∉ g.uncertain → entry.schedule.nextAt = stored.nextAt)) ∧
      ∀ id stored, decls x.engine id = some stored → stored.cancelledAt = none →
        id ∉ g.forgotten → (x.coordinator.schedules[id]?).isSome := by
  obtain ⟨h, hk⟩ : Cached cron (x, g) := Machine.ReachableUnder.invariant (fun _ ↦ cached_initial)
    (fun _ _ _ hI hok hl ↦ cached_step hI hok hl) hx
  refine ⟨fun id entry hentry ↦ ⟨?_, ?_⟩, fun id d ↦ hk.armed id d (Option.some_ne_none _)⟩
  · cases hk.waiting id entry (Option.some_ne_none _) hentry with
    | pending hp => exact hp
    | running hop =>
      rw [hidle.1] at hop
      cases hop
    | queued hmem =>
      rw [hidle.2] at hmem
      exact absurd hmem List.not_mem_nil
  · have hlive := hk.live id entry (Option.some_ne_none _) hentry
    rw [Live, hk.ids id entry hentry] at hlive
    exact hlive

namespace Sample

/-- A calendar without cron expressions; the sample schedule is an interval of a second. -/
def calendar : Cron Unit := ⟨fun _ _ ↦ none, fun _ _ ↦ false⟩

def occurrences : Jobs := ⟨fun _ dueAt ↦ dueAt, fun _ _ ↦ some (Tay.Sample.definition, [], none)⟩

def declared : Declared :=
  ⟨text "s", Tay.Sample.scheduleDefinition, 0, 12, 20, none, none, none⟩

/-- An engine that is ready, with a writer where it expects it before each of the two commits. -/
def conditions (before between : Engine.State) : Conditions :=
  ⟨true, ∅, [], .persistent, 25, none, Engine.Sample.writer before, Engine.Sample.writer between⟩

def empty : System := ⟨Engine.Sample.empty, start calendar Engine.Sample.empty⟩

def after (x : System) (l : Label) : System :=
  ((system calendar Tay.Sample.runtime occurrences).step x l).getD x

/-- The engine once the schedule is registered. -/
def registered : Engine.State := (after (after empty (.register declared))
  (.result (.answered (conditions Engine.Sample.empty Engine.Sample.empty)))).engine

/-- The engine between the two commits of the first delivery. -/
def inserted : Engine.State :=
  Engine.Sample.after registered (.command (.insert ⟨20, 0, 25,
    .inserted Tay.Sample.definition 25⟩ .persistent) (Engine.Sample.writer registered))

def registration : List Label :=
  [.register declared, .result (.answered (conditions Engine.Sample.empty Engine.Sample.empty))]

/-- The first occurrence comes due and is delivered. -/
def delivery : List Label :=
  [.fire 0, .due (text "s") 20 25, .result (.answered (conditions registered inserted))]

end Sample

theorem writer_restates (s t : Engine.State) : Restates s (Engine.Sample.writer t) := by
  intro payload receipt stats happend
  cases happend

theorem starts_empty : Starts Tay.Sample.runtime Engine.Sample.empty := by
  refine ⟨⟨Tay.Sample.manifest 0, [⟨1, 1, [], false⟩]⟩, Engine.Sample.config,
    Engine.Sample.recovered, Engine.Sample.segment, by decide +kernel, rfl,
    ⟨by decide +kernel, by decide +kernel, ?_, ?_⟩⟩
  · rintro limit ⟨⟩
    decide +kernel
  · rintro limit ⟨⟩
    decide +kernel

/-- After the first delivery the entry waits for the second occurrence, which is the stored one. -/
theorem schedules_armed_delivered :
    ∃ (x : System) (entry : Entry) (stored : Decl),
      (ledgered Sample.calendar Tay.Sample.runtime Sample.occurrences).ReachableUnder
        (fun x l ↦ Restating Tay.Sample.runtime x.1 l) (x, ⟨∅, ∅⟩) ∧
      x.coordinator.schedules[text "s"]? = some entry ∧ entry.schedule.nextAt = 1020 ∧
      Pending x.coordinator (text "s") 1020 ∧
      decls x.engine (text "s") = some stored ∧ stored.nextAt = 1020 := by
  have heval : ((ledgered Sample.calendar Tay.Sample.runtime Sample.occurrences).run
      (Sample.empty, ⟨∅, ∅⟩) (Sample.registration ++ Sample.delivery)).any (fun x ↦
        decide (x.2 = ⟨∅, ∅⟩) && x.1.coordinator.operation.isNone &&
          x.1.coordinator.operations.isEmpty &&
          (x.1.coordinator.schedules[text "s"]?).any fun entry ↦
            entry.schedule.nextAt == 1020) = true := by
    decide +kernel
  obtain ⟨⟨x, g⟩, hrun, hx⟩ := (Option.any_eq_true _ _).mp heval
  simp only [Bool.and_eq_true, decide_eq_true_eq, Option.isNone_iff_eq_none,
    List.isEmpty_iff] at hx
  obtain ⟨⟨⟨hg, hoperation⟩, hoperations⟩, hentry⟩ := hx
  subst hg
  obtain ⟨entry, hentry, hnext⟩ := (Option.any_eq_true _ _).mp hentry
  rw [beq_iff_eq] at hnext
  have hreachable : (ledgered Sample.calendar Tay.Sample.runtime Sample.occurrences).ReachableUnder
      (fun x l ↦ Restating Tay.Sample.runtime x.1 l) (x, ⟨∅, ∅⟩) := by
    refine Machine.ReachableUnder.run ?_ (.initial ⟨⟨starts_empty, rfl⟩, by decide +kernel⟩) hrun
    intro y l hl
    simp only [Sample.registration, Sample.delivery, List.cons_append, List.nil_append,
      List.mem_cons, List.not_mem_nil, or_false] at hl
    rcases hl with rfl | rfl | rfl | rfl | rfl
    · trivial
    · exact ⟨writer_restates _ _, writer_restates _ _⟩
    · trivial
    · trivial
    · exact ⟨writer_restates _ _, writer_restates _ _⟩
  obtain ⟨hentries, -⟩ := schedules_armed hreachable ⟨hoperation, hoperations⟩
  obtain ⟨hpending, stored, hstored, -, -, -, hexact⟩ := hentries _ entry hentry
  refine ⟨x, entry, stored, hreachable, hentry, hnext, hnext ▸ hpending, hstored, ?_⟩
  rw [← hexact (Finset.notMem_empty _), hnext]

/-- A cancellation of unknown outcome that never reached the engine: the schedule is live, nothing is
running or queued, and the coordinator has no entry for it. -/
theorem schedules_armed_fails :
    ∃ (x : System) (stored : Decl),
      (system Sample.calendar Tay.Sample.runtime Sample.occurrences).Reachable x ∧
      x.coordinator.operation = none ∧ x.coordinator.operations = [] ∧
      decls x.engine (text "s") = some stored ∧ stored.cancelledAt = none ∧
      x.coordinator.schedules[text "s"]? = none := by
  have heval : ((system Sample.calendar Tay.Sample.runtime Sample.occurrences).run Sample.empty
      (Sample.registration ++ [.cancel (text "s"), .result (.lost none)])).any (fun x ↦
        x.coordinator.operation.isNone && x.coordinator.operations.isEmpty &&
          (x.coordinator.schedules[text "s"]?).isNone &&
          (decls x.engine (text "s")).any fun stored ↦ stored.cancelledAt.isNone) = true := by
    decide +kernel
  obtain ⟨x, hrun, hx⟩ := (Option.any_eq_true _ _).mp heval
  simp only [Bool.and_eq_true, Option.isNone_iff_eq_none, List.isEmpty_iff] at hx
  obtain ⟨⟨⟨hoperation, hoperations⟩, hnone⟩, hstored⟩ := hx
  obtain ⟨stored, hstored, hlive⟩ := (Option.any_eq_true _ _).mp hstored
  exact ⟨x, stored, Machine.reachable_of_run ⟨starts_empty, rfl⟩ hrun, hoperation, hoperations,
    hstored, Option.isNone_iff_eq_none.mp hlive, hnone⟩

end Tay.Coordinator
