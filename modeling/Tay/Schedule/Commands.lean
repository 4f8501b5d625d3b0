import Mathlib.Logic.Function.Basic
import Tay.Engine.Placement

/-!
# The engine's schedule commands

`Tay.Engine.Commands`, the clauses for schedules: register, cancel and deliver. A delivery is two
commits, the insertion of the occurrence's job and the advance of the schedule, and the second can be
refused after the first has been accepted.

What a command does to the schedules is stated on their declarations: definition, revision, next
occurrence and cancellation. Commits on jobs leave these alone, and so does an adopted epoch, which
restates the schedules of the log it was made from; `Restates` asks for no more than that.
-/

open Foundation

namespace Tay

open V2

/-- The `kind` of an error that is an answer. -/
inductive Refusal
  | capacity
  | unavailable
  | conflict
  | invalid
  deriving DecidableEq, Repr

namespace Engine

open Transition ProjectionState

/-! ## Commands -/

/-- What a command has answered, the state it leaves, and the commits it has made, in order. -/
structure Executed where
  answer : Except Refusal Schedule
  state : State
  actions : List Action

/-- How a refused commit is answered. -/
def refusal (other : Refusal) : Reason → Refusal
  | .resourceLimit _ | .sequenceExhausted | .segmentIdExhausted => .capacity
  | _ => other

variable (vm : Runtime)

/-- `auxiliary_commit`. There is no answer when the process ends. -/
def auxiliaryCommit (s : State) (e : AuxEvent) (id : Binary) (env : Environment) : Option Executed :=
  match perform vm s (.auxiliary e) env with
  | .ok out => (out.1.schedules[id]?).map fun stored ↦
      ⟨.ok stored, out.1, [.command (.auxiliary e) env]⟩
  | .error .raised => none
  | .error reason => some ⟨.error (refusal .conflict reason), s, []⟩

/-- A registration as it is asked for. -/
structure Declared where
  id : Binary
  definition : ScheduleDefinition
  revision : ℕ
  registeredAt : ℕ
  nextAt : ℕ
  lastAt : Option ℕ
  cancelledAt : Option ℕ
  activeJobId : Option JobId
  deriving DecidableEq

/-- `schedule_state_event`. -/
def scheduleStateEvent (id : Binary) (revision timestamp : ℕ) (schedule : Schedule) :
    AuxEvent where
  expectedRevision := revision
  timestamp := timestamp
  body := .scheduleMembership
    { scheduleId := id
      activeJobId := schedule.activeJobId
      cancelledAt := schedule.cancelledAt
      definition := schedule.definition
      lastAt := schedule.lastAt
      nextAt := schedule.nextAt
      registeredAt := schedule.registeredAt
      revision := revision + 1 }
    schedule.activeJobIds schedule.membershipComplete

/-- The schedule a registration commits; the members of an earlier one stay. -/
def registered (d : Declared) (previous : Option Schedule) : Schedule where
  id := d.id
  definition := d.definition
  revision := Auxiliary.revisionOf previous + 1
  registeredAt := d.registeredAt
  nextAt := d.nextAt
  lastAt := none
  cancelledAt := none
  activeJobId := previous.bind Schedule.activeJobId
  activeJobIds := (previous.map Schedule.activeJobIds).getD []
  membershipComplete := (previous.map Schedule.membershipComplete).getD true

def registerSchedule (s : State) (d : Declared) (env : Environment) : Option Executed :=
  let previous := s.schedules[d.id]?
  if previous.any fun p ↦ p.definition.overlap == .allow && d.definition.overlap != .allow &&
      !p.membershipComplete then
    some ⟨.error .conflict, s, []⟩
  else match previous.filter fun p ↦ p.cancelledAt.isNone && p.definition == d.definition with
    | some p => some ⟨.ok p, s, []⟩
    | none =>
      auxiliaryCommit vm s (scheduleStateEvent d.id (Auxiliary.revisionOf previous) d.registeredAt
        (registered d previous)) d.id env

def cancelSchedule (s : State) (id : Binary) (revision timestamp : ℕ) (env : Environment) :
    Option Executed :=
  match s.schedules[id]? with
  | none => some ⟨.error .conflict, s, []⟩
  | some schedule =>
    if schedule.cancelledAt.isSome then some ⟨.ok schedule, s, []⟩
    else if schedule.revision == revision then
      auxiliaryCommit vm s (scheduleStateEvent id revision timestamp
        { schedule with cancelledAt := some timestamp }) id env
    else some ⟨.error .conflict, s, []⟩

/-- `advance_schedule`: a schedule moved past an occurrence by hand. -/
def advanceSchedule (s : State) (id : Binary) (revision dueAt nextAt timestamp : ℕ)
    (env : Environment) : Option Executed :=
  match s.schedules[id]? with
  | none => some ⟨.error .conflict, s, []⟩
  | some schedule =>
    if schedule.revision == revision && schedule.nextAt == dueAt && schedule.cancelledAt.isNone &&
        decide (dueAt < nextAt) && decide (dueAt ≤ timestamp) then
      auxiliaryCommit vm s (scheduleStateEvent id revision timestamp
        { schedule with lastAt := some dueAt, nextAt := nextAt }) id env
    else some ⟨.error .conflict, s, []⟩

/-- A delivery as it is asked for: the occurrence and the job that stands for it. -/
structure Delivery where
  id : Binary
  definition : ScheduleDefinition
  dueAt : ℕ
  nextAt : ℕ
  timestamp : ℕ
  raw : JobId
  job : Definition
  bytes : Binary
  durability : Option Durability

/-- What the rest of the engine decides about a delivery: its mode, the executions it has under way
with the schedules they belong to, and the checks an insertion passes before its commit. -/
structure Conditions where
  ready : Bool
  executions : Finset JobId
  running : List Binary
  jobDurability : Durability
  clock : ℕ
  validates : Option Refusal
  insert : Environment
  advance : Environment

/-- `insert_new`'s event. -/
def Delivery.event (q : Delivery) (c : Conditions) : JobEvent :=
  ⟨q.raw, 0, c.clock, .inserted q.job (q.job.scheduledAt.getD c.clock)⟩

/-- The insertion of an occurrence's job: the same job again is answered, another one under its id
is refused. -/
def insertOccurrence (s : State) (q : Delivery) (c : Conditions) :
    Option (Except Refusal Unit × State × List Action) :=
  let mode := q.durability.getD c.jobDurability
  match lookup s q.raw with
  | some existing =>
    if existing.definitionBytes == q.bytes && durability s existing.id == mode then
      some (.ok (), s, [])
    else some (.error .invalid, s, [])
  | none =>
    if !c.ready then some (.error .unavailable, s, [])
    else match c.validates with
      | some r => some (.error r, s, [])
      | none =>
        match perform vm s (.insert (q.event c) mode) c.insert with
        | .ok out => some (.ok (), out.1, [.command (.insert (q.event c) mode) c.insert])
        | .error .raised => none
        | .error reason => some (.error (refusal .invalid reason), s, [])

/-- `deliver_advance`. -/
def deliverAdvance (s : State) (schedule : Schedule) (q : Delivery) (activeId : Option JobId)
    (env : Environment) : Option Executed :=
  auxiliaryCommit vm s
    ⟨schedule.revision, q.timestamp, .scheduleDelivered schedule.id activeId q.dueAt q.nextAt⟩
    schedule.id env

def activeIds (schedule : Schedule) : List JobId :=
  (schedule.activeJobIds ++ schedule.activeJobId.toList).dedup

/-- An occurrence before this one still has its job. -/
def busy (s : State) (schedule : Schedule) (c : Conditions) : Bool :=
  (activeIds schedule).any (fun raw ↦ decide (raw ∈ c.executions) || active? (lookup s raw)) ||
    c.running.contains schedule.id

/-- The schedule has the definition the caller knows and has not been cancelled. -/
def current (schedule : Schedule) (q : Delivery) : Bool :=
  schedule.definition == q.definition && schedule.cancelledAt.isNone

def deliverSchedule (s : State) (q : Delivery) (c : Conditions) : Option Executed :=
  match s.schedules[q.id]? with
  | none => some ⟨.error .conflict, s, []⟩
  | some schedule =>
    if current schedule q && decide (q.dueAt < schedule.nextAt) then some ⟨.ok schedule, s, []⟩
    else if current schedule q && schedule.nextAt == q.dueAt then
      let waits := (lookup s q.raw).isNone && busy s schedule c
      if waits && q.definition.overlap == .queue then some ⟨.error .unavailable, s, []⟩
      else if waits && q.definition.overlap == .skip then
        deliverAdvance vm s schedule q schedule.activeJobId c.advance
      else match insertOccurrence vm s q c with
        | none => none
        | some (.error r, next, actions) => some ⟨.error r, next, actions⟩
        | some (.ok (), next, actions) =>
          (next.schedules[q.id]?).bind fun schedule ↦
            (deliverAdvance vm next schedule q (some q.raw) c.advance).map fun x ↦
              { x with actions := actions ++ x.actions }
    else some ⟨.error .conflict, s, []⟩

/-! ## Declarations -/

/-- What the coordinator knows of a schedule. -/
structure Decl where
  id : Binary
  definition : ScheduleDefinition
  revision : ℕ
  nextAt : ℕ
  cancelledAt : Option ℕ
  deriving DecidableEq

def decl (schedule : Schedule) : Decl :=
  ⟨schedule.id, schedule.definition, schedule.revision, schedule.nextAt, schedule.cancelledAt⟩

def decls (s : State) (id : Binary) : Option Decl := (s.schedules[id]?).map decl

/-- An epoch that declares the schedules the engine has. -/
def Restated (s : State) (stats : OnlineCheckpoint.Stats) : Prop :=
  ∀ id : Binary, (stats.recovered.candidate.schedules[id]?).map decl = decls s id

/-- Whatever epoch the writer's replies carry declares the schedules the engine has. -/
def Restates (s : State) (env : Environment) : Prop :=
  ∀ payload receipt stats, env.append payload = .switched receipt stats → Restated s stats

variable {vm} {s t : State} {env : Environment}

theorem Restates.congr (h : Restates s env) (ht : decls t = decls s) : Restates t env := by
  intro payload receipt stats happend id
  rw [ht]
  exact h payload receipt stats happend id

/-- Putting members back changes no declaration. -/
theorem retain_decl (schedules : Table Binary Schedule) (s : State) (id : Binary) :
    ((OnlineCheckpoint.retainVolatileMemberships schedules s)[id]?).map decl =
      (schedules[id]?).map decl := by
  rw [OnlineCheckpoint.retainVolatileMemberships, Std.ExtTreeMap.foldl_eq_foldl_toList]
  generalize s.scheduleOwners.toList = l
  induction l generalizing schedules with
  | nil => rfl
  | cons x l ih =>
    rw [List.foldl_cons, ih]
    split
    case h_2 => rfl
    case h_1 job schedule _ hschedule =>
      split
      case isTrue => rfl
      case isFalse =>
        rw [Foundation.Table.get_insert]
        split
        case isTrue heq =>
          rw [← heq, hschedule]
          rfl
        case isFalse => rfl

/-- An epoch that was published from the engine's log is of this kind. -/
theorem restated_of_publishOnline {q : Publisher.Request} {d : Directory} {frontier exclude : ℕ}
    {r : Reader.Recovered} {p : Publisher.Published} {capturedAt : ℕ} {retention : Retention}
    (hr : Reader.recover vm d (candidate q.limits q.valueLimits) = .ok r)
    (hlive : ∀ x ∈ Publisher.accepted d exclude, x.live = true)
    (hp : Publisher.publishOnline vm q d frontier exclude (Publisher.accepted d exclude) = .ok p)
    (hlog : Auxiliary.SameOutside s.volatileIds s.schedules r.candidate.schedules) :
    Restated s ⟨p.recovered, capturedAt, retention⟩ := by
  obtain ⟨-, f, -, hpreserves⟩ := Publisher.publishOnline_preserves hr hlive hp
  have hdecl (schedule : Option Schedule) : schedule.map decl =
      (schedule.map (Auxiliary.outside s.volatileIds)).map decl := by
    cases schedule <;> rfl
  intro id
  rw [decls, hpreserves.schedules, hdecl, hlog id, ← hdecl]

theorem adopt_decls {stats : OnlineCheckpoint.Stats} {retention : Retention} {admits : ℤ → Bool}
    (hstats : Restated s stats)
    (h : OnlineCheckpoint.adopt vm s stats retention admits = .ok t) : decls t = decls s := by
  obtain ⟨purged, -, h⟩ := bind_eq_ok.mp h
  split at h
  case h_1 => cases h
  case h_2 =>
    obtain ⟨-, h⟩ := check_bind_eq_ok.mp h
    cases h
    funext id
    exact (retain_decl _ _ _).trans (hstats id)

theorem landing_decls {payload : Payload} {base : State} (henv : Restates s env)
    (h : Landing vm s payload env base) : decls base = decls s := by
  cases h with
  | stay => rfl
  | switch _ happend hadopt =>
    have hadopted := adopt_decls (henv _ _ _ happend) hadopt
    exact hadopted

/-! ## What a commit does to the declarations -/

theorem commit_decls {previous : Option Job} {e : JobEvent} {given : Option Durability}
    {c : Committed} (henv : Restates s env) (h : commit vm s previous e given env = .ok c) :
    decls c.state = decls s := by
  unfold commit at h
  split at h
  case h_1 =>
    funext id
    simp only [decls, (commitVolatile_spec vm h).schedules]
  case h_2 =>
    obtain ⟨p, base, -, hlanding, hc⟩ := commitV2_landing vm h
    rw [← landing_decls henv hlanding]
    funext id
    simp only [decls, hc.schedules]

/-- A commit on a job leaves every declaration as it was. -/
theorem perform_event_decls {op : Op} {out : State × List Record} (henv : Restates s env)
    (hop : op.event?.isSome) (h : perform vm s op env = .ok out) : decls out.1 = decls s := by
  unfold perform at h
  split at h
  case h_1 =>
    split at h
    · cases h
    · obtain ⟨c, hc, rfl⟩ := map_eq_ok.mp h
      exact commit_decls henv hc
  case h_2 =>
    split at h
    · cases h
    · obtain ⟨c, hc, rfl⟩ := map_eq_ok.mp h
      exact commit_decls henv hc
  case h_3 => cases hop

/-- A result is no business of the schedules either. -/
theorem perform_result_decls {e : AuxEvent} {out : State × List Record} (henv : Restates s env)
    (he : e.body.scheduleId? = none) (h : perform vm s (.auxiliary e) env = .ok out) :
    decls out.1 = decls s := by
  obtain ⟨revision, timestamp, body⟩ := e
  cases body with
  | resultRecorded jobId result =>
    simp only [perform] at h
    unfold commitAuxiliary at h
    split at h
    case isTrue =>
      simp only [commitVolatileAuxiliary, bind_eq_ok, pure_eq_ok] at h
      obtain ⟨-, -, c, -, -, -, h⟩ := h
      cases h
      rfl
    case isFalse =>
      obtain ⟨base, hlanding, hspec⟩ := commitPersistentAuxiliary_landing vm h
      obtain ⟨c, hc, hout⟩ := hspec.reduced
      obtain ⟨-, -, applied, happlied, hcandidate⟩ := Auxiliary.reduce_eq_ok vm hc
      have happlied' : applied.schedules = base.schedules := by
        simp only [Auxiliary.applyEvent] at happlied
        split at happlied
        case h_1 => cases happlied
        case h_2 =>
          simp only [bind_eq_ok, pure_eq_ok] at happlied
          obtain ⟨-, -, -, -, happlied⟩ := happlied
          cases happlied
          rfl
      have hschedules : c.schedules = base.schedules := by
        rw [hcandidate]
        exact happlied'
      rw [← landing_decls henv hlanding]
      funext id
      simp only [decls, hout, hschedules]
  | _ => cases he

/-- The schedules after an auxiliary commit that is no result are those of the event applied where
the record has landed. -/
theorem perform_auxiliary_schedules {e : AuxEvent} {out : State × List Record}
    (henv : Restates s env) (he : resultJob s e.body = none)
    (h : perform vm s (.auxiliary e) env = .ok out) :
    ∃ base applied, decls base = decls s ∧
      Auxiliary.applyEvent (auxiliarySeed base e none) e base.nextSequence = .ok applied ∧
      out.1.schedules = applied.schedules := by
  simp only [perform, he, commitAuxiliary, Option.any_none, Bool.false_eq_true, if_false] at h
  obtain ⟨base, hlanding, hspec⟩ := commitPersistentAuxiliary_landing vm h
  obtain ⟨c, hc, hout⟩ := hspec.reduced
  obtain ⟨-, -, applied, happlied, hcandidate⟩ := Auxiliary.reduce_eq_ok vm hc
  refine ⟨base, applied, landing_decls henv hlanding, happlied, ?_⟩
  rw [hout, hcandidate]

theorem membership_decls {id : Binary} {revision timestamp : ℕ} {schedule : Schedule}
    {out : State × List Record} (henv : Restates s env)
    (h : perform vm s (.auxiliary (scheduleStateEvent id revision timestamp schedule)) env =
      .ok out) :
    decls out.1 = Function.update (decls s) id
      (some { decl schedule with id := id, revision := revision + 1 }) := by
  obtain ⟨base, applied, hbase, happlied, hout⟩ := perform_auxiliary_schedules henv rfl h
  simp only [scheduleStateEvent, Auxiliary.applyEvent, Auxiliary.restate, Auxiliary.update,
    bind_eq_ok, check_eq_ok, pure_eq_ok] at happlied
  obtain ⟨next, ⟨-, -, hnext⟩, happlied⟩ := happlied
  cases hnext
  simp only [Foundation.Table.get_insert, if_true] at happlied
  cases happlied
  rw [← hbase]
  funext k
  simp only [decls, hout, Foundation.Table.get_insert, Function.update_apply]
  by_cases hk : id = k
  · rw [if_pos hk, if_pos hk.symm]
    rfl
  · rw [if_neg hk, if_neg hk, if_neg fun heq ↦ hk heq.symm]
    rfl

theorem delivered_decls {revision timestamp dueAt nextAt : ℕ} {id : Binary}
    {activeId : Option JobId} {out : State × List Record} (henv : Restates s env)
    (hkeyed : ∀ k d, decls s k = some d → d.id = k)
    (h : perform vm s (.auxiliary ⟨revision, timestamp,
      .scheduleDelivered id activeId dueAt nextAt⟩) env = .ok out) :
    ∃ d, decls s id = some d ∧ d.cancelledAt = none ∧ d.revision = revision ∧ d.nextAt = dueAt ∧
      decls out.1 = Function.update (decls s) id
        (some { d with nextAt := nextAt, revision := revision + 1 }) := by
  obtain ⟨base, applied, hbase, happlied, hout⟩ := perform_auxiliary_schedules henv rfl h
  simp only [Auxiliary.applyEvent, bind_eq_ok] at happlied
  obtain ⟨next, hnext, happlied⟩ := happlied
  unfold Auxiliary.advance at hnext
  split at hnext
  case h_1 => cases hnext
  case h_2 schedule hschedule =>
    simp only [bind_eq_ok, check_eq_ok, pure_eq_ok, beq_iff_eq,
      Option.isNone_iff_eq_none] at hnext
    obtain ⟨-, hcancelled, -, hrevision, -, hdue, hnext⟩ := hnext
    have hstored : decls base id = some (decl schedule) := by
      simp only [decls]
      rw [show base.schedules[id]? = some schedule from hschedule]
      rfl
    have hid : schedule.id = id := hkeyed id _ (hbase ▸ hstored)
    refine ⟨decl schedule, hbase ▸ hstored, hcancelled, hrevision, hdue, ?_⟩
    cases hnext
    simp only [Auxiliary.update, hid, Foundation.Table.get_insert, if_true] at happlied
    cases happlied
    rw [← hbase]
    funext k
    simp only [decls, hout, Foundation.Table.get_insert, Function.update_apply]
    by_cases hk : id = k
    · rw [if_pos hk, if_pos hk.symm]
      simp only [Option.map_some, decl, hid]
    · rw [if_neg hk, if_neg hk, if_neg fun heq ↦ hk heq.symm]
      rfl

/-! ## What a command does -/

theorem auxiliaryCommit_cases {e : AuxEvent} {id : Binary} {x : Executed}
    (h : auxiliaryCommit vm s e id env = some x) :
    (∃ r, x = ⟨.error r, s, []⟩) ∨
      ∃ out stored, perform vm s (.auxiliary e) env = .ok out ∧
        out.1.schedules[id]? = some stored ∧
        x = ⟨.ok stored, out.1, [.command (.auxiliary e) env]⟩ := by
  unfold auxiliaryCommit at h
  split at h
  case h_1 out hperform =>
    obtain ⟨stored, hstored, rfl⟩ := Option.map_eq_some_iff.mp h
    exact .inr ⟨out, stored, hperform, hstored, rfl⟩
  case h_2 => cases h
  case h_3 =>
    cases h
    exact .inl ⟨_, rfl⟩

/-- The revision a declaration is at; an unknown schedule is at zero. -/
def revisionAt (s : State) (id : Binary) : ℕ := ((decls s id).map Decl.revision).getD 0

theorem revisionAt_eq (s : State) (id : Binary) :
    Auxiliary.revisionOf s.schedules[id]? = revisionAt s id := by
  simp only [revisionAt, decls]
  cases s.schedules[id]? <;> rfl

theorem decls_of_some {id : Binary} {schedule : Schedule}
    (h : s.schedules[id]? = some schedule) : decls s id = some (decl schedule) := by
  rw [decls, h, Option.map_some]

/-- A command that is refused leaves the declarations alone, and one that is answered either finds
`P` true of the declaration it asks for or rewrites it to `d`. -/
inductive Declares (s : State) (id : Binary) (x : Executed) (P : Decl → Prop) (d : Decl → Prop) : Prop
  | refused {r : Refusal} : x.answer = .error r → decls x.state = decls s → Declares s id x P d
  | found {stored : Schedule} : x.answer = .ok stored → decls s id = some (decl stored) →
      P (decl stored) → decls x.state = decls s → Declares s id x P d
  | wrote {stored : Schedule} : x.answer = .ok stored → d (decl stored) →
      decls x.state = Function.update (decls s) id (some (decl stored)) → Declares s id x P d

theorem Declares.of_commit {e : AuxEvent} {id : Binary} {x : Executed} {P d : Decl → Prop}
    (h : auxiliaryCommit vm s e id env = some x)
    (hd : ∀ out, perform vm s (.auxiliary e) env = .ok out → ∃ next, d next ∧
      decls out.1 = Function.update (decls s) id (some next)) :
    Declares s id x P d := by
  rcases auxiliaryCommit_cases h with ⟨r, rfl⟩ | ⟨out, stored, hperform, hstored, rfl⟩
  · exact .refused rfl rfl
  · obtain ⟨next, hnext, hdecls⟩ := hd out hperform
    have hsame := decls_of_some hstored
    rw [hdecls, Function.update_self] at hsame
    cases hsame
    exact .wrote rfl hnext hdecls

theorem registerSchedule_declares {d : Declared} {x : Executed} (henv : Restates s env)
    (h : registerSchedule vm s d env = some x) :
    Declares s d.id x (fun next ↦ next.cancelledAt = none ∧ next.definition = d.definition)
      (fun next ↦ next = ⟨d.id, d.definition, revisionAt s d.id + 1, d.nextAt, none⟩) := by
  simp only [registerSchedule] at h
  split at h
  case isTrue =>
    cases h
    exact .refused rfl rfl
  case isFalse =>
    split at h
    case h_1 p hp =>
      cases h
      obtain ⟨hstored, hsame⟩ := Option.filter_eq_some_iff.mp hp
      simp only [Bool.and_eq_true, Option.isNone_iff_eq_none, beq_iff_eq] at hsame
      exact .found rfl (decls_of_some hstored) hsame rfl
    case h_2 =>
      refine .of_commit h fun out hout ↦ ⟨_, ?_, membership_decls henv hout⟩
      rw [revisionAt_eq]
      rfl

theorem cancelSchedule_declares {id : Binary} {revision timestamp : ℕ} {x : Executed}
    (henv : Restates s env) (h : cancelSchedule vm s id revision timestamp env = some x) :
    Declares s id x (fun next ↦ next.cancelledAt.isSome)
      (fun next ↦ next.cancelledAt.isSome ∧ ∃ d, decls s id = some d ∧ d.revision = revision ∧
        next = { d with
          id := id, revision := revision + 1, cancelledAt := some timestamp }) := by
  unfold cancelSchedule at h
  split at h
  case h_1 =>
    cases h
    exact .refused rfl rfl
  case h_2 schedule hschedule =>
    split at h
    case isTrue hcancelled =>
      cases h
      exact .found rfl (decls_of_some hschedule) hcancelled rfl
    case isFalse =>
      split at h
      case isTrue hrevision =>
        refine .of_commit h fun out hout ↦ ⟨_, ⟨rfl, decl schedule, decls_of_some hschedule,
          beq_iff_eq.mp hrevision, rfl⟩, membership_decls henv hout⟩
      case isFalse =>
        cases h
        exact .refused rfl rfl

/-- An insertion that is refused has changed nothing, and one that is answered has found the job or
has just inserted it. -/
theorem insertOccurrence_cases {q : Delivery} {c : Conditions}
    {r : Except Refusal Unit × State × List Action} (h : insertOccurrence vm s q c = some r) :
    (∃ refusal, r = (.error refusal, s, [])) ∨
      (∃ existing, lookup s q.raw = some existing ∧ existing.definitionBytes = q.bytes ∧
        r = (.ok (), s, [])) ∨
      ∃ mode out, lookup s q.raw = none ∧
        perform vm s (.insert (q.event c) mode) c.insert = .ok out ∧
        r = (.ok (), out.1, [.command (.insert (q.event c) mode) c.insert]) := by
  simp only [insertOccurrence] at h
  split at h
  case h_1 existing hexisting =>
    split at h
    case isTrue hsame =>
      cases h
      rw [Bool.and_eq_true, beq_iff_eq] at hsame
      exact .inr (.inl ⟨existing, hexisting, hsame.1, rfl⟩)
    case isFalse =>
      cases h
      exact .inl ⟨_, rfl⟩
  case h_2 hnone =>
    split at h
    case isTrue =>
      cases h
      exact .inl ⟨_, rfl⟩
    case isFalse =>
      split at h
      case h_1 =>
        cases h
        exact .inl ⟨_, rfl⟩
      case h_2 =>
        split at h
        case h_1 out hout =>
          cases h
          exact .inr (.inr ⟨_, out, hnone, hout, rfl⟩)
        case h_2 => cases h
        case h_3 =>
          cases h
          exact .inl ⟨_, rfl⟩

variable (vm) in
/-- The ways a delivery goes. -/
inductive Delivers (s : State) (q : Delivery) (c : Conditions) (x : Executed) : Prop
  | refused {r : Refusal} : x = ⟨.error r, s, []⟩ → Delivers s q c x
  /-- The occurrence has been delivered before. -/
  | passed {schedule : Schedule} : s.schedules[q.id]? = some schedule →
      current schedule q = true → q.dueAt < schedule.nextAt → x = ⟨.ok schedule, s, []⟩ →
      Delivers s q c x
  /-- An earlier occurrence still has its job, and the schedule asks to skip this one. -/
  | skipped {schedule : Schedule} : s.schedules[q.id]? = some schedule →
      current schedule q = true → schedule.nextAt = q.dueAt → lookup s q.raw = none →
      busy s schedule c = true → q.definition.overlap = .skip →
      deliverAdvance vm s schedule q schedule.activeJobId c.advance = some x → Delivers s q c x
  /-- The occurrence has its job, and the schedule advances if that is accepted. -/
  | inserted {schedule next : Schedule} {t : State} {actions : List Action} {y : Executed} :
      s.schedules[q.id]? = some schedule → current schedule q = true →
      schedule.nextAt = q.dueAt →
      (lookup s q.raw = none → q.definition.overlap ≠ .allow → busy s schedule c = false) →
      insertOccurrence vm s q c = some (.ok (), t, actions) → t.schedules[q.id]? = some next →
      deliverAdvance vm t next q (some q.raw) c.advance = some y →
      x = { y with actions := actions ++ y.actions } → Delivers s q c x

theorem deliverSchedule_delivers {q : Delivery} {c : Conditions} {x : Executed}
    (h : deliverSchedule vm s q c = some x) : Delivers vm s q c x := by
  unfold deliverSchedule at h
  split at h
  case h_1 =>
    cases h
    exact .refused rfl
  case h_2 schedule hschedule =>
    split at h
    case isTrue hpassed =>
      cases h
      rw [Bool.and_eq_true, decide_eq_true_eq] at hpassed
      exact .passed hschedule hpassed.1 hpassed.2 rfl
    case isFalse =>
      split at h
      case isFalse =>
        cases h
        exact .refused rfl
      case isTrue hdue =>
        rw [Bool.and_eq_true, beq_iff_eq] at hdue
        simp only at h
        split at h
        case isTrue =>
          cases h
          exact .refused rfl
        case isFalse hqueue =>
          split at h
          case isTrue hskip =>
            simp only [Bool.and_eq_true, beq_iff_eq, Option.isNone_iff_eq_none] at hskip
            exact .skipped hschedule hdue.1 hdue.2 hskip.1.1 hskip.1.2 hskip.2 h
          case isFalse hskip =>
            have hfree : lookup s q.raw = none → q.definition.overlap ≠ .allow →
                busy s schedule c = false := by
              intro hnone hallow
              by_contra hbusy
              rw [Bool.not_eq_false] at hbusy
              simp only [hnone, hbusy, Option.isNone_none, Bool.and_self, Bool.true_and,
                beq_iff_eq] at hqueue hskip
              cases hoverlap : q.definition.overlap with
              | allow => exact hallow hoverlap
              | skip => exact hskip hoverlap
              | queue => exact hqueue hoverlap
            split at h
            case h_1 => cases h
            case h_2 r t actions hinsert =>
              cases h
              rcases insertOccurrence_cases hinsert with ⟨_, heq⟩ | ⟨_, -, -, heq⟩ |
                ⟨_, _, -, -, heq⟩
              · cases heq
                exact .refused rfl
              · cases heq
              · cases heq
            case h_3 t actions hinsert =>
              obtain ⟨next, hnext, h⟩ := Option.bind_eq_some_iff.mp h
              obtain ⟨y, hy, rfl⟩ := Option.map_eq_some_iff.mp h
              exact .inserted hschedule hdue.1 hdue.2 hfree hinsert hnext hy rfl

theorem current_iff {schedule : Schedule} {q : Delivery} : current schedule q = true ↔
    schedule.definition = q.definition ∧ schedule.cancelledAt = none := by
  rw [current, Bool.and_eq_true, beq_iff_eq, Option.isNone_iff_eq_none]

/-- An insertion changes no declaration. -/
theorem insertOccurrence_decls {q : Delivery} {c : Conditions} {t : State} {actions : List Action}
    {r : Except Refusal Unit} (henv : Restates s c.insert)
    (h : insertOccurrence vm s q c = some (r, t, actions)) : decls t = decls s := by
  rcases insertOccurrence_cases h with ⟨_, heq⟩ | ⟨_, -, -, heq⟩ | ⟨mode, out, -, hout, heq⟩
  · cases heq
    rfl
  · cases heq
    rfl
  · cases heq
    exact perform_event_decls henv rfl hout

theorem deliverAdvance_declares {q : Delivery} {schedule : Schedule} {activeId : Option JobId}
    {x : Executed} {P : Decl → Prop} (henv : Restates s env)
    (hkeyed : ∀ k d, decls s k = some d → d.id = k) (hschedule : s.schedules[q.id]? = some schedule)
    (h : deliverAdvance vm s schedule q activeId env = some x) :
    Declares s q.id x P (fun next ↦ ∃ d, decls s q.id = some d ∧ d.nextAt = q.dueAt ∧
      next = { d with nextAt := q.nextAt, revision := d.revision + 1 }) := by
  have hid : schedule.id = q.id := hkeyed q.id _ (decls_of_some hschedule)
  rw [deliverAdvance, hid] at h
  refine .of_commit h fun out hout ↦ ?_
  obtain ⟨d, hd, -, hrevision, hdue, hdecls⟩ := delivered_decls henv hkeyed hout
  exact ⟨_, ⟨d, hd, hdue, by rw [hrevision]⟩, hdecls⟩

theorem deliverSchedule_declares {q : Delivery} {c : Conditions} {x : Executed}
    (hinsert : Restates s c.insert) (hadvance : Restates s c.advance)
    (hkeyed : ∀ k d, decls s k = some d → d.id = k) (h : deliverSchedule vm s q c = some x) :
    Declares s q.id x
      (fun d ↦ d.definition = q.definition ∧ d.cancelledAt = none ∧ q.dueAt < d.nextAt)
      (fun next ↦ ∃ d, decls s q.id = some d ∧ d.definition = q.definition ∧
        d.cancelledAt = none ∧ d.nextAt = q.dueAt ∧
        next = { d with nextAt := q.nextAt, revision := d.revision + 1 }) := by
  have hcurrent {schedule : Schedule} (hs : s.schedules[q.id]? = some schedule)
      (hq : current schedule q = true) {d : Decl} (hd : decls s q.id = some d) :
      d.definition = q.definition ∧ d.cancelledAt = none := by
    rw [decls_of_some hs] at hd
    cases hd
    exact current_iff.mp hq
  cases deliverSchedule_delivers h with
  | refused hx =>
    subst hx
    exact .refused rfl rfl
  | @passed schedule hs hq hdue hx =>
    subst hx
    obtain ⟨hdefinition, hcancelled⟩ := current_iff.mp hq
    exact .found rfl (decls_of_some hs) ⟨hdefinition, hcancelled, hdue⟩ rfl
  | @skipped schedule hs hq _ _ _ _ hx =>
    cases deliverAdvance_declares (P := fun _ ↦ False) hadvance hkeyed hs hx with
    | refused hanswer hdecls => exact .refused hanswer hdecls
    | found _ _ hfalse => exact hfalse.elim
    | wrote hanswer hd hdecls =>
      obtain ⟨d, hd, hdue, hnext⟩ := hd
      obtain ⟨hdefinition, hcancelled⟩ := hcurrent hs hq hd
      exact .wrote hanswer ⟨d, hd, hdefinition, hcancelled, hdue, hnext⟩ hdecls
  | @inserted schedule next t actions y hs hq _ _ hi hnext hy hx =>
    subst hx
    have hsame := insertOccurrence_decls hinsert hi
    have hkeyed' : ∀ k d, decls t k = some d → d.id = k := by
      rw [hsame]
      exact hkeyed
    cases deliverAdvance_declares (P := fun _ ↦ False) (hadvance.congr hsame) hkeyed' hnext hy with
    | refused hanswer hdecls => exact .refused hanswer (hdecls.trans hsame)
    | found _ _ hfalse => exact hfalse.elim
    | wrote hanswer hd hdecls =>
      obtain ⟨d, hd, hdue, hwrote⟩ := hd
      rw [hsame] at hd hdecls
      obtain ⟨hdefinition, hcancelled⟩ := hcurrent hs hq hd
      exact .wrote hanswer ⟨d, hd, hdefinition, hcancelled, hdue, hwrote⟩ hdecls

/-! ## Commands as runs -/

/-- Everything a command has done is in its commits. -/
theorem auxiliaryCommit_run {e : AuxEvent} {id : Binary} {x : Executed}
    (h : auxiliaryCommit vm s e id env = some x) : (machine vm).run s x.actions = some x.state := by
  rcases auxiliaryCommit_cases h with ⟨r, rfl⟩ | ⟨out, stored, hperform, -, rfl⟩
  · rfl
  · simp only [Machine.run_cons, machine, handle, hperform]
    rfl

theorem registerSchedule_run {d : Declared} {x : Executed}
    (h : registerSchedule vm s d env = some x) : (machine vm).run s x.actions = some x.state := by
  simp only [registerSchedule] at h
  split at h
  case isTrue =>
    cases h
    rfl
  case isFalse =>
    split at h
    case h_1 =>
      cases h
      rfl
    case h_2 => exact auxiliaryCommit_run h

theorem cancelSchedule_run {id : Binary} {revision timestamp : ℕ} {x : Executed}
    (h : cancelSchedule vm s id revision timestamp env = some x) :
    (machine vm).run s x.actions = some x.state := by
  unfold cancelSchedule at h
  split at h
  case h_1 =>
    cases h
    rfl
  case h_2 =>
    split at h
    case isTrue =>
      cases h
      rfl
    case isFalse =>
      split at h
      case isTrue => exact auxiliaryCommit_run h
      case isFalse =>
        cases h
        rfl

theorem insertOccurrence_run {q : Delivery} {c : Conditions} {t : State} {actions : List Action}
    {r : Except Refusal Unit} (h : insertOccurrence vm s q c = some (r, t, actions)) :
    (machine vm).run s actions = some t := by
  rcases insertOccurrence_cases h with ⟨_, heq⟩ | ⟨_, -, -, heq⟩ | ⟨mode, out, -, hout, heq⟩
  · cases heq
    rfl
  · cases heq
    rfl
  · cases heq
    simp only [Machine.run_cons, machine, handle, hout]
    rfl

theorem deliverSchedule_run {q : Delivery} {c : Conditions} {x : Executed}
    (h : deliverSchedule vm s q c = some x) : (machine vm).run s x.actions = some x.state := by
  cases deliverSchedule_delivers h with
  | refused hx =>
    subst hx
    rfl
  | passed _ _ _ hx =>
    subst hx
    rfl
  | skipped _ _ _ _ _ _ hx => exact auxiliaryCommit_run hx
  | @inserted schedule next t actions y _ _ _ _ hi _ hy hx =>
    subst hx
    have hinserted := insertOccurrence_run hi
    have hadvanced := auxiliaryCommit_run hy
    exact Machine.run_append hinserted hadvanced

/-! ## What else the engine does -/

/-- Nothing the engine does apart from these commands changes a declaration. -/
theorem handle_decls {a : Action} (hcommand : ∀ op env, a = .command op env → Restates s env)
    (hforeign : ∀ e env, a = .command (.auxiliary e) env → e.body.scheduleId? = none)
    (hresult : ∀ token stats admits, a = .compactResult token (.ok stats admits) →
      Restated s stats) (h : handle vm s a = .ok t) : decls t = decls s := by
  cases a with
  | command op env =>
    simp only [handle] at h
    obtain ⟨out, hperform, rfl⟩ := map_eq_ok.mp h
    have henv := hcommand op env rfl
    cases op with
    | insert e mode => exact perform_event_decls henv rfl hperform
    | change e => exact perform_event_decls henv rfl hperform
    | auxiliary e => exact perform_result_decls henv (hforeign e env rfl) hperform
  | compactOnline rotation token retention =>
    rcases handle_cases vm h with ⟨op, env, out, heq, -⟩ | ⟨token, stats, admits, heq, -⟩ |
      ⟨rotation, token, retention, -, -, rfl⟩ | ⟨online, rfl⟩
    · cases heq
    · cases heq
    · rfl
    · rfl
  | compactResult token result =>
    cases result with
    | ok stats admits =>
      cases honline : s.onlineCompaction with
      | running current retention =>
        simp only [handle, honline] at h
        split at h
        case isTrue => exact adopt_decls (hresult token stats admits rfl) h
        case isFalse =>
          cases h
          rfl
      | none =>
        simp only [handle, honline] at h
        cases h
        rfl
      | switched current retention =>
        simp only [handle, honline] at h
        cases h
        rfl
    | switched =>
      obtain ⟨online, rfl⟩ := handle_online (fun _ _ heq ↦ by cases heq) h
      rfl
    | error =>
      obtain ⟨online, rfl⟩ := handle_online (fun _ _ heq ↦ by cases heq) h
      rfl

end Engine

end Tay
