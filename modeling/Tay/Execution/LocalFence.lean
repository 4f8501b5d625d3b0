import Mathlib.Algebra.Ring.Nat
import Mathlib.Data.Finset.Basic
import Tay.Foundation.Run
import Tay.Foundation.Table

/-!
# The local fence

Two generations of one store must never run callbacks at the same time. The fence is a process that
grants one lease for each store, keeps a ledger of the tasks that run under it, and grants the next
lease only when every task of the ledger is dead. Its state is lost when it dies, but a marker in the
virtual machine's shared terms is not: a store whose marker has outlived its fence is refused for
good.

A label is one message the fence handles, or something another process does: being spawned, dying,
starting a new fence. Deaths are observed by a handler as they stand when it begins; a process that
dies while the handler runs may as well have died just before it, or just after. The fence itself may
die at any point. What it had written into its state is lost either way, so the only thing that
matters is how many markers its last clause had got to.
-/

open Foundation

namespace Tay.LocalFence

/-! ## State -/

inductive Phase
  | active
  | revoked
  deriving DecidableEq, Repr

/-- What the fence knows of a store it has granted: the owners, and the ledger of tasks with the
relay that vouches for each. -/
structure Lease where
  generation : ℕ
  token : ℕ
  engine : ℕ
  guardian : ℕ
  runtime : ℕ
  phase : Phase
  tasks : Std.ExtTreeMap ℕ ℕ
  relays : Std.ExtTreeMap ℕ ℕ
  ownerRefs : List ℕ

/-- The value a lease holder presents: `{LocalFence, fence, store_id, generation, token}`. -/
structure Handle where
  fence : ℕ
  store : ℕ
  generation : ℕ
  token : ℕ
  deriving DecidableEq, Repr

inductive Kind
  | owner
  | relay
  deriving DecidableEq, Repr

/-- What the fence sends: the notice of a revocation, and a kill. -/
inductive Signal
  | revoked (guardian generation : ℕ)
  | kill (task : ℕ)
  deriving DecidableEq, Repr

/-- The virtual machine as far as the fence sees it. Processes and references are numbered as they
are made; `alive` holds the local processes that run. The last three fields are the state of the
fence, which is empty while `self` is `none`. A store is its sixteen bytes read as a number. -/
structure World where
  alive : Finset ℕ
  nextPid : ℕ
  nextRef : ℕ
  markers : Std.ExtTreeMap ℕ (ℕ × ℕ)
  sent : List Signal
  self : Option ℕ
  leases : Std.ExtTreeMap ℕ Lease
  monitors : Std.ExtTreeMap ℕ (ℕ × Kind × ℕ)
  poll : Bool

inductive Refusal
  | invalidLocalLease
  | localTasksTerminating
  | localGenerationOwned
  | localFenceLost
  | invalidTaskRegistration
  | taskStillAlive
  deriving DecidableEq, Repr

inductive Reply
  | granted (lease : Handle)
  | ok
  | answer (b : Bool)
  | error (reason : Refusal)
  deriving DecidableEq, Repr

theorem Reply.error_ne_ok (reason : Refusal) : Reply.error reason ≠ .ok := Reply.noConfusion

/-- What a lease holder asks for. -/
inductive Request
  | live
  | liveTask (relay task : ℕ)
  | register (relay task : ℕ)
  | dead (relay task : ℕ)
  | revoke
  deriving DecidableEq, Repr

def validStore (store : ℕ) : Bool := 0 < store && store < 2 ^ 128

namespace World

variable (w : World) (self store : ℕ)

/-- `local_alive?/1`. -/
def localAlive (pid : ℕ) : Bool := pid ∈ w.alive

/-- `active?/1`: not revoked, and every owner runs. -/
def active (lease : Lease) : Bool :=
  lease.phase == .active && [lease.engine, lease.guardian, lease.runtime].all w.localAlive

/-! ## Retirement -/

/-- Strike a task, and the monitor of its relay, off the ledger. -/
def dropTask (task : ℕ) : World :=
  match w.leases[store]? with
  | none => w
  | some lease =>
    let relay := lease.tasks[task]?
    let ref := relay.bind (lease.relays[·]?)
    { w with
      leases := w.leases.insert store
        { lease with
          tasks := lease.tasks.erase task
          relays := relay.elim lease.relays lease.relays.erase }
      monitors := ref.elim w.monitors w.monitors.erase }

/-- Strike off the tasks of a list that no longer run. -/
def dropDead (tasks : List ℕ) : World :=
  tasks.foldl (fun w task ↦ if w.localAlive task then w else w.dropTask store task) w

/-- A revoked lease without tasks is given up, and its own marker with it. -/
def maybeRetire : World :=
  match w.leases[store]? with
  | none => w
  | some lease =>
    if lease.phase = .revoked ∧ lease.tasks.isEmpty then
      { w with
        markers :=
          if w.markers[store]? = some (self, lease.token) then w.markers.erase store
          else w.markers
        leases := w.leases.erase store
        monitors := lease.ownerRefs.foldl (·.erase ·) w.monitors }
    else w

def armPoll : World :=
  if w.poll = false ∧ w.leases.any fun _ lease ↦ lease.phase = .revoked then { w with poll := true }
  else w

/-- Close the lease first, then kill its tasks, then see which are dead already. -/
def revokeStore : World :=
  match w.leases[store]? with
  | none => w
  | some lease =>
    if lease.phase = .revoked then w
    else
      let closed :=
        { w with
          leases := w.leases.insert store { lease with phase := .revoked }
          sent := w.sent ++ Signal.revoked lease.guardian lease.generation ::
            lease.tasks.keys.map Signal.kill }
      ((closed.dropDead store lease.tasks.keys).maybeRetire self store).armPoll

/-! ## Calls -/

/-- Watch a process under a new reference, which is the supply's current one. -/
def monitor (entry : ℕ × Kind × ℕ) : World :=
  { w with nextRef := w.nextRef + 1, monitors := w.monitors.insert w.nextRef entry }

/-- The references under which the owners are watched, and the state that watches them. -/
def monitorOwners : World → List ℕ → List ℕ × World
  | w, [] => ([], w)
  | w, pid :: pids =>
    let rest := monitorOwners (w.monitor (store, .owner, pid)) pids
    (w.nextRef :: rest.1, rest.2)

def acquire (caller generation engine guardian runtime : ℕ) : Reply × World :=
  if caller ≠ engine ∨ ¬ validStore store ∨ ¬ [engine, guardian, runtime].all w.localAlive then
    (.error .invalidLocalLease, w)
  else match w.leases[store]? with
  | some lease =>
    (.error (if lease.phase = .revoked then .localTasksTerminating else .localGenerationOwned), w)
  | none =>
    if w.markers[store]? ≠ none then (.error .localFenceLost, w)
    else
      let token := w.nextRef
      -- the marker stands before anything is granted
      let marked :=
        { w with nextRef := w.nextRef + 1, markers := w.markers.insert store (self, token) }
      let watched := monitorOwners store marked [engine, guardian, runtime].eraseDups
      let lease : Lease :=
        { generation, token, engine, guardian, runtime
          phase := .active
          tasks := ∅
          relays := ∅
          ownerRefs := watched.1 }
      (.granted ⟨self, store, generation, token⟩,
        { watched.2 with leases := watched.2.leases.insert store lease })

def register (lease : Lease) (caller relay task : ℕ) : Reply × World :=
  if caller ∉ [lease.guardian, relay] then (.error .invalidTaskRegistration, w)
  else if ¬ w.active lease then (.error .localTasksTerminating, w.revokeStore self store)
  else if ¬ w.localAlive relay ∨ ¬ w.localAlive task then (.error .invalidTaskRegistration, w)
  else if lease.tasks[task]? = some relay then (.ok, w)
  else if task ∈ lease.tasks ∨ relay ∈ lease.relays then
    (.error .invalidTaskRegistration, w.revokeStore self store)
  else
    let watched := w.monitor (store, .relay, relay)
    (.ok,
      { watched with
        leases := watched.leases.insert store
          { lease with
            tasks := lease.tasks.insert task relay
            relays := lease.relays.insert relay w.nextRef } })

def dead (lease : Lease) (caller relay task : ℕ) : Reply × World :=
  if caller ∉ [lease.guardian, relay] then (.error .invalidTaskRegistration, w)
  else if lease.tasks[task]? ≠ some relay then (.error .invalidTaskRegistration, w)
  else if w.localAlive task then (.error .taskStillAlive, w)
  else (.ok, (w.dropTask store task).maybeRetire self store)

def revoke (lease : Lease) (caller : ℕ) : Reply × World :=
  if caller ∈ [lease.engine, lease.guardian, lease.runtime] then (.ok, w.revokeStore self store)
  else (.error .invalidLocalLease, w)

/-- `lease_request/5`. -/
def leaseRequest (lease : Lease) (caller : ℕ) : Request → Reply × World
  | .live => (.answer (w.active lease), w)
  | .liveTask relay task =>
    (.answer (w.active lease && lease.tasks[task]? == some relay && w.localAlive relay &&
      w.localAlive task), w)
  | .register relay task => w.register self store lease caller relay task
  | .dead relay task => w.dead self store lease caller relay task
  | .revoke => w.revoke self store lease caller

/-- `{:lease, store_id, generation, token, message}`. -/
def handleLease (handle : Handle) (caller : ℕ) (request : Request) : Reply × World :=
  match w.leases[handle.store]? with
  | none => (.error .invalidLocalLease, w)
  | some lease =>
    if lease.generation = handle.generation ∧ lease.token = handle.token then
      w.leaseRequest self handle.store lease caller request
    else (.error .invalidLocalLease, w)

/-- `{:retired, store_id, generation, token}`. -/
def retired (handle : Handle) : Reply :=
  match w.leases[handle.store]? with
  | some lease =>
    if lease.generation = handle.generation ∧ lease.token = handle.token then .answer false
    else .error .invalidLocalLease
  | none => if w.markers[handle.store]? = none then .answer true else .error .localFenceLost

/-! ## Messages -/

/-- `{:DOWN, ref, :process, _, _}`. -/
def handleDown (ref : ℕ) : World :=
  match w.monitors[ref]? with
  | none => w
  | some entry => w.revokeStore self entry.1

def handlePoll : World :=
  let polled := { w with poll := false }
  (polled.leases.toList.foldl
    (fun acc entry ↦
      if entry.2.phase = .revoked then
        (acc.dropDead entry.1 entry.2.tasks.keys).maybeRetire self entry.1
      else acc)
    polled).armPoll

/-- One turn of `terminate/2`: the tasks of a lease are killed, and its own marker goes only if all
of them are dead by then. -/
def terminateLease : World :=
  match w.leases[store]? with
  | none => w
  | some lease =>
    { w with
      sent := w.sent ++ lease.tasks.keys.map Signal.kill
      markers :=
        if lease.tasks.keys.all (! w.localAlive ·) ∧
            w.markers[store]? = some (self, lease.token) then
          w.markers.erase store
        else w.markers }

/-- The stores `terminate/2` gets to: all of them when the fence is shut down in order, none when it
is killed. -/
def terminate (reached : List ℕ) : World :=
  reached.foldl (fun w store ↦ w.terminateLease self store) w

end World

/-! ## The machine -/

inductive Event
  /-- some process is spawned -/
  | spawn
  /-- some process other than the fence dies -/
  | die (pid : ℕ)
  /-- `ensure_started/0` -/
  | start
  /-- the fence dies, having terminated the leases of these stores -/
  | lost (reached : List ℕ)
  | acquire (fence caller store generation engine guardian runtime : ℕ)
  | lease (handle : Handle) (caller : ℕ) (request : Request)
  | down (ref : ℕ)
  | poll
  deriving DecidableEq, Repr

namespace World

variable (w : World)

/-- A new local process. -/
def spawn : World := { w with alive := insert w.nextPid w.alive, nextPid := w.nextPid + 1 }

/-- `acquire/5`, addressed to the fence the caller has found. -/
def callAcquire (fence caller store generation engine guardian runtime : ℕ) : Reply × World :=
  if w.self = some fence then w.acquire fence store caller generation engine guardian runtime
  else (.error .localFenceLost, w)

/-- `lease_call/2`: the handle names the fence. -/
def callLease (handle : Handle) (caller : ℕ) (request : Request) : Reply × World :=
  if w.self = some handle.fence then w.handleLease handle.fence handle caller request
  else (.error .localFenceLost, w)

/-- The state after an event, with the answer if it was a call. -/
def react : Event → Option (Option Reply × World)
  | .spawn => some (none, w.spawn)
  | .die pid =>
    if w.self = some pid then none else some (none, { w with alive := w.alive.erase pid })
  | .start =>
    match w.self with
    | some _ => none
    | none => some (none, { w.spawn with self := some w.nextPid })
  | .lost reached =>
    match w.self with
    | none => none
    | some self =>
      some (none,
        { w.terminate self reached with
          alive := w.alive.erase self
          self := none
          leases := ∅
          monitors := ∅
          poll := false })
  | .acquire fence caller store generation engine guardian runtime =>
    let r := w.callAcquire fence caller store generation engine guardian runtime
    some (some r.1, r.2)
  | .lease handle caller request =>
    let r := w.callLease handle caller request
    some (some r.1, r.2)
  | .down ref =>
    match w.self, w.monitors[ref]? with
    | some self, some entry =>
      if entry.2.2 ∈ w.alive then none else some (none, w.handleDown self ref)
    | _, _ => none
  | .poll =>
    match w.self with
    | some self => if w.poll then some (none, w.handlePoll self) else none
    | none => none

end World

/-- A virtual machine with the history of the registrations its fences have accepted. -/
structure Observed where
  world : World
  registrations : List (Handle × ℕ)

/-- The registration an accepted call adds to the history. -/
def Event.registration : Event → Option Reply → List (Handle × ℕ)
  | .lease handle _ (.register _ task), some .ok => [(handle, task)]
  | _, _ => []

/-- A fresh virtual machine: no process, no marker, no fence. -/
def World.init : World := ⟨∅, 0, 0, ∅, [], none, ∅, ∅, false⟩

def machine : Machine Observed Event where
  initial s := s = ⟨.init, []⟩
  step s e := (s.world.react e).map fun r ↦
    ⟨r.2, e.registration r.1 ++ s.registrations⟩

/-! ## What a clause does to a ledger

Everything but a grant and a registration only takes away, and what it takes away is dead. -/

namespace Lease

/-- A later state of the same lease: revoked if it was. -/
structure Later (l l' : Lease) : Prop where
  token : l'.token = l.token
  engine : l'.engine = l.engine
  guardian : l'.guardian = l.guardian
  runtime : l'.runtime = l.runtime
  phase : l.phase = .revoked → l'.phase = .revoked

theorem Later.refl (l : Lease) : l.Later l := ⟨rfl, rfl, rfl, rfl, id⟩

theorem Later.trans {l l' l'' : Lease} (h : l.Later l') (h' : l'.Later l'') : l.Later l'' :=
  ⟨h'.token.trans h.token, h'.engine.trans h.engine, h'.guardian.trans h.guardian,
    h'.runtime.trans h.runtime, fun hp ↦ h'.phase (h.phase hp)⟩

end Lease

namespace World

variable {w v u : World} {self store : ℕ}

/-- The step from `w` to `v` grants and registers nothing: what is left of a lease has every task
that runs, and a lease that is gone had none. -/
structure Settles (w v : World) : Prop where
  alive : v.alive = w.alive
  nextPid : v.nextPid = w.nextPid
  nextRef : v.nextRef = w.nextRef
  self : v.self = w.self
  kept : ∀ (store : ℕ) (l' : Lease), v.leases[store]? = some l' →
    v.markers[store]? = w.markers[store]? ∧ ∃ l : Lease, w.leases[store]? = some l ∧ l.Later l' ∧
      ∀ task ∈ w.alive, task ∈ l.tasks → task ∈ l'.tasks
  gone : ∀ store : ℕ, v.leases[store]? = none →
    (w.leases[store]? = none ∧ v.markers[store]? = w.markers[store]?) ∨
      ∃ l : Lease, w.leases[store]? = some l ∧ ∀ task ∈ w.alive, task ∉ l.tasks

namespace Settles

theorem of_eq (halive : v.alive = w.alive) (hpid : v.nextPid = w.nextPid)
    (href : v.nextRef = w.nextRef) (hself : v.self = w.self) (hleases : v.leases = w.leases)
    (hmarkers : v.markers = w.markers) : Settles w v := by
  refine ⟨halive, hpid, href, hself, ?_, ?_⟩
  · intro store l' h
    rw [hmarkers]
    exact ⟨rfl, l', hleases ▸ h, .refl l', fun _ _ h ↦ h⟩
  · intro store h
    exact .inl ⟨hleases ▸ h, by rw [hmarkers]⟩

theorem refl (w : World) : Settles w w := of_eq rfl rfl rfl rfl rfl rfl

theorem trans (h : Settles w v) (h' : Settles v u) : Settles w u := by
  refine ⟨h'.alive.trans h.alive, h'.nextPid.trans h.nextPid, h'.nextRef.trans h.nextRef,
    h'.self.trans h.self, ?_, ?_⟩
  · intro store l'' hu
    obtain ⟨hmarker', l', hv, hlater', htasks'⟩ := h'.kept store l'' hu
    obtain ⟨hmarker, l, hw, hlater, htasks⟩ := h.kept store l' hv
    refine ⟨hmarker'.trans hmarker, l, hw, hlater.trans hlater', fun task halive hmem ↦ ?_⟩
    exact htasks' task (h.alive ▸ halive) (htasks task halive hmem)
  · intro store hu
    rcases h'.gone store hu with ⟨hv, hmarker'⟩ | ⟨l', hv, hdead⟩
    · rcases h.gone store hv with ⟨hw, hmarker⟩ | hdead
      · exact .inl ⟨hw, hmarker'.trans hmarker⟩
      · exact .inr hdead
    · obtain ⟨-, l, hw, -, htasks⟩ := h.kept store l' hv
      refine .inr ⟨l, hw, fun task halive hmem ↦ ?_⟩
      exact hdead task (h.alive ▸ halive) (htasks task halive hmem)

/-- One lease is replaced by a later state of it. -/
theorem replace {l l' : Lease} (hl : w.leases[store]? = some l)
    (hleases : v.leases = w.leases.insert store l') (hmarkers : v.markers = w.markers)
    (halive : v.alive = w.alive) (hpid : v.nextPid = w.nextPid)
    (href : v.nextRef = w.nextRef) (hself : v.self = w.self) (hlater : l.Later l')
    (htasks : ∀ task ∈ w.alive, task ∈ l.tasks → task ∈ l'.tasks) : Settles w v := by
  refine ⟨halive, hpid, href, hself, ?_, ?_⟩
  · intro other m hm
    rw [hleases, Table.get_insert] at hm
    rw [hmarkers]
    by_cases hstore : store = other
    · rw [if_pos hstore, Option.some.injEq] at hm
      rw [← hm, ← hstore]
      exact ⟨rfl, l, hl, hlater, htasks⟩
    · rw [if_neg hstore] at hm
      exact ⟨rfl, m, hm, .refl m, fun _ _ h ↦ h⟩
  · intro other hnone
    rw [hleases, Table.get_insert] at hnone
    by_cases hstore : store = other
    · rw [if_pos hstore] at hnone
      cases hnone
    · rw [if_neg hstore] at hnone
      exact .inl ⟨hnone, by rw [hmarkers]⟩

theorem foldl {α : Type} {f : World → α → World} (hf : ∀ w x, Settles w (f w x)) :
    ∀ (l : List α) (w : World), Settles w (l.foldl f w) := by
  intro l
  induction l with
  | nil => exact fun w ↦ .refl w
  | cons x l ih => exact fun w ↦ (hf w x).trans (ih (f w x))

end Settles

theorem dropTask_settles {task : ℕ} (h : task ∉ w.alive) :
    Settles w (w.dropTask store task) := by
  unfold dropTask
  split
  case h_1 => exact .refl w
  case h_2 l hl =>
    refine Settles.replace hl rfl rfl rfl rfl rfl rfl ⟨rfl, rfl, rfl, rfl, id⟩ ?_
    intro other halive hmem
    rw [Std.ExtTreeMap.mem_erase]
    refine ⟨fun heq ↦ ?_, hmem⟩
    rw [Std.LawfulEqCmp.compare_eq_iff_eq] at heq
    exact h (heq ▸ halive)

theorem dropDead_settles (w : World) (store : ℕ) (tasks : List ℕ) :
    Settles w (w.dropDead store tasks) := by
  refine Settles.foldl (fun w task ↦ ?_) tasks w
  split
  case isTrue => exact .refl w
  case isFalse halive => exact dropTask_settles fun hmem ↦ halive (decide_eq_true hmem)

theorem maybeRetire_settles (w : World) (self store : ℕ) :
    Settles w (w.maybeRetire self store) := by
  unfold maybeRetire
  split
  case h_1 => exact .refl w
  case h_2 l hl =>
    split
    case isFalse => exact .refl w
    case isTrue hretire =>
      have hmarkers : ∀ other, store ≠ other →
          (if w.markers[store]? = some (self, l.token) then w.markers.erase store
            else w.markers)[other]? = w.markers[other]? := by
        intro other hother
        split
        · rw [Table.get_erase, if_neg hother]
        · rfl
      refine ⟨rfl, rfl, rfl, rfl, fun other l' hl' ↦ ?_, fun other hnone ↦ ?_⟩
      · rw [Table.get_erase] at hl'
        by_cases hother : store = other
        · rw [if_pos hother] at hl'
          cases hl'
        · rw [if_neg hother] at hl'
          exact ⟨hmarkers other hother, l', hl', .refl l', fun _ _ h ↦ h⟩
      · rw [Table.get_erase] at hnone
        by_cases hother : store = other
        · refine .inr ⟨l, hother ▸ hl, fun task _ hmem ↦ ?_⟩
          rw [Std.ExtTreeMap.isEmpty_iff.mp hretire.2] at hmem
          exact Std.ExtTreeMap.not_mem_empty hmem
        · rw [if_neg hother] at hnone
          exact .inl ⟨hnone, hmarkers other hother⟩

theorem armPoll_settles (w : World) : Settles w w.armPoll := by
  unfold armPoll
  split
  case isTrue => exact .of_eq rfl rfl rfl rfl rfl rfl
  case isFalse => exact .refl w

/-- The lease is revoked before its ledger is looked at, and stays so while it is. -/
theorem revokeStore_settles (w : World) (self store : ℕ) :
    Settles w (w.revokeStore self store) ∧
      ∀ l, (w.revokeStore self store).leases[store]? = some l → l.phase = .revoked := by
  unfold revokeStore
  split
  case h_1 hnone => exact ⟨.refl w, fun l hl ↦ by rw [hnone] at hl; cases hl⟩
  case h_2 l hl =>
    split
    case isTrue hrevoked =>
      refine ⟨.refl w, fun l' hl' ↦ ?_⟩
      rw [hl, Option.some.injEq] at hl'
      exact hl' ▸ hrevoked
    case isFalse =>
      generalize hclosed : ({ w with
          leases := w.leases.insert store { l with phase := .revoked }
          sent := w.sent ++ Signal.revoked l.guardian l.generation ::
            l.tasks.keys.map Signal.kill } : World) = closed
      have hrest : Settles closed
          ((closed.dropDead store l.tasks.keys).maybeRetire self store).armPoll :=
        ((dropDead_settles _ _ _).trans (maybeRetire_settles _ _ _)).trans (armPoll_settles _)
      have hclose : Settles w closed := by
        subst hclosed
        exact .replace hl rfl rfl rfl rfl rfl rfl ⟨rfl, rfl, rfl, rfl, fun _ ↦ rfl⟩ fun _ _ h ↦ h
      refine ⟨hclose.trans hrest, fun l' hl' ↦ ?_⟩
      obtain ⟨-, m, hm, hlater, -⟩ := hrest.kept store l' hl'
      refine hlater.phase ?_
      subst hclosed
      rw [Table.get_insert, if_pos rfl, Option.some.injEq] at hm
      exact hm ▸ rfl

theorem handleDown_settles (w : World) (self ref : ℕ) : Settles w (w.handleDown self ref) := by
  unfold handleDown
  split
  case h_1 => exact .refl w
  case h_2 => exact (revokeStore_settles _ _ _).1

theorem handlePoll_settles (w : World) (self : ℕ) : Settles w (w.handlePoll self) := by
  have hpolled : Settles w { w with poll := false } := .of_eq rfl rfl rfl rfl rfl rfl
  refine (hpolled.trans (.foldl (fun acc entry ↦ ?_) _ _)).trans (armPoll_settles _)
  split
  case isTrue => exact (dropDead_settles _ _ _).trans (maybeRetire_settles _ _ _)
  case isFalse => exact .refl acc

/-! ## Grants and registrations -/

/-- A grant: the store had neither lease nor marker, and the token is new. -/
structure Grants (w v : World) (handle : Handle) (engine guardian runtime : ℕ) : Prop where
  vacant : w.leases[handle.store]? = none
  unmarked : w.markers[handle.store]? = none
  fence : w.self = some handle.fence
  running : engine ∈ w.alive ∧ guardian ∈ w.alive ∧ runtime ∈ w.alive
  token : handle.token = w.nextRef
  alive : v.alive = w.alive
  nextPid : v.nextPid = w.nextPid
  nextRef : w.nextRef < v.nextRef
  self : v.self = w.self
  markers : v.markers = w.markers.insert handle.store (handle.fence, handle.token)
  leases : ∃ l : Lease, v.leases = w.leases.insert handle.store l ∧ l.token = handle.token ∧
    l.engine = engine ∧ l.guardian = guardian ∧ l.runtime = runtime

/-- An accepted registration: the lease is active, and has the task on its ledger from now on. -/
structure Enters (w v : World) (handle : Handle) (task : ℕ) : Prop where
  alive : v.alive = w.alive
  nextPid : v.nextPid = w.nextPid
  nextRef : w.nextRef ≤ v.nextRef
  self : v.self = w.self
  markers : v.markers = w.markers
  running : task ∈ w.alive
  leases : ∃ l l' : Lease, w.leases[handle.store]? = some l ∧ l.token = handle.token ∧
    w.active l = true ∧ l.Later l' ∧ (∀ other ∈ l.tasks, other ∈ l'.tasks) ∧ task ∈ l'.tasks ∧
    ∀ store, v.leases[store]? = if handle.store = store then some l' else w.leases[store]?

/-- Watching the owners changes nothing but the monitors and the supply of references. -/
theorem monitorOwners_spec (store : ℕ) : ∀ (pids : List ℕ) (w : World),
    (monitorOwners store w pids).2.alive = w.alive ∧
      (monitorOwners store w pids).2.nextPid = w.nextPid ∧
      w.nextRef ≤ (monitorOwners store w pids).2.nextRef ∧
      (monitorOwners store w pids).2.self = w.self ∧
      (monitorOwners store w pids).2.markers = w.markers ∧
      (monitorOwners store w pids).2.leases = w.leases := by
  intro pids
  induction pids with
  | nil => exact fun w ↦ ⟨rfl, rfl, le_rfl, rfl, rfl, rfl⟩
  | cons pid pids ih =>
    intro w
    obtain ⟨halive, hpid, href, hself, hmarkers, hleases⟩ := ih (w.monitor (store, .owner, pid))
    refine ⟨halive, hpid, ?_, hself, hmarkers, hleases⟩
    exact (Nat.le_succ w.nextRef).trans href

theorem acquire_spec (w : World) (fence caller store generation engine guardian runtime : ℕ) :
    (∃ reason, w.callAcquire fence caller store generation engine guardian runtime =
        (.error reason, w)) ∨
      ∃ handle v, w.callAcquire fence caller store generation engine guardian runtime =
        (.granted handle, v) ∧ handle.store = store ∧
        Grants w v handle engine guardian runtime := by
  unfold callAcquire
  split
  case isFalse => exact .inl ⟨_, rfl⟩
  case isTrue hself =>
    unfold acquire
    split
    case isTrue => exact .inl ⟨_, rfl⟩
    case isFalse hvalid =>
      have hrunning : engine ∈ w.alive ∧ guardian ∈ w.alive ∧ runtime ∈ w.alive := by
        by_contra hdead
        refine hvalid (.inr (.inr ?_))
        simpa [localAlive] using hdead
      split
      case h_1 => exact .inl ⟨_, rfl⟩
      case h_2 hvacant =>
        split
        case isTrue => exact .inl ⟨_, rfl⟩
        case isFalse hmarker =>
          obtain ⟨halive, hpid, href, hself', hmarkers, hleases⟩ :=
            monitorOwners_spec store [engine, guardian, runtime].eraseDups
              { w with
                nextRef := w.nextRef + 1
                markers := w.markers.insert store (fence, w.nextRef) }
          refine .inr ⟨_, _, rfl, rfl, hvacant, not_not.mp hmarker, hself, hrunning, rfl, halive,
            hpid, href, hself', hmarkers, ?_⟩
          exact ⟨_, congrArg (Std.ExtTreeMap.insert · store _) hleases, rfl, rfl, rfl, rfl⟩

theorem register_spec {l : Lease} {handle : Handle} (hl : w.leases[handle.store]? = some l)
    (htoken : l.token = handle.token) (self caller relay task : ℕ) :
    ((w.register self handle.store l caller relay task).1 ≠ .ok ∧
        Settles w (w.register self handle.store l caller relay task).2) ∨
      (w.register self handle.store l caller relay task).1 = .ok ∧
        Enters w (w.register self handle.store l caller relay task).2 handle task := by
  unfold register
  split
  case isTrue => exact .inl ⟨Reply.error_ne_ok _, .refl w⟩
  case isFalse =>
    split
    case isTrue => exact .inl ⟨Reply.error_ne_ok _, (revokeStore_settles _ _ _).1⟩
    case isFalse hactive =>
      split
      case isTrue => exact .inl ⟨Reply.error_ne_ok _, .refl w⟩
      case isFalse hrunning =>
        have htask : task ∈ w.alive := by
          by_contra hdead
          exact hrunning (.inr fun h ↦ hdead (of_decide_eq_true h))
        split
        case isTrue hknown =>
          refine .inr ⟨rfl, rfl, rfl, le_rfl, rfl, rfl, htask, l, l, hl, htoken,
            not_not.mp hactive, .refl l, fun _ h ↦ h, ?_, fun store ↦ ?_⟩
          · exact Std.ExtTreeMap.mem_iff_isSome_getElem?.mpr (Option.isSome_of_eq_some hknown)
          · by_cases hstore : handle.store = store
            · rw [if_pos hstore, ← hstore, hl]
            · rw [if_neg hstore]
        case isFalse =>
          split
          case isTrue => exact .inl ⟨Reply.error_ne_ok _, (revokeStore_settles _ _ _).1⟩
          case isFalse =>
            refine .inr ⟨rfl, rfl, rfl, Nat.le_succ _, rfl, rfl, htask, l,
              { l with
                tasks := l.tasks.insert task relay
                relays := l.relays.insert relay w.nextRef },
              hl, htoken, not_not.mp hactive, ⟨rfl, rfl, rfl, rfl, id⟩, ?_, ?_, fun store ↦ ?_⟩
            · exact fun other h ↦ Std.ExtTreeMap.mem_insert.mpr (.inr h)
            · exact Std.ExtTreeMap.mem_insert_self
            · exact Table.get_insert _ _ _ _

/-- What a lease holder's call does: it enters a task, or it only takes away. -/
theorem callLease_spec (w : World) (handle : Handle) (caller : ℕ) (request : Request) :
    (Settles w (w.callLease handle caller request).2 ∧
        ((w.callLease handle caller request).1 = .ok → ∀ relay task,
          request ≠ .register relay task)) ∨
      ∃ relay task, request = .register relay task ∧
        (w.callLease handle caller request).1 = .ok ∧
        Enters w (w.callLease handle caller request).2 handle task := by
  unfold callLease
  split
  case isFalse => exact .inl ⟨.refl w, fun h ↦ absurd h (Reply.error_ne_ok _)⟩
  case isTrue =>
    unfold handleLease
    split
    case h_1 => exact .inl ⟨.refl w, fun h ↦ absurd h (Reply.error_ne_ok _)⟩
    case h_2 l hl =>
      split
      case isFalse => exact .inl ⟨.refl w, fun h ↦ absurd h (Reply.error_ne_ok _)⟩
      case isTrue hmatch =>
        cases request with
        | live => exact .inl ⟨.refl w, fun _ _ _ ↦ Request.noConfusion⟩
        | liveTask relay task => exact .inl ⟨.refl w, fun _ _ _ ↦ Request.noConfusion⟩
        | register relay task =>
          rcases register_spec hl hmatch.2 handle.fence caller relay task with
            ⟨hreply, hsettles⟩ | ⟨hreply, henters⟩
          · exact .inl ⟨hsettles, fun h ↦ absurd h hreply⟩
          · exact .inr ⟨relay, task, rfl, hreply, henters⟩
        | dead relay task =>
          refine .inl ⟨?_, fun _ _ _ ↦ Request.noConfusion⟩
          simp only [leaseRequest, dead]
          split
          case isTrue => exact .refl w
          case isFalse =>
            split
            case isTrue => exact .refl w
            case isFalse =>
              split
              case isTrue => exact .refl w
              case isFalse halive =>
                have hdead : task ∉ w.alive := fun hmem ↦ halive (decide_eq_true hmem)
                exact (dropTask_settles hdead).trans (maybeRetire_settles _ _ _)
        | revoke =>
          refine .inl ⟨?_, fun _ _ _ ↦ Request.noConfusion⟩
          simp only [leaseRequest, revoke]
          split
          case isTrue => exact (revokeStore_settles _ _ _).1
          case isFalse => exact .refl w

/-! ## One event -/

theorem terminateLease_markers (w : World) (self store other : ℕ) :
    (w.terminateLease self store).markers[other]? = w.markers[other]? ∨
      ∃ l : Lease, w.leases[other]? = some l ∧ ∀ task ∈ w.alive, task ∉ l.tasks := by
  unfold terminateLease
  split
  case h_1 => exact .inl rfl
  case h_2 l hl =>
    split
    case isFalse => exact .inl rfl
    case isTrue hdead =>
      by_cases hother : store = other
      · refine .inr ⟨l, hother ▸ hl, fun task halive hmem ↦ ?_⟩
        have hkey := List.all_eq_true.mp hdead.1 task (Std.ExtTreeMap.mem_keys.mpr hmem)
        simp [localAlive, halive] at hkey
      · exact .inl (by rw [Table.get_erase, if_neg hother])

theorem terminateLease_ledger (w : World) (self store : ℕ) :
    (w.terminateLease self store).leases = w.leases ∧
      (w.terminateLease self store).alive = w.alive ∧
      (w.terminateLease self store).nextPid = w.nextPid ∧
      (w.terminateLease self store).nextRef = w.nextRef := by
  unfold terminateLease
  split <;> exact ⟨rfl, rfl, rfl, rfl⟩

/-- However far `terminate/2` gets, it keeps the marker of every store with a task that runs. -/
theorem terminate_spec (self : ℕ) : ∀ (reached : List ℕ) (w : World),
    (w.terminate self reached).nextPid = w.nextPid ∧
      (w.terminate self reached).nextRef = w.nextRef ∧
      ∀ store : ℕ, (w.terminate self reached).markers[store]? = w.markers[store]? ∨
        ∃ l : Lease, w.leases[store]? = some l ∧ ∀ task ∈ w.alive, task ∉ l.tasks := by
  intro reached
  induction reached with
  | nil => exact fun w ↦ ⟨rfl, rfl, fun _ ↦ .inl rfl⟩
  | cons first reached ih =>
    intro w
    obtain ⟨hpid, href, hmarkers⟩ := ih (w.terminateLease self first)
    obtain ⟨hleases, halive, hpid', href'⟩ := terminateLease_ledger w self first
    refine ⟨hpid.trans hpid', href.trans href', fun store ↦ ?_⟩
    rcases hmarkers store with hmarker | hdead
    · rcases terminateLease_markers w self first store with hmarker' | hdead
      · exact .inl (hmarker.trans hmarker')
      · exact .inr hdead
    · rw [hleases, halive] at hdead
      exact .inr hdead

/-- What an event can do, with the registrations it adds to the history. -/
inductive Change (w : World) : World → List (Handle × ℕ) → Prop
  | settled {v : World} : Settles w v → Change w v []
  | spawned {v : World} : v.alive = insert w.nextPid w.alive → v.nextPid = w.nextPid + 1 →
      v.nextRef = w.nextRef → v.leases = w.leases → v.markers = w.markers →
      (v.self = w.self ∨ w.self = none) → Change w v []
  | died (pid : ℕ) : Change w { w with alive := w.alive.erase pid } []
  | lost {v : World} : v.alive ⊆ w.alive → v.nextPid = w.nextPid → v.nextRef = w.nextRef →
      v.leases = ∅ →
      (∀ store : ℕ, v.markers[store]? = w.markers[store]? ∨
        ∃ l : Lease, w.leases[store]? = some l ∧ ∀ task ∈ w.alive, task ∉ l.tasks) →
      Change w v []
  | granted {v : World} {handle : Handle} {engine guardian runtime : ℕ} :
      Grants w v handle engine guardian runtime → Change w v []
  | entered {v : World} {handle : Handle} {task : ℕ} :
      Enters w v handle task → Change w v [(handle, task)]

/-- **One event.** -/
theorem react_change {e : Event} {reply : Option Reply} (h : w.react e = some (reply, v)) :
    Change w v (e.registration reply) := by
  cases e with
  | spawn =>
    cases h
    exact .spawned rfl rfl rfl rfl rfl (.inl rfl)
  | die pid =>
    simp only [react] at h
    split at h
    case isTrue => cases h
    case isFalse =>
      cases h
      exact .died pid
  | start =>
    simp only [react] at h
    split at h
    case h_1 => cases h
    case h_2 hself =>
      cases h
      exact .spawned rfl rfl rfl rfl rfl (.inr hself)
  | lost reached =>
    simp only [react] at h
    split at h
    case h_1 => cases h
    case h_2 self hself =>
      cases h
      obtain ⟨hpid, href, hmarkers⟩ := terminate_spec self reached w
      exact .lost (Finset.erase_subset _ _) hpid href rfl hmarkers
  | acquire fence caller store generation engine guardian runtime =>
    simp only [react, Option.some.injEq, Prod.mk.injEq] at h
    obtain ⟨rfl, rfl⟩ := h
    rcases acquire_spec w fence caller store generation engine guardian runtime with
      ⟨reason, hrefused⟩ | ⟨handle, v, hgranted, -, hgrants⟩
    · rw [hrefused]
      exact .settled (.refl w)
    · rw [hgranted]
      exact .granted hgrants
  | lease handle caller request =>
    simp only [react, Option.some.injEq, Prod.mk.injEq] at h
    obtain ⟨rfl, rfl⟩ := h
    rcases callLease_spec w handle caller request with
      ⟨hsettles, hother⟩ | ⟨relay, task, rfl, hreply, henters⟩
    · have hnothing : (Event.lease handle caller request).registration
          (some (w.callLease handle caller request).1) = [] := by
        unfold Event.registration
        split
        case h_1 relay task hrequest hreply =>
          cases hrequest
          exact absurd rfl (hother (Option.some.inj hreply) _ _)
        case h_2 => rfl
      rw [hnothing]
      exact .settled hsettles
    · rw [hreply]
      exact .entered henters
  | down ref =>
    simp only [react] at h
    split at h
    case h_1 =>
      split at h
      case isTrue => cases h
      case isFalse =>
        cases h
        exact .settled (handleDown_settles _ _ _)
    case h_2 => cases h
  | poll =>
    simp only [react] at h
    split at h
    case h_1 =>
      split at h
      case isTrue =>
        cases h
        exact .settled (handlePoll_settles _ _)
      case isFalse => cases h
    case h_2 => cases h

/-! ## What lasts -/

/-- A marker without a lease: its fence is gone, and nobody can say which tasks still run. -/
def Orphaned (w : World) (store : ℕ) : Prop :=
  w.leases[store]? = none ∧ w.markers[store]? ≠ none

/-- Whatever lease carries the token of `handle`, now or later, satisfies `P`. -/
def Bound (w : World) (handle : Handle) (P : Lease → Prop) : Prop :=
  handle.token < w.nextRef ∧
    ∀ l : Lease, w.leases[handle.store]? = some l → l.token = handle.token → P l

variable {new : List (Handle × ℕ)}

theorem Change.orphaned (hc : Change w v new) (h : w.Orphaned store) : v.Orphaned store := by
  cases hc with
  | settled hs =>
    obtain ⟨hlease, hmarker⟩ := h
    have hnone : v.leases[store]? = none := by
      rcases hv : v.leases[store]? with _ | l'
      · rfl
      · obtain ⟨-, l, hl, -⟩ := hs.kept store l' hv
        rw [hlease] at hl
        cases hl
    rcases hs.gone store hnone with ⟨-, hsame⟩ | ⟨l, hl, -⟩
    · exact ⟨hnone, hsame ▸ hmarker⟩
    · rw [hlease] at hl
      cases hl
  | spawned _ _ _ hleases hmarkers _ => exact ⟨hleases ▸ h.1, hmarkers ▸ h.2⟩
  | died pid => exact h
  | lost _ _ _ hleases hmarkers =>
    refine ⟨by rw [hleases]; exact Std.ExtTreeMap.getElem?_empty, ?_⟩
    rcases hmarkers store with hsame | ⟨l, hl, -⟩
    · exact hsame ▸ h.2
    · rw [h.1] at hl
      cases hl
  | @granted v handle _ _ _ hg =>
    -- a marked store is granted to nobody
    have hother : handle.store ≠ store := fun heq ↦ h.2 (heq ▸ hg.unmarked)
    obtain ⟨l, hleases, -⟩ := hg.leases
    refine ⟨?_, ?_⟩
    · rw [hleases, Table.get_insert, if_neg hother]
      exact h.1
    · rw [hg.markers, Table.get_insert, if_neg hother]
      exact h.2
  | @entered v handle task he =>
    obtain ⟨l, l', hl, -, -, -, -, -, hleases⟩ := he.leases
    have hother : handle.store ≠ store := by
      intro heq
      rw [heq, h.1] at hl
      cases hl
    exact ⟨by rw [hleases, if_neg hother]; exact h.1, he.markers ▸ h.2⟩

theorem Change.nextRef_le (hc : Change w v new) : w.nextRef ≤ v.nextRef := by
  cases hc with
  | settled hs => exact hs.nextRef.ge
  | spawned _ _ href _ _ _ => exact href.ge
  | died pid => exact le_rfl
  | lost _ _ href => exact href.ge
  | granted hg => exact hg.nextRef.le
  | entered he => exact he.nextRef

theorem Change.nextPid_le (hc : Change w v new) : w.nextPid ≤ v.nextPid := by
  cases hc with
  | settled hs => exact hs.nextPid.ge
  | spawned _ hpid => exact hpid ▸ Nat.le_succ _
  | died pid => exact le_rfl
  | lost _ hpid => exact hpid.ge
  | granted hg => exact hg.nextPid.ge
  | entered he => exact he.nextPid.ge

/-- Every lease is a later state of one that was there, or carries a new token. -/
theorem Change.later (hc : Change w v new) {l' : Lease} (hl' : v.leases[store]? = some l') :
    l'.token = w.nextRef ∨ ∃ l : Lease, w.leases[store]? = some l ∧ l.Later l' := by
  cases hc with
  | settled hs =>
    obtain ⟨-, l, hl, hlater, -⟩ := hs.kept store l' hl'
    exact .inr ⟨l, hl, hlater⟩
  | spawned _ _ _ hleases => exact .inr ⟨l', hleases ▸ hl', .refl l'⟩
  | died pid => exact .inr ⟨l', hl', .refl l'⟩
  | lost _ _ _ hleases =>
    rw [hleases, Std.ExtTreeMap.getElem?_empty] at hl'
    cases hl'
  | granted hg =>
    obtain ⟨l, hleases, htoken, -⟩ := hg.leases
    rw [hleases, Table.get_insert] at hl'
    split at hl'
    case isTrue =>
      cases hl'
      exact .inl (htoken.trans hg.token)
    case isFalse => exact .inr ⟨l', hl', .refl l'⟩
  | entered he =>
    obtain ⟨l, m, hl, -, -, hlater, -, -, hleases⟩ := he.leases
    rw [hleases] at hl'
    split at hl'
    case isTrue hstore =>
      cases hl'
      exact .inr ⟨l, hstore ▸ hl, hlater⟩
    case isFalse => exact .inr ⟨l', hl', .refl l'⟩

/-- The dead stay dead: a new process has a new number. -/
theorem Change.dead (hc : Change w v new) {pid : ℕ} (h : pid < w.nextPid ∧ pid ∉ w.alive) :
    pid < v.nextPid ∧ pid ∉ v.alive := by
  cases hc with
  | settled hs => rwa [hs.nextPid, hs.alive]
  | spawned halive hpid =>
    rw [hpid, halive, Finset.mem_insert, not_or]
    exact ⟨h.1.trans (Nat.lt_succ_self _), h.1.ne, h.2⟩
  | died other => exact ⟨h.1, fun hmem ↦ h.2 (Finset.mem_of_mem_erase hmem)⟩
  | lost halive hpid => exact ⟨hpid ▸ h.1, fun hmem ↦ h.2 (halive hmem)⟩
  | granted hg => rwa [hg.nextPid, hg.alive]
  | entered he => rwa [he.nextPid, he.alive]

theorem Change.bound (hc : Change w v new) {handle : Handle} {P : Lease → Prop}
    (hP : ∀ l l' : Lease, l.Later l' → P l → P l') (h : w.Bound handle P) :
    v.Bound handle P := by
  refine ⟨h.1.trans_le hc.nextRef_le, fun l' hl' htoken ↦ ?_⟩
  rcases hc.later hl' with hnew | ⟨l, hl, hlater⟩
  · exact absurd (hnew.symm.trans htoken) h.1.ne'
  · exact hP l l' hlater (h.2 l hl (hlater.token.symm.trans htoken))

end World

/-! ## Exclusion -/

/-- Every lease has its own marker, and every registered task that runs is on the ledger of its
store, or the store is refused for good. -/
structure Exclusive (s : Observed) : Prop where
  held : ∀ (store : ℕ) (l : Lease), s.world.leases[store]? = some l →
    ∃ pid, s.world.self = some pid ∧ s.world.markers[store]? = some (pid, l.token)
  numbered : ∀ pid ∈ s.world.alive, pid < s.world.nextPid
  known : ∀ r ∈ s.registrations, r.2 < s.world.nextPid
  tracked : ∀ r ∈ s.registrations, r.2 ∈ s.world.alive → s.world.Orphaned r.1.store ∨
    ∃ l : Lease, s.world.leases[r.1.store]? = some l ∧ r.2 ∈ l.tasks

namespace World

variable {w v : World} {new registrations : List (Handle × ℕ)}

theorem Settles.exclusive (hs : Settles w v) (h : Exclusive ⟨w, registrations⟩) :
    Exclusive ⟨v, registrations⟩ := by
  refine ⟨fun store l' hl' ↦ ?_, ?_, ?_, fun r hr halive ↦ ?_⟩
  · obtain ⟨hmarker, l, hl, hlater, -⟩ := hs.kept store l' hl'
    obtain ⟨pid, hself, hmarked⟩ := h.held store l hl
    exact ⟨pid, hs.self.trans hself, by rw [hmarker, hlater.token]; exact hmarked⟩
  · intro pid hpid
    exact hs.nextPid ▸ h.numbered pid (hs.alive ▸ hpid)
  · intro r hr
    exact hs.nextPid ▸ h.known r hr
  · have halive' : r.2 ∈ w.alive := hs.alive ▸ halive
    rcases h.tracked r hr halive' with horphaned | ⟨l, hl, hmem⟩
    · exact .inl (Change.orphaned (.settled hs) horphaned)
    · rcases hv : v.leases[r.1.store]? with _ | l'
      · -- a lease that is gone had no task that runs
        rcases hs.gone r.1.store hv with ⟨hnone, -⟩ | ⟨m, hm, hdead⟩
        · exact absurd (hl.symm.trans hnone) (Option.some_ne_none l)
        · cases hl.symm.trans hm
          exact absurd hmem (hdead r.2 halive')
      · obtain ⟨-, m, hm, -, htasks⟩ := hs.kept r.1.store l' hv
        cases hl.symm.trans hm
        exact .inr ⟨l', rfl, htasks r.2 halive' hmem⟩

theorem Grants.exclusive {handle : Handle} {engine guardian runtime : ℕ}
    (hg : Grants w v handle engine guardian runtime) (h : Exclusive ⟨w, registrations⟩) :
    Exclusive ⟨v, registrations⟩ := by
  obtain ⟨new, hleases, htoken, -⟩ := hg.leases
  refine ⟨fun store l hl ↦ ?_, ?_, ?_, fun r hr halive ↦ ?_⟩
  · rw [hleases, Table.get_insert] at hl
    by_cases hstore : handle.store = store
    · rw [if_pos hstore] at hl
      cases hl
      refine ⟨handle.fence, hg.self.trans hg.fence, ?_⟩
      rw [hg.markers, Table.get_insert, if_pos hstore, htoken]
    · rw [if_neg hstore] at hl
      obtain ⟨pid, hself, hmarked⟩ := h.held store l hl
      refine ⟨pid, hg.self.trans hself, ?_⟩
      rw [hg.markers, Table.get_insert, if_neg hstore]
      exact hmarked
  · intro pid hpid
    exact hg.nextPid ▸ h.numbered pid (hg.alive ▸ hpid)
  · intro r hr
    exact hg.nextPid ▸ h.known r hr
  · rcases h.tracked r hr (hg.alive ▸ halive) with horphaned | ⟨l, hl, hmem⟩
    · exact .inl (Change.orphaned (.granted hg) horphaned)
    · have hother : handle.store ≠ r.1.store := by
        intro heq
        rw [← heq, hg.vacant] at hl
        cases hl
      refine .inr ⟨l, ?_, hmem⟩
      rw [hleases, Table.get_insert, if_neg hother]
      exact hl

theorem Enters.exclusive {handle : Handle} {task : ℕ} (he : Enters w v handle task)
    (h : Exclusive ⟨w, registrations⟩) : Exclusive ⟨v, (handle, task) :: registrations⟩ := by
  obtain ⟨l, l', hl, -, -, hlater, htasks, htask, hleases⟩ := he.leases
  refine ⟨fun store m hm ↦ ?_, ?_, ?_, fun r hr halive ↦ ?_⟩
  · rw [hleases] at hm
    rw [he.markers, he.self]
    by_cases hstore : handle.store = store
    · rw [if_pos hstore] at hm
      cases hm
      rw [hlater.token]
      exact h.held store l (hstore ▸ hl)
    · rw [if_neg hstore] at hm
      exact h.held store m hm
  · intro pid hpid
    exact he.nextPid ▸ h.numbered pid (he.alive ▸ hpid)
  · intro r hr
    rw [he.nextPid]
    rcases List.mem_cons.mp hr with rfl | hr
    · exact h.numbered task he.running
    · exact h.known r hr
  · rcases List.mem_cons.mp hr with rfl | hr
    · exact .inr ⟨l', by rw [hleases, if_pos rfl], htask⟩
    · rcases h.tracked r hr (he.alive ▸ halive) with horphaned | ⟨m, hm, hmem⟩
      · exact .inl (Change.orphaned (.entered he) horphaned)
      · by_cases hstore : handle.store = r.1.store
        · rw [hstore] at hl
          cases hl.symm.trans hm
          exact .inr ⟨l', by rw [hleases, if_pos hstore], htasks r.2 hmem⟩
        · exact .inr ⟨m, by rw [hleases, if_neg hstore]; exact hm, hmem⟩

/-- A store that loses its fence while one of its tasks runs is orphaned: the marker was there, and
a task that runs keeps it there. -/
theorem orphaned_of_lost (h : Exclusive ⟨w, registrations⟩) (hleases : v.leases = ∅)
    (hmarkers : ∀ store : ℕ, v.markers[store]? = w.markers[store]? ∨
      ∃ l : Lease, w.leases[store]? = some l ∧ ∀ task ∈ w.alive, task ∉ l.tasks)
    {r : Handle × ℕ} (hr : r ∈ registrations) (halive : r.2 ∈ w.alive) :
    v.Orphaned r.1.store := by
  refine ⟨by rw [hleases]; exact Std.ExtTreeMap.getElem?_empty, ?_⟩
  rcases h.tracked r hr halive with horphaned | ⟨l, hl, hmem⟩
  · rcases hmarkers r.1.store with hsame | ⟨l, hl, -⟩
    · exact hsame ▸ horphaned.2
    · exact absurd (hl.symm.trans horphaned.1) (Option.some_ne_none l)
  · rcases hmarkers r.1.store with hsame | ⟨m, hm, hdead⟩
    · obtain ⟨pid, -, hmarked⟩ := h.held r.1.store l hl
      rw [hsame, hmarked]
      exact Option.some_ne_none _
    · cases hl.symm.trans hm
      exact absurd hmem (hdead r.2 halive)

theorem Change.exclusive (hc : Change w v new) (h : Exclusive ⟨w, registrations⟩) :
    Exclusive ⟨v, new ++ registrations⟩ := by
  cases hc with
  | settled hs => exact hs.exclusive h
  | granted hg => exact hg.exclusive h
  | entered he => exact he.exclusive h
  | spawned halive hpid _ hleases hmarkers hself =>
    refine ⟨fun store l hl ↦ ?_, ?_, ?_, fun r hr hr' ↦ ?_⟩
    · obtain ⟨pid, hold, hmarked⟩ := h.held store l (hleases ▸ hl)
      rcases hself with hself | hself
      · exact ⟨pid, hself.trans hold, hmarkers ▸ hmarked⟩
      · exact absurd (hold.symm.trans hself) (Option.some_ne_none pid)
    · intro pid hmem
      rw [halive, Finset.mem_insert] at hmem
      rw [hpid]
      rcases hmem with rfl | hmem
      · exact Nat.lt_succ_self _
      · exact (h.numbered pid hmem).trans (Nat.lt_succ_self _)
    · intro r hr
      rw [hpid]
      exact (h.known r hr).trans (Nat.lt_succ_self _)
    · -- the new process has a number nobody was registered under
      rw [halive, Finset.mem_insert] at hr'
      rcases hr' with heq | hr'
      · exact absurd heq (h.known r hr).ne
      · rw [Orphaned, hleases, hmarkers]
        exact h.tracked r hr hr'
  | died pid =>
    refine ⟨h.held, fun p hp ↦ h.numbered p (Finset.mem_of_mem_erase hp), h.known, ?_⟩
    exact fun r hr halive ↦ h.tracked r hr (Finset.mem_of_mem_erase halive)
  | lost halive hpid _ hleases hmarkers =>
    refine ⟨fun store l hl ↦ ?_, ?_, ?_, fun r hr hr' ↦ ?_⟩
    · rw [hleases, Std.ExtTreeMap.getElem?_empty] at hl
      cases hl
    · exact fun p hp ↦ hpid ▸ h.numbered p (halive hp)
    · exact fun r hr ↦ hpid ▸ h.known r hr
    · exact .inl (orphaned_of_lost h hleases hmarkers hr (halive hr'))

end World

theorem step_change {s t : Observed} {e : Event} (h : machine.step s e = some t) :
    ∃ new, World.Change s.world t.world new ∧ t.registrations = new ++ s.registrations := by
  simp only [machine, Option.map_eq_some_iff] at h
  obtain ⟨r, hr, rfl⟩ := h
  exact ⟨_, World.react_change hr, rfl⟩

theorem exclusive_step (s : Observed) (e : Event) (t : Observed) (h : Exclusive s)
    (ht : machine.step s e = some t) : Exclusive t := by
  obtain ⟨new, hc, hregistrations⟩ := step_change ht
  have hnew : t = ⟨t.world, new ++ s.registrations⟩ := by rw [← hregistrations]
  rw [hnew]
  exact hc.exclusive h

theorem exclusive_reachable {s : Observed} (hs : machine.Reachable s) : Exclusive s := by
  refine hs.invariant (fun s hinit ↦ ?_) exclusive_step
  cases hinit
  refine ⟨fun store l hl ↦ ?_, ?_, ?_, ?_⟩
  · rw [World.init, Std.ExtTreeMap.getElem?_empty] at hl
    cases hl
  · exact fun pid hpid ↦ absurd hpid (Finset.notMem_empty pid)
  · exact fun r hr ↦ absurd hr List.not_mem_nil
  · exact fun r hr ↦ absurd hr List.not_mem_nil

/-- What a change of the machine preserves, every run preserves. -/
theorem run_preserves_world {I : World → Prop}
    (hI : ∀ w v new, World.Change w v new → I w → I v) {events : List Event} {s t : Observed}
    (hs : I s.world) (ht : machine.run s events = some t) : I t.world := by
  refine Machine.run_preserves (I := fun s ↦ I s.world) (fun s e t hs ht ↦ ?_) hs ht
  obtain ⟨new, hc, -⟩ := step_change ht
  exact hI s.world t.world new hc hs

namespace World

variable {w : World} {lease : Handle}

/-- The lease of `handle` stands and has not been revoked. -/
def InForce (w : World) (handle : Handle) : Prop :=
  ∃ l : Lease, w.leases[handle.store]? = some l ∧ l.token = handle.token ∧ l.phase = .active

/-- Who owns a lease is settled when it is granted. -/
theorem Grants.bound {v : World} {engine guardian runtime : ℕ}
    (hg : Grants w v lease engine guardian runtime) :
    v.Bound lease fun l ↦ l.engine = engine ∧ l.guardian = guardian ∧ l.runtime = runtime := by
  obtain ⟨l, hleases, -, howners⟩ := hg.leases
  refine ⟨hg.token ▸ hg.nextRef, fun m hm _ ↦ ?_⟩
  rw [hleases, Table.get_insert, if_pos rfl] at hm
  cases hm
  exact howners

theorem bound_revoked (htoken : lease.token < w.nextRef) (h : ¬ w.InForce lease) :
    w.Bound lease fun l ↦ l.phase = .revoked := by
  refine ⟨htoken, fun l hl hcarries ↦ ?_⟩
  cases hphase : l.phase with
  | active => exact absurd ⟨l, hl, hcarries, hphase⟩ h
  | revoked => exact hphase

theorem not_granted_of_orphaned {fence caller store generation engine guardian runtime : ℕ}
    (h : w.Orphaned store) :
    (w.callAcquire fence caller store generation engine guardian runtime).1 ≠ .granted lease := by
  rcases acquire_spec w fence caller store generation engine guardian runtime with
    ⟨reason, hrefused⟩ | ⟨handle, v, -, rfl, hgrants⟩
  · rw [hrefused]
    exact Reply.noConfusion
  · exact absurd hgrants.unmarked h.2

/-- A registration is accepted only under a lease in force whose owners run. -/
theorem register_accepted {caller relay task : ℕ}
    (h : (w.callLease lease caller (.register relay task)).1 = .ok) :
    ∃ l : Lease, w.leases[lease.store]? = some l ∧ l.token = lease.token ∧ w.active l = true := by
  rcases callLease_spec w lease caller (.register relay task) with
    ⟨-, hother⟩ | ⟨relay', task', hrequest, -, henters⟩
  · exact absurd rfl (hother h relay task)
  · obtain ⟨l, -, hl, htoken, hactive, -⟩ := henters.leases
    exact ⟨l, hl, htoken, hactive⟩

/-- Under a lease that is not in force any more, or that has lost an owner, nothing is registered
later. -/
theorem Grants.closed {t u v : Observed} {engine guardian runtime : ℕ}
    (hg : Grants w t.world lease engine guardian runtime)
    (hnumbered : ∀ pid ∈ w.alive, pid < w.nextPid) {events later : List Event}
    (hu : machine.run t events = some u)
    (hended : ¬ u.world.InForce lease ∨ engine ∉ u.world.alive ∨ guardian ∉ u.world.alive ∨
      runtime ∉ u.world.alive)
    (hv : machine.run u later = some v) {caller relay task : ℕ} :
    (v.world.callLease lease caller (.register relay task)).1 ≠ .ok := by
  intro haccepted
  obtain ⟨l, hl, htoken, hactive⟩ := register_accepted haccepted
  simp only [active, localAlive, Bool.and_eq_true, beq_iff_eq, List.all_cons,
    decide_eq_true_eq, List.all_nil, and_true] at hactive
  obtain ⟨hphase, hengine, hguardian, hruntime⟩ := hactive
  have howners : ∀ (w v : World) (new : List (Handle × ℕ)), Change w v new →
      w.Bound lease (fun l ↦ l.engine = engine ∧ l.guardian = guardian ∧ l.runtime = runtime) →
      v.Bound lease fun l ↦ l.engine = engine ∧ l.guardian = guardian ∧ l.runtime = runtime := by
    intro w v new hc h
    refine hc.bound (fun l l' hlater h ↦ ?_) h
    rwa [hlater.engine, hlater.guardian, hlater.runtime]
  have hbound := run_preserves_world howners hg.bound hu
  obtain ⟨rfl, rfl, rfl⟩ := (run_preserves_world howners hbound hv).2 l hl htoken
  have hdead : ∀ pid ∈ w.alive, pid ∉ u.world.alive → pid ∉ v.world.alive := by
    intro pid hpid hdead
    have hnumber : pid < u.world.nextPid := by
      refine run_preserves_world (I := fun w ↦ pid < w.nextPid)
        (fun _ _ _ hc h ↦ h.trans_le hc.nextPid_le) ?_ hu
      rw [hg.nextPid]
      exact hnumbered pid hpid
    exact (run_preserves_world (fun _ _ _ hc h ↦ hc.dead h) ⟨hnumber, hdead⟩ hv).2
  rcases hended with hended | hended | hended | hended
  · have hrevoked := run_preserves_world
      (fun _ _ _ hc h ↦ hc.bound (fun _ _ hlater h ↦ hlater.phase h) h)
      (bound_revoked hbound.1 hended) hv
    rw [hrevoked.2 l hl htoken] at hphase
    cases hphase
  · exact hdead _ hg.running.1 hended hengine
  · exact hdead _ hg.running.2.1 hended hguardian
  · exact hdead _ hg.running.2.2 hended hruntime

theorem revoke_not_inForce {caller : ℕ} (h : (w.callLease lease caller .revoke).1 = .ok) :
    ¬ (w.callLease lease caller .revoke).2.InForce lease := by
  rintro ⟨l, hl, -, hphase⟩
  unfold callLease handleLease at h hl
  split at hl
  case isFalse hself =>
    rw [if_neg hself] at h
    cases h
  case isTrue hself =>
    rw [if_pos hself] at h
    split at hl
    case h_1 hnone =>
      rw [hnone] at hl
      cases hl
    case h_2 m hm =>
      simp only [hm] at h
      split at hl
      case isFalse hmatch =>
        rw [if_neg hmatch] at h
        cases h
      case isTrue hmatch =>
        rw [if_pos hmatch] at h
        simp only [leaseRequest, revoke] at h hl
        split at hl
        case isFalse howner =>
          rw [if_neg howner] at h
          cases h
        case isTrue =>
          have hrevoked := (revokeStore_settles w lease.fence lease.store).2 l hl
          rw [hrevoked] at hphase
          cases hphase

end World

/-- **Two generations of a store never run callbacks at the same time.** In every run, a store is
granted only when every task ever registered for it is dead; once a lease is not in force any more,
or one of its owners is dead, nothing is ever registered under it; revoking a lease ends its force;
and a store with a task that runs when the fence is lost is granted to nobody from then on. -/
theorem exclusion {s : Observed} (hs : machine.Reachable s)
    (fence caller store generation engine guardian runtime : ℕ) (lease : Handle) :
    ((s.world.callAcquire fence caller store generation engine guardian runtime).1 =
        .granted lease →
      ∀ r ∈ s.registrations, r.1.store = store → r.2 ∉ s.world.alive) ∧
    ((s.world.callAcquire fence caller store generation engine guardian runtime).1 =
        .granted lease →
      ∀ t, machine.step s
          (.acquire fence caller store generation engine guardian runtime) = some t →
      ∀ events u, machine.run t events = some u →
      (¬ u.world.InForce lease ∨ engine ∉ u.world.alive ∨ guardian ∉ u.world.alive ∨
        runtime ∉ u.world.alive) →
      ∀ later v, machine.run u later = some v →
      ∀ caller relay task,
        (v.world.callLease lease caller (.register relay task)).1 ≠ .ok) ∧
    (∀ caller, (s.world.callLease lease caller .revoke).1 = .ok →
      ¬ (s.world.callLease lease caller .revoke).2.InForce lease) ∧
    (∀ reached t, machine.step s (.lost reached) = some t →
      ∀ r ∈ s.registrations, r.1.store = store → r.2 ∈ s.world.alive →
      ∀ events u, machine.run t events = some u →
        (u.world.callAcquire fence caller store generation engine guardian runtime).1 ≠
          .granted lease) := by
  have hexclusive := exclusive_reachable hs
  refine ⟨?_, ?_, fun caller ↦ World.revoke_not_inForce, ?_⟩
  · rintro hgranted r hr rfl halive
    rcases World.acquire_spec s.world fence caller r.1.store generation engine guardian runtime with
      ⟨reason, hrefused⟩ | ⟨handle, v, -, hstore, hgrants⟩
    · rw [hrefused] at hgranted
      cases hgranted
    · rcases hexclusive.tracked r hr halive with horphaned | ⟨l, hl, -⟩
      · exact horphaned.2 (hstore ▸ hgrants.unmarked)
      · rw [← hstore, hgrants.vacant] at hl
        cases hl
  · intro hgranted t ht events u hu hended later v hv other relay task haccepted
    rcases World.acquire_spec s.world fence caller store generation engine guardian runtime with
      ⟨reason, hrefused⟩ | ⟨handle, granted, hcall, -, hgrants⟩
    · rw [hrefused] at hgranted
      cases hgranted
    · rw [hcall] at hgranted
      cases hgranted
      have hworld : t.world = granted := by
        simp only [machine, World.react, Option.map_some, Option.some.injEq] at ht
        rw [← ht, hcall]
      rw [← hworld] at hgrants
      exact hgrants.closed hexclusive.numbered hu hended hv haccepted
  · rintro reached t ht r hr rfl halive events u hu
    have horphaned : t.world.Orphaned r.1.store := by
      simp only [machine, World.react, Option.map_eq_some_iff] at ht
      obtain ⟨p, hp, rfl⟩ := ht
      split at hp
      case h_1 => cases hp
      case h_2 self hself =>
        cases hp
        have hmarkers := (World.terminate_spec self reached s.world).2.2
        apply World.orphaned_of_lost hexclusive ?_ ?_ hr halive
        · rfl
        · exact hmarkers
    refine World.not_granted_of_orphaned ?_
    exact run_preserves_world (fun _ _ _ hc h ↦ hc.orphaned h) horphaned hu

/-- The run of the sample: a store is granted, a task registered and the lease revoked; when the
task is dead, the next poll retires the lease. -/
def Sample.retirement : List Event :=
  [.spawn, .spawn, .spawn, .spawn, .spawn, .start, .acquire 5 0 7 100 0 1 2,
    .lease ⟨5, 7, 100, 0⟩ 3 (.register 3 4), .lease ⟨5, 7, 100, 0⟩ 1 .revoke, .die 4, .poll]

theorem exclusion_retired : ∃ s, machine.Reachable s ∧
    s.registrations = [(⟨5, 7, 100, 0⟩, 4)] ∧
    (s.world.callAcquire 5 0 7 101 0 1 2).1 = .granted ⟨5, 7, 101, 5⟩ ∧ 4 ∉ s.world.alive := by
  have hrun : (machine.run ⟨.init, []⟩ Sample.retirement).any (fun s ↦
      s.registrations == [(⟨5, 7, 100, 0⟩, 4)] &&
        (s.world.callAcquire 5 0 7 101 0 1 2).1 == .granted ⟨5, 7, 101, 5⟩) = true := by
    decide +kernel
  obtain ⟨s, hs, hchecks⟩ := (Option.any_eq_true _ _).mp hrun
  rw [Bool.and_eq_true, beq_iff_eq, beq_iff_eq] at hchecks
  have hreachable : machine.Reachable s := Machine.reachable_of_run rfl hs
  refine ⟨s, hreachable, hchecks.1, hchecks.2, ?_⟩
  refine (exclusion hreachable 5 0 7 101 0 1 2 ⟨5, 7, 101, 5⟩).1 hchecks.2 (⟨5, 7, 100, 0⟩, 4) ?_ rfl
  rw [hchecks.1]
  exact List.mem_cons_self

/-- What `retired?/1` answers is evidence: a lease it calls retired has no task that runs. -/
theorem retired_dead {s : Observed} (hs : machine.Reachable s) {handle : Handle}
    (h : s.world.retired handle = .answer true) :
    ∀ r ∈ s.registrations, r.1.store = handle.store → r.2 ∉ s.world.alive := by
  intro r hr hstore halive
  unfold World.retired at h
  rw [← hstore] at h
  rcases (exclusive_reachable hs).tracked r hr halive with horphaned | ⟨l, hl, -⟩
  · simp only [horphaned.1] at h
    rw [if_neg horphaned.2] at h
    cases h
  · simp only [hl] at h
    split at h <;> cases h

end Tay.LocalFence
