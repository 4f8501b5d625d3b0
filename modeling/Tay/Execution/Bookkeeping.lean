import Tay.Engine.Hot
import Tay.Execution.Runtime

/-!
# The bookkeeping of executions

Five collections describe what runs: the entries, the index of entries by job, the slots of the
queues, the set of held jobs, and the reservations already drawn. Every handler is a composition of
three updates of them: an entry is put in, an entry changes without changing its job, its queue or
its key, an entry is taken out. `Books` is what all three keep, in every run.

The converse for held jobs, that only a running job is held, needs the store as well: a settlement
gives the hold back only if it finds the job among the hot ones.
-/

open Foundation

namespace Tay.Execution

open V2 Transition Executor

/-! ## The invariant -/

/-- What an entry is indexed by: its job, its queue, and for an external one its reservation and
its server. -/
def Entry.shape (entry : Entry) : JobId × Binary × Option (ℕ × ℕ) :=
  (entry.id, entry.queue,
    match entry.kind with
    | .relay _ => none
    | .external reservation server => some (reservation, server))

/-- An entry is of the kind of its key. -/
def Entry.fits (entry : Entry) : Key → Prop
  | .relay _ => entry.shape.2.2 = none
  | .executor reservation => ∃ server, entry.shape.2.2 = some (reservation, server)

/-- The entries of a queue. -/
def inQueue (q : Binary) (entry : Entry) : Bool := entry.queue == q

structure Books (s : State) : Prop where
  counted : Engine.Counted s.engine
  kinds : ∀ (key : Key) (entry : Entry), s.running[key]? = some entry → entry.fits key
  /-- The two maps are inverse to each other. -/
  inverse : ∀ (id : JobId) (key : Key),
    s.executions[id]? = some key ↔ ∃ entry, s.running[key]? = some entry ∧ entry.id = id
  slots : ∀ q : Binary,
    s.slots[q]? = (s.queueLimits[q]?).map fun _ ↦ (Table.tally (inQueue q) s.running : ℤ)
  limit : ∀ (q : Binary) (limit : ℕ), s.queueLimits[q]? = some limit →
    Table.tally (inQueue q) s.running ≤ limit
  known : ∀ (key : Key) (entry : Entry), s.running[key]? = some entry →
    (s.queueLimits[entry.queue]?).isSome
  busy : ∀ id : JobId, (s.executions[id]?).isSome → id ∈ s.held
  drawn : ∀ (r : ℕ) (entry : Entry), s.running[Key.executor r]? = some entry → r ∈ s.link.issued

variable {s t : State}

/-- A running job is indexed, and so it is held. -/
theorem Books.held {key : Key} {entry : Entry} (h : Books s)
    (hentry : s.running[key]? = some entry) : entry.id ∈ s.held := by
  apply h.busy
  rw [(h.inverse entry.id key).mpr ⟨entry, hentry, rfl⟩]
  rfl

/-- A job runs once. -/
theorem Books.unique {key key' : Key} {entry entry' : Entry} (h : Books s)
    (hentry : s.running[key]? = some entry) (hentry' : s.running[key']? = some entry')
    (hid : entry.id = entry'.id) : key = key' := by
  have hkey := (h.inverse entry.id key).mpr ⟨entry, hentry, rfl⟩
  have hkey' := (h.inverse entry.id key').mpr ⟨entry', hentry', hid.symm⟩
  rw [hkey] at hkey'
  exact Option.some.inj hkey'

/-! ## The three updates -/

/-- An entry may change in anything it is not indexed by. -/
theorem Books.relabel (h : Books s) (hcounted : Engine.Counted t.engine)
    (hrunning : ∀ key : Key,
      (t.running[key]?).map Entry.shape = (s.running[key]?).map Entry.shape)
    (hexecutions : t.executions = s.executions) (hslots : t.slots = s.slots)
    (hlimits : t.queueLimits = s.queueLimits) (hheld : t.held = s.held)
    (hissued : s.link.issued ⊆ t.link.issued) : Books t := by
  -- an entry of the new map has one of the same shape in the old
  have hback : ∀ {key : Key} {entry : Entry}, t.running[key]? = some entry →
      ∃ old, s.running[key]? = some old ∧ old.shape = entry.shape := by
    intro key entry hentry
    have hkey := hrunning key
    rw [hentry, Option.map_some] at hkey
    exact Option.map_eq_some_iff.mp hkey.symm
  have hforth : ∀ {key : Key} {entry : Entry}, s.running[key]? = some entry →
      ∃ new, t.running[key]? = some new ∧ new.shape = entry.shape := by
    intro key entry hentry
    have hkey := hrunning key
    rw [hentry, Option.map_some] at hkey
    exact Option.map_eq_some_iff.mp hkey
  have htally : ∀ q, Table.tally (inQueue q) t.running = Table.tally (inQueue q) s.running := by
    intro q
    apply Table.tally_congr
    intro key
    have hkey := congrArg (Option.map fun x : JobId × Binary × Option (ℕ × ℕ) ↦ x.2.1 == q)
      (hrunning key)
    rw [Option.map_map, Option.map_map] at hkey
    exact hkey
  constructor
  case counted => exact hcounted
  case kinds =>
    intro key entry hentry
    obtain ⟨old, hold, hshape⟩ := hback hentry
    have hfits := h.kinds key old hold
    cases key <;> simp only [Entry.fits, hshape] at hfits ⊢ <;> exact hfits
  case inverse =>
    intro id key
    rw [hexecutions, h.inverse]
    constructor
    · rintro ⟨old, hold, rfl⟩
      obtain ⟨new, hnew, hshape⟩ := hforth hold
      exact ⟨new, hnew, congrArg Prod.fst hshape⟩
    · rintro ⟨new, hnew, rfl⟩
      obtain ⟨old, hold, hshape⟩ := hback hnew
      exact ⟨old, hold, congrArg Prod.fst hshape⟩
  case slots =>
    intro q
    rw [hslots, hlimits, htally]
    exact h.slots q
  case limit =>
    intro q limit hlimit
    rw [htally]
    exact h.limit q limit (hlimits ▸ hlimit)
  case known =>
    intro key entry hentry
    obtain ⟨old, hold, hshape⟩ := hback hentry
    have hqueue : old.queue = entry.queue :=
      congrArg (fun x : JobId × Binary × Option (ℕ × ℕ) ↦ x.2.1) hshape
    rw [hlimits, ← hqueue]
    exact h.known key old hold
  case busy =>
    rw [hexecutions, hheld]
    exact h.busy
  case drawn =>
    intro r entry hentry
    obtain ⟨old, hold, -⟩ := hback hentry
    exact hissued (h.drawn r old hold)

/-- Only the books matter. -/
theorem Books.congr (h : Books s) (hcounted : Engine.Counted t.engine)
    (hrunning : t.running = s.running) (hexecutions : t.executions = s.executions)
    (hslots : t.slots = s.slots) (hlimits : t.queueLimits = s.queueLimits) (hheld : t.held = s.held)
    (hissued : s.link.issued ⊆ t.link.issued) : Books t :=
  h.relabel hcounted (fun key ↦ by rw [hrunning]) hexecutions hslots hlimits hheld hissued

/-- A new entry, for a job nothing runs, in a queue with a free slot. -/
theorem Books.occupy {key : Key} {entry : Entry} {used : ℤ} {limit : ℕ} (h : Books s)
    (hkey : s.running[key]? = none) (hheld : entry.id ∉ s.held) (hfits : entry.fits key)
    (hused : s.slots[entry.queue]? = some used) (hlimit : s.queueLimits[entry.queue]? = some limit)
    (hroom : used < limit)
    (hdrawn : ∀ r, key = .executor r → r ∈ s.link.issued) : Books (s.occupy key entry) := by
  have hcount : used = Table.tally (inQueue entry.queue) s.running := by
    have := h.slots entry.queue
    rw [hused, hlimit] at this
    exact Option.some.inj this
  have hfree : s.executions[entry.id]? = none := by
    rw [← Option.not_isSome_iff_eq_none]
    exact fun hsome ↦ hheld (h.busy entry.id hsome)
  have htally : ∀ q, Table.tally (inQueue q) (s.running.insert key entry) =
      Table.tally (inQueue q) s.running + if entry.queue = q then 1 else 0 := by
    intro q
    rw [Table.tally_insert_fresh hkey]
    simp [inQueue]
  constructor
  case counted => exact h.counted
  case kinds =>
    intro k e hget
    simp only [State.occupy, Table.get_insert] at hget
    split at hget
    case isTrue hk =>
      cases hget
      exact hk ▸ hfits
    case isFalse => exact h.kinds k e hget
  case inverse =>
    intro id k
    simp only [State.occupy, Table.get_insert]
    by_cases hid : entry.id = id
    · subst hid
      rw [if_pos rfl]
      constructor
      · intro hk
        cases hk
        exact ⟨entry, by rw [if_pos rfl], rfl⟩
      · rintro ⟨e, he, heid⟩
        split at he
        case isTrue hk => rw [hk]
        case isFalse =>
          -- an older entry of the same job would make it held
          exact absurd (heid ▸ h.held he) hheld
    · rw [if_neg hid, h.inverse]
      by_cases hk : key = k
      · subst hk
        simp [hkey, hid]
      · simp [hk]
  case slots =>
    intro q
    simp only [State.occupy, Table.get_modify, htally]
    by_cases hq : entry.queue = q
    · subst hq
      simp [hused, hlimit, hcount]
    · simp only [hq, if_false, h.slots q, Nat.add_zero]
  case limit =>
    intro q l hl
    simp only [State.occupy, htally] at hl ⊢
    by_cases hq : entry.queue = q
    · subst hq
      rw [hlimit] at hl
      cases hl
      simp only [if_true]
      omega
    · simp only [hq, if_false]
      exact h.limit q l hl
  case known =>
    intro k e hget
    simp only [State.occupy, Table.get_insert] at hget ⊢
    split at hget
    · cases hget
      rw [hlimit]
      rfl
    · exact h.known k e hget
  case busy =>
    intro id hid
    simp only [State.occupy, Table.get_insert] at hid ⊢
    rw [Finset.mem_insert]
    split at hid
    case isTrue heq => exact .inl heq.symm
    case isFalse => exact .inr (h.busy id hid)
  case drawn =>
    intro r e hget
    simp only [State.occupy, Table.get_insert] at hget ⊢
    split at hget
    case isTrue hk => exact hdrawn r hk
    case isFalse => exact h.drawn r e hget

/-- An entry is taken out: its slot is free, and its job may be held or not. -/
theorem Books.vacate {key : Key} {entry : Entry} {f : ℤ → ℤ} (h : Books s)
    (hentry : s.running[key]? = some entry) (hcounted : Engine.Counted t.engine)
    (hf : ∀ n, 0 < n → f n = n - 1)
    (hrunning : t.running = s.running.erase key)
    (hexecutions : t.executions = s.executions.erase entry.id)
    (hslots : t.slots = s.slots.modify entry.queue f) (hlimits : t.queueLimits = s.queueLimits)
    (hheld : ∀ id ∈ s.held, id ≠ entry.id → id ∈ t.held)
    (hissued : s.link.issued ⊆ t.link.issued) : Books t := by
  have hkey : s.executions[entry.id]? = some key := (h.inverse entry.id key).mpr ⟨entry, hentry, rfl⟩
  have htally : ∀ q, Table.tally (inQueue q) t.running + (if entry.queue = q then 1 else 0) =
      Table.tally (inQueue q) s.running := by
    intro q
    rw [hrunning, ← Table.tally_erase_add (p := inQueue q) hentry]
    simp [inQueue]
  have hsub : ∀ {k : Key} {e : Entry}, t.running[k]? = some e → key ≠ k ∧ s.running[k]? = some e := by
    intro k e hget
    rw [hrunning, Table.get_erase] at hget
    split at hget
    · cases hget
    case isFalse hk => exact ⟨hk, hget⟩
  constructor
  case counted => exact hcounted
  case kinds =>
    intro k e hget
    exact h.kinds k e (hsub hget).2
  case inverse =>
    intro id k
    rw [hexecutions, hrunning]
    simp only [Table.get_erase]
    by_cases hid : entry.id = id
    · subst hid
      rw [if_pos rfl]
      constructor
      · intro hk
        cases hk
      · rintro ⟨e, he, heid⟩
        split at he
        · cases he
        case isFalse hk => exact absurd (h.unique hentry he heid.symm) hk
    · rw [if_neg hid, h.inverse]
      by_cases hk : key = k
      · subst hk
        simp [hentry, hid]
      · simp [hk]
  case slots =>
    intro q
    rw [hslots, hlimits, Table.get_modify]
    have hq := htally q
    by_cases heq : entry.queue = q
    · subst heq
      simp only [if_true] at hq ⊢
      rw [h.slots, Option.map_map]
      congr 1
      funext _
      rw [Function.comp_apply, hf _ (by omega)]
      omega
    · simp only [heq, if_false] at hq ⊢
      rw [h.slots, ← hq, Nat.add_zero]
  case limit =>
    intro q limit hlimit
    have hq := htally q
    have hold := h.limit q limit (hlimits ▸ hlimit)
    omega
  case known =>
    intro k e hget
    rw [hlimits]
    exact h.known k e (hsub hget).2
  case busy =>
    intro id hid
    rw [hexecutions, Table.get_erase] at hid
    split at hid
    · cases hid
    case isFalse hne => exact hheld id (h.busy id hid) fun heq ↦ hne heq.symm
  case drawn =>
    intro r e hget
    exact hissued (h.drawn r e (hsub hget).2)

/-! ## What the store has to do with it -/

/-- Only running jobs are held, and a job that runs outside is hot and executing, with the possible
exception of one whose entry is about to go. -/
structure ExactBut (except : Option Key) (s : State) : Prop where
  live : ∀ (r : ℕ) (entry : Entry), s.running[Key.executor r]? = some entry →
    some (Key.executor r) ≠ except →
      ∃ job, s.engine.hot[entry.id]? = some job ∧ job.state = .executing
  free : ∀ id ∈ s.held, (s.executions[id]?).isSome

def Exact (s : State) : Prop := ExactBut none s

theorem Exact.but (h : Exact s) (except : Option Key) : ExactBut except s :=
  ⟨fun r entry hentry _ ↦ h.live r entry hentry (by simp), h.free⟩

/-- A change of the store that moves one job, or none, which does not run outside or is the
exception. -/
theorem ExactBut.store {except : Option Key} {touched : Option JobId} {engine : Engine.State}
    (h : ExactBut except s) (hkeeps : Engine.KeepsActive s.engine engine touched)
    (htouched : ∀ (r : ℕ) (entry : Entry), s.running[Key.executor r]? = some entry →
      some (Key.executor r) ≠ except → some entry.id ≠ touched) :
    ExactBut except { s with engine := engine } where
  live := by
    intro r entry hentry hexcept
    obtain ⟨job, hjob, hstate⟩ := h.live r entry hentry hexcept
    have hactive : job.state.terminal = false := by rw [hstate]; rfl
    exact ⟨job, hkeeps _ job hjob hactive (htouched r entry hentry hexcept), hstate⟩
  free := h.free

/-- The store stays, and the entries keep their jobs. -/
theorem ExactBut.relabel {except : Option Key} (h : ExactBut except s)
    (hengine : t.engine = s.engine)
    (hrunning : ∀ key : Key,
      (t.running[key]?).map Entry.shape = (s.running[key]?).map Entry.shape)
    (hexecutions : t.executions = s.executions) (hheld : t.held = s.held) :
    ExactBut except t where
  live := by
    intro r entry hentry hexcept
    have hkey := hrunning (.executor r)
    rw [hentry, Option.map_some] at hkey
    obtain ⟨old, hold, hshape⟩ := Option.map_eq_some_iff.mp hkey.symm
    have hid : old.id = entry.id := congrArg Prod.fst hshape
    rw [hengine, ← hid]
    exact h.live r old hold hexcept
  free := by
    rw [hexecutions, hheld]
    exact h.free

theorem ExactBut.congr {except : Option Key} (h : ExactBut except s)
    (hengine : t.engine = s.engine) (hrunning : t.running = s.running)
    (hexecutions : t.executions = s.executions) (hheld : t.held = s.held) : ExactBut except t :=
  h.relabel hengine (fun key ↦ by rw [hrunning]) hexecutions hheld

/-- An entry is taken out together with its hold; it may be the exception. -/
theorem ExactBut.vacate {key : Key} {entry : Entry} (h : ExactBut (some key) s)
    (hengine : t.engine = s.engine) (hrunning : t.running = s.running.erase key)
    (hexecutions : t.executions = s.executions.erase entry.id)
    (hheld : t.held = s.held.erase entry.id) : Exact t where
  live := by
    intro r e hget _
    rw [hrunning, Table.get_erase] at hget
    split at hget
    · cases hget
    case isFalse hne =>
      rw [hengine]
      exact h.live r e hget fun heq ↦ hne (Option.some.inj heq).symm
  free := by
    intro id hid
    rw [hheld, Finset.mem_erase] at hid
    rw [hexecutions, Table.get_erase, if_neg fun heq ↦ hid.1 heq.symm]
    exact h.free id hid.2

/-- A new entry; one that runs outside is for a job that is hot and executing. -/
theorem ExactBut.occupy {key : Key} {entry : Entry} (h : Exact s)
    (hlive : ∀ r, key = .executor r →
      ∃ job, s.engine.hot[entry.id]? = some job ∧ job.state = .executing) :
    Exact (s.occupy key entry) where
  live := by
    intro r e hget _
    simp only [State.occupy, Table.get_insert] at hget ⊢
    split at hget
    case isTrue hk =>
      cases hget
      exact hlive r hk
    case isFalse => exact h.live r e hget (by simp)
  free := by
    intro id hid
    simp only [State.occupy, Table.get_insert, Finset.mem_insert] at hid ⊢
    split
    · rfl
    case isFalse hne => exact h.free id (hid.resolve_left fun heq ↦ hne heq.symm)

end Tay.Execution
