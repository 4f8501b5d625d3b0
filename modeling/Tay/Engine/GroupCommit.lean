import Tay.Engine.Persistence
import Tay.Foundation.Simulation
import Tay.Writer.Group

/-!
# Group commit

`Tay.Engine.GroupCommit`: commands that may wait are collected, and executed together when a timer
fires, when there are enough of them, or when something comes that must not wait behind them. The writer
defers the sync to the end of the group, and the engine the answers to the end of the sync.

The engine here is any that answers commands: what a command does is a function of the engine's state,
of what it reads while it is executed (a clock, a memory counter), and of the answer to the one record it
may append. A flush is several steps, since the engine can be lost between any two of them. The log it
writes is that of `Tay.Writer.Group`, byte by byte.

An engine that never collects anything is the same machine with no command that may wait. Every run of
the one with groups ends where a run of the other ends, with the same files and the same answers.
-/

open Foundation

namespace Tay.GroupCommit

open SegmentOps

variable {ι κ μ ρ σ : Type}

/-! ## Commands -/

/-- What handling a command comes to: an answer, or a record whose number the answer depends on. The
engine may also end instead of going on with the writer's answer. -/
inductive Exchange (ρ σ : Type)
  | reply (result : ρ) (next : σ)
  | append (type schema : ℕ) (payload : Binary)
      (answered : Except SegmentOps.Refusal Receipt → Option (ρ × σ))
  | exit

/-- What is left of a command: its answer, the engine, the files, and the record it has written. -/
structure Done (ρ σ : Type) where
  result : ρ
  next : σ
  store : Run
  record : Option Physical.Record

/-- Handle a command. A refusal is an answer, and anything else the writer fails with ends the engine. -/
def Exchange.perform (x : Exchange ρ σ) (store : Run) (io : Io) : Option (Done ρ σ) :=
  match x with
  | .reply result next => some ⟨result, next, store, none⟩
  | .append type schema payload answered =>
    match store.append type schema payload io with
    | (.appended receipt, store') => (answered (.ok receipt)).map fun r ↦
        ⟨r.1, r.2, store', some (SegmentOps.candidate store.writer type schema payload)⟩
    | (.refused refusal, store') => (answered (.error refusal)).map fun r ↦ ⟨r.1, r.2, store', none⟩
    | _ => none
  | .exit => none

/-- The engine, as far as its groups are concerned. -/
structure Commands (ι κ μ ρ σ : Type) where
  /-- `batchable?`. -/
  batchable : σ → ι → Bool
  command : ι → κ → σ → Exchange ρ σ
  /-- Messages that are no commands, such as the end of an execution. -/
  message : μ → σ → Exchange Unit σ
  maxEvents : ℕ

/-! ## The machine -/

structure Group (ι : Type) where
  token : ℕ
  /-- Each with its permit, the newest first. -/
  commands : List (ℕ × ι)

/-- An answer, with the record it is about. -/
structure Sent (ρ : Type) where
  permit : ℕ
  result : ρ
  record : Option Physical.Record

structure Flush (ι ρ : Type) where
  left : List (ℕ × ι)
  /-- Answers held back, the newest first. -/
  replies : List (Sent ρ)

/-- Something the engine has executed, with what it read. -/
inductive Work (ι κ μ : Type)
  | command (permit : ℕ) (intent : ι) (reads : κ)
  | message (m : μ)

structure State (ι κ μ ρ σ : Type) where
  engine : σ
  group : Option (Group ι)
  /-- Tokens drawn so far. -/
  fresh : ℕ
  flush : Option (Flush ι ρ)
  /-- The command before which the group is flushed. -/
  next : Option (ℕ × ι)
  store : Run
  /-- Records below this number are safe. -/
  covered : ℕ
  sent : List (Sent ρ)
  /-- Every permit, in the order the commands came. -/
  arrived : List ℕ
  /-- Everything that was executed, in its order. -/
  history : List (Work ι κ μ)

inductive Label (ι κ μ : Type)
  | command (permit : ℕ) (intent : ι) (io : Io)
  /-- `{:flush_group_commit, token}`. -/
  | timer (token : ℕ) (io : Io)
  /-- A message before which the group is flushed: a drain, the start of a compaction, a freeze. -/
  | flush (io : Io)
  /-- The next command of the flush is executed. -/
  | turn (reads : κ) (io : Io)
  | finish (io : Io)
  /-- The command that does not wait is executed. -/
  | direct (reads : κ) (io : Io)
  | message (m : μ) (io : Io)

namespace State

/-- No message is being handled. -/
def idle (s : State ι κ μ ρ σ) : Bool := s.flush.isNone && s.next.isNone

def enqueue (s : State ι κ μ ρ σ) (permit : ℕ) (intent : ι) : State ι κ μ ρ σ :=
  match s.group with
  | none => { s with group := some ⟨s.fresh, [(permit, intent)]⟩, fresh := s.fresh + 1 }
  | some g => { s with group := some { g with commands := (permit, intent) :: g.commands } }

/-- `full?`. -/
def full (s : State ι κ μ ρ σ) (maxEvents : ℕ) : Bool :=
  s.group.any fun g ↦ maxEvents ≤ g.commands.length

/-- The beginning of `flush`; without a group there is nothing to do. -/
def beginFlush (s : State ι κ μ ρ σ) (io : Io) : Option (State ι κ μ ρ σ) :=
  match s.group with
  | none => some s
  | some g => (s.store.begin io).map fun store ↦
      { s with group := none, store, flush := some ⟨g.commands.reverse, []⟩ }

/-- The engine after a command. -/
def advance (s : State ι κ μ ρ σ) {ρ' : Type} (d : Done ρ' σ) (io : Io) : State ι κ μ ρ σ :=
  { s with
    engine := d.next
    store := d.store
    covered := if d.record.isSome then s.store.coveredBy d.store io s.covered else s.covered }

def step (c : Commands ι κ μ ρ σ) (s : State ι κ μ ρ σ) : Label ι κ μ → Option (State ι κ μ ρ σ)
  | .command permit intent io =>
    if s.idle then
      let s := { s with arrived := s.arrived ++ [permit] }
      if c.batchable s.engine intent then
        let s := s.enqueue permit intent
        if s.full c.maxEvents then s.beginFlush io else some s
      else { s with next := some (permit, intent) }.beginFlush io
    else none
  | .timer token io =>
    if s.idle then if s.group.any (·.token == token) then s.beginFlush io else some s else none
  | .flush io => if s.idle then s.beginFlush io else none
  | .turn reads io =>
    match s.flush with
    | some ⟨(permit, intent) :: left, replies⟩ =>
      ((c.command intent reads s.engine).perform s.store io).map fun d ↦
        { s.advance d io with
          flush := some ⟨left, ⟨permit, d.result, d.record⟩ :: replies⟩
          history := s.history ++ [.command permit intent reads] }
    | _ => none
  | .finish io =>
    match s.flush with
    | some ⟨[], replies⟩ => (s.store.finish io).map fun r ↦
        { s with
          flush := none
          store := r.2
          covered := s.store.coveredAfter r.1 io s.covered
          sent := s.sent ++ replies.reverse }
    | _ => none
  | .direct reads io =>
    match s.flush, s.next with
    | none, some (permit, intent) =>
      ((c.command intent reads s.engine).perform s.store io).map fun d ↦
        { s.advance d io with
          next := none
          sent := s.sent ++ [⟨permit, d.result, d.record⟩]
          history := s.history ++ [.command permit intent reads] }
    | _, _ => none
  | .message m io =>
    if s.idle then ((c.message m s.engine).perform s.store io).map fun d ↦
      { s.advance d io with history := s.history ++ [.message m] }
    else none

end State

/-- The engine starts on files all of which are safe. -/
structure Starts (s : State ι κ μ ρ σ) : Prop where
  safe : s.store.Safe s.store.writer.nextSequence
  covered : s.covered = s.store.writer.nextSequence
  writer : s.store.writer.groupCommit = none
  group : s.group = none
  flush : s.flush = none
  next : s.next = none
  sent : s.sent = []
  arrived : s.arrived = []

def machine (c : Commands ι κ μ ρ σ) : Machine (State ι κ μ ρ σ) (Label ι κ μ) where
  initial := Starts
  step := State.step c

/-- The engine that collects nothing, and so syncs every record. -/
def Commands.oneByOne (c : Commands ι κ μ ρ σ) : Commands ι κ μ ρ σ :=
  { c with batchable := fun _ _ ↦ false }

section Exchange

variable {x : Exchange ρ σ} {store : Run} {d : Done ρ σ} {io : Io} {covered : ℕ}

/-- The ways a command is done with: without the writer's help, or with a record. -/
inductive Performed (store : Run) (io : Io) (d : Done ρ σ) : Prop
  | kept : d.store = store → d.record = none → Performed store io d
  | appended {type schema : ℕ} {payload : Binary} {receipt : Receipt} :
      store.append type schema payload io = (.appended receipt, d.store) →
      d.record = some (SegmentOps.candidate store.writer type schema payload) → Performed store io d

theorem performed (h : x.perform store io = some d) : Performed store io d := by
  rcases x with ⟨result, next⟩ | ⟨type, schema, payload, answered⟩ | _
  · obtain rfl := Option.some_inj.mp h
    exact .kept rfl rfl
  · unfold Exchange.perform at h
    dsimp only at h
    rcases happend : store.append type schema payload io with ⟨reply, store'⟩
    rw [happend] at h
    rcases reply with receipt | _ | refusal | _ | _ | _ | _ | _
    · obtain ⟨r, -, rfl⟩ := Option.map_eq_some_iff.mp h
      exact .appended happend rfl
    · cases h
    · obtain ⟨r, -, rfl⟩ := Option.map_eq_some_iff.mp h
      exact .kept (append_refused happend (by simp) (by simp)) rfl
    all_goals cases h
  · cases h

/-- In a group a command has the same answer, and leaves the same engine and the same files. -/
theorem perform_grouped (n : ℕ) : x.perform (store.grouped none) io.synced =
    (x.perform (store.grouped (some n)) io).map fun d ↦ { d with store := d.store.grouped none } := by
  rcases x with ⟨result, next⟩ | ⟨type, schema, payload, answered⟩ | _
  · rfl
  · unfold Exchange.perform
    dsimp only
    rw [append_grouped]
    rcases (store.grouped (some n)).append type schema payload io with ⟨reply, store'⟩
    rcases reply with receipt | _ | refusal | _ | _ | _ | _ | _
    · simp only [Option.map_map]
      rfl
    · rfl
    · simp only [Option.map_map]
      rfl
    all_goals rfl
  · rfl

theorem all_grows {s t : Run} {r : Physical.Record} (h : s.Grows r t) : t.all = s.all ++ [r] := by
  rcases h with h | h <;> simp [Run.all]

end Exchange

/-! ## Steps -/

namespace State

/-- Everything a step can do. -/
inductive Moves (c : Commands ι κ μ ρ σ) (s : State ι κ μ ρ σ) : Label ι κ μ → State ι κ μ ρ σ → Prop
  | collect {permit : ℕ} {intent : ι} {io : Io} : s.idle = true →
      c.batchable s.engine intent = true →
      Moves c s (.command permit intent io)
        ({ s with arrived := s.arrived ++ [permit] }.enqueue permit intent)
  | full {permit : ℕ} {intent : ι} {io : Io} {t : State ι κ μ ρ σ} : s.idle = true →
      c.batchable s.engine intent = true →
      ({ s with arrived := s.arrived ++ [permit] }.enqueue permit intent).beginFlush io = some t →
      Moves c s (.command permit intent io) t
  | hurry {permit : ℕ} {intent : ι} {io : Io} {t : State ι κ μ ρ σ} : s.idle = true →
      c.batchable s.engine intent = false →
      { s with arrived := s.arrived ++ [permit], next := some (permit, intent) }.beginFlush io =
        some t → Moves c s (.command permit intent io) t
  | stale {token : ℕ} {io : Io} : s.idle = true → Moves c s (.timer token io) s
  | timer {token : ℕ} {io : Io} {t : State ι κ μ ρ σ} : s.idle = true → s.beginFlush io = some t →
      Moves c s (.timer token io) t
  | flush {io : Io} {t : State ι κ μ ρ σ} : s.idle = true → s.beginFlush io = some t →
      Moves c s (.flush io) t
  | turn {permit : ℕ} {intent : ι} {left : List (ℕ × ι)} {replies : List (Sent ρ)} {reads : κ} {io : Io}
      {d : Done ρ σ} : s.flush = some ⟨(permit, intent) :: left, replies⟩ →
      (c.command intent reads s.engine).perform s.store io = some d →
      Moves c s (.turn reads io) { s.advance d io with
        flush := some ⟨left, ⟨permit, d.result, d.record⟩ :: replies⟩
        history := s.history ++ [.command permit intent reads] }
  | finish {replies : List (Sent ρ)} {io : Io} {size : ℕ} {store : Run} :
      s.flush = some ⟨[], replies⟩ → s.store.finish io = some (size, store) →
      Moves c s (.finish io) { s with
        flush := none
        store := store
        covered := s.store.coveredAfter size io s.covered
        sent := s.sent ++ replies.reverse }
  | direct {permit : ℕ} {intent : ι} {reads : κ} {io : Io} {d : Done ρ σ} : s.flush = none →
      s.next = some (permit, intent) →
      (c.command intent reads s.engine).perform s.store io = some d →
      Moves c s (.direct reads io) { s.advance d io with
        next := none
        sent := s.sent ++ [⟨permit, d.result, d.record⟩]
        history := s.history ++ [.command permit intent reads] }
  | message {m : μ} {io : Io} {d : Done Unit σ} : s.idle = true →
      (c.message m s.engine).perform s.store io = some d →
      Moves c s (.message m io) { s.advance d io with history := s.history ++ [.message m] }

variable {c : Commands ι κ μ ρ σ} {s t : State ι κ μ ρ σ} {x : Label ι κ μ}

theorem step_moves (h : s.step c x = some t) : Moves c s x t := by
  rcases x with ⟨permit, intent, io⟩ | ⟨token, io⟩ | io | ⟨reads, io⟩ | io | ⟨reads, io⟩ | ⟨m, io⟩
  · simp only [step] at h
    split_ifs at h with hidle hbatchable hfull
    · exact .full hidle hbatchable h
    · obtain rfl := Option.some_inj.mp h
      exact .collect hidle hbatchable
    · exact .hurry hidle (Bool.eq_false_iff.mpr hbatchable) h
  · simp only [step] at h
    split_ifs at h with hidle htoken
    · exact .timer hidle h
    · obtain rfl := Option.some_inj.mp h
      exact .stale hidle
  · simp only [step] at h
    split_ifs at h with hidle
    exact .flush hidle h
  · rcases hf : s.flush with _ | ⟨_ | ⟨⟨permit, intent⟩, left⟩, replies⟩
    · simp [step, hf] at h
    · simp [step, hf] at h
    · simp only [step, hf] at h
      obtain ⟨d, hd, rfl⟩ := Option.map_eq_some_iff.mp h
      exact .turn hf hd
  · rcases hf : s.flush with _ | ⟨_ | ⟨⟨permit, intent⟩, left⟩, replies⟩
    · simp [step, hf] at h
    · simp only [step, hf] at h
      obtain ⟨⟨size, store⟩, hstore, rfl⟩ := Option.map_eq_some_iff.mp h
      exact .finish hf hstore
    · simp [step, hf] at h
  · rcases hf : s.flush with _ | f
    · rcases hn : s.next with _ | ⟨permit, intent⟩
      · simp [step, hf, hn] at h
      · simp only [step, hf, hn] at h
        obtain ⟨d, hd, rfl⟩ := Option.map_eq_some_iff.mp h
        exact .direct hf hn hd
    · simp [step, hf] at h
  · simp only [step] at h
    split_ifs at h with hidle
    obtain ⟨d, hd, rfl⟩ := Option.map_eq_some_iff.mp h
    exact .message hidle hd

end State

/-! ## Answers in the order of arrival -/

namespace State

variable {s t : State ι κ μ ρ σ}

/-- The commands on their way, from the one answered last. -/
def queue (s : State ι κ μ ρ σ) : List ℕ :=
  ((s.flush.map fun f ↦ f.replies.reverse.map Sent.permit ++ f.left.map Prod.fst).getD []) ++
    ((s.group.map fun g ↦ g.commands.reverse.map Prod.fst).getD []) ++ s.next.toList.map Prod.fst

/-- Commands are answered in the order in which they came, and only while nothing is being handled
do any of them wait. -/
structure Ordered (s : State ι κ μ ρ σ) : Prop where
  order : s.arrived = s.sent.map Sent.permit ++ s.queue
  waiting : s.group = none ∨ s.flush = none ∧ s.next = none

theorem idle_iff : s.idle = true ↔ s.flush = none ∧ s.next = none := by
  simp [idle, Option.isNone_iff_eq_none]

theorem beginFlush_cases {io : Io} (h : s.beginFlush io = some t) :
    s.group = none ∧ t = s ∨ ∃ g store, s.group = some g ∧ s.store.begin io = some store ∧
      t = { s with group := none, store, flush := some ⟨g.commands.reverse, []⟩ } := by
  unfold beginFlush at h
  rcases hg : s.group with _ | g
  · rw [hg] at h
    exact .inl ⟨rfl, (Option.some_inj.mp h).symm⟩
  · rw [hg] at h
    obtain ⟨store, hstore, rfl⟩ := Option.map_eq_some_iff.mp h
    exact .inr ⟨g, store, rfl, hstore, rfl⟩

theorem enqueue_same {permit : ℕ} {intent : ι} : s.enqueue permit intent =
    { s with
      group := (s.enqueue permit intent).group
      fresh := (s.enqueue permit intent).fresh } := by
  unfold State.enqueue
  split <;> rfl

theorem enqueue_flush {permit : ℕ} {intent : ι} : (s.enqueue permit intent).flush = s.flush := by
  rw [enqueue_same]

/-- To begin a flush moves the commands of the group to it. -/
theorem beginFlush_ordered {io : Io} (h : s.arrived = s.sent.map Sent.permit ++ s.queue)
    (hflush : s.flush = none) (hbegin : s.beginFlush io = some t) : t.Ordered := by
  rcases beginFlush_cases hbegin with ⟨hg, rfl⟩ | ⟨g, store, hg, -, rfl⟩
  · exact ⟨h, .inl hg⟩
  · exact ⟨by simpa [queue, hflush, hg] using h, .inl rfl⟩

theorem Ordered.enqueue {permit : ℕ} {intent : ι} (h : s.Ordered) (hflush : s.flush = none)
    (hnext : s.next = none) :
    ({ s with arrived := s.arrived ++ [permit] }.enqueue permit intent).Ordered := by
  have horder := h.order
  unfold State.enqueue
  rcases hg : s.group with _ | g
  · exact ⟨by simp_all [queue], .inr ⟨hflush, hnext⟩⟩
  · exact ⟨by simp_all [queue], .inr ⟨hflush, hnext⟩⟩

theorem Ordered.step {c : Commands ι κ μ ρ σ} {x : Label ι κ μ} (h : s.Ordered)
    (hstep : s.step c x = some t) : t.Ordered := by
  have horder := h.order
  rcases step_moves hstep with ⟨hidle, -⟩ | ⟨hidle, -, hbegin⟩ | ⟨hidle, -, hbegin⟩ | hidle |
    ⟨hidle, hbegin⟩ | ⟨hidle, hbegin⟩ | ⟨hflush, -⟩ | ⟨hflush, -⟩ | ⟨hflush, hnext, -⟩ | ⟨hidle, -⟩
  · exact h.enqueue (idle_iff.mp hidle).1 (idle_iff.mp hidle).2
  · exact beginFlush_ordered (h.enqueue (idle_iff.mp hidle).1 (idle_iff.mp hidle).2).order
      (enqueue_flush.trans (idle_iff.mp hidle).1) hbegin
  · have hnext := (idle_iff.mp hidle).2
    refine beginFlush_ordered ?_ ?_ hbegin
    · simp_all [queue]
    · exact (idle_iff.mp hidle).1
  · exact h
  · exact beginFlush_ordered h.order (idle_iff.mp hidle).1 hbegin
  · exact beginFlush_ordered h.order (idle_iff.mp hidle).1 hbegin
  · refine ⟨?_, h.waiting.imp_right fun hw ↦ by simp [hflush] at hw⟩
    simp_all [queue, advance]
  · refine ⟨?_, h.waiting.imp_right fun hw ↦ by simp [hflush] at hw⟩
    simp_all [queue]
  · -- the group was flushed before
    have hg : s.group = none := h.waiting.resolve_right fun hw ↦ by simp [hnext] at hw
    exact ⟨by simp_all [queue, advance], .inl hg⟩
  · exact ⟨h.order, h.waiting⟩

/-! ## Answers after the sync -/

/-- What an answer is about, is written and safe. -/
def Kept (store : Run) (below : ℕ) (replies : List (Sent ρ)) : Prop :=
  ∀ e ∈ replies, ∀ r ∈ e.record, r ∈ store.all ∧ r.sequence < below

/-- Outside a flush everything is safe, and in a flush at least what has been answered. -/
structure Guarded (s : State ι κ μ ρ σ) : Prop where
  safe : s.store.Safe s.covered
  writer : s.flush = none → s.store.writer.groupCommit = none
  group : s.flush ≠ none → ∃ n, s.store.writer.groupCommit = some n
  sent : Kept s.store s.covered s.sent
  held : ∀ f ∈ s.flush, Kept s.store s.store.writer.nextSequence f.replies

theorem Kept.mono {store store' : Run} {below below' : ℕ} {replies : List (Sent ρ)}
    (h : Kept store below replies) (hall : ∀ r ∈ store.all, r ∈ store'.all) (hle : below ≤ below') :
    Kept store' below' replies :=
  fun e he r hr ↦ ⟨hall r (h e he r hr).1, (h e he r hr).2.trans_le hle⟩

theorem Guarded.covered (h : s.Guarded) (hflush : s.flush = none) :
    s.covered = s.store.writer.nextSequence := h.safe.idle (.inl (h.writer hflush))

/-- What handling a command does to the files and to what is safe. -/
structure Advances (s : State ι κ μ ρ σ) {ρ' : Type} (d : Done ρ' σ) (io : Io) : Prop where
  safe : d.store.Safe (s.advance d io).covered
  all : ∀ r ∈ s.store.all, r ∈ d.store.all
  covered : s.covered ≤ (s.advance d io).covered
  sequence : s.store.writer.nextSequence ≤ d.store.writer.nextSequence
  record : ∀ r ∈ d.record, r ∈ d.store.all ∧ r.sequence < d.store.writer.nextSequence
  none : s.store.writer.groupCommit = none → d.store.writer.groupCommit = none
  some : (∃ n, s.store.writer.groupCommit = some n) → ∃ n, d.store.writer.groupCommit = some n

theorem Guarded.advances {ρ' : Type} {d : Done ρ' σ} {io : Io} (h : s.Guarded)
    (hd : Performed s.store io d) : s.Advances d io := by
  rcases hd with ⟨hstore, hrecord⟩ | ⟨happend, hrecord⟩
  · have hcovered : (s.advance d io).covered = s.covered := by simp [advance, hrecord]
    exact {
      safe := by
        rw [hcovered, hstore]
        exact h.safe
      all := by
        rw [hstore]
        exact fun _ hr ↦ hr
      covered := hcovered.ge
      sequence := by rw [hstore]
      record := by simp [hrecord]
      none := by
        rw [hstore]
        exact id
      some := by
        rw [hstore]
        exact id }
  · have hframe := append_frame happend
    have hall := all_grows (append_grows h.safe.held happend).1
    have hcovered : (s.advance d io).covered = s.store.coveredBy d.store io s.covered := by
      simp [advance, hrecord]
    exact {
      safe := by
        rw [hcovered]
        exact h.safe.append happend
      all := by
        rw [hall]
        exact fun _ hr ↦ List.mem_append_left _ hr
      covered := by
        rw [hcovered]
        exact (h.safe.coveredBy io hframe.sequence).1
      sequence := by rw [hframe.sequence]; exact Nat.le_succ _
      record := by
        rw [hrecord, hall, hframe.sequence]
        rintro r ⟨⟩
        exact ⟨List.mem_append_right _ List.mem_cons_self, Nat.lt_succ_self _⟩
      none := fun hn ↦ by rw [hframe.group, hn]; rfl
      some := by
        rintro ⟨n, hn⟩
        exact ⟨n + 1, by rw [hframe.group, hn]; rfl⟩ }

theorem Guarded.enqueue {permit : ℕ} {intent : ι} (h : s.Guarded) :
    ({ s with arrived := s.arrived ++ [permit] }.enqueue permit intent).Guarded := by
  rw [enqueue_same]
  exact ⟨h.safe, h.writer, h.group, h.sent, h.held⟩

theorem Guarded.beginFlush {io : Io} (h : s.Guarded) (hflush : s.flush = none)
    (hbegin : s.beginFlush io = some t) : t.Guarded := by
  rcases beginFlush_cases hbegin with ⟨hg, rfl⟩ | ⟨g, store, hg, hstore, rfl⟩
  · exact h
  · have hsafe := h.safe.begin hstore
    obtain ⟨-, -, rfl⟩ := begin_ok hstore
    refine ⟨hsafe, fun hn ↦ absurd hn (by simp), fun _ ↦ ⟨0, rfl⟩, h.sent, fun f hf ↦ ?_⟩
    obtain rfl := Option.some_inj.mp hf
    exact fun e he ↦ absurd he List.not_mem_nil

/-- The end of the sync makes what was held back safe, and only then it is sent. -/
theorem Guarded.finish {replies : List (Sent ρ)} {io : Io} {size : ℕ} {store : Run} (h : s.Guarded)
    (hflush : s.flush = some ⟨[], replies⟩) (hfinish : s.store.finish io = some (size, store)) :
    Guarded { s with
      flush := none
      store := store
      covered := s.store.coveredAfter size io s.covered
      sent := s.sent ++ replies.reverse } := by
  obtain ⟨hsafe, hall⟩ := h.safe.finish hfinish
  obtain ⟨-, rfl, -⟩ := finish_ok hfinish
  refine ⟨hsafe, fun _ ↦ rfl, fun hn ↦ absurd rfl hn, fun e he r hr ↦ ?_,
    fun f hf ↦ absurd hf (by simp)⟩
  have hupto : s.covered ≤ s.store.coveredAfter size io s.covered := by
    rw [hall]
    exact h.safe.upto
  rcases List.mem_append.mp he with he | he
  · exact h.sent.mono (fun _ hr ↦ hr) hupto e he r hr
  · exact (h.held _ hflush).mono (fun _ hr ↦ hr) hall.ge e (List.mem_reverse.mp he) r hr

theorem Guarded.step {c : Commands ι κ μ ρ σ} {x : Label ι κ μ} (h : s.Guarded)
    (hstep : s.step c x = some t) : t.Guarded := by
  rcases step_moves hstep with ⟨hidle, -⟩ | ⟨hidle, -, hbegin⟩ | ⟨hidle, -, hbegin⟩ | hidle |
    ⟨hidle, hbegin⟩ | ⟨hidle, hbegin⟩ | ⟨hflush, hd⟩ | ⟨hflush, hfinish⟩ | ⟨hflush, hnext, hd⟩ |
    ⟨hidle, hd⟩
  · exact h.enqueue
  · exact h.enqueue.beginFlush (enqueue_flush.trans (idle_iff.mp hidle).1) hbegin
  · refine Guarded.beginFlush ?_ ?_ hbegin
    · exact ⟨h.safe, h.writer, h.group, h.sent, h.held⟩
    · exact (idle_iff.mp hidle).1
  · exact h
  · exact h.beginFlush (idle_iff.mp hidle).1 hbegin
  · exact h.beginFlush (idle_iff.mp hidle).1 hbegin
  · -- the answer is held back, with a record that is written
    have ha := h.advances (performed hd)
    refine ⟨ha.safe, fun hn ↦ absurd hn (by simp), fun _ ↦ ha.some (h.group (by simp [hflush])),
      h.sent.mono ha.all ha.covered, fun f hf ↦ ?_⟩
    obtain rfl := Option.some_inj.mp hf
    intro e he
    rcases List.mem_cons.mp he with rfl | he
    · exact ha.record
    · exact (h.held _ hflush).mono ha.all ha.sequence e he
  · exact h.finish hflush hfinish
  · -- outside a group the record was synced at once
    have ha := h.advances (performed hd)
    have hwriter := ha.none (h.writer hflush)
    refine ⟨ha.safe, fun _ ↦ hwriter, fun hn ↦ absurd hflush hn, fun e he ↦ ?_,
      fun f hf ↦ by simp [advance, hflush] at hf⟩
    rcases List.mem_append.mp he with he | he
    · exact h.sent.mono ha.all ha.covered e he
    · obtain rfl := List.mem_singleton.mp he
      exact fun r hr ↦ ⟨(ha.record r hr).1, (ha.record r hr).2.trans_eq
        (ha.safe.idle (.inl hwriter)).symm⟩
  · have ha := h.advances (performed hd)
    have hflush := (idle_iff.mp hidle).1
    exact ⟨ha.safe, fun _ ↦ ha.none (h.writer hflush), fun hn ↦ absurd hflush hn,
      h.sent.mono ha.all ha.covered, fun f hf ↦ by simp [advance, hflush] at hf⟩

theorem Starts.ordered (h : Starts s) : s.Ordered :=
  ⟨by simp [queue, h.arrived, h.sent, h.flush, h.group, h.next], .inl h.group⟩

theorem Starts.guarded (h : Starts s) : s.Guarded :=
  ⟨h.covered ▸ h.safe, fun _ ↦ h.writer, fun hn ↦ absurd h.flush hn,
    fun e he ↦ by simp [h.sent] at he, fun f hf ↦ by simp [h.flush] at hf⟩

end State

section Runs

variable {c : Commands ι κ μ ρ σ} {s : State ι κ μ ρ σ}

theorem reachable_ordered (hs : (machine c).Reachable s) : s.Ordered :=
  hs.invariant (I := State.Ordered) (fun _ h ↦ State.Starts.ordered h)
    fun _ _ _ h hstep ↦ State.Ordered.step h hstep

theorem reachable_guarded (hs : (machine c).Reachable s) : s.Guarded :=
  hs.invariant (I := State.Guarded) (fun _ h ↦ State.Starts.guarded h)
    fun _ _ _ h hstep ↦ State.Guarded.step h hstep

/-- What a caller can rely on. -/
structure Acknowledges (s : State ι κ μ ρ σ) : Prop where
  order : s.arrived = s.sent.map Sent.permit ++ s.queue
  /-- Whatever is being written, and whenever the writer is lost. -/
  durable : ∀ (t : Run) (files : List File) (records : List Physical.Record),
    t = s.store ∨ s.store.Appends t → Crash s.store t s.covered files →
      readFiles files = some records →
        records <+: t.all ∧ ∀ e ∈ s.sent, ∀ r ∈ e.record, r ∈ records

/-- **Only durable work is acknowledged, in the order of arrival.** In every state of every run, also
in the middle of a flush, the answers sent are those to the commands that came first. If the engine is
lost there, and the files left by the crash are accepted, they have the record of every answer that was
sent, also where a group has crossed into another segment. -/
theorem acknowledges (hs : (machine c).Reachable s) : Acknowledges s := by
  have hguarded := reachable_guarded hs
  refine ⟨(reachable_ordered hs).order, fun t files records ht hcrash hread ↦ ?_⟩
  obtain ⟨hlead, hall⟩ := crash_reads hguarded.safe ht hcrash hread
  exact ⟨hlead, fun e he r hr ↦ hall r (hguarded.sent e he r hr).1 (hguarded.sent e he r hr).2⟩

/-! ## The same as one by one -/

/-- The engine without groups is where the one with groups is, once nothing is put off. -/
structure Follows (s a : State ι κ μ ρ σ) : Prop where
  engine : a.engine = s.engine
  store : a.store = s.store.grouped none
  flush : a.flush = none
  group : a.group = none
  history : a.history = s.history

/-- Outside a flush both are in the same state. In a flush the other one has still to execute the
commands that this one has executed, and it could. -/
inductive Simulated (c : Commands ι κ μ ρ σ) (s a : State ι κ μ ρ σ) : Prop
  | idle : s.flush = none → s.store.writer.groupCommit = none → Follows s a → a.next = s.next →
      a.sent = s.sent → Simulated c s a
  | flushing {f : Flush ι ρ} {n : ℕ} {ls : List (Label ι κ μ)} {a' : State ι κ μ ρ σ} :
      s.flush = some f → s.store.writer.groupCommit = some n →
      (machine c.oneByOne).run a ls = some a' → Follows s a' → a'.next = none →
      a'.sent = s.sent ++ f.replies.reverse → Simulated c s a

theorem grouped_self {store : Run} {group : Option ℕ} (h : store.writer.groupCommit = group) :
    store.grouped group = store := by
  rw [← h]
  rfl

section OneByOne

variable {a t : State ι κ μ ρ σ} {permit : ℕ} {intent : ι} {reads : κ} {io : Io}

/-- A command is taken, and nothing need be flushed before it. -/
theorem oneByOne_command (hflush : a.flush = none) (hnext : a.next = none) (hgroup : a.group = none)
    (permit : ℕ) (intent : ι) (io : Io) :
    (machine c.oneByOne).step a (.command permit intent io) =
      some { a with arrived := a.arrived ++ [permit], next := some (permit, intent) } := by
  simp [machine, State.step, State.idle, hflush, hnext, Commands.oneByOne, State.beginFlush, hgroup]

theorem oneByOne_direct {d : Done ρ σ} (hflush : a.flush = none) (hnext : a.next = some (permit, intent))
    (hd : (c.command intent reads a.engine).perform a.store io = some d) :
    (machine c.oneByOne).step a (.direct reads io) =
      some { a.advance d io with
        next := none
        sent := a.sent ++ [⟨permit, d.result, d.record⟩]
        history := a.history ++ [.command permit intent reads] } := by
  simp only [machine, State.step, hflush, hnext]
  exact Option.map_eq_some_iff.mpr ⟨d, hd, rfl⟩

/-- The beginning of a flush: nothing has been executed yet. -/
theorem Follows.beginFlush (h : Follows s a) (hflush : s.flush = none)
    (hwriter : s.store.writer.groupCommit = none) (hnext : a.next = none) (hsent : a.sent = s.sent)
    (hidle : s.group = none → a.next = s.next) (hbegin : s.beginFlush io = some t) :
    Simulated c t a := by
  rcases State.beginFlush_cases hbegin with ⟨hg, rfl⟩ | ⟨g, store, hg, hstore, rfl⟩
  · exact .idle hflush hwriter h (hidle hg) hsent
  · obtain ⟨-, -, rfl⟩ := begin_ok hstore
    exact .flushing rfl rfl (Machine.run_nil _ a) ⟨h.engine, h.store, h.flush, h.group, h.history⟩ hnext
      (by simp [hsent])

/-- A command that is executed in the group is executed by the other engine with a sync. -/
theorem Follows.perform {x : Exchange ρ σ} {d : Done ρ σ} {n : ℕ} (h : Follows s a)
    (hwriter : s.store.writer.groupCommit = some n) (hd : x.perform s.store io = some d) :
    x.perform a.store io.synced = some { d with store := d.store.grouped none } := by
  rw [h.store, perform_grouped n, grouped_self hwriter, hd]
  rfl

theorem performed_group {x : Exchange ρ σ} {d : Done ρ σ} {n : ℕ}
    (hwriter : s.store.writer.groupCommit = some n) (hd : x.perform s.store io = some d) :
    ∃ n, d.store.writer.groupCommit = some n := by
  rcases performed hd with ⟨hstore, -⟩ | ⟨happend, -⟩
  · exact ⟨n, hstore ▸ hwriter⟩
  · exact ⟨n + 1, by rw [(append_frame happend).group, hwriter]; rfl⟩

theorem performed_none {ρ' : Type} {x : Exchange ρ' σ} {d : Done ρ' σ}
    (hwriter : s.store.writer.groupCommit = none) (hd : x.perform s.store io = some d) :
    d.store.writer.groupCommit = none := by
  rcases performed hd with ⟨hstore, -⟩ | ⟨happend, -⟩
  · exact hstore ▸ hwriter
  · rw [(append_frame happend).group, hwriter]
    rfl

/-- In a flush every command that is executed is one that the other engine can execute. -/
theorem simulated_turn {x : Label ι κ μ} {f : Flush ι ρ} {n : ℕ} {ls : List (Label ι κ μ)}
    {a' : State ι κ μ ρ σ} (hflush : s.flush = some f) (hwriter : s.store.writer.groupCommit = some n)
    (hrun : (machine c.oneByOne).run a ls = some a') (hf : Follows s a') (hnext : a'.next = none)
    (hsent : a'.sent = s.sent ++ f.replies.reverse) (hstep : s.step c x = some t) :
    ∃ ls a', (machine c.oneByOne).run a ls = some a' ∧ Simulated c t a' := by
  have hbusy : s.idle = true → False := fun hidle ↦ by simp [(State.idle_iff.mp hidle).1] at hflush
  rcases State.step_moves hstep with ⟨hidle, -⟩ | ⟨hidle, -, -⟩ | ⟨hidle, -, -⟩ | hidle | ⟨hidle, -⟩ |
    ⟨hidle, -⟩ | @⟨permit, intent, left, replies, reads, io, d, hflush', hd⟩ |
    @⟨replies, io, size, store, hflush', hfinish⟩ | ⟨hflush', -, -⟩ | ⟨hidle, -⟩
  · exact (hbusy hidle).elim
  · exact (hbusy hidle).elim
  · exact (hbusy hidle).elim
  · exact (hbusy hidle).elim
  · exact (hbusy hidle).elim
  · exact (hbusy hidle).elim
  · obtain rfl : f = ⟨(permit, intent) :: left, replies⟩ := Option.some_inj.mp (hflush.symm.trans hflush')
    have hcommand := oneByOne_command (c := c) hf.flush hnext hf.group permit intent io
    have hperform := hf.perform hwriter hd
    rw [← hf.engine] at hperform
    have hdirect := oneByOne_direct (c := c) (a := { a' with
      arrived := a'.arrived ++ [permit], next := some (permit, intent) }) hf.flush rfl hperform
    obtain ⟨n', hgroup⟩ := performed_group hwriter hd
    have hmore := Machine.run_append hrun
      (show (machine c.oneByOne).run a' [.command permit intent io, .direct reads io.synced] = _ from
        Option.bind_eq_some_iff.mpr ⟨_, hcommand, Option.bind_eq_some_iff.mpr ⟨_, hdirect, rfl⟩⟩)
    refine ⟨[], a, rfl, .flushing (n := n') rfl hgroup hmore ⟨rfl, rfl, hf.flush, hf.group,
      congrArg (· ++ _) hf.history⟩ rfl ?_⟩
    simp [State.advance, hsent]
  · obtain rfl : f = ⟨[], replies⟩ := Option.some_inj.mp (hflush.symm.trans hflush')
    obtain ⟨-, rfl, -⟩ := finish_ok hfinish
    rcases hn : s.next with _ | ⟨permit, intent⟩
    · exact ⟨ls, a', hrun, .idle rfl rfl ⟨hf.engine, hf.store, hf.flush, hf.group, hf.history⟩ hnext hsent⟩
    · -- the command before which the group was flushed
      have hcommand := oneByOne_command (c := c) hf.flush hnext hf.group permit intent io
      have hmore := Machine.run_append hrun
        (show (machine c.oneByOne).run a' [.command permit intent io] = _ from
          Option.bind_eq_some_iff.mpr ⟨_, hcommand, rfl⟩)
      exact ⟨_, _, hmore, .idle rfl rfl ⟨hf.engine, hf.store, hf.flush, hf.group, hf.history⟩ rfl hsent⟩
  · exact absurd (hflush.symm.trans hflush') (by simp)
  · exact (hbusy hidle).elim

theorem simulated_step {x : Label ι κ μ} (h : Simulated c s a) (hstep : s.step c x = some t) :
    ∃ ls a', (machine c.oneByOne).run a ls = some a' ∧ Simulated c t a' := by
  rcases h with ⟨hflush, hwriter, hf, hnext, hsent⟩ | ⟨hflush, hwriter, hrun, hf, hnext, hsent⟩
  swap
  · exact simulated_turn hflush hwriter hrun hf hnext hsent hstep
  have hstore : a.store = s.store := hf.store.trans (grouped_self hwriter)
  rcases State.step_moves hstep with ⟨hidle, -⟩ | @⟨permit, intent, io, _, hidle, -, hbegin⟩ |
    @⟨permit, intent, io, _, hidle, -, hbegin⟩ | hidle | ⟨hidle, hbegin⟩ | ⟨hidle, hbegin⟩ |
    ⟨hflush', -⟩ | ⟨hflush', -⟩ | @⟨permit, intent, reads, io, d, -, hnext', hd⟩ | @⟨m, io, d, hidle, hd⟩
  · rw [State.enqueue_same]
    exact ⟨[], a, rfl, .idle hflush hwriter ⟨hf.engine, hf.store, hf.flush, hf.group, hf.history⟩ hnext hsent⟩
  · -- the command has filled the group
    have hnone := hnext.trans (State.idle_iff.mp hidle).2
    rw [State.enqueue_same] at hbegin
    refine ⟨[], a, rfl, Follows.beginFlush ?_ ?_ ?_ hnone ?_ (fun _ ↦ ?_) hbegin⟩
    · exact ⟨hf.engine, hf.store, hf.flush, hf.group, hf.history⟩
    · exact hflush
    · exact hwriter
    · exact hsent
    · exact hnext
  · have hnone := hnext.trans (State.idle_iff.mp hidle).2
    have hcommand := oneByOne_command (c := c) hf.flush hnone hf.group permit intent io
    rcases State.beginFlush_cases hbegin with ⟨hg, rfl⟩ | ⟨g, store, hg, hbegun, rfl⟩
    · exact ⟨[.command permit intent io], _, Option.bind_eq_some_iff.mpr ⟨_, hcommand, rfl⟩,
        .idle hflush hwriter ⟨hf.engine, hf.store, hf.flush, hf.group, hf.history⟩ rfl hsent⟩
    · -- the other engine takes it only when the group is done
      obtain ⟨-, -, rfl⟩ := begin_ok hbegun
      exact ⟨[], a, rfl, .flushing rfl rfl (Machine.run_nil _ a)
        ⟨hf.engine, hf.store, hf.flush, hf.group, hf.history⟩ hnone (by simp [hsent])⟩
  · exact ⟨[], a, rfl, .idle hflush hwriter hf hnext hsent⟩
  · exact ⟨[], a, rfl, hf.beginFlush hflush hwriter (hnext.trans (State.idle_iff.mp hidle).2) hsent
      (fun _ ↦ hnext) hbegin⟩
  · exact ⟨[], a, rfl, hf.beginFlush hflush hwriter (hnext.trans (State.idle_iff.mp hidle).2) hsent
      (fun _ ↦ hnext) hbegin⟩
  · exact absurd (hflush.symm.trans hflush') (by simp)
  · exact absurd (hflush.symm.trans hflush') (by simp)
  · have hdirect := oneByOne_direct (c := c) (a := a) hf.flush (hnext.trans hnext')
      (hstore ▸ hf.engine ▸ hd)
    refine ⟨[.direct reads io], _, Option.bind_eq_some_iff.mpr ⟨_, hdirect, rfl⟩,
      .idle hflush (performed_none hwriter hd) ⟨rfl, ?_, hf.flush, hf.group,
        congrArg (· ++ _) hf.history⟩ rfl ?_⟩
    · exact (grouped_self (performed_none hwriter hd)).symm
    · simp [hsent]
  · have hd' : (c.oneByOne.message m a.engine).perform a.store io = some d := hstore ▸ hf.engine ▸ hd
    have hmessage : (machine c.oneByOne).step a (.message m io) =
        some { a.advance d io with history := a.history ++ [.message m] } := by
      have hidle : a.idle = true :=
        State.idle_iff.mpr ⟨hf.flush, hnext.trans (State.idle_iff.mp hidle).2⟩
      simp only [machine, State.step, hidle, if_true, hd', Option.map_some]
    exact ⟨[.message m io], _, Option.bind_eq_some_iff.mpr ⟨_, hmessage, rfl⟩,
      .idle hflush (performed_none hwriter hd)
        ⟨rfl, (grouped_self (performed_none hwriter hd)).symm, hf.flush, hf.group,
          congrArg (· ++ _) hf.history⟩ hnext hsent⟩

theorem simulated_start (h : Starts s) : Simulated c s s :=
  .idle h.flush h.writer ⟨rfl, (grouped_self h.writer).symm, h.flush, h.group, rfl⟩ rfl rfl

theorem simulation (c : Commands ι κ μ ρ σ) :
    Machine.Simulation (machine c) (machine c.oneByOne) (Simulated c) where
  initial s h := ⟨s, h, simulated_start h⟩
  step _ _ _ _ h hstep := simulated_step h hstep

/-- The same work was done, with the same outcome. -/
structure Alike (s a : State ι κ μ ρ σ) : Prop where
  engine : a.engine = s.engine
  store : a.store = s.store
  sent : a.sent = s.sent
  history : a.history = s.history

/-- **Groups change nothing but when a command is executed.** Whatever run the engine with groups has
taken, outside a flush it is where the engine is that syncs every record and collects nothing: it has
executed the same commands and messages in the same order, has given the same answers, and the files are
the same, byte by byte. -/
theorem one_by_one {s₀ : State ι κ μ ρ σ} {ls : List (Label ι κ μ)} (h₀ : Starts s₀)
    (hrun : (machine c).run s₀ ls = some s) (hflush : s.flush = none) :
    ∃ ls' a, (machine c.oneByOne).run s₀ ls' = some a ∧ Alike s a := by
  obtain ⟨ls', a, hrun', h'⟩ := (simulation c).run (simulated_start h₀) hrun
  refine ⟨ls', a, hrun', ?_⟩
  rcases h' with ⟨-, hwriter, hf, -, hsent⟩ | ⟨hflushing, -⟩
  · exact ⟨hf.engine, hf.store.trans (grouped_self hwriter), hsent, hf.history⟩
  · exact absurd (hflush.symm.trans hflushing) (by simp)

end OneByOne

end Runs

namespace Sample

/-- Every command appends what it brings, and answers with the number of the record. -/
def commands : Commands Binary Unit Binary ℕ ℕ where
  batchable _ payload := !payload.isEmpty
  command payload _ n := .append 1 1 payload fun answer ↦ answer.toOption.map fun r ↦ (r.sequence, n + 1)
  message payload n := .append 2 1 payload fun answer ↦ answer.toOption.map fun _ ↦ ((), n + 1)
  maxEvents := 2

def start : State Binary Unit Binary ℕ ℕ where
  engine := 0
  group := none
  fresh := 0
  flush := none
  next := none
  store := .fresh sampleHeader Physical.minRotationBytes .sync
  covered := 1
  sent := []
  arrived := []
  history := []

theorem start_starts : Starts start where
  safe :=
    { held := held_fresh sampleHeader_valid le_rfl (by decide) .sync
      first := le_rfl
      upto := le_rfl
      closed := fun _ ↦ rfl
      idle := fun _ ↦ rfl
      durability := rfl }
  covered := rfl
  writer := rfl
  group := rfl
  flush := rfl
  next := rfl
  sent := rfl
  arrived := rfl

/-- Two commands fill a group, which is flushed; a third comes and waits. -/
def labels : List (Label Binary Unit Binary) :=
  [.command 7 [1] sound, .command 8 [2, 3] sound, .turn () sound, .turn () sound, .finish sound,
    .message [4] sound, .command 9 [5] sound]

def ended : Option (State Binary Unit Binary ℕ ℕ) := (machine commands).run start labels

theorem ended_isSome : ended.isSome = true := by decide +kernel

theorem ended_run : (machine commands).run start labels = some (ended.get ended_isSome) :=
  (Option.some_get ended_isSome).symm

end Sample

theorem sample_acknowledges : Acknowledges (Sample.ended.get Sample.ended_isSome) :=
  acknowledges (Machine.reachable_of_run Sample.start_starts Sample.ended_run)

theorem sample_one_by_one : ∃ ls' a, (machine Sample.commands.oneByOne).run Sample.start ls' = some a ∧
    Alike (Sample.ended.get Sample.ended_isSome) a :=
  one_by_one Sample.start_starts Sample.ended_run (by decide +kernel)

/-! ## Commits

A persistent commit of a job is such a command: it is prepared, then it appends one record, and it is
finished with the receipt. -/

section Commits

open Engine

variable (vm : Tay.Runtime)

/-- What is left of a commit; one that raises takes the engine with it. -/
def settled (s : Engine.State) : Except Reason Committed → Option (Except Reason Job × Engine.State)
  | .ok r => some (.ok r.job, r.state)
  | .error .raised => none
  | .error reason => some (.error reason, s)

/-- A coordinate that is exhausted is an answer. -/
def refusalReason : SegmentOps.Refusal → Reason
  | .sequenceExhausted => .sequenceExhausted
  | .segmentIdExhausted => .segmentIdExhausted

/-- What follows the receipt. -/
def finished (s : Engine.State) (previous : Option Job) (e : V2.JobEvent) (p : Engine.Prepared)
    (receipt : Receipt) : Except Reason Committed := do
  validateReceipt s receipt (Payload.mutation p.mutation).bytes
  finishCommit vm s previous e p receipt

/-- `commit_v2`, as what it asks of the writer. With a receipt nothing may fail any more. -/
def commitExchange (admits : ℤ → Bool) (s : Engine.State) (previous : Option Job) (e : V2.JobEvent) :
    Exchange (Except Reason Job) Engine.State :=
  match prepareV2 vm s previous e with
  | .error reason => if reason = .raised then .exit else .reply (.error reason) s
  | .ok p =>
    if admits (p.budget.bytes - s.budget.bytes) then
      .append 8 1 (Codec.mutationPayload p.mutation) fun answer ↦
        match answer with
        | .ok receipt => (finished vm s previous e p receipt).toOption.map fun r ↦ (.ok r.job, r.state)
        | .error refusal => some (.error (refusalReason refusal), s)
    else .reply (.error (.resourceLimit .retainedBytes)) s

/-- The writer of these files, as the environment of a commit. -/
def environment (admits : ℤ → Bool) (store : Run) (io : Io) : Environment where
  admits := admits
  append
    | .mutation m => match (store.append 8 1 (Codec.mutationPayload m) io).1 with
      | .appended receipt => .ok receipt
      | .refused refusal => .error (refusalReason refusal)
      | _ => .error .raised
    | _ => .error .raised

/-- A commit is the exchange it asks of the writer, with the writer's own answers. -/
theorem perform_commit {admits : ℤ → Bool} {s : Engine.State} {previous : Option Job} {e : V2.JobEvent}
    {store : Run} {io : Io} {d : Done (Except Reason Job) Engine.State}
    (h : (commitExchange vm admits s previous e).perform store io = some d) :
    settled s (commitV2 vm s previous e (environment admits store io)) = some (d.result, d.next) := by
  unfold commitExchange at h
  unfold commitV2
  rcases hp : prepareV2 vm s previous e with reason | p
  · rw [hp] at h
    dsimp only at h
    split_ifs at h with hraised
    · cases h
    · obtain rfl := Option.some_inj.mp h
      rcases reason <;> first | exact absurd rfl hraised | rfl
  · rw [hp] at h
    dsimp only at h
    split_ifs at h with hadmits
    · have hcheck : check ((environment admits store io).admits (p.budget.bytes - s.budget.bytes))
          (Reason.resourceLimit .retainedBytes) = .ok () := if_pos hadmits
      unfold Exchange.perform at h
      dsimp only at h
      rcases happend : store.append 8 1 (Codec.mutationPayload p.mutation) io with ⟨reply, store'⟩
      rw [happend] at h
      rcases reply with receipt | _ | refusal | _ | _ | _ | _ | _
      · obtain ⟨r, hr, rfl⟩ := Option.map_eq_some_iff.mp h
        obtain ⟨c, hc, rfl⟩ := Option.map_eq_some_iff.mp hr
        have hfinished : finished vm s previous e p receipt = .ok c := toOption_eq_some.mp hc
        have happended : appendRecord vm s (.mutation p.mutation) (environment admits store io) =
            .ok (receipt, s) := by
          simp [appendRecord, environment, happend]
        show settled s (check _ _ >>= fun _ ↦ _) = _
        rw [hcheck, happended]
        exact (congrArg (settled s) hfinished).trans rfl
      · cases h
      · obtain ⟨r, hr, rfl⟩ := Option.map_eq_some_iff.mp h
        obtain rfl := Option.some_inj.mp hr
        have happended : appendRecord vm s (.mutation p.mutation) (environment admits store io) =
            .error (refusalReason refusal) := by
          simp [appendRecord, environment, happend]
        show settled s (check _ _ >>= fun _ ↦ _) = _
        rw [hcheck, happended]
        rcases refusal <;> rfl
      all_goals cases h
    · obtain rfl := Option.some_inj.mp h
      have hcheck : check ((environment admits store io).admits (p.budget.bytes - s.budget.bytes))
          (Reason.resourceLimit .retainedBytes) = .error (Reason.resourceLimit .retainedBytes) := if_neg hadmits
      show settled s (check _ _ >>= fun _ ↦ _) = _
      rw [hcheck]
      rfl

end Commits

end Tay.GroupCommit
