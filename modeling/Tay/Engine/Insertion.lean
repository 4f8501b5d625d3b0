import Tay.Engine.Headroom
import Tay.Event.Reading
import Tay.Storage.Estimate
import Tay.Storage.Restored

/-!
# What an insertion admits and a compaction writes

`insert_new` measures the event of an insertion under the limits that `Config` has for insertions, which
are at most the limits under which the store is read. A compaction writes each version of the job as a
snapshot: a body of eleven fields where the event has five, behind a prefix of its own, and under the
default limits of `Value` whatever the configuration says. The definition is one level down in both, but
it has less room in the snapshot, and limits above the default ones are not known to the compaction.

So an admitted job can be compacted exactly if its definition leaves room for the other fields of the
snapshot within the default limits, and every job can where the configuration stays below them.
-/

open Foundation

namespace Tay

open V2

/-! ## What a snapshot costs -/

namespace Value

mutual

/-- A string takes more bytes than it has. -/
theorem strings_le : (value : Value) → value.cost.strings ≤ value.cost.bytes
  | .null | .bool _ | .int _ | .float _ | .other => by simp [cost, Cost.leaf]
  | .str s | .bytes s => by simp [cost, Cost.binary]
  | .list items => by
    have hitems := strings_le_list items
    simp only [cost, Cost.enclosed]
    omega
  | .map entries => by
    have hentries := strings_le_map entries
    simp only [cost, Cost.enclosed]
    omega

theorem strings_le_list : (items : List Value) →
    (cost.costList items).strings ≤ (cost.costList items).bytes
  | [] => le_rfl
  | head :: tail => by
    have hhead := strings_le head
    have htail := strings_le_list tail
    simp only [cost.costList, Cost.beside]
    omega

theorem strings_le_map : (entries : List (Value × Value)) →
    (cost.costMap entries).strings ≤ (cost.costMap entries).bytes
  | [] => le_rfl
  | (key, value) :: next => by
    have hkey := strings_le key
    have hvalue := strings_le value
    have hnext := strings_le_map next
    simp only [cost.costMap, Cost.beside]
    omega

end

theorem cost_nat (n : ℕ) : (nat n).cost = .leaf 9 := rfl

theorem cost_opt_nat (o : Option ℕ) : (opt nat o).cost = .leaf (if o.isSome then 9 else 1) := by
  cases o <;> rfl

theorem writable_nat {n : ℕ} (h : n ≤ maxSequence) : (nat n).writable = true := by
  simp only [nat, writable, Bool.and_eq_true, decide_eq_true_eq]
  unfold maxSequence at h
  omega

theorem writable_opt_nat {o : Option ℕ} (h : ∀ n, o = some n → n ≤ maxSequence) :
    (opt nat o).writable = true := by
  cases o with
  | none => rfl
  | some n => exact writable_nat (h n rfl)

end Value

namespace Codec

/-- The nodes of a snapshot besides those of the definition. -/
def nodesAround (job : Job) : ℕ := if job.diagnostic.isSome then 26 else 22

/-- The bytes of a snapshot besides those of the definition: the prefix, the header of the body with its
keys and the state, and the other fields. -/
def bytesAround (job : Job) : ℕ :=
  (32 + if job.execution.isSome then 9 else 1) + (5 + 174 + 14) +
    (9 + (if job.nextAttempt.isSome then 9 else 1) + (if job.eligibleAt.isSome then 9 else 1) +
      (if job.availabilityOrder.isSome then 9 else 1) + 9 + (if job.attemptedAt.isSome then 9 else 1) +
      (if job.completedAt.isSome then 9 else 1) + (if job.terminalAt.isSome then 9 else 1) +
      (if job.diagnostic.isSome then 44 else 1))

/-- No version of a job needs more than 326 bytes around its definition. -/
theorem bytesAround_le {job : Job} (h : Shape job) : bytesAround job ≤ 326 := by
  have hterminal := h.terminal
  have hstate := h.state
  unfold bytesAround
  cases hs : job.state <;>
    simp only [terminalFields?, stateFields?, hs, Bool.and_eq_true, Option.isNone_iff_eq_none,
      Option.isSome_iff_exists] at hterminal hstate <;> grind

theorem nodes_snapshotBody (job : Job) :
    (snapshotBody job).cost.nodes = job.definition.toValue.cost.nodes + nodesAround job := by
  have hdiagnostic : (Value.opt Diagnostic.toValue job.diagnostic).cost.nodes + 21 = nodesAround job := by
    cases hd : job.diagnostic <;> simp only [nodesAround, hd] <;> rfl
  simp only [snapshotBody, Value.record, List.map_cons, List.map_nil, Value.cost, Value.cost.costMap,
    Value.cost_nat, Value.cost_opt_nat, Value.Cost.enclosed, Value.Cost.beside, Value.Cost.leaf,
    Value.Cost.binary, Value.Cost.empty]
  omega

/-- A definition has three levels, the last for the values of its retry policy. -/
theorem three_le_height (d : Definition) : 3 ≤ d.toValue.cost.height := by
  simp only [Definition.toValue, RetryPolicy.toValue, Value.record, List.map_cons, List.map_nil,
    Value.cost, Value.cost.costMap, Value.cost_nat, Value.cost_opt_nat, Value.Cost.enclosed,
    Value.Cost.beside, Value.Cost.leaf, Value.Cost.binary, Value.Cost.empty]
  omega

theorem height_snapshotBody (job : Job) :
    (snapshotBody job).cost.height = 1 + job.definition.toValue.cost.height := by
  have hdiagnostic : (Value.opt Diagnostic.toValue job.diagnostic).cost.height ≤ 2 := by
    cases job.diagnostic with
    | none => decide
    | some d => exact Nat.le_refl 2
  have hdefinition := three_le_height job.definition
  simp only [snapshotBody, Value.record, List.map_cons, List.map_nil, Value.cost, Value.cost.costMap,
    Value.cost_nat, Value.cost_opt_nat, Value.Cost.enclosed, Value.Cost.beside, Value.Cost.leaf,
    Value.Cost.binary, Value.Cost.empty]
  omega

theorem length_stateText (state : JobState) : (stateText state).length = 9 := by
  cases state <;> decide

theorem wire_opt_diagnostic (o : Option Diagnostic) :
    (Value.opt Diagnostic.toValue o).wire.length = if o.isSome then 44 else 1 := by
  cases o with
  | none => rfl
  | some d =>
    simp only [Value.opt, Diagnostic.toValue, Value.record, List.map_cons, List.map_nil, Value.wire,
      Value.wire.wireMap, List.length_cons, List.length_append, Value.bigEndian_length,
      Engine.wire_nat_length, List.length_nil, show (text "code").length = 4 from by decide,
      show (text "version").length = 7 from by decide]
    rfl

theorem wire_opt_nat (o : Option ℕ) :
    (Value.opt Value.nat o).wire.length = if o.isSome then 9 else 1 := by
  cases o with
  | none => rfl
  | some n => exact Engine.wire_nat_length n

theorem length_snapshotPayload_around (job : Job) : (snapshotPayload job).length =
    job.definition.toValue.wire.length + bytesAround job := by
  rw [Publisher.length_snapshotPayload]
  simp only [snapshotBody, Value.record, List.map_cons, List.map_nil, Value.wire, Value.wire.wireMap,
    List.length_cons, List.length_append, Value.bigEndian_length, Engine.wire_nat_length,
    wire_opt_nat, wire_opt_diagnostic, List.length_nil, length_stateText, bytesAround,
    show (text "attempt").length = 7 from by decide,
    show (text "attempted_at").length = 12 from by decide,
    show (text "availability_order").length = 18 from by decide,
    show (text "completed_at").length = 12 from by decide,
    show (text "definition").length = 10 from by decide,
    show (text "diagnostic").length = 10 from by decide,
    show (text "eligible_at").length = 11 from by decide,
    show (text "inserted_at").length = 11 from by decide,
    show (text "next_attempt").length = 12 from by decide,
    show (text "state").length = 5 from by decide,
    show (text "terminal_at").length = 11 from by decide]
  cases job.execution <;> simp <;> omega

theorem writable_snapshotBody {job : Job} {limits : Value.Limits} (h : Fields job limits) :
    (snapshotBody job).writable = true := by
  have huint : ∀ {n : ℕ}, uint? n = true → n ≤ maxSequence := by
    intro n hn
    simp only [uint?, Bool.and_eq_true, decide_eq_true_eq] at hn
    exact hn.2
  have htime : ∀ {n : ℕ}, time? n = true → n ≤ maxSequence := by
    intro n hn
    exact (of_decide_eq_true hn).trans (by decide)
  have htimes : ∀ {o : Option ℕ}, o.all time? = true → ∀ n, o = some n → n ≤ maxSequence := by
    rintro o ho n rfl
    exact htime ho
  have hattempts : job.definition.maxAttempts ≤ maxSequence := by
    have hdefinition := h.definition
    simp only [definition?, Bool.and_eq_true, attempt?, decide_eq_true_eq] at hdefinition
    exact hdefinition.1.1.1.1.1.1.2.2.trans (by decide)
  have horder : ∀ n, job.availabilityOrder = some n → n ≤ maxSequence := by
    intro n hn
    have hall := h.availabilityOrder
    rw [hn] at hall
    exact huint hall
  have hdefinition : job.definition.toValue.writable = true :=
    (Value.encode_eq_ok.mp h.bytes).1.2.2.1
  have hdiagnostic : (Value.opt Diagnostic.toValue job.diagnostic).writable = true := by
    have hvalid := h.diagnostic
    cases hd : job.diagnostic with
    | none => rfl
    | some d =>
      rw [hd] at hvalid
      simp only [validDiagnostic?, Bool.and_eq_true, decide_eq_true_eq, beq_iff_eq] at hvalid
      have hcode : (Value.nat d.code).writable = true := Value.writable_nat (by unfold maxSequence; omega)
      have hversion : (Value.nat d.version).writable = true :=
        Value.writable_nat (by unfold maxSequence; omega)
      simp only [Value.opt, Diagnostic.toValue, Value.record, List.map_cons, List.map_nil, Value.writable,
        Value.writable.writableMap, Value.isBinary, hcode, hversion, Bool.and_eq_true]
      decide
  have hstate : Value.validUtf8 (stateText job.state) = true := by
    cases job.state <;> decide
  simp only [snapshotBody, Value.record, List.map_cons, List.map_nil, Value.writable,
    Value.writable.writableMap, Value.isBinary, hdefinition, hdiagnostic, hstate,
    Value.writable_nat (h.attempt.trans hattempts), Value.writable_nat (htime h.insertedAt),
    Value.writable_opt_nat (htimes h.attemptedAt), Value.writable_opt_nat (htimes h.completedAt),
    Value.writable_opt_nat (htimes h.eligibleAt), Value.writable_opt_nat (htimes h.terminalAt),
    Value.writable_opt_nat horder,
    Value.writable_opt_nat fun n hn ↦ ((h.nextAttempt n hn).2.trans hattempts), Bool.and_eq_true]
  decide

end Codec

namespace Engine

/-! ## Admission -/

/-- The options of `Config` that bound an insertion. -/
structure InsertOptions where
  maxInsertPayloadBytes : ℕ
  maxInsertArgsBytes : ℕ
  insertValueDepth : ℕ
  insertValueNodes : ℕ
  deriving DecidableEq, Repr

/-- What `Recovery.options` asks of the limits that become `value_limits`. -/
def recoveryOptions? (c : Config) : Bool :=
  c.maxDecodePayloadBytes ≤ Value.maxBytes && Value.limits? c.valueLimits

/-- `validate_numeric_limits`, for the options of an insertion that may be zero by type. -/
def validateNumericLimits (o : InsertOptions) : Bool :=
  0 < o.insertValueDepth && 0 < o.insertValueNodes

def validatePayloads (o : InsertOptions) (c : Config) : Bool :=
  1 ≤ o.maxInsertPayloadBytes && o.maxInsertPayloadBytes ≤ c.maxDecodePayloadBytes &&
    o.maxInsertPayloadBytes ≤ c.valueLimits.binaryBytes && 5 ≤ o.maxInsertArgsBytes &&
    o.maxInsertArgsBytes ≤ Value.maxBytes && o.insertValueDepth ≤ c.valueLimits.depth &&
    o.insertValueNodes ≤ c.valueLimits.outputNodes

/-- The configuration is one that `Config.new` accepts. -/
def acceptedOptions (o : InsertOptions) (c : Config) : Bool :=
  recoveryOptions? c && validateNumericLimits o && validatePayloads o c

def insertLimits (o : InsertOptions) (c : Config) : Value.Limits :=
  { c.valueLimits with depth := o.insertValueDepth, outputNodes := o.insertValueNodes }

/-- The event of an insertion at a reading of the clock. -/
def insertEvent (raw : JobId) (definition : Definition) (now : ℕ) : JobEvent :=
  ⟨raw, 0, now, .inserted definition (definition.scheduledAt.getD now)⟩

variable (vm : Runtime)

/-- How an insertion is refused. -/
inductive InsertFailure
  | capacity (reason : Reason)
  | insertionValidation
  | raised
  deriving DecidableEq, Repr

def insertFailure : Reason → InsertFailure
  | .resourceLimit key => .capacity (.resourceLimit key)
  | .sequenceExhausted => .capacity .sequenceExhausted
  | .segmentIdExhausted => .capacity .segmentIdExhausted
  | .raised => .raised
  | _ => .insertionValidation

/-- `insert_new`, on a request whose bytes are the encoding of the definition; `mapped` is the verdict
on its worker. -/
def insertNew (s : State) (o : InsertOptions) (raw : JobId) (definition : Definition) (mapped : Bool)
    (now : ℕ) (durability : Durability) (env : Environment) : Except InsertFailure Committed := do
  let _ ← (definition.toValue.measure s.config.valueLimits Value.maxBytes).mapError insertFailure
  check (definition? definition) .insertionValidation
  check mapped .insertionValidation
  let event := insertEvent raw definition now
  let limits := insertLimits o s.config
  let _ ← (event.encode limits o.maxInsertPayloadBytes).mapError insertFailure
  let _ ← (definition.args.measure limits o.maxInsertArgsBytes).mapError insertFailure
  (commit vm s none event (some durability) env).mapError insertFailure

/-- The versions of a job with that definition which has been inserted under a configuration: from a
persistent insertion on, by whatever persistent commits follow it. -/
inductive Lived (c : Config) (o : InsertOptions) (definition : Definition) : Job → Prop
  | inserted {s : State} {raw : JobId} {mapped : Bool} {now : ℕ} {env : Environment} {r : Committed} :
      s.config = c → insertNew vm s o raw definition mapped now .persistent env = .ok r →
      Lived c o definition r.job
  | next {s : State} {p : Job} {e : JobEvent} {env : Environment} {r : Committed} :
      s.config = c → Lived c o definition p → commitV2 vm s (some p) e env = .ok r →
      Lived c o definition r.job

/-! ## Compaction -/

/-- What a compaction does with a job: `validate_source` checks it, and `write_base` encodes it. -/
structure Compactable (job : Job) : Prop where
  valid : Codec.snapshot? job Value.defaults = .ok ()
  encoded : ∃ payload, Codec.encodeSnapshot job Value.defaults = .ok payload

/-- The definition leaves room for the rest of a snapshot: for the body above it, for the nodes of the
other fields, and for their bytes. -/
structure LeavesRoom (definition : Definition) (job : Job) : Prop where
  depth : 1 + definition.toValue.cost.height ≤ 64
  nodes : definition.toValue.cost.nodes + Codec.nodesAround job ≤ 100000
  bytes : definition.toValue.cost.bytes + Codec.bytesAround job ≤ 16777216

theorem defaults_valid : Value.limits? Value.defaults = true := by decide

/-- A job that is a snapshot under some limits is one under the default limits if they cover it. -/
theorem compactable_of_snapshot {job : Job} {limits : Value.Limits}
    (h : Codec.snapshot? job limits = .ok ()) : Compactable job ↔ LeavesRoom job.definition job := by
  obtain ⟨hfields, hshape⟩ := Codec.snapshot?_iff.mp h
  obtain ⟨⟨-, -, hwritable, -, -, -, -⟩, hbytes⟩ := Value.encode_eq_ok.mp hfields.bytes
  have hpayload := Codec.length_snapshotPayload_around job
  have hlength := Value.length_wire hwritable
  have hbody := Value.length_wire (Codec.writable_snapshotBody hfields)
  have hprefix := Publisher.length_snapshotPayload job
  have hheight := Codec.height_snapshotBody job
  have hnodes := Codec.nodes_snapshotBody job
  have hthree := Codec.three_le_height job.definition
  constructor
  · rintro ⟨-, payload, hencode⟩
    simp only [Codec.encodeSnapshot, bind_eq_ok, check_eq_ok, decide_eq_true_eq] at hencode
    obtain ⟨-, -, wire, hwire, -, hroom, -⟩ := hencode
    obtain ⟨⟨-, -, -, h1, h2, -, -⟩, -⟩ := Value.encode_eq_ok.mp hwire
    simp only [Value.defaults, Value.maxBytes] at h1 h2 hroom
    exact ⟨by omega, by omega, by omega⟩
  · rintro ⟨h1, h2, h3⟩
    have hmeasured : ∀ value : Value, value.writable = true → value.cost.height ≤ 64 →
        value.cost.nodes ≤ 100000 → value.cost.bytes ≤ 16777216 →
        value.encode Value.defaults Value.maxBytes = .ok value.wire := fun value hw hh hn hb ↦
      Value.encode_eq_ok.mpr ⟨⟨defaults_valid, le_rfl, hw, hh, hn, (Value.strings_le value).trans hb, hb⟩, rfl⟩
    have hdefinition := hmeasured job.definition.toValue hwritable (by omega) (by omega) (by omega)
    have hvalid : Codec.snapshot? job Value.defaults = .ok () :=
      Codec.snapshot?_iff.mpr ⟨{ hfields with bytes := by rw [hdefinition, hbytes] }, hshape⟩
    refine ⟨hvalid, Codec.snapshotPayload job, ?_⟩
    have hencoded := hmeasured (Codec.snapshotBody job) (Codec.writable_snapshotBody hfields)
      (by omega) (by omega) (by split at hprefix <;> omega)
    simp only [Codec.encodeSnapshot, hvalid, hencoded, ok_bind]
    rw [check_bind_eq_ok]
    exact ⟨decide_eq_true (by rw [hpayload, hlength]; exact h3), rfl⟩

/-! ## The versions of an admitted job -/

theorem transitionJob_inserted_definition {raw now order order' : ℕ} {definition : Definition}
    {m : Mutation} {limits : Value.Limits} {job : Job}
    (hm : Mutation.fromEvent (insertEvent raw definition now) none order = .ok m)
    (h : Reducer.transitionJob none m order' limits = .ok job) : job.definition = definition := by
  simp only [Mutation.fromEvent, Mutation.translate, insertEvent, ok_bind, pure_eq_ok,
    Except.ok.injEq] at hm
  subst hm
  simp only [Reducer.transitionJob, Transition.prepare, Transition.definitionBytes, Transition.apply,
    Codec.event, Option.map_none, bind_eq_ok, pure_eq_ok, Except.ok.injEq] at h
  obtain ⟨-, -, -, -, -, -, q, ⟨-, -, -, -, bytes, -, rfl⟩, applied, ⟨-, -, happlied⟩, -, -, rfl⟩ :=
    h
  cases happlied
  rfl

/-- A persistent commit stores a snapshot under the limits of the engine. -/
theorem commitV2_snapshot {s : State} {previous : Option Job} {e : JobEvent} {env : Environment}
    {r : Committed} (h : commitV2 vm s previous e env = .ok r) :
    ∃ m job order, Mutation.fromEvent e previous s.nextAvailabilityOrder = .ok m ∧
      Reducer.transitionJob previous m order s.config.valueLimits = .ok job ∧
      r.job.definition = job.definition ∧ Codec.snapshot? r.job s.config.valueLimits = .ok () := by
  obtain ⟨p, base, hp, -, hc⟩ := commitV2_landing vm h
  obtain ⟨job, hdurable, hjob, -⟩ := hp.transition
  have hsame : r.job.durable = job.durable := hc.job.trans hdurable
  have hdefinition : r.job.durable.definition = job.durable.definition := by rw [hsame]
  have hforget : ∀ j : Job, Codec.snapshot? j.durable s.config.valueLimits =
      Codec.snapshot? j s.config.valueLimits := fun _ ↦ rfl
  refine ⟨p.mutation, job, _, hp.mutation, hjob, hdefinition, ?_⟩
  rw [← hforget, hsame, hforget]
  exact Reducer.transitionJob_snapshot hjob

theorem insertNew_persistent {s : State} {o : InsertOptions} {raw : JobId} {definition : Definition}
    {mapped : Bool} {now : ℕ} {env : Environment} {r : Committed}
    (h : insertNew vm s o raw definition mapped now .persistent env = .ok r) :
    (∃ payload, (insertEvent raw definition now).encode (insertLimits o s.config)
        o.maxInsertPayloadBytes = .ok payload) ∧
      commitV2 vm s none (insertEvent raw definition now) env = .ok r := by
  simp only [insertNew, bind_eq_ok, mapError_eq_ok] at h
  obtain ⟨-, -, -, -, -, -, payload, hpayload, -, -, hcommit⟩ := h
  exact ⟨⟨payload, hpayload⟩, hcommit⟩

/-- Every version has the definition of the insertion, and is a snapshot under the limits of the
engine. -/
theorem Lived.snapshot {c : Config} {o : InsertOptions} {definition : Definition} {job : Job}
    (h : Lived vm c o definition job) :
    job.definition = definition ∧ Codec.snapshot? job c.valueLimits = .ok () := by
  induction h with
  | inserted hconfig hinsert =>
    subst hconfig
    obtain ⟨m, job, order, hm, hjob, hdefinition, hsnapshot⟩ :=
      commitV2_snapshot vm (insertNew_persistent vm hinsert).2
    exact ⟨hdefinition.trans (transitionJob_inserted_definition hm hjob), hsnapshot⟩
  | next hconfig _ hcommit ih =>
    subst hconfig
    obtain ⟨m, job, order, -, hjob, hdefinition, hsnapshot⟩ := commitV2_snapshot vm hcommit
    exact ⟨hdefinition.trans ((Canonical.transitionJob_kept hjob).2.1.trans ih.1), hsnapshot⟩

/-- Every version comes from an insertion whose event was within the limits for insertions. -/
theorem Lived.admitted {c : Config} {o : InsertOptions} {definition : Definition} {job : Job}
    (h : Lived vm c o definition job) : ∃ raw now payload,
      (insertEvent raw definition now).encode (insertLimits o c) o.maxInsertPayloadBytes =
        .ok payload := by
  induction h with
  | @inserted s raw mapped now env r hconfig hinsert =>
    subst hconfig
    obtain ⟨payload, hpayload⟩ := (insertNew_persistent vm hinsert).1
    exact ⟨raw, now, payload, hpayload⟩
  | next _ _ _ ih => exact ih

/-- The event of an insertion costs ten nodes, 124 bytes and one level more than the definition. -/
theorem cost_insertEvent (raw now : ℕ) (definition : Definition) :
    (insertEvent raw definition now).toValue.cost.height = 1 + definition.toValue.cost.height ∧
      (insertEvent raw definition now).toValue.cost.nodes = definition.toValue.cost.nodes + 10 ∧
      (insertEvent raw definition now).toValue.cost.bytes = definition.toValue.cost.bytes + 124 := by
  have hthree := Codec.three_le_height definition
  simp only [insertEvent, JobEvent.toValue, idValue, Value.record, List.map_cons, List.map_nil,
    Value.cost, Value.cost.costMap, Value.cost_nat, Value.Cost.enclosed, Value.Cost.beside,
    Value.Cost.leaf, Value.Cost.binary, Value.Cost.empty, Value.bigEndian_length,
    show (text "at").length = 2 from by decide, show (text "definition").length = 10 from by decide,
    show (text "eligible_at").length = 11 from by decide,
    show (text "expected_revision").length = 17 from by decide,
    show (text "job_id").length = 6 from by decide]
  omega

/-- An admitted job can be compacted, in whatever version, exactly if its definition leaves room for the
rest of the snapshot. It does where the limits for insertions stay that far below the default ones. -/
theorem compactable_iff {c : Config} {o : InsertOptions} {definition : Definition} {job : Job}
    (h : Lived vm c o definition job) :
    (Compactable job ↔ LeavesRoom definition job) ∧
      (o.insertValueDepth ≤ 64 → o.insertValueNodes ≤ 99984 → o.maxInsertPayloadBytes ≤ 16777014 →
        Compactable job) := by
  obtain ⟨hdefinition, hsnapshot⟩ := h.snapshot
  have hiff := compactable_of_snapshot hsnapshot
  rw [hdefinition] at hiff
  refine ⟨hiff, fun hdepth hnodes hbytes ↦ hiff.mpr ?_⟩
  obtain ⟨raw, now, payload, hencode⟩ := h.admitted
  obtain ⟨-, -, -, -, hencode⟩ := by simpa only [JobEvent.encode, bind_eq_ok] using hencode
  obtain ⟨⟨-, -, -, h1, h2, -, h4⟩, -⟩ := Value.encode_eq_ok.mp hencode
  obtain ⟨hheight, hcount, hlength⟩ := cost_insertEvent raw now definition
  have haround := Codec.bytesAround_le (Codec.snapshot?_iff.mp hsnapshot).2
  have hbeside : Codec.nodesAround job ≤ 26 := by
    unfold Codec.nodesAround
    split <;> omega
  simp only [insertLimits] at h1 h2
  exact ⟨by omega, by omega, by omega⟩

namespace Sample

open Tay.Sample

/-- The defaults of `Config`. -/
def defaultOptions : InsertOptions := ⟨1048576, 262144, 32, 10000⟩

/-- Deeper values than by default, which `Config.new` accepts when recovery reads them. -/
def deepOptions : InsertOptions := { defaultOptions with insertValueDepth := 70 }

def deep : Config := { config with valueLimits := { Value.defaults with depth := 100 } }

def nested : ℕ → Value
  | 0 => .null
  | n + 1 => .list [nested n]

def nestedDefinition : Definition :=
  { definition with args := .map [(.str (text "a"), nested 62)] }

/-- An insertion into an empty store. -/
def insertion (c : Config) (o : InsertOptions) (d : Definition) : Except InsertFailure Committed :=
  insertNew runtime (init c recovered segment) o 1 d true 10 .persistent (writer (init c recovered segment))

end Sample

theorem compactable_sample : ∃ job,
    Lived Tay.Sample.runtime Sample.config Sample.defaultOptions Tay.Sample.definition job ∧
      Compactable job := by
  obtain ⟨r, hr⟩ := exists_ok (x := Sample.insertion Sample.config Sample.defaultOptions
    Tay.Sample.definition) (by decide +kernel)
  have hlived := Lived.inserted (c := Sample.config) (o := Sample.defaultOptions) rfl hr
  exact ⟨r.job, hlived, (compactable_iff Tay.Sample.runtime hlived).2 (by decide) (by decide) (by decide)⟩

/-- A definition with 65 levels is admitted where the configuration allows it, and no compaction of the
store gets past the job. -/
theorem admitted_not_compactable : ¬∀ (vm : Runtime) (c : Config) (o : InsertOptions)
    (definition : Definition) (job : Job), acceptedOptions o c = true → Lived vm c o definition job →
      Compactable job := by
  intro hall
  obtain ⟨r, hr⟩ := exists_ok (x := Sample.insertion Sample.deep Sample.deepOptions
    Sample.nestedDefinition) (by decide +kernel)
  have hlived := Lived.inserted (c := Sample.deep) (o := Sample.deepOptions) rfl hr
  obtain ⟨hdefinition, hsnapshot⟩ := hlived.snapshot
  have hroom := (compactable_of_snapshot hsnapshot).mp (hall _ _ _ _ _ (by decide) hlived)
  rw [hdefinition] at hroom
  exact absurd hroom.depth (by decide +kernel)

end Engine

end Tay
