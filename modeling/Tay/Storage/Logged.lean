import Tay.Storage.Payload
import Tay.Storage.Record
import Tay.Storage.Reader

/-!
# What the records of a log say

The reader of `Tay.Storage.V2.Reader` goes by the type and the schema of a record: behind the base
segments a payload of type 8 and schema 1 is a mutation, one of schema 2 an auxiliary event. The bytes
are decoded into terms, and here a record is related to the mutation or the event whose terms come out.

At most one is related to a record, since a structure can be told from its terms. And what the engine
has encoded is related to the record it becomes.
-/

open Foundation

namespace Tay

open V2

/-! ## Structures can be told from their terms -/

theorem nat_inj {a b : ℕ} : Value.nat a = .nat b ↔ a = b :=
  ⟨fun h ↦ Int.ofNat.inj (Value.int.inj h), congrArg _⟩

theorem str_inj {a b : Binary} : Value.str a = .str b ↔ a = b := ⟨Value.str.inj, congrArg _⟩

theorem opt_inj {α : Type} {f : α → Value} (hf : ∀ a b, f a = f b → a = b) (hnull : ∀ a, f a ≠ .null)
    {a b : Option α} : Value.opt f a = .opt f b ↔ a = b := by
  refine ⟨fun h ↦ ?_, congrArg _⟩
  rcases a with _ | a <;> rcases b with _ | b
  · rfl
  · exact absurd h.symm (hnull b)
  · exact absurd h (hnull a)
  · exact congrArg some (hf a b h)

theorem optNat_inj {a b : Option ℕ} : Value.opt .nat a = .opt .nat b ↔ a = b :=
  opt_inj (fun _ _ ↦ nat_inj.mp) fun _ h ↦ by cases h

theorem optStr_inj {a b : Option Binary} : Value.opt .str a = .opt .str b ↔ a = b :=
  opt_inj (fun _ _ ↦ str_inj.mp) fun _ h ↦ by cases h

theorem record_inj {fields fields' : List (String × Value)} :
    Value.record fields = .record fields' ↔ fields = fields' := by
  refine ⟨fun h ↦ List.map_injective_iff.mpr ?_ (Value.map.inj h), congrArg _⟩
  rintro ⟨k, v⟩ ⟨k', v'⟩ heq
  obtain ⟨hk, rfl⟩ := Prod.mk.inj heq
  obtain rfl := text_injective (Value.str.inj hk)
  rfl

theorem RetryPolicy.toValue_inj {a b : RetryPolicy} : a.toValue = b.toValue ↔ a = b := by
  obtain ⟨_, _, _, _⟩ := a
  obtain ⟨_, _, _, _⟩ := b
  simp [RetryPolicy.toValue, record_inj, nat_inj]

theorem Definition.toValue_inj {a b : Definition} : a.toValue = b.toValue ↔ a = b := by
  obtain ⟨_, _, _, _, _, _, _, _⟩ := a
  obtain ⟨_, _, _, _, _, _, _, _⟩ := b
  simp [Definition.toValue, record_inj, nat_inj, optNat_inj, RetryPolicy.toValue_inj]

theorem optDiagnostic_inj {a b : Option V2.Diagnostic} :
    Value.opt V2.Diagnostic.toValue a = .opt V2.Diagnostic.toValue b ↔ a = b := by
  refine opt_inj (fun a b h ↦ ?_) fun _ h ↦ by cases h
  obtain ⟨_, _⟩ := a
  obtain ⟨_, _⟩ := b
  simpa [Diagnostic.toValue, record_inj, nat_inj] using h

theorem bigEndian_inj {a b : ℕ} (ha : a < 2 ^ 128) (hb : b < 2 ^ 128)
    (h : Value.bigEndian 16 a = Value.bigEndian 16 b) : a = b := by
  have hback := congrArg Value.ofBigEndian h
  have hwidth : 256 ^ 16 = 2 ^ 128 := by norm_num
  rwa [Value.ofBigEndian_bigEndian, Value.ofBigEndian_bigEndian, hwidth, Nat.mod_eq_of_lt ha,
    Nat.mod_eq_of_lt hb] at hback

theorem MutationBody.toValue_inj {a b : MutationBody} : a.toValue = b.toValue ↔ a = b := by
  cases a <;> cases b <;>
    simp [MutationBody.toValue, record_inj, nat_inj, optNat_inj, optDiagnostic_inj,
      Definition.toValue_inj, and_assoc, and_comm, and_left_comm]

theorem Mutation.toMap_inj {a b : Mutation} (ha : a.jobId < 2 ^ 128) (hb : b.jobId < 2 ^ 128)
    (h : a.toMap = b.toMap) : a = b := by
  obtain ⟨_, _, _, _, _⟩ := a
  obtain ⟨_, _, _, _, _⟩ := b
  simp only [Mutation.toMap, MutationMap.mk.injEq] at h
  obtain ⟨hid, -, rfl, rfl, rfl, hbody⟩ := h
  obtain rfl := bigEndian_inj ha hb hid
  obtain rfl := MutationBody.toValue_inj.mp hbody
  rfl

theorem ScheduleDefinition.toValue_inj {a b : ScheduleDefinition} : a.toValue = b.toValue ↔ a = b := by
  refine ⟨fun h ↦ ?_, congrArg _⟩
  obtain ⟨_, catchUp, trigger, _, overlap, _, _⟩ := a
  obtain ⟨_, catchUp', trigger', _, overlap', _, _⟩ := b
  simp only [ScheduleDefinition.toValue, record_inj, List.cons.injEq, Prod.mk.injEq, true_and, and_true,
    str_inj, optStr_inj] at h
  obtain ⟨rfl, hcatchUp, hexpression, hkind, rfl, hoverlap, rfl, rfl⟩ := h
  have hcatchUp : catchUp = catchUp' := by
    cases catchUp <;> cases catchUp' <;> first | rfl | exact absurd hcatchUp (by decide)
  have hoverlap : overlap = overlap' := by
    cases overlap <;> cases overlap' <;> first | rfl | exact absurd hoverlap (by decide)
  have htrigger : trigger = trigger' := by
    cases trigger <;> cases trigger' <;>
      first
      | exact absurd hkind (by simp [Trigger.kind]; decide)
      | simpa [Trigger.expression, str_inj, nat_inj] using hexpression
  rw [hcatchUp, hoverlap, htrigger]

theorem hexValue_inj {a b : ℕ} (ha : a < 2 ^ 128) (hb : b < 2 ^ 128) (h : hexValue a = hexValue b) :
    a = b := hexId_injective ha hb (Value.str.inj h)

theorem optHex_inj {a b : Option ℕ} (ha : ∀ id ∈ a.toList, id < 2 ^ 128)
    (hb : ∀ id ∈ b.toList, id < 2 ^ 128) (h : Value.opt hexValue a = .opt hexValue b) : a = b := by
  rcases a with _ | a <;> rcases b with _ | b
  · rfl
  · cases h
  · cases h
  · exact congrArg some (hexValue_inj (ha a (by simp)) (hb b (by simp)) h)

theorem hexList_inj : ∀ {a b : List ℕ}, (∀ id ∈ a, id < 2 ^ 128) → (∀ id ∈ b, id < 2 ^ 128) →
    a.map hexValue = b.map hexValue → a = b := by
  intro a
  induction a with
  | nil =>
    intro b _ _ h
    exact (List.map_eq_nil_iff.mp h.symm).symm
  | cons x a ih =>
    intro b ha hb h
    rcases b with _ | ⟨y, b⟩
    · cases h
    · obtain ⟨hxy, htail⟩ := List.cons.inj h
      obtain rfl := hexValue_inj (ha x List.mem_cons_self) (hb y List.mem_cons_self) hxy
      rw [ih (fun id hid ↦ ha id (List.mem_cons_of_mem _ hid))
        (fun id hid ↦ hb id (List.mem_cons_of_mem _ hid)) htail]

theorem AuxEvent.event_inj {a b : AuxEvent} (ha : ∀ id ∈ a.body.ids, id < 2 ^ 128)
    (hb : ∀ id ∈ b.body.ids, id < 2 ^ 128) (h : a.event = b.event) : a = b := by
  have hcode : a.body.code = b.body.code := congrArg Event.recordType h
  obtain ⟨_, _, body⟩ := a
  obtain ⟨_, _, body'⟩ := b
  rcases body with ⟨_, _, _⟩ | ⟨_, _, _⟩ | _ | ⟨_, _⟩ | ⟨_, _, _, _⟩ | ⟨_, _, _, _, _, _, _, _⟩ |
      ⟨⟨_, _, _, _, _, _, _, _⟩, _, _⟩ <;>
    rcases body' with ⟨_, _, _⟩ | ⟨_, _, _⟩ | _ | ⟨_, _⟩ | ⟨_, _, _, _⟩ | ⟨_, _, _, _, _, _, _, _⟩ |
      ⟨⟨_, _, _, _, _, _, _, _⟩, _, _⟩ <;>
    cases hcode
  all_goals
    simp [AuxEvent.event, AuxEvent.toValue, AuxBody.code, record_inj, Value.put_record, Value.putFields,
      nat_inj, optNat_inj, ScheduleDefinition.toValue_inj] at h
  · simp [h]
  · simp [h]
  · simp [h]
  · obtain ⟨rfl, rfl, hid, rfl⟩ := h
    obtain rfl := bigEndian_inj (ha _ (List.mem_singleton.mpr rfl)) (hb _ (List.mem_singleton.mpr rfl)) hid
    rfl
  · obtain ⟨hid, h⟩ := h
    obtain rfl := optHex_inj ha hb hid
    simp [h]
  · obtain ⟨hid, h⟩ := h
    obtain rfl := optHex_inj ha hb hid
    simp [h]
  · obtain ⟨hid, hids, h⟩ := h
    obtain rfl := optHex_inj (fun id h ↦ ha id (List.mem_append_left _ h))
      (fun id h ↦ hb id (List.mem_append_left _ h)) hid
    obtain rfl := hexList_inj (fun id h ↦ ha id (List.mem_append_right _ h))
      (fun id h ↦ hb id (List.mem_append_right _ h)) hids
    simp [h]

/-! ## What a record says -/

/-- The keys are in order. -/
def ascending : List String → Bool
  | [] => true
  | [_] => true
  | a :: b :: rest => (text a < text b : Bool) && ascending (b :: rest)

/-- A record is in order if its keys are, and its values. -/
theorem ordered_record (fields : List (String × Value)) : (Value.record fields).ordered =
    (ascending (fields.map Prod.fst) && fields.all fun f ↦ f.2.ordered) := by
  have htail : ∀ (fields : List (String × Value)) (key : String),
      Value.ordered.orderedMap (some (.str (text key))) (fields.map fun f ↦ (.str (text f.1), f.2)) =
        (ascending (key :: fields.map Prod.fst) && fields.all fun f ↦ f.2.ordered) := by
    intro fields
    induction fields with
    | nil => exact fun _ ↦ rfl
    | cons f rest ih =>
      intro key
      simp only [List.map_cons, Value.ordered.orderedMap, ih f.1, ascending, List.all_cons, Value.ascends]
      ac_rfl
  rcases fields with _ | ⟨f, rest⟩
  · rfl
  · show (true && f.2.ordered && Value.ordered.orderedMap (some (.str (text f.1)))
      (rest.map fun f ↦ (.str (text f.1), f.2))) = _
    rw [htail, List.map_cons, List.all_cons, Bool.true_and]
    ac_rfl

@[simp] theorem ordered_nat (n : ℕ) : (Value.nat n).ordered = true := rfl

@[simp] theorem ordered_optNat (o : Option ℕ) : (Value.opt .nat o).ordered = true := by
  cases o <;> rfl

@[simp] theorem ordered_diagnostic (o : Option V2.Diagnostic) :
    (Value.opt V2.Diagnostic.toValue o).ordered = true := by
  rcases o with _ | d
  · rfl
  · rw [Value.opt, Diagnostic.toValue, ordered_record]
    simp +decide

theorem MutationBody.ordered_toValue (body : MutationBody)
    (h : ∀ d n order, body = .inserted d n order → d.toValue.ordered = true) :
    body.toValue.ordered = true := by
  cases body <;> rw [MutationBody.toValue, ordered_record] <;> simp_all +decide

/-- If the terms of an event are in order, so are those of the mutation it becomes. -/
theorem ordered_translate {e : JobEvent} {previous : Option Job} {nextOrder : ℕ} {body : MutationBody}
    (h : Mutation.translate e previous nextOrder = .ok body) (he : e.toValue.ordered = true) :
    body.toValue.ordered = true := by
  refine body.ordered_toValue fun d n order hbody ↦ ?_
  subst hbody
  obtain ⟨id, revision, timestamp, event⟩ := e
  rcases event with ⟨definition, eligibleAt⟩ | _ | _ | _ | _ | _
  · obtain ⟨rfl, -, -⟩ := MutationBody.inserted.inj (Except.ok.inj h)
    rw [JobEvent.toValue, ordered_record] at he
    simp_all
  · cases h
  · rcases previous with _ | p <;> cases h
  · cases h
  · cases h
  · cases h

/-- The record behind the base segments that says this. -/
inductive Decodes (limits : Value.Limits) (r : Physical.Record) : Record → Prop
  | mutation {m : Mutation} : r.recordType = 8 → r.payloadSchemaVersion = 1 → m.jobId < 2 ^ 128 →
      MutationMap.decode r.payload limits = .ok m.toMap → Decodes limits r ⟨r.sequence, .mutation m⟩
  | auxiliary {e : AuxEvent} : r.payloadSchemaVersion = 2 → (∀ id ∈ e.body.ids, id < 2 ^ 128) →
      Event.decodePayload r.recordType 2 r.payload limits = .ok (e.event, r.payload.length) →
      Decodes limits r ⟨r.sequence, .auxiliary e⟩

section Decodes

variable {limits : Value.Limits} {r : Physical.Record} {a b : Record}

/-- A record says one thing. -/
theorem Decodes.unique (ha : Decodes limits r a) (hb : Decodes limits r b) : a = b := by
  rcases ha with ⟨-, hschema, hid, hdecode⟩ | ⟨hschema, hids, hdecode⟩ <;>
    rcases hb with ⟨-, hschema', hid', hdecode'⟩ | ⟨hschema', hids', hdecode'⟩
  · rw [Mutation.toMap_inj hid hid' (Except.ok.inj (hdecode.symm.trans hdecode'))]
  · omega
  · omega
  · rw [AuxEvent.event_inj hids hids' (Prod.mk.inj (Except.ok.inj (hdecode.symm.trans hdecode'))).1]

theorem decodes_unique : ∀ {records : List Physical.Record} {a b : List Record},
    List.Forall₂ (Decodes limits) records a → List.Forall₂ (Decodes limits) records b → a = b := by
  intro records
  induction records with
  | nil =>
    intro a b ha hb
    cases ha
    cases hb
    rfl
  | cons r rest ih =>
    intro a b ha hb
    obtain ⟨x, a, hx, hra, rfl⟩ := List.forall₂_cons_left_iff.mp ha
    obtain ⟨y, b, hy, hrb, rfl⟩ := List.forall₂_cons_left_iff.mp hb
    rw [hx.unique hy, ih hra hrb]

/-- The type and the schema of a record, and its bytes. -/
def Payload.kind : Payload → ℕ × ℕ
  | .snapshot _ => (7, 1)
  | .mutation _ => (8, 1)
  | .auxiliary e => (e.body.code, 2)

def Payload.wire : Payload → Binary
  | .snapshot job => Codec.snapshotPayload job
  | .mutation m => Codec.mutationPayload m
  | .auxiliary e => e.toValue.wire

/-- What the record of a commit is written with. -/
def Payload.record (p : Payload) (sequence : ℕ) : Physical.Record where
  recordType := p.kind.1
  payloadSchemaVersion := p.kind.2
  sequence := sequence
  payload := p.wire

theorem decodes_mutation {m : Mutation} {payload : Binary} (h : Codec.encodeMutation m limits = .ok payload)
    (hordered : m.body.toValue.ordered = true) (sequence : ℕ) :
    Decodes limits ((Payload.mutation m).record sequence) ⟨sequence, .mutation m⟩ := by
  have hid : m.jobId < 2 ^ 128 := by
    obtain ⟨_, hm, -⟩ := bind_eq_ok.mp h
    obtain ⟨hid, -⟩ := check_bind_eq_ok.mp hm
    simp only [V2.id?, Bool.and_eq_true, decide_eq_true_eq] at hid
    exact hid.2
  have hpayload : payload = Codec.mutationPayload m := by
    simp only [Codec.encodeMutation, bind_eq_ok, pure_eq_ok] at h
    obtain ⟨-, -, -, -, -, -, h⟩ := h
    exact (Except.ok.inj h).symm
  have hencode : m.toMap.encode limits = .ok (Codec.mutationPayload m) := by
    rw [encodeMutation_toMap m hid, h, hpayload]
  exact .mutation rfl rfl hid (MutationMap.decode_eq_ok.mpr ⟨hordered, hencode⟩)

/-- The ids of a valid event are ids. -/
theorem ids_of_validateAux {e : AuxEvent} (h : validateAux e = true) :
    ∀ id ∈ e.body.ids, id < 2 ^ 128 := by
  have hlt : ∀ {id : ℕ}, V2.id? id = true → id < 2 ^ 128 := fun hid ↦ by
    simp only [V2.id?, Bool.and_eq_true, decide_eq_true_eq] at hid
    exact hid.2
  obtain ⟨revision, timestamp, body⟩ := e
  simp only [validateAux, Bool.and_eq_true] at h
  obtain ⟨⟨⟨-, hidentity⟩, -⟩, hfields⟩ := h
  intro id hid
  rcases body with _ | _ | _ | ⟨jobId, result⟩ | ⟨scheduleId, active, dueAt, nextAt⟩ | c |
    ⟨c, members, complete⟩
  · cases hid
  · cases hid
  · cases hid
  · obtain rfl := List.mem_singleton.mp hid
    exact hlt hidentity
  · simp only [auxFields?, Bool.and_eq_true] at hfields
    exact hlt ((Option.all_eq_true _ _).mp hfields.2 id (Option.mem_toList.mp hid))
  · simp only [auxFields?, checkpoint?, Bool.and_eq_true] at hfields
    exact hlt ((Option.all_eq_true _ _).mp hfields.2 id (Option.mem_toList.mp hid))
  · simp only [auxFields?, checkpoint?, Bool.and_eq_true] at hfields
    rcases List.mem_append.mp hid with hid | hid
    · exact hlt ((Option.all_eq_true _ _).mp hfields.1.1.2 id (Option.mem_toList.mp hid))
    · exact hlt (List.all_eq_true.mp hfields.2 id hid)

theorem ordered_event {e : AuxEvent} (h : e.toValue.ordered = true) : e.event.data.ordered = true := by
  unfold AuxEvent.event
  dsimp only
  split
  · exact Value.ordered_put h rfl
  · exact h

/-- The bytes of an event are decoded into its terms. -/
theorem decodePayload_event {e : AuxEvent} {max : ℕ} (hids : ∀ id ∈ e.body.ids, id < 2 ^ 128)
    (hvalid : validateAux e = true) (hordered : e.toValue.ordered = true)
    (h : e.toValue.encode limits max = .ok e.toValue.wire) :
    Event.decodePayload e.body.code 2 e.toValue.wire limits = .ok (e.event, e.toValue.wire.length) := by
  have hcapability : Event.capability e.body.code 2 = .ok () := by
    cases e.body <;> rfl
  have hmap : isMap e.event.data = true := by
    rw [AuxEvent.event, AuxEvent.toValue.eq_def]
    cases e.body <;> rfl
  have hwritable : e.toValue.writable = true := (Value.encode_eq_ok.mp h).1.2.2.1
  obtain ⟨-, hidentity⟩ := Event.encodeIdentity_eq_ok (encodeIdentity_auxEvent e) hwritable
    (ordered_event hordered) hmap
  have hvalidate : Event.validate e.body.code 2 e.event.data = .ok () := by
    rw [validate_auxEvent e hids, hvalid]
    rfl
  unfold Event.decodePayload
  rw [hcapability, ok_bind, Value.decode_encode hordered h, ok_bind, hidentity, ok_bind, hvalidate, ok_bind]
  rfl

theorem decodes_auxiliary {e : AuxEvent} {max : ℕ} {payload : Binary} (h : e.encode limits max = .ok payload)
    (hordered : e.toValue.ordered = true) (sequence : ℕ) :
    Decodes limits ((Payload.auxiliary e).record sequence) ⟨sequence, .auxiliary e⟩ := by
  obtain ⟨_, -, hencode⟩ := bind_eq_ok.mp h
  obtain ⟨hvalid, hencode⟩ := check_bind_eq_ok.mp hencode
  have hids := ids_of_validateAux hvalid
  obtain ⟨hroom, -⟩ := Value.encode_eq_ok.mp hencode
  have hwire : e.toValue.encode limits max = .ok e.toValue.wire := Value.encode_eq_ok.mpr ⟨hroom, rfl⟩
  exact .auxiliary rfl hids (decodePayload_event hids hvalid hordered hwire)

end Decodes

end Tay
