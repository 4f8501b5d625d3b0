import Mathlib.Data.List.Sort
import Tay.Event.Payload

/-!
# The events that pass

The structures of `Tay.Event.V2` say which events there are, and `Tay.Event.Payload` how the program
checks the map that one of them is. They agree: the map of a structure is validated exactly if the
structure is, and encoded to the same bytes. A job id is a number of sixteen bytes, and its printed
form is thirty-two digits in the same order.
-/

open Foundation

namespace Tay

/-! ## Records -/

theorem text_injective {a b : String} (h : text a = text b) : a = b := by
  have hdata : a.toByteArray.data = b.toByteArray.data := Array.toList_inj.mp h
  exact String.toByteArray_inj.mp (ByteArray.ext hdata)

theorem Value.fetch_record (key : String) (fields : List (String × Value)) :
    (Value.record fields).fetch key = fields.lookup key := by
  induction fields with
  | nil => rfl
  | cons f rest ih =>
    obtain ⟨name, value⟩ := f
    have hrest : findEntries (.str (text key)) (rest.map fun f ↦ (.str (text f.1), f.2)) =
        rest.lookup key := ih
    by_cases hk : key = name
    · subst hk
      simp [record, fetch, findEntries]
    · have hne : text name ≠ text key := fun h ↦ hk (text_injective h).symm
      simp [record, fetch, findEntries, List.lookup_cons, hne, beq_false_of_ne hk, hrest]

/-- The field of a record. -/
theorem Value.get_record (key : String) (fields : List (String × Value)) :
    (Value.record fields).get key = (fields.lookup key).getD .null := by
  rw [get, fetch_record]

theorem Value.exact_record (keys : List String) (fields : List (String × Value)) :
    (Value.record fields).exactly? keys = (fields.map Prod.fst == keys) := by
  have hinjective : Function.Injective fun key : String ↦ Value.str (text key) := by
    intro a b h
    exact text_injective (Value.str.inj h)
  have hmap : (fields.map fun f ↦ (Value.str (text f.1), f.2)).map Prod.fst =
      (fields.map Prod.fst).map fun key ↦ Value.str (text key) := by
    rw [List.map_map, List.map_map]
    rfl
  rw [record, exactly?, hmap, Bool.eq_iff_iff, beq_iff_eq, beq_iff_eq]
  exact (List.map_injective_iff.mpr hinjective).eq_iff

namespace Event

@[simp] theorem time_nat (n : ℕ) : time? (.nat n) = V2.time? n := rfl

@[simp] theorem sequence_nat (n : ℕ) : sequence? (.nat n) = V2.sequence? n := rfl

@[simp] theorem attempt_nat (n : ℕ) : attempt? (.nat n) = V2.attempt? n := rfl

@[simp] theorem natural_nat (test : ℕ → Bool) (n : ℕ) : natural? test (.nat n) = test n := rfl

theorem compare_nat (test : ℤ → ℤ → Bool) (m n : ℕ) :
    compare? test (.nat m) (.nat n) = test m n := rfl

@[simp] theorem compare_lt_nat (m n : ℕ) :
    compare? (fun a b ↦ a < b) (.nat m) (.nat n) = decide (m < n) :=
  decide_eq_decide.mpr Int.ofNat_lt

@[simp] theorem compare_le_nat (m n : ℕ) :
    compare? (fun a b ↦ a ≤ b) (.nat m) (.nat n) = decide (m ≤ n) :=
  decide_eq_decide.mpr Int.ofNat_le

@[simp] theorem key_str (s : Binary) : key? (.str s) = V2.key? s := rfl

@[simp] theorem identifier_str (s : Binary) : identifier? (.str s) = V2.identifier? s := rfl

@[simp] theorem nat_beq_nat (m n : ℕ) : (Value.nat m == Value.nat n) = (m == n) := by
  rw [Bool.eq_iff_iff, beq_iff_eq, beq_iff_eq, Value.nat, Value.nat, Value.int.injEq, Int.natCast_inj]

@[simp] theorem nat_beq_null (m : ℕ) : (Value.nat m == Value.null) = false := rfl

theorem optional_opt {α : Type} (test : Value → Bool) (f : α → Value) (o : Option α)
    (hf : ∀ a, f a ≠ .null) : optional? test (.opt f o) = o.all fun a ↦ test (f a) := by
  cases o with
  | none => rfl
  | some a => simp [optional?, Value.opt, hf a]

@[simp] theorem optional_time (o : Option ℕ) : optional? time? (.opt .nat o) = o.all V2.time? :=
  optional_opt time? .nat o fun _ h ↦ by cases h

@[simp] theorem optional_sequence (o : Option ℕ) :
    optional? sequence? (.opt .nat o) = o.all V2.sequence? :=
  optional_opt sequence? .nat o fun _ h ↦ by cases h

@[simp] theorem natural_opt (test : ℕ → Bool) (o : Option ℕ) :
    natural? test (.opt .nat o) = o.any test := by
  cases o <;> rfl

@[simp] theorem time_opt (o : Option ℕ) : time? (.opt .nat o) = o.any V2.time? := natural_opt _ o

@[simp] theorem sequence_opt (o : Option ℕ) : sequence? (.opt .nat o) = o.any V2.sequence? :=
  natural_opt _ o

@[simp] theorem attempt_opt (o : Option ℕ) : attempt? (.opt .nat o) = o.any V2.attempt? :=
  natural_opt _ o

@[simp] theorem opt_beq_null (o : Option ℕ) : (Value.opt .nat o == .null) = o.isNone := by
  cases o <;> rfl

theorem policy_beq (p q : V2.RetryPolicy) : (p.toValue == q.toValue) = (p == q) := by
  rw [Bool.eq_iff_iff, beq_iff_eq, beq_iff_eq]
  constructor
  · intro h
    simp only [V2.RetryPolicy.toValue, Value.record, List.map_cons, List.map_nil, Value.map.injEq,
      List.cons.injEq, Prod.mk.injEq, true_and, and_true, Value.nat, Value.int.injEq,
      Int.natCast_inj] at h
    obtain ⟨h1, h2, h3, h4⟩ := h
    cases p
    cases q
    simp_all
  · rintro rfl
    rfl

theorem fields_membership (d : Value) : fields? 13 d =
    (checkpoint? d && boolean? (d.get "membership_complete") && sortedIds? (d.get "active_job_ids")) :=
  rfl

theorem definition_toValue (d : V2.Definition) : definition? d.toValue = V2.definition? d := by
  simp [definition?, V2.Definition.toValue, V2.definition?, Value.get_record, Value.exact_record,
    List.lookup_cons, policy_beq, Bool.and_assoc]

end Event

/-- Replace a field. -/
def Value.putFields (key : String) (value : Value) : List (String × Value) → List (String × Value)
  | [] => []
  | f :: rest => if f.1 = key then (key, value) :: rest else f :: putFields key value rest

theorem Value.put_record (key : String) (value : Value) (fields : List (String × Value)) :
    (Value.record fields).put key value = .record (putFields key value fields) := by
  have hentries : ∀ fields : List (String × Value),
      putEntries (.str (text key)) value (fields.map fun f ↦ (.str (text f.1), f.2)) =
        (putFields key value fields).map fun f ↦ (.str (text f.1), f.2) := by
    intro fields
    induction fields with
    | nil => rfl
    | cons f rest ih =>
      by_cases hk : f.1 = key
      · simp [putEntries, putFields, hk]
      · have hne : text f.1 ≠ text key := fun h ↦ hk (text_injective h)
        simp [putEntries, putFields, hk, hne, ih]
  exact congrArg Value.map (hentries fields)

namespace V2

/-- An event as the program passes it around. -/
def JobEvent.event (e : JobEvent) : Event :=
  ⟨e.body.code, 1, e.toValue.put "job_id" (.str (Value.bigEndian 16 e.jobId))⟩

theorem id_bigEndian {id : ℕ} (h : id < 2 ^ 128) :
    Event.id? (.str (Value.bigEndian 16 id)) = id? id := by
  have hzero : Value.bigEndian 16 id = List.replicate 16 0 ↔ id = 0 := by
    have hzeros : List.replicate 16 0 = Value.bigEndian 16 0 := by decide
    constructor
    · intro heq
      have hback := congrArg Value.ofBigEndian (heq.trans hzeros)
      rw [Value.ofBigEndian_bigEndian, Value.ofBigEndian_bigEndian] at hback
      omega
    · rintro rfl
      exact hzeros.symm
  rw [Bool.eq_iff_iff]
  simp only [Event.id?, Event.string?, id?, Value.bigEndian_length, beq_self_eq_true, Bool.true_and,
    bne_iff_ne, ne_eq, hzero, Bool.and_eq_true, decide_eq_true_eq]
  exact ⟨fun hne ↦ ⟨Nat.pos_of_ne_zero hne, h⟩, fun hpos ↦ Nat.ne_of_gt hpos.1⟩

theorem finish_toValue (outcome disposition : ℕ) (diagnostic : Option Diagnostic) :
    Event.finish? (.nat outcome) (.nat disposition) (.opt Diagnostic.toValue diagnostic) =
      finish? outcome disposition diagnostic := by
  cases diagnostic with
  | none => simp [Event.finish?, finish?, Value.opt, Event.diagnostic?, Value.exactly?]
  | some d =>
    have hnull : (d.toValue == .null) = false := rfl
    have hdiagnostic (codes : List ℕ) :
        Event.diagnostic? codes d.toValue = (codes.contains d.code && d.version == 1) := by
      simp [Event.diagnostic?, Value.exact_record, Value.get_record, Diagnostic.toValue, List.lookup_cons]
    simp only [Event.finish?, finish?, Value.opt, hdiagnostic, hnull, Event.nat_beq_nat,
      Event.natural_nat, Bool.and_false, Bool.false_or]
    -- Only a diagnostic of version 1 has a code to speak of.
    cases d.version == 1 with
    | false => simp only [Bool.and_false, Bool.or_false, Bool.false_and]
    | true =>
      simp only [Bool.and_true, Bool.true_and, List.contains_cons, List.contains_nil, Bool.or_false]

theorem encodeIdentity_jobEvent (e : JobEvent) :
    Event.encodeIdentity e.body.code e.event.data = .ok e.toValue := by
  obtain ⟨id, revision, timestamp, body⟩ := e
  cases body <;>
    simp [Event.encodeIdentity, Event.binaryIdentityField, Event.spec, JobBody.code, JobEvent.event,
      JobEvent.toValue, Value.put_record, Value.putFields, Value.fetch_record, List.lookup_cons,
      Event.carrier, idValue]

/-- When a job is eligible, as the map says it. -/
theorem eligible_toValue (definition : Definition) (eligibleAt timestamp : ℕ) :
    (Value.nat eligibleAt == if definition.toValue.get "scheduled_at" == .null then .nat timestamp
      else definition.toValue.get "scheduled_at") =
      (eligibleAt == definition.scheduledAt.getD timestamp) := by
  have hget : definition.toValue.get "scheduled_at" = .opt .nat definition.scheduledAt := by
    simp [Definition.toValue, Value.get_record, List.lookup_cons]
  rw [hget]
  cases definition.scheduledAt with
  | none => exact Event.nat_beq_nat _ _
  | some t => exact Event.nat_beq_nat _ _

/-- The map of a job event is validated exactly if the event is. -/
theorem validate_jobEvent (e : JobEvent) (h : e.jobId < 2 ^ 128) :
    Event.validate e.body.code 1 e.event.data = check (validateJob e) .invalidEvent := by
  obtain ⟨id, revision, timestamp, body⟩ := e
  cases body
  all_goals
    simp [Event.validate, Event.spec, JobBody.code, JobEvent.event, JobEvent.toValue, Value.put_record,
      Value.putFields, Value.get_record, Value.exact_record, List.lookup_cons, Event.identity?,
      id_bigEndian h, Event.revision?, Event.fields?, validateJob, jobRevision?, jobFields?,
      Event.definition_toValue, finish_toValue, eligible_toValue, -beq_iff_eq]

/-- An event whose map is validated as its structure is. -/
theorem encode_of_validate {event : Event} {type schema : ℕ} {wire : Value} {valid : Bool}
    {limits : Value.Limits} {max : ℕ} (hevent : event = ⟨type, schema, event.data⟩)
    (hcapability : Event.capability type schema = .ok ()) (hmap : isMap event.data = true)
    (hidentity : Event.encodeIdentity type event.data = .ok wire)
    (hvalid : Event.validate type schema event.data = check valid .invalidEvent) :
    Event.encode event limits max = (fun payload ↦ (type, schema, payload)) <$> (do
      let _ ← wire.measure limits max
      check valid .invalidEvent
      wire.encode limits max) := by
  rw [hevent, Event.encode]
  dsimp only
  rw [hcapability, ok_bind, hmap, check_true, ok_bind, hidentity, ok_bind]
  cases wire.measure limits max with
  | error reason => rfl
  | ok m =>
    rw [ok_bind, ok_bind, hvalid]
    cases valid with
    | false => rfl
    | true =>
      rw [check_true, ok_bind, ok_bind]
      cases wire.encode limits max <;> rfl

/-- A job event and its map are encoded to the same bytes. -/
theorem encode_jobEvent (e : JobEvent) (h : e.jobId < 2 ^ 128) (limits : Value.Limits) (max : ℕ) :
    Event.encode e.event limits max =
      (fun payload ↦ (e.body.code, 1, payload)) <$> e.encode limits max := by
  have hcapability : Event.capability e.body.code 1 = .ok () := by
    cases e.body <;> rfl
  have hmap : isMap e.event.data = true := by
    have hvalue : isMap e.toValue = true := by
      rw [JobEvent.toValue.eq_def]
      cases e.body <;> rfl
    exact Value.isMap_put.trans hvalue
  exact encode_of_validate rfl hcapability hmap (encodeIdentity_jobEvent e) (validate_jobEvent e h)

/-! ## Printed ids -/

/-- Strings of one length compare as the numbers they are. -/
theorem ofBigEndian_lt_iff : ∀ {a b : Binary}, a.length = b.length →
    (a < b ↔ Value.ofBigEndian a < Value.ofBigEndian b) := by
  intro a
  induction a with
  | nil =>
    intro b hlength
    rw [List.length_eq_zero_iff.mp hlength.symm]
    exact ⟨fun h ↦ absurd h (List.lt_irrefl []), fun h ↦ absurd h (Nat.lt_irrefl _)⟩
  | cons x a ih =>
    intro b hlength
    cases b with
    | nil => cases hlength
    | cons y b =>
      have hrest : a.length = b.length := Nat.succ.inj hlength
      have hlta := Value.ofBigEndian_lt a
      have hltb := Value.ofBigEndian_lt b
      rw [← hrest] at hltb
      rw [List.cons_lt_cons_iff, ih hrest, Value.ofBigEndian_cons, Value.ofBigEndian_cons, ← hrest,
        UInt8.lt_iff_toNat_lt, ← UInt8.toNat_inj]
      constructor
      · rintro (hxy | ⟨hxy, hab⟩)
        · have hstep : (x.toNat + 1) * 256 ^ a.length ≤ y.toNat * 256 ^ a.length :=
            Nat.mul_le_mul_right _ hxy
          rw [Nat.add_mul, Nat.one_mul] at hstep
          omega
        · rw [hxy]
          omega
      · intro h
        obtain hxy | hxy | hxy := Nat.lt_trichotomy x.toNat y.toNat
        · exact .inl hxy
        · rw [hxy] at h
          exact .inr ⟨hxy, by omega⟩
        · have hstep : (y.toNat + 1) * 256 ^ a.length ≤ x.toNat * 256 ^ a.length :=
            Nat.mul_le_mul_right _ hxy
          rw [Nat.add_mul, Nat.one_mul] at hstep
          omega

theorem toNat_digit {n : UInt8} (h : n.toNat < 16) :
    (hexId.digit n).toNat = if n.toNat < 10 then 48 + n.toNat else 87 + n.toNat := by
  have hten : n < 10 ↔ n.toNat < 10 := UInt8.lt_iff_toNat_lt
  rw [hexId.digit]
  by_cases hn : n.toNat < 10
  · rw [if_pos (hten.mpr hn), if_pos hn, UInt8.toNat_add]
    exact Nat.mod_eq_of_lt (show 48 + n.toNat < 256 by omega)
  · rw [if_neg fun h ↦ hn (hten.mp h), if_neg hn, UInt8.toNat_add]
    exact Nat.mod_eq_of_lt (show 87 + n.toNat < 256 by omega)

theorem toNat_div (b : UInt8) : (b / 16).toNat = b.toNat / 16 := UInt8.toNat_div b 16

theorem toNat_mod (b : UInt8) : (b % 16).toNat = b.toNat % 16 := UInt8.toNat_mod b 16

/-- The two digits of a byte. -/
def digits (b : UInt8) : Binary := [hexId.digit (b / 16), hexId.digit (b % 16)]

theorem digits_lt {a b : UInt8} (h : a < b) (l l' : Binary) : digits a ++ l < digits b ++ l' := by
  have hlt : a.toNat < b.toNat := UInt8.lt_iff_toNat_lt.mp h
  have hbounds := b.toNat_lt
  have ha := toNat_digit (n := a / 16) (by rw [toNat_div]; omega)
  have hb := toNat_digit (n := b / 16) (by rw [toNat_div]; omega)
  have ha' := toNat_digit (n := a % 16) (by rw [toNat_mod]; omega)
  have hb' := toNat_digit (n := b % 16) (by rw [toNat_mod]; omega)
  rw [toNat_div] at ha hb
  rw [toNat_mod] at ha' hb'
  rw [digits, digits, List.cons_append, List.cons_append, List.cons_append, List.cons_append,
    List.cons_lt_cons_iff, List.cons_lt_cons_iff, UInt8.lt_iff_toNat_lt, UInt8.lt_iff_toNat_lt,
    ← UInt8.toNat_inj, ha, hb, ha', hb']
  by_cases hsame : a.toNat / 16 = b.toNat / 16
  · right
    rw [hsame]
    refine ⟨rfl, .inl ?_⟩
    split <;> split <;> omega
  · left
    split <;> split <;> omega

theorem flatMap_digits_lt : ∀ {a b : Binary}, a.length = b.length → a < b →
    a.flatMap digits < b.flatMap digits := by
  intro a
  induction a with
  | nil =>
    intro b hlength h
    rw [List.length_eq_zero_iff.mp hlength.symm] at h
    exact absurd h (List.lt_irrefl [])
  | cons x a ih =>
    intro b hlength h
    cases b with
    | nil => cases hlength
    | cons y b =>
      rw [List.flatMap_cons, List.flatMap_cons]
      obtain hxy | ⟨rfl, hab⟩ := List.cons_lt_cons_iff.mp h
      · exact digits_lt hxy _ _
      · have hrest := ih (Nat.succ.inj hlength) hab
        exact List.cons_lt_cons_iff.mpr (.inr ⟨rfl, List.cons_lt_cons_iff.mpr (.inr ⟨rfl, hrest⟩)⟩)

theorem hexId_lt {a b : ℕ} (hb : b < 2 ^ 128) (h : a < b) : hexId a < hexId b := by
  have hlength : (Value.bigEndian 16 a).length = (Value.bigEndian 16 b).length := by
    rw [Value.bigEndian_length, Value.bigEndian_length]
  refine flatMap_digits_lt hlength ((ofBigEndian_lt_iff hlength).mpr ?_)
  rw [Value.ofBigEndian_bigEndian, Value.ofBigEndian_bigEndian]
  omega

theorem hexId_injective {a b : ℕ} (ha : a < 2 ^ 128) (hb : b < 2 ^ 128) (h : hexId a = hexId b) :
    a = b := by
  obtain hlt | heq | hlt := Nat.lt_trichotomy a b
  · have hless := hexId_lt hb hlt
    rw [h] at hless
    exact absurd hless (List.lt_irrefl _)
  · exact heq
  · have hless := hexId_lt ha hlt
    rw [h] at hless
    exact absurd hless (List.lt_irrefl _)

theorem hexId_le_iff {a b : ℕ} (ha : a < 2 ^ 128) (hb : b < 2 ^ 128) : hexId a ≤ hexId b ↔ a ≤ b := by
  constructor
  · intro h
    by_contra hlt
    exact absurd (hexId_lt ha (Nat.lt_of_not_le hlt)) (List.not_lt.mpr h)
  · intro h
    obtain rfl | hlt := Nat.eq_or_lt_of_le h
    · exact List.le_refl _
    · exact List.le_of_lt (hexId_lt hb hlt)

theorem hexId_length (id : ℕ) : (hexId id).length = 32 := rfl

theorem hexDigit_digit {n : UInt8} (h : n.toNat < 16) : Event.hexDigit? (hexId.digit n) = true := by
  have hdigit := toNat_digit h
  have hle (a b : UInt8) : a ≤ b ↔ a.toNat ≤ b.toNat := UInt8.le_iff_toNat_le
  simp only [Event.hexDigit?, Bool.or_eq_true, Bool.and_eq_true, decide_eq_true_eq, hle, hdigit]
  by_cases hn : n.toNat < 10
  · left
    rw [if_pos hn]
    exact ⟨by simp, by simp; omega⟩
  · right
    rw [if_neg hn]
    exact ⟨by simp; omega, by simp; omega⟩

theorem hexId_all (id : ℕ) : (hexId id).all Event.hexDigit? = true := by
  rw [List.all_eq_true]
  intro c hc
  obtain ⟨b, -, hb⟩ := List.mem_flatMap.mp hc
  have hbound := b.toNat_lt
  simp only [List.mem_cons, List.not_mem_nil, or_false] at hb
  obtain rfl | rfl := hb
  · exact hexDigit_digit (by rw [toNat_div]; omega)
  · exact hexDigit_digit (by rw [toNat_mod]; omega)

/-- The printed form of an id is one that is read back. -/
theorem jobId_hexId {id : ℕ} (h : id < 2 ^ 128) : Event.jobId? (.str (hexId id)) = id? id := by
  have hzeros : List.replicate 32 48 = hexId 0 := by decide
  have hzero : hexId id = List.replicate 32 48 ↔ id = 0 := by
    rw [hzeros]
    exact ⟨hexId_injective h (by decide), fun heq ↦ by rw [heq]⟩
  rw [Bool.eq_iff_iff]
  simp only [Event.jobId?, Event.string?, id?, hexId_length, hexId_all, beq_self_eq_true,
    Bool.true_and, bne_iff_ne, ne_eq, hzero, Bool.and_eq_true, decide_eq_true_eq]
  exact ⟨fun hne ↦ ⟨Nat.pos_of_ne_zero hne, h⟩, fun hpos ↦ Nat.ne_of_gt hpos.1⟩

/-- A list that sorting and removing repeats leave as it is. -/
theorem eq_sort_dedup_iff {α : Type} [DecidableEq α] {r : α → α → Prop} [DecidableRel r]
    [Std.Total r] [IsTrans α r] {l : List α} :
    l = l.dedup.insertionSort r ↔ l.Pairwise fun a b ↦ r a b ∧ a ≠ b := by
  rw [List.pairwise_and_iff]
  constructor
  · intro h
    have hperm : l.Perm l.dedup := by
      have hsorted := List.perm_insertionSort r l.dedup
      rwa [← h] at hsorted
    have hpairwise := List.pairwise_insertionSort r l.dedup
    rw [← h] at hpairwise
    exact ⟨hpairwise, hperm.nodup_iff.mpr (List.nodup_dedup l)⟩
  · rintro ⟨hsorted, hnodup⟩
    rw [List.Nodup.dedup hnodup, List.Pairwise.insertionSort_eq hsorted]

theorem strings_hexValue (ids : List JobId) :
    Event.strings (.list (ids.map hexValue)) = some (ids.map hexId) := by
  induction ids with
  | nil => rfl
  | cons id ids ih =>
    have hrest : (ids.map hexValue).mapM Event.stringOf = some (ids.map hexId) := ih
    rw [List.map_cons, Event.strings, List.mapM_cons, hrest]
    rfl

instance : Std.Total fun a b : Binary ↦ a ≤ b := ⟨List.le_total⟩

instance : IsTrans Binary fun a b ↦ a ≤ b := ⟨fun _ _ _ ↦ List.le_trans⟩

theorem sortedIds_hexValue {ids : List ℕ} (h : ∀ id ∈ ids, id < 2 ^ 128) :
    Event.sortedIds? (.list (ids.map hexValue)) = (ids == sortUniq ids && ids.all id?) := by
  have hall : (ids.map hexId).all (fun s ↦ Event.jobId? (.str s)) = ids.all id? := by
    rw [List.all_map, Bool.eq_iff_iff, List.all_eq_true, List.all_eq_true]
    constructor
    · intro hids id hid
      rw [← jobId_hexId (h id hid)]
      exact hids id hid
    · intro hids id hid
      exact (jobId_hexId (h id hid)).trans (hids id hid)
  have hsorted : ids.map hexId = (ids.map hexId).dedup.insertionSort (· ≤ ·) ↔ ids = sortUniq ids := by
    rw [eq_sort_dedup_iff, sortUniq, eq_sort_dedup_iff, List.pairwise_map]
    constructor
    · intro hp
      refine hp.imp_of_mem ?_
      rintro a b ha hb ⟨hle, hne⟩
      exact ⟨(hexId_le_iff (h a ha) (h b hb)).mp hle, fun heq ↦ hne (by rw [heq])⟩
    · intro hp
      refine hp.imp_of_mem ?_
      rintro a b ha hb ⟨hle, hne⟩
      exact ⟨(hexId_le_iff (h a ha) (h b hb)).mpr hle, fun heq ↦ hne (hexId_injective (h a ha) (h b hb) heq)⟩
  rw [Event.sortedIds?, strings_hexValue]
  simp only [hall]
  congr 1
  rw [Bool.eq_iff_iff, beq_iff_eq, beq_iff_eq]
  exact hsorted

/-! ## Auxiliary events -/

theorem scheduleDefinition_toValue (d : ScheduleDefinition) :
    Event.scheduleDefinition? d.toValue = scheduleDefinition? d := by
  have hkind : [Value.str (text "cron"), .str (text "every")].contains d.trigger.kind = true := by
    cases d.trigger with
    | cron e => exact (by decide : [Value.str (text "cron"), .str (text "every")].contains
        (.str (text "cron")) = true)
    | every n => exact (by decide : [Value.str (text "cron"), .str (text "every")].contains
        (.str (text "every")) = true)
  have hoverlap : [Value.str (text "allow"), .str (text "skip"), .str (text "queue")].contains
      d.overlap.toValue = true := by
    cases d.overlap <;> decide
  have hcatch : [Value.str (text "latest"), .str (text "all")].contains d.catchUp.toValue = true := by
    cases d.catchUp <;> decide
  have hexpression : Event.scheduleExpression? d.trigger.kind d.trigger.expression =
      scheduleExpression? d.trigger := by
    cases d.trigger with
    | cron e => rfl
    | every n =>
      have hne : (Value.str (text "every") == Value.str (text "cron")) = false := by decide
      simp only [Event.scheduleExpression?, Trigger.kind, hne, beq_self_eq_true, Trigger.expression,
        scheduleExpression?, Bool.false_eq_true, if_false, if_true, Event.natural_nat]
  have htimezone : Event.optional? Event.identifier? (.opt .str d.timezone) =
      d.timezone.all identifier? :=
    Event.optional_opt Event.identifier? .str d.timezone fun _ h ↦ by cases h
  have hexact : d.toValue.exactly? ["args", "catch_up", "expression", "kind", "options", "overlap",
      "task", "timezone"] = true := by
    simp [ScheduleDefinition.toValue, Value.exact_record]
  have hget (key : String) : d.toValue.get key =
      (([("args", d.args), ("catch_up", d.catchUp.toValue), ("expression", d.trigger.expression),
        ("kind", d.trigger.kind), ("options", d.options), ("overlap", d.overlap.toValue),
        ("task", .str d.task), ("timezone", .opt .str d.timezone)] : List (String × Value)).lookup
          key).getD .null := Value.get_record key _
  have hargs : d.toValue.get "args" = d.args := by simp [hget, List.lookup_cons]
  have hcatchUp : d.toValue.get "catch_up" = d.catchUp.toValue := by simp [hget, List.lookup_cons]
  have hexpr : d.toValue.get "expression" = d.trigger.expression := by simp [hget, List.lookup_cons]
  have hkindOf : d.toValue.get "kind" = d.trigger.kind := by simp [hget, List.lookup_cons]
  have hoptions : d.toValue.get "options" = d.options := by simp [hget, List.lookup_cons]
  have hover : d.toValue.get "overlap" = d.overlap.toValue := by simp [hget, List.lookup_cons]
  have htask : d.toValue.get "task" = .str d.task := by simp [hget, List.lookup_cons]
  have hzone : d.toValue.get "timezone" = .opt .str d.timezone := by simp [hget, List.lookup_cons]
  simp only [Event.scheduleDefinition?, scheduleDefinition?, hexact, hargs, hcatchUp, hexpr, hkindOf,
    hoptions, hover, htask, hzone, hkind, hoverlap, hcatch, hexpression, htimezone, Event.key_str,
    Bool.true_and, Bool.and_true]

/-- The ids a payload carries. -/
def AuxBody.ids : AuxBody → List ℕ
  | .resultRecorded jobId _ => [jobId]
  | .scheduleDelivered _ activeJobId _ _ => activeJobId.toList
  | .scheduleCheckpoint c => c.activeJobId.toList
  | .scheduleMembership c activeJobIds _ => c.activeJobId.toList ++ activeJobIds
  | _ => []

/-- An auxiliary event as the program passes it around. -/
def AuxEvent.event (e : AuxEvent) : Event :=
  ⟨e.body.code, 2, match e.body with
    | .resultRecorded jobId _ => e.toValue.put "job_id" (.str (Value.bigEndian 16 jobId))
    | _ => e.toValue⟩

theorem encodeIdentity_auxEvent (e : AuxEvent) :
    Event.encodeIdentity e.body.code e.event.data = .ok e.toValue := by
  obtain ⟨revision, timestamp, body⟩ := e
  cases body <;>
    simp [Event.encodeIdentity, Event.binaryIdentityField, Event.spec, AuxBody.code, AuxEvent.event,
      AuxEvent.toValue, Value.put_record, Value.putFields, Value.fetch_record, List.lookup_cons,
      Event.carrier, idValue]

theorem optional_jobId {o : Option ℕ} (h : ∀ id ∈ o.toList, id < 2 ^ 128) :
    Event.optional? Event.jobId? (.opt hexValue o) = o.all id? := by
  rw [Event.optional_opt Event.jobId? hexValue o fun _ h ↦ by cases h]
  cases o with
  | none => rfl
  | some id => exact jobId_hexId (h id (by simp))

/-- A map with these keys that restates a schedule. -/
structure Restates (d : Value) (fields : List String) (timestamp expected : ℕ) (c : Checkpoint) :
    Prop where
  exact : d.exactly? fields = true
  timestamp : d.get "at" = .nat timestamp
  scheduleId : d.get "schedule_id" = .str c.scheduleId
  activeJobId : d.get "active_job_id" = .opt hexValue c.activeJobId
  cancelledAt : d.get "cancelled_at" = .opt .nat c.cancelledAt
  definition : d.get "definition" = c.definition.toValue
  expected : d.get "expected_revision" = .nat expected
  lastAt : d.get "last_at" = .opt .nat c.lastAt
  nextAt : d.get "next_at" = .nat c.nextAt
  registeredAt : d.get "registered_at" = .nat c.registeredAt
  revision : d.get "revision" = .nat c.revision

variable {d : Value} {fields : List String} {timestamp expected : ℕ} {c : Checkpoint}

theorem Restates.checkpoint (h : Restates d fields timestamp expected c)
    (hid : ∀ id ∈ c.activeJobId.toList, id < 2 ^ 128) :
    Event.checkpoint? d = checkpoint? expected c := by
  have hlast : Event.optional? (fun last ↦ Event.time? last &&
      Event.compare? (fun l next ↦ l < next) last (.nat c.nextAt)) (.opt .nat c.lastAt) =
        c.lastAt.all fun t ↦ time? t && t < c.nextAt := by
    rw [Event.optional_opt _ Value.nat c.lastAt fun _ h ↦ by cases h]
    simp only [Event.time_nat, Event.compare_lt_nat]
  have hrevision : ((c.revision : ℤ) == (expected : ℤ) + 1) = (c.revision == expected + 1) := by
    rw [Bool.eq_iff_iff, beq_iff_eq, beq_iff_eq]
    omega
  simp only [Event.checkpoint?, checkpoint?, h.activeJobId, h.cancelledAt, h.definition, h.expected,
    h.lastAt, h.nextAt, h.registeredAt, h.revision, hlast, hrevision, optional_jobId hid,
    scheduleDefinition_toValue, Event.time_nat, Event.sequence_nat, Event.nat_beq_nat,
    Event.compare_nat, Event.optional_time]

/-- Types 12 and 13 differ in their fields only. -/
theorem Restates.validate (h : Restates d fields timestamp expected c) (type : ℕ)
    (htype : Event.spec type = some ⟨2, "schedule_id", .string, .upsert, fields⟩) :
    Event.validate type 2 d = check (time? timestamp && identifier? c.scheduleId &&
      (expected == 0 || sequence? expected) && Event.fields? type d) .invalidEvent := by
  simp only [Event.validate, htype, beq_self_eq_true, Bool.true_and, h.exact, h.timestamp,
    Event.identity?, h.scheduleId, Event.revision?, h.expected, Event.time_nat, Event.identifier_str,
    Event.nat_beq_nat, Event.sequence_nat]

/-- The map of an auxiliary event is validated exactly if the event is. -/
theorem validate_auxEvent (e : AuxEvent) (h : ∀ id ∈ e.body.ids, id < 2 ^ 128) :
    Event.validate e.body.code 2 e.event.data = check (validateAux e) .invalidEvent := by
  obtain ⟨revision, timestamp, body⟩ := e
  cases body with
  | scheduleRegistered | scheduleAdvanced | scheduleCancelled =>
    simp [Event.validate, Event.spec, AuxBody.code, AuxEvent.event, AuxEvent.toValue,
      Value.get_record, Value.exact_record, List.lookup_cons, Event.identity?, Event.revision?,
      Event.fields?, validateAux, auxRevision?, auxFields?, auxIdentity?, Event.advanced?, advanced?,
      scheduleDefinition_toValue]
  | resultRecorded jobId result =>
    have hid : Event.id? (.str (Value.bigEndian 16 jobId)) = id? jobId :=
      id_bigEndian (h jobId (List.mem_singleton.mpr rfl))
    simp [Event.validate, Event.spec, AuxBody.code, AuxEvent.event, AuxEvent.toValue, Value.put_record,
      Value.putFields, Value.get_record, Value.exact_record, List.lookup_cons, Event.identity?,
      Event.revision?, Event.fields?, validateAux, auxRevision?, auxFields?, auxIdentity?, hid]
  | scheduleDelivered scheduleId activeJobId dueAt nextAt =>
    have hid : Event.optional? Event.jobId? (.opt hexValue activeJobId) = activeJobId.all id? :=
      optional_jobId h
    simp [Event.validate, Event.spec, AuxBody.code, AuxEvent.event, AuxEvent.toValue,
      Value.get_record, Value.exact_record, List.lookup_cons, Event.identity?, Event.revision?,
      Event.fields?, validateAux, auxRevision?, auxFields?, auxIdentity?, Event.advanced?, advanced?,
      hid]
  | scheduleCheckpoint c =>
    have hrestates : Restates (AuxEvent.event ⟨revision, timestamp, .scheduleCheckpoint c⟩).data
        ["active_job_id", "at", "cancelled_at", "definition", "expected_revision", "last_at", "next_at",
          "registered_at", "revision", "schedule_id"] timestamp revision c := by
      constructor <;>
        simp [AuxEvent.event, AuxEvent.toValue, Value.get_record, Value.exact_record, List.lookup_cons]
    have hfields : Event.fields? 12 (AuxEvent.event ⟨revision, timestamp, .scheduleCheckpoint c⟩).data =
        checkpoint? revision c := hrestates.checkpoint h
    refine (hrestates.validate 12 rfl).trans ?_
    rw [hfields]
    rfl
  | scheduleMembership c activeJobIds membershipComplete =>
    have hrestates : Restates
        (AuxEvent.event ⟨revision, timestamp, .scheduleMembership c activeJobIds membershipComplete⟩).data
        ["active_job_id", "active_job_ids", "at", "cancelled_at", "definition", "expected_revision",
          "last_at", "membership_complete", "next_at", "registered_at", "revision", "schedule_id"]
        timestamp revision c := by
      constructor <;>
        simp [AuxEvent.event, AuxEvent.toValue, Value.get_record, Value.exact_record, List.lookup_cons]
    have hids : Event.sortedIds? ((AuxEvent.event ⟨revision, timestamp,
        .scheduleMembership c activeJobIds membershipComplete⟩).data.get "active_job_ids") =
          (activeJobIds == sortUniq activeJobIds && activeJobIds.all id?) := by
      rw [← sortedIds_hexValue fun id hid ↦ h id (List.mem_append_right _ hid)]
      simp [AuxEvent.event, AuxEvent.toValue, Value.get_record, List.lookup_cons]
    have hcomplete : Event.boolean? ((AuxEvent.event ⟨revision, timestamp,
        .scheduleMembership c activeJobIds membershipComplete⟩).data.get "membership_complete") =
          true := by
      simp [AuxEvent.event, AuxEvent.toValue, Value.get_record, List.lookup_cons, Event.boolean?]
    have hcheckpoint := hrestates.checkpoint fun id hid ↦ h id (List.mem_append_left _ hid)
    refine (hrestates.validate 13 rfl).trans ?_
    rw [Event.fields_membership, hcheckpoint, hids, hcomplete, Bool.and_true]
    simp only [validateAux, auxIdentity?, auxRevision?, auxFields?, Bool.and_assoc]

/-- An auxiliary event and its map are encoded to the same bytes. -/
theorem encode_auxEvent (e : AuxEvent) (h : ∀ id ∈ e.body.ids, id < 2 ^ 128) (limits : Value.Limits)
    (max : ℕ) :
    Event.encode e.event limits max =
      (fun payload ↦ (e.body.code, 2, payload)) <$> e.encode limits max := by
  have hcapability : Event.capability e.body.code 2 = .ok () := by
    cases e.body <;> rfl
  have hmap : isMap e.event.data = true := by
    rw [AuxEvent.event, AuxEvent.toValue.eq_def]
    cases e.body <;> rfl
  exact encode_of_validate rfl hcapability hmap (encodeIdentity_auxEvent e) (validate_auxEvent e h)

end V2

end Tay
