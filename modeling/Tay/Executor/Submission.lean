import Tay.Executor.Counterpart

/-!
# Submissions of a Python client

Whether a server accepts the frame that the SDK makes of a submission. The rules for the options are the
same on both sides. The limits on the values are not: the client counts levels from the message, starting
at zero, and bounds the number of items of each collection; the server counts levels from one, and bounds
the nodes of the whole message and the bytes of each key.
-/

open Foundation

namespace Tay.Sdk

open Protocol

/-! ## Dictionaries -/

theorem assign_of_notMem {entries : Entries} {key : Key} (value : PyValue) (h : key ∉ entries.keys) :
    entries.assign key value = entries ++ [(key, value)] := by
  induction entries with
  | nil => rfl
  | cons e rest ih =>
    obtain ⟨hhead, htail⟩ := not_or.mp (mt List.mem_cons.mpr h)
    rw [Entries.assign, if_neg fun he ↦ hhead he.symm, ih htail, List.cons_append]

theorem update_of_disjoint {entries more : Entries} (hmore : more.keys.Nodup)
    (h : ∀ key ∈ more.keys, key ∉ entries.keys) : entries.update more = entries ++ more := by
  induction more generalizing entries with
  | nil => exact (List.append_nil entries).symm
  | cons e rest ih =>
    obtain ⟨hfresh, hrest⟩ := List.nodup_cons.mp hmore
    have hassign := assign_of_notMem e.2 (h e.1 List.mem_cons_self)
    rw [Entries.update, List.foldl_cons, hassign]
    have hrest := @ih (entries ++ [(e.1, e.2)]) hrest fun key hkey hmem ↦ by
      rw [Entries.keys, List.map_append, List.mem_append] at hmem
      rcases hmem with hmem | hmem
      · exact h key (List.mem_cons_of_mem _ hkey) hmem
      · exact hfresh (List.mem_singleton.mp hmem ▸ hkey)
    exact hrest.trans (List.append_assoc _ _ _)

/-! ## Normalized values -/

theorem normalizeEntries_cons {key : Key} {item : PyValue} {rest : Entries} {depth : ℕ}
    {normalized result : Entries} (h : normalizeJson.normalizeEntries ((key, item) :: rest) depth normalized = some result) :
    ∃ value, normalizeJson item depth = some value ∧
      normalizeJson.normalizeEntries rest depth (normalized.assign key value) = some result := by
  cases key with
  | other n => cases h
  | str t => exact Option.bind_eq_some_iff.mp h

mutual

/-- A value is its own normal form. -/
theorem normalizeJson_eq {v w : PyValue} {depth : ℕ} (hdistinct : v.distinct = true)
    (h : normalizeJson v depth = some w) : w = v := by
  rw [normalizeJson.eq_def] at h
  by_cases hdepth : defaultMaxJsonDepth < depth
  · rw [if_pos hdepth] at h
    cases h
  rw [if_neg hdepth] at h
  match v with
  | .none | .bool _ | .int _ | .str _ => exact (Option.some.inj h).symm
  | .float bits =>
    by_cases hfinite : isFinite bits = true
    · exact (Option.some.inj ((if_pos hfinite).symm.trans h)).symm
    · cases (if_neg hfinite).symm.trans h
  | .list items =>
    by_cases hlength : defaultMaxCollectionItems < items.length
    · cases (if_pos hlength).symm.trans h
    · obtain ⟨values, hvalues, rfl⟩ := Option.map_eq_some_iff.mp ((if_neg hlength).symm.trans h)
      exact congrArg PyValue.list (normalizeList_eq hdistinct hvalues)
  | .mapping entries =>
    by_cases hlength : defaultMaxCollectionItems < entries.length
    · cases (if_pos hlength).symm.trans h
    · obtain ⟨result, hresult, rfl⟩ := Option.map_eq_some_iff.mp ((if_neg hlength).symm.trans h)
      obtain ⟨hkeys, hdistinct⟩ := Bool.and_eq_true_iff.mp hdistinct
      have hresult := normalizeEntries_eq (of_decide_eq_true hkeys) (fun _ _ hmem ↦ by cases hmem) hdistinct hresult
      exact congrArg PyValue.mapping hresult
  | .other => cases h
termination_by structural v

theorem normalizeList_eq {items values : List PyValue} {depth : ℕ}
    (hdistinct : PyValue.distinct.distinctList items = true)
    (h : normalizeJson.normalizeList items depth = some values) : values = items := by
  match items with
  | [] => exact (Option.some.inj h).symm
  | item :: rest =>
    obtain ⟨hitem, hrest⟩ := Bool.and_eq_true_iff.mp hdistinct
    obtain ⟨head, hhead, h⟩ := Option.bind_eq_some_iff.mp h
    obtain ⟨tail, htail, h⟩ := Option.bind_eq_some_iff.mp h
    obtain rfl := Option.some.inj h
    exact congrArg₂ List.cons (normalizeJson_eq hitem hhead) (normalizeList_eq hrest htail)
termination_by structural items

theorem normalizeEntries_eq {entries normalized result : Entries} {depth : ℕ} (hkeys : (entries.map Prod.fst).Nodup)
    (hfresh : ∀ key ∈ entries.map Prod.fst, key ∉ normalized.keys)
    (hdistinct : PyValue.distinct.distinctEntries entries = true)
    (h : normalizeJson.normalizeEntries entries depth normalized = some result) : result = normalized ++ entries := by
  match entries with
  | [] => exact (Option.some.inj h).symm.trans (List.append_nil _).symm
  | (key, item) :: rest =>
    obtain ⟨hitem, hrest⟩ := Bool.and_eq_true_iff.mp hdistinct
    obtain ⟨hhead, hnodup⟩ := List.nodup_cons.mp hkeys
    obtain ⟨value, hvalue, htail⟩ := normalizeEntries_cons h
    rw [normalizeJson_eq hitem hvalue, assign_of_notMem item (hfresh key List.mem_cons_self)] at htail
    have hresult := normalizeEntries_eq hnodup (fun other hother hmem ↦ by
      rw [Entries.keys, List.map_append, List.mem_append] at hmem
      rcases hmem with hmem | hmem
      · exact hfresh other (List.mem_cons_of_mem _ hother) hmem
      · exact hhead (List.mem_singleton.mp hmem ▸ hother)) hrest htail
    exact hresult.trans (List.append_assoc _ _ _)
termination_by structural entries

end

/-! ## Options -/

/-- A value that is not a collection. -/
def isScalar : PyValue → Bool
  | .list _ | .mapping _ | .other => false
  | _ => true

/-- What the options of a submission satisfy, one by one. -/
structure ValidOptions (options : Entries) : Prop where
  known : ∀ key ∈ options.keys, ∃ name ∈ enqueueOptionNames, key = .str (literal name)
  retries : optionalWithin (options.get "retries") 0 65534 = true
  backoff : isNone (options.get "backoff") = true ∨ isStr (options.get "backoff") "exponential" = true
  durability : validateDurability (options.get "durability") = true
  id : isNone (options.get "id") = true ∨ isJobId (options.get "id") = true
  submissionId : isNone (options.get "submission_id") = true ∨
    isIdentifier (options.get "submission_id") = true ∧ isNone (options.get "id") = true
  delay : isNone (options.get "delay") = true ∨ milliseconds (options.get "delay") maxTime 0 = true
  delayMs : optionalWithin (options.get "delay_ms") 0 maxTime = true
  delays : isNone (options.get "delay") = true ∨ isNone (options.get "delay_ms") = true
  runAt : isNone (options.get "run_at") = true ∨ (optionalWithin (options.get "run_at") 0 maxTime = true ∧
    isNone (options.get "delay") = true) ∧ isNone (options.get "delay_ms") = true
  timeout : isNone (options.get "timeout") = true ∨ milliseconds (options.get "timeout") 86400000 1 = true
  timeoutMs : optionalWithin (options.get "timeout_ms") 1 86400000 = true
  timeouts : isNone (options.get "timeout") = true ∨ isNone (options.get "timeout_ms") = true
  queue : options.has "queue" = true → isQueue (options.get "queue") = true
  retriesGiven : options.has "retries" = true → isNone (options.get "retries") = false

theorem validOptions {options : Entries} (h : validateSubmissionOptions options = true) : ValidOptions options := by
  simp only [validateSubmissionOptions, validateExecutionOptions, Bool.and_eq_true, Bool.or_eq_true,
    Bool.not_eq_true', Bool.and_eq_false_iff, List.all_eq_true, List.any_eq_true, beq_iff_eq] at h
  obtain ⟨⟨⟨⟨⟨⟨⟨⟨⟨⟨⟨⟨hknown, ⟨hretries, hbackoff⟩, hdurability⟩, hid⟩, hsubmission⟩, hdelay⟩, hdelayMs⟩, hdelays⟩,
    hrunAt⟩, htimeout⟩, htimeoutMs⟩, htimeouts⟩, hqueue⟩, hgiven⟩ := h
  exact ⟨hknown, hretries, hbackoff, hdurability, hid, hsubmission, hdelay, hdelayMs, hdelays, hrunAt, htimeout,
    htimeoutMs, htimeouts, fun h ↦ hqueue.resolve_left (by rw [h]; decide), fun h ↦ hgiven.resolve_left (by rw [h]; decide)⟩

theorem isScalar_of_isNone {value : PyValue} (h : isNone value = true) : isScalar value = true := by
  rw [isNone.eq_def] at h
  split at h
  · rfl
  · cases h

theorem isScalar_of_optionalWithin {value : PyValue} {minimum maximum : ℤ}
    (h : optionalWithin value minimum maximum = true) : isScalar value = true := by
  rw [optionalWithin.eq_def] at h
  split at h
  · rfl
  · rfl
  · cases h

theorem isScalar_of_milliseconds {value : PyValue} {maximum minimum : ℕ}
    (h : milliseconds value maximum minimum = true) : isScalar value = true := by
  rw [milliseconds.eq_def] at h
  split at h
  · rfl
  · rfl
  · cases h

theorem isScalar_of_isText {test : Text → Bool} {value : PyValue} (h : isText test value = true) :
    isScalar value = true := by
  rw [isText.eq_def] at h
  split at h
  · rfl
  · cases h

theorem find?_eq_of_mem {entries : Entries} (hkeys : entries.keys.Nodup) {name : String} {value : PyValue}
    (h : (Key.str (literal name), value) ∈ entries) : entries.find? name = some value := by
  induction entries with
  | nil => cases h
  | cons e rest ih =>
    obtain ⟨hfresh, hkeys⟩ := List.nodup_cons.mp hkeys
    rw [find?_cons]
    rcases List.mem_cons.mp h with rfl | h
    · exact if_pos rfl
    · have hmem : Key.str (literal name) ∈ rest.map Prod.fst := List.mem_map_of_mem h
      have hne : e.1 ≠ .str (literal name) := fun he ↦ hfresh (he.symm ▸ hmem)
      rw [if_neg hne]
      exact ih hkeys h

/-- No option is a collection. -/
theorem ValidOptions.scalar {options : Entries} (h : ValidOptions options) {name : String}
    (hname : name ∈ enqueueOptionNames) (hhas : options.has name = true) : isScalar (options.get name) = true := by
  simp only [enqueueOptionNames, List.mem_cons, List.not_mem_nil, or_false] at hname
  rcases hname with rfl | rfl | rfl | rfl | rfl | rfl | rfl | rfl | rfl | rfl | rfl
  · exact h.id.elim isScalar_of_isNone isScalar_of_isText
  · exact h.submissionId.elim isScalar_of_isNone fun h ↦ isScalar_of_isText h.1
  · exact h.delay.elim isScalar_of_isNone isScalar_of_milliseconds
  · exact isScalar_of_optionalWithin h.delayMs
  · exact h.runAt.elim isScalar_of_isNone fun h ↦ isScalar_of_optionalWithin h.1.1
  · exact isScalar_of_optionalWithin h.retries
  · exact h.timeout.elim isScalar_of_isNone isScalar_of_milliseconds
  · exact isScalar_of_optionalWithin h.timeoutMs
  · exact h.backoff.elim isScalar_of_isNone isScalar_of_isText
  · exact isScalar_of_isText (h.queue hhas)
  · have hdurability := h.durability
    simp only [validateDurability, Bool.or_eq_true] at hdurability
    exact hdurability.elim (fun h ↦ h.elim isScalar_of_isNone isScalar_of_isText) isScalar_of_isText

/-- The options of a submission as a mapping of scalars. -/
theorem scalar_of_mem {options : Entries} (h : ValidOptions options) (hkeys : options.keys.Nodup)
    {e : Key × PyValue} (he : e ∈ options) : isScalar e.2 = true := by
  obtain ⟨key, value⟩ := e
  obtain ⟨name, hname, rfl⟩ := h.known key (List.mem_map_of_mem he)
  have hfind : options.find? name = some value := find?_eq_of_mem hkeys he
  have hhas : options.has name = true := by rw [Entries.has, hfind]; rfl
  have hscalar := h.scalar hname hhas
  rw [Entries.get, hfind] at hscalar
  exact hscalar

theorem distinctEntries_of_scalar {options : Entries} (h : ∀ e ∈ options, isScalar e.2 = true) :
    PyValue.distinct.distinctEntries options = true := by
  induction options with
  | nil => rfl
  | cons e rest ih =>
    rw [PyValue.distinct.distinctEntries, ih fun e he ↦ h e (List.mem_cons_of_mem _ he), Bool.and_true]
    have hscalar := h e List.mem_cons_self
    rw [isScalar.eq_def] at hscalar
    rw [PyValue.distinct.eq_def]
    grind

/-- A mapping of scalars has two levels at most, and one node for each of its items. -/
theorem size_of_scalar {options : Entries} (h : ∀ e ∈ options, isScalar e.2 = true) :
    PyValue.levels.levelsEntries options ≤ 1 ∧ PyValue.nodes.nodesEntries options = options.length := by
  induction options with
  | nil => exact ⟨Nat.zero_le _, rfl⟩
  | cons e rest ih =>
    obtain ⟨hlevels, hnodes⟩ := ih fun e he ↦ h e (List.mem_cons_of_mem _ he)
    have hscalar := h e List.mem_cons_self
    have hone : e.2.levels = 1 ∧ e.2.nodes = 1 := by
      rw [isScalar.eq_def] at hscalar
      rw [PyValue.levels.eq_def, PyValue.nodes.eq_def]
      grind
    rw [PyValue.levels.levelsEntries, PyValue.nodes.nodesEntries, hone.1, hone.2, hnodes, List.length_cons]
    exact ⟨Nat.max_le.mpr ⟨le_refl 1, hlevels⟩, Nat.add_comm _ _⟩

/-! ## What the server makes of the options -/

theorem isNone_iff {value : PyValue} : isNone value = true ↔ value = .none := by
  rw [isNone.eq_def]
  split
  · exact ⟨fun _ ↦ rfl, fun _ ↦ rfl⟩
  · case h_2 hne => exact ⟨fun h ↦ (by cases h), fun h ↦ absurd h hne⟩

theorem isText_iff {test : Text → Bool} {value : PyValue} :
    isText test value = true ↔ ∃ t, value = .str t ∧ test t = true := by
  rw [isText.eq_def]
  split
  · exact ⟨fun h ↦ ⟨_, rfl, h⟩, fun ⟨t, ht, h⟩ ↦ PyValue.str.inj ht ▸ h⟩
  · case h_2 hne => exact ⟨fun h ↦ (by cases h), fun ⟨t, ht, _⟩ ↦ absurd ht (hne t)⟩

theorem find?_serverEntries {entries : Entries} {m : Message} (h : serverValue.serverEntries entries = some m)
    {name : String} {item : PyValue} (hfind : entries.find? name = some item) :
    ∃ value, serverValue item = some value := by
  refine serverEntries_induction (motive := fun entries _ ↦
    entries.find? name = some item → ∃ value, serverValue item = some value) (fun h ↦ by cases h) ?_ h hfind
  intro key found rest bytes value message _ hvalue _ ih hfind
  rw [find?_cons] at hfind
  split at hfind
  · obtain rfl := Option.some.inj hfind
    exact ⟨value, hvalue⟩
  · exact ih hfind

theorem get_of_not_has {options : Entries} {name : String} (h : ¬options.has name = true) : options.get name = .none := by
  rw [Entries.has, Option.not_isSome_iff_eq_none] at h
  rw [Entries.get, h]
  rfl

section Fields

variable {options : Entries} {m : Message} (hm : serverValue.serverEntries options = some m)
include hm

theorem serverValue_get (name : String) : serverValue (options.get name) = some (Declaration.field m name) := by
  rw [Declaration.field, get?_serverEntries hm, Entries.get]
  rcases hfind : options.find? name with _ | item
  · rfl
  · obtain ⟨value, hvalue⟩ := find?_serverEntries hm hfind
    exact hvalue.trans (congrArg some (congrArg (fun o ↦ Option.getD o Value.null) hvalue.symm))

theorem field_of_isNone {name : String} (h : isNone (options.get name) = true) : Declaration.field m name = .null := by
  have hget := serverValue_get hm name
  rw [isNone_iff.mp h] at hget
  exact (Option.some.inj hget).symm

theorem field_of_int {name : String} {n : ℤ} (h : options.get name = .int n) : Declaration.field m name = .int n := by
  have hget := serverValue_get hm name
  rw [h] at hget
  exact (Option.some.inj hget).symm

theorem field_of_str {name : String} {t : Text} (h : options.get name = .str t) :
    ∃ bytes, encode t = some bytes ∧ Declaration.field m name = .str bytes := by
  have hget := serverValue_get hm name
  rw [h] at hget
  obtain ⟨bytes, hbytes, hfield⟩ := Option.map_eq_some_iff.mp hget
  exact ⟨bytes, hbytes, hfield.symm⟩

theorem field_of_isStr {name s : String} (h : isStr (options.get name) s = true) :
    Declaration.field m name = .str (text s) := by
  obtain ⟨t, hget, ht⟩ := isText_iff.mp h
  obtain ⟨bytes, hbytes, hfield⟩ := field_of_str hm hget
  rw [eq_of_beq ht, encode_literal] at hbytes
  rw [hfield, ← Option.some.inj hbytes]

/-- A field with a default is the field where it is given. -/
theorem fieldOr_eq (name : String) (default : Value) :
    JobOptions.fieldOr m name default = if options.has name = true then Declaration.field m name else default := by
  rw [JobOptions.fieldOr, Declaration.field, get?_serverEntries hm, Entries.has]
  rcases hfind : options.find? name with _ | item
  · rfl
  · obtain ⟨value, hvalue⟩ := find?_serverEntries hm hfind
    rw [Option.bind_some, hvalue]
    rfl

end Fields

/-- Strings that are plain to the client are plain to the server. -/
theorem plain_bytes {t : Text} {bytes : Binary} {maximum : ℕ} (h : isPlain maximum (.str t) = true)
    (hbytes : encode t = some bytes) : (1 ≤ bytes.length && bytes.length ≤ maximum && Value.validUtf8 bytes &&
      !bytes.contains 0) = true := by
  simp only [isPlain, isText, Bool.and_eq_true] at h
  obtain ⟨⟨hempty, hzero⟩, hlength⟩ := h
  obtain ⟨bytes', hbytes', hlength⟩ := encodesWithin_iff.mp hlength
  obtain rfl := Option.some.inj (hbytes'.symm.trans hbytes)
  have hone : 1 ≤ bytes'.length := (encode_nonempty hbytes).mpr (by rintro rfl; cases hempty)
  simp only [decide_eq_true hone, decide_eq_true hlength, encode_valid hbytes, encode_zero hbytes, hzero,
    Bool.and_self]

theorem jobId_bytes {t : Text} {bytes : Binary} (h : isJobId (.str t) = true) (hbytes : encode t = some bytes) :
    Event.jobId? (.str bytes) = true := by
  simp only [isJobId, isText, Bool.and_eq_true, Bool.not_eq_true', beq_iff_eq] at h
  obtain ⟨⟨hlength, hdigits⟩, hzero⟩ := h
  obtain ⟨s, rfl, rfl⟩ := encode_eq_some.mp hbytes
  have hdigit (c : Char) (hc : c ∈ s.toList) : (48 ≤ c.toNat ∧ c.toNat ≤ 57) ∨ 97 ≤ c.toNat ∧ c.toNat ≤ 102 := by
    have hc : isHexDigit (.scalar c) = true := List.all_eq_true.mp hdigits _ (List.mem_map_of_mem hc)
    simp only [isHexDigit, Bool.or_eq_true, Bool.and_eq_true, decide_eq_true_eq] at hc
    exact hc
  have hbytes : text s = s.toList.map fun c ↦ UInt8.ofNat c.toNat := by
    have htext := @text_of_le s.toList fun c hc ↦ by
      have := hdigit c hc
      omega
    rwa [String.ofList_toList] at htext
  rw [literal, List.length_map] at hlength
  simp only [Event.jobId?, Event.string?, Bool.and_eq_true, beq_iff_eq, bne_iff_ne]
  refine ⟨⟨by rw [hbytes, List.length_map, hlength], ?_⟩, fun hzeros ↦ ?_⟩
  · rw [hbytes, List.all_map, List.all_eq_true]
    intro c hc
    have hc := hdigit c hc
    simp only [Function.comp_apply, Event.hexDigit?, Bool.or_eq_true, Bool.and_eq_true, decide_eq_true_eq,
      UInt8.le_iff_toNat_le, UInt8.toNat_ofNat']
    rw [Nat.mod_eq_of_lt (by omega)]
    exact hc
  · rw [literal, List.all_map, Bool.eq_false_iff] at hzero
    refine hzero (List.all_eq_true.mpr fun c hc ↦ ?_)
    have hbyte := List.eq_of_mem_replicate (hzeros ▸ hbytes ▸ List.mem_map_of_mem hc : UInt8.ofNat c.toNat ∈ _)
    have hc := hdigit c hc
    have hnat := congrArg UInt8.toNat hbyte
    rw [UInt8.toNat_ofNat', Nat.mod_eq_of_lt (by omega)] at hnat
    exact beq_iff_eq.mpr hnat

/-- An amount that the client can scale is one that the server can. -/
theorem milliseconds_ok {value : PyValue} {maximum minimum : ℕ} (h : milliseconds value maximum minimum = true)
    (reason : JobOptions.Failure) : ∃ amount, serverValue value = some amount ∧ amount ≠ .null ∧
      Declaration.isNumber amount = true ∧ Declaration.isNonnegative amount = true ∧
      (1 ≤ minimum → Declaration.isPositive amount = true) ∧
      ∃ n, JobOptions.milliseconds amount minimum maximum reason = .ok n := by
  rw [milliseconds.eq_def] at h
  split at h
  case h_1 n =>
    simp only [Bool.and_eq_true, decide_eq_true_eq] at h
    obtain ⟨⟨hzero, hquotient⟩, hminimum, hmaximum⟩ := h
    refine ⟨.int n, rfl, (by intro h; cases h), rfl, decide_eq_true hzero, fun hone ↦ ?_, n * 1000, ?_⟩
    · exact decide_eq_true (show 0 < n by omega)
    · rw [JobOptions.milliseconds, Declaration.atMost, if_pos (decide_eq_true hquotient)]
      exact if_pos ⟨hminimum, hmaximum⟩
  case h_2 bits =>
    simp only [Bool.and_eq_true, decide_eq_true_eq] at h
    obtain ⟨⟨⟨hsign, hfinite⟩, hquotient⟩, hminimum, hmaximum⟩ := h
    have hround := Double.round_eq (Double.isNonnegative_times hsign 1000)
    rw [← hround] at hminimum hmaximum
    refine ⟨.float bits, if_pos hfinite, (by intro h; cases h), rfl, hsign, fun hone ↦ ?_,
      Declaration.scaled (.float bits) 1000, ?_⟩
    · have hsignificand : (Double.ofBits bits.toNat).significand ≠ 0 := fun hzero ↦ by
        rw [Double.round_of_zero (Double.significand_times_zero hzero 1000)] at hminimum
        omega
      rw [Double.isNonnegative, Bool.or_eq_true, beq_iff_eq] at hsign
      rw [Declaration.isPositive, Double.isPositive, hsign.resolve_right hsignificand, bne_iff_ne.mpr hsignificand]
      rfl
    · rw [JobOptions.milliseconds, Declaration.atMost, if_pos hquotient]
      exact if_pos ⟨hminimum, hmaximum⟩
  case h_3 => cases h

theorem optionalWithin_iff {value : PyValue} {minimum maximum : ℤ} (h : optionalWithin value minimum maximum = true) :
    value = .none ∨ ∃ n, value = .int n ∧ minimum ≤ n ∧ n ≤ maximum := by
  rw [optionalWithin.eq_def] at h
  split at h
  · exact .inl rfl
  · simp only [Bool.and_eq_true, decide_eq_true_eq] at h
    exact .inr ⟨_, rfl, h⟩
  · cases h

section Options

variable {options : Entries} {m : Message} (h : ValidOptions options)
  (hm : serverValue.serverEntries options = some m)
include h hm

theorem known_message : (m.all fun e ↦ JobOptions.allowed.any fun name ↦ e.1 == .str (text name)) = true := by
  refine List.all_eq_true.mpr fun e he ↦ ?_
  obtain ⟨key, bytes, hkey, hbytes, hmem⟩ := mem_serverEntries hm e he
  obtain ⟨name, hname, hliteral⟩ := h.known _ hmem
  obtain rfl := Key.str.inj hliteral
  rw [encode_literal] at hbytes
  have hallowed : name ∈ JobOptions.allowed :=
    (show ∀ name ∈ enqueueOptionNames, name ∈ JobOptions.allowed by decide) name hname
  exact List.any_eq_true.mpr ⟨name, hallowed, beq_iff_eq.mpr (by rw [hkey, ← Option.some.inj hbytes])⟩

theorem submissionId_ok (digest : Binary → Binary) : ∃ id, JobOptions.submissionId digest m = .ok id := by
  rw [JobOptions.submissionId]
  rcases h.submissionId with hsubmission | ⟨hsubmission, hid⟩
  · rw [field_of_isNone hm hsubmission]
    rcases h.id with hid | hid
    · rw [field_of_isNone hm hid]
      exact ⟨none, rfl⟩
    · obtain ⟨t, ht, -⟩ := isText_iff.mp hid
      obtain ⟨bytes, hbytes, hfield⟩ := field_of_str hm ht
      rw [hfield]
      exact ⟨some bytes, if_pos (jobId_bytes (ht ▸ hid) hbytes)⟩
  · obtain ⟨t, ht, -⟩ := isText_iff.mp hsubmission
    obtain ⟨bytes, hbytes, hfield⟩ := field_of_str hm ht
    rw [field_of_isNone hm hid, hfield]
    exact ⟨some (digest bytes), if_pos (plain_bytes (ht ▸ hsubmission) hbytes)⟩

theorem delay_ok : ∃ n, JobOptions.delay m = .ok n := by
  rw [JobOptions.delay]
  by_cases hdelay : isNone (options.get "delay") = true
  · rw [field_of_isNone hm hdelay]
    rcases optionalWithin_iff h.delayMs with hnone | ⟨n, hn, hbounds⟩
    · rw [field_of_isNone hm (isNone_iff.mpr hnone)]
      exact ⟨none, rfl⟩
    · rw [field_of_int hm hn]
      exact ⟨some n, congrArg (Except.map some) (if_pos hbounds)⟩
  · obtain ⟨amount, hamount, hnull, hnumber, hsign, -, n, hn⟩ :=
      milliseconds_ok (h.delay.resolve_left hdelay) .invalidDelay
    have hfield : Declaration.field m "delay" = amount :=
      Option.some.inj ((serverValue_get hm "delay").symm.trans hamount)
    rw [field_of_isNone hm (h.delays.resolve_left hdelay), hfield]
    split
    case h_1 => exact absurd rfl hnull
    case h_2 =>
      rw [hnumber, hsign]
      exact ⟨some n, congrArg (Except.map some) hn⟩
    case h_3 => exact absurd rfl hnull
    case h_4 hne _ => exact (hne rfl).elim

theorem runAt_ok : ∃ n, JobOptions.runAt m = .ok n := by
  rw [JobOptions.runAt]
  by_cases hnone : isNone (options.get "run_at") = true
  · rw [field_of_isNone hm hnone]
    exact ⟨none, rfl⟩
  · obtain ⟨⟨hwithin, hdelay⟩, hdelayMs⟩ := h.runAt.resolve_left hnone
    rw [field_of_isNone hm hdelay, field_of_isNone hm hdelayMs]
    obtain ⟨n, hn, hbounds⟩ := (optionalWithin_iff hwithin).resolve_left fun h ↦ hnone (isNone_iff.mpr h)
    rw [field_of_int hm hn]
    exact ⟨some n, congrArg (Except.map some) (if_pos hbounds)⟩

theorem retries_ok : ∃ n,
    JobOptions.integerWithin (JobOptions.fieldOr m "retries" (.nat 0)) 0 65534 .invalidOption = .ok n := by
  rw [fieldOr_eq hm]
  by_cases hhas : options.has "retries" = true
  · have hgiven := h.retriesGiven hhas
    obtain ⟨n, hn, hbounds⟩ := (optionalWithin_iff h.retries).resolve_left fun h ↦ by
      rw [isNone_iff.mpr h] at hgiven
      cases hgiven
    rw [if_pos hhas, field_of_int hm hn]
    exact ⟨n, if_pos hbounds⟩
  · rw [if_neg hhas]
    exact ⟨0, rfl⟩

theorem timeout_ok : ∃ n, JobOptions.timeout m = .ok n := by
  rw [JobOptions.timeout]
  by_cases htimeout : isNone (options.get "timeout") = true
  · rw [field_of_isNone hm htimeout]
    rcases optionalWithin_iff h.timeoutMs with hnone | ⟨n, hn, hbounds⟩
    · rw [field_of_isNone hm (isNone_iff.mpr hnone)]
      exact ⟨30000, rfl⟩
    · rw [field_of_int hm hn]
      exact ⟨n, if_pos hbounds⟩
  · obtain ⟨amount, hamount, hnull, hnumber, -, hsign, n, hn⟩ :=
      milliseconds_ok (h.timeout.resolve_left htimeout) .invalidTimeout
    have hfield : Declaration.field m "timeout" = amount :=
      Option.some.inj ((serverValue_get hm "timeout").symm.trans hamount)
    rw [field_of_isNone hm (h.timeouts.resolve_left htimeout), hfield]
    split
    case h_1 => exact absurd rfl hnull
    case h_2 =>
      rw [hnumber, hsign (le_refl 1)]
      exact ⟨n, hn⟩
    case h_3 => exact absurd rfl hnull
    case h_4 hne _ => exact (hne rfl).elim

theorem backoff_ok : JobOptions.backoff m = .ok () := by
  rw [JobOptions.backoff, check_eq_ok, Bool.or_eq_true, beq_iff_eq, beq_iff_eq, fieldOr_eq hm]
  by_cases hhas : options.has "backoff" = true
  · rw [if_pos hhas]
    exact h.backoff.imp (field_of_isNone hm) (field_of_isStr hm)
  · rw [if_neg hhas]
    exact .inr rfl

theorem queue_ok : ∃ queue, JobOptions.queue m = .ok queue := by
  rw [JobOptions.queue, fieldOr_eq hm]
  by_cases hhas : options.has "queue" = true
  · obtain ⟨t, ht, -⟩ := isText_iff.mp (h.queue hhas)
    obtain ⟨bytes, hbytes, hfield⟩ := field_of_str hm ht
    rw [if_pos hhas, hfield]
    exact ⟨bytes, if_pos (plain_bytes (ht ▸ h.queue hhas) hbytes)⟩
  · rw [if_neg hhas]
    exact ⟨text "default", by decide +kernel⟩

theorem durability_ok : ∃ durability, JobOptions.durability m = .ok durability := by
  have hdurability := h.durability
  simp only [validateDurability, Bool.or_eq_true] at hdurability
  rw [JobOptions.durability]
  rcases hdurability with (hnone | hpersistent) | hvolatile
  · rw [field_of_isNone hm hnone]
    exact ⟨none, rfl⟩
  · rw [field_of_isStr hm hpersistent]
    exact ⟨some .persistent, by decide +kernel⟩
  · rw [field_of_isStr hm hvolatile]
    exact ⟨some .volatile, by decide +kernel⟩

/-- The options that the client admits are options that the server parses. -/
theorem parse_ok (digest : Binary → Binary) : ∃ parsed, JobOptions.parse digest (.map m) = .ok parsed := by
  obtain ⟨id, hid⟩ := submissionId_ok h hm digest
  obtain ⟨delay, hdelay⟩ := delay_ok h hm
  obtain ⟨scheduled, hscheduled⟩ := runAt_ok h hm
  obtain ⟨retries, hretries⟩ := retries_ok h hm
  obtain ⟨timeout, htimeout⟩ := timeout_ok h hm
  obtain ⟨queue, hqueue⟩ := queue_ok h hm
  obtain ⟨durability, hdurability⟩ := durability_ok h hm
  refine ⟨⟨id, retries, timeout, queue, delay, scheduled, durability⟩, ?_⟩
  simp only [JobOptions.parse, known_message h hm, check_true, ok_bind, hid, hdelay, hscheduled, hretries, htimeout,
    backoff_ok h hm, hqueue, hdurability, pure_eq_ok]

end Options

end Tay.Sdk
