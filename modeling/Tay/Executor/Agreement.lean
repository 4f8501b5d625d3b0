import Tay.Executor.Submission

/-!
# What a client can send and a server takes

The two sides of a submission put together: the frame of a call that the SDK lets through, decoded by the
server. A call fits the server if the limits of the protocol cover its message.
-/

open Foundation

namespace Tay.Sdk

open Protocol

/-! ## The message of a call -/

theorem notMem_of_not_has {entries : Entries} {name : String} (h : entries.has name = false) :
    .str (literal name) ∉ entries.keys := by
  intro hmem
  obtain ⟨e, he, hkey⟩ := List.mem_map.mp hmem
  rw [Entries.has, Entries.find?, Option.isSome_map, Option.isSome_eq_false_iff, Option.isNone_iff_eq_none] at h
  exact List.find?_eq_none.mp h e he (beq_iff_eq.mpr hkey)

/-- The number of options in a call. -/
def Call.optionCount (call : Call) : ℕ :=
  ((givenOptions call.options).getD []).length + call.keywords.length + if isNone call.durability then 0 else 1

/-- The options of a call once they are merged. -/
structure Merged (call : Call) (merged : Entries) : Prop where
  valid : ValidOptions merged
  keys : merged.keys.Nodup
  count : merged.length = call.optionCount

theorem nodup_given {options : PyValue} {given : Entries} (hdistinct : options.distinct = true)
    (h : givenOptions options = some given) : given.keys.Nodup := by
  rw [givenOptions.eq_def] at h
  split at h
  · obtain rfl := Option.some.inj h
    exact List.nodup_nil
  · obtain rfl := Option.some.inj h
    exact of_decide_eq_true (Bool.and_eq_true_iff.mp hdistinct).1
  · cases h

theorem merged_of_options {call : Call} {merged : Entries}
    (h : mergeEnqueueOptions call.options call.keywords call.durability = some merged) : Merged call merged := by
  simp only [mergeEnqueueOptions, Option.bind_eq_bind, Option.bind_eq_some_iff, Option.guard_eq_some', Option.pure_def,
    Option.some.injEq, exists_const, List.all_eq_true, Bool.not_eq_true', Bool.or_eq_true] at h
  obtain ⟨given, hgiven, hoverlap, hdurability, hvalid, rfl⟩ := h
  have hkeywords : call.keywords.keys.Nodup :=
    of_decide_eq_true (Bool.and_eq_true_iff.mp call.keywordsDistinct).1
  have hdisjoint (key : Key) (hkey : key ∈ call.keywords.keys) : key ∉ given.keys := fun hmem ↦ by
    have hnot := hoverlap key hmem
    rw [List.contains_iff_mem.mpr hkey] at hnot
    cases hnot
  rw [update_of_disjoint hkeywords hdisjoint] at hdurability hvalid ⊢
  have hkeys : (given ++ call.keywords).keys.Nodup := by
    rw [Entries.keys, List.map_append, List.nodup_append]
    refine ⟨nodup_given call.optionsDistinct hgiven, hkeywords, fun a ha b hb hab ↦ hdisjoint b hb (hab ▸ ha)⟩
  by_cases hnone : isNone call.durability = true
  · rw [if_pos hnone] at hvalid ⊢
    exact ⟨validOptions hvalid, hkeys, by
      rw [Call.optionCount, hgiven, if_pos hnone, List.length_append, Option.getD_some, Nat.add_zero]⟩
  · have hfresh := notMem_of_not_has (hdurability.resolve_left hnone)
    rw [if_neg hnone, assign_of_notMem _ hfresh] at hvalid ⊢
    refine ⟨validOptions hvalid, ?_, ?_⟩
    · rw [Entries.keys, List.map_append, List.nodup_append]
      refine ⟨hkeys, List.nodup_singleton _, fun a ha b hb hab ↦ ?_⟩
      obtain rfl : a = .str (literal "durability") := hab.trans (List.mem_singleton.mp hb)
      exact hfresh ha
    · rw [Call.optionCount, hgiven, if_neg hnone, List.length_append, List.length_append, Option.getD_some]
      rfl

def envelopeKeys : List Key := ["version", "type", "request_id"].map fun name ↦ .str (literal name)

def payloadKeys : List Key := ["task", "args", "options"].map fun name ↦ .str (literal name)

theorem nodup_messageKeys : (envelopeKeys ++ payloadKeys).Nodup := by decide +kernel

/-- The fields that every message has. -/
def envelopeFields (requestId : RequestId) : Entries :=
  [(.str (literal "version"), .int 1), (.str (literal "type"), .str (literal "enqueue")),
    (.str (literal "request_id"), .str (literal requestId.hex))]

def payloadFields (task : Text) (arguments : PyValue) (options : Entries) : Entries :=
  [(.str (literal "task"), .str task), (.str (literal "args"), arguments),
    (.str (literal "options"), .mapping options)]

/-- The message of a submission. -/
def message (requestId : RequestId) (task : Text) (arguments : PyValue) (options : Entries) : Entries :=
  envelopeFields requestId ++ payloadFields task arguments options

theorem update_envelopeFields (requestId : RequestId) (task : Text) (arguments : PyValue) (options : Entries) :
    (envelopeFields requestId).update (payloadFields task arguments options) =
      message requestId task arguments options := by
  obtain ⟨-, hpayload, hdisjoint⟩ := List.nodup_append.mp nodup_messageKeys
  exact update_of_disjoint hpayload fun key hkey hmem ↦ hdisjoint key hmem key hkey rfl

/-- The arguments of a call: an empty mapping if there are none. -/
def Call.arguments (call : Call) : PyValue := if isNone call.args then .mapping [] else call.args

theorem Call.distinct_arguments (call : Call) : call.arguments.distinct = true := by
  rw [arguments]
  split
  · decide
  · exact call.argsDistinct

theorem arguments_of_jobArguments {call : Call} {arguments : PyValue} (h : jobArguments call.args = some arguments) :
    arguments = call.arguments := by
  have hdistinct := call.argsDistinct
  rw [Call.arguments]
  rw [jobArguments.eq_def] at h
  split at h
  case h_1 hargs =>
    rw [hargs]
    exact normalizeJson_eq (by decide) h
  case h_2 hargs =>
    rw [hargs] at hdistinct ⊢
    exact normalizeJson_eq hdistinct h
  case h_3 => cases h

theorem distinct_mapping {entries : Entries} (hkeys : entries.keys.Nodup)
    (h : PyValue.distinct.distinctEntries entries = true) : (PyValue.mapping entries).distinct = true :=
  Bool.and_eq_true_iff.mpr ⟨decide_eq_true hkeys, h⟩

theorem distinct_payloadFields (task : Text) {arguments : PyValue} {options : Entries}
    (harguments : arguments.distinct = true) (hoptions : (PyValue.mapping options).distinct = true) :
    PyValue.distinct.distinctEntries (payloadFields task arguments options) = true := by
  simp only [payloadFields, PyValue.distinct.distinctEntries, harguments, hoptions, Bool.and_true]
  rfl

theorem distinct_message (requestId : RequestId) (task : Text) {arguments : PyValue} {options : Entries}
    (harguments : arguments.distinct = true) (hoptions : (PyValue.mapping options).distinct = true) :
    (PyValue.mapping (message requestId task arguments options)).distinct = true :=
  distinct_mapping nodup_messageKeys (distinct_payloadFields task harguments hoptions)

/-- What the frame of a call has in it. -/
structure Sent (jsonBytes : PyValue → Option Binary) (call : Call) (requestId : RequestId) (maxFrameBytes : ℕ)
    (frame : Binary) (task : Text) (merged : Entries) (payload : Binary) : Prop where
  options : Merged call merged
  identifier : isBounded 128 (.str (literal requestId.hex)) = true
  normal : normalizeJson (.mapping (message requestId task call.arguments merged)) 0 =
    some (.mapping (message requestId task call.arguments merged))
  distinct : (PyValue.mapping (message requestId task call.arguments merged)).distinct = true
  encoded : jsonBytes (.mapping (message requestId task call.arguments merged)) = some payload
  nonempty : 1 ≤ payload.length
  limit : payload.length ≤ maxFrameBytes
  frame : frame = packSize payload.length ++ payload

/-- An envelope that is accepted is its own normal form, and its request has an identifier. -/
theorem validateEnvelope_eq_some {entries : Entries} {normalized : PyValue}
    (hdistinct : (PyValue.mapping entries).distinct = true)
    (h : validateEnvelope (.mapping entries) = some normalized) :
    normalized = .mapping entries ∧ normalizeJson (.mapping entries) 0 = some (.mapping entries) ∧
      isBounded 128 (entries.get "request_id") = true := by
  rw [validateEnvelope] at h
  obtain ⟨value, hvalue, h⟩ := Option.bind_eq_some_iff.mp h
  obtain rfl := normalizeJson_eq hdistinct hvalue
  simp only [Option.bind_eq_bind, Option.bind_eq_some_iff, Option.guard_eq_some', Option.pure_def, Option.some.injEq,
    exists_const] at h
  obtain ⟨-, -, hidentifier, rfl⟩ := h
  exact ⟨rfl, hvalue, hidentifier⟩

theorem sent_of_enqueueFrame {jsonBytes : PyValue → Option Binary} {call : Call} {requestId : RequestId}
    {maxFrameBytes : ℕ} {frame : Binary} (h : enqueueFrame jsonBytes call requestId maxFrameBytes = some frame) :
    ∃ task merged payload, Sent jsonBytes call requestId maxFrameBytes frame task merged payload := by
  simp only [enqueueFrame, enqueuePayload, Option.bind_eq_bind, Option.bind_eq_some_iff, Option.pure_def,
    Option.some.injEq] at h
  obtain ⟨task, -, payload, ⟨arguments, harguments, merged, hmerged, options, hoptions, rfl⟩, fields, hfields, h⟩ := h
  obtain rfl := arguments_of_jobArguments harguments
  have hmerged := merged_of_options hmerged
  have hscalar := distinctEntries_of_scalar fun e he ↦ scalar_of_mem hmerged.valid hmerged.keys he
  have hdistinct := distinct_mapping hmerged.keys hscalar
  obtain rfl := normalizeJson_eq hdistinct hoptions
  have hpayload := distinct_payloadFields task call.distinct_arguments hdistinct
  have hkeys : (payloadFields task call.arguments merged).keys.Nodup := (List.nodup_append.mp nodup_messageKeys).2.1
  obtain rfl := normalizeJson_eq (distinct_mapping hkeys hpayload) hfields
  replace h : encodeFrame jsonBytes (.mapping ((envelopeFields requestId).update
    (payloadFields task call.arguments merged))) maxFrameBytes = some frame := h
  rw [update_envelopeFields] at h
  have hmessage := distinct_message requestId task call.distinct_arguments hdistinct
  simp only [encodeFrame, Option.bind_eq_bind, Option.bind_eq_some_iff, Option.guard_eq_some', Option.pure_def,
    Option.some.injEq, exists_const] at h
  obtain ⟨-, normalized, hnormalized, bytes, hbytes, ⟨hnonempty, hlimit⟩, -, hframe⟩ := h
  obtain ⟨rfl, hnormal, hidentifier⟩ := validateEnvelope_eq_some hmessage hnormalized
  exact ⟨task, merged, bytes, hmerged, hidentifier, hnormal, hmessage, hbytes, hnonempty, hlimit, hframe.symm⟩

/-! ## What a server takes -/

/-- The server decodes a message from the payload, and parses its options. -/
def Takes (json : Json) (digest : Binary → Binary) (payload : Binary) (maxFrameBytes : ℕ) : Prop :=
  ∃ m parsed, decodeMessage json payload maxFrameBytes = .ok m ∧
    JobOptions.parse digest ((Message.get? m "options").getD (.map [])) = .ok parsed

/-- The limits of the protocol cover the message of a call: of its 32 levels the message is one, and of its
10,000 nodes the message, four of its fields and the mapping of the options are six. -/
structure Fits (call : Call) (maxFrameBytes : ℕ) : Prop where
  levels : call.args.levels ≤ 31
  nodes : call.args.nodes + call.optionCount ≤ 9994
  keys : call.args.shortKeys = true
  limit : maxFrameBytes ≤ 16777216

theorem identifier_of_hex (requestId : RequestId) (h : isBounded 128 (.str (literal requestId.hex)) = true) :
    V2.identifier? (text requestId.hex) = true := by
  simp only [isBounded, isText, Bool.and_eq_true] at h
  have hzero : (literal requestId.hex).contains (.scalar '\x00') = false := by
    rw [Bool.eq_false_iff]
    intro hmem
    obtain ⟨c, hc, heq⟩ := List.mem_map.mp (List.contains_iff_mem.mp hmem)
    have hdigit := List.all_eq_true.mp requestId.digits c hc
    rw [heq] at hdigit
    exact absurd hdigit (by decide)
  refine plain_bytes ?_ (encode_literal requestId.hex)
  simp only [isPlain, isText, h.1, h.2, hzero]
  rfl

section Message

variable {requestId : RequestId} {task : Text} {arguments : PyValue} {options : Entries} {m : Message}
  (hm : serverValue.serverEntries (message requestId task arguments options) = some m)
include hm

/-- What the server asks of the envelope. -/
theorem envelope_message (h : isBounded 128 (.str (literal requestId.hex)) = true) :
    envelope (.map m) = .ok ((Message.put (text "version") (.nat version) m).delete "v") := by
  have hget := get?_serverEntries hm
  have hversion : Message.get? m "version" = some (.int 1) := by
    rw [hget]
    simp [message, envelopeFields, find?_cons, serverValue]
  have hshort : Message.get? m "v" = none := by
    rw [hget]
    simp [message, envelopeFields, payloadFields, literal_inj, Entries.find?]
  have htype : Message.get? m "type" = some (.str (text "enqueue")) := by
    rw [hget]
    simp [message, envelopeFields, find?_cons, literal_inj, serverValue, encode_literal]
  have hrequest : Message.get? m "request_id" = some (.str (text requestId.hex)) := by
    rw [hget]
    simp [message, envelopeFields, find?_cons, literal_inj, serverValue, encode_literal]
  have hknown : types.contains (text "enqueue") = true := by decide +kernel
  rw [envelope]
  simp only [hversion, hshort, requiredBinary, htype, hrequest, ok_bind, hknown,
    identifier_of_hex requestId h]
  rfl

theorem get?_options : ∃ parsed, serverValue.serverEntries options = some parsed ∧
    Message.get? ((Message.put (text "version") (.nat version) m).delete "v") "options" = some (.map parsed) := by
  rw [get?_delete (by decide +kernel), get?_put, if_neg (by decide +kernel)]
  have hfind : (message requestId task arguments options).find? "options" = some (.mapping options) := by
    simp [message, envelopeFields, payloadFields, find?_cons, literal_inj]
  obtain ⟨value, hvalue⟩ := find?_serverEntries hm hfind
  obtain ⟨parsed, hparsed, rfl⟩ := Option.map_eq_some_iff.mp hvalue
  refine ⟨parsed, hparsed, ?_⟩
  rw [get?_serverEntries hm, hfind]
  exact hvalue

end Message

/-! ## Agreement -/

theorem shortKeys_cons {name : String} {item : PyValue} {rest : Entries} (h : (text name).length ≤ maxKeyBytes) :
    PyValue.shortKeys.shortKeysEntries ((.str (literal name), item) :: rest) =
      (item.shortKeys && PyValue.shortKeys.shortKeysEntries rest) := by
  rw [PyValue.shortKeys.shortKeysEntries, encodesWithin, encode_literal, Option.any_some, decide_eq_true h,
    Bool.true_and]

theorem shortKeys_options {options : Entries} (h : ValidOptions options) (hscalar : ∀ e ∈ options, isScalar e.2 = true) :
    PyValue.shortKeys.shortKeysEntries options = true := by
  have hknown := h.known
  clear h
  induction options with
  | nil => rfl
  | cons e rest ih =>
    obtain ⟨key, item⟩ := e
    obtain ⟨name, hname, rfl⟩ := hknown key List.mem_cons_self
    have hlength := (show ∀ name ∈ enqueueOptionNames, (text name).length ≤ maxKeyBytes by decide +kernel) name hname
    have hitem := hscalar _ List.mem_cons_self
    rw [shortKeys_cons hlength, ih (fun e he ↦ hscalar e (List.mem_cons_of_mem _ he))
      fun key hkey ↦ hknown key (List.mem_cons_of_mem _ hkey), Bool.and_true, PyValue.shortKeys.eq_def]
    rw [isScalar.eq_def] at hitem
    grind

/-- What the limits of the protocol count in the message of a call. -/
theorem size_message (requestId : RequestId) (task : Text) {arguments : PyValue} {options : Entries}
    (h : ValidOptions options) (hkeys : options.keys.Nodup) :
    let envelope := PyValue.mapping (message requestId task arguments options)
    (envelope.levels ≤ 32 ↔ arguments.levels ≤ 31) ∧ envelope.nodes = 6 + arguments.nodes + options.length ∧
      envelope.shortKeys = arguments.shortKeys := by
  have hscalar (e : Key × PyValue) (he : e ∈ options) : isScalar e.2 = true := scalar_of_mem h hkeys he
  obtain ⟨hlevels, hnodes⟩ := size_of_scalar hscalar
  refine ⟨?_, ?_, ?_⟩
  · simp only [message, envelopeFields, payloadFields, List.cons_append, List.nil_append, PyValue.levels,
      PyValue.levels.levelsEntries]
    omega
  · simp only [message, envelopeFields, payloadFields, List.cons_append, List.nil_append, PyValue.nodes,
      PyValue.nodes.nodesEntries, hnodes]
    omega
  · have hshort (name : String) (hname : name ∈ ["version", "type", "request_id", "task", "args", "options"]) :
        (text name).length ≤ maxKeyBytes :=
      (show ∀ name ∈ ["version", "type", "request_id", "task", "args", "options"],
        (text name).length ≤ maxKeyBytes by decide +kernel) name hname
    simp only [message, envelopeFields, payloadFields, List.cons_append, List.nil_append]
    rw [PyValue.shortKeys, shortKeys_cons (hshort _ (by simp)), shortKeys_cons (hshort _ (by simp)),
      shortKeys_cons (hshort _ (by simp)), shortKeys_cons (hshort _ (by simp)), shortKeys_cons (hshort _ (by simp)),
      shortKeys_cons (hshort _ (by simp))]
    simp [PyValue.shortKeys, PyValue.shortKeys.shortKeysEntries, shortKeys_options h hscalar]

theorem Call.size_arguments (call : Call) : call.arguments.levels = call.args.levels ∧
    call.arguments.nodes = call.args.nodes ∧ call.arguments.shortKeys = call.args.shortKeys := by
  rw [arguments]
  split
  case isTrue hnone =>
    rw [isNone_iff.mp hnone]
    exact ⟨rfl, rfl, rfl⟩
  case isFalse => exact ⟨rfl, rfl, rfl⟩

/-- A message is within the protocol's limits exactly if its call fits. -/
theorem jsonValue?_message {call : Call} {requestId : RequestId} {task : Text} {merged : Entries} {m : Message}
    (hmerged : Merged call merged)
    (hdistinct : (PyValue.mapping (message requestId task call.arguments merged)).distinct = true)
    (hm : serverValue.serverEntries (message requestId task call.arguments merged) = some m) :
    jsonValue? (.map m) = true ↔
      call.args.levels ≤ 31 ∧ call.args.nodes + call.optionCount ≤ 9994 ∧ call.args.shortKeys = true := by
  have halike := alike hdistinct (show serverValue (.mapping _) = some (.map m) from congrArg (Option.map Value.map) hm)
  obtain ⟨hlevels, hnodes, hkeys⟩ := @size_message requestId task call.arguments merged hmerged.valid hmerged.keys
  obtain ⟨hargs, hargs', hargs''⟩ := call.size_arguments
  have hcount := hmerged.count
  rw [jsonValue?_iff, halike.levels, halike.nodes, halike.portable, hlevels, hnodes, hkeys, hargs, hargs', hargs'']
  constructor
  · rintro ⟨hshort, hlevel, hnode⟩
    exact ⟨hlevel, by omega, hshort⟩
  · rintro ⟨hlevel, hnode, hshort⟩
    exact ⟨hshort, hlevel, by omega⟩

/-- What the SDK sends, the server takes if and only if the call fits: the options are never the reason. -/
theorem enqueue_agrees {jsonBytes : PyValue → Option Binary} {json : Json} (hjson : Faithful jsonBytes json)
    (digest : Binary → Binary) {call : Call} {requestId : RequestId} {maxFrameBytes : ℕ} {frame : Binary}
    (h : enqueueFrame jsonBytes call requestId maxFrameBytes = some frame) :
    Takes json digest (frame.drop 4) maxFrameBytes ↔ Fits call maxFrameBytes := by
  obtain ⟨task, merged, payload, hsent⟩ := sent_of_enqueueFrame h
  obtain ⟨value, hvalue, hdecode⟩ := hjson _ _ hsent.normal hsent.encoded
  obtain ⟨m, hm, rfl⟩ := Option.map_eq_some_iff.mp hvalue
  have hfits := jsonValue?_message hsent.options hsent.distinct hm
  have henvelope := envelope_message hm hsent.identifier
  have hpayload : frame.drop 4 = payload := by
    rw [hsent.frame]
    rfl
  have hsize : (1 ≤ payload.length && payload.length ≤ maxFrameBytes) = true := by
    rw [decide_eq_true hsent.nonempty, decide_eq_true hsent.limit]
    rfl
  have hone : 1 ≤ maxFrameBytes := hsent.nonempty.trans hsent.limit
  rw [hpayload]
  constructor
  · rintro ⟨_, _, hmessage, -⟩
    simp only [decodeMessage, check_bind_eq_ok, hdecode] at hmessage
    obtain ⟨hlimit, -, hvalid, -⟩ := hmessage
    obtain ⟨hlevels, hnodes, hkeys⟩ := hfits.mp hvalid
    exact ⟨hlevels, hnodes, hkeys, of_decide_eq_true (Bool.and_eq_true_iff.mp hlimit).2⟩
  · intro hcall
    have hvalid := hfits.mpr ⟨hcall.levels, hcall.nodes, hcall.keys⟩
    have hlimit : validFrameLimit maxFrameBytes = true := by
      rw [validFrameLimit, decide_eq_true hone, decide_eq_true hcall.limit]
      rfl
    obtain ⟨options, hoptions, hget⟩ := get?_options hm
    obtain ⟨parsed, hparsed⟩ := parse_ok hsent.options.valid hoptions digest
    refine ⟨_, parsed, ?_, by rw [hget]; exact hparsed⟩
    rw [decodeMessage, hlimit, hsize, hdecode, check_true, check_true, ok_bind, ok_bind]
    simp only [hvalid, check_true, ok_bind, henvelope]

namespace Sample

/-- A library that writes one term as one text, and reads it back. -/
def jsonBytes (decoded : Value) (written : Binary) (value : PyValue) : Option Binary :=
  if serverValue value = some decoded then some written else none

def json (decoded : Value) (written : Binary) : Json where
  decode bytes := if bytes = written then some decoded else none
  encode value := if value = decoded then some written else none

theorem faithful (decoded : Value) (written : Binary) : Faithful (jsonBytes decoded written) (json decoded written) := by
  intro value bytes _ h
  rw [jsonBytes] at h
  split at h
  · case isTrue hvalue =>
      obtain rfl := Option.some.inj h
      exact ⟨decoded, hvalue, if_pos rfl⟩
  · cases h

def requestId : RequestId where
  hex := "0123456789abcdef0123456789abcdef"
  digits := by decide +kernel
  size := by decide +kernel

/-- A call of the task `send` with one argument and one option. -/
def callOf (argument : PyValue) (h : argument.distinct = true) : Call where
  task := .str (literal "send")
  args := .mapping [(.str (literal "a"), argument)]
  options := .none
  keywords := [(.str (literal "delay"), .int 3)]
  durability := .none
  argsDistinct := distinct_mapping (List.nodup_singleton _) (Bool.and_eq_true_iff.mpr ⟨h, rfl⟩)
  optionsDistinct := rfl
  keywordsDistinct := by decide +kernel

/-- What the call is on the wire. -/
def decodedOf (argument : Value) : Value :=
  .map [(.str (text "args"), .map [(.str (text "a"), argument)]),
    (.str (text "options"), .map [(.str (text "delay"), .int 3)]),
    (.str (text "request_id"), .str (text requestId.hex)), (.str (text "task"), .str (text "send")),
    (.str (text "type"), .str (text "enqueue")), (.str (text "version"), .int 1)]

def writtenOf (argument : String) : Binary :=
  text ("\x7b\"args\":\x7b\"a\":" ++ argument ++ "\x7d,\"options\":\x7b\"delay\":3\x7d,\"request_id\":\"" ++
    requestId.hex ++ "\",\"task\":\"send\",\"type\":\"enqueue\",\"version\":1\x7d")

def frameOf (argument : String) : Binary := packSize (writtenOf argument).length ++ writtenOf argument

end Sample

/-- A call that fits, with the number seven as its argument. -/
theorem enqueue_agrees_seven :
    Takes (Sample.json (Sample.decodedOf (.int 7)) (Sample.writtenOf "7")) id ((Sample.frameOf "7").drop 4) 1048576 :=
  (@enqueue_agrees _ _ (Sample.faithful _ _) id (Sample.callOf (.int 7) rfl) Sample.requestId 1048576 _
    (by decide +kernel)).mpr ⟨by decide, by decide +kernel, by decide +kernel, by decide⟩

namespace Sample

/-- Lists within lists: as many of them as the SDK admits in an argument. -/
def nested : ℕ → PyValue
  | 0 => .list []
  | n + 1 => .list [nested n]

def nestedValue : ℕ → Value
  | 0 => .list []
  | n + 1 => .list [nestedValue n]

def brackets (n : ℕ) : String := String.ofList (List.replicate (n + 1) '[' ++ List.replicate (n + 1) ']')

end Sample

/-- Thirty-one lists within each other, in the mapping of the arguments, are sent and not taken. -/
theorem enqueue_refused : ¬∀ (jsonBytes : PyValue → Option Binary) (json : Json), Faithful jsonBytes json →
    ∀ (digest : Binary → Binary) (call : Call) (requestId : RequestId) (maxFrameBytes : ℕ) (frame : Binary),
      enqueueFrame jsonBytes call requestId maxFrameBytes = some frame →
        Takes json digest (frame.drop 4) maxFrameBytes := by
  intro h
  obtain ⟨_, _, hmessage, -⟩ := h _ _ (Sample.faithful (Sample.decodedOf (Sample.nestedValue 30))
    (Sample.writtenOf (Sample.brackets 30))) id (Sample.callOf (Sample.nested 30) (by decide +kernel)) Sample.requestId
    1048576 (Sample.frameOf (Sample.brackets 30)) (by decide +kernel)
  have hrefused : (decodeMessage (Sample.json (Sample.decodedOf (Sample.nestedValue 30))
      (Sample.writtenOf (Sample.brackets 30))) ((Sample.frameOf (Sample.brackets 30)).drop 4) 1048576).isOk = false := by
    decide +kernel
  rw [hmessage] at hrefused
  cases hrefused

end Tay.Sdk
