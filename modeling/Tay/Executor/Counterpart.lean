import Tay.Event.Utf8
import Tay.Executor.Portable
import Tay.Executor.Sdk

/-!
# What the server reads of a Python value

The term that a value of a client's program is once its JSON has been decoded, and how the two compare in
what the limits of the protocol count: levels, nodes, and keys that are short enough. The items of a mapping
arrive in the order of the keys, so that nothing here depends on the order they had.

A JSON library that is correct on both sides is a hypothesis.
-/

open Foundation

namespace Tay.Sdk

open Protocol

/-! ## Strings -/

theorem mapM_scalar? {t : Text} {cs : List Char} :
    t.mapM CodePoint.scalar? = some cs ↔ t = cs.map CodePoint.scalar := by
  induction t generalizing cs with
  | nil =>
    rw [List.mapM_nil]
    exact ⟨fun h ↦ (Option.some.inj h) ▸ rfl, fun h ↦ congrArg some (List.map_eq_nil_iff.mp h.symm).symm⟩
  | cons c t ih =>
    rw [List.mapM_cons]
    cases c with
    | surrogate n =>
      refine ⟨fun h ↦ (by cases h), fun h ↦ ?_⟩
      cases cs with
      | nil => cases h
      | cons d ds => cases h
    | scalar c =>
      constructor
      · intro h
        obtain ⟨tail, htail, h⟩ := Option.bind_eq_some_iff.mp (show (t.mapM CodePoint.scalar?).bind _ = _ from h)
        obtain rfl := Option.some.inj h
        exact congrArg (CodePoint.scalar c :: ·) (ih.mp htail)
      · intro h
        cases cs with
        | nil => cases h
        | cons d ds =>
          obtain ⟨hhead, htail⟩ := List.cons.inj h
          obtain rfl := CodePoint.scalar.inj hhead
          exact Option.bind_eq_some_iff.mpr ⟨c, rfl, Option.bind_eq_some_iff.mpr ⟨ds, ih.mpr htail, rfl⟩⟩

/-- A string that encodes is a string of characters. -/
theorem encode_eq_some {t : Text} {bytes : Binary} :
    encode t = some bytes ↔ ∃ s : String, t = literal s ∧ bytes = text s := by
  rw [encode, Option.map_eq_some_iff]
  constructor
  · rintro ⟨cs, hcs, rfl⟩
    exact ⟨String.ofList cs, by rw [literal, String.toList_ofList]; exact mapM_scalar?.mp hcs, rfl⟩
  · rintro ⟨s, rfl, rfl⟩
    exact ⟨s.toList, mapM_scalar?.mpr rfl, by rw [String.ofList_toList]⟩

theorem encode_literal (s : String) : encode (literal s) = some (text s) := encode_eq_some.mpr ⟨s, rfl, rfl⟩

theorem literal_inj {s s' : String} : literal s = literal s' ↔ s = s' := by
  refine ⟨fun h ↦ ?_, fun h ↦ congrArg literal h⟩
  exact text_inj.mp (Option.some.inj (by rw [← encode_literal, ← encode_literal, h]))

theorem encode_eq_text {t : Text} {s : String} : encode t = some (text s) ↔ t = literal s := by
  refine ⟨fun h ↦ ?_, fun h ↦ h ▸ encode_literal s⟩
  obtain ⟨s', rfl, htext⟩ := encode_eq_some.mp h
  rw [text_inj.mp htext]

theorem encode_inj {t t' : Text} {bytes : Binary} (h : encode t = some bytes) (h' : encode t' = some bytes) :
    t = t' := by
  obtain ⟨s, rfl, rfl⟩ := encode_eq_some.mp h
  exact (encode_eq_text.mp h').symm

theorem encode_valid {t : Text} {bytes : Binary} (h : encode t = some bytes) : Value.validUtf8 bytes = true := by
  obtain ⟨s, -, rfl⟩ := encode_eq_some.mp h
  exact validUtf8_text s

theorem encode_nonempty {t : Text} {bytes : Binary} (h : encode t = some bytes) : 1 ≤ bytes.length ↔ t ≠ [] := by
  obtain ⟨s, rfl, rfl⟩ := encode_eq_some.mp h
  rw [Nat.one_le_iff_ne_zero, not_iff_not, List.length_eq_zero_iff]
  exact (@text_inj s "").trans (@literal_inj s "").symm

theorem encode_zero {t : Text} {bytes : Binary} (h : encode t = some bytes) :
    bytes.contains 0 = t.contains (.scalar '\x00') := by
  obtain ⟨s, rfl, rfl⟩ := encode_eq_some.mp h
  rw [Bool.eq_iff_iff, List.contains_iff_mem, List.contains_iff_mem, zero_mem_text, literal, List.mem_map]
  exact ⟨fun h ↦ ⟨_, h, rfl⟩, fun ⟨c, hc, hzero⟩ ↦ CodePoint.scalar.inj hzero ▸ hc⟩

theorem encodesWithin_iff {t : Text} {maximum : ℕ} :
    encodesWithin t maximum = true ↔ ∃ bytes, encode t = some bytes ∧ bytes.length ≤ maximum := by
  rw [encodesWithin, Option.any_eq_true]
  simp only [decide_eq_true_eq]

/-! ## What the server reads -/

/-- The Elixir term that a value's JSON stands for. -/
def serverValue : PyValue → Option Value
  | .none => some .null
  | .bool b => some (.bool b)
  | .int n => some (.int n)
  | .float bits => if isFinite bits then some (.float bits) else none
  | .str t => (encode t).map .str
  | .list items => (serverList items).map .list
  | .mapping entries => (serverEntries entries).map .map
  | .other => none
where
  serverList : List PyValue → Option (List Value)
    | [] => some []
    | item :: rest => do
      let head ← serverValue item
      let tail ← serverList rest
      return head :: tail
  serverEntries : List (Key × PyValue) → Option Message
    | [] => some []
    | (.str key, item) :: rest => do
      let key ← encode key
      let value ← serverValue item
      let message ← serverEntries rest
      return Message.put key value message
    | (.other _, _) :: _ => none

/-- The client's JSON encoder and the server's decoder are correct: of a value that is normalized, the
server reads the term it stands for. -/
def Faithful (jsonBytes : PyValue → Option Binary) (json : Json) : Prop :=
  ∀ value bytes, normalizeJson value 0 = some value → jsonBytes value = some bytes →
    ∃ decoded, serverValue value = some decoded ∧ json.decode bytes = some decoded

namespace PyValue

/-- The levels of a value: a scalar has one. -/
def levels : PyValue → ℕ
  | .list items => 1 + levelsList items
  | .mapping entries => 1 + levelsEntries entries
  | _ => 1
where
  levelsList : List PyValue → ℕ
    | [] => 0
    | head :: tail => max (levels head) (levelsList tail)
  levelsEntries : List (Key × PyValue) → ℕ
    | [] => 0
    | (_, value) :: rest => max (levels value) (levelsEntries rest)

/-- The nodes of a value: keys are not counted. -/
def nodes : PyValue → ℕ
  | .list items => 1 + nodesList items
  | .mapping entries => 1 + nodesEntries entries
  | _ => 1
where
  nodesList : List PyValue → ℕ
    | [] => 0
    | head :: tail => nodes head + nodesList tail
  nodesEntries : List (Key × PyValue) → ℕ
    | [] => 0
    | (_, value) :: rest => nodes value + nodesEntries rest

/-- Every key has at most as many bytes as the server admits. -/
def shortKeys : PyValue → Bool
  | .list items => shortKeysList items
  | .mapping entries => shortKeysEntries entries
  | _ => true
where
  shortKeysList : List PyValue → Bool
    | [] => true
    | head :: tail => shortKeys head && shortKeysList tail
  shortKeysEntries : List (Key × PyValue) → Bool
    | [] => true
    | (.str key, value) :: rest => encodesWithin key maxKeyBytes && shortKeys value && shortKeysEntries rest
    | (.other _, _) :: _ => false

end PyValue

/-! ## Messages -/

theorem get?_cons (e : Value × Value) (m : Message) (name : String) :
    Message.get? (e :: m) name = if e.1 = .str (text name) then some e.2 else Message.get? m name := by
  rw [Message.get?, List.find?_cons]
  by_cases h : e.1 = .str (text name)
  · rw [if_pos h, beq_iff_eq.mpr h]
    rfl
  · rw [if_neg h, beq_eq_false_iff_ne.mpr h]
    rfl

theorem put_str (key s : Binary) (value v : Value) (m : Message) : Message.put key value ((.str s, v) :: m) =
    if s = key then (.str s, value) :: m
    else if key < s then (.str key, value) :: (.str s, v) :: m
    else (.str s, v) :: Message.put key value m := by
  rw [Message.put]
  simp only [beq_iff_eq]

theorem put_other {k : Value} (hk : ∀ s, k ≠ .str s) (key : Binary) (value v : Value) (m : Message) :
    Message.put key value ((k, v) :: m) = (k, v) :: Message.put key value m := by
  cases k with
  | str s => exact absurd rfl (hk s)
  | null | bool | int | float | bytes | list | map | other => rfl

theorem get?_put (key : Binary) (value : Value) (m : Message) (name : String) :
    Message.get? (Message.put key value m) name =
      if key = text name then some value else Message.get? m name := by
  induction m with
  | nil =>
    rw [Message.put, get?_cons]
    simp only [Value.str.injEq]
  | cons e m ih =>
    obtain ⟨k, v⟩ := e
    by_cases hk : ∃ s, k = .str s
    · obtain ⟨s, rfl⟩ := hk
      rw [put_str]
      by_cases hs : s = key
      · rw [if_pos hs, get?_cons, get?_cons, hs]
        by_cases hkey : key = text name
        · rw [if_pos (congrArg Value.str hkey), if_pos hkey]
        · rw [if_neg fun h ↦ hkey (Value.str.inj h), if_neg hkey, if_neg fun h ↦ hkey (Value.str.inj h)]
      · rw [if_neg hs]
        by_cases hlt : key < s
        · rw [if_pos hlt, get?_cons]
          simp only [Value.str.injEq]
        · rw [if_neg hlt, get?_cons, get?_cons, ih]
          by_cases hname : s = text name
          · rw [if_pos (congrArg Value.str hname), if_pos (congrArg Value.str hname),
              if_neg fun h ↦ hs (hname.trans h.symm)]
          · rw [if_neg fun h ↦ hname (Value.str.inj h), if_neg fun h ↦ hname (Value.str.inj h)]
    · have hk : ∀ s, k ≠ .str s := fun s h ↦ hk ⟨s, h⟩
      rw [put_other hk, get?_cons, get?_cons, if_neg (hk _), if_neg (hk _), ih]

/-- A key that is not there is added somewhere. -/
theorem put_perm {key : Binary} {value : Value} {m : Message} (h : ∀ e ∈ m, e.1 ≠ .str key) :
    (Message.put key value m).Perm ((.str key, value) :: m) := by
  induction m with
  | nil => exact List.Perm.refl _
  | cons e m ih =>
    obtain ⟨k, v⟩ := e
    have ih := (ih fun e he ↦ h e (List.mem_cons_of_mem _ he)).cons (k, v)
    by_cases hk : ∃ s, k = .str s
    · obtain ⟨s, rfl⟩ := hk
      rw [put_str, if_neg fun hs ↦ h _ List.mem_cons_self (congrArg Value.str hs)]
      by_cases hlt : key < s
      · rw [if_pos hlt]
      · rw [if_neg hlt]
        exact ih.trans (List.Perm.swap _ _ _)
    · rw [put_other fun s h ↦ hk ⟨s, h⟩]
      exact ih.trans (List.Perm.swap _ _ _)

theorem get?_delete {m : Message} {key name : String} (h : text key ≠ text name) :
    Message.get? (Message.delete m key) name = Message.get? m name := by
  induction m with
  | nil => rfl
  | cons e m ih =>
    rw [Message.delete, List.filter_cons]
    by_cases hkey : e.1 = .str (text key)
    · rw [if_neg (by rw [hkey, bne_self_eq_false]; decide), get?_cons, hkey,
        if_neg fun he ↦ h (Value.str.inj he)]
      exact ih
    · rw [if_pos (bne_iff_ne.mpr hkey), get?_cons, get?_cons]
      exact congrArg (ite _ _) ih

/-! ## The message of a mapping -/

theorem serverEntries_cons {key : Text} {item : PyValue} {rest : Entries} {m : Message} :
    serverValue.serverEntries ((.str key, item) :: rest) = some m ↔
      ∃ bytes value message, encode key = some bytes ∧ serverValue item = some value ∧
        serverValue.serverEntries rest = some message ∧ m = Message.put bytes value message := by
  rw [serverValue.serverEntries]
  simp only [Option.bind_eq_bind, Option.bind_eq_some_iff, Option.pure_def, Option.some.injEq]
  constructor
  · rintro ⟨bytes, hbytes, value, hvalue, message, hmessage, rfl⟩
    exact ⟨bytes, value, message, hbytes, hvalue, hmessage, rfl⟩
  · rintro ⟨bytes, value, message, hbytes, hvalue, hmessage, rfl⟩
    exact ⟨bytes, hbytes, value, hvalue, message, hmessage, rfl⟩

/-- The induction over what a mapping is read as. -/
theorem serverEntries_induction {motive : Entries → Message → Prop} (hnil : motive [] [])
    (hcons : ∀ key item rest bytes value message, encode key = some bytes → serverValue item = some value →
      serverValue.serverEntries rest = some message → motive rest message →
      motive ((.str key, item) :: rest) (Message.put bytes value message))
    {entries : Entries} {m : Message} (h : serverValue.serverEntries entries = some m) : motive entries m := by
  induction entries generalizing m with
  | nil =>
    obtain rfl := Option.some.inj h
    exact hnil
  | cons e rest ih =>
    obtain ⟨key, item⟩ := e
    cases key with
    | other n => cases h
    | str key =>
      obtain ⟨bytes, value, message, hbytes, hvalue, hmessage, rfl⟩ := serverEntries_cons.mp h
      exact hcons key item rest bytes value message hbytes hvalue hmessage (ih hmessage)

theorem find?_cons (e : Key × PyValue) (entries : Entries) (name : String) :
    Entries.find? (e :: entries) name =
      if e.1 = .str (literal name) then some e.2 else Entries.find? entries name := by
  rw [Entries.find?, List.find?_cons]
  by_cases h : e.1 = .str (literal name)
  · rw [if_pos h, beq_iff_eq.mpr h]
    rfl
  · rw [if_neg h, beq_eq_false_iff_ne.mpr h]
    rfl

/-- A field of the message is the server's reading of the item with that key. -/
theorem get?_serverEntries {entries : Entries} {m : Message} (h : serverValue.serverEntries entries = some m)
    (name : String) : Message.get? m name = (entries.find? name).bind serverValue := by
  refine serverEntries_induction
    (motive := fun entries m ↦ Message.get? m name = (entries.find? name).bind serverValue) rfl ?_ h
  intro key item rest bytes value message hbytes hvalue _ ih
  rw [get?_put, find?_cons]
  by_cases hname : key = literal name
  · rw [if_pos (Option.some.inj (hbytes.symm.trans (encode_eq_text.mpr hname))), if_pos (congrArg Key.str hname)]
    exact hvalue.symm
  · rw [if_neg fun hb ↦ hname (encode_eq_text.mp (hbytes.trans (congrArg some hb))),
      if_neg fun hk ↦ hname (Key.str.inj hk), ih]

/-- Every key of the message is one of the mapping. -/
theorem mem_serverEntries {entries : Entries} {m : Message} (h : serverValue.serverEntries entries = some m) :
    ∀ e ∈ m, ∃ key bytes, e.1 = .str bytes ∧ encode key = some bytes ∧ .str key ∈ entries.map Prod.fst := by
  refine serverEntries_induction (motive := fun entries m ↦
    ∀ e ∈ m, ∃ key bytes, e.1 = .str bytes ∧ encode key = some bytes ∧ .str key ∈ entries.map Prod.fst) ?_ ?_ h
  · intro e he
    cases he
  · intro key item rest bytes value message hbytes _ _ ih e he
    rcases Message.mem_put he with he | rfl
    · obtain ⟨key', bytes', hkey, hencode, hmem⟩ := ih e he
      exact ⟨key', bytes', hkey, hencode, List.mem_cons_of_mem _ hmem⟩
    · exact ⟨key, bytes, rfl, hbytes, List.mem_cons_self⟩

/-! ## Sizes -/

/-- A value and what the server reads of it, or a part of both: they are as high, have as many nodes, and the
server finds the one portable exactly if the other has short keys. -/
structure Alike (height count height' count' : ℕ) (short portable : Bool) : Prop where
  levels : height' = height
  nodes : count' = count
  portable : portable = short

theorem reflexive_of_isFinite {bits : UInt64} (h : isFinite bits = true) : reflexive bits = true := by
  rw [isFinite, bne_iff_ne] at h
  rw [reflexive, beq_eq_false_iff_ne.mpr h]
  rfl

theorem alike_entries_cons {key : Text} {item : PyValue} {rest : Entries} {bytes : Binary} {value : Value}
    {message : Message} (hkey : encode key = some bytes) (hfresh : .str key ∉ rest.map Prod.fst)
    (hmessage : serverValue.serverEntries rest = some message)
    (hitem : Alike item.levels item.nodes (levels value) (nodes value) item.shortKeys (portable value))
    (hrest : Alike (PyValue.levels.levelsEntries rest) (PyValue.nodes.nodesEntries rest)
      (levels.levelsMap message) (nodes.nodesMap message) (PyValue.shortKeys.shortKeysEntries rest)
      (portable.portableMap message)) :
    Alike (PyValue.levels.levelsEntries ((.str key, item) :: rest))
      (PyValue.nodes.nodesEntries ((.str key, item) :: rest)) (levels.levelsMap (Message.put bytes value message))
      (nodes.nodesMap (Message.put bytes value message)) (PyValue.shortKeys.shortKeysEntries ((.str key, item) :: rest))
      (portable.portableMap (Message.put bytes value message)) := by
  have hperm : (Message.put bytes value message).Perm ((.str bytes, value) :: message) := by
    refine put_perm fun e he hbytes ↦ ?_
    obtain ⟨key', bytes', he, hencode, hmem⟩ := mem_serverEntries hmessage e he
    obtain rfl := Value.str.inj (he.symm.trans hbytes)
    exact hfresh (encode_inj hencode hkey ▸ hmem)
  have hshort : validKey (.str bytes) = encodesWithin key maxKeyBytes := by
    rw [validKey, encode_valid hkey, Bool.true_and, encodesWithin, hkey]
    rfl
  constructor
  · rw [levelsMap_perm hperm, levels.levelsMap, PyValue.levels.levelsEntries, hitem.levels, hrest.levels]
  · rw [nodesMap_perm hperm, nodes.nodesMap, PyValue.nodes.nodesEntries, hitem.nodes, hrest.nodes]
  · rw [portableMap_perm hperm, portable.portableMap, PyValue.shortKeys.shortKeysEntries, hitem.portable,
      hrest.portable, hshort]

mutual

theorem alike {v : PyValue} {value : Value} (hdistinct : v.distinct = true) (h : serverValue v = some value) :
    Alike v.levels v.nodes (levels value) (nodes value) v.shortKeys (portable value) := by
  match v with
  | .none | .bool _ | .int _ =>
    obtain rfl := Option.some.inj h
    exact ⟨rfl, rfl, rfl⟩
  | .float bits =>
    rw [serverValue] at h
    by_cases hfinite : isFinite bits = true
    · rw [if_pos hfinite] at h
      obtain rfl := Option.some.inj h
      exact ⟨rfl, rfl, reflexive_of_isFinite hfinite⟩
    · rw [if_neg hfinite] at h
      cases h
  | .str t =>
    obtain ⟨bytes, hbytes, rfl⟩ := Option.map_eq_some_iff.mp h
    exact ⟨rfl, rfl, encode_valid hbytes⟩
  | .list items =>
    obtain ⟨values, hvalues, rfl⟩ := Option.map_eq_some_iff.mp h
    have hitems := alikeList hdistinct hvalues
    exact ⟨congrArg (1 + ·) hitems.levels, congrArg (1 + ·) hitems.nodes, hitems.portable⟩
  | .mapping entries =>
    obtain ⟨message, hmessage, rfl⟩ := Option.map_eq_some_iff.mp h
    obtain ⟨hkeys, hdistinct⟩ := Bool.and_eq_true_iff.mp hdistinct
    have hentries := alikeEntries (of_decide_eq_true hkeys) hdistinct hmessage
    exact ⟨congrArg (1 + ·) hentries.levels, congrArg (1 + ·) hentries.nodes, hentries.portable⟩
  | .other => cases h

theorem alikeList {items : List PyValue} {values : List Value}
    (hdistinct : PyValue.distinct.distinctList items = true) (h : serverValue.serverList items = some values) :
    Alike (PyValue.levels.levelsList items) (PyValue.nodes.nodesList items) (levels.levelsList values)
      (nodes.nodesList values) (PyValue.shortKeys.shortKeysList items) (portable.portableList values) := by
  match items with
  | [] =>
    obtain rfl := Option.some.inj h
    exact ⟨rfl, rfl, rfl⟩
  | item :: rest =>
    obtain ⟨hitem, hrest⟩ := Bool.and_eq_true_iff.mp hdistinct
    obtain ⟨head, hhead, h⟩ := Option.bind_eq_some_iff.mp h
    obtain ⟨tail, htail, h⟩ := Option.bind_eq_some_iff.mp h
    obtain rfl := Option.some.inj h
    have hitem := alike hitem hhead
    have hrest := alikeList hrest htail
    exact ⟨congrArg₂ max hitem.levels hrest.levels, congrArg₂ (· + ·) hitem.nodes hrest.nodes,
      congrArg₂ (· && ·) hitem.portable hrest.portable⟩

theorem alikeEntries {entries : Entries} {message : Message} (hkeys : (entries.map Prod.fst).Nodup)
    (hdistinct : PyValue.distinct.distinctEntries entries = true)
    (h : serverValue.serverEntries entries = some message) :
    Alike (PyValue.levels.levelsEntries entries) (PyValue.nodes.nodesEntries entries) (levels.levelsMap message)
      (nodes.nodesMap message) (PyValue.shortKeys.shortKeysEntries entries) (portable.portableMap message) := by
  match entries with
  | [] =>
    obtain rfl := Option.some.inj h
    exact ⟨rfl, rfl, rfl⟩
  | (.other _, _) :: _ => cases h
  | (.str key, item) :: rest =>
    obtain ⟨bytes, value, message, hbytes, hvalue, hmessage, rfl⟩ := serverEntries_cons.mp h
    obtain ⟨hfresh, hkeys⟩ := List.nodup_cons.mp hkeys
    obtain ⟨hitem, hrest⟩ := Bool.and_eq_true_iff.mp hdistinct
    exact alike_entries_cons hbytes hfresh hmessage (alike hitem hvalue) (alikeEntries hkeys hrest hmessage)

end

end Tay.Sdk
