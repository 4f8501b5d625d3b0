import Tay.Storage.Segment

/-!
# Scanning what was written

The parser on the bytes of a segment: a header, records numbered from the first sequence on, and perhaps
a footer. One turn of the loop takes one whole record, so that a scan of a file walks over the records
that are whole and then stands before what is left: nothing, a footer, or the beginning of a record or of
a footer that was cut. What is left decides the answer, and nothing that was cut is accepted.
-/

open Foundation

namespace Tay.Physical

open CRC32C (checked)

/-! ## Files -/

/-- Records that can be written, numbered one by one. -/
def Numbered : ℕ → List Record → Prop
  | _, [] => True
  | n, r :: rest => r.Valid ∧ r.sequence = n ∧ Numbered (n + 1) rest

theorem numbered_append {n : ℕ} {first rest : List Record} :
    Numbered n (first ++ rest) ↔ Numbered n first ∧ Numbered (n + first.length) rest := by
  induction first generalizing n with
  | nil => simp [Numbered]
  | cons r first ih =>
    rw [List.cons_append, Numbered, Numbered, ih, List.length_cons, and_assoc, and_assoc,
      Nat.add_right_comm, Nat.add_assoc]

/-- The bytes of the records. -/
def recordBytes (records : List Record) : Binary := (records.map Record.wire).flatten

/-- A segment that is still open. -/
def openBytes (h : Header) (records : List Record) : Binary := checked h.body ++ recordBytes records

/-- The footer of a segment with these records. -/
def footerOf (h : Header) (records : List Record) : Footer where
  id := h.id
  firstSequence := h.firstSequence
  lastSequence := h.firstSequence + records.length - 1
  count := records.length
  storeId := h.storeId
  segmentCrc := (CRC32C.checksum (openBytes h records)).getD 0

/-- A segment that is sealed. -/
def sealedBytes (h : Header) (records : List Record) : Binary :=
  openBytes h records ++ checked (footerOf h records).body

theorem recordBytes_append (first rest : List Record) :
    recordBytes (first ++ rest) = recordBytes first ++ recordBytes rest := by
  rw [recordBytes, List.map_append, List.flatten_append]
  rfl

theorem openBytes_append (h : Header) (first rest : List Record) :
    openBytes h (first ++ rest) = openBytes h first ++ recordBytes rest := by
  rw [openBytes, recordBytes_append, ← List.append_assoc]
  rfl

theorem recordBytes_singleton (r : Record) : recordBytes [r] = r.wire := by
  rw [recordBytes, List.map_singleton, List.flatten_singleton]

/-- A record takes at least twenty-eight bytes. -/
theorem length_recordBytes_ge (records : List Record) :
    28 * records.length ≤ (recordBytes records).length := by
  induction records with
  | nil => exact Nat.zero_le _
  | cons r rest ih =>
    have hcons : recordBytes (r :: rest) = r.wire ++ recordBytes rest := rfl
    rw [hcons, List.length_append, r.length_wire, List.length_cons]
    omega

/-- The segment of a scan that has seen these records. -/
def scanned (h : Header) (records : List Record) : Segment where
  id := h.id
  firstSequence := h.firstSequence
  storeId := h.storeId
  lastSequence := if records = [] then none else some (h.firstSequence + records.length - 1)
  crcState := CRC32C.update CRC32C.initial (openBytes h records)
  count := records.length
  bytes := (openBytes h records).length

/-- One record more. -/
theorem scanned_append (h : Header) (records : List Record) (r : Record) :
    scanned h (records ++ [r]) = { scanned h records with
      lastSequence := some (h.firstSequence + records.length)
      count := (scanned h records).count + 1
      bytes := (scanned h records).bytes + r.wire.length
      crcState := (scanned h records).crcState.bind (CRC32C.update · r.wire) } := by
  simp only [scanned, openBytes_append, recordBytes_singleton, CRC32C.update_append,
    List.length_append, List.length_singleton, List.append_eq_nil_iff, List.cons_ne_self, and_false,
    if_false]
  rfl

/-! ## One turn -/

section Turn

variable {h : Header} {records : List Record} {ctx : Context} (acc : List Record)

/-- What a scan that has seen the records reads next. -/
theorem readAt_rest {bytes rest : Binary} (hsees : ctx.Sees bytes)
    (hbytes : bytes = openBytes h records ++ rest) (limit : ℕ) :
    ∃ ctx', readAt ctx (scanned h records).bytes limit = .ok (rest.take limit, ctx') ∧
      ctx'.Sees bytes ∧ ctx'.options = ctx.options ∧ ctx'.id = ctx.id := by
  obtain ⟨ctx', hread, hrest⟩ := readAt_sees hsees (scanned h records).bytes limit
  refine ⟨ctx', ?_, hrest⟩
  have hdrop : bytes.drop (scanned h records).bytes = rest := by
    rw [hbytes]
    exact List.drop_left
  rw [hread, slice, hdrop]

/-- A whole record is taken. -/
theorem next_record {bytes rest : Binary} {r : Record} (hsees : ctx.Sees bytes)
    (hbytes : bytes = openBytes h records ++ (r.wire ++ rest)) (hr : r.Valid)
    (hsequence : r.sequence = h.firstSequence + records.length) (hcount : records.length < maxCount)
    (hlimit : r.payload.length ≤ ctx.options.maxDecodePayloadBytes) :
    ∃ ctx', next collect ctx (scanned h records) acc =
        .more ctx' (scanned h (records ++ [r])) (acc ++ [r]) ∧
      ctx'.Sees bytes ∧ ctx'.options = ctx.options ∧ ctx'.id = ctx.id := by
  obtain ⟨ctx₁, hfour, hsees₁, hoptions₁, hid₁⟩ := readAt_rest hsees hbytes 4
  obtain ⟨ctx₂, hheader, hsees₂, hoptions₂, hid₂⟩ := readAt_rest hsees₁ hbytes 24
  obtain ⟨ctx₃, hwhole, hsees₃, hoptions₃, hid₃⟩ := readAt_rest hsees₂ hbytes r.wire.length
  have hmagic : (r.wire ++ rest).take 4 = recordMagic := rfl
  have hhead : (r.wire ++ rest).take 24 = r.wire.take 24 := by
    rw [List.take_append_of_le_length]
    rw [r.length_wire]
    omega
  have hall : (r.wire ++ rest).take r.wire.length = r.wire := List.take_left
  rw [hmagic] at hfour
  rw [hhead] at hheader
  rw [hall] at hwhole
  have hlimit₂ : r.payload.length ≤ ctx₂.options.maxDecodePayloadBytes := by
    rwa [hoptions₂, hoptions₁]
  have hlimit₃ : r.payload.length ≤ ctx₃.options.maxDecodePayloadBytes := by
    rwa [hoptions₃]
  have hlong : 24 < r.wire.length := by
    rw [r.length_wire]
    omega
  obtain ⟨stage, metadata, hcut, hlength⟩ := hr.decode_cut hlimit₂ (le_refl 24) hlong
  have hdecoded : decode r.wire ctx₃.options.maxDecodePayloadBytes = .ok r [] := by
    have hwire := hr.decode_wire hlimit₃ []
    rwa [List.append_nil] at hwire
  refine ⟨ctx₃, ?_, hsees₃, by rw [hoptions₃, hoptions₂, hoptions₁], by rw [hid₃, hid₂, hid₁]⟩
  have hempty : recordMagic ≠ [] := by decide
  have hfooter : recordMagic ≠ footerMagic := by decide
  have hnumber : ¬r.sequence ≠ (scanned h records).firstSequence + (scanned h records).count :=
    not_not.mpr hsequence
  have hroom : ¬maxCount ≤ (scanned h records).count := Nat.not_le.mpr hcount
  rw [next, hfour]
  dsimp only
  rw [if_neg hempty, if_neg hfooter, if_pos rfl, record, hheader]
  dsimp only
  rw [hcut]
  dsimp only
  rw [hlength, hwhole]
  dsimp only
  rw [hdecoded, acceptRecord]
  dsimp only
  rw [if_neg hnumber, if_neg hroom, scanned_append, ← hsequence]
  rfl

/-! ### Where a scan ends -/

/-- Nothing is left: the segment is open, if it may be. -/
theorem next_end (hsees : ctx.Sees (openBytes h records)) (hhighest : ctx.options.highest = true)
    (hsize : (openBytes h records).length + 64 ≤ maxBytes) :
    next collect ctx (scanned h records) acc = .stop (.ok (scanned h records) acc) := by
  have hbytes : openBytes h records = openBytes h records ++ [] := (List.append_nil _).symm
  obtain ⟨ctx', hfour, hsees', hoptions, -⟩ := readAt_rest hsees hbytes 4
  have hroom : ¬maxBytes - 64 < ctx'.size := by
    rw [hsees'.size]
    omega
  rw [next, hfour]
  dsimp only
  rw [List.take_nil, if_pos rfl, hoptions, hhighest, if_neg (by decide), if_neg hroom]
  rfl

/-- Nothing is left, and another segment follows this one. -/
theorem next_end_earlier (hsees : ctx.Sees (openBytes h records))
    (hhighest : ctx.options.highest = false) :
    ∃ failure, next collect ctx (scanned h records) acc = .stop (.error failure) := by
  have hbytes : openBytes h records = openBytes h records ++ [] := (List.append_nil _).symm
  obtain ⟨ctx', hfour, -, hoptions, -⟩ := readAt_rest hsees hbytes 4
  rw [next, hfour]
  dsimp only
  rw [List.take_nil, if_pos rfl, hoptions, hhighest, if_pos (by decide)]
  exact ⟨_, rfl⟩

/-- A few bytes that begin a record or a footer. -/
theorem next_short {unit : Binary} {n : ℕ} (hn : 0 < n) (hfour : n < 4)
    (hunit : unit.take 3 = recordMagic.take 3) (hlong : 4 ≤ unit.length)
    (hsees : ctx.Sees (openBytes h records ++ unit.take n)) :
    ∃ failure, next collect ctx (scanned h records) acc = .stop (.error failure) := by
  obtain ⟨ctx', hread, -, -, -⟩ := readAt_rest hsees rfl 4
  have htake : (unit.take n).take 4 = unit.take n :=
    List.take_of_length_le (by rw [List.length_take]; omega)
  have hlength : (unit.take n).length = n := by
    rw [List.length_take]
    omega
  have hempty : unit.take n ≠ [] := by
    intro hnil
    rw [hnil] at hlength
    exact absurd hlength (by rw [List.length_nil]; omega)
  have hne (magic : Binary) (hmagic : magic.length = 4) : unit.take n ≠ magic := by
    intro heq
    rw [heq, hmagic] at hlength
    omega
  have hbegins : unit.take n = (recordMagic.take 3).take n := by
    rw [← hunit, List.take_take, Nat.min_eq_left (by omega)]
  have htest : (decide ((unit.take n).length < 4) &&
      unit.take n == (recordMagic.take 3).take (unit.take n).length) = true := by
    rw [hlength, decide_eq_true hfour, Bool.true_and, beq_iff_eq]
    exact hbegins
  rw [next, hread]
  dsimp only
  rw [htake, if_neg hempty, if_neg (hne footerMagic rfl), if_neg (hne recordMagic rfl), if_pos htest]
  exact ⟨_, rfl⟩

/-- A record that is cut after its magic. -/
theorem next_cut_record {r : Record} {n : ℕ} (hr : r.Valid) (hn : 4 ≤ n) (hlt : n < r.wire.length)
    (hlimit : r.payload.length ≤ ctx.options.maxDecodePayloadBytes)
    (hsees : ctx.Sees (openBytes h records ++ r.wire.take n)) :
    ∃ failure, next collect ctx (scanned h records) acc = .stop (.error failure) := by
  obtain ⟨ctx₁, hfour, hsees₁, hoptions₁, -⟩ := readAt_rest hsees rfl 4
  obtain ⟨ctx₂, hheader, hsees₂, hoptions₂, -⟩ := readAt_rest hsees₁ rfl 24
  have hmagic : (r.wire.take n).take 4 = recordMagic := by
    rw [List.take_take, Nat.min_eq_left hn]
    rfl
  have hempty : recordMagic ≠ [] := by decide
  have hfooter : recordMagic ≠ footerMagic := by decide
  rw [hmagic] at hfour
  rw [next, hfour]
  dsimp only
  rw [if_neg hempty, if_neg hfooter, if_pos rfl, record, hheader]
  dsimp only
  by_cases hhead : n < 24
  · have htake : (r.wire.take n).take 24 = r.wire.take n :=
      List.take_of_length_le (by rw [List.length_take]; omega)
    rw [htake, hr.decode_cut_header _ hhead]
    exact ⟨_, rfl⟩
  · have hlimit₂ : r.payload.length ≤ ctx₂.options.maxDecodePayloadBytes := by
      rwa [hoptions₂, hoptions₁]
    have hlong : 24 < r.wire.length := by
      rw [r.length_wire]
      omega
    have htake : (r.wire.take n).take 24 = r.wire.take 24 := by
      rw [List.take_take, Nat.min_eq_left (by omega)]
    obtain ⟨stage, metadata, hcut, hlength⟩ := hr.decode_cut hlimit₂ (le_refl 24) hlong
    obtain ⟨ctx₃, hwhole, -, hoptions₃, -⟩ := readAt_rest hsees₂ rfl r.wire.length
    have hrest : (r.wire.take n).take r.wire.length = r.wire.take n :=
      List.take_of_length_le (by rw [List.length_take]; omega)
    have hlimit₃ : r.payload.length ≤ ctx₃.options.maxDecodePayloadBytes := by
      rwa [hoptions₃]
    obtain ⟨stage', metadata', hcut', -⟩ := hr.decode_cut hlimit₃ (Nat.not_lt.mp hhead) hlt
    rw [htake, hcut]
    dsimp only
    rw [hlength, hwhole]
    dsimp only
    rw [hrest, hcut']
    exact ⟨_, rfl⟩

/-- A footer that is cut after its magic. -/
theorem next_cut_footer {f : Footer} {n : ℕ} (hf : f.Valid) (hn : 4 ≤ n) (hlt : n < 64)
    (hsees : ctx.Sees (openBytes h records ++ (checked f.body).take n)) :
    ∃ failure, next collect ctx (scanned h records) acc = .stop (.error failure) := by
  obtain ⟨ctx', hfour, hsees', -, -⟩ := readAt_rest hsees rfl 4
  have hmagic : ((checked f.body).take n).take 4 = footerMagic := by
    rw [List.take_take, Nat.min_eq_left hn]
    rfl
  have hempty : footerMagic ≠ [] := by decide
  have hremaining : ctx'.size - (scanned h records).bytes < 64 := by
    have hlength := hf.length_wire
    rw [hsees'.size, List.length_append, List.length_take, hlength]
    show (openBytes h records).length + min n 64 - (openBytes h records).length < 64
    omega
  rw [hmagic] at hfour
  rw [next, hfour]
  dsimp only
  rw [if_neg hempty, if_pos rfl, finish, if_pos hremaining]
  exact ⟨_, rfl⟩

/-- A whole footer. -/
theorem next_footer (hsees : ctx.Sees (sealedBytes h records)) (hrecords : records ≠ [])
    (hf : (footerOf h records).Valid) :
    next collect ctx (scanned h records) acc = .stop (.ok { scanned h records with
      sealed := true, footer := some (footerOf h records), bytes := (sealedBytes h records).length } acc) := by
  obtain ⟨ctx', hfour, hsees', -, -⟩ := readAt_rest hsees rfl 4
  obtain ⟨ctx'', hwhole, hsees'', -, -⟩ := readAt_rest hsees' rfl 64
  have hlength := hf.length_wire
  have hmagic : (checked (footerOf h records).body).take 4 = footerMagic := rfl
  have hall : (checked (footerOf h records).body).take 64 = checked (footerOf h records).body :=
    List.take_of_length_le (Nat.le_of_eq hlength)
  have hempty : footerMagic ≠ [] := by decide
  have hsize : ctx'.size - (scanned h records).bytes = 64 := by
    rw [hsees'.size, sealedBytes, List.length_append, hlength]
    show (openBytes h records).length + 64 - (openBytes h records).length = 64
    omega
  have hcrc : (scanned h records).crcState.bind CRC32C.finalize =
      some (footerOf h records).segmentCrc := by
    show CRC32C.checksum (openBytes h records) = some ((CRC32C.checksum (openBytes h records)).getD 0)
    rw [CRC32C.checksum_eq]
    rfl
  have hlast : (scanned h records).lastSequence = some (footerOf h records).lastSequence :=
    if_neg hrecords
  have hdecoded : decodeFooter (checked (footerOf h records).body) (scanned h records).id
      (scanned h records).firstSequence (scanned h records).storeId (scanned h records).count
      (some (footerOf h records).lastSequence) (some (footerOf h records).segmentCrc) =
        .ok (footerOf h records) := hf.decode_wire
  rw [hmagic] at hfour
  rw [hall] at hwhole
  rw [next, hfour]
  dsimp only
  rw [if_neg hempty, if_pos rfl, finish, hsize, if_neg (by omega), if_neg (by omega), hwhole]
  dsimp only
  rw [hcrc, hlast, hdecoded]
  dsimp only
  rw [hsees''.size]

end Turn

/-! ## A whole scan -/

/-- What a file with these records asks of the options. -/
structure Options.Admit (options : Options) (h : Header) (records : List Record) : Prop where
  valid : validOptions? options = true
  id : ∀ e ∈ options.id, e = h.id
  storeId : ∀ e ∈ options.storeId, e = h.storeId
  payload : ∀ r ∈ records, r.payload.length ≤ options.maxDecodePayloadBytes

/-- A segment that the writer can have written: a header, numbered records, and room for a footer. -/
structure Written (h : Header) (records : List Record) : Prop where
  header : h.Valid
  numbered : Numbered h.firstSequence records
  size : (openBytes h records).length + 64 ≤ maxBytes

theorem Written.length {h : Header} {records : List Record} (hw : Written h records) :
    (openBytes h records).length = 44 + (recordBytes records).length := by
  rw [openBytes, List.length_append, hw.header.length_wire]

theorem Written.length_nil {h : Header} {records : List Record} (hw : Written h records) :
    (openBytes h []).length = 44 := by
  have hempty : openBytes h [] = checked h.body := List.append_nil _
  rw [hempty, hw.header.length_wire]

/-- There are never more records than a footer can count. -/
theorem Written.count {h : Header} {records : List Record} (hw : Written h records) :
    records.length ≤ maxCount := by
  have hsize := hw.size
  have hrecords := length_recordBytes_ge records
  rw [hw.length] at hsize
  unfold maxBytes at hsize
  unfold maxCount
  omega

theorem Written.take {h : Header} {records : List Record} (hw : Written h records) (k : ℕ) :
    Written h (records.take k) := by
  have hsplit := List.take_append_drop k records
  have hnumbered := hw.numbered
  have hsize := hw.size
  rw [← hsplit, numbered_append] at hnumbered
  rw [← hsplit, openBytes_append, List.length_append] at hsize
  exact ⟨hw.header, hnumbered.1, by omega⟩

theorem Options.Admit.take {options : Options} {h : Header} {records : List Record}
    (ha : options.Admit h records) (k : ℕ) : options.Admit h (records.take k) :=
  ⟨ha.valid, ha.id, ha.storeId, fun r hr ↦ ha.payload r (List.mem_of_mem_take hr)⟩

/-- The loop takes the whole records one by one. -/
theorem loop_records {h : Header} {bytes rest : Binary} (fuel : ℕ) (todo : List Record) :
    ∀ (records acc : List Record) {ctx : Context}, ctx.Sees bytes →
      bytes = openBytes h (records ++ todo) ++ rest →
      Numbered (h.firstSequence + records.length) todo → (records ++ todo).length ≤ maxCount →
      (∀ r ∈ todo, r.payload.length ≤ ctx.options.maxDecodePayloadBytes) →
      ∃ ctx', loop collect (fuel + todo.length) ctx (scanned h records) acc =
          loop collect fuel ctx' (scanned h (records ++ todo)) (acc ++ todo) ∧
        ctx'.Sees bytes ∧ ctx'.options = ctx.options := by
  induction todo with
  | nil =>
    intro records acc ctx hsees _ _ _ _
    refine ⟨ctx, ?_, hsees, rfl⟩
    rw [List.append_nil, List.append_nil, List.length_nil, Nat.add_zero]
  | cons r todo ih =>
    intro records acc ctx hsees hbytes hnumbered hcount hlimit
    obtain ⟨hr, hsequence, hrest⟩ := hnumbered
    have hsplit : records ++ r :: todo = records ++ [r] ++ todo := by rw [List.append_assoc]; rfl
    have hhere : bytes = openBytes h records ++ (r.wire ++ (recordBytes todo ++ rest)) := by
      rw [hbytes, hsplit, openBytes_append, openBytes_append, recordBytes_singleton]
      simp only [List.append_assoc]
    have hroom : records.length < maxCount := by
      rw [List.length_append, List.length_cons] at hcount
      omega
    obtain ⟨ctx₁, hnext, hsees₁, hoptions₁, -⟩ := next_record acc hsees hhere hr hsequence hroom
      (hlimit r List.mem_cons_self)
    rw [hsplit] at hbytes hcount
    have hnumbered : Numbered (h.firstSequence + (records ++ [r]).length) todo := by
      rw [List.length_append, List.length_singleton, ← Nat.add_assoc]
      exact hrest
    obtain ⟨ctx₂, hloop, hsees₂, hoptions₂⟩ := ih (records ++ [r]) (acc ++ [r]) hsees₁ hbytes hnumbered hcount
      fun r' hr' ↦ by rw [hoptions₁]; exact hlimit r' (List.mem_cons_of_mem r hr')
    refine ⟨ctx₂, ?_, hsees₂, by rw [hoptions₂, hoptions₁]⟩
    rw [List.length_cons, ← Nat.add_assoc, loop, hnext]
    dsimp only
    rw [hloop, hsplit, List.append_assoc acc]
    rfl

/-- A scan of whole records with something after them stands before what is after them. -/
theorem parse_records {h : Header} {records : List Record} {rest : Binary} {options : Options}
    (hw : Written h records) (ha : options.Admit h records)
    (hsize : (openBytes h records ++ rest).length ≤ maxBytes) {P : Scan (List Record) → Prop}
    (hscan : ∀ ctx : Context, ctx.Sees (openBytes h records ++ rest) → ctx.options = options →
      ∃ scan, next collect ctx (scanned h records) records = .stop scan ∧ P scan) :
    ∃ scan, parse (openBytes h records ++ rest) options = some scan ∧ P scan := by
  have hlength : (openBytes h records ++ rest).length = 44 + (recordBytes records).length + rest.length := by
    rw [List.length_append, hw.length]
  have hheader : (binaryPart (openBytes h records ++ rest) 0
      (min (openBytes h records ++ rest).length 44)) = .ok (checked h.body) := by
    have hfirst : (openBytes h records ++ rest).take 44 = checked h.body := by
      rw [openBytes, List.append_assoc]
      exact List.take_left' hw.header.length_wire
    rw [binaryPart, List.drop_zero, Nat.min_eq_right (by omega), hfirst]
  let ctx : Context :=
    ⟨binaryPart (openBytes h records ++ rest), (openBytes h records ++ rest).length, options, options.id,
      0, []⟩
  have hread : readExact ctx 0 (min (openBytes h records ++ rest).length 44) =
      .ok (checked h.body) := by
    refine bind_eq_ok.mpr ⟨checked h.body, hheader, check_bind_eq_ok.mpr ⟨?_, rfl⟩⟩
    rw [hw.header.length_wire, beq_iff_eq]
    omega
  have hsees : Context.Sees { ctx with id := some h.id } (openBytes h records ++ rest) := ⟨rfl, rfl, rfl⟩
  have hrecords := length_recordBytes_ge records
  have hfuel : (openBytes h records ++ rest).length + 1 =
      (openBytes h records ++ rest).length - records.length + 1 + records.length := by omega
  obtain ⟨ctx', hloop, hsees', hoptions'⟩ := loop_records
    ((openBytes h records ++ rest).length - records.length + 1) records [] [] hsees rfl hw.numbered
    hw.count ha.payload
  have hstart : scanned h [] = { id := h.id, firstSequence := h.firstSequence, storeId := h.storeId
                                 crcState := CRC32C.update CRC32C.initial (checked h.body) } := by
    have hempty : openBytes h [] = checked h.body := List.append_nil _
    rw [scanned, hempty, hw.header.length_wire]
    rfl
  obtain ⟨scan, hnext, hP⟩ := hscan ctx' hsees' hoptions'
  refine ⟨scan, ?_, hP⟩
  rw [parse, run, if_pos ha.valid]
  dsimp only
  rw [hread]
  dsimp only
  rw [start, hw.header.decode_wire ha.id ha.storeId]
  dsimp only
  rw [if_neg (Nat.not_lt.mpr hsize), ← hstart, hfuel, hloop, List.nil_append, loop, hnext]

/-- An open segment that is the highest is read back. -/
theorem parse_open {h : Header} {records : List Record} {options : Options} (hw : Written h records)
    (ha : options.Admit h records) (hhighest : options.highest = true) :
    parse (openBytes h records) options = some (.ok (scanned h records) records) := by
  have hsize := hw.size
  have hnil : openBytes h records ++ [] = openBytes h records := List.append_nil _
  have hfits : (openBytes h records ++ []).length ≤ maxBytes := by
    rw [hnil]
    omega
  obtain ⟨scan, hparse, rfl⟩ := parse_records hw ha hfits fun ctx hsees hoptions ↦ by
    rw [hnil] at hsees
    have hhigh : ctx.options.highest = true := by rw [hoptions, hhighest]
    exact ⟨_, next_end records hsees hhigh hsize, rfl⟩
  rwa [hnil] at hparse

theorem Written.footer {h : Header} {records : List Record} (hw : Written h records)
    (hrecords : records ≠ []) : (footerOf h records).Valid := by
  have hpos : 0 < records.length := List.length_pos_iff.mpr hrecords
  have hlast : ∀ {n : ℕ} {l : List Record}, Numbered n l → l ≠ [] → n + l.length - 1 ≤ uint64Max := by
    intro n l hl
    induction l generalizing n with
    | nil => exact fun hnil ↦ absurd rfl hnil
    | cons r rest ih =>
      intro _
      obtain ⟨hr, hsequence, hrest⟩ := hl
      by_cases hnil : rest = []
      · have hbound := hr.sequence.2
        rw [hnil, List.length_singleton]
        omega
      · have hbound := ih hrest hnil
        rw [List.length_cons]
        omega
  have hfirst := hw.header.firstSequence
  rw [uint64?, Bool.and_eq_true, decide_eq_true_eq, decide_eq_true_eq] at hfirst
  have hbound := hlast hw.numbered hrecords
  refine ⟨hw.header.id, hw.header.firstSequence, ?_, ⟨hpos, hw.count⟩, hw.header.storeId, ?_, ?_⟩
  · rw [uint64?, Bool.and_eq_true, decide_eq_true_eq, decide_eq_true_eq]
    show 1 ≤ h.firstSequence + records.length - 1 ∧ h.firstSequence + records.length - 1 ≤ uint64Max
    omega
  · show (CRC32C.checksum (openBytes h records)).getD 0 ≤ CRC32C.mask
    rw [CRC32C.checksum_eq, Option.getD_some]
    exact CRC32C.toNat_le_mask _
  · show h.firstSequence + records.length - 1 + 1 = h.firstSequence + records.length
    omega

/-- A sealed segment is read back with its footer, wherever it stands. -/
theorem parse_sealed {h : Header} {records : List Record} {options : Options} (hw : Written h records)
    (ha : options.Admit h records) (hrecords : records ≠ []) :
    parse (sealedBytes h records) options = some (.ok { scanned h records with
      sealed := true, footer := some (footerOf h records), bytes := (sealedBytes h records).length }
      records) := by
  have hfooter := hw.footer hrecords
  have hfits : (openBytes h records ++ checked (footerOf h records).body).length ≤ maxBytes := by
    rw [List.length_append, hfooter.length_wire]
    exact hw.size
  obtain ⟨scan, hparse, rfl⟩ := parse_records hw ha hfits fun ctx hsees _ ↦
    ⟨_, next_footer records hsees hrecords hfooter, rfl⟩
  exact hparse

/-- What a segment consists of after its header. -/
inductive Piece (options : Options) : Binary → Prop
  | record {r : Record} (valid : r.Valid) (payload : r.payload.length ≤ options.maxDecodePayloadBytes) :
    Piece options r.wire
  | footer {f : Footer} (valid : f.Valid) : Piece options (checked f.body)

theorem Piece.begins {options : Options} {unit : Binary} (h : Piece options unit) :
    unit.take 3 = recordMagic.take 3 ∧ 4 ≤ unit.length := by
  cases h with
  | record valid =>
    refine ⟨rfl, ?_⟩
    rw [Record.length_wire]
    omega
  | footer valid =>
    refine ⟨rfl, ?_⟩
    rw [valid.length_wire]
    omega

/-- Something that was cut is reported, and nothing at all is the end of an open segment. -/
theorem parse_cut {h : Header} {records : List Record} {options : Options} {unit : Binary} {n : ℕ}
    (hw : Written h records) (ha : options.Admit h records) (hunit : Piece options unit)
    (hn : n < unit.length) (hsize : (openBytes h records ++ unit.take n).length ≤ maxBytes) :
    (∃ failure, parse (openBytes h records ++ unit.take n) options = some (.error failure)) ∨
      n = 0 ∧ parse (openBytes h records) options = some (.ok (scanned h records) records) := by
  have hnil : openBytes h records ++ unit.take 0 = openBytes h records := by
    rw [List.take_zero, List.append_nil]
  by_cases hzero : n = 0 ∧ options.highest = true
  · exact .inr ⟨hzero.1, parse_open hw ha hzero.2⟩
  · refine .inl ?_
    have hnext : ∀ ctx : Context, ctx.Sees (openBytes h records ++ unit.take n) →
        ctx.options = options → ∃ scan, next collect ctx (scanned h records) records = .stop scan ∧
          ∃ failure, scan = .error failure := by
      intro ctx hsees hoptions
      rcases Nat.eq_zero_or_pos n with rfl | hpos
      · have hearlier : ctx.options.highest = false := by
          rw [hoptions]
          exact Bool.eq_false_iff.mpr fun hhighest ↦ hzero ⟨rfl, hhighest⟩
        rw [hnil] at hsees
        obtain ⟨failure, hstop⟩ := next_end_earlier records hsees hearlier
        exact ⟨.error failure, hstop, failure, rfl⟩
      · by_cases hfour : n < 4
        · obtain ⟨failure, hstop⟩ := next_short records hpos hfour hunit.begins.1 hunit.begins.2 hsees
          exact ⟨.error failure, hstop, failure, rfl⟩
        · have hmagic : 4 ≤ n := Nat.not_lt.mp hfour
          cases hunit with
          | record valid payload =>
            obtain ⟨failure, hstop⟩ := next_cut_record records valid hmagic hn
              (by rw [hoptions]; exact payload) hsees
            exact ⟨.error failure, hstop, failure, rfl⟩
          | footer valid =>
            rw [valid.length_wire] at hn
            obtain ⟨failure, hstop⟩ := next_cut_footer records valid hmagic hn hsees
            exact ⟨.error failure, hstop, failure, rfl⟩
    obtain ⟨scan, hparse, failure, rfl⟩ := parse_records hw ha hsize hnext
    exact ⟨failure, hparse⟩

/-- A segment that ends within its header. -/
theorem parse_cut_header {h : Header} {options : Options} (hv : h.Valid) (hvalid : validOptions? options = true)
    {n : ℕ} (hn : n < 44) :
    ∃ failure, parse ((checked h.body).take n) options = some (.error failure) := by
  have hlength : ((checked h.body).take n).length = n := by
    rw [List.length_take, hv.length_wire]
    omega
  let ctx : Context :=
    ⟨binaryPart ((checked h.body).take n), ((checked h.body).take n).length, options, options.id, 0, []⟩
  have hread : readExact ctx 0 (min ((checked h.body).take n).length 44) =
      .ok ((checked h.body).take n) := by
    have hsees : ctx.Sees ((checked h.body).take n) := ⟨rfl, rfl, rfl⟩
    have hall : slice ((checked h.body).take n) 0 (min ((checked h.body).take n).length 44) =
        (checked h.body).take n := by
      rw [slice, List.drop_zero]
      exact List.take_of_length_le (by omega)
    rw [readExact_sees hsees (by omega), hall]
  rw [parse, run, if_pos hvalid]
  dsimp only
  rw [hread]
  dsimp only
  rw [start, hv.decode_cut options.id options.storeId hn]
  exact ⟨_, rfl⟩

/-- A cut through a row of units goes through one of them. -/
theorem take_flatten {units : List Binary} {n : ℕ} (hn : n < units.flatten.length) :
    ∃ k m unit, units[k]? = some unit ∧ m < unit.length ∧
      units.flatten.take n = (units.take k).flatten ++ unit.take m := by
  induction units generalizing n with
  | nil => exact absurd hn (Nat.not_lt_zero n)
  | cons unit units ih =>
    rw [List.flatten_cons, List.length_append] at hn
    by_cases hfirst : n < unit.length
    · refine ⟨0, n, unit, rfl, hfirst, ?_⟩
      rw [List.flatten_cons, List.take_append_of_le_length (by omega)]
      rfl
    · obtain ⟨k, m, unit', hunit, hm, htake⟩ := ih (show n - unit.length < units.flatten.length by omega)
      refine ⟨k + 1, m, unit', hunit, hm, ?_⟩
      rw [List.flatten_cons, List.take_append, List.take_of_length_le (by omega), htake, List.take_succ_cons,
        List.flatten_cons, List.append_assoc]

/-- The parser reports the cut, or it gives an open segment with the first records, all of them whole. -/
def Cut (h : Header) (records : List Record) (options : Options) (file : Binary) : Prop :=
  (∃ failure, parse file options = some (.error failure)) ∨
    ∃ k ≤ records.length, file = openBytes h (records.take k) ∧
      parse file options = some (.ok (scanned h (records.take k)) (records.take k))

theorem cut_of_parse_cut {h : Header} {records : List Record} {options : Options} {unit : Binary}
    {k n : ℕ} (hk : k ≤ records.length)
    (hcut : (∃ failure, parse (openBytes h (records.take k) ++ unit.take n) options =
        some (.error failure)) ∨
      n = 0 ∧ parse (openBytes h (records.take k)) options =
        some (.ok (scanned h (records.take k)) (records.take k))) :
    Cut h records options (openBytes h (records.take k) ++ unit.take n) := by
  rcases hcut with hfailed | ⟨rfl, hparse⟩
  · exact .inl hfailed
  · refine .inr ⟨k, hk, ?_, ?_⟩
    · rw [List.take_zero, List.append_nil]
    · rw [List.take_zero, List.append_nil]
      exact hparse

theorem numbered_valid {n : ℕ} {records : List Record} (h : Numbered n records) :
    ∀ r ∈ records, r.Valid := by
  induction records generalizing n with
  | nil => exact fun r hr ↦ absurd hr List.not_mem_nil
  | cons r rest ih =>
    obtain ⟨hr, -, hrest⟩ := h
    intro r' hr'
    rcases List.mem_cons.mp hr' with rfl | hr'
    · exact hr
    · exact ih hrest r' hr'

/-- A cut through a segment with or without its footer. -/
theorem parse_proper {h : Header} {records : List Record} {options : Options} {foot : Option Binary}
    (hw : Written h records) (ha : options.Admit h records)
    (hfoot : ∀ f ∈ foot, Piece options f ∧ f.length = 64) {n : ℕ}
    (hn : n < (openBytes h records ++ foot.getD []).length) :
    Cut h records options ((openBytes h records ++ foot.getD []).take n) := by
  have hfile : openBytes h records ++ foot.getD [] =
      checked h.body ++ (records.map Record.wire ++ foot.toList).flatten := by
    rw [openBytes, List.append_assoc, List.flatten_append]
    cases foot with
    | none => rfl
    | some f => rw [Option.getD_some, Option.toList_some, List.flatten_singleton]; rfl
  by_cases hheader : n < 44
  · refine .inl ?_
    rw [hfile, List.take_append_of_le_length (by rw [hw.header.length_wire]; omega)]
    exact parse_cut_header hw.header ha.valid hheader
  · have hrest : n - 44 < (records.map Record.wire ++ foot.toList).flatten.length := by
      rw [hfile, List.length_append, hw.header.length_wire] at hn
      omega
    obtain ⟨k, m, unit, hunit, hm, htake⟩ := take_flatten hrest
    have hlength : k < (records.map Record.wire ++ foot.toList).length :=
      (List.getElem?_eq_some_iff.mp hunit).1
    have hk : k ≤ records.length := by
      have hone : foot.toList.length ≤ 1 := by
        cases foot with
        | none => exact Nat.zero_le 1
        | some f => exact le_rfl
      rw [List.length_append, List.length_map] at hlength
      omega
    have hwhole : ((records.map Record.wire ++ foot.toList).take k).flatten = recordBytes (records.take k) := by
      rw [List.take_append_of_le_length (by rw [List.length_map]; exact hk), ← List.map_take]
      rfl
    have hcut : (openBytes h records ++ foot.getD []).take n =
        openBytes h (records.take k) ++ unit.take m := by
      rw [hfile, List.take_append, hw.header.length_wire, htake, hwhole,
        List.take_of_length_le (by rw [hw.header.length_wire]; omega), openBytes, List.append_assoc]
    have hbound : (openBytes h (records.take k) ++ unit.take m).length ≤ maxBytes := by
      have hsize := hw.size
      have hlast : (foot.getD []).length ≤ 64 := by
        cases foot with
        | none => exact Nat.zero_le 64
        | some f => exact Nat.le_of_eq (hfoot f rfl).2
      rw [← hcut, List.length_take, List.length_append]
      omega
    have hunits : Piece options unit := by
      by_cases hrecord : k < records.length
      · rw [List.getElem?_append_left (by rw [List.length_map]; exact hrecord), List.getElem?_map,
          List.getElem?_eq_getElem hrecord] at hunit
        cases hunit
        have hmem : records[k] ∈ records := List.getElem_mem hrecord
        exact .record (numbered_valid hw.numbered _ hmem) (ha.payload _ hmem)
      · rw [List.getElem?_append_right (by rw [List.length_map]; omega)] at hunit
        exact (hfoot unit (Option.mem_toList.mp (List.mem_of_getElem? hunit))).1
    rw [hcut]
    exact cut_of_parse_cut hk (parse_cut (hw.take k) (ha.take k) hunits hm hbound)

/-- Cutting an open segment. -/
theorem parse_open_cut {h : Header} {records : List Record} {options : Options} (hw : Written h records)
    (ha : options.Admit h records) {n : ℕ} (hn : n < (openBytes h records).length) :
    Cut h records options ((openBytes h records).take n) := by
  have hnil : openBytes h records ++ (none : Option Binary).getD [] = openBytes h records :=
    List.append_nil _
  have hfoot : ∀ f ∈ (none : Option Binary), Piece options f ∧ f.length = 64 := by
    intro f hf
    cases hf
  rw [← hnil] at hn ⊢
  exact parse_proper hw ha hfoot hn

/-- Cutting a sealed segment. -/
theorem parse_sealed_cut {h : Header} {records : List Record} {options : Options} (hw : Written h records)
    (ha : options.Admit h records) (hrecords : records ≠ []) {n : ℕ}
    (hn : n < (sealedBytes h records).length) :
    Cut h records options ((sealedBytes h records).take n) := by
  have hfooter := hw.footer hrecords
  have hfoot : ∀ f ∈ some (checked (footerOf h records).body), Piece options f ∧ f.length = 64 := by
    intro f hf
    cases hf
    exact ⟨.footer hfooter, hfooter.length_wire⟩
  exact parse_proper hw ha hfoot hn

end Tay.Physical
