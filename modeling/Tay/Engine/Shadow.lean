import Mathlib.Algebra.BigOperators.Group.List.Basic
import Mathlib.Data.List.DropRight
import Tay.Engine.Replay
import Tay.Writer.FailClosed

/-!
# The engine's shadow of the files

`Tay.Engine.Persistence` knows where a record will go before the writer has put it there: the segment,
the offset, the sequence number, the bytes and the segments of the whole history, and a catalog of the
last segments. It computes all this from the size of the payload, and the writer computes its own from
the bytes of the record, of the footer and of the header. A receipt that is not the expected one ends the
engine.

Here both sides run together, from any store that the writer has opened and the engine has started on.
`Mirrors` is what stays true: the engine's numbers are those of the files.
-/

open Foundation

namespace Tay

open SegmentOps

/-! ## The catalog -/

/-- `@segment_catalog_limit`. -/
def segmentCatalogLimit : ℕ := 128

/-- `segment_catalog_entry`. -/
def segmentCatalogEntry (s : Physical.Segment) : Summary where
  id := s.id
  firstSequence := s.firstSequence
  lastSequence := s.lastSequence
  count := s.count
  bytes := s.bytes
  sealed := s.sealed

/-- `include_active_segment`. -/
def includeActiveSegment (catalog : List Summary) (entry : Summary) : List Summary :=
  if (catalog.getLast?).any (·.id == entry.id) then catalog.dropLast ++ [entry] else catalog ++ [entry]

/-- `update_segment_catalog`; it raises on an empty catalog. -/
def updateSegmentCatalog (s : Engine.State) (catalog : List Summary) (receipt : Receipt) (bytes : ℕ) :
    Option (List Summary) :=
  catalog.getLast?.map fun last ↦
    let active : Summary :=
      { id := receipt.segmentId
        firstSequence := if receipt.segmentId == s.segment.id then last.firstSequence else s.nextSequence
        lastSequence := some s.nextSequence
        count := if receipt.segmentId == s.segment.id then s.segment.count + 1 else 1
        bytes := receipt.offset + bytes + 28
        sealed := false }
    if receipt.segmentId == s.segment.id then
      (catalog.dropLast ++ [active]).rtake segmentCatalogLimit
    else
      -- 64 bytes of footer, on the assumption that the segment was still open
      (catalog.dropLast ++ [{ last with sealed := true, bytes := s.segment.bytes + 64 }] ++
        [active]).rtake segmentCatalogLimit

/-- What `adopt_rotation` makes of the catalog. -/
def rotateCatalog (s : Engine.State) (catalog : List Summary) (id : ℕ) : Option (List Summary) :=
  if id == s.segment.id then some catalog
  else catalog.getLast?.map fun last ↦
    let active : Summary :=
      { id, firstSequence := s.nextSequence, lastSequence := none, count := 0, bytes := 44
        sealed := false }
    (catalog.dropLast ++
      [{ last with sealed := true, bytes := s.segment.bytes + if s.segment.sealed then 0 else 64 }] ++
      [active]).rtake segmentCatalogLimit

/-! ## The files themselves -/

/-- Every segment file, in order. -/
def SegmentOps.Disk.files (d : Disk) : List File := d.earlier ++ [d.highest]

def SegmentOps.Disk.totalBytes (d : Disk) : ℕ := (d.files.map (·.bytes.length)).sum

/-- What a scan says of a file. -/
def scanEntry (highest : Bool) (file : File) : Option Summary :=
  match Physical.parse file.bytes { highest } with
  | some (.ok segment _) => some (segmentCatalogEntry segment)
  | _ => none

/-- What a scan says of every file. -/
def SegmentOps.Disk.catalog (d : Disk) : List (Option Summary) :=
  d.earlier.map (scanEntry false) ++ [scanEntry true d.highest]

/-! ## Both sides -/

structure Shadow where
  engine : Engine.State
  /-- `segment_catalog`. -/
  catalog : List Summary
  session : Session
  disk : Disk

namespace Shadow

/-- What was recovered is what the scan of the files says. -/
structure Recovers (r : Reader.Recovered) (d : Disk) : Prop where
  segments : r.segments.map some = d.catalog
  highest : r.highest = r.segments.getLast?
  totalSegmentBytes : r.totalSegmentBytes = (r.segments.map Summary.bytes).sum
  segmentCount : r.segmentCount = r.segments.length
  nextSequence : r.highest.map (fun h ↦ h.firstSequence + h.count) = some r.nextSequence

/-- The engine starts on a store that the writer has just opened. -/
def start (config : Config) (r : Reader.Recovered) (view : SegmentView) (opened : Run) : Shadow where
  engine := Engine.init config r view
  catalog := (includeActiveSegment r.segments
    (segmentCatalogEntry opened.writer.segment)).rtake segmentCatalogLimit
  session := ⟨opened.writer, false⟩
  disk := opened.disk

inductive Label
  | append (type schema : ℕ) (payload : Binary) (io : Io)
  | beginGroup (admits : Bool) (io : Io)
  | finishGroup (owns : Bool) (io : Io)
  /-- An online compaction is started, with a rotation. -/
  | compact (admits : Bool) (io : Io)
  /-- It has ended without a switch. -/
  | abandoned

/-- The port has failed the writer on the way. -/
def lost : Answer → Bool
  | .mutated (.uncertain _) | .uncertain _ => true
  | .error (.reject _) => false
  | .error _ => true
  | _ => false

/-- What the writer is asked; the engine names the frontier. -/
def command (s : Shadow) : Label → Option (Command × Io)
  | .append type schema payload io => some (.mutate (.append type schema payload), io)
  | .beginGroup admits io => some (.beginGroup admits, io)
  | .finishGroup owns io => some (.finishGroup owns, io)
  | .compact admits io => some (.compactOnline ((s.engine.nextSequence : ℤ) - 1) admits, io)
  | .abandoned => none

/-- The engine takes a receipt, or raises. -/
def receive (s : Shadow) (receipt : Receipt) (bytes : ℕ) (x : Session) (d : Disk) : Option Shadow := do
  (Engine.validateReceipt s.engine receipt bytes).toOption
  let catalog ← updateSegmentCatalog s.engine s.catalog receipt bytes
  return ⟨Engine.advance s.engine receipt bytes, catalog, x, d⟩

/-- The engine follows a rotation, or raises. -/
def follow (s : Shadow) (previous segment : Physical.Segment) (nextSequence : ℕ) (x : Session) (d : Disk) :
    Option Shadow := do
  let before ← (segmentCatalogEntry previous).view?
  let after ← (segmentCatalogEntry segment).view?
  let engine ← (Engine.OnlineCheckpoint.adoptRotation s.engine ⟨before, after, nextSequence⟩).toOption
  let catalog ← rotateCatalog s.engine s.catalog after.id
  return ⟨engine, catalog, x, d⟩

/-- What the engine makes of an answer. The run is over where the port has failed the writer. -/
def answered (s : Shadow) (label : Label) : Answer × Session × Disk → Option Shadow
  | (.mutated (.appended receipt), x, d) =>
    match label with
    | .append _ _ payload _ => s.receive receipt payload.length x d
    | _ => none
  | (.compacting previous segment nextSequence, x, d) => s.follow previous segment nextSequence x d
  | (answer, x, d) => if lost answer then none else some { s with session := x, disk := d }

def step (s : Shadow) (label : Label) : Option Shadow :=
  match s.command label with
  | some (command, io) => s.answered label (serve s.session s.disk command io)
  | none => some { s with session := { s.session with online := false } }

/-- Any store, the writer that opens it, and the engine that starts on what was recovered. -/
def shadow : Machine Shadow Label where
  initial s := ∃ (closed opened : Run) (io : Io) (config : Config) (r : Reader.Recovered)
    (view : SegmentView), closed.Held ∧ closed.step (.reopen io) = some opened ∧
      Recovers r closed.disk ∧ config.rotationTargetBytes = opened.writer.rotationTargetBytes ∧
      (segmentCatalogEntry opened.writer.segment).view? = some view ∧ s = start config r view opened
  step := step

/-! ## What agrees -/

/-- The engine's numbers are the writer's, and those of the files. -/
structure Agrees (s : Shadow) : Prop where
  segment : s.engine.segment.id = s.session.writer.segment.id ∧
    s.engine.segment.sealed = s.session.writer.segment.sealed ∧
    s.engine.segment.bytes = s.session.writer.segment.bytes ∧
    s.engine.segment.count = s.session.writer.segment.count
  nextSequence : s.engine.nextSequence = s.session.writer.nextSequence
  file : s.engine.segment.id = s.disk.highest.id ∧
    s.engine.segment.bytes = s.disk.highest.bytes.length
  historyBytes : s.engine.historyBytes = s.disk.totalBytes
  segmentCount : s.engine.segmentCount = s.disk.files.length
  catalog : s.catalog.map some = s.disk.catalog.rtake segmentCatalogLimit

/-! ## The last entries of a list -/

section Catalog

variable {α : Type}

theorem rtake_rtake (l : List α) (m n : ℕ) : (l.rtake n).rtake m = l.rtake (min m n) := by
  simp only [List.rtake_eq_reverse_take_reverse, List.reverse_reverse, List.take_take]

theorem map_rtake {β : Type} (f : α → β) (l : List α) (n : ℕ) : (l.rtake n).map f = (l.map f).rtake n := by
  rw [List.rtake, List.rtake, List.map_drop, List.length_map]

/-- The last entry is replaced. -/
theorem rtake_replace (l : List α) (a b : α) (n : ℕ) :
    (((l ++ [a]).rtake (n + 1)).dropLast ++ [b]).rtake (n + 1) = (l ++ [b]).rtake (n + 1) := by
  rw [List.rtake_concat_succ l n a, List.dropLast_concat, List.rtake_concat_succ,
    List.rtake_concat_succ, rtake_rtake, min_self]

/-- The last entry is replaced, and one follows. -/
theorem rtake_replace_append (l : List α) (a b c : α) (n : ℕ) :
    (((l ++ [a]).rtake (n + 2)).dropLast ++ [b] ++ [c]).rtake (n + 2) =
      (l ++ [b] ++ [c]).rtake (n + 2) := by
  rw [List.rtake_concat_succ l (n + 1) a, List.dropLast_concat, List.rtake_concat_succ,
    List.rtake_concat_succ, List.rtake_concat_succ, List.rtake_concat_succ, rtake_rtake,
    Nat.min_eq_left (Nat.le_succ n)]

theorem limit_eq : segmentCatalogLimit = 126 + 2 := rfl

theorem getLast?_rtake (l : List α) (a : α) (n : ℕ) : ((l ++ [a]).rtake (n + 1)).getLast? = some a := by
  rw [List.rtake_concat_succ, List.getLast?_concat]

end Catalog

/-! ## What stays true -/

/-- What the catalog says of a segment. -/
def entry (s : Stored) (closed : Bool) : Summary := segmentCatalogEntry (s.segment closed)

/-- What a catalog without a limit says. -/
def entries (earlier : List Stored) (last : Stored) : List Summary :=
  earlier.map (entry · true) ++ [entry last false]

structure Mirrors (s : Shadow) (earlier : List Stored) (last : Stored) : Prop where
  holds : Holds s.session.writer s.disk earlier last false
  id : s.engine.segment.id = last.header.id
  sealed : s.engine.segment.sealed = false
  bytes : s.engine.segment.bytes = (Physical.openBytes last.header last.records).length
  count : s.engine.segment.count = last.records.length
  nextSequence : s.engine.nextSequence = last.header.firstSequence + last.records.length
  target : s.engine.config.rotationTargetBytes = s.session.writer.rotationTargetBytes
  historyBytes : s.engine.historyBytes = s.disk.totalBytes
  segmentCount : s.engine.segmentCount = earlier.length + 1
  catalog : s.catalog = (entries earlier last).rtake segmentCatalogLimit

theorem rotate_target {w w' : Writer} {io : Io} {d d' : Disk} (h : rotate w io d = (.ok w', d')) :
    w'.rotationTargetBytes = w.rotationTargetBytes := by
  have hcreate : ∀ {u u' : Writer} {e e' : Disk}, createSuccessor u io e = (.ok u', e') →
      u'.rotationTargetBytes = u.rotationTargetBytes := by
    intro u u' e e' hu
    rw [(createSuccessor_ok hu).2.2]
  unfold rotate at h
  split at h
  case isTrue => rw [(Action.pure_ok.mp h).1]
  case isFalse =>
    split at h
    case isTrue => cases h
    case isFalse =>
      split at h
      case isTrue => cases h
      case isFalse =>
        split at h
        case isTrue => exact hcreate h
        case isFalse =>
          obtain ⟨closed, d₁, hseal, hnext⟩ := Action.bind_ok.mp h
          rw [hcreate hnext, (sealSegment_ok hseal).2.2]

/-- No request changes the rotation target. -/
theorem mutate_target (w : Writer) (d : Disk) (type schema : ℕ) (payload : Binary) (io : Io) :
    (mutate w d (.append type schema payload) io).2.1.rotationTargetBytes = w.rotationTargetBytes := by
  have hbytes : ∀ {u : Writer} {bytes : Binary} {e e' : Disk} {out : Writer × Receipt},
      appendBytes u bytes io e = (.ok out, e') → out.1.rotationTargetBytes = u.rotationTargetBytes := by
    intro u bytes e e' out hu
    rw [(appendBytes_ok hu).2]
  have hfailed : ∀ {e : Disk} {failure : Failure},
      (failed w e failure).2.1.rotationTargetBytes = w.rotationTargetBytes := by
    intro e failure
    cases failure <;> rfl
  unfold mutate
  split
  · rfl
  · dsimp only
    split
    · rfl
    · split
      · rfl
      · split
        case h_1 next receipt d' happend =>
          unfold appendWithCapacity at happend
          split at happend
          case isTrue =>
            obtain ⟨rotated, d₁, hrotate, hnext⟩ := Action.bind_ok.mp happend
            exact (hbytes hnext).trans (rotate_target hrotate)
          case isFalse => exact hbytes happend
        case h_2 => exact hfailed

section Mirrors

variable {s : Shadow} {earlier : List Stored} {last : Stored}

theorem totalBytes_append (earlier : List Stored) (last : Stored) (file : File) :
    Disk.totalBytes ⟨(earlier ++ [last]).map Stored.sealedFile, file⟩ =
      Disk.totalBytes ⟨earlier.map Stored.sealedFile, last.sealedFile⟩ + file.bytes.length := by
  simp only [Disk.totalBytes, Disk.files, List.map_append, List.sum_append, List.map_cons, List.map_nil,
    List.sum_singleton]

theorem totalBytes_highest (earlier : List File) (file file' : File) (n : ℕ)
    (h : file'.bytes.length = file.bytes.length + n) :
    Disk.totalBytes ⟨earlier, file'⟩ = Disk.totalBytes ⟨earlier, file⟩ + n := by
  simp only [Disk.totalBytes, Disk.files, List.map_append, List.sum_append, List.map_cons, List.map_nil,
    List.sum_singleton, h]
  omega

theorem admit_default {stored : Stored} (h : Physical.Written stored.header stored.records)
    (highest : Bool) : Physical.Options.Admit { highest } stored.header stored.records := by
  refine ⟨by cases highest <;> decide, fun e he ↦ (by cases he), fun e he ↦ (by cases he), fun r hr ↦ ?_⟩
  exact (Physical.numbered_valid h.numbered r hr).payload

/-- The scan of a file says what the catalog says. -/
theorem scanEntry_sealed {stored : Stored} (h : stored.Whole) (highest : Bool) :
    scanEntry highest stored.sealedFile = some (entry stored true) := by
  have hparse := Physical.parse_sealed h.1 (admit_default h.1 highest) h.2
  unfold scanEntry
  rw [Stored.sealedFile, hparse]
  rfl

theorem scanEntry_open {stored : Stored} (h : Physical.Written stored.header stored.records) :
    scanEntry true stored.openFile = some (entry stored false) := by
  have hparse := Physical.parse_open h (admit_default h true) rfl
  unfold scanEntry
  rw [Stored.openFile, hparse]
  rfl

theorem catalog_eq {w : Writer} {d : Disk} {closed : Bool} (h : Holds w d earlier last closed) :
    d.catalog = (earlier.map (entry · true) ++ [entry last closed]).map some := by
  rw [Disk.catalog, h.disk, List.map_append, List.map_map, List.map_map]
  refine congrArg₂ (· ++ ·) (List.map_congr_left fun stored hstored ↦ ?_) ?_
  · rw [Function.comp_apply, Function.comp_apply, scanEntry_sealed (h.earlier stored hstored) false]
  · cases hc : closed with
    | false => exact congrArg (fun e ↦ [e]) (scanEntry_open h.written)
    | true => exact congrArg (fun e ↦ [e]) (scanEntry_sealed ⟨h.written, h.closed hc⟩ true)

theorem Mirrors.agrees (h : Mirrors s earlier last) : s.Agrees := by
  have hsegment : s.session.writer.segment = Physical.scanned last.header last.records := h.holds.segment
  have hfile : s.disk.highest = last.openFile := by
    rw [h.holds.disk]
    rfl
  refine ⟨?_, ?_, ?_, h.historyBytes, ?_, ?_⟩
  · rw [hsegment]
    exact ⟨h.id, h.sealed, h.bytes, h.count⟩
  · rw [h.nextSequence, h.holds.sequence]
  · rw [hfile]
    exact ⟨h.id, h.bytes⟩
  · rw [h.segmentCount, h.holds.disk, Disk.files, List.length_append, List.length_map,
      List.length_singleton]
  · rw [h.catalog, catalog_eq h.holds, map_rtake]
    rfl

/-- Both sides rotate for the same records. -/
theorem Mirrors.rotates (h : Mirrors s earlier last) (r : Physical.Record) :
    Engine.rotates s.engine r.payload.length = SegmentOps.rotates s.session.writer r.wire := by
  have hsegment : s.session.writer.segment = Physical.scanned last.header last.records := h.holds.segment
  have hsize : s.engine.segment.bytes + r.payload.length + 28 + 64 =
      (Physical.scanned last.header last.records).bytes + r.wire.length + 64 := by
    rw [h.bytes, r.length_wire]
    show _ = (Physical.openBytes last.header last.records).length + _ + 64
    omega
  rw [Engine.rotates, SegmentOps.rotates, mustRotate, hsegment, hsize, h.target, h.count, h.sealed]
  rfl

theorem Mirrors.expected (h : Mirrors s earlier last) {r : Physical.Record} {receipt : Receipt}
    {w : Writer} {d : Disk} (happended : Appended s.session.writer s.disk earlier last r receipt w d) :
    receipt = Engine.expectedPosition s.engine r.payload.length := by
  have hsegment : s.session.writer.segment = Physical.scanned last.header last.records := h.holds.segment
  rw [Engine.expectedPosition, h.rotates r, h.nextSequence, h.id, h.bytes]
  cases happended with
  | here hrotates _ =>
    rw [hrotates, h.holds.sequence, hsegment]
    rfl
  | successor hrotates _ =>
    rw [hrotates, h.holds.sequence, hsegment]
    rfl

theorem receive_eq {receipt : Receipt} {bytes : ℕ} {catalog : List Summary} {x : Session} {d : Disk}
    (hreceipt : receipt = Engine.expectedPosition s.engine bytes)
    (hcatalog : updateSegmentCatalog s.engine s.catalog receipt bytes = some catalog) :
    s.receive receipt bytes x d = some ⟨Engine.advance s.engine receipt bytes, catalog, x, d⟩ := by
  simp only [receive, hcatalog, Engine.validateReceipt, beq_iff_eq.mpr hreceipt, check_true]
  rfl

theorem Mirrors.getLast (h : Mirrors s earlier last) : s.catalog.getLast? = some (entry last false) := by
  rw [h.catalog, limit_eq, entries, getLast?_rtake _ _ 127]

/-- The entry of the segment with one record more. -/
theorem entry_append (last : Stored) (r : Physical.Record) :
    entry ⟨last.header, last.records ++ [r]⟩ false =
      { id := last.header.id
        firstSequence := (entry last false).firstSequence
        lastSequence := some (last.header.firstSequence + last.records.length)
        count := last.records.length + 1
        bytes := (Physical.openBytes last.header last.records).length + r.payload.length + 28
        sealed := false } := by
  show segmentCatalogEntry (Physical.scanned last.header (last.records ++ [r])) = _
  rw [Physical.scanned_append, r.length_wire, ← Nat.add_assoc]
  rfl

/-- The entry of a segment that was sealed. -/
theorem entry_sealed {last : Stored} (h : last.Whole) : entry last true =
    { entry last false with
      sealed := true
      bytes := (Physical.openBytes last.header last.records).length + 64 } := by
  show segmentCatalogEntry last.sealedSegment = _
  rw [Stored.sealedSegment, length_sealed h]
  rfl

/-- The record is in the segment that was there. -/
theorem Mirrors.receive_here (h : Mirrors s earlier last) {r : Physical.Record} {x : Session} {d : Disk}
    {receipt : Receipt} (hreceipt : receipt = ⟨s.engine.nextSequence, s.engine.segment.id, s.engine.segment.bytes⟩)
    (hexpected : receipt = Engine.expectedPosition s.engine r.payload.length)
    (hstays : Engine.rotates s.engine r.payload.length = false)
    (hholds : Holds x.writer d earlier ⟨last.header, last.records ++ [r]⟩ false)
    (htarget : x.writer.rotationTargetBytes = s.session.writer.rotationTargetBytes) :
    ∃ t, s.receive receipt r.payload.length x d = some t ∧
      Mirrors t earlier ⟨last.header, last.records ++ [r]⟩ := by
  have hgrown : (Physical.openBytes last.header (last.records ++ [r])).length =
      (Physical.openBytes last.header last.records).length + r.payload.length + 28 := by
    rw [Physical.openBytes_append, Physical.recordBytes_singleton, List.length_append, r.length_wire,
      Nat.add_assoc]
  have hcatalog : updateSegmentCatalog s.engine s.catalog receipt r.payload.length =
      some ((entries earlier ⟨last.header, last.records ++ [r]⟩).rtake segmentCatalogLimit) := by
    rw [updateSegmentCatalog, h.getLast, hreceipt, Option.map_some]
    simp only [beq_self_eq_true, if_true]
    rw [h.catalog, entries, entries, entry_append, h.count, h.nextSequence, h.bytes, h.id]
    rw [limit_eq, rtake_replace _ _ _ 127]
  refine ⟨_, receive_eq hexpected hcatalog, ?_⟩
  refine ⟨hholds, ?_, rfl, ?_, ?_, ?_, ?_, ?_, ?_, ?shown⟩
  case shown => dsimp only
  · rw [hreceipt]
    exact h.id
  · rw [hreceipt, hgrown, ← h.bytes]
    rfl
  · rw [hreceipt]
    simp only [Engine.advance, beq_self_eq_true, if_true, h.count, List.length_append,
      List.length_singleton]
  · show s.engine.nextSequence + 1 = _
    rw [h.nextSequence, List.length_append, List.length_singleton, Nat.add_assoc]
  · exact h.target.trans htarget.symm
  · show s.engine.historyBytes + Engine.historyDelta s.engine r.payload.length = d.totalBytes
    have hfile : (Stored.file ⟨last.header, last.records ++ [r]⟩ false).bytes.length =
        (last.file false).bytes.length + (r.payload.length + 28) := by
      rw [← Nat.add_assoc]
      exact hgrown
    rw [h.historyBytes, h.holds.disk, hholds.disk, totalBytes_highest _ _ _ _ hfile,
      Engine.historyDelta, hstays]
    rfl
  · rw [hreceipt]
    show s.engine.segmentCount + s.engine.segment.id - s.engine.segment.id = _
    rw [Nat.add_sub_cancel, h.segmentCount]

/-- The record is in a successor. -/
theorem Mirrors.receive_successor (h : Mirrors s earlier last) {r : Physical.Record} {x : Session}
    {d : Disk} {receipt : Receipt}
    (hreceipt : receipt = ⟨s.engine.nextSequence, s.engine.segment.id + 1, 44⟩)
    (hexpected : receipt = Engine.expectedPosition s.engine r.payload.length)
    (hrotates : Engine.rotates s.engine r.payload.length = true)
    (hholds : Holds x.writer d (earlier ++ [last]) ⟨successorHeader s.session.writer, [r]⟩ false)
    (htarget : x.writer.rotationTargetBytes = s.session.writer.rotationTargetBytes) :
    ∃ t, s.receive receipt r.payload.length x d = some t ∧
      Mirrors t (earlier ++ [last]) ⟨successorHeader s.session.writer, [r]⟩ := by
  have hwhole : last.Whole := hholds.earlier last (by simp)
  have hother : (s.engine.segment.id + 1 == s.engine.segment.id) = false :=
    beq_eq_false_iff_ne.mpr (Nat.succ_ne_self _)
  have hsequence : s.session.writer.nextSequence = s.engine.nextSequence := by
    rw [h.nextSequence, h.holds.sequence]
  have hid : (successorHeader s.session.writer).id = s.engine.segment.id + 1 := by
    rw [h.id, ← h.holds.id]
    rfl
  have hbytes : (Physical.openBytes (successorHeader s.session.writer) [r]).length =
      44 + r.payload.length + 28 := by
    rw [Physical.openBytes, Physical.recordBytes_singleton, List.length_append,
      hholds.written.header.length_wire, r.length_wire, Nat.add_assoc]
  have hcatalog : updateSegmentCatalog s.engine s.catalog receipt r.payload.length =
      some ((entries (earlier ++ [last]) ⟨successorHeader s.session.writer, [r]⟩).rtake
        segmentCatalogLimit) := by
    rw [updateSegmentCatalog, h.getLast, hreceipt, Option.map_some]
    simp only [hother, Bool.false_eq_true, if_false]
    have hnew : entry ⟨successorHeader s.session.writer, [r]⟩ false =
        { id := s.engine.segment.id + 1
          firstSequence := s.engine.nextSequence
          lastSequence := some s.engine.nextSequence
          count := 1
          bytes := 44 + r.payload.length + 28
          sealed := false } := by
      rw [← hbytes, ← hid, ← hsequence]
      rfl
    rw [h.catalog, entries, entries, List.map_append, List.map_singleton, hnew, entry_sealed hwhole,
      h.bytes]
    rw [limit_eq, rtake_replace_append]
  refine ⟨_, receive_eq hexpected hcatalog, ?_⟩
  refine ⟨hholds, ?_, rfl, ?_, ?_, ?_, ?_, ?_, ?_, ?shown⟩
  case shown => dsimp only
  · rw [hreceipt]
    exact hid.symm
  · rw [hreceipt]
    exact hbytes.symm
  · rw [hreceipt]
    simp only [Engine.advance, hother, Bool.false_eq_true, if_false, List.length_singleton]
  · show s.engine.nextSequence + 1 = _
    rw [← hsequence]
    rfl
  · exact h.target.trans htarget.symm
  · show s.engine.historyBytes + Engine.historyDelta s.engine r.payload.length = d.totalBytes
    have hsealed : Disk.totalBytes ⟨earlier.map Stored.sealedFile, last.sealedFile⟩ =
        Disk.totalBytes ⟨earlier.map Stored.sealedFile, last.file false⟩ + 64 :=
      totalBytes_highest _ _ _ 64 (length_sealed hwhole)
    have hfile : (Stored.file ⟨successorHeader s.session.writer, [r]⟩ false).bytes.length =
        44 + r.payload.length + 28 := hbytes
    rw [h.historyBytes, h.holds.disk, hholds.disk, totalBytes_append, hsealed, hfile,
      Engine.historyDelta, hrotates, h.sealed, if_pos rfl, if_neg Bool.false_ne_true]
    omega
  · rw [hreceipt]
    show s.engine.segmentCount + (s.engine.segment.id + 1) - s.engine.segment.id = _
    rw [h.segmentCount, List.length_append, List.length_singleton]
    omega

theorem Mirrors.receive (h : Mirrors s earlier last) {r : Physical.Record} {x : Session} {d : Disk}
    {receipt : Receipt}
    (happended : Appended s.session.writer s.disk earlier last r receipt x.writer d)
    (htarget : x.writer.rotationTargetBytes = s.session.writer.rotationTargetBytes) :
    ∃ t, s.receive receipt r.payload.length x d = some t ∧ ∃ earlier' last', Mirrors t earlier' last' := by
  have hexpected := h.expected happended
  have hrotates := h.rotates r
  have hposition : Engine.expectedPosition s.engine r.payload.length =
      ⟨s.engine.nextSequence, s.engine.segment.id + if Engine.rotates s.engine r.payload.length then 1 else 0,
        if Engine.rotates s.engine r.payload.length then 44 else s.engine.segment.bytes⟩ := rfl
  have hreceipt := hexpected.trans hposition
  cases happended with
  | here hstays hholds =>
    rw [hstays] at hrotates
    rw [hrotates] at hreceipt
    obtain ⟨t, ht, hmirrors⟩ := h.receive_here hreceipt hexpected hrotates hholds htarget
    exact ⟨t, ht, _, _, hmirrors⟩
  | successor hmust hholds =>
    rw [hmust] at hrotates
    rw [hrotates] at hreceipt
    obtain ⟨t, ht, hmirrors⟩ := h.receive_successor hreceipt hexpected hrotates hholds htarget
    exact ⟨t, ht, _, _, hmirrors⟩

theorem view?_eq_some {e : Summary} {v : SegmentView} : e.view? = some v ↔
    v.id = e.id ∧ v.sealed = e.sealed ∧ v.bytes = e.bytes ∧ v.count = e.count := by
  unfold Summary.view?
  split
  case isTrue h =>
    rw [Option.some.injEq]
    constructor
    · rintro rfl
      exact ⟨rfl, rfl, rfl, rfl⟩
    · rintro ⟨hid, hsealed, hbytes, hcount⟩
      obtain ⟨id, sealed, bytes, count, hv⟩ := v
      dsimp only at hid hsealed hbytes hcount
      subst hid hsealed hbytes hcount
      rfl
  case isFalse h =>
    refine ⟨fun hnone ↦ (by cases hnone), ?_⟩
    rintro ⟨-, hsealed, -, hcount⟩
    refine absurd (fun he ↦ ?_) h
    rw [← hcount]
    exact v.sealed_count (hsealed.trans he)

theorem Mirrors.view (h : Mirrors s earlier last) :
    (segmentCatalogEntry s.session.writer.segment).view? = some s.engine.segment := by
  have hsegment : s.session.writer.segment = Physical.scanned last.header last.records := h.holds.segment
  rw [hsegment]
  exact view?_eq_some.mpr ⟨h.id, h.sealed, h.bytes, h.count⟩

theorem follow_eq {previous segment : Physical.Segment} {nextSequence : ℕ} {x : Session} {d : Disk}
    {before after : SegmentView} {engine : Engine.State} {catalog : List Summary}
    (hbefore : (segmentCatalogEntry previous).view? = some before)
    (hafter : (segmentCatalogEntry segment).view? = some after)
    (hadopt : Engine.OnlineCheckpoint.adoptRotation s.engine ⟨before, after, nextSequence⟩ = .ok engine)
    (hcatalog : rotateCatalog s.engine s.catalog after.id = some catalog) :
    s.follow previous segment nextSequence x d = some ⟨engine, catalog, x, d⟩ := by
  simp only [follow, hbefore, hafter, Option.bind_eq_bind, Option.bind_some, hadopt, Except.toOption,
    hcatalog]
  rfl

/-- The engine follows a rotation of the writer. -/
theorem Mirrors.follow (h : Mirrors s earlier last) {io : Io} {w : Writer} {d : Disk} (online : Bool)
    (hrotate : rotate s.session.writer io s.disk = (.ok w, d))
    (htarget : w.rotationTargetBytes = s.session.writer.rotationTargetBytes) :
    ∃ t, s.follow s.session.writer.segment w.segment w.nextSequence ⟨w, online⟩ d = some t ∧
      ∃ earlier' last', Mirrors t earlier' last' := by
  have hsequence : s.session.writer.nextSequence = s.engine.nextSequence := by
    rw [h.nextSequence, h.holds.sequence]
  rcases h.holds.rotate hrotate with ⟨-, hempty, hw, hd⟩ | hnext
  · -- an empty segment stays
    have hbytes : s.engine.segment.bytes = 44 := by
      rw [h.bytes, hempty, h.holds.written.length_nil]
    have hcount : s.engine.segment.count = 0 := by rw [h.count, hempty, List.length_nil]
    refine ⟨{ s with session := ⟨w, online⟩, disk := d }, ?_, earlier, last, ?_⟩
    · rw [hw]
      exact follow_eq h.view h.view (by
        simp [Engine.OnlineCheckpoint.adoptRotation, h.sealed, hbytes, hcount, hsequence])
        (by rw [rotateCatalog, if_pos (beq_self_eq_true _)])
    · rw [hw, hd]
      exact ⟨h.holds, h.id, h.sealed, h.bytes, h.count, h.nextSequence, h.target, h.historyBytes,
        h.segmentCount, h.catalog⟩
  · have hsegment : w.segment = Physical.scanned (successorHeader s.session.writer) [] := hnext.segment
    have hnumber : w.nextSequence = s.engine.nextSequence := by
      rw [← hsequence]
      exact hnext.sequence
    have hwhole : last.Whole := hnext.earlier last (by simp)
    have hother : (s.engine.segment.id + 1 == s.engine.segment.id) = false :=
      beq_eq_false_iff_ne.mpr (Nat.succ_ne_self _)
    have hid : (successorHeader s.session.writer).id = s.engine.segment.id + 1 := by
      rw [h.id, ← h.holds.id]
      rfl
    have hbytes : (Physical.openBytes (successorHeader s.session.writer) []).length = 44 :=
      hnext.written.length_nil
    have hview : (segmentCatalogEntry w.segment).view? =
        some ⟨s.engine.segment.id + 1, false, 44, 0, SegmentView.unsealed_empty⟩ := by
      rw [hsegment]
      exact view?_eq_some.mpr ⟨hid.symm, rfl, hbytes.symm, rfl⟩
    have hcatalog : rotateCatalog s.engine s.catalog (s.engine.segment.id + 1) =
        some ((entries (earlier ++ [last]) ⟨successorHeader s.session.writer, []⟩).rtake
          segmentCatalogLimit) := by
      have hnew : entry ⟨successorHeader s.session.writer, []⟩ false =
          { id := s.engine.segment.id + 1
            firstSequence := s.engine.nextSequence
            lastSequence := none
            count := 0
            bytes := 44
            sealed := false } := by
        rw [← hid, ← hsequence, ← hbytes]
        rfl
      rw [rotateCatalog, hother, h.getLast, if_neg Bool.false_ne_true, Option.map_some]
      simp only [h.sealed, Bool.false_eq_true, if_false]
      rw [h.catalog, entries, entries, List.map_append, List.map_singleton, hnew, entry_sealed hwhole,
        h.bytes, limit_eq, rtake_replace_append]
    have hadopt : Engine.OnlineCheckpoint.adoptRotation s.engine
        ⟨s.engine.segment, ⟨s.engine.segment.id + 1, false, 44, 0, SegmentView.unsealed_empty⟩,
          w.nextSequence⟩ = .ok { s.engine with
            segment := ⟨s.engine.segment.id + 1, false, 44, 0, SegmentView.unsealed_empty⟩
            segmentCount := s.engine.segmentCount + 1
            historyBytes := s.engine.historyBytes + 44 + if s.engine.segment.sealed then 0 else 64 } := by
      simp [Engine.OnlineCheckpoint.adoptRotation, hnumber]
    refine ⟨_, follow_eq h.view hview hadopt hcatalog, earlier ++ [last],
      ⟨successorHeader s.session.writer, []⟩, ?_⟩
    refine ⟨hnext, hid.symm, rfl, hbytes.symm, rfl, ?_, h.target.trans htarget.symm, ?_, ?_, ?shown⟩
    case shown => dsimp only
    · show s.engine.nextSequence = _
      rw [← hsequence]
      rfl
    · have hsealed : Disk.totalBytes ⟨earlier.map Stored.sealedFile, last.sealedFile⟩ =
          Disk.totalBytes ⟨earlier.map Stored.sealedFile, last.file false⟩ + 64 :=
        totalBytes_highest _ _ _ 64 (length_sealed hwhole)
      have hfile : (Stored.file ⟨successorHeader s.session.writer, []⟩ false).bytes.length = 44 := hbytes
      show s.engine.historyBytes + 44 + (if s.engine.segment.sealed then 0 else 64) = d.totalBytes
      rw [h.historyBytes, h.holds.disk, hnext.disk, totalBytes_append, hsealed, hfile, h.sealed,
        if_neg Bool.false_ne_true, Nat.add_right_comm]
    · show s.engine.segmentCount + 1 = _
      rw [h.segmentCount, List.length_append, List.length_singleton]

/-- A session that knows the same of the files. -/
theorem Mirrors.congr (h : Mirrors s earlier last) {x : Session}
    (hsegment : x.writer.segment = s.session.writer.segment)
    (hsequence : x.writer.nextSequence = s.session.writer.nextSequence)
    (hstore : x.writer.storeId = s.session.writer.storeId)
    (htarget : x.writer.rotationTargetBytes = s.session.writer.rotationTargetBytes) :
    Mirrors { s with session := x } earlier last := by
  refine ⟨⟨?_, h.holds.disk, ?_, ?_, ?_, h.holds.written, h.holds.closed, h.holds.earlier⟩, h.id, h.sealed,
    h.bytes, h.count, h.nextSequence, h.target.trans htarget.symm, h.historyBytes, h.segmentCount,
    h.catalog⟩
  · rw [htarget]
    exact h.holds.target
  · rw [hsegment]
    exact h.holds.segment
  · rw [hsequence]
    exact h.holds.sequence
  · rw [hstore]
    exact h.holds.storeId

/-! ## One step -/

/-- What a label that is not lost leads to. -/
def Onward (s : Shadow) (label : Label) (out : Answer × Session × Disk) : Prop :=
  lost out.1 = true ∧ s.answered label out = none ∨
    lost out.1 = false ∧ ∃ t, s.answered label out = some t ∧ ∃ earlier last, Mirrors t earlier last

theorem Mirrors.append (h : Mirrors s earlier last) (type schema : ℕ) (payload : Binary) (io : Io) :
    s.Onward (.append type schema payload io)
      (serve s.session s.disk (.mutate (.append type schema payload)) io) := by
  have hended := mutate_ended s.session.writer s.disk (.append type schema payload) io
  have htarget := mutate_target s.session.writer s.disk type schema payload io
  have hmutate : ∀ {receipt w d}, mutate s.session.writer s.disk (.append type schema payload) io =
      (.appended receipt, w, d) → _ := fun hm ↦ h.holds.mutate_append hm
  unfold serve
  dsimp only
  generalize mutate s.session.writer s.disk (.append type schema payload) io = out at *
  obtain ⟨reply, w, d⟩ := out
  cases hended with
  | appended _ =>
    obtain ⟨t, ht, hmirrors⟩ := Mirrors.receive (x := ⟨w, s.session.online⟩) h (hmutate rfl).2 htarget
    exact .inr ⟨rfl, t, ht, hmirrors⟩
  | sealed hrequest => cases hrequest
  | rotated hrequest => cases hrequest
  | refused happended hdone huncertain =>
    have hrest : lost (.mutated reply) = false ∧ s.answered (.append type schema payload io)
        (.mutated reply, s.session, s.disk) = some s := by
      cases reply with
      | appended receipt => exact absurd rfl (happended receipt)
      | uncertain failure => exact absurd rfl (huncertain failure)
      | _ => exact ⟨rfl, rfl⟩
    exact .inr ⟨hrest.1, s, hrest.2, earlier, last, h⟩
  | uncertain => exact .inl ⟨rfl, rfl⟩

theorem Mirrors.beginGroup (h : Mirrors s earlier last) (admits : Bool) (io : Io) :
    s.Onward (.beginGroup admits io) (serve s.session s.disk (.beginGroup admits) io) := by
  unfold serve SegmentOps.beginGroup
  dsimp only
  split
  · exact .inr ⟨rfl, s, rfl, earlier, last, h⟩
  · split
    · exact .inr ⟨rfl, s, rfl, earlier, last, h⟩
    · split
      · exact .inr ⟨rfl, s, rfl, earlier, last, h⟩
      · split
        · exact .inr ⟨rfl, s, rfl, earlier, last, h⟩
        · exact .inr ⟨rfl, _, rfl, earlier, last, h.congr rfl rfl rfl rfl⟩

theorem syncGroup_disk (count : ℕ) (io : Io) (d : Disk) : (syncGroup count io d).2 = d := by
  unfold syncGroup
  split
  · rfl
  · rw [Action.perform_run]
    split
    · rfl
    · rfl

theorem Mirrors.finishGroup (h : Mirrors s earlier last) (owns : Bool) (io : Io) :
    s.Onward (.finishGroup owns io) (serve s.session s.disk (.finishGroup owns) io) := by
  unfold serve SegmentOps.finishGroup
  dsimp only
  split
  · exact .inr ⟨rfl, s, rfl, earlier, last, h⟩
  · split
    · exact .inr ⟨rfl, s, rfl, earlier, last, h⟩
    · split
      · exact .inr ⟨rfl, s, rfl, earlier, last, h⟩
      case isFalse count _ _ =>
        have hdisk := syncGroup_disk count io s.disk
        split
        case h_1 d' hsync =>
          rw [hsync] at hdisk
          dsimp only at hdisk
          rw [hdisk]
          exact .inr ⟨rfl, _, rfl, earlier, last, h.congr rfl rfl rfl rfl⟩
        case h_2 => exact .inl ⟨rfl, rfl⟩

theorem Mirrors.compact (h : Mirrors s earlier last) (admits : Bool) (io : Io) :
    s.Onward (.compact admits io)
      (serve s.session s.disk (.compactOnline ((s.engine.nextSequence : ℤ) - 1) admits) io) := by
  unfold serve startCompaction
  dsimp only
  split
  · exact .inr ⟨rfl, s, rfl, earlier, last, h⟩
  · split
    case h_1 rotated d' hrotate =>
      obtain ⟨t, ht, hmirrors⟩ := h.follow true hrotate (rotate_target hrotate)
      exact .inr ⟨rfl, t, ht, hmirrors⟩
    case h_2 failure d' hrotate =>
      cases failure with
      | reject reason =>
        rw [rotate_reject hrotate]
        exact .inr ⟨rfl, s, rfl, earlier, last, h⟩
      | io step => exact .inl ⟨rfl, rfl⟩
      | segment error => exact .inl ⟨rfl, rfl⟩
      | successorMismatch => exact .inl ⟨rfl, rfl⟩

/-- A request whose outcome the writer knows is served, and both sides agree after it. -/
theorem Mirrors.onward (h : Mirrors s earlier last) {label : Label} {command : Command} {io : Io}
    (hcommand : s.command label = some (command, io)) :
    s.Onward label (serve s.session s.disk command io) := by
  cases label with
  | append type schema payload io' =>
    cases hcommand
    exact h.append type schema payload io
  | beginGroup admits io' =>
    cases hcommand
    exact h.beginGroup admits io
  | finishGroup owns io' =>
    cases hcommand
    exact h.finishGroup owns io
  | compact admits io' =>
    cases hcommand
    exact h.compact admits io
  | abandoned => cases hcommand

theorem Mirrors.step (h : Mirrors s earlier last) {label : Label} {t : Shadow}
    (hstep : s.step label = some t) : ∃ earlier' last', Mirrors t earlier' last' := by
  unfold Shadow.step at hstep
  split at hstep
  case h_1 command io hcommand =>
    rcases h.onward hcommand with ⟨-, hnone⟩ | ⟨-, t', ht, hmirrors⟩
    · rw [hnone] at hstep
      cases hstep
    · rw [ht] at hstep
      cases hstep
      exact hmirrors
  case h_2 =>
    cases hstep
    exact ⟨earlier, last, h.congr rfl rfl rfl rfl⟩

end Mirrors

/-! ## The start -/

theorem recovers_segments {r : Reader.Recovered} {w : Writer} {d : Disk} {earlier : List Stored}
    {last : Stored} {closed : Bool} (h : Holds w d earlier last closed) (hr : Recovers r d) :
    r.segments = earlier.map (entry · true) ++ [entry last closed] := by
  have hsome := hr.segments.trans (catalog_eq h)
  exact List.map_injective_iff.mpr (Option.some_injective _) hsome

theorem totalBytes_entries {w : Writer} {d : Disk} {earlier : List Stored} {last : Stored} {closed : Bool}
    (h : Holds w d earlier last closed) :
    d.totalBytes = ((earlier.map (entry · true) ++ [entry last closed]).map Summary.bytes).sum := by
  rw [h.disk, Disk.totalBytes, Disk.files, List.map_append, List.map_append, List.map_map, List.map_map]
  cases closed <;> rfl

theorem includeActiveSegment_same {l : List Summary} {last active : Summary} (h : last.id = active.id) :
    includeActiveSegment (l ++ [last]) active = l ++ [active] := by
  rw [includeActiveSegment, List.getLast?_concat, List.dropLast_concat, Option.any_some,
    if_pos (beq_iff_eq.mpr h)]

theorem includeActiveSegment_new {l : List Summary} {last active : Summary} (h : last.id ≠ active.id) :
    includeActiveSegment (l ++ [last]) active = l ++ [last] ++ [active] := by
  rw [includeActiveSegment, List.getLast?_concat, Option.any_some, if_neg (mt beq_iff_eq.mp h)]

/-- A store that was opened as it was. -/
theorem mirrors_same {closed opened : Run} {config : Config} {r : Reader.Recovered} {view : SegmentView}
    (h : Holds closed.writer closed.disk closed.earlier closed.last false)
    (hopened : Holds opened.writer opened.disk closed.earlier closed.last false)
    (hdisk : opened.disk = closed.disk) (hr : Recovers r closed.disk)
    (htarget : config.rotationTargetBytes = opened.writer.rotationTargetBytes)
    (hview : (segmentCatalogEntry opened.writer.segment).view? = some view) :
    Mirrors (start config r view opened) closed.earlier closed.last := by
  have hsegment : opened.writer.segment = closed.last.segment false := hopened.segment
  have hsegments := recovers_segments h hr
  have hhighest : r.highest = some (entry closed.last false) := by
    rw [hr.highest, hsegments, List.getLast?_concat]
  rw [hsegment] at hview
  obtain ⟨hid, hsealed, hbytes, hcount⟩ := view?_eq_some.mp hview
  have hnone : Engine.init.opened r view = 0 := by
    rw [Engine.init.opened, hhighest, hid]
    exact Nat.sub_self _
  refine ⟨hopened, hid, hsealed, hbytes, hcount, ?_, htarget, ?_, ?_, ?_⟩
  · have hsequence := hr.nextSequence
    rw [hhighest, Option.map_some, Option.some.injEq] at hsequence
    exact hsequence.symm
  · show r.totalSegmentBytes + 44 * Engine.init.opened r view = opened.disk.totalBytes
    rw [hnone, hr.totalSegmentBytes, hsegments, hdisk, totalBytes_entries h, Nat.mul_zero, Nat.add_zero]
  · show r.segmentCount + Engine.init.opened r view = _
    rw [hnone, hr.segmentCount, hsegments, List.length_append, List.length_map, List.length_singleton]
  · have hactive : segmentCatalogEntry (closed.last.segment false) = entry closed.last false := rfl
    have hcatalog : includeActiveSegment r.segments (segmentCatalogEntry opened.writer.segment) =
        entries closed.earlier closed.last := by
      rw [hsegment, hsegments, hactive, includeActiveSegment_same rfl, entries]
    rw [start, hcatalog]

/-- A store whose last segment was sealed. -/
theorem mirrors_successor {closed opened : Run} {config : Config} {r : Reader.Recovered}
    {view : SegmentView} (h : Holds closed.writer closed.disk closed.earlier closed.last true)
    (hopened : Holds opened.writer opened.disk (closed.earlier ++ [closed.last])
      ⟨successorHeader closed.writer, []⟩ false) (hr : Recovers r closed.disk)
    (htarget : config.rotationTargetBytes = opened.writer.rotationTargetBytes)
    (hview : (segmentCatalogEntry opened.writer.segment).view? = some view) :
    Mirrors (start config r view opened) (closed.earlier ++ [closed.last])
      ⟨successorHeader closed.writer, []⟩ := by
  have hsegment : opened.writer.segment = Physical.scanned (successorHeader closed.writer) [] :=
    hopened.segment
  have hsegments := recovers_segments h hr
  have hhighest : r.highest = some (entry closed.last true) := by
    rw [hr.highest, hsegments, List.getLast?_concat]
  have hheader : (successorHeader closed.writer).id = closed.last.header.id + 1 := by
    rw [← h.id]
    rfl
  rw [hsegment] at hview
  obtain ⟨hid, hsealed, hbytes, hcount⟩ := view?_eq_some.mp hview
  have hid' : view.id = closed.last.header.id + 1 := hid.trans hheader
  have hone : Engine.init.opened r view = 1 := by
    rw [Engine.init.opened, hhighest, hid']
    show closed.last.header.id + 1 - closed.last.header.id = 1
    omega
  have hempty : (Physical.openBytes (successorHeader closed.writer) []).length = 44 :=
    hopened.written.length_nil
  refine ⟨hopened, hid, hsealed, hbytes, hcount, ?_, htarget, ?_, ?_, ?_⟩
  · have hsequence := hr.nextSequence
    rw [hhighest, Option.map_some, Option.some.injEq] at hsequence
    show r.nextSequence = closed.writer.nextSequence
    rw [h.sequence]
    exact hsequence.symm
  · have hfile : (Stored.file ⟨successorHeader closed.writer, []⟩ false).bytes.length = 44 := hempty
    have hclosed : Disk.totalBytes ⟨closed.earlier.map Stored.sealedFile, closed.last.sealedFile⟩ =
        closed.disk.totalBytes := by
      rw [h.disk]
      rfl
    show r.totalSegmentBytes + 44 * Engine.init.opened r view = opened.disk.totalBytes
    rw [hone, hr.totalSegmentBytes, hsegments, hopened.disk, totalBytes_append, hfile, hclosed,
      totalBytes_entries h, Nat.mul_one]
  · show r.segmentCount + Engine.init.opened r view = _
    rw [hone, hr.segmentCount, hsegments, List.length_append, List.length_map, List.length_singleton,
      List.length_append, List.length_singleton]
  · have hactive : segmentCatalogEntry (Physical.scanned (successorHeader closed.writer) []) =
        entry ⟨successorHeader closed.writer, []⟩ false := rfl
    have hother : (entry closed.last true).id ≠ (entry ⟨successorHeader closed.writer, []⟩ false).id := by
      show closed.last.header.id ≠ (successorHeader closed.writer).id
      omega
    have hcatalog : includeActiveSegment r.segments (segmentCatalogEntry opened.writer.segment) =
        entries (closed.earlier ++ [closed.last]) ⟨successorHeader closed.writer, []⟩ := by
      rw [hsegment, hsegments, hactive, includeActiveSegment_new hother, entries, List.map_append,
        List.map_singleton]
    rw [start, hcatalog]

theorem mirrors_start {s : Shadow} (h : shadow.initial s) : ∃ earlier last, Mirrors s earlier last := by
  obtain ⟨closed, opened, io, config, r, view, ⟨was, hheld⟩, hstep, hr, htarget, hview, rfl⟩ := h
  obtain ⟨w, d, rfl, ⟨rfl, hd, hopened⟩ | ⟨rfl, hnext⟩⟩ := hheld.reopen hstep
  · refine ⟨_, _, mirrors_same hheld ?_ ?_ hr htarget hview⟩
    · rw [put_writer, put_disk]
      exact hopened
    · rw [put_disk, hd]
  · refine ⟨_, _, mirrors_successor hheld ?_ hr htarget hview⟩
    rw [put_writer, put_disk]
    exact hnext

/-- **The engine's shadow is the files.** On any store, after any appends of any sizes, with the
rotations they bring and those of online compactions that came to nothing, the engine's segment, sequence
number, bytes, segments and catalog are the writer's and those of the files. And as long as the port does
not fail the writer, the engine finds every receipt and every rotation as it expected them. -/
theorem shadow_agrees {s : Shadow} (hs : shadow.Reachable s) : s.Agrees ∧
    ∀ label command io, s.command label = some (command, io) →
      lost (serve s.session s.disk command io).1 = false → (s.step label).isSome = true := by
  have hmirrors : ∃ earlier last, Mirrors s earlier last := by
    refine hs.invariant (fun t ↦ mirrors_start) ?_
    rintro t label t' ⟨earlier, last, h⟩ hstep
    exact h.step hstep
  obtain ⟨earlier, last, h⟩ := hmirrors
  refine ⟨h.agrees, fun label command io hcommand hlost ↦ ?_⟩
  unfold step
  rw [hcommand]
  dsimp only
  rcases h.onward hcommand with ⟨hfound, -⟩ | ⟨-, t, ht, -⟩
  · rw [hlost] at hfound
    cases hfound
  · rw [ht]
    rfl

/-- A store with one empty segment. -/
def sampleStore : Run := Run.fresh sampleHeader Physical.minRotationBytes .sync

/-- The engine on it, after the writer has opened it. -/
def sampleShadow : Shadow :=
  start Engine.Sample.config Engine.Sample.recovered Engine.Sample.segment sampleStore

theorem sampleShadow_initial : shadow.initial sampleShadow := by
  have hholds : Holds sampleStore.writer sampleStore.disk sampleStore.earlier sampleStore.last false := by
    obtain ⟨closed, h⟩ := held_fresh sampleHeader_valid le_rfl (by decide) .sync
    have hopen := h.segment
    cases closed with
    | false => exact h
    | true => exact absurd (congrArg Physical.Segment.sealed hopen) Bool.false_ne_true
  have hentry : entry sampleStore.last false = ⟨1, 1, none, 0, 44, false⟩ := by
    have hbytes : (Physical.openBytes sampleHeader []).length = 44 := hholds.written.length_nil
    show (⟨1, 1, none, 0, (Physical.openBytes sampleHeader []).length, false⟩ : Summary) = _
    rw [hbytes]
  refine ⟨sampleStore, sampleStore, sound, Engine.Sample.config, Engine.Sample.recovered,
    Engine.Sample.segment, ⟨false, hholds⟩, reopen_open hholds rfl rfl sound, ?_, rfl, ?_, rfl⟩
  · refine ⟨?_, rfl, rfl, rfl, rfl⟩
    rw [catalog_eq hholds, hentry]
    rfl
  · have hview := view?_eq_some (e := entry sampleStore.last false) (v := Engine.Sample.segment)
    exact hview.mpr (by rw [hentry]; exact ⟨rfl, rfl, rfl, rfl⟩)

theorem shadow_agrees_sample : ∃ s, shadow.run sampleShadow [.append 1 1 [1, 2, 3] sound] = some s ∧
    s.Agrees ∧ s.engine.historyBytes = 75 := by
  have hrun : ((shadow.run sampleShadow [.append 1 1 [1, 2, 3] sound]).any fun s ↦
      s.engine.historyBytes == 75) = true := by decide +kernel
  obtain ⟨s, hs, hresult⟩ := (Option.any_eq_true _ _).mp hrun
  exact ⟨s, hs, (shadow_agrees (Machine.reachable_of_run sampleShadow_initial hs)).1, beq_iff_eq.mp hresult⟩

end Shadow

end Tay
