import Tay.Writer.SegmentOps

/-!
# Segment files along a run

A writer serves append, seal and rotate requests and is now and then closed and opened again. The run
here goes on until a request fails after it was begun, for then the writer is poisoned. Beside the files
it keeps what was put into them: for every segment its header and its records.

Every file is what its records are written as. So the parser gives exactly these records back, with the
totals of the footer where there is one, and of a file that was cut anywhere it reports the cut or reads
an open segment with the first of the records.
-/

open Foundation

namespace Tay.SegmentOps

open Physical

/-! ## Runs -/

structure Run where
  writer : Writer
  disk : Disk
  /-- The segments below the highest, and what was put into them. -/
  earlier : List Stored
  /-- The highest segment. -/
  last : Stored

namespace Run

/-- A store with one empty segment. -/
def fresh (header : Header) (target : ℕ) (durability : SyncMode) : Run where
  writer := ⟨scanned header [], header.firstSequence, header.storeId, target, durability, none, false⟩
  disk := ⟨[], ⟨header.id, openBytes header []⟩⟩
  earlier := []
  last := ⟨header, []⟩

/-- The records go to the segment the writer is in, which may be a new one. -/
def put (s : Run) (w : Writer) (d : Disk) (records : List Physical.Record) : Run :=
  if w.segment.id = s.writer.segment.id then
    ⟨w, d, s.earlier, ⟨s.last.header, s.last.records ++ records⟩⟩
  else ⟨w, d, s.earlier ++ [s.last],
    ⟨⟨w.segment.id, w.segment.firstSequence, w.segment.storeId⟩, records⟩⟩

end Run

theorem put_writer (s : Run) (w : Writer) (d : Disk) (records : List Physical.Record) :
    (s.put w d records).writer = w := by
  unfold Run.put
  split <;> rfl

theorem put_disk (s : Run) (w : Writer) (d : Disk) (records : List Physical.Record) :
    (s.put w d records).disk = d := by
  unfold Run.put
  split <;> rfl

/-- The record that a request brings. -/
def Request.records (w : Writer) : Request → List Physical.Record
  | .append type schema payload => [candidate w type schema payload]
  | _ => []

inductive Label
  | request (request : Request) (io : Io)
  /-- The writer is closed, and a new one opens the store. -/
  | reopen (io : Io)

/-- `open_ready`: an active segment is taken as it was read, and a sealed one gets a successor. -/
def openReady (w : Writer) (segment : Segment) (io : Io) : Action Writer :=
  let next := { w with
    segment
    nextSequence := segment.firstSequence + segment.count
    groupCommit := none
    poisoned := false }
  if segment.sealed then createSuccessor next io else pure next

/-- What the highest segment is scanned with. -/
def Run.options (s : Run) : Options :=
  { id := some s.disk.highest.id, storeId := some s.writer.storeId }

def Run.step (s : Run) : Label → Option Run
  | .request request io =>
    match mutate s.writer s.disk request io with
    | (.uncertain _, _, _) => none
    | (.appended _, w, d) => some (s.put w d (request.records s.writer))
    | (_, w, d) => some (s.put w d [])
  | .reopen io =>
    match parse s.disk.highest.bytes s.options with
    | some (.ok segment _) =>
      match openReady s.writer segment io s.disk with
      | (.ok w, d) => some (s.put w d [])
      | (.error _, _) => none
    | _ => none

def files : Machine Run Label where
  initial s := ∃ header target durability, header.Valid ∧ minRotationBytes ≤ target ∧
    target ≤ maxBytes ∧ s = Run.fresh header target durability
  step := Run.step

/-! ## The files are what was put into them -/

/-- The writer and the files, sealed or not. -/
def Run.Held (s : Run) : Prop := ∃ closed, Holds s.writer s.disk s.earlier s.last closed

theorem held_fresh {header : Header} (hheader : header.Valid) {target : ℕ}
    (hmin : minRotationBytes ≤ target) (hmax : target ≤ maxBytes) (durability : SyncMode) :
    (Run.fresh header target durability).Held := by
  have hempty : openBytes header [] = CRC32C.checked header.body := List.append_nil _
  have hwritten : Written header [] := by
    refine ⟨hheader, trivial, ?_⟩
    rw [hempty, hheader.length_wire]
    decide
  exact ⟨false, ⟨hmin, hmax⟩, rfl, rfl, rfl, rfl, hwritten, fun hfalse ↦ (by cases hfalse),
    fun s hs ↦ (by cases hs)⟩

section Held

variable {s : Run} {w : Writer} {d : Disk} {closed : Bool} {io : Io}

theorem Holds.id {earlier : List Stored} {last : Stored} (h : Holds w d earlier last closed) :
    w.segment.id = last.header.id := by
  rw [h.segment]
  cases closed <;> rfl

/-- The segment stays, and has the records. -/
theorem put_here {records : List Physical.Record}
    (hid : w.segment.id = s.writer.segment.id)
    (h : Holds w d s.earlier ⟨s.last.header, s.last.records ++ records⟩ closed) :
    (s.put w d records).Held := by
  rw [Run.put, if_pos hid]
  exact ⟨closed, h⟩

/-- A new segment has the records. -/
theorem put_successor {records : List Physical.Record}
    (h : Holds w d (s.earlier ++ [s.last]) ⟨successorHeader s.writer, records⟩ false) :
    (s.put w d records).Held := by
  have hid : ¬w.segment.id = s.writer.segment.id := by
    rw [h.id]
    exact Nat.succ_ne_self _
  have hheader : (⟨w.segment.id, w.segment.firstSequence, w.segment.storeId⟩ : Header) =
      successorHeader s.writer := by
    rw [h.segment]
    rfl
  rw [Run.put, if_neg hid, hheader]
  exact ⟨false, h⟩

/-- The segment stays, and nothing is put into it. -/
theorem put_nothing (hid : w.segment.id = s.writer.segment.id)
    (h : Holds w d s.earlier s.last closed) : (s.put w d []).Held := by
  have hnil : (⟨s.last.header, s.last.records ++ []⟩ : Stored) = s.last := by
    rw [List.append_nil]
  rw [← hnil] at h
  exact put_here hid h

theorem held_rotate (h : Holds s.writer s.disk s.earlier s.last closed)
    (hrotate : rotate s.writer io s.disk = (.ok w, d)) : (s.put w d []).Held := by
  rcases h.rotate hrotate with ⟨-, -, rfl, rfl⟩ | hnext
  · exact put_nothing rfl h
  · exact put_successor hnext

theorem held_seal (h : Holds s.writer s.disk s.earlier s.last false) (hcount : s.writer.segment.count ≠ 0)
    (hseal : sealSegment s.writer io s.disk = (.ok w, d)) : (s.put w d []).Held := by
  have hrecords : s.last.records ≠ [] := by
    intro hnil
    refine hcount ?_
    rw [h.segment]
    show s.last.records.length = 0
    rw [hnil, List.length_nil]
  have hsealed := h.sealSegment hrecords hseal
  exact put_nothing (by rw [hsealed.id, h.id]) hsealed

theorem held_append {type schema : ℕ} {payload : Binary} {receipt : Receipt}
    (h : Holds s.writer s.disk s.earlier s.last closed)
    (happended : Appended s.writer s.disk s.earlier s.last (candidate s.writer type schema payload)
      receipt w d) : (s.put w d [candidate s.writer type schema payload]).Held := by
  cases happended with
  | here _ hholds =>
    refine put_here ?_ hholds
    rw [hholds.id, h.id]
  | successor _ hholds => exact put_successor hholds

theorem held_request {request : Request} (h : s.Held) {t : Run}
    (hstep : s.step (.request request io) = some t) : t.Held := by
  obtain ⟨closed, h⟩ := h
  have hended := mutate_ended s.writer s.disk request io
  unfold Run.step at hstep
  dsimp only at hstep
  split at hstep
  case h_1 => cases hstep
  case h_2 receipt w d hmutate =>
    cases hstep
    rw [hmutate] at hended
    cases hended with
    | appended hrequest =>
      subst hrequest
      exact held_append h (h.mutate_append hmutate).2
    | refused happended => exact absurd rfl (happended receipt)
  case h_3 reply w d huncertain happended hmutate =>
    cases hstep
    rw [hmutate] at hended
    cases hended with
    | appended => exact (happended _ rfl).elim
    | sealed _ hopen hcount hseal =>
      have hclosed : closed = false := by
        rw [h.segment] at hopen
        cases closed with
        | false => rfl
        | true => cases hopen
      subst hclosed
      exact held_seal h hcount hseal
    | rotated _ hrotate => exact held_rotate h hrotate
    | refused => exact put_nothing rfl h
    | uncertain => exact (huncertain _ rfl).elim

/-- The highest segment is read as it is known. -/
theorem parse_highest (h : Holds s.writer s.disk s.earlier s.last closed) :
    parse s.disk.highest.bytes s.options = some (.ok (s.last.segment closed) s.last.records) := by
  have hid : s.disk.highest.id = s.last.header.id := by
    rw [h.disk]
    cases closed <;> rfl
  have hstore : validStoreId? s.last.header.storeId = true := h.written.header.storeId
  have hadmit : s.options.Admit s.last.header s.last.records := by
    refine ⟨?_, ?_, ?_, ?_⟩
    · simp only [validOptions?, Run.options, hid, h.storeId, Option.all_some, h.written.header.id, hstore,
        le_refl, decide_true, Bool.and_self]
    · intro e he
      cases he
      exact hid
    · intro e he
      cases he
      exact h.storeId
    · intro r hr
      exact (numbered_valid h.written.numbered r hr).payload
  cases hc : closed with
  | false =>
    rw [h.disk, hc]
    exact parse_open h.written hadmit rfl
  | true =>
    rw [h.disk, hc]
    exact parse_sealed h.written hadmit (h.closed hc)

/-- A writer that opens the store: in the segment as it was, or in a successor if that was sealed. -/
theorem Holds.reopen (h : Holds s.writer s.disk s.earlier s.last closed) {t : Run}
    (hstep : s.step (.reopen io) = some t) : ∃ w d, t = s.put w d [] ∧
      (closed = false ∧ d = s.disk ∧ Holds w d s.earlier s.last false ∨
        closed = true ∧ Holds w d (s.earlier ++ [s.last]) ⟨successorHeader s.writer, []⟩ false) := by
  have hopened : Holds { s.writer with
      segment := s.last.segment closed
      nextSequence := (s.last.segment closed).firstSequence + (s.last.segment closed).count
      groupCommit := none
      poisoned := false } s.disk s.earlier s.last closed := by
    refine ⟨h.target, h.disk, rfl, ?_, h.storeId, h.written, h.closed, h.earlier⟩
    cases closed <;> rfl
  unfold Run.step at hstep
  dsimp only at hstep
  rw [parse_highest h] at hstep
  dsimp only at hstep
  split at hstep
  case h_2 => cases hstep
  case h_1 w d hopen =>
    cases hstep
    refine ⟨w, d, rfl, ?_⟩
    unfold openReady at hopen
    cases closed with
    | false =>
      obtain ⟨rfl, rfl⟩ := Action.pure_ok.mp hopen
      exact .inl ⟨rfl, rfl, hopened⟩
    | true =>
      have hsame : successorHeader { s.writer with
          segment := s.last.segment true
          nextSequence := (s.last.segment true).firstSequence + (s.last.segment true).count
          groupCommit := none
          poisoned := false } = successorHeader s.writer := by
        rw [successorHeader, successorHeader, hopened.sequence, h.sequence, hopened.id, h.id]
      have hnext := hopened.createSuccessor hopen
      rw [hsame] at hnext
      exact .inr ⟨rfl, hnext⟩

/-- An open segment is taken as it is. -/
theorem reopen_open (h : Holds s.writer s.disk s.earlier s.last false)
    (hgroup : s.writer.groupCommit = none) (hpoisoned : s.writer.poisoned = false) (io : Io) :
    s.step (.reopen io) = some s := by
  have hsequence := h.sequence
  have hsegment := h.segment
  unfold Run.step
  dsimp only
  rw [parse_highest h]
  show some (s.put { s.writer with
    segment := s.last.segment false
    nextSequence := s.last.header.firstSequence + s.last.records.length
    groupCommit := none
    poisoned := false } s.disk []) = some s
  rw [← hsequence, ← hsegment, ← hgroup, ← hpoisoned, Run.put, if_pos rfl, List.append_nil]

theorem held_reopen (h : s.Held) {t : Run} (hstep : s.step (.reopen io) = some t) : t.Held := by
  obtain ⟨closed, h⟩ := h
  obtain ⟨w, d, rfl, ⟨-, -, hopened⟩ | ⟨-, hnext⟩⟩ := h.reopen hstep
  · exact put_nothing (by rw [hopened.id, h.id]) hopened
  · exact put_successor hnext

end Held

theorem reachable_held {s : Run} (hs : files.Reachable s) : s.Held := by
  refine hs.invariant ?_ ?_
  · rintro t ⟨header, target, durability, hheader, hmin, hmax, rfl⟩
    exact held_fresh hheader hmin hmax durability
  · intro t l t' ht hstep
    cases l with
    | request request io => exact held_request ht hstep
    | reopen io => exact held_reopen ht hstep

/-! ## What the parser makes of them -/

/-- A file is read as what was put into it, and cut anywhere it is not read as anything else. An open
segment is accepted as the highest only. -/
def Parses (options : Options) (closed : Bool) (stored : Stored) (file : File) : Prop :=
  options.Admit stored.header stored.records →
    ((closed = true ∨ options.highest = true) →
      parse file.bytes options = some (.ok (stored.segment closed) stored.records)) ∧
    ∀ n < file.bytes.length, Cut stored.header stored.records options (file.bytes.take n)

theorem parses_sealed {stored : Stored} (h : stored.Whole) (options : Options) :
    Parses options true stored stored.sealedFile :=
  fun ha ↦ ⟨fun _ ↦ parse_sealed h.1 ha h.2, fun _ hn ↦ parse_sealed_cut h.1 ha h.2 hn⟩

theorem parses_open {stored : Stored} (h : Written stored.header stored.records) (options : Options) :
    Parses options false stored stored.openFile := by
  refine fun ha ↦ ⟨fun hhighest ↦ ?_, fun _ hn ↦ parse_open_cut h ha hn⟩
  rcases hhighest with hclosed | hhighest
  · cases hclosed
  · exact parse_open h ha hhighest

/-- **Segment files parse to what was written.** In every run of the writer, every segment file is read
back as exactly the records that were appended to it, numbered one by one, and the segment that the scan
gives is the one the writer itself keeps, a sealed one with the footer that counts these records. A file
that was cut is reported, or it is read as an open segment with the first records, all of them whole. -/
theorem segments_parse {s : Run} (hs : files.Reachable s) (options : Options) :
    List.Forall₂ (Parses options true) s.earlier s.disk.earlier ∧
      Parses options s.writer.segment.sealed s.last s.disk.highest ∧
      s.writer.segment = s.last.segment s.writer.segment.sealed ∧
      ∀ stored ∈ s.last :: s.earlier, Numbered stored.header.firstSequence stored.records := by
  obtain ⟨closed, h⟩ := reachable_held hs
  have hclosed : s.writer.segment.sealed = closed := by
    rw [h.segment]
    cases closed <;> rfl
  refine ⟨?_, ?_, by rw [hclosed]; exact h.segment, ?_⟩
  · rw [h.disk]
    refine List.forall₂_map_right_iff.mpr (List.forall₂_same.mpr fun stored hstored ↦ ?_)
    exact parses_sealed (h.earlier stored hstored) options
  · rw [hclosed, h.disk]
    cases hc : closed with
    | false => exact parses_open h.written options
    | true => exact parses_sealed ⟨h.written, h.closed hc⟩ options
  · intro stored hstored
    rcases List.mem_cons.mp hstored with rfl | hstored
    · exact h.written.numbered
    · exact (h.earlier stored hstored).1.numbered

/-- A port that never fails. -/
def sound : Io := ⟨fun _ ↦ true, fun _ ↦ 0, false⟩

def sampleHeader : Header := ⟨1, 1, List.replicate 16 7⟩

/-- Two records, one of them without a payload. -/
def sampleLabels : List Label :=
  [.request (.append 1 1 [1, 2, 3]) sound, .request (.append 2 1 []) sound]

theorem sampleHeader_valid : sampleHeader.Valid := ⟨by decide, by decide, by decide⟩

theorem segments_parse_sample :
    ∃ s, files.run (Run.fresh sampleHeader minRotationBytes .sync) sampleLabels = some s ∧
      s.last.records.length = 2 ∧
      parse s.disk.highest.bytes {} = some (.ok s.writer.segment s.last.records) := by
  have hinitial : files.initial (Run.fresh sampleHeader minRotationBytes .sync) :=
    ⟨sampleHeader, minRotationBytes, .sync, sampleHeader_valid, le_rfl, by decide, rfl⟩
  have hrun : ((files.run (Run.fresh sampleHeader minRotationBytes .sync) sampleLabels).any fun s ↦
      s.last.records.length == 2 && !s.writer.segment.sealed) = true := by decide +kernel
  obtain ⟨s, hs, hresult⟩ := (Option.any_eq_true _ _).mp hrun
  rw [Bool.and_eq_true, beq_iff_eq, Bool.not_eq_true'] at hresult
  obtain ⟨-, hparses, hsegment, hnumbered⟩ := segments_parse (Machine.reachable_of_run hinitial hs) {}
  have hadmit : ({} : Options).Admit s.last.header s.last.records := by
    refine ⟨by decide, fun e he ↦ (by cases he), fun e he ↦ (by cases he), fun r hr ↦ ?_⟩
    exact (numbered_valid (hnumbered s.last List.mem_cons_self) r hr).payload
  have hparse := (hparses hadmit).1 (.inr rfl)
  rw [← hsegment] at hparse
  exact ⟨s, hs, hresult.1, hparse⟩

end Tay.SegmentOps
