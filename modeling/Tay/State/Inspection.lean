import Tay.Event.Reading
import Tay.Foundation.Base64
import Tay.State.CombinedInspection

/-!
# Cursors

`Tay.Inspection`: the position of a page as text that a client hands back. It carries the fingerprint of
the filter, and is refused with another filter; the offset is written in eight bytes. A client that follows
the cursors of one filter sees what the pages of the engine are.
-/

open Foundation

namespace Tay

open V2

namespace Inspection

/-- What is written in front of the fingerprint; a job without an offset is never written. -/
def positionBytes : Position → Option Binary
  | .after k (some offset) =>
    some (2 :: 0 :: Value.bigEndian 8 offset ++ Value.bigEndian 8 (ofLex k).1 ++ Value.bigEndian 16 (ofLex k).2)
  | .before k (some offset) =>
    some (2 :: 1 :: Value.bigEndian 8 offset ++ Value.bigEndian 8 (ofLex k).1 ++ Value.bigEndian 16 (ofLex k).2)
  | .after _ none | .before _ none => none
  | .last => some [2, 2]

/-- `encode_cursor`. -/
def encodeCursor (position : Position) (fingerprint : Binary) : Option Binary :=
  (positionBytes position).map fun bytes ↦ Base64.encode (bytes ++ fingerprint)

/-- The key of a job, and the fingerprint behind it. -/
def decodeKey (bytes fingerprint : Binary) : Option InspectionKey := do
  let insertedAt ← Value.field 8 bytes
  let id ← Value.field 16 insertedAt.2
  if id.2 = fingerprint ∧ time? insertedAt.1 ∧ id? id.1 then some (toLex (insertedAt.1, id.1)) else none

/-- `decode_position`. A cursor of version one has no offset. -/
def decodePosition (fingerprint : Binary) : Binary → Option Position
  | [] => none
  | [_] => none
  | version :: direction :: rest =>
    if version = 2 then
      if direction = 0 then
        (Value.field 8 rest).bind fun offset ↦
          (decodeKey offset.2 fingerprint).map fun key ↦ .after key (some offset.1)
      else if direction = 1 then
        (Value.field 8 rest).bind fun offset ↦
          (decodeKey offset.2 fingerprint).map fun key ↦ .before key (some offset.1)
      else if direction = 2 ∧ rest = fingerprint then some .last
      else none
    else if version = 1 then (decodeKey (direction :: rest) fingerprint).map fun key ↦ .after key none
    else none

/-- `decode_cursor`; no cursor is the first page, and `none` is the error. -/
def decodeCursor (fingerprint : Binary) : Option Binary → Option (Option Position)
  | none => some none
  | some cursor => (Base64.decode cursor).bind fun bytes ↦ (decodePosition fingerprint bytes).map some

/-! ## Reading back -/

theorem field_bigEndian (width n : ℕ) (rest : Binary) :
    Value.field width (Value.bigEndian width n ++ rest) = some (n % 256 ^ width, rest) := by
  have hlength : width ≤ (Value.bigEndian width n ++ rest).length := by
    rw [List.length_append, Value.bigEndian_length]
    exact Nat.le_add_right _ _
  rw [Value.field, if_pos hlength, List.take_left' (Value.bigEndian_length _ _),
    List.drop_left' (Value.bigEndian_length _ _), Value.ofBigEndian_bigEndian]

/-- The keys that are written: those of stored jobs. -/
def Readable (k : InspectionKey) : Prop := time? (ofLex k).1 = true ∧ id? (ofLex k).2 = true

theorem decodeKey_bytes {k : InspectionKey} (h : Readable k) (fingerprint : Binary) :
    decodeKey (Value.bigEndian 8 (ofLex k).1 ++ (Value.bigEndian 16 (ofLex k).2 ++ fingerprint)) fingerprint =
      some k := by
  have htime : (ofLex k).1 < 256 ^ 8 := by
    have hbound := of_decide_eq_true h.1
    unfold maxTime at hbound
    omega
  have hid : (ofLex k).2 < 256 ^ 16 := by
    have hbounds := h.2
    simp only [id?, Bool.and_eq_true, decide_eq_true_eq] at hbounds
    exact hbounds.2.trans_le (by decide)
  simp only [decodeKey, field_bigEndian, Nat.mod_eq_of_lt htime, Nat.mod_eq_of_lt hid, Option.bind_eq_bind,
    Option.bind_some, h.1, h.2, true_and, and_self, if_true]
  rfl

/-- A position as it is read back: the offset is cut off to eight bytes. -/
def wrapped : Position → Position
  | .after k value => .after k (value.map (· % 2 ^ 64))
  | .before k value => .before k (value.map (· % 2 ^ 64))
  | .last => .last

/-- The key of a position can be read. -/
def Placed : Position → Prop
  | .after k value => Readable k ∧ value.isSome
  | .before k value => Readable k ∧ value.isSome
  | .last => True

/-- **A cursor is read back** as the position it was written for. -/
theorem decodeCursor_encodeCursor {position : Position} (h : Placed position) (fingerprint : Binary) :
    ∃ cursor, encodeCursor position fingerprint = some cursor ∧
      decodeCursor fingerprint (some cursor) = some (some (wrapped position)) := by
  have hcursor : ∀ bytes, positionBytes position = some bytes →
      decodePosition fingerprint (bytes ++ fingerprint) = some (wrapped position) →
      ∃ cursor, encodeCursor position fingerprint = some cursor ∧
        decodeCursor fingerprint (some cursor) = some (some (wrapped position)) := by
    intro bytes hbytes hdecode
    refine ⟨Base64.encode (bytes ++ fingerprint), by rw [encodeCursor, hbytes, Option.map_some], ?_⟩
    rw [decodeCursor, Base64.decode_encode, Option.bind_some, hdecode, Option.map_some]
  cases position with
  | last => exact hcursor _ rfl (by simp [decodePosition, wrapped])
  | after k value =>
    obtain ⟨hkey, hvalue⟩ := h
    obtain ⟨offset, rfl⟩ := Option.isSome_iff_exists.mp hvalue
    refine hcursor _ rfl ?_
    simp only [List.cons_append, List.append_assoc, decodePosition, if_true, field_bigEndian,
      Option.bind_some, decodeKey_bytes hkey, Option.map_some, wrapped]
    rfl
  | before k value =>
    obtain ⟨hkey, hvalue⟩ := h
    obtain ⟨offset, rfl⟩ := Option.isSome_iff_exists.mp hvalue
    refine hcursor _ rfl ?_
    simp only [List.cons_append, List.append_assoc, decodePosition, if_true, field_bigEndian,
      Option.bind_some, decodeKey_bytes hkey, Option.map_some, wrapped]
    rfl

/-! ## Following cursors -/

/-- The same question, from another place. -/
def Query.seek (q : Query) (position : Option Position) : Query := { q with position := position }

/-- The offset a position carries. -/
def Position.offset? : Position → Option ℕ
  | .after _ value => value
  | .before _ value => value
  | .last => none

open CombinedInspection

variable (p : Projection) (store : TerminalStore) (q : Query)

def pageAt (position : Option Position) : Page := page p.inspection p.jobs store (q.seek position)

/-- The pages from one on, by the next keys. -/
def follow : ℕ → Page → List Page
  | 0, page => [page]
  | fuel + 1, page =>
    page :: match page.nextKey with
      | none => []
      | some position => follow fuel (pageAt p store q (some position))

/-- All pages; there are no more than jobs, or one. -/
def pages : List Page := follow p store q (pageAt p store q none).totalCount (pageAt p store q none)

/-- The jobs of all pages. -/
def listed : List Job := (pages p store q).flatMap Page.jobs

variable {p store q}

theorem pageAt_first (h : Inspectable p store) :
    pageAt p store q none = pageOf q.limit (listing p store q.filter) 0 :=
  Inspectable.page_first (q := q.seek none) h rfl

theorem pageAt_after (h : Inspectable p store) {i : ℕ} {job : Job}
    (hjob : (listing p store q.filter)[(i + 1) * q.limit - 1]? = some job)
    (hi : i < lastSheet q.limit (listing p store q.filter)) :
    pageAt p store q (some (.after (key job) (some ((i + 1) * q.limit)))) =
      pageOf q.limit (listing p store q.filter) (i + 1) :=
  Inspectable.page_after (q := q.seek (some (.after (key job) (some ((i + 1) * q.limit))))) h hjob hi rfl

theorem pageAt_before (h : Inspectable p store) {i : ℕ} {job : Job}
    (hjob : (listing p store q.filter)[(i + 1) * q.limit]? = some job) :
    pageAt p store q (some (.before (key job) (some (i * q.limit)))) =
      pageOf q.limit (listing p store q.filter) i :=
  Inspectable.page_before (q := q.seek (some (.before (key job) (some (i * q.limit))))) h hjob rfl

theorem pageAt_last (h : Inspectable p store) : pageAt p store q (some .last) =
    pageOf q.limit (listing p store q.filter) (lastSheet q.limit (listing p store q.filter)) :=
  Inspectable.page_last (q := q.seek (some .last)) h rfl

/-- Following the next keys from a page on gives the rest of the pages. -/
theorem follow_pageOf (h : Inspectable p store) {fuel : ℕ} : ∀ {i : ℕ},
    i ≤ lastSheet q.limit (listing p store q.filter) → lastSheet q.limit (listing p store q.filter) ≤ i + fuel →
      follow p store q fuel (pageOf q.limit (listing p store q.filter) i) =
        (List.range' i (lastSheet q.limit (listing p store q.filter) + 1 - i)).map
          (pageOf q.limit (listing p store q.filter)) := by
  induction fuel with
  | zero =>
    intro i hi hend
    have hlast : lastSheet q.limit (listing p store q.filter) + 1 - i = 1 := by omega
    rw [follow, hlast]
    rfl
  | succ fuel ih =>
    intro i hi hend
    rw [follow]
    by_cases hmore : (i + 1) * q.limit < (listing p store q.filter).length
    · have hlt : i < lastSheet q.limit (listing p store q.filter) := (lt_lastSheet_iff q.limit_pos _ _).mpr hmore
      have hpos : 0 < (i + 1) * q.limit := Nat.mul_pos (Nat.succ_pos i) q.limit_pos
      obtain ⟨job, hjob⟩ : ∃ job, (listing p store q.filter)[(i + 1) * q.limit - 1]? = some job :=
        ⟨_, List.getElem?_eq_getElem (by omega)⟩
      have hnext : (pageOf q.limit (listing p store q.filter) i).nextKey =
          some (.after (key job) (some ((i + 1) * q.limit))) := by
        rw [pageOf, if_pos hmore, hjob, Option.map_some]
      have hcount : lastSheet q.limit (listing p store q.filter) + 1 - i =
          (lastSheet q.limit (listing p store q.filter) + 1 - (i + 1)) + 1 := by omega
      rw [hnext, hcount, List.range'_succ, List.map_cons]
      exact congrArg _ ((congrArg _ (pageAt_after h hjob hlt)).trans (ih hlt (by omega)))
    · have hnext : (pageOf q.limit (listing p store q.filter) i).nextKey = none := if_neg hmore
      have hlast : lastSheet q.limit (listing p store q.filter) + 1 - i = 1 := by
        have := (lt_lastSheet_iff q.limit_pos (listing p store q.filter) i).not.mpr hmore
        omega
      rw [hnext, hlast]
      rfl

/-- **The pages**, by their numbers. -/
theorem pages_eq (h : Inspectable p store) : pages p store q =
    (List.range (lastSheet q.limit (listing p store q.filter) + 1)).map
      (pageOf q.limit (listing p store q.filter)) := by
  have hfuel : lastSheet q.limit (listing p store q.filter) ≤ (listing p store q.filter).length :=
    (Nat.div_le_self _ _).trans (Nat.sub_le _ _)
  rw [pages, pageAt_first h, List.range_eq_range']
  exact follow_pageOf h (Nat.zero_le _) (hfuel.trans_eq (Nat.zero_add _).symm)

theorem listed_eq (h : Inspectable p store) : listed p store q = listing p store q.filter := by
  rw [listed, pages_eq h, List.flatMap_map]
  exact (flatMap_sheet _ _ _).trans (List.take_of_length_le (length_le_lastSheet q.limit_pos _))

theorem length_pages (h : Inspectable p store) :
    (pages p store q).length = lastSheet q.limit (listing p store q.filter) + 1 := by
  rw [pages_eq h, List.length_map, List.length_range]

theorem getElem?_pages (h : Inspectable p store) {i : ℕ} {page : Page} :
    (pages p store q)[i]? = some page ↔ i ≤ lastSheet q.limit (listing p store q.filter) ∧
      pageOf q.limit (listing p store q.filter) i = page := by
  rw [pages_eq h, List.getElem?_map, Option.map_eq_some_iff]
  constructor
  · rintro ⟨j, hj, rfl⟩
    obtain ⟨hlt, rfl⟩ := List.getElem?_eq_some_iff.mp hj
    rw [List.length_range] at hlt
    rw [List.getElem_range]
    exact ⟨Nat.le_of_lt_succ hlt, rfl⟩
  · rintro ⟨hle, rfl⟩
    exact ⟨i, List.getElem?_eq_some_iff.mpr ⟨by rw [List.length_range]; omega, List.getElem_range _⟩, rfl⟩

variable (p store q) in
/-- A position is written as a cursor, and read back as itself as long as its offset fits; the jobs of
its page are the same in any case. -/
structure Reads (fingerprint : Binary) (position : Position) (total : ℕ) : Prop where
  cursor : ∃ cursor, encodeCursor position fingerprint = some cursor ∧
    decodeCursor fingerprint (some cursor) = some (some (wrapped position))
  fits : total ≤ 2 ^ 64 → wrapped position = position
  jobs : (pageAt p store q (some (wrapped position))).jobs = (pageAt p store q (some position)).jobs

variable (p store q) in
/-- The pages are an exact account of the jobs that a filter lets through. -/
structure Paginates (fingerprint : Binary) : Prop where
  /-- The newest job is first, and none is met twice. -/
  sorted : (listed p store q).Pairwise fun a b ↦ key b < key a
  complete : ∀ job, job ∈ listed p store q ↔
    (p.jobs[job.id]?.or store.table[job.id]?) = some job ∧ InspectionIndex.matches? job q.filter = true
  /-- A page starts at its offset, and all but the last are full. -/
  jobs : ∀ (i : ℕ) (page : Page), (pages p store q)[i]? = some page →
    page.jobs = ((listed p store q).drop (i * q.limit)).take q.limit
  total : ∀ page ∈ pages p store q, page.totalCount = (listed p store q).length
  last : ∀ (i : ℕ) (page : Page), (pages p store q)[i]? = some page →
    (page.last = true ↔ i + 1 = (pages p store q).length)
  next : ∀ (i : ℕ) (page : Page), (pages p store q)[i]? = some page →
    (page.nextKey = none ↔ i + 1 = (pages p store q).length) ∧
      ∀ position, page.nextKey = some position → position.offset? = some ((i + 1) * q.limit) ∧
        (pages p store q)[i + 1]? = some (pageAt p store q (some position))
  previous : ∀ (i : ℕ) (page : Page), (pages p store q)[i]? = some page →
    (page.previousKey = none ↔ i = 0) ∧
      ∀ position, page.previousKey = some position → position.offset? = some ((i - 1) * q.limit) ∧
        (pages p store q)[i - 1]? = some (pageAt p store q (some position))
  lastPage : (pages p store q).getLast? = some (pageAt p store q (some .last))
  cursors : ∀ page ∈ pages p store q, ∀ position,
    page.nextKey = some position ∨ page.previousKey = some position ∨ position = .last →
      Reads p store q fingerprint position page.totalCount

/-- Where a page ends or begins there is a job of the listing. -/
theorem nextKey_pageOf {limit i : ℕ} {jobs : List Job} (hlimit : 0 < limit) (hi : i ≤ lastSheet limit jobs) :
    if i = lastSheet limit jobs then (pageOf limit jobs i).nextKey = none
    else ∃ job, jobs[(i + 1) * limit - 1]? = some job ∧
      (pageOf limit jobs i).nextKey = some (.after (key job) (some ((i + 1) * limit))) := by
  have hmore := lt_lastSheet_iff hlimit jobs i
  split
  case isTrue heq => exact if_neg (hmore.not.mp (by omega))
  case isFalse hne =>
    have hlt := hmore.mp (by omega)
    have hpos : 0 < (i + 1) * limit := Nat.mul_pos (Nat.succ_pos i) hlimit
    refine ⟨_, List.getElem?_eq_getElem (show (i + 1) * limit - 1 < jobs.length by omega), ?_⟩
    rw [pageOf, if_pos hlt, List.getElem?_eq_getElem (show (i + 1) * limit - 1 < jobs.length by omega)]
    rfl

theorem previousKey_pageOf {limit i : ℕ} {jobs : List Job} (hlimit : 0 < limit)
    (hi : i + 1 ≤ lastSheet limit jobs) : ∃ job, jobs[(i + 1) * limit]? = some job ∧
      (pageOf limit jobs (i + 1)).previousKey = some (.before (key job) (some (i * limit))) := by
  have hlt := (lt_lastSheet_iff hlimit jobs i).mp hi
  refine ⟨_, List.getElem?_eq_getElem hlt, ?_⟩
  rw [pageOf, if_neg (Nat.succ_ne_zero i), List.getElem?_eq_getElem hlt]
  rfl

theorem reads_of_key {fingerprint : Binary} {position : Position} {total : ℕ} (h : Placed position)
    (hoffset : ∀ n, position.offset? = some n → n < total) : Reads p store q fingerprint position total := by
  refine ⟨decodeCursor_encodeCursor h fingerprint, fun htotal ↦ ?_, ?_⟩
  · have hfits : ∀ n, position.offset? = some n → n % 2 ^ 64 = n :=
      fun n hn ↦ Nat.mod_eq_of_lt ((hoffset n hn).trans_le htotal)
    cases position with
    | last => rfl
    | after k value =>
      obtain ⟨n, rfl⟩ := Option.isSome_iff_exists.mp h.2
      exact congrArg (fun n ↦ Position.after k (some n)) (hfits n rfl)
    | before k value =>
      obtain ⟨n, rfl⟩ := Option.isSome_iff_exists.mp h.2
      exact congrArg (fun n ↦ Position.before k (some n)) (hfits n rfl)
  · cases position with
    | last => rfl
    | after k value => rfl
    | before k value => rfl

/-- **The pages of two exact sources.** -/
theorem paginates (h : Inspectable p store)
    (hreadable : ∀ (id : JobId) (job : Job), (p.jobs[id]?.or store.table[id]?) = some job → Readable (key job))
    (fingerprint : Binary) : Paginates p store q fingerprint := by
  have hlisted := listed_eq (q := q) h
  have hlength := length_pages (q := q) h
  have hkeys : ∀ {j : ℕ} {job : Job}, (listing p store q.filter)[j]? = some job → Readable (key job) :=
    fun hjob ↦ hreadable _ _ (h.mem_listing.mp (List.mem_of_getElem? hjob)).1
  have hnumber : ∀ {page : Page}, page ∈ pages p store q → ∃ i ≤ lastSheet q.limit (listing p store q.filter),
      pageOf q.limit (listing p store q.filter) i = page := by
    intro page hpage
    obtain ⟨i, hi⟩ := List.mem_iff_getElem?.mp hpage
    exact ⟨i, (getElem?_pages h).mp hi⟩
  refine ⟨?_, ?_, ?_, ?_, ?_, ?_, ?_, ?_, ?_⟩
  · rw [hlisted]
    exact h.sorted_listing
  · intro job
    rw [hlisted]
    exact h.mem_listing
  · intro i page hpage
    obtain ⟨-, rfl⟩ := (getElem?_pages h).mp hpage
    rw [hlisted]
    rfl
  · intro page hpage
    obtain ⟨i, -, rfl⟩ := hnumber hpage
    rw [hlisted]
    rfl
  · intro i page hpage
    obtain ⟨hi, rfl⟩ := (getElem?_pages h).mp hpage
    have hmore := lt_lastSheet_iff q.limit_pos (listing p store q.filter) i
    rw [hlength, pageOf, decide_eq_true_eq]
    omega
  · intro i page hpage
    obtain ⟨hi, rfl⟩ := (getElem?_pages h).mp hpage
    have hnext := nextKey_pageOf q.limit_pos hi
    rw [hlength]
    split at hnext
    case isTrue heq =>
      rw [hnext]
      exact ⟨⟨fun _ ↦ congrArg (· + 1) heq, fun _ ↦ rfl⟩, fun position hposition ↦ by cases hposition⟩
    case isFalse hne =>
      obtain ⟨job, hjob, hnext⟩ := hnext
      rw [hnext]
      refine ⟨⟨fun hnone ↦ absurd hnone (Option.some_ne_none _), fun heq ↦ absurd (Nat.succ.inj heq) hne⟩, ?_⟩
      rintro position ⟨rfl⟩
      refine ⟨rfl, (getElem?_pages h).mpr ⟨by omega, ?_⟩⟩
      exact (pageAt_after h hjob (lt_of_le_of_ne hi hne)).symm
  · intro i page hpage
    obtain ⟨hi, rfl⟩ := (getElem?_pages h).mp hpage
    cases i with
    | zero =>
      have hnone : (pageOf q.limit (listing p store q.filter) 0).previousKey = none := rfl
      rw [hnone]
      exact ⟨⟨fun _ ↦ rfl, fun _ ↦ rfl⟩, fun position hposition ↦ by cases hposition⟩
    | succ i =>
      obtain ⟨job, hjob, hprevious⟩ := previousKey_pageOf q.limit_pos hi
      rw [hprevious]
      refine ⟨⟨fun hnone ↦ absurd hnone (Option.some_ne_none _), fun hzero ↦ absurd hzero (Nat.succ_ne_zero i)⟩, ?_⟩
      rintro position ⟨rfl⟩
      refine ⟨rfl, (getElem?_pages h).mpr ⟨Nat.le_of_succ_le hi, ?_⟩⟩
      exact (pageAt_before h hjob).symm
  · rw [List.getLast?_eq_getElem?, hlength, Nat.add_sub_cancel, getElem?_pages h]
    exact ⟨le_rfl, (pageAt_last h).symm⟩
  · intro page hpage position hposition
    obtain ⟨i, hi, rfl⟩ := hnumber hpage
    rcases hposition with hposition | hposition | rfl
    · have hnext := nextKey_pageOf q.limit_pos hi
      split at hnext
      case isTrue =>
        rw [hnext] at hposition
        cases hposition
      case isFalse =>
        obtain ⟨job, hjob, hnext⟩ := hnext
        rw [hnext] at hposition
        cases hposition
        refine reads_of_key ⟨hkeys hjob, rfl⟩ ?_
        rintro n ⟨rfl⟩
        exact (lt_lastSheet_iff q.limit_pos _ i).mp (by omega)
    · cases i with
      | zero =>
        have hnone : (pageOf q.limit (listing p store q.filter) 0).previousKey = none := rfl
        rw [hnone] at hposition
        cases hposition
      | succ i =>
        obtain ⟨job, hjob, hprevious⟩ := previousKey_pageOf q.limit_pos hi
        rw [hprevious] at hposition
        cases hposition
        refine reads_of_key ⟨hkeys hjob, rfl⟩ ?_
        rintro n ⟨rfl⟩
        have hlt : (i + 1) * q.limit < (listing p store q.filter).length := (List.getElem?_eq_some_iff.mp hjob).1
        exact (Nat.mul_le_mul_right _ (Nat.le_succ i)).trans_lt hlt
    · exact reads_of_key trivial fun n hn ↦ by cases hn

end Inspection

end Tay
