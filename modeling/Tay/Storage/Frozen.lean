import Tay.Storage.Recovery

/-!
# Frozen recovery

An online compaction reads its source while the writer keeps appending: it replays the segments
below the one the writer has just opened. `Reader.recoverFrozen` does that with three branches. When
the excluded segment lies beyond the manifest's tail it runs the ordinary replay on the shorter list;
when the excluded segment *is* the tail it replays the base alone.

With nothing in the excluded segments the two recoveries ought to agree, and in the first branch they
do. In the other two the manifest's availability frontier is never read, so the next availability
order is the one the base snapshots imply. `recoverFrozen_agrees_iff` gives the exact condition.
-/

open Foundation

namespace Tay

namespace Reader

variable (vm : Runtime)

/-! ## Segments below a bound -/

/-- With the names 1, 2, …, dropping the segments from `exclude` on is taking a prefix. -/
theorem filter_below {segments : List SegmentFile} (exclude : ℕ) :
    ∀ {first : ℕ}, segments.map (·.id) = List.range' first segments.length →
      segments.filter (fun s ↦ s.id < exclude) = segments.take (exclude - first) := by
  induction segments with
  | nil => intro first _; simp
  | cons s segments ih =>
    intro first h
    simp only [List.map_cons, List.length_cons, List.range'_succ, List.cons.injEq] at h
    obtain ⟨hid, hrest⟩ := h
    by_cases hlt : first < exclude
    · have hsucc : exclude - first = (exclude - (first + 1)) + 1 := by omega
      rw [List.filter_cons_of_pos (by simpa [hid] using hlt), ih hrest, hsucc, List.take_succ_cons]
    · have hzero : exclude - first = 0 := by omega
      have hzero' : exclude - (first + 1) = 0 := by omega
      rw [List.filter_cons_of_neg (by simpa [hid] using hlt), ih hrest, hzero, hzero']
      rfl

theorem filter_from {segments : List SegmentFile} (exclude : ℕ) :
    ∀ {first : ℕ}, segments.map (·.id) = List.range' first segments.length →
      segments.filter (fun s ↦ exclude ≤ s.id) = segments.drop (exclude - first) := by
  induction segments with
  | nil => intro first _; simp
  | cons s segments ih =>
    intro first h
    simp only [List.map_cons, List.length_cons, List.range'_succ, List.cons.injEq] at h
    obtain ⟨hid, hrest⟩ := h
    by_cases hlt : first < exclude
    · have hsucc : exclude - first = (exclude - (first + 1)) + 1 := by omega
      rw [List.filter_cons_of_neg (by simpa [hid] using hlt), ih hrest, hsucc, List.drop_succ_cons]
    · have hzero : exclude - first = 0 := by omega
      have hzero' : exclude - (first + 1) = 0 := by omega
      rw [List.filter_cons_of_pos (by simpa [hid] using hlt), ih hrest, hzero, hzero']
      rfl

theorem id_of_getElem {segments : List SegmentFile} {i : ℕ} {s : SegmentFile}
    (hids : segments.map (·.id) = List.range' 1 segments.length) (hs : segments[i]? = some s) :
    s.id = i + 1 := by
  have hi : i < segments.length := (List.getElem?_eq_some_iff.mp hs).1
  have h := congrArg (fun l : List ℕ ↦ l[i]?) hids
  simp only [List.getElem?_map, hs, Option.map_some, List.getElem?_range' hi,
    Option.some.injEq] at h
  omega

/-! ## The order a base implies -/

/-- The next order once a base record has been replayed. -/
def orderStep (next : ℕ) (r : Record) : ℕ :=
  match r.payload with
  | .snapshot job => max next (match job.availabilityOrder with | some o => o + 1 | none => 1)
  | _ => next

theorem insertSnapshot_order {c c' : Candidate} {job : Job}
    (h : Reducer.insertSnapshot vm c job = .ok c') : c'.nextAvailabilityOrder =
      max c.nextAvailabilityOrder
        (match job.availabilityOrder with | some o => o + 1 | none => 1) := by
  simp only [Reducer.insertSnapshot, bind_eq_ok, pure_eq_ok] at h
  obtain ⟨-, -, -, -, -, -, next, hnext, h⟩ := h
  cases h
  obtain ⟨ch, hch⟩ := Transition.putCandidate_eq_ok vm hnext
  have horder : next.nextAvailabilityOrder = c.nextAvailabilityOrder := by rw [hch]
  rw [← horder]
  rfl

theorem consume_order {s t : State} {r : Record} (h : consume vm true s r = .ok t) :
    t.candidate.nextAvailabilityOrder = orderStep s.candidate.nextAvailabilityOrder r := by
  simp only [consume, bind_eq_ok, pure_eq_ok] at h
  obtain ⟨-, -, next, hnext, h⟩ := h
  cases h
  obtain ⟨sequence, payload⟩ := r
  rcases payload with job | m | e
  · simp only [consumeKind, Codec.decodeSnapshot, bind_eq_ok, pure_eq_ok] at hnext
    obtain ⟨job', ⟨-, -, -, -, -, -, bytes, -, -, -, hjob⟩, -, -, c, hc, hnext⟩ := hnext
    cases hjob
    cases hnext
    have horder := insertSnapshot_order vm hc
    exact horder
  · cases hnext
  · simp only [consumeKind, decodeAux, bind_eq_ok, pure_eq_ok] at hnext
    obtain ⟨e', ⟨-, -, -, -, he⟩, c, hc, hnext⟩ := hnext
    cases he
    cases hnext
    obtain ⟨-, -, applied, happlied, hc'⟩ := Auxiliary.reduce_eq_ok vm hc
    rw [hc', Auxiliary.applyEvent_frame happlied]
    rfl

/-- Replaying base segments leaves the order their snapshots imply. -/
theorem scan_order {m : Manifest} {total : ℕ} {xs : List (SegmentFile × ℕ)}
    (hxs : ∀ x ∈ xs, x.2 ≤ m.baseSegments.length) :
    ∀ {s t : State}, fold (scanSegment vm m total) s xs = .ok t →
      t.candidate.nextAvailabilityOrder =
        (xs.flatMap (·.1.records)).foldl orderStep s.candidate.nextAvailabilityOrder := by
  have hrecords : ∀ (records : List Record) {s t : State},
      fold (consume vm true) s records = .ok t → t.candidate.nextAvailabilityOrder =
        records.foldl orderStep s.candidate.nextAvailabilityOrder := by
    intro records
    induction records with
    | nil =>
      intro s t h
      cases h
      rfl
    | cons r records ih =>
      intro s t h
      obtain ⟨u, hu, h⟩ := bind_eq_ok.mp h
      rw [ih h, consume_order vm hu]
      rfl
  induction xs with
  | nil =>
    intro s t h
    cases h
    rfl
  | cons x xs ih =>
    intro s t h
    obtain ⟨u, hu, h⟩ := bind_eq_ok.mp h
    have hx : x.2 ≤ m.baseSegments.length := hxs x List.mem_cons_self
    have hbase : decide (x.2 ≤ m.baseSegments.length) = true := by simpa using hx
    have hne : x.2 ≠ m.baseSegments.length + 1 := by omega
    simp only [scanSegment, seedAvailabilityFrontier_of_ne hne, ok_bind, bind_eq_ok, pure_eq_ok,
      hbase] at hu
    obtain ⟨-, -, v, hv, -, -, hu⟩ := hu
    cases hu
    rw [ih (fun y hy ↦ hxs y (List.mem_cons_of_mem _ hy)) h, hrecords _ hv, List.flatMap_cons,
      List.foldl_append]

/-! ## The excluded segment -/

/-- Only the highest segment can be empty: every other one carries a footer. -/
theorem records_ne_nil {m : Manifest} {total : ℕ} {xs : List (SegmentFile × ℕ)} {s t : State}
    (h : fold (scanSegment vm m total) s xs = .ok t) {x : SegmentFile × ℕ} (hx : x ∈ xs)
    (hne : x.2 ≠ total) : x.1.records ≠ [] := by
  obtain ⟨pre, post, rfl⟩ := List.append_of_mem hx
  rw [fold_append] at h
  obtain ⟨u, -, h⟩ := bind_eq_ok.mp h
  obtain ⟨v, hv, -⟩ := bind_eq_ok.mp h
  simp only [scanSegment, bind_eq_ok, check_eq_ok] at hv
  obtain ⟨-, -, -, hwell, -⟩ := hv
  intro hnil
  have hfalse : (x.2 == total) = false := by simpa using hne
  rcases hsealed : x.1.sealed with _ | _ <;> simp [wellFormed, hsealed, hnil, hfalse] at hwell

/-- Recovery of a directory whose last segment is empty: the segments before it are scanned to some
state, and the frontier is seeded there if the empty segment is the tail. -/
theorem recover_split {d : Directory} {c : Candidate} {r : Recovered} {pre : List SegmentFile}
    {z : SegmentFile} (h : RecoverSpec vm d c r) (hsplit : d.segments = pre ++ [z])
    (hz : z.records = []) : ∃ u s,
      scanAll vm d.manifest pre c = .ok u ∧
      fold (topologyStep pre.length) 1 (pre.zipIdx 1) = .ok u.nextSequence ∧
      z.firstSequence = u.nextSequence ∧
      seedAvailabilityFrontier u d.manifest (pre.length + 1) = .ok s ∧
      r = summarize d.manifest d.segments s := by
  obtain ⟨s, hs, hr⟩ := h.scanned
  obtain ⟨next, hnext⟩ := h.topology
  rw [hsplit] at hs hnext
  have hbelow : ∀ x ∈ pre.zipIdx 1, x.2 ≠ pre.length + 1 := by
    rintro ⟨x, i⟩ hx
    have hi := List.snd_lt_add_of_mem_zipIdx hx
    simp only at hi ⊢
    omega
  obtain ⟨n, hn, hn'⟩ := validateTopology_concat.mp hnext
  obtain ⟨u, hu, hv⟩ := (scanAll_concat vm).mp hs
  have hseq : n = u.nextSequence := scan_topology vm hu hn
  subst hseq
  simp only [scanSegment, hz, fold_nil, ok_bind, bind_eq_ok, pure_eq_ok] at hv
  obtain ⟨s', hs', -, -, -, -, hv⟩ := hv
  cases hv
  simp only [topologyStep, bind_eq_ok, check_eq_ok, Bool.and_eq_true, beq_iff_eq] at hn'
  obtain ⟨-, ⟨⟨-, hfirst⟩, -⟩, -⟩ := hn'
  exact ⟨u, s, fold_mono (fun x hx _ _ ↦ scanSegment_total vm _ (hbelow x hx)) hu,
    fold_mono (fun x hx _ _ ↦ topologyStep_total _ (hbelow x hx)) hn, hfirst, hs', hr⟩

/-- Frozen recovery of the same directory stops before the seeding. -/
theorem replayFrozen_split {d : Directory} {c : Candidate} {r : Recovered}
    {pre : List SegmentFile} {z : SegmentFile} {u : State} (h : RecoverSpec vm d c r)
    (hsplit : d.segments = pre ++ [z]) (hu : scanAll vm d.manifest pre c = .ok u)
    (htopology : fold (topologyStep pre.length) 1 (pre.zipIdx 1) = .ok u.nextSequence)
    (hz : z.firstSequence = u.nextSequence) :
    replayFrozen vm d.manifest pre c (pre.length + 1) = .ok (summarize d.manifest pre u) := by
  have htail := h.tailPresent
  have hfirst := h.tailFirst
  have hids : pre.map (·.id) = List.range' 1 pre.length := by
    have hall := congrArg (List.take pre.length) h.ids
    rw [List.take_range'_of_length_ge (by simp [hsplit])] at hall
    simpa [hsplit] using hall
  simp only [hsplit, List.length_append, List.length_singleton] at htail hfirst
  have hvalid (hne : pre ≠ []) : validateTopology pre = .ok u.nextSequence := by
    have hempty : pre.isEmpty = false := by simpa using hne
    rw [validateTopology, hempty]
    exact htopology
  by_cases hlong : d.manifest.baseSegments.length + 1 ≤ pre.length
  · -- the tail lies below the excluded segment: ordinary replay
    have hne : pre ≠ [] := by
      rintro rfl
      simp at hlong
    rw [List.getElem?_append_left (by omega)] at hfirst
    rw [replayFrozen, if_pos hlong]
    exact (replay_eq_ok vm).mpr
      ⟨hlong, h.tailId, hids, ⟨u, hu, rfl⟩, ⟨_, hvalid hne⟩, hfirst⟩
  · -- the excluded segment is the tail
    have hlength : pre.length = d.manifest.baseSegments.length := by omega
    have htailFirst : u.nextSequence = d.manifest.tailFirstSequence := by
      rw [← hz]
      simpa [List.getElem?_append_right, hlength] using hfirst
    have hid : d.manifest.tailSegmentId = pre.length + 1 := by rw [h.tailId, hlength]
    rw [replayFrozen, if_neg hlong]
    rcases eq_or_ne pre [] with rfl | hne
    · have hbase : d.manifest.baseSegments = [] := List.eq_nil_of_length_eq_zero hlength.symm
      have hone : d.manifest.tailFirstSequence = 1 := by
        rw [← htailFirst]
        cases hu
        rfl
      cases hu
      simp [hbase, hone, hid]
    · have hempty : pre.isEmpty = false := by simpa using hne
      simp only [hempty, Bool.false_and, Bool.false_eq_true, if_false, hlength, hid, BEq.rfl,
        Bool.and_self, if_true, hu, hvalid hne, ok_bind, htailFirst, check_true, pure_eq_ok]

/-- Ordinary recovery goes on from the state frozen recovery returns, through the excluded
segments. -/
theorem recover_from_frozen {d : Directory} {c : Candidate} {r f : Recovered} {exclude : ℕ}
    (hr : recover vm d c = .ok r)
    (hf : recoverFrozen vm d c d.manifest.epochId exclude = .ok f) :
    ∃ pre k u s, d.manifest.baseSegments.length < k ∧ u.candidate = f.candidate ∧
      fold (scanSegment vm d.manifest d.segments.length) ⟨c, 1, none⟩ pre = .ok u ∧
      fold (scanSegment vm d.manifest d.segments.length) u
        ((d.segments.filter fun x ↦ exclude ≤ x.id).zipIdx k) = .ok s ∧
      r = summarize d.manifest d.segments s := by
  have h := recover_spec vm hr
  obtain ⟨s, hs, hrs⟩ := h.scanned
  simp only [recoverFrozen, bind_eq_ok, filter_below exclude h.ids] at hf
  obtain ⟨-, -, -, -, -, -, hf⟩ := hf
  rw [filter_from exclude h.ids]
  have hsplit := List.take_append_drop (exclude - 1) d.segments
  generalize d.segments.take (exclude - 1) = pre at hf hsplit
  generalize d.segments.drop (exclude - 1) = post at hsplit
  rw [scanAll, ← hsplit, List.zipIdx_append, fold_append, hsplit, bind_eq_ok] at hs
  obtain ⟨u, hu, hs⟩ := hs
  have hsame {t : State} (ht : scanAll vm d.manifest pre c = .ok t) : t = u :=
    fold_related (R := Eq) (fun x _ a a' b b' hab hb hb' ↦
      scanSegment_unique vm (hab ▸ hb) hb') rfl ht hu
  have hfrozen : d.manifest.baseSegments.length ≤ pre.length ∧ u.candidate = f.candidate := by
    unfold replayFrozen at hf
    split at hf
    · rename_i hlong
      obtain ⟨-, -, -, ⟨t, ht, rfl⟩, -, -⟩ := (replay_eq_ok vm).mp hf
      exact ⟨by omega, by rw [← hsame ht]; rfl⟩
    · split at hf
      · rename_i hempty
        simp only [Bool.and_eq_true, List.isEmpty_iff] at hempty
        obtain ⟨⟨⟨rfl, hbase⟩, -⟩, -⟩ := hempty
        cases hf
        cases hu
        exact ⟨by simp [hbase], rfl⟩
      · split at hf
        · rename_i hlength
          simp only [Bool.and_eq_true, beq_iff_eq] at hlength
          simp only [bind_eq_ok, pure_eq_ok] at hf
          obtain ⟨t, ht, -, -, -, -, hf⟩ := hf
          cases hf
          exact ⟨hlength.1.ge, by rw [← hsame ht]; rfl⟩
        · cases hf
  exact ⟨pre.zipIdx 1, 1 + pre.length, u, s, by omega, hfrozen.2, hu, hs, hrs⟩

/-! ## Agreement -/

/-- The next availability order the base snapshots of a directory imply. -/
def orderAfterBase (d : Directory) (c : Candidate) : ℕ :=
  ((d.segments.take d.manifest.baseSegments.length).flatMap (·.records)).foldl orderStep
    c.nextAvailabilityOrder

/-- Two recoveries of the same state, as far as the engine reads it. -/
structure SameState (r r' : Recovered) : Prop where
  jobs : r'.candidate.jobs = r.candidate.jobs
  schedules : r'.candidate.schedules = r.candidate.schedules
  results : r'.candidate.results = r.candidate.results
  nextAvailabilityOrder : r'.candidate.nextAvailabilityOrder = r.candidate.nextAvailabilityOrder

/-- **Frozen recovery against ordinary recovery.** With nothing in the excluded segments the two
agree exactly when the excluded segment is not the manifest's tail, or the manifest has no
availability frontier, or the frontier is already what the base snapshots imply. -/
theorem recoverFrozen_agrees_iff {d : Directory} {c : Candidate} {r : Recovered} {exclude : ℕ}
    (hr : recover vm d c = .ok r) (hexclude : 0 < exclude)
    (hempty : ∀ s ∈ d.segments, exclude ≤ s.id → s.records = []) :
    (∃ r', recoverFrozen vm d c d.manifest.epochId exclude = .ok r' ∧ SameState r r') ↔
      (exclude = d.manifest.tailSegmentId → ∀ frontier,
        d.manifest.availabilityFrontier = some frontier →
          frontier + 1 = orderAfterBase d c) := by
  have h := recover_spec vm hr
  have hcontiguous : contiguous? d.segments = true := by simpa [contiguous?] using h.ids
  have hfrozen : recoverFrozen vm d c d.manifest.epochId exclude =
      replayFrozen vm d.manifest (d.segments.take (exclude - 1)) c exclude := by
    simp [recoverFrozen, h.manifest, hcontiguous, filter_below exclude h.ids]
  rw [hfrozen]
  have htail := h.tailPresent
  have hid := h.tailId
  rcases Nat.lt_trichotomy exclude d.segments.length with hlt | heq | hgt
  · -- a segment below the highest one has records
    obtain ⟨s, hs, -⟩ := h.scanned
    obtain ⟨x, hx⟩ : ∃ x, d.segments[exclude - 1]? = some x :=
      ⟨_, List.getElem?_eq_getElem (by omega)⟩
    have hmem : (x, exclude) ∈ d.segments.zipIdx 1 :=
      List.mk_mem_zipIdx_iff_le_and_getElem?_sub.mpr ⟨hexclude, hx⟩
    have hxid : x.id = exclude := by
      have := id_of_getElem h.ids hx
      omega
    exact absurd (hempty x (List.mem_of_getElem? hx) hxid.ge)
      (records_ne_nil vm hs hmem (Nat.ne_of_lt hlt))
  · -- the last segment is excluded
    have hne : d.segments ≠ [] := by
      intro hnil
      simp [hnil] at htail
    obtain ⟨pre, z, hsplit⟩ : ∃ pre z, d.segments = pre ++ [z] :=
      ⟨_, _, (List.dropLast_append_getLast hne).symm⟩
    have hlength : d.segments.length = pre.length + 1 := by simp [hsplit]
    have hzid : z.id = exclude := by
      have := id_of_getElem (i := pre.length) (s := z) h.ids (by simp [hsplit])
      omega
    have hz : z.records = [] := hempty z (by simp [hsplit]) hzid.ge
    obtain ⟨u, s, hu, htopology, hfirst, hseed, rfl⟩ := recover_split vm h hsplit hz
    have htake : d.segments.take (exclude - 1) = pre := by
      rw [hsplit, heq, hlength]
      simp
    have hexclude' : exclude = pre.length + 1 := by omega
    rw [htake, hexclude', replayFrozen_split vm h hsplit hu htopology hfirst]
    by_cases htailId : pre.length = d.manifest.baseSegments.length
    · -- only here is the frontier seeded, and only by the ordinary recovery
      have horder : u.candidate.nextAvailabilityOrder = orderAfterBase d c := by
        have hxs : ∀ x ∈ pre.zipIdx 1, x.2 ≤ d.manifest.baseSegments.length := by
          rintro ⟨x, i⟩ hx
          have hi := List.snd_lt_add_of_mem_zipIdx hx
          simp only at hi ⊢
          omega
        have hbase : d.segments.take d.manifest.baseSegments.length = pre := by
          rw [hsplit, ← htailId]
          simp
        have hmap : (pre.zipIdx 1).flatMap (·.1.records) = pre.flatMap (·.records) := by
          rw [← List.flatMap_map, List.zipIdx_map_fst]
        rw [scan_order vm hxs hu, hmap, orderAfterBase, hbase]
      have hcandidate := seedAvailabilityFrontier_at_tail (htailId ▸ hseed)
      constructor
      · rintro ⟨r', hr', hsame⟩ - frontier hfrontier
        cases hr'
        have hnext := hsame.nextAvailabilityOrder
        simp only [summarize, hcandidate, hfrontier, Option.elim_some] at hnext
        rw [← horder, hnext]
      · intro hagree
        have hnext : s.candidate.nextAvailabilityOrder = u.candidate.nextAvailabilityOrder := by
          rw [hcandidate]
          rcases hfrontier : d.manifest.availabilityFrontier with _ | frontier
          · rfl
          · rw [Option.elim_some, horder, hagree (by rw [hid, htailId]) frontier hfrontier]
        refine ⟨_, rfl, ?_, ?_, ?_, hnext.symm⟩ <;> simp only [summarize, hcandidate]
    · rw [seedAvailabilityFrontier_of_ne (by omega)] at hseed
      cases hseed
      constructor
      · rintro - htail'
        omega
      · intro _
        exact ⟨_, rfl, rfl, rfl, rfl, rfl⟩
  · have htake : d.segments.take (exclude - 1) = d.segments := List.take_of_length_le (by omega)
    have hreplay : replay vm d.manifest d.segments c = .ok r :=
      (replay_eq_ok vm).mpr ⟨htail, hid, h.ids, h.scanned, h.topology, h.tailFirst⟩
    rw [htake, replayFrozen, if_pos htail, hreplay]
    constructor
    · rintro - htailId
      omega
    · intro _
      exact ⟨r, rfl, rfl, rfl, rfl, rfl⟩

/-- An epoch with no base whose tail is still empty: what a compaction leaves when every job had
expired. The frontier is the last order the source had given out. -/
def emptied (frontier : ℕ) : Directory := ⟨Sample.manifest frontier, [⟨1, 1, [], false⟩]⟩

/-- A store that has given out no order yet: the two recoveries agree. -/
theorem recoverFrozen_agrees_fresh : ∃ r r',
    recover Sample.runtime (emptied 0) Sample.fresh = .ok r ∧
      recoverFrozen Sample.runtime (emptied 0) Sample.fresh 7 1 = .ok r' ∧
        SameState r r' := by
  obtain ⟨r, hr⟩ : ∃ r, recover Sample.runtime (emptied 0) Sample.fresh = .ok r :=
    exists_ok (by decide +kernel)
  have hempty : ∀ s ∈ (emptied 0).segments, 1 ≤ s.id → s.records = [] := by decide
  obtain ⟨r', hr', hsame⟩ := (recoverFrozen_agrees_iff Sample.runtime hr one_pos hempty).mpr
    (by rintro - frontier ⟨⟩; decide)
  exact ⟨r, r', hr, hr', hsame⟩

/-- With the frontier above every order in the records ordinary recovery gives out order 6 next and
frozen recovery order 1. -/
theorem recoverFrozen_disagrees : ∃ r r',
    recover Sample.runtime (emptied 5) Sample.fresh = .ok r ∧
      (∀ s ∈ (emptied 5).segments, 1 ≤ s.id → s.records = []) ∧
      recoverFrozen Sample.runtime (emptied 5) Sample.fresh 7 1 = .ok r' ∧
      r.candidate.nextAvailabilityOrder = 6 ∧ r'.candidate.nextAvailabilityOrder = 1 ∧
      ¬SameState r r' := by
  obtain ⟨r, hr⟩ : ∃ r, recover Sample.runtime (emptied 5) Sample.fresh = .ok r :=
    exists_ok (by decide +kernel)
  obtain ⟨r', hr'⟩ : ∃ r', recoverFrozen Sample.runtime (emptied 5) Sample.fresh 7 1 =
    .ok r' := exists_ok (by decide +kernel)
  have h₆ : r.candidate.nextAvailabilityOrder = 6 := by
    cases hr
    rfl
  have h₁ : r'.candidate.nextAvailabilityOrder = 1 := by
    cases hr'
    rfl
  refine ⟨r, r', hr, by decide, hr', h₆, h₁, fun hsame ↦ ?_⟩
  have := hsame.nextAvailabilityOrder
  omega

end Reader

end Tay
