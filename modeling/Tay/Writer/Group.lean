import Tay.Writer.FailClosed

/-!
# Groups of appends

Between `begin` and `finish` the writer of `Tay.Storage.Writer.GroupCommit` puts records into the files
without a sync, and `finish` syncs the file it is in then. A group may cross a rotation: the segment it
leaves is synced with its footer.

Two things are said of this. The files and the receipts are those of a writer that syncs every record,
so a group is only about when the records are safe. And what has been synced can be told from the answers
of the port alone; a crash leaves every file with at least that, and what the parser then accepts has all
of it.
-/

open Foundation

namespace Tay.SegmentOps

open Physical

/-! ## A group and no group -/

/-- The writer, with or without a group. -/
def Writer.inGroup (w : Writer) (group : Option ℕ) : Writer := { w with groupCommit := group }

/-- The same answers, except that the sync and the check after an append succeed. -/
def Io.synced (io : Io) : Io :=
  { io with ok := fun step ↦ step == .appendSync || step == .appendCheck || io.ok step }

namespace Action

variable {α β : Type}

/-- The operation, with its result changed. -/
def after (x : Action α) (f : α → β) : Action β := x >>= fun a ↦ pure (f a)

theorem bind_after {γ : Type} (x : Action α) (f : α → Action β) (g : β → γ) :
    (x >>= f).after g = x >>= fun a ↦ (f a).after g := by
  funext d
  rcases hx : x d with ⟨_ | a, d'⟩ <;> simp [after, bind, andThen, hx]

theorem pure_after (a : α) (f : α → β) : (pure a : Action α).after f = pure (f a) := rfl

theorem after_bind {γ : Type} (x : Action α) (f : α → β) (g : β → Action γ) :
    x.after f >>= g = x >>= fun a ↦ g (f a) := by
  funext d
  rcases hx : x d with ⟨_ | a, d'⟩ <;> simp [after, bind, pure, andThen, hx]

theorem after_ok {x : Action α} {f : α → β} {a : α} {d d' : Disk} (h : x d = (.ok a, d')) :
    x.after f d = (.ok (f a), d') := by
  simp [after, bind, pure, andThen, h]

theorem after_error {x : Action α} {f : α → β} {e : Failure} {d d' : Disk} (h : x d = (.error e, d')) :
    x.after f d = (.error e, d') := by
  simp [after, bind, andThen, h]

end Action

section Same

variable (w : Writer) (group : Option ℕ) (io : Io)

theorem sealSegment_inGroup :
    sealSegment (w.inGroup group) io = (sealSegment w io).after (·.inGroup group) := by
  simp only [sealSegment, Action.bind_after, Action.pure_after]
  rfl

theorem createSuccessor_inGroup :
    createSuccessor (w.inGroup group) io = (createSuccessor w io).after (·.inGroup group) := by
  simp only [createSuccessor, Action.bind_after, Action.pure_after]
  rfl

theorem reject_after (reason : Refusal) (f : Writer → Writer) :
    (Action.reject reason : Action Writer).after f = Action.reject reason := rfl

/-- A rotation does not ask whether there is a group. -/
theorem rotate_inGroup : rotate (w.inGroup group) io = (rotate w io).after (·.inGroup group) := by
  have hseal := sealSegment_inGroup w group io
  have hcreate := fun w ↦ createSuccessor_inGroup w group io
  unfold rotate
  rw [hseal, hcreate, Action.after_bind]
  simp only [hcreate]
  show (if !w.segment.sealed && w.segment.count == 0 then _ else if w.segment.id == maxSegmentId then _
    else if maxSegmentId < w.nextSequence then _ else if w.segment.sealed then _ else _) = _
  split_ifs
  · rfl
  · rfl
  · rfl
  · rfl
  · exact (Action.bind_after ..).symm

/-- Nor does it end with the sync of an append. -/
theorem rotate_synced : rotate w io.synced = rotate w io := rfl

/-- The record goes to the file in the same way; the sync and the check are put off. -/
theorem appendBytes_inGroup (n : ℕ) (bytes : Binary) :
    appendBytes (w.inGroup none) bytes io.synced =
      (appendBytes (w.inGroup (some n)) bytes io).after fun out ↦ (out.1.inGroup none, out.2) := by
  have hsync : syncAppend (w.inGroup none) io.synced = pure () := by
    unfold syncAppend
    split_ifs <;> rfl
  have hcheck : checkAppend (w.inGroup none) io.synced = pure () := rfl
  have hsync' : syncAppend (w.inGroup (some n)) io = pure () := by
    simp [syncAppend, Writer.inGroup]
  have hcheck' : checkAppend (w.inGroup (some n)) io = pure () := rfl
  simp only [appendBytes, hsync, hcheck, hsync', hcheck', Action.bind_after, Action.pure_after]
  rfl

theorem appendWithCapacity_inGroup (n : ℕ) (bytes : Binary) :
    appendWithCapacity (w.inGroup none) bytes io.synced =
      (appendWithCapacity (w.inGroup (some n)) bytes io).after fun out ↦ (out.1.inGroup none, out.2) := by
  have hbytes := fun w ↦ appendBytes_inGroup w io n bytes
  unfold appendWithCapacity
  show (if mustRotate w bytes then _ else _) = Action.after (if mustRotate w bytes then _ else _) _
  rw [rotate_synced, rotate_inGroup w none, rotate_inGroup w (some n), Action.after_bind, Action.after_bind]
  split_ifs
  · rw [Action.bind_after]
    exact congrArg _ (funext hbytes)
  · exact hbytes w

/-- **A group is only about syncs.** An append in a group is answered as one that is synced at once, and
leaves the same files. -/
theorem mutate_inGroup (n : ℕ) (d : Disk) (type schema : ℕ) (payload : Binary) :
    mutate (w.inGroup none) d (.append type schema payload) io.synced =
      ((mutate (w.inGroup (some n)) d (.append type schema payload) io).1,
        (mutate (w.inGroup (some n)) d (.append type schema payload) io).2.1.inGroup none,
        (mutate (w.inGroup (some n)) d (.append type schema payload) io).2.2) := by
  have hcandidate : ∀ g, candidate (w.inGroup g) type schema payload = candidate w type schema payload :=
    fun _ ↦ rfl
  unfold mutate
  simp only [hcandidate]
  by_cases hpoisoned : w.poisoned = true
  · simp only [Writer.inGroup, hpoisoned, if_true]
  by_cases hsequence : maxSegmentId < w.nextSequence
  · simp only [Writer.inGroup, hpoisoned, hsequence, if_true]
    rfl
  have hpoisoned' : ∀ g, ¬(w.inGroup g).poisoned = true := fun _ ↦ hpoisoned
  have hsequence' : ∀ g, ¬maxSegmentId < (w.inGroup g).nextSequence := fun _ ↦ hsequence
  simp only [hpoisoned', hsequence', if_false]
  rcases (candidate w type schema payload).encode with error | bytes
  · rfl
  · have happend := congrFun (appendWithCapacity_inGroup w io n bytes) d
    dsimp only
    rcases hx : appendWithCapacity (w.inGroup (some n)) bytes io d with ⟨failure | ⟨next, receipt⟩, d'⟩
    · rw [Action.after_error hx] at happend
      rw [happend]
      rcases failure <;> rfl
    · rw [Action.after_ok hx] at happend
      rw [happend]
      rfl

end Same

/-! ## Requests of a run -/

namespace Run

def grouped (s : Run) (group : Option ℕ) : Run := { s with writer := s.writer.inGroup group }

/-- What an answer leaves: with a receipt the records are in the files. -/
def answered (s : Run) (records : List Physical.Record) : Reply × Writer × Disk → Reply × Run
  | (.appended receipt, w, d) => (.appended receipt, s.put w d records)
  | (reply, w, d) => (reply, s.put w d [])

/-- An append, with the answer. -/
def append (s : Run) (type schema : ℕ) (payload : Binary) (io : Io) : Reply × Run :=
  s.answered [candidate s.writer type schema payload]
    (mutate s.writer s.disk (.append type schema payload) io)

/-- `begin_group_commit`, where it is granted. -/
def begin (s : Run) (io : Io) : Option Run :=
  match serve ⟨s.writer, false⟩ s.disk (.beginGroup true) io with
  | (.groupBegun, x, d) => some { s with writer := x.writer, disk := d }
  | _ => none

/-- `finish_group_commit`, where it succeeds; the size is that of the group. -/
def finish (s : Run) (io : Io) : Option (ℕ × Run) :=
  match serve ⟨s.writer, false⟩ s.disk (.finishGroup true) io with
  | (.groupFinished size, x, d) => some (size, { s with writer := x.writer, disk := d })
  | _ => none

/-- Every record, in the order of the files. -/
def all (s : Run) : List Physical.Record := (s.earlier.flatMap Stored.records) ++ s.last.records

/-- How the files grow by one record. -/
inductive Grows (s : Run) (r : Physical.Record) : Run → Prop
  | here {w : Writer} {d : Disk} :
      Holds w d s.earlier ⟨s.last.header, s.last.records ++ [r]⟩ false →
      Grows s r ⟨w, d, s.earlier, ⟨s.last.header, s.last.records ++ [r]⟩⟩
  | successor {w : Writer} {d : Disk} :
      Holds w d (s.earlier ++ [s.last]) ⟨successorHeader s.writer, [r]⟩ false →
      Grows s r ⟨w, d, s.earlier ++ [s.last], ⟨successorHeader s.writer, [r]⟩⟩

end Run

section Requests

variable {s t : Run} {type schema size : ℕ} {payload : Binary} {io : Io} {receipt : Receipt}

theorem put_grouped (s : Run) (g g' : Option ℕ) (w : Writer) (d : Disk) (records : List Physical.Record) :
    (s.grouped g).put (w.inGroup g') d records = (s.put w d records).grouped g' := by
  by_cases hid : w.segment.id = s.writer.segment.id
  · have hid' : (w.inGroup g').segment.id = (s.grouped g).writer.segment.id := hid
    rw [Run.put, Run.put, if_pos hid, if_pos hid']
    rfl
  · have hid' : ¬(w.inGroup g').segment.id = (s.grouped g).writer.segment.id := hid
    rw [Run.put, Run.put, if_neg hid, if_neg hid']
    rfl

/-- **A group is only about syncs**: the same answers, and the same files. -/
theorem append_grouped (s : Run) (n type schema : ℕ) (payload : Binary) (io : Io) :
    (s.grouped none).append type schema payload io.synced =
      (((s.grouped (some n)).append type schema payload io).1,
        ((s.grouped (some n)).append type schema payload io).2.grouped none) := by
  have hmutate : mutate (s.grouped none).writer (s.grouped none).disk (.append type schema payload)
      io.synced = _ := mutate_inGroup s.writer io n s.disk type schema payload
  unfold Run.append
  rw [hmutate]
  show Run.answered _ [candidate s.writer type schema payload] _ =
    ((Run.answered _ [candidate s.writer type schema payload]
      (mutate (s.writer.inGroup (some n)) s.disk (.append type schema payload) io)).1, Run.grouped
        (Run.answered _ [candidate s.writer type schema payload]
          (mutate (s.writer.inGroup (some n)) s.disk (.append type schema payload) io)).2 none)
  rcases mutate (s.writer.inGroup (some n)) s.disk (.append type schema payload) io with ⟨reply, w, d⟩
  have hput : ∀ records, (s.grouped none).put (w.inGroup none) d records =
      ((s.grouped (some n)).put w d records).grouped none := fun records ↦ by
    have hsome : (s.grouped (some n)).put w d records = (s.put w d records).grouped w.groupCommit :=
      put_grouped s (some n) w.groupCommit w d records
    rw [put_grouped, hsome]
    rfl
  rcases reply <;> exact Prod.ext rfl (hput _)

theorem append_grows (h : s.Held) (happend : s.append type schema payload io = (.appended receipt, t)) :
    s.Grows (candidate s.writer type schema payload) t ∧ receipt.sequence = s.writer.nextSequence := by
  obtain ⟨closed, h⟩ := h
  unfold Run.append at happend
  rcases hmutate : mutate s.writer s.disk (.append type schema payload) io with ⟨reply, w, d⟩
  rw [hmutate] at happend
  have hreply : reply = .appended receipt := by
    rcases reply <;> exact (Prod.mk.inj happend).1
  subst hreply
  obtain rfl := (Prod.mk.inj happend).2
  rcases (h.mutate_append hmutate).2 with ⟨-, hholds⟩ | ⟨-, hholds⟩
  · have hid : w.segment.id = s.writer.segment.id := by rw [hholds.id, h.id]
    rw [Run.put, if_pos hid]
    exact ⟨.here hholds, rfl⟩
  · have hid : ¬w.segment.id = s.writer.segment.id := by
      rw [hholds.id]
      exact Nat.succ_ne_self _
    have hheader : (⟨w.segment.id, w.segment.firstSequence, w.segment.storeId⟩ : Header) =
        successorHeader s.writer := by
      rw [hholds.segment]
      rfl
    rw [Run.put, if_neg hid, hheader]
    exact ⟨.successor hholds, rfl⟩

theorem mutate_appended {w w' : Writer} {d d' : Disk}
    (h : mutate w d (.append type schema payload) io = (.appended receipt, w', d')) :
    ∃ bytes, appendWithCapacity w bytes io d = (.ok (w', receipt), d') := by
  unfold mutate at h
  dsimp only at h
  split_ifs at h
  · exact absurd (congrArg Prod.fst h) (by simp)
  · exact absurd (congrArg Prod.fst h) (by simp)
  · rcases hencode : (candidate w type schema payload).encode with error | bytes
    · rw [hencode] at h
      exact absurd (congrArg Prod.fst h) (by simp)
    · rw [hencode] at h
      dsimp only at h
      refine ⟨bytes, ?_⟩
      rcases hx : appendWithCapacity w bytes io d with ⟨failure | ⟨next, r⟩, d''⟩
      · rw [hx] at h
        rcases failure <;> exact absurd (congrArg Prod.fst h) (by simp [failed])
      · rw [hx] at h
        obtain ⟨rfl, rfl, rfl⟩ : r = receipt ∧ next = w' ∧ d'' = d' := by simpa using h
        rfl

end Requests

/-! ## What has been synced -/

theorem sealSegment_synced {w w' : Writer} {io : Io} {d d' : Disk}
    (h : sealSegment w io d = (.ok w', d')) : io.ok .footerSync = true := by
  obtain ⟨-, h⟩ := Action.perform_bind.mp h
  obtain ⟨bytes, -, h⟩ := Action.lift_bind.mp h
  obtain ⟨-, h⟩ := Action.write_bind.mp h
  exact (Action.perform_bind.mp h).1

/-- A rotation changes only the segment, and syncs the one it leaves unless that was sealed before. -/
theorem rotate_synced_footer {w w' : Writer} {io : Io} {d d' : Disk}
    (h : rotate w io d = (.ok w', d')) :
    w' = { w with segment := w'.segment } ∧
      (w'.segment.id ≠ w.segment.id → w.segment.sealed = true ∨ io.ok .footerSync = true) := by
  unfold rotate at h
  split_ifs at h with _ _ _ hsealed
  · obtain ⟨rfl, -⟩ := Action.pure_ok.mp h
    exact ⟨rfl, fun hne ↦ absurd rfl hne⟩
  · exact absurd (congrArg Prod.fst h) (by simp [Action.reject])
  · exact absurd (congrArg Prod.fst h) (by simp [Action.reject])
  · obtain ⟨-, -, rfl⟩ := createSuccessor_ok h
    exact ⟨rfl, fun _ ↦ .inl hsealed⟩
  · obtain ⟨closed, d₁, hseal, h⟩ := Action.bind_ok.mp h
    obtain ⟨-, -, rfl⟩ := sealSegment_ok hseal
    obtain ⟨-, -, rfl⟩ := createSuccessor_ok h
    exact ⟨rfl, fun _ ↦ .inr (sealSegment_synced hseal)⟩

theorem appendBytes_synced {w : Writer} {bytes : Binary} {io : Io} {d d' : Disk}
    {out : Writer × Receipt} (h : appendBytes w bytes io d = (.ok out, d'))
    (hdurability : w.durability = .sync) (hgroup : w.groupCommit = none) :
    io.ok .appendSync = true := by
  obtain ⟨-, h⟩ := Action.write_bind.mp h
  have hsync : syncAppend w io = Action.perform io .appendSync := by
    simp [syncAppend, hdurability, hgroup]
  rw [hsync] at h
  exact (Action.perform_bind.mp h).1

/-- What an append says of the writer beside its files. -/
structure AppendFrame (w w' : Writer) (io : Io) : Prop where
  group : w'.groupCommit = w.groupCommit.map (· + 1)
  durability : w'.durability = w.durability
  sequence : w'.nextSequence = w.nextSequence + 1
  synced : w.durability = .sync → w.groupCommit = none → io.ok .appendSync = true
  left : w'.segment.id ≠ w.segment.id → w.segment.sealed = true ∨ io.ok .footerSync = true

theorem appendBytes_frame {w w' : Writer} {bytes : Binary} {io : Io} {d d' : Disk} {receipt : Receipt}
    (h : appendBytes w bytes io d = (.ok (w', receipt), d')) : AppendFrame w w' io := by
  obtain ⟨-, hout⟩ := appendBytes_ok h
  obtain ⟨rfl, -⟩ := Prod.mk.inj hout
  exact ⟨rfl, rfl, rfl, appendBytes_synced h, fun hne ↦ absurd rfl hne⟩

theorem appendWithCapacity_frame {w w' : Writer} {bytes : Binary} {io : Io} {d d' : Disk}
    {receipt : Receipt} (h : appendWithCapacity w bytes io d = (.ok (w', receipt), d')) :
    AppendFrame w w' io := by
  unfold appendWithCapacity at h
  split_ifs at h
  · obtain ⟨next, d₁, hrotate, h⟩ := Action.bind_ok.mp h
    obtain ⟨hnext, hleft⟩ := rotate_synced_footer hrotate
    have hframe := appendBytes_frame h
    have hid : w'.segment.id = next.segment.id := by
      obtain ⟨-, hout⟩ := appendBytes_ok h
      obtain ⟨rfl, -⟩ := Prod.mk.inj hout
      rfl
    rw [hnext] at hframe
    exact ⟨hframe.group, hframe.durability, hframe.sequence, hframe.synced,
      fun hne ↦ hleft fun he ↦ hne (hid.trans he)⟩
  · exact appendBytes_frame h

theorem append_frame {s t : Run} {type schema : ℕ} {payload : Binary} {io : Io} {receipt : Receipt}
    (h : s.append type schema payload io = (.appended receipt, t)) :
    AppendFrame s.writer t.writer io := by
  unfold Run.append at h
  rcases hmutate : mutate s.writer s.disk (.append type schema payload) io with ⟨reply, w, d⟩
  rw [hmutate] at h
  have hreply : reply = .appended receipt := by
    rcases reply <;> exact (Prod.mk.inj h).1
  subst hreply
  obtain rfl := (Prod.mk.inj h).2
  obtain ⟨bytes, happend⟩ := mutate_appended hmutate
  rw [put_writer]
  exact appendWithCapacity_frame happend

theorem append_refused {s t : Run} {type schema : ℕ} {payload : Binary} {io : Io} {reply : Reply}
    (h : s.append type schema payload io = (reply, t)) (ha : ∀ receipt, reply ≠ .appended receipt)
    (hu : ∀ failure, reply ≠ .uncertain failure) : t = s := by
  have hended := mutate_ended s.writer s.disk (.append type schema payload) io
  unfold Run.append at h
  rcases hmutate : mutate s.writer s.disk (.append type schema payload) io with ⟨r, w, d⟩
  rw [hmutate] at h hended
  obtain rfl : r = reply := by rcases r <;> exact (Prod.mk.inj h).1
  have ht : t = s.put w d [] := by
    rcases r <;> first | exact absurd rfl (ha _) | exact (Prod.mk.inj h).2.symm
  rcases hended with _ | _ | hrotated | _ | _
  · exact absurd rfl (ha _)
  · simp at *
  · simp at *
  · rw [ht, Run.put, if_pos rfl, List.append_nil]
  · exact absurd rfl (hu _)

theorem begin_ok {s t : Run} {io : Io} (h : s.begin io = some t) :
    s.writer.groupCommit = none ∧ s.writer.durability = .sync ∧ t = s.grouped (some 0) := by
  by_cases hpoisoned : s.writer.poisoned = true
  · simp [Run.begin, serve, hpoisoned] at h
  by_cases hdurability : s.writer.durability = .sync
  swap
  · simp [Run.begin, serve, beginGroup, hpoisoned, hdurability] at h
  rcases hgroup : s.writer.groupCommit with _ | n
  · have hserve : serve ⟨s.writer, false⟩ s.disk (.beginGroup true) io =
        (.groupBegun, ⟨s.writer.inGroup (some 0), false⟩, s.disk) := by
      simp [serve, beginGroup, Writer.inGroup, hpoisoned, hdurability, hgroup]
    rw [Run.begin, hserve] at h
    exact ⟨rfl, hdurability, (Option.some_inj.mp h).symm⟩
  · simp [Run.begin, serve, beginGroup, hpoisoned, hdurability, hgroup] at h

theorem finish_ok {s t : Run} {io : Io} {size : ℕ} (h : s.finish io = some (size, t)) :
    s.writer.groupCommit = some size ∧ t = s.grouped none ∧ (size ≠ 0 → io.ok .groupSync = true) := by
  by_cases hpoisoned : s.writer.poisoned = true
  · simp [Run.finish, serve, hpoisoned] at h
  rcases hgroup : s.writer.groupCommit with _ | n
  · simp [Run.finish, serve, finishGroup, hpoisoned, hgroup] at h
  rcases hsync : syncGroup n io s.disk with ⟨failure | u, d⟩
  · simp [Run.finish, serve, finishGroup, hpoisoned, hgroup, hsync] at h
  have hd : d = s.disk ∧ (n ≠ 0 → io.ok .groupSync = true) := by
    unfold syncGroup at hsync
    split_ifs at hsync with hn
    · exact ⟨(congrArg Prod.snd hsync).symm, fun hne ↦ absurd hn hne⟩
    · obtain ⟨hok, hcheck⟩ := Action.perform_bind.mp hsync
      exact ⟨(congrArg Prod.snd hcheck).symm, fun _ ↦ hok⟩
  have hserve : serve ⟨s.writer, false⟩ s.disk (.finishGroup true) io =
      (.groupFinished n, ⟨s.writer.inGroup none, false⟩, s.disk) := by
    simp [serve, finishGroup, Writer.inGroup, hpoisoned, hgroup, hsync, hd.1]
  rw [Run.finish, hserve] at h
  obtain ⟨rfl, rfl⟩ := Prod.mk.inj (Option.some_inj.mp h)
  exact ⟨rfl, rfl, hd.2⟩

namespace Run

/-- The number up to which records are safe, after an append. A sync is made on the file the writer is
in; what is in the files before it was synced when they were sealed. -/
def coveredBy (s t : Run) (io : Io) (covered : ℕ) : ℕ :=
  if s.writer.durability = .sync ∧ s.writer.groupCommit = none ∧ io.ok .appendSync = true then
    t.writer.nextSequence
  else if t.writer.segment.id ≠ s.writer.segment.id ∧ s.writer.segment.sealed = false ∧
      io.ok .footerSync = true then s.writer.nextSequence
  else covered

/-- The same after the end of a group, which syncs only where there is something to sync. -/
def coveredAfter (s : Run) (size : ℕ) (io : Io) (covered : ℕ) : ℕ :=
  if size ≠ 0 ∧ io.ok .groupSync = true then s.writer.nextSequence else covered

/-- The records that are safe reach at least into the segment the writer is in, and outside a group
they are all there are. -/
structure Safe (s : Run) (covered : ℕ) : Prop where
  held : s.Held
  first : s.last.header.firstSequence ≤ covered
  upto : covered ≤ s.writer.nextSequence
  closed : s.writer.segment.sealed = true → covered = s.writer.nextSequence
  idle : s.writer.groupCommit = none ∨ s.writer.groupCommit = some 0 →
    covered = s.writer.nextSequence
  durability : s.writer.durability = .sync

end Run

/-- A group has no part in what the files hold. -/
theorem Holds.grouped {w : Writer} {d : Disk} {earlier : List Stored} {last : Stored} {closed : Bool}
    (h : Holds w d earlier last closed) (group : Option ℕ) :
    Holds (w.inGroup group) d earlier last closed :=
  ⟨h.target, h.disk, h.segment, h.sequence, h.storeId, h.written, h.closed, h.earlier⟩

section Safe

variable {s t : Run} {covered type schema size : ℕ} {payload : Binary} {io : Io} {receipt : Receipt}

theorem Run.Safe.coveredBy (h : s.Safe covered) (io : Io)
    (hsequence : t.writer.nextSequence = s.writer.nextSequence + 1) :
    covered ≤ s.coveredBy t io covered ∧ s.coveredBy t io covered ≤ t.writer.nextSequence := by
  have hupto := h.upto
  unfold Run.coveredBy
  split_ifs <;> omega

theorem Run.Safe.append (h : s.Safe covered)
    (happend : s.append type schema payload io = (.appended receipt, t)) :
    t.Safe (s.coveredBy t io covered) := by
  obtain ⟨hgrows, -⟩ := append_grows h.held happend
  have hframe := append_frame happend
  have hdurability : t.writer.durability = .sync := hframe.durability.trans h.durability
  have hgroup : s.writer.groupCommit = none → s.coveredBy t io covered = t.writer.nextSequence := by
    intro hnone
    rw [Run.coveredBy, if_pos ⟨h.durability, hnone, hframe.synced h.durability hnone⟩]
  have hidle : t.writer.groupCommit = none ∨ t.writer.groupCommit = some 0 →
      s.coveredBy t io covered = t.writer.nextSequence := by
    intro hidle
    refine hgroup ?_
    rw [hframe.group] at hidle
    rcases hg : s.writer.groupCommit with _ | n
    · rfl
    · rw [hg] at hidle
      simp at hidle
  have hbounds := h.coveredBy io hframe.sequence
  rcases hgrows with @⟨w, d, hholds⟩ | @⟨w, d, hholds⟩
  · exact ⟨⟨false, hholds⟩, h.first.trans hbounds.1, hbounds.2,
      fun hs ↦ absurd hs (by rw [hholds.segment]; exact Bool.false_ne_true), hidle, hdurability⟩
  · refine ⟨⟨false, hholds⟩, ?_, hbounds.2,
      fun hs ↦ absurd hs (by rw [hholds.segment]; exact Bool.false_ne_true), hidle, hdurability⟩
    -- the segment that is left behind is synced by now, with its footer or from before
    show s.writer.nextSequence ≤ _
    have hid : w.segment.id ≠ s.writer.segment.id := by
      rw [hholds.id]
      exact Nat.succ_ne_self _
    have hsequence : w.nextSequence = s.writer.nextSequence + 1 := hframe.sequence
    unfold Run.coveredBy
    split_ifs with hsync hfooter
    · exact hsequence ▸ Nat.le_succ _
    · exact le_rfl
    · rcases hframe.left hid with hsealed | hio
      · exact (h.closed hsealed).ge
      · rcases hsealed : s.writer.segment.sealed with _ | _
        · exact absurd ⟨hid, hsealed, hio⟩ hfooter
        · exact (h.closed hsealed).ge

/-- The end of a group makes everything safe. -/
theorem Run.Safe.finish (h : s.Safe covered) (hfinish : s.finish io = some (size, t)) :
    t.Safe (s.coveredAfter size io covered) ∧
      s.coveredAfter size io covered = t.writer.nextSequence := by
  obtain ⟨hgroup, rfl, hsync⟩ := finish_ok hfinish
  obtain ⟨closed, hheld⟩ := h.held
  have hall : s.coveredAfter size io covered = s.writer.nextSequence := by
    unfold Run.coveredAfter
    split_ifs with hn
    · rfl
    · rcases size with _ | n
      · exact h.idle (.inr hgroup)
      · exact absurd ⟨Nat.succ_ne_zero n, hsync (Nat.succ_ne_zero n)⟩ hn
  rw [hall]
  exact ⟨⟨⟨closed, hheld.grouped none⟩, h.first.trans h.upto, le_rfl, fun _ ↦ rfl, fun _ ↦ rfl,
    h.durability⟩, rfl⟩

theorem Run.Safe.begin (h : s.Safe covered) (hbegin : s.begin io = some t) : t.Safe covered := by
  obtain ⟨hgroup, -, rfl⟩ := begin_ok hbegin
  obtain ⟨closed, hheld⟩ := h.held
  have hidle := h.idle (.inl hgroup)
  exact ⟨⟨closed, hheld.grouped (some 0)⟩, h.first, h.upto, fun _ ↦ hidle, fun _ ↦ hidle,
    h.durability⟩

end Safe

/-! ## After a crash -/

/-- The records of a file, if it is accepted. -/
def readFile (highest : Bool) (file : File) : Option (List Physical.Record) :=
  match parse file.bytes { id := some file.id, highest } with
  | some (.ok _ records) => some records
  | _ => none

/-- The records of all files, if they are accepted. -/
def readFiles : List File → Option (List Physical.Record)
  | [] => some []
  | [file] => readFile true file
  | file :: rest => (readFile false file).bind fun first ↦ (readFiles rest).map (first ++ ·)

/-- Bytes of the highest segment that a sync has covered. -/
def Run.synced (s : Run) (covered : ℕ) : ℕ :=
  (openBytes s.last.header (s.last.records.take (covered - s.last.header.firstSequence))).length

/-- A file of which only the first bytes are left. -/
def File.cut (file : File) (n : ℕ) : File := ⟨file.id, file.bytes.take n⟩

/-- An append that leads from one run to the other. -/
def Run.Appends (s t : Run) : Prop :=
  ∃ type schema payload io receipt, s.append type schema payload io = (.appended receipt, t)

/-- What a crash can leave of the files while the writer goes from `s` to `t`. Of the file it is in, at
least what was synced before; on the way into a new one, either the old one before its footer is safe,
or a new one in the making. -/
inductive Crash (s t : Run) (covered : ℕ) : List File → Prop
  | written {n : ℕ} : t.last.header = s.last.header → s.synced covered ≤ n →
      Crash s t covered (t.disk.earlier ++ [t.disk.highest.cut n])
  | sealing {n : ℕ} : t.last.header ≠ s.last.header → s.synced covered ≤ n →
      Crash s t covered (s.disk.earlier ++ [s.last.sealedFile.cut n])
  | created {n : ℕ} : t.last.header ≠ s.last.header →
      Crash s t covered (t.disk.earlier ++ [t.disk.highest.cut n])

section Crash

variable {stored : Stored} {earlier : List Stored} {records : List Physical.Record} {file : File}

theorem admit_default (h : Written stored.header stored.records) (highest : Bool) :
    Options.Admit { id := some stored.header.id, highest } stored.header stored.records where
  valid := by
    have hid := h.header.id
    simp [validOptions?, hid]
  id e he := by
    cases he
    rfl
  storeId e he := by cases he
  payload r hr := (numbered_valid h.numbered r hr).payload

/-- Sealed files are read as what was put into them. -/
theorem readFiles_sealed (h : ∀ stored ∈ earlier, stored.Whole) :
    readFiles (earlier.map Stored.sealedFile ++ [file]) =
      (readFile true file).map (earlier.flatMap Stored.records ++ ·) := by
  induction earlier with
  | nil =>
    show readFile true file = _
    rcases readFile true file with _ | rs <;> rfl
  | cons stored rest ih =>
    have hwhole := h stored List.mem_cons_self
    have hread : readFile false stored.sealedFile = some stored.records := by
      have hparse := parse_sealed hwhole.1 (admit_default hwhole.1 false) hwhole.2
      unfold readFile
      show (match parse (sealedBytes stored.header stored.records)
        { id := some stored.header.id, highest := false } with
        | some (.ok _ records) => some records
        | _ => none) = _
      rw [hparse]
    have hrest := ih fun s hs ↦ h s (List.mem_cons_of_mem _ hs)
    rcases hl : rest.map Stored.sealedFile ++ [file] with _ | ⟨next, more⟩
    · simp at hl
    · rw [List.map_cons, List.cons_append, hl, readFiles, hread, ← hl, hrest]
      · simp [Function.comp_def]
      · simp

/-- A file that was cut is refused, or it is read as the records that are whole, and these are all
that fit. -/
theorem readFile_cut {closed : Bool} {n : ℕ} (h : Written stored.header stored.records)
    (hclosed : closed = true → stored.records ≠ [])
    (hread : readFile true ((stored.file closed).cut n) = some records) :
    ∃ k ≤ stored.records.length, records = stored.records.take k ∧
      (k = stored.records.length ∨ n ≤ (openBytes stored.header (stored.records.take k)).length) := by
  have hid : ((stored.file closed).cut n).id = stored.header.id := by cases closed <;> rfl
  have hparses : Parses { id := some stored.header.id, highest := true } closed stored
      (stored.file closed) := by
    rcases closed with _ | _
    · exact parses_open h _
    · exact parses_sealed ⟨h, hclosed rfl⟩ _
  obtain ⟨hwhole, hcut⟩ := hparses (admit_default h true)
  unfold readFile at hread
  rw [hid] at hread
  by_cases hn : n < (stored.file closed).bytes.length
  · rcases hcut n hn with ⟨failure, hfailed⟩ | ⟨k, hk, hfile, hparse⟩
    · rw [File.cut, hfailed] at hread
      cases hread
    · rw [File.cut, hparse] at hread
      refine ⟨k, hk, (Option.some_inj.mp hread).symm, .inr ?_⟩
      rw [← hfile, List.length_take]
      omega
  · rw [File.cut, List.take_of_length_le (not_lt.mp hn), hwhole (.inr rfl)] at hread
    exact ⟨_, le_rfl, by rw [List.take_length]; exact (Option.some_inj.mp hread).symm, .inl rfl⟩

theorem numbered_ge {n : ℕ} (h : Numbered n records) : ∀ r ∈ records, n ≤ r.sequence := by
  induction records generalizing n with
  | nil => exact fun r hr ↦ absurd hr List.not_mem_nil
  | cons r rest ih =>
    obtain ⟨-, hr, hrest⟩ := h
    intro r' hr'
    rcases List.mem_cons.mp hr' with rfl | hr'
    · exact hr.ge
    · exact (Nat.le_succ n).trans (ih hrest r' hr')

/-- Whatever is synced is among the records that are whole. -/
theorem mem_take_of_synced {j k : ℕ} {header : Header}
    (hlength : (openBytes header (records.take j)).length ≤ (openBytes header (records.take k)).length) :
    ∀ r ∈ records.take j, r ∈ records.take k := by
  by_cases hjk : j ≤ k
  · exact fun r hr ↦ (List.take_prefix_take_left hjk).subset hr
  · -- otherwise the records in between would have no bytes
    have hsplit : records.take j = records.take k ++ (records.take j).drop k := by
      conv_lhs => rw [← List.take_append_drop k (records.take j)]
      rw [List.take_take, min_eq_left (by omega)]
    have hbytes := length_recordBytes_ge ((records.take j).drop k)
    rw [hsplit, openBytes_append, List.length_append] at hlength
    have hnone : ((records.take j).drop k) = [] := by
      rw [← List.length_eq_zero_iff]
      omega
    rw [hsplit, hnone, List.append_nil]
    exact fun r hr ↦ hr

/-- What is left of the highest file has every record that was safe. -/
theorem readFile_safe {closed : Bool} {n covered : ℕ} (h : Written stored.header stored.records)
    (hclosed : closed = true → stored.records ≠ []) (hfirst : stored.header.firstSequence ≤ covered)
    (hn : (openBytes stored.header
      (stored.records.take (covered - stored.header.firstSequence))).length ≤ n)
    (hread : readFile true ((stored.file closed).cut n) = some records) :
    records <+: stored.records ∧ ∀ r ∈ stored.records, r.sequence < covered → r ∈ records := by
  obtain ⟨k, hk, rfl, hall⟩ := readFile_cut h hclosed hread
  refine ⟨List.take_prefix _ _, fun r hr hlt ↦ ?_⟩
  rcases hall with rfl | hbytes
  · rwa [List.take_length]
  · refine mem_take_of_synced (hn.trans hbytes) r ?_
    rw [← List.take_append_drop (covered - stored.header.firstSequence) stored.records] at hr
    rcases List.mem_append.mp hr with hr | hr
    · exact hr
    · -- the records behind have higher numbers
      have hnumbered := h.numbered
      rw [← List.take_append_drop (covered - stored.header.firstSequence) stored.records,
        numbered_append, List.length_take] at hnumbered
      have hge := numbered_ge hnumbered.2 r hr
      have hlong := List.length_pos_of_mem hr
      rw [List.length_drop] at hlong
      omega

end Crash

section Crash

variable {s t : Run} {covered n : ℕ} {files : List File} {records : List Physical.Record}

/-- What is left of sealed files and a last one that was cut. -/
theorem readFiles_safe {earlier : List Stored} {last : Stored} {closed : Bool}
    (hearlier : ∀ stored ∈ earlier, stored.Whole) (hwritten : Written last.header last.records)
    (hclosed : closed = true → last.records ≠ []) (hfirst : last.header.firstSequence ≤ covered)
    (hn : (openBytes last.header
      (last.records.take (covered - last.header.firstSequence))).length ≤ n)
    (hread : readFiles (earlier.map Stored.sealedFile ++ [(last.file closed).cut n]) = some records) :
    records <+: earlier.flatMap Stored.records ++ last.records ∧
      ∀ r ∈ earlier.flatMap Stored.records ++ last.records, r.sequence < covered → r ∈ records := by
  rw [readFiles_sealed hearlier] at hread
  obtain ⟨rs, hrs, rfl⟩ := Option.map_eq_some_iff.mp hread
  obtain ⟨hlead, hsafe⟩ := readFile_safe hwritten hclosed hfirst hn hrs
  refine ⟨(List.prefix_append_right_inj _).mpr hlead, fun r hr hlt ↦ ?_⟩
  rcases List.mem_append.mp hr with hr | hr
  · exact List.mem_append_left _ hr
  · exact List.mem_append_right _ (hsafe r hr hlt)

/-- **What was synced survives.** Whenever the writer crashes, at rest or within an append, if the files
that are left are accepted then they have every record that was safe, and nothing but what was written,
in its order. -/
theorem crash_reads (h : s.Safe covered) (ht : t = s ∨ s.Appends t)
    (hcrash : Crash s t covered files) (hread : readFiles files = some records) :
    records <+: t.all ∧ ∀ r ∈ s.all, r.sequence < covered → r ∈ records := by
  obtain ⟨closed, hheld⟩ := h.held
  rcases ht with rfl | ⟨type, schema, payload, io, receipt, happend⟩
  · rcases hcrash with @⟨n, -, hn⟩ | @⟨n, hne, -⟩ | @⟨n, hne⟩
    · rw [hheld.disk] at hread
      exact readFiles_safe hheld.earlier hheld.written hheld.closed h.first hn hread
    · exact absurd rfl hne
    · exact absurd rfl hne
  · rcases (append_grows h.held happend).1 with @⟨w, d, hholds⟩ | @⟨w, d, hholds⟩
    · rcases hcrash with @⟨n, -, hn⟩ | @⟨n, hne, -⟩ | @⟨n, hne⟩
      · -- the record that is being written comes after the ones that are safe
        have hlength : covered - s.last.header.firstSequence ≤ s.last.records.length := by
          have hupto := h.upto
          rw [hheld.sequence] at hupto
          omega
        rw [Run.synced, ← List.take_append_of_le_length hlength] at hn
        dsimp only at hread
        rw [hholds.disk] at hread
        obtain ⟨hlead, hsafe⟩ :=
          readFiles_safe hholds.earlier hholds.written hholds.closed h.first hn hread
        refine ⟨hlead, fun r hr hlt ↦ hsafe r ?_ hlt⟩
        rw [← List.append_assoc]
        exact List.mem_append_left _ hr
      · exact absurd rfl hne
      · exact absurd rfl hne
    · have hlast : s.last.Whole := hholds.earlier s.last (by simp)
      rcases hcrash with @⟨n, he, -⟩ | @⟨n, -, hn⟩ | @⟨n, -⟩
      · refine absurd (congrArg Header.id he) ?_
        show s.writer.segment.id + 1 ≠ s.last.header.id
        rw [hheld.id]
        exact Nat.succ_ne_self _
      · have hearlier : s.disk.earlier = s.earlier.map Stored.sealedFile := by rw [hheld.disk]
        rw [hearlier] at hread
        obtain ⟨hlead, hsafe⟩ := readFiles_safe hheld.earlier hlast.1
          (fun _ : true = true ↦ hlast.2) h.first hn hread
        refine ⟨hlead.trans ?_, hsafe⟩
        simp [Run.all]
      · -- every file of before is whole
        dsimp only at hread
        rw [hholds.disk, readFiles_sealed hholds.earlier] at hread
        obtain ⟨rs, hrs, rfl⟩ := Option.map_eq_some_iff.mp hread
        obtain ⟨k, -, rfl, -⟩ := readFile_cut hholds.written hholds.closed hrs
        refine ⟨(List.prefix_append_right_inj _).mpr (List.take_prefix _ _), fun r hr _ ↦ ?_⟩
        refine List.mem_append_left _ ?_
        simpa [Run.all] using hr

end Crash

end Tay.SegmentOps
