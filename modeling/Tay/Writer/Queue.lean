import Tay.Writer.Compaction

/-!
# The queue

Appends that arrive while the writer is frozen are queued, and their callers wait without a timeout.
Every call is answered at most once, the queue is kept in the order of the calls until the compaction
ends, and an end that gets the writer back to a segment answers all of it.

Not every end does. When the reopening, the rollback or the reconciliation fails, when the builder
dies or the helper's port closes, the writer is poisoned and the queue stays where it was.
`Answerable` excludes exactly these while something is queued; over the runs that remain nobody is
left waiting, and the run at the end of the module is one of the others.
-/

open Foundation

namespace Tay.Writer

/-! ## Appends -/

/-- The three ways an append call goes. -/
inductive Appends (s : State) (caller : Caller) (request : Payload) (r : State × List Sent) : Prop
  | queued {o : Online} : s.online = some o → o.frozen = true → s.admitted = true →
      r = ({ s with online := some (o.queue caller request) }, []) → Appends s caller request r
  | written : s.online.any (·.frozen) = false → r.1.online = s.online.map (·.journal request) →
      repliedTo r.2 = [caller] → acknowledges r.2 caller = true → Appends s caller request r
  | refused : (s.online.any (·.frozen) && s.admitted) = false → r.1.online = s.online →
      repliedTo r.2 = [caller] → acknowledges r.2 caller = false → Appends s caller request r

theorem acknowledges_poison (s : State) (reason : Failure) (caller : Caller) :
    acknowledges (poison s reason).2 caller = false :=
  acknowledges_eq_false (by simp)

theorem direct_appends {s : State} (hs : s.online.any (·.frozen) = false) (caller : Caller)
    (request : Payload) (io : Except Failure Unit) :
    Appends s caller request (handleAppend.direct s caller request io) := by
  have hunfrozen : (s.online.any (·.frozen) && s.admitted) = false := by rw [hs]; rfl
  unfold handleAppend.direct
  split
  · exact .refused hunfrozen rfl rfl rfl
  · split
    case isFalse => exact .refused hunfrozen rfl rfl rfl
    case isTrue =>
      unfold mutate
      split
      · exact .refused hunfrozen rfl rfl rfl
      · split
        · exact .refused hunfrozen rfl rfl rfl
        · cases io with
          | ok u =>
            refine .written hs ?_ rfl (by simp [acknowledges])
            cases honline : s.online with
            | none => simp [journalCompaction, append, honline]
            | some o =>
              have ho : o.frozen = false := by simpa [honline] using hs
              simp [journalCompaction, append, honline, ho]
          | error reason =>
            refine .refused hunfrozen (poison_online s reason) ?_ ?_
            · simp
            · rw [acknowledges_append, acknowledges_poison]
              rfl

theorem handleAppend_appends (s : State) (caller : Caller) (request : Payload)
    (io : Except Failure Unit) : Appends s caller request (handleAppend s caller request io) := by
  unfold handleAppend
  cases honline : s.online with
  | none => exact direct_appends (by simp [honline]) caller request io
  | some o =>
    cases hfrozen : o.frozen with
    | false => simpa [hfrozen] using direct_appends (by simp [honline, hfrozen]) caller request io
    | true =>
      by_cases hadmitted : s.admitted = true
      · simp only [hfrozen, if_true, hadmitted]
        exact .queued honline hfrozen hadmitted (by rw [hadmitted])
      · simp only [hfrozen, if_true, if_neg hadmitted]
        exact .refused (by simp [hadmitted]) rfl rfl rfl

theorem journal_pending (o : Online) (record : Payload) :
    (o.journal record).pending = o.pending ∧ (o.journal record).frozen = o.frozen := by
  unfold Online.journal
  split
  · simp only
    split
    · exact ⟨rfl, rfl⟩
    · exact ⟨rfl, rfl⟩
  · exact ⟨rfl, rfl⟩

/-! ## The queue -/

/-- The queue and the replies, in every state. -/
structure Queued (s : Compaction) : Prop where
  /-- Replies go to calls that were made, each call being answered at most once. -/
  fresh : ∀ c ∈ repliedTo s.sent, c < s.calls
  once : (repliedTo s.sent).Nodup
  queuedFresh : ∀ q ∈ s.queued, q.1 < s.calls
  distinct : (s.queued.map Prod.fst).Nodup
  /-- The queue is there until the compaction ends, and unanswered. -/
  pending : ∀ o ∈ s.writer.online, s.queued = o.pending.reverse
  unfrozen : ∀ o ∈ s.writer.online, o.frozen = false → o.pending = []
  unanswered : ∀ o ∈ s.writer.online, ∀ q ∈ s.queued, q.1 ∉ repliedTo s.sent
  /-- When it has ended, everything that was queued has been answered. -/
  answered : s.writer.online = none → ∀ q ∈ s.queued, q.1 ∈ repliedTo s.sent

/-- Steps that neither queue nor answer. -/
theorem Queued.congr {s s' : Compaction} (h : Queued s) (hcalls : s'.calls = s.calls)
    (hqueued : s'.queued = s.queued) (hsent : repliedTo s'.sent = repliedTo s.sent)
    (honline : ∀ o' ∈ s'.writer.online, ∃ o ∈ s.writer.online,
      o'.pending = o.pending ∧ (o'.frozen = false → o.frozen = false))
    (hnone : s'.writer.online = none → s.writer.online = none) : Queued s' := by
  constructor
  · rw [hsent, hcalls]
    exact h.fresh
  · rw [hsent]
    exact h.once
  · rw [hqueued, hcalls]
    exact h.queuedFresh
  · rw [hqueued]
    exact h.distinct
  · intro o' ho'
    obtain ⟨o, ho, hpending, -⟩ := honline o' ho'
    rw [hqueued, hpending]
    exact h.pending o ho
  · intro o' ho' hfrozen
    obtain ⟨o, ho, hpending, hold⟩ := honline o' ho'
    rw [hpending]
    exact h.unfrozen o ho (hold hfrozen)
  · intro o' ho'
    obtain ⟨o, ho, -⟩ := honline o' ho'
    rw [hqueued, hsent]
    exact h.unanswered o ho
  · intro hend
    rw [hqueued, hsent]
    exact h.answered (hnone hend)

/-- An answered call. -/
theorem Queued.reply {s s' : Compaction} (h : Queued s) (hcalls : s'.calls = s.calls + 1)
    (hqueued : s'.queued = s.queued) (hsent : repliedTo s'.sent = repliedTo s.sent ++ [s.calls])
    (honline : ∀ o' ∈ s'.writer.online, ∃ o ∈ s.writer.online,
      o'.pending = o.pending ∧ (o'.frozen = false → o.frozen = false))
    (hnone : s'.writer.online = none → s.writer.online = none) : Queued s' := by
  constructor
  · intro c hc
    rw [hsent, List.mem_append, List.mem_singleton] at hc
    rw [hcalls]
    rcases hc with hc | rfl
    · exact (h.fresh c hc).trans (Nat.lt_succ_self _)
    · exact Nat.lt_succ_self _
  · rw [hsent, List.nodup_append]
    refine ⟨h.once, List.nodup_singleton _, ?_⟩
    intro c hc d hd
    rw [List.mem_singleton.mp hd]
    exact Nat.ne_of_lt (h.fresh c hc)
  · intro q hq
    rw [hqueued] at hq
    rw [hcalls]
    exact (h.queuedFresh q hq).trans (Nat.lt_succ_self _)
  · rw [hqueued]
    exact h.distinct
  · intro o' ho'
    obtain ⟨o, ho, hpending, -⟩ := honline o' ho'
    rw [hqueued, hpending]
    exact h.pending o ho
  · intro o' ho' hfrozen
    obtain ⟨o, ho, hpending, hold⟩ := honline o' ho'
    rw [hpending]
    exact h.unfrozen o ho (hold hfrozen)
  · intro o' ho' q hq
    obtain ⟨o, ho, -⟩ := honline o' ho'
    rw [hqueued] at hq
    rw [hsent, List.mem_append, List.mem_singleton, not_or]
    exact ⟨h.unanswered o ho q hq, Nat.ne_of_lt (h.queuedFresh q hq)⟩
  · intro hend q hq
    rw [hqueued] at hq
    rw [hsent, List.mem_append]
    exact .inl (h.answered (hnone hend) q hq)

/-- A queued call. -/
theorem Queued.enqueue {s : Compaction} {o : Online} (h : Queued s) (request : Payload)
    (honline : s.writer.online = some o) (hfrozen : o.frozen = true) {s' : Compaction}
    (hcalls : s'.calls = s.calls + 1) (hqueued : s'.queued = s.queued ++ [(s.calls, request)])
    (hsent : repliedTo s'.sent = repliedTo s.sent)
    (hnext : s'.writer.online = some (o.queue s.calls request)) : Queued s' := by
  constructor
  · intro c hc
    rw [hsent] at hc
    rw [hcalls]
    exact (h.fresh c hc).trans (Nat.lt_succ_self _)
  · rw [hsent]
    exact h.once
  · intro q hq
    rw [hqueued, List.mem_append, List.mem_singleton] at hq
    rw [hcalls]
    rcases hq with hq | rfl
    · exact (h.queuedFresh q hq).trans (Nat.lt_succ_self _)
    · exact Nat.lt_succ_self _
  · rw [hqueued, List.map_append, List.nodup_append]
    refine ⟨h.distinct, List.nodup_singleton _, ?_⟩
    intro c hc d hd
    obtain ⟨q, hq, rfl⟩ := List.mem_map.mp hc
    rw [List.map_cons, List.map_nil, List.mem_singleton] at hd
    rw [hd]
    exact Nat.ne_of_lt (h.queuedFresh q hq)
  · intro o' ho'
    rw [hnext] at ho'
    cases ho'
    rw [hqueued, h.pending o honline, Online.queue, List.reverse_cons]
  · intro o' ho' hunfrozen
    rw [hnext] at ho'
    cases ho'
    rw [Online.queue, hfrozen] at hunfrozen
    cases hunfrozen
  · intro o' ho' q hq
    rw [hqueued, List.mem_append, List.mem_singleton] at hq
    rw [hsent]
    rcases hq with hq | rfl
    · exact h.unanswered o honline q hq
    · intro hmem
      exact absurd (h.fresh _ hmem) (lt_irrefl _)
  · intro hend
    rw [hnext] at hend
    cases hend

/-- The end of a compaction. -/
theorem Queued.ended {s : Compaction} {o : Online} {r : State × List Sent} (h : Queued s)
    (honline : s.writer.online = some o) (hends : Ends s.writer o r) : Queued (s.ended o r) := by
  have hpending := h.pending o honline
  cases hends with
  | abandoned hsame _ hsent =>
    refine h.congr rfl rfl (by simp [Compaction.ended, Compaction.after, hsent]) ?_ ?_
    · intro o' ho'
      change r.1.online = some o' at ho'
      rw [hsame] at ho'
      exact ⟨o', ho', rfl, id⟩
    · intro hend
      change r.1.online = none at hend
      rw [← hsame]
      exact hend
  | resumed hnone hsent =>
    have hreplied : repliedTo (s.ended o r).sent =
        repliedTo s.sent ++ s.queued.map Prod.fst := by
      rw [hpending]
      simp [Compaction.ended, Compaction.after, hsent]
    have hend : (s.ended o r).writer.online = none := hnone
    constructor
    · intro c hc
      rw [hreplied, List.mem_append] at hc
      rcases hc with hc | hc
      · exact h.fresh c hc
      · obtain ⟨q, hq, rfl⟩ := List.mem_map.mp hc
        exact h.queuedFresh q hq
    · rw [hreplied, List.nodup_append]
      refine ⟨h.once, h.distinct, ?_⟩
      rintro c hc d hd rfl
      obtain ⟨q, hq, rfl⟩ := List.mem_map.mp hd
      exact h.unanswered o honline q hq hc
    · exact h.queuedFresh
    · exact h.distinct
    · intro o' ho'
      rw [hend] at ho'
      cases ho'
    · intro o' ho'
      rw [hend] at ho'
      cases ho'
    · intro o' ho'
      rw [hend] at ho'
      cases ho'
    · intro _ q hq
      rw [hreplied, List.mem_append]
      exact .inr (List.mem_map_of_mem hq)

theorem Queued.append {s : Compaction} (h : Queued s) (request : Payload)
    (io : Except Failure Unit) : Queued (s.append request io) := by
  have hcases := handleAppend_appends s.writer s.calls request io
  cases hcases with
  | queued honline hfrozen hadmitted hr =>
    refine h.enqueue request honline hfrozen rfl ?_ ?_ ?_
    · simp [Compaction.append, Compaction.after, honline, hfrozen, hadmitted]
    · simp [Compaction.append, Compaction.after, hr]
    · simp [Compaction.append, Compaction.after, hr]
  | written hfrozen honline hsent _ =>
    refine h.reply rfl ?_ ?_ ?_ ?_
    · simp [Compaction.append, Compaction.after, hfrozen]
    · simp [Compaction.append, Compaction.after, hsent]
    · intro o' ho'
      change (handleAppend _ _ _ _).1.online = some o' at ho'
      rw [honline, Option.map_eq_some_iff] at ho'
      obtain ⟨o, ho, rfl⟩ := ho'
      obtain ⟨hpending, hsame⟩ := journal_pending o request
      exact ⟨o, ho, hpending, fun hf ↦ hsame ▸ hf⟩
    · intro hnone
      change (handleAppend _ _ _ _).1.online = none at hnone
      rw [honline, Option.map_eq_none_iff] at hnone
      exact hnone
  | refused hfrozen honline hsent _ =>
    refine h.reply rfl ?_ ?_ ?_ ?_
    · simp only [Compaction.append, Compaction.after, hfrozen]
      rfl
    · simp [Compaction.append, Compaction.after, hsent]
    · intro o' ho'
      change (handleAppend _ _ _ _).1.online = some o' at ho'
      rw [honline] at ho'
      exact ⟨o', ho', rfl, id⟩
    · intro hnone
      change (handleAppend _ _ _ _).1.online = none at hnone
      rw [honline] at hnone
      exact hnone

theorem Queued.step {s s' : Compaction} {l : Label} (h : Queued s) (hstep : step s l = some s') :
    Queued s' := by
  -- Steps that leave the writer's queue where it is.
  have hquiet : ∀ {t : Compaction}, t.calls = s.calls → t.queued = s.queued →
      t.sent = s.sent → t.writer = s.writer → Queued t := by
    intro t hcalls hqueued hsent hwriter
    refine h.congr hcalls hqueued (by rw [hsent]) ?_ ?_
    · rw [hwriter]
      exact fun o ho ↦ ⟨o, ho, rfl, id⟩
    · rw [hwriter]
      exact id
  have honline : ∀ {t : Compaction} {o o' : Online}, t.calls = s.calls → t.queued = s.queued →
      repliedTo t.sent = repliedTo s.sent → s.writer.online = some o → t.writer.online = some o' →
      o'.pending = o.pending → (o'.frozen = false → o.frozen = false) → Queued t := by
    intro t o o' hcalls hqueued hsent ho ho' hpending hfrozen
    refine h.congr hcalls hqueued hsent ?_ (by simp [ho'])
    intro u hu
    rw [ho'] at hu
    cases hu
    exact ⟨o, ho, hpending, hfrozen⟩
  have hpoison : ∀ reason, Queued (s.after (poison s.writer reason)) := by
    intro reason
    refine h.congr rfl rfl (by simp [Compaction.after]) ?_ ?_
    · intro o ho
      exact ⟨o, by simpa [Compaction.after] using ho, rfl, id⟩
    · intro hnone
      simpa [Compaction.after] using hnone
  cases step_effect hstep with
  | append request io => exact h.append request io
  | cancel =>
    refine h.congr rfl rfl rfl ?_ ?_
    · intro o' ho'
      obtain ⟨o, ho, rfl⟩ := Option.map_eq_some_iff.mp ho'
      exact ⟨o, ho, rfl, id⟩
    · exact Option.map_eq_none_iff.mp
  | moves | stops | applies | lands => exact hquiet rfl rfl rfl rfl
  | polls isSmall hphase ho =>
    exact honline rfl rfl (by simp [Compaction.after, poll, repliedTo]) ho rfl rfl id
  | catchesUp hphase ho =>
    exact honline rfl rfl (by simp [Compaction.after, poll, repliedTo]) ho rfl rfl id
  | freezes hphase ho =>
    exact honline rfl rfl (by simp [Compaction.after, repliedTo]) ho rfl rfl id
  | frozen hphase ho =>
    refine honline rfl rfl (by simp [Compaction.after, finishFreeze, repliedTo]) ho rfl rfl ?_
    intro hfrozen
    cases hfrozen
  | freezeFails reason hphase ho =>
    refine honline rfl rfl ?_ ho ?_ rfl id
    · simp only [Compaction.after, finishFreeze, repliedTo_append]
      change _ ++ repliedTo (poison s.writer reason).2 = _
      simp
    · simpa [Compaction.after, finishFreeze] using ho
  | completes hphase ho => exact h.ended ho (complete_ends _ _ _ _)
  | fails hphase ho => exact h.ended ho (fail_ends _ (h.unfrozen _ ho) _ _ _)
  | dies hphase ho => exact h.ended ho (builderDown_ends _ (h.unfrozen _ ho) _)
  | ignores => exact hquiet rfl rfl (List.append_nil _) rfl
  | exits => exact hpoison _
  | unsolicited => exact hpoison _

theorem Started.queued {s : Compaction} (h : Started s) : Queued s := by
  obtain ⟨-, -, ⟨token, honline⟩, -, -, -, -, -, hqueued, hsent⟩ := h
  constructor <;> simp [hqueued, hsent, honline, Online.new]


/-! ## Runs that answer everyone -/

/-- The appends still waiting in the queue. -/
def Compaction.pending (s : Compaction) : List (Caller × Payload) :=
  (s.writer.online.map Online.pending).getD []

/-- The native requests after a failure get the writer back to a segment. -/
def Ending.returns (e : Ending) (reason : Failure) (landed : Bool) : Bool :=
  if reason = .unknownPublicationOutcome then
    e.recovered && e.enabled && if landed then e.reopen else e.abort && e.reopen
  else e.abort && e.reopen

/-- The side condition: while something is queued, the compaction ends by getting the writer back to
a segment, the builder does not die, and the port stays open. -/
def Answerable (s : Compaction) : Label → Prop
  | .builderResult e => s.pending ≠ [] →
    match s.phase, s.writer.online with
    | .done (.ok _), _ => e.reopen = true
    | .done (.error reason), some o => e.returns (o.abortReason.getD reason) s.landed.isSome = true
    | _, _ => True
  | .builderDown _ | .unsolicited => s.pending = []
  | .portExit closedByOwner => s.pending = [] ∨ closedByOwner = true
  | _ => True

/-- Every queued append is answered exactly once, at the latest when the compaction has ended or the
writer is poisoned. -/
structure Answered (s : Compaction) : Prop where
  once : (repliedTo s.sent).Nodup
  all : s.writer.online = none ∨ s.writer.poisoned ≠ none → ∀ q ∈ s.queued, q.1 ∈ repliedTo s.sent

/-- A poisoned writer has lost its admission reference. -/
def Halted (s : State) : Prop := s.poisoned ≠ none → s.admitted = false

theorem Halted.poison {s : State} (h : Halted s) (reason : Failure) :
    Halted (poison s reason).1 := by
  unfold Writer.poison
  split
  · exact h
  · exact fun _ ↦ rfl

theorem Halted.mutate {s : State} (h : Halted s) (request : Payload) (io : Except Failure Unit) :
    Halted (mutate s request io).2.1 := by
  unfold Writer.mutate
  split
  · exact h
  · split
    · exact h
    · split
      · exact h
      · exact h.poison _

theorem Halted.handleAppend {s : State} (h : Halted s) (caller : Caller) (request : Payload)
    (io : Except Failure Unit) : Halted (handleAppend s caller request io).1 := by
  have hdirect : Halted (handleAppend.direct s caller request io).1 := by
    unfold handleAppend.direct
    split
    · exact h
    · split
      · exact h.mutate request io
      · exact h
  unfold Writer.handleAppend
  split
  · split
    · split
      · exact h
      · exact h
    · exact hdirect
  · exact hdirect

theorem Halted.resumePending (stats : Option Engine.OnlineCheckpoint.Stats)
    (io : Caller → Except Failure Unit) (pending : List (Caller × Payload)) :
    ∀ {s : State} (delivered : Bool), Halted s →
      Halted (resumePending s stats io delivered pending).1 := by
  induction pending with
  | nil => exact fun _ hs ↦ hs
  | cons call pending ih => exact fun _ hs ↦ ih _ (hs.mutate _ _)

theorem Halted.giveUp {s : State} (h : Halted s) (o : Online) (reason : Failure) :
    Halted (giveUp s o reason).1 := h.poison reason

theorem Halted.complete {s : State} (h : Halted s) (o : Online) (p : Published) (e : Ending) :
    Halted (complete s o p e).1 := by
  unfold Writer.complete
  split
  · exact Halted.resumePending _ _ _ _ h
  · exact h.giveUp o _

theorem Halted.resumeSource {s : State} (h : Halted s) (o : Online) (reason : Failure)
    (e : Ending) : Halted (resumeSource s o reason e).1 := by
  unfold Writer.resumeSource
  split
  · exact Halted.resumePending _ _ _ _ h
  · exact h.giveUp o _

theorem Halted.abortPreparation {s : State} (h : Halted s) (o : Online) (reason : Failure)
    (e : Ending) : Halted (abortPreparation s o reason e).1 := by
  unfold Writer.abortPreparation
  split
  · exact h
  · exact h.giveUp o _

theorem Halted.fail {s : State} (h : Halted s) (o : Online) (reason : Failure)
    (landed : Option Published) (e : Ending) : Halted (fail s o reason landed e).1 := by
  simp only [Writer.fail]
  split
  · unfold reconcileUnknownPublication
    split
    · split
      · exact h.complete o _ e
      · exact h.resumeSource o _ e
    · exact h.giveUp o _
  · split
    · exact h.abortPreparation o _ e
    · exact h.resumeSource o _ e

theorem Halted.builderDown {s : State} (h : Halted s) (o : Online) (e : Ending) :
    Halted (builderDown s o e).1 := by
  simp only [Writer.builderDown]
  split
  · exact h.abortPreparation o _ e
  · exact h.giveUp o _

/-- A failure whose native requests get the writer back ends the compaction. -/
theorem fail_returns {s : State} {o : Online} {reason : Failure} {landed : Option Published}
    {e : Ending} (hfrozen : o.frozen = true)
    (he : e.returns (o.abortReason.getD reason) landed.isSome = true) :
    (fail s o reason landed e).1.online = none := by
  simp only [Ending.returns] at he
  simp only [fail]
  by_cases hunknown : o.abortReason.getD reason = .unknownPublicationOutcome
  · rw [if_pos hunknown, Bool.and_eq_true] at he
    rw [if_pos hunknown]
    unfold reconcileUnknownPublication
    rw [if_pos he.1]
    cases landed with
    | some p => exact (complete_resumed s o p he.2).1
    | none => exact (resumeSource_resumed s o _ he.2).1
  · rw [if_neg hunknown] at he
    rw [if_neg hunknown, if_neg (by simp [hfrozen])]
    exact (resumeSource_resumed s o _ he).1

/-- The invariant of the permitted runs: a poisoned writer has an empty queue. -/
structure Served (s : Compaction) : Prop extends Queued s where
  halted : Halted s.writer
  empty : s.writer.poisoned ≠ none → ∀ o ∈ s.writer.online, o.pending = []

theorem Served.settled {s : Compaction} (h : Served s) : Answered s := by
  refine ⟨h.once, ?_⟩
  intro hend q hq
  cases honline : s.writer.online with
  | none => exact h.answered honline q hq
  | some o =>
    have hpoisoned : s.writer.poisoned ≠ none := by simpa [honline] using hend
    rw [h.pending o honline, h.empty hpoisoned o honline] at hq
    cases hq

theorem pending_eq {s : Compaction} {o : Online} (ho : s.writer.online = some o) :
    s.pending = o.pending := by
  rw [Compaction.pending, ho]
  rfl

theorem Served.append {s : Compaction} (h : Served s) (request : Payload)
    (io : Except Failure Unit) : Served (s.append request io) := by
  refine ⟨h.toQueued.append request io, h.halted.handleAppend s.calls request io, ?_⟩
  intro hpoisoned o' ho'
  change (handleAppend s.writer s.calls request io).1.poisoned ≠ none at hpoisoned
  change (handleAppend s.writer s.calls request io).1.online = some o' at ho'
  have hcases := handleAppend_appends s.writer s.calls request io
  cases hcases with
  | queued honline hfrozen hadmitted hr =>
    -- Only an admitted writer queues, so it is not poisoned.
    rw [hr] at hpoisoned
    have hlost := h.halted hpoisoned
    rw [hadmitted] at hlost
    cases hlost
  | written hunfrozen honline _ _ =>
    rw [honline, Option.map_eq_some_iff] at ho'
    obtain ⟨o, ho, rfl⟩ := ho'
    rw [(journal_pending o request).1]
    exact h.unfrozen o ho (by simpa [ho] using hunfrozen)
  | refused hunfrozen honline _ _ =>
    rw [honline] at ho'
    cases hfrozen : o'.frozen with
    | false => exact h.unfrozen o' ho' hfrozen
    | true =>
      -- Frozen and not admitted: the call was turned away and nothing else changed.
      have hadmitted : s.writer.admitted = false := by simpa [ho', hfrozen] using hunfrozen
      refine h.empty ?_ o' ho'
      simpa [handleAppend, ho', hfrozen, hadmitted] using hpoisoned

theorem Served.step {s s' : Compaction} {l : Label} (h : Served s) (hok : Answerable s l)
    (hstep : step s l = some s') : Served s' := by
  have hqueued := h.toQueued.step hstep
  have hsame : ∀ {t : Compaction} {o o' : Online}, Queued t → t.writer.admitted = s.writer.admitted →
      t.writer.poisoned = s.writer.poisoned → s.writer.online = some o →
      t.writer.online = some o' → o'.pending = o.pending → Served t := by
    intro t o o' hq hadmitted hpoisoned ho ho' hpending
    refine ⟨hq, ?_, ?_⟩
    · intro hp
      rw [hadmitted]
      exact h.halted (hpoisoned ▸ hp)
    · intro hp u hu
      rw [ho'] at hu
      cases hu
      rw [hpending]
      exact h.empty (hpoisoned ▸ hp) o ho
  have hpoison : ∀ {t : Compaction} (reason : Failure), Queued t →
      t.writer = (poison s.writer reason).1 → s.pending = [] → Served t := by
    intro t reason hq hwriter hpending
    refine ⟨hq, hwriter ▸ h.halted.poison reason, ?_⟩
    intro _ o ho
    rw [hwriter, poison_online] at ho
    rw [← pending_eq ho]
    exact hpending
  have hended : ∀ {o : Online} {r : State × List Sent}, s.writer.online = some o → Halted r.1 →
      Queued (s.ended o r) → (o.pending ≠ [] → r.1.online = none) → Ends s.writer o r →
      Served (s.ended o r) := by
    intro o r ho hhalted hq hreturn hends
    refine ⟨hq, hhalted, ?_⟩
    intro _ o' ho'
    change r.1.online = some o' at ho'
    cases hends with
    | resumed hnone => rw [hnone] at ho'; cases ho'
    | abandoned hkept =>
      rw [hkept, ho] at ho'
      cases ho'
      by_contra hpending
      rw [hkept, ho] at hreturn
      exact absurd (hreturn hpending) (by simp)
  cases step_effect hstep with
  | append request io => exact h.append request io
  | cancel =>
    refine ⟨hqueued, h.halted, ?_⟩
    intro hp o' ho'
    obtain ⟨o, ho, rfl⟩ := Option.map_eq_some_iff.mp ho'
    exact h.empty hp o ho
  | moves | stops | applies | lands => exact ⟨hqueued, h.halted, h.empty⟩
  | polls isSmall hphase ho => exact hsame hqueued rfl rfl ho rfl rfl
  | catchesUp hphase ho => exact hsame hqueued rfl rfl ho rfl rfl
  | freezes hphase ho => exact hsame hqueued rfl rfl ho rfl rfl
  | frozen hphase ho => exact hsame hqueued rfl rfl ho rfl rfl
  | freezeFails reason hphase ho hunfrozen =>
    exact hpoison reason hqueued rfl (by rw [pending_eq ho, h.unfrozen _ ho hunfrozen])
  | completes hphase ho =>
    refine hended ho (h.halted.complete _ _ _) hqueued ?_ (complete_ends _ _ _ _)
    intro hpending
    have he := hok (by rw [pending_eq ho]; exact hpending)
    simp only [hphase] at he
    exact (complete_resumed _ _ _ he).1
  | fails hphase ho =>
    refine hended ho (h.halted.fail _ _ _ _) hqueued ?_ (fail_ends _ (h.unfrozen _ ho) _ _ _)
    intro hpending
    have he := hok (by rw [pending_eq ho]; exact hpending)
    simp only [hphase, ho] at he
    refine fail_returns ?_ he
    by_contra hunfrozen
    exact hpending (h.unfrozen _ ho (by simpa using hunfrozen))
  | dies hphase ho =>
    refine hended ho (h.halted.builderDown _ _) hqueued ?_ (builderDown_ends _ (h.unfrozen _ ho) _)
    intro hpending
    exact absurd ((pending_eq ho).symm.trans hok) hpending
  | ignores => exact ⟨hqueued, h.halted, h.empty⟩
  | exits hopen =>
    refine hpoison _ hqueued rfl ?_
    rcases hok with hpending | hclosed
    · exact hpending
    · have hnone : s.writer.online = none := by simpa [hclosed] using hopen
      rw [Compaction.pending, hnone]
      rfl
  | unsolicited => exact hpoison _ hqueued rfl hok

theorem Started.served {s : Compaction} (h : Started s) : Served s := by
  have hqueued := h.queued
  obtain ⟨hpoisoned, -⟩ := h
  exact ⟨hqueued, fun hp ↦ absurd hpoisoned hp, fun hp ↦ absurd hpoisoned hp⟩

/-- **Nobody is left waiting** in a run that keeps the side condition: every queued append is
answered exactly once. -/
theorem pending_answered {s : Compaction} (hs : machine.ReachableUnder Answerable s) : Answered s :=
  (Machine.ReachableUnder.invariant (I := Served) (fun _ (h : Started _) ↦ h.served)
    (fun _ _ _ h hok hl ↦ h.step hok hl) hs).settled

/-- A run with a queued append that succeeds, step by step within the side condition. -/
theorem pending_answered_sample :
    ∃ s, machine.ReachableUnder Answerable s ∧ s.queued.length = 1 ∧ s.writer.online = none ∧
      Answered s := by
  have hrun : (machine.run Sample.started Sample.labels).any (fun s ↦ s.queued.length == 1 &&
      s.writer.online == none) = true := by decide +kernel
  obtain ⟨s, hs, h⟩ := (Option.any_eq_true _ _).mp hrun
  simp only [Bool.and_eq_true, beq_iff_eq] at h
  have hok : ∀ t, ∀ l ∈ Sample.labels, Answerable t l := by
    intro t l hl
    simp only [Sample.labels, List.mem_cons, List.not_mem_nil, or_false] at hl
    rcases hl with rfl | rfl | rfl | rfl | rfl | rfl | rfl | rfl | rfl | rfl | rfl
    all_goals try exact trivial
    intro _
    split
    · rfl
    · simp only [Ending.returns]
      split
      · split <;> rfl
      · rfl
    · exact trivial
  have hreachable : machine.ReachableUnder Answerable s :=
    .run hok (.initial ⟨rfl, rfl, ⟨1, rfl⟩, rfl, rfl, rfl, rfl, rfl, rfl, rfl⟩) hs
  exact ⟨s, hreachable, h.1, h.2, pending_answered hreachable⟩

namespace Sample

/-- An append is queued while the builder publishes, and the builder dies. -/
def builderDies : List Label :=
  [.built, .poll, .batchDone, .freeze, .freezeAck (.ok ()), .append (insertion 1) (.ok ()),
    .builderDown ending]

end Sample

/-- The queue is abandoned: the writer is poisoned and the caller never gets an answer. -/
theorem pending_abandoned : ¬ ∀ s, machine.Reachable s → Answered s := by
  intro hall
  have hrun : (machine.run Sample.started Sample.builderDies).any (fun s ↦
      s.writer.poisoned.isSome && s.queued.any fun q ↦ !(repliedTo s.sent).contains q.1) = true := by
    decide +kernel
  obtain ⟨s, hs, h⟩ := (Option.any_eq_true _ _).mp hrun
  simp only [Bool.and_eq_true, List.any_eq_true, Bool.not_eq_true', List.contains_eq_mem,
    decide_eq_false_iff_not] at h
  obtain ⟨hpoisoned, q, hq, hunanswered⟩ := h
  have hreachable : machine.Reachable s :=
    Machine.reachable_of_run ⟨rfl, rfl, ⟨1, rfl⟩, rfl, rfl, rfl, rfl, rfl, rfl, rfl⟩ hs
  refine hunanswered ((hall s hreachable).all (.inr ?_) q hq)
  intro hnone
  rw [hnone] at hpoisoned
  cases hpoisoned

end Tay.Writer
