import Tay.Writer.Queue

/-!
# Handing the journal over

Nothing is lost or duplicated at the hand-over: if CURRENT ever names the new epoch, then what the
builder has applied, followed by what was queued and then written, is exactly what the writer has
appended since the compaction began.

While the builder is at work every appended record is applied, in flight, or in the journal. The one
exception is a journal that was dropped because it had grown too large, and then the shared flag
keeps the builder from ever publishing.
-/

open Foundation

namespace Tay.Writer

/-! ## The journal -/

/-- How far the freeze has come, by phase. -/
def Placed (o : Online) : Phase → Prop
  | .building | .polling _ | .applying .. | .requesting _ | .waiting => o.frozen = false
  | .finishing _ | .publishing => o.frozen = true ∧ o.delta = []
  | .done _ | .gone => True

/-- Where the appended records are. -/
structure Journaled (s : Compaction) : Prop where
  /-- A dropped journal has stopped the builder. -/
  overloaded : ∀ o ∈ s.writer.online, o.abortReason ≠ none → o.cancelFlag = true
  /-- As long as the builder is at work, every appended record is applied, in flight to it, or in
  the journal, in this order. -/
  live : s.phase.live = true → ∃ o, s.writer.online = some o ∧ Placed o s.phase ∧
    (o.abortReason = none → s.appended = s.applied ++ s.phase.inflight ++ o.delta.reverse)
  unlanded : s.phase.live = true → s.landed = none
  /-- After the publication nothing is appended until the compaction ends. -/
  landed : s.landed.isSome = true → ∀ o ∈ s.writer.online, o.frozen = true ∧
    s.appended = s.applied
  handedOver : s.landed.isSome = true → s.writer.online = none →
    s.applied ++ (s.queued.filter (acknowledges s.sent ·.1)).map Prod.snd = s.appended

theorem Started.journaled {s : Compaction} (h : Started s) : Journaled s := by
  obtain ⟨-, -, ⟨token, honline⟩, hphase, happlied, hlanded, -, happended, -, -⟩ := h
  constructor
  · simp [honline, Online.new]
  · intro _
    refine ⟨_, honline, ?_, ?_⟩
    · rw [hphase]
      rfl
    · simp [happended, happlied, hphase, Phase.inflight, Online.new]
  · exact fun _ ↦ hlanded
  · simp [hlanded]
  · simp [hlanded]

/-- Journaling keeps the record, or stops the builder. -/
theorem journal_cases {o : Online} (record : Payload) (hfrozen : o.frozen = false) :
    ((o.journal record).abortReason = none →
      o.abortReason = none ∧ (o.journal record).delta = record :: o.delta) ∧
    ((o.abortReason ≠ none → o.cancelFlag = true) → (o.journal record).abortReason ≠ none →
      (o.journal record).cancelFlag = true) := by
  unfold Online.journal
  split
  case isFalse hkept =>
    have habort : o.abortReason ≠ none := by
      intro hnone
      exact hkept ⟨hfrozen, hnone⟩
    exact ⟨fun hnone ↦ absurd hnone habort, fun hflag h ↦ hflag h⟩
  case isTrue hopen =>
    simp only
    split
    · exact ⟨fun hnone ↦ by simp at hnone, fun _ _ ↦ rfl⟩
    · exact ⟨fun _ ↦ ⟨hopen.2, rfl⟩, fun hflag h ↦ hflag h⟩

theorem Journaled.append {s : Compaction} (h : Journaled s) (hq : Queued s) (request : Payload)
    (io : Except Failure Unit) : Journaled (s.append request io) := by
  have hcases := handleAppend_appends s.writer s.calls request io
  -- A later call never changes who has been acknowledged.
  have hacks : ∀ q ∈ s.queued, repliedTo (handleAppend s.writer s.calls request io).2 = [s.calls] →
      acknowledges (s.append request io).sent q.1 = acknowledges s.sent q.1 := by
    intro q hqueued hsent
    have hnot : q.1 ∉ repliedTo (handleAppend s.writer s.calls request io).2 := by
      rw [hsent, List.mem_singleton]
      exact Nat.ne_of_lt (hq.queuedFresh q hqueued)
    simp [Compaction.append, Compaction.after, acknowledges_eq_false hnot]
  cases hcases with
  | queued honline hfrozen hadmitted hr =>
    rename_i o
    have hnext : (s.append request io).writer.online = some (o.queue s.calls request) := by
      simp [Compaction.append, Compaction.after, hr]
    have happended : (s.append request io).appended = s.appended := by
      simp [Compaction.append, hr, acknowledges]
    constructor
    · intro o' ho'
      rw [hnext] at ho'
      cases ho'
      exact h.overloaded o honline
    · intro hlive
      obtain ⟨o', ho', hplaced, hlist⟩ := h.live hlive
      rw [honline] at ho'
      cases ho'
      refine ⟨_, hnext, ?_, ?_⟩
      · change Placed _ s.phase
        revert hplaced
        cases s.phase <;> exact id
      · rw [happended]
        exact hlist
    · exact h.unlanded
    · intro hlanded o' ho'
      rw [hnext] at ho'
      cases ho'
      rw [happended]
      exact h.landed hlanded o honline
    · intro _ hnone
      rw [hnext] at hnone
      cases hnone
  | written hunfrozen honline hsent hack =>
    have hnext : (s.append request io).writer.online =
        s.writer.online.map (·.journal request) := honline
    constructor
    · intro o' ho'
      rw [hnext, Option.mem_def, Option.map_eq_some_iff] at ho'
      obtain ⟨o, ho, rfl⟩ := ho'
      have hfrozen : o.frozen = false := by simpa [ho] using hunfrozen
      exact (journal_cases request hfrozen).2 (h.overloaded o ho)
    · intro hlive
      obtain ⟨o, ho, hplaced, hlist⟩ := h.live hlive
      have hfrozen : o.frozen = false := by simpa [ho] using hunfrozen
      refine ⟨o.journal request, by rw [hnext, ho]; rfl, ?_, ?_⟩
      · change Placed _ s.phase
        have hsame := (journal_pending o request).2
        revert hplaced
        cases s.phase with
        | finishing | publishing => exact fun hplaced ↦ absurd hplaced.1 (by simp [hfrozen])
        | done | gone => exact id
        | building | polling | applying | requesting | waiting => exact fun _ ↦ hsame.trans hfrozen
      · intro habort
        obtain ⟨hopen, hdelta⟩ := (journal_cases request hfrozen).1 habort
        have happended : (s.append request io).appended = s.appended ++ [request] := by
          simp [Compaction.append, hack, ho]
        rw [happended, hlist hopen, hdelta]
        simp [Compaction.append, Compaction.after]
    · exact h.unlanded
    · intro hlanded o' ho'
      rw [hnext, Option.mem_def, Option.map_eq_some_iff] at ho'
      obtain ⟨o, ho, rfl⟩ := ho'
      have hfrozen : o.frozen = false := by simpa [ho] using hunfrozen
      have hlanded := (h.landed hlanded o ho).1
      rw [hfrozen] at hlanded
      cases hlanded
    · intro hlanded hnone
      rw [hnext, Option.map_eq_none_iff] at hnone
      have hqueued : (s.append request io).queued = s.queued := by
        simp [Compaction.append, Compaction.after, hnone]
      have happended : (s.append request io).appended = s.appended := by
        simp [Compaction.append, Compaction.after, hnone]
      rw [hqueued, happended, List.filter_congr fun q hmem ↦ hacks q hmem hsent]
      exact h.handedOver hlanded hnone
  | refused hfrozen honline hsent hack =>
    have hnext : (s.append request io).writer.online = s.writer.online := honline
    have hqueued : (s.append request io).queued = s.queued := by
      simp only [Compaction.append, Compaction.after, hfrozen]
      rfl
    have happended : (s.append request io).appended = s.appended := by
      simp [Compaction.append, Compaction.after, hack]
    constructor
    · rw [hnext]
      exact h.overloaded
    · rw [hnext, happended]
      exact h.live
    · exact h.unlanded
    · rw [hnext, happended]
      exact h.landed
    · intro hlanded hnone
      rw [hnext] at hnone
      rw [hqueued, happended, List.filter_congr fun q hmem ↦ hacks q hmem hsent]
      exact h.handedOver hlanded hnone

theorem Journaled.ended {s : Compaction} {o : Online} {r : State × List Sent} (h : Journaled s)
    (hq : Queued s) (honline : s.writer.online = some o) (hends : Ends s.writer o r) :
    Journaled (s.ended o r) := by
  cases hends with
  | abandoned hsame _ hsent =>
    have hacks : ∀ c, acknowledges r.2 c = false :=
      fun c ↦ acknowledges_eq_false (by simp [hsent])
    have happended : (s.ended o r).appended = s.appended := by
      simp [Compaction.ended, hacks]
    have hnext : (s.ended o r).writer.online = s.writer.online := hsame
    constructor
    · rw [hnext]
      exact h.overloaded
    · intro hlive
      cases hlive
    · intro hlive
      cases hlive
    · rw [hnext, happended]
      exact h.landed
    · intro _ hnone
      rw [hnext, honline] at hnone
      cases hnone
  | resumed hnone hsent =>
    have hnext : (s.ended o r).writer.online = none := hnone
    constructor
    · simp [hnext]
    · intro hlive
      cases hlive
    · intro hlive
      cases hlive
    · simp [hnext]
    · intro hlanded _
      -- Nothing in the queue had been answered before, so the replies of the end decide.
      have hacks : ∀ q ∈ s.queued,
          acknowledges (s.ended o r).sent q.1 = acknowledges r.2 q.1 := by
        intro q hmem
        have hnot := acknowledges_eq_false (hq.unanswered o honline q hmem)
        simp [Compaction.ended, Compaction.after, hnot]
      change s.applied ++ (s.queued.filter _).map Prod.snd = _
      rw [List.filter_congr hacks, hq.pending o honline]
      simp only [Compaction.ended]
      rw [(h.landed hlanded o honline).2]

/-- Steps of the builder alone. -/
theorem Journaled.builder {s s' : Compaction} (h : Journaled s) (hwriter : s'.writer = s.writer)
    (happended : s'.appended = s.appended) (hlanded : s'.landed = s.landed)
    (happlied : s'.landed.isSome = true → s'.applied = s.applied)
    (hqueued : s'.queued = s.queued) (hsent : s'.sent = s.sent)
    (hlive : s'.phase.live = true → s.phase.live = true ∧ ∀ o, s.writer.online = some o →
      Placed o s.phase → Placed o s'.phase ∧
        s'.applied ++ s'.phase.inflight = s.applied ++ s.phase.inflight) : Journaled s' := by
  constructor
  · rw [hwriter]
    exact h.overloaded
  · intro hl
    obtain ⟨o, ho, hplaced, hlist⟩ := h.live (hlive hl).1
    obtain ⟨hplaced', hsame⟩ := (hlive hl).2 o ho hplaced
    rw [hwriter, happended]
    refine ⟨o, ho, hplaced', ?_⟩
    rw [hsame]
    exact hlist
  · intro hl
    rw [hlanded]
    exact h.unlanded (hlive hl).1
  · intro hl
    rw [hwriter, happended, happlied hl]
    exact h.landed (hlanded ▸ hl)
  · intro hl
    rw [hwriter, happended, happlied hl, hqueued, hsent]
    exact h.handedOver (hlanded ▸ hl)

/-- Steps in which the writer answers the builder or the engine, with the compaction going on. -/
theorem Journaled.answer {s s' : Compaction} {o o' : Online} (h : Journaled s)
    (hphase : s.phase.live = true) (honline : s.writer.online = some o)
    (hnext : s'.writer.online = some o') (happended : s'.appended = s.appended)
    (happlied : s'.applied = s.applied) (hlanded : s'.landed = s.landed)
    (habort : o'.abortReason = o.abortReason) (hflag : o'.cancelFlag = o.cancelFlag)
    (hplaced : s'.phase.live = true → Placed o' s'.phase)
    (hdelta : s'.phase.live = true → s'.phase.inflight ++ o'.delta.reverse =
      s.phase.inflight ++ o.delta.reverse) : Journaled s' := by
  have hnone : s'.landed = none := by
    rw [hlanded]
    exact h.unlanded hphase
  constructor
  · intro u hu
    rw [hnext] at hu
    cases hu
    rw [habort, hflag]
    exact h.overloaded o honline
  · intro hl
    obtain ⟨u, hu, -, hlist⟩ := h.live hphase
    rw [honline] at hu
    cases hu
    refine ⟨o', hnext, hplaced hl, ?_⟩
    intro hopen
    rw [happended, happlied, List.append_assoc, hdelta hl, ← List.append_assoc]
    exact hlist (habort ▸ hopen)
  · exact fun _ ↦ hnone
  · simp [hnone]
  · simp [hnone]

theorem Journaled.poison {s : Compaction} (h : Journaled s) (reason : Failure) :
    Journaled (s.after (poison s.writer reason)) := by
  have hnext : (s.after (Writer.poison s.writer reason)).writer.online = s.writer.online :=
    poison_online _ _
  constructor
  · rw [hnext]
    exact h.overloaded
  · rw [hnext]
    exact h.live
  · exact h.unlanded
  · rw [hnext]
    exact h.landed
  · intro hlanded hnone
    rw [hnext] at hnone
    have hacks : ∀ q ∈ s.queued, acknowledges (s.after (Writer.poison s.writer reason)).sent q.1 =
        acknowledges s.sent q.1 := by
      intro q _
      simp [Compaction.after, acknowledges_poison]
    change s.applied ++ (s.queued.filter _).map Prod.snd = s.appended
    rw [List.filter_congr hacks]
    exact h.handedOver hlanded hnone

theorem Journaled.step {s s' : Compaction} {l : Label} (h : Journaled s) (hq : Queued s)
    (hstep : step s l = some s') : Journaled s' := by
  have hunlanded : ∀ {phase}, s.phase = phase → phase.live = true →
      ¬ s.landed.isSome = true := by
    intro phase hphase hlive hlanded
    rw [h.unlanded (hphase ▸ hlive)] at hlanded
    cases hlanded
  cases step_effect hstep with
  | append request io => exact h.append hq request io
  | cancel =>
    constructor
    · intro o' ho'
      obtain ⟨o, ho, rfl⟩ := Option.map_eq_some_iff.mp ho'
      exact fun _ ↦ rfl
    · intro hl
      obtain ⟨o, ho, hplaced, hlist⟩ := h.live hl
      refine ⟨{ o with cancelFlag := true }, by simp [ho], ?_, hlist⟩
      revert hplaced
      cases s.phase <;> exact id
    · exact h.unlanded
    · intro hl o' ho'
      obtain ⟨o, ho, rfl⟩ := Option.map_eq_some_iff.mp ho'
      exact h.landed hl o ho
    · intro hl hnone
      exact h.handedOver hl (Option.map_eq_none_iff.mp hnone)
  | moves hmoves =>
    refine h.builder rfl rfl rfl (fun _ ↦ rfl) rfl rfl ?_
    intro _
    revert hmoves
    cases s.phase with
    | building =>
      rintro ⟨⟩
      exact ⟨rfl, fun o _ hplaced ↦ ⟨hplaced, rfl⟩⟩
    | applying =>
      rintro ⟨⟩
      · exact ⟨rfl, fun o _ hplaced ↦ ⟨hplaced, rfl⟩⟩
      · exact ⟨rfl, fun o _ hplaced ↦ ⟨hplaced, rfl⟩⟩
    | finishing =>
      rintro ⟨⟩
      exact ⟨rfl, fun o _ hplaced ↦ ⟨hplaced, rfl⟩⟩
    | polling | requesting | waiting | publishing | done | gone => rintro ⟨⟩
  | stops reason hlive =>
    refine h.builder rfl rfl rfl (fun _ ↦ rfl) rfl rfl ?_
    intro hl
    cases hl
  | applies htakes hrefused =>
    rename_i record phase
    have hpending : s.phase.live = true := by
      revert htakes
      cases s.phase <;> rintro ⟨⟩ <;> rfl
    refine h.builder rfl rfl rfl (fun hl ↦ absurd hl (hunlanded rfl hpending)) rfl rfl ?_
    intro _
    refine ⟨hpending, fun o _ hplaced ↦ ?_⟩
    revert htakes hplaced
    cases s.phase with
    | applying =>
      rintro ⟨⟩ hplaced
      exact ⟨hplaced, by simp [Phase.inflight]⟩
    | finishing =>
      rintro ⟨⟩ hplaced
      exact ⟨hplaced, by simp [Phase.inflight]⟩
    | building | polling | requesting | waiting | publishing | done | gone => rintro ⟨⟩
  | polls isSmall hphase ho =>
    have hlive : s.phase.live = true := by rw [hphase]; rfl
    obtain ⟨u, hu, hplaced, -⟩ := h.live hlive
    rw [ho] at hu
    cases hu
    rw [hphase] at hplaced
    refine h.answer hlive ho rfl rfl rfl rfl rfl rfl (fun _ ↦ hplaced) (fun _ ↦ ?_)
    simp [hphase, Phase.inflight, Online.drain, Online.clearDelta]
  | catchesUp hphase ho hnext =>
    have hlive : s.phase.live = true := by rw [hphase]; rfl
    obtain ⟨u, hu, hplaced, -⟩ := h.live hlive
    rw [ho] at hu
    cases hu
    rw [hphase] at hplaced
    rcases hnext with rfl | rfl
    · refine h.answer hlive ho rfl rfl rfl rfl rfl rfl (fun _ ↦ hplaced) (fun _ ↦ ?_)
      simp [hphase, Phase.inflight, Online.drain, Online.clearDelta]
    · refine h.answer hlive ho rfl rfl rfl rfl rfl rfl ?_ ?_ <;> (intro hl; cases hl)
  | freezes hphase ho =>
    have hlive : s.phase.live = true := by rw [hphase]; rfl
    obtain ⟨u, hu, hplaced, -⟩ := h.live hlive
    rw [ho] at hu
    cases hu
    rw [hphase] at hplaced
    refine h.answer hlive ho rfl rfl rfl rfl rfl rfl (fun _ ↦ hplaced) (fun _ ↦ ?_)
    simp [hphase, Phase.inflight]
  | frozen hphase ho =>
    have hlive : s.phase.live = true := by rw [hphase]; rfl
    refine h.answer hlive ho rfl rfl rfl rfl rfl rfl (fun _ ↦ ⟨rfl, rfl⟩) (fun _ ↦ ?_)
    simp [hphase, Phase.inflight, Online.finishFreeze, Online.clearDelta]
  | freezeFails reason hphase ho =>
    have hlive : s.phase.live = true := by rw [hphase]; rfl
    refine h.answer hlive ho ?_ rfl rfl rfl rfl rfl ?_ ?_
    · simpa [Compaction.after, finishFreeze] using ho
    · intro hl
      cases hl
    · intro hl
      cases hl
  | lands published result hphase hrefused =>
    have hlive : s.phase.live = true := by rw [hphase]; rfl
    obtain ⟨o, ho, hplaced, hlist⟩ := h.live hlive
    rw [hphase] at hplaced hlist
    -- The request was not refused, so the journal was never dropped.
    have hopen : o.abortReason = none := by
      by_contra habort
      have hflag := h.overloaded o ho habort
      simp [Compaction.refused, ho, hflag] at hrefused
    have happended : s.appended = s.applied := by
      rw [hlist hopen, hplaced.2]
      simp [Phase.inflight]
    constructor
    · exact h.overloaded
    · intro hl
      cases hl
    · intro hl
      cases hl
    · intro _ u hu
      rw [Option.mem_def, ho] at hu
      cases hu
      exact ⟨hplaced.1, happended⟩
    · intro _ hnone
      rw [ho] at hnone
      cases hnone
  | completes hphase ho => exact h.ended hq ho (complete_ends _ _ _ _)
  | fails hphase ho => exact h.ended hq ho (fail_ends _ (hq.unfrozen _ ho) _ _ _)
  | dies hphase ho => exact h.ended hq ho (builderDown_ends _ (hq.unfrozen _ ho) _)
  | ignores =>
    exact h.builder rfl rfl rfl (fun _ ↦ rfl) rfl (List.append_nil _)
      fun hl ↦ ⟨hl, fun o _ hplaced ↦ ⟨hplaced, rfl⟩⟩
  | exits => exact h.poison _
  | unsolicited => exact h.poison _

/-! ## Nothing is lost or duplicated -/

/-- **The hand-over is exact.** In every run of an online compaction, once CURRENT names the new
epoch, the records the builder applied followed by the queued ones that were then written are the
records the writer appended, in order; and the queue has kept the order of the calls. -/
theorem handover_exact {s : Compaction} (hs : machine.Reachable s)
    (hlanded : s.landed.isSome = true) :
    s.applied ++ (s.queued.filter (acknowledges s.sent ·.1)).map Prod.snd = s.appended ∧
      (s.queued.map Prod.fst).Nodup := by
  have hinv : Queued s ∧ Journaled s :=
    Machine.Reachable.invariant (I := fun s ↦ Queued s ∧ Journaled s)
      (fun s (h : Started s) ↦ ⟨h.queued, h.journaled⟩)
      (fun s l s' h hl ↦ ⟨h.1.step hl, h.2.step h.1 hl⟩) hs
  obtain ⟨hq, hj⟩ := hinv
  refine ⟨?_, hq.distinct⟩
  cases honline : s.writer.online with
  | none => exact hj.handedOver hlanded honline
  | some o =>
    have hnone : s.queued.filter (acknowledges s.sent ·.1) = [] := by
      rw [List.filter_eq_nil_iff]
      intro q hmem
      simp [acknowledges_eq_false (hq.unanswered o honline q hmem)]
    rw [hnone, (hj.landed hlanded o honline).2]
    simp

theorem handover_exact_sample :
    ∃ s, machine.Reachable s ∧ s.landed.isSome = true ∧ s.applied = [Sample.insertion 1] ∧
      s.appended = [Sample.insertion 1, Sample.insertion 2] ∧
      s.applied ++ (s.queued.filter (acknowledges s.sent ·.1)).map Prod.snd = s.appended := by
  have hrun : (machine.run Sample.started Sample.labels).any (fun s ↦ s.landed.isSome &&
      s.applied == [Sample.insertion 1] &&
      s.appended == [Sample.insertion 1, Sample.insertion 2]) = true := by decide +kernel
  obtain ⟨s, hs, h⟩ := (Option.any_eq_true _ _).mp hrun
  simp only [Bool.and_eq_true, beq_iff_eq] at h
  obtain ⟨⟨hlanded, happlied⟩, happended⟩ := h
  have hreachable : machine.Reachable s :=
    Machine.reachable_of_run ⟨rfl, rfl, ⟨1, rfl⟩, rfl, rfl, rfl, rfl, rfl, rfl, rfl⟩ hs
  exact ⟨s, hreachable, hlanded, happlied, happended, (handover_exact hreachable hlanded).1⟩

end Tay.Writer
