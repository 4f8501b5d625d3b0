import Tay.Engine.Coordinates
import Tay.Engine.GroupCommit
import Tay.Storage.Logged

/-!
# Restart after a crash

The engine of `Tay.Engine.Persistence` behind the groups of `Tay.Engine.GroupCommit`, on the files of
`Tay.Storage.Segment`. What a handler makes of a command is left open: an answer, or one operation that
is committed. The engine is lost anywhere, the files keep what was synced and perhaps more, and the
reader of `Tay.Storage.V2.Reader` decodes the records that are left and replays them.

What comes out is the persistent state of a moment of the run, and of one behind which nothing was
acknowledged.
-/

open Foundation

namespace Tay.Restart

open Engine SegmentOps GroupCommit ProjectionState

variable {ι κ μ ρ : Type} (vm : Tay.Runtime)

/-! ## The engine and its log -/

/-- The terms an operation brings are listed in order. -/
def ordered : Op → Bool
  | .insert e _ | .change e => e.toValue.ordered
  | .auxiliary e => e.toValue.ordered

structure OpTerm where
  op : Op
  ordered : ordered op = true

/-- What a handler makes of a command. The memory counter admits a growth or not. -/
inductive Plan (ρ : Type)
  | reply (result : ρ)
  | commit (term : OpTerm) (admits : ℤ → Bool) (answer : Except Reason Unit → ρ)

/-- The handlers of an engine. -/
structure Handlers (ι κ μ ρ : Type) where
  batchable : Engine.State → ι → Bool
  command : ι → κ → Engine.State → Plan ρ
  message : μ → Engine.State → Plan Unit
  maxEvents : ℕ

/-- The writer's answer, as the engine reads it. -/
def replied : Except SegmentOps.Refusal Receipt → Engine.Reply
  | .ok receipt => .ok receipt
  | .error refusal => .error (refusalReason refusal)

/-- What is left of an operation; one that raises takes the engine with it. -/
def concluded (s : Engine.State) (answer : Except Reason Unit → ρ) :
    Except Reason (Engine.State × List Record) → Option (ρ × Engine.State)
  | .ok out => some (answer (.ok ()), out.1)
  | .error .raised => none
  | .error reason => some (answer (.error reason), s)

/-- The operation goes on with the writer's answer. With a receipt nothing may fail any more. -/
def resumed (s : Engine.State) (op : Op) (admits : ℤ → Bool) (answer : Except Reason Unit → ρ)
    (reply : Except SegmentOps.Refusal Receipt) : Option (ρ × Engine.State) :=
  let out := perform vm s op ⟨admits, fun _ ↦ replied reply⟩
  match reply with
  | .ok _ => out.toOption.map fun out ↦ (answer (.ok ()), out.1)
  | .error _ => concluded s answer out

/-- A plan, as what it asks of the writer. -/
def Plan.exchange (s : Engine.State) : Plan ρ → Exchange ρ Engine.State
  | .reply result => .reply result s
  | .commit term admits answer =>
    match request vm s term.op admits with
    | some p => .append p.kind.1 p.kind.2 p.wire (resumed vm s term.op admits answer)
    | none =>
      -- the writer is not asked, so what it would answer is of no account
      match concluded s answer (perform vm s term.op ⟨admits, fun _ ↦ .error .raised⟩) with
      | some r => .reply r.1 r.2
      | none => .exit

def Handlers.commands (h : Handlers ι κ μ ρ) : Commands ι κ μ ρ Engine.State where
  batchable := h.batchable
  command intent reads s := (h.command intent reads s).exchange vm s
  message m s := (h.message m s).exchange vm s
  maxEvents := h.maxEvents

/-! ## What is asked of the writer -/

section Request

variable {vm} {s : Engine.State} {op : Op} {admits : ℤ → Bool} {p : Payload}

theorem commitRequest_eq_some {previous : Option Job} {e : V2.JobEvent} {given : Option Durability}
    (h : commitRequest vm s previous e given admits = some p) :
    ∃ pr, prepareV2 vm s previous e = .ok pr ∧ p = .mutation pr.mutation := by
  unfold commitRequest at h
  split at h
  · cases h
  · split at h
    · rename_i pr hpr
      split_ifs at h
      exact ⟨pr, hpr, (Option.some_inj.mp h).symm⟩
    · cases h

theorem request_eq_some (h : request vm s op admits = some p) :
    (∃ e pr, op.event? = some e ∧ prepareV2 vm s (lookup s e.jobId) e = .ok pr ∧
      p = .mutation pr.mutation) ∨
    ∃ e c, op = .auxiliary e ∧ prepareAuxiliary vm s e (resultJob s e.body) = .ok c ∧
      p = .auxiliary e := by
  rcases op with ⟨e, mode⟩ | e | e
  · rcases hlookup : lookup s e.jobId with _ | j
    · simp only [request, hlookup] at h
      obtain ⟨pr, hpr, rfl⟩ := commitRequest_eq_some h
      exact .inl ⟨e, pr, rfl, hlookup ▸ hpr, rfl⟩
    · simp only [request, hlookup] at h
      cases h
  · rcases hlookup : lookup s e.jobId with _ | j
    · simp only [request, hlookup] at h
      cases h
    · simp only [request, hlookup] at h
      obtain ⟨pr, hpr, rfl⟩ := commitRequest_eq_some h
      exact .inl ⟨e, pr, rfl, hlookup ▸ hpr, rfl⟩
  · simp only [request] at h
    split at h
    · cases h
    · split at h
      · rename_i c hc
        split_ifs at h
        exact .inr ⟨e, c, rfl, hc, (Option.some_inj.mp h).symm⟩
      · cases h

/-- The record that is asked for is decoded to what was meant. -/
theorem request_decodes (h : request vm s op admits = some p) (hordered : ordered op = true) (n : ℕ) :
    Decodes s.config.valueLimits (p.record n) ⟨n, p⟩ := by
  rcases request_eq_some h with ⟨e, pr, he, hpr, rfl⟩ | ⟨e, c, rfl, hc, rfl⟩
  · have hspec := prepareV2_spec vm hpr
    have he : e.toValue.ordered = true := by
      rcases op with ⟨e', mode⟩ | e' | e'
      · exact Option.some_inj.mp he ▸ hordered
      · exact Option.some_inj.mp he ▸ hordered
      · cases he
    obtain ⟨body, hbody, hm⟩ := bind_eq_ok.mp hspec.mutation
    have hbody' : pr.mutation.body = body := (congrArg Mutation.body (Except.ok.inj hm)).symm
    exact decodes_mutation hspec.encoded (hbody' ▸ ordered_translate hbody he) n
  · obtain ⟨payload, hpayload, -⟩ := bind_eq_ok.mp hc
    exact decodes_auxiliary hpayload hordered n

section Asked

variable {append append' : Payload → Engine.Reply}

theorem appendRecord_congr (h : append p = append' p) :
    appendRecord vm s p ⟨admits, append⟩ = appendRecord vm s p ⟨admits, append'⟩ := by
  unfold appendRecord
  rw [show (Environment.mk admits append).append p = append' p from h]

theorem commit_eq_commitV2 {previous : Option Job} {e : V2.JobEvent} {given : Option Durability}
    {env : Environment} (hmode : commitMode s previous given = .persistent) :
    commit vm s previous e given env = commitV2 vm s previous e env := by
  unfold commit
  split
  case h_1 h => exact absurd (hmode.symm.trans h) (by simp)
  case h_2 => rfl

theorem commit_eq_commitVolatile {previous : Option Job} {e : V2.JobEvent}
    {given : Option Durability} {env : Environment}
    (hmode : commitMode s previous given = .volatile) :
    commit vm s previous e given env = commitVolatile vm s previous e env := by
  unfold commit
  split
  case h_1 => rfl
  case h_2 h => exact absurd (hmode.symm.trans h) (by simp)

theorem commit_congr {previous : Option Job} {e : V2.JobEvent} {given : Option Durability}
    (h : ∀ p, commitRequest vm s previous e given admits = some p → append p = append' p) :
    commit vm s previous e given ⟨admits, append⟩ = commit vm s previous e given ⟨admits, append'⟩ := by
  unfold commitRequest at h
  rcases hmode : commitMode s previous given with _ | _
  · rw [hmode] at h
    rw [commit_eq_commitV2 hmode, commit_eq_commitV2 hmode]
    unfold commitV2
    rcases hp : prepareV2 vm s previous e with reason | p
    · rfl
    · rcases hadmits : admits (p.budget.bytes - s.budget.bytes) with _ | _
      · simp only [ok_bind, hadmits, check_false, error_bind]
      · simp only [hp, hadmits, if_true] at h
        have hrecord : appendRecord vm s (.mutation p.mutation) ⟨admits, append⟩ = _ :=
          appendRecord_congr (h _ rfl)
        simp only [ok_bind, hadmits, check_true, hrecord]
  · rw [commit_eq_commitVolatile hmode, commit_eq_commitVolatile hmode]
    rfl

/-- Whatever the writer answers to other payloads, the operation does not learn of it. -/
theorem perform_congr (h : ∀ p, request vm s op admits = some p → append p = append' p) :
    perform vm s op ⟨admits, append⟩ = perform vm s op ⟨admits, append'⟩ := by
  rcases op with ⟨e, mode⟩ | e | e
  · rcases hlookup : lookup s e.jobId with _ | j
    · simp only [request, hlookup] at h
      simp only [perform, hlookup, commit_congr h]
    · simp only [perform, hlookup]
  · rcases hlookup : lookup s e.jobId with _ | j
    · simp only [perform, hlookup]
    · simp only [request, hlookup] at h
      simp only [perform, hlookup, commit_congr h]
  · simp only [request] at h
    simp only [perform, commitAuxiliary]
    split_ifs at h ⊢
    · rfl
    · unfold commitPersistentAuxiliary
      rcases hc : prepareAuxiliary vm s e (resultJob s e.body) with reason | c
      · rfl
      · rcases hadmits : admits (c.auxiliaryBytes - s.auxiliaryBytes) with _ | _
        · simp only [ok_bind, hadmits, check_false, error_bind]
        · simp only [hc, hadmits, if_true] at h
          have hrecord : appendRecord vm s (.auxiliary e) ⟨admits, append⟩ = _ :=
            appendRecord_congr (h _ rfl)
          simp only [ok_bind, hadmits, check_true, hrecord]

end Asked

/-- Outside a compaction the record is in the log that the engine knows. -/
theorem append_of_record {env : Environment} {receipt : Receipt} {base : Engine.State}
    (hs : s.onlineCompaction = .none) (h : appendRecord vm s p env = .ok (receipt, base)) :
    base = s ∧ env.append p = .ok receipt := by
  unfold appendRecord at h
  rw [hs] at h
  rcases ha : env.append p with receipt' | ⟨receipt', stats⟩ | reason
  · rw [ha] at h
    obtain ⟨rfl, rfl⟩ := Prod.mk.inj (Except.ok.inj h)
    exact ⟨rfl, rfl⟩
  · rw [ha] at h
    cases h
  · rw [ha] at h
    cases h

variable (vm) in
/-- What the log has of an operation. -/
structure Logged (s : Engine.State) (op : Op) (env : Environment) (out : Engine.State × List Record) :
    Prop where
  config : out.1.config = s.config
  records : request vm s op env.admits = none ∧ out.2 = [] ∨
    ∃ p, request vm s op env.admits = some p ∧ env.append p = .ok (expectedPosition s p.bytes) ∧
      out.2 = [⟨s.nextSequence, p⟩]

theorem perform_logged {c₀ : Candidate} {r : Reader.State} {env : Environment}
    {out : Engine.State × List Record} (htracks : Tracks c₀ s r) (h : perform vm s op env = .ok out) :
    Logged vm s op env out := by
  have hsilent : out.1.nextSequence = s.nextSequence → request vm s op env.admits = none := by
    intro hsequence
    rcases perform_advances vm h with ⟨hrequest, -, -⟩ | ⟨-, happend, -, hcoordinates, -⟩
    · exact hrequest
    · obtain ⟨rfl, -⟩ := append_of_record htracks.online happend
      have hnext := congrArg Coordinates.nextSequence hcoordinates
      exact absurd (hnext.symm.trans hsequence) (Nat.succ_ne_self _)
  have hasked : out.1.nextSequence = s.nextSequence + 1 →
      ∃ p, request vm s op env.admits = some p ∧ env.append p = .ok (expectedPosition s p.bytes) := by
    intro hsequence
    rcases perform_advances vm h with ⟨-, hcoordinates, -⟩ | @⟨p, _, _, hrequest, happend, hreceipt, -, -⟩
    · have hsame := congrArg Coordinates.nextSequence hcoordinates
      exact absurd (hsequence.symm.trans hsame) (Nat.succ_ne_self _)
    · obtain ⟨hbase, hreply⟩ := append_of_record htracks.online happend
      exact ⟨p, hrequest, by rw [hreply, hreceipt, hbase]⟩
  rcases perform_cases vm htracks.volatileHot h with
    ⟨e, c, -, -, hc, rfl⟩ | ⟨e, c, he, -, hcommit, rfl⟩ | ⟨e, j, rfl, hj, hmem, haux⟩ |
      ⟨e, rfl, -, haux⟩
  · exact ⟨hc.config, .inl ⟨hsilent hc.sequence, hc.records⟩⟩
  · obtain ⟨pr, hpr, hc⟩ := commitV2_spec vm htracks.online hcommit
    obtain ⟨p, hrequest, happend⟩ := hasked hc.sequence
    refine ⟨hc.config, .inr ⟨p, hrequest, happend, ?_⟩⟩
    rcases request_eq_some hrequest with ⟨e', pr', he', hpr', rfl⟩ | ⟨e', c, rfl, -, -⟩
    · obtain rfl := Option.some_inj.mp (he.symm.trans he')
      have hmutation := (prepareV2_spec vm hpr').mutation.symm.trans hpr.mutation
      rw [Except.ok.inj hmutation]
      exact hc.records
    · cases he
  · have hrecords := (tracks_volatileAuxiliary vm htracks hj hmem haux).1
    simp only [commitVolatileAuxiliary, bind_eq_ok, pure_eq_ok] at haux
    obtain ⟨-, -, c, -, -, -, haux⟩ := haux
    cases haux
    exact ⟨rfl, .inl ⟨hsilent rfl, hrecords⟩⟩
  · have hspec := commitPersistentAuxiliary_spec vm htracks.online haux
    obtain ⟨c, -, ht⟩ := hspec.reduced
    have hconfig : out.1.config = s.config := by
      rw [ht]
      rfl
    obtain ⟨p, hrequest, happend⟩ := hasked (by rw [ht]; rfl)
    refine ⟨hconfig, .inr ⟨p, hrequest, happend, ?_⟩⟩
    rcases request_eq_some hrequest with ⟨_, _, he', -, -⟩ | ⟨e', c, he', -, rfl⟩
    · cases he'
    · obtain rfl := Op.auxiliary.inj he'
      exact hspec.records

theorem concluded_eq_some {ρ : Type} {answer : Except Reason Unit → ρ}
    {out : Except Reason (Engine.State × List Record)} {d : ρ × Engine.State}
    (h : concluded s answer out = some d) : (∃ o, out = .ok o ∧ d.2 = o.1) ∨ d.2 = s := by
  unfold concluded at h
  split at h
  · obtain rfl := Option.some_inj.mp h
    exact .inl ⟨_, rfl, rfl⟩
  · cases h
  · obtain rfl := Option.some_inj.mp h
    exact .inr rfl

variable (vm) in
/-- What a plan that was carried out has done to the engine and to the log. -/
inductive Carried {ρ : Type} (s : Engine.State) (store : Run) (io : Io) (d : Done ρ Engine.State) : Prop
  | answered : d.next = s → d.store = store → Carried s store io d
  | kept {op : Op} {env : Environment} : perform vm s op env = .ok (d.next, []) → d.store = store →
      Carried s store io d
  | logged {op : Op} {env : Environment} {p : Payload} {receipt : Receipt} :
      Decodes s.config.valueLimits (p.record s.nextSequence) ⟨s.nextSequence, p⟩ →
      perform vm s op env = .ok (d.next, [⟨s.nextSequence, p⟩]) →
      store.append p.kind.1 p.kind.2 p.wire io = (.appended receipt, d.store) →
      store.writer.nextSequence = s.nextSequence → Carried s store io d

theorem exchange_carried {ρ : Type} {plan : Plan ρ} {store : Run} {io : Io} {d : Done ρ Engine.State}
    {c₀ : Candidate} {r : Reader.State} (htracks : Tracks c₀ s r) (hheld : store.Held)
    (hd : (plan.exchange vm s).perform store io = some d) : Carried vm s store io d := by
  rcases plan with result | ⟨⟨op, hordered⟩, admits, answer⟩
  · obtain rfl := Option.some_inj.mp hd
    exact .answered rfl rfl
  unfold Plan.exchange at hd
  rcases hrequest : request vm s op admits with _ | p
  · simp only [hrequest] at hd
    rcases hc : concluded s answer (perform vm s op ⟨admits, fun _ ↦ .error .raised⟩) with _ | r
    · rw [hc] at hd
      cases hd
    · rw [hc] at hd
      obtain rfl := Option.some_inj.mp hd
      rcases concluded_eq_some hc with ⟨out, hout, hnext⟩ | hnext
      · rcases (perform_logged htracks hout).records with ⟨-, hrecords⟩ | ⟨p, hp, -⟩
        · refine .kept (hout.trans ?_) rfl
          rw [← hrecords, hnext]
        · rw [hrequest] at hp
          cases hp
      · exact .answered hnext rfl
  · simp only [hrequest] at hd
    rcases happend : store.append p.kind.1 p.kind.2 p.wire io with ⟨reply, store'⟩
    unfold Exchange.perform at hd
    dsimp only at hd
    rw [happend] at hd
    rcases reply with receipt | _ | refusal | _ | _ | _ | _ | _
    · obtain ⟨_, hr, rfl⟩ := Option.map_eq_some_iff.mp hd
      obtain ⟨out, hout, rfl⟩ := Option.map_eq_some_iff.mp hr
      have hout := toOption_eq_some.mp hout
      rcases (perform_logged htracks hout).records with ⟨hnone, -⟩ | ⟨p', hp', hreply, hrecords⟩
      · rw [hrequest] at hnone
        cases hnone
      · obtain rfl := Option.some_inj.mp (hrequest.symm.trans hp')
        -- the writer's number is the one the engine expects
        have hsequence : store.writer.nextSequence = s.nextSequence := by
          rw [← (append_grows hheld happend).2, Engine.Reply.ok.inj hreply]
          rfl
        exact .logged (request_decodes hrequest hordered _)
          (hout.trans (by rw [← hrecords])) happend hsequence
    · cases hd
    · obtain ⟨r, hr, rfl⟩ := Option.map_eq_some_iff.mp hd
      have hsame : store' = store := append_refused happend (by simp) (by simp)
      rcases concluded_eq_some hr with ⟨out, hout, -⟩ | hnext
      · rcases (perform_logged htracks hout).records with ⟨hnone, -⟩ | ⟨p', -, hreply, -⟩
        · rw [hrequest] at hnone
          cases hnone
        · cases hreply
      · exact .answered hnext hsame
    all_goals cases hd

/-- The writer of these files, as the environment of an operation. -/
def answering (admits : ℤ → Bool) (store : Run) (io : Io) : Environment where
  admits := admits
  append p :=
    match (store.append p.kind.1 p.kind.2 p.wire io).1 with
    | .appended receipt => .ok receipt
    | .refused refusal => .error (refusalReason refusal)
    | _ => .error .raised

/-- An operation is the exchange it asks of the writer, with the writer's own answers. -/
theorem perform_exchange {ρ : Type} {term : OpTerm} {answer : Except Reason Unit → ρ} {store : Run} {io : Io}
    {d : Done ρ Engine.State} (hd : ((Plan.commit term admits answer).exchange vm s).perform store io = some d) :
    concluded s answer (perform vm s term.op (answering admits store io)) = some (d.result, d.next) := by
  unfold Plan.exchange at hd
  rcases hrequest : request vm s term.op admits with _ | p
  · have hcongr : perform vm s term.op (answering admits store io) =
        perform vm s term.op ⟨admits, fun _ ↦ .error .raised⟩ :=
      perform_congr fun p hp ↦ absurd (hrequest.symm.trans hp) (by simp)
    simp only [hrequest] at hd
    rw [hcongr]
    rcases hc : concluded s answer (perform vm s term.op ⟨admits, fun _ ↦ .error .raised⟩) with _ | r
    · rw [hc] at hd
      cases hd
    · rw [hc] at hd
      obtain rfl := Option.some_inj.mp hd
      rfl
  · have hcongr : perform vm s term.op (answering admits store io) =
        perform vm s term.op ⟨admits, fun _ ↦ (answering admits store io).append p⟩ :=
      perform_congr fun p' hp ↦ by
        obtain rfl := Option.some_inj.mp (hrequest.symm.trans hp)
        rfl
    simp only [hrequest] at hd
    rw [hcongr]
    rcases happend : store.append p.kind.1 p.kind.2 p.wire io with ⟨reply, store'⟩
    unfold Exchange.perform at hd
    dsimp only at hd
    rw [happend] at hd
    rcases reply with receipt | _ | refusal | _ | _ | _ | _ | _
    · obtain ⟨_, hr, rfl⟩ := Option.map_eq_some_iff.mp hd
      obtain ⟨out, hout, rfl⟩ := Option.map_eq_some_iff.mp hr
      have hreply : (answering admits store io).append p = .ok receipt := by simp [answering, happend]
      have hout : perform vm s term.op ⟨admits, fun _ ↦ .ok receipt⟩ = .ok out := toOption_eq_some.mp hout
      rw [hreply, hout]
      rfl
    · cases hd
    · obtain ⟨_, hr, rfl⟩ := Option.map_eq_some_iff.mp hd
      have hreply : (answering admits store io).append p = .error (refusalReason refusal) := by
        simp [answering, happend]
      rw [hreply]
      exact hr
    all_goals cases hd

end Request

/-! ## Steps -/

section Steps

variable {vm} {h : Handlers ι κ μ ρ} {s t : GroupCommit.State ι κ μ ρ Engine.State} {x : Label ι κ μ}

variable (vm) in
/-- What a step does to the engine and to the files: a group begins or ends, or a plan is carried out. -/
inductive Effect (s t : GroupCommit.State ι κ μ ρ Engine.State) : Prop
  | grouped (group : Option ℕ) : t.engine = s.engine → t.store = s.store.grouped group → Effect s t
  | carried {ρ' : Type} {plan : Plan ρ'} {io : Io} {d : Done ρ' Engine.State} :
      (plan.exchange vm s.engine).perform s.store io = some d → t.engine = d.next → t.store = d.store →
      Effect s t

theorem beginFlush_effect {s' : GroupCommit.State ι κ μ ρ Engine.State} {io : Io}
    (hbegin : s'.beginFlush io = some t) (hengine : s'.engine = s.engine) (hstore : s'.store = s.store) :
    Effect vm s t := by
  rcases State.beginFlush_cases hbegin with ⟨-, rfl⟩ | ⟨g, store, -, hbegun, rfl⟩
  · exact .grouped s.store.writer.groupCommit hengine (hstore.trans rfl)
  · obtain ⟨-, -, rfl⟩ := begin_ok hbegun
    exact .grouped (some 0) hengine (congrArg (Run.grouped · (some 0)) hstore)

theorem step_effect (hstep : (machine (h.commands vm)).step s x = some t) : Effect vm s t := by
  rcases State.step_moves hstep with ⟨-, -⟩ | ⟨-, -, hbegin⟩ | ⟨-, -, hbegin⟩ | - | ⟨-, hbegin⟩ |
    ⟨-, hbegin⟩ | ⟨-, hd⟩ | ⟨-, hfinish⟩ | ⟨-, -, hd⟩ | ⟨-, hd⟩
  · rw [State.enqueue_same]
    exact .grouped s.store.writer.groupCommit rfl rfl
  · rw [State.enqueue_same] at hbegin
    exact beginFlush_effect hbegin rfl rfl
  · exact beginFlush_effect hbegin rfl rfl
  · exact .grouped s.store.writer.groupCommit rfl rfl
  · exact beginFlush_effect hbegin rfl rfl
  · exact beginFlush_effect hbegin rfl rfl
  · exact .carried hd rfl rfl
  · obtain ⟨-, rfl, -⟩ := finish_ok hfinish
    exact .grouped none rfl rfl
  · exact .carried hd rfl rfl
  · exact .carried hd rfl rfl

/-- The log grows by one record at a time. -/
theorem all_step (hguarded : s.Guarded) (hstep : (machine (h.commands vm)).step s x = some t) :
    t.store.all = s.store.all ∨ ∃ r, t.store.all = s.store.all ++ [r] := by
  rcases step_effect hstep with ⟨group, -, hstore⟩ | ⟨hd, -, hstore⟩
  · exact .inl ((congrArg Run.all hstore).trans rfl)
  · rw [hstore]
    rcases performed hd with ⟨hkept, -⟩ | ⟨happend, -⟩
    · exact .inl (congrArg Run.all hkept)
    · exact .inr ⟨_, all_grows (append_grows hguarded.safe.held happend).1⟩

/-- What a crash leaves within a step, it leaves of an append or of no step at all. -/
theorem crash_step {covered : ℕ} {files : List File} (hstep : (machine (h.commands vm)).step s x = some t)
    (hcrash : Crash s.store t.store covered files) :
    (t.store.all = s.store.all ∧ Crash s.store s.store covered files) ∨ s.store.Appends t.store := by
  rcases step_effect hstep with ⟨group, -, hstore⟩ | ⟨hd, -, hstore⟩
  · rw [hstore] at hcrash ⊢
    rcases hcrash with ⟨hheader, hn⟩ | ⟨hne, -⟩ | hne
    · exact .inl ⟨rfl, .written rfl hn⟩
    · exact absurd rfl hne
    · exact absurd rfl hne
  · rw [hstore] at hcrash ⊢
    rcases performed hd with ⟨hkept, -⟩ | ⟨happend, -⟩
    · rw [hkept] at hcrash ⊢
      exact .inl ⟨rfl, hcrash⟩
    · exact .inr ⟨_, _, _, _, _, happend⟩

end Steps

/-! ## The log and the engine -/

section Recovers

variable {vm} {b : Reader.State} {c₀ : Candidate} {limits : Value.Limits}

variable (vm) in
/-- The records of the log say what replays to the state of the engine, up to a record where the replay
is refused its memory. -/
inductive Recovers (b : Reader.State) (c₀ : Candidate) (limits : Value.Limits) (engine : Engine.State)
    (records : List Physical.Record) : Prop
  | tracked {typed : List Record} {r : Reader.State} : engine.config.valueLimits = limits →
      List.Forall₂ (Decodes limits) records typed →
      fold (Reader.consume vm false) b typed = .ok r → Tracks c₀ engine r →
      Recovers b c₀ limits engine records
  | exhausted {lead : List Physical.Record} {typed : List Record} {reason : Reason} : lead <+: records →
      List.Forall₂ (Decodes limits) lead typed →
      fold (Reader.consume vm false) b typed = .error reason → reason.memory = true →
      Recovers b c₀ limits engine records

variable {h : Handlers ι κ μ ρ} {s t : GroupCommit.State ι κ μ ρ Engine.State} {x : Label ι κ μ}

theorem Recovers.step (hguarded : s.Guarded)
    (hs : Recovers vm b c₀ limits s.engine s.store.all)
    (hstep : (machine (h.commands vm)).step s x = some t) :
    Recovers vm b c₀ limits t.engine t.store.all := by
  rcases hs with @⟨typed, r, hlimits, hdecodes, hfold, htracks⟩ | ⟨hlead, hdecodes, hfold, hmemory⟩
  swap
  · -- the replay does not get any further
    refine .exhausted (hlead.trans ?_) hdecodes hfold hmemory
    rcases all_step hguarded hstep with hall | ⟨r, hall⟩
    · rw [hall]
    · exact hall ▸ List.prefix_append _ _
  rcases step_effect hstep with ⟨group, hengine, hstore⟩ | @⟨ρ', plan, io, d, hd, hengine, hstore⟩
  · rw [hengine, hstore]
    exact .tracked hlimits hdecodes hfold htracks
  rw [hengine, hstore]
  rcases exchange_carried htracks hguarded.safe.held hd with ⟨hnext, hkept⟩ | ⟨hperform, hkept⟩ |
    @⟨op, env, p, receipt, hrecord, hperform, happend, hsequence⟩
  · rw [hnext, hkept]
    exact .tracked hlimits hdecodes hfold htracks
  · have hconfig : d.next.config = s.engine.config := (perform_logged htracks hperform).config
    rcases perform_keepsUp vm htracks hperform with ⟨r', hr', htracks'⟩ | ⟨err, herr, -⟩
    · obtain rfl := Except.ok.inj hr'
      rw [hkept]
      exact .tracked (hconfig ▸ hlimits) hdecodes hfold htracks'
    · cases herr
  · have hconfig : d.next.config = s.engine.config := (perform_logged htracks hperform).config
    have hall : d.store.all = s.store.all ++ [p.record s.engine.nextSequence] := by
      rw [all_grows (append_grows hguarded.safe.held happend).1, ← hsequence]
      rfl
    rw [hlimits] at hrecord
    have hdecodes' : List.Forall₂ (Decodes limits) d.store.all (typed ++ [⟨s.engine.nextSequence, p⟩]) := by
      rw [hall]
      exact List.rel_append hdecodes (.cons hrecord .nil)
    rcases perform_keepsUp vm htracks hperform with ⟨r', hr', htracks'⟩ | ⟨err, herr, hmemory⟩
    · refine .tracked (hconfig ▸ hlimits) hdecodes' ?_ htracks'
      rw [fold_append, hfold, ok_bind, hr']
    · refine .exhausted List.prefix_rfl hdecodes' ?_ hmemory
      rw [fold_append, hfold, ok_bind, herr]

end Recovers

/-! ## After the crash -/

/-- The engine is opened on what the reader has made of the files, behind the base segments. -/
structure Opened (b : Reader.State) (config : Config) (recovered : Reader.Recovered)
    (segment : SegmentView) (s : GroupCommit.State ι κ μ ρ Engine.State) : Prop where
  starts : Starts s
  engine : s.engine = init config recovered segment
  limits : recovered.candidate.valueLimits = config.valueLimits
  sequence : recovered.nextSequence = s.store.writer.nextSequence
  replayed : ∃ typed last, List.Forall₂ (Decodes config.valueLimits) s.store.all typed ∧
    fold (Reader.consume vm false) b typed = .ok ⟨recovered.candidate, recovered.nextSequence, last⟩

/-- The records are decoded, in one way, and what they replay to agrees with this engine. -/
structure Restored (b : Reader.State) (c₀ : Candidate) (limits : Value.Limits)
    (records : List Physical.Record) (engine : Engine.State) : Prop where
  decodes : ∃ typed, List.Forall₂ (Decodes limits) records typed
  replays : ∀ typed, List.Forall₂ (Decodes limits) records typed →
    ∃ r, fold (Reader.consume vm false) b typed = .ok r ∧ Agrees c₀ engine r

/-- The replay of the records stops where its memory is not enough. -/
structure Exhausted (b : Reader.State) (limits : Value.Limits) (records : List Physical.Record) : Prop where
  stops : ∃ lead typed reason, lead <+: records ∧ List.Forall₂ (Decodes limits) lead typed ∧
    fold (Reader.consume vm false) b typed = .error reason ∧ reason.memory = true

section Crash

variable {vm} {b : Reader.State} {c₀ : Candidate} {limits : Value.Limits} {records : List Physical.Record}

theorem Recovers.restored {engine : Engine.State} (h : Recovers vm b c₀ limits engine records) :
    Restored vm b c₀ limits records engine ∨ Exhausted vm b limits records := by
  rcases h with @⟨typed, r, -, hdecodes, hfold, htracks⟩ | ⟨hlead, hdecodes, hfold, hmemory⟩
  · refine .inl ⟨⟨typed, hdecodes⟩, fun typed' hdecodes' ↦ ?_⟩
    obtain rfl := decodes_unique hdecodes hdecodes'
    exact ⟨r, hfold, htracks.toAgrees⟩
  · exact .inr ⟨_, _, _, hlead, hdecodes, hfold, hmemory⟩

variable {h : Handlers ι κ μ ρ} {s₀ s t : GroupCommit.State ι κ μ ρ Engine.State}
  {config : Config} {recovered : Reader.Recovered} {segment : SegmentView}

theorem Opened.recovers (h : Opened vm b config recovered segment s₀) :
    Recovers vm b recovered.candidate config.valueLimits s₀.engine s₀.store.all := by
  obtain ⟨typed, last, hdecodes, hfold⟩ := h.replayed
  rw [h.engine]
  exact .tracked rfl hdecodes hfold (init_tracks segment h.limits last)

/-- What is safe stays safe. -/
theorem covered_step {x : Label ι κ μ} (hguarded : s.Guarded)
    (hstep : (machine (h.commands vm)).step s x = some t) : s.covered ≤ t.covered := by
  have hbegin : ∀ {s' : GroupCommit.State ι κ μ ρ Engine.State} {io : Io}, s'.beginFlush io = some t →
      s'.covered = s.covered → s.covered ≤ t.covered := by
    intro s' io hbegin heq
    rcases State.beginFlush_cases hbegin with ⟨-, rfl⟩ | ⟨g, store, -, -, rfl⟩ <;> exact heq.ge
  rcases State.step_moves hstep with ⟨-, -⟩ | ⟨-, -, hflush⟩ | ⟨-, -, hflush⟩ | - | ⟨-, hflush⟩ |
    ⟨-, hflush⟩ | ⟨-, hd⟩ | ⟨-, hfinish⟩ | ⟨-, -, hd⟩ | ⟨-, hd⟩
  · rw [State.enqueue_same]
  · rw [State.enqueue_same] at hflush
    exact hbegin hflush rfl
  · exact hbegin hflush rfl
  · exact le_rfl
  · exact hbegin hflush rfl
  · exact hbegin hflush rfl
  · exact (hguarded.advances (performed hd)).covered
  · rw [(hguarded.safe.finish hfinish).2, (finish_ok hfinish).2.1]
    exact hguarded.safe.upto
  · exact (hguarded.advances (performed hd)).covered
  · exact (hguarded.advances (performed hd)).covered

variable (vm) in
/-- What a run keeps. -/
structure Kept (b : Reader.State) (c₀ : Candidate) (limits : Value.Limits) (safe : ℕ)
    (s : GroupCommit.State ι κ μ ρ Engine.State) : Prop where
  guarded : s.Guarded
  recovers : Recovers vm b c₀ limits s.engine s.store.all
  covered : safe ≤ s.covered

theorem Kept.step {x : Label ι κ μ} {safe : ℕ} (hs : Kept vm b c₀ limits safe s)
    (hstep : (machine (h.commands vm)).step s x = some t) : Kept vm b c₀ limits safe t :=
  ⟨hs.guarded.step hstep, hs.recovers.step hs.guarded hstep,
    hs.covered.trans (covered_step hs.guarded hstep)⟩

theorem kept_logs {safe : ℕ} :
    (machine (h.commands vm)).Logs (Kept vm b c₀ limits safe) fun s ↦ s.store.all :=
  fun _ _ _ hs hstep ↦ ⟨hs.step hstep, all_step hs.guarded hstep⟩

theorem decodes_sequence {typed : List Record} (hdecodes : List.Forall₂ (Decodes limits) records typed) :
    records.map (·.sequence) = typed.map (·.sequence) := by
  induction hdecodes with
  | nil => rfl
  | cons hrecord _ ih =>
    rw [List.map_cons, List.map_cons, ih]
    rcases hrecord with _ | _ <;> rfl

/-- The records the engine was opened on are numbered, and all of them are safe. -/
theorem Opened.numbered (h : Opened vm b config recovered segment s₀) :
    s₀.store.all.Nodup ∧ ∀ r ∈ s₀.store.all, r.sequence < s₀.covered := by
  obtain ⟨typed, last, hdecodes, hfold⟩ := h.replayed
  obtain ⟨hnumbers, hnext⟩ := Reader.consume_sequences vm hfold
  rw [← decodes_sequence hdecodes] at hnumbers
  constructor
  · have hnodup : (List.range' b.nextSequence typed.length).Nodup := List.nodup_range'
    exact List.Nodup.of_map _ (hnumbers ▸ hnodup)
  · intro r hr
    have hmem : r.sequence ∈ List.range' b.nextSequence typed.length :=
      hnumbers ▸ List.mem_map_of_mem hr
    have hupper := (List.mem_range'_1.mp hmem).2
    rw [h.starts.covered, ← h.sequence]
    exact hupper.trans_eq hnext.symm

/-- Files that no crash has touched are read whole. -/
theorem readFiles_whole {store : Run} (h : store.Held) : readFiles (store.disk.earlier ++
    [store.disk.highest.cut store.disk.highest.bytes.length]) = some store.all := by
  obtain ⟨closed, hheld⟩ := h
  have hcut : ∀ file : File, file.cut file.bytes.length = file := fun file ↦ by
    rw [File.cut, List.take_length]
  have hparses : Parses { id := some store.last.header.id, highest := true } closed store.last
      (store.last.file closed) := by
    rcases closed with _ | _
    · exact parses_open hheld.written _
    · exact parses_sealed ⟨hheld.written, hheld.closed rfl⟩ _
  obtain ⟨hwhole, -⟩ := hparses (admit_default hheld.written true)
  rw [hcut, hheld.disk, readFiles_sealed hheld.earlier]
  have hid : (store.last.file closed).id = store.last.header.id := by cases closed <;> rfl
  rw [readFile, hid, hwhole (.inr rfl)]
  rfl

/-- Of the files that a crash within a step has left. -/
theorem crash_next {ys : List (Label ι κ μ)} {files : List File} (hguarded : s.Guarded)
    (hnext : (machine (h.commands vm)).run s ys = some t) (hone : ys.length ≤ 1)
    (hcrash : Crash s.store t.store s.covered files) (hread : readFiles files = some records) :
    records <+: t.store.all ∧ ∀ r ∈ s.store.all, r.sequence < s.covered → r ∈ records := by
  rcases ys with _ | ⟨x, _ | ⟨y, ys⟩⟩
  · obtain rfl := Option.some_inj.mp hnext
    exact crash_reads hguarded.safe (.inl rfl) hcrash hread
  · rw [Machine.run_cons, Option.bind_eq_some_iff] at hnext
    obtain ⟨t', hstep, ht⟩ := hnext
    obtain rfl := Option.some_inj.mp ht
    rcases crash_step hstep hcrash with ⟨hall, hcrash⟩ | happends
    · rw [hall]
      exact crash_reads hguarded.safe (.inl rfl) hcrash hread
    · exact crash_reads hguarded.safe (.inr happends) hcrash hread
  · simp at hone

/-- **A restart goes back to a moment of the run, and loses nothing that was acknowledged.** Wherever the
engine is lost, between two steps or within one, if the files that are left are accepted then the records
in them are the log of some moment of the run, with the record of every answer that was sent. What they
say replays to the state the engine was in at that moment, unless the replay runs out of memory. -/
theorem crash_restores {xs ys : List (Label ι κ μ)} {files : List File}
    (hopened : Opened vm b config recovered segment s₀)
    (hrun : (machine (h.commands vm)).run s₀ xs = some s)
    (hnext : (machine (h.commands vm)).run s ys = some t) (hone : ys.length ≤ 1)
    (hcrash : Crash s.store t.store s.covered files) (hread : readFiles files = some records) :
    ∃ zs u, zs <+: xs ++ ys ∧ (machine (h.commands vm)).run s₀ zs = some u ∧ u.store.all = records ∧
      (∀ e ∈ s.sent, ∀ r ∈ e.record, r ∈ u.store.all) ∧
      (Restored vm b recovered.candidate config.valueLimits records u.engine ∨
        Exhausted vm b config.valueLimits records) := by
  have hkept₀ : Kept vm b recovered.candidate config.valueLimits s₀.covered s₀ :=
    ⟨State.Starts.guarded hopened.starts, hopened.recovers, le_rfl⟩
  have hkept : Kept vm b recovered.candidate config.valueLimits s₀.covered s :=
    Machine.run_preserves (fun _ _ _ hs hstep ↦ hs.step hstep) hkept₀ hrun
  have hwhole := Machine.run_append hrun hnext
  obtain ⟨hlead, hsafe⟩ := crash_next hkept.guarded hnext hone hcrash hread
  -- what was there at the start has survived, since all of it was safe
  have hstart : s₀.store.all <+: records := by
    obtain ⟨hnodup, hnumbered⟩ := hopened.numbered
    have hall := kept_logs.grows hkept₀ hrun
    have hsubset : s₀.store.all ⊆ records := fun r hr ↦
      hsafe r (hall.subset hr) ((hnumbered r hr).trans_le hkept.covered)
    rcases List.prefix_or_prefix_of_prefix (kept_logs.grows hkept₀ hwhole) hlead with hp | hp
    · exact hp
    · rw [hp.eq_of_length_le (hnodup.subperm hsubset).length_le]
  obtain ⟨zs, u, hzs, hu, hrecords⟩ := kept_logs.passes hkept₀ hwhole hstart hlead
  have hkept' : Kept vm b recovered.candidate config.valueLimits s₀.covered u :=
    Machine.run_preserves (fun _ _ _ hs hstep ↦ hs.step hstep) hkept₀ hu
  refine ⟨zs, u, hzs, hu, hrecords, fun e he r hr ↦ ?_, hrecords ▸ hkept'.recovers.restored⟩
  obtain ⟨hmem, hcovered⟩ := hkept.guarded.sent e he r hr
  exact hrecords ▸ hsafe r hmem hcovered

end Crash

/-! ## A small run

Two insertions fill a group, one of a volatile job, and are answered. The first job is started next, and
the engine is lost while that record is written. -/

namespace Sample

def persistent : OpTerm := ⟨.insert ⟨1, 0, 10, .inserted Tay.Sample.definition 10⟩ .persistent, by decide +kernel⟩

def volatile : OpTerm := ⟨.insert ⟨2, 0, 11, .inserted Tay.Sample.definition 11⟩ .volatile, by decide +kernel⟩

def started : OpTerm := ⟨.change ⟨1, 1, 13, .started 1 1⟩, by decide +kernel⟩

/-- Every command is an operation, and every operation is admitted. -/
def handlers : Handlers OpTerm Unit Unit Bool where
  batchable _ _ := true
  command term _ _ := .commit term (fun _ ↦ true) Except.isOk
  message _ _ := .reply ()
  maxEvents := 2

def start : GroupCommit.State OpTerm Unit Unit Bool Engine.State where
  engine := init Engine.Sample.config Engine.Sample.recovered Engine.Sample.segment
  group := none
  fresh := 0
  flush := none
  next := none
  store := .fresh sampleHeader Physical.minRotationBytes .sync
  covered := 1
  sent := []
  arrived := []
  history := []

theorem start_opened : Opened Tay.Sample.runtime ⟨Tay.Sample.fresh, 1, none⟩ Engine.Sample.config
    Engine.Sample.recovered Engine.Sample.segment start where
  starts :=
    { safe :=
        { held := held_fresh sampleHeader_valid le_rfl (by decide) .sync
          first := le_rfl
          upto := le_rfl
          closed := fun _ ↦ rfl
          idle := fun _ ↦ rfl
          durability := rfl }
      covered := rfl
      writer := rfl
      group := rfl
      flush := rfl
      next := rfl
      sent := rfl
      arrived := rfl }
  engine := rfl
  limits := rfl
  sequence := rfl
  replayed := ⟨[], none, .nil, rfl⟩

def labels : List (Label OpTerm Unit Unit) :=
  [.command 7 persistent sound, .command 8 volatile sound, .turn () sound, .turn () sound, .finish sound,
    .command 9 started sound, .flush sound]

def lost : Option (GroupCommit.State OpTerm Unit Unit Bool Engine.State) :=
  (machine (handlers.commands Tay.Sample.runtime)).run start labels

theorem lost_isSome : lost.isSome = true := by decide +kernel

/-- The record on its way. -/
def written : Option (GroupCommit.State OpTerm Unit Unit Bool Engine.State) :=
  lost.bind fun s ↦ (machine (handlers.commands Tay.Sample.runtime)).run s [.turn () sound]

theorem written_isSome : written.isSome = true := by decide +kernel

theorem lost_run : (machine (handlers.commands Tay.Sample.runtime)).run start labels =
    some (lost.get lost_isSome) := (Option.some_get lost_isSome).symm

theorem written_run : (machine (handlers.commands Tay.Sample.runtime)).run (lost.get lost_isSome)
    [.turn () sound] = some (written.get written_isSome) := by
  rw [Option.some_get, written]
  conv_rhs => rw [← Option.some_get lost_isSome, Option.bind_some]

/-- All of it has got to the disk. -/
def left : List File :=
  let disk := (written.get written_isSome).store.disk
  disk.earlier ++ [disk.highest.cut disk.highest.bytes.length]

theorem left_read : readFiles left = some (written.get written_isSome).store.all := by
  have hrun := Machine.run_append lost_run written_run
  have hguarded := reachable_guarded (Machine.reachable_of_run start_opened.starts hrun)
  exact readFiles_whole hguarded.safe.held

theorem left_crash : Crash (lost.get lost_isSome).store (written.get written_isSome).store
    (lost.get lost_isSome).covered left :=
  .written (by decide +kernel) (by decide +kernel)

end Sample

theorem sample_crash_restores : ∃ zs u, zs <+: Sample.labels ++ [.turn () sound] ∧
    (machine (Sample.handlers.commands Tay.Sample.runtime)).run Sample.start zs = some u ∧
    u.store.all = (Sample.written.get Sample.written_isSome).store.all ∧
    (∀ e ∈ (Sample.lost.get Sample.lost_isSome).sent, ∀ r ∈ e.record, r ∈ u.store.all) ∧
    (Restored Tay.Sample.runtime ⟨Tay.Sample.fresh, 1, none⟩ Engine.Sample.recovered.candidate
      Engine.Sample.config.valueLimits (Sample.written.get Sample.written_isSome).store.all u.engine ∨
    Exhausted Tay.Sample.runtime ⟨Tay.Sample.fresh, 1, none⟩ Engine.Sample.config.valueLimits
      (Sample.written.get Sample.written_isSome).store.all) :=
  crash_restores Sample.start_opened Sample.lost_run Sample.written_run le_rfl Sample.left_crash
    Sample.left_read

end Tay.Restart
