import Tay.Engine.Estimate
import Tay.Engine.Inspection

/-!
# The engine and its estimate

The estimate is kept beside the engine: built from the recovered jobs when a generation starts, built anew
from an epoch that is adopted, and told of every persistent commit on a job. Volatile jobs are none of its
business. As long as the epochs that are adopted hold the engine's own jobs, the estimate is that of the
persistent jobs, whatever the order of messages.
-/

open Foundation

namespace Tay

open V2

namespace CompactionEstimate

/-- `Enum.reduce(jobs, CompactionEstimate.new(), ...)`. -/
def ofJobs (jobs : Table JobId Job) : CompactionEstimate :=
  jobs.toList.foldl (fun e entry ↦ e.replace none entry.2) new

/-- What the estimate reads of a job, a compaction does not change. -/
theorem unnumbered_fields {p q : Job} (h : p.unnumbered = q.unnumbered) :
    p.id = q.id ∧ p.state = q.state ∧ p.terminalAt = q.terminalAt ∧ p.definitionBytes = q.definitionBytes := by
  have hid := congrArg Job.id h
  have hstate := congrArg Job.state h
  have hterminal := congrArg Job.terminalAt h
  have hbytes := congrArg Job.definitionBytes h
  exact ⟨hid, hstate, hterminal, hbytes⟩

theorem bucket_unnumbered (e : CompactionEstimate) {p q : Job} (h : p.unnumbered = q.unnumbered) (sign : ℤ) :
    bucket e p sign = bucket e q sign := by
  obtain ⟨-, hstate, hterminal, hbytes⟩ := unnumbered_fields h
  rw [bucket, bucket, hstate, hterminal, jobBound, jobBound, hbytes]

theorem replace_unnumbered (e : CompactionEstimate) {p q : Option Job}
    (h : p.map Job.unnumbered = q.map Job.unnumbered) (job : Job) : e.replace p job = e.replace q job := by
  cases p with
  | none =>
    cases q with
    | none => rfl
    | some q => cases h
  | some p =>
    cases q with
    | none => cases h
    | some q =>
      have hbucket := bucket_unnumbered e (Option.some.inj h) (-1)
      simp only [replace, hbucket, Option.isSome_some]

/-- An estimate that is built from jobs is exact for them. -/
theorem exact_ofJobs {jobs : Table JobId Job} (hkeyed : Keyed Job.id jobs) : Exact ⟨ofJobs jobs, jobs⟩ := by
  -- Each job of the list is new to what was fed before it.
  have hfed : ∀ (l : List (JobId × Job)) (s : Tracked), Exact s → (l.map Prod.fst).Nodup →
      (∀ x ∈ l, x.2.id = x.1 ∧ s.jobs[x.1]? = none) →
      Exact ⟨l.foldl (fun e entry ↦ e.replace none entry.2) s.estimate,
        l.foldl (fun t entry ↦ t.insert entry.1 entry.2) s.jobs⟩ := by
    intro l
    induction l with
    | nil => exact fun s hs _ _ ↦ hs
    | cons x l ih =>
      intro s hs hnodup hfresh
      obtain ⟨hid, hnone⟩ := hfresh x List.mem_cons_self
      obtain ⟨hx, hl⟩ := List.nodup_cons.mp hnodup
      have hnext : Exact ⟨s.estimate.replace none x.2, s.jobs.insert x.1 x.2⟩ := by
        have hnew : ∀ p, s.jobs[x.2.id]? = some p → p.definitionBytes = x.2.definitionBytes := fun p hp ↦ by
          rw [hid, hnone] at hp
          cases hp
        have hfeed := hs.feed hnew
        rw [feed, hid, hnone] at hfeed
        exact hfeed
      refine ih _ hnext hl fun y hy ↦ ⟨(hfresh y (List.mem_cons_of_mem _ hy)).1, ?_⟩
      have hne : x.1 ≠ y.1 := fun heq ↦ hx (heq ▸ List.mem_map_of_mem hy)
      rw [Foundation.Table.get_insert, if_neg hne]
      exact (hfresh y (List.mem_cons_of_mem _ hy)).2
  have hexact := hfed jobs.toList ⟨new, ∅⟩ (@exact_track [] (by simp)) (Snapshot.nodup_keys jobs)
    fun x hx ↦ ⟨hkeyed _ _ (Std.ExtTreeMap.mem_toList_iff_getElem?_eq_some.mp hx), by simp⟩
  have hjobs := Foundation.Table.foldl_insert_eq jobs (Snapshot.nodup_keys jobs) fun x ↦
    Std.ExtTreeMap.mem_toList_iff_getElem?_eq_some.symm.symm
  dsimp only at hexact
  rw [hjobs] at hexact
  exact hexact

end CompactionEstimate

namespace Engine

open ProjectionState OnlineCheckpoint

/-- The version of a job that is on disk. -/
def persistent (s : State) (id : JobId) : Option Job := if id ∈ s.volatileIds then none else lookup s id

structure Estimated where
  engine : State
  estimate : CompactionEstimate

variable (vm : Runtime)

/-- The estimate in which a commit is counted: the one there is, or that of an adopted epoch. -/
def Estimated.carried (w : Estimated) (a : Action) : CompactionEstimate :=
  match adoption vm w.engine a with
  | none => w.estimate
  | some x => .ofJobs x.1.recovered.candidate.jobs

def Estimated.observe (w : Estimated) (a : Action) (engine : State) : Estimated :=
  match published vm w.engine a with
  | some (previous, job, .persistent) => ⟨engine, (w.carried vm a).replace previous job⟩
  | _ => ⟨engine, w.carried vm a⟩

/-- A generation starts with the estimate of the jobs it has recovered. -/
def Estimated.Starts (w : Estimated) : Prop :=
  ∃ d config r segment,
    Reader.recover vm d (candidate config.candidateLimits config.valueLimits) = .ok r ∧
      w = ⟨countInterrupted (init config r segment), .ofJobs r.candidate.jobs⟩

/-- The machine of the engine, with the estimate beside it. -/
def estimated : Machine Estimated Action where
  initial := Estimated.Starts vm
  step w a := (handle vm w.engine a).toOption.map (w.observe vm a)

/-- An adopted epoch is one of the engine's own: its jobs are persistent jobs of the engine, no running one is
missing, nor the job that the message is about. -/
structure Own (s : State) (a : Action) (jobs : Table JobId Job) : Prop where
  known : ∀ (id : JobId) (job : Job), jobs[id]? = some job →
    (persistent s id).map Job.unnumbered = some job.unnumbered
  running : ∀ (id : JobId) (job : Job), persistent s id = some job → job.state.terminal = false →
    (jobs[id]?).isSome
  named : ∀ (p job : Job), published vm s a = some (some p, job, .persistent) → (jobs[job.id]?).isSome

def Owns (w : Estimated) (a : Action) : Prop :=
  ∀ x ∈ adoption vm w.engine a, Own vm w.engine a x.1.recovered.candidate.jobs

variable {vm} {s t : State} {a : Action}

/-- The estimate is that of the persistent jobs. -/
def Estimated.Tracks (w : Estimated) : Prop :=
  ∃ jobs : Table JobId Job, CompactionEstimate.Exact ⟨w.estimate, jobs⟩ ∧
    ∀ id : JobId, (jobs[id]?).map Job.unnumbered = (persistent w.engine id).map Job.unnumbered

theorem persistent_eq_some {id : JobId} {job : Job} :
    persistent s id = some job ↔ id ∉ s.volatileIds ∧ lookup s id = some job := by
  rw [persistent]
  split
  case isTrue hvolatile => exact ⟨fun h ↦ absurd h (by simp), fun h ↦ absurd hvolatile h.1⟩
  case isFalse hpersistent => exact ⟨fun h ↦ ⟨hpersistent, h⟩, fun h ↦ h.2⟩

theorem persistent_of_notMem {id : JobId} (h : id ∉ s.volatileIds) : persistent s id = lookup s id := if_neg h

/-! ## Adoption -/

/-- What is on disk after an adoption was there before. -/
theorem persistent_settled {x : Option (Stats × Retention)} {base : State} (hs : Placed s) (h : Settles vm s x base)
    {id : JobId} {job : Job} (hjob : persistent base id = some job) :
    persistent s id = some job ∧ survives s x job = true := by
  obtain ⟨hout, hlookup⟩ := persistent_eq_some.mp hjob
  obtain ⟨-, hkept, -⟩ := h.placed hs
  rw [hkept] at hlookup
  obtain ⟨hbefore, hsurvives⟩ := Option.filter_eq_some_iff.mp hlookup
  refine ⟨persistent_eq_some.mpr ⟨fun hin ↦ hout ?_, hbefore⟩, hsurvives⟩
  cases h with
  | stay => exact hin
  | @adopt stats retention admits adopted online hadopted =>
    -- A volatile job is hot, and stays volatile as long as it is.
    obtain ⟨hhot, hterminal, hvolatile⟩ := adopt_tables hs hadopted id
    refine hvolatile.mpr ⟨hin, ?_⟩
    obtain ⟨p, hp⟩ := Option.isSome_iff_exists.mp (hs.volatileHot id hin)
    have hsame : p = job := by
      rw [lookup, hp] at hbefore
      exact Option.some.inj hbefore
    replace hsurvives : (!expires s stats retention job) = true := hsurvives
    rw [hhot, hp, hsame, Option.filter_some, if_pos hsurvives]
    rfl

/-- An epoch of the engine's own is what remains on disk. -/
theorem Own.settled {stats : Stats} {retention : Retention} {base : State} (hs : Placed s)
    (h : Settles vm s (some (stats, retention)) base) (hown : Own vm s a stats.recovered.candidate.jobs) (id : JobId) :
    (stats.recovered.candidate.jobs[id]?).map Job.unnumbered = (persistent base id).map Job.unnumbered := by
  obtain ⟨-, hkept, hids⟩ := h.placed hs
  cases hjob : stats.recovered.candidate.jobs[id]? with
  | some job =>
    have hknown := hown.known id job hjob
    obtain ⟨kept, hpersistent, hsame⟩ := Option.map_eq_some_iff.mp hknown
    obtain ⟨hout, hlookup⟩ := persistent_eq_some.mp hpersistent
    have hsurvives : survives s (some (stats, retention)) kept = true := by
      rw [survives, expires, hs.lookup_id hlookup, if_neg hout, hjob]
      simp
    rw [persistent_of_notMem (hids id hout), hkept, hlookup, Option.filter_some, if_pos hsurvives, Option.map_some,
      Option.map_some, hsame]
  | none =>
    cases hbase : persistent base id with
    | none => rfl
    | some kept =>
      obtain ⟨hpersistent, hsurvives⟩ := persistent_settled hs h hbase
      obtain ⟨hout, hlookup⟩ := persistent_eq_some.mp hpersistent
      cases hstate : kept.state.terminal with
      | false =>
        have hsome := hown.running id kept hpersistent hstate
        rw [hjob] at hsome
        cases hsome
      | true =>
        rw [survives, expires, hs.lookup_id hlookup, if_neg hout, hjob, hstate] at hsurvives
        simp at hsurvives

theorem Own.keyed {jobs : Table JobId Job} (hs : Placed s) (h : Own vm s a jobs) : Keyed Job.id jobs := by
  intro id job hjob
  obtain ⟨kept, hkept, hsame⟩ := Option.map_eq_some_iff.mp (h.known id job hjob)
  rw [← (CompactionEstimate.unnumbered_fields hsame).1]
  exact hs.lookup_id (persistent_eq_some.mp hkept).2

/-! ## Commits -/

/-- A commit continues the job: its version is a transition of the one before, but for the times that a
volatile job ends at. -/
theorem commit_transition {p : Job} {e : JobEvent} {given : Option Durability} {env : Environment}
    {c : Committed} (h : commit vm s (some p) e given env = .ok c) :
    ∃ m order limits job, Reducer.transitionJob (some p) m order limits = .ok job ∧
      c.job.insertedAt = job.insertedAt ∧ c.job.definitionBytes = job.definitionBytes := by
  have hdurable : ∀ {a b : Job}, a.durable = b.durable →
      a.insertedAt = b.insertedAt ∧ a.definitionBytes = b.definitionBytes := by
    intro a b heq
    have hinserted := congrArg Job.insertedAt heq
    have hbytes := congrArg Job.definitionBytes heq
    exact ⟨hinserted, hbytes⟩
  unfold commit at h
  split at h
  case h_1 =>
    simp only [commitVolatile, bind_eq_ok, pure_eq_ok] at h
    obtain ⟨m, hm, -, -, predicted, hpredicted, charged, hcharged, -, -, next, -, h⟩ := h
    cases h
    obtain ⟨job, hjob, hsame, -⟩ := Reducer.applyOne_eq_ok vm hpredicted
    obtain ⟨ch, hch⟩ := accountActive_charged vm hcharged
    refine ⟨_, _, _, job, hjob, ?_⟩
    show charged.1.insertedAt = job.insertedAt ∧ charged.1.definitionBytes = job.definitionBytes
    rw [hch]
    exact hdurable hsame
  case h_2 =>
    obtain ⟨q, base, hq, -, hc⟩ := commitV2_landing vm h
    obtain ⟨job, hsame, hjob, -⟩ := hq.transition
    exact ⟨_, _, _, job, hjob, hdurable (hc.job.trans hsame)⟩

/-- What a message publishes continues the version it finds; it is volatile only if nothing is on disk. -/
theorem published_spec (hs : Placed s) {previous : Option Job} {job : Job} {mode : Durability}
    (h : published vm s a = some (previous, job, mode)) :
    (∀ p, previous = some p → p.definitionBytes = job.definitionBytes) ∧
      (mode = .volatile → persistent s job.id = none) := by
  unfold published at h
  split at h
  case h_1 e given env =>
    split at h
    · cases h
    case h_2 hnone =>
      obtain ⟨c, hc, heq⟩ := Option.map_eq_some_iff.mp h
      cases heq
      refine ⟨fun p hp ↦ (by cases hp), fun _ ↦ ?_⟩
      rw [persistent, commit_jobId (toOption_eq_some.mp hc), hnone]
      exact ite_self none
  case h_2 e env =>
    split at h
    · cases h
    case h_2 p hp =>
      obtain ⟨c, hc, heq⟩ := Option.map_eq_some_iff.mp h
      cases heq
      have hcommit := toOption_eq_some.mp hc
      refine ⟨?_, fun hmode ↦ ?_⟩
      · rintro _ ⟨⟩
        obtain ⟨m, order, limits, next, hnext, -, hbytes⟩ := commit_transition hcommit
        exact ((Canonical.transitionJob_kept hnext).2.2.1.symm).trans hbytes.symm
      · have hvolatile : p.id ∈ s.volatileIds := by
          by_contra hout
          rw [commitMode, Option.getD_none, durability, if_neg hout] at hmode
          cases hmode
        rw [persistent, commit_jobId hcommit, ← hs.lookup_id hp, if_pos hvolatile]
  all_goals cases h

/-! ## Every run -/

/-- The jobs of the estimate in which a commit is counted, and the version that the commit replaces. -/
theorem Estimated.Tracks.carried {w : Estimated} (h : w.Tracks) (hs : Placed w.engine) (hown : Owns vm w a)
    {base : State} (hbase : Settles vm w.engine (adoption vm w.engine a) base) :
    ∃ jobs : Table JobId Job, CompactionEstimate.Exact ⟨w.carried vm a, jobs⟩ ∧
      (∀ id : JobId, (jobs[id]?).map Job.unnumbered = (persistent base id).map Job.unnumbered) ∧
      ∀ previous job, published vm w.engine a = some (previous, job, .persistent) →
        previous = persistent w.engine job.id → (jobs[job.id]?).map Job.unnumbered = previous.map Job.unnumbered := by
  obtain ⟨jobs, hexact, hjobs⟩ := h
  cases hadoption : adoption vm w.engine a with
  | none =>
    rw [hadoption] at hbase
    cases hbase
    rw [Estimated.carried, hadoption]
    refine ⟨jobs, hexact, hjobs, fun previous job _ hprevious ↦ ?_⟩
    rw [hprevious, hjobs]
  | some x =>
    obtain ⟨stats, retention⟩ := x
    have hadopted := hown (stats, retention) hadoption
    rw [hadoption] at hbase
    rw [Estimated.carried, hadoption]
    refine ⟨stats.recovered.candidate.jobs, CompactionEstimate.exact_ofJobs (hadopted.keyed hs),
      hadopted.settled hs hbase, fun previous job hpublished hprevious ↦ ?_⟩
    cases hjob : stats.recovered.candidate.jobs[job.id]? with
    | some kept => rw [hprevious, hadopted.known job.id kept hjob, Option.map_some]
    | none =>
      cases hp : previous with
      | none => rfl
      | some p =>
        have hsome := hadopted.named p job (by rw [hpublished, hp])
        rw [hjob] at hsome
        cases hsome

/-- **One message.** -/
theorem Estimated.Tracks.step {w : Estimated} (h : w.Tracks) (hs : Placed w.engine) (hown : Owns vm w a)
    (ht : handle vm w.engine a = .ok t) : (w.observe vm a t).Tracks := by
  rcases handle_lands hs ht with ⟨⟨previous, job, mode⟩, hpublished, hpublishes⟩ | ⟨hnone, hrests⟩
  · obtain ⟨hbytes, hvolatile⟩ := published_spec hs hpublished
    obtain ⟨base, hbase, hhot, hterminal, hids⟩ := hpublishes.landing
    obtain ⟨hplaced, hkept, hout⟩ := hbase.placed hs
    obtain ⟨jobs, hexact, hjobs, hreplaced⟩ := h.carried hs hown hbase
    have hlookup := (hplaced.publish mode (fun p hp ↦ hs.lookup_id (hpublishes.known ▸ hp))
      (fun hnone ↦ by rw [hkept, ← hpublishes.known, hnone]; rfl)
      (fun hmode ↦ hout _ (hpublishes.persistent hmode)) hhot hterminal hids).2
    cases mode with
    | volatile =>
      have hobserved : w.observe vm a t = ⟨t, w.carried vm a⟩ := by rw [observe, hpublished]
      rw [hobserved]
      refine ⟨jobs, hexact, fun id ↦ ?_⟩
      rw [hjobs]
      by_cases hid : job.id = id
      · -- The volatile version hides nothing that is on disk.
        have hbefore : persistent base id = none := by
          cases hp : persistent base id with
          | none => rfl
          | some p =>
            have hknown := (persistent_settled hs hbase hp).1
            rw [← hid, hvolatile rfl] at hknown
            cases hknown
        have hafter : persistent t id = none := if_pos (by
          rw [hids, volatileAfter, hid]
          exact Finset.mem_insert_self id base.volatileIds)
        rw [hbefore, hafter]
      · have hmem : id ∈ t.volatileIds ↔ id ∈ base.volatileIds := by
          rw [hids, volatileAfter, Finset.mem_insert]
          exact or_iff_right fun heq ↦ hid heq.symm
        rw [persistent, persistent, hlookup, if_neg hid]
        simp only [hmem]
    | persistent =>
      have hpersistent := hpublishes.persistent rfl
      have hobserved : w.observe vm a t = ⟨t, (w.carried vm a).replace previous job⟩ := by rw [observe, hpublished]
      have hsame := hreplaced previous job hpublished (hpublishes.known.trans (persistent_of_notMem hpersistent).symm)
      have hkept : ∀ p, jobs[job.id]? = some p → p.definitionBytes = job.definitionBytes := fun p hp ↦ by
        rw [hp, Option.map_some] at hsame
        obtain ⟨q, hq, hqp⟩ := Option.map_eq_some_iff.mp hsame.symm
        rw [← (CompactionEstimate.unnumbered_fields hqp).2.2.2]
        exact hbytes q hq
      have hfeed := hexact.feed hkept
      rw [CompactionEstimate.feed, CompactionEstimate.replace_unnumbered _ hsame] at hfeed
      rw [hobserved]
      refine ⟨_, hfeed, fun id ↦ ?_⟩
      rw [Foundation.Table.get_insert, persistent, hids, volatileAfter, hlookup]
      split
      case isTrue hid => rw [← hid, if_neg (hout _ hpersistent)]
      case isFalse hid => exact hjobs id
  · obtain ⟨base, hbase, hhot, hterminal, hids⟩ := hrests
    obtain ⟨jobs, hexact, hjobs, -⟩ := h.carried hs hown hbase
    have hobserved : w.observe vm a t = ⟨t, w.carried vm a⟩ := by rw [observe, hnone]
    rw [hobserved]
    refine ⟨jobs, hexact, fun id ↦ ?_⟩
    rw [hjobs, persistent, persistent, hids, lookup_congr hhot hterminal]

/-- A generation starts with the recovered jobs, all of them on disk. -/
theorem Estimated.tracks_start {config : Config} {r : Reader.Recovered} (segment : SegmentView)
    (hr : Sound r.candidate) :
    (⟨countInterrupted (init config r segment), .ofJobs r.candidate.jobs⟩ : Estimated).Tracks := by
  refine ⟨r.candidate.jobs, CompactionEstimate.exact_ofJobs fun id job hjob ↦ hr.jobs id job hjob, fun id ↦ ?_⟩
  have hlookup : lookup (countInterrupted (init config r segment)) id = r.candidate.jobs[id]? := by
    simp only [lookup, countInterrupted, init, Std.ExtTreeMap.getElem?_filter']
    cases r.candidate.jobs[id]? with
    | none => rfl
    | some job => cases hstate : job.state.terminal <;> simp [Option.filter_some, hstate]
  rw [persistent_of_notMem (Finset.notMem_empty id), hlookup]

/-- **Every run.** As long as adopted epochs are the engine's own, the estimate is that of its persistent jobs. -/
theorem Estimated.reachable_tracks {w : Estimated} (hw : (estimated vm).ReachableUnder (Owns vm) w) : w.Tracks := by
  refine (Machine.ReachableUnder.invariant (I := fun w ↦ Placed w.engine ∧ w.Tracks) ?_ ?_ hw).2
  · rintro _ ⟨d, config, r, segment, hr, rfl⟩
    have hsound := Reader.recover_sound vm (sound_candidate _ _) hr
    exact ⟨placed_start segment hsound, Estimated.tracks_start segment hsound⟩
  · rintro w a _ ⟨hplaced, htracks⟩ hown hstep
    obtain ⟨t, ht, rfl⟩ := Option.map_eq_some_iff.mp hstep
    have hhandle := toOption_eq_some.mp ht
    have hengine : (w.observe vm a t).engine = t := by
      rw [observe]
      split <;> rfl
    refine ⟨?_, htracks.step hplaced hown hhandle⟩
    rw [hengine]
    rcases handle_placed hplaced hhandle with ⟨job, -, hmoves⟩ | ⟨-, hquiet⟩
    · exact hmoves.placed
    · exact hquiet.placed

end Engine

end Tay
