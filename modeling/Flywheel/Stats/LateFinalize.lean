import Flywheel.Fencing
import Flywheel.FinishLog
import Flywheel.Library.Lists
import Flywheel.Stats.Aggregate

/-!
# A late Finalize and the stats

A sweep that reclaims a job crashes the stub of its attempt, with a finish and the state that the
reclaim applied. The attempt may still end, and its Finalize is then superseded: it rewrites the
run's outcome, duration, cost and error, but neither its finish, its job state nor its wait. Those
are what a reclaimed run counts by (`WindowRow.Alike`), so that the aggregates of every window stay,
and the run is a crash for the sweep's own budget as before.
-/

namespace Flywheel

open Relational Transition List Option Table

/-! ## Rows that count alike -/

/-- The two rows count alike: in the same group, with the same effect, and as the same failure or
none. -/
structure WindowRow.Alike (w w' : WindowRow) : Prop where
  group : w.group = w'.group
  observe : ∀ a : RunAgg, a.observe w = a.observe w'
  failed : w = w' ∨ (w.failed = false ∧ w'.failed = false)

theorem WindowRow.Alike.refl (w : WindowRow) : w.Alike w := ⟨rfl, fun _ => rfl, .inl rfl⟩

theorem WindowRow.Alike.of_crashed {w w' : WindowRow} (hgroup : w.group = w'.group)
    (hid : w.id = w'.id) (hstate : w.jobState = w'.jobState)
    (hwait : w.queueWaitMs = w'.queueWaitMs) (hw : w.crashed = true) (hw' : w'.crashed = true) :
    w.Alike w' := by
  have hnot : ∀ v : WindowRow, v.crashed = true → v.failed = false := by
    intro v hv
    simp only [WindowRow.crashed, Bool.or_eq_true, Bool.and_eq_true, decide_eq_true_eq] at hv
    grind [WindowRow.failed, failedOutcome]
  refine ⟨hgroup, fun a => ?_, .inr ⟨hnot w hw, hnot w' hw'⟩⟩
  rw [RunAgg.observe, RunAgg.observe, if_pos hw, if_pos hw', hid, hstate, hwait]

variable {db : Db} {ws ws' : List WindowRow} {raw : RawJob} {id : String} {r : JobRunRow}

section

variable (h : List.Forall₂ WindowRow.Alike ws ws')

include h

theorem alike_filter (p : StatsGroup → Bool) :
    List.Forall₂ WindowRow.Alike (ws.filter fun w => p w.group)
      (ws'.filter fun w => p w.group) := by
  induction h with
  | nil => exact .nil
  | @cons w w' ws ws' hw _ ih =>
    rw [filter_cons, filter_cons, ← hw.group]
    split_ifs
    · exact .cons hw ih
    · exact ih

theorem alike_failures : ws.filter WindowRow.failed = ws'.filter WindowRow.failed := by
  induction h with
  | nil => rfl
  | @cons w w' ws ws' hw _ ih =>
    rcases hw.failed with rfl | ⟨hleft, hright⟩
    · rw [filter_cons, filter_cons, ih]
    · rw [filter_cons_of_neg (by simp [hleft]), filter_cons_of_neg (by simp [hright]), ih]

theorem aggregateRows_congr (hash : ErrorHash) (counts : Dict StatsGroup ℤ) :
    aggregateRows hash ws counts = aggregateRows hash ws' counts := by
  have hruns : Dict.empty.collect WindowRow.group newRunAgg RunAgg.observe ws =
      Dict.empty.collect WindowRow.group newRunAgg RunAgg.observe ws' :=
    Dict.collect_congr (h.imp fun _ _ hw => ⟨hw.group, hw.observe⟩) Dict.empty
  rw [aggregateRows, aggregateRows, hruns, alike_failures h]

end

/-- Databases with the same jobs whose rows count alike have the same aggregates. -/
theorem aggregateWindow_congr {db' : Db} {start stop : Time}
    (hrows : List.Forall₂ WindowRow.Alike (runWindow start stop db) (runWindow start stop db'))
    (hjobs : db.jobs = db'.jobs) (hash : ErrorHash) (f : StatsFilter) :
    aggregateWindow hash start stop f db = aggregateWindow hash start stop f db' := by
  have hcount : countEnqueued start stop f db = countEnqueued start stop f db' := by
    simp only [countEnqueued, insertedJobs, hjobs]
  unfold aggregateWindow
  rw [aggregateRows_congr (alike_filter hrows f.admits), hcount]

/-! ## A crash in the aggregate and in the budget -/

theorem observeAttempt_crashed (a : RunAgg) (id : String) (outcome : RunOutcome) (superseded : Bool)
    (jobState : Option JobState) (duration wait cost : Option ℤ) :
    (a.observeAttempt id outcome superseded jobState duration wait cost).crashed =
      a.crashed + if superseded = false ∧ outcome = .crashed then 1 else 0 := by
  unfold RunAgg.observeAttempt
  cases superseded with
  | true => simp
  | false =>
    rw [if_neg Bool.false_ne_true]
    -- no step after the outcome's counter touches the crashes
    rw [RunAgg.withValue_keeps RunAgg.crashed RunAgg.addCost fun _ _ => rfl,
      RunAgg.withValue_keeps RunAgg.crashed RunAgg.observeWait fun _ _ => rfl]
    cases outcome with
    | success =>
      rw [if_pos rfl, RunAgg.withValue_keeps RunAgg.crashed (RunAgg.observeDuration id) fun _ _ =>
        rfl]
      split_ifs <;> simp_all [RunAgg.countOutcome]
    | _ => split_ifs <;> simp_all [RunAgg.countOutcome]

/-- A row is a crash to the aggregate exactly when its run is one to the sweep's budget. -/
theorem windowRow_crashed (jobs : Table JobRow.id) (finishedAt : Time) (r : JobRunRow) :
    (windowRow jobs finishedAt r).crashed = r.crashedRun := by
  have hstate : (r.superseded && (resolvedJobState jobs r).isSome) =
      (r.superseded && r.jobState.isSome) := by
    unfold resolvedJobState
    grind
  exact congrArg (decide (r.outcome = .crashed) || ·) hstate

theorem observe_crashedRun (a : RunAgg) (jobs : Table JobRow.id) (finishedAt : Time)
    (r : JobRunRow) : (a.observe (windowRow jobs finishedAt r)).crashed =
      a.crashed + if r.crashedRun then 1 else 0 := by
  rw [← windowRow_crashed jobs finishedAt r, RunAgg.observe]
  split_ifs with hcrashed
  · rw [observeAttempt_crashed, if_pos ⟨rfl, rfl⟩]
  · simp_all [observeAttempt_crashed, WindowRow.crashed]

/-! ## The reclaimed run -/

/-- What the row of a run that a sweep crashed says from then on. -/
structure JobRunRow.Reclaimed (r : JobRunRow) : Prop where
  crashed : r.crashedRun = true
  ended : r.outcome ≠ .started
  finished : r.finishedAt.isSome = true
  state : r.jobState.isSome = true

theorem JobRunRow.Reclaimed.finish (h : r.Reclaimed) (hash : ErrorHash) (ctx : Context)
    (raw : RawJob) (result : Result) (workErr : Option WorkError) (finishedAt : Time)
      (durationMs : ℤ)
    (enqueued : ℕ) :
    ((runFinalizeUpdate hash (planFinalize ctx raw result workErr finishedAt) result
      workErr raw.kind finishedAt durationMs enqueued true).apply r).Reclaimed where
  crashed := by simp [JobRunRow.crashedRun, runFinalizeUpdate, h.state]
  ended := planFinalize_outcome ctx raw result workErr finishedAt
  finished := by
    simp_all [runFinalizeUpdate]
  state := h.state

theorem JobRunRow.Reclaimed.alike (h : r.Reclaimed) (hash : ErrorHash)
    (ctx : Context) (raw : RawJob) (result : Result) (workErr : Option WorkError)
    (finishedAt : Time) (durationMs : ℤ) (enqueued : ℕ) (jobs : Table JobRow.id) (loggedAt : Time) :
    (windowRow jobs loggedAt r).Alike (windowRow jobs loggedAt
      ((runFinalizeUpdate hash (planFinalize ctx raw result workErr finishedAt) result
        workErr raw.kind finishedAt durationMs enqueued true).apply r)) := by
  have hafter := h.finish hash ctx raw result workErr finishedAt durationMs enqueued
  refine .of_crashed rfl rfl ?_ rfl ?_ ?_
  · -- the job state is the run's own on both sides, and a superseded Finalize writes none
    simp only [windowRow, resolvedJobState]
    rw [if_pos h.state, if_pos hafter.state]
    rfl
  · rw [windowRow_crashed, h.crashed]
  · rw [windowRow_crashed, hafter.crashed]

/-- A run that reads started before a sweep's batch and crashed after it is reclaimed, and the job
that it was an attempt of carries no token. -/
theorem sweep_reclaims {dialect : Dialect} {scan : Scan} {opts : DriverOpts} {ctx : Context}
    {now : Time} {limit : ℕ} {stub crashed : JobRunRow} (hstub : db.runs.get? id = some stub)
    (hstarted : stub.outcome = .started)
    (hcrashed : (step db (.sweep dialect scan opts ctx now limit)).runs.get? id = some crashed)
    (hcrash : crashed.outcome = .crashed) :
    crashed.Reclaimed ∧ ∀ token, Tokenless token
      ((step db (.sweep dialect scan opts ctx now limit)).jobs.get? stub.jobID) := by
  have hsame : stub ≠ crashed := by
    grind
  cases hexec : (Action.sweep dialect scan opts ctx now limit).exec db with
  | error e =>
    rw [step_of_error hexec, hstub] at hcrashed
    exact absurd (some.inj hcrashed) hsame
  | ok c =>
    rw [step_of_ok hexec] at hcrashed ⊢
    obtain ⟨c, hc, rfl⟩ := map_eq_ok.mp hexec
    rcases sweepBatch_spec hc with ⟨-, hdb, -⟩ | ⟨-, heffect, hjobs⟩
    · grind [Commit.drop]
    · rw [Commit.drop, hjobs, crashStaleStubs, logFinishes_runs, get?_update,
        show (reclaimRows _ _ _ db).runs = db.runs from rfl, hstub, map_some] at hcrashed
      split_ifs at hcrashed with hstale
      · cases hcrashed
        obtain ⟨job, hjob⟩ := isSome_iff_exists.mp hstale
        refine ⟨⟨?_, ?_, ?_, ?_⟩, fun token => ?_⟩
        · simp [JobRunRow.crashedRun]
        · exact RunOutcome.noConfusion
        · rfl
        · simp [hjob]
        · -- the stub's job is one of those that the batch reclaims
          have hfound := find?_some hjob
          obtain ⟨hjobID, -, -⟩ := of_decide_eq_true hfound
          obtain ⟨r, hr, rfl⟩ := List.mem_map.mp (mem_of_find?_eq_some hjob)
          rw [mem_insertionSort] at hr
          obtain ⟨k, after, hfires, hjobs⟩ := heffect
          rw [Commit.drop, hjobs]
          refine (upkeep_fireEach hfires stub.jobID).tokenless ?_
          intro row hrow
          rw [crashStaleStubs, logFinishes_jobs, reclaimRows, get?_update, hjobID,
            show (reclaimedJob opts db r).id = r.id from rfl,
            get?_key (mem_expiredRows hr).1, map_some,
            if_pos (contains_iff_mem.mpr (List.mem_map_of_mem hr))] at hrow
          cases hrow
          exact some_ne_none _ ∘ Eq.symm
      · exact absurd (some.inj hcrashed) hsame

/-! ## Histories with a late Finalize -/

/-- The action leaves the id of a run to its attempt: it starts no other run under the id, and
finalizes the run under the attempt's own claim alone. -/
def Action.Leaves (id : String) (raw : RawJob) : Action → Prop
  | .insertRunStub runID _ _ _ _ => runID ≠ id
  | .finalize _ _ raw' runID _ _ _ =>
    runID = id → raw'.id = raw.id ∧ raw'.leaseToken = raw.leaseToken
  | _ => True

instance (id : String) (raw : RawJob) (a : Action) : Decidable (a.Leaves id raw) := by
  unfold Action.Leaves
  split <;> infer_instance

/-- In the history `pre`, `sweep`, `post`, whose lease tokens are minted once, the sweep crashes the
run `id` of a claim `raw` that was issued before it, and what follows leaves the run to its
attempt. -/
structure SweptRun (pre : List Action) (sweep : Action) (post : List Action) (raw : RawJob)
    (id : String) : Prop where
  minted : ((pre ++ sweep :: post).flatMap Action.minted).Nodup
  issued : raw.leaseToken ∈ pre.flatMap Action.minted
  sweeps : ∃ dialect scan opts ctx now limit, sweep = .sweep dialect scan opts ctx now limit
  crashes : ∃ stub crashed, (({} : Db).after pre).runs.get? id = some stub ∧
    stub.jobID = raw.id ∧ stub.outcome = .started ∧
    (({} : Db).after (pre ++ [sweep])).runs.get? id = some crashed ∧ crashed.outcome = .crashed
  own : ∀ a ∈ post, a.Leaves id raw

/-- Where the claim is gone, an action that leaves the run to its attempt leaves it reclaimed. -/
theorem reclaimed_step {a : Action} (hrun : ∀ r, db.runs.get? id = some r → r.Reclaimed)
    (hgone : db.claimHeld raw.id raw.leaseToken = false) (hleaves : a.Leaves id raw) :
    ∀ r, (step db a).runs.get? id = some r → r.Reclaimed := by
  have hwrite := step_write db a
  intro r hr
  change (step db a).runTables.runs.get? id = some r at hr
  generalize (step db a).runTables = after at hwrite hr
  cases hwrite with
  | keep => exact hrun r hr
  | stub runID raw' startedAt executorClass executorID =>
    rcases get?_insert_cases runClash hr with hold | ⟨-, -, hid, -⟩
    · exact hrun r hold
    · exact absurd hid hleaves
  | finish opts ctx raw' runID result workErr finishedAt durationMs enqueued =>
    change (db.runs.update _ _).get? id = some r at hr
    rw [get?_update] at hr
    obtain ⟨old, hold, rfl⟩ := map_eq_some_iff.mp hr
    split_ifs with hid
    · have hclaim := hleaves (by rw [← of_decide_eq_true hid, key_of_get? hold])
      rw [hclaim.1, hclaim.2, hgone]
      exact (hrun old hold).finish _ ctx raw' result workErr finishedAt durationMs enqueued
    · exact hrun old hold
  | crash dialect scan opts ctx now limit jobs =>
    change (db.runs.update _ _).get? id = some r at hr
    rw [get?_update] at hr
    obtain ⟨old, hold, rfl⟩ := map_eq_some_iff.mp hr
    split_ifs with hstale
    · exact absurd (staleStubOf_started hstale) (hrun old hold).ended
    · exact hrun old hold
  | delete _ ids kind =>
    change (db.runs.delete _).get? id = some r at hr
    rw [get?_delete] at hr
    exact hrun r (filter_eq_some_iff.mp hr).1

theorem Tokenless.gone {token : String} (h : Tokenless token (db.jobs.get? id)) :
    db.claimHeld id token = false := by
  rw [← Bool.not_eq_true, claimHeld_iff]
  exact h.not_running

/-- A history that leaves the run to its attempt, and does not mint the claim's token, leaves the
run reclaimed. -/
theorem reclaimed_after {history : List Action} (hrun : ∀ r, db.runs.get? id = some r → r.Reclaimed)
    (htoken : Tokenless raw.leaseToken (db.jobs.get? raw.id))
    (hmint : raw.leaseToken ∉ history.flatMap Action.minted)
    (hleaves : ∀ a ∈ history, a.Leaves id raw) :
    ∀ r, (db.after history).runs.get? id = some r → r.Reclaimed := by
  induction history generalizing db with
  | nil => exact hrun
  | cons a history ih =>
    rw [flatMap_cons, mem_append, not_or] at hmint
    refine ih ?_ (step_tokenless hmint.1 htoken) hmint.2 fun b hb =>
      hleaves b (mem_cons_of_mem _ hb)
    exact reclaimed_step hrun htoken.gone (hleaves a mem_cons_self)

/-- After the history, the run is reclaimed if it is still there, and its claim is gone. -/
theorem SweptRun.reclaimed {pre post : List Action} {sweep : Action}
    (h : SweptRun pre sweep post raw id) :
    (∀ r, (({} : Db).after (pre ++ sweep :: post)).runs.get? id = some r → r.Reclaimed) ∧
      (({} : Db).after (pre ++ sweep :: post)).claimHeld raw.id raw.leaseToken = false := by
  obtain ⟨dialect, scan, opts, ctx, now, limit, rfl⟩ := h.sweeps
  obtain ⟨stub, crashed, hstub, hjob, hstarted, hcrashed, hcrash⟩ := h.crashes
  rw [after_append_cons] at hcrashed
  change (step _ _).runs.get? id = some crashed at hcrashed
  obtain ⟨hreclaimed, htokens⟩ := sweep_reclaims hstub hstarted hcrashed hcrash
  have htoken := htokens raw.leaseToken
  rw [hjob] at htoken
  have hmint : raw.leaseToken ∉ post.flatMap Action.minted := by
    have hnodup := h.minted
    rw [flatMap_append, flatMap_cons] at hnodup
    intro hpost
    exact disjoint_of_nodup_append hnodup h.issued (mem_append_right _ hpost)
  rw [after_append_cons]
  refine ⟨reclaimed_after ?_ htoken hmint h.own, (after_tokenless hmint htoken).gone⟩
  simp_all

theorem finishLog_after_actions (history : List Action) :
    FinishLog (({} : Db).after history).runTables :=
  run_invariant (I := fun db : Db => FinishLog db.runTables) (fun _ a h => h.step (.act a))
    FinishLog.empty history

/-- A Finalize of a reclaimed run whose claim is gone keeps the jobs and the finish log, and every
run counts as before. -/
theorem late_finalize_alike (hlog : FinishLog db.runTables)
    (hrun : ∀ r, db.runs.get? id = some r → r.Reclaimed)
    (hgone : db.claimHeld raw.id raw.leaseToken = false) (opts : DriverOpts) (ctx : Context)
    (result : Result) (workErr : Option WorkError) (finishedAt : Time) (start stop : Time) :
    let after := step db (.finalize opts ctx raw id result workErr finishedAt)
    after.jobs = db.jobs ∧
      List.Forall₂ WindowRow.Alike (runWindow start stop db) (runWindow start stop after) := by
  intro after
  have hjobs : after.jobs = db.jobs := by
    refine (presented_gone rfl ?_).1
    rwa [← claimHeld_iff, Bool.not_eq_true]
  refine ⟨hjobs, ?_⟩
  have hwrite : RunWrite db _ after.runTables := step_write db _
  have hruns : after.runTables.runs = after.runs := rfl
  have hfinishes : after.runTables.finishes = after.finishes := rfl
  generalize after.runTables = tables at hwrite hruns hfinishes
  unfold runWindow
  rw [hjobs, ← hruns, ← hfinishes]
  cases hwrite with
  | keep => simp_all [Db.runTables, WindowRow.Alike.refl]
  | delete _ ids kind => cases kind
  | finish _ _ _ _ _ _ _ durationMs enqueued =>
    -- the run's entry is logged already
    have hsame : (finalizeRunRow id (runFinalizeUpdate ctx.errorHash
        (planFinalize ctx raw result workErr finishedAt) result workErr raw.kind finishedAt
          durationMs
        enqueued !db.claimHeld raw.id raw.leaseToken) db).finishes = db.finishes := by
      change db.finishes ++ (finishEntries [id] _).filter (fun e => e ∉ db.finishes) = db.finishes
      rw [append_right_eq_self, filter_eq_nil_iff]
      intro e he
      obtain ⟨hid, run, hget, ht⟩ := mem_finishEntries.mp he
      rw [get?_update] at hget
      obtain ⟨old, hold, rfl⟩ := map_eq_some_iff.mp hget
      have hlogged : e ∈ db.finishes := by
        refine (hlog.mem_iff e).mpr ⟨old, hold, ?_⟩
        split_ifs at ht with hold'
        · rw [mem_singleton.mp hid] at hold
          obtain ⟨t, hfinished⟩ := isSome_iff_exists.mp (hrun old hold).finished
          simp_all [runFinalizeUpdate]
        · exact ht
      simp [hlogged]
    change List.Forall₂ _ _ (((finalizeRunRow id _ db).finishes.filter _).filterMap fun e =>
      ((db.runs.update _ _).get? e.runID).map (windowRow db.jobs e.finishedAt))
    rw [hsame]
    refine forall₂_filterMap _ fun e _ => ?_
    rw [get?_update]
    cases hget : db.runs.get? e.runID with
    | none => exact .none
    | some r =>
      rw [map_some, map_some, map_some]
      refine .some ?_
      split_ifs with hid
      · have hr : db.runs.get? id = some r := by
          rw [← of_decide_eq_true hid, key_of_get? hget, hget]
        rw [hgone]
        exact (hrun r hr).alike _ ctx raw result workErr finishedAt durationMs enqueued _ _
      · exact .refl _

/-- **A late Finalize changes no hour.** After a sweep crashed a run, every Finalize of its attempt
leaves the aggregates of every window, of the kinds and queues and of the error groups, as they
were; the run, while it is stored, is a crash to the sweep's budget before and after it; and the
budget counts every run as a crash exactly when the aggregate does. -/
theorem late_finalize_changes_no_hour {pre post : List Action} {sweep : Action} {raw : RawJob}
    {id : String} (h : SweptRun pre sweep post raw id) (opts : DriverOpts) (ctx : Context)
    (result : Result) (workErr : Option WorkError) (finishedAt : Time) :
    let before := ({} : Db).after (pre ++ sweep :: post)
    let after := step before (.finalize opts ctx raw id result workErr finishedAt)
    (∀ hash start stop f,
      aggregateWindow hash start stop f after = aggregateWindow hash start stop f before) ∧
    (∀ run, before.runs.get? id = some run → run.crashedRun = true) ∧
    (∀ run, after.runs.get? id = some run → run.crashedRun = true) ∧
    (∀ (run : JobRunRow) (a : RunAgg) (jobs : Table JobRow.id) (t : Time),
      (a.observe (windowRow jobs t run)).crashed = a.crashed + if run.crashedRun then 1
        else 0) := by
  intro before after
  obtain ⟨hrun, hgone⟩ := h.reclaimed
  refine ⟨fun hash start stop f => ?_, fun run hr => (hrun run hr).crashed, fun run hr => ?_,
    fun run a jobs t => observe_crashedRun a jobs t run⟩
  · grind [late_finalize_alike, finishLog_after_actions, aggregateWindow_congr]
  · have hleaves : (Action.finalize opts ctx raw id result workErr finishedAt).Leaves id raw :=
      fun _ => ⟨rfl, rfl⟩
    exact (reclaimed_step hrun hgone hleaves run hr).crashed

/-- The job inserted, claimed and started. -/
def startedAttempt : List Action :=
  [.insert { newID := fun _ => "job" } [{ kind := "spawn", args := .null }],
   .dequeue .postgres {} { newID := fun _ => "token" } { queues := ["default"], lease := minute },
   .insertRunStub "run" (firstClaim "job" "spawn" "token") 0 "" "executor"]

/-- The sweep that finds its lease expired. -/
def expiredSweep : Action := .sweep .postgres {} {} {} (2 * minute) 10

/-- The attempt succeeds after all, at three minutes. -/
theorem late_success_changes_no_hour :
    let before := ({} : Db).after (startedAttempt ++ expiredSweep :: [])
    let after := step before (.finalize {} {} (firstClaim "job" "spawn" "token") "run" {} none
      (3 * minute))
    (∀ hash start stop f,
      aggregateWindow hash start stop f after = aggregateWindow hash start stop f before) ∧
    (∀ run, before.runs.get? "run" = some run → run.crashedRun = true) ∧
    (∀ run, after.runs.get? "run" = some run → run.crashedRun = true) ∧
    (∀ (run : JobRunRow) (a : RunAgg) (jobs : Table JobRow.id) (t : Time),
      (a.observe (windowRow jobs t run)).crashed = a.crashed + if run.crashedRun then 1
        else 0) := by
  refine late_finalize_changes_no_hour ⟨by decide, by decide, ⟨_, _, _, _, _, _, rfl⟩, ?_, by simp⟩
    {} {} {} none (3 * minute)
  exact ⟨_, _, rfl, rfl, rfl, rfl, rfl⟩

end Flywheel
