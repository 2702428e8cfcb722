import Flywheel.Lifecycle

/-!
# The life cycle of a run

What an action can do to the tables of the attempts (`step_write`): InsertRunStub starts a run, the
Finalize that names it records its outcome, a sweep crashes it while it reads started, and a delete
of its job removes it, the last three with its entry in the finish log. No other action touches them
and none writes the rollup's tables. `RunMove` is the same seen from the row under one id.
-/

namespace Flywheel

open Relational Transition Option Table

/-- The tables of the attempts: the runs, their finish log, and their captured lines. -/
structure RunTables where
  runs : Table JobRunRow.id
  finishes : List FinishRow
  runLogs : List RunLogRow

/-- A database's tables of the attempts. -/
def Db.runTables (db : Db) : RunTables where
  runs := db.runs
  finishes := db.finishes
  runLogs := db.runLogs

/-- The tables of the stats rollup, which no job's transaction writes. -/
structure RollupTables where
  progress : Option ProgressRow
  hourly : List StatsHourRow
  errorGroups : List ErrorGroupHourRow

/-- A database's tables of the stats rollup. -/
def Db.rollupTables (db : Db) : RollupTables where
  progress := db.progress
  hourly := db.hourly
  errorGroups := db.errorGroups

variable {a : Action} {c : Commit Unit} {ctx : Context} {db : Db} {id : String} {run : JobRunRow}
  {db' : Db}

theorem JobsOnly.tables (h : JobsOnly db db') :
    db'.runTables = db.runTables ∧ db'.rollupTables = db.rollupTables := by
  rw [h]
  exact ⟨rfl, rfl⟩

/-! ## What a transaction writes -/

/-- What an action's transaction leaves in the tables of the attempts. -/
inductive RunWrite (db : Db) : Action → RunTables → Prop where
  | keep (a : Action) : RunWrite db a db.runTables
  | stub (runID : String) (raw : RawJob) (startedAt : Time) (executorClass executorID : String) :
      RunWrite db (.insertRunStub runID raw startedAt executorClass executorID) { db.runTables with
          runs := db.runs.insert runClash (runStub runID raw startedAt executorClass executorID) }
  | finish (opts : DriverOpts) (ctx : Context) (raw : RawJob) (runID : String) (result : Result)
      (workErr : Option WorkError) (finishedAt : Time) (durationMs : ℤ) (enqueued : ℕ) :
      RunWrite db (.finalize opts ctx raw runID result workErr finishedAt)
        (finalizeRunRow runID (runFinalizeUpdate ctx.errorHash
          (planFinalize ctx raw result workErr finishedAt) result workErr raw.kind finishedAt
          durationMs enqueued !db.claimHeld raw.id raw.leaseToken) db).runTables
  | crash (dialect : Dialect) (scan : Scan) (opts : DriverOpts) (ctx : Context) (now : Time)
      (limit : ℕ) (jobs : List ReclaimedJob) :
      RunWrite db (.sweep dialect scan opts ctx now limit) (crashStaleStubs jobs now db).runTables
  | delete (a : Action) (ids : List String) (kind : a.kind = some .delete) :
      RunWrite db a (deleteJobRows ids db).runTables

theorem RunWrite.of_jobsOnly (h : JobsOnly db db') :
    RunWrite db a db'.runTables ∧ db'.rollupTables = db.rollupTables := by
  obtain ⟨hruns, hrollup⟩ := h.tables
  rw [hruns]
  exact ⟨.keep a, hrollup⟩

theorem changeTo_jobsOnly {action : AuditAction} {acts : List JobState} {already : JobRow → Bool}
    {upd : Time → Patch JobRow.id} {details : JobRow → List (String × Json)}
    (h : controlJob ctx action id acts (changeTo already upd details) db = .ok c) :
    JobsOnly db c.db := by
  obtain ⟨-, hdb | ⟨job, db', d, -, -, hchange, hdb⟩⟩ := controlJob_spec h
  · rw [hdb]
    rfl
  · rw [JobsOnly, hdb, (changeTo_spec hchange).2]

/-- What every committed transaction leaves in the tables of the attempts; it leaves those of the
rollup alone. -/
theorem exec_write (h : a.exec db = .ok c) :
    RunWrite db a c.db.runTables ∧ c.db.rollupTables = db.rollupTables := by
  cases a with
  | insert ctx items =>
    obtain ⟨⟨db', landed⟩, hins, rfl⟩ := map_eq_ok.mp h
    obtain ⟨rows, -, hins⟩ := bind_eq_ok.mp hins
    refine RunWrite.of_jobsOnly ?_
    unfold JobsOnly
    rw [conflictInsertChunk_spec hins]
  | dequeue dialect scan ctx req =>
    cases h
    refine RunWrite.of_jobsOnly ?_
    unfold JobsOnly Commit.drop
    rw [(dequeue_spec dialect scan ctx req db).2.1]
    rfl
  | insertRunStub runID raw startedAt executorClass executorID =>
    rw [(insertRunStub_spec h).2.2]
    exact ⟨.stub runID raw startedAt executorClass executorID, rfl⟩
  | renewLease ctx jobID leaseToken expiry =>
    cases h
    exact ⟨.keep _, rfl⟩
  | finalize opts ctx raw runID result workErr finishedAt =>
    obtain ⟨c, hc, rfl⟩ := map_eq_ok.mp h
    obtain ⟨stub, -, -, n, -, -, -, -, hjobs, -⟩ := finalize_spec hc
    unfold Commit.drop
    rw [hjobs.tables.1, hjobs.tables.2]
    exact ⟨.finish opts ctx raw runID result workErr finishedAt _ n, rfl⟩
  | sweep dialect scan opts ctx now limit =>
    obtain ⟨c, hc, rfl⟩ := map_eq_ok.mp h
    unfold Commit.drop
    rcases sweepBatch_spec hc with ⟨-, hdb, -⟩ | ⟨-, -, hjobs⟩
    · rw [hdb]
      exact ⟨.keep _, rfl⟩
    · rw [hjobs.tables.1, hjobs.tables.2]
      exact ⟨.crash dialect scan opts ctx now limit _, rfl⟩
  | cancelJob ctx jobID =>
    obtain ⟨-, -, -, -, hjobs⟩ := cancelJob_spec h
    exact RunWrite.of_jobsOnly hjobs
  | retryJob ctx jobID opts =>
    obtain ⟨-, -, -, -, -, hjobs, -⟩ := retryJobWithOptions_spec h
    exact RunWrite.of_jobsOnly hjobs
  | rescheduleJob | setJobPriority =>
    obtain ⟨-, -, h⟩ := bind_eq_ok.mp h
    obtain ⟨-, -, h⟩ := bind_eq_ok.mp h
    exact RunWrite.of_jobsOnly (changeTo_jobsOnly h)
  | pauseJob | resumeJob => exact RunWrite.of_jobsOnly (changeTo_jobsOnly h)
  | deleteJob ctx jobID =>
    obtain ⟨-, hdb | ⟨job, -, -, hdb⟩⟩ := deleteJob_spec h
    · rw [hdb]
      exact ⟨.keep _, rfl⟩
    · rw [hdb]
      exact ⟨.delete _ [job.id] rfl, rfl⟩
  | scope scan ctx parentID control batchSize =>
    obtain ⟨c, hc, rfl⟩ := map_eq_ok.mp h
    rcases scopeBatch_spec hc with ⟨hdb, -⟩ | ⟨-, -, -, hjobs⟩
    · exact RunWrite.of_jobsOnly (hdb ▸ rfl)
    · exact RunWrite.of_jobsOnly hjobs
  | replay ctx opts pos batchSize =>
    obtain ⟨c, hc, rfl⟩ := map_eq_ok.mp h
    exact RunWrite.of_jobsOnly (replayBatch_spec hc).2.1
  | bulk ctx run ids =>
    obtain ⟨c, hc, rfl⟩ := map_eq_ok.mp h
    unfold Commit.drop
    rcases applyBatch_spec hc with ⟨hdb, -⟩ | ⟨hdelete, -, -, hdb⟩ | ⟨-, -, -, hjobs, -⟩
    · rw [hdb]
      exact ⟨.keep _, rfl⟩
    · rw [hdb]
      refine ⟨.delete _ (run.change ids db) ?_, rfl⟩
      simp [Action.kind, hdelete, BulkAction.kind]
    · exact RunWrite.of_jobsOnly hjobs

/-- What every step, committed or rolled back, leaves in the tables of the attempts. -/
theorem step_write (db : Db) (a : Action) : RunWrite db a (step db a).runTables :=
  settle_induction (P := fun db' : Db => RunWrite db a db'.runTables) (.keep a) fun _ hc =>
    (exec_write hc).1

/-! ## One run -/

/-- One move of a run, with the action that makes it. -/
inductive RunMove : Action → Option JobRunRow → Option JobRunRow → Prop where
  | keep (a : Action) (stored : Option JobRunRow) : RunMove a stored stored
  | start (runID : String) (raw : RawJob) (startedAt : Time) (executorClass executorID : String) :
      RunMove (.insertRunStub runID raw startedAt executorClass executorID) none
        (some (runStub runID raw startedAt executorClass executorID))
  | finish {r : JobRunRow} (opts : DriverOpts) (ctx : Context) (raw : RawJob) (result : Result)
      (workErr : Option WorkError) (finishedAt : Time) (durationMs : ℤ) (enqueued : ℕ)
      (superseded : Bool) :
      RunMove (.finalize opts ctx raw r.id result workErr finishedAt) (some r)
        (some ((runFinalizeUpdate ctx.errorHash (planFinalize ctx raw result workErr finishedAt)
          result workErr raw.kind finishedAt durationMs enqueued superseded).apply r))
  | crash {r : JobRunRow} (dialect : Dialect) (scan : Scan) (opts : DriverOpts) (ctx : Context)
      (now : Time) (limit : ℕ) (state : Option JobState) (started : r.outcome = .started) :
      RunMove (.sweep dialect scan opts ctx now limit) (some r)
        (some { r with outcome := .crashed, finishedAt := some now, jobState := state })
  | delete {r : JobRunRow} (a : Action) (kind : a.kind = some .delete) : RunMove a (some r) none

theorem staleStubOf_started {jobs : List ReclaimedJob}
    (h : (staleStubOf jobs run).isSome = true) : run.outcome = .started := by
  obtain ⟨j, hj⟩ := isSome_iff_exists.mp h
  have := List.find?_some hj
  simp_all

/-- What a transaction writes moves the run under every id. -/
theorem RunWrite.move {after : RunTables} (h : RunWrite db a after) (id : String) :
    RunMove a (db.runs.get? id) (after.runs.get? id) := by
  cases h with
  | keep => exact .keep _ _
  | stub runID raw startedAt executorClass executorID =>
    cases hold : db.runs.get? id with
    | some r =>
      rw [get?_insert_of_some runClash hold]
      exact .keep _ _
    | none =>
      rw [get?_insert, hold]
      split_ifs
      · exact .start runID raw startedAt executorClass executorID
      · exact .keep _ _
  | finish opts ctx raw runID result workErr finishedAt durationMs enqueued =>
    unfold finalizeRunRow Db.runTables
    rw [logFinishes_runs, get?_update]
    cases db.runs.get? id with
    | none => exact .keep _ _
    | some r =>
      rw [map_some]
      split_ifs with hid
      · obtain rfl := of_decide_eq_true hid
        exact .finish opts ctx raw result workErr finishedAt _ _ _
      · exact .keep _ _
  | crash dialect scan opts ctx now limit jobs =>
    unfold crashStaleStubs Db.runTables
    rw [logFinishes_runs, get?_update]
    cases db.runs.get? id with
    | none => exact .keep _ _
    | some r =>
      rw [map_some]
      split_ifs with hstale
      · exact .crash dialect scan opts ctx now limit _ (staleStubOf_started hstale)
      · exact .keep _ _
  | delete _ ids kind =>
    unfold deleteJobRows Db.runTables
    rw [get?_delete]
    cases db.runs.get? id with
    | none => exact .keep _ _
    | some r =>
      rw [filter_some]
      split_ifs
      · exact .keep _ _
      · exact .delete a kind

/-- Every step, committed or rolled back, moves the run under every id. -/
theorem step_run (db : Db) (a : Action) (id : String) :
    RunMove a (db.runs.get? id) ((step db a).runs.get? id) := (step_write db a).move id

/-- A run after a step was there before it, at the same attempt of the same job, or is the stub that
the step inserts. -/
theorem run_origin (h : (step db a).runs.get? id = some run) :
    (∃ old, db.runs.get? id = some old ∧ old.jobID = run.jobID ∧ old.attempt = run.attempt) ∨
    (∃ runID raw startedAt executorClass executorID,
      a = .insertRunStub runID raw startedAt executorClass executorID ∧
      run = runStub runID raw startedAt executorClass executorID) := by
  have hmove := step_run db a id
  rw [h] at hmove
  generalize db.runs.get? id = stored at hmove
  cases hmove with
  | keep => exact .inl ⟨run, rfl, rfl, rfl⟩
  | start runID raw startedAt executorClass executorID =>
    exact .inr ⟨runID, raw, startedAt, executorClass, executorID, rfl, rfl⟩
  | @finish r | @crash r => exact .inl ⟨r, rfl, rfl, rfl⟩

end Flywheel
