import Flywheel.Barrier.Statements
import Flywheel.Library.Beside

/-!
# The controls, statement by statement

The transactions of the controls on PostgreSQL, cut at their statements: a control picks its rows
without a lock, locks them and reads them again, changes those that its guard still matches, checks
the barriers that a cancel may have completed, and records what it changed. A statement takes its
rows one by one, and between any two of its steps others may commit. A write on `jobs` says what it
is, a control's change or a barrier check's. A statement that fails, be it for a unique index, a
deadlock or a lost connection, ends the transaction without a commit, and so may any point of it; a
failure is therefore no branch of its own, but for those that the code itself decides.
-/

namespace Flywheel

open Relational Transition ReadCommitted

/-- What a control writes. -/
inductive ControlWrite where
  /-- The version of a row that the control's own UPDATE leaves. -/
  | update (r : JobRow)
  /-- What a barrier check writes: its continuation, or the parent without its barrier. -/
  | barrier (r : JobRow)
  | deleteJob (id : String)
  | deleteRun (id : String)
  | deleteLine (l : RunLogRow)
  | deleteFinish (e : FinishRow)
  | audit (e : AuditRow)

/-- The tables, with the ids under which a job has ever been stored. -/
structure JobStore where
  db : Db
  stored : Set String

/-- A write on the tables. -/
def JobStore.write (s : JobStore) : ControlWrite → JobStore
  | .update r | .barrier r =>
    { db := { s.db with jobs := s.db.jobs.put r }, stored := insert r.id s.stored }
  | .deleteJob id =>
    { s with db := { s.db with jobs := s.db.jobs.delete fun r => decide (r.id = id) } }
  | .deleteRun id =>
    { s with db := { s.db with runs := s.db.runs.delete fun run => decide (run.id = id) } }
  | .deleteLine l =>
    { s with db := { s.db with runLogs := s.db.runLogs.filter fun l' => decide (l' ≠ l) } }
  | .deleteFinish e =>
    { s with db := { s.db with finishes := s.db.finishes.filter fun e' => decide (e' ≠ e) } }
  | .audit e => { s with db := { s.db with audit := s.db.audit ++ [e] } }

/-- The transaction of a control. -/
abbrev ControlTx := Prog JobStore ControlWrite Lock

namespace ControlTx

/-! ## Statements -/

/-- The rows `ids` locked one by one, and each read again under its lock: the rows that still
match. -/
def lockEach (p : Db → JobRow → Bool) :
    List String → List JobRow → (List JobRow → ControlTx) → ControlTx
  | [], rows, next => next rows
  | id :: ids, rows, next => .lock (.row id) (.read fun v =>
      match (v.db.jobs.get? id).filter (p v.db) with
      | some r => lockEach p ids (rows ++ [r]) next
      | none => lockEach p ids rows next)

/-- `SELECT … WHERE p ORDER BY id FOR UPDATE`: what the statement's snapshot shows of other rows,
and the locked rows. -/
def selectForUpdate (p : Db → JobRow → Bool) (next : Db → List JobRow → ControlTx) : ControlTx :=
  .read fun v => lockEach p (idsMatching (p v.db) v.db) [] (next v.db)

/-- The rows `ids` locked one by one, read again, and changed where they still match. -/
def updateEach (p : Db → JobRow → Bool) (f : Patch JobRow.id) :
    List String → List String → (List String → ControlTx) → ControlTx
  | [], moved, next => next moved
  | id :: ids, moved, next => .lock (.row id) (.read fun v =>
      match (v.db.jobs.get? id).filter (p v.db) with
      | some r => .write (.update (f.apply r)) (updateEach p f ids (moved ++ [id]) next)
      | none => updateEach p f ids moved next)

/-- `UPDATE … SET f WHERE p RETURNING id`. -/
def updateWhere (p : Db → JobRow → Bool) (f : Patch JobRow.id) (next : List String → ControlTx) :
    ControlTx :=
  .read fun v => updateEach p f (idsMatching (p v.db) v.db) [] next

/-- Several writes of one statement. -/
def writeEach : List ControlWrite → ControlTx → ControlTx
  | [], next => next
  | w :: ws, next => .write w (writeEach ws next)

/-- The jobs `ids` locked one by one, and deleted where they are still there. -/
def deleteEach : List String → List String → (List String → ControlTx) → ControlTx
  | [], deleted, next => next deleted
  | id :: ids, deleted, next => .lock (.row id) (.read fun v =>
      match v.db.jobs.get? id with
      | some _ => .write (.deleteJob id) (deleteEach ids (deleted ++ [id]) next)
      | none => deleteEach ids deleted next)

/-- `deleteJobRows`: the read of the keys of the jobs' finishes, and a delete from each of the four
tables of what it shows of the jobs, with the ids of the jobs that the last of them deleted. -/
def deleteJobRows (ids : List String) (next : List String → ControlTx) : ControlTx :=
  .read fun v =>
    let keys := v.db.runs.rows.filterMap fun run =>
      if run.jobID ∈ ids then
        run.finishedAt.map fun t => ({ finishedAt := t, runID := run.id } : FinishRow)
      else none
    .read fun v => writeEach
      ((v.db.finishes.filter fun e => decide (e ∈ keys)).map .deleteFinish) <|
    .read fun v => writeEach
      ((v.db.runLogs.filter fun l => decide (l.jobID ∈ ids)).map .deleteLine) <|
    .read fun v => writeEach
      ((v.db.runs.rows.filter fun run => decide (run.jobID ∈ ids)).map fun run =>
        .deleteRun run.id) <|
    .read fun v =>
      deleteEach ((v.db.jobs.rows.filter fun r => decide (r.id ∈ ids)).map JobRow.id) [] next

/-- `recordAudit`: the rows, and the host's hook, which may fail the transaction. -/
def recordAudit (ctx : Context) (actor : Actor) (now : Time) (changes : List AuditChange)
    (next : ControlTx) : ControlTx :=
  if changes = [] then next
  else
    let rows := auditRows ctx actor now 0 changes
    writeEach (rows.map .audit)
      (if ctx.auditHook.all fun hook => hook rows then next else .rollback)

/-- The statements of a barrier check, which are on `jobs` alone, inside a control. -/
def ofCheck : JobTx → ControlTx → ControlTx
  | .commit, next => next
  | .rollback, _ => .rollback
  | .read f, next => .read fun v => ofCheck (f v.db.jobs) next
  | .lock l p, next => .lock l (ofCheck p next)
  | .tryLock l f, next => .tryLock l fun free => ofCheck (f free) next
  | .write r p, next => .write (.barrier r) (ofCheck p next)

/-- `fireBarrierIfComplete` for each of the parents in turn. -/
def fireEach (ctx : Context) (parents : List (String × String)) (next : ControlTx) : ControlTx :=
  ofCheck (fireEachTx .postgres ctx 1 parents .commit) next

/-- `resolveActor`, whose error ends the call. -/
def withActor (ctx : Context) (next : Actor → ControlTx) : ControlTx :=
  match resolveActor ctx with
  | .error _ => .rollback
  | .ok actor => next actor

/-! ## One job -/

/-- `lockJob` -/
def lockJob (id : String) (next : JobRow → ControlTx) : ControlTx :=
  selectForUpdate (fun _ => isJob id) fun _ rows =>
    match rows with
    | [] => .rollback
    | job :: _ => next job

/-- `updateLockedJob` -/
def updateLockedJob (job : JobRow) (upd : Patch JobRow.id) (next : ControlTx) : ControlTx :=
  updateWhere (fun _ => lockedGuard job) upd fun moved =>
    if moved.length = 1 then next else .rollback

/-- `CancelJob` -/
def cancelJob (ctx : Context) (id : String) : ControlTx :=
  withActor ctx fun actor => lockJob id fun job =>
    if nonTerminalStates.contains job.state then
      updateLockedJob job (cancelUpdates (ctx.clock 0)) <|
      fireEach ctx (job.parentJobID.toList.map fun p => (p, id)) <|
      recordAudit ctx actor (ctx.clock 0)
        [{ targetID := id, action := .cancelled
           details := [("from_state", .str job.state.name),
             ("was_running", .bool (job.state = .running))] }] .commit
    else .rollback

/-- `RetryJobWithOptions` -/
def retryJobWithOptions (ctx : Context) (id : String) (opts : RetryOpts) : ControlTx :=
  withActor ctx fun actor => lockJob id fun job =>
    if (retryStates opts).contains job.state then
      .read fun v =>
        if decide (job.state = .cancelled) && opts.force && !opts.allowRunning &&
            attemptStillRuns v.db job then .rollback
        else
          updateLockedJob job (retryUpdates (ctx.clock 0) opts) <|
          recordAudit ctx actor (ctx.clock 0)
            [{ targetID := id, action := .retried, details := retryDetails job.state.name opts }]
            .commit
    else .rollback

/-- `controlJob`, over a change that goes on with the details it records, or with none if it has
nothing to change. -/
def controlJob (ctx : Context) (action : AuditAction) (id : String) (acts : List JobState)
    (change : JobRow → Time → (Option (List (String × Json)) → ControlTx) → ControlTx) :
      ControlTx :=
  withActor ctx fun actor => lockJob id fun job =>
    if acts.contains job.state then
      change job (ctx.clock 0) fun recorded =>
        match recorded with
        | none => .commit
        | some details =>
          recordAudit ctx actor (ctx.clock 0) [{ targetID := id, action, details }] .commit
    else .rollback

/-- A control's change that updates the locked row, unless the row is already as asked. -/
def changeTo (already : JobRow → Bool) (upd : Time → Patch JobRow.id)
    (details : JobRow → List (String × Json)) (job : JobRow) (now : Time)
    (next : Option (List (String × Json)) → ControlTx) : ControlTx :=
  if already job then next none
  else updateLockedJob job (upd now)
    (next (some (("from_state", .str job.state.name) :: details job)))

/-- `RescheduleJob` -/
def rescheduleJob (ctx : Context) (id : String) (due : Time) : ControlTx :=
  if due = zeroTime then .rollback
  else controlJob ctx .rescheduled id waitingStates
    (changeTo (fun _ => false) (scheduleUpdate fun _ => due)
      fun job => [("from", .time job.scheduledAt), ("to", .time due)])

/-- `SetJobPriority` -/
def setJobPriority (ctx : Context) (id : String) (priority : ℤ) : ControlTx :=
  if priority < 1 then .rollback
  else controlJob ctx .reprioritized id waitingStates
    (changeTo (fun job => decide (job.priority = priority)) (priorityUpdate priority)
      fun job => [("from", .num job.priority), ("to", .num priority)])

/-- `PauseJob` -/
def pauseJob (ctx : Context) (id : String) : ControlTx :=
  controlJob ctx .paused id waitingStates
    (changeTo (fun job => decide (job.state = .paused)) (stateUpdate .paused) fun _ => [])

/-- `ResumeJob` -/
def resumeJob (ctx : Context) (id : String) : ControlTx :=
  controlJob ctx .resumed id waitingStates
    (changeTo (fun job => decide (job.state ≠ .paused)) (stateUpdate .available) fun _ => [])

/-- `DeleteJob` -/
def deleteJob (ctx : Context) (id : String) : ControlTx :=
  controlJob ctx .deleted id terminalStates fun job _ next =>
    deleteJobRows [job.id] fun deleted =>
      if deleted.length = 1 then
        next (some [("from_state", .str job.state.name), ("kind", .str job.kind),
          ("state", .str job.state.name)])
      else .rollback

/-! ## Batches -/

/-- `lockJobStates`: the state that a row was locked in, or none for one that was gone. -/
def stateIn (rows : List JobRow) (id : String) : String :=
  ((rows.find? fun r => decide (r.id = id)).map fun r => r.state.name).getD ""

/-- The visible jobs of `ids`, locked. -/
def lockJobs (ids : List String) (next : List JobRow → ControlTx) : ControlTx :=
  selectForUpdate (fun _ r => r.visible && ids.contains r.id) fun _ rows => next rows

/-- `scopeBatch` -/
def scopeBatch (scan : Scan) (ctx : Context) (parentID : String) (t : ScopeTransition)
    (batchSize : ℕ) : ControlTx :=
  withActor ctx fun actor => .read fun v =>
    let ids := (scopeRows scan parentID t.source batchSize v.db).map JobRow.id
    if ids = [] then .commit
    else lockJobs ids fun rows =>
      updateWhere (fun _ => scopeGuard t.source ids) (t.updates (ctx.clock 0)) fun moved =>
        if moved = [] then .commit
        else
          fireEach ctx (if t.fireBarrier then [(parentID, "")] else []) <|
          recordAudit ctx actor (ctx.clock 2) (moved.map fun id =>
              { targetID := id, action := t.action
                details := scopeDetails t.action parentID (stateIn rows id) }) .commit

/-- `replayBatch` -/
def replayBatch (ctx : Context) (opts : ReplayOpts) (pos : ReplayPosition) (batchSize : ℕ) :
    ControlTx :=
  match opts.refuse with
  | .error _ => .rollback
  | .ok _ => withActor ctx fun actor => .read fun v =>
    let rows := replayRows opts pos.cursor batchSize v.db
    let live := liveCandidates (activeKeyHeld v.db) [] rows
    if live = [] then .commit
    else lockJobs live fun locked =>
      updateWhere (replayGuard opts live)
          (retryPatch pos.now opts.retry (replayDue opts pos (rows.map JobRow.id))) fun replayed =>
        recordAudit ctx actor (ctx.clock 2) (replayed.map fun id =>
            { targetID := id, action := .replayed
              details := replayDetails opts (stateIn locked id) }) .commit

/-- `write`: the action's change, with the ids that it reports. -/
def bulkWrite (run : BulkRun) (change slots : List String) (now : Time)
    (next : List String → ControlTx) : ControlTx :=
  if run.action = .delete then deleteJobRows change fun _ => next change
  else updateWhere (fun v => run.guard v change) (run.updates slots now) next

/-- `applyBatch` -/
def applyBatch (ctx : Context) (run : BulkRun) (ids : List String) : ControlTx :=
  withActor ctx fun actor =>
    selectForUpdate (fun v r => r.visible && run.selects v r && ids.contains r.id) fun v locked =>
      let change := (run.classify v locked).map JobRow.id
      if change = [] then .commit
      else bulkWrite run change ids (ctx.clock 0) fun moved =>
        let changed := locked.filter fun r => moved.contains r.id
        fireEach ctx (if run.action = .cancel then
            (sortedParents JobRow.parentJobID changed).map fun p => (p, "") else []) <|
        recordAudit ctx actor (ctx.clock 0)
          (changed.map fun r => { targetID := r.id, action := run.action.audited
                                  details := run.details ids r }) .commit

end ControlTx

/-! ## The controls -/

/-- A control: the single-job ones, and one batch transaction of each batched one. -/
inductive Control where
  | reschedule (id : String) (due : Time)
  | setPriority (id : String) (priority : ℤ)
  | pause (id : String)
  | resume (id : String)
  | delete (id : String)
  | retry (id : String) (opts : RetryOpts)
  | cancel (id : String)
  | byParent (scan : Scan) (parentID : String) (t : ScopeTransition) (batchSize : ℕ)
  | replay (opts : ReplayOpts) (pos : ReplayPosition) (batchSize : ℕ)
  | bulk (run : BulkRun) (ids : List String)

/-- The transaction of a control. -/
def Control.tx (ctx : Context) : Control → ControlTx
  | .reschedule id due => ControlTx.rescheduleJob ctx id due
  | .setPriority id priority => ControlTx.setJobPriority ctx id priority
  | .pause id => ControlTx.pauseJob ctx id
  | .resume id => ControlTx.resumeJob ctx id
  | .delete id => ControlTx.deleteJob ctx id
  | .retry id opts => ControlTx.retryJobWithOptions ctx id opts
  | .cancel id => ControlTx.cancelJob ctx id
  | .byParent scan parentID t batchSize => ControlTx.scopeBatch scan ctx parentID t batchSize
  | .replay opts pos batchSize => ControlTx.replayBatch ctx opts pos batchSize
  | .bulk run ids => ControlTx.applyBatch ctx run ids

end Flywheel
