import Flywheel.Driver.Lease

/-!
# The single-job controls

CancelJob, RetryJobWithOptions, and the controls that share `controlJob`: reschedule,
reprioritize, pause, resume and delete. Each reads its job under a row lock, refuses it by the
state that it read, writes it, and records one entry of the control history, in one transaction.
-/

namespace Flywheel

open Relational Transition

/-! ## The actor and the history -/

/-- `MaxReasonBytes` and `MaxActorSourceBytes`. -/
def maxReasonBytes : ℕ := 1024

@[inherit_doc maxReasonBytes]
def maxActorSourceBytes : ℕ := 64

/-- `ActorType.Valid` -/
def ActorType.valid : ActorType → Bool
  | .other _ => false
  | _ => true

/-- `resolveActor`: the context's actor, or the system, with the context's request. -/
def resolveActor (ctx : Context) : Except TxError Actor :=
  let actor := ctx.actor.getD {}
  if !actor.type.valid then .error (.validation "actor.type" "is not one of user, agent, or system")
  else if maxReasonBytes < actor.reason.utf8ByteSize then
    .error (.validation "actor.reason" "is longer than 1024 bytes")
  else if maxActorSourceBytes < actor.source.utf8ByteSize then
    .error (.validation "actor.source" "is longer than 64 bytes")
  else .ok { actor with requestID := orString actor.requestID ctx.requestID }

/-- `auditChange`: one change that a control made. -/
structure AuditChange where
  target : AuditTarget := .job
  targetID : String
  action : AuditAction
  details : List (String × Json)

/-- The rows of a transaction's changes. -/
def auditRows (ctx : Context) (actor : Actor) (now : Time) : ℕ → List AuditChange → List AuditRow
  | _, [] => []
  | k, c :: cs =>
    { id := ctx.auditID k, createdAt := now, target := c.target, targetID := c.targetID
      action := c.action, actor, details := c.details } :: auditRows ctx actor now (k + 1) cs

/-- `recordAudit`: one row per change, then the host's hook, which may fail the transaction. -/
def recordAudit (ctx : Context) (actor : Actor) (now : Time) (changes : List AuditChange)
    (db : Db) : Except TxError Db :=
  if changes = [] then .ok db
  else
    let rows := auditRows ctx actor now 0 changes
    if ctx.auditHook.all fun hook => hook rows then .ok { db with audit := db.audit ++ rows }
    else .error .auditHook

/-! ## The locked job -/

/-- `controlMiss`: the refusal of a state that a control does not act on. -/
def controlMiss (state : JobState) : TxError :=
  if state = .running then .jobRunning
  else if state.isTerminal then .jobTerminal
  else .jobNotTerminal

/-- `lockJob` -/
def lockJob (id : String) (db : Db) : Except TxError JobRow :=
  (db.job? id).elim (.error .jobNotFound) .ok

/-- The row that `lockJob` read, in the state that it read. -/
def lockedGuard (job : JobRow) (r : JobRow) : Bool := isJob job.id r && decide (r.state = job.state)

/-- `updateLockedJob` -/
def updateLockedJob (job : JobRow) (upd : Patch JobRow.id) (db : Db) : Except TxError Db :=
  if db.jobs.rows.any (lockedGuard job) then
    .ok { db with jobs := db.jobs.update (lockedGuard job) upd }
  else .error .changedWhileLocked

/-- The check of `jobs_unique_active_key` on a write that may put a terminal job live. No other
write of the runtime adds a live holder of a key. -/
def checkActiveKeys (db : Db) : Except TxError Unit :=
  refuse (!activeKeysUnique db.jobs) .duplicateKey

/-! ## Cancel -/

/-- The columns of a cancel. -/
def cancelUpdates (now : Time) : Patch JobRow.id where
  apply r :=
    { r with
      state := .cancelled
      leasedUntil := none
      leaseToken := none
      finalizedAt := some now
      updatedAt := now }
  key_apply _ := rfl

/-- `CancelJob`: a job that has not ended is cancelled, and its parent's barrier checked. -/
def cancelJob (ctx : Context) (id : String) (db : Db) : Except TxError (Commit Unit) := do
  let actor ← resolveActor ctx
  let job ← lockJob id db
  refuse (!nonTerminalStates.contains job.state) (controlMiss job.state)
  let now := ctx.clock 0
  let db ← updateLockedJob job (cancelUpdates now) db
  let (db, fires) ← fireEach ctx 1 (job.parentJobID.toList.map fun p => (p, id)) db
  let db ← recordAudit ctx actor now
    [{ targetID := id, action := .cancelled
       details := [("from_state", .str job.state.name),
         ("was_running", .bool (job.state = .running))] }] db
  return { db, out := (), fires }

/-! ## Retry -/

/-- `retryStateStrings`: what a retry may move a job out of. -/
def retryStates (opts : RetryOpts) : List JobState :=
  waitingStates ++ (if opts.force then terminalStates else []) ++
    (if opts.allowRunning then [.running] else [])

/-- `attemptStillRuns`: the run at the job's attempt still reads started. -/
def attemptStillRuns (db : Db) (job : JobRow) : Bool :=
  db.runs.rows.any fun run =>
    decide (run.jobID = job.id ∧ run.attempt = job.attempt ∧ run.outcome = .started)

/-- `applyRetryBudget`: the attempt budget that a retry leaves. -/
def retryBudget (opts : RetryOpts) (r : JobRow) : ℤ :=
  if !opts.resetAttempts then r.maxAttempts
  else if opts.budget ≤ 0 then r.attempt + r.maxAttempts
  else r.attempt + opts.budget

/-- The columns of a retry that makes each row due at `due`. -/
def retryPatch (now : Time) (opts : RetryOpts) (due : JobRow → Time) : Patch JobRow.id where
  apply r :=
    { r with
      state := .available
      leasedUntil := none
      leaseToken := none
      finalizedAt := none
      scheduledAt := due r
      updatedAt := now
      maxAttempts := retryBudget opts r }
  key_apply _ := rfl

/-- `retryUpdates` -/
def retryUpdates (now : Time) (opts : RetryOpts) : Patch JobRow.id :=
  retryPatch now opts fun _ => now + opts.delay

/-- `retryDetails` -/
def retryDetails (fromState : String) (opts : RetryOpts) : List (String × Json) :=
  [("from_state", .str fromState), ("force", .bool opts.force),
    ("allow_running", .bool opts.allowRunning), ("reset_attempts", .bool opts.resetAttempts),
    ("budget", .num opts.budget), ("delay_ms", .num (milliseconds opts.delay))]

/-- `RetryJobWithOptions`: the states that the options allow, and under Force a cancelled job
only when its attempt has returned. -/
def retryJobWithOptions (ctx : Context) (id : String) (opts : RetryOpts) (db : Db) :
    Except TxError (Commit Unit) := do
  let actor ← resolveActor ctx
  let job ← lockJob id db
  refuse (!(retryStates opts).contains job.state) (controlMiss job.state)
  refuse (decide (job.state = .cancelled) && opts.force && !opts.allowRunning &&
    attemptStillRuns db job) .jobRunning
  let now := ctx.clock 0
  let db ← updateLockedJob job (retryUpdates now opts) db
  checkActiveKeys db
  let db ← recordAudit ctx actor now
    [{ targetID := id, action := .retried, details := retryDetails job.state.name opts }] db
  return { db, out := () }

/-! ## The controls on a waiting or a finished job -/

/-- `deleteJobRows`: the finish-log entries of the jobs' runs, the captured lines, the runs, and
the jobs. -/
def deleteJobRows (ids : List String) (db : Db) : Db :=
  { db with
    finishes := db.finishes.filter fun e => !db.runs.rows.any fun run =>
      decide (run.jobID ∈ ids ∧ run.finishedAt = some e.finishedAt ∧ run.id = e.runID)
    runLogs := db.runLogs.filter fun l => !decide (l.jobID ∈ ids)
    runs := db.runs.delete fun run => decide (run.jobID ∈ ids)
    jobs := db.jobs.delete fun r => decide (r.id ∈ ids) }

/-- `controlJob`: the change that a control makes to its locked job at a clock reading, or `none`
for one that changes nothing. -/
def controlJob (ctx : Context) (action : AuditAction) (id : String) (acts : List JobState)
    (change : JobRow → Time → Db → Except TxError (Option (Db × List (String × Json)))) (db : Db) :
    Except TxError (Commit Unit) := do
  let actor ← resolveActor ctx
  let job ← lockJob id db
  refuse (!acts.contains job.state) (controlMiss job.state)
  let now := ctx.clock 0
  match ← change job now db with
  | none => return { db, out := () }
  | some (db, details) =>
    let db ← recordAudit ctx actor now [{ targetID := id, action, details }] db
    return { db, out := () }

/-- A control's change that updates the locked row, unless the row is already as asked. -/
def changeTo (already : JobRow → Bool) (upd : Time → Patch JobRow.id)
    (details : JobRow → List (String × Json)) (job : JobRow) (now : Time) (db : Db) :
    Except TxError (Option (Db × List (String × Json))) :=
  if already job then .ok none
  else do
    let db ← updateLockedJob job (upd now) db
    return some (db, ("from_state", .str job.state.name) :: details job)

/-- The columns of a change of state alone. -/
def stateUpdate (state : JobState) (now : Time) : Patch JobRow.id where
  apply r := { r with state, updatedAt := now }
  key_apply _ := rfl

/-- The columns of a reschedule. -/
def scheduleUpdate (due : JobRow → Time) (now : Time) : Patch JobRow.id where
  apply r := { r with scheduledAt := due r, updatedAt := now }
  key_apply _ := rfl

/-- The columns of a new priority. -/
def priorityUpdate (priority : ℤ) (now : Time) : Patch JobRow.id where
  apply r := { r with priority, updatedAt := now }
  key_apply _ := rfl

/-- `RescheduleJob` -/
def rescheduleJob (ctx : Context) (id : String) (due : Time) (db : Db) :
    Except TxError (Commit Unit) := do
  let _ ← resolveActor ctx
  refuse (due = zeroTime) (.validation "at" "is required")
  controlJob ctx .rescheduled id waitingStates
    (changeTo (fun _ => false) (scheduleUpdate fun _ => due)
      fun job => [("from", .time job.scheduledAt), ("to", .time due)]) db

/-- `SetJobPriority` -/
def setJobPriority (ctx : Context) (id : String) (priority : ℤ) (db : Db) :
    Except TxError (Commit Unit) := do
  let _ ← resolveActor ctx
  refuse (priority < 1) (.validation "priority" "must be at least 1")
  controlJob ctx .reprioritized id waitingStates
    (changeTo (fun job => decide (job.priority = priority)) (priorityUpdate priority)
      fun job => [("from", .num job.priority), ("to", .num priority)]) db

/-- `PauseJob` -/
def pauseJob (ctx : Context) (id : String) (db : Db) : Except TxError (Commit Unit) :=
  controlJob ctx .paused id waitingStates
    (changeTo (fun job => decide (job.state = .paused)) (stateUpdate .paused) fun _ => []) db

/-- `ResumeJob` -/
def resumeJob (ctx : Context) (id : String) (db : Db) : Except TxError (Commit Unit) :=
  controlJob ctx .resumed id waitingStates
    (changeTo (fun job => decide (job.state ≠ .paused)) (stateUpdate .available) fun _ => []) db

/-- `DeleteJob` -/
def deleteJob (ctx : Context) (id : String) (db : Db) : Except TxError (Commit Unit) :=
  controlJob ctx .deleted id terminalStates (fun job _ db =>
    .ok (some (deleteJobRows [job.id] db,
      [("from_state", .str job.state.name), ("kind", .str job.kind),
        ("state", .str job.state.name)]))) db

/-! ## What the controls do -/

variable {c : Commit Unit} {ctx : Context} {db db' : Db} {job : JobRow} {id : String} {now : Time}

theorem recordAudit_frame {actor : Actor} {changes : List AuditChange}
    (h : recordAudit ctx actor now changes db = .ok db') :
    db' = { db with audit := db'.audit } := by
  simp only [recordAudit] at h
  split_ifs at h with hnil hhook
  · simp_all
  · grind

theorem lockJob_spec (h : lockJob id db = .ok job) : db.job? id = some job := by
  rw [lockJob] at h
  cases hjob : db.job? id with
  | none => simp [hjob] at h
  | some j => simpa [hjob] using h

theorem Db.job?_eq_some : db.job? id = some job ↔ db.jobs.get? id = some job ∧ job.visible = true :=
  Option.filter_eq_some_iff

theorem updateLockedJob_spec {upd : Patch JobRow.id} (h : updateLockedJob job upd db = .ok db') :
    db' = { db with jobs := db.jobs.update (lockedGuard job) upd } := by
  rw [updateLockedJob] at h
  grind

/-- What a cancel does: a job that has not ended is cancelled, and its parent checked. -/
theorem cancelJob_spec (h : cancelJob ctx id db = .ok c) :
    ∃ job, db.job? id = some job ∧ nonTerminalStates.contains job.state = true ∧
      Effect ctx { db with jobs := db.jobs.update (lockedGuard job) (cancelUpdates (ctx.clock 0)) }
        (job.parentJobID.toList.map fun p => (p, id)) c ∧
      JobsOnly db c.db := by
  obtain ⟨actor, -, h⟩ := bind_eq_ok.mp h
  obtain ⟨job, hjob, h⟩ := bind_eq_ok.mp h
  obtain ⟨_, hstate, h⟩ := bind_eq_ok.mp h
  obtain ⟨mid, hmid, h⟩ := bind_eq_ok.mp h
  obtain ⟨⟨after, fires⟩, hfires, h⟩ := bind_eq_ok.mp h
  obtain ⟨db', haudit, h⟩ := bind_eq_ok.mp h
  cases h
  have hmid := updateLockedJob_spec hmid
  subst hmid
  refine ⟨job, lockJob_spec hjob, ?_, ⟨1, after, hfires, ?_⟩, ?_⟩
  · simpa using refuse_eq_ok.mp hstate
  · rw [recordAudit_frame haudit]
  · rw [JobsOnly, recordAudit_frame haudit, fireEach_frame hfires]

/-- What a retry does: a job in a state that the options allow returns to available, and a
cancelled one only when no run at its attempt reads started, unless AllowRunning is set. -/
theorem retryJobWithOptions_spec {opts : RetryOpts}
    (h : retryJobWithOptions ctx id opts db = .ok c) :
    ∃ job, db.job? id = some job ∧ (retryStates opts).contains job.state = true ∧
      (job.state = .cancelled → opts.force = true → opts.allowRunning = false →
        attemptStillRuns db job = false) ∧
      c.db.jobs = db.jobs.update (lockedGuard job) (retryUpdates (ctx.clock 0) opts) ∧
      JobsOnly db c.db ∧ c.fires = [] := by
  obtain ⟨actor, -, h⟩ := bind_eq_ok.mp h
  obtain ⟨job, hjob, h⟩ := bind_eq_ok.mp h
  obtain ⟨_, hstate, h⟩ := bind_eq_ok.mp h
  obtain ⟨_, hruns, h⟩ := bind_eq_ok.mp h
  obtain ⟨mid, hmid, h⟩ := bind_eq_ok.mp h
  obtain ⟨-, -, h⟩ := bind_eq_ok.mp h
  obtain ⟨db', haudit, h⟩ := bind_eq_ok.mp h
  cases h
  have hmid := updateLockedJob_spec hmid
  subst hmid
  refine ⟨job, lockJob_spec hjob, by simpa using refuse_eq_ok.mp hstate, ?_, ?_, ?_, rfl⟩
  · intro hcancelled hforce hallow
    simpa [hcancelled, hforce, hallow] using refuse_eq_ok.mp hruns
  · rw [recordAudit_frame haudit]
  · rw [JobsOnly, recordAudit_frame haudit]

/-- What a control that shares `controlJob` does: nothing, or its change to the locked job. -/
theorem controlJob_spec {action : AuditAction} {acts : List JobState}
    {change : JobRow → Time → Db → Except TxError (Option (Db × List (String × Json)))}
    (h : controlJob ctx action id acts change db = .ok c) :
    c.fires = [] ∧ (c.db = db ∨
      ∃ job db' details, db.job? id = some job ∧ acts.contains job.state = true ∧
        change job (ctx.clock 0) db = .ok (some (db', details)) ∧
        c.db = { db' with audit := c.db.audit }) := by
  obtain ⟨actor, -, h⟩ := bind_eq_ok.mp h
  obtain ⟨job, hjob, h⟩ := bind_eq_ok.mp h
  obtain ⟨_, hstate, h⟩ := bind_eq_ok.mp h
  obtain ⟨outcome, hchange, h⟩ := bind_eq_ok.mp h
  cases outcome with
  | none =>
    cases h
    exact ⟨rfl, .inl rfl⟩
  | some changed =>
    obtain ⟨db', haudit, h⟩ := bind_eq_ok.mp h
    cases h
    refine ⟨rfl, .inr ⟨job, changed.1, changed.2, lockJob_spec hjob, ?_, hchange,
      recordAudit_frame haudit⟩⟩
    simpa using refuse_eq_ok.mp hstate

theorem changeTo_spec {already : JobRow → Bool} {upd : Time → Patch JobRow.id}
    {details : JobRow → List (String × Json)} {d : List (String × Json)}
    (h : changeTo already upd details job now db = .ok (some (db', d))) :
    already job = false ∧ db' = { db with jobs := db.jobs.update (lockedGuard job) (upd now) } := by
  rw [changeTo] at h
  split_ifs at h with halready
  · cases h
  · obtain ⟨mid, hmid, h⟩ := bind_eq_ok.mp h
    cases h
    exact ⟨by simpa using halready, updateLockedJob_spec hmid⟩

/-- What a delete does: the rows of a job that has ended are removed. -/
theorem deleteJob_spec (h : deleteJob ctx id db = .ok c) : c.fires = [] ∧ (c.db = db ∨
      ∃ job, db.job? id = some job ∧ job.state.isTerminal = true ∧
        c.db = { deleteJobRows [job.id] db with audit := c.db.audit }) := by
  obtain ⟨hfires, hdb | ⟨job, db', d, hjob, hstate, hchange, hdb⟩⟩ := controlJob_spec h
  · exact ⟨hfires, .inl hdb⟩
  · cases hchange
    exact ⟨hfires, .inr ⟨job, hjob, hstate, hdb⟩⟩

end Flywheel
