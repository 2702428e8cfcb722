import Flywheel.Control.Job

/-!
# The batched controls

One transaction of each batched control: a batch of Pause-, Resume- or CancelByParent
(`scopeBatch`), of Replay or ReplayByParent (`replayBatch`), and of BulkJobs (`applyBatch`). A
call is a sequence of these with what it has learnt so far, which the batch takes as arguments,
so that a history of batches covers every call, finished or cut short.
-/

namespace Flywheel

open Relational Transition List Table

/-! ## What the batches share -/

/-- The ids of the rows that a guard matches, as `updateJobsReturningIDs` reports them. -/
def idsMatching (p : JobRow → Bool) (db : Db) : List String :=
  ((db.jobs.rows.filter p).map JobRow.id).insertionSort (· ≤ ·)

/-- `lockJobStates`: the state of a locked row. -/
def stateOf (db : Db) (id : String) : String := ((db.job? id).map fun r => r.state.name).getD ""

/-- `cancelledAttemptStillRuns`: the job is cancelled while the attempt it was cancelled under
still reads started. -/
def cancelledAttemptStillRuns (db : Db) (r : JobRow) : Bool :=
  decide (r.state = .cancelled) && attemptStillRuns db r

/-- `activeKeyHeld`: another live job holds the row's active key. -/
def activeKeyHeld (db : Db) (r : JobRow) : Bool :=
  db.jobs.rows.any fun holder =>
    r.uniqueActiveKey.isSome && decide (holder.uniqueActiveKey = r.uniqueActiveKey) &&
      holder.live && decide (holder.id ≠ r.id)

/-- How far into its window a cohort's job is placed. The product is an `int64`, which wraps, and
the division drops the fraction. -/
def staggerOffset (window : Duration) (total index : ℤ) : Duration :=
  ((window * index).bmod (2 ^ 64)).tdiv total

/-- When the job at an index of a cohort is due. -/
def staggered (base : Time) (window : Duration) (total index : ℤ) : Time :=
  if window ≤ 0 ∨ total ≤ 0 then base else base + staggerOffset window total index

/-- `scheduledAtValue`: one due time without a stagger, and otherwise each slot's own. -/
def scheduledAtValue (slots : List String) (base : Time) (window : Duration) (total placed : ℤ)
    (r : JobRow) : Time :=
  if window ≤ 0 ∨ total ≤ 0 then base
  else if r.id ∈ slots then base + staggerOffset window total (placed + (slots.idxOf r.id : ℕ))
  else r.scheduledAt

variable {ctx : Context} {db : Db} {r : JobRow} {batchSize : ℕ}

theorem scheduledAtValue_eq {slots : List String} (h : r.id ∈ slots) (base : Time)
    (window : Duration) (total placed : ℤ) :
    scheduledAtValue slots base window total placed r =
      staggered base window total (placed + (slots.idxOf r.id : ℕ)) := by
  rw [scheduledAtValue, staggered, if_pos h]

/-- `liveReplayCandidates`: every unkeyed row, and per key the first that no other job holds. -/
def liveCandidates (held : JobRow → Bool) : List String → List JobRow → List String
  | _, [] => []
  | taken, r :: rows =>
    match r.uniqueActiveKey with
    | none => r.id :: liveCandidates held taken rows
    | some key =>
      if held r || taken.contains key then liveCandidates held taken rows
      else r.id :: liveCandidates held (key :: taken) rows

/-! ## By parent -/

/-- `scopeTransition`: what a parent-scoped control moves, and how. -/
structure ScopeTransition where
  action : AuditAction
  source : List JobState
  updates : Time → Patch JobRow.id
  fireBarrier : Bool := false

/-- `PauseByParent` -/
def pauseByParent : ScopeTransition :=
  { action := .paused, source := claimableStates, updates := stateUpdate .paused }

/-- `ResumeByParent` -/
def resumeByParent : ScopeTransition :=
  { action := .resumed, source := [.paused], updates := stateUpdate .available }

/-- `CancelByParent` -/
def cancelByParent : ScopeTransition :=
  { action := .cancelled, source := [.paused, .available, .retryable, .scheduled]
    updates := cancelUpdates, fireBarrier := true }

/-- What one scoped batch did. -/
structure ScopeBatch where
  selected : ℕ
  changed : List String
  fired : Bool

/-- A child in one of the states that a scoped control moves. -/
def inScope (parentID : String) (source : List JobState) (r : JobRow) : Bool :=
  r.visible && decide (r.parentJobID = some parentID) && source.contains r.state

/-- The children of one batch, locked. -/
def scopeRows (scan : Scan) (parentID : String) (source : List JobState) (batchSize : ℕ) (db : Db) :
    List JobRow :=
  ((db.jobs.rows.filter (inScope parentID source)).insertionSort
    fun a b => scan.rank a.id ≤ scan.rank b.id).take batchSize

/-- The guard of a scoped batch's update. -/
def scopeGuard (source : List JobState) (ids : List String) (r : JobRow) : Bool :=
  r.visible && ids.contains r.id && source.contains r.state

/-- A scoped control's details, for a job that was in the state `fromState`. -/
def scopeDetails (action : AuditAction) (parentID fromState : String) : List (String × Json) :=
  [("from_state", .str fromState), ("via", .str "parent"), ("parent_job_id", .str parentID)] ++
    if action = .cancelled then [("was_running", .bool false)] else []

/-- `scopeBatch`: up to `batchSize` children in the source states, moved and recorded. -/
def scopeBatch (scan : Scan) (ctx : Context) (parentID : String) (t : ScopeTransition)
    (batchSize : ℕ) (db : Db) : Except TxError (Commit ScopeBatch) := do
  let actor ← resolveActor ctx
  let ids := (scopeRows scan parentID t.source batchSize db).map JobRow.id
  if ids = [] then return { db, out := { selected := 0, changed := [], fired := false } }
  let guard := scopeGuard t.source ids
  let moved := idsMatching guard db
  let states := stateOf db
  let db := { db with jobs := db.jobs.update guard (t.updates (ctx.clock 0)) }
  let (db, fires) ← fireEach ctx 1
    (if t.fireBarrier && !moved.isEmpty then [(parentID, "")] else []) db
  let db ← recordAudit ctx actor (ctx.clock 2) (moved.map fun id =>
      { targetID := id, action := t.action, details := scopeDetails t.action parentID (states id) })
    db
  return { db, fires
           out := { selected := ids.length, changed := moved
                    fired := fires.any FireCall.fired } }

/-! ## Replay -/

/-- `ReplayOpts`, with the scope that Replay and ReplayByParent build from it. -/
structure ReplayOpts where
  retry : RetryOpts := {}
  states : List JobState := []
  scope : JobRow → Bool := fun _ => true
  parentJobID : String := ""
  failedSince : Option Time := none
  stagger : Duration := 0

/-- `replayStates` -/
def ReplayOpts.replayStates (opts : ReplayOpts) : List JobState :=
  if opts.states = [] then [.discarded] else opts.states

/-- The refusals of `replay`, before any write. -/
def ReplayOpts.refuse (opts : ReplayOpts) : Except TxError Unit :=
  if opts.replayStates.contains .running then .error (.validation "states" "must not name running")
  else if !opts.retry.force && opts.replayStates.contains .succeeded then .error .jobTerminal
  else .ok ()

/-- `skipAttemptsStillRunning`: consulted only by a replay that names cancelled. -/
def ReplayOpts.skips (opts : ReplayOpts) (db : Db) (r : JobRow) : Bool :=
  opts.replayStates.contains .cancelled && cancelledAttemptStillRuns db r

/-- The replay's cohort past a cursor. -/
def ReplayOpts.selects (opts : ReplayOpts) (cursor : String) (db : Db) (r : JobRow) : Bool :=
  r.visible && opts.scope r && opts.replayStates.contains r.state && !opts.skips db r &&
    opts.failedSince.all (fun since => r.finalizedAt.any fun t => decide (since ≤ t)) &&
    (decide (cursor = "") || decide (cursor < r.id))

/-- How far a replay has come: its cursor, its clock reading, and its stagger's denominator and
running index. -/
structure ReplayPosition where
  cursor : String := ""
  now : Time
  total : ℤ := 0
  placed : ℤ := 0

/-- What one replay batch did. -/
structure ReplayBatch where
  selected : ℕ
  changed : List String
  skippedActiveKey : ℕ
  last : String

/-- The next rows of a replay, by id. -/
def replayRows (opts : ReplayOpts) (cursor : String) (batchSize : ℕ) (db : Db) : List JobRow :=
  ((db.jobs.rows.filter (opts.selects cursor db)).insertionSort fun a b => a.id ≤ b.id).take
    batchSize

/-- The guard of a replay's update. -/
def replayGuard (opts : ReplayOpts) (live : List String) (db : Db) (r : JobRow) : Bool :=
  r.visible && live.contains r.id && opts.replayStates.contains r.state &&
    !activeKeyHeld db r && !opts.skips db r

/-- When a replay makes the rows of a batch due. -/
def replayDue (opts : ReplayOpts) (pos : ReplayPosition) (slots : List String) : JobRow → Time :=
  scheduledAtValue slots (pos.now + opts.retry.delay) opts.stagger pos.total pos.placed

/-- A replay's details, for a job that was in the state `fromState`. -/
def replayDetails (opts : ReplayOpts) (fromState : String) : List (String × Json) :=
  retryDetails fromState { opts.retry with allowRunning := false } ++
    if opts.parentJobID = "" then [("via", .str "replay")]
    else [("via", .str "parent"), ("parent_job_id", .str opts.parentJobID)]

/-- `replayBatch`: the next rows by id, of which those that may go live do. -/
def replayBatch (ctx : Context) (opts : ReplayOpts) (pos : ReplayPosition) (batchSize : ℕ)
    (db : Db) : Except TxError (Commit ReplayBatch) := do
  opts.refuse
  let actor ← resolveActor ctx
  let rows := replayRows opts pos.cursor batchSize db
  let live := liveCandidates (activeKeyHeld db) [] rows
  let last := (rows.getLast?.map JobRow.id).getD ""
  let skipped := rows.length - live.length
  if live = [] then
    return { db, out := { selected := rows.length, changed := [], skippedActiveKey := skipped
                          last } }
  let guard := replayGuard opts live db
  let replayed := idsMatching guard db
  let states := stateOf db
  let db := { db with
    jobs := db.jobs.update guard
      (retryPatch pos.now opts.retry (replayDue opts pos (rows.map JobRow.id))) }
  checkActiveKeys db
  let db ← recordAudit ctx actor (ctx.clock 2) (replayed.map fun id =>
      { targetID := id, action := .replayed, details := replayDetails opts (states id) }) db
  return { db, out := { selected := rows.length, changed := replayed, skippedActiveKey := skipped
                        last } }

/-! ## Bulk -/

/-- `BulkAction` -/
inductive BulkAction where
  | cancel
  | retry
  | delete
  | reschedule
  | pause
  | resume
deriving DecidableEq, Inhabited, Repr

/-- `BulkSkipReason` -/
inductive BulkSkipReason where
  | running
  | terminal
  | notTerminal
  | state
  | activeKey
deriving DecidableEq, Inhabited, Repr

/-- `bulkRun`: a call's spec and how far its walk has come. `selects` is the selection of the
spec's query or ids, which may read every table. -/
structure BulkRun where
  action : BulkAction
  retryOpts : RetryOpts := {}
  rescheduleAt : Time := 0
  stagger : Duration := 0
  operationID : String := ""
  selects : Db → JobRow → Bool
  now : Time
  matched : ℤ := 0
  passed : ℤ := 0
  taken : List String := []

/-- `forced` -/
def BulkRun.forced (run : BulkRun) : Bool := decide (run.action = .retry) && run.retryOpts.force

/-- `bulkSources` -/
def BulkRun.sources (run : BulkRun) : List JobState :=
  match run.action with
  | .retry => retryStates { force := run.retryOpts.force }
  | .delete => terminalStates
  | .pause => claimableStates
  | .resume => [.paused]
  | .cancel | .reschedule => waitingStates

/-- `skipReason`: why the action leaves a job as it is, by the job's state. -/
def BulkRun.skipReason (run : BulkRun) (db : Db) (r : JobRow) : Option BulkSkipReason :=
  if run.sources.contains r.state then
    if run.forced && cancelledAttemptStillRuns db r then some .running else none
  else if r.state = .running then some .running
  else if r.state.isTerminal then some .terminal
  else if run.action = .delete then some .notTerminal
  else some .state

/-- `keyRuled`: the active-key rule decides this job. -/
def BulkRun.keyRuled (run : BulkRun) (db : Db) (r : JobRow) : Bool :=
  r.uniqueActiveKey.isSome && r.state.isTerminal && (run.skipReason db r).isNone

/-- The jobs of a batch that a forced retry's key rule lets go live. -/
def BulkRun.liveIDs (run : BulkRun) (db : Db) (rows : List JobRow) : List String :=
  liveCandidates (fun r => activeKeyHeld db r || r.uniqueActiveKey.any run.taken.contains) []
    (rows.filter (run.keyRuled db))

/-- `classify`: the jobs that the action changes. -/
def BulkRun.classify (run : BulkRun) (db : Db) (rows : List JobRow) : List JobRow :=
  let live := run.liveIDs db rows
  rows.filter fun r => (run.skipReason db r).isNone &&
    !(run.forced && run.keyRuled db r && !live.contains r.id)

/-- `base` -/
def BulkRun.base (run : BulkRun) : Time :=
  if run.action = .reschedule then run.rescheduleAt else run.now + run.retryOpts.delay

/-- When a retry's or a reschedule's jobs are due. -/
def BulkRun.due (run : BulkRun) (slots : List String) : JobRow → Time :=
  scheduledAtValue slots run.base run.stagger run.matched run.passed

/-- `dueAt`: when the job at an index of the run is due. -/
def BulkRun.dueAt (run : BulkRun) (index : ℤ) : Time :=
  staggered run.base run.stagger run.matched index

/-- `updates`: the columns that the action writes. -/
def BulkRun.updates (run : BulkRun) (slots : List String) (now : Time) : Patch JobRow.id :=
  match run.action with
  | .cancel => cancelUpdates now
  | .retry => retryPatch now run.retryOpts (run.due slots)
  | .reschedule => scheduleUpdate (run.due slots) now
  | .pause => stateUpdate .paused now
  -- a delete has its own write and never reads these
  | .resume | .delete => stateUpdate .available now

/-- The guard of the action's update. -/
def BulkRun.guard (run : BulkRun) (db : Db) (ids : List String) (r : JobRow) : Bool :=
  r.visible && run.selects db r && ids.contains r.id && run.sources.contains r.state &&
    !(run.forced && (activeKeyHeld db r || cancelledAttemptStillRuns db r))

/-- `bulkAuditAction` -/
def BulkAction.audited : BulkAction → AuditAction
  | .cancel => .cancelled
  | .retry => .retried
  | .delete => .deleted
  | .reschedule => .rescheduled
  | .pause => .paused
  | .resume => .resumed

/-- The slot of a job of the batch, and zero for any other: a lookup in `auditChanges`' map. -/
def slotOf (slots : List String) (id : String) : ℕ := if id ∈ slots then slots.idxOf id else 0

/-- `auditChanges`, for one changed job. -/
def BulkRun.details (run : BulkRun) (slots : List String) (r : JobRow) : List (String × Json) :=
  (match run.action with
  | .retry => retryDetails r.state.name { run.retryOpts with allowRunning := false }
  | .cancel => [("from_state", .str r.state.name), ("was_running", .bool false)]
  | .delete => [("from_state", .str r.state.name), ("kind", .str r.kind),
      ("state", .str r.state.name)]
  | .reschedule => [("from_state", .str r.state.name), ("from", .time r.scheduledAt),
      ("to", .time (run.dueAt (run.passed + slotOf slots r.id)))]
  | .pause | .resume => [("from_state", .str r.state.name)]) ++
  [("via", .str "bulk"), ("operation_id", .str run.operationID)]

/-- `write`: the action's change, with the ids that it changed. -/
def BulkRun.write (run : BulkRun) (change : List String) (slots : List String) (now : Time)
    (db : Db) : Except TxError (Db × List String) :=
  if run.action = .delete then .ok (deleteJobRows change db, change)
  else do
    let moved := idsMatching (run.guard db change) db
    let db := { db with jobs := db.jobs.update (run.guard db change) (run.updates slots now) }
    refuse (run.action = .retry && !activeKeysUnique db.jobs) .duplicateKey
    return (db, moved)

/-- The batch's ids, re-read through the selection under a lock. -/
def BulkRun.locked (run : BulkRun) (ids : List String) (db : Db) : List JobRow :=
  (db.jobs.rows.filter fun r =>
    r.visible && run.selects db r && ids.contains r.id).insertionSort fun a b => a.id ≤ b.id

/-- The ids of the jobs that the batch changes. -/
def BulkRun.change (run : BulkRun) (ids : List String) (db : Db) : List String :=
  (run.classify db (run.locked ids db)).map JobRow.id

/-- `applyBatch`: the batch's rows classified, changed, and recorded. -/
def applyBatch (ctx : Context) (run : BulkRun) (ids : List String) (db : Db) :
    Except TxError (Commit (List String)) := do
  let actor ← resolveActor ctx
  let locked := run.locked ids db
  let change := run.change ids db
  if change = [] then return { db, out := [] }
  let (db, moved) ← run.write change ids (ctx.clock 0) db
  let changed := locked.filter fun r => moved.contains r.id
  let (db, fires) ← fireEach ctx 1 (if run.action = .cancel then
      (sortedParents JobRow.parentJobID changed).map fun p => (p, "") else []) db
  let db ← recordAudit ctx actor (ctx.clock 0)
    (changed.map fun r => { targetID := r.id, action := run.action.audited
                            details := run.details ids r }) db
  return { db, out := changed.map JobRow.id, fires }

/-! ## What the batches do -/

variable {run : BulkRun}

theorem mem_idsMatching {p : JobRow → Bool} {id : String} :
    id ∈ idsMatching p db ↔ ∃ r ∈ db.jobs.rows, p r = true ∧ r.id = id := by
  simp [idsMatching, and_assoc]

variable {rows : List JobRow} {scan : Scan} {parentID : String} {ids : List String}

theorem liveCandidates_subset {held : JobRow → Bool} {taken : List String} :
    ∀ id ∈ liveCandidates held taken rows, id ∈ rows.map JobRow.id := by
  induction rows generalizing taken with
  | nil => simp [liveCandidates]
  | cons r rows ih =>
    intro id hid
    rw [liveCandidates] at hid
    cases hkey : r.uniqueActiveKey with
    | none => grind
    | some key => grind

theorem mem_scopeRows {source : List JobState}
    (h : r ∈ scopeRows scan parentID source batchSize db) :
    r ∈ db.jobs.rows ∧ inScope parentID source r = true := by
  have h := mem_of_mem_take h
  simp_all

/-- What a scoped batch does: nothing, or its transition on children in its source states, and
for a cancel the parent's barrier check. -/
theorem scopeBatch_spec {t : ScopeTransition} {c : Commit ScopeBatch}
    (h : scopeBatch scan ctx parentID t batchSize db = .ok c) :
    (c.db = db ∧ c.fires = []) ∨
    ∃ guard, (∀ r ∈ db.jobs.rows, guard r = true → inScope parentID t.source r = true) ∧
      Effect ctx { db with jobs := db.jobs.update guard (t.updates (ctx.clock 0)) }
        (if t.fireBarrier && !(idsMatching guard db).isEmpty then [(parentID, "")] else []) c ∧
      JobsOnly db c.db := by
  obtain ⟨actor, -, h⟩ := bind_eq_ok.mp h
  by_cases hnil : (scopeRows scan parentID t.source batchSize db).map JobRow.id = []
  · rw [if_pos hnil] at h
    cases h
    exact .inl ⟨rfl, rfl⟩
  · rw [if_neg hnil] at h
    obtain ⟨⟨after, fires⟩, hfires, h⟩ := bind_eq_ok.mp h
    obtain ⟨db', haudit, h⟩ := bind_eq_ok.mp h
    cases h
    refine .inr ⟨_, ?_, ⟨1, after, hfires, ?_⟩, ?_⟩
    · intro r hr hguard
      simp only [scopeGuard, Bool.and_eq_true] at hguard
      exact (mem_scopeRows
        ((contains_key_iff (fun s hs => (mem_scopeRows hs).1) hr).mp hguard.1.2)).2
    · rw [recordAudit_frame haudit]
    · rw [JobsOnly, recordAudit_frame haudit, fireEach_frame hfires]

/-- What a replay batch does: nothing, or a retry of rows in the states that it names. -/
theorem replayBatch_spec {opts : ReplayOpts} {pos : ReplayPosition} {c : Commit ReplayBatch}
    (h : replayBatch ctx opts pos batchSize db = .ok c) :
    c.fires = [] ∧ JobsOnly db c.db ∧ (c.db = db ∨
      ∃ live due, opts.replayStates.contains .running = false ∧
        (∀ id ∈ live, id ∈ (replayRows opts pos.cursor batchSize db).map JobRow.id) ∧
        c.db.jobs = db.jobs.update (replayGuard opts live db)
          (retryPatch pos.now opts.retry due)) := by
  obtain ⟨_, hrefuse, h⟩ := bind_eq_ok.mp h
  obtain ⟨actor, -, h⟩ := bind_eq_ok.mp h
  by_cases hnil :
      liveCandidates (activeKeyHeld db) [] (replayRows opts pos.cursor batchSize db) = []
  · rw [if_pos hnil] at h
    cases h
    exact ⟨rfl, rfl, .inl rfl⟩
  · rw [if_neg hnil] at h
    obtain ⟨_, -, h⟩ := bind_eq_ok.mp h
    obtain ⟨db', haudit, h⟩ := bind_eq_ok.mp h
    cases h
    refine ⟨rfl, ?_, .inr ⟨liveCandidates (activeKeyHeld db) [] (replayRows opts pos.cursor
      batchSize db), replayDue opts pos ((replayRows opts pos.cursor batchSize db).map JobRow.id),
      ?_, liveCandidates_subset, ?_⟩⟩
    · rw [JobsOnly, recordAudit_frame haudit]
    · rw [ReplayOpts.refuse] at hrefuse
      grind
    · rw [recordAudit_frame haudit]

theorem BulkRun.mem_classify (h : r ∈ run.classify db rows) :
    r ∈ rows ∧ run.sources.contains r.state = true := by
  simp only [BulkRun.classify, mem_filter, Bool.and_eq_true] at h
  refine ⟨h.1, ?_⟩
  by_contra hsource
  have hskip := h.2.1
  rw [BulkRun.skipReason, if_neg hsource] at hskip
  split_ifs at hskip <;> cases hskip

theorem BulkRun.mem_locked : r ∈ run.locked ids db ↔
      r ∈ db.jobs.rows ∧ r.visible = true ∧ run.selects db r = true ∧ r.id ∈ ids := by
  simp [BulkRun.locked, and_assoc]

/-- What a bulk batch does: nothing, a delete of jobs that have ended, or the action's update of
jobs in its source states, and for a cancel the barrier checks of their parents. -/
theorem applyBatch_spec {c : Commit (List String)} (h : applyBatch ctx run ids db = .ok c) :
    (c.db = db ∧ c.fires = []) ∨
    (run.action = .delete ∧ c.fires = [] ∧
      (∀ r ∈ db.jobs.rows, r.id ∈ run.change ids db → r.state.isTerminal = true) ∧
      c.db = { deleteJobRows (run.change ids db) db with audit := c.db.audit }) ∨
    (run.action ≠ .delete ∧ ∃ parents, Effect ctx { db with
          jobs := db.jobs.update (run.guard db (run.change ids db))
            (run.updates ids (ctx.clock 0)) } parents c ∧
      JobsOnly db c.db ∧
      (run.action ≠ .cancel → parents = []) ∧
      (run.action = .cancel → ∀ r ∈ db.jobs.rows, run.guard db (run.change ids db) r = true →
        ∀ p, r.parentJobID = some p → (p, "") ∈ parents)) := by
  obtain ⟨actor, -, h⟩ := bind_eq_ok.mp h
  by_cases hnil : run.change ids db = []
  · rw [if_pos hnil] at h
    cases h
    exact .inl ⟨rfl, rfl⟩
  rw [if_neg hnil] at h
  obtain ⟨⟨mid, moved⟩, hwrite, h⟩ := bind_eq_ok.mp h
  obtain ⟨⟨after, fires⟩, hfires, h⟩ := bind_eq_ok.mp h
  obtain ⟨db', haudit, h⟩ := bind_eq_ok.mp h
  cases h
  right
  rw [BulkRun.write] at hwrite
  by_cases hdelete : run.action = .delete
  · rw [if_pos hdelete] at hwrite
    cases hwrite
    rw [if_neg (by rw [hdelete]; decide)] at hfires
    cases hfires
    refine .inl ⟨hdelete, rfl, fun r hr hgone => ?_, recordAudit_frame haudit⟩
    obtain ⟨s, hs, hid⟩ := mem_map.mp hgone
    obtain ⟨hs, hstate⟩ := BulkRun.mem_classify hs
    rw [eq_of_key_eq hr (BulkRun.mem_locked.mp hs).1 hid.symm]
    simpa [BulkRun.sources, hdelete, JobState.isTerminal] using hstate
  · rw [if_neg hdelete] at hwrite
    obtain ⟨_, -, hwrite⟩ := bind_eq_ok.mp hwrite
    cases hwrite
    refine .inr ⟨hdelete, _, ⟨1, after, hfires, ?_⟩, ?_, ?_, ?_⟩
    · rw [recordAudit_frame haudit]
    · rw [JobsOnly, recordAudit_frame haudit, fireEach_frame hfires]
    · simp_all
    · intro hcancel r hr hguard p hp
      rw [if_pos hcancel]
      -- the guard's rows are locked, and their ids are among those that moved
      have hguard' := hguard
      simp only [BulkRun.guard, Bool.and_eq_true] at hguard'
      obtain ⟨⟨⟨⟨hvisible, hselects⟩, hid⟩, -⟩, -⟩ := hguard'
      have hlocked : r ∈ run.locked ids db := by
        obtain ⟨s, hs, hsid⟩ := mem_map.mp (contains_iff_mem.mp hid)
        have hs := (BulkRun.mem_classify hs).1
        rwa [eq_of_key_eq hr (BulkRun.mem_locked.mp hs).1 hsid.symm]
      refine mem_map.mpr ⟨p, ?_, rfl⟩
      rw [sortedParents, mem_insertionSort, mem_dedup]
      refine mem_filterMap.mpr ⟨r, mem_filter.mpr ⟨hlocked, ?_⟩, hp⟩
      exact contains_iff_mem.mpr (mem_idsMatching.mpr ⟨r, hr, hguard, rfl⟩)

end Flywheel
