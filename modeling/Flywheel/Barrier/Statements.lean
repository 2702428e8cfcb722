import Flywheel.Library.ReadCommitted
import Flywheel.Control.Batch

/-!
# The transactions that end jobs, statement by statement

The same transactions as the drivers and controls run, cut at their statements, over the `jobs`
table alone: a select that locks, an update and an insert each take their rows one by one, and
between any two of their steps other sessions may commit. The statements on other tables are left
out, since none of them locks or writes a row of `jobs`; what a statement reads from another table
is a parameter, so that every value is covered, and an error on one is a transaction that ends
without a commit.
-/

namespace Flywheel

open Relational Transition ReadCommitted

/-- The locks: PostgreSQL's rows, with the unique keys that an insert waits for, and SQLite's one
writer. -/
inductive Lock where
  | database
  | row (id : String)
  | key (k : String)

/-- The lock of a row. -/
def rowLock : Dialect → String → Lock
  | .postgres, id => .row id
  | .sqlite, _ => .database

/-- The lock of a unique key. -/
def keyLock : Dialect → String → Lock
  | .postgres, k => .key k
  | .sqlite, _ => .database

/-- A transaction on `jobs`: a write is a new version of a row. -/
abbrev JobTx := Prog (Table JobRow.id) JobRow Lock

/-- What a statement sees of `jobs`, as a database. -/
def ofJobs (jobs : Table JobRow.id) : Db := { jobs }

/-! ## Statements -/

/-- The rows `ids` locked one by one, and each read again under its lock: the rows that still
match. -/
def lockEach (d : Dialect) (p : Table JobRow.id → JobRow → Bool) :
    List String → List JobRow → (List JobRow → JobTx) → JobTx
  | [], rows, next => next rows
  | id :: ids, rows, next => .lock (rowLock d id) (.read fun v =>
      match v.get? id with
      | some r => lockEach d p ids (if p v r then rows ++ [r] else rows) next
      | none => lockEach d p ids rows next)

/-- `SELECT … WHERE p ORDER BY id FOR UPDATE`. -/
def selectForUpdate (d : Dialect) (p : Table JobRow.id → JobRow → Bool)
    (next : List JobRow → JobTx) : JobTx :=
  .read fun v => lockEach d p (idsMatching (p v) (ofJobs v)) [] next

/-- The rows `ids` locked one by one, those skipped that another transaction holds, up to `limit`
that still match. -/
def lockFree (d : Dialect) (p : JobRow → Bool) :
    List String → ℕ → List JobRow → (List JobRow → JobTx) → JobTx
  | [], _, rows, next => next rows
  | _ :: _, 0, rows, next => next rows
  | id :: ids, limit + 1, rows, next => .tryLock (rowLock d id) fun
      | false => lockFree d p ids (limit + 1) rows next
      | true => .read fun v =>
        match (v.get? id).filter p with
        | some r => lockFree d p ids limit (rows ++ [r]) next
        | none => lockFree d p ids (limit + 1) rows next

/-- The rows `ids` locked one by one, read again, and changed where they still match. -/
def updateEach (d : Dialect) (p : Table JobRow.id → JobRow → Bool) (f : Patch JobRow.id) :
    List String → List String → (List String → JobTx) → JobTx
  | [], moved, next => next moved
  | id :: ids, moved, next => .lock (rowLock d id) (.read fun v =>
      match (v.get? id).filter (p v) with
      | some r => .write (f.apply r) (updateEach d p f ids (moved ++ [id]) next)
      | none => updateEach d p f ids moved next)

/-- `UPDATE … SET f WHERE p RETURNING id`. -/
def updateWhere (d : Dialect) (p : Table JobRow.id → JobRow → Bool) (f : Patch JobRow.id)
    (next : List String → JobTx) : JobTx :=
  .read fun v => updateEach d p f (idsMatching (p v) (ofJobs v)) [] next

/-- The versions that one statement writes of rows that it has locked. -/
def writeEach : List JobRow → JobTx → JobTx
  | [], next => next
  | r :: rows, next => .write r (writeEach rows next)

/-- An insert waits for the transaction that is inserting its key. -/
def lockKey (d : Dialect) : Option String → JobTx → JobTx
  | none, next => next
  | some k, next => .lock (keyLock d k) next

/-- `INSERT … ON CONFLICT DO NOTHING`, row by row. -/
def insertEach (d : Dialect) : List JobRow → JobTx → JobTx
  | [], next => next
  | r :: rows, next => .lock (rowLock d r.id) (lockKey d r.uniqueKey (.read fun v =>
      if v.conflicts uniqueClash r then insertEach d rows next
      else .write r (insertEach d rows next)))

/-- The rows of an insert, or a rollback when one of them has no kind. -/
def insertRows (d : Dialect) (now : Time) (rows : List JobRow) (next : JobTx) : JobTx :=
  if rows.any fun r => decide (r.kind = "") then .rollback
  else insertEach d (rows.map (JobRow.defaulted now)) next

/-! ## The barrier check -/

/-- The lock of the parent's row, on PostgreSQL alone. -/
def lockParent (d : Dialect) (parentID : String) (next : JobTx) : JobTx :=
  match d with
  | .postgres => .lock (rowLock d parentID) next
  | .sqlite => next

/-- `fireBarrierIfComplete`: the gate, the locked read, the count, the insert and the clear. -/
def fireTx (d : Dialect) (ctx : Context) (k : ℕ) (parentID spawnedBy : String)
    (next : Bool → JobTx) : JobTx :=
  .read fun gate =>
    match ((ofJobs gate).job? parentID).bind JobRow.barrierKind with
    | none => next false
    | some _ => lockParent d parentID (.read fun locked =>
      match (ofJobs locked).job? parentID with
      | none => next false
      | some parent =>
        match parent.barrierKind with
        | none => next false
        | some kind => .read fun counted =>
          if (ofJobs counted).hasPendingChild parentID then next false
          else
            match parent.barrierSpec.map fun spec =>
              continuationRow ctx k kind spec parentID spawnedBy with
            | some (.ok row) => insertRows d (ctx.clock k) [row]
                (updateWhere d (fun _ => isJob parentID) (clearBarrier (ctx.clock k)) fun _ =>
                  next true)
            -- a spec that does not decode, or a continuation that is refused
            | _ => .rollback)

/-- The checks of several parents in turn. -/
def fireEachTx (d : Dialect) (ctx : Context) : ℕ → List (String × String) → JobTx → JobTx
  | _, [], next => next
  | k, (parentID, spawnedBy) :: parents, next =>
    fireTx d ctx k parentID spawnedBy fun _ => fireEachTx d ctx (k + 1) parents next

/-! ## The transactions -/

/-- `CancelJob` -/
def cancelJobTx (d : Dialect) (ctx : Context) (id : String) : JobTx :=
  match resolveActor ctx with
  | .error _ => .rollback
  | .ok _ => selectForUpdate d (fun _ => isJob id) fun
    | [] => .rollback
    | job :: _ =>
      if nonTerminalStates.contains job.state then
        updateWhere d (fun _ => lockedGuard job) (cancelUpdates (ctx.clock 0)) fun moved =>
          if moved = [] then .rollback
          else fireEachTx d ctx 1 (job.parentJobID.toList.map fun p => (p, id)) .commit
      else .rollback

/-- The follow-ups of an applied success. -/
def followUpsTx (d : Dialect) (opts : DriverOpts) (ctx : Context) (followUps : List FollowUp)
    (parentID : String) (next : JobTx) : JobTx :=
  if opts.maxFollowUps < followUps.length then .rollback
  else
    match buildFollowUps ctx parentID 0 followUps with
    | .error _ => .rollback
    | .ok rows => insertRows d (ctx.clock 0) rows next

/-- `Finalize` -/
def finalizeTx (d : Dialect) (opts : DriverOpts) (ctx : Context) (raw : RawJob) (result : Result)
    (workErr : Option WorkError) (finishedAt : Time) : JobTx :=
  let plan := planFinalize ctx raw result workErr finishedAt
  .read fun v =>
    match declareBarrier opts ctx raw plan result (ofJobs v) with
    | .error _ => .rollback
    | .ok barrier =>
      updateWhere d (fun _ => holdsClaim raw.id raw.leaseToken)
        (jobFinalizeUpdate plan finishedAt barrier) fun moved =>
          -- the claim is gone, and the finalize is superseded
          if moved = [] then .commit
          else
            let check := fireEachTx d ctx result.followUps.length
              (endedParent raw plan true) .commit
            if plan.followUps then followUpsTx d opts ctx result.followUps raw.id check else check

/-- One batch of `Sweep`, over the runs that its statement reads. -/
def sweepTx (d : Dialect) (scan : Scan) (opts : DriverOpts) (ctx : Context) (now : Time) (limit : ℕ)
    (db : Db) : JobTx :=
  .read fun v =>
    lockFree d (JobRow.expired (d.before scan.zone now)) ((scan.expired d now v.rows).map JobRow.id)
        limit [] fun rows =>
      let jobs := (rows.insertionSort reclaimOrder).map (reclaimedJob opts db)
      writeEach (rows.map (reclaimUpdate opts now db).apply)
        (fireEachTx d ctx 0 (discardedParents jobs) .commit)

/-- One batch of `CancelByParent`. -/
def cancelByParentTx (d : Dialect) (scan : Scan) (ctx : Context) (parentID : String)
    (batchSize : ℕ) : JobTx :=
  match resolveActor ctx with
  | .error _ => .rollback
  | .ok _ => .read fun v =>
    let ids := (scopeRows scan parentID cancelByParent.source batchSize (ofJobs v)).map JobRow.id
    if ids = [] then .commit
    else selectForUpdate d (fun _ r => r.visible && ids.contains r.id) fun _ =>
      updateWhere d (fun _ => scopeGuard cancelByParent.source ids) (cancelUpdates (ctx.clock 0))
        fun moved => if moved = [] then .commit else fireEachTx d ctx 1 [(parentID, "")] .commit

/-- One batch of a bulk cancel, over the other tables that its selection reads. -/
def bulkCancelTx (d : Dialect) (ctx : Context) (run : BulkRun) (ids : List String) (db : Db) :
    JobTx :=
  match resolveActor ctx with
  | .error _ => .rollback
  | .ok _ =>
    selectForUpdate d (fun v r => r.visible && run.selects { db with jobs := v } r &&
        ids.contains r.id) fun locked =>
      let change := (run.classify db locked).map JobRow.id
      if change = [] then .commit
      else updateWhere d (fun v => run.guard { db with jobs := v } change)
        (cancelUpdates (ctx.clock 0)) fun moved =>
          fireEachTx d ctx 1
            ((sortedParents JobRow.parentJobID (locked.filter fun r => moved.contains r.id)).map
              fun p => (p, "")) .commit

/-- `Dequeue`: what gives a child its claim. -/
def dequeueTx (d : Dialect) (scan : Scan) (ctx : Context) (req : ClaimRequest) : JobTx :=
  .read fun v =>
    let ready := (v.rows.filter (req.claimable (ctx.clock 0))).insertionSort
      (claimsBefore scan.rank)
    lockFree d (req.claimable (ctx.clock 0)) (ready.map JobRow.id) req.limit.toNat [] fun rows =>
      writeEach
        (rows.map (claimUpdate (ctx.clock 0) (ctx.clock 0 + req.lease) (ctx.newID 0)).apply) .commit

/-- `RenewLease` -/
def renewLeaseTx (d : Dialect) (ctx : Context) (jobID leaseToken : String)
    (expiry : Time) : JobTx :=
  updateWhere d (fun _ => holdsClaim jobID leaseToken) (renewUpdate (ctx.clock 0) expiry)
    fun _ => .commit

end Flywheel
