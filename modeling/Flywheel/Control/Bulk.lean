import Flywheel.Control.Query
import Flywheel.Control.Replay

/-!
# Bulk operations

`BulkJobs` (`bulk.go`): the spec, the refusals of `newBulkRun`, and the walk over the selection by
id, a page at a time, which a dry run classifies in memory and an apply changes by the transactions
of `applyBatch`. Beside its cursor the walk carries the active keys that a forced retry took and the
keys of the continuations that a cancel enqueued, which it leaves out of the pages that it reads.
-/

namespace Flywheel

open Relational Transition Keyset

/-! ## The spec -/

/-- `DefaultBulkMaxJobs` and `MaxBulkJobs`. -/
def defaultBulkMaxJobs : ℕ := 10000

@[inherit_doc defaultBulkMaxJobs]
def maxBulkJobs : ℕ := 100000

/-- `defaultBulkBatchSize` and `maxBulkBatchSize`. -/
def defaultBulkBatchSize : ℕ := 500

@[inherit_doc defaultBulkBatchSize]
def maxBulkBatchSize : ℕ := 5000

/-- `bulkSampleSize` -/
def bulkSampleSize : ℕ := 20

/-- `BulkSpec` -/
structure BulkSpec where
  query : JobQuery := {}
  ids : List String := []
  action : BulkAction
  dryRun : Bool := false
  maxJobs : ℤ := 0
  batchSize : ℤ := 0
  after : String := ""
  maxID : String := ""
  operationID : String := ""
  rescheduleAt : Time := zeroTime
  retry : RetryOpts := {}
  stagger : Duration := 0

/-- `bulkRun.maxJobs` -/
def BulkSpec.limit (spec : BulkSpec) : ℕ :=
  if spec.maxJobs = 0 then defaultBulkMaxJobs else spec.maxJobs.toNat

/-- `bulkRun.batchSize` -/
def BulkSpec.size (spec : BulkSpec) : ℕ :=
  if spec.batchSize ≤ 0 then defaultBulkBatchSize
  else if maxBulkBatchSize < spec.batchSize then maxBulkBatchSize
  else spec.batchSize.toNat

/-- `sortedUnique`, of the spec's ids. -/
def BulkSpec.sortedIDs (spec : BulkSpec) : List String := spec.ids.dedup.insertionSort (· ≤ ·)

/-- `validateBulkOptions` -/
def BulkSpec.validateOptions (spec : BulkSpec) : Except QueryError Unit := do
  refuseQuery (decide (spec.action = .reschedule) && decide (spec.rescheduleAt = zeroTime))
    "reschedule_at" "is required for a reschedule"
  refuseQuery (decide (spec.action ≠ .reschedule) && decide (spec.rescheduleAt ≠ zeroTime))
    "reschedule_at" "is read by a reschedule alone"
  refuseQuery (decide (spec.action ≠ .retry) && decide (spec.retry ≠ {})) "retry"
    "is read by a retry alone"
  refuseQuery (decide (spec.action ≠ .retry) && decide (spec.action ≠ .reschedule) &&
    decide (spec.stagger ≠ 0)) "stagger" "is read by a retry or a reschedule alone"

/-- What ended a bulk call before the end of its walk. -/
inductive BulkError where
  | actor (e : TxError)
  | query (e : QueryError)
  | unbounded
  | tooLarge
  | cancelled
  | batch (e : TxError)
deriving DecidableEq

/-- `newBulkRun`: the refusals before any statement, in the code's order. -/
def BulkSpec.refuse (ctx : Context) (dialect : Dialect) (spec : BulkSpec) :
    Except BulkError Unit := do
  let _ ← (resolveActor ctx).mapError .actor
  (refuseQuery (decide (spec.maxJobs < 0) || decide (maxBulkJobs < spec.maxJobs)) "max_jobs"
    "must be between 0 and 100000").mapError .query
  (refuseQuery (decide (spec.limit < spec.sortedIDs.length)) "ids"
    ("has more than MaxJobs (" ++ toString spec.limit ++ ") entries")).mapError .query
  (refuseQuery (!spec.ids.isEmpty && spec.query.filters) "ids"
    "cannot be combined with a query that filters: pass one or the other").mapError .query
  spec.validateOptions.mapError .query
  (spec.query.validate dialect (ctx.clock 0)).mapError .query
  if !spec.query.filters && spec.ids.isEmpty then .error .unbounded

/-- `selection`: the query's filter or the ids, past `After` and at or below `MaxID`. -/
def BulkSpec.selects (ops : Operators) (spec : BulkSpec) (db : Db) (r : JobRow) : Bool :=
  (if spec.ids.isEmpty then spec.query.matches ops db r else spec.ids.contains r.id) &&
    (decide (spec.after = "") || decide (spec.after < r.id)) &&
    (decide (spec.maxID = "") || decide (r.id ≤ spec.maxID))

/-- A job that a statement of the run selects. -/
def BulkSpec.shows (ops : Operators) (spec : BulkSpec) (db : Db) (r : JobRow) : Bool :=
  r.visible && spec.selects ops db r

/-! ## The walk -/

/-- `BulkResult`. Its maps count, so that a key that is not in one reads zero. -/
structure BulkResult where
  matched : ℕ := 0
  matchedCapped : Bool := false
  changed : ℕ := 0
  skipped : BulkSkipReason → ℕ := fun _ => 0
  byState : JobState → ℕ := fun _ => 0
  byKind : String → ℕ := fun _ => 0
  sample : List JobRow := []
  batches : ℕ := 0
  done : Bool := false
  resumeAfter : String := ""

/-- The walk's state. `fired` is the unique keys of the continuations that it enqueued, and
`changedIDs` the jobs that it changed or would change, which it does not report. -/
structure BulkWalk where
  result : BulkResult
  cursor : String
  passed : ℕ := 0
  next : ℕ := 0
  taken : List String := []
  fired : List String := []
  sample : List String := []
  now : Time
  changedIDs : List String := []

/-- The transaction's view of the walk. -/
def BulkWalk.run (ops : Operators) (spec : BulkSpec) (w : BulkWalk) : BulkRun where
  action := spec.action
  retryOpts := spec.retry
  rescheduleAt := spec.rescheduleAt
  stagger := spec.stagger
  operationID := spec.operationID
  selects := spec.selects ops
  now := w.now
  matched := w.result.matched
  passed := w.passed
  taken := w.taken

/-- The reason that the action leaves a job of the batch as it is. -/
def BulkRun.reason (run : BulkRun) (db : Db) (rows : List JobRow) (r : JobRow) :
    Option BulkSkipReason :=
  match run.skipReason db r with
  | some reason => some reason
  | none =>
    if run.forced && run.keyRuled db r && !(run.liveIDs db rows).contains r.id then some .activeKey
    else none

/-- `classify`'s skips, one for each job that it leaves. -/
def BulkRun.skips (run : BulkRun) (db : Db) (rows : List JobRow) : List BulkSkipReason :=
  rows.filterMap (run.reason db rows)

/-- `continuation` -/
def BulkWalk.continuation (w : BulkWalk) (r : JobRow) : Bool := r.uniqueKey.any w.fired.contains

/-- `bulkBatch`: one page of the walk. -/
structure BulkPage where
  rows : List JobRow
  last : String
  ends : Bool
  next : ℕ

/-- The jobs that a statement selects, in the order of their ids. -/
def sortedJobs (p : JobRow → Bool) (db : Db) : List JobRow :=
  (db.jobs.rows.filter p).insertionSort fun a b => a.id ≤ b.id

/-- `readBatch` -/
def BulkWalk.read (ops : Operators) (spec : BulkSpec) (w : BulkWalk) (limit : ℕ) (db : Db) :
    BulkPage :=
  if spec.ids.isEmpty then
    let rows := (sortedJobs (fun r => spec.shows ops db r &&
      (decide (w.cursor = "") || decide (w.cursor < r.id))) db).take limit
    { rows := rows.filter fun r => !w.continuation r
      last := (rows.getLast?.map JobRow.id).getD w.cursor
      ends := decide (rows.length < limit)
      next := w.next }
  else
    let chunk := (spec.sortedIDs.drop w.next).take limit
    let rows := (sortedJobs (fun r => spec.shows ops db r && chunk.contains r.id) db).take limit
    { rows := rows.filter fun r => !w.continuation r
      last := chunk.getLast?.getD w.cursor
      ends := decide (spec.sortedIDs.length ≤ w.next + chunk.length)
      next := w.next + chunk.length }

/-- `probe`: a match past the cursor, other than a continuation that the run enqueued. -/
def BulkWalk.probe (ops : Operators) (spec : BulkSpec) (w : BulkWalk) (db : Db) : Bool :=
  spec.ids.isEmpty && db.jobs.rows.any fun r =>
    spec.shows ops db r && decide (w.cursor < r.id) && !w.continuation r

/-- `tally` -/
def BulkResult.tally (res : BulkResult) (rows : List JobRow) (skips : List BulkSkipReason) :
    BulkResult :=
  { res with
    byState := fun s => res.byState s + rows.countP fun r => decide (r.state = s)
    byKind := fun k => res.byKind k + rows.countP fun r => decide (r.kind = k)
    skipped := fun s => res.skipped s + skips.count s }

/-- `take`: the keys that a forced retry put live. -/
def BulkWalk.take (spec : BulkSpec) (w : BulkWalk) (changed : List JobRow) : List String :=
  if spec.action = .retry ∧ spec.retry.force then w.taken ++
    changed.filterMap JobRow.uniqueActiveKey
  else w.taken

/-- What a page counts, given the jobs that it read and those that it changed. -/
def BulkWalk.count (ops : Operators) (spec : BulkSpec) (w : BulkWalk) (db : Db)
    (rows changed : List JobRow) : BulkWalk :=
  { w with
    result :=
      { w.result.tally rows ((w.run ops spec).skips db rows) with
        changed := w.result.changed + changed.length }
    taken := w.take spec changed
    changedIDs := w.changedIDs ++ changed.map JobRow.id }

/-- `preview`: a dry run's page. -/
def BulkWalk.preview (ops : Operators) (spec : BulkSpec) (w : BulkWalk) (db : Db)
    (rows : List JobRow) : BulkWalk :=
  let change := (w.run ops spec).classify db rows
  let sample := w.sample ++ change.map JobRow.id
  { w.count ops spec db rows change with sample := sample.drop (sample.length - bulkSampleSize) }

/-- The batch's transaction, and its reruns after a lost race. -/
def applyRerun (ctx : Context) (run : BulkRun) (ids : List String) (db : Db) :
    ℕ → Except TxError (Commit (List String))
  | 0 => applyBatch ctx run ids db
  | races + 1 =>
    match applyBatch ctx run ids db with
    | .ok c => .ok c
    | .error e => if retryableBatchError e then applyRerun ctx run ids db races else .error e

/-- `apply`: the page's transaction, and what it counts once it commits. -/
def BulkWalk.apply (ctx : Context) (ops : Operators) (spec : BulkSpec) (w : BulkWalk) (db : Db)
    (rows : List JobRow) : Except TxError (Db × BulkWalk) := do
  let ids := rows.map JobRow.id
  let run := w.run ops spec
  let c ← applyRerun ctx run ids db replayBatchRetries
  let locked := run.locked ids db
  let counted := w.count ops spec db locked (locked.filter fun r => c.out.contains r.id)
  return (c.db, { counted with
      result := { counted.result with
        batches := w.result.batches + if c.out = [] then 0 else 1 }
      fired := w.fired ++ (c.fires.filter FireCall.fired).map fun call =>
        barrierKey call.parentID })

/-- A bulk call that ended. -/
structure BulkEnd where
  db : Db
  walk : BulkWalk
  result : BulkResult
  error : Option BulkError

/-- `snapshot`: the result so far. -/
def BulkWalk.snapshot (w : BulkWalk) : BulkResult := { w.result with resumeAfter := w.cursor }

/-- The end of a call that was stopped or failed. -/
def BulkWalk.stop (w : BulkWalk) (db : Db) (e : BulkError) : BulkEnd :=
  { db, walk := w, result := w.snapshot, error := some e }

/-- The end of a walk, with the sample read (`readSample`). -/
def BulkWalk.finish (w : BulkWalk) (db : Db) (done : Bool) : BulkEnd where
  db := db
  walk := w
  result := { w.snapshot with
    done
    sample := (sortedJobs (fun r => r.visible && w.sample.contains r.id) db).reverse }
  error := none

/-- One round of the walk: the context's check, the page, and the dry run's count of it or its
transaction. The call ends, or goes on. -/
def walkRound (ctx : Context) (dead : Bool) (ops : Operators) (spec : BulkSpec) (db : Db)
    (w : BulkWalk) : BulkEnd ⊕ Db × BulkWalk :=
  if dead then .inl (w.stop db .cancelled)
  else
    let limit := min spec.size (spec.limit - w.passed)
    if limit = 0 then
      if spec.dryRun then .inl (w.finish db (!w.result.matchedCapped))
      else if w.probe ops spec db then .inl (w.stop db .tooLarge)
      else .inl (w.finish db true)
    else
      let page := w.read ops spec limit db
      let counted := if spec.dryRun then .ok (db, w.preview ops spec db page.rows)
        else if page.rows = [] then .ok (db, w)
        else w.apply ctx ops spec db page.rows
      match counted with
      | .error e => .inl (({ w with next := page.next } : BulkWalk).stop db (.batch e))
      | .ok (db, counted) =>
        let moved := { counted with
          passed := w.passed + page.rows.length, cursor := page.last, next := page.next }
        if page.ends then .inl (moved.finish db true) else .inr (db, moved)

/-- The walk, for at most `fuel` rounds. -/
def walkLoop (call : ℕ → Context) (dead : ℕ → Bool) (ops : Operators) (spec : BulkSpec) :
    ℕ → ℕ → Db → BulkWalk → Option BulkEnd
  | 0, _, _, _ => none
  | fuel + 1, i, db, w =>
    match walkRound (call i) (dead i) ops spec db w with
    | .inl e => some e
    | .inr (db, w) => walkLoop call dead ops spec fuel (i + 1) db w

/-- `countSelection`: the matches, up to one more than the limit. -/
def BulkSpec.countSelection (ops : Operators) (spec : BulkSpec) (db : Db) : ℕ :=
  min (db.jobs.rows.countP (spec.shows ops db)) (spec.limit + 1)

/-- How a walk begins, with its selection counted. -/
def BulkSpec.start (ops : Operators) (spec : BulkSpec) (now : Time) (db : Db) : BulkWalk where
  result :=
    { matched := min (spec.countSelection ops db) spec.limit
      matchedCapped := decide (spec.limit < spec.countSelection ops db) }
  cursor := spec.after
  now := now

/-- `BulkJobs`: the refusals, the context's check, the count, then the walk. -/
def bulkJobs (call : ℕ → Context) (entryDead : Bool) (dead : ℕ → Bool) (ops : Operators)
    (dialect : Dialect) (spec : BulkSpec) (fuel : ℕ) (db : Db) : Option BulkEnd :=
  let idle : BulkWalk := { result := {}, cursor := spec.after, now := (call 0).clock 0 }
  match spec.refuse (call 0) dialect with
  | .error e => some { db, walk := idle, result := {}, error := some e }
  | .ok _ =>
    if entryDead then some (idle.stop db .cancelled)
    else
      let w := spec.start ops ((call 0).clock 0) db
      if w.result.matchedCapped && !spec.dryRun then some (w.stop db .tooLarge)
      else walkLoop call dead ops spec fuel 0 db w

end Flywheel
