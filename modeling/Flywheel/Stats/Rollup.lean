import Flywheel.Library.RelyGuarantee
import Flywheel.Retention.Model
import Flywheel.Stats.Progress
import Flywheel.System

/-!
# Rollup passes, rebuilds, backfills and held retention

`rollupPass`, `RebuildStats` and `BackfillRunFinishes` as programs of statements over the shared
tables, with `DeleteFinishedJobsWithOptions` beside them: between two statements of one call any
other call, and any transaction of the jobs, may commit. The aggregate of an hour is read before the
transaction that stores it. The walks give their loops a number of rounds; a walk that has used them
up ends as one whose context was cancelled does.

Beside the tables the state keeps what the statements about them need: the hours that calls treat as
closed, the runs that the stored rollup of each hour counted, the writes that stored fewer runs than
they replaced, and the runs that retention deleted.
-/

namespace Flywheel

open Relational Threads

/-! ## The state -/

/-- A committed write of an hour that counts fewer runs than the rows that it replaced. -/
structure Shrink where
  bucket : Time
  stored : ℤ
  written : ℤ
deriving DecidableEq, Repr

/-- A run that a retention batch deleted, with the progress row at that moment. -/
structure DeletedRun where
  run : JobRunRow
  progress : Option ProgressRow

/-- The tables, and what is recorded about them. -/
structure StatsState where
  db : Db := {}
  -- the times before which some call treats the hours as closed
  closed : List Time := []
  -- the runs that the stored rollup of an hour counted, by its Unix start
  counted : ℤ → List String := fun _ => []
  shrinks : List Shrink := []
  deleted : List DeletedRun := []

/-- The state after a write of an hour. -/
def StatsState.written (s : StatsState) (w : HourWrite) (db : Db) : StatsState :=
  { s with
    db
    counted := fun u => if u = unix w.bucket then w.rows.map WindowRow.id else s.counted u
    shrinks :=
      if db.storedRuns w.bucket < s.db.storedRuns w.bucket then
        s.shrinks ++ [{ bucket := w.bucket, stored := s.db.storedRuns w.bucket
                        written := db.storedRuns w.bucket }]
      else s.shrinks }

/-- The state after a prune of the hours' rows. -/
def StatsState.pruned (s : StatsState) (before : Time) : StatsState :=
  { s with
    db := (pruneStats before s.db).1
    counted := fun u => if u < unix before then [] else s.counted u }

/-- The state after a retention batch. -/
def StatsState.retained (s : StatsState) (cutoff : JobRow → Bool) (cursor : String) (limit : ℕ) :
    StatsState :=
  let ids := finishedIDs cutoff cursor limit s.db
  { s with
    db := (deleteFinishedBatch cutoff cursor limit s.db).1
    deleted := s.deleted ++ (s.db.runs.rows.filter fun r => decide (r.jobID ∈ ids)).map fun run =>
      { run, progress := s.db.progress } }

/-! ## The runs of an older release -/

/-- `unloggedLegacyRunPredicate`: a finished run without a kind that the finish log lacks. -/
def unloggedLegacyRun (db : Db) (r : JobRunRow) : Bool :=
  decide (r.kind = "") &&
    r.finishedAt.any fun t => decide ({ finishedAt := t, runID := r.id } ∉ db.finishes)

/-- The probe of `BackfillRunFinishes`. -/
def probeUnlogged (db : Db) : List String :=
  ((db.runs.rows.filter (unloggedLegacyRun db)).map JobRunRow.id).take 1

/-- The ids of a batch of `backfillWalk`, whose cursor is empty before the first. -/
def runIDsAfter (cursor : String) (limit : ℕ) (db : Db) : List String :=
  (((db.runs.rows.filter fun r => decide (cursor = "") || decide (cursor < r.id)).map
    JobRunRow.id).insertionSort (· ≤ ·)).take limit

/-- The unlogged runs between two ids, with their finishes. -/
def unloggedBetween (first last : String) (db : Db) : List (String × Time) :=
  (db.runs.rows.filter fun r =>
    decide (first ≤ r.id ∧ r.id ≤ last) && unloggedLegacyRun db r).filterMap fun r =>
      r.finishedAt.map fun t => (r.id, t)

/-! ## The operations -/

/-- The statements of the calls, and the moment when a call takes the hours before a time as
closed. -/
inductive StatsOp where
  | treatClosed (before : Time)
  | readProgress
  | ensureProgress (bucket now : Time)
  | raiseFloor (earliest now : Time)
  | nextFinishedAt (start : Time)
  | prevFinishedAt (lo hi : Time)
  | firstJobID (start stop : Time)
  | lastJobID (start stop : Time)
  | readRuns (start stop : Time)
  | countEnqueued (start stop : Time)
  | replaceHour (w : HourWrite)
  | markCovered (step : CoverageStep) (now : Time)
  | pruneStats (before : Time)
  | pruneErrorGroups (before : Time)
  | statsRetentionCap
  | deleteBatch (cutoff : JobRow → Bool) (cursor : String) (limit : ℕ)
  -- `NormalizeRunTimestamps`, which leaves every time the instant that it is
  | normalizeTimestamps
  | checkContext
  | probeUnlogged
  | runIDsAfter (cursor : String) (limit : ℕ)
  | unloggedBetween (first last : String)
  | logFinishes (ids : List String)

/-- What a statement answers when it does not fail. -/
abbrev StatsOp.Answer : StatsOp → Type
  | .treatClosed _ => Unit
  | .readProgress => Option StatsProgress
  | .ensureProgress .. => Unit
  | .raiseFloor .. => Unit
  | .nextFinishedAt _ => Option Time
  | .prevFinishedAt .. => Option Time
  | .firstJobID .. => Option String
  | .lastJobID .. => Option String
  | .readRuns .. => List WindowRow
  | .countEnqueued .. => Dict StatsGroup ℤ
  | .replaceHour _ => Unit
  | .markCovered .. => Unit
  | .pruneStats _ => ℕ
  | .pruneErrorGroups _ => ℕ
  | .statsRetentionCap => Option Time
  | .deleteBatch .. => ℕ × String
  | .normalizeTimestamps => Unit
  | .checkContext => Unit
  | .probeUnlogged => List String
  | .runIDsAfter .. => List String
  | .unloggedBetween .. => List (String × Time)
  | .logFinishes _ => ℕ

/-- What a statement returns. -/
abbrev StatsOp.Result (o : StatsOp) : Type := Except StatsError o.Answer

/-- The input of a statement: whether it fails. -/
inductive StatsInput where
  | run
  | fail
deriving DecidableEq

/-- What a statement does. -/
@[simp]
def StatsOp.act (env : StatsEnv) (s : StatsState) :
    (o : StatsOp) → Except StatsError (StatsState × o.Answer)
  | .treatClosed before => .ok ({ s with closed := before :: s.closed }, ())
  | .readProgress => .ok (s, readStatsProgress s.db)
  | .ensureProgress bucket now => .ok ({ s with db := ensureStatsProgress bucket now s.db }, ())
  | .raiseFloor earliest now => .ok ({ s with db := raiseStatsFloor earliest now s.db }, ())
  | .nextFinishedAt start => .ok (s, Flywheel.nextFinishedAt start s.db)
  | .prevFinishedAt lo hi => .ok (s, Flywheel.prevFinishedAt lo hi s.db)
  | .firstJobID start stop => .ok (s, Flywheel.firstJobID start stop s.db)
  | .lastJobID start stop => .ok (s, Flywheel.lastJobID start stop s.db)
  | .readRuns start stop => .ok (s, runWindow start stop s.db)
  | .countEnqueued start stop => .ok (s, Flywheel.countEnqueued start stop {} s.db)
  | .replaceHour w => (Flywheel.replaceHour env w s.db).map fun db => (s.written w db, ())
  | .markCovered step now => .ok ({ s with db := applyCoverageStep step now s.db }, ())
  | .pruneStats before => .ok (s.pruned before, (Flywheel.pruneStats before s.db).2)
  | .pruneErrorGroups before =>
    .ok ({ s with db := (Flywheel.pruneErrorGroups before s.db).1 },
      (Flywheel.pruneErrorGroups before s.db).2)
  | .statsRetentionCap => .ok (s, Flywheel.statsRetentionCap s.db)
  | .deleteBatch cutoff cursor limit =>
    .ok (s.retained cutoff cursor limit, (deleteFinishedBatch cutoff cursor limit s.db).2)
  | .normalizeTimestamps => .ok (s, ())
  | .checkContext => .ok (s, ())
  | .probeUnlogged => .ok (s, Flywheel.probeUnlogged s.db)
  | .runIDsAfter cursor limit => .ok (s, Flywheel.runIDsAfter cursor limit s.db)
  | .unloggedBetween first last => .ok (s, Flywheel.unloggedBetween first last s.db)
  | .logFinishes ids =>
    .ok ({ s with db := Flywheel.logFinishes ids s.db },
      (Flywheel.logFinishes ids s.db).finishes.length - s.db.finishes.length)

/-- The machine of the statements: one that fails changes nothing. -/
@[simp]
def statsMachine (env : StatsEnv) : Machine StatsState StatsInput ℕ StatsOp StatsOp.Result
  | _, .fail, s => some (s, .error .database, [])
  | o, .run, s =>
    match o.act env s with
    | .ok (s', a) => some (s', .ok a, [])
    | .error e => some (s, .error e, [])

/-- A program of statements, which the first error ends. -/
abbrev StatsM (α : Type) : Type := ExceptT StatsError (Prog StatsOp StatsOp.Result) α

/-- The tables and the calls. -/
abbrev StatsSys : Type := Sys StatsState ℕ StatsOp StatsOp.Result

/-! ## The calls -/

namespace Rollup

/-- A single statement. -/
def stmt (o : StatsOp) : StatsM o.Answer := ExceptT.mk (Prog.call o)

/-- `rollupHour`: the number of the groups that it wrote. -/
def rollupHour (env : StatsEnv) (bucket rolledAt : Time) (guard : Bool) (step : CoverageStep) :
    StatsM ℕ := do
  let rows ← stmt (.readRuns bucket (bucket + hour))
  let counts ← stmt (.countEnqueued bucket (bucket + hour))
  stmt (.replaceHour { bucket, rolledAt, guard, step, rows, counts })
  return (aggregateRows env.hash rows counts).runs.entries.length

/-- `nextActivityAt` -/
def nextActivityAt (start hi : Time) : StatsM (Option Time) := do
  let next ← stmt (.nextFinishedAt start)
  match ← stmt (.firstJobID start (min hi (next.getD hi))) with
  | none => return next
  | some id => return some ((idTime id).getD start)

/-- `prevActivityAt` -/
def prevActivityAt (lo hi : Time) : StatsM (Option Time) := do
  let prev ← stmt (.prevFinishedAt lo hi)
  match ← stmt (.lastJobID (max lo (prev.getD lo)) hi) with
  | none => return prev
  | some id => return some ((idTime id).getD (hi - hour))

/-- `rollWalk` -/
structure RollWalk where
  rolled : List Time := []
  groups : ℕ := 0
  reached : Time
  done : Bool := false

/-- The walk after one more hour. -/
def RollWalk.add (w : RollWalk) (bucket : Time) (groups : ℕ) (reached : Time) : RollWalk :=
  { w with rolled := w.rolled ++ [bucket], groups := w.groups + groups, reached }

/-- The walk has rolled as many hours as it may. -/
def RollWalk.spent (w : RollWalk) (budget : ℤ) : Bool :=
  decide (0 < budget) && decide (budget ≤ w.rolled.length)

/-- The loop of `rollForward`. -/
def forward (env : StatsEnv) (hi now : Time) (guard : Bool) (budget : ℤ) :
    ℕ → RollWalk → StatsM RollWalk
  | 0, _ => throw .cancelled
  | rounds + 1, w =>
    if w.reached < hi then
      if w.spent budget then return w
      else do
        match (← nextActivityAt w.reached hi).filter fun t => decide (floorHour t < hi) with
        | none =>
          stmt (.markCovered (stepUp w.reached hi) now)
          return { w with reached := hi, done := true }
        | some next =>
          let bucket := floorHour next
          let n ← rollupHour env bucket now guard (stepUp w.reached (bucket + hour))
          forward env hi now guard budget rounds (w.add bucket n (bucket + hour))
    else return { w with done := true }

/-- `rollForward` -/
def rollForward (env : StatsEnv) (rounds : ℕ) (lo hi now : Time) (guard : Bool) (budget : ℤ) :
    StatsM RollWalk :=
  forward env hi now guard budget rounds { reached := lo }

/-- The loop of `rollBackward`. -/
def backward (env : StatsEnv) (lo now : Time) (guard : Bool) (budget : ℤ) :
    ℕ → RollWalk → StatsM RollWalk
  | 0, _ => throw .cancelled
  | rounds + 1, w =>
    if lo < w.reached then
      if w.spent budget then return w
      else do
        match ← prevActivityAt lo w.reached with
        | none =>
          stmt (.markCovered (stepDown lo w.reached) now)
          return { w with reached := lo, done := true }
        | some prev =>
          let bucket := floorHour prev
          let n ← rollupHour env bucket now guard (stepDown bucket w.reached)
          backward env lo now guard budget rounds (w.add bucket n bucket)
    else return { w with done := true }

/-- `rollBackward` -/
def rollBackward (env : StatsEnv) (rounds : ℕ) (lo hi now : Time) (guard : Bool) (budget : ℤ) :
    StatsM RollWalk :=
  backward env lo now guard budget rounds { reached := hi }

/-- `advanceStatsFloor` -/
def advanceStatsFloor (earliest now : Time) : StatsM StatsProgress := do
  let p ← stmt .readProgress
  if p.any fun p => decide (earliest ≤ p.coveredFrom ∧ earliest ≤ p.coveredTo ∧
      p.retainFrom = earliest) then
    return p.getD {}
  else
    if p.isNone then stmt (.ensureProgress earliest now)
    stmt (.raiseFloor earliest now)
    return (← stmt .readProgress).getD {}

/-- `rollupConfig`, which `RollupStats` fills with the defaults. -/
structure RollupConfig where
  grace : Duration
  maxHours : ℤ
  retention : Duration

/-- `RollupResult` -/
structure RollupResult where
  rolled : List Time
  rolledFrom : Time
  watermark : Time
  caughtUp : Bool
  pruned : ℕ

/-- The last closed hour's end, for a grace. -/
def closedBefore (now : Time) (grace : Duration) : Time := floorHour (now - grace)

/-- The oldest hour that a pass keeps. -/
def earliestKept (now : Time) (cfg : RollupConfig) : Time :=
  min (floorHour (now - cfg.retention)) (closedBefore now cfg.grace)

/-- `rollupPass` -/
def rollupPass (env : StatsEnv) (rounds : ℕ) (now : Time) (cfg : RollupConfig) :
    StatsM RollupResult := do
  let closed := closedBefore now cfg.grace
  let earliest := earliestKept now cfg
  stmt (.treatClosed closed)
  let p ← advanceStatsFloor earliest now
  let fwd ← rollForward env rounds p.coveredTo closed now false cfg.maxHours
  let left := cfg.maxHours - fwd.rolled.length
  let back ← if fwd.done && decide (0 < left) then
      rollBackward env rounds earliest p.coveredFrom now false left
    else pure { reached := p.coveredFrom, done := !decide (earliest < p.coveredFrom) }
  let after := (← stmt .readProgress).getD {}
  let stats ← stmt (.pruneStats earliest)
  let groups ← stmt (.pruneErrorGroups earliest)
  return { rolled := back.rolled.reverse ++ fwd.rolled
           rolledFrom := after.coveredFrom, watermark := after.coveredTo
           caughtUp := fwd.done && back.done, pruned := stats + groups }

/-- `RebuildOpts` -/
structure RebuildOpts where
  start : Time
  stop : Time
  grace : Duration := 0
  force : Bool := false

/-- `defaultStatsRollupGrace` -/
def defaultStatsRollupGrace : Duration := 300 * second

/-- `RebuildResult` -/
structure RebuildResult where
  start : Time
  stop : Time
  hours : ℕ := 0
  groups : ℕ := 0
  rolledFrom : Time := zeroTime
  rolledThrough : Time := zeroTime

/-- The result after a walk over a gap. -/
def RebuildResult.walked (res : RebuildResult) (w : RollWalk) : RebuildResult :=
  { res with hours := res.hours + w.rolled.length, groups := res.groups + w.groups }

/-- The loops of `rebuildRange` over hours, each rebuilt with the step that `stepOf` gives it. -/
def rebuildHours (env : StatsEnv) (now : Time) (guard : Bool) (stepOf : Time → CoverageStep) :
    List Time → RebuildResult → StatsM RebuildResult
  | [], res => return res
  | bucket :: buckets, res => do
    let n ← rollupHour env bucket now guard (stepOf bucket)
    rebuildHours env now guard stepOf buckets
      { res with hours := res.hours + 1, groups := res.groups + n }

/-- The hours from `start` on that start before `stop`, in order. -/
def hoursUp (start stop : Time) : List Time :=
  (List.range (Int.toNat ((stop - start + hour - 1) / hour))).map fun k : ℕ => start + k * hour

/-- The hours below `top` that start at `start` or after it, newest first. -/
def hoursDown (start top : Time) : List Time :=
  (List.range (Int.toNat ((top - start) / hour))).map fun k : ℕ => top - (k + 1) * hour

/-- The part of `rebuildRange` above the covered range: any gap below the hours, then the hours,
oldest first. -/
def rebuildAbove (env : StatsEnv) (rounds : ℕ) (start stop now : Time) (guard : Bool)
    (p : StatsProgress) (res : RebuildResult) : StatsM RebuildResult :=
  if p.coveredTo < stop then do
    let first := max start p.coveredTo
    let gap ← rollForward env rounds p.coveredTo first now guard 0
    rebuildHours env now guard (fun h => stepUp h (h + hour)) (hoursUp first stop) (res.walked gap)
  else return res

/-- The part of `rebuildRange` below the covered range: any gap above the hours, then the hours,
newest first. -/
def rebuildBelow (env : StatsEnv) (rounds : ℕ) (start stop now : Time) (guard : Bool)
    (p : StatsProgress) (res : RebuildResult) : StatsM RebuildResult :=
  if start < p.coveredFrom then do
    let top := min stop p.coveredFrom
    let gap ← rollBackward env rounds top p.coveredFrom now guard 0
    rebuildHours env now guard (fun h => stepDown h (h + hour)) (hoursDown start top)
      (res.walked gap)
  else return res

/-- `rebuildRange` -/
def rebuildRange (env : StatsEnv) (rounds : ℕ) (start stop now : Time) (guard : Bool)
    (res : RebuildResult) : StatsM RebuildResult := do
  stmt (.ensureProgress start now)
  let p := (← stmt .readProgress).getD {}
  let res ← rebuildHours env now guard (fun _ => {})
    (hoursUp (max start p.coveredFrom) (min stop p.coveredTo)) res
  let res ← rebuildAbove env rounds start stop now guard p res
  rebuildBelow env rounds start stop now guard p res

/-- The error that `RebuildStats` returns for an hour that would shrink. -/
def rebuildError : StatsError → StatsError
  | .wouldShrink what stored recomputed => .rebuildRefused what stored recomputed
  | e => e

/-- `RebuildStats` -/
def rebuildStats (env : StatsEnv) (rounds : ℕ) (now : Time) (opts : RebuildOpts) :
    StatsM RebuildResult :=
  if opts.start = zeroTime ∨ opts.stop = zeroTime then
    throw (.validation "rebuild range" "requires both From and To")
  else do
    let closed := closedBefore now (if opts.grace ≤ 0 then defaultStatsRollupGrace else opts.grace)
    let start := floorHour opts.start
    let stop := min opts.stop closed
    stmt (.treatClosed closed)
    let res ← if start < ceilHour stop then
        (rebuildRange env rounds start (ceilHour stop) now (!opts.force) { start, stop }).adapt
          rebuildError
      else pure { start, stop }
    let p := (← stmt .readProgress).getD {}
    return { res with rolledFrom := p.coveredFrom, rolledThrough := p.coveredTo }

/-- `backfillBatchSize` -/
def backfillBatchSize : ℕ := 1000

/-- The loop of `backfillWalk`: the entries that it wrote, and the Unix starts of the hours that
they fell in. -/
def backfillWalk : ℕ → String → ℕ → List ℤ → StatsM (ℕ × List ℤ)
  | 0, _, _, _ => throw .cancelled
  | rounds + 1, cursor, written, hours => do
    stmt .checkContext
    let ids ← stmt (.runIDsAfter cursor backfillBatchSize)
    match ids with
    | [] => return (written, hours)
    | first :: _ =>
      let last := ids.getLast?.getD ""
      let found ← stmt (.unloggedBetween first last)
      let n ← if found = [] then pure 0 else stmt (.logFinishes (found.map Prod.fst))
      backfillWalk rounds last (written + n)
        (hours ++ found.map fun f => unix (floorHour f.2)).dedup

/-- The loop of `rerollCoveredHours`, in which an hour that would shrink keeps its rollup. -/
def rerollHours (env : StatsEnv) (now : Time) (p : StatsProgress) : List ℤ → StatsM Unit
  | [] => return ()
  | sec :: secs => do
    if p.covers (unixHour sec) then
      tryCatch (do let _ ← rollupHour env (unixHour sec) now true {}) fun
        | .wouldShrink .. => return ()
        | e => throw e
    rerollHours env now p secs

/-- `rerollCoveredHours` -/
def rerollCoveredHours (env : StatsEnv) (now : Time) (hours : List ℤ) : StatsM Unit :=
  if hours = [] then return ()
  else do
    match ← stmt .readProgress with
    | none => return ()
    | some p => if p.covered then rerollHours env now p (hours.insertionSort (· ≤ ·))

/-- `BackfillRunFinishes` -/
def backfillRunFinishes (env : StatsEnv) (rounds : ℕ) (now : Time) : StatsM ℕ := do
  stmt .normalizeTimestamps
  if (← stmt .probeUnlogged) = [] then return 0
  else
    let (written, hours) ← backfillWalk rounds "" 0 []
    rerollCoveredHours env now hours
    return written

/-- The batches of a retention pass, up to so many, with the number of the jobs that they
deleted. -/
def deleteBatches (cutoff : JobRow → Bool) (limit : ℕ) : ℕ → String → ℕ → StatsM ℕ
  | 0, _, deleted => return deleted
  | n + 1, cursor, deleted => do
    let (count, last) ← stmt (.deleteBatch cutoff cursor limit)
    if last = "" then return deleted + count
    else deleteBatches cutoff limit n last (deleted + count)

/-- `DeleteFinishedJobsWithOptions`: `rounds` bounds the batches of a pass that has no ceiling. -/
def deleteFinishedJobs (rounds : ℕ) (o : RetentionOpts) (now olderThan : Time) : StatsM ℕ :=
  match validateRetentionRules o.rules with
  | .error e => throw (.rules e)
  | .ok () =>
    let batches := if o.maxBatches ≤ 0 then rounds else o.maxBatches.toNat
    if o.holdForStatsRollup then do
      match ← stmt .statsRetentionCap with
      | none => return 0
      | some held =>
        deleteBatches (retentionCutoff now (min held olderThan) o.rules (min held)) o.size
          batches "" 0
    else deleteBatches (retentionCutoff now olderThan o.rules id) o.size batches "" 0

end Rollup

/-! ## Histories -/

/-- A call of some process. -/
inductive StatsCall where
  | rollup (rounds : ℕ) (now : Time) (cfg : Rollup.RollupConfig)
  | rebuild (rounds : ℕ) (now : Time) (opts : Rollup.RebuildOpts)
  | retain (rounds : ℕ) (opts : RetentionOpts) (now olderThan : Time)

/-- The program of a call. -/
def StatsCall.prog (env : StatsEnv) : StatsCall → Prog StatsOp StatsOp.Result Unit
  | .rollup rounds now cfg => (Rollup.rollupPass env rounds now cfg).run >>= fun _ => pure ()
  | .rebuild rounds now opts => (Rollup.rebuildStats env rounds now opts).run >>= fun _ => pure ()
  | .retain rounds opts now olderThan =>
    (Rollup.deleteFinishedJobs rounds opts now olderThan).run >>= fun _ => pure ()

/-- The tables of the raw history. -/
structure RawTables where
  jobs : Table JobRow.id := Table.empty
  runs : Table JobRunRow.id := Table.empty
  finishes : List FinishRow := []

/-- The database with another raw history. -/
def Db.withRaw (db : Db) (t : RawTables) : Db :=
  { db with jobs := t.jobs, runs := t.runs, finishes := t.finishes }

/-- What happens next: a call's thread takes a statement, or is cut off; the raw history changes; or
a transaction of the jobs commits. -/
inductive StatsStep where
  | move (thread : ℕ) (input : StatsInput)
  | stop (thread : ℕ)
  | raw (t : RawTables)
  | act (a : Action)

/-- The system with another database. -/
def StatsSys.setDb (sys : StatsSys) (db : Db) : StatsSys :=
  { sys with shared := { sys.shared with db } }

/-- The system after a step. -/
def StatsSys.step (env : StatsEnv) (sys : StatsSys) : StatsStep → StatsSys
  | .move thread input => Threads.step (statsMachine env) sys (.move thread input)
  | .stop thread => Threads.step (statsMachine env) sys (.stop thread)
  | .raw t => sys.setDb (sys.shared.db.withRaw t)
  | .act a => sys.setDb (Flywheel.step sys.shared.db a)

/-- The calls, before the first of them takes a statement. -/
def statsStart (env : StatsEnv) (db : Db) (calls : List StatsCall) : StatsSys where
  shared := { db }
  threads := numbered (calls.map (StatsCall.prog env))

end Flywheel
