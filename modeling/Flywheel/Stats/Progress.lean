import Flywheel.Library.History
import Flywheel.Stats.Aggregate

/-!
# The covered range and the hours' rows

The statements of the rollup: the row of `job_stats_progress` with the hours that are covered, the
conditional steps that extend them, the probes that skip a quiet stretch, and the transaction that
replaces an hour's rows. A step is applied to the edges as they are when it commits, not to those
that its writer read.
-/

namespace Flywheel

open Relational Transition

/-- What the rollup's statements depend on beside the tables. -/
structure StatsEnv where
  dialect : Dialect := .postgres
  hash : ErrorHash := {}

/-- Why a call of the rollup, or of retention, fails. -/
inductive StatsError where
  | database
  | cancelled
  -- `errRollupWouldShrink`
  | wouldShrink (what : String) (stored recomputed : ℤ)
  | validation (field message : String)
  | rebuildRefused (what : String) (stored recomputed : ℤ)
  | duplicateRow
  | rules (e : TxError)
deriving DecidableEq, Repr

/-! ## The progress row -/

/-- `statsProgress`: the progress row in times. -/
structure StatsProgress where
  coveredFrom : Time := zeroTime
  coveredTo : Time := zeroTime
  retainFrom : Time := zeroTime
  version : ℤ := 0
deriving DecidableEq, Inhabited

/-- `statsProgress.covered` -/
def StatsProgress.covered (p : StatsProgress) : Bool := decide (p.coveredFrom < p.coveredTo)

/-- `statsProgress.covers` -/
def StatsProgress.covers (p : StatsProgress) (h : Time) : Bool :=
  decide (p.coveredFrom ≤ h) && decide (h < p.coveredTo)

/-- The progress row, in times. -/
def ProgressRow.times (p : ProgressRow) : StatsProgress where
  coveredFrom := unixHour p.coveredFrom
  coveredTo := unixHour p.coveredTo
  retainFrom := unixHour p.retainFrom
  version := p.version

/-- `readStatsProgress` -/
def readStatsProgress (db : Db) : Option StatsProgress := db.progress.map ProgressRow.times

/-- `ensureStatsProgress` -/
def ensureStatsProgress (bucket now : Time) (db : Db) : Db :=
  { db with
    progress := db.progress.or (some
      { coveredFrom := unix bucket, coveredTo := unix bucket, retainFrom := unix bucket
        version := 1, updatedAt := now }) }

/-- `coverageStep`: every hour in `[upFrom, upTo)` and in `[downFrom, downTo)` is rolled or
empty. -/
structure CoverageStep where
  upFrom : Time := zeroTime
  upTo : Time := zeroTime
  downFrom : Time := zeroTime
  downTo : Time := zeroTime
deriving DecidableEq, Inhabited

/-- `stepUp` -/
def stepUp (start stop : Time) : CoverageStep := { upFrom := start, upTo := stop }

/-- `stepDown` -/
def stepDown (start stop : Time) : CoverageStep := { downFrom := start, downTo := stop }

/-- A step's change of the progress row: an edge inside its span moves across it. -/
def CoverageStep.apply (step : CoverageStep) (now : Time) (p : ProgressRow) : ProgressRow :=
  { p with
    coveredTo :=
      if unix step.upFrom ≤ p.coveredTo ∧ p.coveredTo < unix step.upTo then unix step.upTo
      else p.coveredTo
    coveredFrom :=
      if unix step.downFrom < p.coveredFrom ∧ p.coveredFrom ≤ unix step.downTo then
        unix step.downFrom
      else p.coveredFrom
    version := p.version + 1
    updatedAt := now }

/-- `applyCoverageStep`, and `markCovered`. -/
def applyCoverageStep (step : CoverageStep) (now : Time) (db : Db) : Db :=
  { db with progress := db.progress.map (step.apply now) }

/-- The change that `advanceStatsFloor` makes: the boundary is recorded, and an edge below it raised
to it. -/
def ProgressRow.raise (earliest now : Time) (p : ProgressRow) : ProgressRow :=
  let e := unix earliest
  if p.coveredFrom < e ∨ p.coveredTo < e ∨ p.retainFrom ≠ e then
    { coveredFrom := if p.coveredFrom < e then e else p.coveredFrom
      coveredTo := if p.coveredTo < e then e else p.coveredTo
      retainFrom := e
      version := p.version + if p.coveredFrom < e ∨ p.coveredTo < e then 1 else 0
      updatedAt := now }
  else p

/-- The update of `advanceStatsFloor`. -/
def raiseStatsFloor (earliest now : Time) (db : Db) : Db :=
  { db with progress := db.progress.map (ProgressRow.raise earliest now) }

/-! ## The probes -/

/-- `nextFinishedAt` -/
def nextFinishedAt (start : Time) (db : Db) : Option Time :=
  ((db.finishes.map FinishRow.finishedAt).filter fun t => decide (start ≤ t)).min?

/-- `prevFinishedAt` -/
def prevFinishedAt (lo hi : Time) (db : Db) : Option Time :=
  ((db.finishes.map FinishRow.finishedAt).filter fun t => decide (lo ≤ t ∧ t < hi)).max?

/-- `probeJobIDs` in id order. -/
def firstJobID (start stop : Time) (db : Db) : Option String :=
  if start < stop then ((insertedJobs start stop db).map JobRow.id).min? else none

/-- `probeJobIDs` in descending id order. -/
def lastJobID (start stop : Time) (db : Db) : Option String :=
  if start < stop then ((insertedJobs start stop db).map JobRow.id).max? else none

/-! ## An hour's rows -/

/-- The rows stored for the hour that starts at a time. -/
def Db.hourlyAt (db : Db) (bucket : Time) : List StatsHourRow :=
  db.hourly.filter fun r => decide (r.bucketStart = unix bucket)

/-- The error groups stored for the hour that starts at a time. -/
def Db.errorGroupsAt (db : Db) (bucket : Time) : List ErrorGroupHourRow :=
  db.errorGroups.filter fun r => decide (r.bucketStart = unix bucket)

/-- What one `rollupHour` writes: what it read of the hour, and how. -/
structure HourWrite where
  bucket : Time
  rolledAt : Time
  guard : Bool
  step : CoverageStep
  rows : List WindowRow
  counts : Dict StatsGroup ℤ

/-- The aggregates of a write. -/
def HourWrite.agg (env : StatsEnv) (w : HourWrite) : WindowAgg :=
    aggregateRows env.hash w.rows w.counts

/-- The runs that an aggregate counts. -/
def RunAgg.counted (a : RunAgg) : ℤ := a.attempts + a.superseded

/-- The totals of the hour's rows under the total's key. -/
def Db.storedTotals (db : Db) (bucket : Time) : List StatsHourRow :=
  (db.hourlyAt bucket).filter fun r => decide (r.key = (statsTotalKey, statsTotalKey))

/-- The runs that the stored hour counts: `stored.Runs` of `refuseShrink`. -/
def Db.storedRuns (db : Db) (bucket : Time) : ℤ :=
  ((db.storedTotals bucket).map fun r => r.agg.counted).sum

/-- The inserts that the stored hour counts: `stored.Enqueued` of `refuseShrink`. -/
def Db.storedEnqueued (db : Db) (bucket : Time) : ℤ :=
  ((db.storedTotals bucket).map fun r => r.agg.enqueued).sum

/-- `refuseShrink` -/
def refuseShrink (bucket : Time) (aggs : Dict StatsGroup RunAgg) (db : Db) :
    Except StatsError Unit :=
  let runs := (aggs.values.map RunAgg.counted).sum
  let enqueued := (aggs.values.map RunAgg.enqueued).sum
  if runs < db.storedRuns bucket then .error (.wouldShrink "runs" (db.storedRuns bucket) runs)
  else if enqueued < db.storedEnqueued bucket then
    .error (.wouldShrink "enqueued jobs" (db.storedEnqueued bucket) enqueued)
  else .ok ()

/-- One row of an upsert, in the place of the one under its key. -/
def upsertRow {ρ κ : Type} [DecidableEq κ] (key : ρ → κ) (stored : List ρ) (r : ρ) : List ρ :=
  (stored.filter fun s => decide (key s ≠ key r)) ++ [r]

/-- An upsert of several rows: PostgreSQL refuses a statement that writes a key twice, SQLite keeps
the last of them. -/
def upsertRows {ρ κ : Type} [DecidableEq κ] (dialect : Dialect) (key : ρ → κ)
    (rows stored : List ρ) : Except StatsError (List ρ) :=
  if dialect = .postgres ∧ ¬ (rows.map key).Nodup then .error .duplicateRow
  else .ok (rows.foldl (upsertRow key) stored)

/-- The primary key of an hour's row. -/
def StatsHourRow.primaryKey (r : StatsHourRow) : ℤ × String × String := (r.bucketStart, r.key)

/-- The primary key of an error group's row. -/
def ErrorGroupHourRow.primaryKey (r : ErrorGroupHourRow) : ℤ × String × String :=
    (r.bucketStart, r.key)

/-- The transaction of `rollupHour`: the hour's rows replaced, and the range extended across it. -/
def replaceHour (env : StatsEnv) (w : HourWrite) (db : Db) : Except StatsError Db := do
  let agg := w.agg env
  if w.guard then refuseShrink w.bucket agg.runs db
  let hourly ← upsertRows env.dialect StatsHourRow.primaryKey
    (hourRows w.bucket agg.runs w.rolledAt)
    (db.hourly.filter fun r => decide (r.bucketStart ≠ unix w.bucket))
  let errorGroups ← upsertRows env.dialect ErrorGroupHourRow.primaryKey
    (errorGroupHourRows w.bucket agg.groups w.rolledAt)
    (db.errorGroups.filter fun r => decide (r.bucketStart ≠ unix w.bucket))
  return applyCoverageStep w.step w.rolledAt { db with hourly, errorGroups }

/-- The prune of `job_stats_hourly`, with the number of its rows. -/
def pruneStats (before : Time) (db : Db) : Db × ℕ :=
  let kept := db.hourly.filter fun r => decide (unix before ≤ r.bucketStart)
  ({ db with hourly := kept }, db.hourly.length - kept.length)

/-- The prune of `job_error_groups_hourly`, with the number of its rows. -/
def pruneErrorGroups (before : Time) (db : Db) : Db × ℕ :=
  let kept := db.errorGroups.filter fun r => decide (unix before ≤ r.bucketStart)
  ({ db with errorGroups := kept }, db.errorGroups.length - kept.length)

end Flywheel
