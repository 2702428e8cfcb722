import Mathlib.Data.List.Sort
import Flywheel.Database
import Flywheel.Library.Dict
import Flywheel.Stats.Ids

/-!
# Aggregates of a window

`aggregateWindow` reads the runs that finished in a window, through the finish log, and counts each
into the aggregate of its kind and queue and, if it is a failure, into its error group; it adds the
jobs inserted in the window. The rollup stores what it gives for an hour, as the rows that
`hourRows` and `errorGroupHourRows` render. The order in which a map's entries are visited is that
of their first use; the source's order is arbitrary.
-/

namespace Flywheel

open Relational

/-- `statsTotalKey`: the kind or the queue of a total. -/
def statsTotalKey : String := ""

/-- `unknownStatsKey` -/
def unknownStatsKey : String := "(unknown)"

/-- `statsGroup` -/
structure StatsGroup where
  kind : String
  queue : String
deriving DecidableEq, Inhabited

/-- `statsFilter`: an empty kind or queue matches every one. -/
structure StatsFilter where
  kind : String := ""
  queue : String := ""
deriving DecidableEq, Inhabited

/-- `filterSQL` -/
def StatsFilter.admits (f : StatsFilter) (g : StatsGroup) : Bool :=
  (decide (f.kind = "") || decide (g.kind = f.kind)) &&
    (decide (f.queue = "") || decide (g.queue = f.queue))

/-! ## The rows of a window -/

/-- One row of `runWindowSQL`: a run that finished in the window, with its kind, queue and job state
resolved. -/
structure WindowRow where
  group : StatsGroup
  id : String
  outcome : RunOutcome
  superseded : Bool
  jobState : Option JobState
  durationMs : Option ℤ
  queueWaitMs : Option ℤ
  costMicros : Option ℤ
  finishedAt : Time
  errorClass : Option ErrorClass
  errorFingerprint : Option String
  errorMessage : Option String
deriving DecidableEq

/-- `resolvedKindExpr` and `resolvedQueueExpr`: the run's own, and else its job's. -/
def resolvedColumn (own : String) (job : Option String) : String :=
  if own = "" then job.getD unknownStatsKey else own

/-- `resolvedJobStateExpr`: the state that the run applied, recovered through its job where a failed
run carries none. -/
def resolvedJobState (jobs : Table JobRow.id) (r : JobRunRow) : Option JobState :=
  if r.jobState.isSome then r.jobState
  else if !r.superseded && failedOutcome r.outcome then
    (jobs.get? r.jobID).bind fun j =>
      if j.state = .discarded ∧ j.attempt = r.attempt then some .discarded else none
  else none

/-- The row of a run that finished. -/
def windowRow (jobs : Table JobRow.id) (finishedAt : Time) (r : JobRunRow) : WindowRow where
  group :=
    { kind := resolvedColumn r.kind ((jobs.get? r.jobID).map JobRow.kind)
      queue := resolvedColumn r.queue ((jobs.get? r.jobID).map JobRow.queue) }
  id := r.id
  outcome := r.outcome
  superseded := r.superseded
  jobState := resolvedJobState jobs r
  durationMs := r.durationMs
  queueWaitMs := r.queueWaitMs
  costMicros := r.costMicros
  finishedAt := finishedAt
  errorClass := r.errorClass
  errorFingerprint := r.errorFingerprint
  errorMessage := if failedOutcome r.outcome then r.errorMessage else none

/-- `runWindowSQL`: the entries of the window, each with its run; one whose run is gone drops
out. -/
def runWindow (start stop : Time) (db : Db) : List WindowRow :=
  (db.finishes.filter fun e => decide (start ≤ e.finishedAt ∧ e.finishedAt < stop)).filterMap
    fun e =>
    (db.runs.get? e.runID).map (windowRow db.jobs e.finishedAt)

/-! ## Counting a run -/

/-- `newRunAgg` -/
def newRunAgg (g : StatsGroup) : RunAgg := { kind := g.kind, queue := g.queue }

/-- The group of an aggregate. -/
def RunAgg.group (a : RunAgg) : StatsGroup := { kind := a.kind, queue := a.queue }

/-- The row is that of a run which a sweep reclaimed, whatever it says now. -/
def WindowRow.crashed (w : WindowRow) : Bool :=
  decide (w.outcome = .crashed) || (w.superseded && w.jobState.isSome)

/-- The outcome's counter. -/
def RunAgg.countOutcome (a : RunAgg) : RunOutcome → RunAgg
  | .success => { a with success := a.success + 1 }
  | .error => { a with error := a.error + 1 }
  | .timeout => { a with timeout := a.timeout + 1 }
  | .snooze => { a with snooze := a.snooze + 1 }
  | .cancelled => { a with cancelled := a.cancelled + 1 }
  | .crashed => { a with crashed := a.crashed + 1 }
  | .started => a

/-- A successful run's duration, and whether the run is now the slowest. -/
def RunAgg.observeDuration (id : String) (a : RunAgg) (d : ℤ) : RunAgg :=
  { a with
    slowestRunID :=
      if a.durCount = 0 ∨ d > a.durMaxMs ∨ (d = a.durMaxMs ∧ id > a.slowestRunID) then id
      else a.slowestRunID
    durCount := a.durCount + 1
    durSumMs := a.durSumMs + d
    durMaxMs := max a.durMaxMs d
    durHist := a.durHist.observe d }

/-- A run's wait. -/
def RunAgg.observeWait (a : RunAgg) (wait : ℤ) : RunAgg :=
  { a with
    waitCount := a.waitCount + 1
    waitSumMs := a.waitSumMs + wait
    waitMaxMs := max a.waitMaxMs wait
    waitHist := a.waitHist.observe wait }

/-- A run's cost. -/
def RunAgg.addCost (a : RunAgg) (cost : ℤ) : RunAgg :=
  { a with costMicrosSum := a.costMicrosSum + cost }

/-- A change of an aggregate that a value makes, where there is one. -/
def RunAgg.withValue (a : RunAgg) (v : Option ℤ) (f : RunAgg → ℤ → RunAgg) : RunAgg :=
  match v with
  | some x => f a x
  | none => a

/-- What no value changes is kept. -/
theorem RunAgg.withValue_keeps {β : Type} (proj : RunAgg → β) (f : RunAgg → ℤ → RunAgg)
    (h : ∀ b x, proj (f b x) = proj b) (a : RunAgg) (v : Option ℤ) :
    proj (a.withValue v f) = proj a := by
  cases v with
  | none => rfl
  | some x => exact h a x

/-- `runAgg.observe`, after the rule for a crash. -/
def RunAgg.observeAttempt (a : RunAgg) (id : String) (outcome : RunOutcome) (superseded : Bool)
    (jobState : Option JobState) (duration wait cost : Option ℤ) : RunAgg :=
  if superseded then { a with superseded := a.superseded + 1 }
  else
    let a := { a with attempts := a.attempts + 1 }.countOutcome outcome
    let a := if jobState = some .discarded then { a with discarded := a.discarded + 1 } else a
    let a := if outcome = .success then a.withValue duration (RunAgg.observeDuration id) else a
    let a := a.withValue wait RunAgg.observeWait
    a.withValue cost RunAgg.addCost

/-- `runAgg.observe`: a run that a sweep reclaimed counts as the crash that it was. -/
def RunAgg.observe (a : RunAgg) (w : WindowRow) : RunAgg :=
  if w.crashed then a.observeAttempt w.id .crashed false w.jobState none w.queueWaitMs none
  else a.observeAttempt w.id w.outcome w.superseded w.jobState w.durationMs w.queueWaitMs
    w.costMicros

/-- `runAgg.merge` -/
def RunAgg.merge (a other : RunAgg) : RunAgg :=
  { a with
    attempts := a.attempts + other.attempts
    success := a.success + other.success
    error := a.error + other.error
    timeout := a.timeout + other.timeout
    snooze := a.snooze + other.snooze
    cancelled := a.cancelled + other.cancelled
    crashed := a.crashed + other.crashed
    superseded := a.superseded + other.superseded
    discarded := a.discarded + other.discarded
    enqueued := a.enqueued + other.enqueued
    slowestRunID :=
      if other.durCount > 0 ∧ (other.durMaxMs > a.durMaxMs ∨
          (other.durMaxMs = a.durMaxMs ∧ other.slowestRunID > a.slowestRunID)) then
        other.slowestRunID
      else a.slowestRunID
    durCount := a.durCount + other.durCount
    durSumMs := a.durSumMs + other.durSumMs
    durMaxMs := max a.durMaxMs other.durMaxMs
    durHist := a.durHist.add other.durHist
    waitCount := a.waitCount + other.waitCount
    waitSumMs := a.waitSumMs + other.waitSumMs
    waitMaxMs := max a.waitMaxMs other.waitMaxMs
    waitHist := a.waitHist.add other.waitHist
    costMicrosSum := a.costMicrosSum + other.costMicrosSum }

/-! ## Error groups -/

/-- `errorGroupKey` -/
structure ErrorGroupKey where
  kind : String
  fingerprint : String
deriving DecidableEq, Inhabited

/-- `runRef`: a failed run and its finish. -/
structure RunRef where
  atTime : Time
  id : String
  exact : Bool
deriving DecidableEq, Inhabited

/-- `runRef.before` -/
def RunRef.before (r o : RunRef) : Bool :=
  decide (r.atTime < o.atTime) || (decide (r.atTime = o.atTime) && decide (r.id < o.id))

/-- `errorGroupAgg`: a group's failures over a window. `first` and `last` are set once there is a
failure. -/
structure ErrorGroupAgg where
  kind : String
  fingerprint : String
  errorClass : String := ""
  sample : String := ""
  failures : ℤ := 0
  discarded : ℤ := 0
  first : RunRef := { atTime := zeroTime, id := "", exact := false }
  last : RunRef := { atTime := zeroTime, id := "", exact := false }
  -- the failures of each hour, by its Unix start
  hourly : Dict ℤ ℤ := Dict.empty

/-- `newErrorGroupAgg` -/
def newErrorGroupAgg (k : ErrorGroupKey) : ErrorGroupAgg :=
  { kind := k.kind, fingerprint := k.fingerprint }

/-- `maxSampleMessage` -/
def maxSampleMessage : ℕ := 512

/-- The new last failure, with its class and message. -/
def ErrorGroupAgg.withLast (g : ErrorGroupAgg) (ref : RunRef) (errorClass message : String) :
    ErrorGroupAgg :=
  if g.failures = 0 ∨ g.last.before ref then
    { g with last := ref, errorClass, sample := truncate message maxSampleMessage }
  else g

/-- `errorGroupAgg.observe` -/
def ErrorGroupAgg.observe (g : ErrorGroupAgg) (ref : RunRef) (errorClass message : String)
    (discarded : Bool) : ErrorGroupAgg :=
  let g := { g with first := if g.failures = 0 ∨ ref.before g.first then ref else g.first }
  let g := g.withLast ref errorClass message
  { g with
    failures := g.failures + 1
    discarded := if discarded then g.discarded + 1 else g.discarded
    hourly := g.hourly.modify (unix (floorHour ref.atTime)) 0 (· + 1) }

/-- A failure: an error or a timeout that was applied. -/
def WindowRow.failed (w : WindowRow) : Bool := !w.superseded && failedOutcome w.outcome

/-- The class of a row, as its text. -/
def WindowRow.className (w : WindowRow) : String := (w.errorClass.map ErrorClass.name).getD ""

/-- The error group of a failure: by the stored fingerprint, or by the one that its class and
message give. -/
def WindowRow.errorGroup (hash : ErrorHash) (w : WindowRow) : ErrorGroupKey where
  kind := w.group.kind
  fingerprint :=
    if w.errorFingerprint.getD "" = "" then
      Flywheel.errorFingerprint hash w.group.kind w.className (w.errorMessage.getD "")
    else w.errorFingerprint.getD ""

/-- The failure counted into its group. -/
def ErrorGroupAgg.observeRow (g : ErrorGroupAgg) (w : WindowRow) : ErrorGroupAgg :=
  g.observe { atTime := w.finishedAt, id := w.id, exact := true } w.className
    (w.errorMessage.getD "") (decide (w.jobState = some .discarded))

/-! ## The window -/

/-- The kind and the queue of a job. -/
def JobRow.group (r : JobRow) : StatsGroup := { kind := r.kind, queue := r.queue }

/-- The jobs inserted in a window, by the time that their ids carry; soft-deleted ones count. -/
def insertedJobs (start stop : Time) (db : Db) : List JobRow :=
  db.jobs.rows.filter fun r => decide (idFloor start ≤ r.id ∧ r.id < idFloor stop)

/-- `countEnqueued` -/
def countEnqueued (start stop : Time) (f : StatsFilter) (db : Db) : Dict StatsGroup ℤ :=
  if start < stop then
    Dict.empty.collect JobRow.group (fun _ => 0) (fun n _ => n + 1)
      ((insertedJobs start stop db).filter fun r => f.admits r.group)
  else Dict.empty

/-- `windowAgg` -/
structure WindowAgg where
  runs : Dict StatsGroup RunAgg := Dict.empty
  groups : Dict ErrorGroupKey ErrorGroupAgg := Dict.empty

/-- An aggregate with more jobs inserted. -/
def RunAgg.addEnqueued (a : RunAgg) (n : ℤ) : RunAgg := { a with enqueued := a.enqueued + n }

/-- The loops of `aggregateWindow`: over the rows of the window, and over its counts of inserts. -/
def aggregateRows (hash : ErrorHash) (rows : List WindowRow) (counts : Dict StatsGroup ℤ) :
    WindowAgg where
  runs := (Dict.empty.collect WindowRow.group newRunAgg RunAgg.observe rows).collect
    Prod.fst newRunAgg (fun a e => a.addEnqueued e.2) counts.entries
  groups := Dict.empty.collect (WindowRow.errorGroup hash) newErrorGroupAgg ErrorGroupAgg.observeRow
    (rows.filter WindowRow.failed)

/-- `aggregateWindow` -/
def aggregateWindow (hash : ErrorHash) (start stop : Time) (f : StatsFilter) (db : Db) :
    WindowAgg :=
  if start < stop then
    aggregateRows hash ((runWindow start stop db).filter fun w => f.admits w.group)
      (countEnqueued start stop f db)
  else {}

/-! ## The rows of an hour -/

/-- `rowFromAgg` -/
def rowFromAgg (bucket rolledAt : Time) (a : RunAgg) : StatsHourRow :=
  { bucketStart := unix bucket, agg := a, rolledAt }

/-- The totals of the kinds. -/
def kindTotals (aggs : Dict StatsGroup RunAgg) : Dict String RunAgg :=
  Dict.empty.collect (fun e => e.1.kind)
    (fun kind => newRunAgg { kind, queue := statsTotalKey }) (fun k e => k.merge e.2) aggs.entries

/-- The total of an hour. -/
def hourTotal (aggs : Dict StatsGroup RunAgg) : RunAgg :=
  aggs.values.foldl RunAgg.merge (newRunAgg { kind := statsTotalKey, queue := statsTotalKey })

/-- The order of two pairs of keys. -/
def keyLE (a b : String × String) : Prop := a.1 < b.1 ∨ (a.1 = b.1 ∧ a.2 ≤ b.2)

instance : DecidableRel keyLE := fun _ _ => inferInstanceAs (Decidable (_ ∨ _))

/-- Rows in the order of their keys. -/
def inKeyOrder {ρ : Type} (key : ρ → String × String) (rows : List ρ) : List ρ :=
  rows.insertionSort fun a b => keyLE (key a) (key b)

/-- The key of an hour's row. -/
def StatsHourRow.key (r : StatsHourRow) : String × String := (r.agg.kind, r.agg.queue)

/-- `hourRows`: the groups, the kinds' totals and the hour's total; none of an empty hour. -/
def hourRows (bucket : Time) (aggs : Dict StatsGroup RunAgg) (rolledAt : Time) :
    List StatsHourRow :=
  if aggs.entries = [] then []
  else
    inKeyOrder StatsHourRow.key <|
      (aggs.values ++ (kindTotals aggs).values ++ [hourTotal aggs]).map (rowFromAgg bucket rolledAt)

/-- The key of an error group's row. -/
def ErrorGroupHourRow.key (r : ErrorGroupHourRow) : String × String := (r.kind, r.fingerprint)

/-- One row of `errorGroupHourRows`. -/
def rowFromErrorGroup (bucket rolledAt : Time) (g : ErrorGroupAgg) : ErrorGroupHourRow :=
  { bucketStart := unix bucket, kind := g.kind, fingerprint := g.fingerprint
    errorClass := g.errorClass, failures := g.failures, discarded := g.discarded
    firstRunID := some g.first.id, lastRunID := some g.last.id, sampleMessage := g.sample,
      rolledAt }

/-- `errorGroupHourRows` -/
def errorGroupHourRows (bucket : Time) (groups : Dict ErrorGroupKey ErrorGroupAgg)
    (rolledAt : Time) : List ErrorGroupHourRow :=
  inKeyOrder ErrorGroupHourRow.key (groups.values.map (rowFromErrorGroup bucket rolledAt))

end Flywheel
