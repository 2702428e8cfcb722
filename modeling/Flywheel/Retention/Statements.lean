import Flywheel.Retention.Model
import Flywheel.System

/-!
# Retention, statement by statement

A retention batch on PostgreSQL at READ COMMITTED: its select, the read of its runs' finishes, and
then four deletes, each of which takes its rows one by one. The rows of a delete are those that the
statement's snapshot shows; each is locked, which waits for a transaction that holds it, read again,
and deleted if it still matches by its id, whatever the rest of it says by then. Any number of
batches run beside the transactions that return jobs to a live state or claim them, each of which is
one step; a batch's deletes show to others at its commit, and until then hold their rows.
-/

namespace Flywheel

open Relational Transition

/-- A row that a batch deletes. -/
inductive Target where
  | finish (e : FinishRow)
  | line (l : RunLogRow)
  | run (id : String)
  | job (id : String)
deriving DecidableEq

/-- One delete of a batch, with the row of the job that the deleted one is of, at that moment. -/
structure Deletion where
  target : Target
  job : Option JobRow

/-- Where a batch is: the rows that its statement has still to take. -/
inductive DeleteStage where
  | selected
  | finishes (keys : List FinishRow)
  | runLogs (lines : List RunLogRow)
  | runs (ids : List String)
  | jobs (ids : List String)

/-- An open batch: what it selected, where it is, and what it has deleted. -/
structure Batch where
  ids : List String
  stage : DeleteStage := .selected
  deletions : List Deletion := []

/-- The batch has deleted the row. -/
def Batch.took (b : Batch) (t : Target) : Bool := b.deletions.any fun d => decide (d.target = t)

/-- The database without what the batch has deleted: what it sees, and what its commit leaves. -/
def Batch.apply (b : Batch) (db : Db) : Db :=
  { db with
    finishes := db.finishes.filter fun e => !b.took (.finish e)
    runLogs := db.runLogs.filter fun l => !b.took (.line l)
    runs := db.runs.delete fun run => b.took (.run run.id)
    jobs := db.jobs.delete fun r => b.took (.job r.id) }

/-- The row that the batch's statement takes next. -/
def Batch.target (b : Batch) : Option Target :=
  match b.stage with
  | .finishes (e :: _) => some (.finish e)
  | .runLogs (l :: _) => some (.line l)
  | .runs (k :: _) => some (.run k)
  | .jobs (k :: _) => some (.job k)
  | _ => none

/-- The batch after one row of its statement, which it has deleted if it was still there. -/
def Batch.take (b : Batch) (rest : DeleteStage) (found : Option Deletion) : Batch :=
  { b with stage := rest, deletions := b.deletions ++ found.toList }

/-- The batch's next step, over what is committed: the snapshot of its next statement, or one row of
the statement that runs; `none` when it has only to commit. -/
def Batch.next (b : Batch) (db : Db) : Option Batch :=
  let v := b.apply db
  match b.stage with
  -- `deleteRunFinishes` reads the keys off the runs, and deletes by their values
  | .selected =>
    let keys := v.runs.rows.filterMap fun run =>
      if run.jobID ∈ b.ids then run.finishedAt.map fun t => { finishedAt := t, runID := run.id }
      else none
    some { b with stage := .finishes keys }
  | .finishes (e :: es) => some (b.take (.finishes es) (if e ∈ v.finishes then
        some { target := .finish e, job := (v.runs.get? e.runID).bind fun run =>
          v.jobs.get? run.jobID }
      else none))
  | .finishes [] =>
    let lines := v.runLogs.filter fun l => decide (l.jobID ∈ b.ids)
    some { b with stage := .runLogs lines }
  | .runLogs (l :: ls) => some (b.take (.runLogs ls)
      (if l ∈ v.runLogs then some { target := .line l, job := v.jobs.get? l.jobID } else none))
  | .runLogs [] =>
    let ids := (v.runs.rows.filter fun run => decide (run.jobID ∈ b.ids)).map JobRunRow.id
    some { b with stage := .runs ids }
  | .runs (k :: ks) => some (b.take (.runs ks)
      (((v.runs.get? k).filter fun run => decide (run.jobID ∈ b.ids)).map fun run =>
        { target := .run k, job := v.jobs.get? run.jobID }))
  | .runs [] =>
    let ids := (v.jobs.rows.filter fun r => decide (r.id ∈ b.ids)).map JobRow.id
    some { b with stage := .jobs ids }
  | .jobs (k :: ks) => some (b.take (.jobs ks)
      ((v.jobs.get? k).map fun r => { target := .job k, job := some r }))
  | .jobs [] => none

/-- The committed database, the open batches, and the deletes that have been committed. -/
structure Prune where
  db : Db
  batches : ℕ → Option Batch := fun _ => none
  deleted : List Deletion := []

/-- The batch at the place `i` replaced. -/
def Prune.set (w : Prune) (i : ℕ) (b : Option Batch) : Prune :=
  { w with batches := Function.update w.batches i b }

/-- Another batch than `i` has deleted the row, and so holds it. -/
def Prune.holds (w : Prune) (i : ℕ) (t : Target) : Prop :=
  ∃ j b, j ≠ i ∧ w.batches j = some b ∧ b.took t = true

/-- The transactions that return jobs to a live state, or claim them: RetryJob, a batch of Replay or
of a bulk retry, and Dequeue. -/
def Action.contends : Action → Bool
  | .retryJob .. | .replay .. | .dequeue .postgres .. => true
  | .bulk _ run _ => decide (run.action = .retry)
  | _ => false

/-- One step. A transaction waits for the rows that a batch holds, and Dequeue skips them; `allowed`
says which transactions are considered. -/
inductive Prune.Step (allowed : Prune → Action → Prop) : Prune → Prune → Prop where
  | act {w : Prune} (a : Action) (contends : a.contends = true) (ok : allowed w a)
      (waits : ∀ i b id, w.batches i = some b → b.took (.job id) = true →
        (step w.db a).jobs.get? id = w.db.jobs.get? id) :
      Prune.Step allowed w { w with db := step w.db a }
  | select {w : Prune} (i : ℕ) (cutoff : JobRow → Bool) (cursor : String) (limit : ℕ)
      (idle : w.batches i = none) :
      Prune.Step allowed w (w.set i (some { ids := finishedIDs cutoff cursor limit w.db }))
  | advance {w : Prune} (i : ℕ) (b b' : Batch) (running : w.batches i = some b)
      (free : ∀ t, b.target = some t → ¬ w.holds i t) (next : b.next w.db = some b') :
      Prune.Step allowed w (w.set i (some b'))
  | commit {w : Prune} (i : ℕ) (b : Batch) (running : w.batches i = some b)
      (done : b.next w.db = none) :
      Prune.Step allowed w
        { w.set i none with db := b.apply w.db, deleted := w.deleted ++ b.deletions }
  | abort {w : Prune} (i : ℕ) (b : Batch) (running : w.batches i = some b) :
      Prune.Step allowed w (w.set i none)

/-- The runs of batches and transactions. -/
def Prune.Run (allowed : Prune → Action → Prop) : Prune → Prune → Prop :=
  Relation.ReflTransGen (Prune.Step allowed)

end Flywheel
