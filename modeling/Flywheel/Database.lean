import Flywheel.Fingerprint
import Flywheel.Library.Table
import Flywheel.Stats.Rows

/-!
# The database

The rows of the tables that the job machinery reads and writes (`rows.go`), the database that
holds them, and the context that a call runs in. A table carries its primary key's uniqueness;
the two partial unique indexes of `jobs` are `uniqueClash`, which every insert consults.
-/

namespace Flywheel

open Relational

/-! ## Rows -/

/-- `barrierSpec`: a barrier's continuation, resolved when the barrier is declared. -/
structure BarrierSpec where
  args : Json
  queue : String
  executorClass : String
  priority : ℤ
  maxAttempts : ℤ
  timeoutMs : ℤ
  tags : List String
deriving Inhabited

/-- `jobRow`: one row of `jobs`. -/
structure JobRow where
  id : String
  createdAt : Time
  updatedAt : Time
  metadata : Json
  kind : String
  queue : String
  args : Json
  priority : ℤ
  state : JobState
  attempt : ℤ
  maxAttempts : ℤ
  timeoutMs : Option ℤ
  scheduledAt : Time
  leasedUntil : Option Time
  leaseToken : Option String
  uniqueKey : Option String
  uniqueActiveKey : Option String
  parentJobID : Option String
  executorClass : String
  finalizedAt : Option Time
  barrierKind : Option String
  barrierSpec : Option BarrierSpec
  -- the JSON array as the column stores it
  tags : Json
  -- the soft-delete stamp, which the runtime reads and never writes
  deletedAt : Option Time
deriving Inhabited

/-- The row is live: one of the states of the active-key index. -/
def JobRow.live (r : JobRow) : Bool := nonTerminalStates.contains r.state

/-- `jobRunRow`: one attempt's audit row. -/
structure JobRunRow where
  id : String
  jobID : String
  attempt : ℤ
  kind : String
  queue : String
  executorClass : String
  executorID : String
  startedAt : Time
  finishedAt : Option Time
  outcome : RunOutcome
  errorClass : Option ErrorClass
  errorMessage : Option String
  errorFingerprint : Option String
  durationMs : Option ℤ
  queueWaitMs : Option ℤ
  costMicros : Option ℤ
  enqueuedChildren : ℤ
  jobState : Option JobState
  superseded : Bool
  createdAt : Time
deriving Inhabited

/-- `jobRunFinishRow`: one entry of the finish log, which is its own key. -/
structure FinishRow where
  finishedAt : Time
  runID : String
deriving DecidableEq, Inhabited

/-- `jobRunLogRow`: one captured line, by its run and its number there. -/
structure RunLogRow where
  runID : String
  seq : ℤ
  jobID : String
deriving DecidableEq, Inhabited

/-- `jobStatsProgressRow`: the hours that the rollup covers, in epoch seconds. -/
structure ProgressRow where
  coveredFrom : ℤ
  coveredTo : ℤ
  retainFrom : ℤ
  version : ℤ
  updatedAt : Time
deriving DecidableEq, Inhabited

/-! ## The control history -/

/-- `ActorType`. -/
inductive ActorType where
  | user
  | agent
  | system
  | other (name : String)
deriving DecidableEq, Inhabited, Repr

/-- `Actor`: who ran a control, and why. -/
structure Actor where
  type : ActorType := .system
  id : String := ""
  reason : String := ""
  source : String := ""
  requestID : String := ""
deriving DecidableEq, Inhabited, Repr

/-- `AuditAction`: what a control did. -/
inductive AuditAction where
  | retried
  | replayed
  | cancelled
  | paused
  | resumed
  | deleted
  | rescheduled
  | reprioritized
deriving DecidableEq, Inhabited, Repr

/-- `AuditTarget`: what a control changed. -/
inductive AuditTarget where
  | job
  | periodic
deriving DecidableEq, Inhabited, Repr

/-- `jobAuditRow`: one change that one control made to one target. -/
structure AuditRow where
  id : String
  createdAt : Time
  target : AuditTarget := .job
  targetID : String
  action : AuditAction
  actor : Actor
  details : List (String × Json)
deriving Inhabited

/-! ## The database -/

/-- The tables of the job machinery. -/
structure Db where
  jobs : Table JobRow.id := Table.empty
  runs : Table JobRunRow.id := Table.empty
  finishes : List FinishRow := []
  runLogs : List RunLogRow := []
  audit : List AuditRow := []
  progress : Option ProgressRow := none
  hourly : List StatsHourRow := []
  errorGroups : List ErrorGroupHourRow := []

/-- The job under an id that the runtime's own queries see: GORM's soft-delete scope hides a row
with a `deleted_at`. -/
def Db.job? (db : Db) (id : String) : Option JobRow :=
  (db.jobs.get? id).filter fun r => r.deletedAt.isNone

/-- A row that GORM's soft-delete scope shows. -/
def JobRow.visible (r : JobRow) : Bool := r.deletedAt.isNone

/-- The two partial unique indexes of `jobs`: `unique_key` whatever the state, and
`unique_active_key` among the live rows. -/
def uniqueClash (s r : JobRow) : Bool :=
  (r.uniqueKey.isSome && decide (s.uniqueKey = r.uniqueKey)) ||
    (r.uniqueActiveKey.isSome && r.live && s.live && decide (s.uniqueActiveKey = r.uniqueActiveKey))

/-- The unique index of `job_runs`: one run per job and attempt. -/
def runClash (s r : JobRunRow) : Bool := decide (s.jobID = r.jobID ∧ s.attempt = r.attempt)

/-- No two live rows share an active key: what `jobs_unique_active_key` enforces. -/
def activeKeysUnique (jobs : Table JobRow.id) : Bool :=
  jobs.rows.all fun r => jobs.rows.all fun s =>
    !(r.live && s.live && r.uniqueActiveKey.isSome &&
      decide (r.uniqueActiveKey = s.uniqueActiveKey) && decide (r.id ≠ s.id))

/-! ## The context of a call -/

/-- `InsertSource`. -/
inductive InsertSource where
  | client
  | periodic
  | followUp
  | barrier
deriving DecidableEq, Inhabited, Repr

/-- `InsertInfo`: what an insert hook is told. -/
structure InsertInfo where
  kind : String
  queue : String
  source : InsertSource
  spawnedBy : String := ""
  parentJobID : String := ""
  periodicSlug : String := ""

/-- `kindDefaults`: what a kind's worker declares for the fields that an insert leaves zero. -/
structure KindDefaults where
  queue : String := ""
  priority : ℤ := 0
  maxAttempts : ℤ := 0
  timeout : Duration := 0
  executorClass : String := ""
  tags : List String := []
deriving Inhabited

/-- The context of a call: what the code reads from its `context.Context`, with the functions of
other packages that it calls. -/
structure Context where
  -- the clock's readings and the minted identifiers, in the order that the call takes them
  clock : ℕ → Time := fun _ => 0
  newID : ℕ → String := fun _ => ""
  auditID : ℕ → String := fun _ => ""
  requestID : String := ""
  registry : String → Option KindDefaults := fun _ => none
  insertHook : Option (InsertInfo → List (String × HostValue)) := none
  actor : Option Actor := none
  -- whether the host's hook accepts the entries of a transaction
  auditHook : Option (List AuditRow → Bool) := none
  -- `backoff.Exponential`, from a base, a ceiling and an attempt
  exponential : Duration → Duration → ℤ → Duration := fun base _ _ => base
  -- the length of a metadata object's JSON text
  jsonBytes : List (String × Json) → ℕ := fun _ => 0
  errorHash : ErrorHash := {}
  -- whether PostgreSQL refuses a value of the run's update: a text that is not UTF-8 or that holds
  -- a NUL byte, or JSON that escapes one
  refusesRun : Bool := false

/-- The empty id, which stands for none, is the least. -/
theorem empty_lt {id : String} (h : id ≠ "") : "" < id := by
  rw [String.lt_iff_toList_lt]
  cases hid : id.toList with
  | nil => exact absurd (String.toList_eq_nil_iff.mp hid) h
  | cons c cs => exact List.Lex.nil

end Flywheel
