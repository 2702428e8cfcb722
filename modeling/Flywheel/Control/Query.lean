import Flywheel.Database
import Flywheel.Stats.Ids

/-!
# Job queries

The filter of `QueryJobs` (`job_query.go`), which BulkJobs selects through. It reads columns of the
job's row and, for the latest-run filters, the run of the attempt that the job names, and neither
the barrier columns nor `updated_at`: which jobs match is a matter of the job's `view` and of its
runs (`JobQuery.matches_congr`).
-/

namespace Flywheel

open Relational

/-- `MaxContainmentWindow` -/
def maxContainmentWindow : Duration := 7 * 24 * hour

/-- `JobQuery`, without the fields that page a read. A zero time leaves its end open. A containment
filter is the JSON value that its text holds. -/
structure JobQuery where
  ids : List String := []
  states : List JobState := []
  kinds : List String := []
  queues : List String := []
  tags : List String := []
  parentJobID : String := ""
  priorityMin : Option ℤ := none
  priorityMax : Option ℤ := none
  attemptMin : Option ℤ := none
  attemptMax : Option ℤ := none
  createdFrom : Time := zeroTime
  createdTo : Time := zeroTime
  scheduledFrom : Time := zeroTime
  scheduledTo : Time := zeroTime
  finalizedFrom : Time := zeroTime
  finalizedTo : Time := zeroTime
  argsContains : Option Json := none
  metadataContains : Option Json := none
  errorClasses : List ErrorClass := []
  fingerprint : String := ""
  errorContains : String := ""

/-- `jobQueryFilters` -/
def JobQuery.filters (q : JobQuery) : Bool :=
  !q.ids.isEmpty || !q.states.isEmpty || !q.kinds.isEmpty || !q.queues.isEmpty || !q.tags.isEmpty ||
    decide (q.parentJobID ≠ "") || q.priorityMin.isSome || q.priorityMax.isSome ||
    q.attemptMin.isSome || q.attemptMax.isSome || decide (q.createdFrom ≠ zeroTime) ||
    decide (q.createdTo ≠ zeroTime) || decide (q.scheduledFrom ≠ zeroTime) ||
    decide (q.scheduledTo ≠ zeroTime) || decide (q.finalizedFrom ≠ zeroTime) ||
    decide (q.finalizedTo ≠ zeroTime) || q.argsContains.isSome || q.metadataContains.isSome ||
    !q.errorClasses.isEmpty || decide (q.fingerprint ≠ "") || decide (q.errorContains ≠ "")

/-! ## Which queries run -/

/-- Why a query is refused. -/
inductive QueryError where
  | validation (field message : String)
  | unsupportedDialect
deriving DecidableEq, Repr

/-- `ErrorClass.Valid` -/
def ErrorClass.valid : ErrorClass → Bool
  | .other _ => false
  | _ => true

/-- `validFingerprint` -/
def validFingerprint (s : String) : Bool :=
  decide (s.length = 16) && s.toList.all fun c => ('0' ≤ c && c ≤ '9') || ('a' ≤ c && c ≤ 'f')

/-- An empty or inverted window. -/
def invertedWindow (start stop : Time) : Bool :=
  decide (start ≠ zeroTime) && decide (stop ≠ zeroTime) && decide (stop ≤ start)

/-- `validateSearchWindow` -/
def validateSearchWindow (now : Time) (field : String) (q : JobQuery) : Except QueryError Unit :=
  if q.createdFrom = zeroTime then
    .error (.validation field "needs CreatedFrom: it searches a bounded created window")
  else if maxContainmentWindow <
    (if q.createdTo = zeroTime then now else q.createdTo) - q.createdFrom then
    .error (.validation field "searches a created window wider than 7 days")
  else .ok ()

/-- `validateContainment` -/
def validateContainment (now : Time) (field : String) (value : Option Json) (q : JobQuery) :
    Except QueryError Unit :=
  match value with
  | none => .ok ()
  | some (.obj _) => validateSearchWindow now field q
  | some _ => .error (.validation field "must be a JSON object")

/-- A check of a filter. -/
def refuseQuery (bad : Bool) (field message : String) : Except QueryError Unit :=
  if bad then .error (.validation field message) else .ok ()

/-- `validateJobFilter`. A job state is always one of the eight. -/
def JobQuery.validate (dialect : Dialect) (now : Time) (q : JobQuery) : Except QueryError Unit := do
  refuseQuery (q.priorityMin.any fun lo => q.priorityMax.any fun hi => decide (hi < lo)) "priority"
    "minimum is above the maximum"
  refuseQuery (q.attemptMin.any fun lo => q.attemptMax.any fun hi => decide (hi < lo)) "attempt"
    "minimum is above the maximum"
  refuseQuery (invertedWindow q.createdFrom q.createdTo) "created"
    "window is empty or inverted: its end must be after its start"
  refuseQuery (invertedWindow q.scheduledFrom q.scheduledTo) "scheduled"
    "window is empty or inverted: its end must be after its start"
  refuseQuery (invertedWindow q.finalizedFrom q.finalizedTo) "finalized"
    "window is empty or inverted: its end must be after its start"
  refuseQuery (decide (maxReadLimit < q.ids.length)) "ids" "has more than 200 entries"
  match q.errorClasses.find? fun c => !c.valid with
  | some c => .error (.validation "error_classes" ("\"" ++ c.name ++ "\" is not an error class"))
  | none => .ok ()
  refuseQuery (decide (q.fingerprint ≠ "") && !validFingerprint q.fingerprint) "fingerprint"
    ("\"" ++ q.fingerprint ++ "\" is not 16 lowercase hex characters")
  validateContainment now "args_contains" q.argsContains q
  validateContainment now "metadata_contains" q.metadataContains q
  if q.errorContains ≠ "" then validateSearchWindow now "error_contains" q
  if dialect ≠ .postgres ∧ (q.argsContains.isSome ∨ q.metadataContains.isSome) then
    .error .unsupportedDialect
  if dialect ≠ .postgres ∧ q.errorContains ≠ "" then .error .unsupportedDialect

/-! ## Which jobs match -/

/-- PostgreSQL's operators: jsonb containment, and a text within another in any case. -/
structure Operators where
  contains : Json → Json → Bool := fun _ _ => false
  ilike : String → String → Bool := fun _ _ => false

/-- A tags column that carries a tag. -/
def carriesTag (tags : Json) (tag : String) : Bool :=
  match tags with
  | .arr items => items.any fun | .str s => decide (s = tag) | _ => false
  | _ => false

/-- A bound of a window, open when it is zero. -/
def fromTime (bound : Time) (t : Option Time) : Bool :=
  decide (bound = zeroTime) || t.any fun t => decide (bound ≤ t)

@[inherit_doc fromTime]
def toTime (bound : Time) (t : Option Time) : Bool :=
  decide (bound = zeroTime) || t.any fun t => decide (t < bound)

/-- `applyLatestRunFilter`, of one run. -/
def JobQuery.matchesRun (ops : Operators) (q : JobQuery) (r : JobRow) (run : JobRunRow) : Bool :=
  decide (run.jobID = r.id) && decide (run.attempt = r.attempt) &&
    (q.errorClasses.isEmpty || run.errorClass.any fun c => q.errorClasses.contains c) &&
    (decide (q.fingerprint = "") || decide (run.errorFingerprint = some q.fingerprint)) &&
    (decide (q.errorContains = "") || run.errorMessage.any fun m => ops.ilike m q.errorContains)

/-- The columns of the row that a filter reads. -/
def JobQuery.matchesRow (ops : Operators) (q : JobQuery) (r : JobRow) : Bool :=
  (q.states.isEmpty || q.states.contains r.state) && (q.ids.isEmpty || q.ids.contains r.id) &&
    (q.kinds.isEmpty || q.kinds.contains r.kind) &&
      (q.queues.isEmpty || q.queues.contains r.queue) &&
    (decide (q.parentJobID = "") || decide (r.parentJobID = some q.parentJobID)) &&
    q.priorityMin.all (fun lo => decide (lo ≤ r.priority)) &&
    q.priorityMax.all (fun hi => decide (r.priority ≤ hi)) &&
    q.attemptMin.all (fun lo => decide (lo ≤ r.attempt)) &&
    q.attemptMax.all (fun hi => decide (r.attempt ≤ hi)) &&
    (decide (q.createdFrom = zeroTime) || decide (idFloor q.createdFrom ≤ r.id)) &&
    (decide (q.createdTo = zeroTime) || decide (r.id < idFloor q.createdTo)) &&
    fromTime q.scheduledFrom (some r.scheduledAt) && toTime q.scheduledTo (some r.scheduledAt) &&
    fromTime q.finalizedFrom r.finalizedAt && toTime q.finalizedTo r.finalizedAt &&
    (q.tags.isEmpty || q.tags.any (carriesTag r.tags)) &&
    q.argsContains.all (ops.contains r.args) && q.metadataContains.all (ops.contains r.metadata)

/-- `applyJobFilter` -/
def JobQuery.matches (ops : Operators) (q : JobQuery) (db : Db) (r : JobRow) : Bool :=
  q.matchesRow ops r &&
    (q.errorClasses.isEmpty && decide (q.fingerprint = "") && decide (q.errorContains = "") ||
      db.runs.rows.any (q.matchesRun ops r))

/-! ## What a match depends on -/

/-- A row without the columns that a fired barrier changes. -/
def JobRow.view (r : JobRow) : JobRow :=
  { r with updatedAt := 0, barrierKind := none, barrierSpec := none }

/-- The two databases hold the same runs of a job. -/
def SameRuns (id : String) (db db' : Db) : Prop :=
  ∀ run, run.jobID = id → (run ∈ db'.runs.rows ↔ run ∈ db.runs.rows)

theorem SameRuns.refl (id : String) (db : Db) : SameRuns id db db := fun _ _ => Iff.rfl

theorem SameRuns.any_eq {id : String} {db db' : Db} (h : SameRuns id db db') {p : JobRunRow → Bool}
    (hp : ∀ run, p run = true → run.jobID = id) : db'.runs.rows.any p = db.runs.rows.any p := by
  rw [Bool.eq_iff_iff, List.any_eq_true, List.any_eq_true]
  exact exists_congr fun run => and_congr_left fun hrun => h run (hp run hrun)

/-- **A match is a matter of the view and of the runs.** -/
theorem JobQuery.matches_congr (ops : Operators) (q : JobQuery) {db db' : Db} {r r' : JobRow}
    (hview : r'.view = r.view) (hruns : SameRuns r.id db db') :
    q.matches ops db' r' = q.matches ops db r := by
  have hrow : q.matchesRow ops r' = q.matchesRow ops r := by
    change q.matchesRow ops r'.view = q.matchesRow ops r.view
    rw [hview]
  have hrun : q.matchesRun ops r' = q.matchesRun ops r := by
    change q.matchesRun ops r'.view = q.matchesRun ops r.view
    rw [hview]
  rw [JobQuery.matches, JobQuery.matches, hrow, hrun, hruns.any_eq fun run h => ?_]
  simp_all [JobQuery.matchesRun]

end Flywheel
