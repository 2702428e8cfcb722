import Flywheel.Control.Job
import Flywheel.Library.RelyGuarantee
import Flywheel.Periodic.Schedule

/-!
# Upserts, ticks, pauses and resumes

The calls on the periodic definitions, statement by statement: `upsertPeriodic` looks its row up,
inserts or updates it; a Scheduler's `Tick` loads the definitions that are due and, for each,
enqueues its buckets and advances its cursor; `PausePeriodic` and `ResumePeriodic` are one
transaction each, under the row's lock. Every statement is one atomic operation of a thread, and
any other thread may move between two of them. A statement may also fail, and then it has changed
nothing.
-/

namespace Flywheel

open Relational Threads Transition

/-! ## The state -/

/-- A row of `job_periodics`, with what no column holds and no statement reads: the fire time that
its interval's grid was last seeded at, how often it was seeded or resumed, and the pauses that
ended, each from the pause's clock reading to the resume's. -/
structure Definition where
  row : PeriodicRow
  seed : Time := row.nextRunAt
  changes : ℕ := 0
  pauses : List (Time × Time) := []

/-- The primary key. -/
abbrev Definition.id (d : Definition) : String := d.row.id

/-- `idx_job_periodics_slug` -/
def slugClash (s r : Definition) : Bool := decide (s.row.slug = r.row.slug)

/-- A call of `upsertPeriodic`: its spec, the path that it is made on, its clock and the id that it
mints. `number` tells the calls of a history apart. -/
structure UpsertCall where
  number : ℕ
  spec : PeriodicSpec
  source : PeriodicSource := .upserted
  ctx : Context

/-- A job that a tick enqueued: the definition as it was loaded, and its bucket. -/
structure Firing where
  definition : Definition
  bucket : Time
  jobID : String

/-- What a tick that ran to its end reports, with the definitions that its load selected from. -/
structure TickReport where
  now : Time
  backfillCap : ℤ
  table : List Definition
  enqueued : ℕ
  errs : List PeriodicError

/-- The tables, and what happened: the upserts whose write landed, in the order that they landed
in, the jobs that ticks enqueued, and the reports of the ticks. -/
structure PeriodicState where
  db : Db := {}
  periodics : Table Definition.id := Table.empty
  written : List UpsertCall := []
  fired : List Firing := []
  reports : List TickReport := []

/-- The definition under a slug, in a table. -/
def findSlug (t : Table Definition.id) (slug : String) : Option Definition :=
  t.rows.find? fun d => d.row.slug = slug

/-- The definition under a slug. -/
def PeriodicState.find? (s : PeriodicState) (slug : String) : Option Definition :=
  findSlug s.periodics slug

/-! ## The statements -/

/-- The row under an id. -/
def isDefinition (id : String) (d : Definition) : Bool := decide (d.row.id = id)

/-- A rewrite of a definition's row. -/
def patchRow (f : PeriodicRow → PeriodicRow) (hid : ∀ r, (f r).id = r.id) :
    Patch Definition.id where
  apply d := { d with row := f d.row }
  key_apply d := hid d.row

/-- The row that a call inserts, or what it is refused for before it reaches the table. -/
def insertRow (env : PeriodicEnv) (call : UpsertCall) : Except PeriodicError PeriodicRow := do
  let row ← periodicRow env call.ctx call.spec call.source (call.ctx.clock 0)
  row.beforeSave
  return row

/-- What the inserted row holds of the call. -/
theorem insertRow_spec {env : PeriodicEnv} {call : UpsertCall} {row : PeriodicRow}
    (h : insertRow env call = .ok row) :
    (row.id = call.ctx.newID 0 ∧ row.slug = call.spec.slug) ∧
      nextFireAfter env call.spec (call.ctx.clock 0) = .ok row.nextRunAt ∧
      row.nextRunAt ≠ zeroTime ∧ row.intervalSeconds = call.spec.intervalColumn ∧
      row.cronExpr = call.spec.cronColumn := by
  obtain ⟨row', hrow, h⟩ := bind_eq_ok.mp h
  obtain ⟨⟨⟩, hsave, h⟩ := bind_eq_ok.mp h
  cases h
  obtain ⟨nextRun, hnext, hrow⟩ := bind_eq_ok.mp hrow
  cases hrow
  grind [PeriodicRow.beforeSave]

/-- `insertPeriodic`: whether the insert landed. -/
def insertPeriodic (env : PeriodicEnv) (call : UpsertCall) (s : PeriodicState) :
    Except PeriodicError (PeriodicState × Bool) :=
  (insertRow env call).map fun row =>
    if s.periodics.conflicts slugClash { row } then (s, false)
    else ({ s with
      periodics := s.periodics.insert slugClash { row }, written := s.written ++ [call] }, true)

/-- The row that an update leaves, and its cursor when that is written. -/
def updatedRow (call : UpsertCall) (nextRun : Option Time) (r : PeriodicRow) : PeriodicRow :=
  { r with
    kind := call.spec.kind, queue := periodicQueue call.spec, argsTemplate := periodicArgs call.spec
    isActive := call.spec.active, source := some call.source, updatedAt := call.ctx.clock 0
    cronExpr := call.spec.cronColumn, intervalSeconds := call.spec.intervalColumn
    nextRunAt := nextRun.getD r.nextRunAt }

/-- An update of a definition, which seeds its grid when it writes the cursor. -/
def updateDefinition (call : UpsertCall) (nextRun : Option Time) : Patch Definition.id where
  apply d := { d with
    row := updatedRow call nextRun d.row
    seed := nextRun.getD d.seed
    changes := if nextRun.isSome then d.changes + 1 else d.changes }
  key_apply _ := rfl

/-- The cursor that an update writes: none, unless the schedule of the row that was read is
another. -/
def updatedCursor (env : PeriodicEnv) (existing : PeriodicRow) (call : UpsertCall) :
    Except PeriodicError (Option Time) :=
  if scheduleChanged existing call.spec then
    (nextFireAfter env call.spec (call.ctx.clock 0)).map some
  else .ok none

/-- `updatePeriodic` -/
def updatePeriodic (env : PeriodicEnv) (existing : PeriodicRow) (call : UpsertCall)
    (s : PeriodicState) : Except PeriodicError PeriodicState := do
  let nextRun ← updatedCursor env existing call
  return { s with
    periodics := s.periodics.update (isDefinition existing.id) (updateDefinition call nextRun)
    written := s.written ++ [call] }

/-- The condition of a tick's load, with `next_run_at <= ?` as the database compares them. -/
def Definition.due (reached : Time → Bool) (d : Definition) : Bool :=
  d.row.isActive && d.row.pausedAt.isNone && reached d.row.nextRunAt

/-- The definitions that a tick loads, where instants compare as instants. -/
def PeriodicState.due (s : PeriodicState) (now : Time) : List Definition :=
  s.periodics.rows.filter (Definition.due fun t => decide (t ≤ now))

/-- The unique key of a bucket. -/
def bucketKey (slug : String) (bucket : Time) : String := slug ++ "@" ++ (unix bucket).repr

/-- `enqueueBucket`: the id of the job, or none when the bucket collided. -/
def enqueueBucket (ctx : Context) (d : Definition) (bucket : Time) (s : PeriodicState) :
    Except PeriodicError (PeriodicState × Option String) :=
  match Client.insert ctx d.row.kind d.row.argsTemplate
      { queue := d.row.queue, uniqueKey := bucketKey d.row.slug bucket, scheduleAt := some bucket }
      .periodic d.row.slug s.db with
  | .error e => .error (.insert e)
  | .ok (db, none) => .ok ({ s with db }, none)
  | .ok (db, some id) =>
    .ok ({ s with db, fired := s.fired ++ [{ definition := d, bucket, jobID := id }] }, some id)

/-- What an advance writes: the cursor, and with fires the history. -/
def advanceRow (fires : List PeriodicFireEntry) (nextRun now : Time) (r : PeriodicRow) :
    PeriodicRow :=
  if fires = [] then { r with nextRunAt := nextRun, updatedAt := now }
  else { r with
    nextRunAt := nextRun, updatedAt := now, lastEnqueuedAt := some now
    recentJobs := prependFires r.recentJobs fires }

theorem advanceRow_id (fires : List PeriodicFireEntry) (nextRun now : Time) (r : PeriodicRow) :
    (advanceRow fires nextRun now r).id = r.id := by
  unfold advanceRow
  split_ifs <;> rfl

/-- The end of `fire`: the cursor alone, or `advanceWithFires`. -/
def advance (id : String) (fires : List PeriodicFireEntry) (nextRun now : Time)
    (s : PeriodicState) : PeriodicState :=
  { s with
    periodics := s.periodics.update (isDefinition id)
      (patchRow (advanceRow fires nextRun now) (advanceRow_id fires nextRun now)) }

/-- `PausePeriodic` -/
def pausePeriodic (ctx : Context) (slug : String) (s : PeriodicState) :
    Except PeriodicError PeriodicState := do
  let actor ← (resolveActor ctx).mapError .insert
  let now := ctx.clock 0
  match s.find? slug with
  | none => .error .notFound
  | some d =>
    if d.row.pausedAt.isSome then return s
    else
      let db ← (recordAudit ctx actor now
        [{ target := .periodic, targetID := slug, action := .paused, details := [] }] s.db).mapError
          .insert
      return { s with
        db
        periodics := s.periodics.update (isDefinition d.row.id) (patchRow (fun r => { r with
            pausedAt := some now, pausedBy := some (actor.type, actor.id, actor.reason)
            updatedAt := now }) fun _ => rfl) }

/-- A resume of a definition, which ends its pause. -/
def resumeDefinition (nextRun now : Time) : Patch Definition.id where
  apply d := { d with
    row := { d.row with
      pausedAt := none, pausedBy := none, nextRunAt := nextRun, updatedAt := now }
    changes := d.changes + 1
    pauses := d.pauses ++ d.row.pausedAt.toList.map fun at' => (at', now) }
  key_apply _ := rfl

/-- `ResumePeriodic` -/
def resumePeriodic (env : PeriodicEnv) (ctx : Context) (slug : String) (s : PeriodicState) :
    Except PeriodicError PeriodicState := do
  let actor ← (resolveActor ctx).mapError .insert
  let now := ctx.clock 0
  match s.find? slug with
  | none => .error .notFound
  | some d =>
    if d.row.pausedAt.isNone then return s
    else
      let nextRun ← resumedNextRun env d.row now
      let db ← (recordAudit ctx actor now
        [{ target := .periodic, targetID := slug, action := .resumed, details := [] }]
          s.db).mapError .insert
      return { s with
        db
        periodics := s.periodics.update (isDefinition d.row.id) (resumeDefinition nextRun now) }

/-! ## The operations -/

/-- The statements of the calls, and a tick's return. -/
inductive PeriodicOp where
  | loadPeriodic (slug : String)
  | insertPeriodic (call : UpsertCall)
  | updatePeriodic (existing : Definition) (call : UpsertCall)
  | loadDue (now : Time)
  | enqueueBucket (d : Definition) (bucket : Time)
  | advance (d : Definition) (fires : List PeriodicFireEntry) (nextRun now : Time)
  | pause (slug : String)
  | resume (slug : String)
  | report (r : TickReport)

/-- What a statement answers when it does not fail. -/
abbrev PeriodicOp.Answer : PeriodicOp → Type
  | .loadPeriodic _ => Option Definition
  | .insertPeriodic _ => Bool
  | .updatePeriodic .. => Unit
  | .loadDue _ => List Definition
  | .enqueueBucket .. => Option String
  | .advance .. => Unit
  | .pause _ => Unit
  | .resume _ => Unit
  | .report _ => Unit

/-- What a statement returns. -/
abbrev PeriodicOp.Result (o : PeriodicOp) : Type := Except PeriodicError o.Answer

/-- The input of a statement: the context that it runs under, or its failure. -/
inductive PeriodicInput where
  | run (ctx : Context)
  | fail

/-- What a statement does. -/
@[simp]
def PeriodicOp.act (env : PeriodicEnv) (ctx : Context) (s : PeriodicState) :
    (o : PeriodicOp) → Except PeriodicError (PeriodicState × o.Answer)
  | .loadPeriodic slug => .ok (s, s.find? slug)
  | .insertPeriodic call => Flywheel.insertPeriodic env call s
  | .updatePeriodic existing call => (Flywheel.updatePeriodic env existing.row call s).map (·, ())
  -- the table, which `tick` applies the query's condition to
  | .loadDue _ => .ok (s, s.periodics.rows)
  | .enqueueBucket d bucket => Flywheel.enqueueBucket ctx d bucket s
  | .advance d fires nextRun now => .ok (Flywheel.advance d.row.id fires nextRun now s, ())
  | .pause slug => (pausePeriodic ctx slug s).map (·, ())
  | .resume slug => (resumePeriodic env ctx slug s).map (·, ())
  | .report r => .ok ({ s with reports := s.reports ++ [r] }, ())

/-- The machine of the statements: one that fails changes nothing. -/
def periodicMachine (env : PeriodicEnv) :
    Machine PeriodicState PeriodicInput ℕ PeriodicOp PeriodicOp.Result
  | _, .fail, s => some (s, .error .database, [])
  | o, .run ctx, s =>
    match o.act env ctx s with
    | .ok (s', a) => some (s', .ok a, [])
    | .error e => some (s, .error e, [])

/-- A program of statements. -/
abbrev PeriodicProg (α : Type) : Type := Prog PeriodicOp PeriodicOp.Result α

/-- A thread of statements. -/
abbrev PeriodicThread : Type := Thread ℕ PeriodicOp PeriodicOp.Result

/-- The tables and the calls. -/
abbrev PeriodicSys : Type := Sys PeriodicState ℕ PeriodicOp PeriodicOp.Result

/-! ## The calls -/

namespace Periodic

/-- A single statement. -/
def stmt (o : PeriodicOp) : PeriodicProg (Except PeriodicError o.Answer) := Prog.call o

/-- The end of `upsertPeriodic`, on the row that it read. -/
def upsertExisting (existing : Definition) (call : UpsertCall) :
    PeriodicProg (Except PeriodicError Unit) :=
  stmt (.updatePeriodic existing call)

/-- `upsertPeriodic` -/
def upsertPeriodic (env : PeriodicEnv) (call : UpsertCall) :
    PeriodicProg (Except PeriodicError Unit) :=
  match call.spec.validate env with
  | .error e => return .error e
  | .ok () => do
    match ← stmt (.loadPeriodic call.spec.slug) with
    | .error e => return .error e
    | .ok (some existing) => upsertExisting existing call
    | .ok none =>
      match ← stmt (.insertPeriodic call) with
      | .error e => return .error e
      | .ok true => return .ok ()
      | .ok false =>
        -- a concurrent writer inserted the slug: adopt the row that landed
        match ← stmt (.loadPeriodic call.spec.slug) with
        | .error e => return .error e
        | .ok none => return .error (.removed call.spec.slug)
        | .ok (some existing) => upsertExisting existing call

/-- The loop of `fire` over the buckets: what was enqueued, and the error that ended it. -/
def enqueueBuckets (d : Definition) : List Time → List PeriodicFireEntry →
      PeriodicProg (List PeriodicFireEntry × Option PeriodicError)
  | [], fires => return (fires, none)
  | bucket :: buckets, fires => do
    match ← stmt (.enqueueBucket d bucket) with
    | .error e => return (fires, some e)
    | .ok none => enqueueBuckets d buckets fires
    | .ok (some id) => enqueueBuckets d buckets (fires ++ [{ jobID := id, firedAt := bucket }])

/-- `fire`: the jobs that it enqueued and its error; or none, while its walk of a cron has not
ended. -/
def fire (env : PeriodicEnv) (backfillCap : ℤ) (fuel : ℕ) (now : Time) (d : Definition) :
    PeriodicProg (Option (ℕ × Option PeriodicError)) :=
  match d.row.buckets env now backfillCap fuel with
  | none => return none
  | some (.error e) => return some (0, some e)
  | some (.ok (buckets, nextRun)) => do
    match ← enqueueBuckets d buckets [] with
    | (fires, some e) => return some (fires.length, some e)
    | (fires, none) =>
      match ← stmt (.advance d fires nextRun now) with
      | .error e => return some (fires.length, some e)
      | .ok () => return some (fires.length, none)

/-- The loop of `Tick`: each definition in isolation. -/
def fireAll (env : PeriodicEnv) (backfillCap : ℤ) (fuel : ℕ) (now : Time) :
    List Definition → PeriodicProg (Option (ℕ × List PeriodicError))
  | [] => return some (0, [])
  | d :: defs => do
    match ← fire env backfillCap fuel now d with
    | none => return none
    | some (n, err) =>
      match ← fireAll env backfillCap fuel now defs with
      | none => return none
      | some (enqueued, errs) => return some (n + enqueued, err.toList ++ errs)

/-- `Tick` at a clock reading, under the database's comparison with it. -/
def tickBy (reached : Time → Bool) (env : PeriodicEnv) (backfillCap : ℤ) (fuel : ℕ) (now : Time) :
    PeriodicProg Unit := do
  match ← stmt (.loadDue now) with
  | .error e =>
    let _ ← stmt (.report { now, backfillCap, table := [], enqueued := 0, errs := [e] })
    return ()
  | .ok table =>
    match ← fireAll env backfillCap fuel now (table.filter (Definition.due reached)) with
    | none => return ()
    | some (enqueued, errs) =>
      let _ ← stmt (.report { now, backfillCap, table, enqueued, errs })
      return ()

/-- `Tick` where instants compare as instants. -/
def tick (env : PeriodicEnv) (backfillCap : ℤ) (fuel : ℕ) (now : Time) : PeriodicProg Unit :=
  tickBy (fun t => decide (t ≤ now)) env backfillCap fuel now

end Periodic

/-! ## Histories -/

/-- A tick of some Scheduler: its cap, the rounds that it gives a cron's walk, and its clock
reading. -/
structure TickCall where
  backfillCap : ℤ
  fuel : ℕ
  now : Time

/-- A definition that fires every minute, due at the first. -/
def minutely : Definition where
  row :=
    { id := "p1", slug := "report", kind := "report", argsTemplate := .obj [], queue := "periodic"
      cronExpr := none, intervalSeconds := some 60, nextRunAt := 60 * second, isActive := true
      source := some .upserted, createdAt := 0, updatedAt := 0 }

/-- The definition, alone. -/
def minutelyTable : Table Definition.id := ⟨[minutely], List.nodup_singleton _⟩

/-- An upsert that makes it an hourly one. -/
def hourlyCall : UpsertCall where
  number := 0
  spec := { slug := "report", kind := "report", every := 3600 * second, active := true }
  ctx := {}

/-- What happens next: a call's thread takes a statement, or is cut off. -/
inductive PeriodicStep where
  | move (thread : ℕ) (input : PeriodicInput)
  | stop (thread : ℕ)

/-- The system after a step. -/
def PeriodicSys.step (env : PeriodicEnv) (sys : PeriodicSys) : PeriodicStep → PeriodicSys
  | .move thread input => Threads.step (periodicMachine env) sys (.move thread input)
  | .stop thread => Threads.step (periodicMachine env) sys (.stop thread)

section Statement

variable {env : PeriodicEnv} {α : Type} {label : ℕ} {s : PeriodicState}
  {Q : α → PeriodicState → Prop}
  {P : Protocol PeriodicState PeriodicInput ℕ PeriodicOp PeriodicOp.Result}

/-- The rule for one statement: the program goes on from its failure, which changes nothing, and
from its answer. -/
theorem upholds_stmt (hmachine : P.machine = periodicMachine env) (hrefl : ∀ s, P.Guar label s s)
    {o : PeriodicOp} {next : o.Result → PeriodicProg α}
    (hfail : ∀ e s', P.Rely label s s' → P.Inv s' →
      (P.Ok o .fail s' ∨ ∃ ctx, P.Ok o (.run ctx) s' ∧ o.act env ctx s' = .error e) →
        Upholds P label (next (.error e)) s' Q)
    (hact : ∀ s₁ ctx s₂ a, P.Rely label s s₁ → P.Inv s₁ → P.Ok o (.run ctx) s₁ →
      o.act env ctx s₁ = .ok (s₂, a) →
        P.Inv s₂ ∧ P.Guar label s₁ s₂ ∧ Upholds P label (next (.ok a)) s₂ Q) :
    Upholds P label (.op o next) s Q := by
  intro s₁ input s₂ a children hrely hinv hok hmove
  rw [hmachine] at hmove
  cases input with
  | fail => grind [periodicMachine]
  | run ctx =>
    cases hresult : o.act env ctx s₁ with
    | error e => grind [periodicMachine]
    | ok r => grind [periodicMachine]

end Statement

end Flywheel
