import Mathlib.Data.List.Dedup
import Mathlib.Data.List.Sort
import Flywheel.Driver.Finalize
import Flywheel.Instants

/-!
# Claims and the lease sweep

`dequeue` claims ready jobs under a fresh lease token, `insertRunStub` commits the attempt's
audit row, and `sweepBatch` takes back the jobs whose lease has expired. The two dialects differ
in what a statement may skip (PostgreSQL leaves out the rows that other transactions hold) and
in what a failed conversion undoes (PostgreSQL's claim is a statement of its own, so that its
rows stay claimed).
-/

namespace Flywheel

open Relational Transition List Table

/-- What the database decides for one ordered, limited select: the order of the rows that its
`ORDER BY` leaves tied, the rows that other transactions hold locked, and the zone in which SQLite's
texts were written. -/
structure Scan where
  rank : String → ℕ := fun _ => 0
  locked : String → Bool := fun _ => false
  zone : Zone := fun _ => 0

/-- The rows that a select may take: `SKIP LOCKED` leaves out those that another transaction
holds, and SQLite has one writer. -/
def Scan.free (scan : Scan) : Dialect → JobRow → Bool
  | .postgres, r => !scan.locked r.id
  | .sqlite, _ => true

/-! ## Dequeue -/

/-- The parameters of one `Dequeue`. -/
structure ClaimRequest where
  queues : List String
  executorClass : String := ""
  claimAny : Bool := true
  limit : ℤ := 1
  lease : Duration

/-- The claim's predicate. -/
def ClaimRequest.claimable (req : ClaimRequest) (now : Time) (r : JobRow) : Bool :=
  r.visible && claimableStates.contains r.state && decide (r.scheduledAt ≤ now) &&
    req.queues.contains r.queue &&
    (req.claimAny || decide (r.executorClass = req.executorClass) || decide (r.executorClass = ""))

/-- `ORDER BY priority, scheduled_at`, ties in the scan's order. -/
def claimsBefore (rank : String → ℕ) (a b : JobRow) : Prop :=
  a.priority < b.priority ∨ (a.priority = b.priority ∧
    (a.scheduledAt < b.scheduledAt ∨ (a.scheduledAt = b.scheduledAt ∧ rank a.id ≤ rank b.id)))

instance (rank : String → ℕ) : DecidableRel (claimsBefore rank) := fun _ _ =>
  inferInstanceAs (Decidable (_ ∨ _))

/-- The rows that one Dequeue claims. -/
def ClaimRequest.select (req : ClaimRequest) (dialect : Dialect) (scan : Scan) (now : Time)
    (db : Db) : List JobRow :=
  let ready := (db.jobs.rows.filter (req.claimable now)).insertionSort (claimsBefore scan.rank)
  (ready.filter (scan.free dialect)).take req.limit.toNat

/-- The columns of a claim. -/
def claimUpdate (now expiry : Time) (token : String) : Patch JobRow.id where
  apply r :=
    { r with
      state := .running
      attempt := r.attempt + 1
      leasedUntil := some expiry
      leaseToken := some token
      updatedAt := now }
  key_apply _ := rfl

/-- The strings of a JSON array, as `json.Unmarshal` reads them into a slice. -/
def decodeStrings : List Json → Option (List String)
  | [] => some []
  | .str s :: rest => (decodeStrings rest).map (s :: ·)
  | .null :: rest => (decodeStrings rest).map ("" :: ·)
  | _ :: _ => none

/-- The stored tags, or `none` when the column does not decode. -/
def decodeTags : Json → Option (List String)
  | .null => some []
  | .arr items => decodeStrings items
  | _ => none

/-- `rawFromRow` -/
def rawFromRow (r : JobRow) (attempt : ℤ) (leaseToken : String) : Except TxError RawJob :=
  match decodeTags r.tags with
  | none => .error .decodeTags
  | some tags => .ok
      { id := r.id, kind := r.kind, queue := r.queue, args := r.args, attempt
        maxAttempts := r.maxAttempts, timeoutMs := r.timeoutMs, leaseToken
        parentJobID := r.parentJobID, tags, createdAt := r.createdAt
        scheduledAt := r.scheduledAt, metadata := r.metadata }

/-- The claimed jobs, in the order selected, or the first conversion that fails. -/
def rawsFromRows (leaseToken : String) : List JobRow → Except TxError (List RawJob)
  | [] => .ok []
  | r :: rows => do
    let raw ← rawFromRow r (r.attempt + 1) leaseToken
    let raws ← rawsFromRows leaseToken rows
    return raw :: raws

/-- The table that a Dequeue leaves when it claims `rows`. -/
def claimRows (ctx : Context) (req : ClaimRequest) (rows : List JobRow) (db : Db) : Db :=
  { db with
    jobs := db.jobs.update (fun r => (rows.map JobRow.id).contains r.id)
      (claimUpdate (ctx.clock 0) (ctx.clock 0 + req.lease) (ctx.newID 0)) }

/-- `Dequeue`: one token for the call, stamped on every row that it claims. -/
def dequeue (dialect : Dialect) (scan : Scan) (ctx : Context) (req : ClaimRequest) (db : Db) :
    Commit (Except TxError (List RawJob)) :=
  if req.limit ≤ 0 ∨ req.queues = [] then { db, out := .ok [] }
  else
    let rows := req.select dialect scan (ctx.clock 0) db
    match dialect, rawsFromRows (ctx.newID 0) rows with
    -- SQLite converts inside its transaction, which a failed conversion rolls back
    | .sqlite, .error e => { db, out := .error e }
    | _, out => { db := claimRows ctx req rows db, out }

/-! ## InsertRunStub -/

/-- `queueWaitMs` -/
def queueWaitMs (scheduledAt startedAt : Time) : Option ℤ :=
  if scheduledAt = zeroTime then none else some (max (milliseconds (startedAt - scheduledAt)) 0)

/-- The audit row of an attempt that starts. -/
def runStub (runID : String) (raw : RawJob) (startedAt : Time) (executorClass executorID : String) :
    JobRunRow :=
  { id := runID, jobID := raw.id, attempt := raw.attempt, kind := raw.kind, queue := raw.queue
    executorClass, executorID, startedAt, finishedAt := none, outcome := .started
    errorClass := none, errorMessage := none, errorFingerprint := none, durationMs := none
    queueWaitMs := queueWaitMs raw.scheduledAt startedAt
    costMicros := none, enqueuedChildren := 0, jobState := none, superseded := false
    createdAt := startedAt }

/-- `InsertRunStub`: a plain insert, which the run's key or the index on a job's attempts may
refuse; `BeforeCreate` requires the job and the executor. -/
def insertRunStub (runID : String) (raw : RawJob) (startedAt : Time)
    (executorClass executorID : String) (db : Db) : Except TxError (Commit Unit) :=
  let row := runStub runID raw startedAt executorClass executorID
  if raw.id = "" then .error (.validation "job_id" "is required")
  else if executorID = "" then .error (.validation "executor_id" "is required")
  else if db.runs.conflicts runClash row then .error .duplicateKey
  else .ok { db := { db with runs := db.runs.insert runClash row }, out := () }

/-! ## The sweep -/

/-- `spentAttempts` -/
def spentAttempts (attempt maxAttempts : ℤ) : Bool := decide (attempt ≥ maxAttempts)

/-- `crashBudgetSpent` -/
def crashBudgetSpent (earlierCrashes maxCrashes : ℤ) : Bool :=
  decide (0 < maxCrashes) && decide (1 + earlierCrashes ≥ maxCrashes)

/-- `crashedRunCondition` -/
def JobRunRow.crashedRun (r : JobRunRow) : Bool :=
  decide (r.outcome = .crashed) || (r.superseded && r.jobState.isSome)

/-- `earlierCrashes`, for one job. -/
def earlierCrashes (db : Db) (jobID : String) : ℤ :=
  (db.runs.rows.countP fun r => decide (r.jobID = jobID) && r.crashedRun : ℕ)

/-- Whether a reclaim ends the job: its last attempt, or its crash budget. -/
def reclaimSpent (opts : DriverOpts) (db : Db) (r : JobRow) : Bool :=
  spentAttempts r.attempt r.maxAttempts || crashBudgetSpent (earlierCrashes db r.id) opts.maxCrashes

/-- `reclaimUpdate` and `reclaimDiscardUpdate`, as the row's budget decides. -/
def reclaimUpdate (opts : DriverOpts) (now : Time) (db : Db) : Patch JobRow.id where
  apply r :=
    { r with
      state := if reclaimSpent opts db r then .discarded else .available
      finalizedAt := if reclaimSpent opts db r then some now else r.finalizedAt
      leasedUntil := none
      leaseToken := none
      updatedAt := now }
  key_apply _ := rfl

/-- A running row whose lease has lapsed, by a comparison of `leased_until` with the present. -/
def JobRow.expired (lapsed : Time → Bool) (r : JobRow) : Bool :=
  r.visible && decide (r.state = .running) && r.leasedUntil.any lapsed

/-- `ORDER BY leased_until`, ties in the scan's order. -/
def expiresBefore (sorts : Time → Time → Bool) (rank : String → ℕ) (a b : JobRow) : Prop :=
  sorts (a.leasedUntil.getD 0) (b.leasedUntil.getD 0) = true ∨
    (sorts (b.leasedUntil.getD 0) (a.leasedUntil.getD 0) = false ∧ rank a.id ≤ rank b.id)

instance (sorts : Time → Time → Bool) (rank : String → ℕ) : DecidableRel
    (expiresBefore sorts rank) :=
  fun _ _ => inferInstanceAs (Decidable (_ ∨ _))

/-- The rows whose lease the dialect's comparison calls expired, in its order. -/
def Scan.expired (scan : Scan) (dialect : Dialect) (now : Time) (rows : List JobRow) :
    List JobRow :=
  (rows.filter (JobRow.expired (dialect.before scan.zone now))).insertionSort
    (expiresBefore (dialect.sorts scan.zone) scan.rank)

/-- The rows that one batch reclaims. -/
def expiredRows (dialect : Dialect) (scan : Scan) (now : Time) (limit : ℕ) (db : Db) :
    List JobRow :=
  ((scan.expired dialect now db.jobs.rows).filter (scan.free dialect)).take limit

/-- `inReclaimOrder`: the oldest expired lease first, then by id. -/
def reclaimOrder (a b : JobRow) : Prop :=
  a.leasedUntil.getD 0 < b.leasedUntil.getD 0 ∨
    (a.leasedUntil.getD 0 = b.leasedUntil.getD 0 ∧ a.id ≤ b.id)

instance : DecidableRel reclaimOrder := fun _ _ => inferInstanceAs (Decidable (_ ∨ _))

/-- `reclaimedJob`, with the run that the sweep crashed, as `SweptJob` reports it. -/
structure ReclaimedJob where
  id : String
  state : JobState
  kind : String
  queue : String
  attempt : ℤ
  maxAttempts : ℤ
  parentJobID : Option String
  runID : Option String

/-- The reclaimed job of an expired row. -/
def reclaimedJob (opts : DriverOpts) (db : Db) (r : JobRow) : ReclaimedJob :=
  { id := r.id, state := if reclaimSpent opts db r then .discarded else .available
    kind := r.kind, queue := r.queue, attempt := r.attempt, maxAttempts := r.maxAttempts
    parentJobID := r.parentJobID
    runID := (db.runs.rows.find? fun run =>
      decide (run.jobID = r.id ∧ run.attempt = r.attempt ∧ run.outcome = .started)).map
        JobRunRow.id }

/-- The reclaimed job whose stub this run is: the one at the job's own attempt, still started. -/
def staleStubOf (jobs : List ReclaimedJob) (run : JobRunRow) : Option ReclaimedJob :=
  jobs.find? fun j => decide (run.jobID = j.id ∧ run.attempt = j.attempt ∧ run.outcome = .started)

/-- `crashStaleStubs`: each reclaimed attempt's stub is crashed with the state that the reclaim
applied, and its finish is logged. -/
def crashStaleStubs (jobs : List ReclaimedJob) (now : Time) (db : Db) : Db :=
  let stale := (db.runs.rows.filter fun run => (staleStubOf jobs run).isSome).map JobRunRow.id
  logFinishes stale { db with
      runs := db.runs.update (fun run => (staleStubOf jobs run).isSome)
        { apply := fun run =>
            { run with
              outcome := .crashed
              finishedAt := some now
              jobState := (staleStubOf jobs run).map ReclaimedJob.state }
          key_apply := fun _ => rfl } }

/-- The last element of a list that a predicate picks. -/
def lastWith {α : Type} (p : α → Bool) (xs : List α) : Option α := xs.reverse.find? p

/-- The distinct parents of `xs`, in id order. -/
def sortedParents {α : Type} (parent : α → Option String) (xs : List α) : List String :=
  (xs.filterMap parent).dedup.insertionSort (· ≤ ·)

variable {req : ClaimRequest} {db : Db} {dialect : Dialect} {r : JobRow} {scan : Scan} {now : Time}
  {α : Type}

/-- Every parent is listed once. -/
theorem sortedParents_nodup (parent : α → Option String) (xs : List α) :
    (sortedParents parent xs).Nodup := by
  unfold sortedParents
  exact (perm_insertionSort _ _).nodup_iff.mpr (nodup_dedup _)

variable {parent : α → Option String} {xs : List α} {q : String} {ctx : Context} {limit : ℕ}

/-- The parents that are listed are those of the rows. -/
theorem mem_sortedParents_iff : q ∈ sortedParents parent xs ↔ ∃ x ∈ xs, parent x = some q := by
  unfold sortedParents
  rw [mem_insertionSort, mem_dedup, mem_filterMap]

/-- The parent of a row is listed. -/
theorem mem_sortedParents {x : α} (hx : x ∈ xs) (hq : parent x = some q) :
    q ∈ sortedParents parent xs :=
  mem_sortedParents_iff.mpr ⟨x, hx, hq⟩

/-- The parents that `fireDiscardedParentsBarriers` checks, each with the last child that the
batch discarded. -/
def discardedParents (jobs : List ReclaimedJob) : List (String × String) :=
  let discarded := jobs.filter fun j => decide (j.state = .discarded)
  (sortedParents ReclaimedJob.parentJobID discarded).map fun parentID =>
    (parentID, ((lastWith (fun j => decide (j.parentJobID = some parentID)) discarded).map
      ReclaimedJob.id).getD "")

/-- The table that a sweep leaves when it reclaims `rows`. -/
def reclaimRows (opts : DriverOpts) (now : Time) (rows : List JobRow) (db : Db) : Db :=
  { db with
    jobs := db.jobs.update (fun r => (rows.map JobRow.id).contains r.id)
      (reclaimUpdate opts now db) }

/-- `sweepBatch`: the reclaim, the stale stubs, and the barrier checks, in one transaction. -/
def sweepBatch (dialect : Dialect) (scan : Scan) (opts : DriverOpts) (ctx : Context) (now : Time)
    (limit : ℕ) (db : Db) : Except TxError (Commit (List ReclaimedJob)) :=
  let rows := expiredRows dialect scan now limit db
  if rows = [] then .ok { db, out := [] }
  else do
    let jobs := (rows.insertionSort reclaimOrder).map (reclaimedJob opts db)
    let (db, fires) ← fireEach ctx 0 (discardedParents jobs)
      (crashStaleStubs jobs now (reclaimRows opts now rows db))
    return { db, out := jobs, fires }

/-! ## What a claim does -/

/-- A selected job is stored, and the request may claim it. -/
theorem ClaimRequest.mem_select (h : r ∈ req.select dialect scan now db) :
    r ∈ db.jobs.rows ∧ req.claimable now r = true := by
  have h := (mem_filter.mp (mem_of_mem_take h)).1
  simp_all

/-- A job that may be claimed is in a claimable state. -/
theorem ClaimRequest.claimable_state (h : req.claimable now r = true) :
    claimableStates.contains r.state = true := by
  simp only [ClaimRequest.claimable, Bool.and_eq_true] at h
  exact h.1.1.1.2

/-- What a claimed job carries of its row. -/
structure RawOf (token : String) (r : JobRow) (raw : RawJob) : Prop where
  id : raw.id = r.id
  attempt : raw.attempt = r.attempt + 1
  maxAttempts : raw.maxAttempts = r.maxAttempts
  leaseToken : raw.leaseToken = token
  parentJobID : raw.parentJobID = r.parentJobID

/-- The claims are those of the rows, in their order. -/
theorem rawsFromRows_spec {token : String} {rows : List JobRow} {raws : List RawJob}
    (h : rawsFromRows token rows = .ok raws) : List.Forall₂ (RawOf token) rows raws := by
  induction rows generalizing raws with
  | nil =>
    cases h
    exact .nil
  | cons r rows ih =>
    obtain ⟨raw, hraw, h⟩ := bind_eq_ok.mp h
    obtain ⟨rest, hrest, h⟩ := bind_eq_ok.mp h
    cases h
    refine .cons ?_ (ih hrest)
    rw [rawFromRow] at hraw
    cases htags : decodeTags r.tags with
    | none => simp [htags] at hraw
    | some tags =>
      simp only [htags, Except.ok.injEq] at hraw
      subst hraw
      exact ⟨rfl, rfl, rfl, rfl, rfl⟩

/-- The rows that a Dequeue claims: none without a limit or a queue, none when SQLite rolls back,
and else those that it selects. -/
def claimedRows (dialect : Dialect) (scan : Scan) (ctx : Context) (req : ClaimRequest) (db : Db) :
    List JobRow :=
  if req.limit ≤ 0 ∨ req.queues = [] then []
  else
    let rows := req.select dialect scan (ctx.clock 0) db
    match dialect, rawsFromRows (ctx.newID 0) rows with
    | .sqlite, .error _ => []
    | _, _ => rows

/-- A claim of no rows changes nothing. -/
theorem claimRows_nil (ctx : Context) (req : ClaimRequest) (db : Db) :
    claimRows ctx req [] db = db := by
  have hjobs : (claimRows ctx req [] db).jobs = db.jobs := update_of_false fun _ _ => rfl
  exact congrArg (fun jobs => { db with jobs }) hjobs

/-- What a Dequeue does: it claims its rows, and returns their jobs unless one does not convert. -/
theorem dequeue_spec (dialect : Dialect) (scan : Scan) (ctx : Context) (req : ClaimRequest)
    (db : Db) : let c := dequeue dialect scan ctx req db
    let rows := claimedRows dialect scan ctx req db
    c.fires = [] ∧ c.db = claimRows ctx req rows db ∧
      ∀ raws, c.out = .ok raws → List.Forall₂ (RawOf (ctx.newID 0)) rows raws := by
  simp only [dequeue, claimedRows]
  split_ifs with hempty
  · simp_all [claimRows_nil]
  · cases hraws : rawsFromRows (ctx.newID 0) (req.select dialect scan (ctx.clock 0) db) with
    | ok raws =>
      have hspec := rawsFromRows_spec hraws
      simp_all
    | error e => grind [claimRows_nil]

/-- Only selected jobs are claimed. -/
theorem claimedRows_sublist (dialect : Dialect) (scan : Scan) (ctx : Context) (req : ClaimRequest)
    (db : Db) :
    (claimedRows dialect scan ctx req db).Sublist (req.select dialect scan (ctx.clock 0) db) := by
  unfold claimedRows
  grind

/-- A claimed job is stored, and the request may claim it. -/
theorem mem_claimedRows (h : r ∈ claimedRows dialect scan ctx req db) :
    r ∈ db.jobs.rows ∧ req.claimable (ctx.clock 0) r = true :=
  ClaimRequest.mem_select ((claimedRows_sublist dialect scan ctx req db).subset h)

/-- No job is claimed twice. -/
theorem claimedRows_nodup (dialect : Dialect) (scan : Scan) (ctx : Context) (req : ClaimRequest)
    (db : Db) : ((claimedRows dialect scan ctx req db).map JobRow.id).Nodup := by
  refine Nodup.sublist ((claimedRows_sublist dialect scan ctx req db).map JobRow.id) ?_
  unfold ClaimRequest.select
  refine Nodup.sublist (((take_sublist _ _).trans filter_sublist).map JobRow.id) ?_
  refine ((perm_insertionSort (claimsBefore scan.rank) _).map JobRow.id).nodup_iff.mpr ?_
  exact db.jobs.nodup.sublist (filter_sublist.map JobRow.id)

/-- A stub that is inserted is new, and joins the runs. -/
theorem insertRunStub_spec {runID : String} {raw : RawJob} {startedAt : Time}
    {executorClass executorID : String} {c : Commit Unit}
    (h : insertRunStub runID raw startedAt executorClass executorID db = .ok c) :
    db.runs.conflicts runClash (runStub runID raw startedAt executorClass executorID) = false ∧
      c.fires = [] ∧
      c.db = { db with
        runs := db.runs.insert runClash
          (runStub runID raw startedAt executorClass executorID) } := by
  simp only [insertRunStub] at h
  grind

/-! ## What a sweep does -/

/-- A reclaimed row is stored, and its lease has expired. -/
theorem mem_expiredRows (h : r ∈ expiredRows dialect scan now limit db) :
    r ∈ db.jobs.rows ∧ r.expired (dialect.before scan.zone now) = true := by
  have h := (mem_filter.mp (mem_of_mem_take h)).1
  rwa [Scan.expired, mem_insertionSort, mem_filter] at h

/-- Only a running job has a lease that expires. -/
theorem JobRow.expired_state {lapsed : Time → Bool} (h : r.expired lapsed = true) :
    r.state = .running := by
  simp only [JobRow.expired, Bool.and_eq_true, decide_eq_true_eq] at h
  exact h.1.2

/-- What a sweep's batch does: nothing when no lease has expired, and otherwise the reclaim, the
stale stubs, and the barrier checks of the parents of the jobs that it discarded. -/
theorem sweepBatch_spec {opts : DriverOpts} {c : Commit (List ReclaimedJob)}
    (h : sweepBatch dialect scan opts ctx now limit db = .ok c) :
    let rows := expiredRows dialect scan now limit db
    let jobs := (rows.insertionSort reclaimOrder).map (reclaimedJob opts db)
    let mid := crashStaleStubs jobs now (reclaimRows opts now rows db)
    (rows = [] ∧ c.db = db ∧ c.fires = []) ∨
      (c.out = jobs ∧ Effect ctx mid (discardedParents jobs) c ∧ JobsOnly mid c.db) := by
  simp only [sweepBatch] at h
  split_ifs at h with hnil
  · grind
  · obtain ⟨⟨after, fires⟩, hfires, h⟩ := bind_eq_ok.mp h
    cases h
    refine .inr ⟨rfl, ⟨0, after, hfires, rfl⟩, ?_⟩
    rw [JobsOnly, fireEach_frame hfires]

end Flywheel
