import Flywheel.Control.Batch

/-!
# The system

The transactions of runners, schedulers, clients and operators as one type of actions, each with
every parameter that its caller chooses, and the step that an action takes: what its transaction
committed, or the database as it was when the transaction rolled back. A history is any list of
actions, so that it covers any number of processes and every order in which their transactions
commit.
-/

namespace Flywheel

open Relational Transition

/-- The three parent-scoped controls. -/
inductive ScopeControl where
  | pause
  | resume
  | cancel
deriving DecidableEq, Inhabited, Repr

/-- A scoped control's transition. -/
def ScopeControl.transition : ScopeControl → ScopeTransition
  | .pause => pauseByParent
  | .resume => resumeByParent
  | .cancel => cancelByParent

/-- One transaction. -/
inductive Action where
  -- Insert, Enqueue, or one chunk of InsertMany
  | insert (ctx : Context) (items : List BatchItem)
  | dequeue (dialect : Dialect) (scan : Scan) (ctx : Context) (req : ClaimRequest)
  | insertRunStub (runID : String) (raw : RawJob) (startedAt : Time)
      (executorClass executorID : String)
  | renewLease (ctx : Context) (jobID leaseToken : String) (expiry : Time)
  | finalize (opts : DriverOpts) (ctx : Context) (raw : RawJob) (runID : String) (result : Result)
      (workErr : Option WorkError) (finishedAt : Time)
  -- one batch of Sweep
  | sweep (dialect : Dialect) (scan : Scan) (opts : DriverOpts) (ctx : Context) (now : Time)
      (limit : ℕ)
  | cancelJob (ctx : Context) (id : String)
  | retryJob (ctx : Context) (id : String) (opts : RetryOpts)
  | rescheduleJob (ctx : Context) (id : String) (due : Time)
  | setJobPriority (ctx : Context) (id : String) (priority : ℤ)
  | pauseJob (ctx : Context) (id : String)
  | resumeJob (ctx : Context) (id : String)
  | deleteJob (ctx : Context) (id : String)
  -- one batch of PauseByParent, ResumeByParent or CancelByParent
  | scope (scan : Scan) (ctx : Context) (parentID : String) (control : ScopeControl) (batchSize : ℕ)
  -- one batch of Replay or ReplayByParent
  | replay (ctx : Context) (opts : ReplayOpts) (pos : ReplayPosition) (batchSize : ℕ)
  -- one batch of BulkJobs
  | bulk (ctx : Context) (run : BulkRun) (ids : List String)

/-- A commit without its result. -/
def Commit.drop {α : Type} (c : Commit α) : Commit Unit :=
    { db := c.db, out := (), fires := c.fires }

/-- The transaction of an action. -/
def Action.exec : Action → Db → Except TxError (Commit Unit)
  | .insert ctx items, db => (insertChunk ctx items db).map fun c => { db := c.1, out := () }
  | .dequeue dialect scan ctx req, db => .ok (Flywheel.dequeue dialect scan ctx req db).drop
  | .insertRunStub runID raw startedAt executorClass executorID, db =>
    Flywheel.insertRunStub runID raw startedAt executorClass executorID db
  | .renewLease ctx jobID leaseToken expiry, db =>
    .ok (Flywheel.renewLease ctx jobID leaseToken expiry db).drop
  | .finalize opts ctx raw runID result workErr finishedAt, db =>
    (Flywheel.finalize opts ctx raw runID result workErr finishedAt db).map Commit.drop
  | .sweep dialect scan opts ctx now limit, db =>
    (sweepBatch dialect scan opts ctx now limit db).map Commit.drop
  | .cancelJob ctx id, db => Flywheel.cancelJob ctx id db
  | .retryJob ctx id opts, db => retryJobWithOptions ctx id opts db
  | .rescheduleJob ctx id due, db => Flywheel.rescheduleJob ctx id due db
  | .setJobPriority ctx id priority, db => Flywheel.setJobPriority ctx id priority db
  | .pauseJob ctx id, db => Flywheel.pauseJob ctx id db
  | .resumeJob ctx id, db => Flywheel.resumeJob ctx id db
  | .deleteJob ctx id, db => Flywheel.deleteJob ctx id db
  | .scope scan ctx parentID control batchSize, db =>
    (scopeBatch scan ctx parentID control.transition batchSize db).map Commit.drop
  | .replay ctx opts pos batchSize, db => (replayBatch ctx opts pos batchSize db).map Commit.drop
  | .bulk ctx run ids, db => (applyBatch ctx run ids db).map Commit.drop

/-- One step of the system. -/
def step (db : Db) (a : Action) : Db := settle Commit.db db (a.exec db)

/-- The database after a history. -/
def Db.after (db : Db) (history : List Action) : Db := run step db history

/-- The lease tokens that an action mints. -/
def Action.minted : Action → List String
  | .dequeue _ _ ctx _ => [ctx.newID 0]
  | _ => []

/-- The claims that an action hands to its runner. -/
def Action.issued : Action → Db → List RawJob
  | .dequeue dialect scan ctx req, db =>
    (Flywheel.dequeue dialect scan ctx req db).out.toOption.getD []
  | _, _ => []

/-- The claim of a job that was inserted at time zero with no options, as its first Dequeue returns
it. -/
def firstClaim (id kind leaseToken : String) : RawJob :=
  { id, kind, leaseToken
    queue := defaultQueue, args := .null, attempt := 1, maxAttempts := defaultMaxAttempts
    timeoutMs := none, parentJobID := none, tags := [], createdAt := 0, scheduledAt := 0
    metadata := .obj [] }

variable {a : Action} {db : Db}

theorem step_of_ok {c : Commit Unit} (h : a.exec db = .ok c) : step db a = c.db := by
  unfold step
  rw [h, settle_ok]

theorem step_of_error {e : TxError} (h : a.exec db = .error e) : step db a = db := by
  unfold step
  rw [h, settle_error]

theorem issued_spec {raw : RawJob} (h : raw ∈ a.issued db) :
    ∃ dialect scan ctx req r, a = .dequeue dialect scan ctx req ∧
      r ∈ claimedRows dialect scan ctx req db ∧ RawOf (ctx.newID 0) r raw := by
  cases a with
  | dequeue dialect scan ctx req =>
    obtain ⟨-, -, hraws⟩ := dequeue_spec dialect scan ctx req db
    unfold Action.issued at h
    cases hout : (dequeue dialect scan ctx req db).out with
    | error e => simp [hout, Except.toOption] at h
    | ok raws =>
      have hraw : raw ∈ raws := by simpa [hout, Except.toOption] using h
      obtain ⟨r, hr, hof⟩ := partner_of_mem (hraws raws hout) hraw
      exact ⟨dialect, scan, ctx, req, r, rfl, hr, hof⟩
  | _ => simp [Action.issued] at h

/-- An action issues at most one claim of a job. -/
theorem issued_nodup (a : Action) (db : Db) : ((a.issued db).map RawJob.id).Nodup := by
  cases a with
  | dequeue dialect scan ctx req =>
    obtain ⟨-, -, hraws⟩ := dequeue_spec dialect scan ctx req db
    cases hout : (dequeue dialect scan ctx req db).out with
    | error e => simp [Action.issued, hout, Except.toOption]
    | ok raws =>
      -- the claims are those of the claimed rows, one each
      have hids : List.Forall₂ (fun r raw => r.id = raw.id)
          (claimedRows dialect scan ctx req db) raws :=
        (hraws raws hout).imp fun _ _ hof => hof.id.symm
      have hmap : (claimedRows dialect scan ctx req db).map JobRow.id = raws.map RawJob.id := by
        rw [← List.forall₂_eq_eq_eq]
        exact List.forall₂_map_left_iff.mpr (List.forall₂_map_right_iff.mpr hids)
      grind [Action.issued, Except.toOption, claimedRows_nodup]
  | _ => simp [Action.issued]

/-- What a Dequeue stores under an id: the claim of a row that it claims, and else what was
there. -/
theorem dequeue_get? (dialect : Dialect) (scan : Scan) (ctx : Context) (req : ClaimRequest)
    (db : Db) (id : String) :
    (step db (.dequeue dialect scan ctx req)).jobs.get? id = (db.jobs.get? id).map fun r =>
        if ((claimedRows dialect scan ctx req db).map JobRow.id).contains r.id then
          (claimUpdate (ctx.clock 0) (ctx.clock 0 + req.lease) (ctx.newID 0)).apply r
        else r := by
  have hexec : (Action.dequeue dialect scan ctx req).exec db =
      .ok (dequeue dialect scan ctx req db).drop := rfl
  rw [step_of_ok hexec]
  unfold Commit.drop
  rw [(dequeue_spec dialect scan ctx req db).2.1]
  exact Table.get?_update _ _ _ _

end Flywheel
