import Flywheel.Driver.Barrier

/-!
# Finalize and the lease's renewal

`planFinalize` maps an attempt's result onto the job state machine; `finalize` applies the plan
under the fence of the claim, with the follow-ups, the barrier's declaration and the parent's
barrier check in the one transaction. `renewLease` extends a lease under the same fence.
-/

namespace Flywheel

open Relational Transition List Table

/-! ## The plan -/

/-- `finalizePlan` -/
structure FinalizePlan where
  jobState : JobState
  runOutcome : RunOutcome
  scheduledAt : Option Time := none
  finalizedAt : Option Time := none
  maxAttemptsDelta : ℤ := 0
  errorClass : Option ErrorClass := none
  followUps : Bool := false

/-- One minute: with one second, the bounds of the driver's own backoff. -/
def minute : Duration := 60000000000

/-- `defaultBackoff` -/
def defaultBackoff (ctx : Context) (attempt : ℤ) : Duration := ctx.exponential second minute attempt

/-- A failed attempt's class: the runner's, or transient. -/
def WorkError.classOf (e : WorkError) : ErrorClass := e.errorClass.getD .transient

/-- A failed attempt's delay: the runner's, or the driver's own backoff. -/
def WorkError.delay (ctx : Context) (raw : RawJob) (e : WorkError) : Duration :=
  if 0 < e.retryDelay then e.retryDelay else defaultBackoff ctx raw.attempt

/-- The failure ends the job: its class is never retried, or the attempt was the last. -/
def WorkError.ends (raw : RawJob) (e : WorkError) : Bool :=
  decide (e.classOf = .permanent) || decide (e.classOf = .validation) ||
    decide (raw.attempt ≥ raw.maxAttempts)

/-- `planFinalize`: a cancel takes precedence over a snooze, and a snooze over an error. -/
def planFinalize (ctx : Context) (raw : RawJob) (result : Result) (workErr : Option WorkError)
    (finishedAt : Time) : FinalizePlan :=
  if result.cancel then
    { jobState := .cancelled, runOutcome := .cancelled, finalizedAt := some finishedAt }
  else match result.snooze with
    | some snooze =>
      { jobState := .scheduled, runOutcome := .snooze, scheduledAt := some (finishedAt + snooze)
        maxAttemptsDelta := 1 }
    | none =>
      match workErr with
      | some e =>
        let runOutcome := if e.classOf = .timeout then .timeout else .error
        bif e.ends raw then
          { jobState := .discarded, runOutcome, finalizedAt := some finishedAt
            errorClass := some e.classOf }
        else
          { jobState := .retryable, runOutcome, errorClass := some e.classOf
            scheduledAt := some (finishedAt + e.delay ctx raw) }
      | none =>
        { jobState := .succeeded, runOutcome := .success, finalizedAt := some finishedAt
          followUps := true }

/-- `FinalizeOutcome`: what a finalization persisted. Its state is `none` when the job is gone. -/
structure FinalizeOutcome where
  superseded : Bool
  state : Option JobState
  runOutcome : RunOutcome
  errorClass : Option ErrorClass
  scheduledAt : Option Time
  enqueuedChildren : ℕ

/-! ## The rows that a finalization writes -/

/-- `jobFinalizeUpdate`, with the barrier's columns when the finalization declares one. -/
def jobFinalizeUpdate (plan : FinalizePlan) (finishedAt : Time)
    (barrier : Option (String × BarrierSpec)) : Patch JobRow.id where
  apply r :=
    { r with
      state := plan.jobState
      updatedAt := finishedAt
      leasedUntil := none
      leaseToken := none
      scheduledAt := plan.scheduledAt.getD r.scheduledAt
      finalizedAt := plan.finalizedAt.or r.finalizedAt
      maxAttempts := r.maxAttempts + plan.maxAttemptsDelta
      barrierKind := (barrier.map Prod.fst).or r.barrierKind
      barrierSpec := (barrier.map Prod.snd).or r.barrierSpec }
  key_apply _ := rfl

/-- The fence: the row is running under this very token. -/
def holdsClaim (jobID leaseToken : String) (r : JobRow) : Bool :=
  isJob jobID r && decide (r.state = .running) && decide (r.leaseToken = some leaseToken)

/-- The fingerprint that a finalization stores, if it stores one: that of a failed attempt. -/
def FinalizePlan.fingerprint (plan : FinalizePlan) (hash : ErrorHash) (kind message : String)
    (e : WorkError) : Option String :=
  if failedOutcome plan.runOutcome then
    plan.errorClass.map fun c => fingerprintOf hash kind c message e
  else none

/-- `runFinalizeUpdate`: `finished_at` is written once, `job_state` only when the finalize was
applied, and the columns of an error only when there is one. -/
def runFinalizeUpdate (hash : ErrorHash) (plan : FinalizePlan) (result : Result)
    (workErr : Option WorkError) (kind : String) (finishedAt : Time) (durationMs : ℤ) (enqueued : ℕ)
    (superseded : Bool) : Patch JobRunRow.id where
  apply r :=
    let message := workErr.map fun e => truncate e.message maxErrorMessage
    let fingerprint := workErr.bind fun e =>
      plan.fingerprint hash kind (truncate e.message maxErrorMessage) e
    { r with
      outcome := plan.runOutcome
      finishedAt := r.finishedAt.or (some finishedAt)
      durationMs := some durationMs
      costMicros := some result.costMicros
      enqueuedChildren := enqueued
      superseded := superseded
      jobState := if superseded then r.jobState else some plan.jobState
      errorClass := plan.errorClass.or r.errorClass
      errorMessage := message.or r.errorMessage
      errorFingerprint := fingerprint.or r.errorFingerprint }
  key_apply _ := rfl

/-- The entries of the runs that `ids` names, as `finishLogInsert` selects them. -/
def finishEntries (ids : List String) (runs : Table JobRunRow.id) : List FinishRow :=
  runs.rows.filterMap fun r =>
    if r.id ∈ ids then r.finishedAt.map fun t => { finishedAt := t, runID := r.id } else none

/-- One entry of the finish log per finished run that `ids` names, each stored once
(`finishLogInsert`). -/
def logFinishes (ids : List String) (db : Db) : Db :=
  { db with finishes := db.finishes ++ (finishEntries ids db.runs).filter fun e => e ∉ db.finishes }

/-- `finalizeRunRow`: the run's update, then its finish-log entry. -/
def finalizeRunRow (runID : String) (upd : Patch JobRunRow.id) (db : Db) : Db :=
  logFinishes [runID] { db with runs := db.runs.update (fun r => decide (r.id = runID)) upd }

/-! ## The follow-ups -/

/-- The rows of a fan-out, built in order before any is written. -/
def buildFollowUps (ctx : Context) (parentID : String) :
    ℕ → List FollowUp → Except TxError (List JobRow)
  | _, [] => .ok []
  | k, fu :: fus => do
    let row ← buildChildRow ctx k fu parentID parentID .followUp (ctx.registry fu.kind)
    let rows ← buildFollowUps ctx parentID (k + 1) fus
    return row :: rows

/-- The chunked insert of a fan-out, with the number of rows that landed. A chunk is never empty,
so that the list's length bounds the chunks. -/
def insertChunks (now : Time) (size : ℕ) : ℕ → List JobRow → Db → Except TxError (Db × ℕ)
  | 0, _, db => .ok (db, 0)
  | fuel + 1, rows, db =>
    if rows = [] then .ok (db, 0)
    else do
      let (db, landed) ← conflictInsertChunk now (rows.take size) db
      let (db, enqueued) ← insertChunks now size fuel (rows.drop size) db
      return (db, landed.length + enqueued)

/-- `insertFollowUps` -/
def insertFollowUps (opts : DriverOpts) (ctx : Context) (followUps : List FollowUp)
    (parentID : String) (db : Db) : Except TxError (Db × ℕ) :=
  if followUps = [] then .ok (db, 0)
  else do
    refuse (opts.maxFollowUps < followUps.length) .followUpLimit
    let rows ← buildFollowUps ctx parentID 0 followUps
    insertChunks (ctx.clock 0) opts.chunkSize rows.length rows db

/-! ## Finalize -/

/-- The barrier's columns, when the plan lets the result declare one. -/
def declareBarrier (opts : DriverOpts) (ctx : Context) (raw : RawJob) (plan : FinalizePlan)
    (result : Result) (db : Db) : Except TxError (Option (String × BarrierSpec)) :=
  match plan.followUps, result.barrier with
  | true, some b => do
    validateBarrier b result.followUps opts.maxChildren
    let columns ← resolveBarrierColumns ctx raw b db
    return some columns
  | _, _ => .ok none

/-- Whether the fence of a claim still matches a row. -/
def Db.claimHeld (db : Db) (jobID leaseToken : String) : Bool :=
  db.jobs.rows.any (holdsClaim jobID leaseToken)

variable {jobID token : String}

theorem holdsClaim_iff {r : JobRow} : holdsClaim jobID token r = true ↔
    r.id = jobID ∧ r.visible = true ∧ r.state = .running ∧ r.leaseToken = some token := by
  simp only [holdsClaim, isJob, Bool.and_eq_true, decide_eq_true_eq, and_assoc]

/-- The row that holds a claim is its job's. -/
theorem Db.claimHeld_get? {db : Db} (h : db.claimHeld jobID token = true) :
    ∃ r, db.jobs.get? jobID = some r ∧ holdsClaim jobID token r = true := by
  obtain ⟨r, hr, hholds⟩ := any_eq_true.mp h
  exact ⟨r, (holdsClaim_iff.mp hholds).1 ▸ get?_key hr, hholds⟩

/-- The state advance, with a barrier's columns, under the fence of the claim. -/
def advanceJob (raw : RawJob) (plan : FinalizePlan) (finishedAt : Time)
    (barrier : Option (String × BarrierSpec)) (db : Db) : Db :=
  { db with
    jobs := db.jobs.update (holdsClaim raw.id raw.leaseToken)
      (jobFinalizeUpdate plan finishedAt barrier) }

/-- The follow-ups of an applied success. -/
def enqueueChildren (opts : DriverOpts) (ctx : Context) (raw : RawJob) (plan : FinalizePlan)
    (result : Result) (held : Bool) (db : Db) : Except TxError (Db × ℕ) :=
  if plan.followUps && held then insertFollowUps opts ctx result.followUps raw.id db
  else .ok (db, 0)

/-- The parent to check, with the job that ended: none unless the finalize was applied and ended
its job. -/
def endedParent (raw : RawJob) (plan : FinalizePlan) (held : Bool) : List (String × String) :=
  if held && plan.jobState.isTerminal then raw.parentJobID.toList.map fun p => (p, raw.id) else []

/-- `Finalize`: the stub, the barrier's validation, the state advance under the fence, the
follow-ups, the parent's barrier check, and the audit row. -/
def finalize (opts : DriverOpts) (ctx : Context) (raw : RawJob) (runID : String) (result : Result)
    (workErr : Option WorkError) (finishedAt : Time) (db : Db) :
    Except TxError (Commit FinalizeOutcome) := do
  let plan := planFinalize ctx raw result workErr finishedAt
  let stub ← (db.runs.get? runID).elim (.error (.recordNotFound "run stub")) .ok
  let durationMs := milliseconds (finishedAt - stub.startedAt)
  let barrier ← declareBarrier opts ctx raw plan result db
  let held := db.claimHeld raw.id raw.leaseToken
  let db := advanceJob raw plan finishedAt barrier db
  -- a superseded finalize reports the state that the superseding claim left
  let state := if held then some plan.jobState else (db.job? raw.id).map JobRow.state
  let (db, enqueued) ← enqueueChildren opts ctx raw plan result held db
  let (db, fires) ← fireEach ctx result.followUps.length (endedParent raw plan held) db
  -- `runFinalizeUpdate` fails on an output that has no JSON
  refuse (result.output.any Option.isNone) (.marshal "output")
  refuse ctx.refusesRun .updateRunRow
  let db := finalizeRunRow runID
    (runFinalizeUpdate ctx.errorHash plan result workErr raw.kind finishedAt durationMs enqueued
      !held) db
  return { db, fires
           out := { superseded := !held, state, runOutcome := plan.runOutcome
                    errorClass := plan.errorClass
                    scheduledAt := if held then plan.scheduledAt else none
                    enqueuedChildren := enqueued } }

/-- The columns of a renewal; GORM stamps `updated_at` beside them. -/
def renewUpdate (now expiry : Time) : Patch JobRow.id where
  apply r := { r with leasedUntil := some expiry, updatedAt := now }
  key_apply _ := rfl

/-- `RenewLease`: whether the claim is still held, and if so its new expiry. -/
def renewLease (ctx : Context) (jobID leaseToken : String) (expiry : Time) (db : Db) :
    Commit Bool :=
  { db := { db with
      jobs := db.jobs.update (holdsClaim jobID leaseToken) (renewUpdate (ctx.clock 0) expiry) }
    out := db.claimHeld jobID leaseToken }

/-! ## What a finalization does -/

/-- What every plan for a claimed job is: it ends the job and stamps the end, or it snoozes the job
and raises its attempt budget, or it retries the job and an attempt is left. -/
def FinalizePlan.Sound (raw : RawJob) (finishedAt : Time) (plan : FinalizePlan) : Prop :=
  (plan.jobState.isTerminal = true ∧ plan.finalizedAt = some finishedAt ∧
    plan.maxAttemptsDelta = 0) ∨
  (plan.jobState = .scheduled ∧ plan.finalizedAt = none ∧ plan.maxAttemptsDelta = 1) ∨
  (plan.jobState = .retryable ∧ plan.finalizedAt = none ∧ plan.maxAttemptsDelta = 0 ∧
    raw.attempt < raw.maxAttempts)

theorem planFinalize_sound (ctx : Context) (raw : RawJob) (result : Result)
    (workErr : Option WorkError) (finishedAt : Time) :
    (planFinalize ctx raw result workErr finishedAt).Sound raw finishedAt := by
  unfold FinalizePlan.Sound planFinalize
  split_ifs with hcancel
  · exact .inl ⟨rfl, rfl, rfl⟩
  · cases result.snooze with
    | some d => exact .inr (.inl ⟨rfl, rfl, rfl⟩)
    | none =>
      cases workErr with
      | none => exact .inl ⟨rfl, rfl, rfl⟩
      | some e =>
        cases hends : e.ends raw with
        | true => simp [hends, JobState.isTerminal, terminalStates]
        | false => grind [WorkError.ends]

theorem planFinalize_delta (ctx : Context) (raw : RawJob) (result : Result)
    (workErr : Option WorkError) (finishedAt : Time) :
    (planFinalize ctx raw result workErr finishedAt).maxAttemptsDelta =
      if (planFinalize ctx raw result workErr finishedAt).runOutcome = .snooze then 1 else 0 := by
  unfold planFinalize
  by_cases hcancel : result.cancel = true
  · rw [if_pos hcancel]
    rfl
  · rw [if_neg hcancel]
    cases result.snooze with
    | some d => rfl
    | none => grind

variable {ctx : Context} {db db' : Db} {opts : DriverOpts} {fus : List FollowUp}
  {rows : List JobRow} {workErr : Option WorkError} {raw : RawJob} {result : Result}
  {parentID : String} {finishedAt : Time} {n : ℕ} {k : ℕ}

theorem DriverOpts.chunkSize_pos (o : DriverOpts) : 0 < o.chunkSize := by
  simp only [DriverOpts.chunkSize, orDefault]
  split_ifs with h <;> omega

/-- The rows of a fan-out: each follow-up's child row, under the id minted for its place. -/
def ChildRows (ctx : Context) (parentID : String) (k : ℕ) (fus : List FollowUp)
    (rows : List JobRow) : Prop :=
  List.Forall₂ (fun fu r => ChildRow ctx fu.2 fu.1 parentID r) (fus.zipIdx k) rows

/-- The rows of a fan-out are child rows, in the order of the follow-ups. -/
theorem buildFollowUps_spec (h : buildFollowUps ctx parentID k fus = .ok rows) :
    ChildRows ctx parentID k fus rows := by
  induction fus generalizing k rows with
  | nil =>
    cases h
    exact .nil
  | cons fu fus ih =>
    obtain ⟨row, hrow, h⟩ := bind_eq_ok.mp h
    obtain ⟨rest, hrest, h⟩ := bind_eq_ok.mp h
    cases h
    exact .cons (buildChildRow_spec hrow) (ih hrest)

theorem insertChunks_spec {now : Time} {size : ℕ} (hsize : 0 < size) {fuel : ℕ}
    (hfuel : rows.length ≤ fuel) (h : insertChunks now size fuel rows db = .ok (db', n)) :
    db' = { db with jobs := db.jobs.insertAll uniqueClash (rows.map (JobRow.defaulted now)) } := by
  induction fuel generalizing rows db n with
  | zero =>
    obtain rfl := eq_nil_of_length_eq_zero (Nat.le_zero.mp hfuel)
    cases h
    rfl
  | succ fuel ih =>
    rw [insertChunks] at h
    split_ifs at h with hnil
    · subst hnil
      cases h
      rfl
    · obtain ⟨⟨db₁, landed⟩, hchunk, h⟩ := bind_eq_ok.mp h
      obtain ⟨⟨db₂, m⟩, hrest, h⟩ := bind_eq_ok.mp h
      cases h
      grind [conflictInsertChunk_spec, insertAll_append, take_append_drop]

/-- What a fan-out stores: nothing when it is empty, and otherwise its child rows. -/
theorem insertFollowUps_spec (h : insertFollowUps opts ctx fus parentID db = .ok (db', n)) :
    ∃ rows, ChildRows ctx parentID 0 fus rows ∧ db' = { db with
        jobs := db.jobs.insertAll uniqueClash (rows.map (JobRow.defaulted (ctx.clock 0))) } := by
  rw [insertFollowUps] at h
  split_ifs at h with hnil
  · subst hnil
    cases h
    exact ⟨[], .nil, rfl⟩
  · obtain ⟨-, -, h⟩ := bind_eq_ok.mp h
    obtain ⟨rows, hrows, h⟩ := bind_eq_ok.mp h
    exact ⟨rows, buildFollowUps_spec hrows, insertChunks_spec opts.chunkSize_pos (Nat.le_refl _) h⟩

/-- What a finalization enqueues: its children when it is an applied success, and else nothing. -/
theorem enqueueChildren_spec {plan : FinalizePlan} {held : Bool}
    (h : enqueueChildren opts ctx raw plan result held db = .ok (db', n)) :
    ((plan.followUps && held) = false ∧ db' = db) ∨
    ((plan.followUps && held) = true ∧ ∃ rows, ChildRows ctx raw.id 0 result.followUps rows ∧
      db' = { db with
        jobs := db.jobs.insertAll uniqueClash (rows.map (JobRow.defaulted (ctx.clock 0))) }) := by
  unfold enqueueChildren at h
  grind [insertFollowUps_spec]

theorem ChildRows.new (h : ChildRows ctx parentID k fus rows) (now : Time) :
    ∀ r ∈ rows.map (JobRow.defaulted now), StoredRow r := by
  intro r hr
  obtain ⟨s, hs, rfl⟩ := mem_map.mp hr
  obtain ⟨fu, -, hchild⟩ := partner_of_mem h hs
  exact hchild.toNewRow.defaulted now

theorem mem_finishEntries {ids : List String} {runs : Table JobRunRow.id} {e : FinishRow} :
    e ∈ finishEntries ids runs ↔ e.runID ∈ ids ∧
      ∃ run, runs.get? e.runID = some run ∧ run.finishedAt = some e.finishedAt := by
  unfold finishEntries
  rw [mem_filterMap]
  constructor
  · rintro ⟨run, hrun, h⟩
    split_ifs at h with hid
    obtain ⟨t, ht, rfl⟩ := Option.map_eq_some_iff.mp h
    exact ⟨hid, run, get?_key hrun, ht⟩
  · rintro ⟨hid, run, hget, ht⟩
    have hkey := key_of_get? hget
    refine ⟨run, mem_of_get? hget, ?_⟩
    rw [if_pos (by rw [hkey]; exact hid), ht, Option.map_some, hkey]

variable (ids : List String)

theorem finishEntries_nodup (runs : Table JobRunRow.id) : (finishEntries ids runs).Nodup := by
  refine Nodup.of_map FinishRow.runID ?_
  -- the entries' runs are among the stored ones, in their order
  have hsub : ((finishEntries ids runs).map FinishRow.runID).Sublist
    (runs.rows.map JobRunRow.id) := by
    unfold finishEntries
    generalize runs.rows = rows
    induction rows with
    | nil => exact .slnil
    | cons r rows ih =>
      rw [filterMap_cons]
      split_ifs with hid
      · cases r.finishedAt with
        | none => exact ih.cons _
        | some t => exact ih.cons_cons _
      · exact ih.cons _
  exact runs.nodup.sublist hsub

/-- The finish log changes no other table. -/
@[simp]
theorem logFinishes_jobs (db : Db) : (logFinishes ids db).jobs = db.jobs := rfl

@[simp, inherit_doc logFinishes_jobs]
theorem logFinishes_runs (db : Db) : (logFinishes ids db).runs = db.runs := rfl

variable {c : Commit FinalizeOutcome} {runID : String}

/-- What a finalization does to `jobs` and `job_runs`: the state advance under the fence, the
follow-ups, the barrier check of the parent, and the audit row. -/
theorem finalize_spec (h : finalize opts ctx raw runID result workErr finishedAt db = .ok c) :
    let plan := planFinalize ctx raw result workErr finishedAt
    let held := db.claimHeld raw.id raw.leaseToken
    ∃ stub barrier mid n, db.runs.get? runID = some stub ∧
      declareBarrier opts ctx raw plan result db = .ok barrier ∧
      enqueueChildren opts ctx raw plan result held (advanceJob raw plan finishedAt barrier db) =
        .ok (mid, n) ∧
      Effect ctx mid (endedParent raw plan held) c ∧
      JobsOnly (finalizeRunRow runID (runFinalizeUpdate ctx.errorHash plan result workErr raw.kind
        finishedAt (milliseconds (finishedAt - stub.startedAt)) n !held) db) c.db ∧
      c.out.superseded = !held := by
  obtain ⟨stub, hstub, h⟩ := bind_eq_ok.mp h
  obtain ⟨barrier, hbarrier, h⟩ := bind_eq_ok.mp h
  obtain ⟨⟨mid, n⟩, hmid, h⟩ := bind_eq_ok.mp h
  obtain ⟨⟨after, fires⟩, hfires, h⟩ := bind_eq_ok.mp h
  obtain ⟨-, -, h⟩ := bind_eq_ok.mp h
  obtain ⟨-, -, h⟩ := bind_eq_ok.mp h
  cases h
  have hstub' : db.runs.get? runID = some stub := by
    cases hs : db.runs.get? runID with
    | none => simp [hs] at hstub
    | some s => simpa [hs] using hstub
  refine ⟨stub, barrier, mid, n, hstub', hbarrier, hmid, ⟨_, after, hfires, rfl⟩, ?_, rfl⟩
  rw [JobsOnly, fireEach_frame hfires]
  rcases enqueueChildren_spec hmid with ⟨-, rfl⟩ | ⟨-, rows, -, rfl⟩ <;> rfl

/-- A finalization whose claim is gone writes no row of `jobs` and runs no barrier check. -/
theorem finalize_superseded (h : finalize opts ctx raw runID result workErr finishedAt db = .ok c)
    (hheld : db.claimHeld raw.id raw.leaseToken = false) :
    c.out.superseded = true ∧ c.db.jobs = db.jobs ∧ c.fires = [] := by
  obtain ⟨-, barrier, mid, n, -, -, hmid, ⟨k, after, hfires, hjobs⟩, -, hout⟩ := finalize_spec h
  rw [hheld] at hmid hfires hout
  simp only [enqueueChildren, Bool.and_false, Bool.false_eq_true, if_false, Except.ok.injEq,
    Prod.mk.injEq] at hmid
  obtain ⟨rfl, hcalls⟩ := Prod.mk.inj (Except.ok.inj hfires)
  refine ⟨hout, ?_, hcalls.symm⟩
  rw [hjobs, ← hmid.1]
  exact update_of_false fun r hr => by simpa using any_eq_false.mp hheld r hr

end Flywheel
