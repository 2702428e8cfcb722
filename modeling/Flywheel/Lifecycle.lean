import Flywheel.System

/-!
# The life cycle of a job

The abstract machine of one job: what the row under one id can do, as a relation between the row
before and the row after, with `none` for no row. Every transaction of the system refines it
(`exec_moved`): at each id it makes at most one move of its own kind, and then only the upkeep
that an insert or a fired barrier brings. The properties of single jobs are proved of the moves,
and hold of the system by this refinement.
-/

namespace Flywheel

open Relational Transition List Option Table

/-- The kinds of a move. A claim carries the token that it stamps, and a finalization the claim
that it was given and its plan. -/
inductive MoveKind where
  | insert
  | claim (token : String)
  | renew
  | settle (raw : RawJob) (plan : FinalizePlan)
  | reclaim
  | cancel
  | retry
  | adjust
  | clear
  | delete

/-- One move of a job: its guard on the old row, and the columns that it writes. -/
inductive Move : MoveKind → Option JobRow → Option JobRow → Prop where
  | insert {r : JobRow} (new : StoredRow r) : Move .insert none (some r)
  | claim {r : JobRow} (now expiry : Time) (token : String)
      (state : claimableStates.contains r.state = true) :
      Move (.claim token) (some r) (some ((claimUpdate now expiry token).apply r))
  | renew {r : JobRow} (now expiry : Time) (state : r.state = .running) :
      Move .renew (some r) (some ((renewUpdate now expiry).apply r))
  | settle {r : JobRow} (raw : RawJob) (plan : FinalizePlan) (finishedAt : Time)
      (barrier : Option (String × BarrierSpec)) (held : holdsClaim raw.id raw.leaseToken r = true)
      (sound : plan.Sound raw finishedAt) :
      Move (.settle raw plan) (some r) (some ((jobFinalizeUpdate plan finishedAt barrier).apply r))
  | reclaim {r : JobRow} (opts : DriverOpts) (now : Time) (db : Db) (state : r.state = .running) :
      Move .reclaim (some r) (some ((reclaimUpdate opts now db).apply r))
  | cancel {r : JobRow} (now : Time) (state : nonTerminalStates.contains r.state = true) :
      Move .cancel (some r) (some ((cancelUpdates now).apply r))
  | retry {r : JobRow} (now : Time) (opts : RetryOpts) (due : JobRow → Time) :
      Move .retry (some r) (some ((retryPatch now opts due).apply r))
  -- a pause, a resume, a reschedule or a new priority
  | adjust {r : JobRow} (state : JobState) (scheduledAt : Time) (priority : ℤ) (now : Time)
      (old : waitingStates.contains r.state = true) (new : waitingStates.contains state = true)
      (routed : priority = r.priority ∨ priority ≠ 0) :
      Move .adjust (some r) (some { r with state, scheduledAt, priority, updatedAt := now })
  | clear {r : JobRow} (now : Time) (declared : r.barrierKind ≠ none) :
      Move .clear (some r) (some ((clearBarrier now).apply r))

/-- What any transaction may do to a row besides its own move: inserts and cleared barriers. -/
def Upkeep : Option JobRow → Option JobRow → Prop :=
  Relation.ReflTransGen fun old new => Move .insert old new ∨ Move .clear old new

/-- At most one move of the kind `k`, which leaves a row. -/
def Own (k : Option MoveKind) (old new : Option JobRow) : Prop :=
  new = old ∨ ∃ kind r r', k = some kind ∧ old = some r ∧ new = some r' ∧
    Move kind (some r) (some r')

/-- What a transaction whose own moves are of the kind `k` may do to a row: at most one such move
and then upkeep, or a delete. -/
inductive Moved (k : Option MoveKind) (old new : Option JobRow) : Prop where
  | moved (mid : Option JobRow) (own : Own k old mid) (upkeep : Upkeep mid new)
  | gone (r : JobRow) (kind : k = some .delete) (row : old = some r)
      (state : r.state.isTerminal = true) (none : new = none)

/-- The kind of a bulk action's move. -/
def BulkAction.kind : BulkAction → MoveKind
  | .cancel => .cancel
  | .retry => .retry
  | .delete => .delete
  | .reschedule | .pause | .resume => .adjust

/-- The kind of the move that an action's own statement makes. -/
def Action.kind : Action → Option MoveKind
  | .insert .. | .insertRunStub .. => none
  | .dequeue _ _ ctx _ => some (.claim (ctx.newID 0))
  | .renewLease .. => some .renew
  | .finalize _ ctx raw _ result workErr finishedAt =>
    some (.settle raw (planFinalize ctx raw result workErr finishedAt))
  | .sweep .. => some .reclaim
  | .cancelJob .. => some .cancel
  | .retryJob .. | .replay .. => some .retry
  | .rescheduleJob .. | .setJobPriority .. | .pauseJob .. | .resumeJob .. => some .adjust
  | .deleteJob .. => some .delete
  | .scope _ _ _ control _ => some (if control = .cancel then .cancel else .adjust)
  | .bulk _ run _ => some run.action.kind

variable {a : Action} {c : Commit Unit} {ctx : Context} {db : Db} {opts : DriverOpts} {r : JobRow}
  {raw : RawJob} {jobID : String}

variable {token parentID runID : String} {db' : Db} {result : Result} {workErr : Option WorkError}
  {finishedAt : Time} {scan : Scan} {batchSize : ℕ} {run : BulkRun} {ids : List String}
  {P : Option JobRow → Prop} {new : Option JobRow} {k : ℕ}

/-- Only a Dequeue's own move is a claim. -/
theorem Action.kind_claim (h : a.kind = some (.claim token)) :
    ∃ dialect scan ctx req, a = .dequeue dialect scan ctx req ∧ ctx.newID 0 = token := by
  cases a with
  | dequeue dialect scan ctx req => simp_all [Action.kind]
  | scope scan ctx parentID control batchSize => cases control <;> cases h
  | bulk ctx run ids => obtain ⟨action, _⟩ := run; cases action <;> cases h
  | _ => cases h

/-- Only a Finalize's own move is a settlement. -/
theorem Action.kind_settle {plan : FinalizePlan} (h : a.kind = some (.settle raw plan)) :
    ∃ opts ctx runID result workErr finishedAt,
      a = .finalize opts ctx raw runID result workErr finishedAt := by
  cases a with
  | finalize opts ctx raw' runID result workErr finishedAt => simp_all [Action.kind]
  | scope scan ctx parentID control batchSize => cases control <;> cases h
  | bulk ctx run ids => obtain ⟨action, _⟩ := run; cases action <;> cases h
  | _ => cases h

/-- The actions whose own move is a retry. -/
theorem Action.kind_retry (h : a.kind = some .retry) : (∃ ctx id opts, a = .retryJob ctx id opts) ∨
    (∃ ctx opts pos batchSize, a = .replay ctx opts pos batchSize) ∨
    (∃ ctx run ids, a = .bulk ctx run ids ∧ run.action = .retry) := by
  cases a with
  | retryJob ctx id opts => exact .inl ⟨ctx, id, opts, rfl⟩
  | replay ctx opts pos batchSize => exact .inr (.inl ⟨ctx, opts, pos, batchSize, rfl⟩)
  | scope scan ctx parentID control batchSize => cases control <;> cases h
  | bulk ctx run ids =>
    refine .inr (.inr ⟨ctx, run, ids, rfl, ?_⟩)
    simp only [Action.kind, some.injEq, BulkAction.kind] at h
    cases haction : run.action <;> simp [haction] at h ⊢
  | _ => cases h

/-- The job is one that the action's transaction is to return to a live state: the job that a
RetryJob names, or one that a batch of Replay or of a bulk retry selects. -/
def Action.revives : Action → Db → String → Bool
  | .retryJob _ jobID _, _, id => decide (id = jobID)
  | .replay _ opts pos batchSize, db, id =>
    ((replayRows opts pos.cursor batchSize db).map JobRow.id).contains id
  | .bulk _ run ids, db, id => decide (run.action = .retry) && (run.change ids db).contains id
  | _, _, _ => false

/-- A retry leaves a job that it is not to revive as it is. -/
theorem Action.retry_spares {id : String} (hkind : a.kind = some .retry)
    (hspared : a.revives db id = false) : (step db a).jobs.get? id = db.jobs.get? id := by
  refine settle_induction (P := fun db' : Db => db'.jobs.get? id = db.jobs.get? id) rfl ?_
  intro c hexec
  rcases Action.kind_retry hkind with
    ⟨ctx, jobID, opts, rfl⟩ | ⟨ctx, opts, pos, batchSize, rfl⟩ | ⟨ctx, run, ids, rfl, haction⟩
  · obtain ⟨job, hjob, -, -, hjobs, -⟩ := retryJobWithOptions_spec hexec
    rw [hjobs]
    refine get?_update_of_not _ fun r hr => ?_
    have hid := key_of_get? (Db.job?_eq_some.mp hjob).1
    have hne : r.id ≠ job.id := by
      rw [key_of_get? hr, hid]
      exact of_decide_eq_false hspared
    simp [lockedGuard, isJob, hne]
  · obtain ⟨c, hc, rfl⟩ := map_eq_ok.mp hexec
    obtain ⟨-, -, hdb | ⟨live, due, -, hlive, hjobs⟩⟩ := replayBatch_spec hc
    · exact congrArg (fun db : Db => db.jobs.get? id) hdb
    · change c.db.jobs.get? id = _
      rw [hjobs]
      refine get?_update_of_not _ fun r hr => ?_
      have hnot : r.id ∉ live := by
        rw [key_of_get? hr]
        intro hmem
        have hrevives :
            ((replayRows opts pos.cursor batchSize db).map JobRow.id).contains id = true :=
          contains_iff_mem.mpr (hlive id hmem)
        exact Bool.false_ne_true (hspared.symm.trans hrevives)
      simp [replayGuard, hnot]
  · obtain ⟨c, hc, rfl⟩ := map_eq_ok.mp hexec
    change c.db.jobs.get? id = _
    rcases applyBatch_spec hc with ⟨hdb, -⟩ | ⟨hdelete, -⟩ | ⟨-, parents, heffect, -, hparents, -⟩
    · rw [hdb]
    · simp_all
    · obtain rfl := hparents (by rw [haction]; exact BulkAction.noConfusion)
      rw [heffect.jobs_of_nil]
      refine get?_update_of_not _ fun r hr => ?_
      grind [key_of_get?, Action.revives, BulkRun.guard]

/-! ## Statements as moves -/

theorem Moved.refl (k : Option MoveKind) (old : Option JobRow) : Moved k old old :=
  .moved old (.inl rfl) .refl

theorem own_update {k : MoveKind} {jobs : Table JobRow.id} {guard : JobRow → Bool}
    {f : Patch JobRow.id} (h : ∀ r ∈ jobs.rows, guard r = true → Move k (some r) (some (f.apply r)))
    (id : String) : Own (some k) (jobs.get? id) ((jobs.update guard f).get? id) := by
  rw [get?_update]
  cases hr : jobs.get? id with
  | none => exact .inl rfl
  | some r =>
    rw [map_some]
    split_ifs with hguard
    · exact .inr ⟨k, r, _, rfl, rfl, rfl, h r (mem_of_get? hr) hguard⟩
    · exact .inl rfl

theorem upkeep_insert (h : StoredRow r) (jobs : Table JobRow.id) (id : String) :
    Upkeep (jobs.get? id) ((jobs.insert uniqueClash r).get? id) := by
  cases hold : jobs.get? id with
  | some s =>
    rw [get?_insert_of_some uniqueClash hold]
    exact .refl
  | none =>
    rw [get?_insert, hold]
    split_ifs
    · exact .single (.inl (.insert h))
    · exact .refl

theorem upkeep_insertAll {rs : List JobRow} (h : ∀ r ∈ rs, StoredRow r) (jobs : Table JobRow.id)
    (id : String) : Upkeep (jobs.get? id) ((jobs.insertAll uniqueClash rs).get? id) := by
  induction rs generalizing jobs with
  | nil => exact .refl
  | cons r rs ih =>
    have hr := upkeep_insert (h r mem_cons_self) jobs id
    exact hr.trans (ih (fun s hs => h s (mem_cons_of_mem _ hs)) (jobs.insert uniqueClash r))

theorem upkeep_fire {spawnedBy : String} {fired : Bool}
    (h : fireBarrierIfComplete ctx k parentID spawnedBy db = .ok (db', fired)) (id : String) :
    Upkeep (db.jobs.get? id) (db'.jobs.get? id) := by
  rcases fireBarrierIfComplete_spec h with
    ⟨-, rfl, -⟩ | ⟨-, parent, kind, spec, row, hparent, hkind, -, -, hrow, rfl⟩
  · exact .refl
  · have hnew := (buildChildRow_spec hrow).toNewRow.defaulted (ctx.clock k)
    refine (upkeep_insert hnew db.jobs id).trans ?_
    rw [get?_update]
    cases hr : (db.jobs.insert uniqueClash (row.defaulted (ctx.clock k))).get? id with
    | none => exact .refl
    | some r =>
      simp only [map_some]
      split_ifs with hjob
      · -- the update's row is the parent's, whose barrier was read
        have hid : id = parentID := by
          simp only [isJob, Bool.and_eq_true, decide_eq_true_eq] at hjob
          exact (key_of_get? hr).symm.trans hjob.1
        rw [hid, get?_insert_of_some uniqueClash (Db.job?_eq_some.mp hparent).1] at hr
        cases hr
        exact .single (.inr (.clear _ (by simp [hkind])))
      · exact .refl

theorem upkeep_fireEach {parents : List (String × String)} {calls : List FireCall}
    (h : fireEach ctx k parents db = .ok (db', calls)) (id : String) :
    Upkeep (db.jobs.get? id) (db'.jobs.get? id) :=
  fireEach_invariant (P := fun d => Upkeep (db.jobs.get? id) (d.jobs.get? id))
    (fun _ _ _ _ _ _ hfire hd => hd.trans (upkeep_fire hfire id)) h .refl

/-! ## The transactions -/

/-- What a committed transaction does to `jobs`: its own moves, then the rows that it inserts, then
its barrier checks; or a delete of jobs that have ended. -/
inductive Shape {α : Type} (k : Option MoveKind) (db : Db) (c : Commit α) : Prop where
  | writes (ctx : Context) (mid : Db) (rows : List JobRow) (parents : List (String × String))
      (own : ∀ id, Own k (db.jobs.get? id) (mid.jobs.get? id)) (new : ∀ r ∈ rows, StoredRow r)
      (effect : Effect ctx { mid with jobs := mid.jobs.insertAll uniqueClash rows } parents c)
  | deletes (ids : List String) (kind : k = some .delete)
      (ended : ∀ r ∈ db.jobs.rows, r.id ∈ ids → r.state.isTerminal = true)
      (jobs : c.db.jobs = (deleteJobRows ids db).jobs) (fires : c.fires = [])

section Shape

variable {α : Type} {k : MoveKind} {db mid : Db} {c : Commit α} {guard : JobRow → Bool}
  {f : Patch JobRow.id} {ctx : Context} {parents : List (String × String)}

theorem Effect.of_nil (hjobs : c.db.jobs = mid.jobs) (hfires : c.fires = []) :
    Effect ctx mid [] c :=
  ⟨0, mid, by rw [hfires]; rfl, hjobs⟩

theorem Shape.unchanged {k : Option MoveKind} (hjobs : c.db.jobs = db.jobs)
    (hfires : c.fires = []) : Shape k db c :=
  .writes {} db [] [] (fun _ => .inl rfl) (by simp) (.of_nil hjobs hfires)

/-- A transaction whose statement updates rows, with the barrier checks after it. -/
theorem Shape.of_effect (h : Effect ctx mid parents c) (hmid : mid.jobs = db.jobs.update guard f)
    (hmove : ∀ r ∈ db.jobs.rows, guard r = true → Move k (some r) (some (f.apply r))) :
    Shape (some k) db c := by
  refine .writes ctx mid [] parents (fun id => ?_) (by simp) h
  rw [hmid]
  exact own_update hmove id

theorem Shape.of_update (hjobs : c.db.jobs = db.jobs.update guard f) (hfires : c.fires = [])
    (hmove : ∀ r ∈ db.jobs.rows, guard r = true → Move k (some r) (some (f.apply r))) :
    Shape (some k) db c := by
  have heffect : Effect {} { db with jobs := db.jobs.update guard f } [] c := .of_nil hjobs hfires
  exact .of_effect heffect rfl hmove

end Shape

theorem insertChunk_shape {items : List BatchItem} {r : Db × List String}
    (h : insertChunk ctx items db = .ok r) (k : Option MoveKind) :
    Shape k db ({ db := r.1, out := () } : Commit Unit) := by
  obtain ⟨rows, hrows, h⟩ := bind_eq_ok.mp h
  refine .writes ctx db (rows.map (JobRow.defaulted (ctx.clock 0))) [] (fun _ => .inl rfl)
    (fun r hr => ?_) (.of_nil ?_ rfl)
  · obtain ⟨s, hs, rfl⟩ := List.mem_map.mp hr
    exact (buildRows_new hrows s hs).defaulted (ctx.clock 0)
  · rw [conflictInsertChunk_spec h]

theorem dequeue_shape (dialect : Dialect) (scan : Scan) (ctx : Context) (req : ClaimRequest)
    (db : Db) : Shape (some (.claim (ctx.newID 0))) db (dequeue dialect scan ctx req db) := by
  obtain ⟨hfires, hdb, -⟩ := dequeue_spec dialect scan ctx req db
  refine .of_update (congrArg Db.jobs hdb) hfires fun r hr hguard => .claim _ _ _ ?_
  have hmem := (contains_key_iff (fun s hs => (mem_claimedRows hs).1) hr).mp hguard
  exact ClaimRequest.claimable_state (mem_claimedRows hmem).2

theorem holdsClaim_state (h : holdsClaim jobID token r = true) : r.state = .running :=
  (holdsClaim_iff.mp h).2.2.1

theorem renewLease_shape (ctx : Context) (jobID token : String) (expiry : Time) (db : Db) :
    Shape (some .renew) db (renewLease ctx jobID token expiry db) :=
  .of_update rfl rfl fun _ _ hguard => .renew _ _ (holdsClaim_state hguard)

/-- What a Finalize stores under an id: the advance of a row that holds its claim, and else what was
there, up to upkeep. -/
theorem finalize_get? {c : Commit FinalizeOutcome}
    (h : finalize opts ctx raw runID result workErr finishedAt db = .ok c) :
    ∃ barrier, ∀ id, Upkeep ((db.jobs.get? id).map fun r =>
        if holdsClaim raw.id raw.leaseToken r then
          (jobFinalizeUpdate (planFinalize ctx raw result workErr finishedAt) finishedAt
            barrier).apply r
        else r)
      (c.db.jobs.get? id) := by
  obtain ⟨_, barrier, mid, n, -, -, hmid, ⟨_, after, hfires, hjobs⟩, -⟩ := finalize_spec h
  refine ⟨barrier, fun id => ?_⟩
  rw [← get?_update, hjobs]
  refine Relation.ReflTransGen.trans ?_ (upkeep_fireEach hfires id)
  rcases enqueueChildren_spec hmid with ⟨-, rfl⟩ | ⟨-, rows, hrows, rfl⟩
  · exact .refl
  · exact upkeep_insertAll (hrows.new (ctx.clock 0)) _ id

theorem finalize_shape {c : Commit FinalizeOutcome}
    (h : finalize opts ctx raw runID result workErr finishedAt db = .ok c) :
    Shape (some (.settle raw (planFinalize ctx raw result workErr finishedAt))) db c := by
  obtain ⟨_, barrier, mid, n, -, -, hmid, heffect, -⟩ := finalize_spec h
  have hown : ∀ id, Own (some (.settle raw (planFinalize ctx raw result workErr finishedAt)))
      (db.jobs.get? id) ((advanceJob raw _ finishedAt barrier db).jobs.get? id) :=
    own_update fun r _ hguard => .settle raw _ finishedAt barrier hguard
      (planFinalize_sound ctx raw result workErr finishedAt)
  rcases enqueueChildren_spec hmid with ⟨-, rfl⟩ | ⟨-, rows, hrows, rfl⟩
  · exact .writes ctx (advanceJob raw _ finishedAt barrier db) [] _ hown (by simp) heffect
  · exact .writes ctx (advanceJob raw _ finishedAt barrier db) _ _ hown
      (hrows.new (ctx.clock 0)) heffect

theorem sweepBatch_shape {dialect : Dialect} {now : Time} {limit : ℕ}
    {c : Commit (List ReclaimedJob)} (h : sweepBatch dialect scan opts ctx now limit db = .ok c) :
    Shape (some .reclaim) db c := by
  rcases sweepBatch_spec h with ⟨-, hdb, hfires⟩ | ⟨-, heffect, -⟩
  · exact .unchanged (by rw [hdb]) hfires
  · refine .of_effect heffect rfl fun r hr hguard => .reclaim _ _ _ ?_
    have hmem := (contains_key_iff (fun s hs => (mem_expiredRows hs).1) hr).mp hguard
    exact JobRow.expired_state (mem_expiredRows hmem).2

theorem lockedGuard_state {job : JobRow} (h : lockedGuard job r = true) : r.state = job.state := by
  simp only [lockedGuard, Bool.and_eq_true, decide_eq_true_eq] at h
  exact h.2

theorem cancelJob_shape (h : cancelJob ctx jobID db = .ok c) : Shape (some .cancel) db c := by
  obtain ⟨job, -, hstate, heffect, -⟩ := cancelJob_spec h
  refine .of_effect heffect rfl fun r _ hguard => .cancel _ ?_
  rwa [lockedGuard_state hguard]

theorem retryJob_shape {opts : RetryOpts} (h : retryJobWithOptions ctx jobID opts db = .ok c) :
    Shape (some .retry) db c := by
  obtain ⟨job, -, -, -, hjobs, -, hfires⟩ := retryJobWithOptions_spec h
  exact .of_update hjobs hfires fun r _ _ => .retry _ _ _

theorem changeTo_shape {action : AuditAction} {already : JobRow → Bool}
    {upd : Time → Patch JobRow.id} {details : JobRow → List (String × Json)}
    (h : controlJob ctx action jobID waitingStates (changeTo already upd details) db = .ok c)
    (hupd : ∀ r : JobRow, waitingStates.contains r.state = true →
      Move .adjust (some r) (some ((upd (ctx.clock 0)).apply r))) : Shape (some .adjust) db c := by
  obtain ⟨hfires, hdb | ⟨job, db', d, -, hstate, hchange, hdb⟩⟩ := controlJob_spec h
  · exact .unchanged (by rw [hdb]) hfires
  · rw [(changeTo_spec hchange).2] at hdb
    refine .of_update (by rw [hdb]) hfires fun r _ hguard => hupd r ?_
    rwa [lockedGuard_state hguard]

theorem adjust_state (state : JobState) (now : Time) (hold : waitingStates.contains r.state = true)
    (hnew : waitingStates.contains state = true) :
    Move .adjust (some r) (some ((stateUpdate state now).apply r)) :=
  .adjust state r.scheduledAt r.priority now hold hnew (.inl rfl)

theorem adjust_schedule (due : JobRow → Time) (now : Time)
    (hold : waitingStates.contains r.state = true) :
    Move .adjust (some r) (some ((scheduleUpdate due now).apply r)) :=
  .adjust r.state (due r) r.priority now hold hold (.inl rfl)

theorem deleteJob_shape (h : deleteJob ctx jobID db = .ok c) : Shape (some .delete) db c := by
  obtain ⟨hfires, hdb | ⟨job, hjob, hstate, hdb⟩⟩ := deleteJob_spec h
  · exact .unchanged (by rw [hdb]) hfires
  · refine .deletes _ rfl (fun r hr hid => ?_) (by rw [hdb]) hfires
    have hstored := mem_of_get? (Db.job?_eq_some.mp hjob).1
    rwa [eq_of_key_eq hr hstored (mem_singleton.mp hid)]

theorem scopeBatch_shape {control : ScopeControl} {c : Commit ScopeBatch}
    (h : scopeBatch scan ctx parentID control.transition batchSize db = .ok c) :
    Shape (some (if control = .cancel then .cancel else .adjust)) db c := by
  rcases scopeBatch_spec h with ⟨hdb, hfires⟩ | ⟨guard, hguard, heffect, -⟩
  · exact .unchanged (by rw [hdb]) hfires
  · refine .of_effect heffect rfl fun r hr hg => ?_
    have hsource : control.transition.source.contains r.state = true := by
      simp_all [inScope]
    cases control with
    | pause =>
      refine adjust_state .paused _ ?_ rfl
      grind [ScopeControl.transition, pauseByParent, claimableStates, waitingStates]
    | resume => simp_all [adjust_state, ScopeControl.transition, resumeByParent, waitingStates]
    | cancel =>
      refine .cancel _ ?_
      grind [ScopeControl.transition, cancelByParent, nonTerminalStates]

theorem replayBatch_shape {opts : ReplayOpts} {pos : ReplayPosition} {c : Commit ReplayBatch}
    (h : replayBatch ctx opts pos batchSize db = .ok c) : Shape (some .retry) db c := by
  obtain ⟨hfires, -, hdb | ⟨live, due, -, -, hjobs⟩⟩ := replayBatch_spec h
  · exact .unchanged (by rw [hdb]) hfires
  · exact .of_update hjobs hfires fun r _ _ => .retry _ _ _

theorem bulkUpdate_move (slots : List String) (now : Time) (hdelete : run.action ≠ .delete)
    (h : run.sources.contains r.state = true) :
    Move run.action.kind (some r) (some ((run.updates slots now).apply r)) := by
  unfold BulkRun.sources at h
  unfold BulkRun.updates
  cases haction : run.action with
  | delete => exact absurd haction hdelete
  | retry => exact .retry _ _ _
  | cancel =>
    rw [haction] at h
    refine .cancel _ ?_
    cases hs : r.state <;> simp [hs, waitingStates, nonTerminalStates] at h ⊢
  | reschedule =>
    rw [haction] at h
    exact adjust_schedule _ _ h
  | pause =>
    rw [haction] at h
    refine adjust_state .paused _ ?_ rfl
    cases hs : r.state <;> simp [hs, claimableStates, waitingStates] at h ⊢
  | resume =>
    rw [haction] at h
    refine adjust_state .available _ ?_ rfl
    cases hs : r.state <;> simp [hs, waitingStates] at h ⊢

theorem applyBatch_shape {c : Commit (List String)} (h : applyBatch ctx run ids db = .ok c) :
    Shape (some run.action.kind) db c := by
  rcases applyBatch_spec h with
    ⟨hdb, hfires⟩ | ⟨hdelete, hfires, hgone, hdb⟩ | ⟨hdelete, parents, heffect, -⟩
  · exact .unchanged (by rw [hdb]) hfires
  · rw [hdelete]
    exact .deletes _ rfl hgone (by rw [hdb]) hfires
  · refine .of_effect heffect rfl fun r _ hguard => ?_
    simp_all [bulkUpdate_move, BulkRun.guard]

/-! ## The refinement -/

/-- **Every committed transaction has its shape.** -/
theorem exec_shape (h : a.exec db = .ok c) : Shape a.kind db c := by
  -- dropping a commit's result leaves its shape
  have hdrop : ∀ {α : Type} {k : Option MoveKind} {c : Commit α}, Shape k db c →
    Shape k db c.drop := by
    intro α k c hshape
    cases hshape with
    | writes ctx mid rows parents own new effect =>
        exact .writes ctx mid rows parents own new effect
    | deletes ids kind ended jobs fires => exact .deletes ids kind ended jobs fires
  cases a with
  | insert ctx items =>
    obtain ⟨r, hins, rfl⟩ := map_eq_ok.mp h
    exact insertChunk_shape hins _
  | dequeue dialect scan ctx req =>
    cases h
    exact hdrop (dequeue_shape dialect scan ctx req db)
  | insertRunStub runID raw startedAt executorClass executorID =>
    obtain ⟨-, hfires, hdb⟩ := insertRunStub_spec h
    exact .unchanged (by rw [hdb]) hfires
  | renewLease ctx jobID leaseToken expiry =>
    cases h
    exact hdrop (renewLease_shape ctx jobID leaseToken expiry db)
  | finalize opts ctx raw runID result workErr finishedAt =>
    obtain ⟨c, hc, rfl⟩ := map_eq_ok.mp h
    exact hdrop (finalize_shape hc)
  | sweep dialect scan opts ctx now limit =>
    obtain ⟨c, hc, rfl⟩ := map_eq_ok.mp h
    exact hdrop (sweepBatch_shape hc)
  | cancelJob ctx jobID => exact cancelJob_shape h
  | retryJob ctx jobID opts => exact retryJob_shape h
  | rescheduleJob ctx jobID due =>
    obtain ⟨-, -, h⟩ := bind_eq_ok.mp h
    obtain ⟨-, -, h⟩ := bind_eq_ok.mp h
    exact changeTo_shape h fun r hr => adjust_schedule _ _ hr
  | setJobPriority ctx jobID priority =>
    obtain ⟨-, -, h⟩ := bind_eq_ok.mp h
    obtain ⟨_, hpriority, h⟩ := bind_eq_ok.mp h
    have hpositive : priority ≠ 0 := by
      have hrefused := refuse_eq_ok.mp hpriority
      grind
    exact changeTo_shape h fun r hr => .adjust r.state r.scheduledAt priority _ hr hr
      (.inr hpositive)
  | pauseJob ctx jobID => exact changeTo_shape h fun r hr => adjust_state .paused _ hr rfl
  | resumeJob ctx jobID => exact changeTo_shape h fun r hr => adjust_state .available _ hr rfl
  | deleteJob ctx jobID => exact deleteJob_shape h
  | scope scan ctx parentID control batchSize =>
    obtain ⟨c, hc, rfl⟩ := map_eq_ok.mp h
    exact hdrop (scopeBatch_shape hc)
  | replay ctx opts pos batchSize =>
    obtain ⟨c, hc, rfl⟩ := map_eq_ok.mp h
    exact hdrop (replayBatch_shape hc)
  | bulk ctx run ids =>
    obtain ⟨c, hc, rfl⟩ := map_eq_ok.mp h
    exact hdrop (applyBatch_shape hc)

theorem deleteJobRows_moved (h : ∀ r ∈ db.jobs.rows, r.id ∈ ids → r.state.isTerminal = true)
    (id : String) :
    Moved (some .delete) (db.jobs.get? id) ((deleteJobRows ids db).jobs.get? id) := by
  unfold deleteJobRows
  rw [get?_delete]
  cases hr : db.jobs.get? id with
  | none => exact Moved.refl _ _
  | some r =>
    by_cases hid : r.id ∈ ids
    · simp only [filter_some, hid, decide_true, Bool.not_true, Bool.false_eq_true, if_false]
      exact .gone r rfl rfl (h r (mem_of_get? hr) hid) rfl
    · simp_all [filter_some, Moved.refl]

/-- Every committed transaction makes, at every id, at most one move of its own kind and then
upkeep. -/
theorem exec_moved (h : a.exec db = .ok c) (id : String) :
    Moved a.kind (db.jobs.get? id) (c.db.jobs.get? id) := by
  cases exec_shape h with
  | writes ctx mid rows parents own new effect =>
    obtain ⟨_, after, hfires, hjobs⟩ := effect
    rw [hjobs]
    exact .moved _ (own id) ((upkeep_insertAll new _ id).trans (upkeep_fireEach hfires id))
  | deletes ids kind ended jobs fires =>
    rw [jobs, kind]
    exact deleteJobRows_moved ended id

/-- Every step of the system, committed or rolled back, refines the life cycle at every id. -/
theorem step_moved (db : Db) (a : Action) (id : String) :
    Moved a.kind (db.jobs.get? id) ((step db a).jobs.get? id) :=
  settle_induction (P := fun db' : Db => Moved a.kind (db.jobs.get? id) (db'.jobs.get? id))
    (Moved.refl _ _) fun _ hc => exec_moved hc id

/-! ## Invariants of moves -/

/-- A property of what is stored under one id that the insert and the clearing keep, upkeep
keeps. -/
theorem Upkeep.invariant (hinsert : ∀ {old new}, Move .insert old new → P old → P new)
    (hclear : ∀ {old new}, Move .clear old new → P old → P new) {old : Option JobRow}
    (h : Upkeep old new) (hold : P old) : P new := by
  induction h with
  | refl => exact hold
  | tail _ hmove ih => grind

variable {Q : JobRow → Prop}

/-- What the moves of a step keep of the row under an id, the step keeps. -/
theorem step_keeps (hmove : ∀ {k old new}, k = .insert ∨ k = .clear ∨ a.kind = some k →
      Move k old new → (∀ r, old = some r → Q r) → ∀ r, new = some r → Q r)
    (hold : ∀ r, db.jobs.get? jobID = some r → Q r) :
    ∀ r, (step db a).jobs.get? jobID = some r → Q r := by
  cases step_moved db a jobID with
  | moved mid hown hup =>
    refine hup.invariant (P := fun stored => ∀ r, stored = some r → Q r) (hmove (.inl rfl))
      (hmove (.inr (.inl rfl))) ?_
    rcases hown with rfl | ⟨k, r, r', hk, hr, rfl, hmid⟩
    · exact hold
    · exact hmove (.inr (.inr hk)) hmid (hr ▸ hold)
  | gone r hk hr hstate hnew => simp [hnew]

/-- What every move but the claim of a token keeps, a step keeps that does not mint the token. -/
theorem step_unminted (hmint : token ∉ a.minted) (hmove : ∀ {k old new}, Move k old new →
      k ≠ .claim token → (∀ r, old = some r → Q r) → ∀ r, new = some r → Q r)
    (hold : ∀ r, db.jobs.get? jobID = some r → Q r) :
    ∀ r, (step db a).jobs.get? jobID = some r → Q r := by
  refine step_keeps (fun hk hm => hmove hm ?_) hold
  rintro rfl
  rcases hk with hk | hk | hk
  · cases hk
  · cases hk
  -- only a Dequeue's own move is a claim, and its token is the one it mints
  · obtain ⟨dialect, scan, ctx, req, rfl, rfl⟩ := Action.kind_claim hk
    exact hmint (mem_singleton_self _)

/-- The second row is the first, or the first had declared a barrier and the second is what its fire
leaves. -/
def AfterFire (r r' : JobRow) : Prop :=
  r' = r ∨ r.barrierKind ≠ none ∧ ∃ now, r' = (clearBarrier now).apply r

/-- A barrier fires once. -/
theorem AfterFire.trans {r' r'' : JobRow} (h : AfterFire r r') (h' : AfterFire r' r'') :
    AfterFire r r'' := by
  rcases h with rfl | ⟨hdeclared, now, rfl⟩
  · exact h'
  · rcases h' with rfl | ⟨hagain, -⟩
    · exact .inr ⟨hdeclared, now, rfl⟩
    · exact absurd rfl hagain

/-- Upkeep leaves a stored row, up to a fire of the barrier that it declared. -/
theorem Upkeep.fired (h : Upkeep (some r) new) : ∃ r', new = some r' ∧ AfterFire r r' := by
  induction h with
  | refl => exact ⟨r, rfl, .inl rfl⟩
  | tail _ hmove ih =>
    obtain ⟨s, rfl, hs⟩ := ih
    rcases hmove with hmove | hmove
    · cases hmove
    · cases hmove with
      | clear now hdeclared => exact ⟨_, rfl, hs.trans (.inr ⟨hdeclared, now, rfl⟩)⟩

/-- The second row is the first with its barrier cleared, or the same. -/
def Cleared (r r' : JobRow) : Prop :=
  r' = { r with
    barrierKind := r'.barrierKind, barrierSpec := r'.barrierSpec, updatedAt := r'.updatedAt }

/-- A fire writes the barrier's columns and `updated_at` alone. -/
theorem AfterFire.cleared {r' : JobRow} (h : AfterFire r r') : Cleared r r' := by
  rcases h with rfl | ⟨-, now, rfl⟩ <;> rfl

/-- Upkeep leaves a stored row, up to its barrier's columns. -/
theorem Upkeep.of_some (h : Upkeep (some r) new) : ∃ r', new = some r' ∧ Cleared r r' := by
  obtain ⟨r', hr', hfired⟩ := h.fired
  exact ⟨r', hr', hfired.cleared⟩

/-- What a step leaves of a stored row: nothing after a delete, and otherwise the row after at most
one move of the step's kind, up to a fire of the barrier that it declared. -/
theorem step_row (hr : db.jobs.get? jobID = some r) (a : Action) :
    (a.kind = some .delete ∧ (step db a).jobs.get? jobID = none) ∨ ∃ mid r',
      (mid = r ∨ ∃ k, a.kind = some k ∧ Move k (some r) (some mid)) ∧
      (step db a).jobs.get? jobID = some r' ∧ AfterFire mid r' := by
  cases step_moved db a jobID with
  | gone _ hk _ _ hnone => exact .inl ⟨hk, hnone⟩
  | moved mid hown hup =>
    rw [hr] at hown
    rcases hown with rfl | ⟨k, _, s, hk, hs, rfl, hmove⟩
    · obtain ⟨r', hr', hfired⟩ := hup.fired
      exact .inr ⟨r, r', .inl rfl, hr', hfired⟩
    · cases hs
      obtain ⟨r', hr', hfired⟩ := hup.fired
      exact .inr ⟨s, r', .inr ⟨k, hk, hmove⟩, hr', hfired⟩

/-- Only a retry moves a job that has ended. -/
theorem Move.ended {k : MoveKind} {r' : JobRow} (h : Move k (some r) (some r'))
    (hended : r.state.isTerminal = true) (hretry : k ≠ .retry) : AfterFire r r' := by
  cases h with
  | retry => exact absurd rfl hretry
  | clear now hdeclared => exact .inr ⟨hdeclared, now, rfl⟩
  | _ =>
    -- the guard of any other move is a state that has not ended
    rcases JobState.isTerminal_iff.mp hended with hstate | hstate | hstate <;>
      simp_all [claimableStates, nonTerminalStates, waitingStates, holdsClaim]

/-- **An ended job stays as it ended**: in every history without a retry, a replay or a delete, its
row keeps every column, until a barrier that it declared fires, which clears the barrier's
columns. -/
theorem ended_job_stays (db : Db) (history : List Action) (id : String) (r : JobRow)
    (hkinds : ∀ a ∈ history, a.kind ≠ some .retry ∧ a.kind ≠ some .delete)
    (hr : db.jobs.get? id = some r) (hended : r.state.isTerminal = true) :
    ∃ r', (db.after history).jobs.get? id = some r' ∧ AfterFire r r' := by
  induction history generalizing db r with
  | nil => exact ⟨r, hr, .inl rfl⟩
  | cons a history ih =>
    obtain ⟨⟨hretry, hdelete⟩, hkinds⟩ := forall_mem_cons.mp hkinds
    rcases step_row hr a with ⟨hk, -⟩ | ⟨mid, s, hmid, hs, hfired⟩
    · exact absurd hk hdelete
    · have hfirst : AfterFire r s := by
        rcases hmid with rfl | ⟨k, hk, hmove⟩
        · exact hfired
        · exact (hmove.ended hended (by grind)).trans hfired
      have hstate : s.state.isTerminal = true := by
        rcases hfirst with rfl | ⟨-, now, rfl⟩ <;> exact hended
      obtain ⟨r', hr', hrest⟩ := ih (step db a) s hkinds hs hstate
      exact ⟨r', hr', hfirst.trans hrest⟩

/-- A parent that has succeeded with a barrier, and the cancel of its child, whose check fires
it. -/
def gatheredJob : List Action :=
  [.insert { newID := fun _ => "parent" } [{ kind := "spawn", args := .null }],
   .dequeue .postgres {} { newID := fun _ => "token" } { queues := ["default"], lease := minute },
   .insertRunStub "run" (firstClaim "parent" "spawn" "token") 0 "" "executor",
   .finalize {} { newID := fun _ => "child" } (firstClaim "parent" "spawn" "token") "run"
     { followUps := [{ kind := "part", parent := true }], barrier :=
       some { kind := "gather" } } none 5]

/-- The fire clears the barrier of the ended parent, and a resume afterwards is refused. -/
theorem ended_job_stays_gathered :
    ∃ r r', (Db.after {} gatheredJob).jobs.get? "parent" = some r ∧ r.barrierKind = some "gather" ∧
      ((Db.after {} gatheredJob).after [.cancelJob { newID := fun _ => "next" } "child",
        .resumeJob {} "parent"]).jobs.get? "parent" = some r' ∧
      r'.barrierKind = none ∧ AfterFire r r' := by
  obtain ⟨r', hr', hfired⟩ := ended_job_stays (Db.after {} gatheredJob)
    [.cancelJob { newID := fun _ => "next" } "child", .resumeJob {} "parent"] "parent" _
    (by simp [Action.kind]) rfl rfl
  refine ⟨_, r', rfl, rfl, hr', ?_, hfired⟩
  cases hr'
  rfl

end Flywheel
