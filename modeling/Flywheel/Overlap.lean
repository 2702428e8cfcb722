import Flywheel.Dispatch

/-!
# One attempt at a time

While no lease expires and no operator allows a second attempt, no two attempts of one job are in
flight at once. A retry of a cancelled job probes for a run at the job's attempt that still reads
started, and the runner inserts that run only after its claim has committed: a forced retry that
lands between the two finds nothing and lets a second attempt start beside the first
(`second_attempt_beside_first`). A history in which no retry lands there keeps the law
(`attempts_do_not_overlap`).
-/

namespace Flywheel

open Relational Transition List Table

/-- The actions of the law: runners act in dispatch's order, no lease expires, no job is deleted,
and no retry allows a running attempt. -/
structure Unexpired (w : World) (a : Action) : Prop where
  admits : w.Admits a
  reclaim : a.kind ≠ some .reclaim
  delete : a.kind ≠ some .delete
  allowRunning : ∀ ctx id opts, a = .retryJob ctx id opts → opts.allowRunning = false

/-- No retry is of a cancelled job while an attempt of it has been claimed and its stub is not in
yet: RetryJob does not name the job, and no batch of Replay or of a bulk retry selects it. -/
def RetriesAfterStub (w : World) (a : Action) : Prop :=
  ∀ t ∈ w.attempts, t.run = none →
    (w.db.jobs.get? t.raw.id).map JobRow.state = some .cancelled → a.revives w.db t.raw.id = false

/-- The row of an attempt in flight: running under the attempt's claim, or cancelled under it. -/
def Attempt.Holds (t : Attempt) (stored : Option JobRow) : Prop :=
  ∃ r, stored = some r ∧ r.attempt = t.raw.attempt ∧
    (r.state = .running ∧ r.leaseToken = some t.raw.leaseToken ∨ r.state = .cancelled)

/-- The attempts in flight are of different jobs, each job's row is its attempt's, and each run
reads started. -/
structure Apart (w : World) : Prop where
  nodup : (w.attempts.map fun t => t.raw.id).Nodup
  row : ∀ t ∈ w.attempts, t.Holds (w.db.jobs.get? t.raw.id)
  run : ∀ t ∈ w.attempts, ∀ id, t.run = some id → ∃ run, w.db.runs.get? id = some run ∧
    run.jobID = t.raw.id ∧ run.attempt = t.raw.attempt ∧ run.outcome = .started

variable {a : Action} {t : Attempt} {ctx : Context} {db : Db} {r : JobRow} {id k : String}
  {w : World}

theorem Apart.eq (h : Apart w) {s : Attempt} (hs : s ∈ w.attempts) (ht : t ∈ w.attempts)
    (hid : s.raw.id = t.raw.id) : s = t :=
  inj_on_of_nodup_map h.nodup hs ht hid

/-! ## Retries -/

/-- A job whose attempt's run reads started is seen to be running. -/
theorem Apart.stillRuns (h : Apart w) (ht : t ∈ w.attempts) (hid : t.run = some id)
    (hr : w.db.jobs.get? t.raw.id = some r) (hattempt : r.attempt = t.raw.attempt) :
    attemptStillRuns w.db r = true := by
  obtain ⟨run, hrun, hjob, hnumber, hstarted⟩ := h.run t ht id hid
  refine any_eq_true.mpr ⟨run, mem_of_get? hrun, ?_⟩
  simp [hjob, hnumber, hstarted, hattempt, key_of_get? hr]

section

variable (hr : db.jobs.get? k = some r)
  (hstate : r.state = .running ∨ r.state = .cancelled ∧ attemptStillRuns db r = true)

include hr hstate

/-- A RetryJob that allows no running attempt moves neither a running job nor a cancelled one whose
attempt still runs. -/
theorem retryJob_refuses {opts : RetryOpts} {c : Commit Unit}
    (h : retryJobWithOptions ctx id opts db = .ok c) (hallow : opts.allowRunning = false) :
    c.db.jobs.get? k = db.jobs.get? k := by
  obtain ⟨job, hjob, hstates, hprobe, hjobs, -⟩ := retryJobWithOptions_spec h
  rw [hjobs]
  refine get?_update_of_false _ hr ?_
  by_contra hguard
  rw [Bool.not_eq_false] at hguard
  -- the guard matches the locked job alone
  obtain rfl : r = job := by
    simp only [lockedGuard, isJob, Bool.and_eq_true, decide_eq_true_eq] at hguard
    have hjob := (Db.job?_eq_some.mp hjob).1
    exact eq_of_key_eq (mem_of_get? hr) (mem_of_get? hjob) hguard.1.1
  rcases hstate with hs | ⟨hs, hruns⟩
  · simp_all [retryStates, waitingStates, terminalStates]
  · have hforce : opts.force = true := by
      rw [hs] at hstates
      by_contra hforce
      simp [retryStates, hforce, hallow, waitingStates] at hstates
    simp_all

theorem replayBatch_refuses {opts : ReplayOpts} {pos : ReplayPosition} {batchSize : ℕ}
    {c : Commit ReplayBatch} (h : replayBatch ctx opts pos batchSize db = .ok c) :
    c.db.jobs.get? k = db.jobs.get? k := by
  obtain ⟨-, -, hdb | ⟨live, due, hrunning, -, hjobs⟩⟩ := replayBatch_spec h
  · rw [hdb]
  · rw [hjobs]
    refine get?_update_of_false _ hr ?_
    by_contra hguard
    simp only [replayGuard, Bool.not_eq_false, Bool.and_eq_true, Bool.not_eq_true'] at hguard
    obtain ⟨⟨⟨-, hstates⟩, -⟩, hskips⟩ := hguard
    grind [ReplayOpts.skips, cancelledAttemptStillRuns]

theorem applyBatch_refuses {run : BulkRun} {ids : List String} {c : Commit (List String)}
    (h : applyBatch ctx run ids db = .ok c) (haction : run.action = .retry) :
    c.db.jobs.get? k = db.jobs.get? k := by
  rcases applyBatch_spec h with
    ⟨hdb, -⟩ | ⟨hdelete, -⟩ | ⟨-, parents, ⟨_, after, hfires, hjobs⟩, -, hparents, -⟩
  · rw [hdb]
  · simp_all
  · rw [hparents (by rw [haction]; decide)] at hfires
    obtain ⟨rfl, -⟩ := Prod.mk.inj (Except.ok.inj hfires)
    rw [hjobs]
    refine get?_update_of_false _ hr ?_
    by_contra hguard
    simp only [BulkRun.guard, BulkRun.sources, haction, BulkRun.forced, Bool.not_eq_false,
      Bool.and_eq_true] at hguard
    obtain ⟨⟨-, hsource⟩, hprobe⟩ := hguard
    rcases hstate with hs | ⟨hs, hruns⟩
    · simp_all [retryStates, waitingStates, terminalStates]
    · simp_all [retryStates, waitingStates, cancelledAttemptStillRuns]

end

/-- A retry that allows no running attempt moves neither a running job nor a cancelled one whose
attempt still runs. -/
theorem retry_refuses (hok : Unexpired w a) (hkind : a.kind = some .retry)
    (hr : w.db.jobs.get? k = some r)
    (hstate : r.state = .running ∨ r.state = .cancelled ∧ attemptStillRuns w.db r = true) :
    (step w.db a).jobs.get? k = w.db.jobs.get? k := by
  refine settle_induction (P := fun db' : Db =>
    db'.jobs.get? k = w.db.jobs.get? k) rfl fun c hc => ?_
  rcases Action.kind_retry hkind with
    ⟨ctx, id, opts, rfl⟩ | ⟨ctx, opts, pos, batchSize, rfl⟩ | ⟨ctx, run, ids, rfl, haction⟩
  · exact retryJob_refuses hr hstate hc (hok.allowRunning ctx id opts rfl)
  · obtain ⟨c', hc', rfl⟩ := map_eq_ok.mp hc
    exact replayBatch_refuses hr hstate hc'
  · obtain ⟨c', hc', rfl⟩ := map_eq_ok.mp hc
    exact applyBatch_refuses hr hstate hc' haction

/-- A retry that allows no running attempt leaves a job alone that has an attempt in flight: a
running one by its state, and a cancelled one by the probe once the stub is in, and before it by the
condition. -/
theorem Apart.retry_refused (h : Apart w) (hok : Unexpired w a) (hstub : RetriesAfterStub w a)
    (hkind : a.kind = some .retry) (ht : t ∈ w.attempts) :
    (step w.db a).jobs.get? t.raw.id = w.db.jobs.get? t.raw.id := by
  obtain ⟨r, hr, hattempt, hholds⟩ := h.row t ht
  have hstate : r.state = .running ∨ r.state = .cancelled ∧
      (t.run = none ∨ attemptStillRuns w.db r = true) := by
    refine hholds.imp And.left fun hs => ⟨hs, ?_⟩
    cases hrun : t.run with
    | none => exact .inl rfl
    | some id => exact .inr (h.stillRuns ht hrun hr hattempt)
  rcases hstate with hs | ⟨hs, hnone | hruns⟩
  · exact retry_refuses hok hkind hr (.inl hs)
  · exact a.retry_spares hkind (hstub t ht hnone (by rw [hr]; exact congrArg some hs))
  · exact retry_refuses hok hkind hr (.inr ⟨hs, hruns⟩)

/-! ## A step -/

/-- The row of an attempt in flight stays its own under every step that is not the attempt's. -/
theorem Apart.row_step (h : Apart w) (hok : Unexpired w a) (hstub : RetriesAfterStub w a)
    (ht : t ∈ w.attempts) (hconcerns : a.kind ≠ none → a.concerns t = false) :
    t.Holds ((step w.db a).jobs.get? t.raw.id) := by
  obtain ⟨r, hr, hattempt, hstate⟩ := h.row t ht
  cases step_moved w.db a t.raw.id with
  | gone s hk => exact absurd hk hok.delete
  | moved mid hown hup =>
    rw [hr] at hown
    -- what is left to see is that the own move keeps the row the attempt's: upkeep does
    have hmid : t.Holds mid → t.Holds ((step w.db a).jobs.get? t.raw.id) := by
      rintro ⟨s, rfl, hattempt, hstate⟩
      obtain ⟨s', hs', hcleared⟩ := hup.of_some
      unfold Cleared at hcleared
      refine ⟨s', hs', ?_, ?_⟩
      · grind
      · grind
    rcases hown with rfl | ⟨k, s, s', hk, hs, rfl, hmove⟩
    · exact hmid ⟨r, rfl, hattempt, hstate⟩
    cases hs
    cases hmove with
    | renew | clear => exact hmid ⟨_, rfl, hattempt, hstate⟩
    | settle raw plan finishedAt barrier hheld hsound =>
      -- the Finalize of the claim that the row holds is the attempt's own
      obtain ⟨_, _, _, _, _, _, rfl⟩ := Action.kind_settle hk
      obtain ⟨hid, -, hs, htoken⟩ := holdsClaim_iff.mp hheld
      grind [Action.concerns, Attempt.holds, key_of_get?]
    | reclaim opts now db hs => exact absurd hk hok.reclaim
    | cancel now hs => exact hmid ⟨_, rfl, hattempt, .inr rfl⟩
    | retry now opts due =>
      rw [h.retry_refused hok hstub hk ht]
      exact h.row t ht
    | claim _ _ _ hold | adjust _ _ _ _ hold =>
      rcases hstate with ⟨hs, -⟩ | hs <;> rw [hs] at hold <;> cases hold

theorem Apart.run_step (h : Apart w) (hok : Unexpired w a) (ht : t ∈ w.attempts)
    (hconcerns : a.concerns t = false) (hid : t.run = some id) :
    ∃ run, (step w.db a).runs.get? id = some run ∧ run.jobID = t.raw.id ∧
      run.attempt = t.raw.attempt ∧ run.outcome = .started := by
  obtain ⟨run, hrun, hjob, hattempt, hstarted⟩ := h.run t ht id hid
  have hmove := step_run w.db a id
  rw [hrun] at hmove
  generalize hnew : (step w.db a).runs.get? id = new at hmove
  cases hmove with
  | keep => exact ⟨run, rfl, hjob, hattempt, hstarted⟩
  | finish opts ctx raw result workErr finishedAt =>
    -- the Finalize that names the run ends the attempt that the run belongs to
    obtain ⟨s, hs, rfl, hsrun⟩ := hok.admits
    obtain ⟨run', hrun', hjob', -⟩ := h.run s hs _ hsrun
    rw [key_of_get? hrun, hrun] at hrun'
    cases hrun'
    obtain rfl := h.eq hs ht (hjob'.symm.trans hjob)
    simp [Action.concerns, Attempt.holds] at hconcerns
  | crash => exact absurd rfl hok.reclaim
  | delete a hk => exact absurd hk hok.delete

/-- Every step of the law keeps the attempts apart. -/
theorem Apart.step (h : Apart w) (hok : Unexpired w a) (hstub : RetriesAfterStub w a) :
    Apart (w.step a) := by
  refine ⟨?_, ?_, ?_⟩
  · -- a claimed job has no attempt in flight: its row is neither running nor cancelled
    have hsub := (World.step_raws w a).map RawJob.id
    rw [map_map, map_append, map_map] at hsub
    refine Nodup.sublist hsub (Nodup.append h.nodup (issued_nodup a w.db) ?_)
    intro id hid hid'
    obtain ⟨t, ht, rfl⟩ := mem_map.mp hid
    obtain ⟨raw, hraw, hrid⟩ := mem_map.mp hid'
    obtain ⟨_, _, _, _, r, rfl, hr, hof⟩ := issued_spec hraw
    obtain ⟨s, hs, -, hstate⟩ := h.row t ht
    have hget := get?_key (mem_claimedRows hr).1
    rw [← hof.id, hrid] at hget
    obtain rfl : s = r := Option.some_inj.mp (hs.symm.trans hget)
    have hclaimable := ClaimRequest.claimable_state (mem_claimedRows hr).2
    rcases hstate with ⟨hs, -⟩ | hs <;> rw [hs] at hclaimable <;> cases hclaimable
  · intro t ht
    rcases World.mem_step ht with ⟨ht, hconcerns⟩ | ⟨s, hs, _, _, _, _, _, _, rfl, -, -, rfl⟩ |
      ⟨raw, hraw, rfl⟩
    · exact h.row_step hok hstub ht fun _ => hconcerns
    · have hrow : s.Holds _ := h.row_step hok hstub hs fun hk => absurd rfl hk
      exact hrow
    · obtain ⟨dialect, scan, ctx, req, r, rfl, hr, hof⟩ := issued_spec hraw
      have hget : w.db.jobs.get? raw.id = some r := hof.id ▸ get?_key (mem_claimedRows hr).1
      refine ⟨(claimUpdate (ctx.clock 0) (ctx.clock 0 + req.lease) (ctx.newID 0)).apply r,
        ?_, ?_, ?_⟩
      · refine (dequeue_get? dialect scan ctx req w.db raw.id).trans ?_
        grind
      · exact hof.attempt.symm
      · exact .inl ⟨rfl, congrArg some hof.leaseToken.symm⟩
  · intro t ht id hid
    rcases World.mem_step ht with
      ⟨ht, hconcerns⟩ | ⟨s, hs, runID, raw, startedAt, executorClass, executorID, c, rfl, hholds,
        hins, rfl⟩ | ⟨raw, hraw, rfl⟩
    · exact h.run_step hok ht hconcerns hid
    · obtain rfl := Option.some_inj.mp hid
      obtain ⟨s', hs', rfl, -⟩ := hok.admits
      obtain rfl : s = s' := by
        simp only [Attempt.holds, decide_eq_true_eq] at hholds
        exact h.eq hs hs' hholds.1
      obtain ⟨hconflict, -, hdb⟩ := insertRunStub_spec hins
      refine ⟨runStub runID s.raw startedAt executorClass executorID, ?_, rfl, rfl, rfl⟩
      rw [show (w.step (.insertRunStub runID s.raw startedAt executorClass executorID)).db =
        c.db from
        step_of_ok (a := .insertRunStub runID s.raw startedAt executorClass executorID) hins, hdb]
      rw [get?_insert, if_pos ⟨hconflict, rfl⟩]
    · cases hid

/-! ## A history -/

theorem Apart.start (h : w.attempts = []) : Apart w := by
  refine ⟨by simp [h], ?_, ?_⟩
  · simp_all
  · simp_all

/-- In every history whose retries are of no cancelled job that is claimed without its stub in, no
two attempts of one job are ever in flight, and no retry moves a job that has an attempt in
flight. -/
theorem attempts_do_not_overlap (w : World) (hstart : w.attempts = []) (history : List Action)
    (hlegal : Legal World.step (fun w a => Unexpired w a ∧ RetriesAfterStub w a) w history) :
    (∀ pre post, history = pre ++ post →
      ((w.after pre).attempts.map fun t => t.raw.id).Nodup) ∧
    (∀ pre a post, history = pre ++ a :: post → a.kind = some .retry →
      ∀ t ∈ (w.after pre).attempts,
        (step (w.after pre).db a).jobs.get? t.raw.id = (w.after pre).db.jobs.get? t.raw.id) := by
  have hapart : ∀ pre post, history = pre ++ post → Apart (w.after pre) := by
    rintro pre post rfl
    exact (legal_append.mp hlegal).1.invariant (fun _ _ hok h => h.step hok.1 hok.2) (.start hstart)
  refine ⟨fun pre post hsplit => (hapart pre post hsplit).nodup, ?_⟩
  rintro pre a post rfl hkind t ht
  obtain ⟨hok, hstub⟩ := hlegal.at
  exact (hapart pre (a :: post) rfl).retry_refused hok hstub hkind ht

/-- A job claimed, cancelled before its stub is in, retried with Force, and claimed again. -/
def retriedBeforeStub : List Action :=
  [.insert { newID := fun _ => "job" } [{ kind := "send", args := .null }],
   .dequeue .postgres {} { newID := fun _ => "first" } { queues := ["default"], lease := minute },
   .cancelJob {} "job",
   .retryJob {} "job" { force := true },
   .dequeue .postgres {} { newID := fun _ => "second" } { queues := ["default"], lease := minute }]

/-- A step of the law that is no retry. -/
theorem Unexpired.of_kind (hadmits : w.Admits a)
    (hkind : a.kind ∉ [some .reclaim, some .delete, some .retry]) : Unexpired w a := by
  simp only [mem_cons, not_mem_nil, or_false, not_or] at hkind
  obtain ⟨hreclaim, hdelete, hretry⟩ := hkind
  exact ⟨hadmits, hreclaim, hdelete, fun _ _ _ h => absurd (h ▸ rfl) hretry⟩

theorem Unexpired.retryJob {opts : RetryOpts} (h : opts.allowRunning = false) :
    Unexpired w (.retryJob ctx id opts) := by
  refine ⟨trivial, by simp [Action.kind], by simp [Action.kind], ?_⟩
  rintro _ _ _ ⟨⟩
  exact h

/-- The forced retry finds no started run, and a second attempt starts beside the first. -/
theorem second_attempt_beside_first :
    Legal World.step Unexpired {} retriedBeforeStub ∧
    ((World.after {} retriedBeforeStub).attempts.map fun t => (t.raw.id, t.raw.leaseToken)) =
      [("job", "first"), ("job", "second")] := by
  refine ⟨?_, rfl⟩
  unfold retriedBeforeStub
  simp only [Legal, and_true]
  exact ⟨.of_kind trivial (by simp [Action.kind]),
    .of_kind not_mem_nil (by simp [Action.kind]), .of_kind trivial (by simp [Action.kind]),
    .retryJob rfl, .of_kind (show "second" ∉ ["first"] by decide) (by simp [Action.kind])⟩

/-- A job claimed, started, cancelled, and retried with Force while its attempt runs. -/
def retriedAfterStub : List Action :=
  [.insert { newID := fun _ => "job" } [{ kind := "send", args := .null }],
   .dequeue .postgres {} { newID := fun _ => "first" } { queues := ["default"], lease := minute },
   .insertRunStub "run" (firstClaim "job" "send" "first") 0 "" "executor",
   .cancelJob {} "job",
   .retryJob {} "job" { force := true }]

/-- The law of a history whose retry comes after the stub. -/
theorem attempts_do_not_overlap_after_stub :
    Legal World.step (fun w a => Unexpired w a ∧ RetriesAfterStub w a) {} retriedAfterStub ∧
    ((World.after {} retriedAfterStub).attempts.map fun t => t.raw.id).Nodup := by
  have hlegal : Legal World.step (fun w a => Unexpired w a ∧ RetriesAfterStub w a) {}
      retriedAfterStub := by
    unfold retriedAfterStub
    simp only [Legal, and_true]
    refine ⟨⟨.of_kind trivial (by simp [Action.kind]), fun _ _ _ _ => rfl⟩,
      ⟨.of_kind not_mem_nil (by simp [Action.kind]), fun _ _ _ _ => rfl⟩,
      ⟨.of_kind ⟨_, mem_cons_self, rfl, rfl⟩ (by simp [Action.kind]), fun _ _ _ _ => rfl⟩,
      ⟨.of_kind trivial (by simp [Action.kind]), fun _ _ _ _ => rfl⟩, .retryJob rfl, ?_⟩
    intro t ht hnone
    obtain rfl := mem_singleton.mp ht
    cases hnone
  exact ⟨hlegal, (attempts_do_not_overlap {} rfl retriedAfterStub hlegal).1 _ [] (by simp)⟩

end Flywheel
