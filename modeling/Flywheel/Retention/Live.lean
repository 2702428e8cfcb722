import Flywheel.Retention.Statements
import Flywheel.RunLifecycle

/-!
# Retention and the jobs that go live again

A retention batch reads that a job has ended and deletes it by its id, without a lock or a second
look at its state: a retry that commits between the two leaves a live job, which the delete takes
with its runs. The controls that delete by hand lock first. As long as no retry is of a job that an
open batch has selected, every row that a batch deletes is of a job that has ended.
-/

namespace Flywheel

open Relational Transition List Option Table

/-- What is stored is an ended job, or nothing. -/
def Ended (stored : Option JobRow) : Prop := ∀ r, stored = some r → r.state.isTerminal = true

/-! ## The transactions -/

variable {b : Batch} {db : Db}

variable {a : Action} {id : String} {w : Prune} {i : ℕ} {allowed : Prune → Action → Prop}

/-- The transactions leave an ended job that they do not revive as it is. -/
theorem Action.unrevived (hcontends : a.contends = true) (hspared : a.revives db id = false)
    (hended : Ended (db.jobs.get? id)) : (step db a).jobs.get? id = db.jobs.get? id := by
  cases a with
  | retryJob ctx jobID opts => exact Action.retry_spares rfl hspared
  | replay ctx opts pos batchSize => exact Action.retry_spares rfl hspared
  | bulk ctx run ids =>
    have haction : run.action = .retry := of_decide_eq_true hcontends
    exact Action.retry_spares (by rw [Action.kind, haction]; rfl) hspared
  | dequeue dialect scan ctx req =>
    change (Flywheel.dequeue dialect scan ctx req db).db.jobs.get? id = _
    rw [(dequeue_spec dialect scan ctx req db).2.1]
    refine get?_update_of_not _ fun r hr => ?_
    -- a claimed job has not ended
    rw [Bool.eq_false_iff]
    intro hclaimed
    have hmem := (contains_key_iff (fun s hs => (mem_claimedRows hs).1)
      (mem_of_get? hr)).mp hclaimed
    have hclaimable := ClaimRequest.claimable_state (mem_claimedRows hmem).2
    have hstate := hended r hr
    rcases JobState.isTerminal_iff.mp hstate with heq | heq | heq <;> rw [heq] at hclaimable <;>
      cases hclaimable
  | _ => cases hcontends

theorem Action.contends_runs (hcontends : a.contends = true) : (step db a).runs = db.runs := by
  have hwrite := step_write db a
  generalize hafter : (step db a).runTables = after at hwrite
  cases hwrite with
  | keep => exact congrArg RunTables.runs hafter
  | delete _ ids kind => cases a <;> simp_all [Action.contends, Action.kind, BulkAction.kind]
  | _ => cases hcontends

/-! ## The batches -/

/-- The rows that a statement has still to take are of the jobs `ids`. -/
def DeleteStage.Within (ids : List String) (db : Db) : DeleteStage → Prop
  | .finishes keys => ∀ e ∈ keys, ∀ run, db.runs.get? e.runID = some run → run.jobID ∈ ids
  | .runLogs lines => ∀ l ∈ lines, l.jobID ∈ ids
  | .jobs ks => ∀ k ∈ ks, k ∈ ids
  | _ => True

/-- What an open batch keeps while no selected job goes live: its selected jobs have ended, the rows
that its statement has still to take are theirs, and so were those that it has deleted. -/
structure Batch.Sound (b : Batch) (db : Db) : Prop where
  ended : ∀ id ∈ b.ids, Ended (db.jobs.get? id)
  within : b.stage.Within b.ids db
  deletions : ∀ d ∈ b.deletions, Ended d.job

/-- A change that deletes runs and leaves the selected jobs ended leaves a batch sound. -/
theorem Batch.Sound.frame {db' : Db} (h : b.Sound db)
    (hjobs : ∀ id ∈ b.ids, Ended (db'.jobs.get? id))
    (hruns : ∀ k run, db'.runs.get? k = some run → db.runs.get? k = some run) : b.Sound db' := by
  refine ⟨hjobs, ?_, h.deletions⟩
  have hwithin := h.within
  cases hstage : b.stage with
  | finishes keys =>
    rw [hstage] at hwithin
    exact fun e he run hrun => hwithin e he run (hruns _ run hrun)
  | runLogs | jobs =>
    rw [hstage] at hwithin
    exact hwithin
  | _ => trivial

theorem Ended.apply (h : Ended (db.jobs.get? id)) (b : Batch) :
    Ended ((b.apply db).jobs.get? id) := by
  intro r hr
  unfold Batch.apply at hr
  rw [get?_delete] at hr
  exact h r (filter_eq_some_iff.mp hr).1

theorem Batch.apply_run {k : String} {run : JobRunRow} (h : (b.apply db).runs.get? k = some run) :
    db.runs.get? k = some run := by
  unfold Batch.apply at h
  rw [get?_delete] at h
  exact (filter_eq_some_iff.mp h).1

theorem Batch.Sound.take (h : b.Sound db) {rest : DeleteStage} {found : Option Deletion}
    (hrest : rest.Within b.ids db) (hfound : ∀ d, found = some d → Ended d.job) :
    (b.take rest found).Sound db := by
  refine ⟨h.ended, hrest, fun d hd => ?_⟩
  rcases mem_append.mp hd with hd | hd
  · exact h.deletions d hd
  · exact hfound d (mem_toList.mp hd)

/-- A step of a sound batch leaves it sound. -/
theorem Batch.Sound.next {b' : Batch} (h : b.Sound db) (hnext : b.next db = some b') :
    b'.Sound db := by
  have hwithin := h.within
  have hended : ∀ id ∈ b.ids, Ended ((b.apply db).jobs.get? id) := fun id hid =>
    (h.ended id hid).apply b
  unfold Batch.next at hnext
  cases hstage : b.stage with
  | selected =>
    rw [hstage] at hnext
    cases hnext
    refine ⟨h.ended, ?_, h.deletions⟩
    intro e he run hrun
    obtain ⟨run', hmem, hkey⟩ := mem_filterMap.mp he
    split_ifs at hkey with hid
    obtain ⟨t, -, rfl⟩ := map_eq_some_iff.mp hkey
    have hsame := Batch.apply_run (get?_key hmem)
    simp_all
  | finishes keys =>
    rw [hstage] at hnext hwithin
    cases keys with
    | nil =>
      cases hnext
      exact ⟨h.ended, fun l hl => of_decide_eq_true (mem_filter.mp hl).2, h.deletions⟩
    | cons e es =>
      cases hnext
      refine h.take (fun e' he' => hwithin e' (mem_cons_of_mem _ he')) fun d hd => ?_
      split_ifs at hd
      cases hd
      intro r hr
      obtain ⟨run, hrun, hr⟩ := bind_eq_some_iff.mp hr
      exact hended _ (hwithin e mem_cons_self run (Batch.apply_run hrun)) r hr
  | runLogs lines =>
    rw [hstage] at hnext hwithin
    cases lines with
    | nil =>
      cases hnext
      exact ⟨h.ended, trivial, h.deletions⟩
    | cons l ls =>
      cases hnext
      refine h.take (fun l' hl' => hwithin l' (mem_cons_of_mem _ hl')) fun d hd => ?_
      split_ifs at hd
      cases hd
      exact hended _ (hwithin l mem_cons_self)
  | runs ks =>
    rw [hstage] at hnext
    cases ks with
    | nil =>
      cases hnext
      refine ⟨h.ended, fun k hk => ?_, h.deletions⟩
      grind
    | cons k ks =>
      cases hnext
      refine h.take trivial fun d hd => ?_
      obtain ⟨run, hrun, rfl⟩ := map_eq_some_iff.mp hd
      exact hended _ (of_decide_eq_true (filter_eq_some_iff.mp hrun).2)
  | jobs ks =>
    rw [hstage] at hnext hwithin
    cases ks with
    | nil => cases hnext
    | cons k ks =>
      cases hnext
      refine h.take (fun k' hk' => hwithin k' (mem_cons_of_mem _ hk')) fun d hd => ?_
      obtain ⟨r, hr, rfl⟩ := map_eq_some_iff.mp hd
      have hjob := hended k (hwithin k mem_cons_self)
      rw [hr] at hjob
      exact hjob

/-! ## The runs -/

/-- Every open batch is sound, and what has been deleted was of ended jobs. -/
structure Prune.Sound (w : Prune) : Prop where
  batches : ∀ i b, w.batches i = some b → b.Sound w.db
  deleted : ∀ d ∈ w.deleted, Ended d.job

/-- No transaction is to return a job to a live state that an open batch has selected. -/
def Prune.Spares (w : Prune) (a : Action) : Prop :=
  ∀ i b, w.batches i = some b → ∀ id ∈ b.ids, a.revives w.db id = false

theorem Prune.Sound.set (h : w.Sound) {b : Option Batch} (hb : ∀ b', b = some b' → b'.Sound w.db) :
    (w.set i b).Sound := by
  refine ⟨fun j b' hj => ?_, h.deleted⟩
  unfold Prune.set at hj
  dsimp only at hj
  by_cases hij : j = i
  · subst hij
    rw [Function.update_self] at hj
    exact hb b' hj
  · rw [Function.update_of_ne hij] at hj
    exact h.batches j b' hj

/-- A step with spared jobs leaves everything sound. -/
theorem Prune.Sound.step {w' : Prune} (h : w.Sound) (hstep : Prune.Step Prune.Spares w w') :
    w'.Sound := by
  cases hstep with
  | act a contends ok waits =>
    refine ⟨fun i b hb => ?_, h.deleted⟩
    have hsound := h.batches i b hb
    refine hsound.frame (fun id hid => ?_) fun k run hrun => ?_
    · rw [Action.unrevived contends (ok i b hb id hid) (hsound.ended id hid)]
      exact hsound.ended id hid
    · rwa [Action.contends_runs contends] at hrun
  | select i cutoff cursor limit idle =>
    refine h.set fun b hb => ?_
    cases hb
    refine ⟨fun id hid r hr => ?_, trivial, fun d hd => absurd hd not_mem_nil⟩
    obtain ⟨s, hs, rfl, hended, -⟩ := mem_finishedIDs hid
    obtain rfl : s = r := some_inj.mp ((get?_key hs).symm.trans hr)
    exact hended
  | advance i b b' running free next =>
    refine h.set fun b'' hb => ?_
    cases hb
    exact (h.batches i b running).next next
  | commit i b running done =>
    have hrest := h.set (i := i) (b := none) fun b' hb => by cases hb
    refine ⟨fun j b' hj => ?_, fun d hd => ?_⟩
    · have hsound := hrest.batches j b' hj
      exact hsound.frame (fun id hid => (hsound.ended id hid).apply b) fun k run => Batch.apply_run
    · rcases mem_append.mp hd with hd | hd
      · exact h.deleted d hd
      · exact (h.batches i b running).deletions d hd
  | abort i b running => exact h.set fun b' hb => by cases hb

/-! ## A batch beside which no other runs -/

/-- A batch after `n` of its steps, over a database that no other transaction changes. -/
def Batch.steps (db : Db) : ℕ → Batch → Batch
  | 0, b => b
  | n + 1, b => ((b.next db).map (Batch.steps db n)).getD b

/-- A system that takes each step of a batch takes any number of them. -/
theorem Batch.run_steps {σ : Type} {R : σ → σ → Prop} {system : Batch → σ} {db : Db}
    (hstep : ∀ b b', b.next db = some b' → R (system b) (system b')) (n : ℕ) (b : Batch) :
    Relation.ReflTransGen R (system b) (system (b.steps db n)) := by
  induction n generalizing b with
  | zero => exact .refl
  | succ n ih =>
    unfold Batch.steps
    cases hnext : b.next db with
    | none => exact .refl
    | some b' => exact .head (hstep b b' hnext) (ih b')

/-- The database with one open batch. -/
def Prune.lone (db : Db) (b : Batch) : Prune := Prune.set { db } 0 (some b)

theorem Prune.lone_batch (db : Db) (b : Batch) : (Prune.lone db b).batches 0 = some b := by
  unfold Prune.lone Prune.set
  simp_all

theorem Prune.lone_only {c : Batch} (h : (Prune.lone db b).batches i = some c) : i = 0 ∧ c = b := by
  by_cases hi : i = 0
  · simp_all [Prune.lone_batch]
  · unfold Prune.lone Prune.set at h
    simp_all

theorem Prune.lone_steps (n : ℕ) (b : Batch) :
    Prune.Run allowed (.lone db b) (.lone db (b.steps db n)) := by
  refine Batch.run_steps (fun b b' hnext => ?_) n b
  have hfree : ∀ t, b.target = some t → ¬ (Prune.lone db b).holds 0 t := by
    rintro t - ⟨j, c, hj, hc, -⟩
    exact hj (Prune.lone_only hc).1
  have hstep : Prune.Step allowed (.lone db b) _ :=
    .advance 0 b b' (Prune.lone_batch db b) hfree hnext
  unfold Prune.lone Prune.set at hstep ⊢
  simp_all

theorem Prune.lone_commits (hdone : b.next db = none) :
    ∃ w, Prune.Run allowed (.lone db b) w ∧ w.deleted = b.deletions :=
  ⟨_, .single (.commit 0 b (Prune.lone_batch db b) hdone), rfl⟩

/-! ## Only ended jobs -/

/-- In every run in which no retry, replay or bulk retry takes a job that an open batch has
selected, every row that a batch deletes (a job's, a run's, a finish's or a line's) is of a job that
had ended when it was deleted. -/
theorem retention_deletes_ended_jobs {db : Db} {w : Prune} (h : Prune.Run Prune.Spares { db } w) :
    ∀ d ∈ w.deleted, ∀ r, d.job = some r → r.state.isTerminal = true := by
  have hsound : w.Sound := by
    induction h with
    | refl =>
      refine ⟨fun i b hb => ?_, fun d hd => absurd hd not_mem_nil⟩
      cases hb
    | tail _ hstep ih => exact ih.step hstep
  exact hsound.deleted

/-- A job has run and ended. -/
def endedJob : Db :=
  Db.after {} [.insert { newID := fun _ => "job" } [{ kind := "work", args := .null }],
     .dequeue .postgres {} { newID := fun _ => "token" } { queues := ["default"], lease := minute },
     .insertRunStub "run" (firstClaim "job" "work" "token") 0 "" "executor",
     .finalize {} {} (firstClaim "job" "work" "token") "run" {} none 0]

/-- A batch that has selected the job. -/
def selectedJob : Batch := { ids := finishedIDs (fun _ => true) "" 1000 endedJob }

theorem selectedJob_step (allowed : Prune → Action → Prop) :
    Prune.Step allowed { db := endedJob } (.lone endedJob selectedJob) :=
  .select 0 (fun _ => true) "" 1000 rfl

/-- A forced retry of the job. -/
def retryEnded : Action := .retryJob {} "job" { force := true }

/-- A retry of another job. -/
def retryOther : Action := .retryJob {} "other" { force := true }

/-- An action between the select of a batch and its deletes. -/
theorem beside_selected {a : Action} (hcontends : a.contends = true)
    {allowed : Prune → Action → Prop} (hallowed : allowed (.lone endedJob selectedJob) a) :
    Prune.Step allowed (.lone endedJob selectedJob) (.lone (step endedJob a) selectedJob) := by
  refine .act a hcontends hallowed fun i b id hb htook => ?_
  -- the batch has deleted nothing yet
  rw [(Prune.lone_only hb).2] at htook
  cases htook

/-- A batch deletes the ended job and its run, beside a retry of another job. -/
theorem retention_deletes_ended_jobs_beside :
    ∃ w, Prune.Run Prune.Spares { db := endedJob } w ∧
      (w.deleted.map fun d => d.target) =
        [.finish { finishedAt := 0, runID := "run" }, .run "run", .job "job"] ∧
      ∀ d ∈ w.deleted, ∀ r, d.job = some r → r.state.isTerminal = true := by
  have hdone : (selectedJob.steps (step endedJob retryOther) 8).next (step endedJob retryOther) =
      none := by rfl
  obtain ⟨w, hcommit, hdeleted⟩ := Prune.lone_commits hdone
  have hspares : Prune.Spares (.lone endedJob selectedJob) retryOther := by
    intro i b hb id hid
    obtain ⟨-, rfl⟩ := Prune.lone_only hb
    have hone : selectedJob.ids = ["job"] := by decide
    rw [hone, mem_singleton] at hid
    subst hid
    rfl
  have hrun : Prune.Run Prune.Spares { db := endedJob } w :=
    .head (selectedJob_step _)
      (.head (beside_selected rfl hspares) ((Prune.lone_steps 8 selectedJob).trans hcommit))
  refine ⟨w, hrun, ?_, retention_deletes_ended_jobs hrun⟩
  rw [hdeleted]
  rfl

/-- The retry commits between the batch's select and its deletes: the batch deletes the job while it
is available, and its run with it. -/
theorem retention_deletes_retried_job :
    ∃ w, Prune.Run (fun _ _ => True) { db := endedJob } w ∧
      ∀ t ∈ [Target.run "run", Target.job "job"], ∃ d ∈ w.deleted, d.target = t ∧
        d.job.map JobRow.state = some .available := by
  have hdone : (selectedJob.steps (step endedJob retryEnded) 8).next (step endedJob retryEnded) =
      none := by rfl
  obtain ⟨w, hcommit, hdeleted⟩ := Prune.lone_commits hdone
  refine ⟨w, .head (selectedJob_step _)
    (.head (beside_selected rfl trivial) ((Prune.lone_steps 8 _).trans hcommit)), ?_⟩
  rw [hdeleted]
  decide

end Flywheel
