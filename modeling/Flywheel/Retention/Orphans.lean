import Flywheel.Retention.Live

/-!
# Deletes beside the attempts of their jobs

A retention batch, a DeleteJob and a bulk delete share `deleteJobRows`: the keys of the runs'
finishes are read first, and each table is then deleted from by what its own statement sees. An
attempt whose job was cancelled under it goes on: it may still insert its stub, finalize its run and
write its captured lines. Each of these commits on its own, and none looks at whether the job is
still stored, nor at how far a delete of it has come.

The deletes are the batches of `Flywheel.Retention.Statements`. A Finalize is followed from the read
of its stub to its one statement on `job_runs` and the log, and to its commit; its statements on
`jobs` change or insert rows and delete none, which is all that they matter for here. The row locks
of the jobs that a DeleteJob or a bulk delete holds are left out: they only keep transactions apart.
-/

namespace Flywheel

open Relational Transition List Option Table

/-! ## The attempts' transactions -/

/-- A Finalize that has read its stub. -/
structure FinalizeTx where
  ctx : Context := {}
  raw : RawJob
  runID : String
  result : Result := {}
  workErr : Option WorkError := none
  finishedAt : Time
  startedAt : Time

/-- The columns that the Finalize writes to its run, after it has enqueued some children and found
whether its claim was superseded. -/
def FinalizeTx.update (f : FinalizeTx) (enqueued : ℕ) (superseded : Bool) : Patch JobRunRow.id :=
  runFinalizeUpdate f.ctx.errorHash
    (planFinalize f.ctx f.raw f.result f.workErr f.finishedAt) f.result
    f.workErr f.raw.kind f.finishedAt
      (milliseconds (f.finishedAt - f.startedAt)) enqueued superseded

/-- How far a Finalize has come: its statement on `job_runs` has not run, has matched no row, or has
written a version of the run with the entry that it adds to the log, if that is new. -/
inductive FinalizeStage where
  | loaded
  | missed
  | wrote (row : JobRunRow) (entry : Option FinishRow)

/-- An open Finalize. -/
structure Finalizing where
  tx : FinalizeTx
  stage : FinalizeStage := .loaded

/-- The entry of a run's finish that the log does not hold yet: `ON CONFLICT DO NOTHING`. -/
def newEntry (row : JobRunRow) (db : Db) : Option FinishRow :=
  (row.finishedAt.map fun t => { finishedAt := t, runID := row.id }).filter fun e =>
    decide (e ∉ db.finishes)

/-- What a Finalize's commit makes of the runs and the log. -/
def Finalizing.commit (f : Finalizing) (db : Db) : Db :=
  match f.stage with
  | .wrote row entry => { db with runs := db.runs.put row, finishes := db.finishes ++ entry.toList }
  | _ => db

/-- One insert of captured lines, which skips those that are stored. -/
def insertLines (lines : List RunLogRow) (db : Db) : Db :=
  { db with
    runLogs := db.runLogs ++ lines.filter fun l =>
      !db.runLogs.any fun l' => decide (l'.runID = l.runID ∧ l'.seq = l.seq) }

/-! ## The system -/

/-- The committed database, the open deletes and the open Finalizes. -/
structure Purge where
  db : Db
  deletes : ℕ → Option Batch := fun _ => none
  finalizes : ℕ → Option Finalizing := fun _ => none

/-- The delete at the place `i` replaced. -/
def Purge.setDelete (w : Purge) (i : ℕ) (b : Option Batch) : Purge :=
  { w with deletes := Function.update w.deletes i b }

/-- The Finalize at the place `i` replaced. -/
def Purge.setFinalize (w : Purge) (i : ℕ) (f : Option Finalizing) : Purge :=
  { w with finalizes := Function.update w.finalizes i f }

/-- Another delete than `i` has deleted the row, and so holds it. -/
def Purge.takenBeside (w : Purge) (i : ℕ) (t : Target) : Prop :=
  ∃ j b, j ≠ i ∧ w.deletes j = some b ∧ b.took t = true

/-- An open Finalize has written the run, and so holds it. -/
def Purge.written (w : Purge) (k : String) : Prop :=
  ∃ i f row entry, w.finalizes i = some f ∧ f.stage = .wrote row entry ∧ f.tx.runID = k

/-- What a delete selects: the finished jobs of a retention batch, or jobs that a DeleteJob or a
bulk delete holds locked and has found ended. -/
def Selected (db : Db) (ids : List String) : Prop :=
  (∃ cutoff cursor limit, ids = finishedIDs cutoff cursor limit db) ∨
    ∀ id ∈ ids, ∃ job, db.job? id = some job ∧ job.state.isTerminal = true

/-- What an attempt commits, of the job with the id. -/
inductive AttemptCommit where
  | stub (jobID : String)
  | lines (jobID : String)
  | finish (jobID : String)

/-- One step. A statement waits for the rows that another transaction holds; `allowed` says which
commits of the attempts are considered. -/
inductive Purge.Step (allowed : Purge → AttemptCommit → Prop) : Purge → Purge → Prop where
  | stub {w : Purge} (runID : String) (raw : RawJob) (startedAt : Time)
      (executorClass executorID : String) (c : Commit Unit)
      (inserted : insertRunStub runID raw startedAt executorClass executorID w.db = .ok c)
      (ok : allowed w (.stub raw.id)) : Purge.Step allowed w { w with db := c.db }
  | lines {w : Purge} (jobID : String) (lines : List RunLogRow) (own : ∀ l ∈ lines, l.jobID = jobID)
      (ok : allowed w (.lines jobID)) :
      Purge.Step allowed w { w with db := insertLines lines w.db }
  | load {w : Purge} (i : ℕ) (f : FinalizeTx) (idle : w.finalizes i = none)
      (stub : (w.db.runs.get? f.runID).map JobRunRow.startedAt = some f.startedAt) :
      Purge.Step allowed w (w.setFinalize i (some { tx := f }))
  | write {w : Purge} (i : ℕ) (f : FinalizeTx) (running : w.finalizes i = some { tx := f })
      (enqueued : ℕ) (superseded : Bool) (r : JobRunRow) (stored : w.db.runs.get? f.runID = some r)
      -- it waits for the run, and for an entry of the run that a delete has taken
      (free : ∀ j b, w.deletes j = some b → b.took (.run f.runID) = false ∧
        ∀ e : FinishRow, e.runID = f.runID → b.took (.finish e) = false)
      (alone : ¬ w.written f.runID) :
      Purge.Step allowed w (w.setFinalize i (some
        { tx := f
          stage := .wrote ((f.update enqueued superseded).apply r)
            (newEntry ((f.update enqueued superseded).apply r) w.db) }))
  | miss {w : Purge} (i : ℕ) (f : FinalizeTx) (running : w.finalizes i = some { tx := f })
      (gone : w.db.runs.get? f.runID = none) :
      Purge.Step allowed w (w.setFinalize i (some { tx := f, stage := .missed }))
  | finish {w : Purge} (i : ℕ) (f : Finalizing) (running : w.finalizes i = some f)
      (ended : f.stage ≠ .loaded) (jobs : Table JobRow.id)
      (kept : ∀ id, (w.db.jobs.get? id).isSome = true → (jobs.get? id).isSome = true)
      (ok : ∀ row e, f.stage = .wrote row (some e) → allowed w (.finish row.jobID)) :
      Purge.Step allowed w { w.setFinalize i none with db := f.commit { w.db with jobs } }
  | abortFinalize {w : Purge} (i : ℕ) (f : Finalizing) (running : w.finalizes i = some f) :
      Purge.Step allowed w (w.setFinalize i none)
  | select {w : Purge} (i : ℕ) (ids : List String) (idle : w.deletes i = none)
      (statement : Selected w.db ids) : Purge.Step allowed w (w.setDelete i (some { ids }))
  | advance {w : Purge} (i : ℕ) (b b' : Batch) (running : w.deletes i = some b)
      (free : ∀ t, b.target = some t → ¬ w.takenBeside i t ∧ ∀ k, t = .run k → ¬ w.written k)
      (next : b.next w.db = some b') : Purge.Step allowed w (w.setDelete i (some b'))
  | commit {w : Purge} (i : ℕ) (b : Batch) (running : w.deletes i = some b)
      (done : b.next w.db = none) :
      Purge.Step allowed w { w.setDelete i none with db := b.apply w.db }
  | abort {w : Purge} (i : ℕ) (b : Batch) (running : w.deletes i = some b) :
      Purge.Step allowed w (w.setDelete i none)

/-- The runs of deletes and attempts. -/
def Purge.Run (allowed : Purge → AttemptCommit → Prop) : Purge → Purge → Prop :=
  Relation.ReflTransGen (Purge.Step allowed)

variable {db : Db} {allowed : Purge → AttemptCommit → Prop}

/-! ## Orphans -/

/-- Every entry of the log names a stored run with that finish, and every run and captured line
names a stored job. -/
structure Db.NoOrphans (db : Db) : Prop where
  finishes : ∀ e ∈ db.finishes, ∃ run, db.runs.get? e.runID = some run ∧
    run.finishedAt = some e.finishedAt
  runs : ∀ k run, db.runs.get? k = some run → (db.jobs.get? run.jobID).isSome = true
  lines : ∀ l ∈ db.runLogs, (db.jobs.get? l.jobID).isSome = true

/-- The delete has begun the statement that takes the row, so that it does not see a new one. The
entries of the log are taken by the keys that it reads first. -/
def DeleteStage.began : DeleteStage → Target → Bool
  | .selected, _ => false
  | _, .finish _ => true
  | .finishes _, _ => false
  | _, .line _ => true
  | .runLogs _, _ => false
  | _, .run _ => true
  | _, .job _ => false

/-- An attempt commits in time: what it inserts is of a stored job, and no open delete of the job
has begun the statement that would have to take it. -/
def Purge.InTime (w : Purge) : AttemptCommit → Prop
  | .stub jobID => (w.db.jobs.get? jobID).isSome = true ∧
      ∀ i b k, w.deletes i = some b → jobID ∈ b.ids → b.stage.began (.run k) = false
  | .lines jobID => (w.db.jobs.get? jobID).isSome = true ∧
      ∀ i b l, w.deletes i = some b → jobID ∈ b.ids → b.stage.began (.line l) = false
  | .finish jobID => ∀ i b e, w.deletes i = some b → jobID ∈ b.ids → b.stage.began
      (.finish e) = false

/-! ## What an open delete has covered -/

section Covers

variable {db db' : Db} {b b' : Batch}

/-- The rows that the delete's statement has still to take. -/
def DeleteStage.pending : DeleteStage → List Target
  | .selected => []
  | .finishes keys => keys.map .finish
  | .runLogs lines => lines.map .line
  | .runs ks => ks.map .run
  | .jobs ks => ks.map .job

/-- The row is of one of the delete's jobs, and goes with it. -/
def Batch.Due (b : Batch) (db : Db) : Target → Prop
  | .finish e => e ∈ db.finishes ∧ ∃ run, db.runs.get? e.runID = some run ∧ run.jobID ∈ b.ids
  | .line l => l ∈ db.runLogs ∧ l.jobID ∈ b.ids
  | .run k => ∃ run, db.runs.get? k = some run ∧ run.jobID ∈ b.ids
  | .job _ => False

/-- An open delete: the runs that it has taken are stored and of its jobs, the jobs that it takes
are its own, and of what its statements so far saw it has taken everything but the rest of the
last. -/
structure Batch.Covers (b : Batch) (db : Db) : Prop where
  fresh : b.stage = .selected → b.deletions = []
  runs : ∀ k, b.took (.run k) = true → b.Due db (.run k)
  jobs : ∀ id, b.took (.job id) = true ∨ .job id ∈ b.stage.pending → id ∈ b.ids
  left : ∀ t, b.stage.began t = true → b.Due db t → t ∈ b.stage.pending ∨ b.took t = true

/-- What others commit leaves an open delete as it is, if the runs that it has taken stay and what
its statements should have seen was there before. -/
theorem Batch.Covers.frame (h : b.Covers db)
    (hruns : ∀ k, b.took (.run k) = true → b.Due db (.run k) → b.Due db' (.run k))
    (hdue : ∀ t, b.stage.began t = true → b.Due db' t → b.Due db t) : b.Covers db' :=
  ⟨h.fresh, fun k htook => hruns k htook (h.runs k htook), h.jobs,
    fun t hbegan ht => h.left t hbegan (hdue t hbegan ht)⟩

theorem Batch.mem_apply_finishes {e : FinishRow} :
    e ∈ (b.apply db).finishes ↔ e ∈ db.finishes ∧ b.took (.finish e) = false := by
  simp [Batch.apply]

theorem Batch.mem_apply_runLogs {l : RunLogRow} :
    l ∈ (b.apply db).runLogs ↔ l ∈ db.runLogs ∧ b.took (.line l) = false := by
  simp [Batch.apply]

theorem Batch.apply_run_iff {k : String} {run : JobRunRow} :
    (b.apply db).runs.get? k = some run ↔ db.runs.get? k = some run ∧ b.took (.run k) = false := by
  unfold Batch.apply
  rw [get?_delete, filter_eq_some_iff]
  constructor
  · grind [key_of_get?]
  · grind [key_of_get?]

variable {t : Target} {found : Option Deletion} {rest : DeleteStage}

theorem Batch.took_take :
    (b.take rest found).took t = true ↔ b.took t = true ∨ ∃ d, found = some d ∧ d.target = t := by
  unfold Batch.took Batch.take
  simp_all

/-- The next row of a statement: it is taken if it is there. -/
theorem Batch.Covers.take (h : b.Covers db) {stage : DeleteStage} (hstage : b.stage = stage)
    (hpending : stage.pending = t :: rest.pending) (hbegan : ∀ t, rest.began t = stage.began t)
    (hselected : rest ≠ .selected) (hfound : ∀ d, found = some d → d.target = t)
    (hrun : ∀ k, t = .run k → ∀ d, found = some d → b.Due db (.run k))
    (htaken : b.Due db t → b.took t = false → found.isSome = true) :
    (b.take rest found).Covers db := by
  subst hstage
  refine ⟨fun hstage => absurd hstage hselected, fun k htook => ?_, fun id hjob => ?_, ?_⟩
  · rcases Batch.took_take.mp htook with htook | ⟨d, hd, htarget⟩
    · exact h.runs k htook
    · exact hrun k ((hfound d hd).symm.trans htarget) d hd
  · refine h.jobs id ?_
    rw [hpending]
    rcases hjob with htook | hmem
    · rcases Batch.took_take.mp htook with htook | ⟨d, hd, htarget⟩
      · exact .inl htook
      · simp_all
    · exact .inr (mem_cons_of_mem _ hmem)
  · intro t' hbegan' hdue
    have hold := h.left t' ((hbegan t').symm.trans hbegan') hdue
    rw [hpending] at hold
    rcases hold with hmem | htook
    · rcases mem_cons.mp hmem with rfl | hmem
      · refine .inr (Batch.took_take.mpr ?_)
        cases htook : b.took t' with
        | true => exact .inl rfl
        | false =>
          obtain ⟨d, hd⟩ := isSome_iff_exists.mp (htaken hdue htook)
          exact .inr ⟨d, hd, hfound d hd⟩
      · exact .inl hmem
    · exact .inr (Batch.took_take.mpr (.inl htook))

/-- The snapshot of the next statement: it shows all of the rows that the statement is to take. -/
theorem Batch.Covers.snapshot (h : b.Covers db) {old stage : DeleteStage} (hstage : b.stage = old)
    (hend : old.pending = []) (hselected : stage ≠ .selected)
      (hjobs : ∀ id, .job id ∈ stage.pending → id ∈ b.ids)
    (hbegan : ∀ t, stage.began t = true → old.began t = true ∨
      (b.Due db t → b.took t = false → t ∈ stage.pending)) :
    ({ b with stage } : Batch).Covers db := by
  subst hstage
  refine ⟨fun hstage => absurd hstage hselected, h.runs, fun id hjob => ?_, fun t ht hdue => ?_⟩
  · rcases hjob with htook | hmem
    · exact h.jobs id (.inl htook)
    · exact hjobs id hmem
  · cases htook : b.took t with
    | true => exact .inr htook
    | false =>
      rcases hbegan t ht with hold | hshown
      · rcases h.left t hold hdue with hmem | htaken
        · simp_all
        · simp_all
      · exact .inl (hshown hdue htook)

/-- A step of a delete, over tables without orphans. -/
theorem Batch.Covers.next (h : b.Covers db) (horphans : db.NoOrphans)
    (hnext : b.next db = some b') : b'.Covers db := by
  unfold Batch.next at hnext
  cases hstage : b.stage with
  | selected =>
    rw [hstage] at hnext
    cases hnext
    refine h.snapshot hstage rfl (by simp) (by simp [DeleteStage.pending]) fun t ht => ?_
    refine .inr fun hdue htook => ?_
    cases t with
    | finish e =>
      -- the entry's run is stored with that finish, so that its key is read
      obtain ⟨he, run, hrun, hid⟩ := hdue
      obtain ⟨run', hrun', hfinish⟩ := horphans.finishes e he
      obtain rfl : run' = run := some_inj.mp (hrun'.symm.trans hrun)
      have hnone : b.took (.run e.runID) = false := by
        unfold Batch.took
        rw [h.fresh hstage]
        rfl
      have hseen := Batch.apply_run_iff.mpr ⟨hrun, hnone⟩
      refine List.mem_map_of_mem (mem_filterMap.mpr ⟨run', mem_of_get? hseen, ?_⟩)
      rw [if_pos hid, hfinish, key_of_get? hrun]
      rfl
    | line | run | job => cases ht
  | finishes keys =>
    rw [hstage] at hnext
    cases keys with
    | nil =>
      cases hnext
      refine h.snapshot hstage rfl (by simp) (by simp [DeleteStage.pending]) fun t ht => ?_
      cases t with
      | finish e => exact .inl rfl
      | line l =>
        refine .inr fun hdue htook => List.mem_map_of_mem (mem_filter.mpr ⟨?_, ?_⟩)
        · exact Batch.mem_apply_runLogs.mpr ⟨hdue.1, htook⟩
        · exact decide_eq_true hdue.2
      | run | job => cases ht
    | cons e es =>
      cases hnext
      refine h.take (t := .finish e) hstage rfl (fun t => by cases t <;> rfl) (by simp) ?_
        nofun fun hdue htook => ?_
      · simp_all
      · rw [if_pos (Batch.mem_apply_finishes.mpr ⟨hdue.1, htook⟩)]
        rfl
  | runLogs lines =>
    rw [hstage] at hnext
    cases lines with
    | nil =>
      cases hnext
      refine h.snapshot hstage rfl (by simp) (by simp [DeleteStage.pending]) fun t ht => ?_
      cases t with
      | finish | line => exact .inl rfl
      | run k =>
        refine .inr fun hdue htook => ?_
        obtain ⟨run, hrun, hid⟩ := hdue
        have hseen := Batch.apply_run_iff.mpr ⟨hrun, htook⟩
        refine List.mem_map_of_mem (List.mem_map.mpr ⟨run, ?_, key_of_get? hrun⟩)
        exact mem_filter.mpr ⟨mem_of_get? hseen, decide_eq_true hid⟩
      | job id => cases ht
    | cons l ls =>
      cases hnext
      refine h.take (t := .line l) hstage rfl (fun t => by cases t <;> rfl) (by simp) ?_
        nofun fun hdue htook => ?_
      · simp_all
      · rw [if_pos (Batch.mem_apply_runLogs.mpr ⟨hdue.1, htook⟩)]
        rfl
  | runs ks =>
    rw [hstage] at hnext
    cases ks with
    | nil =>
      cases hnext
      refine h.snapshot hstage rfl (by simp) (fun id hid => ?_) fun t ht => ?_
      · obtain ⟨k, hk, heq⟩ := List.mem_map.mp hid
        grind
      · cases t with
        | finish | line | run => exact .inl rfl
        | job => cases ht
    | cons k ks =>
      cases hnext
      refine h.take (t := .run k) hstage rfl (fun t => by cases t <;> rfl) (by simp) ?_
        (fun k' hk d hd => ?_) fun hdue htook => ?_
      · intro d hd
        obtain ⟨run, -, rfl⟩ := map_eq_some_iff.mp hd
        rfl
      · obtain rfl := Target.run.inj hk
        obtain ⟨run, hrun, -⟩ := map_eq_some_iff.mp hd
        obtain ⟨hget, hid⟩ := filter_eq_some_iff.mp hrun
        exact ⟨run, Batch.apply_run hget, of_decide_eq_true hid⟩
      · obtain ⟨run, hrun, hid⟩ := hdue
        rw [Batch.apply_run_iff.mpr ⟨hrun, htook⟩, filter_some, if_pos (decide_eq_true hid)]
        rfl
  | jobs ks =>
    rw [hstage] at hnext
    cases ks with
    | nil => cases hnext
    | cons k ks =>
      cases hnext
      refine h.take (t := .job k) hstage rfl (fun t => by cases t <;> rfl) (by simp) ?_
        (fun k' hk => by cases hk) fun hdue => hdue.elim
      simp_all

/-- A delete that has run to its end leaves no orphans. -/
theorem Batch.Covers.noOrphans (h : b.Covers db) (horphans : db.NoOrphans)
    (hdone : b.next db = none) : (b.apply db).NoOrphans := by
  have hstage : b.stage = .jobs [] := by
    unfold Batch.next at hdone
    grind
  -- everything that goes with the delete's jobs is taken
  have htaken : ∀ t, b.stage.began t = true → b.Due db t → b.took t = true := by
    intro t hbegan hdue
    rcases h.left t hbegan hdue with hmem | htook
    · rw [hstage] at hmem
      exact absurd hmem not_mem_nil
    · exact htook
  have hjob : ∀ id, id ∉ b.ids → (db.jobs.get? id).isSome = true →
      ((b.apply db).jobs.get? id).isSome = true := by
    intro id hid hsome
    obtain ⟨r, hr⟩ := isSome_iff_exists.mp hsome
    unfold Batch.apply
    rw [get?_delete, hr, filter_some, if_pos]
    · rfl
    · rw [key_of_get? hr, Bool.not_eq_true']
      exact Bool.eq_false_iff.mpr fun htook => hid (h.jobs id (.inl htook))
  refine ⟨fun e he => ?_, fun k run hrun => ?_, fun l hl => ?_⟩
  · obtain ⟨hmem, hnot⟩ := Batch.mem_apply_finishes.mp he
    obtain ⟨run, hrun, hfinish⟩ := horphans.finishes e hmem
    refine ⟨run, Batch.apply_run_iff.mpr ⟨hrun, ?_⟩, hfinish⟩
    -- a run that the delete took is of one of its jobs, and its entry was taken before it
    refine Bool.eq_false_iff.mpr fun htook => ?_
    obtain ⟨run', hrun', hid⟩ := h.runs _ htook
    have htook' := htaken (.finish e) (by rw [hstage]; rfl) ⟨hmem, run', hrun', hid⟩
    simp_all
  · obtain ⟨hget, hnot⟩ := Batch.apply_run_iff.mp hrun
    refine hjob _ (fun hid => ?_) (horphans.runs k run hget)
    have htook := htaken (.run k) (by rw [hstage]; rfl) ⟨run, hget, hid⟩
    simp_all
  · obtain ⟨hmem, hnot⟩ := Batch.mem_apply_runLogs.mp hl
    refine hjob _ (fun hid => ?_) (horphans.lines l hmem)
    have htook := htaken (.line l) (by rw [hstage]; rfl) ⟨hmem, hid⟩
    simp_all

/-- A step of a delete takes at most the row that its statement is at. -/
theorem Batch.next_took (hnext : b.next db = some b') (htook : b'.took t = true) :
    b.took t = true ∨ b.target = some t := by
  unfold Batch.next at hnext
  unfold Batch.target
  split at hnext
  next hstage =>
    cases hnext
    exact .inl htook
  next e es hstage =>
    cases hnext
    rw [hstage]
    refine (Batch.took_take.mp htook).imp_right ?_
    rintro ⟨d, hd, rfl⟩
    split_ifs at hd
    cases hd
    rfl
  next hstage =>
    cases hnext
    exact .inl htook
  next l ls hstage =>
    cases hnext
    rw [hstage]
    refine (Batch.took_take.mp htook).imp_right ?_
    rintro ⟨d, hd, rfl⟩
    split_ifs at hd
    cases hd
    rfl
  next hstage =>
    cases hnext
    exact .inl htook
  next k ks hstage =>
    cases hnext
    rw [hstage]
    refine (Batch.took_take.mp htook).imp_right ?_
    rintro ⟨d, hd, rfl⟩
    obtain ⟨run, -, rfl⟩ := map_eq_some_iff.mp hd
    rfl
  next hstage =>
    cases hnext
    exact .inl htook
  next k ks hstage =>
    cases hnext
    rw [hstage]
    refine (Batch.took_take.mp htook).imp_right ?_
    rintro ⟨d, hd, rfl⟩
    obtain ⟨r, -, rfl⟩ := map_eq_some_iff.mp hd
    rfl
  next hstage => cases hnext

end Covers

/-! ## Runs -/

/-- A Finalize that has written its run: the run is stored, and the version keeps its job and a
finish that it has; the entry is the version's. -/
def Finalizing.Writes (f : Finalizing) (db : Db) : Prop :=
  ∀ row entry, f.stage = .wrote row entry → ∃ r, db.runs.get? f.tx.runID = some r ∧
    row.id = f.tx.runID ∧ row.jobID = r.jobID ∧
    (∀ t, r.finishedAt = some t → row.finishedAt = some t) ∧
    ∀ e, entry = some e → e.runID = f.tx.runID ∧ row.finishedAt = some e.finishedAt

/-- What the runs of deletes and attempts keep, as long as the attempts commit in time. -/
structure Purge.Sound (w : Purge) : Prop where
  orphans : w.db.NoOrphans
  deletes : ∀ i b, w.deletes i = some b → b.Covers w.db
  finalizes : ∀ i f, w.finalizes i = some f → f.Writes w.db
  apart : ∀ i j b c k, i ≠ j → w.deletes i = some b → w.deletes j = some c →
    b.took (.run k) = true → c.took (.run k) = false
  held : ∀ i b k, w.deletes i = some b → w.written k → b.took (.run k) = false
  alone : ∀ i j f g row entry row' entry', i ≠ j → w.finalizes i = some f → w.finalizes j = some g →
    f.stage = .wrote row entry → g.stage = .wrote row' entry' → f.tx.runID ≠ g.tx.runID

theorem update_eq_some {α : Type} {f : ℕ → Option α} {i j : ℕ} {x : Option α} {y : α}
    (h : Function.update f i x j = some y) : j = i ∧ x = some y ∨ j ≠ i ∧ f j = some y := by
  by_cases hj : j = i
  · simp_all
  · simp_all

section Steps

variable {w w' : Purge} {i : ℕ}

/-- A Finalize takes a place, or leaves it. -/
theorem Purge.Sound.setFinalize (h : w.Sound) {f : Option Finalizing}
    (hwrites : ∀ g, f = some g → g.Writes w.db)
    (hheld : ∀ g row entry, f = some g → g.stage = .wrote row entry →
      (∀ j b, w.deletes j = some b → b.took (.run g.tx.runID) = false) ∧ ¬ w.written g.tx.runID) :
    (w.setFinalize i f).Sound := by
  refine ⟨h.orphans, h.deletes, fun j g hg => ?_, h.apart, ?_, ?_⟩
  · rcases update_eq_some hg with ⟨-, hf⟩ | ⟨-, hg⟩
    · exact hwrites g hf
    · exact h.finalizes j g hg
  · rintro j b k hb ⟨m, g, row, entry, hg, hstage, rfl⟩
    rcases update_eq_some hg with ⟨-, hf⟩ | ⟨-, hg⟩
    · exact (hheld g row entry hf hstage).1 j b hb
    · exact h.held j b _ hb ⟨m, g, row, entry, hg, hstage, rfl⟩
  · intro j m f₁ f₂ row entry row' entry' hjm h₁ h₂ hs₁ hs₂ heq
    rcases update_eq_some h₁ with ⟨rfl, hf₁⟩ | ⟨hj, hold₁⟩
    · rcases update_eq_some h₂ with ⟨rfl, -⟩ | ⟨-, h₂⟩
      · exact hjm rfl
      · exact (hheld f₁ row entry hf₁ hs₁).2 ⟨m, f₂, row', entry', h₂, hs₂, heq.symm⟩
    · rcases update_eq_some h₂ with ⟨rfl, hf₂⟩ | ⟨-, h₂⟩
      · exact (hheld f₂ row' entry' hf₂ hs₂).2 ⟨j, f₁, row, entry, hold₁, hs₁, heq⟩
      · exact h.alone j m f₁ f₂ row entry row' entry' hjm hold₁ h₂ hs₁ hs₂ heq

/-- A delete takes a place, or leaves it. -/
theorem Purge.Sound.setDelete (h : w.Sound) {b : Option Batch}
    (hcovers : ∀ c, b = some c → c.Covers w.db)
    (hfree : ∀ c k, b = some c → c.took (.run k) = true →
      ¬ w.takenBeside i (.run k) ∧ ¬ w.written k) : (w.setDelete i b).Sound := by
  refine ⟨h.orphans, fun j c hc => ?_, h.finalizes, ?_, ?_, h.alone⟩
  · rcases update_eq_some hc with ⟨-, hb⟩ | ⟨-, hc⟩
    · exact hcovers c hb
    · exact h.deletes j c hc
  · intro j m c₁ c₂ k hjm h₁ h₂ htook
    refine Bool.eq_false_iff.mpr fun htook' => ?_
    rcases update_eq_some h₁ with ⟨rfl, hb₁⟩ | ⟨hj, hold₁⟩
    · rcases update_eq_some h₂ with ⟨rfl, -⟩ | ⟨hm, h₂⟩
      · exact hjm rfl
      · exact (hfree c₁ k hb₁ htook).1 ⟨m, c₂, hm, h₂, htook'⟩
    · rcases update_eq_some h₂ with ⟨rfl, hb₂⟩ | ⟨hm, h₂⟩
      · exact (hfree c₂ k hb₂ htook').1 ⟨j, c₁, hj, hold₁, htook⟩
      · rw [h.apart j m c₁ c₂ k hjm hold₁ h₂ htook] at htook'
        cases htook'
  · intro j c k hc hwritten
    refine Bool.eq_false_iff.mpr fun htook => ?_
    rcases update_eq_some hc with ⟨-, hb⟩ | ⟨-, hc⟩
    · exact (hfree c k hb htook).2 hwritten
    · rw [h.held j c k hc hwritten] at htook
      cases htook

theorem Purge.Sound.setDb (h : w.Sound) (horphans : db.NoOrphans)
    (hdeletes : ∀ i b, w.deletes i = some b → b.Covers db)
    (hfinalizes : ∀ i f, w.finalizes i = some f → f.Writes db) : ({ w with db } : Purge).Sound :=
  ⟨horphans, hdeletes, hfinalizes, h.apart, h.held, h.alone⟩

/-- A stub that is inserted in time. -/
theorem Purge.Sound.stub (h : w.Sound) {row : JobRunRow}
    (hnew : w.db.runs.conflicts runClash row = false) (hok : w.InTime (.stub row.jobID)) :
    ({ w with db := { w.db with runs := w.db.runs.insert runClash row } } : Purge).Sound := by
  obtain ⟨hjob, hbefore⟩ := hok
  have hkept : ∀ {k run}, w.db.runs.get? k = some run →
      (w.db.runs.insert runClash row).get? k = some run := fun hrun => get?_insert_of_some _ hrun
  refine h.setDb ⟨fun e he => ?_, fun k run hrun => ?_, h.orphans.lines⟩ (fun i b hb => ?_)
    (fun i f hf row' entry hstage => ?_)
  · obtain ⟨run, hrun, hfinish⟩ := h.orphans.finishes e he
    exact ⟨run, hkept hrun, hfinish⟩
  · rcases get?_insert_cases _ hrun with hold | ⟨-, rfl, -⟩
    · exact h.orphans.runs k run hold
    · exact hjob
  · refine (h.deletes i b hb).frame ?_ fun t hbegan hdue => ?_
    · rintro k - ⟨run, hrun, hid⟩
      exact ⟨run, hkept hrun, hid⟩
    · cases t with
      | finish e =>
        -- an entry names a run that was stored before
        obtain ⟨he, run, hrun, hid⟩ := hdue
        obtain ⟨run', hrun', -⟩ := h.orphans.finishes e he
        obtain rfl : run' = run := some_inj.mp ((hkept hrun').symm.trans hrun)
        exact ⟨he, run', hrun', hid⟩
      | line l => exact hdue
      | run k =>
        obtain ⟨run, hrun, hid⟩ := hdue
        rcases get?_insert_cases _ hrun with hold | ⟨-, rfl, -⟩
        · exact ⟨run, hold, hid⟩
        · grind
      | job id => exact hdue
  · obtain ⟨r, hr, hrest⟩ := h.finalizes i f hf row' entry hstage
    exact ⟨r, hkept hr, hrest⟩

theorem Purge.Sound.lines (h : w.Sound) {jobID : String} {lines : List RunLogRow}
    (hown : ∀ l ∈ lines, l.jobID = jobID) (hok : w.InTime (.lines jobID)) :
    ({ w with db := insertLines lines w.db } : Purge).Sound := by
  obtain ⟨hjob, hbefore⟩ := hok
  refine h.setDb ⟨h.orphans.finishes, h.orphans.runs, fun l hl => ?_⟩ (fun i b hb => ?_) h.finalizes
  · rcases mem_append.mp hl with hl | hl
    · exact h.orphans.lines l hl
    · rw [hown l (mem_filter.mp hl).1]
      exact hjob
  · refine (h.deletes i b hb).frame (fun k _ hdue => hdue) fun t hbegan hdue => ?_
    cases t with
    | line l =>
      obtain ⟨hl, hid⟩ := hdue
      rcases mem_append.mp hl with hl | hl
      · exact ⟨hl, hid⟩
      · grind
    | _ => exact hdue

theorem Purge.Sound.jobs (h : w.Sound) {jobs : Table JobRow.id}
    (hkept : ∀ id, (w.db.jobs.get? id).isSome = true → (jobs.get? id).isSome = true) :
    ({ w with db := { w.db with jobs } } : Purge).Sound :=
  h.setDb ⟨h.orphans.finishes, fun k run hrun => hkept _ (h.orphans.runs k run hrun),
    fun l hl => hkept _ (h.orphans.lines l hl)⟩
    (fun i b hb => (h.deletes i b hb).frame (fun k _ hdue => hdue) fun t _ hdue => by
      cases t <;> exact hdue)
    h.finalizes

/-- A run that its Finalize commits, and its entry, which is in time if it is new. -/
theorem Purge.Sound.finish (h : w.Sound) {row r : JobRunRow} {entry : Option FinishRow}
    (hr : w.db.runs.get? row.id = some r) (hjob : row.jobID = r.jobID)
    (hfinish : ∀ t, r.finishedAt = some t → row.finishedAt = some t)
    (hentry : ∀ e, entry = some e → e.runID = row.id ∧ row.finishedAt = some e.finishedAt)
    (hok : ∀ e, entry = some e → w.InTime (.finish row.jobID)) (hfree : ¬ w.written row.id) :
    ({ w with db := { w.db with runs := w.db.runs.put row
                                finishes := w.db.finishes ++ entry.toList } } : Purge).Sound := by
  have hget : ∀ {k run}, (w.db.runs.put row).get? k = some run →
      ∃ run₀, w.db.runs.get? k = some run₀ ∧ run.jobID = run₀.jobID := by
    intro k run hrun
    rw [get?_put] at hrun
    grind
  have hput : ∀ {k run₀}, w.db.runs.get? k = some run₀ →
      ∃ run, (w.db.runs.put row).get? k = some run ∧ run.jobID = run₀.jobID ∧
        ∀ t, run₀.finishedAt = some t → run.finishedAt = some t := by
    intro k run₀ hrun₀
    rw [get?_put]
    grind
  refine h.setDb ⟨fun e he => ?_, fun k run hrun => ?_, h.orphans.lines⟩ (fun i b hb => ?_)
    (fun i f hf row' entry' hstage => ?_)
  · rcases mem_append.mp he with he | he
    · obtain ⟨run₀, hrun₀, hfinished⟩ := h.orphans.finishes e he
      grind
    · obtain ⟨hid, hfinished⟩ := hentry e (mem_toList.mp he)
      exact ⟨row, by rw [get?_put, if_pos hid.symm], hfinished⟩
  · obtain ⟨run₀, hrun₀, hsame⟩ := hget hrun
    rw [hsame]
    exact h.orphans.runs k run₀ hrun₀
  · refine (h.deletes i b hb).frame ?_ fun t hbegan hdue => ?_
    · rintro k - ⟨run₀, hrun₀, hid⟩
      obtain ⟨run, hrun, hsame, -⟩ := hput hrun₀
      exact ⟨run, hrun, hsame ▸ hid⟩
    · cases t with
      | finish e =>
        obtain ⟨he, run, hrun, hid⟩ := hdue
        rcases mem_append.mp he with he | he
        · obtain ⟨run₀, hrun₀, hsame⟩ := hget hrun
          exact ⟨he, run₀, hrun₀, hsame ▸ hid⟩
        · have hnew := mem_toList.mp he
          rw [get?_put, if_pos (hentry e hnew).1.symm] at hrun
          cases hrun
          rw [hok e hnew i b e hb hid] at hbegan
          cases hbegan
      | line l => exact hdue
      | run k =>
        obtain ⟨run, hrun, hid⟩ := hdue
        obtain ⟨run₀, hrun₀, hsame⟩ := hget hrun
        exact ⟨run₀, hrun₀, hsame ▸ hid⟩
      | job id => exact hdue
  · obtain ⟨r', hr', hid, hrest⟩ := h.finalizes i f hf row' entry' hstage
    refine ⟨r', ?_, hid, hrest⟩
    rw [get?_put, if_neg fun heq => hfree ⟨i, f, row', entry', hf, hstage, heq.symm⟩]
    exact hr'

/-- A delete that commits. -/
theorem Purge.Sound.commit (h : w.Sound) {b : Batch} (hb : w.deletes i = some b)
    (hdone : b.next w.db = none) :
    ({ w.setDelete i none with db := b.apply w.db } : Purge).Sound := by
  have hrest : (w.setDelete i none).Sound := h.setDelete nofun nofun
  refine hrest.setDb ((h.deletes i b hb).noOrphans h.orphans hdone) (fun j c hc => ?_)
    (fun j f hf row entry hstage => ?_)
  · rcases update_eq_some hc with ⟨-, hnone⟩ | ⟨hj, hc⟩
    · cases hnone
    refine (h.deletes j c hc).frame ?_ fun t _ hdue => ?_
    · rintro k htook ⟨run, hrun, hid⟩
      exact ⟨run, Batch.apply_run_iff.mpr ⟨hrun, h.apart j i c b k hj hc hb htook⟩, hid⟩
    · cases t with
      | finish e =>
        obtain ⟨he, run, hrun, hid⟩ := hdue
        exact ⟨(Batch.mem_apply_finishes.mp he).1, run, Batch.apply_run hrun, hid⟩
      | line l => exact ⟨(Batch.mem_apply_runLogs.mp hdue.1).1, hdue.2⟩
      | run k =>
        obtain ⟨run, hrun, hid⟩ := hdue
        exact ⟨run, Batch.apply_run hrun, hid⟩
      | job id => exact hdue
  · obtain ⟨r, hr, hrest⟩ := h.finalizes j f hf row entry hstage
    refine ⟨r, Batch.apply_run_iff.mpr ⟨hr, ?_⟩, hrest⟩
    exact h.held i b _ hb ⟨j, f, row, entry, hf, hstage, rfl⟩

/-- A step in which the attempts commit in time. -/
theorem Purge.Sound.step (h : w.Sound) (hstep : Purge.Step Purge.InTime w w') : w'.Sound := by
  cases hstep with
  | stub runID raw startedAt executorClass executorID c inserted ok =>
    obtain ⟨hnew, -, hdb⟩ := insertRunStub_spec inserted
    rw [hdb]
    exact h.stub hnew ok
  | lines jobID lines own ok => exact h.lines own ok
  | load i f | miss i f =>
    refine h.setFinalize (fun g hg => ?_) fun g row entry hg hstage => ?_
    · cases hg
      intro row entry hstage
      cases hstage
    · grind
  | write i f running enqueued superseded r stored free alone =>
    refine h.setFinalize (fun g hg => ?_) fun g row entry hg hstage => ?_
    · cases hg
      rintro row entry hstage
      obtain ⟨rfl, rfl⟩ := FinalizeStage.wrote.inj hstage
      have hid := ((f.update enqueued superseded).key_apply r).trans (key_of_get? stored)
      refine ⟨r, stored, hid, rfl, fun t ht => ?_, fun e he => ?_⟩
      · change r.finishedAt.or _ = some t
        rw [ht]
        rfl
      · obtain ⟨hmap, -⟩ := filter_eq_some_iff.mp he
        obtain ⟨t, ht, rfl⟩ := map_eq_some_iff.mp hmap
        exact ⟨hid, ht⟩
    · grind
  | finish i f running ended jobs kept ok =>
    have hrest : (w.setFinalize i none).Sound :=
      h.setFinalize (fun g hg => by cases hg) fun g row entry hg => by cases hg
    have hjobs := hrest.jobs kept
    cases hstage : f.stage with
    | loaded => exact absurd hstage ended
    | missed =>
      unfold Finalizing.commit
      rw [hstage]
      exact hjobs
    | wrote row entry =>
      unfold Finalizing.commit
      rw [hstage]
      obtain ⟨r, hr, hid, hjob, hfinish, hentry⟩ := h.finalizes i f running row entry hstage
      rw [← hid] at hr hentry
      refine hjobs.finish hr hjob hfinish hentry (fun e he => ok row e (by rw [hstage, he])) ?_
      rintro ⟨j, g, row', entry', hg, hgstage, heq⟩
      rcases update_eq_some hg with ⟨-, hnone⟩ | ⟨hj, hg⟩
      · cases hnone
      · exact h.alone j i g f row' entry' row entry hj hg running hgstage hstage (heq.trans hid)
  | abortFinalize i f running =>
    exact h.setFinalize (fun g hg => by cases hg) fun g row entry hg => by cases hg
  | select i ids idle statement =>
    refine h.setDelete (fun c hc => ?_) fun c k hc htook => ?_
    · cases hc
      refine ⟨fun _ => rfl, fun k htook => ?_, fun id hjob => ?_, fun t hbegan => ?_⟩
      · cases htook
      · rcases hjob with htook | hmem
        · cases htook
        · exact absurd hmem not_mem_nil
      · cases hbegan
    · cases hc
      cases htook
  | advance i b b' running free next =>
    refine h.setDelete (fun c hc => ?_) fun c k hc htook => ?_
    · cases hc
      exact (h.deletes i b running).next h.orphans next
    · cases hc
      rcases Batch.next_took next htook with hold | htarget
      · refine ⟨?_, fun hwritten => ?_⟩
        · rintro ⟨j, c, hj, hc, htook'⟩
          rw [h.apart i j b c k hj.symm running hc hold] at htook'
          cases htook'
        · rw [h.held i b k running hwritten] at hold
          cases hold
      · exact ⟨(free _ htarget).1, (free _ htarget).2 k rfl⟩
  | commit i b running done => exact h.commit running done
  | abort i b running => exact h.setDelete nofun nofun

end Steps

/-! ## One delete and one Finalize -/

/-- The database with one open delete. -/
def Purge.lone (db : Db) (b : Batch) : Purge := Purge.setDelete { db } 0 (some b)

theorem Purge.lone_delete (db : Db) (b : Batch) : (Purge.lone db b).deletes 0 = some b := by
  unfold Purge.lone Purge.setDelete
  simp_all

/-- A lone delete takes its steps. -/
theorem Purge.lone_steps (n : ℕ) (b : Batch) :
    Purge.Run allowed (.lone db b) (.lone db (b.steps db n)) := by
  refine Batch.run_steps (fun b b' hnext => ?_) n b
  have hfree : ∀ t, b.target = some t → ¬ (Purge.lone db b).takenBeside 0 t ∧
      ∀ k, t = .run k → ¬ (Purge.lone db b).written k := by
    refine fun t _ => ⟨?_, ?_⟩
    · rintro ⟨j, c, hj, hc, -⟩
      rcases update_eq_some hc with ⟨hzero, -⟩ | ⟨-, hnone⟩
      · exact hj hzero
      · cases hnone
    · rintro k - ⟨i, f, row, entry, hf, -⟩
      cases hf
  have hstep : Purge.Step allowed (.lone db b) _ :=
    .advance 0 b b' (Purge.lone_delete db b) hfree hnext
  unfold Purge.lone Purge.setDelete at hstep ⊢
  simp_all

theorem Purge.lone_commits {b : Batch} (hdone : b.next db = none) :
    Purge.Run allowed (.lone db b) { db := b.apply db } := by
  have hstep : Purge.Step allowed (.lone db b) _ := .commit 0 b (Purge.lone_delete db b) hdone
  unfold Purge.lone Purge.setDelete at hstep ⊢
  rw [Function.update_idem, Function.update_eq_self_iff.mpr rfl] at hstep
  exact .single hstep

/-- A superseded Finalize that has written its run. -/
def FinalizeTx.supersededBy (f : FinalizeTx) (r : JobRunRow) (db : Db) : Finalizing where
  tx := f
  stage := .wrote ((f.update 0 true).apply r) (newEntry ((f.update 0 true).apply r) db)

/-- A superseded Finalize runs to its commit, beside deletes that have taken nothing. -/
theorem Purge.run_finalize {deletes : ℕ → Option Batch} (f : FinalizeTx) {r : JobRunRow}
    (hr : db.runs.get? f.runID = some r) (hstarted : r.startedAt = f.startedAt)
    (hfree : ∀ j b, deletes j = some b → b.deletions = [])
    (hok : ∀ finalizes, allowed { db, deletes, finalizes } (.finish r.jobID)) :
    Purge.Run allowed { db, deletes } { db := (f.supersededBy r db).commit db, deletes } := by
  have htook : ∀ j b t, deletes j = some b → b.took t = false := by
    grind [Batch.took]
  have hload : Purge.Step allowed { db, deletes } _ := .load 0 f rfl (by rw [hr, ← hstarted]; rfl)
  have hunwritten : ¬ (Purge.setFinalize { db, deletes } 0 (some { tx := f })).written f.runID := by
    rintro ⟨j, g, row, entry, hg, hstage, -⟩
    rcases update_eq_some hg with ⟨-, hf⟩ | ⟨-, hnone⟩
    · grind
    · cases hnone
  have hwrite : Purge.Step allowed (Purge.setFinalize { db, deletes } 0 (some { tx := f }))
      (Purge.setFinalize { db, deletes } 0 (some (f.supersededBy r db))) := by
    have hstep : Purge.Step allowed (Purge.setFinalize { db, deletes } 0 (some { tx := f })) _ :=
      .write 0 f (by unfold Purge.setFinalize; dsimp only; rw [Function.update_self]) 0 true r hr
        (fun j b hb => ⟨htook j b _ hb, fun e _ => htook j b _ hb⟩) hunwritten
    unfold Purge.setFinalize at hstep ⊢
    rwa [Function.update_idem] at hstep
  have hfinish : Purge.Step allowed
    (Purge.setFinalize { db, deletes } 0 (some (f.supersededBy r db)))
      { db := (f.supersededBy r db).commit db, deletes } := by
    have hstep : Purge.Step allowed
        (Purge.setFinalize { db, deletes } 0 (some (f.supersededBy r db))) _ :=
      .finish 0 (f.supersededBy r db)
        (by unfold Purge.setFinalize; dsimp only; rw [Function.update_self])
        nofun db.jobs (fun _ h => h) (fun row e hstage => by
          obtain ⟨rfl, -⟩ := FinalizeStage.wrote.inj hstage
          exact hok _)
    unfold Purge.setFinalize at hstep ⊢
    simp_all
  exact .head hload (.head hwrite (.single hfinish))

/-! ## No orphans -/

/-- In every run in which an attempt commits its stub, its captured lines and its finish while its
job is stored and before an open delete of the job has begun the statement that would have to take
them, every entry of the log names a stored run with that finish, and every run and line a stored
job. -/
theorem attempts_in_time_leave_no_orphans {db : Db} (h : db.NoOrphans) {w : Purge}
    (hrun : Purge.Run Purge.InTime { db } w) : w.db.NoOrphans := by
  have hsound : w.Sound := by
    induction hrun with
    | refl =>
      refine ⟨h, ?_, ?_, ?_, ?_, ?_⟩
      · intro i b hb
        cases hb
      · intro i f hf
        cases hf
      · simp_all
      · intro i b k hb
        cases hb
      · simp_all
    | tail _ hstep ih => exact ih.step hstep
  exact hsound.orphans

/-- A job is cancelled while its attempt runs. -/
def cancelledAttempt : Db :=
  Db.after {} [.insert { newID := fun _ => "job" } [{ kind := "work", args := .null }],
     .dequeue .postgres {} { newID := fun _ => "token" } { queues := ["default"], lease := minute },
     .insertRunStub "run" (firstClaim "job" "work" "token") 0 "" "executor",
     .cancelJob {} "job"]

/-- The attempt's Finalize, which the cancel has superseded. -/
def lateFinalize : FinalizeTx :=
  { raw := firstClaim "job" "work" "token", runID := "run", finishedAt := 0, startedAt := 0 }

theorem cancelledAttempt_noOrphans : cancelledAttempt.NoOrphans := by
  refine ⟨fun e he => ?_, fun k run hrun => ?_, fun l hl => ?_⟩
  · exact absurd he not_mem_nil
  · have hmem : run ∈ [runStub "run" (firstClaim "job" "work" "token") 0 "" "executor"] :=
      mem_of_get? hrun
    obtain rfl := mem_singleton.mp hmem
    rfl
  · exact absurd hl not_mem_nil

/-- What the late Finalize leaves. -/
def finalizedAttempt : Db :=
  (lateFinalize.supersededBy (runStub "run" (firstClaim "job" "work" "token") 0 "" "executor")
    cancelledAttempt).commit cancelledAttempt

theorem select_cancelled (allowed : Purge → AttemptCommit → Prop)
    (hjob : (db.job? "job").any (fun r => r.state.isTerminal) = true) :
    Purge.Step allowed { db } (.lone db { ids := ["job"] }) := by
  refine .select 0 ["job"] rfl (.inr fun id hid => ?_)
  simp_all [Option.any_eq_true]

/-- A Finalize that commits before the job's delete begins leaves nothing behind it. -/
theorem finalize_before_delete_leaves_nothing :
    ∃ w, Purge.Run Purge.InTime { db := cancelledAttempt } w ∧ w.db.jobs.get? "job" = none ∧
      w.db.NoOrphans := by
  have hfinalize : Purge.Run Purge.InTime { db := cancelledAttempt } { db := finalizedAttempt } :=
    Purge.run_finalize lateFinalize rfl rfl nofun nofun
  have hdone : (Batch.steps finalizedAttempt 8 { ids := ["job"] }).next finalizedAttempt =
    none := by rfl
  have hrun : Purge.Run Purge.InTime { db := cancelledAttempt } _ :=
    hfinalize.trans (.head (select_cancelled _ rfl)
      ((Purge.lone_steps 8 { ids := ["job"] }).trans (Purge.lone_commits hdone)))
  exact ⟨_, hrun, rfl, attempts_in_time_leave_no_orphans cancelledAttempt_noOrphans hrun⟩

/-- DeleteJob reads the keys of the finishes, of which there are none, and the cancelled job's
attempt then finalizes its run: the delete takes the run and the job, and leaves the run's entry. -/
theorem late_finish_outlives_its_run :
    cancelledAttempt.NoOrphans ∧
      ∃ w, Purge.Run (fun _ _ => True) { db := cancelledAttempt } w ∧
        w.deletes = (fun _ => none) ∧ w.finalizes = (fun _ => none) ∧
        { finishedAt := 0, runID := "run" } ∈ w.db.finishes ∧ w.db.runs.get? "run" = none := by
  -- the delete has read its keys
  have hread : Purge.Run (fun _ _ => True) { db := cancelledAttempt }
      (.lone cancelledAttempt { ids := ["job"], stage := .finishes [] }) :=
    .head (select_cancelled _ rfl) (Purge.lone_steps 1 { ids := ["job"] })
  have hfinalize : Purge.Run (fun _ _ => True)
      (.lone cancelledAttempt { ids := ["job"], stage := .finishes [] })
      (.lone finalizedAttempt { ids := ["job"], stage := .finishes [] }) := by
    refine Purge.run_finalize lateFinalize rfl rfl (fun j b hb => ?_) fun _ => trivial
    grind
  have hdone : (Batch.steps finalizedAttempt 8 { ids := ["job"], stage := .finishes [] }).next
      finalizedAttempt = none := by rfl
  have hdelete : Purge.Run (fun _ _ => True)
      (.lone finalizedAttempt { ids := ["job"], stage := .finishes [] }) _ :=
    (Purge.lone_steps 8 _).trans (Purge.lone_commits hdone)
  exact ⟨cancelledAttempt_noOrphans, _, hread.trans (hfinalize.trans hdelete), rfl,
    rfl, by decide, rfl⟩

end Flywheel
