import Flywheel.Retention.Model
import Flywheel.RunLifecycle

/-!
# The finish log

`job_run_finishes` is what makes the runs searchable by their finish, so the rollup counts what it
holds. Its entries are written beside `finished_at`, by the Finalize and by the sweep, in either
order for the one run, and removed with the run by a key that holds the finish time. `FinishLog`
says that the log is exactly the finished runs. A write keeps it when it changes no finish that is
set and logs the runs that it writes (`FinishLog.relog`), and a delete of runs when it deletes their
entries (`FinishLog.delete`); the sweep's write is such a write because a run that reads started has
no finish.
-/

namespace Flywheel

open Relational Transition List Option Table

/-- The finish log is exactly the finished runs: no entry twice, an entry for each run with a
finish, and none else; and a run that reads started has no finish. -/
structure FinishLog (t : RunTables) : Prop where
  nodup : t.finishes.Nodup
  mem_iff : ∀ e, e ∈ t.finishes ↔
    ∃ run, t.runs.get? e.runID = some run ∧ run.finishedAt = some e.finishedAt
  started : ∀ run ∈ t.runs.rows, run.outcome = .started → run.finishedAt = none

/-- The transactions of the claims, the controls and the sweep, and one retention batch. -/
inductive Txn where
  | act (a : Action)
  | retain (cutoff : JobRow → Bool) (cursor : String) (limit : ℕ)

/-- One transaction's step. -/
def Txn.step (db : Db) : Txn → Db
  | .act a => Flywheel.step db a
  | .retain cutoff cursor limit => (deleteFinishedBatch cutoff cursor limit db).1

/-- The database after a history of transactions. -/
def Db.afterTxns (db : Db) (history : List Txn) : Db := run Txn.step db history

/-! ## A write of runs -/

variable {db : Db} {t : Time}

/-- A write of runs keeps the log exact when it changes no finish that is set, gives none to a run
that reads started, and logs every run that it writes. -/
theorem FinishLog.relog (h : FinishLog db.runTables) {p : JobRunRow → Bool}
    {upd : Patch JobRunRow.id} {ids : List String}
    (hids : ∀ r ∈ db.runs.rows, p r = true → r.id ∈ ids)
    (hset : ∀ r ∈ db.runs.rows, p r = true → ∀ t, r.finishedAt = some t →
      (upd.apply r).finishedAt = some t)
    (hstarted : ∀ r ∈ db.runs.rows, p r = true → (upd.apply r).outcome ≠ .started) :
    FinishLog (logFinishes ids { db with runs := db.runs.update p upd }).runTables := by
  have hmem : ∀ e, e ∈ (logFinishes ids { db with runs := db.runs.update p upd }).finishes ↔
      e ∈ db.finishes ∨ e ∈ finishEntries ids (db.runs.update p upd) := by
    intro e
    change e ∈ db.finishes ++ (finishEntries ids (db.runs.update p upd)).filter
      (fun e => e ∉ db.finishes) ↔ _
    grind
  refine ⟨?_, fun e => ?_, ?_⟩
  · refine Nodup.append h.nodup ((finishEntries_nodup _ _).filter _) ?_
    intro e hold hnew
    exact of_decide_eq_true (mem_filter.mp hnew).2 hold
  · change e ∈ (logFinishes ids { db with runs := db.runs.update p upd }).finishes ↔
      ∃ run, (db.runs.update p upd).get? e.runID = some run ∧ run.finishedAt = some e.finishedAt
    rw [hmem, mem_finishEntries]
    constructor
    · rintro (hold | ⟨-, hrun⟩)
      · obtain ⟨run, hget, ht⟩ := (h.mem_iff e).mp hold
        change db.runs.get? e.runID = some run at hget
        rw [get?_update, hget, map_some]
        grind [mem_of_get?]
      · exact hrun
    · rintro ⟨run, hget, ht⟩
      rw [get?_update] at hget
      obtain ⟨old, hold, hrun⟩ := map_eq_some_iff.mp hget
      split_ifs at hrun with hp
      · refine .inr ⟨?_, run, ?_, ht⟩
        · grind [key_of_get?, mem_of_get?]
        · rw [get?_update, hold, map_some, if_pos hp, hrun]
      · subst hrun
        exact .inl ((h.mem_iff e).mpr ⟨old, hold, ht⟩)
  · intro run hrun hout
    obtain ⟨old, hold, rfl⟩ := List.mem_map.mp hrun
    split_ifs at hout ⊢ with hp
    · exact absurd hout (hstarted old hold hp)
    · exact h.started old hold hout

/-- A delete of jobs removes their runs with their entries, and no other entry. -/
theorem FinishLog.delete (h : FinishLog db.runTables) (ids : List String) :
    FinishLog (deleteJobRows ids db).runTables := by
  refine ⟨h.nodup.filter _, fun e => ?_, fun run hrun => ?_⟩
  · change e ∈ db.finishes.filter _ ↔ ∃ run, (db.runs.delete _).get? e.runID = some run ∧ _
    have hlog : e ∈ db.finishes ↔
        ∃ run, db.runs.get? e.runID = some run ∧ run.finishedAt = some e.finishedAt := h.mem_iff e
    rw [mem_filter, hlog, get?_delete]
    constructor
    · rintro ⟨⟨run, hget, ht⟩, hkept⟩
      refine ⟨run, ?_, ht⟩
      -- the run's job is not deleted, or the entry's key would be among those deleted
      have hjob : run.jobID ∉ ids := by
        grind [mem_of_get?, key_of_get?]
      rw [hget, filter_some, if_pos (by simp [hjob])]
    · rintro ⟨run, hget, ht⟩
      obtain ⟨hget, hjob⟩ := filter_eq_some_iff.mp hget
      refine ⟨⟨run, hget, ht⟩, ?_⟩
      rw [Bool.not_eq_true', List.any_eq_false]
      intro other hother hdel
      obtain ⟨hother', -, hid⟩ := of_decide_eq_true hdel
      have heq : other = run := eq_of_key_eq hother (mem_of_get? hget)
        (by rw [hid, key_of_get? hget])
      simp_all
  · exact h.started run (mem_filter.mp hrun).1

theorem FinishLog.stub {t : RunTables} (h : FinishLog t) {row : JobRunRow}
    (hrow : row.finishedAt = none) : FinishLog { t with runs := t.runs.insert runClash row } := by
  refine ⟨h.nodup, fun e => (h.mem_iff e).trans ?_, fun run hrun hout => ?_⟩
  · constructor
    · rintro ⟨run, hget, ht⟩
      exact ⟨run, get?_insert_of_some runClash hget, ht⟩
    · rintro ⟨run, hget, ht⟩
      rcases get?_insert_cases runClash hget with hold | ⟨-, rfl, -⟩
      · exact ⟨run, hold, ht⟩
      · simp_all
  · rcases get?_insert_cases runClash (get?_key hrun) with hold | ⟨-, rfl, -⟩
    · exact h.started run (mem_of_get? hold) hout
    · exact hrow

/-! ## The transactions -/

theorem planFinalize_outcome (ctx : Context) (raw : RawJob) (result : Result)
    (workErr : Option WorkError) (finishedAt : Time) :
    (planFinalize ctx raw result workErr finishedAt).runOutcome ≠ .started := by
  unfold planFinalize
  by_cases hcancel : result.cancel = true
  · simp_all
  · rw [if_neg hcancel]
    cases result.snooze with
    | some d => exact RunOutcome.noConfusion
    | none =>
      cases workErr with
      | none => exact RunOutcome.noConfusion
      | some e => grind

theorem FinishLog.write {a : Action} {after : RunTables} (h : FinishLog db.runTables)
    (hwrite : RunWrite db a after) : FinishLog after := by
  cases hwrite with
  | keep => exact h
  | stub runID raw startedAt executorClass executorID => exact h.stub rfl
  | finish opts ctx raw runID result workErr finishedAt durationMs enqueued =>
    refine h.relog ?_ ?_ ?_
    · simp_all
    · intro r _ _ t ht
      change r.finishedAt.or _ = some t
      rw [ht, some_or]
    · intro r _ _
      exact planFinalize_outcome ctx raw result workErr finishedAt
  | crash dialect scan opts ctx now limit jobs =>
    refine h.relog ?_ ?_ ?_
    · grind
    · intro r hr hstale t ht
      rw [h.started r hr (staleStubOf_started hstale)] at ht
      cases ht
    · simp_all
  | delete _ ids kind => exact h.delete ids

/-- Every transaction keeps the log exact. -/
theorem FinishLog.step (h : FinishLog db.runTables) (x : Txn) :
    FinishLog (x.step db).runTables := by
  cases x with
  | act a => exact h.write (step_write db a)
  | retain cutoff cursor limit => exact h.delete _

theorem FinishLog.empty : FinishLog ({} : Db).runTables where
  nodup := nodup_nil
  mem_iff e := by simp [Db.runTables, get?_empty]
  started run hrun := by cases hrun

/-- The log is exact after every history. -/
theorem finishLog_after (history : List Txn) : FinishLog (({} : Db).afterTxns history).runTables :=
  run_invariant (I := fun db : Db => FinishLog db.runTables) (fun _ x h => h.step x)
    FinishLog.empty history

theorem FinishLog.finish_kept (h : FinishLog db.runTables) (x : Txn) {id : String}
    {run run' : JobRunRow} (hrun : db.runs.get? id = some run)
    (ht : run.finishedAt = some t) (hrun' : (x.step db).runs.get? id = some run') :
    run'.finishedAt = some t := by
  cases x with
  | act a =>
    have hmove := step_run db a id
    change (Flywheel.step db a).runs.get? id = some run' at hrun'
    rw [hrun, hrun'] at hmove
    cases hmove with
    | keep => exact ht
    | finish opts ctx raw result workErr finishedAt durationMs enqueued superseded =>
      change run.finishedAt.or _ = some t
      rw [ht, some_or]
    | crash dialect scan opts ctx now limit state started =>
      rw [h.started run (mem_of_get? hrun) started] at ht
      cases ht
  | retain cutoff cursor limit =>
    change (db.runs.delete _).get? id = some run' at hrun'
    rw [get?_delete, hrun] at hrun'
    simp_all

theorem FinishLog.entries (h : FinishLog db.runTables) {run : JobRunRow}
    (hrun : run ∈ db.runs.rows) (ht : run.finishedAt = some t) :
    (db.finishes.filter fun e => decide (e.runID = run.id)) =
      [{ finishedAt := t, runID := run.id }] := by
  have hnodup : db.finishes.Nodup := h.nodup
  rw [← perm_singleton, perm_ext_iff_of_nodup (hnodup.filter _) (nodup_singleton _)]
  intro e
  have hlog : e ∈ db.finishes ↔
      ∃ run, db.runs.get? e.runID = some run ∧ run.finishedAt = some e.finishedAt := h.mem_iff e
  rw [mem_filter, decide_eq_true_eq, mem_singleton, hlog]
  constructor
  · rintro ⟨⟨other, hget, hfin⟩, hid⟩
    rw [hid, get?_key hrun] at hget
    cases hget
    rw [ht] at hfin
    cases e
    rw [some.inj hfin, ← hid]
  · rintro rfl
    exact ⟨⟨run, get?_key hrun, ht⟩, rfl⟩

/-- **The finish log is exactly the finished runs.** In every state that transactions reach, a run
with a finish has exactly one entry, with that finish, and every entry is that of a stored run with
that finish; and no further transaction changes a finish that is set. -/
theorem finish_log_exact (history : List Txn) :
    let db := ({} : Db).afterTxns history
    (∀ run ∈ db.runs.rows, ∀ t, run.finishedAt = some t →
      (db.finishes.filter fun e => decide (e.runID = run.id)) =
        [{ finishedAt := t, runID := run.id }]) ∧
    (∀ e ∈ db.finishes, ∃ run, db.runs.get? e.runID = some run ∧
      run.finishedAt = some e.finishedAt) ∧
    (∀ (next : Txn) (id : String) (run run' : JobRunRow) (t : Time),
      db.runs.get? id = some run → run.finishedAt = some t →
      (next.step db).runs.get? id = some run' → run'.finishedAt = some t) := by
  have h := finishLog_after history
  refine ⟨fun run hrun t ht => h.entries hrun ht, fun e he => (h.mem_iff e).mp he, ?_⟩
  intro next id run run' t hrun ht hrun'
  exact h.finish_kept next hrun ht hrun'

end Flywheel
