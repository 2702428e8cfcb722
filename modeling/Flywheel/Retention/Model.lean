import Flywheel.Control.Batch
import Flywheel.Stats.Ids

/-!
# Retention

`DeleteFinishedJobsWithOptions` deletes ended jobs with their runs, batch by batch, each batch in a
transaction of its own: a select of the ids, in id order after the last batch's, and the deletes of
`deleteJobRows`. What a job's age is compared with comes from the most specific rule that matches
it, and every cutoff is held back to what the stats rollup has counted, if the pass asks for it.
-/

namespace Flywheel

open Relational Transition

/-! ## Rules and cutoffs -/

/-- `RetentionRule`: an empty kind matches every kind, and no state every terminal state. -/
structure RetentionRule where
  kind : String := ""
  state : Option JobState := none
  maxAge : Duration
deriving DecidableEq, Inhabited, Repr

/-- `RetentionOpts` -/
structure RetentionOpts where
  batchSize : ℤ := 0
  maxBatches : ℤ := 0
  holdForStatsRollup : Bool := false
  rules : List RetentionRule := []
deriving Inhabited

/-- `RetentionOpts.batchSize`, over `defaultRetentionBatchSize`. -/
def RetentionOpts.size (o : RetentionOpts) : ℕ := orDefault o.batchSize 1000

/-- The checks of the rule at the index `i`, after those of `seen`. -/
def RetentionRule.check (r : RetentionRule) (i : ℕ) (seen : List RetentionRule) :
    Except TxError Unit :=
  if r.state.any fun s => !s.isTerminal then
    .error (.validation s!"rules[{i}].state" "must be succeeded, cancelled, or discarded")
  else if r.maxAge ≤ 0 then .error (.validation s!"rules[{i}].max_age" "must be positive")
  else if r.kind = "" ∧ r.state = none then
    .error (.validation s!"rules[{i}]" "names neither a kind nor a state")
  else
    match seen.findIdx? fun s => decide (s.kind = r.kind ∧ s.state = r.state) with
    | some j => .error (.validation s!"rules[{i}]" s!"repeats rule {j}")
    | none => .ok ()

/-- The rules after those of `seen`. -/
def validateFrom (seen : List RetentionRule) : List RetentionRule → Except TxError Unit
  | [] => .ok ()
  | r :: rules => do
    r.check seen.length seen
    validateFrom (seen ++ [r]) rules

/-- `validateRetentionRules` -/
def validateRetentionRules (rules : List RetentionRule) : Except TxError Unit :=
    validateFrom [] rules

/-- `retentionRuleOrder`: the rules that name a kind and a state, then those that name a kind, then
those that name a state. -/
def retentionRuleOrder (rules : List RetentionRule) : List RetentionRule :=
  (rules.filter fun r => decide (r.kind ≠ "") && r.state.isSome) ++
    (rules.filter fun r => decide (r.kind ≠ "") && r.state.isNone) ++
    rules.filter fun r => decide (r.kind = "") && r.state.isSome

/-- A branch's condition: what the rule names is the job's. -/
def RetentionRule.selects (r : RetentionRule) (job : JobRow) : Bool :=
  (decide (r.kind = "") || decide (job.kind = r.kind)) && r.state.all fun s =>
    decide (job.state = s)

/-- `retentionCutoff`: the job ended before the cutoff of the first rule that matches it, and before
`olderThan` when none does. -/
def retentionCutoff (now olderThan : Time) (rules : List RetentionRule) (capAt : Time → Time)
    (job : JobRow) : Bool :=
  let cutoff := match (retentionRuleOrder rules).find? fun r => r.selects job with
    | some r => capAt (now - r.maxAge)
    | none => olderThan
  job.finalizedAt.any fun t => decide (t < cutoff)

/-- `statsRetentionCap`: the end of the hours that the rollup covers, or the oldest hour that it
keeps while it has not worked its way back to it; `none` while nothing is covered. -/
def statsRetentionCap (db : Db) : Option Time :=
  (db.progress.filter fun p => decide (p.coveredFrom < p.coveredTo)).map fun p =>
    if p.retainFrom < p.coveredFrom then unixHour p.retainFrom else unixHour p.coveredTo

/-- The cutoff of a pass, or `none` when it deletes nothing because nothing is rolled up yet. -/
def RetentionOpts.cutoff (o : RetentionOpts) (now olderThan : Time) (db : Db) :
    Except TxError (Option (JobRow → Bool)) := do
  validateRetentionRules o.rules
  if o.holdForStatsRollup then
    return (statsRetentionCap db).map fun held =>
      retentionCutoff now (min held olderThan) o.rules (min held)
  else return some (retentionCutoff now olderThan o.rules id)

/-! ## Batches -/

/-- A job that a batch may take: it has ended, it is old enough, and it is after the cursor. -/
def finishedAfter (cutoff : JobRow → Bool) (cursor : String) (r : JobRow) : Bool :=
  terminalStates.contains r.state && r.finalizedAt.isSome && cutoff r &&
    (decide (cursor = "") || decide (cursor < r.id))

/-- The batch's select, which the soft-delete scope does not limit. -/
def finishedIDs (cutoff : JobRow → Bool) (cursor : String) (limit : ℕ) (db : Db) : List String :=
  (((db.jobs.rows.filter (finishedAfter cutoff cursor)).map JobRow.id).insertionSort (· ≤ ·)).take
    limit

/-- `deleteFinishedBatch`, as one transaction: what it leaves, how many jobs it deleted, and the
last id that it saw. -/
def deleteFinishedBatch (cutoff : JobRow → Bool) (cursor : String) (limit : ℕ) (db : Db) :
    Db × ℕ × String :=
  let ids := finishedIDs cutoff cursor limit db
  let after := deleteJobRows ids db
  (after, db.jobs.rows.length - after.jobs.rows.length, ids.getLast?.getD "")

/-- The batches of a pass, up to `n`, and how many jobs they deleted. -/
def deleteBatches (cutoff : JobRow → Bool) (limit : ℕ) : ℕ → String → Db → Db × ℕ
  | 0, _, db => (db, 0)
  | n + 1, cursor, db =>
    let (after, deleted, last) := deleteFinishedBatch cutoff cursor limit db
    if last = "" then (after, deleted)
    else
      let (final, rest) := deleteBatches cutoff limit n last after
      (final, deleted + rest)

/-- `DeleteFinishedJobsWithOptions`, when no other transaction runs. Each batch but the last deletes
a job, so that a pass without a ceiling ends after one batch more than there are jobs. -/
def deleteFinishedJobsWithOptions (o : RetentionOpts) (now olderThan : Time) (db : Db) :
    Except TxError (Db × ℕ) := do
  match ← o.cutoff now olderThan db with
  | none => return (db, 0)
  | some cutoff =>
    let batches := if o.maxBatches ≤ 0 then db.jobs.rows.length + 1 else o.maxBatches.toNat
    return deleteBatches cutoff o.size batches "" db

/-- A selected job has ended, before the cutoff. -/
theorem mem_finishedIDs {cutoff : JobRow → Bool} {cursor : String} {limit : ℕ} {db : Db}
    {id : String} (h : id ∈ finishedIDs cutoff cursor limit db) :
    ∃ r ∈ db.jobs.rows, r.id = id ∧ r.state.isTerminal = true ∧ cutoff r = true := by
  have h := (List.mem_insertionSort _).mp (List.mem_of_mem_take h)
  obtain ⟨r, hr, rfl⟩ := List.mem_map.mp h
  obtain ⟨hmem, hr⟩ := List.mem_filter.mp hr
  simp only [finishedAfter, Bool.and_eq_true] at hr
  exact ⟨r, hmem, rfl, hr.1.1.1, hr.1.2⟩

end Flywheel
