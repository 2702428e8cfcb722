import Mathlib.Data.List.Find
import Flywheel.Driver.Lease

/-!
# The sweep, dialect by dialect

A sweep's batch as each dialect's statements make it. PostgreSQL reclaims with one UPDATE over a
CTE, whose `CASE` and correlated count decide each row, and crashes the stubs with one statement for
each state that the reclaim applied; SQLite selects the rows, counts their earlier crashes apart,
updates the two groups, and picks and crashes the stubs in code. Each is `sweepBatch` of
`Driver/Lease.lean`, up to the order of the finish log's rows, which no query relies on.
-/

namespace Flywheel

open Relational Transition List Table

/-- `reclaimRow`: an expired lease as a dialect's reclaim reads it, with the state that the reclaim
applied. -/
structure ReclaimRow where
  id : String
  state : JobState
  kind : String
  queue : String
  attempt : ℤ
  maxAttempts : ℤ
  parentJobID : Option String
  leasedUntil : Time

/-- The row's order in `inReclaimOrder`: the oldest expired lease first, then by id. -/
def ReclaimRow.before (a b : ReclaimRow) : Prop :=
  a.leasedUntil < b.leasedUntil ∨ (a.leasedUntil = b.leasedUntil ∧ a.id ≤ b.id)

instance : DecidableRel ReclaimRow.before := fun _ _ => inferInstanceAs (Decidable (_ ∨ _))

/-- `inReclaimOrder` -/
def inReclaimOrder (rows : List ReclaimRow) : List ReclaimRow :=
    rows.insertionSort ReclaimRow.before

/-- The columns of one row that a reclaim reads, with the state that it applies. -/
def JobRow.reclaimed (r : JobRow) (state : JobState) (leasedUntil : Option Time) : ReclaimRow :=
  { id := r.id, state, kind := r.kind, queue := r.queue, attempt := r.attempt
    maxAttempts := r.maxAttempts, parentJobID := r.parentJobID, leasedUntil := leasedUntil.getD 0 }

/-! ## PostgreSQL -/

/-- One row of the reclaim's CTE. -/
structure ExpiredRow where
  id : String
  leasedUntil : Option Time
  spent : Bool

/-- The CTE's expression `spent`, which counts the job's crashes only under a crash budget. -/
def spentPostgres (opts : DriverOpts) (db : Db) (r : JobRow) : Bool :=
  if 0 < opts.maxCrashes then
    decide (r.attempt ≥ r.maxAttempts) ||
      decide (1 + ((db.runs.rows.countP fun run =>
        decide (run.jobID = r.id) && run.crashedRun : ℕ) : ℤ) ≥ opts.maxCrashes)
  else decide (r.attempt ≥ r.maxAttempts)

/-- The rows of the CTE. -/
def expiredPostgres (scan : Scan) (opts : DriverOpts) (now : Time) (limit : ℕ) (db : Db) :
    List ExpiredRow :=
  let expired := scan.expired .postgres now db.jobs.rows
  ((expired.filter fun r => !scan.locked r.id).take limit).map fun r =>
    { id := r.id, leasedUntil := r.leasedUntil, spent := spentPostgres opts db r }

/-- The CTE's row for a job. -/
def expiredRowOf (expired : List ExpiredRow) (r : JobRow) : Option ExpiredRow :=
  expired.find? fun e => decide (e.id = r.id)

/-- The columns of the UPDATE. -/
def reclaimPostgres (expired : List ExpiredRow) (now : Time) : Patch JobRow.id where
  apply r :=
    let spent := (expiredRowOf expired r).any ExpiredRow.spent
    { r with
      state := if spent then .discarded else .available
      finalizedAt := if spent then some now else r.finalizedAt
      leasedUntil := none
      leaseToken := none
      updatedAt := now }
  key_apply _ := rfl

/-- `postgresDriver.reclaimExpired`; the UPDATE returns its rows in the table's order. -/
def reclaimExpiredPostgres (scan : Scan) (opts : DriverOpts) (now : Time) (limit : ℕ) (db : Db) :
    Db × List ReclaimRow :=
  let expired := expiredPostgres scan opts now limit db
  let jobs := db.jobs.update (fun r => (expiredRowOf expired r).isSome)
    (reclaimPostgres expired now)
  let rows := jobs.rows.filterMap fun r =>
    (expiredRowOf expired r).map fun e => r.reclaimed r.state e.leasedUntil
  ({ db with jobs }, inReclaimOrder rows)

/-- The jobs of one state that a reclaim reports. -/
def reclaimGroup (jobs : List ReclaimRow) (state : JobState) : List String :=
  (jobs.filter fun j => decide (j.state = state)).map ReclaimRow.id

/-- The columns that the sweep writes on a stale stub. -/
def crashUpdate (now : Time) (state : JobState) : Patch JobRunRow.id where
  apply run := { run with outcome := .crashed, finishedAt := some now, jobState := some state }
  key_apply _ := rfl

/-- The stubs that one statement of `crashStaleStubs` matches: those of the group's jobs, at the
job's attempt, still started. -/
def stubOfGroup (group : List String) (db : Db) (run : JobRunRow) : Bool :=
  (db.jobs.rows.any fun j =>
    group.contains j.id && decide (run.jobID = j.id) && decide (run.attempt = j.attempt)) &&
    decide (run.outcome = .started)

/-- `crashStaleStubs` on PostgreSQL, for the jobs of one state: the UPDATE and the log's INSERT, in
one statement. -/
def crashGroupPostgres (jobs : List ReclaimRow) (now : Time) (state : JobState) (db : Db) :
    Db × List JobRunRow :=
  let group := reclaimGroup jobs state
  let stubs := db.runs.rows.filter (stubOfGroup group db)
  (logFinishes (stubs.map JobRunRow.id)
    { db with runs := db.runs.update (stubOfGroup group db) (crashUpdate now state) }, stubs)

/-- `crashStaleStubs` on PostgreSQL: a statement for each state, with the stubs that they
returned. -/
def crashStaleStubsPostgres (jobs : List ReclaimRow) (now : Time) (db : Db) : Db × List JobRunRow :=
  let (db, returned) := crashGroupPostgres jobs now .available db
  let (db, discarded) := crashGroupPostgres jobs now .discarded db
  (db, returned ++ discarded)

/-! ## SQLite -/

/-- `earlierCrashes`: the grouped count, which is read only under a crash budget. -/
def earlierCrashesSQLite (opts : DriverOpts) (ids : List String) (db : Db) (id : String) : ℤ :=
  if opts.maxCrashes ≤ 0 then 0
  else (db.runs.rows.countP fun run =>
    ids.contains run.jobID && run.crashedRun && decide (run.jobID = id) : ℕ)

/-- The columns of `reclaimUpdate`. -/
def reclaimUpdateSQLite (now : Time) : Patch JobRow.id where
  apply r :=
    { r with state := .available, leasedUntil := none, leaseToken := none, updatedAt := now }
  key_apply _ := rfl

/-- The columns of `reclaimDiscardUpdate`. -/
def reclaimDiscardUpdateSQLite (now : Time) : Patch JobRow.id where
  apply r :=
    { r with state := .discarded, finalizedAt := some now, leasedUntil := none, leaseToken := none
             updatedAt := now }
  key_apply _ := rfl

/-- `sqliteDriver.reclaimExpired`: the select, the crash count, and one update for each state. -/
def reclaimExpiredSQLite (scan : Scan) (opts : DriverOpts) (now : Time) (limit : ℕ) (db : Db) :
    Db × List ReclaimRow :=
  let rows := (scan.expired .sqlite now db.jobs.rows).take limit
  let crashes := earlierCrashesSQLite opts (rows.map JobRow.id) db
  let spent := fun r : JobRow =>
    spentAttempts r.attempt r.maxAttempts || crashBudgetSpent (crashes r.id) opts.maxCrashes
  let marked := rows.map fun r =>
    r.reclaimed (if spent r then .discarded else .available) r.leasedUntil
  let discard := (rows.filter spent).map JobRow.id
  let available := (rows.filter fun r => !spent r).map JobRow.id
  let jobs := db.jobs.update (fun r => r.visible && discard.contains r.id)
    (reclaimDiscardUpdateSQLite now)
  let jobs := jobs.update (fun r => r.visible && available.contains r.id) (reclaimUpdateSQLite now)
  ({ db with jobs }, inReclaimOrder marked)

/-- The job of a batch under an id. -/
def reclaimByID (jobs : List ReclaimRow) (id : String) : Option ReclaimRow :=
  jobs.find? fun j => decide (j.id = id)

/-- The stubs that SQLite crashes: those of the batch's jobs that read started, each kept when it is
at its job's attempt. -/
def stubsSQLite (jobs : List ReclaimRow) (db : Db) : List JobRunRow :=
  let started := db.runs.rows.filter fun run =>
    (jobs.map ReclaimRow.id).contains run.jobID && decide (run.outcome = .started)
  started.filter fun run =>
    (reclaimByID jobs run.jobID).any fun j => decide (run.attempt = j.attempt)

/-- The stubs of the jobs that the reclaim gave one state, by their ids. -/
def stubGroupSQLite (jobs : List ReclaimRow) (db : Db) (state : JobState) : List String :=
  ((stubsSQLite jobs db).filter fun run =>
    (reclaimByID jobs run.jobID).any fun j => decide (j.state = state)).map JobRunRow.id

/-- `crashStaleStubsSQLite`: an update for each state, and then the log's INSERT. -/
def crashStaleStubsSQLite (jobs : List ReclaimRow) (now : Time) (db : Db) : Db × List JobRunRow :=
  let crash := fun state (runs : Table JobRunRow.id) =>
    runs.update (fun run => (stubGroupSQLite jobs db state).contains run.id) (crashUpdate now state)
  (logFinishes ((stubsSQLite jobs db).map JobRunRow.id)
    { db with runs := crash .discarded (crash .available db.runs) }, stubsSQLite jobs db)

/-! ## The batch -/

/-- A dialect's reclaim. -/
def reclaimExpired (dialect : Dialect) (scan : Scan) (opts : DriverOpts) (now : Time) (limit : ℕ)
    (db : Db) : Db × List ReclaimRow :=
  match dialect with
  | .postgres => reclaimExpiredPostgres scan opts now limit db
  | .sqlite => reclaimExpiredSQLite scan opts now limit db

/-- A dialect's stub update. -/
def crashStubs (dialect : Dialect) (jobs : List ReclaimRow) (now : Time) (db : Db) :
    Db × List JobRunRow :=
  match dialect with
  | .postgres => crashStaleStubsPostgres jobs now db
  | .sqlite => crashStaleStubsSQLite jobs now db

/-- The report of a reclaimed job, with the run that `crashStaleStubs` returned for it. -/
def ReclaimRow.report (stubs : List JobRunRow) (j : ReclaimRow) : ReclaimedJob :=
  { id := j.id, state := j.state, kind := j.kind, queue := j.queue, attempt := j.attempt
    maxAttempts := j.maxAttempts, parentJobID := j.parentJobID
    runID := (lastWith (fun run => decide (run.jobID = j.id)) stubs).map JobRunRow.id }

/-- `sweepBatch`, over the dialect's own statements. -/
def sweepBatchOn (dialect : Dialect) (scan : Scan) (opts : DriverOpts) (ctx : Context) (now : Time)
    (limit : ℕ) (db : Db) : Except TxError (Commit (List ReclaimedJob)) :=
  let (mid, jobs) := reclaimExpired dialect scan opts now limit db
  if jobs = [] then .ok { db := mid, out := [] }
  else do
    let (mid, stubs) := crashStubs dialect jobs now mid
    let out := jobs.map (ReclaimRow.report stubs)
    let (db, fires) ← fireEach ctx 0 (discardedParents out) mid
    return { db, out, fires }

/-! ## Databases up to the order of the finish log -/

/-- The same rows in every table, those of the finish log in any order. -/
structure Db.SameRows (a b : Db) : Prop where
  finishes : a.finishes.Perm b.finishes
  rest : b = { a with finishes := b.finishes }

theorem Db.SameRows.refl (a : Db) : a.SameRows a := ⟨.refl _, rfl⟩

theorem Db.SameRows.symm {a b : Db} (h : a.SameRows b) : b.SameRows a :=
  ⟨h.finishes.symm, by rw [h.rest]⟩

theorem Db.SameRows.trans {a b c : Db} (h : a.SameRows b) (h' : b.SameRows c) : a.SameRows c :=
  ⟨h.finishes.trans h'.finishes, by rw [h'.rest, h.rest]⟩

/-! ## The reclaims -/

/-- The state that a reclaim gives an expired row. -/
def reclaimState (opts : DriverOpts) (db : Db) (r : JobRow) : JobState :=
  if reclaimSpent opts db r then .discarded else .available

/-- The reclaim's row of an expired lease. -/
def reclaimMark (opts : DriverOpts) (db : Db) (r : JobRow) : ReclaimRow :=
  r.reclaimed (reclaimState opts db r) r.leasedUntil

theorem inReclaimOrder_mark (opts : DriverOpts) (db : Db) (rows : List JobRow) :
    inReclaimOrder (rows.map (reclaimMark opts db)) =
      (rows.insertionSort reclaimOrder).map (reclaimMark opts db) :=
  (map_insertionSort reclaimOrder ReclaimRow.before (reclaimMark opts db) rows
    fun _ _ _ _ => Iff.rfl).symm

theorem reclaimOrder_total (a b : JobRow) : reclaimOrder a b ∨ reclaimOrder b a := by
  unfold reclaimOrder
  grind

theorem reclaimOrder_trans {a b c : JobRow} (h : reclaimOrder a b) (h' : reclaimOrder b c) :
    reclaimOrder a c := by
  unfold reclaimOrder at *
  grind

variable {db : Db} {r : JobRow} {rows : List JobRow}

/-- Stored rows have one reclaim order, since no two share an id. -/
theorem insertionSort_reclaimOrder_eq {jobs : Table JobRow.id} {rows' : List JobRow}
    (hstored : ∀ r ∈ rows, r ∈ jobs.rows) (hperm : rows.Perm rows') :
    rows.insertionSort reclaimOrder = rows'.insertionSort reclaimOrder := by
  have : Std.Total reclaimOrder := ⟨reclaimOrder_total⟩
  have : IsTrans JobRow reclaimOrder := ⟨fun _ _ _ => reclaimOrder_trans⟩
  have hsorted := ((perm_insertionSort reclaimOrder rows).trans hperm).trans
    (perm_insertionSort reclaimOrder rows').symm
  refine hsorted.eq_of_pairwise ?_ (pairwise_insertionSort reclaimOrder rows)
    (pairwise_insertionSort reclaimOrder rows')
  intro a b ha hb hab hba
  rw [mem_insertionSort] at ha hb
  grind [eq_of_key_eq, reclaimOrder]

/-- SQLite's batch takes the oldest expired leases. -/
theorem expiredRows_sqlite (scan : Scan) (now : Time) (limit : ℕ) (db : Db) :
    expiredRows .sqlite scan now limit db = (scan.expired .sqlite now db.jobs.rows).take limit :=
  congrArg (List.take limit) (filter_eq_self.mpr fun _ _ => rfl)

/-- The grouped count decides a crash budget as the count of one job's runs does. -/
theorem crashBudgetSpent_earlierCrashesSQLite (opts : DriverOpts) {ids : List String} (db : Db)
    {id : String} (hid : id ∈ ids) :
    crashBudgetSpent (earlierCrashesSQLite opts ids db id) opts.maxCrashes =
      crashBudgetSpent (earlierCrashes db id) opts.maxCrashes := by
  by_cases hmax : opts.maxCrashes ≤ 0
  · -- without a budget the count is not read
    grind [crashBudgetSpent]
  · have hcount : earlierCrashesSQLite opts ids db id = earlierCrashes db id := by
      unfold earlierCrashesSQLite earlierCrashes
      grind
    rw [hcount]

/-- SQLite's two updates write a batch's rows as one does. -/
theorem reclaim_groups {opts : DriverOpts} {spent : JobRow → Bool} (now : Time)
    (hstored : ∀ r ∈ rows, r ∈ db.jobs.rows) (hvisible : ∀ r ∈ rows, r.visible = true)
    (hspent : ∀ r ∈ rows, spent r = reclaimSpent opts db r) :
    (db.jobs.update (fun r => r.visible && ((rows.filter spent).map JobRow.id).contains r.id)
      (reclaimDiscardUpdateSQLite now)).update
      (fun r => r.visible && ((rows.filter fun r => !spent r).map JobRow.id).contains r.id)
      (reclaimUpdateSQLite now) = (reclaimRows opts now rows db).jobs := by
  refine update_update fun r hr => ?_
  -- naming stored rows by their ids picks those rows
  have hpick : ∀ p : JobRow → Bool,
      ((rows.filter p).map JobRow.id).contains r.id = true ↔ r ∈ rows ∧ p r = true := by
    intro p
    rw [← mem_filter]
    exact contains_key_iff (fun s hs => hstored s (mem_filter.mp hs).1) hr
  have hrows : (rows.map JobRow.id).contains r.id = true ↔ r ∈ rows := contains_key_iff hstored hr
  by_cases hmem : r ∈ rows
  · have hvis := hvisible r hmem
    have hd : ((rows.filter spent).map JobRow.id).contains r.id = spent r :=
      Bool.eq_iff_iff.mpr ((hpick _).trans (and_iff_right hmem))
    have ha : ((rows.filter fun r => !spent r).map JobRow.id).contains r.id = !spent r :=
      Bool.eq_iff_iff.mpr ((hpick _).trans (and_iff_right hmem))
    rw [if_pos (hrows.mpr hmem), hd, hvis, Bool.true_and]
    rw [hspent r hmem] at ha ⊢
    cases hs : reclaimSpent opts db r with
    | true =>
      rw [if_pos rfl, if_neg]
      · simp [reclaimUpdate, reclaimDiscardUpdateSQLite, hs]
      · simp only [reclaimDiscardUpdateSQLite, ha, hs, Bool.not_true, Bool.and_false,
          Bool.false_eq_true, not_false_eq_true]
    | false => simp_all [reclaimUpdate, reclaimUpdateSQLite]
  · grind

/-- SQLite's updates write a batch's rows as one update does. -/
theorem reclaimExpiredSQLite_eq (scan : Scan) (opts : DriverOpts) (now : Time) (limit : ℕ)
    (db : Db) :
    reclaimExpiredSQLite scan opts now limit db =
      (reclaimRows opts now (expiredRows .sqlite scan now limit db) db,
        ((expiredRows .sqlite scan now limit db).insertionSort reclaimOrder).map
          (reclaimMark opts db)) := by
  have hmem := fun r (hr : r ∈ expiredRows .sqlite scan now limit db) => mem_expiredRows hr
  unfold reclaimExpiredSQLite
  rw [← expiredRows_sqlite]
  generalize expiredRows .sqlite scan now limit db = rows at hmem
  have hspent : ∀ r ∈ rows, (spentAttempts r.attempt r.maxAttempts ||
      crashBudgetSpent (earlierCrashesSQLite opts (rows.map JobRow.id) db r.id) opts.maxCrashes) =
        reclaimSpent opts db r := by
    intro r hr
    rw [crashBudgetSpent_earlierCrashesSQLite opts db (mem_map_of_mem hr)]
    rfl
  have hvisible : ∀ r ∈ rows, r.visible = true := fun r hr => by
    simp_all [JobRow.expired]
  dsimp only
  rw [reclaim_groups now (fun r hr => (hmem r hr).1) hvisible hspent,
    map_congr_left (g := reclaimMark opts db) fun r hr => by simp [hspent r hr]; rfl,
    inReclaimOrder_mark]
  rfl

/-- The CTE's expression is the budget rule of SQLite's code. -/
theorem spentPostgres_eq (opts : DriverOpts) (db : Db) (r : JobRow) :
    spentPostgres opts db r = reclaimSpent opts db r := by
  unfold spentPostgres reclaimSpent spentAttempts crashBudgetSpent earlierCrashes
  grind

/-- The row of the CTE for an expired lease. -/
def expiredRow (opts : DriverOpts) (db : Db) (r : JobRow) : ExpiredRow :=
  { id := r.id, leasedUntil := r.leasedUntil, spent := spentPostgres opts db r }

section Batch

variable (opts : DriverOpts) (now : Time) (hstored : ∀ r ∈ rows, r ∈ db.jobs.rows)

include hstored

theorem expiredRowOf_mem {s : JobRow} (hr : r ∈ rows) (hs : s.id = r.id) :
    expiredRowOf (rows.map (expiredRow opts db)) s = some (expiredRow opts db r) := by
  unfold expiredRowOf
  rw [find?_map, hs]
  exact congrArg (Option.map (expiredRow opts db)) (find?_key_of_mem hstored hr)

theorem expiredRowOf_not_mem (hr : r ∈ db.jobs.rows) (hmem : r ∉ rows) :
    expiredRowOf (rows.map (expiredRow opts db)) r = none := by
  refine find?_eq_none.mpr fun e he heq => hmem ?_
  obtain ⟨s, hs, rfl⟩ := mem_map.mp he
  rwa [← eq_of_key_eq (hstored s hs) hr (of_decide_eq_true heq)]

theorem reclaimPostgres_jobs :
    db.jobs.update (fun r => (expiredRowOf (rows.map (expiredRow opts db)) r).isSome)
      (reclaimPostgres (rows.map (expiredRow opts db)) now) =
        (reclaimRows opts now rows db).jobs := by
  refine update_congr fun r hr => ?_
  have hrows : (rows.map JobRow.id).contains r.id = true ↔ r ∈ rows := contains_key_iff hstored hr
  by_cases hmem : r ∈ rows
  · have hrow := expiredRowOf_mem opts hstored hmem rfl
    simp_all [reclaimPostgres, reclaimUpdate, expiredRow, spentPostgres_eq]
  · simp_all [expiredRowOf_not_mem]

theorem reclaimPostgres_returning : ((reclaimRows opts now rows db).jobs.rows.filterMap fun r =>
      (expiredRowOf (rows.map (expiredRow opts db)) r).map fun e =>
        r.reclaimed r.state e.leasedUntil) =
      (db.jobs.rows.filter fun r => (rows.map JobRow.id).contains r.id).map
        (reclaimMark opts db) := by
  change (db.jobs.rows.map _).filterMap _ = _
  rw [filterMap_map, ← congrFun (filterMap_eq_map (f := reclaimMark opts db)) (List.filter _ _),
    filterMap_filter]
  refine filterMap_congr fun r hr => ?_
  have hrows : (rows.map JobRow.id).contains r.id = true ↔ r ∈ rows := contains_key_iff hstored hr
  by_cases hmem : r ∈ rows
  · have hkey := (reclaimUpdate opts now db).key_apply r
    rw [Function.comp_apply, if_pos (hrows.mpr hmem), if_pos (hrows.mpr hmem),
      expiredRowOf_mem opts hstored hmem hkey]
    rfl
  · simp_all [if_neg, expiredRowOf_not_mem]

end Batch

variable (dialect : Dialect)

theorem expiredRows_nodup (scan : Scan) (now : Time) (limit : ℕ) (db : Db) :
    (expiredRows dialect scan now limit db).Nodup := by
  refine Nodup.sublist ((take_sublist _ _).trans filter_sublist) ?_
  refine (perm_insertionSort (expiresBefore (dialect.sorts scan.zone) scan.rank) _).nodup_iff.mpr ?_
  exact (Nodup.of_map _ db.jobs.nodup).filter _

/-- PostgreSQL's statement writes and reports a batch as SQLite's do. -/
theorem reclaimExpiredPostgres_eq (scan : Scan) (opts : DriverOpts) (now : Time) (limit : ℕ)
    (db : Db) :
    reclaimExpiredPostgres scan opts now limit db =
      (reclaimRows opts now (expiredRows .postgres scan now limit db) db,
        ((expiredRows .postgres scan now limit db).insertionSort reclaimOrder).map
          (reclaimMark opts db)) := by
  have hnodup := expiredRows_nodup .postgres scan now limit db
  have hexpired : expiredPostgres scan opts now limit db =
      (expiredRows .postgres scan now limit db).map (expiredRow opts db) := rfl
  have hstored : ∀ r ∈ expiredRows .postgres scan now limit db, r ∈ db.jobs.rows :=
    fun r hr => (mem_expiredRows hr).1
  unfold reclaimExpiredPostgres
  rw [hexpired]
  generalize expiredRows .postgres scan now limit db = rows at hnodup hstored
  have hperm : (db.jobs.rows.filter fun r => (rows.map JobRow.id).contains r.id).Perm rows := by
    rw [perm_ext_iff_of_nodup ((Nodup.of_map _ db.jobs.nodup).filter _) hnodup]
    grind [contains_key_iff]
  dsimp only
  rw [reclaimPostgres_jobs opts now hstored, reclaimPostgres_returning opts now hstored,
    inReclaimOrder_mark, insertionSort_reclaimOrder_eq (fun r hr => (mem_filter.mp hr).1) hperm]
  rfl

/-- A dialect's reclaim writes and reports the rows of its batch. -/
theorem reclaimExpired_eq (scan : Scan) (opts : DriverOpts) (now : Time) (limit : ℕ) (db : Db) :
    reclaimExpired dialect scan opts now limit db =
      (reclaimRows opts now (expiredRows dialect scan now limit db) db,
        ((expiredRows dialect scan now limit db).insertionSort reclaimOrder).map
          (reclaimMark opts db)) := by
  cases dialect with
  | postgres => exact reclaimExpiredPostgres_eq scan opts now limit db
  | sqlite => exact reclaimExpiredSQLite_eq scan opts now limit db

/-! ## The stale stubs -/

/-- A run is the stub that the reclaim of some row of the batch leaves stale, with the state that
the reclaim gave the row. -/
def StaleStub (opts : DriverOpts) (db : Db) (rows : List JobRow) (state : JobState)
    (run : JobRunRow) : Prop :=
  run.outcome = .started ∧
    ∃ r ∈ rows, run.jobID = r.id ∧ run.attempt = r.attempt ∧ reclaimState opts db r = state

/-- The stub of a row's attempt, still started: the last one, as a map built from them in turn
keeps. -/
def stubID (db : Db) (r : JobRow) : Option String :=
  (lastWith (fun run : JobRunRow =>
    decide (run.jobID = r.id ∧ run.attempt = r.attempt ∧ run.outcome = .started)) db.runs.rows).map
      JobRunRow.id

/-- `SweptJob`: the report of a reclaimed row. -/
def sweptJob (opts : DriverOpts) (db : Db) (r : JobRow) : ReclaimedJob :=
  { reclaimedJob opts db r with runID := stubID db r }

section Stubs

variable {opts : DriverOpts} {db : Db} {rows : List JobRow} {now : Time}

theorem reclaimState_cases (opts : DriverOpts) (db : Db) (r : JobRow) :
    reclaimState opts db r = .available ∨ reclaimState opts db r = .discarded := by
  unfold reclaimState
  simp_all

variable {mid : Db} {r : JobRow} {run : JobRunRow} {p q : JobRunRow → Bool} {s : JobState}
  {α : Type}

theorem staleStub_states : (∃ s, StaleStub opts db rows s run) ↔
    StaleStub opts db rows .available run ∨ StaleStub opts db rows .discarded run := by
  constructor
  · rintro ⟨_, hout, r, hr, hjob, hattempt, rfl⟩
    rcases reclaimState_cases opts db r with hs | hs
    · exact .inl ⟨hout, r, hr, hjob, hattempt, hs⟩
    · exact .inr ⟨hout, r, hr, hjob, hattempt, hs⟩
  · rintro (h | h) <;> exact ⟨_, h⟩

theorem mem_finishEntries_update {runs : Table JobRunRow.id} {upd : Patch JobRunRow.id}
    (hfinish : ∀ run, (upd.apply run).finishedAt = some now) {e : FinishRow} :
    e ∈ finishEntries ((runs.rows.filter p).map JobRunRow.id) (runs.update p upd) ↔
      ∃ run ∈ runs.rows.filter p, e = { finishedAt := now, runID := run.id } := by
  rw [mem_finishEntries]
  constructor
  · rintro ⟨hid, run', hget, ht⟩
    obtain ⟨run, hpick, hkey⟩ := mem_map.mp hid
    obtain ⟨hrun, hp⟩ := mem_filter.mp hpick
    rw [get?_update, ← hkey, get?_key hrun, Option.map_some, if_pos hp, Option.some_inj] at hget
    subst hget
    rw [hfinish, Option.some_inj] at ht
    refine ⟨run, hpick, ?_⟩
    rw [ht, hkey]
  · rintro ⟨run, hpick, rfl⟩
    obtain ⟨hrun, hp⟩ := mem_filter.mp hpick
    refine ⟨mem_map_of_mem hpick, upd.apply run, ?_, hfinish run⟩
    rw [get?_update, get?_key hrun, Option.map_some, if_pos hp]

theorem append_new_perm [DecidableEq α] {log new₁ new₂ new : List α} (h₁ : new₁.Nodup)
    (h₂ : new₂.Nodup) (h : new.Nodup) (hmem : ∀ e, e ∈ new ↔ e ∈ new₁ ∨ e ∈ new₂) :
    (log ++ new.filter (fun e => e ∉ log)).Perm ((log ++ new₁.filter (fun e => e ∉ log)) ++
        new₂.filter fun e => e ∉ log ++ new₁.filter fun e => e ∉ log) := by
  rw [append_assoc, perm_append_left_iff]
  have hapart : List.Disjoint (new₁.filter fun e => e ∉ log)
      (new₂.filter fun e => e ∉ log ++ new₁.filter fun e => e ∉ log) := by
    intro e he₁ he₂
    simp_all
  rw [perm_ext_iff_of_nodup (h.filter _) ((h₁.filter _).append (h₂.filter _) hapart)]
  grind

theorem lastWith_filter {p q c : α → Bool} {xs : List α}
    (h : ∀ x ∈ xs, (q x = true ∧ p x = true) ↔ c x = true) :
    lastWith p (xs.filter q) = lastWith c xs := by
  unfold lastWith
  rw [← filter_reverse, find?_filter]
  refine find?_congr fun x hx => ?_
  simp_all

theorem lastWith_append (p : α → Bool) (xs ys : List α) :
    lastWith p (xs ++ ys) = (lastWith p ys).or (lastWith p xs) := by
  unfold lastWith
  rw [reverse_append, find?_append]

theorem lastWith_false (xs : List α) : lastWith (fun _ => false) xs = none := by
  simp [lastWith]

variable (hstored : ∀ r ∈ rows, r ∈ db.jobs.rows)

include hstored

theorem StaleStub.unique {s' : JobState} (h : StaleStub opts db rows s run)
    (h' : StaleStub opts db rows s' run) : s = s' := by
  obtain ⟨-, r, hr, hjob, -, rfl⟩ := h
  obtain ⟨-, r', hr', hjob', -, rfl⟩ := h'
  rw [eq_of_key_eq (hstored r hr) (hstored r' hr') (hjob.symm.trans hjob')]

/-- The report whose stub a run is, by the state that the reclaim gave. -/
theorem staleStubOf_state :
    (staleStubOf (rows.map (reclaimedJob opts db)) run).map ReclaimedJob.state = some s ↔
      StaleStub opts db rows s run := by
  constructor
  · intro h
    obtain ⟨j, hj, rfl⟩ := Option.map_eq_some_iff.mp h
    obtain ⟨r, hr, rfl⟩ := mem_map.mp (mem_of_find?_eq_some hj)
    have hmatch := find?_some hj
    rw [decide_eq_true_eq] at hmatch
    exact ⟨hmatch.2.2, r, hr, hmatch.1, hmatch.2.1, rfl⟩
  · intro h
    cases hj : staleStubOf (rows.map (reclaimedJob opts db)) run with
    | none =>
      obtain ⟨hout, r, hr, hjob, hattempt, -⟩ := h
      have := find?_eq_none.mp hj (reclaimedJob opts db r) (mem_map_of_mem hr)
      exact absurd (decide_eq_true ⟨hjob, hattempt, hout⟩) this
    | some j =>
      obtain ⟨r, hr, rfl⟩ := mem_map.mp (mem_of_find?_eq_some hj)
      have hmatch := find?_some hj
      rw [decide_eq_true_eq] at hmatch
      have hown : StaleStub opts db rows (reclaimState opts db r) run :=
        ⟨hmatch.2.2, r, hr, hmatch.1, hmatch.2.1, rfl⟩
      exact congrArg some (hown.unique hstored h)

theorem staleStubOf_isSome : (staleStubOf (rows.map (reclaimedJob opts db)) run).isSome = true ↔
      ∃ s, StaleStub opts db rows s run := by
  rw [← Option.isSome_map (f := ReclaimedJob.state), Option.isSome_iff_exists]
  exact exists_congr fun s => staleStubOf_state hstored

theorem crash_groups
    (hp : ∀ run ∈ mid.runs.rows, p run = true ↔ StaleStub opts db rows .available run)
    (hq : ∀ run ∈ mid.runs.rows,
      q (if p run then (crashUpdate now .available).apply run else run) = true ↔
        StaleStub opts db rows .discarded run) :
    (mid.runs.update p (crashUpdate now .available)).update q (crashUpdate now .discarded) =
      (crashStaleStubs (rows.map (reclaimedJob opts db)) now mid).runs := by
  refine update_update fun run hrun => ?_
  have hp := (hp run hrun).trans (staleStubOf_state hstored).symm
  have hq := (hq run hrun).trans (staleStubOf_state hstored).symm
  cases hstub : staleStubOf (rows.map (reclaimedJob opts db)) run with
  | none => simp_all
  | some j =>
    obtain ⟨r, -, rfl⟩ := mem_map.mp (mem_of_find?_eq_some hstub)
    rcases reclaimState_cases opts db r with hs | hs <;>
      simp_all [crashUpdate, reclaimState, reclaimedJob]

/-- PostgreSQL's join finds the stubs of one state. -/
theorem stubOfGroup_iff {all : List JobRow} (hmid : mid.jobs = (reclaimRows opts now all db).jobs) :
    stubOfGroup (reclaimGroup (rows.map (reclaimMark opts db)) s) mid run = true ↔
      StaleStub opts db rows s run := by
  have hgroup : ∀ id, (reclaimGroup (rows.map (reclaimMark opts db)) s).contains id = true ↔
      ∃ r ∈ rows, reclaimState opts db r = s ∧ r.id = id := by
    intro id
    rw [contains_iff_mem]
    simp only [reclaimGroup, mem_map, mem_filter, decide_eq_true_eq]
    constructor
    · rintro ⟨_, ⟨⟨r, hr, rfl⟩, hs⟩, rfl⟩
      exact ⟨r, hr, hs, rfl⟩
    · rintro ⟨r, hr, hs, rfl⟩
      exact ⟨_, ⟨⟨r, hr, rfl⟩, hs⟩, rfl⟩
  -- the reclaim left every row its id and its attempt
  have hkept : ∀ j ∈ mid.jobs.rows, ∃ r ∈ db.jobs.rows, r.id = j.id ∧ r.attempt = j.attempt := by
    intro j hj
    rw [hmid] at hj
    obtain ⟨r, hr, rfl⟩ := mem_map.mp hj
    refine ⟨r, hr, ?_⟩
    split_ifs <;> exact ⟨rfl, rfl⟩
  have hafter : ∀ r ∈ db.jobs.rows, ∃ j ∈ mid.jobs.rows, j.id = r.id ∧ j.attempt = r.attempt := by
    intro r hr
    refine ⟨_, by rw [hmid]; exact mem_map_of_mem hr, ?_⟩
    split_ifs <;> exact ⟨rfl, rfl⟩
  rw [stubOfGroup, Bool.and_eq_true, decide_eq_true_eq, any_eq_true]
  simp only [Bool.and_eq_true, decide_eq_true_eq, hgroup]
  constructor
  · rintro ⟨⟨j, hj, ⟨⟨r, hr, hs, hid⟩, hjob⟩, hattempt⟩, hout⟩
    obtain ⟨r', hr', hid', hattempt'⟩ := hkept j hj
    obtain rfl := eq_of_key_eq (hstored r hr) hr' (hid.trans hid'.symm)
    exact ⟨hout, r, hr, hjob.trans hid.symm, hattempt.trans hattempt'.symm, hs⟩
  · rintro ⟨hout, r, hr, hjob, hattempt, hs⟩
    grind

section States

variable (hp : ∀ run, p run = true ↔ StaleStub opts db rows .available run)
  (hq : ∀ run, q run = true ↔ StaleStub opts db rows .discarded run)

include hp hq

theorem later_stub (run : JobRunRow) :
    q (if p run then (crashUpdate now .available).apply run else run) = q run ∧
      (q run = true → (if p run then (crashUpdate now .available).apply run else run) = run) := by
  split_ifs with hrun
  · -- a stub that the first statement crashed reads started no more
    have hcrashed : q ((crashUpdate now .available).apply run) = false :=
      Bool.eq_false_iff.mpr fun h => RunOutcome.noConfusion ((hq _).mp h).1
    have hnot : q run = false := Bool.eq_false_iff.mpr fun h =>
      JobState.noConfusion (((hp run).mp hrun).unique hstored ((hq run).mp h))
    simp [hcrashed, hnot]
  · simp

theorem second_stubs (mid : Db) :
    (mid.runs.update p (crashUpdate now .available)).rows.filter q = mid.runs.rows.filter q := by
  have hlater : (q ∘ fun run => if p run then (crashUpdate now .available).apply run else run) =
    q :=
    funext fun run => (later_stub hstored hp hq run).1
  change (mid.runs.rows.map _).filter q = _
  rw [filter_map, hlater]
  refine (map_congr_left fun run hrun => ?_).trans (map_id _)
  exact (later_stub hstored hp hq run).2 (mem_filter.mp hrun).2

/-- A statement for each state, which crashes the state's stubs and logs them, crashes the batch's
stubs. -/
theorem crash_statements_same (mid : Db) :
    (crashStaleStubs (rows.map (reclaimedJob opts db)) now mid).SameRows
      (logFinishes (((mid.runs.update p (crashUpdate now .available)).rows.filter q).map
        JobRunRow.id)
        { logFinishes ((mid.runs.rows.filter p).map JobRunRow.id)
            { mid with runs := mid.runs.update p (crashUpdate now .available) } with
          runs := (mid.runs.update p (crashUpdate now .available)).update q
            (crashUpdate now .discarded) }) := by
  have hruns : (mid.runs.update p (crashUpdate now .available)).update q
    (crashUpdate now .discarded) =
      (crashStaleStubs (rows.map (reclaimedJob opts db)) now mid).runs :=
    crash_groups hstored (fun run _ => hp run) fun run _ => by
      rw [(later_stub hstored hp hq run).1, hq]
  refine ⟨?_, ?_⟩
  · refine append_new_perm (finishEntries_nodup _ _) (finishEntries_nodup _ _)
      (finishEntries_nodup _ _) fun e => ?_
    refine (mem_finishEntries_update fun _ => rfl).trans ?_
    refine Iff.trans ?_ (or_congr (mem_finishEntries_update fun _ => rfl)
      (mem_finishEntries_update fun _ => rfl)).symm
    rw [second_stubs hstored hp hq mid]
    simp only [mem_filter, staleStubOf_isSome hstored, staleStub_states, hp, hq, and_or_left,
      or_and_right, exists_or]
  · rw [hruns]
    rfl

end States

theorem crashStaleStubsPostgres_same (all : List JobRow) :
    (crashStaleStubs (rows.map (reclaimedJob opts db)) now (reclaimRows opts now all db)).SameRows
      (crashStaleStubsPostgres (rows.map (reclaimMark opts db)) now
        (reclaimRows opts now all db)).1 :=
  crash_statements_same hstored (fun _ => stubOfGroup_iff hstored rfl)
    (fun _ => stubOfGroup_iff hstored rfl) (reclaimRows opts now all db)

theorem reclaimByID_mem (hr : r ∈ rows) :
    reclaimByID (rows.map (reclaimMark opts db)) r.id = some (reclaimMark opts db r) := by
  unfold reclaimByID
  rw [find?_map]
  exact congrArg (Option.map (reclaimMark opts db)) (find?_key_of_mem hstored hr)

/-- SQLite keeps the batch's stale stubs. -/
theorem stubsSQLite_eq (mid : Db) : stubsSQLite (rows.map (reclaimMark opts db)) mid =
      mid.runs.rows.filter fun run =>
        (staleStubOf (rows.map (reclaimedJob opts db)) run).isSome := by
  unfold stubsSQLite
  rw [filter_filter]
  refine filter_congr fun run _ => ?_
  rw [Bool.eq_iff_iff, staleStubOf_isSome hstored]
  simp only [Bool.and_eq_true, contains_iff_mem, mem_map, decide_eq_true_eq, Option.any_eq_true]
  constructor
  · rintro ⟨⟨j, hj, hattempt⟩, ⟨_, ⟨r, hr, rfl⟩, hjob⟩, hout⟩
    rw [← hjob, show (reclaimMark opts db r).id = r.id from rfl, reclaimByID_mem hstored hr,
      Option.some_inj] at hj
    subst hj
    exact ⟨_, hout, r, hr, hjob.symm, hattempt, rfl⟩
  · rintro ⟨_, hout, r, hr, hjob, hattempt, -⟩
    exact ⟨⟨_, by rw [hjob]; exact reclaimByID_mem hstored hr, hattempt⟩,
      ⟨_, ⟨r, hr, rfl⟩, hjob.symm⟩, hout⟩

theorem stubGroupSQLite_iff (hrun : run ∈ mid.runs.rows) :
    (stubGroupSQLite (rows.map (reclaimMark opts db)) mid s).contains run.id = true ↔
      StaleStub opts db rows s run := by
  have hsub : ∀ run' ∈ (stubsSQLite (rows.map (reclaimMark opts db)) mid).filter (fun run =>
      (reclaimByID (rows.map (reclaimMark opts db)) run.jobID).any fun j => decide (j.state = s)),
      run' ∈ mid.runs.rows := by
    simp_all [stubsSQLite_eq]
  refine (contains_key_iff hsub hrun).trans ?_
  rw [mem_filter, stubsSQLite_eq hstored, mem_filter, staleStubOf_isSome hstored]
  -- the batch's job under the run's job id is the row whose stub the run is
  have hjob : ∀ s', StaleStub opts db rows s' run →
      (((reclaimByID (rows.map (reclaimMark opts db)) run.jobID).any fun j =>
        decide (j.state = s)) =
        true ↔ s' = s) := by
    rintro s' ⟨-, r, hr, hid, -, rfl⟩
    rw [hid, reclaimByID_mem hstored hr]
    simp [reclaimMark, JobRow.reclaimed]
  constructor
  · grind
  · intro h
    exact ⟨⟨hrun, s, h⟩, (hjob s h).mpr rfl⟩

/-- SQLite's updates crash the batch's stubs. -/
theorem crashStaleStubsSQLite_eq (mid : Db) :
    (crashStaleStubsSQLite (rows.map (reclaimMark opts db)) now mid).1 =
      crashStaleStubs (rows.map (reclaimedJob opts db)) now mid := by
  have hruns : (mid.runs.update
      (fun run => (stubGroupSQLite (rows.map (reclaimMark opts db)) mid .available).contains run.id)
      (crashUpdate now .available)).update
      (fun run => (stubGroupSQLite (rows.map (reclaimMark opts db)) mid .discarded).contains run.id)
      (crashUpdate now .discarded) =
        (crashStaleStubs (rows.map (reclaimedJob opts db)) now mid).runs := by
    refine crash_groups hstored (fun run hrun => stubGroupSQLite_iff hstored hrun) fun run hrun =>
      ?_
    rw [← stubGroupSQLite_iff hstored hrun]
    split_ifs <;> rfl
  unfold crashStaleStubsSQLite
  dsimp only
  rw [stubsSQLite_eq hstored, hruns]
  rfl

/-! ## The reports -/

theorem StaleStub.of_row (hr : r ∈ rows) : (StaleStub opts db rows s run ∧ run.jobID = r.id) ↔
      (run.jobID = r.id ∧ run.attempt = r.attempt ∧ run.outcome = .started) ∧
        reclaimState opts db r = s := by
  constructor
  · rintro ⟨⟨hout, r', hr', hjob', hattempt, hs⟩, hjob⟩
    grind [eq_of_key_eq]
  · rintro ⟨⟨hjob, hattempt, hout⟩, hs⟩
    exact ⟨⟨hout, r, hr, hjob, hattempt, hs⟩, hjob⟩

theorem lastWith_stubs (hr : r ∈ rows) (hp : ∀ run, p run = true ↔ StaleStub opts db rows s run) :
    (lastWith (fun run : JobRunRow => decide (run.jobID = r.id)) (db.runs.rows.filter p)).map
      JobRunRow.id = if reclaimState opts db r = s then stubID db r else none := by
  split_ifs with hs
  · unfold stubID
    congr 1
    refine lastWith_filter fun run _ => ?_
    rw [hp, decide_eq_true_eq, decide_eq_true_eq, StaleStub.of_row hstored hr, and_iff_left hs]
  · rw [lastWith_filter (c := fun _ => false), lastWith_false, Option.map_none]
    simp_all [StaleStub.of_row]

/-- PostgreSQL reports a row's stub. -/
theorem report_postgres (all : List JobRow) (hr : r ∈ rows) :
    (reclaimMark opts db r).report (crashStaleStubsPostgres (rows.map (reclaimMark opts db)) now
      (reclaimRows opts now all db)).2 = sweptJob opts db r := by
  have hp : ∀ s run, stubOfGroup (reclaimGroup (rows.map (reclaimMark opts db)) s)
      (reclaimRows opts now all db) run = true ↔ StaleStub opts db rows s run :=
    fun s run => stubOfGroup_iff hstored rfl
  have hstub : (lastWith (fun run : JobRunRow => decide (run.jobID = r.id))
      (crashStaleStubsPostgres (rows.map (reclaimMark opts db)) now
        (reclaimRows opts now all db)).2).map JobRunRow.id = stubID db r := by
    change (lastWith _ (_ ++ (Table.update _ _ _).rows.filter
      (stubOfGroup _ (reclaimRows opts now all db)))).map _ = _
    rw [second_stubs hstored (hp .available) (hp .discarded), lastWith_append, Option.map_or]
    refine (congrArg₂ Option.or (lastWith_stubs hstored hr (hp .discarded))
      (lastWith_stubs hstored hr (hp .available))).trans ?_
    grind [reclaimState_cases]
  exact congrArg (fun runID => { reclaimedJob opts db r with runID }) hstub

theorem report_sqlite (mid : Db) (hmid : mid.runs = db.runs) (hr : r ∈ rows) :
    (reclaimMark opts db r).report (crashStaleStubsSQLite (rows.map (reclaimMark opts db)) now
      mid).2 = sweptJob opts db r := by
  have hstub : (lastWith (fun run : JobRunRow => decide (run.jobID = r.id))
      (stubsSQLite (rows.map (reclaimMark opts db)) mid)).map JobRunRow.id = stubID db r := by
    rw [stubsSQLite_eq hstored, hmid]
    unfold stubID
    congr 1
    refine lastWith_filter fun run _ => ?_
    rw [staleStubOf_isSome hstored, decide_eq_true_eq, decide_eq_true_eq, ← exists_and_right]
    simp [StaleStub.of_row hstored hr]
  exact congrArg (fun runID => { reclaimedJob opts db r with runID }) hstub

end Stubs

/-- A dialect's statements crash the batch's stubs and report them. -/
theorem crashStubs_spec (opts : DriverOpts) (now : Time)
    (hstored : ∀ r ∈ rows, r ∈ db.jobs.rows) (all : List JobRow) :
    let after := crashStubs dialect (rows.map (reclaimMark opts db)) now
      (reclaimRows opts now all db)
    (crashStaleStubs (rows.map (reclaimedJob opts db)) now (reclaimRows opts now all db)).SameRows
        after.1 ∧
      (rows.map (reclaimMark opts db)).map (ReclaimRow.report after.2) =
        rows.map (sweptJob opts db) := by
  cases dialect with
  | postgres =>
    refine ⟨crashStaleStubsPostgres_same hstored all, ?_⟩
    rw [map_map]
    exact map_congr_left fun r hr => report_postgres hstored all hr
  | sqlite =>
    refine ⟨?_, ?_⟩
    · rw [← crashStaleStubsSQLite_eq hstored]
      exact .refl _
    · rw [map_map]
      exact map_congr_left fun r hr => report_sqlite hstored (reclaimRows opts now all db) rfl hr

end Flywheel
