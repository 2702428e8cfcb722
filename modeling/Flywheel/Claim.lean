import Flywheel.Driver.Lease

/-!
# A claim that fails

A Dequeue stamps its rows and then converts them, and a row whose stored tags are not an array of
strings does not convert. SQLite converts inside the transaction of the claim, so that the claim is
undone with it; on PostgreSQL the claim is one statement, which has committed by then, and the jobs
of the whole batch stay running under a token that no runner was given.
-/

namespace Flywheel

open Relational Transition List Option Table

/-- The claim is all or nothing: a Dequeue that fails changed no job, and one that succeeds returns
every job that it moved to running, under the attempt and the token that the row now carries. -/
structure ClaimSound (dialect : Dialect) (scan : Scan) (ctx : Context) (req : ClaimRequest)
    (db : Db) : Prop where
  failed : ∀ e, (dequeue dialect scan ctx req db).out = .error e →
    (dequeue dialect scan ctx req db).db.jobs = db.jobs
  returned : ∀ raws, (dequeue dialect scan ctx req db).out = .ok raws → ∀ id old new,
    db.jobs.get? id = some old → (dequeue dialect scan ctx req db).db.jobs.get? id = some new →
    old.state ≠ .running → new.state = .running →
    ∃ raw ∈ raws, raw.id = id ∧ raw.attempt = new.attempt ∧ new.leaseToken = some raw.leaseToken

variable {ctx : Context} {req : ClaimRequest} {db : Db} {rows : List JobRow}

/-- A Dequeue that succeeds returns what it claimed, on either dialect. -/
theorem dequeue_returns_claimed {dialect : Dialect} {scan : Scan} {raws : List RawJob}
    (hout : (dequeue dialect scan ctx req db).out = .ok raws) {id : String} {old new : JobRow}
    (hold : db.jobs.get? id = some old)
    (hnew : (dequeue dialect scan ctx req db).db.jobs.get? id = some new)
    (hidle : old.state ≠ .running) (hrunning : new.state = .running) :
    ∃ raw ∈ raws, raw.id = id ∧ raw.attempt = new.attempt ∧
      new.leaseToken = some raw.leaseToken := by
  obtain ⟨-, hdb, hraws⟩ := dequeue_spec dialect scan ctx req db
  rw [hdb, claimRows, get?_update, hold, map_some] at hnew
  have hnew := some.inj hnew
  split_ifs at hnew with hclaimed
  · -- the row is one of the claimed rows, and its job is the partner that the spec names
    have hmem := (contains_key_iff (fun s hs => (mem_claimedRows hs).1)
      (mem_of_get? hold)).mp hclaimed
    obtain ⟨raw, hraw, hof⟩ := partner_of_mem (hraws raws hout).flip hmem
    refine ⟨raw, hraw, ?_, ?_, ?_⟩
    · rw [hof.id, key_of_get? hold]
    · rw [hof.attempt, ← hnew]
      rfl
    · rw [hof.leaseToken, ← hnew]
      rfl
  · simp_all

theorem rawsFromRows_isOk {token : String} : (∃ raws, rawsFromRows token rows = .ok raws) ↔
      ∀ r ∈ rows, (decodeTags r.tags).isSome = true := by
  induction rows with
  | nil => simp [rawsFromRows]
  | cons r rows ih =>
    rw [forall_mem_cons, ← ih]
    cases htags : decodeTags r.tags with
    | none => simp [rawsFromRows, rawFromRow, htags, bind, Except.bind]
    | some tags =>
      cases hrows : rawsFromRows token rows with
      | error e => simp [rawsFromRows, rawFromRow, htags, hrows, bind, Except.bind]
      | ok raws =>
        simp [rawsFromRows, rawFromRow, htags, hrows, bind, Except.bind, pure, Except.pure]

theorem claimRows_jobs_ne {r : JobRow} (hr : r ∈ rows) (hstored : r ∈ db.jobs.rows) :
    (claimRows ctx req rows db).jobs ≠ db.jobs := by
  intro heq
  have hget := get?_key hstored
  have hnew := get?_update db.jobs (fun s => (rows.map JobRow.id).contains s.id)
    (claimUpdate (ctx.clock 0) (ctx.clock 0 + req.lease) (ctx.newID 0)) r.id
  have hmem : (rows.map JobRow.id).contains r.id = true :=
    contains_iff_mem.mpr (List.mem_map_of_mem hr)
  change (claimRows ctx req rows db).jobs.get? r.id = _ at hnew
  rw [heq, hget, map_some, if_pos hmem] at hnew
  have hattempt : r.attempt = r.attempt + 1 := congrArg JobRow.attempt (some.inj hnew)
  omega

/-- **A failed claim claims nothing, on SQLite; on PostgreSQL exactly when every selected row's tags
decode.** A Dequeue without a limit or a queue selects nothing. -/
theorem claim_sound_iff (dialect : Dialect) (scan : Scan) (ctx : Context) (req : ClaimRequest)
    (db : Db) :
    ClaimSound dialect scan ctx req db ↔
      dialect = .sqlite ∨ req.limit ≤ 0 ∨ req.queues = [] ∨
        ∀ r ∈ req.select dialect scan (ctx.clock 0) db, (decodeTags r.tags).isSome = true := by
  constructor
  · intro hsound
    by_contra hnot
    push Not at hnot
    obtain ⟨hdialect, hlimit, hqueues, r, hr, htags⟩ := hnot
    cases dialect with
    | sqlite => exact hdialect rfl
    | postgres =>
      cases hraws : rawsFromRows (ctx.newID 0) (req.select .postgres scan (ctx.clock 0) db) with
      | ok raws => exact htags (rawsFromRows_isOk.mp ⟨raws, hraws⟩ r hr)
      | error e =>
        -- the statement has committed, and the conversion fails afterwards
        have hdequeue : dequeue .postgres scan ctx req db =
            { db := claimRows ctx req (req.select .postgres scan (ctx.clock 0) db) db
              out := .error e } := by
          unfold dequeue
          simp_all
        have hfailed := hsound.failed e (by rw [hdequeue])
        rw [hdequeue] at hfailed
        exact claimRows_jobs_ne hr (ClaimRequest.mem_select hr).1 hfailed
  · intro hcond
    refine ⟨fun e he => ?_, fun raws hout id old new => dequeue_returns_claimed hout⟩
    unfold dequeue at he ⊢
    by_cases hguard : req.limit ≤ 0 ∨ req.queues = []
    · rw [if_pos hguard]
    · rw [if_neg hguard] at he ⊢
      cases hraws : rawsFromRows (ctx.newID 0) (req.select dialect scan (ctx.clock 0) db) with
      | ok raws => cases dialect <;> simp [hraws] at he
      | error e' =>
        cases dialect with
        | sqlite => simp only [hraws]
        | postgres =>
          have hdecode : ∀ r ∈ req.select .postgres scan (ctx.clock 0) db,
              (decodeTags r.tags).isSome = true := by
            grind
          have hok : ∃ raws, rawsFromRows (ctx.newID 0) _ = .ok raws :=
            rawsFromRows_isOk.mpr hdecode
          simp_all

/-- An available job with these tags. -/
def taggedJob (id : String) (tags : Json) : JobRow :=
  { (default : JobRow) with id, tags, kind := "mail", queue := defaultQueue, maxAttempts := 3 }

/-- A healthy job, and one whose tags are an object. -/
def taggedJobs : Db :=
  { jobs := (Table.empty.insert uniqueClash (taggedJob "healthy" (.arr [.str "a"]))).insert
      uniqueClash (taggedJob "broken" (.obj [])) }

/-- One job's tags fail the whole batch, and PostgreSQL leaves the healthy job running under a token
that no runner holds. -/
theorem undecodable_tags_strand_the_batch :
    let ctx : Context := { newID := fun _ => "token" }
    let req : ClaimRequest := { queues := [defaultQueue], limit := 10, lease := minute }
    let c := dequeue .postgres {} ctx req taggedJobs
    c.out.toOption = none ∧
      (c.db.jobs.get? "healthy").map (fun r => (r.state, r.attempt, r.leaseToken)) =
        some (.running, 1, some "token") ∧
      (taggedJobs.jobs.get? "healthy").map (fun r => (r.state, r.attempt, r.leaseToken)) =
        some (.available, 0, none) := by
  decide

end Flywheel
