import Flywheel.Library.Alone
import Flywheel.Periodic.Cursor

/-!
# A schedule makes progress

A tick's fire of a definition that is due, on its own: whether the walk of its schedule ends, and
whether the row is past now once its statements have succeeded. For an interval both are so. The
walk of a cron has no bound, and ends exactly when the expression has a next match at each time that
it comes to (`Cron.walk_ends`, `Cron.walk_stuck`).
-/

namespace Flywheel

open Relational Threads Transition List Option Table

/-! ## The walk of a cron -/

/-- The times that a walk of a cron comes to: its start, and the matches after it. -/
def Cron.Visits (c : Cron) (start t : Time) : Prop := t = start ∨ start < t ∧ c.fires t

/-- From each time through now that the walk comes to, `Next` finds a match. -/
def Cron.FindsNext (c : Cron) (start now : Time) : Prop :=
  ∀ t, c.Visits start t → t ≤ now → c.next t ≠ none

variable {c : Cron} {start nextRun : Time} {s : PeriodicState} {backfillCap : ℤ}
  {buckets : List Time} {now : Time} {fuel : ℕ}

/-- **A walk that always finds a next match ends**: each is a nanosecond later at least. -/
theorem Cron.walk_ends (h : c.FindsNext start now) (hfuel : (now + 1 - start).toNat < fuel) :
    ∃ ts last, c.walk now fuel start = some (ts, last) := by
  induction fuel generalizing start with
  | zero => exact absurd hfuel (Nat.not_lt_zero _)
  | succ fuel ih =>
    by_cases hend : now < start
    · exact ⟨[], start, by rw [Cron.walk, if_pos hend]⟩
    · obtain ⟨u, hu⟩ := ne_none_iff_exists'.mp (h start (.inl rfl) (not_lt.mp hend))
      obtain ⟨hlt, -, hfires, -⟩ := c.next_some start u hu
      have hnext : c.FindsNext u now := by
        rintro t (rfl | ⟨hlater, ht⟩) hle
        · exact h t (.inr ⟨hlt, hfires⟩) hle
        · exact h t (.inr ⟨hlt.trans hlater, ht⟩) hle
      have hdrop : ∀ a b c : ℤ, b ≤ a → b < c → (a + 1 - c).toNat < (a + 1 - b).toNat := by
        omega
      have hless := (hdrop now start u (not_lt.mp hend) hlt).trans_le (Nat.lt_succ_iff.mp hfuel)
      obtain ⟨ts, last, hwalk⟩ := ih hnext hless
      simp_all [Cron.walk, if_neg, Cron.nextTime]

/-- **A walk ends exactly when it always finds a next match.** -/
theorem Cron.walk_ends_iff :
    (∃ fuel ts last, c.walk now fuel start = some (ts, last)) ↔ c.FindsNext start now := by
  constructor
  · rintro ⟨fuel, ts, last, hwalk⟩ t hvisits hle hnone
    have hstart : start ≤ t := by
      rcases hvisits with rfl | ⟨hlt, -⟩
      · exact le_rfl
      · exact hlt.le
    grind [Cron.walk_stuck]
  · intro h
    obtain ⟨ts, last, hwalk⟩ := Cron.walk_ends h (Nat.lt_succ_self _)
    exact ⟨_, ts, last, hwalk⟩

/-! ## Stored rows -/

/-- The rows that a call of `UpsertPeriodic` stores: the one that it inserts, and what its update
makes of the one that it found. -/
inductive StoredBy (env : PeriodicEnv) (call : UpsertCall) : PeriodicRow → Prop
  | inserted {row : PeriodicRow} (h : insertRow env call = .ok row) : StoredBy env call row
  | updated {existing : PeriodicRow} {nextRun : Option Time}
    (h : updatedCursor env existing call = .ok nextRun) :
    StoredBy env call (updatedRow call nextRun existing)

variable {env : PeriodicEnv} {call : UpsertCall} {row : PeriodicRow} {now : Time} {limit : ℤ}

theorem StoredBy.columns (h : StoredBy env call row) :
    row.intervalSeconds = call.spec.intervalColumn ∧ row.cronExpr = call.spec.cronColumn := by
  cases h with
  | inserted h =>
    obtain ⟨-, -, -, hinterval, hcron⟩ := insertRow_spec h
    exact ⟨hinterval, hcron⟩
  | updated h => exact ⟨rfl, rfl⟩

/-- A row has a cadence that the Scheduler can fire. -/
def PeriodicRow.Fireable (env : PeriodicEnv) (row : PeriodicRow) : Prop :=
  0 < row.intervalSeconds.getD 0 ∨ ¬0 < row.intervalSeconds.getD 0 ∧ row.cronExpr.getD "" ≠ "" ∧
    ∃ schedule, env.parseCron (row.cronExpr.getD "") = some schedule

/-- **The row of an accepted spec can be fired.** -/
theorem StoredBy.fireable (h : StoredBy env call row) (hvalid : call.spec.validate env = .ok ()) :
    row.Fireable env := by
  obtain ⟨hinterval, hcron⟩ := h.columns
  rw [PeriodicRow.Fireable, hinterval, hcron, PeriodicSpec.intervalColumn, PeriodicSpec.cronColumn]
  by_cases hevery : 0 < call.spec.every
  · left
    rw [if_pos hevery]
    exact wholeSeconds_pos hvalid hevery
  · right
    grind [PeriodicSpec.validate_ok, PeriodicSpec.validate]

/-- The schedule of a row has a next match at each time through now that a fire of it comes to. -/
def PeriodicRow.FindsNext (env : PeriodicEnv) (row : PeriodicRow) (now : Time) : Prop :=
  0 < row.intervalSeconds.getD 0 ∨
    ∀ schedule, env.parseCron (row.cronExpr.getD "") = some schedule →
      schedule.FindsNext row.nextRunAt now

/-- **The buckets of a row are found exactly when its schedule finds each next match.** -/
theorem PeriodicRow.Fireable.buckets_iff (h : row.Fireable env) (limit : ℤ) :
    (∃ fuel r, row.buckets env now limit fuel = some r) ↔ row.FindsNext env now := by
  rcases h with hevery | ⟨hevery, hcron, schedule, hparse⟩
  · exact ⟨fun _ => .inl hevery, fun _ => ⟨0, _, by rw [PeriodicRow.buckets, if_pos hevery]⟩⟩
  · have hbuckets : ∀ fuel, row.buckets env now limit fuel =
        (schedule.walk now fuel row.nextRunAt).map fun walked =>
          .ok (if 0 < limit then walked.1.drop (walked.1.length - limit.toNat) else walked.1,
            walked.2) := by
      simp_all [PeriodicRow.buckets, cronBuckets_eq]
    have hfinds : row.FindsNext env now ↔ schedule.FindsNext row.nextRunAt now := by
      refine ⟨fun h => h.resolve_left hevery schedule hparse, fun h => .inr fun c hc => ?_⟩
      rwa [some_inj.mp (hc.symm.trans hparse)]
    rw [hfinds, ← Cron.walk_ends_iff]
    refine exists_congr fun fuel => ?_
    simp_all

theorem PeriodicRow.Fireable.buckets_ok (h : row.Fireable env)
    {r : Except PeriodicError (List Time × Time)} (hr : row.buckets env now limit fuel = some r) :
    ∃ buckets nextRun, r = .ok (buckets, nextRun) := by
  rcases h with hevery | ⟨hevery, hcron, schedule, hparse⟩
  · rw [PeriodicRow.buckets, if_pos hevery] at hr
    exact ⟨_, _, (some_inj.mp hr).symm⟩
  · rw [PeriodicRow.buckets, if_neg hevery, if_pos hcron, cronBuckets_eq, hparse] at hr
    obtain ⟨⟨ts, last⟩, -, rfl⟩ := map_eq_some_iff.mp hr
    exact ⟨_, _, rfl⟩

/-! ## A fire on its own -/

/-- The error of a statement, and not one of the schedule. -/
def PeriodicError.OfStatement (e : PeriodicError) : Prop := e = .database ∨ ∃ e', e = .insert e'

/-- What the statement of a bucket leaves and returns. -/
structure BucketAnswer (d : Definition) (bucket : Time) (s s' : PeriodicState)
    (a : Except PeriodicError (Option String)) : Prop where
  periodics : s'.periodics = s.periodics
  reports : s'.reports = s.reports
  error : ∀ e, a = .error e → e.OfStatement ∧ s'.fired = s.fired
  collided : a = .ok none → s'.fired = s.fired
  stored : ∀ id, a = .ok (some id) → s'.fired = s.fired ++
    [{ definition := d, bucket, jobID := id }]

theorem enqueueBucket_answer {input : PeriodicInput} {d : Definition} {bucket : Time}
    {s' : PeriodicState} {a : Except PeriodicError (Option String)} {children : List PeriodicThread}
    (h : periodicMachine env (.enqueueBucket d bucket) input s = some (s', a, children)) :
    BucketAnswer d bucket s s' a := by
  cases input with
  | fail =>
    cases h
    exact ⟨rfl, rfl, fun e he => ⟨.inl (Except.error.inj he).symm, rfl⟩, by simp, by simp⟩
  | run ctx =>
    cases hinsert : Client.insert ctx d.row.kind d.row.argsTemplate
        { queue := d.row.queue, uniqueKey := bucketKey d.row.slug bucket
          scheduleAt := some bucket }
        .periodic d.row.slug s.db with
    | error err =>
      simp only [periodicMachine, PeriodicOp.act, Flywheel.enqueueBucket, hinsert] at h
      cases h
      exact ⟨rfl, rfl, fun e he => ⟨.inr ⟨err, (Except.error.inj he).symm⟩, rfl⟩, by simp, by simp⟩
    | ok r =>
      obtain ⟨db, _ | id⟩ := r
      · simp only [periodicMachine, PeriodicOp.act, Flywheel.enqueueBucket, hinsert] at h
        cases h
        exact ⟨rfl, rfl, by simp, fun _ => rfl, by simp⟩
      · simp only [periodicMachine, PeriodicOp.act, Flywheel.enqueueBucket, hinsert] at h
        cases h
        refine ⟨rfl, rfl, by simp, by simp, fun id' he => ?_⟩
        rw [← some_inj.mp (Except.ok.inj he)]

/-- What a program of statements ensures, whatever its inputs, once it ends. -/
abbrev EndsWith {α : Type} (env : PeriodicEnv) (p : PeriodicProg α)
    (Q : α → PeriodicState → Prop) (s : PeriodicState) : Prop :=
  p.Ensures (periodicMachine env) (fun _ _ _ => True) (fun _ => False) (fun _ => False) Q s

variable {d : Definition} {fuel : ℕ}

/-- The loop over the buckets leaves the definitions, and ends early on a statement's error
alone. -/
theorem enqueueBuckets_ends (d : Definition) (buckets : List Time) (fires : List PeriodicFireEntry)
    (s : PeriodicState) :
    EndsWith env (Periodic.enqueueBuckets d buckets fires)
      (fun r s' => s'.periodics = s.periodics ∧ ∀ e, r.2 = some e → e.OfStatement) s := by
  induction buckets generalizing fires s with
  | nil => exact ⟨rfl, nofun⟩
  | cons bucket buckets ih =>
    refine ⟨id, fun input s' a children _ hact => ?_⟩
    have hanswer := enqueueBucket_answer hact
    match a with
    | .error e => exact ⟨hanswer.periodics, fun e' he => by
        cases he
        exact (hanswer.error e rfl).1⟩
    | .ok none => exact (ih fires s').mono fun r s'' h => ⟨h.1.trans hanswer.periodics, h.2⟩
    | .ok (some id) => exact (ih _ s').mono fun r s'' h => ⟨h.1.trans hanswer.periodics, h.2⟩

section

variable (hbuckets : d.row.buckets env now backfillCap fuel = some (.ok (buckets, nextRun)))

include hbuckets

/-- A fire whose buckets are found ends with its statements' error, or with the cursor past them. -/
theorem fire_ends (hd : d ∈ s.periodics.rows) :
    EndsWith env (Periodic.fire env backfillCap fuel now d)
      (fun r s' => ∃ n err, r = some (n, err) ∧ (∀ e, err = some e → e.OfStatement) ∧
        (err = none → ∃ d' ∈ s'.periodics.rows, d'.id = d.id ∧ d'.row.nextRunAt = nextRun)) s := by
  rw [Periodic.fire, hbuckets]
  refine (enqueueBuckets_ends d buckets [] s).bind fun r s' hr => ?_
  obtain ⟨fires, _ | e⟩ := r
  · refine ⟨id, fun input s'' a children _ hact => ?_⟩
    cases input with
    | fail =>
      cases hact
      exact ⟨_, _, rfl, fun e he => .inl (some_inj.mp he).symm, nofun⟩
    | run ctx =>
      cases hact
      refine ⟨_, _, rfl, nofun, fun _ => ?_⟩
      have hd' : d ∈ s'.periodics.rows := hr.1 ▸ hd
      refine ⟨_, List.mem_map_of_mem hd', ?_⟩
      have hself : isDefinition d.row.id d = true := decide_eq_true rfl
      rw [if_pos hself]
      refine ⟨advanceRow_id fires nextRun now d.row, ?_⟩
      change (advanceRow fires nextRun now d.row).nextRunAt = nextRun
      rw [advanceRow]
      split_ifs <;> rfl
  · exact ⟨_, _, rfl, fun e' he => hr.2 e' he, nofun⟩

/-- A fire has a statement for each bucket and one more. -/
theorem fire_within : (Periodic.fire env backfillCap fuel now d).Within (buckets.length + 1) := by
  have hloop : ∀ (buckets : List Time) fires,
      (Periodic.enqueueBuckets d buckets fires).Within buckets.length := by
    intro buckets
    induction buckets with
    | nil => exact fun fires => trivial
    | cons bucket buckets ih =>
      intro fires a
      match a with
      | .error e => cases buckets.length <;> trivial
      | .ok none => exact ih fires
      | .ok (some id) => exact ih _
  rw [Periodic.fire, hbuckets]
  refine (hloop buckets []).bind fun r => ?_
  obtain ⟨fires, _ | e⟩ := r
  · intro a
    match a with
    | .error e => trivial
    | .ok () => trivial
  · trivial

end

/-! ## Progress -/

/-- A fire of a definition terminates, and once its statements have succeeded the row is past
now. -/
def Progresses (env : PeriodicEnv) (backfillCap : ℤ) (now : Time) (d : Definition) : Prop :=
  ∃ fuel statements, ∀ (inputs : List PeriodicInput) (s : PeriodicState), d ∈ s.periodics.rows →
    statements ≤ inputs.length →
    ∃ s' n err, (Periodic.fire env backfillCap fuel now d).play (periodicMachine env) inputs s =
        (s', some (some (n, err))) ∧
      (∀ e, err = some e → e.OfStatement) ∧
      (err = none → (∃ d' ∈ s'.periodics.rows, d'.id = d.id ∧ now < d'.row.nextRunAt) ∧
        ∀ d' ∈ s'.due now, d'.id ≠ d.id)

theorem periodicMachine_isSome (env : PeriodicEnv) (o : PeriodicOp) (input : PeriodicInput)
    (s : PeriodicState) : (periodicMachine env o input s).isSome = true := by
  cases input with
  | fail => rfl
  | run ctx =>
    rw [periodicMachine]
    split <;> rfl

/-- **An accepted schedule makes progress exactly when it finds each next match.** For every spec
that `validate` accepts, every row that `UpsertPeriodic` stores for it and every time at which the
row is due, the fire of the row terminates, with its statements' errors alone, and leaves
`next_run_at` after now once they succeed, if and only if the row has an interval or its cron has a
next match at `next_run_at` and at each of its matches from there through now. -/
theorem accepted_schedule_progresses (env : PeriodicEnv) (call : UpsertCall)
    (hvalid : call.spec.validate env = .ok ()) (d : Definition) (hstored : StoredBy env call d.row)
    (backfillCap : ℤ) (now : Time) (hdue : d.row.nextRunAt ≤ now) :
    Progresses env backfillCap now d ↔ d.row.FindsNext env now := by
  have hfireable := hstored.fireable hvalid
  rw [← hfireable.buckets_iff backfillCap]
  constructor
  · rintro ⟨fuel, statements, hplays⟩
    refine ⟨fuel, ?_⟩
    obtain ⟨s', n, err, hplay, -⟩ := hplays (List.replicate statements .fail)
      { periodics := { rows := [d], nodup := nodup_singleton _ } } (mem_singleton_self d)
      (length_replicate.ge)
    cases hbuckets : d.row.buckets env now backfillCap fuel with
    | none =>
      rw [Periodic.fire, hbuckets] at hplay
      cases (Prod.mk.inj hplay).2
    | some r => exact ⟨r, rfl⟩
  · rintro ⟨fuel, r, hr⟩
    obtain ⟨buckets, nextRun, rfl⟩ := hfireable.buckets_ok hr
    refine ⟨fuel, buckets.length + 1, fun inputs s hd hlength => ?_⟩
    obtain ⟨a, hended⟩ := (fire_within hr).play (periodicMachine_isSome env) hlength s
    rcases (fire_ends hr hd).play (Prog.Meets.of_ended (fun _ _ _ => trivial) hended) with
      ⟨_, hb, n, err, rfl, herr, hdone⟩ | ⟨hnone, -⟩
    · refine ⟨_, n, err, Prod.ext rfl hb, herr, fun hok => ?_⟩
      obtain ⟨d', hd', hid, hnext⟩ := hdone hok
      have hlater : now < d'.row.nextRunAt := hnext ▸ (PeriodicRow.buckets_spec hdue hr).after
      refine ⟨⟨d', hd', hid, hlater⟩, fun e he heq => ?_⟩
      obtain ⟨he, hdue⟩ := mem_filter.mp he
      grind [Definition.due, eq_of_key_eq]
    · simp_all

/-- The hourly definition that an upsert makes of a minutely one, at its first hour. -/
theorem hourly_progresses :
    Progresses { parseCron := fun _ => none } 0 (3600 * second)
      { row := updatedRow hourlyCall (some (3600 * second)) minutely.row } := by
  refine (accepted_schedule_progresses { parseCron := fun _ => none } hourlyCall rfl
    { row := updatedRow hourlyCall (some (3600 * second)) minutely.row } (.updated rfl) 0
    (3600 * second) ?_).mpr ?_
  · decide
  · exact .inl (by decide)

theorem next_second {t : ℤ} (ht : t < -62135596800000000000) :
    t < (t / 1000000000 + 1) * 1000000000 ∧
      (t / 1000000000 + 1) * 1000000000 ≤ t + 157766400000000000 ∧
      (1000000000 ∣ (t / 1000000000 + 1) * 1000000000 ∧
        (t / 1000000000 + 1) * 1000000000 ≤ -62135596800000000000) ∧
      ∀ v, t < v → v < (t / 1000000000 + 1) * 1000000000 →
        ¬(1000000000 ∣ v ∧ v ≤ -62135596800000000000) := by
  refine ⟨by omega, by omega, by omega, fun v hv hless hfires => ?_⟩
  omega

/-- An expression that has no match after Go's zero time, such as the one of 30 February. -/
def never : Cron where
  fires t := second ∣ t ∧ t ≤ zeroTime
  horizon t := t + 157766400000000000
  next t := if t < zeroTime then some ((t / second + 1) * second) else none
  fires_whole _ h := h.1
  horizon_mono _ _ h := add_le_add_left h _
  next_some t u h := by
    split_ifs at h with hlt
    cases h
    exact next_second hlt
  next_none t h := by
    grind

/-- An upsert of the expression under a stored slug. -/
def februaryCall : UpsertCall where
  number := 0
  spec := { slug := "report", kind := "report", cron := "0 0 30 2 *", active := true }
  ctx := {}

/-- **The fire of an accepted cron without a match does not terminate.** The update of a stored
definition writes Go's zero time as its `next_run_at`, which the insert of a new one would refuse;
the row is due, and the walk of its cron does not end. -/
theorem never_matching_cron_hangs :
    februaryCall.spec.validate { parseCron := fun _ => some never } = .ok () ∧
      StoredBy { parseCron := fun _ => some never } februaryCall
        (updatedRow februaryCall (some zeroTime) minutely.row) ∧
      (updatedRow februaryCall (some zeroTime) minutely.row).nextRunAt ≤ 0 ∧
      ∀ backfillCap fuel,
        Periodic.fire { parseCron := fun _ => some never } backfillCap fuel 0
          { row := updatedRow februaryCall (some zeroTime) minutely.row } = .ret none := by
  refine ⟨rfl, .updated rfl, by decide, fun backfillCap fuel => ?_⟩
  have hnone : (updatedRow februaryCall (some zeroTime) minutely.row).buckets
      { parseCron := fun _ => some never } 0 backfillCap fuel = none := by
    rw [PeriodicRow.buckets, if_neg (by decide), if_pos (by decide), cronBuckets_eq]
    change Option.map _ (never.walk 0 fuel zeroTime) = none
    rw [Cron.walk_stuck (c := never) (v := zeroTime) rfl (by decide) fuel le_rfl]
    rfl
  rw [Periodic.fire, hnone]
  rfl

end Flywheel
