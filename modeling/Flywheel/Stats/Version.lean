import Flywheel.RunLifecycle
import Flywheel.Stats.Rollup

/-!
# The version of the rollup

`Baselines` keeps an answer under the progress row that it read, and gives it again while the row's
range and version stand. A write of an hour moves the version in its own transaction, a prune does
not: while the version stands, an hour keeps its rows or is pruned.
-/

namespace Flywheel

open Relational Transition Threads Option

/-- What a later state of the tables keeps of the progress row and of the hours. -/
def Db.Since (db db' : Db) : Prop := ∀ p ∈ db.progress, ∃ q ∈ db'.progress, p.version ≤ q.version ∧
  (p.coveredFrom ≤ p.coveredTo → q.coveredFrom ≤ q.coveredTo) ∧
  (q.version = p.version → q.coveredFrom = p.coveredFrom ∧ q.coveredTo = p.coveredTo ∧
    ∀ bucket, db'.hourlyAt bucket = db.hourlyAt bucket ∨ db'.hourlyAt bucket = [])

variable {db db' db'' : Db} (env : StatsEnv)

theorem Db.Since.trans (h : db.Since db') (h' : db'.Since db'') : db.Since db'' := by
  intro p hp
  obtain ⟨q, hq, hle, hordered, hsame⟩ := h p hp
  obtain ⟨r, hr, hle', hordered', hsame'⟩ := h' q hq
  refine ⟨r, hr, hle.trans hle', hordered' ∘ hordered, fun heq => ?_⟩
  -- a version between two equal ones is equal to them
  obtain ⟨hfrom, hto, hrows⟩ := hsame (by omega)
  obtain ⟨hfrom', hto', hrows'⟩ := hsame' (by omega)
  exact ⟨hfrom'.trans hfrom, hto'.trans hto, fun bucket => by grind⟩

/-- A write of the row, which moves the version with the range or the hours. -/
theorem Db.Since.of_map (f : ProgressRow → ProgressRow)
    (hprogress : db'.progress = db.progress.map f)
    (hf : ∀ p, p.version ≤ (f p).version ∧
      (p.coveredFrom ≤ p.coveredTo → (f p).coveredFrom ≤ (f p).coveredTo) ∧
      ((f p).version = p.version → (f p).coveredFrom = p.coveredFrom ∧
        (f p).coveredTo = p.coveredTo ∧ db'.hourly = db.hourly)) : db.Since db' := by
  intro p hp
  obtain ⟨hle, hordered, hsame⟩ := hf p
  refine ⟨f p, by simp_all, hle, hordered, fun heq => ?_⟩
  obtain ⟨hfrom, hto, hhourly⟩ := hsame heq
  exact ⟨hfrom, hto, fun bucket => .inl (by rw [Db.hourlyAt, hhourly, ← Db.hourlyAt])⟩

theorem Db.Since.of_tables (hprogress : db'.progress = db.progress)
    (hhourly : db'.hourly = db.hourly) : db.Since db' :=
  .of_map id (by simp [hprogress]) fun _ => ⟨le_refl _, id, fun _ => ⟨rfl, rfl, hhourly⟩⟩

theorem CoverageStep.since (step : CoverageStep) (now : Time)
    (hprogress : db'.progress = db.progress.map (step.apply now)) : db.Since db' :=
  .of_map _ hprogress fun p => by
    simp only [CoverageStep.apply]
    grind

theorem replaceHour_progress {w : HourWrite} (h : replaceHour env w db = .ok db') :
    db'.progress = db.progress.map (w.step.apply w.rolledAt) := by
  simp only [replaceHour] at h
  split_ifs at h <;> simp only [bind_eq_ok] at h
  · obtain ⟨_, -, _, -, _, -, h⟩ := h
    cases h
    rfl
  · obtain ⟨_, -, _, -, h⟩ := h
    cases h
    rfl

theorem StatsOp.act_since {s s' : StatsState} {o : StatsOp} {a : o.Answer}
    (h : o.act env s = .ok (s', a)) : s.db.Since s'.db := by
  cases o with
  | ensureProgress bucket now =>
    cases h
    intro p hp
    have hsame : s.db.Since (ensureStatsProgress bucket now s.db) :=
      .of_tables (by simp [ensureStatsProgress, mem_def.mp hp]) rfl
    exact hsame p hp
  | raiseFloor earliest now =>
    cases h
    refine .of_map _ rfl fun p => ?_
    simp only [ProgressRow.raise]
    grind [raiseStatsFloor]
  | replaceHour w =>
    obtain ⟨db', hreplace, heq⟩ := map_eq_ok.mp h
    cases heq
    exact w.step.since w.rolledAt (replaceHour_progress env hreplace)
  | markCovered step now =>
    cases h
    exact step.since now rfl
  | pruneStats before =>
    cases h
    refine fun p hp => ⟨p, hp, le_refl _, id, fun _ => ⟨rfl, rfl, fun bucket => ?_⟩⟩
    -- the rows of an hour are all kept or all pruned
    change (s.db.hourly.filter _).filter _ = s.db.hourly.filter _ ∨
      (s.db.hourly.filter _).filter _ = []
    rw [List.filter_filter]
    by_cases hkept : unix before ≤ unix bucket
    · exact .inl (List.filter_congr fun r _ => by grind)
    · exact .inr (List.filter_eq_nil_iff.mpr fun r _ => by grind)
  | _ =>
    cases h
    exact .of_tables rfl rfl

theorem StatsSys.step_since (sys : StatsSys) (a : StatsStep) :
    sys.shared.db.Since (sys.step env a).shared.db := by
  have hrefl : sys.shared.db.Since sys.shared.db := .of_tables rfl rfl
  cases a with
  | move thread input =>
    rcases Threads.step_move (statsMachine env) sys thread input with hsame |
      ⟨_, _, o, _, _, shared, _, _, -, -, hact, hstep⟩
    · rwa [StatsSys.step, hsame]
    · rw [StatsSys.step, hstep]
      cases input with
      | fail => grind [statsMachine]
      | run => cases hdone : o.act env sys.shared <;> grind [statsMachine, StatsOp.act_since]
  | stop thread =>
    simp only [StatsSys.step, Threads.step]
    split <;> exact hrefl
  | raw t => exact .of_tables rfl rfl
  | act a =>
    have htables : (Flywheel.step sys.shared.db a).rollupTables = sys.shared.db.rollupTables :=
      settle_induction (P := fun db : Db => db.rollupTables = sys.shared.db.rollupTables) rfl
        fun _ h => (exec_write h).2
    exact .of_tables (congrArg RollupTables.progress htables) (congrArg RollupTables.hourly htables)

theorem StatsSys.run_since (sys : StatsSys) (history : List StatsStep) :
    sys.shared.db.Since (run (StatsSys.step env) sys history).shared.db :=
  run_invariant (I := fun t : StatsSys => sys.shared.db.Since t.shared.db)
    (fun t a h => h.trans (t.step_since env a)) (.of_tables rfl rfl) history

/-- **A memo hit is current**, whatever passes, rebuilds, retention and transactions of the jobs
interleave: the version never falls, the range never inverts, and an answer that was asked for under
a progress row, loaded later and found again under its version has the range and the hours that
stand, but for the hours pruned since. -/
theorem memo_hit_current (env : StatsEnv) (db : Db) (calls : List StatsCall)
    (history loading later : List StatsStep) :
    let asked := run (StatsSys.step env) (statsStart env db calls) history
    let loaded := run (StatsSys.step env) asked loading
    let hit := run (StatsSys.step env) loaded later
    ∀ p ∈ asked.shared.db.progress, ∃ q ∈ hit.shared.db.progress, p.version ≤ q.version ∧
      (p.coveredFrom ≤ p.coveredTo → q.coveredFrom ≤ q.coveredTo) ∧ (q.version = p.version →
        q.coveredFrom = p.coveredFrom ∧ q.coveredTo = p.coveredTo ∧
        ∀ bucket, hit.shared.db.hourlyAt bucket = loaded.shared.db.hourlyAt bucket ∨
          hit.shared.db.hourlyAt bucket = []) := by
  intro asked loaded hit p hp
  obtain ⟨r, hr, hle, hordered, hsame⟩ := asked.run_since env loading p hp
  obtain ⟨q, hq, hle', hordered', hsame'⟩ := loaded.run_since env later r hr
  refine ⟨q, hq, hle.trans hle', hordered' ∘ hordered, fun hversion => ?_⟩
  obtain ⟨hfrom, hto, -⟩ := hsame (by omega)
  obtain ⟨hfrom', hto', hrows⟩ := hsame' (by omega)
  exact ⟨hfrom'.trans hfrom, hto'.trans hto, hrows⟩

/-- Two rolled hours, the first of which the retention window has passed. -/
def twoHours : Db :=
  { progress := some ⟨7200, 18000, 7200, 3, 0⟩
    hourly := [3600, 10800].map fun bucketStart =>
      { bucketStart, agg := { kind := "work", queue := "default" }, rolledAt := 0 } }

/-- A pass at five hours that keeps three. -/
def hourlyPass : StatsCall := .rollup 5 (5 * hour)
    { retention := 3 * hour, grace := 0, maxHours := 0 }

/-- A pass between the load of an answer and its use prunes the first hour, and leaves the version
and the second. -/
theorem memo_hit_current_pruned :
    let loaded := run (StatsSys.step {}) (statsStart {} twoHours [hourlyPass])
      [.move 0 .run, .move 0 .run]
    let hit := run (StatsSys.step {}) loaded
      [.move 0 .run, .move 0 .run, .move 0 .run, .move 0 .run]
    ∃ q ∈ hit.shared.db.progress, q.version = 3 ∧ q.coveredFrom = 7200 ∧ q.coveredTo = 18000 ∧
      (hit.shared.db.hourlyAt (3 * hour) = loaded.shared.db.hourlyAt (3 * hour) ∨
        hit.shared.db.hourlyAt (3 * hour) = []) ∧
      (loaded.shared.db.hourlyAt hour).length = 1 ∧ hit.shared.db.hourlyAt hour = [] ∧
      (hit.shared.db.hourlyAt (3 * hour)).length = 1 := by
  intro loaded hit
  obtain ⟨q, hq, -, -, hsame⟩ := memo_hit_current {} twoHours [hourlyPass] []
    [.move 0 .run, .move 0 .run] [.move 0 .run, .move 0 .run, .move 0 .run, .move 0 .run] _ rfl
  have hprogress : hit.shared.db.progress = twoHours.progress := rfl
  obtain rfl : _ = q := some.inj (hprogress.symm.trans hq)
  obtain ⟨hfrom, hto, hhours⟩ := hsame rfl
  exact ⟨_, hq, rfl, hfrom, hto, hhours (3 * hour), rfl, rfl, rfl⟩

end Flywheel
