import Flywheel.Library.Alone
import Flywheel.Library.Keyset
import Flywheel.Stats.Render
import Flywheel.Stats.Rollup

/-!
# Backfills that fail

`BackfillRunFinishes` logs the runs of an older release batch by batch and, once its walk has ended,
re-rolls the covered hours that the new entries fall in. It keeps those hours in memory only. A call
that stops between the two leaves covered hours whose stored rows count fewer runs than the log
holds (`Kept.stored`), and a later call re-rolls such an hour only if it logs another run of it
(`Completed.rendered_iff`).
-/

namespace Flywheel

open Relational Threads Rollup List Option Table

/-! ## What a call finds and leaves -/

/-- The hour is one that the rollups cover. -/
def Db.Covers (db : Db) (h : Time) : Prop :=
  OnHour h ∧ ∃ p, readStatsProgress db = some p ∧ p.covers h = true

/-- The finish log, as it is while an older release's runs are not all in it: no entry stands twice,
a run's entry carries its finish, and the finished runs that have none are those without a kind. -/
structure Db.LegacyLog (db : Db) : Prop where
  nodup : db.finishes.Nodup
  finish : ∀ e ∈ db.finishes, ∀ r ∈ db.runs.rows, r.id = e.runID → r.finishedAt = some e.finishedAt
  legacy : ∀ r ∈ db.runs.rows, ∀ t, r.finishedAt = some t →
    { finishedAt := t, runID := r.id } ∉ db.finishes → r.kind = ""

/-- Every finished run has exactly one entry, that of its finish. -/
def Db.LoggedOnce (db : Db) : Prop :=
  ∀ r ∈ db.runs.rows, ∀ t, r.finishedAt = some t →
    (db.finishes.filter fun e => decide (e.runID = r.id)) = [{ finishedAt := t, runID := r.id }]

/-- A run of an older release that finished in the hour and that the log lacks. -/
def Db.UnloggedIn (db : Db) (h : Time) : Prop :=
  ∃ r ∈ db.runs.rows, unloggedLegacyRun db r = true ∧ ∃ t, r.finishedAt = some t ∧ floorHour t = h

variable {db : Db} {r : JobRunRow}

theorem unloggedLegacyRun_iff : unloggedLegacyRun db r = true ↔
      r.kind = "" ∧ ∃ t, r.finishedAt = some t ∧
        { finishedAt := t, runID := r.id } ∉ db.finishes := by
  unfold unloggedLegacyRun
  cases r.finishedAt with
  | none => simp
  | some t => simp

theorem Db.LegacyLog.loggedOnce (h : db.LegacyLog)
    (hall : ∀ r ∈ db.runs.rows, unloggedLegacyRun db r = false) : db.LoggedOnce := by
  intro r hr t ht
  have hentry : { finishedAt := t, runID := r.id } ∈ db.finishes := by
    by_contra hnone
    have hunlogged := unloggedLegacyRun_iff.mpr ⟨h.legacy r hr t ht hnone, t, ht, hnone⟩
    simp_all
  -- the entries of the run are all this one, and no entry stands twice
  refine perm_singleton.mp ((perm_ext_iff_of_nodup (h.nodup.filter _)
    (nodup_singleton _)).mpr fun e => ?_)
  rw [mem_singleton, mem_filter, decide_eq_true_iff]
  constructor
  · rintro ⟨he, hid⟩
    have hfinish : t = e.finishedAt := some_inj.mp (ht.symm.trans (h.finish e he r hr hid.symm))
    rw [hfinish, ← hid]
  · simp_all

/-! ### The hours -/

variable {h : Time} {w : HourWrite} {hours secs : List ℤ}

theorem OnHour.unixHour_unix (hh : OnHour h) : unixHour (unix h) = h := by
  obtain ⟨k, rfl⟩ := hh
  have hsplit : hour * k = 3600 * k * second := mul_right_comm 3600 second k
  rw [unixHour, unix, hsplit, Int.mul_ediv_cancel _ (by decide)]

theorem unix_unixHour (u : ℤ) : unix (unixHour u) = u := Int.mul_ediv_cancel u (by decide)

theorem floorHour_eq_iff {t : Time} (hh : OnHour h) : floorHour t = h ↔ h ≤ t ∧ t < h + hour := by
  constructor
  · rintro rfl
    exact ⟨floorHour_le t, lt_floorHour_add t⟩
  · rintro ⟨hle, hlt⟩
    refine le_antisymm (not_lt.mp fun h' => ?_) ((le_floorHour hh).mpr hle)
    exact absurd (hh.add_le (onHour_floorHour t) h') (not_le.mpr ((floorHour_le t).trans_lt hlt))

/-! ### The log that grows -/

/-- The database with more entries in the finish log. -/
def Db.addFinishes (db : Db) (new : List FinishRow) : Db :=
    { db with finishes := db.finishes ++ new }

theorem runWindow_addFinishes (start stop : Time) (db : Db) (new : List FinishRow) :
    runWindow start stop (db.addFinishes new) =
      runWindow start stop db ++ runWindow start stop { db with finishes := new } := by
  simp [runWindow, Db.addFinishes]

theorem runWindow_nil {start stop : Time}
    (h : ∀ e ∈ db.finishes, ¬ (start ≤ e.finishedAt ∧ e.finishedAt < stop)) :
    runWindow start stop db = [] := by
  have hnone : (db.finishes.filter fun e => decide (start ≤ e.finishedAt ∧ e.finishedAt < stop)) =
    [] :=
    filter_eq_nil_iff.mpr fun e he => by simpa using h e he
  rw [runWindow, hnone, filterMap_nil]

/-- The entries that a batch writes. -/
def newEntries (ids : List String) (db : Db) : List FinishRow :=
  (finishEntries ids db.runs).filter fun e => e ∉ db.finishes

theorem logFinishes_eq (ids : List String) (db : Db) :
    logFinishes ids db = db.addFinishes (newEntries ids db) := rfl

theorem mem_newEntries {ids : List String} {e : FinishRow} : e ∈ newEntries ids db ↔ e.runID ∈ ids ∧
      (∃ r, db.runs.get? e.runID = some r ∧ r.finishedAt = some e.finishedAt) ∧
        e ∉ db.finishes := by
  rw [newEntries, mem_filter, mem_finishEntries, decide_eq_true_iff, and_assoc]

theorem Db.LegacyLog.logFinishes (h : db.LegacyLog) (ids : List String) :
    (logFinishes ids db).LegacyLog := by
  refine ⟨?_, ?_, ?_⟩
  · refine Nodup.append h.nodup ((finishEntries_nodup ids db.runs).filter _) ?_
    exact fun e he hnew => (mem_newEntries.mp hnew).2.2 he
  · intro e he r hr hid
    rw [logFinishes_runs] at hr
    rcases mem_append.mp he with he | he
    · exact h.finish e he r hr hid
    · obtain ⟨-, ⟨r', hget, hfinish⟩, -⟩ := mem_newEntries.mp he
      rw [← hid, get?_key hr] at hget
      simp_all
  · intro r hr t ht hnone
    exact h.legacy r hr t ht fun hmem => hnone (mem_append_left _ hmem)

/-- **What a backfill keeps wherever it stops**: the raw history and the covered hours, with the log
as it has to be; and the rows of a covered hour are those of the runs that came first in the log. -/
structure Kept (env : StatsEnv) (db₀ db : Db) : Prop where
  jobs : db.jobs = db₀.jobs
  runs : db.runs = db₀.runs
  covers : ∀ h, db.Covers h ↔ db₀.Covers h
  log : db.LegacyLog
  groups : db.HasGroups
  stored : ∀ h, db.Covers h → ∃ rows, rows <+: runWindow h (h + hour) db ∧
    db.Stores env h rows (Flywheel.countEnqueued h (h + hour) {} db)

section Kept

variable {env : StatsEnv} {db₀ db : Db}

theorem Kept.start (hlog : db.LegacyLog) (hgroups : db.HasGroups)
    (hrendered : ∀ h, db.Covers h → db.Rendered env h) : Kept env db db where
  jobs := rfl
  runs := rfl
  covers := fun _ => Iff.rfl
  log := hlog
  groups := hgroups
  stored := fun h hh => ⟨_, prefix_rfl, hrendered h hh⟩

theorem Kept.logFinishes (h : Kept env db₀ db) (ids : List String) :
    Kept env db₀ (logFinishes ids db) where
  __ := h
  log := h.log.logFinishes ids
  stored := by
    intro hr hcovers
    obtain ⟨rows, hpre, hstores⟩ := h.stored hr hcovers
    refine ⟨rows, hpre.trans ?_, hstores⟩
    simp_all [logFinishes_eq, runWindow_addFinishes]

/-- Of what is stored a guarded write of a covered hour drops nothing. -/
theorem Kept.keeps (h : Kept env db₀ db) (hcovers : db.Covers w.bucket)
    (hrows : w.rows = runWindow w.bucket (w.bucket + hour) db)
    (hcounts : w.counts = Flywheel.countEnqueued w.bucket (w.bucket + hour) {} db) :
    w.Keeps db := by
  obtain ⟨rows, hpre, hstores⟩ := h.stored w.bucket hcovers
  have hlabel := h.groups.labelled h.groups w.bucket (w.bucket + hour)
  have hfirst : Labelled rows (Flywheel.countEnqueued w.bucket (w.bucket + hour) {} db) :=
    ⟨fun r hr => hlabel.rows r (hpre.subset hr), hlabel.counts⟩
  refine ⟨?_, ?_⟩
  · rw [hstores.storedRuns hfirst, hrows]
    exact_mod_cast hpre.length_le
  · rw [hstores.storedEnqueued hfirst, hcounts]

end Kept

/-! ## Single statements -/

section Statement

variable {env : StatsEnv} {Ok : (o : StatsOp) → StatsInput → StatsState → Prop}
  {Halt Stop : StatsState → Prop} {E : StatsError → StatsState → Prop} {s : StatsState}

theorem ensuresE_stmt {o : StatsOp} {Q : o.Answer → StatsState → Prop} {s' : StatsState}
    {a : o.Answer} (hstop : Stop s) (hfail : E .database s) (hact : o.act env s = .ok (s', a))
    (hQ : Q a s') : Prog.EnsuresE (statsMachine env) Ok Halt Stop E Q (stmt o) s := by
  refine ⟨fun _ => hstop, fun input s'' r children _ hmove => ?_⟩
  cases input with
  | fail =>
    cases hmove
    exact hfail
  | run =>
    rw [statsMachine, hact] at hmove
    cases hmove
    exact hQ

end Statement

/-! ## The walk -/

section Walk

variable {env : StatsEnv} {db₀ db₁ db : Db} {cursor first : String} {rest : List String} {limit : ℕ}

/-- The ids that the batches past a cursor read, in order. -/
def runIDs (cursor : String) (db : Db) : List String :=
  ((db.runs.rows.filter fun r => decide (cursor = "") || decide (cursor < r.id)).map
    JobRunRow.id).insertionSort (· ≤ ·)

theorem ascending_runIDs (cursor : String) (db : Db) : Keyset.Ascending id (runIDs cursor db) := by
  refine Keyset.ascending_insertionSort ?_
  rw [List.map_id]
  exact db.runs.nodup.sublist (filter_sublist.map _)

variable {r : JobRunRow}

theorem mem_runIDs (hr : r ∈ db.runs.rows) (hpast : cursor = "" ∨ cursor < r.id) :
    r.id ∈ runIDs cursor db := by
  refine (mem_insertionSort _).mpr (List.mem_map_of_mem (mem_filter.mpr ⟨hr, ?_⟩))
  simpa using hpast

theorem mem_batch (hids : runIDsAfter cursor limit db = first :: rest) (hr : r ∈ db.runs.rows)
    (hpast : cursor = "" ∨ cursor < r.id) :
    first ≤ r.id ∧ r.id ≤ (first :: rest).getLast?.getD "" ∨
      (first :: rest).getLast?.getD "" < r.id := by
  have hsorted := ascending_runIDs cursor db
  have hmem := mem_runIDs hr hpast
  change (runIDs cursor db).take limit = _ at hids
  rw [getLast?_cons, getD_some]
  obtain ⟨hle, hgt⟩ := hsorted.page (hids ▸ getLast?_cons)
  rw [← take_append_drop limit (runIDs cursor db), mem_append] at hmem
  rcases hmem with hmem | hmem
  · refine .inl ⟨?_, hle _ hmem⟩
    grind [Keyset.Ascending, take_sublist]
  · exact .inr (hgt _ hmem)

theorem not_past_of_nil (hlimit : 0 < limit) (hids : runIDsAfter cursor limit db = [])
    (hr : r ∈ db.runs.rows) : ¬ (cursor = "" ∨ cursor < r.id) := by
  intro hpast
  have hmem := mem_runIDs hr hpast
  rcases take_eq_nil_iff.mp hids with hzero | hnil
  · exact absurd hzero (Nat.pos_iff_ne_zero.mp hlimit)
  · grind [runIDs]

variable {last : String}

theorem mem_unloggedBetween {f : String × Time} :
    f ∈ unloggedBetween first last db ↔ ∃ r ∈ db.runs.rows, (first ≤ r.id ∧ r.id ≤ last) ∧
      unloggedLegacyRun db r = true ∧ r.id = f.1 ∧ r.finishedAt = some f.2 := by
  simp only [unloggedBetween, mem_filterMap, mem_filter, Bool.and_eq_true,
    decide_eq_true_eq, map_eq_some_iff]
  grind

theorem unlogged_of_addFinishes {new : List FinishRow}
    (h : unloggedLegacyRun (db.addFinishes new) r = true) : unloggedLegacyRun db r = true := by
  obtain ⟨hkind, t, ht, hnone⟩ := unloggedLegacyRun_iff.mp h
  exact unloggedLegacyRun_iff.mpr ⟨hkind, t, ht, fun hmem => hnone (mem_append_left _ hmem)⟩

/-- The invariant of the walk from `db₁` on: it has added entries whose hours it keeps, each of a
run that was unlogged; the runs up to the cursor are logged. -/
structure BackfillInv (env : StatsEnv) (db₀ db₁ : Db) (cursor : String) (hours : List ℤ) (db : Db) :
    Prop where
  kept : Kept env db₀ db
  added : ∃ new, db = db₁.addFinishes new ∧ ∀ e ∈ new, unix (floorHour e.finishedAt) ∈ hours
  unlogged : ∀ u ∈ hours, ∃ h, db₁.UnloggedIn h ∧ unix h = u
  passed : cursor = "" ∨ ∀ r ∈ db.runs.rows, unloggedLegacyRun db r = true → cursor < r.id

theorem BackfillInv.start (h : Kept env db₀ db) : BackfillInv env db₀ db "" [] db where
  kept := h
  added := ⟨[], by rw [Db.addFinishes, append_nil], nofun⟩
  unlogged := nofun
  passed := .inl rfl

/-- One batch keeps the invariant. -/
theorem BackfillInv.batch (h : BackfillInv env db₀ db₁ cursor hours db)
    (hids : runIDsAfter cursor limit db = first :: rest)
    (hlast : last = (first :: rest).getLast?.getD "") : let found := unloggedBetween first last db
    BackfillInv env db₀ db₁ last (hours ++ found.map fun f => unix (floorHour f.2)).dedup
      (logFinishes (found.map Prod.fst) db) := by
  intro found
  obtain ⟨new, hdb, hnew⟩ := h.added
  have hruns : db.runs = db₁.runs := by rw [hdb]; rfl
  refine ⟨h.kept.logFinishes _, ⟨new ++ newEntries (found.map Prod.fst) db, ?_, ?_⟩, ?_, .inr ?_⟩
  · simp_all [logFinishes_eq, Db.addFinishes]
  · intro e he
    rw [mem_dedup]
    rcases mem_append.mp he with he | he
    · exact mem_append_left _ (hnew e he)
    · -- the entry is that of a run which was found, under the run's own finish
      obtain ⟨hid, ⟨r, hget, hfinish⟩, -⟩ := mem_newEntries.mp he
      obtain ⟨f, hf, hfid⟩ := List.mem_map.mp hid
      obtain ⟨r', hr', -, -, hid', hfinish'⟩ := mem_unloggedBetween.mp hf
      have hsame : r' = r := by
        rw [← hfid, ← hid', get?_key hr'] at hget
        exact some_inj.mp hget
      grind
  · intro u hu
    rcases mem_append.mp (mem_dedup.mp hu) with hu | hu
    · exact h.unlogged u hu
    · obtain ⟨f, hf, rfl⟩ := List.mem_map.mp hu
      obtain ⟨r, hr, -, hunlogged, -, hfinish⟩ := mem_unloggedBetween.mp hf
      rw [hruns] at hr
      rw [hdb] at hunlogged
      exact ⟨floorHour f.2, ⟨r, hr, unlogged_of_addFinishes hunlogged, f.2, hfinish, rfl⟩, rfl⟩
  · intro r hr hunlogged
    have hbefore := unlogged_of_addFinishes hunlogged
    have hpast : cursor = "" ∨ cursor < r.id := h.passed.imp_right fun h => h r hr hbefore
    rcases mem_batch hids hr hpast with hbetween | hgt
    · -- a run of the batch that was unlogged has been logged
      rw [← hlast] at hbetween
      obtain ⟨-, t, ht, hnone⟩ := unloggedLegacyRun_iff.mp hunlogged
      have hfound : (r.id, t) ∈ found := mem_unloggedBetween.mpr ⟨r, hr, hbetween, hbefore, rfl, ht⟩
      refine absurd (mem_append_right _ (mem_newEntries.mpr ⟨?_, ⟨r, ?_, ht⟩, ?_⟩)) hnone
      · exact List.mem_map.mpr ⟨_, hfound, rfl⟩
      · exact get?_key hr
      · exact fun hmem => hnone (mem_append_left _ hmem)
    · exact hlast ▸ hgt

theorem logFinishes_nil (db : Db) : logFinishes [] db = db := by
  have hnone : newEntries [] db = [] :=
    eq_nil_iff_forall_not_mem.mpr fun e he => not_mem_nil (mem_newEntries.mp he).1
  rw [logFinishes_eq, hnone, Db.addFinishes, append_nil]

variable {Ok : (o : StatsOp) → StatsInput → StatsState → Prop} {Halt : StatsState → Prop}

/-- **The walk logs every run of an older release**, and it keeps the hours of the entries that it
wrote. -/
theorem backfillWalk_ensures (rounds : ℕ) (written : ℕ) {s : StatsState}
    (h : BackfillInv env db₀ db₁ cursor hours s.db) :
    Prog.EnsuresE (statsMachine env) Ok Halt (fun s => Kept env db₀ s.db)
      (fun _ s => Kept env db₀ s.db)
      (fun r s => BackfillInv env db₀ db₁ "" r.2 s.db ∧ ∀ r ∈ s.db.runs.rows,
        unloggedLegacyRun s.db r = false)
      (backfillWalk rounds cursor written hours) s := by
  induction rounds generalizing cursor hours written s with
  | zero => exact Prog.EnsuresE.throw h.kept
  | succ rounds ih =>
    unfold backfillWalk
    refine (ensuresE_stmt (Q := fun _ s' => s' = s) h.kept h.kept rfl rfl).bind ?_
    rintro _ s rfl
    refine (ensuresE_stmt (Q := fun ids s' => ids = runIDsAfter cursor backfillBatchSize s.db ∧
      s' = s) h.kept h.kept rfl ⟨rfl, rfl⟩).bind ?_
    rintro ids s ⟨hids, rfl⟩
    cases ids with
    | nil =>
      refine Prog.EnsuresE.pure ⟨⟨h.kept, h.added, h.unlogged, .inl rfl⟩, fun r hr => ?_⟩
      rw [← Bool.not_eq_true]
      intro hunlogged
      exact not_past_of_nil (by decide) hids.symm hr (h.passed.imp_right fun h => h r hr hunlogged)
    | cons first rest =>
      generalize hlast : (first :: rest).getLast?.getD "" = last
      have hbatch := h.batch hids.symm hlast.symm
      refine (ensuresE_stmt (Q := fun found s' => found = unloggedBetween first last s.db ∧ s' = s)
        h.kept h.kept rfl ⟨rfl, rfl⟩).bind ?_
      rintro found s ⟨rfl, rfl⟩
      have hrest : ∀ n s', s'.db = logFinishes
        ((unloggedBetween first last s.db).map Prod.fst) s.db →
          Prog.EnsuresE (statsMachine env) Ok Halt (fun s => Kept env db₀ s.db)
            (fun _ s => Kept env db₀ s.db) (fun r s => BackfillInv env db₀ db₁ "" r.2 s.db ∧
              ∀ r ∈ s.db.runs.rows, unloggedLegacyRun s.db r = false)
            (backfillWalk rounds last (written + n) (hours ++ (unloggedBetween first last s.db).map
              fun f => unix (floorHour f.2)).dedup) s' :=
        fun n s' hs' => ih _ (hs'.symm ▸ hbatch)
      split_ifs with hnil
      · refine hrest 0 s ?_
        rw [hnil, map_nil, logFinishes_nil]
      · exact (ensuresE_stmt h.kept h.kept rfl rfl).bind hrest

end Walk

/-! ## The hours rolled again -/

/-- What re-rolling these hours makes of a database: the raw history and the range stay, the covered
ones of them are as they would be rolled now, and the others are as they were. -/
structure Rerolled (env : StatsEnv) (before : Db) (done : List ℤ) (db : Db) : Prop where
  jobs : db.jobs = before.jobs
  runs : db.runs = before.runs
  finishes : db.finishes = before.finishes
  covers : ∀ h, db.Covers h ↔ before.Covers h
  rendered : ∀ h, db.Covers h → unix h ∈ done → db.Rendered env h
  other : ∀ h, unix h ∉ done → ∀ rows counts, db.Stores env h rows counts ↔
    before.Stores env h rows counts

section Reroll

variable {env : StatsEnv} {db₀ before db : Db} {done : List ℤ}

theorem Rerolled.start (before : Db) : Rerolled env before [] before where
  jobs := rfl
  runs := rfl
  finishes := rfl
  covers := fun _ => Iff.rfl
  rendered := fun _ _ h => absurd h not_mem_nil
  other := fun _ _ _ _ => Iff.rfl

theorem Rerolled.of_uncovered (h : ∀ hr, ¬ before.Covers hr) (done : List ℤ) :
    Rerolled env before done before where
  jobs := rfl
  runs := rfl
  finishes := rfl
  covers := fun _ => Iff.rfl
  rendered := fun hr hcovers => absurd hcovers (h hr)
  other := fun _ _ _ _ => Iff.rfl

variable {db' : Db} {now : Time}

theorem runWindow_congr (hjobs : db.jobs = db'.jobs) (hruns : db.runs = db'.runs)
    (hfinishes : db.finishes = db'.finishes) (start stop : Time) :
    runWindow start stop db = runWindow start stop db' := by
  rw [runWindow, runWindow, hjobs, hruns, hfinishes]

theorem countEnqueued_congr (hjobs : db.jobs = db'.jobs) (start stop : Time) (f : StatsFilter) :
    Flywheel.countEnqueued start stop f db = Flywheel.countEnqueued start stop f db' := by
  rw [Flywheel.countEnqueued, Flywheel.countEnqueued, insertedJobs, insertedJobs, hjobs]

/-- An hour that was not rolled again is as it would be rolled now if it was before. -/
theorem Rerolled.rendered_iff (h : Rerolled env before done db) {hr : Time}
    (hnot : unix hr ∉ done) : db.Rendered env hr ↔ before.Rendered env hr := by
  unfold Db.Rendered
  rw [h.other hr hnot, runWindow_congr h.jobs h.runs h.finishes, countEnqueued_congr h.jobs]

theorem Rerolled.kept (h : Rerolled env before done db) (hkept : Kept env db₀ before) :
    Kept env db₀ db where
  jobs := h.jobs.trans hkept.jobs
  runs := h.runs.trans hkept.runs
  covers := fun hr => (h.covers hr).trans (hkept.covers hr)
  log := by
    refine ⟨?_, ?_, ?_⟩
    · exact h.finishes ▸ hkept.log.nodup
    · rw [h.finishes, h.runs]
      exact hkept.log.finish
    · rw [h.finishes, h.runs]
      exact hkept.log.legacy
  groups := by
    unfold Db.HasGroups
    rw [h.jobs]
    exact hkept.groups
  stored := by
    intro hr hcovers
    by_cases hdone : unix hr ∈ done
    · exact ⟨_, prefix_rfl, h.rendered hr hcovers hdone⟩
    · obtain ⟨rows, hpre, hstores⟩ := hkept.stored hr ((h.covers hr).mp hcovers)
      refine ⟨rows, ?_, ?_⟩
      · rw [runWindow_congr h.jobs h.runs h.finishes]
        exact hpre
      · rw [countEnqueued_congr h.jobs]
        exact (h.other hr hdone rows _).mpr hstores

theorem covers_store (hstep : w.step = {}) (h : Time) :
    (w.store env db).Covers h ↔ db.Covers h := by
  have hsame : ∀ p : ProgressRow, (w.step.apply w.rolledAt p).times.covers h =
    p.times.covers h := by
    intro p
    have hto : (w.step.apply w.rolledAt p).coveredTo = p.coveredTo := by
      rw [hstep]
      exact if_neg fun h => absurd (h.1.trans_lt h.2) (lt_irrefl _)
    have hfrom : (w.step.apply w.rolledAt p).coveredFrom = p.coveredFrom := by
      rw [hstep]
      exact if_neg fun h => absurd (h.1.trans_le h.2) (lt_irrefl _)
    rw [StatsProgress.covers, StatsProgress.covers, ProgressRow.times, ProgressRow.times,
      hto, hfrom]
  refine and_congr_right fun _ => ?_
  change (∃ p, ((db.progress.map (w.step.apply w.rolledAt)).map ProgressRow.times) = some p ∧ _) ↔
    ∃ p, db.progress.map ProgressRow.times = some p ∧ _
  simp_all

/-- One more hour rolled. -/
theorem Rerolled.store (h : Rerolled env before done db) (hbucket : OnHour w.bucket)
    (hstep : w.step = {}) (hrows : w.rows = runWindow w.bucket (w.bucket + hour) db)
    (hcounts : w.counts = Flywheel.countEnqueued w.bucket (w.bucket + hour) {} db) :
    Rerolled env before (done ++ [unix w.bucket]) (w.store env db) where
  __ := h
  covers := fun hr => (covers_store hstep hr).trans (h.covers hr)
  rendered := by
    intro hr hcovers hmem
    by_cases heq : unix hr = unix w.bucket
    · have hsame : hr = w.bucket := by
        rw [← hcovers.1.unixHour_unix, heq, hbucket.unixHour_unix]
      subst hsame
      have hstores : (w.store env db).Stores env w.bucket w.rows w.counts := HourWrite.store_stores
      rw [hrows, hcounts] at hstores
      exact hstores
    · have hdone : unix hr ∈ done := by
        simp_all
      exact (HourWrite.store_other heq).mpr
        (h.rendered hr ((covers_store hstep hr).mp hcovers) hdone)
  other := by
    intro hr hnot rows counts
    rw [mem_append, mem_singleton, not_or] at hnot
    exact (HourWrite.store_other hnot.2).trans (h.other hr hnot.1 rows counts)

theorem Rerolled.skip (h : Rerolled env before done db) {u : ℤ} (hnot : ¬ db.Covers (unixHour u)) :
    Rerolled env before (done ++ [u]) db where
  __ := h
  rendered := by
    intro hr hcovers hmem
    rcases mem_append.mp hmem with hmem | hmem
    · exact h.rendered hr hcovers hmem
    · rw [← mem_singleton.mp hmem, hcovers.1.unixHour_unix] at hnot
      exact absurd hcovers hnot
  other := fun hr hmem => h.other hr fun hdone => hmem (mem_append_left _ hdone)

variable {Ok : (o : StatsOp) → StatsInput → StatsState → Prop} {Halt : StatsState → Prop}

/-- What `rerollCoveredHours` writes of an hour. -/
def rerollWrite (bucket now : Time) (db : Db) : HourWrite where
  bucket := bucket
  rolledAt := now
  guard := true
  step := {}
  rows := runWindow bucket (bucket + hour) db
  counts := Flywheel.countEnqueued bucket (bucket + hour) {} db

variable {s : StatsState}

/-- `rollupHour` on a covered hour stores it, and fails only where the database does. -/
theorem rollupHour_ensures (h : Rerolled env before done s.db) (hkept : Kept env db₀ before)
    {bucket : Time} (hcovers : s.db.Covers bucket) :
    Prog.EnsuresE (statsMachine env) Ok Halt (fun s => Kept env db₀ s.db)
      (fun e s => e = .database ∧ Kept env db₀ s.db)
      (fun _ s => Rerolled env before (done ++ [unix bucket]) s.db)
      (rollupHour env bucket now true {}) s := by
  have hs := h.kept hkept
  unfold rollupHour
  refine (ensuresE_stmt (Q := fun rows s' => rows = runWindow bucket (bucket + hour) s.db ∧ s' = s)
    hs ⟨rfl, hs⟩ rfl ⟨rfl, rfl⟩).bind ?_
  rintro rows s ⟨rfl, rfl⟩
  refine (ensuresE_stmt
    (Q := fun counts s' => counts = Flywheel.countEnqueued bucket (bucket + hour) {} s.db ∧ s' = s)
    hs ⟨rfl, hs⟩ rfl ⟨rfl, rfl⟩).bind ?_
  rintro counts s ⟨rfl, rfl⟩
  -- nothing stored is dropped, so that the guard lets the write pass
  have hreplace : replaceHour env (rerollWrite bucket now s.db) s.db =
      .ok ((rerollWrite bucket now s.db).store env s.db) :=
    replaceHour_eq (hs.groups.labelled hs.groups _ _) fun _ => hs.keeps hcovers rfl rfl
  have hact : (StatsOp.replaceHour (rerollWrite bucket now s.db)).act env s =
      .ok (s.written (rerollWrite bucket now s.db) ((rerollWrite bucket now s.db).store env s.db),
        ()) := by
    rw [StatsOp.act, hreplace]
    rfl
  refine (ensuresE_stmt (Q := fun _ s' => Rerolled env before (done ++ [unix bucket]) s'.db)
    hs ⟨rfl, hs⟩ hact (Rerolled.store (w := rerollWrite bucket now s.db) h hcovers.1 rfl rfl
      rfl)).bind ?_
  exact fun _ s h => Prog.EnsuresE.pure h

/-- The loop of `rerollCoveredHours`. -/
theorem rerollHours_ensures (hkept : Kept env db₀ before) {p : StatsProgress}
    (hp : readStatsProgress before = some p)
    (hsecs : ∀ u ∈ secs, OnHour (unixHour u)) (h : Rerolled env before done s.db) :
    Prog.EnsuresE (statsMachine env) Ok Halt (fun s => Kept env db₀ s.db)
      (fun _ s => Kept env db₀ s.db)
      (fun _ s => Rerolled env before (done ++ secs) s.db) (rerollHours env now p secs) s := by
  induction secs generalizing done s with
  | nil => exact Prog.EnsuresE.pure (by rwa [append_nil])
  | cons u secs ih =>
    have hrest : ∀ (x : Unit) (s' : StatsState), Rerolled env before (done ++ [u]) s'.db →
        Prog.EnsuresE (statsMachine env) Ok Halt (fun s => Kept env db₀ s.db)
          (fun _ s => Kept env db₀ s.db) (fun _ s => Rerolled env before (done ++ u :: secs) s.db)
          (rerollHours env now p secs) s' := by
      grind
    unfold rerollHours
    split_ifs with hcovered
    · have hcovers : s.db.Covers (unixHour u) :=
        (h.covers _).mpr ⟨hsecs u mem_cons_self, p, hp, hcovered⟩
      have hroll : Prog.EnsuresE (statsMachine env) Ok Halt (fun s => Kept env db₀ s.db)
          (fun e s => e = .database ∧ Kept env db₀ s.db)
          (fun _ s => Rerolled env before (done ++ [u]) s.db)
          (do let _ ← rollupHour env (unixHour u) now true {}) s := by
        refine (rollupHour_ensures h hkept hcovers).bind fun _ s hs => Prog.EnsuresE.pure ?_
        rwa [unix_unixHour] at hs
      refine Prog.EnsuresE.bind (Prog.EnsuresE.tryCatch hroll ?_) hrest
      simp_all [Prog.EnsuresE.throw]
    · refine hrest () s (h.skip fun hcovers => hcovered ?_)
      obtain ⟨-, p', hp', hcovered'⟩ := (h.covers _).mp hcovers
      rwa [some_inj.mp (hp'.symm.trans hp)] at hcovered'

/-- **`rerollCoveredHours` leaves the covered ones of these hours as they would be rolled now.** -/
theorem rerollCoveredHours_ensures (hkept : Kept env db₀ s.db) (now : Time)
    (hhours : ∀ u ∈ hours, OnHour (unixHour u)) :
    Prog.EnsuresE (statsMachine env) Ok Halt (fun s => Kept env db₀ s.db)
      (fun _ s => Kept env db₀ s.db)
      (fun _ s' => Rerolled env s.db (hours.insertionSort (· ≤ ·)) s'.db)
      (rerollCoveredHours env now hours) s := by
  unfold rerollCoveredHours
  split_ifs with hnil
  · simp_all [Prog.EnsuresE.pure, Rerolled.start]
  · refine (ensuresE_stmt (Q := fun p s' => p = readStatsProgress s.db ∧ s' = s) hkept hkept rfl
      ⟨rfl, rfl⟩).bind ?_
    rintro p s ⟨hp, rfl⟩
    cases p with
    | none =>
      refine Prog.EnsuresE.pure (Rerolled.of_uncovered ?_ _)
      rintro hr ⟨-, p, hp', -⟩
      cases hp.trans hp'
    | some p =>
      dsimp only
      split_ifs with hcovered
      · refine rerollHours_ensures hkept hp.symm (fun u hu => ?_) (Rerolled.start s.db)
        exact hhours u ((mem_insertionSort _).mp hu)
      · refine Prog.EnsuresE.pure (Rerolled.of_uncovered ?_ _)
        rintro hr ⟨-, p', hp', hcovers⟩
        cases hp.trans hp'
        rw [StatsProgress.covers, Bool.and_eq_true, decide_eq_true_iff, decide_eq_true_iff]
          at hcovers
        exact hcovered (decide_eq_true (hcovers.1.trans_lt hcovers.2))

end Reroll

/-! ## Calls -/

/-- What a call that returns without an error leaves of what it found. -/
structure Completed (env : StatsEnv) (before db : Db) : Prop where
  once : db.LoggedOnce
  rendered_iff : ∀ h, db.Covers h →
    (db.Rendered env h ↔ before.Rendered env h ∨ before.UnloggedIn h)

section Calls

variable {env : StatsEnv} {db₀ : Db}

theorem Completed.of_logged (h : db.LegacyLog)
    (hall : ∀ r ∈ db.runs.rows, unloggedLegacyRun db r = false) : Completed env db db := by
  refine ⟨h.loggedOnce hall, fun hr _ => ⟨.inl, ?_⟩⟩
  rintro (hrendered | ⟨r, hmem, hunlogged, -⟩)
  · exact hrendered
  · simp_all

/-- A walk and the re-roll of the hours that it kept. -/
theorem Completed.of_walk {before mid : Db} (hwalk : BackfillInv env db₀ before "" hours mid)
    (hall : ∀ r ∈ mid.runs.rows, unloggedLegacyRun mid r = false)
    (hsecs : ∀ u, u ∈ secs ↔ u ∈ hours) (hreroll : Rerolled env mid secs db) :
    Completed env before db := by
  obtain ⟨new, hmid, hnew⟩ := hwalk.added
  have hruns : mid.runs = before.runs := by rw [hmid]; rfl
  refine ⟨?_, fun hr hcovers => ?_⟩
  · refine (hreroll.kept hwalk.kept).log.loggedOnce fun r hmem => ?_
    have hlogged := hall r (hreroll.runs ▸ hmem)
    rw [unloggedLegacyRun] at hlogged ⊢
    rwa [hreroll.finishes]
  by_cases hdone : unix hr ∈ secs
  · -- the hour was rolled again, because the walk logged a run of it
    obtain ⟨h', hunlogged, heq⟩ := hwalk.unlogged _ ((hsecs _).mp hdone)
    have hsame : h' = hr := by
      obtain ⟨-, -, -, t, -, rfl⟩ := hunlogged
      rw [← (onHour_floorHour t).unixHour_unix, heq, hcovers.1.unixHour_unix]
    exact iff_of_true (hreroll.rendered hr hcovers hdone) (.inr (hsame ▸ hunlogged))
  · have hnone : ¬ before.UnloggedIn hr := by
      rintro ⟨r, hmem, hunlogged, t, ht, rfl⟩
      have hentry : { finishedAt := t, runID := r.id } ∈ new := by
        by_contra hnot
        obtain ⟨hkind, t', ht', hbefore⟩ := unloggedLegacyRun_iff.mp hunlogged
        obtain rfl := some_inj.mp (ht'.symm.trans ht)
        have hstill : unloggedLegacyRun mid r = true := by
          rw [hmid]
          refine unloggedLegacyRun_iff.mpr ⟨hkind, t', ht, fun hin => ?_⟩
          exact (mem_append.mp hin).elim hbefore hnot
        simp_all
      exact hdone ((hsecs _).mpr (hnew _ hentry))
    -- no entry of the hour is new
    have hwindow : runWindow hr (hr + hour) mid = runWindow hr (hr + hour) before := by
      rw [hmid, runWindow_addFinishes, append_right_eq_self]
      refine runWindow_nil fun e he hin => hdone ((hsecs _).mpr ?_)
      rw [← (floorHour_eq_iff hcovers.1).mpr hin]
      exact hnew e he
    have hsame : mid.Rendered env hr ↔ before.Rendered env hr := by
      unfold Db.Rendered
      rw [hwindow, hmid]
      rfl
    rw [hreroll.rendered_iff hdone, hsame, or_iff_left hnone]

variable {s : StatsState}

/-- **What a call ensures**: it keeps the tables as they have to be wherever it stops, and completes
the log when it returns without an error. -/
theorem backfillRunFinishes_ensures {Ok : (o : StatsOp) → StatsInput → StatsState → Prop}
    {Halt : StatsState → Prop} (rounds : ℕ) (now : Time) (h : Kept env db₀ s.db) :
    Prog.EnsuresE (statsMachine env) Ok Halt (fun s => Kept env db₀ s.db)
      (fun _ s => Kept env db₀ s.db)
      (fun _ s' => Kept env db₀ s'.db ∧ Completed env s.db s'.db)
      (backfillRunFinishes env rounds now) s := by
  unfold backfillRunFinishes
  refine (ensuresE_stmt (Q := fun _ s' => s' = s) h h rfl rfl).bind ?_
  rintro _ s rfl
  refine (ensuresE_stmt (Q := fun ids s' => ids = Flywheel.probeUnlogged s.db ∧ s' = s) h h rfl
    ⟨rfl, rfl⟩).bind ?_
  rintro ids s ⟨rfl, rfl⟩
  split_ifs with hprobe
  · refine Prog.EnsuresE.pure ⟨h, Completed.of_logged h.log fun r hr => ?_⟩
    rcases take_eq_nil_iff.mp hprobe with hone | hnil
    · cases hone
    · exact Bool.not_eq_true _ ▸ filter_eq_nil_iff.mp (map_eq_nil_iff.mp hnil) r hr
  · refine (backfillWalk_ensures rounds 0 (BackfillInv.start h)).bind ?_
    rintro ⟨written, hours⟩ mid ⟨hwalk, hall⟩
    have hhours : ∀ u ∈ hours, OnHour (unixHour u) := by
      intro u hu
      obtain ⟨h', ⟨-, -, -, t, -, rfl⟩, rfl⟩ := hwalk.unlogged u hu
      rw [(onHour_floorHour t).unixHour_unix]
      exact onHour_floorHour t
    refine (rerollCoveredHours_ensures hwalk.kept now hhours).bind fun _ s' hreroll => ?_
    refine Prog.EnsuresE.pure ⟨hreroll.kept hwalk.kept, ?_⟩
    exact Completed.of_walk hwalk hall (fun u => mem_insertionSort _) hreroll

/-- A call of `BackfillRunFinishes`: the rounds that its walk may take, its clock, and what becomes
of each of its statements; it is cut off where they end. -/
structure BackfillCall where
  rounds : ℕ
  now : Time
  inputs : List StatsInput

/-- The call, when no other writer runs. -/
def BackfillCall.play (env : StatsEnv) (c : BackfillCall) (s : StatsState) :
    StatsState × Option (Except StatsError ℕ) :=
  (backfillRunFinishes env c.rounds c.now).run.play (statsMachine env) c.inputs s

/-- The state after calls, one after the other. -/
def backfills (env : StatsEnv) (calls : List BackfillCall) (s : StatsState) : StatsState :=
  calls.foldl (fun s c => (c.play env s).1) s

theorem BackfillCall.kept (c : BackfillCall) (h : Kept env db₀ s.db) :
    Kept env db₀ (c.play env s).1.db ∧
      ∀ n, (c.play env s).2 = some (.ok n) → Completed env s.db (c.play env s).1.db := by
  have hensures : Prog.EnsuresE (statsMachine env) (fun _ _ _ => True) (fun _ => True)
      (fun s => Kept env db₀ s.db) (fun _ s => Kept env db₀ s.db)
      (fun _ s' => Kept env db₀ s'.db ∧ Completed env s.db s'.db)
      (backfillRunFinishes env c.rounds c.now) s :=
    backfillRunFinishes_ensures c.rounds c.now h
  have hplay := Prog.Ensures.play hensures
    (Prog.Meets.of_always (fun _ _ _ => trivial) (fun _ => trivial) _ c.inputs s)
  rcases hplay with ⟨a, hresult, hend⟩ | ⟨hresult, hstop⟩
  · cases a with
    | error e =>
      refine ⟨hend, fun n hn => ?_⟩
      cases hresult.symm.trans hn
    | ok n => exact ⟨hend.1, fun _ _ => hend.2⟩
  · refine ⟨hstop, fun n hn => ?_⟩
    cases hresult.symm.trans hn

theorem backfills_kept (calls : List BackfillCall) (h : Kept env db₀ s.db) :
    Kept env db₀ (backfills env calls s).db := by
  induction calls generalizing s with
  | nil => exact h
  | cons c calls ih => exact ih (c.kept h).1

end Calls

/-- **A backfill after one that failed.** The finished runs without an entry are an older release's,
and the covered hours store what `rollupHour` renders from the logged ones. After any calls, cut off
or failed anywhere, and one that returns without an error, every finished run has one entry; and the
covered hours are as `rollupHour` would render them exactly if, when the last call began, each was
so or held a run that was not yet logged. -/
theorem later_backfill_completes (env : StatsEnv) {db : Db} (hlog : db.LegacyLog)
    (hgroups : db.HasGroups) (hrolled : ∀ h, db.Covers h → db.Rendered env h)
    (failed : List BackfillCall) (last : BackfillCall) {n : ℕ}
    (hok : (last.play env (backfills env failed { db })).2 = some (.ok n)) :
    let start := (backfills env failed { db }).db
    let after := (last.play env (backfills env failed { db })).1.db
    after.jobs = db.jobs ∧ after.runs = db.runs ∧ after.LoggedOnce ∧
      (∀ h, after.Covers h ↔ db.Covers h) ∧
      ((∀ h, db.Covers h → after.Rendered env h) ↔
        ∀ h, db.Covers h → start.Rendered env h ∨ start.UnloggedIn h) := by
  intro start after
  have hstart := backfills_kept failed (s := { db }) (Kept.start hlog hgroups hrolled)
  obtain ⟨hafter, hcompleted⟩ := last.kept hstart
  have hcompleted := hcompleted n hok
  refine ⟨hafter.jobs, hafter.runs, hcompleted.once, hafter.covers, forall_congr' fun h => ?_⟩
  exact imp_congr_right fun hcovers => hcompleted.rendered_iff h ((hafter.covers h).mpr hcovers)

/-- A run that an older release finished at time zero. -/
def legacyRun : JobRunRow :=
  { (default : JobRunRow) with
    id := "r1", jobID := "j1", finishedAt := some 0, outcome := .success }

/-- The run, unlogged, in the one hour that the rollups cover. -/
def legacyDb : Db where
  runs := Table.empty.insert runClash legacyRun
  progress := some
    { coveredFrom := 0, coveredTo := 3600, retainFrom := 0, version := 1, updatedAt := 0 }

theorem legacyDb_log : legacyDb.LegacyLog := by
  refine ⟨nodup_nil, nofun, fun r hr t ht _ => ?_⟩
  obtain rfl := mem_singleton.mp (show r ∈ [legacyRun] from hr)
  rfl

theorem legacyDb_groups : legacyDb.HasGroups := fun _ hr => absurd hr not_mem_nil

theorem legacyDb_rendered (h : Time) : legacyDb.Rendered {} h := by
  have hcounts : Flywheel.countEnqueued h (h + hour) {} legacyDb = Dict.empty := by
    unfold Flywheel.countEnqueued
    split_ifs <;> rfl
  rw [Db.Rendered, hcounts]
  exact ⟨0, rfl, rfl⟩

/-- A call whose read of the progress row fails, after its walk. -/
def rerollFails : BackfillCall :=
  { rounds := 9, now := 0, inputs := List.replicate 8 .run ++ [.fail] }

/-- A call that nothing interrupts. -/
def undisturbed : BackfillCall := { rounds := 9, now := 0, inputs := List.replicate 20 .run }

/-- A call whose probe fails. -/
def probeFails : BackfillCall := { rounds := 9, now := 0, inputs := [.run, .fail] }

/-- A call that failed before it logged anything is made good. -/
theorem backfill_after_failed_probe :
    (probeFails.play {} { db := legacyDb }).2 = some (.error .database) ∧
      (undisturbed.play {} (backfills {} [probeFails] { db := legacyDb })).1.db.LoggedOnce ∧
      ∀ h, legacyDb.Covers h →
        (undisturbed.play {} (backfills {} [probeFails] { db := legacyDb })).1.db.Rendered
          {} h := by
  obtain ⟨-, -, honce, -, hiff⟩ := later_backfill_completes {} legacyDb_log legacyDb_groups
    (fun h _ => legacyDb_rendered h) [probeFails] undisturbed (n := 1) rfl
  exact ⟨rfl, honce, hiff.mpr fun h _ => .inl (legacyDb_rendered h)⟩

/-- **The hours of a failed backfill are lost.** The first call logs the run and fails before it
re-rolls the run's hour; the second finds every run logged, returns without an error, and leaves the
hour as it was. -/
theorem interrupted_hour_stays_short :
    legacyDb.LegacyLog ∧ legacyDb.HasGroups ∧ (∀ h, legacyDb.Covers h → legacyDb.Rendered {} h) ∧
      (rerollFails.play {} { db := legacyDb }).2 = some (.error .database) ∧
      (undisturbed.play {} (backfills {} [rerollFails] { db := legacyDb })).2 = some (.ok 0) ∧
      legacyDb.Covers 0 ∧
      ¬ (undisturbed.play {} (backfills {} [rerollFails] { db := legacyDb })).1.db.Rendered
        {} 0 := by
  refine ⟨legacyDb_log, legacyDb_groups, fun h _ => legacyDb_rendered h, by rfl, by rfl,
    ⟨by decide, _, rfl, by decide⟩, ?_⟩
  intro hrendered
  have hgroups : (legacyDb.addFinishes [{ finishedAt := 0, runID := "r1" }]).HasGroups :=
    legacyDb_groups
  have hruns := hrendered.storedRuns (hgroups.labelled hgroups _ _)
  revert hruns
  decide

end Flywheel
