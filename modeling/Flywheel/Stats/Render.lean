import Flywheel.Stats.Progress

/-!
# What an hour stores

The rows that the rollup renders of an hour have distinct keys when every job has a kind and a
queue, so that the transaction of `rollupHour` stores exactly them (`replaceHour_eq`), and the
totals that `refuseShrink` reads back are the numbers of the runs and of the inserts that were
counted (`Db.Stores.storedRuns`, `Db.Stores.storedEnqueued`).
-/

namespace Flywheel

open Relational Transition List Table

/-! ## Upserts under new keys -/

section Upsert

variable {ρ κ : Type} [DecidableEq κ] {key : ρ → κ} {rows stored : List ρ}

/-- Upserts of rows under new keys append them. -/
theorem foldl_upsertRow (hnodup : (rows.map key).Nodup)
    (hnew : ∀ r ∈ rows, ∀ s ∈ stored, key s ≠ key r) :
    rows.foldl (upsertRow key) stored = stored ++ rows := by
  induction rows generalizing stored with
  | nil => rw [foldl_nil, append_nil]
  | cons r rows ih =>
    have hkept : (stored.filter fun s => decide (key s ≠ key r)) = stored :=
      filter_eq_self.mpr fun s hs => decide_eq_true (hnew r mem_cons_self s hs)
    grind [upsertRow]

/-- Rows under new keys are appended on either dialect. -/
theorem upsertRows_new (dialect : Dialect) (hnodup : (rows.map key).Nodup)
    (hnew : ∀ r ∈ rows, ∀ s ∈ stored, key s ≠ key r) :
    upsertRows dialect key rows stored = .ok (stored ++ rows) := by
  rw [upsertRows, if_neg fun h => h.2 hnodup, foldl_upsertRow hnodup hnew]

end Upsert

/-! ## The aggregates of named groups -/

/-- A group that is no total. -/
def StatsGroup.Named (g : StatsGroup) : Prop := g.kind ≠ statsTotalKey ∧ g.queue ≠ statsTotalKey

/-- Every job has a kind and a queue. -/
def Db.HasGroups (db : Db) : Prop := ∀ r ∈ db.jobs.rows, r.group.Named

/-- A column resolved against its job is not empty. -/
theorem resolvedColumn_ne {own : String} {job : Option String} (h : ∀ s, job = some s → s ≠ "") :
    resolvedColumn own job ≠ "" := by
  unfold resolvedColumn
  split_ifs with hown
  · cases job with
    | none => decide
    | some s => exact h s rfl
  · exact hown

/-- Every run of the window is of a named group. -/
theorem runWindow_named {db : Db} (h : db.HasGroups) (start stop : Time) :
    ∀ w ∈ runWindow start stop db, w.group.Named := by
  intro w hw
  obtain ⟨e, -, hw⟩ := mem_filterMap.mp hw
  obtain ⟨r, -, rfl⟩ := Option.map_eq_some_iff.mp hw
  have hjob : ∀ (column : JobRow → String), (∀ j ∈ db.jobs.rows, column j ≠ "") →
      ∀ s, (db.jobs.get? r.jobID).map column = some s → s ≠ "" := by
    intro column hcolumn s hs
    obtain ⟨j, hj, rfl⟩ := Option.map_eq_some_iff.mp hs
    exact hcolumn j (mem_of_get? hj)
  exact ⟨resolvedColumn_ne (hjob _ fun j hj => (h j hj).1),
    resolvedColumn_ne (hjob _ fun j hj => (h j hj).2)⟩

/-- Every counted insert is of a named group. -/
theorem countEnqueued_named {db : Db} (h : db.HasGroups) (start stop : Time) (f : StatsFilter) :
    ∀ g n, (countEnqueued start stop f db).get? g = some n → g.Named := by
  unfold countEnqueued
  split_ifs
  · refine Dict.forall_collect (P := fun (g : StatsGroup) _ => g.Named) (fun r hr => ?_)
      (fun _ _ h => h) (by simp)
    exact h r (mem_filter.mp (mem_filter.mp hr).1).1
  · simp

/-! ## The aggregates' keys and sums -/

/-- The group of an aggregate, with the runs and the inserts that it counts. -/
def RunAgg.tally (a : RunAgg) : StatsGroup × ℤ × ℤ := (a.group, a.counted, a.enqueued)

variable (a : RunAgg)

/-- The outcome is counted beside the tally. -/
theorem RunAgg.countOutcome_tally (o : RunOutcome) : (a.countOutcome o).tally = a.tally := by
  cases o <;> rfl

/-- An attempt adds one to the tally. -/
theorem RunAgg.observeAttempt_tally (id : String) (outcome : RunOutcome)
    (superseded : Bool) (jobState : Option JobState) (duration wait cost : Option ℤ) :
    (a.observeAttempt id outcome superseded jobState duration wait cost).tally =
      (a.group, a.counted + 1, a.enqueued) := by
  cases superseded with
  | true => exact congrArg (fun n => (a.group, n, a.enqueued)) (add_assoc _ _ _).symm
  | false =>
    -- the attempt is counted first; no later value touches the three
    have hcounted : ({ a with attempts := a.attempts + 1 } : RunAgg).tally =
        (a.group, a.counted + 1, a.enqueued) :=
      congrArg (fun n => (a.group, n, a.enqueued)) (add_right_comm _ _ _)
    have hdiscarded : ∀ b : RunAgg,
        (if jobState = some .discarded then { b with discarded := b.discarded + 1 } else b).tally =
          b.tally := by
      intro b
      split_ifs <;> rfl
    have hduration : ∀ b : RunAgg,
        (if outcome = .success then b.withValue duration (RunAgg.observeDuration id) else b).tally =
          b.tally := by
      intro b
      split_ifs
      · exact RunAgg.withValue_keeps RunAgg.tally (RunAgg.observeDuration id)
          (fun _ _ => rfl) b duration
      · rfl
    simp only [RunAgg.observeAttempt, Bool.false_eq_true, if_false]
    rw [RunAgg.withValue_keeps RunAgg.tally RunAgg.addCost (fun _ _ => rfl),
      RunAgg.withValue_keeps RunAgg.tally RunAgg.observeWait (fun _ _ => rfl), hduration,
        hdiscarded,
      RunAgg.countOutcome_tally, hcounted]

variable (w : WindowRow)

/-- A run adds one to the tally. -/
theorem RunAgg.observe_tally : (a.observe w).tally = (a.group, a.counted + 1, a.enqueued) := by
  unfold RunAgg.observe
  split_ifs <;> exact RunAgg.observeAttempt_tally ..

/-- A run leaves the group. -/
theorem RunAgg.observe_group : (a.observe w).group = a.group :=
  congrArg Prod.fst (a.observe_tally w)

/-- A run counts one more. -/
theorem RunAgg.observe_counted : (a.observe w).counted = a.counted + 1 :=
  congrArg (fun t => t.2.1) (a.observe_tally w)

/-- A run leaves the count of inserts. -/
theorem RunAgg.observe_enqueued : (a.observe w).enqueued = a.enqueued :=
  congrArg (fun t => t.2.2) (a.observe_tally w)

/-- Merged aggregates count the runs of both. -/
theorem RunAgg.merge_counted (a b : RunAgg) : (a.merge b).counted = a.counted + b.counted :=
  add_add_add_comm _ _ _ _

section Aggregate

variable {hash : ErrorHash} {rows : List WindowRow} {counts : Dict StatsGroup ℤ}

/-- The aggregates are kept under their groups, all named. -/
theorem aggregateRows_runs (hrows : ∀ w ∈ rows, w.group.Named)
    (hcounts : ∀ g n, counts.get? g = some n → g.Named) :
    ∀ g a, (aggregateRows hash rows counts).runs.get? g = some a → a.group = g ∧ g.Named := by
  unfold aggregateRows
  refine Dict.forall_collect (P := fun (g : StatsGroup) (a : RunAgg) => a.group = g ∧ g.Named) ?_
    ?_ ?_
  · intro e he
    exact ⟨rfl, hcounts e.1 e.2 (Dict.get?_eq_some_iff.mpr he)⟩
  · exact fun _ _ h => h
  · refine Dict.forall_collect (P := fun (g : StatsGroup) (a : RunAgg) => a.group = g ∧ g.Named) ?_
      ?_ (by simp)
    · exact fun w hw => ⟨rfl, hrows w hw⟩
    · exact fun a w h => ⟨(a.observe_group w).trans h.1, h.2⟩

/-- The aggregates count every row once. -/
theorem sum_counted :
    ((aggregateRows hash rows counts).runs.values.map RunAgg.counted).sum = rows.length := by
  unfold aggregateRows
  have hkeeps : ∀ (a : RunAgg) (e : StatsGroup × ℤ), (a.addEnqueued e.2).counted = a.counted + 0 :=
    fun a _ => (add_zero a.counted).symm
  rw [Dict.sum_collect RunAgg.counted (fun _ => 0) (fun _ => rfl) hkeeps,
    Dict.sum_collect RunAgg.counted (fun _ => 1) (fun _ => rfl) RunAgg.observe_counted]
  simp [Dict.values, Dict.empty]

/-- The aggregates count every insert once. -/
theorem sum_enqueued :
    ((aggregateRows hash rows counts).runs.values.map RunAgg.enqueued).sum = counts.values.sum := by
  unfold aggregateRows
  rw [Dict.sum_collect RunAgg.enqueued Prod.snd (fun _ => rfl) (fun _ _ => rfl),
    Dict.sum_collect RunAgg.enqueued (fun _ => 0) (fun _ => rfl)
      (fun a w => (a.observe_enqueued w).trans (add_zero _).symm)]
  simp [Dict.values, Dict.empty]

/-- A failure leaves the error group's key. -/
theorem ErrorGroupAgg.observeRow_key (g : ErrorGroupAgg) (w : WindowRow) :
    (g.observeRow w).kind = g.kind ∧ (g.observeRow w).fingerprint = g.fingerprint := by
  simp only [ErrorGroupAgg.observeRow, ErrorGroupAgg.observe, ErrorGroupAgg.withLast]
  split_ifs <;> exact ⟨rfl, rfl⟩

/-- The error groups are kept under their kinds and fingerprints. -/
theorem aggregateRows_groups : ∀ k g, (aggregateRows hash rows counts).groups.get? k = some g →
    g.kind = k.kind ∧ g.fingerprint = k.fingerprint := by
  refine Dict.forall_collect (P := fun (k : ErrorGroupKey) (g : ErrorGroupAgg) =>
    g.kind = k.kind ∧ g.fingerprint = k.fingerprint) ?_ ?_ (by simp)
  · exact fun w hw => ⟨rfl, rfl⟩
  · intro g w h
    obtain ⟨hkind, hfingerprint⟩ := g.observeRow_key w
    exact ⟨hkind.trans h.1, hfingerprint.trans h.2⟩

end Aggregate

/-! ## The rows of an hour -/

section Rows

variable {aggs : Dict StatsGroup RunAgg} {bucket rolledAt : Time}

/-- The rows in the order of their keys are the rows. -/
theorem inKeyOrder_perm {ρ : Type} (key : ρ → String × String) (rows : List ρ) :
    (inKeyOrder key rows).Perm rows :=
  perm_insertionSort _ _

/-- Each aggregate is stored under its group, which is named. -/
abbrev Grouped (aggs : Dict StatsGroup RunAgg) : Prop :=
  ∀ g a, aggs.get? g = some a → a.group = g ∧ g.Named

/-- A kind's total is under the kind, in the queue of totals. -/
theorem kindTotals_spec (h : Grouped aggs) :
    ∀ k a, (kindTotals aggs).get? k = some a →
      a.kind = k ∧ a.queue = statsTotalKey ∧ k ≠ statsTotalKey := by
  unfold kindTotals
  refine Dict.forall_collect (P := fun (k : String) (a : RunAgg) =>
    a.kind = k ∧ a.queue = statsTotalKey ∧ k ≠ statsTotalKey) ?_ ?_ (by simp)
  · intro e he
    exact ⟨rfl, rfl, (h e.1 e.2 (Dict.get?_eq_some_iff.mpr he)).2.1⟩
  · exact fun _ _ h => h

/-- What merging a list adds up to. -/
theorem foldl_merge (as : List RunAgg) (a : RunAgg) : (as.foldl RunAgg.merge a).group = a.group ∧
      (as.foldl RunAgg.merge a).counted = a.counted + (as.map RunAgg.counted).sum ∧
      (as.foldl RunAgg.merge a).enqueued = a.enqueued + (as.map RunAgg.enqueued).sum := by
  induction as generalizing a with
  | nil => simp
  | cons b as ih =>
    obtain ⟨hgroup, hcounted, henqueued⟩ := ih (a.merge b)
    refine ⟨hgroup, ?_, ?_⟩
    · rw [foldl_cons, hcounted, RunAgg.merge_counted, map_cons, sum_cons, add_assoc]
    · rw [foldl_cons, henqueued, map_cons, sum_cons, ← add_assoc]
      rfl

/-- The key of an aggregate's row. -/
def RunAgg.key (a : RunAgg) : String × String := (a.kind, a.queue)

/-- No group has the key of a total. -/
theorem values_named (h : Grouped aggs) :
    ∀ a ∈ aggs.values, a.kind ≠ statsTotalKey ∧ a.queue ≠ statsTotalKey := by
  intro a ha
  obtain ⟨e, he, rfl⟩ := mem_map.mp ha
  obtain ⟨hgroup, hnamed⟩ := h e.1 e.2 (Dict.get?_eq_some_iff.mpr he)
  rw [← hgroup] at hnamed
  exact hnamed

/-- The kinds' totals have named kinds. -/
theorem kindTotals_named (h : Grouped aggs) :
    ∀ a ∈ (kindTotals aggs).values, a.kind ≠ statsTotalKey ∧ a.queue = statsTotalKey := by
  intro a ha
  obtain ⟨e, he, rfl⟩ := mem_map.mp ha
  obtain ⟨hk, hq, hne⟩ := kindTotals_spec h e.1 e.2 (Dict.get?_eq_some_iff.mpr he)
  exact ⟨hk ▸ hne, hq⟩

/-- The hour's total has the total's key twice. -/
theorem hourTotal_key : (hourTotal aggs).key = (statsTotalKey, statsTotalKey) :=
  congrArg (fun g : StatsGroup => (g.kind, g.queue)) (foldl_merge _ _).1

/-- The aggregates of an hour's rows have distinct keys. -/
theorem nodup_hourKeys (h : Grouped aggs) :
    ((aggs.values ++ (kindTotals aggs).values ++ [hourTotal aggs]).map RunAgg.key).Nodup := by
  have hgroups : (aggs.values.map RunAgg.key).Nodup := by
    have hnodup := aggs.nodup_values fun g a ha => (h g a ha).1
    refine Nodup.of_map (fun k : String × String => (⟨k.1, k.2⟩ : StatsGroup)) ?_
    rw [map_map]
    exact hnodup
  have hkinds : ((kindTotals aggs).values.map RunAgg.key).Nodup := by
    have hnodup := (kindTotals aggs).nodup_values fun k a ha => (kindTotals_spec h k a ha).1
    refine Nodup.of_map Prod.fst ?_
    rw [map_map]
    exact hnodup
  rw [map_append, map_append]
  refine Nodup.append (Nodup.append hgroups hkinds ?_) (nodup_singleton _) ?_
  · intro k hk hk'
    obtain ⟨a, ha, rfl⟩ := mem_map.mp hk
    obtain ⟨b, hb, hkey⟩ := mem_map.mp hk'
    exact (values_named h a ha).2 ((congrArg Prod.snd hkey).symm.trans (kindTotals_named h b hb).2)
  · intro k hk hk'
    have htotal : k = (statsTotalKey, statsTotalKey) := (mem_singleton.mp hk').trans hourTotal_key
    rcases mem_append.mp hk with hk | hk
    · obtain ⟨a, ha, hkey⟩ := mem_map.mp hk
      exact (values_named h a ha).1 (congrArg Prod.fst (hkey.trans htotal))
    · obtain ⟨a, ha, hkey⟩ := mem_map.mp hk
      exact (kindTotals_named h a ha).1 (congrArg Prod.fst (hkey.trans htotal))

/-- The rows of an hour have distinct keys. -/
theorem hourRows_nodup (h : Grouped aggs) :
    ((hourRows bucket aggs rolledAt).map StatsHourRow.key).Nodup := by
  unfold hourRows
  split_ifs
  · exact nodup_nil
  · refine ((inKeyOrder_perm _ _).map _).nodup_iff.mpr ?_
    rw [map_map]
    exact nodup_hourKeys h

/-- The rows of an hour are in its bucket. -/
theorem hourRows_bucket {r : StatsHourRow} (hr : r ∈ hourRows bucket aggs rolledAt) :
    r.bucketStart = unix bucket := by
  unfold hourRows at hr
  split_ifs at hr
  · cases hr
  · obtain ⟨a, -, rfl⟩ := mem_map.mp ((inKeyOrder_perm _ _).mem_iff.mp hr)
    rfl

/-- One row of the hour is its total. -/
theorem filter_total (h : Grouped aggs) :
    ((aggs.values ++ (kindTotals aggs).values ++ [hourTotal aggs]).filter fun a =>
      decide (a.key = (statsTotalKey, statsTotalKey))) = [hourTotal aggs] := by
  have hother : ∀ as : List RunAgg, (∀ a ∈ as, a.kind ≠ statsTotalKey) →
      (as.filter fun a => decide (a.key = (statsTotalKey, statsTotalKey))) = [] := by
    intro as has
    refine filter_eq_nil_iff.mpr fun a ha hkey => ?_
    exact has a ha (congrArg Prod.fst (of_decide_eq_true hkey))
  rw [filter_append, filter_append, hother _ fun a ha => (values_named h a ha).1,
    hother _ fun a ha => (kindTotals_named h a ha).1, nil_append, nil_append]
  simp [hourTotal_key]

/-- The hour's total sums what its groups do. -/
theorem sum_total (μ : RunAgg → ℤ) (h : Grouped aggs)
    (hμ : μ (hourTotal aggs) = (aggs.values.map μ).sum) :
    (((hourRows bucket aggs rolledAt).filter fun r =>
      decide (r.key = (statsTotalKey, statsTotalKey))).map fun r => μ r.agg).sum =
      (aggs.values.map μ).sum := by
  unfold hourRows
  split_ifs with hempty
  · simp [Dict.values, hempty]
  · rw [(((inKeyOrder_perm _ _).filter _).map _).sum_eq, filter_map, map_map]
    change ((((aggs.values ++ (kindTotals aggs).values ++ [hourTotal aggs]).filter fun a =>
      decide (a.key = (statsTotalKey, statsTotalKey))).map μ).sum) = _
    rw [filter_total h, map_singleton, sum_singleton, hμ]

variable {groups : Dict ErrorGroupKey ErrorGroupAgg}

/-- The error groups of an hour have distinct keys. -/
theorem errorGroupHourRows_nodup
    (h : ∀ k g, groups.get? k = some g → g.kind = k.kind ∧ g.fingerprint = k.fingerprint) :
    ((errorGroupHourRows bucket groups rolledAt).map ErrorGroupHourRow.key).Nodup := by
  refine ((inKeyOrder_perm _ _).map _).nodup_iff.mpr ?_
  rw [map_map]
  refine Nodup.of_map (fun k : String × String => (⟨k.1, k.2⟩ : ErrorGroupKey)) ?_
  rw [map_map]
  refine groups.nodup_values fun k g hg => ?_
  obtain ⟨hkind, hfingerprint⟩ := h k g hg
  exact congrArg₂ ErrorGroupKey.mk hkind hfingerprint

/-- The error groups of an hour are in its bucket. -/
theorem errorGroupHourRows_bucket
    {r : ErrorGroupHourRow} (hr : r ∈ errorGroupHourRows bucket groups rolledAt) :
    r.bucketStart = unix bucket := by
  obtain ⟨g, -, rfl⟩ := mem_map.mp ((inKeyOrder_perm _ _).mem_iff.mp hr)
  rfl

end Rows

/-! ## The stored hour -/

/-- The rows stored for an hour are those that these runs and inserts give. -/
def Db.Stores (env : StatsEnv) (db : Db) (bucket : Time) (rows : List WindowRow)
    (counts : Dict StatsGroup ℤ) : Prop :=
  ∃ rolledAt,
    db.hourlyAt bucket = hourRows bucket (aggregateRows env.hash rows counts).runs rolledAt ∧
    db.errorGroupsAt bucket =
      errorGroupHourRows bucket (aggregateRows env.hash rows counts).groups rolledAt

/-- The rows stored for an hour are those that `rollupHour` would store now. -/
def Db.Rendered (env : StatsEnv) (db : Db) (bucket : Time) : Prop :=
  db.Stores env bucket (runWindow bucket (bucket + hour) db)
    (Flywheel.countEnqueued bucket (bucket + hour) {} db)

/-- Runs and counts of inserts of named groups. -/
structure Labelled (rows : List WindowRow) (counts : Dict StatsGroup ℤ) : Prop where
  rows : ∀ w ∈ rows, w.group.Named
  counts : ∀ g n, counts.get? g = some n → g.Named

/-- What a database with named groups rolls up is labelled. -/
theorem Db.HasGroups.labelled {db db' : Db} (h : db.HasGroups) (h' : db'.HasGroups)
    (start stop : Time) :
    Labelled (runWindow start stop db) (Flywheel.countEnqueued start stop {} db') :=
  ⟨runWindow_named h start stop, countEnqueued_named h' start stop {}⟩

section Stores

variable {env : StatsEnv} {db : Db} {bucket : Time} {rows : List WindowRow}
  {counts : Dict StatsGroup ℤ}

/-- The stored total counts the runs. -/
theorem Db.Stores.storedRuns (h : db.Stores env bucket rows counts)
    (hlabel : Labelled rows counts) : db.storedRuns bucket = rows.length := by
  obtain ⟨rolledAt, hhourly, -⟩ := h
  have htotal : (hourTotal (aggregateRows env.hash rows counts).runs).counted =
      ((aggregateRows env.hash rows counts).runs.values.map RunAgg.counted).sum :=
    (foldl_merge _ _).2.1.trans (zero_add _)
  rw [Db.storedRuns, Db.storedTotals, hhourly,
    sum_total RunAgg.counted (aggregateRows_runs hlabel.rows hlabel.counts) htotal, sum_counted]

/-- The stored total counts the inserts. -/
theorem Db.Stores.storedEnqueued (h : db.Stores env bucket rows counts)
    (hlabel : Labelled rows counts) : db.storedEnqueued bucket = counts.values.sum := by
  obtain ⟨rolledAt, hhourly, -⟩ := h
  have htotal : (hourTotal (aggregateRows env.hash rows counts).runs).enqueued =
      ((aggregateRows env.hash rows counts).runs.values.map RunAgg.enqueued).sum :=
    (foldl_merge _ _).2.2.trans (zero_add _)
  rw [Db.storedEnqueued, Db.storedTotals, hhourly,
    sum_total RunAgg.enqueued (aggregateRows_runs hlabel.rows hlabel.counts) htotal, sum_enqueued]

end Stores

/-! ## The write -/

/-- The database after a write of an hour. -/
def HourWrite.store (env : StatsEnv) (w : HourWrite) (db : Db) : Db :=
  applyCoverageStep w.step w.rolledAt { db with
      hourly := (db.hourly.filter fun r => decide (r.bucketStart ≠ unix w.bucket)) ++
        hourRows w.bucket (w.agg env).runs w.rolledAt
      errorGroups := (db.errorGroups.filter fun r => decide (r.bucketStart ≠ unix w.bucket)) ++
        errorGroupHourRows w.bucket (w.agg env).groups w.rolledAt }

section Write

variable {env : StatsEnv} {w : HourWrite} {db db' : Db}

/-- The write stores no less than is stored. -/
def HourWrite.Keeps (w : HourWrite) (db : Db) : Prop :=
  db.storedRuns w.bucket ≤ w.rows.length ∧ db.storedEnqueued w.bucket ≤ w.counts.values.sum

/-- `refuseShrink` lets pass exactly a write that stores no less. -/
theorem refuseShrink_eq_ok : refuseShrink w.bucket (w.agg env).runs db = .ok () ↔ w.Keeps db := by
  unfold refuseShrink HourWrite.Keeps
  rw [HourWrite.agg, sum_counted, sum_enqueued]
  grind

/-- The transaction of `rollupHour` stores the hour's rows, unless its guard refuses them. -/
theorem replaceHour_eq (hlabel : Labelled w.rows w.counts) (hguard : w.guard = true → w.Keeps db) :
    replaceHour env w db = .ok (w.store env db) := by
  -- the rows left of the tables are of other hours, those of this one have distinct keys
  have hhourly : upsertRows env.dialect StatsHourRow.primaryKey
      (hourRows w.bucket (w.agg env).runs w.rolledAt)
      (db.hourly.filter fun r => decide (r.bucketStart ≠ unix w.bucket)) =
      .ok ((db.hourly.filter fun r => decide (r.bucketStart ≠ unix w.bucket)) ++
        hourRows w.bucket (w.agg env).runs w.rolledAt) := by
    refine upsertRows_new env.dialect (Nodup.of_map Prod.snd ?_) fun r hr s hs heq => ?_
    · rw [map_map]
      exact hourRows_nodup (aggregateRows_runs hlabel.rows hlabel.counts)
    · exact of_decide_eq_true (mem_filter.mp hs).2
        ((congrArg Prod.fst heq).trans (hourRows_bucket hr))
  have hgroups : upsertRows env.dialect ErrorGroupHourRow.primaryKey
      (errorGroupHourRows w.bucket (w.agg env).groups w.rolledAt)
      (db.errorGroups.filter fun r => decide (r.bucketStart ≠ unix w.bucket)) =
      .ok ((db.errorGroups.filter fun r => decide (r.bucketStart ≠ unix w.bucket)) ++
        errorGroupHourRows w.bucket (w.agg env).groups w.rolledAt) := by
    refine upsertRows_new env.dialect (Nodup.of_map Prod.snd ?_) fun r hr s hs heq => ?_
    · rw [map_map]
      exact errorGroupHourRows_nodup aggregateRows_groups
    · exact of_decide_eq_true (mem_filter.mp hs).2
        ((congrArg Prod.fst heq).trans (errorGroupHourRows_bucket hr))
  unfold replaceHour
  dsimp only
  rw [hhourly, hgroups]
  split_ifs with hg
  · rw [refuseShrink_eq_ok.mpr (hguard hg)]
    rfl
  · rfl

/-- A replaced bucket has its new rows, and every other its old ones. -/
theorem filter_replaced {ρ : Type} (start : ρ → ℤ) {stored rows : List ρ} {u : ℤ}
    (hrows : ∀ r ∈ rows, start r = u) (v : ℤ) :
    (((stored.filter fun r => decide (start r ≠ u)) ++ rows).filter fun r => decide (start r = v)) =
      if v = u then rows else stored.filter fun r => decide (start r = v) := by
  rw [filter_append, filter_filter]
  split_ifs with hv
  · simp_all
  · have hnone : (rows.filter fun r => decide (start r = v)) = [] :=
      filter_eq_nil_iff.mpr fun r hr => by simpa [hrows r hr] using Ne.symm hv
    grind

/-- The hours after a write. -/
theorem HourWrite.store_hourlyAt (bucket : Time) : (w.store env db).hourlyAt bucket =
      if unix bucket = unix w.bucket then hourRows w.bucket (w.agg env).runs w.rolledAt
      else db.hourlyAt bucket :=
  filter_replaced StatsHourRow.bucketStart (fun _ => hourRows_bucket) _

/-- The error groups after a write. -/
theorem HourWrite.store_errorGroupsAt (bucket : Time) : (w.store env db).errorGroupsAt bucket =
      if unix bucket = unix w.bucket then errorGroupHourRows w.bucket (w.agg env).groups w.rolledAt
      else db.errorGroupsAt bucket :=
  filter_replaced ErrorGroupHourRow.bucketStart (fun _ => errorGroupHourRows_bucket) _

/-- A write stores its hour. -/
theorem HourWrite.store_stores : (w.store env db).Stores env w.bucket w.rows w.counts := by
  refine ⟨w.rolledAt, ?_, ?_⟩
  · rw [HourWrite.store_hourlyAt, if_pos rfl]
    rfl
  · rw [HourWrite.store_errorGroupsAt, if_pos rfl]
    rfl

/-- A write leaves the other hours as they are stored. -/
theorem HourWrite.store_other {bucket : Time} (hne : unix bucket ≠ unix w.bucket)
    {rows : List WindowRow} {counts : Dict StatsGroup ℤ} :
    (w.store env db).Stores env bucket rows counts ↔ db.Stores env bucket rows counts := by
  unfold Db.Stores
  rw [HourWrite.store_hourlyAt, HourWrite.store_errorGroupsAt, if_neg hne, if_neg hne]

end Write

end Flywheel
