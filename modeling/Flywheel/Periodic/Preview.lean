import Flywheel.Library.Chain
import Flywheel.Periodic.History

/-!
# The preview of a schedule

`NextPeriodicFires` lists the next fire times of a schedule without reading anything,
`ResumePeriodic` moves a paused schedule's cursor to the next, and the ticks enqueue them. The three
follow one chain of times (`PeriodicView.following`): the ticks take it part by part from the cursor
on, and the preview and the resume begin it at the first link after their instant.
-/

namespace Flywheel

open Relational Threads Transition Chain List Option Table

/-! ## The preview -/

/-- `PeriodicView`, as far as a preview reads it. -/
structure PeriodicView where
  cron : String := ""
  intervalSeconds : ℤ := 0
  nextRunAt : Time

/-- `periodicViewFromRow` -/
def PeriodicRow.view (r : PeriodicRow) : PeriodicView where
  cron := r.cronExpr.getD ""
  intervalSeconds := r.intervalSeconds.getD 0
  nextRunAt := r.nextRunAt

/-- `MaxNextFires` -/
def maxNextFires : ℤ := 100

/-- The loop of `NextPeriodicFires` over a cron, which ends early where there is no next match. -/
def Cron.listFires (c : Cron) : ℕ → Time → List Time
  | 0, _ => []
  | n + 1, next => if next = zeroTime then [] else next :: c.listFires n (c.nextTime next)

/-- `NextPeriodicFires` -/
def nextPeriodicFires (env : PeriodicEnv) (p : PeriodicView) (after : Time) (n : ℤ) :
    Except PeriodicError (List Time) :=
  if n < 1 ∨ maxNextFires < n then .error (.validation "n" "must be between 1 and 100")
  else if 0 < p.intervalSeconds then
    let interval := p.intervalSeconds * second
    let next :=
      if p.nextRunAt = zeroTime then after + interval
      else if p.nextRunAt ≤ after then p.nextRunAt + ((after - p.nextRunAt) / interval + 1) *
        interval
      else p.nextRunAt
    .ok (List.iterate (· + interval) next n.toNat)
  else if p.cron ≠ "" then
    match env.parseCron p.cron with
    | none => .error (.cron p.cron)
    | some schedule =>
      .ok (schedule.listFires n.toNat
        (if p.nextRunAt ≤ after then schedule.nextTime after else p.nextRunAt))
  else .error (.validation "schedule" "the view has neither a cron expression nor an interval")

/-! ## The chain of a schedule -/

/-- The fire time after a fire time. -/
def PeriodicView.following (env : PeriodicEnv) (p : PeriodicView) (t : Time) : Time :=
  if 0 < p.intervalSeconds then t + p.intervalSeconds * second
  else match env.parseCron p.cron with
    | none => t
    | some schedule => schedule.nextTime t

/-- A schedule that always has a next fire time: an interval, or a cron that parses and always finds
a next match. -/
structure PeriodicView.Endless (env : PeriodicEnv) (p : PeriodicView) : Prop where
  cadence : 0 < p.intervalSeconds ∨ p.cron ≠ "" ∧
    ∃ schedule, env.parseCron p.cron = some schedule ∧ ∀ t, schedule.next t ≠ none
  cursor : zeroTime < p.nextRunAt

variable {env : PeriodicEnv} {p : PeriodicView} {start now last : Time}

theorem PeriodicView.following_interval (env : PeriodicEnv) (h : 0 < p.intervalSeconds) :
    p.following env = (· + p.intervalSeconds * second) :=
  funext fun _ => if_pos h

theorem PeriodicView.following_cron (h : ¬0 < p.intervalSeconds) {schedule : Cron}
    (hparse : env.parseCron p.cron = some schedule) : p.following env = schedule.nextTime := by
  funext t
  rw [PeriodicView.following, if_neg h, hparse]

variable {c : Cron} {defs : List Definition} {t : TickPlay}

theorem Cron.lt_nextTime (h : ∀ t, c.next t ≠ none) (t : Time) : t < c.nextTime t := by
  obtain ⟨u, hu⟩ := ne_none_iff_exists'.mp (h t)
  rw [Cron.nextTime, hu]
  exact (c.next_some t u hu).1

theorem PeriodicView.Endless.lt_following (h : p.Endless env) (t : Time) :
    t < p.following env t := by
  by_cases hevery : 0 < p.intervalSeconds
  · rw [p.following_interval env hevery]
    exact lt_add_of_pos_right t (mul_pos hevery (by decide))
  · obtain ⟨-, schedule, hparse, hnext⟩ := h.cadence.resolve_left hevery
    rw [p.following_cron hevery hparse]
    exact Cron.lt_nextTime hnext t

theorem intervalTimes_through {start step now : ℤ} (hstep : 0 < step) (hdue : start ≤ now) :
    Through (· + step) start now (intervalTimes start step now)
      (start + ((now - start) / step + 1) * step) := by
  have hnonneg : 0 ≤ (now - start) / step := Int.ediv_nonneg (by omega) hstep.le
  have hlength : (intervalTimes start step now).length = ((now - start) / step + 1).toNat := by
    rw [intervalTimes, length_map, length_range]
  refine ⟨ext_getElem (length_iterate ..).symm fun i hi hi' => ?_, ?_, fun t ht => ?_, ?_⟩
  · simp_all [intervalTimes]
  · rw [iterate_add_eq, hlength, Int.toNat_of_nonneg (Int.add_nonneg hnonneg (by decide))]
  · exact ((mem_intervalTimes hstep).mp ht).2
  · exact sub_lt_iff_lt_add'.mp (Int.lt_ediv_add_one_mul_self (now - start) hstep)

variable {fuel : ℕ} {ts : List Time}

theorem Cron.walk_through
    (h : c.walk now fuel start = some (ts, last)) : Through c.nextTime start now ts last := by
  induction fuel generalizing start ts with
  | zero => cases h
  | succ fuel ih =>
    rw [Cron.walk] at h
    split_ifs at h with hend
    · cases h
      exact .nil hend
    · obtain ⟨⟨rest, last'⟩, hrest, heq⟩ := map_eq_some_iff.mp h
      cases heq
      exact .cons (not_lt.mp hend) (ih hrest)

/-- A walk to now ends at the first match after it. -/
theorem Cron.walk_last (hnext : ∀ t, c.next t ≠ none)
    (h : c.walk now fuel start = some (ts, last)) (hdue : start ≤ now) : last = c.nextTime now := by
  induction fuel generalizing start ts with
  | zero => cases h
  | succ fuel ih =>
    obtain ⟨u, rest, hu, rfl, hrest⟩ := Cron.walk_cons h hdue
    rcases le_or_gt u now with hle | hgt
    · exact ih hrest hle
    · obtain rfl : last = u := by
        cases fuel with
        | zero => cases hrest
        | succ fuel =>
          rw [Cron.walk, if_pos hgt] at hrest
          exact (Prod.mk.inj (some_inj.mp hrest)).2.symm
      obtain ⟨v, hv⟩ := ne_none_iff_exists'.mp (hnext now)
      obtain ⟨-, -, hfires, hnone⟩ := c.next_some start last hu
      obtain ⟨hlt, -, hfires', hnone'⟩ := c.next_some now v hv
      rw [Cron.nextTime, hv]
      grind

/-- **Without a cap, the buckets of a definition are its chain through now.** -/
theorem PeriodicRow.buckets_through {row : PeriodicRow} (hendless : row.view.Endless env)
    (hdue : row.nextRunAt ≤ now) {limit : ℤ} (hlimit : limit ≤ 0) {buckets : List Time}
    {nextRun : Time} (h : row.buckets env now limit fuel = some (.ok (buckets, nextRun))) :
    Through (row.view.following env) row.nextRunAt now buckets nextRun := by
  rw [PeriodicRow.buckets] at h
  by_cases hevery : 0 < row.intervalSeconds.getD 0
  · rw [if_pos hevery, intervalBuckets_eq hevery hdue, if_neg (not_lt.mpr hlimit)] at h
    cases h
    rw [PeriodicView.following_interval env hevery]
    exact intervalTimes_through (mul_pos hevery (by decide)) hdue
  · obtain ⟨hcron, schedule, hparse, -⟩ := hendless.cadence.resolve_left hevery
    rw [PeriodicView.following_cron hevery hparse]
    change env.parseCron (row.cronExpr.getD "") = some schedule at hparse
    change row.cronExpr.getD "" ≠ "" at hcron
    rw [if_neg hevery, if_pos hcron, cronBuckets_eq, hparse] at h
    obtain ⟨⟨ts, last⟩, hwalk, heq⟩ := map_eq_some_iff.mp h
    dsimp only at heq
    rw [if_neg (not_lt.mpr hlimit)] at heq
    cases heq
    exact Cron.walk_through hwalk

/-! ## The preview and the resume begin the chain at their instant -/

theorem Cron.listFires_eq (hnext : ∀ t, c.next t ≠ none) (n : ℕ) {t : Time} (ht : zeroTime < t) :
    c.listFires n t = List.iterate c.nextTime t n := by
  induction n generalizing t with
  | zero => rfl
  | succ n ih =>
    rw [Cron.listFires, if_neg ht.ne', List.iterate, ih (ht.trans (Cron.lt_nextTime hnext t))]

/-- **The preview is the chain from its first link after the instant, and a resume moves the cursor
to that link.** -/
theorem PeriodicView.Endless.first (h : p.Endless env) (after : Time) :
    ∃ ts first, Through (p.following env) p.nextRunAt after ts first ∧
      (∀ n, 1 ≤ n → n ≤ maxNextFires →
        nextPeriodicFires env p after n = .ok (List.iterate (p.following env) first n.toNat)) ∧
      ∀ row : PeriodicRow, row.view = p → resumedNextRun env row after = .ok first := by
  have hrange : ∀ n, 1 ≤ n → n ≤ maxNextFires → ¬(n < 1 ∨ maxNextFires < n) := fun n hone hmax =>
    not_or.mpr ⟨not_lt.mpr hone, not_lt.mpr hmax⟩
  by_cases hevery : 0 < p.intervalSeconds
  · have hstep : 0 < p.intervalSeconds * second := mul_pos hevery (by decide)
    rw [p.following_interval env hevery]
    by_cases hdue : p.nextRunAt ≤ after
    · refine ⟨_, _, intervalTimes_through hstep hdue, fun n hone hmax => ?_, ?_⟩
      · rw [nextPeriodicFires, if_neg (hrange n hone hmax), if_pos hevery]
        dsimp only
        rw [if_neg h.cursor.ne', if_pos hdue]
      · rintro row rfl
        change row.nextRunAt ≤ after at hdue
        rw [resumedNextRun, if_neg (not_lt.mpr hdue)]
        exact if_pos hevery
    · refine ⟨_, _, .nil (not_le.mp hdue), fun n hone hmax => ?_, ?_⟩
      · rw [nextPeriodicFires, if_neg (hrange n hone hmax), if_pos hevery]
        dsimp only
        rw [if_neg h.cursor.ne', if_neg hdue]
      · rintro row rfl
        exact if_pos (not_le.mp hdue)
  · obtain ⟨hcron, schedule, hparse, hnext⟩ := h.cadence.resolve_left hevery
    rw [p.following_cron hevery hparse]
    by_cases hdue : p.nextRunAt ≤ after
    · obtain ⟨ts, last, hwalk⟩ := Cron.walk_ends (fun t _ _ => hnext t) (Nat.lt_succ_self _)
      obtain rfl := Cron.walk_last hnext hwalk hdue
      refine ⟨ts, _, Cron.walk_through hwalk, fun n hone hmax => ?_, ?_⟩
      · rw [nextPeriodicFires, if_neg (hrange n hone hmax), if_neg hevery, if_pos hcron, hparse]
        dsimp only
        rw [if_pos hdue, Cron.listFires_eq hnext]
        exact (h.cursor.trans_le hdue).trans (Cron.lt_nextTime hnext after)
      · rintro row rfl
        change env.parseCron (row.cronExpr.getD "") = some schedule at hparse
        change row.cronExpr.getD "" ≠ "" at hcron
        change ¬0 < row.intervalSeconds.getD 0 at hevery
        change row.nextRunAt ≤ after at hdue
        rw [resumedNextRun, if_neg (not_lt.mpr hdue), if_neg hevery, if_pos hcron, hparse]
    · refine ⟨_, _, .nil (not_le.mp hdue), fun n hone hmax => ?_, ?_⟩
      · rw [nextPeriodicFires, if_neg (hrange n hone hmax), if_neg hevery, if_pos hcron, hparse]
        dsimp only
        rw [if_neg hdue, Cron.listFires_eq hnext _ h.cursor]
      · rintro row rfl
        exact if_pos (not_le.mp hdue)

/-! ## The ticks take the chain part by part -/

/-- The bucket of a definition that a statement enqueues. -/
def PeriodicOp.bucketOf (id : String) : PeriodicOp → Option Time
  | .enqueueBucket d bucket => if d.id = id then some bucket else none
  | _ => none

/-- The buckets of a definition that statements enqueue, in order. -/
def bucketsOf (id : String) (ops : List PeriodicOp) : List Time := ops.filterMap
    (PeriodicOp.bucketOf id)

/-- The statements that a tick makes. -/
def tickStatements (env : PeriodicEnv) (backfillCap : ℤ) (s : PeriodicState) (t : TickPlay) :
    List PeriodicOp :=
  ((Periodic.tick env backfillCap t.fuel t.now).play (Prog.traced (periodicMachine env)) t.inputs
    (s, [])).1.2

/-- A tick succeeds: it reports, with no error. -/
def TickSucceeds (env : PeriodicEnv) (backfillCap : ℤ) (s : PeriodicState) (t : TickPlay) : Prop :=
  ∃ r, (playTick env backfillCap s t).reports = s.reports ++ [r] ∧ r.errs = []

/-- Each of these ticks succeeds. -/
def TicksSucceed (env : PeriodicEnv) (backfillCap : ℤ) : List TickPlay → PeriodicState → Prop
  | [], _ => True
  | t :: ticks, s => TickSucceeds env backfillCap s t ∧
    TicksSucceed env backfillCap ticks (playTick env backfillCap s t)

/-- The buckets of a definition that ticks enqueue, in order. -/
def ticksEnqueue (env : PeriodicEnv) (backfillCap : ℤ) (id : String) :
    List TickPlay → PeriodicState → List Time
  | [], _ => []
  | t :: ticks, s => bucketsOf id (tickStatements env backfillCap s t) ++
    ticksEnqueue env backfillCap id ticks (playTick env backfillCap s t)

/-- What a program of a tick leaves, which reports nothing before its end. -/
abbrev Leaves {α : Type} (env : PeriodicEnv) (reports : List TickReport) (p : PeriodicProg α)
    (Q : α → PeriodicState × List PeriodicOp → Prop) (s : PeriodicState × List PeriodicOp) : Prop :=
  p.Ensures (Prog.traced (periodicMachine env)) (fun _ _ _ => True) (fun _ => True)
    (fun s => s.1.reports = reports) Q s

variable {reports : List TickReport} {s : PeriodicState × List PeriodicOp} {backfillCap : ℤ}
  {fuel : ℕ}
  {id : String} {d : Definition} {e : Definition}

theorem Leaves.stmt {o : PeriodicOp} {Q : Except PeriodicError o.Answer →
      PeriodicState × List PeriodicOp → Prop} (hreports : s.1.reports = reports)
    (h : ∀ input s' a children, periodicMachine env o input s.1 = some (s', a, children) →
      Q a (s', s.2 ++ [o])) : Leaves env reports (Periodic.stmt o) Q s := by
  refine ⟨fun _ => hreports, fun input s' a children _ hact => ?_⟩
  obtain ⟨⟨_, _, _⟩, hmade, heq⟩ := map_eq_some_iff.mp hact
  cases heq
  exact h input _ _ _ hmade

theorem bucketsOf_append (id : String) (ops : List PeriodicOp) (o : PeriodicOp) :
    bucketsOf id (ops ++ [o]) = bucketsOf id ops ++ (o.bucketOf id).toList := by
  rw [bucketsOf, filterMap_append, ← bucketsOf]
  grind

/-- The loop over the buckets enqueues each, or ends with an error. -/
theorem leaves_enqueueBuckets (id : String) (e : Definition) (buckets : List Time)
    (fires : List PeriodicFireEntry) (hreports : s.1.reports = reports) :
    Leaves env reports (Periodic.enqueueBuckets e buckets fires)
      (fun r s' => s'.1.reports = reports ∧ s'.1.periodics = s.1.periodics ∧
        (r.2 = none → bucketsOf id s'.2 = bucketsOf id s.2 ++ if e.id = id then buckets else []))
          s := by
  induction buckets generalizing fires s with
  | nil => exact ⟨hreports, rfl, fun _ => by simp⟩
  | cons bucket buckets ih =>
    refine (Leaves.stmt (Q := fun a s' => s'.1.reports = reports ∧ s'.1.periodics = s.1.periodics ∧
      s'.2 = s.2 ++ [.enqueueBucket e bucket]) hreports fun input s' a children hact => ?_).bind ?_
    · have hanswer := enqueueBucket_answer hact
      exact ⟨hanswer.reports.trans hreports, hanswer.periodics, rfl⟩
    · rintro a s' ⟨hreports', hperiodics, hops⟩
      have hrest : ∀ fires, Leaves env reports (Periodic.enqueueBuckets e buckets fires)
          (fun r s'' => s''.1.reports = reports ∧ s''.1.periodics = s.1.periodics ∧
            (r.2 = none → bucketsOf id s''.2 =
              bucketsOf id s.2 ++ if e.id = id then bucket :: buckets else [])) s' := by
        grind [bucketsOf_append, PeriodicOp.bucketOf]
      rcases a with e' | _ | job
      · exact ⟨hreports', hperiodics, nofun⟩
      · exact hrest fires
      · exact hrest _

/-- A fire that succeeds enqueues the buckets of its definition and advances it. -/
theorem leaves_fire (id : String) (e : Definition) (hreports : s.1.reports = reports) :
    Leaves env reports (Periodic.fire env backfillCap fuel now e)
      (fun r s' => s'.1.reports = reports ∧ ∀ n, r = some (n, none) → ∃ buckets nextRun fires,
        e.row.buckets env now backfillCap fuel = some (.ok (buckets, nextRun)) ∧
        bucketsOf id s'.2 = bucketsOf id s.2 ++ (if e.id = id then buckets else []) ∧
        s'.1.periodics = (Flywheel.advance e.row.id fires nextRun now s.1).periodics) s := by
  rw [Periodic.fire]
  cases hbuckets : e.row.buckets env now backfillCap fuel with
  | none => exact ⟨hreports, by simp⟩
  | some r =>
    rcases r with err | ⟨buckets, nextRun⟩
    · exact ⟨hreports, by simp⟩
    · refine (leaves_enqueueBuckets id e buckets [] hreports).bind fun r s' hr => ?_
      obtain ⟨fires, _ | err⟩ := r
      · obtain ⟨hreports', hperiodics, hasked⟩ := hr
        refine (Leaves.stmt (Q := fun a s'' => s''.1.reports = reports ∧ (a = .ok () →
            s''.2 = s'.2 ++ [.advance e fires nextRun now] ∧
            s''.1.periodics = (Flywheel.advance e.row.id fires nextRun now s.1).periodics))
          hreports' fun input s'' a children hact => ?_).bind fun a s'' h => ?_
        · cases input with
          | fail =>
            cases hact
            exact ⟨hreports', by simp⟩
          | run ctx =>
            cases hact
            simp_all [Flywheel.advance]
        · rcases a with err | ⟨⟩
          · exact ⟨h.1, by simp⟩
          · obtain ⟨hops, hrows⟩ := h.2 rfl
            refine ⟨h.1, fun n _ => ⟨buckets, nextRun, fires, rfl, ?_, hrows⟩⟩
            rw [hops, bucketsOf_append, hasked rfl]
            exact append_nil _
      · exact ⟨hr.1, by simp⟩

theorem advanceRow_view (fires : List PeriodicFireEntry) (nextRun now : Time) (r : PeriodicRow) :
    (advanceRow fires nextRun now r).view = { r.view with nextRunAt := nextRun } ∧
      (advanceRow fires nextRun now r).isActive = r.isActive ∧
      (advanceRow fires nextRun now r).pausedAt = r.pausedAt := by
  unfold advanceRow
  split_ifs <;> exact ⟨rfl, rfl, rfl⟩

/-- A definition that the ticks load: active, and not paused. -/
def Definition.Runs (d : Definition) : Prop := d.row.isActive = true ∧ d.row.pausedAt = none

/-- What became of a definition that the buckets `taken` were enqueued of: its cursor is past
them. -/
def Took (env : PeriodicEnv) (d : Definition) (now : Time) (taken : List Time) (s : PeriodicState) :
    Prop :=
  ∃ d' ∈ s.periodics.rows, d'.id = d.id ∧ d'.Runs ∧
    d'.row.view = { d.row.view with nextRunAt := d'.row.nextRunAt } ∧
    Through (d.row.view.following env) d.row.nextRunAt now taken d'.row.nextRunAt

theorem leaves_fireAll_reports (defs : List Definition) (hreports : s.1.reports = reports) :
    Leaves env reports (Periodic.fireAll env backfillCap fuel now defs)
      (fun _ s' => s'.1.reports = reports) s := by
  induction defs generalizing s with
  | nil => exact hreports
  | cons e defs ih =>
    refine (leaves_fire "" e hreports).bind fun r s' hr => ?_
    rcases r with _ | ⟨n, err⟩
    · exact hr.1
    · refine (ih hr.1).bind fun r s'' hr => ?_
      rcases r with _ | r
      · exact hr
      · exact hr

/-- The rule for the fires of a tick: all of them succeed, or the tick does not. -/
theorem leaves_fireAll_cons {P Q : PeriodicState × List PeriodicOp → Prop}
    (hfire : Leaves env reports (Periodic.fire env backfillCap fuel now e)
      (fun r s' => s'.1.reports = reports ∧ ∀ n, r = some (n, none) → P s') s)
    (hrest : ∀ s', s'.1.reports = reports → P s' →
      Leaves env reports (Periodic.fireAll env backfillCap fuel now defs)
        (fun r s'' => s''.1.reports = reports ∧ ∀ n, r = some (n, []) → Q s'') s') :
    Leaves env reports (Periodic.fireAll env backfillCap fuel now (e :: defs))
      (fun r s' => s'.1.reports = reports ∧ ∀ n, r = some (n, []) → Q s') s := by
  refine hfire.bind fun r s' hr => ?_
  obtain ⟨hreports, hdone⟩ := hr
  rcases r with _ | ⟨n, _ | err⟩
  · exact ⟨hreports, nofun⟩
  · refine (hrest s' hreports (hdone n rfl)).bind fun r s'' hr => ?_
    rcases r with _ | ⟨enqueued, errs⟩
    · exact ⟨hr.1, nofun⟩
    · refine ⟨hr.1, fun k hk => hr.2 enqueued ?_⟩
      simp_all
  · refine (leaves_fireAll_reports defs hreports).bind fun r s'' hr => ?_
    rcases r with _ | ⟨enqueued, errs⟩
    · exact ⟨hr, nofun⟩
    · exact ⟨hr, nofun⟩

theorem leaves_fire_other (hreports : s.1.reports = reports)
    (hd : d ∈ s.1.periodics.rows) (hne : d.id ≠ e.id) :
    Leaves env reports (Periodic.fire env backfillCap fuel now e)
      (fun r s' => s'.1.reports = reports ∧ ∀ n, r = some (n, none) →
        d ∈ s'.1.periodics.rows ∧ bucketsOf d.id s'.2 = bucketsOf d.id s.2) s := by
  refine (leaves_fire d.id e hreports).mono fun r s' hr => ⟨hr.1, fun n hn => ?_⟩
  obtain ⟨buckets, nextRun, fires, -, hasked, hrows⟩ := hr.2 n hn
  refine ⟨?_, ?_⟩
  · rw [hrows]
    exact List.mem_map.mpr ⟨d, hd, if_neg fun hself => hne (of_decide_eq_true hself)⟩
  · rw [hasked, if_neg (Ne.symm hne), append_nil]

theorem leaves_fireAll_others (hreports : s.1.reports = reports) (hd : d ∈ s.1.periodics.rows)
    (hnot : d.id ∉ defs.map Definition.id) :
    Leaves env reports (Periodic.fireAll env backfillCap fuel now defs)
      (fun r s' => s'.1.reports = reports ∧ ∀ n, r = some (n, []) →
        d ∈ s'.1.periodics.rows ∧ bucketsOf d.id s'.2 = bucketsOf d.id s.2) s := by
  induction defs generalizing s with
  | nil => exact ⟨hreports, fun n _ => ⟨hd, rfl⟩⟩
  | cons e defs ih =>
    obtain ⟨hne, hnot⟩ := not_or.mp fun h => hnot (mem_cons.mpr h)
    refine leaves_fireAll_cons (leaves_fire_other hreports hd hne) fun s' hreports' hP => ?_
    grind

/-- The fires of a tick take the chain of each definition through now. -/
theorem leaves_fireAll (hreports : s.1.reports = reports) (hcap : backfillCap ≤ 0)
    (hd : d ∈ s.1.periodics.rows) (hruns : d.Runs) (hendless : d.row.view.Endless env)
    (hdue : d.row.nextRunAt ≤ now) (hmem : d ∈ defs) (hnodup : (defs.map Definition.id).Nodup) :
    Leaves env reports (Periodic.fireAll env backfillCap fuel now defs)
      (fun r s' => s'.1.reports = reports ∧ ∀ n, r = some (n, []) →
        ∃ taken, bucketsOf d.id s'.2 = bucketsOf d.id s.2 ++ taken ∧
          Took env d now taken s'.1) s := by
  induction defs generalizing s with
  | nil => cases hmem
  | cons e defs ih =>
    obtain ⟨hnew, hnodup⟩ := nodup_cons.mp hnodup
    rcases mem_cons.mp hmem with rfl | hmem
    · -- its own fire
      refine leaves_fireAll_cons (P := fun s' => ∃ taken,
        bucketsOf d.id s'.2 = bucketsOf d.id s.2 ++ taken ∧ Took env d now taken s'.1) ?_
        fun s' hreports' hP => ?_
      · refine (leaves_fire d.id d hreports).mono fun r s' hr => ⟨hr.1, fun n hn => ?_⟩
        obtain ⟨buckets, nextRun, fires, hbuckets, hasked, hrows⟩ := hr.2 n hn
        rw [if_pos rfl] at hasked
        obtain ⟨hview, hactive, hpaused⟩ := advanceRow_view fires nextRun now d.row
        have hcursor : (advanceRow fires nextRun now d.row).nextRunAt = nextRun :=
          congrArg PeriodicView.nextRunAt hview
        refine ⟨buckets, hasked, { d with row := advanceRow fires nextRun now d.row }, ?_,
          advanceRow_id fires nextRun now d.row, ⟨hactive.trans hruns.1, hpaused.trans hruns.2⟩, ?_,
            ?_⟩
        · rw [hrows]
          exact List.mem_map.mpr ⟨d, hd, if_pos (decide_eq_true rfl)⟩
        · rw [hcursor]
          exact hview
        · grind [PeriodicRow.buckets_through]
      · obtain ⟨taken, hasked, d', hd', hid, htook⟩ := hP
        refine (leaves_fireAll_others hreports' hd' (hid ▸ hnew)).mono fun r s'' hr =>
          ⟨hr.1, fun n hn => ?_⟩
        obtain ⟨hkept, hsame⟩ := hr.2 n hn
        rw [hid] at hsame
        exact ⟨taken, hsame.trans hasked, d', hkept, hid, htook⟩
    · -- another definition's fire, and its own in the rest
      have hne : d.id ≠ e.id := fun h => hnew (h ▸ List.mem_map_of_mem hmem)
      refine leaves_fireAll_cons (leaves_fire_other hreports hd hne) fun s' hreports' hP => ?_
      grind

/-- What a tick that succeeds has taken of a definition. -/
def TickTakes (env : PeriodicEnv) (d : Definition) (now : Time) (reports : List TickReport)
    (s : PeriodicState × List PeriodicOp) : Prop :=
  (∃ r, s.1.reports = reports ++ [r] ∧ r.errs = []) → Took env d now (bucketsOf d.id s.2) s.1

theorem TickTakes.of_reports (h : s.1.reports = reports) : TickTakes env d now reports s := by
  rintro ⟨r, hr, -⟩
  rw [h] at hr
  simp at hr

theorem leaves_report {r : TickReport} (hreports : s.1.reports = reports)
    (h : r.errs = [] → Took env d now (bucketsOf d.id s.2) s.1) :
    Leaves env reports (do let _ ← Periodic.stmt (.report r); return ())
      (fun _ s' => TickTakes env d now reports s') s := by
  refine (Leaves.stmt (Q := fun _ s' => TickTakes env d now reports s') hreports
    fun input s' a children hact => ?_).bind fun _ _ h => h
  cases input with
  | fail =>
    cases hact
    exact .of_reports hreports
  | run ctx =>
    cases hact
    rintro ⟨r', hr', herrs⟩
    obtain rfl : r = r' := by simpa [hreports] using hr'
    rw [bucketsOf_append]
    exact (append_nil (bucketsOf d.id s.2)).symm ▸ h herrs

section Tick

variable {s : PeriodicState} (hcap : backfillCap ≤ 0) (hd : d ∈ s.periodics.rows) (hruns : d.Runs)
  (hendless : d.row.view.Endless env)

include hcap hd hruns hendless

/-- **A tick that succeeds takes the chain of each definition that it loads through now.** -/
theorem leaves_tick : Leaves env s.reports (Periodic.tick env backfillCap fuel now)
      (fun _ s' => TickTakes env d now s.reports s') (s, []) := by
  refine (Leaves.stmt (Q := fun a s' => s'.1 = s ∧ s'.2 = [.loadDue now] ∧
    ∀ table, a = .ok table → table = s.periodics.rows) rfl fun input s' a children hact => ?_).bind
      fun a s' h => ?_
  · cases input with
    | fail => cases hact; exact ⟨rfl, rfl, nofun⟩
    | run ctx => cases hact; exact ⟨rfl, rfl, fun _ h => by cases h; rfl⟩
  · obtain ⟨s₁, ops⟩ := s'
    obtain ⟨hs, hops, hdefs⟩ := h
    subst hs hops
    rcases a with err | defs
    · exact leaves_report rfl nofun
    · obtain rfl := hdefs defs rfl
      have hnodup : ((s₁.due now).map Definition.id).Nodup :=
        s₁.periodics.nodup.sublist (filter_sublist.map Definition.id)
      have hfires : Leaves env s₁.reports (Periodic.fireAll env backfillCap fuel now (s₁.due now))
          (fun r s' => s'.1.reports = s₁.reports ∧ ∀ n, r = some (n, []) →
            Took env d now (bucketsOf d.id s'.2) s'.1) (s₁, [.loadDue now]) := by
        by_cases hdue : d.row.nextRunAt ≤ now
        · have hmem : d ∈ s₁.due now := by
            refine mem_filter.mpr ⟨hd, ?_⟩
            rw [Definition.due, hruns.1, hruns.2, decide_eq_true hdue]
            rfl
          refine (leaves_fireAll (s := (s₁, [.loadDue now])) rfl hcap hd hruns hendless hdue hmem
            hnodup).mono fun r s' hr =>
            ⟨hr.1, fun n hn => ?_⟩
          obtain ⟨taken, hasked, htook⟩ := hr.2 n hn
          rw [hasked]
          exact htook
        · have hnot : d.id ∉ (s₁.due now).map Definition.id := by
            intro hmem
            obtain ⟨e, he, hid⟩ := List.mem_map.mp hmem
            obtain ⟨he, hloaded⟩ := mem_filter.mp he
            grind [Definition.due, eq_of_key_eq]
          refine (leaves_fireAll_others (s := (s₁, [.loadDue now])) rfl hd hnot).mono fun r s' hr =>
            ⟨hr.1, fun n hn => ?_⟩
          obtain ⟨hkept, hsame⟩ := hr.2 n hn
          rw [hsame]
          exact ⟨d, hkept, rfl, hruns, rfl, .nil (not_le.mp hdue)⟩
      refine hfires.bind fun r s' hr => ?_
      rcases r with _ | ⟨n, errs⟩
      · exact .of_reports hr.1
      · refine leaves_report hr.1 fun herrs => hr.2 n ?_
        rw [show errs = [] from herrs]

theorem TickSucceeds.took (h : TickSucceeds env backfillCap s t) :
    Took env d t.now (bucketsOf d.id (tickStatements env backfillCap s t))
      (playTick env backfillCap s t) := by
  have hstate := Prog.play_traced (periodicMachine env) (Periodic.tick env backfillCap t.fuel t.now)
    t.inputs (s, [])
  rw [TickSucceeds, playTick, ← hstate] at h
  rw [playTick, ← hstate]
  rcases (leaves_tick hcap hd hruns hendless).play
    (.of_always (fun _ _ _ => trivial) (fun _ => trivial) _ t.inputs _) with ⟨_, -, htakes⟩ |
      ⟨-, hstop⟩
  · exact htakes h
  · exact TickTakes.of_reports hstop h

/-- **Ticks that succeed take the chain of a definition through the last of them**, part by part. -/
theorem TicksSucceed.through {ticks : List TickPlay}
    (hsorted : (t :: ticks).Pairwise fun t u => t.now ≤ u.now)
    (h : TicksSucceed env backfillCap (t :: ticks) s) :
    ∃ last, Through (d.row.view.following env) d.row.nextRunAt
      ((t :: ticks).getLast (cons_ne_nil t ticks)).now
      (ticksEnqueue env backfillCap d.id (t :: ticks) s) last := by
  induction ticks generalizing t s d with
  | nil =>
    obtain ⟨d', -, -, -, -, htook⟩ := h.1.took hcap hd hruns hendless
    grind [ticksEnqueue]
  | cons u ticks ih =>
    obtain ⟨hfirst, hrest⟩ := pairwise_cons.mp hsorted
    obtain ⟨d', hd', hid, hruns', hview, htook⟩ := h.1.took hcap hd hruns hendless
    have hchain : d'.row.view.following env = d.row.view.following env := by
      rw [hview]
      rfl
    have hendless' : d'.row.view.Endless env := by
      have hcadence := hendless.cadence
      refine ⟨by rw [hview]; exact hcadence, ?_⟩
      have hlater := htook.start_le hendless.lt_following
      exact hendless.cursor.trans_le hlater
    obtain ⟨last, hthrough⟩ := ih hd' hruns' hendless' hrest h.2
    rw [hchain, hid] at hthrough
    refine ⟨last, ?_⟩
    exact htook.append hthrough (hfirst _ (getLast_mem _))

end Tick

/-! ## The preview is what fires -/

/-- What a preview's list has to be: each link that the ticks enqueue after the instant, as far as
they got, and its first link the one that a resume at the instant moves the cursor to. -/
structure Previews (env : PeriodicEnv) (p : PeriodicView) (after : Time) (fires : List Time) :
    Prop where
  ticks : ∀ (backfillCap : ℤ) (s : PeriodicState) (d : Definition) (ticks : List TickPlay),
    backfillCap ≤ 0 → d ∈ s.periodics.rows → d.Runs → d.row.view = p →
    ticks.Pairwise (fun t u => t.now ≤ u.now) → TicksSucceed env backfillCap ticks s →
    ((ticksEnqueue env backfillCap d.id ticks s).filter fun t =>
      decide (after < t)).take fires.length =
      fires.takeWhile fun t => ticks.any fun tick => decide (t ≤ tick.now)
  resume : ∀ (ctx : Context) (slug : String) (s s' : PeriodicState) (d : Definition),
    s.find? slug = some d → d.row.pausedAt.isSome = true → d.row.view = p → ctx.clock 0 = after →
    resumePeriodic env ctx slug s = .ok s' →
    ∃ d' ∈ s'.periodics.rows, d'.id = d.id ∧ fires.head? = some d'.row.nextRunAt

theorem any_reaches {ticks : List TickPlay}
    (hsorted : (t :: ticks).Pairwise fun t u => t.now ≤ u.now) (time : Time) :
    ((t :: ticks).any fun tick => decide (time ≤ tick.now)) =
      decide (time ≤ ((t :: ticks).getLast (cons_ne_nil t ticks)).now) := by
  rw [Bool.eq_iff_iff, List.any_eq_true, decide_eq_true_iff]
  constructor
  · rintro ⟨u, hu, hle⟩
    exact (of_decide_eq_true hle).trans (hsorted.rel_getLast_of_rel_getLast_getLast hu le_rfl)
  · exact fun h => ⟨_, getLast_mem _, decide_eq_true h⟩

/-- A resume moves the cursor to where `resumedNextRun` says. -/
theorem resumePeriodic_cursor {ctx : Context} {slug : String} {s s' : PeriodicState} {first : Time}
    (hfind : s.find? slug = some d) (hpaused : d.row.pausedAt.isSome = true)
    (hfirst : resumedNextRun env d.row (ctx.clock 0) = .ok first)
    (h : resumePeriodic env ctx slug s = .ok s') :
    ∃ d' ∈ s'.periodics.rows, d'.id = d.id ∧ d'.row.nextRunAt = first := by
  obtain ⟨actor, -, h⟩ := bind_eq_ok.mp h
  rw [hfind] at h
  have hpaused' : ¬d.row.pausedAt.isNone = true := by
    grind [isNone_iff_eq_none]
  dsimp only at h
  rw [if_neg hpaused', hfirst] at h
  obtain ⟨nextRun, hnext, h⟩ := bind_eq_ok.mp h
  cases hnext
  obtain ⟨db, -, h⟩ := bind_eq_ok.mp h
  cases h
  have hd : d ∈ s.periodics.rows := mem_of_find?_eq_some hfind
  exact ⟨_, List.mem_map.mpr ⟨d, hd, if_pos (decide_eq_true rfl)⟩, rfl, rfl⟩

/-- **The preview of a schedule is what it fires.** For every schedule with a cursor that always has
a next fire time, every instant and every `n` from 1 to `MaxNextFires`, `NextPeriodicFires` lists
`n` times: the first `n` after the instant of the buckets that ticks at nondecreasing times with no
cap enqueue, as far as the ticks have come; and a resume at the instant moves the cursor to the
first. Any other `n` is refused. -/
theorem preview_lists_what_fires (env : PeriodicEnv) (p : PeriodicView) (hendless : p.Endless env)
    (after : Time) (n : ℤ) :
    (1 ≤ n → n ≤ maxNextFires → ∃ fires, nextPeriodicFires env p after n = .ok fires ∧
      fires.length = n.toNat ∧ Previews env p after fires) ∧
    (n < 1 ∨ maxNextFires < n →
      nextPeriodicFires env p after n = .error (.validation "n" "must be between 1 and 100")) := by
  refine ⟨fun hone hmax => ?_, fun hout => if_pos hout⟩
  obtain ⟨before, first, hthrough, hlist, hresume⟩ := hendless.first after
  have hlength : (List.iterate (p.following env) first n.toNat).length = n.toNat :=
    length_iterate ..
  refine ⟨_, hlist n hone hmax, hlength, ⟨?_, ?_⟩⟩
  · rintro cap s d ticks hcap hd hruns rfl hsorted hsucceed
    rw [hlength]
    cases ticks with
    | nil =>
      simp_all [ticksEnqueue]
    | cons t ticks =>
      obtain ⟨last, htaken⟩ := hsucceed.through hcap hd hruns hendless hsorted
      rw [funext (any_reaches hsorted)]
      exact htaken.preview hendless.lt_following hthrough n.toNat
  · rintro ctx slug s s' d hfind hpaused rfl rfl hact
    obtain ⟨d', hd', hid, hnext⟩ := resumePeriodic_cursor hfind hpaused (hresume d.row rfl) hact
    refine ⟨d', hd', hid, ?_⟩
    obtain ⟨k, hk⟩ : ∃ k, n.toNat = k + 1 := ⟨n.toNat - 1, by omega⟩
    rw [hnext, hk]
    rfl

/-- The next two fires of a minutely definition. -/
theorem minutely_preview :
    nextPeriodicFires { parseCron := fun _ => none } minutely.row.view (90 * second) 2 =
        .ok [120 * second, 180 * second] ∧
      Previews { parseCron := fun _ => none } minutely.row.view (90 * second)
        [120 * second, 180 * second] := by
  obtain ⟨fires, hlist, -, hpreviews⟩ := (preview_lists_what_fires { parseCron := fun _ => none }
    minutely.row.view ⟨.inl (by decide), by decide⟩ (90 * second) 2).1 (by decide) (by decide)
  have hfires : nextPeriodicFires { parseCron := fun _ => none } minutely.row.view (90 * second) 2 =
      .ok [120 * second, 180 * second] := rfl
  simp_all

/-- **A preview of more than a hundred fires is refused**, though the definition has them all. -/
theorem long_preview_is_refused :
    minutely.row.view.Endless { parseCron := fun _ => none } ∧
      nextPeriodicFires { parseCron := fun _ => none } minutely.row.view (90 * second) 101 =
        .error (.validation "n" "must be between 1 and 100") :=
  ⟨⟨.inl (by decide), by decide⟩, rfl⟩

end Flywheel
