import Mathlib.Data.Int.Interval
import Mathlib.Data.Set.Card
import Mathlib.Order.Interval.Set.Infinite
import Flywheel.Library.Ring
import Flywheel.Insert

/-!
# Periodic definitions and their fire times

A periodic definition (`schedule.go`) fires on an interval or on a cron expression. Its row keeps
the next fire time, and a tick that finds it in the past takes the fires from there through now,
at most the most recent of them up to a cap: by arithmetic for an interval (`intervalBuckets`), and
by walking the expression's matches through a ring buffer for a cron (`cronBuckets`). Both give the
end of one increasing list of fire times, and the first fire time after now.
-/

namespace Flywheel

open Relational List Option

/-- `int(d.Seconds())`. The sum of the seconds and their fraction is a `float64`: where what is
missing to the next second is at most half a unit of its last place, it is that second. -/
def wholeSeconds (d : Duration) : ℤ :=
  let seconds := d.tdiv second
  -- what is missing, in units of `2^-53`, to which the fraction itself is rounded
  let missing : ℤ := ((second - (d.tmod second).natAbs) * 35184372088832 + 1953125) / 3906250
  if missing ≤ ((1 <<< seconds.natAbs.log2 : ℕ) : ℤ) then seconds + d.sign else seconds

-- a nanosecond short of `2^24` seconds is told apart, and short of the next one is not
example : wholeSeconds (16777216 * second - 1) = 16777215 ∧
    wholeSeconds (16777217 * second - 1) = 16777217 := by decide

/-! ## Cron expressions -/

/-- A parsed cron expression: its matches, and `Schedule.Next`, which looks for one as far as a
horizon and finds the first. No row and no clock holds a time before Go's zero time. -/
structure Cron where
  fires : Time → Prop
  horizon : Time → Time
  next : Time → Option Time
  fires_whole : ∀ t, fires t → second ∣ t
  horizon_mono : ∀ s t, s ≤ t → horizon s ≤ horizon t
  next_some : ∀ t u, next t = some u →
    t < u ∧ u ≤ horizon t ∧ fires u ∧ ∀ v, t < v → v < u → ¬ fires v
  next_none : ∀ t, next t = none → zeroTime ≤ t ∧ ∀ u, t < u → u ≤ horizon t → ¬ fires u

/-- `Schedule.Next`, which returns the zero time when it finds no match. -/
def Cron.nextTime (c : Cron) (t : Time) : Time := (c.next t).getD zeroTime

/-- What the definitions are evaluated with: `cron.ParseStandard`. -/
structure PeriodicEnv where
  parseCron : String → Option Cron

/-! ## Specs and rows -/

/-- `ErrValidation`, the cron parser's error, and what the calls on a definition return. -/
inductive PeriodicError where
  | validation (field message : String)
  | cron (expr : String)
  | noSchedule (slug : String)
  | notFound
  | removed (slug : String)
  | insert (e : TxError)
  | database
deriving DecidableEq, Inhabited, Repr

/-- The bytes of an args template: none, a text that is not JSON, or a JSON value. -/
inductive ArgsText where
  | empty
  | invalid (text : String)
  | json (value : Json)

/-- `PeriodicSpec` -/
structure PeriodicSpec where
  slug : String
  kind : String
  queue : String := ""
  argsTemplate : ArgsText := .empty
  cron : String := ""
  every : Duration := 0
  active : Bool := false

/-- `PeriodicSource` -/
inductive PeriodicSource where
  | declared
  | upserted
deriving DecidableEq, Inhabited, Repr

/-- `periodicFireEntry` -/
structure PeriodicFireEntry where
  jobID : String
  firedAt : Time
  manual : Bool := false
deriving DecidableEq, Inhabited, Repr

/-- `jobPeriodicRow`. Its history is the decoded one. -/
structure PeriodicRow where
  id : String
  slug : String
  kind : String
  argsTemplate : Json
  queue : String
  cronExpr : Option String
  intervalSeconds : Option ℤ
  nextRunAt : Time
  lastEnqueuedAt : Option Time := none
  isActive : Bool
  source : Option PeriodicSource
  pausedAt : Option Time := none
  pausedBy : Option (ActorType × String × String) := none
  recentJobs : List PeriodicFireEntry := []
  createdAt : Time
  updatedAt : Time

/-- `PeriodicSpec.validate` -/
def PeriodicSpec.validate (env : PeriodicEnv) (s : PeriodicSpec) : Except PeriodicError Unit :=
  if s.slug = "" then .error (.validation "slug" "is required")
  else if s.kind = "" then .error (.validation "kind" "is required")
  else if decide (s.cron ≠ "") = decide (0 < s.every) then
    .error (.validation "schedule" "exactly one of Cron or Every is required")
  else if 0 < s.every ∧ s.every < second then
    .error (.validation "every" "must be at least 1 second")
  else if s.cron ≠ "" ∧ (env.parseCron s.cron).isNone then .error (.cron s.cron)
  else match s.argsTemplate with
    | .invalid _ => .error (.validation "args_template" "must be valid JSON")
    | _ => .ok ()

/-- What a valid spec has: an interval of at least a second, or a cron that parses. -/
theorem PeriodicSpec.validate_ok {env : PeriodicEnv} {s : PeriodicSpec}
    (h : s.validate env = .ok ()) :
    (0 < s.every → second ≤ s.every) ∧
      (¬ 0 < s.every → ∃ schedule, env.parseCron s.cron = some schedule) := by
  unfold PeriodicSpec.validate at h
  split_ifs at h with hslug hkind hone hshort hparse
  refine ⟨fun hevery => not_lt.mp fun hless => hshort ⟨hevery, hless⟩, fun hevery => ?_⟩
  have hcron : s.cron ≠ "" := by
    simpa [hevery] using hone
  exact isSome_iff_exists.mp (by simpa [hcron, isSome_iff_ne_none] using hparse)

/-- `nextFireAfter` -/
def nextFireAfter (env : PeriodicEnv) (spec : PeriodicSpec) (now : Time) :
    Except PeriodicError Time :=
  if 0 < spec.every then .ok (now + spec.every)
  else match env.parseCron spec.cron with
    | none => .error (.cron spec.cron)
    | some schedule => .ok (schedule.nextTime now)

/-- `defaultPeriodicQueue` -/
def defaultPeriodicQueue : String := "periodic"

/-- `periodicQueueAndArgs`: the queue. -/
def periodicQueue (spec : PeriodicSpec) : String := orString spec.queue defaultPeriodicQueue

/-- `periodicQueueAndArgs`: the args template. -/
def periodicArgs (spec : PeriodicSpec) : Json :=
  match spec.argsTemplate with
  | .json value => value
  | _ => .obj []

/-- The `interval_seconds` column of a spec. -/
def PeriodicSpec.intervalColumn (spec : PeriodicSpec) : Option ℤ :=
  if 0 < spec.every then some (wholeSeconds spec.every) else none

/-- The `cron_expr` column of a spec. -/
def PeriodicSpec.cronColumn (spec : PeriodicSpec) : Option String :=
  if 0 < spec.every then none else some spec.cron

/-- `periodicRow`, as `BeforeCreate` and `BeforeSave` complete it. -/
def periodicRow (env : PeriodicEnv) (ctx : Context) (spec : PeriodicSpec) (source : PeriodicSource)
    (now : Time) : Except PeriodicError PeriodicRow := do
  let nextRun ← nextFireAfter env spec now
  return { id := ctx.newID 0, slug := spec.slug, kind := spec.kind, queue := periodicQueue spec
           argsTemplate := periodicArgs spec, nextRunAt := nextRun, isActive := spec.active
           source := some source, intervalSeconds := spec.intervalColumn, cronExpr :=
             spec.cronColumn
           createdAt := ctx.clock 1, updatedAt := ctx.clock 2 }

/-- `BeforeSave`'s checks on a row that is inserted. -/
def PeriodicRow.beforeSave (p : PeriodicRow) : Except PeriodicError Unit :=
  if p.slug = "" then .error (.validation "slug" "is required")
  else if p.kind = "" then .error (.validation "kind" "is required")
  else if p.nextRunAt = zeroTime then .error (.validation "next_run_at" "is required")
  else if decide (p.cronExpr.getD "" ≠ "") = p.intervalSeconds.isSome then
    .error (.validation "schedule" "exactly one of cron_expr or interval_seconds is required")
  else .ok ()

/-- `scheduleChanged` -/
def scheduleChanged (existing : PeriodicRow) (spec : PeriodicSpec) : Bool :=
  if 0 < spec.every then decide (existing.intervalSeconds ≠ some (wholeSeconds spec.every))
  else decide (existing.cronExpr ≠ some spec.cron)

/-- `PeriodicHistorySize` -/
def periodicHistorySize : ℕ := 20

/-- `prependFires` -/
def prependFires (stored fires : List PeriodicFireEntry) : List PeriodicFireEntry :=
  (fires.reverse ++ stored).take periodicHistorySize

/-! ## The buckets of a tick -/

/-- `intervalBuckets` -/
def intervalBuckets (start : Time) (intervalSeconds : ℤ) (now : Time) (limit : ℤ) :
    List Time × Time :=
  let interval := intervalSeconds * second
  if interval ≤ 0 ∨ now < start then ([], start)
  else
    let n := (now - start) / interval
    let first := if 0 < limit ∧ limit < n + 1 then n + 1 - limit else 0
    ((List.range (n - first + 1).toNat).map fun k : ℕ => start + (first + k) * interval,
      start + (n + 1) * interval)

/-- The loop of `cronBuckets` without a limit: the times up to now, and the first after it. It has
no bound of its own, and `none` is a loop that has not ended after `fuel` rounds. -/
def Cron.walk (c : Cron) (now : Time) : ℕ → Time → Option (List Time × Time)
  | 0, _ => none
  | fuel + 1, t =>
    if now < t then some ([], t)
    else (c.walk now fuel (c.nextTime t)).map fun (ts, last) => (t :: ts, last)

/-- The loop of `cronBuckets` with a limit, which keeps its times in a ring. -/
def Cron.fill (c : Cron) (now : Time) (limit : ℕ) :
    ℕ → Time → ℕ → (ℕ → Time) → Option ((ℕ → Time) × ℕ × Time)
  | 0, _, _, _ => none
  | fuel + 1, t, n, ring =>
    if now < t then some (ring, n, t)
    else c.fill now limit fuel (c.nextTime t) (n + 1) (Ring.put limit ring n t)

/-- `cronBuckets`, once its loop has ended. -/
def cronBuckets (env : PeriodicEnv) (expr : String) (start now : Time) (limit : ℤ) (fuel : ℕ) :
    Option (Except PeriodicError (List Time × Time)) :=
  match env.parseCron expr with
  | none => some (.error (.cron expr))
  | some schedule =>
    if limit ≤ 0 then (schedule.walk now fuel start).map .ok
    else (schedule.fill now limit.toNat fuel start 0 fun _ => zeroTime).map fun (ring, n, t) =>
      .ok (Ring.latest limit.toNat ring n, t)

/-- The buckets that `fire` takes from a definition. -/
def PeriodicRow.buckets (env : PeriodicEnv) (row : PeriodicRow) (now : Time) (limit : ℤ)
    (fuel : ℕ) : Option (Except PeriodicError (List Time × Time)) :=
  if 0 < row.intervalSeconds.getD 0 then
    some (.ok (intervalBuckets row.nextRunAt (row.intervalSeconds.getD 0) now limit))
  else if row.cronExpr.getD "" ≠ "" then
    cronBuckets env (row.cronExpr.getD "") row.nextRunAt now limit fuel
  else some (.error (.noSchedule row.slug))

/-- `resumedNextRun` -/
def resumedNextRun (env : PeriodicEnv) (row : PeriodicRow) (now : Time) :
    Except PeriodicError Time :=
  if now < row.nextRunAt then .ok row.nextRunAt
  else if 0 < row.intervalSeconds.getD 0 then
    let interval := row.intervalSeconds.getD 0 * second
    .ok (row.nextRunAt + ((now - row.nextRunAt) / interval + 1) * interval)
  else if row.cronExpr.getD "" ≠ "" then
    match env.parseCron (row.cronExpr.getD "") with
    | none => .error (.cron (row.cronExpr.getD ""))
    | some schedule => .ok (schedule.nextTime now)
  else .error (.noSchedule row.slug)

/-! ## Fire times -/

/-- The fire times of a definition: from a seed, in whole intervals, or the matches of its cron. -/
def PeriodicRow.FireTime (env : PeriodicEnv) (row : PeriodicRow) (seed t : Time) : Prop :=
  if 0 < row.intervalSeconds.getD 0 then
    ∃ k : ℕ, t = seed + k * (row.intervalSeconds.getD 0 * second)
  else ∃ schedule, env.parseCron (row.cronExpr.getD "") = some schedule ∧ schedule.fires t

variable {ts : List Time} {t : Time} {later : Set Time} {limit : ℕ}

/-- In an increasing list of fire times, one with fewer than `limit` fire times after it is among
the last `limit`. -/
theorem mem_drop_of_ncard_lt (hts : ts.Pairwise (· < ·))
    (ht : t ∈ ts) (hlater : ∀ u ∈ ts, t < u → u ∈ later) (hfinite : later.Finite)
    (hcard : later.ncard < limit) : t ∈ ts.drop (ts.length - limit) := by
  obtain ⟨before, after, rfl⟩ := append_of_mem ht
  have hsorted := (pairwise_cons.mp (pairwise_append.mp hts).2.1)
  have hsubset : (after.toFinset : Set Time) ⊆ later := by
    intro u hu
    simp_all
  have hnodup : after.Nodup := hsorted.2.imp ne_of_lt
  have hlength : after.length ≤ later.ncard := by
    rw [← toFinset_card_of_nodup hnodup, ← Set.ncard_coe_finset]
    exact Set.ncard_le_ncard hsubset hfinite
  grind

theorem finite_between (fires : Time → Prop) (t now : Time) :
    {u | fires u ∧ t < u ∧ u ≤ now}.Finite :=
  (Set.finite_Ioc t now).subset fun _ hu => ⟨hu.2.1, hu.2.2⟩

/-! ## The interval's buckets -/

section Interval

variable {start now interval limit : ℤ}

/-- The fire times of an interval from `start` through now. -/
def intervalTimes (start interval now : ℤ) : List ℤ :=
  (List.range ((now - start) / interval + 1).toNat).map fun k : ℕ => start + k * interval

theorem mem_intervalTimes (hinterval : 0 < interval) {t : ℤ} :
    t ∈ intervalTimes start interval now ↔ (∃ k : ℕ, t = start + k * interval) ∧ t ≤ now := by
  simp only [intervalTimes, List.mem_map, mem_range]
  constructor
  · rintro ⟨k, hk, rfl⟩
    have hle : (k : ℤ) * interval ≤ now - start := (Int.le_ediv_iff_mul_le hinterval).mp (by omega)
    exact ⟨⟨k, rfl⟩, by omega⟩
  · rintro ⟨⟨k, rfl⟩, hle⟩
    have hk : (k : ℤ) ≤ (now - start) / interval :=
      (Int.le_ediv_iff_mul_le hinterval).mpr (by omega)
    exact ⟨k, by omega, rfl⟩

theorem intervalTimes_increase (hinterval : 0 < interval) :
    (intervalTimes start interval now).Pairwise (· < ·) := by
  refine pairwise_map.mpr (pairwise_lt_range.imp fun {i j} hij => ?_)
  simp_all

/-- `intervalBuckets` gives the last of an interval's fire times, and the first after now. -/
theorem intervalBuckets_eq {seconds : ℤ} (hseconds : 0 < seconds) (hdue : start ≤ now) :
    intervalBuckets start seconds now limit =
      (if 0 < limit then (intervalTimes start (seconds * second) now).drop
          ((intervalTimes start (seconds * second) now).length - limit.toNat)
        else intervalTimes start (seconds * second) now,
        start + ((now - start) / (seconds * second) + 1) * (seconds * second)) := by
  have hinterval : 0 < seconds * second := mul_pos hseconds (by decide)
  have hnonneg : 0 ≤ (now - start) / (seconds * second) := Int.ediv_nonneg (by omega) (by omega)
  rw [intervalBuckets, if_neg (not_or.mpr ⟨not_le.mpr hinterval, not_lt.mpr hdue⟩)]
  simp only [intervalTimes, length_map, length_range]
  generalize (now - start) / (seconds * second) = n at hnonneg
  by_cases hlimit : 0 < limit
  · refine Prod.ext (ext_getElem? fun i => ?_) rfl
    -- the `i`-th bucket, by its place among all the fire times
    by_cases hlong : limit < n + 1
    · grind
    · grind
  · grind

end Interval

/-! ## The cron's buckets -/

namespace Cron

variable {c : Cron} {now start last : Time} {ts : List Time} {fuel : ℕ}

/-- Where `Next` finds no match, the walk does not get past: the zero time takes it back, and from
there it reaches only times that are no later. -/
theorem walk_stuck {v : Time} (hnone : c.next v = none) (hv : v ≤ now) (fuel : ℕ) {w : Time}
    (hw : w ≤ v) : c.walk now fuel w = none := by
  induction fuel generalizing w with
  | zero => rfl
  | succ fuel ih =>
    obtain ⟨hzero, hgap⟩ := c.next_none v hnone
    rw [walk, if_neg (not_lt.mpr (hw.trans hv))]
    have hnext : c.nextTime w ≤ v := by
      cases hw' : c.next w with
      | none => rwa [nextTime, hw']
      | some u =>
        obtain ⟨-, hhorizon, hfires, -⟩ := c.next_some w u hw'
        rw [nextTime, hw']
        by_contra hlater
        exact hgap u (not_le.mp hlater) (hhorizon.trans (c.horizon_mono w v hw)) hfires
    rw [ih hnext]
    rfl

theorem walk_cons (h : c.walk now (fuel + 1) start = some (ts, last)) (hdue : start ≤ now) :
    ∃ u rest, c.next start = some u ∧ ts = start :: rest ∧
      c.walk now fuel u = some (rest, last) := by
  rw [walk, if_neg (not_lt.mpr hdue)] at h
  obtain ⟨⟨rest, last'⟩, hrest, heq⟩ := map_eq_some_iff.mp h
  cases hnext : c.next start with
  | none =>
    have hzero : c.nextTime start ≤ start := by
      rw [nextTime, hnext]
      exact (c.next_none start hnext).1
    grind [walk_stuck]
  | some u => simp_all [nextTime]

/-- What a walk that ends gives: every match that is due from `start` on, in order, and the first
match after now. -/
structure Walked (c : Cron) (now start : Time) (ts : List Time) (last : Time) : Prop where
  increase : ts.Pairwise (· < ·)
  due : ∀ t ∈ ts, start ≤ t ∧ t ≤ now
  fires : ∀ t ∈ ts, start < t → c.fires t
  all : ∀ t, c.fires t → start ≤ t → t ≤ now → t ∈ ts
  after : now < last
  last : start ≤ now → c.fires last

/-- A walk that ends has walked. -/
theorem walk_spec (h : c.walk now fuel start = some (ts, last)) : Walked c now start ts last := by
  induction fuel generalizing start ts with
  | zero => cases h
  | succ fuel ih =>
    by_cases hdue : start ≤ now
    · obtain ⟨u, rest, hnext, rfl, hrest⟩ := walk_cons h hdue
      obtain ⟨hlt, -, hfires, hfirst⟩ := c.next_some start u hnext
      have hw := ih hrest
      refine ⟨?_, ?_, ?_, ?_, hw.after, fun _ => ?_⟩
      · exact pairwise_cons.mpr ⟨fun t ht => hlt.trans_le (hw.due t ht).1, hw.increase⟩
      · intro t ht
        rcases mem_cons.mp ht with rfl | ht
        · exact ⟨le_refl _, hdue⟩
        · exact ⟨hlt.le.trans (hw.due t ht).1, (hw.due t ht).2⟩
      · intro t ht hstart
        rcases mem_cons.mp ht with rfl | ht
        · exact absurd hstart (lt_irrefl _)
        · rcases (hw.due t ht).1.eq_or_lt with rfl | hafter
          · exact hfires
          · exact hw.fires t ht hafter
      · intro t ht hstart htnow
        rcases hstart.eq_or_lt with rfl | hafter
        · exact mem_cons_self
        · have hu : u ≤ t := not_lt.mp fun hbefore => hfirst t hafter hbefore ht
          exact mem_cons_of_mem _ (hw.all t ht hu htnow)
      · by_cases hu : u ≤ now
        · exact hw.last hu
        · -- the next match is after now, where the walk ends
          cases fuel with
          | zero => cases hrest
          | succ fuel => simp_all [walk]
    · rw [walk, if_pos (not_le.mp hdue)] at h
      cases h
      refine ⟨List.Pairwise.nil, by simp, by simp, ?_, not_le.mp hdue, fun h => absurd h hdue⟩
      exact fun t _ hstart htnow => absurd (hstart.trans htnow) hdue

/-- The loop with a ring is the walk, and its ring holds the end of it. -/
theorem fill_eq (now : Time) {ring : ℕ → Time} {before : List Time}
    (hring : Ring.Holds limit ring before) (fuel : ℕ) (start : Time) :
    (c.fill now limit fuel start before.length ring).map
        (fun (ring, n, t) => (Ring.latest limit ring n, t)) =
      (c.walk now fuel start).map fun (ts, t) =>
        ((before ++ ts).drop ((before ++ ts).length - limit), t) := by
  induction fuel generalizing start ring before with
  | zero => rfl
  | succ fuel ih =>
    rw [fill, walk]
    by_cases hend : now < start
    · rw [if_pos hend, if_pos hend]
      simp only [map_some, append_nil]
      rw [hring.latest]
    · rw [if_neg hend, if_neg hend]
      have hnext := ih (hring.put start) (c.nextTime start)
      rw [length_append, length_singleton] at hnext
      rw [hnext, Option.map_map]
      refine congrArg (fun f => Option.map f _) (funext fun r => ?_)
      simp [Function.comp]

end Cron

/-- `cronBuckets` gives the end of a walk. -/
theorem cronBuckets_eq (env : PeriodicEnv) (expr : String) (start now : Time) (limit : ℤ)
    (fuel : ℕ) :
    cronBuckets env expr start now limit fuel =
      (env.parseCron expr).elim (some (.error (.cron expr))) fun schedule =>
        (schedule.walk now fuel start).map fun (ts, last) =>
          .ok (if 0 < limit then ts.drop (ts.length - limit.toNat) else ts, last) := by
  rw [cronBuckets]
  cases env.parseCron expr with
  | none => rfl
  | some schedule =>
    by_cases hlimit : 0 < limit
    · have hempty : Ring.Holds limit.toNat (fun _ => zeroTime) ([] : List Time) := by
        intro k x _ hget
        simp at hget
      have hfill := schedule.fill_eq now hempty fuel start
      have hdrop : ¬ limit ≤ 0 := not_le.mpr hlimit
      simp only [hdrop, hlimit, if_false, if_true, Option.elim]
      have hmap := congrArg
        (Option.map fun r => (.ok r : Except PeriodicError (List Time × Time))) hfill
      simpa [Option.map_map, Function.comp_def] using hmap
    · have hdrop : limit ≤ 0 := not_lt.mp hlimit
      simp only [hdrop, hlimit, if_false, if_true, Option.elim]

/-! ## What a tick takes -/

/-- What `fire` takes from a definition that is due. -/
structure Taken (env : PeriodicEnv) (row : PeriodicRow) (now : Time) (limit : ℤ)
    (buckets : List Time) (nextRun : Time) : Prop where
  due : ∀ t ∈ buckets, row.nextRunAt ≤ t ∧ t ≤ now
  after : now < nextRun
  next : ∀ seed, row.FireTime env seed row.nextRunAt → row.FireTime env seed nextRun
  latest : ∀ t, row.FireTime env row.nextRunAt t → row.nextRunAt ≤ t → t ≤ now →
    (0 < limit → {u | row.FireTime env row.nextRunAt u ∧ t < u ∧ u ≤ now}.ncard < limit.toNat) →
    t ∈ buckets

theorem mem_latest {limit : ℤ} (hts : ts.Pairwise (· < ·)) (ht : t ∈ ts)
    (hlater : ∀ u ∈ ts, t < u → u ∈ later) (hfinite : later.Finite)
    (hcard : 0 < limit → later.ncard < limit.toNat) :
    t ∈ if 0 < limit then ts.drop (ts.length - limit.toNat) else ts := by
  by_cases hlimit : 0 < limit
  · rw [if_pos hlimit]
    exact mem_drop_of_ncard_lt hts ht hlater hfinite (hcard hlimit)
  · grind

theorem mem_of_latest {limit : ℤ}
    (h : t ∈ if 0 < limit then ts.drop (ts.length - limit.toNat) else ts) : t ∈ ts := by
  by_cases hlimit : 0 < limit
  · grind
  · rwa [if_neg hlimit] at h

section Taken

variable {env : PeriodicEnv} {row : PeriodicRow} {now : Time} {limit : ℤ} {fuel : ℕ}
  {buckets : List Time} {nextRun : Time} {schedule : Cron}

theorem PeriodicRow.fireTime_interval (env : PeriodicEnv) (hevery : 0 < row.intervalSeconds.getD 0)
    (seed t : Time) :
    row.FireTime env seed t ↔ ∃ k : ℕ, t = seed + k * (row.intervalSeconds.getD 0 * second) := by
  rw [PeriodicRow.FireTime, if_pos hevery]

theorem PeriodicRow.fireTime_cron (hevery : ¬ 0 < row.intervalSeconds.getD 0)
    (hparse : env.parseCron (row.cronExpr.getD "") = some schedule) (seed t : Time) :
    row.FireTime env seed t ↔ schedule.fires t := by
  rw [PeriodicRow.FireTime, if_neg hevery, hparse]
  simp

/-- What an interval gives. -/
theorem Taken.interval (env : PeriodicEnv) (limit : ℤ) (hdue : row.nextRunAt ≤ now)
    (hevery : 0 < row.intervalSeconds.getD 0) :
    Taken env row now limit (intervalBuckets row.nextRunAt (row.intervalSeconds.getD 0) now limit).1
      (intervalBuckets row.nextRunAt (row.intervalSeconds.getD 0) now limit).2 := by
  rw [intervalBuckets_eq hevery hdue]
  have hfire := row.fireTime_interval env hevery
  have hinterval : 0 < row.intervalSeconds.getD 0 * second := mul_pos hevery (by decide)
  generalize row.intervalSeconds.getD 0 * second = step at hinterval hfire
  refine ⟨fun t ht => ?_, ?_, fun seed hseed => ?_, fun t ht hstart htnow hcard => ?_⟩
  · obtain ⟨⟨k, rfl⟩, hle⟩ := (mem_intervalTimes hinterval).mp (mem_of_latest ht)
    exact ⟨le_add_of_nonneg_right (mul_nonneg (Int.natCast_nonneg k) hinterval.le), hle⟩
  · exact sub_lt_iff_lt_add'.mp (Int.lt_ediv_add_one_mul_self (now - row.nextRunAt) hinterval)
  · obtain ⟨k, hk⟩ := (hfire seed _).mp hseed
    have hnonneg : 0 ≤ (now - row.nextRunAt) / step :=
      Int.ediv_nonneg (sub_nonneg.mpr hdue) hinterval.le
    refine (hfire seed _).mpr ⟨k + ((now - row.nextRunAt) / step + 1).toNat, ?_⟩
    grind
  · refine mem_latest (intervalTimes_increase hinterval) ?_ ?_
      (finite_between (row.FireTime env row.nextRunAt) t now) hcard
    · exact (mem_intervalTimes hinterval).mpr ⟨(hfire _ t).mp ht, htnow⟩
    · simp_all [mem_intervalTimes]

theorem Taken.cron (hdue : row.nextRunAt ≤ now) (hevery : ¬ 0 < row.intervalSeconds.getD 0)
    (hparse : env.parseCron (row.cronExpr.getD "") = some schedule)
    (hw : schedule.Walked now row.nextRunAt ts nextRun) :
    Taken env row now limit
      (if 0 < limit then ts.drop (ts.length - limit.toNat) else ts) nextRun := by
  have hfire := row.fireTime_cron hevery hparse
  refine ⟨fun t ht => hw.due t (mem_of_latest ht), hw.after,
    fun seed _ => (hfire seed _).mpr (hw.last hdue), fun t ht hstart htnow hcard => ?_⟩
  refine mem_latest hw.increase ?_ ?_ (finite_between (row.FireTime env row.nextRunAt) t now) hcard
  · exact hw.all t ((hfire _ t).mp ht) hstart htnow
  · intro u hu htu
    exact ⟨(hfire _ u).mpr (hw.fires u hu (hstart.trans_lt htu)), htu, (hw.due u hu).2⟩

/-- The buckets of a definition that is due are its most recent fire times. -/
theorem PeriodicRow.buckets_spec (hdue : row.nextRunAt ≤ now)
    (h : row.buckets env now limit fuel = some (.ok (buckets, nextRun))) :
    Taken env row now limit buckets nextRun := by
  rw [PeriodicRow.buckets] at h
  by_cases hevery : 0 < row.intervalSeconds.getD 0
  · grind [Taken.interval]
  · rw [if_neg hevery] at h
    by_cases hcron : row.cronExpr.getD "" ≠ ""
    · rw [if_pos hcron, cronBuckets_eq] at h
      cases hparse : env.parseCron (row.cronExpr.getD "") with
      | none =>
        rw [hparse] at h
        cases h
      | some schedule =>
        rw [hparse] at h
        obtain ⟨⟨ts, last⟩, hwalk, heq⟩ := map_eq_some_iff.mp h
        cases heq
        exact Taken.cron hdue hevery hparse (Cron.walk_spec hwalk)
    · simp_all

end Taken

end Flywheel
