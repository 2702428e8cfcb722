import Flywheel.Library.Lists
import Flywheel.Periodic.Progress

/-!
# The history of a definition

`PeriodicHistory` lists the fires that a definition's row remembers, which the advance of a fire
records. One Scheduler's ticks, one after another, each of whose statements may fail and each of
which may stop anywhere: while no fire that has stored a job fails or stops before its advance, the
row remembers the latest of all the jobs that its fires stored (`Remembered`).
-/

namespace Flywheel

open Relational Threads Transition List Option Table

/-! ## Reading the history -/

/-- `PeriodicFire` -/
structure PeriodicFire where
  jobID : String
  firedAt : Time
  manual : Bool
  state : Option JobState := none
  outcome : Option RunOutcome := none
  finishedAt : Option Time := none

/-- A remembered fire, with its job and the run of the job's latest attempt. -/
def PeriodicFireEntry.view (db : Db) (e : PeriodicFireEntry) : PeriodicFire :=
  let job := db.jobs.get? e.jobID
  let run := job.bind fun job => (db.runs.rows.filter fun run =>
    decide (0 < job.attempt) && decide (run.jobID = job.id) &&
      decide (run.attempt = job.attempt)).getLast?
  { jobID := e.jobID, firedAt := e.firedAt, manual := e.manual
    state := job.map JobRow.state
    outcome := run.map JobRunRow.outcome
    finishedAt := run.bind JobRunRow.finishedAt }

/-- `PeriodicHistory` -/
def periodicHistory (slug : String) (s : PeriodicState) : Except PeriodicError
    (List PeriodicFire) :=
  match s.find? slug with
  | none => .error .notFound
  | some d => .ok (d.row.recentJobs.map (PeriodicFireEntry.view s.db))

/-! ## Ticks, one after another -/

/-- A tick: its clock reading, and what its statements run into. -/
structure TickPlay where
  now : Time
  fuel : ℕ
  inputs : List PeriodicInput

/-- The state after a tick, which ended or was stopped. -/
def playTick (env : PeriodicEnv) (backfillCap : ℤ) (s : PeriodicState) (t : TickPlay) :
    PeriodicState :=
  ((Periodic.tick env backfillCap t.fuel t.now).play (periodicMachine env) t.inputs s).1

/-- The state after one Scheduler's ticks. -/
def playTicks (env : PeriodicEnv) (backfillCap : ℤ) (s : PeriodicState) (ticks : List TickPlay) :
    PeriodicState :=
  ticks.foldl (playTick env backfillCap) s

/-- The fires of a definition, in the order that they were made. -/
def PeriodicState.firesOf (s : PeriodicState) (id : String) : List Firing :=
  s.fired.filter fun f => decide (f.definition.row.id = id)

/-- A job is stored for a bucket of the definition that its cursor is not past. -/
def PeriodicState.Pending (s : PeriodicState) (d : Definition) : Prop :=
  ∃ f ∈ s.firesOf d.id, d.row.nextRunAt ≤ f.bucket

/-- Once a fire has stored a job, its later enqueues and its advance succeed. -/
def GoesOn (env : PeriodicEnv) (o : PeriodicOp) (input : PeriodicInput) (s : PeriodicState) :
    Prop :=
  match o with
  | .enqueueBucket d bucket => s.Pending d →
      ∃ s' a, periodicMachine env (.enqueueBucket d bucket) input s = some (s', .ok a, [])
  | .advance d _ _ _ => s.Pending d → input ≠ .fail
  | _ => True

/-- No fire that has stored a job is left without its advance. -/
def PeriodicState.Settled (s : PeriodicState) : Prop := ∀ d ∈ s.periodics.rows, ¬s.Pending d

/-- In each tick, a fire that has stored a job goes on to its advance: none of its statements fails,
and the tick is not stopped before. -/
def TicksGoOn (env : PeriodicEnv) (backfillCap : ℤ) : List TickPlay → PeriodicState → Prop
  | [], _ => True
  | t :: ticks, s =>
    (Periodic.tick env backfillCap t.fuel t.now).Meets (periodicMachine env) (GoesOn env)
        PeriodicState.Settled t.inputs s ∧
      TicksGoOn env backfillCap ticks (playTick env backfillCap s t)

/-! ## What the rows remember -/

/-- The entry of a fire. -/
def Firing.entry (f : Firing) : PeriodicFireEntry := { jobID := f.jobID, firedAt := f.bucket }

/-- A definition remembers its latest fires, which are before its cursor, in order. -/
structure DefinitionRemembers (s : PeriodicState) (d : Definition) : Prop where
  history : d.row.recentJobs =
    (((s.firesOf d.id).map Firing.entry).reverse).take periodicHistorySize
  increase : (s.firesOf d.id).Pairwise fun f g => f.bucket < g.bucket
  before : ∀ f ∈ s.firesOf d.id, f.bucket < d.row.nextRunAt

/-- Every definition remembers its latest fires. -/
structure Remembered (slugs : List String) (s : PeriodicState) : Prop where
  rows : ∀ d ∈ s.periodics.rows, DefinitionRemembers s d
  slugs : s.periodics.rows.map (fun d => d.row.slug) = slugs

variable {env : PeriodicEnv} {slugs : List String} {s s₀ s' : PeriodicState} {d : Definition}
  {now : Time}
  {fires : List PeriodicFireEntry} {buckets : List Time} {nextRun : Time}

theorem DefinitionRemembers.congr (h : DefinitionRemembers s₀ d)
    (hfires : s.firesOf d.id = s₀.firesOf d.id) : DefinitionRemembers s d := by
  obtain ⟨hhistory, hincrease, hbefore⟩ := h
  exact ⟨hfires ▸ hhistory, hfires ▸ hincrease, hfires ▸ hbefore⟩

theorem Remembered.congr (h : Remembered slugs s₀) (hrows : s.periodics = s₀.periodics)
    (hfires : ∀ d ∈ s₀.periodics.rows, s.firesOf d.id = s₀.firesOf d.id) : Remembered slugs s := by
  refine ⟨fun d hd => ?_, hrows ▸ h.slugs⟩
  rw [hrows] at hd
  exact (h.rows d hd).congr (hfires d hd)

/-- A fire of the definition `d` that began in `s₀` and has stored the jobs `fires` so far. -/
structure Firing.Under (slugs : List String) (s₀ : PeriodicState) (d : Definition) (now : Time)
    (fires : List PeriodicFireEntry) (s : PeriodicState) : Prop where
  began : Remembered slugs s₀
  stored : d ∈ s₀.periodics.rows
  periodics : s.periodics = s₀.periodics
  others : ∀ e ∈ s₀.periodics.rows, e.id ≠ d.id → s.firesOf e.id = s₀.firesOf e.id
  own : ∃ new, s.firesOf d.id = s₀.firesOf d.id ++ new ∧ new.map Firing.entry = fires ∧
    new.Pairwise (fun f g => f.bucket < g.bucket) ∧
    ∀ f ∈ new, d.row.nextRunAt ≤ f.bucket ∧ f.bucket ≤ now

theorem Firing.Under.remembered (h : Firing.Under slugs s₀ d now fires s) (hnone : ¬s.Pending d) :
    Remembered slugs s := by
  obtain ⟨new, hown, -, -, hbounds⟩ := h.own
  have hnil : new = [] := by
    refine eq_nil_iff_forall_not_mem.mpr fun f hf => hnone ⟨f, ?_, (hbounds f hf).1⟩
    simp_all
  rw [hnil, append_nil] at hown
  refine h.began.congr h.periodics fun e he => ?_
  by_cases hid : e.id = d.id
  · rw [hid, hown]
  · exact h.others e he hid

theorem Firing.Under.of_settled (h : Firing.Under slugs s₀ d now fires s) (hsettled : s.Settled) :
    Remembered slugs s :=
  h.remembered (hsettled d (h.periodics ▸ h.stored))

theorem Firing.Under.begin (h : Remembered slugs s) (hd : d ∈ s.periodics.rows) (now : Time) :
    Firing.Under slugs s d now [] s :=
  ⟨h, hd, rfl, fun _ _ _ => rfl, [], (append_nil _).symm, rfl, List.Pairwise.nil, by simp⟩

theorem Firing.Under.same (h : Firing.Under slugs s₀ d now fires s)
    (hperiodics : s'.periodics = s.periodics) (hfired : s'.fired = s.fired) :
    Firing.Under slugs s₀ d now fires s' := by
  have hfires : ∀ id, s'.firesOf id = s.firesOf id := fun id => by
    rw [PeriodicState.firesOf, PeriodicState.firesOf, hfired]
  refine ⟨h.began, h.stored, hperiodics.trans h.periodics, fun e he hne => ?_, ?_⟩
  · rw [hfires, h.others e he hne]
  · rw [hfires]
    exact h.own

/-- A fire stores the job of a later bucket. -/
theorem Firing.Under.store (h : Firing.Under slugs s₀ d now fires s) {bucket : Time} {id : String}
    (hdue : d.row.nextRunAt ≤ bucket ∧ bucket ≤ now) (hlater : ∀ e ∈ fires, e.firedAt < bucket)
    (hperiodics : s'.periodics = s.periodics)
    (hfired : s'.fired = s.fired ++ [{ definition := d, bucket, jobID := id }]) :
    Firing.Under slugs s₀ d now (fires ++ [{ jobID := id, firedAt := bucket }]) s' := by
  obtain ⟨new, hown, hentries, hincrease, hbounds⟩ := h.own
  have hfires : ∀ x, s'.firesOf x = s.firesOf x ++ if d.row.id = x then
      [{ definition := d, bucket, jobID := id }] else [] := fun x => by
    grind [PeriodicState.firesOf]
  refine ⟨h.began, h.stored, hperiodics.trans h.periodics, fun e he hne => ?_,
    new ++ [{ definition := d, bucket, jobID := id }], ?_, ?_, ?_, ?_⟩
  · rw [hfires, if_neg fun heq => hne heq.symm, append_nil, h.others e he hne]
  · rw [hfires, if_pos rfl, hown, append_assoc]
  · rw [map_append, hentries]
    rfl
  · refine pairwise_append.mpr ⟨hincrease, pairwise_singleton _ _, fun f hf g hg => ?_⟩
    rw [mem_singleton.mp hg]
    exact hlater f.entry (hentries ▸ List.mem_map_of_mem hf)
  · intro f hf
    grind

/-- **The advance records what the fire stored.** -/
theorem Firing.Under.advance (h : Firing.Under slugs s₀ d now fires s)
    (hnext : now < nextRun) (hdue : d.row.nextRunAt ≤ now) :
    Remembered slugs (Flywheel.advance d.row.id fires nextRun now s) := by
  obtain ⟨new, hown, hentries, hincrease, hbounds⟩ := h.own
  have hfires : ∀ id, (Flywheel.advance d.row.id fires nextRun now s).firesOf id = s.firesOf id :=
    fun _ => rfl
  refine ⟨fun e he => ?_, ?_⟩
  · obtain ⟨e₀, he₀, rfl⟩ := List.mem_map.mp he
    rw [h.periodics] at he₀
    by_cases hid : isDefinition d.row.id e₀ = true
    · obtain rfl : e₀ = d := eq_of_key_eq he₀ h.stored (of_decide_eq_true hid)
      obtain ⟨hhistory, hold, hbefore⟩ := h.began.rows e₀ he₀
      rw [if_pos hid]
      have hsame : (patchRow (advanceRow fires nextRun now) (advanceRow_id fires nextRun now)).apply
        e₀ =
          { e₀ with row := advanceRow fires nextRun now e₀.row } := rfl
      have hcursor : (advanceRow fires nextRun now e₀.row).nextRunAt = nextRun := by
        rw [advanceRow]
        split_ifs <;> rfl
      refine ⟨?_, ?_, ?_⟩
      · grind [advanceRow, prependFires, take_append_take]
      · grind
      · grind
    · rw [if_neg hid]
      refine (h.began.rows e₀ he₀).congr ?_
      exact h.others e₀ he₀ fun heq => hid (decide_eq_true heq)
  · rw [← h.began.slugs, ← h.periodics]
    change (s.periodics.rows.map _).map _ = _
    rw [List.map_map]
    refine map_congr_left fun e _ => ?_
    dsimp only [Function.comp]
    split_ifs
    · change (advanceRow fires nextRun now e.row).slug = _
      rw [advanceRow]
      split_ifs <;> rfl
    · rfl

/-! ## The ticks keep the history -/

/-- What a program keeps: every definition remembers its fires where it is stopped, and `Q` holds of
its result. -/
abbrev Remembers {α : Type} (env : PeriodicEnv) (slugs : List String) (p : PeriodicProg α)
    (Q : α → PeriodicState → Prop) (s : PeriodicState) : Prop :=
  p.Ensures (periodicMachine env) (GoesOn env) PeriodicState.Settled (Remembered slugs) Q s

/-- The loop over the buckets: all are in, or it failed before it stored a job. -/
theorem remembers_enqueueBuckets (h : Firing.Under slugs s₀ d now fires s)
    (hincrease : buckets.Pairwise (· < ·)) (hdue : ∀ b ∈ buckets, d.row.nextRunAt ≤ b ∧ b ≤ now)
    (hlater : ∀ e ∈ fires, ∀ b ∈ buckets, e.firedAt < b) :
    Remembers env slugs (Periodic.enqueueBuckets d buckets fires)
      (fun r s' => (r.2 = none → Firing.Under slugs s₀ d now r.1 s') ∧
        (r.2 ≠ none → Remembered slugs s' ∧ s'.periodics = s₀.periodics)) s := by
  induction buckets generalizing fires s with
  | nil => exact ⟨fun _ => h, absurd rfl⟩
  | cons bucket buckets ih =>
    refine ⟨h.of_settled, fun input s' a children hok hact => ?_⟩
    have hanswer := enqueueBucket_answer hact
    obtain ⟨hfirst, hrest⟩ := pairwise_cons.mp hincrease
    have hdue' : ∀ b ∈ buckets, d.row.nextRunAt ≤ b ∧ b ≤ now := fun b hb =>
      hdue b (mem_cons_of_mem _ hb)
    match a with
    | .error e =>
      refine ⟨nofun, fun _ => ?_⟩
      have hsame := h.same hanswer.periodics (hanswer.error e rfl).2
      have hnone : ¬s'.Pending d := fun hpending => by
        have hpending : s.Pending d := by
          rw [PeriodicState.Pending, PeriodicState.firesOf, (hanswer.error e rfl).2] at hpending
          exact hpending
        obtain ⟨s'', a', hgood⟩ := hok hpending
        cases (Prod.mk.inj (Prod.mk.inj (some_inj.mp (hact.symm.trans hgood))).2).1
      exact ⟨hsame.remembered hnone, hsame.periodics⟩
    | .ok none =>
      refine ih (h.same hanswer.periodics (hanswer.collided rfl)) hrest hdue' fun e he b hb => ?_
      exact hlater e he b (mem_cons_of_mem _ hb)
    | .ok (some id) =>
      refine ih (h.store (hdue bucket mem_cons_self)
        (fun e he => hlater e he bucket mem_cons_self) hanswer.periodics (hanswer.stored id rfl))
        hrest hdue' fun e he b hb => ?_
      grind

variable {fuel : ℕ} {backfillCap : ℤ}

/-- The buckets of a fire increase. -/
theorem buckets_increase {row : PeriodicRow} {limit : ℤ} (hdue : row.nextRunAt ≤ now)
    (h : row.buckets env now limit fuel = some (.ok (buckets, nextRun))) :
    buckets.Pairwise (· < ·) := by
  have hlatest : ∀ ts : List Time, ts.Pairwise (· < ·) →
      (if 0 < limit then ts.drop (ts.length - limit.toNat) else ts).Pairwise (· < ·) := by
    grind
  rw [PeriodicRow.buckets] at h
  by_cases hevery : 0 < row.intervalSeconds.getD 0
  · rw [if_pos hevery, intervalBuckets_eq hevery hdue] at h
    cases h
    exact hlatest _ (intervalTimes_increase (mul_pos hevery (by decide)))
  · split_ifs at h
    · rw [cronBuckets_eq] at h
      cases hparse : env.parseCron (row.cronExpr.getD "") with
      | none =>
        rw [hparse] at h
        cases h
      | some schedule =>
        rw [hparse] at h
        obtain ⟨⟨ts, last⟩, hwalk, heq⟩ := map_eq_some_iff.mp h
        cases heq
        exact hlatest _ (Cron.walk_spec hwalk).increase
    · cases h

section

variable (h : Remembered slugs s)

include h

/-- A fire keeps the history, and every other definition's row. -/
theorem remembers_fire (hd : d ∈ s.periodics.rows) (hdue : d.row.nextRunAt ≤ now) :
    Remembers env slugs (Periodic.fire env backfillCap fuel now d)
      (fun _ s' => Remembered slugs s' ∧
        ∀ e ∈ s.periodics.rows, e.id ≠ d.id → e ∈ s'.periodics.rows) s := by
  rw [Periodic.fire]
  cases hbuckets : d.row.buckets env now backfillCap fuel with
  | none => exact ⟨h, fun e he _ => he⟩
  | some r =>
    obtain e | ⟨buckets, nextRun⟩ := r
    · exact ⟨h, fun e he _ => he⟩
    · have htaken := PeriodicRow.buckets_spec hdue hbuckets
      refine (remembers_enqueueBuckets (.begin h hd now) (buckets_increase hdue hbuckets) htaken.due
        (by simp)).bind fun r s' hr => ?_
      obtain ⟨fires, _ | e⟩ := r
      · have hunder := hr.1 rfl
        refine ⟨hunder.of_settled, fun input s'' a children hok hact => ?_⟩
        cases input with
        | fail =>
          cases hact
          refine ⟨hunder.remembered fun hpending => hok hpending rfl, fun e he _ => ?_⟩
          rwa [hunder.periodics]
        | run ctx =>
          cases hact
          refine ⟨hunder.advance htaken.after hdue, fun e he hne => ?_⟩
          refine List.mem_map.mpr ⟨e, hunder.periodics ▸ he, if_neg ?_⟩
          exact fun hself => hne (of_decide_eq_true hself)
      · obtain ⟨hremembered, hsame⟩ := hr.2 (by simp)
        exact ⟨hremembered, fun e he _ => hsame ▸ he⟩

/-- The fires of a tick keep the history. -/
theorem remembers_fireAll {defs : List Definition}
    (hdefs : ∀ d ∈ defs, d ∈ s.periodics.rows ∧ d.row.nextRunAt ≤ now)
    (hnodup : (defs.map Definition.id).Nodup) :
    Remembers env slugs (Periodic.fireAll env backfillCap fuel now defs)
      (fun _ s' => Remembered slugs s') s := by
  induction defs generalizing s with
  | nil => exact h
  | cons d defs ih =>
    obtain ⟨hd, hdue⟩ := hdefs d mem_cons_self
    obtain ⟨hnew, hnodup⟩ := nodup_cons.mp hnodup
    refine (remembers_fire h hd hdue).bind fun r s' hr => ?_
    obtain ⟨hremembered, hkept⟩ := hr
    obtain _ | ⟨n, err⟩ := r
    · exact hremembered
    · refine (ih hremembered (fun e he => ?_) hnodup).bind fun r s'' hr => ?_
      · simp_all
      · obtain _ | ⟨enqueued, errs⟩ := r
        · exact hr
        · exact hr

theorem remembers_report {r : TickReport} :
    Remembers env slugs (do let _ ← Periodic.stmt (.report r); return ())
      (fun _ s' => Remembered slugs s') s := by
  refine ⟨fun _ => h, fun input s' a children _ hact => ?_⟩
  cases input with
  | fail =>
    cases hact
    exact h
  | run ctx =>
    cases hact
    exact h.congr rfl fun _ _ => rfl

/-- **A tick keeps the history**, wherever it stops. -/
theorem remembers_tick :
    Remembers env slugs (Periodic.tick env backfillCap fuel now)
      (fun _ s' => Remembered slugs s') s := by
  refine ⟨fun _ => h, fun input s' a children _ hact => ?_⟩
  cases input with
  | fail =>
    cases hact
    exact remembers_report h
  | run ctx =>
    cases hact
    refine (remembers_fireAll h (fun d hd => ?_) ?_).bind fun r s' hr => ?_
    · obtain ⟨hd, hdue⟩ := mem_filter.mp hd
      simp_all [Definition.due]
    · exact s.periodics.nodup.sublist (filter_sublist.map Definition.id)
    · obtain _ | ⟨enqueued, errs⟩ := r
      · exact hr
      · exact remembers_report hr

theorem Remembered.ticks {ticks : List TickPlay} (hgoes : TicksGoOn env backfillCap ticks s) :
    Remembered slugs (playTicks env backfillCap s ticks) := by
  induction ticks generalizing s with
  | nil => exact h
  | cons t ticks ih =>
    obtain ⟨hmeets, hrest⟩ := hgoes
    refine ih ?_ hrest
    rcases (remembers_tick h).play hmeets with ⟨-, -, hkept⟩ | ⟨-, hkept⟩
    · exact hkept
    · exact hkept

end

/-! ## The latest fires -/

/-- The latest of these times, newest first, each once. -/
def latestTimes (n : ℕ) (times : List Time) : List Time :=
  (times.dedup.insertionSort fun a b => b ≤ a).take n

theorem latestTimes_of_increase {n : ℕ} {times : List Time} (h : times.Pairwise (· < ·)) :
    latestTimes n times = times.reverse.take n := by
  have hsorted : times.reverse.Pairwise fun a b => b ≤ a := (pairwise_reverse.mpr h).imp le_of_lt
  rw [latestTimes, dedup_eq_self.mpr (h.imp fun hlt => ne_of_lt hlt)]
  refine congrArg (List.take n) (Perm.eq_of_pairwise' (r := fun a b : Time => b ≤ a) ?_ hsorted ?_)
  · exact pairwise_insertionSort _ _
  · exact (perm_insertionSort _ _).trans (reverse_perm times).symm

theorem find?_of_mem (hslugs : (s.periodics.rows.map fun d => d.row.slug).Nodup)
    (hd : d ∈ s.periodics.rows) : s.find? d.row.slug = some d := by
  cases hfind : s.find? d.row.slug with
  | none =>
    have hno := find?_eq_none.mp hfind d hd
    exact absurd (decide_eq_true rfl) hno
  | some e =>
    have hslug : e.row.slug = d.row.slug := by simpa using find?_some hfind
    rw [inj_on_of_nodup_map hslugs (mem_of_find?_eq_some hfind) hd hslug]

/-- **Every enqueued fire is remembered.** For definitions without a history, and every sequence of
ticks by one Scheduler whose statements may fail anywhere and which may stop anywhere, so long as a
fire that has stored a job goes on to its advance: `PeriodicHistory` lists exactly the twenty latest
of the buckets that a job was enqueued for, newest first, each once. -/
theorem every_fire_is_remembered (env : PeriodicEnv) (backfillCap : ℤ) (s : PeriodicState)
    (hslugs : (s.periodics.rows.map fun d => d.row.slug).Nodup)
    (hfresh : ∀ d ∈ s.periodics.rows, d.row.recentJobs = []) (hfired : s.fired = [])
    (ticks : List TickPlay) (hgoes : TicksGoOn env backfillCap ticks s) (d : Definition)
    (hd : d ∈ (playTicks env backfillCap s ticks).periodics.rows) :
    ∃ history, periodicHistory d.row.slug (playTicks env backfillCap s ticks) = .ok history ∧
      history.map PeriodicFire.firedAt = latestTimes periodicHistorySize
        (((playTicks env backfillCap s ticks).firesOf d.id).map Firing.bucket) := by
  have hnone : ∀ id, s.firesOf id = [] := fun id => by
    rw [PeriodicState.firesOf, hfired]
    rfl
  have hstart : Remembered (s.periodics.rows.map fun d => d.row.slug) s := by
    refine ⟨fun d hd => ⟨?_, ?_, ?_⟩, rfl⟩
    · simp_all
    · simp_all
    · rw [hnone]
      simp
  have hend := hstart.ticks hgoes
  obtain ⟨hhistory, hincrease, -⟩ := hend.rows d hd
  have hfind : (playTicks env backfillCap s ticks).find? d.row.slug = some d :=
    find?_of_mem (hend.slugs ▸ hslugs) hd
  refine ⟨_, by rw [periodicHistory, hfind], ?_⟩
  rw [latestTimes_of_increase (pairwise_map.mpr hincrease), List.map_map, hhistory,
    map_take, map_reverse, List.map_map]
  rfl

/-- A minutely definition that two minutes are due of. -/
def minutelyStart : PeriodicState := { periodics := minutelyTable }

/-- A tick at the second minute: it loads the definition, enqueues both buckets and advances. -/
def secondMinute (inputs : List PeriodicInput) : TickPlay :=
    { now := 120 * second, fuel := 0, inputs }

/-- Both fires of a tick that succeeds. -/
theorem two_fires_are_remembered :
    ∃ history, periodicHistory "report" (playTicks { parseCron := fun _ => none } 0 minutelyStart
        [secondMinute [.run {}, .run { newID := fun _ => "j1" }, .run { newID := fun _ => "j2" },
          .run {}, .run {}]]) = .ok history ∧
      history.map PeriodicFire.firedAt = [120 * second, 60 * second] := by
  obtain ⟨history, hread, hlists⟩ := every_fire_is_remembered { parseCron := fun _ => none } 0
    minutelyStart (by decide) (by decide) rfl
    [secondMinute [.run {}, .run { newID := fun _ => "j1" }, .run { newID := fun _ => "j2" },
      .run {}, .run {}]]
    ⟨⟨trivial, fun _ => ⟨_, _, rfl⟩, fun _ => ⟨_, _, rfl⟩, fun _ h => (by cases h),
      trivial, trivial⟩,
      trivial⟩ _ mem_cons_self
  exact ⟨history, hread, hlists⟩

/-- **A fire that fails after it has stored a job is forgotten.** A tick enqueues the first minute
and fails on the second; the next one finds the first minute's job, enqueues the second and
succeeds, and the history does not list the first. -/
theorem failed_fire_is_forgotten :
    ∃ history, periodicHistory "report" (playTicks { parseCron := fun _ => none } 0 minutelyStart
        [secondMinute [.run {}, .run { newID := fun _ => "j1" }, .fail, .run {}],
          secondMinute [.run {}, .run { newID := fun _ => "j2" }, .run { newID := fun _ => "j3" },
            .run {}, .run {}]]) = .ok history ∧
      history.map PeriodicFire.firedAt = [120 * second] ∧
      ((playTicks { parseCron := fun _ => none } 0 minutelyStart
        [secondMinute [.run {}, .run { newID := fun _ => "j1" }, .fail, .run {}],
          secondMinute [.run {}, .run { newID := fun _ => "j2" }, .run { newID := fun _ => "j3" },
            .run {}, .run {}]]).fired.map Firing.bucket) = [60 * second, 120 * second] :=
  ⟨_, rfl, rfl, rfl⟩

end Flywheel
