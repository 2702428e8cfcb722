import Flywheel.Periodic.Model

/-!
# A tick's advance and newer schedules

A tick computes the next fire time from the definition that it loaded, and writes it by the row's
id whatever the row holds by then. Between the two an upsert may have stored another cadence, and a
resume may have moved the cursor past a pause. The advance then leaves a cursor that is no fire
time of the stored schedule, or takes it back into the pause. As long as neither happens between a
tick's load and its advance, every cursor is a fire time of its row's schedule, and no tick enqueues
a fire time inside a pause that ended before it loaded the definition.
-/

namespace Flywheel

open Relational Threads Transition List Table

/-! ## Definitions on schedule -/

/-- A definition on schedule: its cursor is a fire time of its cadence, after every pause that
ended, and it has one cadence. -/
structure Scheduled (env : PeriodicEnv) (d : Definition) : Prop where
  fire : d.row.FireTime env d.seed d.row.nextRunAt
  one : d.row.intervalSeconds = none ∨ d.row.cronExpr = none
  pauses : ∀ p ∈ d.pauses, p.2 < d.row.nextRunAt

/-- A later version of a definition: with as many seedings and resumes, it has the same cadence, the
same grid and the same pauses. -/
structure Tracks (d d' : Definition) : Prop where
  id : d'.row.id = d.row.id
  changes : d.changes ≤ d'.changes
  same : d'.changes = d.changes →
    d'.row.intervalSeconds = d.row.intervalSeconds ∧ d'.row.cronExpr = d.row.cronExpr ∧
      d'.seed = d.seed ∧ d'.pauses = d.pauses

theorem Tracks.refl (d : Definition) :
    Tracks d d := ⟨rfl, Nat.le_refl _, fun _ => ⟨rfl, rfl, rfl, rfl⟩⟩

variable {d : Definition} {env : PeriodicEnv} {s' : PeriodicState} {t : Time}

theorem Tracks.trans {d' d'' : Definition} (h : Tracks d d') (h' : Tracks d' d'') :
    Tracks d d'' := by
  refine ⟨h'.id.trans h.id, h.changes.trans h'.changes, fun heq => ?_⟩
  have hle := h.changes
  have hle' := h'.changes
  obtain ⟨hi, hc, hs, hp⟩ := h.same (by omega)
  obtain ⟨hi', hc', hs', hp'⟩ := h'.same (by omega)
  exact ⟨hi'.trans hi, hc'.trans hc, hs'.trans hs, hp'.trans hp⟩

/-- Every definition has a later version. -/
def Follows (s s' : PeriodicState) : Prop :=
  ∀ d ∈ s.periodics.rows, ∃ d' ∈ s'.periodics.rows, Tracks d d'

theorem Follows.refl (s : PeriodicState) : Follows s s := fun d hd => ⟨d, hd, Tracks.refl d⟩

theorem Follows.trans {s s'' : PeriodicState} (h : Follows s s') (h' : Follows s' s'') :
    Follows s s'' := by
  intro d hd
  obtain ⟨d', hd', ht⟩ := h d hd
  obtain ⟨d'', hd'', ht'⟩ := h' d' hd'
  exact ⟨d'', hd'', ht.trans ht'⟩

theorem PeriodicRow.FireTime.congr {r r' : PeriodicRow} {seed : Time} (h : r.FireTime env seed t)
    (hinterval : r'.intervalSeconds = r.intervalSeconds) (hcron : r'.cronExpr = r.cronExpr) :
    r'.FireTime env seed t := by
  unfold PeriodicRow.FireTime at h ⊢
  rwa [hinterval, hcron]

/-! ## The protocol -/

/-- The definitions are on schedule, and no job is of a fire time in a pause that had ended when
its tick loaded the definition. -/
structure OnSchedule (env : PeriodicEnv) (s : PeriodicState) : Prop where
  rows : ∀ d ∈ s.periodics.rows, Scheduled env d
  fired : ∀ f ∈ s.fired, ∀ p ∈ f.definition.pauses, p.2 < f.bucket

/-- The cron of a cadence has a match after a time. -/
def MatchAfter (env : PeriodicEnv) (expr : String) (now : Time) : Prop :=
  ∃ schedule t, env.parseCron expr = some schedule ∧ schedule.next now = some t

/-- What a step must meet. An update decides on the row that it read as it would on the stored one;
where it seeds the cursor, its cron has a next match and its clock is not behind a resume. A resume
finds a next match of a cron. An advance finds its definition as it was loaded: not seeded and not
resumed since. -/
def Undisturbed (env : PeriodicEnv) (o : PeriodicOp) (input : PeriodicInput) (s : PeriodicState) :
    Prop :=
  match o, input with
  | .updatePeriodic existing call, _ =>
    ∀ d ∈ s.periodics.rows, d.row.id = existing.row.id →
      scheduleChanged existing.row call.spec = scheduleChanged d.row call.spec ∧
        (scheduleChanged d.row call.spec = true →
          (0 < call.spec.every ∨ MatchAfter env call.spec.cron (call.ctx.clock 0)) ∧
            ∀ p ∈ d.pauses, p.2 ≤ call.ctx.clock 0)
  | .resume slug, .run ctx =>
    ∀ d, s.find? slug = some d →
      0 < d.row.intervalSeconds.getD 0 ∨ MatchAfter env (d.row.cronExpr.getD "") (ctx.clock 0)
  | .advance d _ _ _, _ => ∀ d' ∈ s.periodics.rows, d'.row.id = d.row.id → d'.changes = d.changes
  | _, _ => True

/-- Definitions only move on. -/
def cursorProtocol (env : PeriodicEnv) :
    Protocol PeriodicState PeriodicInput ℕ PeriodicOp PeriodicOp.Result where
  machine := periodicMachine env
  Inv := OnSchedule env
  Ok := Undisturbed env
  Rely _ := Follows
  Guar _ := Follows
  rely_refl _ := Follows.refl
  rely_trans := Follows.trans
  guar_rely _ h := h

variable {buckets : List Time}

section Statements

variable {env : PeriodicEnv} {s : PeriodicState}

variable {ctx : Context} {d : Definition} {spec : PeriodicSpec} {s' : PeriodicState} {now : Time}

variable {p : Definition → Bool} {f : Patch Definition.id} {row : PeriodicRow} {call : UpsertCall}
  {input : PeriodicInput} {slug : String}

theorem mem_update {t : Table Definition.id} (hd : d ∈ (t.update p f).rows) :
    ∃ d₀ ∈ t.rows, d = if p d₀ then f.apply d₀ else d₀ := by
  obtain ⟨d₀, hd₀, rfl⟩ := mem_map.mp hd
  exact ⟨d₀, hd₀, rfl⟩

theorem OnSchedule.update (h : OnSchedule env s)
    (hrows : s'.periodics = s.periodics.update p f) (hfired : s'.fired = s.fired)
    (hmoves : ∀ d ∈ s.periodics.rows, p d = true →
      Tracks d (f.apply d) ∧ Scheduled env (f.apply d)) : OnSchedule env s' ∧ Follows s s' := by
  refine ⟨⟨fun d hd => ?_, fun g hg => h.fired g (hfired ▸ hg)⟩, fun d hd => ?_⟩
  · rw [hrows] at hd
    obtain ⟨d₀, hd₀, rfl⟩ := mem_update hd
    by_cases hp : p d₀ = true
    · simp_all
    · rw [if_neg hp]
      exact h.rows d₀ hd₀
  · refine ⟨if p d then f.apply d else d, ?_, ?_⟩
    · rw [hrows]
      exact mem_map_of_mem hd
    · by_cases hp : p d = true
      · simp_all
      · rw [if_neg hp]
        exact Tracks.refl d

theorem wholeSeconds_pos (hvalid : spec.validate env = .ok ()) (hevery : 0 < spec.every) :
    0 < wholeSeconds spec.every := by
  have hsecond := (PeriodicSpec.validate_ok hvalid).1 hevery
  have hseconds : 0 < spec.every.tdiv second := by grind [second]
  unfold wholeSeconds
  rw [Int.sign_eq_one_of_pos hevery]
  dsimp only
  split_ifs
  · exact Int.add_pos hseconds (by decide)
  · exact hseconds

/-- A cadence is seeded at a fire time: an interval at any time, and a cron at its next match. -/
theorem fireTime_seeded (hvalid : spec.validate env = .ok ())
    (hnext : nextFireAfter env spec now = .ok t)
    (hmatch : 0 < spec.every ∨ MatchAfter env spec.cron now)
    (hinterval : row.intervalSeconds = spec.intervalColumn)
    (hcron : row.cronExpr = spec.cronColumn) : row.FireTime env t t ∧ now < t := by
  unfold nextFireAfter at hnext
  by_cases hevery : 0 < spec.every
  · rw [if_pos hevery] at hnext
    cases hnext
    have hseconds : row.intervalSeconds.getD 0 = wholeSeconds spec.every := by
      simp_all [PeriodicSpec.intervalColumn]
    refine ⟨(row.fireTime_interval env ?_ _ _).mpr ⟨0, by simp⟩, lt_add_of_pos_right _ hevery⟩
    rw [hseconds]
    exact wholeSeconds_pos hvalid hevery
  · obtain ⟨schedule, u, hparse, hu⟩ := hmatch.resolve_left hevery
    obtain rfl : u = t := by
      grind [Cron.nextTime]
    obtain ⟨hlt, -, hfires, -⟩ := schedule.next_some now u hu
    have hnone : ¬ 0 < row.intervalSeconds.getD 0 := by
      simp_all [PeriodicSpec.intervalColumn]
    refine ⟨(row.fireTime_cron hnone ?_ _ _).mpr hfires, hlt⟩
    simp_all [PeriodicSpec.cronColumn]

theorem PeriodicSpec.one_column (spec : PeriodicSpec) :
    spec.intervalColumn = none ∨ spec.cronColumn = none := by
  unfold PeriodicSpec.intervalColumn PeriodicSpec.cronColumn
  grind

theorem columns_of_unchanged (h : scheduleChanged row spec = false)
    (hone : row.intervalSeconds = none ∨ row.cronExpr = none) :
    spec.intervalColumn = row.intervalSeconds ∧ spec.cronColumn = row.cronExpr := by
  unfold scheduleChanged at h
  unfold PeriodicSpec.intervalColumn PeriodicSpec.cronColumn
  by_cases hevery : 0 < spec.every
  · simp_all
  · simp_all

/-- An insert is on schedule: a cron without a next match is refused. -/
theorem OnSchedule.insertPeriodic (h : OnSchedule env s) (hvalid : call.spec.validate env = .ok ())
    {landed : Bool} (hact : insertPeriodic env call s = .ok (s', landed)) :
    OnSchedule env s' ∧ Follows s s' := by
  rw [Flywheel.insertPeriodic] at hact
  obtain ⟨row, hrow, hmap⟩ := map_eq_ok.mp hact
  by_cases hconflict : s.periodics.conflicts slugClash { row } = true
  · simp_all [Follows.refl]
  · rw [if_neg hconflict] at hmap
    cases hmap
    obtain ⟨-, hnext, hzero, hinterval, hcron⟩ := insertRow_spec hrow
    have hrows : (s.periodics.insert slugClash { row }).rows =
        s.periodics.rows ++ [({ row } : Definition)] := by
      rw [Table.insert, dif_neg hconflict]
    have hmatch : 0 < call.spec.every ∨ MatchAfter env call.spec.cron (call.ctx.clock 0) := by
      by_cases hevery : 0 < call.spec.every
      · exact .inl hevery
      · obtain ⟨schedule, hparse⟩ := (PeriodicSpec.validate_ok hvalid).2 hevery
        cases hfound : schedule.next (call.ctx.clock 0) with
        | some t => exact .inr ⟨schedule, t, hparse, hfound⟩
        | none =>
          rw [nextFireAfter, if_neg hevery, hparse] at hnext
          grind [Cron.nextTime]
    have hnew : Scheduled env { row } := by
      refine ⟨(fireTime_seeded hvalid hnext hmatch hinterval hcron).1, ?_, by simp⟩
      rw [hinterval, hcron]
      exact call.spec.one_column
    refine ⟨⟨fun d hd => ?_, h.fired⟩, fun d hd => ⟨d, ?_, Tracks.refl d⟩⟩
    · change d ∈ (s.periodics.insert slugClash { row }).rows at hd
      rw [hrows] at hd
      rcases mem_append.mp hd with hd | hd
      · exact h.rows d hd
      · rwa [mem_singleton.mp hd]
    · simp_all

/-- An undisturbed update is on schedule. -/
theorem OnSchedule.updatePeriodic (h : OnSchedule env s) {existing : Definition}
    (hvalid : call.spec.validate env = .ok ())
    (hok : Undisturbed env (.updatePeriodic existing call) input s)
    (hact : updatePeriodic env existing.row call s = .ok s') :
    OnSchedule env s' ∧ Follows s s' := by
  obtain ⟨nextRun, hcursor, hact⟩ := bind_eq_ok.mp hact
  cases hact
  refine h.update rfl rfl fun d hd hp => ?_
  obtain ⟨hsame, hseeds⟩ := hok d hd (by simpa [isDefinition] using hp)
  have hbefore := h.rows d hd
  unfold updatedCursor at hcursor
  rw [hsame] at hcursor
  by_cases hchanged : scheduleChanged d.row call.spec = true
  · rw [if_pos hchanged] at hcursor
    obtain ⟨t, hnext, rfl⟩ := map_eq_ok.mp hcursor
    obtain ⟨hmatch, hpauses⟩ := hseeds hchanged
    have hseeded : ((updateDefinition call (some t)).apply d).row.FireTime env t t ∧
        call.ctx.clock 0 < t := fireTime_seeded hvalid hnext hmatch rfl rfl
    refine ⟨⟨rfl, Nat.le_succ _, fun heq => absurd heq (Nat.succ_ne_self _)⟩, hseeded.1, ?_,
      fun p hp => (hpauses p hp).trans_lt hseeded.2⟩
    exact call.spec.one_column
  · rw [if_neg hchanged] at hcursor
    cases hcursor
    obtain ⟨hinterval, hcron⟩ := columns_of_unchanged (by simpa using hchanged) hbefore.one
    refine ⟨⟨rfl, Nat.le_refl _, fun _ => ⟨hinterval, hcron, rfl, rfl⟩⟩, ?_, call.spec.one_column,
      hbefore.pauses⟩
    exact hbefore.fire.congr hinterval hcron

theorem OnSchedule.pausePeriodic (h : OnSchedule env s) (hact : pausePeriodic ctx slug s = .ok s') :
    OnSchedule env s' ∧ Follows s s' := by
  obtain ⟨actor, -, hact⟩ := bind_eq_ok.mp hact
  cases hfound : s.find? slug with
  | none => simp_all
  | some d =>
    rw [hfound] at hact
    by_cases hpaused : d.row.pausedAt.isSome = true
    · simp only [hpaused, if_true] at hact
      cases hact
      exact ⟨h, Follows.refl _⟩
    · simp only [hpaused] at hact
      obtain ⟨db, -, hact⟩ := bind_eq_ok.mp hact
      cases hact
      refine h.update rfl rfl fun d' hd' _ => ?_
      have hbefore := h.rows d' hd'
      exact ⟨⟨rfl, Nat.le_refl _, fun _ => ⟨rfl, rfl, rfl, rfl⟩⟩, hbefore.fire.congr rfl rfl,
        hbefore.one, hbefore.pauses⟩

/-- Where a resume moves the cursor: to a fire time after now, and never back. -/
theorem resumedNextRun_spec (h : Scheduled env d) (hnext : resumedNextRun env d.row now = .ok t)
    (hmatch : 0 < d.row.intervalSeconds.getD 0 ∨ MatchAfter env (d.row.cronExpr.getD "") now) :
    d.row.FireTime env d.seed t ∧ now < t ∧ d.row.nextRunAt ≤ t := by
  unfold resumedNextRun at hnext
  by_cases hlater : now < d.row.nextRunAt
  · rw [if_pos hlater] at hnext
    cases hnext
    exact ⟨h.fire, hlater, le_refl _⟩
  · rw [if_neg hlater] at hnext
    have hdue : d.row.nextRunAt ≤ now := not_lt.mp hlater
    by_cases hevery : 0 < d.row.intervalSeconds.getD 0
    · rw [if_pos hevery] at hnext
      cases hnext
      -- the interval's phase is that of a tick at this time
      have htaken := Taken.interval env 0 hdue hevery
      rw [intervalBuckets_eq hevery hdue] at htaken
      exact ⟨htaken.next _ h.fire, htaken.after, hdue.trans htaken.after.le⟩
    · obtain ⟨schedule, u, hparse, hu⟩ := hmatch.resolve_left hevery
      by_cases hcron : d.row.cronExpr.getD "" ≠ ""
      · obtain rfl : u = t := by
          grind [Cron.nextTime]
        obtain ⟨hlt, -, hfires, -⟩ := schedule.next_some now u hu
        exact ⟨(d.row.fireTime_cron hevery hparse _ _).mpr hfires, hlt, hdue.trans hlt.le⟩
      · simp_all

/-- A resume moves the cursor past its pause. -/
theorem OnSchedule.resumePeriodic (h : OnSchedule env s)
    (hok : Undisturbed env (.resume slug) (.run ctx) s)
    (hact : resumePeriodic env ctx slug s = .ok s') : OnSchedule env s' ∧ Follows s s' := by
  obtain ⟨actor, -, hact⟩ := bind_eq_ok.mp hact
  cases hfound : s.find? slug with
  | none => simp_all
  | some d =>
    rw [hfound] at hact
    by_cases hpaused : d.row.pausedAt.isNone = true
    · simp only [hpaused, if_true] at hact
      cases hact
      exact ⟨h, Follows.refl _⟩
    · simp only [hpaused] at hact
      obtain ⟨t, hnext, hact⟩ := bind_eq_ok.mp hact
      obtain ⟨db, -, hact⟩ := bind_eq_ok.mp hact
      cases hact
      have hd : d ∈ s.periodics.rows := mem_of_find?_eq_some hfound
      refine h.update rfl rfl fun d' hd' hp => ?_
      obtain rfl : d' = d := eq_of_key_eq hd' hd (by simpa [isDefinition] using hp)
      have hbefore := h.rows d' hd'
      obtain ⟨hfire, hafter, hforward⟩ := resumedNextRun_spec hbefore hnext (hok d' hfound)
      refine ⟨⟨rfl, Nat.le_succ _, fun heq => absurd heq (Nat.succ_ne_self _)⟩,
        hfire.congr rfl rfl, hbefore.one, fun p hp => ?_⟩
      rcases mem_append.mp hp with hp | hp
      · exact (hbefore.pauses p hp).trans_le hforward
      · obtain ⟨-, -, rfl⟩ := mem_map.mp hp
        exact hafter

/-- An undisturbed advance moves the cursor along its schedule. -/
theorem OnSchedule.advance (h : OnSchedule env s) (hd : Scheduled env d)
    (htracks : ∃ d' ∈ s.periodics.rows, Tracks d d') {limit : ℤ}
    {nextRun : Time} (hdue : d.row.nextRunAt ≤ now)
    (htaken : Taken env d.row now limit buckets nextRun) {fires : List PeriodicFireEntry}
      (hok : Undisturbed env (.advance d fires nextRun now) input s) :
    OnSchedule env (advance d.row.id fires nextRun now s) ∧
      Follows s (advance d.row.id fires nextRun now s) := by
  obtain ⟨stored, hstored, ht⟩ := htracks
  refine h.update rfl rfl fun d' hd' hp => ?_
  have hid : d'.row.id = d.row.id := by simpa [isDefinition] using hp
  obtain rfl : d' = stored := eq_of_key_eq hd' hstored (hid.trans ht.id.symm)
  obtain ⟨hinterval, hcron, hseed, hpauses⟩ := ht.same (hok d' hd' hid)
  have hbefore := h.rows d' hd'
  have hnext : (advanceRow fires nextRun now d'.row).nextRunAt = nextRun := by
    unfold advanceRow
    split_ifs <;> rfl
  have hi : (advanceRow fires nextRun now d'.row).intervalSeconds = d'.row.intervalSeconds := by
    unfold advanceRow
    split_ifs <;> rfl
  have hc : (advanceRow fires nextRun now d'.row).cronExpr = d'.row.cronExpr := by
    unfold advanceRow
    split_ifs <;> rfl
  refine ⟨⟨advanceRow_id .., Nat.le_refl _, fun _ => ⟨hi, hc, rfl, rfl⟩⟩, ?_, ?_, fun p hp => ?_⟩
  · change (advanceRow fires nextRun now d'.row).FireTime env d'.seed
      (advanceRow fires nextRun now d'.row).nextRunAt
    rw [hnext, hseed]
    exact (htaken.next d.seed hd.fire).congr (hi.trans hinterval) (hc.trans hcron)
  · change (advanceRow fires nextRun now d'.row).intervalSeconds = none ∨
      (advanceRow fires nextRun now d'.row).cronExpr = none
    rw [hi, hc]
    exact hbefore.one
  · change p.2 < (advanceRow fires nextRun now d'.row).nextRunAt
    rw [hnext]
    have hp' : p ∈ d.pauses := hpauses ▸ hp
    exact (hd.pauses p hp').trans (hdue.trans_lt htaken.after)

theorem OnSchedule.enqueueBucket (h : OnSchedule env s) {bucket : Time}
    (hbucket : ∀ p ∈ d.pauses, p.2 < bucket) {answer : Option String}
    (hact : enqueueBucket ctx d bucket s = .ok (s', answer)) :
    OnSchedule env s' ∧ Follows s s' := by
  unfold Flywheel.enqueueBucket at hact
  split at hact
  · cases hact
  · cases hact
    exact ⟨⟨h.rows, h.fired⟩, Follows.refl _⟩
  · cases hact
    refine ⟨⟨h.rows, fun f hf => ?_⟩, Follows.refl _⟩
    rcases mem_append.mp hf with hf | hf
    · exact h.fired f hf
    · grind

end Statements

/-! ## The calls -/

section Rules

variable {env : PeriodicEnv} {label : ℕ} {s : PeriodicState}

variable {o : PeriodicOp} {backfillCap : ℤ} {fuel : ℕ} {now : Time}

theorem cursor_stmt {α : Type} {Q : α → PeriodicState → Prop} {next : o.Result → PeriodicProg α}
    (hfail : ∀ e s', Follows s s' → Upholds (cursorProtocol env) label (next (.error e)) s' Q)
    (hact : ∀ s₁ ctx s₂ a, Follows s s₁ → OnSchedule env s₁ → Undisturbed env o (.run ctx) s₁ →
      o.act env ctx s₁ = .ok (s₂, a) → (OnSchedule env s₂ ∧ Follows s₁ s₂) ∧
        (Follows s s₂ → Upholds (cursorProtocol env) label (next (.ok a)) s₂ Q)) :
    Upholds (cursorProtocol env) label (.op o next) s Q := by
  refine upholds_stmt rfl Follows.refl (fun e s' hrely _ _ => hfail e s' hrely) ?_
  intro s₁ ctx s₂ a hrely hinv hok hresult
  obtain ⟨⟨hinv', hfollows⟩, hnext⟩ := hact s₁ ctx s₂ a hrely hinv hok hresult
  exact ⟨hinv', hfollows, hnext (hrely.trans hfollows)⟩

theorem cursor_enqueueBuckets (hbuckets : ∀ b ∈ buckets, ∀ p ∈ d.pauses, p.2 < b)
    (fires : List PeriodicFireEntry) (s : PeriodicState) :
    Upholds (cursorProtocol env) label (Periodic.enqueueBuckets d buckets fires) s
      fun _ s' => Follows s s' := by
  induction buckets generalizing fires s with
  | nil => exact fun s' hrely _ => hrely
  | cons bucket buckets ih =>
    have hrest : ∀ fires' s', Follows s s' → Upholds (cursorProtocol env) label
        (Periodic.enqueueBuckets d buckets fires') s' fun _ s'' => Follows s s'' :=
      fun fires' s' hfollows => (ih (fun b hb => hbuckets b (mem_cons_of_mem _ hb)) fires' s').mono
        fun _ _ _ h => hfollows.trans h
    refine cursor_stmt (fun e s' hfollows => ?_) ?_
    · exact fun s'' hrely _ => hfollows.trans hrely
    · intro s₁ ctx s₂ answer _ hinv _ hact
      refine ⟨hinv.enqueueBucket (hbuckets bucket mem_cons_self) hact, fun hfollows => ?_⟩
      cases answer with
      | none => exact hrest fires s₂ hfollows
      | some id => exact hrest _ s₂ hfollows

/-- `fire` of a definition that was loaded on schedule. -/
theorem cursor_fire (hd : Scheduled env d) (hdue : d.row.nextRunAt ≤ now)
    (htracks : ∃ d' ∈ s.periodics.rows, Tracks d d') :
    Upholds (cursorProtocol env) label (Periodic.fire env backfillCap fuel now d) s
      fun _ s' => Follows s s' := by
  unfold Periodic.fire
  cases hbuckets : d.row.buckets env now backfillCap fuel with
  | none => exact fun s' hrely _ => hrely
  | some taken =>
    cases taken with
    | error e => exact fun s' hrely _ => hrely
    | ok r =>
      obtain ⟨buckets, nextRun⟩ := r
      have htaken := PeriodicRow.buckets_spec hdue hbuckets
      refine (cursor_enqueueBuckets (fun b hb p hp => ?_) [] s).bind ?_
      · exact (hd.pauses p hp).trans_le (htaken.due b hb).1
      · rintro ⟨fires, err⟩ s' - hfollows
        cases err with
        | some e => exact fun s'' hrely _ => hfollows.trans hrely
        | none =>
          refine cursor_stmt (fun e s'' hfollows' => ?_) ?_
          · exact fun s₃ hrely _ => (hfollows.trans hfollows').trans hrely
          · intro s₁ ctx s₂ a hfollows' hinv hok hact
            cases hact
            obtain ⟨d₀, hd₀, ht⟩ := htracks
            obtain ⟨d₁, hd₁, ht'⟩ := (hfollows.trans hfollows') d₀ hd₀
            refine ⟨hinv.advance hd ⟨d₁, hd₁, ht.trans ht'⟩ hdue htaken hok, fun hall => ?_⟩
            exact fun s₃ hrely _ => (hfollows.trans hall).trans hrely

/-- The loop of a tick over definitions that were loaded on schedule. -/
theorem cursor_fireAll {defs : List Definition}
    (hdefs : ∀ d ∈ defs, Scheduled env d ∧ d.row.nextRunAt ≤ now)
    (htracks : ∀ d ∈ defs, ∃ d' ∈ s.periodics.rows, Tracks d d') :
    Upholds (cursorProtocol env) label (Periodic.fireAll env backfillCap fuel now defs) s
      fun _ _ => True := by
  induction defs generalizing s with
  | nil => exact fun _ _ _ => trivial
  | cons d defs ih =>
    obtain ⟨hd, hdue⟩ := hdefs d mem_cons_self
    refine (cursor_fire hd hdue (htracks d mem_cons_self)).bind ?_
    rintro (_ | ⟨n, err⟩) s' - hfollows
    · exact fun _ _ _ => trivial
    · refine (ih (fun d' hd' => hdefs d' (mem_cons_of_mem _ hd')) fun d' hd' => ?_).bind ?_
      · obtain ⟨d₀, hd₀, ht⟩ := htracks d' (mem_cons_of_mem _ hd')
        obtain ⟨d₁, hd₁, ht'⟩ := hfollows d₀ hd₀
        exact ⟨d₁, hd₁, ht.trans ht'⟩
      · rintro (_ | ⟨enqueued, errs⟩) s'' - -
        · exact fun _ _ _ => trivial
        · exact fun _ _ _ => trivial

theorem cursor_last (hact : ∀ s₁ ctx s₂ a, OnSchedule env s₁ → Undisturbed env o (.run ctx) s₁ →
      o.act env ctx s₁ = .ok (s₂, a) → OnSchedule env s₂ ∧ Follows s₁ s₂) :
    Upholds (cursorProtocol env) label (Periodic.stmt o) s fun _ _ => True :=
  cursor_stmt (fun _ _ _ _ _ _ => trivial) fun s₁ ctx s₂ a _ hinv hok hresult =>
    ⟨hact s₁ ctx s₂ a hinv hok hresult, fun _ _ _ _ => trivial⟩

/-- A tick keeps the definitions on schedule. -/
theorem cursor_tick (backfillCap : ℤ) (fuel : ℕ) (now : Time) :
    Upholds (cursorProtocol env) label (Periodic.tick env backfillCap fuel now) s
      fun _ _ => True := by
  have hreport : ∀ r s', Upholds (cursorProtocol env) label
      (do let _ ← Periodic.stmt (.report r); return ()) s' fun _ _ => True := by
    intro r s'
    refine (cursor_last fun s₁ ctx s₂ a hinv _ hact => ?_).bind fun _ _ _ _ _ _ _ => trivial
    cases hact
    exact ⟨⟨hinv.rows, hinv.fired⟩, Follows.refl _⟩
  unfold Periodic.tick Periodic.tickBy
  refine cursor_stmt (fun e s' _ => hreport _ s') ?_
  intro s₁ ctx s₂ defs _ hinv _ hact
  cases hact
  refine ⟨⟨hinv, Follows.refl _⟩, fun _ => ?_⟩
  have hrows : ∀ d ∈ s₁.due now, d ∈ s₁.periodics.rows ∧ d.row.nextRunAt ≤ now := by
    intro d hd
    obtain ⟨hd, hdue⟩ := mem_filter.mp hd
    exact ⟨hd, by simpa using (Bool.and_eq_true_iff.mp hdue).2⟩
  refine (cursor_fireAll (fun d hd => ⟨hinv.rows d (hrows d hd).1, (hrows d hd).2⟩)
    fun d hd => ⟨d, (hrows d hd).1, Tracks.refl d⟩).bind ?_
  rintro (_ | ⟨enqueued, errs⟩) s' - -
  · exact fun _ _ _ => trivial
  · exact hreport _ s'

/-- An upsert keeps the definitions on schedule. -/
theorem cursor_upsertPeriodic (call : UpsertCall) :
    Upholds (cursorProtocol env) label (Periodic.upsertPeriodic env call) s fun _ _ => True := by
  unfold Periodic.upsertPeriodic
  cases hvalid : call.spec.validate env with
  | error e => exact fun _ _ _ => trivial
  | ok u =>
    have hexisting : ∀ existing s', Upholds (cursorProtocol env) label
        (Periodic.upsertExisting existing call) s' fun _ _ => True := by
      intro existing s'
      refine cursor_last fun s₁ ctx s₂ a hinv hok hact => ?_
      obtain ⟨s₂', hupdate, heq⟩ := map_eq_ok.mp hact
      cases heq
      exact hinv.updatePeriodic hvalid hok hupdate
    refine cursor_stmt (fun _ _ _ _ _ _ => trivial) ?_
    intro s₁ ctx s₂ found _ hinv _ hact
    cases hact
    refine ⟨⟨hinv, Follows.refl _⟩, fun _ => ?_⟩
    cases s₁.find? call.spec.slug with
    | some existing => exact hexisting existing s₁
    | none =>
      refine cursor_stmt (fun _ _ _ _ _ _ => trivial) ?_
      intro s₂ ctx' s₃ landed _ hinv' _ hact'
      refine ⟨hinv'.insertPeriodic hvalid hact', fun _ => ?_⟩
      cases landed with
      | true => exact fun _ _ _ => trivial
      | false =>
        refine cursor_stmt (fun _ _ _ _ _ _ => trivial) ?_
        intro s₄ ctx'' s₅ found _ hinv'' _ hact''
        cases hact''
        refine ⟨⟨hinv'', Follows.refl _⟩, fun _ => ?_⟩
        cases s₄.find? call.spec.slug with
        | some existing => exact hexisting existing s₄
        | none => exact fun _ _ _ => trivial

theorem cursor_pause (slug : String) :
    Upholds (cursorProtocol env) label (Periodic.stmt (.pause slug)) s fun _ _ => True := by
  refine cursor_last fun s₁ ctx s₂ a hinv _ hact => ?_
  obtain ⟨s₂', hpause, heq⟩ := map_eq_ok.mp hact
  cases heq
  exact hinv.pausePeriodic hpause

theorem cursor_resume (slug : String) :
    Upholds (cursorProtocol env) label (Periodic.stmt (.resume slug)) s fun _ _ => True := by
  refine cursor_last fun s₁ ctx s₂ a hinv hok hact => ?_
  obtain ⟨s₂', hresume, heq⟩ := map_eq_ok.mp hact
  cases heq
  exact hinv.resumePeriodic hok hresume

end Rules

/-! ## Whole histories -/

/-- A call on the definitions. -/
inductive PeriodicCall where
  | tick (c : TickCall)
  | upsert (c : UpsertCall)
  | pause (slug : String)
  | resume (slug : String)

/-- The program of a call. -/
def PeriodicCall.prog (env : PeriodicEnv) : PeriodicCall → PeriodicProg Unit
  | .tick c => Periodic.tick env c.backfillCap c.fuel c.now
  | .upsert c => do let _ ← Periodic.upsertPeriodic env c; return ()
  | .pause slug => do let _ ← Periodic.stmt (.pause slug); return ()
  | .resume slug => do let _ ← Periodic.stmt (.resume slug); return ()

theorem cursor_call {label : ℕ} {s : PeriodicState} (call : PeriodicCall) :
    Upholds (cursorProtocol env) label (call.prog env) s fun _ _ => True := by
  cases call with
  | tick c => exact cursor_tick c.backfillCap c.fuel c.now
  | upsert c => exact (cursor_upsertPeriodic c).bind fun _ _ _ _ _ _ _ => trivial
  | pause slug => exact (cursor_pause slug).bind fun _ _ _ _ _ _ _ => trivial
  | resume slug => exact (cursor_resume slug).bind fun _ _ _ _ _ _ _ => trivial

/-- The system of some calls, from a start. -/
def callsSys (env : PeriodicEnv) (db : Db) (periodics : Table Definition.id)
    (calls : List PeriodicCall) : PeriodicSys where
  shared := { db, periodics }
  threads := numbered (calls.map (PeriodicCall.prog env))

/-- A step disturbs no tick between its load and its advance. -/
def StepUndisturbed (env : PeriodicEnv) (sys : PeriodicSys) : PeriodicStep → Prop
  | .move thread input => Admitted (cursorProtocol env) sys thread input
  | .stop _ => True

/-- In every history of ticks, upserts, pauses and resumes in which no step disturbs a tick between
its load and its advance, nor an upsert between its lookup and its update: every `next_run_at` is a
fire time of the schedule that its row stores, and no tick that loads a definition after a resume
enqueues a fire time inside the pause that the resume ended. -/
theorem ticks_keep_newer_schedules (env : PeriodicEnv) (db : Db) (periodics : Table Definition.id)
    (hstart : ∀ d ∈ periodics.rows, Scheduled env d) (calls : List PeriodicCall)
    (history : List PeriodicStep)
    (hundisturbed : Legal (PeriodicSys.step env) (StepUndisturbed env)
      (callsSys env db periodics calls) history) :
    let after := (run (PeriodicSys.step env) (callsSys env db periodics calls) history).shared
    (∀ d ∈ after.periodics.rows, d.row.FireTime env d.seed d.row.nextRunAt) ∧
      ∀ f ∈ after.fired, ∀ p ∈ f.definition.pauses, ¬ (p.1 ≤ f.bucket ∧ f.bucket ≤ p.2) := by
  have hupheld : Upheld (cursorProtocol env) (fun _ _ => True) (List.range calls.length)
      (run (PeriodicSys.step env) (callsSys env db periodics calls) history) := by
    refine hundisturbed.invariant
      (I := Upheld (cursorProtocol env) (fun _ _ => True) (List.range calls.length)) ?_ ?_
    · intro sys e hok h
      cases e with
      | move thread input => exact h.move hok
      | stop thread => exact h.stop thread
    · refine ⟨⟨hstart, fun f hf => by cases hf⟩, nodup_range, ?_, fun t ht => ?_⟩
      · exact (numbered_labels _).trans (by rw [length_map])
      · obtain ⟨⟨p, i⟩, hp, rfl⟩ := mem_map.mp ht
        grind [cursor_call]
  refine ⟨fun d hd => (hupheld.inv.rows d hd).fire, fun f hf p hp hinside => ?_⟩
  exact absurd (hupheld.inv.fired f hf p hp) (not_lt.mpr hinside.2)

/-- A tick, and an upsert that changes the cadence after it: the advance lands before the lookup. -/
theorem tick_then_upsert_on_schedule :
    ∃ s, run (PeriodicSys.step { parseCron := fun _ => none })
        (callsSys { parseCron := fun _ => none } {} minutelyTable
          [.tick ⟨10, 0, 60 * second⟩, .upsert hourlyCall])
        [.move 0 (.run {}), .move 0 (.run { newID := fun _ => "j1" }), .move 0 (.run {}),
          .move 1 (.run {}), .move 1 (.run {})] = s ∧
      ∀ d ∈ s.shared.periodics.rows,
        d.row.FireTime { parseCron := fun _ => none } d.seed d.row.nextRunAt := by
  refine ⟨_, rfl, (ticks_keep_newer_schedules { parseCron := fun _ => none } {} minutelyTable ?_
    [.tick ⟨10, 0, 60 * second⟩, .upsert hourlyCall]
    [.move 0 (.run {}), .move 0 (.run { newID := fun _ => "j1" }), .move 0 (.run {}),
      .move 1 (.run {}), .move 1 (.run {})] ⟨?_, ?_, ?_, ?_, ?_, trivial⟩).1⟩
  · intro d hd
    obtain rfl := mem_singleton.mp hd
    exact ⟨(minutely.row.fireTime_interval _ (by decide) _ _).mpr ⟨0, by simp [minutely]⟩,
      .inr rfl, by simp [minutely]⟩
  · exact admitted_of_get rfl trivial
  · exact admitted_of_get rfl trivial
  · exact admitted_of_get rfl fun d' hd' _ => by
      obtain rfl := mem_singleton.mp hd'
      rfl
  · exact admitted_of_get rfl trivial
  · refine admitted_of_get rfl fun d' hd' _ => ?_
    obtain rfl := mem_singleton.mp hd'
    exact ⟨rfl, fun _ => ⟨.inl (by decide), fun p hp => (not_mem_nil hp).elim⟩⟩

/-- A tick loads the minutely definition at its first minute. First, an upsert makes the definition
hourly before the tick advances it: it ends hourly, seeded at an hour, and due at two minutes.
Second, a pause from 70 s to 600 s begins and ends before the tick advances it: the cursor goes back
from 660 s to 120 s, and the next tick enqueues the fire of 120 s, inside the pause. -/
theorem stale_advance_overwrites_newer_schedule :
    (∃ d ∈ (run (PeriodicSys.step { parseCron := fun _ => none })
        (callsSys { parseCron := fun _ => none } {} minutelyTable
          [.tick ⟨10, 0, 60 * second⟩, .upsert hourlyCall])
        [.move 0 (.run {}), .move 1 (.run {}), .move 1 (.run {}),
          .move 0 (.run { newID := fun _ => "j1" }), .move 0 (.run {}),
          .move 0 (.run {})]).shared.periodics.rows,
      ¬ d.row.FireTime { parseCron := fun _ => none } d.seed d.row.nextRunAt) ∧
    ∃ f ∈ (run (PeriodicSys.step { parseCron := fun _ => none })
        (callsSys { parseCron := fun _ => none } {} minutelyTable
          [.tick ⟨10, 0, 60 * second⟩, .pause "report", .resume "report",
            .tick ⟨10, 0, 660 * second⟩])
        [.move 0 (.run {}), .move 1 (.run { clock := fun _ => 70 * second }),
          .move 2 (.run { clock := fun _ => 600 * second }),
          .move 0 (.run { newID := fun _ => "j1" }), .move 0 (.run {}), .move 0 (.run {}),
          .move 3 (.run {}), .move 3 (.run { newID := fun _ => "j2" })]).shared.fired,
      ∃ p ∈ f.definition.pauses, p.1 ≤ f.bucket ∧ f.bucket ≤ p.2 := by
  constructor
  · refine ⟨_, mem_singleton.mpr rfl, fun h => ?_⟩
    obtain ⟨k, hk⟩ := (PeriodicRow.fireTime_interval _ (by decide) _ _).mp h
    have hdue : (120 * 1000000000 : ℤ) = 3600 * 1000000000 + k * (3600 * 1000000000) := hk
    omega
  · decide

end Flywheel
