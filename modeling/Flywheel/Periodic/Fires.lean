import Mathlib.Data.Set.Card
import Flywheel.Instants
import Flywheel.Library.Decimal
import Flywheel.Periodic.Model

/-!
# Every fire once, and none lost

A tick enqueues its buckets and then advances the cursor, in transactions of their own, and two
Schedulers may move one cursor back and forth. Neither matters to the jobs: each bucket has a
unique key, different fire times of a definition have different keys, and an insert that finds its
key held changes nothing. So a fire time is enqueued once however many ticks take it, and a tick
that ends without an error leaves the key of every bucket that it took held.
-/

namespace Flywheel

open Relational Threads Transition List

/-! ## The bucket's key -/

theorem unix_add (t n : ℤ) : unix (t + n * second) = unix t + n :=
  Int.add_mul_ediv_right t n (by decide)

variable {env : PeriodicEnv}

/-- Fire times of one definition have keys of their own. -/
theorem bucketKey_injective {row : PeriodicRow} {seed t u : Time}
    (ht : row.FireTime env seed t) (hu : row.FireTime env seed u)
    (hkey : bucketKey row.slug t = bucketKey row.slug u) : t = u := by
  have hunix : unix t = unix u := by
    refine Encoding.repr_injective ?_
    simpa [bucketKey] using hkey
  by_cases hevery : 0 < row.intervalSeconds.getD 0
  · obtain ⟨k, rfl⟩ := (row.fireTime_interval env hevery seed t).mp ht
    obtain ⟨l, rfl⟩ := (row.fireTime_interval env hevery seed u).mp hu
    rw [← mul_assoc, ← mul_assoc, unix_add, unix_add] at hunix
    rw [← mul_assoc, ← mul_assoc, add_left_cancel hunix]
  · rw [PeriodicRow.FireTime, if_neg hevery] at ht hu
    obtain ⟨schedule, hparse, ht⟩ := ht
    obtain ⟨schedule', hparse', hu⟩ := hu
    obtain rfl : schedule = schedule' := Option.some.inj (hparse.symm.trans hparse')
    -- a match falls on a whole second
    rw [← Int.ediv_mul_cancel (schedule.fires_whole t ht),
      ← Int.ediv_mul_cancel (schedule.fires_whole u hu)]
    exact congrArg (· * second) hunix

/-- A key is held by a job. -/
def KeyHeld (s : PeriodicState) (key : String) : Prop :=
  ∃ job ∈ s.db.jobs.rows, job.uniqueKey = some key

variable {answer : Option String} {ctx : Context}

/-- An insert with a key, under a new id, finds the key held or stores it. -/
theorem Client.insert_key {kind : String} {payload : Json} {opts : InsertOpts}
    {source : InsertSource} {slug : String} {db db' : Db} {key : String}
    (h : Client.insert ctx kind payload opts source slug db = .ok (db', answer))
    (hkey : opts.uniqueKey = key) (hne : key ≠ "") (hactive : opts.uniqueActiveKey = "")
    (hfresh : db.jobs.get? (ctx.newID 0) = none) :
    (answer = none ∧ db' = db ∧ ∃ job ∈ db.jobs.rows, job.uniqueKey = some key) ∨
      ((∃ id, answer = some id) ∧ (∀ job ∈ db.jobs.rows, job.uniqueKey ≠ some key) ∧
        ∃ row, row.uniqueKey = some key ∧ db'.jobs.rows = db.jobs.rows ++ [row]) := by
  obtain ⟨st, -, h⟩ := bind_eq_ok.mp h
  obtain ⟨huniq, hact⟩ := applyDefaults_keys (ctx.registry kind) opts
  generalize applyDefaults (ctx.registry kind) opts = opts' at h huniq hact
  have hrowkey : ((buildRow ctx 0 kind payload opts' st).defaulted (ctx.clock 0)).uniqueKey =
      some key := by
    exact (congrArg keyColumn (huniq.trans hkey)).trans (if_neg hne)
  have hrowactive : ((buildRow ctx 0 kind payload opts' st).defaulted (ctx.clock 0)).uniqueActiveKey
      = none := by
    exact (congrArg keyColumn (hact.trans hactive)).trans (if_pos rfl)
  have hid : ((buildRow ctx 0 kind payload opts' st).defaulted (ctx.clock 0)).id = ctx.newID 0 :=
    rfl
  generalize (buildRow ctx 0 kind payload opts' st).defaulted (ctx.clock 0) = row
    at h hrowkey hrowactive hid
  -- without an active key, and under a new id, the key alone conflicts
  have hconflict : db.jobs.conflicts uniqueClash row = true ↔
      ∃ job ∈ db.jobs.rows, job.uniqueKey = some key := by
    rw [Table.conflicts, any_eq_true]
    refine exists_congr fun job => and_congr_right fun hjob => ?_
    simp_all [Table.get?, uniqueClash]
  have hkind : kind ≠ "" := by
    grind
  rw [if_neg hkind] at h
  by_cases hheld : db.jobs.conflicts uniqueClash row = true
  · rw [if_pos hheld] at h
    cases h
    exact .inl ⟨rfl, rfl, hconflict.mp hheld⟩
  · rw [if_neg hheld] at h
    cases h
    simp_all [Table.insert]

variable {d : Definition} {bucket : Time}

/-- What `enqueueBucket` does, under a new id: the bucket's key was held, and nothing changes; or
it was not, and a job holds it now. -/
theorem enqueueBucket_spec {s s' : PeriodicState}
    (h : enqueueBucket ctx d bucket s = .ok (s', answer))
    (hfresh : s.db.jobs.get? (ctx.newID 0) = none) :
    (s' = s ∧ answer = none ∧ KeyHeld s (bucketKey d.row.slug bucket)) ∨
      ∃ id db, ¬ KeyHeld s (bucketKey d.row.slug bucket) ∧
        s' = { s with db, fired := s.fired ++ [{ definition := d, bucket, jobID := id }] } ∧
        answer = some id ∧
        ∃ row, row.uniqueKey = some (bucketKey d.row.slug bucket) ∧
          db.jobs.rows = s.db.jobs.rows ++ [row] := by
  have hne : bucketKey d.row.slug bucket ≠ "" := by
    simp [bucketKey]
  unfold enqueueBucket at h
  cases hinsert : Client.insert ctx d.row.kind d.row.argsTemplate
      { queue := d.row.queue, uniqueKey := bucketKey d.row.slug bucket, scheduleAt := some bucket }
      .periodic d.row.slug s.db with
  | error e =>
    rw [hinsert] at h
    cases h
  | ok r =>
    obtain ⟨db, answer'⟩ := r
    rw [hinsert] at h
    rcases Client.insert_key hinsert rfl hne rfl hfresh with
      ⟨rfl, rfl, hheld⟩ | ⟨⟨id, rfl⟩, hfree, hrow⟩
    · cases h
      exact .inl ⟨rfl, rfl, hheld⟩
    · cases h
      exact .inr ⟨id, db, fun ⟨job, hjob, hkey⟩ => hfree job hjob hkey, rfl, rfl, hrow⟩

/-! ## The protocol of the ticks -/

/-- A definition's most recent fire times up to `now` have their jobs. -/
def AllFired (env : PeriodicEnv) (now : Time) (backfillCap : ℤ) (d : Definition)
    (s : PeriodicState) : Prop :=
  ∀ t, d.row.FireTime env d.row.nextRunAt t → d.row.nextRunAt ≤ t → t ≤ now → (0 < backfillCap →
      {u | d.row.FireTime env d.row.nextRunAt u ∧ t < u ∧ u ≤ now}.ncard < backfillCap.toNat) →
    KeyHeld s (bucketKey d.row.slug t)

/-- Two jobs that are not of one fire time. -/
def Firing.Apart (f g : Firing) : Prop :=
  ¬ (f.definition.row.slug = g.definition.row.slug ∧ f.bucket = g.bucket)

/-- What the ticks keep: every job that they enqueued is of a fire time of its own and holds its
key, and a tick without errors has fired all that it took. -/
structure FiresOnce (env : PeriodicEnv) (dialect : Dialect) (s : PeriodicState) : Prop where
  held : ∀ f ∈ s.fired, KeyHeld s (bucketKey f.definition.row.slug f.bucket)
  apart : s.fired.Pairwise Firing.Apart
  complete : ∀ r ∈ s.reports, r.errs = [] → ∀ d ∈ r.table, d.row.isActive = true →
    d.row.pausedAt = none → dialect.Holds d.row.nextRunAt → AllFired env r.now r.backfillCap d s

/-- Every minted id is new. -/
def MintsNew (o : PeriodicOp) (input : PeriodicInput) (s : PeriodicState) : Prop :=
  match o, input with
  | .enqueueBucket .., .run ctx => s.db.jobs.get? (ctx.newID 0) = none
  | _, _ => True

/-- Keys that are held stay held. -/
def KeepsKeys (s s' : PeriodicState) : Prop := ∀ key, KeyHeld s key → KeyHeld s' key

/-- No tick takes a key from a job. -/
def tickProtocol (env : PeriodicEnv) (dialect : Dialect) :
    Protocol PeriodicState PeriodicInput ℕ PeriodicOp PeriodicOp.Result where
  machine := periodicMachine env
  Inv := FiresOnce env dialect
  Ok := MintsNew
  Rely _ := KeepsKeys
  Guar _ := KeepsKeys
  rely_refl _ _ _ := id
  rely_trans h₁ h₂ key h := h₂ key (h₁ key h)
  guar_rely _ h := h

section Rules

variable {env : PeriodicEnv} {dialect : Dialect} {label : ℕ} {α : Type} {s s' : PeriodicState}
  {Q : α → PeriodicState → Prop}

variable {d : Definition} {now : Time} {backfillCap : ℤ} {fuel : ℕ}

theorem AllFired.mono (h : AllFired env now backfillCap d s) (hkeys : KeepsKeys s s') :
    AllFired env now backfillCap d s' :=
  fun t ht hstart hnow hcard => hkeys _ (h t ht hstart hnow hcard)

theorem FiresOnce.same (h : FiresOnce env dialect s) (hdb : s'.db = s.db)
    (hfired : s'.fired = s.fired) (hreports : s'.reports = s.reports) : FiresOnce env dialect s' := by
  have hkeys : KeepsKeys s s' := fun key hkey => by
    unfold KeyHeld at hkey ⊢
    rwa [hdb]
  refine ⟨fun f hf => ?_, ?_, fun r hr herrs d hd hactive hpaused hholds => ?_⟩
  · exact hkeys _ (h.held f (hfired ▸ hf))
  · rw [hfired]
    exact h.apart
  · exact (h.complete r (hreports ▸ hr) herrs d hd hactive hpaused hholds).mono hkeys

/-- The rule for `enqueueBucket`: its key is held from there on. -/
theorem ticks_enqueueBucket {next : Except PeriodicError (Option String) → PeriodicProg α}
    (hfail : ∀ e s', KeepsKeys s s' →
      Upholds (tickProtocol env dialect) label (next (.error e)) s' Q)
    (hok : ∀ answer s', KeepsKeys s s' → KeyHeld s' (bucketKey d.row.slug bucket) →
      Upholds (tickProtocol env dialect) label (next (.ok answer)) s' Q) :
    Upholds (tickProtocol env dialect) label (.op (.enqueueBucket d bucket) next) s Q := by
  refine upholds_stmt rfl (fun _ _ => id) (fun e s' hrely _ _ => hfail e s' hrely) ?_
  intro s₁ ctx s₂ answer hrely hinv hok' hact
  rcases enqueueBucket_spec hact hok' with ⟨rfl, rfl, hheld⟩ |
    ⟨id, db, hfree, rfl, rfl, row, hkey, hrows⟩
  · exact ⟨hinv, fun _ => id, hok none _ hrely hheld⟩
  · have hkeys : KeepsKeys s₁
        { s₁ with db, fired := s₁.fired ++ [{ definition := d, bucket, jobID := id }] } := by
      rintro key ⟨job, hjob, hjobkey⟩
      exact ⟨job, by rw [hrows]; exact mem_append_left _ hjob, hjobkey⟩
    have hheld : KeyHeld
        { s₁ with db, fired := s₁.fired ++ [{ definition := d, bucket, jobID := id }] }
        (bucketKey d.row.slug bucket) := ⟨row, by rw [hrows]; simp, hkey⟩
    refine ⟨⟨fun f hf => ?_, ?_, fun r hr herrs d' hd' hactive hpaused hholds => ?_⟩, hkeys,
      hok (some id) _ (fun key h => hkeys key (hrely key h)) hheld⟩
    · rcases mem_append.mp hf with hf | hf
      · exact hkeys _ (hinv.held f hf)
      · simp_all
    · refine pairwise_append.mpr ⟨hinv.apart, pairwise_singleton _ _, ?_⟩
      intro f hf g hg hsame
      obtain rfl := mem_singleton.mp hg
      -- an earlier job of the same fire time would hold the key
      refine hfree ?_
      have := hinv.held f hf
      rwa [hsame.1, hsame.2] at this
    · exact (hinv.complete r hr herrs d' hd' hactive hpaused hholds).mono hkeys

/-- The loop over the buckets ends with all their keys held, or with an error. -/
theorem ticks_enqueueBuckets (d : Definition) (buckets : List Time) (fires : List PeriodicFireEntry)
    (s : PeriodicState) :
    Upholds (tickProtocol env dialect) label (Periodic.enqueueBuckets d buckets fires) s fun r s' =>
      KeepsKeys s s' ∧ (r.2 = none → ∀ b ∈ buckets, KeyHeld s' (bucketKey d.row.slug b)) := by
  induction buckets generalizing fires s with
  | nil =>
    intro s' hrely _
    exact ⟨hrely, fun _ b hb => by simp at hb⟩
  | cons bucket buckets ih =>
    refine ticks_enqueueBucket (fun e s' hkeys => ?_) fun answer s' hkeys hheld => ?_
    · intro s'' hrely _
      exact ⟨fun key h => hrely key (hkeys key h), nofun⟩
    · have hrest : ∀ fires', Upholds (tickProtocol env dialect) label
          (Periodic.enqueueBuckets d buckets fires') s' fun r s'' =>
            KeepsKeys s s'' ∧
              (r.2 = none → ∀ b ∈ bucket :: buckets, KeyHeld s'' (bucketKey d.row.slug b)) := by
        intro fires'
        refine (ih fires' s').mono fun r s'' _ hend => ⟨?_, fun herr b hb => ?_⟩
        · exact fun key h => hend.1 key (hkeys key h)
        · rcases mem_cons.mp hb with rfl | hb
          · exact hend.1 _ hheld
          · exact hend.2 herr b hb
      cases answer with
      | none => exact hrest fires
      | some id => exact hrest _

/-- `fire` without an error leaves every bucket that it took fired. -/
theorem ticks_fire (hdue : d.row.nextRunAt ≤ now) (s : PeriodicState) :
    Upholds (tickProtocol env dialect) label
      (Periodic.fire env backfillCap fuel now d) s fun r s' =>
      KeepsKeys s s' ∧ ∀ n, r = some (n, none) → AllFired env now backfillCap d s' := by
  unfold Periodic.fire
  cases hbuckets : d.row.buckets env now backfillCap fuel with
  | none =>
    intro s' hrely _
    exact ⟨hrely, nofun⟩
  | some taken =>
    cases taken with
    | error e =>
      intro s' hrely _
      exact ⟨hrely, nofun⟩
    | ok r =>
      obtain ⟨buckets, nextRun⟩ := r
      have htaken := PeriodicRow.buckets_spec hdue hbuckets
      refine (ticks_enqueueBuckets d buckets [] s).bind ?_
      rintro ⟨fires, err⟩ s' - ⟨hkeys, hheld⟩
      cases err with
      | some e =>
        intro s'' hrely _
        exact ⟨fun key h => hrely key (hkeys key h), nofun⟩
      | none =>
        have hfired : AllFired env now backfillCap d s' := fun t ht hstart htnow hcard =>
          hheld rfl t (htaken.latest t ht hstart htnow hcard)
        refine upholds_stmt rfl (fun _ _ => id) (fun e s₁ hrely _ _ => ?_) ?_
        · intro s₂ hrely' _
          exact ⟨fun key h => hrely' key (hrely key (hkeys key h)), nofun⟩
        · intro s₁ ctx s₂ a hrely hinv _ hact
          cases hact
          refine ⟨hinv.same rfl rfl rfl, fun _ => id, fun s₃ hrely' _ => ⟨fun key h => ?_, ?_⟩⟩
          · exact hrely' key (hrely key (hkeys key h))
          · exact fun _ _ => hfired.mono fun key h => hrely' key (hrely key h)

/-- The loop of a tick without errors leaves every definition fired. -/
theorem ticks_fireAll {defs : List Definition} (hdue : ∀ d ∈ defs, d.row.nextRunAt ≤ now)
    (s : PeriodicState) :
    Upholds (tickProtocol env dialect) label
      (Periodic.fireAll env backfillCap fuel now defs) s fun r s' =>
      KeepsKeys s s' ∧ ∀ n, r = some (n, []) → ∀ d ∈ defs, AllFired env now backfillCap d s' := by
  induction defs generalizing s with
  | nil =>
    intro s' hrely _
    exact ⟨hrely, fun n _ d hd => by simp at hd⟩
  | cons d defs ih =>
    refine (ticks_fire (hdue d mem_cons_self) s).bind ?_
    rintro (_ | ⟨n, err⟩) s' - ⟨hkeys, hfired⟩
    · intro s'' hrely _
      exact ⟨fun key h => hrely key (hkeys key h), nofun⟩
    · refine (ih (fun d' hd' => hdue d' (mem_cons_of_mem _ hd')) s').bind ?_
      rintro (_ | ⟨enqueued, errs⟩) s'' - ⟨hkeys', hrest⟩
      · intro s₃ hrely _
        exact ⟨fun key h => hrely key (hkeys' key (hkeys key h)), nofun⟩
      · intro s₃ hrely _
        refine ⟨fun key h => hrely key (hkeys' key (hkeys key h)), fun m hr d' hd' => ?_⟩
        obtain ⟨-, hnone⟩ := Prod.mk.inj (Option.some.inj hr)
        obtain ⟨herr, rfl⟩ := append_eq_nil_iff.mp hnone
        obtain rfl : err = none := by
          cases err with
          | none => rfl
          | some e => cases herr
        rcases mem_cons.mp hd' with rfl | hd'
        · exact (hfired n rfl).mono fun key h => hrely key (hkeys' key h)
        · exact (hrest enqueued rfl d' hd').mono hrely

theorem ticks_report {r : TickReport}
    (hr : r.errs = [] → ∀ d ∈ r.table, d.row.isActive = true → d.row.pausedAt = none →
      dialect.Holds d.row.nextRunAt → AllFired env r.now r.backfillCap d s) :
    Upholds (tickProtocol env dialect) label
      (do let _ ← Periodic.stmt (.report r); return ()) s fun _ _ => True := by
  refine upholds_stmt rfl (fun _ _ => id) (fun _ _ _ _ _ _ _ _ => trivial) ?_
  intro s₁ ctx s₂ a hrely hinv _ hact
  cases hact
  refine ⟨⟨hinv.held, hinv.apart, fun r' hr' herrs d hd hactive hpaused hholds => ?_⟩, fun _ => id,
    fun _ _ _ => trivial⟩
  rcases mem_append.mp hr' with hr' | hr'
  · exact hinv.complete r' hr' herrs d hd hactive hpaused hholds
  · obtain rfl := mem_singleton.mp hr'
    exact (hr herrs d hd hactive hpaused hholds).mono hrely

/-- A tick upholds the protocol: it takes every definition that is due, and no other. -/
theorem ticks_tick {reached : Time → Bool} (hreached : ∀ t, (reached t = true → t ≤ now) ∧
      (dialect.Holds t → t ≤ now → reached t = true)) (backfillCap : ℤ) (fuel : ℕ)
    (s : PeriodicState) :
    Upholds (tickProtocol env dialect) label (Periodic.tickBy reached env backfillCap fuel now) s
      fun _ _ => True := by
  unfold Periodic.tickBy
  refine upholds_stmt rfl (fun _ _ => id) (fun e s' _ _ _ => ?_) ?_
  · exact ticks_report fun _ d hd => by simp at hd
  · intro s₁ ctx s₂ defs _ hinv _ hact
    cases hact
    have hdue : ∀ d ∈ s₁.periodics.rows.filter (Definition.due reached), d.row.nextRunAt ≤ now := by
      intro d hd
      have htaken := (Bool.and_eq_true_iff.mp (mem_filter.mp hd).2).2
      exact (hreached _).1 htaken
    refine ⟨hinv, fun _ => id, (ticks_fireAll hdue s₁).bind ?_⟩
    rintro (_ | ⟨enqueued, errs⟩) s' - ⟨-, hfired⟩
    · exact fun _ _ _ => trivial
    · refine ticks_report fun herrs d hd hactive hpaused hholds t ht hstart hnow => ?_
      have hloaded : d ∈ s₁.periodics.rows.filter (Definition.due reached) := by
        refine mem_filter.mpr ⟨hd, ?_⟩
        rw [Definition.due, hactive, hpaused, (hreached _).2 hholds (hstart.trans hnow)]
        rfl
      exact hfired enqueued (by rw [show errs = [] from herrs]) d hloaded t ht hstart hnow

end Rules

/-! ## Whole histories -/

/-- The system before its ticks, on a database of some dialect and in some zone. -/
def tickStart (env : PeriodicEnv) (dialect : Dialect) (zone : Zone) (db : Db)
    (periodics : Table Definition.id) (calls : List TickCall) : PeriodicSys where
  shared := { db, periodics }
  threads := numbered (calls.map fun c =>
    Periodic.tickBy (dialect.reached zone c.now) env c.backfillCap c.fuel c.now)

/-- In a step, every minted id is new. -/
def StepMintsNew (env : PeriodicEnv) (dialect : Dialect) (sys : PeriodicSys) : PeriodicStep → Prop
  | .move thread input => Admitted (tickProtocol env dialect) sys thread input
  | .stop _ => True

/-- The ticks uphold their protocol in every history. -/
theorem ticks_upheld {dialect : Dialect} {zone : Zone} {db : Db} {periodics : Table Definition.id}
    {calls : List TickCall} {history : List PeriodicStep}
    (hzone : dialect = .sqlite → zone.Fixed)
    (hlegal : Legal (PeriodicSys.step env) (StepMintsNew env dialect)
      (tickStart env dialect zone db periodics calls) history) :
    Upheld (tickProtocol env dialect) (fun _ _ => True) (List.range calls.length)
      (run (PeriodicSys.step env) (tickStart env dialect zone db periodics calls) history) := by
  refine hlegal.invariant
    (I := Upheld (tickProtocol env dialect) (fun _ _ => True) (List.range calls.length)) ?_ ?_
  · intro sys e hok h
    cases e with
    | move thread input => exact h.move hok
    | stop thread => exact h.stop thread
  · refine ⟨⟨fun f hf => ?_, List.Pairwise.nil, fun r hr => ?_⟩, nodup_range, ?_, fun t ht => ?_⟩
    · cases hf
    · cases hr
    · rw [tickStart, numbered_labels, length_map]
    · obtain ⟨⟨p, i⟩, hp, rfl⟩ := mem_map.mp ht
      obtain ⟨c, hc, rfl⟩ := mem_map.mp (fst_mem_of_mem_zipIdx hp)
      exact ticks_tick (Dialect.reached_iff hzone) c.backfillCap c.fuel _

/-- In every history of ticks, of any number of Schedulers, with any clock readings, on PostgreSQL
and, within one offset from UTC, on SQLite, where any tick may be cut off at any statement and any
statement may fail: no fire time of a definition is enqueued twice; once a tick has ended without an
error, of every definition that was active and not paused when it loaded, every fire time from
`next_run_at` through now, among the most recent up to its cap, has its job; and the jobs of
different fire times are told apart by their keys. -/
theorem fires_once_and_none_lost (env : PeriodicEnv) (dialect : Dialect) (zone : Zone) (db : Db)
    (periodics : Table Definition.id) (calls : List TickCall) (history : List PeriodicStep)
    (hzone : dialect = .sqlite → zone.Fixed)
    (hmints : Legal (PeriodicSys.step env) (StepMintsNew env dialect)
      (tickStart env dialect zone db periodics calls) history) :
    let after := (run (PeriodicSys.step env) (tickStart env dialect zone db periodics calls)
      history).shared
    after.fired.Pairwise (fun f g =>
        ¬ (f.definition.row.slug = g.definition.row.slug ∧ f.bucket = g.bucket)) ∧
      (∀ r ∈ after.reports, r.errs = [] → ∀ d ∈ r.table, d.row.isActive = true →
        d.row.pausedAt = none → dialect.Holds d.row.nextRunAt →
        ∀ t, d.row.FireTime env d.row.nextRunAt t → d.row.nextRunAt ≤ t → t ≤ r.now →
        (0 < r.backfillCap →
          {u | d.row.FireTime env d.row.nextRunAt u ∧ t < u ∧ u ≤ r.now}.ncard
            < r.backfillCap.toNat) →
        ∃ job ∈ after.db.jobs.rows, job.uniqueKey = some (bucketKey d.row.slug t)) ∧
      ∀ (row : PeriodicRow) (seed t u : Time), row.FireTime env seed t → row.FireTime env seed u →
        bucketKey row.slug t = bucketKey row.slug u → t = u := by
  have hinv := (ticks_upheld hzone hmints).inv
  exact ⟨hinv.apart, hinv.complete, fun row seed t u => bucketKey_injective⟩

/-- One tick at the first minute, statement by statement. -/
def minutelyTick : List PeriodicStep :=
  [.move 0 (.run {}), .move 0 (.run { newID := fun _ => "j1" }), .move 0 (.run {}),
    .move 0 (.run {})]

/-- The system before a tick on SQLite. -/
def minutelySys (zone : Zone) (now : Time) : PeriodicSys :=
  tickStart { parseCron := fun _ => none } .sqlite zone {} minutelyTable [⟨10, 0, now⟩]

/-- A tick at the first minute of a definition that is due then leaves its job. -/
theorem minutely_fired :
    ∃ job ∈ (run (PeriodicSys.step { parseCron := fun _ => none })
        (minutelySys (fun _ => 0) (60 * second)) minutelyTick).shared.db.jobs.rows,
      job.uniqueKey = some (bucketKey "report" (60 * second)) := by
  have hmints : Legal (PeriodicSys.step { parseCron := fun _ => none })
      (StepMintsNew { parseCron := fun _ => none } .sqlite) (minutelySys (fun _ => 0) (60 * second))
      minutelyTick :=
    ⟨admitted_of_get rfl trivial, admitted_of_get rfl rfl, admitted_of_get rfl trivial,
      admitted_of_get rfl trivial, trivial⟩
  obtain ⟨-, hfired, -⟩ := fires_once_and_none_lost { parseCron := fun _ => none } .sqlite
    (fun _ => 0) {} minutelyTable [⟨10, 0, 60 * second⟩] minutelyTick (fun _ _ => rfl) hmints
  refine hfired ⟨60 * second, 10, [minutely], 1, []⟩ (by exact mem_singleton.mpr rfl) rfl
    minutely mem_cons_self rfl rfl trivial (60 * second) ?_ le_rfl le_rfl fun _ => ?_
  · exact (minutely.row.fireTime_interval _ (by decide) _ _).mpr ⟨0, by simp [minutely]⟩
  · grind [Set.ncard_empty]

/-- On SQLite, the clocks set back a minute after the definition is due: ten minutes on, the text of
its `next_run_at` still sorts after that of the present, and a tick ends without an error and
without the job. -/
theorem fire_missed_in_autumn :
    let after := (run (PeriodicSys.step { parseCron := fun _ => none })
      (minutelySys (autumn (120 * second)) (720 * second))
        [.move 0 (.run {}), .move 0 (.run {})]).shared
    after.reports = [⟨720 * second, 10, [minutely], 0, []⟩] ∧
      minutely.row.nextRunAt ≤ 720 * second ∧ after.db.jobs.rows = [] :=
  ⟨rfl, by decide, rfl⟩

end Flywheel
