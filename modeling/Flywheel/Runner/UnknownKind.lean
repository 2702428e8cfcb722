import Flywheel.Lifecycle

/-!
# Jobs of a kind that no runner registers

A runner that claims a job of a kind it does not register defers it while it is younger than the
grace, and discards it afterwards. The delay is a rung of a doubling ladder, cut at the end of the
window, so that the deferrals of a job end there: a deferral that the window does not cut takes a
second at least, and one that it cuts is the last.
-/

namespace Flywheel

open Relational Transition List Option Table

/-- `unknownKindDeferralBase` -/
def unknownKindDeferralBase : Duration := second

/-- `maxUnknownKindDeferral` -/
def maxUnknownKindDeferral : Duration := minute

/-- `unknownKindDeferral`: the delay of a deferral, or none for a discard. -/
def unknownKindDeferral (ctx : Context) (createdAt now : Time) (attempt : ℤ) (grace : Duration) :
    Option Duration :=
  if grace ≤ 0 ∨ createdAt = zeroTime then none
  else
    let age := max (now - createdAt) 0
    let remaining := grace - age
    if remaining ≤ 0 then none
    else
      some (min (ctx.exponential unknownKindDeferralBase maxUnknownKindDeferral attempt) remaining)

/-- The text of `ErrUnknownKind`. -/
def errUnknownKind : String := "jobs: unknown job kind"

/-- `finalizeUnknownKind`: a snooze that carries the error unclassified, or a permanent failure. -/
def finalizeUnknownKind (opts : DriverOpts) (ctx : Context) (grace : Duration) (raw : RawJob)
    (runID : String) (finishedAt : Time) (db : Db) : Except TxError (Commit FinalizeOutcome) :=
  match unknownKindDeferral ctx raw.createdAt finishedAt raw.attempt grace with
  | some delay =>
    finalize opts ctx raw runID { snooze := some delay }
      (some { message := errUnknownKind }) finishedAt db
  | none =>
    finalize opts ctx raw runID {}
      (some { message := errUnknownKind, errorClass := some .permanent }) finishedAt db

/-- `backoff.Exponential`, as its documentation has it. -/
def backoffExponential (base maxDelay : Duration) (attempt : ℤ) : Duration :=
  min (base * 2 ^ (attempt - 1).toNat) maxDelay

/-! ## The claims of one job -/

/-- What a runner that does not register the kind decided on one claim, and when. -/
structure UnknownClaim where
  now : Time
  delay : Option Duration

/-- One claim of the job by such a runner: a Dequeue hands it out, and the runner settles it.
Between the two, nothing writes the job's row. -/
inductive Settles (grace : Duration) (id : String) (u : UnknownClaim) (db : Db) : Db → Prop where
  | intro (dialect : Dialect) (scan : Scan) (claim : Context) (req : ClaimRequest)
      (raws : List RawJob)
      (raw : RawJob) (opts : DriverOpts) (ctx : Context) (runID : String) (mid : Db)
      (c : Commit FinalizeOutcome) (out : (dequeue dialect scan claim req db).out = .ok raws)
      (mem : raw ∈ raws) (job : raw.id = id)
      (quiet : mid.jobs.get? id = (dequeue dialect scan claim req db).db.jobs.get? id)
      (ladder : ctx.exponential = backoffExponential)
      (settled : finalizeUnknownKind opts ctx grace raw runID u.now mid = .ok c)
      (delay : u.delay = unknownKindDeferral ctx raw.createdAt u.now raw.attempt grace) :
      Settles grace id u db c.db

/-- The claims of a job of such a kind, from its row on: no clock reading is before the creation or
before the `scheduled_at` that the claim before set. -/
inductive UnknownRun (grace : Duration) (id : String) (db₀ : Db) : List UnknownClaim → Db →
    Prop where
  | nil : UnknownRun grace id db₀ [] db₀
  | claim (us : List UnknownClaim) (u : UnknownClaim) (db₁ db db' : Db) (row : JobRow)
      (run : UnknownRun grace id db₀ us db₁) (quiet : db.jobs.get? id = db₁.jobs.get? id)
      (stored : db.jobs.get? id = some row) (created : row.createdAt ≤ u.now)
      (due : us ≠ [] → row.scheduledAt ≤ u.now) (settles : Settles grace id u db db') :
      UnknownRun grace id db₀ (us ++ [u]) db'

variable {grace : Duration} {id : String} {u : UnknownClaim} {us : List UnknownClaim}
  {db₀ db db' : Db} {row row' : JobRow}

variable {raws : List RawJob} {raw : RawJob} {ctx : Context}

theorem mem_rawsFromRows {token : String} {rows : List JobRow}
    (h : rawsFromRows token rows = .ok raws) (hraw : raw ∈ raws) :
    ∃ r ∈ rows, rawFromRow r (r.attempt + 1) token = .ok raw := by
  induction rows generalizing raws with
  | nil =>
    cases h
    cases hraw
  | cons r rows ih =>
    obtain ⟨first, hfirst, h⟩ := bind_eq_ok.mp h
    obtain ⟨rest, hrest, h⟩ := bind_eq_ok.mp h
    cases h
    rcases mem_cons.mp hraw with rfl | hraw
    · exact ⟨r, mem_cons_self, hfirst⟩
    · obtain ⟨s, hs, hraw⟩ := ih hrest hraw
      exact ⟨s, mem_cons_of_mem r hs, hraw⟩

theorem dequeue_row {dialect : Dialect} {scan : Scan} {req : ClaimRequest}
    (hout : (dequeue dialect scan ctx req db).out = .ok raws) (hraw : raw ∈ raws) :
    ∃ r ∈ claimedRows dialect scan ctx req db,
      rawFromRow r (r.attempt + 1) (ctx.newID 0) = .ok raw := by
  unfold dequeue at hout
  unfold claimedRows
  split_ifs at hout ⊢ with hempty
  · cases hout
    cases hraw
  · cases hraws : rawsFromRows (ctx.newID 0) (req.select dialect scan (ctx.clock 0) db) with
    | error e => cases dialect <;> simp_all
    | ok raws' =>
      obtain rfl : raws' = raws := by cases dialect <;> simp_all
      obtain ⟨r, hr, hraw⟩ := mem_rawsFromRows hraws hraw
      exact ⟨r, by cases dialect <;> simpa [hraws] using hr, hraw⟩

/-- What a claim leaves of the job: scheduled at the end of the delay, or discarded. -/
theorem Settles.leaves (h : Settles grace id u db db') (hrow : db.jobs.get? id = some row) :
    ∃ ctx row', ctx.exponential = backoffExponential ∧
      u.delay = unknownKindDeferral ctx row.createdAt u.now (row.attempt + 1) grace ∧
      claimableStates.contains row.state = true ∧ db'.jobs.get? id = some row' ∧
      row'.createdAt = row.createdAt ∧
      (∀ d, u.delay = some d → row'.state = .scheduled ∧ row'.scheduledAt = u.now + d) ∧
      (u.delay = none → row'.state = .discarded) := by
  obtain ⟨dialect, scan, claim, req, raws, raw, opts, ctx, runID, mid, c, hout, hmem, rfl,
    hquiet, hladder, hsettled, hdelay⟩ := h
  obtain ⟨r, hr, hraw⟩ := dequeue_row hout hmem
  obtain ⟨hstored, hclaimable⟩ := mem_claimedRows hr
  have hfields : raw.id = r.id ∧ raw.createdAt = r.createdAt ∧ raw.attempt = r.attempt + 1 ∧
      raw.leaseToken = claim.newID 0 := by
    unfold rawFromRow at hraw
    cases htags : decodeTags r.tags with
    | none => simp [htags] at hraw
    | some tags =>
      rw [htags] at hraw
      cases hraw
      exact ⟨rfl, rfl, rfl, rfl⟩
  obtain ⟨hid, hcreated, hattempt, htoken⟩ := hfields
  obtain rfl : r = row := by
    rw [hid, get?_key hstored] at hrow
    exact some_inj.mp hrow
  -- the row that the runner holds
  have hheld : mid.jobs.get? raw.id =
      some ((claimUpdate (claim.clock 0) (claim.clock 0 + req.lease) (claim.newID 0)).apply r) := by
    rw [hquiet, (dequeue_spec dialect scan claim req db).2.1, claimRows, get?_update, hrow,
      map_some, if_pos ((contains_key_iff (fun s hs => (mem_claimedRows hs).1) hstored).mpr hr)]
  have hholds : holdsClaim raw.id raw.leaseToken
      ((claimUpdate (claim.clock 0) (claim.clock 0 + req.lease) (claim.newID 0)).apply r)
        = true := by
    simp_all [holdsClaim, isJob, claimUpdate, ClaimRequest.claimable, JobRow.visible]
  have hafter : ∀ result workErr, finalize opts ctx raw runID result workErr u.now mid = .ok c →
      ∃ row', c.db.jobs.get? raw.id = some row' ∧ row'.createdAt = r.createdAt ∧
        row'.state = (planFinalize ctx raw result workErr u.now).jobState ∧
        row'.scheduledAt = (planFinalize ctx raw result workErr u.now).scheduledAt.getD
          r.scheduledAt := by
    intro result workErr hfinal
    obtain ⟨barrier, hup⟩ := finalize_get? hfinal
    have hup := hup raw.id
    rw [hheld, map_some, if_pos hholds] at hup
    obtain ⟨row', hnew, hcleared⟩ := hup.of_some
    refine ⟨row', hnew, ?_, ?_, ?_⟩ <;> rw [hcleared] <;> rfl
  rw [hcreated, hattempt] at hdelay
  unfold finalizeUnknownKind at hsettled
  rw [hcreated, hattempt, ← hdelay] at hsettled
  cases hu : u.delay with
  | some d =>
    rw [hu] at hsettled
    obtain ⟨row', hnew, hsame, hstate, hdue⟩ := hafter _ _ hsettled
    refine ⟨ctx, row', hladder, hu.symm.trans hdelay, ClaimRequest.claimable_state hclaimable,
      hnew, hsame, fun e he => ?_, by simp⟩
    cases he
    exact ⟨hstate, hdue⟩
  | none =>
    rw [hu] at hsettled
    obtain ⟨row', hnew, hsame, hstate, -⟩ := hafter _ _ hsettled
    exact ⟨ctx, row', hladder, hu.symm.trans hdelay, ClaimRequest.claimable_state hclaimable,
      hnew, hsame, fun e he => (by cases he), fun _ => hstate⟩

/-! ## The window -/

/-- **The decision**: within the window the job is deferred, for a positive time that ends within
it. A delay that the window does not cut is a second at least. -/
theorem unknownKindDeferral_spec {grace created now base : ℤ} (hgrace : 0 < grace)
    (hbase : base = second) (hset : created ≠ zeroTime) (hcreated : created ≤ now)
    (hladder : ctx.exponential = backoffExponential) (attempt : ℤ) :
    (created + grace ≤ now ∧ unknownKindDeferral ctx created now attempt grace = none) ∨
    now < created + grace ∧ ∃ d : ℤ, unknownKindDeferral ctx created now attempt grace = some d ∧
      0 < d ∧ now + d ≤ created + grace ∧ (base ≤ d ∨ now + d = created + grace) := by
  obtain ⟨rung, hexp⟩ : ∃ d : ℤ,
      ctx.exponential unknownKindDeferralBase maxUnknownKindDeferral attempt = d := ⟨_, rfl⟩
  have hrung : base ≤ rung := by
    have hpow : (1 : ℤ) ≤ 2 ^ (attempt - 1).toNat := one_le_pow₀ (by decide)
    rw [← hexp, hladder, hbase]
    exact le_min (le_mul_of_one_le_right (by decide) hpow) (by decide)
  have hpos : 0 < base := hbase ▸ (by decide)
  unfold unknownKindDeferral
  rw [if_neg (fun h => h.elim (not_le.mpr hgrace) hset), hexp]
  rw [max_eq_left (sub_nonneg.mpr hcreated)]
  by_cases hover : grace - (now - created) ≤ 0
  · rw [if_pos hover]
    exact .inl ⟨by omega, rfl⟩
  · rw [if_neg hover]
    obtain ⟨d, hd⟩ : ∃ d : ℤ, min rung (grace - (now - created)) = d := ⟨_, rfl⟩
    refine .inr ⟨by omega, d, congrArg some hd, ?_⟩
    omega

/-- The delays of the deferrals, in order. -/
def delays (us : List UnknownClaim) : List Duration := us.filterMap UnknownClaim.delay

/-- The claims of a job so far, created at `created`. While it waits, all of them deferred it, and
their delays fit between the creation and `edge`: the creation itself, or the `scheduled_at` that
the last one set. Each of them took `base`, a second, unless the window cut the last. -/
structure Deferring (grace base created : ℤ) (us : List UnknownClaim) (row : JobRow) : Prop where
  createdAt : row.createdAt = created
  decided : ∀ u ∈ us, (u.delay = none ↔ created + grace ≤ u.now) ∧
    ∀ d, u.delay = some d → 0 < d ∧ d ≤ created + grace - u.now
  sum : (delays us).dropLast.sum < grace
  finite : us.length * base < grace + 2 * base
  waits : row.state ≠ .discarded → ∃ edge total : ℤ, (delays us).sum = total ∧
    (us = [] → edge = created) ∧ (us ≠ [] → row.scheduledAt = edge) ∧ created + total ≤ edge ∧
    edge ≤ created + grace ∧
    (us.length * base ≤ total ∨ edge = created + grace ∧ us.length * base < total + base)

section Window

variable {grace base created : ℤ} (hgrace : 0 < grace) (hbase : base = second)
  (hset : created ≠ zeroTime)
include hgrace hbase hset

/-- **One claim** defers the job further within the window, or discards it. -/
theorem Deferring.claim (h : Deferring grace base created us row) (hcreated : created ≤ u.now)
    (hdue : us ≠ [] → row.scheduledAt ≤ u.now) (hrow : db.jobs.get? id = some row)
    (hsettles : Settles grace id u db db') :
    ∃ row', db'.jobs.get? id = some row' ∧ Deferring grace base created (us ++ [u]) row' := by
  obtain ⟨ctx, row', hladder, hdelay, hclaimable, hnew, hsame, hdeferred, hdiscarded⟩ :=
    hsettles.leaves hrow
  rw [h.createdAt] at hdelay
  have hlive : row.state ≠ .discarded := fun hstate => by
    rw [hstate] at hclaimable
    cases hclaimable
  obtain ⟨edge, total, htotal, hfirst, hlater, hsum, hwithin, hrungs⟩ := h.waits hlive
  have hedge : edge ≤ u.now := by
    by_cases hnil : us = []
    · exact (hfirst hnil).trans_le hcreated
    · exact (hlater hnil).symm.trans_le (hdue hnil)
  obtain ⟨now, hnow⟩ : ∃ t : ℤ, u.now = t := ⟨_, rfl⟩
  rw [hnow] at hdelay hdeferred hcreated hedge
  have hpos : 0 < base := hbase ▸ (by decide)
  have hlength : (((us ++ [u]).length : ℕ) : ℤ) * base = us.length * base + base := by
    rw [length_append, length_singleton, Nat.cast_add, Nat.cast_one, add_mul, one_mul]
  refine ⟨row', hnew, ?_⟩
  rcases unknownKindDeferral_spec hgrace hbase hset hcreated hladder (row.attempt + 1) with
    ⟨hover, hnone⟩ | ⟨hopen, d, hsome, hd, hfits, hrung⟩
  · have hu : u.delay = none := hdelay.trans hnone
    have hdelays : delays (us ++ [u]) = delays us := by simp [delays, hu]
    refine ⟨hsame.trans h.createdAt, forall_mem_append.mpr ⟨h.decided,
      forall_mem_singleton.mpr ?_⟩, hdelays ▸ h.sum, ?_, fun hstate =>
        absurd (hdiscarded hu) hstate⟩
    · simp_all
    · -- the deferrals before took a second each, apart from one that the window cut
      omega
  · have hu : u.delay = some d := hdelay.trans hsome
    have hdelays : delays (us ++ [u]) = delays us ++ [d] := by simp [delays, hu]
    have hbelow : total < grace := by omega
    refine ⟨hsame.trans h.createdAt, forall_mem_append.mpr ⟨h.decided,
      forall_mem_singleton.mpr ?_⟩, ?_, ?_, fun _ =>
        ⟨now + d, total + d, ?_, ?_, ?_, ?_, hfits, ?_⟩⟩
    · rw [hu, hnow]
      refine ⟨iff_of_false (by simp) (not_le.mpr hopen), fun e he => ?_⟩
      cases he
      exact ⟨hd, le_sub_iff_add_le'.mpr hfits⟩
    · rw [hdelays, dropLast_concat, htotal]
      exact hbelow
    · omega
    · rw [hdelays, sum_append, sum_singleton, htotal]
    · simp
    · exact fun _ => (hdeferred d hu).2
    · omega
    · omega

/-- **A whole run** keeps to the window. -/
theorem UnknownRun.deferring (h : UnknownRun grace id db₀ us db)
    (hrow : db₀.jobs.get? id = some row) (hcreated : row.createdAt = created) :
    ∃ row', db.jobs.get? id = some row' ∧ Deferring grace base created us row' := by
  induction h with
  | nil =>
    have hpos : 0 < base := hbase ▸ (by decide)
    refine ⟨row, hrow, hcreated, by simp, hgrace, by simp; omega, fun _ => ?_⟩
    exact ⟨created, 0, rfl, fun _ => rfl, absurd rfl, by omega, by omega, .inl (by simp)⟩
  | claim us u db₁ db db' row' run hquiet hstored hfirst hdue hsettles ih =>
    obtain ⟨row'', hrow'', hdeferring⟩ := ih
    obtain rfl : row' = row'' := some_inj.mp (hstored.symm.trans (hquiet.trans hrow''))
    exact hdeferring.claim hgrace hbase hset (hdeferring.createdAt ▸ hfirst) hdue hstored hsettles

end Window

/-- **The deferrals of an unregistered kind are bounded and end on time.** Of the claims of one job:
a claim before the end of the window defers the job, by a positive delay that ends within the
window, and any other discards it. The delays of all deferrals but the last sum to less than the
grace, and there are fewer than two claims more than the seconds of the grace. -/
theorem unknown_kind_deferrals_end (hgrace : 0 < grace) (h : UnknownRun grace id db₀ us db)
    (hrow : db₀.jobs.get? id = some row) (hset : row.createdAt ≠ zeroTime) :
    (∀ u ∈ us, (u.delay = none ↔ row.createdAt + grace ≤ u.now) ∧
      ∀ d, u.delay = some d → 0 < d ∧ d ≤ row.createdAt + grace - u.now) ∧
    (∀ us' u, us = us' ++ [u] → ∃ row', db.jobs.get? id = some row' ∧
      (u.delay = none → row'.state = .discarded) ∧
      ∀ d, u.delay = some d → row'.state = .scheduled ∧ row'.scheduledAt = u.now + d) ∧
    (delays us).dropLast.sum < grace ∧ us.length * second < grace + 2 * second := by
  obtain ⟨row', hrow', hdeferring⟩ := h.deferring hgrace rfl hset hrow rfl
  refine ⟨hdeferring.decided, fun us' u hus => ?_, hdeferring.sum, hdeferring.finite⟩
  cases h with
  | nil => simp at hus
  | claim us u' db₁ db db' row'' run hquiet hstored hfirst hdue hsettles =>
    obtain ⟨-, hu⟩ := append_inj' hus rfl
    cases hu
    obtain ⟨-, row', -, -, -, hnew, -, hdeferred, hdiscarded⟩ := hsettles.leaves hstored
    exact ⟨row', hnew, hdiscarded, hdeferred⟩

/-- A waiting job, and the stub of its attempts. -/
def unregisteredJob : Db :=
  { jobs := Table.empty.insert uniqueClash { (default : JobRow) with id := "j", kind := "new" }
    runs := Table.empty.insert runClash { (default : JobRunRow) with id := "run" } }

/-- A claim of the waiting job. -/
def unregisteredClaim (t : Time) (db : Db) : Commit (Except TxError (List RawJob)) :=
  dequeue .postgres {} { clock := fun _ => t } { queues := [""], limit := 1, lease := minute } db

/-- A run goes on with a claim of the job by a runner whose grace is two seconds. -/
theorem UnknownRun.unregistered {t : Time} {c : Commit FinalizeOutcome}
    (run : UnknownRun (2 * second) "j" db₀ us db) (hrow : db.jobs.get? "j" = some row)
    (hcreated : row.createdAt ≤ t) (hdue : us ≠ [] → row.scheduledAt ≤ t)
    (hout : (unregisteredClaim t db).out = .ok [raw]) (hid : raw.id = "j")
    (hsettled : finalizeUnknownKind {} { exponential := backoffExponential } (2 *
      second) raw "run" t (unregisteredClaim t db).db = .ok c) :
    UnknownRun (2 * second) "j" db₀ (us ++ [⟨t, unknownKindDeferral
      { exponential := backoffExponential } raw.createdAt t raw.attempt (2 * second)⟩]) c.db :=
  .claim us _ db db _ row run rfl hrow hcreated hdue
    (.intro .postgres _ _ _ _ raw _ _ _ _ c hout mem_cons_self hid rfl rfl hsettled rfl)

/-- A grace of two seconds: the first deferral takes a second, the second, which the ladder would
make two seconds, is cut at the window's edge, and the claim there discards the job. -/
theorem deferrals_end_at_the_edge :
    ∃ us db, UnknownRun (2 * second) "j" unregisteredJob us db ∧
      us.map (fun u => (u.now, u.delay)) =
        [(0, some second), (second, some second), (2 * second, none)] ∧
      (delays us).dropLast.sum < 2 * second :=
  have hfirst := UnknownRun.unregistered .nil rfl (t := 0) (by decide) (by decide) rfl rfl rfl
  have hsecond := hfirst.unregistered rfl (t := second) (by decide) (by decide) rfl rfl rfl
  have hthird := hsecond.unregistered rfl (t := 2 * second) (by decide) (by decide) rfl rfl rfl
  ⟨_, _, hthird, by decide, (unknown_kind_deferrals_end (by decide) hthird rfl (by decide)).2.2.1⟩

end Flywheel
