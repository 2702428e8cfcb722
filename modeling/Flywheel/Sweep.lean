import Flywheel.Driver.Dialects

/-!
# The sweep on the two dialects

A complete sweep on PostgreSQL and one on SQLite do the same where they compare leases alike: each
dialect's batch is `sweepBatch` up to the order of the finish log, that order does not reach the
rows that a later batch reads, and every batch but the last takes a lease that has expired, so that
the loop ends. Which of the leases that expire together come first, and the identifiers that a batch
mints, are the two choices that the dialects leave open: they are given to both.

SQLite compares the texts of the leases. Across a change of the zone's offset it sweeps a lease that
has not expired, or leaves one that has (`sweeps_differ_in_autumn`).
-/

namespace Flywheel

open Relational Transition List Table

/-! ## The loop -/

/-- What a sweep leaves: the database, its report, the barrier checks that it ran, and the error
that ended it. -/
structure SweepResult where
  db : Db
  swept : List ReclaimedJob := []
  fires : List FireCall := []
  error : Option TxError := none

/-- `sweep`: batches until one is short. Batch `k` takes ties in the order `ranks k` and runs in the
context `ctxs k`; no other transaction holds a row. The number bounds the batches that are tried. -/
def sweepFrom (dialect : Dialect) (zone : Zone) (ranks : ℕ → String → ℕ) (ctxs : ℕ → Context)
    (opts : DriverOpts) (now : Time) : ℕ → ℕ → Db → Option SweepResult
  | 0, _, _ => none
  | fuel + 1, k, db =>
    match sweepBatchOn dialect { rank := ranks k, zone } opts (ctxs k) now opts.sweepLimit db with
    | .error e => some { db, error := some e }
    | .ok c =>
      if c.out.length < opts.sweepLimit then some { db := c.db, swept := c.out, fires := c.fires }
      else (sweepFrom dialect zone ranks ctxs opts now fuel (k + 1) c.db).map fun rest =>
        { rest with swept := c.out ++ rest.swept, fires := c.fires ++ rest.fires }

/-- The leases that have lapsed, by a comparison with the present. -/
def Db.expiredLeases (db : Db) (lapsed : Time → Bool) : ℕ := db.jobs.rows.countP
    (JobRow.expired lapsed)

/-- A complete sweep: every batch but the last takes a lease that has expired. -/
def sweep (dialect : Dialect) (zone : Zone) (ranks : ℕ → String → ℕ) (ctxs : ℕ → Context)
    (opts : DriverOpts) (now : Time) (db : Db) : Option SweepResult :=
  sweepFrom dialect zone ranks ctxs opts now (db.expiredLeases (dialect.before zone now) + 1) 0 db

/-! ## Barrier checks -/

/-- A barrier check without the databases around it. -/
structure FireMark where
  parentID : String
  spawnedBy : String
  mintedID : String
  fired : Bool

/-- What a barrier check did. -/
def FireCall.mark (c : FireCall) : FireMark :=
  { parentID := c.parentID, spawnedBy := c.spawnedBy, mintedID := c.mintedID, fired := c.fired }

variable {a b db : Db}

theorem conflictInsertChunk_same (now : Time) (rows : List JobRow) (h : a.SameRows b) :
    Alike (fun x y : Db × List String => x.1.SameRows y.1) (conflictInsertChunk now rows a)
      (conflictInsertChunk now rows b) := by
  obtain ⟨hperm, hb⟩ := h
  generalize b.finishes = finishes at hperm hb
  subst hb
  unfold conflictInsertChunk
  by_cases hnil : rows = []
  · rw [if_pos hnil, if_pos hnil]
    exact .ok ⟨hperm, rfl⟩
  · rw [if_neg hnil, if_neg hnil]
    unfold insertSkippingConflicts
    by_cases hkind : (rows.any fun r => decide (r.kind = "")) = true
    · rw [if_pos hkind, if_pos hkind]
      exact .error _
    · rw [if_neg hkind, if_neg hkind]
      exact .ok ⟨hperm, rfl⟩

/-- A barrier check does not read the finish log. -/
theorem fireBarrierIfComplete_same (ctx : Context) (k : ℕ) (parentID spawnedBy : String)
    (h : a.SameRows b) :
    Alike (fun x y : Db × Bool => x.1.SameRows y.1 ∧ x.2 = y.2)
      (fireBarrierIfComplete ctx k parentID spawnedBy a)
      (fireBarrierIfComplete ctx k parentID spawnedBy b) := by
  obtain ⟨hperm, hb⟩ := h
  generalize b.finishes = finishes at hperm hb
  subst hb
  have hjob : ({ a with finishes } : Db).job? parentID = a.job? parentID := rfl
  have hcount : ({ a with finishes } : Db).hasPendingChild parentID = a.hasPendingChild parentID :=
    rfl
  unfold fireBarrierIfComplete
  rw [hjob, hcount]
  cases a.job? parentID with
  | none => exact .ok ⟨⟨hperm, rfl⟩, rfl⟩
  | some parent =>
    dsimp only
    cases parent.barrierKind with
    | none => exact .ok ⟨⟨hperm, rfl⟩, rfl⟩
    | some kind =>
      dsimp only
      by_cases hpending : a.hasPendingChild parentID = true
      · rw [if_pos hpending, if_pos hpending]
        exact .ok ⟨⟨hperm, rfl⟩, rfl⟩
      · rw [if_neg hpending, if_neg hpending]
        refine (Alike.refl _).bind fun spec _ hspec => hspec ▸ ?_
        refine (Alike.refl _).bind fun row _ hrow => hrow ▸ ?_
        refine (conflictInsertChunk_same (ctx.clock k) [row] ⟨hperm, rfl⟩).bind ?_
        rintro ⟨x, _⟩ ⟨y, _⟩ hxy
        refine .ok ⟨⟨hxy.finishes, ?_⟩, rfl⟩
        rw [hxy.rest]

/-- A round of barrier checks does not read the finish log. -/
theorem fireEach_same (ctx : Context) (k : ℕ) (parents : List (String × String))
    (h : a.SameRows b) :
    Alike (fun x y : Db × List FireCall =>
        x.1.SameRows y.1 ∧ x.2.map FireCall.mark = y.2.map FireCall.mark)
      (fireEach ctx k parents a) (fireEach ctx k parents b) := by
  induction parents generalizing k a b with
  | nil => exact .ok ⟨h, rfl⟩
  | cons p parents ih =>
    have hone : Alike (fun x y : Db × FireCall => x.1.SameRows y.1 ∧ x.2.mark = y.2.mark)
        (fireOne ctx k p.1 p.2 a) (fireOne ctx k p.1 p.2 b) := by
      refine (fireBarrierIfComplete_same ctx k p.1 p.2 h).bind ?_
      rintro ⟨x, fired⟩ ⟨y, _⟩ ⟨hxy, rfl⟩
      exact .ok ⟨hxy, rfl⟩
    refine hone.bind ?_
    rintro ⟨x, call⟩ ⟨y, call'⟩ ⟨hxy, hcall⟩
    refine (ih (k + 1) hxy).bind ?_
    rintro ⟨x', calls⟩ ⟨y', calls'⟩ ⟨hxy', hcalls⟩
    exact .ok ⟨hxy', congrArg₂ List.cons hcall hcalls⟩

/-! ## A batch -/

/-- The checks of a batch do not read which run a report names. -/
theorem discardedParents_congr {α : Type} {f g : α → ReclaimedJob} (xs : List α)
    (h : ∀ x, (f x).id = (g x).id ∧ (f x).state = (g x).state ∧
      (f x).parentJobID = (g x).parentJobID) :
    discardedParents (xs.map f) = discardedParents (xs.map g) := by
  have hfilter : ∀ k : α → ReclaimedJob, (xs.map k).filter
    (fun j => decide (j.state = .discarded)) =
      (xs.filter fun x => decide ((k x).state = .discarded)).map k := fun k => filter_map ..
  have hsame : (xs.filter fun x => decide ((f x).state = .discarded)) =
      xs.filter fun x => decide ((g x).state = .discarded) :=
    filter_congr fun x _ => by rw [(h x).2.1]
  unfold discardedParents
  rw [hfilter f, hfilter g, hsame]
  generalize xs.filter (fun x => decide ((g x).state = .discarded)) = ys
  have hparents : sortedParents ReclaimedJob.parentJobID (ys.map f) =
      sortedParents ReclaimedJob.parentJobID (ys.map g) := by
    unfold sortedParents
    simp_all
  have hlast : ∀ parentID,
    (lastWith (fun j => decide (j.parentJobID = some parentID)) (ys.map f)).map
      ReclaimedJob.id = (lastWith (fun j => decide (j.parentJobID = some parentID)) (ys.map g)).map
        ReclaimedJob.id := by
    intro parentID
    unfold lastWith
    rw [← map_reverse, ← map_reverse, find?_map, find?_map, Option.map_map, Option.map_map]
    have hpick : (fun j : ReclaimedJob => decide (j.parentJobID = some parentID)) ∘ f =
        (fun j : ReclaimedJob => decide (j.parentJobID = some parentID)) ∘ g := by
      grind
    rw [hpick]
    congr 1
    funext x
    exact (h x).1
  simp_all

/-- A dialect's batch is the batch that the other proofs are about, and reports its rows. -/
theorem sweepBatchOn_alike (dialect : Dialect) (scan : Scan) (opts : DriverOpts) (ctx : Context)
    (now : Time) (limit : ℕ) (db : Db) :
    Alike (fun c c' : Commit (List ReclaimedJob) => c.db.SameRows c'.db ∧
        c'.out = ((expiredRows dialect scan now limit db).insertionSort reclaimOrder).map
          (sweptJob opts db) ∧
        c.fires.map FireCall.mark = c'.fires.map FireCall.mark)
      (sweepBatch dialect scan opts ctx now limit db)
      (sweepBatchOn dialect scan opts ctx now limit db) := by
  unfold sweepBatch sweepBatchOn
  rw [reclaimExpired_eq]
  have hstored : ∀ r ∈ (expiredRows dialect scan now limit db).insertionSort reclaimOrder,
      r ∈ db.jobs.rows := fun r hr =>
    (mem_expiredRows ((perm_insertionSort _ _).mem_iff.mp hr)).1
  have hsorted := perm_insertionSort reclaimOrder (expiredRows dialect scan now limit db)
  generalize expiredRows dialect scan now limit db = rows at hstored hsorted
  dsimp only
  by_cases hnil : rows = []
  · subst hnil
    refine .ok ⟨?_, rfl, rfl⟩
    have hjobs : (reclaimRows opts now [] db).jobs = db.jobs := update_of_false fun _ _ => rfl
    have hsame : reclaimRows opts now [] db = db := congrArg (fun jobs => { db with jobs }) hjobs
    rw [hsame]
    exact .refl db
  · have hmarks : ¬ (rows.insertionSort reclaimOrder).map (reclaimMark opts db) = [] := by
      rw [map_eq_nil_iff]
      exact fun h => hnil (perm_nil.mp (h ▸ hsorted.symm))
    rw [if_neg hnil, if_neg hmarks]
    obtain ⟨hsame, hout⟩ := crashStubs_spec dialect opts now hstored rows
    have hparents : discardedParents ((rows.insertionSort reclaimOrder).map (sweptJob opts db)) =
        discardedParents ((rows.insertionSort reclaimOrder).map (reclaimedJob opts db)) :=
      discardedParents_congr _ fun _ => ⟨rfl, rfl, rfl⟩
    rw [hout, hparents]
    refine (fireEach_same ctx 0 _ hsame).bind ?_
    rintro ⟨x, calls⟩ ⟨y, calls'⟩ ⟨hxy, hcalls⟩
    exact .ok ⟨hxy, rfl, hcalls⟩

variable (rank : String → ℕ) (opts : DriverOpts) {ctx : Context} {now : Time} {zone : Zone}
  {lapsed : Time → Bool}

theorem NewRow.not_expired {r : JobRow} (h : NewRow r) (lapsed : Time → Bool) : r.expired lapsed =
    false := by
  simp [JobRow.expired, h.leasedUntil]

/-- A barrier check takes no lease. -/
theorem fireBarrierIfComplete_expiredLeases {k : ℕ} {parentID spawnedBy : String}
    {db' : Db} {fired : Bool} (lapsed : Time → Bool)
    (h : fireBarrierIfComplete ctx k parentID spawnedBy db = .ok (db', fired)) :
    db'.expiredLeases lapsed = db.expiredLeases lapsed := by
  rcases fireBarrierIfComplete_spec h with ⟨-, rfl, -⟩ |
    ⟨-, parent, kind, spec, row, -, -, -, -, hrow, rfl⟩
  · rfl
  · have hclear : ∀ t : Table JobRow.id,
      (t.update (isJob parentID) (clearBarrier (ctx.clock k))).rows.countP
        (JobRow.expired lapsed) = t.rows.countP (JobRow.expired lapsed) := by
      intro t
      change (t.rows.map _).countP _ = _
      rw [countP_map]
      refine countP_congr fun r _ => ?_
      rw [Function.comp_apply]
      split_ifs <;> rfl
    change ((Table.insert _ _ _).update _ _).rows.countP _ = _
    rw [hclear]
    have hnew : (row.defaulted (ctx.clock k)).expired lapsed = false :=
      ((buildChildRow_spec hrow).toNewRow.defaulted (ctx.clock k)).not_expired lapsed
    unfold Table.insert
    split_ifs
    · rfl
    · rw [countP_append, countP_singleton, hnew]
      rfl

/-- A batch that is not empty takes a lease that has expired. -/
theorem reclaimRows_expiredLeases {rows : List JobRow}
    (hrows : ∀ r ∈ rows, r ∈ db.jobs.rows ∧ r.expired lapsed = true) (hne : rows ≠ []) :
    (reclaimRows opts now rows db).expiredLeases lapsed < db.expiredLeases lapsed := by
  obtain ⟨r, hr⟩ := exists_mem_of_ne_nil rows hne
  obtain ⟨before, after, hsplit⟩ := append_of_mem (hrows r hr).1
  -- a reclaimed row holds no lease, and every other row is as it was
  have hrow : ∀ s : JobRow, (if (rows.map JobRow.id).contains s.id = true then
      (reclaimUpdate opts now db).apply s else s).expired lapsed = true →
        s.expired lapsed = true := by
    grind [JobRow.expired, reclaimUpdate]
  have hmono : ∀ xs : List JobRow,
    (xs.map fun s => if (rows.map JobRow.id).contains s.id = true then
      (reclaimUpdate opts now db).apply s else s).countP (JobRow.expired lapsed) ≤
        xs.countP (JobRow.expired lapsed) := by
    intro xs
    rw [countP_map]
    exact countP_mono_left fun s _ h => hrow s h
  have hgone : (if (rows.map JobRow.id).contains r.id = true then
      (reclaimUpdate opts now db).apply r else r).expired lapsed = false := by
    rw [if_pos (contains_iff_mem.mpr (mem_map_of_mem hr))]
    simp [JobRow.expired, reclaimUpdate]
  change (db.jobs.rows.map fun s => if (rows.map JobRow.id).contains s.id = true then
    (reclaimUpdate opts now db).apply s else s).countP _ < db.jobs.rows.countP _
  grind

variable {dialect : Dialect} {scan : Scan} {opts : DriverOpts} {limit : ℕ}
  {c : Commit (List ReclaimedJob)}

/-- A batch leaves the expired leases that its reclaim leaves. -/
theorem sweepBatchOn_reclaims (h : sweepBatchOn dialect scan opts ctx now limit db = .ok c)
    (lapsed : Time → Bool) :
    let rows := expiredRows dialect scan now limit db
    c.out.length = rows.length ∧
      c.db.expiredLeases lapsed = (reclaimRows opts now rows db).expiredLeases lapsed := by
  have halike := sweepBatchOn_alike dialect scan opts ctx now limit db
  rw [h] at halike
  cases hbatch : sweepBatch dialect scan opts ctx now limit db with
  | error e =>
    rw [hbatch] at halike
    cases halike
  | ok d =>
    rw [hbatch] at halike
    cases halike with
    | ok hsame =>
      obtain ⟨hdb, hout, -⟩ := hsame
      refine ⟨by rw [hout, length_map, length_insertionSort], ?_⟩
      have hcount : c.db.expiredLeases lapsed = d.db.expiredLeases lapsed := by
        rw [hdb.rest]
        rfl
      rcases sweepBatch_spec hbatch with ⟨hnil, hsame, -⟩ | ⟨-, ⟨k, after, hfires, hjobs⟩, -⟩
      · rw [hcount, hsame, hnil]
        simp [reclaimRows, Db.expiredLeases, Table.update]
      · calc c.db.expiredLeases lapsed = after.expiredLeases lapsed := by
              rw [hcount, Db.expiredLeases, Db.expiredLeases, hjobs]
          _ = _ := fireEach_invariant (P := fun d' => d'.expiredLeases lapsed = _)
              (fun _ _ _ _ _ _ hfire hP =>
                (fireBarrierIfComplete_expiredLeases lapsed hfire).trans hP)
              hfires rfl

/-- A batch that is not short takes a lease that has expired. -/
theorem sweepBatchOn_expiredLeases (hlimit : 0 < limit)
    (h : sweepBatchOn dialect scan opts ctx now limit db = .ok c) (hfull : ¬ c.out.length < limit) :
    c.db.expiredLeases (dialect.before scan.zone now) <
      db.expiredLeases (dialect.before scan.zone now) := by
  obtain ⟨hlength, hleft⟩ := sweepBatchOn_reclaims h (dialect.before scan.zone now)
  rw [hleft]
  refine reclaimRows_expiredLeases opts (fun r hr => mem_expiredRows hr) fun hnil => ?_
  rw [hlength, hnil] at hfull
  exact hfull hlimit

/-- A batch takes at least one lease. -/
theorem DriverOpts.sweepLimit_pos : 0 < opts.sweepLimit := by
  simp only [DriverOpts.sweepLimit, orDefault]
  split_ifs with h <;> omega

/-- Enough batches complete a sweep. -/
theorem sweepFrom_isSome (dialect : Dialect) (zone : Zone) (ranks : ℕ → String → ℕ)
    (ctxs : ℕ → Context) (opts : DriverOpts) (now : Time) {fuel k : ℕ}
    (h : db.expiredLeases (dialect.before zone now) < fuel) :
    ∃ r, sweepFrom dialect zone ranks ctxs opts now fuel k db = some r := by
  induction fuel generalizing k db with
  | zero => exact absurd h (Nat.not_lt_zero _)
  | succ fuel ih =>
    unfold sweepFrom
    cases hbatch : sweepBatchOn dialect { rank := ranks k, zone } opts (ctxs k) now opts.sweepLimit
        db with
    | error e => exact ⟨_, rfl⟩
    | ok c =>
      dsimp only
      by_cases hshort : c.out.length < opts.sweepLimit
      · simp_all
      · rw [if_neg hshort]
        have hless := sweepBatchOn_expiredLeases opts.sweepLimit_pos hbatch hshort
        dsimp only at hless
        obtain ⟨r, hr⟩ := ih (k := k + 1)
          (show c.db.expiredLeases (dialect.before zone now) < fuel by omega)
        simp_all

/-- A reclaim of every expired lease leaves none. -/
theorem reclaimRows_all {rows : List JobRow}
    (hall : ∀ r ∈ db.jobs.rows, r.expired lapsed = true → r ∈ rows) :
    (reclaimRows opts now rows db).expiredLeases lapsed = 0 := by
  refine countP_eq_zero.mpr fun s hs => ?_
  obtain ⟨r, hr, rfl⟩ := mem_map.mp hs
  split_ifs with hin
  · simp [JobRow.expired, reclaimUpdate]
  · exact fun hexpired => hin (contains_iff_mem.mpr (mem_map_of_mem (hall r hr hexpired)))

/-- Batches that end without an error leave no lease that the dialect calls expired. -/
theorem sweepFrom_leaves_none {ranks : ℕ → String → ℕ} {ctxs : ℕ → Context} {fuel k : ℕ}
    {r : SweepResult} (h : sweepFrom dialect zone ranks ctxs opts now fuel k db = some r)
    (hok : r.error = none) : r.db.expiredLeases (dialect.before zone now) = 0 := by
  induction fuel generalizing k db r with
  | zero => cases h
  | succ fuel ih =>
    unfold sweepFrom at h
    cases hbatch : sweepBatchOn dialect { rank := ranks k, zone } opts (ctxs k) now opts.sweepLimit
        db with
    | error e => grind
    | ok c =>
      rw [hbatch] at h
      dsimp only at h
      split_ifs at h with hshort
      · -- a short batch took every lease that had expired
        cases h
        obtain ⟨hlength, hleft⟩ := sweepBatchOn_reclaims hbatch (dialect.before zone now)
        rw [hleft]
        refine reclaimRows_all fun r hr hexpired => ?_
        rw [hlength] at hshort
        unfold expiredRows Scan.expired at *
        rw [take_of_length_le (by grind)]
        cases dialect <;> simp_all [Scan.free]
      · obtain ⟨rest, hrest, rfl⟩ := Option.map_eq_some_iff.mp h
        exact ih (r := rest) hrest hok

/-- **A sweep ends, and without an error it leaves no lease that the dialect's comparison calls
expired**: none that has expired, where the dialect compares instants. -/
theorem sweep_leaves_none (dialect : Dialect) (zone : Zone) (ranks : ℕ → String → ℕ)
    (ctxs : ℕ → Context) (opts : DriverOpts) (now : Time) (db : Db) :
    ∃ r, sweep dialect zone ranks ctxs opts now db = some r ∧
      (r.error = none → r.db.expiredLeases (dialect.before zone now) = 0 ∧
        (dialect.Exact zone now → r.db.expiredLeases (fun t => decide (t < now)) = 0)) := by
  obtain ⟨r, hr⟩ := sweepFrom_isSome dialect zone ranks ctxs opts now (k := 0)
    (Nat.lt_succ_self (db.expiredLeases (dialect.before zone now)))
  refine ⟨r, hr, fun hok => ?_⟩
  have hnone := sweepFrom_leaves_none hr hok
  exact ⟨hnone, fun hexact => funext hexact.before ▸ hnone⟩

end Flywheel
