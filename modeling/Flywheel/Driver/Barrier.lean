import Flywheel.Insert

/-!
# Barriers

A parent that returns children may declare a barrier over them: the continuation is stored on
the parent's own row, and every transaction that ends a child runs `fireBarrierIfComplete`,
which enqueues the continuation once no child is pending and clears the barrier. The model is
the transaction's view of the check, so that PostgreSQL's lock of the parent's row is the
identity here; `Flywheel.Barrier.Statements` runs the same check statement by statement.
-/

namespace Flywheel

open Relational Transition

/-- One call of `fireBarrierIfComplete`: what it was asked, the id that it would mint for the
continuation, the database that it found and left, and whether it reported that it fired. -/
structure FireCall where
  parentID : String
  spawnedBy : String
  mintedID : String
  before : Db
  after : Db
  fired : Bool

/-- What a transaction committed: the database, its result, and the barrier checks it ran. -/
structure Commit (α : Type) where
  db : Db
  out : α
  fires : List FireCall := []

/-- `validateBarrier`: a continuation's kind, at least one child, and no more than the ceiling. -/
def validateBarrier (b : Barrier) (followUps : List FollowUp) (maxChildren : ℕ) :
    Except TxError Unit :=
  let children := followUps.countP fun fu => fu.parent
  if b.kind = "" then .error (.validation "barrier kind" "is required")
  else if children = 0 then .error .barrierNoChildren
  else if maxChildren < children then .error .barrierTooWide
  else .ok ()

/-- `resolveBarrierColumns`: the continuation's routing from the barrier, then its kind's
defaults, then the declaring job's row. -/
def resolveBarrierColumns (ctx : Context) (raw : RawJob) (b : Barrier) (db : Db) :
    Except TxError (String × BarrierSpec) := do
  let parent ← (db.job? raw.id).elim (.error (.recordNotFound "barrier parent routing")) .ok
  let args ← b.args.elim (.error (.marshal "barrier args")) .ok
  let routed := applyDefaults (ctx.registry b.kind)
    { queue := b.queue, priority := b.priority, executorClass := b.executorClass }
  return (b.kind,
    { args
      queue := orString routed.queue raw.queue
      executorClass := orString routed.executorClass parent.executorClass
      priority := orInt routed.priority parent.priority
      maxAttempts := routed.maxAttempts
      timeoutMs := if 0 < routed.timeout then milliseconds routed.timeout else 0
      tags := routed.tags })

/-- The unique key of a parent's continuation. -/
def barrierKey (parentID : String) : String := "barrier:" ++ parentID

/-- `followUpFromBarrierSpec` -/
def followUpFromBarrierSpec (kind : String) (spec : BarrierSpec) (parentID : String) : FollowUp :=
  { kind, args := some spec.args, queue := spec.queue, executorClass := spec.executorClass
    priority := spec.priority, parent := true, uniqueKey := barrierKey parentID }

/-- `barrierSpecDefaults` -/
def barrierSpecDefaults (spec : BarrierSpec) : KindDefaults :=
  { maxAttempts := spec.maxAttempts, timeout := spec.timeoutMs * millisecond, tags := spec.tags }

/-- The row of a parent's continuation, built from the stored spec alone. -/
def continuationRow (ctx : Context) (k : ℕ) (kind : String) (spec : BarrierSpec)
    (parentID spawnedBy : String) : Except TxError JobRow :=
  buildChildRow ctx k (followUpFromBarrierSpec kind spec parentID) parentID spawnedBy .barrier
    (some (barrierSpecDefaults spec))

/-- A child of `parentID` that has not ended, as the sibling count sees it. -/
def JobRow.pendingChildOf (parentID : String) (r : JobRow) : Bool :=
  r.visible && decide (r.parentJobID = some parentID) && !r.state.isTerminal

/-- The sibling count is positive. -/
def Db.hasPendingChild (db : Db) (parentID : String) : Bool :=
  db.jobs.rows.any (JobRow.pendingChildOf parentID)

/-- The columns that clear a fired barrier; GORM stamps `updated_at` beside them. -/
def clearBarrier (now : Time) : Patch JobRow.id where
  apply r := { r with barrierKind := none, barrierSpec := none, updatedAt := now }
  key_apply _ := rfl

/-- The visible row under an id, as a statement's guard. -/
def isJob (id : String) (r : JobRow) : Bool := decide (r.id = id) && r.visible

/-- `fireBarrierIfComplete`: whether the generation of `parentID` has ended, and if so its
continuation. The gate, then the locked read of the same columns, then the count, the insert and
the clear; the insert's own report of what landed is not read. -/
def fireBarrierIfComplete (ctx : Context) (k : ℕ) (parentID spawnedBy : String) (db : Db) :
    Except TxError (Db × Bool) :=
  match db.job? parentID with
  | none => .ok (db, false)
  | some parent =>
    match parent.barrierKind with
    | none => .ok (db, false)
    | some kind =>
      if db.hasPendingChild parentID then .ok (db, false)
      else do
        let spec ← parent.barrierSpec.elim (.error (.marshal "barrier spec")) .ok
        let row ← continuationRow ctx k kind spec parentID spawnedBy
        let (db, _) ← conflictInsertChunk (ctx.clock k) [row] db
        return ({ db with jobs := db.jobs.update (isJob parentID) (clearBarrier (ctx.clock k)) },
          true)

variable {ctx : Context} {db db' : Db} {parents : List (String × String)} {calls : List FireCall}
  {k : ℕ} {parentID spawnedBy : String} {fired : Bool}

/-- What a check can do. Either it changes nothing: the parent is gone, it declares no barrier, or
a child is pending. Or it inserts the continuation, unless the insert conflicts, and clears the
barrier. -/
theorem fireBarrierIfComplete_spec
    (h : fireBarrierIfComplete ctx k parentID spawnedBy db = .ok (db', fired)) :
    (fired = false ∧ db' = db ∧ ∀ parent, db.job? parentID = some parent →
        parent.barrierKind = none ∨ db.hasPendingChild parentID = true) ∨
    (fired = true ∧ ∃ parent kind spec row, db.job? parentID = some parent ∧
      parent.barrierKind = some kind ∧ parent.barrierSpec = some spec ∧
      db.hasPendingChild parentID = false ∧
      continuationRow ctx k kind spec parentID spawnedBy = .ok row ∧
      db' = { db with
        jobs := (db.jobs.insert uniqueClash (row.defaulted (ctx.clock k))).update
          (isJob parentID) (clearBarrier (ctx.clock k)) }) := by
  rw [fireBarrierIfComplete] at h
  cases hparent : db.job? parentID with
  | none => simp_all
  | some parent =>
    simp only [hparent] at h
    cases hkind : parent.barrierKind with
    | none => simp_all
    | some kind =>
      simp only [hkind] at h
      split_ifs at h with hpending
      · simp_all
      · obtain ⟨spec, hspec, h⟩ := bind_eq_ok.mp h
        obtain ⟨row, hrow, h⟩ := bind_eq_ok.mp h
        obtain ⟨⟨db₁, landed⟩, hins, h⟩ := bind_eq_ok.mp h
        cases h
        have hspec' : parent.barrierSpec = some spec := by
          cases hs : parent.barrierSpec with
          | none => simp [hs] at hspec
          | some s => simp only [hs, Option.elim_some, Except.ok.injEq] at hspec; rw [hspec]
        refine .inr ⟨rfl, parent, kind, spec, row, rfl, hkind, hspec',
          by simpa using hpending, hrow, ?_⟩
        rw [conflictInsertChunk_spec hins]
        rfl

/-- The check of one parent, with its call recorded. -/
def fireOne (ctx : Context) (k : ℕ) (parentID spawnedBy : String) (db : Db) :
    Except TxError (Db × FireCall) := do
  let (after, fired) ← fireBarrierIfComplete ctx k parentID spawnedBy db
  return (after, { parentID, spawnedBy, mintedID := ctx.newID k, before := db, after, fired })

/-- The check of several parents in turn, each paired with the child that it follows: the loop of
`fireDiscardedParentsBarriers` and of `fireParentsBarriers`. -/
def fireEach (ctx : Context) : ℕ → List (String × String) → Db → Except TxError (Db × List FireCall)
  | _, [], db => .ok (db, [])
  | k, (parentID, spawnedBy) :: parents, db => do
    let (db, call) ← fireOne ctx k parentID spawnedBy db
    let (db, calls) ← fireEach ctx (k + 1) parents db
    return (db, call :: calls)

/-- A transaction's effect on `jobs`: the table that its own writes leave, and then the barrier
checks of `parents`. -/
def Effect {α : Type} (ctx : Context) (mid : Db) (parents : List (String × String))
    (c : Commit α) : Prop :=
  ∃ k after, fireEach ctx k parents mid = .ok (after, c.fires) ∧ c.db.jobs = after.jobs

theorem Effect.jobs_of_nil {α : Type} {mid : Db} {c : Commit α} (h : Effect ctx mid [] c) :
    c.db.jobs = mid.jobs := by
  obtain ⟨k, after, hfires, hjobs⟩ := h
  obtain ⟨rfl, -⟩ := Prod.mk.inj (Except.ok.inj hfires)
  exact hjobs

/-! ## What a round of checks does -/

/-- The database differs from `db` in `jobs` and in the control history alone. -/
def JobsOnly (db db' : Db) : Prop := db' = { db with jobs := db'.jobs, audit := db'.audit }

theorem fireBarrierIfComplete_frame
    (h : fireBarrierIfComplete ctx k parentID spawnedBy db = .ok (db', fired)) :
    db' = { db with jobs := db'.jobs } := by
  rcases fireBarrierIfComplete_spec h with ⟨-, rfl, -⟩ | ⟨-, _, _, _, _, -, -, -, -, -, rfl⟩ <;> rfl

theorem fireEach_cons {p : String × String}
    (h : fireEach ctx k (p :: parents) db = .ok (db', calls)) :
    ∃ mid fired rest, fireBarrierIfComplete ctx k p.1 p.2 db = .ok (mid, fired) ∧
      fireEach ctx (k + 1) parents mid = .ok (db', rest) ∧
      calls = ⟨p.1, p.2, ctx.newID k, db, mid, fired⟩ :: rest := by
  obtain ⟨⟨mid, call⟩, hone, h⟩ := bind_eq_ok.mp h
  obtain ⟨⟨last, rest⟩, hrest, h⟩ := bind_eq_ok.mp h
  obtain ⟨⟨after, fired⟩, hfire, hone⟩ := bind_eq_ok.mp hone
  cases h
  cases hone
  exact ⟨mid, fired, rest, hfire, hrest, rfl⟩

theorem fireEach_invariant {P : Db → Prop} (hstep : ∀ k parentID spawnedBy db db' fired,
      fireBarrierIfComplete ctx k parentID spawnedBy db = .ok (db', fired) → P db → P db')
    (h : fireEach ctx k parents db = .ok (db', calls)) (hP : P db) : P db' := by
  induction parents generalizing k db calls with
  | nil =>
    cases h
    exact hP
  | cons p parents ih =>
    obtain ⟨mid, fired, rest, hfire, hrest, rfl⟩ := fireEach_cons h
    exact ih hrest (hstep _ _ _ _ _ _ hfire hP)

theorem fireEach_frame (h : fireEach ctx k parents db = .ok (db', calls)) :
    db' = { db with jobs := db'.jobs } := by
  refine fireEach_invariant (P := fun d => d = { db with jobs := d.jobs }) ?_ h rfl
  intro _ _ _ d d' _ hfire hd
  rw [fireBarrierIfComplete_frame hfire, hd]

theorem fireEach_calls (h : fireEach ctx k parents db = .ok (db', calls)) :
    ∀ call ∈ calls, ∃ j, call.mintedID = ctx.newID j ∧
      fireBarrierIfComplete ctx j call.parentID call.spawnedBy call.before =
        .ok (call.after, call.fired) := by
  induction parents generalizing k db calls with
  | nil =>
    cases h
    simp
  | cons p parents ih =>
    obtain ⟨mid, fired, rest, hfire, hrest, rfl⟩ := fireEach_cons h
    grind

end Flywheel
