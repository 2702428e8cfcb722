import Flywheel.RunLifecycle

/-!
# Dispatch

The runners' side of a claim (`runner.go`, `dispatch`): a Dequeue returns claimed jobs, and each is
dispatched on its own: its stub is inserted, its worker runs, and its outcome is finalized, in that
order and once. A world is the database with the attempts in flight, those between their Dequeue and
their Finalize, and the lease tokens minted so far. A runner that dies leaves its attempts in flight
for ever; nothing else ends one.
-/

namespace Flywheel

open Relational Transition List Option Table

/-- An attempt in flight: the claim as its runner holds it, and its run once the stub is in. -/
structure Attempt where
  raw : RawJob
  run : Option String := none

/-- The attempt holds this claim. -/
def Attempt.holds (raw : RawJob) (t : Attempt) : Bool :=
  decide (t.raw.id = raw.id ∧ t.raw.leaseToken = raw.leaseToken)

/-- The database, the attempts in flight, and the lease tokens minted so far. -/
structure World where
  db : Db := {}
  attempts : List Attempt := []
  minted : List String := []

/-- The attempts in flight after an action. A stub that fails ends its attempt, and a Finalize ends
its own whatever it returns. -/
def Action.dispatch (a : Action) (db : Db) (attempts : List Attempt) : List Attempt :=
  match a with
  | .dequeue .. => attempts ++ (a.issued db).map fun raw => { raw }
  | .insertRunStub runID raw startedAt executorClass executorID =>
    match Flywheel.insertRunStub runID raw startedAt executorClass executorID db with
    | .ok _ => attempts.map fun t => if t.holds raw then { t with run := some runID } else t
    | .error _ => attempts.filter fun t => !t.holds raw
  | .finalize _ _ raw _ _ _ _ => attempts.filter fun t => !t.holds raw
  | _ => attempts

/-- One step of the world. -/
def World.step (w : World) (a : Action) : World where
  db := Flywheel.step w.db a
  attempts := a.dispatch w.db w.attempts
  minted := w.minted ++ a.minted

/-- The world after a history. -/
def World.after (w : World) (history : List Action) : World := run World.step w history

/-- The actions that a runner takes: a Dequeue mints a token of its own, a stub is inserted for an
attempt without one, and a Finalize ends an attempt under the run that it started. -/
def World.Admits (w : World) : Action → Prop
  | .dequeue _ _ ctx _ => ctx.newID 0 ∉ w.minted
  | .insertRunStub _ raw _ _ _ => ∃ t ∈ w.attempts, t.raw = raw ∧ t.run = none
  | .finalize _ _ raw runID _ _ _ => ∃ t ∈ w.attempts, t.raw = raw ∧ t.run = some runID
  | _ => True

theorem World.after_snoc (w : World) (history : List Action) (a : Action) :
    w.after (history ++ [a]) = (w.after history).step a := by
  unfold World.after
  rw [run_append]
  rfl

/-- The action is the attempt's own stub or Finalize. -/
def Action.concerns : Action → Attempt → Bool
  | .insertRunStub _ raw _ _ _, t => t.holds raw
  | .finalize _ _ raw _ _ _ _, t => t.holds raw
  | _, _ => false

variable {a : Action} {w : World} {raw : RawJob} {j : String}

/-- An attempt in flight after a step was in flight before it, or has just started, or is a claim
that the step issued. -/
theorem World.mem_step {t : Attempt} (h : t ∈ (w.step a).attempts) :
    (t ∈ w.attempts ∧ a.concerns t = false) ∨
    (∃ s ∈ w.attempts, ∃ runID raw startedAt executorClass executorID c,
      a = .insertRunStub runID raw startedAt executorClass executorID ∧ s.holds raw = true ∧
      insertRunStub runID raw startedAt executorClass executorID w.db = .ok c ∧
      t = { s with run := some runID }) ∨
    (∃ raw ∈ a.issued w.db, t = { raw }) := by
  unfold World.step Action.dispatch at h
  cases a with
  | dequeue dialect scan ctx req =>
    rcases mem_append.mp h with h | h
    · exact .inl ⟨h, rfl⟩
    · grind
  | insertRunStub runID raw startedAt executorClass executorID =>
    cases hins : insertRunStub runID raw startedAt executorClass executorID w.db with
    | ok c => grind [Action.concerns]
    | error e => simp_all [Action.concerns]
  | finalize opts ctx raw runID result workErr finishedAt => simp_all [Action.concerns]
  | _ => exact .inl ⟨h, rfl⟩

theorem World.step_raws (w : World) (a : Action) : ((w.step a).attempts.map Attempt.raw).Sublist
      (w.attempts.map Attempt.raw ++ a.issued w.db) := by
  unfold World.step Action.dispatch
  cases a with
  | dequeue dialect scan ctx req => simp [Function.comp_def]
  | insertRunStub runID raw startedAt executorClass executorID =>
    cases hins : insertRunStub runID raw startedAt executorClass executorID w.db with
    | ok c =>
      have hraws : ∀ t : Attempt,
        (if t.holds raw = true then { t with run := some runID } else t).raw =
          t.raw := by
        grind
      simp [Action.issued, hins, Function.comp_def, hraws]
    | error e => simpa [Action.issued, hins] using filter_sublist.map Attempt.raw
  | finalize opts ctx raw runID result workErr finishedAt =>
    simpa [Action.issued] using filter_sublist.map Attempt.raw
  | _ => simp [Action.issued]

/-! ## What a held claim carries -/

/-- The columns that a claim copies from its row. -/
structure Carries (raw : RawJob) (r : JobRow) : Prop where
  attempt : raw.attempt = r.attempt
  maxAttempts : raw.maxAttempts = r.maxAttempts
  parentJobID : raw.parentJobID = r.parentJobID

/-- The tokens of the job's attempts in flight were minted, and a claim that is still held carries
the row's columns. -/
structure World.Held (j : String) (w : World) : Prop where
  minted : ∀ t ∈ w.attempts, t.raw.id = j → t.raw.leaseToken ∈ w.minted
  carries : ∀ t ∈ w.attempts, t.raw.id = j → ∀ r, w.db.jobs.get? t.raw.id = some r →
    r.leaseToken = some t.raw.leaseToken → Carries t.raw r

/-- What is stored under an attempt's job, where the attempt's claim is held, carries its
columns. -/
def Carried (raw : RawJob) (stored : Option JobRow) : Prop :=
  ∀ r, stored = some r → r.leaseToken = some raw.leaseToken → Carries raw r

theorem Move.carried {k : MoveKind} {old new : Option JobRow} (h : Move k old new)
    (hk : k ≠ .claim raw.leaseToken) (hold : Carried raw old) : Carried raw new := by
  rintro r rfl htoken
  cases h with
  | insert hnew =>
    rw [hnew.leaseToken] at htoken
    cases htoken
  | claim now expiry token hstate => exact absurd (congrArg MoveKind.claim (some_inj.mp htoken)) hk
  | settle | reclaim | cancel | retry => cases htoken
  | _ =>
    have := hold _ rfl htoken
    exact ⟨this.attempt, this.maxAttempts, this.parentJobID⟩

theorem step_carried {db : Db} (hmint : raw.leaseToken ∉ a.minted)
    (hold : Carried raw (db.jobs.get? raw.id)) : Carried raw ((step db a).jobs.get? raw.id) :=
  step_unminted hmint Move.carried hold

/-- Every step that a runner takes keeps the claims as they are held. -/
theorem World.Held.step (h : w.Held j) (hadmits : w.Admits a) : (w.step a).Held j := by
  -- a token minted by the step is new
  have hfresh : ∀ t ∈ w.attempts, t.raw.id = j → t.raw.leaseToken ∉ a.minted := by
    intro t ht hid hmint
    cases a with
    | dequeue dialect scan ctx req =>
      rw [Action.minted, mem_singleton] at hmint
      rw [World.Admits, ← hmint] at hadmits
      exact hadmits (h.minted t ht hid)
    | _ => simp [Action.minted] at hmint
  refine ⟨?_, ?_⟩
  · intro t ht hid
    rcases World.mem_step ht with ⟨ht, -⟩ | ⟨s, hs, _, _, _, _, _, _, -, -, -, rfl⟩ |
      ⟨raw, hraw, rfl⟩
    · exact subset_append_left _ _ (h.minted t ht hid)
    · exact subset_append_left _ _ (h.minted s hs hid)
    · obtain ⟨_, _, _, _, _, rfl, -, hof⟩ := issued_spec hraw
      rw [hof.leaseToken]
      exact mem_append_right _ (mem_singleton_self _)
  · intro t ht hid
    rcases World.mem_step ht with ⟨ht, -⟩ | ⟨s, hs, _, _, _, _, _, _, -, -, -, rfl⟩ |
      ⟨raw, hraw, rfl⟩
    · exact step_carried (hfresh t ht hid) (h.carries t ht hid)
    · exact step_carried (hfresh s hs hid) (h.carries s hs hid)
    · obtain ⟨dialect, scan, ctx, req, r, rfl, hr, hof⟩ := issued_spec hraw
      intro r' hr' _
      rw [show (w.step (.dequeue dialect scan ctx req)).db.jobs.get? raw.id = _ from
        dequeue_get? dialect scan ctx req w.db raw.id, hof.id,
        get?_key (mem_claimedRows hr).1, map_some,
        if_pos (contains_iff_mem.mpr (List.mem_map_of_mem hr))] at hr'
      cases hr'
      exact ⟨hof.attempt, hof.maxAttempts, hof.parentJobID⟩

theorem World.Held.start (h : ∀ t ∈ w.attempts, t.raw.id ≠ j) : w.Held j :=
  ⟨fun t ht hid => absurd hid (h t ht), fun t ht hid => absurd hid (h t ht)⟩

end Flywheel
