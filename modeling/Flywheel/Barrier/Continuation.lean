import Flywheel.Barrier.Armed

/-!
# A fired barrier's continuation

A check that fires inserts the continuation under the unique key of its parent, skips the insert
when the key is taken, and does not read what landed. A parent that is retried and declares a
barrier again meets the continuation of its first generation there, and its second generation
completes without one: a check that fires inserts a continuation exactly when no job holds the key.
The row is built from the stored spec alone, and is the one that the declaration resolved.
-/

namespace Flywheel

open Relational Transition List Option Table

/-- The barrier checks of an action that commits. -/
def Action.fires (a : Action) (db : Db) : List FireCall := (a.exec db).toOption.elim [] Commit.fires

/-- The call inserted a new continuation, built from the spec that the parent's row stored. -/
def FireCall.Continues (call : FireCall) : Prop :=
  ∃ parent kind spec ctx k row, call.before.job? call.parentID = some parent ∧
    parent.barrierKind = some kind ∧ parent.barrierSpec = some spec ∧
    continuationRow ctx k kind spec call.parentID call.spawnedBy = .ok row ∧
    call.before.jobs.get? row.id = none ∧
    call.after.jobs.get? row.id = some (row.defaulted (ctx.clock k))

/-- No job holds the unique key of the call's continuation. -/
def FireCall.KeyFree (call : FireCall) : Prop :=
  ∀ r ∈ call.before.jobs.rows, r.uniqueKey ≠ some (barrierKey call.parentID)

theorem keyColumn_barrierKey (parentID : String) :
    keyColumn (barrierKey parentID) = some (barrierKey parentID) := by
  unfold keyColumn
  simp_all [barrierKey]

variable {ctx : Context} {k : ℕ}

variable {kind parentID spawnedBy : String} {spec : BarrierSpec} {row parent : JobRow} {db : Db}
  {raw : RawJob} {b : Barrier} {columns : String × BarrierSpec}

section

variable (h : continuationRow ctx k kind spec parentID spawnedBy = .ok row)

include h

/-- A continuation's row, whichever check builds it, is under its parent's key. -/
theorem continuationRow_spec :
    NewRow row ∧ row.id = ctx.newID k ∧ row.uniqueKey = some (barrierKey parentID) ∧
      row.uniqueActiveKey = none := by
  have hrow := buildChildRow_spec h
  refine ⟨hrow.toNewRow, hrow.id, ?_, hrow.uniqueActiveKey⟩
  rw [hrow.uniqueKey]
  exact keyColumn_barrierKey parentID

theorem continuationRow_lands {jobs : Table JobRow.id} (hfresh : jobs.get? (ctx.newID k) = none)
    (hfree : ∀ r ∈ jobs.rows, r.uniqueKey ≠ some (barrierKey parentID)) (now : Time) :
    jobs.conflicts uniqueClash (row.defaulted now) = false := by
  obtain ⟨-, hid, hkey, hactive⟩ := continuationRow_spec h
  refine List.any_eq_false.mpr fun r hr => ?_
  simp_all [Table.get?, uniqueClash]

end

theorem get?_fired {id : String} {now : Time} (hparent : db.job? parentID = some parent)
    (hnone : db.jobs.get? id = none) :
    ((db.jobs.insert uniqueClash row).update (isJob parentID) (clearBarrier now)).get? id =
      (db.jobs.insert uniqueClash row).get? id := by
  have hget := (Db.job?_eq_some.mp hparent).1
  refine get?_update_of_not _ fun r hr => ?_
  have hne : r.id ≠ parentID := by
    rintro rfl
    rw [key_of_get? hr, hnone] at hget
    cases hget
  simp [isJob, hne]

/-- A check that fires inserts a continuation exactly when no job holds its key, if it mints a new
id. -/
theorem FireCall.continues_iff {call : FireCall} (hminted : call.mintedID = ctx.newID k)
    (h : fireBarrierIfComplete ctx k call.parentID call.spawnedBy call.before =
      .ok (call.after, call.fired)) (hfired : call.fired = true)
    (hfresh : call.before.jobs.get? call.mintedID = none) : call.Continues ↔ call.KeyFree := by
  rcases fireBarrierIfComplete_spec h with
    ⟨hno, -⟩ | ⟨-, parent, kind, spec, row, hparent, hkind, hspec, -, hrow, hafter⟩
  · simp_all
  obtain ⟨hnew, hid, hkey, -⟩ := continuationRow_spec hrow
  constructor
  · -- a row that landed had no holder of its key before it
    rintro ⟨parent', kind', spec', ctx', k', row', hparent', -, -, hrow', hnone, hsome⟩ r hr hholds
    rw [hafter] at hsome
    rw [get?_update] at hsome
    obtain ⟨s, hs, -⟩ := map_eq_some_iff.mp hsome
    rcases get?_insert_cases _ hs with hold | ⟨-, rfl, -, hconflicts⟩
    · simp_all
    · have := List.any_eq_false.mp hconflicts r hr
      simp [uniqueClash, hkey, hholds] at this
  · intro hfree
    refine ⟨parent, kind, spec, ctx, k, row, hparent, hkind, hspec, hrow, ?_, ?_⟩
    · simp_all
    · have hconflicts := continuationRow_lands hrow (hminted ▸ hfresh) hfree (ctx.clock k)
      have hnone : call.before.jobs.get? row.id = none := by rw [hid, ← hminted, hfresh]
      rw [hafter]
      rw [get?_fired hparent hnone, get?_insert, if_pos ⟨hconflicts, rfl⟩]

/-- The calls of a round of checks are calls that the code made. -/
theorem Effect.calls {α : Type} {mid : Db} {parents : List (String × String)} {c : Commit α}
    (h : Effect ctx mid parents c) :
    ∀ call ∈ c.fires, ∃ k, call.mintedID = ctx.newID k ∧
      fireBarrierIfComplete ctx k call.parentID call.spawnedBy call.before =
        .ok (call.after, call.fired) := by
  obtain ⟨_, _, hfires, -⟩ := h
  exact fireEach_calls hfires

theorem Action.fires_spec {a : Action} : ∀ call ∈ a.fires db, ∃ ctx k, call.mintedID = ctx.newID k ∧
      fireBarrierIfComplete ctx k call.parentID call.spawnedBy call.before =
        .ok (call.after, call.fired) := by
  intro call hcall
  unfold Action.fires at hcall
  cases hexec : a.exec db with
  | error e => simp [hexec, Except.toOption] at hcall
  | ok c =>
    have hcall : call ∈ c.fires := by simpa [hexec, Except.toOption] using hcall
    cases exec_shape hexec with
    | writes ctx mid rows parents own new effect => exact ⟨ctx, effect.calls call hcall⟩
    | deletes ids kind ended jobs fires => simp_all

/-- After every history, a check of the next action that reports that it fired inserted a new
continuation from the stored spec exactly when no job held the continuation's key. -/
theorem fired_continues_iff (db : Db) (history : List Action) (a : Action) :
    ∀ call ∈ a.fires (db.after history), call.fired = true →
      call.before.jobs.get? call.mintedID = none → (call.Continues ↔ call.KeyFree) := by
  intro call hcall hfired hfresh
  grind [Action.fires_spec, FireCall.continues_iff]

/-- The cancel of the pending child. -/
def childCancel : Action := .cancelJob { newID := fun _ => "gathered" } "child"

/-- The cancel of a first generation's only child fires the barrier and inserts its continuation. -/
theorem fired_continues_first_generation :
    ∃ call ∈ childCancel.fires (Db.after {} (startedParent ++ [finishedParent])),
      call.fired = true ∧ call.Continues := by
  obtain ⟨call, hcall⟩ : ∃ call,
      call ∈ childCancel.fires (Db.after {} (startedParent ++ [finishedParent])) :=
    exists_mem_of_length_pos (by decide)
  have hfacts : ∀ call ∈ childCancel.fires (Db.after {} (startedParent ++ [finishedParent])),
      call.fired = true ∧ (call.before.jobs.get? call.mintedID).isNone = true ∧
      ∀ r ∈ call.before.jobs.rows, r.uniqueKey ≠ some (barrierKey call.parentID) := by decide
  obtain ⟨hfired, hfresh, hfree⟩ := hfacts call hcall
  refine ⟨call, hcall, hfired, ?_⟩
  exact (fired_continues_iff {} (startedParent ++ [finishedParent]) childCancel call hcall hfired
    (isNone_iff_eq_none.mp hfresh)).mpr hfree

/-- One generation: the parent is claimed, its attempt ends with a child and a barrier, and the
child is cancelled. -/
def generation (attempt : ℤ) (token runID child continuation : String) : List Action :=
  [.dequeue .sqlite {} { newID := fun _ => token } { queues := ["default"], lease := minute },
   .insertRunStub runID { firstClaim "parent" "spawn" token with attempt } 0 "" "executor",
   .finalize {} { newID := fun _ => child } { firstClaim "parent" "spawn" token with attempt } runID
     (oneChild "") none 0,
   .cancelJob { newID := fun _ => continuation } child]

/-- A parent whose first generation completed is retried, and completes a second one. -/
def secondGeneration : List Action :=
  [.insert { newID := fun _ => "parent" } [{ kind := "spawn", args := .null }]] ++
    generation 1 "token1" "run1" "child1" "first" ++
    [.cancelJob {} "first", .retryJob {} "parent" { force := true }] ++
    (generation 2 "token2" "run2" "child2" "second").dropLast

/-- The cancel of the second generation's child. -/
def lastCancel : Action := .cancelJob { newID := fun _ => "second" } "child2"

/-- The cancel of the second generation's child reports that the barrier fired, and inserts no
continuation. -/
theorem second_generation_without_continuation :
    Legal World.step World.Admits {} secondGeneration ∧
      ∃ call ∈ lastCancel.fires (Db.after {} secondGeneration),
        call.fired = true ∧ call.before.jobs.get? call.mintedID = none ∧ ¬ call.Continues := by
  refine ⟨⟨trivial, not_mem_nil, ⟨_, mem_cons_self, rfl, rfl⟩,
    ⟨_, mem_cons_self, rfl, rfl⟩, trivial, trivial, trivial, show "token2" ∉ _ by decide,
    ⟨_, mem_cons_self, rfl, rfl⟩, ⟨_, mem_cons_self, rfl, rfl⟩, trivial⟩, ?_⟩
  obtain ⟨call, hcall⟩ : ∃ call, call ∈ lastCancel.fires (Db.after {} secondGeneration) :=
    exists_mem_of_length_pos (by decide)
  have hfacts : ∀ call ∈ lastCancel.fires (Db.after {} secondGeneration),
      call.fired = true ∧ (call.before.jobs.get? call.mintedID).isNone = true ∧
      ∃ r ∈ call.before.jobs.rows, r.uniqueKey = some (barrierKey call.parentID) := by decide
  obtain ⟨hfired, hfresh, r, hr, hkey⟩ := hfacts call hcall
  have hnone := isNone_iff_eq_none.mp hfresh
  refine ⟨call, hcall, hfired, hnone, ?_⟩
  obtain ⟨ctx, k, hminted, hfire⟩ := Action.fires_spec call hcall
  rw [FireCall.continues_iff hminted hfire hfired hnone]
  exact fun hfree => hfree r hr hkey

/-! ## The continuation as its declaration resolves it -/

/-- The continuation that a barrier stands for at its declaration: the barrier's own values over the
defaults of its kind over the parent's columns. -/
structure Barrier.Resolves (b : Barrier) (d : KindDefaults) (parent r : JobRow) : Prop where
  kind : r.kind = b.kind
  args : b.args = some r.args
  queue : r.queue = orString b.queue (orString d.queue parent.queue)
  executorClass : r.executorClass =
    orString b.executorClass (orString d.executorClass parent.executorClass)
  priority : r.priority = orInt b.priority (orInt d.priority parent.priority)
  maxAttempts : r.maxAttempts = orInt d.maxAttempts defaultMaxAttempts
  timeoutMs : r.timeoutMs =
    if 0 < milliseconds d.timeout then some (milliseconds d.timeout) else none
  tags : tagsJSON d.tags = .ok r.tags

/-- An empty fallback falls back to nothing. -/
theorem orString_empty (value : String) : orString value "" = value := by grind [orString]

@[inherit_doc orString_empty]
theorem orInt_zero (value : ℤ) : orInt value 0 = value := by grind [orInt]

theorem applyDefaults_eq (d : Option KindDefaults) (opts : InsertOpts) :
    applyDefaults d opts = (d.getD {}).applyTo opts := by
  cases d with
  | some d => rfl
  | none =>
    have htags : (if opts.tags = [] then [] else opts.tags) = opts.tags := by grind
    have htimeout : (if opts.timeout = 0 then 0 else opts.timeout) = opts.timeout := by grind
    simp [applyDefaults, KindDefaults.applyTo, orString_empty, orInt_zero, htags, htimeout]

/-- The columns that a declaration stores. -/
theorem resolveBarrierColumns_spec (hparent : db.job? raw.id = some parent)
    (h : resolveBarrierColumns ctx raw b db = .ok columns) :
    ∃ args d, b.args = some args ∧ d = (ctx.registry b.kind).getD {} ∧
      columns = (b.kind,
        { args
          queue := orString (orString b.queue d.queue) raw.queue
          executorClass := orString (orString b.executorClass d.executorClass) parent.executorClass
          priority := orInt (orInt b.priority d.priority) parent.priority
          maxAttempts := d.maxAttempts
          timeoutMs := if 0 < d.timeout then milliseconds d.timeout else 0
          tags := d.tags }) := by
  unfold resolveBarrierColumns at h
  rw [hparent, applyDefaults_eq] at h
  obtain ⟨_, hread, h⟩ := bind_eq_ok.mp h
  obtain ⟨args, hargs, h⟩ := bind_eq_ok.mp h
  cases hread
  refine ⟨args, _, ?_, rfl, (Except.ok.inj h).symm⟩
  cases hb : b.args <;> simp_all

theorem continuationRow_columns (h : continuationRow ctx k kind spec parentID spawnedBy = .ok row) :
    row.kind = kind ∧ row.args = spec.args ∧ row.queue = orString spec.queue defaultQueue ∧
      row.executorClass = spec.executorClass ∧ row.priority = orInt spec.priority defaultPriority ∧
      row.maxAttempts = orInt spec.maxAttempts defaultMaxAttempts ∧
      row.timeoutMs = timeoutColumn (spec.timeoutMs * millisecond) ∧
      tagsJSON spec.tags = .ok row.tags := by
  unfold continuationRow buildChildRow at h
  obtain ⟨payload, hpayload, h⟩ := bind_eq_ok.mp h
  obtain ⟨st, hst, h⟩ := bind_eq_ok.mp h
  obtain ⟨tags, htags, hst⟩ := bind_eq_ok.mp hst
  obtain ⟨_, -, hst⟩ := bind_eq_ok.mp hst
  cases hpayload
  cases hst
  cases h
  refine ⟨rfl, rfl, ?_, orString_empty _, ?_, rfl, rfl, htags⟩
  · exact congrArg (orString · _) (orString_empty _)
  · exact congrArg (orInt · _) (orInt_zero _)

/-- A time limit survives its column, as far as the column's unit tells. -/
theorem timeoutColumn_milliseconds (timeout : ℤ) :
    timeoutColumn ((if 0 < timeout then milliseconds timeout else 0) * millisecond) =
      if 0 < milliseconds timeout then some (milliseconds timeout) else none := by
  unfold timeoutColumn milliseconds millisecond
  by_cases hpos : 0 < timeout
  · rw [if_pos hpos, Int.mul_tdiv_cancel _ (by decide)]
    exact if_congr (mul_pos_iff_of_pos_right (by decide)) rfl rfl
  · have hneg := Int.tdiv_nonneg (show 0 ≤ -timeout by omega) (show (0 : ℤ) ≤ 1000000 by decide)
    rw [Int.neg_tdiv] at hneg
    rw [if_neg hpos, if_neg (by decide), if_neg (by omega)]

/-- What a check builds from the columns that a declaration stored is what the declaration resolves,
whatever the check's own context. -/
theorem continuationRow_resolves {ctx' : Context} (now : Time)
    (hparent : db.job? raw.id = some parent) (hrouted : parent.Routed)
    (hqueue : raw.queue = parent.queue) (h : resolveBarrierColumns ctx raw b db = .ok columns)
    (hrow : continuationRow ctx' k columns.1 columns.2 raw.id spawnedBy = .ok row) :
    b.Resolves ((ctx.registry b.kind).getD {}) parent (row.defaulted now) := by
  obtain ⟨args, d, hargs, hd, rfl⟩ := resolveBarrierColumns_spec hparent h
  rw [← hd]
  obtain ⟨hkind, hpayload, hq, hclass, hpriority, hmax, htimeout, htags⟩ :=
    continuationRow_columns hrow
  obtain ⟨hfilled, hranked⟩ := hrouted
  constructor
  · exact hkind
  · exact hargs.trans (congrArg some hpayload.symm)
  · show orString row.queue defaultQueue = _
    grind [orString]
  · show row.executorClass = _
    grind [orString]
  · show orInt row.priority defaultPriority = _
    grind [orInt]
  · show orInt row.maxAttempts defaultMaxAttempts = _
    grind [orInt, defaultMaxAttempts]
  · exact htimeout.trans (timeoutColumn_milliseconds d.timeout)
  · exact htags

/-- Whichever action's check fires a barrier, and whatever its context, a row that the check inserts
is the continuation that the declaration resolved from its own registry and the parent's row. -/
theorem continuation_as_declared {ctx : Context} {raw : RawJob} {b : Barrier} {db : Db}
    {parent : JobRow} {columns : String × BarrierSpec} (hparent : db.job? raw.id = some parent)
    (hrouted : parent.Routed) (hqueue : raw.queue = parent.queue)
    (hdeclared : resolveBarrierColumns ctx raw b db = .ok columns) (later : Db) (a : Action) :
    ∀ call ∈ a.fires later, call.fired = true → call.parentID = raw.id →
      (∀ p, call.before.job? raw.id = some p →
        p.barrierKind = some columns.1 ∧ p.barrierSpec = some columns.2) →
      ∀ r, call.before.jobs.get? r.id = none → call.after.jobs.get? r.id = some r →
        b.Resolves ((ctx.registry b.kind).getD {}) parent r := by
  intro call hcall hfired hid hstored r hnone hsome
  obtain ⟨ctx', k, -, hfire⟩ := Action.fires_spec call hcall
  rcases fireBarrierIfComplete_spec hfire with
    ⟨hno, -⟩ | ⟨-, p, kind, spec, row, hp, hkind, hspec, -, hrow, hafter⟩
  · simp_all
  rw [hid] at hp hrow
  obtain ⟨hkind', hspec'⟩ := hstored p hp
  cases hkind.symm.trans hkind'
  cases hspec.symm.trans hspec'
  rw [hafter] at hsome
  rw [get?_fired (hid ▸ hp) hnone] at hsome
  rcases get?_insert_cases _ hsome with hold | ⟨-, rfl, -⟩
  · rw [hnone] at hold
    cases hold
  · exact continuationRow_resolves _ hparent hrouted hqueue hdeclared hrow

/-- The defaults of the continuation's kind. -/
def gatherDefaults : KindDefaults :=
  { queue := "bulk", maxAttempts := 5, timeout := 2 * minute, tags := ["gather"] }

/-- A barrier with a priority of its own. -/
def gatherBarrier : Barrier := { kind := "gather", priority := 7 }

/-- The context that declares it. -/
def gatherContext : Context :=
  { newID := fun _ => "child", registry := fun kind => if kind = "gather" then some gatherDefaults
    else none }

/-- A parent that ends with a child and that barrier. -/
def gatheringParent : List Action :=
  startedParent ++ [.finalize {} gatherContext (firstClaim "parent" "spawn" "token") "run"
    { oneChild "key" with barrier := some gatherBarrier } none 0]

/-- The cancel of the only child inserts what the barrier stands for: its own priority, the queue,
the attempts and the timeout of its kind. -/
theorem gathered_as_declared :
    ∃ call ∈ childCancel.fires (Db.after {} gatheringParent),
      ∃ parent r, call.after.jobs.get? "gathered" = some r ∧
        gatherBarrier.Resolves gatherDefaults parent r ∧
        (r.priority, r.queue, r.maxAttempts, r.timeoutMs) = (7, "bulk", 5, some 120000) := by
  have hparent : (Db.after {} startedParent).job? (firstClaim "parent" "spawn" "token").id =
    some _ := rfl
  have hdeclared : resolveBarrierColumns gatherContext (firstClaim "parent" "spawn" "token")
    gatherBarrier (Db.after {} startedParent) = .ok _ := rfl
  refine ⟨_, mem_cons_self, _, _, rfl, continuation_as_declared hparent
    ⟨by decide, by decide⟩ rfl hdeclared (Db.after {} gatheringParent) childCancel
    _ mem_cons_self rfl rfl ?_ _ rfl rfl, rfl⟩
  rintro _ ⟨⟩
  exact ⟨rfl, rfl⟩

end Flywheel
