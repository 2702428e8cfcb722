import Flywheel.Dispatch

/-!
# A declared barrier can still fire

A barrier's completion check runs only when a child ends, so that a parent whose row declares a
barrier needs a child that is still pending. Every transaction that ends a child runs the check of
its parent and so keeps this (`fireEach_armed`), whatever else it does. The declaration itself need
not: `validateBarrier` counts the follow-ups that the worker returned, and the insert skips those
whose unique key is taken (`barrier_without_children`). In a history in which every declared barrier
has a follow-up that lands, every declared barrier can still fire (`declared_barrier_can_fire`).
-/

namespace Flywheel

open Relational Transition List Table Bool

/-- What is stored declares a barrier. -/
def Declares (stored : Option JobRow) : Prop :=
  ∃ r, stored = some r ∧ r.visible = true ∧ r.barrierKind ≠ none

/-- What is stored is a pending child of `p`. -/
def PendingChild (p : String) (stored : Option JobRow) : Prop :=
  ∃ r, stored = some r ∧ r.pendingChildOf p = true

/-- The barrier of `p`, if its row declares one, can still fire: a child is pending. -/
def Db.Armed (db : Db) (p : String) : Prop :=
  Declares (db.jobs.get? p) → ∃ id, PendingChild p (db.jobs.get? id)

variable {a : Action} {ctx : Context} {db db' : Db} {opts : DriverOpts} {r r' : JobRow}
  {parents : List (String × String)} {k : MoveKind} {new old : Option JobRow} {p parentID : String}
  {w : World}

theorem hasPendingChild_iff :
    db.hasPendingChild p = true ↔ ∃ id, PendingChild p (db.jobs.get? id) := by
  unfold Db.hasPendingChild PendingChild
  rw [any_eq_true]
  constructor
  · rintro ⟨r, hr, hp⟩
    exact ⟨r.id, r, get?_key hr, hp⟩
  · grind [mem_of_get?]

/-! ## What a move keeps -/

/-- The kinds of a move that can end a job, a delete apart. -/
def MoveKind.ends : MoveKind → Bool
  | .settle _ _ | .reclaim | .cancel => true
  | _ => false

theorem Move.columns (h : Move k (some r) (some r')) :
    r'.visible = r.visible ∧ r'.parentJobID = r.parentJobID := by
  cases h <;> exact ⟨rfl, rfl⟩

theorem Move.terminal (h : Move k (some r) (some r')) (hends : r'.state.isTerminal = true) :
    r.state.isTerminal = true ∨ k.ends = true := by
  cases h with
  | claim | retry => cases hends
  | renew | clear => exact .inl hends
  | settle | reclaim | cancel => exact .inr rfl
  | adjust state scheduledAt priority now hold hnew =>
    have hstate : state.isTerminal = true := hends
    rcases JobState.isTerminal_iff.mp hstate with rfl | rfl | rfl <;> cases hnew

theorem Move.pendingChild (h : Move k (some r) (some r'))
    (hends : r'.state.isTerminal = true → r.state.isTerminal = true ∨ r.parentJobID ≠ some p)
    (hp : r.pendingChildOf p = true) : r'.pendingChildOf p = true := by
  obtain ⟨hvisible, hparent⟩ := h.columns
  simp only [JobRow.pendingChildOf, and_eq_true, decide_eq_true_eq, not_eq_true'] at hp ⊢
  simp_all

theorem Move.declares (h : Move k old new) (hk : ∀ raw plan, k ≠ .settle raw plan)
    (hnew : Declares new) : Declares old := by
  obtain ⟨r', rfl, hvisible, hkind⟩ := hnew
  cases h with
  | insert hnew => exact absurd hnew.barrierKind hkind
  | settle raw plan => exact absurd rfl (hk raw plan)
  | clear => exact absurd rfl hkind
  | _ => exact ⟨_, rfl, hvisible, hkind⟩

theorem Upkeep.pendingChild (h : Upkeep old new) (hp : PendingChild p old) :
    PendingChild p new := by
  refine h.invariant ?_ ?_ hp
  · rintro old new hmove ⟨r, rfl, -⟩
    cases hmove
  · rintro old new hmove ⟨r, rfl, hr⟩
    cases hmove with
    | clear now => exact ⟨_, rfl, hr⟩

theorem Upkeep.declares (h : Upkeep old new) (hnew : Declares new) : Declares old := by
  by_contra hold
  refine h.invariant (P := fun stored => ¬ Declares stored) ?_ ?_ hold hnew
  · exact fun hmove hold hnew => hold (hmove.declares (fun _ _ => MoveKind.noConfusion) hnew)
  · exact fun hmove hold hnew => hold (hmove.declares (fun _ _ => MoveKind.noConfusion) hnew)

theorem Db.Armed.upkeep (h : db.Armed p) (hup : ∀ id, Upkeep (db.jobs.get? id) (db'.jobs.get? id)) :
    db'.Armed p := by
  intro hdeclares
  obtain ⟨id, hp⟩ := h ((hup p).declares hdeclares)
  exact ⟨id, (hup id).pendingChild hp⟩

/-! ## What a check leaves -/

/-- After a check of `p` its barrier has fired, or can still fire. -/
theorem fireBarrierIfComplete_armed {k : ℕ} {spawnedBy : String} {fired : Bool}
    (h : fireBarrierIfComplete ctx k p spawnedBy db = .ok (db', fired)) : db'.Armed p := by
  rcases fireBarrierIfComplete_spec h with
    ⟨-, rfl, hidle⟩ | ⟨-, parent, kind, spec, row, hparent, -, -, -, -, rfl⟩
  · rintro ⟨r, hr, hvisible, hkind⟩
    rcases hidle r (Db.job?_eq_some.mpr ⟨hr, hvisible⟩) with hnone | hpending
    · exact absurd hnone hkind
    · exact hasPendingChild_iff.mp hpending
  · -- the check cleared the barrier of the parent's row
    rintro ⟨r, hr, -, hkind⟩
    obtain ⟨hget, hvisible⟩ := Db.job?_eq_some.mp hparent
    have hisJob : isJob p parent = true := by
      simp [isJob, key_of_get? hget, hvisible]
    rw [get?_update, get?_insert_of_some _ hget, Option.map_some, if_pos hisJob] at hr
    cases hr
    exact absurd rfl hkind

/-- After a round of checks every barrier that could fire still can, and so can every barrier that
was checked. -/
theorem fireEach_armed {k : ℕ} {calls : List FireCall}
    (h : fireEach ctx k parents db = .ok (db', calls))
    (hp : db.Armed p ∨ p ∈ parents.map Prod.fst) : db'.Armed p := by
  induction parents generalizing k db calls with
  | nil =>
    cases h
    simpa using hp
  | cons q parents ih =>
    obtain ⟨mid, fired, rest, hfire, hrest, rfl⟩ := fireEach_cons h
    refine ih hrest ?_
    rw [map_cons, mem_cons] at hp
    rcases hp with hp | rfl | hp
    · exact .inl (hp.upkeep (upkeep_fire hfire))
    · exact .inl (fireBarrierIfComplete_armed hfire)
    · exact .inr hp

variable {mid : Db} {id : String} {scan : Scan} {now : Time} {rows : List JobRow} {raw : RawJob}
  {result : Result} {α : Type}

/-- A transaction leaves every barrier armed that its own writes leave armed, or that it checks. -/
theorem Effect.armed {c : Commit α} (h : Effect ctx mid parents c)
    (hp : mid.Armed p ∨ p ∈ parents.map Prod.fst) : c.db.Armed p := by
  obtain ⟨k, after, hfires, hjobs⟩ := h
  have := fireEach_armed hfires hp
  unfold Db.Armed at this ⊢
  rwa [hjobs]

/-! ## The transactions -/

/-- A step whose own moves end no job keeps every barrier armed. -/
theorem step_armed_of_kind (hk : ∀ k, a.kind = some k → k.ends = false) (h : db.Armed p) :
    (step db a).Armed p := by
  have hsettle : ∀ k, a.kind = some k → ∀ raw plan, k ≠ .settle raw plan := by
    rintro k hkind raw plan rfl
    exact Bool.noConfusion (hk _ hkind)
  intro hdeclares
  have hold : Declares (db.jobs.get? p) := by
    cases step_moved db a p with
    | gone r hkind hr hstate hnew =>
      rw [hnew] at hdeclares
      obtain ⟨r, hr, -⟩ := hdeclares
      cases hr
    | moved mid hown hup =>
      have hmid := hup.declares hdeclares
      rcases hown with rfl | ⟨k, r, r', hkind, hr, rfl, hmove⟩
      · exact hmid
      · rw [hr]
        exact hmove.declares (hsettle k hkind) hmid
  obtain ⟨id, r, hr, hpending⟩ := h hold
  refine ⟨id, ?_⟩
  cases step_moved db a id with
  | gone s hkind hs hstate hnew =>
    -- a job that is deleted has ended
    simp_all [JobRow.pendingChildOf]
  | moved mid hown hup =>
    refine hup.pendingChild ?_
    rcases hown with rfl | ⟨k, s, s', hkind, hs, rfl, hmove⟩
    · exact ⟨r, hr, hpending⟩
    · obtain rfl : r = s := Option.some_inj.mp (hr.symm.trans hs)
      refine ⟨s', rfl, hmove.pendingChild (fun hends => .inl ?_) hpending⟩
      rcases hmove.terminal hends with hstate | hends
      · exact hstate
      · simp_all

/-- A transaction whose own statement moves rows, and declares no barrier, keeps every barrier armed
when it checks the parents of the jobs that it ends. -/
theorem Effect.armed_update {guard : JobRow → Bool} {f : Patch JobRow.id}
    {c : Commit α} (h : Effect ctx mid parents c) (hmid : mid.jobs = db.jobs.update guard f)
    (hmove : ∀ r ∈ db.jobs.rows, guard r = true → Move k (some r) (some (f.apply r)))
    (hk : ∀ raw plan, k ≠ .settle raw plan)
    (hparents : ∀ r ∈ db.jobs.rows, guard r = true → (f.apply r).state.isTerminal = true →
      ∀ q, r.parentJobID = some q → q ∈ parents.map Prod.fst) (harmed : db.Armed p) :
    c.db.Armed p := by
  by_cases hp : p ∈ parents.map Prod.fst
  · exact h.armed (.inr hp)
  refine h.armed (.inl fun hdeclares => ?_)
  have hget : ∀ id, mid.jobs.get? id = _ := fun id => by rw [hmid, get?_update]
  have hold : Declares (db.jobs.get? p) := by
    rw [hmid] at hdeclares
    rcases own_update hmove p with hsame | ⟨k', r, r', hk', hr, hr', hmove'⟩
    · rwa [hsame] at hdeclares
    · cases hk'
      rw [hr'] at hdeclares
      rw [hr]
      exact hmove'.declares hk hdeclares
  obtain ⟨id, r, hr, hpending⟩ := harmed hold
  refine ⟨id, ?_⟩
  rw [hget, hr, Option.map_some]
  refine ⟨_, rfl, ?_⟩
  split_ifs with hguard
  · have hr := mem_of_get? hr
    refine (hmove r hr hguard).pendingChild (fun hends => .inr fun hparent => hp ?_) hpending
    exact hparents r hr hguard hends p hparent
  · exact hpending

theorem cancelJob_armed {c : Commit Unit} (h : cancelJob ctx id db = .ok c) (harmed : db.Armed p) :
    c.db.Armed p := by
  obtain ⟨job, hjob, hstate, heffect, -⟩ := cancelJob_spec h
  refine heffect.armed_update (k := .cancel) rfl (fun r _ hguard => .cancel _ ?_)
    (fun _ _ => MoveKind.noConfusion) (fun r hr hguard _ q hq => ?_) harmed
  · rwa [lockedGuard_state hguard]
  · -- the guard matches the locked job alone
    simp only [lockedGuard, isJob, and_eq_true, decide_eq_true_eq] at hguard
    have hmem := mem_of_get? (Db.job?_eq_some.mp hjob).1
    grind [eq_of_key_eq]

/-- A parent-scoped cancel keeps every barrier armed. -/
theorem cancelByParent_armed {batchSize : ℕ} {c : Commit ScopeBatch}
    (h : scopeBatch scan ctx parentID cancelByParent batchSize db = .ok c) (harmed : db.Armed p) :
    c.db.Armed p := by
  rcases scopeBatch_spec h with ⟨hdb, -⟩ | ⟨guard, hscope, heffect, -⟩
  · rwa [hdb]
  · refine heffect.armed_update (k := .cancel) rfl (fun r hr hguard => .cancel _ ?_)
      (fun _ _ => MoveKind.noConfusion) (fun r hr hguard _ q hq => ?_) harmed
    · have := hscope r hr hguard
      simp only [inScope, and_eq_true] at this
      cases hs : r.state <;> simp [hs, cancelByParent, nonTerminalStates] at this ⊢
    · have hparent := hscope r hr hguard
      simp only [inScope, and_eq_true, decide_eq_true_eq] at hparent
      obtain rfl : q = parentID := Option.some_inj.mp (hq.symm.trans hparent.1.2)
      -- the row moved, so that the batch checks the parent
      have hmoved : (idsMatching guard db).isEmpty = false := by
        rw [eq_false_iff, ne_eq, List.isEmpty_iff]
        exact ne_nil_of_mem (mem_idsMatching.mpr ⟨r, hr, hguard, rfl⟩)
      simp [cancelByParent, hmoved]

theorem bulkCancel_armed {run : BulkRun} {ids : List String} {c : Commit (List String)}
    (h : applyBatch ctx run ids db = .ok c) (haction : run.action = .cancel) (harmed : db.Armed p) :
    c.db.Armed p := by
  rcases applyBatch_spec h with ⟨hdb, -⟩ | ⟨hdelete, -⟩ | ⟨-, parents, heffect, -, -, hparents⟩
  · rwa [hdb]
  · simp_all
  · refine heffect.armed_update (k := .cancel) rfl (fun r hr hguard => ?_)
      (fun _ _ => MoveKind.noConfusion) (fun r hr hguard _ q hq => ?_) harmed
    · rw [BulkRun.updates, haction]
      refine .cancel _ ?_
      simp only [BulkRun.guard, BulkRun.sources, haction, and_eq_true] at hguard
      grind [waitingStates, nonTerminalStates]
    · exact mem_map.mpr ⟨_, hparents haction r hr hguard q hq, rfl⟩

theorem mem_discardedParents {jobs : List ReclaimedJob} {job : ReclaimedJob} {q : String}
    (hjob : job ∈ jobs) (hstate : job.state = .discarded) (hq : job.parentJobID = some q) :
    q ∈ (discardedParents jobs).map Prod.fst := by
  unfold discardedParents sortedParents
  rw [map_map, mem_map]
  grind [mem_insertionSort, mem_dedup]

/-- A sweep's batch keeps every barrier armed. -/
theorem sweepBatch_armed {dialect : Dialect} {limit : ℕ} {c : Commit (List ReclaimedJob)}
    (h : sweepBatch dialect scan opts ctx now limit db = .ok c) (harmed : db.Armed p) :
    c.db.Armed p := by
  rcases sweepBatch_spec h with ⟨-, hdb, -⟩ | ⟨-, heffect, -⟩
  · rwa [hdb]
  · have hrows : ∀ r ∈ db.jobs.rows,
        ((expiredRows dialect scan now limit db).map JobRow.id).contains r.id = true →
        r ∈ expiredRows dialect scan now limit db := fun r hr hguard =>
      (contains_key_iff (fun s hs => (mem_expiredRows hs).1) hr).mp hguard
    refine heffect.armed_update (k := .reclaim) rfl (fun r hr hguard => .reclaim _ _ _ ?_)
      (fun _ _ => MoveKind.noConfusion) (fun r hr hguard hends q hq => ?_) harmed
    · exact JobRow.expired_state (mem_expiredRows (hrows r hr hguard)).2
    · -- the job ended, so that it was discarded
      have hjob := mem_map_of_mem (f := reclaimedJob opts db)
        ((mem_insertionSort reclaimOrder).mpr (hrows r hr hguard))
      refine mem_discardedParents hjob ?_ hq
      simp only [reclaimUpdate, reclaimedJob] at hends ⊢
      split_ifs at hends ⊢ with hspent
      · rfl
      · cases hends

/-! ## The declaration -/

/-- A follow-up that becomes a child of the job and lands: it has no unique key, or one that neither
a stored job nor an earlier follow-up holds. -/
def LandsChild (db : Db) (followUps : List FollowUp) : Prop :=
  ∃ pre fu post, followUps = pre ++ fu :: post ∧ fu.parent = true ∧ (fu.uniqueKey = "" ∨
      (∀ r ∈ db.jobs.rows, r.uniqueKey ≠ some fu.uniqueKey) ∧
      ∀ fu' ∈ pre, fu'.uniqueKey ≠ fu.uniqueKey)

/-- The ids minted for the first `n` rows of a transaction are new, and differ. -/
structure FreshIDs (ctx : Context) (n : ℕ) (db : Db) : Prop where
  unused : ∀ i < n, ∀ r ∈ db.jobs.rows, r.id ≠ ctx.newID i
  distinct : ∀ i j, i < j → j < n → ctx.newID i ≠ ctx.newID j

theorem ChildRows.split {k : ℕ} {pre post : List FollowUp} {fu : FollowUp}
    (h : ChildRows ctx parentID k (pre ++ fu :: post) rows) :
    ∃ rpre r rpost, rows = rpre ++ r :: rpost ∧ ChildRows ctx parentID k pre rpre ∧
      ChildRow ctx (k + pre.length) fu parentID r := by
  induction pre generalizing k rows with
  | nil =>
    obtain ⟨r, rpost, hr, -, rfl⟩ := forall₂_cons_left_iff.mp h
    exact ⟨[], r, rpost, rfl, .nil, hr⟩
  | cons fu' pre ih =>
    obtain ⟨r', rows', hr', hrest, rfl⟩ := forall₂_cons_left_iff.mp h
    obtain ⟨rpre, r, rpost, rfl, hpre, hr⟩ := ih hrest
    refine ⟨r' :: rpre, r, rpost, rfl, .cons hr' hpre, ?_⟩
    rwa [length_cons, ← Nat.add_assoc, Nat.add_right_comm]

/-- A fan-out with a follow-up that lands leaves a pending child. -/
theorem LandsChild.pending {fus : List FollowUp}
    (h : LandsChild db fus) (hfresh : FreshIDs ctx fus.length db)
    (hrows : ChildRows ctx parentID 0 fus rows)
    (hstored : ∀ s ∈ db'.jobs.rows, ∃ s₀ ∈ db.jobs.rows, s₀.id = s.id ∧
      s₀.uniqueKey = s.uniqueKey) :
    ∃ id, PendingChild parentID
      ((db'.jobs.insertAll uniqueClash (rows.map (JobRow.defaulted now))).get? id) := by
  obtain ⟨pre, fu, post, rfl, hparent, hkey⟩ := h
  obtain ⟨rpre, r, rpost, rfl, hpre, hr⟩ := hrows.split
  rw [map_append, map_cons]
  refine ⟨(r.defaulted now).id, r.defaulted now, get?_insertAll_landed _ ?_, ?_⟩
  · rw [length_append, length_cons] at hfresh
    -- a follow-up without a key clashes with no row
    have hclash : ∀ s : JobRow, (fu.uniqueKey ≠ "" → s.uniqueKey ≠ some fu.uniqueKey) →
        uniqueClash s (r.defaulted now) = false := by
      intro s hs
      simp only [uniqueClash, defaulted_uniqueKey, defaulted_uniqueActiveKey, hr.uniqueKey,
        hr.uniqueActiveKey, keyColumn]
      simp_all
    rintro s (hs | hs)
    · obtain ⟨s₀, hs₀, hid, hkey₀⟩ := hstored s hs
      refine ⟨?_, hclash s fun hne => ?_⟩
      · rw [← hid, defaulted_id, hr.id]
        exact hfresh.unused _ (by omega) s₀ hs₀
      · grind
    · obtain ⟨s₀, hs₀, rfl⟩ := mem_map.mp hs
      obtain ⟨⟨fu', i⟩, hfu', hchild⟩ := partner_of_mem hpre hs₀
      obtain ⟨hi, hlt, hget⟩ := mem_zipIdx hfu'
      refine ⟨?_, hclash _ fun hne => ?_⟩
      · rw [defaulted_id, defaulted_id, hchild.id, hr.id]
        exact hfresh.distinct _ _ (by omega) (by omega)
      · rw [defaulted_uniqueKey, hchild.uniqueKey]
        simp_all [keyColumn]
  · have hdeleted := (hr.toNewRow.defaulted now).deletedAt
    simp [JobRow.pendingChildOf, JobRow.visible, hdeleted, hr.state, hr.parentJobID, hparent,
      JobState.isTerminal, terminalStates]

/-- The histories of the law: runners act in dispatch's order, a finalization mints new ids, and one
that declares a barrier has a follow-up that lands as a child, or its job has a pending child. -/
structure BarriersLand (w : World) (a : Action) : Prop where
  admits : w.Admits a
  fresh : ∀ opts ctx raw runID result workErr finishedAt,
    a = .finalize opts ctx raw runID result workErr finishedAt →
    FreshIDs ctx result.followUps.length w.db
  lands : ∀ opts ctx raw runID result workErr finishedAt,
    a = .finalize opts ctx raw runID result workErr finishedAt → result.barrier.isSome = true →
    (planFinalize ctx raw result workErr finishedAt).followUps = true →
    w.db.claimHeld raw.id raw.leaseToken = true →
    LandsChild w.db result.followUps ∨ w.db.hasPendingChild raw.id = true

theorem BarriersLand.of_ne (hadmits : w.Admits a)
    (hne : ∀ opts ctx raw runID result workErr finishedAt,
      a ≠ .finalize opts ctx raw runID result workErr finishedAt) : BarriersLand w a where
  admits := hadmits
  fresh _ _ _ _ _ _ _ h := absurd h (hne _ _ _ _ _ _ _)
  lands _ _ _ _ _ _ _ h := absurd h (hne _ _ _ _ _ _ _)

/-- A finalization declares a barrier only when its result does and its follow-ups are enqueued. -/
theorem declareBarrier_some {plan : FinalizePlan} {barrier : Option (String × BarrierSpec)}
    (h : declareBarrier opts ctx raw plan result db = .ok barrier) (hsome : barrier ≠ none) :
    plan.followUps = true ∧ result.barrier.isSome = true := by
  unfold declareBarrier at h
  grind

/-- A finalization keeps every barrier armed, when its claim carries its row's parent and the
barrier that it declares has a child. -/
theorem finalize_armed {runID : String}
    {workErr : Option WorkError} {finishedAt : Time} {c : Commit FinalizeOutcome}
    (h : finalize opts ctx raw runID result workErr finishedAt db = .ok c)
    (hcarries : ∀ r ∈ db.jobs.rows, holdsClaim raw.id raw.leaseToken r = true →
      raw.parentJobID = r.parentJobID) (hlands : p = raw.id → result.barrier.isSome = true →
      (planFinalize ctx raw result workErr finishedAt).followUps = true →
      db.claimHeld raw.id raw.leaseToken = true →
      LandsChild db result.followUps ∧ FreshIDs ctx result.followUps.length db ∨
        db.hasPendingChild raw.id = true) (harmed : db.Armed p) : c.db.Armed p := by
  obtain ⟨_, barrier, mid, n, -, hbarrier, hmid, heffect, -⟩ := finalize_spec h
  by_cases hheld : db.claimHeld raw.id raw.leaseToken = true
  swap
  · obtain ⟨-, hjobs, -⟩ := finalize_superseded h (by simpa using hheld)
    simp_all [Db.Armed]
  by_cases hp : p ∈ (endedParent raw (planFinalize ctx raw result workErr finishedAt)
      (db.claimHeld raw.id raw.leaseToken)).map Prod.fst
  · exact heffect.armed (.inr hp)
  refine heffect.armed (.inl fun hdeclares => ?_)
  -- the table between the advance and the inserts, and what the inserts keep of it
  have hup : ∀ id, Upkeep
    ((advanceJob raw (planFinalize ctx raw result workErr finishedAt) finishedAt
      barrier db).jobs.get? id) (mid.jobs.get? id) := by
    intro id
    rcases enqueueChildren_spec hmid with ⟨-, rfl⟩ | ⟨-, rows, hrows, rfl⟩
    · exact .refl
    · exact upkeep_insertAll (hrows.new (ctx.clock 0)) _ id
  -- the advance keeps the pending children of `p`, whose parent it does not check
  have hkeeps : ∀ id, PendingChild p (db.jobs.get? id) → PendingChild p (mid.jobs.get? id) := by
    rintro id ⟨r, hr, hpending⟩
    refine (hup id).pendingChild ?_
    unfold advanceJob
    rw [get?_update, hr, Option.map_some]
    refine ⟨_, rfl, ?_⟩
    split_ifs with hguard
    · have hmove : Move (.settle raw (planFinalize ctx raw result workErr finishedAt)) (some r) _ :=
        .settle raw _ finishedAt barrier hguard
          (planFinalize_sound ctx raw result workErr finishedAt)
      refine hmove.pendingChild (fun hends => .inr fun hparent => hp ?_) hpending
      have hterminal :
          (planFinalize ctx raw result workErr finishedAt).jobState.isTerminal = true := hends
      grind [endedParent, mem_of_get?]
    · exact hpending
  have hdeclares := (hup p).declares hdeclares
  by_cases hnew : barrier ≠ none ∧ p = raw.id
  · -- the finalization declares the barrier
    obtain ⟨hnew, rfl⟩ := hnew
    obtain ⟨hfollowUps, hresult⟩ := declareBarrier_some hbarrier hnew
    rcases hlands rfl hresult hfollowUps hheld with ⟨hlands, hfresh⟩ | hpending
    · rcases enqueueChildren_spec hmid with ⟨hno, -⟩ | ⟨-, rows, hrows, rfl⟩
      · simp_all
      · refine hlands.pending hfresh hrows fun s hs => ?_
        obtain ⟨s₀, hs₀, rfl⟩ := mem_map.mp hs
        refine ⟨s₀, hs₀, ?_⟩
        split_ifs <;> exact ⟨rfl, rfl⟩
    · obtain ⟨id, hid⟩ := hasPendingChild_iff.mp hpending
      exact ⟨id, hkeeps id hid⟩
  · -- the barrier was declared before
    have hold : Declares (db.jobs.get? p) := by
      obtain ⟨r', hr', hvisible, hkind⟩ := hdeclares
      unfold advanceJob at hr'
      rw [get?_update] at hr'
      obtain ⟨r, hr, rfl⟩ := Option.map_eq_some_iff.mp hr'
      refine ⟨r, hr, ?_⟩
      split_ifs at hvisible hkind with hguard
      · refine ⟨hvisible, ?_⟩
        have hid : p = raw.id := by rw [← key_of_get? hr, (holdsClaim_iff.mp hguard).1]
        simp_all [jobFinalizeUpdate]
      · exact ⟨hvisible, hkind⟩
    obtain ⟨id, hid⟩ := harmed hold
    exact ⟨id, hkeeps id hid⟩

/-- A step keeps a barrier armed, when it does not declare it anew without a child that is
pending. -/
theorem step_armed (hheld : ∀ j, w.Held j) (hadmits : w.Admits a)
    (hlands : ∀ opts ctx raw runID result workErr finishedAt,
      a = .finalize opts ctx raw runID result workErr finishedAt → p = raw.id →
      result.barrier.isSome = true →
      (planFinalize ctx raw result workErr finishedAt).followUps = true →
      w.db.claimHeld raw.id raw.leaseToken = true →
      LandsChild w.db result.followUps ∧ FreshIDs ctx result.followUps.length w.db ∨
        w.db.hasPendingChild raw.id = true) (h : w.db.Armed p) : (step w.db a).Armed p := by
  cases a with
  | finalize opts ctx raw runID result workErr finishedAt =>
    refine settle_induction (P := fun db' : Db => db'.Armed p) h fun _ hexec => ?_
    obtain ⟨c, hc, rfl⟩ := map_eq_ok.mp hexec
    refine finalize_armed hc (fun r hr hguard => ?_) (hlands _ _ _ _ _ _ _ rfl) h
    -- the claim is one of the world's, so that it carries the row's parent
    obtain ⟨t, ht, rfl, -⟩ := hadmits
    obtain ⟨hid, -, -, htoken⟩ := holdsClaim_iff.mp hguard
    exact ((hheld t.raw.id).carries t ht rfl r (hid ▸ get?_key hr) htoken).parentJobID
  | sweep dialect scan opts ctx now limit =>
    refine settle_induction (P := fun db' : Db => db'.Armed p) h fun _ hexec => ?_
    obtain ⟨c, hc, rfl⟩ := map_eq_ok.mp hexec
    exact sweepBatch_armed hc h
  | cancelJob ctx id =>
    exact settle_induction (P := fun db' : Db => db'.Armed p) h fun c hc => cancelJob_armed hc h
  | scope scan ctx parentID control batchSize =>
    cases control with
    | cancel =>
      refine settle_induction (P := fun db' : Db => db'.Armed p) h fun _ hexec => ?_
      obtain ⟨c, hc, rfl⟩ := map_eq_ok.mp hexec
      exact cancelByParent_armed hc h
    | _ => exact step_armed_of_kind (by rintro k ⟨⟩; rfl) h
  | bulk ctx run ids =>
    by_cases haction : run.action = .cancel
    · refine settle_induction (P := fun db' : Db => db'.Armed p) h fun _ hexec => ?_
      obtain ⟨c, hc, rfl⟩ := map_eq_ok.mp hexec
      exact bulkCancel_armed hc haction h
    · refine step_armed_of_kind (fun k hk => ?_) h
      cases hk
      cases hbulk : run.action with
      | cancel => exact absurd hbulk haction
      | _ => rfl
  | _ => exact step_armed_of_kind (fun k hk => by cases hk <;> rfl) h

theorem step_visible (h : ∀ r, db.jobs.get? id = some r → r.visible = true) :
    ∀ r, (step db a).jobs.get? id = some r → r.visible = true := by
  refine step_keeps ?_ h
  rintro k old new - hmove hold r rfl
  cases old with
  | none =>
    cases hmove with
    | insert hnew => simp [JobRow.visible, hnew.deletedAt]
  | some s => rw [hmove.columns.1, hold s rfl]

/-! ## The law -/

/-- What every reachable world keeps: the claims are as they are held, no row is deleted softly, and
every barrier is armed. -/
structure AllArmed (w : World) : Prop where
  held : ∀ j, w.Held j
  visible : ∀ id r, w.db.jobs.get? id = some r → r.visible = true
  armed : ∀ p, w.db.Armed p

theorem AllArmed.step (h : AllArmed w) (hok : BarriersLand w a) : AllArmed (w.step a) := by
  refine ⟨fun j => (h.held j).step hok.admits, fun id => ?_, fun p => ?_⟩
  · exact step_visible (h.visible id)
  · refine step_armed h.held hok.admits
      (fun opts ctx raw runID result workErr finishedAt ha _ hbarrier
      hfollowUps hheld => ?_) (h.armed p)
    refine (hok.lands _ _ _ _ _ _ _ ha hbarrier hfollowUps hheld).imp_left fun hlands =>
      ⟨hlands, ?_⟩
    exact hok.fresh _ _ _ _ _ _ _ ha

/-- In every state of a history in which every declared barrier has a follow-up that lands, a parent
whose row declares a barrier has a child that has not ended. -/
theorem declared_barrier_can_fire (history : List Action)
    (hlegal : Legal World.step BarriersLand {} history) :
    ∀ parent ∈ (World.after {} history).db.jobs.rows, parent.barrierKind ≠ none →
      ∃ child ∈ (World.after {} history).db.jobs.rows,
        child.parentJobID = some parent.id ∧ child.state.isTerminal = false := by
  have hstart : AllArmed {} := by
    refine ⟨fun j => World.Held.start (by simp), fun id r hr => ?_, fun p ⟨r, hr, _⟩ => ?_⟩ <;>
      cases hr
  have hall : AllArmed (World.after {} history) :=
    hlegal.invariant (fun w a hok h => h.step hok) hstart
  intro parent hparent hkind
  have hget := get?_key hparent
  obtain ⟨id, child, hchild, hpending⟩ :=
    hall.armed parent.id ⟨parent, hget, hall.visible _ _ hget, hkind⟩
  simp only [JobRow.pendingChildOf, and_eq_true, decide_eq_true_eq, not_eq_true'] at hpending
  exact ⟨child, mem_of_get? hchild, hpending.1.2, hpending.2⟩

/-- A worker's result with one child, under a unique key if it is not empty, and a barrier over
it. -/
def oneChild (uniqueKey : String) : Result :=
  { followUps := [{ kind := "work", args := some .null, uniqueKey, parent := true }]
    barrier := some { kind := "gather", args := some .null } }

/-- A job is inserted and claimed, and its attempt starts. -/
def startedParent : List Action :=
  [.insert { newID := fun _ => "parent" } [{ kind := "spawn", args := .null }],
   .dequeue .sqlite {} { newID := fun _ => "token" } { queues := ["default"], lease := minute },
   .insertRunStub "run" (firstClaim "parent" "spawn" "token") 0 "" "executor"]

/-- The attempt ends with its child and its barrier. -/
def finishedParent : Action :=
  .finalize {} { newID := fun _ => "child" } (firstClaim "parent" "spawn" "token") "run"
    (oneChild "key") none 0

/-- The child's key is taken before the attempt ends. -/
def collidingChild : List Action :=
  startedParent ++ [.insert { newID := fun _ => "holder" }
       [{ kind := "other", args := .null, opts := { uniqueKey := "key" } }],
     finishedParent]

/-- A barrier is declared over a child that is never inserted: the parent has no child at all. -/
theorem barrier_without_children :
    Legal World.step World.Admits {} collidingChild ∧
      ∃ parent ∈ (World.after {} collidingChild).db.jobs.rows,
        parent.barrierKind = some "gather" ∧
        ∀ child ∈ (World.after {} collidingChild).db.jobs.rows,
          child.parentJobID ≠ some parent.id := by
  refine ⟨⟨trivial, not_mem_nil, ⟨_, mem_cons_self, rfl, rfl⟩, trivial,
    ⟨_, mem_cons_self, rfl, rfl⟩, trivial⟩, ?_⟩
  decide

/-- The barrier of a parent whose child lands can fire. -/
theorem declared_barrier_can_fire_landed :
    ∃ w, World.after {} (startedParent ++ [finishedParent]) = w ∧ w.db.jobs.rows ≠ [] ∧
      ∀ parent ∈ w.db.jobs.rows, parent.barrierKind ≠ none → ∃ child ∈ w.db.jobs.rows,
        child.parentJobID = some parent.id ∧ child.state.isTerminal = false := by
  refine ⟨_, rfl, by decide, declared_barrier_can_fire (startedParent ++ [finishedParent]) ?_⟩
  refine ⟨.of_ne trivial ?_, .of_ne not_mem_nil ?_,
    .of_ne ⟨_, mem_cons_self, rfl, rfl⟩ ?_,
    ⟨⟨_, mem_cons_self, rfl, rfl⟩, ?_, ?_⟩, trivial⟩
  · simp_all
  · simp_all
  · simp_all
  · rintro _ _ _ _ _ _ _ ⟨⟩
    refine ⟨by decide, fun i j hij hj => ?_⟩
    have : j < 1 := hj
    omega
  · rintro _ _ _ _ _ _ _ ⟨⟩ _ _ _
    exact .inl ⟨[], _, [], rfl, rfl, .inr ⟨by decide, by simp⟩⟩

end Flywheel
