import Flywheel.Barrier.Continuation
import Flywheel.Control.Plan
import Flywheel.InsertMany

/-!
# What a walk leaves

`Reworked` relates the database that a bulk walk began on to the one that it has reached, given the
jobs that it changed and the parents whose barriers it fired. A job that it did not change is as it
was but for a barrier that fired (`Became`), a job that it changed keeps its keys and its parent,
and the only new jobs are continuations of the barriers that fired. The action's write, a delete and
a barrier's check each keep the relation.
-/

namespace Flywheel

open Relational Transition Keyset List Table

/-! ## One job -/

/-- The state that an action leaves a job in. -/
def BulkAction.target : BulkAction → JobState → JobState
  | .cancel, _ => .cancelled
  | .retry, _ => .available
  | .resume, _ => .available
  | .pause, _ => .paused
  | .reschedule, state => state
  | .delete, state => state

/-- What a job has become, given the jobs that the walk changed and the barriers that it fired. -/
structure Became (action : BulkAction) (change fired : List String) (r r' : JobRow) : Prop where
  id : r'.id = r.id
  parentJobID : r'.parentJobID = r.parentJobID
  uniqueKey : r'.uniqueKey = r.uniqueKey
  uniqueActiveKey : r'.uniqueActiveKey = r.uniqueActiveKey
  deletedAt : r'.deletedAt = r.deletedAt
  state : r'.state = if r.id ∈ change then action.target r.state else r.state
  view : r.id ∉ change → r'.view = r.view
  barrierKind : r'.barrierKind = if r.id ∈ fired then none else r.barrierKind
  barrierSpec : r'.barrierSpec = if r.id ∈ fired then none else r.barrierSpec

variable {action : BulkAction} {change fired : List String} {r r' : JobRow} {db db' db'' : Db}

theorem Became.refl (action : BulkAction) (r : JobRow) : Became action [] [] r r := by
  constructor <;> simp

theorem Became.visible (h : Became action change fired r r') : r'.visible = r.visible := by
  rw [JobRow.visible, JobRow.visible, h.deletedAt]

theorem Became.state_of_not_mem (h : Became action change fired r r') (hid : r.id ∉ change) :
    r'.state = r.state := by
  rw [h.state, if_neg hid]

variable {new : List String} {p : String} {run : BulkRun} {spawnedBy : String}

theorem Became.leave (h : Became action change fired r r') (hid : r.id ∉ new) :
    Became action (change ++ new) fired r r' := by
  have hmem : r.id ∈ change ++ new ↔ r.id ∈ change := by simp [hid]
  refine { h with state := ?_, view := fun hnot => h.view fun hin => hnot (hmem.mpr hin) }
  rw [h.state]
  exact if_congr hmem.symm rfl rfl

/-- The columns that no action writes, and the state that it writes. -/
theorem BulkRun.updates_apply (run : BulkRun) (slots : List String) (now : Time) (r : JobRow)
    (h : run.action ≠ .delete) :
    ((run.updates slots now).apply r).parentJobID = r.parentJobID ∧
      ((run.updates slots now).apply r).uniqueKey = r.uniqueKey ∧
      ((run.updates slots now).apply r).uniqueActiveKey = r.uniqueActiveKey ∧
      ((run.updates slots now).apply r).deletedAt = r.deletedAt ∧
      ((run.updates slots now).apply r).barrierKind = r.barrierKind ∧
      ((run.updates slots now).apply r).barrierSpec = r.barrierSpec ∧
      ((run.updates slots now).apply r).state = run.action.target r.state := by
  rw [BulkRun.updates]
  cases haction : run.action with
  | delete => exact absurd haction h
  | _ => exact ⟨rfl, rfl, rfl, rfl, rfl, rfl, rfl⟩

theorem Became.write (h : Became run.action change fired r r')
    (hdelete : run.action ≠ .delete) (hid : r.id ∈ new) (hnot : r.id ∉ change) (slots : List String)
    (now : Time) :
    Became run.action (change ++ new) fired r ((run.updates slots now).apply r') := by
  obtain ⟨hparent, hkey, hactive, hdeleted, hkind, hspec, hstate⟩ :=
    run.updates_apply slots now r' hdelete
  have hin : r.id ∈ change ++ new := mem_append_right _ hid
  refine ⟨((run.updates slots now).key_apply r').trans h.id, hparent.trans h.parentJobID,
    hkey.trans h.uniqueKey, hactive.trans h.uniqueActiveKey, hdeleted.trans h.deletedAt, ?_,
    fun hout => absurd hin hout, hkind.trans h.barrierKind, hspec.trans h.barrierSpec⟩
  rw [hstate, h.state_of_not_mem hnot, if_pos hin]

theorem Became.clear (h : Became action change fired r r') (now : Time)
    (hparent : r.id = p → r'.visible = true) :
    Became action change (fired ++ [p]) r
      (if isJob p r' then (clearBarrier now).apply r' else r') := by
  by_cases hp : r.id = p
  · have hjob : isJob p r' = true := by
      rw [isJob, Bool.and_eq_true, decide_eq_true_iff]
      exact ⟨h.id.trans hp, hparent hp⟩
    have hin : r.id ∈ fired ++ [p] := by simp [hp]
    rw [if_pos hjob]
    refine ⟨h.id, h.parentJobID, h.uniqueKey, h.uniqueActiveKey, h.deletedAt, h.state,
      h.view, ?_, ?_⟩
    · rw [if_pos hin]
      rfl
    · rw [if_pos hin]
      rfl
  · have hjob : isJob p r' = false := by
      rw [isJob, h.id, decide_eq_false hp, Bool.false_and]
    have hmem : r.id ∈ fired ++ [p] ↔ r.id ∈ fired := by simp [hp]
    rw [hjob, if_neg Bool.false_ne_true]
    refine { h with barrierKind := ?_, barrierSpec := ?_ }
    · rw [h.barrierKind]
      exact if_congr hmem.symm rfl rfl
    · rw [h.barrierSpec]
      exact if_congr hmem.symm rfl rfl

/-! ## The database -/

/-- A parent's continuation that waits. -/
structure Enqueued (p : String) (r : JobRow) : Prop where
  uniqueKey : r.uniqueKey = some (barrierKey p)
  parentJobID : r.parentJobID = some p
  state : r.state = .available
  barrierKind : r.barrierKind = none

/-- What a walk has made of a database. A delete leaves no row of what it changed. -/
structure Reworked (action : BulkAction) (change fired : List String) (db db' : Db) : Prop where
  kept : ∀ r ∈ db.jobs.rows, (action = .delete → r.id ∉ change) →
    ∃ r' ∈ db'.jobs.rows, Became action change fired r r'
  origin : ∀ r' ∈ db'.jobs.rows,
    (∃ r ∈ db.jobs.rows, (action = .delete → r.id ∉ change) ∧ Became action change fired r r') ∨
      (∀ r ∈ db.jobs.rows, r.id ≠ r'.id) ∧ ∃ p ∈ fired, Enqueued p r'
  runs : ∀ r ∈ db.jobs.rows, r.id ∉ change → SameRuns r.id db db'
  index : action = .retry → activeKeysUnique db'.jobs = true

theorem Reworked.refl (action : BulkAction) (db : Db)
    (h : action = .retry → activeKeysUnique db.jobs = true) : Reworked action [] [] db db where
  kept r hr _ := ⟨r, hr, Became.refl action r⟩
  origin r' hr' := .inl ⟨r', hr', fun _ => not_mem_nil, Became.refl action r'⟩
  runs r _ _ := SameRuns.refl r.id db
  index := h

theorem Reworked.congr (h : Reworked action change fired db db') (hjobs : db''.jobs = db'.jobs)
    (hruns : db''.runs = db'.runs) : Reworked action change fired db db'' where
  kept := by rw [hjobs]; exact h.kept
  origin := by rw [hjobs]; exact h.origin
  runs r hr hid run hrun := by rw [hruns]; exact h.runs r hr hid run hrun
  index := by rw [hjobs]; exact h.index

/-- **The action's update**, of stored jobs that it had not changed. -/
theorem Reworked.write (h : Reworked run.action change fired db db')
    (hdelete : run.action ≠ .delete) {guard : JobRow → Bool} {slots : List String} {now : Time}
    (hguard : ∀ r' ∈ db'.jobs.rows, guard r' = decide (r'.id ∈ new))
    (hnew : ∀ id ∈ new, (∃ r ∈ db.jobs.rows, r.id = id) ∧ id ∉ change)
    (hindex : run.action = .retry →
      activeKeysUnique (db'.jobs.update guard (run.updates slots now)) = true) :
    Reworked run.action (change ++ new) fired db
      { db' with jobs := db'.jobs.update guard (run.updates slots now) } := by
  have hstep : ∀ {r r'}, r' ∈ db'.jobs.rows → Became run.action change fired r r' →
      Became run.action (change ++ new) fired r
        (if guard r' then (run.updates slots now).apply r' else r') := by
    intro r r' hr' hbecame
    rw [hguard r' hr', hbecame.id]
    by_cases hid : r.id ∈ new
    · rw [decide_eq_true hid, if_pos rfl]
      exact hbecame.write hdelete hid (hnew _ hid).2 slots now
    · rw [decide_eq_false hid, if_neg Bool.false_ne_true]
      exact hbecame.leave hid
  refine ⟨fun r hr _ => ?_, fun r'' hr'' => ?_, fun r hr hid => ?_, hindex⟩
  · obtain ⟨r', hr', hbecame⟩ := h.kept r hr fun heq => absurd heq hdelete
    exact ⟨_, mem_map_of_mem hr', hstep hr' hbecame⟩
  · obtain ⟨r', hr', rfl⟩ := mem_map.mp hr''
    rcases h.origin r' hr' with ⟨r, hr, -, hbecame⟩ | ⟨hfresh, p, hp, henqueued⟩
    · exact .inl ⟨r, hr, fun heq => absurd heq hdelete, hstep hr' hbecame⟩
    · -- a continuation is not among the jobs that the update names
      grind
  · exact h.runs r hr fun hin => hid (mem_append_left _ hin)

/-- **A delete** of stored jobs. -/
theorem Reworked.delete (h : Reworked .delete change [] db db') (new : List String) :
    Reworked .delete (change ++ new) [] db (deleteJobRows new db') := by
  have hstored : ∀ {r'}, r' ∈ (deleteJobRows new db').jobs.rows ↔ r' ∈ db'.jobs.rows ∧
    r'.id ∉ new := by
    intro r'
    change r' ∈ db'.jobs.rows.filter _ ↔ _
    rw [mem_filter, Bool.not_eq_true', decide_eq_false_iff_not]
  refine ⟨fun r hr hid => ?_, fun r' hr' => ?_, fun r hr hid run hrun => ?_, nofun⟩
  · have hid := hid rfl
    rw [mem_append, not_or] at hid
    obtain ⟨r', hr', hbecame⟩ := h.kept r hr fun _ => hid.1
    exact ⟨r', hstored.mpr ⟨hr', by rw [hbecame.id]; exact hid.2⟩, hbecame.leave hid.2⟩
  · obtain ⟨hr', hid⟩ := hstored.mp hr'
    rcases h.origin r' hr' with ⟨r, hr, hnot, hbecame⟩ | ⟨-, p, hp, -⟩
    · rw [hbecame.id] at hid
      refine .inl ⟨r, hr, fun _ => ?_, hbecame.leave hid⟩
      simp_all
    · cases hp
  · rw [mem_append, not_or] at hid
    rw [← h.runs r hr hid.1 run hrun]
    change run ∈ db'.runs.rows.filter _ ↔ _
    simp_all

/-! ## Barriers -/

theorem Became.pendingChildOf (h : Became action change fired r r') (hid : r.id ∉ change)
    (p : String) : r'.pendingChildOf p = r.pendingChildOf p := by
  rw [JobRow.pendingChildOf, JobRow.pendingChildOf, h.visible, h.parentJobID,
    h.state_of_not_mem hid]

/-- The jobs that a cancel changed are pending no more, and it adds no child of a parent whose
barrier did not fire. -/
theorem Reworked.hasPendingChild (h : Reworked .cancel change fired db db') (hp : p ∉ fired) :
    db'.hasPendingChild p = true ↔
      ∃ r ∈ db.jobs.rows, r.pendingChildOf p = true ∧ r.id ∉ change := by
  rw [Db.hasPendingChild, any_eq_true]
  constructor
  · rintro ⟨r', hr', hpending⟩
    rcases h.origin r' hr' with ⟨r, hr, -, hbecame⟩ | ⟨-, q, hq, henqueued⟩
    · have hid : r.id ∉ change := by
        intro hin
        have hstate : r'.state = .cancelled := by rw [hbecame.state, if_pos hin]; rfl
        simp_all [JobRow.pendingChildOf, JobState.isTerminal, terminalStates]
      exact ⟨r, hr, hbecame.pendingChildOf hid p ▸ hpending, hid⟩
    · simp only [JobRow.pendingChildOf, Bool.and_eq_true, decide_eq_true_eq] at hpending
      have hparent := henqueued.parentJobID.symm.trans hpending.1.2
      exact absurd (Option.some_inj.mp hparent ▸ hq) hp
  · rintro ⟨r, hr, hpending, hid⟩
    obtain ⟨r', hr', hbecame⟩ := h.kept r hr (by simp)
    exact ⟨r', hr', (hbecame.pendingChildOf hid p).trans hpending⟩

/-- The row that a check of a parent would find declares a barrier whose generation has ended. -/
def Db.DueBarrier (db : Db) (p : String) : Prop :=
  ∃ parent kind, db.job? p = some parent ∧ parent.barrierKind = some kind ∧
    db.hasPendingChild p = false

/-- **A check fires where the plan says.** -/
theorem Reworked.declares_iff (h : Reworked .cancel change fired db db') (p : String) :
    db'.DueBarrier p ↔ (completes db change p && !fired.contains p) = true := by
  rw [Bool.and_eq_true, Bool.not_eq_true', ← Bool.not_eq_true, contains_iff_mem, completes_iff]
  constructor
  · rintro ⟨parent, kind, hjob, hkind, hnone⟩
    obtain ⟨hget, hvisible⟩ := Db.job?_eq_some.mp hjob
    have hid := key_of_get? hget
    rcases h.origin parent (mem_of_get? hget) with ⟨r, hr, -, hbecame⟩ | ⟨-, q, -, henqueued⟩
    · have hrid : r.id = p := hbecame.id.symm.trans hid
      have hp : p ∉ fired := by
        intro hin
        rw [hbecame.barrierKind, if_pos (hrid ▸ hin)] at hkind
        cases hkind
      refine ⟨⟨⟨r, kind, Db.job?_eq_some.mpr ⟨?_, hbecame.visible ▸ hvisible⟩, ?_⟩, ?_⟩, hp⟩
      · rw [← hrid]
        exact get?_key hr
      · rwa [hbecame.barrierKind, if_neg (hrid ▸ hp)] at hkind
      · intro s hs hpending
        by_contra hout
        rw [(h.hasPendingChild hp).mpr ⟨s, hs, hpending, hout⟩] at hnone
        cases hnone
    · rw [henqueued.barrierKind] at hkind
      cases hkind
  · rintro ⟨⟨⟨r, kind, hjob, hkind⟩, hall⟩, hp⟩
    obtain ⟨hget, hvisible⟩ := Db.job?_eq_some.mp hjob
    obtain ⟨r', hr', hbecame⟩ := h.kept r (mem_of_get? hget) nofun
    have hid := key_of_get? hget
    refine ⟨r', kind, Db.job?_eq_some.mpr ⟨?_, hbecame.visible.trans hvisible⟩, ?_, ?_⟩
    · rw [← hid, ← hbecame.id]
      exact get?_key hr'
    · rwa [hbecame.barrierKind, if_neg (hid ▸ hp)]
    · rw [← Bool.not_eq_true, h.hasPendingChild hp]
      simp_all

/-- The continuation of a parent's barrier can be built from the stored spec. -/
def Buildable (ctx : Context) (db : Db) (p : String) : Prop :=
  ∃ parent kind spec row, db.job? p = some parent ∧ parent.barrierKind = some kind ∧
    parent.barrierSpec = some spec ∧ kind ≠ "" ∧ continuationRow ctx 0 kind spec p "" = .ok row

theorem continuationRow_builds {ctx ctx' : Context} (hclient : SameClient ctx ctx') {k : ℕ} (k' : ℕ)
    {kind : String} {spec : BarrierSpec} {row : JobRow}
    (h : continuationRow ctx k kind spec p spawnedBy = .ok row) :
    ∃ row', continuationRow ctx' k' kind spec p spawnedBy = .ok row' := by
  obtain ⟨payload, hpayload, h⟩ := bind_eq_ok.mp h
  obtain ⟨st, hst, -⟩ := bind_eq_ok.mp h
  refine ⟨_, bind_eq_ok.mpr ⟨payload, hpayload, bind_eq_ok.mpr ⟨st, ?_, rfl⟩⟩⟩
  simp only [stampRow, metadataJSON, hclient.insertHook, hclient.requestID, hclient.jsonBytes]
    at hst ⊢
  exact hst

/-- While the parent's barrier has not fired, it is as the walk found it. -/
theorem Reworked.buildable_iff (h : Reworked action change fired db db')
    (haction : action ≠ .delete) (ctx : Context) (hp : p ∉ fired) :
    Buildable ctx db' p ↔ Buildable ctx db p := by
  constructor
  · rintro ⟨parent, kind, spec, row, hjob, hkind, hspec, hne, hrow⟩
    obtain ⟨hget, hvisible⟩ := Db.job?_eq_some.mp hjob
    rcases h.origin parent (mem_of_get? hget) with ⟨r, hr, -, hbecame⟩ | ⟨-, q, -, henqueued⟩
    · have hid : r.id = p := hbecame.id.symm.trans (key_of_get? hget)
      rw [hbecame.barrierKind, if_neg (hid ▸ hp)] at hkind
      rw [hbecame.barrierSpec, if_neg (hid ▸ hp)] at hspec
      refine ⟨r, kind, spec, row, Db.job?_eq_some.mpr ⟨?_, hbecame.visible ▸ hvisible⟩,
        hkind, hspec, hne, hrow⟩
      rw [← hid]
      exact get?_key hr
    · rw [henqueued.barrierKind] at hkind
      cases hkind
  · rintro ⟨r, kind, spec, row, hjob, hkind, hspec, hne, hrow⟩
    obtain ⟨hget, hvisible⟩ := Db.job?_eq_some.mp hjob
    obtain ⟨r', hr', hbecame⟩ := h.kept r (mem_of_get? hget) fun heq => absurd heq haction
    have hid := key_of_get? hget
    refine ⟨r', kind, spec, row, Db.job?_eq_some.mpr ⟨?_, hbecame.visible.trans hvisible⟩, ?_, ?_,
      hne, hrow⟩
    · rw [← hid, ← hbecame.id]
      exact get?_key hr'
    · rwa [hbecame.barrierKind, if_neg (hid ▸ hp)]
    · rwa [hbecame.barrierSpec, if_neg (hid ▸ hp)]

/-! ## A round of checks -/

section Fire

variable {ctx : Context} {k : ℕ} {p : String}

theorem fireBarrierIfComplete_idle (h : ¬db.DueBarrier p) (ctx : Context) (k : ℕ)
    (spawnedBy : String) : fireBarrierIfComplete ctx k p spawnedBy db = .ok (db, false) := by
  rw [fireBarrierIfComplete]
  cases hjob : db.job? p with
  | none => rfl
  | some parent =>
    dsimp only
    cases hkind : parent.barrierKind with
    | none => rfl
    | some kind =>
      cases hpending : db.hasPendingChild p with
      | true => rfl
      | false => exact absurd ⟨parent, kind, hjob, hkind, hpending⟩ h

/-- A check of a generation that has ended fires exactly if the continuation can be built. -/
theorem fireBarrierIfComplete_fires (h : db.DueBarrier p) (ctx : Context) (k : ℕ) :
    (∃ db', fireBarrierIfComplete ctx k p "" db = .ok (db', true)) ↔ Buildable ctx db p := by
  obtain ⟨parent, kind, hjob, hkind, hpending⟩ := h
  constructor
  · rintro ⟨db', hfire⟩
    rw [fireBarrierIfComplete, hjob] at hfire
    dsimp only at hfire
    rw [hkind] at hfire
    dsimp only at hfire
    rw [hpending, if_neg Bool.false_ne_true] at hfire
    obtain ⟨spec, hspec, hfire⟩ := bind_eq_ok.mp hfire
    obtain ⟨row, hrow, hfire⟩ := bind_eq_ok.mp hfire
    obtain ⟨⟨db₁, landed⟩, hinsert, -⟩ := bind_eq_ok.mp hfire
    have hspec' : parent.barrierSpec = some spec := by
      cases hs : parent.barrierSpec with
      | none => simp [hs] at hspec
      | some s => simp only [hs, Option.elim_some, Except.ok.injEq] at hspec; rw [hspec]
    obtain ⟨row', hrow'⟩ := continuationRow_builds ⟨rfl, rfl, rfl, rfl⟩ 0 hrow
    refine ⟨parent, kind, spec, row', hjob, hkind, hspec', ?_, hrow'⟩
    rintro rfl
    have hempty : row.kind = "" := (buildChildRow_spec hrow).kind
    simp [conflictInsertChunk, insertSkippingConflicts, hempty, bind, Except.bind] at hinsert
  · rintro ⟨parent', kind', spec, row, hjob', hkind', hspec, hne, hrow⟩
    obtain rfl : parent = parent' := Option.some_inj.mp (hjob.symm.trans hjob')
    obtain rfl : kind = kind' := Option.some_inj.mp (hkind.symm.trans hkind')
    obtain ⟨row, hrow⟩ := continuationRow_builds (⟨rfl, rfl, rfl, rfl⟩ : SameClient ctx ctx) k hrow
    have hnamed : row.kind ≠ "" := fun h => hne ((buildChildRow_spec hrow).kind.symm.trans h)
    obtain ⟨inserted, hinsert⟩ : ∃ x, conflictInsertChunk (ctx.clock k) [row] db = .ok x := by
      simp_all [conflictInsertChunk, insertSkippingConflicts]
    rw [fireBarrierIfComplete, hjob]
    dsimp only
    rw [hkind]
    dsimp only
    rw [hpending, if_neg Bool.false_ne_true, hspec]
    exact ⟨_, bind_eq_ok.mpr ⟨spec, rfl, bind_eq_ok.mpr ⟨row, hrow,
      bind_eq_ok.mpr ⟨inserted, hinsert, rfl⟩⟩⟩⟩

/-- **A check that fires** adds at most the continuation, and clears the barrier. -/
theorem Reworked.fire (h : Reworked .cancel change fired db db')
    (hfire : fireBarrierIfComplete ctx k p "" db' = .ok (db'', true)) :
    Reworked .cancel change (fired ++ [p]) db db'' := by
  rcases fireBarrierIfComplete_spec hfire with
    ⟨hno, -⟩ | ⟨-, parent, kind, spec, row, hjob, hkind, -, -, hrow, rfl⟩
  · cases hno
  obtain ⟨hget, hvisible⟩ := Db.job?_eq_some.mp hjob
  obtain ⟨hnewrow, -, hkey, -⟩ := continuationRow_spec hrow
  have hparent : ∀ {r'}, r' ∈ db'.jobs.rows → r'.id = p → r' = parent := fun hr' hid =>
    eq_of_key_eq hr' (mem_of_get? hget) (hid.trans (key_of_get? hget).symm)
  have hclear : ∀ {r r'}, r' ∈ db'.jobs.rows → Became .cancel change fired r r' →
      Became .cancel change (fired ++ [p]) r
        (if isJob p r' then (clearBarrier (ctx.clock k)).apply r' else r') :=
    fun hr' hbecame => hbecame.clear _ fun hid => hparent hr' (hbecame.id.trans hid) ▸ hvisible
  refine ⟨fun r hr hid => ?_, fun r'' hr'' => ?_, h.runs, by simp⟩
  · obtain ⟨r', hr', hbecame⟩ := h.kept r hr hid
    have hin := mem_of_get? (get?_insert_of_some uniqueClash
      (r := row.defaulted (ctx.clock k)) (get?_key hr'))
    exact ⟨_, mem_map_of_mem hin, hclear hr' hbecame⟩
  · obtain ⟨r', hr', rfl⟩ := mem_map.mp hr''
    rcases get?_insert_cases _ (get?_key hr') with hold | ⟨hnone, rfl, -, -⟩
    · have hr' := mem_of_get? hold
      rcases h.origin r' hr' with ⟨r, hr, hnot, hbecame⟩ | ⟨hfresh, q, hq, henqueued⟩
      · exact .inl ⟨r, hr, hnot, hclear hr' hbecame⟩
      · -- an earlier continuation declares no barrier, so that it is not the parent
        have hother : isJob p r' = false := by
          rw [← Bool.not_eq_true, isJob, Bool.and_eq_true, decide_eq_true_iff]
          rintro ⟨hid, -⟩
          rw [← hparent hr' hid, henqueued.barrierKind] at hkind
          cases hkind
        grind
    · have hother : isJob p (row.defaulted (ctx.clock k)) = false := by
        rw [isJob, decide_eq_false, Bool.false_and]
        grind
      rw [hother, if_neg Bool.false_ne_true]
      refine .inr ⟨fun r hr hid => ?_, p, by simp, hkey, (buildChildRow_spec hrow).parentJobID,
        hnewrow.state, hnewrow.barrierKind⟩
      obtain ⟨s, hs, hbecame⟩ := h.kept r hr (by simp)
      exact get?_eq_none_iff.mp hnone s hs (hbecame.id.trans hid)

theorem fireBarrierIfComplete_grows {b : Bool}
    (h : fireBarrierIfComplete ctx k p spawnedBy db = .ok (db', b)) (q : String → Bool) :
    (db'.jobs.rows.map JobRow.id).countP q ≤ (db.jobs.rows.map JobRow.id).countP q + b.toNat := by
  rcases fireBarrierIfComplete_spec h with
    ⟨rfl, rfl, -⟩ | ⟨rfl, parent, kind, spec, row, -, -, -, -, -, rfl⟩
  · exact le_rfl
  · have hids : ((db.jobs.insert uniqueClash (row.defaulted (ctx.clock k))).update (isJob p)
        (clearBarrier (ctx.clock k))).rows.map JobRow.id =
          (db.jobs.insert uniqueClash (row.defaulted (ctx.clock k))).rows.map JobRow.id := by
      change (List.map _ _).map _ = _
      rw [map_map]
      refine map_congr_left fun r _ => ?_
      dsimp only [Function.comp_apply]
      split_ifs <;> rfl
    rw [hids, Table.insert]
    split_ifs
    · exact Nat.le_add_right _ _
    · grind

variable {parents : List String}

theorem firing_cons_of_fires (h : (completes db change p && !fired.contains p) = true)
    (hp : p ∉ parents) :
    firing db change fired (p :: parents) = p :: firing db change (fired ++ [p]) parents := by
  rw [firing, filter_cons, if_pos h]
  refine congrArg (p :: ·) (filter_congr fun q hq => ?_)
  grind

/-- **A round of checks** fires as the plan says, if every continuation can be built. -/
theorem Reworked.round_fires (h : Reworked .cancel change fired db db') (hnodup : parents.Nodup)
    (ctx : Context) (k : ℕ) (hbuild : ∀ p ∈ firing db change fired parents, Buildable ctx db p) :
    ∃ db'' calls, fireEach ctx k (parents.map fun p => (p, "")) db' = .ok (db'', calls) ∧
      (calls.filter FireCall.fired).map FireCall.parentID = firing db change fired parents ∧
      Reworked .cancel change (fired ++ firing db change fired parents) db db'' ∧
      ∀ q : String → Bool, (db''.jobs.rows.map JobRow.id).countP q ≤
        (db'.jobs.rows.map JobRow.id).countP q + (firing db change fired parents).length := by
  induction parents generalizing k fired db' with
  | nil =>
    refine ⟨db', [], rfl, rfl, ?_, fun q => Nat.le_add_right _ _⟩
    change Reworked .cancel change (fired ++ []) db db'
    rwa [append_nil]
  | cons p parents ih =>
    obtain ⟨hp, hnodup⟩ := nodup_cons.mp hnodup
    cases hfires : completes db change p && !fired.contains p with
    | false =>
      have hidle := fireBarrierIfComplete_idle (fun hdeclares => by
        rw [h.declares_iff p, hfires] at hdeclares
        cases hdeclares) ctx k ""
      have hsame : firing db change fired (p :: parents) = firing db change fired parents := by
        rw [firing, filter_cons, hfires, if_neg Bool.false_ne_true, firing]
      rw [hsame] at hbuild ⊢
      obtain ⟨db'', calls, hrest, hcalls, hwalked, hgrows⟩ := ih h hnodup (k + 1) hbuild
      refine ⟨db'', _, bind_eq_ok.mpr ⟨_, bind_eq_ok.mpr ⟨_, hidle, rfl⟩,
        bind_eq_ok.mpr ⟨_, hrest, rfl⟩⟩, hcalls, hwalked, hgrows⟩
    | true =>
      rw [firing_cons_of_fires hfires hp] at hbuild ⊢
      have hnot : p ∉ fired := by
        simp_all
      obtain ⟨db₁, hfire⟩ := (fireBarrierIfComplete_fires ((h.declares_iff p).mpr hfires) ctx k).mpr
        ((h.buildable_iff (by decide) ctx hnot).mpr (hbuild p mem_cons_self))
      obtain ⟨db'', calls, hrest, hcalls, hwalked, hgrows⟩ := ih (h.fire hfire) hnodup (k + 1)
        fun q hq => hbuild q (mem_cons_of_mem p hq)
      refine ⟨db'', _, bind_eq_ok.mpr ⟨_, bind_eq_ok.mpr ⟨_, hfire, rfl⟩,
        bind_eq_ok.mpr ⟨_, hrest, rfl⟩⟩, ?_, ?_, fun q => ?_⟩
      · rw [filter_cons_of_pos rfl, map_cons, hcalls]
      · rwa [append_assoc, singleton_append] at hwalked
      · have hone := fireBarrierIfComplete_grows hfire q
        grind

/-- A round of checks fails on a continuation that cannot be built. -/
theorem Reworked.round_fails (h : Reworked .cancel change fired db db') (hnodup : parents.Nodup)
    (ctx : Context) (k : ℕ) (hbuild : ∃ p ∈ firing db change fired parents, ¬Buildable ctx db p) :
    ∃ e, fireEach ctx k (parents.map fun p => (p, "")) db' = .error e := by
  cases hresult : fireEach ctx k (parents.map fun p => (p, "")) db' with
  | error e => exact ⟨e, rfl⟩
  | ok out =>
    exfalso
    induction parents generalizing k fired db' out with
    | nil =>
      obtain ⟨p, hp, -⟩ := hbuild
      cases hp
    | cons p parents ih =>
      obtain ⟨hp, hnodup⟩ := nodup_cons.mp hnodup
      obtain ⟨⟨db₁, call⟩, hone, hresult⟩ := bind_eq_ok.mp hresult
      obtain ⟨rest, hrest, -⟩ := bind_eq_ok.mp hresult
      obtain ⟨⟨db₁', fires⟩, hfire, hone⟩ := bind_eq_ok.mp hone
      cases hone
      cases hfires : completes db change p && !fired.contains p with
      | false =>
        rw [fireBarrierIfComplete_idle (fun hdeclares => by
          rw [h.declares_iff p, hfires] at hdeclares
          cases hdeclares) ctx k ""] at hfire
        cases hfire
        have hsame : firing db change fired (p :: parents) = firing db change fired parents := by
          rw [firing, filter_cons, hfires, if_neg Bool.false_ne_true, firing]
        grind
      | true =>
        have hdeclares := (h.declares_iff p).mpr hfires
        have hnot : p ∉ fired := by
          simp_all
        -- the check of this parent fired, so that its continuation can be built
        have hfired : fires = true := by
          rcases fireBarrierIfComplete_spec hfire with ⟨-, -, hnone⟩ | ⟨hyes, -⟩
          · obtain ⟨parent, kind, hjob, hkind, hpending⟩ := hdeclares
            simp_all
          · exact hyes
        rw [hfired] at hfire
        have hbuilt := (h.buildable_iff (by decide) ctx hnot).mp
          ((fireBarrierIfComplete_fires hdeclares ctx k).mp ⟨_, hfire⟩)
        rw [firing_cons_of_fires hfires hp] at hbuild
        obtain ⟨q, hq, hunbuilt⟩ := hbuild
        rcases mem_cons.mp hq with rfl | hq
        · exact hunbuilt hbuilt
        · exact ih (h.fire hfire) hnodup (k + 1) ⟨q, hq, hunbuilt⟩ _ hrest

end Fire

end Flywheel
