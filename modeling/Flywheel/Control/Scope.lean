import Flywheel.Control.Walk
import Flywheel.Library.Lists

/-!
# The parent-scoped controls

PauseByParent, ResumeByParent and CancelByParent run their batches (`scopeBatch`) without a cursor:
a moved child leaves the selection, and a batch that fires the parent's barrier is the last, so that
the continuation is never selected. Between two batches the table is the first one with some of its
eligible children moved (`Scoping`). What ends a call early is the context, the host's hook, or a
barrier whose continuation cannot be built, which rolls the last batch of a cancel back.
-/

namespace Flywheel

open Relational Transition List Table

/-! ## The loop -/

/-- What ended a scoped control before its last batch. -/
inductive ScopeError where
  | cancelled
  | batch (e : TxError)
deriving DecidableEq

/-- A scoped control between two batches. -/
structure ScopeRun where
  db : Db
  result : ScopeResult

/-- A scoped control that ended. -/
structure ScopeEnd extends ScopeRun where
  error : Option ScopeError

/-- The context of a batch: that of the call, and its first reading of the clock, with the batch's
own later readings and minted ids. -/
def Context.within (call batch : Context) : Context :=
  { call with
    clock := fun k => if k = 0 then call.clock 0 else batch.clock k
    newID := batch.newID
    auditID := batch.auditID }

/-- A call after a batch that committed. -/
def ScopeRun.next (s : ScopeRun) (c : Commit ScopeBatch) : ScopeRun where
  db := c.db
  result := { s.result with
    changed := s.result.changed + c.out.changed.length
    batches := s.result.batches + if c.out.changed = [] then 0 else 1 }

/-- One round of the loop: the context's check, then the batch. The call ends, or goes on. -/
def scopeRound (scan : Scan) (ctx : Context) (dead : Bool) (parentID : String) (t : ScopeTransition)
    (size : ℕ) (s : ScopeRun) : ScopeEnd ⊕ ScopeRun :=
  if dead then .inl { s with error := some .cancelled }
  else match scopeBatch scan ctx parentID t size s.db with
    | .error e => .inl { s with error := some (.batch e) }
    | .ok c =>
      -- another batch after a fire would select the continuation
      if c.out.fired || decide (c.out.selected < size) then .inl { s.next c with error := none }
      else .inr (s.next c)

/-- The loop, for at most `fuel` rounds. -/
def scopeLoop (scan : ℕ → Scan) (call : ℕ → Context) (dead : ℕ → Bool) (parentID : String)
    (t : ScopeTransition) (size : ℕ) : ℕ → ℕ → ScopeRun → Option ScopeEnd
  | 0, _, _ => none
  | fuel + 1, i, s =>
    match scopeRound (scan i) ((call 0).within (call i)) (dead i) parentID t size s with
    | .inl e => some e
    | .inr s => scopeLoop scan call dead parentID t size fuel (i + 1) s

/-- The children of a parent that are in one of these states. -/
def countChildren (parentID : String) (states : List JobState) (db : Db) : ℕ :=
  db.jobs.rows.countP (inScope parentID states)

/-- `scopeByParent`: the actor, the context's check, the counts of what is left alone, then the
loop. `ScopeOpts` has the batch size of a replay's options. -/
def scopeByParent (scan : ℕ → Scan) (call : ℕ → Context) (entryDead : Bool) (dead : ℕ → Bool)
    (parentID : String) (t : ScopeTransition) (requested : ℤ) (fuel : ℕ) (db : Db) :
    Option ScopeEnd :=
  match resolveActor (call 0) with
  | .error e => some { db, result := {}, error := some (.batch e) }
  | .ok _ =>
    if entryDead then some { db, result := {}, error := some .cancelled }
    else
      scopeLoop scan call dead parentID t (replayBatchSize requested) fuel 0
        { db
          result :=
            { skippedRunning := countChildren parentID [.running] db
              skippedTerminal := countChildren parentID terminalStates db } }

/-! ## One batch -/

variable {scan : Scan} {ctx : Context} {parentID : String} {control : ScopeControl}
  {size : ℕ} {db : Db}
  {r : JobRow}

theorem ScopeControl.leaves (control : ScopeControl) (parentID : String) (now : Time) (r : JobRow) :
    inScope parentID control.transition.source ((control.transition.updates now).apply r) =
      false := by
  cases control <;> simp [inScope, ScopeControl.transition, pauseByParent, resumeByParent,
    cancelByParent, stateUpdate, cancelUpdates, claimableStates]

/-- The guard of a batch's update. -/
def picks (scan : Scan) (parentID : String) (control : ScopeControl) (size : ℕ) (db : Db) :
    JobRow → Bool :=
  scopeGuard control.transition.source
    ((scopeRows scan parentID control.transition.source size db).map JobRow.id)

theorem picks_iff (hr : r ∈ db.jobs.rows) : picks scan parentID control size db r = true ↔
    r ∈ scopeRows scan parentID control.transition.source size db := by
  rw [← contains_key_iff (fun s hs => (mem_scopeRows hs).1) hr, picks, scopeGuard,
    Bool.and_eq_true, Bool.and_eq_true]
  refine ⟨fun h => h.1.2, fun h => ?_⟩
  have hscope := (mem_scopeRows ((contains_key_iff (fun s hs => (mem_scopeRows hs).1) hr).mp h)).2
  simp_all [inScope]

theorem countP_picks (scan : Scan) (parentID : String) (control : ScopeControl) (size : ℕ)
    (db : Db) : (idsMatching (picks scan parentID control size db) db).length =
      (scopeRows scan parentID control.transition.source size db).length := by
  rw [← length_map JobRow.id]
  refine (perm_idsMatching ?_ (fun id hid => ?_) fun r hr => ?_).length_eq
  · have hperm := (perm_insertionSort (fun a b => scan.rank a.id ≤ scan.rank b.id)
      (db.jobs.rows.filter (inScope parentID control.transition.source))).map JobRow.id
    exact (hperm.nodup_iff.mpr (db.jobs.nodup.sublist (filter_sublist.map JobRow.id))).sublist
      ((take_sublist _ _).map JobRow.id)
  · obtain ⟨r, hr, rfl⟩ := mem_map.mp hid
    exact ⟨r, (mem_scopeRows hr).1, rfl⟩
  · rw [Bool.eq_iff_iff, picks_iff hr, decide_eq_true_iff,
      ← contains_key_iff (fun s hs => (mem_scopeRows hs).1) hr, contains_iff_mem]

/-- The table after an update of the control. -/
def moved (control : ScopeControl) (now : Time) (guard : JobRow → Bool) (db : Db) : Db :=
  { db with jobs := db.jobs.update guard (control.transition.updates now) }

/-- What one batch of a scoped control does: its update, with the check of the parent's barrier for
a cancel. It fails if the host's hook refuses an entry, or if the continuation cannot be built. -/
inductive ScopeBatched (ctx : Context) (parentID : String) (control : ScopeControl) (n : ℕ)
    (mid : Db) : Except TxError (Commit ScopeBatch) → Prop where
  | moved (c : Commit ScopeBatch) (jobs : c.db.jobs = mid.jobs) (selected : c.out.selected = n)
      (changed : c.out.changed.length = n) (fired : c.out.fired = false) :
      ScopeBatched ctx parentID control n mid (.ok c)
  | fired (c : Commit ScopeBatch) (kind : String) (spec : BarrierSpec) (row : JobRow)
      (cancel : control = .cancel) (none : mid.hasPendingChild parentID = false)
      (built : continuationRow ctx 1 kind spec parentID "" = .ok row)
      (jobs : c.db.jobs = (mid.jobs.insert uniqueClash (row.defaulted (ctx.clock 1))).update
        (isJob parentID) (clearBarrier (ctx.clock 1)))
      (selected : c.out.selected = n) (changed : c.out.changed.length = n)
      (fired : c.out.fired = true) : ScopeBatched ctx parentID control n mid (.ok c)
  | refused (hook : ctx.auditHook ≠ none) : ScopeBatched ctx parentID control n mid
      (.error .auditHook)
  | stuck (e : TxError) (cancel : control = .cancel) (declares : mid.DueBarrier parentID)
      (unbuilt : ¬Buildable ctx mid parentID) : ScopeBatched ctx parentID control n mid (.error e)

/-- The check of a batch that changed a child: for a cancel alone. -/
theorem fireEach_control (control : ScopeControl) (ctx : Context) (parentID : String) (mid : Db) :
    let result := fireEach ctx 1
      (if control.transition.fireBarrier then [(parentID, "")] else []) mid
    (∃ calls, result = .ok (mid, calls) ∧ calls.any FireCall.fired = false) ∨
    control = .cancel ∧
      ((∃ after calls kind spec row, result = .ok (after, calls) ∧ calls.any FireCall.fired = true ∧
          mid.hasPendingChild parentID = false ∧
            continuationRow ctx 1 kind spec parentID "" = .ok row ∧
          after.jobs = (mid.jobs.insert uniqueClash (row.defaulted (ctx.clock 1))).update
            (isJob parentID) (clearBarrier (ctx.clock 1))) ∨
        (∃ e, result = .error e) ∧ mid.DueBarrier parentID ∧ ¬Buildable ctx mid parentID) := by
  cases control with
  | pause | resume => exact .inl ⟨[], rfl, rfl⟩
  | cancel =>
    have hlist : (if ScopeControl.cancel.transition.fireBarrier then [(parentID, "")] else []) =
        [(parentID, "")] := rfl
    rw [hlist, fireEach, fireOne]
    cases hfire : fireBarrierIfComplete ctx 1 parentID "" mid with
    | error e =>
      have hdeclares : mid.DueBarrier parentID := by
        by_contra hidle
        rw [fireBarrierIfComplete_idle hidle] at hfire
        cases hfire
      refine .inr ⟨rfl, .inr ⟨⟨e, rfl⟩, hdeclares, fun hbuild => ?_⟩⟩
      obtain ⟨after, hfires⟩ := (fireBarrierIfComplete_fires hdeclares ctx 1).mpr hbuild
      rw [hfires] at hfire
      cases hfire
    | ok out =>
      obtain ⟨after, fired⟩ := out
      rcases fireBarrierIfComplete_spec hfire with
        ⟨rfl, rfl, -⟩ | ⟨rfl, parent, kind, spec, row, -, -, -, hpending, hrow, rfl⟩
      · exact .inl ⟨[_], rfl, rfl⟩
      · exact .inr ⟨rfl, .inl ⟨_, [_], kind, spec, row, rfl, rfl, hpending, hrow, rfl⟩⟩

/-- **What a batch does.** -/
theorem scopeBatch_cases {actor : Actor} (hactor : resolveActor ctx = .ok actor) (scan : Scan)
    (parentID : String) (control : ScopeControl) (size : ℕ) (db : Db) :
    ScopeBatched ctx parentID control
      (scopeRows scan parentID control.transition.source size db).length
      (moved control (ctx.clock 0) (picks scan parentID control size db) db)
      (scopeBatch scan ctx parentID control.transition size db) := by
  have hcount := countP_picks scan parentID control size db
  rw [scopeBatch, hactor]
  change ScopeBatched _ _ _ _ _ (if (scopeRows _ _ _ _ db).map JobRow.id = [] then _ else _)
  by_cases hnil : scopeRows scan parentID control.transition.source size db = []
  · rw [hnil, if_pos map_nil]
    have hnone : ∀ r ∈ db.jobs.rows, picks scan parentID control size db r = false := fun r hr => by
      rw [← Bool.not_eq_true, picks_iff hr, hnil]
      exact not_mem_nil
    exact .moved _ (update_of_false hnone).symm rfl rfl rfl
  · rw [if_neg (mt map_eq_nil_iff.mp hnil)]
    have hsome : (!(idsMatching (picks scan parentID control size db) db).isEmpty) = true := by
      rw [Bool.not_eq_true', isEmpty_eq_false_iff, ← length_pos_iff, hcount]
      exact length_pos_iff.mpr hnil
    change ScopeBatched _ _ _ _ _ (fireEach ctx 1 (if control.transition.fireBarrier &&
      !(idsMatching (picks scan parentID control size db) db).isEmpty then _ else _)
        (moved control (ctx.clock 0) (picks scan parentID control size db) db) >>= _)
    rw [hsome, Bool.and_true]
    have hselected : ((scopeRows scan parentID control.transition.source size db).map
        JobRow.id).length = _ := length_map _
    rcases fireEach_control control ctx parentID
        (moved control (ctx.clock 0) (picks scan parentID control size db) db) with
      ⟨calls, hfires, hno⟩ |
        ⟨hcancel, ⟨after, calls, kind, spec, row, hfires, hfired, hpending, hrow,
        hafter⟩ | ⟨⟨e, hfires⟩, hdeclares, hunbuilt⟩⟩
    · rw [hfires]
      change ScopeBatched _ _ _ _ _ (recordAudit ctx actor _ _ _ >>= _)
      rcases recordAudit_cases ctx actor _ _ _ with ⟨audit, haudit⟩ | ⟨haudit, hhook⟩
      · rw [haudit]
        exact .moved _ rfl hselected hcount hno
      · rw [haudit]
        exact .refused hhook
    · rw [hfires]
      change ScopeBatched _ _ _ _ _ (recordAudit ctx actor _ _ _ >>= _)
      rcases recordAudit_cases ctx actor _ _ _ with ⟨audit, haudit⟩ | ⟨haudit, hhook⟩
      · rw [haudit]
        exact .fired _ kind spec row hcancel hpending hrow hafter hselected hcount hfired
      · rw [haudit]
        exact .refused hhook
    · rw [hfires]
      exact .stuck e hcancel hdeclares hunbuilt

/-! ## The run -/

variable {now : Time} {guard : JobRow → Bool} {s : ScopeRun}

/-- A call between two batches: some of the eligible children are moved, and nothing else is. -/
structure Scoping (control : ScopeControl) (parentID : String) (now : Time) (db : Db)
    (guard : JobRow → Bool) (s : ScopeRun) : Prop where
  jobs : s.db.jobs = (moved control now guard db).jobs
  eligible : ∀ r ∈ db.jobs.rows, guard r = true →
    inScope parentID control.transition.source r = true
  changed : s.result.changed = db.jobs.rows.countP guard
  skippedRunning : s.result.skippedRunning = countChildren parentID [.running] db
  skippedTerminal : s.result.skippedTerminal = countChildren parentID terminalStates db

/-- A job as an update of the control left it. -/
def movedRow (control : ScopeControl) (now : Time) (guard : JobRow → Bool) (r : JobRow) : JobRow :=
  if guard r then (control.transition.updates now).apply r else r

namespace Scoping

variable (h : Scoping control parentID now db guard s)
include h

theorem rows : s.db.jobs.rows = db.jobs.rows.map (movedRow control now guard) := by
  rw [h.jobs]
  rfl

theorem picks_movedRow (scan : Scan) (size : ℕ) (hr : r ∈ db.jobs.rows) (hguard : guard r = true) :
    picks scan parentID control size s.db (movedRow control now guard r) = false := by
  have hmem : movedRow control now guard r ∈ s.db.jobs.rows := by
    rw [h.rows]
    exact mem_map_of_mem hr
  rw [← Bool.not_eq_true, picks_iff hmem]
  intro hpick
  have hscope := (mem_scopeRows hpick).2
  rw [movedRow, if_pos hguard, control.leaves] at hscope
  cases hscope

/-- **A batch moves further children.** -/
theorem batch {c : Commit ScopeBatch} {db' : Db} (scan : Scan) (size : ℕ)
    (hjobs : db'.jobs = (moved control now (picks scan parentID control size s.db) s.db).jobs)
    (hchanged : c.out.changed.length =
      (scopeRows scan parentID control.transition.source size s.db).length) :
    Scoping control parentID now db
      (fun r => guard r || picks scan parentID control size s.db (movedRow control now guard r))
      { s.next c with db := db' } where
  jobs := by
    rw [hjobs]
    change s.db.jobs.update _ _ = db.jobs.update _ _
    rw [h.jobs]
    refine update_update fun r hr => ?_
    have hpicked := h.picks_movedRow scan size hr
    unfold movedRow at hpicked
    cases hguard : guard r <;> simp_all [movedRow]
  eligible r hr hpick := by
    cases hguard : guard r with
    | true => exact h.eligible r hr hguard
    | false =>
      have hsame : movedRow control now guard r = r := if_neg (Bool.eq_false_iff.mp hguard)
      have hmem : r ∈ s.db.jobs.rows := h.rows ▸ mem_map.mpr ⟨r, hr, hsame⟩
      rw [hguard, Bool.false_or, hsame, picks_iff hmem] at hpick
      exact (mem_scopeRows hpick).2
  changed := by
    rw [countP_or_of_disjoint fun r hr => h.picks_movedRow scan size hr, ScopeRun.next, hchanged,
      h.changed, ← countP_picks, idsMatching, length_insertionSort, length_map,
      ← countP_eq_length_filter, h.rows, countP_map]
    rfl
  skippedRunning := h.skippedRunning
  skippedTerminal := h.skippedTerminal

theorem picks_of_short
    (hshort : (scopeRows scan parentID control.transition.source size s.db).length < size)
    (hr : r ∈ db.jobs.rows) (hscope : inScope parentID control.transition.source r = true) :
    (guard r || picks scan parentID control size s.db (movedRow control now guard r)) = true := by
  cases hguard : guard r with
  | true => rfl
  | false =>
    have hsame : movedRow control now guard r = r := if_neg (Bool.eq_false_iff.mp hguard)
    have hmem : r ∈ s.db.jobs.rows := h.rows ▸ mem_map.mpr ⟨r, hr, hsame⟩
    rw [hsame, Bool.false_or, picks_iff hmem]
    rw [scopeRows, length_take] at hshort
    rw [scopeRows, take_of_length_le (by omega), mem_insertionSort, mem_filter]
    exact ⟨hmem, hscope⟩

theorem all (hall : ∀ r ∈ db.jobs.rows, inScope parentID control.transition.source r = true →
    guard r = true) :
    Scoping control parentID now db (inScope parentID control.transition.source) s := by
  have hsame : ∀ r ∈ db.jobs.rows, guard r = inScope parentID control.transition.source r :=
    fun r hr => Bool.eq_iff_iff.mpr ⟨h.eligible r hr, hall r hr⟩
  refine ⟨?_, fun r hr hscope => hscope, ?_, h.skippedRunning, h.skippedTerminal⟩
  · rw [h.jobs]
    exact update_congr fun r hr => by rw [hsame r hr]
  · rw [h.changed]
    exact countP_congr fun r hr => by rw [hsame r hr]

theorem all_of_none (hcancel : control = .cancel) (hnone : s.db.hasPendingChild parentID = false) :
    Scoping control parentID now db (inScope parentID control.transition.source) s := by
  refine h.all fun r hr hscope => ?_
  by_contra hkept
  have hmem : r ∈ s.db.jobs.rows := h.rows ▸ mem_map.mpr ⟨r, hr, if_neg hkept⟩
  have hpending := any_eq_false.mp hnone r hmem
  have hwaits : ∀ st ∈ ScopeControl.cancel.transition.source, st.isTerminal = false := by decide
  simp_all [inScope, JobRow.pendingChildOf]

end Scoping

/-- What stopped a call before its end: an actor that is refused, the context, the host's hook, or a
barrier that the cancel completes and that cannot be built. -/
inductive ScopeStops (ctx : Context) (dead : ℕ → Bool) (control : ScopeControl) (parentID : String)
    (db : Db) : ScopeError → Prop where
  | actor (e : TxError) (h : resolveActor ctx = .error e) :
      ScopeStops ctx dead control parentID db (.batch e)
  | context (i : ℕ) (h : dead i = true) : ScopeStops ctx dead control parentID db .cancelled
  | hook (h : ctx.auditHook ≠ none) : ScopeStops ctx dead control parentID db (.batch .auditHook)
  | barrier (e : TxError) (mid : Db) (cancel : control = .cancel) (jobs : mid.jobs =
        (moved control (ctx.clock 0) (inScope parentID control.transition.source) db).jobs)
      (declares : mid.DueBarrier parentID) (unbuilt : ¬Buildable ctx mid parentID) :
      ScopeStops ctx dead control parentID db (.batch e)

/-- What a call without error did: it moved the eligible children and no other job, and a cancel may
then have enqueued the continuation of the parent's barrier and cleared the barrier. It counted what
it moved, and what it left alone. -/
structure ScopeDone (call : ℕ → Context) (control : ScopeControl) (parentID : String) (db : Db)
    (e : ScopeEnd) : Prop where
  jobs : e.db.jobs = db.jobs.update (inScope parentID control.transition.source)
        (control.transition.updates ((call 0).clock 0)) ∨
    control = .cancel ∧ ∃ i kind spec row,
      continuationRow ((call 0).within (call i)) 1 kind spec parentID "" = .ok row ∧
      e.db.jobs = ((db.jobs.update (inScope parentID control.transition.source)
          (control.transition.updates ((call 0).clock 0))).insert uniqueClash
            (row.defaulted ((call i).clock 1))).update (isJob parentID) (clearBarrier
              ((call i).clock 1))
  changed : e.result.changed = countChildren parentID control.transition.source db
  skippedRunning : e.result.skippedRunning = countChildren parentID [.running] db
  skippedTerminal : e.result.skippedTerminal = countChildren parentID terminalStates db

/-- How a call ends: its work is done, or it stopped with some of the eligible children moved. -/
def ScopeEnds (call : ℕ → Context) (dead : ℕ → Bool) (control : ScopeControl) (parentID : String)
    (db : Db) (e : ScopeEnd) : Prop :=
  e.error = none ∧ ScopeDone call control parentID db e ∨
    ∃ err, e.error = some err ∧ ScopeStops (call 0) dead control parentID db err ∧
      ∃ guard, (∀ r ∈ db.jobs.rows, guard r = true →
          inScope parentID control.transition.source r = true) ∧
        e.db.jobs = db.jobs.update guard (control.transition.updates ((call 0).clock 0))

section Run

variable {call : ℕ → Context} {actor : Actor} (hactor : resolveActor (call 0) = .ok actor)
  (h : Scoping control parentID ((call 0).clock 0) db guard s) (hsize : 0 < size)
include hactor h hsize

/-- **One round** moves further children and goes on, or ends the call. -/
theorem Scoping.round (scan : Scan) (dead : ℕ → Bool) (i : ℕ) :
    (∃ e, scopeRound scan ((call 0).within (call i)) (dead i) parentID control.transition size s =
        .inl e ∧ ScopeEnds call dead control parentID db e) ∨
    ∃ s' guard', scopeRound scan ((call 0).within (call i))
      (dead i) parentID control.transition size s =
        .inr s' ∧ Scoping control parentID ((call 0).clock 0) db guard' s' ∧
      db.jobs.rows.countP guard < db.jobs.rows.countP guard' := by
  have hstops : ∀ err, ScopeStops (call 0) dead control parentID db err →
      ScopeEnds call dead control parentID db { s with error := some err } := fun err hwhy =>
    .inr ⟨err, rfl, hwhy, guard, h.eligible, h.jobs⟩
  unfold scopeRound
  cases hdead : dead i with
  | true => exact .inl ⟨_, rfl, hstops .cancelled (.context i hdead)⟩
  | false =>
    have hwithin : resolveActor ((call 0).within (call i)) = .ok actor := hactor
    have hbatch := scopeBatch_cases hwithin scan parentID control size s.db
    rw [if_neg Bool.false_ne_true]
    generalize scopeBatch scan ((call 0).within (call i)) parentID control.transition size s.db = x
      at hbatch
    cases hbatch with
    | moved c hjobs hselected hchanged hfired =>
      have hnext : Scoping _ _ _ _ _ (s.next c) := h.batch scan size hjobs hchanged
      dsimp only
      rw [hfired, hselected, Bool.false_or]
      by_cases hshort : (scopeRows scan parentID control.transition.source size s.db).length < size
      · rw [if_pos (decide_eq_true hshort)]
        have hdone := hnext.all fun r hr => h.picks_of_short hshort hr
        exact .inl ⟨_, rfl, .inl ⟨rfl, .inl hdone.jobs, hdone.changed, hdone.skippedRunning,
          hdone.skippedTerminal⟩⟩
      · rw [if_neg (by simpa using hshort)]
        refine .inr ⟨_, _, rfl, hnext, ?_⟩
        have hchanged' := hnext.changed
        rw [ScopeRun.next, hchanged, h.changed] at hchanged'
        dsimp only at hchanged'
        omega
    | fired c kind spec row hcancel hnone hbuilt hjobs hselected hchanged hfired =>
      have hmid := (h.batch (c := c) scan size rfl hchanged).all_of_none hcancel hnone
      dsimp only
      rw [hfired, Bool.true_or, if_pos rfl]
      have hmoved : (moved control (((call 0).within (call i)).clock 0)
          (picks scan parentID control size s.db) s.db).jobs = _ := hmid.jobs
      rw [hmoved] at hjobs
      exact .inl ⟨_, rfl, .inl ⟨rfl, .inr ⟨hcancel, i, kind, spec, row, hbuilt, hjobs⟩,
        hmid.changed, hmid.skippedRunning, hmid.skippedTerminal⟩⟩
    | refused hhook => exact .inl ⟨_, rfl, hstops _ (.hook hhook)⟩
    | stuck e hcancel hdeclares hunbuilt =>
      -- the check ran on the table that the batch had moved children in
      have ⟨_, _, _, _, hnone⟩ := hdeclares
      have hmid := (h.batch (c := { db := s.db, out := ⟨0, _, false⟩ }) scan size rfl
        (countP_picks scan parentID control size s.db)).all_of_none hcancel hnone
      have hsame : SameClient (call 0) ((call 0).within (call i)) := ⟨rfl, rfl, rfl, rfl⟩
      exact .inl ⟨_, rfl, hstops _ (.barrier e _ hcancel hmid.jobs hdeclares
        fun hbuild => hunbuilt (hbuild.client hsame))⟩

/-- **A call ends**, at the latest when no eligible child is left. -/
theorem Scoping.loop (scan : ℕ → Scan) (dead : ℕ → Bool) (i : ℕ) :
    ∃ e, (∀ fuel, db.jobs.rows.length - db.jobs.rows.countP guard < fuel →
        scopeLoop scan call dead parentID control.transition size fuel i s = some e) ∧
      ScopeEnds call dead control parentID db e := by
  -- by the number of jobs that no batch has moved
  induction hleft : db.jobs.rows.length - db.jobs.rows.countP guard using Nat.strong_induction_on
    generalizing guard s i with
  | _ left ih =>
    rcases h.round hactor hsize (scan i) dead i with ⟨e, hround, hends⟩ |
      ⟨s', guard', hround, h', hlt⟩
    · refine ⟨e, fun fuel hfuel => ?_, hends⟩
      obtain ⟨fuel, rfl⟩ := Nat.exists_eq_succ_of_ne_zero (Nat.ne_zero_of_lt hfuel)
      rw [scopeLoop, hround]
    · have hle := countP_le_length (p := guard') (l := db.jobs.rows)
      obtain ⟨e, hloop, hends⟩ := ih _ (by omega) h' (i + 1) rfl
      refine ⟨e, fun fuel hfuel => ?_, hends⟩
      obtain ⟨fuel, rfl⟩ := Nat.exists_eq_succ_of_ne_zero (Nat.ne_zero_of_lt hfuel)
      rw [scopeLoop, hround]
      exact hloop fuel (by omega)

end Run

/-! ## A whole call -/

/-- The state that a control moves a job to. -/
def ScopeControl.target : ScopeControl → JobState
  | .pause => .paused
  | .resume => .available
  | .cancel => .cancelled

theorem movedRow_state (control : ScopeControl) (now : Time) (guard : JobRow → Bool) (r : JobRow) :
    (movedRow control now guard r).state = if guard r then control.target else r.state := by
  unfold movedRow
  cases control <;> split_ifs <;> rfl

variable {call : ℕ → Context} {e : ScopeEnd}

theorem ScopeDone.state (h : ScopeDone call control parentID db e) (hr : r ∈ db.jobs.rows) :
    (e.db.jobs.get? r.id).map JobRow.state =
      some (if inScope parentID control.transition.source r then control.target else r.state) := by
  have hmoved : (db.jobs.update (inScope parentID control.transition.source)
      (control.transition.updates ((call 0).clock 0))).get? r.id =
        some (movedRow control ((call 0).clock 0) (inScope parentID control.transition.source)
          r) := by
    rw [get?_update, get?_key hr]
    rfl
  rw [← movedRow_state control ((call 0).clock 0)]
  rcases h.jobs with hjobs | ⟨-, i, kind, spec, row, -, hjobs⟩
  · rw [hjobs, hmoved]
    rfl
  · rw [hjobs, get?_update, get?_insert_of_some uniqueClash hmoved, Option.map_some,
      Option.map_some]
    split_ifs <;> rfl

/-- The call after one that was interrupted leaves the states that one call leaves. -/
theorem ScopeDone.again {call₂ : ℕ → Context} {db₁ : Db} {e₂ : ScopeEnd}
    (h₂ : ScopeDone call₂ control parentID db₁ e₂) (h : ScopeDone call control parentID db e)
    (hjobs : db₁.jobs = db.jobs.update guard (control.transition.updates now))
    (heligible : ∀ r ∈ db.jobs.rows, guard r = true →
      inScope parentID control.transition.source r = true) (hr : r ∈ db.jobs.rows) :
    (e₂.db.jobs.get? r.id).map JobRow.state = (e.db.jobs.get? r.id).map JobRow.state := by
  have hmem : movedRow control now guard r ∈ db₁.jobs.rows := by
    rw [hjobs]
    exact mem_map_of_mem hr
  have hid : (movedRow control now guard r).id = r.id := by
    unfold movedRow
    split_ifs
    · exact (control.transition.updates _).key_apply r
    · rfl
  rw [← hid, h₂.state hmem, hid, h.state hr, movedRow_state]
  unfold movedRow
  by_cases hguard : guard r = true
  · -- the first call moved the job, which is then not eligible again
    rw [if_pos hguard, if_pos hguard, control.leaves, heligible r hr hguard]
    rfl
  · rw [if_neg hguard, if_neg hguard]

/-- **Every call ends.** -/
theorem scopeByParent_ends (scan : ℕ → Scan) (call : ℕ → Context) (dead : ℕ → Bool)
    (parentID : String) (control : ScopeControl) (requested : ℤ) (db : Db) :
    ∃ e, (∀ fuel, db.jobs.rows.length < fuel → scopeByParent scan call false dead parentID
        control.transition requested fuel db = some e) ∧
          ScopeEnds call dead control parentID db e := by
  have hnone : db.jobs = (moved control ((call 0).clock 0) (fun _ => false) db).jobs :=
    (update_of_false fun _ _ => rfl).symm
  cases hactor : resolveActor (call 0) with
  | error e =>
    refine ⟨_, fun fuel _ => by rw [scopeByParent, hactor], ?_⟩
    exact .inr ⟨_, rfl, .actor e hactor, _, fun r _ hfalse =>
      absurd hfalse Bool.false_ne_true, hnone⟩
  | ok actor =>
    have hsize : 0 < replayBatchSize requested := by
      unfold replayBatchSize defaultScopeBatchSize
      split_ifs <;> omega
    have hstart : Scoping control parentID ((call 0).clock 0) db (fun _ => false)
        { db, result := { skippedRunning := countChildren parentID [.running] db
                          skippedTerminal := countChildren parentID terminalStates db } } :=
      ⟨hnone, fun r _ hfalse => absurd hfalse Bool.false_ne_true, by simp, rfl, rfl⟩
    obtain ⟨e, hloop, hends⟩ := hstart.loop hactor hsize scan dead 0
    refine ⟨e, fun fuel hfuel => ?_, hends⟩
    rw [scopeByParent, hactor]
    exact hloop fuel (by omega)

/-- **The parent-scoped controls move exactly the eligible children.** Every call ends: its work is
done, or the actor, the hook or a barrier that cannot be built stopped it, and then the batches
before stand. A call that is interrupted between two batches and then made again leaves the jobs in
the states that one call leaves them in. -/
theorem scoped_controls_move_eligible_children (scan : ℕ → Scan) (call : ℕ → Context)
    (control : ScopeControl) (parentID : String) (requested : ℤ) (db : Db) :
    ∃ e, (∀ fuel, db.jobs.rows.length < fuel →
      scopeByParent scan call false (fun _ => false) parentID
        control.transition requested fuel db = some e) ∧
      ScopeEnds call (fun _ => false) control parentID db e ∧
      ∀ scan₁ call₁ dead requested₁, ∃ e₁, (∀ fuel, db.jobs.rows.length < fuel →
          scopeByParent scan₁ call₁ false dead parentID control.transition requested₁ fuel db =
            some e₁) ∧
        (e₁.error = some .cancelled → ∃ e₂, (∀ fuel, e₁.db.jobs.rows.length < fuel →
            scopeByParent scan call false
              (fun _ => false) parentID control.transition requested fuel e₁.db = some e₂) ∧
          (e.error = none → e₂.error = none → ∀ r ∈ db.jobs.rows,
            (e₂.db.jobs.get? r.id).map JobRow.state = (e.db.jobs.get? r.id).map JobRow.state)) := by
  obtain ⟨e, hruns, hends⟩ := scopeByParent_ends scan call
    (fun _ => false) parentID control requested db
  refine ⟨e, hruns, hends, fun scan₁ call₁ dead requested₁ => ?_⟩
  obtain ⟨e₁, hruns₁, hends₁⟩ := scopeByParent_ends scan₁ call₁ dead parentID control requested₁ db
  refine ⟨e₁, hruns₁, fun hinterrupted => ?_⟩
  obtain ⟨e₂, hruns₂, hends₂⟩ := scopeByParent_ends scan call
    (fun _ => false) parentID control requested e₁.db
  refine ⟨e₂, hruns₂, fun hok hok₂ r hr => ?_⟩
  rcases hends with ⟨-, hdone⟩ | ⟨err, herr, -⟩
  · rcases hends₂ with ⟨-, hdone₂⟩ | ⟨err, herr, -⟩
    · rcases hends₁ with ⟨hnone, -⟩ | ⟨err, -, -, guard, heligible, hjobs⟩
      · simp_all
      · exact hdone₂.again hdone hjobs heligible hr
    · simp_all
  · simp_all

/-- A parent whose stored barrier cannot be decoded, and its one waiting child. -/
def undecodableBarrier : Db :=
  { jobs :=
      { rows := [{ (default : JobRow) with
        id := "p", state := .succeeded, barrierKind := some "next" },
          { (default : JobRow) with id := "c", state := .available, parentJobID := some "p" }]
        nodup := by decide } }

/-- Its child cannot be cancelled: the batch rolls back with the check of the barrier. -/
theorem undecodable_barrier_holds_child :
    (scopeByParent (fun _ => {}) (fun _ => {}) false (fun _ => false) "p" cancelByParent 0 3
        undecodableBarrier).map
      (fun e => (e.error, e.result.changed, (e.db.jobs.get? "c").map JobRow.state)) =
    some (some (.batch (.marshal "barrier spec")), 0, some .available) := by
  decide

end Flywheel
