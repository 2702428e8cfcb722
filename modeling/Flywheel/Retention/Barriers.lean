import Flywheel.Barrier.Continuation
import Flywheel.Retention.Model

/-!
# Retention and barriers

A parent that declares a barrier has ended, and so is old enough for a retention pass while its
children still run. A pass does not look at `barrier_kind`, and the completion check reads a parent
that is gone as nothing to do: the barrier is lost with its row. In a history in which no delete
takes a parent that still waits for a child, a waiting parent goes on waiting until its continuation
is inserted (`waiting_or_continued`).
-/

namespace Flywheel

open Relational Transition List Option Table

/-! ## Histories with retention -/

/-- What happens next: a transaction of the system, or a batch of a retention pass. -/
inductive KeepEvent where
  | act (a : Action)
  | retain (cutoff : JobRow → Bool) (cursor : String) (limit : ℕ)

/-- One step of a world that retention prunes. -/
def World.next (w : World) : KeepEvent → World
  | .act a => w.step a
  | .retain cutoff cursor limit => { w with db := (deleteFinishedBatch cutoff cursor limit w.db).1 }

/-- The world after a history with retention. -/
def World.pruned (w : World) (history : List KeepEvent) : World := run World.next w history

/-- The barrier checks of a step: a retention batch makes none. -/
def KeepEvent.fires (db : Db) : KeepEvent → List FireCall
  | .act a => a.fires db
  | .retain .. => []

/-- The parent whose barrier a transaction declares, if a child of it is pending then. -/
def Action.declares (a : Action) (db : Db) : Option String :=
  match a with
  | .finalize opts ctx raw runID result workErr finishedAt =>
    match Flywheel.finalize opts ctx raw runID result workErr finishedAt db with
    | .error _ => none
    | .ok c =>
      if result.barrier.isSome && (planFinalize ctx raw result workErr finishedAt).followUps &&
          db.claimHeld raw.id raw.leaseToken && c.db.hasPendingChild raw.id then some raw.id
      else none
  | _ => none

/-- The job is one that the step is to delete: one that a retention batch selects, the job that a
DeleteJob names, or one that a batch of a bulk delete selects. -/
def KeepEvent.deletes (db : Db) (id : String) : KeepEvent → Bool
  | .retain cutoff cursor limit => (finishedIDs cutoff cursor limit db).contains id
  | .act (.deleteJob _ jobID) => decide (id = jobID)
  | .act (.bulk _ run ids) => decide (run.action = .delete) && (run.change ids db).contains id
  | .act _ => false

/-! ## What a transaction leaves of a barrier -/

variable {db db' : Db} {p : String}

theorem Move.keeps_declares {k : MoveKind} {old new : JobRow} (h : Move k (some old) (some new))
    (hk : k ≠ .clear) (hold : Declares (some old)) : Declares (some new) := by
  obtain ⟨r, hr, hvisible, hkind⟩ := hold
  cases hr
  cases h with
  | clear => exact absurd rfl hk
  | settle raw plan finishedAt barrier =>
    refine ⟨_, rfl, hvisible, ?_⟩
    change (barrier.map Prod.fst).or old.barrierKind ≠ none
    simp_all
  | _ => exact ⟨_, rfl, hvisible, hkind⟩

variable {a : Action} {ctx : Context} {e : KeepEvent} {w : World} {k : ℕ}

/-- A check takes a barrier only by firing it. -/
theorem fireBarrierIfComplete_keeps {q spawnedBy : String} {fired : Bool}
    (h : fireBarrierIfComplete ctx k q spawnedBy db = .ok (db', fired))
    (hold : Declares (db.jobs.get? p)) : Declares (db'.jobs.get? p) ∨ q = p ∧ fired = true := by
  rcases fireBarrierIfComplete_spec h with
    ⟨-, rfl, -⟩ | ⟨hfired, parent, kind, spec, row, -, -, -, -, -, rfl⟩
  · exact .inl hold
  · by_cases hq : q = p
    · exact .inr ⟨hq, hfired⟩
    · obtain ⟨r, hr, hdeclares⟩ := hold
      refine .inl ⟨r, ?_, hdeclares⟩
      rw [get?_update, get?_insert_of_some _ hr, map_some]
      have hother : isJob q r = false := by
        have hid := key_of_get? hr
        simp [isJob, hid, Ne.symm hq]
      rw [hother, if_neg Bool.false_ne_true]

variable {parents : List (String × String)} {cutoff : JobRow → Bool} {cursor : String} {limit : ℕ}
  {history : List KeepEvent}

theorem fireEach_keeps {calls : List FireCall}
    (h : fireEach ctx k parents db = .ok (db', calls)) (hold : Declares (db.jobs.get? p)) :
    Declares (db'.jobs.get? p) ∨ ∃ call ∈ calls, call.parentID = p ∧ call.fired = true := by
  induction parents generalizing k db calls with
  | nil =>
    cases h
    exact .inl hold
  | cons q parents ih =>
    obtain ⟨mid, fired, rest, hfire, hrest, rfl⟩ := fireEach_cons h
    grind [fireBarrierIfComplete_keeps, mem_cons_self]

theorem Effect.keeps {α : Type} {mid : Db} {c : Commit α} (rows : List JobRow)
    (h : Effect ctx { mid with jobs := mid.jobs.insertAll uniqueClash rows } parents c)
    (hmid : Declares (mid.jobs.get? p)) :
    Declares (c.db.jobs.get? p) ∨ ∃ call ∈ c.fires, call.parentID = p ∧ call.fired = true := by
  obtain ⟨k, after, hfires, hjobs⟩ := h
  obtain ⟨r, hr, hdeclares⟩ := hmid
  rw [hjobs]
  exact fireEach_keeps hfires ⟨r, get?_insertAll_of_some uniqueClash rows hr, hdeclares⟩

/-- No transaction's own move is the clearing of a barrier. -/
theorem Action.kind_ne_clear (a : Action) : a.kind ≠ some .clear := by
  intro h
  cases a with
  | scope scan ctx parentID control batchSize => cases control <;> cases h
  | bulk ctx run ids =>
    obtain ⟨action, _⟩ := run
    cases action <;> cases h
  | _ => cases h

theorem deleteJobRows_get? {ids : List String} (h : (deleteJobRows ids db).jobs.get? p ≠ none) :
    (deleteJobRows ids db).jobs.get? p = db.jobs.get? p := by
  unfold deleteJobRows at h ⊢
  rw [get?_delete] at h ⊢
  obtain ⟨r, hr⟩ := ne_none_iff_exists'.mp h
  rw [hr, (filter_eq_some_iff.mp hr).1]

/-- A delete leaves the jobs that it does not name. -/
theorem deleteJobRows_spares {ids : List String} (h : p ∉ ids) :
    (deleteJobRows ids db).jobs.get? p = db.jobs.get? p := by
  unfold deleteJobRows
  rw [get?_delete]
  cases hr : db.jobs.get? p with
  | none => rfl
  | some r => simp [filter_some, show r.id ∉ ids from key_of_get? hr ▸ h]

/-- A step leaves a row for a job that it is not to delete. -/
theorem next_stored (hstored : w.db.jobs.get? p ≠ none) (hspared : e.deletes w.db p = false) :
    (w.next e).db.jobs.get? p ≠ none := by
  cases e with
  | retain cutoff cursor limit =>
    have hsame : (w.next (.retain cutoff cursor limit)).db.jobs.get? p = w.db.jobs.get? p :=
      deleteJobRows_spares fun hmem => Bool.false_ne_true
        (hspared.symm.trans (contains_iff_mem.mpr hmem))
    rwa [hsame]
  | act a =>
    obtain ⟨r, hr⟩ := ne_none_iff_exists'.mp hstored
    change (step w.db a).jobs.get? p ≠ none
    rcases step_row hr a with ⟨hkind, -⟩ | ⟨_, r', -, hr', -⟩
    · -- the deletes of the system name their jobs
      refine settle_induction (P := fun db' : Db => db'.jobs.get? p ≠ none) hstored ?_
      intro c hexec
      cases a with
      | deleteJob ctx jobID =>
        obtain ⟨-, hdb | ⟨job, hjob, -, hdb⟩⟩ := deleteJob_spec hexec
        · rwa [hdb]
        · have hne : p ∉ [job.id] := by
            rw [mem_singleton, key_of_get? (Db.job?_eq_some.mp hjob).1]
            exact of_decide_eq_false hspared
          rw [hdb]
          exact (deleteJobRows_spares hne).trans_ne hstored
      | bulk ctx run ids =>
        obtain ⟨c, hc, rfl⟩ := map_eq_ok.mp hexec
        change c.db.jobs.get? p ≠ none
        rcases applyBatch_spec hc with ⟨hdb, -⟩ | ⟨haction, -, -, hdb⟩ | ⟨haction, -⟩
        · rwa [hdb]
        · have hnot : p ∉ run.change ids w.db := by
            simp only [KeepEvent.deletes, haction, decide_true, Bool.true_and] at hspared
            exact fun hmem => Bool.false_ne_true (hspared.symm.trans (contains_iff_mem.mpr hmem))
          rw [hdb]
          exact (deleteJobRows_spares hnot).trans_ne hstored
        · obtain ⟨action, _⟩ := run
          cases action with
          | delete => exact absurd rfl haction
          | _ => cases hkind
      | scope scan ctx parentID control batchSize => cases control <;> cases hkind
      | _ => cases hkind
    · simp [hr']

/-- **A transaction takes a barrier only by firing it, or with its row.** -/
theorem exec_keeps {c : Commit Unit} (h : a.exec db = .ok c) (hold : Declares (db.jobs.get? p))
    (hstored : c.db.jobs.get? p ≠ none) :
    Declares (c.db.jobs.get? p) ∨ ∃ call ∈ c.fires, call.parentID = p ∧ call.fired = true := by
  cases exec_shape h with
  | writes ctx mid rows parents own new effect =>
    refine effect.keeps rows ?_
    rcases own p with hsame | ⟨k, r, r', hkind, hr, hr', hmove⟩
    · rwa [hsame]
    · rw [hr] at hold
      rw [hr']
      refine hmove.keeps_declares ?_ hold
      rintro rfl
      exact a.kind_ne_clear hkind
  | deletes ids kind ended jobs fires => grind [deleteJobRows_get?]

/-- A finalization that declares a barrier leaves it declared, unless it fires. -/
theorem finalize_declares {opts : DriverOpts} {raw : RawJob} {runID : String} {result : Result}
    {workErr : Option WorkError} {finishedAt : Time} {c : Commit FinalizeOutcome}
    (h : finalize opts ctx raw runID result workErr finishedAt db = .ok c)
    (hvisible : ∀ id r, db.jobs.get? id = some r → r.visible = true)
    (hbarrier : result.barrier.isSome = true)
    (hfollowUps : (planFinalize ctx raw result workErr finishedAt).followUps = true)
    (hheld : db.claimHeld raw.id raw.leaseToken = true) :
    Declares (c.db.jobs.get? raw.id) ∨ ∃ call ∈ c.fires, call.parentID = raw.id ∧
      call.fired = true := by
  obtain ⟨_, barrier, mid, n, -, hdeclare, hmid, heffect, -⟩ := finalize_spec h
  obtain ⟨b, hb⟩ := isSome_iff_exists.mp hbarrier
  obtain ⟨columns, rfl⟩ : ∃ columns, barrier = some columns := by
    rw [declareBarrier, hfollowUps, hb] at hdeclare
    obtain ⟨_, -, hdeclare⟩ := bind_eq_ok.mp hdeclare
    obtain ⟨columns, -, hdeclare⟩ := bind_eq_ok.mp hdeclare
    exact ⟨columns, (Except.ok.inj hdeclare).symm⟩
  -- the row that holds the claim has the barrier's columns
  have hadvanced : Declares
    ((advanceJob raw (planFinalize ctx raw result workErr finishedAt) finishedAt
      (some columns) db).jobs.get? raw.id) := by
    obtain ⟨r, hget, hholds⟩ := Db.claimHeld_get? hheld
    refine ⟨(jobFinalizeUpdate (planFinalize ctx raw result workErr finishedAt) finishedAt
      (some columns)).apply r, ?_, hvisible _ r hget, by simp [jobFinalizeUpdate]⟩
    unfold advanceJob
    rw [get?_update, hget, map_some, if_pos hholds]
  rcases enqueueChildren_spec hmid with ⟨-, rfl⟩ | ⟨-, rows, hrows, rfl⟩
  · exact Effect.keeps [] heffect hadvanced
  · exact Effect.keeps _ heffect hadvanced

/-! ## Histories that spare waiting parents -/

/-- The steps of the law. Runners act in dispatch's order; a check that fires finds its
continuation's key free and mints a new id; and no delete is of a job whose row declares a barrier
while a child of it is pending. -/
structure SparesWaiting (w : World) (e : KeepEvent) : Prop where
  admits : ∀ a, e = .act a → w.Admits a
  free : ∀ call ∈ e.fires w.db, call.fired = true →
    call.KeyFree ∧ call.before.jobs.get? call.mintedID = none
  spares : ∀ p, Declares (w.db.jobs.get? p) → w.db.hasPendingChild p = true →
    e.deletes w.db p = false

theorem SparesWaiting.of_kept (hadmits : ∀ a, e = .act a → w.Admits a)
    (hfree : ∀ call ∈ e.fires w.db, call.fired = true →
      (∀ r ∈ call.before.jobs.rows, r.uniqueKey ≠ some (barrierKey call.parentID)) ∧
        (call.before.jobs.get? call.mintedID).isNone = true)
    (hrows : ∀ r ∈ w.db.jobs.rows, e.deletes w.db r.id = false) :
    SparesWaiting w e where
  admits := hadmits
  free call hcall hfired :=
    ⟨(hfree call hcall hfired).1, isNone_iff_eq_none.mp (hfree call hcall hfired).2⟩
  spares p hdeclares _ := by
    obtain ⟨r, hr, -⟩ := hdeclares
    exact key_of_get? hr ▸ hrows r (mem_of_get? hr)

/-- What every reachable world keeps. -/
structure Sane (w : World) : Prop where
  held : ∀ j, w.Held j
  visible : ∀ id r, w.db.jobs.get? id = some r → r.visible = true

/-- A parent that waits: its row declares a barrier, and a child of it is pending. -/
def World.Waits (w : World) (p : String) : Prop :=
  Declares (w.db.jobs.get? p) ∧ w.db.hasPendingChild p = true

theorem retain_get? {r : JobRow}
    (h : (w.next (.retain cutoff cursor limit)).db.jobs.get? p = some r) :
    w.db.jobs.get? p = some r := by
  have hstored :
      (deleteJobRows (finishedIDs cutoff cursor limit w.db) w.db).jobs.get? p = some r := h
  rwa [deleteJobRows_get? (hstored ▸ some_ne_none r)] at hstored

theorem retain_pending (h : w.db.hasPendingChild p = true) :
    (w.next (.retain cutoff cursor limit)).db.hasPendingChild p = true := by
  obtain ⟨r, hr, hpending⟩ := List.any_eq_true.mp h
  refine List.any_eq_true.mpr ⟨r, mem_filter.mpr ⟨hr, ?_⟩, hpending⟩
  grind [mem_finishedIDs, eq_of_key_eq, JobRow.pendingChildOf]

theorem Sane.next (h : Sane w) (hok : SparesWaiting w e) : Sane (w.next e) := by
  cases e with
  | act a =>
    exact ⟨fun j => (h.held j).step (hok.admits a rfl), fun id => step_visible (h.visible id)⟩
  | retain cutoff cursor limit =>
    refine ⟨fun j => ⟨(h.held j).minted, fun t ht hid r hr => ?_⟩, fun id r hr => ?_⟩
    · exact (h.held j).carries t ht hid r (retain_get? hr)
    · exact h.visible id r (retain_get? hr)

/-- A check of `p` that fires in a step of the law inserts its continuation. -/
theorem SparesWaiting.continues (hok : SparesWaiting w (.act a)) {call : FireCall}
    (hcall : call ∈ a.fires w.db) (hfired : call.fired = true) : call.Continues := by
  obtain ⟨ctx, k, hminted, hfire⟩ := Action.fires_spec call hcall
  obtain ⟨hfree, hfresh⟩ := hok.free call hcall hfired
  exact (FireCall.continues_iff hminted hfire hfired hfresh).mpr hfree

/-- **A step leaves a waiting parent waiting, or inserts its continuation.** -/
theorem World.Waits.next (hsane : Sane w) (h : w.Waits p) (hok : SparesWaiting w e) :
    (w.next e).Waits p ∨ ∃ call ∈ e.fires w.db, call.parentID = p ∧ call.Continues := by
  have hstored : (w.next e).db.jobs.get? p ≠ none := by
    obtain ⟨r, hr, -⟩ := h.1
    exact next_stored (by simp [hr]) (hok.spares p h.1 h.2)
  cases e with
  | retain cutoff cursor limit =>
    refine .inl ⟨?_, retain_pending h.2⟩
    obtain ⟨r, hr⟩ := ne_none_iff_exists'.mp hstored
    obtain ⟨s, hs, hdeclares⟩ := h.1
    cases (retain_get? hr).symm.trans hs
    exact ⟨r, hr, hdeclares⟩
  | act a =>
    change (w.step a).Waits p ∨ ∃ call ∈ a.fires w.db, call.parentID = p ∧ call.Continues
    have harmed : (Flywheel.step w.db a).Armed p := by
      refine step_armed hsane.held (hok.admits a rfl) (fun _ _ _ _ _ _ _ _ hp _ _ _ => .inr ?_)
        fun _ => hasPendingChild_iff.mp h.2
      rw [← hp]
      exact h.2
    cases hexec : a.exec w.db with
    | error e =>
      refine .inl ?_
      have hsame : (w.step a).db = w.db := step_of_error hexec
      rw [World.Waits, hsame]
      exact h
    | ok c =>
      have hdb : Flywheel.step w.db a = c.db := step_of_ok hexec
      have hfires : a.fires w.db = c.fires := by
        rw [Action.fires, hexec]
        rfl
      rw [hfires]
      rcases exec_keeps hexec h.1 (hdb ▸ hstored) with hdeclares | ⟨call, hcall, hparent, hfired⟩
      · rw [← hdb] at hdeclares
        exact .inl ⟨hdeclares, hasPendingChild_iff.mpr (harmed hdeclares)⟩
      · exact .inr ⟨call, hcall, hparent, hok.continues (hfires ▸ hcall) hfired⟩

/-- A parent that declares a barrier with a pending child waits, or has its continuation. -/
theorem Action.declares_waits (hsane : Sane w) (hok : SparesWaiting w (.act a))
    (h : a.declares w.db = some p) :
    (w.step a).Waits p ∨ ∃ call ∈ a.fires w.db, call.parentID = p ∧ call.Continues := by
  cases a with
  | finalize opts ctx raw runID result workErr finishedAt =>
    rw [Action.declares] at h
    cases hfinalize : Flywheel.finalize opts ctx raw runID result workErr finishedAt w.db with
    | error e => simp_all
    | ok c =>
      rw [hfinalize] at h
      dsimp only at h
      split_ifs at h with hall
      cases h
      simp only [Bool.and_eq_true] at hall
      obtain ⟨⟨⟨hbarrier, hfollowUps⟩, hheld⟩, hpending⟩ := hall
      have hexec : (Action.finalize opts ctx raw runID result workErr finishedAt).exec w.db =
          .ok c.drop := by
        rw [Action.exec, hfinalize]
        rfl
      have hfires : (Action.finalize opts ctx raw runID result workErr finishedAt).fires w.db =
          c.fires := by
        rw [Action.fires, hexec]
        rfl
      have hdb : (w.step (.finalize opts ctx raw runID result workErr finishedAt)).db = c.db :=
        step_of_ok hexec
      rcases finalize_declares hfinalize hsane.visible hbarrier hfollowUps hheld with
        hdeclares | ⟨call, hcall, hparent, hfired⟩
      · simp_all [World.Waits]
      · rw [← hfires] at hcall
        exact .inr ⟨call, hcall, hparent, hok.continues hcall hfired⟩
  | _ => cases h

/-- A step of a history inserts the continuation of `p`. -/
def ContinuedIn (w : World) (p : String) (history : List KeepEvent) : Prop :=
  ∃ before e rest, history = before ++ e :: rest ∧
    ∃ call ∈ e.fires (w.pruned before).db, call.parentID = p ∧ call.Continues

theorem ContinuedIn.cons (h : ContinuedIn (w.next e) p history) :
    ContinuedIn w p (e :: history) := by
  obtain ⟨before, e', rest, rfl, hcall⟩ := h
  exact ⟨e :: before, e', rest, rfl, hcall⟩

/-- **Along a history of the law, a waiting parent goes on waiting or has its continuation.** -/
theorem waiting_or_continued (hsane : Sane w) (h : w.Waits p)
    (hlegal : Legal World.next SparesWaiting w history) :
    (w.pruned history).Waits p ∨ ContinuedIn w p history := by
  induction history generalizing w with
  | nil => exact .inl h
  | cons e history ih =>
    obtain ⟨hok, hlegal⟩ := hlegal
    rcases h.next hsane hok with h | hcall
    · rcases ih (hsane.next hok) h hlegal with h | h
      · exact .inl h
      · exact .inr h.cons
    · exact .inr ⟨[], e, history, rfl, hcall⟩

/-- **Retention destroys no barrier that has yet to fire, in histories that spare waiting parents.**
For every history of transactions and retention batches from the empty database whose steps meet the
condition, every transaction of it that declares a barrier with a pending child, and every later
state: a child of the parent is still pending, or the parent's continuation has been inserted. -/
theorem waiting_barriers_continue (before after : List KeepEvent) (a : Action) (p : String)
    (hlegal : Legal World.next SparesWaiting {} (before ++ .act a :: after))
    (hdeclares : a.declares (World.pruned {} before).db = some p) :
    (World.pruned {} (before ++ .act a :: after)).db.hasPendingChild p = true ∨
      ContinuedIn (World.pruned {} before) p (.act a :: after) := by
  have hstart : Sane {} := by
    refine ⟨fun j => World.Held.start (by simp), fun id r hr => ?_⟩
    cases hr
  obtain ⟨hbefore, hok, hafter⟩ := legal_append.mp hlegal
  have hsane : Sane (World.pruned {} before) :=
    hbefore.invariant (fun w e hok h => h.next hok) hstart
  rcases Action.declares_waits hsane hok hdeclares with hwaits | hcall
  · rcases waiting_or_continued (hsane.next hok) hwaits hafter with hwaits | hcontinued
    · left
      rw [World.pruned, run_append, run_cons]
      exact hwaits.2
    · exact .inr hcontinued.cons
  · exact .inr ⟨[], .act a, after, rfl, hcall⟩

/-- The cutoff of a pass without rules, for jobs that ended before a time. -/
def plainCutoff (olderThan : Time) : JobRow → Bool := retentionCutoff olderThan olderThan [] id

/-- A pass that finds nothing old enough, the cancel of the child, and that of the continuation. -/
def sparedParent : List KeepEvent :=
  [.retain (plainCutoff 0) "" 1000, .act childCancel, .act (.cancelJob {} "gathered")]

/-- The barrier of a parent that a pass leaves has its continuation, which has ended too. -/
theorem spared_parent_continues :
    (World.pruned {} (startedParent.map .act ++
      .act finishedParent :: sparedParent)).db.hasPendingChild
        "parent" = false ∧
      ContinuedIn (World.pruned {} (startedParent.map .act)) "parent"
        (.act finishedParent :: sparedParent) := by
  have hended : (World.pruned {} (startedParent.map .act ++ .act finishedParent ::
      sparedParent)).db.hasPendingChild "parent" = false := by decide
  refine ⟨hended, ?_⟩
  refine (waiting_barriers_continue (startedParent.map .act) sparedParent finishedParent "parent" ?_
    (by decide)).resolve_left (by rw [hended]; exact Bool.false_ne_true)
  refine ⟨.of_kept ?_ (by decide) (by decide), .of_kept ?_ (by decide) (by decide),
    .of_kept ?_ (by decide) (by decide), .of_kept ?_ (by decide) (by decide),
    .of_kept ?_ (by decide) (by decide), .of_kept ?_ (by decide) (by decide),
    .of_kept ?_ (by decide) (by decide), trivial⟩
  · rintro a ⟨⟩
    trivial
  · rintro a ⟨⟩
    exact not_mem_nil
  · rintro a ⟨⟩
    exact ⟨_, mem_cons_self, rfl, rfl⟩
  · rintro a ⟨⟩
    exact ⟨_, mem_cons_self, rfl, rfl⟩
  · rintro a ⟨⟩
  · rintro a ⟨⟩
    trivial
  · rintro a ⟨⟩
    trivial

/-- A pass that keeps an hour's jobs, at the second hour, and then the cancel of the child. -/
def prunedParent : List KeepEvent :=
  [.retain (plainCutoff (3600 * second)) "" 1000, .act childCancel]

/-- **A pass deletes a parent that waits, and its barrier is lost.** The parent ended at time zero,
with a child and a barrier over it. A pass deletes it while the child waits; the child is then
cancelled, and no continuation is in the table. -/
theorem pruned_parent_never_continues :
    Legal World.next (fun w e => ∀ a, e = .act a → w.Admits a) {}
        (startedParent.map .act ++ .act finishedParent :: prunedParent) ∧
      finishedParent.declares (World.pruned {} (startedParent.map .act)).db = some "parent" ∧
      (World.pruned {} (startedParent.map .act ++
        .act finishedParent :: prunedParent)).db.hasPendingChild "parent" = false ∧
      ∀ r ∈ (World.pruned {} (startedParent.map .act ++ .act finishedParent ::
          prunedParent)).db.jobs.rows, r.uniqueKey ≠ some (barrierKey "parent") := by
  refine ⟨⟨?_, ?_, ?_, ?_, ?_, ?_, trivial⟩, by decide, by decide, by decide⟩
  · rintro a ⟨⟩
    trivial
  · rintro a ⟨⟩
    exact not_mem_nil
  · rintro a ⟨⟩
    exact ⟨_, mem_cons_self, rfl, rfl⟩
  · rintro a ⟨⟩
    exact ⟨_, mem_cons_self, rfl, rfl⟩
  · rintro a ⟨⟩
  · rintro a ⟨⟩
    trivial

end Flywheel
