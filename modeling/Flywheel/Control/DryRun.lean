import Mathlib.Data.List.Induction
import Flywheel.Control.Walk

/-!
# A dry run and its apply

A dry run classifies over a database that it does not change, and an apply over one that its own
batches change. Both follow the plan of their selection, so that they agree as long as the apply
leaves nothing out. What an apply leaves out are jobs under the key of a continuation that it
enqueued, and a stored job may carry such a key: the walk then passes it by, though the dry run
counted it.
-/

namespace Flywheel

open Relational Transition Keyset List Table

/-! ## The generations that a cancel ends -/

/-- The cancel of a selection ends a parent's generation: the parent declares a barrier, and the
cancel changes all its pending children, of which there is one. -/
structure BulkSpec.Ends (ops : Operators) (spec : BulkSpec) (db : Db) (p : String) : Prop where
  cancels : spec.action = .cancel
  declares : ∃ r kind, db.job? p = some r ∧ r.barrierKind = some kind
  child : ∃ c ∈ db.jobs.rows, c.pendingChildOf p = true
  children : ∀ c ∈ db.jobs.rows, c.pendingChildOf p = true →
    spec.shows ops db c = true ∧ c.state ∈ waitingStates

/-- An apply can be foretold from the database that it begins on: of every generation that it ends,
the continuation can be built, and no selected job past the children carries the continuation's
key. -/
def BulkSpec.Foretold (ctx : Context) (ops : Operators) (spec : BulkSpec) (db : Db) : Prop :=
  ∀ p, spec.Ends ops db p → Buildable ctx db p ∧
    ∀ j ∈ db.jobs.rows, spec.shows ops db j = true → j.uniqueKey = some (barrierKey p) →
      ∃ c ∈ db.jobs.rows, c.pendingChildOf p = true ∧ j.id ≤ c.id

variable {ops : Operators} {spec : BulkSpec} {db db' : Db} {start w : BulkWalk}
  {pages : List (List JobRow)} {rows : List JobRow} {taken : List String} {r : JobRow} {p : String}

theorem BulkSpec.mem_classify_cancel (hcancel : spec.action = .cancel) :
    r ∈ (spec.rule taken).classify db rows ↔ r ∈ rows ∧ r.state ∈ waitingStates := by
  have hforced : (spec.rule taken).forced = false := by
    rw [BulkRun.forced, Bool.and_eq_false_iff]
    exact .inl (decide_eq_false (by rw [show (spec.rule taken).action = _ from hcancel]; decide))
  have hsources : (spec.rule taken).sources = waitingStates := by
    rw [BulkRun.sources, show (spec.rule taken).action = _ from hcancel]
  rw [BulkRun.mem_classify_iff, hforced, BulkRun.skipReason, hsources, hforced]
  refine and_congr_right fun _ => ⟨fun h => ?_, fun hwaiting => ⟨?_, fun h => (by cases h)⟩⟩
  · grind
  · simp_all

theorem Plan.change_waiting (hcancel : spec.action = .cancel) :
    ∀ r ∈ ((Plan.start start).walk spec db pages).change, r.state ∈ waitingStates := by
  induction pages using List.reverseRecOn with
  | nil =>
    intro r hr
    cases hr
  | append_singleton pages page ih =>
    intro r hr
    rw [Plan.walk_append] at hr
    rcases mem_append.mp hr with hr | hr
    · exact ih r hr
    · exact ((BulkSpec.mem_classify_cancel hcancel).mp hr).2

theorem pendingChildOf_of_waiting (hvisible : r.visible = true) (hparent : r.parentJobID = some p)
    (hwaiting : r.state ∈ waitingStates) : r.pendingChildOf p = true := by
  have hended : ∀ state ∈ waitingStates, state.isTerminal = false := by decide
  simp_all [JobRow.pendingChildOf]

/-- **A barrier that fires is that of a generation which the cancel ends**, and its children are
behind the walk. -/
theorem Plan.ends_of_fired
    (hshown : ∀ r ∈ pages.flatten, r ∈ db.jobs.rows ∧ spec.shows ops db r = true)
    (hp : p ∈ ((Plan.start start).walk spec db pages).fired) :
    spec.Ends ops db p ∧ ∀ c ∈ db.jobs.rows, c.pendingChildOf p = true → c ∈ pages.flatten := by
  have hsound := Plan.sound_walk spec db start pages
  have hcancel : spec.action = .cancel := by
    by_contra hnot
    rw [hsound.idle fun hboth => hnot hboth.1] at hp
    cases hp
  have hread : ∀ r ∈ ((Plan.start start).walk spec db pages).change, r ∈ pages.flatten :=
    fun r hr =>
    hsound.seen.subset (hsound.change.subset hr)
  obtain ⟨hdeclares, hall⟩ := completes_iff.mp (hsound.completes p hp)
  -- every pending child was changed
  have hchanged : ∀ c ∈ db.jobs.rows, c.pendingChildOf p = true →
      c ∈ ((Plan.start start).walk spec db pages).change := by
    grind [eq_of_key_eq]
  obtain ⟨r, hr, hparent⟩ := hsound.parent p hp
  obtain ⟨hrow, hshows⟩ := hshown r (hread r hr)
  have hvisible := (Bool.and_eq_true_iff.mp hshows).1
  refine ⟨⟨hcancel, hdeclares, ⟨r, hrow, ?_⟩, fun c hc hpending => ?_⟩,
    fun c hc hpending => hread c (hchanged c hc hpending)⟩
  · exact pendingChildOf_of_waiting hvisible hparent (Plan.change_waiting hcancel r hr)
  · grind [Plan.change_waiting]

/-- **A walk that read the children of a generation which it ends has fired the barrier.** -/
theorem BulkSpec.Ends.fired (h : spec.Ends ops db p) (hdry : spec.dryRun = false)
    (hstored : ∀ r ∈ pages.flatten, r ∈ db.jobs.rows)
    (hwhole : ((Plan.start start).walk spec db pages).Whole spec db start.taken pages.flatten)
    (hread : ∀ c ∈ db.jobs.rows, c.pendingChildOf p = true → c ∈ pages.flatten) :
    p ∈ ((Plan.start start).walk spec db pages).fired := by
  have hchanged : ∀ c ∈ db.jobs.rows, c.pendingChildOf p = true →
      c ∈ ((Plan.start start).walk spec db pages).change := by
    intro c hc hpending
    rw [hwhole.change]
    exact (BulkSpec.mem_classify_cancel h.cancels).mpr ⟨hread c hc hpending,
      (h.children c hc hpending).2⟩
  obtain ⟨c, hc, hpending⟩ := h.child
  refine Plan.mem_fired h.cancels hdry hstored ⟨c, hchanged c hc hpending, ?_⟩ ?_
  · simp_all [JobRow.pendingChildOf]
  · exact completes_iff.mpr ⟨h.declares, fun c hc hpending =>
      mem_map_of_mem (hchanged c hc hpending)⟩

/-! ## A walk that leaves nothing out -/

/-- What a plan has seen of its pages is all of them when it left nothing out. -/
theorem Plan.shown_of_seen (h : ((Plan.start start).walk spec db pages).seen = pages.flatten) :
    ∀ pre page post, pages = pre ++ page :: post → ∀ r ∈ page,
      ((Plan.start start).walk spec db pre).hides r = false := by
  induction pages using List.reverseRecOn with
  | nil => simp_all
  | append_singleton pages last ih =>
    rw [Plan.walk_append, flatten_append, flatten_singleton] at h
    change _ ++ last.filter (fun r => !((Plan.start start).walk spec db pages).hides r) = _ at h
    -- neither part of what it saw is longer than what it read, so that neither is shorter
    have hseen := (Plan.sound_walk spec db start pages).seen
    have hfilter := filter_sublist (l := last)
      (p := fun r => !((Plan.start start).walk spec db pages).hides r)
    have hlength := congrArg List.length h
    rw [length_append, length_append] at hlength
    have hle := hseen.length_le
    have hle' := hfilter.length_le
    have hall := hseen.eq_of_length (by omega)
    intro pre page post hsplit r hr
    rcases eq_nil_or_concat post with rfl | ⟨post, x, rfl⟩
    · simp_all
    · rw [concat_eq_append, ← cons_append, ← append_assoc] at hsplit
      exact ih hall pre page post (append_inj' hsplit rfl).1 r hr

theorem eq_of_countP_state {seen rows : List JobRow} (hsub : seen.Sublist rows)
    (h : ∀ st, (seen.countP fun r => decide (r.state = st)) =
      rows.countP fun r => decide (r.state = st)) : seen = rows := by
  induction hsub with
  | slnil => rfl
  | @cons seen rows r hsub _ =>
    have hle := hsub.countP_le (p := fun s => decide (s.state = r.state))
    simp_all
  | @cons_cons seen rows r _ ih =>
    refine congrArg (r :: ·) (ih fun st => ?_)
    have heq := h st
    grind

section Foretold

variable (h : WalkInv ops spec db start pages db' w) {ctx : Context}
include h

theorem WalkInv.shown : ∀ r ∈ pages.flatten, r ∈ db.jobs.rows ∧ spec.shows ops db r = true := by
  intro r hr
  obtain ⟨hstored, hshows, -⟩ := BulkSpec.mem_rest.mp (h.mem_rest hr)
  exact ⟨hstored, hshows⟩

/-- **An apply that can be foretold leaves nothing out.** -/
theorem WalkInv.whole_of_foretold (hstart : start.fired = [])
    (hforetold : spec.Foretold ctx ops db) :
    (spec.plan db start pages).Whole spec db start.taken pages.flatten := by
  refine Plan.whole_walk (fun r hr => (h.shown r hr).1) (nodup_ids h.ascending) ?_
  intro pre page post hsplit r hr
  rw [← Bool.not_eq_true]
  intro hhides
  obtain ⟨key, hkey, hhidden⟩ := Plan.hides_iff.mp hhides
  rw [Plan.hidden_walk, hstart, nil_append] at hhidden
  obtain ⟨p, hp, rfl⟩ := mem_map.mp hhidden
  have hflat : pages.flatten = pre.flatten ++ (page ++ post.flatten) := by
    rw [hsplit, flatten_append, flatten_cons]
  have hasc := h.ascending
  rw [hflat] at hasc
  have hshown : ∀ s ∈ pre.flatten, s ∈ db.jobs.rows ∧ spec.shows ops db s = true := fun s hs =>
    h.shown s (hflat ▸ mem_append_left _ hs)
  have hin : r ∈ page ++ post.flatten := mem_append_left _ hr
  obtain ⟨hrow, hshows⟩ := h.shown r (hflat ▸ mem_append_right _ hin)
  obtain ⟨hends, hread⟩ := Plan.ends_of_fired hshown hp
  obtain ⟨c, hc, hpending, hle⟩ := (hforetold p hends).2 r hrow hshows hkey
  exact absurd ((pairwise_append.mp hasc).2.2 c (hread c hc hpending) r hin) (not_lt.mpr hle)

/-- **An apply of single jobs that leaves nothing out can be foretold**, if it builds its
continuations. -/
theorem WalkInv.foretold (hdry : spec.dryRun = false) (hsize : spec.size = 1)
    (hselected : ∀ r ∈ db.jobs.rows, spec.shows ops db r = true → r ∈ pages.flatten)
    (hseen : (spec.plan db start pages).seen = pages.flatten)
    (hbuilt : ∀ p ∈ (spec.plan db start pages).fired, Buildable ctx db p) :
    spec.Foretold ctx ops db := by
  have hshown := Plan.shown_of_seen hseen
  have hstored : ∀ r ∈ pages.flatten, r ∈ db.jobs.rows := fun r hr => (h.shown r hr).1
  intro p hends
  have hchildren : ∀ c ∈ db.jobs.rows, c.pendingChildOf p = true → c ∈ pages.flatten :=
    fun c hc hpending => hselected c hc (hends.children c hc hpending).1
  refine ⟨hbuilt p ?_, fun j hj hshows hkey => ?_⟩
  · exact hends.fired hdry hstored
      (Plan.whole_walk hstored (nodup_ids h.ascending) hshown) hchildren
  · by_contra hnone
    push Not at hnone
    -- the job is a page of its own, past those of the children
    obtain ⟨page, hpage, hjpage⟩ := mem_flatten.mp (hselected j hj hshows)
    obtain ⟨pre, post, hsplit⟩ := append_of_mem hpage
    have hsingle : page = [j] := by
      have hlength := h.sizes page hpage
      rw [hsize] at hlength
      obtain ⟨x, hx⟩ := length_eq_one_iff.mp (le_antisymm hlength (length_pos_of_mem hjpage))
      simp_all
    have hflat : pages.flatten = pre.flatten ++ j :: post.flatten := by
      rw [hsplit, hsingle, flatten_append, flatten_cons, singleton_append]
    have hasc := h.ascending
    rw [hflat] at hasc
    have hpre : ∀ r ∈ pre.flatten, r ∈ pages.flatten := fun r hr => hflat ▸ mem_append_left _ hr
    have hread : ∀ c ∈ db.jobs.rows, c.pendingChildOf p = true → c ∈ pre.flatten := by
      intro c hc hpending
      have hin := hchildren c hc hpending
      have hlt := hnone c hc hpending
      rw [hflat, mem_append, mem_cons] at hin
      rcases hin with hin | rfl | hin
      · exact hin
      · exact absurd hlt (lt_irrefl _)
      · have hpost := (pairwise_append.mp hasc).2.1
        exact absurd ((pairwise_cons.mp hpost).1 c hin) (lt_asymm hlt)
    have hwhole : ((Plan.start start).walk spec db pre).Whole spec db start.taken pre.flatten :=
      Plan.whole_walk (fun r hr => hstored r (hpre r hr)) (nodup_ids (pairwise_append.mp hasc).1)
        fun pre' page' post' hpages => hshown pre' page' (post' ++ page :: post)
          (by rw [hsplit, hpages, append_assoc, cons_append])
    have hfired := hends.fired hdry (fun r hr => hstored r (hpre r hr)) hwhole hread
    have hhides := hshown pre page post hsplit j hjpage
    rw [← Bool.not_eq_true, Plan.hides_iff] at hhides
    grind [Plan.hidden_walk]

end Foretold

/-! ## The two calls -/

/-- What a dry run reports is what the apply does. -/
structure BulkEnd.Foretells (dry applied : BulkEnd) : Prop where
  error : dry.error = applied.error
  matched : dry.result.matched = applied.result.matched
  changed : dry.result.changed = applied.result.changed
  skipped : dry.result.skipped = applied.result.skipped
  byState : dry.result.byState = applied.result.byState
  byKind : dry.result.byKind = applied.result.byKind
  jobs : dry.walk.changedIDs = applied.walk.changedIDs

/-- The spec with a batch size, as a dry run or an apply. -/
def BulkSpec.sized (spec : BulkSpec) (batchSize : ℤ) (dryRun : Bool) : BulkSpec :=
  { spec with batchSize, dryRun }

theorem BulkSpec.foretold_sized {ctx : Context} (batchSize : ℤ) (dryRun : Bool) :
    (spec.sized batchSize dryRun).Foretold ctx ops db ↔ spec.Foretold ctx ops db :=
  ⟨fun h p hends => h p ⟨hends.cancels, hends.declares, hends.child, hends.children⟩,
    fun h p hends => h p ⟨hends.cancels, hends.declares, hends.child, hends.children⟩⟩

section Calls

variable {call : ℕ → Context} {dialect : Dialect} {e : BulkEnd}

/-- Two walks over one selection that leave nothing out report the same. -/
theorem BulkEnd.Foretells.of_whole {batchSize : ℤ} {now : Time} {pages' : List (List JobRow)}
    {db'' : Db} {w' : BulkWalk}
    (hdry : WalkInv ops (spec.sized batchSize true) db (spec.start ops now db) pages db' w)
    (happlied : WalkInv ops (spec.sized batchSize false) db (spec.start ops now db) pages' db'' w')
    (hwhole : ((spec.sized batchSize true).plan db (spec.start ops now db) pages).Whole
      (spec.sized batchSize true) db [] rows)
    (hwhole' : ((spec.sized batchSize false).plan db (spec.start ops now db) pages').Whole
      (spec.sized batchSize false) db [] rows) :
    (w.finish db' true).Foretells (w'.finish db'' true) where
  error := rfl
  matched := hdry.matched.trans happlied.matched.symm
  changed := by
    change w.result.changed = w'.result.changed
    rw [hdry.changed, happlied.changed, hwhole.change, hwhole'.change]
    rfl
  skipped := by
    change w.result.skipped = w'.result.skipped
    funext s
    rw [hdry.skipped, happlied.skipped, hwhole.skips, hwhole'.skips]
    rfl
  byState := by
    change w.result.byState = w'.result.byState
    funext st
    rw [hdry.byState, happlied.byState, hwhole.seen, hwhole'.seen]
  byKind := by
    change w.result.byKind = w'.result.byKind
    funext k
    rw [hdry.byKind, happlied.byKind, hwhole.seen, hwhole'.seen]
  jobs := by
    change w.changedIDs = w'.changedIDs
    rw [hdry.changedIDs, happlied.changedIDs, hwhole.change, hwhole'.change]
    rfl

theorem WalkInv.whole_dry (h : WalkInv ops spec db start pages db' w) (hdry : spec.dryRun = true)
    (hstart : start.fired = []) :
    (spec.plan db start pages).Whole spec db start.taken pages.flatten := by
  refine Plan.whole_walk (fun r hr => (h.shown r hr).1) (nodup_ids h.ascending) ?_
  intro pre page post _ r _
  have hidle : ((Plan.start start).walk spec db pre).fired = [] :=
    (Plan.sound_walk spec db start pre).idle fun hboth => by
      simp_all
  rw [← Bool.not_eq_true, Plan.hides_iff, Plan.hidden_walk, hstart, hidle]
  simp_all

theorem WalkEnds.dry {ctx : Context} {hooked : Prop} (h : WalkEnds ops spec db start ctx hooked e)
    (hdry : spec.dryRun = true) (hhook : ¬hooked) :
    ∃ pages db' w, e = w.finish db' true ∧ WalkInv ops spec db start pages db' w ∧
      pages.flatten = spec.rest ops db start.cursor start.next := by
  cases h with
  | done hinv hall _ => exact ⟨_, _, _, rfl, hinv, hall⟩
  | refused _ _ hook => exact absurd hook hhook
  | unbuilt _ _ _ hfires _ => simp_all [Plan.fires, BulkSpec.fires]

end Calls

/-- **A bulk dry run predicts its apply, for every batch size, exactly if the apply can be
foretold.** The spec's selection is of at most MaxJobs jobs, and no hook of the host refuses an
entry. -/
theorem dry_run_predicts_apply (call : ℕ → Context) (ops : Operators) (dialect : Dialect)
    (spec : BulkSpec) (db : Db) (hcall : OneActor call)
    (hclient : ∀ i, SameClient (call 0) (call i)) (hhook : ∀ i, (call i).auditHook = none)
    (hnamed : db.Named) (hindex : activeKeysUnique db.jobs = true)
    (hfits : db.jobs.rows.countP (spec.shows ops db) ≤ spec.limit) :
    (∀ batchSize, ∃ dry applied : BulkEnd,
      (∀ fuel, spec.rounds db < fuel →
        bulkJobs call false (fun _ => false) ops dialect (spec.sized batchSize true) fuel db =
            some dry ∧
          bulkJobs call false (fun _ => false) ops dialect (spec.sized batchSize false) fuel db =
            some applied) ∧
      dry.Foretells applied) ↔
    (spec.refuse (call 0) dialect = .ok () → spec.Foretold (call 0) ops db) := by
  cases hrefuse : spec.refuse (call 0) dialect with
  | error e =>
    -- both are refused alike
    refine iff_of_true (fun batchSize => ?_) nofun
    have hrefused : ∀ dryRun fuel, bulkJobs call false (fun _ => false) ops dialect
        (spec.sized batchSize dryRun) fuel db =
          some { db, walk := { result := {}, cursor := spec.after, now := (call 0).clock 0 }
                 result := {}, error := some e } := by
      intro dryRun fuel
      rw [bulkJobs, show (spec.sized batchSize dryRun).refuse (call 0) dialect = .error e
        from hrefuse]
      rfl
    exact ⟨_, _, fun fuel _ => ⟨hrefused true fuel, hrefused false fuel⟩,
      ⟨rfl, rfl, rfl, rfl, rfl, rfl, rfl⟩⟩
  | ok u =>
    have hnone : ¬∃ i, (call i).auditHook ≠ none := by simp [hhook]
    have hends : ∀ batchSize dryRun, ∃ e, (∀ fuel, spec.rounds db < fuel →
        bulkJobs call false (fun _ => false) ops dialect (spec.sized batchSize dryRun) fuel db =
          some e) ∧ WalkEnds ops (spec.sized batchSize dryRun) db
            (spec.start ops ((call 0).clock 0) db) (call 0) (∃ i, (call i).auditHook ≠ none) e :=
      fun batchSize dryRun =>
        have hsized : (spec.sized batchSize dryRun).refuse (call 0) dialect = .ok () := hrefuse
        bulkJobs_ends hsized hcall (fun _ => hclient) hnamed (fun _ => hindex) hfits
    have hselected := BulkSpec.rest_start hnamed ops spec
    constructor
    · intro hpredicts _
      obtain ⟨dry, applied, hruns, hforetells⟩ := hpredicts 1
      obtain ⟨dry', hdry, hdryEnds⟩ := hends 1 true
      obtain ⟨applied', happlied, hends⟩ := hends 1 false
      obtain ⟨hdry', happlied'⟩ := hruns _ (Nat.lt_succ_self _)
      cases hdry'.symm.trans (hdry _ (Nat.lt_succ_self _))
      cases happlied'.symm.trans (happlied _ (Nat.lt_succ_self _))
      obtain ⟨pages, db₁, w₁, rfl, hinv, hall⟩ := hdryEnds.dry rfl hnone
      cases hends with
      | @done pages' db₂ w₂ hinv' hall' hbuilt =>
        -- the counts by state tell whether a job was left out
        have hseen := (hinv.whole_dry rfl rfl).seen.trans (hall.trans hall'.symm)
        refine (BulkSpec.foretold_sized 1 false).mp
          (hinv'.foretold rfl ?_ (fun r hr hshows => ?_) ?_ hbuilt)
        · simp [BulkSpec.size, BulkSpec.sized, maxBulkBatchSize]
        · rw [hall']
          change r ∈ spec.rest ops db spec.after 0
          rw [hselected]
          exact mem_sortedJobs.mpr ⟨hr, hshows⟩
        · refine eq_of_countP_state (Plan.sound_walk _ db _ pages').seen fun st => ?_
          have hcount : w₁.result.byState st = w₂.result.byState st :=
            congrFun hforetells.byState st
          rw [hinv.byState, hinv'.byState, hseen] at hcount
          exact (Nat.add_left_cancel hcount).symm
      | refused _ _ hook => exact absurd hook hnone
      | unbuilt _ _ _ _ _ => cases hforetells.error
    · intro hforetold batchSize
      obtain ⟨dry, hdry, hdryEnds⟩ := hends batchSize true
      obtain ⟨applied, happlied, hends⟩ := hends batchSize false
      refine ⟨dry, applied, fun fuel hfuel => ⟨hdry fuel hfuel, happlied fuel hfuel⟩, ?_⟩
      have hforetold := (BulkSpec.foretold_sized batchSize false).mpr (hforetold rfl)
      obtain ⟨pages, db₁, w₁, rfl, hinv, hall⟩ := hdryEnds.dry rfl hnone
      cases hends with
      | done hinv' hall' _ =>
        have hwhole := hinv.whole_dry rfl rfl
        have hwhole' := hinv'.whole_of_foretold rfl hforetold
        rw [hall] at hwhole
        rw [hall'] at hwhole'
        exact .of_whole hinv hinv' hwhole hwhole'
      | refused _ _ hook => exact absurd hook hnone
      | @unbuilt pages' db₂ w₂ _ _ hinv' p hfires hnot =>
        refine absurd (hforetold p ?_).1 hnot
        have hfired : p ∈ ((spec.sized batchSize false).plan db
          (spec.start ops ((call 0).clock 0) db)
            (pages' ++ [w₂.nextSegment ops (spec.sized batchSize false) db db₂])).fired := by
          rw [BulkSpec.plan_snoc]
          exact mem_append_right _ hfires
        refine (Plan.ends_of_fired (fun r hr => ?_) hfired).1
        rw [flatten_append, flatten_singleton, mem_append] at hr
        rcases hr with hr | hr
        · exact hinv'.shown r hr
        · obtain ⟨hstored, hshows, -⟩ := BulkSpec.mem_rest.mp (mem_of_mem_filter hr)
          exact ⟨hstored, hshows⟩

/-- A stored job that waits. -/
def waitingJob (id : String) : JobRow :=
  freshRow id "work" "default" 0 { tags := .null, metadata := .null } .null

/-- Two jobs that wait. -/
def twoWaiting : Db := { jobs := { rows := [waitingJob "a", waitingJob "b"], nodup := by decide } }

/-- A cancel of the jobs of one kind. -/
def cancelWork : BulkSpec := { query := { kinds := ["work"] }, action := .cancel }

/-- The dry run of a cancel of both, in batches of one, foretells the cancel. -/
theorem dry_run_predicts_two_cancels :
    ∃ dry applied : BulkEnd,
      bulkJobs (fun _ => {}) false (fun _ => false) {} .sqlite
        (cancelWork.sized 1 true) 5 twoWaiting =
          some dry ∧
        bulkJobs (fun _ => {}) false (fun _ => false) {} .sqlite
          (cancelWork.sized 1 false) 5 twoWaiting = some applied ∧
        dry.Foretells applied := by
  have hpredicts := (dry_run_predicts_apply (fun _ => {}) {} .sqlite cancelWork twoWaiting
    (fun _ => rfl) (fun _ => ⟨rfl, rfl, rfl, rfl⟩) (fun _ => rfl) (by unfold Db.Named; decide)
    (by decide) (by decide)).mpr ?_
  · obtain ⟨dry, applied, hruns, hforetells⟩ := hpredicts 1
    obtain ⟨hdry, happlied⟩ := hruns 5 (by decide)
    exact ⟨dry, applied, hdry, happlied, hforetells⟩
  · intro _ p hends
    obtain ⟨c, hc, hpending⟩ := hends.child
    have hparent : ∀ c ∈ twoWaiting.jobs.rows, c.parentJobID = none := by decide
    simp [JobRow.pendingChildOf, hparent c hc] at hpending

/-- A parent that declares a barrier, its one child, and a later job of the host under the key that
the barrier's continuation will have. -/
def keyedLikeContinuation : Db :=
  { jobs :=
      { rows :=
          [{ freshRow "a" "parent" "default" 0 { tags := .null, metadata := .null } .null with
              state := .succeeded, barrierKind := some "after"
              barrierSpec := some { args := .null, queue := "default", executorClass := ""
                                    priority := 0, maxAttempts := 1, timeoutMs := 0, tags := [] } },
            { waitingJob "b" with parentJobID := some "a" },
            { waitingJob "c" with uniqueKey := some (barrierKey "a") }]
        nodup := by decide } }

/-- **A dry run may count a job that its apply passes by.** In batches of one, the cancel of the
child fires the barrier, and the walk then takes the later job for the continuation. -/
theorem dry_run_counts_hidden_job :
    ∃ dry applied : BulkEnd,
      bulkJobs (fun _ => {}) false (fun _ => false) {} .sqlite (cancelWork.sized 1 true) 7
          keyedLikeContinuation = some dry ∧
        bulkJobs (fun _ => {}) false (fun _ => false) {} .sqlite (cancelWork.sized 1 false) 7
          keyedLikeContinuation = some applied ∧
        dry.error = none ∧ applied.error = none ∧ dry.result.changed = 2 ∧
        applied.result.changed = 1 ∧ dry.walk.changedIDs = ["b", "c"] ∧
        applied.walk.changedIDs = ["b"] :=
  ⟨_, _, rfl, rfl, rfl, rfl, rfl, rfl, rfl, rfl⟩

end Flywheel
