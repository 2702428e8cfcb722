import Mathlib.Data.List.Induction
import Flywheel.Control.Bulk

/-!
# What a bulk walk comes to

The abstract walk: from the database that a bulk call began on, and the pages into which its
selection falls, which jobs it reads, which it changes, which active keys it takes and, for a
cancel, which barriers it fires. Nothing of the transactions is left in it but their order. Where it
leaves nothing out the pages do not matter (`Plan.whole_walk`): what is classified page by page,
with the keys of the earlier pages taken, is what would be classified at once.
-/

namespace Flywheel

open Relational Keyset List Option Table

/-! ## The abstract walk -/

/-- What of a run its classification reads. -/
def BulkSpec.rule (spec : BulkSpec) (taken : List String) : BulkRun :=
  { action := spec.action, retryOpts := spec.retry, selects := fun _ _ => true, now := 0, taken }

/-- The abstract walk so far, in rows of the database that it began on. `hidden` is the unique keys
that it leaves out, and `fired` the parents whose barriers it fired. -/
structure Plan where
  seen : List JobRow := []
  skips : List BulkSkipReason := []
  change : List JobRow := []
  taken : List String := []
  hidden : List String := []
  fired : List String := []

/-- The abstract walk that goes on from a walk. -/
def Plan.start (w : BulkWalk) : Plan := { taken := w.taken, hidden := w.fired }

/-- The walk leaves the job out. -/
def Plan.hides (π : Plan) (r : JobRow) : Bool := r.uniqueKey.any π.hidden.contains

variable {run : BulkRun} {r : JobRow} {pages : List (List JobRow)} {π : Plan} {p : String} {db : Db}

theorem Plan.hides_iff : π.hides r = true ↔ ∃ key, r.uniqueKey = some key ∧ key ∈ π.hidden := by
  rw [Plan.hides, Option.any_eq_true]
  simp

/-- Once these jobs have ended, a parent's generation has: it declares a barrier and no child is
pending. -/
def completes (db : Db) (ended : List String) (p : String) : Bool :=
  ((db.job? p).any fun r => r.barrierKind.isSome) &&
    !db.jobs.rows.any fun r => r.pendingChildOf p && !ended.contains r.id

theorem completes_iff {ended : List String} :
    completes db ended p = true ↔ (∃ r kind, db.job? p = some r ∧ r.barrierKind = some kind) ∧
      ∀ r ∈ db.jobs.rows, r.pendingChildOf p = true → r.id ∈ ended := by
  rw [completes, Bool.and_eq_true, Option.any_eq_true, Bool.not_eq_true', List.any_eq_false]
  refine and_congr ?_ (forall_congr' fun r => imp_congr_right fun _ => ?_)
  · simp [isSome_iff_exists]
  · simp

/-- Of these parents, those whose barriers fire once these jobs have ended: each fires once. -/
def firing (db : Db) (ended fired parents : List String) : List String :=
  parents.filter fun p => completes db ended p && !fired.contains p

/-- The keys that a page takes. -/
def BulkSpec.takes (spec : BulkSpec) (change : List JobRow) : List String :=
  if spec.action = .retry ∧ spec.retry.force then change.filterMap JobRow.uniqueActiveKey else []

/-- The barriers that a page fires, once these jobs have ended; a dry run fires none. -/
def BulkSpec.fires (spec : BulkSpec) (db : Db) (fired ended : List String) (change : List JobRow) :
    List String :=
  if spec.action = .cancel ∧ spec.dryRun = false then
    firing db ended fired (sortedParents JobRow.parentJobID change)
  else []

/-- The jobs of a page that the abstract walk changes. -/
def Plan.changes (spec : BulkSpec) (db : Db) (π : Plan) (rows : List JobRow) : List JobRow :=
  (spec.rule π.taken).classify db (rows.filter fun r => !π.hides r)

/-- The barriers that the page fires. -/
def Plan.fires (spec : BulkSpec) (db : Db) (π : Plan) (rows : List JobRow) : List String :=
  spec.fires db π.fired ((π.change ++ π.changes spec db rows).map JobRow.id)
    (π.changes spec db rows)

/-- One page of the abstract walk. -/
def Plan.page (spec : BulkSpec) (db : Db) (π : Plan) (rows : List JobRow) : Plan where
  seen := π.seen ++ rows.filter fun r => !π.hides r
  skips := π.skips ++ (spec.rule π.taken).skips db (rows.filter fun r => !π.hides r)
  change := π.change ++ π.changes spec db rows
  taken := π.taken ++ spec.takes (π.changes spec db rows)
  hidden := π.hidden ++ (π.fires spec db rows).map barrierKey
  fired := π.fired ++ π.fires spec db rows

/-- The abstract walk over its pages. -/
def Plan.walk (spec : BulkSpec) (db : Db) (π : Plan) (pages : List (List JobRow)) : Plan :=
  pages.foldl (Plan.page spec db) π

theorem Plan.walk_append (spec : BulkSpec) (db : Db) (π : Plan)
    (pages pages' : List (List JobRow)) :
    π.walk spec db (pages ++ pages') = (π.walk spec db pages).walk spec db pages' :=
  foldl_append

/-! ## Classifying in two parts -/

theorem BulkRun.classify_eq (run : BulkRun) (db : Db) (rows : List JobRow) :
    run.classify db rows = rows.filter fun r => (run.reason db rows r).isNone := by
  refine filter_congr fun r _ => ?_
  rw [BulkRun.reason]
  grind

variable {spec : BulkSpec} {db : Db} {taken : List String} {rows rows' : List JobRow} {w : BulkWalk}

theorem BulkRun.reason_of_not_forced (h : run.forced = false) (db : Db) (rows : List JobRow)
    (r : JobRow) : run.reason db rows r = run.skipReason db r := by
  rw [BulkRun.reason]
  grind

/-- The keys that the key rule counts as held, in a batch. -/
def BulkRun.ruledHeld (run : BulkRun) (db : Db) (r : JobRow) : Bool :=
  activeKeyHeld db r || r.uniqueActiveKey.any run.taken.contains

theorem BulkRun.liveIDs_eq (run : BulkRun) (db : Db) (rows : List JobRow) :
    run.liveIDs db rows = liveCandidates (run.ruledHeld db) [] (rows.filter (run.keyRuled db)) :=
      rfl

/-- A job that the key rule decides is terminal and keyed, and there is no other reason to leave
it. -/
theorem BulkRun.keyRuled_iff : run.keyRuled db r = true ↔
      (∃ key, r.uniqueActiveKey = some key) ∧ r.state.isTerminal = true ∧
        run.skipReason db r = none := by
  rw [BulkRun.keyRuled, Bool.and_eq_true, Bool.and_eq_true, isSome_iff_exists,
    isNone_iff_eq_none, and_assoc]

/-- A changed job is one that nothing else keeps, and that the key rule lets go live if it decides
it. -/
theorem BulkRun.mem_classify_iff :
    r ∈ run.classify db rows ↔ r ∈ rows ∧ run.skipReason db r = none ∧
      (run.forced = true → run.keyRuled db r = true → r.id ∈ run.liveIDs db rows) := by
  rw [BulkRun.classify, mem_filter, Bool.and_eq_true, isNone_iff_eq_none]
  grind

section Parts

variable (hstored : ∀ r ∈ rows ++ rows', r ∈ db.jobs.rows)
  (hnodup : ((rows ++ rows').map JobRow.id).Nodup)
include hstored hnodup

variable {r : JobRow}

/-- The keys that the first part's jobs take are, for a job of the second part, those that the pick
over the first part takes. -/
theorem BulkSpec.ruled_taken (hforced : spec.action = .retry ∧ spec.retry.force = true)
    (hr : r ∈ rows') {key : String} (hkey : r.uniqueActiveKey = some key) :
    ((spec.rule taken).ruledHeld db r ||
        (takenAfter ((spec.rule taken).ruledHeld db) []
          (rows.filter ((spec.rule taken).keyRuled db))).contains key) =
      (spec.rule (taken ++ spec.takes ((spec.rule taken).classify db rows))).ruledHeld db r := by
  have hids : ∀ s ∈ rows, s.id ≠ r.id := fun s hs heq => by
    grind
  have hruled : ∀ taken', (spec.rule taken').ruledHeld db r =
      (activeKeyHeld db r || decide (key ∈ taken')) := fun taken' => by
    rw [BulkRun.ruledHeld, hkey, any_some]
    exact congrArg (activeKeyHeld db r || ·) (contains_eq_mem key taken')
  rw [hruled, hruled, BulkSpec.takes, if_pos hforced, Bool.or_assoc]
  cases hheld : activeKeyHeld db r with
  | true => rfl
  | false =>
    rw [Bool.false_or, Bool.false_or, Bool.eq_iff_iff, Bool.or_eq_true, decide_eq_true_iff,
      decide_eq_true_iff, contains_iff_mem, mem_append, mem_filterMap]
    refine or_congr_right ⟨fun htaken => ?_, ?_⟩
    · rcases exists_picked htaken with hnil | ⟨s, hs, hskey, hpick⟩
      · cases hnil
      · obtain ⟨hs, hruled⟩ := mem_filter.mp hs
        exact ⟨s, BulkRun.mem_classify_iff.mpr ⟨hs, (BulkRun.keyRuled_iff.mp hruled).2.2,
          fun _ _ => hpick⟩, hskey⟩
    · rintro ⟨s, hs, hskey⟩
      obtain ⟨hs, hreason, hlive⟩ := BulkRun.mem_classify_iff.mp hs
      have hsrow := hstored s (mem_append_left _ hs)
      -- the key is not held, so that the job which takes it had ended
      have hended : s.state.isTerminal = true := by
        by_contra hnot
        have hslive : s.live = true := by
          rw [JobRow.live, nonTerminalStates_contains, Bool.not_eq_true']
          exact Bool.not_eq_true _ ▸ hnot
        have hholds := activeKeyHeld_iff.mpr ⟨key, hkey, s, hsrow, hskey, hslive, hids s hs⟩
        simp_all
      have hsruled : (spec.rule taken).keyRuled db s = true :=
        BulkRun.keyRuled_iff.mpr ⟨⟨key, hskey⟩, hended, hreason⟩
      have hforced' : (spec.rule taken).forced = true := by
        rw [BulkRun.forced, Bool.and_eq_true]
        exact ⟨decide_eq_true hforced.1, hforced.2⟩
      have hsub : ((rows.filter ((spec.rule taken).keyRuled db)).map JobRow.id).Nodup := by
        grind
      exact (held_of_picked hsub (mem_filter.mpr ⟨hs, hsruled⟩) (hlive hforced' hsruled) hskey).2

omit hstored in
theorem BulkSpec.mem_liveIDs_left (hr : r ∈ rows) :
    r.id ∈ (spec.rule taken).liveIDs db (rows ++ rows') ↔
      r.id ∈ (spec.rule taken).liveIDs db rows := by
  rw [BulkRun.liveIDs_eq, filter_append, liveCandidates_append, mem_append]
  refine or_iff_left fun hright => ?_
  obtain ⟨s, hs, hid⟩ := List.mem_map.mp (liveCandidates_subset _ hright)
  grind

theorem BulkSpec.mem_liveIDs_right (hforced : spec.action = .retry ∧ spec.retry.force = true)
    (hr : r ∈ rows') :
    r.id ∈ (spec.rule taken).liveIDs db (rows ++ rows') ↔
      r.id ∈ (spec.rule (taken ++ spec.takes ((spec.rule taken).classify db rows))).liveIDs db
        rows' := by
  rw [BulkRun.liveIDs_eq, filter_append, liveCandidates_append, mem_append]
  have hcongr : liveCandidates ((spec.rule taken).ruledHeld db) (takenAfter
        ((spec.rule taken).ruledHeld db) [] (rows.filter ((spec.rule taken).keyRuled db)))
        (rows'.filter ((spec.rule taken).keyRuled db)) =
      (spec.rule (taken ++ spec.takes ((spec.rule taken).classify db rows))).liveIDs db rows' := by
    refine liveCandidates_congr fun s hs key hkey => ?_
    rw [contains_nil, Bool.or_false]
    exact BulkSpec.ruled_taken hstored hnodup hforced (mem_of_mem_filter hs) hkey
  rw [hcongr]
  refine or_iff_right fun hleft => ?_
  obtain ⟨s, hs, hid⟩ := List.mem_map.mp (liveCandidates_subset _ hleft)
  grind

/-- **Classifying in two parts.** The first part is classified on its own, and the second with the
keys of the first taken. -/
theorem BulkSpec.reason_append (spec : BulkSpec) (taken : List String) :
    (∀ r ∈ rows, (spec.rule taken).reason db (rows ++ rows') r =
      (spec.rule taken).reason db rows r) ∧
      ∀ r ∈ rows', (spec.rule taken).reason db (rows ++ rows') r =
        (spec.rule (taken ++ spec.takes ((spec.rule taken).classify db rows))).reason db
          rows' r := by
  by_cases hforced : spec.action = .retry ∧ spec.retry.force = true
  · have hsame : ∀ {taken' : List String} {l l' : List JobRow} {r : JobRow},
        (r.id ∈ (spec.rule taken).liveIDs db l ↔ r.id ∈ (spec.rule taken').liveIDs db l') →
          (spec.rule taken).reason db l r = (spec.rule taken').reason db l' r := by
      intro taken' l l' r h
      have hcontains : ((spec.rule taken).liveIDs db l).contains r.id =
          ((spec.rule taken').liveIDs db l').contains r.id := by
        rw [Bool.eq_iff_iff, contains_iff_mem, contains_iff_mem, h]
      rw [BulkRun.reason, BulkRun.reason, hcontains]
      rfl
    grind [BulkSpec.mem_liveIDs_left, BulkSpec.mem_liveIDs_right]
  · have hnot : ∀ taken', (spec.rule taken').forced = false := fun taken' => by
      rw [BulkRun.forced, ← Bool.not_eq_true, Bool.and_eq_true, decide_eq_true_iff]
      exact hforced
    refine ⟨fun r _ => ?_, fun r _ => ?_⟩
    · rw [BulkRun.reason_of_not_forced (hnot _), BulkRun.reason_of_not_forced (hnot _)]
    · rw [BulkRun.reason_of_not_forced (hnot _), BulkRun.reason_of_not_forced (hnot _)]
      rfl

theorem BulkSpec.classify_append :
    (spec.rule taken).classify db (rows ++ rows') = (spec.rule taken).classify db rows ++
      (spec.rule (taken ++ spec.takes ((spec.rule taken).classify db rows))).classify db rows' := by
  obtain ⟨hleft, hright⟩ := BulkSpec.reason_append hstored hnodup spec taken
  rw [BulkRun.classify_eq, filter_append]
  refine congrArg₂ (· ++ ·) ?_ ?_
  · simp_all [BulkRun.classify_eq, filter_congr]
  · grind [BulkRun.classify_eq, filter_congr]

theorem BulkSpec.skips_append :
    (spec.rule taken).skips db (rows ++ rows') = (spec.rule taken).skips db rows ++
      (spec.rule (taken ++ spec.takes ((spec.rule taken).classify db rows))).skips db rows' := by
  obtain ⟨hleft, hright⟩ := BulkSpec.reason_append hstored hnodup spec taken
  simp_all [BulkRun.skips]

end Parts

theorem BulkSpec.takes_append (spec : BulkSpec) (change change' : List JobRow) :
    spec.takes (change ++ change') = spec.takes change ++ spec.takes change' := by
  rw [takes, takes, takes]
  grind

/-! ## What holds of every abstract walk -/

theorem BulkRun.classify_sublist (run : BulkRun) (db : Db) (rows : List JobRow) :
    (run.classify db rows).Sublist rows := by
  exact filter_sublist

theorem BulkSpec.fires_of_cancel {spec : BulkSpec} (hcancel : spec.action = .cancel)
    (hdry : spec.dryRun = false) (db : Db) (fired ended : List String) (change : List JobRow) :
    spec.fires db fired ended change =
      firing db ended fired (sortedParents JobRow.parentJobID change) := if_pos ⟨hcancel, hdry⟩

theorem BulkSpec.fires_of_not {spec : BulkSpec} (h : spec.action ≠ .cancel) (db : Db)
    (fired ended : List String) (change : List JobRow) : spec.fires db fired ended change = [] :=
  if_neg fun hboth => h hboth.1

theorem BulkSpec.fires_nil (spec : BulkSpec) (db : Db) (fired ended : List String) :
    spec.fires db fired ended [] = [] := by
  rw [fires]
  split_ifs <;> rfl

/-- What the abstract walk keeps to, whatever its pages. -/
structure Plan.Sound (spec : BulkSpec) (db : Db) (pages : List (List JobRow)) (π : Plan) :
    Prop where
  seen : π.seen.Sublist pages.flatten
  change : π.change.Sublist π.seen
  hidden : ∀ p ∈ π.fired, barrierKey p ∈ π.hidden
  cover : spec.action = .retry → spec.retry.force = true → ∀ r ∈ π.change, ∀ key,
    r.uniqueActiveKey = some key → key ∈ π.taken
  idle : ¬(spec.action = .cancel ∧ spec.dryRun = false) → π.fired = []
  distinct : π.fired.Nodup
  completes : ∀ p ∈ π.fired, completes db (π.change.map JobRow.id) p = true
  parent : ∀ p ∈ π.fired, ∃ r ∈ π.change, r.parentJobID = some p

theorem completes_mono {ended ended' : List String} (hsub : ended ⊆ ended')
    (h : completes db ended p = true) : completes db ended' p = true := by
  rw [completes_iff] at h ⊢
  exact ⟨h.1, fun r hr hpending => hsub (h.2 r hr hpending)⟩

theorem Plan.Sound.start (spec : BulkSpec) (db : Db) (w : BulkWalk) :
    (Plan.start w).Sound spec db [] := by
  constructor <;> simp [Plan.start]

theorem Plan.Sound.page {spec : BulkSpec} (h : π.Sound spec db pages)
    (rows : List JobRow) : (π.page spec db rows).Sound spec db (pages ++ [rows]) := by
  have hfires : ∀ p ∈ π.fires spec db rows,
      Flywheel.completes db ((π.change ++ π.changes spec db rows).map JobRow.id) p = true ∧
        p ∉ π.fired ∧ ∃ r ∈ π.changes spec db rows, r.parentJobID = some p := by
    intro p hp
    rw [Plan.fires, BulkSpec.fires] at hp
    split_ifs at hp
    · obtain ⟨hparent, hfire⟩ := mem_filter.mp hp
      rw [Bool.and_eq_true, Bool.not_eq_true', ← Bool.not_eq_true, contains_iff_mem] at hfire
      exact ⟨hfire.1, hfire.2, mem_sortedParents_iff.mp hparent⟩
    · cases hp
  refine ⟨?_, ?_, ?_, ?_, ?_, ?_, ?_, ?_⟩
  · rw [flatten_append, flatten_singleton]
    exact h.seen.append filter_sublist
  · exact h.change.append (BulkRun.classify_sublist _ _ _)
  · intro p hp
    rcases mem_append.mp hp with hp | hp
    · exact mem_append_left _ (h.hidden p hp)
    · exact mem_append_right _ (List.mem_map_of_mem hp)
  · intro hretry hforce r hr key hkey
    rcases mem_append.mp hr with hr | hr
    · exact mem_append_left _ (h.cover hretry hforce r hr key hkey)
    · refine mem_append_right _ ?_
      rw [BulkSpec.takes, if_pos ⟨hretry, hforce⟩]
      exact mem_filterMap.mpr ⟨r, hr, hkey⟩
  · intro hnot
    change π.fired ++ π.fires spec db rows = []
    rw [h.idle hnot, Plan.fires, BulkSpec.fires, if_neg hnot, append_nil]
  · refine nodup_append.mpr ⟨h.distinct, ?_, fun p hp q hq heq => ?_⟩
    · rw [Plan.fires, BulkSpec.fires]
      split_ifs
      · exact (sortedParents_nodup _ _).filter _
      · exact nodup_nil
    · exact (hfires q hq).2.1 (heq ▸ hp)
  · intro p hp
    rcases mem_append.mp hp with hp | hp
    · refine completes_mono ?_ (h.completes p hp)
      change _ ⊆ (π.change ++ _).map JobRow.id
      simp_all
    · exact (hfires p hp).1
  · intro p hp
    rcases mem_append.mp hp with hp | hp
    · obtain ⟨r, hr, hparent⟩ := h.parent p hp
      exact ⟨r, mem_append_left _ hr, hparent⟩
    · obtain ⟨r, hr, hparent⟩ := (hfires p hp).2.2
      exact ⟨r, mem_append_right _ hr, hparent⟩

theorem Plan.sound_walk (spec : BulkSpec) (db : Db) (w : BulkWalk) (pages : List (List JobRow)) :
    ((Plan.start w).walk spec db pages).Sound spec db pages := by
  induction pages using List.reverseRecOn with
  | nil => exact Plan.Sound.start spec db w
  | append_singleton pages page ih =>
    rw [Plan.walk_append]
    exact ih.page page

theorem Plan.hidden_walk (spec : BulkSpec) (db : Db) (w : BulkWalk) (pages : List (List JobRow)) :
    ((Plan.start w).walk spec db pages).hidden =
      w.fired ++ ((Plan.start w).walk spec db pages).fired.map barrierKey := by
  induction pages using List.reverseRecOn with
  | nil => exact (append_nil _).symm
  | append_singleton pages page ih =>
    rw [Plan.walk_append]
    change _ ++ _ = _ ++ List.map barrierKey (_ ++ _)
    rw [ih, map_append, append_assoc]

/-- **A cancel fires the barrier of every generation that it ends.** -/
theorem Plan.mem_fired (hcancel : spec.action = .cancel) (hdry : spec.dryRun = false)
    (hstored : ∀ r ∈ pages.flatten, r ∈ db.jobs.rows)
    (hparent : ∃ r ∈ ((Plan.start w).walk spec db pages).change, r.parentJobID = some p)
    (hends : completes db (((Plan.start w).walk spec db pages).change.map JobRow.id) p = true) :
    p ∈ ((Plan.start w).walk spec db pages).fired := by
  induction pages using List.reverseRecOn with
  | nil =>
    obtain ⟨r, hr, -⟩ := hparent
    cases hr
  | append_singleton pages page ih =>
    rw [flatten_append, flatten_singleton] at hstored
    have ih := ih fun r hr => hstored r (mem_append_left _ hr)
    rw [Plan.walk_append] at hparent hends ⊢
    generalize (Plan.start w).walk spec db pages = π at *
    change ∃ r ∈ π.change ++ π.changes spec db page, r.parentJobID = some p at hparent
    change completes db ((π.change ++ π.changes spec db page).map JobRow.id) p = true at hends
    by_cases hnew : ∃ r ∈ π.changes spec db page, r.parentJobID = some p
    · -- the page changed a child, and its check finds the generation ended
      by_cases hfired : p ∈ π.fired
      · exact mem_append_left _ hfired
      · refine mem_append_right _ ?_
        rw [Plan.fires, BulkSpec.fires_of_cancel hcancel hdry]
        refine mem_filter.mpr ⟨mem_sortedParents_iff.mpr hnew, ?_⟩
        simp_all
    · -- no child is of this page, so that the generation had ended before it
      refine mem_append_left _ (ih ?_ ?_)
      · grind
      · rw [completes_iff] at hends ⊢
        refine ⟨hends.1, fun c hc hpending => ?_⟩
        have hin := hends.2 c hc hpending
        rw [map_append, mem_append] at hin
        refine hin.resolve_right fun hin => hnew ?_
        obtain ⟨s, hs, hid⟩ := List.mem_map.mp hin
        have hspage := mem_of_mem_filter ((BulkRun.classify_sublist _ _ _).subset hs)
        obtain rfl := eq_of_key_eq (hstored s (mem_append_right _ hspage)) hc hid
        simp_all [JobRow.pendingChildOf]

/-! ## A walk that leaves nothing out -/

/-- What the abstract walk comes to when it leaves nothing out of these rows. -/
structure Plan.Whole (spec : BulkSpec) (db : Db) (taken : List String) (rows : List JobRow)
    (π : Plan) : Prop where
  seen : π.seen = rows
  skips : π.skips = (spec.rule taken).skips db rows
  change : π.change = (spec.rule taken).classify db rows
  taken : π.taken = taken ++ spec.takes π.change

theorem Plan.whole_start (spec : BulkSpec) (db : Db) (w : BulkWalk) :
    Plan.Whole spec db w.taken [] (Plan.start w) := by
  refine ⟨rfl, rfl, rfl, ?_⟩
  change w.taken = w.taken ++ spec.takes []
  simp_all [BulkSpec.takes]

/-- **The pages do not matter.** A page of which nothing is left out extends the walk as if all its
rows had been read at once. -/
theorem Plan.Whole.page (h : π.Whole spec db taken rows)
    (hstored : ∀ r ∈ rows ++ rows', r ∈ db.jobs.rows)
    (hnodup : ((rows ++ rows').map JobRow.id).Nodup) (hshown : ∀ r ∈ rows', π.hides r = false) :
    (π.page spec db rows').Whole spec db taken (rows ++ rows') := by
  have hall : rows'.filter (fun r => !π.hides r) = rows' :=
    filter_eq_self.mpr fun r hr => by rw [hshown r hr]; rfl
  have htaken : π.taken = taken ++ spec.takes ((spec.rule taken).classify db rows) := by
    rw [h.taken, h.change]
  refine ⟨?_, ?_, ?_, ?_⟩
  · change π.seen ++ rows'.filter _ = _
    rw [hall, h.seen]
  · change π.skips ++ (spec.rule π.taken).skips db (rows'.filter _) = _
    rw [hall, h.skips, htaken, ← BulkSpec.skips_append hstored hnodup]
  · change π.change ++ (spec.rule π.taken).classify db (rows'.filter _) = _
    rw [hall, h.change, htaken, ← BulkSpec.classify_append hstored hnodup]
  · change π.taken ++ spec.takes _ = taken ++ spec.takes (π.change ++ _)
    rw [h.taken, append_assoc, BulkSpec.takes_append]

theorem Plan.whole_walk (hstored : ∀ r ∈ pages.flatten, r ∈ db.jobs.rows)
    (hnodup : (pages.flatten.map JobRow.id).Nodup)
    (hshown : ∀ pre page post, pages = pre ++ page :: post → ∀ r ∈ page,
      ((Plan.start w).walk spec db pre).hides r = false) :
    ((Plan.start w).walk spec db pages).Whole spec db w.taken pages.flatten := by
  induction pages using List.reverseRecOn with
  | nil => exact Plan.whole_start spec db w
  | append_singleton pages page ih =>
    rw [flatten_append, flatten_singleton] at hstored hnodup ⊢
    rw [Plan.walk_append]
    refine Plan.Whole.page (ih (fun r hr => hstored r (mem_append_left _ hr)) ?_ ?_) hstored hnodup
      (hshown pages page [] rfl)
    · grind
    · grind

end Flywheel
