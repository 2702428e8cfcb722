import Flywheel.Control.Apply

/-!
# The walk follows the plan

A bulk walk, round by round, against the abstract walk of `Flywheel.Control.Plan`. Between two
rounds the database is what the plan says of the one that the walk began on, and the counts are the
plan's (`WalkInv`); a round takes the next page of the selection, whether it counts the page or runs
its transaction (`WalkInv.round`). The walk may begin anywhere, so that the rest of a walk is a walk
too.
-/

namespace Flywheel

open Relational Transition Keyset List Table Bool

/-! ## Between two rounds -/

/-- What the plan has changed in the database: a dry run changes nothing. -/
def BulkSpec.wrote (spec : BulkSpec) (π : Plan) : List String :=
  if spec.dryRun then [] else π.change.map JobRow.id

/-- The plan of a walk that began at `start`, over these pages. -/
def BulkSpec.plan (spec : BulkSpec) (db : Db) (start : BulkWalk) (pages : List (List JobRow)) :
    Plan :=
  (Plan.start start).walk spec db pages

theorem BulkSpec.plan_snoc (spec : BulkSpec) (db : Db) (start : BulkWalk)
    (pages : List (List JobRow)) (page : List JobRow) :
    spec.plan db start (pages ++ [page]) = (spec.plan db start pages).page spec db page :=
  Plan.walk_append spec db _ pages [page]

theorem BulkSpec.fired_snoc (spec : BulkSpec) (db : Db) (start : BulkWalk)
    (pages : List (List JobRow)) (page : List JobRow) :
    (spec.plan db start (pages ++ [page])).fired =
      (spec.plan db start pages).fired ++ (spec.plan db start pages).fires spec db page := by
  rw [spec.plan_snoc]
  rfl

theorem BulkSpec.hidden_snoc (spec : BulkSpec) (db : Db) (start : BulkWalk)
    (pages : List (List JobRow)) (page : List JobRow) :
    (spec.plan db start (pages ++ [page])).hidden = (spec.plan db start pages).hidden ++
      ((spec.plan db start pages).fires spec db page).map barrierKey := by
  rw [spec.plan_snoc]
  rfl

/-- A walk that began at `start` on the database `db`, after these pages. -/
structure WalkInv (ops : Operators) (spec : BulkSpec) (db : Db) (start : BulkWalk)
    (pages : List (List JobRow)) (db' : Db) (w : BulkWalk) : Prop where
  split : pages.flatten ++ spec.rest ops db w.cursor w.next =
    spec.rest ops db start.cursor start.next
  sizes : ∀ page ∈ pages, page.length ≤ spec.size
  reworked : Reworked spec.action (spec.wrote (spec.plan db start pages))
    (spec.plan db start pages).fired db db'
  taken : w.taken = (spec.plan db start pages).taken
  hidden : w.fired = (spec.plan db start pages).hidden
  passed : w.passed = start.passed + (spec.plan db start pages).seen.length
  changed : w.result.changed = start.result.changed + (spec.plan db start pages).change.length
  skipped : ∀ s, w.result.skipped s = start.result.skipped s +
    (spec.plan db start pages).skips.count s
  byState : ∀ st, w.result.byState st = start.result.byState st +
    (spec.plan db start pages).seen.countP fun r => decide (r.state = st)
  byKind : ∀ k, w.result.byKind k = start.result.byKind k +
    (spec.plan db start pages).seen.countP fun r => decide (r.kind = k)
  matched : w.result.matched = start.result.matched
  capped : w.result.matchedCapped = start.result.matchedCapped
  changedIDs : w.changedIDs = start.changedIDs ++ (spec.plan db start pages).change.map JobRow.id
  named : spec.ids = [] → w.cursor = "" → db'.Named

variable {ctx : Context} {ops : Operators} {spec : BulkSpec} {db db' db'' : Db}
  {start w w' : BulkWalk}
  {pages : List (List JobRow)} {rows rows' : List JobRow} {r : JobRow}

theorem WalkInv.refl (ops : Operators) (spec : BulkSpec) (db : Db) (start : BulkWalk)
    (hindex : spec.action = .retry → activeKeysUnique db.jobs = true) (hnamed : db.Named) :
    WalkInv ops spec db start [] db start where
  split := rfl
  sizes := by simp
  reworked := by
    have hwrote : spec.wrote (spec.plan db start []) = [] := by
      rw [BulkSpec.wrote]
      split_ifs <;> rfl
    rw [hwrote]
    exact Reworked.refl spec.action db hindex
  taken := rfl
  hidden := rfl
  passed := rfl
  changed := rfl
  skipped _ := rfl
  byState _ := rfl
  byKind _ := rfl
  matched := rfl
  capped := rfl
  changedIDs := (append_nil _).symm
  named _ _ := hnamed

theorem BulkSpec.mem_pages_of_change (hr : r ∈ (spec.plan db start pages).change) :
    r ∈ pages.flatten :=
  have hsound := Plan.sound_walk spec db start pages
  hsound.seen.subset (hsound.change.subset hr)

/-- Only a cancel fires barriers. -/
theorem BulkSpec.plan_idle (haction : spec.action ≠ .cancel) :
    (spec.plan db start pages).fired = [] :=
  (Plan.sound_walk spec db start pages).idle fun hboth => haction hboth.1

variable {id : String} {change ids : List String} {run : BulkRun} {out : Db × BulkWalk}
  {ctx' : Context} {dead : ℕ → Bool} {fuel i : ℕ} {dialect : Dialect} {e : TxError}

theorem BulkSpec.mem_wrote {π : Plan} (h : id ∈ spec.wrote π) :
    spec.dryRun = false ∧ ∃ r ∈ π.change, r.id = id := by
  rw [BulkSpec.wrote] at h
  simp_all

section Inv

variable (h : WalkInv ops spec db start pages db' w)
include h

theorem WalkInv.mem_rest (hr : r ∈ pages.flatten) :
    r ∈ spec.rest ops db start.cursor start.next := by
  rw [← h.split]
  exact mem_append_left _ hr

theorem WalkInv.ascending : Ascending JobRow.id pages.flatten := by
  have hasc := ascending_sortedJobs (fun r => spec.shows ops db r &&
    spec.ahead start.cursor start.next r.id) db
  change Ascending JobRow.id (spec.rest ops db start.cursor start.next) at hasc
  rw [← h.split] at hasc
  exact (pairwise_append.mp hasc).1

theorem WalkInv.behind (hr : r ∈ pages.flatten) : spec.ahead w.cursor w.next r.id = false := by
  rw [← not_eq_true]
  intro hahead
  obtain ⟨hstored, hshows, -⟩ := BulkSpec.mem_rest.mp (h.mem_rest hr)
  have hnodup := (ascending_sortedJobs (fun r => spec.shows ops db r &&
    spec.ahead start.cursor start.next r.id) db).nodup
  change (spec.rest ops db start.cursor start.next).Nodup at hnodup
  rw [← h.split] at hnodup
  exact disjoint_of_nodup_append hnodup hr (BulkSpec.mem_rest.mpr ⟨hstored, hshows, hahead⟩)

theorem WalkInv.wrote_behind : ∀ id ∈ spec.wrote (spec.plan db start pages),
    spec.ahead w.cursor w.next id = false := by
  intro id hid
  obtain ⟨-, r, hr, rfl⟩ := BulkSpec.mem_wrote hid
  exact h.behind (BulkSpec.mem_pages_of_change hr)

theorem WalkInv.cover (hretry : spec.action = .retry) (hforce : spec.retry.force = true) :
    ∀ s ∈ db.jobs.rows, s.id ∈ spec.wrote (spec.plan db start pages) → ∀ key,
      s.uniqueActiveKey = some key → key ∈ w.taken := by
  intro s hs hid key hkey
  obtain ⟨-, r, hr, heq⟩ := BulkSpec.mem_wrote hid
  have hstored := (BulkSpec.mem_rest.mp (h.mem_rest (BulkSpec.mem_pages_of_change hr))).1
  obtain rfl := eq_of_key_eq hstored hs heq
  rw [h.taken]
  exact (Plan.sound_walk spec db start pages).cover hretry hforce r hr key hkey

end Inv

/-! ## A page -/

/-- The rows of the base database that a read covers. -/
def BulkSpec.segment (ops : Operators) (spec : BulkSpec) (db : Db) (w : BulkWalk)
    (page : BulkPage) : List JobRow :=
  (spec.rest ops db w.cursor w.next).filter fun r => !spec.ahead page.last page.next r.id

section Page

variable {page : BulkPage} {limit : ℕ} (h : WalkInv ops spec db start pages db' w)
  (hpage : page.Follows ops spec db' w limit)
include h hpage

/-- **The page is the plan's**, row by row. -/
theorem WalkInv.page_rows : List.Forall₂ (Unchanged (spec.wrote (spec.plan db start pages)) db db')
      ((spec.segment ops db w page).filter fun r => !(spec.plan db start pages).hides r)
        page.rows := by
  have hsound := Plan.sound_walk spec db start pages
  have hrest : List.Forall₂ (Unchanged (spec.wrote (spec.plan db start pages)) db db')
      ((spec.rest ops db w.cursor w.next).filter fun r => !(spec.plan db start pages).hides r)
      ((spec.rest ops db' w.cursor w.next).filter fun r => !w.continuation r) := by
    have hcontinuation : ∀ r, w.continuation r = (spec.plan db start pages).hides r := fun r => by
      rw [BulkWalk.continuation, Plan.hides, h.hidden]
    simp only [hcontinuation]
    exact h.reworked.rest ops h.wrote_behind hsound.hidden
  have hcut := rel_filter (p := fun r => !spec.ahead page.last page.next r.id)
    (q := fun r => !spec.ahead page.last page.next r.id) (fun r r' hsame => by
      change _ = true ↔ _ = true
      rw [hsame.id]) hrest
  rw [hpage.rows, BulkSpec.segment, filter_filter, filter_filter]
  rw [filter_filter, filter_filter] at hcut
  grind

/-- The plan's page is no longer than the read. -/
theorem WalkInv.segment_length : (spec.segment ops db w page).length ≤ limit := by
  have hsub : (spec.segment ops db w page).map JobRow.id ⊆
      ((spec.rest ops db' w.cursor w.next).filter fun r =>
        !spec.ahead page.last page.next r.id).map JobRow.id := by
    intro id hid
    obtain ⟨r, hr, rfl⟩ := mem_map.mp hid
    obtain ⟨hr, hcut⟩ := mem_filter.mp hr
    obtain ⟨hstored, hshows, hahead⟩ := BulkSpec.mem_rest.mp hr
    have hleft : r.id ∉ spec.wrote (spec.plan db start pages) := fun hin => by
      rw [h.wrote_behind _ hin] at hahead
      cases hahead
    obtain ⟨r', hr', hbecame⟩ := h.reworked.kept r hstored fun _ => hleft
    refine mem_map.mpr ⟨r', mem_filter.mpr ⟨BulkSpec.mem_rest.mpr ⟨hr', ?_, ?_⟩, ?_⟩, hbecame.id⟩
    · rw [spec.shows_congr ops (hbecame.view hleft) (h.reworked.runs r hstored hleft), hshows]
    · rw [hbecame.id, hahead]
    · rw [hbecame.id, hcut]
  have hnodup := nodup_ids ((ascending_sortedJobs (fun r => spec.shows ops db r &&
    spec.ahead w.cursor w.next r.id) db).filter fun r => !spec.ahead page.last page.next r.id)
  have hle := (subperm_of_subset hnodup hsub).length_le
  rw [length_map, length_map] at hle
  exact hle.trans hpage.short

end Page

/-! ## Counting a page -/

/-- The walk `w'` counts a page of these rows, of which it changed some, on top of the walk `w`. -/
structure Counted (spec : BulkSpec) (db : Db) (w : BulkWalk) (rows moved : List JobRow)
    (w' : BulkWalk) : Prop where
  taken : w'.taken = w.taken ++ spec.takes moved
  passed : w'.passed = w.passed + rows.length
  changed : w'.result.changed = w.result.changed + moved.length
  skipped : ∀ s, w'.result.skipped s =
    w.result.skipped s + ((spec.rule w.taken).skips db rows).count s
  byState : ∀ st, w'.result.byState st =
    w.result.byState st + rows.countP fun r => decide (r.state = st)
  byKind : ∀ k, w'.result.byKind k = w.result.byKind k + rows.countP fun r => decide (r.kind = k)
  matched : w'.result.matched = w.result.matched
  capped : w'.result.matchedCapped = w.result.matchedCapped
  changedIDs : w'.changedIDs = w.changedIDs ++ moved.map JobRow.id

theorem BulkWalk.take_eq (spec : BulkSpec) (w : BulkWalk) (changed : List JobRow) :
    w.take spec changed = w.taken ++ spec.takes changed := by
  rw [BulkWalk.take, BulkSpec.takes]
  grind

theorem countP_eq {p : JobRow → Bool} (h : List.Forall₂ (Unchanged change db db') rows rows')
    (hp : ∀ {r r'}, Unchanged change db db' r r' → p r' = p r) :
    rows'.countP p = rows.countP p := by
  induction h with
  | nil => rfl
  | cons hs _ ih => rw [countP_cons, countP_cons, ih, hp hs]

theorem takes_eq (h : List.Forall₂ (Unchanged change db db') rows rows') :
    spec.takes rows' = spec.takes rows := by
  refine if_congr Iff.rfl ?_ rfl
  induction h with
  | nil => rfl
  | cons hs _ ih => rw [filterMap_cons, filterMap_cons, ih, hs.uniqueActiveKey]

/-- **A page that is counted and written is one of the plan.** -/
theorem WalkInv.next {page : BulkPage} {limit : ℕ} (h : WalkInv ops spec db start pages db' w)
    (hpage : page.Follows ops spec db' w limit) (hlimit : limit ≤ spec.size)
    (hcounted : Counted spec db' w page.rows ((spec.rule w.taken).classify db' page.rows) w')
    (hcursor : w'.cursor = page.last) (hnext : w'.next = page.next)
    (hhidden : w'.fired = (spec.plan db start (pages ++ [spec.segment ops db w page])).hidden)
    (hreworked : Reworked spec.action
      (spec.wrote (spec.plan db start (pages ++ [spec.segment ops db w page])))
      (spec.plan db start (pages ++ [spec.segment ops db w page])).fired db db'')
    (hnamed : spec.ids = [] → w'.cursor = "" → db''.Named) :
    WalkInv ops spec db start (pages ++ [spec.segment ops db w page]) db'' w' := by
  have hrows := h.page_rows hpage
  have hclassify := h.reworked.classify BulkSpec.plan_idle h.cover hrows
  have hskips := h.reworked.skips BulkSpec.plan_idle h.cover hrows
  have hlength := hrows.length_eq
  have hchanged := hclassify.length_eq
  rw [h.taken] at hclassify hskips hchanged
  refine ⟨?_, ?_, hreworked, ?_, hhidden, ?_, ?_, fun s => ?_, fun st => ?_, fun k =>
    ?_, ?_, ?_, ?_, hnamed⟩
  · rw [flatten_append, flatten_singleton, append_assoc, hcursor, hnext,
      BulkSpec.segment, hpage.cut.split, h.split]
  · exact forall_mem_append.mpr ⟨h.sizes,
      forall_mem_singleton.mpr ((h.segment_length hpage).trans hlimit)⟩
  · rw [hcounted.taken, spec.plan_snoc, h.taken, takes_eq hclassify]
    rfl
  · rw [hcounted.passed, spec.plan_snoc, h.passed, ← hlength, Nat.add_assoc]
    exact congrArg _ length_append.symm
  · rw [hcounted.changed, spec.plan_snoc, h.changed, h.taken, ← hchanged, Nat.add_assoc]
    exact congrArg _ length_append.symm
  · rw [hcounted.skipped, spec.plan_snoc, h.skipped, h.taken, hskips, Nat.add_assoc]
    exact congrArg _ count_append.symm
  · rw [hcounted.byState, spec.plan_snoc, h.byState, countP_eq hrows fun hs => by rw [hs.state],
      Nat.add_assoc]
    exact congrArg _ countP_append.symm
  · rw [hcounted.byKind, spec.plan_snoc, h.byKind, countP_eq hrows fun hs => by rw [hs.kind],
      Nat.add_assoc]
    exact congrArg _ countP_append.symm
  · rw [hcounted.matched, h.matched]
  · rw [hcounted.capped, h.capped]
  · rw [hcounted.changedIDs, spec.plan_snoc, h.changedIDs, h.taken, map_id_eq hclassify,
      append_assoc, ← map_append]
    rfl

/-! ## A round -/

theorem applyRerun_ok {c : Commit (List String)}
    (h : applyBatch ctx run ids db = .ok c) (races : ℕ) : applyRerun ctx run ids db races =
      .ok c := by
  cases races with
  | zero => exact h
  | succ races => rw [applyRerun, h]

theorem applyRerun_error (h : applyBatch ctx run ids db = .error e) (races : ℕ) :
    applyRerun ctx run ids db races = .error e := by
  induction races with
  | zero => exact h
  | succ races ih => simp_all [applyRerun]

/-- The most jobs that the next read takes. -/
def BulkSpec.room (spec : BulkSpec) (w : BulkWalk) : ℕ := min spec.size (spec.limit - w.passed)

/-- The page that a round reads. -/
def BulkWalk.nextPage (ops : Operators) (spec : BulkSpec) (db : Db) (w : BulkWalk) : BulkPage :=
  w.read ops spec (spec.room w) db

/-- What a round does with its page. -/
def BulkWalk.handle (ctx : Context) (ops : Operators) (spec : BulkSpec) (db : Db) (w : BulkWalk) :
    Except TxError (Db × BulkWalk) :=
  if spec.dryRun then .ok (db, w.preview ops spec db (w.nextPage ops spec db).rows)
  else if (w.nextPage ops spec db).rows = [] then .ok (db, w)
  else w.apply ctx ops spec db (w.nextPage ops spec db).rows

/-- The walk past its page. -/
def BulkWalk.past (w counted : BulkWalk) (page : BulkPage) : BulkWalk :=
  { counted with passed := w.passed + page.rows.length, cursor := page.last, next := page.next }

/-- What a round makes of what it did with its page. -/
def BulkWalk.conclude (ops : Operators) (spec : BulkSpec) (db : Db) (w : BulkWalk) :
    Except TxError (Db × BulkWalk) → BulkEnd ⊕ Db × BulkWalk
  | .error e => .inl (({ w with next := (w.nextPage ops spec db).next } :
      BulkWalk).stop db (.batch e))
  | .ok (after, counted) =>
    if (w.nextPage ops spec db).ends then
      .inl ((w.past counted (w.nextPage ops spec db)).finish after true)
    else .inr (after, w.past counted (w.nextPage ops spec db))

theorem walkRound_handle (hroom : 0 < spec.room w) : walkRound ctx false ops spec db' w =
      w.conclude ops spec db' (w.handle ctx ops spec db') := by
  have hlimit : ¬min spec.size (spec.limit - w.passed) = 0 := hroom.ne'
  rw [walkRound, if_neg Bool.false_ne_true]
  rw [if_neg hlimit]
  rfl

theorem walkRound_ok (hroom : 0 < spec.room w) (h : w.handle ctx ops spec db' = .ok out) :
    walkRound ctx false ops spec db' w = if (w.nextPage ops spec db').ends then
        .inl ((w.past out.2 (w.nextPage ops spec db')).finish out.1 true)
      else .inr (out.1, w.past out.2 (w.nextPage ops spec db')) := by
  rw [walkRound_handle hroom, h]
  rfl

theorem walkRound_error (hroom : 0 < spec.room w) (h : w.handle ctx ops spec db' = .error e) :
    walkRound ctx false ops spec db' w =
      .inl (({ w with next := (w.nextPage ops spec db').next } :
        BulkWalk).stop db' (.batch e)) := by
  rw [walkRound_handle hroom, h]
  rfl

/-- The plan's next page. -/
def BulkWalk.nextSegment (ops : Operators) (spec : BulkSpec) (db db' : Db) (w : BulkWalk) :
    List JobRow :=
  spec.segment ops db w (w.nextPage ops spec db')

theorem BulkSpec.wrote_eq (hdry : spec.dryRun = false) (π : Plan) :
    spec.wrote π = π.change.map JobRow.id := by
  rw [BulkSpec.wrote, hdry, if_neg Bool.false_ne_true]

theorem BulkSpec.wrote_snoc (hdry : spec.dryRun = false) (db : Db) (start : BulkWalk)
    (pages : List (List JobRow)) (page : List JobRow) :
    spec.wrote (spec.plan db start pages) ++
        ((spec.plan db start pages).changes spec db page).map JobRow.id =
      spec.wrote (spec.plan db start (pages ++ [page])) := by
  rw [spec.plan_snoc, BulkSpec.wrote_eq hdry, BulkSpec.wrote_eq hdry, ← map_append]
  rfl

section Round

variable (h : WalkInv ops spec db start pages db' w) {actor : Actor}
include h

theorem WalkInv.follows :
    (w.nextPage ops spec db').Follows ops spec db' w (spec.room w) := w.read_follows _ h.named

/-- A dry run's page. -/
theorem WalkInv.dry (hdry : spec.dryRun = true) :
    WalkInv ops spec db start (pages ++ [w.nextSegment ops spec db db']) db'
      (w.past (w.preview ops spec db' (w.nextPage ops spec db').rows)
        (w.nextPage ops spec db')) := by
  have hnone : (spec.plan db start pages).fires spec db (w.nextSegment ops spec db db') = [] := by
    rw [Plan.fires, BulkSpec.fires, if_neg fun hboth => by simp [hdry] at hboth]
  refine h.next h.follows (min_le_left _ _) ⟨?_, rfl, rfl, fun _ => rfl, fun _ => rfl, fun _ => rfl,
    rfl, rfl, rfl⟩ rfl rfl ?_ ?_ fun hids hempty => ?_
  · exact w.take_eq spec _
  · change w.fired = _
    rw [h.hidden, ← BulkWalk.nextSegment, spec.hidden_snoc, hnone, map_nil, append_nil]
  · rw [← BulkWalk.nextSegment, spec.fired_snoc, hnone, append_nil]
    have hreworked := h.reworked
    simp_all [BulkSpec.wrote]
  · exact h.named hids (h.follows.named hids hempty).1

/-- An apply's page that is all continuations, or empty. -/
theorem WalkInv.skip (hdry : spec.dryRun = false) (hrows : (w.nextPage ops spec db').rows = []) :
    WalkInv ops spec db start (pages ++ [w.nextSegment ops spec db db']) db'
      (w.past w (w.nextPage ops spec db')) := by
  have hshown := h.page_rows h.follows
  rw [hrows] at hshown
  have hnil := forall₂_nil_right_iff.mp hshown
  have hchanges : (spec.plan db start pages).changes spec db (w.nextSegment ops spec db db') =
    [] := by
    rw [Plan.changes, BulkWalk.nextSegment, hnil]
    rfl
  have hnone : (spec.plan db start pages).fires spec db (w.nextSegment ops spec db db') = [] := by
    rw [Plan.fires, hchanges]
    exact spec.fires_nil db _ _
  have htakes : spec.takes [] = [] := by
    rw [BulkSpec.takes]
    split_ifs <;> rfl
  refine h.next h.follows (min_le_left _ _) ?_ rfl rfl ?_ ?_ fun hids hempty => ?_
  · rw [hrows]
    refine ⟨?_, ?_, rfl, fun _ => rfl, fun _ => rfl, fun _ => rfl, rfl, rfl, ?_⟩
    · change w.taken = w.taken ++ spec.takes []
      rw [htakes, append_nil]
    · change w.passed + (w.nextPage ops spec db').rows.length = _
      rw [hrows]
    · exact (append_nil _).symm
  · change w.fired = _
    rw [h.hidden, ← BulkWalk.nextSegment, spec.hidden_snoc, hnone, map_nil, append_nil]
  · rw [← BulkWalk.nextSegment, spec.fired_snoc, hnone, append_nil, ← BulkSpec.wrote_snoc hdry,
      hchanges, map_nil, append_nil]
    exact h.reworked
  · exact h.named hids (h.follows.named hids hempty).1

/-- The page's rows that are to change are the plan's changes. -/
theorem WalkInv.changes_eq :
    (spec.rule w.taken).classify db ((w.nextSegment ops spec db db').filter fun r =>
      !(spec.plan db start pages).hides r) =
        (spec.plan db start pages).changes spec db (w.nextSegment ops spec db db') := by
  rw [Plan.changes, h.taken]

section Apply

variable (hdry : spec.dryRun = false) {actor : Actor} (hactor : resolveActor ctx = .ok actor)
include hdry hactor

/-- **An apply's page**: its transaction commits as the plan says, or the host's hook refuses it. -/
theorem WalkInv.apply (hrows : (w.nextPage ops spec db').rows ≠ [])
    (hbuild : ∀ p ∈ (spec.plan db start pages).fires spec db (w.nextSegment ops spec db db'),
      Buildable ctx db p) :
    (∃ out, w.apply ctx ops spec db' (w.nextPage ops spec db').rows = .ok out ∧
        WalkInv ops spec db start (pages ++ [w.nextSegment ops spec db db']) out.1
          (w.past out.2 (w.nextPage ops spec db')) ∧
        ∀ q : String → Bool, (out.1.jobs.rows.map JobRow.id).countP q ≤
          (db'.jobs.rows.map JobRow.id).countP q +
            ((spec.plan db start pages).fires spec db (w.nextSegment ops spec db db')).length) ∨
      w.apply ctx ops spec db' (w.nextPage ops spec db').rows = .error .auditHook ∧
        ctx.auditHook ≠ none := by
  have hshown := h.page_rows h.follows
  have hclassify := h.reworked.classify BulkSpec.plan_idle h.cover hshown
  -- the transaction's change and barriers are the plan's
  have hfires : spec.fires db (spec.plan db start pages).fired
      (spec.wrote (spec.plan db start pages) ++
        ((spec.plan db start pages).changes spec db (w.nextSegment ops spec db db')).map JobRow.id)
      ((spec.plan db start pages).changes spec db (w.nextSegment ops spec db db')) =
        (spec.plan db start pages).fires spec db (w.nextSegment ops spec db db') := by
    rw [Plan.fires, BulkSpec.wrote_eq hdry, map_append]
  have hcommits := h.reworked.batch_commits hdry BulkSpec.plan_idle h.cover h.follows.shown hshown
    h.changes_eq hactor
  rw [hfires] at hcommits
  rcases hcommits hbuild with ⟨c, hc, hbatched⟩ | ⟨herror, hhook⟩
  · have hchanged : (w.nextPage ops spec db').rows.filter (fun r => c.out.contains r.id) =
        (spec.rule w.taken).classify db' (w.nextPage ops spec db').rows :=
      h.follows.shown.filter_changed _ fun id => by
        rw [hbatched.out, map_id_eq hclassify, ← h.changes_eq]
        rfl
    have hreworked := hbatched.reworked
    have hkeys := hbatched.fires
    have hgrows := hbatched.grows
    rw [hfires] at hreworked hkeys hgrows
    refine .inl ⟨_, bind_eq_ok.mpr ⟨c, applyRerun_ok hc _, rfl⟩, ?_, hgrows⟩
    refine h.next h.follows (min_le_left _ _) ?_ rfl rfl ?_ ?_ fun hids hempty => ?_
    · rw [h.follows.shown.locked w, hchanged]
      exact ⟨w.take_eq spec _, rfl, rfl, fun _ => rfl, fun _ => rfl, fun _ => rfl, rfl, rfl, rfl⟩
    · have hmap : (c.fires.filter FireCall.fired).map (fun call => barrierKey call.parentID) =
          ((c.fires.filter FireCall.fired).map FireCall.parentID).map barrierKey := by
        rw [map_map]
        rfl
      rw [hmap, hkeys, h.hidden, spec.plan_snoc]
      rfl
    · rw [BulkSpec.wrote_snoc hdry] at hreworked
      rw [spec.plan_snoc] at hreworked ⊢
      exact hreworked
    · exact absurd (h.follows.named hids hempty).2 hrows
  · simp_all [BulkWalk.apply, applyRerun_error]

/-- An apply's page fails on a continuation that cannot be built. -/
theorem WalkInv.apply_fails
    (hbuild : ∃ p ∈ (spec.plan db start pages).fires spec db (w.nextSegment ops spec db db'),
      ¬Buildable ctx db p) :
    (w.nextPage ops spec db').rows ≠ [] ∧
      ∃ e, w.apply ctx ops spec db' (w.nextPage ops spec db').rows = .error e := by
  have hshown := h.page_rows h.follows
  refine ⟨fun hrows => ?_, ?_⟩
  · rw [hrows] at hshown
    have hnil : (w.nextSegment ops spec db db').filter (fun r =>
        !(spec.plan db start pages).hides r) = [] := forall₂_nil_right_iff.mp hshown
    obtain ⟨p, hp, -⟩ := hbuild
    rw [Plan.fires, Plan.changes, hnil] at hp
    change p ∈ spec.fires db _ _ [] at hp
    rw [spec.fires_nil] at hp
    cases hp
  · rw [Plan.fires, map_append, ← BulkSpec.wrote_eq hdry] at hbuild
    obtain ⟨e, he⟩ := h.reworked.batch_fails hdry BulkSpec.plan_idle h.cover h.follows.shown hshown
      h.changes_eq hactor hbuild
    simp_all [BulkWalk.apply, applyRerun_error]

end Apply

/-- What a round that goes on leaves. -/
structure WalkInv.Goes (ops : Operators) (spec : BulkSpec) (db : Db) (start : BulkWalk)
    (pages : List (List JobRow)) (db' : Db) (w : BulkWalk) (db'' : Db) (w' : BulkWalk) : Prop where
  inv : WalkInv ops spec db start (pages ++ [w.nextSegment ops spec db db']) db'' w'
  cursor : w'.cursor = (w.nextPage ops spec db').last
  next : w'.next = (w.nextPage ops spec db').next
  grows : ∀ q : String → Bool, (db''.jobs.rows.map JobRow.id).countP q ≤
    (db'.jobs.rows.map JobRow.id).countP q +
      ((spec.plan db start pages).fires spec db (w.nextSegment ops spec db db')).length

/-- **A round** takes the plan's next page, unless the host's hook refuses it. -/
theorem WalkInv.round (hactor : resolveActor ctx = .ok actor) (hroom : 0 < spec.room w)
    (hbuild : ∀ p ∈ (spec.plan db start pages).fires spec db (w.nextSegment ops spec db db'),
      Buildable ctx db p) :
    (∃ db'' w', WalkInv.Goes ops spec db start pages db' w db'' w' ∧
        walkRound ctx false ops spec db' w =
          if (w.nextPage ops spec db').ends then .inl (w'.finish db'' true) else .inr (db'', w')) ∨
      ctx.auditHook ≠ none ∧
        ∃ w' : BulkWalk, walkRound ctx false ops spec db' w = .inl
          (w'.stop db' (.batch .auditHook)) := by
  cases hdry : spec.dryRun with
  | true =>
    have hhandle : w.handle ctx ops spec db' =
        .ok (db', w.preview ops spec db' (w.nextPage ops spec db').rows) := by
      rw [BulkWalk.handle, hdry, if_pos rfl]
    exact .inl ⟨_, _, ⟨h.dry hdry, rfl, rfl, fun q => Nat.le_add_right _ _⟩,
      walkRound_ok hroom hhandle⟩
  | false =>
    by_cases hrows : (w.nextPage ops spec db').rows = []
    · have hhandle : w.handle ctx ops spec db' = .ok (db', w) := by
        rw [BulkWalk.handle, hdry, if_neg Bool.false_ne_true, if_pos hrows]
      exact .inl ⟨_, _, ⟨h.skip hdry hrows, rfl, rfl, fun q => Nat.le_add_right _ _⟩,
        walkRound_ok hroom hhandle⟩
    · have hhandle : w.handle ctx ops spec db' =
          w.apply ctx ops spec db' (w.nextPage ops spec db').rows := by
        rw [BulkWalk.handle, hdry, if_neg Bool.false_ne_true, if_neg hrows]
      rcases h.apply hdry hactor hrows hbuild with ⟨out, hout, hinv, hgrows⟩ | ⟨herror, hhook⟩
      · exact .inl ⟨_, _, ⟨hinv, rfl, rfl, hgrows⟩, walkRound_ok hroom (hhandle.trans hout)⟩
      · exact .inr ⟨hhook, _, walkRound_error hroom (hhandle.trans herror)⟩

/-- A round fails on a continuation that cannot be built. -/
theorem WalkInv.round_fails (hactor : resolveActor ctx = .ok actor) (hroom : 0 < spec.room w)
    (hbuild : ∃ p ∈ (spec.plan db start pages).fires spec db (w.nextSegment ops spec db db'),
      ¬Buildable ctx db p) :
    ∃ (w' : BulkWalk) (e : TxError), walkRound ctx false ops spec db' w = .inl
      (w'.stop db' (.batch e)) := by
  have hdry : spec.dryRun = false := by
    grind [Plan.fires, BulkSpec.fires]
  obtain ⟨hrows, e, he⟩ := h.apply_fails hdry hactor hbuild
  refine ⟨_, e, walkRound_error hroom ?_⟩
  rw [BulkWalk.handle, hdry, if_neg Bool.false_ne_true, if_neg hrows, he]

end Round

/-! ## The loop -/

/-- What a walk may still read: the rows past its cursor, or its ids. -/
def BulkSpec.left (spec : BulkSpec) (db : Db) (w : BulkWalk) : ℕ :=
  if spec.ids = [] then (db.jobs.rows.map JobRow.id).countP fun id => decide (w.cursor < id)
  else spec.sortedIDs.length - w.next

theorem BulkSpec.fired_length (spec : BulkSpec) (db : Db) (start : BulkWalk)
    (pages : List (List JobRow)) :
    (spec.plan db start pages).fired.length ≤ db.jobs.rows.length := by
  have hsound := Plan.sound_walk spec db start pages
  have hsub : (spec.plan db start pages).fired ⊆ db.jobs.rows.map JobRow.id := by
    intro p hp
    obtain ⟨r, kind, hjob, -⟩ := (completes_iff.mp (hsound.completes p hp)).1
    have hget := (Db.job?_eq_some.mp hjob).1
    exact mem_map.mpr ⟨r, mem_of_get? hget, key_of_get? hget⟩
  have hle := (subperm_of_subset hsound.distinct hsub).length_le
  rwa [length_map] at hle

/-- **A round that goes on leaves less to do**: it passed a row or an id, and what it stored are the
continuations of barriers that will not fire again. -/
theorem WalkInv.Goes.less (h : WalkInv ops spec db start pages db' w) (hroom : 0 < spec.room w)
    (hgoes : WalkInv.Goes ops spec db start pages db' w db'' w')
    (hends : (w.nextPage ops spec db').ends = false) :
    spec.left db'' w' + (db.jobs.rows.length -
        (spec.plan db start (pages ++ [w.nextSegment ops spec db db'])).fired.length) <
      spec.left db' w + (db.jobs.rows.length - (spec.plan db start pages).fired.length) := by
  have hbound := spec.fired_length db start (pages ++ [w.nextSegment ops spec db db'])
  rw [spec.fired_snoc, length_append] at hbound ⊢
  rw [BulkSpec.left, BulkSpec.left, hgoes.cursor, hgoes.next]
  by_cases hids : spec.ids = []
  · rw [if_pos hids, if_pos hids]
    have hgrows := hgoes.grows fun id => decide ((w.nextPage ops spec db').last < id)
    -- the page has a row, which the old cursor is before and the new one is not
    have htaken := h.follows.taken hids
    have hfull := h.follows.full hids hends
    obtain ⟨r, hr⟩ : ∃ r, r ∈ (spec.rest ops db' w.cursor w.next).filter fun r =>
        !spec.ahead (w.nextPage ops spec db').last (w.nextPage ops spec db').next r.id := by
      refine exists_mem_of_ne_nil _ fun hnil => ?_
      rw [hnil] at htaken
      have hlength := congrArg List.length htaken
      simp_all
    obtain ⟨hr, hout⟩ := mem_filter.mp hr
    obtain ⟨hstored, -, hahead⟩ := BulkSpec.mem_rest.mp hr
    rw [ahead_of_query hids] at hahead hout
    have hmono : ∀ id, (w.nextPage ops spec db').last < id → w.cursor < id := by
      grind
    have hfewer : (db'.jobs.rows.map JobRow.id).countP (fun id =>
          decide ((w.nextPage ops spec db').last < id)) <
        (db'.jobs.rows.map JobRow.id).countP fun id => decide (w.cursor < id) := by
      refine countP_lt_countP (fun id hid => ?_) (mem_map_of_mem hstored) ?_ hahead
      · exact decide_eq_true (hmono id (of_decide_eq_true hid))
      · rwa [not_eq_true'] at hout
    omega
  · have hsteps := h.follows.steps hids
    have hmore := h.follows.more hids hends
    grind

theorem SameClient.symm {ctx : Context} (h : SameClient ctx ctx') : SameClient ctx' ctx :=
  ⟨h.requestID.symm, h.registry.symm, h.insertHook.symm, h.jsonBytes.symm⟩

theorem Buildable.client {ctx : Context} (hclient : SameClient ctx ctx') {p : String}
    (h : Buildable ctx db p) : Buildable ctx' db p := by
  obtain ⟨parent, kind, spec, row, hjob, hkind, hspec, hne, hrow⟩ := h
  obtain ⟨row', hrow'⟩ := continuationRow_builds hclient 0 hrow
  exact ⟨parent, kind, spec, row', hjob, hkind, hspec, hne, hrow'⟩

theorem BulkSpec.size_pos (spec : BulkSpec) : 0 < spec.size := by
  rw [BulkSpec.size]
  split_ifs with hnone hmost
  · decide
  · decide
  · exact Int.pos_iff_toNat_pos.mp (not_le.mp hnone)

theorem WalkInv.rest_eq_nil (h : WalkInv ops spec db start pages db' w) {cursor : String} {next : ℕ}
    (hmono : ∀ id, spec.ahead cursor next id = true → spec.ahead w.cursor w.next id = true)
    (hnil : spec.rest ops db' cursor next = []) : spec.rest ops db cursor next = [] := by
  refine eq_nil_iff_forall_not_mem.mpr fun r hr => ?_
  obtain ⟨hstored, hshows, hahead⟩ := BulkSpec.mem_rest.mp hr
  have hleft : r.id ∉ spec.wrote (spec.plan db start pages) := fun hin => by
    have hbehind := h.wrote_behind _ hin
    simp_all
  obtain ⟨r', hr', hbecame⟩ := h.reworked.kept r hstored fun _ => hleft
  have hmem : r' ∈ spec.rest ops db' cursor next := BulkSpec.mem_rest.mpr ⟨hr', by
    rw [spec.shows_congr ops (hbecame.view hleft) (h.reworked.runs r hstored hleft), hshows], by
    rw [hbecame.id, hahead]⟩
  rw [hnil] at hmem
  cases hmem

/-- A walk that has passed as many jobs as it may has passed them all, if they were no more than
that. -/
theorem WalkInv.round_full (h : WalkInv ops spec db start pages db' w)
    (hcapped : start.result.matchedCapped = false)
    (hfits : start.passed + (spec.rest ops db start.cursor start.next).length ≤ spec.limit)
    (hroom : spec.room w = 0) :
    pages.flatten = spec.rest ops db start.cursor start.next ∧
      walkRound ctx false ops spec db' w = .inl (w.finish db' true) := by
  have hsize := spec.size_pos
  have hpassed : spec.limit ≤ w.passed := by
    rw [BulkSpec.room] at hroom
    omega
  have hrest : spec.rest ops db w.cursor w.next = [] := by
    have hlength := congrArg List.length h.split
    have hseen := (Plan.sound_walk spec db start pages).seen.length_le
    have hcount := h.passed
    rw [length_append] at hlength
    rw [BulkSpec.plan] at hcount
    exact length_eq_zero_iff.mp (by omega)
  have hsplit := h.split
  rw [hrest, append_nil] at hsplit
  refine ⟨hsplit, ?_⟩
  rw [walkRound, if_neg Bool.false_ne_true]
  rw [if_pos (show min spec.size (spec.limit - w.passed) = 0 from hroom)]
  cases hdry : spec.dryRun with
  | true =>
    rw [if_pos rfl, h.capped, hcapped]
    rfl
  | false =>
    -- past the cursor there is nothing but the continuations that the walk enqueued
    have hprobe : w.probe ops spec db' = false := by
      rw [BulkWalk.probe, and_eq_false_iff]
      by_cases hids : spec.ids = []
      · right
        have hshown := h.reworked.rest ops h.wrote_behind
          (Plan.sound_walk spec db start pages).hidden
        rw [hrest, filter_nil] at hshown
        have hnil := forall₂_nil_left_iff.mp hshown
        rw [any_eq_false]
        intro r hr hmatch
        rw [and_eq_true, and_eq_true] at hmatch
        obtain ⟨⟨hshows, hahead⟩, hshown⟩ := hmatch
        have hmem : r ∈ (spec.rest ops db' w.cursor w.next).filter fun r =>
            !r.uniqueKey.any ((Plan.start start).walk spec db pages).hidden.contains := by
          refine mem_filter.mpr ⟨BulkSpec.mem_rest.mpr ⟨hr, hshows, ?_⟩, ?_⟩
          · simp_all [ahead_of_query]
          · rw [BulkWalk.continuation, h.hidden] at hshown
            exact hshown
        grind
      · simp_all
    rw [if_neg Bool.false_ne_true, hprobe, if_neg Bool.false_ne_true]

/-- How a walk ends that runs on: it has read its whole selection, the host's hook refused a batch,
or a continuation could not be built. -/
inductive WalkEnds (ops : Operators) (spec : BulkSpec) (db : Db) (start : BulkWalk) (ctx : Context)
    (hooked : Prop) : BulkEnd → Prop
  | done {pages : List (List JobRow)} {db' : Db} {w : BulkWalk}
    (inv : WalkInv ops spec db start pages db' w)
    (all : pages.flatten = spec.rest ops db start.cursor start.next)
    (built : ∀ p ∈ (spec.plan db start pages).fired, Buildable ctx db p) :
    WalkEnds ops spec db start ctx hooked (w.finish db' true)
  | refused {pages : List (List JobRow)} {db' : Db} {w : BulkWalk} (w' : BulkWalk)
    (inv : WalkInv ops spec db start pages db' w) (hook : hooked) :
    WalkEnds ops spec db start ctx hooked (w'.stop db' (.batch .auditHook))
  | unbuilt {pages : List (List JobRow)} {db' : Db} {w : BulkWalk} (w' : BulkWalk) (e : TxError)
    (inv : WalkInv ops spec db start pages db' w) {p : String}
    (fires : p ∈ (spec.plan db start pages).fires spec db (w.nextSegment ops spec db db'))
    (not : ¬Buildable ctx db p) :
    WalkEnds ops spec db start ctx hooked (w'.stop db' (.batch e))

section Loop

variable {call : ℕ → Context} (hactor : ∀ i, ∃ actor, resolveActor (call i) = .ok actor)
  (hclient : spec.action = .cancel → ∀ i, SameClient (call 0) (call i))
include hactor hclient

/-- **A walk ends**, and follows the plan to its end. -/
theorem WalkInv.loop (hcapped : start.result.matchedCapped = false)
    (hfits : start.passed + (spec.rest ops db start.cursor start.next).length ≤ spec.limit)
      (fuel i : ℕ)
    (h : WalkInv ops spec db start pages db' w)
    (hbuilt : ∀ p ∈ (spec.plan db start pages).fired, Buildable (call 0) db p)
    (hfuel : spec.left db' w + (db.jobs.rows.length - (spec.plan db start pages).fired.length) <
      fuel) :
    ∃ e, walkLoop call (fun _ => false) ops spec fuel i db' w = some e ∧
      WalkEnds ops spec db start (call 0) (∃ i, (call i).auditHook ≠ none) e := by
  induction fuel generalizing i pages db' w with
  | zero => cases hfuel
  | succ fuel ih =>
    obtain ⟨actor, hactor'⟩ := hactor i
    rw [walkLoop]
    by_cases hroom : spec.room w = 0
    · obtain ⟨hall, hround⟩ := h.round_full hcapped hfits hroom
      rw [hround]
      exact ⟨_, rfl, .done h hall hbuilt⟩
    have hroom := Nat.pos_of_ne_zero hroom
    have hsame : ∀ p ∈ (spec.plan db start pages).fires spec db (w.nextSegment ops spec db db'),
        Buildable (call i) db p ↔ Buildable (call 0) db p := by
      intro p hp
      have hcancel : spec.action = .cancel := by
        by_contra hnot
        rw [Plan.fires, BulkSpec.fires_of_not hnot] at hp
        cases hp
      exact ⟨Buildable.client (hclient hcancel i).symm, Buildable.client (hclient hcancel i)⟩
    by_cases hbuild : ∀ p ∈ (spec.plan db start pages).fires spec db
      (w.nextSegment ops spec db db'),
        Buildable (call i) db p
    · rcases h.round hactor' hroom hbuild with ⟨db'', w', hgoes, hround⟩ | ⟨hhook, w', hround⟩
      · have hbuilt' : ∀ p ∈ (spec.plan db start (pages ++ [w.nextSegment ops spec db db'])).fired,
            Buildable (call 0) db p := by
          intro p hp
          rw [spec.fired_snoc] at hp
          rcases mem_append.mp hp with hp | hp
          · exact hbuilt p hp
          · exact (hsame p hp).mp (hbuild p hp)
        rw [hround]
        cases hends : (w.nextPage ops spec db').ends with
        | true =>
          refine ⟨_, rfl, .done hgoes.inv ?_ hbuilt'⟩
          have hnil := h.rest_eq_nil h.follows.cut.mono (h.follows.ends hends)
          have hsplit := hgoes.inv.split
          rwa [hgoes.cursor, hgoes.next, hnil, append_nil] at hsplit
        | false =>
          refine ih (i + 1) hgoes.inv hbuilt' ?_
          exact Nat.lt_of_lt_of_le (hgoes.less h hroom hends) (Nat.lt_succ_iff.mp hfuel)
      · rw [hround]
        exact ⟨_, rfl, .refused w' h ⟨i, hhook⟩⟩
    · push Not at hbuild
      obtain ⟨w', e, hround⟩ := h.round_fails hactor' hroom hbuild
      obtain ⟨p, hp, hnot⟩ := hbuild
      rw [hround]
      exact ⟨_, rfl, .unbuilt w' e h hp fun hbuildable => hnot ((hsame p hp).mpr hbuildable)⟩

end Loop

variable {call : ℕ → Context}

theorem walkLoop_mono {fuel' : ℕ} {e : BulkEnd}
    (h : walkLoop call dead ops spec fuel i db' w = some e) (hle : fuel ≤ fuel') :
    walkLoop call dead ops spec fuel' i db' w = some e := by
  induction fuel generalizing fuel' i db' w with
  | zero => cases h
  | succ fuel ih =>
    obtain ⟨more, rfl⟩ := Nat.exists_eq_add_of_le hle
    rw [Nat.add_right_comm]
    rw [walkLoop] at h ⊢
    cases hround : walkRound (call i) (dead i) ops spec db' w with
    | inl e' =>
      rw [hround] at h
      exact h
    | inr out => simp_all

/-! ## Wherever a walk ends -/

/-- A page that a round handled is the plan's next. -/
theorem WalkInv.handled (h : WalkInv ops spec db start pages db' w) {actor : Actor}
    (hactor : resolveActor ctx = .ok actor) (hout : w.handle ctx ops spec db' = .ok out) :
    WalkInv ops spec db start (pages ++ [w.nextSegment ops spec db db']) out.1
      (w.past out.2 (w.nextPage ops spec db')) := by
  rw [BulkWalk.handle] at hout
  cases hdry : spec.dryRun with
  | true =>
    rw [hdry, if_pos rfl] at hout
    cases hout
    exact h.dry hdry
  | false =>
    rw [hdry, if_neg Bool.false_ne_true] at hout
    by_cases hrows : (w.nextPage ops spec db').rows = []
    · rw [if_pos hrows] at hout
      cases hout
      exact h.skip hdry hrows
    rw [if_neg hrows] at hout
    by_cases hbuild : ∀ p ∈ (spec.plan db start pages).fires spec db
      (w.nextSegment ops spec db db'),
        Buildable ctx db p
    · rcases h.apply hdry hactor hrows hbuild with ⟨out', hout', hinv, -⟩ | ⟨herror, -⟩
      · simp_all
      · cases herror.symm.trans hout
    · push Not at hbuild
      obtain ⟨-, e, herror⟩ := h.apply_fails hdry hactor hbuild
      cases herror.symm.trans hout

/-- **What holds before a walk and is kept by each page that it handles holds where it ends**,
beside the invariant: at a failed batch as well, which leaves all but the place in its ids as it
was. -/
theorem WalkInv.reaches {J : List (List JobRow) → Db → BulkWalk → Prop}
    (hactor : ∀ i, ∃ actor, resolveActor (call i) = .ok actor)
    (hstep : ∀ {pages db' w i out}, WalkInv ops spec db start pages db' w → J pages db' w →
      w.handle (call i) ops spec db' = .ok out →
        J (pages ++ [w.nextSegment ops spec db db']) out.1 (w.past out.2 (w.nextPage ops spec db')))
          {e : BulkEnd} (h : WalkInv ops spec db start pages db' w) (hJ : J pages db' w)
    (hloop : walkLoop call dead ops spec fuel i db' w = some e) :
    ∃ pages w', WalkInv ops spec db start pages e.db w' ∧ J pages e.db w' ∧
      e.walk = { w' with next := e.walk.next } ∧
      ((∀ err, e.error ≠ some (.batch err)) → e.walk = w') := by
  induction fuel generalizing i pages db' w with
  | zero => cases hloop
  | succ fuel ih =>
    rw [walkLoop] at hloop
    cases hdead : dead i with
    | true =>
      rw [hdead, walkRound, if_pos rfl] at hloop
      cases hloop
      exact ⟨pages, w, h, hJ, rfl, fun _ => rfl⟩
    | false =>
      rw [hdead] at hloop
      by_cases hroom : spec.room w = 0
      · rw [walkRound, if_neg Bool.false_ne_true] at hloop
        rw [if_pos (show min spec.size (spec.limit - w.passed) = 0 from hroom)] at hloop
        split_ifs at hloop
        all_goals
          cases hloop
          exact ⟨pages, w, h, hJ, rfl, fun _ => rfl⟩
      have hroom := Nat.pos_of_ne_zero hroom
      cases hhandle : w.handle (call i) ops spec db' with
      | error err =>
        rw [walkRound_error hroom hhandle] at hloop
        cases hloop
        exact ⟨pages, w, h, hJ, rfl, fun hbatch => absurd rfl (hbatch err)⟩
      | ok out =>
        obtain ⟨actor, hactor'⟩ := hactor i
        have hinv := h.handled hactor' hhandle
        have hnext := hstep h hJ hhandle
        rw [walkRound_ok hroom hhandle] at hloop
        cases hends : (w.nextPage ops spec db').ends with
        | true =>
          rw [hends, if_pos rfl] at hloop
          cases hloop
          exact ⟨_, _, hinv, hnext, rfl, fun _ => rfl⟩
        | false => grind

/-! ## A call -/

/-- The jobs that a spec selects, in the order of their ids. -/
def BulkSpec.selection (ops : Operators) (spec : BulkSpec) (db : Db) : List JobRow :=
  sortedJobs (spec.shows ops db) db

theorem BulkSpec.mem_sortedIDs : id ∈ spec.sortedIDs ↔ id ∈ spec.ids := by
  rw [BulkSpec.sortedIDs, mem_insertionSort, mem_dedup]

theorem BulkSpec.rest_start (hnamed : db.Named) (ops : Operators) (spec : BulkSpec) :
    spec.rest ops db spec.after 0 = spec.selection ops db := by
  refine sortedJobs_congr fun r hr => ?_
  cases hshows : spec.shows ops db r with
  | false => rfl
  | true =>
    rw [Bool.true_and]
    rw [BulkSpec.shows, BulkSpec.selects, and_eq_true, and_eq_true, and_eq_true,
      or_eq_true, decide_eq_true_iff, decide_eq_true_iff] at hshows
    obtain ⟨-, ⟨hselected, hafter⟩, -⟩ := hshows
    by_cases hids : spec.ids = []
    · rw [ahead_of_query hids, decide_eq_true_iff]
      rcases hafter with hafter | hafter
      · rw [hafter]
        exact empty_lt (hnamed r hr)
      · exact hafter
    · rw [if_neg (by rwa [List.isEmpty_iff]), contains_iff_mem] at hselected
      rw [ahead_of_ids hids, drop_zero, contains_iff_mem]
      exact BulkSpec.mem_sortedIDs.mpr hselected

theorem length_sortedJobs (p : JobRow → Bool) (db : Db) :
    (sortedJobs p db).length = db.jobs.rows.countP p := by
  rw [sortedJobs, length_insertionSort, countP_eq_length_filter]

/-- The rounds that a call needs at most. -/
def BulkSpec.rounds (spec : BulkSpec) (db : Db) : ℕ := 2 * db.jobs.rows.length + spec.ids.length

theorem OneActor.resolves_of_refuse (hcall : OneActor call)
    (hrefuse : spec.refuse (call 0) dialect = .ok ()) (i : ℕ) :
    ∃ actor, resolveActor (call i) = .ok actor := by
  obtain ⟨actor, hactor, -⟩ := bind_eq_ok.mp hrefuse
  cases hresolve : resolveActor (call 0) with
  | error e =>
    rw [hresolve] at hactor
    cases hactor
  | ok actor => exact hcall.resolves hresolve i

/-- **A call that is not refused ends**, and follows the plan to its end. -/
theorem bulkJobs_ends (hrefuse : spec.refuse (call 0) dialect = .ok ()) (hcall : OneActor call)
    (hclient : spec.action = .cancel → ∀ i, SameClient (call 0) (call i)) (hnamed : db.Named)
    (hindex : spec.action = .retry → activeKeysUnique db.jobs = true)
    (hfits : db.jobs.rows.countP (spec.shows ops db) ≤ spec.limit) :
    ∃ e, (∀ fuel, spec.rounds db < fuel →
        bulkJobs call false (fun _ => false) ops dialect spec fuel db = some e) ∧
      WalkEnds ops spec db (spec.start ops ((call 0).clock 0) db) (call 0)
        (∃ i, (call i).auditHook ≠ none) e := by
  have hcount : spec.countSelection ops db ≤ spec.limit := by
    simp_all [BulkSpec.countSelection]
  have hcapped : (spec.start ops ((call 0).clock 0) db).result.matchedCapped = false :=
    decide_eq_false (not_lt.mpr hcount)
  have hrest : (spec.start ops ((call 0).clock 0) db).passed + (spec.rest ops db
      (spec.start ops ((call 0).clock 0) db).cursor
      (spec.start ops ((call 0).clock 0) db).next).length ≤ spec.limit := by
    change 0 + (spec.rest ops db spec.after 0).length ≤ spec.limit
    simp_all [BulkSpec.rest_start, BulkSpec.selection, length_sortedJobs]
  have hleft : spec.left db (spec.start ops ((call 0).clock 0) db) + (db.jobs.rows.length -
      (spec.plan db (spec.start ops ((call 0).clock 0) db) []).fired.length) <
        spec.rounds db + 1 := by
    have hrounds : spec.left db (spec.start ops ((call 0).clock 0) db) ≤
        db.jobs.rows.length + spec.ids.length := by
      rw [BulkSpec.left]
      split_ifs
      · simp_all [countP_le_length]
      · grind [BulkSpec.sortedIDs, length_insertionSort, dedup_sublist]
    rw [BulkSpec.rounds]
    omega
  obtain ⟨e, hloop, hends⟩ := WalkInv.loop (hcall.resolves_of_refuse hrefuse) hclient hcapped hrest
    (spec.rounds db + 1) 0
    (WalkInv.refl ops spec db (spec.start ops ((call 0).clock 0) db) hindex hnamed)
    nofun hleft
  refine ⟨e, fun fuel hfuel => ?_, hends⟩
  rw [bulkJobs, hrefuse]
  dsimp only
  rw [if_neg Bool.false_ne_true, hcapped, Bool.false_and, if_neg Bool.false_ne_true]
  exact walkLoop_mono hloop hfuel

end Flywheel
