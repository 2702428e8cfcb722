import Flywheel.Control.Reworked

/-!
# The pages of a walk

A walk reads its selection a page at a time, by query past its cursor or by the next of its ids.
Either way what it has not come to, `ahead`, shrinks from the low ids up (`Cut`), a page is what the
cut takes off the selection less the continuations that the walk enqueued, and the last page leaves
nothing ahead (`BulkPage.Follows`). The selection ahead is the one that the walk began with, row by
row (`Reworked.rest`), and it is classified alike (`Reworked.reason_eq`).
-/

namespace Flywheel

open Relational Transition Keyset List

variable {ops : Operators} {spec : BulkSpec} {db db' : Db}

/-! ## What is ahead -/

/-- The walk has not come to the id. -/
def BulkSpec.ahead (spec : BulkSpec) (cursor : String) (next : ℕ) (id : String) : Bool :=
  if spec.ids.isEmpty then decide (cursor < id) else (spec.sortedIDs.drop next).contains id

/-- The selection ahead. -/
def BulkSpec.rest (ops : Operators) (spec : BulkSpec) (db : Db) (cursor : String) (next : ℕ) :
    List JobRow :=
  sortedJobs (fun r => spec.shows ops db r && spec.ahead cursor next r.id) db

theorem ascending_sortedJobs (p : JobRow → Bool) (db : Db) :
    Ascending JobRow.id (sortedJobs p db) :=
  ascending_rows db.jobs p

variable {r : JobRow}

theorem mem_sortedJobs {p : JobRow → Bool} :
    r ∈ sortedJobs p db ↔ r ∈ db.jobs.rows ∧ p r = true := by
  rw [sortedJobs, mem_insertionSort, mem_filter]

theorem sortedJobs_congr {p q : JobRow → Bool} (h : ∀ r ∈ db.jobs.rows, p r = q r) :
    sortedJobs p db = sortedJobs q db := by
  rw [sortedJobs, sortedJobs, filter_congr h]

theorem sortedJobs_filter (p q : JobRow → Bool) (db : Db) :
    (sortedJobs p db).filter q = sortedJobs (fun r => p r && q r) db := by
  refine Ascending.ext ((ascending_sortedJobs p db).filter q) (ascending_sortedJobs _ db) fun r =>
    ?_
  rw [mem_filter, mem_sortedJobs, mem_sortedJobs, Bool.and_eq_true, and_assoc]

theorem BulkSpec.mem_rest {cursor : String} {next : ℕ} : r ∈ spec.rest ops db cursor next ↔
      r ∈ db.jobs.rows ∧ spec.shows ops db r = true ∧ spec.ahead cursor next r.id = true := by
  rw [rest, mem_sortedJobs, Bool.and_eq_true]

/-- What is ahead shrinks from the low ids up. -/
structure BulkSpec.Cut (spec : BulkSpec) (cursor : String) (next : ℕ) (cursor' : String)
    (next' : ℕ) : Prop where
  mono : ∀ id, spec.ahead cursor' next' id = true → spec.ahead cursor next id = true
  order : ∀ id id', spec.ahead cursor next id = true → spec.ahead cursor' next' id = false →
    spec.ahead cursor' next' id' = true → id < id'

variable {cursor cursor' : String} {next next' : ℕ}

theorem BulkSpec.Cut.split (h : spec.Cut cursor next cursor' next') (ops : Operators) (db : Db) :
    (spec.rest ops db cursor next).filter (fun r => !spec.ahead cursor' next' r.id) ++
        spec.rest ops db cursor' next' =
      spec.rest ops db cursor next := by
  refine Ascending.ext ?_ (ascending_sortedJobs _ db) fun r => ?_
  · refine pairwise_append.mpr ⟨(ascending_sortedJobs _ db).filter _, ascending_sortedJobs _ db,
      fun a ha b hb => ?_⟩
    obtain ⟨ha, hout⟩ := mem_filter.mp ha
    rw [Bool.not_eq_true'] at hout
    exact h.order a.id b.id (BulkSpec.mem_rest.mp ha).2.2 hout (BulkSpec.mem_rest.mp hb).2.2
  · rw [mem_append, mem_filter, BulkSpec.mem_rest, BulkSpec.mem_rest, Bool.not_eq_true']
    cases hahead : spec.ahead cursor' next' r.id with
    | false => simp
    | true => simp [h.mono r.id hahead]

/-! ## A read -/

/-- What a read of at most `limit` jobs is. -/
structure BulkPage.Follows (ops : Operators) (spec : BulkSpec) (db : Db) (w : BulkWalk) (limit : ℕ)
    (page : BulkPage) : Prop where
  cut : spec.Cut w.cursor w.next page.last page.next
  rows : page.rows = ((spec.rest ops db w.cursor w.next).filter fun r =>
    !spec.ahead page.last page.next r.id).filter fun r => !w.continuation r
  short : ((spec.rest ops db w.cursor w.next).filter fun r =>
    !spec.ahead page.last page.next r.id).length ≤ limit
  ends : page.ends = true → spec.rest ops db page.last page.next = []
  named : spec.ids = [] → page.last = "" → w.cursor = "" ∧ page.rows = []
  taken : spec.ids = [] → (spec.rest ops db w.cursor w.next).filter (fun r =>
    !spec.ahead page.last page.next r.id) = (spec.rest ops db w.cursor w.next).take limit
  full : spec.ids = [] → page.ends = false → limit ≤ (spec.rest ops db w.cursor w.next).length
  steps : spec.ids ≠ [] → page.next = w.next + ((spec.sortedIDs.drop w.next).take limit).length
  more : spec.ids ≠ [] → page.ends = false → page.next < spec.sortedIDs.length

theorem ahead_of_query (h : spec.ids = []) (cursor : String) (next : ℕ) (id : String) :
    spec.ahead cursor next id = decide (cursor < id) := by
  rw [BulkSpec.ahead, h]
  rfl

theorem ahead_of_ids (h : spec.ids ≠ []) (cursor : String) (next : ℕ) (id : String) :
    spec.ahead cursor next id = (spec.sortedIDs.drop next).contains id := by
  rw [BulkSpec.ahead, if_neg]
  rwa [List.isEmpty_iff]

theorem cut_of_query (h : spec.ids = []) (hle : cursor ≤ cursor') (next next' : ℕ) :
    spec.Cut cursor next cursor' next' := by
  refine ⟨fun id hid => ?_, fun id id' _ hout hid' => ?_⟩
  · rw [ahead_of_query h, decide_eq_true_iff] at hid ⊢
    exact hle.trans_lt hid
  · rw [ahead_of_query h, decide_eq_false_iff_not, not_lt] at hout
    rw [ahead_of_query h, decide_eq_true_iff] at hid'
    exact hout.trans_lt hid'

theorem BulkSpec.sortedIDs_ascending (spec : BulkSpec) : Ascending id spec.sortedIDs :=
  ascending_insertionSort (by rw [map_id]; exact nodup_dedup spec.ids)

theorem cut_of_ids (h : spec.ids ≠ []) (cursor cursor' : String) (next n : ℕ) :
    spec.Cut cursor next cursor' (next + n) := by
  have hsplit : spec.sortedIDs.drop next =
      (spec.sortedIDs.drop next).take n ++ spec.sortedIDs.drop (next + n) := by
    rw [← drop_drop, take_append_drop]
  have hasc : Ascending id (spec.sortedIDs.drop next) :=
    Pairwise.sublist (drop_sublist _ _) spec.sortedIDs_ascending
  rw [hsplit] at hasc
  obtain ⟨-, -, hcross⟩ := pairwise_append.mp hasc
  refine ⟨fun id hid => ?_, fun id id' hid hout hid' => ?_⟩
  · grind [ahead_of_ids]
  · rw [ahead_of_ids h, contains_iff_mem] at hid hid'
    rw [ahead_of_ids h, ← Bool.not_eq_true, contains_iff_mem] at hout
    grind

variable {limit : ℕ} (w : BulkWalk)

/-- A read by query. -/
theorem BulkWalk.read_query (hids : spec.ids = []) (hnamed : w.cursor = "" → db.Named) :
    (w.read ops spec limit db).Follows ops spec db w limit := by
  -- the rows past the cursor are the selection ahead
  have hrest : sortedJobs (fun r => spec.shows ops db r &&
      (decide (w.cursor = "") || decide (w.cursor < r.id))) db =
        spec.rest ops db w.cursor w.next := by
    refine sortedJobs_congr fun r hr => congrArg _ ?_
    rw [ahead_of_query hids]
    by_cases hcursor : w.cursor = ""
    · rw [decide_eq_true hcursor, hcursor, decide_eq_true (empty_lt (hnamed hcursor r hr))]
      rfl
    · rw [decide_eq_false hcursor, Bool.false_or]
  rw [BulkWalk.read, if_pos (List.isEmpty_iff.mpr hids), hrest]
  generalize hL : spec.rest ops db w.cursor w.next = L
  have hasc : Ascending JobRow.id L := hL ▸ ascending_sortedJobs _ db
  have hahead : ∀ r ∈ L, w.cursor < r.id := by
    intro r hr
    rw [← hL, BulkSpec.mem_rest, ahead_of_query hids, decide_eq_true_iff] at hr
    exact hr.2.2
  -- the page is what is at or before its last id
  have hpage : w.cursor ≤ ((L.take limit).getLast?.map JobRow.id).getD w.cursor ∧
      L.filter (fun r => !spec.ahead (((L.take limit).getLast?.map JobRow.id).getD w.cursor) w.next
        r.id) = L.take limit := by
    have hfilter : ∀ c, L.filter (fun r => !spec.ahead c w.next r.id) =
        L.filter fun r => decide (r.id ≤ c) := fun c => filter_congr fun r _ => by
      rw [ahead_of_query hids, ← decide_not, decide_eq_decide, not_lt]
    rw [hfilter]
    cases hlast : (L.take limit).getLast? with
    | none =>
      rw [getLast?_eq_none_iff] at hlast
      grind [filter_eq_nil_iff]
    | some x =>
      refine ⟨(hahead x (mem_of_mem_take (mem_of_getLast? hlast))).le, ?_⟩
      exact (hasc.take_eq hlast).symm
  refine ⟨cut_of_query hids hpage.1 _ _, ?_, ?_, fun hends => ?_, fun _ hempty => ?_, fun _ => ?_,
    fun _ hends => ?_, fun hne => absurd hids hne, fun hne => absurd hids hne⟩
  · rw [hL, hpage.2]
  · simp_all
  · have hsplit := (cut_of_query hids hpage.1 w.next w.next).split ops db
    rw [hL, hpage.2] at hsplit
    have hlt := of_decide_eq_true hends
    rw [length_take, min_lt_iff, or_iff_right (lt_irrefl _)] at hlt
    rw [take_of_length_le hlt.le] at hsplit ⊢
    exact append_right_eq_self.mp hsplit
  · have hcursor : w.cursor = "" := by
      by_contra hne
      exact absurd (hempty ▸ hpage.1) (not_le.mpr (empty_lt hne))
    refine ⟨hcursor, ?_⟩
    cases hlast : (L.take limit).getLast? with
    | none =>
      rw [getLast?_eq_none_iff.mp hlast]
      rfl
    | some x => grind
  · rw [hL]
    exact hpage.2
  · simp_all

/-- A read of the next ids. -/
theorem BulkWalk.read_ids (hids : spec.ids ≠ []) :
    (w.read ops spec limit db).Follows ops spec db w limit := by
  rw [BulkWalk.read, if_neg (by rwa [List.isEmpty_iff])]
  generalize hchunk : (spec.sortedIDs.drop w.next).take limit = chunk
  have hsplit : spec.sortedIDs.drop w.next = chunk ++ spec.sortedIDs.drop
    (w.next + chunk.length) := by
    rw [← drop_drop, ← hchunk, length_take]
    grind [take_append_drop]
  have hnodup : (chunk ++ spec.sortedIDs.drop (w.next + chunk.length)).Nodup :=
    hsplit ▸ (spec.sortedIDs_ascending.nodup).sublist (drop_sublist _ _)
  -- what the cut takes off is the chunk
  have hcut : ∀ last id, (spec.ahead w.cursor w.next id &&
      !spec.ahead last (w.next + chunk.length) id) = chunk.contains id := by
    intro last id
    rw [Bool.eq_iff_iff, Bool.and_eq_true, Bool.not_eq_true', ahead_of_ids hids, ahead_of_ids hids,
      ← Bool.not_eq_true, contains_iff_mem, contains_iff_mem, contains_iff_mem, hsplit,
      mem_append]
    grind
  have hrows : ∀ last, (spec.rest ops db w.cursor w.next).filter (fun r =>
      !spec.ahead last (w.next + chunk.length) r.id) =
        sortedJobs (fun r => spec.shows ops db r && chunk.contains r.id) db := by
    intro last
    rw [BulkSpec.rest, sortedJobs_filter]
    grind
  -- the limit cuts nothing, since no id of the chunk has two jobs
  have hlength : (sortedJobs (fun r => spec.shows ops db r && chunk.contains r.id) db).length ≤
      limit := by
    have hsub : (sortedJobs (fun r => spec.shows ops db r && chunk.contains r.id) db).map
      JobRow.id ⊆
        chunk := by
      intro id hid
      obtain ⟨r, hr, rfl⟩ := mem_map.mp hid
      obtain ⟨-, hr⟩ := mem_sortedJobs.mp hr
      simp_all
    have hdistinct : ((sortedJobs (fun r => spec.shows ops db r && chunk.contains r.id) db).map
        JobRow.id).Nodup :=
      pairwise_map.mpr ((ascending_sortedJobs _ db).imp fun hlt => ne_of_lt hlt)
    have hle := (subperm_of_subset hdistinct hsub).length_le
    grind
  refine ⟨cut_of_ids hids _ _ _ _, ?_, ?_, fun hends => ?_, fun hnil => absurd hnil hids,
    fun hnil => absurd hnil hids, fun hnil => absurd hnil hids,
      fun _ => by rw [hchunk], fun _ hends => ?_⟩
  · simp_all [take_of_length_le]
  · rw [hrows]
    exact hlength
  · simp_all [BulkSpec.rest, sortedJobs, ahead_of_ids, drop_of_length_le]
  · exact not_le.mp (of_decide_eq_false hends)

/-- **A read**, by query or by ids. -/
theorem BulkWalk.read_follows (limit : ℕ) (hnamed : spec.ids = [] → w.cursor = "" → db.Named) :
    (w.read ops spec limit db).Follows ops spec db w limit := by
  by_cases hids : spec.ids = []
  · exact w.read_query hids (hnamed hids)
  · exact w.read_ids hids

theorem BulkPage.Follows.mem_rest {w : BulkWalk} {page : BulkPage}
    (h : page.Follows ops spec db w limit) (hr : r ∈ page.rows) :
    r ∈ spec.rest ops db w.cursor w.next := by
  rw [h.rows] at hr
  exact mem_of_mem_filter (mem_of_mem_filter hr)

/-! ## The selection of a database that the walk has changed -/

/-- A job that the walk has not changed, in the database that it began on and in the one that it has
reached. -/
structure Unchanged (change : List String) (db db' : Db) (r r' : JobRow) : Prop where
  stored : r ∈ db.jobs.rows
  stored' : r' ∈ db'.jobs.rows
  view : r'.view = r.view
  left : r.id ∉ change

variable {action : BulkAction} {change fired hidden taken : List String} {r r' : JobRow}

section

variable (h : Unchanged change db db' r r')

include h

theorem Unchanged.id : r'.id = r.id := (congrArg JobRow.id h.view :)

theorem Unchanged.state : r'.state = r.state := (congrArg JobRow.state h.view :)

theorem Unchanged.kind : r'.kind = r.kind := (congrArg JobRow.kind h.view :)

theorem Unchanged.parentJobID : r'.parentJobID = r.parentJobID :=
  (congrArg JobRow.parentJobID h.view :)

theorem Unchanged.uniqueActiveKey :
    r'.uniqueActiveKey = r.uniqueActiveKey := (congrArg JobRow.uniqueActiveKey h.view :)

end

theorem BulkSpec.shows_congr (ops : Operators) (spec : BulkSpec) (hview : r'.view = r.view)
    (hruns : SameRuns r.id db db') : spec.shows ops db' r' = spec.shows ops db r := by
  have hid : r'.id = r.id := (congrArg JobRow.id hview :)
  have hdeleted : r'.deletedAt = r.deletedAt := (congrArg JobRow.deletedAt hview :)
  rw [BulkSpec.shows, BulkSpec.shows, BulkSpec.selects, BulkSpec.selects,
    spec.query.matches_congr ops hview hruns, hid, JobRow.visible, JobRow.visible, hdeleted]

/-- **The selection ahead is the one that the walk began with**, row by row, since what the walk
changed is behind it and the continuations that it enqueued are left out. -/
theorem Reworked.rest (h : Reworked action change fired db db') (ops : Operators)
    (hbehind : ∀ id ∈ change, spec.ahead cursor next id = false)
    (hhidden : ∀ p ∈ fired, barrierKey p ∈ hidden) :
    List.Forall₂ (Unchanged change db db')
      ((spec.rest ops db cursor next).filter fun r => !r.uniqueKey.any hidden.contains)
      ((spec.rest ops db' cursor next).filter fun r => !r.uniqueKey.any hidden.contains) := by
  refine Ascending.forall₂ ((ascending_sortedJobs _ db).filter _)
    ((ascending_sortedJobs _ db').filter _)
    (fun hsame => hsame.id) (fun r hr => ?_) fun r' hr' => ?_
  · obtain ⟨hr, hshown⟩ := mem_filter.mp hr
    obtain ⟨hr, hshows, hahead⟩ := BulkSpec.mem_rest.mp hr
    have hleft : r.id ∉ change := fun hin => by
      simp_all
    obtain ⟨r', hr', hbecame⟩ := h.kept r hr fun _ => hleft
    refine ⟨r', mem_filter.mpr ⟨BulkSpec.mem_rest.mpr ⟨hr', ?_, ?_⟩, ?_⟩, hr, hr',
      hbecame.view hleft, hleft⟩
    · rw [spec.shows_congr ops (hbecame.view hleft) (h.runs r hr hleft), hshows]
    · rw [hbecame.id, hahead]
    · rw [hbecame.uniqueKey, hshown]
  · obtain ⟨hr', hshown⟩ := mem_filter.mp hr'
    obtain ⟨hr', hshows, hahead⟩ := BulkSpec.mem_rest.mp hr'
    rcases h.origin r' hr' with ⟨r, hr, -, hbecame⟩ | ⟨-, p, hp, henqueued⟩
    · rw [hbecame.id] at hahead
      have hleft : r.id ∉ change := fun hin => by
        simp_all
      refine ⟨r, mem_filter.mpr ⟨BulkSpec.mem_rest.mpr ⟨hr, ?_, hahead⟩, ?_⟩, hr, hr',
        hbecame.view hleft, hleft⟩
      · rw [← spec.shows_congr ops (hbecame.view hleft) (h.runs r hr hleft), hshows]
      · rw [← hbecame.uniqueKey, hshown]
    · rw [henqueued.uniqueKey, Option.any_some, contains_iff_mem.mpr (hhidden p hp)] at hshown
      cases hshown

/-! ## Classifying it -/

section

variable (h : Unchanged change db db' r r')

include h

theorem Unchanged.cancelledAttemptStillRuns (hruns : SameRuns r.id db db') :
    cancelledAttemptStillRuns db' r' = cancelledAttemptStillRuns db r := by
  have hattempt : r'.attempt = r.attempt := (congrArg JobRow.attempt h.view :)
  rw [Flywheel.cancelledAttemptStillRuns, Flywheel.cancelledAttemptStillRuns, attemptStillRuns,
    attemptStillRuns, h.state, h.id, hattempt, hruns.any_eq fun run hrun =>
      (of_decide_eq_true hrun).1]

theorem Unchanged.skipReason (hruns : SameRuns r.id db db')
    (run : BulkRun) : run.skipReason db' r' = run.skipReason db r := by
  rw [BulkRun.skipReason, BulkRun.skipReason, h.cancelledAttemptStillRuns hruns, h.state]

theorem Unchanged.keyRuled (hruns : SameRuns r.id db db')
    (run : BulkRun) : run.keyRuled db' r' = run.keyRuled db r := by
  rw [BulkRun.keyRuled, BulkRun.keyRuled, h.skipReason hruns, h.uniqueActiveKey, h.state]

end

/-- **A key is held or taken alike in both databases**: the jobs that the walk changed hold keys
that it counts as taken. -/
theorem Reworked.ruledHeld (h : Reworked .retry change [] db db')
    (hcover : ∀ s ∈ db.jobs.rows, s.id ∈ change → ∀ key, s.uniqueActiveKey = some key → key ∈ taken)
    (hsame : Unchanged change db db' r r') :
    (spec.rule taken).ruledHeld db' r' = (spec.rule taken).ruledHeld db r := by
  have htaken : ∀ {key s}, s ∈ db.jobs.rows → s.id ∈ change → r.uniqueActiveKey = some key →
      s.uniqueActiveKey = some key → r.uniqueActiveKey.any taken.contains = true := by
    grind
  change (activeKeyHeld db' r' || r'.uniqueActiveKey.any taken.contains) =
    (activeKeyHeld db r || r.uniqueActiveKey.any taken.contains)
  rw [hsame.uniqueActiveKey, Bool.eq_iff_iff, Bool.or_eq_true, Bool.or_eq_true, activeKeyHeld_iff,
    activeKeyHeld_iff, hsame.uniqueActiveKey, hsame.id]
  constructor
  · rintro (⟨key, hkey, s', hs', hskey, hlive, hne⟩ | htook)
    · rcases h.origin s' hs' with ⟨s, hs, -, hbecame⟩ | ⟨-, p, hp, -⟩
      · rw [hbecame.uniqueActiveKey] at hskey
        rw [hbecame.id] at hne
        by_cases hin : s.id ∈ change
        · exact .inr (htaken hs hin hkey hskey)
        · rw [JobRow.live, hbecame.state_of_not_mem hin] at hlive
          exact .inl ⟨key, hkey, s, hs, hskey, hlive, hne⟩
      · cases hp
    · exact .inr htook
  · rintro (⟨key, hkey, s, hs, hskey, hlive, hne⟩ | htook)
    · by_cases hin : s.id ∈ change
      · exact .inr (htaken hs hin hkey hskey)
      · obtain ⟨s', hs', hbecame⟩ := h.kept s hs fun _ => hin
        refine .inl ⟨key, hkey, s', hs', hbecame.uniqueActiveKey.trans hskey, ?_, ?_⟩
        · rwa [JobRow.live, hbecame.state_of_not_mem hin]
        · rwa [hbecame.id]
    · exact .inr htook

section Classify

variable {rows rows' : List JobRow} (h : Reworked spec.action change fired db db')
  (hfired : spec.action ≠ .cancel → fired = [])
  (hcover : spec.action = .retry → spec.retry.force = true → ∀ s ∈ db.jobs.rows, s.id ∈ change →
    ∀ key, s.uniqueActiveKey = some key → key ∈ taken)
  (hrows : List.Forall₂ (Unchanged change db db') rows rows')
include h hfired hcover hrows

/-- **A page is classified alike in both databases.** -/
theorem Reworked.reason_eq (hsame : Unchanged change db db' r r') :
    (spec.rule taken).reason db' rows' r' = (spec.rule taken).reason db rows r := by
  have hruns := fun {s s'} (hs : Unchanged change db db' s s') => h.runs s hs.stored hs.left
  cases hforced : (spec.rule taken).forced with
  | false =>
    rw [BulkRun.reason_of_not_forced hforced, BulkRun.reason_of_not_forced hforced,
      hsame.skipReason (hruns hsame)]
  | true =>
    rw [BulkRun.forced, Bool.and_eq_true, decide_eq_true_iff] at hforced
    have hretry : spec.action = .retry := hforced.1
    have h' : Reworked .retry change [] db db' := by
      simp_all
    have hlive : (spec.rule taken).liveIDs db' rows' = (spec.rule taken).liveIDs db rows := by
      rw [BulkRun.liveIDs_eq, BulkRun.liveIDs_eq]
      refine (liveCandidates_forall₂ ?_).symm
      refine (rel_filter (fun s s' hs => ?_) hrows).imp fun s s' hs =>
        ⟨hs.id, hs.uniqueActiveKey, fun key _ => ?_⟩
      · change _ = true ↔ _ = true
        rw [hs.keyRuled (hruns hs)]
      · rw [h'.ruledHeld (hcover hretry hforced.2) hs]
    rw [BulkRun.reason, BulkRun.reason, hsame.skipReason (hruns hsame), hlive, hsame.id,
      hsame.keyRuled (hruns hsame)]

theorem Reworked.classify : List.Forall₂ (Unchanged change db db')
    ((spec.rule taken).classify db rows) ((spec.rule taken).classify db' rows') := by
  rw [BulkRun.classify_eq, BulkRun.classify_eq]
  refine rel_filter (fun s s' hs => ?_) hrows
  change _ = true ↔ _ = true
  rw [h.reason_eq hfired hcover hrows hs]

theorem Reworked.skips : (spec.rule taken).skips db' rows' = (spec.rule taken).skips db rows := by
  have hreason := fun {s s'} (hs : Unchanged change db db' s s') =>
    h.reason_eq hfired hcover hrows hs
  rw [BulkRun.skips, BulkRun.skips]
  generalize (spec.rule taken).reason db' rows' = f' at hreason ⊢
  generalize (spec.rule taken).reason db rows = f at hreason ⊢
  induction hrows with
  | nil => rfl
  | cons hs _ ih => rw [filterMap_cons, filterMap_cons, hreason hs, ih]

end Classify

end Flywheel
