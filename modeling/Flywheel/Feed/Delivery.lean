import Flywheel.Feed.Model
import Flywheel.FinishLog

/-!
# The finish feed delivers each finish once

A reader polls with the cursor of its last page while finishes commit. A poll reads the clock, and
its one statement runs at some later moment. An entry commits within the settle window of its
finish, so that what commits after a poll read the clock lies above the poll's horizon, and the part
of the log that a page can list is complete (`SettledCommit`). One page lists what the log holds
between its start and the position that it reaches (`feedPage_lists`); `FeedInv` carries that over a
history.
-/

namespace Flywheel

open Relational Transition Encoding Paging List Option Table

/-! ## One page -/

/-- The entry at a position. -/
def FeedPos.row (x : FeedPos) : FinishRow := ⟨x.time, x.runID⟩

/-- The log, as positions. -/
def Db.logged (db : Db) : Set FeedPos := {x | x.row ∈ db.finishes}

/-- The finish at a position is of the wanted kinds and queues. -/
def Db.feedKeeps (db : Db) (kinds queues : List String) (x : FeedPos) : Bool :=
  ((feedEntry db x.row).kept kinds queues).isSome

/-- The finishes that a reader of these kinds and queues wants. -/
def Db.feedSet (db : Db) (kinds queues : List String) : Set FeedPos :=
  {x ∈ db.logged | db.feedKeeps kinds queues x = true}

@[simp]
theorem row_pos (e : FinishRow) : e.pos.row = e := rfl

@[simp]
theorem pos_row (x : FeedPos) : x.row.pos = x := rfl

theorem pos_injective : Function.Injective FinishRow.pos := fun a b h => by
  rw [← row_pos a, h, row_pos]

variable {x : FeedPos} {horizon now : Time} {raw : String} {limit : ℤ} {r : JobRunRow}
  {e : FinishRow}

theorem time_le_of_le {y : FeedPos} (h : x ≤ y) : x.time ≤ y.time :=
  (Prod.Lex.le_iff.mp h).elim le_of_lt fun h => h.1.le

theorem inFeedRange_iff {start : FeedPos} :
    inFeedRange start horizon e = true ↔ start < e.pos ∧ e.finishedAt ≤ horizon := by
  have hlt : start < e.pos ↔
      start.time < e.finishedAt ∨ start.time = e.finishedAt ∧ start.runID < e.runID :=
    Prod.Lex.lt_iff
  rw [inFeedRange, Bool.and_eq_true, Bool.and_eq_true, Bool.or_eq_true, Bool.and_eq_true,
    decide_eq_true_eq, decide_eq_true_eq, decide_eq_true_eq, decide_eq_true_eq,
      decide_eq_true_eq, hlt]
  grind

variable {db : Db} {a q : FeedPos}

theorem lists_range (hnodup : db.finishes.Nodup) (start : FeedPos) (horizon : Time) :
    Lists (((db.finishes.filter (inFeedRange start horizon)).insertionSort
        fun a b => a.pos ≤ b.pos).map FinishRow.pos)
      {x ∈ db.logged | start < x ∧ x.time ≤ horizon} := by
  have hpos : ((db.finishes.filter (inFeedRange start horizon)).map FinishRow.pos).Nodup :=
    (hnodup.filter _).map pos_injective
  refine (lists_insertionSort hpos).congr fun x => ?_
  constructor
  · intro hx
    obtain ⟨e, he, rfl⟩ := List.mem_map.mp hx
    obtain ⟨hlog, hrange⟩ := mem_filter.mp he
    exact ⟨hlog, inFeedRange_iff.mp hrange⟩
  · rintro ⟨hlog, hrange⟩
    exact List.mem_map.mpr ⟨x.row, mem_filter.mpr ⟨hlog, inFeedRange_iff.mpr hrange⟩, pos_row x⟩

/-- The page's loop keeps the wanted finishes of the first entries: of all of them, or of those up
to the one at which the page was full. -/
theorem fillPage_spec (kinds queues : List String) (limit : ℕ) (es : List FeedEntry)
    (page : List RunFinish) :
    ∃ ks, ks <+: es ∧ (fillPage kinds queues limit es page).1 =
        page ++ ks.filterMap (FeedEntry.kept kinds queues) ∧
      ((fillPage kinds queues limit es page).2 = none ∧ ks = es ∨
        ∃ e, (fillPage kinds queues limit es page).2 = some e.pos ∧ ks.getLast? = some e) := by
  induction es generalizing page with
  | nil => exact ⟨[], prefix_rfl, (append_nil page).symm, .inl ⟨rfl, rfl⟩⟩
  | cons e es ih =>
    have hlast : ∀ {ks : List FeedEntry} {x : FeedEntry}, ks.getLast? = some x →
        (e :: ks).getLast? = some x := fun h => by
      grind
    rw [fillPage]
    cases hkept : e.kept kinds queues with
    | none =>
      obtain ⟨ks, hpre, hpage, hfull⟩ := ih page
      grind
    | some f =>
      dsimp only
      split_ifs
      · refine ⟨[e], cons_prefix_cons.mpr ⟨rfl, nil_prefix⟩, ?_, .inr ⟨e, rfl, rfl⟩⟩
        rw [filterMap_cons_some hkept, filterMap_nil]
      · obtain ⟨ks, hpre, hpage, hfull⟩ := ih (page ++ [f])
        grind

variable (p : ListRunFinishesParams)

/-- A page's finishes are those of first entries of the scan, and the position that it reaches is
that of the last of these; it takes one entry at least when there is one. -/
theorem feedPage_spec (start : FeedPos) (horizon : Time) (db : Db) :
    ∃ ks, ks <+: scanFinishes start horizon db ∧
      (feedPage p start horizon db).1 = ks.filterMap (FeedEntry.kept p.kinds p.queues) ∧
      (feedPage p start horizon db).2 = (ks.getLast?.map FeedEntry.pos).getD start ∧
      (ks = [] → scanFinishes start horizon db = []) := by
  obtain ⟨ks, hpre, hpage, hfull⟩ := fillPage_spec p.kinds p.queues
    (readLimit p.limit defaultFeedLimit) (scanFinishes start horizon db) []
  refine ⟨ks, hpre, hpage, ?_, ?_⟩
  · change (fillPage _ _ _ _ _).2.getD _ = _
    grind
  · grind

theorem kept_pos {kinds queues : List String} {f : RunFinish}
    (h : (feedEntry db e).kept kinds queues = some f) : f.pos = e.pos := by
  obtain ⟨hf, -⟩ := filter_eq_some_iff.mp h
  obtain ⟨r, -, rfl⟩ := map_eq_some_iff.mp hf
  rfl

theorem map_pos_filterMap (db : Db) (kinds queues : List String) (rows : List FinishRow) :
    ((rows.map (feedEntry db)).filterMap (FeedEntry.kept kinds queues)).map RunFinish.pos =
      (rows.map FinishRow.pos).filter (db.feedKeeps kinds queues) := by
  induction rows with
  | nil => rfl
  | cons e rows ih =>
    cases hkept : (feedEntry db e).kept kinds queues with
    | none => simp_all [Db.feedKeeps]
    | some f =>
      have hyes : db.feedKeeps kinds queues e.pos = true := by
        rw [Db.feedKeeps, row_pos, hkept]
        rfl
      grind [kept_pos]

/-- **A page lists the wanted finishes between its start and the position that it reaches**, and it
reaches past its start when the log holds an entry there. -/
theorem feedPage_lists (hnodup : db.finishes.Nodup) (start : FeedPos)
    (horizon : Time) : let next := (feedPage p start horizon db).2
    Lists ((feedPage p start horizon db).1.map RunFinish.pos)
        {x ∈ db.feedSet p.kinds p.queues | start < x ∧ x ≤ next} ∧
      (next = start ∨ (start < next ∧ next ∈ db.logged ∧ next.time ≤ horizon)) ∧
      ((∃ x ∈ db.logged, start < x ∧ x.time ≤ horizon) → start < next) := by
  have hrange := lists_range hnodup start horizon
  obtain ⟨ks, hpre, hpage, hnext, hempty⟩ := feedPage_spec p start horizon db
  -- the entries of the page are the first of the range
  obtain ⟨k, rows, hks, hrows⟩ : ∃ (k : ℕ) (rows : List FinishRow), ks = rows.map (feedEntry db) ∧
      rows.map FinishRow.pos = ((((db.finishes.filter (inFeedRange start horizon)).insertionSort
        fun a b => a.pos ≤ b.pos).map FinishRow.pos).take k) := by
    rw [prefix_iff_eq_take.mp hpre, scanFinishes, ← map_take, feedRange, take_take]
    exact ⟨_, _, rfl, by rw [map_take]⟩
  subst hks
  have hnone : rows = [] →
      ((db.finishes.filter (inFeedRange start horizon)).insertionSort fun a b => a.pos ≤ b.pos).map
        FinishRow.pos = [] := by
    rintro rfl
    have hscan := map_eq_nil_iff.mp (hempty rfl)
    rw [(take_eq_nil_iff.mp hscan).resolve_left (by decide), map_nil]
  have hlast : ((rows.map (feedEntry db)).getLast?.map FeedEntry.pos) =
      (rows.map FinishRow.pos).getLast? := by
    rw [getLast?_map, getLast?_map, Option.map_map]
    rfl
  rw [hpage, hnext, map_pos_filterMap, hlast]
  cases hq : (rows.map FinishRow.pos).getLast? with
  | none =>
    have hrows0 : rows = [] := map_eq_nil_iff.mp (getLast?_eq_none_iff.mp hq)
    rw [hnone hrows0] at hrange
    subst hrows0
    refine ⟨Lists.nil _ start, .inl rfl, ?_⟩
    rintro ⟨x, hx⟩
    exact absurd ((hrange.mem_iff x).mpr hx) not_mem_nil
  | some q =>
    rw [hrows] at hq ⊢
    have hq' := (hrange.mem_iff q).mp (mem_of_mem_take (mem_of_getLast? hq))
    have htake := hrange.take (fun x y hxy hy => (time_le_of_le hxy).trans hy) hq
    refine ⟨htake.filter.congr fun x => ?_, .inr ⟨hq'.2.1, hq'.1, hq'.2.2⟩, fun _ => hq'.2.1⟩
    exact and_right_comm

/-! ## A reader beside the commits -/

/-- The database, the clock, and a reader: its cursor, the clock's reading of the poll in progress,
the start of its first page, and the finishes of its pages so far. -/
structure FeedState where
  db : Db
  clock : Time
  cursor : String
  polling : Option Time := none
  start : Option FeedPos := none
  finishes : List RunFinish := []

/-- What happens next: time passes, a transaction commits, a poll reads the clock, or its statement
runs. -/
inductive FeedStep where
  | tick (d : ℕ)
  | commit (db : Db)
  | readClock
  | scan (limit : ℤ)

/-- The parameters of the reader's next page. -/
def ListRunFinishesParams.resume (p : ListRunFinishesParams) (cursor : String) (limit : ℤ) :
    ListRunFinishesParams := { p with after := cursor, limit }

/-- The reader takes a page: it goes on from its cursor, and a first page has set its start. -/
def FeedState.take (p : ListRunFinishesParams) (s : FeedState) (page : RunFinishPage) : FeedState :=
  { s with
    polling := none
    cursor := page.nextCursor
    finishes := s.finishes ++ page.finishes
    start := s.start.or ((p.resume s.cursor 0).start page.horizon).toOption }

/-- One step of a reader with these filters. -/
def FeedState.step (p : ListRunFinishesParams) (s : FeedState) : FeedStep → FeedState
  | .tick d => { s with clock := s.clock + d }
  | .commit db => { s with db }
  | .readClock => { s with polling := some s.clock }
  | .scan limit =>
    match s.polling with
    | none => s
    | some now =>
      match listRunFinishes (p.resume s.cursor limit) now s.db with
      | .error _ => { s with polling := none }
      | .ok page => s.take p page

/-- A commit to the finish log: no entry leaves it or is read otherwise, and each that joins it does
so within the settle window of its finish. -/
structure SettledCommit (settle : Duration) (clock : Time) (db db' : Db) : Prop where
  nodup : db'.finishes.Nodup
  kept : ∀ e ∈ db.finishes, e ∈ db'.finishes
  same : ∀ e ∈ db.finishes, ∀ kinds queues,
    db'.feedKeeps kinds queues e.pos = db.feedKeeps kinds queues e.pos
  settled : ∀ e ∈ db'.finishes, e ∉ db.finishes →
    clock < e.finishedAt + settle ∧ Fits64 e.finishedAt

/-- Commits within the settle window, and times that Unix nanoseconds hold. -/
def FeedSettled (p : ListRunFinishesParams) (s : FeedState) : FeedStep → Prop
  | .tick d => Fits64 (s.clock + d - p.settling)
  | .commit db => SettledCommit p.settling s.clock s.db db
  | .readClock => True
  | .scan _ => True

/-- The position that a reader has reached. -/
structure Reached (p : ListRunFinishesParams) (s : FeedState) (a q : FeedPos) : Prop where
  cursor : s.cursor = encodeFeedCursor q
  representable : Fits64 q.time
  le : a ≤ q
  /-- What was read lies below every horizon to come. -/
  settled : q = a ∨ q.time ≤ s.clock - p.settling
  lists : Lists (s.finishes.map RunFinish.pos) {x ∈ s.db.feedSet p.kinds p.queues | a < x ∧ x ≤ q}

/-- What a history keeps. -/
structure FeedInv (p : ListRunFinishesParams) (s : FeedState) : Prop where
  nodup : s.db.finishes.Nodup
  representable : ∀ e ∈ s.db.finishes, Fits64 e.finishedAt
  clock : Fits64 (s.clock - p.settling)
  polling : ∀ now ∈ s.polling, now ≤ s.clock ∧ Fits64 (now - p.settling)
  fresh : s.start = none → s.finishes = [] ∧ s.cursor = p.after
  reached : ∀ a, s.start = some a → ∃ q, Reached p s a q

variable {p : ListRunFinishesParams} {s : FeedState}

/-- A position that was read from a cursor is one that Unix nanoseconds hold. -/
theorem representable_of_feedCursorPos (h : feedCursorPos raw = some q) : Fits64 q.time := by
  rw [feedCursorPos] at h
  split_ifs at h
  obtain ⟨data, -, h⟩ := bind_eq_some_iff.mp h
  obtain ⟨⟨ns, runID⟩, -, h⟩ := bind_eq_some_iff.mp h
  obtain ⟨n, hn, h⟩ := bind_eq_some_iff.mp h
  obtain ⟨id, -, h⟩ := bind_eq_some_iff.mp h
  cases h
  have hrange := (filter_eq_some_iff.mp hn).2
  rw [decide_eq_true_eq] at hrange
  exact hrange

theorem decodeFeedCursor_eq_ok : decodeFeedCursor raw = .ok q ↔ feedCursorPos raw = some q := by
  rw [decodeFeedCursor]
  cases feedCursorPos raw with
  | none => exact iff_of_false (by simp) (by simp)
  | some x => exact ⟨fun h => congrArg some (Except.ok.inj h), fun h => congrArg _ (some.inj h)⟩

theorem start_resume (hq : Fits64 q.time) (limit : ℤ) (horizon : Time) :
    (p.resume (encodeFeedCursor q) limit).start horizon = .ok q := by
  exact decodeFeedCursor_encode hq

theorem representable_start (hsince : ∀ t ∈ p.since, Fits64 t)
    (hhorizon : Fits64 horizon) {cursor : String}
    (h : (p.resume cursor limit).start horizon = .ok a) : Fits64 a.time := by
  rw [ListRunFinishesParams.start] at h
  split_ifs at h
  · exact representable_of_feedCursorPos (decodeFeedCursor_eq_ok.mp h)
  · cases h
    change Fits64 (p.since.getD horizon)
    cases hs : p.since with
    | none => exact hhorizon
    | some t => exact hsince t hs

theorem listRunFinishes_eq_ok {page : RunFinishPage} (h : listRunFinishes p now db = .ok page) :
    ∃ a, p.start (now - p.settling) = .ok a ∧
      page.finishes = (feedPage p a (now - p.settling) db).1 ∧
      page.nextCursor = encodeFeedCursor (feedPage p a (now - p.settling) db).2 ∧
      page.horizon = now - p.settling := by
  obtain ⟨-, -, h⟩ := bind_eq_ok.mp h
  obtain ⟨a, ha, h⟩ := bind_eq_ok.mp h
  cases h
  exact ⟨a, ha, rfl, rfl, rfl⟩

/-- A commit keeps what was read: what joins the log lies above it. -/
theorem Reached.commit (h : Reached p s a q) (hcommit : SettledCommit p.settling s.clock s.db db) :
    Reached p { s with db } a q := by
  refine ⟨h.cursor, h.representable, h.le, h.settled, h.lists.congr fun x => and_congr_left ?_⟩
  rintro ⟨hax, hxq⟩
  -- the position was read already, so that an entry there is an old one
  have hold : x.row ∈ db.finishes → x.row ∈ s.db.finishes := by
    intro hx
    by_contra hnew
    have hlate := (hcommit.settled _ hx hnew).1
    rcases h.settled with rfl | hsettled
    · exact absurd hax (not_lt.mpr hxq)
    · have htime : x.time ≤ s.clock - p.settling := (time_le_of_le hxq).trans hsettled
      exact absurd (le_sub_iff_add_le.mp htime) (not_le.mpr hlate)
  constructor
  · rintro ⟨hlog, hkeep⟩
    exact ⟨hcommit.kept _ hlog, (hcommit.same x.row hlog _ _).trans hkeep⟩
  · rintro ⟨hlog, hkeep⟩
    exact ⟨hold hlog, ((hcommit.same x.row (hold hlog) _ _).symm.trans hkeep)⟩

theorem Reached.congr (h : Reached p s a q) {s' : FeedState} (hdb : s'.db = s.db)
    (hcursor : s'.cursor = s.cursor) (hfinishes : s'.finishes = s.finishes)
    (hclock : s.clock ≤ s'.clock) : Reached p s' a q where
  cursor := hcursor.trans h.cursor
  representable := h.representable
  le := h.le
  settled := h.settled.imp_right fun hq => hq.trans (sub_le_sub_right hclock _)
  lists := by
    rw [hfinishes, hdb]
    exact h.lists

/-- A page takes the reader on from a position that it starts at. -/
theorem Reached.page {b : FeedPos} {page : RunFinishPage}
    (hinv : FeedInv p s) (hnow : now ≤ s.clock)
    (hpage : listRunFinishes (p.resume s.cursor limit) now s.db = .ok page)
    (hstart : (p.resume s.cursor limit).start (now - p.settling) = .ok b) (hab : a ≤ b)
    (hb : Fits64 b.time) (hsettled : b = a ∨ b.time ≤ s.clock - p.settling)
    (hlists : Lists (s.finishes.map RunFinish.pos)
      {x ∈ s.db.feedSet p.kinds p.queues | a < x ∧ x ≤ b}) {start : Option FeedPos} :
    ∃ q, Reached p { s.take p page with start } a q := by
  obtain ⟨b', hb', hfinishes, hcursor, -⟩ := listRunFinishes_eq_ok hpage
  obtain rfl : b' = b := Except.ok.inj (hb'.symm.trans hstart)
  obtain ⟨hlist, hnext, -⟩ :=
    feedPage_lists (p.resume s.cursor limit) hinv.nodup b' (now - p.settling)
  have hsettling : (p.resume s.cursor limit).settling = p.settling := rfl
  rw [hsettling] at hfinishes hcursor
  generalize feedPage (p.resume s.cursor limit) b' (now - p.settling) s.db = out
    at hfinishes hcursor hlist hnext
  have hle : b' ≤ out.2 := by
    grind
  refine ⟨out.2, hcursor, ?_, hab.trans hle, ?_, ?_⟩
  · rcases hnext with hsame | ⟨-, hlog, -⟩
    · exact hsame ▸ hb
    · exact hinv.representable _ hlog
  · rcases hnext with hsame | ⟨-, -, hhorizon⟩
    · rw [hsame]
      exact hsettled
    · exact .inr (hhorizon.trans (sub_le_sub_right hnow _))
  · change Lists ((s.finishes ++ page.finishes).map RunFinish.pos) _
    rw [map_append, hfinishes]
    exact hlists.append hlist hab hle

/-- **One step keeps the account of what was read.** -/
theorem FeedInv.step (hsince : ∀ t ∈ p.since, Fits64 t) (h : FeedInv p s) {e : FeedStep}
    (hok : FeedSettled p s e) : FeedInv p (s.step p e) := by
  cases e with
  | tick d =>
    have hlater : s.clock ≤ s.clock + d := le_add_of_nonneg_right (Int.natCast_nonneg d)
    refine ⟨h.nodup, h.representable, hok, fun now hnow => ?_, h.fresh, fun a ha => ?_⟩
    · exact ⟨(h.polling now hnow).1.trans hlater, (h.polling now hnow).2⟩
    · obtain ⟨q, hq⟩ := h.reached a ha
      exact ⟨q, hq.congr rfl rfl rfl hlater⟩
  | commit db =>
    have hcommit : SettledCommit p.settling s.clock s.db db := hok
    refine ⟨hcommit.nodup, fun e he => ?_, h.clock, h.polling, h.fresh, fun a ha => ?_⟩
    · by_cases hold : e ∈ s.db.finishes
      · exact h.representable e hold
      · exact (hcommit.settled e he hold).2
    · obtain ⟨q, hq⟩ := h.reached a ha
      exact ⟨q, hq.commit hcommit⟩
  | readClock =>
    refine ⟨h.nodup, h.representable, h.clock, fun now hnow => ?_, h.fresh, fun a ha => ?_⟩
    · cases hnow
      exact ⟨le_refl _, h.clock⟩
    · obtain ⟨q, hq⟩ := h.reached a ha
      exact ⟨q, hq.congr rfl rfl rfl (le_refl _)⟩
  | scan limit =>
    rw [FeedState.step]
    cases hpolling : s.polling with
    | none => exact h
    | some now =>
      obtain ⟨hnow, hhorizon⟩ := h.polling now hpolling
      dsimp only
      cases hpage : listRunFinishes (p.resume s.cursor limit) now s.db with
      | error err =>
        refine ⟨h.nodup, h.representable, h.clock, fun now hn => absurd hn (not_mem_none now),
          h.fresh, fun a ha => ?_⟩
        obtain ⟨q, hq⟩ := h.reached a ha
        exact ⟨q, hq.congr rfl rfl rfl (le_refl _)⟩
      | ok page =>
        obtain ⟨b, hb, -, -, hpageHorizon⟩ := listRunFinishes_eq_ok hpage
        have hstart : (p.resume s.cursor limit).start (now - p.settling) = .ok b := hb
        have hfirst : ((p.resume s.cursor 0).start page.horizon).toOption = some b := by
          have hsame : (p.resume s.cursor 0).start page.horizon = .ok b := by
            rw [hpageHorizon]
            exact hb
          rw [hsame]
          rfl
        refine ⟨h.nodup, h.representable, h.clock, fun now hn => absurd hn (not_mem_none now), ?_,
          fun a ha => ?_⟩
        · intro hnone
          change s.start.or _ = none at hnone
          simp_all
        · change s.start.or _ = some a at ha
          rw [hfirst] at ha
          cases hs : s.start with
          | none =>
            rw [hs, none_or] at ha
            cases ha
            have hempty := (h.fresh hs).1
            refine Reached.page h hnow hpage hstart (le_refl _)
              (representable_start hsince hhorizon hstart) (.inl rfl) ?_
            rw [hempty]
            exact Lists.nil _ _
          | some a' =>
            rw [hs, some_or] at ha
            obtain rfl := some.inj ha
            obtain ⟨q, hq⟩ := h.reached a' hs
            have hqb : b = q := by
              rw [hq.cursor, start_resume hq.representable] at hstart
              exact (Except.ok.inj hstart).symm
            subst hqb
            exact Reached.page h hnow hpage hstart hq.le hq.representable hq.settled hq.lists

/-! ## The transactions' commits -/

/-- The finish time that a transaction stamps. -/
def Action.stampedAt : Action → Option Time
  | .finalize _ _ _ _ _ _ finishedAt => some finishedAt
  | .sweep _ _ _ _ now _ => some now
  | _ => none

/-- A transaction that deletes nothing leaves a run in place, of its kind and queue; a finish that
it gives the run is the one that it stamps. -/
theorem run_kept {a : Action} (hkind : a.kind ≠ some .delete) {id : String}
    (h : db.runs.get? id = some r) :
    ∃ r', (step db a).runs.get? id = some r' ∧ r'.kind = r.kind ∧ r'.queue = r.queue ∧
      (r.finishedAt = none → ∀ t, r'.finishedAt = some t → a.stampedAt = some t) := by
  have hmove := step_run db a id
  rw [h] at hmove
  generalize (step db a).runs.get? id = after at hmove
  cases hmove with
  | keep => simp_all
  | finish opts ctx raw result workErr finishedAt durationMs enqueued superseded =>
    refine ⟨_, rfl, rfl, rfl, fun hnone t ht => ?_⟩
    change r.finishedAt.or (some finishedAt) = some t at ht
    rw [hnone, none_or] at ht
    exact ht
  | crash dialect scan opts ctx now limit state started =>
    exact ⟨_, rfl, rfl, rfl, fun _ t ht => ht⟩
  | delete _ kind => exact absurd kind hkind

theorem feedKeeps_congr {db' : Db} {r' : JobRunRow} (hr : db.runs.get? x.runID = some r)
    (hr' : db'.runs.get? x.runID = some r') (hown : r.kind ≠ "" ∧ r.queue ≠ "")
    (hkind : r'.kind = r.kind) (hqueue : r'.queue = r.queue) (kinds queues : List String) :
    db'.feedKeeps kinds queues x = db.feedKeeps kinds queues x := by
  have hget : db.runs.get? x.row.runID = some r := hr
  have hget' : db'.runs.get? x.row.runID = some r' := hr'
  simp only [Db.feedKeeps, FeedEntry.kept, feedEntry, hget, hget', map_some, filter_some,
    resolvedColumn, hkind, hqueue, if_neg hown.1, if_neg hown.2]
  split_ifs
  · rfl
  · rfl

/-- **A transaction commits to the finish log within the window** when it does so within the window
of the time that it stamps, and deletes nothing. -/
theorem step_settled (hlog : FinishLog db.runTables)
    (hown : ∀ r ∈ db.runs.rows, r.kind ≠ "" ∧ r.queue ≠ "") {a : Action}
    (hkind : a.kind ≠ some .delete) {settle : Duration} {clock : Time}
    (hstamp : ∀ t ∈ a.stampedAt, clock < t + settle ∧ Fits64 t) :
    SettledCommit settle clock db (step db a) := by
  have hlog' : FinishLog (step db a).runTables := hlog.step (.act a)
  refine ⟨hlog'.nodup, fun e he => ?_, fun e he kinds queues => ?_, fun e he hnew => ?_⟩
  · obtain ⟨r, hr, ht⟩ := (hlog.mem_iff e).mp he
    obtain ⟨r', hr', -⟩ := run_kept hkind hr
    exact (hlog'.mem_iff e).mpr ⟨r', hr', hlog.finish_kept (.act a) hr ht hr'⟩
  · obtain ⟨r, hr, -⟩ := (hlog.mem_iff e).mp he
    obtain ⟨r', hr', hrkind, hrqueue, -⟩ := run_kept hkind hr
    exact feedKeeps_congr (x := e.pos) hr hr' (hown r (mem_of_get? hr)) hrkind hrqueue _ _
  · obtain ⟨r', hr', ht'⟩ := (hlog'.mem_iff e).mp he
    refine hstamp _ ?_
    cases hr : db.runs.get? e.runID with
    | none =>
      -- the run is a stub, which has no finish
      have hmove := step_run db a e.runID
      change (step db a).runs.get? e.runID = some r' at hr'
      rw [hr, hr'] at hmove
      cases hmove
      cases ht'
    | some r =>
      obtain ⟨r'', hr'', -, -, hfinish⟩ := run_kept hkind hr
      obtain rfl : r'' = r' := some.inj (hr''.symm.trans hr')
      refine hfinish ?_ _ ht'
      by_contra hsome
      obtain ⟨t, ht⟩ := ne_none_iff_exists'.mp hsome
      have hsame := hlog.finish_kept (.act a) hr ht hr'
      refine hnew ((hlog.mem_iff e).mpr ⟨r, hr, ?_⟩)
      rw [ht, ← hsame, ht']

/-- Two jobs, each under an attempt of its own. -/
def twoAttempts : Db :=
  Db.after {} [.insert { newID := fun _ => "job" } [{ kind := "work", args := .null }],
    .dequeue .postgres {} { newID := fun _ => "token" } { queues := ["default"], lease := minute },
    .insertRunStub "run" (firstClaim "job" "work" "token") 0 "" "executor",
    .insert { newID := fun _ => "later job" } [{ kind := "work", args := .null }],
    .dequeue .postgres {} { newID := fun _ => "later token" }
      { queues := ["default"], lease := minute },
    .insertRunStub "later run" (firstClaim "later job" "work" "later token") 0 "" "executor"]

/-- The first of them has finished. -/
def onceFinished : Db :=
  step twoAttempts (.finalize {} {} (firstClaim "job" "work" "token") "run" {} none 1)

/-- The finish of the second, five seconds later. -/
def laterFinish : Action :=
  .finalize {} {} (firstClaim "later job" "work" "later token") "later run" {} none (6 * second)

/-- The second finish joins the first in the log. -/
theorem step_settled_finish :
    (step onceFinished laterFinish).finishes = [⟨1, "run"⟩, ⟨6 * second, "later run"⟩] ∧
      SettledCommit (5 * second) (6 * second) onceFinished (step onceFinished laterFinish) := by
  have hlog : FinishLog onceFinished.runTables :=
    (run_invariant (I := fun db : Db => FinishLog db.runTables) (fun _ a h =>
      h.step (.act a)) .empty _).step (.act _)
  refine ⟨by decide, step_settled hlog (by decide) (by simp [laterFinish, Action.kind])
    fun t ht => ?_⟩
  cases ht
  exact ⟨by decide, by decide, by decide⟩

/-! ## Whole histories -/

/-- A reader with these parameters, beside a database. -/
def feedStart (p : ListRunFinishesParams) (db : Db) (clock : Time) : FeedState :=
  { db, clock, cursor := p.after }

/-- **The finish feed delivers every finish once.** In every history in which entries commit within
the settle window of their finish, none is deleted, and times are ones that Unix nanoseconds hold: a
reader has listed nothing before its first page; from then on its pages list, in order and each
once, exactly the wanted finishes after its first start up to the position that its cursor encodes.
And a poll that has an entry to read, at or before its horizon, moves the cursor on. -/
theorem feed_delivers_every_finish_once (p : ListRunFinishesParams)
    (hsince : ∀ t ∈ p.since, Fits64 t) (db : Db) (hnodup : db.finishes.Nodup)
    (hrepresentable : ∀ e ∈ db.finishes, Fits64 e.finishedAt) (clock : Time)
    (hclock : Fits64 (clock - p.settling)) (history : List FeedStep)
    (hlegal : Legal (FeedState.step p) (FeedSettled p) (feedStart p db clock) history) :
    let s := run (FeedState.step p) (feedStart p db clock) history
    (s.start = none → s.finishes = []) ∧
    (∀ a, s.start = some a → ∃ q, decodeFeedCursor s.cursor = .ok q ∧
      Lists (s.finishes.map RunFinish.pos) {x ∈ s.db.feedSet p.kinds p.queues | a < x ∧ x ≤ q}) ∧
    ∀ now limit page a, s.polling = some now →
      listRunFinishes (p.resume s.cursor limit) now s.db = .ok page →
      (p.resume s.cursor limit).start page.horizon = .ok a →
      (∃ e ∈ s.db.finishes, a < e.pos ∧ e.finishedAt ≤ page.horizon) →
      ∃ q, decodeFeedCursor page.nextCursor = .ok q ∧ a < q := by
  have hinv : FeedInv p (run (FeedState.step p) (feedStart p db clock) history) := by
    refine hlegal.invariant (I := FeedInv p) (fun s e hok h => h.step hsince hok) ?_
    refine ⟨hnodup, hrepresentable, hclock, fun now hn => absurd hn (not_mem_none now),
      fun _ => ⟨rfl, rfl⟩, fun a ha => ?_⟩
    cases ha
  refine ⟨fun hnone => (hinv.fresh hnone).1, fun a ha => ?_, ?_⟩
  · obtain ⟨q, hq⟩ := hinv.reached a ha
    exact ⟨q, by rw [hq.cursor, decodeFeedCursor_encode hq.representable], hq.lists⟩
  · intro now limit page a hpolling hpage hstart hunread
    generalize run (FeedState.step p) (feedStart p db clock) history = s at *
    obtain ⟨b, hb, -, hcursor, hhorizon⟩ := listRunFinishes_eq_ok hpage
    rw [hhorizon] at hstart hunread
    obtain rfl : b = a := Except.ok.inj (hb.symm.trans hstart)
    obtain ⟨-, hnext, hmoves⟩ := feedPage_lists (p.resume s.cursor limit) hinv.nodup b
      (now - (p.resume s.cursor limit).settling)
    obtain ⟨e, he, hlt, hle⟩ := hunread
    have hmoved := hmoves ⟨e.pos, he, hlt, hle⟩
    refine ⟨_, ?_, hmoved⟩
    rw [hcursor]
    refine decodeFeedCursor_encode ?_
    rcases hnext with hsame | ⟨-, hlog, -⟩
    · exact absurd hsame hmoved.ne'
    · exact hinv.representable _ hlog

/-- Two commits and two polls, the second commit between a poll's clock reading and its scan. -/
def twoPolls : List FeedStep :=
  [.commit onceFinished, .tick 6000000000, .readClock, .commit (step onceFinished laterFinish),
    .scan 1, .tick 6000000000, .readClock, .scan 1]

/-- A reader from time zero on has the first finish on its first page and the second on its
second. -/
theorem feed_delivers_two_finishes :
    let s := run (FeedState.step { since := some 0 })
      (feedStart { since := some 0 } twoAttempts 0) twoPolls
    s.finishes.map RunFinish.pos = [feedPos 1 "run", feedPos (6 * second) "later run"] ∧
    ∃ q, decodeFeedCursor s.cursor = .ok q ∧
      Lists (s.finishes.map RunFinish.pos)
        {x ∈ s.db.feedSet [] [] | feedPos 0 "" < x ∧ x ≤ q} := by
  have hfirst : SettledCommit (5 * second) 0 twoAttempts onceFinished := by
    refine ⟨by decide, by decide, fun e he => ?_, by decide⟩
    cases he
  have hlater : SettledCommit (5 * second) (6 * second) onceFinished
    (step onceFinished laterFinish) := by
    refine ⟨by decide, by decide, fun e he kinds queues => ?_, by decide⟩
    have hentries : onceFinished.finishes = [⟨1, "run"⟩] := by decide
    rw [hentries, mem_singleton] at he
    subst he
    rfl
  refine ⟨by decide, (feed_delivers_every_finish_once { since := some 0 } ?_ twoAttempts (by decide)
    (by decide) 0 ⟨by decide, by decide⟩ twoPolls ⟨hfirst, ⟨by decide, by decide⟩, trivial, hlater,
      trivial, ⟨by decide, by decide⟩, trivial, trivial, trivial⟩).2.1 _ rfl⟩
  rintro t ht
  cases ht
  exact ⟨by decide, by decide⟩

end Flywheel
