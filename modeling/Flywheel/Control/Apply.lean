import Flywheel.Control.Page

/-!
# The batches of a bulk apply

One batch's transaction (`applyBatch`), on the database that the walk has reached. Of the jobs of a
page it changes those that the plan changes, it never meets a key that another job holds, and for a
cancel it fires the barriers that the plan fires (`Reworked.batch_commits`). All that can fail it is
a continuation that cannot be built, or the host's hook.
-/

namespace Flywheel

open Relational Transition Keyset List Table Bool

variable {ctx : Context} {ops : Operators} {spec : BulkSpec} {w : BulkWalk} {db db' : Db}
  {change fired taken : List String} {rows rows' : List JobRow} {r s : JobRow}

/-! ## Keys -/

/-- The rows of a page: stored jobs that the selection shows, in the order of their ids. -/
structure Shown (ops : Operators) (spec : BulkSpec) (db : Db) (rows : List JobRow) : Prop where
  ascending : Ascending JobRow.id rows
  stored : ∀ r ∈ rows, r ∈ db.jobs.rows
  shows : ∀ r ∈ rows, spec.shows ops db r = true

theorem nodup_ids (h : Ascending JobRow.id rows) : (rows.map JobRow.id).Nodup :=
  pairwise_map.mpr (h.imp fun hlt => ne_of_lt hlt)

theorem BulkPage.Follows.shown {limit : ℕ} {page : BulkPage}
    (h : page.Follows ops spec db w limit) : Shown ops spec db page.rows := by
  refine ⟨?_, fun r hr => (BulkSpec.mem_rest.mp (h.mem_rest hr)).1,
    fun r hr => (BulkSpec.mem_rest.mp (h.mem_rest hr)).2.1⟩
  rw [h.rows]
  exact ((ascending_sortedJobs _ db).filter _).filter _

theorem BulkSpec.live_of_unforced (hretry : spec.action = .retry)
    (hforce : spec.retry.force = false) (hr : r ∈ (spec.rule taken).classify db rows) :
    r.live = true := by
  have hsource := (BulkRun.mem_classify hr).2
  have hretried : (spec.rule taken).sources = retryStates { force := spec.retry.force } := by
    simp [BulkSpec.rule, BulkRun.sources, hretry]
  rw [hretried, hforce] at hsource
  rw [JobRow.live]
  revert hsource
  cases r.state <;> decide

section Keys

variable (hretry : spec.action = .retry) (hindex : activeKeysUnique db.jobs = true)
  (hpage : Shown ops spec db rows)
include hretry hindex hpage

/-- **No other live job holds the key of a job that a retry changes.** -/
theorem Shown.free (hr : r ∈ (spec.rule taken).classify db rows) : activeKeyHeld db r = false := by
  by_contra hheld
  rw [not_eq_false] at hheld
  obtain ⟨key, hkey, s, hs, hskey, hslive, hne⟩ := activeKeyHeld_iff.mp hheld
  obtain ⟨hrows, hreason, hlive⟩ := BulkRun.mem_classify_iff.mp hr
  -- a job that is live holds its key itself
  have hended : r.live = false := by
    rw [← not_eq_true]
    intro hrlive
    exact hne (activeKeysUnique_iff.mp hindex s hs r (hpage.stored r hrows) hslive hrlive key hskey
      hkey)
  cases hforce : spec.retry.force with
  | false => grind [BulkSpec.live_of_unforced]
  | true =>
    have hterminal : r.state.isTerminal = true := by
      rwa [JobRow.live, nonTerminalStates_contains, not_eq_false'] at hended
    have hforced : (spec.rule taken).forced = true := by
      rw [BulkRun.forced, and_eq_true]
      exact ⟨decide_eq_true hretry, hforce⟩
    have hruled : (spec.rule taken).keyRuled db r = true :=
      BulkRun.keyRuled_iff.mpr ⟨⟨key, hkey⟩, hterminal, hreason⟩
    have hsub : ((rows.filter ((spec.rule taken).keyRuled db)).map JobRow.id).Nodup :=
      (nodup_ids hpage.ascending).sublist (filter_sublist.map JobRow.id)
    have hfree := (held_of_picked hsub (mem_filter.mpr ⟨hrows, hruled⟩) (hlive hforced hruled)
      hkey).1
    simp_all

/-- **No two jobs that a retry changes share a key.** -/
theorem Shown.inj (hr : r ∈ (spec.rule taken).classify db rows)
    (hs : s ∈ (spec.rule taken).classify db rows) {key : String}
    (hrkey : r.uniqueActiveKey = some key) (hskey : s.uniqueActiveKey = some key) :
    r.id = s.id := by
  by_contra hne
  obtain ⟨hrrows, hrreason, hrlive⟩ := BulkRun.mem_classify_iff.mp hr
  obtain ⟨hsrows, hsreason, hslive⟩ := BulkRun.mem_classify_iff.mp hs
  -- neither is live, or it would hold the other's key
  have hended : ∀ {a b}, a ∈ (spec.rule taken).classify db rows →
      b ∈ (spec.rule taken).classify db rows → a.uniqueActiveKey = some key →
      b.uniqueActiveKey = some key → a.id ≠ b.id → a.live = false := by
    intro a b ha hb hakey hbkey hab
    rw [← not_eq_true]
    intro halive
    have hheld := activeKeyHeld_iff.mpr ⟨key, hbkey, a, hpage.stored a (BulkRun.mem_classify ha).1,
      hakey, halive, hab⟩
    grind [Shown.free]
  have hrended := hended hr hs hrkey hskey hne
  have hsended := hended hs hr hskey hrkey (Ne.symm hne)
  have hruled : ∀ {a : JobRow}, a.uniqueActiveKey = some key → a.live = false →
      (spec.rule taken).skipReason db a = none → (spec.rule taken).keyRuled db a = true := by
    intro a hkey hnot hreason
    refine BulkRun.keyRuled_iff.mpr ⟨⟨key, hkey⟩, ?_, hreason⟩
    rwa [JobRow.live, nonTerminalStates_contains, not_eq_false'] at hnot
  have hforced : (spec.rule taken).forced = true := by
    rw [BulkRun.forced, and_eq_true]
    refine ⟨decide_eq_true hretry, ?_⟩
    change spec.retry.force = true
    grind [BulkSpec.live_of_unforced]
  have hsub : ((rows.filter ((spec.rule taken).keyRuled db)).map JobRow.id).Nodup :=
    (nodup_ids hpage.ascending).sublist (filter_sublist.map JobRow.id)
  have hrr := hruled hrkey hrended hrreason
  have hss := hruled hskey hsended hsreason
  exact hne (congrArg JobRow.id (picked_inj hsub (mem_filter.mpr ⟨hrrows, hrr⟩)
    (mem_filter.mpr ⟨hsrows, hss⟩) (hrlive hforced hrr) (hslive hforced hss) hrkey hskey))

end Keys

/-! ## The write -/

theorem Shown.locked (hpage : Shown ops spec db rows) (w : BulkWalk) :
    (w.run ops spec).locked (rows.map JobRow.id) db = rows := by
  refine Ascending.ext (ascending_rows db.jobs _) hpage.ascending fun r => ?_
  rw [BulkRun.mem_locked]
  constructor
  · rintro ⟨hr, -, -, hid⟩
    exact (contains_key_iff hpage.stored hr).mp (contains_iff_mem.mpr hid)
  · intro hr
    have hshows := hpage.shows r hr
    rw [BulkSpec.shows, and_eq_true] at hshows
    exact ⟨hpage.stored r hr, hshows.1, hshows.2, mem_map_of_mem hr⟩

/-- **The write's guard matches exactly the jobs that the batch changes.** -/
theorem Shown.guard (hpage : Shown ops spec db rows) (w : BulkWalk)
    (hindex : spec.action = .retry → activeKeysUnique db.jobs = true) (hr : r ∈ db.jobs.rows) :
    (w.run ops spec).guard db (((spec.rule w.taken).classify db rows).map JobRow.id) r =
      decide (r.id ∈ ((spec.rule w.taken).classify db rows).map JobRow.id) := by
  rw [Bool.eq_iff_iff, decide_eq_true_iff, BulkRun.guard, and_eq_true, and_eq_true,
    and_eq_true, and_eq_true, contains_iff_mem]
  refine ⟨fun h => h.1.1.2, fun hid => ?_⟩
  obtain ⟨s, hs, heq⟩ := mem_map.mp hid
  obtain ⟨hsrows, hsource⟩ := BulkRun.mem_classify hs
  obtain rfl : s = r := eq_of_key_eq (hpage.stored s hsrows) hr heq
  have hshows := hpage.shows s hsrows
  rw [BulkSpec.shows, and_eq_true] at hshows
  refine ⟨⟨⟨⟨hshows.1, hshows.2⟩, hid⟩, hsource⟩, ?_⟩
  rw [not_eq_true', and_eq_false_iff]
  cases hforced : (spec.rule w.taken).forced with
  | false => exact .inl hforced
  | true =>
    have hretry : spec.action = .retry := by
      rw [BulkRun.forced, and_eq_true, decide_eq_true_iff] at hforced
      exact hforced.1
    refine .inr (or_eq_false_iff.mpr ⟨Shown.free hretry (hindex hretry) hpage hs, ?_⟩)
    have hreason := (BulkRun.mem_classify_iff.mp hs).2.1
    simp_all [BulkRun.skipReason]

/-- A retry's write keeps one live job per key. -/
theorem Shown.index (hpage : Shown ops spec db rows) (w : BulkWalk) (hretry : spec.action = .retry)
    (hindex : activeKeysUnique db.jobs = true) (slots : List String) (now : Time) :
    activeKeysUnique (db.jobs.update ((w.run ops spec).guard db
      (((spec.rule w.taken).classify db rows).map JobRow.id))
        ((w.run ops spec).updates slots now)) = true := by
  have hchanged : ∀ r ∈ db.jobs.rows, (w.run ops spec).guard db
      (((spec.rule w.taken).classify db rows).map JobRow.id) r = true →
        r ∈ (spec.rule w.taken).classify db rows := by
    intro r hr hguard
    rw [hpage.guard w (fun _ => hindex) hr, decide_eq_true_iff] at hguard
    obtain ⟨s, hs, heq⟩ := mem_map.mp hguard
    rwa [← eq_of_key_eq (hpage.stored s (BulkRun.mem_classify hs).1) hr heq]
  have hdelete : (w.run ops spec).action ≠ .delete := by
    change spec.action ≠ .delete
    rw [hretry]
    decide
  refine activeKeysUnique_update hindex
    (fun r => ((w.run ops spec).updates_apply slots now r hdelete).2.2.1)
    (fun r hr hguard => Shown.free hretry hindex hpage (hchanged r hr hguard))
    fun r hr s hs hrguard hsguard key hrkey hskey => ?_
  exact Shown.inj hretry hindex hpage (hchanged r hr hrguard) (hchanged s hs hsguard) hrkey hskey

variable {ids : List String} {run : BulkRun} {actor : Actor}

theorem Shown.filter_changed (hpage : Shown ops spec db rows) (run : BulkRun)
    (hids : ∀ id, id ∈ ids ↔ id ∈ (run.classify db rows).map JobRow.id) :
    rows.filter (fun r => ids.contains r.id) = run.classify db rows := by
  have hsub := run.classify_sublist db rows
  refine Ascending.ext (hpage.ascending.filter _) (Pairwise.sublist hsub hpage.ascending)
    fun r => ?_
  rw [mem_filter, contains_iff_mem, hids]
  constructor
  · rintro ⟨hr, hid⟩
    exact (contains_key_iff (fun s hs => hpage.stored s (hsub.subset hs))
      (hpage.stored r hr)).mp (contains_iff_mem.mpr hid)
  · grind

/-- What a write of the batch's change does. -/
theorem Reworked.writes (h : Reworked spec.action change fired db db')
    (hfired : spec.action ≠ .cancel → fired = []) (hpage : Shown ops spec db' rows') (w : BulkWalk)
    {new : List String} (hnew : ((spec.rule w.taken).classify db' rows').map JobRow.id = new)
    (hfresh : ∀ id ∈ new, (∃ r ∈ db.jobs.rows, r.id = id) ∧ id ∉ change) (slots : List String)
    (now : Time) :
    ∃ mid moved, (w.run ops spec).write new slots now db' = .ok (mid, moved) ∧
      (∀ id, id ∈ moved ↔ id ∈ new) ∧ Reworked spec.action (change ++ new) fired db mid ∧
      ∀ q : String → Bool, (mid.jobs.rows.map JobRow.id).countP q ≤
        (db'.jobs.rows.map JobRow.id).countP q := by
  have hstored : ∀ r ∈ (spec.rule w.taken).classify db' rows', r ∈ db'.jobs.rows := fun r hr =>
    hpage.stored r (BulkRun.mem_classify hr).1
  by_cases hdelete : spec.action = .delete
  · refine ⟨deleteJobRows new db', new, if_pos hdelete, fun id => Iff.rfl, ?_, fun q => ?_⟩
    · have hnone : fired = [] := hfired (by rw [hdelete]; decide)
      rw [hdelete, hnone] at h ⊢
      exact h.delete new
    · exact Sublist.countP_le (filter_sublist.map JobRow.id)
  · have hdelete : (w.run ops spec).action ≠ .delete := hdelete
    have hwalked : Reworked (w.run ops spec).action change fired db db' := h
    have hguard : ∀ r ∈ db'.jobs.rows, (w.run ops spec).guard db' new r = decide (r.id ∈ new) :=
      fun r hr => hnew ▸ hpage.guard w h.index hr
    have hindex : spec.action = .retry → activeKeysUnique (db'.jobs.update
        ((w.run ops spec).guard db' new) ((w.run ops spec).updates slots now)) = true :=
      fun hretry => hnew ▸ hpage.index w hretry (h.index hretry) slots now
    refine ⟨{ db' with
        jobs := db'.jobs.update ((w.run ops spec).guard db' new)
          ((w.run ops spec).updates slots now) },
      idsMatching ((w.run ops spec).guard db' new) db', ?_,
      fun id => ?_, hwalked.write hdelete hguard hfresh hindex, fun q => le_of_eq ?_⟩
    · rw [BulkRun.write, if_neg hdelete]
      refine bind_eq_ok.mpr ⟨(), refuse_eq_ok.mpr ?_, rfl⟩
      rw [and_eq_false_iff]
      by_cases hretry : spec.action = .retry
      · exact .inr (by rw [hindex hretry]; rfl)
      · exact .inl (decide_eq_false hretry)
    · grind [mem_idsMatching]
    · refine congrArg (List.countP q) ?_
      change (List.map _ _).map _ = _
      rw [map_map]
      refine map_congr_left fun r _ => ?_
      dsimp only [Function.comp_apply]
      split_ifs
      · exact ((w.run ops spec).updates slots now).key_apply r
      · rfl

/-! ## The transaction -/

theorem sortedParents_eq (h : List.Forall₂ (Unchanged change db db') rows rows') :
    sortedParents JobRow.parentJobID rows' = sortedParents JobRow.parentJobID rows := by
  refine congrArg (fun l => List.insertionSort (· ≤ ·) (List.dedup l)) ?_
  induction h with
  | nil => rfl
  | cons hs _ ih => rw [filterMap_cons, filterMap_cons, ih, hs.parentJobID]

theorem map_id_eq (h : List.Forall₂ (Unchanged change db db') rows rows') :
    rows'.map JobRow.id = rows.map JobRow.id := by
  induction h with
  | nil => rfl
  | cons hs _ ih => rw [map_cons, map_cons, hs.id, ih]

/-- What a page's transaction is to the plan. -/
structure Batched (spec : BulkSpec) (db db' : Db) (change fired : List String) (new : List JobRow)
    (c : Commit (List String)) : Prop where
  out : c.out = new.map JobRow.id
  fires : (c.fires.filter FireCall.fired).map FireCall.parentID =
    spec.fires db fired (change ++ new.map JobRow.id) new
  reworked : Reworked spec.action (change ++ new.map JobRow.id)
    (fired ++ spec.fires db fired (change ++ new.map JobRow.id) new) db c.db
  grows : ∀ q : String → Bool, (c.db.jobs.rows.map JobRow.id).countP q ≤
    (db'.jobs.rows.map JobRow.id).countP q +
      (spec.fires db fired (change ++ new.map JobRow.id) new).length

theorem applyBatch_idle (hactor : resolveActor ctx = .ok actor)
    (hchange : run.change ids db = []) : applyBatch ctx run ids db = .ok { db, out := [] } := by
  rw [applyBatch, hactor]
  simp_all

theorem applyBatch_wrote {moved : List String} {mid : Db}
    (hactor : resolveActor ctx = .ok actor) (hchange : run.change ids db ≠ [])
    (hwrite : run.write (run.change ids db) ids (ctx.clock 0) db = .ok (mid, moved)) :
    applyBatch ctx run ids db = (fireEach ctx 1 (if run.action = .cancel then
        (sortedParents JobRow.parentJobID ((run.locked ids db).filter fun r =>
          moved.contains r.id)).map fun p => (p, "") else []) mid >>= fun checked =>
      recordAudit ctx actor (ctx.clock 0) (((run.locked ids db).filter fun r =>
        moved.contains r.id).map fun r =>
          { targetID := r.id, action := run.action.audited, details := run.details ids r })
            checked.1 >>=
      fun after => .ok
        { db := after
          out := ((run.locked ids db).filter fun r => moved.contains r.id).map JobRow.id
          fires := checked.2 }) := by
  rw [applyBatch, hactor]
  change (if run.change ids db = [] then _ else _) = _
  rw [if_neg hchange, hwrite]
  rfl

section Transaction

variable (h : Reworked spec.action change fired db db') (hdry : spec.dryRun = false)
  (hfired : spec.action ≠ .cancel → fired = [])
  (hcover : spec.action = .retry → spec.retry.force = true → ∀ s ∈ db.jobs.rows, s.id ∈ change →
    ∀ key, s.uniqueActiveKey = some key → key ∈ w.taken)
  (hpage : Shown ops spec db' rows') (hrows : List.Forall₂ (Unchanged change db db') rows rows')
  {new : List JobRow} (hnew : (spec.rule w.taken).classify db rows = new)
include h hfired hcover hpage hrows hnew

theorem Reworked.change_eq : (w.run ops spec).change (rows'.map JobRow.id) db' =
    new.map JobRow.id := by
  rw [BulkRun.change, hpage.locked w, ← hnew]
  exact map_id_eq (h.classify hfired hcover hrows)

/-- The batch's write. -/
theorem Reworked.batch_writes (now : Time) :
    ∃ mid moved, (w.run ops spec).write ((w.run ops spec).change (rows'.map JobRow.id) db')
        (rows'.map JobRow.id) now db' = .ok (mid, moved) ∧
      ((w.run ops spec).locked (rows'.map JobRow.id) db').filter (fun r => moved.contains r.id) =
        (spec.rule w.taken).classify db' rows' ∧
      Reworked spec.action (change ++ new.map JobRow.id) fired db mid ∧
      ∀ q : String → Bool, (mid.jobs.rows.map JobRow.id).countP q ≤
        (db'.jobs.rows.map JobRow.id).countP q := by
  have hclassify := h.classify hfired hcover hrows
  rw [hnew] at hclassify
  have hids := map_id_eq hclassify
  have hfresh : ∀ id ∈ new.map JobRow.id, (∃ r ∈ db.jobs.rows, r.id = id) ∧ id ∉ change := by
    intro id hid
    rw [← hids] at hid
    obtain ⟨r', hr', rfl⟩ := mem_map.mp hid
    obtain ⟨r, -, hsame⟩ := partner_of_mem hclassify hr'
    rw [hsame.id]
    exact ⟨⟨r, hsame.stored, rfl⟩, hsame.left⟩
  obtain ⟨mid, moved, hwrite, hmoved, hwalked, hless⟩ :=
    h.writes hfired hpage w hids hfresh (rows'.map JobRow.id) now
  rw [h.change_eq hfired hcover hpage hrows hnew, hpage.locked w]
  refine ⟨mid, moved, hwrite, ?_, hwalked, hless⟩
  exact hpage.filter_changed _ fun id => by rw [hmoved, hids]

variable {actor : Actor} (hactor : resolveActor ctx = .ok actor)
include hdry hactor

/-- **A batch's transaction follows the plan**: it commits, or the host's hook refuses its
entries. -/
theorem Reworked.batch_commits
    (hbuild : ∀ p ∈ spec.fires db fired (change ++ new.map JobRow.id) new, Buildable ctx db p) :
    (∃ c, applyBatch ctx (w.run ops spec) (rows'.map JobRow.id) db' = .ok c ∧
        Batched spec db db' change fired new c) ∨
      applyBatch ctx (w.run ops spec) (rows'.map JobRow.id) db' = .error .auditHook ∧
        ctx.auditHook ≠ none := by
  have hclassify := h.classify hfired hcover hrows
  rw [hnew] at hclassify
  have hchange := h.change_eq hfired hcover hpage hrows hnew
  obtain ⟨mid, moved, hwrite, hchanged, hwalked, hless⟩ :=
    h.batch_writes hfired hcover hpage hrows hnew (ctx.clock 0)
  have hids := map_id_eq hclassify
  have hparents := sortedParents_eq hclassify
  by_cases hnil : new = []
  · -- nothing changes, so that nothing fires
    have hnone : spec.fires db fired (change ++ new.map JobRow.id) new = [] := by
      rw [hnil]
      exact spec.fires_nil db fired _
    rw [hnil] at hchange
    refine .inl ⟨_, applyBatch_idle hactor hchange, ?_, ?_, ?_, ?_⟩
    · rw [hnil]
      rfl
    · rw [hnone]
      rfl
    · simp_all
    · exact fun q => Nat.le_add_right _ _
  · have hne : (w.run ops spec).change (rows'.map JobRow.id) db' ≠ [] := by
      simp_all
    have hfires : ∃ after calls, fireEach ctx 1 (if (w.run ops spec).action = .cancel then
          (sortedParents JobRow.parentJobID new).map fun p => (p, "") else []) mid =
            .ok (after, calls) ∧
        (calls.filter FireCall.fired).map FireCall.parentID =
          spec.fires db fired (change ++ new.map JobRow.id) new ∧
        Reworked spec.action (change ++ new.map JobRow.id)
          (fired ++ spec.fires db fired (change ++ new.map JobRow.id) new) db after ∧
        ∀ q : String → Bool, (after.jobs.rows.map JobRow.id).countP q ≤
          (mid.jobs.rows.map JobRow.id).countP q +
            (spec.fires db fired (change ++ new.map JobRow.id) new).length := by
      by_cases hcancel : spec.action = .cancel
      · rw [BulkSpec.fires_of_cancel hcancel hdry] at hbuild ⊢
        rw [if_pos (show (w.run ops spec).action = .cancel from hcancel)]
        rw [hcancel] at hwalked ⊢
        exact hwalked.round_fires (sortedParents_nodup _ new) ctx 1 hbuild
      · rw [BulkSpec.fires_of_not hcancel]
        rw [if_neg (show (w.run ops spec).action ≠ .cancel from hcancel)]
        refine ⟨mid, [], rfl, rfl, ?_, fun q => Nat.le_add_right _ _⟩
        rwa [append_nil]
    obtain ⟨after, calls, hfireEach, hcalls, hafter, hgrows⟩ := hfires
    rw [applyBatch_wrote hactor hne hwrite, hchanged, hparents, hfireEach]
    rcases recordAudit_cases ctx actor (ctx.clock 0) (((spec.rule w.taken).classify db' rows').map
        fun r => { targetID := r.id, action := (w.run ops spec).action.audited,
                   details := (w.run ops spec).details (rows'.map JobRow.id) r }) after with
      ⟨audit, haudit⟩ | ⟨haudit, hhook⟩
    · refine .inl ⟨{ db := { after with audit }, out := new.map JobRow.id, fires := calls }, ?_,
        rfl, hcalls, hafter.congr rfl rfl, fun q => ?_⟩
      · change (recordAudit ctx actor _ _ after >>= _) = _
        rw [haudit, ← hids]
        rfl
      · exact (hgrows q).trans (Nat.add_le_add_right (hless q) _)
    · refine .inr ⟨?_, hhook⟩
      change (recordAudit ctx actor _ _ after >>= _) = _
      rw [haudit]
      rfl

/-- A batch fails on a continuation that cannot be built. -/
theorem Reworked.batch_fails
    (hbuild : ∃ p ∈ spec.fires db fired (change ++ new.map JobRow.id) new, ¬Buildable ctx db p) :
    ∃ e, applyBatch ctx (w.run ops spec) (rows'.map JobRow.id) db' = .error e := by
  have hclassify := h.classify hfired hcover hrows
  rw [hnew] at hclassify
  have hchange := h.change_eq hfired hcover hpage hrows hnew
  obtain ⟨mid, moved, hwrite, hchanged, hwalked, -⟩ :=
    h.batch_writes hfired hcover hpage hrows hnew (ctx.clock 0)
  have hparents := sortedParents_eq hclassify
  have hcancel : spec.action = .cancel := by
    by_contra hcancel
    simp_all [BulkSpec.fires_of_not]
  rw [BulkSpec.fires_of_cancel hcancel hdry] at hbuild
  have hne : (w.run ops spec).change (rows'.map JobRow.id) db' ≠ [] := by
    rw [hchange]
    intro hnil
    rw [map_eq_nil_iff.mp hnil] at hbuild
    obtain ⟨p, hp, -⟩ := hbuild
    cases hp
  rw [hcancel] at hwalked
  obtain ⟨e, he⟩ := hwalked.round_fails (sortedParents_nodup _ new) ctx 1 hbuild
  refine ⟨e, ?_⟩
  rw [applyBatch_wrote hactor hne hwrite, hchanged, hparents,
    if_pos (show (w.run ops spec).action = .cancel from hcancel), he]
  rfl

end Transaction

end Flywheel
