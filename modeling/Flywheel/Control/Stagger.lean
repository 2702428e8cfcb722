import Flywheel.Control.ActiveKeys
import Flywheel.Control.DryRun

/-!
# Staggered cohorts

When a replay, a bulk retry or a bulk reschedule with a stagger makes its jobs due. Batch by batch
the job at an index of the cohort is due at `staggered` of that index (`ReplayInv.due`, `Placed`),
which is the even slot of the window unless the product of window and index is past an `int64`
(`staggerOffset_eq_iff`).
-/

namespace Flywheel

open Relational Transition Keyset List Option Table

/-! ## The slots of a window -/

/-- The slot of an index, of `n` in the window. -/
def evenSlot (window : Duration) (n i : ℕ) : Duration := window * i / n

section Slot

variable {window : Duration} {n i j : ℕ}

theorem evenSlot_nonneg (hwindow : 0 < window) : 0 ≤ evenSlot window n i :=
  Int.ediv_nonneg (mul_nonneg hwindow.le (Int.natCast_nonneg i)) (Int.natCast_nonneg n)

theorem evenSlot_lt (hwindow : 0 < window) (hi : i < n) : evenSlot window n i < window := by
  refine Int.ediv_lt_of_lt_mul (by omega) ?_
  exact mul_lt_mul_of_pos_left (by exact_mod_cast hi) hwindow

theorem evenSlot_mono (hwindow : 0 < window) (hij : i ≤ j) :
    evenSlot window n i ≤ evenSlot window n j := by
  rcases Nat.eq_zero_or_pos n with rfl | hn
  · simp [evenSlot]
  · refine Int.ediv_le_ediv (by exact_mod_cast hn) ?_
    exact mul_le_mul_of_nonneg_left (by exact_mod_cast hij) hwindow.le

/-- A wrapped dividend gives another quotient: it is less by a multiple of 2⁶⁴, which no divisor of
63 bits hides. -/
theorem tdiv_bmod_eq_iff {x m : ℤ} (hx : 0 ≤ x) (hm : 0 < m) (hword : m < 2 ^ 63) :
    (x.bmod (2 ^ 64)).tdiv m = x / m ↔ x < 2 ^ 63 := by
  constructor
  · contrapose!
    intro hlarge
    have hlost : x.bmod (2 ^ 64) + 2 ^ 64 ≤ x := by
      grind
    refine ne_of_lt ?_
    rcases le_or_gt 0 (x.bmod (2 ^ 64)) with hnonneg | hneg
    · rw [Int.tdiv_eq_ediv_of_nonneg hnonneg, ← Int.add_one_le_iff,
        ← Int.add_mul_ediv_right _ 1 hm.ne']
      exact Int.ediv_le_ediv hm (by omega)
    · have hle : 0 ≤ (-x.bmod (2 ^ 64)).tdiv m := Int.tdiv_nonneg (by omega) hm.le
      have hone : 1 ≤ x / m := (Int.le_ediv_iff_mul_le hm).mpr (by omega)
      rw [Int.neg_tdiv] at hle
      omega
  · grind

/-- **The code's slot is the even one unless its product wraps.** -/
theorem staggerOffset_eq_iff (hwindow : 0 < window) (hn : 0 < n) (hword : n < 2 ^ 63) :
    staggerOffset window n i = evenSlot window n i ↔ window * i < 2 ^ 63 :=
  tdiv_bmod_eq_iff (mul_nonneg hwindow.le (Int.natCast_nonneg i)) (by exact_mod_cast hn)
    (by exact_mod_cast hword)

end Slot

/-! ## Landing evenly -/

/-- The changed jobs of a cohort are due evenly inside a window: each at its slot, in the order of
their ids. -/
structure LandsEvenly (cohort : List JobRow) (base : Time) (window : Duration)
    (changed : Set String) (db : Db) : Prop where
  placed : ∀ id ∈ changed, ∃ (i : ℕ) (r r' : JobRow), cohort[i]? = some r ∧ r.id = id ∧
    db.jobs.get? id = some r' ∧ r'.scheduledAt = base + evenSlot window cohort.length i
  ordered : ∀ r ∈ db.jobs.rows, ∀ s ∈ db.jobs.rows, r.id ∈ changed → s.id ∈ changed → r.id ≤ s.id →
    r.scheduledAt ≤ s.scheduledAt
  inside : ∀ r ∈ db.jobs.rows, r.id ∈ changed → base ≤ r.scheduledAt ∧ r.scheduledAt < base + window

/-- No changed job's index times the window is past an `int64`. -/
def FitsWord (cohort : List JobRow) (window : Duration) (changed : Set String) : Prop :=
  ∀ (i : ℕ) (r : JobRow), cohort[i]? = some r → r.id ∈ changed → window * i < 2 ^ 63

/-- The changed jobs of a cohort are due where the code places their indices. -/
def CodePlaced (cohort : List JobRow) (base : Time) (window : Duration) (changed : Set String)
    (db : Db) : Prop :=
  ∀ id ∈ changed, ∃ (i : ℕ) (r r' : JobRow), cohort[i]? = some r ∧ r.id = id ∧
    db.jobs.get? id = some r' ∧ r'.scheduledAt = staggered base window cohort.length i

variable {e : BulkEnd} {r : JobRow} {fuel i : ℕ} {call : ℕ → Context}

variable {cohort : List JobRow} {opts : ReplayOpts} {actor : Actor} {now : Time}
  {slots : List String} {j : ℕ} {db : Db} {s : JobRow}

theorem Ascending.index_le (h : Ascending JobRow.id cohort)
    (hi : cohort[i]? = some r) (hj : cohort[j]? = some s) (hle : r.id ≤ s.id) : i ≤ j := by
  by_contra hlt
  obtain ⟨hilt, rfl⟩ := List.getElem?_eq_some_iff.mp hi
  obtain ⟨hjlt, rfl⟩ := List.getElem?_eq_some_iff.mp hj
  exact absurd (pairwise_iff_getElem.mp h j i hjlt hilt (not_le.mp hlt)) (not_lt.mpr hle)

theorem Ascending.index_eq (h : Ascending JobRow.id cohort)
    (hi : cohort[i]? = some r) (hj : cohort[j]? = some s) (heq : r.id = s.id) : i = j :=
  le_antisymm (Ascending.index_le h hi hj heq.le) (Ascending.index_le h hj hi heq.ge)

/-- **Jobs where the code places them land evenly exactly when no product wraps.** -/
theorem CodePlaced.lands_iff {base : Time} {window : Duration} {changed : Set String}
    (h : CodePlaced cohort base window changed db) (hasc : Ascending JobRow.id cohort)
    (hwindow : 0 < window) (hword : changed.Nonempty → cohort.length < 2 ^ 63) :
    LandsEvenly cohort base window changed db ↔ FitsWord cohort window changed := by
  have hlength : ∀ {i : ℕ} {r : JobRow}, cohort[i]? = some r → i < cohort.length := fun hi =>
    (List.getElem?_eq_some_iff.mp hi).1
  have hstaggered : ∀ {i : ℕ} {r : JobRow}, cohort[i]? = some r →
      staggered base window cohort.length i = base + staggerOffset window cohort.length i := by
    intro i r hi
    have hno : ¬(window ≤ 0 ∨ (cohort.length : ℤ) ≤ 0) := by
      grind
    rw [staggered, if_neg hno]
  constructor
  · intro heven i r hi hchanged
    obtain ⟨j, s, s', hj, hid, hs', hdue⟩ := h r.id hchanged
    obtain ⟨k, t, t', hk, hid', ht', heven⟩ := heven.placed r.id hchanged
    obtain rfl := Ascending.index_eq hasc hj hi hid
    obtain rfl := Ascending.index_eq hasc hk hj (hid'.trans hid.symm)
    have hlt := hlength hi
    refine (staggerOffset_eq_iff hwindow (by omega) (hword ⟨_, hchanged⟩)).mp ?_
    simp_all
  · intro hfits
    have hplaced : ∀ id ∈ changed, ∃ (i : ℕ) (r r' : JobRow), cohort[i]? = some r ∧ r.id = id ∧
        db.jobs.get? id = some r' ∧ r'.scheduledAt = base + evenSlot window cohort.length i := by
      intro id hchanged
      obtain ⟨i, r, r', hi, hid, hr', hdue⟩ := h id hchanged
      have hlt := hlength hi
      refine ⟨i, r, r', hi, hid, hr', ?_⟩
      rw [hdue, hstaggered hi, (staggerOffset_eq_iff hwindow (by omega) (hword ⟨_, hchanged⟩)).mpr
        (hfits i r hi (hid ▸ hchanged))]
    refine ⟨hplaced, fun r hr s hs hrc hsc hle => ?_, fun r hr hrc => ?_⟩
    · obtain ⟨i, a, a', hi, haid, ha', hadue⟩ := hplaced r.id hrc
      obtain ⟨j, b, b', hj, hbid, hb', hbdue⟩ := hplaced s.id hsc
      cases ha'.symm.trans (get?_key hr)
      cases hb'.symm.trans (get?_key hs)
      rw [hadue, hbdue]
      exact add_le_add_right (evenSlot_mono hwindow
        (Ascending.index_le hasc hi hj (haid.le.trans (hle.trans hbid.ge)))) base
    · obtain ⟨i, a, a', hi, -, ha', hadue⟩ := hplaced r.id hrc
      cases ha'.symm.trans (get?_key hr)
      rw [hadue]
      exact ⟨le_add_of_nonneg_right (evenSlot_nonneg hwindow),
        add_lt_add_right (evenSlot_lt hwindow (hlength hi)) base⟩

/-! ## A replay -/

/-- The jobs that a call left otherwise than they were. -/
def Db.changedTo (db db' : Db) : Set String := {id | db'.jobs.get? id ≠ db.jobs.get? id}

/-- **A replay places its jobs**, wherever it ends. -/
theorem replay_places {entryDead : Bool} {dead : ℕ → Bool} {requested : ℤ} {e : ReplayEnd}
    (hcall : OneActor call) (hnamed : db.Named)
    (hindex : activeKeysUnique db.jobs = true) (hstagger : 0 < opts.stagger)
    (h : replay call entryDead dead opts requested fuel db = some e) :
    CodePlaced (opts.targets db) ((call 0).clock 0 + opts.retry.delay) opts.stagger
      (db.changedTo e.db) e.db := by
  have hsame : e.db = db → CodePlaced (opts.targets db) ((call 0).clock 0 + opts.retry.delay)
      opts.stagger (db.changedTo e.db) e.db := fun hdb id hid => absurd (by rw [hdb]) hid
  rw [replay] at h
  cases hrefuse : (do opts.refuse; resolveActor (call 0)) with
  | error err => grind
  | ok actor =>
    rw [hrefuse] at h
    obtain ⟨_, hok, hactor⟩ := bind_eq_ok.mp hrefuse
    cases entryDead with
    | true => grind
    | false =>
      obtain ⟨done, ⟨rest, hrest⟩, hinv⟩ := ReplayInv.reaches hok (hcall.resolves hactor) hnamed
        (replayBatchSize_pos requested) (ReplayInv.start_inv hnamed hindex) h
      intro id hid
      cases hold : db.jobs.get? id with
      | none => exact absurd ((hinv.absent id hold).trans hold.symm) hid
      | some r =>
        by_cases hpick : id ∈ liveCandidates (activeKeyHeld db) [] done
        · obtain ⟨s, hs, rfl⟩ := mem_done_of_picked hpick
          obtain ⟨i, hi⟩ := getElem?_of_mem hs
          obtain ⟨r', hr', hdue⟩ := hinv.due i s hi hpick
          have hlt : i < done.length := (List.getElem?_eq_some_iff.mp hi).1
          refine ⟨i, s, r', ?_, rfl, hr', ?_⟩
          · rw [← hrest, getElem?_append_left hlt, hi]
          · have htotal : opts.countTargets db = (opts.targets db).length := by
              simp_all [ReplayOpts.countTargets, ReplayOpts.targets, countP_eq_length_filter]
            rw [hdue, ReplayOpts.dueAt, htotal]
        · exact absurd ((hinv.kept id r hold hpick).trans hold.symm) hid

theorem replayLoop_cancelled {size : ℕ} {s : ReplayRun} {e : ReplayEnd}
    (h : replayLoop call (fun _ => false) opts size fuel i s = some e) (dead : ℕ → Bool) :
    ∃ e', replayLoop call dead opts size fuel i s = some e' := by
  induction fuel generalizing i s with
  | zero => cases h
  | succ fuel ih =>
    rw [replayLoop] at h ⊢
    cases hdead : dead i with
    | true => exact ⟨_, by rw [replayRound, if_pos rfl]⟩
    | false => grind

/-- **A replay ends**, cancelled or not. -/
theorem replay_halts (call : ℕ → Context) (entryDead : Bool) (dead : ℕ → Bool) (opts : ReplayOpts)
    (requested : ℤ) (hcall : OneActor call) (hnamed : db.Named)
    (hindex : activeKeysUnique db.jobs = true) :
    ∃ e, ∀ fuel, db.jobs.rows.length < fuel →
      replay call entryDead dead opts requested fuel db = some e := by
  cases hrefuse : (do opts.refuse; resolveActor (call 0)) with
  | error err => exact ⟨_, fun fuel _ => by rw [replay, hrefuse]⟩
  | ok actor =>
    cases entryDead with
    | true => exact ⟨_, fun fuel _ => by rw [replay, hrefuse]; rfl⟩
    | false =>
      obtain ⟨_, hok, hactor⟩ := bind_eq_ok.mp hrefuse
      obtain ⟨e, hends, -⟩ := replay_ends call requested hcall hactor hok hnamed hindex
      have hloop := hends (db.jobs.rows.length + 1) (Nat.lt_succ_self _)
      rw [replay, hrefuse] at hloop
      obtain ⟨e', hloop'⟩ := replayLoop_cancelled hloop dead
      refine ⟨e', fun fuel hfuel => ?_⟩
      grind [replay, replayLoop_mono]

/-! ## A batch of a bulk action -/

/-- The actions that place their jobs in a window. -/
def BulkSpec.Places (spec : BulkSpec) : Prop := spec.action = .retry ∨ spec.action = .reschedule

theorem BulkSpec.Places.ne {spec : BulkSpec} (h : spec.Places) :
    spec.action ≠ .cancel ∧ spec.action ≠ .delete := by
  rcases h with h | h <;> rw [h] <;> decide

/-- A bulk action's entry for a job. -/
structure EntryOf (run : BulkRun) (slots : List String) (r : JobRow) (a : AuditRow) : Prop where
  target : a.target = .job
  targetID : a.targetID = r.id
  action : a.action = run.action.audited
  details : a.details = run.details slots r

variable {ctx : Context} {ops : Operators} {spec : BulkSpec} {db db' : Db} {start w : BulkWalk}
  {pages : List (List JobRow)} {rows : List JobRow}

theorem entries_of_changes (ctx : Context) (actor : Actor) (now : Time) (run : BulkRun)
    (slots : List String) (k : ℕ) (changed : List JobRow) :
    List.Forall₂ (EntryOf run slots) changed (auditRows ctx actor now k (changed.map fun r =>
      { targetID := r.id, action := run.action.audited, details := run.details slots r })) := by
  induction changed generalizing k with
  | nil => exact List.Forall₂.nil
  | cons r changed ih => exact List.Forall₂.cons ⟨rfl, rfl, rfl, rfl⟩ (ih (k + 1))

theorem recordAudit_eq {changes : List AuditChange}
    (h : recordAudit ctx actor now changes db = .ok db') :
    db' = { db with audit := db.audit ++ auditRows ctx actor now 0 changes } := by
  rw [recordAudit] at h
  dsimp only at h
  split_ifs at h with hnil
  · simp_all [auditRows]
  · exact (Except.ok.inj h).symm

variable {c : Commit (List String)}

/-- **What a retry's or a reschedule's batch writes**: the update of the jobs that it changes, and
an entry for each. -/
theorem Shown.applied (hpage : Shown ops spec db rows) (w : BulkWalk) (hplaces : spec.Places)
    (hindex : spec.action = .retry → activeKeysUnique db.jobs = true)
    (h : applyBatch ctx (w.run ops spec) (rows.map JobRow.id) db = .ok c) :
    (∀ id, c.db.jobs.get? id = (db.jobs.get? id).map fun r =>
      if r.id ∈ ((spec.rule w.taken).classify db rows).map JobRow.id then
        ((w.run ops spec).updates (rows.map JobRow.id) (ctx.clock 0)).apply r else r) ∧
    ∃ entries, c.db.audit = db.audit ++ entries ∧
      List.Forall₂ (EntryOf (w.run ops spec) (rows.map JobRow.id))
        ((spec.rule w.taken).classify db rows) entries := by
  have hcancel : (w.run ops spec).action ≠ .cancel := hplaces.ne.1
  have hdelete : (w.run ops spec).action ≠ .delete := hplaces.ne.2
  have hchange : (w.run ops spec).change (rows.map JobRow.id) db =
      ((spec.rule w.taken).classify db rows).map JobRow.id := by
    rw [BulkRun.change, hpage.locked w]
    rfl
  obtain ⟨actor, hactor, -⟩ := bind_eq_ok.mp h
  by_cases hnil : (w.run ops spec).change (rows.map JobRow.id) db = []
  · cases (applyBatch_idle hactor hnil).symm.trans h
    simp_all
  · cases hwrite : (w.run ops spec).write ((w.run ops spec).change (rows.map JobRow.id) db)
        (rows.map JobRow.id) (ctx.clock 0) db with
    | error e =>
      rw [applyBatch, hactor] at h
      change (if (w.run ops spec).change (rows.map JobRow.id) db = [] then _ else _) = _ at h
      rw [if_neg hnil, hwrite] at h
      cases h
    | ok wrote =>
      obtain ⟨mid, moved⟩ := wrote
      rw [applyBatch_wrote hactor hnil hwrite, if_neg hcancel] at h
      obtain ⟨checked, hfires, h⟩ := bind_eq_ok.mp h
      obtain ⟨after, haudit, h⟩ := bind_eq_ok.mp h
      cases h
      cases hfires
      rw [BulkRun.write, if_neg hdelete] at hwrite
      obtain ⟨_, -, hwrite⟩ := bind_eq_ok.mp hwrite
      cases hwrite
      have hguard : ∀ r ∈ db.jobs.rows, (w.run ops spec).guard db
          ((w.run ops spec).change (rows.map JobRow.id) db) r =
            decide (r.id ∈ ((spec.rule w.taken).classify db rows).map JobRow.id) := fun r hr => by
        rw [hchange]
        exact hpage.guard w hindex hr
      have hmoved : ((w.run ops spec).locked (rows.map JobRow.id) db).filter (fun r =>
          (idsMatching ((w.run ops spec).guard db
            ((w.run ops spec).change (rows.map JobRow.id) db)) db).contains r.id) =
          (spec.rule w.taken).classify db rows := by
        rw [hpage.locked w]
        refine hpage.filter_changed _ fun id => ?_
        rw [mem_idsMatching]
        constructor
        · grind
        · intro hid
          obtain ⟨r, hr, rfl⟩ := List.mem_map.mp hid
          have hstored := hpage.stored r (((spec.rule w.taken).classify_sublist db rows).subset hr)
          exact ⟨r, hstored, (hguard r hstored).trans (decide_eq_true hid), rfl⟩
      have hafter := recordAudit_eq haudit
      rw [hmoved] at hafter
      refine ⟨fun id => ?_, _, congrArg Db.audit hafter, entries_of_changes _ _ _ _ _ _ _⟩
      rw [hafter]
      rw [get?_update]
      cases hget : db.jobs.get? id with
      | none => rfl
      | some r =>
        rw [map_some, map_some, hguard r (mem_of_get? hget)]
        simp

/-! ## The batches of a bulk action -/

/-- Where a bulk action's walk has placed the jobs that it changed, and what its entries say. -/
structure Placed (ops : Operators) (spec : BulkSpec) (db : Db) (start : BulkWalk)
    (pages : List (List JobRow)) (db' : Db) (w : BulkWalk) : Prop where
  now : w.now = start.now
  due : ∀ (k : ℕ) r, (spec.plan db start pages).seen[k]? = some r →
    r ∈ (spec.plan db start pages).change → ∃ r', db'.jobs.get? r.id = some r' ∧
      r'.scheduledAt = (start.run ops spec).dueAt (start.passed + k : ℕ)
  audit : ∃ entries, db'.audit = db.audit ++ entries ∧
    List.Forall₂ (fun id (a : AuditRow) => a.target = .job ∧ a.targetID = id ∧
      a.action = spec.action.audited ∧ (spec.action = .reschedule → ∃ (k : ℕ) (r : JobRow),
        (spec.plan db start pages).seen[k]? = some r ∧ r.id = id ∧
          ("to", Json.time ((start.run ops spec).dueAt (start.passed + k : ℕ))) ∈ a.details))
      ((spec.plan db start pages).change.map JobRow.id) entries

theorem Placed.refl (ops : Operators) (spec : BulkSpec) (db : Db) (start : BulkWalk) :
    Placed ops spec db start [] db start :=
  ⟨rfl, fun _ _ _ h => absurd h not_mem_nil, [], (append_nil _).symm, List.Forall₂.nil⟩

theorem WalkInv.seen_ascending (h : WalkInv ops spec db start pages db' w) :
    Ascending JobRow.id (spec.plan db start pages).seen :=
  Pairwise.sublist (Plan.sound_walk spec db start pages).seen h.ascending

/-- A page without rows leaves the plan's jobs as they are. -/
theorem Placed.skip (hplaced : Placed ops spec db start pages db' w)
    (h : WalkInv ops spec db start pages db' w) (hrows : (w.nextPage ops spec db').rows = []) :
    Placed ops spec db start (pages ++ [w.nextSegment ops spec db db']) db'
      (w.past w (w.nextPage ops spec db')) := by
  have hshown := h.page_rows h.follows
  rw [hrows] at hshown
  have hnil : (w.nextSegment ops spec db db').filter (fun r =>
      !(spec.plan db start pages).hides r) = [] := forall₂_nil_right_iff.mp hshown
  have hseen : (spec.plan db start (pages ++ [w.nextSegment ops spec db db'])).seen =
      (spec.plan db start pages).seen := by
    rw [spec.plan_snoc]
    change _ ++ (w.nextSegment ops spec db db').filter _ = _
    rw [hnil, append_nil]
  have hchange : (spec.plan db start (pages ++ [w.nextSegment ops spec db db'])).change =
      (spec.plan db start pages).change := by
    rw [spec.plan_snoc]
    change _ ++ (spec.plan db start pages).changes spec db _ = _
    rw [Plan.changes, hnil]
    exact append_nil _
  refine ⟨hplaced.now, ?_, ?_⟩
  · rw [hseen, hchange]
    exact hplaced.due
  · rw [hseen, hchange]
    exact hplaced.audit

theorem applyBatch_of_rerun {run : BulkRun} {ids : List String} {races : ℕ}
    (h : applyRerun ctx run ids db races = .ok c) : applyBatch ctx run ids db = .ok c := by
  cases hbatch : applyBatch ctx run ids db with
  | ok c' => exact (applyRerun_ok hbatch races).symm.trans h
  | error e => cases (applyRerun_error hbatch races).symm.trans h

theorem BulkRun.updates_scheduledAt (run : BulkRun)
    (hplaces : run.action = .retry ∨ run.action = .reschedule)
    (hr : r.id ∈ slots) (now : Time) :
    ((run.updates slots now).apply r).scheduledAt = run.dueAt
      (run.passed + (slots.idxOf r.id : ℕ)) := by
  rw [BulkRun.dueAt, ← scheduledAtValue_eq hr]
  rcases hplaces with haction | haction
  · rw [BulkRun.updates, haction]
    rfl
  · rw [BulkRun.updates, haction]
    rfl

theorem BulkRun.to_mem_details (run : BulkRun) (haction : run.action = .reschedule)
    (hr : r.id ∈ slots) :
    ("to", Json.time (run.dueAt (run.passed + (slots.idxOf r.id : ℕ)))) ∈ run.details slots r := by
  rw [BulkRun.details, haction, slotOf, if_pos hr]
  simp

theorem Placed.dueAt_eq (hplaced : Placed ops spec db start pages db' w)
    (h : WalkInv ops spec db start pages db' w) (index : ℤ) :
    (w.run ops spec).dueAt index = (start.run ops spec).dueAt index := by
  change staggered (if spec.action = .reschedule then spec.rescheduleAt else w.now +
    spec.retry.delay) spec.stagger w.result.matched index = _
  rw [hplaced.now, h.matched]
  rfl

theorem WalkInv.index_of_slot (h : WalkInv ops spec db start pages db' w)
    (hj : ((w.nextSegment ops spec db db').filter fun r =>
      !(spec.plan db start pages).hides r)[j]? = some r) :
    ((w.nextPage ops spec db').rows.map JobRow.id).idxOf r.id = j ∧
      (spec.plan db start (pages ++ [w.nextSegment ops spec db db'])).seen[
        (spec.plan db start pages).seen.length + j]? = some r := by
  constructor
  · refine idxOf_of_getElem? (nodup_ids h.follows.shown.ascending) ?_
    rw [map_id_eq (h.page_rows h.follows), getElem?_map]
    change (((w.nextSegment ops spec db db').filter fun r => _)[j]?).map _ = _
    rw [hj]
    rfl
  · rw [spec.plan_snoc]
    change (_ ++ (w.nextSegment ops spec db db').filter _)[_]? = _
    rw [getElem?_append_right (Nat.le_add_right _ _), Nat.add_sub_cancel_left, hj]

section Step

variable (hplaced : Placed ops spec db start pages db' w)
  (h : WalkInv ops spec db start pages db' w)
  {c : Commit (List String)}
  (hnew : ((spec.rule w.taken).classify db' (w.nextPage ops spec db').rows).map JobRow.id =
    ((spec.plan db start pages).changes spec db (w.nextSegment ops spec db db')).map JobRow.id)
include hplaced h

section Batch

include hnew

/-- The jobs that a batch changes are due at their indices, and those of the earlier batches
stay. -/
theorem Placed.due_next (hplaces : spec.Places)
    (hseen : ((spec.plan db start (pages ++ [w.nextSegment ops spec db db'])).seen.map
      JobRow.id).Nodup)
    (hget : ∀ id, c.db.jobs.get? id = (db'.jobs.get? id).map fun r =>
      if r.id ∈ ((spec.rule w.taken).classify db' (w.nextPage ops spec db').rows).map JobRow.id then
        ((w.run ops spec).updates ((w.nextPage ops spec db').rows.map JobRow.id)
          (ctx.clock 0)).apply r
      else r) {k : ℕ}
    (hk : (spec.plan db start (pages ++ [w.nextSegment ops spec db db'])).seen[k]? = some r)
    (hr : r ∈ (spec.plan db start (pages ++ [w.nextSegment ops spec db db'])).change) :
    ∃ r', c.db.jobs.get? r.id = some r' ∧
      r'.scheduledAt = (start.run ops spec).dueAt (start.passed + k : ℕ) := by
  have hsound := Plan.sound_walk spec db start pages
  have hsub : ∀ s ∈ (spec.plan db start pages).changes spec db (w.nextSegment ops spec db db'),
      s ∈ (w.nextSegment ops spec db db').filter fun r => !(spec.plan db start pages).hides r :=
    fun s hs => ((spec.rule (spec.plan db start pages).taken).classify_sublist db _).subset hs
  rw [spec.plan_snoc] at hseen hk hr
  change ((_ ++ (w.nextSegment ops spec db db').filter _).map JobRow.id).Nodup at hseen
  change (_ ++ (w.nextSegment ops spec db db').filter _)[k]? = some r at hk
  rw [map_append] at hseen
  have hdisjoint := disjoint_of_nodup_append hseen
  rcases lt_or_ge k (spec.plan db start pages).seen.length with hlt | hge
  · rw [getElem?_append_left hlt] at hk
    have hleft : r.id ∉ ((spec.plan db start pages).changes spec db
        (w.nextSegment ops spec db db')).map JobRow.id := fun hin => by
      grind [List.mem_map_of_mem]
    rcases mem_append.mp hr with hold | hin
    · obtain ⟨r', hr', hdue⟩ := hplaced.due k r hk hold
      refine ⟨r', ?_, hdue⟩
      rw [hget, hr', map_some, key_of_get? hr', if_neg (hnew ▸ hleft)]
    · exact absurd (List.mem_map_of_mem hin) hleft
  · rw [getElem?_append_right hge] at hk
    have hin : r ∈ (spec.plan db start pages).changes spec db (w.nextSegment ops spec db db') := by
      refine (mem_append.mp hr).resolve_left fun hold => ?_
      exact hdisjoint (List.mem_map_of_mem (hsound.change.subset hold))
        (List.mem_map_of_mem (mem_of_getElem? hk))
    have hslot := (h.index_of_slot hk).1
    have hslots : r.id ∈ (w.nextPage ops spec db').rows.map JobRow.id := by
      rw [map_id_eq (h.page_rows h.follows)]
      exact List.mem_map_of_mem (mem_of_getElem? hk)
    obtain ⟨r', hr', hid⟩ := List.mem_map.mp hslots
    have hold : db'.jobs.get? r.id = some r' := hid ▸ get?_key (h.follows.shown.stored r' hr')
    have hwrites : r'.id ∈ ((spec.rule w.taken).classify db' (w.nextPage ops spec db').rows).map
        JobRow.id := by
      grind
    refine ⟨_, by rw [hget, hold, map_some, if_pos hwrites], ?_⟩
    rw [(w.run ops spec).updates_scheduledAt hplaces (hid ▸ hslots), hplaced.dueAt_eq h, hid, hslot]
    congr 1
    change (w.passed : ℤ) + _ = _
    rw [h.passed]
    omega

/-- The entries of a batch record when its jobs are due. -/
theorem Placed.audit_next {entries : List AuditRow} (haudit : c.db.audit = db'.audit ++ entries)
    (hentries : List.Forall₂
      (EntryOf (w.run ops spec) ((w.nextPage ops spec db').rows.map JobRow.id))
      ((spec.rule w.taken).classify db' (w.nextPage ops spec db').rows) entries) :
    ∃ entries, c.db.audit = db.audit ++ entries ∧
      List.Forall₂ (fun id (a : AuditRow) => a.target = .job ∧ a.targetID = id ∧
        a.action = spec.action.audited ∧ (spec.action = .reschedule → ∃ (k : ℕ) (r : JobRow),
          (spec.plan db start (pages ++ [w.nextSegment ops spec db db'])).seen[k]? = some r ∧
            r.id = id ∧
            ("to", Json.time ((start.run ops spec).dueAt (start.passed + k : ℕ))) ∈ a.details))
        ((spec.plan db start (pages ++ [w.nextSegment ops spec db db'])).change.map JobRow.id)
        entries := by
  obtain ⟨old, hold, hentriesOld⟩ := hplaced.audit
  refine ⟨old ++ entries, by rw [haudit, hold, append_assoc], ?_⟩
  have hchange : (spec.plan db start (pages ++ [w.nextSegment ops spec db db'])).change.map
    JobRow.id =
      (spec.plan db start pages).change.map JobRow.id ++
        ((spec.rule w.taken).classify db' (w.nextPage ops spec db').rows).map JobRow.id := by
    rw [hnew, spec.plan_snoc, ← map_append]
    rfl
  rw [hchange]
  refine rel_append (hentriesOld.imp fun id a ha => ?_) (forall₂_map_left_iff.mpr ?_)
  · obtain ⟨htarget, hid, haction, hto⟩ := ha
    refine ⟨htarget, hid, haction, fun hreschedule => ?_⟩
    obtain ⟨k, r, hk, hrid, hto⟩ := hto hreschedule
    refine ⟨k, r, ?_, hrid, hto⟩
    rw [spec.plan_snoc]
    change (_ ++ (w.nextSegment ops spec db db').filter _)[k]? = _
    rw [getElem?_append_left (List.getElem?_eq_some_iff.mp hk).1, hk]
  · have hin : ∀ r ∈ (spec.rule w.taken).classify db' (w.nextPage ops spec db').rows,
        r ∈ (w.nextPage ops spec db').rows := fun r hr =>
      ((spec.rule w.taken).classify_sublist db' _).subset hr
    refine ((forall₂_and_left _ _).mpr ⟨hin, hentries⟩).imp fun r a ha => ?_
    obtain ⟨hr, hentry⟩ := ha
    refine ⟨hentry.target, hentry.targetID, hentry.action, fun hreschedule => ?_⟩
    have hslots : r.id ∈ (w.nextPage ops spec db').rows.map JobRow.id := List.mem_map_of_mem hr
    obtain ⟨j, hj⟩ := getElem?_of_mem (map_id_eq (h.page_rows h.follows) ▸ hslots)
    obtain ⟨s, hs, hid⟩ := map_eq_some_iff.mp ((getElem?_map ..).symm.trans hj)
    obtain ⟨hslot, hseen⟩ := h.index_of_slot hs
    refine ⟨_, s, hseen, hid, ?_⟩
    have hto := (w.run ops spec).to_mem_details hreschedule hslots
    have hindex : (w.run ops spec).passed + (j : ℤ) =
        ((start.passed + ((spec.plan db start pages).seen.length + j) : ℕ) : ℤ) := by
      change (w.passed : ℤ) + _ = _
      rw [h.passed]
      omega
    rw [← hid, hslot, hplaced.dueAt_eq h, hindex] at hto
    rw [hentry.details]
    exact hto

end Batch

/-- **A page keeps the placing.** -/
theorem Placed.step (hplaces : spec.Places) (hdry : spec.dryRun = false)
    (hactor : resolveActor ctx = .ok actor) {out : Db × BulkWalk}
    (hout : w.handle ctx ops spec db' = .ok out) :
    Placed ops spec db start (pages ++ [w.nextSegment ops spec db db']) out.1
      (w.past out.2 (w.nextPage ops spec db')) := by
  have hseen := nodup_ids (h.handled hactor hout).seen_ascending
  rw [BulkWalk.handle, hdry, if_neg Bool.false_ne_true] at hout
  by_cases hrows : (w.nextPage ops spec db').rows = []
  · rw [if_pos hrows] at hout
    cases hout
    exact hplaced.skip h hrows
  · rw [if_neg hrows] at hout
    obtain ⟨c, hc, hout⟩ := bind_eq_ok.mp hout
    cases hout
    have hnew := map_id_eq (h.reworked.classify BulkSpec.plan_idle h.cover (h.page_rows h.follows))
    rw [← BulkWalk.nextSegment, h.changes_eq] at hnew
    obtain ⟨hget, entries, haudit, hentries⟩ := h.follows.shown.applied w hplaces
      h.reworked.index (applyBatch_of_rerun hc)
    exact ⟨hplaced.now, fun k r hk hr => hplaced.due_next h hnew hplaces hseen hget hk hr,
      hplaced.audit_next h hnew haudit hentries⟩

end Step

/-! ## A whole bulk action -/

/-- When the jobs of a retry or a reschedule are due before the stagger. -/
def BulkSpec.base (spec : BulkSpec) (now : Time) : Time :=
  if spec.action = .reschedule then spec.rescheduleAt else now + spec.retry.delay

/-- A call's entries, one for each job that it changed, record when that job is due. -/
def RecordsDue (db db' : Db) (changed : List String) : Prop :=
  ∃ entries, db'.audit = db.audit ++ entries ∧
    List.Forall₂ (fun id (a : AuditRow) => a.target = .job ∧ a.targetID = id ∧
      a.action = .rescheduled ∧ ∃ r, db'.jobs.get? id = some r ∧
        ("to", Json.time r.scheduledAt) ∈ a.details) changed entries

/-- Where a call that ended has placed the jobs of its selection, and what its entries say. -/
structure Lands (ops : Operators) (spec : BulkSpec) (db : Db) (now : Time) (e : BulkEnd) :
    Prop where
  placed : CodePlaced (spec.selection ops db) (spec.base now) spec.stagger
    {id | id ∈ e.walk.changedIDs} e.db
  recorded : spec.action = .reschedule → RecordsDue db e.db e.walk.changedIDs
  bounded : e.walk.changedIDs ≠ [] → (spec.selection ops db).length ≤ maxBulkJobs

theorem walkLoop_cancelled (h : walkLoop call (fun _ => false) ops spec fuel i db w = some e)
    (dead : ℕ → Bool) : ∃ e', walkLoop call dead ops spec fuel i db w = some e' := by
  induction fuel generalizing i db w with
  | zero => cases h
  | succ fuel ih =>
    rw [walkLoop] at h ⊢
    cases hdead : dead i with
    | true => exact ⟨_, by rw [walkRound, if_pos rfl]⟩
    | false => grind

theorem BulkSpec.count_le_limit (h : (spec.start ops now db).result.matchedCapped = false) :
    db.jobs.rows.countP (spec.shows ops db) ≤ spec.limit := by
  have hle := not_lt.mp (of_decide_eq_false h)
  rw [BulkSpec.countSelection] at hle
  omega

theorem BulkSpec.limit_le_of_refuse {dialect : Dialect}
    (hrefuse : spec.refuse ctx dialect = .ok ()) : spec.limit ≤ maxBulkJobs := by
  obtain ⟨_, -, hrefuse⟩ := bind_eq_ok.mp hrefuse
  obtain ⟨_, hmost, -⟩ := bind_eq_ok.mp hrefuse
  have hle : ¬((maxBulkJobs : ℤ) < spec.maxJobs) := fun hlt => by
    rw [decide_eq_true hlt, Bool.or_true] at hmost
    cases hmost
  rw [BulkSpec.limit]
  split_ifs
  · decide
  · omega

section Whole

variable {call : ℕ → Context} {entryDead : Bool} {dead : ℕ → Bool} {dialect : Dialect}
  (hplaces : spec.Places) (hdry : spec.dryRun = false) (hcall : OneActor call) (hnamed : db.Named)
  (hindex : spec.action = .retry → activeKeysUnique db.jobs = true)
include hplaces hdry hcall hnamed hindex

/-- **A retry or a reschedule ends**, cancelled or not. -/
theorem bulkJobs_halts (entryDead : Bool) (dead : ℕ → Bool) (dialect : Dialect) :
    ∃ e, ∀ fuel, spec.rounds db < fuel →
      bulkJobs call entryDead dead ops dialect spec fuel db = some e := by
  cases hrefuse : spec.refuse (call 0) dialect with
  | error err => exact ⟨_, fun fuel _ => by rw [bulkJobs, hrefuse]⟩
  | ok =>
    cases entryDead with
    | true => exact ⟨_, fun fuel _ => by rw [bulkJobs, hrefuse]; rfl⟩
    | false =>
      cases hcapped : (spec.start ops ((call 0).clock 0) db).result.matchedCapped with
      | true =>
        refine ⟨(spec.start ops ((call 0).clock 0) db).stop db .tooLarge, fun fuel _ => ?_⟩
        rw [bulkJobs, hrefuse]
        simp_all
      | false =>
        have hwalk : ∀ (dead : ℕ → Bool) fuel, bulkJobs call false dead ops dialect spec fuel db =
              walkLoop call dead ops spec fuel 0 db (spec.start ops ((call 0).clock 0) db) := by
          simp_all [bulkJobs]
        obtain ⟨e, hends, -⟩ := bulkJobs_ends hrefuse hcall (absurd · hplaces.ne.1) hnamed hindex
          (BulkSpec.count_le_limit hcapped)
        have hloop := hends _ (Nat.lt_succ_self _)
        rw [hwalk] at hloop
        obtain ⟨e', hloop'⟩ := walkLoop_cancelled hloop dead
        exact ⟨e', fun fuel hfuel => (hwalk dead fuel).trans (walkLoop_mono hloop' hfuel)⟩

/-- A walk from the start of a call places its jobs. -/
theorem walk_places (hrefuse : spec.refuse (call 0) dialect = .ok ())
    (hcapped : (spec.start ops ((call 0).clock 0) db).result.matchedCapped = false)
    (h : walkLoop call dead ops spec fuel 0 db (spec.start ops ((call 0).clock 0) db) = some e) :
    Lands ops spec db ((call 0).clock 0) e := by
  have hactor := hcall.resolves_of_refuse hrefuse
  have hlength : (spec.selection ops db).length = db.jobs.rows.countP (spec.shows ops db) :=
    length_sortedJobs _ db
  have hfits := BulkSpec.count_le_limit hcapped
  obtain ⟨pages, w', hinv, hplaced, hwalk, -⟩ := WalkInv.reaches
    (J := Placed ops spec db (spec.start ops ((call 0).clock 0) db)) hactor
    (fun {_ _ _ i _} hinv hplaced hout => by
      obtain ⟨actor, hactor⟩ := hactor i
      exact hplaced.step hinv hplaces hdry hactor hout)
    (WalkInv.refl ops spec db _ hindex hnamed) (Placed.refl ops spec db _) h
  have hchanged : e.walk.changedIDs =
      (spec.plan db (spec.start ops ((call 0).clock 0) db) pages).change.map JobRow.id := by
    rw [hwalk]
    exact hinv.changedIDs
  -- nothing is left out, so that an index of the walk is one of the selection
  have hselected : ∀ {k : ℕ} {r : JobRow},
      (spec.plan db (spec.start ops ((call 0).clock 0) db) pages).seen[k]? = some r →
        (spec.selection ops db)[k]? = some r := by
    intro k r hk
    have hsplit := hinv.split
    change _ = spec.rest ops db spec.after 0 at hsplit
    rw [BulkSpec.rest_start hnamed] at hsplit
    rw [(hinv.whole hplaces.ne.1 rfl).seen] at hk
    rw [← hsplit, getElem?_append_left (List.getElem?_eq_some_iff.mp hk).1, hk]
  have hdue : ∀ k : ℕ, ((spec.start ops ((call 0).clock 0) db).run ops spec).dueAt
      ((spec.start ops ((call 0).clock 0) db).passed + k : ℕ) =
        staggered (spec.base ((call 0).clock 0)) spec.stagger (spec.selection ops db).length k := by
    intro k
    have hmatched : min (spec.countSelection ops db) spec.limit =
      (spec.selection ops db).length := by
      rw [BulkSpec.countSelection, hlength]
      omega
    change staggered _ _ (min (spec.countSelection ops db) spec.limit : ℕ) (0 + k : ℕ) = _
    rw [hmatched, Nat.zero_add]
    rfl
  refine ⟨fun id hid => ?_, fun hreschedule => ?_, fun _ => ?_⟩
  · obtain ⟨r, hr, rfl⟩ := List.mem_map.mp (hchanged ▸ hid)
    obtain ⟨k, hk⟩ := getElem?_of_mem ((Plan.sound_walk spec db _ pages).change.subset hr)
    obtain ⟨r', hr', hat⟩ := hplaced.due k r hk hr
    exact ⟨k, r, r', hselected hk, rfl, hr', hat.trans (hdue k)⟩
  · obtain ⟨entries, haudit, hentries⟩ := hplaced.audit
    refine ⟨entries, haudit, hchanged ▸ ?_⟩
    have hmem : ∀ id ∈ (spec.plan db (spec.start ops ((call 0).clock 0) db) pages).change.map
      JobRow.id,
        id ∈ (spec.plan db (spec.start ops ((call 0).clock 0) db) pages).change.map JobRow.id :=
      fun _ hid => hid
    refine ((forall₂_and_left _ _).mpr ⟨hmem, hentries⟩).imp fun id a ha => ?_
    obtain ⟨hid, htarget, htargetID, haction, hto⟩ := ha
    obtain ⟨k, r, hk, rfl, hto⟩ := hto hreschedule
    obtain ⟨s, hs, heq⟩ := List.mem_map.mp hid
    obtain ⟨j, hj⟩ := getElem?_of_mem ((Plan.sound_walk spec db _ pages).change.subset hs)
    obtain rfl := Ascending.index_eq hinv.seen_ascending hj hk heq
    obtain rfl := some_inj.mp (hj.symm.trans hk)
    obtain ⟨r', hr', hat⟩ := hplaced.due j s hj hs
    refine ⟨htarget, htargetID, ?_, r', hr', ?_⟩
    · rw [haction, hreschedule]
      rfl
    · rwa [hat]
  · grind [BulkSpec.limit_le_of_refuse]

/-- **A retry or a reschedule places its jobs**, wherever it ends, and a reschedule's entries say
where. -/
theorem bulkJobs_places (h : bulkJobs call entryDead dead ops dialect spec fuel db = some e) :
    Lands ops spec db ((call 0).clock 0) e := by
  have hidle : e.db = db → e.walk.changedIDs = [] → Lands ops spec db ((call 0).clock 0) e := by
    intro hdb hnone
    refine ⟨?_, fun _ => ?_, fun hne => absurd hnone hne⟩
    · rw [hnone]
      exact fun id hid => absurd hid not_mem_nil
    · rw [hdb, hnone]
      exact ⟨[], (append_nil _).symm, List.Forall₂.nil⟩
  rw [bulkJobs] at h
  cases hrefuse : spec.refuse (call 0) dialect with
  | error err => grind
  | ok =>
    rw [hrefuse] at h
    dsimp only at h
    cases entryDead with
    | true =>
      cases h
      exact hidle rfl rfl
    | false =>
      cases hcapped : (spec.start ops ((call 0).clock 0) db).result.matchedCapped with
      | true =>
        rw [hcapped, hdry, Bool.not_false, Bool.and_true, if_pos rfl] at h
        cases h
        exact hidle rfl rfl
      | false =>
        rw [hcapped, Bool.false_and, if_neg Bool.false_ne_true] at h
        exact walk_places hplaces hdry hcall hnamed hindex hrefuse hcapped h

end Whole

/-! ## Replays and bulk actions -/

/-- **A staggered cohort lands evenly inside its window exactly when no product wraps.** Whatever
the window, the cohort and the batch size, and wherever a cancellation or a refused batch cuts it
short, a replay, a bulk retry and a bulk reschedule end, and the jobs that they changed are due at
the even slots of the window, with a reschedule's entries saying so, if and only if for every such
job its index in the cohort times the window is within an `int64`. -/
theorem staggered_cohort_lands_evenly (call : ℕ → Context) (entryDead : Bool) (dead : ℕ → Bool)
    (db : Db) (hcall : OneActor call) (hnamed : db.Named)
      (hindex : activeKeysUnique db.jobs = true) :
    (∀ (opts : ReplayOpts) (requested : ℤ), 0 < opts.stagger →
      (opts.targets db).length < 2 ^ 63 → ∃ e,
        (∀ fuel, db.jobs.rows.length < fuel →
          replay call entryDead dead opts requested fuel db = some e) ∧
        (LandsEvenly (opts.targets db) ((call 0).clock 0 + opts.retry.delay) opts.stagger
            (db.changedTo e.db) e.db ↔
          FitsWord (opts.targets db) opts.stagger (db.changedTo e.db))) ∧
    ∀ (ops : Operators) (dialect : Dialect) (spec : BulkSpec), spec.Places → spec.dryRun = false →
      0 < spec.stagger → ∃ e,
        (∀ fuel, spec.rounds db < fuel →
          bulkJobs call entryDead dead ops dialect spec fuel db = some e) ∧
        (LandsEvenly (spec.selection ops db) (spec.base ((call 0).clock 0)) spec.stagger
              {id | id ∈ e.walk.changedIDs} e.db ∧
            (spec.action = .reschedule → RecordsDue db e.db e.walk.changedIDs) ↔
          FitsWord (spec.selection ops db) spec.stagger {id | id ∈ e.walk.changedIDs}) := by
  refine ⟨fun opts requested hstagger hword => ?_, fun ops dialect spec hplaces hdry hstagger => ?_⟩
  · obtain ⟨e, hends⟩ := replay_halts call entryDead dead opts requested hcall hnamed hindex
    refine ⟨e, hends, ?_⟩
    have hplaced := replay_places hcall hnamed hindex hstagger (hends _ (Nat.lt_succ_self _))
    exact hplaced.lands_iff (ascending_rows db.jobs _) hstagger fun _ => hword
  · obtain ⟨e, hends⟩ := bulkJobs_halts hplaces hdry hcall hnamed (fun _ => hindex) entryDead dead
      dialect
    refine ⟨e, hends, ?_⟩
    obtain ⟨hplaced, hrecords, hmost⟩ := bulkJobs_places hplaces hdry hcall hnamed (fun _ => hindex)
      (hends _ (Nat.lt_succ_self _))
    rw [and_iff_left hrecords]
    refine hplaced.lands_iff (ascending_sortedJobs _ db) hstagger fun hsome => ?_
    obtain ⟨id, hid⟩ := hsome
    exact (hmost (ne_nil_of_mem hid)).trans_lt (by decide)

/-- A reschedule of the jobs of one kind, over a window. -/
def rescheduleWork (window : Duration) : BulkSpec :=
  { query := { kinds := ["work"] }, action := .reschedule, rescheduleAt := 0, stagger := window }

/-- Two jobs that wait, over ten seconds. -/
theorem two_waiting_land_evenly :
    ∃ e, bulkJobs (fun _ => {}) false (fun _ => false) {} .sqlite (rescheduleWork 10000000000) 5
        twoWaiting = some e ∧
      e.error = none ∧ e.walk.changedIDs = ["a", "b"] ∧
      LandsEvenly ((rescheduleWork 10000000000).selection {} twoWaiting) 0 10000000000
        {id | id ∈ e.walk.changedIDs} e.db := by
  obtain ⟨-, hbulk⟩ := staggered_cohort_lands_evenly (fun _ => {}) false (fun _ => false) twoWaiting
    (fun _ => rfl) (by unfold Db.Named; decide) (by decide)
  obtain ⟨e, hends, hiff⟩ := hbulk {} .sqlite (rescheduleWork 10000000000) (.inr rfl) rfl
    (by decide)
  have he := hends 5 (by decide)
  refine ⟨e, he, ?_, ?_, (hiff.mpr fun i r hi _ => ?_).1⟩
  · cases he
    rfl
  · cases he
    rfl
  · have hlt : i < 2 := (List.getElem?_eq_some_iff.mp hi).1
    change (10000000000 : ℤ) * i < 2 ^ 63
    omega

/-- Three jobs that wait. -/
def threeWaiting : Db :=
  { jobs := { rows := [waitingJob "a", waitingJob "b", waitingJob "c"], nodup := by decide } }

/-- **A wide window throws a job back before its base.** With a window of 2⁶² nanoseconds the third
of three jobs is due 97 years before the time that the reschedule names. -/
theorem wide_window_lands_before_base :
    ∃ e, bulkJobs (fun _ => {}) false (fun _ => false) {} .sqlite (rescheduleWork (2 ^ 62)) 5
        threeWaiting = some e ∧
      e.error = none ∧ e.walk.changedIDs = ["a", "b", "c"] ∧
      e.db.jobs.rows.map JobRow.scheduledAt = [0, 2 ^ 62 / 3, -(2 ^ 63 / 3)] :=
  ⟨_, rfl, rfl, rfl, rfl⟩

-- a month over five thousand jobs is enough
example : staggerOffset (30 * 24 * 3600 * 1000000000) 5000 4999 < 0 := by decide

end Flywheel
