import Flywheel.Control.LiveKeys
import Flywheel.Library.Keyset

/-!
# Replay

The loop of `replay` (`replay.go`) over the batches of `replayBatch`. A batch reads the next
targeted jobs past a cursor and writes those of them that may go live, so that what is past the
cursor is as it was when the replay began. The batches read the targeted jobs once each, in the
order of their ids (`ReplayInv`), and put live the jobs that one pick over all of them would: a
later batch finds the keys of the earlier ones held by their jobs (`ReplayInv.held_eq`).
-/

namespace Flywheel

open Relational Transition Keyset List Option Table

/-! ## The loop -/

/-- `ScopeResult` -/
structure ScopeResult where
  changed : ℕ := 0
  skippedTerminal : ℕ := 0
  skippedRunning : ℕ := 0
  skippedActiveKey : ℕ := 0
  batches : ℕ := 0

/-- `defaultScopeBatchSize` -/
def defaultScopeBatchSize : ℕ := 1000

/-- `ReplayOpts.batchSize` -/
def replayBatchSize (requested : ℤ) : ℕ :=
  if requested ≤ 0 then defaultScopeBatchSize else requested.toNat

/-- `replayBatchRetries` -/
def replayBatchRetries : ℕ := 3

/-- `retryableBatchError`, of the errors that a transaction has here. -/
def retryableBatchError (e : TxError) : Bool := decide (e = .duplicateKey)

/-- What ended a replay before its last batch. -/
inductive ReplayError where
  | unbounded
  | cancelled
  | batch (e : TxError)
deriving DecidableEq

/-- A replay between two batches: the database, where it is, and what it reports so far. `examined`
is the ids that its batches read, which it does not report. -/
structure ReplayRun where
  db : Db
  pos : ReplayPosition
  result : ScopeResult
  races : ℕ := 0
  examined : List String := []

/-- A replay that ended. -/
structure ReplayEnd extends ReplayRun where
  error : Option ReplayError

/-- One round of the loop: the context's check, the batch, and its rerun after a lost race. The
replay ends, or goes on. -/
def replayRound (ctx : Context) (dead : Bool) (opts : ReplayOpts) (size : ℕ) (s : ReplayRun) :
    ReplayEnd ⊕ ReplayRun :=
  if dead then .inl { s with error := some .cancelled }
  else match replayBatch ctx opts s.pos size s.db with
    | .error e =>
      if s.races < replayBatchRetries ∧ retryableBatchError e = true then
        .inr { s with races := s.races + 1 }
      else .inl { s with error := some (.batch e) }
    | .ok c =>
      let next : ReplayRun :=
        { db := c.db
          pos := { s.pos with cursor := c.out.last, placed := s.pos.placed + c.out.selected }
          result := { s.result with
            changed := s.result.changed + c.out.changed.length
            skippedActiveKey := s.result.skippedActiveKey + c.out.skippedActiveKey
            batches := s.result.batches + if c.out.changed = [] then 0 else 1 }
          examined := s.examined ++ (replayRows opts s.pos.cursor size s.db).map JobRow.id }
      if c.out.selected < size then .inl { next with error := none } else .inr next

/-- The loop, for at most `fuel` rounds. -/
def replayLoop (call : ℕ → Context) (dead : ℕ → Bool) (opts : ReplayOpts) (size : ℕ) :
    ℕ → ℕ → ReplayRun → Option ReplayEnd
  | 0, _, _ => none
  | fuel + 1, i, s =>
    match replayRound (call i) (dead i) opts size s with
    | .inl e => some e
    | .inr s => replayLoop call dead opts size fuel (i + 1) s

/-- A job that the scope of a replay shows. -/
def ReplayOpts.inScope (opts : ReplayOpts) (r : JobRow) : Bool := r.visible && opts.scope r

/-- The jobs that a replay leaves running: the running ones and, when it names cancelled, the
cancelled ones whose attempt still runs. -/
def ReplayOpts.countRunning (opts : ReplayOpts) (db : Db) : ℕ :=
  (db.jobs.rows.countP fun r => opts.inScope r && decide (r.state = .running)) +
    if opts.replayStates.contains .cancelled then
      db.jobs.rows.countP fun r => opts.inScope r && cancelledAttemptStillRuns db r &&
        opts.failedSince.all fun since => r.finalizedAt.any fun t => decide (since ≤ t)
    else 0

/-- The jobs that a replay leaves terminal: those in a state that it does not target. -/
def ReplayOpts.countTerminal (opts : ReplayOpts) (db : Db) : ℕ :=
  db.jobs.rows.countP fun r =>
    opts.inScope r && r.state.isTerminal && !opts.replayStates.contains r.state

/-- The jobs that a replay targets, counted when it staggers them. -/
def ReplayOpts.countTargets (opts : ReplayOpts) (db : Db) : ℕ :=
  if 0 < opts.stagger then db.jobs.rows.countP (opts.selects "" db) else 0

/-- How a replay begins. -/
def replayStart (now : Time) (opts : ReplayOpts) (db : Db) : ReplayRun where
  db := db
  pos := { now, total := opts.countTargets db }
  result := { skippedTerminal := opts.countTerminal db, skippedRunning := opts.countRunning db }

/-- `replay`: the refusals, the counts, then the loop. The context is checked on entry and before
each batch. -/
def replay (call : ℕ → Context) (entryDead : Bool) (dead : ℕ → Bool) (opts : ReplayOpts)
    (requested : ℤ) (fuel : ℕ) (db : Db) : Option ReplayEnd :=
  let idle : ReplayRun := { db, pos := { now := (call 0).clock 0 }, result := {} }
  match (do opts.refuse; resolveActor (call 0)) with
  | .error e => some { idle with error := some (.batch e) }
  | .ok _ =>
    if entryDead then some { idle with error := some .cancelled }
    else
      replayLoop call dead opts (replayBatchSize requested) fuel 0
        (replayStart ((call 0).clock 0) opts db)

/-- `applyKindFilter` -/
def kindFilter (kinds : List String) (r : JobRow) : Bool := kinds.isEmpty || kinds.contains r.kind

/-- `ReplayByParent` -/
def replayByParent (call : ℕ → Context) (entryDead : Bool) (dead : ℕ → Bool) (parentJobID : String)
    (kinds : List String) (opts : ReplayOpts) (requested : ℤ) (fuel : ℕ) (db : Db) :
    Option ReplayEnd :=
  replay call entryDead dead { opts with
      scope := fun r => decide (r.parentJobID = some parentJobID) && kindFilter kinds r
      parentJobID } requested fuel db

/-- `Replay`: a kind or a time must bound it. -/
def replayJobs (call : ℕ → Context) (entryDead : Bool) (dead : ℕ → Bool) (kinds : List String)
    (opts : ReplayOpts) (requested : ℤ) (fuel : ℕ) (db : Db) : Option ReplayEnd :=
  if kinds = [] ∧ opts.failedSince = none then
    some { db, pos := { now := (call 0).clock 0 }, result := {}, error := some .unbounded }
  else
    replay call entryDead dead { opts with scope := kindFilter kinds, parentJobID := "" } requested
      fuel db

/-! ## The targeted jobs -/

/-- The jobs that a replay targets, in the order of their ids. -/
def ReplayOpts.targets (opts : ReplayOpts) (db : Db) : List JobRow :=
  (db.jobs.rows.filter (opts.selects "" db)).insertionSort fun a b => a.id ≤ b.id

theorem ascending_rows (jobs : Table JobRow.id) (p : JobRow → Bool) :
    Ascending JobRow.id ((jobs.rows.filter p).insertionSort fun a b => a.id ≤ b.id) :=
  ascending_insertionSort (jobs.nodup.sublist (filter_sublist.map JobRow.id))

variable {actor : Actor} {db₀ : Db} {r : JobRow} {s : ReplayRun} {id : String} {now : Time}
  {fuel i : ℕ} {call : ℕ → Context} {db : Db} {opts : ReplayOpts}

theorem ReplayOpts.mem_targets :
    r ∈ opts.targets db ↔ r ∈ db.jobs.rows ∧ opts.selects "" db r = true := by
  rw [targets, mem_insertionSort, mem_filter]

/-- No stored job has the empty id, which stands for no cursor. -/
def Db.Named (db : Db) : Prop := ∀ r ∈ db.jobs.rows, r.id ≠ ""

theorem ReplayOpts.selects_cursor (opts : ReplayOpts) (cursor : String) (db : Db) (h : r.id ≠ "") :
    opts.selects cursor db r = (opts.selects "" db r && decide (cursor < r.id)) := by
  by_cases hcursor : cursor = ""
  · rw [hcursor, decide_eq_true (empty_lt h), Bool.and_true]
  · simp [ReplayOpts.selects, hcursor]

theorem replayRows_eq (hnamed : db.Named) (cursor : String) (size : ℕ) :
    replayRows opts cursor size db =
      ((opts.targets db).filter fun r => decide (cursor < r.id)).take size := by
  refine congrArg (List.take size) (Ascending.ext (ascending_rows db.jobs _)
    ((ascending_rows db.jobs _).filter _) fun r => ?_)
  rw [mem_insertionSort, mem_filter, mem_filter, opts.mem_targets, and_assoc]
  refine and_congr_right fun hr => ?_
  rw [opts.selects_cursor cursor db (hnamed r hr), Bool.and_eq_true]

/-! ## One batch -/

variable {ctx : Context} {opts : ReplayOpts} {pos : ReplayPosition} {size : ℕ} {db : Db}
  {cursor : String}

/-- The jobs that a batch may put live. -/
def ReplayOpts.live (opts : ReplayOpts) (cursor : String) (size : ℕ) (db : Db) : List String :=
  liveCandidates (activeKeyHeld db) [] (replayRows opts cursor size db)

theorem mem_replayRows (h : r ∈ replayRows opts cursor size db) :
    r ∈ db.jobs.rows ∧ opts.selects cursor db r = true := by
  have h := mem_of_mem_take h
  rwa [mem_insertionSort, mem_filter] at h

theorem replayRows_nodup (opts : ReplayOpts) (cursor : String) (size : ℕ) (db : Db) :
    ((replayRows opts cursor size db).map JobRow.id).Nodup := by
  have h : ((replayRows opts cursor size db).map JobRow.id).Sublist
      (((db.jobs.rows.filter (opts.selects cursor db)).insertionSort
        fun a b => a.id ≤ b.id).map JobRow.id) := (take_sublist _ _).map _
  refine Nodup.sublist h ?_
  exact pairwise_map.mpr ((ascending_rows db.jobs _).imp fun hlt => ne_of_lt hlt)

/-- **A batch's update writes exactly the jobs that it picked.** -/
theorem replayGuard_eq (hr : r ∈ db.jobs.rows) : replayGuard opts (opts.live cursor size db) db r =
      decide (r.id ∈ opts.live cursor size db) := by
  rw [Bool.eq_iff_iff, decide_eq_true_iff, replayGuard, Bool.and_eq_true, Bool.and_eq_true,
    Bool.and_eq_true, Bool.and_eq_true, contains_iff_mem]
  refine ⟨fun h => h.1.1.1.2, fun hpick => ?_⟩
  obtain ⟨s, hs, hid⟩ := List.mem_map.mp (liveCandidates_subset _ hpick)
  obtain ⟨hsrow, hselects⟩ := mem_replayRows hs
  obtain rfl : s = r := eq_of_key_eq hsrow hr hid
  simp only [ReplayOpts.selects, Bool.and_eq_true] at hselects
  obtain ⟨⟨⟨⟨⟨hvisible, -⟩, hstate⟩, hskips⟩, -⟩, -⟩ := hselects
  refine ⟨⟨⟨⟨hvisible, hpick⟩, hstate⟩, ?_⟩, hskips⟩
  rw [Bool.not_eq_true', ← Bool.not_eq_true]
  intro hheld
  obtain ⟨key, hkey, -⟩ := activeKeyHeld_iff.mp hheld
  rw [(held_of_picked (replayRows_nodup opts cursor size db) hs hpick hkey).1] at hheld
  cases hheld

theorem perm_idsMatching_live (opts : ReplayOpts) (cursor : String) (size : ℕ) (db : Db) :
    (idsMatching (replayGuard opts (opts.live cursor size db) db) db).Perm
      (opts.live cursor size db) := by
  refine perm_idsMatching ?_ (fun id hid => ?_) fun r hr => replayGuard_eq hr
  · exact (replayRows_nodup opts cursor size db).sublist (liveCandidates_sublist _ _ _)
  · obtain ⟨r, hr, rfl⟩ := List.mem_map.mp (liveCandidates_subset _ hid)
    exact ⟨r, (mem_replayRows hr).1, rfl⟩

/-- The write of a batch. -/
def replayWrite (opts : ReplayOpts) (pos : ReplayPosition) (size : ℕ) (db : Db) : Db :=
  { db with
    jobs := db.jobs.update (replayGuard opts (opts.live pos.cursor size db) db)
      (retryPatch pos.now opts.retry
        (replayDue opts pos ((replayRows opts pos.cursor size db).map JobRow.id))) }

theorem activeKeysUnique_replayWrite (h : activeKeysUnique db.jobs = true) :
    activeKeysUnique (replayWrite opts pos size db).jobs = true := by
  refine activeKeysUnique_update h (fun _ => rfl) (fun r hr hguard => ?_)
    fun r hr s hs hrg hsg key hrkey hskey => ?_
  · simp_all [replayGuard]
  · rw [replayGuard_eq hr, decide_eq_true_iff] at hrg
    rw [replayGuard_eq hs, decide_eq_true_iff] at hsg
    obtain ⟨r', hr', hrid⟩ := List.mem_map.mp (liveCandidates_subset _ hrg)
    obtain ⟨s', hs', hsid⟩ := List.mem_map.mp (liveCandidates_subset _ hsg)
    obtain rfl : r' = r := eq_of_key_eq (mem_replayRows hr').1 hr hrid
    obtain rfl : s' = s := eq_of_key_eq (mem_replayRows hs').1 hs hsid
    rw [picked_inj (replayRows_nodup opts pos.cursor size db) hr' hs' hrg hsg hrkey hskey]

/-- The host's hook is all that can refuse a transaction's entries. -/
theorem recordAudit_cases (ctx : Context) (actor : Actor) (now : Time) (changes : List AuditChange)
    (db : Db) :
    (∃ audit, recordAudit ctx actor now changes db = .ok { db with audit }) ∨
      recordAudit ctx actor now changes db = .error .auditHook ∧ ctx.auditHook ≠ none := by
  simp only [recordAudit]
  split_ifs with hnil hhook
  · exact .inl ⟨db.audit, rfl⟩
  · exact .inl ⟨_, rfl⟩
  · grind

/-- What a batch reports. -/
def replayReport (opts : ReplayOpts) (cursor : String) (size : ℕ) (db : Db) : ReplayBatch where
  selected := (replayRows opts cursor size db).length
  changed := idsMatching (replayGuard opts (opts.live cursor size db) db) db
  skippedActiveKey := (replayRows opts cursor size db).length - (opts.live cursor size db).length
  last := ((replayRows opts cursor size db).getLast?.map JobRow.id).getD ""

/-- **A batch never fails on a key.** It makes its write, or the host's hook refuses its entries. -/
theorem replayBatch_cases (pos : ReplayPosition) (size : ℕ) (hrefuse : opts.refuse = .ok ())
    (hactor : resolveActor ctx = .ok actor) (hindex : activeKeysUnique db.jobs = true) :
    (∃ audit, replayBatch ctx opts pos size db =
      .ok { db := { replayWrite opts pos size db with audit }
            out := replayReport opts pos.cursor size db }) ∨
      replayBatch ctx opts pos size db = .error .auditHook ∧ ctx.auditHook ≠ none := by
  rw [replayBatch, hrefuse, hactor]
  change (∃ audit, (if opts.live pos.cursor size db = [] then _ else _) = _) ∨
    (if opts.live pos.cursor size db = [] then _ else _) = _ ∧ _
  by_cases hnil : opts.live pos.cursor size db = []
  · refine .inl ⟨db.audit, ?_⟩
    have hwrite : replayWrite opts pos size db = db := by
      rw [replayWrite, update_of_false fun r hr => ?_]
      rw [replayGuard_eq hr, hnil]
      rfl
    have hchanged : (replayReport opts pos.cursor size db).changed = [] := by
      refine eq_nil_of_length_eq_zero ?_
      rw [replayReport, (perm_idsMatching_live opts pos.cursor size db).length_eq, hnil]
      rfl
    rw [if_pos hnil, hwrite]
    refine congrArg Except.ok (congrArg (Commit.mk db · []) ?_)
    exact congrArg (ReplayBatch.mk _ · _ _) hchanged.symm
  · rw [if_neg hnil]
    have hcheck : checkActiveKeys (replayWrite opts pos size db) = .ok () := by
      rw [checkActiveKeys, activeKeysUnique_replayWrite hindex]
      rfl
    change (∃ audit, (checkActiveKeys (replayWrite opts pos size db) >>= _) = _) ∨
      (checkActiveKeys (replayWrite opts pos size db) >>= _) = _ ∧ _
    rw [hcheck]
    change (∃ audit, (recordAudit ctx actor _ _ (replayWrite opts pos size db) >>= _) = _) ∨
      (recordAudit ctx actor _ _ (replayWrite opts pos size db) >>= _) = _ ∧ _
    rcases recordAudit_cases ctx actor _ _ (replayWrite opts pos size db) with
      ⟨audit, haudit⟩ | ⟨haudit, hhook⟩
    · refine .inl ⟨audit, ?_⟩
      rw [haudit]
      rfl
    · simp_all

/-- A replay after a batch that committed. -/
def ReplayRun.next (s : ReplayRun) (opts : ReplayOpts) (size : ℕ) (audit : List AuditRow) :
    ReplayRun where
  db := { replayWrite opts s.pos size s.db with audit }
  pos := { s.pos with
    cursor := (replayReport opts s.pos.cursor size s.db).last
    placed := s.pos.placed + (replayReport opts s.pos.cursor size s.db).selected }
  result := { s.result with
    changed := s.result.changed + (replayReport opts s.pos.cursor size s.db).changed.length
    skippedActiveKey :=
      s.result.skippedActiveKey + (replayReport opts s.pos.cursor size s.db).skippedActiveKey
    batches := s.result.batches +
      if (replayReport opts s.pos.cursor size s.db).changed = [] then 0 else 1 }
  examined := s.examined ++ (replayRows opts s.pos.cursor size s.db).map JobRow.id

theorem ReplayRun.get?_next (s : ReplayRun) (opts : ReplayOpts) (size : ℕ) (audit : List AuditRow)
    (id : String) :
    (s.next opts size audit).db.jobs.get? id = (s.db.jobs.get? id).map fun r =>
      if replayGuard opts (opts.live s.pos.cursor size s.db) s.db r then
        (retryPatch s.pos.now opts.retry (replayDue opts s.pos
          ((replayRows opts s.pos.cursor size s.db).map JobRow.id))).apply r else r :=
  get?_update _ _ _ id

theorem ReplayRun.next_keeps (s : ReplayRun) (hr : s.db.jobs.get? id = some r)
    (hlive : id ∉ opts.live s.pos.cursor size s.db) (audit : List AuditRow) :
    (s.next opts size audit).db.jobs.get? id = some r := by
  rw [s.get?_next, hr, map_some, replayGuard_eq (mem_of_get? hr), key_of_get? hr,
    decide_eq_false hlive, if_neg Bool.false_ne_true]

theorem ReplayRun.next_writes (s : ReplayRun) (hr : s.db.jobs.get? id = some r)
    (hlive : id ∈ opts.live s.pos.cursor size s.db) (audit : List AuditRow) :
    (s.next opts size audit).db.jobs.get? id =
      some ((retryPatch s.pos.now opts.retry (replayDue opts s.pos
      ((replayRows opts s.pos.cursor size s.db).map JobRow.id))).apply r) := by
  rw [s.get?_next, hr, map_some, replayGuard_eq (mem_of_get? hr), key_of_get? hr,
    decide_eq_true hlive, if_pos rfl]

/-- A round without a lost race: the batch commits, or the host's hook refuses it. -/
theorem replayRound_cases (hrefuse : opts.refuse = .ok ()) (hactor : resolveActor ctx = .ok actor)
    (hindex : activeKeysUnique s.db.jobs = true) :
    (∃ audit, replayRound ctx false opts size s =
      if (replayRows opts s.pos.cursor size s.db).length < size then
        .inl { s.next opts size audit with error := none }
      else .inr (s.next opts size audit)) ∨
    replayRound ctx false opts size s = .inl { s with error := some (.batch .auditHook) } ∧
      ctx.auditHook ≠ none := by
  rcases replayBatch_cases s.pos size hrefuse hactor hindex with
    ⟨audit, hbatch⟩ | ⟨hbatch, hhook⟩
  · refine .inl ⟨audit, ?_⟩
    rw [replayRound, hbatch, if_neg Bool.false_ne_true]
    rfl
  · refine .inr ⟨?_, hhook⟩
    rw [replayRound, hbatch, if_neg Bool.false_ne_true]
    exact if_neg fun h => Bool.false_ne_true h.2

/-! ## The batches together -/

/-- A row that a replay put live, due at some time. -/
def Replayed (now : Time) (retry : RetryOpts) (r r' : JobRow) : Prop :=
  ∃ due, r' = (retryPatch now retry due).apply r

/-- When a replay makes the targeted job at an index due. -/
def ReplayOpts.dueAt (opts : ReplayOpts) (now : Time) (db : Db) (index : ℤ) : Time :=
  staggered (now + opts.retry.delay) opts.stagger (opts.countTargets db) index

/-- Where a replay of `db₀` is once it has examined the targeted jobs `done`: the jobs of one pick
over them are live, and every other job is as it was. -/
structure ReplayInv (opts : ReplayOpts) (now : Time) (db₀ : Db) (done : List JobRow)
    (s : ReplayRun) : Prop where
  index : activeKeysUnique s.db.jobs = true
  runs : s.db.runs = db₀.runs
  start : s.pos.now = now
  absent : ∀ id, db₀.jobs.get? id = none → s.db.jobs.get? id = none
  kept : ∀ id r, db₀.jobs.get? id = some r →
    id ∉ liveCandidates (activeKeyHeld db₀) [] done → s.db.jobs.get? id = some r
  picked : ∀ id r, db₀.jobs.get? id = some r → id ∈ liveCandidates (activeKeyHeld db₀) [] done →
      ∃ r', s.db.jobs.get? id = some r' ∧ Replayed now opts.retry r r'
  placed : s.pos.placed = done.length
  total : s.pos.total = opts.countTargets db₀
  due : ∀ (i : ℕ) r, done[i]? = some r → r.id ∈ liveCandidates (activeKeyHeld db₀) [] done →
    ∃ r', s.db.jobs.get? r.id = some r' ∧ r'.scheduledAt = opts.dueAt now db₀ i
  examined : s.examined = done.map JobRow.id
  changed : s.result.changed = (liveCandidates (activeKeyHeld db₀) [] done).length
  skipped : s.result.changed + s.result.skippedActiveKey = done.length
  counted : s.result.skippedRunning = opts.countRunning db₀ ∧
    s.result.skippedTerminal = opts.countTerminal db₀

theorem ReplayOpts.selects_congr {db' : Db} (h : db'.runs = db.runs) (cursor : String)
    (r : JobRow) : opts.selects cursor db' r = opts.selects cursor db r := by
  simp only [ReplayOpts.selects, ReplayOpts.skips, cancelledAttemptStillRuns, attemptStillRuns, h]

theorem idxOf_of_getElem? {ids : List String} (hnodup : ids.Nodup) (h : ids[i]? = some id) :
    ids.idxOf id = i := by
  obtain ⟨hi, rfl⟩ := List.getElem?_eq_some_iff.mp h
  exact hnodup.idxOf_getElem i hi

section Step

variable {now : Time} {db₀ : Db} {done : List JobRow} {s : ReplayRun}

theorem mem_done_of_picked (h : id ∈ liveCandidates (activeKeyHeld db₀) [] done) :
    ∃ r ∈ done, r.id = id := by
  obtain ⟨r, hr, hid⟩ := List.mem_map.mp (liveCandidates_subset id h)
  exact ⟨r, hr, hid⟩

section

variable (h : ReplayInv opts now db₀ done s)

include h

theorem ReplayInv.get?_past (hid : ∀ r ∈ done, r.id ≠ id) :
    s.db.jobs.get? id = db₀.jobs.get? id := by
  cases hget : db₀.jobs.get? id with
  | none => exact h.absent id hget
  | some r =>
    refine h.kept id r hget fun hpick => ?_
    grind [mem_done_of_picked]

theorem ReplayInv.row {r' : JobRow} (hr' : r' ∈ s.db.jobs.rows) :
    ∃ r, db₀.jobs.get? r'.id = some r ∧
      (r' = r ∧ r.id ∉ liveCandidates (activeKeyHeld db₀) [] done ∨
        Replayed now opts.retry r r' ∧ r.id ∈ liveCandidates (activeKeyHeld db₀) [] done) := by
  have hget := get?_key hr'
  cases hold : db₀.jobs.get? r'.id with
  | none =>
    rw [h.absent _ hold] at hget
    cases hget
  | some r =>
    have hid : r.id = r'.id := key_of_get? hold
    refine ⟨r, rfl, ?_⟩
    by_cases hpick : r'.id ∈ liveCandidates (activeKeyHeld db₀) [] done
    · obtain ⟨t, ht, hreplayed⟩ := h.picked _ r hold hpick
      simp_all
    · have hkept := h.kept _ r hold hpick
      exact .inl ⟨some_inj.mp (hget.symm.trans hkept), hid ▸ hpick⟩

theorem ReplayInv.named (hnamed : db₀.Named) : s.db.Named := by
  intro r' hr'
  obtain ⟨r, hr, -⟩ := h.row hr'
  rw [← key_of_get? hr]
  exact hnamed r (mem_of_get? hr)

/-- **A batch reads the next targeted jobs**, as they were when the replay began. -/
theorem ReplayInv.rows_eq (hnamed : db₀.Named)
    (hdone : ∀ r ∈ done, r.id ≤ s.pos.cursor) (size : ℕ) :
    replayRows opts s.pos.cursor size s.db =
      ((opts.targets db₀).filter fun r => decide (s.pos.cursor < r.id)).take size := by
  rw [replayRows_eq (h.named hnamed)]
  refine congrArg (List.take size) (Ascending.ext ((ascending_rows s.db.jobs _).filter _)
    ((ascending_rows db₀.jobs _).filter _) fun r => ?_)
  rw [mem_filter, mem_filter, opts.mem_targets, opts.mem_targets, decide_eq_true_iff]
  refine and_congr_left fun hpast => and_congr ?_ (by rw [opts.selects_congr h.runs])
  have hget : s.db.jobs.get? r.id = db₀.jobs.get? r.id := h.get?_past fun t ht hid =>
    absurd (hdone t ht) (not_le.mpr (hid ▸ hpast))
  rw [mem_rows_iff, mem_rows_iff, hget]

/-- **A later batch finds the keys of the earlier ones held**: for a job past what was examined, its
key is held now when it was at the start, or when the pick took it. -/
theorem ReplayInv.held_eq (hdone : ∀ t ∈ done, t ∈ db₀.jobs.rows)
    (hnodup : (done.map JobRow.id).Nodup) (hr : ∀ t ∈ done, t.id ≠ r.id) {key : String}
    (hkey : r.uniqueActiveKey = some key) :
    activeKeyHeld s.db r =
      (activeKeyHeld db₀ r || (takenAfter (activeKeyHeld db₀) [] done).contains key) := by
  rw [Bool.eq_iff_iff, Bool.or_eq_true, contains_iff_mem, activeKeyHeld_iff, activeKeyHeld_iff]
  constructor
  · rintro ⟨key', hkey', t', ht', htkey, htlive, hne⟩
    obtain rfl := some_inj.mp (hkey'.symm.trans hkey)
    obtain ⟨t, ht, ⟨rfl, -⟩ | ⟨⟨due, rfl⟩, hpick⟩⟩ := h.row ht'
    · exact .inl ⟨key', hkey, _, mem_of_get? ht, htkey, htlive, hne⟩
    · -- a job that the replay put live took its key
      obtain ⟨u, hu, huid⟩ := mem_done_of_picked hpick
      obtain rfl : u = t := eq_of_key_eq (hdone u hu) (mem_of_get? ht) huid
      exact .inr (held_of_picked hnodup hu hpick htkey).2
  · rintro (⟨key', hkey', t, ht, htkey, htlive, hne⟩ | htaken)
    · obtain rfl := some_inj.mp (hkey'.symm.trans hkey)
      have hget := get?_key ht
      by_cases hpick : t.id ∈ liveCandidates (activeKeyHeld db₀) [] done
      · obtain ⟨t', ht', due, rfl⟩ := h.picked _ t hget hpick
        exact ⟨key', hkey, _, mem_of_get? ht', htkey, rfl, hne⟩
      · exact ⟨key', hkey, t, mem_of_get? (h.kept _ t hget hpick), htkey, htlive, hne⟩
    · rcases exists_picked htaken with hnil | ⟨t, ht, htkey, hpick⟩
      · cases hnil
      · obtain ⟨t', ht', due, rfl⟩ := h.picked _ t (get?_key (hdone t ht)) hpick
        exact ⟨key, hkey, _, mem_of_get? ht', htkey, rfl, hr t ht⟩

section

variable (hstored : ∀ t ∈ done, t ∈ db₀.jobs.rows)

include hstored

theorem ReplayInv.pick_append {page : List JobRow} (hnodup : ((done ++ page).map JobRow.id).Nodup) :
    liveCandidates (activeKeyHeld db₀) [] (done ++ page) =
      liveCandidates (activeKeyHeld db₀) [] done ++
        liveCandidates (activeKeyHeld s.db) [] page := by
  rw [map_append] at hnodup
  rw [liveCandidates_append]
  refine congrArg (_ ++ ·) (liveCandidates_congr fun r hr key hkey => ?_)
  have hne : ∀ t ∈ done, t.id ≠ r.id := fun t ht hid =>
    disjoint_of_nodup_append hnodup (List.mem_map_of_mem ht) (hid ▸ List.mem_map_of_mem hr)
  rw [h.held_eq hstored (nodup_append.mp hnodup).1 hne hkey, contains_nil, Bool.or_false]

/-- A batch's jobs are due at their indices, and those of the earlier batches stay so. -/
theorem ReplayInv.due_next
    (hnodup : ((done ++ replayRows opts s.pos.cursor size s.db).map JobRow.id).Nodup)
    (audit : List AuditRow) (hi : (done ++ replayRows opts s.pos.cursor size s.db)[i]? = some r)
    (hid : r.id ∈ liveCandidates (activeKeyHeld db₀) []
      (done ++ replayRows opts s.pos.cursor size s.db)) :
    ∃ r', (s.next opts size audit).db.jobs.get? r.id = some r' ∧
      r'.scheduledAt = opts.dueAt now db₀ i := by
  rw [h.pick_append hstored hnodup, mem_append] at hid
  rw [map_append] at hnodup
  rcases lt_or_ge i done.length with hlt | hge
  · rw [getElem?_append_left hlt] at hi
    have hleft : r.id ∉ opts.live s.pos.cursor size s.db := fun hlive =>
      disjoint_of_nodup_append hnodup (List.mem_map_of_mem (mem_of_getElem? hi))
        (liveCandidates_subset _ hlive)
    obtain ⟨r', hr', hdue⟩ := h.due i r hi (hid.resolve_right hleft)
    exact ⟨r', s.next_keeps hr' hleft audit, hdue⟩
  · rw [getElem?_append_right hge] at hi
    have hmem : r ∈ replayRows opts s.pos.cursor size s.db := mem_of_getElem? hi
    have hnew : r.id ∉ liveCandidates (activeKeyHeld db₀) [] done := fun hin =>
      disjoint_of_nodup_append hnodup (liveCandidates_subset _ hin) (List.mem_map_of_mem hmem)
    refine ⟨_, s.next_writes (get?_key (mem_replayRows hmem).1) (hid.resolve_left hnew) audit, ?_⟩
    change replayDue opts s.pos _ r = _
    have hslot : ((replayRows opts s.pos.cursor size s.db).map JobRow.id).idxOf r.id =
        i - done.length := by
      refine idxOf_of_getElem? (replayRows_nodup opts s.pos.cursor size s.db) ?_
      simp_all
    have hindex : s.pos.placed + ((i - done.length : ℕ) : ℤ) = (i : ℤ) := by
      rw [h.placed]
      omega
    rw [replayDue, scheduledAtValue_eq (List.mem_map_of_mem hmem), ReplayOpts.dueAt,
      h.total, h.start, hslot, hindex]

/-- **A batch that commits extends the invariant** over the jobs that it examined. -/
theorem ReplayInv.next
    (hnodup : ((done ++ replayRows opts s.pos.cursor size s.db).map JobRow.id).Nodup)
    (audit : List AuditRow) :
    ReplayInv opts now db₀ (done ++ replayRows opts s.pos.cursor size s.db)
      (s.next opts size audit) := by
  have hpick := h.pick_append hstored hnodup
  -- the batch's jobs are none of those examined before
  have hdisjoint : ∀ id, id ∈ liveCandidates (activeKeyHeld db₀) [] done →
      id ∉ opts.live s.pos.cursor size s.db := by
    intro id hid hlive
    rw [map_append] at hnodup
    exact disjoint_of_nodup_append hnodup (liveCandidates_subset id hid)
      (liveCandidates_subset id hlive)
  refine ⟨activeKeysUnique_replayWrite h.index, h.runs, h.start, fun id hid => ?_,
    fun id r hr hid => ?_, fun id r hr hid => ?_, ?_, h.total, fun i r hi hid => ?_, ?_, ?_, ?_,
    h.counted⟩
  · rw [s.get?_next, h.absent id hid, map_none]
  · rw [hpick, mem_append, not_or] at hid
    exact s.next_keeps (h.kept id r hr hid.1) hid.2 audit
  · rw [hpick, mem_append] at hid
    rcases hid with hid | hid
    · obtain ⟨r', hr', hreplayed⟩ := h.picked id r hr hid
      exact ⟨r', s.next_keeps hr' (hdisjoint id hid) audit, hreplayed⟩
    · have hold := h.kept id r hr fun hin => hdisjoint id hin hid
      have hlive : id ∈ opts.live s.pos.cursor size s.db := hid
      refine ⟨_, ?_, replayDue opts s.pos ((replayRows opts s.pos.cursor size s.db).map JobRow.id),
        rfl⟩
      rw [s.next_writes hold hlive audit, h.start]
  · rw [length_append, Nat.cast_add, ← h.placed]
    rfl
  · exact h.due_next hstored hnodup audit hi hid
  · rw [map_append, ← h.examined]
    rfl
  · rw [hpick, length_append, ← h.changed]
    exact congrArg (s.result.changed + ·)
      (perm_idsMatching_live opts s.pos.cursor size s.db).length_eq
  · have hle : (opts.live s.pos.cursor size s.db).length ≤
        (replayRows opts s.pos.cursor size s.db).length := by
      have hle := (liveCandidates_sublist (activeKeyHeld s.db) []
        (replayRows opts s.pos.cursor size s.db)).length_le
      rwa [length_map] at hle
    have hchanged := (perm_idsMatching_live opts s.pos.cursor size s.db).length_eq
    have hskipped := h.skipped
    grind [ReplayRun.next, replayReport]

end

end

/-- **One round.** The replay ends, with its invariant over all targeted jobs or with the error that
ended it, or it goes on past the jobs that it examined. -/
theorem ReplayInv.round
    (h : ReplayInv opts now db₀ ((opts.targets db₀).filter fun r => decide (r.id ≤ s.pos.cursor)) s)
    (hrefuse : opts.refuse = .ok ()) (hactor : resolveActor ctx = .ok actor) (hnamed : db₀.Named)
    (hsize : 0 < size) :
    (∃ e, replayRound ctx false opts size s = .inl e ∧
      (e.error = none ∧ ReplayInv opts now db₀ (opts.targets db₀) e.toReplayRun ∨
        e.error = some (.batch .auditHook) ∧ ctx.auditHook ≠ none ∧ e.toReplayRun = s)) ∨
    ∃ s', replayRound ctx false opts size s = .inr s' ∧
      ReplayInv opts now db₀ ((opts.targets db₀).filter fun r => decide (r.id ≤ s'.pos.cursor)) s' ∧
      ((opts.targets db₀).filter fun r => decide (s'.pos.cursor < r.id)).length <
        ((opts.targets db₀).filter fun r => decide (s.pos.cursor < r.id)).length := by
  have hasc : Ascending JobRow.id (opts.targets db₀) := ascending_rows db₀.jobs _
  have hsplit := hasc.split s.pos.cursor
  have hrows := h.rows_eq hnamed (fun r hr => of_decide_eq_true (mem_filter.mp hr).2) size
  generalize hdone : (opts.targets db₀).filter (fun r => decide (r.id ≤ s.pos.cursor)) = done at *
  generalize hrest : (opts.targets db₀).filter (fun r => decide (s.pos.cursor < r.id)) = rest at *
  have hstored : ∀ t ∈ done, t ∈ db₀.jobs.rows := fun t ht => by
    rw [← hdone] at ht
    exact (opts.mem_targets.mp (mem_filter.mp ht).1).1
  have hnodup : ((done ++ replayRows opts s.pos.cursor size s.db).map JobRow.id).Nodup := by
    have hall : ((opts.targets db₀).map JobRow.id).Nodup :=
      pairwise_map.mpr (hasc.imp fun hlt => ne_of_lt hlt)
    rw [← hsplit] at hall
    rw [hrows]
    exact hall.sublist (((Sublist.refl done).append (take_sublist size rest)).map _)
  rcases replayRound_cases hrefuse hactor h.index with ⟨audit, hround⟩ | ⟨hround, hhook⟩
  · have hinv := h.next hstored hnodup audit
    by_cases hshort : (replayRows opts s.pos.cursor size s.db).length < size
    · -- the last batch reads all that is left
      rw [if_pos hshort] at hround
      refine .inl ⟨_, hround, .inl ⟨rfl, ?_⟩⟩
      rw [hrows, length_take] at hshort
      rw [hrows, take_of_length_le (by omega), hsplit] at hinv
      exact hinv
    · rw [if_neg hshort] at hround
      refine .inr ⟨_, hround, ?_⟩
      obtain ⟨x, hx⟩ : ∃ x, (rest.take size).getLast? = some x := by
        refine isSome_iff_exists.mp (getLast?_isSome.mpr ?_)
        grind
      have hcursor : (s.next opts size audit).pos.cursor = x.id := by
        change ((replayRows opts s.pos.cursor size s.db).getLast?.map JobRow.id).getD "" = _
        rw [hrows, hx]
        rfl
      have hascRest : Ascending JobRow.id rest := hrest ▸ hasc.filter _
      have hbefore : ∀ r ∈ done, r.id < x.id := fun r hr => by
        grind
      rw [hcursor, ← hsplit, filter_append, filter_append, ← hascRest.take_eq hx,
        ← hascRest.drop_eq hx, filter_eq_self.mpr fun r hr => decide_eq_true (hbefore r hr).le,
        filter_eq_nil_iff.mpr fun r hr hlt =>
          absurd (of_decide_eq_true hlt) (not_lt.mpr (hbefore r hr).le),
        nil_append, length_drop]
      grind
  · exact .inl ⟨_, hround, .inr ⟨rfl, hhook, rfl⟩⟩

end Step

/-! ## The whole replay -/

theorem ReplayInv.start_inv (hnamed : db₀.Named) (hindex : activeKeysUnique db₀.jobs = true) :
    ReplayInv opts now db₀
      ((opts.targets db₀).filter fun r => decide (r.id ≤ (replayStart now opts db₀).pos.cursor))
      (replayStart now opts db₀) := by
  have hnil : (opts.targets db₀).filter
      (fun r => decide (r.id ≤ (replayStart now opts db₀).pos.cursor)) = [] := by
    refine filter_eq_nil_iff.mpr fun r hr hle => ?_
    exact absurd (empty_lt (hnamed r (opts.mem_targets.mp hr).1))
      (not_lt.mpr (of_decide_eq_true hle))
  rw [hnil]
  exact ⟨hindex, rfl, rfl, fun _ h => h, fun _ _ h _ => h, fun _ _ _ h => absurd h not_mem_nil,
    rfl, rfl, fun _ _ _ h => absurd h not_mem_nil, rfl, rfl, rfl, rfl, rfl⟩

section Loop

variable (hrefuse : opts.refuse = .ok ()) (hactor : ∀ i, ∃ actor, resolveActor (call i) = .ok actor)
  (hnamed : db₀.Named) (hsize : 0 < size)
  (h : ReplayInv opts now db₀ ((opts.targets db₀).filter fun r => decide (r.id ≤ s.pos.cursor)) s)

include hrefuse hactor hnamed hsize h

/-- **The loop ends**, within as many rounds as jobs are left and one more. -/
theorem replayLoop_ends
    (hfuel : ((opts.targets db₀).filter fun r => decide (s.pos.cursor < r.id)).length < fuel) :
    ∃ e, replayLoop call (fun _ => false) opts size fuel i s = some e ∧
      ((e.error = none ∧ ReplayInv opts now db₀ (opts.targets db₀) e.toReplayRun) ∨
        e.error = some (.batch .auditHook) ∧ (∃ i, (call i).auditHook ≠ none) ∧
          ∃ done, done.Sublist (opts.targets db₀) ∧ ReplayInv opts now db₀ done e.toReplayRun) := by
  induction fuel generalizing i s with
  | zero => exact absurd hfuel (Nat.not_lt_zero _)
  | succ fuel ih =>
    obtain ⟨actor, hactor'⟩ := hactor i
    rw [replayLoop]
    rcases h.round hrefuse hactor' hnamed hsize with ⟨e, hround, hend⟩ | ⟨s', hround, hinv, hless⟩
    · grind [filter_sublist]
    · obtain ⟨e, hloop, hend⟩ := ih (i := i + 1) hinv (by omega)
      exact ⟨e, by rw [hround]; exact hloop, hend⟩

/-- **Wherever the loop ends**, it examined the first of the targeted jobs and has its invariant
over them. -/
theorem ReplayInv.reaches {dead : ℕ → Bool} {e : ReplayEnd}
    (hloop : replayLoop call dead opts size fuel i s = some e) :
    ∃ done, done <+: opts.targets db₀ ∧ ReplayInv opts now db₀ done e.toReplayRun := by
  have hfirst : (opts.targets db₀).filter (fun r => decide (r.id ≤ s.pos.cursor)) <+:
      opts.targets db₀ := ⟨_, (ascending_rows db₀.jobs _).split s.pos.cursor⟩
  induction fuel generalizing i s with
  | zero => cases hloop
  | succ fuel ih =>
    rw [replayLoop] at hloop
    cases hdead : dead i with
    | true =>
      rw [hdead, replayRound, if_pos rfl] at hloop
      grind
    | false =>
      rw [hdead] at hloop
      obtain ⟨actor, hactor'⟩ := hactor i
      rcases h.round hrefuse hactor' hnamed hsize with ⟨e', hround, hend⟩ | ⟨s', hround, hinv, -⟩
      · grind
      · rw [hround] at hloop
        exact ih hinv hloop ⟨_, (ascending_rows db₀.jobs _).split s'.pos.cursor⟩

end Loop

theorem replayLoop_mono {dead : ℕ → Bool} {fuel' : ℕ} {e : ReplayEnd}
    (h : replayLoop call dead opts size fuel i s = some e) (hle : fuel ≤ fuel') :
    replayLoop call dead opts size fuel' i s = some e := by
  induction fuel generalizing fuel' i s with
  | zero => cases h
  | succ fuel ih =>
    obtain ⟨fuel', rfl⟩ := Nat.exists_eq_add_of_le' hle
    rw [replayLoop] at h
    rw [← Nat.add_assoc, replayLoop]
    cases hround : replayRound (call i) (dead i) opts size s with
    | inl e' =>
      rw [hround] at h
      exact h
    | inr s' => simp_all

/-- The batches of one call run for one actor. -/
def OneActor (call : ℕ → Context) : Prop := ∀ i, (call i).actor = (call 0).actor

theorem OneActor.resolves (h : OneActor call) (hactor : resolveActor (call 0) = .ok actor) (i : ℕ) :
    ∃ actor, resolveActor (call i) = .ok actor := by
  simp only [resolveActor, h i] at hactor ⊢
  grind

theorem replayBatchSize_pos (requested : ℤ) : 0 < replayBatchSize requested := by
  rw [replayBatchSize]
  split_ifs with h
  · decide
  · exact Int.pos_iff_toNat_pos.mp (not_le.mp h)

/-- **A replay ends**, with its invariant over all targeted jobs, or over those that it examined
before the host's hook refused a batch. -/
theorem replay_ends (call : ℕ → Context) (requested : ℤ) (hcall : OneActor call)
    (hactor : resolveActor (call 0) = .ok actor) (hrefuse : opts.refuse = .ok ())
    (hnamed : db.Named) (hindex : activeKeysUnique db.jobs = true) :
    ∃ e, (∀ fuel, db.jobs.rows.length < fuel →
        replay call false (fun _ => false) opts requested fuel db = some e) ∧
      ((e.error = none ∧ ReplayInv opts ((call 0).clock 0) db (opts.targets db) e.toReplayRun) ∨
        e.error = some (.batch .auditHook) ∧ (∃ i, (call i).auditHook ≠ none) ∧
          ∃ done, done.Sublist (opts.targets db) ∧
            ReplayInv opts ((call 0).clock 0) db done e.toReplayRun) := by
  have hfuel : ((opts.targets db).filter fun r =>
      decide ((replayStart ((call 0).clock 0) opts db).pos.cursor < r.id)).length <
        db.jobs.rows.length + 1 := by
    grind [ReplayOpts.targets, length_insertionSort]
  obtain ⟨e, hloop, hend⟩ := replayLoop_ends (i := 0) hrefuse (hcall.resolves hactor) hnamed
    (replayBatchSize_pos requested) (ReplayInv.start_inv hnamed hindex) hfuel
  refine ⟨e, fun fuel hlt => ?_, hend⟩
  rw [replay, hrefuse, hactor]
  exact replayLoop_mono hloop hlt

/-- Without a time, the targeted jobs are those of the scope in the named states, but for the
cancelled ones whose attempt still runs. -/
theorem ReplayOpts.selects_all (hsince : opts.failedSince = none) (db : Db) (r : JobRow) :
    opts.selects "" db r = (opts.inScope r && opts.replayStates.contains r.state &&
      !(opts.replayStates.contains .cancelled && cancelledAttemptStillRuns db r)) := by
  simp only [ReplayOpts.selects, ReplayOpts.inScope, ReplayOpts.skips, hsince, all_none,
    decide_true, Bool.true_or, Bool.and_true]

/-- **The counts of a replay are over disjoint jobs**, which together are those of its scope that
ended or run. -/
theorem ReplayOpts.count_targets (opts : ReplayOpts) (db : Db) (hstates : opts.states ≠ [])
    (hterminal : ∀ st ∈ opts.states, st.isTerminal = true) (hsince : opts.failedSince = none) :
    opts.countRunning db + opts.countTerminal db + (opts.targets db).length =
      db.jobs.rows.countP fun r =>
        opts.inScope r && (r.state.isTerminal || decide (r.state = .running)) := by
  have htargets : (opts.targets db).length = db.jobs.rows.countP (opts.selects "" db) := by
    rw [ReplayOpts.targets, length_insertionSort, countP_eq_length_filter]
  have hnamed : opts.replayStates = opts.states := if_neg hstates
  -- a job of the scope is in one count: it runs, or it ended and is named or not
  have hrow : ∀ inScope running ended named cancelled still : Bool,
    (running = true → ended = false) →
      (named = true → ended = true) → (still = true → named = cancelled ∧ ended = true) →
      (inScope && running).toNat + (if cancelled = true then (inScope && still).toNat else 0) +
        (inScope && ended && !named).toNat + (inScope && named && !(cancelled && still)).toNat =
        (inScope && (ended || running)).toNat := by decide
  have hcons : ∀ (p : JobRow → Bool) r rows, (r :: rows).countP p = rows.countP p +
    (p r).toNat := by
    grind
  rw [ReplayOpts.countRunning, ReplayOpts.countTerminal, htargets,
    funext (opts.selects_all hsince db)]
  simp only [hnamed, hsince, all_none, Bool.and_true]
  induction db.jobs.rows with
  | nil => simp
  | cons r rows ih =>
    have hr := hrow (opts.inScope r) (decide (r.state = .running)) r.state.isTerminal
      (opts.states.contains r.state) (opts.states.contains .cancelled)
      (cancelledAttemptStillRuns db r) ?_ ?_ ?_
    · simp only [hcons]
      split_ifs at ih hr ⊢ <;> omega
    · intro hrunning
      rw [of_decide_eq_true hrunning]
      rfl
    · exact fun hcontains => hterminal _ (contains_iff_mem.mp hcontains)
    · intro hstill
      rw [cancelledAttemptStillRuns, Bool.and_eq_true, decide_eq_true_iff] at hstill
      rw [hstill.1]
      exact ⟨rfl, rfl⟩

theorem ReplayOpts.refuse_eq_ok (hstates : opts.states ≠ [])
    (hterminal : ∀ st ∈ opts.states, st.isTerminal = true)
    (hforce : JobState.succeeded ∈ opts.states → opts.retry.force = true) :
    opts.refuse = .ok () := by
  have hnamed : opts.replayStates = opts.states := if_neg hstates
  have hrunning : ¬opts.states.contains .running = true := fun h =>
    absurd (hterminal _ (contains_iff_mem.mp h)) (by decide)
  have hsucceeded : ¬(!opts.retry.force && opts.states.contains .succeeded) = true := fun h => by
    simp_all
  rw [ReplayOpts.refuse, hnamed, if_neg hrunning, if_neg hsucceeded]

/-- **A replay accounts for every job in its scope.** Whatever the jobs and runs, the scope, the
named terminal states and the batch size, it ends, and unless the host's hook refused a batch its
counts add up to the jobs of the scope that had ended or ran when it began, and its batches examined
every targeted job once. In either case no running job, no cancelled job whose attempt still runs
and no job in a state that it does not name has changed. -/
theorem replay_accounts_for_scope (call : ℕ → Context) (opts : ReplayOpts) (requested : ℤ) (db : Db)
    (hcall : OneActor call) (actor : Actor) (hactor : resolveActor (call 0) = .ok actor)
    (hstates : opts.states ≠ []) (hterminal : ∀ st ∈ opts.states, st.isTerminal = true)
    (hforce : JobState.succeeded ∈ opts.states → opts.retry.force = true)
    (hsince : opts.failedSince = none) (hnamed : db.Named)
    (hindex : activeKeysUnique db.jobs = true) :
    ∃ e, (∀ fuel, db.jobs.rows.length < fuel →
        replay call false (fun _ => false) opts requested fuel db = some e) ∧
      (e.error = none ∨ e.error = some (.batch .auditHook) ∧ ∃ i, (call i).auditHook ≠ none) ∧
      (e.error = none →
        (e.result.changed + e.result.skippedTerminal + e.result.skippedRunning +
            e.result.skippedActiveKey = db.jobs.rows.countP fun r =>
          opts.inScope r && (r.state.isTerminal || decide (r.state = .running))) ∧
        e.examined.Nodup ∧
        ∀ id, id ∈ e.examined ↔ ∃ r ∈ db.jobs.rows, r.id = id ∧ opts.inScope r = true ∧
          r.state ∈ opts.states ∧ cancelledAttemptStillRuns db r = false) ∧
      ∀ r ∈ db.jobs.rows, (r.state = .running ∨ cancelledAttemptStillRuns db r = true ∨
        r.state ∉ opts.states) → e.db.jobs.get? r.id = some r := by
  have hrefuse := ReplayOpts.refuse_eq_ok hstates hterminal hforce
  have hsame : opts.replayStates = opts.states := if_neg hstates
  -- the targeted jobs, in the words of the statement
  have htarget : ∀ r, opts.selects "" db r = true ↔ opts.inScope r = true ∧ r.state ∈ opts.states ∧
      cancelledAttemptStillRuns db r = false := by
    intro r
    rw [opts.selects_all hsince, hsame, Bool.and_eq_true, Bool.and_eq_true, and_assoc,
      contains_iff_mem, Bool.not_eq_true']
    refine and_congr_right fun _ => and_congr_right fun hstate => ?_
    cases hstill : cancelledAttemptStillRuns db r with
    | false => simp
    | true =>
      simp_all [cancelledAttemptStillRuns]
  obtain ⟨e, hends, hend⟩ := replay_ends call requested hcall hactor hrefuse hnamed hindex
  refine ⟨e, hends, ?_, fun hok => ?_, fun r hr hleft => ?_⟩
  · grind
  · rcases hend with ⟨-, hinv⟩ | ⟨herror, -⟩
    · have hcount := opts.count_targets db hstates hterminal hsince
      have hskipped := hinv.skipped
      obtain ⟨hrunning, hterm⟩ := hinv.counted
      refine ⟨by omega, ?_, fun id => ?_⟩
      · rw [hinv.examined]
        exact pairwise_map.mpr ((ascending_rows db.jobs _).imp fun hlt => ne_of_lt hlt)
      · rw [hinv.examined, List.mem_map]
        constructor
        · rintro ⟨r, hr, rfl⟩
          obtain ⟨hr, hselects⟩ := opts.mem_targets.mp hr
          exact ⟨r, hr, rfl, (htarget r).mp hselects⟩
        · rintro ⟨r, hr, hid, hselects⟩
          exact ⟨r, opts.mem_targets.mpr ⟨hr, (htarget r).mpr hselects⟩, hid⟩
    · simp_all
  · have hno : r ∉ opts.targets db := fun hin => by
      obtain ⟨-, hstate, hstill⟩ := (htarget r).mp (opts.mem_targets.mp hin).2
      rcases hleft with hrunning | hruns | hout
      · exact absurd (hterminal _ hstate) (by rw [hrunning]; decide)
      · simp_all
      · exact hout hstate
    have hkept : ∀ done, done.Sublist (opts.targets db) →
        ReplayInv opts ((call 0).clock 0) db done e.toReplayRun → e.db.jobs.get? r.id = some r := by
      intro done hsub hinv
      rw [hinv.get?_past fun t ht hid => ?_]
      · exact get?_key hr
      · have ht := hsub.subset ht
        exact hno (eq_of_key_eq (opts.mem_targets.mp ht).1 hr hid ▸ ht)
    grind

/-- A stored job that ended with an active key. -/
def replayableJob (id key : String) : JobRow :=
  { freshRow id "work" "default" 0 { tags := .null, metadata := .null } .null with
    state := .discarded, uniqueActiveKey := some key }

/-- Two jobs that ended with one key. -/
def twoEnded : Db :=
  { jobs := { rows := [replayableJob "a" "key", replayableJob "b" "key"], nodup := by decide } }

theorem replay_accounts_for_two :
    ∃ e, replay (fun _ => {}) false (fun _ => false) { states := [.discarded] } 1 3 twoEnded =
      some e ∧
      (e.error = none → e.result.changed + e.result.skippedTerminal + e.result.skippedRunning +
        e.result.skippedActiveKey = 2) := by
  obtain ⟨e, hends, -, haccounts, -⟩ := replay_accounts_for_scope (fun _ => {})
    { states := [.discarded] } 1 twoEnded (fun _ => rfl) {} rfl (by decide) (by decide)
      (by decide) rfl
    (by unfold Db.Named; decide) (by decide)
  exact ⟨e, hends 3 (by decide), fun hok => (haccounts hok).1⟩

/-- A job without an id whose key another job holds. -/
def namelessHeld : Db :=
  { jobs := { rows := [replayableJob "" "key", { replayableJob "a" "key" with state := .available }]
              nodup := by decide } }

theorem replayLoop_nameless (fuel i : ℕ) (hdb : s.db = namelessHeld) (hcursor : s.pos.cursor = "") :
    replayLoop (fun _ => {}) (fun _ => false) { states := [.discarded] } 1 fuel i s = none := by
  induction fuel generalizing i s with
  | zero => rfl
  | succ fuel ih =>
    obtain ⟨db, ⟨cursor, now, total, placed⟩, result, races, examined⟩ := s
    obtain rfl := hdb
    obtain rfl := hcursor
    exact ih (i + 1) rfl rfl

/-- **A job without an id holds a replay up.** Its id is the cursor that stands for none, so that a
batch which leaves it terminal for its key is followed by the same batch. -/
theorem replay_nameless_never_ends :
    activeKeysUnique namelessHeld.jobs = true ∧
      ∀ fuel, replay (fun _ => {}) false (fun _ => false) { states := [.discarded] } 1 fuel
        namelessHeld = none :=
  ⟨by decide, fun fuel => replayLoop_nameless fuel 0 rfl rfl⟩

end Flywheel
