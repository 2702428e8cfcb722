import Flywheel.Insert

/-!
# Batch inserts

`InsertMany` (`batch.go`) writes its rows in chunks, one conflict-skipping statement each, and reads
back which rows landed; `Client.insert` writes one row and learns from its conflict. `landing` is
what both come to: of the keys of the requests in order, which find neither of their keys held, by a
stored job or by a request before them. Whether a row conflicts is a matter of the keys that the
table holds (`conflicts_eq`), and what a chunk reads back is what landed, so that neither the
chunks' size nor the minted ids and times play a part.
-/

namespace Flywheel

open Relational Transition List Table

/-! ## InsertMany -/

/-- `jobRowColumns` -/
def jobRowColumns : ℕ := 24

/-- `chunkSizeFor`: the rows of a statement, on each dialect. -/
def chunkSizeFor (dialect : Dialect) (requested : ℤ) : ℕ :=
  let (default, hardMax) := match dialect with
    | .postgres => (1000, 65535 / jobRowColumns)
    | .sqlite => (500, 32766 / jobRowColumns)
  if requested ≤ 0 then default else if hardMax < requested then hardMax else requested.toNat

/-- `BatchOpts`. Its `Tx` only picks the handle that the rows are written on. -/
structure BatchOpts where
  chunkSize : ℤ := 0
  skipDuplicates : Bool := false

/-- `BatchResult` -/
structure BatchResult where
  ids : List String := []
  existingIDs : List String := []
  inserted : ℕ := 0
  skipped : ℕ := 0
  chunks : ℕ := 0

/-- `InsertMany`'s errors: the item that was refused, or the chunk that failed. -/
inductive BatchError where
  | item (index : ℕ) (e : TxError)
  | chunk (index : ℕ) (e : TxError)

/-- `readKeyHolders` and `holderOf`: the id of the job that holds a unique key, unless it is empty,
else of the live job that holds an active key, else nothing. -/
def holderOf (db : Db) (uniqueKey activeKey : Option String) : String :=
  let byKey := db.jobs.rows.find? fun r => uniqueKey.isSome && decide (r.uniqueKey = uniqueKey)
  let byActiveKey := db.jobs.rows.find? fun r =>
    activeKey.isSome && r.live && decide (r.uniqueActiveKey = activeKey)
  orString ((byKey.map JobRow.id).getD "") ((byActiveKey.map JobRow.id).getD "")

/-- The rows of a batch, with the index of an item that is refused. -/
def buildBatch (ctx : Context) : ℕ → List BatchItem → Except BatchError (List JobRow) :=
  buildRows .item ctx

/-- The report of one chunk: a row that did not land has its id cleared, and is counted as skipped,
with the holder of its key named, unless duplicates are dropped silently. -/
def BatchResult.addChunk (res : BatchResult) (opts : BatchOpts) (chunk : List JobRow)
    (landed : List String) (db : Db) : BatchResult where
  ids := res.ids ++ chunk.map fun r => if r.id ∈ landed then r.id else ""
  existingIDs := res.existingIDs ++ chunk.map fun r =>
    if r.id ∈ landed ∨ opts.skipDuplicates then "" else holderOf db r.uniqueKey r.uniqueActiveKey
  inserted := res.inserted + chunk.countP fun r => decide (r.id ∈ landed)
  skipped := res.skipped +
    if opts.skipDuplicates then 0 else chunk.countP fun r => decide (r.id ∉ landed)
  chunks := res.chunks + 1

/-- The report when a chunk failed: the ids from it on are cleared. -/
def BatchResult.clearRest (res : BatchResult) (n : ℕ) : BatchResult :=
  { res with
    ids := res.ids ++ List.replicate n ""
    existingIDs := res.existingIDs ++ List.replicate n "" }

/-- The loop over the chunks. A chunk is never empty, so that the list's length bounds them. -/
def insertManyLoop (now : Time) (opts : BatchOpts) (size : ℕ) :
    ℕ → List JobRow → Db → BatchResult → Db × BatchResult × Option BatchError
  | 0, _, db, res => (db, res, none)
  | fuel + 1, rows, db, res =>
    if rows = [] then (db, res, none)
    else match conflictInsertChunk now (rows.take size) db with
      | .error e => (db, res.clearRest rows.length, some (.chunk res.chunks e))
      | .ok (db, landed) =>
        insertManyLoop now opts size fuel (rows.drop size) db
          (res.addChunk opts (rows.take size) landed db)

/-- `InsertMany`: each chunk commits on its own, and a failed one ends the loop. -/
def insertMany (dialect : Dialect) (ctx : Context) (items : List BatchItem) (opts : BatchOpts)
    (db : Db) : Db × BatchResult × Option BatchError :=
  if items = [] then (db, {}, none)
  else match buildBatch ctx 0 items with
    | .error e => (db, {}, some e)
    | .ok rows =>
      insertManyLoop (ctx.clock 0) opts (chunkSizeFor dialect opts.chunkSize) rows.length rows db {}

/-- The requests enqueued one after another, each a call of its own: the ids of those that
landed. -/
def enqueueEach (call : ℕ → Context) : ℕ → List BatchItem → Db →
    Except TxError (Db × List (Option String))
  | _, [], db => .ok (db, [])
  | k, item :: items, db => do
    let (db, id) ← Client.insert (call k) item.kind item.args item.opts .client "" db
    let (db, ids) ← enqueueEach call (k + 1) items db
    return (db, id :: ids)

/-! ## Which requests land -/

/-- The keys that a table holds: the unique keys, and the active keys of live rows. -/
structure HeldKeys where
  unique : List String
  active : List String

/-- The keys that the stored jobs hold. -/
def heldKeys (jobs : Table JobRow.id) : HeldKeys where
  unique := jobs.rows.filterMap JobRow.uniqueKey
  active := (jobs.rows.filter JobRow.live).filterMap JobRow.uniqueActiveKey

/-- The two keys of a request or of a row. -/
structure RowKeys where
  unique : Option String
  active : Option String

/-- A request finds one of its keys held. -/
def HeldKeys.holds (h : HeldKeys) (k : RowKeys) : Bool :=
  k.unique.any h.unique.contains || k.active.any h.active.contains

/-- The keys held with those of a request that landed. -/
def HeldKeys.add (h : HeldKeys) (k : RowKeys) : HeldKeys where
  unique := h.unique ++ k.unique.toList
  active := h.active ++ k.active.toList

/-- **Which of the requests land**: those that find neither of their keys held, by a stored job or
by a request that landed before. -/
def landing : HeldKeys → List RowKeys → List Bool
  | _, [] => []
  | h, k :: ks => bif h.holds k then false :: landing h ks else true :: landing (h.add k) ks

/-- The keys of a request. -/
def BatchItem.keys (item : BatchItem) : RowKeys where
  unique := keyColumn item.opts.uniqueKey
  active := keyColumn item.opts.uniqueActiveKey

/-- The keys of a row. -/
def JobRow.keys (r : JobRow) : RowKeys where
  unique := r.uniqueKey
  active := r.uniqueActiveKey

variable {item : BatchItem} {ctx : Context} {r : JobRow}

/-- The job holds the unique key, or, live, the active key. -/
def JobRow.blocks (s : JobRow) (k : RowKeys) : Prop :=
  (k.unique.isSome = true ∧ s.uniqueKey = k.unique) ∨
    (k.active.isSome = true ∧ s.live = true ∧ s.uniqueActiveKey = k.active)

variable {jobs : Table JobRow.id}

/-- Keys are held when a stored row blocks them. -/
theorem holds_iff {k : RowKeys} : (heldKeys jobs).holds k = true ↔ ∃ s ∈ jobs.rows, s.blocks k := by
  obtain ⟨unique, active⟩ := k
  simp only [HeldKeys.holds, heldKeys, JobRow.blocks, Bool.or_eq_true, and_or_left, exists_or]
  refine or_congr ?_ ?_
  · cases unique <;> simp
  · cases active <;> simp [and_assoc]

/-- **A live row with a new id conflicts exactly when a key of its is held.** -/
theorem conflicts_eq (hlive : r.live = true) (hnew : jobs.get? r.id = none) :
    jobs.conflicts uniqueClash r = (heldKeys jobs).holds r.keys := by
  have hid : ∀ s ∈ jobs.rows, s.id ≠ r.id := get?_eq_none_iff.mp hnew
  rw [Bool.eq_iff_iff, holds_iff, Table.conflicts, any_eq_true]
  refine exists_congr fun s => and_congr_right fun hs => ?_
  simp_all [uniqueClash, JobRow.blocks, JobRow.keys, and_assoc]

/-- A live row that lands adds its keys to those held. -/
theorem heldKeys_insert (hlive : r.live = true) (h : jobs.conflicts uniqueClash r = false) :
    heldKeys (jobs.insert uniqueClash r) = (heldKeys jobs).add r.keys := by
  have hrows : (jobs.insert uniqueClash r).rows = jobs.rows ++ [r] := by
    rw [Table.insert, dif_neg (by rw [h]; exact Bool.false_ne_true)]
  rw [heldKeys, hrows, filterMap_append, filter_append, filterMap_append, filter_cons_of_pos hlive]
  cases hunique : r.uniqueKey <;> cases hactive : r.uniqueActiveKey <;>
    simp [heldKeys, HeldKeys.add, JobRow.keys, hunique, hactive]

variable {rows : List JobRow}

/-- **The rows that land are those whose keys are free.** -/
theorem landings_eq (hlive : ∀ r ∈ rows, r.live = true) (hnew : ∀ r ∈ rows, jobs.get? r.id = none)
    (hnodup : (rows.map JobRow.id).Nodup) :
    jobs.landings uniqueClash rows = landing (heldKeys jobs) (rows.map JobRow.keys) := by
  induction rows generalizing jobs with
  | nil => rfl
  | cons r rows ih =>
    obtain ⟨hr, hrows⟩ := nodup_cons.mp hnodup
    have hrlive := hlive r mem_cons_self
    have hconflicts := conflicts_eq hrlive (hnew r mem_cons_self)
    have hnew' : ∀ s ∈ rows, (jobs.insert uniqueClash r).get? s.id = none := by
      intro s hs
      have hne : ¬(jobs.conflicts uniqueClash r = false ∧ r.id = s.id) := fun h =>
        hr (h.2 ▸ mem_map_of_mem hs)
      rw [get?_insert, if_neg hne]
      exact hnew s (mem_cons_of_mem r hs)
    rw [Table.landings, ih (fun s hs => hlive s (mem_cons_of_mem r hs)) hnew' hrows,
      map_cons, landing, hconflicts]
    cases hheld : (heldKeys jobs).holds r.keys with
    | true =>
      have hsame : jobs.insert uniqueClash r = jobs := dif_pos (hconflicts.trans hheld)
      rw [hsame]
      rfl
    | false => simp_all [heldKeys_insert]

/-! ## The batch -/

/-- New rows for a table: with ids of their own that it does not hold. -/
structure FreshRows (jobs : Table JobRow.id) (rows : List JobRow) : Prop where
  new : ∀ r ∈ rows, NewRow r
  absent : ∀ r ∈ rows, jobs.get? r.id = none
  nodup : (rows.map JobRow.id).Nodup

/-- New rows that have a kind. -/
structure NewRows (jobs : Table JobRow.id) (rows : List JobRow) :
    Prop extends FreshRows jobs rows where
  kind : ∀ r ∈ rows, r.kind ≠ ""

/-- A new row is live. -/
theorem NewRow.live (h : NewRow r) : r.live = true := by
  rw [JobRow.live, h.state]
  rfl

variable {jobs : Table JobRow.id} {rows : List JobRow} {now : Time} {db : Db} {ctx' : Context}

/-- `BeforeCreate` keeps the ids. -/
theorem map_defaulted_id (now : Time) (rows : List JobRow) :
    (rows.map (JobRow.defaulted now)).map JobRow.id = rows.map JobRow.id := by
  rw [map_map]
  rfl

/-- Fresh rows land where their keys are free. -/
theorem FreshRows.landings (h : FreshRows jobs rows) (now : Time) :
    jobs.landings uniqueClash (rows.map (JobRow.defaulted now)) =
      landing (heldKeys jobs) (rows.map JobRow.keys) := by
  have hkeys : (rows.map (JobRow.defaulted now)).map JobRow.keys = rows.map JobRow.keys := by
    rw [map_map]
    rfl
  rw [← hkeys]
  refine landings_eq (fun r hr => ?_) (fun r hr => ?_) ?_
  · obtain ⟨s, hs, rfl⟩ := mem_map.mp hr
    exact ((h.new s hs).defaulted now).live
  · obtain ⟨s, hs, rfl⟩ := mem_map.mp hr
    exact h.absent s hs
  · rw [map_defaulted_id]
    exact h.nodup

/-- The rows that follow a chunk are new for the table that it leaves. -/
theorem FreshRows.rest (h : FreshRows jobs rows) (size : ℕ) (now : Time) :
    FreshRows (jobs.insertAll uniqueClash ((rows.take size).map (JobRow.defaulted now)))
      (rows.drop size) := by
  have hmem : ∀ r ∈ rows.drop size, r ∈ rows := fun r hr => mem_of_mem_drop hr
  refine ⟨fun r hr => h.new r (hmem r hr), fun r hr => ?_, ?_⟩
  · cases hget : (jobs.insertAll uniqueClash ((rows.take size).map (JobRow.defaulted now))).get?
      r.id with
    | none => rfl
    | some s =>
      rcases get?_insertAll_cases uniqueClash _ hget with hold | ⟨-, hs, hid⟩
      · rw [h.absent r (hmem r hr)] at hold
        cases hold
      · -- an id of the chunk is none of the rest
        have hsplit : ((rows.take size).map JobRow.id ++ (rows.drop size).map JobRow.id).Nodup := by
          rw [← map_append, take_append_drop]
          exact h.nodup
        obtain ⟨t, ht, rfl⟩ := mem_map.mp hs
        have hid : t.id = r.id := hid
        have ht' : r.id ∈ (rows.take size).map JobRow.id := hid ▸ mem_map_of_mem ht
        exact absurd (mem_map_of_mem hr) (disjoint_of_nodup_append hsplit ht')
  · rw [map_drop]
    exact h.nodup.sublist (drop_sublist _ _)

/-- A chunk of fresh rows is fresh. -/
theorem FreshRows.chunk (h : FreshRows jobs rows) (size : ℕ) : FreshRows jobs (rows.take size) where
  new r hr := h.new r (mem_of_mem_take hr)
  absent r hr := h.absent r (mem_of_mem_take hr)
  nodup := by
    rw [map_take]
    exact h.nodup.sublist (take_sublist _ _)

/-- The rows after a chunk are new to the table that the chunk leaves. -/
theorem NewRows.rest (h : NewRows jobs rows) (size : ℕ) (now : Time) :
    NewRows (jobs.insertAll uniqueClash ((rows.take size).map (JobRow.defaulted now)))
      (rows.drop size) :=
  ⟨h.toFreshRows.rest size now, fun r hr => h.kind r (mem_of_mem_drop hr)⟩

/-- A chunk of new rows is new. -/
theorem NewRows.chunk (h : NewRows jobs rows) (size : ℕ) : NewRows jobs (rows.take size) :=
  ⟨h.toFreshRows.chunk size, fun r hr => h.kind r (mem_of_mem_take hr)⟩

/-- Rows without keys all land. -/
theorem landing_keyless (h : HeldKeys) (hrows : chunkHasUniqueKey rows = false) :
    landing h (rows.map JobRow.keys) = rows.map fun _ => true := by
  induction rows generalizing h with
  | nil => rfl
  | cons r rows ih =>
    rw [chunkHasUniqueKey, any_cons, Bool.or_eq_false_iff, Bool.or_eq_false_iff] at hrows
    obtain ⟨⟨hunique, hactive⟩, hrows⟩ := hrows
    have hfree : h.holds r.keys = false := by
      simp_all [HeldKeys.holds, JobRow.keys]
    rw [map_cons, landing, hfree, cond_false, ih _ hrows, map_cons]

/-- The database after a statement of these rows. -/
def Db.insertRows (db : Db) (now : Time) (rows : List JobRow) : Db :=
  { db with jobs := db.jobs.insertAll uniqueClash (rows.map (JobRow.defaulted now)) }

/-- Rows are inserted one part after the other. -/
theorem insertRows_append (db : Db) (now : Time) (rows rows' : List JobRow) :
    db.insertRows now (rows ++ rows') = (db.insertRows now rows).insertRows now rows' := by
  rw [Db.insertRows, map_append, insertAll_append]
  rfl

/-- A fresh row is visible where it is stored. -/
theorem FreshRows.job? (h : FreshRows db.jobs rows) (now : Time) (hr : r ∈ rows) :
    (db.insertRows now rows).job? r.id = (db.insertRows now rows).jobs.get? r.id := by
  change Option.filter _ _ = _
  cases hget : (db.insertRows now rows).jobs.get? r.id with
  | none => rfl
  | some s =>
    rcases get?_insertAll_cases uniqueClash _ hget with hold | ⟨-, hs, -⟩
    · rw [h.absent r hr] at hold
      cases hold
    · obtain ⟨t, ht, rfl⟩ := mem_map.mp hs
      have hvisible : t.deletedAt.isNone = true := by rw [(h.new t ht).deletedAt]; rfl
      exact Option.filter_eq_some_iff.mpr ⟨rfl, hvisible⟩

/-- What reads back is what landed. -/
theorem FreshRows.readBack (h : FreshRows db.jobs rows) (now : Time) :
    rows.map (fun r => ((db.insertRows now rows).jobs.get? r.id).isSome) =
      landing (heldKeys db.jobs) (rows.map JobRow.keys) := by
  have habsent : ∀ r ∈ rows.map (JobRow.defaulted now), db.jobs.get? r.id = none := by
    intro r hr
    obtain ⟨s, hs, rfl⟩ := mem_map.mp hr
    exact h.absent s hs
  have hnodup : ((rows.map (JobRow.defaulted now)).map JobRow.id).Nodup := by
    rw [map_defaulted_id]
    exact h.nodup
  have hread := isSome_get?_insertAll uniqueClash habsent hnodup
  rw [h.landings, map_map] at hread
  exact hread

/-- **What a chunk reports as landed is what landed.** -/
theorem landedRows_eq (h : FreshRows db.jobs rows) (now : Time) :
    rows.map (fun r => decide (r.id ∈ landedRows rows (db.insertRows now rows))) =
      landing (heldKeys db.jobs) (rows.map JobRow.keys) := by
  rw [landedRows]
  by_cases hkeyed : chunkHasUniqueKey rows = true
  · rw [if_pos hkeyed, ← h.readBack now]
    refine map_congr_left fun r hr => ?_
    rw [Bool.eq_iff_iff, decide_eq_true_iff, mem_filter, h.job? now hr]
    exact and_iff_right (mem_map_of_mem hr)
  · rw [if_neg hkeyed, landing_keyless _ (Bool.eq_false_iff.mpr hkeyed)]
    grind [map_congr_left]

/-- A chunk of new rows is inserted, and reports what reads back. -/
theorem conflictInsertChunk_new (h : NewRows db.jobs rows) (now : Time) (hrows : rows ≠ []) :
    conflictInsertChunk now rows db =
      .ok (db.insertRows now rows, landedRows rows (db.insertRows now rows)) := by
  have hkinds : (rows.any fun r => decide (r.kind = "")) = false :=
    any_eq_false.mpr fun r hr => by simpa using h.kind r hr
  rw [conflictInsertChunk, if_neg hrows, insertSkippingConflicts, if_neg (by rw [hkinds]; decide)]
  rfl

/-- The ids of the rows, cleared where a row did not land. -/
def landedIDs (flags : List Bool) (rows : List JobRow) : List String :=
  List.zipWith (fun landed r => if landed then r.id else "") flags rows

/-- The report of a batch, of which these requests landed. -/
structure Reports (opts : BatchOpts) (res res' : BatchResult) (flags : List Bool)
    (rows : List JobRow) : Prop where
  ids : res'.ids = res.ids ++ landedIDs flags rows
  inserted : res'.inserted = res.inserted + flags.count true
  skipped : res'.skipped = res.skipped + if opts.skipDuplicates then 0 else flags.count false

/-- A chunk's report says which of its rows landed. -/
theorem reports_addChunk (opts : BatchOpts) (res : BatchResult) (rows : List JobRow)
    (landed : List String) (db : Db) :
    Reports opts res (res.addChunk opts rows landed db)
      (rows.map fun r => decide (r.id ∈ landed)) rows := by
  refine ⟨?_, ?_, ?_⟩
  · simp_all [landedIDs, zipWith_map_left, BatchResult.addChunk]
  · rw [count_eq_countP, countP_map]
    simp [BatchResult.addChunk, Function.comp_def]
  · rw [count_eq_countP, countP_map]
    simp [BatchResult.addChunk, Function.comp_def]

/-- The reports of the chunks are the report of the batch. -/
theorem Reports.append {opts : BatchOpts} {res res' res'' : BatchResult} {flags flags' : List Bool}
    {rows rows' : List JobRow} (h : Reports opts res res' flags rows)
    (h' : Reports opts res' res'' flags' rows') (hlength : flags.length = rows.length) :
    Reports opts res res'' (flags ++ flags') (rows ++ rows') := by
  refine ⟨?_, ?_, ?_⟩
  · rw [h'.ids, h.ids, append_assoc, landedIDs, landedIDs, landedIDs, zipWith_append hlength]
  · rw [h'.inserted, h.inserted, count_append, Nat.add_assoc]
  · rw [h'.skipped, h.skipped, count_append]
    split_ifs <;> omega

/-- Every row lands or does not. -/
theorem length_landing (h : HeldKeys) (ks : List RowKeys) : (landing h ks).length = ks.length := by
  induction ks generalizing h with
  | nil => rfl
  | cons k ks ih => grind [landing]

/-- A batch lands as its first chunk does, and then as the rest does. -/
theorem FreshRows.landing_split (h : FreshRows db.jobs rows) (now : Time) (size : ℕ) :
    landing (heldKeys db.jobs) (rows.map JobRow.keys) =
      landing (heldKeys db.jobs) ((rows.take size).map JobRow.keys) ++
        landing (heldKeys (db.insertRows now (rows.take size)).jobs)
          ((rows.drop size).map JobRow.keys) := by
  have hsplit := landings_append uniqueClash db.jobs
    ((rows.take size).map (JobRow.defaulted now)) ((rows.drop size).map (JobRow.defaulted now))
  rw [← map_append, take_append_drop, h.landings, (h.chunk size).landings] at hsplit
  exact hsplit.trans (congrArg _ ((h.rest size now).landings now))

/-- No row, nothing to report. -/
theorem Reports.nil (opts : BatchOpts) (res : BatchResult) : Reports opts res res [] [] :=
  ⟨(append_nil _).symm, rfl, by cases opts.skipDuplicates <;> rfl⟩

/-- **The loop lands what the keys let land**, whatever the chunks' size. -/
theorem insertManyLoop_eq (now : Time) (opts : BatchOpts) {size : ℕ} (hsize : 0 < size) {fuel : ℕ}
    (hfuel : rows.length ≤ fuel) (h : NewRows db.jobs rows) (res : BatchResult) :
    ∃ res', insertManyLoop now opts size fuel rows db res = (db.insertRows now rows, res', none) ∧
      Reports opts res res' (landing (heldKeys db.jobs) (rows.map JobRow.keys)) rows := by
  induction fuel generalizing rows db res with
  | zero =>
    obtain rfl := eq_nil_of_length_eq_zero (Nat.le_zero.mp hfuel)
    exact ⟨res, rfl, Reports.nil opts res⟩
  | succ fuel ih =>
    rw [insertManyLoop]
    by_cases hrows : rows = []
    · subst hrows
      exact ⟨res, rfl, Reports.nil opts res⟩
    · have hchunk : rows.take size ≠ [] := by
        rw [Ne, take_eq_nil_iff]
        exact not_or.mpr ⟨hsize.ne', hrows⟩
      have hshorter : (rows.drop size).length ≤ fuel := by
        grind
      have hrest : NewRows (db.insertRows now (rows.take size)).jobs (rows.drop size) :=
        h.rest size now
      have hfirst := reports_addChunk opts res (rows.take size)
        (landedRows (rows.take size) (db.insertRows now (rows.take size)))
        (db.insertRows now (rows.take size))
      rw [landedRows_eq (h.toFreshRows.chunk size) now] at hfirst
      rw [if_neg hrows, conflictInsertChunk_new (h.chunk size) now hchunk]
      obtain ⟨res', hloop, hreports⟩ := ih hshorter hrest _
      refine ⟨res', hloop.trans ?_, ?_⟩
      · rw [← insertRows_append, take_append_drop]
      · rw [h.toFreshRows.landing_split now size]
        have hlength := length_landing (heldKeys db.jobs) ((rows.take size).map JobRow.keys)
        rw [length_map] at hlength
        simpa only [take_append_drop] using hfirst.append hreports hlength

/-! ## The requests -/

/-- The client accepts a request: it names a kind, and its tags and metadata are within their
rules. -/
def Accepts (ctx : Context) (item : BatchItem) : Prop :=
  item.kind ≠ "" ∧
    ∃ st, stampFor ctx item.kind (applyDefaults (ctx.registry item.kind) item.opts) = .ok st

/-- Two calls through one client, under the same request. -/
structure SameClient (ctx ctx' : Context) : Prop where
  requestID : ctx'.requestID = ctx.requestID
  registry : ctx'.registry = ctx.registry
  insertHook : ctx'.insertHook = ctx.insertHook
  jsonBytes : ctx'.jsonBytes = ctx.jsonBytes

/-- The first `n` of these ids differ, and no stored job has one. -/
structure NewIDs (jobs : Table JobRow.id) (n : ℕ) (newID : ℕ → String) : Prop where
  unused : ∀ i < n, jobs.get? (newID i) = none
  distinct : ∀ j < n, ∀ i < j, newID i ≠ newID j

/-- Calls of one client stamp alike. -/
theorem SameClient.stampFor (h : SameClient ctx ctx') (kind : String)
    (opts : InsertOpts) : stampFor ctx' kind opts = stampFor ctx kind opts := by
  simp only [Flywheel.stampFor, stampFrom, stampRow, metadataJSON, h.insertHook, h.requestID,
    h.jsonBytes]

/-- A client accepts the same requests in each of its calls. -/
theorem SameClient.accepts (h : SameClient ctx ctx') (hitem : Accepts ctx item) :
    Accepts ctx' item := by
  obtain ⟨hkind, st, hst⟩ := hitem
  refine ⟨hkind, st, ?_⟩
  rw [h.stampFor, h.registry, hst]

/-- The row of a request. -/
structure RowOf (item : BatchItem) (id : String) (r : JobRow) : Prop extends NewRow r where
  id : r.id = id
  kind : r.kind = item.kind
  args : r.args = item.args
  keys : r.keys = item.keys

/-- An item's row is its row after `BeforeCreate`. -/
theorem RowOf.defaulted {id : String} (h : RowOf item id r) (now : Time) :
    RowOf item id (r.defaulted now) :=
  ⟨(h.toNewRow.defaulted now).toNewRow, h.id, h.kind, h.args, h.keys⟩

/-- The built row is the item's. -/
theorem rowOf_buildRow (ctx : Context) (k : ℕ) (item : BatchItem) (st : Stamp) :
    RowOf item (ctx.newID k) (buildRow ctx k item.kind item.args
      (applyDefaults (ctx.registry item.kind) item.opts) st) := by
  refine ⟨⟨rfl, rfl, rfl, rfl, rfl, rfl, rfl, rfl⟩, rfl, rfl, rfl, ?_⟩
  obtain ⟨hunique, hactive⟩ := applyDefaults_keys (ctx.registry item.kind) item.opts
  exact congrArg₂ RowKeys.mk (congrArg keyColumn hunique) (congrArg keyColumn hactive)

/-- The rows of the requests, with the ids that the call minted from the `k`-th on. -/
inductive RowsOf (newID : ℕ → String) : ℕ → List BatchItem → List JobRow → Prop where
  | nil {k : ℕ} : RowsOf newID k [] []
  | cons {k : ℕ} {item : BatchItem} {r : JobRow} {items : List BatchItem} {rows : List JobRow}
      (head : RowOf item (newID k) r) (tail : RowsOf newID (k + 1) items rows) :
      RowsOf newID k (item :: items) (r :: rows)

variable {items : List BatchItem}

/-- The built rows are the items', in their order. -/
theorem rowsOf_buildBatch {k : ℕ}
    (h : buildBatch ctx k items = .ok rows) : RowsOf ctx.newID k items rows := by
  induction items generalizing k rows with
  | nil =>
    cases h
    exact .nil
  | cons item items ih =>
    obtain ⟨st, -, h⟩ := bind_eq_ok.mp h
    obtain ⟨rest, hrest, h⟩ := bind_eq_ok.mp h
    cases h
    exact .cons (rowOf_buildRow ctx k item st) (ih hrest)

/-- Accepted items have their rows built. -/
theorem buildBatch_rows (h : ∀ item ∈ items, Accepts ctx item) (k : ℕ) :
    ∃ rows, buildBatch ctx k items = .ok rows := by
  induction items generalizing k with
  | nil => exact ⟨[], rfl⟩
  | cons item items ih =>
    obtain ⟨-, st, hst⟩ := h item mem_cons_self
    obtain ⟨rows, hrows⟩ := ih (fun i hi => h i (mem_cons_of_mem _ hi)) (k + 1)
    rw [buildBatch, buildRows, hst]
    exact ⟨_, bind_eq_ok.mpr ⟨st, rfl, bind_eq_ok.mpr ⟨rows, hrows, rfl⟩⟩⟩

variable {newID : ℕ → String} {k : ℕ} {items : List BatchItem}

section

variable (h : RowsOf newID k items rows)

include h

/-- The rows carry their items' keys. -/
theorem RowsOf.keys : rows.map JobRow.keys = items.map BatchItem.keys := by
  induction h with
  | nil => rfl
  | cons head _ ih => rw [map_cons, map_cons, head.keys, ih]

/-- The rows carry the minted ids, in their order. -/
theorem RowsOf.ids : rows.map JobRow.id = (List.range' k items.length).map newID := by
  induction h with
  | nil => rfl
  | cons head _ ih => rw [map_cons, head.id, ih, length_cons, range'_succ, map_cons]

/-- The row at a place is that of the item there. -/
theorem RowsOf.getElem? {i : ℕ} (hi : rows[i]? = some r) :
    ∃ item, items[i]? = some item ∧ RowOf item (newID (k + i)) r := by
  induction h generalizing i with
  | nil => cases hi
  | @cons k item _ items _ head _ ih =>
    cases i with
    | zero => simp_all
    | succ i => simp_all [Nat.add_right_comm, Nat.add_assoc]

/-- Every row is some item's. -/
theorem RowsOf.rowOf (hr : r ∈ rows) :
    ∃ i item, items[i]? = some item ∧ RowOf item (newID (k + i)) r := by
  obtain ⟨i, hi⟩ := mem_iff_getElem?.mp hr
  exact ⟨i, h.getElem? hi⟩

end

/-- New ids are distinct. -/
theorem NewIDs.inj {n i j : ℕ} (h : NewIDs jobs n newID) (hi : i < n) (hj : j < n)
    (hij : newID i = newID j) : i = j := by
  rcases lt_trichotomy i j with hlt | heq | hgt
  · exact absurd hij (h.distinct j hj i hlt)
  · exact heq
  · exact absurd hij.symm (h.distinct i hi j hgt)

/-- Rows under new ids are fresh. -/
theorem RowsOf.freshRows (h : RowsOf newID 0 items rows) (hids : NewIDs jobs items.length newID) :
    FreshRows jobs rows := by
  refine ⟨fun r hr => ?_, fun r hr => ?_, ?_⟩
  · obtain ⟨_, _, _, hof⟩ := h.rowOf hr
    exact hof.toNewRow
  · obtain ⟨i, item, hi, hof⟩ := h.rowOf hr
    rw [hof.id, Nat.zero_add]
    exact hids.unused i (List.getElem?_eq_some_iff.mp hi).1
  · rw [h.ids, ← range_eq_range', nodup_map_iff_inj_on nodup_range]
    intro i hi j hj hij
    exact hids.inj (mem_range.mp hi) (mem_range.mp hj) hij

/-- Items that have a kind give new rows. -/
theorem RowsOf.newRows (h : RowsOf newID 0 items rows) (hkinds : ∀ item ∈ items, item.kind ≠ "")
    (hids : NewIDs jobs items.length newID) : NewRows jobs rows := by
  refine ⟨h.freshRows hids, fun r hr => ?_⟩
  obtain ⟨i, item, hi, hof⟩ := h.rowOf hr
  rw [hof.kind]
  exact hkinds item (mem_of_getElem? hi)

/-! ## One by one -/

/-- The requests whose rows a database holds, under these ids. -/
def storedAt (newID : ℕ → String) (items : List BatchItem) (db : Db) : List Bool :=
  items.mapIdx fun i _ => (db.job? (newID i)).isSome

/-- The insert of one accepted item: its row, unless its keys are held. -/
theorem Client.insert_accepted (h : Accepts ctx item) (hnew : db.jobs.get? (ctx.newID 0) = none) :
    ∃ r, RowOf item (ctx.newID 0) r ∧
      Client.insert ctx item.kind item.args item.opts .client "" db =
        .ok (bif (heldKeys db.jobs).holds item.keys then (db, none)
          else ({ db with jobs := db.jobs.insert uniqueClash r }, some (ctx.newID 0))) := by
  obtain ⟨hkind, st, hst⟩ := h
  have hof := (rowOf_buildRow ctx 0 item st).defaulted (ctx.clock 0)
  have hconflicts := conflicts_eq hof.toNewRow.live (hof.id ▸ hnew)
  rw [hof.keys] at hconflicts
  refine ⟨_, hof, bind_eq_ok.mpr ⟨st, hst, ?_⟩⟩
  rw [if_neg hkind, hconflicts]
  cases (heldKeys db.jobs).holds item.keys <;> rfl

/-- **Requests enqueued one after another land as their keys let them.** -/
theorem enqueueEach_lands {call : ℕ → Context} (h : ∀ k, ∀ item ∈ items, Accepts (call k) item)
    (hnew : ∀ i < items.length, db.jobs.get? ((call (k + i)).newID 0) = none)
    (hdistinct : ∀ j < items.length, ∀ i < j, (call (k + i)).newID 0 ≠ (call (k + j)).newID 0) :
    ∃ after landed, enqueueEach call k items db = .ok (after, landed) ∧
      landed.map Option.isSome = landing (heldKeys db.jobs) (items.map BatchItem.keys) := by
  induction items generalizing k db with
  | nil => exact ⟨db, [], rfl, rfl⟩
  | cons item items ih =>
    have hk : db.jobs.get? ((call k).newID 0) = none := hnew 0 (Nat.succ_pos _)
    obtain ⟨r, hof, hinsert⟩ := Client.insert_accepted (h k item mem_cons_self) hk
    have hrest := fun k i hi => h k i (mem_cons_of_mem item hi)
    have hstep : ∀ i, k + 1 + i = k + (i + 1) := fun i => by omega
    have hdistinct' : ∀ j < items.length, ∀ i < j,
        (call (k + 1 + i)).newID 0 ≠ (call (k + 1 + j)).newID 0 := fun j hj i hi => by
      rw [hstep, hstep]
      exact hdistinct (j + 1) (Nat.succ_lt_succ hj) (i + 1) (Nat.succ_lt_succ hi)
    cases hheld : (heldKeys db.jobs).holds item.keys with
    | true =>
      rw [hheld, cond_true] at hinsert
      have hnew' : ∀ i < items.length, db.jobs.get? ((call (k + 1 + i)).newID 0) = none :=
        fun i hi => by
          rw [hstep]
          exact hnew (i + 1) (Nat.succ_lt_succ hi)
      obtain ⟨after, landed, heach, hlanded⟩ := ih hrest hnew' hdistinct'
      refine ⟨after, none :: landed, ?_, ?_⟩
      · exact bind_eq_ok.mpr ⟨_, hinsert, bind_eq_ok.mpr ⟨_, heach, rfl⟩⟩
      · rw [map_cons, map_cons, landing, hheld, cond_true, hlanded]
        rfl
    | false =>
      rw [hheld, cond_false] at hinsert
      have hnew' : ∀ i < items.length, ({ db with jobs := db.jobs.insert uniqueClash r } :
        Db).jobs.get?
          ((call (k + 1 + i)).newID 0) = none :=
        fun i hi => by
          have hne : r.id ≠ (call (k + 1 + i)).newID 0 := by
            rw [hof.id, hstep]
            exact hdistinct (i + 1) (Nat.succ_lt_succ hi) 0 (Nat.succ_pos i)
          rw [get?_insert, if_neg fun h => hne h.2, hstep]
          exact hnew (i + 1) (Nat.succ_lt_succ hi)
      have hfree : db.jobs.conflicts uniqueClash r = false := by
        rw [conflicts_eq hof.toNewRow.live (hof.id ▸ hk), hof.keys, hheld]
      obtain ⟨after, landed, heach, hlanded⟩ := ih hrest hnew' hdistinct'
      refine ⟨after, some ((call k).newID 0) :: landed, ?_, ?_⟩
      · exact bind_eq_ok.mpr ⟨_, hinsert, bind_eq_ok.mpr ⟨_, heach, rfl⟩⟩
      · rw [map_cons, map_cons, landing, hheld, cond_false, hlanded,
          heldKeys_insert hof.toNewRow.live hfree, hof.keys]
        rfl

/-! ## The batch against the single inserts -/

/-- A chunk holds a row at least. -/
theorem chunkSizeFor_pos (dialect : Dialect) (requested : ℤ) :
    0 < chunkSizeFor dialect requested := by
  unfold chunkSizeFor
  cases dialect
  all_goals
    dsimp only [jobRowColumns]
    split_ifs with hdefault hmax
    · decide
    · decide
    · exact Int.pos_iff_toNat_pos.mp (not_le.mp hdefault)

/-- The reported ids are the minted ones of the rows that landed. -/
theorem RowsOf.landedIDs (h : RowsOf newID k items rows) {flags : List Bool}
    (hlength : flags.length = items.length) :
    Flywheel.landedIDs flags rows = flags.mapIdx fun i landed => if landed then newID
      (k + i) else "" := by
  induction h generalizing flags with
  | nil =>
    obtain rfl := eq_nil_of_length_eq_zero hlength
    rfl
  | cons head _ ih =>
    obtain ⟨flag, flags, rfl⟩ := exists_cons_of_length_eq_add_one hlength
    have hrest := ih (Nat.succ.inj hlength)
    rw [Flywheel.landedIDs] at hrest ⊢
    rw [zipWith_cons_cons, hrest, mapIdx_cons, head.id]
    simp [Nat.add_assoc, Nat.add_comm 1]

/-- An item is stored where its keys were free. -/
theorem RowsOf.storedAt (h : RowsOf newID 0 items rows) (hnew : NewRows db.jobs rows) (now : Time) :
    storedAt newID items (db.insertRows now rows) =
      landing (heldKeys db.jobs) (items.map BatchItem.keys) := by
  rw [← h.keys, ← hnew.toFreshRows.readBack now]
  have hread : rows.map (fun r => ((db.insertRows now rows).jobs.get? r.id).isSome) =
      (rows.map JobRow.id).map fun id => ((db.insertRows now rows).job? id).isSome := by
    rw [map_map]
    refine map_congr_left fun r hr => ?_
    rw [Function.comp_apply, hnew.toFreshRows.job? now hr]
  rw [hread, h.ids, map_map, ← range_eq_range', Flywheel.storedAt]
  refine ext_getElem (by simp) fun i hi hi' => ?_
  simp

/-- What is stored under an item's id is the item's row. -/
theorem RowsOf.rowOf_job? (h : RowsOf newID 0 items rows) (hids : NewIDs db.jobs items.length newID)
    (now : Time) {i : ℕ} (hi : items[i]? = some item)
    (hr : (db.insertRows now rows).job? (newID i) = some r) : RowOf item (newID i) r := by
  have hlt : i < items.length := (List.getElem?_eq_some_iff.mp hi).1
  obtain ⟨hget, -⟩ := Option.filter_eq_some_iff.mp hr
  rcases get?_insertAll_cases uniqueClash _ hget with hold | ⟨-, hmem, hid⟩
  · rw [hids.unused i hlt] at hold
    cases hold
  · obtain ⟨s, hs, rfl⟩ := mem_map.mp hmem
    obtain ⟨j, item', hj, hof⟩ := h.rowOf hs
    rw [Nat.zero_add] at hof
    obtain rfl : j = i := hids.inj (List.getElem?_eq_some_iff.mp hj).1 hlt (hof.id.symm.trans hid)
    obtain rfl : item' = item := Option.some_inj.mp (hj.symm.trans hi)
    exact hof.defaulted now

/-- **A batch is the requests enqueued one by one.** Whatever requests the client accepts, whatever
jobs are stored and whatever the chunks' size, the rows that a batch stores are at the positions
that landed one by one, its counts are theirs, and the id that it reports at a landed position is
that of the row which the database holds for the request. -/
theorem insertMany_lands_each (dialect : Dialect) (ctx : Context) (items : List BatchItem)
    (opts : BatchOpts) (db : Db) (call : ℕ → Context) (haccepts : ∀ item ∈ items, Accepts ctx item)
    (hcall : ∀ k, SameClient ctx (call k)) (hids : NewIDs db.jobs items.length ctx.newID)
    (hcallIDs : NewIDs db.jobs items.length fun k => (call k).newID 0) :
    ∃ single landed after res, enqueueEach call 0 items db = .ok (single, landed) ∧
      insertMany dialect ctx items opts db = (after, res, none) ∧
      storedAt ctx.newID items after = landed.map Option.isSome ∧
      res.ids = landed.mapIdx (fun i id => if id.isSome then ctx.newID i else "") ∧
      (∀ i item id, items[i]? = some item → landed[i]? = some (some id) →
        ∃ r, after.job? (ctx.newID i) = some r ∧ RowOf item (ctx.newID i) r) ∧
      res.inserted = landed.countP Option.isSome ∧
      res.skipped = if opts.skipDuplicates then 0 else landed.countP Option.isNone := by
  obtain ⟨single, landed, heach, hlanded⟩ := enqueueEach_lands
    (fun k item hitem => (hcall k).accepts (haccepts item hitem))
    (fun i hi => by rw [Nat.zero_add]; exact hcallIDs.unused i hi)
    (fun j hj i hi => by rw [Nat.zero_add, Nat.zero_add]; exact hcallIDs.distinct j hj i hi)
  obtain ⟨rows, hrows⟩ := buildBatch_rows haccepts 0
  have hof := rowsOf_buildBatch hrows
  have hnew : NewRows db.jobs rows := hof.newRows (fun item hitem => (haccepts item hitem).1) hids
  obtain ⟨res, hloop, hreports⟩ := insertManyLoop_eq (ctx.clock 0) opts
    (chunkSizeFor_pos dialect opts.chunkSize) le_rfl hnew {}
  rw [hof.keys, ← hlanded] at hreports
  have hstored := (hof.storedAt hnew (ctx.clock 0)).trans hlanded.symm
  refine ⟨single, landed, db.insertRows (ctx.clock 0) rows, res, heach, ?_, hstored, ?_, ?_, ?_, ?_⟩
  · rw [insertMany, ← hloop]
    by_cases hitems : items = []
    · subst hitems
      cases hrows
      rfl
    · rw [if_neg hitems, hrows]
  · have hlength : (landed.map Option.isSome).length = items.length := by
      rw [hlanded, length_landing, length_map]
    rw [hreports.ids, hof.landedIDs hlength]
    refine ext_getElem (by simp) fun i hi hi' => ?_
    simp
  · intro i item id hi hid
    have hsome : ((db.insertRows (ctx.clock 0) rows).job? (ctx.newID i)).isSome = true := by
      have hat := congrArg (fun flags => flags[i]?) hstored
      simpa [storedAt, hi, hid] using hat
    obtain ⟨r, hr⟩ := Option.isSome_iff_exists.mp hsome
    exact ⟨r, hr, hof.rowOf_job? hids (ctx.clock 0) hi hr⟩
  · rw [hreports.inserted, count_eq_countP, countP_map]
    simp [Function.comp_def]
  · rw [hreports.skipped, count_eq_countP, countP_map]
    simp [Function.comp_def]

/-- A call that mints `x`, `xx` and so on. -/
def countingIDs : Context := { newID := fun k => String.ofList (List.replicate (k + 1) 'x') }

/-- Three requests, of which the second shares the first one's key. -/
def sharedKeyItems : List BatchItem :=
  [{ kind := "work", args := .null, opts := { uniqueKey := "key" } },
   { kind := "work", args := .null, opts := { uniqueKey := "key", uniqueActiveKey := "active" } },
   { kind := "work", args := .null, opts := { uniqueActiveKey := "active" } }]

/-- Items that share keys land in a batch as one by one. -/
theorem insertMany_shared_key_lands :
    ∃ single landed after res,
      enqueueEach (fun k => { newID := fun _ => countingIDs.newID k }) 0 sharedKeyItems {} =
        .ok (single, landed) ∧
      insertMany .postgres countingIDs sharedKeyItems { chunkSize := 2 } {} = (after, res, none) ∧
      storedAt countingIDs.newID sharedKeyItems after = landed.map Option.isSome ∧
      res.inserted = landed.countP Option.isSome := by
  obtain ⟨single, landed, after, res, heach, hmany, hstored, -, -, hinserted, -⟩ :=
    insertMany_lands_each .postgres countingIDs sharedKeyItems { chunkSize := 2 } {}
      (fun k => { newID := fun _ => countingIDs.newID k })
      (by
        intro item hitem
        simp only [sharedKeyItems, mem_cons, not_mem_nil, or_false] at hitem
        rcases hitem with rfl | rfl | rfl <;> exact ⟨by decide, _, rfl⟩)
      (fun k => ⟨rfl, rfl, rfl, rfl⟩) ⟨fun _ _ => rfl, by decide⟩ ⟨fun _ _ => rfl, by decide⟩
  exact ⟨single, landed, after, res, heach, hmany, hstored, hinserted⟩

/-- A request without a kind, after one with a kind. -/
def kindlessItems : List BatchItem :=
  [{ kind := "work", args := .null }, { kind := "", args := .null }]

/-- **A refused request takes its chunk with it.** The client lands the first request on its own and
refuses the second; a batch lands neither when they share a chunk, and the first when they do
not. -/
theorem insertMany_refused_chunk :
    (∃ db, Client.insert countingIDs "work" .null {} .client "" {} = .ok (db, some "x")) ∧
      storedAt countingIDs.newID kindlessItems
        (insertMany .postgres countingIDs kindlessItems {} {}).1 = [false, false] ∧
      storedAt countingIDs.newID kindlessItems
        (insertMany .postgres countingIDs kindlessItems { chunkSize := 1 } {}).1 = [true, false] :=
  ⟨⟨_, rfl⟩, by decide, by decide⟩

end Flywheel
