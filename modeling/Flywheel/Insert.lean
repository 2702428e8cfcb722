import Flywheel.Database
import Flywheel.Library.History

/-!
# Inserts

How a job's row is built and stored: the kind's defaults, the stamp of tags and metadata, the
two row builders (`buildRow` for a client's insert, `buildChildRow` for a follow-up and for a
barrier's continuation) and the conflict-skipping insert that they share. Every row that any of
them stores is a new one (`NewRow`): available, never claimed, without a lease, an end or a
barrier.
-/

namespace Flywheel

open Relational Transition

/-! ## Defaults -/

/-- `orString` -/
def orString (value fallback : String) : String := if value = "" then fallback else value

/-- `orInt` -/
def orInt (value fallback : ℤ) : ℤ := if value = 0 then fallback else value

/-- A time, or a fallback for Go's zero time. -/
def orTime (value fallback : Time) : Time := if value = zeroTime then fallback else value

/-- `defaultQueue` -/
def defaultQueue : String := "default"

/-- `defaultPriority` -/
def defaultPriority : ℤ := 100

/-- `defaultMaxAttempts` -/
def defaultMaxAttempts : ℤ := 25

/-- `InsertOpts`. Its `Tx` only picks the handle that the row is written on. -/
structure InsertOpts where
  queue : String := ""
  uniqueKey : String := ""
  uniqueActiveKey : String := ""
  scheduleAt : Option Time := none
  parent : Option String := none
  priority : ℤ := 0
  executorClass : String := ""
  maxAttempts : ℤ := 0
  timeout : Duration := 0
  tags : List String := []
  metadata : List (String × HostValue) := []
  requestID : String := ""
deriving Inhabited

/-- `kindDefaults.applyTo`: the fields that `opts` leaves zero, from the kind's defaults. -/
def KindDefaults.applyTo (d : KindDefaults) (opts : InsertOpts) : InsertOpts :=
  { opts with
    queue := orString opts.queue d.queue
    priority := orInt opts.priority d.priority
    maxAttempts := orInt opts.maxAttempts d.maxAttempts
    timeout := if opts.timeout = 0 then d.timeout else opts.timeout
    executorClass := orString opts.executorClass d.executorClass
    tags := if opts.tags = [] then d.tags else opts.tags }

/-- `applyTo` on a receiver that may be nil. -/
def applyDefaults (d : Option KindDefaults) (opts : InsertOpts) : InsertOpts :=
  d.elim opts fun d => d.applyTo opts

theorem applyDefaults_keys (d : Option KindDefaults) (opts : InsertOpts) :
    (applyDefaults d opts).uniqueKey = opts.uniqueKey ∧
      (applyDefaults d opts).uniqueActiveKey = opts.uniqueActiveKey := by
  cases d <;> exact ⟨rfl, rfl⟩

/-! ## The stamp -/

/-- `MaxTags`, `MaxTagBytes` and `MaxMetadataBytes`. -/
def maxTags : ℕ := 16

@[inherit_doc maxTags]
def maxTagBytes : ℕ := 64

@[inherit_doc maxTags]
def maxMetadataBytes : ℕ := 8192

/-- `unicode.IsControl` -/
def isControl (c : Char) : Bool := c.toNat < 0x20 || (0x7f ≤ c.toNat && c.toNat < 0xa0)

/-- What is wrong with one tag. A `String` is valid UTF-8, so that the code's check for it has no
branch here. -/
def tagProblem (tag : String) : Option String :=
  if tag = "" then some "holds an empty tag"
  else if maxTagBytes < tag.utf8ByteSize then some "holds a tag longer than 64 bytes"
  else if tag.toList.any isControl then some "holds a tag with a control character"
  else none

/-- `tagsJSON`: the tags in order, the first of each duplicate kept, or why they are refused. -/
def tagsJSON (tags : List String) : Except TxError Json :=
  let kept := tags.eraseDups
  if maxTags < kept.length then .error (.validation "tags" "holds more than 16 tags")
  else match kept.findSome? tagProblem with
    | some problem => .error (.validation "tags" problem)
    | none => .ok (.arr (kept.map .str))

/-- The metadata key that holds the request's id. -/
def fieldRequestID : String := "request_id"

/-- The encoded fields of a metadata object, or `none` when a value has no JSON. -/
def encodeFields : List (String × HostValue) → Option (List (String × Json))
  | [] => some []
  | (k, v) :: rest =>
    match v, encodeFields rest with
    | some j, some fields => some ((k, j) :: fields)
    | _, _ => none

/-- `metadataJSON`: the caller's keys, the hook's over them, and the request's id over both. -/
def metadataJSON (ctx : Context) (requestID : String) (caller hooked : List (String × HostValue)) :
    Except TxError Json :=
  let request := if requestID = "" then [] else [(fieldRequestID, some (Json.str requestID))]
  let kept := caller.filter fun f => f.1 ≠ fieldRequestID ∧ f.1 ∉ hooked.map Prod.fst
  let merged := kept ++ hooked.filter (fun f => f.1 ≠ fieldRequestID) ++ request
  match encodeFields merged with
  | none => .error (.validation "metadata" "cannot be encoded as JSON")
  | some fields =>
    -- the size limit is read only when the caller or the hook gave a key
    if (caller ≠ [] ∨ hooked ≠ []) ∧ maxMetadataBytes < ctx.jsonBytes fields then
      .error (.validation "metadata" "is larger than 8192 bytes once merged")
    else .ok (.obj fields)

/-- `stamp`: what an insert writes beside a job's arguments. -/
structure Stamp where
  tags : Json
  metadata : Json

/-- `stampRow`: the tags are checked first, then the hook runs, then the metadata is merged. -/
def stampRow (ctx : Context) (info : InsertInfo) (tags : List String)
    (metadata : List (String × HostValue)) (requestID : String) : Except TxError Stamp := do
  let tagJSON ← tagsJSON tags
  let hooked := ctx.insertHook.elim [] fun hook => hook info
  let metaJSON ← metadataJSON ctx requestID metadata hooked
  return { tags := tagJSON, metadata := metaJSON }

/-! ## The row builders -/

/-- A new row: what every insert stores, whatever its options. -/
structure NewRow (r : JobRow) : Prop where
  state : r.state = .available
  attempt : r.attempt = 0
  leasedUntil : r.leasedUntil = none
  leaseToken : r.leaseToken = none
  finalizedAt : r.finalizedAt = none
  barrierKind : r.barrierKind = none
  barrierSpec : r.barrierSpec = none
  deletedAt : r.deletedAt = none

/-- A row with the columns that an insert always writes alike. -/
def freshRow (id kind queue : String) (now : Time) (st : Stamp) (args : Json) : JobRow :=
  { id, kind, queue, args
    createdAt := now, updatedAt := now, scheduledAt := now
    metadata := st.metadata, tags := st.tags
    priority := defaultPriority, state := .available, attempt := 0
    maxAttempts := defaultMaxAttempts, timeoutMs := none
    leasedUntil := none, leaseToken := none, uniqueKey := none, uniqueActiveKey := none
    parentJobID := none, executorClass := "", finalizedAt := none
    barrierKind := none, barrierSpec := none, deletedAt := none }

/-- A key column: an empty option stores `NULL`. -/
def keyColumn (key : String) : Option String := if key = "" then none else some key

/-- The `timeout_ms` column of a time limit. -/
def timeoutColumn (timeout : Duration) : Option ℤ :=
  if 0 < timeout then some (milliseconds timeout) else none

/-- `buildRow`, with the stamp applied: the row of one client insert. -/
def buildRow (ctx : Context) (k : ℕ) (kind : String) (payload : Json) (opts : InsertOpts)
    (st : Stamp) : JobRow :=
  { freshRow (ctx.newID k) kind (orString opts.queue defaultQueue) (ctx.clock k) st payload with
    priority := orInt opts.priority defaultPriority
    maxAttempts := orInt opts.maxAttempts defaultMaxAttempts
    scheduledAt := opts.scheduleAt.getD (ctx.clock k)
    parentJobID := opts.parent
    executorClass := opts.executorClass
    uniqueKey := keyColumn opts.uniqueKey
    uniqueActiveKey := keyColumn opts.uniqueActiveKey
    timeoutMs := timeoutColumn opts.timeout }

/-- `buildChildRow`: the row of one follow-up, or of a barrier's continuation. It may carry a
unique key and a parent, and never an active key. -/
def buildChildRow (ctx : Context) (k : ℕ) (fu : FollowUp) (parentID spawnedBy : String)
    (source : InsertSource) (d : Option KindDefaults) : Except TxError JobRow := do
  let payload ← fu.args.elim (.error (.marshal "child args")) .ok
  let routed := applyDefaults d
    { queue := fu.queue, priority := fu.priority, executorClass := fu.executorClass,
      tags := fu.tags }
  let queue := orString routed.queue defaultQueue
  let recordedParent := if fu.parent then parentID else ""
  let st ← stampRow ctx { kind := fu.kind, queue, source, spawnedBy, parentJobID := recordedParent }
    routed.tags fu.metadata ctx.requestID
  return { freshRow (ctx.newID k) fu.kind queue (ctx.clock k) st payload with
    priority := orInt routed.priority defaultPriority
    maxAttempts := orInt routed.maxAttempts defaultMaxAttempts
    executorClass := routed.executorClass
    timeoutMs := timeoutColumn routed.timeout
    scheduledAt := fu.scheduleAt.getD (ctx.clock k)
    uniqueKey := keyColumn fu.uniqueKey
    parentJobID := if fu.parent then some recordedParent else none }

/-- `BeforeCreate`'s defaults for the columns that a builder left zero. -/
def JobRow.defaulted (now : Time) (r : JobRow) : JobRow :=
  { r with
    createdAt := orTime r.createdAt now
    updatedAt := orTime r.updatedAt now
    scheduledAt := orTime r.scheduledAt now
    queue := orString r.queue defaultQueue
    priority := orInt r.priority defaultPriority
    maxAttempts := orInt r.maxAttempts defaultMaxAttempts }

/-! ## The conflict-skipping insert -/

/-- `insertSkippingConflicts`: one multi-row insert. `BeforeCreate` requires every row's kind, and
refuses the whole statement without one. -/
def insertSkippingConflicts (now : Time) (rows : List JobRow) (db : Db) : Except TxError Db :=
  if rows.any fun r => decide (r.kind = "") then .error (.validation "kind" "is required")
  else .ok { db with jobs := db.jobs.insertAll uniqueClash (rows.map (JobRow.defaulted now)) }

/-- `chunkHasUniqueKey` -/
def chunkHasUniqueKey (rows : List JobRow) : Bool :=
  rows.any fun r => r.uniqueKey.isSome || r.uniqueActiveKey.isSome

/-- `landedRows`: every row when none carries a key, and otherwise the ids that read back. -/
def landedRows (rows : List JobRow) (db : Db) : List String :=
  if chunkHasUniqueKey rows then (rows.map JobRow.id).filter fun id => (db.job? id).isSome
  else rows.map JobRow.id

/-- `conflictInsertChunk` -/
def conflictInsertChunk (now : Time) (rows : List JobRow) (db : Db) :
    Except TxError (Db × List String) := do
  if rows = [] then return (db, [])
  let db ← insertSkippingConflicts now rows db
  return (db, landedRows rows db)

/-! ## The client's inserts -/

/-- `stampFor`: the stamp of one insert through a client, from where it comes. -/
def stampFrom (ctx : Context) (kind : String) (opts : InsertOpts) (source : InsertSource)
    (periodicSlug : String) : Except TxError Stamp :=
  stampRow ctx
    { kind, queue := orString opts.queue defaultQueue, source, periodicSlug,
      parentJobID := opts.parent.getD "" }
    opts.tags opts.metadata (orString opts.requestID ctx.requestID)

/-- `stampFor` of a host's own insert. -/
def stampFor (ctx : Context) (kind : String) (opts : InsertOpts) : Except TxError Stamp :=
  stampFrom ctx kind opts .client ""

/-- `BatchItem`: one job of an InsertMany. -/
structure BatchItem where
  kind : String
  args : Json
  opts : InsertOpts := {}

/-- The rows of a client's inserts: the kind's defaults, the stamp, then the row. `report` is how a
refusal of an item is reported. -/
def buildRows {ε : Type} (report : ℕ → TxError → ε) (ctx : Context) :
    ℕ → List BatchItem → Except ε (List JobRow)
  | _, [] => .ok []
  | k, item :: items => do
    let opts := applyDefaults (ctx.registry item.kind) item.opts
    let st ← (stampFor ctx item.kind opts).mapError (report k)
    let rest ← buildRows report ctx (k + 1) items
    return buildRow ctx k item.kind item.args opts st :: rest

/-- One chunk of `InsertMany` (`insertChunk`), and with a single item `Client.insert`, whose
plain `INSERT` reports as `collided` the conflict that a chunk skips. The result is the ids that
landed. -/
def insertChunk (ctx : Context) (items : List BatchItem) (db : Db) :
    Except TxError (Db × List String) := do
  let rows ← buildRows (fun _ e => e) ctx 0 items
  conflictInsertChunk (ctx.clock 0) rows db

/-- `Client.insert` outside a caller's transaction: the id of the row, or none when it collided
with a stored one. -/
def Client.insert (ctx : Context) (kind : String) (payload : Json) (opts : InsertOpts)
    (source : InsertSource) (periodicSlug : String) (db : Db) :
    Except TxError (Db × Option String) := do
  let opts := applyDefaults (ctx.registry kind) opts
  let st ← stampFrom ctx kind opts source periodicSlug
  let row := (buildRow ctx 0 kind payload opts st).defaulted (ctx.clock 0)
  if kind = "" then .error (.validation "kind" "is required")
  else if db.jobs.conflicts uniqueClash row then return (db, none)
  else return ({ db with jobs := db.jobs.insert uniqueClash row }, some row.id)

/-! ## What an insert stores -/

/-- The routing columns of a stored job: `BeforeCreate` fills them, and no control empties them. -/
structure JobRow.Routed (r : JobRow) : Prop where
  queue : r.queue ≠ ""
  priority : r.priority ≠ 0

/-- A new row as `BeforeCreate` leaves it. -/
structure StoredRow (r : JobRow) : Prop extends NewRow r, JobRow.Routed r

theorem NewRow.defaulted {r : JobRow} (h : NewRow r) (now : Time) : StoredRow
    (r.defaulted now) where
  toNewRow := ⟨h.state, h.attempt, h.leasedUntil, h.leaseToken, h.finalizedAt, h.barrierKind,
    h.barrierSpec, h.deletedAt⟩
  queue := by grind [JobRow.defaulted, orString, defaultQueue]
  priority := by grind [JobRow.defaulted, orInt, defaultPriority]

variable (now : Time) (r : JobRow) {rows : List JobRow} {ctx : Context} {k : ℕ}

/-- `BeforeCreate` keeps the columns that identify a row. -/
@[simp]
theorem defaulted_id : (r.defaulted now).id = r.id := rfl

@[simp, inherit_doc defaulted_id]
theorem defaulted_parentJobID : (r.defaulted now).parentJobID = r.parentJobID := rfl

@[simp, inherit_doc defaulted_id]
theorem defaulted_uniqueKey : (r.defaulted now).uniqueKey = r.uniqueKey := rfl

@[simp, inherit_doc defaulted_id]
theorem defaulted_uniqueActiveKey : (r.defaulted now).uniqueActiveKey = r.uniqueActiveKey := rfl

@[simp, inherit_doc defaulted_id]
theorem defaulted_state : (r.defaulted now).state = r.state := rfl

/-- What a follow-up's row is, whatever its defaults and its stamp. -/
structure ChildRow (ctx : Context) (k : ℕ) (fu : FollowUp) (parentID : String) (r : JobRow) : Prop
    extends NewRow r where
  id : r.id = ctx.newID k
  kind : r.kind = fu.kind
  uniqueKey : r.uniqueKey = keyColumn fu.uniqueKey
  uniqueActiveKey : r.uniqueActiveKey = none
  parentJobID : r.parentJobID = if fu.parent then some parentID else none

theorem buildChildRow_spec {fu : FollowUp} {parentID spawnedBy : String}
    {source : InsertSource} {d : Option KindDefaults} {r : JobRow}
    (h : buildChildRow ctx k fu parentID spawnedBy source d = .ok r) :
    ChildRow ctx k fu parentID r := by
  obtain ⟨payload, -, h⟩ := bind_eq_ok.mp h
  obtain ⟨st, -, h⟩ := bind_eq_ok.mp h
  cases h
  refine ⟨⟨rfl, rfl, rfl, rfl, rfl, rfl, rfl, rfl⟩, rfl, rfl, rfl, rfl, ?_⟩
  by_cases hp : fu.parent <;> simp [hp]

/-- The rows are new. -/
theorem buildRows_new {ε : Type} {report : ℕ → TxError → ε} {items : List BatchItem}
    (h : buildRows report ctx k items = .ok rows) : ∀ r ∈ rows, NewRow r := by
  induction items generalizing k rows with
  | nil =>
    cases h
    simp
  | cons item items ih =>
    obtain ⟨st, -, h⟩ := bind_eq_ok.mp h
    obtain ⟨rest, hrest, h⟩ := bind_eq_ok.mp h
    cases h
    intro r hr
    rcases List.mem_cons.mp hr with rfl | hr
    · exact ⟨rfl, rfl, rfl, rfl, rfl, rfl, rfl, rfl⟩
    · exact ih hrest r hr

/-- A chunk's insert changes `jobs` alone, by the rows that it was given. -/
theorem conflictInsertChunk_spec {now : Time} {db db' : Db}
    {landed : List String} (h : conflictInsertChunk now rows db = .ok (db', landed)) :
    db' = { db with jobs := db.jobs.insertAll uniqueClash (rows.map (JobRow.defaulted now)) } := by
  rw [conflictInsertChunk] at h
  by_cases hnil : rows = []
  · subst hnil
    cases h
    rfl
  · rw [if_neg hnil] at h
    obtain ⟨db₁, hins, h⟩ := bind_eq_ok.mp h
    cases h
    rw [insertSkippingConflicts] at hins
    grind

end Flywheel
