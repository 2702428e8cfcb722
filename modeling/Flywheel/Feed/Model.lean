import Flywheel.Library.Base64
import Flywheel.Library.Decimal
import Flywheel.Library.History
import Flywheel.Library.Pages
import Flywheel.Stats.Aggregate
import Mathlib.Data.Prod.Lex

/-!
# The finish feed

`ListRunFinishes` (`feed.go`) reads the finish log in order, a page at a time: the entries after a
position up to the horizon, at most `feedScanLimit` of them, each with its run, of which it keeps
those of the wanted kinds and queues until the page is full. The next cursor follows the last finish
returned when the page filled, else the last entry scanned, else the page's start. A cursor is a
position, encoded; what is encoded is decoded (`decodeFeedCursor_encode`).
-/

namespace Flywheel

open Relational Transition Encoding

/-- `DefaultFeedSettle` -/
def defaultFeedSettle : Duration := 5 * second

/-- `feedScanLimit` -/
def feedScanLimit : ℕ := 1000

/-- `defaultFeedLimit` -/
def defaultFeedLimit : ℤ := 100

/-- `readLimit` -/
def readLimit (limit default : ℤ) : ℕ :=
    (if limit ≤ 0 then default else min limit maxReadLimit).toNat

/-! ## Positions and cursors -/

/-- `feedPos`: a position in the finish log, ordered by the finish time and then by the run id. -/
abbrev FeedPos : Type := Time ×ₗ String

/-- The position at a time, before or at a run. -/
def feedPos (time : Time) (runID : String) : FeedPos := toLex (time, runID)

/-- The time of a position. -/
def FeedPos.time (p : FeedPos) : Time := (ofLex p).1

/-- The run id of a position. -/
def FeedPos.runID (p : FeedPos) : String := (ofLex p).2

/-- An entry's position. -/
def FinishRow.pos (e : FinishRow) : FeedPos := feedPos e.finishedAt e.runID

/-- `feedCursorPrefix` -/
def feedCursorPrefix : String := "rf1."

/-- The bytes of a string of ASCII characters. -/
def asciiBytes (cs : List Char) : List UInt8 := cs.map fun c => UInt8.ofNat c.toNat

/-- `encodeFeedCursor`: the time in Unix nanoseconds, a colon and the run id, in base64. -/
def encodeFeedCursor (p : FeedPos) : String :=
  feedCursorPrefix ++ String.ofList
    (encode64 (asciiBytes (formatInt p.time) ++ 0x3A :: p.runID.toByteArray.data.toList))

/-- The refusal of a cursor that was not issued. -/
def malformedCursor : TxError :=
  .validation "after" "is malformed: pass the NextCursor of a previous page"

/-- What stands before the first colon, and after it. -/
def cutColon (s : List UInt8) : Option (List UInt8 × List UInt8) :=
  match s.dropWhile (· ≠ 0x3A) with
  | [] => none
  | _ :: rest => some (s.takeWhile (· ≠ 0x3A), rest)

/-- The position of a cursor's text, when it is one. An id that is not UTF-8 names no run. -/
def feedCursorPos (raw : String) : Option FeedPos :=
  if feedCursorPrefix.toList <+: raw.toList then do
    let data ← decode64 (raw.toList.drop feedCursorPrefix.toList.length)
    let (ns, runID) ← cutColon data
    let n ← parseInt64 (ns.map fun b => Char.ofNat b.toNat)
    let id ← String.fromUTF8? runID.toByteArray
    return feedPos n id
  else none

/-- `decodeFeedCursor` -/
def decodeFeedCursor (raw : String) : Except TxError FeedPos :=
  (feedCursorPos raw).elim (.error malformedCursor) .ok

/-! ## A page -/

/-- `RunFinish`: one finished run, as the feed reports it. -/
structure RunFinish where
  finishedAt : Time
  runID : String
  jobID : String
  kind : String
  queue : String
  attempt : ℤ
  outcome : RunOutcome
  jobState : Option JobState
  errorClass : Option ErrorClass
  durationMs : Option ℤ
  superseded : Bool

/-- The position of a reported finish. -/
def RunFinish.pos (f : RunFinish) : FeedPos := feedPos f.finishedAt f.runID

/-- `ListRunFinishesParams` -/
structure ListRunFinishesParams where
  after : String := ""
  since : Option Time := none
  settle : Duration := 0
  kinds : List String := []
  queues : List String := []
  limit : ℤ := 0

/-- `RunFinishPage` -/
structure RunFinishPage where
  finishes : List RunFinish
  nextCursor : String
  horizon : Time

/-- `feedEntry`: one scanned entry, without its finish when its run is gone. -/
structure FeedEntry where
  pos : FeedPos
  finish : Option RunFinish

/-- The scanned entry of a finish-log entry: the `LEFT JOIN` of its run. -/
def feedEntry (db : Db) (e : FinishRow) : FeedEntry where
  pos := e.pos
  finish := (db.runs.get? e.runID).map fun r =>
    { finishedAt := e.finishedAt
      runID := e.runID
      jobID := r.jobID
      kind := resolvedColumn r.kind ((db.jobs.get? r.jobID).map JobRow.kind)
      queue := resolvedColumn r.queue ((db.jobs.get? r.jobID).map JobRow.queue)
      attempt := r.attempt
      outcome := r.outcome
      jobState := r.jobState
      errorClass := r.errorClass
      durationMs := r.durationMs
      superseded := r.superseded }

/-- The range of `feedScanSQL`: after a position, up to the horizon. -/
def inFeedRange (start : FeedPos) (horizon : Time) (e : FinishRow) : Bool :=
  decide (start.time ≤ e.finishedAt) && (decide (start.time < e.finishedAt) ||
      (decide (e.finishedAt = start.time) && decide (start.runID < e.runID))) &&
    decide (e.finishedAt ≤ horizon)

/-- The entries that a page scans. -/
def feedRange (start : FeedPos) (horizon : Time) (db : Db) : List FinishRow :=
  ((db.finishes.filter (inFeedRange start horizon)).insertionSort fun a b => a.pos ≤ b.pos).take
    feedScanLimit

/-- `scanFinishes` -/
def scanFinishes (start : FeedPos) (horizon : Time) (db : Db) : List FeedEntry :=
  (feedRange start horizon db).map (feedEntry db)

/-- `feedMatches` -/
def feedMatches (want : List String) (value : String) : Bool := decide (want = []) ||
    want.contains value

/-- The finish of an entry that the page keeps. -/
def FeedEntry.kept (kinds queues : List String) (e : FeedEntry) : Option RunFinish :=
  e.finish.filter fun f => feedMatches kinds f.kind && feedMatches queues f.queue

/-- The loop that fills a page, with the position at which the page was full. -/
def fillPage (kinds queues : List String) (limit : ℕ) :
    List FeedEntry → List RunFinish → List RunFinish × Option FeedPos
  | [], page => (page, none)
  | e :: es, page =>
    match e.kept kinds queues with
    | none => fillPage kinds queues limit es page
    | some f =>
      if (page ++ [f]).length = limit then (page ++ [f], some e.pos)
      else fillPage kinds queues limit es (page ++ [f])

/-- The part of the newest log that a page holds back. -/
def ListRunFinishesParams.settling (p : ListRunFinishesParams) : Duration :=
  if p.settle = 0 then defaultFeedSettle else p.settle

/-- Where a page starts: at the cursor, else at `Since`, else at the horizon. -/
def ListRunFinishesParams.start (p : ListRunFinishesParams) (horizon : Time) :
    Except TxError FeedPos :=
  if p.after ≠ "" then decodeFeedCursor p.after
  else .ok (feedPos (p.since.getD horizon) "")

/-- The page from a position, and the position that it reaches. -/
def feedPage (p : ListRunFinishesParams) (start : FeedPos) (horizon : Time) (db : Db) :
    List RunFinish × FeedPos :=
  let entries := scanFinishes start horizon db
  let (finishes, full) := fillPage p.kinds p.queues (readLimit p.limit defaultFeedLimit) entries []
  (finishes, full.getD ((entries.getLast?.map FeedEntry.pos).getD start))

/-- `ListRunFinishes`, by the clock's reading at its start and the log that its one statement
sees. -/
def listRunFinishes (p : ListRunFinishesParams) (now : Time) (db : Db) :
    Except TxError RunFinishPage := do
  refuse (decide (p.settle < 0)) (.validation "settle" "must not be negative")
  let horizon := now - p.settling
  let start ← p.start horizon
  let (finishes, next) := feedPage p start horizon db
  return { finishes, nextCursor := encodeFeedCursor next, horizon }

/-! ## Cursors are read back -/

theorem cutColon_append {s : List UInt8} (hs : 0x3A ∉ s) (t : List UInt8) :
    cutColon (s ++ 0x3A :: t) = some (s, t) := by
  have hpos : ∀ b ∈ s, decide (b ≠ 0x3A) = true := fun b hb => decide_eq_true fun h => hs (h ▸ hb)
  simp_all [cutColon]

theorem formatInt_ascii (n : ℤ) : ∀ c ∈ formatInt n, c = '-' ∨ c.isDigit = true := by
  intro c hc
  grind [formatInt, isDigit_of_mem]

theorem toNat_lt_of_ascii {c : Char} (h : c = '-' ∨ c.isDigit = true) : c.toNat < 58 := by
  rcases h with rfl | h
  · decide
  · exact Nat.lt_succ_of_le (Char.isDigit_iff_toNat.mp h).2

theorem ofNat_asciiBytes {cs : List Char} (h : ∀ c ∈ cs, c.toNat < 58) :
    (asciiBytes cs).map (fun b => Char.ofNat b.toNat) = cs := by
  rw [asciiBytes, List.map_map]
  conv_rhs => rw [← List.map_id cs]
  grind [List.map_congr_left, UInt8.toNat_ofNat', Char.ofNat_toNat]

/-- **A cursor is read back as the position that it encodes.** -/
theorem decodeFeedCursor_encode {p : FeedPos} (hp : Fits64 p.time) :
    decodeFeedCursor (encodeFeedCursor p) = .ok p := by
  have hascii : ∀ c ∈ formatInt p.time, c.toNat < 58 := fun c hc =>
    toNat_lt_of_ascii (formatInt_ascii p.time c hc)
  have hcolon : 0x3A ∉ asciiBytes (formatInt p.time) := by
    intro h
    obtain ⟨c, hc, heq⟩ := List.mem_map.mp h
    have hnat := congrArg UInt8.toNat heq
    grind [UInt8.toNat_ofNat']
  have htext : (encodeFeedCursor p).toList = feedCursorPrefix.toList ++
      encode64 (asciiBytes (formatInt p.time) ++ 0x3A :: p.runID.toByteArray.data.toList) := by
    rw [encodeFeedCursor, String.toList_append, String.toList_ofList]
  have hid : String.fromUTF8? p.runID.toByteArray.data.toList.toByteArray = some p.runID := by
    have hbytes : p.runID.toByteArray.data.toList.toByteArray = p.runID.toByteArray :=
      ByteArray.ext (by rw [List.data_toByteArray])
    rw [hbytes, String.fromUTF8?, dif_pos p.runID.isValidUTF8]
    rfl
  have hpos : feedCursorPos (encodeFeedCursor p) = some p := by
    rw [feedCursorPos, htext, if_pos (List.prefix_append _ _), List.drop_left, decode64_encode64]
    simp only [Option.bind_eq_bind, Option.bind_some, cutColon_append hcolon,
      ofNat_asciiBytes hascii, parseInt64_formatInt hp, hid]
    rfl
  rw [decodeFeedCursor, hpos]
  rfl

end Flywheel
