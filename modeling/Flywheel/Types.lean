import Mathlib.Data.Int.Notation
import Mathlib.Data.Nat.Notation

/-!
# The runtime's vocabulary

The job states, run outcomes and error classes of `types.go`, and the values that cross the
driver's interface: the claimed job (`RawJob`), what a worker returns (`Result`), and the
options of the driver and of the controls. Identifiers, keys and lease tokens are strings, as
they are in the tables; times are nanoseconds since the Unix epoch, and durations nanoseconds.
-/

namespace Flywheel

/-- An instant, in nanoseconds since the Unix epoch. -/
abbrev Time := ℤ

/-- A `time.Duration`, in nanoseconds. -/
abbrev Duration := ℤ

/-- One millisecond. -/
def millisecond : Duration := 1000000

/-- One second. -/
def second : Duration := 1000000000

/-- `MaxReadLimit` -/
def maxReadLimit : ℤ := 200

/-- `Time.Unix` -/
def unix (t : Time) : ℤ := t / second

/-- `Duration.Milliseconds`, which truncates toward zero. -/
def milliseconds (d : Duration) : ℤ := d.tdiv millisecond

/-- Go's zero `time.Time`, the first instant of the year 1. -/
def zeroTime : Time := -62135596800000000000

/-- A JSON value, as a column of type `jsonb` holds it. -/
inductive Json where
  | null
  | bool (b : Bool)
  | num (n : ℤ)
  | str (s : String)
  -- an instant, which the runtime writes as RFC 3339 text
  | time (t : Time)
  | arr (items : List Json)
  | obj (fields : List (String × Json))
deriving Inhabited, Repr

/-- A Go value on its way to `json.Marshal`: the JSON that it encodes to, or `none` when it
holds something that JSON cannot encode. -/
abbrev HostValue := Option Json

/-! ## The state machine's words -/

/-- `JobState`. -/
inductive JobState where
  | available
  | running
  | retryable
  | scheduled
  | paused
  | succeeded
  | cancelled
  | discarded
deriving DecidableEq, Inhabited, Repr

/-- `TerminalStates`. -/
def terminalStates : List JobState := [.succeeded, .cancelled, .discarded]

/-- `nonTerminalStateStrings`: the live states, which are those of the active-key index. -/
def nonTerminalStates : List JobState := [.available, .running, .retryable, .scheduled, .paused]

/-- `claimableStates`: what Dequeue may claim from. -/
def claimableStates : List JobState := [.available, .retryable, .scheduled]

/-- `waitingStates`: what a job waits to be claimed in. -/
def waitingStates : List JobState := [.available, .retryable, .scheduled, .paused]

/-- The state as its column and the control history spell it. -/
def JobState.name : JobState → String
  | available => "available"
  | running => "running"
  | retryable => "retryable"
  | scheduled => "scheduled"
  | paused => "paused"
  | succeeded => "succeeded"
  | cancelled => "cancelled"
  | discarded => "discarded"

/-- `isTerminalStateString`. -/
def JobState.isTerminal (s : JobState) : Bool := terminalStates.contains s

/-- The terminal states. -/
theorem JobState.isTerminal_iff {s : JobState} :
    s.isTerminal = true ↔ s = .succeeded ∨ s = .cancelled ∨ s = .discarded := by
  cases s <;> decide

/-- A state is terminal or not. -/
theorem nonTerminalStates_contains (s : JobState) :
    nonTerminalStates.contains s = !s.isTerminal := by
  cases s <;> decide

/-- `RunOutcome`. -/
inductive RunOutcome where
  | started
  | success
  | error
  | snooze
  | cancelled
  | timeout
  | crashed
deriving DecidableEq, Inhabited, Repr

/-- `ErrorClass`. A worker's classifier may return any other string. -/
inductive ErrorClass where
  | transient
  | permanent
  | validation
  | timeout
  | other (name : List UInt8)
deriving DecidableEq, Inhabited, Repr

/-- The dialect of the write connection. -/
inductive Dialect where
  | postgres
  | sqlite
deriving DecidableEq, Inhabited, Repr

/-! ## What crosses the driver -/

/-- `RawJob`: one claimed job, as Dequeue hands it to the runner. -/
structure RawJob where
  id : String
  kind : String
  queue : String
  args : Json
  attempt : ℤ
  maxAttempts : ℤ
  timeoutMs : Option ℤ
  leaseToken : String
  parentJobID : Option String
  tags : List String
  createdAt : Time
  scheduledAt : Time
  metadata : Json
deriving Inhabited

/-- `FollowUp`: a child job that a worker asks for. -/
structure FollowUp where
  kind : String
  args : HostValue := some .null
  queue : String := ""
  uniqueKey : String := ""
  scheduleAt : Option Time := none
  parent : Bool := false
  priority : ℤ := 0
  executorClass : String := ""
  tags : List String := []
  metadata : List (String × HostValue) := []
deriving Inhabited

/-- `Barrier`: the continuation that a generation of children asks for. -/
structure Barrier where
  kind : String
  args : HostValue := some .null
  queue : String := ""
  executorClass : String := ""
  priority : ℤ := 0
deriving Inhabited

/-- `Result`: what a worker returns beside its error. -/
structure Result where
  output : Option HostValue := none
  snooze : Option Duration := none
  cancel : Bool := false
  followUps : List FollowUp := []
  barrier : Option Barrier := none
  costMicros : ℤ := 0
deriving Inhabited

/-- A worker's error, as the driver reads it: `classifiedError` when the runner wrapped it, with the
error's text, and what an `ErrorFingerprinter` in its chain returns. -/
structure WorkError where
  errorClass : Option ErrorClass := none
  retryDelay : Duration := 0
  message : String := ""
  fingerprint : String := ""
deriving Inhabited

/-- `DriverOpts`: zero or negative selects each bound's default. -/
structure DriverOpts where
  sweepBatchSize : ℤ := 0
  followUpChunkSize : ℤ := 0
  followUpLimit : ℤ := 0
  barrierMaxChildren : ℤ := 0
  maxCrashes : ℤ := 0
deriving Inhabited

/-- An option's value when it is positive, and its default otherwise. -/
def orDefault (value fallback : ℤ) : ℕ := (if value ≤ 0 then fallback else value).toNat

/-- `DriverOpts.sweepBatchSize`, over `defaultSweepBatchSize`. -/
def DriverOpts.sweepLimit (o : DriverOpts) : ℕ := orDefault o.sweepBatchSize 1000

/-- `DriverOpts.followUpChunkSize`, over `defaultFollowUpChunk`. -/
def DriverOpts.chunkSize (o : DriverOpts) : ℕ := orDefault o.followUpChunkSize 500

/-- `DriverOpts.followUpLimit`, over `defaultFollowUpLimit`. -/
def DriverOpts.maxFollowUps (o : DriverOpts) : ℕ := orDefault o.followUpLimit 10000

/-- `DriverOpts.barrierMaxChildren`, over `defaultBarrierMaxChildren`. -/
def DriverOpts.maxChildren (o : DriverOpts) : ℕ := orDefault o.barrierMaxChildren 10000

/-- `RetryOpts`. -/
structure RetryOpts where
  force : Bool := false
  allowRunning : Bool := false
  resetAttempts : Bool := false
  budget : ℤ := 0
  delay : Duration := 0
deriving DecidableEq, Inhabited, Repr

/-! ## The errors -/

/-- Why a transaction rolled back. -/
inductive TxError where
  | validation (field message : String)
  | jobNotFound
  | jobTerminal
  | jobRunning
  | jobNotTerminal
  | followUpLimit
  | barrierNoChildren
  | barrierTooWide
  | duplicateKey
  | recordNotFound (what : String)
  | marshal (what : String)
  | decodeTags
  | changedWhileLocked
  | auditHook
  | updateRunRow
deriving DecidableEq, Inhabited, Repr

end Flywheel
