import Mathlib.Algebra.Order.Ring.Int
import Mathlib.Algebra.Order.Ring.Nat
import Mathlib.Data.String.Basic
import Flywheel.Types

/-!
# The rollup's rows

The aggregate of one kind's and queue's runs over a window (`runAgg`), the histograms in it, and the
rows that the hourly rollup stores: of an hour's aggregates, and of its error groups.
-/

namespace Flywheel

/-! ## Histograms -/

/-- `histMaxMs`: 24 hours. -/
def histMaxMs : ℤ := 24 * 60 * 60 * 1000

/-- `2 ^ (i / 4)` rounded: the largest `v` with `(2 v - 1) ^ 4 ≤ 2 ^ (i + 4)`. -/
def quarterOctave (i : ℕ) : ℤ := ((Nat.sqrt (Nat.sqrt (2 ^ (i + 4))) + 1) / 2 : ℕ)

/-- `computeHistBounds`, whose loop ends at the first step that reaches the last bound. -/
def computeHistBounds : List ℤ :=
  let steps := ((List.range 106).map quarterOctave).takeWhile fun v => decide (v < histMaxMs)
  steps.foldl (fun bounds v =>
    if bounds.getLast?.all fun last => decide (last < v) then bounds ++ [v] else bounds) []
    ++ [histMaxMs]

/-- `histBoundsV1` -/
def histBoundsV1 : List ℤ := computeHistBounds

/-- `histogram`: one count for each bound, and one for the overflow. -/
def Histogram : Type := Fin (histBoundsV1.length + 1) → ℤ

/-- `newHistogram` -/
def newHistogram : Histogram := fun _ => 0

/-- The first bucket of these bounds whose bound is not below the value. -/
def bucketIn (bounds : List ℤ) (ms : ℤ) : Fin (bounds.length + 1) :=
  ⟨bounds.findIdx fun bound => decide (ms ≤ bound), Nat.lt_succ_of_le List.findIdx_le_length⟩

/-- `histBucket` -/
def histBucket (ms : ℤ) : Fin (histBoundsV1.length + 1) := bucketIn histBoundsV1 ms

/-- `histogram.observe` -/
def Histogram.observe (h : Histogram) (ms : ℤ) : Histogram := fun i =>
  if i = histBucket ms then h i + 1 else h i

/-- `histogram.add` -/
def Histogram.add (h other : Histogram) : Histogram := fun i => h i + other i

/-! ## Aggregates -/

/-- `runAgg`: the finished runs of one kind and queue over a window, and its inserted jobs. -/
structure RunAgg where
  kind : String
  queue : String
  attempts : ℤ := 0
  success : ℤ := 0
  error : ℤ := 0
  timeout : ℤ := 0
  snooze : ℤ := 0
  cancelled : ℤ := 0
  crashed : ℤ := 0
  superseded : ℤ := 0
  discarded : ℤ := 0
  enqueued : ℤ := 0
  durCount : ℤ := 0
  durSumMs : ℤ := 0
  durMaxMs : ℤ := 0
  durHist : Histogram := newHistogram
  -- the successful run with the largest duration, ties by the larger id
  slowestRunID : String := ""
  waitCount : ℤ := 0
  waitSumMs : ℤ := 0
  waitMaxMs : ℤ := 0
  waitHist : Histogram := newHistogram
  costMicrosSum : ℤ := 0

/-- `jobStatsHourlyRow`: one rolled hour of one kind and queue, or of a total. Its percentile
columns are read by nothing here. -/
structure StatsHourRow where
  bucketStart : ℤ
  agg : RunAgg
  rolledAt : Time

/-- `jobErrorGroupHourlyRow`: one rolled hour of one kind's failures with one fingerprint. -/
structure ErrorGroupHourRow where
  bucketStart : ℤ
  kind : String
  fingerprint : String
  errorClass : String
  failures : ℤ
  discarded : ℤ
  firstRunID : Option String
  lastRunID : Option String
  sampleMessage : String
  rolledAt : Time
deriving DecidableEq, Inhabited

end Flywheel
