import Mathlib.Algebra.Order.Ring.Unbundled.Rat
import Flywheel.ErrorText
import Flywheel.Library.Dict

/-!
# The progress of an attempt

A worker sets its progress in memory, and a heartbeat that held the claim writes it to the run. The
sink skips a value that encodes to what it last wrote, and takes for written what was acknowledged.
A write that takes effect and is reported to have failed leaves another value stored than the sink
believes: a worker that then sets the acknowledged value again has it skipped.
-/

namespace Flywheel

open Relational Transition List

/-- A `float64`. -/
inductive Float64 where
  | nan
  | negInf
  | posInf
  | num (x : ℚ)

/-- `RunProgress`, with a percentage of the type `φ`: a `float64` as a worker sets it, and a number
once it is normalized. -/
structure RunProgress (φ : Type) where
  percent : Option φ := none
  message : List UInt8 := []
  counters : Dict (List UInt8) ℤ := Dict.empty

/-- `MaxProgressMessageBytes` -/
def maxProgressMessageBytes : ℕ := 256

/-- `MaxProgressCounters` -/
def maxProgressCounters : ℕ := 8

/-- `maxProgressCounterKeyBytes` -/
def maxProgressCounterKeyBytes : ℕ := 32

/-- The percentage that is kept: clamped, and none that is not a number. -/
def Float64.clamped : Float64 → Option ℚ
  | .nan => none
  | .negInf => some 0
  | .posInf => some 100
  | .num x => some (min (max x 0) 100)

/-- The keys of the counters that are kept: the first of the fitting ones, in their order. -/
def keptCounters (keys : List (List UInt8)) : List (List UInt8) :=
  ((keys.filter fun k => k ≠ [] && decide (k.length ≤ maxProgressCounterKeyBytes)).insertionSort
    (· ≤ ·)).take maxProgressCounters

/-- `normalizeProgress` -/
def normalizeProgress (p : RunProgress Float64) : RunProgress ℚ where
  percent := p.percent.bind Float64.clamped
  message := truncateBytes p.message maxProgressMessageBytes
  counters :=
    { entries := p.counters.entries.filter fun e =>
        decide (e.1 ∈ keptCounters (p.counters.entries.map Prod.fst))
      nodup := p.counters.nodup.sublist (filter_sublist.map _) }

/-- `progressSink`. Before the first write `lastWritten` equals no encoding. -/
structure ProgressSink where
  value : RunProgress ℚ := {}
  version : ℕ := 0
  written : ℕ := 0
  lastWritten : Option (List UInt8) := none

/-- `set` -/
def ProgressSink.set (s : ProgressSink) (p : RunProgress Float64) : ProgressSink :=
  { s with value := normalizeProgress p, version := s.version + 1 }

/-- `wrote` -/
def ProgressSink.wrote (raw : List UInt8) (version : ℕ) (s : ProgressSink) : ProgressSink :=
  { s with lastWritten := some raw, written := max s.written version }

section Marshal

-- `json.Marshal`, which no number fails
variable (marshal : RunProgress ℚ → List UInt8)

/-- `pending` -/
def ProgressSink.pending (s : ProgressSink) : ProgressSink × Option (List UInt8 × ℕ) :=
  if s.version = s.written then (s, none)
  else if s.lastWritten = some (marshal s.value) then ({ s with written := s.version }, none)
  else (s, some (marshal s.value, s.version))

/-- What becomes of a heartbeat's write: it is acknowledged, or reported to have failed, after it
took effect or without. -/
inductive WriteOutcome where
  | acknowledged
  | lost
  | failed

/-- The sink of an attempt, and the progress that is stored on its run. -/
structure Progress where
  sink : ProgressSink := {}
  stored : Option (List UInt8) := none

/-- `writeProgress`, with the values that the worker sets before it returns. -/
def Progress.write (outcome : WriteOutcome) (during : List (RunProgress Float64)) (a : Progress) :
    Progress :=
  match a.sink.pending marshal with
  | (sink, none) => { a with sink := during.foldl .set sink }
  | (sink, some (raw, version)) =>
    let sink := during.foldl .set sink
    match outcome with
    | .acknowledged => { sink := sink.wrote raw version, stored := some raw }
    | .lost => { sink, stored := some raw }
    | .failed => { a with sink }

/-- A set, or a heartbeat whose renewal held the claim: the others write nothing. -/
inductive ProgressStep where
  | set (p : RunProgress Float64)
  | beat (outcome : WriteOutcome) (during : List (RunProgress Float64))

/-- The values that a step sets. -/
def ProgressStep.sets : ProgressStep → List (RunProgress Float64)
  | .set p => [p]
  | .beat _ during => during

/-- The attempt after a step. -/
def Progress.step (a : Progress) : ProgressStep → Progress
  | .set p => { a with sink := a.sink.set p }
  | .beat outcome during => a.write marshal outcome during

/-- What the sink would skip as written is stored. -/
def Progress.Trusts (a : Progress) : Prop :=
  a.sink.version ≠ a.sink.written → a.sink.lastWritten = some (marshal a.sink.value) →
    a.stored = some (marshal a.sink.value)

/-- A heartbeat finds stored what the sink would skip. -/
def BeatTrusts (a : Progress) : ProgressStep → Prop
  | .set _ => True
  | .beat .. => a.Trusts marshal

variable {marshal} {a : Progress}

theorem foldl_set (ps : List (RunProgress Float64)) (s : ProgressSink) :
    (ps.foldl .set s).value = ps.foldl (fun _ p => normalizeProgress p) s.value ∧
    (ps.foldl .set s).version = s.version + ps.length ∧ (ps.foldl .set s).written = s.written := by
  induction ps generalizing s with
  | nil => exact ⟨rfl, rfl, rfl⟩
  | cons p ps ih =>
    obtain ⟨hvalue, hversion, hwritten⟩ := ih (s.set p)
    refine ⟨hvalue, hversion.trans ?_, hwritten⟩
    show s.version + 1 + ps.length = s.version + (ps.length + 1)
    omega

theorem Progress.step_sets (a : Progress) (e : ProgressStep) :
    (a.step marshal e).sink.value = e.sets.foldl (fun _ p => normalizeProgress p) a.sink.value ∧
    (a.step marshal e).sink.version = a.sink.version + e.sets.length := by
  cases e with
  | set p => exact ⟨rfl, rfl⟩
  | beat outcome during =>
    show (a.write marshal outcome during).sink.value = during.foldl _ _ ∧
      (a.write marshal outcome during).sink.version = _ + during.length
    unfold Progress.write ProgressSink.pending
    split_ifs
    · exact ⟨(foldl_set during _).1, (foldl_set during _).2.1⟩
    · exact ⟨(foldl_set during _).1, (foldl_set during _).2.1⟩
    · cases outcome <;> exact ⟨(foldl_set during _).1, (foldl_set during _).2.1⟩

theorem Progress.run_sets (history : List ProgressStep) (a : Progress) :
    (run (step marshal) a history).sink.value =
      (history.flatMap ProgressStep.sets).foldl (fun _ p => normalizeProgress p) a.sink.value ∧
    (run (step marshal) a history).sink.version =
      a.sink.version + (history.flatMap ProgressStep.sets).length := by
  induction history generalizing a with
  | nil => exact ⟨rfl, rfl⟩
  | cons e history ih =>
    obtain ⟨hvalue, hversion⟩ := ih (a.step marshal e)
    obtain ⟨hvalue', hversion'⟩ := @Progress.step_sets marshal a e
    rw [run_cons, flatMap_cons, foldl_append, length_append, hvalue, hvalue', hversion,
      hversion', Nat.add_assoc]
    exact ⟨rfl, rfl⟩

variable (marshal) in
/-- What is counted as written of the last value set is stored. -/
structure Progress.Sound (a : Progress) : Prop where
  le : a.sink.written ≤ a.sink.version
  caught : a.sink.written = a.sink.version → a.sink.version = 0 ∨
    a.stored = some (marshal a.sink.value)

/-- A heartbeat that finds stored what it skips keeps the accounts. -/
theorem Progress.Sound.step (h : a.Sound marshal) (e : ProgressStep)
    (hok : BeatTrusts marshal a e) : (a.step marshal e).Sound marshal := by
  have hle := h.le
  cases e with
  | set p =>
    constructor
    · show a.sink.written ≤ a.sink.version + 1
      omega
    · show a.sink.written = a.sink.version + 1 → _
      omega
  | beat outcome during =>
    -- a value that is set meanwhile is not counted as written
    have hset : ∀ a' : Progress, a'.Sound marshal →
        ({ a' with sink := during.foldl .set a'.sink } : Progress).Sound marshal := by
      intro a' ha'
      have hle' := ha'.le
      obtain ⟨-, hversion, hwritten⟩ := foldl_set during a'.sink
      cases during with
      | nil => exact ha'
      | cons p ps =>
        rw [length_cons] at hversion
        exact ⟨by dsimp only; omega, by dsimp only; omega⟩
    show (a.write marshal outcome during).Sound marshal
    unfold Progress.write ProgressSink.pending
    split_ifs with hdone hskip
    · exact hset a h
    · exact hset { a with sink := { a.sink with written := a.sink.version } }
        ⟨le_refl _, fun _ => .inr (hok hdone hskip)⟩
    · obtain ⟨hvalue, hversion, hwritten⟩ := foldl_set during a.sink
      cases outcome with
      | acknowledged =>
        dsimp only [ProgressSink.wrote]
        refine ⟨by dsimp only; omega, fun heq => ?_⟩
        dsimp only at heq
        obtain rfl : during = [] := length_eq_zero_iff.mp (by omega)
        exact .inr rfl
      | lost | failed => exact ⟨by dsimp only; omega, by dsimp only; omega⟩

end Marshal

/-- **A heartbeat catches up exactly when what it skips is stored.** After every history of sets and
heartbeats, with writes that fail before or after they take effect, whose heartbeats have found
stored what the sink would skip: the next heartbeat without an error, and without a set meanwhile,
leaves the normalized value last set on the run if and only if it finds that too. -/
theorem progress_catches_up_iff (marshal : RunProgress ℚ → List UInt8) (history : List ProgressStep)
    (hbeats : Legal (Progress.step marshal) (BeatTrusts marshal) {} history)
    (earlier : List (RunProgress Float64)) (p : RunProgress Float64)
    (hsets : history.flatMap ProgressStep.sets = earlier ++ [p]) :
    let a := run (Progress.step marshal) {} history
    (a.write marshal .acknowledged []).stored = some (marshal (normalizeProgress p)) ↔
      a.Trusts marshal := by
  intro a
  have hsound : a.Sound marshal := hbeats.invariant (fun _ e hok h => h.step e hok)
    ⟨le_refl _, fun _ => .inl rfl⟩
  obtain ⟨hvalue, hversion⟩ := @Progress.run_sets marshal history {}
  rw [hsets, foldl_append] at hvalue
  rw [hsets, length_append, length_singleton] at hversion
  change a.sink.value = normalizeProgress p at hvalue
  change a.sink.version = 0 + (earlier.length + 1) at hversion
  rw [← hvalue]
  unfold Progress.write ProgressSink.pending Progress.Trusts
  split_ifs with hdone hskip
  · have hcaught := (hsound.caught hdone.symm).resolve_left (by omega)
    exact ⟨fun _ hnot => absurd hdone hnot, fun _ => hcaught⟩
  · exact ⟨fun h _ _ => h, fun h => h hdone hskip⟩
  · exact ⟨fun _ _ heq => absurd heq hskip, fun _ => rfl⟩

/-- A write that fails without effect is repeated by the next heartbeat. -/
theorem failed_write_is_repeated :
    let a := run (Progress.step RunProgress.message) {}
      [.set { message := [65] }, .beat .acknowledged [], .set { message := [66] }, .beat .failed []]
    (a.write RunProgress.message .acknowledged []).stored = some [66] := by
  refine (progress_catches_up_iff RunProgress.message _ ?_ [{ message := [65] }] { message := [66] }
    rfl).mpr ?_
  · exact ⟨trivial, fun _ h => (by cases h), trivial, fun _ h => absurd h (by decide), trivial⟩
  · exact fun _ h => absurd h (by decide)

/-- The write of `B` takes effect and is reported to have failed. The worker sets `A` again, which
was acknowledged before: the heartbeat skips it without an error, and `B` stays on the run. -/
theorem lost_acknowledgement_hides_progress :
    let a := run (Progress.step RunProgress.message) {}
      [.set { message := [65] }, .beat .acknowledged [], .set { message := [66] }, .beat .lost [],
        .set { message := [65] }]
    (normalizeProgress { message := [65] }).message = [65] ∧
      (a.write RunProgress.message .acknowledged []).stored = some [66] := by
  decide

end Flywheel
