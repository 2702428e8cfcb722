import Mathlib.Order.Bounds.Basic
import Flywheel.Database

/-!
# The captured log of an attempt

The lines that a worker logs go through a buffer into `job_run_logs`. A capture takes the buffer's
lock twice, first to see whether a line has been dropped and then to add or to drop its own. A flush
takes the pending lines under the lock and writes them in batches outside it; when it fails it puts
them back before the lines captured since, the written ones among them, and the next flush skips
those.

What is not yet acknowledged is the end of the lines kept, and what is stored is a beginning of them
that reaches into it (`LogInv`). So the last flush completes the table.
-/

namespace Flywheel

open List

/-- A captured line: what `add` is given. -/
structure LogLine where
  level : ℤ
  message : String
  attrs : String
  loggedAt : Time

/-- A line's size: its message plus its attributes as JSON. -/
def LogLine.size (l : LogLine) : ℕ := l.message.utf8ByteSize + l.attrs.utf8ByteSize

/-- The columns of a `jobRunLogRow` beside its run and its job. -/
structure LineRow extends LogLine where
  seq : ℕ

/-- The bounds of a `runLogBuffer`, resolved. -/
structure LogBounds where
  maxLines : ℕ
  maxBytes : ℕ

/-- `runLogBuffer` -/
structure RunLogBuffer where
  nextSeq : ℕ := 0
  lines : ℕ := 0
  bytes : ℕ := 0
  dropped : ℕ := 0
  pending : List LineRow := []

/-- `truncated` -/
def RunLogBuffer.truncated (b : RunLogBuffer) : Bool := decide (0 < b.dropped)

/-- `drop` -/
def RunLogBuffer.drop (b : RunLogBuffer) : RunLogBuffer := { b with dropped := b.dropped + 1 }

/-- `add` -/
def RunLogBuffer.add (c : LogBounds) (b : RunLogBuffer) (l : LogLine) : RunLogBuffer :=
  if b.dropped > 0 ∨ b.lines + 1 > c.maxLines ∨ b.bytes + l.size > c.maxBytes then b.drop
  else { b with
    lines := b.lines + 1
    bytes := b.bytes + l.size
    nextSeq := b.nextSeq + 1
    pending := b.pending ++ [{ l with seq := b.nextSeq + 1 }] }

/-- `runLogWriteBatch` -/
def runLogWriteBatch : ℕ := 500

/-- The line that the last flush adds: a warning with the number of dropped lines. -/
def truncationLine (dropped : ℕ) (now : Time) : LogLine where
  level := 4
  message := "jobs: run log truncated"
  attrs := s!"\x7b\"dropped_lines\":{dropped}\x7d"
  loggedAt := now

/-- The row of that line, under the next number, if any line was dropped. -/
def truncationRows (dropped seq : ℕ) (now : Time) : List LineRow :=
  if dropped > 0 then [{ truncationLine dropped now with seq }] else []

/-- An insert that skips a line already written. -/
def insertLine (table : List LineRow) (r : LineRow) : List LineRow :=
  if table.any fun s => s.seq == r.seq then table else table ++ [r]

/-- An attempt's log: the buffer, the stored lines, the flush under way with the lines that it has
written and those that it has yet to write, what each goroutine's `truncated` returned, and the
lines captured so far, in the order of their adds and drops. -/
structure RunLog where
  buffer : RunLogBuffer := {}
  table : List LineRow := []
  written : List LineRow := []
  unwritten : List LineRow := []
  seen : ℕ → Bool := fun _ => false
  captured : List LogLine := []

/-- What happens next. A batch's statement may take effect and be reported as failed. -/
inductive LogEvent where
  | check (goroutine : ℕ)
  | capture (goroutine : ℕ) (l : LogLine)
  | flush
  | batch
  | fail (tookEffect : Bool)

/-- A batch's statement. -/
def RunLog.write (s : RunLog) : RunLog :=
  { s with
    table := (s.unwritten.take runLogWriteBatch).foldl insertLine s.table
    written := s.written ++ s.unwritten.take runLogWriteBatch
    unwritten := s.unwritten.drop runLogWriteBatch }

/-- A flush that fails puts its lines back. -/
def RunLog.putBack (s : RunLog) : RunLog :=
  { s with
    buffer := { s.buffer with pending := s.written ++ s.unwritten ++ s.buffer.pending }
    written := []
    unwritten := [] }

/-- One event. A flush starts when none is under way, and ends with its last batch. -/
def RunLog.step (c : LogBounds) (s : RunLog) : LogEvent → RunLog
  | .check g => { s with seen := Function.update s.seen g s.buffer.truncated }
  | .capture g l =>
    { s with
      buffer := if s.seen g then s.buffer.drop else s.buffer.add c l
      captured := s.captured ++ [l] }
  | .flush =>
    if s.unwritten = [] then
      { s with buffer := { s.buffer with pending := [] }, unwritten := s.buffer.pending }
    else s
  | .batch => if s.write.unwritten = [] then { s.write with written := [] } else s.write
  | .fail tookEffect => (if tookEffect then s.write else s).putBack

/-- The log after these events. -/
def RunLog.run (c : LogBounds) (events : List LogEvent) : RunLog := events.foldl (RunLog.step c) {}

/-- The table after the attempt's last flush, which succeeds; a flush still under way has failed. -/
def RunLog.finish (s : RunLog) (now : Time) : List LineRow :=
  (s.putBack.buffer.pending ++ truncationRows s.buffer.dropped (s.buffer.nextSeq + 1) now).foldl
    insertLine s.table

/-! ## The lines kept -/

/-- The lines, numbered from 1. -/
def numberLines (ls : List LogLine) : List LineRow := ls.mapIdx fun i l => { l with seq := i + 1 }

/-- The bounds hold of these lines. -/
def LogBounds.Admits (c : LogBounds) (ls : List LogLine) : Prop :=
  ls.length ≤ c.maxLines ∧ (ls.map LogLine.size).sum ≤ c.maxBytes

/-- What every event keeps: the lines kept are a prefix of those captured, which the bounds admit
and the next line passes. The unacknowledged ones are the last of them, and the stored ones are the
first, up to at least what the flush under way has written. -/
structure LogInv (c : LogBounds) (s : RunLog) (kept rest : List LogLine) : Prop where
  captured : s.captured = kept ++ rest
  admitted : c.Admits kept
  full : ∀ l ∈ rest.head?, ¬c.Admits (kept ++ [l])
  dropped : s.buffer.dropped = rest.length
  lines : s.buffer.lines = kept.length
  bytes : s.buffer.bytes = (kept.map LogLine.size).sum
  nextSeq : s.buffer.nextSeq = kept.length
  seen : ∀ g, s.seen g = true → rest ≠ []
  stored : ∃ acked, acked ++ s.written ++ s.unwritten ++ s.buffer.pending = numberLines kept ∧
    acked ++ s.written <+: s.table ∧ s.table <+: numberLines kept

theorem numberLines_append (ls : List LogLine) (l : LogLine) :
    numberLines (ls ++ [l]) = numberLines ls ++ [{ l with seq := ls.length + 1 }] := by
  simp [numberLines]

theorem numberLines_seq (ls : List LogLine) : ((numberLines ls).map LineRow.seq).Nodup := by
  have hseq : (numberLines ls).map LineRow.seq = List.range' 1 ls.length := by
    refine ext_getElem (by simp [numberLines]) fun i _ _ => ?_
    simp [numberLines, Nat.add_comm]
  rw [hseq]
  exact nodup_range'

/-- Writing the next lines in turn, some of them stored already, stores them. -/
theorem insertLines_stored {all pre rows post table : List LineRow}
    (hnodup : (all.map LineRow.seq).Nodup) (hall : pre ++ rows ++ post = all)
    (hpre : pre <+: table) (htable : table <+: all) :
    pre ++ rows <+: rows.foldl insertLine table ∧ rows.foldl insertLine table <+: all := by
  induction rows generalizing pre table with
  | nil => exact ⟨by rwa [append_nil], htable⟩
  | cons r rows ih =>
    have hnext : pre ++ [r] <+: insertLine table r ∧ insertLine table r <+: all := by
      obtain ⟨more, rfl⟩ := hpre
      subst hall
      unfold insertLine
      cases more with
      | nil =>
        have hnew : ∀ s ∈ pre, s.seq ≠ r.seq := by
          rw [append_assoc, map_append, nodup_append] at hnodup
          exact fun s hs => hnodup.2.2 _ (mem_map_of_mem hs) _ (by simp)
        rw [if_neg (by simpa using hnew), append_nil]
        exact ⟨prefix_rfl, by simp⟩
      | cons x more =>
        obtain rfl : x = r := by
          simp_all
        rw [if_pos (by simp)]
        exact ⟨by simp, htable⟩
    have hrest := ih (by simpa using hall) hnext.1 hnext.2
    rwa [append_assoc, singleton_append] at hrest

section Inv

variable {c : LogBounds} {s : RunLog} {kept rest : List LogLine}

section

variable (h : LogInv c s kept rest)

include h

theorem LogInv.write : LogInv c s.write kept rest := by
  obtain ⟨acked, hall, hwritten, htable⟩ := h.stored
  have hsplit : acked ++ s.written ++ s.unwritten.take runLogWriteBatch ++
      (s.unwritten.drop runLogWriteBatch ++ s.buffer.pending) = numberLines kept := by
    rw [← hall, ← append_assoc, append_assoc (acked ++ s.written), take_append_drop]
  have hstored := insertLines_stored (numberLines_seq kept) hsplit hwritten htable
  rw [append_assoc acked] at hsplit hstored
  exact { h with stored := ⟨acked, (append_assoc _ _ _).trans hsplit, hstored⟩ }

theorem LogInv.putBack : LogInv c s.putBack kept rest := by
  obtain ⟨acked, hall, hwritten, htable⟩ := h.stored
  refine { h with stored := ⟨acked, ?_, ?_, htable⟩ }
  · rw [← hall]
    simp [RunLog.putBack]
  · exact (append_nil acked).symm ▸ (prefix_append _ _).trans hwritten

theorem LogInv.drop (l : LogLine) (hfull : rest = [] → ¬c.Admits (kept ++ [l])) :
    LogInv c { s with buffer := s.buffer.drop, captured := s.captured ++ [l] } kept
      (rest ++ [l]) where
  __ := h
  captured := by rw [h.captured, append_assoc]
  full := by
    cases rest with
    | nil => simpa using hfull
    | cons x rest => exact h.full
  dropped := by simp [RunLogBuffer.drop, h.dropped]
  seen _ _ := by simp

theorem LogInv.add (l : LogLine) : ∃ kept rest,
    LogInv c { s with buffer := s.buffer.add c l, captured := s.captured ++ [l] } kept rest := by
  unfold RunLogBuffer.add
  have hadmits : c.Admits (kept ++ [l]) ↔
      s.buffer.lines + 1 ≤ c.maxLines ∧ s.buffer.bytes + l.size ≤ c.maxBytes := by
    simp [LogBounds.Admits, h.lines, h.bytes]
  split_ifs with hbounds
  · refine ⟨kept, rest ++ [l], h.drop l fun hrest => ?_⟩
    have hdropped := h.dropped
    rw [hrest, length_nil] at hdropped
    rw [hadmits]
    omega
  · obtain rfl : rest = [] := eq_nil_of_length_eq_zero (by have := h.dropped; omega)
    obtain ⟨acked, hall, hwritten, htable⟩ := h.stored
    refine ⟨kept ++ [l], [], ?_, hadmits.mpr (by omega), by simp, h.dropped, ?_, ?_, ?_, h.seen,
      acked, ?_, hwritten, ?_⟩
    · simp [h.captured]
    · simp [h.lines]
    · simp [h.bytes]
    · simp [h.nextSeq]
    · simp [numberLines_append, ← hall, h.nextSeq]
    · exact htable.trans (by simp [numberLines_append])

theorem LogInv.step (e : LogEvent) : ∃ kept rest, LogInv c (s.step c e) kept rest := by
  cases e with
  | check g =>
    refine ⟨kept, rest, { h with seen := fun g' hg' => ?_ }⟩
    change Function.update s.seen g s.buffer.truncated g' = true at hg'
    rcases eq_or_ne g' g with rfl | hne
    · rw [Function.update_self, RunLogBuffer.truncated, decide_eq_true_eq, h.dropped] at hg'
      exact ne_nil_of_length_pos hg'
    · rw [Function.update_of_ne hne] at hg'
      exact h.seen g' hg'
  | capture g l =>
    rw [RunLog.step]
    split_ifs with hseen
    · exact ⟨kept, rest ++ [l], h.drop l fun hrest => absurd hrest (h.seen g hseen)⟩
    · exact h.add l
  | flush =>
    rw [RunLog.step]
    split_ifs with hidle
    · obtain ⟨acked, hall, hstored⟩ := h.stored
      refine ⟨kept, rest, { h with stored := ⟨acked, ?_, hstored⟩ }⟩
      simpa [hidle] using hall
    · exact ⟨kept, rest, h⟩
  | batch =>
    rw [RunLog.step]
    split_ifs with hdone
    · obtain ⟨acked, hall, hstored⟩ := h.write.stored
      refine ⟨kept, rest, { h.write with stored := ⟨acked ++ s.write.written, ?_, ?_⟩ }⟩
      · simpa [hdone] using hall
      · simpa using hstored
    · exact ⟨kept, rest, h.write⟩
  | fail tookEffect =>
    cases tookEffect with
    | true => exact ⟨kept, rest, h.write.putBack⟩
    | false => exact ⟨kept, rest, h.putBack⟩

theorem LogInv.run (events : List LogEvent) :
    ∃ kept rest, LogInv c (events.foldl (RunLog.step c) s) kept rest := by
  induction events generalizing s kept rest with
  | nil => exact ⟨kept, rest, h⟩
  | cons e events ih =>
    obtain ⟨kept', rest', h'⟩ := h.step e
    exact ih h'

theorem LogInv.longest :
    IsGreatest {k | k ≤ s.captured.length ∧ c.Admits (s.captured.take k)} kept.length := by
  rw [h.captured]
  refine ⟨⟨by simp, by simpa using h.admitted⟩, fun k hk => ?_⟩
  cases rest with
  | nil => simpa using hk.1
  | cons l more =>
    by_contra hlt
    have hprefix : kept ++ [l] <+: (kept ++ l :: more).take k := by
      rw [prefix_take_iff]
      exact ⟨by simp, by simpa [Nat.succ_le_iff] using hlt⟩
    obtain ⟨tail, htail⟩ := hprefix
    refine h.full l rfl ?_
    have hmore := hk.2
    rw [← htail] at hmore
    simp only [LogBounds.Admits, length_append, map_append, sum_append] at hmore ⊢
    omega

theorem LogInv.finish (now : Time) :
    s.finish now = numberLines kept ++ truncationRows rest.length (kept.length + 1) now := by
  obtain ⟨acked, hall, hwritten, htable⟩ := h.putBack.stored
  unfold RunLog.finish
  rw [h.dropped, h.nextSeq]
  have hnodup : ((numberLines kept ++ truncationRows rest.length (kept.length + 1) now).map
      LineRow.seq).Nodup := by
    unfold truncationRows
    split_ifs
    · rw [← numberLines_append]
      exact numberLines_seq _
    · rw [append_nil]
      exact numberLines_seq _
  generalize truncationRows rest.length (kept.length + 1) now = last at hnodup ⊢
  have hwhole : acked ++ s.putBack.written ++ (s.putBack.buffer.pending ++ last) =
      numberLines kept ++ last := by
    rw [← hall]
    simp [RunLog.putBack]
  obtain ⟨hle, hge⟩ := insertLines_stored hnodup ((append_nil _).trans hwhole) hwritten
    (htable.trans (prefix_append _ _))
  rw [hwhole] at hle
  exact hge.eq_of_length_le hle.length_le

end

end Inv

/-- **The captured log is a gapless prefix.** After any checks, captures, flushes, batches and
failures, the last flush leaves the longest prefix of the captured lines that the bounds admit,
numbered from 1, and, if a line was dropped, the line that says how many. -/
theorem captured_log_is_prefix (c : LogBounds) (events : List LogEvent) (now : Time) :
    let s := RunLog.run c events
    ∃ k, IsGreatest {k | k ≤ s.captured.length ∧ c.Admits (s.captured.take k)} k ∧
      s.finish now =
        numberLines (s.captured.take k) ++ truncationRows (s.captured.length - k) (k + 1) now := by
  have hinit : LogInv c {} [] [] :=
    ⟨rfl, ⟨Nat.zero_le _, Nat.zero_le _⟩, by simp, rfl, rfl, rfl, rfl, by simp, [], rfl, by simp⟩
  obtain ⟨kept, rest, h⟩ := hinit.run events
  change LogInv c (RunLog.run c events) kept rest at h
  refine ⟨kept.length, h.longest, ?_⟩
  rw [h.finish, h.captured, take_left, length_append, Nat.add_sub_cancel_left]

end Flywheel
