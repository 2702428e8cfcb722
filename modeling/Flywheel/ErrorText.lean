import Flywheel.Fencing
import Flywheel.Library.Json
import Mathlib.Data.List.GetD
import Mathlib.Order.Bounds.Basic

/-!
# The texts of a failed attempt

An error's message and a panic's stack are byte strings of the worker's making. `runErrorFields`
cuts them and renders the two columns that keep them; PostgreSQL takes a text only if it is UTF-8
without a NUL byte, and a `jsonb` value only if it is JSON without the escape of NUL, and a refused
column rolls the whole finalize back (`finalizeFailure`).

The JSON encoder mends what is not UTF-8, so that the payload is refused for a NUL alone; the
message column gets the bytes as they are. So a failure is recorded exactly when its message, as
cut, is UTF-8 without NUL, its class is, and its stack, as cut, has no NUL (`accepted_iff`).
-/

namespace Flywheel

open Relational Transition Encoding List Option Table

/-! ## The columns -/

/-- Where `truncate` cuts: the last byte at or before `n` that may start a rune. -/
def runeCut (s : List UInt8) : ℕ → ℕ
  | 0 => 0
  | n + 1 => if runeStart (s.getD (n + 1) 0) then n + 1 else runeCut s n

/-- `truncate`, on the bytes of any string. -/
def truncateBytes (s : List UInt8) (n : ℕ) : List UInt8 :=
  if s.length ≤ n then s else s.take (runeCut s n)

/-- `maxPanicStack` -/
def maxPanicStack : ℕ := 16 * 1024

/-- A key of the payload. -/
def payloadKey (s : String) : List UInt8 := s.toByteArray.data.toList

/-- `runErrorFields`: the message as stored, and the payload, whose keys the encoder sorts. -/
def runErrorFields (message stack : List UInt8) : List UInt8 × List Char :=
  let stored := truncateBytes message maxErrorMessage
  let cut := decide (stored.length < message.length)
  (stored, Json.marshal <|
    (payloadKey "message", .string stored) ::
      ((if cut then [(payloadKey "message_bytes", .number message.length)] else []) ++
        (if stack ≠ [] then [(payloadKey "stack", .string (truncateBytes stack maxPanicStack))]
          else []) ++
        if cut then [(payloadKey "truncated", .bool true)] else []))

/-- A failed attempt: the error's text, the stack of the panic if it was one, and the verdict. -/
structure WorkFailure where
  message : List UInt8
  stack : List UInt8 := []
  verdict : WorkError := {}

/-- The stack that `runWork` keeps of a panic. -/
def WorkFailure.panicStack (e : WorkFailure) : List UInt8 := truncateBytes e.stack maxPanicStack

/-- The two columns of a failure. -/
def WorkFailure.columns (e : WorkFailure) : List UInt8 × List Char :=
  runErrorFields e.message e.panicStack

/-- PostgreSQL takes the bytes as a text. -/
def acceptsText (s : List UInt8) : Bool := decide (s.toByteArray.IsValidUTF8 ∧ 0 ∉ s)

/-- PostgreSQL takes the text as a `jsonb` value. -/
def acceptsJsonb (cs : List Char) : Bool := Json.valid cs && !Json.escapesNul cs

/-- The bytes of a class. -/
def ErrorClass.bytes : ErrorClass → List UInt8
  | other name => name
  | c => c.name.toByteArray.data.toList

/-- PostgreSQL takes every column of the failed run that a worker has a hand in. The others hold
fixed words, numbers, times, and the hex digits of the fingerprint. -/
def WorkFailure.accepted (e : WorkFailure) : Bool :=
  acceptsText e.columns.1 && acceptsJsonb e.columns.2 && acceptsText e.verdict.classOf.bytes

/-- The error as the driver's other columns read it: with the text that the message column holds. -/
def WorkFailure.workError (e : WorkFailure) : WorkError :=
  { e.verdict with message := (String.fromUTF8? e.columns.1.toByteArray).getD "" }

/-- `Finalize` of a failed attempt, on PostgreSQL. -/
def finalizeFailure (opts : DriverOpts) (ctx : Context) (raw : RawJob) (runID : String)
    (result : Result) (e : WorkFailure) (finishedAt : Time) (db : Db) :
    Except TxError (Commit FinalizeOutcome) :=
  finalize opts { ctx with refusesRun := !e.accepted } raw runID result
    (some e.workError) finishedAt db

/-! ## What PostgreSQL takes -/

variable {db : Db} {raw : RawJob} {n : ℕ}

theorem truncateBytes_of_le {s : List UInt8} (h : s.length ≤ n) : truncateBytes s n = s := if_pos h

variable (s : List UInt8) {result : Result}

theorem runeCut_le (n : ℕ) : runeCut s n ≤ n := by
  induction n with
  | zero => exact le_refl _
  | succ n ih =>
    rw [runeCut]
    grind

theorem length_truncateBytes_le (n : ℕ) : (truncateBytes s n).length ≤ n := by
  rw [truncateBytes]
  split_ifs with h
  · exact h
  · rw [length_take]
    exact (min_le_left _ _).trans (runeCut_le s n)

theorem truncateBytes_truncateBytes (n : ℕ) :
    truncateBytes (truncateBytes s n) n = truncateBytes s n :=
  truncateBytes_of_le (length_truncateBytes_le s n)

/-- What a failure's texts must be to be recorded: the message, as cut, UTF-8 without a NUL byte,
the stack, as cut, without a NUL byte, and the class UTF-8 without one. -/
def WorkFailure.Storable (e : WorkFailure) : Prop :=
  ((truncateBytes e.message maxErrorMessage).toByteArray.IsValidUTF8 ∧
    0 ∉ truncateBytes e.message maxErrorMessage) ∧
  0 ∉ truncateBytes e.stack maxPanicStack ∧
  e.verdict.classOf.bytes.toByteArray.IsValidUTF8 ∧ 0 ∉ e.verdict.classOf.bytes

/-- The payload escapes a NUL exactly for a NUL of the message or of the stack: its keys hold none,
and the other members are not strings. -/
theorem escapesNul_payload (message stack : List UInt8) :
    Json.escapesNul (runErrorFields message stack).2 = true ↔
      0 ∈ truncateBytes message maxErrorMessage ∨ 0 ∈ truncateBytes stack maxPanicStack := by
  have hmessage : 0 ∉ payloadKey "message" := by decide
  have hbytes : 0 ∉ payloadKey "message_bytes" := by decide
  have hstack : 0 ∉ payloadKey "stack" := by decide
  have htruncated : 0 ∉ payloadKey "truncated" := by decide
  rw [runErrorFields]
  rw [Json.escapesNul_marshal]
  have hempty : 0 ∉ truncateBytes [] maxPanicStack := by decide
  by_cases hcut : (truncateBytes message maxErrorMessage).length < message.length <;>
  by_cases hpanic : stack = [] <;>
  simp [Json.strings, Json.Scalar.strings, hcut, hpanic, hmessage, hbytes, hstack, htruncated,
    hempty]

theorem acceptsJsonb_columns (e : WorkFailure) : acceptsJsonb e.columns.2 = true ↔
      0 ∉ truncateBytes e.message maxErrorMessage ∧ 0 ∉ truncateBytes e.stack maxPanicStack := by
  have hvalid : Json.valid e.columns.2 = true := Json.valid_marshal _
  rw [acceptsJsonb, hvalid, Bool.true_and, Bool.not_eq_true', ← Bool.not_eq_true, ← not_or]
  refine not_congr ((escapesNul_payload e.message e.panicStack).trans ?_)
  rw [WorkFailure.panicStack, truncateBytes_truncateBytes]

/-- **PostgreSQL takes a failed run's columns exactly when its texts are storable.** -/
theorem accepted_iff (e : WorkFailure) : e.accepted = true ↔ e.Storable := by
  rw [WorkFailure.accepted, Bool.and_eq_true, Bool.and_eq_true, acceptsJsonb_columns, acceptsText,
    acceptsText, decide_eq_true_iff, decide_eq_true_iff]
  constructor
  · rintro ⟨⟨hmessage, -, hstack⟩, hclass⟩
    exact ⟨hmessage, hstack, hclass⟩
  · rintro ⟨hmessage, hstack, hclass⟩
    exact ⟨⟨hmessage, hmessage.2, hstack⟩, hclass⟩

/-! ## A message of runes -/

/-- The bytes of a list of runes. -/
def utf8 (cs : List Char) : List UInt8 := cs.flatMap String.utf8EncodeChar

/-- The cut is the one start of a rune at or before `n`, when only its continuation reaches `n`. -/
theorem runeCut_eq {s : List UInt8} {k : ℕ} (hk : k ≤ n)
    (hstart : k = 0 ∨ runeStart (s.getD k 0) = true)
    (hnext : ∀ i, k < i → i ≤ n → runeStart (s.getD i 0) = false) : runeCut s n = k := by
  induction n with
  | zero => exact (Nat.le_zero.mp hk).symm
  | succ n ih =>
    rw [runeCut]
    rcases Nat.lt_or_eq_of_le hk with hlt | rfl
    · grind
    · simp_all

theorem utf8_cons (c : Char) (cs : List Char) :
    utf8 (c :: cs) = String.utf8EncodeChar c ++ utf8 cs :=
  flatMap_cons

/-- The runes that fit, and what does not: either all fit, or the next rune reaches past `n`. -/
theorem truncateRunes_split (n : ℕ) (cs : List Char) : (utf8 (truncateRunes n cs)).length ≤ n ∧
    (truncateRunes n cs = cs ∨ ∃ c rest, cs = truncateRunes n cs ++ c :: rest ∧
      n < (utf8 (truncateRunes n cs)).length + c.utf8Size) := by
  induction cs generalizing n with
  | nil => exact ⟨Nat.zero_le n, .inl rfl⟩
  | cons c cs ih =>
    rw [truncateRunes]
    split_ifs with hfits
    · obtain ⟨hlength, hrest⟩ := ih (n - c.utf8Size)
      have hcons : (utf8 (c :: truncateRunes (n - c.utf8Size) cs)).length =
          c.utf8Size + (utf8 (truncateRunes (n - c.utf8Size) cs)).length := by
        rw [utf8_cons, length_append, String.length_utf8EncodeChar]
      grind
    · refine ⟨Nat.zero_le n, .inr ⟨c, cs, rfl, ?_⟩⟩
      omega

theorem utf8_append (cs ds : List Char) : utf8 (cs ++ ds) = utf8 cs ++ utf8 ds := flatMap_append

/-- What the runes that fit leave out is nothing, or begins with the bytes of a rune that reaches
past `n`. -/
theorem truncateRunes_next (n : ℕ) (cs : List Char) : truncateRunes n cs = cs ∨ ∃ b bs more,
      utf8 cs = utf8 (truncateRunes n cs) ++ (b :: (bs ++ more)) ∧ runeStart b = true ∧
        (∀ x ∈ bs, runeStart x = false) ∧ n < (utf8 (truncateRunes n cs)).length +
          (bs.length + 1) := by
  refine (truncateRunes_split n cs).2.imp_right ?_
  rintro ⟨c, rest, heq, hpast⟩
  obtain ⟨b, bs, hc, hb, hbs⟩ := utf8EncodeChar_eq_cons c
  rw [← String.length_utf8EncodeChar, hc, length_cons] at hpast
  refine ⟨b, bs, utf8 rest, ?_, hb, hbs, hpast⟩
  conv_lhs => rw [heq]
  rw [utf8_append, utf8_cons, hc, cons_append]

/-- **On runes the cut keeps whole runes**: it is that of `truncate`. -/
theorem truncateBytes_utf8 (cs : List Char) (n : ℕ) :
    truncateBytes (utf8 cs) n = utf8 (truncateRunes n cs) := by
  have hlength := (truncateRunes_split n cs).1
  rcases truncateRunes_next n cs with hall | ⟨b, bs, more, hbytes, hb, hbs, hpast⟩
  · rw [hall] at hlength ⊢
    exact truncateBytes_of_le hlength
  · have hcut : runeCut (utf8 cs) n = (utf8 (truncateRunes n cs)).length := by
      refine runeCut_eq hlength (.inr ?_) fun i hlt hle => ?_
      · grind
      · grind
    have hlong : ¬ (utf8 cs).length ≤ n := by
      grind
    rw [truncateBytes, if_neg hlong, hcut, hbytes, take_left]

/-- A place in a text where a rune starts, or its end. -/
def RuneBoundary (s : List UInt8) (i : ℕ) : Prop :=
  i = s.length ∨ ∃ b, s[i]? = some b ∧ runeStart b = true

theorem RuneBoundary.le {s : List UInt8} {i : ℕ} (h : RuneBoundary s i) : i ≤ s.length := by
  rcases h with rfl | ⟨b, hb, -⟩
  · exact le_refl _
  · exact (List.getElem?_eq_some_iff.mp hb).1.le

/-- **The cut is the last boundary at or before `n`.** -/
theorem isGreatest_truncateBytes (cs : List Char) (n : ℕ) :
    IsGreatest {i | RuneBoundary (utf8 cs) i ∧ i ≤ n} (truncateBytes (utf8 cs) n).length := by
  rw [truncateBytes_utf8]
  have hlength := (truncateRunes_split n cs).1
  rcases truncateRunes_next n cs with hall | ⟨b, bs, more, hbytes, hb, hbs, hpast⟩
  · rw [hall] at hlength ⊢
    exact ⟨⟨.inl rfl, hlength⟩, fun i hi => hi.1.le⟩
  · rw [hbytes]
    generalize utf8 (truncateRunes n cs) = kept at *
    refine ⟨⟨.inr ⟨b, by simp, hb⟩, hlength⟩, fun i hi => ?_⟩
    by_contra hlt
    -- past the cut and up to `n` there are only continuation bytes
    obtain ⟨j, rfl⟩ := Nat.exists_eq_add_of_lt (not_le.mp hlt)
    obtain ⟨hend | ⟨x, hx, hstart⟩, hle⟩ := hi
    · simp only [length_append, length_cons] at hend
      omega
    · rw [Nat.add_assoc, getElem?_append_right (Nat.le_add_right _ _), Nat.add_sub_cancel_left,
        getElem?_cons_succ, getElem?_append_left (by omega)] at hx
      rw [hbs x (mem_of_getElem? hx)] at hstart
      cases hstart

theorem truncateBytes_start (n : ℕ) : truncateBytes s n <+: s := by
  unfold truncateBytes
  split_ifs
  · exact prefix_rfl
  · exact take_prefix _ _

/-- The boundaries of a text that was cut are those of the text up to the cut. -/
theorem runeBoundary_truncateBytes {cs : List Char} {m i : ℕ} :
    RuneBoundary (truncateBytes (utf8 cs) m) i ↔ RuneBoundary (utf8 cs) i ∧ i ≤ m := by
  have hcut := isGreatest_truncateBytes cs m
  obtain ⟨more, hmore⟩ := truncateBytes_start (utf8 cs) m
  constructor
  · intro hi
    refine ⟨?_, hi.le.trans hcut.1.2⟩
    rcases hi with rfl | ⟨b, hb, hstart⟩
    · exact hcut.1.1
    · refine .inr ⟨b, ?_, hstart⟩
      rw [← hmore, getElem?_append_left (List.getElem?_eq_some_iff.mp hb).1, hb]
  · intro hi
    rcases (hcut.2 hi).eq_or_lt with heq | hlt
    · exact .inl heq
    · rcases hi.1 with rfl | ⟨b, hb, hstart⟩
      · exact absurd (truncateBytes_start (utf8 cs) m).length_le (not_le.mpr hlt)
      · rw [← hmore, getElem?_append_left hlt] at hb
        exact .inr ⟨b, hb, hstart⟩

/-- **Truncation keeps the longest valid prefix.** Of a text that is UTF-8 it keeps UTF-8: a prefix
of at most `n` bytes, and no longer one of them ends where a rune does; so that two cuts in turn are
the one cut at the smaller bound. -/
theorem truncation_keeps_longest (s : List UInt8) (n : ℕ) (hs : s.toByteArray.IsValidUTF8) :
    (truncateBytes s n).toByteArray.IsValidUTF8 ∧ truncateBytes s n <+: s ∧
      (truncateBytes s n).length ≤ n ∧
      (∀ p, p <+: s → RuneBoundary s p.length → p.length ≤ n →
        p.length ≤ (truncateBytes s n).length) ∧
      ∀ m, truncateBytes (truncateBytes s m) n = truncateBytes s (min m n) := by
  obtain ⟨cs, hcs⟩ := hs
  obtain rfl : s = utf8 cs := by
    unfold utf8
    simpa [List.utf8Encode] using congrArg (fun b => b.data.toList) hcs
  have hcut := isGreatest_truncateBytes cs n
  refine ⟨?_, truncateBytes_start _ n, hcut.1.2, fun p _ hp hle => hcut.2 ⟨hp, hle⟩, fun m => ?_⟩
  · rw [truncateBytes_utf8]
    exact ⟨_, rfl⟩
  · have htwice := isGreatest_truncateBytes (truncateRunes m cs) n
    rw [← truncateBytes_utf8] at htwice
    simp only [runeBoundary_truncateBytes, and_assoc, ← le_min_iff] at htwice
    have hlength := htwice.unique (isGreatest_truncateBytes cs (min m n))
    have hprefix := (truncateBytes_start (truncateBytes (utf8 cs) m) n).trans
      (truncateBytes_start (utf8 cs) m)
    exact (prefix_of_prefix_length_le hprefix (truncateBytes_start _ _)
      hlength.le).eq_of_length hlength

/-- A rune of two bytes is cut as a whole. -/
theorem half_rune_is_cut :
    (truncateBytes [0x61, 0xC3, 0xA9] 2).toByteArray.IsValidUTF8 ∧
      truncateBytes [0x61, 0xC3, 0xA9] 2 = [0x61] :=
  ⟨(truncation_keeps_longest [0x61, 0xC3, 0xA9] 2 ⟨['a', 'é'], rfl⟩).1, by decide⟩

/-! ## What a finalize records -/

/-- The barrier that the job's parent declares, if it has a parent that declares one, is of a kind,
and its continuation can be built from the stored spec. -/
def Db.ParentBuilds (ctx : Context) (raw : RawJob) (db : Db) : Prop :=
  ∀ p ∈ raw.parentJobID, ∀ parent ∈ db.job? p, ∀ kind, parent.barrierKind = some kind → kind ≠ "" ∧
    ∃ spec row, parent.barrierSpec = some spec ∧ continuationRow ctx 0 kind spec p raw.id = .ok row

/-- A result beside an error: no output, follow-ups or barrier, and neither a cancel nor a
snooze. -/
def Result.Plain (r : Result) : Prop :=
  r.output = none ∧ r.followUps = [] ∧ r.barrier = none ∧ r.cancel = false ∧ r.snooze = none

/-- A failure's plan: the job is discarded or retried, and nothing is enqueued. -/
theorem planFinalize_failure (ctx : Context) (raw : RawJob)
    (hresult : result.Plain) (e : WorkError) (finishedAt : Time) :
    let plan := planFinalize ctx raw result (some e) finishedAt
    plan.followUps = false ∧ (plan.jobState = .retryable ∨ plan.jobState = .discarded) ∧
      (plan.runOutcome = .error ∨ plan.runOutcome = .timeout) := by
  obtain ⟨-, -, -, hcancel, hsnooze⟩ := hresult
  simp only [planFinalize, hcancel, hsnooze]
  grind

/-- The state advance leaves the parent's barrier. -/
theorem parentBuilds_advanceJob {ctx : Context} (h : db.ParentBuilds ctx raw) (plan : FinalizePlan)
    (finishedAt : Time) : (advanceJob raw plan finishedAt none db).ParentBuilds ctx raw := by
  intro p hp parent hparent
  obtain ⟨hget, hdeleted⟩ := filter_eq_some_iff.mp hparent
  rw [advanceJob, get?_update, map_eq_some_iff] at hget
  obtain ⟨r, hr, rfl⟩ := hget
  by_cases hheld : holdsClaim raw.id raw.leaseToken r = true
  · rw [if_pos hheld] at hdeleted ⊢
    have hjob : db.job? p = some r := filter_eq_some_iff.mpr ⟨hr, hdeleted⟩
    exact h p hp r hjob
  · rw [if_neg hheld] at hdeleted ⊢
    exact h p hp r (filter_eq_some_iff.mpr ⟨hr, hdeleted⟩)

/-- A check whose continuation can be built does not fail. -/
theorem fireBarrierIfComplete_ok {ctx : Context} {p : String} (h : db.ParentBuilds ctx raw)
    (hp : raw.parentJobID = some p) : ∃ r, fireBarrierIfComplete ctx 0 p raw.id db = .ok r := by
  rw [fireBarrierIfComplete]
  cases hjob : db.job? p with
  | none => exact ⟨_, rfl⟩
  | some parent =>
    dsimp only
    cases hkind : parent.barrierKind with
    | none => exact ⟨_, rfl⟩
    | some kind =>
      dsimp only
      split_ifs
      · exact ⟨_, rfl⟩
      · obtain ⟨hne, spec, row, hspec, hrow⟩ := h p hp parent hjob kind hkind
        have hrowKind : row.kind = kind := (buildChildRow_spec hrow).kind
        have hinsert : ∃ r, conflictInsertChunk (ctx.clock 0) [row] db = .ok r := by
          simp [conflictInsertChunk, insertSkippingConflicts, hrowKind, hne]
        obtain ⟨r, hr⟩ := hinsert
        rw [hspec]
        exact ⟨_, bind_eq_ok.mpr ⟨spec, rfl,
          bind_eq_ok.mpr ⟨row, hrow, bind_eq_ok.mpr ⟨r, hr, rfl⟩⟩⟩⟩

/-- Nor does the check of an ended job's parent. -/
theorem fireEach_ok (ctx : Context) (h : db.ParentBuilds ctx raw) (plan : FinalizePlan) :
    ∃ r, fireEach ctx 0 (endedParent raw plan true) db = .ok r := by
  unfold endedParent
  split_ifs
  · cases hp : raw.parentJobID with
    | none => exact ⟨_, rfl⟩
    | some p =>
      obtain ⟨r, hr⟩ := fireBarrierIfComplete_ok h hp
      have hone : ∃ r, fireOne ctx 0 p raw.id db = .ok r := ⟨_, bind_eq_ok.mpr ⟨r, hr, rfl⟩⟩
      obtain ⟨one, hone⟩ := hone
      exact ⟨_, bind_eq_ok.mpr ⟨one, hone, rfl⟩⟩
  · exact ⟨_, rfl⟩

variable (opts : DriverOpts)

/-- A failure under a held claim commits, unless PostgreSQL refuses its columns. -/
theorem finalize_failure (ctx : Context) {runID : String}
    (hresult : result.Plain) (e : WorkError) (finishedAt : Time)
    (hclaim : db.claimHeld raw.id raw.leaseToken = true) {stub : JobRunRow}
    (hrun : db.runs.get? runID = some stub) (hparent : db.ParentBuilds ctx raw) :
    (∃ c, finalize opts ctx raw runID result (some e) finishedAt db = .ok c) ↔
      ctx.refusesRun = false := by
  obtain ⟨hfollow, -, -⟩ := planFinalize_failure ctx raw hresult e finishedAt
  rw [finalize]
  generalize planFinalize ctx raw result (some e) finishedAt = plan at hfollow ⊢
  obtain ⟨⟨after, fires⟩, hfires⟩ := fireEach_ok ctx
    (parentBuilds_advanceJob hparent plan finishedAt) plan
  have hbarrier : declareBarrier opts ctx raw plan result db = .ok none := by
    rw [declareBarrier, hfollow]
  have hchildren : enqueueChildren opts ctx raw plan result true
      (advanceJob raw plan finishedAt none db) = .ok
        (advanceJob raw plan finishedAt none db, 0) := by
    rw [enqueueChildren, hfollow, Bool.false_and, if_neg Bool.false_ne_true]
  obtain ⟨houtput, hnone, -⟩ := hresult
  have hlength : result.followUps.length = 0 := by rw [hnone]; rfl
  simp only [hrun, hclaim, hbarrier, hchildren, hlength, hfires, houtput, elim_some, bind,
    Except.bind, refuse]
  cases ctx.refusesRun <;> simp [pure, Except.pure]

/-- The attempt's failure is recorded: the claim was applied, the job is to be retried or is
discarded, and the run is a failed one that holds the message as cut. -/
def FailureRecorded (raw : RawJob) (runID : String) (e : WorkFailure)
    (out : Except TxError (Commit FinalizeOutcome)) : Prop :=
  ∃ c, out = .ok c ∧ c.out.superseded = false ∧
    (∃ job, c.db.job? raw.id = some job ∧ (job.state = .retryable ∨ job.state = .discarded)) ∧
    ∃ run text, c.db.runs.get? runID = some run ∧
      (run.outcome = .error ∨ run.outcome = .timeout) ∧ run.errorMessage = some text ∧
      text.toByteArray = (truncateBytes e.message maxErrorMessage).toByteArray

theorem toByteArray_eq_utf8 (s : String) : s.toByteArray = (utf8 s.toList).toByteArray := by
  conv_lhs => rw [← String.ofList_toList (s := s), String.toByteArray_ofList]
  rfl

theorem truncate_of_le {s : String} (h : s.toByteArray.size ≤ n) : truncate s n = s := by
  rcases (truncateRunes_split n s.toList).2 with hall | ⟨c, rest, heq, hpast⟩
  · rw [truncate, hall, String.ofList_toList]
  · rw [toByteArray_eq_utf8, size_toByteArray, heq, utf8_append, utf8_cons, length_append,
      length_append, String.length_utf8EncodeChar] at h
    omega

/-- The text that the other columns read is the one that the message column holds. -/
theorem workError_message {e : WorkFailure} (h : e.columns.1.toByteArray.IsValidUTF8) :
    e.workError.message.toByteArray = e.columns.1.toByteArray := by
  rw [WorkFailure.workError, String.fromUTF8?, dif_pos h]
  rfl

/-- **Every failure whose texts are storable is recorded, and no other.** Of an attempt that holds
its claim, beside a result that asks for nothing, the failure is recorded exactly when the message,
as cut at its cap, is UTF-8 without NUL, so is the class, and the stack, as cut at its cap, holds no
NUL. -/
theorem failure_recorded_iff (opts : DriverOpts) (ctx : Context) (raw : RawJob) (runID : String)
    (result : Result) (e : WorkFailure) (finishedAt : Time) (db : Db) (hresult : result.Plain)
    (hclaim : db.claimHeld raw.id raw.leaseToken = true)
    (hrun : (db.runs.get? runID).isSome = true) (hparent : db.ParentBuilds ctx raw) :
    FailureRecorded raw runID e (finalizeFailure opts ctx raw runID result e finishedAt db) ↔
      e.Storable := by
  obtain ⟨stub, hstub⟩ := isSome_iff_exists.mp hrun
  have hcommits := finalize_failure opts { ctx with refusesRun := !e.accepted } hresult e.workError
    finishedAt hclaim hstub hparent
  rw [Bool.not_eq_false', accepted_iff] at hcommits
  rw [← hcommits]
  refine ⟨fun ⟨c, hc, _⟩ => ⟨c, hc⟩, fun ⟨c, hc⟩ => ⟨c, hc, ?_⟩⟩
  obtain ⟨-, hplan⟩ := planFinalize_failure { ctx with refusesRun := !e.accepted } raw hresult
    e.workError finishedAt
  obtain ⟨stub', -, -, n, hstub', -, -, -, honly, hsuperseded⟩ := finalize_spec hc
  rw [hclaim] at honly hsuperseded
  refine ⟨hsuperseded, ?_, ?_⟩
  · -- the job's row is the one that the state advance left, up to its own barrier
    obtain ⟨barrier, hup⟩ := finalize_get? hc
    obtain ⟨r, hget, hheld⟩ := Db.claimHeld_get? hclaim
    have hjob := hup raw.id
    rw [hget, map_some, if_pos hheld] at hjob
    obtain ⟨job, hjob, hcleared⟩ := hjob.of_some
    unfold Cleared at hcleared
    refine ⟨job, Db.job?_eq_some.mpr ⟨hjob, ?_⟩, ?_⟩
    · rw [hcleared]
      exact (holdsClaim_iff.mp hheld).2.1
    · rw [hcleared]
      exact hplan.1
  · have hvalid : e.columns.1.toByteArray.IsValidUTF8 := (hcommits.mp ⟨c, hc⟩).1.1
    have htext := workError_message hvalid
    have hfits : e.workError.message.toByteArray.size ≤ maxErrorMessage := by
      rw [htext, size_toByteArray]
      exact length_truncateBytes_le e.message maxErrorMessage
    have hruns := congrArg Db.runs honly
    have hrow := get?_update db.runs (fun r => decide (r.id = runID))
      (runFinalizeUpdate ctx.errorHash
        (planFinalize { ctx with refusesRun := !e.accepted } raw result (some e.workError)
          finishedAt) result (some e.workError) raw.kind finishedAt
        (milliseconds (finishedAt - stub'.startedAt)) n !true) runID
    rw [hstub', map_some, if_pos (decide_eq_true (key_of_get? hstub'))] at hrow
    refine ⟨_, e.workError.message, (congrArg (fun t => t.get? runID) hruns).trans hrow, hplan.2,
      ?_, htext⟩
    change some (truncate e.workError.message maxErrorMessage) = _
    rw [truncate_of_le hfits]

/-- The claim of an attempt in progress. -/
def heldClaim : RawJob := firstClaim "job" "work" "token"

/-- A job that an attempt has claimed, with the attempt's run. -/
def heldJob : Db :=
  Db.after {} [.insert { newID := fun _ => "job" } [{ kind := "work", args := .null }],
     .dequeue .postgres {} { newID := fun _ => "token" } { queues := ["default"], lease := minute },
     .insertRunStub "run" heldClaim 0 "" "executor"]

/-- A message of runes, a class of the worker's own, and a stack that is no UTF-8: the failure is
recorded. -/
theorem text_failure_recorded :
    let e : WorkFailure := { message := utf8 ['n', 'é'], stack := [0xFF]
                             verdict := { errorClass := some (.other (utf8 ['q'])) } }
    FailureRecorded heldClaim "run" e (finalizeFailure {} {} heldClaim "run" {} e 5 heldJob) :=
  (failure_recorded_iff {} {} heldClaim "run" {} _ 5 heldJob ⟨rfl, rfl, rfl, rfl, rfl⟩ (by decide)
    (by decide) nofun).mpr ⟨⟨by decide, by decide⟩, by decide, by decide, by decide⟩

/-- A message with a NUL byte, one that is no UTF-8, a stack with a NUL byte, and a class that is no
UTF-8 each roll the finalize back, and the job stays running under its claim. -/
theorem failure_rolled_back :
    heldJob.claimHeld heldClaim.id heldClaim.leaseToken = true ∧
    ∀ e ∈ ([{ message := utf8 ['n', '\x00'] }, { message := [0x6E, 0xFF] },
        { message := utf8 ['n'], stack := [0x67, 0] },
        { message := [], verdict := { errorClass := some (.other [0xFF]) } }] : List WorkFailure),
      (finalizeFailure {} {} heldClaim "run" {} e 5 heldJob).toOption.isNone = true := by
  decide

end Flywheel
