import Flywheel.Limiter.Rate

/-!
# The tokens that a refill adds

A refill rounds its tokens down and the time that they cost down too, and what it did not pay for is
carried in `refilled_at`. So the tokens added so far are worth the time that the bucket has been
refilled for (`Accrues`), and a call's own refill leaves less than one token's worth of time
(`Accrues.refill`). The one thing that loses tokens is a sum of tokens that wraps: which
configurations have none is `SumFits`.
-/

namespace Flywheel

open Relational

/-! ## Calls -/

/-- The bucket as a call's refill leaves it. -/
def DBLimiter.refilled (l : DBLimiter) (resource : String) (db : LimiterDb) (c : AcquireCall) :
    LimiterBucketRow :=
  l.refill (l.locked resource c.now db) c.now

/-- The tables after a call. -/
def DBLimiter.after (l : DBLimiter) (resource : String) (db : LimiterDb) (c : AcquireCall) :
    LimiterDb :=
  (l.acquire resource c.now c.n c.token db).1

/-- The tokens that a call's refill adds. A call that asks for nothing returns before it. -/
def DBLimiter.accrued (l : DBLimiter) (resource : String) (db : LimiterDb) (c : AcquireCall) : ℤ :=
  if c.n ≤ 0 then 0
  else (l.refilled resource db c).tokens.toInt - (l.locked resource c.now db).tokens.toInt

/-- The tokens that the refills of calls add, one after another. -/
def DBLimiter.accruedAll (l : DBLimiter) (resource : String) : LimiterDb → List AcquireCall → ℤ
  | _, [] => 0
  | db, c :: calls => l.accrued resource db c + l.accruedAll resource (l.after resource db c) calls

/-- No call finds the bucket full after its refill. -/
def DBLimiter.NeverFull (l : DBLimiter) (resource : String) : LimiterDb → List AcquireCall → Prop
  | _, [] => True
  | db, c :: calls => (0 < c.n → (l.refilled resource db c).tokens < l.burst) ∧
      l.NeverFull resource (l.after resource db c) calls

/-- Whatever the calls on a resource without overrides, at times that do not go back and none of
which finds the bucket full, the tokens added since the first call are what the time since the
refill that it stored is worth. -/
def DBLimiter.NeverLosesTokens (l : DBLimiter) : Prop :=
  ∀ (resource : String) (db : LimiterDb) (first : AcquireCall) (calls : List AcquireCall)
    (last : AcquireCall) (b : LimiterBucketRow),
    (∀ b, db.buckets.get? resource = some b → b.Plain) → 0 < first.n → 0 < last.n →
    (first :: (calls ++ [last])).Pairwise (fun c c' => c.now ≤ c'.now) →
    l.NeverFull resource (l.after resource db first) (calls ++ [last]) →
    (l.after resource db first).buckets.get? resource = some b →
    l.rate.toInt * (last.now - b.refilledAt) / l.interval.toInt ≤
      l.accruedAll resource (l.after resource db first) (calls ++ [last])

/-! ## Sums that do not wrap -/

/-- The most tokens that a first call leaves: under a concurrency cap it may grant nothing. -/
def DBLimiter.top (l : DBLimiter) : ℤ :=
  if 0 < l.maxConcurrent then l.burst.toInt else l.burst.toInt - 1

/-- The largest sum of tokens is a machine word: the tokens that a first call leaves, and those of
the longest time that does not fill the bucket. -/
def DBLimiter.SumFits (l : DBLimiter) : Prop :=
  l.fillTime ≤ 1 ∨ l.top + (l.fillTime - 1) * l.rate.toInt / l.interval.toInt < 2 ^ 63

instance (l : DBLimiter) : Decidable l.SumFits := inferInstanceAs (Decidable (_ ∨ _))

variable {l : DBLimiter} {b : LimiterBucketRow} {now t₀ : Time} {sum : ℤ}

theorem DBLimiter.top_le (l : DBLimiter) : l.top ≤ l.burst.toInt ∧ l.burst.toInt - 1 ≤ l.top := by
  unfold DBLimiter.top
  split_ifs <;> omega

/-- A grant leaves no more tokens than there were, and fewer if there were any and nothing but the
tokens limits it. -/
theorem toInt_sub_granted (c : LimiterCaps) (hrate : 0 < c.rate) (n tokens held : Int64) :
    (tokens - c.granted n tokens held).toInt ≤ tokens.toInt ∧
      (¬ 0 < c.maxConcurrent → 0 < n → 0 < tokens.toInt →
        (tokens - c.granted n tokens held).toInt ≤ tokens.toInt - 1) := by
  obtain ⟨hg0, hg⟩ := granted_le c hrate n tokens held
  have hlow := tokens.le_toInt
  have hhigh := tokens.toInt_lt
  have hleft : (tokens - c.granted n tokens held).toInt =
      tokens.toInt - (c.granted n tokens held).toInt := by
    grind [Int64.toInt_sub]
  refine ⟨by omega, fun hcap hn htokens => ?_⟩
  have hn := Int64.lt_iff_toInt_lt.mp hn
  have hsome : 0 < (c.granted n tokens held).toInt := by
    unfold LimiterCaps.granted
    dsimp only
    rw [if_neg fun hboth : 0 < c.maxConcurrent ∧ _ => hcap hboth.1]
    have hask : 0 < (if 0 < c.rate ∧ tokens < n then tokens else n).toInt := by
      grind
    rw [if_neg (Int64.not_lt.mpr (Int64.le_of_lt (word_pos hask)))]
    exact hask
  omega

/-! ## The accounts -/

/-- The tokens added so far are worth the time that the bucket has been refilled for. -/
structure Accrues (l : DBLimiter) (t₀ : Time) (sum : ℤ) (b : LimiterBucketRow) : Prop where
  plain : b.Plain
  tokens : b.tokens.toInt ≤ l.top
  worth : l.rate.toInt * (b.refilledAt - t₀) ≤ l.interval.toInt * sum

/-- **A refill that does not fill the bucket** adds the tokens of its time but for less than one,
and pays for them with no more time than they are worth. -/
theorem Accrues.refill (h : Accrues l t₀ sum b) (hl : l.Rated)
    (hwrap : l.burst.toInt * l.interval.toInt < 2 ^ 63) (hfits : l.SumFits)
    (hfull : (l.refill b now).tokens < l.burst) :
    Accrues l t₀ (sum + ((l.refill b now).tokens.toInt - b.tokens.toInt)) (l.refill b now) ∧
      l.rate.toInt * (now - t₀) <
        l.interval.toInt * (sum + ((l.refill b now).tokens.toInt - b.tokens.toInt) + 1) := by
  have hrate := hl.rate
  have hinterval := hl.interval
  have hworth := h.worth
  have htop := l.top_le.2
  have hplain := h.plain.refill l now
  generalize hd : now - b.refilledAt = d
  obtain rfl : now = b.refilledAt + d := by rw [← hd, add_sub_cancel]
  have hcases := hl.refilled hwrap h.plain hd.symm
  generalize l.refill b (b.refilledAt + d) = b' at hcases hplain hfull ⊢
  cases hcases with
  | past hpast =>
    rw [sub_self, add_zero]
    exact ⟨h, by nlinarith⟩
  | full | top => exact absurd hfull (Int64.not_lt.mpr (Int64.le_refl _))
  | carried hpos hpart hless =>
    -- less than a token's worth
    have hleft := Int.lt_ediv_add_one_mul_self (d * l.rate.toInt) hinterval
    rw [sub_self, add_zero]
    exact ⟨h, by nlinarith⟩
  | part hpos hpart add hadd hsome hbelow =>
    -- whole tokens, and the remainder is carried; the sum is not wrapped, and below the burst
    have hsum : (b.tokens + add).toInt = b.tokens.toInt + add.toInt := by
      have hmost : add.toInt ≤ (l.fillTime - 1) * l.rate.toInt / l.interval.toInt :=
        hadd ▸ Int.ediv_le_ediv hinterval (mul_le_mul_of_nonneg_right (by omega) hrate.le)
      have hfits : l.top + (l.fillTime - 1) * l.rate.toInt / l.interval.toInt < 2 ^ 63 :=
        hfits.resolve_left (by omega)
      have hlowest := b.tokens.le_toInt
      have hhigh := h.tokens
      rw [Int64.toInt_add]
      exact Int.bmod_eq_of_le (by omega) (by omega)
    have hlow := Int64.lt_iff_toInt_lt.mp hbelow
    have hleft := Int.lt_ediv_add_one_mul_self (d * l.rate.toInt) hinterval
    have hpaid := Int.mul_ediv_self_le (x := add.toInt * l.interval.toInt) hrate.ne'
    rw [← hadd] at hleft hplain ⊢
    dsimp only
    refine ⟨⟨hplain, ?_, ?_⟩, ?_⟩
    · dsimp only
      omega
    · dsimp only
      nlinarith
    · nlinarith

/-- What `Acquire` decides after such a refill keeps the accounts. -/
theorem Accrues.admits (h : Accrues l t₀ sum b) (hl : l.Rated)
    (hwrap : l.burst.toInt * l.interval.toInt < 2 ^ 63) (hfits : l.SumFits)
    (hfull : (l.refill b now).tokens < l.burst) (n held : Int64) :
    Accrues l t₀ (sum + ((l.refill b now).tokens.toInt - b.tokens.toInt))
      (l.admits b now n held).bucket := by
  have hrefill := (h.refill hl hwrap hfits hfull).1
  have hrate := hl.rate_pos
  unfold DBLimiter.admits
  rw [hl.capsFor h.plain]
  dsimp only
  generalize l.refill b now = b' at hrefill hfull ⊢
  rw [if_neg fun hover => Int64.lt_irrefl (Int64.lt_trans hover.2 hfull), if_pos hrate]
  have hleft := toInt_sub_granted ⟨l.rate, l.burst, l.maxConcurrent⟩ hrate n b'.tokens held
  refine ⟨⟨hrefill.plain.maxConcurrent, hrefill.plain.rate, hrefill.plain.burst⟩, ?_, hrefill.worth⟩
  exact hleft.1.trans hrefill.tokens

/-! ## Runs -/

section Runs

variable (hl : l.Rated) {resource : String} {db : LimiterDb}
include hl

theorem DBLimiter.Rated.after (c : AcquireCall) (hb : (l.locked resource c.now db).Plain)
    (hn : 0 < c.n) :
    ∃ held, (l.after resource db c).buckets.get? resource =
      some (l.admits (l.locked resource c.now db) c.now c.n held).bucket := by
  obtain ⟨held, hbuckets, -⟩ := hl.acquire hb hn c.token
  refine ⟨held, ?_⟩
  change (l.acquire resource c.now c.n c.token db).1.buckets.get? resource = _
  rw [hbuckets, Table.get?_put, admit_resource, locked_resource, if_pos rfl]

/-- The first call begins the accounts. -/
theorem DBLimiter.Rated.accrues_first (first : AcquireCall)
    (hb : (l.locked resource first.now db).Plain) (hn : 0 < first.n) {b : LimiterBucketRow}
    (hget : (l.after resource db first).buckets.get? resource = some b) :
    Accrues l b.refilledAt 0 b := by
  obtain ⟨held, hafter⟩ := hl.after first hb hn
  cases hafter.symm.trans hget
  have hrate := hl.rate_pos
  have hburst := hl.burst
  have hplain := hb.refill l first.now
  refine ⟨?_, ?_, by rw [sub_self, mul_zero, mul_zero]⟩
  · unfold DBLimiter.admits
    dsimp only
    split_ifs <;> exact ⟨hplain.maxConcurrent, hplain.rate, hplain.burst⟩
  · unfold DBLimiter.admits
    rw [hl.capsFor hb]
    dsimp only
    generalize l.refill (l.locked resource first.now db) first.now = b'
    -- the clamp leaves at most the burst
    have hclamp : ∃ tokens : Int64, tokens.toInt ≤ l.burst.toInt ∧
        (if 0 < l.rate ∧ l.burst < b'.tokens then { b' with tokens := l.burst } else b') =
          { b' with tokens } := by
      split_ifs with hover
      · exact ⟨l.burst, le_refl _, rfl⟩
      · refine ⟨b'.tokens, ?_, rfl⟩
        rw [not_and, Int64.not_lt] at hover
        exact Int64.le_iff_toInt_le.mp (hover hrate)
    obtain ⟨tokens, htokens, heq⟩ := hclamp
    rw [heq, if_pos hrate]
    dsimp only
    obtain ⟨hless, hfewer⟩ := toInt_sub_granted
      ⟨l.rate, l.burst, l.maxConcurrent⟩ hrate first.n tokens held
    grind [DBLimiter.top]

variable (hwrap : l.burst.toInt * l.interval.toInt < 2 ^ 63) (hfits : l.SumFits)
include hwrap hfits

/-- **Calls one after another**: through each of them, less than a token's worth of time is
missing. -/
theorem Accrues.run (calls : List AcquireCall) (last : AcquireCall) (h : Accrues l t₀ sum b)
    (hget : db.buckets.get? resource = some b) (hlast : 0 < last.n)
    (hnever : l.NeverFull resource db (calls ++ [last])) :
    l.rate.toInt * (last.now - t₀) <
      l.interval.toInt * (sum + l.accruedAll resource db (calls ++ [last]) + 1) := by
  have hlocked : ∀ now, l.locked resource now db = b := fun now => by
    rw [DBLimiter.locked, hget]
    rfl
  have haccrued : ∀ c : AcquireCall, 0 < c.n → l.accrued resource db c =
      (l.refill b c.now).tokens.toInt - b.tokens.toInt := fun c hn => by
    rw [DBLimiter.accrued, if_neg (Int64.not_le.mpr hn), DBLimiter.refilled, hlocked]
  induction calls generalizing db b sum with
  | nil =>
    have hfull := hnever.1 hlast
    rw [DBLimiter.refilled, hlocked] at hfull
    change _ < l.interval.toInt * (sum + (l.accrued resource db last + 0) + 1)
    rw [haccrued last hlast, add_zero]
    exact (h.refill hl hwrap hfits hfull).2
  | cons c calls ih =>
    change _ < l.interval.toInt * (sum + (l.accrued resource db c +
      l.accruedAll resource (l.after resource db c) (calls ++ [last])) + 1)
    rw [← add_assoc]
    by_cases hn : c.n ≤ 0
    · -- a call that asks for nothing changes nothing
      have hsame : l.after resource db c = db := by
        rw [DBLimiter.after, DBLimiter.acquire, if_pos hn]
      have hnothing : l.accrued resource db c = 0 := by rw [DBLimiter.accrued, if_pos hn]
      have hnever := hnever.2
      rw [hsame] at hnever ⊢
      rw [hnothing, add_zero]
      exact ih h hget hnever hlocked haccrued
    · have hn := Int64.not_le.mp hn
      have hfull := hnever.1 hn
      rw [DBLimiter.refilled, hlocked] at hfull
      have hplain : (l.locked resource c.now db).Plain := (hlocked c.now).symm ▸ h.plain
      obtain ⟨held, hafter⟩ := hl.after c hplain hn
      rw [hlocked] at hafter
      rw [haccrued c hn]
      refine ih (h.admits hl hwrap hfits hfull c.n held) hafter hnever.2 (fun now => ?_)
        fun c' hn' => ?_
      · rw [DBLimiter.locked, hafter]
        rfl
      · simp_all [DBLimiter.accrued, DBLimiter.refilled, DBLimiter.locked]

theorem DBLimiter.SumFits.neverLosesTokens : l.NeverLosesTokens := by
  intro resource db first calls last b hplain hfirst hlast _ hnever hget
  have hb : (l.locked resource first.now db).Plain := by
    unfold DBLimiter.locked
    cases hstored : db.buckets.get? resource with
    | none => exact ⟨rfl, rfl, rfl⟩
    | some b => exact hplain b hstored
  have hrun := (hl.accrues_first first hb hfirst hget).run hl hwrap hfits calls last hget
    hlast hnever
  refine Int.lt_add_one_iff.mp (Int.ediv_lt_of_lt_mul hl.interval ?_)
  grind

end Runs

/-! ## A sum that wraps -/

/-- Tables in which a hold takes all of a concurrency cap. -/
def DBLimiter.heldOut (l : DBLimiter) : LimiterDb :=
  { holds :=
      { rows := [{ token := "", resource := "", n := l.maxConcurrent, expiresAt := 0 }]
        nodup := List.nodup_singleton _ } }

/-- A first call that leaves the most tokens. -/
theorem DBLimiter.Rated.first_leaves_top (hl : l.Rated) :
    ∃ b, (l.after "" l.heldOut { now := 0, n := 1 }).buckets.get? "" = some b ∧ b.Plain ∧
      b.tokens.toInt = l.top ∧ b.refilledAt = 0 := by
  have hrate := hl.rate_pos
  have hburst := hl.burst
  have hplain : (l.seed "" 0).Plain := ⟨rfl, rfl, rfl⟩
  have hlocked : l.locked "" 0 l.heldOut = l.seed "" 0 := rfl
  have hreads : l.readsBucket = true := decide_eq_true (.inl hrate)
  have hcaps : ¬ (l.rate ≤ 0 ∧ l.maxConcurrent ≤ 0) := fun h => Int64.not_lt.mpr h.1 hrate
  have hrefill : l.refill (l.seed "" 0) 0 = l.seed "" 0 := by
    unfold DBLimiter.refill
    dsimp only
    split_ifs <;> first | rfl | contradiction
  have hcount : Int64.ofInt (countHeld "" (l.heldOut.lapsed 0) l.heldOut.holds) =
    l.maxConcurrent := by
    have hsum : countHeld "" (l.heldOut.lapsed 0) l.heldOut.holds = l.maxConcurrent.toInt := by
      change (List.map _ (List.filter _ (List.filter _ _))).sum = _
      simp [DBLimiter.heldOut, LimiterHoldRow.reclaimed]
    rw [hsum, Int64.ofInt_toInt]
  have hfew : ¬ l.burst < 1 := fun hless => by
    have := Int64.lt_iff_toInt_lt.mp hless
    grind
  refine ⟨(l.admits (l.seed "" 0) 0 1 (if decide (0 < l.maxConcurrent) = true then
    Int64.ofInt (countHeld "" (l.heldOut.lapsed 0) l.heldOut.holds) else 0)).bucket, ?_, ?_, ?_, ?_⟩
  · unfold DBLimiter.after DBLimiter.acquire
    rw [if_neg (by decide), hreads, if_neg Bool.true_eq_false.mp]
    dsimp only
    rw [hlocked, hl.capsFor hplain]
    dsimp only
    rw [if_neg hcaps]
    change (l.heldOut.buckets.put _).get? "" = _
    rw [Table.get?_put, admit_resource]
    exact if_pos rfl
  · unfold DBLimiter.admits
    rw [hrefill]
    dsimp only
    split_ifs <;> exact ⟨rfl, rfl, rfl⟩
  · unfold DBLimiter.admits LimiterCaps.granted
    rw [hl.capsFor hplain, hrefill]
    dsimp only
    have hclamp : ¬(0 < l.rate ∧ l.burst < l.burst) := fun hover => Int64.lt_irrefl hover.2
    have hask : ¬(0 < l.rate ∧ l.burst < 1) := fun hless => hfew hless.2
    rw [show (l.seed "" 0).tokens = l.burst from rfl, if_neg hclamp, if_pos hrate,
      show (l.seed "" 0).tokens = l.burst from rfl, if_neg hask, hcount, DBLimiter.top]
    by_cases hcap : 0 < l.maxConcurrent
    · simp_all
    · have hone : ¬(1 : Int64) < 0 := by decide
      rw [if_neg (decide_eq_true_iff.not.mpr hcap), if_neg (not_and_of_not_left _ hcap),
        if_neg hone, if_neg hcap]
      have hhigh := l.burst.toInt_lt
      grind [Int64.toInt_sub]
  · unfold DBLimiter.admits
    rw [hrefill]
    dsimp only
    split_ifs <;> rfl

/-- **A sum that wraps loses tokens**: the second call finds less in the bucket than the first
left. -/
theorem DBLimiter.NeverLosesTokens.sumFits (h : l.NeverLosesTokens) (hl : l.Rated)
    (hwrap : l.burst.toInt * l.interval.toInt < 2 ^ 63) : l.SumFits := by
  have hrate := hl.rate
  by_contra hnot
  rw [DBLimiter.SumFits, not_or, not_le, not_lt] at hnot
  obtain ⟨hfill, hover⟩ := hnot
  obtain ⟨b, hget, hplain, htokens, hat⟩ := hl.first_leaves_top
  obtain ⟨htop, -⟩ := l.top_le
  have hburst63 := l.burst.toInt_lt
  -- the longest time that does not fill the bucket
  generalize hadd : (l.fillTime - 1) * l.rate.toInt / l.interval.toInt = add at hover
  have hadd63 : add < 2 ^ 63 := by
    have hle : add ≤ (l.fillTime - 1) * l.rate.toInt :=
      hadd ▸ Int.ediv_le_self _ (mul_nonneg (by omega) hrate.le)
    have hworth := worth_lt_of_part hl (sub_one_lt l.fillTime)
    omega
  have hrefill : (l.refill b (l.fillTime - 1)).tokens.toInt = l.top + add - 2 ^ 64 := by
    have hcases : Refilled l b (l.fillTime - 1) (l.fillTime - 1) (l.refill b (l.fillTime - 1)) :=
      hl.refilled hwrap hplain (by rw [hat, sub_zero])
    have hsum : ∀ word : Int64, word.toInt = add →
        (b.tokens + word).toInt = l.top + add - 2 ^ 64 := fun word hword => by
      grind [Int64.toInt_add]
    generalize l.refill b (l.fillTime - 1) = b' at hcases
    cases hcases with
    | past | full | carried => omega
    | top _ _ word hword _ hreach =>
      have := hsum word (hword.trans hadd)
      have := Int64.le_iff_toInt_le.mp hreach
      omega
    | part _ _ word hword _ _ => exact hsum word (hword.trans hadd)
  have hlocked : l.locked "" (l.fillTime - 1) (l.after "" l.heldOut { now := 0, n := 1 }) = b := by
    rw [DBLimiter.locked, hget]
    rfl
  have hbound := h "" l.heldOut { now := 0, n := 1 } [] { now := l.fillTime - 1, n := 1 } b
    (fun b hb => by cases hb) (by decide) (show (0 : Int64) < 1 by decide) ?_ ⟨fun _ =>
      ?_, trivial⟩ hget
  · rw [hat, sub_zero, mul_comm, hadd] at hbound
    change add ≤ l.accrued "" _ _ + 0 at hbound
    rw [DBLimiter.accrued, if_neg (show ¬(1 : Int64) ≤ 0 by decide), DBLimiter.refilled, hlocked,
      hrefill, htokens] at hbound
    omega
  · grind
  · grind [DBLimiter.refilled, Int64.lt_iff_toInt_lt]

/-- **The limiter keeps the tokens that accrue.** A configuration that `NewDBLimiter` accepts with a
positive rate, and whose burst and interval have a product that does not wrap, never loses tokens
exactly if its largest sum of tokens is a machine word. -/
theorem limiter_never_loses_tokens (cfg : DBLimiterConfig) (l : DBLimiter)
    (hnew : newDBLimiter cfg = .ok l) (hrate : 0 < cfg.rate)
    (hwrap : l.burst.toInt * l.interval.toInt < 2 ^ 63) : l.NeverLosesTokens ↔ l.SumFits := by
  have hl := newDBLimiter_rated hnew hrate
  exact ⟨fun h => h.sumFits hl hwrap, fun hfits => hfits.neverLosesTokens hl hwrap⟩

/-- Ten permits a second. -/
theorem ten_a_second_never_lose_tokens :
    DBLimiter.NeverLosesTokens ⟨10, 1000000000, 10, 0, 0⟩ :=
  (limiter_never_loses_tokens { rate := 10, interval := 1000000000 } _ rfl (by decide)
    (by decide)).mpr (by decide)

/-- A burst of all the permits that a machine word counts, refilled at a quarter of them a
nanosecond: a second call after a nanosecond finds `2 ^ 63 - 2 + 2 ^ 61` tokens, which wrap, so that
it finds none and is granted none. -/
theorem limiter_loses_tokens :
    newDBLimiter { rate := 2305843009213693952, interval := 1, burst := 9223372036854775807 } =
      .ok ⟨2305843009213693952, 1, 9223372036854775807, 0, 0⟩ ∧
    (9223372036854775807 : ℤ) * 1 < 2 ^ 63 ∧
    DBLimiter.NeverFull ⟨2305843009213693952, 1, 9223372036854775807, 0, 0⟩ "api"
      (DBLimiter.after ⟨2305843009213693952, 1, 9223372036854775807, 0, 0⟩ "api" {}
        { now := 0, n := 1 })
      [{ now := 1, n := 1 }] ∧
    DBLimiter.accruedAll ⟨2305843009213693952, 1, 9223372036854775807, 0, 0⟩ "api"
      (DBLimiter.after ⟨2305843009213693952, 1, 9223372036854775807, 0, 0⟩ "api" {}
        { now := 0, n := 1 })
      [{ now := 1, n := 1 }] < 0 ∧
    (2305843009213693952 : ℤ) * (1 - 0) / 1 = 2305843009213693952 := by
  refine ⟨by decide, by decide, ⟨fun _ => by decide, trivial⟩, by decide, by decide⟩

end Flywheel
