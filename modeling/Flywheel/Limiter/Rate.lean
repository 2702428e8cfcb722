import Mathlib.Tactic.Linarith
import Flywheel.Instants
import Flywheel.Limiter.Model

/-!
# The rate of the database limiter

The bucket's accounts: the permits granted so far with the tokens left are never worth more than the
burst and the time that the bucket has been refilled for (`Budgeted`). A refill that fills the
bucket, or whose tokens cost a whole number of nanoseconds, keeps them. One that rounds the cost of
its tokens down keeps the difference, and gains it again with every call; so does one whose products
wrap. Which of the configurations do neither is `Exact`.
-/

namespace Flywheel

open Relational List Table

/-! ## Arithmetic that does not wrap -/

section Words

variable {a b : Int64}

theorem word_pos (h : 0 < a.toInt) : 0 < a := Int64.lt_iff_toInt_lt.mpr h

theorem toInt_mul_of_lt (h0 : 0 ≤ a.toInt * b.toInt) (h : a.toInt * b.toInt < 2 ^ 63) :
    (a * b).toInt = a.toInt * b.toInt := by
  rw [Int64.toInt_mul]
  exact Int.bmod_eq_of_le (by omega) (by omega)

theorem toInt_div_of_pos (ha : 0 ≤ a.toInt) (hb : 0 < b.toInt) :
    (a / b).toInt = a.toInt / b.toInt := by
  have hlt := a.toInt_lt
  have hle : a.toInt / b.toInt ≤ a.toInt := Int.ediv_le_self _ ha
  have hnonneg : 0 ≤ a.toInt / b.toInt := Int.ediv_nonneg ha hb.le
  grind [Int64.toInt_div]

theorem toInt_add_le (ha : 0 ≤ a.toInt ∨ 0 ≤ b.toInt) : (a + b).toInt ≤ a.toInt + b.toInt := by
  have h₁ := a.le_toInt
  have h₂ := b.le_toInt
  grind [Int64.toInt_add]

theorem timeSub_cases (t u : ℤ) :
    (timeSub t u).toInt = t - u ∨ (2 ^ 63 ≤ t - u ∧ (timeSub t u).toInt = 2 ^ 63 - 1) ∨
      (t - u < -2 ^ 63 ∧ (timeSub t u).toInt = -2 ^ 63) := by
  have hrange : (timeSub t u).toInt = max (-2 ^ 63) (min (2 ^ 63 - 1) (t - u)) :=
    Int64.toInt_ofInt_of_le (le_max_left _ _)
      (max_lt (by decide) (lt_of_le_of_lt (min_le_left _ _) (by decide)))
  grind

theorem timeSub_le {t u : ℤ} (h : u ≤ t) : (timeSub t u).toInt ≤ t - u := by
  have hcases := timeSub_cases t u
  omega

theorem timeSub_of_lt {t u : ℤ} (h0 : 0 ≤ t - u) (h : t - u < 2 ^ 63) :
    (timeSub t u).toInt = t - u := by
  have hcases := timeSub_cases t u
  omega

end Words

/-! ## Configurations -/

/-- The configurations that refill with no product that wraps and no rounding in the caller's
favour: those whose token costs a whole number of nanoseconds, those whose bucket a single
nanosecond fills, and those whose nanosecond is worth a whole number of tokens that divides the
burst. -/
def DBLimiter.Exact (l : DBLimiter) : Prop :=
  l.burst.toInt * l.interval.toInt < 2 ^ 63 ∧
    (l.rate.toInt ∣ l.interval.toInt ∨ l.burst.toInt * l.interval.toInt ≤ l.rate.toInt ∨
      (l.interval.toInt ∣ l.rate.toInt ∧ l.rate.toInt ∣ l.burst.toInt * l.interval.toInt))

instance (l : DBLimiter) : Decidable l.Exact := inferInstanceAs (Decidable (_ ∧ _))

/-- A limiter with a rate. -/
structure DBLimiter.Rated (l : DBLimiter) : Prop where
  rate : 0 < l.rate.toInt
  interval : 0 < l.interval.toInt
  burst : 0 < l.burst.toInt

variable {l : DBLimiter}

theorem DBLimiter.Rated.rate_pos (hl : l.Rated) : 0 < l.rate := word_pos hl.rate

theorem DBLimiter.Rated.burst_pos (hl : l.Rated) : 0 < l.burst := word_pos hl.burst

/-- What `NewDBLimiter` accepts with a positive rate. -/
theorem newDBLimiter_rated {cfg : DBLimiterConfig} (h : newDBLimiter cfg = .ok l)
    (hrate : 0 < cfg.rate) : l.Rated := by
  unfold newDBLimiter at h
  split_ifs at h with hnegative hinterval hholdTTL hburst
  · cases h
    rw [not_and, Int64.not_le] at hinterval
    exact ⟨Int64.lt_iff_toInt_lt.mp hrate, Int64.lt_iff_toInt_lt.mp (hinterval hrate),
      Int64.lt_iff_toInt_lt.mp hrate⟩
  · cases h
    rw [not_and, Int64.not_le] at hinterval hburst
    exact ⟨Int64.lt_iff_toInt_lt.mp hrate, Int64.lt_iff_toInt_lt.mp (hinterval hrate),
      Int64.lt_iff_toInt_lt.mp (hburst hrate)⟩

/-- A bucket without overrides. -/
structure LimiterBucketRow.Plain (b : LimiterBucketRow) : Prop where
  maxConcurrent : b.maxConcurrentOverride = none
  rate : b.rateOverride = none
  burst : b.burstOverride = none

variable {l : DBLimiter} {b : LimiterBucketRow} {now start : Time} {total : ℤ}

theorem DBLimiter.Rated.capsFor (hl : l.Rated) (hb : b.Plain) :
    l.capsFor b = { rate := l.rate, burst := l.burst, maxConcurrent := l.maxConcurrent } := by
  have hburst : ¬ l.burst ≤ 0 := Int64.not_le.mpr hl.burst_pos
  simp [DBLimiter.capsFor, hb.maxConcurrent, hb.rate, hb.burst, hburst]

theorem LimiterBucketRow.Plain.refill (hb : b.Plain) (l : DBLimiter) (now : Time) :
    (l.refill b now).Plain := by
  unfold DBLimiter.refill
  dsimp only
  split_ifs <;> exact ⟨hb.maxConcurrent, hb.rate, hb.burst⟩

/-! ## What a refill does -/

/-- The time that fills the bucket from empty, rounded down. -/
def DBLimiter.fillTime (l : DBLimiter) : ℤ := l.burst.toInt * l.interval.toInt / l.rate.toInt

/-- What a refill after a time `d` leaves: the bucket as it was if the time is not worth a token, a
full one after the time that fills it and when the tokens reach the burst, and otherwise the tokens
that the time is worth, with what they cost rounded down. The products do not wrap; the sum of
tokens may. -/
inductive Refilled (l : DBLimiter) (b : LimiterBucketRow) (now : Time) (d : ℤ) :
    LimiterBucketRow → Prop where
  | past (h : d ≤ 0) : Refilled l b now d b
  | full (h : 0 < d) (hfull : l.fillTime ≤ d) :
      Refilled l b now d { b with tokens := l.burst, refilledAt := now }
  | carried (h : 0 < d) (hpart : d < l.fillTime) (hless : d * l.rate.toInt / l.interval.toInt ≤ 0) :
      Refilled l b now d b
  | top (h : 0 < d) (hpart : d < l.fillTime) (add : Int64)
      (hadd : add.toInt = d * l.rate.toInt / l.interval.toInt) (hpos : 0 < add.toInt)
      (htop : l.burst ≤ b.tokens + add) :
      Refilled l b now d { b with tokens := l.burst, refilledAt := now }
  | part (h : 0 < d) (hpart : d < l.fillTime) (add : Int64)
      (hadd : add.toInt = d * l.rate.toInt / l.interval.toInt) (hpos : 0 < add.toInt)
      (hbelow : b.tokens + add < l.burst) :
      Refilled l b now d { b with
          tokens := b.tokens + add
          refilledAt := b.refilledAt +
            d * l.rate.toInt / l.interval.toInt * l.interval.toInt / l.rate.toInt }

section Refill

variable (hl : l.Rated) {d : ℤ}
include hl

theorem worth_lt_of_part (hpart : d < l.fillTime) :
    d * l.rate.toInt < l.burst.toInt * l.interval.toInt := Int.mul_lt_of_lt_ediv hl.rate hpart

variable (hwrap : l.burst.toInt * l.interval.toInt < 2 ^ 63)
include hwrap

theorem fillTime_toInt : (l.burst * l.interval / l.rate).toInt = l.fillTime := by
  have hmul := toInt_mul_of_lt (mul_pos hl.burst hl.interval).le hwrap
  rw [toInt_div_of_pos (by rw [hmul]; exact (mul_pos hl.burst hl.interval).le) hl.rate, hmul,
    DBLimiter.fillTime]

/-- What a time that does not fill the bucket adds, and what that costs, are not wrapped. -/
theorem part_toInt {e : Int64} (he : 0 < e.toInt) (hpart : e.toInt < l.fillTime) :
    (e * l.rate / l.interval).toInt = e.toInt * l.rate.toInt / l.interval.toInt ∧
      (e * l.rate / l.interval * l.interval / l.rate).toInt =
        e.toInt * l.rate.toInt / l.interval.toInt * l.interval.toInt / l.rate.toInt := by
  have hinterval := hl.interval
  have hworth := worth_lt_of_part hl hpart
  have hmul : (e * l.rate).toInt = e.toInt * l.rate.toInt :=
    toInt_mul_of_lt (mul_pos he hl.rate).le (hworth.trans hwrap)
  have hadd : (e * l.rate / l.interval).toInt = e.toInt * l.rate.toInt / l.interval.toInt := by
    rw [toInt_div_of_pos (by rw [hmul]; exact (mul_pos he hl.rate).le) hinterval, hmul]
  have hadd0 : 0 ≤ e.toInt * l.rate.toInt / l.interval.toInt * l.interval.toInt :=
    mul_nonneg (Int.ediv_nonneg (mul_pos he hl.rate).le hinterval.le) hinterval.le
  have hle := Int.ediv_mul_le (e.toInt * l.rate.toInt) hinterval.ne'
  have hcost : (e * l.rate / l.interval * l.interval).toInt =
      e.toInt * l.rate.toInt / l.interval.toInt * l.interval.toInt := by
    grind [toInt_mul_of_lt]
  refine ⟨hadd, ?_⟩
  rw [toInt_div_of_pos (by rw [hcost]; exact hadd0) hl.rate, hcost]

/-- **What a refill does**, case by case. -/
theorem DBLimiter.Rated.refilled (hb : b.Plain) (hd : d = now - b.refilledAt) :
    Refilled l b now d (l.refill b now) := by
  have helapsed := timeSub_cases now b.refilledAt
  have htime := fillTime_toInt hl hwrap
  have hfill := (l.burst * l.interval / l.rate).toInt_lt
  unfold DBLimiter.refill
  rw [hl.capsFor hb]
  generalize timeSub now b.refilledAt = e at helapsed ⊢
  rw [if_neg (Int64.not_le.mpr hl.rate_pos)]
  simp only [Int64.le_iff_toInt_le (x := e), Int64.le_iff_toInt_le (y := e), htime,
    Int64.toInt_zero]
  split_ifs with hpast hfull hnone htop
  · exact .past (by omega)
  · exact .full (by omega) (by omega)
  all_goals
    -- the bucket does not fill, so the elapsed time is exact
    obtain rfl : e.toInt = d := by omega
    obtain ⟨hadd, hcost⟩ := part_toInt hl hwrap (not_le.mp hpast) (not_le.mp hfull)
    rw [not_le] at hpast hfull
  · rw [Int64.le_iff_toInt_le, hadd, Int64.toInt_zero] at hnone
    exact .carried hpast hfull hnone
  all_goals
    rw [Int64.not_le, Int64.lt_iff_toInt_lt, Int64.toInt_zero] at hnone
    have hmin : min l.burst (b.tokens + e * l.rate / l.interval) =
        if l.burst ≤ b.tokens + e * l.rate / l.interval then l.burst
        else b.tokens + e * l.rate / l.interval := rfl
    by_cases hreach : l.burst ≤ b.tokens + e * l.rate / l.interval
  · rw [hmin, if_pos hreach]
    exact .top hpast hfull _ hadd hnone hreach
  · simp_all
  · simp_all
  · rw [hmin, if_neg hreach, hcost]
    exact .part hpast hfull _ hadd hnone (Int64.not_le.mp hreach)

end Refill

section Exact

variable (hl : l.Rated) (hexact : l.Exact) {d : ℤ}
include hl hexact

/-- The time after which a refill fills the bucket is worth the burst. -/
theorem worth_of_full (h : 0 < d) (hfull : l.fillTime ≤ d) :
    l.burst.toInt * l.interval.toInt ≤ l.rate.toInt * d := by
  have hrate := hl.rate
  unfold DBLimiter.fillTime at hfull
  -- where the rate divides the burst's worth, nothing is rounded
  have hdvd : l.rate.toInt ∣ l.burst.toInt * l.interval.toInt →
      l.burst.toInt * l.interval.toInt ≤ l.rate.toInt * d := fun hdvd => by
    calc l.burst.toInt * l.interval.toInt
        = l.rate.toInt * (l.burst.toInt * l.interval.toInt / l.rate.toInt) :=
          (Int.mul_ediv_cancel' hdvd).symm
      _ ≤ l.rate.toInt * d := mul_le_mul_of_nonneg_left hfull hrate.le
  rcases hexact.2 with hcost | hsmall | ⟨-, hburst⟩
  · exact hdvd (hcost.mul_left _)
  · nlinarith
  · exact hdvd hburst

/-- Before that time, the tokens added cost exactly what they are worth. -/
theorem cost_of_part (h : 0 < d) (hpart : d < l.fillTime) :
    l.rate.toInt * (d * l.rate.toInt / l.interval.toInt * l.interval.toInt / l.rate.toInt) =
      l.interval.toInt * (d * l.rate.toInt / l.interval.toInt) := by
  have hrate := hl.rate
  have hworth := worth_lt_of_part hl hpart
  have hdvd : l.rate.toInt ∣ d * l.rate.toInt / l.interval.toInt * l.interval.toInt := by
    rcases hexact.2 with hcost | hsmall | ⟨hwhole, -⟩
    · exact hcost.mul_left _
    · exact absurd hworth (not_lt.mpr (hsmall.trans (by nlinarith)))
    · rw [Int.ediv_mul_cancel (hwhole.mul_left _)]
      exact dvd_mul_left _ _
  rw [Int.mul_ediv_cancel' hdvd, mul_comm]

end Exact

/-! ## The accounts -/

/-- The permits granted so far and the tokens left are worth no more than the burst and the time
since the start that the bucket has been refilled for. -/
structure Budgeted (l : DBLimiter) (start : Time) (total : ℤ) (b : LimiterBucketRow) : Prop where
  plain : b.Plain
  since : start ≤ b.refilledAt
  budget : l.interval.toInt * (total + max b.tokens.toInt 0) ≤
    l.interval.toInt * l.burst.toInt + l.rate.toInt * (b.refilledAt - start)

variable {s : LimiterDb × ℤ} {resource : String} {e : ℤ}

theorem DBLimiter.Rated.budgeted_seed (hl : l.Rated) (hstart : start ≤ now) :
    Budgeted l start 0 (l.seed resource now) where
  plain := ⟨rfl, rfl, rfl⟩
  since := hstart
  budget := by
    have hburst := hl.burst
    have hrate := hl.rate
    change l.interval.toInt * (0 + max l.burst.toInt 0) ≤
      l.interval.toInt * l.burst.toInt + l.rate.toInt * (now - start)
    rw [max_eq_left hburst.le]
    nlinarith [mul_nonneg hrate.le (sub_nonneg.mpr hstart)]

/-- A refill of an exact configuration keeps the accounts. -/
theorem Budgeted.refill (h : Budgeted l start total b) (hl : l.Rated) (hexact : l.Exact)
    (hnow : b.refilledAt ≤ now) :
    Budgeted l start total (l.refill b now) ∧ (l.refill b now).refilledAt ≤ now := by
  have hrate := hl.rate
  have hinterval := hl.interval
  have hbudget := h.budget
  have hplain := h.plain.refill l now
  generalize hd : now - b.refilledAt = d
  obtain rfl : now = b.refilledAt + d := by rw [← hd, add_sub_cancel]
  have hcases := hl.refilled hexact.1 h.plain hd.symm
  generalize l.refill b (b.refilledAt + d) = b' at hcases hplain ⊢
  cases hcases with
  | past | carried => exact ⟨h, hnow⟩
  | full hpos hfull =>
    -- the time is worth the burst
    have hworth := worth_of_full hl hexact hpos hfull
    refine ⟨⟨hplain, h.since.trans hnow, ?_⟩, le_refl _⟩
    rw [max_eq_left hl.burst.le]
    nlinarith [le_max_right b.tokens.toInt 0]
  | top hpos hpart add hadd hsome htop =>
    -- what exceeds the burst is lost, and so is the remainder
    have hworth := Int.ediv_mul_le (d * l.rate.toInt) hinterval.ne'
    have hsum := toInt_add_le (a := b.tokens) (b := add) (.inr hsome.le)
    have htop := Int64.le_iff_toInt_le.mp htop
    refine ⟨⟨hplain, h.since.trans hnow, ?_⟩, le_refl _⟩
    rw [max_eq_left hl.burst.le]
    have htokens : l.burst.toInt ≤ max b.tokens.toInt 0 + add.toInt := by omega
    nlinarith
  | part hpos hpart add hadd hsome hbelow =>
    -- the remainder is carried
    have hworth := Int.ediv_mul_le (d * l.rate.toInt) hinterval.ne'
    have hcost := cost_of_part hl hexact hpos hpart
    have hsum := toInt_add_le (a := b.tokens) (b := add) (.inr hsome.le)
    rw [← hadd] at hcost hworth hplain ⊢
    generalize add.toInt * l.interval.toInt / l.rate.toInt = cost at hcost hplain ⊢
    have hcost0 : 0 ≤ cost := by
      by_contra hneg
      nlinarith
    have hcostle : cost ≤ d := by
      by_contra hover
      nlinarith
    have htokens : max (b.tokens + add).toInt 0 ≤ max b.tokens.toInt 0 + add.toInt := by omega
    refine ⟨⟨hplain, h.since.trans (le_add_of_nonneg_right hcost0), ?_⟩, ?_⟩
    · nlinarith
    · exact add_le_add_right hcostle _

theorem granted_le (c : LimiterCaps) (hrate : 0 < c.rate) (n tokens held : Int64) :
    0 ≤ (c.granted n tokens held).toInt ∧ (c.granted n tokens held).toInt ≤ max tokens.toInt 0 := by
  unfold LimiterCaps.granted
  dsimp only
  have hask : (if 0 < c.rate ∧ tokens < n then tokens else n).toInt ≤ tokens.toInt := by
    split_ifs with hless
    · exact le_refl _
    · rw [not_and, Int64.not_lt] at hless
      exact Int64.le_iff_toInt_le.mp (hless hrate)
  generalize (if 0 < c.rate ∧ tokens < n then tokens else n) = g at hask ⊢
  have hroom : (if 0 < c.maxConcurrent ∧ c.maxConcurrent - held < g then c.maxConcurrent - held
      else g).toInt ≤ tokens.toInt := by
    split_ifs with hless
    · exact (Int64.lt_iff_toInt_lt.mp hless.2).le.trans hask
    · exact hask
  generalize (if 0 < c.maxConcurrent ∧ c.maxConcurrent - held < g then c.maxConcurrent - held
      else g) = g' at hroom ⊢
  split_ifs with hneg
  · exact ⟨le_refl _, le_max_right _ _⟩
  · simp_all [Int64.le_iff_toInt_le]

/-- What `Acquire` decides keeps the accounts. -/
theorem Budgeted.admits (h : Budgeted l start total b) (hl : l.Rated) (hexact : l.Exact)
    (hnow : b.refilledAt ≤ now) (n held : Int64) :
    Budgeted l start (total + (l.admits b now n held).granted.toInt)
      (l.admits b now n held).bucket ∧ (l.admits b now n held).bucket.refilledAt ≤ now := by
  obtain ⟨hrefill, hrefilled⟩ := h.refill hl hexact hnow
  have hrate := hl.rate_pos
  unfold DBLimiter.admits
  rw [hl.capsFor h.plain]
  dsimp only
  generalize l.refill b now = b' at hrefill hrefilled ⊢
  -- the clamp to the burst only lowers the tokens
  have hclamp : ∃ tokens : Int64, tokens.toInt ≤ b'.tokens.toInt ∧
      (if 0 < l.rate ∧ l.burst < b'.tokens then { b' with tokens := l.burst } else b') =
        { b' with tokens } := by
    split_ifs with hover
    · exact ⟨l.burst, (Int64.lt_iff_toInt_lt.mp hover.2).le, rfl⟩
    · exact ⟨b'.tokens, le_refl _, rfl⟩
  obtain ⟨tokens, htokens, heq⟩ := hclamp
  rw [heq]
  obtain ⟨hg0, hg⟩ := granted_le ⟨l.rate, l.burst, l.maxConcurrent⟩ hrate n tokens held
  dsimp only
  generalize LimiterCaps.granted ⟨l.rate, l.burst, l.maxConcurrent⟩ n tokens held = g at hg0 hg ⊢
  have hleft : (tokens - g).toInt = tokens.toInt - g.toInt := by
    have := tokens.le_toInt
    have := tokens.toInt_lt
    grind [Int64.toInt_sub]
  refine ⟨⟨⟨hrefill.plain.maxConcurrent, hrefill.plain.rate, hrefill.plain.burst⟩,
    hrefill.since, ?_⟩, hrefilled⟩
  have hbudget := hrefill.budget
  have hinterval := hl.interval
  rw [if_pos hrate, hleft]
  dsimp only
  have hspent : total + g.toInt + max (tokens.toInt - g.toInt) 0 ≤ total +
    max b'.tokens.toInt 0 := by
    omega
  exact (mul_le_mul_of_nonneg_left hspent hinterval.le).trans hbudget

/-! ## Runs of Acquire -/

/-- A call of `Acquire`: its clock reading, its ask, and the token that it mints. -/
structure AcquireCall where
  now : Time
  n : Int64
  token : String := ""

/-- The tables and the permits granted, after one more call. -/
def DBLimiter.acquireNext (l : DBLimiter) (resource : String) (s : LimiterDb × ℤ)
    (c : AcquireCall) : LimiterDb × ℤ :=
  let r := l.acquire resource c.now c.n c.token s.1
  (r.1, s.2 + r.2.n.toInt)

/-- The tables and the permits granted, after calls one after another. -/
def DBLimiter.acquireAll (l : DBLimiter) (resource : String) (db : LimiterDb)
    (calls : List AcquireCall) : LimiterDb × ℤ :=
  calls.foldl (l.acquireNext resource) (db, 0)

/-- Whatever calls are made on a resource from its first one on, at times that do not go back, the
permits granted through each of them are at most the burst and what the time since the first is
worth. -/
def DBLimiter.NeverOverAdmits (l : DBLimiter) : Prop :=
  ∀ (resource : String) (db : LimiterDb) (first : AcquireCall) (calls : List AcquireCall),
    db.buckets.get? resource = none →
    (first :: calls).Pairwise (fun c c' => c.now ≤ c'.now) →
    (l.acquireAll resource db (first :: calls)).2 ≤ l.burst.toInt +
      l.rate.toInt * (((first :: calls).getLast (cons_ne_nil _ _)).now - first.now) /
        l.interval.toInt

theorem DBLimiter.Rated.acquire (hl : l.Rated) {db : LimiterDb}
    (hb : (l.locked resource now db).Plain) {n : Int64} (hn : 0 < n) (token : String) :
    ∃ held, ((l.acquire resource now n token db).1.buckets =
        db.buckets.put (l.admits (l.locked resource now db) now n held).bucket) ∧
      (l.acquire resource now n token db).2.n =
        (l.admits (l.locked resource now db) now n held).granted := by
  have hrate := hl.rate_pos
  have hreads : l.readsBucket = true := decide_eq_true (.inl hrate)
  have hcaps : ¬ (l.rate ≤ 0 ∧ l.maxConcurrent ≤ 0) := fun h => Int64.not_lt.mpr h.1 hrate
  unfold DBLimiter.acquire
  rw [if_neg (Int64.not_le.mpr hn), hreads, if_neg Bool.true_eq_false.mp]
  dsimp only
  rw [hl.capsFor hb]
  dsimp only
  rw [if_neg hcaps]
  exact ⟨_, rfl, rfl⟩

theorem admit_resource (l : DBLimiter) (b : LimiterBucketRow) (now : Time) (n held : Int64) :
    (l.admits b now n held).bucket.resource = b.resource := by
  have hrefill : (l.refill b now).resource = b.resource := by
    unfold DBLimiter.refill
    grind
  unfold DBLimiter.admits
  grind

theorem locked_resource (l : DBLimiter) (resource : String) (now : Time) (db : LimiterDb) :
    (l.locked resource now db).resource = resource := by
  unfold DBLimiter.locked
  cases hget : db.buckets.get? resource with
  | none => rfl
  | some b => exact key_of_get? hget

/-- The resource's accounts at a time: nothing granted and no bucket yet, or a bucket within the
budget. -/
def RateAccounts (l : DBLimiter) (resource : String) (start now : Time) (s : LimiterDb × ℤ) :
    Prop :=
  (s.1.buckets.get? resource = none ∧ s.2 = 0) ∨
    ∃ b, s.1.buckets.get? resource = some b ∧ Budgeted l start s.2 b ∧ b.refilledAt ≤ now

/-- The bucket that a call locks is within the budget. -/
theorem RateAccounts.locked (hl : l.Rated) {last : Time} (h : RateAccounts l resource start last s)
    (hstart : start ≤ now) (hlast : last ≤ now) :
    Budgeted l start s.2 (l.locked resource now s.1) ∧
      (l.locked resource now s.1).refilledAt ≤ now := by
  rcases h with ⟨hnone, htotal⟩ | ⟨b, hget, hbudget, hrefilled⟩
  · rw [DBLimiter.locked, hnone, htotal]
    exact ⟨hl.budgeted_seed hstart, le_refl _⟩
  · grind [DBLimiter.locked]

/-- And so is the one that it leaves. -/
theorem Budgeted.acquireNext (hl : l.Rated) (hexact : l.Exact) {c : AcquireCall}
    (hbudget : Budgeted l start s.2 (l.locked resource c.now s.1))
    (hle : (l.locked resource c.now s.1).refilledAt ≤ c.now) (hn : 0 < c.n) : ∃ held,
      let b := (l.admits (l.locked resource c.now s.1) c.now c.n held).bucket
      (l.acquireNext resource s c).1.buckets.get? resource = some b ∧
        Budgeted l start (l.acquireNext resource s c).2 b ∧ b.refilledAt ≤ c.now := by
  obtain ⟨held, hbuckets, hgrant⟩ := hl.acquire hbudget.plain hn c.token
  obtain ⟨hadmits, hrefilled⟩ := hbudget.admits hl hexact hle c.n held
  refine ⟨held, ?_, ?_, hrefilled⟩
  · change (l.acquire resource c.now c.n c.token s.1).1.buckets.get? resource = _
    rw [hbuckets, get?_put, admit_resource, locked_resource, if_pos rfl]
  · change Budgeted l start (s.2 + (l.acquire resource c.now c.n c.token s.1).2.n.toInt) _
    rw [hgrant]
    exact hadmits

/-- A call that asks for nothing changes nothing. -/
theorem acquireNext_of_le (l : DBLimiter) (resource : String) (s : LimiterDb × ℤ) {c : AcquireCall}
    (hn : c.n ≤ 0) : l.acquireNext resource s c = s := by
  unfold DBLimiter.acquireNext DBLimiter.acquire
  simp_all

/-- One call keeps the accounts. -/
theorem RateAccounts.next (hl : l.Rated) (hexact : l.Exact) {last : Time}
    (h : RateAccounts l resource start last s) (c : AcquireCall) (hstart : start ≤ c.now)
    (hlast : last ≤ c.now) : RateAccounts l resource start c.now (l.acquireNext resource s c) := by
  by_cases hn : c.n ≤ 0
  · rw [acquireNext_of_le l resource s hn]
    rcases h with hnone | ⟨b, hget, hbudget, hrefilled⟩
    · exact .inl hnone
    · exact .inr ⟨b, hget, hbudget, hrefilled.trans hlast⟩
  · obtain ⟨hbudget, hle⟩ := h.locked hl hstart hlast
    obtain ⟨held, hnext⟩ := hbudget.acquireNext hl hexact hle (Int64.not_le.mp hn)
    exact .inr ⟨_, hnext⟩

/-- What every call keeps, calls at times that do not go back keep. -/
theorem calls_keep {I : Time → LimiterDb × ℤ → Prop} {good : AcquireCall → Prop}
    {next : LimiterDb × ℤ → AcquireCall → LimiterDb × ℤ}
    (hnext : ∀ s last c, good c → start ≤ c.now → last ≤ c.now → I last s → I c.now (next s c))
    (calls : List AcquireCall) {last : AcquireCall} (h : I last.now s) (hstart : start ≤ last.now)
    (hsorted : (last :: calls).Pairwise fun c c' => c.now ≤ c'.now) (hgood : ∀ c ∈ calls, good c) :
    I ((last :: calls).getLast (cons_ne_nil _ _)).now (calls.foldl next s) := by
  induction calls generalizing s last with
  | nil => exact h
  | cons c calls ih =>
    obtain ⟨hfirst, hrest⟩ := pairwise_cons.mp hsorted
    obtain ⟨hc, hgood⟩ := forall_mem_cons.mp hgood
    have hlast := hfirst c mem_cons_self
    exact ih (hnext s _ c hc (hstart.trans hlast) hlast h) (hstart.trans hlast) hrest hgood

/-- The accounts bound what is granted. -/
theorem RateAccounts.total_le (hl : l.Rated) (hstart : start ≤ now)
    (h : RateAccounts l resource start now s) :
    s.2 ≤ l.burst.toInt + l.rate.toInt * (now - start) / l.interval.toInt := by
  have hinterval := hl.interval
  have hrate := hl.rate
  rcases h with ⟨-, htotal⟩ | ⟨b, -, hbudget, hrefilled⟩
  · rw [htotal]
    exact add_nonneg hl.burst.le
      (Int.ediv_nonneg (mul_nonneg hrate.le (sub_nonneg.mpr hstart)) hinterval.le)
  · have hle := hbudget.budget
    have htokens := le_max_right b.tokens.toInt 0
    have hspent : (s.2 - l.burst.toInt) * l.interval.toInt ≤ l.rate.toInt * (now - start) := by
      nlinarith
    linarith [(Int.le_ediv_iff_mul_le hinterval).mpr hspent]

/-- The last call is not before the first. -/
theorem first_le_last {first : AcquireCall} {calls : List AcquireCall}
    (hsorted : (first :: calls).Pairwise fun c c' => c.now ≤ c'.now) :
    first.now ≤ ((first :: calls).getLast (cons_ne_nil _ _)).now := by
  rcases mem_cons.mp (getLast_mem (cons_ne_nil first calls)) with heq | hmem
  · rw [heq]
  · exact (pairwise_cons.mp hsorted).1 _ hmem

/-- The bound holds for every exact configuration. -/
theorem DBLimiter.Exact.neverOverAdmits (hexact : l.Exact) (hl : l.Rated) : l.NeverOverAdmits := by
  intro resource db first calls hnone hsorted
  have hstart : RateAccounts l resource first.now first.now (db, 0) := .inl ⟨hnone, rfl⟩
  have hfirst := hstart.next hl hexact first (le_refl _) (le_refl _)
  have hrun := calls_keep (fun s last c (_ : True) hs ht h => h.next hl hexact c hs ht) calls hfirst
    (le_refl _) hsorted fun _ _ => trivial
  exact hrun.total_le hl (first_le_last hsorted)

/-! ## What PostgreSQL keeps -/

/-- A bucket row as PostgreSQL keeps it, its instants in microseconds. -/
def keptBucket : Patch LimiterBucketRow.resource where
  apply b := { b with refilledAt := micro b.refilledAt, updatedAt := micro b.updatedAt }
  key_apply _ := rfl

/-- One more call on PostgreSQL: it reads back the row that it has seeded, and PostgreSQL keeps the
row that it writes. -/
def DBLimiter.acquireKept (l : DBLimiter) (resource : String) (s : LimiterDb × ℤ)
    (c : AcquireCall) : LimiterDb × ℤ :=
  if c.n ≤ 0 ∨ l.readsBucket = false then l.acquireNext resource s c
  else
    let seeded := s.1.buckets.put (keptBucket.apply (l.locked resource c.now s.1))
    let s := l.acquireNext resource ({ s.1 with buckets := seeded }, s.2) c
    ({ s.1 with buckets :=
      s.1.buckets.update (fun b => decide (b.resource = resource)) keptBucket }, s.2)

/-- `NeverOverAdmits` on PostgreSQL, for clock readings in whole microseconds. -/
def DBLimiter.NeverOverAdmitsKept (l : DBLimiter) : Prop :=
  ∀ (resource : String) (db : LimiterDb) (first : AcquireCall) (calls : List AcquireCall),
    db.buckets.get? resource = none →
    (first :: calls).Pairwise (fun c c' => c.now ≤ c'.now) →
    (∀ c ∈ first :: calls, microsecond ∣ c.now) →
    ((first :: calls).foldl (l.acquireKept resource) (db, 0)).2 ≤ l.burst.toInt +
      l.rate.toInt * (((first :: calls).getLast (cons_ne_nil _ _)).now - first.now) /
        l.interval.toInt

/-- The exact configurations whose refills leave whole microseconds: a token costs a whole number of
them, or no refill carries a part of the time over. -/
def DBLimiter.ExactMicros (l : DBLimiter) : Prop :=
  l.Exact ∧ (microsecond * l.rate.toInt ∣ l.interval.toInt ∨
    l.burst.toInt * l.interval.toInt ≤ l.rate.toInt ∨ l.interval.toInt ∣ l.rate.toInt)

instance (l : DBLimiter) : Decidable l.ExactMicros := inferInstanceAs (Decidable (_ ∧ _))

/-- A refill leaves whole microseconds. -/
theorem DBLimiter.ExactMicros.refill (h : l.ExactMicros) (hl : l.Rated) (hb : b.Plain)
    (hkept : microsecond ∣ b.refilledAt) (hnow : microsecond ∣ now) :
    microsecond ∣ (l.refill b now).refilledAt := by
  have hrate := hl.rate
  have hinterval := hl.interval
  generalize hd : now - b.refilledAt = d
  have hcases := hl.refilled h.1.1 hb hd.symm
  generalize l.refill b now = b' at hcases ⊢
  cases hcases with
  | past | carried => exact hkept
  | full | top => exact hnow
  | part hpos hpart =>
    rcases h.2 with ⟨k, hcost⟩ | hnano | ⟨k, hworth⟩
    · -- the tokens added cost whole microseconds
      refine Int.dvd_add hkept ⟨d * l.rate.toInt / l.interval.toInt * k, ?_⟩
      refine Int.ediv_eq_of_eq_mul_left hrate.ne' ?_
      generalize d * l.rate.toInt / l.interval.toInt = add
      rw [hcost]
      grind
    · -- a nanosecond fills the bucket
      have hfill : l.fillTime ≤ 1 := Int.ediv_le_of_le_mul hrate (by rw [one_mul]; exact hnano)
      omega
    · -- the tokens added cost the whole time
      have hall : d * l.rate.toInt / l.interval.toInt * l.interval.toInt / l.rate.toInt = d := by
        rw [Int.ediv_mul_cancel (hworth ▸ (dvd_mul_right _ _).mul_left d),
          Int.mul_ediv_cancel d hrate.ne']
      rw [hall, ← hd, add_sub_cancel]
      exact hnow

/-- And so does an admission. -/
theorem DBLimiter.ExactMicros.admits (h : l.ExactMicros) (hl : l.Rated) (hb : b.Plain)
    (hkept : microsecond ∣ b.refilledAt) (hnow : microsecond ∣ now) (n held : Int64) :
    microsecond ∣ (l.admits b now n held).bucket.refilledAt ∧
      microsecond ∣ (l.admits b now n held).bucket.updatedAt := by
  refine ⟨?_, hnow⟩
  have hrefill := h.refill hl hb hkept hnow
  unfold DBLimiter.admits
  dsimp only
  split_ifs <;> exact hrefill

/-- The accounts, with a bucket that PostgreSQL keeps as it is. -/
def KeptAccounts (l : DBLimiter) (resource : String) (start now : Time) (s : LimiterDb × ℤ) :
    Prop :=
  RateAccounts l resource start now s ∧
    ∀ b, s.1.buckets.get? resource = some b → microsecond ∣ b.refilledAt ∧ microsecond ∣ b.updatedAt

theorem keptBucket_apply (h : microsecond ∣ b.refilledAt ∧ microsecond ∣ b.updatedAt) :
    keptBucket.apply b = b := by
  change { b with refilledAt := micro b.refilledAt, updatedAt := micro b.updatedAt } = b
  rw [micro_eq h.1, micro_eq h.2]

/-- The bucket that a call locks is kept as it is. -/
theorem KeptAccounts.locked {last : Time} (h : KeptAccounts l resource start last s)
    (hnow : microsecond ∣ now) : microsecond ∣ (l.locked resource now s.1).refilledAt ∧
      microsecond ∣ (l.locked resource now s.1).updatedAt := by
  unfold DBLimiter.locked
  cases hget : s.1.buckets.get? resource with
  | none => exact ⟨hnow, hnow⟩
  | some b => exact h.2 b hget

/-- The row read back is the one that was seeded. -/
theorem locked_seeded (l : DBLimiter) (resource : String) (now : Time) (db : LimiterDb) :
    l.locked resource now { db with buckets := db.buckets.put (l.locked resource now db) } =
      l.locked resource now db := by
  change ((db.buckets.put _).get? resource).getD _ = _
  rw [get?_put, locked_resource, if_pos rfl, Option.getD_some]

/-- One call on PostgreSQL keeps the accounts. -/
theorem KeptAccounts.next (hl : l.Rated) (hexact : l.ExactMicros) {last : Time}
    (h : KeptAccounts l resource start last s) (c : AcquireCall) (hstart : start ≤ c.now)
    (hlast : last ≤ c.now) (hnow : microsecond ∣ c.now) :
    KeptAccounts l resource start c.now (l.acquireKept resource s c) := by
  have hreads : l.readsBucket = true := decide_eq_true (.inl hl.rate_pos)
  rw [DBLimiter.acquireKept, hreads]
  by_cases hn : c.n ≤ 0
  · rw [if_pos (.inl hn)]
    refine ⟨h.1.next hl hexact.1 c hstart hlast, ?_⟩
    rw [acquireNext_of_le l resource s hn]
    exact h.2
  · rw [if_neg (by simp [hn])]
    obtain ⟨hbudget, hle⟩ := h.1.locked hl hstart hlast
    have hlocked := h.locked hnow
    rw [keptBucket_apply hlocked]
    have hseeded := locked_seeded l resource c.now s.1
    generalize l.locked resource c.now s.1 = b at *
    generalize hs : (({ s.1 with buckets := s.1.buckets.put b }, s.2) : LimiterDb × ℤ) = seeded at *
    have hbudget' : Budgeted l start seeded.2 (l.locked resource c.now seeded.1) := by
      rw [← hs, hseeded]
      exact hbudget
    have hle' : (l.locked resource c.now seeded.1).refilledAt ≤ c.now := by
      rw [← hs, hseeded]
      exact hle
    obtain ⟨held, hget, hnext, hrefilled⟩ := hbudget'.acquireNext hl hexact.1 hle'
      (Int64.not_le.mp hn)
    rw [← hs, hseeded] at hget hnext hrefilled
    have hkept := hexact.admits hl hbudget.plain hlocked.1 hnow c.n held
    have hstored : ((l.acquireNext resource ({ s.1 with buckets := s.1.buckets.put b }, s.2)
        c).1.buckets.update (fun b => decide (b.resource = resource)) keptBucket).get? resource =
          some (l.admits b c.now c.n held).bucket := by
      rw [get?_update, hget, Option.map_some, keptBucket_apply hkept, ite_self]
    refine ⟨.inr ⟨_, hstored, hnext, hrefilled⟩, fun b' hb' => ?_⟩
    cases hstored.symm.trans hb'
    exact hkept

/-- On PostgreSQL the bound holds for readings and token costs in whole microseconds. -/
theorem DBLimiter.ExactMicros.neverOverAdmits (hexact : l.ExactMicros) (hl : l.Rated) :
    l.NeverOverAdmitsKept := by
  intro resource db first calls hnone hsorted hmicros
  obtain ⟨hmicro, hmicros⟩ := forall_mem_cons.mp hmicros
  have hstart : KeptAccounts l resource first.now first.now (db, 0) :=
    ⟨.inl ⟨hnone, rfl⟩, fun b hb => by cases hnone.symm.trans hb⟩
  have hfirst := hstart.next hl hexact first (le_refl _) (le_refl _) hmicro
  have hrun := calls_keep (fun s last c hc hs ht h => h.next hl hexact c hs ht hc) calls hfirst
    (le_refl _) hsorted hmicros
  exact hrun.1.total_le hl (first_le_last hsorted)

/-! ## Configurations that over-admit -/

/-- The bucket is empty, and has been refilled up to a time. -/
def Drained (resource : String) (refilledAt : Time) (total : ℤ) (s : LimiterDb × ℤ) : Prop :=
  ∃ b, s.1.buckets.get? resource = some b ∧ b.Plain ∧ b.tokens = 0 ∧ b.refilledAt = refilledAt ∧
    s.2 = total

section Drain

variable (hl : l.Rated) (hcap : l.maxConcurrent = 0) {resource : String} {s : LimiterDb × ℤ}
  {u : Time}
include hl hcap

/-- A call for the burst, without a concurrency cap, takes every token. -/
theorem drain (hb : (l.locked resource now s.1).Plain) {tokens : Int64} {refilledAt : Time}
    (hrefill : l.refill (l.locked resource now s.1) now =
      { l.locked resource now s.1 with tokens, refilledAt })
    (h0 : 0 ≤ tokens) (hle : tokens ≤ l.burst) :
    Drained resource refilledAt (s.2 + tokens.toInt)
      (l.acquireNext resource s { now, n := l.burst }) := by
  have hrate := hl.rate_pos
  have hgranted : ∀ held,
    LimiterCaps.granted ⟨l.rate, l.burst, l.maxConcurrent⟩ l.burst tokens held =
      tokens := by
    intro held
    grind [LimiterCaps.granted]
  have hadmits : ∀ held, l.admits (l.locked resource now s.1) now l.burst held =
      { bucket := { l.locked resource now s.1 with tokens := 0, refilledAt, updatedAt := now }
        granted := tokens
        retryAfter := (l.admits (l.locked resource now s.1) now l.burst held).retryAfter } := by
    intro held
    unfold DBLimiter.admits
    rw [hl.capsFor hb, hrefill]
    grind
  obtain ⟨held, hbuckets, hgrant⟩ := hl.acquire hb hl.burst_pos ""
  rw [hadmits held] at hbuckets hgrant
  refine ⟨{ l.locked resource now s.1 with tokens := 0, refilledAt, updatedAt := now }, ?_,
    ⟨hb.maxConcurrent, hb.rate, hb.burst⟩, rfl, rfl, ?_⟩
  · change (l.acquire resource now l.burst "" s.1).1.buckets.get? resource = _
    rw [hbuckets, get?_put]
    rw [locked_resource, if_pos rfl]
  · change s.2 + (l.acquire resource now l.burst "" s.1).2.n.toInt = _
    rw [hgrant]

theorem drain_first (hnone : s.1.buckets.get? resource = none) :
    Drained resource now (s.2 + l.burst.toInt)
      (l.acquireNext resource s { now, n := l.burst }) := by
  have hlocked : l.locked resource now s.1 =
    l.seed resource now := by rw [DBLimiter.locked, hnone]; rfl
  have hplain : (l.locked resource now s.1).Plain := hlocked ▸ ⟨rfl, rfl, rfl⟩
  refine drain hl hcap hplain ?_ (Int64.le_of_lt hl.burst_pos) (Int64.le_refl _)
  have hzero : timeSub now now ≤ 0 := by
    rw [Int64.le_iff_toInt_le]
    exact (timeSub_le (le_refl now)).trans (sub_self now).le
  simp_all [DBLimiter.refill, DBLimiter.seed]

/-- A call after the time that fills the bucket takes the burst. -/
theorem drain_full {total : ℤ} (h : Drained resource u total s) (hu : u < now)
    (hlt : now - u < 2 ^ 63) (hfull : (l.burst * l.interval / l.rate).toInt ≤ now - u) :
    Drained resource now (total + l.burst.toInt)
      (l.acquireNext resource s { now, n := l.burst }) := by
  obtain ⟨b, hget, hb, htokens, rfl, rfl⟩ := h
  have hlocked : l.locked resource now s.1 = b := by rw [DBLimiter.locked, hget]; rfl
  have helapsed := timeSub_of_lt (sub_nonneg.mpr hu.le) hlt
  refine drain hl hcap (hlocked ▸ hb) ?_ (Int64.le_of_lt hl.burst_pos) (Int64.le_refl _)
  have hpos : ¬ timeSub now b.refilledAt ≤ 0 := by
    simp_all [Int64.lt_iff_toInt_lt]
  have hfill : l.burst * l.interval / l.rate ≤ timeSub now b.refilledAt := by
    rw [Int64.le_iff_toInt_le, helapsed]
    exact hfull
  unfold DBLimiter.refill
  rw [hlocked, hl.capsFor hb]
  rw [if_neg (Int64.not_le.mpr hl.rate_pos), if_neg hpos, if_pos hfill]

/-- A call before that time takes the tokens that the time is worth, and leaves the bucket refilled
up to what they cost, rounded down. -/
theorem drain_part {total : ℤ} (h : Drained resource u total s)
    (hwrap : l.burst.toInt * l.interval.toInt < 2 ^ 63) (he : 0 < e) (hpart : e < l.fillTime)
    (hadd : 0 < e * l.rate.toInt / l.interval.toInt) (hnow : now = u + e) :
    Drained resource (u + e * l.rate.toInt / l.interval.toInt * l.interval.toInt / l.rate.toInt)
      (total + e * l.rate.toInt / l.interval.toInt)
      (l.acquireNext resource s { now, n := l.burst }) := by
  have hburst : e * l.rate.toInt / l.interval.toInt < l.burst.toInt :=
    Int.ediv_lt_of_lt_mul hl.interval (worth_lt_of_part hl hpart)
  obtain ⟨b, hget, hb, htokens, rfl, rfl⟩ := h
  have hlocked : l.locked resource now s.1 = b := by rw [DBLimiter.locked, hget]; rfl
  have hcases : Refilled l b now e (l.refill b now) :=
    hl.refilled hwrap hb (by rw [hnow, add_sub_cancel_left])
  generalize hrefill : l.refill b now = b' at hcases
  cases hcases with
  | past hpast => exact absurd he (not_lt.mpr hpast)
  | full _ hfull => exact absurd hpart (not_lt.mpr hfull)
  | carried _ _ hless => exact absurd hadd (not_lt.mpr hless)
  | top _ _ add hword _ htop => grind [Int64.le_iff_toInt_le]
  | part _ _ add hword hpos hbelow =>
    rw [← hword]
    grind [drain, Int64.le_of_lt, word_pos]

theorem DBLimiter.NeverOverAdmits.worth_of_full (h : l.NeverOverAdmits) (he : 0 < e)
    (hlt : e < 2 ^ 63) (hfull : (l.burst * l.interval / l.rate).toInt ≤ e) :
    l.burst.toInt * l.interval.toInt ≤ l.rate.toInt * e := by
  have hbound := h "" {} { now := 0, n := l.burst } [{ now := e, n := l.burst }] rfl
    (by simpa using he.le)
  have hfirst : Drained "" 0 (0 + l.burst.toInt)
    (l.acquireNext "" ({}, 0) { now := 0, n := l.burst }) :=
    drain_first hl hcap rfl
  obtain ⟨-, -, -, -, -, htotal⟩ := drain_full hl hcap hfirst he (by simpa using hlt)
    (by simpa using hfull)
  have hcalls : (l.acquireAll "" {} [{ now := 0, n := l.burst }, { now := e, n := l.burst }]).2 =
      0 + l.burst.toInt + l.burst.toInt := htotal
  rw [hcalls, getLast_cons (cons_ne_nil _ _), getLast_singleton, sub_zero] at hbound
  have hle : l.burst.toInt ≤ l.rate.toInt * e / l.interval.toInt := by
    dsimp only at hbound
    omega
  exact (Int.le_ediv_iff_mul_le hl.interval).mp hle

/-- Tokens that are taken as soon as a time is worth some, again and again. -/
theorem drain_repeatedly
    (hwrap : l.burst.toInt * l.interval.toInt < 2 ^ 63) (he : 0 < e) (hpart : e < l.fillTime)
    (hadd : 0 < e * l.rate.toInt / l.interval.toInt) {cost : ℤ}
    (hcost : cost = e * l.rate.toInt / l.interval.toInt * l.interval.toInt / l.rate.toInt) (m : ℕ) :
    Drained "" (m * cost) (l.burst.toInt + m * (e * l.rate.toInt / l.interval.toInt))
      (l.acquireAll "" {} ({ now := 0, n := l.burst } ::
        (List.range m).map fun j : ℕ => { now := j * cost + e, n := l.burst })) := by
  induction m with
  | zero =>
    have hfirst : Drained "" 0 (0 + l.burst.toInt)
        (l.acquireNext "" ({}, 0) { now := 0, n := l.burst }) := drain_first hl hcap rfl
    rw [Nat.cast_zero, zero_mul, zero_mul, add_zero, ← zero_add l.burst.toInt]
    exact hfirst
  | succ m ih =>
    have hnext := drain_part hl hcap ih hwrap he hpart hadd rfl
    simp_all [range_succ, DBLimiter.acquireAll, add_mul, add_assoc]

/-- Tokens whose cost is rounded down over-admit. -/
theorem DBLimiter.NeverOverAdmits.dvd_of_part (h : l.NeverOverAdmits)
    (hwrap : l.burst.toInt * l.interval.toInt < 2 ^ 63) (he : 0 < e)
    (hpart : e < l.fillTime) (hadd : 0 < e * l.rate.toInt / l.interval.toInt) :
    l.rate.toInt ∣ e * l.rate.toInt / l.interval.toInt * l.interval.toInt := by
  have hrate := hl.rate
  have hinterval := hl.interval
  by_contra hdvd
  generalize hcost : e * l.rate.toInt / l.interval.toInt * l.interval.toInt / l.rate.toInt = cost
  -- one round gains the part of a nanosecond by which the cost is rounded
  have hgain : l.rate.toInt * cost + 1 ≤ e * l.rate.toInt / l.interval.toInt *
    l.interval.toInt := by
    have hle := Int.mul_ediv_self_le (x := e * l.rate.toInt / l.interval.toInt * l.interval.toInt)
      hrate.ne'
    rw [hcost] at hle
    rcases lt_or_eq_of_le hle with hlt | heq
    · exact hlt
    · exact absurd ⟨cost, heq.symm⟩ hdvd
  have hcost0 : 0 ≤ cost := hcost ▸ Int.ediv_nonneg (mul_pos hadd hinterval).le hrate.le
  -- so many rounds gain more than the last call is early by
  obtain ⟨m, hm⟩ := Int.eq_ofNat_of_zero_le (mul_pos hrate he).le
  have hdrained := drain_repeatedly hl hcap hwrap he hpart hadd hcost.symm (m + 1)
  obtain ⟨-, -, -, -, -, htotal⟩ := hdrained
  have hsorted : ({ now := 0, n := l.burst } ::
      (List.range (m + 1)).map fun j : ℕ =>
        ({ now := j * cost + e, n := l.burst } : AcquireCall)).Pairwise
        fun c c' => c.now ≤ c'.now := by
    refine pairwise_cons.mpr ⟨fun c hc => ?_, ?_⟩
    · obtain ⟨j, -, rfl⟩ := mem_map.mp hc
      exact add_nonneg (mul_nonneg (Int.natCast_nonneg j) hcost0) he.le
    · rw [pairwise_map]
      refine pairwise_lt_range.imp fun {i j} hij => ?_
      nlinarith
  have hbound := h "" {} { now := 0, n := l.burst } _ rfl hsorted
  rw [htotal, getLast_cons (by simp)] at hbound
  simp only [range_succ, map_append, map_cons, map_nil, getLast_append_singleton,
    sub_zero] at hbound
  have hle : ((m : ℤ) + 1) * (e * l.rate.toInt / l.interval.toInt) ≤
      l.rate.toInt * (m * cost + e) / l.interval.toInt := by
    push_cast at hbound
    linarith
  have hspent := (Int.le_ediv_iff_mul_le hinterval).mp hle
  nlinarith

/-- A product that wraps over-admits: the bucket fills before it should. -/
theorem DBLimiter.NeverOverAdmits.no_wrap (h : l.NeverOverAdmits) : l.burst.toInt *
    l.interval.toInt < 2 ^ 63 := by
  have hrate := hl.rate
  by_contra hge
  have hwrapped : (l.burst * l.interval).toInt < l.burst.toInt * l.interval.toInt :=
    (l.burst * l.interval).toInt_lt.trans_le (not_lt.mp hge)
  have hrate63 := l.rate.toInt_lt
  rcases lt_or_ge (l.burst * l.interval / l.rate).toInt 1 with hnone | hsome
  · -- no time fills it, and the next nanosecond does
    have hworth := h.worth_of_full hl hcap one_pos (by decide) (by omega)
    omega
  · have hworth := h.worth_of_full hl hcap (by omega) (l.burst * l.interval / l.rate).toInt_lt
      (le_refl _)
    have hpos : 0 ≤ (l.burst * l.interval).toInt := by
      by_contra hneg
      have hlow := (l.burst * l.interval).le_toInt
      generalize hx : -(l.burst * l.interval).toInt = x at *
      have hquot : (l.burst * l.interval).toInt.tdiv l.rate.toInt = -(x / l.rate.toInt) := by
        rw [← Int.tdiv_eq_ediv_of_nonneg (by omega), ← Int.neg_tdiv, ← hx, neg_neg]
      have hle : x / l.rate.toInt ≤ x := Int.ediv_le_self _ (by omega)
      have hnonneg : 0 ≤ x / l.rate.toInt := Int.ediv_nonneg (by omega) hrate.le
      grind [Int64.toInt_div]
    rw [toInt_div_of_pos hpos hrate] at hworth
    have := Int.mul_ediv_self_le (x := (l.burst * l.interval).toInt) hrate.ne'
    omega

/-- A configuration without a concurrency cap that never over-admits is exact. -/
theorem DBLimiter.NeverOverAdmits.exact (h : l.NeverOverAdmits) : l.Exact := by
  have hwrap := h.no_wrap hl hcap
  have hrate := hl.rate
  have hinterval := hl.interval
  have hburst := hl.burst
  have htime := fillTime_toInt hl hwrap
  refine ⟨hwrap, ?_⟩
  by_contra hne
  rw [not_or, not_or, not_and, not_le] at hne
  obtain ⟨hcost, hlarge, hwhole⟩ := hne
  -- the bucket takes a time to fill, and exactly the time that the burst is worth
  have hfill : 0 < l.fillTime := Int.le_ediv_of_mul_le hrate (by linarith)
  have hdvd : l.rate.toInt ∣ l.burst.toInt * l.interval.toInt := by
    have hworth := h.worth_of_full hl hcap hfill
      (by rw [← htime]; exact (l.burst * l.interval / l.rate).toInt_lt) htime.le
    have hle := Int.mul_ediv_self_le (x := l.burst.toInt * l.interval.toInt) hrate.ne'
    exact ⟨_, le_antisymm hworth hle⟩
  have hnot : ¬ l.interval.toInt ∣ l.rate.toInt := fun hi => hwhole hi hdvd
  rcases lt_or_ge l.interval.toInt l.rate.toInt with hfast | hslow
  · -- a nanosecond is worth several tokens and a part of one
    have hpart : 1 < l.fillTime := by
      obtain ⟨k, hk⟩ := hdvd
      grind [DBLimiter.fillTime, Int.mul_ediv_cancel_left]
    have hadd : 0 < 1 * l.rate.toInt / l.interval.toInt := by
      exact Int.le_ediv_of_mul_le hinterval (by linarith)
    have hwhole := h.dvd_of_part hl hcap hwrap one_pos hpart hadd
    rw [one_mul] at hwhole hadd
    have hle := Int.ediv_mul_le l.rate.toInt hinterval.ne'
    have heq := le_antisymm hle (Int.le_of_dvd (mul_pos hadd hinterval) hwhole)
    exact hnot ⟨_, (heq.symm.trans (mul_comm _ _))⟩
  · -- the first time that is worth a token is worth more than the token
    have hstrict : l.rate.toInt < l.interval.toInt :=
      lt_of_le_of_ne hslow fun heq => hcost (heq ▸ dvd_refl _)
    have htwo : 2 ≤ l.burst.toInt := by
      by_contra hone
      have hone : l.burst.toInt = 1 := by omega
      simp_all
    generalize he : l.interval.toInt / l.rate.toInt + 1 = e
    have hlow : l.interval.toInt < e * l.rate.toInt := by
      rw [← he]
      exact Int.lt_ediv_add_one_mul_self _ hrate
    have hhigh : e * l.rate.toInt ≤ l.interval.toInt + l.rate.toInt := by
      rw [← he, add_mul, one_mul]
      exact add_le_add_left (Int.ediv_mul_le _ hrate.ne') _
    have hpart : e < l.fillTime := by
      obtain ⟨k, hk⟩ := hdvd
      rw [DBLimiter.fillTime, hk, Int.mul_ediv_cancel_left _ hrate.ne']
      nlinarith
    have hadd : e * l.rate.toInt / l.interval.toInt = 1 := by
      rw [Int.ediv_eq_iff_of_pos hinterval]
      omega
    have hwhole := h.dvd_of_part hl hcap hwrap (by nlinarith) hpart (by omega)
    simp_all

end Drain

/-- **The limiter's rate.** A configuration that `NewDBLimiter` accepts with a positive rate never
over-admits where `refilled_at` keeps nanoseconds if it is exact, and, where no concurrency cap is
configured, only if it is. On PostgreSQL it never over-admits at readings in whole microseconds if
its refills leave such. -/
theorem limiter_never_over_admits (cfg : DBLimiterConfig) (l : DBLimiter)
    (hnew : newDBLimiter cfg = .ok l) (hrate : 0 < cfg.rate) :
    (l.Exact → l.NeverOverAdmits) ∧ (l.maxConcurrent = 0 → (l.NeverOverAdmits ↔ l.Exact)) ∧
      (l.ExactMicros → l.NeverOverAdmitsKept) := by
  have hl := newDBLimiter_rated hnew hrate
  exact ⟨fun hexact => hexact.neverOverAdmits hl,
    fun hcap => ⟨fun h => h.exact hl hcap, fun hexact => hexact.neverOverAdmits hl⟩,
    fun hexact => hexact.neverOverAdmits hl⟩

/-- Ten permits a second. -/
theorem ten_a_second_never_over_admit :
    DBLimiter.NeverOverAdmits ⟨10, 1000000000, 10, 0, 0⟩ ∧
      DBLimiter.NeverOverAdmitsKept ⟨10, 1000000000, 10, 0, 0⟩ := by
  have h := limiter_never_over_admits { rate := 10, interval := 1000000000 } _ rfl (by decide)
  exact ⟨h.1 (by decide), h.2.2 (by decide)⟩

/-- Three permits a second with a burst of one: a second permit after 333333333 nanoseconds, which
are worth less than a token. And 200000 permits a day: the product of the burst and the interval
wraps to a negative time, and a nanosecond after the burst it is granted again. On PostgreSQL, ten a
second with a burst of one: the first call's 500 nanoseconds are dropped, and the second gets a
token too early. -/
theorem limiter_over_admits :
    newDBLimiter { rate := 3, interval := 1000000000, burst := 1 } = .ok ⟨3, 1000000000, 1, 0, 0⟩ ∧
    (DBLimiter.acquireAll ⟨3, 1000000000, 1, 0, 0⟩ "api" {}
      [{ now := 0, n := 1 }, { now := 333333333, n := 1 }]).2 = 2 ∧
    (1 : ℤ) + 3 * (333333333 - 0) / 1000000000 = 1 ∧
    newDBLimiter { rate := 200000, interval := 86400000000000 } =
      .ok ⟨200000, 86400000000000, 200000, 0, 0⟩ ∧
    (DBLimiter.acquireAll ⟨200000, 86400000000000, 200000, 0, 0⟩ "api" {}
      [{ now := 0, n := 200000 }, { now := 1, n := 200000 }]).2 = 400000 ∧
    (200000 : ℤ) + 200000 * (1 - 0) / 86400000000000 = 200000 ∧
    ([{ now := 500, n := 1 }, { now := 100000000, n := 1 }].foldl
      (DBLimiter.acquireKept ⟨10, 1000000000, 1, 0, 0⟩ "api") ({}, 0)).2 = 2 ∧
    (1 : ℤ) + 10 * (100000000 - 500) / 1000000000 = 1 := by
  decide

end Flywheel
