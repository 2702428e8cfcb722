import Flywheel.Limiter.Rate

/-!
# The wait that a denial reports

`retryAfter` rounds the time of one token down, and `refill` rounds down the tokens that an elapsed
time is worth. The two meet where the rate divides the interval, and where the burst is one token,
since `refill` fills the bucket after the time that the burst costs, rounded down as `retryAfter`
does. Elsewhere the reported wait ends one nanosecond before the token.
-/

namespace Flywheel

open Relational

variable {l : DBLimiter} {b : LimiterBucketRow} {resource token : String} {now : Time} {n : Int64}
  {db : LimiterDb} {d : ℤ}

/-! ## A denial -/

theorem granted_uncapped {c : LimiterCaps} (hrate : 0 < c.rate) (hcap : c.maxConcurrent = 0)
    (n tokens held : Int64) :
    (c.granted n tokens held).toInt = max 0 (min n.toInt tokens.toInt) := by
  unfold LimiterCaps.granted
  simp only [hrate, hcap, true_and, Int64.lt_irrefl, false_and, if_false, Int64.lt_iff_toInt_lt]
  split_ifs <;> simp only [Int64.toInt_zero] at * <;> omega

section Uncapped

variable (hl : l.Rated) (hcap : l.maxConcurrent = 0)
include hl hcap

/-- What `Acquire` decides without a concurrency cap: a bucket without a token grants nothing, and
is written back as the refill left it. -/
theorem DBLimiter.Rated.admits_uncapped (hb : b.Plain) (hn : 0 < n) (t : Time) :
    (1 ≤ (l.refill b t).tokens.toInt → 1 ≤ (l.admits b t n 0).granted.toInt) ∧
      ((l.refill b t).tokens.toInt ≤ 0 → l.admits b t n 0 =
        { bucket := { l.refill b t with updatedAt := t }
          granted := 0
          retryAfter := l.retryAfter (l.refill b t).tokens t (l.refill b t).refilledAt
            ⟨l.rate, l.burst, 0⟩ }) := by
  have hrate := hl.rate_pos
  have hburst := hl.burst
  have hn' := Int64.lt_iff_toInt_lt.mp hn
  unfold DBLimiter.admits
  rw [hl.capsFor hb, hcap]
  dsimp only
  generalize l.refill b t = b'
  have hgranted := granted_uncapped (c := ⟨l.rate, l.burst, 0⟩) hrate rfl n
  refine ⟨fun htoken => ?_, fun hnone => ?_⟩
  · grind
  · -- no clamp, and nothing to take
    have hkept : ¬ (0 < l.rate ∧ l.burst < b'.tokens) := fun h => by
      have := Int64.lt_iff_toInt_lt.mp h.2
      omega
    have hzero : LimiterCaps.granted ⟨l.rate, l.burst, 0⟩ n b'.tokens 0 = 0 := by
      rw [← Int64.toInt_inj, hgranted, Int64.toInt_zero]
      omega
    rw [if_neg hkept, hzero, if_pos hrate, if_pos hn, Int64.sub_zero]

theorem DBLimiter.Rated.acquire_uncapped (hb : (l.locked resource now db).Plain) (hn : 0 < n) :
    l.acquire resource now n token db =
      (db.settled (l.admits (l.locked resource now db) now n 0) now false none,
        (l.admits (l.locked resource now db) now n 0).grant none) := by
  have hrate := hl.rate_pos
  have hreads : l.readsBucket = true := decide_eq_true (.inl hrate)
  unfold DBLimiter.acquire
  rw [if_neg (Int64.not_le.mpr hn), hreads, if_neg Bool.true_eq_false.mp]
  dsimp only
  rw [hl.capsFor hb, hcap]
  dsimp only
  rw [if_neg fun h => Int64.not_lt.mpr h.1 hrate]
  rfl

end Uncapped

/-! ## The next token -/

/-- Where the rate divides the interval, or the burst is one token of a whole nanosecond at least,
the time that whole tokens leave over is less than the time of one. -/
theorem left_lt_perToken {e burst rate interval : ℤ} (hrate : 0 < rate) (hinterval : 0 < interval)
    (he : 0 < e) (hmeet : rate ∣ interval ∨ burst = 1 ∧ rate ≤ interval)
    (hpart : e < burst * interval / rate) :
    e < e * rate / interval * interval / rate + interval / rate := by
  rcases hmeet with ⟨k, rfl⟩ | ⟨rfl, -⟩
  · have hk : 0 < k := pos_of_mul_pos_right hinterval hrate.le
    rw [mul_comm e, Int.mul_ediv_mul_of_pos _ _ hrate, Int.mul_ediv_cancel_left _ hrate.ne',
      mul_left_comm, Int.mul_ediv_cancel_left _ hrate.ne']
    linarith [Int.lt_ediv_add_one_mul_self e hk]
  · rw [one_mul] at hpart
    have hworth : 0 ≤ e * rate / interval * interval / rate :=
      Int.ediv_nonneg (mul_nonneg (Int.ediv_nonneg (mul_pos he hrate).le hinterval.le) hinterval.le)
        hrate.le
    omega

/-- After a time `d` a bucket of `tokens`, none of them whole, has a token: the time fills it, or is
worth one and what the bucket owes. -/
def DBLimiter.tokenDue (l : DBLimiter) (tokens d : ℤ) : Prop :=
  0 < d ∧ (l.fillTime ≤ d ∨ (1 - tokens) * l.interval.toInt ≤ d * l.rate.toInt)

/-- Within the time of one token, rounded down, a token is due only at its end, and only where the
two roundings meet. -/
theorem tokenDue_iff_of_le (hl : l.Rated) {tokens : ℤ} (hempty : tokens ≤ 0)
    (hd : d ≤ l.interval.toInt / l.rate.toInt) :
    l.tokenDue tokens d ↔ d = l.interval.toInt / l.rate.toInt ∧
      (l.rate.toInt ∣ l.interval.toInt ∧ 0 ≤ tokens ∨
        l.burst.toInt = 1 ∧ l.rate.toInt ≤ l.interval.toInt) := by
  have hrate := hl.rate
  have hinterval := hl.interval
  have hfloor := Int.mul_ediv_self_le (x := l.interval.toInt) hrate.ne'
  unfold DBLimiter.tokenDue DBLimiter.fillTime
  constructor
  · rintro ⟨hpos, hfull | hworth⟩
    · -- a bucket of two tokens takes twice the time
      have hone : l.burst.toInt = 1 := by
        by_contra hne
        have htwo : 2 ≤ l.burst.toInt := by have := hl.burst; omega
        have hdouble : 2 * (l.interval.toInt / l.rate.toInt) ≤
            l.burst.toInt * l.interval.toInt / l.rate.toInt :=
          Int.le_ediv_of_mul_le hrate (by nlinarith)
        omega
      rw [hone, one_mul] at hfull
      exact ⟨by omega, .inr ⟨hone, by nlinarith⟩⟩
    · have howes : 0 ≤ tokens := by nlinarith
      have hwhole : l.rate.toInt * (l.interval.toInt / l.rate.toInt) =
        l.interval.toInt := by nlinarith
      refine ⟨by nlinarith, .inl ⟨⟨_, hwhole.symm⟩, howes⟩⟩
  · rintro ⟨rfl, ⟨hdvd, howes⟩ | ⟨hone, hslow⟩⟩
    · refine ⟨Int.ediv_pos_of_pos_of_dvd hinterval hrate.le hdvd, .inr ?_⟩
      rw [Int.ediv_mul_cancel hdvd, le_antisymm hempty howes, sub_zero, one_mul]
    · rw [hone, one_mul]
      exact ⟨Int.le_ediv_of_mul_le hrate (by omega), .inl le_rfl⟩

/-- A wait up to the end of one token's time, cut off as a duration is, ends when the token is due
and not later exactly where the two roundings meet and nothing is cut off. -/
theorem wait_ends_when_due_iff (hl : l.Rated) {tokens refilledAt now : ℤ} (hempty : tokens ≤ 0)
    {wait : Int64}
    (hwait : wait = timeSub (refilledAt + l.interval.toInt / l.rate.toInt) now)
    (hpos : l.rate.toInt ∣ l.interval.toInt ∨ l.burst.toInt = 1 ∧ l.rate.toInt ≤ l.interval.toInt →
      0 < refilledAt + l.interval.toInt / l.rate.toInt - now) :
    (0 < max 0 wait.toInt ∧ l.tokenDue tokens (now + max 0 wait.toInt - refilledAt) ∧
      ∀ t < now + max 0 wait.toInt, ¬ l.tokenDue tokens (t - refilledAt)) ↔
    (l.rate.toInt ∣ l.interval.toInt ∧ 0 ≤ tokens ∨
        l.burst.toInt = 1 ∧ l.rate.toInt ≤ l.interval.toInt) ∧
      refilledAt + l.interval.toInt / l.rate.toInt - now < 2 ^ 63 := by
  have hcut := timeSub_cases (refilledAt + l.interval.toInt / l.rate.toInt) now
  have hdue := fun d => tokenDue_iff_of_le hl hempty (d := d)
  have hlt := wait.toInt_lt
  constructor
  · grind
  · rintro ⟨hmeet, hfits⟩
    grind

section Token

variable (hl : l.Rated) (hwrap : l.burst.toInt * l.interval.toInt < 2 ^ 63) (hb : b.Plain)
include hl hwrap hb

/-- A refill of a bucket without a token gives it one exactly when one is due. -/
theorem one_le_refill_iff (hempty : b.tokens.toInt ≤ 0) (hd : d = now - b.refilledAt) :
    1 ≤ (l.refill b now).tokens.toInt ↔ l.tokenDue b.tokens.toInt d := by
  have hburst := hl.burst
  have hworth := Int.le_ediv_iff_mul_le (a := 1 - b.tokens.toInt)
    (b := d * l.rate.toInt) hl.interval
  have hsum : ∀ add : Int64, 0 < add.toInt → (b.tokens + add).toInt = b.tokens.toInt +
    add.toInt := by
    intro add hadd
    have := b.tokens.le_toInt
    have := add.toInt_lt
    grind [Int64.toInt_add]
  have hcases := hl.refilled hwrap hb hd
  generalize l.refill b now = b' at hcases
  unfold DBLimiter.tokenDue
  cases hcases with
  | past | carried => omega
  | full hpos hfull => exact iff_of_true hburst ⟨hpos, .inl hfull⟩
  | top hpos hpart add hadd hsome htop =>
    have htop := Int64.le_iff_toInt_le.mp htop
    rw [hsum add hsome] at htop
    exact iff_of_true hburst ⟨hpos, .inr (hworth.mp (by omega))⟩
  | part hpos hpart add hadd hsome hbelow => grind

/-- Where the two roundings meet, a bucket that a refill leaves without a token has been refilled up
to less than the time of one token before. -/
theorem refilledAt_add_pos (hmeet : l.rate.toInt ∣ l.interval.toInt ∨
      l.burst.toInt = 1 ∧ l.rate.toInt ≤ l.interval.toInt)
    (hempty : (l.refill b now).tokens.toInt ≤ 0) {wait : ℤ}
    (hwait : wait = (l.refill b now).refilledAt + l.interval.toInt / l.rate.toInt - now) :
    0 < wait := by
  have hrate := hl.rate
  have hburst := hl.burst
  have hk : 1 ≤ l.interval.toInt / l.rate.toInt := by
    have hle := hmeet.elim (Int.le_of_dvd hl.interval) And.right
    exact Int.le_ediv_of_mul_le hrate (by omega)
  obtain ⟨d, hd⟩ : ∃ d : ℤ, d = now - b.refilledAt := ⟨_, rfl⟩
  have hcases := hl.refilled hwrap hb hd
  generalize l.refill b now = b' at hcases hempty hwait
  cases hcases with
  | past hpast => omega
  | full | top => exact absurd hempty (not_le.mpr hburst)
  | carried hpos hpart hless =>
    have hzero : d * l.rate.toInt / l.interval.toInt = 0 :=
      le_antisymm hless (Int.ediv_nonneg (mul_pos hpos hrate).le hl.interval.le)
    have hleft := left_lt_perToken hrate hl.interval hpos hmeet hpart
    grind [Int.zero_ediv]
  | part hpos hpart add hadd hsome hbelow =>
    have hleft := left_lt_perToken hrate hl.interval hpos hmeet hpart
    dsimp only at hwait
    omega

end Token

/-! ## The reported wait -/

/-- The wait that `Acquire` reports is exact: it is positive, an `Acquire` at its end grants a
permit, and none before does. -/
def DBLimiter.ExactWait (l : DBLimiter) (resource : String) (now : Time) (n : Int64)
    (token : String) (db : LimiterDb) : Prop :=
  let r := l.acquire resource now n token db
  0 < r.2.retryAfter.toInt ∧ ∀ (m : Int64) (token' : String), 0 < m →
    1 ≤ (l.acquire resource (now + r.2.retryAfter.toInt) m token' r.1).2.n.toInt ∧
      ∀ t < now + r.2.retryAfter.toInt, (l.acquire resource t m token' r.1).2.n = 0

/-- The wait is the time to the end of one token's, rounded down, from where the bucket is refilled
to, and not below zero. -/
theorem retryAfter_toInt (hl : l.Rated) {tokens : Int64} (hempty : tokens.toInt ≤ 0)
    (refilledAt : Time) : (l.retryAfter tokens now refilledAt ⟨l.rate, l.burst, 0⟩).toInt =
      max 0 (timeSub (refilledAt + l.interval.toInt / l.rate.toInt) now).toInt := by
  have hnone : ¬ (l.rate ≤ 0 ∨ 1 ≤ tokens) := by
    rw [not_or, Int64.not_le, Int64.not_le]
    refine ⟨hl.rate_pos, Int64.lt_iff_toInt_lt.mpr ?_⟩
    grind
  unfold DBLimiter.retryAfter
  dsimp only
  rw [if_neg hnone, toInt_div_of_pos hl.interval.le hl.rate]
  split_ifs with hpos
  · exact (max_eq_right (Int64.lt_iff_toInt_lt.mp hpos).le).symm
  · simp_all [Int64.le_iff_toInt_le]

section Denial

variable (hl : l.Rated) (hcap : l.maxConcurrent = 0)
  (hwrap : l.burst.toInt * l.interval.toInt < 2 ^ 63) (hb : (l.locked resource now db).Plain)
  (hn : 0 < n)
include hl hcap hb hn

/-- An `Acquire` that grants nothing found no token, and reports the wait of the refilled bucket. -/
theorem DBLimiter.Rated.denied (hdenied : (l.acquire resource now n token db).2.n = 0) :
    (l.refill (l.locked resource now db) now).tokens.toInt ≤ 0 ∧
      (l.acquire resource now n token db).2.retryAfter.toInt =
        max 0 (timeSub ((l.refill (l.locked resource now db) now).refilledAt +
          l.interval.toInt / l.rate.toInt) now).toInt := by
  obtain ⟨hsome, hnone⟩ := hl.admits_uncapped hcap hb hn now
  rw [hl.acquire_uncapped hcap hb hn] at hdenied ⊢
  have hempty : (l.refill (l.locked resource now db) now).tokens.toInt ≤ 0 := by
    by_contra htoken
    have hgrant := hsome (by omega)
    change (l.admits (l.locked resource now db) now n 0).granted = 0 at hdenied
    simp_all
  refine ⟨hempty, ?_⟩
  change (l.admits (l.locked resource now db) now n 0).retryAfter.toInt = _
  simp_all [retryAfter_toInt]

include hwrap in
/-- A later `Acquire` with no call in between grants a permit exactly when a token is due. -/
theorem DBLimiter.Rated.retried
    (hempty : (l.refill (l.locked resource now db) now).tokens.toInt ≤ 0) {m : Int64} (hm : 0 < m)
    (token token' : String) (t : Time)
    (hd : d = t - (l.refill (l.locked resource now db) now).refilledAt) :
    let r := l.acquire resource t m token' (l.acquire resource now n token db).1
    let due := l.tokenDue (l.refill (l.locked resource now db) now).tokens.toInt d
    (due → 1 ≤ r.2.n.toInt) ∧ (¬ due → r.2.n = 0) := by
  have hafter : l.locked resource t (l.acquire resource now n token db).1 =
      { l.refill (l.locked resource now db) now with updatedAt := now } := by
    have hadmits := (hl.admits_uncapped hcap hb hn now).2 hempty
    have hkey := admit_resource l (l.locked resource now db) now n 0
    rw [locked_resource] at hkey
    rw [hl.acquire_uncapped hcap hb hn, DBLimiter.locked]
    change ((db.buckets.put _).get? resource).getD _ = _
    rw [Table.get?_put, if_pos hkey, Option.getD_some, hadmits]
  have hplain := hb.refill l now
  generalize l.refill (l.locked resource now db) now = b' at *
  have hplain' : ({ b' with updatedAt := now } : LimiterBucketRow).Plain :=
    ⟨hplain.maxConcurrent, hplain.rate, hplain.burst⟩
  obtain ⟨hsome, hnone⟩ := hl.admits_uncapped hcap hplain' hm t
  have hdue := one_le_refill_iff hl hwrap hplain' hempty hd
  dsimp only
  rw [hl.acquire_uncapped hcap (hafter.symm ▸ hplain') hm, hafter]
  refine ⟨fun h => hsome (hdue.mpr h), fun h => ?_⟩
  have hzero := hnone (not_lt.mp fun hpos => h (hdue.mp hpos))
  exact congrArg Decision.granted hzero

end Denial

/-- With a rate and no concurrency cap, no override and no product that wraps, the wait that a
denied `Acquire` reports is exact if and only if it asked for permits, either the rate divides the
interval and the bucket owes nothing or the burst is one token and takes a nanosecond at least, and
the wait is one that a duration holds. -/
theorem exact_wait_iff {cfg : DBLimiterConfig} (hcfg : newDBLimiter cfg = .ok l)
    (hrate : 0 < cfg.rate) (hcap : cfg.maxConcurrent = 0)
    (hwrap : l.burst.toInt * l.interval.toInt < 2 ^ 63) (hb : (l.locked resource now db).Plain)
    (hdenied : (l.acquire resource now n token db).2.n = 0) :
    l.ExactWait resource now n token db ↔
      0 < n ∧
      (l.rate.toInt ∣ l.interval.toInt ∧
        0 ≤ (l.refill (l.locked resource now db) now).tokens.toInt ∨
        l.burst.toInt = 1 ∧ l.rate.toInt ≤ l.interval.toInt) ∧
      (l.refill (l.locked resource now db) now).refilledAt + l.interval.toInt / l.rate.toInt - now <
        2 ^ 63 := by
  have hl := newDBLimiter_rated hcfg hrate
  have hlcap : l.maxConcurrent = 0 := by
    grind [newDBLimiter]
  by_cases hn : 0 < n
  · obtain ⟨hempty, hwait⟩ := hl.denied hlcap hb hn hdenied
    have hretried := fun (m : Int64) (hm : 0 < m) (token' : String) (t : Time) =>
      hl.retried hlcap hwrap hb hn hempty hm token token' t rfl
    have hends := wait_ends_when_due_iff hl hempty rfl
      fun hmeet => refilledAt_add_pos hl hwrap hb hmeet hempty rfl
    refine Iff.trans ?_ (hends.trans (and_iff_right hn).symm)
    unfold DBLimiter.ExactWait
    dsimp only at hretried ⊢
    rw [hwait]
    refine and_congr_right fun _ => ⟨fun hexact => ?_, fun ⟨hdue, hearly⟩ m token' hm => ?_⟩
    · obtain ⟨hgrant, hnone⟩ := hexact 1 "" (by decide)
      refine ⟨by_contra fun hdue => ?_, fun t ht hdue => ?_⟩
      · rw [(hretried 1 (by decide) "" _).2 hdue, Int64.toInt_zero] at hgrant
        omega
      · have hgrant := (hretried 1 (by decide) "" t).1 hdue
        rw [hnone t ht, Int64.toInt_zero] at hgrant
        omega
    · exact ⟨(hretried m hm token' _).1 hdue, fun t ht => (hretried m hm token' t).2 (hearly t ht)⟩
  · refine iff_of_false (fun h => ?_) fun h => hn h.1
    have hzero : (l.acquire resource now n token db).2.retryAfter = 0 := by
      simp_all [DBLimiter.acquire]
    have hpos := h.1
    simp_all

/-- Two permits a second, and the third denied: the wait of half a second is exact. -/
theorem two_a_second_wait_exactly :
    DBLimiter.ExactWait ⟨2, 1000000000, 2, 0, 0⟩ "api" 0 1 ""
      (DBLimiter.acquire ⟨2, 1000000000, 2, 0, 0⟩ "api" 0 2 "" {}).1 :=
  have hcfg : newDBLimiter { rate := 2, interval := 1000000000 } = .ok ⟨2, 1000000000, 2, 0, 0⟩ :=
    rfl
  (exact_wait_iff hcfg (by decide) rfl (by decide) ⟨rfl, rfl, rfl⟩ (by decide)).mpr (by decide)

/-- Three permits a second, of which two at once: the third is denied with a wait of 333333333
nanoseconds, and an `Acquire` after that wait is denied again. -/
theorem wait_ends_before_the_token :
    newDBLimiter { rate := 3, interval := 1000000000, burst := 2 } =
        .ok ⟨3, 1000000000, 2, 0, 0⟩ ∧
    let l : DBLimiter := ⟨3, 1000000000, 2, 0, 0⟩
    let drained := (l.acquire "api" 0 2 "" {}).1
    let denied := l.acquire "api" 0 1 "" drained
    denied.2.n = 0 ∧ denied.2.retryAfter = 333333333 ∧
      (l.acquire "api" 333333333 1 "" denied.1).2.n = 0 := by
  refine ⟨by decide, by decide, by decide, by decide⟩

end Flywheel
