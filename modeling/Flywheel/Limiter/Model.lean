import Mathlib.Algebra.BigOperators.Group.List.Basic
import Mathlib.Algebra.Ring.Int.Defs
import Flywheel.Library.Table
import Flywheel.Types

/-!
# The database limiter

`DBLimiter` keeps a bucket of tokens and the holds of its grants in two tables, shared by every
process. `Acquire` is one transaction under the lock of the resource's bucket row: it refills the
bucket, reclaims the expired holds, counts the others, and grants what the ask, the tokens and the
headroom allow. Its arithmetic is that of Go's 64-bit integers, which wrap; instants are
nanoseconds, without a bound, as SQLite keeps them. Whether a hold has expired is the database's own
comparison.
-/

namespace Flywheel

open Relational

/-! ## Configuration -/

/-- `DBLimiterConfig`, without the cadence of the sweeper. Its durations are nanoseconds. -/
structure DBLimiterConfig where
  rate : Int64 := 0
  interval : Int64 := 0
  burst : Int64 := 0
  maxConcurrent : Int64 := 0
  holdTTL : Int64 := 0
deriving DecidableEq, Inhabited

/-- `DBLimiter` -/
structure DBLimiter where
  rate : Int64
  interval : Int64
  burst : Int64
  maxConcurrent : Int64
  holdTTL : Int64
deriving DecidableEq, Inhabited

/-- `NewDBLimiter` -/
def newDBLimiter (cfg : DBLimiterConfig) : Except String DBLimiter :=
  if cfg.rate < 0 ∨ cfg.burst < 0 ∨ cfg.maxConcurrent < 0 then
    .error "flywheel: NewDBLimiter: rate, burst, and max concurrent must not be negative"
  else if 0 < cfg.rate ∧ cfg.interval ≤ 0 then
    .error "flywheel: NewDBLimiter: a positive Rate requires a positive Interval"
  else if 0 < cfg.maxConcurrent ∧ cfg.holdTTL ≤ 0 then
    .error "flywheel: NewDBLimiter: MaxConcurrent requires a positive HoldTTL"
  else
    .ok { rate := cfg.rate
          interval := cfg.interval
          burst := if 0 < cfg.rate ∧ cfg.burst ≤ 0 then cfg.rate else cfg.burst
          maxConcurrent := cfg.maxConcurrent
          holdTTL := cfg.holdTTL }

/-! ## The tables -/

/-- `limiterBucketRow` -/
structure LimiterBucketRow where
  resource : String
  tokens : Int64
  refilledAt : Time
  updatedAt : Time
  maxConcurrentOverride : Option Int64 := none
  rateOverride : Option Int64 := none
  burstOverride : Option Int64 := none
deriving DecidableEq, Inhabited

/-- `limiterHoldRow` -/
structure LimiterHoldRow where
  token : String
  resource : String
  n : Int64
  expiresAt : Time
deriving DecidableEq, Inhabited

/-- The limiter's tables. -/
structure LimiterDb where
  buckets : Table LimiterBucketRow.resource := Table.empty
  holds : Table LimiterHoldRow.token := Table.empty
  -- `expires_at < ?`, for a clock reading and an expiry
  lapsed : Time → Time → Bool := fun now expiresAt => decide (expiresAt < now)

/-- `Grant`, in machine words. -/
structure DBLimiter.Grant where
  resource : String := ""
  n : Int64 := 0
  retryAfter : Int64 := 0
  token : String := ""
  expiresAt : Time := zeroTime
deriving DecidableEq, Inhabited

/-! ## Caps and refill -/

/-- `limiterCaps` -/
structure LimiterCaps where
  rate : Int64
  burst : Int64
  maxConcurrent : Int64
deriving DecidableEq, Inhabited

/-- `DBLimiter.readsBucket` -/
def DBLimiter.readsBucket (l : DBLimiter) : Bool :=
  decide (0 < l.rate ∨ 0 < l.maxConcurrent ∨ 0 < l.interval ∨ 0 < l.holdTTL)

/-- `DBLimiter.capsFor` -/
def DBLimiter.capsFor (l : DBLimiter) (b : LimiterBucketRow) : LimiterCaps :=
  let rate := if 0 < l.interval then b.rateOverride.getD l.rate else l.rate
  { rate
    maxConcurrent :=
      if 0 < l.holdTTL then b.maxConcurrentOverride.getD l.maxConcurrent else l.maxConcurrent
    burst := b.burstOverride.getD (if l.burst ≤ 0 then rate else l.burst) }

/-- `Time.Sub`, which saturates at the ends of a `time.Duration`. -/
def timeSub (t u : Time) : Int64 := Int64.ofInt (max (-2 ^ 63) (min (2 ^ 63 - 1) (t - u)))

/-- `DBLimiter.refill` -/
def DBLimiter.refill (l : DBLimiter) (b : LimiterBucketRow) (now : Time) : LimiterBucketRow :=
  let c := l.capsFor b
  let elapsed := timeSub now b.refilledAt
  if c.rate ≤ 0 then b
  else if elapsed ≤ 0 then b
  -- the time that fills the bucket from empty
  else if c.burst * l.interval / c.rate ≤ elapsed then
    { b with tokens := c.burst, refilledAt := now }
  else
    let add := elapsed * c.rate / l.interval
    if add ≤ 0 then b
    else
      let tokens := min c.burst (b.tokens + add)
      if c.burst ≤ tokens then { b with tokens, refilledAt := now }
      else { b with tokens, refilledAt := b.refilledAt + (add * l.interval / c.rate).toInt }

/-- `DBLimiter.retryAfter` -/
def DBLimiter.retryAfter (l : DBLimiter) (tokens : Int64) (now refilledAt : Time)
    (c : LimiterCaps) : Int64 :=
  if c.rate ≤ 0 ∨ 1 ≤ tokens then 0
  else
    let wait := timeSub (refilledAt + (l.interval / c.rate).toInt) now
    if 0 < wait then wait else 0

/-- The least of the ask, the tokens and the headroom, and not below zero. -/
def LimiterCaps.granted (c : LimiterCaps) (n tokens held : Int64) : Int64 :=
  let g := if 0 < c.rate ∧ tokens < n then tokens else n
  let g := if 0 < c.maxConcurrent ∧ c.maxConcurrent - held < g then c.maxConcurrent - held else g
  if g < 0 then 0 else g

/-! ## Acquire -/

/-- The row that `Acquire` seeds. -/
def DBLimiter.seed (l : DBLimiter) (resource : String) (now : Time) : LimiterBucketRow :=
  { resource, tokens := l.burst, refilledAt := now, updatedAt := now }

/-- The bucket row that `Acquire` locks: the stored one, or the one that it has just seeded. -/
def DBLimiter.locked (l : DBLimiter) (resource : String) (now : Time) (db : LimiterDb) :
    LimiterBucketRow :=
  (db.buckets.get? resource).getD (l.seed resource now)

/-- A hold that the reclaim of `resource` deletes. -/
def LimiterHoldRow.reclaimed (resource : String) (lapsed : Time → Bool) (h : LimiterHoldRow) :
    Bool :=
  decide (h.resource = resource) && lapsed h.expiresAt

/-- The permits that the resource's holds carry. -/
def heldOf (resource : String) (holds : Table LimiterHoldRow.token) : ℤ :=
  ((holds.rows.filter fun h => decide (h.resource = resource)).map fun h => h.n.toInt).sum

/-- The count of `Acquire`: over the holds that the reclaim leaves. -/
def countHeld (resource : String) (lapsed : Time → Bool) (holds : Table LimiterHoldRow.token) : ℤ :=
  heldOf resource (holds.delete (LimiterHoldRow.reclaimed resource lapsed))

/-- What `Acquire` decides under the lock, once it has counted the holds. -/
structure Decision where
  -- the bucket row that it writes back
  bucket : LimiterBucketRow
  granted : Int64
  retryAfter : Int64

/-- The refill, the clamp to the burst in force, and the grant, with a cap in force. -/
def DBLimiter.admits (l : DBLimiter) (b : LimiterBucketRow) (now : Time) (n held : Int64) :
    Decision :=
  let c := l.capsFor b
  let b := l.refill b now
  let b := if 0 < c.rate ∧ c.burst < b.tokens then { b with tokens := c.burst } else b
  let granted := c.granted n b.tokens held
  let b := { b with
    tokens := if 0 < c.rate then b.tokens - granted else b.tokens
    updatedAt := now }
  { bucket := b, granted
    retryAfter := if granted < n then l.retryAfter b.tokens now b.refilledAt c else 0 }

/-- The hold that records a grant under a concurrency cap. -/
def DBLimiter.hold? (l : DBLimiter) (d : Decision) (now : Time) (capped : Bool) (token : String) :
    Option LimiterHoldRow :=
  if capped && decide (d.granted ≠ 0) then
    some { token, resource := d.bucket.resource, n := d.granted
           expiresAt := now + l.holdTTL.toInt }
  else none

/-- The grant that `Acquire` returns, under the token of its hold. -/
def Decision.grant (d : Decision) (hold : Option LimiterHoldRow) : DBLimiter.Grant :=
  { resource := d.bucket.resource, n := d.granted, retryAfter := d.retryAfter
    token := (hold.map LimiterHoldRow.token).getD ""
    expiresAt := (hold.map LimiterHoldRow.expiresAt).getD zeroTime }

/-- The tables after a decision: the bucket written back, the expired holds of a capped resource
reclaimed, and the grant's hold recorded. -/
def LimiterDb.settled (db : LimiterDb) (d : Decision) (now : Time) (capped : Bool)
    (hold : Option LimiterHoldRow) : LimiterDb :=
  let holds :=
    if capped then db.holds.delete (LimiterHoldRow.reclaimed d.bucket.resource (db.lapsed now))
    else db.holds
  { db with
    buckets := db.buckets.put d.bucket
    holds := hold.elim holds holds.put }

/-- `DBLimiter.Acquire`, as one transaction that nothing comes between. -/
def DBLimiter.acquire (l : DBLimiter) (resource : String) (now : Time) (n : Int64) (token : String)
    (db : LimiterDb) : LimiterDb × DBLimiter.Grant :=
  if n ≤ 0 then (db, { resource })
  else if l.readsBucket = false then (db, { resource, n })
  else
    let b := l.locked resource now db
    let c := l.capsFor b
    if c.rate ≤ 0 ∧ c.maxConcurrent ≤ 0 then
      ({ db with buckets := db.buckets.put b }, { resource, n })
    else
      let capped := decide (0 < c.maxConcurrent)
      let held := if capped then Int64.ofInt (countHeld resource (db.lapsed now) db.holds) else 0
      let d := l.admits b now n held
      let hold := l.hold? d now capped token
      (db.settled d now capped hold, d.grant hold)

end Flywheel
