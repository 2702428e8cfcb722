import Flywheel.Library.Threads
import Flywheel.Types

/-!
# The runner's pool and its dispatch loop

The pool (`runner.go`) lends slots: the loop reserves them before it claims, a job keeps one while
it runs, and `idle` is closed while none is held. The Limiter lends permits: each grant's permits go
back with the jobs that took them, and those that no job took go back at once. The pool's methods
run under its mutex, so that each is one atomic operation; the loop and every job are threads over
them. What the Limiter, the Driver, the queue state and the contexts answer is the input of the
operation that asks.
-/

namespace Flywheel

open Threads

/-! ## The pool -/

/-- `pool`: its size, the slots that it lends, the slots that are held and the dispatches that run.
`idleClosed` is whether the channel `idle` is closed, and `closedTwice` whether a closed one was
closed again, which panics. -/
structure Pool where
  size : ℤ
  limit : ℤ
  held : ℤ := 0
  running : ℤ := 0
  idleClosed : Bool := true
  closedTwice : Bool := false
deriving DecidableEq, Repr

/-- `newPool` -/
def newPool (limit : ℤ) : Pool :=
  let limit := if limit < 1 then 1 else limit
  { size := limit, limit }

namespace Pool

/-- `setLimit` -/
def setLimit (p : Pool) (n : ℤ) : Pool := { p with limit := min (max n 1) p.size }

/-- `admitLocked`: from zero, `idle` is replaced by an open channel. -/
def admitLocked (p : Pool) (n : ℤ) : Pool :=
  { p with idleClosed := if p.held = 0 then false else p.idleClosed, held := p.held + n }

/-- `reserve`, once it finds a free slot; it waits while there is none. -/
def reserve (p : Pool) (want : ℤ) : Option (Pool × ℤ) :=
  let want := if want < 1 then 1 else want
  let free := p.limit - p.held
  if 0 < free then some (p.admitLocked (min want free), min want free) else none

/-- `admit` -/
def admits (p : Pool) (n : ℤ) : Pool := if n ≤ 0 then p else p.admitLocked n

/-- `close(p.idle)` -/
def closeIdle (p : Pool) : Pool :=
  { p with idleClosed := true, closedTwice := p.closedTwice || p.idleClosed }

/-- `release` -/
def release (p : Pool) (n : ℤ) : Pool :=
  if n ≤ 0 then p
  else
    let n := min n p.held
    if n = 0 then p
    else
      let p := { p with held := p.held - n }
      if p.held = 0 then p.closeIdle else p

/-- `start`, as it counts the dispatch. -/
def enter (p : Pool) : Pool := { p with running := p.running + 1 }

/-- The end of a dispatch, as it is counted. -/
def leave (p : Pool) : Pool := { p with running := p.running - 1 }

end Pool

/-! ## The operations -/

/-- `Grant`. `serial` says which answer of the Limiter it is; no code reads it. -/
structure Grant where
  resource : String := ""
  n : ℤ := 0
  retryAfter : Duration := 0
  token : String := ""
  expiresAt : Time := 0
  serial : ℕ := 0
deriving DecidableEq, Inhabited, Repr

/-- The fields of `RunnerConfig` that the loop reads: whether there is a Limiter, and whether it
fails closed. -/
structure RunnerConfig where
  limiter : Bool
  limiterFailClosed : Bool
  resource : String
  claimBatchSize : ℤ
  concurrency : ℤ
  pollInterval : Duration

/-- `claimLimit` -/
def RunnerConfig.claimLimit (cfg : RunnerConfig) : ℤ :=
  if 0 < cfg.claimBatchSize ∧ cfg.claimBatchSize < cfg.concurrency then cfg.claimBatchSize
  else cfg.concurrency

/-- The loop's and the jobs' atomic operations. -/
inductive RunnerOp where
  /-- The queues that are not paused; a refresh puts a cap in force. -/
  | claimable
  /-- `reserveSlots`: a reservation, no slot when the queue state fell due first, or the end of the
  context. -/
  | reserveSlots (want : ℤ)
  /-- Whether Stop was called. -/
  | stopping
  /-- The Limiter's Acquire; none is its error. -/
  | acquire (resource : String) (n : ℤ)
  /-- `pool.release` -/
  | release (n : ℤ)
  /-- `pool.admit` -/
  | admits (n : ℤ)
  /-- The Limiter's Release. -/
  | giveBack (grant : Grant)
  /-- The Driver's Dequeue; none is its error. -/
  | dequeue (queues : List String) (limit : ℤ)
  /-- `pool.start`, of a job with its permit. -/
  | start (raw : RawJob) (permit : Option Grant)
  /-- An attempt from its stub to its end, whether it returns, fails or panics. -/
  | attempt (raw : RawJob)
  /-- The end of a dispatch, as the pool counts it. -/
  | leave

/-- What each operation returns. -/
def RunnerOp.Result : RunnerOp → Type
  | .claimable => List String
  | .reserveSlots _ => Option ℤ
  | .stopping => Bool
  | .acquire .. => Option Grant
  | .dequeue .. => Option (List RawJob)
  | .release _ | .admits _ | .giveBack _ | .start .. | .attempt _ | .leave => Unit

/-- A program of the runner. -/
abbrev RunnerProg (α : Type) : Type := Prog RunnerOp RunnerOp.Result α

namespace Runner

/-! Each operation as a program of its own. -/

@[inherit_doc RunnerOp.claimable]
def claimable : RunnerProg (List String) := .op .claimable .ret

@[inherit_doc RunnerOp.reserveSlots]
def reserveSlots (want : ℤ) : RunnerProg (Option ℤ) := .op (.reserveSlots want) .ret

@[inherit_doc RunnerOp.stopping]
def stopping : RunnerProg Bool := .op .stopping .ret

@[inherit_doc RunnerOp.acquire]
def acquire (resource : String) (n : ℤ) : RunnerProg (Option Grant) :=
    .op (.acquire resource n) .ret

@[inherit_doc RunnerOp.release]
def poolRelease (n : ℤ) : RunnerProg Unit := .op (.release n) .ret

@[inherit_doc RunnerOp.admits]
def poolAdmit (n : ℤ) : RunnerProg Unit := .op (.admits n) .ret

@[inherit_doc RunnerOp.giveBack]
def giveBack (grant : Grant) : RunnerProg Unit := .op (.giveBack grant) .ret

@[inherit_doc RunnerOp.dequeue]
def dequeue (queues : List String) (limit : ℤ) : RunnerProg (Option (List RawJob)) :=
  .op (.dequeue queues limit) .ret

@[inherit_doc RunnerOp.start]
def start (raw : RawJob) (permit : Option Grant) : RunnerProg Unit := .op (.start raw permit) .ret

@[inherit_doc RunnerOp.attempt]
def attempt (raw : RawJob) : RunnerProg Unit := .op (.attempt raw) .ret

@[inherit_doc RunnerOp.leave]
def leave : RunnerProg Unit := .op .leave .ret

end Runner

/-! ## The loop -/

/-- `admitAction` -/
inductive AdmitAction where
  | proceed
  | park
  | pollErr
deriving DecidableEq, Repr

/-- `admission` -/
structure Admission where
  action : AdmitAction
  toClaim : ℤ := 0
  grant : Grant := {}
  wait : Duration := 0

/-- `Runner.admit` -/
def Runner.admits (cfg : RunnerConfig) (reserved : ℤ) : RunnerProg Admission := do
  if !cfg.limiter then return { action := .proceed, toClaim := reserved }
  match ← Runner.acquire cfg.resource reserved with
  | none =>
    if !cfg.limiterFailClosed then return { action := .proceed, toClaim := reserved }
    Runner.poolRelease reserved
    return { action := .pollErr }
  | some g =>
    if g.n ≤ 0 then
      Runner.poolRelease reserved
      return { action := .park, wait := if g.retryAfter ≤ 0 then cfg.pollInterval
        else g.retryAfter }
    let toClaim := min reserved g.n
    if 0 < reserved - toClaim then Runner.poolRelease (reserved - toClaim)
    return { action := .proceed, toClaim, grant := g }

/-- `releasePermits` -/
def Runner.releasePermits (cfg : RunnerConfig) (grant : Grant) (n : ℤ) : RunnerProg Unit := do
  if !cfg.limiter || n ≤ 0 then return
  Runner.giveBack { grant with n, retryAfter := 0 }

/-- The starts of a claimed batch from its job `i` on: a job takes a permit while the grant has
one. -/
def Runner.startAll (grant : Grant) : ℕ → List RawJob → RunnerProg Unit
  | _, [] => return
  | i, raw :: batch => do
    Runner.start raw (if (i : ℤ) < grant.n then some grant else none)
    Runner.startAll grant (i + 1) batch

/-- `claimAndDispatch`; none is its error. -/
def Runner.claimAndDispatch (cfg : RunnerConfig) (queues : List String) (reserved : ℤ)
    (grant : Grant) : RunnerProg (Option ℕ) := do
  if queues = [] then
    Runner.poolRelease reserved
    Runner.releasePermits cfg grant grant.n
    return some 0
  match ← Runner.dequeue queues reserved with
  | none =>
    Runner.poolRelease reserved
    Runner.releasePermits cfg grant grant.n
    return none
  | some [] =>
    Runner.poolRelease reserved
    Runner.releasePermits cfg grant grant.n
    return some 0
  | some batch =>
    if (batch.length : ℤ) < reserved then Runner.poolRelease (reserved - batch.length)
    else if reserved < batch.length then Runner.poolAdmit (batch.length - reserved)
    if 0 < grant.n - batch.length then Runner.releasePermits cfg grant (grant.n - batch.length)
    Runner.startAll grant 0 batch
    return some batch.length

/-- What `start` runs: `dispatch`, whose first deferred call gives the job's permit back, then the
end of the dispatch and its slot. -/
def Runner.runJob (cfg : RunnerConfig) (raw : RawJob) (permit : Option Grant) :
    RunnerProg Unit := do
  Runner.attempt raw
  permit.elim (pure ()) fun grant => Runner.releasePermits cfg grant 1
  Runner.leave
  Runner.poolRelease 1

/-- One iteration of `run`, and whether the loop goes on. -/
def Runner.iteration (cfg : RunnerConfig) : RunnerProg Bool := do
  let queues ← Runner.claimable
  if queues = [] then return true
  match ← Runner.reserveSlots cfg.claimLimit with
  | none => return false
  | some reserved =>
    if reserved = 0 then return true
    if ← Runner.stopping then
      Runner.poolRelease reserved
      return false
    let adm ← Runner.admits cfg reserved
    if adm.action = .proceed then let _ ← Runner.claimAndDispatch cfg queues adm.toClaim adm.grant
    return true

/-- `run`, for at most so many iterations: between two of them the loop may also end, on its
context, on a dispatch's error or on the poll ladder. -/
def Runner.run (cfg : RunnerConfig) : ℕ → RunnerProg Unit
  | 0 => return
  | n + 1 => do
    let goOn ← Runner.iteration cfg
    if goOn then Runner.run cfg n

end Flywheel
