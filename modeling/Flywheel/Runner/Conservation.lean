import Mathlib.Algebra.BigOperators.Pi
import Flywheel.Runner.Pool

/-!
# Slots and permits are conserved

Every thread's share of the slots and of each grant's permits is accounted for (`Accounts`),
whatever the Limiter and the Driver answer and in whatever order the jobs end. The loop owns what it
reserved until it hands it to a job, to the pool or to the Limiter; a job owns one slot while it
runs, and one permit if the grant reached it. When every thread has ended nothing is owned, so that
the pool is empty and every permit has gone back.
-/

namespace Flywheel

open Threads

/-! ## The machine -/

/-- What the threads share: the pool, the grants that the Limiter made and the permits given back to
it, in order. -/
structure RunnerState where
  pool : Pool
  granted : List Grant := []
  returned : List Grant := []

/-- What an operation is answered. -/
inductive RunnerInput where
  /-- The operation goes on. -/
  | go
  /-- The queues that are not paused, and the cap of a refresh. -/
  | queues (names : List String) (cap : Option ℤ)
  /-- A wait ends without a slot, for the refresh or for good. -/
  | refreshDue
  | cancelled
  | stopping (flag : Bool)
  | grant (answer : Option Grant)
  | batch (answer : Option (List RawJob))

/-- What a thread is. -/
inductive RunnerThread where
  | loop
  | job (raw : RawJob)

/-- The runner's machine. -/
@[simp]
def runnerMachine (cfg : RunnerConfig) :
    Machine RunnerState RunnerInput RunnerThread RunnerOp RunnerOp.Result
  | .claimable, .queues names cap, s =>
    some ({ s with pool := cap.elim s.pool s.pool.setLimit }, names, [])
  | .reserveSlots want, .go, s =>
    (s.pool.reserve want).map fun (pool, n) => ({ s with pool }, some n, [])
  | .reserveSlots _, .refreshDue, s => some (s, some 0, [])
  | .reserveSlots _, .cancelled, s => some (s, none, [])
  | .stopping, .stopping flag, s => some (s, flag, [])
  | .acquire _ _, .grant none, s => some (s, none, [])
  | .acquire _ _, .grant (some g), s =>
    let g := { g with serial := s.granted.length }
    some ({ s with granted := s.granted ++ [g] }, some g, [])
  | .release n, .go, s => some ({ s with pool := s.pool.release n }, (), [])
  | .admits n, .go, s => some ({ s with pool := s.pool.admits n }, (), [])
  | .giveBack grant, .go, s => some ({ s with returned := s.returned ++ [grant] }, (), [])
  | .dequeue _ _, .batch answer, s => some (s, answer, [])
  | .start raw permit, .go, s =>
    some ({ s with pool := s.pool.enter }, (), [⟨.job raw, Runner.runJob cfg raw permit⟩])
  | .attempt _, .go, s => some (s, (), [])
  | .leave, .go, s => some ({ s with pool := s.pool.leave }, (), [])
  | _, _, _ => none

/-- The permits that a grant lends. -/
def RunnerState.grantedBy (s : RunnerState) (serial : ℕ) : ℤ :=
  ((s.granted[serial]?).map fun g => max g.n 0).getD 0

/-- The permits of a grant that have gone back. -/
def RunnerState.returnedTo (s : RunnerState) (serial : ℕ) : ℤ :=
  ((s.returned.filter fun g => decide (g.serial = serial)).map Grant.n).sum

/-! ## The accounts -/

/-- A share: slots, dispatches that count as running, and permits by grant. -/
abbrev Share : Type := ℕ × ℕ × (ℕ → ℕ)

/-- The state and what the threads hold together add up. -/
structure Accounts (s : RunnerState) (r : Share) : Prop where
  held : s.pool.held = r.1
  running : s.pool.running = r.2.1
  idle : s.pool.idleClosed = decide (s.pool.held = 0)
  once : s.pool.closedTwice = false
  permits : ∀ serial, s.returnedTo serial + r.2.2 serial = s.grantedBy serial

/-- The permits of a grant, as a share. -/
def Grant.owed (g : Grant) (n : ℕ) : ℕ → ℕ := Pi.single g.serial n

/-- A job holds a slot as long as it runs, and counts once; the loop does not count. -/
def RunnerThread.Need : RunnerThread → Share → Prop
  | .loop, r => r.2.1 = 0
  | .job _, r => 1 ≤ r.1 ∧ r.2.1 ≤ 1

/-- A job starts with its slot, and with a permit if the grant reached it. -/
def JobShare (cfg : RunnerConfig) (t : Thread RunnerThread RunnerOp RunnerOp.Result) (r : Share) :
    Prop :=
  ∃ raw permit, t = ⟨.job raw, Runner.runJob cfg raw permit⟩ ∧
    (∀ g, permit = some g → cfg.limiter = true) ∧
    r = (1, 1, permit.elim 0 fun g => g.owed 1)

/-! ## The pool's methods -/

variable {p : Pool} {n : ℤ} {cfg : RunnerConfig} {want : ℤ}

theorem Pool.admitLocked_idle (hn : 0 < n) (hheld : 0 ≤ p.held)
    (hidle : p.idleClosed = decide (p.held = 0)) :
    (p.admitLocked n).idleClosed = decide ((p.admitLocked n).held = 0) := by
  have hpos : ¬ p.held + n = 0 := by omega
  simp_all [Pool.admitLocked]

/-- `release` gives back what is held: the slots go, and `idle` is closed with the last one, which
was open until then. -/
theorem Pool.release_spec (hn : 0 ≤ n) (hle : n ≤ p.held)
    (hidle : p.idleClosed = decide (p.held = 0)) (honce : p.closedTwice = false) :
    (p.release n).held = p.held - n ∧ (p.release n).running = p.running ∧
      (p.release n).idleClosed = decide (p.held - n = 0) ∧ (p.release n).closedTwice = false := by
  unfold Pool.release
  by_cases hzero : n ≤ 0
  · grind
  · have hmin : min n p.held = n := min_eq_left hle
    have hne : ¬ n = 0 := by omega
    have hopen : p.idleClosed = false := by
      grind
    rw [if_neg hzero]
    simp only [hmin, hne, if_false]
    by_cases hlast : p.held - n = 0
    · simp [hlast, Pool.closeIdle, honce, hopen]
    · simp [hlast, honce, hopen]

theorem Pool.reserve_spec {p' : Pool} (h : p.reserve want = some (p', n)) :
    0 < n ∧ p' = p.admitLocked n ∧ p'.held ≤ p'.limit := by
  unfold Pool.reserve at h
  split_ifs at h
  · grind [Pool.admitLocked]
  · grind [Pool.admitLocked]

/-! ## The rules of the operations -/

section Rules

variable {cfg : RunnerConfig} {need : Share → Prop} {α : Type} {Q : α → Share → Prop}
  {slots running : ℕ} {permits : ℕ → ℕ}

/-- The program keeps the accounts from its share on. -/
abbrev Keeps (cfg : RunnerConfig) (need : Share → Prop) {α : Type} (p : RunnerProg α) (r : Share)
    (Q : α → Share → Prop) : Prop :=
  Owns (runnerMachine cfg) Accounts (JobShare cfg) need p r Q

variable {g : Grant} {r : Share} {next : Unit → RunnerProg α} {n : ℤ} {raw : RawJob} {all : ℕ}

/-- An operation that changes neither the pool's slots nor the permits. -/
theorem keeps_of_same {o : RunnerOp} {next : o.Result → RunnerProg α} (hneed : need r)
    (hsame : ∀ input s s' a children, runnerMachine cfg o input s = some (s', a, children) →
      children = [] ∧ (∀ r, Accounts s r → Accounts s' r)) (h : ∀ a, Keeps cfg need (next a) r Q) :
    Keeps cfg need (.op o next) r Q := by
  refine Owns.op hneed fun rest input s s' a children hinv hact => ?_
  grind

theorem keeps_claimable {next : List String → RunnerProg α} (hneed : need r)
    (h : ∀ queues, Keeps cfg need (next queues) r Q) :
    Keeps cfg need (.op .claimable next) r Q := by
  refine keeps_of_same hneed (fun input s s' a children hact => ?_) h
  cases input with
  | queues names cap =>
    obtain ⟨rfl, rfl, rfl⟩ := hact
    refine ⟨rfl, fun r hr => ?_⟩
    cases cap with
    | none => exact hr
    | some n => exact ⟨hr.held, hr.running, hr.idle, hr.once, hr.permits⟩
  | _ => cases hact

theorem keeps_stopping {next : Bool → RunnerProg α} (hneed : need r)
    (h : ∀ flag, Keeps cfg need (next flag) r Q) : Keeps cfg need (.op .stopping next) r Q := by
  refine keeps_of_same hneed (fun input s s' a children hact => ?_) h
  cases input with
  | stopping flag => grind [runnerMachine]
  | _ => cases hact

theorem keeps_dequeue {queues : List String} {limit : ℤ}
    {next : Option (List RawJob) → RunnerProg α} (hneed : need r)
    (h : ∀ answer, Keeps cfg need (next answer) r Q) :
    Keeps cfg need (.op (.dequeue queues limit) next) r Q := by
  refine keeps_of_same hneed (fun input s s' a children hact => ?_) h
  cases input with
  | batch answer => grind [runnerMachine]
  | _ => cases hact

theorem keeps_attempt (hneed : need r) (h : Keeps cfg need (next ()) r Q) :
    Keeps cfg need (.op (.attempt raw) next) r Q := by
  refine keeps_of_same hneed (fun input s s' a children hact => ?_) fun _ => h
  cases input with
  | go => grind [runnerMachine]
  | _ => cases hact

/-- A reservation adds its slots to the share. -/
theorem keeps_reserveSlots (slots : ℕ) {next : Option ℤ → RunnerProg α}
    (hneed : need (slots, running, permits))
      (hnone : Keeps cfg need (next none) (slots, running, permits) Q)
    (hzero : Keeps cfg need (next (some 0)) (slots, running, permits) Q)
    (hsome : ∀ n : ℕ, 0 < n → Keeps cfg need (next (some n)) (n + slots, running, permits) Q) :
    Keeps cfg need (.op (.reserveSlots want) next) (slots, running, permits) Q := by
  refine Owns.op hneed fun rest input s s' a children hinv hact => ?_
  cases input with
  | refreshDue => grind [runnerMachine]
  | cancelled => grind [runnerMachine]
  | go =>
    simp only [runnerMachine, Option.map_eq_some_iff, Prod.exists, Prod.mk.injEq] at hact
    obtain ⟨pool, n, hreserve, rfl, rfl, rfl⟩ := hact
    obtain ⟨hn, rfl, -⟩ := Pool.reserve_spec hreserve
    obtain ⟨k, rfl⟩ := Int.eq_ofNat_of_zero_le hn.le
    have hheld := hinv.held
    refine ⟨rfl, (k + slots, running, permits), ?_, hsome k (by omega)⟩
    refine ⟨?_, hinv.running, Pool.admitLocked_idle hn (by omega) hinv.idle, hinv.once,
      hinv.permits⟩
    grind [Pool.admitLocked, Prod.fst_add]
  | _ => cases hact

theorem keeps_release (slots : ℕ) (hn : 0 ≤ n) (hall : (all : ℤ) = n + slots)
    (hneed : need (all, running, permits))
    (h : Keeps cfg need (next ()) (slots, running, permits) Q) :
    Keeps cfg need (.op (.release n) next) (all, running, permits) Q := by
  refine Owns.op hneed fun rest input s s' a children hinv hact => ?_
  cases input with
  | go =>
    obtain ⟨rfl, rfl, rfl⟩ := hact
    have hheld := hinv.held
    simp only [Prod.fst_add] at hheld
    obtain ⟨hheld', hrunning', hidle', honce'⟩ :=
      Pool.release_spec hn (show n ≤ s.pool.held by omega) hinv.idle hinv.once
    refine ⟨rfl, (slots, running, permits), ?_, h⟩
    refine ⟨?_, hrunning'.trans hinv.running, ?_, honce', hinv.permits⟩
    · grind [Prod.fst_add]
    · rw [hidle', hheld']
  | _ => cases hact

theorem keeps_admit (hn : 0 < n) (hall : (all : ℤ) = n + slots)
    (hneed : need (slots, running, permits))
    (h : Keeps cfg need (next ()) (all, running, permits) Q) :
    Keeps cfg need (.op (.admits n) next) (slots, running, permits) Q := by
  refine Owns.op hneed fun rest input s s' a children hinv hact => ?_
  cases input with
  | go =>
    obtain ⟨rfl, rfl, rfl⟩ := hact
    have hheld := hinv.held
    have hadmits : s.pool.admits n = s.pool.admitLocked n := if_neg (by omega)
    refine ⟨rfl, (all, running, permits), ?_, h⟩
    refine ⟨?_, ?_, ?_, ?_, hinv.permits⟩
    · grind [Pool.admitLocked, Prod.fst_add]
    · rw [hadmits]
      exact hinv.running
    · rw [hadmits]
      exact Pool.admitLocked_idle hn (by omega) hinv.idle
    · rw [hadmits]
      exact hinv.once
  | _ => cases hact

theorem keeps_leave (hneed : need (slots, running + 1, permits))
    (h : Keeps cfg need (next ()) (slots, running, permits) Q) :
    Keeps cfg need (.op .leave next) (slots, running + 1, permits) Q := by
  refine Owns.op hneed fun rest input s s' a children hinv hact => ?_
  cases input with
  | go =>
    obtain ⟨rfl, rfl, rfl⟩ := hact
    have hrunning := hinv.running
    refine ⟨rfl, (slots, running, permits), ⟨hinv.held, ?_, hinv.idle, hinv.once, hinv.permits⟩, h⟩
    grind [Pool.leave, Prod.snd_add, Prod.fst_add]
  | _ => cases hact

/-- A grant adds its permits to the share. -/
theorem keeps_acquire {resource : String} {next : Option Grant → RunnerProg α}
    (hneed : need (slots, running, permits))
    (hnone : Keeps cfg need (next none) (slots, running, permits) Q)
    (hsome : ∀ g : Grant, Keeps cfg need (next (some g)) (slots, running, g.owed g.n.toNat +
      permits) Q) :
    Keeps cfg need (.op (.acquire resource n) next) (slots, running, permits) Q := by
  refine Owns.op hneed fun rest input s s' a children hinv hact => ?_
  cases input with
  | grant answer =>
    cases answer with
    | none => grind [runnerMachine]
    | some g =>
      obtain ⟨rfl, rfl, rfl⟩ := hact
      refine ⟨rfl, (slots, running, Grant.owed { g with serial := s.granted.length } g.n.toNat +
        permits), ⟨hinv.held, hinv.running, hinv.idle, hinv.once, fun serial => ?_⟩, hsome _⟩
      have hbefore := hinv.permits serial
      simp only [RunnerState.returnedTo, RunnerState.grantedBy, Prod.snd_add, Pi.add_apply,
        Grant.owed] at hbefore ⊢
      by_cases hserial : serial = s.granted.length
      · -- the grant is new, so that nothing of it was held or given back
        grind
      · have hold : (s.granted ++ [{ g with serial := s.granted.length }])[serial]? =
            s.granted[serial]? := by
          grind
        simp_all
  | _ => cases hact

theorem keeps_giveBack {n : ℕ} (hn : g.n = n) (hneed : need (slots, running, g.owed n + permits))
    (h : Keeps cfg need (next ()) (slots, running, permits) Q) :
    Keeps cfg need (.op (.giveBack g) next) (slots, running, g.owed n + permits) Q := by
  refine Owns.op hneed fun rest input s s' a children hinv hact => ?_
  cases input with
  | go =>
    obtain ⟨rfl, rfl, rfl⟩ := hact
    refine ⟨rfl, (slots, running, permits),
      ⟨hinv.held, hinv.running, hinv.idle, hinv.once, fun serial => ?_⟩, h⟩
    have hbefore := hinv.permits serial
    simp only [RunnerState.returnedTo, RunnerState.grantedBy, Prod.snd_add, Pi.add_apply,
      Grant.owed, List.filter_append, List.map_append, List.sum_append] at hbefore ⊢
    by_cases hserial : serial = g.serial
    · grind
    · grind
  | _ => cases hact

/-- A job that the pool starts takes a slot and its permit from the share. -/
theorem keeps_start (permit : Option Grant) (hlimiter : ∀ g, permit = some g → cfg.limiter = true)
    (hneed : need (slots + 1, running, (permit.elim 0 fun g => g.owed 1) + permits))
    (h : Keeps cfg need (next ()) (slots, running, permits) Q) :
    Keeps cfg need (.op (.start raw permit) next)
      (slots + 1, running, (permit.elim 0 fun g => g.owed 1) + permits) Q := by
  refine ⟨hneed, fun rest input s s' a children hinv hact => ?_⟩
  cases input with
  | go =>
    obtain ⟨rfl, rfl, rfl⟩ := hact
    refine ⟨(slots, running, permits), [(1, 1, permit.elim 0 fun g => g.owed 1)],
      .cons ⟨raw, permit, rfl, hlimiter, rfl⟩ .nil, ?_, h⟩
    have hheld := hinv.held
    have hrunning := hinv.running
    refine ⟨?_, ?_, hinv.idle, hinv.once, fun serial => ?_⟩
    · simp_all [Pool.enter]
    · grind [Pool.enter, Prod.fst_add, Prod.snd_add]
    · have hbefore := hinv.permits serial
      simp only [List.sum_singleton, Prod.snd_add, Pi.add_apply] at hbefore ⊢
      change s.returnedTo serial + _ = s.grantedBy serial
      omega
  | _ => cases hact

/-! ## The programs -/

theorem loop_need (slots : ℕ) (permits : ℕ → ℕ) : RunnerThread.Need .loop (slots, 0, permits) := rfl

theorem Grant.owed_zero (g : Grant) : g.owed 0 = 0 := Pi.single_zero _

theorem Grant.owed_add (g : Grant) (m n : ℕ) : g.owed (m + n) = g.owed m + g.owed n :=
  Pi.single_add _ _ _

theorem keeps_releasePermits (hlimiter : 0 < n → cfg.limiter = true)
    (hneed : need (slots, running, g.owed n.toNat + permits)) :
    Keeps cfg need (Runner.releasePermits cfg g n) (slots, running, g.owed n.toNat + permits)
      fun _ r => r = (slots, running, permits) := by
  unfold Runner.releasePermits
  by_cases hn : n ≤ 0
  · rw [if_pos (by simp [hn]), Int.toNat_of_nonpos hn, Grant.owed_zero, zero_add]
    rfl
  · have hlim := hlimiter (by omega)
    rw [if_neg (by simp [hn, hlim])]
    have hback : ({ g with n, retryAfter := 0 } : Grant).n = n.toNat := by
      grind
    exact keeps_giveBack hback hneed rfl

theorem keeps_runJob (raw : RawJob) {permit : Option Grant}
    (hlimiter : ∀ g, permit = some g → cfg.limiter = true) :
    Keeps cfg (RunnerThread.Need (.job raw)) (Runner.runJob cfg raw permit)
      (1, 1, permit.elim 0 fun g => g.owed 1) fun _ r => r = 0 := by
  have hlast : Keeps cfg (RunnerThread.Need (.job raw))
      (do Runner.leave; Runner.poolRelease 1) (1, 1, 0) fun _ r => r = 0 := by
    refine keeps_leave ⟨Nat.le_refl 1, Nat.le_refl 1⟩ ?_
    exact keeps_release 0 (by omega) (by simp) ⟨Nat.le_refl 1, Nat.zero_le 1⟩ rfl
  unfold Runner.runJob
  refine keeps_attempt ⟨Nat.le_refl 1, Nat.le_refl 1⟩ ?_
  cases permit with
  | none => exact hlast
  | some g =>
    have hback : Keeps cfg (RunnerThread.Need (.job raw)) (Runner.releasePermits cfg g 1)
        (1, 1, g.owed 1 + 0) fun _ r => r = (1, 1, 0) :=
      keeps_releasePermits (fun _ => hlimiter g rfl) ⟨Nat.le_refl 1, Nat.le_refl 1⟩
    exact hback.bind fun _ _ hr => hr ▸ hlast

theorem JobShare.holds (t : Thread RunnerThread RunnerOp RunnerOp.Result) (r : Share)
    (h : JobShare cfg t r) :
    Holds (runnerMachine cfg) Accounts RunnerThread.Need (JobShare cfg) t r := by
  obtain ⟨raw, permit, rfl, hlimiter, rfl⟩ := h
  exact keeps_runJob raw hlimiter

section

variable (hlimiter : 0 < g.n → cfg.limiter = true)

include hlimiter

/-- The jobs of a batch take the slots and the permits that are kept for them. -/
theorem keeps_startAll (batch : List RawJob) (i : ℕ) :
    Keeps cfg (RunnerThread.Need .loop) (Runner.startAll g i batch)
      (batch.length, 0, g.owed (min batch.length (g.n - i).toNat)) fun _ r => r = 0 := by
  induction batch generalizing i with
  | nil =>
    simp only [List.length_nil, Nat.zero_min, Grant.owed_zero]
    rfl
  | cons raw batch ih =>
    rw [List.length_cons]
    by_cases hi : (i : ℤ) < g.n
    · have hsplit : min (batch.length + 1) (g.n - i).toNat =
          1 + min batch.length (g.n - (i + 1 : ℕ)).toNat := by omega
      rw [hsplit, Grant.owed_add]
      unfold Runner.startAll
      rw [if_pos hi]
      exact keeps_start (some g) (fun _ _ => hlimiter (by omega)) rfl (ih (i + 1))
    · have hnone : min (batch.length + 1) (g.n - i).toNat = 0 := by omega
      have hrest : min batch.length (g.n - (i + 1 : ℕ)).toNat = 0 := by omega
      have hnext := ih (i + 1)
      rw [hrest] at hnext
      rw [hnone]
      unfold Runner.startAll
      rw [if_neg hi, ← zero_add (g.owed 0)]
      exact keeps_start none (nofun) rfl hnext

theorem keeps_giveUp (c : ℕ) (n : Option ℕ) : Keeps cfg (RunnerThread.Need .loop)
      (do Runner.poolRelease c; Runner.releasePermits cfg g g.n; return n)
      (c, 0, g.owed g.n.toNat) fun _ r => r = 0 := by
  refine keeps_release 0 (by omega) (by simp) rfl ?_
  rw [← add_zero (g.owed g.n.toNat)]
  exact (keeps_releasePermits hlimiter (loop_need _ _)).bind fun _ _ hr => hr

theorem keeps_startBatch (batch : List RawJob) : Keeps cfg (RunnerThread.Need .loop) (do
        if 0 < g.n - batch.length then Runner.releasePermits cfg g (g.n - batch.length)
        Runner.startAll g 0 batch
        return some batch.length)
      (batch.length, 0, g.owed g.n.toNat) fun _ r => r = 0 := by
  have hstart := (keeps_startAll hlimiter batch 0).bind (P := fun (_ : Option ℕ) r => r = 0)
    (f := fun _ => return some batch.length) fun _ _ hr => hr
  by_cases hunused : 0 < g.n - batch.length
  · have hsplit : g.n.toNat = (g.n - batch.length).toNat + min batch.length
      (g.n - (0 : ℕ)).toNat := by
      omega
    rw [if_pos hunused, hsplit, Grant.owed_add]
    exact (keeps_releasePermits (fun _ => hlimiter (by omega)) (loop_need _ _)).bind
      fun _ _ hr => hr ▸ hstart
  · grind

/-- `claimAndDispatch` hands on every slot and every permit. -/
theorem keeps_claimAndDispatch (queues : List String) (c : ℕ) :
    Keeps cfg (RunnerThread.Need .loop) (Runner.claimAndDispatch cfg queues c g)
      (c, 0, g.owed g.n.toNat) fun _ r => r = 0 := by
  unfold Runner.claimAndDispatch
  by_cases hqueues : queues = []
  · rw [if_pos hqueues]
    exact keeps_giveUp hlimiter c (some 0)
  · rw [if_neg hqueues]
    refine keeps_dequeue rfl fun answer => ?_
    match answer with
    | none => exact keeps_giveUp hlimiter c none
    | some [] => exact keeps_giveUp hlimiter c (some 0)
    | some (raw :: rest) =>
      change Keeps cfg _ (if ((raw :: rest).length : ℤ) < c then _
        else if (c : ℤ) < (raw :: rest).length then _ else _) _ _
      generalize raw :: rest = batch
      have hbatch := keeps_startBatch hlimiter batch
      by_cases hshort : (batch.length : ℤ) < c
      · rw [if_pos hshort]
        exact keeps_release _ (by omega) (by omega) rfl hbatch
      · rw [if_neg hshort]
        by_cases hmore : (c : ℤ) < batch.length
        · rw [if_pos hmore]
          exact keeps_admit (by omega) (by omega) rfl hbatch
        · grind

end

/-- `admit` gives back the slots that it does not use: all of them, or those that the grant does not
cover. -/
theorem keeps_admission {k : ℕ} :
    Keeps cfg (RunnerThread.Need .loop) (Runner.admits cfg k) (k, 0, 0) fun adm r =>
      (adm.action = .proceed ∧ (0 < adm.grant.n → cfg.limiter = true) ∧
        ∃ c : ℕ, adm.toClaim = c ∧ r = (c, 0, adm.grant.owed adm.grant.n.toNat)) ∨
      (adm.action ≠ .proceed ∧ r = 0) := by
  have hzero : ({} : Grant).owed ({} : Grant).n.toNat = 0 := Grant.owed_zero _
  unfold Runner.admits
  by_cases hlimiter : cfg.limiter = true
  · rw [if_neg (by simp [hlimiter])]
    refine keeps_acquire rfl ?_ fun g => ?_
    · by_cases hclosed : cfg.limiterFailClosed = true
      · rw [if_neg (by simp [hclosed])]
        refine keeps_release 0 (by omega) (by simp) rfl ?_
        exact .inr ⟨by simp, rfl⟩
      · rw [if_pos (by simpa using hclosed)]
        exact .inl ⟨rfl, fun h => absurd h (lt_irrefl _), k, rfl, by rw [hzero]⟩
    · change Keeps cfg _ (if g.n ≤ 0 then _ else _) _ _
      by_cases hdenied : g.n ≤ 0
      · rw [if_pos hdenied, Int.toNat_of_nonpos hdenied, Grant.owed_zero]
        refine keeps_release 0 (by omega) (by simp) rfl ?_
        exact .inr ⟨by simp, rfl⟩
      · rw [if_neg hdenied]
        obtain ⟨c, hc⟩ : ∃ c : ℕ, min (k : ℤ) g.n = c := ⟨(min (k : ℤ) g.n).toNat, by omega⟩
        have hproceed : Keeps cfg (RunnerThread.Need .loop)
            (return { action := .proceed, toClaim := min (k : ℤ) g.n, grant := g })
            (c, 0, g.owed g.n.toNat) fun (adm : Admission) r =>
              (adm.action = .proceed ∧ (0 < adm.grant.n → cfg.limiter = true) ∧
                ∃ c : ℕ, adm.toClaim = c ∧ r = (c, 0, adm.grant.owed adm.grant.n.toNat)) ∨
              (adm.action ≠ .proceed ∧ r = 0) :=
          .inl ⟨rfl, fun _ => hlimiter, c, hc, rfl⟩
        by_cases hsurplus : 0 < (k : ℤ) - min (k : ℤ) g.n
        · rw [if_pos hsurplus]
          exact keeps_release _ (by omega) (by omega) rfl hproceed
        · obtain rfl : k = c := by omega
          rw [if_neg hsurplus]
          exact hproceed
  · rw [if_pos (by simpa using hlimiter)]
    exact .inl ⟨rfl, fun h => absurd h (lt_irrefl _), k, rfl, by rw [hzero]⟩

/-- An iteration of the loop hands on everything that it takes. -/
theorem keeps_iteration :
    Keeps cfg (RunnerThread.Need .loop) (Runner.iteration cfg) 0 fun _ r => r = 0 := by
  unfold Runner.iteration
  refine keeps_claimable rfl fun queues => ?_
  change Keeps cfg _ (if queues = [] then _ else _) _ _
  by_cases hqueues : queues = []
  · rw [if_pos hqueues]
    rfl
  · rw [if_neg hqueues]
    refine keeps_reserveSlots 0 rfl rfl ?_ fun n hn => ?_
    · rfl
    · have hne : ¬ (n : ℤ) = 0 := by omega
      change Keeps cfg _ (if (n : ℤ) = 0 then _ else _) _ _
      rw [if_neg hne, add_zero]
      refine keeps_stopping rfl fun flag => ?_
      cases flag with
      | true => exact keeps_release 0 (by omega) (by simp) rfl rfl
      | false =>
        refine keeps_admission.bind ?_
        rintro adm r (⟨haction, hlimiter, c, hclaim, rfl⟩ | ⟨haction, rfl⟩)
        · rw [if_pos haction, hclaim]
          exact (keeps_claimAndDispatch hlimiter queues c).bind fun _ _ hr => hr
        · rw [if_neg haction]
          rfl

theorem keeps_run (n : ℕ) :
    Keeps cfg (RunnerThread.Need .loop) (Runner.run cfg n) 0 fun _ r => r = 0 := by
  induction n with
  | zero => rfl
  | succ n ih =>
    refine keeps_iteration.bind ?_
    rintro goOn r rfl
    cases goOn with
    | true => exact ih
    | false => rfl

end Rules

/-! ## Whole histories -/

/-- The runner: its state, its loops and its jobs. -/
abbrev RunnerSys : Type := Sys RunnerState RunnerThread RunnerOp RunnerOp.Result

/-- A step of the runner: a loop is started for some iterations, or a thread moves with an
answer. -/
inductive RunnerStep where
  | loop (iterations : ℕ)
  | move (thread : ℕ) (input : RunnerInput)

/-- The runner after a step. -/
def RunnerSys.step (cfg : RunnerConfig) (sys : RunnerSys) : RunnerStep → RunnerSys
  | .loop iterations => Threads.step (runnerMachine cfg) sys
      (.spawn ⟨.loop, Runner.run cfg iterations⟩)
  | .move thread input => Threads.step (runnerMachine cfg) sys (.move thread input)

/-- The runner after a history, from a new pool. -/
def RunnerSys.after (cfg : RunnerConfig) (limit : ℤ) (history : List RunnerStep) : RunnerSys :=
  Transition.run (RunnerSys.step cfg) { shared := { pool := newPool limit } } history

/-- A job that has not ended. -/
def executes (t : Thread RunnerThread RunnerOp RunnerOp.Result) : Bool :=
  match t.label with
  | .loop => false
  | .job _ => !t.prog.ended

/-- The jobs that have not ended. -/
def RunnerSys.executing (sys : RunnerSys) : ℕ := sys.threads.countP executes

theorem RunnerSys.accounted (cfg : RunnerConfig) (limit : ℤ) (history : List RunnerStep) :
    Accounted (runnerMachine cfg) Accounts RunnerThread.Need (JobShare cfg)
      (RunnerSys.after cfg limit history) := by
  refine Transition.run_invariant (fun sys e h => ?_) ?_ history
  · cases e with
    | loop iterations => exact h.spawn (keeps_run iterations)
    | move thread input => exact h.move JobShare.holds thread input
  · refine ⟨[], .nil, rfl, rfl, rfl, rfl, fun serial => ?_⟩
    simp [RunnerState.returnedTo, RunnerState.grantedBy]

theorem holds_need {t : Thread RunnerThread RunnerOp RunnerOp.Result}
    {r : Share} (h : Holds (runnerMachine cfg) Accounts RunnerThread.Need (JobShare cfg) t r) :
    r.2.1 ≤ (if executes t then 1 else 0) ∧ (if executes t then 1 else 0) ≤ r.1 := by
  obtain ⟨label, _ | ⟨o, next⟩⟩ := t
  · obtain rfl : r = 0 := h
    cases label <;> exact ⟨Nat.zero_le _, Nat.le_refl _⟩
  · cases label with
    | loop => exact ⟨Nat.le_of_eq h.1, Nat.zero_le _⟩
    | job raw => exact ⟨h.1.2, h.1.1⟩

/-- The jobs that have not ended hold a slot each, and at most they count as running. -/
theorem executing_le {threads : List (Thread RunnerThread RunnerOp RunnerOp.Result)}
    {shares : List Share}
    (h : List.Forall₂ (Holds (runnerMachine cfg) Accounts RunnerThread.Need (JobShare cfg)) threads
      shares) :
    shares.sum.2.1 ≤ threads.countP executes ∧ threads.countP executes ≤ shares.sum.1 := by
  induction h with
  | nil => exact ⟨Nat.le_refl _, Nat.le_refl _⟩
  | @cons t r threads shares ht _ ih => grind [holds_need, Prod.snd_add, Prod.fst_add]

/-- In every history of loop iterations and job ends, whatever the Limiter, the Driver and the queue
state answer: the slots held are at least the jobs that have not ended, and those that count as
running; `idle` is closed exactly when no slot is held, and is never closed twice; no more permits
of a grant have gone back than it granted; and a reservation takes no slot past the limit in force.
Once every thread has ended, no slot is held and every grant's permits have all gone back. -/
theorem slots_and_permits_conserved (cfg : RunnerConfig) (limit : ℤ) (history : List RunnerStep) :
    let sys := RunnerSys.after cfg limit history
    (sys.executing : ℤ) ≤ sys.shared.pool.held ∧
      sys.shared.pool.running ≤ sys.executing ∧
      (sys.shared.pool.idleClosed = true ↔ sys.shared.pool.held = 0) ∧
      sys.shared.pool.closedTwice = false ∧
      (∀ serial, sys.shared.returnedTo serial ≤ sys.shared.grantedBy serial) ∧
      (∀ want pool n, sys.shared.pool.reserve want = some (pool, n) →
        pool.held = sys.shared.pool.held + n ∧ pool.held ≤ pool.limit) ∧
      ((∀ t ∈ sys.threads, t.prog.ended = true) → sys.shared.pool.held = 0 ∧
        ∀ serial, sys.shared.returnedTo serial = sys.shared.grantedBy serial) := by
  intro sys
  have haccounted := RunnerSys.accounted cfg limit history
  obtain ⟨shares, hshares, hinv⟩ := haccounted
  obtain ⟨hrunning, hheld⟩ := executing_le hshares
  refine ⟨?_, ?_, ?_, hinv.once, fun serial => ?_, fun want pool n hreserve => ?_, fun hended => ?_⟩
  · rw [hinv.held]
    exact_mod_cast hheld
  · rw [hinv.running]
    exact_mod_cast hrunning
  · rw [hinv.idle, decide_eq_true_eq]
  · have hpermits : sys.shared.returnedTo serial + _ = sys.shared.grantedBy serial :=
      hinv.permits serial
    omega
  · obtain ⟨-, rfl, hlimit⟩ := Pool.reserve_spec hreserve
    exact ⟨rfl, hlimit⟩
  · have hnone := (RunnerSys.accounted cfg limit history).ended hended
    refine ⟨hnone.held, fun serial => ?_⟩
    have := hnone.permits serial
    simpa using this

end Flywheel
