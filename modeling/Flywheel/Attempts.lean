import Flywheel.RowInvariant
import Flywheel.Dispatch

/-!
# Attempt accounting

One job's ledger along a history in which no operator retries it: its attempt is the number of its
claims, its budget is the one it was inserted with and one more per applied snooze, and while it
waits an attempt is left. The finalization's own decision reads the claim's attempt and budget, not
the row's, so that the ledger also says that a claim which is still held carries the row's own.
-/

namespace Flywheel

open Relational Transition List Option Table

/-- The action claims the job. -/
def Action.claims (j : String) (w : World) : Action → Bool
  | .dequeue dialect scan ctx req =>
    ((claimedRows dialect scan ctx req w.db).map JobRow.id).contains j
  | _ => false

/-- The action is a Finalize that applies a snooze to the job. -/
def Action.snoozes (j : String) (w : World) : Action → Bool
  | .finalize opts ctx raw runID result workErr finishedAt =>
    decide (raw.id = j) &&
      decide ((planFinalize ctx raw result workErr finishedAt).runOutcome = .snooze) &&
      (Flywheel.finalize opts ctx raw runID result workErr finishedAt w.db).toOption.any
        fun c => !c.out.superseded
  | _ => false

/-- The steps of the ledger: runners act in dispatch's order, no operator retries the job, and no
insert takes the id of a job that is gone. -/
structure Unretried (j : String) (w : World) (a : Action) : Prop where
  admits : w.Admits a
  retry : a.kind = some .retry → (step w.db a).jobs.get? j = w.db.jobs.get? j
  fresh : w.db.jobs.get? j = none → (step w.db a).jobs.get? j = none

/-! ## The row's part -/

/-- The row's ledger after `claims` claims and `snoozes` applied snoozes, for a job inserted with
the budget `budget`. -/
structure RowLedger (j : String) (budget claims snoozes : ℤ) (w : World) : Prop where
  sound : ∀ r, w.db.jobs.get? j = some r → r.Sound
  attempt : ∀ r, w.db.jobs.get? j = some r → r.attempt = claims
  maxAttempts : ∀ r, w.db.jobs.get? j = some r → r.maxAttempts = budget + snoozes
  waiting : ∀ r, w.db.jobs.get? j = some r → waitingStates.contains r.state = true →
    claims < max 1 budget + snoozes
  bound : claims ≤ max 1 budget + snoozes
  held : w.Held j

/-- What a step that neither claims nor settles does to a row's ledger. -/
structure Steady (r r' : JobRow) : Prop where
  attempt : r'.attempt = r.attempt
  maxAttempts : r'.maxAttempts = r.maxAttempts
  waiting : waitingStates.contains r'.state = true →
    waitingStates.contains r.state = true ∨ r.attempt < r.maxAttempts

variable {a : Action} {ctx : Context} {opts : DriverOpts} {r r' : JobRow}
  {workErr : Option WorkError} {raw : RawJob} {result : Result} {j runID : String}
  {finishedAt : Time} {w : World} {budget claims snoozes : ℤ}

theorem Cleared.steady (h : Cleared r r') : Steady r r' := by
  unfold Cleared at h
  refine ⟨by rw [h], by rw [h], ?_⟩
  rw [h]
  exact .inl

theorem Steady.cleared {r'' : JobRow} (h : Steady r r') (hc : Cleared r' r'') : Steady r r'' := by
  unfold Cleared at hc
  refine ⟨by rw [hc]; exact h.attempt, by rw [hc]; exact h.maxAttempts, ?_⟩
  rw [hc]
  exact h.waiting

theorem Move.steady {k : MoveKind} (h : Move k (some r) (some r'))
    (hclaim : ∀ token, k ≠ .claim token) (hsettle : ∀ raw plan, k ≠ .settle raw plan)
    (hretry : k ≠ .retry) : Steady r r' := by
  cases h with
  | claim now expiry token hstate => exact absurd rfl (hclaim token)
  | settle raw plan finishedAt barrier hheld hsound => exact absurd rfl (hsettle raw plan)
  | retry now opts due => exact absurd rfl hretry
  | renew | clear => exact ⟨rfl, rfl, .inl⟩
  | reclaim opts now db hstate =>
    refine ⟨rfl, rfl, fun hwaits => .inr ?_⟩
    -- a job that the sweep returns has an attempt left
    by_contra hspent
    simp_all [reclaimSpent, spentAttempts, reclaimUpdate, waitingStates]
  | cancel now hstate =>
    refine ⟨rfl, rfl, fun hwaits => ?_⟩
    simp [cancelUpdates, waitingStates] at hwaits
  | adjust state scheduledAt priority now hold hnew => exact ⟨rfl, rfl, fun _ => .inl hold⟩

theorem RowLedger.sound_step (h : RowLedger j budget claims snoozes w) (a : Action) :
    ∀ r, (w.step a).db.jobs.get? j = some r → r.Sound :=
  step_keeps (fun _ => Move.sound) h.sound

theorem RowLedger.steady (h : RowLedger j budget claims snoozes w) (hok : Unretried j w a)
    (hrow : ∀ r', (w.step a).db.jobs.get? j = some r' →
      ∃ r, w.db.jobs.get? j = some r ∧ Steady r r') :
    RowLedger j budget claims snoozes (w.step a) where
  sound := h.sound_step a
  attempt := by
    intro r' hr'
    obtain ⟨r, hr, hs⟩ := hrow r' hr'
    rw [hs.attempt, h.attempt r hr]
  maxAttempts := by
    intro r' hr'
    obtain ⟨r, hr, hs⟩ := hrow r' hr'
    rw [hs.maxAttempts, h.maxAttempts r hr]
  waiting := by
    intro r' hr' hwaits
    obtain ⟨r, hr, hs⟩ := hrow r' hr'
    rcases hs.waiting hwaits with hwaits | hleft
    · exact h.waiting r hr hwaits
    · rw [h.attempt r hr, h.maxAttempts r hr] at hleft
      omega
  bound := h.bound
  held := h.held.step hok.admits

/-- The row after a step that neither claims, settles nor retries it is steady. -/
theorem step_steady (h : Unretried j w a) (hclaim : ∀ token, a.kind ≠ some (.claim token))
    (hsettle : ∀ raw plan, a.kind ≠ some (.settle raw plan)) :
    ∀ r', (step w.db a).jobs.get? j = some r' → ∃ r, w.db.jobs.get? j = some r ∧ Steady r r' := by
  intro r' hr'
  cases hr : w.db.jobs.get? j with
  | none =>
    rw [h.fresh hr] at hr'
    cases hr'
  | some r =>
    refine ⟨r, rfl, ?_⟩
    rcases step_row hr a with ⟨-, hnew⟩ | ⟨mid, s, hmid, hs, hfired⟩
    · rw [hnew] at hr'
      cases hr'
    · cases hr'.symm.trans hs
      rcases hmid with rfl | ⟨k, hk, hmove⟩
      · exact hfired.cleared.steady
      · by_cases hretry : k = .retry
        · -- a retry that leaves the row as it was
          subst hretry
          have hsame := h.retry hk
          rw [hr', hr] at hsame
          cases hsame
          exact ⟨rfl, rfl, .inl⟩
        · refine (hmove.steady ?_ ?_ hretry).cleared hfired.cleared
          · simp_all
          · simp_all

variable {dialect : Dialect} {scan : Scan} {req : ClaimRequest} {c : Commit FinalizeOutcome}

theorem claims_row (h : (Action.dequeue dialect scan ctx req).claims j w = true) :
    ∃ r ∈ claimedRows dialect scan ctx req w.db, w.db.jobs.get? j = some r := by
  obtain ⟨r, hr, rfl⟩ := List.mem_map.mp (contains_iff_mem.mp h)
  exact ⟨r, hr, get?_key (mem_claimedRows hr).1⟩

/-- A Dequeue's step of the row's ledger. -/
theorem RowLedger.step_dequeue (h : RowLedger j budget claims snoozes w)
    (hok : Unretried j w (.dequeue dialect scan ctx req)) :
    RowLedger j budget
      (claims + if (Action.dequeue dialect scan ctx req).claims j w then 1 else 0) snoozes
      (w.step (.dequeue dialect scan ctx req)) := by
  have hget : (w.step (.dequeue dialect scan ctx req)).db.jobs.get? j = _ :=
    dequeue_get? dialect scan ctx req w.db j
  have hsound := h.sound_step (.dequeue dialect scan ctx req)
  have hheld := h.held.step hok.admits
  cases hr : w.db.jobs.get? j with
  | none =>
    rw [hr, map_none] at hget
    have hclaims : ¬ (Action.dequeue dialect scan ctx req).claims j w = true := by
      grind [claims_row]
    rw [if_neg hclaims, Int.add_zero]
    refine ⟨hsound, ?_, ?_, ?_, h.bound, hheld⟩
    all_goals simp [hget]
  | some r =>
    rw [hr, map_some, key_of_get? hr] at hget
    rw [show ((claimedRows dialect scan ctx req w.db).map JobRow.id).contains j =
      (Action.dequeue dialect scan ctx req).claims j w from rfl] at hget
    by_cases hclaims : (Action.dequeue dialect scan ctx req).claims j w = true
    · -- the job is claimed, and was claimable
      rw [if_pos hclaims] at hget ⊢
      obtain ⟨s, hs, hrow⟩ := claims_row hclaims
      obtain rfl : r = s := some_inj.mp (hr.symm.trans hrow)
      have hwaits : waitingStates.contains r.state = true := by
        have := ClaimRequest.claimable_state (mem_claimedRows hs).2
        cases hst : r.state <;> simp [hst, claimableStates, waitingStates] at this ⊢
      have hleft := h.waiting r hr hwaits
      refine ⟨hsound, ?_, ?_, ?_, by omega, hheld⟩
      · rintro r' hr'
        cases hget.symm.trans hr'
        show r.attempt + 1 = claims + 1
        rw [h.attempt r hr]
      · rintro r' hr'
        cases hget.symm.trans hr'
        exact h.maxAttempts r hr
      · rintro r' hr' hrunning
        cases hget.symm.trans hr'
        cases hrunning
    · -- the job is not claimed, and its row stays
      rw [if_neg hclaims, ← hr] at hget
      rw [if_neg hclaims, Int.add_zero]
      refine h.steady hok fun r' hr' => ⟨r', ?_, rfl, rfl, .inl⟩
      rw [← hget]
      exact hr'

theorem snoozes_held
    (h : (Action.finalize opts ctx raw runID result workErr finishedAt).snoozes j w = true) :
    ∃ r c, w.db.jobs.get? j = some r ∧ holdsClaim raw.id raw.leaseToken r = true ∧
      finalize opts ctx raw runID result workErr finishedAt w.db = .ok c := by
  simp only [Action.snoozes, Bool.and_eq_true, decide_eq_true_eq] at h
  obtain ⟨⟨rfl, -⟩, happlied⟩ := h
  cases hc : finalize opts ctx raw runID result workErr finishedAt w.db with
  | error e => simp [hc, Except.toOption] at happlied
  | ok c =>
    obtain ⟨_, _, _, _, -, -, -, -, -, hout⟩ := finalize_spec hc
    have hheld : w.db.claimHeld raw.id raw.leaseToken = true := by
      simpa [hc, Except.toOption, hout] using happlied
    obtain ⟨r, hr, hholds⟩ := Db.claimHeld_get? hheld
    exact ⟨r, c, hr, hholds, rfl⟩

/-- A Finalize that its claim's row holds snoozes the job exactly when its plan does. -/
theorem snoozes_iff (hr : r ∈ w.db.jobs.rows) (hheld : holdsClaim raw.id raw.leaseToken r = true)
    (hc : finalize opts ctx raw runID result workErr finishedAt w.db = .ok c) :
    (Action.finalize opts ctx raw runID result workErr finishedAt).snoozes raw.id w = true ↔
      (planFinalize ctx raw result workErr finishedAt).runOutcome = .snooze := by
  obtain ⟨_, _, _, _, -, -, -, -, -, hout⟩ := finalize_spec hc
  have hclaim : w.db.claimHeld raw.id raw.leaseToken = true := List.any_eq_true.mpr ⟨r, hr, hheld⟩
  simp [Action.snoozes, hc, Except.toOption, hout, hclaim]

section Step

variable (h : RowLedger j budget claims snoozes w) (hok : Unretried j w a)

include h hok

/-- The step of the row's ledger when a Finalize settles the claim that its row holds. -/
theorem RowLedger.settle (ha : a = .finalize opts ctx raw runID result workErr finishedAt)
    (hr : w.db.jobs.get? j = some r) (hheld : holdsClaim raw.id raw.leaseToken r = true)
    (hc : finalize opts ctx raw runID result workErr finishedAt w.db = .ok c) :
    RowLedger j budget claims (snoozes + if a.snoozes j w then 1 else 0) (w.step a) := by
  obtain ⟨hid, -, -, htoken⟩ := holdsClaim_iff.mp hheld
  obtain rfl : raw.id = j := by rw [← hid, key_of_get? hr]
  -- the claim is one of the world's, so that it carries the row's attempt and budget
  obtain ⟨hattempt, hmax, -⟩ : Carries raw r := by
    have hadmits := hok.admits
    rw [ha] at hadmits
    obtain ⟨t, ht, rfl, -⟩ := hadmits
    exact h.held.carries t ht rfl r hr htoken
  have hclaims := h.attempt r hr
  have hbudget := h.maxAttempts r hr
  have hbound := h.bound
  have hdelta := planFinalize_delta ctx raw result workErr finishedAt
  have hsnoozes : (a.snoozes raw.id w = true) ↔
      (planFinalize ctx raw result workErr finishedAt).runOutcome = .snooze := by
    rw [ha]
    exact snoozes_iff (mem_of_get? hr) hheld hc
  simp only [hsnoozes]
  -- the new row is the settled one, up to upkeep
  obtain ⟨barrier, hup⟩ := finalize_get? hc
  have hup := hup raw.id
  rw [hr, map_some, if_pos hheld] at hup
  obtain ⟨r', hr', hcleared⟩ := hup.of_some
  have hdb : (w.step a).db = c.db := step_of_ok (c := c.drop) (by
    rw [ha]
    exact map_eq_ok.mpr ⟨c, hc, rfl⟩)
  have hnew : ∀ s, (w.step a).db.jobs.get? raw.id = some s → s = r' := by
    simp_all
  have hsound := planFinalize_sound ctx raw result workErr finishedAt
  unfold Cleared at hcleared
  refine ⟨h.sound_step a, ?_, ?_, ?_, ?_, h.held.step hok.admits⟩
  · intro s hs
    rw [hnew s hs, hcleared]
    exact hclaims
  · intro s hs
    rw [hnew s hs, hcleared]
    show r.maxAttempts + _ = _
    omega
  · intro s hs hwaits
    rw [hnew s hs, hcleared] at hwaits
    have hwaits : waitingStates.contains
      (planFinalize ctx raw result workErr finishedAt).jobState = true := hwaits
    rcases hsound with ⟨hstate, -⟩ | ⟨-, -, hd⟩ | ⟨-, -, hd, hleft⟩
    · rcases JobState.isTerminal_iff.mp hstate with hs | hs | hs <;> rw [hs] at hwaits <;>
        cases hwaits
    · omega
    · omega
  · rcases hsound with ⟨-, -, hd⟩ | ⟨-, -, hd⟩ | ⟨-, -, hd, -⟩ <;> omega

/-- A Finalize's step of the row's ledger. -/
theorem RowLedger.step_finalize (ha : a = .finalize opts ctx raw runID result workErr finishedAt) :
    RowLedger j budget claims (snoozes + if a.snoozes j w then 1 else 0) (w.step a) := by
  -- a step that leaves the row to upkeep is steady, and snoozes nothing
  have hsteady : ¬ a.snoozes j w = true →
      (∀ r', (w.step a).db.jobs.get? j = some r' → ∃ r, w.db.jobs.get? j = some r ∧ Steady r r') →
      RowLedger j budget claims (snoozes + if a.snoozes j w then 1 else 0) (w.step a) := by
    intro hno hrow
    rw [if_neg hno, Int.add_zero]
    exact h.steady hok hrow
  cases hr : w.db.jobs.get? j with
  | none =>
    refine hsteady (fun hs => ?_) (fun r' hr' => ?_)
    · grind [snoozes_held]
    · rw [show (w.step a).db.jobs.get? j = none from hok.fresh hr] at hr'
      cases hr'
  | some r =>
    by_cases hheld : holdsClaim raw.id raw.leaseToken r = true
    · cases hc : finalize opts ctx raw runID result workErr finishedAt w.db with
      | error e =>
        have hdb : (w.step a).db = w.db :=
          step_of_error (e := e) (by simp only [ha, Action.exec, hc, Except.map])
        refine hsteady (fun hs => ?_) (fun r' hr' => ?_)
        · grind [snoozes_held]
        · rw [hdb] at hr'
          exact ⟨r', hr', rfl, rfl, .inl⟩
      | ok c => exact h.settle hok ha hr hheld hc
    · -- the row does not hold the claim, and is left to upkeep
      refine hsteady (fun hs => ?_) (fun r' hr' => ⟨r, hr, ?_⟩)
      · grind [snoozes_held]
      · rw [show (w.step a).db = step w.db a from rfl] at hr'
        rcases step_row hr a with ⟨hk, -⟩ | ⟨mid, s, rfl | ⟨k, hk, hmove⟩, hs, hfired⟩
        · rw [ha] at hk
          cases hk
        · cases hr'.symm.trans hs
          exact hfired.cleared.steady
        · rw [ha] at hk
          cases hk
          cases hmove with
          | settle _ _ _ _ hholds => exact absurd hholds hheld

theorem RowLedger.step_other (hdequeue : ∀ dialect scan ctx req, a ≠ .dequeue dialect scan ctx req)
    (hfinalize : ∀ opts ctx raw runID result workErr finishedAt,
      a ≠ .finalize opts ctx raw runID result workErr finishedAt) :
    RowLedger j budget claims snoozes (w.step a) := by
  refine h.steady hok (step_steady hok ?_ ?_)
  · grind [Action.kind_claim]
  · grind [Action.kind_settle]

theorem RowLedger.step : RowLedger j budget (claims + if a.claims j w then 1 else 0)
      (snoozes + if a.snoozes j w then 1 else 0) (w.step a) := by
  cases a with
  | dequeue dialect scan ctx req =>
    rw [show (Action.dequeue dialect scan ctx req).snoozes j w = false from rfl]
    simpa using h.step_dequeue hok
  | finalize opts ctx raw runID result workErr finishedAt =>
    rw [show (Action.finalize opts ctx raw runID result workErr finishedAt).claims j w = false from
      rfl]
    simpa using h.step_finalize hok rfl
  | _ =>
    simpa [Action.claims, Action.snoozes] using
      h.step_other hok (by intros; exact Action.noConfusion) (by intros; exact Action.noConfusion)

end Step

/-! ## The runs' part -/

/-- The runs' ledger: attempts in flight and runs are numbered up to the last claim, two attempts at
one number hold one claim, and an attempt without a stub has no run at its number. -/
structure RunLedger (j : String) (claims : ℤ) (w : World) : Prop where
  numbered : ∀ t ∈ w.attempts, t.raw.id = j → t.raw.attempt ≤ claims
  runs : ∀ id run, w.db.runs.get? id = some run → run.jobID = j → run.attempt ≤ claims
  distinct : ∀ t ∈ w.attempts, ∀ t' ∈ w.attempts, t.raw.id = j → t'.raw.id = j →
    t.raw.attempt = t'.raw.attempt → t.raw.leaseToken = t'.raw.leaseToken
  unstubbed : ∀ t ∈ w.attempts, t.raw.id = j → t.run = none →
    ∀ id run, w.db.runs.get? id = some run → run.jobID = j → run.attempt ≠ t.raw.attempt

theorem RowLedger.issued (h : RowLedger j budget claims snoozes w) (hraw : raw ∈ a.issued w.db)
    (hid : raw.id = j) : raw.attempt = claims + 1 ∧ a.claims j w = true := by
  obtain ⟨dialect, scan, ctx, req, r, rfl, hr, hof⟩ := issued_spec hraw
  have hrid : r.id = j := by rw [← hof.id, hid]
  have hget : w.db.jobs.get? j = some r := hrid ▸ get?_key (mem_claimedRows hr).1
  refine ⟨by rw [hof.attempt, h.attempt r hget], ?_⟩
  exact contains_iff_mem.mpr (List.mem_map.mpr ⟨r, hr, hrid⟩)

/-- A step of the runs' ledger. -/
theorem RunLedger.step (h : RunLedger j claims w) (hrow : RowLedger j budget claims snoozes w)
    (hok : Unretried j w a) : RunLedger j (claims + if a.claims j w then 1 else 0) (w.step a) := by
  have hle : claims ≤ claims + if a.claims j w then 1 else 0 := by split_ifs <;> omega
  -- an attempt after the step has a claim from before it, or is numbered next
  have hfrom : ∀ t ∈ (w.step a).attempts, t.raw.id = j →
      (∃ s ∈ w.attempts, s.raw = t.raw) ∨ (t.raw ∈ a.issued w.db ∧ t.raw.attempt = claims + 1 ∧
        a.claims j w = true) := by
    intro t ht hid
    rcases World.mem_step ht with ⟨ht, -⟩ | ⟨s, hs, _, _, _, _, _, _, -, -, -, rfl⟩ |
      ⟨raw, hraw, rfl⟩
    · exact .inl ⟨t, ht, rfl⟩
    · exact .inl ⟨s, hs, rfl⟩
    · exact .inr ⟨hraw, hrow.issued hraw hid⟩
  refine ⟨?_, ?_, ?_, ?_⟩
  · intro t ht hid
    rcases hfrom t ht hid with ⟨s, hs, hraw⟩ | ⟨-, hattempt, hclaims⟩
    · rw [← hraw] at hid ⊢
      have := h.numbered s hs hid
      omega
    · rw [if_pos hclaims, hattempt]
  · intro id run hrun hid
    rcases run_origin hrun with ⟨old, hold, hjob, hattempt⟩ | ⟨_, raw, _, _, _, rfl, rfl⟩
    · have := h.runs id old hold (hjob.trans hid)
      omega
    · obtain ⟨t, ht, rfl, -⟩ := hok.admits
      exact le_trans (h.numbered t ht hid) hle
  · intro t ht t' ht' hid hid' hattempt
    rcases hfrom t ht hid with ⟨s, hs, hraw⟩ | ⟨hissued, hnext, -⟩ <;>
      rcases hfrom t' ht' hid' with ⟨s', hs', hraw'⟩ | ⟨hissued', hnext', -⟩
    · rw [← hraw] at hid hattempt ⊢
      rw [← hraw'] at hid' hattempt ⊢
      exact h.distinct s hs s' hs' hid hid' hattempt
    · rw [← hraw] at hid hattempt
      have := h.numbered s hs hid
      omega
    · rw [← hraw'] at hid' hattempt
      have := h.numbered s' hs' hid'
      omega
    · obtain ⟨_, _, _, _, _, rfl, -, hof⟩ := issued_spec hissued
      obtain ⟨_, _, _, _, _, ha, -, hof'⟩ := issued_spec hissued'
      cases ha
      rw [hof.leaseToken, hof'.leaseToken]
  · intro t ht hid hnone id run hrun hjob hattempt
    rcases World.mem_step ht with ⟨hold, hconcerns⟩ | ⟨s, -, _, _, _, _, _, _, -, -, -, rfl⟩ |
      ⟨raw, hraw, rfl⟩
    · rcases run_origin hrun with ⟨old, hrun₀, hjob', hattempt'⟩ | ⟨_, raw, _, _, _, rfl, rfl⟩
      · exact h.unstubbed t hold hid hnone id old hrun₀ (hjob'.trans hjob)
          (hattempt'.trans hattempt)
      · -- the stub is of another claim, which has another number
        obtain ⟨s, hs, rfl, -⟩ := hok.admits
        have htoken := h.distinct s hs t hold hjob hid hattempt
        have hid' : s.raw.id = j := hjob
        simp [Action.concerns, Attempt.holds, hid, hid', htoken] at hconcerns
    · cases hnone
    · rcases run_origin hrun with ⟨old, hold, hjob', hattempt'⟩ | ⟨_, _, _, _, _, rfl, -⟩
      · have hle' := h.runs id old hold (hjob'.trans hjob)
        have hnext := (hrow.issued hraw hid).1
        simp_all
      · simp [Action.issued] at hraw

/-! ## The job's history -/

/-- How often the job is claimed. -/
def claimCount (j : String) (w : World) (history : List Action) : ℕ :=
  tally World.step (fun w a => a.claims j w) w history

/-- How often the job is snoozed. -/
def snoozeCount (j : String) (w : World) (history : List Action) : ℕ :=
  tally World.step (fun w a => a.snoozes j w) w history

/-- The ledger along a history. -/
theorem ledger_after {history : List Action} (hrow : RowLedger j budget claims snoozes w)
    (hrun : RunLedger j claims w) (hlegal : Legal World.step (Unretried j) w history) :
    RowLedger j budget (claims + claimCount j w history) (snoozes + snoozeCount j w history)
        (w.after history) ∧
      RunLedger j (claims + claimCount j w history) (w.after history) := by
  induction history generalizing w claims snoozes with
  | nil => simpa [claimCount, snoozeCount, tally, World.after] using ⟨hrow, hrun⟩
  | cons a history ih =>
    have hstep := ih (hrow.step hlegal.1) (hrun.step hrow hlegal.1) hlegal.2
    have hc : claims + (claimCount j w (a :: history) : ℕ) =
        (claims + if a.claims j w then 1 else 0) + (claimCount j (w.step a) history : ℕ) := by
      grind [claimCount, tally]
    have hs : snoozes + (snoozeCount j w (a :: history) : ℕ) =
        (snoozes + if a.snoozes j w then 1 else 0) + (snoozeCount j (w.step a) history : ℕ) := by
      grind [snoozeCount, tally]
    rw [hc, hs]
    exact hstep

theorem RowLedger.start (hrow : w.db.jobs.get? j = some r) (hnew : NewRow r)
    (hattempts : ∀ t ∈ w.attempts, t.raw.id ≠ j) : RowLedger j r.maxAttempts 0 0 w := by
  have hfound : ∀ s, w.db.jobs.get? j = some s → s = r := fun s hs =>
    some_inj.mp (hs.symm.trans hrow)
  refine ⟨?_, ?_, ?_, ?_, by omega, World.Held.start hattempts⟩
  · intro s hs
    rw [hfound s hs]
    exact hnew.sound
  · intro s hs
    rw [hfound s hs, hnew.attempt]
  · simp_all
  · intros
    omega

theorem RunLedger.start (hattempts : ∀ t ∈ w.attempts, t.raw.id ≠ j)
    (hruns : ∀ run ∈ w.db.runs.rows, run.jobID ≠ j) : RunLedger j 0 w := by
  refine ⟨?_, ?_, ?_, ?_⟩
  · exact fun t ht hid => absurd hid (hattempts t ht)
  · exact fun id run hrun hid => absurd hid (hruns run (mem_of_get? hrun))
  · exact fun t ht _ _ hid => absurd hid (hattempts t ht)
  · exact fun t ht hid => absurd hid (hattempts t ht)

/-- What attempt accounting means for a job inserted with the budget `budget`. -/
structure Accounted (j : String) (budget : ℤ) (w : World) (history : List Action) : Prop where
  -- the attempt rises by one at each claim, and never changes otherwise
  attempt : ∀ pre a post r r', history = pre ++ a :: post →
    (w.after pre).db.jobs.get? j = some r → (w.after (pre ++ [a])).db.jobs.get? j = some r' →
    r'.attempt = r.attempt + if a.claims j (w.after pre) then 1 else 0
  -- the budget rises by one at each applied snooze, and never changes otherwise
  maxAttempts : ∀ pre a post r r', history = pre ++ a :: post →
    (w.after pre).db.jobs.get? j = some r → (w.after (pre ++ [a])).db.jobs.get? j = some r' →
    r'.maxAttempts = r.maxAttempts + if a.snoozes j (w.after pre) then 1 else 0
  -- no two claims carry the same attempt, be they of two Dequeues or of one
  claims : ∀ pre a mid b post raw raw', history = pre ++ a :: (mid ++ b :: post) →
    raw ∈ a.issued (w.after pre).db → raw' ∈ b.issued (w.after (pre ++ a :: mid)).db →
    raw.id = j → raw'.id = j → raw.attempt ≠ raw'.attempt
  single : ∀ pre a post, history = pre ++ a :: post →
    ((a.issued (w.after pre).db).map RawJob.id).Nodup
  -- the run of an attempt is written once: no run has its number when its stub is inserted
  runs : ∀ pre post runID raw startedAt executorClass executorID,
    history = pre ++ .insertRunStub runID raw startedAt executorClass executorID :: post →
    raw.id = j → ∀ run ∈ (w.after pre).db.runs.rows,
      ¬ (run.jobID = raw.id ∧ run.attempt = raw.attempt)
  -- the job is claimed at most as often as its budget and its snoozes allow
  bounded : (claimCount j w history : ℤ) ≤ max 1 budget + snoozeCount j w history

/-- In every history in which no operator retries a job, from the job's insert on, its attempt
counts its claims, its budget its applied snoozes, and its claims are bounded by both. -/
theorem attempt_accounting (j : String) (w : World) (r : JobRow) (history : List Action)
    (hrow : w.db.jobs.get? j = some r) (hnew : NewRow r)
    (hattempts : ∀ t ∈ w.attempts, t.raw.id ≠ j) (hruns : ∀ run ∈ w.db.runs.rows, run.jobID ≠ j)
    (hlegal : Legal World.step (Unretried j) w history) :
    Accounted j r.maxAttempts w history := by
  have hrow₀ := RowLedger.start hrow hnew hattempts
  have hrun₀ := RunLedger.start hattempts hruns
  -- the ledger before an action of the history, and after it
  have hbefore : ∀ pre a post, history = pre ++ a :: post →
      RowLedger j r.maxAttempts (claimCount j w pre) (snoozeCount j w pre) (w.after pre) ∧
        RunLedger j (claimCount j w pre) (w.after pre) := by
    rintro pre a post rfl
    simpa using ledger_after hrow₀ hrun₀ hlegal.before
  have hafter : ∀ pre a post, history = pre ++ a :: post →
      RowLedger j r.maxAttempts
        (claimCount j w pre + if a.claims j (w.after pre) then 1 else 0)
        (snoozeCount j w pre + if a.snoozes j (w.after pre) then 1 else 0)
        (w.after (pre ++ [a])) := by
    rintro pre a post rfl
    rw [World.after_snoc]
    exact (hbefore pre a post rfl).1.step hlegal.at
  refine ⟨?_, ?_, ?_, ?_, ?_, ?_⟩
  · intro pre a post s s' hsplit hs hs'
    rw [(hbefore pre a post hsplit).1.attempt s hs, (hafter pre a post hsplit).attempt s' hs']
  · intro pre a post s s' hsplit hs hs'
    rw [(hbefore pre a post hsplit).1.maxAttempts s hs,
      (hafter pre a post hsplit).maxAttempts s' hs']
    omega
  · intro pre a mid b post raw raw' hsplit hraw hraw' hid hid'
    obtain ⟨hn, hclaims⟩ := (hbefore pre a (mid ++ b :: post) hsplit).1.issued hraw hid
    have hn' := ((hbefore (pre ++ a :: mid) b post (by simp [hsplit])).1.issued hraw' hid').1
    have hcount : claimCount j w pre + 1 ≤ claimCount j w (pre ++ a :: mid) := by
      have hone : (if a.claims j (run World.step w pre) then 1 else 0) = 1 := if_pos hclaims
      unfold claimCount
      rw [tally_append, tally, hone]
      omega
    omega
  · exact fun pre a post _ => issued_nodup a _
  · rintro pre post runID raw startedAt executorClass executorID hsplit hid run hrun ⟨hjob,
      hattempt⟩
    have hadmits : (w.after pre).Admits
        (.insertRunStub runID raw startedAt executorClass executorID) := by
      subst hsplit
      exact hlegal.at.admits
    obtain ⟨t, ht, rfl, hnone⟩ := hadmits
    exact (hbefore pre _ post hsplit).2.unstubbed t ht hid hnone run.id run (get?_key hrun)
      (hjob.trans hid) hattempt
  · have := (ledger_after hrow₀ hrun₀ hlegal).1.bound
    omega

/-- A world with one new job. -/
def newJob : World :=
  { db := step {} (.insert { newID := fun _ => "job" } [{ kind := "poll", args := .null }]) }

/-- A claim that snoozes, and a second claim. -/
def snoozedOnce : List Action :=
  [.dequeue .sqlite {} { newID := fun _ => "first" } { queues := ["default"], lease := minute },
   .insertRunStub "run" (firstClaim "job" "poll" "first") 0 "" "executor",
   .finalize {} {} (firstClaim "job" "poll" "first") "run" { snooze := some 0 } none 0,
   .dequeue .sqlite {} { newID := fun _ => "second" } { queues := ["default"], lease := minute }]

/-- The accounts of a job that is claimed, snoozed and claimed again. -/
theorem attempt_accounting_snoozed : Accounted "job" 25 newJob snoozedOnce := by
  refine attempt_accounting "job" newJob _ snoozedOnce rfl ⟨rfl, rfl, rfl, rfl, rfl, rfl, rfl, rfl⟩
    (by simp [newJob]) (fun run hrun => absurd (show run ∈ [] from hrun) not_mem_nil) ?_
  unfold snoozedOnce
  simp only [Legal, and_true]
  refine ⟨⟨?_, ?_, ?_⟩, ⟨?_, ?_, ?_⟩, ⟨?_, ?_, ?_⟩, ⟨?_, ?_, ?_⟩⟩
  · exact not_mem_nil
  · rintro ⟨⟩
  · intro h
    exact absurd h (by decide)
  · exact ⟨_, mem_cons_self, rfl, rfl⟩
  · rintro ⟨⟩
  · intro h
    exact absurd h (by decide)
  · exact ⟨_, mem_cons_self, rfl, rfl⟩
  · rintro ⟨⟩
  · intro h
    exact absurd h (by decide)
  · show "second" ∉ _
    decide
  · rintro ⟨⟩
  · intro h
    exact absurd h (by decide)

end Flywheel
