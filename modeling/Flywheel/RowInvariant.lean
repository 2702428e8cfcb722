import Flywheel.Lifecycle

/-!
# The job row invariant

The columns that must agree in every stored row: the lease's two columns with the running state,
the end's stamp with the terminal states, and a running row's attempt. Each writer sets its own
subset of them; the invariant is proved once, over the moves of the life cycle.
-/

namespace Flywheel

open Relational Transition

/-- A row whose columns agree with its state. -/
structure JobRow.Consistent (r : JobRow) : Prop where
  leaseToken : r.leaseToken.isSome = true ↔ r.leasedUntil.isSome = true
  leasedUntil : r.leasedUntil.isSome = true ↔ r.state = .running
  finalizedAt : r.finalizedAt.isSome = true ↔
    r.state = .succeeded ∨ r.state = .cancelled ∨ r.state = .discarded
  attempt : r.state = .running → 1 ≤ r.attempt

/-- The invariant that the moves keep: a consistent row, whose attempts are counted from zero. -/
structure JobRow.Sound (r : JobRow) : Prop extends r.Consistent where
  attempt_nonneg : 0 ≤ r.attempt

variable {r : JobRow} {db : Db}

theorem JobRow.Sound.waiting (htoken : r.leaseToken = none) (hleased : r.leasedUntil = none)
    (hend : r.finalizedAt = none) (hstate : waitingStates.contains r.state = true)
    (hattempt : 0 ≤ r.attempt) : r.Sound := by
  refine ⟨⟨?_, ?_, ?_, ?_⟩, hattempt⟩
  · simp [htoken, hleased]
  · grind [waitingStates]
  · grind [waitingStates]
  · grind [waitingStates]

theorem JobRow.Sound.ended (htoken : r.leaseToken = none) (hleased : r.leasedUntil = none)
    (hend : r.finalizedAt.isSome = true) (hstate : r.state.isTerminal = true)
    (hattempt : 0 ≤ r.attempt) : r.Sound := by
  have hstate' := JobState.isTerminal_iff.mp hstate
  refine ⟨⟨?_, ?_, ?_, ?_⟩, hattempt⟩
  · simp [htoken, hleased]
  · grind
  · exact ⟨fun _ => hstate', fun _ => hend⟩
  · grind

theorem JobRow.Sound.of_waiting (h : r.Sound) (hstate : waitingStates.contains r.state = true) :
    r.leaseToken = none ∧ r.leasedUntil = none ∧ r.finalizedAt = none := by
  have hleased : r.leasedUntil = none := by
    rw [← Option.not_isSome_iff_eq_none, h.leasedUntil]
    grind [waitingStates]
  have htoken : r.leaseToken = none := by
    rw [← Option.not_isSome_iff_eq_none, h.leaseToken, hleased]
    simp
  refine ⟨htoken, hleased, ?_⟩
  rw [← Option.not_isSome_iff_eq_none, h.finalizedAt]
  rintro (hs | hs | hs) <;> simp [hs, waitingStates] at hstate

theorem JobRow.Sound.of_running (h : r.Sound) (hstate : r.state = .running) :
    r.finalizedAt = none := by
  rw [← Option.not_isSome_iff_eq_none, h.finalizedAt, hstate]
  simp

theorem NewRow.sound (h : NewRow r) : r.Sound := by
  refine .waiting h.leaseToken h.leasedUntil h.finalizedAt ?_ ?_
  · rw [h.state]
    rfl
  · rw [h.attempt]

/-- Every move keeps a row sound. -/
theorem Move.sound {k : MoveKind} {old new : Option JobRow} (h : Move k old new)
    (hold : ∀ r, old = some r → r.Sound) : ∀ r, new = some r → r.Sound := by
  rintro r rfl
  cases h with
  | insert hnew => exact hnew.sound
  | @claim s now expiry token hstate =>
    have hs := hold s rfl
    have hwaits : waitingStates.contains s.state = true := by
      cases hst : s.state <;> simp [hst, claimableStates, waitingStates] at hstate ⊢
    have hend := (hs.of_waiting hwaits).2.2
    have hattempt := hs.attempt_nonneg
    refine ⟨⟨?_, ?_, ?_, ?_⟩, ?_⟩
    · simp [claimUpdate]
    · simp [claimUpdate]
    · simp [claimUpdate, hend]
    · intro _
      show 1 ≤ s.attempt + 1
      omega
    · show 0 ≤ s.attempt + 1
      omega
  | @renew s now expiry hstate =>
    have hs := hold s rfl
    refine ⟨⟨?_, ?_, hs.finalizedAt, hs.attempt⟩, hs.attempt_nonneg⟩
    · rw [show ((renewUpdate now expiry).apply s).leaseToken = s.leaseToken from rfl, hs.leaseToken,
        hs.leasedUntil]
      simp [renewUpdate, hstate]
    · simp [renewUpdate, hstate]
  | @settle s raw plan finishedAt barrier hheld hsound =>
    have hs := hold s rfl
    have hend := hs.of_running (holdsClaim_state hheld)
    rcases hsound with ⟨hstate, hplan, -⟩ | ⟨hstate, hplan, -⟩ | ⟨hstate, hplan, -⟩
    · exact .ended rfl rfl (by simp [jobFinalizeUpdate, hplan]) hstate hs.attempt_nonneg
    · refine .waiting rfl rfl (by simp [jobFinalizeUpdate, hplan, hend]) ?_ hs.attempt_nonneg
      simp [jobFinalizeUpdate, hstate, waitingStates]
    · refine .waiting rfl rfl (by simp [jobFinalizeUpdate, hplan, hend]) ?_ hs.attempt_nonneg
      simp [jobFinalizeUpdate, hstate, waitingStates]
  | @reclaim s opts now db hstate =>
    have hs := hold s rfl
    by_cases hspent : reclaimSpent opts db s = true
    · refine .ended rfl rfl (by simp [reclaimUpdate, hspent]) ?_ hs.attempt_nonneg
      simp [reclaimUpdate, hspent, JobState.isTerminal, terminalStates]
    · refine .waiting rfl rfl ?_ ?_ hs.attempt_nonneg
      · simp [reclaimUpdate, hspent, hs.of_running hstate]
      · simp [reclaimUpdate, hspent, waitingStates]
  | @cancel s now hstate => exact .ended rfl rfl rfl rfl (hold s rfl).attempt_nonneg
  | @retry s now opts due => exact .waiting rfl rfl rfl rfl (hold s rfl).attempt_nonneg
  | @adjust s state scheduledAt priority now hstate hnew =>
    have hs := hold s rfl
    obtain ⟨htoken, hleased, hend⟩ := hs.of_waiting hstate
    exact .waiting htoken hleased hend hnew hs.attempt_nonneg
  | @clear s now =>
    have hs := hold s rfl
    exact ⟨⟨hs.leaseToken, hs.leasedUntil, hs.finalizedAt, hs.attempt⟩, hs.attempt_nonneg⟩

/-- Every move keeps a row routed: an insert stores it so, and a control that sets the priority
takes none below one. -/
theorem Move.routed {k : MoveKind} {old new : Option JobRow} (h : Move k old new)
    (hold : ∀ r, old = some r → r.Routed) : ∀ r, new = some r → r.Routed := by
  rintro r rfl
  cases h with
  | insert hnew => exact hnew.toRouted
  | @adjust s state scheduledAt priority now hstate hnew hpriority =>
    have hs := hold s rfl
    exact ⟨hs.queue, hpriority.elim (fun heq => heq ▸ hs.priority) id⟩
  | claim | renew | settle | reclaim | cancel | retry | clear =>
    have hs := hold _ rfl
    exact ⟨hs.queue, hs.priority⟩

/-- Whatever the transactions and their order, every row of a database that started empty is
routed. -/
theorem after_routed (history : List Action) : ∀ r ∈ (Db.after {} history).jobs.rows, r.Routed := by
  have hrouted : ∀ id r, (Db.after {} history).jobs.get? id = some r → r.Routed :=
    run_invariant (I := fun db : Db => ∀ id r, db.jobs.get? id = some r → r.Routed)
      (fun _ a hdb id => step_keeps (fun _ => Move.routed) (hdb id))
        (fun _ _ h => by cases h) history
  exact fun r hr => hrouted r.id r (Table.get?_key hr)

/-- Every row of the database is sound. -/
def Db.Sound (db : Db) : Prop := ∀ id r, db.jobs.get? id = some r → r.Sound

theorem step_sound (a : Action) (h : db.Sound) : (step db a).Sound := by
  intro id
  exact step_keeps (fun _ => Move.sound) (h id)

/-- Every history keeps the database's rows sound. -/
theorem after_sound (h : db.Sound) (history : List Action) : (db.after history).Sound :=
  run_invariant (fun _ a hdb => step_sound a hdb) h history

/-- Whatever the transactions and their order, every row of a database that started empty has a
token exactly when it has a lease exactly when it runs, an end exactly when it has ended, and an
attempt when it runs. -/
theorem job_row_invariant (history : List Action) :
    ∀ r ∈ (Db.after {} history).jobs.rows,
      (r.leaseToken.isSome = true ↔ r.leasedUntil.isSome = true) ∧
      (r.leasedUntil.isSome = true ↔ r.state = .running) ∧
      (r.finalizedAt.isSome = true ↔
        r.state = .succeeded ∨ r.state = .cancelled ∨ r.state = .discarded) ∧
      (r.state = .running → 1 ≤ r.attempt) := by
  intro r hr
  have hempty : Db.Sound {} := by
    intro id s hs
    cases hs
  have hsound := after_sound hempty history r.id r (Table.get?_key hr)
  exact ⟨hsound.leaseToken, hsound.leasedUntil, hsound.finalizedAt, hsound.attempt⟩

/-- A claimed job has its lease, and no end. -/
theorem claimed_row_leased :
    ∃ r ∈ (Db.after {} [.insert { newID := fun _ => "job" } [{ kind := "work", args := .null }],
        .dequeue .sqlite {} { newID := fun _ => "token" }
          { queues := ["default"], lease := minute }]).jobs.rows,
      r.state = .running ∧ r.leasedUntil.isSome = true ∧ r.leaseToken.isSome = true ∧
        1 ≤ r.attempt := by
  have hrow := job_row_invariant [.insert { newID := fun _ => "job" }
      [{ kind := "work", args := .null }], .dequeue .sqlite {} { newID := fun _ => "token" }
      { queues := ["default"], lease := minute }] _ List.mem_cons_self
  have hleased := hrow.2.1.mpr rfl
  exact ⟨_, List.mem_cons_self, rfl, hleased, hrow.1.mpr hleased, hrow.2.2.2 rfl⟩

end Flywheel
