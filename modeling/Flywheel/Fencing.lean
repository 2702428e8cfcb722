import Flywheel.Lifecycle

/-!
# Claim fencing

A claim is a job's id with the lease token that a Dequeue stamped on its row. Finalize and
RenewLease present a claim, and act only while the row is still running under that token
(`presented_gone`). A token reaches a row only from the Dequeue that mints it
(`step_tokenless`), and an applied Finalize clears it (`applied_tokenless`), so that a claim
whose token is minted once is applied at most once.
-/

namespace Flywheel

open Relational Transition List Option Table

/-- The job is running under this very token. -/
def Db.RunningUnder (db : Db) (id token : String) : Prop :=
  ∃ r, db.job? id = some r ∧ r.state = .running ∧ r.leaseToken = some token

variable {a : Action} {db : Db} {id token : String}

theorem claimHeld_iff : db.claimHeld id token = true ↔ db.RunningUnder id token := by
  unfold Db.claimHeld Db.RunningUnder
  rw [List.any_eq_true]
  constructor
  · rintro ⟨r, hr, hheld⟩
    obtain ⟨rfl, hvisible, hstate, htoken⟩ := holdsClaim_iff.mp hheld
    exact ⟨r, Db.job?_eq_some.mpr ⟨get?_key hr, hvisible⟩, hstate, htoken⟩
  · rintro ⟨r, hr, hstate, htoken⟩
    obtain ⟨hget, hvisible⟩ := Db.job?_eq_some.mp hr
    exact ⟨r, mem_of_get? hget, holdsClaim_iff.mpr ⟨key_of_get? hget, hvisible, hstate, htoken⟩⟩

/-- The claim that an action presents. -/
def Action.presents : Action → Option (String × String)
  | .finalize _ _ raw _ _ _ _ => some (raw.id, raw.leaseToken)
  | .renewLease _ jobID leaseToken _ => some (jobID, leaseToken)
  | _ => none

theorem renewLease_gone {ctx : Context} {jobID : String} {expiry : Time}
    (hheld : db.claimHeld jobID token = false) :
    (renewLease ctx jobID token expiry db).db.jobs = db.jobs ∧
      (renewLease ctx jobID token expiry db).out = false := by
  refine ⟨?_, hheld⟩
  exact update_of_false fun r hr => by simpa using List.any_eq_false.mp hheld r hr

/-- An action whose claim is gone writes no row of `jobs` and runs no barrier check. -/
theorem presented_gone (ha : a.presents = some (id, token)) (hgone : ¬ db.RunningUnder id token) :
    (step db a).jobs = db.jobs ∧ ∀ c, a.exec db = .ok c → c.fires = [] := by
  rw [← claimHeld_iff, Bool.not_eq_true] at hgone
  cases a with
  | finalize opts ctx raw runID result workErr finishedAt =>
    cases ha
    have hexec : ∀ c, (Action.finalize opts ctx raw runID result workErr finishedAt).exec db =
      .ok c →
        c.db.jobs = db.jobs ∧ c.fires = [] := by
      intro c hc
      obtain ⟨c, hfinalize, rfl⟩ := map_eq_ok.mp hc
      exact (finalize_superseded hfinalize hgone).2
    refine ⟨?_, fun c hc => (hexec c hc).2⟩
    exact settle_induction (P := fun db' : Db => db'.jobs = db.jobs) rfl fun c hc => (hexec c hc).1
  | renewLease ctx jobID leaseToken expiry =>
    cases ha
    refine ⟨(renewLease_gone hgone).1, fun c hc => ?_⟩
    cases hc
    rfl
  | _ => cases ha

/-! ## Where a token comes from -/

/-- No row stored here carries the token. -/
def Tokenless (token : String) (stored : Option JobRow) : Prop :=
  ∀ r, stored = some r → r.leaseToken ≠ some token

variable {old new : Option JobRow}

theorem Move.tokenless {k : MoveKind} (h : Move k old new)
    (hk : k ≠ .claim token) (hold : Tokenless token old) : Tokenless token new := by
  rintro r rfl
  cases h with
  | insert hnew => simp [hnew.leaseToken]
  | claim now expiry t hstate =>
    intro htoken
    exact hk (by rw [some_inj.mp htoken])
  | @renew s | @adjust s | @clear s => exact hold s rfl
  | _ => exact some_ne_none _ ∘ Eq.symm

theorem Upkeep.tokenless (h : Upkeep old new) (hold : Tokenless token old) : Tokenless token new :=
  h.invariant (fun hm => hm.tokenless nofun) (fun hm => hm.tokenless nofun) hold

theorem step_tokenless (hmint : token ∉ a.minted) (hold : Tokenless token (db.jobs.get? id)) :
    Tokenless token ((step db a).jobs.get? id) :=
  step_unminted hmint Move.tokenless hold

theorem after_tokenless {history : List Action} (hmint : token ∉ history.flatMap Action.minted)
    (hold : Tokenless token (db.jobs.get? id)) :
    Tokenless token ((db.after history).jobs.get? id) := by
  induction history generalizing db with
  | nil => exact hold
  | cons a history ih =>
    rw [flatMap_cons, mem_append, not_or] at hmint
    exact ih hmint.2 (step_tokenless hmint.1 hold)

theorem Tokenless.not_running (h : Tokenless token (db.jobs.get? id)) :
    ¬ db.RunningUnder id token := by
  rintro ⟨r, hr, -, htoken⟩
  exact h r (Db.job?_eq_some.mp hr).1 htoken

theorem after_append_cons (db : Db) (pre : List Action) (a : Action) (post : List Action) :
    db.after (pre ++ a :: post) = (step (db.after pre) a).after post := by
  unfold Db.after
  rw [run_append, run_cons]

end Flywheel
