import Mathlib.Data.List.Basic

/-!
# Histories of atomic transactions

A system of atomic transactions is a total step function: an action that is refused leaves the
state as it was. A history is the list of actions taken, `run` the state it ends in, and
`Legal` says that every action was admissible in the state it was taken in. Each safety proof
above this module is one step lemma, lifted to whole histories by `Legal.invariant`.
-/

namespace Transition

section Except

universe u

variable {ε : Type*} {α β : Type u}

theorem bind_eq_ok {x : Except ε α} {f : α → Except ε β} {b : β} :
    (x >>= f) = .ok b ↔ ∃ a, x = .ok a ∧ f a = .ok b := by
  cases x with
  | error e => simp [bind, Except.bind]
  | ok a => simp [bind, Except.bind]

theorem map_eq_ok {x : Except ε α} {f : α → β} {b : β} :
    x.map f = .ok b ↔ ∃ a, x = .ok a ∧ f a = b := by
  cases x with
  | error e => simp [Except.map]
  | ok a => simp [Except.map]

/-- A check that fails the computation when its condition holds. -/
def refuse (c : Bool) (e : ε) : Except ε Unit := bif c then .error e else .ok ()

theorem refuse_eq_ok {c : Bool} {e : ε} {u : Unit} : refuse c e = .ok u ↔ c = false := by
  cases c <;> simp [refuse]

/-- The state after a transaction: what it committed, or the old state when it rolled back. -/
def settle {σ : Type*} (proj : β → σ) (s : σ) : Except ε β → σ
  | .ok b => proj b
  | .error _ => s

variable {σ : Type*}

@[simp]
theorem settle_ok (proj : β → σ) (s : σ) (b : β) :
    settle proj s (.ok b : Except ε β) = proj b := rfl

@[simp]
theorem settle_error (proj : β → σ) (s : σ) (e : ε) : settle proj s (.error e) = s := rfl

/-- What holds of the old state and of every committed one holds after the transaction. -/
theorem settle_induction {proj : β → σ} {s : σ} {x : Except ε β} {P : σ → Prop}
    (hs : P s) (hok : ∀ b, x = .ok b → P (proj b)) : P (settle proj s x) := by
  cases x with
  | error e => exact hs
  | ok b => exact hok b rfl

/-- Two computations that fail alike, or succeed with related results. -/
inductive Alike {α β : Type*} (R : α → β → Prop) : Except ε α → Except ε β → Prop where
  | ok {a : α} {b : β} (related : R a b) : Alike R (.ok a) (.ok b)
  | error (e : ε) : Alike R (.error e) (.error e)

theorem Alike.refl (x : Except ε α) : Alike (· = ·) x x := by
  cases x with
  | ok a => exact .ok rfl
  | error e => exact .error e

/-- Computations that go on alike from related results are alike. -/
theorem Alike.bind {α' β' : Type u} {R : α → β → Prop} {S : α' → β' → Prop} {x : Except ε α}
    {y : Except ε β} {f : α → Except ε α'} {g : β → Except ε β'} (h : Alike R x y)
    (hnext : ∀ a b, R a b → Alike S (f a) (g b)) : Alike S (x >>= f) (y >>= g) := by
  cases h with
  | ok related => exact hnext _ _ related
  | error e => exact .error e

theorem Alike.symm {α β : Type*} {R : α → β → Prop} {x : Except ε α} {y : Except ε β}
    (h : Alike R x y) : Alike (fun b a => R a b) y x := by
  cases h with
  | ok related => exact .ok related
  | error e => exact .error e

theorem Alike.trans {α β γ : Type*} {R : α → β → Prop} {S : β → γ → Prop} {T : α → γ → Prop}
    {x : Except ε α} {y : Except ε β} {z : Except ε γ} (h : Alike R x y) (h' : Alike S y z)
    (himp : ∀ a b c, R a b → S b c → T a c) : Alike T x z := by
  cases h with
  | ok related =>
    cases h' with
    | ok related' => exact .ok (himp _ _ _ related related')
  | error e =>
    cases h'
    exact .error e

end Except

variable {σ α : Type*}

/-- The state at the end of a history. -/
def run (step : σ → α → σ) (s : σ) (as : List α) : σ := as.foldl step s

variable (step : σ → α → σ) {I : σ → Prop}

@[simp]
theorem run_nil (s : σ) : run step s [] = s := rfl

@[simp]
theorem run_cons (s : σ) (a : α) (as : List α) :
    run step s (a :: as) = run step (step s a) as := rfl

theorem run_append (s : σ) (as bs : List α) : run step s (as ++ bs) = run step (run step s as) bs :=
  List.foldl_append

/-- What every step preserves, every history preserves. -/
theorem run_invariant {step : σ → α → σ} (hstep : ∀ s a, I s → I (step s a)) {s : σ}
    (hs : I s) (as : List α) : I (run step s as) := by
  induction as generalizing s with
  | nil => exact hs
  | cons a as ih => exact ih (hstep s a hs)

/-- How many actions of the history satisfy `p`, each in the state that it is taken in. -/
def tally (step : σ → α → σ) (p : σ → α → Bool) : σ → List α → ℕ
  | _, [] => 0
  | s, a :: as => (if p s a then 1 else 0) + tally step p (step s a) as

theorem tally_append (p : σ → α → Bool) (s : σ) (as bs : List α) :
    tally step p s (as ++ bs) = tally step p s as + tally step p (run step s as) bs := by
  induction as generalizing s with
  | nil => simp [tally]
  | cons a as ih => grind [tally, run_cons]

/-- Every action of the history is admissible in the state that it is taken in. -/
def Legal (step : σ → α → σ) (ok : σ → α → Prop) : σ → List α → Prop
  | _, [] => True
  | s, a :: as => ok s a ∧ Legal step ok (step s a) as

variable {step : σ → α → σ} {ok : σ → α → Prop} {s : σ} {as bs : List α}

theorem legal_append :
    Legal step ok s (as ++ bs) ↔ Legal step ok s as ∧ Legal step ok (run step s as) bs := by
  induction as generalizing s with
  | nil => simp [Legal]
  | cons a as ih => simp only [List.cons_append, Legal, ih, run_cons, and_assoc]

theorem Legal.at {a : α} (h : Legal step ok s (as ++ a :: bs)) : ok (run step s as) a :=
  (legal_append.mp h).2.1

theorem Legal.before {a : α} (h : Legal step ok s (as ++ a :: bs)) : Legal step ok s as :=
  (legal_append.mp h).1

/-- What every admissible step preserves, every legal history preserves. -/
theorem Legal.invariant (hstep : ∀ s a, ok s a → I s → I (step s a))
    (h : Legal step ok s as) (hs : I s) : I (run step s as) := by
  induction as generalizing s with
  | nil => exact hs
  | cons a as ih => exact ih h.2 (hstep s a h.1 hs)

end Transition
