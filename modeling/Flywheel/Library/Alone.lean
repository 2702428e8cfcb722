import Flywheel.Library.Threads

/-!
# Programs that run alone

A program of `Flywheel.Library.Threads` that no other thread moves between: it takes one input for
each of its operations (`Prog.play`), and it is cut off where its inputs end. `Prog.Ensures` is what
a proof shows of such a program: what holds of its result, and what holds where it is cut off, for
inputs that meet a condition on each operation and on where the program may be cut (`Prog.Meets`).
-/

namespace Threads

variable {σ ι Op ℓ α β : Type} {Res : Op → Type}

namespace Prog

/-- The state after a program that runs alone under one input, as far as it does not have to
wait. -/
def alone (m : Machine σ ι ℓ Op Res) (input : ι) : Prog Op Res α → σ → σ
  | .ret _, s => s
  | .op o next, s =>
    match m o input s with
    | some (s', a, _) => (next a).alone m input s'
    | none => s

/-- The state that a program leaves, and its result unless it is cut off. -/
def play (m : Machine σ ι ℓ Op Res) : Prog Op Res α → List ι → σ → σ × Option α
  | .ret a, _, s => (s, some a)
  | .op _ _, [], s => (s, none)
  | .op o next, i :: inputs, s =>
    match m o i s with
    | some (s', a, _) => (next a).play m inputs s'
    | none => (s, none)

/-- A machine that also lists the operations that it makes. -/
def traced (m : Machine σ ι ℓ Op Res) : Machine (σ × List Op) ι ℓ Op Res := fun o i s =>
  (m o i s.1).map fun r => ((r.1, s.2 ++ [o]), r.2)

theorem play_traced (m : Machine σ ι ℓ Op Res) (p : Prog Op Res α) (inputs : List ι)
    (s : σ × List Op) : (p.play (traced m) inputs s).1.1 = (p.play m inputs s.1).1 := by
  induction p generalizing inputs s with
  | ret a => rfl
  | op o next ih =>
    cases inputs with
    | nil => rfl
    | cons i inputs =>
      rw [Prog.play, Prog.play, traced]
      grind

/-- The program has at most this many operations. -/
def Within : ℕ → Prog Op Res α → Prop
  | _, .ret _ => True
  | 0, .op _ _ => False
  | k + 1, .op _ next => ∀ a, Within k (next a)

variable {inputs : List ι} {p : Prog Op Res α} {k : ℕ} {k' : ℕ}

theorem Within.mono (h : p.Within k) (hle : k ≤ k') : p.Within k' := by
  induction p generalizing k k' with
  | ret a => cases k' <;> trivial
  | op o next ih =>
    cases k with
    | zero => exact absurd h id
    | succ k =>
      obtain ⟨k', rfl⟩ := Nat.exists_eq_add_of_le' hle
      exact fun a => ih a (h a) (Nat.le_add_left _ _)

variable {f : α → Prog Op Res β}

theorem Within.bind (h : p.Within k) (hf : ∀ a, (f a).Within k') : (p >>= f).Within (k + k') := by
  induction p generalizing k with
  | ret a => exact (hf a).mono (Nat.le_add_left _ _)
  | op o next ih =>
    cases k with
    | zero => exact absurd h id
    | succ k =>
      rw [Nat.add_right_comm]
      exact fun a => ih a (h a)

/-- **A program ends** once it has an input for each of its operations, where none has to wait. -/
theorem Within.play {m : Machine σ ι ℓ Op Res} (hm : ∀ o i s, (m o i s).isSome = true)
    (h : p.Within k) (hlength : k ≤ inputs.length) (s : σ) :
    ∃ a, (p.play m inputs s).2 = some a := by
  induction p generalizing k inputs s with
  | ret a => exact ⟨a, rfl⟩
  | op o next ih =>
    cases k with
    | zero => exact absurd h id
    | succ k =>
      cases inputs with
      | nil => exact absurd hlength (Nat.not_succ_le_zero k)
      | cons i inputs =>
        obtain ⟨⟨s', a, children⟩, hact⟩ := Option.isSome_iff_exists.mp (hm o i s)
        rw [Prog.play, hact]
        exact ih a (h a) (Nat.le_of_succ_le_succ hlength) s'

section Ensures

variable (m : Machine σ ι ℓ Op Res) (Ok : (o : Op) → ι → σ → Prop) (Halt Stop : σ → Prop)

/-- Every operation is made with an input that is `Ok` for it, and the program is cut off only where
it may `Halt`. -/
def Meets : Prog Op Res α → List ι → σ → Prop
  | .ret _, _, _ => True
  | .op _ _, [], s => Halt s
  | .op o next, i :: inputs, s => Ok o i s ∧ match m o i s with
    | some (s', a, _) => (next a).Meets inputs s'
    | none => Halt s

/-- With inputs that meet the condition the program leaves its result with `Q`, and a state with
`Stop` where it is cut off. -/
def Ensures (Q : α → σ → Prop) : Prog Op Res α → σ → Prop
  | .ret a, s => Q a s
  | .op o next, s => (Halt s → Stop s) ∧
    ∀ i s' a children, Ok o i s → m o i s = some (s', a, children) → (next a).Ensures Q s'

variable {m Ok Halt Stop}

variable {p : Prog Op Res α} {Q : α → σ → Prop} {s : σ}

section

variable (h : p.Ensures m Ok Halt Stop Q s)

include h

theorem Ensures.bind {Q' : β → σ → Prop} (hf : ∀ a s, Q a s → (f a).Ensures m Ok Halt Stop Q' s) :
    (p >>= f).Ensures m Ok Halt Stop Q' s := by
  induction p generalizing s with
  | ret a => exact hf a s h
  | op o next ih => exact ⟨h.1, fun i s' a children hok hact => ih a (h.2 i s' a children hok hact)⟩

theorem Ensures.mono {Q' : α → σ → Prop}
    (hQ : ∀ a s, Q a s → Q' a s) : p.Ensures m Ok Halt Stop Q' s := by
  induction p generalizing s with
  | ret a => exact hQ a s h
  | op o next ih => exact ⟨h.1, fun i s' a children hok hact => ih a (h.2 i s' a children hok hact)⟩

/-- **What a program ensures is so of every play that meets the condition.** -/
theorem Ensures.play (hmeets : p.Meets m Ok Halt inputs s) :
    (∃ a, (p.play m inputs s).2 = some a ∧ Q a (p.play m inputs s).1) ∨
      (p.play m inputs s).2 = none ∧ Stop (p.play m inputs s).1 := by
  induction p generalizing inputs s with
  | ret a => exact .inl ⟨a, rfl, h⟩
  | op o next ih =>
    cases inputs with
    | nil => exact .inr ⟨rfl, h.1 hmeets⟩
    | cons i inputs =>
      rw [Meets] at hmeets
      obtain ⟨hok, hrest⟩ := hmeets
      rw [Prog.play]
      cases hact : m o i s with
      | none =>
        rw [hact] at hrest
        exact .inr ⟨rfl, h.1 hrest⟩
      | some r =>
        obtain ⟨s', a, children⟩ := r
        rw [hact] at hrest
        exact ih a (h.2 i s' a children hok hact) hrest

end

theorem Meets.of_always (hok : ∀ o i s, Ok o i s) (hhalt : ∀ s, Halt s) (p : Prog Op Res α)
    (inputs : List ι) (s : σ) : p.Meets m Ok Halt inputs s := by
  induction p generalizing inputs s with
  | ret b => trivial
  | op o next ih =>
    cases inputs with
    | nil => exact hhalt s
    | cons i inputs =>
      rw [Meets]
      grind

/-- A play that ends meets a condition that always holds. -/
theorem Meets.of_ended (hok : ∀ o i s, Ok o i s) {a : α} (h : (p.play m inputs s).2 = some a) :
    p.Meets m Ok Halt inputs s := by
  induction p generalizing inputs s with
  | ret b => trivial
  | op o next ih =>
    cases inputs with
    | nil => cases h
    | cons i inputs =>
      rw [Prog.play] at h
      rw [Meets]
      refine ⟨hok o i s, ?_⟩
      cases hact : m o i s with
      | none =>
        rw [hact] at h
        cases h
      | some r => simp_all

end Ensures

section EnsuresE

variable {ε : Type} (m : Machine σ ι ℓ Op Res) (Ok : (o : Op) → ι → σ → Prop) (Halt Stop : σ → Prop)

/-- What a program that may fail leaves: `E` with an error, `Q` with a result. -/
def Outcome (E : ε → σ → Prop) (Q : α → σ → Prop) : Except ε α → σ → Prop
  | .error e, s => E e s
  | .ok a, s => Q a s

/-- `Ensures` of a program that the first error ends. -/
def EnsuresE (E : ε → σ → Prop) (Q : α → σ → Prop) (p : ExceptT ε (Prog Op Res) α) (s : σ) : Prop :=
  Prog.Ensures m Ok Halt Stop (Outcome E Q) p.run s

variable {m Ok Halt Stop} {E E' : ε → σ → Prop} {Q : α → σ → Prop} {s : σ}

theorem EnsuresE.pure {a : α} (h : Q a s) :
    EnsuresE m Ok Halt Stop E Q (pure a : ExceptT ε (Prog Op Res) α) s := h

theorem EnsuresE.throw {e : ε} (h : E e s) :
    EnsuresE m Ok Halt Stop E Q (throw e : ExceptT ε (Prog Op Res) α) s := h

variable {p : ExceptT ε (Prog Op Res) α}

theorem EnsuresE.bind {Q' : β → σ → Prop} {f : α → ExceptT ε (Prog Op Res) β}
    (h : EnsuresE m Ok Halt Stop E Q p s)
    (hf : ∀ a s, Q a s → EnsuresE m Ok Halt Stop E Q' (f a) s) :
    EnsuresE m Ok Halt Stop E Q' (p >>= f) s := by
  refine Ensures.bind (p := p.run) h fun r s hr => ?_
  cases r with
  | error e => exact hr
  | ok a => exact hf a s hr

/-- The rule for a handler: it runs on from what the error left. -/
theorem EnsuresE.tryCatch {handle : ε → ExceptT ε (Prog Op Res) α}
    (h : EnsuresE m Ok Halt Stop E' Q p s)
    (hhandle : ∀ e s, E' e s → EnsuresE m Ok Halt Stop E Q (handle e) s) :
    EnsuresE m Ok Halt Stop E Q (tryCatch p handle) s := by
  refine Ensures.bind (p := p.run) h fun r s hr => ?_
  cases r with
  | error e => exact hhandle e s hr
  | ok a => exact hr

end EnsuresE

end Prog

end Threads
