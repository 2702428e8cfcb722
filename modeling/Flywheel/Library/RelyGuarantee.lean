import Mathlib.Data.List.Nodup
import Flywheel.Library.Threads

/-!
# Rely and guarantee

A protocol says what every operation keeps of the shared state, what a thread may see change
between two of its operations (its rely), and what its own operations may change (its guarantee).
The guarantee of one thread is within the rely of every other, so that what a thread knows is not
lost while it waits. `Upholds` is the rule for one program, and `Upheld` what it gives for all the
threads of a system, move by move.
-/

namespace Threads

variable {σ ι Op ℓ α β : Type} {Res : Op → Type}

/-- What the threads of a system may do to the state, and see done to it. -/
structure Protocol (σ ι ℓ Op : Type) (Res : Op → Type) where
  machine : Machine σ ι ℓ Op Res
  /-- What every operation keeps. -/
  Inv : σ → Prop
  /-- The moves that are admitted, in the state that they are taken in. -/
  Ok : (o : Op) → ι → σ → Prop
  /-- What a thread may see done to the state between two of its operations. -/
  Rely : ℓ → σ → σ → Prop
  /-- What a thread's own operation may do to it. -/
  Guar : ℓ → σ → σ → Prop
  rely_refl : ∀ ℓ s, Rely ℓ s s
  rely_trans : ∀ {ℓ s₁ s₂ s₃}, Rely ℓ s₁ s₂ → Rely ℓ s₂ s₃ → Rely ℓ s₁ s₃
  guar_rely : ∀ {ℓ ℓ' s s'}, ℓ ≠ ℓ' → Guar ℓ s s' → Rely ℓ' s s'

/-- From the state `s`, whatever the other threads do in between, each operation of the program
keeps the invariant and the guarantee, starts no thread, and the program ends with a result that
`Q` holds of and goes on holding of. -/
def Upholds (P : Protocol σ ι ℓ Op Res) (label : ℓ) : Prog Op Res α → σ → (α → σ → Prop) → Prop
  | .ret a, s, Q => ∀ s', P.Rely label s s' → P.Inv s' → Q a s'
  | .op o next, s, Q => ∀ s₁ input s₂ a children, P.Rely label s s₁ → P.Inv s₁ → P.Ok o input s₁ →
      P.machine o input s₁ = some (s₂, a, children) →
        children = [] ∧ P.Inv s₂ ∧ P.Guar label s₁ s₂ ∧ Upholds P label (next a) s₂ Q

namespace Upholds

variable {P : Protocol σ ι ℓ Op Res} {label : ℓ} {s s' : σ} {Q : α → σ → Prop}

variable {p : Prog Op Res α}

/-- What the others do leaves a program upholding what it did. -/
theorem rely (h : Upholds P label p s Q) (hrely : P.Rely label s s') : Upholds P label p s' Q := by
  cases p with
  | ret a => exact fun s'' hrely' hinv => h s'' (P.rely_trans hrely hrely') hinv
  | op o next =>
    exact fun s₁ input s₂ a children hrely' => h s₁ input s₂ a children (P.rely_trans hrely hrely')

/-- A program may wait for the others before its first operation. -/
theorem of_rely (h : ∀ s', P.Rely label s s' → P.Inv s' → Upholds P label p s' Q) :
    Upholds P label p s Q := by
  cases p with
  | ret a => exact fun s' hrely hinv => h s' hrely hinv s' (P.rely_refl label s') hinv
  | op o next =>
    exact fun s₁ input s₂ a children hrely hinv =>
      h s₁ hrely hinv s₁ input s₂ a children (P.rely_refl label s₁) hinv

/-- The rule of sequence. -/
theorem bind {f : α → Prog Op Res β} {R : β → σ → Prop} (h : Upholds P label p s Q)
    (hnext : ∀ a s', P.Inv s' → Q a s' → Upholds P label (f a) s' R) :
    Upholds P label (p >>= f) s R := by
  induction p generalizing s with
  | ret a => exact of_rely fun s' hrely hinv => hnext a s' hinv (h s' hrely hinv)
  | op o next ih =>
    intro s₁ input s₂ a children hrely hinv hok hact
    obtain ⟨hchildren, hinv', hguar, hrest⟩ := h s₁ input s₂ a children hrely hinv hok hact
    exact ⟨hchildren, hinv', hguar, ih a hrest⟩

/-- The rule of consequence. -/
theorem mono {R : α → σ → Prop} (h : Upholds P label p s Q)
    (himp : ∀ a s', P.Inv s' → Q a s' → R a s') : Upholds P label p s R := by
  induction p generalizing s with
  | ret a => exact fun s' hrely hinv => himp a s' hinv (h s' hrely hinv)
  | op o next ih =>
    intro s₁ input s₂ a children hrely hinv hok hact
    obtain ⟨hchildren, hinv', hguar, hrest⟩ := h s₁ input s₂ a children hrely hinv hok hact
    exact ⟨hchildren, hinv', hguar, ih a hrest⟩

end Upholds

section System

variable (P : Protocol σ ι ℓ Op Res) (Post : ℓ → σ → Prop) (labels : List ℓ)

/-- Every thread of the system upholds the protocol, under a label of its own. -/
structure Upheld (sys : Sys σ ℓ Op Res) : Prop where
  inv : P.Inv sys.shared
  nodup : labels.Nodup
  labels : sys.threads.map Thread.label = labels
  threads : ∀ t ∈ sys.threads, Upholds P t.label t.prog sys.shared fun _ => Post t.label

/-- A move is admitted when the operation that it takes is. -/
def Admitted (sys : Sys σ ℓ Op Res) (i : ℕ) (input : ι) : Prop :=
  ∀ label o next, sys.threads[i]? = some ⟨label, .op o next⟩ → P.Ok o input sys.shared

variable {P Post labels} {sys : Sys σ ℓ Op Res} {input : ι} {i : ℕ}

/-- The move of a thread is admitted by its next operation. -/
theorem admitted_of_get {label : ℓ} {o : Op} {next : Res o → Prog Op Res Unit}
    (hget : sys.threads[i]? = some ⟨label, .op o next⟩) (hok : P.Ok o input sys.shared) :
    Admitted P sys i input := by
  intro label' o' next' hget'
  simp_all

/-- An admitted move upholds the protocol. -/
theorem Upheld.move (h : Upheld P Post labels sys)
    (hok : Admitted P sys i input) : Upheld P Post labels (step P.machine sys (.move i input)) := by
  rcases step_move P.machine sys i input with hsame |
    ⟨before, label, o, next, after, shared, a, children, hthreads, hi, hact, hstep⟩
  · rw [hsame]
    exact h
  · have hget : sys.threads[i]? = some ⟨label, .op o next⟩ := by
      simp_all
    have hself := h.threads ⟨label, .op o next⟩ (by simp [hthreads])
    obtain ⟨rfl, hinv, hguar, hrest⟩ := hself sys.shared input shared a children
      (P.rely_refl _ _) h.inv (hok label o next hget) hact
    have hlabels := h.labels
    rw [hthreads, List.map_append, List.map_cons] at hlabels
    have hnodup := h.nodup
    have hother : ∀ t ∈ before ++ after, label ≠ t.label := by
      grind
    have hothers : ∀ t ∈ before ++ after, Upholds P t.label t.prog shared fun _ =>
      Post t.label := by
      intro t ht
      refine (h.threads t ?_).rely (P.guar_rely (hother t ht) hguar)
      grind
    rw [hstep]
    refine ⟨hinv, h.nodup, ?_, fun t ht => ?_⟩
    · simp_all
    · grind

/-- A thread that has ended has its postcondition. -/
theorem Upheld.ended (h : Upheld P Post labels sys) {t : Thread ℓ Op Res} (ht : t ∈ sys.threads)
    (hend : t.prog.ended = true) : Post t.label sys.shared := by
  have hself := h.threads t ht
  obtain ⟨label, _ | ⟨o, next⟩⟩ := t
  · exact hself sys.shared (P.rely_refl _ _) h.inv
  · cases hend

/-- A thread that is stopped leaves the others upheld. -/
theorem Upheld.stop (h : Upheld P (fun _ _ => True) labels sys) (i : ℕ) :
    Upheld P (fun _ _ => True) labels (step P.machine sys (.stop i)) := by
  cases hthread : sys.threads[i]? with
  | none =>
    simp only [step, hthread]
    exact h
  | some t =>
    simp only [step, hthread]
    refine ⟨h.inv, h.nodup, ?_, fun t' ht' => ?_⟩
    · have hsame : (sys.threads.set i { t with prog := .ret () }).map Thread.label =
          sys.threads.map Thread.label := by
        rw [List.map_set]
        refine List.ext_getElem? fun j => ?_
        by_cases hj : i = j
        · grind
        · rw [List.getElem?_set_ne hj]
      rw [hsame]
      exact h.labels
    · rcases List.mem_or_eq_of_mem_set ht' with hold | rfl
      · exact h.threads t' hold
      · exact fun _ _ _ => trivial

end System

end Threads
