import Mathlib.Algebra.BigOperators.Group.List.Basic
import Mathlib.Tactic.Abel
import Flywheel.Library.History

/-!
# Threads over atomic operations

A program calls atomic operations on a state that it shares with other threads, and reads their
results; between two calls any other thread may move. A machine says what each operation does, from
an input that stands for everything the program does not decide: the answer of a service, the
reading of a clock, whether a wait ends. A history is a list of events, and the machine's step is
total: an operation that cannot be taken yet leaves the system as it is.

`Owns` is the rule for what threads hold of a counted resource. Every thread's share is accounted
for, an operation moves shares between the state, the thread and the threads that it starts, and a
thread that has ended holds nothing.
-/

namespace Threads

open List

variable {σ ι Op ℓ α β : Type} {Res : Op → Type}

/-- A program of atomic operations. -/
inductive Prog (Op : Type) (Res : Op → Type) (α : Type) where
  | ret (a : α)
  | op (o : Op) (next : Res o → Prog Op Res α)

namespace Prog

/-- One program after another. -/
def bind : Prog Op Res α → (α → Prog Op Res β) → Prog Op Res β
  | .ret a, f => f a
  | .op o next, f => .op o fun a => (next a).bind f

instance : Monad (Prog Op Res) where
  pure := .ret
  bind := Prog.bind

@[simp]
theorem pure_eq (a : α) : (Pure.pure a : Prog Op Res α) = .ret a := rfl

@[simp]
theorem ret_bind (a : α) (f : α → Prog Op Res β) : (Prog.ret a >>= f) = f a := rfl

@[simp]
theorem op_bind (o : Op) (next : Res o → Prog Op Res α) (f : α → Prog Op Res β) :
    (Prog.op o next >>= f) = .op o fun a => next a >>= f := rfl

/-- A single operation. -/
def call (o : Op) : Prog Op Res (Res o) := .op o .ret

@[simp]
theorem call_bind (o : Op) (f : Res o → Prog Op Res β) :
    ((call o : Prog Op Res (Res o)) >>= f) = .op o f := rfl

/-- Whether a program has ended. -/
def ended : Prog Op Res α → Bool
  | .ret _ => true
  | .op .. => false

end Prog

/-- A thread: its program, under a label that says what it is. -/
structure Thread (ℓ Op : Type) (Res : Op → Type) where
  label : ℓ
  prog : Prog Op Res Unit

/-- Programs as threads, each under its place as its label. -/
def numbered (progs : List (Prog Op Res Unit)) : List (Thread ℕ Op Res) :=
  progs.zipIdx.map fun (p, i) => ⟨i, p⟩

/-- Threads are labelled by their places. -/
theorem numbered_labels (progs : List (Prog Op Res Unit)) :
    (numbered progs).map Thread.label = List.range progs.length := by
  rw [numbered, map_map, range_eq_range', ← zipIdx_map_snd 0 progs]
  rfl

/-- What each operation does with an input: the new state, the result, and the threads that it
starts; or nothing, while it has to wait. -/
def Machine (σ ι ℓ Op : Type) (Res : Op → Type) : Type :=
  (o : Op) → ι → σ → Option (σ × Res o × List (Thread ℓ Op Res))

/-- The shared state and the threads. -/
structure Sys (σ ℓ Op : Type) (Res : Op → Type) where
  shared : σ
  threads : List (Thread ℓ Op Res) := []

/-- What happens next: a thread moves, a thread is started, or a thread is cut off. -/
inductive Event (ι ℓ Op : Type) (Res : Op → Type) where
  | move (i : ℕ) (input : ι)
  | spawn (t : Thread ℓ Op Res)
  | stop (i : ℕ)

/-- The system after one event. -/
def step (m : Machine σ ι ℓ Op Res) (sys : Sys σ ℓ Op Res) : Event ι ℓ Op Res → Sys σ ℓ Op Res
  | .move i input =>
    match sys.threads[i]? with
    | some ⟨label, .op o next⟩ =>
      match m o input sys.shared with
      | some (shared, a, children) =>
        { shared, threads := sys.threads.set i ⟨label, next a⟩ ++ children }
      | none => sys
    | _ => sys
  | .spawn t => { sys with threads := sys.threads ++ [t] }
  | .stop i =>
    match sys.threads[i]? with
    | some t => { sys with threads := sys.threads.set i { t with prog := .ret () } }
    | none => sys

/-- What a move can do: nothing, or one operation of one thread. -/
theorem step_move (m : Machine σ ι ℓ Op Res) (sys : Sys σ ℓ Op Res) (i : ℕ) (input : ι) :
    step m sys (.move i input) = sys ∨ ∃ before label o next after shared a children,
        sys.threads = before ++ ⟨label, .op o next⟩ :: after ∧ before.length = i ∧
        m o input sys.shared = some (shared, a, children) ∧
        step m sys (.move i input) =
          { shared, threads := before ++ ⟨label, next a⟩ :: after ++ children } := by
  cases hthread : sys.threads[i]? with
  | none => exact .inl (by simp only [step, hthread])
  | some t =>
    obtain ⟨label, _ | ⟨o, next⟩⟩ := t
    · exact .inl (by simp only [step, hthread])
    · cases hact : m o input sys.shared with
      | none => exact .inl (by simp only [step, hthread, hact])
      | some r =>
        obtain ⟨shared, a, children⟩ := r
        obtain ⟨hi, hget⟩ := List.getElem?_eq_some_iff.mp hthread
        have hsplit : sys.threads = sys.threads.take i ++ ⟨label, .op o next⟩ ::
            sys.threads.drop (i + 1) := by
          rw [← hget, cons_getElem_drop_succ, take_append_drop]
        refine .inr ⟨sys.threads.take i, label, o, next, sys.threads.drop (i + 1), shared, a,
          children, hsplit, length_take_of_le (Nat.le_of_lt hi), hact, ?_⟩
        simp only [step, hthread, hact, set_eq_take_append_cons_drop, hi, if_true,
          append_assoc, cons_append]

/-! ## Ownership -/

section Ownership

variable {R : Type} [AddCommMonoid R] (m : Machine σ ι ℓ Op Res) (Inv : σ → R → Prop)
  (Child : Thread ℓ Op Res → R → Prop) (Need : R → Prop)

/-- From a share `r`, the program keeps the accounts in order whatever the other threads hold, meets
`Need` as long as it runs, starts only threads that own what they are given, and ends with a share
that `Q` holds of. -/
def Owns : Prog Op Res α → R → (α → R → Prop) → Prop
  | .ret a, r, Q => Q a r
  | .op o next, r, Q => Need r ∧
      ∀ rest input s s' a children, Inv s (r + rest) → m o input s = some (s', a, children) →
        ∃ r' given, List.Forall₂ Child children given ∧ Inv s' (r' + given.sum + rest) ∧
          Owns (next a) r' Q

variable {m Inv Child Need} {Q : α → R → Prop}

/-- The rule of sequence. -/
theorem Owns.bind {p : Prog Op Res α} {f : α → Prog Op Res β} {r : R}
    {P : β → R → Prop} (h : Owns m Inv Child Need p r Q)
    (hnext : ∀ a r', Q a r' → Owns m Inv Child Need (f a) r' P) :
    Owns m Inv Child Need (p >>= f) r P := by
  induction p generalizing r with
  | ret a => exact hnext a r h
  | op o next ih =>
    refine ⟨h.1, fun rest input s s' a children hinv hact => ?_⟩
    obtain ⟨r', given, hgiven, hinv', hrest⟩ := h.2 rest input s s' a children hinv hact
    exact ⟨r', given, hgiven, hinv', ih a hrest⟩

/-- The rule of one operation. -/
theorem Owns.op {o : Op} {next : Res o → Prog Op Res α} {r : R} (hneed : Need r)
    (h : ∀ rest input s s' a children, Inv s (r + rest) → m o input s = some (s', a, children) →
      children = [] ∧ ∃ r', Inv s' (r' + rest) ∧ Owns m Inv Child Need (next a) r' Q) :
    Owns m Inv Child Need (.op o next) r Q := by
  refine ⟨hneed, fun rest input s s' a children hinv hact => ?_⟩
  obtain ⟨rfl, r', hinv', hrest⟩ := h rest input s s' a children hinv hact
  exact ⟨r', [], .nil, by simpa using hinv', hrest⟩

end Ownership

theorem forall₂_split {γ δ : Type} {S : γ → δ → Prop} {before after : List γ} {x : γ} {ys : List δ}
    (h : List.Forall₂ S (before ++ x :: after) ys) :
    ∃ front y back, ys = front ++ y :: back ∧ List.Forall₂ S before front ∧ S x y ∧
      List.Forall₂ S after back := by
  induction before generalizing ys with
  | nil =>
    obtain ⟨y, back, hxy, hback, rfl⟩ := forall₂_cons_left_iff.mp h
    exact ⟨[], y, back, rfl, .nil, hxy, hback⟩
  | cons b before ih =>
    obtain ⟨c, ys, hbc, hrest, rfl⟩ := forall₂_cons_left_iff.mp h
    obtain ⟨front, y, back, rfl, hfront, hxy, hback⟩ := ih hrest
    exact ⟨c :: front, y, back, rfl, .cons hbc hfront, hxy, hback⟩

section Accounts

variable {R : Type} [AddCommMonoid R] (m : Machine σ ι ℓ Op Res) (Inv : σ → R → Prop)
  (Need : ℓ → R → Prop) (Child : Thread ℓ Op Res → R → Prop)

/-- A thread with its share. -/
def Holds (t : Thread ℓ Op Res) (r : R) : Prop :=
  Owns m Inv Child (Need t.label) t.prog r fun _ r => r = 0

/-- Every thread's share is accounted for. -/
def Accounted (sys : Sys σ ℓ Op Res) : Prop :=
  ∃ shares, List.Forall₂ (Holds m Inv Need Child) sys.threads shares ∧ Inv sys.shared shares.sum

variable {m Inv Need Child}

variable {sys : Sys σ ℓ Op Res}

/-- A move keeps the accounts. -/
theorem Accounted.move (hchild : ∀ t r, Child t r → Holds m Inv Need Child t r)
    (h : Accounted m Inv Need Child sys) (i : ℕ) (input : ι) :
    Accounted m Inv Need Child (step m sys (.move i input)) := by
  rcases step_move m sys i input with hsame |
    ⟨before, label, o, next, after, shared, a, children, hthreads, -, hact, hstep⟩
  · rw [hsame]
    exact h
  · obtain ⟨shares, hshares, hinv⟩ := h
    rw [hthreads] at hshares
    obtain ⟨front, r, back, rfl, hfront, hholds, hback⟩ := forall₂_split hshares
    -- the thread's own share, beside those of the others
    have hsum : (front ++ r :: back).sum = r + (front.sum + back.sum) := by
      rw [sum_append, sum_cons, add_left_comm]
    rw [hsum] at hinv
    obtain ⟨r', given, hgiven, hinv', howns⟩ :=
      hholds.2 (front.sum + back.sum) input _ _ _ _ hinv hact
    rw [hstep]
    refine ⟨front ++ r' :: back ++ given, ?_, ?_⟩
    · have hnext : Holds m Inv Need Child ⟨label, next a⟩ r' := howns
      exact rel_append (rel_append hfront (.cons hnext hback)) (hgiven.imp hchild)
    · grind

/-- A thread that needs nothing to start keeps the accounts. -/
theorem Accounted.spawn (h : Accounted m Inv Need Child sys) {t : Thread ℓ Op Res}
    (ht : Holds m Inv Need Child t 0) : Accounted m Inv Need Child (step m sys (.spawn t)) := by
  obtain ⟨shares, hshares, hinv⟩ := h
  refine ⟨shares ++ [0], rel_append hshares (.cons ht .nil), ?_⟩
  rw [sum_append, sum_singleton, add_zero]
  exact hinv

/-- Once all have ended nothing is owned. -/
theorem Accounted.ended (h : Accounted m Inv Need Child sys)
    (hended : ∀ t ∈ sys.threads, t.prog.ended = true) : Inv sys.shared 0 := by
  obtain ⟨shares, hshares, hinv⟩ := h
  have hzero : shares.sum = 0 := by
    clear hinv
    generalize sys.threads = threads at hshares hended
    induction hshares with
    | nil => rfl
    | @cons t r ts rs ht _ ih =>
      have htail := ih fun t' ht' => hended t' (mem_cons_of_mem _ ht')
      have hr : r = 0 := by
        have hend := hended t mem_cons_self
        obtain ⟨label, _ | ⟨o, next⟩⟩ := t
        · exact ht
        · cases hend
      rw [sum_cons, hr, htail, add_zero]
  rwa [hzero] at hinv

end Accounts

end Threads
