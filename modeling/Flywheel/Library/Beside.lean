import Flywheel.Library.ReadCommitted

/-!
# One transaction beside the others

The history of one session: its own statements, and between any two of them whatever the other
sessions commit in accordance with a contract. The others are not programs here but the stores that
they commit, so that a statement about every history is one about arbitrary other writers.

`Fulfils` says of a program that each of its commits, whatever the others commit before it, meets a
postcondition on the store it is applied to and the writes it applies (`Lives.fulfils`). An
invariant of the session is carried from statement to statement by the rules for a `Lasting` one.
-/

namespace ReadCommitted

variable {σ ω ℓ : Type}

/-- The histories of a session: the stores that the others have committed so far, in their order,
with the committed store and the session at the start and now. -/
inductive Lives (C : Contract σ ℓ) (apply : σ → ω → σ) (s : σ) (t : Session σ ω ℓ) :
    List σ → σ → Session σ ω ℓ → Prop where
  | start : Lives C apply s t [] s t
  | others {commits : List σ} {now next : σ} {u : Session σ ω ℓ}
      (before : Lives C apply s t commits now u) (good : C.Good next)
      (rely : C.Rely u.held now next) : Lives C apply s t (commits ++ [next]) next u
  | statement {commits : List σ} {now : σ} {u u' : Session σ ω ℓ}
      (before : Lives C apply s t commits now u) (others : Set ℓ)
      (adv : Advance apply now others u u') : Lives C apply s t commits now u'

variable {commits : List σ} {t : Session σ ω ℓ} {now : σ} {apply : σ → ω → σ} {C : Contract σ ℓ}

/-- Until a session commits, the committed store is what the last of the others has left. -/
theorem Lives.committed {s : σ} {u : Session σ ω ℓ}
    (h : Lives C apply s t commits now u) : now = commits.getLastD s := by
  induction h with
  | start => rfl
  | others _ _ _ _ => simp
  | statement _ _ _ ih => exact ih

/-- Each commit of the rest of a transaction, from the committed store `s`, with the writes `ws` and
the locks `h`, meets the postcondition, whatever others commit in accordance with the contract. -/
def Fulfils (C : Contract σ ℓ) (apply : σ → ω → σ) (Post : σ → List ω → Prop) :
    Prog σ ω ℓ → σ → List ω → Set ℓ → Prop
  | .commit, s, ws, h => ∀ s', C.Good s' → C.Rely h s s' → Post s' ws
  | .rollback, _, _, _ => True
  | .read next, s, ws, h => ∀ s', C.Good s' → C.Rely h s s' →
      Fulfils C apply Post (next (view apply s' ws)) s' ws h
  | .lock l next, s, ws, h => ∀ s', C.Good s' → C.Rely h s s' →
      Fulfils C apply Post next s' ws (insert l h)
  | .tryLock l next, s, ws, h => ∀ s', C.Good s' → C.Rely h s s' →
      Fulfils C apply Post (next true) s' ws (insert l h) ∧ Fulfils C apply Post
        (next false) s' ws h
  | .write w next, s, ws, h => Fulfils C apply Post next s (ws ++ [w]) h

section Fulfils

variable {C : Contract σ ℓ} {apply : σ → ω → σ} {Post : σ → List ω → Prop} {p : Prog σ ω ℓ}
  {s s' : σ} {ws : List ω} {h : Set ℓ}

/-- What others commit changes nothing about what a transaction fulfils. -/
theorem Fulfils.rely (hp : Fulfils C apply Post p s ws h) (hrely : C.Rely h s s') :
    Fulfils C apply Post p s' ws h := by
  induction p generalizing ws with
  | rollback => trivial
  | write w next ih => exact ih hp
  | _ => exact fun s'' hgood hrely' => hp s'' hgood (C.trans hrely hrely')

/-- A step of a session leaves it fulfilling what it did. -/
theorem Advance.fulfils {others : Set ℓ} {t' : Session σ ω ℓ} (hadv : Advance apply s others t t')
    (hgood : C.Good s) (hp : Fulfils C apply Post t.prog s t.written t.held) :
    Fulfils C apply Post t'.prog s t'.written t'.held := by
  cases hadv with
  | read | lock => exact hp s hgood (C.refl _ _)
  | locked => exact (hp s hgood (C.refl _ _)).1
  | skipped => exact (hp s hgood (C.refl _ _)).2
  | write => exact hp

/-- A session that comes to its commit has what it is to meet. -/
theorem Lives.fulfils (hlives : Lives C apply s t commits now ⟨.commit, ws, h⟩) (hgood : C.Good s)
    (hp : Fulfils C apply Post t.prog s t.written t.held) : Post now ws := by
  -- the committed store stays good, and what is left to run fulfils the postcondition
  have hinv : ∀ {commits : List σ} {now : σ} {u : Session σ ω ℓ}, Lives C apply s t commits now u →
      C.Good now ∧ Fulfils C apply Post u.prog now u.written u.held := by
    intro commits now u hlives
    induction hlives with
    | start => exact ⟨hgood, hp⟩
    | others _ hgood' hrely ih => exact ⟨hgood', ih.2.rely hrely⟩
    | statement _ others hadv ih => exact ⟨ih.1, hadv.fulfils ih.1 ih.2⟩
  obtain ⟨hgood', hp'⟩ := hinv hlives
  exact hp' now hgood' (C.refl _ _)

variable {I : σ → List ω → Set ℓ → Prop}

/-- The commit rule. -/
theorem fulfils_commit (hI : Lasting C I) (hs : I s ws h)
    (hpost : ∀ s h, C.Good s → I s ws h → Post s ws) :
    Fulfils C apply Post (.commit : Prog σ ω ℓ) s ws h :=
  fun s' hgood hrely => hpost s' h hgood (hI.rely hs hgood hrely)

/-- The rule of a read. -/
theorem fulfils_read (hI : Lasting C I) (hs : I s ws h) {next : σ → Prog σ ω ℓ}
    (hnext : ∀ s, C.Good s → I s ws h → Fulfils C apply Post (next (view apply s ws)) s ws h) :
    Fulfils C apply Post (.read next) s ws h :=
  fun s' hgood hrely => hnext s' hgood (hI.rely hs hgood hrely)

/-- The rule of a lock. -/
theorem fulfils_lock (hI : Lasting C I) (hs : I s ws h) {l : ℓ} {next : Prog σ ω ℓ}
    (hnext : ∀ s, I s ws (insert l h) → Fulfils C apply Post next s ws (insert l h)) :
    Fulfils C apply Post (.lock l next) s ws h :=
  fun s' hgood hrely => hnext s' (hI.lock l (hI.rely hs hgood hrely))

end Fulfils

theorem Lives.of_alone {s : σ} {p : Prog σ ω ℓ}
    {ws ws' : List ω} {held : Set ℓ} (hlives : Lives C apply s t commits now ⟨p, ws, held⟩)
    (halone : p.alone apply now ws = some ws') :
    ∃ held', Lives C apply s t commits now ⟨.commit, ws', held'⟩ := by
  induction p generalizing ws held with
  | commit =>
    cases halone
    exact ⟨held, hlives⟩
  | rollback => cases halone
  | read next ih => exact ih _ (hlives.statement ∅ (.read _ _ _)) halone
  | lock l next ih => exact ih (hlives.statement ∅ (.lock _ _ _ _ (Set.notMem_empty l))) halone
  | tryLock l next ih =>
    exact ih _ (hlives.statement ∅ (.locked _ _ _ _ (Set.notMem_empty l))) halone
  | write w next ih => exact ih (hlives.statement ∅ (.write _ _ _ _)) halone

end ReadCommitted
