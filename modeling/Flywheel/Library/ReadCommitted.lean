import Mathlib.Data.Set.Lattice
import Mathlib.Logic.Relation
import Mathlib.Order.CompletePartialOrder

/-!
# Transactions at READ COMMITTED

Any number of sessions run transactions against one store, statement by statement. A read sees the
last committed store with the session's own writes on it, so that two reads of one transaction may
differ; a lock is exclusive, is waited for, and is held to the end of the transaction; a write is
the session's own until its commit. A program is the tree of a transaction's statements.

The proof rule is rely and guarantee. A contract says what every committed store satisfies, and
what the other sessions may commit while a session holds some locks. `Safe` says of a program that
it ends in a commit which keeps the contract, whatever the others commit meanwhile in accordance
with it; a system whose programs are all safe keeps the contract in every run (`Upheld.run`).
The threads of `Flywheel.Library.RelyGuarantee` share every operation's effect at once; here only
commits are shared, and the rely depends on the locks held.
-/

namespace ReadCommitted

/-- A transaction as its session runs it, over stores `σ`, writes `ω` and locks `ℓ`. -/
inductive Prog (σ ω ℓ : Type) where
  | commit
  | rollback
  /-- A statement's snapshot. -/
  | read (next : σ → Prog σ ω ℓ)
  /-- An exclusive lock, waited for. -/
  | lock (l : ℓ) (next : Prog σ ω ℓ)
  /-- An exclusive lock if no other session holds it: `SKIP LOCKED`. -/
  | tryLock (l : ℓ) (next : Bool → Prog σ ω ℓ)
  | write (w : ω) (next : Prog σ ω ℓ)

variable {σ ω ℓ : Type}

/-- A session inside a transaction: what it has left to run, what it has written, and its locks. -/
structure Session (σ ω ℓ : Type) where
  prog : Prog σ ω ℓ
  written : List ω
  held : Set ℓ

/-- The committed store, the sessions, and the commits so far, each with the store before and after
it. -/
structure System (σ ω ℓ : Type) where
  committed : σ
  sessions : ℕ → Option (Session σ ω ℓ) := fun _ => none
  log : List (σ × σ) := []

/-- The locks that the sessions other than `i` hold. -/
def System.others (sys : System σ ω ℓ) (i : ℕ) : Set ℓ :=
  {l | ∃ j t, j ≠ i ∧ sys.sessions j = some t ∧ l ∈ t.held}

/-- A store with a session's writes on it, in their order. -/
def view (apply : σ → ω → σ) (s : σ) (ws : List ω) : σ := ws.foldl apply s

variable (apply : σ → ω → σ)

@[simp]
theorem view_nil (s : σ) : view apply s [] = s := rfl

@[simp]
theorem view_snoc (s : σ) (ws : List ω) (w : ω) :
    view apply s (ws ++ [w]) = apply (view apply s ws) w := by
  unfold view
  rw [List.foldl_append]
  rfl

/-- One statement of a session, over the committed store and the locks of the others. -/
inductive Advance (apply : σ → ω → σ) (s : σ) (others : Set ℓ) :
    Session σ ω ℓ → Session σ ω ℓ → Prop where
  | read (next : σ → Prog σ ω ℓ) (ws : List ω) (h : Set ℓ) :
      Advance apply s others ⟨.read next, ws, h⟩ ⟨next (view apply s ws), ws, h⟩
  | lock (l : ℓ) (next : Prog σ ω ℓ) (ws : List ω) (h : Set ℓ) (free : l ∉ others) :
      Advance apply s others ⟨.lock l next, ws, h⟩ ⟨next, ws, insert l h⟩
  | locked (l : ℓ) (next : Bool → Prog σ ω ℓ) (ws : List ω) (h : Set ℓ) (free : l ∉ others) :
      Advance apply s others ⟨.tryLock l next, ws, h⟩ ⟨next true, ws, insert l h⟩
  | skipped (l : ℓ) (next : Bool → Prog σ ω ℓ) (ws : List ω) (h : Set ℓ) (taken : l ∈ others) :
      Advance apply s others ⟨.tryLock l next, ws, h⟩ ⟨next false, ws, h⟩
  | write (w : ω) (next : Prog σ ω ℓ) (ws : List ω) (h : Set ℓ) :
      Advance apply s others ⟨.write w next, ws, h⟩ ⟨next, ws ++ [w], h⟩

/-- One step of the system. A transaction starts with the locks that are its own from the start, and
may end without a commit at any time: by its own rollback, an error, a deadlock or a lost
connection. -/
inductive Step (apply : σ → ω → σ) (allowed : σ → Set ℓ → Prog σ ω ℓ → Prop) :
    System σ ω ℓ → System σ ω ℓ → Prop where
  | start {sys : System σ ω ℓ} (i : ℕ) (own : Set ℓ) (p : Prog σ ω ℓ) (idle : sys.sessions i = none)
      (free : Disjoint own (sys.others i)) (ok : allowed sys.committed own p) :
      Step apply allowed sys
        { sys with sessions := Function.update sys.sessions i (some ⟨p, [], own⟩) }
  | advance {sys : System σ ω ℓ} (i : ℕ) (t t' : Session σ ω ℓ) (running : sys.sessions i = some t)
      (adv : Advance apply sys.committed (sys.others i) t t') :
      Step apply allowed sys { sys with sessions := Function.update sys.sessions i (some t') }
  | commit {sys : System σ ω ℓ} (i : ℕ) (ws : List ω) (h : Set ℓ)
      (running : sys.sessions i = some ⟨.commit, ws, h⟩) :
      Step apply allowed sys
        { committed := view apply sys.committed ws
          sessions := Function.update sys.sessions i none
          log := sys.log ++ [(sys.committed, view apply sys.committed ws)] }
  | abort {sys : System σ ω ℓ} (i : ℕ) (t : Session σ ω ℓ) (running : sys.sessions i = some t) :
      Step apply allowed sys { sys with sessions := Function.update sys.sessions i none }

/-- The runs of the system. -/
def Run (apply : σ → ω → σ) (allowed : σ → Set ℓ → Prog σ ω ℓ → Prop) :
    System σ ω ℓ → System σ ω ℓ → Prop :=
  Relation.ReflTransGen (Step apply allowed)

/-! ## Rely and guarantee -/

/-- A contract between sessions: what every committed store satisfies, and what others may commit
while a session holds the locks `h`. -/
structure Contract (σ ℓ : Type) where
  Good : σ → Prop
  Rely : Set ℓ → σ → σ → Prop
  refl : ∀ h s, Rely h s s
  trans : ∀ {h a b c}, Rely h a b → Rely h b c → Rely h a c

/-- The rest of a transaction keeps the contract, from the committed store `s`, with the writes `ws`
and the locks `h`, whatever others commit in accordance with it. -/
def Safe (C : Contract σ ℓ) (apply : σ → ω → σ) : Prog σ ω ℓ → σ → List ω → Set ℓ → Prop
  | .commit, s, ws, h => ∀ s', C.Good s' → C.Rely h s s' →
      C.Good (view apply s' ws) ∧ ∀ h', Disjoint h h' → C.Rely h' s' (view apply s' ws)
  | .rollback, _, _, _ => True
  | .read next, s, ws, h => ∀ s', C.Good s' → C.Rely h s s' →
      Safe C apply (next (view apply s' ws)) s' ws h
  | .lock l next, s, ws, h => ∀ s', C.Good s' → C.Rely h s s' → Safe C apply next s' ws (insert l h)
  | .tryLock l next, s, ws, h => ∀ s', C.Good s' → C.Rely h s s' →
      Safe C apply (next true) s' ws (insert l h) ∧ Safe C apply (next false) s' ws h
  | .write w next, s, ws, h => Safe C apply next s (ws ++ [w]) h

variable {ws : List ω} {t t' : Session σ ω ℓ} {s : σ} {apply : σ → ω → σ} {C : Contract σ ℓ}
  {others : Set ℓ}

/-- What others commit leaves a safe transaction safe. -/
theorem Safe.rely {p : Prog σ ω ℓ} {s' : σ} {h : Set ℓ}
    (hsafe : Safe C apply p s ws h) (hrely : C.Rely h s s') : Safe C apply p s' ws h := by
  induction p generalizing ws with
  | rollback => trivial
  | write w next ih => exact ih hsafe
  | _ => exact fun s'' hgood hrely' => hsafe s'' hgood (C.trans hrely hrely')

/-- A property of a session that survives what others commit, and further locks. -/
structure Lasting (C : Contract σ ℓ) (I : σ → List ω → Set ℓ → Prop) : Prop where
  rely : ∀ {s s' ws h}, I s ws h → C.Good s' → C.Rely h s s' → I s' ws h
  lock : ∀ {s ws h} l, I s ws h → I s ws (insert l h)

/-- A read of a session that keeps such a property. -/
theorem safe_read {I : σ → List ω → Set ℓ → Prop} (hI : Lasting C I) {h : Set ℓ}
    {next : σ → Prog σ ω ℓ} (hs : I s ws h)
    (hnext : ∀ s', I s' ws h → Safe C apply (next (view apply s' ws)) s' ws h) :
    Safe C apply (.read next) s ws h :=
  fun s' hgood hrely => hnext s' (hI.rely hs hgood hrely)

/-- A lock of a session that keeps such a property. -/
theorem safe_lock {I : σ → List ω → Set ℓ → Prop} (hI : Lasting C I) {h : Set ℓ} {l : ℓ}
    {next : Prog σ ω ℓ} (hs : I s ws h)
    (hnext : ∀ s', I s' ws (insert l h) → Safe C apply next s' ws (insert l h)) :
    Safe C apply (.lock l next) s ws h :=
  fun s' hgood hrely => hnext s' (hI.lock l (hI.rely hs hgood hrely))

/-- The contract is upheld: the committed store is good, every session is safe, and no two sessions
hold one lock. -/
structure Upheld (C : Contract σ ℓ) (apply : σ → ω → σ) (sys : System σ ω ℓ) : Prop where
  good : C.Good sys.committed
  safe : ∀ i t, sys.sessions i = some t → Safe C apply t.prog sys.committed t.written t.held
  apart : ∀ i j t u, i ≠ j → sys.sessions i = some t → sys.sessions j = some u →
    Disjoint t.held u.held

theorem Advance.safe (h : Advance apply s others t t')
    (hgood : C.Good s) (hsafe : Safe C apply t.prog s t.written t.held) :
    Safe C apply t'.prog s t'.written t'.held := by
  cases h with
  | read | lock => exact hsafe s hgood (C.refl _ _)
  | locked => exact (hsafe s hgood (C.refl _ _)).1
  | skipped => exact (hsafe s hgood (C.refl _ _)).2
  | write => exact hsafe

theorem Advance.held (h : Advance apply s others t t') :
    ∀ l ∈ t'.held, l ∈ t.held ∨ l ∉ others := by
  intro l hl
  cases h with
  | lock | locked => grind
  | _ => exact .inl hl

section Run

variable {C : Contract σ ℓ} {apply : σ → ω → σ} {allowed : σ → Set ℓ → Prog σ ω ℓ → Prop}
  {sys sys' : System σ ω ℓ} {i : ℕ}

/-- A session that is safe, with locks that no other holds, may take a place. -/
theorem Upheld.set (h : Upheld C apply sys)
    (hsafe : Safe C apply t.prog sys.committed t.written t.held)
    (hfree : Disjoint t.held (sys.others i)) :
    Upheld C apply { sys with sessions := Function.update sys.sessions i (some t) } := by
  have hapart : ∀ j u, j ≠ i → sys.sessions j = some u → Disjoint t.held u.held := by
    intro j u hj hu
    rw [Set.disjoint_left] at hfree ⊢
    exact fun l hl hlu => hfree hl ⟨j, u, hj, hu, hlu⟩
  have hget : ∀ j u, Function.update sys.sessions i (some t) j = some u →
      j = i ∧ u = t ∨ j ≠ i ∧ sys.sessions j = some u := by
    intro j u hu
    by_cases hj : j = i
    · simp_all
    · simp_all
  refine ⟨h.good, ?_, ?_⟩
  · intro j u hu
    rcases hget j u hu with ⟨-, rfl⟩ | ⟨-, hu⟩
    · exact hsafe
    · exact h.safe j u hu
  · intro j k u v hjk hu hv
    rcases hget j u hu with ⟨rfl, rfl⟩ | ⟨hj, hu'⟩ <;>
      rcases hget k v hv with ⟨rfl, rfl⟩ | ⟨hk, hv'⟩
    · exact absurd rfl hjk
    · exact hapart k v hk hv'
    · exact (hapart j u hj hu').symm
    · exact h.apart j k u v hjk hu' hv'

theorem Upheld.unset (h : Upheld C apply sys) {log : List (σ × σ)} (hgood : C.Good s)
    (hrely : ∀ j u, j ≠ i → sys.sessions j = some u → C.Rely u.held sys.committed s) :
    Upheld C apply { committed := s, sessions := Function.update sys.sessions i none, log } := by
  have hget : ∀ j u, Function.update sys.sessions i none j = some u →
      j ≠ i ∧ sys.sessions j = some u := by
    intro j u hu
    by_cases hj : j = i
    · simp_all
    · simp_all
  refine ⟨hgood, ?_, ?_⟩
  · intro j u hu
    obtain ⟨hj, hu⟩ := hget j u hu
    exact (h.safe j u hu).rely (hrely j u hj hu)
  · intro j k u v hjk hu hv
    exact h.apart j k u v hjk (hget j u hu).2 (hget k v hv).2

section

variable (hstart : ∀ s own p, allowed s own p → C.Good s → Safe C apply p s [] own)

include hstart

/-- A step of a system whose programs are all safe upholds the contract, and either commits nothing
or commits in accordance with it. -/
theorem Upheld.step (h : Upheld C apply sys) (hstep : Step apply allowed sys sys') :
    Upheld C apply sys' ∧ (sys'.committed = sys.committed ∧ sys'.log = sys.log ∨
        sys'.log = sys.log ++ [(sys.committed, sys'.committed)] ∧
          C.Rely ∅ sys.committed sys'.committed) := by
  cases hstep with
  | start i own p idle free ok => exact ⟨h.set (hstart _ _ _ ok h.good) free, .inl ⟨rfl, rfl⟩⟩
  | advance i t t' running adv =>
    refine ⟨h.set (adv.safe h.good (h.safe i t running)) ?_, .inl ⟨rfl, rfl⟩⟩
    rw [Set.disjoint_left]
    intro l hl hothers
    rcases adv.held l hl with hheld | hfree
    · obtain ⟨j, u, hj, hu, hlu⟩ := hothers
      exact Set.disjoint_left.mp (h.apart j i u t hj hu running) hlu hheld
    · exact hfree hothers
  | commit i ws held running =>
    obtain ⟨hgood, hguarantee⟩ := h.safe i _ running sys.committed h.good (C.refl _ _)
    refine ⟨h.unset hgood fun j u hj hu => ?_, .inr ⟨rfl, ?_⟩⟩
    · exact hguarantee _ (h.apart i j _ u hj.symm running hu)
    · exact hguarantee ∅ (Set.disjoint_empty held)
  | abort i t running =>
    exact ⟨h.unset h.good fun _ _ _ _ => C.refl _ _, .inl ⟨rfl, rfl⟩⟩

/-- A run of a system whose programs are all safe upholds the contract, and what every commit in
accordance with the contract keeps of the log, the run keeps. -/
theorem Upheld.run {Q : List (σ × σ) → σ → Prop}
    (hcommit : ∀ log s s', C.Good s → C.Good s' → C.Rely ∅ s s' → Q log s → Q (log ++ [(s, s')]) s')
    (h : Upheld C apply sys) (hQ : Q sys.log sys.committed) (hrun : Run apply allowed sys sys') :
    Upheld C apply sys' ∧ Q sys'.log sys'.committed := by
  induction hrun with
  | refl => exact ⟨h, hQ⟩
  | tail _ hstep ih =>
    obtain ⟨hup, hQ⟩ := ih
    obtain ⟨hup', hsame | ⟨hlog, hrely⟩⟩ := hup.step hstart hstep
    · simp_all
    · rw [hlog]
      exact ⟨hup', hcommit _ _ _ hup.good hup'.good hrely hQ⟩

end

theorem Upheld.start (hgood : C.Good s) : Upheld C apply ({ committed := s } : System σ ω ℓ) := by
  refine ⟨hgood, ?_, ?_⟩
  · intro i t ht
    cases ht
  · simp_all

end Run

/-! ## A transaction that runs alone -/

/-- What a transaction commits when no other runs: its writes, or nothing when it rolls back. -/
def Prog.alone (apply : σ → ω → σ) (s : σ) : Prog σ ω ℓ → List ω → Option (List ω)
  | .commit, ws => some ws
  | .rollback, _ => none
  | .read next, ws => (next (view apply s ws)).alone apply s ws
  | .lock _ next, ws => next.alone apply s ws
  | .tryLock _ next, ws => (next true).alone apply s ws
  | .write w next, ws => next.alone apply s (ws ++ [w])

/-- A system with one session. -/
def System.lone (s : σ) (t : Session σ ω ℓ) (log : List (σ × σ)) : System σ ω ℓ :=
  { committed := s, sessions := Function.update (fun _ => none) 0 (some t), log }

@[simp]
theorem System.lone_session (s : σ) (t : Session σ ω ℓ) (log : List (σ × σ)) :
    (System.lone s t log).sessions 0 = some t := by
  unfold System.lone
  simp_all

theorem System.lone_others (s : σ) (t : Session σ ω ℓ) (log : List (σ × σ)) (l : ℓ) :
    l ∉ (System.lone s t log).others 0 := by
  rintro ⟨j, u, hj, hu, -⟩
  unfold System.lone at hu
  simp_all

section Alone

variable {apply : σ → ω → σ} {allowed : σ → Set ℓ → Prog σ ω ℓ → Prop} {s : σ} {log : List (σ × σ)}
  {p : Prog σ ω ℓ}

theorem System.lone_step (h : Advance apply s ((System.lone s t log).others 0) t t') :
    Step apply allowed (System.lone s t log) (System.lone s t' log) := by
  have hstep : Step apply allowed (System.lone s t log) _ :=
    .advance 0 t t' (System.lone_session s t log) h
  unfold System.lone at hstep ⊢
  simp_all

/-- A lone session can run to its end. -/
theorem Prog.alone_run {ws' : List ω} (h : p.alone apply s ws = some ws') (held : Set ℓ) :
    Run apply allowed (System.lone s ⟨p, ws, held⟩ log)
      { committed := view apply s ws', log := log ++ [(s, view apply s ws')] } := by
  induction p generalizing ws held with
  | commit =>
    obtain rfl := Option.some_inj.mp h
    have hstep : Step apply allowed (System.lone s ⟨.commit, ws, held⟩ log) _ :=
      .commit 0 ws held (System.lone_session _ _ _)
    refine .single ?_
    unfold System.lone at hstep ⊢
    simp_all
  | rollback => cases h
  | read next ih => exact .head (System.lone_step (.read _ _ _)) (ih _ h held)
  | lock l next ih =>
    exact .head (System.lone_step (.lock _ _ _ _ (System.lone_others _ _ _ _))) (ih h _)
  | tryLock l next ih =>
    exact .head (System.lone_step (.locked _ _ _ _ (System.lone_others _ _ _ _))) (ih _ h _)
  | write w next ih => exact .head (System.lone_step (.write _ _ _ _)) (ih h _)

theorem Prog.alone_commits {own : Set ℓ} (hallowed : allowed s own p)
    (h : p.alone apply s [] = some ws) : Run apply allowed { committed := s, log }
      { committed := view apply s ws, log := log ++ [(s, view apply s ws)] } := by
  refine .head (.start 0 own p rfl ?_ hallowed) (Prog.alone_run h own)
  rw [Set.disjoint_left]
  rintro l - ⟨j, u, -, hu, -⟩
  cases hu

end Alone

end ReadCommitted
