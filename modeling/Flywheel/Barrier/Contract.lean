import Mathlib.Data.List.Induction
import Flywheel.Barrier.Continuation
import Flywheel.Barrier.Statements

/-!
# The contract of the sessions that end jobs

For one parent and the children of its generation: while the barrier stands some child is pending
and no job holds the continuation's key, a job that has ended stays ended, and while a session holds
the lock of the parent's row no other ends a child. `Settled` says how a session may commit under
the contract. On SQLite the lock is that of the database, which a writer holds from its start.
-/

namespace Flywheel

open Relational Transition ReadCommitted Option Table

/-! ## The contract -/

/-- What a transaction that ends jobs keeps of a row: its payload, the columns that make it a child,
its key, and its end. -/
structure SameJob (r r' : JobRow) : Prop where
  kind : r'.kind = r.kind
  args : r'.args = r.args
  visible : r'.visible = r.visible
  parentJobID : r'.parentJobID = r.parentJobID
  uniqueKey : r'.uniqueKey = r.uniqueKey
  ended : r.state.isTerminal = true → r'.state.isTerminal = true

/-- A row is a version of itself. -/
theorem SameJob.refl (r : JobRow) : SameJob r r := ⟨rfl, rfl, rfl, rfl, rfl, id⟩

variable {r r' : JobRow} {p : String}

/-- A version of a version is one. -/
theorem SameJob.trans {r'' : JobRow} (h : SameJob r r') (h' : SameJob r' r'') : SameJob r r'' :=
  ⟨h'.kind.trans h.kind, h'.args.trans h.args, h'.visible.trans h.visible,
    h'.parentJobID.trans h.parentJobID, h'.uniqueKey.trans h.uniqueKey,
    fun hended => h'.ended (h.ended hended)⟩

/-- A job that is pending was pending in every earlier version. -/
theorem SameJob.pendingChild (h : SameJob r r') (hp : r'.pendingChildOf p = true) :
    r.pendingChildOf p = true := by
  simp only [JobRow.pendingChildOf, Bool.and_eq_true, decide_eq_true_eq, Bool.not_eq_true'] at hp ⊢
  refine ⟨⟨h.visible ▸ hp.1.1, h.parentJobID ▸ hp.1.2⟩, ?_⟩
  by_contra hended
  rw [h.ended (by simpa using hended)] at hp
  exact Bool.noConfusion hp.2

/-- A version in the same state is pending as before. -/
theorem SameJob.pendingChild_eq (h : SameJob r r') (hstate : r'.state = r.state) (p : String) :
    r'.pendingChildOf p = r.pendingChildOf p := by
  unfold JobRow.pendingChildOf
  rw [h.visible, h.parentJobID, hstate]

/-- A pending child that has not ended is pending still. -/
theorem SameJob.pending_of_open (h : SameJob r r') (hopen : r'.state.isTerminal = false)
    (hp : r.pendingChildOf p = true) : r'.pendingChildOf p = true := by
  simp only [JobRow.pendingChildOf, Bool.and_eq_true, Bool.not_eq_true', h.visible, h.parentJobID,
    hopen] at hp ⊢
  exact ⟨hp.1, trivial⟩

/-- The row is a continuation of `p`: it has the kind and arguments that the row `src` of `p` stores
in its barrier columns. -/
def Continuation (p : String) (src r : JobRow) : Prop :=
  ∃ spec, src.barrierKind = some r.kind ∧ src.barrierSpec = some spec ∧ r.args = spec.args ∧
    r.parentJobID = some p

/-- A later version of a continuation is one. -/
theorem Continuation.version {src : JobRow} (h : Continuation p src r) (hsame : SameJob r r') :
    Continuation p src r' := by
  obtain ⟨spec, hkind, hspec, hargs, hparent⟩ := h
  exact ⟨spec, hsame.kind ▸ hkind, hspec, hsame.args.trans hargs, hsame.parentJobID.trans hparent⟩

/-- The parent `p` and its generation in a committed table: the parent has ended, the children of
the generation are all its children but its continuation, and the barrier stands, as `src` declared
it, exactly while one of them is pending and no job holds the continuation's key. -/
structure Waits (p : String) (src : JobRow) (gen : String → Prop) (t : Table JobRow.id) : Prop where
  parent : ∃ r, t.get? p = some r ∧ r.visible = true ∧ r.state.isTerminal = true
  child : ∀ id, gen id → ∃ r, t.get? id = some r ∧ r.parentJobID = some p
  children : ∀ id r, t.get? id = some r → r.visible = true → r.parentJobID = some p →
    gen id ∨ r.uniqueKey = some (barrierKey p)
  pending : Declares (t.get? p) ↔ ∃ id, gen id ∧ PendingChild p (t.get? id)
  key : Declares (t.get? p) ↔ ∀ id r, t.get? id = some r → r.uniqueKey ≠ some (barrierKey p)
  declared : Declares (t.get? p) → ∃ r, t.get? p = some r ∧ r.barrierKind = src.barrierKind ∧
    r.barrierSpec = src.barrierSpec
  continuation : ∀ id r, t.get? id = some r → r.uniqueKey = some (barrierKey p) →
    Continuation p src r

/-- What other sessions may commit while a session holds the locks `h`. -/
structure Spares (d : Dialect) (p : String) (gen : String → Prop) (h : Set Lock)
    (t t' : Table JobRow.id) : Prop where
  locked : ∀ id, rowLock d id ∈ h → t'.get? id = t.get? id
  rows : ∀ id r, t.get? id = some r → ∃ r', t'.get? id = some r' ∧ SameJob r r'
  fired : ¬ Declares (t.get? p) → ¬ Declares (t'.get? p)
  -- a barrier that has fired inserts nothing more
  spent : ¬ Declares (t.get? p) → ∀ id r', t.get? id = none → t'.get? id = some r' →
    r'.uniqueKey ≠ some (barrierKey p)
  -- no other session ends a child of the generation while this one checks
  checked : rowLock d p ∈ h → Declares (t.get? p) →
    ∀ id, gen id → PendingChild p (t.get? id) → PendingChild p (t'.get? id)

/-- The contract of the sessions that end jobs. -/
def barrierContract (d : Dialect) (p : String) (src : JobRow) (gen : String → Prop) :
    Contract (Table JobRow.id) Lock where
  Good := Waits p src gen
  Rely := Spares d p gen
  refl _ _ := by
    refine ⟨fun _ _ => rfl, fun _ r hr => ⟨r, hr, .refl r⟩, id, ?_, fun _ _ _ _ => id⟩
    simp_all
  trans := by
    intro h a b c hab hbc
    refine ⟨?_, ?_, fun hno => hbc.fired (hab.fired hno), ?_, ?_⟩
    · exact fun id hid => (hbc.locked id hid).trans (hab.locked id hid)
    · intro id r hr
      obtain ⟨r', hr', hsame⟩ := hab.rows id r hr
      obtain ⟨r'', hr'', hsame'⟩ := hbc.rows id r' hr'
      exact ⟨r'', hr'', hsame.trans hsame'⟩
    · intro hno id r'' hnone hr''
      cases hb : b.get? id with
      | none => exact hbc.spent (hab.fired hno) id r'' hb hr''
      | some r' =>
        obtain ⟨s, hs, hsame⟩ := hbc.rows id r' hb
        obtain rfl : s = r'' := some_inj.mp (hs.symm.trans hr'')
        rw [hsame.uniqueKey]
        exact hab.spent hno id r' hnone hb
    · intro hlock hdeclares id hid hp
      have hdeclares' : Declares (b.get? p) := by rwa [hab.locked p hlock]
      exact hbc.checked hlock hdeclares' id hid (hab.checked hlock hdeclares id hid hp)

variable {id : String}

/-- The generation's children that are pending in a table were so before what others committed. -/
theorem Spares.pendingChild {d : Dialect} {gen : String → Prop} {h : Set Lock}
    {t t' : Table JobRow.id} (hrely : Spares d p gen h t t') (hgood : Waits p src gen t)
    (hid : gen id) (hp : PendingChild p (t'.get? id)) : PendingChild p (t.get? id) := by
  obtain ⟨r, hr, -⟩ := hgood.child id hid
  obtain ⟨r', hr', hsame⟩ := hrely.rows id r hr
  obtain ⟨s, hs, hpending⟩ := hp
  obtain rfl : r' = s := some_inj.mp (hr'.symm.trans hs)
  exact ⟨r, hr, hsame.pendingChild hpending⟩

/-- The rest of a transaction that ends jobs keeps the contract. -/
abbrev BarrierSafe (d : Dialect) (p : String) (src : JobRow) (gen : String → Prop) (tx : JobTx)
    (t : Table JobRow.id) (ws : List JobRow) (h : Set Lock) : Prop :=
  Safe (barrierContract d p src gen) Table.put tx t ws h

/-! ## A session's writes -/

/-- The rows that a session sees. -/
abbrev seen (t : Table JobRow.id) (ws : List JobRow) : Table JobRow.id := view Table.put t ws

/-- What is seen after one write more. -/
theorem seen_snoc (t : Table JobRow.id) (ws : List JobRow) (r : JobRow) (id : String) :
    (seen t (ws ++ [r])).get? id = if r.id = id then some r else (seen t ws).get? id := by
  unfold seen
  rw [view_snoc, get?_put]

/-- A session sees its own last version of a row that it has written, whatever is committed, and the
committed version of any other. -/
theorem seen_get? (ws : List JobRow) (id : String) :
    ((∀ r ∈ ws, r.id ≠ id) ∧ ∀ t, (seen t ws).get? id = t.get? id) ∨
      ∃ r ∈ ws, r.id = id ∧ ∀ t, (seen t ws).get? id = some r := by
  induction ws using List.reverseRecOn with
  | nil => exact .inl ⟨by simp, fun t => rfl⟩
  | append_singleton ws r ih =>
    by_cases hr : r.id = id
    · exact .inr ⟨r, by simp, hr, fun t => by rw [seen_snoc, if_pos hr]⟩
    · rcases ih with ⟨hws, hsame⟩ | ⟨s, hs, hid, hseen⟩
      · refine .inl ⟨?_, fun t => by rw [seen_snoc, if_neg hr, hsame]⟩
        intro s hs
        grind
      · exact .inr ⟨s, by simp [hs], hid, fun t => by rw [seen_snoc, if_neg hr, hseen]⟩

/-- A row that is seen is committed, or the session's own. -/
theorem seen_cases {t : Table JobRow.id} {ws : List JobRow} (hr : (seen t ws).get? id = some r) :
    t.get? id = some r ∨ r ∈ ws ∧ r.id = id := by
  rcases seen_get? ws id with ⟨-, hseen⟩ | ⟨s, hs, hid, hseen⟩
  · exact .inl ((hseen t).symm.trans hr)
  · simp_all

section Session

variable {d : Dialect} {p : String} {src : JobRow} {gen : String → Prop} {t t' : Table JobRow.id}
  {ws : List JobRow} {h : Set Lock}

/-- A session's writes: each is of a row whose lock it holds, and a version of the committed row; a
new row is no child of `p` but its continuation. -/
structure Wrote (d : Dialect) (p : String) (src : JobRow) (t : Table JobRow.id) (ws : List JobRow)
    (h : Set Lock) : Prop where
  writer : d = .sqlite → Lock.database ∈ h
  locks : ∀ r ∈ ws, rowLock d r.id ∈ h
  old : ∀ r ∈ ws, ∀ r₀, t.get? r.id = some r₀ → SameJob r₀ r
  new : ∀ r ∈ ws, t.get? r.id = none → r.parentJobID = some p → r.uniqueKey = some (barrierKey p)
  continuation : ∀ r ∈ ws, t.get? r.id = none → r.uniqueKey = some (barrierKey p) →
    Continuation p src r

/-- The session has not written the row of `p`, nor inserted its continuation. -/
def Unchecked (p : String) (t : Table JobRow.id) (ws : List JobRow) : Prop :=
  ∀ r ∈ ws, r.id ≠ p ∧ (r.uniqueKey = some (barrierKey p) → t.get? r.id ≠ none)

/-- How a session may commit: the barrier has fired before, or it ends no child of the generation,
or it holds the parent's lock and sees a child pending, or it holds the lock and fires. -/
inductive Settled (d : Dialect) (p : String) (gen : String → Prop) (t : Table JobRow.id)
    (ws : List JobRow) (h : Set Lock) : Prop where
  | moot (undeclared : ¬ Declares (t.get? p)) (unchecked : Unchecked p t ws)
  | quiet (unchecked : Unchecked p t ws)
      (kept : ∀ id, gen id → PendingChild p (t.get? id) → PendingChild p ((seen t ws).get? id))
  | waits (lock : rowLock d p ∈ h) (unchecked : Unchecked p t ws)
      (pending : ∃ id, gen id ∧ PendingChild p ((seen t ws).get? id))
  | fires (lock : rowLock d p ∈ h) (standing : Declares (t.get? p))
      (ended : ∀ id, gen id → ¬ PendingChild p ((seen t ws).get? id))
      (cleared : ¬ Declares ((seen t ws).get? p))
      (key : ∃ id r, (seen t ws).get? id = some r ∧ r.uniqueKey = some (barrierKey p))

/-- A committed job is seen, in a later version at most. -/
theorem Wrote.seen_old (hw : Wrote d p src t ws h) {r₀ : JobRow} (hr₀ : t.get? id = some r₀) :
    ∃ r, (seen t ws).get? id = some r ∧ SameJob r₀ r := by
  rcases seen_get? ws id with ⟨-, hseen⟩ | ⟨r, hr, rfl, hseen⟩
  · exact ⟨r₀, (hseen t).trans hr₀, .refl r₀⟩
  · exact ⟨r, hseen t, hw.old r hr r₀ hr₀⟩

/-- A child that is seen pending is pending in the committed table. -/
theorem Wrote.seen_pending (hw : Wrote d p src t ws h) (hgood : Waits p src gen t) (hid : gen id)
    (hp : PendingChild p ((seen t ws).get? id)) : PendingChild p (t.get? id) := by
  obtain ⟨r₀, hr₀, -⟩ := hgood.child id hid
  obtain ⟨r, hr, hsame⟩ := hw.seen_old hr₀
  obtain ⟨s, hs, hpending⟩ := hp
  obtain rfl : r = s := some_inj.mp (hr.symm.trans hs)
  exact ⟨r₀, hr₀, hsame.pendingChild hpending⟩

/-- Before its check a session sees the parent as it is committed. -/
theorem Unchecked.seen_parent (hu : Unchecked p t ws) (t' : Table JobRow.id) :
    (seen t' ws).get? p = t'.get? p := by
  rcases seen_get? ws p with ⟨-, hseen⟩ | ⟨r, hr, hid, -⟩
  · exact hseen t'
  · exact absurd hid (hu r hr).1

/-! ## What others commit -/

section

variable (hrely : Spares d p gen h t t')

include hrely

/-- The session's writes are as legal over what the others commit. -/
theorem Wrote.rely (hw : Wrote d p src t ws h) : Wrote d p src t' ws h where
  writer := hw.writer
  locks := hw.locks
  old r hr r₀ hr₀ := hw.old r hr r₀ (by rwa [hrely.locked _ (hw.locks r hr)] at hr₀)
  new r hr hnone := hw.new r hr (by rwa [hrely.locked _ (hw.locks r hr)] at hnone)
  continuation r hr hnone := hw.continuation r hr (by rwa [hrely.locked _ (hw.locks r hr)] at hnone)

/-- Whatever the others commit, no check has run. -/
theorem Unchecked.rely (hu : Unchecked p t ws) : Unchecked p t' ws := by
  intro r hr
  refine ⟨(hu r hr).1, fun hkey hnone => ?_⟩
  obtain ⟨r₀, hr₀⟩ := ne_none_iff_exists'.mp ((hu r hr).2 hkey)
  obtain ⟨r', hr', -⟩ := hrely.rows _ r₀ hr₀
  rw [hnone] at hr'
  cases hr'

/-- A child that a session has not ended stays pending in what it sees, while it is pending in what
others commit. -/
theorem seen_pending_rely (hgood : Waits p src gen t)
    (hkept : ∀ id, gen id → PendingChild p (t.get? id) → PendingChild p ((seen t ws).get? id))
      (hid : gen id) (hp : PendingChild p (t'.get? id)) :
    PendingChild p ((seen t' ws).get? id) := by
  have hold := hkept id hid (hrely.pendingChild hgood hid hp)
  rcases seen_get? ws id with ⟨-, hseen⟩ | ⟨r, -, -, hseen⟩
  · rwa [hseen]
  · rwa [hseen, ← hseen t]

/-- A child that is seen ended is so over what the others commit. -/
theorem seen_ended_rely (hgood : Waits p src gen t) (hid : gen id)
    (hended : ¬ PendingChild p ((seen t ws).get? id)) :
    ¬ PendingChild p ((seen t' ws).get? id) := by
  intro hp
  refine hended ?_
  rcases seen_get? ws id with ⟨-, hseen⟩ | ⟨r, -, -, hseen⟩
  · rw [hseen] at hp ⊢
    exact hrely.pendingChild hgood hid hp
  · rwa [hseen, ← hseen t']

/-- A key that is seen taken is so over what the others commit. -/
theorem seen_keyed_rely {key : String}
    (hkeyed : ∃ id r, (seen t ws).get? id = some r ∧ r.uniqueKey = some key) :
    ∃ id r, (seen t' ws).get? id = some r ∧ r.uniqueKey = some key := by
  obtain ⟨id, r, hr, hkey⟩ := hkeyed
  rcases seen_get? ws id with ⟨-, hseen⟩ | ⟨s, -, -, hseen⟩
  · rw [hseen] at hr
    obtain ⟨r', hr', hsame⟩ := hrely.rows id r hr
    exact ⟨id, r', (hseen t').trans hr', hsame.uniqueKey.trans hkey⟩
  · grind

/-- What is settled stays so, whatever the others commit. -/
theorem Settled.rely (hs : Settled d p gen t ws h) (hgood : Waits p src gen t) :
    Settled d p gen t' ws h := by
  cases hs with
  | moot hno hu => exact .moot (hrely.fired hno) (hu.rely hrely)
  | quiet hu hkept =>
    exact .quiet (hu.rely hrely) fun id hid hp => seen_pending_rely hrely hgood hkept hid hp
  | waits hlock hu hpending =>
    refine .waits hlock (hu.rely hrely) ?_
    obtain ⟨id, hid, hp⟩ := hpending
    refine ⟨id, hid, ?_⟩
    rcases seen_get? ws id with ⟨-, hseen⟩ | ⟨r, -, -, hseen⟩
    · -- the child is another session's to end, and no other checks meanwhile
      rw [hseen] at hp ⊢
      exact hrely.checked hlock (hgood.pending.mpr ⟨id, hid, hp⟩) id hid hp
    · rwa [hseen, ← hseen t]
  | fires hlock hstanding hended hcleared hkey =>
    refine .fires hlock (by rwa [hrely.locked p hlock])
      (fun id hid => seen_ended_rely hrely hgood hid (hended id hid)) ?_
      (seen_keyed_rely hrely hkey)
    intro hdeclares
    refine hcleared ?_
    rcases seen_get? ws p with ⟨-, hseen⟩ | ⟨r, -, -, hseen⟩
    · simp_all
    · rwa [hseen, ← hseen t']

end

/-! ## The commit -/

/-- Before its check a session sees the key free exactly when it is. -/
theorem Wrote.seen_key (hw : Wrote d p src t ws h) (hu : Unchecked p t ws) :
    (∀ id r, (seen t ws).get? id = some r → r.uniqueKey ≠ some (barrierKey p)) ↔
      ∀ id r, t.get? id = some r → r.uniqueKey ≠ some (barrierKey p) := by
  constructor
  · intro hfree id r₀ hr₀ hkey
    obtain ⟨r, hr, hsame⟩ := hw.seen_old hr₀
    exact hfree id r hr (hsame.uniqueKey.trans hkey)
  · intro hfree id r hr hkey
    rcases seen_get? ws id with ⟨-, hseen⟩ | ⟨s, hs, rfl, hseen⟩
    · exact hfree id r ((hseen t).symm.trans hr) hkey
    · obtain rfl : s = r := some_inj.mp ((hseen t).symm.trans hr)
      obtain ⟨r₀, hr₀⟩ := ne_none_iff_exists'.mp ((hu s hs).2 hkey)
      exact hfree _ r₀ hr₀ ((hw.old s hs r₀ hr₀).uniqueKey.symm.trans hkey)

/-- The children that are seen are of the generation, or the continuation. -/
theorem Wrote.seen_children (hw : Wrote d p src t ws h) (hgood : Waits p src gen t)
    (hr : (seen t ws).get? id = some r) (hvisible : r.visible = true)
    (hparent : r.parentJobID = some p) : gen id ∨ r.uniqueKey = some (barrierKey p) := by
  rcases seen_get? ws id with ⟨-, hseen⟩ | ⟨s, hs, rfl, hseen⟩
  · exact hgood.children id r ((hseen t).symm.trans hr) hvisible hparent
  · obtain rfl : s = r := some_inj.mp ((hseen t).symm.trans hr)
    cases hr₀ : t.get? s.id with
    | none => exact .inr (hw.new s hs hr₀ hparent)
    | some r₀ =>
      have hsame := hw.old s hs r₀ hr₀
      rw [hsame.uniqueKey]
      exact hgood.children _ r₀ hr₀ (hsame.visible ▸ hvisible) (hsame.parentJobID ▸ hparent)

/-- Who is seen to hold the key is the continuation. -/
theorem Wrote.seen_continuation (hw : Wrote d p src t ws h) (hgood : Waits p src gen t)
    (hr : (seen t ws).get? id = some r) (hkey : r.uniqueKey = some (barrierKey p)) :
    Continuation p src r := by
  rcases seen_get? ws id with ⟨-, hseen⟩ | ⟨s, hs, rfl, hseen⟩
  · exact hgood.continuation id r ((hseen t).symm.trans hr) hkey
  · obtain rfl : s = r := some_inj.mp ((hseen t).symm.trans hr)
    cases hr₀ : t.get? s.id with
    | none => exact hw.continuation s hs hr₀ hkey
    | some r₀ =>
      have hsame := hw.old s hs r₀ hr₀
      exact (hgood.continuation _ r₀ hr₀ (hsame.uniqueKey ▸ hkey)).version hsame

/-- A parent whose barrier is seen standing is as committed. -/
theorem Settled.seen_declared (hs : Settled d p gen t ws h)
    (hdeclares : Declares ((seen t ws).get? p)) : (seen t ws).get? p = t.get? p := by
  cases hs with
  | moot _ hu | quiet hu | waits _ hu => exact hu.seen_parent t
  | fires hlock hstanding hended hcleared hkey => exact absurd hdeclares hcleared

section Commit

variable (hs : Settled d p gen t ws h) (hw : Wrote d p src t ws h) (hgood : Waits p src gen t)

include hs hw hgood

/-- After a settled session's commit the barrier stands exactly while a child is pending, and
exactly while no job holds its key. -/
theorem Settled.stands_iff :
    (Declares ((seen t ws).get? p) ↔ ∃ id, gen id ∧ PendingChild p ((seen t ws).get? id)) ∧
      (Declares ((seen t ws).get? p) ↔
        ∀ id r, (seen t ws).get? id = some r → r.uniqueKey ≠ some (barrierKey p)) := by
  have hback : (∃ id, gen id ∧ PendingChild p ((seen t ws).get? id)) →
      ∃ id, gen id ∧ PendingChild p (t.get? id) := fun ⟨id, hid, hp⟩ =>
    ⟨id, hid, hw.seen_pending hgood hid hp⟩
  cases hs with
  | moot hno hu =>
    rw [hu.seen_parent t, hw.seen_key hu]
    exact ⟨iff_of_false hno fun hp => hno (hgood.pending.mpr (hback hp)), hgood.key⟩
  | quiet hu hkept =>
    rw [hu.seen_parent t, hw.seen_key hu]
    refine ⟨hgood.pending.trans ⟨fun ⟨id, hid, hp⟩ => ⟨id, hid, hkept id hid hp⟩, hback⟩, hgood.key⟩
  | waits hlock hu hp =>
    rw [hu.seen_parent t, hw.seen_key hu]
    exact ⟨iff_of_true (hgood.pending.mpr (hback hp)) hp, hgood.key⟩
  | fires hlock hstanding hended hcleared hkey => simp_all

/-- The commit of a settled session keeps the contract. -/
theorem Settled.waits_commit : Waits p src gen (seen t ws) where
  parent := by
    obtain ⟨r₀, hr₀, hvisible, hended⟩ := hgood.parent
    obtain ⟨r, hr, hsame⟩ := hw.seen_old hr₀
    exact ⟨r, hr, hsame.visible.trans hvisible, hsame.ended hended⟩
  child id hid := by
    obtain ⟨r₀, hr₀, hparent⟩ := hgood.child id hid
    obtain ⟨r, hr, hsame⟩ := hw.seen_old hr₀
    exact ⟨r, hr, hsame.parentJobID.trans hparent⟩
  children _ _ hr hvisible hparent := hw.seen_children hgood hr hvisible hparent
  pending := (hs.stands_iff hw hgood).1
  key := (hs.stands_iff hw hgood).2
  declared hdeclares := by
    have hsame := hs.seen_declared hdeclares
    rw [hsame] at hdeclares ⊢
    exact hgood.declared hdeclares
  continuation _ _ hr hkey := hw.seen_continuation hgood hr hkey

/-- A settled session may commit. -/
theorem Settled.safe : BarrierSafe d p src gen .commit t ws h := by
  intro t' hgood' hrely
  have hs := hs.rely hrely hgood
  have hw := hw.rely hrely
  have hafter := hs.waits_commit hw hgood'
  refine ⟨hafter, fun h' hdisjoint => ⟨?_, fun id r hr => hw.seen_old hr, ?_, ?_, ?_⟩⟩
  · intro id hid
    rcases seen_get? ws id with ⟨-, hseen⟩ | ⟨r, hr, rfl, -⟩
    · exact hseen t'
    · exact absurd hid (Set.disjoint_left.mp hdisjoint (hw.locks r hr))
  · intro hno hdeclares
    obtain ⟨id, hid, hp⟩ := hafter.pending.mp hdeclares
    exact hno (hgood'.pending.mpr ⟨id, hid, hw.seen_pending hgood' hid hp⟩)
  · intro hno id r hnone hr hkey
    obtain ⟨hmem, rfl⟩ : r ∈ ws ∧ r.id = id := by
      rcases seen_cases hr with hold | hown
      · simp_all
      · exact hown
    cases hs with
    | moot _ hu | quiet hu | waits _ hu => exact (hu r hmem).2 hkey hnone
    | fires _ hstanding => exact hno hstanding
  · intro hlock' hdeclares id hid hp
    -- a session without the parent's lock has ended no child
    cases hs with
    | moot hno => exact absurd hdeclares hno
    | quiet hu hkept => exact hkept id hid hp
    | waits hlock | fires hlock => exact absurd hlock' (Set.disjoint_left.mp hdisjoint hlock)

end Commit

end Session

end Flywheel
