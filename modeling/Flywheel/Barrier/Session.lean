import Flywheel.Barrier.Contract

/-!
# What a session keeps from statement to statement

A transaction ends children first (`Ends`) and runs its checks after (`Checks`). Each statement of
`Flywheel.Barrier.Statements` keeps these invariants, whatever others commit between its steps: the
rules below are for an arbitrary invariant that is `Lasting`, and the check of a parent has its own.
-/

namespace Flywheel

open Relational Transition ReadCommitted List Option Table

section Session

variable {d : Dialect} {p : String} {src : JobRow} {gen : String → Prop} {t t' : Table JobRow.id}
  {ws : List JobRow} {h : Set Lock}

/-! ## Invariants of a session -/

/-- The ids that a transaction mints from its `k`-th on are its own and unused. -/
def Unminted (d : Dialect) (ctx : Context) (k : ℕ) (t : Table JobRow.id) (ws : List JobRow)
    (h : Set Lock) : Prop :=
  ∀ j, k ≤ j → t.get? (ctx.newID j) = none ∧ (∀ r ∈ ws, r.id ≠ ctx.newID j) ∧
    rowLock d (ctx.newID j) ∈ h

/-- A session of a transaction that runs checks. While the check of `p` is to come (`b`) it has not
written the parent's row; after it, or without it, it may commit. -/
structure Checks (d : Dialect) (p : String) (src : JobRow) (gen : String → Prop) (ctx : Context)
    (k : ℕ) (b : Prop) (t : Table JobRow.id) (ws : List JobRow) (h : Set Lock) : Prop where
  good : Waits p src gen t
  wrote : Wrote d p src t ws h
  unminted : Unminted d ctx k t ws h
  unchecked : b → Unchecked p t ws
  settled : ¬ b → Settled d p gen t ws h

/-- A session before its checks: it has written new versions of committed rows other than the
parent's, and the children of the generation that it has ended are in `M`. -/
structure Ends (d : Dialect) (p : String) (src : JobRow) (gen : String → Prop)
    (ctx : Context) (k : ℕ)
    (M : String → Prop) (t : Table JobRow.id) (ws : List JobRow) (h : Set Lock) : Prop where
  good : Waits p src gen t
  wrote : Wrote d p src t ws h
  unminted : Unminted d ctx k t ws h
  versions : ∀ r ∈ ws, r.id ≠ p ∧ ∃ r₀, t.get? r.id = some r₀
  ended : ∀ id, gen id → ¬ M id → PendingChild p (t.get? id) → PendingChild p ((seen t ws).get? id)

variable {ctx : Context} {k : ℕ} {b : Prop} {M : String → Prop}

theorem Wrote.lock (hw : Wrote d p src t ws h) (l : Lock) : Wrote d p src t ws (insert l h) :=
  ⟨fun hd => Set.mem_insert_of_mem l (hw.writer hd),
    fun r hr => Set.mem_insert_of_mem l (hw.locks r hr), hw.old, hw.new, hw.continuation⟩

theorem Settled.lock (hs : Settled d p gen t ws h) (l : Lock) :
    Settled d p gen t ws (insert l h) := by
  cases hs with
  | moot hno hu => exact .moot hno hu
  | quiet hu hkept => exact .quiet hu hkept
  | waits hlock hu hp => exact .waits (Set.mem_insert_of_mem l hlock) hu hp
  | fires hlock hstanding hended hcleared hkey =>
    exact .fires (Set.mem_insert_of_mem l hlock) hstanding hended hcleared hkey

theorem Unminted.rely (hm : Unminted d ctx k t ws h) (hrely : Spares d p gen h t t') :
    Unminted d ctx k t' ws h := by
  intro j hj
  obtain ⟨hnone, hws, hlock⟩ := hm j hj
  exact ⟨(hrely.locked _ hlock).trans hnone, hws, hlock⟩

theorem Unminted.lock (hm : Unminted d ctx k t ws h) (l : Lock) :
    Unminted d ctx k t ws (insert l h) := fun j hj =>
  ⟨(hm j hj).1, (hm j hj).2.1, Set.mem_insert_of_mem l (hm j hj).2.2⟩

variable {r : JobRow} {k' : ℕ}

theorem Unminted.mono (hm : Unminted d ctx k t ws h) (hk : k ≤ k') :
    Unminted d ctx k' t ws h := fun j hj => hm j (le_trans hk hj)

theorem Checks.lasting : Lasting (barrierContract d p src gen) (Checks d p src gen ctx k b) where
  rely hc hgood hrely :=
    ⟨hgood, hc.wrote.rely hrely, hc.unminted.rely hrely, fun hb => (hc.unchecked hb).rely hrely,
      fun hb => (hc.settled hb).rely hrely hc.good⟩
  lock l hc :=
    ⟨hc.good, hc.wrote.lock l, hc.unminted.lock l, hc.unchecked, fun hb => (hc.settled hb).lock l⟩

theorem Ends.lasting : Lasting (barrierContract d p src gen) (Ends d p src gen ctx k M) where
  rely he hgood hrely :=
    { good := hgood
      wrote := he.wrote.rely hrely
      unminted := he.unminted.rely hrely
      versions := by
        intro r hr
        obtain ⟨hne, r₀, hr₀⟩ := he.versions r hr
        obtain ⟨r', hr', -⟩ := hrely.rows _ r₀ hr₀
        exact ⟨hne, r', hr'⟩
      ended := by
        intro id hid hM hp
        have hold := he.ended id hid hM (hrely.pendingChild he.good hid hp)
        rcases seen_get? _ id with ⟨-, hseen⟩ | ⟨r, -, -, hseen⟩
        · rwa [hseen]
        · rw [hseen] at hold ⊢
          exact hold }
  lock l he := ⟨he.good, he.wrote.lock l, he.unminted.lock l, he.versions, he.ended⟩

theorem Ends.unchecked (he : Ends d p src gen ctx k M t ws h) : Unchecked p t ws := by
  intro r hr
  obtain ⟨hne, r₀, hr₀⟩ := he.versions r hr
  simp_all

theorem Checks.mono (hc : Checks d p src gen ctx k b t ws h) (hk : k ≤ k') :
    Checks d p src gen ctx k' b t ws h := { hc with unminted := hc.unminted.mono hk }

theorem Ends.checks (he : Ends d p src gen ctx k M t ws h) (hM : ∀ id, gen id → M id → b) :
    Checks d p src gen ctx k b t ws h where
  good := he.good
  wrote := he.wrote
  unminted := he.unminted
  unchecked _ := he.unchecked
  settled hb := .quiet he.unchecked fun id hid hp =>
    he.ended id hid (fun hMid => hb (hM id hid hMid)) hp

/-! ## Writes -/

theorem Wrote.parent_ended (hw : Wrote d p src t ws h) (hgood : Waits p src gen t)
    (hr : (seen t ws).get? p = some r) : r.state.isTerminal = true := by
  obtain ⟨r₀, hr₀, -, hended⟩ := hgood.parent
  obtain ⟨r', hr', hsame⟩ := hw.seen_old hr₀
  obtain rfl : r' = r := some_inj.mp (hr'.symm.trans hr)
  exact hsame.ended hended

theorem Ends.seen_version (he : Ends d p src gen ctx k M t ws h) {id : String}
    (hr : (seen t ws).get? id = some r) : ∃ r₀, t.get? id = some r₀ ∧ SameJob r₀ r := by
  rcases seen_cases hr with hcommitted | ⟨hown, rfl⟩
  · exact ⟨r, hcommitted, .refl r⟩
  · obtain ⟨-, r₀, hr₀⟩ := he.versions r hown
    exact ⟨r₀, hr₀, he.wrote.old r hown r₀ hr₀⟩

theorem Wrote.snoc (hw : Wrote d p src t ws h) (hlock : rowLock d r.id ∈ h)
    (hold : ∀ r₀, t.get? r.id = some r₀ → SameJob r₀ r)
    (hnew : t.get? r.id = none → r.parentJobID = some p → r.uniqueKey = some (barrierKey p))
    (hcont : t.get? r.id = none → r.uniqueKey = some (barrierKey p) → Continuation p src r) :
    Wrote d p src t (ws ++ [r]) h where
  writer := hw.writer
  locks := by simpa [or_imp, forall_and] using ⟨hw.locks, hlock⟩
  old := by
    exact forall_mem_append.mpr ⟨hw.old, by simp_all⟩
  new := by
    exact forall_mem_append.mpr ⟨hw.new, by simp_all⟩
  continuation := by
    exact forall_mem_append.mpr ⟨hw.continuation, by simp_all⟩

theorem Unminted.snoc (hm : Unminted d ctx k t ws h) (hk : k ≤ k')
    (hid : ∀ j, k' ≤ j → r.id ≠ ctx.newID j) : Unminted d ctx k' t (ws ++ [r]) h := by
  intro j hj
  obtain ⟨hnone, hws, hlock⟩ := hm j (le_trans hk hj)
  grind

theorem Unchecked.snoc (hu : Unchecked p t ws) (hne : r.id ≠ p)
    (hkey : r.uniqueKey = some (barrierKey p) → t.get? r.id ≠ none) :
    Unchecked p t (ws ++ [r]) := by
  exact forall_mem_append.mpr ⟨hu, by simp_all⟩

/-- One more write, which ends no child of the generation and is not of the parent's row, leaves a
settled session settled. -/
theorem Settled.snoc (hs : Settled d p gen t ws h) (hne : r.id ≠ p)
    (hu : Unchecked p t ws → Unchecked p t (ws ++ [r]))
    (hpending : ∀ id, gen id → (PendingChild p ((seen t (ws ++ [r])).get? id) ↔
      PendingChild p ((seen t ws).get? id)))
    (hkey : ∀ s, (seen t ws).get? r.id = some s → r.uniqueKey = s.uniqueKey) :
    Settled d p gen t (ws ++ [r]) h := by
  cases hs with
  | moot hno hun => exact .moot hno (hu hun)
  | quiet hun hkept =>
    exact .quiet (hu hun) fun id hid hp => (hpending id hid).mpr (hkept id hid hp)
  | waits hlock hun hp =>
    obtain ⟨id, hid, hp⟩ := hp
    exact .waits hlock (hu hun) ⟨id, hid, (hpending id hid).mpr hp⟩
  | fires hlock hstanding hended hcleared hkeyed =>
    refine .fires hlock hstanding (fun id hid hp => hended id hid ((hpending id hid).mp hp)) ?_ ?_
    · rwa [seen_snoc, if_neg hne]
    · obtain ⟨id, s, hs, hsk⟩ := hkeyed
      by_cases hid : r.id = id
      · exact ⟨id, r, by rw [seen_snoc, if_pos hid], (hkey s (hid ▸ hs)).trans hsk⟩
      · exact ⟨id, s, by rw [seen_snoc, if_neg hid, hs], hsk⟩

/-- A write of the checks: a version of a row that the session sees, other than the parent's, in the
state that it has. -/
theorem Checks.version (hc : Checks d p src gen ctx k b t ws h) {r' : JobRow}
    (hr : (seen t ws).get? r'.id = some r) (hlock : rowLock d r'.id ∈ h) (hsame : SameJob r r')
    (hstate : r'.state = r.state) (hne : r'.id ≠ p) :
    Checks d p src gen ctx k b t (ws ++ [r']) h := by
  have hu : Unchecked p t ws → Unchecked p t (ws ++ [r']) := by
    refine fun hu => hu.snoc hne fun hkey => ?_
    rcases seen_cases hr with hr | ⟨hr, hid⟩
    · simp_all
    · rw [← hid]
      exact (hu r hr).2 (hsame.uniqueKey ▸ hkey)
  refine ⟨hc.good, ?_, ?_, fun hb => hu (hc.unchecked hb), fun hb => ?_⟩
  · have hown : t.get? r'.id = none → r ∈ ws ∧ t.get? r.id = none := by
      grind [seen_cases]
    refine hc.wrote.snoc hlock ?_ ?_ ?_
    · intro r₀ hr₀
      obtain ⟨s, hs, hsame'⟩ := hc.wrote.seen_old hr₀
      obtain rfl : s = r := some_inj.mp (hs.symm.trans hr)
      exact hsame'.trans hsame
    · intro hnone hparent
      obtain ⟨hmem, hnone⟩ := hown hnone
      rw [hsame.uniqueKey]
      exact hc.wrote.new r hmem hnone (hsame.parentJobID ▸ hparent)
    · intro hnone hkey
      obtain ⟨hmem, hnone⟩ := hown hnone
      exact (hc.wrote.continuation r hmem hnone (hsame.uniqueKey ▸ hkey)).version hsame
  · refine hc.unminted.snoc le_rfl fun j hj hid => ?_
    obtain ⟨hnone, hws, -⟩ := hc.unminted j hj
    rcases seen_cases hr with hr | ⟨hr, hid'⟩
    · simp_all
    · exact hws r hr (hid'.trans hid)
  · refine (hc.settled hb).snoc hne hu ?_ ?_
    · intro id _
      by_cases hid : r'.id = id
      · subst hid
        rw [seen_snoc, if_pos rfl, hr]
        simp [PendingChild, hsame.pendingChild_eq hstate]
      · rw [seen_snoc, if_neg hid]
    · intro s hs
      obtain rfl : s = r := some_inj.mp (hs.symm.trans hr)
      exact hsame.uniqueKey

/-- A write of the checks: a new row that is neither a child of `p` nor under the continuation's
key. -/
theorem Checks.insert (hc : Checks d p src gen ctx k b t ws h) (hinj : Function.Injective ctx.newID)
    (hid : r.id = ctx.newID k) (hparent : r.parentJobID ≠ some p)
    (hkey : r.uniqueKey ≠ some (barrierKey p)) :
    Checks d p src gen ctx (k + 1) b t (ws ++ [r]) h := by
  obtain ⟨hnone, hws, hlock⟩ := hc.unminted k le_rfl
  rw [← hid] at hnone hws hlock
  have hunseen : (seen t ws).get? r.id = none := by
    rcases seen_get? ws r.id with ⟨-, hseen⟩ | ⟨s, hs, hsid, -⟩
    · exact (hseen t).trans hnone
    · exact absurd hsid (hws s hs)
  have hne : r.id ≠ p := by
    obtain ⟨r₀, hr₀, -⟩ := hc.good.parent
    grind
  have hu : Unchecked p t ws → Unchecked p t (ws ++ [r]) :=
    fun hu => hu.snoc hne fun hk => absurd hk hkey
  refine ⟨hc.good, ?_, ?_, fun hb => hu (hc.unchecked hb), fun hb => ?_⟩
  · refine hc.wrote.snoc hlock ?_ (fun _ hp => absurd hp hparent) fun _ hk => absurd hk hkey
    simp_all
  · refine hc.unminted.snoc (Nat.le_succ k) fun j hj heq => ?_
    grind
  · refine (hc.settled hb).snoc hne hu ?_ ?_
    · intro id hgen
      obtain ⟨r₀, hr₀, -⟩ := hc.good.child id hgen
      rw [seen_snoc, if_neg]
      grind
    · simp_all

/-- A write before the checks: a version of a committed row other than the parent's, which is in `M`
if the version has ended. -/
theorem Ends.version (he : Ends d p src gen ctx k M t ws h) {r₀ : JobRow}
    (hr₀ : t.get? r.id = some r₀) (hlock : rowLock d r.id ∈ h) (hsame : SameJob r₀ r)
    (hne : r.id ≠ p) (hM : r.state.isTerminal = true → M r.id) :
    Ends d p src gen ctx k M t (ws ++ [r]) h where
  good := he.good
  wrote := by
    have hsome : t.get? r.id ≠ none := by
      simp_all
    refine he.wrote.snoc hlock ?_ (fun hnone => absurd hnone hsome) fun hnone => absurd hnone hsome
    simp_all
  unminted := by
    refine he.unminted.snoc le_rfl fun j hj hid => ?_
    rw [hid, (he.unminted j hj).1] at hr₀
    cases hr₀
  versions := by
    exact forall_mem_append.mpr ⟨he.versions, by simp_all⟩
  ended := by
    intro id hid hMid hp
    by_cases heq : r.id = id
    · subst heq
      obtain ⟨s, hs, hpending⟩ := hp
      obtain rfl : r₀ = s := some_inj.mp (hr₀.symm.trans hs)
      rw [seen_snoc, if_pos rfl]
      exact ⟨r, rfl, hsame.pending_of_open (Bool.eq_false_iff.mpr fun hend =>
        hMid (hM hend)) hpending⟩
    · rw [seen_snoc, if_neg heq]
      exact he.ended id hid hMid hp

/-! ## Rules for the statements -/

section Statements

variable {I : Table JobRow.id → List JobRow → Set Lock → Prop}

variable {next : List JobRow → JobTx} {ids : List String} {guard : Table JobRow.id → JobRow → Bool}

section Locked

variable {I : List JobRow → Table JobRow.id → List JobRow → Set Lock → Prop}
  (hI : ∀ rows, Lasting (barrierContract d p src gen) (I rows))
  (hrow : ∀ {rows t ws h r}, I rows t ws h → (seen t ws).get? r.id = some r →
    guard (seen t ws) r = true → I (rows ++ [r]) t ws h)
  (hnext : ∀ {rows t ws h}, I rows t ws h → BarrierSafe d p src gen (next rows) t ws h)

include hI hrow hnext

theorem safe_lockEach {rows : List JobRow} {t : Table JobRow.id} {h : Set Lock}
    (hsession : I rows t ws h) :
    BarrierSafe d p src gen (lockEach d guard ids rows next) t ws h := by
  induction ids generalizing rows t h with
  | nil => exact hnext hsession
  | cons id ids ih =>
    refine safe_lock (hI rows) hsession fun t₁ h₁ => safe_read (hI rows) h₁ fun t₂ h₂ => ?_
    cases hget : (seen t₂ ws).get? id with
    | none => exact ih h₂
    | some r =>
      obtain rfl : r.id = id := key_of_get? hget
      grind

theorem safe_selectForUpdate (hsession : I [] t ws h) :
    BarrierSafe d p src gen (selectForUpdate d guard next) t ws h :=
  safe_read (hI []) hsession fun _ h₁ => safe_lockEach hI hrow hnext h₁

end Locked

/-- The rows of a select that skips locked rows: each is the session's from then on. -/
theorem safe_lockFree {guard : JobRow → Bool}
    {I : List JobRow → Table JobRow.id → List JobRow → Set Lock → Prop}
    (hI : ∀ rows, Lasting (barrierContract d p src gen) (I rows))
    (hrow : ∀ {rows t ws h r}, I rows t ws h → rowLock d r.id ∈ h → (seen t ws).get? r.id = some r →
      guard r = true → I (rows ++ [r]) t ws h) (hnext : ∀ {rows t ws h}, I rows t ws h →
      BarrierSafe d p src gen (next rows) t ws h) {limit : ℕ}
    {rows : List JobRow} {t : Table JobRow.id} {h : Set Lock} (hsession : I rows t ws h) :
    BarrierSafe d p src gen (lockFree d guard ids limit rows next) t ws h := by
  induction ids generalizing rows limit t h with
  | nil => exact hnext hsession
  | cons id ids ih =>
    cases limit with
    | zero => exact hnext hsession
    | succ limit =>
      intro t₁ hgood hrely
      have h₁ := (hI rows).rely hsession hgood hrely
      refine ⟨safe_read (hI rows) ((hI rows).lock _ h₁) fun t₂ h₂ => ?_, ih h₁⟩
      cases hget : ((seen t₂ ws).get? id).filter guard with
      | none => exact ih h₂
      | some r =>
        obtain ⟨hr, hguard⟩ := filter_eq_some_iff.mp hget
        obtain rfl : r.id = id := key_of_get? hr
        exact ih (hrow h₂ (Set.mem_insert _ _) hr hguard)

section Updated

variable {f : Patch JobRow.id} {next : List String → JobTx}
  {I : List String → Table JobRow.id → List JobRow → Set Lock → Prop}
  (hI : ∀ moved, Lasting (barrierContract d p src gen) (I moved))
  (hwrite : ∀ {moved t ws h r}, I moved t ws h → rowLock d r.id ∈ h →
    (seen t ws).get? r.id = some r → guard (seen t ws) r = true →
    I (moved ++ [r.id]) t (ws ++ [f.apply r]) h) (hnext : ∀ {moved t ws h}, I moved t ws h →
    BarrierSafe d p src gen (next moved) t ws h)

include hI hwrite hnext

/-- The rows of an update, each changed under its lock if it still matches. -/
theorem safe_updateEach {moved : List String} {t : Table JobRow.id} {ws : List JobRow}
    {h : Set Lock} (hsession : I moved t ws h) :
    BarrierSafe d p src gen (updateEach d guard f ids moved next) t ws h := by
  induction ids generalizing moved t ws h with
  | nil => exact hnext hsession
  | cons id ids ih =>
    refine safe_lock (hI moved) hsession fun t₁ h₁ => safe_read (hI moved) h₁ fun t₂ h₂ => ?_
    cases hget : ((seen t₂ ws).get? id).filter (guard (seen t₂ ws)) with
    | none => exact ih h₂
    | some r =>
      obtain ⟨hr, hguard⟩ := filter_eq_some_iff.mp hget
      obtain rfl : r.id = id := key_of_get? hr
      exact ih (hwrite h₂ (Set.mem_insert _ _) hr hguard)

theorem safe_updateWhere (hsession : I [] t ws h) :
    BarrierSafe d p src gen (updateWhere d guard f next) t ws h :=
  safe_read (hI []) hsession fun _ h₁ => safe_updateEach hI hwrite hnext h₁

end Updated

end Statements

end Session

end Flywheel
