import Flywheel.Barrier.Session

/-!
# The check of a parent, statement by statement

`fireTx` in a session that has ended children. The check of another parent leaves the invariant of
the session as it is (`safe_fireTx_other`). The check of `p` settles it (`safe_fireTx_self`): it
finds no barrier, or it holds the lock of the parent's row when it counts, so that the children that
it sees pending or ended are pending or ended until it commits.
-/

namespace Flywheel

open Relational Transition ReadCommitted List Option Table

section Check

variable {d : Dialect} {p : String} {src : JobRow} {gen : String → Prop} {ctx : Context} {k : ℕ}
  {b : Prop}
  {t t' : Table JobRow.id} {ws : List JobRow} {h : Set Lock}

/-! ## Inserts -/

variable {row : JobRow} {next : JobTx} {spawnedBy : String}

variable {I : Table JobRow.id → List JobRow → Set Lock → Prop} {q id kind : String} {r : JobRow}
  {spec : BarrierSpec}

theorem safe_lockKey (hI : Lasting (barrierContract d p src gen) I) {key : Option String}
    (hsession : I t ws h) (hnext : ∀ {t h}, I t ws h → BarrierSafe d p src gen next t ws h) :
    BarrierSafe d p src gen (lockKey d key next) t ws h := by
  cases key with
  | none => exact hnext hsession
  | some key => exact safe_lock hI hsession fun _ h₁ => hnext h₁

/-- New rows that are neither children of `p` nor under the continuation's key. -/
theorem safe_insertEach (hinj : Function.Injective ctx.newID) {rows : List JobRow}
    (hrows : ∀ x ∈ rows.zipIdx k, x.1.id = ctx.newID x.2 ∧ x.1.parentJobID ≠ some p ∧
      x.1.uniqueKey ≠ some (barrierKey p))
    (hnext : ∀ {t ws h}, Checks d p src gen ctx (k + rows.length) b t ws h →
      BarrierSafe d p src gen next t ws h)
    (hc : Checks d p src gen ctx k b t ws h) :
    BarrierSafe d p src gen (insertEach d rows next) t ws h := by
  induction rows generalizing k t ws h with
  | nil => exact hnext hc
  | cons r rows ih =>
    obtain ⟨⟨hid, hparent, hkey⟩, hrest⟩ := forall_mem_cons.mp hrows
    have hnext' : ∀ {t ws h}, Checks d p src gen ctx (k + 1 + rows.length) b t ws h →
        BarrierSafe d p src gen next t ws h := by
      grind
    refine safe_lock Checks.lasting hc fun _ h₁ => safe_lockKey Checks.lasting h₁ fun h₂ =>
      safe_read Checks.lasting h₂ fun t₃ h₃ => ?_
    split_ifs with hconflicts
    · exact ih hrest hnext' (h₃.mono (Nat.le_succ k))
    · exact ih hrest hnext' (h₃.insert hinj hid hparent hkey)

/-! ## The check of another parent -/

theorem clearBarrier_sameJob (now : Time) (r : JobRow) : SameJob r ((clearBarrier now).apply r) :=
  ⟨rfl, rfl, rfl, rfl, rfl, id⟩

theorem barrierKey_injective : Function.Injective barrierKey := by
  intro q q' heq
  unfold barrierKey at heq
  simpa using heq

theorem safe_lockParent (hI : Lasting (barrierContract d p src gen) I) (hsession : I t ws h)
    (hwriter : d = .sqlite → Lock.database ∈ h)
    (hnext : ∀ {t h}, I t ws h → rowLock d q ∈ h → BarrierSafe d p src gen next t ws h) :
    BarrierSafe d p src gen (lockParent d q next) t ws h := by
  cases d with
  | postgres => exact safe_lock hI hsession fun _ h₁ => hnext h₁ (Set.mem_insert _ _)
  | sqlite => exact hnext hsession (hwriter rfl)

/-- The check of another parent than `p`. -/
theorem safe_fireTx_other (hinj : Function.Injective ctx.newID) (hq : q ≠ p)
    {next : Bool → JobTx} (hnext : ∀ {fired t ws h}, Checks d p src gen ctx (k + 1) b t ws h →
      BarrierSafe d p src gen (next fired) t ws h)
    (hc : Checks d p src gen ctx k b t ws h) :
    BarrierSafe d p src gen (fireTx d ctx k q spawnedBy next) t ws h := by
  have hidle : ∀ {t h}, Checks d p src gen ctx k b t ws h →
      BarrierSafe d p src gen (next false) t ws h :=
    fun hc => hnext (hc.mono (Nat.le_succ k))
  refine safe_read Checks.lasting hc fun t₁ h₁ => ?_
  split
  · exact hidle h₁
  refine safe_lockParent Checks.lasting h₁ h₁.wrote.writer fun h₂ _ =>
    safe_read Checks.lasting h₂ fun t₃ h₃ => ?_
  split
  · exact hidle h₃
  split
  · exact hidle h₃
  refine safe_read Checks.lasting h₃ fun t₄ h₄ => ?_
  split_ifs with hpending
  · exact hidle h₄
  split
  next row hspec =>
    obtain ⟨spec, -, hrow⟩ := map_eq_some_iff.mp hspec
    have hchild := buildChildRow_spec hrow
    unfold insertRows
    split_ifs with hkind
    · trivial
    refine safe_insertEach hinj ?_ (fun h₅ => ?_) h₄
    · intro x hx
      obtain rfl : x = (row.defaulted (ctx.clock k), k) := by simpa using hx
      refine ⟨hchild.id, ?_, ?_⟩
      · rw [defaulted_parentJobID, hchild.parentJobID]
        simpa [followUpFromBarrierSpec] using hq
      · rw [defaulted_uniqueKey, (continuationRow_spec hrow).2.2.1]
        exact fun heq => hq (barrierKey_injective (some_inj.mp heq))
    · refine safe_updateWhere (fun _ => Checks.lasting) ?_ hnext h₅
      intro moved t ws h r hc hlock hr hguard
      have hid : r.id = q := by
        simp_all [isJob]
      exact hc.version hr hlock (clearBarrier_sameJob _ r) rfl (hid ▸ hq)
  · trivial

/-! ## The check of the parent -/

theorem Checks.settle (hc : Checks d p src gen ctx k True t ws h) (hs : Settled d p gen t ws h) :
    Checks d p src gen ctx (k + 1) False t ws h :=
  ⟨hc.good, hc.wrote, hc.unminted.mono (Nat.le_succ k), False.elim, fun _ => hs⟩

theorem Checks.settle_moot (hc : Checks d p src gen ctx k True t ws h)
    (hno : ((ofJobs (seen t ws)).job? p).bind JobRow.barrierKind = none) :
    Checks d p src gen ctx (k + 1) False t ws h := by
  have hu := hc.unchecked trivial
  refine hc.settle (.moot ?_ hu)
  rintro ⟨r, hr, hvisible, hkind⟩
  rw [← hu.seen_parent t] at hr
  rw [Db.job?_eq_some.mpr ⟨hr, hvisible⟩] at hno
  exact hkind hno

/-- The session counts: it holds the lock of the parent's row, which declares a barrier. -/
structure Counts (d : Dialect) (p : String) (src : JobRow) (gen : String → Prop)
    (ctx : Context) (k : ℕ)
    (parent : JobRow) (t : Table JobRow.id) (ws : List JobRow) (h : Set Lock) : Prop where
  checks : Checks d p src gen ctx k True t ws h
  lock : rowLock d p ∈ h
  parent : t.get? p = some parent

/-- The session counts and has found no pending child. -/
structure Complete (d : Dialect) (p : String) (src : JobRow) (gen : String → Prop)
    (ctx : Context) (k : ℕ)
    (parent : JobRow) (t : Table JobRow.id) (ws : List JobRow) (h : Set Lock) : Prop
    extends Counts d p src gen ctx k parent t ws h where
  ended : ∀ id, gen id → ¬ PendingChild p ((seen t ws).get? id)

/-- The session has inserted the continuation and not cleared the barrier yet. -/
structure Continued (d : Dialect) (p : String) (src : JobRow) (gen : String → Prop)
    (ctx : Context) (k : ℕ)
    (parent : JobRow) (t : Table JobRow.id) (ws : List JobRow) (h : Set Lock) : Prop where
  good : Waits p src gen t
  wrote : Wrote d p src t ws h
  unminted : Unminted d ctx (k + 1) t ws h
  lock : rowLock d p ∈ h
  standing : Declares (t.get? p)
  parent : (seen t ws).get? p = some parent
  ended : ∀ id, gen id → ¬ PendingChild p ((seen t ws).get? id)
  keyed : ∃ id r, id ≠ p ∧ (seen t ws).get? id = some r ∧ r.uniqueKey = some (barrierKey p)

variable {parent : JobRow}

theorem Counts.lasting : Lasting (barrierContract d p src gen)
    (Counts d p src gen ctx k parent) where
  rely hs hgood hrely :=
    ⟨Checks.lasting.rely hs.checks hgood hrely, hs.lock, (hrely.locked p hs.lock).trans hs.parent⟩
  lock l hs := ⟨Checks.lasting.lock l hs.checks, Set.mem_insert_of_mem l hs.lock, hs.parent⟩

theorem Complete.lasting : Lasting (barrierContract d p src gen)
    (Complete d p src gen ctx k parent) where
  rely hs hgood hrely :=
    ⟨Counts.lasting.rely hs.toCounts hgood hrely,
      fun id hid => seen_ended_rely hrely hs.checks.good hid (hs.ended id hid)⟩
  lock l hs := ⟨Counts.lasting.lock l hs.toCounts, hs.ended⟩

theorem Continued.lasting : Lasting (barrierContract d p src gen)
    (Continued d p src gen ctx k parent) where
  rely := by
    intro t t' ws h hs hgood hrely
    have hstanding : Declares (t'.get? p) := by
      rw [hrely.locked p hs.lock]
      exact hs.standing
    refine ⟨hgood, hs.wrote.rely hrely, hs.unminted.rely hrely, hs.lock, hstanding, ?_,
      fun id hid => seen_ended_rely hrely hs.good hid (hs.ended id hid), ?_⟩
    · rcases seen_get? ws p with ⟨-, hseen⟩ | ⟨r, -, -, hseen⟩
      · rw [hseen, hrely.locked p hs.lock, ← hseen t, hs.parent]
      · rw [hseen t', ← hseen t, hs.parent]
    · obtain ⟨id, r, hne, hr, hkey⟩ := hs.keyed
      rcases seen_get? ws id with ⟨-, hseen⟩ | ⟨s, -, -, hseen⟩
      · rw [hseen] at hr
        obtain ⟨r', hr', hsame⟩ := hrely.rows id r hr
        exact ⟨id, r', hne, (hseen t').trans hr', hsame.uniqueKey.trans hkey⟩
      · exact ⟨id, r, hne, by rw [hseen t', ← hseen t, hr], hkey⟩
  lock l hs := ⟨hs.good, hs.wrote.lock l, hs.unminted.lock l, Set.mem_insert_of_mem l hs.lock,
    hs.standing, hs.parent, hs.ended, hs.keyed⟩

section

variable (hs : Counts d p src gen ctx k parent t ws h)

include hs

/-- While the parent's row declares a barrier, the session sees no job under the continuation's
key. -/
theorem Counts.key_free (hdeclares : Declares (some parent)) (hr : (seen t ws).get? id = some r) :
    r.uniqueKey ≠ some (barrierKey p) := by
  rw [← hs.parent] at hdeclares
  have hu := hs.checks.unchecked trivial
  exact (hs.checks.wrote.seen_key hu).mpr (hs.checks.good.key.mp hdeclares) id r hr

theorem Counts.waits (hdeclares : Declares (some parent))
    (hpending : (ofJobs (seen t ws)).hasPendingChild p = true) :
    Checks d p src gen ctx (k + 1) False t ws h := by
  refine hs.checks.settle (.waits hs.lock (hs.checks.unchecked trivial) ?_)
  obtain ⟨id, r, hr, hp⟩ := hasPendingChild_iff.mp hpending
  refine ⟨id, ?_, r, hr, hp⟩
  simp only [JobRow.pendingChildOf, Bool.and_eq_true, decide_eq_true_eq] at hp
  rcases hs.checks.wrote.seen_children hs.checks.good hr hp.1.1 hp.1.2 with hgen | hkey
  · exact hgen
  · exact absurd hkey (hs.key_free hdeclares hr)

theorem Counts.complete (hnone : (ofJobs (seen t ws)).hasPendingChild p = false) :
    Complete d p src gen ctx k parent t ws h := by
  refine ⟨hs, fun id _ hp => ?_⟩
  rw [Bool.eq_false_iff, ne_eq, hasPendingChild_iff] at hnone
  exact hnone ⟨id, hp⟩

end

theorem continuationRow_continues (hrow : continuationRow ctx k kind spec p spawnedBy = .ok row)
    (hkind : src.barrierKind = some kind) (hspec : src.barrierSpec = some spec) :
    Continuation p src row := by
  have hchild := buildChildRow_spec hrow
  refine ⟨spec, ?_, hspec, ?_, hchild.parentJobID⟩
  · rw [hchild.kind]
    exact hkind
  · unfold continuationRow buildChildRow at hrow
    obtain ⟨payload, hpayload, hrow⟩ := bind_eq_ok.mp hrow
    obtain ⟨st, -, hrow⟩ := bind_eq_ok.mp hrow
    cases hrow
    exact (Except.ok.inj hpayload).symm

theorem defaulted_sameJob (now : Time) (r : JobRow) : SameJob r (r.defaulted now) :=
  ⟨rfl, rfl, rfl, rfl, rfl, id⟩

/-- The insert of the continuation. -/
theorem Complete.insert (hs : Complete d p src gen ctx k parent t ws h)
    (hinj : Function.Injective ctx.newID) (hid : row.id = ctx.newID k)
    (hkey : row.uniqueKey = some (barrierKey p)) (hcont : Continuation p src row)
    (hdeclares : Declares (some parent)) :
    Continued d p src gen ctx k parent t (ws ++ [row]) h := by
  obtain ⟨hnone, -, hlock⟩ := hs.checks.unminted k le_rfl
  rw [← hid] at hnone hlock
  have hstored : ∀ id r, t.get? id = some r → row.id ≠ id := by
    grind
  refine ⟨hs.checks.good, ?_, ?_, hs.lock, hs.parent ▸ hdeclares, ?_, ?_, row.id, row,
    hstored p parent hs.parent, ?_, hkey⟩
  · refine hs.checks.wrote.snoc hlock (fun r₀ hr₀ => absurd rfl (hstored _ r₀ hr₀))
      (fun _ _ => hkey) fun _ _ => hcont
  · refine hs.checks.unminted.snoc (Nat.le_succ k) fun j hj heq => ?_
    grind
  · rw [seen_snoc, if_neg (hstored p parent hs.parent),
      (hs.checks.unchecked trivial).seen_parent t, hs.parent]
  · intro id hgen
    obtain ⟨r₀, hr₀, -⟩ := hs.checks.good.child id hgen
    rw [seen_snoc, if_neg (hstored id r₀ hr₀)]
    exact hs.ended id hgen
  · rw [seen_snoc, if_pos rfl]

/-- The clear of the parent's row settles the session. -/
theorem Continued.clear (hs : Continued d p src gen ctx k parent t ws h) (now : Time) :
    Checks d p src gen ctx (k + 1) False t (ws ++ [(clearBarrier now).apply parent]) h := by
  have hid : ((clearBarrier now).apply parent).id = p :=
    ((clearBarrier now).key_apply parent).trans (key_of_get? hs.parent)
  obtain ⟨r₀, hr₀, -, -⟩ := hs.good.parent
  have hsame : SameJob r₀ parent := by
    obtain ⟨r, hr, hsame⟩ := hs.wrote.seen_old hr₀
    obtain rfl : r = parent := some_inj.mp (hr.symm.trans hs.parent)
    exact hsame
  refine ⟨hs.good, ?_, ?_, False.elim, fun _ => .fires hs.lock hs.standing ?_ ?_ ?_⟩
  · have hsome : t.get? ((clearBarrier now).apply parent).id ≠ none := by
      simp_all
    refine hs.wrote.snoc (hid.symm ▸ hs.lock) ?_ (fun hnone => absurd hnone hsome) fun hnone =>
      absurd hnone hsome
    intro r hr
    rw [hid] at hr
    obtain rfl : r₀ = r := some_inj.mp (hr₀.symm.trans hr)
    exact hsame.trans (clearBarrier_sameJob now parent)
  · refine hs.unminted.snoc le_rfl fun j hj heq => ?_
    have hnone := (hs.unminted j hj).1
    simp_all
  · intro id hgen hp
    rw [seen_snoc] at hp
    split_ifs at hp with heq
    · -- the parent has ended, so that it is no pending child of its own
      obtain ⟨r, hr, hpending⟩ := hp
      cases hr
      refine hs.ended id hgen ⟨parent, ?_, hpending⟩
      rw [← heq, hid, hs.parent]
    · exact hs.ended id hgen hp
  · rintro ⟨r, hr, -, hkind⟩
    rw [seen_snoc, if_pos hid] at hr
    cases hr
    exact hkind rfl
  · obtain ⟨id, r, hne, hr, hkey⟩ := hs.keyed
    exact ⟨id, r, by rw [seen_snoc, if_neg (fun heq => hne (heq.symm.trans hid)), hr], hkey⟩

theorem idsMatching_isJob {db : Db} (hr : db.job? id = some r) :
    idsMatching (isJob id) db = [id] := by
  obtain ⟨hget, hvisible⟩ := Db.job?_eq_some.mp hr
  have hid := key_of_get? hget
  have hall : ∀ x ∈ (db.jobs.rows.filter (isJob id)).map JobRow.id, x = id := by
    simp_all [isJob]
  have hmem : id ∈ (db.jobs.rows.filter (isJob id)).map JobRow.id := by
    grind [mem_of_get?, isJob]
  have hnodup : ((db.jobs.rows.filter (isJob id)).map JobRow.id).Nodup :=
    db.jobs.nodup.sublist (filter_sublist.map _)
  unfold idsMatching
  rw [eq_replicate_of_mem hall] at hmem hnodup ⊢
  have hpos := length_pos_of_mem hmem
  grind

section Fire

variable {next : List String → JobTx}
  (hnext : ∀ {moved t ws h}, Checks d p src gen ctx (k + 1) False t ws h →
    BarrierSafe d p src gen (next moved) t ws h)

include hnext

theorem Continued.safe_clear (hvisible : parent.visible = true) {now : Time}
    (hs : Continued d p src gen ctx k parent t ws h) :
    BarrierSafe d p src gen (updateWhere d (fun _ => isJob p) (clearBarrier now) next) t ws h := by
  refine safe_read Continued.lasting hs fun t₁ h₁ => ?_
  have hids : idsMatching (isJob p) (ofJobs (seen t₁ ws)) = [p] :=
    idsMatching_isJob (Db.job?_eq_some.mpr ⟨h₁.parent, hvisible⟩)
  rw [hids]
  refine safe_lock Continued.lasting h₁ fun t₂ h₂ => safe_read Continued.lasting h₂ fun t₃ h₃ => ?_
  have hmatch : isJob p parent = true := by
    simp [isJob, key_of_get? h₃.parent, hvisible]
  rw [h₃.parent, filter_some, if_pos hmatch]
  exact hnext (h₃.clear now)

/-- The continuation's insert and the clear. -/
theorem Complete.safe_fire (hs : Complete d p src gen ctx k parent t ws h)
    (hinj : Function.Injective ctx.newID) (hdeclares : Declares (some parent))
    (hkind : parent.barrierKind = some kind) (hspec : parent.barrierSpec = some spec)
    (hrow : continuationRow ctx k kind spec p spawnedBy = .ok row) :
    BarrierSafe d p src gen (insertRows d (ctx.clock k) [row]
        (updateWhere d (fun _ => isJob p) (clearBarrier (ctx.clock k)) next)) t ws h := by
  have hvisible : parent.visible = true := by
    obtain ⟨r, hr, hvisible, -⟩ := hdeclares
    rwa [some_inj.mp hr]
  obtain ⟨-, hid, hkey, -⟩ := continuationRow_spec hrow
  have hcont : Continuation p src row := by
    obtain ⟨r, hr, hsrc, hsrcSpec⟩ := hs.checks.good.declared (hs.parent ▸ hdeclares)
    obtain rfl : parent = r := some_inj.mp (hs.parent.symm.trans hr)
    exact continuationRow_continues hrow (hsrc.symm.trans hkind) (hsrcSpec.symm.trans hspec)
  unfold insertRows
  split_ifs with hempty
  · trivial
  refine safe_lock Complete.lasting hs fun _ h₁ => safe_lockKey Complete.lasting h₁ fun h₂ =>
    safe_read Complete.lasting h₂ fun t₃ h₃ => ?_
  -- no other session inserts the continuation while this one holds the parent's lock
  have hconflicts : (seen t₃ ws).conflicts uniqueClash (row.defaulted (ctx.clock k)) = false := by
    refine continuationRow_lands hrow ?_ ?_ (ctx.clock k)
    · obtain ⟨hnone, hws, -⟩ := h₃.checks.unminted k le_rfl
      rcases seen_get? ws (ctx.newID k) with ⟨-, hseen⟩ | ⟨s, hmem, hsid, -⟩
      · exact (hseen t₃).trans hnone
      · exact absurd hsid (hws s hmem)
    · exact fun r hr => h₃.key_free hdeclares (get?_key hr)
  rw [if_neg (by rw [hconflicts]; exact Bool.false_ne_true)]
  exact Continued.safe_clear hnext hvisible
    (h₃.insert hinj hid hkey (hcont.version (defaulted_sameJob _ row)) hdeclares)

end Fire

/-- The check of `p` settles its session. -/
theorem safe_fireTx_self (hinj : Function.Injective ctx.newID) {next : Bool → JobTx}
    (hnext : ∀ {fired t ws h}, Checks d p src gen ctx (k + 1) False t ws h →
      BarrierSafe d p src gen (next fired) t ws h)
    (hc : Checks d p src gen ctx k True t ws h) :
    BarrierSafe d p src gen (fireTx d ctx k p spawnedBy next) t ws h := by
  refine safe_read Checks.lasting hc fun t₁ h₁ => ?_
  split
  next hgate => exact hnext (h₁.settle_moot hgate)
  refine safe_lockParent Checks.lasting h₁ h₁.wrote.writer fun h₂ hlock₂ => ?_
  have hI : Lasting (barrierContract d p src gen) fun t ws h =>
    Checks d p src gen ctx k True t ws h ∧ rowLock d p ∈ h :=
    ⟨fun hs hgood hrely => ⟨Checks.lasting.rely hs.1 hgood hrely, hs.2⟩,
      fun l hs => ⟨Checks.lasting.lock l hs.1, Set.mem_insert_of_mem l hs.2⟩⟩
  refine safe_read hI ⟨h₂, hlock₂⟩ fun t₃ ⟨h₃, hlock₃⟩ => ?_
  split
  next hgone => exact hnext (h₃.settle_moot (by rw [hgone]; rfl))
  next parent hparent =>
    split
    next hnone => exact hnext (h₃.settle_moot (by rw [hparent]; exact hnone))
    next kind hkind =>
      obtain ⟨hget, hvisible⟩ := Db.job?_eq_some.mp hparent
      have hdeclares : Declares (some parent) :=
        ⟨parent, rfl, hvisible, by rw [hkind]; exact some_ne_none kind⟩
      have hcounts : Counts d p src gen ctx k parent t₃ ws _ :=
        ⟨h₃, hlock₃, ((h₃.unchecked trivial).seen_parent t₃).symm.trans hget⟩
      refine safe_read Counts.lasting hcounts fun t₄ h₄ => ?_
      split_ifs with hpending
      · exact hnext (h₄.waits hdeclares hpending)
      split
      next row hspec =>
        obtain ⟨spec, hspec, hrow⟩ := map_eq_some_iff.mp hspec
        exact (h₄.complete (Bool.eq_false_iff.mpr hpending)).safe_fire hnext hinj hdeclares
          hkind hspec hrow
      · trivial

/-- The checks of several parents, no two of one. -/
theorem safe_fireEachTx (hinj : Function.Injective ctx.newID) {parents : List (String × String)}
    (hnodup : (parents.map Prod.fst).Nodup)
    (hc : Checks d p src gen ctx k (p ∈ parents.map Prod.fst) t ws h) :
    BarrierSafe d p src gen (fireEachTx d ctx k parents .commit) t ws h := by
  induction parents generalizing k t ws h with
  | nil =>
    have hsettled := hc.settled not_mem_nil
    exact hsettled.safe hc.wrote hc.good
  | cons q parents ih =>
    obtain ⟨q, spawnedBy⟩ := q
    rw [map_cons] at hc hnodup
    obtain ⟨hq, hnodup⟩ := nodup_cons.mp hnodup
    by_cases hqp : q = p
    · subst hqp
      have hself : Checks d q src gen ctx k True t ws h :=
        { hc with unchecked := fun _ => hc.unchecked mem_cons_self
                  settled := fun hno => absurd trivial hno }
      refine safe_fireTx_self hinj (fun h₁ => ih hnodup ?_) hself
      exact { h₁ with unchecked := fun hmem => absurd hmem hq, settled := fun _ => h₁.settled id }
    · have hiff : p ∈ q :: parents.map Prod.fst ↔ p ∈ parents.map Prod.fst := by
        simp [Ne.symm hqp]
      rw [propext hiff] at hc
      exact safe_fireTx_other hinj hqp (fun h₁ => ih hnodup h₁) hc

end Check

end Flywheel
