import Flywheel.Barrier.Check

/-!
# A barrier fires exactly once

Every transaction that can end a child upholds the contract of `Flywheel.Barrier.Contract`
(`ChildTx.safe`): it ends its jobs first, under their locks, and then checks the parent of every job
that it ended, under the parent's lock. So from a committed declaration with a pending child on, in
every interleaving of their statements, the continuation is inserted by one commit, and by that
which ends the last child.
-/

namespace Flywheel

open Relational Transition ReadCommitted List Option Table

section Transactions

variable {d : Dialect} {p : String} {src : JobRow} {gen : String → Prop} {ctx : Context} {k : ℕ}
  {M : String → Prop} {t t' : Table JobRow.id} {ws : List JobRow} {h : Set Lock}

/-! ## Jobs and their parents -/

/-- The job `id` is stored with the parent `q`. -/
def ParentIs (t : Table JobRow.id) (id : String) (q : Option String) : Prop :=
  ∃ r, t.get? id = some r ∧ r.parentJobID = q

variable {id parentID : String} {q : Option String} {f : Patch JobRow.id}
  {J : Table JobRow.id → Prop} {rows : List JobRow}

theorem ParentIs.rely (hq : ParentIs t id q) (hrely : Spares d p gen h t t') :
    ParentIs t' id q := by
  obtain ⟨r, hr, hparent⟩ := hq
  obtain ⟨r', hr', hsame⟩ := hrely.rows id r hr
  exact ⟨r', hr', hsame.parentJobID.trans hparent⟩

theorem Waits.parent_eq (hgood : Waits p src gen t) (hid : gen id) (hq : ParentIs t id q) :
    q = some p := by
  obtain ⟨r, hr, hparent⟩ := hgood.child id hid
  obtain ⟨r', hr', hparent'⟩ := hq
  simp_all

/-! ## A session's start and end -/

/-- The ids that a transaction mints are new, and its own: no other session inserts under them,
which the session's lock of them from its start stands for. -/
structure Mints (d : Dialect) (ctx : Context) (jobs : Table JobRow.id) (own : Set Lock) : Prop where
  injective : Function.Injective ctx.newID
  fresh : ∀ k, jobs.get? (ctx.newID k) = none
  own : own = {l | ∃ k, l = rowLock d (ctx.newID k)}

theorem Ends.start (hgood : Waits p src gen t) (hmints : Mints d ctx t h) :
    Ends d p src gen ctx 0 (fun _ => False) t [] h where
  good := hgood
  wrote :=
    { writer := by
        rintro rfl
        rw [hmints.own]
        exact ⟨0, rfl⟩
      locks := by simp
      old := by simp
      new := by simp
      continuation := by simp }
  unminted j _ := by
    refine ⟨hmints.fresh j, by simp, ?_⟩
    rw [hmints.own]
    exact ⟨j, rfl⟩
  versions := by simp
  ended _ _ _ hp := hp

section

variable (he : Ends d p src gen ctx k M t ws h)

include he

theorem Ends.weaken {M' : String → Prop}
    (hM : ∀ id, M id → M' id) : Ends d p src gen ctx k M' t ws h :=
  { he with ended := fun id hid hno => he.ended id hid fun hMid => hno (hM id hMid) }

theorem Ends.safe_commit (hM : ∀ id, ¬ M id) : BarrierSafe d p src gen .commit t ws h := by
  have hc := he.checks (b := False) fun id _ => hM id
  exact (hc.settled id).safe hc.wrote hc.good

theorem Ends.safe_checks
    (hinj : Function.Injective ctx.newID) {k' : ℕ} (hk : k ≤ k') {parents : List (String × String)}
    (hnodup : (parents.map Prod.fst).Nodup) (hM : ∀ id, gen id → M id → p ∈ parents.map Prod.fst) :
    BarrierSafe d p src gen (fireEachTx d ctx k' parents .commit) t ws h :=
  safe_fireEachTx hinj hnodup ((he.checks hM).mono hk)

end

/-! ## Updates that end jobs -/

variable {r : JobRow}

theorem SameJob.of_open {r' : JobRow} (hopen : r.state.isTerminal = false)
    (hkind : r'.kind = r.kind) (hargs : r'.args = r.args) (hvisible : r'.visible = r.visible)
    (hparent : r'.parentJobID = r.parentJobID) (hkey : r'.uniqueKey = r.uniqueKey) :
    SameJob r r' := by
  refine ⟨hkind, hargs, hvisible, hparent, hkey, fun hend => ?_⟩
  rw [hopen] at hend
  cases hend

theorem Ends.ne_parent (he : Ends d p src gen ctx k M t ws h) (hr : (seen t ws).get? r.id = some r)
    (hopen : r.state.isTerminal = false) : r.id ≠ p := by
  intro heq
  rw [heq] at hr
  rw [he.wrote.parent_ended he.good hr] at hopen
  cases hopen

variable {guard : Table JobRow.id → JobRow → Bool}

/-- An update that ends jobs, of rows that have not ended: what it has moved, each of them with `K`,
while `J` holds of the committed rows; `E` says that it ends what it moves. -/
theorem safe_endsWhere {next : List String → JobTx} {K : String → Prop} {E : Prop}
    (hJ : ∀ {t t' h}, J t → Spares d p gen h t t' → J t')
    (hguard : ∀ v r, guard v r = true → r.state.isTerminal = false ∧ K r.id)
    (hf : ∀ r, r.state.isTerminal = false → SameJob r (f.apply r))
    (hE : ∀ r, r.state.isTerminal = false → (f.apply r).state.isTerminal = true → E)
    (hnext : ∀ {moved t ws h}, Ends d p src gen ctx k (fun id => id ∈ moved ∧ E) t ws h → J t →
      (∀ id ∈ moved, id ≠ p ∧ K id) →
      BarrierSafe d p src gen (next moved) t ws h)
    (he : Ends d p src gen ctx k (fun _ => False) t ws h) (hj : J t) :
    BarrierSafe d p src gen (updateWhere d guard f next) t ws h := by
  let I (moved : List String) (t : Table JobRow.id) (ws : List JobRow) (h : Set Lock) : Prop :=
    Ends d p src gen ctx k (fun id => id ∈ moved ∧ E) t ws h ∧ J t ∧ ∀ id ∈ moved, id ≠ p ∧ K id
  have hI : ∀ moved, Lasting (barrierContract d p src gen) (I moved) := fun moved =>
    ⟨fun hs hgood hrely => ⟨Ends.lasting.rely hs.1 hgood hrely, hJ hs.2.1 hrely, hs.2.2⟩,
      fun l hs => ⟨Ends.lasting.lock l hs.1, hs.2⟩⟩
  refine safe_updateWhere hI ?_ (fun hs => hnext hs.1 hs.2.1 hs.2.2)
    ⟨he.weaken fun _ => False.elim, hj, by simp⟩
  intro moved t ws h r hs hlock hr hmatch
  obtain ⟨hopen, hK⟩ := hguard _ r hmatch
  have hne := hs.1.ne_parent hr hopen
  obtain ⟨r₀, hr₀, hsame⟩ := hs.1.seen_version hr
  have hid := f.key_apply r
  refine ⟨?_, hs.2.1, ?_⟩
  · have hcommitted : t.get? (f.apply r).id = some r₀ := by rw [hid, hr₀]
    refine (hs.1.weaken ?_).version hcommitted ?_ (hsame.trans (hf r hopen)) ?_ ?_
    · exact fun id hmoved => ⟨mem_append_left _ hmoved.1, hmoved.2⟩
    · rwa [hid]
    · rwa [hid]
    · exact fun hend => ⟨by rw [hid]; simp, hE r hopen hend⟩
  · exact forall_mem_append.mpr ⟨hs.2.2, forall_mem_singleton.mpr ⟨hne, hK⟩⟩

theorem cancelUpdates_sameJob (now : Time) (r : JobRow) (hopen : r.state.isTerminal = false) :
    SameJob r ((cancelUpdates now).apply r) :=
  .of_open hopen rfl rfl rfl rfl rfl

/-! ## The cancels -/

variable {next : List JobRow → JobTx}

/-- A locking select before the checks: the rows that it returns are stored with the parents that
they have, while `J` holds of the committed rows. -/
theorem safe_selectJobs (hJ : ∀ {t t' h}, J t → Spares d p gen h t t' → J t')
    (hnext : ∀ {rows t ws h}, Ends d p src gen ctx k M t ws h → J t →
      (∀ r ∈ rows, ParentIs t r.id r.parentJobID) →
      BarrierSafe d p src gen (next rows) t ws h)
    (he : Ends d p src gen ctx k M t ws h) (hj : J t) :
    BarrierSafe d p src gen (selectForUpdate d guard next) t ws h := by
  let I (rows : List JobRow) (t : Table JobRow.id) (ws : List JobRow) (h : Set Lock) : Prop :=
    Ends d p src gen ctx k M t ws h ∧ J t ∧ ∀ r ∈ rows, ParentIs t r.id r.parentJobID
  have hI : ∀ rows, Lasting (barrierContract d p src gen) (I rows) := fun rows =>
    ⟨fun hs hgood hrely => ⟨Ends.lasting.rely hs.1 hgood hrely, hJ hs.2.1 hrely,
        fun r hr => (hs.2.2 r hr).rely hrely⟩,
      fun l hs => ⟨Ends.lasting.lock l hs.1, hs.2⟩⟩
  refine safe_selectForUpdate hI ?_ (fun hs => hnext hs.1 hs.2.1 hs.2.2) ⟨he, hj, by simp⟩
  intro rows t ws h r hs hr _
  obtain ⟨r₀, hr₀, hsame⟩ := hs.1.seen_version hr
  refine ⟨hs.1, hs.2.1, fun s hmem => ?_⟩
  rcases mem_append.mp hmem with hmem | hmem
  · exact hs.2.2 s hmem
  · rw [mem_singleton.mp hmem]
    exact ⟨r₀, hr₀, hsame.parentJobID.symm⟩

theorem safe_cancelJobTx (hgood : Waits p src gen t) (hmints : Mints d ctx t h) (id : String) :
    BarrierSafe d p src gen (cancelJobTx d ctx id) t [] h := by
  unfold cancelJobTx
  split
  · trivial
  refine safe_selectJobs (J := fun _ => True) (fun _ _ => trivial) ?_ (.start hgood hmints) trivial
  intro rows t ws h he _ hrows
  split
  · trivial
  next job _ =>
    split_ifs with hlive
    · have hguard : ∀ (v : Table JobRow.id) (r : JobRow), lockedGuard job r = true →
          r.state.isTerminal = false ∧ r.id = job.id := by
        intro v r hr
        simp only [lockedGuard, isJob, Bool.and_eq_true, decide_eq_true_eq] at hr
        grind [nonTerminalStates_contains]
      refine safe_endsWhere (J := fun t => ParentIs t job.id job.parentJobID)
        (K := fun id => id = job.id) (E := True) (fun hq hrely => hq.rely hrely) hguard
        (fun r => cancelUpdates_sameJob _ r) (fun _ _ _ => trivial) ?_ he
        (hrows job mem_cons_self)
      intro moved t ws h he hq hmoved
      split_ifs with hnone
      · trivial
      refine he.safe_checks hmints.injective (Nat.zero_le 1) ?_ ?_
      · cases job.parentJobID <;> simp
      · intro id hid hM
        have hparent : ParentIs t id job.parentJobID := (hmoved id hM.1).2 ▸ hq
        rw [he.good.parent_eq hid hparent]
        simp
    · trivial

theorem safe_cancelByParentTx (hgood : Waits p src gen t) (hmints : Mints d ctx t h) (scan : Scan)
    (parentID : String) (batchSize : ℕ) :
    BarrierSafe d p src gen (cancelByParentTx d scan ctx parentID batchSize) t [] h := by
  unfold cancelByParentTx
  split
  · trivial
  refine safe_read Ends.lasting (.start hgood hmints) fun t₁ h₁ => ?_
  dsimp only
  split_ifs with hnone
  · exact h₁.safe_commit fun _ => not_false
  generalize hids : (scopeRows scan parentID cancelByParent.source batchSize
    (ofJobs (seen t₁ []))).map JobRow.id = ids
  let J (t : Table JobRow.id) : Prop := ∀ id ∈ ids, ParentIs t id (some parentID)
  have hJ : ∀ {t t' h}, J t → Spares d p gen h t t' → J t' :=
    fun hj hrely id hid => (hj id hid).rely hrely
  have hstart : J t₁ := by
    intro id hid
    rw [← hids] at hid
    obtain ⟨r, hr, rfl⟩ := List.mem_map.mp hid
    obtain ⟨hmem, hscope⟩ := mem_filter.mp ((mem_insertionSort _).mp (mem_of_mem_take hr))
    simp only [inScope, Bool.and_eq_true, decide_eq_true_eq] at hscope
    exact ⟨r, get?_key hmem, hscope.1.2⟩
  refine safe_selectJobs hJ ?_ h₁ hstart
  intro rows t ws h he hj _
  have hguard : ∀ (v : Table JobRow.id) (r : JobRow),
      scopeGuard cancelByParent.source ids r = true → r.state.isTerminal = false ∧ r.id ∈ ids := by
    intro v r hr
    simp only [scopeGuard, Bool.and_eq_true, contains_iff_mem] at hr
    have hopen : ∀ s ∈ cancelByParent.source, s.isTerminal = false := by decide
    exact ⟨hopen _ hr.2, hr.1.2⟩
  refine safe_endsWhere (K := fun id => id ∈ ids) (E := True) hJ hguard
    (fun r => cancelUpdates_sameJob _ r) (fun _ _ _ => trivial) ?_ he hj
  intro moved t ws h he hj hmoved
  split_ifs with hmovedNone
  · exact he.safe_commit fun id hid => by simp [hmovedNone] at hid
  refine he.safe_checks hmints.injective (Nat.zero_le 1) (by simp) ?_
  intro id hid hM
  have heq := he.good.parent_eq hid (hj id (hmoved id hM.1).2)
  simp [some_inj.mp heq]

theorem safe_bulkCancelTx (hgood : Waits p src gen t) (hmints : Mints d ctx t h) {run : BulkRun}
    (haction : run.action = .cancel) (ids : List String) (db : Db) :
    BarrierSafe d p src gen (bulkCancelTx d ctx run ids db) t [] h := by
  unfold bulkCancelTx
  split
  · trivial
  refine safe_selectJobs (J := fun _ => True) (fun _ _ => trivial) ?_ (.start hgood hmints) trivial
  intro rows t ws h he _ hrows
  dsimp only
  split_ifs with hnone
  · exact he.safe_commit fun _ => not_false
  generalize hchange : (run.classify db rows).map JobRow.id = change
  have hguard : ∀ (v : Table JobRow.id) (r : JobRow), run.guard
    { db with jobs := v } change r = true →
      r.state.isTerminal = false ∧ r.id ∈ change := by
    intro v r hr
    simp only [BulkRun.guard, Bool.and_eq_true, contains_iff_mem, BulkRun.sources, haction] at hr
    have hopen : ∀ s ∈ waitingStates, s.isTerminal = false := by decide
    exact ⟨hopen _ hr.1.2, hr.1.1.2⟩
  refine safe_endsWhere (J := fun t => ∀ r ∈ rows, ParentIs t r.id r.parentJobID)
    (K := fun id => id ∈ change) (E := True) (fun hj hrely r hr => (hj r hr).rely hrely) hguard
    (fun r => cancelUpdates_sameJob _ r) (fun _ _ _ => trivial) ?_ he hrows
  intro moved t ws h he hj hmoved
  refine he.safe_checks hmints.injective (Nat.zero_le 1) ?_ ?_
  · simpa [Function.comp_def] using sortedParents_nodup _ _
  · intro id hid hM
    have hin := (hmoved id hM.1).2
    rw [← hchange] at hin
    obtain ⟨r, hr, rfl⟩ := List.mem_map.mp hin
    have hr := mem_of_mem_filter hr
    have hparent := he.good.parent_eq hid (hj r hr)
    have hmem : p ∈ sortedParents JobRow.parentJobID (rows.filter fun r => moved.contains r.id) :=
      mem_sortedParents (mem_filter.mpr ⟨hr, contains_iff_mem.mpr hM.1⟩) hparent
    simpa [Function.comp_def] using hmem

/-! ## The sweep and the claims -/

theorem safe_writeEach {next : JobTx} (hf : ∀ r, r.state.isTerminal = false → SameJob r (f.apply r))
    (hrows : ∀ r ∈ rows, rowLock d r.id ∈ h ∧ t.get? r.id = some r ∧ r.state.isTerminal = false ∧
      ((f.apply r).state.isTerminal = true → M r.id))
    (hnext : ∀ {ws}, Ends d p src gen ctx k M t ws h → BarrierSafe d p src gen next t ws h)
    (he : Ends d p src gen ctx k M t ws h) :
    BarrierSafe d p src gen (writeEach (rows.map f.apply) next) t ws h := by
  induction rows generalizing ws with
  | nil => exact hnext he
  | cons r rows ih =>
    obtain ⟨⟨hlock, hr, hopen, hM⟩, hrest⟩ := forall_mem_cons.mp hrows
    have hid := f.key_apply r
    have hne : r.id ≠ p := by
      rintro heq
      obtain ⟨r₀, hr₀, -, hended⟩ := he.good.parent
      simp_all
    refine ih hrest (he.version (hid.symm ▸ hr) (hid.symm ▸ hlock) (hf r hopen) (hid.symm ▸ hne) ?_)
    exact fun hend => hid.symm ▸ hM hend

/-- A select that skips locked rows, before the session writes: the rows that it returns are the
committed ones, and locked. -/
theorem safe_lockJobs {guard : JobRow → Bool}
    (hguard : ∀ r, guard r = true → r.state.isTerminal = false)
    (hnext : ∀ {rows t h}, Ends d p src gen ctx k M t [] h →
      (∀ r ∈ rows, rowLock d r.id ∈ h ∧ t.get? r.id = some r ∧ r.state.isTerminal = false) →
      BarrierSafe d p src gen (next rows) t [] h) {ids : List String} {limit : ℕ}
    (he : Ends d p src gen ctx k M t [] h) :
    BarrierSafe d p src gen (lockFree d guard ids limit [] next) t [] h := by
  let I (rows : List JobRow) (t : Table JobRow.id) (ws : List JobRow) (h : Set Lock) : Prop :=
    Ends d p src gen ctx k M t ws h ∧ ws = [] ∧
      ∀ r ∈ rows, rowLock d r.id ∈ h ∧ t.get? r.id = some r ∧ r.state.isTerminal = false
  have hI : ∀ rows, Lasting (barrierContract d p src gen) (I rows) := fun rows =>
    ⟨fun hs hgood hrely => ⟨Ends.lasting.rely hs.1 hgood hrely, hs.2.1, fun r hr =>
        have ⟨hlock, hget, hopen⟩ := hs.2.2 r hr
        ⟨hlock, (hrely.locked _ hlock).trans hget, hopen⟩⟩,
      fun l hs => ⟨Ends.lasting.lock l hs.1, hs.2.1, fun r hr =>
        have ⟨hlock, hstored⟩ := hs.2.2 r hr
        ⟨Set.mem_insert_of_mem l hlock, hstored⟩⟩⟩
  refine safe_lockFree hI ?_ ?_ ⟨he, rfl, by simp⟩
  · rintro rows t ws h r ⟨he, rfl, hrows⟩ hlock hr hmatch
    refine ⟨he, rfl, fun s hmem => ?_⟩
    rcases mem_append.mp hmem with hmem | hmem
    · exact hrows s hmem
    · rw [mem_singleton.mp hmem]
      exact ⟨hlock, hr, hguard r hmatch⟩
  · grind

theorem safe_sweepTx (hgood : Waits p src gen t) (hmints : Mints d ctx t h) (scan : Scan)
    (opts : DriverOpts) (now : Time) (limit : ℕ) (db : Db) :
    BarrierSafe d p src gen (sweepTx d scan opts ctx now limit db) t [] h := by
  refine safe_read Ends.lasting (.start hgood hmints) fun t₁ h₁ => ?_
  refine safe_lockJobs ?_ ?_ h₁
  · intro r hr
    simp only [JobRow.expired, Bool.and_eq_true, decide_eq_true_eq] at hr
    rw [hr.1.2]
    rfl
  intro rows t h he hrows
  refine safe_writeEach (M := fun id => ∃ r ∈ rows, r.id = id ∧
    ((reclaimUpdate opts now db).apply r).state.isTerminal = true)
    (fun r hopen => .of_open hopen rfl rfl rfl rfl rfl) ?_ ?_ (he.weaken fun _ => False.elim)
  · intro r hr
    obtain ⟨hlock, hget, hopen⟩ := hrows r hr
    exact ⟨hlock, hget, hopen, fun hend => ⟨r, hr, rfl, hend⟩⟩
  · intro ws he
    refine he.safe_checks hmints.injective le_rfl ?_ ?_
    · simpa [discardedParents, Function.comp_def] using sortedParents_nodup _ _
    · rintro id hid ⟨r, hr, rfl, hend⟩
      have hparent := he.good.parent_eq hid ⟨r, (hrows r hr).2.1, rfl⟩
      have hjob : reclaimedJob opts db r ∈
          (rows.insertionSort reclaimOrder).map (reclaimedJob opts db) :=
        List.mem_map.mpr ⟨r, (mem_insertionSort _).mpr hr, rfl⟩
      refine mem_discardedParents hjob ?_ hparent
      unfold reclaimUpdate at hend
      unfold reclaimedJob
      dsimp only at hend ⊢
      split_ifs at hend ⊢ with hspent
      · rfl
      · cases hend

theorem safe_dequeueTx (hgood : Waits p src gen t) (hmints : Mints d ctx t h) (scan : Scan)
    (req : ClaimRequest) : BarrierSafe d p src gen (dequeueTx d scan ctx req) t [] h := by
  refine safe_read Ends.lasting (.start hgood hmints) fun t₁ h₁ => ?_
  refine safe_lockJobs ?_ ?_ h₁
  · intro r hr
    simp only [ClaimRequest.claimable, Bool.and_eq_true, contains_iff_mem] at hr
    have hopen : ∀ s ∈ claimableStates, s.isTerminal = false := by decide
    exact hopen _ hr.1.1.1.2
  intro rows t h he hrows
  refine safe_writeEach (fun r hopen => .of_open hopen rfl rfl rfl rfl rfl) ?_
    (fun he => he.safe_commit fun _ => not_false) he
  intro r hr
  obtain ⟨hlock, hget, hopen⟩ := hrows r hr
  exact ⟨hlock, hget, hopen, Bool.false_ne_true⟩

theorem holdsClaim_open {jobID leaseToken : String} (h : holdsClaim jobID leaseToken r = true) :
    r.state.isTerminal = false ∧ r.id = jobID := by
  obtain ⟨hid, -, hstate, -⟩ := holdsClaim_iff.mp h
  exact ⟨hstate ▸ rfl, hid⟩

theorem safe_renewLeaseTx (hgood : Waits p src gen t) (hmints : Mints d ctx t h)
    (jobID leaseToken : String) (expiry : Time) :
    BarrierSafe d p src gen (renewLeaseTx d ctx jobID leaseToken expiry) t [] h := by
  refine safe_endsWhere (J := fun _ => True) (K := fun id => id = jobID) (E := False)
    (fun _ _ => trivial) (fun _ _ => holdsClaim_open)
    (fun r hopen => .of_open hopen rfl rfl rfl rfl rfl) ?_ ?_ (.start hgood hmints) trivial
  · intro r hopen hend
    have hend : r.state.isTerminal = true := hend
    simp_all
  · exact fun he _ _ => he.safe_commit fun _ hM => hM.2

/-! ## The finalization -/

theorem ChildRows.zipIdx {fus : List FollowUp} (hrows : ChildRows ctx parentID k fus rows) :
    ∀ x ∈ rows.zipIdx k, ∃ fu ∈ fus, ChildRow ctx x.2 fu parentID x.1 := by
  unfold ChildRows at hrows
  induction fus generalizing k rows with
  | nil => simp_all
  | cons fu fus ih => grind [forall₂_cons_left_iff]

/-- The follow-ups of a job other than the parent, none of them under the continuation's key. -/
theorem safe_followUpsTx (hinj : Function.Injective ctx.newID) {opts : DriverOpts}
    {followUps : List FollowUp} (hne : parentID ≠ p)
    (hfree : ∀ fu ∈ followUps, fu.uniqueKey ≠ barrierKey p) {b : Prop} {next : JobTx}
    (hnext : ∀ {t ws h}, Checks d p src gen ctx followUps.length b t ws h →
      BarrierSafe d p src gen next t ws h)
    (hc : Checks d p src gen ctx 0 b t ws h) :
    BarrierSafe d p src gen (followUpsTx d opts ctx followUps parentID next) t ws h := by
  unfold followUpsTx
  split_ifs with hmax
  · trivial
  split
  · trivial
  next rows hbuild =>
    have hrows := buildFollowUps_spec hbuild
    have hlength : rows.length = followUps.length := by
      have := Forall₂.length_eq hrows
      simp_all
    unfold insertRows
    split_ifs with hempty
    · trivial
    refine safe_insertEach hinj ?_ (fun hc => hnext ?_) hc
    · intro x hx
      rw [zipIdx_map] at hx
      obtain ⟨y, hy, rfl⟩ := List.mem_map.mp hx
      obtain ⟨fu, hfu, hchild⟩ := hrows.zipIdx y hy
      refine ⟨hchild.id, ?_, ?_⟩
      · change y.1.parentJobID ≠ some p
        rw [hchild.parentJobID]
        split_ifs
        · exact fun heq => hne (some_inj.mp heq)
        · exact (some_ne_none _).symm
      · change y.1.uniqueKey ≠ some (barrierKey p)
        rw [hchild.uniqueKey]
        unfold keyColumn
        split_ifs
        · exact (some_ne_none _).symm
        · exact fun heq => hfree fu hfu (some_inj.mp heq)
    · rwa [length_map, hlength, Nat.zero_add] at hc

theorem safe_finalizeTx (hgood : Waits p src gen t) (hmints : Mints d ctx t h) (opts : DriverOpts)
    {raw : RawJob} (hraw : ParentIs t raw.id raw.parentJobID) {result : Result}
    (hfree : ∀ fu ∈ result.followUps, fu.uniqueKey ≠ barrierKey p) (workErr : Option WorkError)
    (finishedAt : Time) :
    BarrierSafe d p src gen (finalizeTx d opts ctx raw result workErr finishedAt) t [] h := by
  unfold finalizeTx
  generalize planFinalize ctx raw result workErr finishedAt = plan
  let I (t : Table JobRow.id) (ws : List JobRow) (h : Set Lock) : Prop :=
    Ends d p src gen ctx 0 (fun _ => False) t ws h ∧ ParentIs t raw.id raw.parentJobID
  have hI : Lasting (barrierContract d p src gen) I :=
    ⟨fun hs hgood hrely => ⟨Ends.lasting.rely hs.1 hgood hrely, hs.2.rely hrely⟩,
      fun l hs => ⟨Ends.lasting.lock l hs.1, hs.2⟩⟩
  have hstart : I t [] h := ⟨.start hgood hmints, hraw⟩
  refine safe_read hI hstart fun t₁ h₁ => ?_
  split
  · trivial
  refine safe_endsWhere (J := fun t => ParentIs t raw.id raw.parentJobID)
    (K := fun id => id = raw.id) (E := plan.jobState.isTerminal = true)
    (fun hq hrely => hq.rely hrely) (fun _ _ => holdsClaim_open)
    (fun r hopen => .of_open hopen rfl rfl rfl rfl rfl) (fun _ _ hend => hend) ?_ h₁.1 h₁.2
  intro moved t ws h he hq hmoved
  split_ifs with hnone hfollow
  · exact he.safe_commit fun id hM => by simp [hnone] at hM
  all_goals
    have hM : ∀ id, gen id → id ∈ moved ∧ plan.jobState.isTerminal = true →
        p ∈ (endedParent raw plan true).map Prod.fst := by
      intro id hid hM
      have hparent : ParentIs t id raw.parentJobID := (hmoved id hM.1).2 ▸ hq
      simp [endedParent, hM.2, he.good.parent_eq hid hparent]
    have hnodup : ((endedParent raw plan true).map Prod.fst).Nodup := by
      unfold endedParent
      split_ifs
      · cases raw.parentJobID <;> simp
      · exact nodup_nil
  · obtain ⟨id, hid⟩ := exists_mem_of_ne_nil _ hnone
    have hne : raw.id ≠ p := (hmoved id hid).2 ▸ (hmoved id hid).1
    exact safe_followUpsTx hmints.injective hne hfree
      (fun hc => safe_fireEachTx hmints.injective hnodup hc) (he.checks hM)
  · exact he.safe_checks hmints.injective (Nat.zero_le _) hnodup hM

end Transactions

/-! ## Exactly once -/

/-- The transactions that end jobs, and those that claim and renew, over the committed jobs. A
finalization is of a job that the runner claimed, so that it knows the job's parent, and returns no
follow-up under the key of the continuation of `p`. -/
inductive ChildTx (d : Dialect) (p : String) (jobs : Table JobRow.id) (own : Set Lock) :
    JobTx → Prop where
  | finalize {ctx : Context} {raw : RawJob} {result : Result} (opts : DriverOpts)
      (workErr : Option WorkError) (finishedAt : Time) (mints : Mints d ctx jobs own)
      (claimed : ParentIs jobs raw.id raw.parentJobID)
      (free : ∀ fu ∈ result.followUps, fu.uniqueKey ≠ barrierKey p) :
      ChildTx d p jobs own (finalizeTx d opts ctx raw result workErr finishedAt)
  | sweep {ctx : Context} (scan : Scan) (opts : DriverOpts) (now : Time) (limit : ℕ) (db : Db)
      (mints : Mints d ctx jobs own) : ChildTx d p jobs own (sweepTx d scan opts ctx now limit db)
  | cancelJob {ctx : Context} (id : String) (mints : Mints d ctx jobs own) :
      ChildTx d p jobs own (cancelJobTx d ctx id)
  | cancelByParent {ctx : Context} (scan : Scan) (parentID : String) (batchSize : ℕ)
      (mints : Mints d ctx jobs own) :
      ChildTx d p jobs own (cancelByParentTx d scan ctx parentID batchSize)
  | bulkCancel {ctx : Context} {run : BulkRun} (ids : List String) (db : Db)
      (cancels : run.action = .cancel) (mints : Mints d ctx jobs own) :
      ChildTx d p jobs own (bulkCancelTx d ctx run ids db)
  | dequeue {ctx : Context} (scan : Scan) (req : ClaimRequest) (mints : Mints d ctx jobs own) :
      ChildTx d p jobs own (dequeueTx d scan ctx req)
  | renewLease {ctx : Context} (jobID leaseToken : String) (expiry : Time)
      (mints : Mints d ctx jobs own) :
      ChildTx d p jobs own (renewLeaseTx d ctx jobID leaseToken expiry)

variable {d : Dialect} {src : JobRow} {p : String} {jobs t : Table JobRow.id}

/-- Every one of the transactions upholds the contract. -/
theorem ChildTx.safe {gen : String → Prop} {own : Set Lock} {tx : JobTx}
    (h : ChildTx d p jobs own tx) (hgood : Waits p src gen jobs) :
    BarrierSafe d p src gen tx jobs [] own := by
  cases h with
  | finalize opts workErr finishedAt mints claimed free =>
    exact safe_finalizeTx hgood mints opts claimed free workErr finishedAt
  | sweep scan opts now limit db mints => exact safe_sweepTx hgood mints scan opts now limit db
  | cancelJob id mints => exact safe_cancelJobTx hgood mints id
  | cancelByParent scan parentID batchSize mints =>
    exact safe_cancelByParentTx hgood mints scan parentID batchSize
  | bulkCancel ids db cancels mints => exact safe_bulkCancelTx hgood mints cancels ids db
  | dequeue scan req mints => exact safe_dequeueTx hgood mints scan req
  | renewLease jobID leaseToken expiry mints =>
    exact safe_renewLeaseTx hgood mints jobID leaseToken expiry

/-- A child of the generation: one of `p` that is stored when the barrier is. -/
def Landed (p : String) (jobs : Table JobRow.id) (id : String) : Prop :=
  ∃ r, jobs.get? id = some r ∧ r.visible = true ∧ r.parentJobID = some p

/-- A child of the generation is pending. -/
def Outstanding (p : String) (jobs t : Table JobRow.id) : Prop :=
  ∃ id, Landed p jobs id ∧ PendingChild p (t.get? id)

/-- A commit inserts a row under the key of the continuation of `p`. -/
def inserts (p : String) (c : Table JobRow.id × Table JobRow.id) : Bool :=
  c.2.rows.any fun r => decide (r.uniqueKey = some (barrierKey p)) && (c.1.get? r.id).isNone

theorem inserts_iff {c : Table JobRow.id × Table JobRow.id} : inserts p c = true ↔
      ∃ id r, c.1.get? id = none ∧ c.2.get? id = some r ∧ r.uniqueKey = some (barrierKey p) := by
  unfold inserts
  rw [List.any_eq_true]
  constructor
  · rintro ⟨r, hr, hmatch⟩
    simp only [Bool.and_eq_true, decide_eq_true_eq, isNone_iff_eq_none] at hmatch
    exact ⟨r.id, r, hmatch.2, get?_key hr, hmatch.1⟩
  · grind [mem_of_get?, key_of_get?]

variable {t' : Table JobRow.id} {h : Set Lock}

/-- A commit in accordance with the contract inserts the continuation exactly when it ends the last
pending child. -/
theorem Spares.inserts_iff
    (hrely : Spares d p (Landed p jobs) h t t') (hgood : Waits p src (Landed p jobs) t)
    (hgood' : Waits p src (Landed p jobs) t') :
    inserts p (t, t') = true ↔ Outstanding p jobs t ∧ ¬ Outstanding p jobs t' := by
  unfold Outstanding
  rw [← hgood.pending, ← hgood'.pending, Flywheel.inserts_iff]
  constructor
  · rintro ⟨id, r, hnone, hr, hkey⟩
    refine ⟨?_, fun hdeclares => hgood'.key.mp hdeclares id r hr hkey⟩
    by_contra hno
    exact hrely.spent hno id r hnone hr hkey
  · rintro ⟨hdeclares, hno⟩
    have hheld := mt hgood'.key.mpr hno
    push Not at hheld
    obtain ⟨id, r, hr, hkey⟩ := hheld
    refine ⟨id, r, ?_, hr, hkey⟩
    cases hr₀ : t.get? id with
    | none => rfl
    | some r₀ =>
      obtain ⟨r', hr', hsame⟩ := hrely.rows id r₀ hr₀
      obtain rfl : r' = r := some_inj.mp (hr'.symm.trans hr)
      exact absurd (hsame.uniqueKey.symm.trans hkey) (hgood.key.mp hdeclares id r₀ hr₀)

theorem Waits.start (hsrc : jobs.get? p = some src) (hended : src.state.isTerminal = true)
    (hdeclares : Declares (some src)) (hpending : ∃ id, PendingChild p (jobs.get? id))
    (hfree : ∀ r ∈ jobs.rows, r.uniqueKey ≠ some (barrierKey p)) :
    Waits p src (Landed p jobs) jobs := by
  have hkey : ∀ id r, jobs.get? id = some r → r.uniqueKey ≠ some (barrierKey p) :=
    fun id r hr => hfree r (mem_of_get? hr)
  have hchild : ∃ id, Landed p jobs id ∧ PendingChild p (jobs.get? id) := by
    obtain ⟨id, r, hr, hp⟩ := hpending
    refine ⟨id, ⟨r, hr, ?_⟩, r, hr, hp⟩
    simp_all [JobRow.pendingChildOf]
  rw [← hsrc] at hdeclares
  refine ⟨?_, ?_, ?_, iff_of_true hdeclares hchild, iff_of_true hdeclares hkey,
    fun _ => ⟨src, hsrc, rfl, rfl⟩, fun id r hr hheld => absurd hheld (hkey id r hr)⟩
  · obtain ⟨r, hr, hvisible, -⟩ := hdeclares
    simp_all
  · rintro id ⟨r, hr, -, hparent⟩
    exact ⟨r, hr, hparent⟩
  · exact fun id r hr hvisible hparent => .inl ⟨r, hr, hvisible, hparent⟩

/-- What the commits so far have inserted: nothing while a child is pending, and the continuation
once when none is, by the commit that ended the last. -/
structure Fired (p : String) (jobs : Table JobRow.id)
    (log : List (Table JobRow.id × Table JobRow.id)) (t : Table JobRow.id) : Prop where
  waiting : Outstanding p jobs t → log.countP (inserts p) = 0
  fired : ¬ Outstanding p jobs t → log.countP (inserts p) = 1
  last : ∀ c ∈ log, inserts p c = true ↔ Outstanding p jobs c.1 ∧ ¬ Outstanding p jobs c.2

/-- One more commit. -/
theorem Fired.commit {log : List (Table JobRow.id × Table JobRow.id)} (hfired : Fired p jobs log t)
    (hgood : Waits p src (Landed p jobs) t) (hgood' : Waits p src (Landed p jobs) t')
    (hrely : Spares d p (Landed p jobs) h t t') : Fired p jobs (log ++ [(t, t')]) t' := by
  have hiff := hrely.inserts_iff hgood hgood'
  have hcount : (log ++ [(t, t')]).countP (inserts p) =
      log.countP (inserts p) + if inserts p (t, t') = true then 1 else 0 := by
    rw [countP_append, countP_singleton]
  refine ⟨fun hp => ?_, fun hnone => ?_, ?_⟩
  · have hp₀ : Outstanding p jobs t := by
      obtain ⟨id, hid, hp⟩ := hp
      exact ⟨id, hid, hrely.pendingChild hgood hid hp⟩
    rw [hcount, hfired.waiting hp₀, if_neg fun hins => (hiff.mp hins).2 hp]
  · by_cases hp₀ : Outstanding p jobs t
    · rw [hcount, hfired.waiting hp₀, if_pos (hiff.mpr ⟨hp₀, hnone⟩)]
    · rw [hcount, hfired.fired hp₀, if_neg fun hins => hp₀ (hiff.mp hins).1]
  · exact forall_mem_append.mpr ⟨hfired.last, by simp_all⟩

/-- From the declaration of a barrier on, with a child pending and no job under the continuation's
key, in every interleaving of the statements of the transactions that end jobs: while a child of the
generation is pending no commit has inserted the continuation, and when none is exactly one has, the
one that left none pending; and what it inserted is the continuation that the parent's row
stored. -/
theorem barrier_fires_once (d : Dialect) {p : String} {src : JobRow} {jobs : Table JobRow.id}
    (hsrc : jobs.get? p = some src) (hended : src.state.isTerminal = true)
    (hdeclares : Declares (some src)) (hpending : ∃ id, PendingChild p (jobs.get? id))
    (hfree : ∀ r ∈ jobs.rows, r.uniqueKey ≠ some (barrierKey p))
    {sys : System (Table JobRow.id) JobRow Lock}
    (hrun : Run Table.put (ChildTx d p) { committed := jobs } sys) :
    (Outstanding p jobs sys.committed → sys.log.countP (inserts p) = 0) ∧
      (¬ Outstanding p jobs sys.committed → sys.log.countP (inserts p) = 1) ∧
      (∀ c ∈ sys.log, inserts p c = true ↔ Outstanding p jobs c.1 ∧ ¬ Outstanding p jobs c.2) ∧
      ∀ r ∈ sys.committed.rows, r.uniqueKey = some (barrierKey p) → Continuation p src r := by
  have hgood := Waits.start hsrc hended hdeclares hpending hfree
  have hstart : Fired p jobs [] jobs := by
    refine ⟨fun _ => rfl, fun hnone => ?_, by simp⟩
    refine absurd ?_ hnone
    exact hgood.pending.mp (hsrc ▸ hdeclares)
  obtain ⟨hup, hfired⟩ := Upheld.run (C := barrierContract d p src (Landed p jobs))
    (Q := Fired p jobs) (fun _ _ _ htx hgood => htx.safe hgood)
    (fun _ _ _ hgood hgood' hrely hfired => hfired.commit hgood hgood' hrely)
      (.start hgood) hstart hrun
  exact ⟨hfired.waiting, hfired.fired, hfired.last,
    fun r hr hkey => hup.good.continuation r.id r (get?_key hr) hkey⟩

/-- The jobs when a parent has ended with a barrier over one child, which is under the unique
key. -/
def declaredOver (uniqueKey : String) : Table JobRow.id :=
  (World.after {} (startedParent ++
    [.finalize {} { newID := fun _ => "child" } (firstClaim "parent" "spawn" "token") "run"
      (oneChild uniqueKey) none 0])).db.jobs

/-- Identifiers longer than those of `declaredOver`. -/
def longIDs : Context := { newID := fun k => String.ofList (List.replicate (k + 10) 'x') }

/-- What the cancel of the child commits. -/
def cancelChild (d : Dialect) (uniqueKey : String) : Option (List JobRow) :=
  (cancelJobTx d longIDs "child").alone Table.put (declaredOver uniqueKey) []

theorem longIDs_mints (d : Dialect) (hjobs : ∀ r ∈ jobs.rows, r.id.length < 10) :
    Mints d longIDs jobs {l | ∃ k, l = rowLock d (longIDs.newID k)} := by
  have hlength : ∀ k, (longIDs.newID k).length = k + 10 := by
    intro k
    simp [longIDs]
  refine ⟨?_, ?_, rfl⟩
  · intro j k heq
    grind
  · grind [Table.get?]

theorem cancelChild_run {uniqueKey : String} {ws : List JobRow}
    (hjobs : ∀ r ∈ (declaredOver uniqueKey).rows, r.id.length < 10)
    (h : cancelChild d uniqueKey = some ws) :
    Run Table.put (ChildTx d "parent") { committed := declaredOver uniqueKey }
      { committed := view Table.put (declaredOver uniqueKey) ws
        log := [(declaredOver uniqueKey, view Table.put (declaredOver uniqueKey) ws)] } :=
  Prog.alone_commits (.cancelJob "child" (longIDs_mints d hjobs)) h

theorem not_outstanding
    (h : ∀ r ∈ t.rows, r.pendingChildOf p = true → (jobs.get? r.id).isNone = true) :
    ¬ Outstanding p jobs t := by
  rintro ⟨id, ⟨r₀, hr₀, -⟩, r, hr, hp⟩
  have hnone := h r (mem_of_get? hr) hp
  grind [key_of_get?]

/-- The cancel of the only child of a barrier ends the generation, and inserts the continuation. -/
theorem barrier_fires_once_cancel :
    ∃ sys, Run Table.put (ChildTx .postgres "parent") { committed := declaredOver "" } sys ∧
      sys.log.countP (inserts "parent") = 1 := by
  obtain ⟨ws, hws⟩ := isSome_iff_exists.mp
    (show (cancelChild .postgres "").isSome = true by decide)
  have hended : ∀ ws, cancelChild .postgres "" = some ws →
      ∀ r ∈ (view Table.put (declaredOver "") ws).rows, r.pendingChildOf "parent" = true →
        ((declaredOver "").get? r.id).isNone = true := by
    decide
  obtain ⟨src, hsrc⟩ := isSome_iff_exists.mp
    (show ((declaredOver "").get? "parent").isSome = true by decide)
  have hparent : ∀ r, (declaredOver "").get? "parent" = some r →
      r.state.isTerminal = true ∧ r.visible = true ∧ r.barrierKind ≠ none := by
    decide
  have hchild : ∃ r, (declaredOver "").get? "child" = some r ∧ r.pendingChildOf "parent" = true :=
    ⟨_, rfl, by decide⟩
  have hrun := cancelChild_run (by decide) hws
  refine ⟨_, hrun, (barrier_fires_once .postgres hsrc (hparent src hsrc).1
    ⟨src, rfl, (hparent src hsrc).2⟩ ⟨"child", hchild⟩ (by decide) hrun).2.1 ?_⟩
  exact not_outstanding (hended ws hws)

/-- The child holds the key of the continuation: its cancel ends the generation and clears the
barrier, and no commit inserts a continuation. -/
theorem taken_key_fires_nothing :
    (∃ src, (declaredOver "barrier:parent").get? "parent" = some src ∧
        src.state.isTerminal = true ∧ Declares (some src)) ∧
      (∃ id, PendingChild "parent" ((declaredOver "barrier:parent").get? id)) ∧
      ∃ sys, Run Table.put (ChildTx .postgres "parent")
          { committed := declaredOver "barrier:parent" } sys ∧
        ¬ Outstanding "parent" (declaredOver "barrier:parent") sys.committed ∧
        sys.log.countP (inserts "parent") = 0 := by
  refine ⟨⟨_, rfl, by decide, _, rfl, by decide, by decide⟩, ⟨"child", _, rfl, by decide⟩, ?_⟩
  obtain ⟨ws, hws⟩ := isSome_iff_exists.mp
    (show (cancelChild .postgres "barrier:parent").isSome = true by decide)
  have hended : ∀ ws, cancelChild .postgres "barrier:parent" = some ws →
      (∀ r ∈ (view Table.put (declaredOver "barrier:parent") ws).rows,
        r.pendingChildOf "parent" = true →
          ((declaredOver "barrier:parent").get? r.id).isNone = true) ∧
      inserts "parent" (declaredOver "barrier:parent",
        view Table.put (declaredOver "barrier:parent") ws) = false := by
    decide
  refine ⟨_, cancelChild_run (by decide) hws, not_outstanding (hended ws hws).1, ?_⟩
  simp_all

end Flywheel
