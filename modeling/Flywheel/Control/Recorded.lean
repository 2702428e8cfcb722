import Flywheel.Control.Session

/-!
# What a control commits is what it records

Each statement of `Flywheel.Control.Statements` carries a control's session from one stage to the
next, whatever other writers commit between its steps. From them, for each control: a transaction
that has not committed has changed nothing, and one that commits writes one entry for each job that
it changes, with the state that the job was in.
-/

namespace Flywheel

open Relational Transition ReadCommitted List Table

/-- The rest of a control's transaction commits what it records. -/
abbrev Recording (p : ControlTx) (s : JobStore) (ws : List ControlWrite) (h : Set Lock) : Prop :=
  Fulfils controlContract JobStore.write RecordedExactly p s ws h

variable {id : String} {job r : JobRow} {actor : Actor} {moved : List String}

section Statements

variable {K : List String} {L changed : List JobRow} {s : JobStore} {ws : List ControlWrite}
  {h : Set Lock}

/-! ## Selects -/

theorem nodup_idsMatching (p : JobRow → Bool) (db : Db) : (idsMatching p db).Nodup := by
  unfold idsMatching
  refine (perm_insertionSort _ _).nodup_iff.mpr ?_
  exact db.jobs.nodup.sublist (filter_sublist.map _)

theorem job?_eq_none {db : Db} (h : ∀ r, db.jobs.get? id = some r → r.visible = true → False) :
    db.job? id = none := by
  cases hjob : db.job? id with
  | none => rfl
  | some r =>
    obtain ⟨hget, hvisible⟩ := Db.job?_eq_some.mp hjob
    exact (h r hget hvisible).elim

variable {ctx : Context} {next : ControlTx} {entries : List AuditRow} {rows : List JobRow}
  {ids : List String} {p : Db → JobRow → Bool}

/-- The rows of a select, locked one by one. A row that the session knows of and that the statement
does not return is gone. -/
theorem fulfils_lockEach {next : List JobRow → ControlTx}
    (hp : ∀ db r, r.id ∈ K → r.visible = true → p db r = true)
    (hnext : ∀ rows s h, Holds K [] rows s h → (∀ r ∈ rows, ∃ db, p db r = true) →
      Recording (next rows) s [] h)
    (hh : Holds K ids rows s h) (hrows : ∀ r ∈ rows, ∃ db, p db r = true) :
    Recording (ControlTx.lockEach p ids rows next) s [] h := by
  induction ids generalizing rows s h with
  | nil => exact hnext rows s h hh hrows
  | cons id ids ih =>
    refine fulfils_lock Holds.lasting hh fun s₁ h₁ => fulfils_read Holds.lasting h₁ fun s₂ _ h₂ =>
      ?_
    rw [view_nil]
    -- the row is read again under its lock, which is what is held of it from here on
    cases hread : (s₂.db.jobs.get? id).filter (p s₂.db) with
    | some r =>
      obtain ⟨hget, hmatch⟩ := Option.filter_eq_some_iff.mp hread
      have hid : r.id = id := key_of_get? hget
      refine ih ⟨?_, ?_, ?_⟩ ?_
      · rw [map_append, append_assoc, map_singleton, hid]
        exact h₂.nodup
      · exact forall_mem_append.mpr ⟨h₂.locked, by simp_all⟩
      · intro k hk
        obtain ⟨hstored, hcases⟩ := h₂.known k hk
        refine ⟨hstored, ?_⟩
        rw [map_append, mem_append, map_singleton, hid]
        rcases hcases with hpending | hmem | hgone
        · rcases mem_cons.mp hpending with rfl | hpending
          · exact .inr (.inl (.inr (mem_singleton.mpr rfl)))
          · exact .inl hpending
        · exact .inr (.inl (.inl hmem))
        · exact .inr (.inr hgone)
      · exact forall_mem_append.mpr ⟨hrows, forall_mem_singleton.mpr ⟨_, hmatch⟩⟩
    | none =>
      refine ih ⟨?_, h₂.locked, ?_⟩ hrows
      · exact h₂.nodup.sublist ((sublist_cons_self id ids).append_left _)
      · intro k hk
        obtain ⟨hstored, hcases⟩ := h₂.known k hk
        refine ⟨hstored, ?_⟩
        rcases hcases with hpending | hrest
        · rcases mem_cons.mp hpending with rfl | hpending
          · refine .inr (.inr (job?_eq_none fun r hget hvisible => ?_))
            have hmatch := hp s₂.db r (key_of_get? hget ▸ hk) hvisible
            simp_all
          · exact .inl hpending
        · exact .inr hrest

/-- A select that locks its rows, in a session that has written nothing and knows of the jobs
`K`. -/
theorem fulfils_selectForUpdate {next : Db → List JobRow → ControlTx}
    (hp : ∀ db r, r.id ∈ K → r.visible = true → p db r = true)
    (hnext : ∀ v rows s h, Holds K [] rows s h → (∀ r ∈ rows, ∃ db, p db r = true) →
      Recording (next v rows) s [] h)
    (hK : ∀ id ∈ K, id ∈ s.stored) :
    Recording (ControlTx.selectForUpdate p next) s [] h := by
  intro s₁ _ hrely
  rw [view_nil]
  refine fulfils_lockEach hp (hnext s₁.db) ⟨?_, by simp, fun id hid => ?_⟩ (by simp)
  · exact nodup_idsMatching _ _
  · refine ⟨hrely.stored (hK id hid), ?_⟩
    by_cases hmem : id ∈ idsMatching (p s₁.db) s₁.db
    · exact .inl hmem
    · refine .inr (.inr (job?_eq_none fun r hget hvisible => hmem ?_))
      have hr : r.id = id := key_of_get? hget
      exact mem_idsMatching.mpr ⟨r, mem_of_get? hget, hp _ r (hr ▸ hid) hvisible, hr⟩

/-- `lockJob`: the job is held as the session read it. -/
theorem fulfils_lockJob {next : JobRow → ControlTx}
    (hnext : ∀ job s h, job.id = id → Holds [] [] [job] s h → Recording (next job) s [] h) :
    Recording (ControlTx.lockJob id next) s [] h := by
  refine fulfils_selectForUpdate (fun _ _ hk => absurd hk not_mem_nil)
    (fun _ rows s₁ h₁ hh hrows => ?_) (fun k hk => absurd hk not_mem_nil)
  cases rows with
  | nil => trivial
  | cons job rest =>
    obtain ⟨db, hjob⟩ := hrows job mem_cons_self
    simp only [isJob, Bool.and_eq_true, decide_eq_true_eq] at hjob
    refine hnext job s₁ h₁ hjob.1 ⟨by simp, fun r hr => ?_, fun k hk => absurd hk not_mem_nil⟩
    obtain rfl := mem_singleton.mp hr
    exact hh.locked r mem_cons_self

/-! ## Changes -/

section Update

variable {guard : Db → JobRow → Bool} {f : Patch JobRow.id} {next : List String → ControlTx}
  (hguard : ∀ db r, guard db r = true → r.visible = true ∧ (r.id ∈ L.map JobRow.id ∨ r.id ∈ K))
  (hnext : ∀ changed s ws h, Holds K [] L s h → Touches changed ws → (∀ r ∈ changed, r ∈ L) →
    Recording (next (changed.map JobRow.id)) s ws h)

include hguard hnext

/-- The rows of an update, one by one. What its guard matches is a row that the session holds, or of
a job that it knows of, which is then gone. -/
theorem fulfils_updateEach (hh : Holds K [] L s h) (ht : Touches changed ws)
    (hsub : ∀ r ∈ changed, r ∈ L) (hids : ids.Nodup)
      (hnew : ∀ id ∈ ids, id ∉ changed.map JobRow.id) :
    Recording (ControlTx.updateEach guard f ids (changed.map JobRow.id) next) s ws h := by
  induction ids generalizing changed s ws h with
  | nil => exact hnext changed s ws h hh ht hsub
  | cons id ids ih =>
    obtain ⟨hid, hids⟩ := nodup_cons.mp hids
    obtain ⟨hnewID, hnew⟩ := forall_mem_cons.mp hnew
    refine fulfils_lock Holds.lasting hh fun s₁ h₁ => fulfils_read Holds.lasting h₁ fun s₂ _ h₂ =>
      ?_
    rw [ht.view_get? hnewID]
    cases hread : (s₂.db.jobs.get? id).filter (guard (view JobStore.write s₂ ws).db) with
    | none => exact ih h₂ ht hsub hids hnew
    | some r =>
      obtain ⟨hget, hmatch⟩ := Option.filter_eq_some_iff.mp hread
      obtain ⟨hvisible, hcases⟩ := hguard _ r hmatch
      have hrid : r.id = id := key_of_get? hget
      -- the row is one that the session holds, and so as it read it
      have hheld : id ∈ L.map JobRow.id := by
        rw [hrid] at hcases
        rcases hcases with hmem | hknown
        · exact hmem
        · rcases (h₂.known id hknown).2 with hpending | hmem | hgone
          · exact absurd hpending not_mem_nil
          · exact hmem
          · rw [Db.job?_eq_some.mpr ⟨hget, hvisible⟩] at hgone
            cases hgone
      obtain ⟨r₀, hr₀, hr₀id⟩ := mem_map.mp hheld
      obtain rfl : r = r₀ := by
        have hget₀ := (h₂.locked r₀ hr₀).1
        grind
      have hmoved : changed.map JobRow.id ++ [id] = (changed ++ [r]).map JobRow.id := by
        rw [map_append, map_singleton, hrid]
      change Fulfils _ _ _ (ControlTx.updateEach guard f ids (changed.map JobRow.id ++ [id]) next)
        s₂ (ws ++ [.update (f.apply r)]) _
      rw [hmoved]
      refine ih h₂ (ht.snoc (hrid ▸ hnewID) ?_ (fun _ => by simp) rfl) ?_ hids ?_
      · exact congrArg (fun k => [k]) (f.key_apply r)
      · exact forall_mem_append.mpr ⟨hsub, forall_mem_singleton.mpr hr₀⟩
      · intro k hk hmem
        rw [map_append, mem_append, map_singleton, hrid] at hmem
        rcases hmem with hmem | hmem
        · exact hnew k hk hmem
        · exact hid (mem_singleton.mp hmem ▸ hk)

theorem fulfils_updateWhere (hh : Holds K [] L s h) :
    Recording (ControlTx.updateWhere guard f next) s [] h :=
  fulfils_read Holds.lasting hh fun _ _ h₁ =>
    fulfils_updateEach hguard hnext h₁ Touches.nil (by simp) (nodup_idsMatching _ _) (by simp)

end Update

/-- `updateLockedJob`: the job that the session holds has been changed. -/
theorem fulfils_updateLockedJob {upd : Patch JobRow.id}
    (hnext : ∀ s ws h, Holds [] [] [job] s h → Touches [job] ws → Recording next s ws h)
    (hh : Holds [] [] [job] s h) : Recording (ControlTx.updateLockedJob job upd next) s [] h := by
  refine fulfils_updateWhere (fun db r hr => ?_) (fun changed s ws h hh ht hsub => ?_) hh
  · simp_all [lockedGuard, isJob]
  · rw [length_map]
    split_ifs with hone
    · obtain ⟨r, rfl⟩ := length_eq_one_iff.mp hone
      simp_all
    · trivial

theorem fulfils_writeEach {Post : JobStore → List ControlWrite → Prop} {ws' : List ControlWrite}
    (hnext : Fulfils controlContract JobStore.write Post next s (ws ++ ws') h) :
    Fulfils controlContract JobStore.write Post (ControlTx.writeEach ws' next) s ws h := by
  induction ws' generalizing ws with
  | nil => rwa [append_nil] at hnext
  | cons w ws' ih =>
    refine ih ?_
    rwa [append_cons] at hnext

/-- The jobs of a delete, all of which the session holds, one by one. -/
theorem fulfils_deleteEach {next : List String → ControlTx}
    (hnext : ∀ s ws h, Holds K [] L s h → Touches (changed ++ rows) ws →
      Recording (next ((changed ++ rows).map JobRow.id)) s ws h) (hrows : ∀ r ∈ rows, r ∈ L)
    (hnodup : ((changed ++ rows).map JobRow.id).Nodup) (hh : Holds K [] L s h)
    (ht : Touches changed ws) :
    Recording (ControlTx.deleteEach (rows.map JobRow.id) (changed.map JobRow.id) next) s ws h := by
  induction rows generalizing changed s ws h with
  | nil =>
    rw [append_nil] at hnext
    exact hnext s ws h hh ht
  | cons r rows ih =>
    obtain ⟨hr, hrows⟩ := forall_mem_cons.mp hrows
    have hnew : r.id ∉ changed.map JobRow.id := by
      grind
    refine fulfils_lock Holds.lasting hh fun s₁ h₁ => fulfils_read Holds.lasting h₁ fun s₂ _ h₂ =>
      ?_
    rw [ht.view_get? hnew, (h₂.locked r hr).1]
    have hdeleted : changed.map JobRow.id ++ [r.id] = (changed ++ [r]).map JobRow.id := by
      rw [map_append, map_singleton]
    rw [hdeleted]
    rw [append_cons] at hnodup hnext
    exact ih hnext hrows hnodup h₂ (ht.snoc hnew rfl (fun _ => by simp) rfl)

theorem fulfils_deleteFrom {α : Type} {rows : JobStore → List α} {w : α → ControlWrite}
    (hw : ∀ x, changedIDs [w x] = [] ∧ (∀ r, w x ≠ .barrier r) ∧ writtenEntries [w x] = [])
    (hnext : ∀ s ws, Holds K [] L s h → Touches changed ws → Recording next s ws h)
    (hh : Holds K [] L s h) (ht : Touches changed ws) :
    Recording (.read fun v => ControlTx.writeEach ((rows v).map w) next) s ws h := by
  refine fulfils_read Holds.lasting hh fun s₁ _ h₁ => fulfils_writeEach
    (hnext s₁ _ h₁ (ht.append ?_))
  simp_all

section Delete

variable {next : List String → ControlTx} (hids : ∀ id ∈ ids, id ∈ L.map JobRow.id)
  (hnext : ∀ rows s ws h, Holds K [] L s h → Touches rows ws → (∀ r ∈ rows, r ∈ L) →
    (∀ id, id ∈ rows.map JobRow.id ↔ id ∈ ids) → Recording (next (rows.map JobRow.id)) s ws h)

include hids hnext

/-- The delete from `jobs`, of jobs that the session holds: each of them is deleted. -/
theorem fulfils_deleteJobs (hh : Holds K [] L s h) (ht : Touches [] ws) :
    Recording (.read fun v => ControlTx.deleteEach
        ((v.db.jobs.rows.filter fun r => decide (r.id ∈ ids)).map JobRow.id) [] next) s ws h := by
  refine fulfils_read Holds.lasting hh fun s₁ _ h₁ => ?_
  have hseen : ∀ id, (view JobStore.write s₁ ws).db.jobs.get? id = s₁.db.jobs.get? id := fun id =>
    ht.view_get? not_mem_nil s₁
  -- the rows of the statement's snapshot are the rows that the session holds
  have hrows : ∀ r ∈ (view JobStore.write s₁ ws).db.jobs.rows.filter fun r => decide (r.id ∈ ids),
      r ∈ L := by
    intro r hr
    obtain ⟨hmem, hid⟩ := mem_filter.mp hr
    obtain ⟨r₀, hr₀, heq⟩ := mem_map.mp (hids r.id (of_decide_eq_true hid))
    have hget := (hseen r.id).symm.trans (get?_key hmem)
    rw [← heq, (h₁.locked r₀ hr₀).1] at hget
    exact Option.some_inj.mp hget ▸ hr₀
  have hmem : ∀ id, id ∈ ((view JobStore.write s₁ ws).db.jobs.rows.filter
      fun r => decide (r.id ∈ ids)).map JobRow.id ↔ id ∈ ids := by
    intro id
    constructor
    · grind
    · intro hid
      obtain ⟨r₀, hr₀, rfl⟩ := mem_map.mp (hids id hid)
      have hget := (hseen r₀.id).trans (h₁.locked r₀ hr₀).1
      exact mem_map_of_mem (mem_filter.mpr ⟨mem_of_get? hget, decide_eq_true hid⟩)
  have hnodup := (view JobStore.write s₁ ws).db.jobs.nodup.sublist
    ((filter_sublist (p := fun r => decide (r.id ∈ ids))).map JobRow.id)
  exact fulfils_deleteEach
    (fun s₂ ws₂ h₂ hh₂ ht₂ => hnext _ s₂ ws₂ h₂ hh₂ ht₂ hrows hmem) hrows hnodup h₁ ht

/-- `deleteJobRows`, of jobs that the session holds: each of them is deleted. -/
theorem fulfils_deleteJobRows (hh : Holds K [] L s h) :
    Recording (ControlTx.deleteJobRows ids next) s [] h := by
  refine fulfils_read Holds.lasting hh fun s₁ _ h₁ => ?_
  refine fulfils_deleteFrom (fun _ => ⟨rfl, fun _ => by simp, rfl⟩) (fun s₂ ws₂ h₂ t₂ => ?_) h₁ .nil
  refine fulfils_deleteFrom (fun _ => ⟨rfl, fun _ => by simp, rfl⟩) (fun s₃ ws₃ h₃ t₃ => ?_) h₂ t₂
  refine fulfils_deleteFrom (fun _ => ⟨rfl, fun _ => by simp, rfl⟩) (fun s₄ ws₄ h₄ t₄ => ?_) h₃ t₃
  exact fulfils_deleteJobs hids hnext h₄ t₄

end Delete

/-! ## The history -/

/-- The change that a control records of a row: it names the job, and the state that it was in. -/
def Names (r : JobRow) (c : AuditChange) : Prop :=
  c.target = .job ∧ c.targetID = r.id ∧ c.details.lookup "from_state" = some (.str r.state.name)

/-- The entry names the row, and the state that it was in. -/
abbrev Enters (r : JobRow) (e : AuditRow) : Prop :=
  e.target = .job ∧ e.targetID = r.id ∧ e.details.lookup "from_state" = some (.str r.state.name)

variable {changes : List AuditChange} {parentID : String} {now : Time}

theorem forall₂_auditRows (hchanges : List.Forall₂ Names changed changes) (ctx : Context)
    (actor : Actor) (now : Time) (k : ℕ) :
    List.Forall₂ Enters changed (auditRows ctx actor now k changes) := by
  induction hchanges generalizing k with
  | nil => exact .nil
  | cons hname _ ih => exact .cons hname (ih (k + 1))

section

variable (ha : Tracked changed entries s ws h)

include ha

theorem Tracked.recorded
    (hentries : List.Forall₂ Enters changed entries) : Recorded s ws changed entries where
  nodup := ha.nodup
  before r hr := (ha.before r hr).1
  writes := ha.writes
  history := by rw [view_audit, ha.entries]
  entries := hentries
  rest id hid := by
    rw [view_get?]
    exact ha.rest id hid

theorem Tracked.fulfils_commit
    (hentries : List.Forall₂ Enters changed entries) : Recording .commit s ws h :=
  ReadCommitted.fulfils_commit Tracked.lasting ha fun _ _ _ ha' =>
    ⟨changed, entries, ha'.recorded hentries⟩

theorem Tracked.audits {rows : List AuditRow} :
    Tracked changed (entries ++ rows) s (ws ++ rows.map .audit) h := by
  induction rows generalizing entries ws with
  | nil => simpa using ha
  | cons e rows ih =>
    rw [map_cons, append_cons entries, append_cons ws]
    exact ih (ha.audit e)

end

theorem Tracked.fulfils_recordAudit (ha : Tracked changed [] s ws h)
    (hchanges : List.Forall₂ Names changed changes) :
    Recording (ControlTx.recordAudit ctx actor now changes .commit) s ws h := by
  unfold ControlTx.recordAudit
  split_ifs with hnil
  · subst hnil
    cases hchanges
    exact ha.fulfils_commit .nil
  · refine fulfils_writeEach ?_
    split_ifs with hhook
    · exact ha.audits.fulfils_commit (forall₂_auditRows hchanges ctx actor now 0)
    · trivial

/-! ## Barrier checks -/

/-- A row under an id that the view does not show was not stored, or is one that the session has
deleted. -/
theorem Tracked.aside_insert (ha : Tracked changed entries s ws h)
    (hkey : r.uniqueKey = some (barrierKey parentID))
    (hnone : (view JobStore.write s ws).db.jobs.get? r.id = none)
    (hid : r.id ∉ changed.map JobRow.id) : Aside (s.db.jobs.get? r.id) (some r) := by
  have haside := ha.rest r.id hid
  rw [← view_get?, hnone] at haside
  generalize s.db.jobs.get? r.id = o at haside ⊢
  cases haside
  exact .continuation hkey

theorem fulfils_insertEach {q : JobTx}
    (hrows : ∀ r ∈ rows, ∃ parentID, r.uniqueKey = some (barrierKey parentID))
    (hq : ∀ s ws h, Tracked changed [] s ws h → Recording (ControlTx.ofCheck q next) s ws h)
    (ha : Tracked changed [] s ws h) :
    Recording (ControlTx.ofCheck (insertEach .postgres rows q) next) s ws h := by
  induction rows generalizing s ws h with
  | nil => exact hq s ws h ha
  | cons r rows ih =>
    obtain ⟨⟨parentID, hkey⟩, hrows⟩ := forall_mem_cons.mp hrows
    rw [insertEach, hkey]
    refine fulfils_lock Tracked.lasting ha fun s₁ h₁ => fulfils_lock Tracked.lasting h₁ fun s₂ h₂ =>
      fulfils_read Tracked.lasting h₂ fun s₃ _ h₃ => ?_
    dsimp only
    split_ifs with hconflicts
    · exact ih hrows h₃
    · have hnone : (view JobStore.write s₃ ws).db.jobs.get? r.id = none := by
        simp_all [Table.get?, Table.conflicts]
      refine ih hrows (h₃.barrier ?_ (h₃.aside_insert hkey hnone))
      exact Set.mem_insert_of_mem _ (Set.mem_insert _ _)

/-- The clear of a parent's barrier. -/
theorem fulfils_clear {p : Table JobRow.id → JobRow → Bool}
    {q : List String → JobTx} (hq : ∀ moved s ws h, Tracked changed [] s ws h →
      Recording (ControlTx.ofCheck (q moved) next) s ws h)
    (ha : Tracked changed [] s ws h) :
    Recording (ControlTx.ofCheck (updateEach .postgres p (clearBarrier now) ids moved q) next) s
      ws h := by
  induction ids generalizing moved s ws h with
  | nil => exact hq moved s ws h ha
  | cons id ids ih =>
    refine fulfils_lock Tracked.lasting ha fun s₁ h₁ =>
      fulfils_read Tracked.lasting h₁ fun s₂ _ h₂ => ?_
    dsimp only
    cases hread : ((view JobStore.write s₂ ws).db.jobs.get? id).filter
        (p (view JobStore.write s₂ ws).db.jobs) with
    | none => exact ih h₂
    | some r =>
      obtain ⟨hget, -⟩ := Option.filter_eq_some_iff.mp hread
      have hid : r.id = id := key_of_get? hget
      refine ih (h₂.barrier (r := (clearBarrier now).apply r) ?_ fun hnot => ?_)
      · rw [(clearBarrier now).key_apply, hid]
        exact Set.mem_insert _ _
      · rw [(clearBarrier now).key_apply, hid] at hnot ⊢
        have haside := h₂.rest id hnot
        rw [← view_get?, hget] at haside
        exact haside.clear now

/-- The check of a parent. -/
theorem fulfils_fireTx {k : ℕ} {spawnedBy : String} {q : Bool → JobTx}
    (hq : ∀ fired s ws h, Tracked changed [] s ws h →
      Recording (ControlTx.ofCheck (q fired) next) s ws h)
    (ha : Tracked changed [] s ws h) :
    Recording (ControlTx.ofCheck (fireTx .postgres ctx k parentID spawnedBy q) next) s ws h := by
  refine fulfils_read Tracked.lasting ha fun s₁ _ h₁ => ?_
  dsimp only
  split
  · exact hq _ s₁ ws h h₁
  refine fulfils_lock Tracked.lasting h₁ fun s₂ h₂ => fulfils_read Tracked.lasting h₂ fun s₃ _ h₃ =>
    ?_
  dsimp only
  split
  · exact hq _ s₃ ws _ h₃
  split
  · exact hq _ s₃ ws _ h₃
  refine fulfils_read Tracked.lasting h₃ fun s₄ _ h₄ => ?_
  dsimp only
  split_ifs with hpending
  · exact hq _ s₄ ws _ h₄
  split
  next row hspec =>
    obtain ⟨spec, -, hrow⟩ := Option.map_eq_some_iff.mp hspec
    unfold insertRows
    split_ifs with hkind
    · trivial
    refine fulfils_insertEach ?_ (fun s₅ ws₅ h₅ ha₅ => ?_) h₄
    · intro r hr
      obtain rfl := mem_singleton.mp hr
      exact ⟨parentID, (continuationRow_spec hrow).2.2.1⟩
    · exact fulfils_read Tracked.lasting ha₅ fun s₆ _ h₆ => fulfils_clear (fun _ => hq true) h₆
  · trivial

theorem fulfils_fireEach {parents : List (String × String)}
    (hnext : ∀ s ws h, Tracked changed [] s ws h → Recording next s ws h)
    (ha : Tracked changed [] s ws h) : Recording (ControlTx.fireEach ctx parents next) s ws h := by
  unfold ControlTx.fireEach
  generalize (1 : ℕ) = k
  induction parents generalizing k s ws h with
  | nil => exact hnext s ws h ha
  | cons parent parents ih => exact fulfils_fireTx (fun _ s ws h ha => ih ha (k + 1)) ha

end Statements

section Controls

variable {K : List String} {L changed : List JobRow} {s : JobStore} {ws : List ControlWrite}
  {h : Set Lock} {ctx : Context}

/-! ## One job -/

theorem fulfils_withActor {next : Actor → ControlTx}
    (hnext : ∀ actor, Recording (next actor) s [] h) :
    Recording (ControlTx.withActor ctx next) s [] h := by
  unfold ControlTx.withActor
  cases resolveActor ctx with
  | error => trivial
  | ok actor => exact hnext actor

theorem Holds.fulfils_commit (hh : Holds K [] L s h) : Recording .commit s [] h :=
  (hh.accounts .nil (by simp)).fulfils_commit .nil

variable {action : AuditAction}

theorem Tracked.fulfils_recordOne {now : Time}
    {details : List (String × Json)} (ha : Tracked [job] [] s ws h)
    (hdetails : details.lookup "from_state" = some (.str job.state.name))
    (hid : job.id = id) :
    Recording (ControlTx.recordAudit ctx actor now [{ targetID := id, action, details }] .commit) s
      ws h :=
  ha.fulfils_recordAudit (.cons ⟨rfl, hid.symm, hdetails⟩ .nil)

theorem fulfils_cancelJob (id : String) : Recording (ControlTx.cancelJob ctx id) s [] h := by
  refine fulfils_withActor fun actor => fulfils_lockJob fun job s₁ h₁ hid hh => ?_
  split_ifs with hstate
  · refine fulfils_updateLockedJob (fun s₂ ws₂ h₂ hh₂ ht₂ => ?_) hh
    refine fulfils_fireEach (fun s₃ ws₃ h₃ ha₃ => ?_) (hh₂.accounts ht₂ fun _ hr => hr)
    exact ha₃.fulfils_recordOne rfl hid
  · trivial

theorem fulfils_retryJobWithOptions (id : String) (opts : RetryOpts) :
    Recording (ControlTx.retryJobWithOptions ctx id opts) s [] h := by
  refine fulfils_withActor fun actor => fulfils_lockJob fun job s₁ h₁ hid hh => ?_
  split_ifs with hstate
  · refine fulfils_read Holds.lasting hh fun s₂ _ hh₂ => ?_
    split_ifs with hruns
    · trivial
    · refine fulfils_updateLockedJob (fun s₃ ws₃ h₃ hh₃ ht₃ => ?_) hh₂
      exact (hh₃.accounts ht₃ fun _ hr => hr).fulfils_recordOne rfl hid
  · trivial

/-- A control's change goes on with nothing changed, or with its job changed and the details that
name the state it was in. -/
def Changes (change : JobRow → Time → (Option (List (String × Json)) → ControlTx) → ControlTx) :
    Prop :=
  ∀ job now next s h, Holds [] [] [job] s h → (∀ s h, Holds [] [] [job] s h →
      Recording (next none) s [] h) →
    (∀ details s ws h, Holds [] [] [job] s h → Touches [job] ws →
      details.lookup "from_state" = some (.str job.state.name) →
      Recording (next (some details)) s ws h) →
    Recording (change job now next) s [] h

theorem fulfils_controlJob {acts : List JobState}
    {change : JobRow → Time → (Option (List (String × Json)) → ControlTx) → ControlTx}
    (hchange : Changes change) :
    Recording (ControlTx.controlJob ctx action id acts change) s [] h := by
  refine fulfils_withActor fun actor => fulfils_lockJob fun job s₁ h₁ hid hh => ?_
  split_ifs with hstate
  · refine hchange job _ _ s₁ h₁ hh (fun s₂ h₂ hh₂ => hh₂.fulfils_commit) ?_
    intro details s₂ ws₂ h₂ hh₂ ht₂ hdetails
    exact (hh₂.accounts ht₂ fun _ hr => hr).fulfils_recordOne hdetails hid
  · trivial

theorem changes_changeTo (already : JobRow → Bool) (upd : Time → Patch JobRow.id)
    (details : JobRow → List (String × Json)) :
    Changes (ControlTx.changeTo already upd details) := by
  intro job now next s h hh hnone hsome
  grind [ControlTx.changeTo, fulfils_updateLockedJob]

theorem fulfils_deleteJob (id : String) : Recording (ControlTx.deleteJob ctx id) s [] h := by
  refine fulfils_controlJob fun job now next s h hh _ hsome => ?_
  refine fulfils_deleteJobRows (by simp) (fun rows s₁ ws₁ h₁ hh₁ ht₁ hsub _ => ?_) hh
  rw [length_map]
  split_ifs with hone
  · obtain ⟨r, rfl⟩ := length_eq_one_iff.mp hone
    simp_all
  · trivial

/-! ## Batches -/

theorem Holds.stateIn (hh : Holds K [] L s h) (hr : r ∈ L) :
    ControlTx.stateIn L r.id = r.state.name := by
  have hrows : ∀ r ∈ L, r ∈ s.db.jobs.rows := fun r hr => mem_of_get? (hh.locked r hr).1
  unfold ControlTx.stateIn
  rw [find?_key_of_mem hrows hr]
  rfl

theorem forall₂_names {D : String → AuditChange} (hD : ∀ r ∈ changed, Names r (D r.id)) :
    List.Forall₂ Names changed ((changed.map JobRow.id).map D) := by
  rw [map_map, forall₂_map_right_iff]
  exact forall₂_same.mpr hD

/-- The jobs of `ids`, which were stored when the session read their ids, locked. -/
theorem fulfils_lockJobs {ids : List String} {next : List JobRow → ControlTx}
    (hids : ∀ id ∈ ids, id ∈ s.stored)
    (hnext : ∀ rows s h, Holds ids [] rows s h → Recording (next rows) s [] h) :
    Recording (ControlTx.lockJobs ids next) s [] h := by
  refine fulfils_selectForUpdate (fun db r hr hvisible => ?_)
    (fun _ rows s₁ h₁ hh _ => hnext rows s₁ h₁ hh) hids
  simp_all

theorem fulfils_scopeBatch (scan : Scan) (parentID : String) (t : ScopeTransition) (batchSize : ℕ) :
    Recording (ControlTx.scopeBatch scan ctx parentID t batchSize) s [] h := by
  refine fulfils_withActor fun actor s₁ hgood _ => ?_
  dsimp only
  split
  · exact Holds.fulfils_commit (K := []) (L := []) ⟨by simp, by simp, by simp⟩
  refine fulfils_lockJobs (fun id hid => ?_) fun rows s₂ h₂ hh₂ => ?_
  · obtain ⟨r, hr, rfl⟩ := mem_map.mp hid
    exact hgood r (mem_scopeRows hr).1
  refine fulfils_updateWhere (fun _ r hr => ?_) (fun changed s₃ ws₃ h₃ hh₃ ht₃ hsub => ?_) hh₂
  · simp_all [scopeGuard]
  have ha₃ := hh₃.accounts ht₃ hsub
  split
  next hmoved =>
    obtain rfl := map_eq_nil_iff.mp hmoved
    exact ha₃.fulfils_commit .nil
  refine fulfils_fireEach (fun s₄ ws₄ h₄ ha₄ => ha₄.fulfils_recordAudit (forall₂_names ?_)) ha₃
  intro r hr
  rw [hh₃.stateIn (hsub r hr)]
  exact ⟨rfl, rfl, lookup_cons_self⟩

theorem fulfils_replayBatch (opts : ReplayOpts) (pos : ReplayPosition) (batchSize : ℕ) :
    Recording (ControlTx.replayBatch ctx opts pos batchSize) s [] h := by
  unfold ControlTx.replayBatch
  cases opts.refuse with
  | error => trivial
  | ok =>
    refine fulfils_withActor fun actor s₁ hgood _ => ?_
    dsimp only
    split_ifs with hnil
    · exact Holds.fulfils_commit (K := []) (L := []) ⟨by simp, by simp, by simp⟩
    refine fulfils_lockJobs (fun id hid => ?_) fun rows s₂ h₂ hh₂ => ?_
    · obtain ⟨r, hr, rfl⟩ := mem_map.mp (liveCandidates_subset id hid)
      have hmem := mem_of_mem_take hr
      rw [mem_insertionSort] at hmem
      exact hgood r (mem_filter.mp hmem).1
    refine fulfils_updateWhere (fun _ r hr => ?_) (fun changed s₃ ws₃ h₃ hh₃ ht₃ hsub => ?_) hh₂
    · simp_all [replayGuard]
    refine (hh₃.accounts ht₃ hsub).fulfils_recordAudit (forall₂_names ?_)
    intro r hr
    rw [hh₃.stateIn (hsub r hr)]
    exact ⟨rfl, rfl, lookup_cons_self⟩

theorem BulkRun.lookup_details (run : BulkRun) (slots : List String) (r : JobRow) :
    (run.details slots r).lookup "from_state" = some (.str r.state.name) := by
  unfold BulkRun.details
  cases run.action <;> exact lookup_cons_self

theorem Holds.perm_filter (hh : Holds K [] L s h) (ht : Touches changed ws)
    (hsub : ∀ r ∈ changed, r ∈ L) (hmoved : ∀ id, id ∈ changed.map JobRow.id ↔ id ∈ moved) :
    changed.Perm (L.filter fun r => moved.contains r.id) := by
  have hnodup : (L.map JobRow.id).Nodup := by
    have := hh.nodup
    rwa [append_nil] at this
  refine (perm_ext_iff_of_nodup ht.nodup.of_map (hnodup.of_map.filter _)).mpr fun r => ?_
  grind [inj_on_of_nodup_map]

theorem fulfils_bulkWrite {run : BulkRun} {change slots : List String} {now : Time}
    {next : List String → ControlTx} (hsub : ∀ id ∈ change, id ∈ L.map JobRow.id)
    (hnext : ∀ changed moved s ws h, Holds K [] L s h → Touches changed ws →
      (∀ r ∈ changed, r ∈ L) → (∀ id, id ∈ changed.map JobRow.id ↔ id ∈ moved) →
      Recording (next moved) s ws h)
    (hh : Holds K [] L s h) :
    Recording (ControlTx.bulkWrite run change slots now next) s [] h := by
  unfold ControlTx.bulkWrite
  split_ifs with hdelete
  · grind [fulfils_deleteJobRows]
  · refine fulfils_updateWhere (fun _ r hr => ?_) (fun changed s₁ ws₁ h₁ hh₁ ht₁ hsub₁ =>
      hnext changed _ s₁ ws₁ h₁ hh₁ ht₁ hsub₁ fun _ => Iff.rfl) hh
    simp only [BulkRun.guard, Bool.and_eq_true] at hr
    exact ⟨hr.1.1.1.1, .inl (hsub r.id (contains_iff_mem.mp hr.1.1.2))⟩

theorem fulfils_applyBatch (run : BulkRun) (ids : List String) :
    Recording (ControlTx.applyBatch ctx run ids) s [] h := by
  refine fulfils_withActor fun actor => fulfils_selectForUpdate
    (fun _ _ hk => absurd hk not_mem_nil) (fun v L s₁ h₁ hh _ => ?_)
    (fun k hk => absurd hk not_mem_nil)
  dsimp only
  split
  · exact hh.fulfils_commit
  refine fulfils_bulkWrite (fun id hid => ?_)
    (fun changed moved s₂ ws₂ h₂ hh₂ ht₂ hsub hmoved => ?_) hh
  · obtain ⟨r, hr, rfl⟩ := mem_map.mp hid
    exact mem_map_of_mem (mem_filter.mp hr).1
  have hperm := hh₂.perm_filter ht₂ hsub hmoved
  refine fulfils_fireEach (fun s₃ ws₃ h₃ ha₃ => ha₃.fulfils_recordAudit ?_)
    (hh₂.accounts (ht₂.perm hperm) fun r hr => (mem_filter.mp hr).1)
  rw [forall₂_map_right_iff]
  exact forall₂_same.mpr fun r _ => ⟨rfl, rfl, run.lookup_details ids r⟩

/-- Every commit of a control is recorded exactly. -/
theorem Control.fulfils (c : Control) : Recording (c.tx ctx) s [] h := by
  cases c with
  | reschedule id due =>
    rw [Control.tx, ControlTx.rescheduleJob]
    split_ifs with hzero
    · trivial
    · exact fulfils_controlJob (changes_changeTo _ _ _)
  | setPriority id priority =>
    rw [Control.tx, ControlTx.setJobPriority]
    split_ifs with hlow
    · trivial
    · exact fulfils_controlJob (changes_changeTo _ _ _)
  | pause | resume => exact fulfils_controlJob (changes_changeTo _ _ _)
  | delete id => exact fulfils_deleteJob id
  | retry id opts => exact fulfils_retryJobWithOptions id opts
  | cancel id => exact fulfils_cancelJob id
  | byParent scan parentID t batchSize => exact fulfils_scopeBatch scan parentID t batchSize
  | replay opts pos batchSize => exact fulfils_replayBatch opts pos batchSize
  | bulk run ids => exact fulfils_applyBatch run ids

end Controls

/-! ## Beside every history of other writers -/

/-- A control that has not committed, wherever it stands or fails, has changed nothing: the tables
are what the last of the other writers left. One that commits writes one entry for each job that it
changes, with the state that the job was in immediately before, and none for any other. -/
theorem controls_recorded_exactly (c : Control) (ctx : Context) (own : Set Lock) {s now : JobStore}
    {commits : List JobStore} {t : Session JobStore ControlWrite Lock}
    (hstored : ∀ r ∈ s.db.jobs.rows, r.id ∈ s.stored)
    (hlives : Lives controlContract JobStore.write s ⟨c.tx ctx, [], own⟩ commits now t) :
    now = commits.getLastD s ∧
      (t.prog = .commit → ∃ changed entries, Recorded now t.written changed entries) := by
  refine ⟨hlives.committed, fun hcommit => ?_⟩
  obtain ⟨prog, written, held⟩ := t
  obtain rfl : prog = .commit := hcommit
  exact hlives.fulfils hstored c.fulfils

/-- A job that waits. -/
def jobIn (state : JobState) : JobRow := { (default : JobRow) with id := "a", state }

/-- A table with one job. -/
def storeOf (r : JobRow) : JobStore := { db := { jobs := Table.empty.put r }, stored := {"a"} }

/-- PauseJob, and between its call and its lock another writer makes the job retryable: it changes
the job, and its entry says what it found. -/
theorem pause_records_the_state_it_found :
    ∃ t, Lives controlContract JobStore.write (storeOf (jobIn .available))
        ⟨(Control.pause "a").tx {}, [], ∅⟩ [storeOf (jobIn .retryable)]
        (storeOf (jobIn .retryable)) t ∧
      changedIDs t.written = ["a"] ∧
      ∃ changed entries, Recorded (storeOf (jobIn .retryable)) t.written changed entries := by
  have hgood : ∀ state, controlContract.Good (storeOf (jobIn state)) := by
    intro state r hr
    simp_all [jobIn, storeOf, Table.put, Table.empty]
  have hrely : Beside ∅ (storeOf (jobIn .available)) (storeOf (jobIn .retryable)) := by
    refine ⟨fun _ hid => absurd hid (Set.notMem_empty _), subset_rfl, fun id hid hgone => ?_⟩
    obtain rfl := Set.mem_singleton_iff.mp hid
    cases hgone
  have hbefore : Lives controlContract JobStore.write (storeOf (jobIn .available))
      ⟨(Control.pause "a").tx {}, [], ∅⟩ [storeOf (jobIn .retryable)]
      (storeOf (jobIn .retryable)) ⟨(Control.pause "a").tx {}, [], ∅⟩ :=
    .others .start (hgood .retryable) hrely
  obtain ⟨held, hlives⟩ := hbefore.of_alone rfl
  exact ⟨_, hlives, rfl,
    (controls_recorded_exactly (.pause "a") {} ∅ (hgood .available) hlives).2 rfl⟩

end Flywheel
