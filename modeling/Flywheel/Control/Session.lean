import Mathlib.Data.List.Induction
import Flywheel.Barrier.Continuation
import Flywheel.Control.Statements

/-!
# A control's session beside the other writers

A control beside arbitrary other writers at READ COMMITTED. The others leave the rows that the
control has locked as they are, and bring no job back that is gone: ids are minted once, and nothing
in the runtime shows a soft-deleted job again. A session is followed through three stages: it holds
rows that it has read under their locks (`Holds`), it has changed some of them (`Touches`), and it
has run its barrier checks and written its history (`Tracked`).
-/

namespace Flywheel

open Relational Transition ReadCommitted List Option Table

/-! ## The other writers -/

/-- What other sessions may commit while a session holds the locks `h`. -/
structure Beside (h : Set Lock) (s s' : JobStore) : Prop where
  locked : ∀ id, Lock.row id ∈ h → s'.db.jobs.get? id = s.db.jobs.get? id
  stored : s.stored ⊆ s'.stored
  gone : ∀ id ∈ s.stored, s.db.job? id = none → s'.db.job? id = none

/-- The contract of a control with the other writers. -/
def controlContract : Contract JobStore Lock where
  Good s := ∀ r ∈ s.db.jobs.rows, r.id ∈ s.stored
  Rely := Beside
  refl _ _ := ⟨fun _ _ => rfl, subset_rfl, fun _ _ => id⟩
  trans hab hbc := by
    refine ⟨fun id hid => (hbc.locked id hid).trans (hab.locked id hid),
      hab.stored.trans hbc.stored, ?_⟩
    exact fun id hid hgone => hbc.gone id (hab.stored hid) (hab.gone id hid hgone)

variable {r : JobRow} {id : String}

/-- No transaction of the runtime shows a soft-deleted job again. -/
theorem step_hidden {db : Db} (hr : db.jobs.get? id = some r) (hhidden : r.visible = false)
    (a : Action) : (step db a).job? id = none := by
  rcases step_row hr a with ⟨-, hnone⟩ | ⟨mid, r', hmid, hr', hfired⟩
  · rw [Db.job?, hnone]
    rfl
  · have hmid : mid.visible = false := by
      rcases hmid with rfl | ⟨k, -, hmove⟩
      · exact hhidden
      · exact hmove.columns.1.trans hhidden
    have hstill : r'.deletedAt.isNone = false := by
      rw [hfired.cleared]
      exact hmid
    rw [Db.job?, hr', filter_some, hstill]
    rfl

variable (s : JobStore)

/-- Every transaction of the runtime that stores no job under an id of an earlier one is such a
writer. -/
theorem beside_step (a : Action)
    (hminted : ∀ id ∈ s.stored, s.db.jobs.get? id = none → (step s.db a).jobs.get? id = none) :
    Beside ∅ s { db := step s.db a
                 stored := s.stored ∪ {id | (step s.db a).jobs.get? id ≠ none} } where
  locked id hid := absurd hid (Set.notMem_empty _)
  stored := Set.subset_union_left
  gone id hid hgone := by
    cases hr : s.db.jobs.get? id with
    | none => simp_all [Db.job?]
    | some r =>
      refine step_hidden hr ?_ a
      unfold Db.job? at hgone
      rw [hr, filter_eq_none_iff] at hgone
      exact Bool.eq_false_iff.mpr (hgone r rfl)

/-! ## What is written -/

/-- The ids of the jobs that a control's own statements change, in the order of its writes. -/
def changedIDs (ws : List ControlWrite) : List String :=
  ws.filterMap fun
    | .update r => some r.id
    | .deleteJob id => some id
    | _ => none

/-- The entries of the history among the writes. -/
def writtenEntries (ws : List ControlWrite) : List AuditRow :=
  ws.filterMap fun
    | .audit e => some e
    | _ => none

/-- What a write leaves of the row under an id. -/
def ControlWrite.on (id : String) (o : Option JobRow) : ControlWrite → Option JobRow
  | .update r | .barrier r => if r.id = id then some r else o
  | .deleteJob k => if k = id then none else o
  | _ => o

/-- A barrier check aside, the row is as it was: a continuation was enqueued under its id, or the
row has lost its barrier. -/
inductive Aside : Option JobRow → Option JobRow → Prop where
  | absent : Aside none none
  | continuation {r : JobRow} {parentID : String} (key : r.uniqueKey = some (barrierKey parentID)) :
      Aside none (some r)
  | stored {r r' : JobRow} (same : { r' with barrierKind := r.barrierKind
                                             barrierSpec := r.barrierSpec
                                             updatedAt := r.updatedAt } = r) :
      Aside (some r) (some r')

/-- The commit of `ws` on `s` is recorded exactly: `changed` are the rows of the jobs that it
changes, as they were, and `entries` are the history that it writes. -/
structure Recorded (s : JobStore) (ws : List ControlWrite) (changed : List JobRow)
    (entries : List AuditRow) : Prop where
  nodup : (changed.map JobRow.id).Nodup
  before : ∀ r ∈ changed, s.db.jobs.get? r.id = some r
  writes : (changedIDs ws).Perm (changed.map JobRow.id)
  history : (view JobStore.write s ws).db.audit = s.db.audit ++ entries
  entries : List.Forall₂ (fun r e => e.target = .job ∧ e.targetID = r.id ∧
    e.details.lookup "from_state" = some (.str r.state.name)) changed entries
  rest : ∀ id, id ∉ changed.map JobRow.id →
    Aside (s.db.jobs.get? id) ((view JobStore.write s ws).db.jobs.get? id)

/-- What each commit of a control is to meet. -/
def RecordedExactly (s : JobStore) (ws : List ControlWrite) : Prop :=
  ∃ changed entries, Recorded s ws changed entries

/-! ## Writes, row by row -/

variable (ws : List ControlWrite)

/-- One write more changes its own jobs more. -/
theorem changedIDs_snoc (w : ControlWrite) :
    changedIDs (ws ++ [w]) = changedIDs ws ++ changedIDs [w] :=
  filterMap_append

/-- One write more writes its own entry more. -/
theorem writtenEntries_snoc (w : ControlWrite) :
    writtenEntries (ws ++ [w]) = writtenEntries ws ++ writtenEntries [w] :=
  filterMap_append

/-- The session's view of a row: the writes in their order, over the committed row. -/
theorem view_get? (id : String) : (view JobStore.write s ws).db.jobs.get? id =
      ws.foldl (ControlWrite.on id) (s.db.jobs.get? id) := by
  induction ws using List.reverseRecOn with
  | nil => rfl
  | append_singleton ws w ih =>
    rw [view_snoc, foldl_append, ← ih]
    cases w with
    | update r | barrier r => exact get?_put _ r id
    | deleteJob k =>
      change (Table.delete _ _).get? id = if k = id then none else _
      rw [get?_delete]
      split_ifs with hk
      · refine filter_eq_none_iff.mpr fun r hr => ?_
        simp [(key_of_get? hr).trans hk.symm]
      · cases hr : (view JobStore.write s ws).db.jobs.get? id with
        | none => rfl
        | some r => grind [key_of_get?]
    | _ => rfl

/-- The session's view of the history: the committed one, and its own entries. -/
theorem view_audit : (view JobStore.write s ws).db.audit = s.db.audit ++ writtenEntries ws := by
  induction ws using List.reverseRecOn with
  | nil => exact (append_nil _).symm
  | append_singleton ws w ih =>
    rw [view_snoc, writtenEntries_snoc, ← append_assoc, ← ih]
    cases w with
    | audit e => rfl
    | _ => exact (append_nil _).symm

/-- Writes to other rows leave a row as it is. -/
theorem foldl_on_of_not_mem {ws : List ControlWrite} (hchanged : id ∉ changedIDs ws)
    (hbarrier : ∀ r, .barrier r ∈ ws → r.id ≠ id) (o : Option JobRow) :
    ws.foldl (ControlWrite.on id) o = o := by
  induction ws using List.reverseRecOn with
  | nil => rfl
  | append_singleton ws w ih =>
    rw [changedIDs_snoc, mem_append, not_or] at hchanged
    rw [foldl_append, ih hchanged.1 fun r hr => hbarrier r (mem_append_left _ hr)]
    have hw := hchanged.2
    cases w with
    | barrier r => exact if_neg (hbarrier r (by simp))
    | update | deleteJob =>
      refine if_neg fun hid => hw ?_
      simp [changedIDs, hid]
    | _ => rfl

/-- No check at all is a check aside. -/
theorem Aside.refl (o : Option JobRow) : Aside o o := by
  cases o with
  | none => exact .absent
  | some r => exact .stored rfl

/-- A cleared barrier is a check's doing. -/
theorem Aside.clear {o : Option JobRow} (h : Aside o (some r)) (now : Time) :
    Aside o (some ((clearBarrier now).apply r)) := by
  cases h with
  | continuation key => exact .continuation key
  | stored same => exact .stored same

/-! ## The stages of a session -/

/-- The session has read the rows `L` under their locks. Of the jobs `K` that it knows of, those
that are neither among them nor still to be locked (`pending`) are gone. -/
structure Holds (K pending : List String) (L : List JobRow) (s : JobStore) (h : Set Lock) :
    Prop where
  nodup : (L.map JobRow.id ++ pending).Nodup
  locked : ∀ r ∈ L, s.db.jobs.get? r.id = some r ∧ Lock.row r.id ∈ h
  known : ∀ id ∈ K, id ∈ s.stored ∧ (id ∈ pending ∨ id ∈ L.map JobRow.id ∨ s.db.job? id = none)

/-- The writes change the jobs of the rows `changed`, and nothing else of `jobs` or the history. -/
structure Touches (changed : List JobRow) (ws : List ControlWrite) : Prop where
  nodup : (changed.map JobRow.id).Nodup
  writes : (changedIDs ws).Perm (changed.map JobRow.id)
  barriers : ∀ r, .barrier r ∉ ws
  entries : writtenEntries ws = []

/-- The session has changed the jobs of the rows `changed` and written `entries`, and what it has
written besides is of its barrier checks. -/
structure Tracked (changed : List JobRow) (entries : List AuditRow) (s : JobStore)
    (ws : List ControlWrite) (h : Set Lock) : Prop where
  nodup : (changed.map JobRow.id).Nodup
  before : ∀ r ∈ changed, s.db.jobs.get? r.id = some r ∧ Lock.row r.id ∈ h
  writes : (changedIDs ws).Perm (changed.map JobRow.id)
  barriers : ∀ r, .barrier r ∈ ws → Lock.row r.id ∈ h
  entries : writtenEntries ws = entries
  rest : ∀ id, id ∉ changed.map JobRow.id →
    Aside (s.db.jobs.get? id) (ws.foldl (ControlWrite.on id) (s.db.jobs.get? id))

section Session

variable {K pending : List String} {L changed : List JobRow} {entries : List AuditRow}
  {s s' : JobStore} {ws : List ControlWrite} {h : Set Lock}

/-- Rows that are held under their locks stay as they are. -/
theorem Holds.lasting : Lasting controlContract
    fun s (_ : List ControlWrite) h => Holds K pending L s h where
  rely hh _ hrely := by
    refine ⟨hh.nodup, fun r hr => ?_, fun id hid => ?_⟩
    · obtain ⟨hget, hlock⟩ := hh.locked r hr
      exact ⟨(hrely.locked _ hlock).trans hget, hlock⟩
    · obtain ⟨hstored, hcases⟩ := hh.known id hid
      exact ⟨hrely.stored hstored, hcases.imp_right (Or.imp_right (hrely.gone id hstored))⟩
  lock l hh := ⟨hh.nodup, fun r hr =>
    ⟨(hh.locked r hr).1, Set.mem_insert_of_mem l (hh.locked r hr).2⟩, hh.known⟩

/-- A job that is not changed is seen as it is committed. -/
theorem Touches.view_get? (ht : Touches changed ws) (hid : id ∉ changed.map JobRow.id)
    (s : JobStore) : (view JobStore.write s ws).db.jobs.get? id = s.db.jobs.get? id := by
  rw [Flywheel.view_get?]
  exact foldl_on_of_not_mem (fun hmem => hid (ht.writes.mem_iff.mp hmem))
    (fun r hr => absurd hr (ht.barriers r)) _

/-- No write touches no job. -/
theorem Touches.nil : Touches [] [] := ⟨nodup_nil, .nil, by simp, rfl⟩

/-- The order of the changed jobs does not matter. -/
theorem Touches.perm (ht : Touches changed ws) {changed' : List JobRow}
    (hperm : changed.Perm changed') : Touches changed' ws :=
  ⟨(hperm.map JobRow.id).nodup_iff.mp ht.nodup, ht.writes.trans (hperm.map _), ht.barriers,
    ht.entries⟩

/-- A write that changes one job more. -/
theorem Touches.snoc (ht : Touches changed ws) (hr : r.id ∉ changed.map JobRow.id)
    {w : ControlWrite} (hw : changedIDs [w] = [r.id]) (hbarrier : ∀ r, w ≠ .barrier r)
    (hentry : writtenEntries [w] = []) : Touches (changed ++ [r]) (ws ++ [w]) where
  nodup := by
    rw [map_append]
    exact nodup_append_comm.mp (nodup_cons.mpr ⟨hr, ht.nodup⟩)
  writes := by
    rw [changedIDs_snoc, hw, map_append]
    exact ht.writes.append_right _
  barriers r' hr' := by
    rcases mem_append.mp hr' with hmem | hmem
    · exact ht.barriers r' hmem
    · exact hbarrier r' (mem_singleton.mp hmem).symm
  entries := by rw [writtenEntries_snoc, ht.entries, hentry]; rfl

/-- Writes to the other tables touch no job. -/
theorem Touches.append (ht : Touches changed ws) {ws' : List ControlWrite}
    (hws : ∀ w ∈ ws', changedIDs [w] = [] ∧ (∀ r, w ≠ .barrier r) ∧ writtenEntries [w] = []) :
    Touches changed (ws ++ ws') := by
  induction ws' generalizing ws with
  | nil => rwa [append_nil]
  | cons w ws' ih =>
    obtain ⟨⟨hchanged, hbarrier, hentry⟩, hrest⟩ := forall_mem_cons.mp hws
    rw [append_cons]
    refine ih ⟨ht.nodup, ?_, ?_, ?_⟩ hrest
    · rw [changedIDs_snoc, hchanged, append_nil]
      exact ht.writes
    · intro r hr
      rcases mem_append.mp hr with hmem | hmem
      · exact ht.barriers r hmem
      · exact hbarrier r (mem_singleton.mp hmem).symm
    · rw [writtenEntries_snoc, ht.entries, hentry]
      rfl

/-- A session that has changed jobs it holds is tracked from there. -/
theorem Holds.accounts (hh : Holds K pending L s h) (ht : Touches changed ws)
    (hsub : ∀ r ∈ changed, r ∈ L) : Tracked changed [] s ws h where
  nodup := ht.nodup
  before r hr := hh.locked r (hsub r hr)
  writes := ht.writes
  barriers r hr := absurd hr (ht.barriers r)
  entries := ht.entries
  rest id hid := by
    rw [← view_get?, ht.view_get? hid]
    exact .refl _

/-- What is tracked stays so, whatever the others commit. -/
theorem Tracked.lasting : Lasting controlContract (Tracked changed entries) where
  rely := by
    intro s s' ws h ha _ hrely
    refine ⟨ha.nodup, fun r hr => ?_, ha.writes, ha.barriers, ha.entries, fun id hid => ?_⟩
    · obtain ⟨hget, hlock⟩ := ha.before r hr
      exact ⟨(hrely.locked _ hlock).trans hget, hlock⟩
    · by_cases hbarrier : ∃ r, .barrier r ∈ ws ∧ r.id = id
      · -- a row that a check has written is locked
        obtain ⟨r, hr, rfl⟩ := hbarrier
        rw [hrely.locked _ (ha.barriers r hr)]
        exact ha.rest _ hid
      · rw [foldl_on_of_not_mem (fun hmem => hid (ha.writes.mem_iff.mp hmem))
          fun r hr heq => hbarrier ⟨r, hr, heq⟩]
        exact .refl _
  lock l ha := ⟨ha.nodup, fun r hr =>
    ⟨(ha.before r hr).1, Set.mem_insert_of_mem l (ha.before r hr).2⟩,
    ha.writes, fun r hr => Set.mem_insert_of_mem l (ha.barriers r hr), ha.entries, ha.rest⟩

/-- A barrier check's write is tracked. -/
theorem Tracked.barrier (ha : Tracked changed entries s ws h) (hlock : Lock.row r.id ∈ h)
    (hrest : r.id ∉ changed.map JobRow.id → Aside (s.db.jobs.get? r.id) (some r)) :
    Tracked changed entries s (ws ++ [.barrier r]) h where
  nodup := ha.nodup
  before := ha.before
  writes := by
    rw [changedIDs_snoc]
    exact (append_nil _).symm ▸ ha.writes
  barriers r' hr' := by
    rcases mem_append.mp hr' with hmem | hmem
    · exact ha.barriers r' hmem
    · simp_all
  entries := by
    rw [writtenEntries_snoc, ha.entries]
    exact append_nil _
  rest id hid := by
    rw [foldl_append]
    change Aside _ (if r.id = id then some r else _)
    split_ifs with heq
    · subst heq
      exact hrest hid
    · exact ha.rest id hid

/-- An entry of the history is tracked. -/
theorem Tracked.audit (ha : Tracked changed entries s ws h) (e : AuditRow) :
    Tracked changed (entries ++ [e]) s (ws ++ [.audit e]) h where
  nodup := ha.nodup
  before := ha.before
  writes := by
    rw [changedIDs_snoc]
    exact (append_nil _).symm ▸ ha.writes
  barriers r hr := by
    rcases mem_append.mp hr with hmem | hmem
    · exact ha.barriers r hmem
    · cases mem_singleton.mp hmem
  entries := by
    rw [writtenEntries_snoc, ha.entries]
    rfl
  rest id hid := by
    rw [foldl_append]
    exact ha.rest id hid

end Session

end Flywheel
