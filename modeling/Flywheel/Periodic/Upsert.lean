import Flywheel.Library.Alone
import Flywheel.Periodic.Model

/-!
# Concurrent upserts of one slug

`upsertPeriodic` decides from a row that it read without a lock whether to write the cursor, and
then updates whatever row is there. Two upserts that overlap can so store one's cadence beside the
other's cursor. As long as each update's decision is the one that the stored row would have led to,
the calls leave what they would leave one after another, in the order in which their writes landed.
-/

namespace Flywheel

open Relational Threads Transition List Table

/-! ## One call on its own -/

/-- The state after one upsert that no other call overlaps. -/
def serialUpsert (env : PeriodicEnv) (s : PeriodicState) (call : UpsertCall) : PeriodicState :=
  (Periodic.upsertPeriodic env call).alone (periodicMachine env) (.run {}) s

/-- What one upsert makes of the definitions, on its own. -/
def upsertTable (env : PeriodicEnv) (t : Table Definition.id) (call : UpsertCall) :
    Table Definition.id :=
  match call.spec.validate env, findSlug t call.spec.slug with
  | .error _, _ => t
  | .ok (), some d =>
    match updatedCursor env d.row call with
    | .error _ => t
    | .ok nextRun => t.update (isDefinition d.row.id) (updateDefinition call nextRun)
  | .ok (), none =>
    match insertRow env call with
    | .error _ => t
    | .ok row => t.insert slugClash { row }

/-- A call on its own does to the definitions what `upsertTable` says. -/
theorem serialUpsert_periodics (env : PeriodicEnv) (s : PeriodicState) (call : UpsertCall) :
    (serialUpsert env s call).periodics = upsertTable env s.periodics call := by
  have hfind : findSlug s.periodics call.spec.slug = s.find? call.spec.slug := rfl
  unfold serialUpsert Periodic.upsertPeriodic upsertTable
  rw [hfind]
  cases hvalid : call.spec.validate env with
  | error e => rfl
  | ok u =>
    cases hfound : s.find? call.spec.slug with
    | some d =>
      cases hcursor : updatedCursor env d.row call <;>
        simp [Periodic.stmt, Periodic.upsertExisting, Prog.alone, Prog.call,
          periodicMachine, hfound, updatePeriodic, hcursor, Except.map]
    | none =>
      cases hrow : insertRow env call with
      | error e =>
        simp_all [Periodic.stmt, Prog.alone, periodicMachine, Flywheel.insertPeriodic, Except.map]
      | ok row =>
        by_cases hconflict : s.periodics.conflicts slugClash { row } = true
        · have hsame : s.periodics.insert slugClash { row } = s.periodics := dif_pos hconflict
          simp_all [Periodic.stmt, Prog.alone, periodicMachine, Flywheel.insertPeriodic, Except.map]
        · simp_all [Periodic.stmt, Prog.alone, periodicMachine, Flywheel.insertPeriodic, Except.map]

variable {env : PeriodicEnv} {call : UpsertCall} {e : PeriodicError}

theorem serialUpsert_of_invalid (h : call.spec.validate env = .error e)
    (s : PeriodicState) : serialUpsert env s call = s := by
  unfold serialUpsert Periodic.upsertPeriodic
  rw [h]
  rfl

theorem serialUpsert_of_refused (h : insertRow env call = .error e)
    {s : PeriodicState} (hnew : s.find? call.spec.slug = none) : serialUpsert env s call = s := by
  unfold serialUpsert Periodic.upsertPeriodic
  cases hvalid : call.spec.validate env with
  | error e => rfl
  | ok u =>
    simp [Periodic.stmt, Prog.alone, Prog.call, periodicMachine, hnew, Flywheel.insertPeriodic, h,
      Except.map]

theorem updatedCursor_ok (hvalid : call.spec.validate env = .ok ()) (row : PeriodicRow) :
    ∃ nextRun, updatedCursor env row call = .ok nextRun := by
  have hnext : ∃ t, nextFireAfter env call.spec (call.ctx.clock 0) = .ok t := by
    unfold nextFireAfter
    by_cases hevery : 0 < call.spec.every
    · exact ⟨_, if_pos hevery⟩
    · rw [if_neg hevery]
      obtain ⟨schedule, hparse⟩ := (PeriodicSpec.validate_ok hvalid).2 hevery
      exact ⟨_, by rw [hparse]⟩
  obtain ⟨t, ht⟩ := hnext
  unfold updatedCursor
  by_cases hchanged : scheduleChanged row call.spec = true
  · exact ⟨some t, by rw [if_pos hchanged, ht]; rfl⟩
  · exact ⟨none, if_neg hchanged⟩

/-! ## What the statements leave of a slug -/

/-- A slug's definition stays, under its id. -/
def Stays (t t' : Table Definition.id) : Prop :=
  ∀ slug d, findSlug t slug = some d → ∃ d', findSlug t' slug = some d' ∧ d'.row.id = d.row.id

variable (t : Table Definition.id)

theorem Stays.refl : Stays t t := fun _ d h => ⟨d, h, rfl⟩

theorem Stays.trans {t t' t'' : Table Definition.id} (h : Stays t t') (h' : Stays t' t'') :
    Stays t t'' := by
  intro slug d hd
  obtain ⟨d', hd', hid⟩ := h slug d hd
  obtain ⟨d'', hd'', hid'⟩ := h' slug d' hd'
  exact ⟨d'', hd'', hid'.trans hid⟩

variable (p : Definition → Bool) {f : Patch Definition.id}

theorem findSlug_update (hslug : ∀ d, (f.apply d).row.slug = d.row.slug) (slug : String) :
    findSlug (t.update p f) slug = (findSlug t slug).map fun d => if p d then f.apply d else d := by
  unfold findSlug Table.update
  rw [find?_map]
  congr 2
  grind

theorem stays_update (hslug : ∀ d, (f.apply d).row.slug = d.row.slug) : Stays t (t.update p f) := by
  intro slug d hd
  refine ⟨if p d then f.apply d else d, by rw [findSlug_update t p hslug, hd]; rfl, ?_⟩
  by_cases hp : p d
  · rw [if_pos hp]
    exact f.key_apply d
  · rw [if_neg hp]

theorem stays_insert (r : Definition) : Stays t (t.insert slugClash r) := by
  intro slug d hd
  refine ⟨d, ?_, rfl⟩
  unfold Table.insert
  split_ifs
  · exact hd
  · exact find?_append.trans (by rw [show List.find? _ t.rows = some d from hd]; rfl)

theorem findSlug_isSome_of_mem {t : Table Definition.id} {d : Definition} (hd : d ∈ t.rows) :
    ∃ d', findSlug t d.row.slug = some d' := by
  have h : (findSlug t d.row.slug).isSome := find?_isSome.mpr ⟨d, hd, by simp⟩
  exact Option.isSome_iff_exists.mp h

/-! ## The protocol of the upserts -/

/-- The upserts so far have left what they would leave one after another, in the order in which
their writes landed. -/
structure InOrder (env : PeriodicEnv) (start : PeriodicState) (calls : List UpsertCall)
    (s : PeriodicState) : Prop where
  nodup : s.written.Nodup
  mem : ∀ c ∈ s.written, c ∈ calls
  stays : Stays start.periodics s.periodics
  periodics : s.periodics = s.written.foldl (upsertTable env) start.periodics

/-- No statement fails, every minted id is new, and an update decides as the stored row would have
it: the verdict on the row that it read is the verdict on the row that it writes. -/
def DecidesAlike (o : PeriodicOp) (input : PeriodicInput) (s : PeriodicState) : Prop :=
  input ≠ .fail ∧ match o with
    | .insertPeriodic call => s.periodics.get? (call.ctx.newID 0) = none
    | .updatePeriodic existing call =>
      ∀ d, s.find? call.spec.slug = some d →
        scheduleChanged existing.row call.spec = scheduleChanged d.row call.spec
    | _ => True

/-- A call writes for itself alone, and keeps every definition. -/
def upsertProtocol (env : PeriodicEnv) (start : PeriodicState) (calls : List UpsertCall) :
    Protocol PeriodicState PeriodicInput ℕ PeriodicOp PeriodicOp.Result where
  machine := periodicMachine env
  Inv := InOrder env start calls
  Ok := DecidesAlike
  Rely number s s' := (∀ c : UpsertCall, c.number = number → (c ∈ s'.written ↔ c ∈ s.written)) ∧
    Stays s.periodics s'.periodics
  Guar number s s' := (∀ c : UpsertCall, c.number ≠ number → (c ∈ s'.written ↔ c ∈ s.written)) ∧
    Stays s.periodics s'.periodics
  rely_refl _ _ := ⟨fun _ _ => Iff.rfl, Stays.refl _⟩
  rely_trans h h' := ⟨fun c hc => (h'.1 c hc).trans (h.1 c hc), h.2.trans h'.2⟩
  guar_rely hne h := ⟨fun c hc => h.1 c fun heq => hne (heq.symm.trans hc), h.2⟩

section Rules

variable {env : PeriodicEnv} {start : PeriodicState} {calls : List UpsertCall} {call : UpsertCall}
  {s : PeriodicState}

theorem upserts_guar_refl (number : ℕ) (s : PeriodicState) :
    (upsertProtocol env start calls).Guar number s s := ⟨fun _ _ => Iff.rfl, Stays.refl _⟩

theorem InOrder.write {s' : PeriodicState} (h : InOrder env start calls s) (hcall : call ∈ calls)
    (hnew : call ∉ s.written) (hwritten : s'.written = s.written ++ [call])
    (hstays : Stays s.periodics s'.periodics)
    (hperiodics : s'.periodics = upsertTable env s.periodics call) :
    InOrder env start calls s' := by
  refine ⟨?_, fun c hc => ?_, h.stays.trans hstays, ?_⟩
  · rw [hwritten]
    exact nodup_append.mpr ⟨h.nodup, nodup_singleton _, fun a ha b hb => by
      rw [mem_singleton.mp hb]
      exact fun heq => hnew (heq ▸ ha)⟩
  · rw [hwritten] at hc
    rcases mem_append.mp hc with hc | hc
    · exact h.mem c hc
    · rwa [mem_singleton.mp hc]
  · rw [hwritten, foldl_append, ← h.periodics, hperiodics]
    rfl

theorem mem_written_of_ne {c : UpsertCall} (hne : c.number ≠ call.number)
    {written : List UpsertCall} : c ∈ written ++ [call] ↔ c ∈ written := by
  have hother : c ≠ call := fun heq => hne (heq ▸ rfl)
  simp [hother]

/-- The update of a row that the call read lands. -/
theorem upserts_existing (hcall : call ∈ calls) (hvalid : call.spec.validate env = .ok ())
    (hnew : call ∉ s.written) {existing : Definition}
    (hread : ∃ d, s.find? call.spec.slug = some d ∧ d.row.id = existing.row.id) :
    Upholds (upsertProtocol env start calls) call.number (Periodic.upsertExisting existing call) s
      fun _ s' => call ∈ s'.written := by
  obtain ⟨nextRun, hcursor⟩ := updatedCursor_ok hvalid existing.row
  refine upholds_stmt rfl (upserts_guar_refl _) ?_ ?_
  · rintro e s' - - (hfail | ⟨ctx, -, hact⟩)
    · exact absurd rfl hfail.1
    · simp [updatePeriodic, hcursor, bind, Except.bind, pure, Except.pure, Except.map] at hact
  · intro s₁ ctx s₂ a hrely hinv hok hact
    simp only [PeriodicOp.act, updatePeriodic, hcursor, bind, Except.bind, pure, Except.pure,
      Except.map, Except.ok.injEq, Prod.mk.injEq] at hact
    obtain ⟨rfl, -⟩ := hact
    have hstays : Stays s₁.periodics (s₁.periodics.update (isDefinition existing.row.id)
        (updateDefinition call nextRun)) := stays_update _ _ fun _ => rfl
    have hnew₁ : call ∉ s₁.written := fun h => hnew ((hrely.1 call rfl).mp h)
    obtain ⟨d, hd, hid⟩ := hread
    obtain ⟨d₁, hd₁, hid₁⟩ := hrely.2 _ _ hd
    refine ⟨hinv.write hcall hnew₁ rfl hstays ?_, ⟨fun c hc => mem_written_of_ne hc, hstays⟩, ?_⟩
    · -- the stored row is the one that was read, and leads to the same cursor
      have hsame : updatedCursor env d₁.row call = .ok nextRun := by
        rw [← hcursor]
        unfold updatedCursor
        rw [hok.2 d₁ hd₁]
      simp_all [upsertTable]
    · intro s₃ hrely' _
      exact (hrely'.1 call rfl).mpr (mem_append_right _ mem_cons_self)

/-- The insert of a slug that the call did not find lands, is refused, or finds the row of another
call, which is then updated. -/
theorem upserts_insert (hcall : call ∈ calls) (hvalid : call.spec.validate env = .ok ())
    (hnew : call ∉ s.written) (hstart : start.find? call.spec.slug = none) :
    Upholds (upsertProtocol env start calls) call.number (do
        match ← Periodic.stmt (.insertPeriodic call) with
        | .error e => return .error e
        | .ok true => return .ok ()
        | .ok false =>
          match ← Periodic.stmt (.loadPeriodic call.spec.slug) with
          | .error e => return .error e
          | .ok none => return .error (.removed call.spec.slug)
          | .ok (some existing) => Periodic.upsertExisting existing call) s
      fun _ s' => call ∈ s'.written ∨ serialUpsert env start call = start := by
  refine upholds_stmt rfl (upserts_guar_refl _) ?_ ?_
  · rintro e s' - - (hfail | ⟨ctx, -, hact⟩)
    · exact absurd rfl hfail.1
    · rw [PeriodicOp.act, Flywheel.insertPeriodic] at hact
      cases hrow : insertRow env call with
      | error e' => exact fun s'' _ _ => .inr (serialUpsert_of_refused hrow hstart)
      | ok row =>
        rw [hrow] at hact
        cases hact
  · intro s₁ ctx s₂ landed hrely hinv hok hact
    have hnew₁ : call ∉ s₁.written := fun h => hnew ((hrely.1 call rfl).mp h)
    rw [PeriodicOp.act, Flywheel.insertPeriodic] at hact
    obtain ⟨row, hrow, hmap⟩ := map_eq_ok.mp hact
    obtain ⟨⟨hrowid, hrowslug⟩, -⟩ := insertRow_spec hrow
    by_cases hconflict : s₁.periodics.conflicts slugClash { row } = true
    · rw [if_pos hconflict] at hmap
      cases hmap
      refine ⟨hinv, upserts_guar_refl _ _, ?_⟩
      -- under a new id it is the slug that conflicts, so that its row is there to be read
      have hfound : ∃ d, s₁.find? call.spec.slug = some d := by
        obtain ⟨d, hd, hclash⟩ := any_eq_true.mp hconflict
        have hid : d.row.id ≠ row.id := by
          rw [hrowid]
          exact get?_eq_none_iff.mp hok.2 d hd
        have hslug : d.row.slug = call.spec.slug := by
          simpa [slugClash, hid, hrowslug] using hclash
        rw [← hslug]
        exact findSlug_isSome_of_mem hd
      refine upholds_stmt rfl (upserts_guar_refl _) ?_ ?_
      · rintro e s' - - (hfail | ⟨ctx, -, hact⟩)
        · exact absurd rfl hfail.1
        · cases hact
      · intro s₃ ctx s₄ found hrely' hinv' _ hact'
        cases hact'
        have hnew₃ : call ∉ s₃.written := fun h => hnew₁ ((hrely'.1 call rfl).mp h)
        obtain ⟨d, hd⟩ := hfound
        obtain ⟨existing, hread, -⟩ := hrely'.2 _ _ hd
        have hread : s₃.find? call.spec.slug = some existing := hread
        refine ⟨hinv', upserts_guar_refl _ _, ?_⟩
        rw [hread]
        exact (upserts_existing hcall hvalid hnew₃ ⟨existing, hread, rfl⟩).mono
          fun _ _ _ h => .inl h
    · rw [if_neg hconflict] at hmap
      cases hmap
      have hstays := stays_insert s₁.periodics { row }
      have habsent : findSlug s₁.periodics call.spec.slug = none := by
        refine find?_eq_none.mpr fun d hd hslug => hconflict ?_
        refine any_eq_true.mpr ⟨d, hd, ?_⟩
        simp_all [slugClash]
      refine ⟨hinv.write hcall hnew₁ rfl hstays ?_, ⟨fun c hc => mem_written_of_ne hc, hstays⟩, ?_⟩
      · simp [upsertTable, hvalid, habsent, hrow]
      · intro s₃ hrely' _
        exact .inl ((hrely'.1 call rfl).mpr (mem_append_right _ mem_cons_self))

/-- A call writes, or would have changed nothing at the start. -/
theorem upserts_upsertPeriodic (hcall : call ∈ calls) (hnew : call ∉ s.written) :
    Upholds (upsertProtocol env start calls) call.number (Periodic.upsertPeriodic env call) s
      fun _ s' => call ∈ s'.written ∨ serialUpsert env start call = start := by
  unfold Periodic.upsertPeriodic
  cases hvalid : call.spec.validate env with
  | error e => exact fun s' _ _ => .inr (serialUpsert_of_invalid hvalid start)
  | ok u =>
    refine upholds_stmt rfl (upserts_guar_refl _) ?_ ?_
    · rintro e s' - - (hfail | ⟨ctx, -, hact⟩)
      · exact absurd rfl hfail.1
      · cases hact
    · intro s₁ ctx s₂ found hrely hinv _ hact
      cases hact
      have hnew₁ : call ∉ s₁.written := fun h => hnew ((hrely.1 call rfl).mp h)
      refine ⟨hinv, upserts_guar_refl _ _, ?_⟩
      cases hfound : s₁.find? call.spec.slug with
      | some existing =>
        exact (upserts_existing hcall hvalid hnew₁ ⟨existing, hfound, rfl⟩).mono
          fun _ _ _ h => .inl h
      | none =>
        have hstart : start.find? call.spec.slug = none := by
          by_contra hsome
          obtain ⟨d, hd⟩ := Option.ne_none_iff_exists'.mp hsome
          obtain ⟨d', hd', -⟩ := hinv.stays _ _ hd
          rw [show s₁.find? call.spec.slug = some d' from hd'] at hfound
          cases hfound
        exact upserts_insert hcall hvalid hnew₁ hstart

end Rules

/-! ## Whole histories -/

/-- The threads of the upserts. -/
def upsertThreads (env : PeriodicEnv) (calls : List UpsertCall) : List PeriodicThread :=
  calls.map fun c => ⟨c.number, do let _ ← Periodic.upsertPeriodic env c; return ()⟩

/-- The system after some moves of the upserts, from a start. -/
def upsertsAfter (env : PeriodicEnv) (start : PeriodicState) (calls : List UpsertCall)
    (moves : List ℕ) : PeriodicSys :=
  run (fun sys thread => PeriodicSys.step env sys (.move thread (.run {})))
    { shared := { start with written := [] }, threads := upsertThreads env calls } moves

/-- The move that a thread takes next decides as the stored row would have it. -/
def MoveDecidesAlike (sys : PeriodicSys) (thread : ℕ) : Prop :=
  ∀ label o next, sys.threads[thread]? = some ⟨label, .op o next⟩ →
    DecidesAlike o (.run {}) sys.shared

/-- In some order, the calls one after another leave the definitions that they left together. -/
def Serializable (env : PeriodicEnv) (start : PeriodicState) (calls : List UpsertCall)
    (after : PeriodicState) : Prop :=
  ∃ order : List UpsertCall, order.Perm calls ∧
    after.periodics = (order.foldl (serialUpsert env) start).periodics

/-- One call after another makes of the definitions what `upsertTable` makes of them, in turn. -/
theorem serial_periodics (env : PeriodicEnv) (order : List UpsertCall) (s : PeriodicState) :
    (order.foldl (serialUpsert env) s).periodics = order.foldl (upsertTable env) s.periodics := by
  induction order generalizing s with
  | nil => rfl
  | cons c order ih => rw [foldl_cons, foldl_cons, ih, serialUpsert_periodics]

variable {start : PeriodicState}

theorem serial_of_idle {idle : List UpsertCall} (h : ∀ c ∈ idle, serialUpsert env start c = start) :
    idle.foldl (serialUpsert env) start = start := by
  induction idle with
  | nil => rfl
  | cons c idle ih => simp_all

/-- The upserts uphold their protocol: at the end, a call has written, or would have changed nothing
at the start. -/
theorem upserts_upheld {calls : List UpsertCall}
    (hnumbers : (calls.map UpsertCall.number).Nodup) {moves : List ℕ}
    (halike : Legal (fun sys thread => PeriodicSys.step env sys (.move thread (.run {})))
      MoveDecidesAlike
      { shared := { start with written := [] }, threads := upsertThreads env calls } moves) :
    Upheld (upsertProtocol env start calls) (fun number s => ∀ c ∈ calls, number = c.number →
        c ∈ s.written ∨ serialUpsert env start c = start)
      (calls.map UpsertCall.number) (upsertsAfter env start calls moves) := by
  refine halike.invariant (I := Upheld (upsertProtocol env start calls)
    (fun number s => ∀ c ∈ calls, number = c.number →
      c ∈ s.written ∨ serialUpsert env start c = start) (calls.map UpsertCall.number)) ?_ ?_
  · exact fun sys thread hok h => h.move hok
  · refine ⟨⟨nodup_nil, by simp, Stays.refl _, rfl⟩, hnumbers, ?_, fun t ht => ?_⟩
    · rw [upsertThreads, map_map]
      rfl
    · obtain ⟨c, hc, rfl⟩ := mem_map.mp ht
      refine (upserts_upsertPeriodic hc (by simp)).bind fun _ s' _ hdone => ?_
      intro s'' hrely _ c' hc' hnumber
      obtain rfl : c' = c := inj_on_of_nodup_map hnumbers hc' hc hnumber.symm
      exact hdone.imp_left (hrely.1 c' rfl).mpr

/-- In every interleaving in which each update's decision is the one that the stored row would have
led to, the upserts leave the definitions that they would leave one after another. -/
theorem upserts_serializable (env : PeriodicEnv) (start : PeriodicState) (calls : List UpsertCall)
    (hnumbers : (calls.map UpsertCall.number).Nodup) (moves : List ℕ)
    (halike : Legal (fun sys thread => PeriodicSys.step env sys (.move thread (.run {})))
      MoveDecidesAlike
      { shared := { start with written := [] }, threads := upsertThreads env calls } moves)
    (hended : ∀ t ∈ (upsertsAfter env start calls moves).threads, t.prog.ended = true) :
    Serializable env start calls (upsertsAfter env start calls moves).shared := by
  have hupheld := upserts_upheld hnumbers halike
  have hinv := hupheld.inv
  -- every call has written, or would have changed nothing at the start
  have hdone : ∀ c ∈ calls, c ∈ (upsertsAfter env start calls moves).shared.written ∨
      serialUpsert env start c = start := by
    intro c hc
    have hlabel : c.number ∈ (upsertsAfter env start calls moves).threads.map Thread.label := by
      rw [hupheld.labels]
      exact mem_map_of_mem hc
    obtain ⟨t, ht, hnumber⟩ := mem_map.mp hlabel
    exact hupheld.ended ht (hended t ht) c hc hnumber
  generalize (upsertsAfter env start calls moves).shared = after at hinv hdone
  classical
  -- the calls that did not write come first
  let idle := calls.filter fun c => c ∉ after.written
  refine ⟨idle ++ after.written, ?_, ?_⟩
  · have hnodup : calls.Nodup := Nodup.of_map _ hnumbers
    refine (perm_ext_iff_of_nodup ?_ hnodup).mpr fun c => ?_
    · refine nodup_append.mpr ⟨hnodup.filter _, hinv.nodup, ?_⟩
      grind
    · rw [mem_append, mem_filter, decide_eq_true_eq]
      constructor
      · rintro (⟨hc, -⟩ | hc)
        · exact hc
        · exact hinv.mem c hc
      · grind
  · have hidle : idle.foldl (serialUpsert env) start = start := by
      grind [serial_of_idle]
    rw [hinv.periodics, foldl_append, hidle, serial_periodics]

/-- An upsert that makes it one of another kind. -/
def summaryCall : UpsertCall where
  number := 0
  spec := { slug := "report", kind := "summary", every := 60 * second, active := true }
  ctx := {}

/-- An upsert that leaves the definition a minutely one. -/
def minutelyCall : UpsertCall where
  number := 1
  spec := { slug := "report", kind := "report", every := 60 * second, active := true }
  ctx := {}

/-- A minutely definition, before the two upserts. -/
def minutelyState : PeriodicState where
  periodics := minutelyTable

/-- Calls that both read the row before either writes it are serializable where both leave the
schedule. -/
theorem upserts_of_one_schedule_serializable :
    Serializable { parseCron := fun _ => none } minutelyState [summaryCall, minutelyCall]
      (upsertsAfter { parseCron := fun _ => none } minutelyState [summaryCall, minutelyCall]
        [0, 1, 0, 1]).shared := by
  refine upserts_serializable { parseCron := fun _ => none } minutelyState
    [summaryCall, minutelyCall] (by decide) [0, 1, 0, 1] ⟨?_, ?_, ?_, ?_, trivial⟩ (by decide)
  · exact fun label o next h => by cases h; exact ⟨by simp, trivial⟩
  · exact fun label o next h => by cases h; exact ⟨by simp, trivial⟩
  · exact fun label o next h => by cases h; exact ⟨by simp, fun d hd => by cases hd; rfl⟩
  · exact fun label o next h => by cases h; exact ⟨by simp, fun d hd => by cases hd; rfl⟩

/-- Both calls read the minutely row. The hourly one then writes its cadence and its cursor, and the
minutely one its cadence alone, as the row that it read is minutely: the definition ends minutely,
with the hourly cursor. Neither order of the calls leaves that. -/
theorem upserts_overlap_mix_cadence_and_cursor :
    (∀ t ∈ (upsertsAfter { parseCron := fun _ => none } minutelyState [hourlyCall, minutelyCall]
        [0, 1, 0, 1]).threads, t.prog.ended = true) ∧
      (upsertsAfter { parseCron := fun _ => none } minutelyState [hourlyCall, minutelyCall]
        [0, 1, 0, 1]).shared.periodics.rows.map
          (fun d => (d.row.intervalSeconds, d.row.nextRunAt)) = [(some 60, 3600 * second)] ∧
      ¬ Serializable { parseCron := fun _ => none } minutelyState [hourlyCall, minutelyCall]
        (upsertsAfter { parseCron := fun _ => none } minutelyState [hourlyCall, minutelyCall]
          [0, 1, 0, 1]).shared := by
  have hafter : (upsertsAfter { parseCron := fun _ => none } minutelyState
      [hourlyCall, minutelyCall] [0, 1, 0, 1]).shared.periodics.rows.map
        (fun d => (d.row.intervalSeconds, d.row.nextRunAt)) = [(some 60, 3600 * second)] := by
    decide
  refine ⟨by decide, hafter, ?_⟩
  rintro ⟨order, hperm, hserial⟩
  have horder : order = [hourlyCall, minutelyCall] ∨ order = [minutelyCall, hourlyCall] := by
    obtain ⟨x, y, rfl⟩ := length_eq_two.mp hperm.length_eq
    grind [mem_cons_self]
  rw [hserial] at hafter
  rcases horder with rfl | rfl
  · revert hafter
    decide
  · revert hafter
    decide

end Flywheel
