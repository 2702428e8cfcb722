import Flywheel.InsertMany

/-!
# The holders that a batch names

`nameHolders` reads the holders of the skipped rows' keys once their chunk is written, the holder of
the unique key before that of the active key. What blocked a row is still there, before the rows
that landed after it (`Table.rows_insertAll`). Where the active key alone blocked it, a later row of
the chunk may have taken its unique key by then, and is named in the place of the job that blocked
it.
-/

namespace Flywheel

open Relational Transition List Option Table

variable {db : Db} {rows old new : List JobRow} {now : Time} {r : JobRow} {k : RowKeys} {i : ℕ}
  {m : ℕ}

/-! ## One read -/

/-- The job named for a row that a job of `old` blocks: one of `old` that blocks it, unless one of
`new` has its unique key and none of `old` does. -/
theorem holderOf_cases (hrows : db.jobs.rows = old ++ new) (hnamed : ∀ s ∈ old ++ new, s.id ≠ "")
    (hblocked : ∃ s ∈ old, s.blocks k) :
    (∃ s ∈ old, s.blocks k ∧ holderOf db k.unique k.active = s.id ∧
      ((k.unique.isSome = true ∧ s.uniqueKey = k.unique) ∨
        ∀ t ∈ new, ¬ (k.unique.isSome = true ∧ t.uniqueKey = k.unique))) ∨
    ∃ t ∈ new, (k.unique.isSome = true ∧ t.uniqueKey = k.unique) ∧
      holderOf db k.unique k.active = t.id := by
  unfold holderOf
  rw [hrows, find?_append, find?_append]
  have hname : ∀ s ∈ old ++ new, ∀ other, orString s.id other = s.id := fun s hs other =>
    if_neg (hnamed s hs)
  cases hfound : old.find? fun r => k.unique.isSome && decide (r.uniqueKey = k.unique) with
  | some s =>
    have hs := find?_some hfound
    rw [Bool.and_eq_true, decide_eq_true_iff] at hs
    have hmem := mem_of_find?_eq_some hfound
    exact .inl ⟨s, hmem, .inl hs, hname s (mem_append_left _ hmem) _, .inl hs⟩
  | none =>
    have hfree := find?_eq_none.mp hfound
    simp only [Bool.and_eq_true, decide_eq_true_iff] at hfree
    cases hlate : new.find? fun r => k.unique.isSome && decide (r.uniqueKey = k.unique) with
    | some t =>
      have ht := find?_some hlate
      rw [Bool.and_eq_true, decide_eq_true_iff] at ht
      have hmem := mem_of_find?_eq_some hlate
      exact .inr ⟨t, hmem, ht, hname t (mem_append_right _ hmem) _⟩
    | none =>
      have hnone := find?_eq_none.mp hlate
      simp only [Bool.and_eq_true, decide_eq_true_iff] at hnone
      obtain ⟨s, hs, hsk⟩ := hblocked
      have hactive := hsk.resolve_left (hfree s hs)
      cases hlive : old.find? fun r => k.active.isSome && r.live &&
          decide (r.uniqueActiveKey = k.active) with
      | none => simpa [hactive] using find?_eq_none.mp hlive s hs
      | some u =>
        have hu := find?_some hlive
        simp only [Bool.and_eq_true, decide_eq_true_iff, and_assoc] at hu
        exact .inl ⟨u, mem_of_find?_eq_some hlive, .inr hu, rfl, .inr hnone⟩

/-- A row of a batch that is not stored once the first `m` rows are written found one of its keys
held. -/
theorem FreshRows.blocked (h : FreshRows db.jobs rows) (hi : rows[i]? = some r)
    (him : i < m) (hskipped : (db.insertRows now (rows.take m)).jobs.get? r.id = none) :
    ∃ landed, (db.insertRows now (rows.take m)).jobs.rows =
        (db.insertRows now (rows.take i)).jobs.rows ++ landed ∧
      (∀ t ∈ landed, ∃ j u, i < j ∧ j < m ∧ rows[j]? = some u ∧ t = u.defaulted now ∧
        (db.insertRows now (rows.take i)).jobs.get? t.id = none ∧
        ∀ s ∈ (db.insertRows now (rows.take i)).jobs.rows, uniqueClash s t = false) ∧
      ∃ s ∈ (db.insertRows now (rows.take i)).jobs.rows, s.blocks r.keys := by
  have hrest : FreshRows (db.insertRows now (rows.take i)).jobs (rows.drop i) := h.rest i now
  have hfrom : ∀ j u, i ≤ j → rows[j]? = some u → u ∈ rows.drop i := by
    intro j u hj hu
    refine mem_of_getElem? (i := j - i) ?_
    rwa [getElem?_drop, Nat.add_sub_cancel' hj]
  have hsplit : rows.take m = rows.take i ++ r :: (rows.take m).drop (i + 1) := by
    obtain ⟨hlt, rfl⟩ := List.getElem?_eq_some_iff.mp hi
    refine ext_getElem? fun j => ?_
    grind
  rw [hsplit, insertRows_append] at hskipped ⊢
  generalize db.insertRows now (rows.take i) = before at *
  have hr := hfrom i r le_rfl hi
  have hnone := hrest.absent r hr
  have hconflicts : before.jobs.conflicts uniqueClash (r.defaulted now) = true := by
    by_contra hfree
    have hlands := get?_insert_of_landed uniqueClash (Bool.eq_false_iff.mpr hfree)
    have hstored := get?_insertAll_of_some uniqueClash
      (((rows.take m).drop (i + 1)).map (JobRow.defaulted now)) hlands
    exact some_ne_none _ (hstored.symm.trans hskipped)
  have hsame : before.jobs.insert uniqueClash (r.defaulted now) = before.jobs := dif_pos hconflicts
  obtain ⟨landed, hrows, hlanded⟩ := rows_insertAll uniqueClash before.jobs
    (((rows.take m).drop (i + 1)).map (JobRow.defaulted now))
  refine ⟨landed, ?_, fun t ht => ?_, ?_⟩
  · grind [Db.insertRows, Table.insertAll]
  · obtain ⟨hmem, hfree⟩ := hlanded t ht
    obtain ⟨u, hu, rfl⟩ := List.mem_map.mp hmem
    obtain ⟨n, hn⟩ := mem_iff_getElem?.mp hu
    rw [getElem?_drop, getElem?_take] at hn
    split_ifs at hn with hlt
    exact ⟨i + 1 + n, u, by omega, hlt, hn, rfl, hrest.absent u (hfrom _ u (by omega) hn), hfree⟩
  · rw [conflicts_eq ((hrest.new r hr).defaulted now).live hnone] at hconflicts
    exact holds_iff.mp hconflicts

/-- **The job named for a skipped row** held its key when the row was skipped exactly if no later
row of its chunk landed with its unique key. -/
theorem FreshRows.names_iff (h : FreshRows db.jobs rows) (hnamed : ∀ s ∈ db.jobs.rows, s.id ≠ "")
    (hids : ∀ r ∈ rows, r.id ≠ "") (hi : rows[i]? = some r) (him : i < m)
    (hskipped : (db.insertRows now (rows.take m)).jobs.get? r.id = none) :
    (∃ s ∈ (db.insertRows now (rows.take i)).jobs.rows, s.blocks r.keys ∧ s.id ≠ "" ∧
      holderOf (db.insertRows now (rows.take m)) r.uniqueKey r.uniqueActiveKey = s.id) ↔
    ¬ ∃ j t, i < j ∧ j < m ∧ rows[j]? = some t ∧ r.uniqueKey.isSome = true ∧
      t.uniqueKey = r.uniqueKey ∧
      ((db.insertRows now (rows.take m)).jobs.get? t.id).isSome = true := by
  obtain ⟨landed, hrows, hlanded, hblocked⟩ := h.blocked hi him hskipped
  have hnonempty : ∀ j, ∀ s ∈ (db.insertRows now (rows.take j)).jobs.rows, s.id ≠ "" := by
    intro j s hs
    rcases get?_insertAll_cases uniqueClash _ (get?_key hs) with hold | ⟨-, hnew, -⟩
    · exact hnamed s (mem_of_get? hold)
    · obtain ⟨u, hu, rfl⟩ := List.mem_map.mp hnew
      exact hids u (mem_of_mem_take hu)
  have hcases := holderOf_cases (k := r.keys) hrows (hrows ▸ hnonempty m) hblocked
  constructor
  · rintro ⟨s, hs, -, -, hname⟩ ⟨j, t, hij, hjm, ht, hsome, hkey, hstored⟩
    -- the later row is one of those that landed
    have hlate : t.defaulted now ∈ landed := by
      obtain ⟨x, hx⟩ := isSome_iff_exists.mp hstored
      have hbefore : (db.insertRows now (rows.take i)).jobs.get? t.id = none :=
        (h.rest i now).absent t (mem_of_getElem? (i := j - i)
          (by rwa [getElem?_drop, Nat.add_sub_cancel' hij.le]))
      have hxid : x.id = t.id := key_of_get? hx
      rcases mem_append.mp (hrows ▸ mem_of_get? hx) with hold | hnew
      · exact absurd hxid (get?_eq_none_iff.mp hbefore x hold)
      · obtain ⟨_, u, -, -, hu, rfl, -, -⟩ := hlanded x hnew
        obtain rfl : u = t := inj_on_of_nodup_map h.nodup (mem_of_getElem? hu)
          (mem_of_getElem? ht) hxid
        exact hnew
    have hlatekey : (t.defaulted now).uniqueKey = r.keys.unique := hkey
    rcases hcases with ⟨s₀, hs₀, -, -, hheld | hfree⟩ | ⟨t', ht', -, hname'⟩
    · grind [uniqueClash]
    · exact hfree _ hlate ⟨hsome, hlatekey⟩
    · obtain ⟨-, -, -, -, -, -, hbefore, -⟩ := hlanded t' ht'
      exact get?_eq_none_iff.mp hbefore s hs (hname.symm.trans hname')
  · intro hnone
    rcases hcases with ⟨s, hs, hblocks, hname, -⟩ | ⟨t, ht, ⟨hsome, hkey⟩, -⟩
    · exact ⟨s, hs, hblocks, hnonempty i s hs, hname⟩
    · obtain ⟨j, u, hij, hjm, hu, rfl, -, -⟩ := hlanded t ht
      refine absurd ⟨j, u, hij, hjm, hu, hsome, hkey, ?_⟩ hnone
      have hmem : u.defaulted now ∈ (db.insertRows now (rows.take m)).jobs.rows :=
        hrows ▸ mem_append_right _ ht
      exact isSome_iff_exists.mpr ⟨u.defaulted now, get?_key hmem⟩

/-! ## The chunks -/

theorem getElem?_of_extends {α β : Type} {as out : List β} {bs : List α} {f : α → β} {b : α}
    (h : as ++ bs.map f <+: out) (hb : bs[i]? = some b) : out[as.length + i]? = some (f b) := by
  obtain ⟨rest, rfl⟩ := h
  have hlt := (List.getElem?_eq_some_iff.mp hb).1
  rw [append_assoc, getElem?_append_right (Nat.le_add_right _ _), Nat.add_sub_cancel_left,
    getElem?_append_left (by rwa [length_map]), getElem?_map, hb]
  rfl

theorem insertManyLoop_extends (now : Time) (opts : BatchOpts) (size fuel : ℕ) (rows : List JobRow)
    (db : Db) (res : BatchResult) :
    res.ids <+: (insertManyLoop now opts size fuel rows db res).2.1.ids ∧
      res.existingIDs <+: (insertManyLoop now opts size fuel rows db res).2.1.existingIDs := by
  induction fuel generalizing rows db res with
  | zero => exact ⟨prefix_rfl, prefix_rfl⟩
  | succ fuel ih =>
    rw [insertManyLoop]
    split_ifs with hrows
    · exact ⟨prefix_rfl, prefix_rfl⟩
    · split
      · exact ⟨prefix_append _ _, prefix_append _ _⟩
      · next db' landed _ =>
        have hnext := ih (rows.drop size) db' (res.addChunk opts (rows.take size) landed db')
        exact ⟨(prefix_append _ _).trans hnext.1, (prefix_append _ _).trans hnext.2⟩

theorem FreshRows.mem_landedRows (h : FreshRows db.jobs rows) (now : Time) (hr : r ∈ rows) :
    r.id ∈ landedRows rows (db.insertRows now rows) ↔
      ((db.insertRows now rows).jobs.get? r.id).isSome = true := by
  have hsame := (landedRows_eq h now).trans (h.readBack now).symm
  rw [← map_inj_left.mp hsame r hr, decide_eq_true_iff]

theorem conflictInsertChunk_cases (now : Time) (db : Db) (hrows : rows ≠ []) :
    (∃ e, conflictInsertChunk now rows db = .error e) ∨ conflictInsertChunk now rows db =
      .ok (db.insertRows now rows, landedRows rows (db.insertRows now rows)) := by
  rw [conflictInsertChunk, if_neg hrows, insertSkippingConflicts]
  split_ifs
  · exact .inl ⟨_, rfl⟩
  · exact .inr rfl

/-- **What the loop reports of a row** whose chunk committed, from the table that its chunk left. -/
theorem insertManyLoop_reports (opts : BatchOpts) {size : ℕ} (hsize : 0 < size) (fuel : ℕ)
    (h : FreshRows db.jobs rows) (res : BatchResult) (hi : rows[i]? = some r)
    (hchunk : res.chunks + i / size < (insertManyLoop now opts size fuel rows db res).2.1.chunks) :
    let out := (insertManyLoop now opts size fuel rows db res).2.1
    let after := db.insertRows now (rows.take ((i / size + 1) * size))
    out.ids[res.ids.length + i]? = some (if (after.jobs.get? r.id).isSome then r.id else "") ∧
      out.existingIDs[res.existingIDs.length + i]? =
        some (if (after.jobs.get? r.id).isSome ∨ opts.skipDuplicates then ""
          else holderOf after r.uniqueKey r.uniqueActiveKey) := by
  induction fuel generalizing rows db res i with
  | zero => simp_all [insertManyLoop]
  | succ fuel ih =>
    have hlt := (List.getElem?_eq_some_iff.mp hi).1
    have hrows : rows ≠ [] := by rintro rfl; exact absurd hlt (Nat.not_lt_zero i)
    have hfirst : rows.take size ≠ [] := by
      rw [Ne, take_eq_nil_iff]
      exact not_or.mpr ⟨hsize.ne', hrows⟩
    rw [insertManyLoop, if_neg hrows] at hchunk ⊢
    rcases conflictInsertChunk_cases now db hfirst with ⟨e, herror⟩ | hok
    · rw [herror] at hchunk
      exact absurd hchunk (Nat.not_lt.mpr (Nat.le_add_right _ _))
    rw [hok] at hchunk ⊢
    dsimp only at hchunk ⊢
    generalize hadded : res.addChunk opts (rows.take size)
      (landedRows (rows.take size) (db.insertRows now (rows.take size)))
      (db.insertRows now (rows.take size)) = added at hchunk ⊢
    have hchunks : added.chunks = res.chunks + 1 := hadded ▸ rfl
    rcases Nat.lt_or_ge i size with hin | hpast
    · -- the row is of this chunk, which later ones leave in the report
      have hat : (rows.take size)[i]? = some r := by rwa [getElem?_take_of_lt hin]
      have hstored := (h.chunk size).mem_landedRows now (mem_of_getElem? hat)
      obtain ⟨hids, hexisting⟩ := insertManyLoop_extends now opts size fuel (rows.drop size)
        (db.insertRows now (rows.take size)) added
      simp only [Nat.div_eq_of_lt hin, Nat.zero_add, Nat.one_mul, ← hstored]
      rw [← hadded] at hids hexisting ⊢
      have hid := getElem?_of_extends hids hat
      have hname := getElem?_of_extends hexisting hat
      exact ⟨hid, hname⟩
    · -- the row is of a later chunk
      have hdiv := Nat.div_eq_sub_div hsize hpast
      have hrest : FreshRows (db.insertRows now (rows.take size)).jobs (rows.drop size) :=
        h.rest size now
      have hat : (rows.drop size)[i - size]? = some r := by
        rwa [getElem?_drop, Nat.add_sub_cancel' hpast]
      have hids : added.ids.length + (i - size) = res.ids.length + i := by
        grind [BatchResult.addChunk]
      have hexisting : added.existingIDs.length + (i - size) = res.existingIDs.length + i := by
        grind [BatchResult.addChunk]
      grind [Nat.succ_mul, insertRows_append]

/-! ## The batch -/

theorem landing_take (h : HeldKeys) (ks : List RowKeys) (n : ℕ) :
    (landing h ks).take n = landing h (ks.take n) := by
  induction ks generalizing h n with
  | nil => simp [landing]
  | cons k ks ih =>
    cases n with
    | zero => rfl
    | succ n => cases hk : h.holds k <;> simp [landing, hk, ih]

/-- The request at a position is skipped: its chunk committed, and its id is cleared. -/
def SkippedAt (size : ℕ) (items : List BatchItem) (res : BatchResult) (i : ℕ) : Prop :=
  i < items.length ∧ i / size < res.chunks ∧ res.ids[i]? = some ""

/-- The batch names, at a position, a job that held a key of the request when its row was skipped:
of the jobs stored before the call and the rows at earlier positions. -/
def NamesHolder (ctx : Context) (items : List BatchItem) (db : Db) (res : BatchResult)
    (i : ℕ) : Prop :=
  ∃ rows item s, buildBatch ctx 0 items = .ok rows ∧ items[i]? = some item ∧
    s ∈ (db.insertRows (ctx.clock 0) (rows.take i)).jobs.rows ∧ s.blocks item.keys ∧ s.id ≠ "" ∧
    res.existingIDs[i]? = some s.id

/-- A request after position `i` in its chunk lands with the unique key of the request there. -/
def TakenLater (size : ℕ) (items : List BatchItem) (db : Db) (i : ℕ) : Prop :=
  ∃ j item later, i < j ∧ j / size = i / size ∧ items[i]? = some item ∧ items[j]? = some later ∧
    item.keys.unique.isSome = true ∧ later.keys.unique = item.keys.unique ∧
    (landing (heldKeys db.jobs) (items.map BatchItem.keys))[j]? = some true

/-- **A skipped row names the job that blocked it** exactly if no later row of its chunk lands with
its unique key. -/
theorem skipped_names_holder_iff (dialect : Dialect) (ctx : Context) (items : List BatchItem)
    (opts : BatchOpts) (db : Db) (hreported : opts.skipDuplicates = false)
    (hnamed : ∀ s ∈ db.jobs.rows, s.id ≠ "") (hids : NewIDs db.jobs items.length ctx.newID)
    (hnew : ∀ i < items.length, ctx.newID i ≠ "") (i : ℕ)
    (hskipped : SkippedAt (chunkSizeFor dialect opts.chunkSize) items
      (insertMany dialect ctx items opts db).2.1 i) :
    NamesHolder ctx items db (insertMany dialect ctx items opts db).2.1 i ↔
      ¬ TakenLater (chunkSizeFor dialect opts.chunkSize) items db i := by
  obtain ⟨hlt, hchunk, hid⟩ := hskipped
  have hsize := chunkSizeFor_pos dialect opts.chunkSize
  have hitems : items ≠ [] := ne_nil_of_length_pos (Nat.zero_lt_of_lt hlt)
  unfold insertMany NamesHolder TakenLater at *
  rw [if_neg hitems] at hchunk hid ⊢
  cases hbuild : buildBatch ctx 0 items with
  | error e =>
    simp_all
  | ok rows =>
    rw [hbuild] at hchunk hid
    generalize chunkSizeFor dialect opts.chunkSize = size at *
    have hof := rowsOf_buildBatch hbuild
    have hfresh := hof.freshRows hids
    have hkeys := hof.keys
    have hlength : rows.length = items.length := by simpa using congrArg List.length hkeys
    have hrowids : ∀ r ∈ rows, r.id ≠ "" := by
      intro r hr
      obtain ⟨j, item, hj, hrow⟩ := hof.rowOf hr
      rw [hrow.id, Nat.zero_add]
      exact hnew j (List.getElem?_eq_some_iff.mp hj).1
    obtain ⟨r, hi⟩ : ∃ r, rows[i]? = some r := ⟨_, getElem?_eq_getElem (hlength ▸ hlt)⟩
    obtain ⟨item, hitem, hrow⟩ := hof.getElem? hi
    have hreport := insertManyLoop_reports opts hsize _ hfresh {} hi (by simpa using hchunk)
    simp only [length_nil, Nat.zero_add, hreported, or_false, Bool.false_eq_true] at hreport
    -- the row is not stored, since its id is not empty
    have hskipped : (db.insertRows (ctx.clock 0) (rows.take ((i / size + 1) * size))).jobs.get?
      r.id =
        none := by
      grind [Table.get?]
    have him : i < (i / size + 1) * size := (Nat.div_lt_iff_lt_mul hsize).mp (Nat.lt_succ_self _)
    have hexisting := hreport.2
    rw [hskipped, isSome_none, if_neg Bool.false_ne_true] at hexisting
    have hflag : ∀ j t, j < (i / size + 1) * size → rows[j]? = some t →
        (landing (heldKeys db.jobs) (items.map BatchItem.keys))[j]? = some
          ((db.insertRows (ctx.clock 0) (rows.take ((i / size + 1) * size))).jobs.get?
            t.id).isSome := by
      intro j t hj ht
      rw [← hkeys, ← getElem?_take_of_lt hj, landing_take, ← map_take,
        ← (hfresh.chunk _).readBack (ctx.clock 0), getElem?_map, getElem?_take_of_lt hj, ht]
      rfl
    refine Iff.trans ⟨?_, ?_⟩ ((hfresh.names_iff hnamed hrowids hi him hskipped).trans
      (not_congr ⟨?_, ?_⟩))
    · rintro ⟨_, item', s, hok, hitem', hs, hblocks, hne, hname⟩
      cases hok
      cases hitem.symm.trans hitem'
      exact ⟨s, hs, hrow.keys ▸ hblocks, hne, some_inj.mp (hexisting.symm.trans hname)⟩
    · rintro ⟨s, hs, hblocks, hne, hname⟩
      exact ⟨rows, item, s, rfl, hitem, hs, hrow.keys ▸ hblocks, hne, hname ▸ hexisting⟩
    · rintro ⟨j, t, hij, hjm, ht, hsome, hkey, hstored⟩
      obtain ⟨later, hlater, hrow'⟩ := hof.getElem? ht
      have hsame : j / size = i / size := le_antisymm
        (Nat.le_of_lt_succ ((Nat.div_lt_iff_lt_mul hsize).mpr hjm)) (Nat.div_le_div_right hij.le)
      refine ⟨j, item, later, hij, hsame, hitem, hlater, hrow.keys ▸ hsome, ?_, ?_⟩
      · rw [← hrow.keys, ← hrow'.keys]
        exact hkey
      · rw [hflag j t hjm ht, hstored]
    · rintro ⟨j, item', later, hij, hsame, hitem', hlater, hsome, hkey, hlands⟩
      cases hitem.symm.trans hitem'
      have hjm : j < (i / size + 1) * size := (Nat.div_lt_iff_lt_mul hsize).mp (by omega)
      obtain ⟨t, ht⟩ : ∃ t, rows[j]? = some t :=
        ⟨_, getElem?_eq_getElem (hlength ▸ (List.getElem?_eq_some_iff.mp hlater).1)⟩
      obtain ⟨later', hlater', hrow'⟩ := hof.getElem? ht
      cases hlater.symm.trans hlater'
      rw [← hrow.keys] at hsome hkey
      rw [← hrow'.keys] at hkey
      rw [hflag j t hjm ht] at hlands
      exact ⟨j, t, hij, hjm, ht, hsome, hkey, some_inj.mp hlands⟩

/-- Three requests: the second finds its active key held by the first, and the third takes its
unique key. -/
def takenKeyItems : List BatchItem :=
  [{ kind := "work", args := .null, opts := { uniqueActiveKey := "active" } },
   { kind := "work", args := .null, opts := { uniqueKey := "key", uniqueActiveKey := "active" } },
   { kind := "work", args := .null, opts := { uniqueKey := "key" } }]

/-- In chunks of two, the second request is reported with the first one's id. -/
theorem skipped_names_first :
    NamesHolder countingIDs takenKeyItems {}
      (insertMany .postgres countingIDs takenKeyItems { chunkSize := 2 } {}).2.1 1 := by
  refine (skipped_names_holder_iff .postgres countingIDs takenKeyItems { chunkSize := 2 } {} rfl
    (by decide) ⟨fun _ _ => rfl, by decide⟩ (by decide) 1 (by unfold SkippedAt; decide)).mpr ?_
  rintro ⟨j, item, later, hij, hsame, -, hlater, -⟩
  have hlt : j < 3 := (List.getElem?_eq_some_iff.mp hlater).1
  obtain rfl : j = 2 := by omega
  exact absurd hsame (by decide)

/-- In one chunk, it is reported with the id of the third, which was not stored when it was
skipped. -/
theorem skipped_names_later_row :
    (insertMany .postgres countingIDs takenKeyItems {} {}).2.1.ids = ["x", "", "xxx"] ∧
      (insertMany .postgres countingIDs takenKeyItems {} {}).2.1.existingIDs = ["", "xxx", ""] ∧
      (insertMany .postgres countingIDs takenKeyItems {} {}).2.2 = none :=
  ⟨by decide, by decide, rfl⟩

end Flywheel
