import Mathlib.Data.List.Nodup

/-!
# Tables with a primary key

A table is a list of rows in which no two rows share a key: the primary key is a field of the
structure, so that every statement that builds a table also proves it. The statements are the
four of SQL (a guarded update, an insert that skips a conflict, a guarded delete, and the read
of one row by its key), and every one has a lemma that says what `get?` reads after it, which
is all that the proofs above this module use.
-/

namespace Relational

open List

variable {ρ κ : Type*}

/-- Every member of the right list has its partner in the left one. -/
theorem partner_of_mem {α β : Type*} {R : α → β → Prop} {as : List α} {bs : List β}
    (h : List.Forall₂ R as bs) {b : β} (hb : b ∈ bs) : ∃ a ∈ as, R a b := by
  induction h with
  | nil => simp at hb
  | cons hab _ ih => grind

/-- A row rewrite that keeps the primary key. -/
structure Patch (key : ρ → κ) where
  /-- The new row, from the old one. -/
  apply : ρ → ρ
  /-- The key stays. -/
  key_apply : ∀ r, key (apply r) = key r

/-- A table: its rows, no two under one key. -/
@[ext]
structure Table (key : ρ → κ) where
  /-- The rows, in no order that a query relies on. -/
  rows : List ρ
  /-- The primary key is unique. -/
  nodup : (rows.map key).Nodup

namespace Table

variable {key : ρ → κ}

/-- The table without rows. -/
def empty : Table key := ⟨[], by simp⟩

/-- `SELECT … WHERE key = k`. -/
def get? [DecidableEq κ] (t : Table key) (k : κ) : Option ρ := t.rows.find? fun r => key r = k

/-- `UPDATE … SET f WHERE p`. -/
def update (t : Table key) (p : ρ → Bool) (f : Patch key) : Table key where
  rows := t.rows.map fun r => if p r then f.apply r else r
  nodup := by
    have h : (t.rows.map fun r => if p r then f.apply r else r).map key = t.rows.map key := by
      rw [map_map]
      refine map_congr_left fun r _ => ?_
      by_cases hp : p r <;> simp [hp, f.key_apply]
    rw [h]
    exact t.nodup

/-- `DELETE … WHERE p`. -/
def delete (t : Table key) (p : ρ → Bool) : Table key where
  rows := t.rows.filter fun r => !p r
  nodup := t.nodup.sublist (filter_sublist.map key)

/-- Whether an insert of `r` conflicts with a stored row: on the primary key, or on one of the
unique indexes that `clash` states. -/
def conflicts [DecidableEq κ] (clash : ρ → ρ → Bool) (t : Table key) (r : ρ) : Bool :=
  t.rows.any fun s => decide (key s = key r) || clash s r

/-- `INSERT … ON CONFLICT DO NOTHING`, with no conflict target. -/
def insert [DecidableEq κ] (clash : ρ → ρ → Bool) (t : Table key) (r : ρ) : Table key :=
  if h : t.conflicts clash r = true then t
  else
    { rows := t.rows ++ [r]
      nodup := by
        rw [map_append, map_singleton, nodup_append]
        refine ⟨t.nodup, by simp, ?_⟩
        intro a ha b hb hab
        obtain ⟨s, hs, rfl⟩ := mem_map.mp ha
        obtain rfl := mem_singleton.mp hb
        exact h (any_eq_true.mpr ⟨s, hs, by simp [hab]⟩) }

/-- One multi-row insert: the rows in their order, each skipped when it conflicts with a row
stored before it, the earlier rows of the same statement included. -/
def insertAll [DecidableEq κ] (clash : ρ → ρ → Bool) (t : Table key) (rs : List ρ) : Table key :=
  rs.foldl (fun t r => t.insert clash r) t

/-- A new version of a row: in the place of the one under its key, or at the end. -/
def put [DecidableEq κ] (t : Table key) (r : ρ) : Table key :=
  if h : key r ∈ t.rows.map key then
    { rows := t.rows.map fun s => if key s = key r then r else s
      nodup := by
        have hkeys : (t.rows.map fun s => if key s = key r then r else s).map key =
          t.rows.map key := by
          rw [map_map]
          refine map_congr_left fun s _ => ?_
          by_cases hs : key s = key r <;> simp [hs]
        rw [hkeys]
        exact t.nodup }
  else
    { rows := t.rows ++ [r]
      nodup := by
        rw [map_append, map_singleton, nodup_append]
        refine ⟨t.nodup, by simp, ?_⟩
        rintro a ha b hb rfl
        obtain rfl := mem_singleton.mp hb
        exact h ha }

variable {f : Patch key} {t : Table key} {p : ρ → Bool}

/-- An update that matches no row changes nothing. -/
theorem update_of_false (h : ∀ r ∈ t.rows, p r = false) : t.update p f = t := by
  refine Table.ext ?_
  refine (map_congr_left fun r hr => ?_).trans (map_id _)
  simp [h r hr]

/-- Two updates that write every stored row alike are the same. -/
theorem update_congr {q : ρ → Bool} {g : Patch key}
    (h : ∀ r ∈ t.rows, (if p r then f.apply r else r) = if q r then g.apply r else r) :
    t.update p f = t.update q g :=
  Table.ext (map_congr_left h)

/-- Two updates are one, if they are so row by row. -/
theorem update_update {q s : ρ → Bool} {g h : Patch key}
    (hrow : ∀ r ∈ t.rows, (if q (if p r then f.apply r else r) then
      g.apply (if p r then f.apply r else r) else if p r then f.apply r else r) =
        if s r then h.apply r else r) : (t.update p f).update q g = t.update s h := by
  refine Table.ext ?_
  change (t.rows.map _).map _ = t.rows.map _
  simp_all

/-- A delete that matches no row changes nothing. -/
theorem delete_of_false (h : ∀ r ∈ t.rows, p r = false) : t.delete p = t :=
  Table.ext (filter_eq_self.mpr fun r hr => by rw [h r hr]; rfl)

/-- Two deletes are one, of what either matches. -/
theorem delete_delete (t : Table key) (p q : ρ → Bool) :
    (t.delete p).delete q = t.delete fun r => p r || q r := by
  refine Table.ext ?_
  change (t.rows.filter fun r => !p r).filter (fun r => !q r) = t.rows.filter fun r => !(p r || q r)
  rw [filter_filter]
  grind

section Get

variable [DecidableEq κ] {t : Table key} {k : κ} {r : ρ}

/-- The empty table holds nothing. -/
@[simp]
theorem get?_empty (k : κ) : (empty : Table key).get? k = none := rfl

/-- A key holds a row when the row is stored and has the key. -/
theorem get?_eq_some_iff : t.get? k = some r ↔ r ∈ t.rows ∧ key r = k := by
  obtain ⟨rows, nodup⟩ := t
  simp only [get?]
  induction rows with
  | nil => simp
  | cons s rows ih =>
    by_cases hs : key s = k
    · grind
    · grind

/-- A stored row is found under its key. -/
theorem get?_key (h : r ∈ t.rows) : t.get? (key r) = some r := get?_eq_some_iff.mpr ⟨h, rfl⟩

/-- A key is free when no stored row has it. -/
theorem get?_eq_none_iff : t.get? k = none ↔ ∀ r ∈ t.rows, key r ≠ k := by
  simp [get?, find?_eq_none]

/-- What is found is stored. -/
theorem mem_of_get? (h : t.get? k = some r) : r ∈ t.rows := (get?_eq_some_iff.mp h).1

/-- What is found under a key has it. -/
theorem key_of_get? (h : t.get? k = some r) : key r = k := (get?_eq_some_iff.mp h).2

/-- A row is stored when its key holds it. -/
theorem mem_rows_iff : r ∈ t.rows ↔ t.get? (key r) = some r := by
  simp [get?_eq_some_iff]

variable {rs : List ρ} {s : ρ}

/-- Stored rows with one key are one row. -/
theorem eq_of_key_eq (hr : r ∈ t.rows) (hs : s ∈ t.rows) (h : key r = key s) : r = s := by
  have := get?_key hr
  rw [h, get?_key hs] at this
  exact (Option.some_inj.mp this).symm

/-- Among stored rows, a key stands for its row. -/
theorem contains_key_iff (hrs : ∀ s ∈ rs, s ∈ t.rows) (hr : r ∈ t.rows) :
    (rs.map key).contains (key r) = true ↔ r ∈ rs := by
  grind [eq_of_key_eq]

/-- A member of stored rows is found by its key. -/
theorem find?_key_of_mem (hrs : ∀ s ∈ rs, s ∈ t.rows) (hr : r ∈ rs) :
    rs.find? (fun s => decide (key s = key r)) = some r := by
  cases h : rs.find? (fun s => decide (key s = key r)) with
  | none => exact absurd (decide_eq_true rfl) (find?_eq_none.mp h r hr)
  | some s => grind [eq_of_key_eq]

/-- What a key holds after an update. -/
theorem get?_update (t : Table key) (p : ρ → Bool) (f : Patch key) (k : κ) :
    (t.update p f).get? k = (t.get? k).map fun r => if p r then f.apply r else r := by
  have hkey : ∀ r, key (if p r then f.apply r else r) = key r := fun r => by
    by_cases hp : p r <;> simp [hp, f.key_apply]
  simp only [get?, update, find?_map, Function.comp_def, hkey]

/-- A row that an update does not match stays. -/
theorem get?_update_of_false (f : Patch key) (h : t.get? k = some r) (hp : p r = false) :
    (t.update p f).get? k = t.get? k := by
  rw [get?_update, h, Option.map_some, hp, if_neg Bool.false_ne_true]

/-- A key whose row, if any, is not matched holds what it held. -/
theorem get?_update_of_not (f : Patch key) (h : ∀ r, t.get? k = some r → p r = false) :
    (t.update p f).get? k = t.get? k := by
  cases hr : t.get? k with
  | none => rw [get?_update, hr, Option.map_none]
  | some r => rw [get?_update_of_false f hr (h r hr), hr]

/-- What a key holds after a delete. -/
theorem get?_delete (t : Table key) (p : ρ → Bool) (k : κ) :
    (t.delete p).get? k = (t.get? k).filter fun r => !p r := by
  refine Option.ext fun r => ?_
  rw [get?_eq_some_iff, Option.filter_eq_some_iff, get?_eq_some_iff]
  grind [delete]

variable (clash : ρ → ρ → Bool)

/-- What an insert reads back under `k`: the new row under its own key when it landed, and what
was there otherwise. -/
theorem get?_insert (t : Table key) (r : ρ) (k : κ) : (t.insert clash r).get? k =
      if t.conflicts clash r = false ∧ key r = k then some r else t.get? k := by
  by_cases h : t.conflicts clash r = true
  · simp [insert, h]
  · rw [Bool.not_eq_true] at h
    simp only [insert, h, Bool.false_eq_true, dite_false, true_and]
    simp only [get?, find?_append]
    by_cases hk : key r = k
    · have hnone : t.get? k = none := by
        refine get?_eq_none_iff.mpr fun s hs hsk => ?_
        have := any_eq_false.mp h s hs
        simp [hsk, hk] at this
      grind [get?]
    · simp [hk]

/-- An insert leaves the stored rows. -/
theorem get?_insert_of_some (h : t.get? k = some s) : (t.insert clash r).get? k = some s := by
  rw [get?_insert]
  by_cases hc : t.conflicts clash r = false ∧ key r = k
  · exfalso
    have := any_eq_false.mp hc.1 s (mem_of_get? h)
    simp [key_of_get? h, hc.2] at this
  · rw [if_neg hc, h]

/-- What is stored after an insert was so before, or is the row that landed. -/
theorem get?_insert_cases (h : (t.insert clash r).get? k = some s) :
    t.get? k = some s ∨ (t.get? k = none ∧ s = r ∧ key r = k ∧ t.conflicts clash r = false) := by
  cases ht : t.get? k with
  | some u =>
    rw [get?_insert_of_some clash ht] at h
    exact .inl h
  | none =>
    rw [get?_insert, ht] at h
    grind

/-- Rows are inserted one part after the other. -/
theorem insertAll_append (t : Table key) (rs ss : List ρ) :
    t.insertAll clash (rs ++ ss) = (t.insertAll clash rs).insertAll clash ss :=
  foldl_append

/-- Inserts leave the stored rows. -/
theorem get?_insertAll_of_some (rs : List ρ) (h : t.get? k = some s) :
    (t.insertAll clash rs).get? k = some s := by
  induction rs generalizing t with
  | nil => exact h
  | cons r rs ih => exact ih (get?_insert_of_some clash h)

/-- What is stored after inserts was so before, or is one of the rows. -/
theorem get?_insertAll_cases (rs : List ρ) (h : (t.insertAll clash rs).get? k = some s) :
    t.get? k = some s ∨ (t.get? k = none ∧ s ∈ rs ∧ key s = k) := by
  induction rs generalizing t with
  | nil => exact .inl h
  | cons r rs ih =>
    rcases ih h with h | ⟨hnone, hs, hk⟩
    · rcases get?_insert_cases clash h with h | ⟨hnone, rfl, hk, -⟩
      · exact .inl h
      · exact .inr ⟨hnone, mem_cons_self, hk⟩
    · refine .inr ⟨?_, mem_cons_of_mem _ hs, hk⟩
      cases ht : t.get? k with
      | none => rfl
      | some u => rw [get?_insert_of_some clash ht] at hnone; cases hnone

/-- A row lands when it conflicts neither with a stored row nor with an earlier one of its
statement. -/
theorem get?_insertAll_landed {ss : List ρ}
    (h : ∀ s, s ∈ t.rows ∨ s ∈ rs → key s ≠ key r ∧ clash s r = false) :
    (t.insertAll clash (rs ++ r :: ss)).get? (key r) = some r := by
  have hconflicts : (t.insertAll clash rs).conflicts clash r = false := by
    refine any_eq_false.mpr fun s hs => ?_
    have hfrom : s ∈ t.rows ∨ s ∈ rs := by
      rcases get?_insertAll_cases clash rs (get?_key hs) with hs | ⟨-, hs, -⟩
      · exact .inl (mem_of_get? hs)
      · exact .inr hs
    simp [h s hfrom]
  rw [insertAll_append]
  refine get?_insertAll_of_some clash ss ?_
  rw [get?_insert, if_pos ⟨hconflicts, rfl⟩]

/-- An insert of several rows adds those that land at the end, each free of a clash with what was
there. -/
theorem rows_insertAll (t : Table key) (rs : List ρ) :
    ∃ landed, (t.insertAll clash rs).rows = t.rows ++ landed ∧
      ∀ r ∈ landed, r ∈ rs ∧ ∀ s ∈ t.rows, clash s r = false := by
  induction rs generalizing t with
  | nil => exact ⟨[], (append_nil _).symm, by simp⟩
  | cons r rs ih =>
    obtain ⟨landed, hrows, hlanded⟩ := ih (t.insert clash r)
    by_cases hconflicts : t.conflicts clash r = true
    · have hsame : t.insert clash r = t := dif_pos hconflicts
      simp_all [insertAll]
    · have hadded : (t.insert clash r).rows = t.rows ++ [r] := by rw [insert, dif_neg hconflicts]
      rw [hadded, append_assoc] at hrows
      refine ⟨_, hrows, forall_mem_cons.mpr ⟨⟨mem_cons_self, fun s hs => ?_⟩, fun u hu => ?_⟩⟩
      · have hfree := any_eq_false.mp (Bool.eq_false_iff.mpr hconflicts) s hs
        simp_all
      · simp_all

/-- Which of several rows land, inserted one after another. -/
def landings (clash : ρ → ρ → Bool) : Table key → List ρ → List Bool
  | _, [] => []
  | t, r :: rs => (!t.conflicts clash r) :: (t.insert clash r).landings clash rs

/-- The second part lands on what the first has left. -/
theorem landings_append (t : Table key) (rs ss : List ρ) :
    t.landings clash (rs ++ ss) = t.landings clash rs ++
      (t.insertAll clash rs).landings clash ss := by
  induction rs generalizing t with
  | nil => rfl
  | cons r rs ih =>
    rw [cons_append, landings, landings, ih, cons_append]
    rfl

/-- A row that lands is stored. -/
theorem get?_insert_of_landed (h : t.conflicts clash r = false) :
    (t.insert clash r).get? (key r) = some r := by
  rw [get?_insert, if_pos ⟨h, rfl⟩]

/-- **Rows with new keys of their own are read back exactly when they landed.** -/
theorem isSome_get?_insertAll (hnew : ∀ r ∈ rs, t.get? (key r) = none)
    (hnodup : (rs.map key).Nodup) :
    rs.map (fun r => ((t.insertAll clash rs).get? (key r)).isSome) = t.landings clash rs := by
  induction rs generalizing t with
  | nil => rfl
  | cons r rs ih =>
    obtain ⟨hr, hrs⟩ := nodup_cons.mp hnodup
    have hnew' : ∀ s ∈ rs, (t.insert clash r).get? (key s) = none := by
      intro s hs
      have hne : ¬(t.conflicts clash r = false ∧ key r = key s) := fun h =>
        hr (h.2 ▸ mem_map_of_mem hs)
      rw [get?_insert, if_neg hne]
      exact hnew s (mem_cons_of_mem r hs)
    rw [map_cons, landings, ← ih hnew' hrs]
    refine congrArg₂ List.cons ?_ rfl
    change (((t.insert clash r).insertAll clash rs).get? (key r)).isSome = _
    cases hconflicts : t.conflicts clash r with
    | false =>
      rw [get?_insertAll_of_some clash rs (get?_insert_of_landed clash hconflicts)]
      rfl
    | true =>
      have hsame : t.insert clash r = t := dif_pos hconflicts
      cases hget : ((t.insert clash r).insertAll clash rs).get? (key r) with
      | none => rfl
      | some s =>
        rcases get?_insertAll_cases clash rs hget with h | ⟨-, hs, hkey⟩
        · simp_all
        · exact absurd (hkey ▸ mem_map_of_mem hs) hr

/-- What a key holds once a row is put. -/
theorem get?_put (t : Table key) (r : ρ) (k : κ) :
    (t.put r).get? k = if key r = k then some r else t.get? k := by
  refine Option.ext fun s => ?_
  by_cases hk : key r = k
  · rw [if_pos hk, get?_eq_some_iff, Option.some_inj]
    unfold put
    split_ifs with h
    · grind
    · grind
  · rw [if_neg hk, get?_eq_some_iff, get?_eq_some_iff]
    unfold put
    split_ifs with h
    · grind
    · grind

end Get

end Table

end Relational
