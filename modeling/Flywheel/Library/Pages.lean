import Mathlib.Data.List.Sort

/-!
# Reading a log in pages

A log is a set of positions in a linear order that grows, but only above what was read. A reader
holds a cursor; a page lists what the log holds between the cursor and a later position, which
becomes the cursor. `Lists xs S` says that a list is the set, in order and each member once. The
pages of a reader together list what lies between its first cursor and its last (`Lists.append`),
whatever was added above meanwhile (`Lists.congr`).
-/

namespace Paging

open List

variable {α : Type*} [LinearOrder α] {xs ys : List α} {S T : Set α} {p q r : α}

/-- The list holds the set's members in order, each once. -/
structure Lists (xs : List α) (S : Set α) : Prop where
  sorted : xs.Pairwise (· < ·)
  mem_iff : ∀ x, x ∈ xs ↔ x ∈ S

/-- A list is of any set with the same members. -/
theorem Lists.congr (h : Lists xs S) (hST : ∀ x, x ∈ S ↔ x ∈ T) : Lists xs T :=
  ⟨h.sorted, fun x => (h.mem_iff x).trans (hST x)⟩

/-- Nothing lies past a position and up to it. -/
theorem Lists.nil (S : Set α) (p : α) : Lists [] {x ∈ S | p < x ∧ x ≤ p} :=
  ⟨.nil, fun _ => iff_of_false not_mem_nil fun h => absurd (h.2.1.trans_le h.2.2) (lt_irrefl p)⟩

/-- What lies between two positions is what lies up to one between them and what lies after it. -/
theorem Lists.append (hxs : Lists xs {x ∈ S | p < x ∧ x ≤ q})
    (hys : Lists ys {x ∈ S | q < x ∧ x ≤ r}) (hpq : p ≤ q) (hqr : q ≤ r) :
    Lists (xs ++ ys) {x ∈ S | p < x ∧ x ≤ r} := by
  refine ⟨pairwise_append.mpr ⟨hxs.sorted, hys.sorted, fun x hx y hy => ?_⟩, fun x => ?_⟩
  · exact ((hxs.mem_iff x).mp hx).2.2.trans_lt ((hys.mem_iff y).mp hy).2.1
  · rw [mem_append, hxs.mem_iff, hys.mem_iff]
    grind

/-- A page lists what lies up to its last position. -/
theorem Lists.take {U : α → Prop} (h : Lists xs {x ∈ S | p < x ∧ U x})
    (hU : ∀ x y, x ≤ y → U y → U x) {k : ℕ} (hlast : (xs.take k).getLast? = some q) :
    Lists (xs.take k) {x ∈ S | p < x ∧ x ≤ q} := by
  have hq : q ∈ xs.take k := mem_of_getLast? hlast
  have hsplit : (xs.take k ++ xs.drop k).Pairwise (· < ·) := by
    rw [take_append_drop]
    exact h.sorted
  obtain ⟨htake, -, hcross⟩ := pairwise_append.mp hsplit
  have hle : ∀ x ∈ xs.take k, x ≤ q := by
    obtain ⟨init, hinit⟩ := getLast?_eq_some_iff.mp hlast
    grind
  refine ⟨htake, fun x => ⟨fun hx => ?_, fun hx => ?_⟩⟩
  · obtain ⟨hS, hp, -⟩ := (h.mem_iff x).mp (mem_of_mem_take hx)
    exact ⟨hS, hp, hle x hx⟩
  · have hUx : U x := hU x q hx.2.2 ((h.mem_iff q).mp (mem_of_mem_take hq)).2.2
    have hmem : x ∈ xs.take k ++ xs.drop k := by
      rw [take_append_drop]
      exact (h.mem_iff x).mpr ⟨hx.1, hx.2.1, hUx⟩
    grind

/-- A selection lists what it selects. -/
theorem Lists.filter {keep : α → Bool} (h : Lists xs S) :
    Lists (xs.filter keep) {x ∈ S | keep x = true} :=
  ⟨h.sorted.filter _, fun x => by rw [mem_filter, h.mem_iff]; rfl⟩

/-- Rows in the order of their positions list them. -/
theorem lists_insertionSort {β : Type*} {rows : List β} {pos : β → α} (h : (rows.map pos).Nodup) :
    Lists ((rows.insertionSort fun a b => pos a ≤ pos b).map pos) {x | x ∈ rows.map pos} := by
  have hperm := (perm_insertionSort (fun a b => pos a ≤ pos b) rows).map pos
  refine ⟨?_, fun x => hperm.mem_iff⟩
  have hsorted := pairwise_insertionSort (fun a b => pos a ≤ pos b) rows
  have hle : ((rows.insertionSort fun a b => pos a ≤ pos b).map pos).Pairwise (· ≤ ·) :=
    pairwise_map.mpr hsorted
  exact (hle.and (hperm.nodup_iff.mpr h)).imp fun h => lt_of_le_of_ne h.1 h.2

end Paging
