import Mathlib.Data.List.Forall2
import Mathlib.Tactic.Tauto

/-!
# Lists

How counts, prefixes, pieces and the lexicographic order go with the operations that build a list.
-/

namespace List

variable {α β : Type*}

/-- A count of either of two that exclude each other is the sum of their counts. -/
theorem countP_or_of_disjoint {p q : α → Bool} {xs : List α}
    (h : ∀ a ∈ xs, p a = true → q a = false) :
    (xs.countP fun a => p a || q a) = xs.countP p + xs.countP q := by
  induction xs with
  | nil => rfl
  | cons a xs ih => grind

/-- What a bound cuts off a list may be cut off its end before. -/
theorem take_append_take (n : ℕ) (xs ys : List α) :
    (xs ++ ys.take n).take n = (xs ++ ys).take n := by
  rw [take_append, take_append, take_take, Nat.min_eq_left (Nat.sub_le _ _)]

/-- Of lists whose beginnings are of one length, the beginnings decide, and then the rests. -/
theorem append_lt_append_iff [LT α] {a b c d : List α} (h : a.length = b.length) :
    a ++ c < b ++ d ↔ a < b ∨ a = b ∧ c < d := by
  induction a generalizing b with
  | nil =>
    obtain rfl := length_eq_zero_iff.mp h.symm
    simp
  | cons x a ih =>
    cases b with
    | nil => cases h
    | cons y b =>
      simp only [cons_append, cons_lt_cons_iff, ih (Nat.succ.inj h), cons.injEq]
      tauto

/-- No piece of a split list holds the separator. -/
theorem not_mem_of_mem_splitOn [DecidableEq α] {a : α} {xs piece : List α}
    (h : piece ∈ xs.splitOn a) : a ∉ piece := by
  induction xs generalizing piece with
  | nil => simp_all
  | cons x xs ih =>
    rw [splitOn_cons_eq_if_modifyHead] at h
    cases hxs : xs.splitOn a with
    | nil => exact absurd hxs (splitOn_ne_nil a xs)
    | cons head tail =>
      rw [hxs, modifyHead_cons] at h
      grind

/-- Filters that agree up to `R` on every member keep lists that do. -/
theorem forall₂_filterMap {R : β → β → Prop} {f g : α → Option β} (xs : List α)
    (h : ∀ x ∈ xs, Option.Rel R (f x) (g x)) :
    Forall₂ R (xs.filterMap f) (xs.filterMap g) := by
  induction xs with
  | nil => exact .nil
  | cons x xs ih =>
    have hx := h x mem_cons_self
    have hxs := ih fun y hy => h y (mem_cons_of_mem _ hy)
    rw [filterMap_cons, filterMap_cons]
    cases hf : f x <;> cases hg : g x <;> rw [hf, hg] at hx <;> cases hx
    · exact hxs
    · next hR => exact .cons hR hxs

end List
