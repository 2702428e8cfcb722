import Mathlib.Data.List.Iterate
import Mathlib.Data.List.TakeWhile
import Mathlib.Order.Iterate

/-!
# Chains of instants

A successor function with `t < next t` makes a chain from every start. `Through` is the part of the
chain through some instant, with the first link past it. Parts join (`Through.append`), so that a
chain that is taken part by part is taken once; and the links past an instant are the same whether
the chain is walked to them or begun there (`Through.preview`).
-/

namespace Chain

open List

variable {α : Type*} [LinearOrder α] {next : α → α} {start now now' mid last first : α}
  {ts ts' : List α}

/-- The links of the chain from `start` through `now`, and the first one past it. -/
structure Through (next : α → α) (start now : α) (ts : List α) (last : α) : Prop where
  links : ts = List.iterate next start ts.length
  last_eq : last = next^[ts.length] start
  due : ∀ t ∈ ts, t ≤ now
  after : now < last

/-- No link is due before the start. -/
theorem Through.nil (h : now < start) : Through next start now [] start := ⟨rfl, rfl, by simp, h⟩

/-- A start that is due is the first link. -/
theorem Through.cons (h : start ≤ now) (hrest : Through next (next start) now ts last) :
    Through next start now (start :: ts) last where
  links := by
    rw [length_cons, List.iterate, ← hrest.links]
  last_eq := by
    rw [length_cons, Function.iterate_succ_apply, ← hrest.last_eq]
  due t ht := by
    rcases mem_cons.mp ht with rfl | ht
    · exact h
    · exact hrest.due t ht
  after := hrest.after

/-- Parts join. -/
theorem Through.append (h : Through next start now ts mid) (h' : Through next mid now' ts' last)
    (hle : now ≤ now') : Through next start now' (ts ++ ts') last where
  links := by
    rw [length_append, iterate_add, ← h.last_eq, ← h.links, ← h'.links]
  last_eq := by
    rw [length_append, Nat.add_comm, Function.iterate_add_apply, ← h.last_eq, ← h'.last_eq]
  due t ht := by
    rcases mem_append.mp ht with ht | ht
    · exact (h.due t ht).trans hle
    · exact h'.due t ht
  after := h'.after

/-- No link is before the first. -/
theorem le_of_mem_iterate (hnext : ∀ t, t < next t) {n : ℕ} {t : α}
    (ht : t ∈ List.iterate next first n) : first ≤ t := by
  obtain ⟨k, -, rfl⟩ := mem_iterate.mp ht
  exact Function.id_le_iterate_of_id_le (fun t => (hnext t).le) k first

/-- The chain does not run back. -/
theorem Through.start_le (hnext : ∀ t, t < next t) (h : Through next start now ts last) :
    start ≤ last := by
  rw [h.last_eq]
  exact Function.id_le_iterate_of_id_le (fun t => (hnext t).le) _ start

/-- Past an instant no link is due. -/
theorem takeWhile_past (h : now < first) (n : ℕ) :
    (List.iterate next first n).takeWhile (fun t => decide (t ≤ now)) = [] := by
  cases n with
  | zero => rfl
  | succ n => simp_all

/-- **The links past an instant that a walk takes are those of a chain begun there**, as far as the
walk went. -/
theorem Through.preview (hnext : ∀ t, t < next t) (h : Through next start now ts last) {instant : α}
    (h' : Through next start instant ts' first) (n : ℕ) :
    (ts.filter fun t => decide (instant < t)).take n =
      (List.iterate next first n).takeWhile fun t => decide (t ≤ now) := by
  have hmono := Function.monotone_iterate_of_id_le (f := next) fun t => (hnext t).le
  rcases le_or_gt ts.length ts'.length with hle | hlt
  · -- the walk has not come past the instant
    have hfilter : ts.filter (fun t => decide (instant < t)) = [] := by
      refine filter_eq_nil_iff.mpr fun t ht hpast => ?_
      rw [h.links] at ht
      obtain ⟨k, hk, rfl⟩ := mem_iterate.mp ht
      have hmem : next^[k] start ∈ ts' := by
        rw [h'.links]
        exact mem_iterate.mpr ⟨k, hk.trans_le hle, rfl⟩
      exact absurd (of_decide_eq_true hpast) (not_lt.mpr (h'.due _ hmem))
    have hfirst : now < first := h.after.trans_le
      (by rw [h.last_eq, h'.last_eq]; exact hmono hle start)
    rw [hfilter, take_nil, takeWhile_past hfirst]
  · obtain ⟨m, hm⟩ := Nat.exists_eq_add_of_lt hlt
    have hsplit : ts = ts' ++ List.iterate next first (m + 1) := by
      rw [h.links, hm, Nat.add_assoc, iterate_add, ← h'.last_eq, ← h'.links]
    have hlast : next^[m + 1] first = last := by
      rw [h'.last_eq, ← Function.iterate_add_apply, h.last_eq, hm, Nat.add_comm, Nat.add_assoc]
    have hfilter : ts.filter (fun t => decide (instant < t)) = List.iterate next first (m + 1) := by
      rw [hsplit, filter_append, filter_eq_nil_iff.mpr fun t ht => by
        simpa using h'.due t ht, nil_append]
      refine filter_eq_self.mpr fun t ht => decide_eq_true ?_
      exact h'.after.trans_le (le_of_mem_iterate hnext ht)
    have hdue : ∀ t ∈ List.iterate next first (m + 1), t ≤ now := fun t ht =>
      h.due t (hsplit ▸ mem_append_right _ ht)
    rw [hfilter]
    rcases le_or_gt n (m + 1) with hn | hn
    · obtain ⟨k, hk⟩ := Nat.exists_eq_add_of_le hn
      have htake : (List.iterate next first (m + 1)).take n = List.iterate next first n := by
        rw [hk, iterate_add, take_left' (length_iterate ..)]
      rw [htake, eq_comm, takeWhile_eq_self_iff]
      grind
    · obtain ⟨k, rfl⟩ := Nat.exists_eq_add_of_lt hn
      rw [Nat.add_assoc (m + 1), iterate_add _ _ (m + 1) (k + 1), hlast,
        takeWhile_append_of_pos fun t ht => decide_eq_true (hdue t ht), takeWhile_past h.after,
        append_nil, take_of_length_le]
      simp_all

/-- The chain of a constant step. -/
theorem iterate_add_eq (start step : ℤ) (k : ℕ) : (· + step)^[k] start = start + k * step := by
  induction k generalizing start with
  | zero => simp
  | succ k ih =>
    rw [Function.iterate_succ_apply, ih, Int.natCast_succ, Int.add_mul, Int.one_mul]
    omega

end Chain
