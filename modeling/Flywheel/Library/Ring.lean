import Mathlib.Data.List.Basic
import Mathlib.Data.Nat.ModEq

/-!
# A ring buffer

A buffer of `limit` cells that a sequence is written into in turn, cell `n % limit` for its `n`-th
element, holds the last `limit` elements of the sequence. `latest` reads them back, oldest first.
-/

namespace Ring

open List Option

variable {α : Type} {limit : ℕ} {ring : ℕ → α} {xs : List α}

/-- The `n`-th element of the sequence. -/
def put (limit : ℕ) (ring : ℕ → α) (n : ℕ) (x : α) : ℕ → α := Function.update ring (n % limit) x

/-- The last elements of a sequence of `n`, at most `limit` of them, oldest first. -/
def latest (limit : ℕ) (ring : ℕ → α) (n : ℕ) : List α :=
  let count := min n limit
  (List.range count).map fun i => ring ((n - count + i) % limit)

/-- The buffer holds the last elements of the sequence. -/
def Holds (limit : ℕ) (ring : ℕ → α) (xs : List α) : Prop :=
  ∀ k x, xs.length - limit ≤ k → xs[k]? = some x → ring (k % limit) = x

theorem mod_ne {k n : ℕ} (hkn : k < n) (hlimit : n < k + limit) : k % limit ≠ n % limit := by
  intro heq
  have hdvd : limit ∣ n - k := (Nat.modEq_iff_dvd' (Nat.le_of_lt hkn)).mp heq
  have := Nat.le_of_dvd (by omega) hdvd
  omega

/-- Writing the next element keeps the last ones. -/
theorem Holds.put (h : Holds limit ring xs) (x : α) :
    Holds limit (put limit ring xs.length x) (xs ++ [x]) := by
  intro k y hk hget
  rw [length_append, length_singleton] at hk
  rcases Nat.lt_trichotomy k xs.length with hlt | rfl | hgt
  · rw [getElem?_append_left hlt] at hget
    rw [Ring.put, Function.update_of_ne (mod_ne hlt (by omega))]
    exact h k y (by omega) hget
  · rw [getElem?_concat_length] at hget
    rw [Ring.put, Function.update_self]
    exact some.inj hget
  · grind

theorem Holds.latest (h : Holds limit ring xs) :
    latest limit ring xs.length = xs.drop (xs.length - limit) := by
  refine ext_getElem? fun i => ?_
  simp only [Ring.latest, getElem?_map, getElem?_drop]
  by_cases hi : i < min xs.length limit
  · rw [getElem?_range hi, map_some]
    have hlt : xs.length - limit + i < xs.length := by omega
    have hindex : xs.length - min xs.length limit + i = xs.length - limit + i := by omega
    rw [hindex]
    exact (congrArg some (h _ _ (by omega) (getElem?_eq_getElem hlt))).trans
      (getElem?_eq_getElem hlt).symm
  · grind

end Ring
