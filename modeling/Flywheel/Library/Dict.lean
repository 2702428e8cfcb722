import Mathlib.Algebra.BigOperators.Group.List.Basic
import Mathlib.Algebra.Order.Ring.Int
import Mathlib.Data.List.Nodup

/-!
# Maps that a loop fills

A map is a list of entries in which no two share a key, in the order that its keys were first
written; nothing that reads a map may rely on that order. A loop that finds the entry of each item's
key, or starts one, and rewrites it is `collect`.
-/

namespace Relational

variable {κ α β : Type*}

/-- A map: its entries, no two under one key. -/
structure Dict (κ α : Type*) where
  /-- The entries, in no order that a reader relies on. -/
  entries : List (κ × α)
  /-- The keys are distinct. -/
  nodup : (entries.map Prod.fst).Nodup

namespace Dict

/-- The map without entries. -/
def empty : Dict κ α := ⟨[], List.nodup_nil⟩

instance : Inhabited (Dict κ α) := ⟨empty⟩

/-- The values. -/
def values (d : Dict κ α) : List α := d.entries.map Prod.snd

variable [DecidableEq κ]

/-- The value under a key. -/
def get? (d : Dict κ α) (k : κ) : Option α := (d.entries.find? fun e => e.1 = k).map Prod.snd

/-- The entries with the value under `k` rewritten, which is `init` where there is none. -/
def touch (k : κ) (init : α) (f : α → α) : List (κ × α) → List (κ × α)
  | [] => [(k, f init)]
  | e :: es => if e.1 = k then (k, f e.2) :: es else e :: touch k init f es

/-- A touched key is kept, or added at the end. -/
theorem touch_keys (k : κ) (init : α) (f : α → α) (es : List (κ × α)) :
    (touch k init f es).map Prod.fst =
      if k ∈ es.map Prod.fst then es.map Prod.fst else es.map Prod.fst ++ [k] := by
  induction es with
  | nil => simp [touch]
  | cons e es ih =>
    by_cases he : e.1 = k
    · simp [touch, he]
    · rw [touch, if_neg he, List.map_cons, ih]
      grind

/-- The map with the value under `k` rewritten, which is `init` where there is none. -/
def modify (d : Dict κ α) (k : κ) (init : α) (f : α → α) : Dict κ α where
  entries := touch k init f d.entries
  nodup := by
    rw [touch_keys]
    split_ifs with hk
    · exact d.nodup
    · exact List.Nodup.append d.nodup (List.nodup_singleton k) (by simpa using hk)

/-- A loop over items, each of which rewrites the value under its key. -/
def collect (key : β → κ) (init : κ → α) (f : α → β → α) (items : List β) (d : Dict κ α) :
    Dict κ α :=
  items.foldl (fun d x => d.modify (key x) (init (key x)) fun a => f a x) d

/-- Items of the same keys that rewrite every value alike fill a map alike. -/
theorem collect_congr {key : β → κ} {init : κ → α} {f : α → β → α} {xs ys : List β}
    (h : List.Forall₂ (fun x y => key x = key y ∧ ∀ a, f a x = f a y) xs ys) (d : Dict κ α) :
    collect key init f xs d = collect key init f ys d := by
  induction h generalizing d with
  | nil => rfl
  | @cons x y xs ys hxy _ ih => simp_all [collect]

section Get

variable {d : Dict κ α} {k : κ} {a : α}

/-- The empty dictionary holds nothing. -/
@[simp]
theorem get?_empty (k : κ) : (empty : Dict κ α).get? k = none := rfl

/-- A key holds what is entered under it. -/
theorem get?_eq_some_iff : d.get? k = some a ↔ (k, a) ∈ d.entries := by
  obtain ⟨entries, nodup⟩ := d
  simp only [get?]
  induction entries with
  | nil => simp
  | cons e es ih =>
    by_cases he : e.1 = k
    · grind
    · grind

/-- What a key holds once one is modified. -/
theorem get?_modify (d : Dict κ α) (k : κ) (init : α) (f : α → α) (k' : κ) :
    (d.modify k init f).get? k' =
      if k = k' then some (f ((d.get? k).getD init)) else d.get? k' := by
  obtain ⟨entries, nodup⟩ := d
  simp only [get?, modify]
  induction entries with
  | nil => by_cases hk : k = k' <;> simp [touch, hk]
  | cons e es ih =>
    by_cases he : e.1 = k
    · subst he
      by_cases hk : e.1 = k'
      · simp [touch, hk]
      · simp [touch, hk]
    · rw [touch, if_neg he]
      by_cases he' : e.1 = k'
      · grind
      · simp_all

end Get

section Collect

variable {key : β → κ} {init : κ → α} {f : α → β → α}

/-- What holds of each entry of a map, of what an item starts and of what a step makes of its own
entry, holds of each entry of the loop's map. -/
theorem forall_collect {P : κ → α → Prop} {items : List β}
    (hinit : ∀ x ∈ items, P (key x) (init (key x))) (hf : ∀ a x, P (key x) a → P (key x) (f a x))
    {d : Dict κ α} (hd : ∀ k a, d.get? k = some a → P k a) :
    ∀ k a, (collect key init f items d).get? k = some a → P k a := by
  induction items generalizing d with
  | nil => exact hd
  | cons x xs ih =>
    refine ih (fun y hy => hinit y (List.mem_cons_of_mem _ hy)) fun k a ha => ?_
    rw [get?_modify] at ha
    split_ifs at ha with hk
    · cases ha
      subst hk
      refine hf _ x ?_
      cases hold : d.get? (key x) with
      | none => exact hinit x List.mem_cons_self
      | some a => exact hd _ a hold
    · exact hd k a ha

/-- A sum that every item adds to. -/
theorem sum_collect (μ : α → ℤ) (ν : β → ℤ) (hinit : ∀ k, μ (init k) = 0)
    (hf : ∀ a x, μ (f a x) = μ a + ν x) (items : List β) (d : Dict κ α) :
    ((collect key init f items d).values.map μ).sum = (d.values.map μ).sum + (items.map ν).sum := by
  have htouch : ∀ (x : β) (es : List (κ × α)),
      ((touch (key x) (init (key x)) (fun a => f a x) es).map fun e => μ e.2).sum =
        (es.map fun e => μ e.2).sum + ν x := by
    intro x es
    induction es with
    | nil => simp [touch, hf, hinit]
    | cons e es ih => grind [touch]
  induction items generalizing d with
  | nil => simp [collect]
  | cons x xs ih =>
    have hcons : collect key init f (x :: xs) d =
        collect key init f xs (d.modify (key x) (init (key x)) fun a => f a x) := rfl
    grind [values, modify, Function.comp_def]

end Collect

/-- Values that know their keys are distinct. -/
theorem nodup_values (d : Dict κ α) {key : α → κ} (h : ∀ k a, d.get? k = some a → key a = k) :
    (d.values.map key).Nodup := by
  have hkeys : d.values.map key = d.entries.map Prod.fst := by
    rw [values, List.map_map]
    exact List.map_congr_left fun e he => h e.1 e.2 (get?_eq_some_iff.mpr he)
  rw [hkeys]
  exact d.nodup

end Dict

end Relational
