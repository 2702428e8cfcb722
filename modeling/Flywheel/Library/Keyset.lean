import Mathlib.Data.List.Sort

/-!
# Walking a selection by its keys

A walk reads the rows that a filter selects in the order of their keys, a page at a time, each page
past the last key of the one before. `Ascending` says that a list of rows is in that order, with no
key twice; such a list is determined by its members (`Ascending.ext`), so that what a page holds is
a matter of which rows are selected. A key cuts such a list into what a walk has passed and what it
has not (`Ascending.split`), and the end of a page is such a key (`Ascending.take_eq`,
`Ascending.drop_eq`).
-/

namespace Keyset

open List

variable {ρ σ κ : Type*} [LinearOrder κ] {key : ρ → κ} {l l' rows : List ρ} {c : κ}

/-- The rows are in the order of their keys, with no key twice. -/
def Ascending (key : ρ → κ) (l : List ρ) : Prop := l.Pairwise fun a b => key a < key b

/-- Rows with distinct keys are sorted strictly. -/
theorem ascending_insertionSort (h : (rows.map key).Nodup) :
    Ascending key (rows.insertionSort fun a b => key a ≤ key b) := by
  have hsorted := pairwise_insertionSort (fun a b => key a ≤ key b) rows
  have hnodup := ((perm_insertionSort (fun a b => key a ≤ key b) rows).map key).nodup_iff.mpr h
  exact (hsorted.and (pairwise_map.mp hnodup)).imp fun h => lt_of_le_of_ne h.1 h.2

section

variable (h : Ascending key l)

include h

/-- A selection stays in order. -/
theorem Ascending.filter (p : ρ → Bool) : Ascending key (l.filter p) := Pairwise.filter _ h

/-- Ascending rows are distinct. -/
theorem Ascending.nodup : l.Nodup := h.imp fun hlt heq => absurd (heq ▸ hlt) (lt_irrefl _)

/-- **The members determine the list.** -/
theorem Ascending.ext (h' : Ascending key l') (hmem : ∀ r, r ∈ l ↔ r ∈ l') : l = l' := by
  exact Perm.eq_of_pairwise' h h' ((perm_ext_iff_of_nodup h.nodup h'.nodup).mpr hmem)

/-- **Two such lists are related row by row** when each row of either has a partner in the other,
under the same key. -/
theorem Ascending.forall₂ {key' : σ → κ} {l' : List σ} {R : ρ → σ → Prop}
    (h' : Ascending key' l') (hkey : ∀ {a b}, R a b → key' b = key a)
    (hl : ∀ a ∈ l, ∃ b ∈ l', R a b) (hl' : ∀ b ∈ l', ∃ a ∈ l, R a b) : List.Forall₂ R l l' := by
  induction l generalizing l' with
  | nil =>
    cases l' with
    | nil => exact List.Forall₂.nil
    | cons b l' => grind [mem_cons_self]
  | cons a l ih =>
    obtain ⟨b₀, hb₀, hab₀⟩ := hl a mem_cons_self
    cases l' with
    | nil => cases hb₀
    | cons b l' =>
      obtain ⟨hfirst, hrest⟩ := pairwise_cons.mp h
      obtain ⟨hfirst', hrest'⟩ := pairwise_cons.mp h'
      obtain ⟨a₀, ha₀, hab⟩ := hl' b mem_cons_self
      -- the first rows are each other's partners, since neither has one before the other
      have hb : b₀ = b := by
        grind
      rw [hb] at hab₀
      refine List.Forall₂.cons hab₀ (ih hrest hrest' (fun c hc => ?_) fun d hd => ?_)
      · grind
      · grind

/-- **A key cuts the list** into what is at or before it and what is past it. -/
theorem Ascending.split (c : κ) :
    l.filter (fun r => decide (key r ≤ c)) ++ l.filter (fun r => decide (c < key r)) = l := by
  refine Ascending.ext ?_ h fun r => ?_
  · refine pairwise_append.mpr ⟨h.filter _, h.filter _, fun a ha b hb => ?_⟩
    grind
  · grind

end

section Page

variable {n : ℕ} {x : ρ}

/-- The last key of a page parts it from the rest. -/
theorem Ascending.page (h : Ascending key l) (hlast : (l.take n).getLast? = some x) :
    (∀ r ∈ l.take n, key r ≤ key x) ∧ ∀ r ∈ l.drop n, key x < key r := by
  have hsplit : Ascending key (l.take n ++ l.drop n) := by rwa [take_append_drop]
  obtain ⟨htake, -, hcross⟩ := pairwise_append.mp hsplit
  refine ⟨fun r hr => ?_, fun r hr => hcross x (mem_of_getLast? hlast) r hr⟩
  obtain ⟨init, hinit⟩ := getLast?_eq_some_iff.mp hlast
  grind [mem_singleton_self]

/-- A page is the rows up to its last key. -/
theorem Ascending.take_eq (h : Ascending key l) (hlast : (l.take n).getLast? = some x) :
    l.take n = l.filter fun r => decide (key r ≤ key x) := by
  obtain ⟨hle, hgt⟩ := h.page hlast
  conv_rhs => rw [← take_append_drop n l]
  rw [filter_append, filter_eq_self.mpr fun r hr => decide_eq_true (hle r hr),
    filter_eq_nil_iff.mpr fun r hr => by simpa using hgt r hr, append_nil]

/-- The rest is the rows past that key. -/
theorem Ascending.drop_eq (h : Ascending key l) (hlast : (l.take n).getLast? = some x) :
    l.drop n = l.filter fun r => decide (key x < key r) := by
  obtain ⟨hle, hgt⟩ := h.page hlast
  conv_rhs => rw [← take_append_drop n l]
  rw [filter_append, filter_eq_nil_iff.mpr fun r hr => by simpa using hle r hr,
    filter_eq_self.mpr fun r hr => decide_eq_true (hgt r hr), nil_append]

end Page

theorem countP_lt_countP {p q : ρ → Bool} {x : ρ} (himp : ∀ a, p a = true → q a = true) (hx : x ∈ l)
    (hp : p x = false) (hq : q x = true) : l.countP p < l.countP q := by
  obtain ⟨pre, post, rfl⟩ := append_of_mem hx
  have hpre : pre.countP p ≤ pre.countP q := countP_mono_left fun a _ => himp a
  have hpost : post.countP p ≤ post.countP q := countP_mono_left fun a _ => himp a
  grind

end Keyset
