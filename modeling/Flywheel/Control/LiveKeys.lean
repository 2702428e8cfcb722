import Flywheel.Control.Batch

/-!
# Which jobs may go live

`liveCandidates` picks, of rows in id order, those that a retry may put live: per active key the
first that no other live job holds. The pick over a list is the pick over its first part and then
over the rest with the keys of the first part taken (`liveCandidates_append`), which is what lets a
batched retry agree with an unbatched one; and a write that puts the picked rows live keeps one live
job per key (`activeKeysUnique_update`).
-/

namespace Flywheel

open Relational List

variable {held held' : JobRow → Bool} {taken taken' : List String} {rows rows' : List JobRow}

/-! ## The pick -/

/-- The keys that are taken after a pick: those before, and those of the rows that it picked. -/
def takenAfter (held : JobRow → Bool) : List String → List JobRow → List String
  | taken, [] => taken
  | taken, r :: rows =>
    match r.uniqueActiveKey with
    | none => takenAfter held taken rows
    | some key =>
      if held r || taken.contains key then takenAfter held taken rows
      else takenAfter held (key :: taken) rows

/-- **The pick over a list in two parts.** -/
theorem liveCandidates_append (held : JobRow → Bool) (taken : List String)
    (rows rows' : List JobRow) :
    liveCandidates held taken (rows ++ rows') =
      liveCandidates held taken rows ++ liveCandidates held (takenAfter held taken rows) rows' := by
  induction rows generalizing taken with
  | nil => rfl
  | cons r rows ih =>
    rw [cons_append, liveCandidates, liveCandidates, takenAfter]
    cases r.uniqueActiveKey with
    | none => exact congrArg (r.id :: ·) (ih taken)
    | some key =>
      by_cases hskip : (held r || taken.contains key) = true
      · simp_all
      · simp_all

theorem liveCandidates_sublist (held : JobRow → Bool) (taken : List String) (rows : List JobRow) :
    (liveCandidates held taken rows).Sublist (rows.map JobRow.id) := by
  induction rows generalizing taken with
  | nil => exact List.Sublist.slnil
  | cons r rows ih =>
    rw [liveCandidates, map_cons]
    grind

variable {db : Db} {r : JobRow} {key : String}

theorem mem_takenAfter : key ∈ takenAfter held taken rows ↔
      key ∈ taken ∨ ∃ r ∈ rows, r.uniqueActiveKey = some key ∧ held r = false := by
  induction rows generalizing taken with
  | nil => simp [takenAfter]
  | cons r rows ih =>
    rw [takenAfter]
    cases hkey : r.uniqueActiveKey with
    | none => simp [ih, hkey]
    | some k =>
      by_cases hskip : (held r || taken.contains k) = true
      · constructor
        · grind
        · grind
      · rw [Bool.not_eq_true, Bool.or_eq_false_iff] at hskip
        grind

/-- The pick depends on the ids and keys of the rows and on which keys count as held or taken, and
not on why. -/
theorem liveCandidates_forall₂
    (h : List.Forall₂ (fun r r' => r'.id = r.id ∧ r'.uniqueActiveKey = r.uniqueActiveKey ∧
      ∀ key, r.uniqueActiveKey = some key →
        (held r || taken.contains key) = (held' r' || taken'.contains key)) rows rows') :
    liveCandidates held taken rows = liveCandidates held' taken' rows' := by
  induction rows generalizing taken taken' rows' with
  | nil =>
    cases h
    rfl
  | cons r rows ih =>
    cases h with
    | cons hr hrows =>
      obtain ⟨hid, hkey', hheld⟩ := hr
      rw [liveCandidates, liveCandidates, hkey', hid]
      cases hkey : r.uniqueActiveKey with
      | none => exact congrArg (r.id :: ·) (ih hrows)
      | some key =>
        dsimp only
        rw [← hheld key hkey]
        by_cases hskip : (held r || taken.contains key) = true
        · grind
        · rw [if_neg hskip, if_neg hskip]
          refine congrArg (r.id :: ·) (ih (hrows.imp fun s s' hs => ⟨hs.1, hs.2.1, fun k hk => ?_⟩))
          rw [contains_cons, contains_cons, Bool.or_left_comm, hs.2.2 k hk, Bool.or_left_comm]

theorem liveCandidates_congr (h : ∀ r ∈ rows, ∀ key, r.uniqueActiveKey = some key →
      (held r || taken.contains key) = (held' r || taken'.contains key)) :
    liveCandidates held taken rows = liveCandidates held' taken' rows :=
  liveCandidates_forall₂ (forall₂_same.mpr fun r hr => ⟨rfl, rfl, h r hr⟩)

/-- A row at its place in a list is picked when it carries no key, or one that no other job holds
and no row before it took. -/
theorem mem_liveCandidates (hnodup : ((rows ++ r :: rows').map JobRow.id).Nodup) :
    r.id ∈ liveCandidates held taken (rows ++ r :: rows') ↔
      ∀ key, r.uniqueActiveKey = some key → held r = false ∧ key ∉ takenAfter held taken rows := by
  have hother : ∀ l taken', r ∉ l → l.Sublist (rows ++ r :: rows') →
      r.id ∉ liveCandidates held taken' l := by
    intro l taken' hl hsub hmem
    obtain ⟨s, hs, hid⟩ := mem_map.mp (liveCandidates_subset _ hmem)
    grind
  obtain ⟨-, hright, hcross⟩ := nodup_append.mp (Nodup.of_map _ hnodup)
  have hfirst : r.id ∉ liveCandidates held taken rows :=
    hother rows taken (fun hr => hcross r hr r mem_cons_self rfl) (sublist_append_left _ _)
  rw [liveCandidates_append, mem_append, or_iff_right hfirst, liveCandidates]
  cases hkey : r.uniqueActiveKey with
  | none => simp
  | some key =>
    by_cases hskip : (held r || (takenAfter held taken rows).contains key) = true
    · grind
    · simp_all

theorem exists_picked (h : key ∈ takenAfter held taken rows) : key ∈ taken ∨
      ∃ r ∈ rows, r.uniqueActiveKey = some key ∧ r.id ∈ liveCandidates held taken rows := by
  induction rows generalizing taken with
  | nil => exact .inl h
  | cons r rows ih =>
    rw [takenAfter] at h
    rw [liveCandidates]
    cases hkey : r.uniqueActiveKey with
    | none => grind
    | some k =>
      simp only [hkey] at h ⊢
      by_cases hskip : (held r || taken.contains k) = true
      · grind
      · rw [if_neg hskip] at h ⊢
        rcases ih h with h | ⟨s, hs, hk, hpick⟩
        · grind
        · exact .inr ⟨s, mem_cons_of_mem r hs, hk, mem_cons_of_mem _ hpick⟩

section Nodup

variable (hnodup : (rows.map JobRow.id).Nodup)
include hnodup

theorem held_of_picked (hr : r ∈ rows) (hpick : r.id ∈ liveCandidates held taken rows)
    (hkey : r.uniqueActiveKey = some key) : held r = false ∧ key ∈ takenAfter held taken rows := by
  obtain ⟨pre, post, rfl⟩ := append_of_mem hr
  have hfree := ((mem_liveCandidates hnodup).mp hpick key hkey).1
  exact ⟨hfree, mem_takenAfter.mpr (.inr ⟨r, hr, hkey, hfree⟩)⟩

/-- No two picked rows share a key. -/
theorem picked_inj {s : JobRow} (hr : r ∈ rows) (hs : s ∈ rows)
    (hrpick : r.id ∈ liveCandidates held taken rows)
    (hspick : s.id ∈ liveCandidates held taken rows) (hrkey : r.uniqueActiveKey = some key)
    (hskey : s.uniqueActiveKey = some key) : r = s := by
  -- of two rows, the later one would find its key taken
  have hbefore : ∀ {a b pre post}, rows = pre ++ b :: post → a ∈ pre → a ∈ rows →
      a.id ∈ liveCandidates held taken rows → b.id ∈ liveCandidates held taken rows →
      a.uniqueActiveKey = some key → b.uniqueActiveKey = some key → False := by
    intro a b pre post hsplit hpre ha hapick hbpick hakey hbkey
    have hfree := (held_of_picked hnodup ha hapick hakey).1
    rw [hsplit] at hbpick hnodup
    exact ((mem_liveCandidates hnodup).mp hbpick key hbkey).2
      (mem_takenAfter.mpr (.inr ⟨a, hpre, hakey, hfree⟩))
  obtain ⟨pre, post, hsplit⟩ := append_of_mem hs
  have hmem := hr
  rw [hsplit, mem_append, mem_cons] at hmem
  rcases hmem with hpre | rfl | hpost
  · exact (hbefore hsplit hpre hr hrpick hspick hrkey hskey).elim
  · rfl
  · obtain ⟨mid, post', rfl⟩ := append_of_mem hpost
    grind

end Nodup

variable {guard : JobRow → Bool}

theorem perm_idsMatching {ids : List String} (hnodup : ids.Nodup)
    (hstored : ∀ id ∈ ids, ∃ r ∈ db.jobs.rows, r.id = id)
    (hguard : ∀ r ∈ db.jobs.rows, guard r = decide (r.id ∈ ids)) :
    (idsMatching guard db).Perm ids := by
  refine (perm_insertionSort _ _).trans ((perm_ext_iff_of_nodup ?_ hnodup).mpr fun id => ?_)
  · exact db.jobs.nodup.sublist (filter_sublist.map JobRow.id)
  · grind

/-! ## One live job per key -/

theorem activeKeysUnique_iff {jobs : Table JobRow.id} : activeKeysUnique jobs = true ↔
      ∀ r ∈ jobs.rows, ∀ s ∈ jobs.rows, r.live = true → s.live = true →
        ∀ key, r.uniqueActiveKey = some key → s.uniqueActiveKey = some key → r.id = s.id := by
  simp only [activeKeysUnique, all_eq_true, Bool.not_eq_true', Bool.and_eq_false_iff,
    decide_eq_false_iff_not, not_not, Option.isSome_eq_false_iff, Option.isNone_iff_eq_none]
  constructor
  · grind
  · intro h r hr s hs
    cases hkey : r.uniqueActiveKey with
    | none => simp
    | some key => grind

theorem activeKeyHeld_iff : activeKeyHeld db r = true ↔ ∃ key, r.uniqueActiveKey = some key ∧
        ∃ s ∈ db.jobs.rows, s.uniqueActiveKey = some key ∧ s.live = true ∧ s.id ≠ r.id := by
  simp only [activeKeyHeld, any_eq_true, Bool.and_eq_true, decide_eq_true_eq]
  constructor
  · rintro ⟨s, hs, ⟨⟨hsome, hkey⟩, hlive⟩, hid⟩
    obtain ⟨key, hr⟩ := Option.isSome_iff_exists.mp hsome
    exact ⟨key, hr, s, hs, hkey.trans hr, hlive, hid⟩
  · grind

/-- **A write that puts rows live keeps one live job per key**, when no other live job holds the key
of a row that it writes, and no two such rows share one. -/
theorem activeKeysUnique_update {patch : Patch JobRow.id} (h : activeKeysUnique db.jobs = true)
    (hkeys : ∀ r, (patch.apply r).uniqueActiveKey = r.uniqueActiveKey)
    (hfree : ∀ r ∈ db.jobs.rows, guard r = true → activeKeyHeld db r = false)
    (hpick : ∀ r ∈ db.jobs.rows, ∀ s ∈ db.jobs.rows, guard r = true → guard s = true →
      ∀ key, r.uniqueActiveKey = some key → s.uniqueActiveKey = some key → r.id = s.id) :
    activeKeysUnique (db.jobs.update guard patch) = true := by
  rw [activeKeysUnique_iff] at h ⊢
  have hkey : ∀ r, (if guard r then patch.apply r else r).uniqueActiveKey = r.uniqueActiveKey := by
    grind
  have hid : ∀ r, (if guard r then patch.apply r else r).id = r.id := by
    intro r
    split_ifs
    · exact patch.key_apply r
    · rfl
  -- a written row and one that was live already have keys that differ
  have hcross : ∀ r ∈ db.jobs.rows, ∀ s ∈ db.jobs.rows, guard r = true → s.live = true →
      ∀ key, r.uniqueActiveKey = some key → s.uniqueActiveKey = some key → r.id = s.id := by
    intro r hr s hs hguard hlive key hrkey hskey
    by_contra hne
    have hheld := activeKeyHeld_iff.mpr ⟨key, hrkey, s, hs, hskey, hlive, fun heq => hne heq.symm⟩
    simp_all
  intro r' hr' s' hs' hrlive hslive key hrkey hskey
  obtain ⟨r, hr, rfl⟩ := mem_map.mp hr'
  obtain ⟨s, hs, rfl⟩ := mem_map.mp hs'
  rw [hkey] at hrkey hskey
  rw [hid, hid]
  cases hrg : guard r <;> cases hsg : guard s
  · grind
  · grind
  · grind
  · exact hpick r hr s hs hrg hsg key hrkey hskey

end Flywheel
