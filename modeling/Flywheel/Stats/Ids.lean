import Mathlib.Algebra.Ring.Divisibility.Basic
import Mathlib.Data.List.Induction
import Mathlib.Data.String.Basic
import Mathlib.Tactic.Linarith
import Flywheel.Library.Lists
import Flywheel.Types

/-!
# Hours and ids

The rollup counts by UTC hours, a run by its finish and a job by the insert time that its id
carries: the millisecond in the id's first 48 bits. `idFloor` is the least id of a millisecond, so
that a window of inserts is a range of ids, and `idTime` reads the millisecond back.
-/

namespace Flywheel

open List Option

/-! ## Hours -/

/-- `unixHour` -/
def unixHour (sec : ℤ) : Time := sec * second

/-- One hour. -/
def hour : Duration := 3600 * second

/-- `floorHour`: `Truncate` counts from Go's zero time, which starts an hour. -/
def floorHour (t : Time) : Time := t / hour * hour

/-- `ceilHour` -/
def ceilHour (t : Time) : Time := if floorHour t < t then floorHour t + hour else floorHour t

/-- A time that starts an hour. -/
def OnHour (t : Time) : Prop := hour ∣ t

instance (t : Time) : Decidable (OnHour t) := inferInstanceAs (Decidable (hour ∣ t))

theorem hour_pos : (0 : ℤ) < hour := by decide

theorem onHour_floorHour (t : Time) : OnHour (floorHour t) := dvd_mul_left hour (t / hour)

theorem floorHour_le (t : Time) : floorHour t ≤ t := Int.ediv_mul_le t (ne_of_gt hour_pos)

theorem lt_floorHour_add (t : Time) : t < floorHour t + hour :=
  Int.lt_ediv_add_one_mul_self t hour_pos |>.trans_eq (by rw [floorHour, add_mul, one_mul])

variable {a b t : Time} {id : String}

theorem le_floorHour {h : Time} (hh : OnHour h) : h ≤ floorHour t ↔ h ≤ t := by
  obtain ⟨k, rfl⟩ := hh
  rw [floorHour, mul_comm hour k, mul_le_mul_iff_left₀ hour_pos, Int.le_ediv_iff_mul_le hour_pos]

theorem OnHour.add_le (ha : OnHour a) (hb : OnHour b) (h : a < b) : a + hour ≤ b := by
  obtain ⟨i, rfl⟩ := ha
  obtain ⟨j, rfl⟩ := hb
  have hij : i < j := lt_of_mul_lt_mul_left h (le_of_lt hour_pos)
  nlinarith [hour_pos, Int.add_one_le_iff.mpr hij]

/-! ## Ids -/

/-- `maxIDMillis` -/
def maxIDMillis : ℤ := 2 ^ 48 - 1

/-- A hex digit, in lower case. -/
def hexDigit (d : ℕ) : Char := Char.ofNat (if d < 10 then 48 + d else 87 + d)

/-- The number's low digits, so many of them, in hex. -/
def hexDigits : ℕ → ℕ → List Char
  | 0, _ => []
  | k + 1, n => hexDigits k (n / 16) ++ [hexDigit (n % 16)]

/-- The millisecond that an id of `t` holds, clamped to its field. -/
def idMillis (t : Time) : ℤ := min (max (t / millisecond) 0) maxIDMillis

/-- Twelve digits with the hyphen after the eighth. -/
def hyphened (digits : List Char) : List Char := digits.take 8 ++ '-' :: digits.drop 8

/-- `idFloor` -/
def idFloor (t : Time) : String :=
  String.ofList (hyphened (hexDigits 12 (idMillis t).toNat) ++ "-0000-0000-000000000000".toList)

/-- The value of a lower-case hex digit. -/
def hexValue (c : Char) : Option ℕ :=
  if '0' ≤ c ∧ c ≤ '9' then some (c.toNat - 48)
  else if 'a' ≤ c ∧ c ≤ 'f' then some (c.toNat - 87)
  else none

/-- The number that digits spell, or none when one is not a lower-case hex digit. -/
def hexNumber (digits : List Char) : Option ℕ :=
  digits.foldl (fun ms c => ms.bind fun n => (hexValue c).map fun d => 16 * n + d) (some 0)

/-- `idTime` -/
def idTime (id : String) : Option Time :=
  let chars := id.toList
  if chars.length < 13 ∨ chars[8]? ≠ some '-' then none
  else (hexNumber (chars.take 8 ++ (chars.drop 9).take 4)).map fun ms : ℕ => (ms : ℤ) * millisecond

/-! ## The order of ids -/

/-- A canonical id: twelve hex digits with the hyphen after the eighth, then the other groups. -/
def CanonicalID (id : String) : Prop :=
  ∃ time rest, id.toList = hyphened time ++ rest ∧ time.length = 12 ∧
    (∀ c ∈ time, (hexValue c).isSome = true) ∧
    List.Forall₂ (fun z c => if z = '0' then (hexValue c).isSome = true else c = z)
      "-0000-0000-000000000000".toList rest

theorem hexValue_eq_some {c : Char} {v : ℕ} (h : hexValue c = some v) :
    (v < 10 ∧ c.toNat = 48 + v) ∨ (10 ≤ v ∧ v < 16 ∧ c.toNat = 87 + v) := by
  unfold hexValue at h
  split_ifs at h with hdigit hletter
  · obtain ⟨hlow, hhigh⟩ : 48 ≤ c.toNat ∧ c.toNat ≤ 57 := hdigit
    cases h
    omega
  · obtain ⟨hlow, hhigh⟩ : 97 ≤ c.toNat ∧ c.toNat ≤ 102 := hletter
    cases h
    omega

theorem hexValue_hexDigit : ∀ d < 16, hexValue (hexDigit d) = some d := by decide

theorem hexNumber_snoc (cs : List Char) (c : Char) :
    hexNumber (cs ++ [c]) = (hexNumber cs).bind fun n => (hexValue c).map fun d => 16 * n + d := by
  simp [hexNumber]

theorem hexNumber_isSome {cs : List Char} (h : ∀ c ∈ cs, (hexValue c).isSome = true) :
    ∃ n, hexNumber cs = some n := by
  induction cs using List.reverseRecOn with
  | nil => exact ⟨0, rfl⟩
  | append_singleton cs c ih =>
    obtain ⟨hcs, hc⟩ := forall_mem_append.mp h
    obtain ⟨n, hn⟩ := ih hcs
    obtain ⟨d, hd⟩ := isSome_iff_exists.mp (hc c mem_cons_self)
    exact ⟨16 * n + d, by rw [hexNumber_snoc, hn, hd]; rfl⟩

/-- Digits compare as the numbers that they spell. -/
theorem hexNumber_lt_iff {xs ys : List Char} {m n : ℕ} (hx : hexNumber xs = some m)
    (hy : hexNumber ys = some n) (hlength : xs.length = ys.length) :
    (xs < ys ↔ m < n) ∧ (xs = ys ↔ m = n) := by
  induction xs using List.reverseRecOn generalizing ys m n with
  | nil =>
    obtain rfl := length_eq_zero_iff.mp hlength.symm
    cases hx.symm.trans hy
    simp
  | append_singleton xs c ih =>
    cases ys using List.reverseRecOn with
    | nil => simp at hlength
    | append_singleton ys d =>
      rw [hexNumber_snoc, bind_eq_some_iff] at hx hy
      obtain ⟨m', hm, hx⟩ := hx
      obtain ⟨n', hn, hy⟩ := hy
      obtain ⟨v, hv, rfl⟩ := map_eq_some_iff.mp hx
      obtain ⟨w, hw, rfl⟩ := map_eq_some_iff.mp hy
      have hlength : xs.length = ys.length := by simpa using hlength
      obtain ⟨hlt, heq⟩ := ih hm hn hlength
      have hc := hexValue_eq_some hv
      have hd := hexValue_eq_some hw
      have hchar : [c] < [d] ↔ c.toNat < d.toNat := by
        simp only [cons_lt_cons_iff, List.lt_irrefl, and_false, or_false]
        rfl
      have hsame : xs ++ [c] = ys ++ [d] ↔ xs = ys ∧ c.toNat = d.toNat := by
        rw [Char.toNat_inj, ← concat_eq_append, ← concat_eq_append, concat_inj]
      rw [append_lt_append_iff hlength, hsame, hchar, hlt, heq]
      constructor
      · omega
      · omega

theorem hexNumber_hexDigits (k n : ℕ) (h : n < 16 ^ k) :
    hexNumber (hexDigits k n) = some n ∧ (hexDigits k n).length = k := by
  induction k generalizing n with
  | zero =>
    obtain rfl : n = 0 := by omega
    exact ⟨rfl, rfl⟩
  | succ k ih =>
    obtain ⟨hnumber, hlength⟩ := ih (n / 16) (by rw [pow_succ] at h; omega)
    have hdigit := hexValue_hexDigit (n % 16) (Nat.mod_lt n (by decide))
    rw [hexDigits, hexNumber_snoc, hnumber, hdigit, length_append, hlength]
    exact ⟨congrArg some (Nat.div_add_mod n 16), rfl⟩

theorem hyphened_lt_iff {xs ys : List Char} (hx : xs.length = 12) (hy : ys.length = 12) :
    hyphened xs < hyphened ys ↔ xs < ys := by
  have hlength : (xs.take 8).length = (ys.take 8).length := by simp [hx, hy]
  conv_rhs => rw [← take_append_drop 8 xs, ← take_append_drop 8 ys]
  unfold hyphened
  rw [append_lt_append_iff hlength, append_lt_append_iff hlength, cons_lt_cons_iff]
  simp

/-- No rest of a canonical id is before that of an `idFloor`. -/
theorem not_lt_floor {zs cs : List Char} (h : List.Forall₂
    (fun z c => if z = '0' then (hexValue c).isSome = true else c = z) zs cs) : ¬cs < zs := by
  induction h with
  | nil => exact List.lt_irrefl _
  | @cons z c zs cs hc _ ih =>
    rw [cons_lt_cons_iff]
    rintro (hlt | ⟨-, hlt⟩)
    · split_ifs at hc with hz
      · obtain ⟨v, hv⟩ := isSome_iff_exists.mp hc
        have hvalue := hexValue_eq_some hv
        subst hz
        have hless : c.toNat < 48 := hlt
        omega
      · exact absurd hlt (hc ▸ lt_irrefl z)
    · exact ih hlt

theorem idMillis_digits (t : Time) :
    hexNumber (hexDigits 12 (idMillis t).toNat) = some (idMillis t).toNat ∧
      (hexDigits 12 (idMillis t).toNat).length = 12 := by
  refine hexNumber_hexDigits 12 _ ?_
  unfold idMillis maxIDMillis
  omega

/-- The id's millisecond, as `idTime` reads it and as the order of ids has it. -/
structure CarriesMillis (id : String) (ms : ℕ) : Prop where
  read : idTime id = some ((ms : ℤ) * millisecond)
  before : ∀ t, id < idFloor t ↔ (ms : ℤ) < idMillis t

theorem carriesMillis {time rest : List Char} {ms : ℕ}
    (hid : id.toList = hyphened time ++ rest) (hlength : time.length = 12)
    (hms : hexNumber time = some ms) (hrest : ¬rest < "-0000-0000-000000000000".toList) :
    CarriesMillis id ms := by
  constructor
  · have hlong : ¬(id.toList.length < 13 ∨ id.toList[8]? ≠ some '-') := by
      simp [hid, hyphened, hlength]
      omega
    have hdigits : id.toList.take 8 ++ (id.toList.drop 9).take 4 = time := by
      have hfirst : (time.take 8).length = 8 := by simp [hlength]
      have hlast : (time.drop 8).length = 4 := by simp [hlength]
      rw [hid, hyphened, append_assoc, take_left' hfirst,
        ← drop_drop (i := 1) (j := 8), drop_left' hfirst, cons_append,
        drop_succ_cons, drop_zero, take_left' hlast, take_append_drop]
    unfold idTime
    dsimp only
    rw [if_neg hlong, hdigits, hms]
    rfl
  · intro t
    obtain ⟨hnumber, hdigits⟩ := idMillis_digits t
    have hsame : (hyphened time).length = (hyphened (hexDigits 12 (idMillis t).toNat)).length := by
      simp [hyphened, hlength, hdigits]
    rw [String.lt_iff_toList_lt, hid, idFloor, String.toList_ofList, append_lt_append_iff hsame,
      hyphened_lt_iff hlength hdigits,
      (hexNumber_lt_iff hms hnumber (hlength.trans hdigits.symm)).1,
      or_iff_left fun h => hrest h.2, ← Int.lt_toNat]

theorem carriesMillis_idFloor (t : Time) : CarriesMillis (idFloor t) (idMillis t).toNat :=
  carriesMillis String.toList_ofList (idMillis_digits t).2 (idMillis_digits t).1 (List.lt_irrefl _)

theorem CanonicalID.carriesMillis (h : CanonicalID id) : ∃ ms, CarriesMillis id ms := by
  obtain ⟨time, rest, hid, hlength, hhex, hrest⟩ := h
  obtain ⟨ms, hms⟩ := hexNumber_isSome hhex
  exact ⟨ms, Flywheel.carriesMillis hid hlength hms (not_lt_floor hrest)⟩

/-- A time whose millisecond an id holds. -/
def InIDField (t : Time) : Prop := 0 ≤ t ∧ t / millisecond ≤ maxIDMillis

theorem InIDField.idMillis_eq {t : Time} (h : InIDField t) :
    idMillis t = t / millisecond ∧ 0 ≤ idMillis t := by
  have hnonneg : 0 ≤ t / millisecond := Int.ediv_nonneg h.1 (by decide)
  have heq : idMillis t = t / millisecond := by rw [idMillis, max_eq_left hnonneg, min_eq_left h.2]
  exact ⟨heq, heq ▸ hnonneg⟩

/-- The ids of a window of inserts. -/
def InIDs (a b : Time) (id : String) : Prop := idFloor a ≤ id ∧ id < idFloor b

/-- **Id ranges and id times agree.** A canonical id is at or after the `idFloor` of a time exactly
when the time's millisecond is at most the one that `idTime` reads, so that a range of ids is a
window of inserts; `idFloor` is monotone and `idTime` reads its millisecond back, and windows that
follow each other share no id and leave none out. -/
theorem id_ranges_agree (id : String) (a b c : Time) (hid : CanonicalID id) (ha : InIDField a)
    (hb : InIDField b) (hc : InIDField c) :
    (∃ ms : ℤ, idTime id = some (ms * millisecond) ∧ (idFloor a ≤ id ↔ a / millisecond ≤ ms) ∧
      (InIDs a b id ↔ a / millisecond ≤ ms ∧ ms < b / millisecond)) ∧
    (a ≤ b → idFloor a ≤ idFloor b) ∧ idTime (idFloor a) = some (a / millisecond * millisecond) ∧
    (a ≤ b → b ≤ c → (InIDs a c id ↔ Xor (InIDs a b id) (InIDs b c id))) := by
  obtain ⟨ms, hread, hbefore⟩ := hid.carriesMillis
  obtain ⟨hmsA, hnonneg⟩ := ha.idMillis_eq
  have hmsB := hb.idMillis_eq.1
  have hmsC := hc.idMillis_eq.1
  have hmono : ∀ {s t : ℤ}, s ≤ t → s / millisecond ≤ t / millisecond := fun h =>
    Int.ediv_le_ediv (by decide) h
  rw [← hmsA, ← hmsB]
  refine ⟨⟨ms, hread, ?_, ?_⟩, fun hab => ?_, ?_, fun hab hbc => ?_⟩
  · rw [← not_lt, hbefore, not_lt]
  · rw [InIDs, ← not_lt, hbefore, hbefore, not_lt]
  · have := hmono hab
    rw [← not_lt, (carriesMillis_idFloor b).before]
    omega
  · rw [(carriesMillis_idFloor a).read, Int.toNat_of_nonneg hnonneg]
  · have hab := hmono hab
    have hbc := hmono hbc
    simp only [InIDs, ← not_lt, hbefore, xor_def]
    omega

/-- The id of a job that was inserted at the start of 2024 is in the range of the two seconds around
it, and not in the one of the hour after them. -/
theorem new_year_id_in_range :
    let id := "018cc251-f400-7abc-8def-0123456789ab"
    InIDs (1704067199 * second) (1704067201 * second) id ∧
      ¬ InIDs (1704067201 * second) (1704070801 * second) id := by
  intro id
  have hfield : ∀ n ∈ [1704067199, 1704067201, 1704070801], InIDField (n * second) := by
    unfold InIDField
    decide
  have hid : CanonicalID "018cc251-f400-7abc-8def-0123456789ab" :=
    ⟨"018cc251f400".toList, "-7abc-8def-0123456789ab".toList, by decide, by decide,
      List.all_eq_true.mp (by decide), by decide⟩
  obtain ⟨⟨ms, hread, -, hrange⟩, -, -, hsplit⟩ := id_ranges_agree id (1704067199 * second)
    (1704067201 * second) (1704070801 * second) hid (hfield _ (by decide)) (hfield _ (by decide))
    (hfield _ (by decide))
  have hms : idTime id = some (1704067200000 * millisecond) := by decide
  have heq : ms * millisecond = 1704067200000 * millisecond := Option.some.inj
    (hread.symm.trans hms)
  obtain rfl : ms = 1704067200000 := Int.eq_of_mul_eq_mul_right (by decide) heq
  have hin : InIDs (1704067199 * second) (1704067201 * second) id := hrange.mpr (by decide)
  have hall := (hsplit (by decide) (by decide)).mp ⟨hin.1, hin.2.trans_le (by decide)⟩
  exact ⟨hin, fun hafter => hall.elim (fun h => h.2 hafter) fun h => h.2 hin⟩

end Flywheel
