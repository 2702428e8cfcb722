import Mathlib.Algebra.Ring.Int.Defs
import Mathlib.Data.List.Basic

/-!
# Decimal integers

Integers as digits with a sign, and what parses them. What is written is parsed
(`parseInt64_formatInt`).
-/

namespace Encoding

variable {n : ℕ}

/-- The number of a string of digits, of which there is one at least. -/
def parseNat (cs : List Char) : Option ℕ :=
  if cs ≠ [] ∧ cs.all Char.isDigit then some (Nat.ofDigitChars 10 cs 0) else none

/-- The number of digits with a sign or without one. -/
def parseSigned : List Char → Option ℤ
  | [] => none
  | c :: cs =>
    if c = '-' then (parseNat cs).map fun n : ℕ => -(n : ℤ)
    else if c = '+' then (parseNat cs).map Int.ofNat
    else (parseNat (c :: cs)).map Int.ofNat

/-- An integer that 64 bits hold. -/
def Fits64 (n : ℤ) : Prop := -2 ^ 63 ≤ n ∧ n < 2 ^ 63

instance : DecidablePred Fits64 := fun _ => inferInstanceAs (Decidable (_ ∧ _))

/-- An integer of 64 bits. -/
def parseInt64 (cs : List Char) : Option ℤ := (parseSigned cs).filter fun n => Fits64 n

/-- The digits of an integer, with its sign when it is negative. -/
def formatInt (n : ℤ) : List Char :=
  if n < 0 then '-' :: Nat.toDigits 10 n.natAbs else Nat.toDigits 10 n.natAbs

/-- The characters of a number are digits. -/
theorem isDigit_of_mem {c : Char} (h : c ∈ Nat.toDigits 10 n) : c.isDigit = true :=
  Nat.isDigit_of_mem_toDigits (by decide) (by decide) h

/-- A number is parsed from its digits. -/
theorem parseNat_toDigits (n : ℕ) : parseNat (Nat.toDigits 10 n) = some n := by
  rw [parseNat, if_pos ⟨Nat.toDigits_ne_nil, List.all_eq_true.mpr fun c hc => isDigit_of_mem hc⟩,
    Nat.ofDigitChars_toDigits (by decide) (by decide)]

/-- And without a sign. -/
theorem parseSigned_toDigits (n : ℕ) : parseSigned (Nat.toDigits 10 n) = some (n : ℤ) := by
  have hparse := parseNat_toDigits n
  obtain ⟨c, cs, heq⟩ := List.exists_cons_of_ne_nil (Nat.toDigits_ne_nil (n := n) (b := 10))
  have hc : c.isDigit = true := isDigit_of_mem (n := n) (heq ▸ List.mem_cons_self)
  have hne : ∀ d : Char, d.isDigit = false → c ≠ d := by
    grind
  simp_all [parseSigned]

/-- An integer is parsed from its digits. -/
theorem parseSigned_formatInt (n : ℤ) : parseSigned (formatInt n) = some n := by
  rw [formatInt]
  split_ifs with hneg
  · rw [parseSigned, if_pos rfl, parseNat_toDigits, Option.map_some]
    exact congrArg some (by omega)
  · rw [parseSigned_toDigits]
    exact congrArg some (by omega)

/-- **An integer of 64 bits is parsed from its digits.** -/
theorem parseInt64_formatInt {n : ℤ} (h : Fits64 n) : parseInt64 (formatInt n) = some n := by
  rw [parseInt64, parseSigned_formatInt, Option.filter_some, if_pos (decide_eq_true h)]

/-- `formatInt` writes what `repr` does. -/
theorem toList_repr (n : ℤ) : n.repr.toList = formatInt n := by
  cases n with
  | ofNat n =>
    change (Nat.repr n).toList = Nat.toDigits 10 n
    simp [Nat.repr]
  | negSucc n =>
    rw [formatInt, if_pos (Int.negSucc_lt_zero n)]
    change ("-" ++ Nat.repr (n + 1)).toList = '-' :: Nat.toDigits 10 (n + 1)
    simp [Nat.repr]

/-- Different integers are written differently. -/
theorem repr_injective {m n : ℤ} (h : m.repr = n.repr) : m = n := by
  have hparsed := parseSigned_formatInt m
  rw [← toList_repr, h, toList_repr, parseSigned_formatInt] at hparsed
  exact (Option.some.inj hparsed).symm

end Encoding
