import Mathlib.Algebra.Ring.Int.Defs
import Mathlib.Data.List.Basic

/-!
# Texts of bytes

The unpadded URL alphabet of base64, three bytes to four characters. Decoding is lenient as common
decoders are: it skips line breaks, and it does not read the bits that the last character has beyond
the last byte. What is encoded is decoded (`decode64_encode64`).
-/

namespace Encoding

/-- The alphabet's characters. -/
def sextets : List Char := "ABCDEFGHIJKLMNOPQRSTUVWXYZabcdefghijklmnopqrstuvwxyz0123456789-_".toList

/-- The character of six bits. -/
def sextet (n : ℕ) : Char := sextets.getD n 'A'

/-- The six bits of a character. -/
def sextetValue (c : Char) : Option ℕ := sextets.findIdx? (· = c)

/-- The characters of a byte string. -/
def encode64 : List UInt8 → List Char
  | [] => []
  | [a] => [sextet (a.toNat / 4), sextet (a.toNat % 4 * 16)]
  | [a, b] =>
    [sextet (a.toNat / 4), sextet (a.toNat % 4 * 16 + b.toNat / 16), sextet (b.toNat % 16 * 4)]
  | a :: b :: c :: s =>
    sextet (a.toNat / 4) :: sextet (a.toNat % 4 * 16 + b.toNat / 16) ::
      sextet (b.toNat % 16 * 4 + c.toNat / 64) :: sextet (c.toNat % 64) :: encode64 s

/-- The bytes of a list of six bits each; a single one is no byte. -/
def bytesOf : List ℕ → Option (List UInt8)
  | [] => some []
  | [_] => none
  | [w, x] => some [UInt8.ofNat (w * 4 + x / 16)]
  | [w, x, y] => some [UInt8.ofNat (w * 4 + x / 16), UInt8.ofNat (x % 16 * 16 + y / 4)]
  | w :: x :: y :: z :: s => do
    let bytes ← bytesOf s
    return UInt8.ofNat (w * 4 + x / 16) :: UInt8.ofNat (x % 16 * 16 + y / 4) ::
      UInt8.ofNat (y % 4 * 64 + z) :: bytes

/-- The bytes of a text; `none` when a character is not of the alphabet. -/
def decode64 (cs : List Char) : Option (List UInt8) := do
  let values ← (cs.filter fun c => c ≠ '\n' ∧ c ≠ '\r').mapM sextetValue
  bytesOf values

/-- The six bits of each character. -/
def values64 : List UInt8 → List ℕ
  | [] => []
  | [a] => [a.toNat / 4, a.toNat % 4 * 16]
  | [a, b] => [a.toNat / 4, a.toNat % 4 * 16 + b.toNat / 16, b.toNat % 16 * 4]
  | a :: b :: c :: s =>
    a.toNat / 4 :: (a.toNat % 4 * 16 + b.toNat / 16) :: (b.toNat % 16 * 4 + c.toNat / 64) ::
      c.toNat % 64 :: values64 s

variable (s : List UInt8) {n : ℕ}

/-- The text is that of the six-bit values. -/
theorem encode64_eq : encode64 s = (values64 s).map sextet := by
  fun_induction encode64 s with
  | case1 => rfl
  | case2 a => rfl
  | case3 a b => rfl
  | case4 a b c s ih => rw [values64, ih]; rfl

/-- A value has six bits. -/
theorem values64_lt : ∀ n ∈ values64 s, n < 64 := by
  fun_induction values64 s with
  | case1 => exact fun n hn => absurd hn List.not_mem_nil
  | case2 a =>
    have ha := a.toNat_lt
    grind
  | case3 a b =>
    have ha := a.toNat_lt
    have hb := b.toNat_lt
    grind
  | case4 a b c s ih =>
    have ha := a.toNat_lt
    have hb := b.toNat_lt
    have hc := c.toNat_lt
    intro n hn
    simp only [List.mem_cons] at hn
    rcases hn with rfl | rfl | rfl | rfl | hn
    · omega
    · omega
    · omega
    · omega
    · exact ih n hn

theorem ofNat_eq {a : UInt8} (h : n = a.toNat) : UInt8.ofNat n = a := by
  rw [h, UInt8.ofNat_toNat]

/-- The values give the bytes back. -/
theorem bytesOf_values64 : bytesOf (values64 s) = some s := by
  fun_induction values64 s with
  | case1 => rfl
  | case2 a => grind [bytesOf, ofNat_eq]
  | case3 a b =>
    have hb := b.toNat_lt
    rw [bytesOf, ofNat_eq (a := a) (by omega), ofNat_eq (a := b) (by omega)]
  | case4 a b c s ih =>
    have hb := b.toNat_lt
    have hc := c.toNat_lt
    grind [bytesOf, ofNat_eq]

/-- A value's character gives it back, and is no line break. -/
theorem sextet_spec : ∀ n < 64, sextetValue (sextet n) = some n ∧ sextet n ≠ '\n' ∧
    sextet n ≠ '\r' := by
  decide

/-- The characters of values give them back. -/
theorem mapM_sextet {ns : List ℕ} (h : ∀ n ∈ ns, n < 64) :
    (ns.map sextet).mapM sextetValue = some ns := by
  induction ns with
  | nil => rfl
  | cons n ns ih => simp_all [sextet_spec]

/-- **What is encoded is decoded.** -/
theorem decode64_encode64 : decode64 (encode64 s) = some s := by
  have hkept : (encode64 s).filter (fun c => c ≠ '\n' ∧ c ≠ '\r') = encode64 s := by
    refine List.filter_eq_self.mpr fun c hc => ?_
    grind [encode64_eq, sextet_spec, values64_lt]
  rw [decode64, hkept, encode64_eq, mapM_sextet (values64_lt s)]
  exact bytesOf_values64 s

end Encoding
