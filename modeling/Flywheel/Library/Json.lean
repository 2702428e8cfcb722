import Mathlib.Data.List.Basic

/-!
# Byte strings and JSON texts

A byte string need not be UTF-8. `runes` decodes one as a loop over its runes does, with `none` for
each byte that starts no encoding; `mem_runes_nul` says that decoding neither makes nor loses a NUL.

`Json.valid` recognises the JSON texts, by recursive descent over characters, and `Json.escapesNul`
those that hold the escape of NUL. `Json.marshal` writes an object of scalars the way an encoder
with HTML escapes does; its text is always valid, and it escapes a NUL exactly for a NUL byte in one
of its strings.
-/

namespace Encoding

open List Option

/-! ## Runes of a byte string -/

/-- The loop of `runes`, which ends before its fuel does when that is the string's length. -/
def runesLoop : ℕ → List UInt8 → List (Option Char)
  | 0, _ => []
  | _ + 1, [] => []
  | n + 1, b :: s =>
    match (b :: s).toByteArray.utf8DecodeChar? 0 with
    | some c => some c :: runesLoop n ((b :: s).drop c.utf8Size)
    | none => none :: runesLoop n s

/-- The runes of a byte string; `none` is a byte that starts no encoding. -/
def runes (s : List UInt8) : List (Option Char) := runesLoop s.length s

variable {c d : Char} {s : List UInt8} {n : ℕ}

/-- A decoded character is what the bytes begin with. -/
theorem eq_of_utf8DecodeChar? (h : s.toByteArray.utf8DecodeChar? 0 = some c) :
    s = String.utf8EncodeChar c ++ s.drop c.utf8Size := by
  obtain ⟨l, hl⟩ := ByteArray.exists_of_utf8DecodeChar?_eq_some h
  have hs : s = String.utf8EncodeChar c ++ l.data.toList := by
    refine toByteArray_inj.mp (hl.trans ?_)
    rw [toByteArray_append, ByteArray.append_right_inj]
    exact ByteArray.ext (by rw [data_toByteArray])
  simp_all

/-- A positive byte is not the zero byte. -/
theorem ofNat_ne_zero {k : ℕ} (hpos : 0 < k) (hlt : k < 256) : (0 : UInt8) ≠ UInt8.ofNat k := by
  intro h
  have hk := congrArg UInt8.toNat h
  grind [UInt8.toNat_ofNat']

/-- Only NUL is encoded with a zero byte. -/
theorem zero_mem_utf8EncodeChar : 0 ∈ String.utf8EncodeChar c ↔ c = '\x00' := by
  constructor
  · intro h
    unfold String.utf8EncodeChar at h
    dsimp only at h
    split_ifs at h with h1 h2 h3
    · by_contra hc
      have hpos : 0 < c.val.toNat := by
        refine Nat.pos_of_ne_zero fun hzero => hc (Char.ext (UInt32.toNat_inj.mp hzero))
      exact ofNat_ne_zero hpos (by omega) (mem_singleton.mp h)
    · grind [ofNat_ne_zero]
    · grind [ofNat_ne_zero]
    · grind [ofNat_ne_zero]
  · rintro rfl
    decide

/-- A zero byte is decoded as NUL. -/
theorem utf8DecodeChar?_zero (s : List UInt8) :
    (0 :: s).toByteArray.utf8DecodeChar? 0 = some '\x00' := by
  have hsplit : (0 :: s).toByteArray = ['\x00'].utf8Encode ++ s.toByteArray := by
    rw [← singleton_append, toByteArray_append]
    rfl
  simp_all

/-- With fuel for the bytes, NUL is read exactly where there is a zero byte. -/
theorem mem_runesLoop_nul (hn : s.length ≤ n) : some '\x00' ∈ runesLoop n s ↔ 0 ∈ s := by
  induction n generalizing s with
  | zero =>
    obtain rfl := eq_nil_of_length_eq_zero (Nat.le_zero.mp hn)
    exact iff_of_false not_mem_nil not_mem_nil
  | succ n ih =>
    cases s with
    | nil => exact iff_of_false not_mem_nil not_mem_nil
    | cons b s =>
      have hlength : s.length ≤ n := Nat.le_of_succ_le_succ hn
      rw [runesLoop]
      cases hdecode : (b :: s).toByteArray.utf8DecodeChar? 0 with
      | some c =>
        have hrest : ((b :: s).drop c.utf8Size).length ≤ n := by
          rw [length_drop, length_cons]
          have := c.utf8Size_pos
          omega
        have hzero : 0 ∈ b :: s ↔ c = '\x00' ∨ 0 ∈ (b :: s).drop c.utf8Size := by
          conv_lhs => rw [eq_of_utf8DecodeChar? hdecode]
          rw [mem_append, zero_mem_utf8EncodeChar]
        grind
      | none =>
        have hb : b ≠ 0 := by
          rintro rfl
          rw [utf8DecodeChar?_zero] at hdecode
          cases hdecode
        grind

/-- NUL is among the runes exactly when there is a zero byte. -/
theorem mem_runes_nul : some '\x00' ∈ runes s ↔ 0 ∈ s := mem_runesLoop_nul (Nat.le_refl _)

/-! ## Where a rune starts -/

/-- A byte that may start a rune: every byte but the continuation bytes. -/
def runeStart (b : UInt8) : Bool := b &&& 0xC0 ≠ 0x80

set_option maxRecDepth 4000 in
/-- The bytes that start a rune: those below 128, and those from 192 on. -/
theorem runeStart_ofNat : ∀ k < 256, runeStart (UInt8.ofNat k) = decide (k < 128 ∨ 192 ≤ k) := by
  decide

/-- Of a character's bytes, the first alone starts a rune. -/
theorem utf8EncodeChar_eq_cons (c : Char) :
    ∃ b bs, String.utf8EncodeChar c = b :: bs ∧ runeStart b = true ∧
      ∀ x ∈ bs, runeStart x = false := by
  have hstart : ∀ k, k < 128 ∨ (192 ≤ k ∧ k < 256) → runeStart (UInt8.ofNat k) = true := by
    grind [runeStart_ofNat]
  have hnext : ∀ k, runeStart (UInt8.ofNat (k % 64 + 128)) = false := by
    grind [runeStart_ofNat]
  unfold String.utf8EncodeChar
  dsimp only
  split_ifs with h1 h2 h3
  · exact ⟨_, _, rfl, hstart _ (by omega), fun x hx => absurd hx not_mem_nil⟩
  · grind
  · grind
  · refine ⟨_, _, rfl, hstart _ (by omega), fun x hx => ?_⟩
    grind

namespace Json

/-! ## The JSON texts -/

/-- A character of the insignificant whitespace. -/
def isSpace (c : Char) : Bool := c = ' ' || c = '\t' || c = '\n' || c = '\r'

def skipSpace (cs : List Char) : List Char := cs.dropWhile isSpace

def isHex (c : Char) : Bool :=
  c.isDigit || (decide ('a' ≤ c) && decide (c ≤ 'f')) || (decide ('A' ≤ c) && decide (c ≤ 'F'))

/-- Where the recogniser of a string stands: between characters, after a backslash, or with one
more than `n` digits of an escape to come. -/
inductive StringState where
  | text
  | escape
  | hex (n : ℕ)

/-- What follows the string that was opened. -/
def string : StringState → List Char → Option (List Char)
  | _, [] => none
  | .text, c :: cs =>
    if c = '"' then some cs
    else if c = '\\' then string .escape cs
    else if c < ' ' then none
    else string .text cs
  | .escape, c :: cs =>
    if c = 'u' then string (.hex 3) cs
    else if c ∈ ['"', '\\', '/', 'b', 'f', 'n', 'r', 't'] then string .text cs
    else none
  | .hex n, c :: cs => if isHex c then string (if n = 0 then .text else .hex (n - 1)) cs else none

/-- What follows one digit or more. -/
def digits : List Char → Option (List Char)
  | [] => none
  | c :: cs => if c.isDigit then some (cs.dropWhile Char.isDigit) else none

/-- What follows an integer part: a zero, or digits of which the first is not zero. -/
def integer : List Char → Option (List Char)
  | [] => none
  | c :: cs => if c = '0' then some cs else digits (c :: cs)

/-- What follows a fraction, if there is one. -/
def fraction : List Char → Option (List Char)
  | [] => some []
  | c :: cs => if c = '.' then digits cs else some (c :: cs)

/-- What follows a sign, if there is one of `signs`. -/
def signed (signs : List Char) : List Char → List Char
  | [] => []
  | c :: cs => if c ∈ signs then cs else c :: cs

/-- What follows an exponent, if there is one. -/
def exponent : List Char → Option (List Char)
  | [] => some []
  | c :: cs => if c = 'e' ∨ c = 'E' then digits (signed ['+', '-'] cs) else some (c :: cs)

/-- What follows a number. -/
def number (cs : List Char) : Option (List Char) := do
  let cs ← integer (signed ['-'] cs)
  let cs ← fraction cs
  exponent cs

/-- What follows a fixed word. -/
def keyword (word cs : List Char) : Option (List Char) :=
  if word <+: cs then some (cs.drop word.length) else none

/-- What follows a character, after spaces. -/
def symbol (c : Char) (cs : List Char) : Option (List Char) :=
  match skipSpace cs with
  | [] => none
  | d :: cs => if d = c then some cs else none

mutual

/-- What follows a value. -/
def value : ℕ → List Char → Option (List Char)
  | 0, _ => none
  | _ + 1, [] => none
  | n + 1, c :: cs =>
    if c = '"' then string .text cs
    else if c = '\x7b' then (symbol '\x7d' cs).or (members n cs)
    else if c = '[' then (symbol ']' cs).or (elements n cs)
    else if c = 't' then keyword ['r', 'u', 'e'] cs
    else if c = 'f' then keyword ['a', 'l', 's', 'e'] cs
    else if c = 'n' then keyword ['u', 'l', 'l'] cs
    else number (c :: cs)

/-- What follows the members of an object and its brace. -/
def members : ℕ → List Char → Option (List Char)
  | 0, _ => none
  | n + 1, cs => do
    let cs ← symbol '"' cs
    let cs ← string .text cs
    let cs ← symbol ':' cs
    let cs ← value n (skipSpace cs)
    match symbol ',' cs with
    | some cs => members n cs
    | none => symbol '\x7d' cs

/-- What follows the elements of an array and its bracket. -/
def elements : ℕ → List Char → Option (List Char)
  | 0, _ => none
  | n + 1, cs => do
    let cs ← value n (skipSpace cs)
    match symbol ',' cs with
    | some cs => elements n cs
    | none => symbol ']' cs

end

/-- A text of the grammar: one value between spaces. -/
def valid (cs : List Char) : Bool :=
  (value (cs.length + 1) (skipSpace cs)).any fun rest => skipSpace rest = []

/-- Where the search for an escape of NUL stands: outside one, after a backslash, or with one more
than `n` zeros to come. -/
inductive NulState where
  | text
  | escape
  | zeros (n : ℕ)

/-- The text holds the escape of NUL, from a state on. -/
def nulFrom : NulState → List Char → Bool
  | _, [] => false
  | .text, c :: cs => nulFrom (if c = '\\' then .escape else .text) cs
  | .escape, c :: cs => nulFrom (if c = 'u' then .zeros 3 else .text) cs
  | .zeros n, c :: cs => if c = '0' then n = 0 || nulFrom (.zeros (n - 1)) cs else nulFrom .text cs

/-- The text holds the escape of NUL. -/
def escapesNul (cs : List Char) : Bool := nulFrom .text cs

/-! ## An encoder -/

/-- A digit of an escape. -/
def hexDigit (n : ℕ) : Char := ("0123456789abcdef".toList).getD n '0'

/-- The escape of a rune below 256. -/
def byteEscape (n : ℕ) : List Char := ['\\', 'u', '0', '0', hexDigit (n / 16), hexDigit (n % 16)]

/-- A rune in a string: the two-character escapes, the escapes of other control characters, of what
HTML reads and of the two line separators, and the replacement character for a byte that starts no
encoding. -/
def escapeRune : Option Char → List Char
  | none => ['\\', 'u', 'f', 'f', 'f', 'd']
  | some c =>
    if c = '\\' ∨ c = '"' then ['\\', c]
    else if c = '\x08' then ['\\', 'b']
    else if c = '\x0c' then ['\\', 'f']
    else if c = '\n' then ['\\', 'n']
    else if c = '\r' then ['\\', 'r']
    else if c = '\t' then ['\\', 't']
    else if c < ' ' ∨ c = '<' ∨ c = '>' ∨ c = '&' then byteEscape c.toNat
    else if c = '\u2028' then ['\\', 'u', '2', '0', '2', '8']
    else if c = '\u2029' then ['\\', 'u', '2', '0', '2', '9']
    else [c]

/-- A string, between its quotes. -/
def quote (s : List UInt8) : List Char := '"' :: (runes s).flatMap escapeRune ++ ['"']

/-- A value without parts. -/
inductive Scalar where
  | string (s : List UInt8)
  | number (n : ℕ)
  | bool (b : Bool)

/-- A scalar's text. -/
def Scalar.text : Scalar → List Char
  | .string s => quote s
  | .number n => n.repr.toList
  | .bool true => ['t', 'r', 'u', 'e']
  | .bool false => ['f', 'a', 'l', 's', 'e']

/-- A member's text. -/
def memberText (m : List UInt8 × Scalar) : List Char := quote m.1 ++ ':' :: m.2.text

/-- The members' texts, between commas. -/
def membersText : List (List UInt8 × Scalar) → List Char
  | [] => []
  | [m] => memberText m
  | m :: ms => memberText m ++ ',' :: membersText ms

/-- An object of scalars. -/
def marshal (ms : List (List UInt8 × Scalar)) : List Char := '\x7b' :: membersText ms ++ ['\x7d']

/-! ## The encoder's texts are valid -/

/-- The characters that are escaped by their number are ASCII. -/
theorem toNat_lt_of_escaped (h : c < ' ' ∨ c = '<' ∨ c = '>' ∨ c = '&') : c.toNat < 128 := by
  rcases h with h | rfl | rfl | rfl
  · have hlt : c.toNat < ' '.toNat := h
    exact Nat.lt_trans hlt (by decide)
  · decide
  · decide
  · decide

/-- Hex digits are read as such. -/
theorem isHex_hexDigit : ∀ n < 16, isHex (hexDigit n) = true := by decide

/-- A rune as the encoder writes it stays inside the string. -/
theorem string_escapeRune (r : Option Char) (cs : List Char) :
    string .text (escapeRune r ++ cs) = string .text cs := by
  cases r with
  | none => rfl
  | some c =>
    unfold escapeRune
    dsimp only
    split_ifs with h1 h2 h3 h4 h5 h6 h7 h8 h9
    · rcases h1 with rfl | rfl
      · rfl
      · rfl
    · rfl
    · rfl
    · rfl
    · rfl
    · rfl
    · grind [toNat_lt_of_escaped, isHex, isHex_hexDigit, byteEscape, string]
    · rfl
    · rfl
    · grind [string]

variable (rs : List (Option Char)) (cs : List Char)

/-- And so do any number of them. -/
theorem string_flatMap : string .text (rs.flatMap escapeRune ++ cs) = string .text cs := by
  induction rs with
  | nil => rfl
  | cons r rs ih => rw [List.flatMap_cons, List.append_assoc, string_escapeRune, ih]

/-- A quoted string is read to its closing quote. -/
theorem string_quote (s : List UInt8) (cs : List Char) :
    string .text ((runes s).flatMap escapeRune ++ '"' :: cs) = some cs := by
  rw [string_flatMap]
  rfl

/-- A number has a first digit, which is zero for zero alone. -/
theorem toDigits_eq_cons (n : ℕ) :
    ∃ c ds, Nat.toDigits 10 n = c :: ds ∧ (∀ d ∈ c :: ds, d.isDigit) ∧ (c = '0' → n = 0) := by
  have hdigit : ∀ d ∈ Nat.toDigits 10 n, d.isDigit = true := fun d hd =>
    Nat.isDigit_of_mem_toDigits (by decide) (by decide) hd
  induction n using Nat.strongRecOn with
  | ind n ih =>
    by_cases hn : n < 10
    · have hsingle : Nat.toDigits 10 n = [n.digitChar] := Nat.toDigits_of_lt_base hn
      simp_all
    · obtain ⟨c, ds, heq, -, hzero⟩ := ih (n / 10) (by omega) fun d hd =>
        Nat.isDigit_of_mem_toDigits (by decide) (by decide) hd
      have hsplit : Nat.toDigits 10 n = c :: (ds ++ [(n % 10).digitChar]) := by
        rw [Nat.toDigits_of_base_le (by decide) (by omega), heq, cons_append]
      exact ⟨c, _, hsplit, hsplit ▸ hdigit, fun hc => absurd (hzero hc) (by omega)⟩

/-- What follows a member's value: a comma or a brace. -/
def Follows (d : Char) : Prop := d = ',' ∨ d = '\x7d'

/-- A number is read up to the comma or brace that follows it. -/
theorem number_repr (n : ℕ) (hd : Follows d) (cs : List Char) :
    number (n.repr.toList ++ d :: cs) = some (d :: cs) := by
  obtain ⟨c, ds, heq, hdigits, hzero⟩ := toDigits_eq_cons n
  have hsign : c ∉ ['-'] := by
    rintro h
    simp_all
  have hstop : d.isDigit = false ∧ d ≠ '.' ∧ ¬(d = 'e' ∨ d = 'E') := by
    rcases hd with rfl | rfl
    · decide
    · decide
  have hinteger : integer (c :: (ds ++ d :: cs)) = some (d :: cs) := by
    rw [integer]
    by_cases hc0 : c = '0'
    · simp_all
    · simp_all [digits]
  simp_all [fraction, exponent, number, signed]

variable (v : Scalar)

/-- A value's text begins with no space. -/
theorem Scalar.text_eq_cons : ∃ c cs, v.text = c :: cs ∧ isSpace c = false := by
  cases v with
  | string s => exact ⟨'"', _, rfl, rfl⟩
  | number n =>
    obtain ⟨c, ds, heq, hdigits, -⟩ := toDigits_eq_cons n
    refine ⟨c, ds, Nat.toList_repr.trans heq, ?_⟩
    have hc : c.isDigit = true := hdigits c List.mem_cons_self
    by_contra hspace
    simp only [isSpace, Bool.not_eq_false, Bool.or_eq_true, decide_eq_true_eq] at hspace
    rcases hspace with ((rfl | rfl) | rfl) | rfl
    all_goals exact absurd hc (by decide)
  | bool b =>
    cases b with
    | true => exact ⟨'t', _, rfl, rfl⟩
    | false => exact ⟨'f', _, rfl, rfl⟩

/-- Nothing is skipped before a character that is no space. -/
theorem skipSpace_cons (h : isSpace c = false) (cs : List Char) : skipSpace (c :: cs) = c :: cs :=
  List.dropWhile_cons_of_neg (by rw [h]; exact Bool.false_ne_true)

/-- Nothing is skipped before a value. -/
theorem skipSpace_text (cs : List Char) : skipSpace (v.text ++ cs) = v.text ++ cs := by
  obtain ⟨c, ds, heq, hc⟩ := v.text_eq_cons
  rw [heq, List.cons_append, skipSpace_cons hc]

/-- A scalar is recognised whole. -/
theorem value_text (n : ℕ) (v : Scalar) (hd : Follows d) (cs : List Char) :
    value (n + 1) (v.text ++ d :: cs) = some (d :: cs) := by
  cases v with
  | string s =>
    change value (n + 1) ('"' :: ((runes s).flatMap escapeRune ++ ['"']) ++ d :: cs) = _
    simp_all [value, string_quote]
  | number k =>
    have hnumber := number_repr k hd cs
    obtain ⟨c, ds, heq, hdigits, -⟩ := toDigits_eq_cons k
    have hne : ∀ e : Char, e.isDigit = false → c ≠ e := by
      grind
    change value (n + 1) (k.repr.toList ++ d :: cs) = _
    rw [Nat.toList_repr, heq, List.cons_append] at hnumber ⊢
    rw [value, if_neg (hne '"' rfl), if_neg (hne '\x7b' rfl), if_neg (hne '[' rfl),
      if_neg (hne 't' rfl), if_neg (hne 'f' rfl), if_neg (hne 'n' rfl)]
    exact hnumber
  | bool b =>
    cases b with
    | true => rfl
    | false => rfl

/-- A member is read, and the rest after its comma. -/
theorem members_member (n : ℕ) (m : List UInt8 × Scalar) (hd : Follows d) (cs : List Char) :
    members (n + 2) (memberText m ++ d :: cs) =
      if d = ',' then members (n + 1) cs else some cs := by
  have hkey : symbol '"' (memberText m ++ d :: cs) =
      some ((runes m.1).flatMap escapeRune ++ '"' :: (':' :: (m.2.text ++ d :: cs))) := by
    simp only [memberText, quote, cons_append, append_assoc]
    rfl
  have hcolon : symbol ':' (':' :: (m.2.text ++ d :: cs)) = some (m.2.text ++ d :: cs) := rfl
  simp only [members, hkey, string_quote, hcolon, skipSpace_text, value_text _ _ hd,
    bind_eq_bind, bind_some]
  rcases hd with rfl | rfl
  · rfl
  · rfl

section

variable (ms : List (List UInt8 × Scalar))

include ms

/-- The members are read up to the closing brace. -/
theorem members_text (hn : ms.length < n) (hms : ms ≠ [])
    (cs : List Char) : members n (membersText ms ++ '\x7d' :: cs) = some cs := by
  induction ms generalizing n with
  | nil => exact absurd rfl hms
  | cons m ms ih =>
    obtain ⟨n, rfl⟩ : ∃ k, n = k + 2 := ⟨n - 2, by rw [length_cons] at hn; omega⟩
    cases ms with
    | nil => exact members_member n m (.inr rfl) cs
    | cons m' ms =>
      rw [membersText, append_assoc, cons_append, members_member n m (.inl rfl), if_pos rfl]
      · exact ih (by simp only [length_cons] at hn ⊢; omega) (cons_ne_nil _ _)
      · exact cons_ne_nil _ _

/-- Every member takes a character, so the text's length is fuel enough. -/
theorem length_le_membersText : ms.length ≤ (membersText ms).length := by
  induction ms with
  | nil => exact Nat.le_refl _
  | cons m ms ih =>
    have hmember : 0 < (memberText m).length := by
      simp_all [memberText, quote]
    cases ms with
    | nil => exact hmember
    | cons m' ms => grind [membersText]

/-- **Every text that the encoder writes is valid.** -/
theorem valid_marshal : valid (marshal ms) = true := by
  cases ms with
  | nil => rfl
  | cons m ms =>
    have hlength := length_le_membersText (m :: ms)
    have hquote : ∃ cs, membersText (m :: ms) = '"' :: cs := by
      cases ms with
      | nil => exact ⟨_, rfl⟩
      | cons m' ms => exact ⟨_, rfl⟩
    obtain ⟨cs, hcs⟩ := hquote
    have hmembers : members (marshal (m :: ms)).length (membersText (m :: ms) ++ ['\x7d']) =
        some [] := by
      refine members_text (m :: ms) ?_ (cons_ne_nil _ _) []
      grind [marshal]
    have hsymbol : symbol '\x7d' (membersText (m :: ms) ++ ['\x7d']) = none := by
      rw [hcs]
      rfl
    have hvalue : value ((marshal (m :: ms)).length + 1) (marshal (m :: ms)) = some [] := by
      simp_all [marshal, value]
    rw [valid, show skipSpace (marshal (m :: ms)) = marshal (m :: ms) from rfl, hvalue]
    rfl

end

/-! ## The encoder escapes no NUL but a NUL -/

/-- Text without a backslash escapes nothing. -/
theorem nulFrom_append_of_plain {p : List Char} (hp : '\\' ∉ p) (cs : List Char) :
    nulFrom .text (p ++ cs) = nulFrom .text cs := by
  induction p with
  | nil => rfl
  | cons c p ih => simp_all [nulFrom, Ne.symm]

/-- The digit `0` stands for zero alone. -/
theorem hexDigit_eq_zero : ∀ n < 16, (hexDigit n = '0' ↔ n = 0) := by decide

/-- No hex digit is a backslash. -/
theorem hexDigit_ne_backslash : ∀ n < 16, hexDigit n ≠ '\\' := by decide

/-- The escape of a byte is that of NUL for zero alone. -/
theorem nulFrom_byteEscape (hn : n < 256) (cs : List Char) :
    nulFrom .text (byteEscape n ++ cs) = (decide (n = 0) || nulFrom .text cs) := by
  have hhigh := hexDigit_eq_zero (n / 16) (by omega)
  have hlow := hexDigit_eq_zero (n % 16) (by omega)
  have hslash := hexDigit_ne_backslash (n % 16) (by omega)
  change (if hexDigit (n / 16) = '0' then if hexDigit (n % 16) = '0' then true else nulFrom .text cs
    else nulFrom (if hexDigit (n % 16) = '\\' then .escape else .text) cs) = _
  by_cases hn0 : n = 0
  · rw [if_pos (hhigh.mpr (by omega)), if_pos (hlow.mpr (by omega)), decide_eq_true hn0,
      Bool.true_or]
  · grind

/-- A rune's text escapes NUL when the rune is NUL. -/
theorem nulFrom_escapeRune (r : Option Char) (cs : List Char) :
    nulFrom .text (escapeRune r ++ cs) = (decide (r = some '\x00') || nulFrom .text cs) := by
  cases r with
  | none => rfl
  | some c =>
    unfold escapeRune
    dsimp only
    split_ifs with h1 h2 h3 h4 h5 h6 h7 h8 h9
    · rcases h1 with rfl | rfl
      · rfl
      · rfl
    · subst h2; rfl
    · subst h3; rfl
    · subst h4; rfl
    · subst h5; rfl
    · subst h6; rfl
    · have hnul : c.toNat = 0 ↔ some c = some '\x00' := by
        rw [some_inj]
        exact ⟨fun h => Char.ext (UInt32.toNat_inj.mp h), fun h => h ▸ rfl⟩
      grind [toNat_lt_of_escaped, nulFrom_byteEscape]
    · subst h8; rfl
    · subst h9; rfl
    · have hne : some c ≠ some '\x00' := by
        rintro hc
        exact h7 (.inl (some_inj.mp hc ▸ by decide))
      simp_all [nulFrom]

/-- Runes' texts escape NUL when it is among the runes. -/
theorem nulFrom_flatMap : nulFrom .text (rs.flatMap escapeRune ++ cs) =
      (decide (some '\x00' ∈ rs) || nulFrom .text cs) := by
  induction rs with
  | nil => rfl
  | cons r rs ih => simp_all [nulFrom_escapeRune, Bool.or_assoc, eq_comm]

/-- A quoted string escapes NUL when it holds a zero byte. -/
theorem nulFrom_quote (s : List UInt8) (cs : List Char) :
    nulFrom .text (quote s ++ cs) = (decide (0 ∈ s) || nulFrom .text cs) := by
  rw [quote, append_assoc, cons_append]
  grind [nulFrom, nulFrom_flatMap, mem_runes_nul]

/-- The strings that a member holds. -/
def Scalar.strings : Scalar → List (List UInt8)
  | .string s => [s]
  | _ => []

/-- A value escapes NUL when its string holds a zero byte. -/
theorem nulFrom_scalar (cs : List Char) :
    nulFrom .text (v.text ++ cs) = (decide (∃ s ∈ v.strings, 0 ∈ s) || nulFrom .text cs) := by
  cases v with
  | string s => simp_all [Scalar.text, nulFrom_quote, Scalar.strings]
  | number n =>
    have hplain : '\\' ∉ n.repr.toList := by
      rw [Nat.toList_repr]
      intro h
      exact absurd (Nat.isDigit_of_mem_toDigits (by decide) (by decide) h) (by decide)
    rw [Scalar.text, nulFrom_append_of_plain hplain]
    simp [Scalar.strings]
  | bool b =>
    cases b with
    | true => rfl
    | false => rfl

/-- The strings of an object: its keys and its members' strings. -/
def strings (ms : List (List UInt8 × Scalar)) : List (List UInt8) :=
  ms.flatMap fun m => m.1 :: m.2.strings

/-- A member escapes NUL when its name or its string holds a zero byte. -/
theorem nulFrom_member (m : List UInt8 × Scalar) (cs : List Char) :
    nulFrom .text (memberText m ++ cs) =
      (decide (∃ s ∈ m.1 :: m.2.strings, 0 ∈ s) || nulFrom .text cs) := by
  simp_all [memberText, nulFrom_quote, nulFrom, nulFrom_scalar, Bool.or_assoc]

variable (ms : List (List UInt8 × Scalar))

/-- Members escape NUL when one of their strings holds a zero byte. -/
theorem nulFrom_members : nulFrom .text (membersText ms ++ cs) =
      (decide (∃ s ∈ strings ms, 0 ∈ s) || nulFrom .text cs) := by
  induction ms with
  | nil => rfl
  | cons m ms ih =>
    have hstrings : (∃ s ∈ strings (m :: ms), 0 ∈ s) ↔
        (∃ s ∈ m.1 :: m.2.strings, 0 ∈ s) ∨ ∃ s ∈ strings ms, 0 ∈ s := by
      simp only [strings, flatMap_cons, mem_append, or_and_right, exists_or]
    rw [decide_eq_decide.mpr hstrings, Bool.decide_or, Bool.or_assoc, ← ih, ← nulFrom_member]
    cases ms with
    | nil => rfl
    | cons m' ms =>
      rw [membersText, append_assoc, cons_append, nulFrom_member, nulFrom_member]
      · rfl
      · exact cons_ne_nil _ _

/-- **The encoder escapes a NUL exactly for a zero byte of one of its strings.** -/
theorem escapesNul_marshal : escapesNul (marshal ms) = true ↔ ∃ s ∈ strings ms, 0 ∈ s := by
  rw [escapesNul, marshal, cons_append]
  simp_all [nulFrom, nulFrom_members]

end Json

end Encoding
