import Flywheel.Types

/-!
# Error messages and fingerprints

What a failed attempt's run records of its error (`fingerprint.go`, `runErrorFields`): the message,
cut at a number of bytes between two runes, and the fingerprint under which the error groups count
it. The masks of `NormalizeErrorMessage` and the hash are parameters, since nothing here depends on
what they compute.
-/

namespace Flywheel

/-- `NormalizeErrorMessage`, and the hash of `fingerprintText`: the first eight bytes of SHA-256, in
hex. -/
structure ErrorHash where
  normalize : String → String := id
  sum : String → String := id

/-- The class as its column spells it. -/
def ErrorClass.name : ErrorClass → String
  | transient => "transient"
  | permanent => "permanent"
  | validation => "validation"
  | timeout => "timeout"
  | other name => (String.fromUTF8? name.toByteArray).getD ""

/-- The longest prefix of whole runes within `n` bytes. -/
def truncateRunes : ℕ → List Char → List Char
  | _, [] => []
  | n, c :: cs => if c.utf8Size ≤ n then c :: truncateRunes (n - c.utf8Size) cs else []

/-- `truncate` -/
def truncate (s : String) (n : ℕ) : String := String.ofList (truncateRunes n s.toList)

/-- `maxErrorMessage` -/
def maxErrorMessage : ℕ := 4096

/-- `failedOutcome` -/
def failedOutcome : RunOutcome → Bool
  | .error | .timeout => true
  | _ => false

/-- `fingerprintText`, whose fields the unit separator parts. -/
def fingerprintText (hash : ErrorHash) (kind errorClass text : String) : String :=
  hash.sum ("v1" ++ "\x1f" ++ kind ++ "\x1f" ++ errorClass ++ "\x1f" ++ text)

/-- `ErrorFingerprint` -/
def errorFingerprint (hash : ErrorHash) (kind errorClass message : String) : String :=
  fingerprintText hash kind errorClass (hash.normalize (truncate message maxErrorMessage))

/-- `fingerprintOf`: over the worker's own value when it supplies one, and else over the message as
the run stores it. -/
def fingerprintOf (hash : ErrorHash) (kind : String) (errorClass : ErrorClass)
    (storedMessage : String) (cause : WorkError) : String :=
  if cause.fingerprint ≠ "" then
    fingerprintText hash kind errorClass.name ("custom" ++ "\x1f" ++ cause.fingerprint)
  else fingerprintText hash kind errorClass.name (hash.normalize storedMessage)

end Flywheel
