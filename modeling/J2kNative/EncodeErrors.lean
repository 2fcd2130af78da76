import Mathlib.Data.Nat.Notation

/-!
# Errors of the encoder

The errors that the modelled parts of the JPEG 2000 encoder report, with the data they carry.
-/
namespace J2kNative

inductive EncodeError where
  | invalidInput (what : String)
  | arithmeticOverflow (what : String)
  | allocationTooLarge (what : String) (requested cap : ℕ)
  | hostAllocationFailed (what : String) (bytes : ℕ)
  | internalInvariant (what : String)
  deriving DecidableEq, Repr

/-- The error does not report a broken invariant. -/
def EncodeError.Expected : EncodeError → Prop
  | .internalInvariant _ => False
  | _ => True

end J2kNative
