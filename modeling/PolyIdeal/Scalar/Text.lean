import PolyIdeal.Decimal.BinaryFormat
import PolyIdeal.Scalar.Basic

/-!
# Text of coefficients

The text of a polynomial separates the sign of a coefficient from its magnitude and leaves out a
magnitude of one, so it asks three things of a coefficient. Floating-point numbers are written in
positional notation with the fewest digits that read back at their own width.
-/

namespace PolyIdeal

/-- What the text of a polynomial needs to know about coefficients. -/
class ScalarText (K : Type) where
  /-- Whether the coefficient is below zero. -/
  isNegative : K → Bool
  /-- Whether the coefficient equals one. -/
  isUnit : K → Bool
  /-- The text of a magnitude. -/
  text : K → String

instance : ScalarText Float where
  isNegative c := decide (c < 0)
  isUnit c := c == 1
  text c := Decimal.BinaryFormat.double.magnitudeText c.toBits.toNat

instance : ScalarText Float32 where
  isNegative c := decide (c < 0)
  isUnit c := c == 1
  text c := Decimal.BinaryFormat.single.magnitudeText c.toBits.toNat

end PolyIdeal
