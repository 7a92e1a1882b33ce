import PolyIdeal.Basis.Basic
import PolyIdeal.Polynomial.Text

/-!
# Text of bases

The generators in order, separated by commas.
-/

namespace PolyIdeal.Basis

/-- The generators with the default variable names. -/
def text {K : Type} [Scalar K] [ScalarText K] (b : Basis K) : String :=
  ", ".intercalate (b.generators.map Polynomial.text)

end PolyIdeal.Basis
