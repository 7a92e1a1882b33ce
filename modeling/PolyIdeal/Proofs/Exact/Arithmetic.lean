import Mathlib
import PolyIdeal.Scalar.Basic

/-!
# Exact arithmetic

An exact scalar is an element of a field whose two threshold tests discard exactly zero. For such
coefficients the algorithms are those of algebra, and everything that is proved of ideals is
proved for them. `Exact F` is an ordered field with these tests.
-/

namespace PolyIdeal

/-- Coefficients that form a field, and of which the tests discard zero and nothing else. -/
class ExactScalar (K : Type) extends Field K, Scalar K where
  significant_exact : ∀ ε c : K, significant ε c = true ↔ c ≠ 0
  negligible_exact : ∀ ε c : K, negligible ε c = true ↔ c = 0

namespace Scalar

variable {K : Type} [ExactScalar K] {ε c : K}

/-- Exact scalars are significant unless they are zero. -/
theorem significant_iff : significant ε c = true ↔ c ≠ 0 := ExactScalar.significant_exact ε c

/-- Exact scalars are negligible only if they are zero. -/
theorem negligible_iff : negligible ε c = true ↔ c = 0 := ExactScalar.negligible_exact ε c

end Scalar

/-- The elements of an ordered field, compared with zero exactly. -/
def Exact (F : Type) : Type := F

namespace Exact

variable {F : Type} [Field F] [LinearOrder F]

instance : Field (Exact F) := inferInstanceAs (Field F)

instance : LinearOrder (Exact F) := inferInstanceAs (LinearOrder F)

instance : ExactScalar (Exact F) where
  defaultEpsilon := 1
  abs c := max c (-c)
  significant _ c := decide (c ≠ 0)
  negligible _ c := decide (c = 0)
  significant_exact _ _ := decide_eq_true_iff
  negligible_exact _ _ := decide_eq_true_iff

end Exact

end PolyIdeal
