import PolyIdeal.Basis.Reduced
import PolyIdeal.Completion.Run

/-!
# Gröbner bases of lists of polynomials

The two entry points: polynomials are brought into the chosen order, gathered into a basis,
completed and reduced.
-/

namespace PolyIdeal

variable {K : Type} [Scalar K]

/-- The polynomials in the chosen order, completed but not reduced. -/
def completedBasis (ps : List (Polynomial K)) (settings : Settings) :
    Except Fault (Basis K) := do
  let b ← Basis.ofListIn settings.order ps
  return (← b.complete settings).basis

/-- A Gröbner basis of the ideal of `ps`, reduced if the settings say so. -/
def groebnerBasis (ps : List (Polynomial K)) (settings : Settings) : Except Fault (Basis K) := do
  let b ← completedBasis ps settings
  if settings.reduce && !b.isEmpty then b.reduce else return b

/-- The reduced Gröbner basis of the ideal of `ps`, whatever the settings say about reduction.
The zero ideal has no generators and is a fault. -/
def reducedGroebnerBasis (ps : List (Polynomial K)) (settings : Settings) :
    Except Fault (Basis K) := do
  let b ← completedBasis ps settings
  if b.isEmpty then .error .emptyBasis else b.reduce

end PolyIdeal
