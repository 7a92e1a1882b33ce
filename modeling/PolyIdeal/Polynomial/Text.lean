import PolyIdeal.Monomial.Text
import PolyIdeal.Polynomial.Basic
import PolyIdeal.Scalar.Text

/-!
# Text of polynomials

Terms are written in order, each sign between blanks except a leading minus. A coefficient of
magnitude one is left out in front of a monomial, and the constant term is its magnitude alone.
The zero polynomial is `0`.
-/

namespace PolyIdeal.Polynomial

variable {K : Type} [Scalar K] [ScalarText K]

/-- A term without its sign. -/
def magnitudeText (names : List String) (t : Term K) : String :=
  let magnitude := Scalar.abs t.coeff
  if t.monomial.isOne then ScalarText.text magnitude
  else if ScalarText.isUnit magnitude then t.monomial.textWith names
  else ScalarText.text magnitude ++ "*" ++ t.monomial.textWith names

/-- A term that follows another one. -/
def followingText (names : List String) (t : Term K) : String :=
  (if ScalarText.isNegative t.coeff then " - " else " + ") ++ magnitudeText names t

/-- A term that stands first. -/
def firstText (names : List String) (t : Term K) : String :=
  (if ScalarText.isNegative t.coeff then "-" else "") ++ magnitudeText names t

/-- The polynomial written with the given variable names. -/
def textWith (names : List String) (p : Polynomial K) : String :=
  match p.terms with
  | [] => "0"
  | t :: ts => firstText names t ++ String.join (ts.map (followingText names))

/-- The polynomial written with the default names. -/
def text (p : Polynomial K) : String := p.textWith Monomial.defaultNames

end PolyIdeal.Polynomial
