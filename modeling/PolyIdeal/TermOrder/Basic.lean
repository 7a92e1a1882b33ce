/-!
# Term orders

A term order decides which term of a polynomial leads. Three are offered. `lex` compares
exponents variable by variable, the first variable weighing most. The two graded orders
compare total degrees first; ties go to `lex` in `grlex`, and in `grevlex` to the monomial
with the *smaller* exponent in the last variable where the two differ.

The comparison itself needs monomials and lives in `PolyIdeal.TermOrder.Comparison`; the
bare choice stands alone here because faults have to name it.
-/

namespace PolyIdeal

/-- The rule by which the terms of a polynomial are ranked. -/
inductive TermOrder where
  | lex
  | grlex
  | grevlex
deriving DecidableEq, Inhabited

namespace TermOrder

/-- The short name by which an order is reported. -/
def name : TermOrder → String
  | lex => "lex"
  | grlex => "grlex"
  | grevlex => "grevlex"

/-- Whether total degrees are compared before exponents. -/
def isGraded : TermOrder → Bool
  | lex => false
  | grlex | grevlex => true

end TermOrder

end PolyIdeal
