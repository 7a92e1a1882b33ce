import PolyIdeal.TermOrder.Basic

/-!
# Why a computation fails

Every operation that can fail returns `Except Fault`. A fault names the cause and carries the
numbers its text needs; the wording is in one place, `Fault.message`.

The causes fall into three groups. The first six reject operands that do not suit an operation,
or a result past a limit that the caller chose. The next three are misuse that a caller can
provoke: an exponent or a degree past 32 bits, a variable that does not exist, a pair of one
generator with itself. The last three guard steps that cannot go wrong on well-formed data; they
are causes of their own so that this can be stated and proved.
-/

namespace PolyIdeal

/-- The cause of a failed computation. -/
inductive Fault where
  /-- Two operands differ in their number of variables. -/
  | arityMismatch (expected found : Nat)
  /-- Two polynomials are ranked by different orders. -/
  | orderMismatch (expected found : TermOrder)
  /-- An exact quotient of monomials would need a negative exponent. -/
  | notDivisible
  /-- The zero polynomial was asked for its leading term. -/
  | noLeadingTerm
  /-- A basis without generators was to be minimized or reduced. -/
  | emptyBasis
  /-- Completion found a generator whose degree is past the limit. -/
  | degreeExceeded (limit actual : Nat)
  /-- An exponent or a total degree does not fit 32 bits. -/
  | exponentOverflow
  /-- A variable was named that is not among the given number of variables. -/
  | variableOutOfRange (index arity : Nat)
  /-- A critical pair was formed from one generator. -/
  | equalPair
  /-- A term was appended that is not smaller than the last one. -/
  | termsOutOfOrder
  /-- A position lies past the end of a list. -/
  | indexOutOfRange (index size : Nat)
  /-- A loop ran for more rounds than there are monomials to justify. -/
  | boundExhausted
deriving DecidableEq

namespace Fault

/-- The text that reports a fault. -/
def message : Fault → String
  | arityMismatch expected found =>
      s!"arity mismatch: expected {expected} variables, found {found}"
  | orderMismatch expected found =>
      s!"order mismatch: expected {expected.name}, found {found.name}"
  | notDivisible => "monomial is not divisible by the divisor"
  | noLeadingTerm => "zero polynomial has no leading term"
  | emptyBasis => "basis has no generators"
  | degreeExceeded limit actual => s!"generator degree {actual} exceeds limit {limit}"
  | exponentOverflow => "attempt to add with overflow"
  | variableOutOfRange index arity =>
      s!"variable index {index} out of range for {arity} variables"
  | equalPair => "assertion `left != right` failed: a pair needs two distinct generators"
  | termsOutOfOrder => "terms are not strictly descending"
  | indexOutOfRange index size => s!"index {index} out of range for {size} entries"
  | boundExhausted => "iteration bound exhausted"

end Fault

/-- Fails unless both arities agree. -/
def checkArity (expected found : Nat) : Except Fault Unit :=
  if expected = found then .ok () else .error (.arityMismatch expected found)

end PolyIdeal
