import PolyIdeal.Scalar.Basic
import PolyIdeal.StableSort
import PolyIdeal.TermOrder.Comparison

/-!
# Sparse polynomials

A polynomial is its list of terms, leading term first, together with what the list is relative
to: the arity of its monomials, the term order that ranks them, and the threshold `ε` under
which a coefficient counts as zero.

The constructors establish three properties that the operations then keep: monomials have the
declared arity, they descend strictly in the order (so none occurs twice), and coefficients are
significant at `ε`. The list is nevertheless bare data. A quotient of a division keeps
insignificant coefficients on purpose, so the third property is not one of every polynomial, and
the first two are stated and proved of the operations.
-/

namespace PolyIdeal

/-- A coefficient at a monomial. -/
structure Term (K : Type) where
  monomial : Monomial
  coeff : K
deriving DecidableEq

/-- A sparse polynomial, leading term first. -/
structure Polynomial (K : Type) where
  arity : Nat
  order : TermOrder
  epsilon : K
  terms : List (Term K)
deriving DecidableEq

namespace Polynomial

variable {K : Type} [Scalar K]

/-! ## Bringing terms into normal form -/

/-- The terms whose coefficients are significant. -/
def keepSignificant (ε : K) (ts : List (Term K)) : List (Term K) :=
  ts.filter fun t => Scalar.significant ε t.coeff

/-- Adds up runs of one monomial, from left to right; `t` is the run in hand. -/
def combineRun (t : Term K) : List (Term K) → List (Term K)
  | [] => [t]
  | u :: us =>
      if u.monomial = t.monomial then combineRun ⟨t.monomial, t.coeff + u.coeff⟩ us
      else t :: combineRun u us

/-- Adds up neighbouring terms of one monomial. -/
def combineLike : List (Term K) → List (Term K)
  | [] => []
  | t :: ts => combineRun t ts

/-- The terms, largest monomial first; terms of one monomial stay in input order. -/
def sortDescending (o : TermOrder) (ts : List (Term K)) : List (Term K) :=
  StableSort.sort (fun t u => o.cmp t.monomial u.monomial == .gt) ts

/-- Sorted, combined and rid of insignificant terms. Sorting two or more terms compares each of
them, so one that the order cannot rank is a fault; a single term is never compared. -/
def normalTerms (o : TermOrder) (ε : K) (ts : List (Term K)) : Except Fault (List (Term K)) :=
  if ts.length < 2 || ts.all (fun t => o.canRank t.monomial) then
    .ok (keepSignificant ε (combineLike (sortDescending o ts)))
  else
    .error .exponentOverflow

/-! ## Construction -/

/-- The polynomial of a list of terms, in any order and with repetitions. -/
def ofTerms (ts : List (Term K)) (arity : Nat) (order : TermOrder) :
    Except Fault (Polynomial K) := do
  ts.forM fun t => checkArity arity t.monomial.arity
  let terms ← normalTerms order Scalar.defaultEpsilon ts
  return { arity, order, epsilon := Scalar.defaultEpsilon, terms }

/-- The zero polynomial. -/
def zero (arity : Nat) (order : TermOrder) : Polynomial K :=
  { arity, order, epsilon := Scalar.defaultEpsilon, terms := [] }

/-- The polynomial `c * m`, or zero when `c` is insignificant. -/
def ofTerm (m : Monomial) (c : K) (order : TermOrder) : Polynomial K :=
  { zero m.arity order with terms := keepSignificant Scalar.defaultEpsilon [⟨m, c⟩] }

/-- A constant polynomial. -/
def const (c : K) (arity : Nat) (order : TermOrder) : Polynomial K :=
  ofTerm (.one arity) c order

/-- The variable with index `i` as a polynomial. -/
def ofVariable (i arity : Nat) (order : TermOrder) : Except Fault (Polynomial K) := do
  return ofTerm (← Monomial.ofVariable i arity) 1 order

/-- The same polynomial under another threshold, given up to sign. -/
def withEpsilon (p : Polynomial K) (ε : K) : Polynomial K :=
  { p with epsilon := Scalar.abs ε, terms := keepSignificant (Scalar.abs ε) p.terms }

/-- The same polynomial ranked by another order. -/
def reorder (p : Polynomial K) (order : TermOrder) : Except Fault (Polynomial K) := do
  return { p with order, terms := ← normalTerms order p.epsilon p.terms }

omit [Scalar K]

/-! ## Parts -/

/-- The zero polynomial with the arity, order and threshold of `p`. -/
def cleared (p : Polynomial K) : Polynomial K := { p with terms := [] }

/-- Whether there is no term. -/
def isZero (p : Polynomial K) : Bool := p.terms.isEmpty

/-- The monomials, leading one first. -/
def support (p : Polynomial K) : List Monomial := p.terms.map Term.monomial

/-- The first term. -/
def leadingTerm (p : Polynomial K) : Except Fault (Term K) :=
  match p.terms with
  | [] => .error .noLeadingTerm
  | t :: _ => .ok t

/-- The monomial of the first term. -/
def leadingMonomial (p : Polynomial K) : Except Fault Monomial := do
  return (← p.leadingTerm).monomial

/-- The coefficient of the first term. -/
def leadingCoeff (p : Polynomial K) : Except Fault K := do
  return (← p.leadingTerm).coeff

/-- The largest degree of a term, however large; zero for the zero polynomial. -/
def degree (p : Polynomial K) : Nat := (p.support.map Monomial.degree).foldr max 0

/-- The largest degree of a term, provided that every degree fits a word. -/
def totalDegree (p : Polynomial K) : Except Fault Nat :=
  if p.support.all Monomial.isMeasurable then .ok p.degree else .error .exponentOverflow

/-- Fails if the degree of `p` is past a limit; without one the degree is not computed. -/
def checkDegree (p : Polynomial K) : (limit : Option Nat) → Except Fault Unit
  | none => .ok ()
  | some limit => do
      let actual ← p.totalDegree
      if limit < actual then .error (.degreeExceeded limit actual) else .ok ()

/-- Whether the leading monomial of `p` divides `m`; zero divides nothing. -/
def leadDivides (p : Polynomial K) (m : Monomial) : Bool :=
  match p.terms with
  | [] => false
  | t :: _ => t.monomial.divides m

/-- Whether every term is divisible by `m`. -/
def isDivisibleBy (p : Polynomial K) (m : Monomial) : Bool :=
  p.support.all fun t => m.divides t

/-- Fails unless both polynomials have one arity and one order; the arity is looked at first. -/
def checkCompatible (p q : Polynomial K) : Except Fault Unit := do
  checkArity p.arity q.arity
  if p.order = q.order then .ok () else .error (.orderMismatch p.order q.order)

end Polynomial

end PolyIdeal
