import PolyIdeal.Polynomial.Merging

/-!
# Division by a list of polynomials

The dividend is taken apart from its leading term down. If the leading monomial of some divisor
divides the leading monomial of what is left, the first such divisor, suitably shifted and
scaled, is subtracted and the factor recorded in its quotient; otherwise the term moves to the
remainder. The leading terms cancel by construction and are not computed: only the tail of the
divisor is merged into what is left.

Each round removes a leading monomial and brings in smaller ones only. There are
`Monomial.count n` monomials in `n` variables, which bounds the number of rounds. Because
successive leading monomials descend, so do the terms of the remainder and of every quotient;
`pushTrailing` checks it and would fail otherwise.
-/

namespace PolyIdeal

/-- Quotients, one per divisor, and a remainder. -/
structure Division (K : Type) where
  quotients : List (Polynomial K)
  remainder : Polynomial K

namespace Polynomial

variable {K : Type} [Scalar K]

omit [Scalar K] in
/-- Appends a term, which has to be smaller than the last one. -/
def pushTrailing (p : Polynomial K) (t : Term K) : Except Fault (Polynomial K) := do
  match p.terms.getLast? with
  | none => return { p with terms := [t] }
  | some last =>
      if (← p.order.compare last.monomial t.monomial) = .gt then
        return { p with terms := p.terms ++ [t] }
      else
        .error .termsOutOfOrder

omit [Scalar K] in
/-- The index of the first divisor whose leading monomial divides `m`. -/
def firstDivisor? (divisors : List (Polynomial K)) (m : Monomial) : Option Nat :=
  divisors.findIdx? fun d => d.leadDivides m

/-- The terms of `-c * m * d` without the leading one. -/
def cancellingTail (d : Polynomial K) (m : Monomial) (c : K) : Except Fault (List (Term K)) :=
  d.terms.tail.mapM fun t => do
    return ⟨← t.monomial.mul m, -(c * t.coeff)⟩

end Polynomial

/-- A division under way: the terms still to be divided, and what is known of the result. -/
structure PartialDivision (K : Type) where
  rest : List (Term K)
  result : Division K

namespace PartialDivision

variable {K : Type} [Scalar K]

omit [Scalar K] in
/-- Moves the leading term `t` to the remainder. -/
def retire (t : Term K) (rest : List (Term K)) (known : Division K) :
    Except Fault (PartialDivision K) := do
  return ⟨rest, { known with remainder := ← known.remainder.pushTrailing t }⟩

/-- Cancels the leading term `t` of `p` with divisor number `i`, and records the factor. -/
def cancel (p : Polynomial K) (divisors : List (Polynomial K)) (i : Nat) (t : Term K)
    (rest : List (Term K)) (known : Division K) : Except Fault (PartialDivision K) :=
  match divisors[i]?, known.quotients[i]? with
  | some d, some q => do
      let lead ← d.leadingTerm
      let m ← t.monomial.div lead.monomial
      let c := t.coeff / lead.coeff
      let tail ← d.cancellingTail m c
      let rest ← Polynomial.mergeTerms p.order p.epsilon rest tail
      let q ← q.pushTrailing ⟨m, c⟩
      return ⟨rest, { known with quotients := known.quotients.set i q }⟩
  | _, _ => .error (.indexOutOfRange i divisors.length)

/-- One round: cancels the leading term `t` if a divisor allows it, else retires it. -/
def advance (p : Polynomial K) (divisors : List (Polynomial K)) (t : Term K)
    (rest : List (Term K)) (known : Division K) : Except Fault (PartialDivision K) :=
  match Polynomial.firstDivisor? divisors t.monomial with
  | some i => cancel p divisors i t rest known
  | none => retire t rest known

/-- Rounds until nothing is left, at most the given number. -/
def run (p : Polynomial K) (divisors : List (Polynomial K)) :
    (rounds : Nat) → PartialDivision K → Except Fault (Division K)
  | _, ⟨[], known⟩ => .ok known
  | 0, ⟨_ :: _, _⟩ => .error .boundExhausted
  | rounds + 1, ⟨t :: rest, known⟩ => do
      run p divisors rounds (← advance p divisors t rest known)

end PartialDivision

namespace Polynomial

variable {K : Type} [Scalar K]

omit [Scalar K] in
/-- The division of zero: every quotient and the remainder are zero, with the arity, order and
threshold of `p`. -/
def trivialDivision (p : Polynomial K) (divisors : List (Polynomial K)) : Division K :=
  ⟨List.replicate divisors.length p.cleared, p.cleared⟩

/-- The division of `p` by a list of polynomials. Zero divisors divide nothing and get the
quotient zero. -/
def divide (p : Polynomial K) (divisors : List (Polynomial K)) :
    Except Fault (Division K) := do
  divisors.forM fun d => p.checkCompatible d
  if p.isZero then
    return p.trivialDivision divisors
  else
    PartialDivision.run p divisors (Monomial.count p.arity)
      ⟨p.terms, p.trivialDivision divisors⟩

/-- What division leaves over. -/
def remainder (p : Polynomial K) (divisors : List (Polynomial K)) :
    Except Fault (Polynomial K) := do
  return (← p.divide divisors).remainder

end Polynomial

end PolyIdeal
