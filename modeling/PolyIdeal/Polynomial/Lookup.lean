import PolyIdeal.Polynomial.Basic

/-!
# Looking up a monomial

Terms are found by binary search. The search is spelled out because it decides which monomials
are compared: a graded order fails on a degree that does not fit a word, and a search that never
meets such a monomial succeeds.

Each round halves the stretch `[base, base + size)` in which the monomial can be. The stretch
keeps the upper half when the probe is not smaller than the monomial, and gives up `size / 2`
positions either way.
-/

namespace PolyIdeal.Polynomial

variable {K : Type}

/-- Where a monomial is, or where it would have to be put. -/
inductive Slot where
  | found (index : Nat)
  | absent (index : Nat)
deriving DecidableEq

/-- How `m` compares with the term at an index. -/
def probe (o : TermOrder) (ts : List (Term K)) (m : Monomial) (i : Nat) :
    Except Fault Ordering :=
  match ts[i]? with
  | some t => o.compare m t.monomial
  | none => .error (.indexOutOfRange i ts.length)

/-- Narrows a stretch of `size` positions from `base` on to one position, in at most the given
number of rounds. -/
def narrow (o : TermOrder) (ts : List (Term K)) (m : Monomial) :
    (rounds base size : Nat) → Except Fault Nat
  | 0, base, _ => .ok base
  | rounds + 1, base, size =>
      if size ≤ 1 then .ok base
      else do
        let mid := base + size / 2
        let ord ← probe o ts m mid
        let base := if ord = .gt then base else mid
        narrow o ts m rounds base (size - size / 2)

/-- Finds `m` in a descending list of terms. -/
def locate (o : TermOrder) (ts : List (Term K)) (m : Monomial) : Except Fault Slot :=
  if ts.isEmpty then .ok (.absent 0)
  else do
    let i ← narrow o ts m ts.length 0 ts.length
    match ← probe o ts m i with
    | .eq => return .found i
    | .lt => return .absent (i + 1)
    | .gt => return .absent i

/-- The coefficient of `m`, if `m` occurs. -/
def coeff? (p : Polynomial K) (m : Monomial) : Except Fault (Option K) := do
  match ← locate p.order p.terms m with
  | .found i => return p.terms[i]?.map Term.coeff
  | .absent _ => return none

/-- Adds `c` to the term at an index, and removes the term if the sum is negligible. A sum that
is no number is not negligible and stays. -/
def adjustAt [Scalar K] (ε : K) (ts : List (Term K)) (i : Nat) (c : K) : List (Term K) :=
  match ts[i]? with
  | some t =>
      let sum := t.coeff + c
      if Scalar.negligible ε sum then ts.eraseIdx i else ts.set i ⟨t.monomial, sum⟩
  | none => ts

/-- `p + c * m`. -/
def addTerm [Scalar K] (p : Polynomial K) (m : Monomial) (c : K) :
    Except Fault (Polynomial K) := do
  checkArity p.arity m.arity
  match ← locate p.order p.terms m with
  | .found i => return { p with terms := adjustAt p.epsilon p.terms i c }
  | .absent i =>
      if Scalar.significant p.epsilon c then
        return { p with terms := p.terms.insertIdx i ⟨m, c⟩ }
      else
        return p

end PolyIdeal.Polynomial
