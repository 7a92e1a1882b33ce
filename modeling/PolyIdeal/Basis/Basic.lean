import PolyIdeal.Division
import PolyIdeal.Polynomial.Agreement

/-!
# Bases

A basis is a finite list of generators of an ideal. All share the arity and the order of the
basis. Zero is never among them, and neither is a polynomial that a generator already there
approximately equals: `insert` leaves such a polynomial out.
-/

namespace PolyIdeal

/-- Generators of one arity and one order, in the order in which they were found. -/
structure Basis (K : Type) where
  arity : Nat
  order : TermOrder
  generators : List (Polynomial K)

namespace Basis

variable {K : Type}

/-- The basis without generators. -/
def empty (arity : Nat) (order : TermOrder) : Basis K := ⟨arity, order, []⟩

/-- The number of generators. -/
def size (b : Basis K) : Nat := b.generators.length

/-- Whether there are no generators. -/
def isEmpty (b : Basis K) : Bool := b.generators.isEmpty

/-- Whether every generator is zero, so that the basis generates the zero ideal. -/
def isZero (b : Basis K) : Bool := b.generators.all Polynomial.isZero

/-- The leading monomials, in the order of the generators. -/
def leadingMonomials (b : Basis K) : Except Fault (List Monomial) :=
  b.generators.mapM Polynomial.leadingMonomial

/-- Fails unless `p` has the arity and the order of the basis; the arity is looked at first. -/
def checkFits (b : Basis K) (p : Polynomial K) : Except Fault Unit := do
  checkArity b.arity p.arity
  if b.order = p.order then .ok () else .error (.orderMismatch b.order p.order)

variable [Scalar K]

/-- Whether a generator approximately equals `p`, by the generator's threshold. -/
def contains (b : Basis K) (p : Polynomial K) : Bool := b.generators.any (·.approxEq p)

/-- Appends `p` unless it is zero or already there, and tells whether it did. -/
def insert (b : Basis K) (p : Polynomial K) : Except Fault (Basis K × Bool) := do
  b.checkFits p
  if p.isZero || b.contains p then
    return (b, false)
  else
    return ({ b with generators := b.generators ++ [p] }, true)

/-- The basis of a list of polynomials, all of the arity and order of the first. -/
def ofList (ps : List (Polynomial K)) : Except Fault (Basis K) :=
  match ps with
  | [] => .ok (empty 0 default)
  | p :: _ => ps.foldlM (fun b q => do return (← b.insert q).1) (empty p.arity p.order)

/-- The basis of a list of polynomials brought into one order. Each is reordered when its turn
comes, so a polynomial that does not fit is reported before a later one that cannot be ranked. -/
def ofListIn (order : TermOrder) (ps : List (Polynomial K)) : Except Fault (Basis K) :=
  match ps with
  | [] => .ok (empty 0 default)
  | p :: _ =>
      ps.foldlM (fun b q => do return (← b.insert (← q.reorder order)).1) (empty p.arity order)

/-- What is left of `p` after division by the generators, in their order. -/
def remainder (b : Basis K) (p : Polynomial K) : Except Fault (Polynomial K) :=
  p.remainder b.generators

/-- Whether both have equally many generators and `b` contains each one of `c`. -/
def approxEq (b c : Basis K) : Bool :=
  b.size == c.size && c.generators.all b.contains

end Basis

end PolyIdeal
