import PolyIdeal.Basis.Fingerprint
import PolyIdeal.Polynomial.Arithmetic

/-!
# Minimal and reduced bases

A basis is minimal when its generators are monic and no leading monomial divides another one. It
is reduced when moreover no term of a generator is divisible by the leading monomial of another.

`minimize` makes generators monic and leaves out those whose leading monomial another one
divides; of generators with one leading monomial the first stays. `reduce` minimizes and then
replaces each generator, from the first to the last, by its monic remainder modulo all the
others, the earlier ones already replaced. It ends with the largest leading monomial in front.
-/

namespace PolyIdeal.Basis

variable {K : Type}

/-! ## Making a basis minimal -/

/-- Whether the generator at position `i` with leading monomial `m` has to go: another leading
monomial divides `m`, and if it is `m` itself, it stands earlier. -/
def isRedundant (leads : List Monomial) (i : Nat) (m : Monomial) : Bool :=
  leads.zipIdx.any fun (n, j) => j != i && n.divides m && (n != m || j < i)

/-- The generators that no other one makes redundant, in their order. -/
def irredundant (gs : List (Polynomial K)) (leads : List Monomial) : List (Polynomial K) :=
  (gs.zip leads).zipIdx.filterMap fun ((g, m), i) =>
    if isRedundant leads i m then none else some g

variable [Scalar K]

/-- Monic generators, none with a leading monomial that another one divides. -/
def minimize (b : Basis K) : Except Fault (Basis K) :=
  if b.isEmpty then .error .emptyBasis
  else do
    let gs ← b.generators.mapM Polynomial.monic
    let leads ← gs.mapM Polynomial.leadingMonomial
    return { b with generators := irredundant gs leads }

/-! ## Making a basis reduced -/

/-- Replaces the generators in `todo`, in order, by their monic remainders modulo all others. -/
def reduceEach (done : List (Polynomial K)) :
    (todo : List (Polynomial K)) → Except Fault (List (Polynomial K))
  | [] => .ok done
  | g :: todo => do
      let r ← g.remainder (done ++ todo)
      reduceEach (done ++ [← r.monic]) todo

omit [Scalar K] in
/-- The generators with the largest leading monomial first. -/
def sortByLead (order : TermOrder) (gs : List (Polynomial K)) :
    Except Fault (List (Polynomial K)) :=
  if canRankLeads order gs then
    .ok (StableSort.sort
      (fun g h => order.cmpSupports (g.support.take 1) (h.support.take 1) == .gt) gs)
  else
    .error .exponentOverflow

/-- The reduced form of a Gröbner basis. -/
def reduce (b : Basis K) : Except Fault (Basis K) := do
  let b ← b.minimize
  let gs ← reduceEach [] b.generators
  return { b with generators := ← sortByLead b.order gs }

/-! ## Deciding -/

/-- Whether the leading coefficient of `g` is approximately one. -/
def isMonic (g : Polynomial K) : Except Fault Bool := do
  return !Scalar.significant g.epsilon ((← g.leadingCoeff) - 1)

omit [Scalar K] in
/-- Whether no entry divides another one. -/
def isAntichain (leads : List Monomial) : Bool :=
  leads.zipIdx.all fun (m, i) => leads.zipIdx.all fun (n, j) => i == j || !m.divides n

/-- Whether generators are monic and no leading monomial divides another one. -/
def isMinimal (b : Basis K) : Except Fault Bool := do
  let leads ← b.leadingMonomials
  if ← b.generators.allM isMonic then return isAntichain leads else return false

omit [Scalar K] in
/-- Whether no term of `g`, at position `i`, is divisible by the leading monomial of another
generator. -/
def isReducedAt (leads : List Monomial) (i : Nat) (g : Polynomial K) : Bool :=
  g.support.all fun m => leads.zipIdx.all fun (n, j) => i == j || !n.divides m

/-- Whether the basis is minimal and no term of a generator is divisible by the leading monomial
of another. -/
def isReduced (b : Basis K) : Except Fault Bool := do
  if ← b.isMinimal then
    let leads ← b.leadingMonomials
    return b.generators.zipIdx.all fun (g, i) => isReducedAt leads i g
  else
    return false

end PolyIdeal.Basis
