import PolyIdeal.Fault

/-!
# Monomials

A monomial `x₀^e₀ ⋯ xₙ₋₁^eₙ₋₁` is its list of exponents. The length of the list is the arity;
monomials of different arity are never equal and never padded to fit. Exponents are 32-bit
words, so there are finitely many monomials of each arity (`Monomial.count`), and sums that leave
the range of a word are faults instead of wrapping around.

Degrees come twice. `degree` is the sum as a natural number and is what orders and proofs talk
about; `totalDegree` is the same number, or a fault when it does not fit a word.
-/

namespace PolyIdeal

/-- A power product, given by its exponents. -/
structure Monomial where
  exponents : List UInt32
deriving DecidableEq, Inhabited

namespace Monomial

/-- The number of variables. -/
def arity (m : Monomial) : Nat := m.exponents.length

/-- The number of monomials in `n` variables. -/
def count (n : Nat) : Nat := Nat.pow UInt32.size n

/-- The constant monomial in `n` variables. -/
def one (n : Nat) : Monomial := ⟨List.replicate n 0⟩

/-- The monomial that is the variable with index `i` of `n`. -/
def ofVariable (i n : Nat) : Except Fault Monomial :=
  if i < n then .ok ⟨(List.replicate n 0).set i 1⟩ else .error (.variableOutOfRange i n)

/-- The exponent of a variable, zero past the end. -/
def exponent (m : Monomial) (i : Nat) : UInt32 := m.exponents.getD i 0

/-- Whether every exponent is zero. -/
def isOne (m : Monomial) : Bool := m.exponents.all (· == 0)

/-! ## Degree -/

/-- The sum of the exponents, however large. -/
def degree (m : Monomial) : Nat := m.exponents.foldr (fun e d => e.toNat + d) 0

/-- Whether the degree fits a 32-bit word. -/
def isMeasurable (m : Monomial) : Bool := decide (m.degree < UInt32.size)

/-- The sum of the exponents, provided it fits a 32-bit word. -/
def totalDegree (m : Monomial) : Except Fault Nat :=
  if m.isMeasurable then .ok m.degree else .error .exponentOverflow

/-! ## Products and quotients -/

/-- Combines two monomials variable by variable, over the variables both have. -/
def zipWith (f : UInt32 → UInt32 → UInt32) (a b : Monomial) : Monomial :=
  ⟨List.zipWith f a.exponents b.exponents⟩

/-- Whether a relation holds of the two exponents of every shared variable. -/
def allZip (r : UInt32 → UInt32 → Bool) (a b : Monomial) : Bool :=
  (a.exponents.zip b.exponents).all fun (x, y) => r x y

/-- Whether no exponent of the product leaves the 32-bit range. -/
def productFits (a b : Monomial) : Bool :=
  a.allZip (fun x y => decide (x.toNat + y.toNat < UInt32.size)) b

/-- The product: exponents add. -/
def mul (a b : Monomial) : Except Fault Monomial := do
  checkArity a.arity b.arity
  if a.productFits b then .ok (zipWith (· + ·) a b) else .error .exponentOverflow

/-- Whether `a` divides `b`; monomials of different arity never do. -/
def divides (a b : Monomial) : Bool :=
  a.arity == b.arity && a.allZip (fun x y => decide (x ≤ y)) b

/-- The exact quotient `a / b`: exponents subtract. -/
def div (a b : Monomial) : Except Fault Monomial := do
  checkArity a.arity b.arity
  if b.divides a then .ok (zipWith (· - ·) a b) else .error .notDivisible

/-- The least common multiple: the larger of each two exponents. -/
def lcm (a b : Monomial) : Except Fault Monomial := do
  checkArity a.arity b.arity
  return zipWith max a b

/-- The greatest common divisor: the smaller of each two exponents. -/
def gcd (a b : Monomial) : Except Fault Monomial := do
  checkArity a.arity b.arity
  return zipWith min a b

/-- Whether no variable occurs in both; monomials of different arity never qualify. -/
def isCoprime (a b : Monomial) : Bool :=
  a.arity == b.arity && a.allZip (fun x y => x == 0 || y == 0) b

end Monomial

end PolyIdeal
