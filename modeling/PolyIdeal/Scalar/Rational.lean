import PolyIdeal.Scalar.Basic

/-!
# Rational coefficients

Fractions compute exactly, so only the threshold separates a computation over them from the
algebra it stands for. The operations are named one by one, which keeps the instance the same
whatever other structures on fractions are in scope.
-/

namespace PolyIdeal

instance : Scalar Rat where
  zero := Rat.ofInt 0
  one := Rat.ofInt 1
  neg := Rat.neg
  add := Rat.add
  sub := Rat.sub
  mul := Rat.mul
  div := Rat.div
  defaultEpsilon := mkRat 1 10000
  abs := Rat.abs
  significant ε c := !Rat.blt c.abs ε
  negligible ε c := Rat.blt c.abs ε

end PolyIdeal
