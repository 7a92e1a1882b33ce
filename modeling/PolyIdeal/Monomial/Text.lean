import PolyIdeal.Monomial.Basic

/-!
# Text of monomials

A monomial is written as its factors joined by `*`: a name for each variable that occurs, with
`^e` behind it when the exponent is not one. Variables past the supplied names are called `x6`,
`x7` and so on by their index. The constant monomial is `1`.
-/

namespace PolyIdeal.Monomial

/-- The names variables get when none are supplied. -/
def defaultNames : List String := ["x", "y", "z", "w", "u", "v"]

/-- The name of the variable with index `i`: from the list, or `x` and the index. -/
def variableName (names : List String) (i : Nat) : String :=
  names.getD i s!"x{i}"

/-- One factor of the text. -/
def factorText (name : String) (e : UInt32) : String :=
  if e = 1 then name else s!"{name}^{e.toNat}"

/-- The factors of the variables from index `i` on, skipping those that do not occur. -/
def factors (names : List String) : Nat → List UInt32 → List String
  | _, [] => []
  | i, e :: es =>
      let rest := factors names (i + 1) es
      if e = 0 then rest else factorText (variableName names i) e :: rest

/-- The monomial written with the given variable names. -/
def textWith (names : List String) (m : Monomial) : String :=
  match factors names 0 m.exponents with
  | [] => "1"
  | fs => "*".intercalate fs

/-- The monomial written with the default names. -/
def text (m : Monomial) : String := m.textWith defaultNames

/-- The bare exponents, as in `Mono[1, 0]`. -/
def exponentText (m : Monomial) : String :=
  "Mono[" ++ ", ".intercalate (m.exponents.map fun e => toString e.toNat) ++ "]"

end PolyIdeal.Monomial
