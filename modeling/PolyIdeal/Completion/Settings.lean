import PolyIdeal.TermOrder.Basic

/-!
# Settings and counters of a completion

What a caller chooses before a completion starts, and what is counted while it runs.
-/

namespace PolyIdeal

/-- How the pairs of generators are gone through. -/
inductive Strategy where
  /-- All pairs again and again, until a sweep changes nothing. -/
  | sweep
  /-- Each pair once, from a queue, with criteria that skip needless ones. -/
  | worklist
deriving DecidableEq

/-- The choices for computing a Gröbner basis; the defaults are those of a plain request. -/
structure Settings where
  /-- The order the generators are brought into. -/
  order : TermOrder := .lex
  strategy : Strategy := .worklist
  /-- Whether the worklist skips pairs by the product criterion. -/
  useProduct : Bool := true
  /-- Whether the worklist skips pairs by the chain criterion. -/
  useChain : Bool := true
  /-- The largest degree that a new generator may have, if there is a limit. -/
  degreeLimit : Option Nat := none
  /-- Whether a completed basis is reduced. -/
  reduce : Bool := true
deriving DecidableEq, Inhabited

/-- What a completion has done so far. -/
structure Counters where
  /-- Sweeps begun. -/
  passes : Nat := 0
  /-- Pairs visited by a sweep or taken from the queue. -/
  pairsConsidered : Nat := 0
  /-- S-polynomials that were divided. -/
  sPolynomials : Nat := 0
  /-- S-polynomials that left no remainder. -/
  zeroReductions : Nat := 0
  /-- Pairs skipped by the product criterion. -/
  skippedByProduct : Nat := 0
  /-- Pairs skipped by the chain criterion. -/
  skippedByChain : Nat := 0
  /-- Generators added. -/
  generatorsAdded : Nat := 0
deriving DecidableEq, Inhabited

end PolyIdeal
