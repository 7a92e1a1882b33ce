import PolyIdeal.Basis.Fingerprint
import PolyIdeal.Basis.Groebner
import PolyIdeal.Completion.Settings

/-!
# Completion by sweeps

A sweep visits every pair of the generators present when it begins. Each S-polynomial is divided
by the generators present when its turn comes, and a remainder is added at once. Sweeps are
repeated until one leaves the fingerprint of the basis as it was.

A sweep that fails halfway keeps what it has done: the run it leaves behind can be looked at and
stepped again.
-/

namespace PolyIdeal

/-- A completion by sweeps under way. -/
structure Sweep (K : Type) where
  basis : Basis K
  degreeLimit : Option Nat
  counters : Counters

namespace Sweep

variable {K : Type} [Scalar K]

omit [Scalar K] in
/-- A run over `basis` that has not begun. -/
def start (settings : Settings) (basis : Basis K) : Sweep K :=
  ⟨basis, settings.degreeLimit, {}⟩

/-- What is left of the S-polynomial of a pair, checked against the degree limit. -/
def reduction (s : Sweep K) (f g : Polynomial K) : Except Fault (Polynomial K) := do
  let r ← s.basis.pairRemainder f g
  if r.isZero then return r
  else do
    r.checkDegree s.degreeLimit
    return r

/-- Visits one pair. -/
def visit (s : Sweep K) (f g : Polynomial K) : Sweep K × Except Fault Unit :=
  let counters :=
    { s.counters with
      pairsConsidered := s.counters.pairsConsidered + 1
      sPolynomials := s.counters.sPolynomials + 1 }
  match s.reduction f g with
  | .error e => ({ s with counters }, .error e)
  | .ok r =>
      if r.isZero then
        ({ s with counters := { counters with zeroReductions := counters.zeroReductions + 1 } },
          .ok ())
      else
        match s.basis.insert r with
        | .error e => ({ s with counters }, .error e)
        | .ok (_, false) => ({ s with counters }, .ok ())
        | .ok (basis, true) =>
            ({ s with
                basis
                counters := { counters with generatorsAdded := counters.generatorsAdded + 1 } },
              .ok ())

/-- Visits pairs in order, up to the first fault. -/
def visitAll (s : Sweep K) : List (Polynomial K × Polynomial K) → Sweep K × Except Fault Unit
  | [] => (s, .ok ())
  | (f, g) :: pairs =>
      match s.visit f g with
      | (s, .ok ()) => s.visitAll pairs
      | (s, .error e) => (s, .error e)

/-- One sweep over the present generators, and whether it changed the basis. -/
def step (s : Sweep K) : Sweep K × Except Fault Bool :=
  match s.basis.fingerprint with
  | .error e => (s, .error e)
  | .ok before =>
      let begun := { s with counters := { s.counters with passes := s.counters.passes + 1 } }
      match begun.visitAll (laterPairs s.basis.generators) with
      | (s, .error e) => (s, .error e)
      | (s, .ok ()) => (s, s.basis.fingerprint.map fun after => decide (after ≠ before))

end Sweep

end PolyIdeal
