import PolyIdeal.Basis.Groebner
import PolyIdeal.Completion.Settings
import PolyIdeal.CriticalPair.Criteria

/-!
# Completion by a worklist

Every pair of generators is queued once and taken up in turn. It is skipped if a criterion in use
applies; otherwise its S-polynomial is divided by the present generators. A remainder becomes a
new generator, and its pairs with all earlier ones are queued behind those still pending.

What becomes of a pair is a value of its own, `Verdict`, computed without touching the run. A pair
has left the queue before its verdict is known, and stays out of it if the step then fails.
-/

namespace PolyIdeal

/-- What becomes of a pair. -/
inductive Verdict (K : Type) where
  /-- Skipped by the product criterion. -/
  | coprime
  /-- Skipped by the chain criterion. -/
  | linked
  /-- The S-polynomial leaves no remainder. -/
  | settled
  /-- The S-polynomial leaves this remainder. -/
  | remainder (r : Polynomial K)

/-- A completion by a worklist under way. -/
structure Worklist (K : Type) where
  basis : Basis K
  queue : PairQueue
  settings : Settings
  counters : Counters

namespace Worklist

variable {K : Type}

/-- A run over `basis` with all its pairs pending. -/
def start (settings : Settings) (basis : Basis K) : Worklist K :=
  ⟨basis, .ofAll basis.size, settings, {}⟩

/-- The generator at a position. -/
def generator (w : Worklist K) (i : Nat) : Except Fault (Polynomial K) :=
  match w.basis.generators[i]? with
  | some g => .ok g
  | none => .error (.indexOutOfRange i w.basis.size)

variable [Scalar K]

/-- What becomes of a pair that has just left the queue. -/
def judge (w : Worklist K) (pair : CriticalPair) : Except Fault (Verdict K) := do
  let f ← w.generator pair.low
  let g ← w.generator pair.high
  let leadF ← f.leadingMonomial
  let leadG ← g.leadingMonomial
  if w.settings.useProduct && productCriterion leadF leadG then
    return .coprime
  else do
    let lcm ← leadF.lcm leadG
    if w.settings.useChain && chainCriterion pair lcm w.basis.generators w.queue then
      return .linked
    else do
      let r ← w.basis.pairRemainder f g
      if r.isZero then return .settled else return .remainder r

omit [Scalar K] in
/-- Counts a pair by its verdict. -/
def tally (c : Counters) : Verdict K → Counters
  | .coprime => { c with skippedByProduct := c.skippedByProduct + 1 }
  | .linked => { c with skippedByChain := c.skippedByChain + 1 }
  | .settled =>
      { c with
        sPolynomials := c.sPolynomials + 1
        zeroReductions := c.zeroReductions + 1 }
  | .remainder _ => { c with sPolynomials := c.sPolynomials + 1 }

/-- Adds a remainder to the basis, if the degree limit allows it, and queues its pairs. -/
def adopt (w : Worklist K) (r : Polynomial K) : Worklist K × Except Fault Unit :=
  match (do r.checkDegree w.settings.degreeLimit; w.basis.insert r) with
  | .error e => (w, .error e)
  | .ok (_, false) => (w, .ok ())
  | .ok (basis, true) =>
      ({ w with
          basis
          queue := w.queue.extend (CriticalPair.withEarlier w.basis.size)
          counters :=
            { w.counters with generatorsAdded := w.counters.generatorsAdded + 1 } },
        .ok ())

/-- Takes up a pair that has just left the queue. -/
def settle (w : Worklist K) (pair : CriticalPair) : Worklist K × Except Fault Unit :=
  match w.judge pair with
  | .error e => (w, .error e)
  | .ok verdict =>
      let w := { w with counters := tally w.counters verdict }
      match verdict with
      | .remainder r => w.adopt r
      | _ => (w, .ok ())

/-- Takes up the oldest pending pair, and tells whether there was one. -/
def step (w : Worklist K) : Worklist K × Except Fault Bool :=
  match w.queue.pop? with
  | none => (w, .ok false)
  | some (pair, queue) =>
      let counters :=
        { w.counters with pairsConsidered := w.counters.pairsConsidered + 1 }
      let (w, outcome) := { w with queue, counters }.settle pair
      (w, outcome.map fun _ => true)

end Worklist

end PolyIdeal
