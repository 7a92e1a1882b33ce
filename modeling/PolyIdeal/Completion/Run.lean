import PolyIdeal.Completion.Sweep
import PolyIdeal.Completion.Worklist

/-!
# Completion runs

A run is a completion of either kind. It can be stepped by hand or carried to its end, from
wherever it stands.

The loop is bounded, and the bound is not a limit of patience. The leading monomial of a new
generator is divisible by none of the earlier ones, so no two new generators share one, and a run
adds at most as many generators as there are monomials. Every sweep but the last adds one, and a
step of a worklist takes up one of the pairs of what can ever be generators.
-/

namespace PolyIdeal

/-- Repeats a step until it reports that nothing is left to do, at most `rounds` times. -/
def repeatStep {σ : Type} (step : σ → σ × Except Fault Bool) : (rounds : Nat) → σ → Except Fault σ
  | 0, _ => .error .boundExhausted
  | rounds + 1, s =>
      match step s with
      | (s, .ok true) => repeatStep step rounds s
      | (s, .ok false) => .ok s
      | (_, .error e) => .error e

/-- The number of generators that a completion of the basis can end with. -/
def Basis.sizeBound {K : Type} (b : Basis K) : Nat :=
  if b.isEmpty then 0 else b.size + Monomial.count b.arity

/-- A completion under way. -/
inductive Run (K : Type) where
  | sweep (run : Sweep K)
  | worklist (run : Worklist K)

/-- A completed basis with the counters of the run. -/
structure Completion (K : Type) where
  basis : Basis K
  counters : Counters

namespace Run

variable {K : Type}

/-- A run of the chosen kind that has not begun. -/
def start (settings : Settings) (basis : Basis K) : Run K :=
  match settings.strategy with
  | .sweep => sweep (.start settings basis)
  | .worklist => worklist (.start settings basis)

/-- The present basis. -/
def basis : Run K → Basis K
  | sweep s => s.basis
  | worklist w => w.basis

/-- The counters so far. -/
def counters : Run K → Counters
  | sweep s => s.counters
  | worklist w => w.counters

/-- The number of pending pairs; sweeps have no queue. -/
def pendingPairs : Run K → Option Nat
  | sweep _ => none
  | worklist w => some w.queue.length

/-- The present basis and counters. -/
def completion (r : Run K) : Completion K := ⟨r.basis, r.counters⟩

/-- More steps than the run can make. -/
def stepBound : Run K → Nat
  | sweep s => s.basis.sizeBound + 1
  | worklist w => w.basis.sizeBound * w.basis.sizeBound + w.queue.length + 1

variable [Scalar K]

/-- One sweep, or one pair of the worklist; tells whether there may be more to do. -/
def step : Run K → Run K × Except Fault Bool
  | sweep s => (sweep s.step.1, s.step.2)
  | worklist w => (worklist w.step.1, w.step.2)

/-- Steps until nothing is left to do. -/
def finish (r : Run K) : Except Fault (Completion K) := do
  return (← repeatStep step r.stepBound r).completion

end Run

/-- Completes a basis to a Gröbner basis of its ideal. -/
def Basis.complete {K : Type} [Scalar K] (b : Basis K) (settings : Settings) :
    Except Fault (Completion K) :=
  (Run.start settings b).finish

end PolyIdeal
