import PolyIdeal.Basis.Text
import PolyIdeal.Polynomial.Lookup
import PolyIdeal.ReducedBasis
import PolyIdeal.Scalar.Rational
import PolyIdeal.Proofs.Polynomial.NormalForm
import PolyIdeal.Proofs.Polynomial.Obtained
import PolyIdeal.Proofs.Polynomial.Threshold
import PolyIdeal.Proofs.Polynomial.RightThreshold
import PolyIdeal.Proofs.Polynomial.Reordering
import PolyIdeal.Proofs.Polynomial.Retrieving
import PolyIdeal.Proofs.Completion.Sweeping
import PolyIdeal.Proofs.Completion.Unverified
import PolyIdeal.Proofs.Completion.Termination
import PolyIdeal.Proofs.Completion.Counting
import PolyIdeal.Proofs.Completion.Abandoned
import PolyIdeal.Proofs.Completion.Agreement
import PolyIdeal.Proofs.Completion.Range
import PolyIdeal.Proofs.Completion.Outcomes
import PolyIdeal.Proofs.Exact.GroebnerBases
import PolyIdeal.Proofs.Exact.NormalForms
import PolyIdeal.Proofs.Exact.RingOperations
import PolyIdeal.Proofs.Division.Quotients
import PolyIdeal.Proofs.TermOrder.Admissible
import PolyIdeal.Proofs.Basis.Deciding
import PolyIdeal.Proofs.Basis.Distinct
import PolyIdeal.Proofs.Basis.Matching
import PolyIdeal.Proofs.Monomial.Arithmetic
import PolyIdeal.Proofs.Ordered.Division
import PolyIdeal.Proofs.Ordered.SPolynomials
import PolyIdeal.Proofs.Ordered.Sums
import PolyIdeal.Proofs.Polynomial.Supports
import PolyIdeal.Proofs.Completion.Queueing
import PolyIdeal.Proofs.Polynomial.Rendering
