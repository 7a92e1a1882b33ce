import PolyIdeal.Proofs.Polynomial.Collecting
import PolyIdeal.Proofs.Polynomial.TermByTerm
import PolyIdeal.Proofs.Polynomial.Threshold

/-!
# Changing the order

A polynomial is ranked by another order by collecting its terms anew. There is nothing to add up,
since no monomial occurs twice, but the terms are tested again, and the insignificant ones are
dropped. So a change of the order loses nothing exactly if all coefficients are significant, and
then the way back leads to the very polynomial one has started from.

Quotients are the polynomials that have insignificant coefficients on purpose.
-/

namespace PolyIdeal.Polynomial

variable {K : Type} [Scalar K] {n : ℕ} {o o' : TermOrder} {p q r : Polynomial K}

/-- Changing the order tests each coefficient and does nothing else to it. -/
theorem coeffAt_reorder (hp : p.Fits n o) (h : p.reorder o' = .ok q) (m : Monomial) :
    coeffAt q.terms m = (coeffAt p.terms m).filter (Scalar.significant p.epsilon) := by
  obtain ⟨us, hus, rfl⟩ := reorder_eq_ok_iff.mp h
  rw [coeffAt_normalTerms hp.ofArity hus, leftSum?_coeffsAt hp.nodup_support]

theorem epsilon_reorder (h : p.reorder o = .ok q) : q.epsilon = p.epsilon := by
  obtain ⟨us, -, rfl⟩ := reorder_eq_ok_iff.mp h
  rfl

/-- The terms are compared if there are two of them. -/
theorem exists_reorder_iff :
    (∃ q, p.reorder o = .ok q) ↔ p.terms.length < 2 ∨ Rankable o p.terms := by
  rw [← exists_normalTerms_iff (ε := p.epsilon)]
  simp only [reorder_eq_ok_iff]
  exact ⟨fun ⟨_, us, hus, _⟩ => ⟨us, hus⟩, fun ⟨us, hus⟩ => ⟨_, us, hus, rfl⟩⟩

/-! ## What is kept -/

/-- The polynomial without its insignificant terms. -/
def pruned (p : Polynomial K) : Polynomial K :=
  { p with terms := keepSignificant p.epsilon p.terms }

theorem Fits.pruned (hp : p.Fits n o) : p.pruned.Fits n o :=
  have hsub := keepSignificant_sublist p.epsilon p.terms
  ⟨hp.arity_eq, hp.order_eq, hp.ofArity.sublist hsub, hp.descending.sublist hsub⟩

theorem coeffAt_pruned (hp : p.Fits n o) (m : Monomial) :
    coeffAt p.pruned.terms m = (coeffAt p.terms m).filter (Scalar.significant p.epsilon) :=
  coeffAt_keepSignificant hp.ofArity hp.descending m

theorem terms_pruned_eq_iff : p.pruned.terms = p.terms ↔ p.Significant := List.filter_eq_self

theorem pruned_eq_iff : p.pruned = p ↔ p.Significant := by
  refine ⟨fun h => terms_pruned_eq_iff.mp (congrArg terms h), fun h => ?_⟩
  unfold pruned
  rw [show keepSignificant p.epsilon p.terms = p.terms from terms_pruned_eq_iff.mpr h]

/-- In the new order stand the terms that are significant. -/
theorem perm_reorder (hp : p.Fits n o) (h : p.reorder o' = .ok q) :
    q.terms.Perm p.pruned.terms := by
  have hq := fits_reorder hp.arity_eq hp.ofArity h
  have hr := hp.pruned
  refine (List.perm_ext_iff_of_nodup hq.nodup_support.of_map hr.nodup_support.of_map).mpr
    fun t => ?_
  rw [mem_iff_coeffAt hq.ofArity hq.descending, mem_iff_coeffAt hr.ofArity hr.descending,
    coeffAt_reorder hp h, coeffAt_pruned hp]

/-- The way back restores the order of the terms that are left. -/
theorem reorder_back (hp : p.Fits n o) (h : p.reorder o' = .ok q) (hback : q.reorder o = .ok r) :
    r = p.pruned := by
  have hq := fits_reorder hp.arity_eq hp.ofArity h
  have hε : r.epsilon = p.epsilon := (epsilon_reorder hback).trans (epsilon_reorder h)
  refine (fits_reorder hq.arity_eq hq.ofArity hback).eq_of_coeffAt_eq hp.pruned hε fun m => ?_
  rw [coeffAt_reorder hq hback, coeffAt_reorder hp h, coeffAt_pruned hp, epsilon_reorder h,
    Option.filter_filter]
  simp only [Bool.and_self]

/-- What a change of the order does to a polynomial, and what the way back does. -/
structure Reorders (p : Polynomial K) (o : TermOrder) : Prop where
  /-- Nothing but an exponent past 32 bits can go wrong, -/
  overflow : OverflowOnly (p.reorder o)
  /-- and that takes two terms, one of them with a degree that the new order cannot compute. -/
  exists_iff : (∃ q, p.reorder o = .ok q) ↔ p.terms.length < 2 ∨ Rankable o p.terms
  /-- The result declares the new order, and nothing else changes. -/
  fits : ∀ q, p.reorder o = .ok q → q.Fits p.arity o ∧ q.epsilon = p.epsilon
  /-- It has exactly the significant terms. -/
  perm : ∀ q, p.reorder o = .ok q → q.terms.Perm (keepSignificant p.epsilon p.terms)
  /-- So it has exactly the terms of the polynomial if and only if all are significant. -/
  perm_iff : ∀ q, p.reorder o = .ok q → (q.terms.Perm p.terms ↔ p.Significant)
  /-- The way back can fail like the way there. -/
  back_overflow : ∀ q, p.reorder o = .ok q → OverflowOnly (q.reorder p.order)
  back_exists_iff : ∀ q, p.reorder o = .ok q →
    ((∃ r, q.reorder p.order = .ok r) ↔ q.terms.length < 2 ∨ Rankable p.order q.terms)
  /-- It leads to the significant terms in the place in which they have been, -/
  back : ∀ q r, p.reorder o = .ok q → q.reorder p.order = .ok r →
    r = { p with terms := keepSignificant p.epsilon p.terms }
  /-- which is the polynomial itself if and only if all are significant. -/
  back_iff : ∀ q r, p.reorder o = .ok q → q.reorder p.order = .ok r → (r = p ↔ p.Significant)

theorem Fits.reorders (hp : p.Fits n o) (o' : TermOrder) : p.Reorders o' := by
  have hself := hp.self
  have hq : ∀ q, p.reorder o' = .ok q → q.Fits p.arity o' :=
    fun q h => fits_reorder rfl hself.ofArity h
  constructor
  case overflow => exact (yields_iff.mp (yields_reorder rfl hself.ofArity)).1
  case exists_iff => exact exists_reorder_iff
  case fits => exact fun q h => ⟨hq q h, epsilon_reorder h⟩
  case perm => exact fun q h => perm_reorder hp h
  case perm_iff =>
    intro q h
    refine ⟨fun hperm t ht => ?_, fun hs => terms_pruned_eq_iff.mpr hs ▸ perm_reorder hp h⟩
    exact (List.mem_filter.mp ((perm_reorder hp h).subset (hperm.symm.subset ht))).2
  case back_overflow =>
    exact fun q h => (yields_iff.mp (yields_reorder (hq q h).arity_eq (hq q h).ofArity)).1
  case back_exists_iff => exact fun q _ => exists_reorder_iff
  case back => exact fun q r h hback => reorder_back hself h hback
  case back_iff => exact fun q r h hback => reorder_back hself h hback ▸ pruned_eq_iff

/-- A change of the order keeps the significant terms of whatever has been obtained, and the way
back puts them where they have been. These are all terms unless the polynomial stems from a
quotient, or has a coefficient that passes neither test, or its threshold is above one. -/
theorem reorders_of_obtained (hp : p.Obtained true) (o : TermOrder) : p.Reorders o ∧
    (p.Obtained false → (∀ t ∈ p.terms, Decided p.epsilon t.coeff) →
      Scalar.significant p.epsilon (1 : K) = true → p.Significant) := by
  refine ⟨hp.fits.reorders o, fun hp' hdecided hone t ht => ?_⟩
  rcases hp'.hasStorable t ht with hsig | hneg | hcoeff
  · exact hsig
  · exact (hdecided t ht).trans (hneg ▸ rfl)
  · exact hcoeff ▸ hone

/-- `x - 2 y z + 3 y³` leads with `x` in the lexicographic order and with `y³` in the graded
reverse one. -/
theorem reorders_threeDegrees : ∃ p q : Polynomial Rat, p.Obtained true ∧ p.order = .lex ∧
    p.support = [⟨[1, 0, 0]⟩, ⟨[0, 3, 0]⟩, ⟨[0, 1, 1]⟩] ∧ p.reorder .grevlex = .ok q ∧
      q.support = [⟨[0, 3, 0]⟩, ⟨[0, 1, 1]⟩, ⟨[1, 0, 0]⟩] ∧ q.terms.Perm p.terms ∧
        q.reorder .lex = .ok p := by
  let ts : List (Term Rat) := [⟨⟨[1, 0, 0]⟩, 1⟩, ⟨⟨[0, 1, 1]⟩, -2⟩, ⟨⟨[0, 3, 0]⟩, 3⟩]
  have hrun : (do
      let p ← ofTerms ts 3 .lex
      let q ← p.reorder .grevlex
      let r ← q.reorder p.order
      return (p.order, p.support, q.support, r.terms.length,
        decide (∀ t ∈ p.terms, Decided p.epsilon t.coeff), Scalar.significant p.epsilon 1)) =
          (.ok (.lex, [⟨[1, 0, 0]⟩, ⟨[0, 3, 0]⟩, ⟨[0, 1, 1]⟩],
            [⟨[0, 3, 0]⟩, ⟨[0, 1, 1]⟩, ⟨[1, 0, 0]⟩], 3, true, true) : Except Fault _) := by
    decide +kernel
  obtain ⟨p, hp, hrun⟩ := bind_eq_ok_iff.mp hrun
  obtain ⟨q, hq, hrun⟩ := bind_eq_ok_iff.mp hrun
  obtain ⟨r, hr, hrun⟩ := bind_eq_ok_iff.mp hrun
  simp only [pure_eq_ok_iff, Prod.mk.injEq, decide_eq_true_eq] at hrun
  obtain ⟨horder, hpsupport, hqsupport, -, hdecided, hone⟩ := hrun
  have hobtained : p.Obtained true := .ofTerms hp
  obtain ⟨hreorders, hsignificant⟩ := reorders_of_obtained hobtained .grevlex
  have hs : p.Significant := hsignificant (.ofTerms hp) hdecided hone
  refine ⟨p, q, hobtained, horder, hpsupport, hq, hqsupport, (hreorders.perm_iff q hq).mpr hs, ?_⟩
  rw [← horder, hr, (hreorders.back_iff q r hq hr).mpr hs]

/-- The quotient of `x` by `100000 x` is a constant below the default threshold. It is lost when
the order is changed, and the way back does not restore it. -/
theorem not_perm_reorder_quotient : ∃ p q r : Polynomial Float, p.Obtained true ∧
    p.support = [⟨[0]⟩] ∧ p.reorder .grlex = .ok q ∧ ¬ q.terms.Perm p.terms ∧
      q.reorder p.order = .ok r ∧ r ≠ p := by
  let x : Polynomial Float := ofTerm ⟨[1]⟩ 1 .lex
  let f : Polynomial Float := ofTerm ⟨[1]⟩ 100000 .lex
  have hrun : (do
      let d ← x.divide [f]
      d.quotients.mapM fun p => do
        let q ← p.reorder .grlex
        let r ← q.reorder p.order
        return (p.support, q.terms.length, r.terms.length)) =
      (.ok [([⟨[0]⟩], 0, 0)] : Except Fault _) := by decide +kernel
  obtain ⟨d, hd, hrun⟩ := bind_eq_ok_iff.mp hrun
  obtain ⟨p, hp, hrun⟩ := exists_mem_of_mapM hrun List.mem_cons_self
  obtain ⟨q, hq, hrun⟩ := bind_eq_ok_iff.mp hrun
  obtain ⟨r, hr, hrun⟩ := bind_eq_ok_iff.mp hrun
  simp only [pure_eq_ok_iff, Prod.mk.injEq] at hrun
  obtain ⟨hsupport, hqlength, hrlength⟩ := hrun
  have hobtained : p.Obtained true :=
    .quotient rfl (.ofTerm ..) (List.forall_mem_singleton.mpr (.ofTerm ..)) hd hp
  have hlength : p.terms.length = 1 := by rw [← List.length_map, ← support, hsupport]; rfl
  refine ⟨p, q, r, hobtained, hsupport, hq, fun hperm => ?_, hr, fun hrp => ?_⟩
  · rw [hperm.length_eq, hlength] at hqlength
    cases hqlength
  · rw [hrp, hlength] at hrlength
    cases hrlength

end PolyIdeal.Polynomial
