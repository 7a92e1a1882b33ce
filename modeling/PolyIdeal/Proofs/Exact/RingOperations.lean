import PolyIdeal.Proofs.Exact.Evaluation
import PolyIdeal.Proofs.Polynomial.Overflow

/-!
# Polynomials over exact scalars form a ring

`RingOperations` collects, for two polynomials that can be combined, what each operation computes in
the ring of polynomials. An operation that can fail `Computes` its result: it returns a polynomial
in normal form that stands for the result, or reports an overflow, and it has a result if the
exponents have room. Normal forms are unique, and evaluation is evaluation in the ring, so it
respects sums and products.

The operands are any polynomials that can be obtained. That they are in normal form is a fact about
all operations and not an assumption.
-/

namespace PolyIdeal.Polynomial

variable {K : Type} [ExactScalar K] {n : ℕ} {o : TermOrder} {p q r : Polynomial K}
  {ts : List (Term K)} {m : Monomial} {c s : K}

/-- `r` is in normal form and stands for `f`. -/
def Represents (n : ℕ) (o : TermOrder) (f : MvPolynomial (Fin n) K) (r : Polynomial K) : Prop :=
  r.Proper n o ∧ r.toMv n = f

/-- What is returned represents `f`, and something is returned if there is room. -/
def Computes (n : ℕ) (o : TermOrder) (room : Prop) (f : MvPolynomial (Fin n) K)
    (x : Except Fault (Polynomial K)) : Prop := Yields room (Represents n o f) x

/-! ## One operation at a time -/

/-- Terms in any order and with repetitions are added up. -/
theorem computes_ofTerms (ha : OfArity n ts) :
    Computes n o (Rankable o ts) (termsMv n ts) (ofTerms ts n o) :=
  (yields_ofTerms ha).mono fun _ hr _ => ⟨proper_ofTerms hr, toMv_ofTerms hr⟩

/-- A constant, zero included. -/
theorem represents_const (c : K) (n : ℕ) (o : TermOrder) :
    Represents n o (MvPolynomial.C c) (const c n o) := ⟨proper_const c n o, toMv_const c o⟩

/-- A change of order does not change what is represented. -/
theorem computes_reorder (harity : p.arity = n) (ha : OfArity n p.terms) :
    Computes n o (Rankable o p.terms) (p.toMv n) (p.reorder o) :=
  (yields_reorder harity ha).mono fun _ hr _ => ⟨proper_reorder harity ha hr, toMv_reorder hr⟩

/-- A sum with a multiple. -/
theorem computes_addScaled (hp : p.Proper n o) (hq : q.Fits n o) (s : K) :
    Computes n o (Rankable o p.terms ∧ Rankable o q.terms)
      (p.toMv n + MvPolynomial.C s * q.toMv n) (p.addScaled q s) :=
  (yields_addScaled hp.toFits hq).mono fun _ hr _ =>
    ⟨hp.addScaled hq hr, toMv_addScaled hp.toFits hq hr⟩

/-- Sums are sums with the multiple 1. -/
theorem computes_add (hp : p.Proper n o) (hq : q.Fits n o) :
    Computes n o (Rankable o p.terms ∧ Rankable o q.terms) (p.toMv n + q.toMv n) (p.add q) := by
  have h := computes_addScaled hp hq 1
  rwa [MvPolynomial.C_1, one_mul] at h

/-- Differences are sums with the multiple -1. -/
theorem computes_sub (hp : p.Proper n o) (hq : q.Fits n o) :
    Computes n o (Rankable o p.terms ∧ Rankable o q.terms) (p.toMv n - q.toMv n) (p.sub q) := by
  have h := computes_addScaled hp hq (-1)
  rwa [MvPolynomial.C_neg, MvPolynomial.C_1, neg_one_mul, ← sub_eq_add_neg] at h

/-- Multiples are taken without a comparison of monomials, so there is always a result. -/
theorem represents_scale (hp : p.Fits n o) (s : K) :
    Represents n o (MvPolynomial.C s * p.toMv n) (p.scale s) :=
  ⟨Proper.scale hp s, toMv_scale p s⟩

theorem represents_neg (hp : p.Fits n o) : Represents n o (-p.toMv n) p.neg := by
  have h := represents_scale hp (-1)
  rwa [MvPolynomial.C_neg, MvPolynomial.C_1, neg_one_mul] at h

/-- The product with a term needs room for the new exponents, and ranks none of them. -/
theorem computes_mulTerm (hp : p.Fits n o) (hm : m.arity = n) (c : K) :
    Computes n o (ProductsFit m p.terms) (MvPolynomial.monomial (m.exps n) c * p.toMv n)
      (p.mulTerm m c) :=
  (yields_mulTerm hp hm).mono fun _ hr _ => ⟨Proper.mulTerm hp hr, toMv_mulTerm hp hr⟩

/-- A product adds up products with terms, so the new monomials have to be ranked. -/
theorem computes_mul (hp : p.Fits n o) (hq : q.Fits n o) :
    Computes n o (ProductsRankable o p.terms q.terms) (p.toMv n * q.toMv n) (p.mul q) :=
  (yields_mul hp hq).mono fun _ hr _ => ⟨Proper.mul hp hr, toMv_mul hp hr⟩

/-- A term that is added in place is looked for, so it has to be ranked. -/
theorem computes_addTerm (hp : p.Proper n o) (hm : m.arity = n) (c : K) :
    Computes n o (Rankable o p.terms ∧ o.canRank m = true)
      (p.toMv n + MvPolynomial.monomial (m.exps n) c) (p.addTerm m c) :=
  (yields_addTerm hp.toFits hm).mono fun _ hr _ => ⟨hp.addTerm hr, toMv_addTerm hp.toFits hr⟩

/-- What represents `f` has the values of `f`. -/
theorem Represents.eval_eq_ok {f : MvPolynomial (Fin n) K} (h : Represents n o f r)
    (x : Fin n → K) : r.eval (List.ofFn x) = .ok (MvPolynomial.eval x f) := by
  rw [Polynomial.eval_eq_ok h.1.arity_eq h.1.ofArity, h.2]

/-- What is returned for `f` has the values of `f`. -/
theorem Computes.eval_eq_ok {room : Prop} {f : MvPolynomial (Fin n) K}
    {y : Except Fault (Polynomial K)} (h : Computes n o room f y) (hr : y = .ok r)
    (x : Fin n → K) : r.eval (List.ofFn x) = .ok (MvPolynomial.eval x f) := by
  rw [hr] at h
  exact Represents.eval_eq_ok h x

/-! ## All operations -/

/-- What the operations on `p` and `q` compute, in `n` variables ranked by `o`. -/
structure RingOperations (n : ℕ) (o : TermOrder) (p q : Polynomial K) : Prop where
  /-- Terms in any order, with repetitions and zeros, are added up. -/
  ofTerms : ∀ ts : List (Term K), OfArity n ts →
    Computes n o (Rankable o ts) (termsMv n ts) (ofTerms ts n o)
  add : Computes n o (Rankable o p.terms ∧ Rankable o q.terms) (p.toMv n + q.toMv n) (p.add q)
  sub : Computes n o (Rankable o p.terms ∧ Rankable o q.terms) (p.toMv n - q.toMv n) (p.sub q)
  addScaled : ∀ s, Computes n o (Rankable o p.terms ∧ Rankable o q.terms)
    (p.toMv n + MvPolynomial.C s * q.toMv n) (p.addScaled q s)
  neg : Represents n o (-p.toMv n) p.neg
  scale : ∀ s, Represents n o (MvPolynomial.C s * p.toMv n) (p.scale s)
  mulTerm : ∀ m c, m.arity = n → Computes n o (ProductsFit m p.terms)
    (MvPolynomial.monomial (m.exps n) c * p.toMv n) (p.mulTerm m c)
  mul : Computes n o (ProductsRankable o p.terms q.terms) (p.toMv n * q.toMv n) (p.mul q)
  addTerm : ∀ m c, m.arity = n → Computes n o (Rankable o p.terms ∧ o.canRank m = true)
    (p.toMv n + MvPolynomial.monomial (m.exps n) c) (p.addTerm m c)
  /-- A change of order changes the representation only. -/
  reorder : ∀ o', Computes n o' (Rankable o' p.terms) (p.toMv n) (p.reorder o')
  /-- There is one representation. -/
  unique : p.toMv n = q.toMv n ↔ p.terms = q.terms
  /-- Evaluation is evaluation in the ring, -/
  eval : ∀ x : Fin n → K, p.eval (List.ofFn x) = .ok (MvPolynomial.eval x (p.toMv n))
  /-- so it respects constants, sums and products. -/
  eval_const : ∀ (c : K) (x : Fin n → K), (const c n o).eval (List.ofFn x) = .ok c
  eval_add : ∀ r, p.add q = .ok r → ∀ x : Fin n → K, r.eval (List.ofFn x) =
    (do return (← p.eval (List.ofFn x)) + (← q.eval (List.ofFn x)))
  eval_mul : ∀ r, p.mul q = .ok r → ∀ x : Fin n → K, r.eval (List.ofFn x) =
    (do return (← p.eval (List.ofFn x)) * (← q.eval (List.ofFn x)))

/-- Over exact scalars the operations on polynomials are those of the polynomial ring, for any two
polynomials that can be obtained and have one arity and one order. -/
theorem ringOperations (hp : p.Obtained true) (hq : q.Obtained true)
    (hpq : p.checkCompatible q = .ok ()) : RingOperations p.arity p.order p q := by
  have hp := hp.proper
  have hq := hq.proper.of_checkCompatible hpq
  have hpx := fun x => eval_eq_ok rfl hp.ofArity x
  have hqx := fun x => eval_eq_ok hq.arity_eq hq.ofArity x
  exact {
    ofTerms := fun ts ha => computes_ofTerms ha
    add := computes_add hp hq.toFits
    sub := computes_sub hp hq.toFits
    addScaled := computes_addScaled hp hq.toFits
    neg := represents_neg hp.toFits
    scale := represents_scale hp.toFits
    mulTerm := fun m c hm => computes_mulTerm hp.toFits hm c
    mul := computes_mul hp.toFits hq.toFits
    addTerm := fun m c hm => computes_addTerm hp hm c
    reorder := fun o' => computes_reorder rfl hp.ofArity
    unique := ⟨hp.terms_eq hq, fun h => by rw [toMv, toMv, h]⟩
    eval := hpx
    eval_const := fun c x => by
      rw [(represents_const c p.arity p.order).eval_eq_ok x, MvPolynomial.eval_C]
    eval_add := fun r hr x => by
      rw [(computes_add hp hq.toFits).eval_eq_ok hr x, hpx, hqx, map_add]
      rfl
    eval_mul := fun r hr x => by
      rw [(computes_mul hp.toFits hq.toFits).eval_eq_ok hr x, hpx, hqx, map_mul]
      rfl }

/-- `x + y` and `x - y`, given by their terms in the wrong order and with a zero term. The cross
terms of their product cancel. -/
theorem ringOperations_conjugates : ∃ p q r : Polynomial (Exact ℚ), p.Obtained true ∧
    q.Obtained true ∧ p.checkCompatible q = .ok () ∧ p.support = [⟨[1, 0]⟩, ⟨[0, 1]⟩] ∧
      p.mul q = .ok r ∧ r.support = [⟨[2, 0]⟩, ⟨[0, 2]⟩] ∧
        RingOperations p.arity p.order p q := by
  have hrun : (do
      let p ← ofTerms [⟨⟨[0, 1]⟩, (1 : Exact ℚ)⟩, ⟨⟨[0, 0]⟩, 0⟩, ⟨⟨[1, 0]⟩, 1⟩] 2 .grlex
      let q ← ofTerms [⟨⟨[0, 1]⟩, (-1 : Exact ℚ)⟩, ⟨⟨[1, 0]⟩, 1⟩] 2 .grlex
      let r ← p.mul q
      return (p.support, r.support)) =
        (.ok ([⟨[1, 0]⟩, ⟨[0, 1]⟩], [⟨[2, 0]⟩, ⟨[0, 2]⟩]) : Except Fault _) := by decide +kernel
  obtain ⟨p, hp, hrun⟩ := bind_eq_ok_iff.mp hrun
  obtain ⟨q, hq, hrun⟩ := bind_eq_ok_iff.mp hrun
  obtain ⟨r, hr, hrun⟩ := bind_eq_ok_iff.mp hrun
  obtain ⟨hpsupport, hrsupport⟩ := Prod.mk.inj (pure_eq_ok_iff.mp hrun)
  have hpq := (fits_ofTerms hp).checkCompatible (fits_ofTerms hq)
  exact ⟨p, q, r, .ofTerms hp, .ofTerms hq, hpq, hpsupport, hr, hrsupport,
    ringOperations (.ofTerms hp) (.ofTerms hq) hpq⟩

end PolyIdeal.Polynomial
