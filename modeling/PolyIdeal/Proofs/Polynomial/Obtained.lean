import PolyIdeal.Proofs.Division.Totality
import PolyIdeal.Proofs.Polynomial.Lookup
import PolyIdeal.Proofs.Polynomial.NormalForm
import PolyIdeal.Scalar.Rational

/-!
# What the operations produce

`Obtained` is the closure of the constructors under the operations: a polynomial is obtained when
some finite sequence of them, each of which has succeeded, ends in it. Every fact about a
polynomial that somebody can hold is an induction over it, with one case per operation.

The first such fact is that the terms are in order. Each operation has its own way of seeing to
that: sorting, inserting where a binary search says, merging, shifting without a look at the order,
pushing at the end. In every case the result has a shape (`Polynomial.Fits`), whatever the
coefficients are.
-/

namespace PolyIdeal.Polynomial

variable {K : Type} [Scalar K]

/-- Polynomials that can be made with the operations. The quotients of a division keep
insignificant coefficients, and `quotients` says whether they may be used. -/
inductive Obtained (quotients : Bool) : Polynomial K → Prop
  | ofTerms {ts : List (Term K)} {n : ℕ} {o : TermOrder} {p : Polynomial K}
      (h : ofTerms ts n o = .ok p) : Obtained quotients p
  | zero (n : ℕ) (o : TermOrder) : Obtained quotients (zero n o)
  | ofTerm (m : Monomial) (c : K) (o : TermOrder) : Obtained quotients (ofTerm m c o)
  | const (c : K) (n : ℕ) (o : TermOrder) : Obtained quotients (const c n o)
  | ofVariable {i n : ℕ} {o : TermOrder} {p : Polynomial K} (h : ofVariable i n o = .ok p) :
      Obtained quotients p
  | withEpsilon {p : Polynomial K} (hp : Obtained quotients p) (ε : K) :
      Obtained quotients (p.withEpsilon ε)
  | reorder {p q : Polynomial K} {o : TermOrder} (hp : Obtained quotients p)
      (h : p.reorder o = .ok q) : Obtained quotients q
  | addTerm {p q : Polynomial K} {m : Monomial} {c : K} (hp : Obtained quotients p)
      (h : p.addTerm m c = .ok q) : Obtained quotients q
  | addScaled {p q r : Polynomial K} {s : K} (hp : Obtained quotients p)
      (hq : Obtained quotients q) (h : p.addScaled q s = .ok r) : Obtained quotients r
  | add {p q r : Polynomial K} (hp : Obtained quotients p) (hq : Obtained quotients q)
      (h : p.add q = .ok r) : Obtained quotients r
  | sub {p q r : Polynomial K} (hp : Obtained quotients p) (hq : Obtained quotients q)
      (h : p.sub q = .ok r) : Obtained quotients r
  | neg {p : Polynomial K} (hp : Obtained quotients p) : Obtained quotients p.neg
  | scale {p : Polynomial K} (hp : Obtained quotients p) (s : K) :
      Obtained quotients (p.scale s)
  | mulTerm {p q : Polynomial K} {m : Monomial} {c : K} (hp : Obtained quotients p)
      (h : p.mulTerm m c = .ok q) : Obtained quotients q
  | mul {p q r : Polynomial K} (hp : Obtained quotients p) (hq : Obtained quotients q)
      (h : p.mul q = .ok r) : Obtained quotients r
  | monic {p q : Polynomial K} (hp : Obtained quotients p) (h : p.monic = .ok q) :
      Obtained quotients q
  | quotient {p q : Polynomial K} {D : List (Polynomial K)} {d : Division K}
      (huse : quotients = true) (hp : Obtained quotients p)
      (hD : ∀ f ∈ D, Obtained quotients f) (h : p.divide D = .ok d) (hq : q ∈ d.quotients) :
      Obtained quotients q
  | remainder {p : Polynomial K} {D : List (Polynomial K)} {d : Division K}
      (hp : Obtained quotients p) (hD : ∀ f ∈ D, Obtained quotients f)
      (h : p.divide D = .ok d) : Obtained quotients d.remainder
  | sPolynomial {p q r : Polynomial K} (hp : Obtained quotients p)
      (hq : Obtained quotients q) (h : p.sPolynomial q = .ok r) : Obtained quotients r

/-- What is obtained has the arity and the order that it declares. -/
theorem Obtained.fits {quotients : Bool} {p : Polynomial K} (hp : p.Obtained quotients) :
    p.Fits p.arity p.order := by
  induction hp with
  | ofTerms h => exact (fits_ofTerms h).self
  | zero n o => exact fits_zero n o
  | ofTerm m c o => exact fits_ofTerm m c o
  | const c n o => exact (fits_ofTerm (.one n) c o).self
  | ofVariable h =>
    obtain ⟨m, -, h⟩ := bind_eq_ok_iff.mp h
    rw [← pure_eq_ok_iff.mp h]
    exact (fits_ofTerm m 1 _).self
  | withEpsilon _ ε ih => exact ih.withEpsilon ε
  | reorder _ h ih => exact (fits_reorder rfl ih.ofArity h).self
  | addTerm _ h ih => exact (ih.addTerm h).self
  | addScaled _ _ h ihp ihq =>
    exact (ihp.addScaled (ihq.of_checkCompatible (addScaled_eq_ok_iff.mp h).1) h).self
  | add _ _ h ihp ihq =>
    exact (ihp.addScaled (ihq.of_checkCompatible (addScaled_eq_ok_iff.mp h).1) h).self
  | sub _ _ h ihp ihq =>
    exact (ihp.addScaled (ihq.of_checkCompatible (addScaled_eq_ok_iff.mp h).1) h).self
  | neg _ ih => exact ih.scale (-1)
  | scale _ s ih => exact ih.scale s
  | mulTerm _ h ih => exact (ih.mulTerm h).self
  | mul _ _ h ihp _ => exact (ihp.mul h).self
  | monic _ h ih => exact (ih.monic h).self
  | quotient _ _ _ h hq ihp ihD =>
    have hD := fun f hf => (ihD f hf).of_checkCompatible ((divide_eq_ok_iff.mp h).1 f hf)
    exact (ihp.quotients hD h _ hq).self
  | remainder _ _ h ihp ihD =>
    have hD := fun f hf => (ihD f hf).of_checkCompatible ((divide_eq_ok_iff.mp h).1 f hf)
    exact (ihp.remainder hD (remainder_eq_ok_iff.mpr ⟨_, h, rfl⟩)).self
  | sPolynomial _ _ h ihp ihq =>
    exact (ihp.sPolynomial (ihq.of_checkCompatible (sPolynomial_eq_ok_iff.mp h).1) h).self

omit [Scalar K] in
theorem Fits.nodup_support {n : ℕ} {o : TermOrder} {p : Polynomial K} (hp : p.Fits n o) :
    p.support.Nodup := hp.descending.nodup_monomials hp.ofArity

/-- Whatever is done with polynomials, and whatever their coefficients are: the terms descend in
the order of the polynomial, on degrees of any size, so no monomial occurs twice, and every
monomial has one exponent for each variable. -/
theorem descending_of_obtained {p : Polynomial K} (hp : p.Obtained true) :
    Descending p.order p.terms ∧ p.support.Nodup ∧
      ∀ m ∈ p.support, m.exponents.length = p.arity := by
  have hfits := hp.fits
  refine ⟨hfits.descending, hfits.nodup_support, fun m hm => ?_⟩
  obtain ⟨t, ht, rfl⟩ := List.mem_map.mp hm
  exact hfits.ofArity t ht

/-- The quotient of `(x - y)² (x + y)` with one more term, by `x - y` in the graded reverse order:
the dividend is a product, the term is inserted by a search, and the divisor is a difference of
variables that is brought into the order. -/
theorem descending_quotient : ∃ p : Polynomial Rat, p.Obtained true ∧ p.order = .grevlex ∧
    p.terms.length = 3 ∧ Descending p.order p.terms ∧ p.support.Nodup ∧
      ∀ m ∈ p.support, m.exponents.length = 2 := by
  have hrun : (do
      let x ← ofVariable 0 2 .lex
      let y ← ofVariable 1 2 .lex
      let f ← (← x.sub y).reorder .grevlex
      let g ← (← x.add y).reorder .grevlex
      let p ← (← (← f.mul f).mul g).addTerm ⟨[1, 0]⟩ (2 : Rat)
      let d ← p.divide [f]
      return d.quotients.map fun q => (q.order, q.arity, q.terms.length)) =
        (.ok [(.grevlex, 2, 3)] : Except Fault _) := by decide +kernel
  obtain ⟨x, hx, hrun⟩ := bind_eq_ok_iff.mp hrun
  obtain ⟨y, hy, hrun⟩ := bind_eq_ok_iff.mp hrun
  obtain ⟨f', hf', hrun⟩ := bind_eq_ok_iff.mp hrun
  obtain ⟨f, hf, hrun⟩ := bind_eq_ok_iff.mp hrun
  obtain ⟨g', hg', hrun⟩ := bind_eq_ok_iff.mp hrun
  obtain ⟨g, hg, hrun⟩ := bind_eq_ok_iff.mp hrun
  obtain ⟨square, hsquare, hrun⟩ := bind_eq_ok_iff.mp hrun
  obtain ⟨cube, hcube, hrun⟩ := bind_eq_ok_iff.mp hrun
  obtain ⟨p, hp, hrun⟩ := bind_eq_ok_iff.mp hrun
  obtain ⟨d, hd, hrun⟩ := bind_eq_ok_iff.mp hrun
  obtain ⟨q, hq, hshape⟩ := List.map_eq_singleton_iff.mp (pure_eq_ok_iff.mp hrun)
  simp only [Prod.mk.injEq] at hshape
  obtain ⟨horder, harity, hlength⟩ := hshape
  have hxy : Obtained true x ∧ Obtained true y := ⟨.ofVariable hx, .ofVariable hy⟩
  have hfo : f.Obtained true := (Obtained.sub hxy.1 hxy.2 hf').reorder hf
  have hgo : g.Obtained true := (Obtained.add hxy.1 hxy.2 hg').reorder hg
  have hpo : p.Obtained true := (((hfo.mul hfo hsquare).mul hgo hcube).addTerm hp)
  have hqo : q.Obtained true :=
    .quotient rfl hpo (List.forall_mem_singleton.mpr hfo) hd (hq ▸ List.mem_cons_self)
  obtain ⟨hdesc, hnodup, hlengths⟩ := descending_of_obtained hqo
  exact ⟨q, hqo, horder, hlength, hdesc, hnodup, harity ▸ hlengths⟩

end PolyIdeal.Polynomial
