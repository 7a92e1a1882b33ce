import Mathlib
import PolyIdeal.Proofs.Division.Descent
import PolyIdeal.Proofs.Ordered.Arithmetic

/-!
# The error of a division

With exact arithmetic and a threshold a division satisfies the division identity up to what its
merges leave out. A round that cancels a term subtracts a multiple of a divisor. The factor is
recorded in the quotient as it is, however small; the leading terms cancel exactly; and the merge of
the tail loses the sums that are insignificant. So the terms that the merges of a run drop
(`droppedTerms`) add up to the error, as polynomials of algebra.

There is one merge for each term of a quotient, and at each monomial it drops one coefficient below
the threshold at most. This bounds the error, which is zero if all that was dropped is zero.
-/

namespace PolyIdeal

variable {K : Type} {n : ℕ} {o : TermOrder}

/-! ## Lists that change at one place -/

theorem sum_set_add {M : Type} [AddCommMonoid M] {xs : List M} {i : ℕ} {x : M} (y : M)
    (h : xs[i]? = some x) : (xs.set i (x + y)).sum = xs.sum + y := by
  induction xs generalizing i with
  | nil => cases h
  | cons z xs ih =>
    cases i with
    | zero =>
      obtain rfl := Option.some.inj h
      rw [List.set_cons_zero, List.sum_cons, List.sum_cons, add_right_comm]
    | succ i => rw [List.set_cons_succ, List.sum_cons, List.sum_cons, ih h, add_assoc]

theorem zipWith_set {α β γ : Type} {f : α → β → γ} {xs : List α} {ys : List β} {i : ℕ} {y : β}
    (x : α) (h : ys[i]? = some y) :
    List.zipWith f (xs.set i x) ys = (List.zipWith f xs ys).set i (f x y) := by
  induction ys generalizing xs i with
  | nil => cases h
  | cons z ys ih =>
    cases xs with
    | nil => rfl
    | cons w xs =>
      cases i with
      | zero =>
        obtain rfl := Option.some.inj h
        rfl
      | succ i => exact congrArg (f w z :: ·) (ih h)

/-- The number of terms of all quotients together. -/
def countTerms (qs : List (Polynomial K)) : ℕ := (qs.map fun q => q.terms.length).sum

namespace PartialDivision

section Drops

variable [Scalar K] {p : Polynomial K} {D : List (Polynomial K)} {t : Term K}
  {rest : List (Term K)} {known : Division K} {s : PartialDivision K}

/-- What a round with leading term `t` merges into the rest: the shifted tail of the divisor that
cancels `t`, and nothing if there is none. -/
def mergedTail (D : List (Polynomial K)) (t : Term K) : Except Fault (List (Term K)) :=
  match (Polynomial.firstDivisor? D t.monomial).bind fun i => D[i]? with
  | none => .ok []
  | some d => do
      let lead ← d.leadingTerm
      let m ← t.monomial.div lead.monomial
      d.cancellingTail m (t.coeff / lead.coeff)

/-- The terms that a round with leading term `t` drops. -/
def roundDrops (p : Polynomial K) (D : List (Polynomial K)) (t : Term K) (rest : List (Term K)) :
    List (Term K) :=
  match mergedTail D t with
  | .ok tail => Polynomial.mergeDrops p.epsilon rest tail
  | .error _ => []

/-- The terms that the merges of the given number of rounds drop, in the order of the rounds. -/
def droppedTerms (p : Polynomial K) (D : List (Polynomial K)) :
    (rounds : ℕ) → PartialDivision K → List (Term K)
  | 0, _ => []
  | _ + 1, ⟨[], _⟩ => []
  | rounds + 1, ⟨t :: rest, known⟩ =>
      roundDrops p D t rest ++
        match advance p D t rest known with
        | .ok s => droppedTerms p D rounds s
        | .error _ => []

theorem roundDrops_of_retired (h : Polynomial.firstDivisor? D t.monomial = none) :
    roundDrops p D t rest = [] := by
  unfold roundDrops mergedTail
  rw [h]
  rfl

theorem roundDrops_of_cancelled {i : ℕ} {d : Polynomial K} {lead : Term K} {m : Monomial}
    {tail : List (Term K)} (hfirst : Polynomial.firstDivisor? D t.monomial = some i)
    (hd : D[i]? = some d) (hlead : d.leadingTerm = .ok lead)
    (hdiv : t.monomial.div lead.monomial = .ok m)
    (htail : Shifted m (fun x => -(t.coeff / lead.coeff * x)) d.terms.tail tail) :
    roundDrops p D t rest = Polynomial.mergeDrops p.epsilon rest tail := by
  have hmerged : mergedTail D t = .ok tail := by
    unfold mergedTail
    rw [hfirst, Option.bind_some, hd]
    show (d.leadingTerm >>= _) = _
    rw [bind_of_eq_ok hlead, bind_of_eq_ok hdiv]
    exact Polynomial.cancellingTail_eq_ok_iff.mpr htail
  unfold roundDrops
  rw [hmerged]

end Drops

/-! ## The value of a state -/

variable [OrderedScalar K] {p : Polynomial K} {D : List (Polynomial K)} {t : Term K}
  {rest : List (Term K)} {known : Division K} {s : PartialDivision K} {d : Division K} {rounds : ℕ}

/-- The products of quotients and divisors, added up. -/
noncomputable def productsMv (n : ℕ) (qs D : List (Polynomial K)) : MvPolynomial (Fin n) K :=
  (List.zipWith (fun q g => exactMv n q.terms * exactMv n g.terms) qs D).sum

/-- What is left, what was cancelled and what was retired, together. -/
noncomputable def exactValue (n : ℕ) (D : List (Polynomial K)) (s : PartialDivision K) :
    MvPolynomial (Fin n) K :=
  exactMv n s.rest + productsMv n s.result.quotients D + exactMv n s.result.remainder.terms

/-- A factor that is recorded adds a multiple of its divisor. -/
theorem productsMv_set {qs : List (Polynomial K)} {i : ℕ} {q g : Polynomial K} {v : Term K}
    (hq : qs[i]? = some q) (hg : D[i]? = some g) :
    productsMv n (qs.set i { q with terms := q.terms ++ [v] }) D =
      productsMv n qs D +
        MvPolynomial.monomial (v.monomial.exps n) v.coeff * exactMv n g.terms := by
  have hentry : (List.zipWith (fun q g => exactMv n q.terms * exactMv n g.terms) qs D)[i]? =
      some (exactMv n q.terms * exactMv n g.terms) := by
    rw [List.getElem?_zipWith, hq, hg]
  unfold productsMv
  rw [zipWith_set _ hg, exactMv_append, exactMv_cons, exactMv_nil, add_zero, add_mul]
  exact sum_set_add _ hentry

omit [OrderedScalar K] in
theorem countTerms_set {qs : List (Polynomial K)} {i : ℕ} {q : Polynomial K} {v : Term K}
    (hq : qs[i]? = some q) :
    countTerms (qs.set i { q with terms := q.terms ++ [v] }) = countTerms qs + 1 := by
  have hentry : (qs.map fun q => q.terms.length)[i]? = some q.terms.length := by
    rw [List.getElem?_map, hq, Option.map_some]
  unfold countTerms
  rw [List.map_set, List.length_append]
  exact sum_set_add _ hentry

section Rounds

variable (hD : ∀ d ∈ D, d.Fits n o) (hs : Coherent n o D ⟨t :: rest, known⟩)
include hD hs

/-- A round keeps the value, up to the terms that it drops. The leading terms cancel exactly, since
the leading coefficient of the divisor is not zero. -/
theorem Round.exactValue_eq (horder : p.order = o)
    (hlead : ∀ g ∈ D, ∀ c, g.leadingCoeff = .ok c → c ≠ 0) (h : Round p D t rest known s) :
    exactValue n D ⟨t :: rest, known⟩ = exactValue n D s + exactMv n (roundDrops p D t rest) := by
  cases h with
  | retired hfirst hpush =>
    obtain ⟨-, rfl⟩ := Polynomial.pushTrailing_eq_ok_iff.mp hpush
    rw [roundDrops_of_retired hfirst]
    simp only [exactValue, exactMv_cons, exactMv_append, exactMv_nil]
    ring
  | @cancelled i g q q' lead m tail hfirst hg hq hgl hdiv htail hmerge hpush =>
    obtain ⟨-, rfl⟩ := Polynomial.pushTrailing_eq_ok_iff.mp hpush
    have hgD : g ∈ D := List.mem_of_getElem? hg
    have hgfits := hD g hgD
    obtain ⟨gs, hgs⟩ := Polynomial.leadingTerm_eq_ok_iff.mp hgl
    have hc : lead.coeff ≠ 0 := hlead g hgD lead.coeff (bind_of_eq_ok hgl _)
    have harity := hs.rest_ofArity
    obtain ⟨htaila, htaild, -⟩ := below_tail hgfits harity.head hgl hdiv htail
    have hexps := Monomial.exps_div_add harity.head hdiv
    -- the multiple of the leading term is the term that is cancelled
    have hhead : MvPolynomial.monomial (m.exps n) (t.coeff / lead.coeff) *
        MvPolynomial.monomial (lead.monomial.exps n) lead.coeff =
          MvPolynomial.monomial (t.monomial.exps n) t.coeff := by
      rw [MvPolynomial.monomial_mul, hexps, div_mul_cancel₀ _ hc]
    have htailMv : exactMv n tail =
        -(MvPolynomial.monomial (m.exps n) (t.coeff / lead.coeff) * exactMv n gs) := by
      rw [hgs, List.tail_cons] at htail
      have hgsa : OfArity n gs := OfArity.tail (hgs ▸ hgfits.ofArity)
      rw [htail.exactMv_eq hgsa fun x => (neg_mul _ x).symm, ← neg_mul, map_neg]
    have hmerged := Polynomial.exactMv_merge (ε := p.epsilon) harity.tail htaila
      hs.rest_descending.tail htaild
    rw [roundDrops_of_cancelled hfirst hg hgl hdiv htail]
    simp only [exactValue]
    rw [productsMv_set hq hg, exactMv_cons, hgs, exactMv_cons, mul_add, hhead, horder]
    calc MvPolynomial.monomial (t.monomial.exps n) t.coeff + exactMv n rest +
          productsMv n known.quotients D + exactMv n known.remainder.terms
        = (exactMv n rest + exactMv n tail) + (productsMv n known.quotients D +
            (MvPolynomial.monomial (t.monomial.exps n) t.coeff +
              MvPolynomial.monomial (m.exps n) (t.coeff / lead.coeff) * exactMv n gs)) +
            exactMv n known.remainder.terms := by rw [htailMv]; ring
      _ = _ := by rw [← hmerged]; ring

/-- A round drops a coefficient below the threshold for the term that it adds to a quotient. -/
theorem Round.abs_coeff_le (hε : 0 ≤ p.epsilon) (h : Round p D t rest known s)
    (e : Fin n →₀ ℕ) :
    |(exactMv n (roundDrops p D t rest)).coeff e| + countTerms known.quotients * p.epsilon ≤
      countTerms s.result.quotients * p.epsilon := by
  cases h with
  | retired hfirst hpush =>
    rw [roundDrops_of_retired hfirst, exactMv_nil, MvPolynomial.coeff_zero, abs_zero, zero_add]
  | @cancelled i g q q' lead m tail hfirst hg hq hgl hdiv htail hmerge hpush =>
    obtain ⟨-, rfl⟩ := Polynomial.pushTrailing_eq_ok_iff.mp hpush
    obtain ⟨htaila, htaild, -⟩ :=
      below_tail (hD g (List.mem_of_getElem? hg)) hs.rest_ofArity.head hgl hdiv htail
    rw [roundDrops_of_cancelled hfirst hg hgl hdiv htail]
    show _ ≤ (countTerms (known.quotients.set i _) : K) * p.epsilon
    rw [countTerms_set hq, Nat.cast_add, Nat.cast_one, add_mul, one_mul, add_comm]
    exact add_le_add_right (Polynomial.abs_coeff_mergeDrops_le hε htaila htaild e) _

end Rounds

/-! ## The run -/

/-- The value at the start of a run is the value at its end together with what was dropped. That is,
at each monomial, no more than the threshold for each term which the run adds to a quotient. -/
theorem droppedTerms_of_run (hp : p.Fits n o) (hD : ∀ g ∈ D, g.Fits n o) (hε : 0 ≤ p.epsilon)
    (hlead : ∀ g ∈ D, ∀ c, g.leadingCoeff = .ok c → c ≠ 0) (hs : Coherent n o D s)
    (h : run p D rounds s = .ok d) :
    exactValue n D s = exactValue n D ⟨[], d⟩ + exactMv n (droppedTerms p D rounds s) ∧
      ∀ e, |(exactMv n (droppedTerms p D rounds s)).coeff e| +
        countTerms s.result.quotients * p.epsilon ≤ countTerms d.quotients * p.epsilon := by
  induction rounds generalizing s with
  | zero =>
    obtain ⟨_ | ⟨t, rest⟩, known⟩ := s
    · rw [run_nil] at h
      obtain rfl := Except.ok.inj h
      simp [droppedTerms]
    · cases h
  | succ rounds ih =>
    obtain ⟨_ | ⟨t, rest⟩, known⟩ := s
    · rw [run_nil] at h
      obtain rfl := Except.ok.inj h
      simp [droppedTerms]
    · obtain ⟨s', hround, hrun⟩ := run_cons_eq_ok_iff.mp h
      obtain ⟨hvalue, hbound⟩ := ih (hs.round hp hD hround) hrun
      rw [droppedTerms, advance_eq_ok_iff.mpr hround, exactMv_append]
      constructor
      · rw [hround.exactValue_eq hD hs hp.order_eq hlead, hvalue]
        ring
      · intro e
        have hfirst := hround.abs_coeff_le hD hs hε e
        have hlater := hbound e
        have htriangle := abs_add_le ((exactMv n (roundDrops p D t rest)).coeff e)
          ((exactMv n (droppedTerms p D rounds s')).coeff e)
        rw [MvPolynomial.coeff_add]
        linarith

end PartialDivision

open PartialDivision

namespace Polynomial

variable [OrderedScalar K] {p : Polynomial K} {D : List (Polynomial K)} {d : Division K}

/-! ## The division identity -/

/-- What the division identity lacks: the dividend less the products of quotients and divisors and
less the remainder, as polynomials of algebra. -/
noncomputable def divisionError (n : ℕ) (p : Polynomial K) (D : List (Polynomial K))
    (d : Division K) : MvPolynomial (Fin n) K :=
  exactMv n p.terms - productsMv n d.quotients D - exactMv n d.remainder.terms

/-- What is known of the error of a division. -/
structure HasBoundedError (n : ℕ) (p : Polynomial K) (D : List (Polynomial K)) (d : Division K) :
    Prop where
  /-- It consists of what the merges dropped. -/
  eq_dropped : divisionError n p D d =
    exactMv n (droppedTerms p D (Monomial.count n) (start p D))
  /-- At each monomial it is no more than the threshold for each term of a quotient. -/
  abs_coeff_le : ∀ e, |(divisionError n p D d).coeff e| ≤ countTerms d.quotients * p.epsilon
  /-- If the dropped coefficients are zero, there is none. -/
  eq_zero : (∀ t ∈ droppedTerms p D (Monomial.count n) (start p D), t.coeff = 0) →
    divisionError n p D d = 0

theorem exactMv_eq_zero {ts : List (Term K)} (h : ∀ t ∈ ts, t.coeff = 0) : exactMv n ts = 0 := by
  induction ts with
  | nil => rfl
  | cons t ts ih =>
    obtain ⟨ht, hts⟩ := List.forall_mem_cons.mp h
    rw [exactMv_cons, ht, MvPolynomial.monomial_zero, ih hts, add_zero]

/-- The value at the start is that of the dividend. -/
theorem exactValue_start (n : ℕ) (p : Polynomial K) (D : List (Polynomial K)) :
    exactValue n D (start p D) = exactMv n p.terms := by
  have hproducts : productsMv n (List.replicate D.length p.cleared) D = 0 := by
    induction D with
    | nil => rfl
    | cons g D ih =>
      unfold productsMv at ih ⊢
      rw [List.length_cons, List.replicate_succ, List.zipWith_cons_cons, List.sum_cons, ih,
        cleared, exactMv_nil, zero_mul, add_zero]
  show exactMv n p.terms + productsMv n (List.replicate D.length p.cleared) D + 0 = _
  rw [hproducts, add_zero, add_zero]

omit [OrderedScalar K] in
theorem countTerms_start [Scalar K] (p : Polynomial K) (D : List (Polynomial K)) :
    countTerms (start p D).result.quotients = 0 := by
  simp [start, trivialDivision, countTerms, cleared]

/-- Over an ordered field a division satisfies the division identity up to a bounded error, unless
an exponent overflows. Divisors may be zero, but not their leading coefficients. -/
theorem hasBoundedError_divide (hp : p.Fits n o) (hD : ∀ g ∈ D, g.Fits n o) (hε : 0 ≤ p.epsilon)
    (hlead : ∀ g ∈ D, ∀ c, g.leadingCoeff = .ok c → c ≠ 0) :
    OverflowOnly (p.divide D) ∧ ∀ d, p.divide D = .ok d → HasBoundedError n p D d := by
  refine ⟨overflowOnly_divide hp hD, fun d h => ?_⟩
  have hrun := (divide_eq_ok_iff.mp h).2
  rw [hp.arity_eq] at hrun
  obtain ⟨hvalue, hbound⟩ := droppedTerms_of_run hp hD hε hlead (coherent_trivialDivision hp) hrun
  have herror : divisionError n p D d =
      exactMv n (droppedTerms p D (Monomial.count n) (start p D)) := by
    have hstart : exactMv n p.terms = 0 + productsMv n d.quotients D +
        exactMv n d.remainder.terms +
          exactMv n (droppedTerms p D (Monomial.count n) (start p D)) :=
      (exactValue_start n p D).symm.trans hvalue
    unfold divisionError
    rw [hstart]
    ring
  constructor
  case eq_dropped => exact herror
  case abs_coeff_le =>
    intro e
    have hle := hbound e
    have hnone : countTerms (p.trivialDivision D).quotients = 0 := countTerms_start p D
    rw [hnone, Nat.cast_zero, zero_mul, add_zero] at hle
    rw [herror]
    exact hle
  case eq_zero =>
    intro hzero
    rw [herror]
    exact exactMv_eq_zero hzero

/-- The dividend `x / 100`. -/
def smallMultiple : Polynomial ℚ := ⟨1, .lex, 1 / 10000, [⟨⟨[1]⟩, 1 / 100⟩]⟩

/-- The zero polynomial and `1000 x + 1`. -/
def steepDivisors : List (Polynomial ℚ) :=
  [⟨1, .lex, 1 / 10000, []⟩, ⟨1, .lex, 1 / 10000, [⟨⟨[1]⟩, 1000⟩, ⟨⟨[0]⟩, 1⟩]⟩]

/-- The quotient is `1 / 100000`, the remainder zero, and the coefficient `-1 / 100000` is
dropped. -/
theorem hasBoundedError_smallMultiple : smallMultiple.Fits 1 .lex ∧
    (∀ g ∈ steepDivisors, g.Fits 1 .lex) ∧ 0 < smallMultiple.epsilon ∧
      (∀ g ∈ steepDivisors, ∀ c, g.leadingCoeff = .ok c → c ≠ 0) ∧
        ∃ d, smallMultiple.divide steepDivisors = .ok d ∧ d.remainder.isZero = true ∧
          countTerms d.quotients = 1 ∧
            (droppedTerms smallMultiple steepDivisors (Monomial.count 1)
              (start smallMultiple steepDivisors)).map Term.coeff = [-1 / 100000] ∧
              HasBoundedError 1 smallMultiple steepDivisors d := by
  have hp : smallMultiple.Fits 1 .lex := by decide
  have hD : ∀ g ∈ steepDivisors, g.Fits 1 .lex := by decide
  have hε : 0 < smallMultiple.epsilon := by decide +kernel
  have hlead : ∀ g ∈ steepDivisors, ∀ c, g.leadingCoeff = .ok c → c ≠ 0 := by
    refine List.forall_mem_cons.mpr ⟨fun c hc => ?_, List.forall_mem_singleton.mpr fun c hc => ?_⟩
    · cases hc
    · obtain rfl := Except.ok.inj hc
      decide +kernel
  have hrun : (smallMultiple.divide steepDivisors).map
      (fun d => (d.remainder.isZero, countTerms d.quotients)) = .ok (true, 1) := by decide +kernel
  have hdropped : (droppedTerms smallMultiple steepDivisors (Monomial.count 1)
      (start smallMultiple steepDivisors)).map Term.coeff = [-1 / 100000] := by decide +kernel
  obtain ⟨d, hd, hcount⟩ := map_eq_ok_iff.mp hrun
  obtain ⟨hz, hone⟩ := Prod.mk.inj hcount
  exact ⟨hp, hD, hε, hlead, d, hd, hz, hone, hdropped,
    (hasBoundedError_divide hp hD hε.le hlead).2 d hd⟩

end Polynomial

end PolyIdeal
