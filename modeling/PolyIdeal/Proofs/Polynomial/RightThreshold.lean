import PolyIdeal.Division
import PolyIdeal.Proofs.Polynomial.Coefficients
import PolyIdeal.Scalar.Rational

/-!
# The threshold of the right operand

Operations on two polynomials are relative to the threshold of the left one. Two runs are compared
here, in which the right operands have the same terms under different thresholds (`rethreshold`).
Sums, differences, products and divisions do not look at the right threshold at all, so the two
runs are the same, faults included.

An S-polynomial is different. The second lifted copy is a multiple of the right operand, and a
multiple drops terms at the threshold of the polynomial it is a multiple of. The two runs can part
at the terms of this copy that one threshold keeps and the other drops (`Disputed`), and the results
are equal exactly if subtracting any of these terms leaves the coefficient of the first copy as it
is. Nothing is asked of the coefficients.
-/

namespace PolyIdeal

namespace Polynomial

variable {K : Type} {n : ℕ} {o : TermOrder} {p q r r' : Polynomial K} {ε : K}
  {D E : List (Polynomial K)}

/-- The same terms under another threshold. Nothing is dropped. -/
def rethreshold (ε : K) (p : Polynomial K) : Polynomial K := { p with epsilon := ε }

theorem Fits.rethreshold (hp : p.Fits n o) (ε : K) : (p.rethreshold ε).Fits n o :=
  ⟨hp.arity_eq, hp.order_eq, hp.ofArity, hp.descending⟩

theorem leadingTerm_rethreshold (ε : K) (p : Polynomial K) :
    (p.rethreshold ε).leadingTerm = p.leadingTerm := rfl

theorem firstDivisor?_map_rethreshold (ε : K) (D : List (Polynomial K)) (m : Monomial) :
    firstDivisor? (D.map (rethreshold ε)) m = firstDivisor? D m := List.findIdx?_map

end Polynomial

open PolyIdeal.Polynomial

variable {K : Type} [Scalar K] {n : ℕ} {o : TermOrder} {p q r r' : Polynomial K} {ε : K}
  {D E : List (Polynomial K)}

/-! ## Divisions -/

namespace PartialDivision

theorem cancel_map_rethreshold (i : ℕ) (t : Term K) (rest : List (Term K)) (known : Division K) :
    cancel p (D.map (rethreshold ε)) i t rest known = cancel p D i t rest known := by
  unfold cancel
  rw [List.getElem?_map, List.length_map]
  cases D[i]? with
  | none => rfl
  | some d =>
    cases known.quotients[i]? with
    | none => rfl
    | some q => rfl

theorem advance_map_rethreshold (t : Term K) (rest : List (Term K)) (known : Division K) :
    advance p (D.map (rethreshold ε)) t rest known = advance p D t rest known := by
  unfold advance
  rw [firstDivisor?_map_rethreshold]
  cases firstDivisor? D t.monomial with
  | none => rfl
  | some i => exact cancel_map_rethreshold i t rest known

/-- No round of a division looks at the threshold of a divisor. -/
theorem run_map_rethreshold (rounds : ℕ) (s : PartialDivision K) :
    run p (D.map (rethreshold ε)) rounds s = run p D rounds s := by
  induction rounds generalizing s with
  | zero =>
    obtain ⟨_ | ⟨t, rest⟩, known⟩ := s
    · rfl
    · rfl
  | succ rounds ih =>
    obtain ⟨_ | ⟨t, rest⟩, known⟩ := s
    · rfl
    · rw [run, run, advance_map_rethreshold]
      exact bind_congr fun s => ih s

end PartialDivision

namespace Polynomial

theorem divide_map_rethreshold (ε : K) (p : Polynomial K) (D : List (Polynomial K)) :
    p.divide (D.map (rethreshold ε)) = p.divide D := by
  have hcheck : (D.map (rethreshold ε)).forM (fun d => p.checkCompatible d) =
      D.forM fun d => p.checkCompatible d := List.forM_map
  unfold divide trivialDivision
  rw [hcheck, List.length_map]
  simp only [PartialDivision.run_map_rethreshold]

theorem divide_rethreshold : p.divide (D ++ q.rethreshold ε :: E) = p.divide (D ++ q :: E) := by
  rw [← divide_map_rethreshold ε p (D ++ q.rethreshold ε :: E),
    ← divide_map_rethreshold ε p (D ++ q :: E), List.map_append, List.map_append, List.map_cons,
    List.map_cons]
  rfl

/-! ## S-polynomials -/

/-- Adding `c` leaves a coefficient, or its absence, as it is. -/
def Absorbs (ε : K) (a : Option K) (c : K) : Prop := mergeCoeff ε a (some c) = a

instance [DecidableEq K] (ε : K) (a : Option K) (c : K) : Decidable (Absorbs ε a c) :=
  inferInstanceAs (Decidable (mergeCoeff ε a (some c) = a))

/-- The multiple of `q` by `c * u` has the term `v` before insignificant terms are dropped, and the
threshold of `q` and `ε` disagree about `v`. -/
def Disputed (q : Polynomial K) (ε : K) (u : Monomial) (c : K) (v : Term K) : Prop :=
  ∃ t ∈ q.terms, t.monomial.mul u = .ok v.monomial ∧ v.coeff = t.coeff * c ∧
    Scalar.significant ε v.coeff ≠ Scalar.significant q.epsilon v.coeff

/-- Thresholds that agree on every product drop the same terms of a multiple. -/
theorem mulTerm_rethreshold {u : Monomial} {c : K}
    (h : ∀ t ∈ q.terms, Scalar.significant ε (t.coeff * c) =
      Scalar.significant q.epsilon (t.coeff * c)) :
    (q.rethreshold ε).mulTerm u c = rethreshold ε <$> q.mulTerm u c := by
  unfold mulTerm rethreshold
  simp only [List.filter_congr h, map_bind, map_pure]

/-- If the thresholds agree on the second lifted copy, there is no difference. -/
theorem sPolynomial_rethreshold (h : ∀ lead, q.leadingTerm = .ok lead → ∀ t ∈ q.terms,
      Scalar.significant ε (t.coeff * Scalar.reciprocal lead.coeff) =
        Scalar.significant q.epsilon (t.coeff * Scalar.reciprocal lead.coeff)) :
    p.sPolynomial (q.rethreshold ε) = p.sPolynomial q := by
  unfold sPolynomial
  rw [leadingTerm_rethreshold]
  refine bind_congr fun _ => bind_congr fun leadF => ?_
  cases hq : q.leadingTerm with
  | error e => rfl
  | ok leadG =>
    rw [bind_of_eq_ok rfl, bind_of_eq_ok rfl]
    refine bind_congr fun m => bind_congr fun left => ?_
    -- the second copy is the same but for its threshold, which is not looked at again
    unfold liftedTo
    simp only [mulTerm_rethreshold (h leadG hq), bind_assoc, bind_map_left]
    rfl

/-- Whether a term is subtracted makes no difference exactly if it is absorbed. -/
theorem mergeCoeff_filter_eq_iff {keep keep' : K → Bool} {a : Option K} {c : K} :
    mergeCoeff ε a (((some c).filter keep').map (· * -1)) =
        mergeCoeff ε a (((some c).filter keep).map (· * -1)) ↔
      (keep' c ≠ keep c → Absorbs ε a (c * -1)) := by
  rw [Option.filter_some, Option.filter_some, Absorbs]
  cases keep' c with
  | false =>
    cases keep c with
    | false => simp
    | true => simp [eq_comm]
  | true =>
    cases keep c with
    | false => simp
    | true => simp

/-- Subtracting multiples under two thresholds gives the same exactly if what is subtracted from
absorbs all terms in dispute. -/
theorem sub_mulTerm_rethreshold_iff {left right right' : Polynomial K} {u : Monomial} {c : K}
    (hl : left.Fits n o) (hq : q.Fits n o) (hmul : q.mulTerm u c = .ok right)
    (hmul' : (q.rethreshold ε).mulTerm u c = .ok right') (hr : left.addScaled right (-1) = .ok r)
    (hr' : left.addScaled right' (-1) = .ok r') : r' = r ↔ ∀ v, Disputed q ε u c v →
      Absorbs left.epsilon (coeffAt left.terms v.monomial) (v.coeff * -1) := by
  have hright := hq.mulTerm hmul
  have hright' := (hq.rethreshold ε).mulTerm hmul'
  have hcoeff := coeffAt_addScaled hl hright hr
  have hcoeff' := coeffAt_addScaled hl hright' hr'
  -- at a shifted monomial of `q` each multiple has what its threshold lets through
  have hat : ∀ t ∈ q.terms, ∀ m, t.monomial.mul u = .ok m →
      (coeffAt r'.terms m = coeffAt r.terms m ↔
        (Scalar.significant ε (t.coeff * c) ≠ Scalar.significant q.epsilon (t.coeff * c) →
          Absorbs left.epsilon (coeffAt left.terms m) (t.coeff * c * -1))) := by
    intro t ht m hm
    have hta := hq.ofArity t ht
    have htc : coeffAt q.terms t.monomial = some t.coeff :=
      coeffAt_of_mem hq.ofArity hq.descending ht
    have htc' : coeffAt (q.rethreshold ε).terms t.monomial = some t.coeff := htc
    rw [hcoeff, hcoeff', coeffAt_mulTerm hq hmul hta hm,
      coeffAt_mulTerm (hq.rethreshold ε) hmul' hta hm, htc, htc']
    exact mergeCoeff_filter_eq_iff
  constructor
  · rintro rfl v ⟨t, ht, hm, hv, hdispute⟩
    rw [hv] at hdispute ⊢
    exact (hat t ht v.monomial hm).mp rfl hdispute
  · intro h
    refine (hl.addScaled hright' hr').eq_of_coeffAt_eq (hl.addScaled hright hr)
      ((epsilon_addScaled hr').trans (epsilon_addScaled hr).symm) fun m => ?_
    by_cases hm : ∃ t ∈ q.terms, t.monomial.mul u = .ok m
    · obtain ⟨t, ht, hm⟩ := hm
      exact (hat t ht m hm).mpr fun hdispute => h ⟨m, t.coeff * c⟩ ⟨t, ht, hm, rfl, hdispute⟩
    · -- neither multiple has a term here
      have hnone : coeffAt right.terms m = none :=
        not_not.mp (mt (exists_of_coeffAt_mulTerm hmul) hm)
      have hnone' : coeffAt right'.terms m = none :=
        not_not.mp (mt (exists_of_coeffAt_mulTerm hmul') hm)
      rw [hcoeff, hcoeff', hnone, hnone']

/-- An S-polynomial of which everything but the second copy is known. -/
theorem sPolynomial_eq_bind {t u : Term K} {m v : Monomial} {left : Polynomial K}
    (hpq : p.checkCompatible q = .ok ()) (ht : p.leadingTerm = .ok t)
    (hu : q.leadingTerm = .ok u) (hm : t.monomial.lcm u.monomial = .ok m)
    (hleft : p.liftedTo m t = .ok left) (hv : m.div u.monomial = .ok v) :
    p.sPolynomial q = (do left.addScaled (← q.mulTerm v (Scalar.reciprocal u.coeff)) (-1)) := by
  unfold sPolynomial
  rw [bind_of_eq_ok hpq, bind_of_eq_ok ht, bind_of_eq_ok hu, bind_of_eq_ok hm,
    bind_of_eq_ok hleft, liftedTo, bind_of_eq_ok hv]

/-- What the threshold `ε` in the place of that of the right operand `q` does to the operations on
`p` and `q`. -/
structure RightThreshold (p q : Polynomial K) (ε : K) : Prop where
  /-- Sums, differences and products are the same, -/
  addScaled : ∀ s, p.addScaled (q.rethreshold ε) s = p.addScaled q s
  add : p.add (q.rethreshold ε) = p.add q
  sub : p.sub (q.rethreshold ε) = p.sub q
  mul : p.mul (q.rethreshold ε) = p.mul q
  /-- and so are divisions with `q` among the divisors, -/
  divide : ∀ D E, p.divide (D ++ q.rethreshold ε :: E) = p.divide (D ++ q :: E)
  /-- and S-polynomials, if the thresholds agree on `q` over its leading coefficient. -/
  sPolynomial : (∀ lead, q.leadingTerm = .ok lead → ∀ t ∈ q.terms,
      Scalar.significant ε (t.coeff * Scalar.reciprocal lead.coeff) =
        Scalar.significant q.epsilon (t.coeff * Scalar.reciprocal lead.coeff)) →
    p.sPolynomial (q.rethreshold ε) = p.sPolynomial q
  /-- Two S-polynomials are equal exactly if the first lifted copy absorbs all terms in dispute. -/
  sPolynomial_eq_iff : ∀ n o, p.Fits n o → q.Fits n o →
    ∀ t u m v left r r', p.leadingTerm = .ok t → q.leadingTerm = .ok u →
    t.monomial.lcm u.monomial = .ok m → p.liftedTo m t = .ok left →
    m.div u.monomial = .ok v → p.sPolynomial q = .ok r →
    p.sPolynomial (q.rethreshold ε) = .ok r' →
      (r' = r ↔ ∀ w, Disputed q ε v (Scalar.reciprocal u.coeff) w →
        Absorbs p.epsilon (coeffAt left.terms w.monomial) (w.coeff * -1))

/-- Of the operations on two polynomials the S-polynomial alone depends on the threshold of the
right one. -/
theorem rightThreshold (p q : Polynomial K) (ε : K) : RightThreshold p q ε where
  addScaled _ := rfl
  add := rfl
  sub := rfl
  mul := rfl
  divide _ _ := divide_rethreshold
  sPolynomial := sPolynomial_rethreshold
  sPolynomial_eq_iff n o hp hq t u m v left r r' ht hu hm hleft hv h h' := by
    have hpq := hp.checkCompatible hq
    have hpq' := hp.checkCompatible (hq.rethreshold ε)
    rw [sPolynomial_eq_bind hpq ht hu hm hleft hv] at h
    rw [sPolynomial_eq_bind hpq' ht hu hm hleft hv] at h'
    obtain ⟨right, hright, hr⟩ := bind_eq_ok_iff.mp h
    obtain ⟨right', hright', hr'⟩ := bind_eq_ok_iff.mp h'
    obtain ⟨_, -, hlift⟩ := liftedTo_eq_ok_iff.mp hleft
    rw [← epsilon_mulTerm hlift]
    exact sub_mulTerm_rethreshold_iff (hp.liftedTo hleft) hq hright hright' hr hr'

/-- The S-polynomial of `x` and `4 x + 2 y` is a multiple of `y`. At the threshold two the second
operand keeps its terms, but its lifted copy `x + y / 2` loses both, and the S-polynomial is `x`. -/
theorem not_sPolynomial_rethreshold : ∃ p q r r' : Polynomial Rat,
    q.withEpsilon 2 = q.rethreshold 2 ∧ p.sPolynomial q = .ok r ∧
      p.sPolynomial (q.rethreshold 2) = .ok r' ∧ r.support = [⟨[0, 1]⟩] ∧
        r'.support = [⟨[1, 0]⟩] ∧ r' ≠ r := by
  let p : Polynomial Rat := ofTerm ⟨[1, 0]⟩ 1 .lex
  let q : Polynomial Rat := ⟨2, .lex, 1 / 10000, [⟨⟨[1, 0]⟩, 4⟩, ⟨⟨[0, 1]⟩, 2⟩]⟩
  have hp : p.Fits 2 .lex := by decide +kernel
  have hq : q.Fits 2 .lex := by decide +kernel
  have hleft : (p.liftedTo ⟨[1, 0]⟩ ⟨⟨[1, 0]⟩, 1⟩).map
      (fun left => coeffAt left.terms ⟨[1, 0]⟩) = .ok (some 1) := by decide +kernel
  have hrun : (p.sPolynomial q).map support = .ok [⟨[0, 1]⟩] := by decide +kernel
  have hrun' : (p.sPolynomial (q.rethreshold 2)).map support = .ok [⟨[1, 0]⟩] := by
    decide +kernel
  obtain ⟨left, hleft, hcoeff⟩ := map_eq_ok_iff.mp hleft
  obtain ⟨r, hr, hsupport⟩ := map_eq_ok_iff.mp hrun
  obtain ⟨r', hr', hsupport'⟩ := map_eq_ok_iff.mp hrun'
  refine ⟨p, q, r, r', rfl, hr, hr', hsupport, hsupport', fun heq => ?_⟩
  -- the leading term of the lifted copy is in dispute
  have hdispute : Disputed q 2 ⟨[0, 0]⟩ (Scalar.reciprocal 4) ⟨⟨[1, 0]⟩, 1⟩ :=
    ⟨⟨⟨[1, 0]⟩, 4⟩, List.mem_cons_self, rfl, by decide +kernel, by decide +kernel⟩
  have habsorbs := ((rightThreshold p q 2).sPolynomial_eq_iff 2 .lex hp hq _ _ _ _ _ _ _ rfl rfl
    rfl hleft rfl hr hr').mp heq _ hdispute
  rw [hcoeff] at habsorbs
  exact absurd habsorbs (by decide +kernel)

end Polynomial
end PolyIdeal
