import PolyIdeal.Proofs.Division.Totality
import PolyIdeal.Proofs.Polynomial.Degrees

/-!
# Degrees in a division

Under a graded order a division raises no degree. A divisor is subtracted when its leading monomial
divides the term at hand, and none of its terms, shifted accordingly, has a larger degree than that
term. So the degree of the dividend bounds all that is left, all that is retired and all factors
times the leading monomials they belong to: `Within` is kept by every round. If that degree is in
range then no round overflows. The degrees of the divisors do not matter, since a divisor that
is used has no larger degree than the dividend.
-/

namespace PolyIdeal

open PolyIdeal.Polynomial

variable {K : Type} {n N : ℕ} {o : TermOrder} {p : Polynomial K} {D : List (Polynomial K)}

/-- Comparing a new term with the last one stays in range. -/
theorem Polynomial.inRange_pushTrailing {t : Term K} (hp : Rankable p.order p.terms)
    (ht : p.order.canRank t.monomial = true) : InRange (p.pushTrailing t) := by
  unfold pushTrailing
  cases hlast : p.terms.getLast? with
  | none => exact .of_eq_ok rfl
  | some u =>
    have hu := hp u (List.mem_of_getLast? hlast)
    simp only
    rw [bind_of_eq_ok (TermOrder.compare_eq_ok hu ht)]
    split
    · exact .of_eq_ok rfl
    · exact .of_eq_error rfl Fault.noConfusion

namespace PartialDivision

/-- No degree is above `N`, and neither is that of a factor times a leading monomial. -/
structure Within (N : ℕ) (D : List (Polynomial K)) (s : PartialDivision K) : Prop where
  rest : DegreeLE N s.rest
  remainder : DegreeLE N s.result.remainder.terms
  quotient : ∀ {i : ℕ} {d q : Polynomial K} {lead : Term K}, D[i]? = some d →
    s.result.quotients[i]? = some q → d.leadingTerm = .ok lead → ∀ u ∈ q.terms,
      u.monomial.degree + lead.monomial.degree ≤ N

variable {t lead : Term K} {m : Monomial} {d : Polynomial K} {rest tail : List (Term K)}
  {known : Division K} {s : PartialDivision K}

/-- A divisor brings in nothing of a larger degree than the term it cancels. -/
theorem degreeLE_tail (ho : o.isGraded = true) (hd : d.Fits n o) (ht : t.monomial.arity = n)
    (hlead : d.leadingTerm = .ok lead) (hdiv : t.monomial.div lead.monomial = .ok m)
    {f : K → K} (htail : Shifted m f d.terms.tail tail) : DegreeLE t.monomial.degree tail := by
  obtain ⟨hta, -, hbelow⟩ := below_tail hd ht hlead hdiv htail
  exact .of_below ho hta ht hbelow

theorem within_trivialDivision (p : Polynomial K) (D : List (Polynomial K)) :
    Within p.degree D ⟨p.terms, p.trivialDivision D⟩ where
  rest := p.degreeLE_degree
  remainder _ hu := absurd hu List.not_mem_nil
  quotient _ hq _ u hu := by
    rw [List.eq_of_mem_replicate (List.mem_of_getElem? hq)] at hu
    exact absurd hu List.not_mem_nil

variable [Scalar K]

section Rounds

variable (ho : o.isGraded = true) (hD : ∀ d ∈ D, d.Fits n o)
include ho hD

/-- A round keeps all degrees within the bound. -/
theorem Within.round (hs : Within N D ⟨t :: rest, known⟩) (hta : t.monomial.arity = n)
    (h : Round p D t rest known s) : Within N D s := by
  have ht := hs.rest t List.mem_cons_self
  have hrest : DegreeLE N rest := fun u hu => hs.rest u (List.mem_cons_of_mem t hu)
  cases h with
  | retired hfirst hpush =>
    obtain ⟨-, rfl⟩ := pushTrailing_eq_ok_iff.mp hpush
    exact ⟨hrest, List.forall_mem_append.mpr ⟨hs.remainder, List.forall_mem_singleton.mpr ht⟩,
      hs.quotient⟩
  | @cancelled i d q q' lead m tail hfirst hd hq hlead hdiv htail hmerge hpush =>
    obtain ⟨-, rfl⟩ := pushTrailing_eq_ok_iff.mp hpush
    have htaildeg := degreeLE_tail ho (hD d (List.mem_of_getElem? hd)) hta hlead hdiv htail
    refine ⟨degreeLE_merge hrest (htaildeg.mono ht), hs.remainder, ?_⟩
    intro j d' q'' lead' hd' hq'' hlead' u hu
    by_cases hij : i = j
    · subst hij
      rw [List.getElem?_set_self (List.getElem?_eq_some_iff.mp hq).1, Option.some_inj] at hq''
      subst hq''
      rcases List.mem_append.mp hu with hu | hu
      · exact hs.quotient hd' hq hlead' u hu
      · -- the new factor, times the leading monomial, is the term that has been cancelled
        rw [hd, Option.some_inj] at hd'
        subst hd'
        rw [hlead, Except.ok.injEq] at hlead'
        subst hlead'
        rw [List.mem_singleton.mp hu, Monomial.degree_div_add hdiv]
        exact ht
    · rw [List.getElem?_set_ne hij] at hq''
      exact hs.quotient hd' hq'' hlead' u hu

/-- Within degrees of 32 bits a term can be cancelled. -/
theorem inRange_cancel {i : ℕ} (hs : Within N D ⟨t :: rest, known⟩) (hta : t.monomial.arity = n)
    (hN : N < UInt32.size) : InRange (cancel p D i t rest known) := by
  have ht := hs.rest t List.mem_cons_self
  have hrest : DegreeLE N rest := fun u hu => hs.rest u (List.mem_cons_of_mem t hu)
  unfold cancel
  cases hd : D[i]? with
  | none => exact .of_eq_error rfl Fault.noConfusion
  | some d =>
    cases hq : known.quotients[i]? with
    | none => exact .of_eq_error rfl Fault.noConfusion
    | some q =>
      have hdfits := hD d (List.mem_of_getElem? hd)
      refine d.inRange_leadingTerm.bind fun lead hlead => ?_
      refine (Monomial.inRange_div _ _).bind fun m hdiv => ?_
      have hma := (Monomial.arity_div hdiv).trans hta
      have hmdeg := Monomial.degree_div_add hdiv
      -- the products are no larger than the term that is cancelled
      have hfit : ProductsFit m d.terms.tail :=
        DegreeLE.productsFit (hdfits.ofArity.sublist (List.tail_sublist _)) hma
          (fun u hu => hdfits.degreeLE_lead ho hlead u (List.mem_of_mem_tail hu)) (by omega)
      refine InRange.bind (.mapM fun u hu => ?_) fun tail htail => ?_
      · obtain ⟨x, hx⟩ := hfit u hu
        rw [bind_of_eq_ok hx]
        exact .of_eq_ok rfl
      · have htaildeg := (degreeLE_tail ho hdfits hta hlead hdiv
          (cancellingTail_eq_ok_iff.mp htail)).mono ht
        have hqdeg : DegreeLE N q.terms := fun u hu =>
          (Nat.le_add_right _ _).trans (hs.quotient hd hq hlead u hu)
        have hmlt : m.degree < UInt32.size := by omega
        rw [bind_of_eq_ok (mergeTerms_of_degreeLE hrest htaildeg hN)]
        exact (inRange_pushTrailing (hqdeg.rankable hN)
          (TermOrder.canRank_of_degree_lt _ hmlt)).bind fun q' _ => .of_eq_ok rfl

/-- So a round does not overflow. -/
theorem inRange_advance (hs : Within N D ⟨t :: rest, known⟩) (hta : t.monomial.arity = n)
    (hN : N < UInt32.size) : InRange (advance p D t rest known) := by
  unfold advance
  split
  next i _ => exact inRange_cancel ho hD hs hta hN
  next =>
    have ht := (hs.rest t List.mem_cons_self).trans_lt hN
    exact (inRange_pushTrailing (hs.remainder.rankable hN)
      (TermOrder.canRank_of_degree_lt _ ht)).bind fun r _ => .of_eq_ok rfl

/-- Nor does a run. -/
theorem inRange_run (hp : p.Fits n o) (hN : N < UInt32.size) {rounds : ℕ}
    (hs : Within N D s) (hc : Coherent n o D s) : InRange (run p D rounds s) := by
  induction rounds generalizing s with
  | zero =>
    obtain ⟨_ | ⟨t, rest⟩, known⟩ := s
    · exact .of_eq_ok (run_nil _ known)
    · exact .of_eq_error rfl Fault.noConfusion
  | succ rounds ih =>
    obtain ⟨_ | ⟨t, rest⟩, known⟩ := s
    · exact .of_eq_ok (run_nil _ known)
    · rw [run]
      have hta := hc.rest_ofArity.head
      refine (inRange_advance ho hD hs hta hN).bind fun s' hs' => ?_
      have hround := advance_eq_ok_iff.mp hs'
      exact ih (hs.round ho hD hta hround) (hc.round hp hD hround)

end Rounds
end PartialDivision

open PartialDivision

namespace Polynomial

variable [Scalar K] (ho : o.isGraded = true) (hp : p.Fits n o)
include ho hp

/-- What a division returns is within the degree of the dividend. -/
theorem within_divide (hD : ∀ d ∈ D, d.Fits n o) {d : Division K} (h : p.divide D = .ok d) :
    Within p.degree D ⟨[], d⟩ := by
  refine (run_invariant (P := fun s => Within p.degree D s ∧ Coherent n o D s)
    (fun t rest known s hs hround => ⟨?_, hs.2.round hp hD hround⟩)
    ⟨within_trivialDivision p D, coherent_trivialDivision hp⟩ (divide_eq_ok_iff.mp h).2).1
  exact hs.1.round ho hD hs.2.rest_ofArity.head hround

/-- A dividend with a degree in range can be divided by whatever fits it. -/
theorem exists_divide (hD : ∀ d ∈ D, d.Fits n o) (hN : p.degree < UInt32.size) :
    ∃ d, p.divide D = .ok d := by
  have hcompat : ∀ d ∈ D, p.checkCompatible d = .ok () := fun d hd => hp.checkCompatible (hD d hd)
  refine InRange.exists_ok ?_ (overflowOnly_divide hp hD)
  rw [divide_eq_run hcompat]
  exact inRange_run ho hD hp hN (within_trivialDivision p D) (coherent_trivialDivision hp)

theorem staysWithin_remainder (hD : ∀ d ∈ D, d.Fits n o) (hN : p.degree < UInt32.size) :
    StaysWithin p.degree (p.remainder D) := by
  obtain ⟨d, hd⟩ := exists_divide ho hp hD hN
  exact .of_eq_ok (remainder_eq_ok_iff.mpr ⟨d, hd, rfl⟩) (within_divide ho hp hD hd).remainder

omit ho hp in
/-- What a division does to degrees. -/
structure DividesWithin (p : Polynomial K) (D : List (Polynomial K)) : Prop where
  /-- No exponent and no degree leaves the range, -/
  ne_overflow : p.divide D ≠ .error .exponentOverflow
  /-- and a division by polynomials of one arity and order with the dividend succeeds. -/
  exists_of_compatible : (∀ f ∈ D, p.checkCompatible f = .ok ()) → ∃ d, p.divide D = .ok d
  /-- No term of the remainder has a larger degree than the dividend, -/
  remainder_le : ∀ d, p.divide D = .ok d → ∀ t ∈ d.remainder.terms, t.monomial.degree ≤ p.degree
  /-- nor has a term of a quotient times the leading monomial of its divisor, and this product can
  be formed. -/
  quotient_le : ∀ d, p.divide D = .ok d → ∀ (i : ℕ) (f q : Polynomial K) (lead : Term K),
    D[i]? = some f → d.quotients[i]? = some q → f.leadingTerm = .ok lead → ∀ u ∈ q.terms,
      ∃ m, u.monomial.mul lead.monomial = .ok m ∧ m.degree ≤ p.degree

theorem dividesWithin (hD : ∀ f ∈ D, f.Fits f.arity f.order) (hN : p.degree < UInt32.size) :
    DividesWithin p D := by
  -- the divisors of a division that gets past the first check have the shape of the dividend
  have hfits : (∀ f ∈ D, p.checkCompatible f = .ok ()) → ∀ f ∈ D, f.Fits n o := by
    intro hcompat f hf
    obtain ⟨harity, horder⟩ := checkCompatible_eq_ok_iff.mp (hcompat f hf)
    rw [← hp.arity_eq, ← hp.order_eq, harity, horder]
    exact hD f hf
  have hexists : (∀ f ∈ D, p.checkCompatible f = .ok ()) → ∃ d, p.divide D = .ok d :=
    fun hcompat => exists_divide ho hp (hfits hcompat) hN
  constructor
  case ne_overflow =>
    have hcheck : InRange (D.forM fun f => p.checkCompatible f) :=
      .forM fun f _ => inRange_checkCompatible p f
    rw [divide_eq_bind]
    refine hcheck.bind fun _ hok => ?_
    have hcompat := forM_eq_ok_iff.mp hok
    rw [← divide_eq_run hcompat]
    exact .of_eq_ok (hexists hcompat).choose_spec
  case exists_of_compatible => exact hexists
  case remainder_le =>
    exact fun d h => (within_divide ho hp (hfits (divide_eq_ok_iff.mp h).1) h).remainder
  case quotient_le =>
    intro d h i f q lead hf hq hlead u hu
    have hall := hfits (divide_eq_ok_iff.mp h).1
    have hle := (within_divide ho hp hall h).quotient hf hq hlead u hu
    have hua := (hp.quotients hall h q (List.mem_of_getElem? hq)).ofArity u hu
    have hla := (hall f (List.mem_of_getElem? hf)).leadingTerm_arity hlead
    obtain ⟨m, hm⟩ := Monomial.exists_mul (hua.trans hla.symm) (hle.trans_lt hN)
    exact ⟨m, hm, (Monomial.degree_mul hm).trans_le hle⟩

end Polynomial
end PolyIdeal
