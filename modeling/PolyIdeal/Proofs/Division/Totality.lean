import Mathlib.Data.Fintype.BigOperators
import PolyIdeal.Proofs.Division.Rounds

/-!
# Division succeeds unless an exponent overflows

On operands of one shape a division ends, within the number of rounds it is given, and no check
on the way fails. `Coherent` is the invariant behind this: what is still to be divided ranks below
every term of the remainder, and below every term of a quotient times the leading monomial of its
divisor. Terms are therefore pushed in descending order.

Each round lowers the leading monomial of what is left. There are `Monomial.count n` monomials in
`n` variables, and `TermOrder.reach` counts those that can still come.
-/

namespace PolyIdeal

variable {K : Type} {n : ℕ} {o : TermOrder} {p : Polynomial K} {D : List (Polynomial K)}

/-- No set of vectors of words is larger than the number of monomials. -/
theorem Monomial.card_le_count (S : Finset (Fin n → Fin UInt32.size)) :
    S.card ≤ Monomial.count n := by
  refine (Finset.card_le_univ _).trans_eq ?_
  rw [Fintype.card_fun, Fintype.card_fin, Fintype.card_fin]
  rfl

/-! ## Counting monomials up to a rank -/

namespace TermOrder

/-- The rank of a vector of words. -/
noncomputable def rankWords (o : TermOrder) (n : ℕ) (w : Fin n → Fin UInt32.size) :
    (o.monomialOrder n).syn :=
  (o.monomialOrder n).toSyn (Monomial.ofWords w)

open Classical in
/-- The vectors of words whose rank is at most `B`. -/
noncomputable def reach (o : TermOrder) (n : ℕ) (B : (o.monomialOrder n).syn) :
    Finset (Fin n → Fin UInt32.size) :=
  Finset.univ.filter fun w => o.rankWords n w ≤ B

theorem mem_reach {B : (o.monomialOrder n).syn} {w : Fin n → Fin UInt32.size} :
    w ∈ o.reach n B ↔ o.rankWords n w ≤ B := by
  simp [reach]

/-- A smaller monomial has fewer monomials up to it. -/
theorem card_reach_lt {a b : Monomial} (h : o.rank n a < o.rank n b) :
    (o.reach n (o.rank n a)).card < (o.reach n (o.rank n b)).card := by
  refine Finset.card_lt_card ⟨fun w hw => ?_, fun hsub => ?_⟩
  · exact mem_reach.mpr ((mem_reach.mp hw).trans h.le)
  · have hb : b.words n ∈ o.reach n (o.rank n b) := mem_reach.mpr le_rfl
    exact (mem_reach.mp (hsub hb)).not_gt h

theorem card_reach_pos (o : TermOrder) (n : ℕ) (m : Monomial) :
    0 < (o.reach n (o.rank n m)).card :=
  Finset.card_pos.mpr ⟨m.words n, mem_reach.mpr le_rfl⟩

end TermOrder

open PolyIdeal.Polynomial

/-! ## The state of a division stays coherent -/

/-- A term that is smaller than the last one can be appended, unless it cannot be ranked. -/
theorem Polynomial.overflowOnly_pushTrailing {t : Term K}
    (h : ∀ u ∈ p.terms, p.order.cmp u.monomial t.monomial = .gt) :
    OverflowOnly (p.pushTrailing t) := by
  unfold pushTrailing
  cases hlast : p.terms.getLast? with
  | none => exact .of_eq_ok rfl
  | some u =>
    have hu := h u (List.mem_of_getLast? hlast)
    have hcmp : OverflowOnly (p.order.compare u.monomial t.monomial) := by
      unfold TermOrder.compare
      split
      · exact .of_eq_ok rfl
      · exact .error
    refine hcmp.bind fun r hr => ?_
    rw [← TermOrder.cmp_eq_of_compare hr, if_pos hu]
    exact .of_eq_ok rfl

/-- Appending a term below all others keeps the shape. -/
theorem Polynomial.Fits.pushTrailing {t : Term K} {q : Polynomial K} (hp : p.Fits n o)
    (ht : t.monomial.arity = n) (hbelow : ∀ u ∈ p.terms, o.rank n t.monomial < o.rank n u.monomial)
    (h : p.pushTrailing t = .ok q) : q.Fits n o := by
  obtain ⟨-, rfl⟩ := pushTrailing_eq_ok_iff.mp h
  refine ⟨hp.arity_eq, hp.order_eq, List.forall_mem_append.mpr ⟨hp.ofArity, ?_⟩, ?_⟩
  · exact List.forall_mem_singleton.mpr ht
  · refine List.pairwise_append.mpr ⟨hp.descending, List.pairwise_singleton _ _, ?_⟩
    intro u hu v hv
    rw [List.mem_singleton.mp hv]
    exact (TermOrder.cmp_eq_gt_iff o (hp.ofArity u hu) ht).mpr (hbelow u hu)

namespace PartialDivision

/-- What is left ranks below everything that has been put aside. -/
structure Coherent (n : ℕ) (o : TermOrder) (D : List (Polynomial K)) (s : PartialDivision K) :
    Prop where
  rest_ofArity : OfArity n s.rest
  rest_descending : Descending o s.rest
  remainder_fits : s.result.remainder.Fits n o
  remainder_above : ∀ u ∈ s.result.remainder.terms, Below o n (o.rank n u.monomial) s.rest
  length_quotients : s.result.quotients.length = D.length
  quotient_order : ∀ q ∈ s.result.quotients, q.order = o
  quotient_above : ∀ {i : ℕ} {d q : Polynomial K} {lead : Term K}, D[i]? = some d →
    s.result.quotients[i]? = some q → d.leadingTerm = .ok lead → ∀ u ∈ q.terms,
      u.monomial.arity = n ∧ Below o n (o.rank n u.monomial + o.rank n lead.monomial) s.rest

variable {t : Term K} {rest : List (Term K)} {known : Division K} {s : PartialDivision K}

theorem coherent_trivialDivision [Scalar K] (hp : p.Fits n o) :
    Coherent n o D ⟨p.terms, p.trivialDivision D⟩ where
  rest_ofArity := hp.ofArity
  rest_descending := hp.descending
  remainder_fits := ⟨hp.arity_eq, hp.order_eq, ofArity_nil, .nil⟩
  remainder_above _ hu := absurd hu List.not_mem_nil
  length_quotients := List.length_replicate
  quotient_order q hq := by rw [List.eq_of_mem_replicate hq]; exact hp.order_eq
  quotient_above _ hq _ u hu := by
    rw [List.eq_of_mem_replicate (List.mem_of_getElem? hq)] at hu
    exact absurd hu List.not_mem_nil

/-- The terms that a divisor brings in rank below the term it cancels. -/
theorem below_tail {d : Polynomial K} {lead : Term K} {m : Monomial} {f : K → K}
    {tail : List (Term K)} (hd : d.Fits n o) (ht : t.monomial.arity = n)
    (hlead : d.leadingTerm = .ok lead) (hdiv : t.monomial.div lead.monomial = .ok m)
    (htail : Shifted m f d.terms.tail tail) :
    OfArity n tail ∧ Descending o tail ∧ Below o n (o.rank n t.monomial) tail := by
  obtain ⟨ts, hts⟩ := leadingTerm_eq_ok_iff.mp hlead
  have harity := hd.ofArity
  have hdesc := hd.descending
  rw [hts] at harity hdesc htail
  refine ⟨htail.ofArity harity.tail, htail.descending harity.tail hdesc.tail, ?_⟩
  rw [← TermOrder.rank_div_add o ht hdiv, add_comm]
  exact htail.below harity.tail (hdesc.below_tail harity)

section Rounds

variable [Scalar K] (hp : p.Fits n o) (hD : ∀ d ∈ D, d.Fits n o)
include hp hD

/-- What is left after a round ranks below the term that led before it. -/
theorem Round.below_rest (ha : OfArity n (t :: rest)) (hdesc : Descending o (t :: rest))
    (h : Round p D t rest known s) :
    OfArity n s.rest ∧ Descending o s.rest ∧ Below o n (o.rank n t.monomial) s.rest := by
  cases h with
  | retired => exact ⟨ha.tail, hdesc.tail, hdesc.below_tail ha⟩
  | cancelled hfirst hd hq hlead hdiv htail hmerge hpush =>
    obtain ⟨hta, htd, htb⟩ := below_tail (hD _ (List.mem_of_getElem? hd)) ha.head hlead hdiv htail
    rw [hp.order_eq]
    exact ⟨ofArity_merge ha.tail hta, descending_merge _ _ ha.tail hta hdesc.tail htd,
      below_merge (hdesc.below_tail ha) htb⟩

theorem Coherent.round (hs : Coherent n o D ⟨t :: rest, known⟩)
    (h : Round p D t rest known s) : Coherent n o D s := by
  have hta := hs.rest_ofArity.head
  obtain ⟨harity, hdesc, hbelow⟩ := h.below_rest hp hD hs.rest_ofArity hs.rest_descending
  -- a bound on the old state lies above `t`, hence bounds the new one
  have hmono : ∀ {B : (o.monomialOrder n).syn}, Below o n B (t :: rest) → Below o n B s.rest :=
    fun hB => hbelow.mono (hB t List.mem_cons_self).le
  cases h with
  | retired hfirst hpush =>
    have hlt : ∀ u ∈ known.remainder.terms, o.rank n t.monomial < o.rank n u.monomial :=
      fun u hu => hs.remainder_above u hu t List.mem_cons_self
    have hfits := hs.remainder_fits.pushTrailing hta hlt hpush
    obtain ⟨-, rfl⟩ := pushTrailing_eq_ok_iff.mp hpush
    refine ⟨harity, hdesc, hfits, ?_, hs.length_quotients, hs.quotient_order, ?_⟩
    · refine List.forall_mem_append.mpr ⟨fun u hu => hmono (hs.remainder_above u hu), ?_⟩
      exact List.forall_mem_singleton.mpr hbelow
    · intro i d q lead hd hq hlead u hu
      exact (hs.quotient_above hd hq hlead u hu).imp_right hmono
  | @cancelled i d q q' lead m tail hfirst hd hq hlead hdiv htail hmerge hpush =>
    obtain ⟨-, rfl⟩ := pushTrailing_eq_ok_iff.mp hpush
    refine ⟨harity, hdesc, hs.remainder_fits, fun u hu => hmono (hs.remainder_above u hu), ?_, ?_,
      ?_⟩
    · rw [List.length_set]
      exact hs.length_quotients
    · intro q'' hq''
      rcases List.mem_or_eq_of_mem_set hq'' with hq'' | rfl
      · exact hs.quotient_order _ hq''
      · exact hs.quotient_order q (List.mem_of_getElem? hq)
    · intro j d' q'' lead' hd' hq'' hlead' u hu
      by_cases hij : i = j
      · subst hij
        rw [List.getElem?_set_self (List.getElem?_eq_some_iff.mp hq).1, Option.some_inj] at hq''
        subst hq''
        rw [hd, Option.some_inj] at hd'
        subst hd'
        rcases List.mem_append.mp hu with hu | hu
        · exact (hs.quotient_above hd hq hlead' u hu).imp_right hmono
        · rw [List.mem_singleton.mp hu]
          rw [hlead, Except.ok.injEq] at hlead'
          subst hlead'
          refine ⟨(Monomial.arity_div hdiv).trans hta, ?_⟩
          rw [TermOrder.rank_div_add o hta hdiv]
          exact hbelow
      · rw [List.getElem?_set_ne hij] at hq''
        exact (hs.quotient_above hd' hq'' hlead' u hu).imp_right hmono

/-! ## No round fails for another reason than an overflow -/

omit hp in
theorem overflowOnly_advance (hs : Coherent n o D ⟨t :: rest, known⟩) :
    OverflowOnly (advance p D t rest known) := by
  have hta := hs.rest_ofArity.head
  unfold advance
  split
  next i hfirst =>
    obtain ⟨d, hd, hdvd⟩ := getElem?_of_firstDivisor? hfirst
    obtain ⟨lead, ts, hts, hlead⟩ := leadDivides_eq_true_iff.mp hdvd
    have hdfits := hD d (List.mem_of_getElem? hd)
    have hleadok : d.leadingTerm = .ok lead := leadingTerm_eq_ok_iff.mpr ⟨ts, hts⟩
    have hdiv := Monomial.div_eq_ok_iff.mpr ⟨hlead, rfl⟩
    have hma := (Monomial.arity_div hdiv).trans hta
    have hi : i < known.quotients.length := by
      rw [hs.length_quotients]
      exact (List.getElem?_eq_some_iff.mp hd).1
    have hq := List.getElem?_eq_getElem hi
    unfold cancel
    rw [hd, hq]
    simp only
    rw [bind_of_eq_ok hleadok, bind_of_eq_ok hdiv]
    refine OverflowOnly.bind ?_ fun tail _ => OverflowOnly.bind overflowOnly_mergeTerms
      fun rest' _ => OverflowOnly.bind ?_ fun q' _ => .of_eq_ok rfl
    · exact overflowOnly_mapM_shift (f := fun x => -(t.coeff / lead.coeff * x))
        (hdfits.ofArity.sublist (List.tail_sublist _)) hma
    · refine overflowOnly_pushTrailing fun u hu => ?_
      obtain ⟨hua, hub⟩ := hs.quotient_above hd hq hleadok u hu
      rw [hs.quotient_order _ (List.getElem_mem hi), TermOrder.cmp_eq_gt_iff o hua hma]
      have hlt := hub t List.mem_cons_self
      rw [← TermOrder.rank_div_add o hta hdiv] at hlt
      exact lt_of_add_lt_add_right hlt
  next hfirst =>
    refine OverflowOnly.bind ?_ fun _ _ => .of_eq_ok rfl
    refine overflowOnly_pushTrailing fun u hu => ?_
    rw [hs.remainder_fits.order_eq,
      TermOrder.cmp_eq_gt_iff o (hs.remainder_fits.ofArity u hu) hta]
    exact hs.remainder_above u hu t List.mem_cons_self

/-- A run with a round for each monomial that can still come does not run out of rounds. -/
theorem overflowOnly_run {rounds : ℕ} (hs : Coherent n o D s)
    (hrounds : ∀ t ∈ s.rest, (o.reach n (o.rank n t.monomial)).card ≤ rounds) :
    OverflowOnly (run p D rounds s) := by
  induction rounds generalizing s with
  | zero =>
    obtain ⟨_ | ⟨t, rest⟩, known⟩ := s
    · exact .of_eq_ok (run_nil _ known)
    · have hpos := TermOrder.card_reach_pos o n t.monomial
      have hle := hrounds t List.mem_cons_self
      omega
  | succ rounds ih =>
    obtain ⟨_ | ⟨t, rest⟩, known⟩ := s
    · exact .of_eq_ok (run_nil _ known)
    · rw [run]
      refine (overflowOnly_advance hD hs).bind fun s' hs' => ?_
      have hround := advance_eq_ok_iff.mp hs'
      refine ih (hs.round hp hD hround) fun u hu => ?_
      have hbelow := (hround.below_rest hp hD hs.rest_ofArity hs.rest_descending).2.2
      have hlt := TermOrder.card_reach_lt (hbelow u hu)
      have hle := hrounds t List.mem_cons_self
      omega

end Rounds

end PartialDivision

open PartialDivision

namespace Polynomial

section Division

variable [Scalar K] (hp : p.Fits n o) (hD : ∀ d ∈ D, d.Fits n o)
include hp hD

/-- Division by polynomials of the shape of the dividend fails by overflow only: no check on the
way fails and the rounds suffice. -/
theorem overflowOnly_divide : OverflowOnly (p.divide D) := by
  have hcompat : ∀ d ∈ D, p.checkCompatible d = .ok () := fun d hd => hp.checkCompatible (hD d hd)
  unfold divide
  rw [bind_of_eq_ok (forM_eq_ok_iff.mpr hcompat)]
  split
  · exact .of_eq_ok rfl
  · refine overflowOnly_run hp hD (coherent_trivialDivision hp) fun t _ => ?_
    rw [hp.arity_eq]
    exact Monomial.card_le_count _

theorem overflowOnly_remainder : OverflowOnly (p.remainder D) :=
  (overflowOnly_divide hp hD).bind fun _ _ => .of_eq_ok rfl

/-- What a division leaves over has the shape of the dividend. -/
theorem Fits.remainder {r : Polynomial K} (h : p.remainder D = .ok r) : r.Fits n o := by
  obtain ⟨d, hd, rfl⟩ := remainder_eq_ok_iff.mp h
  have hrun := (divide_eq_ok_iff.mp hd).2
  exact (run_invariant (P := Coherent n o D) (fun _ _ _ _ hs hround => hs.round hp hD hround)
    (coherent_trivialDivision hp) hrun).remainder_fits

/-- So has every quotient. Its terms are pushed while what is left ranks below all of them times
the leading monomial of the divisor. -/
theorem Fits.quotients {d : Division K} (h : p.divide D = .ok d) : ∀ q ∈ d.quotients,
    q.Fits n o := by
  refine (run_invariant (P := fun s => Coherent n o D s ∧ ∀ q ∈ s.result.quotients, q.Fits n o)
    (fun t rest known s hs hround => ⟨hs.1.round hp hD hround, ?_⟩)
    ⟨coherent_trivialDivision hp, fun q hq => ?_⟩ (divide_eq_ok_iff.mp h).2).2
  · cases hround with
    | retired => exact hs.2
    | @cancelled i d q q' lead m tail hfirst hd hq hlead hdiv htail hmerge hpush =>
      intro q'' hq''
      rcases List.mem_or_eq_of_mem_set hq'' with hq'' | rfl
      · exact hs.2 _ hq''
      · have hta := hs.1.rest_ofArity.head
        have hma := (Monomial.arity_div hdiv).trans hta
        refine (hs.2 q (List.mem_of_getElem? hq)).pushTrailing hma (fun u hu => ?_) hpush
        have hlt := (hs.1.quotient_above hd hq hlead u hu).2 t List.mem_cons_self
        rw [← TermOrder.rank_div_add o hta hdiv] at hlt
        exact lt_of_add_lt_add_right hlt
  · rw [List.eq_of_mem_replicate hq]
    exact hp.cleared

end Division

/-- A leading term that no divisor can cancel leads the remainder. -/
theorem leadingTerm_remainder [Scalar K] {r : Polynomial K} {t : Term K}
    (ht : p.leadingTerm = .ok t) (hD : ∀ d ∈ D, d.leadDivides t.monomial = false)
    (h : p.remainder D = .ok r) : r.leadingTerm = .ok t := by
  obtain ⟨d, hd, rfl⟩ := remainder_eq_ok_iff.mp h
  obtain ⟨ts, hts⟩ := leadingTerm_eq_ok_iff.mp ht
  obtain ⟨-, hrun⟩ := divide_eq_ok_iff.mp hd
  rw [hts] at hrun
  cases hcount : Monomial.count p.arity with
  | zero =>
    rw [hcount] at hrun
    cases hrun
  | succ rounds =>
    rw [hcount] at hrun
    obtain ⟨s, hround, hrest⟩ := run_cons_eq_ok_iff.mp hrun
    cases hround with
    | retired hfirst hpush =>
      obtain ⟨-, rfl⟩ := pushTrailing_eq_ok_iff.mp hpush
      obtain ⟨us, hus⟩ := prefix_remainder_of_run hrest
      exact leadingTerm_eq_ok_iff.mpr ⟨us, hus.symm⟩
    | cancelled hfirst =>
      rw [firstDivisor?_eq_none_iff.mpr hD] at hfirst
      cases hfirst

end Polynomial
end PolyIdeal
