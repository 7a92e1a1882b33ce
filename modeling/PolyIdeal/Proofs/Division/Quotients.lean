import PolyIdeal.Proofs.Division.Descent
import PolyIdeal.Scalar.Rational

/-!
# What a division returns

A division takes off one term after the other (`popped`), and asks the divisors in their order each
time. What it returns is a record of that: a term that no divisor could cancel is in the remainder,
and a term that was cancelled has left a factor in the quotient by its divisor (`FactorOf`). Both
records are complete and in the order of the run: `Trace.remainder`, `Trace.quotient`.

The rest follows without any law of the coefficients. The products of the terms of a quotient with
the leading monomial of its divisor are terms that were taken off, so they do not exceed the leading
monomial of the dividend, and earlier divisors do not divide them (`Cancels`). A remainder is a
fixed point: dividing it again retires each of its terms in turn, by the same comparisons as the
first time, and none of them can fail.
-/

namespace PolyIdeal

variable {K : Type} {n : ℕ} {o : TermOrder} {p : Polynomial K} {D : List (Polynomial K)}

namespace Polynomial

theorem leadDivides_eq_false_iff {q : Polynomial K} {m : Monomial} : q.leadDivides m = false ↔
    ∀ lead, q.leadingMonomial = .ok lead → lead.divides m = false := by
  unfold leadDivides leadingMonomial leadingTerm
  cases q.terms with
  | nil => exact ⟨fun _ _ h => (by cases h), fun _ => rfl⟩
  | cons t ts => exact ⟨fun h lead hlead => pure_eq_ok_iff.mp hlead ▸ h, fun h => h _ rfl⟩

/-- The divisors in front of the one that is found do not divide. -/
theorem leadDivides_of_lt_firstDivisor? {m : Monomial} {i j : ℕ} {d : Polynomial K}
    (h : firstDivisor? D m = some i) (hj : j < i) (hd : D[j]? = some d) :
    d.leadDivides m = false := by
  obtain ⟨_, -, hbefore⟩ := List.findIdx?_eq_some_iff_getElem.mp h
  obtain ⟨_, rfl⟩ := List.getElem?_eq_some_iff.mp hd
  exact Bool.eq_false_iff.mpr (hbefore j hj)

/-- The terms whose leading divisor has the given index; without an index, those that no divisor can
cancel. -/
def assignedTo (D : List (Polynomial K)) (i? : Option ℕ) (ts : List (Term K)) : List (Term K) :=
  ts.filter fun t => firstDivisor? D t.monomial = i?

theorem assignedTo_cons (i? : Option ℕ) (t : Term K) (ts : List (Term K)) :
    assignedTo D i? (t :: ts) = if firstDivisor? D t.monomial = i? then
      t :: assignedTo D i? ts else assignedTo D i? ts := by
  unfold assignedTo
  rw [List.filter_cons]
  simp only [decide_eq_true_eq]

theorem mem_assignedTo_iff {i? : Option ℕ} {t : Term K} {ts : List (Term K)} :
    t ∈ assignedTo D i? ts ↔ t ∈ ts ∧ firstDivisor? D t.monomial = i? := by
  unfold assignedTo
  rw [List.mem_filter, decide_eq_true_eq]

end Polynomial

open PolyIdeal.Polynomial

/-- What a term `t` of the quotient by `g`, divisor number `i`, stands for: its product with the
leading monomial of `g` does not exceed the leading monomial of `p`, and no earlier divisor can
cancel it. -/
def Cancels (p : Polynomial K) (D : List (Polynomial K)) (i : ℕ) (g : Polynomial K)
    (t : Term K) : Prop :=
  ∃ lead top m, g.leadingMonomial = .ok lead ∧ p.leadingMonomial = .ok top ∧
    t.monomial.mul lead = .ok m ∧ p.order.cmp m top ≠ .gt ∧
      ∀ j < i, ∀ d, D[j]? = some d → ∀ lead', d.leadingMonomial = .ok lead' →
        lead'.divides m = false

variable [Scalar K]

/-- The factor `v` by which `g` cancels the term `t`. -/
def FactorOf (g : Polynomial K) (t v : Term K) : Prop :=
  ∃ lead, g.leadingTerm = .ok lead ∧ t.monomial.div lead.monomial = .ok v.monomial ∧
    v.coeff = t.coeff / lead.coeff

namespace PartialDivision

variable {t : Term K} {rest : List (Term K)} {known : Division K} {s : PartialDivision K}
  {rounds : ℕ} {d : Division K}

/-! ## The record of a run -/

/-- The rounds that begin in a state take off the given terms, one after the other, and leave
nothing but the result `d`. -/
inductive Trace (p : Polynomial K) (D : List (Polynomial K)) (d : Division K) :
    PartialDivision K → List (Term K) → Prop
  | done : Trace p D d ⟨[], d⟩ []
  | round {t : Term K} {rest ts : List (Term K)} {known : Division K} {s : PartialDivision K}
      (hround : Round p D t rest known s) (htrace : Trace p D d s ts) :
      Trace p D d ⟨t :: rest, known⟩ (t :: ts)

theorem trace_of_run (h : run p D rounds s = .ok d) : Trace p D d s (popped p D rounds s) := by
  induction rounds generalizing s with
  | zero =>
    obtain ⟨_ | ⟨t, rest⟩, known⟩ := s
    · rw [run_nil] at h
      exact Except.ok.inj h ▸ .done
    · cases h
  | succ rounds ih =>
    obtain ⟨_ | ⟨t, rest⟩, known⟩ := s
    · rw [run_nil] at h
      exact Except.ok.inj h ▸ .done
    · obtain ⟨s', hround, hrun⟩ := run_cons_eq_ok_iff.mp h
      rw [popped, advance_eq_ok_iff.mpr hround]
      exact .round hround (ih hrun)

/-- The remainder is what was taken off and could not be cancelled. -/
theorem Trace.remainder {ts : List (Term K)} (h : Trace p D d s ts) :
    d.remainder.terms = s.result.remainder.terms ++ assignedTo D none ts := by
  induction h with
  | done => exact (List.append_nil _).symm
  | round hround _ ih =>
    rw [ih, assignedTo_cons]
    cases hround with
    | retired hfirst hpush =>
      obtain ⟨-, rfl⟩ := pushTrailing_eq_ok_iff.mp hpush
      rw [if_pos hfirst, List.append_assoc]
      rfl
    | cancelled hfirst => rw [hfirst, if_neg (Option.some_ne_none _)]

/-- A round leaves the quotient by `g` as it is, unless it was the turn of `g`. -/
theorem Round.quotient (h : Round p D t rest known s) {i : ℕ} {g q : Polynomial K}
    (hg : D[i]? = some g) (hq : known.quotients[i]? = some q) :
    (firstDivisor? D t.monomial ≠ some i ∧ s.result.quotients[i]? = some q) ∨
      (firstDivisor? D t.monomial = some i ∧ ∃ v, FactorOf g t v ∧
        s.result.quotients[i]? = some { q with terms := q.terms ++ [v] }) := by
  cases h with
  | retired hfirst => exact .inl ⟨by rw [hfirst]; exact (Option.some_ne_none i).symm, hq⟩
  | @cancelled j f q₀ q₁ lead m tail hfirst hf hq₀ hlead hdiv htail hmerge hpush =>
    obtain ⟨-, rfl⟩ := pushTrailing_eq_ok_iff.mp hpush
    rw [hfirst]
    by_cases hij : j = i
    · subst hij
      obtain rfl := Option.some_inj.mp (hf.symm.trans hg)
      obtain rfl := Option.some_inj.mp (hq₀.symm.trans hq)
      refine .inr ⟨rfl, ⟨m, t.coeff / lead.coeff⟩, ⟨lead, hlead, hdiv, rfl⟩, ?_⟩
      exact List.getElem?_set_self (List.getElem?_eq_some_iff.mp hq).1
    · refine .inl ⟨fun h => hij (Option.some_inj.mp h), ?_⟩
      exact (List.getElem?_set_ne hij).trans hq

/-- A quotient has a factor for each term that its divisor has cancelled. -/
theorem Trace.quotient {ts : List (Term K)} (h : Trace p D d s ts) {i : ℕ} {g q : Polynomial K}
    (hg : D[i]? = some g) (hq : s.result.quotients[i]? = some q) :
    ∃ q' factors, d.quotients[i]? = some q' ∧ q'.terms = q.terms ++ factors ∧
      List.Forall₂ (FactorOf g) (assignedTo D (some i) ts) factors := by
  induction h generalizing q with
  | done => exact ⟨q, [], hq, (List.append_nil _).symm, .nil⟩
  | round hround _ ih =>
    rw [assignedTo_cons]
    rcases hround.quotient hg hq with ⟨hfirst, hq⟩ | ⟨hfirst, v, hv, hq⟩
    · rw [if_neg hfirst]
      exact ih hq
    · obtain ⟨q', factors, hq', hterms, hfactors⟩ := ih hq
      rw [if_pos hfirst]
      refine ⟨q', v :: factors, hq', ?_, .cons hv hfactors⟩
      rw [hterms, List.append_assoc]
      rfl

/-- Nothing that is taken off exceeds the first term. -/
theorem Coherent.popped_le (hp : p.Fits n o) (hD : ∀ d ∈ D, d.Fits n o) (hs : Coherent n o D s)
    {u : Term K} (hu : u ∈ popped p D rounds s) :
    ∃ t ∈ s.rest.head?, o.rank n u.monomial ≤ o.rank n t.monomial := by
  obtain ⟨harity, hdesc, -⟩ := hs.descending_popped hp hD rounds
  obtain ⟨_ | ⟨t, rest⟩, known⟩ := s
  · cases rounds with
    | zero => exact absurd hu List.not_mem_nil
    | succ rounds => exact absurd hu List.not_mem_nil
  refine ⟨t, rfl, ?_⟩
  cases rounds with
  | zero => exact absurd hu List.not_mem_nil
  | succ rounds =>
    rw [popped] at hu harity hdesc
    exact hdesc.rank_le_head harity u hu

/-! ## Dividing a remainder -/

/-- Each term of the remainder was found smaller than the one in front of it when it was pushed. -/
theorem isChain_remainder {rounds : ℕ} {d : Division K} (hs : s.result.remainder.terms = [])
    (horder : s.result.remainder.order = o) (h : run p D rounds s = .ok d) :
    d.remainder.terms.IsChain fun u t => o.compare u.monomial t.monomial = .ok .gt := by
  refine (run_invariant (P := fun s => s.result.remainder.order = o ∧
    s.result.remainder.terms.IsChain fun u t => o.compare u.monomial t.monomial = .ok .gt)
    (fun t rest known s hs hround => ?_) ⟨horder, ?_⟩ h).2
  · cases hround with
    | retired hfirst hpush =>
      obtain ⟨hlast, rfl⟩ := pushTrailing_eq_ok_iff.mp hpush
      refine ⟨hs.1, List.isChain_append.mpr ⟨hs.2, List.isChain_singleton t, ?_⟩⟩
      intro u hu v hv
      rw [Option.mem_some_iff.mp hv.symm, ← hs.1]
      exact hlast u hu
    | cancelled => exact hs
  · rw [hs]
    exact List.isChain_nil

/-- Terms that no divisor can cancel are retired one by one, if each can be compared with the one
in front of it. -/
theorem run_irreducible {rounds : ℕ} (hrounds : rest.length ≤ rounds)
    (hirreducible : ∀ t ∈ rest, firstDivisor? D t.monomial = none)
    (hchain : (known.remainder.terms ++ rest).IsChain fun u t =>
      known.remainder.order.compare u.monomial t.monomial = .ok .gt) :
    run p D rounds ⟨rest, known⟩ = .ok { known with
      remainder := { known.remainder with terms := known.remainder.terms ++ rest } } := by
  induction rest generalizing rounds known with
  | nil => rw [run_nil, List.append_nil]
  | cons t rest ih =>
    obtain ⟨rounds, rfl⟩ : ∃ k, rounds = k + 1 := ⟨rounds - 1, by simp at hrounds; omega⟩
    have hlast := (List.isChain_append.mp hchain).2.2
    have hpush := pushTrailing_eq_ok_iff.mpr ⟨fun u hu => hlast u hu t rfl, rfl⟩
    have hround : Round p D t rest known _ := .retired (hirreducible t List.mem_cons_self) hpush
    refine run_cons_eq_ok_iff.mpr ⟨_, hround, (ih ?_ ?_ ?_).trans ?_⟩
    · exact Nat.le_of_succ_le_succ hrounds
    · exact fun u hu => hirreducible u (List.mem_cons_of_mem t hu)
    · rwa [List.append_assoc, List.singleton_append]
    · rw [List.append_assoc, List.singleton_append]

end PartialDivision

open PartialDivision

namespace Polynomial

/-- Terms that no divisor can cancel and that compare with their neighbours all go to the remainder,
and all quotients are zero. -/
theorem divide_of_irreducible (hp : p.Fits n o) (hD : ∀ d ∈ D, d.Fits n o)
    (hirreducible : ∀ t ∈ p.terms, firstDivisor? D t.monomial = none)
    (hchain : p.terms.IsChain fun u t => o.compare u.monomial t.monomial = .ok .gt) :
    p.divide D = .ok ⟨List.replicate D.length p.cleared, p⟩ := by
  rw [divide_eq_run fun g hg => hp.checkCompatible (hD g hg), hp.arity_eq]
  rw [run_irreducible (length_le_count hp.ofArity hp.descending) hirreducible
    (by rw [← hp.order_eq] at hchain; exact hchain)]
  rfl

/-- A remainder is its own remainder, and all quotients are zero. -/
theorem divide_remainder {d : Division K} (hp : p.Fits n o) (hD : ∀ d ∈ D, d.Fits n o)
    (h : p.divide D = .ok d) : d.remainder.divide D =
      .ok ⟨List.replicate D.length d.remainder.cleared, d.remainder⟩ := by
  have hr : d.remainder.Fits n o := hp.remainder hD (remainder_eq_ok_iff.mpr ⟨d, h, rfl⟩)
  apply divide_of_irreducible hr hD (firstDivisor?_of_mem_remainder h)
  exact isChain_remainder rfl hp.order_eq (divide_eq_ok_iff.mp h).2

/-! ## Quotients and remainder -/

/-- Quotients and remainder of a division of `p` by `D`. -/
structure IsDivision (n : ℕ) (o : TermOrder) (p : Polynomial K) (D : List (Polynomial K))
    (d : Division K) : Prop where
  /-- There is one quotient for each divisor. -/
  length_quotients : d.quotients.length = D.length
  /-- The remainder consists of the terms that were taken off and that no divisor could cancel. -/
  remainder_terms : d.remainder.terms =
    assignedTo D none (popped p D (Monomial.count n) (start p D))
  /-- A quotient consists of the factors by which its divisor has cancelled the other ones. -/
  quotient_terms : ∀ (i : ℕ) (g q : Polynomial K), D[i]? = some g → d.quotients[i]? = some q →
    List.Forall₂ (FactorOf g)
      (assignedTo D (some i) (popped p D (Monomial.count n) (start p D))) q.terms
  /-- No term of the remainder is divisible by the leading monomial of a divisor. -/
  irreducible : ∀ t ∈ d.remainder.terms, ∀ g ∈ D, ∀ lead, g.leadingMonomial = .ok lead →
    lead.divides t.monomial = false
  /-- Each term of a quotient has cancelled a monomial, and it was the turn of its divisor. -/
  cancels : ∀ (i : ℕ) (g q : Polynomial K), D[i]? = some g → d.quotients[i]? = some q →
    ∀ t ∈ q.terms, Cancels p D i g t
  /-- Zero divisors have zero quotients. -/
  quotient_zero : ∀ (i : ℕ) (g q : Polynomial K), D[i]? = some g → d.quotients[i]? = some q →
    g.isZero = true → q.isZero = true
  /-- The terms of the remainder descend, -/
  remainder_fits : d.remainder.Fits n o
  /-- and so do those of each quotient. -/
  quotient_fits : ∀ q ∈ d.quotients, q.Fits n o
  /-- Dividing the remainder gives it back. -/
  again : d.remainder.divide D = .ok ⟨List.replicate D.length d.remainder.cleared, d.remainder⟩

/-- The factors of terms that were taken off, and that their divisor was the first to fit. -/
theorem cancels_of_factorOf (hp : p.Fits n o) (hD : ∀ d ∈ D, d.Fits n o) {rounds i : ℕ}
    {g : Polynomial K} {u t : Term K} (hu : u ∈ popped p D rounds (start p D))
    (hfirst : firstDivisor? D u.monomial = some i) (h : FactorOf g u t) :
    Cancels p D i g t := by
  have hs : Coherent n o D (start p D) := coherent_trivialDivision hp
  obtain ⟨lead, hlead, hdiv, -⟩ := h
  obtain ⟨gs, hgs⟩ := leadingTerm_eq_ok_iff.mp hlead
  obtain ⟨top, htop, hle⟩ := hs.popped_le hp hD hu
  obtain ⟨ts, hts⟩ := List.head?_eq_some_iff.mp htop
  have hts : p.terms = top :: ts := hts
  have hua : u.monomial.arity = n := (hs.descending_popped hp hD rounds).1 u hu
  have hta : top.monomial.arity = n := hp.ofArity top (hts ▸ List.mem_cons_self)
  refine ⟨lead.monomial, top.monomial, u.monomial, leadingMonomial_eq_ok_iff.mpr ⟨_, _, hgs, rfl⟩,
    leadingMonomial_eq_ok_iff.mpr ⟨_, _, hts, rfl⟩, Monomial.mul_of_div hdiv, fun hgt => ?_,
    fun j hj f hf => leadDivides_eq_false_iff.mp (leadDivides_of_lt_firstDivisor? hfirst hj hf)⟩
  rw [hp.order_eq, TermOrder.cmp_eq_gt_iff o hua hta] at hgt
  exact (hgt.trans_le hle).false

/-- The terms of a quotient are the factors of what its divisor has cancelled. -/
theorem factors_of_divide {d : Division K} (h : p.divide D = .ok d) {i : ℕ} {g q : Polynomial K}
    (hg : D[i]? = some g) (hq : d.quotients[i]? = some q) : List.Forall₂ (FactorOf g)
      (assignedTo D (some i) (popped p D (Monomial.count p.arity) (start p D))) q.terms := by
  have hi : i < D.length := (List.getElem?_eq_some_iff.mp hg).1
  have hstart : (start p D).result.quotients[i]? = some p.cleared := by
    rw [start, trivialDivision, List.getElem?_replicate, if_pos hi]
  obtain ⟨q', factors, hq', hterms, hfactors⟩ :=
    (trace_of_run (divide_eq_ok_iff.mp h).2).quotient hg hstart
  obtain rfl := Option.some_inj.mp (hq.symm.trans hq')
  rw [hterms]
  exact hfactors

theorem exists_popped_of_mem_quotient {d : Division K} (h : p.divide D = .ok d) {i : ℕ}
    {g q : Polynomial K} {t : Term K} (hg : D[i]? = some g) (hq : d.quotients[i]? = some q)
    (ht : t ∈ q.terms) : ∃ u ∈ popped p D (Monomial.count p.arity) (start p D),
      firstDivisor? D u.monomial = some i ∧ FactorOf g u t := by
  obtain ⟨u, hu, hfactor⟩ := exists_of_mem_forall₂ (factors_of_divide h hg hq) ht
  obtain ⟨hu, hfirst⟩ := mem_assignedTo_iff.mp hu
  exact ⟨u, hu, hfirst, hfactor⟩

/-- A division of polynomials of one shape returns quotients and a remainder, unless an exponent
overflows. No law of the coefficients is used, and divisors may be zero. In particular no term is
ever pushed behind one that is not larger. -/
theorem isDivision_divide (hp : p.Fits n o) (hD : ∀ d ∈ D, d.Fits n o) :
    OverflowOnly (p.divide D) ∧ ∀ d, p.divide D = .ok d → IsDivision n o p D d := by
  refine ⟨overflowOnly_divide hp hD, fun d h => ?_⟩
  have hrun := (divide_eq_ok_iff.mp h).2
  have hcoherent := run_invariant (P := Coherent n o D)
    (fun _ _ _ _ hs hround => hs.round hp hD hround) (coherent_trivialDivision hp) hrun
  have hr : p.remainder D = .ok d.remainder := remainder_eq_ok_iff.mpr ⟨d, h, rfl⟩
  have hremainder := (trace_of_run hrun).remainder
  have hfactors := fun i g q (hg : D[i]? = some g) (hq : d.quotients[i]? = some q) =>
    factors_of_divide h hg hq
  rw [hp.arity_eq] at hremainder
  simp only [hp.arity_eq] at hfactors
  refine ⟨hcoherent.length_quotients, hremainder, hfactors, fun t ht g hg => ?_, ?_, ?_,
    hcoherent.remainder_fits, hp.quotients hD h, divide_remainder hp hD h⟩
  · exact leadDivides_eq_false_iff.mp (leadDivides_of_mem_remainder hr ht hg)
  · intro i g q hg hq t ht
    obtain ⟨u, hu, hfirst, hfactor⟩ := exists_popped_of_mem_quotient h hg hq ht
    exact cancels_of_factorOf hp hD hu hfirst hfactor
  · -- a term of the quotient would tell the leading term of the divisor
    intro i g q hg hq hz
    refine List.isEmpty_iff.mpr (List.eq_nil_iff_forall_not_mem.mpr fun t ht => ?_)
    obtain ⟨u, -, -, lead, hlead, -⟩ := exists_popped_of_mem_quotient h hg hq ht
    obtain ⟨ts, hts⟩ := leadingTerm_eq_ok_iff.mp hlead
    rw [isZero, hts] at hz
    cases hz

/-- Dividing `x² y + x y² + y²` by `x y - 1`, zero and `y² - 1` gives quotients with two, no and
one terms and the remainder `x + y + 1`. -/
theorem isDivision_twoCurves : ∃ p f g : Polynomial Rat, p.Fits 2 .lex ∧
    (∀ d ∈ [f, zero 2 .lex, g], d.Fits 2 .lex) ∧
      ∃ d, p.divide [f, zero 2 .lex, g] = .ok d ∧
        d.quotients.map (·.terms.length) = [2, 0, 1] ∧
        d.remainder.support = [⟨[1, 0]⟩, ⟨[0, 1]⟩, ⟨[0, 0]⟩] ∧
        IsDivision 2 .lex p [f, zero 2 .lex, g] d := by
  let p : Polynomial Rat :=
    ⟨2, .lex, 1 / 10000, [⟨⟨[2, 1]⟩, 1⟩, ⟨⟨[1, 2]⟩, 1⟩, ⟨⟨[0, 2]⟩, 1⟩]⟩
  let f : Polynomial Rat := ⟨2, .lex, 1 / 10000, [⟨⟨[1, 1]⟩, 1⟩, ⟨⟨[0, 0]⟩, -1⟩]⟩
  let g : Polynomial Rat := ⟨2, .lex, 1 / 10000, [⟨⟨[0, 2]⟩, 1⟩, ⟨⟨[0, 0]⟩, -1⟩]⟩
  have hp : p.Fits 2 .lex := by decide
  have hD : ∀ d ∈ [f, zero 2 .lex, g], d.Fits 2 .lex := by decide
  have hrun : (p.divide [f, zero 2 .lex, g]).map
      (fun d => (d.quotients.map (·.terms.length), d.remainder.support)) =
        .ok ([2, 0, 1], [⟨[1, 0]⟩, ⟨[0, 1]⟩, ⟨[0, 0]⟩]) := by decide +kernel
  obtain ⟨d, hd, hshape⟩ := map_eq_ok_iff.mp hrun
  obtain ⟨hquotients, hremainder⟩ := Prod.mk.inj hshape
  exact ⟨p, f, g, hp, hD, d, hd, hquotients, hremainder, (isDivision_divide hp hD).2 d hd⟩

end Polynomial
end PolyIdeal
