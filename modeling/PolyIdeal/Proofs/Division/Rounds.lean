import PolyIdeal.Division
import PolyIdeal.Proofs.Polynomial.Shape

/-!
# The rounds of a division

`Round` lists the two things a round of a division can do to the state: move the leading term to
the remainder, or cancel it with the first divisor that allows it. `advance_eq_ok_iff` says that a
successful round is one of these, and `run_invariant` carries what every round keeps to the end of
the division. Nothing is assumed of the coefficients or of the shape of the operands.

From this alone two facts follow that a completion lives on. No term of a remainder is divisible
by the leading monomial of a divisor. And a division that leaves nothing over is not disturbed by
further divisors behind the ones it used: `divide_append`.
-/

namespace PolyIdeal

variable {K : Type} {p q : Polynomial K} {D E : List (Polynomial K)}

namespace Polynomial

/-! ## Finding a divisor -/

theorem leadDivides_eq_true_iff {m : Monomial} : q.leadDivides m = true ↔
    ∃ t ts, q.terms = t :: ts ∧ t.monomial.divides m = true := by
  unfold leadDivides
  cases q.terms with
  | nil => simp
  | cons t ts => simp

theorem firstDivisor?_eq_none_iff {m : Monomial} :
    firstDivisor? D m = none ↔ ∀ q ∈ D, q.leadDivides m = false := by
  unfold firstDivisor?
  rw [List.findIdx?_eq_none_iff]

theorem getElem?_of_firstDivisor? {m : Monomial} {i : ℕ} (h : firstDivisor? D m = some i) :
    ∃ d, D[i]? = some d ∧ d.leadDivides m = true := by
  obtain ⟨hi, hd, -⟩ := List.findIdx?_eq_some_iff_getElem.mp h
  exact ⟨D[i], List.getElem?_eq_getElem hi, hd⟩

/-- Divisors behind the one that is found do not matter. -/
theorem firstDivisor?_append {m : Monomial} {i : ℕ} (h : firstDivisor? D m = some i) :
    firstDivisor? (D ++ E) m = some i := by
  unfold firstDivisor? at h ⊢
  rw [List.findIdx?_append, h]
  rfl

/-- A term goes to the end of a list, behind a larger one if there is any. -/
theorem pushTrailing_eq_ok_iff {t : Term K} : p.pushTrailing t = .ok q ↔
    (∀ u ∈ p.terms.getLast?, p.order.compare u.monomial t.monomial = .ok .gt) ∧
      { p with terms := p.terms ++ [t] } = q := by
  unfold pushTrailing
  cases h : p.terms.getLast? with
  | none => simp [List.getLast?_eq_none_iff.mp h]
  | some u =>
    simp only [bind_eq_ok_iff, Option.mem_some_iff, forall_eq']
    constructor
    · rintro ⟨r, hr, hq⟩
      split at hq
      next hgt => exact ⟨hgt ▸ hr, pure_eq_ok_iff.mp hq⟩
      next => cases hq
    · rintro ⟨hr, hq⟩
      exact ⟨.gt, hr, by simp [hq]⟩

theorem cancellingTail_eq_ok_iff [Scalar K] {m : Monomial} {c : K} {tail : List (Term K)} :
    p.cancellingTail m c = .ok tail ↔ Shifted m (fun x => -(c * x)) p.terms.tail tail :=
  mapM_shift_eq_ok_iff (f := fun x => -(c * x))

end Polynomial

open PolyIdeal.Polynomial

namespace PartialDivision

variable [Scalar K] {t : Term K} {rest : List (Term K)} {known : Division K}
  {s s' : PartialDivision K}

/-! ## What a round does -/

/-- A round with leading term `t` ends in one of these states. -/
inductive Round (p : Polynomial K) (D : List (Polynomial K)) (t : Term K) (rest : List (Term K))
    (known : Division K) : PartialDivision K → Prop
  /-- No divisor fits, and the term joins the remainder. -/
  | retired {r : Polynomial K} (hfirst : firstDivisor? D t.monomial = none)
      (hpush : known.remainder.pushTrailing t = .ok r) :
      Round p D t rest known ⟨rest, { known with remainder := r }⟩
  /-- The first divisor that fits is subtracted, and the factor joins its quotient. -/
  | cancelled {i : ℕ} {d q q' : Polynomial K} {lead : Term K} {m : Monomial} {tail : List (Term K)}
      (hfirst : firstDivisor? D t.monomial = some i)
      (hd : D[i]? = some d) (hq : known.quotients[i]? = some q)
      (hlead : d.leadingTerm = .ok lead) (hdiv : t.monomial.div lead.monomial = .ok m)
      (htail : Shifted m (fun x => -(t.coeff / lead.coeff * x)) d.terms.tail tail)
      (hmerge : canMerge p.order rest tail = true)
      (hpush : q.pushTrailing ⟨m, t.coeff / lead.coeff⟩ = .ok q') :
      Round p D t rest known
        ⟨merge p.order p.epsilon rest tail, { known with quotients := known.quotients.set i q' }⟩

omit [Scalar K] in
theorem retire_eq_ok_iff : retire t rest known = .ok s ↔
    ∃ r, known.remainder.pushTrailing t = .ok r ∧ ⟨rest, { known with remainder := r }⟩ = s := by
  unfold retire
  simp only [bind_eq_ok_iff, pure_eq_ok_iff]

theorem cancel_eq_ok_iff {i : ℕ} : cancel p D i t rest known = .ok s ↔
    ∃ d, D[i]? = some d ∧ ∃ q, known.quotients[i]? = some q ∧
      ∃ lead, d.leadingTerm = .ok lead ∧ ∃ m, t.monomial.div lead.monomial = .ok m ∧
        ∃ tail, Shifted m (fun x => -(t.coeff / lead.coeff * x)) d.terms.tail tail ∧
          canMerge p.order rest tail = true ∧
            ∃ q', q.pushTrailing ⟨m, t.coeff / lead.coeff⟩ = .ok q' ∧
              ⟨merge p.order p.epsilon rest tail,
                { known with quotients := known.quotients.set i q' }⟩ = s := by
  unfold cancel
  cases hd : D[i]? with
  | none => simp
  | some d =>
    cases hq : known.quotients[i]? with
    | none => simp
    | some q =>
      simp only [bind_eq_ok_iff, pure_eq_ok_iff, mergeTerms_eq_ok_iff,
        cancellingTail_eq_ok_iff, Option.some.injEq, exists_eq_left']
      constructor
      · rintro ⟨lead, hlead, m, hm, tail, htail, _, ⟨hcan, rfl⟩, q', hq', h⟩
        exact ⟨lead, hlead, m, hm, tail, htail, hcan, q', hq', h⟩
      · rintro ⟨lead, hlead, m, hm, tail, htail, hcan, q', hq', h⟩
        exact ⟨lead, hlead, m, hm, tail, htail, _, ⟨hcan, rfl⟩, q', hq', h⟩

theorem advance_eq_ok_iff : advance p D t rest known = .ok s ↔ Round p D t rest known s := by
  unfold advance
  constructor
  · intro h
    split at h
    next i hfirst =>
      obtain ⟨d, hd, q, hq, lead, hlead, m, hm, tail, htail, hcan, q', hq', rfl⟩ :=
        cancel_eq_ok_iff.mp h
      exact .cancelled hfirst hd hq hlead hm htail hcan hq'
    next hfirst =>
      obtain ⟨r, hr, rfl⟩ := retire_eq_ok_iff.mp h
      exact .retired hfirst hr
  · intro h
    cases h with
    | retired hfirst hpush =>
      rw [hfirst]
      exact retire_eq_ok_iff.mpr ⟨_, hpush, rfl⟩
    | cancelled hfirst hd hq hlead hdiv htail hmerge hpush =>
      rw [hfirst]
      exact cancel_eq_ok_iff.mpr
        ⟨_, hd, _, hq, _, hlead, _, hdiv, _, htail, hmerge, _, hpush, rfl⟩

/-! ## What a run does -/

theorem run_nil (rounds : ℕ) (known : Division K) : run p D rounds ⟨[], known⟩ = .ok known := by
  cases rounds <;> rfl

theorem run_cons_eq_ok_iff {rounds : ℕ} {d : Division K} :
    run p D (rounds + 1) ⟨t :: rest, known⟩ = .ok d ↔
      ∃ s, Round p D t rest known s ∧ run p D rounds s = .ok d := by
  rw [run, bind_eq_ok_iff]
  simp only [advance_eq_ok_iff]

/-- What every round keeps holds when nothing is left. -/
theorem run_invariant {P : PartialDivision K → Prop}
    (step : ∀ t rest known s, P ⟨t :: rest, known⟩ → Round p D t rest known s → P s)
    {rounds : ℕ} {d : Division K} (hs : P s) (h : run p D rounds s = .ok d) : P ⟨[], d⟩ := by
  induction rounds generalizing s with
  | zero =>
    obtain ⟨_ | ⟨t, rest⟩, known⟩ := s
    · rw [run_nil] at h
      exact Except.ok.inj h ▸ hs
    · cases h
  | succ rounds ih =>
    obtain ⟨_ | ⟨t, rest⟩, known⟩ := s
    · rw [run_nil] at h
      exact Except.ok.inj h ▸ hs
    · obtain ⟨s', hround, hrun⟩ := run_cons_eq_ok_iff.mp h
      exact ih (step t rest known s' hs hround) hrun

/-- The remainder only grows, and at its end. -/
theorem prefix_remainder_of_run {rounds : ℕ} {d : Division K} (h : run p D rounds s = .ok d) :
    s.result.remainder.terms <+: d.remainder.terms := by
  refine run_invariant (P := fun s' => s.result.remainder.terms <+: s'.result.remainder.terms)
    (fun t rest known s' hs hround => ?_) (List.prefix_refl _) h
  cases hround with
  | retired _ hpush =>
    obtain ⟨-, rfl⟩ := pushTrailing_eq_ok_iff.mp hpush
    exact hs.trans (List.prefix_append _ _)
  | cancelled => exact hs

/-- A run that retires nothing makes the same rounds with further divisors, which keep the
quotients they had. -/
theorem run_append {rounds : ℕ} {d : Division K} (h : run p D rounds s = .ok d)
    (hz : d.remainder.terms = []) (zs : List (Polynomial K)) :
    run p (D ++ E) rounds
        ⟨s.rest, { s.result with quotients := s.result.quotients ++ zs }⟩ =
      .ok { d with quotients := d.quotients ++ zs } := by
  induction rounds generalizing s with
  | zero =>
    obtain ⟨_ | ⟨t, rest⟩, known⟩ := s
    · rw [run_nil] at h
      rw [run_nil, Except.ok.inj h]
    · cases h
  | succ rounds ih =>
    obtain ⟨_ | ⟨t, rest⟩, known⟩ := s
    · rw [run_nil] at h
      rw [run_nil, Except.ok.inj h]
    · obtain ⟨s', hround, hrun⟩ := run_cons_eq_ok_iff.mp h
      have hnext := ih hrun
      cases hround with
      | @retired r _ hpush =>
        -- a retired term would still be in the remainder
        obtain ⟨-, rfl⟩ := pushTrailing_eq_ok_iff.mp hpush
        have hprefix := prefix_remainder_of_run hrun
        rw [hz, List.prefix_nil] at hprefix
        simp at hprefix
      | @cancelled i d q q' lead m tail hfirst hd hq hlead hdiv htail hmerge hpush =>
        obtain ⟨hiD, -⟩ := List.getElem?_eq_some_iff.mp hd
        obtain ⟨hiq, -⟩ := List.getElem?_eq_some_iff.mp hq
        refine run_cons_eq_ok_iff.mpr ⟨_, .cancelled (firstDivisor?_append hfirst) ?_ ?_ hlead
          hdiv htail hmerge hpush, ?_⟩
        · rw [List.getElem?_append_left hiD, hd]
        · rw [List.getElem?_append_left hiq, hq]
        · rw [List.set_append_left _ _ hiq]
          exact hnext

end PartialDivision

open PartialDivision

namespace Polynomial

variable [Scalar K] {d : Division K}

/-- The zero dividend needs no rounds, so a division is a run in every case. -/
theorem divide_eq_bind : p.divide D = (do
    D.forM fun q => p.checkCompatible q
    run p D (Monomial.count p.arity) ⟨p.terms, p.trivialDivision D⟩) := by
  unfold divide
  split
  next h =>
    rw [List.isEmpty_iff.mp h, run_nil]
    rfl
  next => rfl

theorem divide_eq_run (h : ∀ q ∈ D, p.checkCompatible q = .ok ()) :
    p.divide D = run p D (Monomial.count p.arity) ⟨p.terms, p.trivialDivision D⟩ := by
  rw [divide_eq_bind, bind_of_eq_ok (forM_eq_ok_iff.mpr h)]

theorem divide_eq_ok_iff : p.divide D = .ok d ↔
    (∀ q ∈ D, p.checkCompatible q = .ok ()) ∧
      run p D (Monomial.count p.arity) ⟨p.terms, p.trivialDivision D⟩ = .ok d := by
  rw [divide_eq_bind, bind_eq_ok_iff]
  exact ⟨fun ⟨⟨⟩, hc, h⟩ => ⟨forM_eq_ok_iff.mp hc, h⟩,
    fun ⟨hc, h⟩ => ⟨(), forM_eq_ok_iff.mpr hc, h⟩⟩

/-! ## No term of a remainder can be cancelled -/

/-- Terms reach the remainder only when no divisor fits. -/
theorem firstDivisor?_of_mem_remainder (h : p.divide D = .ok d) :
    ∀ t ∈ d.remainder.terms, firstDivisor? D t.monomial = none := by
  refine run_invariant (P := fun s => ∀ t ∈ s.result.remainder.terms,
    firstDivisor? D t.monomial = none) (fun t rest known s hs hround => ?_) ?_
    (divide_eq_ok_iff.mp h).2
  · cases hround with
    | retired hfirst hpush =>
      obtain ⟨-, rfl⟩ := pushTrailing_eq_ok_iff.mp hpush
      intro u hu
      rcases List.mem_append.mp hu with hu | hu
      · exact hs u hu
      · rw [List.mem_singleton.mp hu]
        exact hfirst
    | cancelled => exact hs
  · exact fun t ht => absurd ht List.not_mem_nil

theorem remainder_eq_ok_iff {r : Polynomial K} :
    p.remainder D = .ok r ↔ ∃ d, p.divide D = .ok d ∧ d.remainder = r := by
  unfold remainder
  simp only [bind_eq_ok_iff, pure_eq_ok_iff]

/-- No term of a remainder is divisible by the leading monomial of a divisor. -/
theorem leadDivides_of_mem_remainder {r : Polynomial K} (h : p.remainder D = .ok r)
    {t : Term K} (ht : t ∈ r.terms) (hq : q ∈ D) : q.leadDivides t.monomial = false := by
  obtain ⟨d, hd, rfl⟩ := remainder_eq_ok_iff.mp h
  exact firstDivisor?_eq_none_iff.mp (firstDivisor?_of_mem_remainder hd t ht) q hq

/-- A remainder keeps the threshold of the dividend. -/
theorem epsilon_remainder {r : Polynomial K} (h : p.remainder D = .ok r) :
    r.epsilon = p.epsilon := by
  obtain ⟨d, hd, rfl⟩ := remainder_eq_ok_iff.mp h
  refine run_invariant (P := fun s => s.result.remainder.epsilon = p.epsilon)
    (fun t rest known s hs hround => ?_) rfl (divide_eq_ok_iff.mp hd).2
  cases hround with
  | retired hfirst hpush =>
    obtain ⟨-, rfl⟩ := pushTrailing_eq_ok_iff.mp hpush
    exact hs
  | cancelled => exact hs

/-- Zero leaves zero. -/
theorem remainder_of_isZero (hz : p.isZero = true)
    (hD : ∀ d ∈ D, p.checkCompatible d = .ok ()) : p.remainder D = .ok p.cleared := by
  refine remainder_eq_ok_iff.mpr ⟨p.trivialDivision D, divide_eq_ok_iff.mpr ⟨hD, ?_⟩, rfl⟩
  rw [List.isEmpty_iff.mp hz]
  exact run_nil _ _

/-! ## Further divisors -/

/-- A division that leaves nothing over is the same with further divisors behind the ones it
used, and they get the quotient zero. -/
theorem divide_append (h : p.divide D = .ok d) (hz : d.remainder.isZero = true)
    (hE : ∀ q ∈ E, p.checkCompatible q = .ok ()) : p.divide (D ++ E) =
      .ok { d with quotients := d.quotients ++ List.replicate E.length p.cleared } := by
  obtain ⟨hD, hrun⟩ := divide_eq_ok_iff.mp h
  refine divide_eq_ok_iff.mpr ⟨List.forall_mem_append.mpr ⟨hD, hE⟩, ?_⟩
  have happ := run_append (E := E) hrun (List.isEmpty_iff.mp hz)
    (List.replicate E.length p.cleared)
  rw [trivialDivision, List.length_append, List.replicate_add]
  exact happ

/-- What reduces to zero keeps doing so when divisors are added at the end. -/
theorem remainder_append {r : Polynomial K} (h : p.remainder D = .ok r) (hz : r.isZero = true)
    (hE : ∀ q ∈ E, p.checkCompatible q = .ok ()) : p.remainder (D ++ E) = .ok r := by
  obtain ⟨d, hd, rfl⟩ := remainder_eq_ok_iff.mp h
  exact remainder_eq_ok_iff.mpr ⟨_, divide_append hd hz hE, rfl⟩

end Polynomial
end PolyIdeal
