import PolyIdeal.Proofs.Polynomial.Obtained

/-!
# Stored coefficients and the threshold

A polynomial is meant to hold significant coefficients only. All operations but two see to that by
keeping a term only if its coefficient is significant. Adding a term takes out a sum that is
negligible instead, and a sum that is no number is not negligible. Making a polynomial monic puts a
one in front, whatever the threshold is.

`Storable` says what a coefficient can then be. It is carried through every operation with terms
that stay as they are, so what one of the two has let in can be met in all later results, until the
threshold is set anew. When one of the two lets something in is settled by
`significant_addTerm_iff` and `significant_monic_iff`. Quotients are left out: a division records
every factor it has used.
-/

namespace PolyIdeal.Polynomial

variable {K : Type} [Scalar K] {n : ℕ} {o : TermOrder} {p q : Polynomial K} {ε c : K}
  {ts us : List (Term K)}

/-- Every coefficient is significant at the threshold of the polynomial. -/
def Significant (p : Polynomial K) : Prop :=
  ∀ t ∈ p.terms, Scalar.significant p.epsilon t.coeff = true

instance (p : Polynomial K) : Decidable p.Significant :=
  inferInstanceAs (Decidable (∀ t ∈ p.terms, Scalar.significant p.epsilon t.coeff = true))

/-- What a stored coefficient can be: significant, or not even negligible, or a one. -/
def Storable (ε c : K) : Prop :=
  Scalar.significant ε c = true ∨ Scalar.negligible ε c = false ∨ c = 1

/-- All coefficients are storable. -/
def StorableTerms (ε : K) (ts : List (Term K)) : Prop := ∀ t ∈ ts, Storable ε t.coeff

/-! ## Term lists -/

theorem storableTerms_keepSignificant (ε : K) (ts : List (Term K)) :
    StorableTerms ε (keepSignificant ε ts) := fun _ ht => .inl (List.mem_filter.mp ht).2

theorem StorableTerms.sublist (h : StorableTerms ε ts) (hs : us.Sublist ts) :
    StorableTerms ε us := fun t ht => h t (hs.subset ht)

theorem storableTerms_normalTerms (h : normalTerms o ε ts = .ok us) : StorableTerms ε us :=
  normalTerms_eq_ok h ▸ storableTerms_keepSignificant ε _

/-- A term enters in front only if it is significant. -/
theorem forall_mem_consSignificant {P : K → Prop} (hP : ∀ c, Scalar.significant ε c = true → P c)
    (h : ∀ u ∈ ts, P u.coeff) (t : Term K) : ∀ u ∈ consSignificant ε t ts, P u.coeff := by
  unfold consSignificant
  split
  next ht => exact List.forall_mem_cons.mpr ⟨hP _ ht, h⟩
  next => exact h

/-- A merge keeps terms of the left list as they are, and tests all others. -/
theorem forall_mem_merge {P : K → Prop} (hP : ∀ c, Scalar.significant ε c = true → P c)
    (as bs : List (Term K)) : (∀ t ∈ as, P t.coeff) → ∀ t ∈ merge o ε as bs, P t.coeff := by
  induction as, bs using merge_induction (o := o) (ε := ε) with
  | rest_right bs => exact fun _ t ht => hP _ (List.mem_filter.mp ht).2
  | rest_left a as => exact id
  | left a as b bs _ ih =>
    intro h
    exact List.forall_mem_cons.mpr
      ⟨h a List.mem_cons_self, ih fun t ht => h t (List.mem_cons_of_mem a ht)⟩
  | right a as b bs _ ih => exact fun h => forall_mem_consSignificant hP (ih h) b
  | both a as b bs _ ih =>
    exact fun h =>
      forall_mem_consSignificant hP (ih fun t ht => h t (List.mem_cons_of_mem a ht)) _

theorem StorableTerms.merge (as bs : List (Term K)) (h : StorableTerms ε as) :
    StorableTerms ε (merge o ε as bs) := forall_mem_merge (fun _ => .inl) as bs h

/-- An adjusted coefficient is there because it is not negligible. -/
theorem StorableTerms.adjustAt (h : StorableTerms ε ts) (i : ℕ) (c : K) :
    StorableTerms ε (adjustAt ε ts i c) := by
  unfold Polynomial.adjustAt
  cases ts[i]? with
  | none => exact h
  | some t =>
    simp only
    split
    next => exact h.sublist (List.eraseIdx_sublist ts i)
    next hsum =>
      intro u hu
      rcases List.mem_or_eq_of_mem_set hu with hu | rfl
      · exact h u hu
      · exact .inr (.inl (Bool.not_eq_true _ ▸ hsum))

/-! ## Operations -/

/-- A polynomial whose coefficients are storable at its own threshold. -/
abbrev HasStorable (p : Polynomial K) : Prop := StorableTerms p.epsilon p.terms

theorem HasStorable.addTerm {m : Monomial} (hp : p.HasStorable) (h : p.addTerm m c = .ok q) :
    q.HasStorable := by
  obtain ⟨-, ⟨i, -, rfl⟩ | ⟨i, -, rfl⟩⟩ := addTerm_eq_ok_iff.mp h
  · exact StorableTerms.adjustAt hp i c
  · split
    next hc =>
      intro t ht
      rcases List.eq_or_mem_of_mem_insertIdx ht with rfl | ht
      · exact .inl hc
      · exact hp t ht
    next => exact hp

theorem HasStorable.addScaled {r : Polynomial K} {s : K} (hp : p.HasStorable)
    (h : p.addScaled q s = .ok r) : r.HasStorable := by
  obtain ⟨-, -, rfl⟩ := addScaled_eq_ok_iff.mp h
  exact StorableTerms.merge _ _ hp

theorem Significant.addScaled {r : Polynomial K} {s : K} (hp : p.Significant)
    (h : p.addScaled q s = .ok r) : r.Significant := by
  obtain ⟨-, -, rfl⟩ := addScaled_eq_ok_iff.mp h
  exact forall_mem_merge (fun _ hc => hc) _ _ hp

/-- A multiple by a term keeps what is significant after the multiplication. -/
theorem significant_mulTerm {m : Monomial} (h : p.mulTerm m c = .ok q) : q.Significant := by
  obtain ⟨-, ts, hts, rfl⟩ := mulTerm_eq_ok_iff.mp h
  intro t ht
  obtain ⟨u, hu, -, hcoeff⟩ := hts.exists_of_mem ht
  rw [hcoeff]
  exact (List.mem_filter.mp hu).2

theorem hasStorable_mulTerm {m : Monomial} (h : p.mulTerm m c = .ok q) : q.HasStorable :=
  fun t ht => .inl (significant_mulTerm h t ht)

theorem hasStorable_mul {r : Polynomial K} (h : p.mul q = .ok r) : r.HasStorable := by
  refine foldlM_invariant (P := HasStorable) (fun acc next t _ hacc hnext => ?_)
    (fun t ht => absurd ht List.not_mem_nil) (mul_eq_ok_iff.mp h).2
  obtain ⟨shifted, -, hnext⟩ := bind_eq_ok_iff.mp hnext
  exact hacc.addScaled hnext

theorem hasStorable_monic (h : p.monic = .ok q) : q.HasStorable := by
  obtain ⟨t, ts, -, rfl⟩ := monic_eq_ok_iff.mp h
  exact List.forall_mem_cons.mpr ⟨.inr (.inr rfl), storableTerms_keepSignificant _ _⟩

theorem hasStorable_sPolynomial {r : Polynomial K} (h : p.sPolynomial q = .ok r) :
    r.HasStorable := by
  obtain ⟨-, _, -, _, -, _, -, left, hleft, right, -, h⟩ := sPolynomial_eq_ok_iff.mp h
  obtain ⟨_, -, hleft⟩ := liftedTo_eq_ok_iff.mp hleft
  exact (hasStorable_mulTerm hleft).addScaled h

/-- What is retired in a division has been in the dividend or has been merged. -/
theorem HasStorable.remainder {D : List (Polynomial K)} {d : Division K} (hp : p.HasStorable)
    (h : p.divide D = .ok d) : d.remainder.HasStorable := by
  have hrun : StorableTerms p.epsilon d.remainder.terms := by
    refine (PartialDivision.run_invariant (P := fun s => StorableTerms p.epsilon s.rest ∧
      StorableTerms p.epsilon s.result.remainder.terms) (fun t rest known s hs hround => ?_)
      ⟨hp, fun t ht => absurd ht List.not_mem_nil⟩ (divide_eq_ok_iff.mp h).2).2
    have hrest : StorableTerms p.epsilon rest := hs.1.sublist (List.sublist_cons_self ..)
    cases hround with
    | retired hfirst hpush =>
      obtain ⟨-, rfl⟩ := pushTrailing_eq_ok_iff.mp hpush
      exact ⟨hrest, List.forall_mem_append.mpr
        ⟨hs.2, List.forall_mem_singleton.mpr (hs.1 t List.mem_cons_self)⟩⟩
    | cancelled => exact ⟨hrest.merge _ _, hs.2⟩
  unfold HasStorable
  rw [epsilon_remainder (remainder_eq_ok_iff.mpr ⟨d, h, rfl⟩)]
  exact hrun

/-- Whatever has been done, short of taking a quotient, each coefficient is storable. -/
theorem Obtained.hasStorable (hp : p.Obtained false) : p.HasStorable := by
  induction hp with
  | ofTerms h =>
    obtain ⟨-, us, hus, rfl⟩ := ofTerms_eq_ok_iff.mp h
    exact storableTerms_normalTerms hus
  | zero => exact fun t ht => absurd ht List.not_mem_nil
  | ofTerm => exact storableTerms_keepSignificant _ _
  | const => exact storableTerms_keepSignificant _ _
  | ofVariable h =>
    obtain ⟨m, -, h⟩ := bind_eq_ok_iff.mp h
    exact pure_eq_ok_iff.mp h ▸ storableTerms_keepSignificant _ _
  | withEpsilon => exact storableTerms_keepSignificant _ _
  | reorder _ h =>
    obtain ⟨us, hus, rfl⟩ := reorder_eq_ok_iff.mp h
    exact storableTerms_normalTerms hus
  | addTerm _ h ih => exact ih.addTerm h
  | addScaled _ _ h ih => exact ih.addScaled h
  | add _ _ h ih => exact ih.addScaled h
  | sub _ _ h ih => exact ih.addScaled h
  | neg => exact storableTerms_keepSignificant _ _
  | scale => exact storableTerms_keepSignificant _ _
  | mulTerm _ h => exact hasStorable_mulTerm h
  | mul _ _ h => exact hasStorable_mul h
  | monic _ h => exact hasStorable_monic h
  | quotient huse => cases huse
  | remainder _ _ h ih => exact ih.remainder h
  | sPolynomial _ _ h => exact hasStorable_sPolynomial h

/-! ## The two exceptions -/

/-- Adding a term keeps all coefficients significant if and only if the sum with the coefficient
that is there, if there is one, passes one of the two tests. -/
theorem significant_addTerm_iff {m : Monomial} (hp : p.Fits n o) (hs : p.Significant)
    (h : p.addTerm m c = .ok q) : q.Significant ↔ ∀ t ∈ p.terms, t.monomial = m →
      Scalar.significant p.epsilon (t.coeff + c) = true ∨
        Scalar.negligible p.epsilon (t.coeff + c) = true := by
  obtain ⟨harity, hcase⟩ := addTerm_eq_ok_iff.mp h
  have hm : m.arity = n := harity.symm.trans hp.arity_eq
  rw [hp.order_eq] at hcase
  rcases hcase with ⟨i, hlocate, rfl⟩ | ⟨i, hlocate, rfl⟩
  · obtain ⟨t, ht, htm⟩ := holds_of_locate hp.ofArity hp.descending hm hlocate
    obtain ⟨hi, hti⟩ := List.getElem?_eq_some_iff.mp ht
    -- the monomial occurs in this one place
    have honly : ∀ u ∈ p.terms, u.monomial = m → u = t := fun u hu hum =>
      List.inj_on_of_nodup_map hp.nodup_support hu (List.mem_of_getElem? ht) (hum.trans htm.symm)
    have hsum : (∀ u ∈ p.terms, u.monomial = m →
        Scalar.significant p.epsilon (u.coeff + c) = true ∨
          Scalar.negligible p.epsilon (u.coeff + c) = true) ↔
        Scalar.significant p.epsilon (t.coeff + c) = true ∨
          Scalar.negligible p.epsilon (t.coeff + c) = true :=
      ⟨fun hall => hall t (List.mem_of_getElem? ht) htm,
        fun hone u hu hum => honly u hu hum ▸ hone⟩
    rw [hsum]
    unfold Significant adjustAt
    rw [ht]
    simp only
    split
    next hneg =>
      exact ⟨fun _ => .inr hneg, fun _ u hu => hs u ((List.eraseIdx_sublist _ i).subset hu)⟩
    next hneg =>
      rw [or_iff_left hneg]
      refine ⟨fun hall => hall _ (List.mem_set hi _), fun hsig u hu => ?_⟩
      rcases List.mem_or_eq_of_mem_set hu with hu | rfl
      · exact hs u hu
      · exact hsig
  · have hnone := (holds_of_locate hp.ofArity hp.descending hm hlocate).not_mem
    refine ⟨fun _ t ht htm => absurd htm (hnone t ht), fun _ => ?_⟩
    split
    next hc =>
      intro t ht
      rcases List.eq_or_mem_of_mem_insertIdx ht with rfl | ht
      · exact hc
      · exact hs t ht
    next => exact hs

/-- A monic polynomial has significant coefficients if and only if one is significant. -/
theorem significant_monic_iff (h : p.monic = .ok q) :
    q.Significant ↔ Scalar.significant p.epsilon (1 : K) = true := by
  obtain ⟨t, ts, -, rfl⟩ := monic_eq_ok_iff.mp h
  refine ⟨fun hall => hall _ List.mem_cons_self, fun hone => ?_⟩
  exact List.forall_mem_cons.mpr ⟨hone, fun u hu => (List.mem_filter.mp hu).2⟩

/-- Without quotients, a stored coefficient is significant unless it is a one or passes neither
test. A term that is added to significant ones leaves them so exactly if its sum with what is
there passes one of the tests, and a polynomial that is made monic exactly if one is significant. -/
theorem storable_of_obtained (hp : p.Obtained false) :
    (∀ t ∈ p.terms, Storable p.epsilon t.coeff) ∧
      (∀ m c q, p.Significant → p.addTerm m c = .ok q →
        (q.Significant ↔ ∀ t ∈ p.terms, t.monomial = m →
          Scalar.significant p.epsilon (t.coeff + c) = true ∨
            Scalar.negligible p.epsilon (t.coeff + c) = true)) ∧
      ∀ q, p.monic = .ok q → (q.Significant ↔ Scalar.significant p.epsilon (1 : K) = true) :=
  ⟨hp.hasStorable, fun _ _ _ hs h => significant_addTerm_iff hp.fits hs h,
    fun _ h => significant_monic_iff h⟩

/-- Over floating-point numbers both happen. To an infinite multiple of the variable its negative
is added: the sum is no number and stays. And `4 x` at the threshold two is made monic: the one
that leads is below the threshold. -/
theorem not_significant_infinite_sum : ∃ p q r s : Polynomial Float,
    p.Obtained false ∧ p.Significant ∧ p.addTerm ⟨[1]⟩ (-1 / 0) = .ok q ∧ ¬ q.Significant ∧
      r.Obtained false ∧ r.Significant ∧ r.monic = .ok s ∧ ¬ s.Significant := by
  let p : Polynomial Float := ofTerm ⟨[1]⟩ (1 / 0) .lex
  let r : Polynomial Float := (ofTerm ⟨[1]⟩ 4 .lex).withEpsilon 2
  have hp : p.Obtained false := .ofTerm ..
  have hr : r.Obtained false := .withEpsilon (.ofTerm ..) 2
  have hps : p.Significant := by decide +kernel
  have hrs : r.Significant := by decide +kernel
  have hsum : ¬ ∀ t ∈ p.terms, t.monomial = ⟨[1]⟩ →
      Scalar.significant p.epsilon (t.coeff + -1 / 0) = true ∨
        Scalar.negligible p.epsilon (t.coeff + -1 / 0) = true := by decide +kernel
  have hone : ¬ Scalar.significant r.epsilon (1 : Float) = true := by decide +kernel
  have hrun : (do
      let _ ← p.addTerm ⟨[1]⟩ (-1 / 0)
      let _ ← r.monic
      return ()) = (.ok () : Except Fault Unit) := by decide +kernel
  obtain ⟨q, hq, hrun⟩ := bind_eq_ok_iff.mp hrun
  obtain ⟨s, hs, -⟩ := bind_eq_ok_iff.mp hrun
  exact ⟨p, q, r, s, hp, hps, hq, mt ((storable_of_obtained hp).2.1 _ _ _ hps hq).mp hsum,
    hr, hrs, hs, mt ((storable_of_obtained hr).2.2 _ hs).mp hone⟩

end PolyIdeal.Polynomial
