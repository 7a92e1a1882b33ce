import PolyIdeal.Proofs.Polynomial.Coefficients
import PolyIdeal.Proofs.Polynomial.Obtained
import PolyIdeal.Proofs.Polynomial.Overflow

/-!
# Adding a polynomial term by term

`addScaled` merges two lists of terms. The same sum can be formed by adding the terms of the scaled
right operand one after the other, each at the place where a binary search finds its monomial. At
each monomial the two ways compute the same number, and a coefficient without a partner is treated
alike. They part at the sum of two partners. The merge keeps it if it is significant, and adding a
term takes it out if it is negligible. So the results are equal if and only if every such sum passes
one of the two tests and no more. A sum of floating-point numbers that is no number passes neither.

The comparisons of the two ways are different ones, and so the degrees that they have to compute
are. Either way may report an overflow where the other one does not, but neither does if the order
can rank all monomials.
-/

namespace PolyIdeal

variable {K : Type} {n : ℕ} {o : TermOrder} {ts us : List (Term K)} {m : Monomial}

namespace Polynomial

variable [Scalar K] {p q r r' : Polynomial K} {s c : K}

/-- `p` with the terms of a list added to it, one after the other. -/
def addTerms (p : Polynomial K) (ts : List (Term K)) : Except Fault (Polynomial K) :=
  ts.foldlM (fun acc t => acc.addTerm t.monomial t.coeff) p

/-! ## Coefficients -/

/-- What adding a term makes of the coefficient of its monomial: a sum is tested for being
negligible, a coefficient that meets none for being significant. -/
def adjustCoeff (ε : K) : Option K → Option K → Option K
  | some a, some c => (some (a + c)).filter fun x => !Scalar.negligible ε x
  | some a, none => some a
  | none, c? => c?.filter (Scalar.significant ε)

theorem adjustCoeff_none_right (ε : K) (a? : Option K) : adjustCoeff ε a? none = a? := by
  cases a? with
  | none => rfl
  | some a => rfl

theorem epsilon_addTerm (h : p.addTerm m c = .ok r) : r.epsilon = p.epsilon := by
  obtain ⟨-, ⟨i, -, rfl⟩ | ⟨i, -, rfl⟩⟩ := addTerm_eq_ok_iff.mp h
  · rfl
  · split
    next => rfl
    next => rfl

/-- Adjusting a term changes the coefficient of its monomial and no other. -/
theorem coeffAt_adjustAt {ε : K} {i : ℕ} {t : Term K} (hnodup : (ts.map Term.monomial).Nodup)
    (ht : ts[i]? = some t) (k : Monomial) : coeffAt (adjustAt ε ts i c) k =
      if t.monomial = k then (some (t.coeff + c)).filter fun x => !Scalar.negligible ε x
      else coeffAt ts k := by
  obtain ⟨hi, rfl⟩ := List.getElem?_eq_some_iff.mp ht
  -- the term in question and all others
  have hperm : ts.Perm (ts[i] :: ts.eraseIdx i) := (List.getElem_cons_eraseIdx_perm hi).symm
  have hsplit := (hperm.map Term.monomial).nodup_iff.mp hnodup
  have hothers : coeffAt (ts.eraseIdx i) ts[i].monomial = none :=
    coeffAt_eq_none_iff.mpr fun u hu heq =>
      (List.nodup_cons.mp hsplit).1 (heq ▸ List.mem_map_of_mem hu)
  have hts := coeffAt_perm hperm hnodup k
  rw [coeffAt_cons] at hts
  unfold adjustAt
  rw [ht, Option.filter_some]
  cases hneg : Scalar.negligible ε (ts[i].coeff + c) with
  | true =>
    simp only [hneg, if_true, Bool.not_true, Bool.false_eq_true, if_false]
    split
    next hk => rw [← hk, hothers]
    next hk => rw [hts, if_neg hk]
  | false =>
    simp only [hneg, Bool.false_eq_true, if_false, Bool.not_false, if_true]
    have hset := List.set_perm_cons_eraseIdx hi ⟨ts[i].monomial, ts[i].coeff + c⟩
    rw [← coeffAt_perm hset.symm hsplit k, coeffAt_cons]
    split
    next => rfl
    next hk => rw [hts, if_neg hk]

/-- Adding a term changes the coefficient of its monomial and no other. -/
theorem coeffAt_addTerm (hp : p.Fits n o) (h : p.addTerm m c = .ok r) (k : Monomial) :
    coeffAt r.terms k =
      if m = k then adjustCoeff p.epsilon (coeffAt p.terms k) (some c) else coeffAt p.terms k := by
  have hr := (hp.addTerm h).nodup_support
  obtain ⟨harity, hcase⟩ := addTerm_eq_ok_iff.mp h
  have hm : m.arity = n := harity.symm.trans hp.arity_eq
  rw [hp.order_eq] at hcase
  rcases hcase with ⟨i, hlocate, rfl⟩ | ⟨i, hlocate, rfl⟩
  · obtain ⟨t, ht, rfl⟩ := holds_of_locate hp.ofArity hp.descending hm hlocate
    rw [coeffAt_adjustAt hp.nodup_support ht]
    split
    next hk =>
      rw [← hk, coeffAt_of_mem hp.ofArity hp.descending (List.mem_of_getElem? ht)]
      rfl
    next => rfl
  · have hholds := holds_of_locate hp.ofArity hp.descending hm hlocate
    have hnone : coeffAt p.terms m = none := coeffAt_eq_none_iff.mpr hholds.not_mem
    have hadjust : adjustCoeff p.epsilon (coeffAt p.terms m) (some c) =
        if Scalar.significant p.epsilon c then some c else none := by
      rw [hnone]
      exact Option.filter_some
    split at hr
    next hc =>
      rw [if_pos hc, coeffAt_perm (List.perm_insertIdx _ _ hholds.1) hr, coeffAt_cons]
      split
      next hk => rw [← hk, hadjust, if_pos hc]
      next => rfl
    next hc =>
      rw [if_neg hc]
      split
      next hk => rw [← hk, hadjust, if_neg hc, hnone]
      next => rfl

theorem Fits.addTerms (hp : p.Fits n o) (h : p.addTerms ts = .ok r) : r.Fits n o :=
  foldlM_invariant (P := Fits n o) (fun _ _ _ _ hacc hnext => hacc.addTerm hnext) hp h

theorem epsilon_addTerms (h : p.addTerms ts = .ok r) : r.epsilon = p.epsilon :=
  foldlM_invariant (P := fun acc => acc.epsilon = p.epsilon)
    (fun _ _ _ _ hacc hnext => (epsilon_addTerm hnext).trans hacc) rfl h

/-- Adding terms with monomials that are all different adjusts each coefficient once. -/
theorem coeffAt_addTerms (hp : p.Fits n o) (hts : (ts.map Term.monomial).Nodup)
    (h : p.addTerms ts = .ok r) (k : Monomial) :
    coeffAt r.terms k = adjustCoeff p.epsilon (coeffAt p.terms k) (coeffAt ts k) := by
  induction ts generalizing p with
  | nil =>
    obtain rfl := Except.ok.inj h
    rw [coeffAt_nil, adjustCoeff_none_right]
  | cons t ts ih =>
    obtain ⟨hnot, hts⟩ := List.nodup_cons.mp hts
    unfold Polynomial.addTerms at h
    rw [List.foldlM_cons] at h
    obtain ⟨next, hnext, h⟩ := bind_eq_ok_iff.mp h
    rw [ih (hp.addTerm hnext) hts h, coeffAt_addTerm hp hnext, epsilon_addTerm hnext, coeffAt_cons]
    split
    next hk =>
      -- no later term has this monomial
      have hlater : coeffAt ts k = none := coeffAt_eq_none_iff.mpr fun u hu heq =>
        hnot (hk ▸ heq ▸ List.mem_map_of_mem hu)
      rw [hlater, adjustCoeff_none_right]
    next => rfl

/-! ## Comparing the two ways -/

/-- Exactly one of the two tests passes. -/
def Decided (ε c : K) : Prop := Scalar.significant ε c = !Scalar.negligible ε c

instance (ε c : K) : Decidable (Decided ε c) :=
  inferInstanceAs (Decidable (Scalar.significant ε c = !Scalar.negligible ε c))

/-- The merge and the adjustment agree on two coefficients if the tests agree on their sum. -/
theorem adjustCoeff_eq_mergeCoeff_iff {ε : K} {a? c? : Option K} :
    adjustCoeff ε a? c? = mergeCoeff ε a? c? ↔ ∀ a ∈ a?, ∀ c ∈ c?, Decided ε (a + c) := by
  cases a? with
  | none => simp [adjustCoeff, mergeCoeff_none_left]
  | some a =>
    cases c? with
    | none => simp [adjustCoeff]
    | some c =>
      simp only [Option.mem_some_iff, forall_eq', Decided]
      rw [adjustCoeff, mergeCoeff, Option.filter_some, Option.filter_some]
      cases Scalar.significant ε (a + c) with
      | true =>
        cases Scalar.negligible ε (a + c) with
        | true => simp
        | false => simp
      | false =>
        cases Scalar.negligible ε (a + c) with
        | true => simp
        | false => simp

/-- The two ways give the same exactly if one test passes for each sum of two partners. -/
theorem addTerms_eq_addScaled_iff (hp : p.Fits n o) (hq : q.Fits n o)
    (h : p.addScaled q s = .ok r) (h' : p.addTerms (q.scaledTerms s) = .ok r') :
    r' = r ↔ ∀ t ∈ p.terms, ∀ u ∈ q.terms, t.monomial = u.monomial →
      Decided p.epsilon (t.coeff + u.coeff * s) := by
  have hnodup : ((q.scaledTerms s).map Term.monomial).Nodup :=
    (hq.descending_scaledTerms s).nodup_monomials (hq.ofArity_scaledTerms s)
  have hcoeff := coeffAt_addScaled hp hq h
  have hcoeff' : ∀ k, coeffAt r'.terms k = adjustCoeff p.epsilon (coeffAt p.terms k)
      ((coeffAt q.terms k).map (· * s)) := fun k => by
    rw [← coeffAt_scaledTerms]
    exact coeffAt_addTerms hp hnodup h' k
  have hat : ∀ k, coeffAt r'.terms k = coeffAt r.terms k ↔
      ∀ a ∈ coeffAt p.terms k, ∀ c ∈ (coeffAt q.terms k).map (· * s),
        Decided p.epsilon (a + c) := fun k => by
    rw [hcoeff, hcoeff']
    exact adjustCoeff_eq_mergeCoeff_iff
  constructor
  · rintro rfl t ht u hu htu
    refine (hat t.monomial).mp rfl t.coeff (coeffAt_of_mem hp.ofArity hp.descending ht) _ ?_
    rw [htu, coeffAt_of_mem hq.ofArity hq.descending hu]
    rfl
  · intro hdecided
    refine (hp.addTerms h').eq_of_coeffAt_eq (hp.addScaled hq h)
      ((epsilon_addTerms h').trans (epsilon_addScaled h).symm) fun k => (hat k).mpr ?_
    intro a ha c hc
    obtain ⟨b, hb, rfl⟩ := Option.map_eq_some_iff.mp hc
    exact hdecided ⟨k, a⟩ ((mem_iff_coeffAt hp.ofArity hp.descending).mpr ha) ⟨k, b⟩
      ((mem_iff_coeffAt hq.ofArity hq.descending).mpr hb) rfl

/-! ## When there is a result -/

theorem rankable_addTerm (hp : Rankable o p.terms) (hm : o.canRank m = true)
    (h : p.addTerm m c = .ok r) : Rankable o r.terms := by
  obtain ⟨-, ⟨i, -, rfl⟩ | ⟨i, -, rfl⟩⟩ := addTerm_eq_ok_iff.mp h
  · intro t ht
    obtain ⟨u, hu, hut⟩ := List.mem_map.mp
      ((support_adjustAt p.epsilon p.terms i c).subset (List.mem_map_of_mem ht))
    rw [← hut]
    exact hp u hu
  · split
    next =>
      intro t ht
      rcases List.eq_or_mem_of_mem_insertIdx ht with rfl | ht
      · exact hm
      · exact hp t ht
    next => exact hp

/-- While terms are added, all monomials can be ranked. -/
theorem yields_addTerms (hp : p.Fits n o) (hts : OfArity n ts) :
    Yields (Rankable o p.terms ∧ Rankable o ts) (Fits n o) (p.addTerms ts) := by
  unfold Polynomial.addTerms
  refine Yields.mono (Yields.foldlM (I := fun us acc => (∀ u ∈ us, u ∈ ts) ∧ acc.Fits n o ∧
    (Rankable o p.terms ∧ Rankable o ts → Rankable o acc.terms)) (fun u us acc hI => ?_) ?_)
      fun r _ hr => hr.2.1
  · obtain ⟨hus, hacc, hrank⟩ := hI
    have hu := hus u List.mem_cons_self
    have hadd := (yields_addTerm (c := u.coeff) hacc (hts u hu)).of_imp
      fun hroom => ⟨hrank hroom, hroom.2 u hu⟩
    refine hadd.mono fun next hnext hfits => ?_
    exact ⟨fun v hv => hus v (List.mem_cons_of_mem u hv), hfits,
      fun hroom => rankable_addTerm (hrank hroom) (hroom.2 u hu) hnext⟩
  · exact ⟨fun u hu => hu, hp, fun hroom => hroom.1⟩

/-- How the sum `p + s * q` compares with adding the terms of `s * q` to `p` one by one. -/
structure TermByTerm (p q : Polynomial K) (s : K) : Prop where
  /-- Nothing but an exponent past 32 bits can keep either from giving a result, -/
  merged : OverflowOnly (p.addScaled q s)
  added : OverflowOnly (p.addTerms (q.scaledTerms s))
  /-- and both give one if the order can rank all monomials. -/
  total : Rankable p.order p.terms → Rankable p.order q.terms →
    (∃ r, p.addScaled q s = .ok r) ∧ ∃ r, p.addTerms (q.scaledTerms s) = .ok r
  /-- The results are equal exactly if each sum of two partners passes one of the two tests and not
  the other. -/
  eq_iff : ∀ r r', p.addScaled q s = .ok r → p.addTerms (q.scaledTerms s) = .ok r' →
    (r' = r ↔ ∀ t ∈ p.terms, ∀ u ∈ q.terms, t.monomial = u.monomial →
      Decided p.epsilon (t.coeff + u.coeff * s))

/-- Whatever `p` and `q` were made of, merging differs from adding term by term at most in sums that
pass both tests or neither. -/
theorem termByTerm_of_obtained (hp : p.Obtained true) (hq : q.Obtained true)
    (hpq : p.checkCompatible q = .ok ()) (s : K) : TermByTerm p q s := by
  have hpf := hp.fits
  have hqf := hq.fits.of_checkCompatible hpq
  obtain ⟨hmerged, hmergedroom, -⟩ := yields_iff.mp (yields_addScaled (s := s) hpf hqf)
  obtain ⟨hadded, haddedroom, -⟩ :=
    yields_iff.mp (yields_addTerms hpf (hqf.ofArity_scaledTerms s))
  constructor
  case merged => exact hmerged
  case added => exact hadded
  case total =>
    intro hprank hqrank
    exact ⟨hmergedroom ⟨hprank, hqrank⟩, haddedroom ⟨hprank, rankable_scaledTerms s hqrank⟩⟩
  case eq_iff => exact fun r r' h h' => addTerms_eq_addScaled_iff hpf hqf h h'

/-- Over floating-point numbers, `x + 1` plus minus one times `x` is one either way. With a factor
that is no number the merge drops the leading term, and adding term by term keeps it. -/
theorem termByTerm_unordered_factor : ∃ p q : Polynomial Float,
    p.Obtained true ∧ q.Obtained true ∧ p.checkCompatible q = .ok () ∧
      (∃ r, p.addScaled q (-1) = .ok r ∧ p.addTerms (q.scaledTerms (-1)) = .ok r) ∧
      ∃ r r', p.addScaled q (0 / 0) = .ok r ∧ p.addTerms (q.scaledTerms (0 / 0)) = .ok r' ∧
        r.support = [⟨[0]⟩] ∧ r'.support = [⟨[1]⟩, ⟨[0]⟩] ∧ r' ≠ r := by
  let p : Polynomial Float := ⟨1, .lex, Scalar.defaultEpsilon, [⟨⟨[1]⟩, 1⟩, ⟨⟨[0]⟩, 1⟩]⟩
  let q : Polynomial Float := ofTerm ⟨[1]⟩ 1 .lex
  have hterms : ofTerms p.terms 1 .lex = .ok p := rfl
  have hp : p.Obtained true := .ofTerms hterms
  have hq : q.Obtained true := .ofTerm ..
  have hpq : p.checkCompatible q = .ok () := rfl
  have hprank : Rankable p.order p.terms := by decide +kernel
  have hqrank : Rankable p.order q.terms := by decide +kernel
  have hdecided : ∀ t ∈ p.terms, ∀ u ∈ q.terms, t.monomial = u.monomial →
      Decided p.epsilon (t.coeff + u.coeff * -1) := by decide +kernel
  have hundecided : ¬ ∀ t ∈ p.terms, ∀ u ∈ q.terms, t.monomial = u.monomial →
      Decided p.epsilon (t.coeff + u.coeff * (0 / 0)) := by decide +kernel
  have hsupport : (p.addScaled q (0 / 0)).map support = .ok [⟨[0]⟩] := by decide +kernel
  have hsupport' : (p.addTerms (q.scaledTerms (0 / 0))).map support = .ok [⟨[1]⟩, ⟨[0]⟩] := by
    decide +kernel
  obtain ⟨⟨r, hr⟩, r', hr'⟩ := (termByTerm_of_obtained hp hq hpq (-1)).total hprank hqrank
  obtain rfl : r' = r :=
    ((termByTerm_of_obtained hp hq hpq (-1)).eq_iff r r' hr hr').mpr hdecided
  obtain ⟨v, hv, hsupp⟩ := map_eq_ok_iff.mp hsupport
  obtain ⟨v', hv', hsupp'⟩ := map_eq_ok_iff.mp hsupport'
  refine ⟨p, q, hp, hq, hpq, ⟨r', hr, hr'⟩, v, v', hv, hv', hsupp, hsupp', ?_⟩
  exact mt ((termByTerm_of_obtained hp hq hpq (0 / 0)).eq_iff v v' hv hv').mp hundecided

end Polynomial
end PolyIdeal
