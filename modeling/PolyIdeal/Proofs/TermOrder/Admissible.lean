import PolyIdeal.Proofs.TermOrder.Ranking

/-!
# Term orders are admissible

What sorting, merging, division and completion ask of a comparison of monomials is collected in
`IsAdmissible`: it is linear, respects products, has the constant monomial at its bottom, and admits
no infinite descent. The comparison that the algorithms run is partial, because a graded order adds
up exponents first. So the laws speak of monomials that can be ranked, and the first law says that
nothing else keeps a comparison from having a result.

Ranks carry the proof for all three orders at once. What is left is to see that a factor can be
ranked when the product can.
-/

namespace PolyIdeal

/-- The comparison has a result, and `a` is not found to be greater than `b`. -/
def NotGreater (compare : Monomial → Monomial → Except Fault Ordering) (a b : Monomial) : Prop :=
  ∃ r, compare a b = .ok r ∧ r ≠ .gt

/-- An admissible order on the monomials in `n` variables that can be ranked. -/
structure IsAdmissible (n : ℕ) (ranks : Monomial → Prop)
    (compare : Monomial → Monomial → Except Fault Ordering) : Prop where
  /-- Two monomials can be compared exactly if both can be ranked. -/
  defined : ∀ a b, (∃ r, compare a b = .ok r) ↔ ranks a ∧ ranks b
  /-- Comparing the other way around turns the result around. -/
  swap : ∀ a b r, a.arity = n → b.arity = n → compare a b = .ok r → compare b a = .ok r.swap
  /-- Only equal monomials compare equal. -/
  eq_iff : ∀ a b, a.arity = n → b.arity = n → (compare a b = .ok .eq ↔ ranks a ∧ a = b)
  trans : ∀ a b c, a.arity = n → b.arity = n → c.arity = n →
    NotGreater compare a b → NotGreater compare b c → NotGreater compare a c
  /-- A common factor makes no difference. -/
  mul : ∀ a b c x y, a.arity = n → b.arity = n → a.mul c = .ok x → b.mul c = .ok y →
    ranks x → ranks y → compare x y = compare a b
  /-- The constant monomial is the least one. -/
  one : ∀ a, a.arity = n → ranks a → NotGreater compare (.one n) a
  /-- A divisor is not greater than its multiples. -/
  divides : ∀ a b, b.arity = n → ranks b → a.divides b = true → NotGreater compare a b
  /-- No sequence of monomials descends forever. -/
  descent : ∀ f : ℕ → Monomial, (∀ i, (f i).arity = n) →
    ∃ i, compare (f i) (f (i + 1)) ≠ .ok .gt

namespace TermOrder

variable {n : ℕ} {o : TermOrder} {a b c : Monomial} {r : Ordering}

/-! ## What can be ranked -/

theorem canRank_iff {m : Monomial} :
    o.canRank m = true ↔ (o.isGraded = true → m.degree < UInt32.size) := by
  unfold canRank Monomial.isMeasurable
  cases o.isGraded with
  | false => simp
  | true => simp

/-- What divides a monomial that can be ranked can be ranked. -/
theorem canRank_of_divides (hb : o.canRank b = true) (h : a.divides b = true) :
    o.canRank a = true := by
  apply canRank_iff.mpr
  intro hgraded
  exact (Monomial.degree_le_of_divides h).trans_lt (canRank_iff.mp hb hgraded)

/-! ## The comparison by ranks -/

theorem notGreater_iff (ha : a.arity = n) (hb : b.arity = n) : NotGreater o.compare a b ↔
    (o.canRank a = true ∧ o.canRank b = true) ∧ o.rank n a ≤ o.rank n b := by
  rw [← not_lt, ← cmp_eq_gt_iff o ha hb]
  constructor
  · rintro ⟨r, hr, hgt⟩
    obtain ⟨hranks, rfl⟩ := compare_eq_ok_iff.mp hr
    exact ⟨hranks, hgt⟩
  · rintro ⟨hranks, hgt⟩
    exact ⟨o.cmp a b, compare_eq_ok_iff.mpr ⟨hranks, rfl⟩, hgt⟩

/-- A common factor makes no difference to the order, on degrees of any size. -/
theorem cmp_mul {x y : Monomial} (ha : a.arity = n) (hb : b.arity = n) (hx : a.mul c = .ok x)
    (hy : b.mul c = .ok y) : o.cmp x y = o.cmp a b := by
  have hxa : x.arity = n := (Monomial.arity_mul hx).trans ha
  have hyb : y.arity = n := (Monomial.arity_mul hy).trans hb
  rw [cmp_eq_compare o hxa hyb, cmp_eq_compare o ha hb, rank_mul o ha hx, rank_mul o hb hy]
  -- adding one rank to both sides keeps each of the three outcomes
  rcases lt_trichotomy (o.rank n a) (o.rank n b) with hlt | heq | hgt
  · rw [compare_lt_iff_lt.mpr hlt, compare_lt_iff_lt.mpr (add_lt_add_left hlt _)]
  · rw [heq, compare_eq_iff_eq.mpr rfl, compare_eq_iff_eq.mpr rfl]
  · rw [compare_gt_iff_gt.mpr hgt, compare_gt_iff_gt.mpr (add_lt_add_left hgt _)]

theorem notGreater_of_divides (hb : b.arity = n) (hrank : o.canRank b = true)
    (h : a.divides b = true) : NotGreater o.compare a b := by
  have ha : a.arity = n := (Monomial.arity_eq_of_divides h).trans hb
  apply (notGreater_iff ha hb).mpr
  refine ⟨⟨canRank_of_divides hrank h, hrank⟩, ?_⟩
  exact (o.monomialOrder n).toSyn_monotone ((Monomial.divides_iff ha hb).mp h)

/-- Ranks that went down forever would contradict the well-order. -/
theorem exists_compare_ne_gt (f : ℕ → Monomial) (hf : ∀ i, (f i).arity = n) :
    ∃ i, o.compare (f i) (f (i + 1)) ≠ .ok .gt := by
  by_contra hall
  push Not at hall
  have hanti : StrictAnti fun i => o.rank n (f i) := by
    apply strictAnti_nat_of_succ_lt
    intro i
    exact (cmp_eq_gt_iff o (hf i) (hf (i + 1))).mp (cmp_eq_of_compare (hall i))
  exact not_strictAnti_of_wellFoundedLT _ hanti

/-- The comparison that the algorithms run is an admissible order in any number of variables. -/
theorem isAdmissible_compare (o : TermOrder) (n : ℕ) :
    IsAdmissible n (fun m => o.canRank m = true) o.compare where
  defined a b := by
    constructor
    · rintro ⟨r, hr⟩
      exact (compare_eq_ok_iff.mp hr).1
    · intro hranks
      exact ⟨o.cmp a b, compare_eq_ok_iff.mpr ⟨hranks, rfl⟩⟩
  swap a b r _ _ h := by
    obtain ⟨hranks, rfl⟩ := compare_eq_ok_iff.mp h
    exact compare_eq_ok_iff.mpr ⟨hranks.symm, (cmp_swap o a b).symm⟩
  eq_iff a b ha hb := by
    rw [compare_eq_ok_iff, cmp_eq_eq_iff o ha hb]
    constructor
    · rintro ⟨⟨hrank, -⟩, hab⟩
      exact ⟨hrank, hab⟩
    · rintro ⟨hrank, rfl⟩
      exact ⟨⟨hrank, hrank⟩, rfl⟩
  trans a b c ha hb hc hab hbc := by
    obtain ⟨⟨hra, -⟩, hle⟩ := (notGreater_iff ha hb).mp hab
    obtain ⟨⟨-, hrc⟩, hle'⟩ := (notGreater_iff hb hc).mp hbc
    exact (notGreater_iff ha hc).mpr ⟨⟨hra, hrc⟩, hle.trans hle'⟩
  mul a b c x y ha hb hx hy hrx hry := by
    have hra := canRank_of_divides hrx (Monomial.divides_of_mul hx)
    have hrb := canRank_of_divides hry (Monomial.divides_of_mul hy)
    rw [compare_eq_ok hrx hry, compare_eq_ok hra hrb, cmp_mul ha hb hx hy]
  one a ha hrank := notGreater_of_divides ha hrank (Monomial.one_divides ha)
  divides a b hb hrank h := notGreater_of_divides hb hrank h
  descent := exists_compare_ne_gt

end TermOrder
end PolyIdeal
