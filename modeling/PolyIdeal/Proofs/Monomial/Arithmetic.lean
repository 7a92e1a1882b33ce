import PolyIdeal.CriticalPair.Criteria
import PolyIdeal.Proofs.Monomial.Exponents

/-!
# Monomials under division

Product, quotient, least common multiple, greatest common divisor and the tests for divisibility
and coprimality are written one by one, each as a walk along two lists of words. On exponent vectors
they are sum, difference, join, meet and comparisons. What an operation returns is told by its
vector alone, and it returns something exactly if there is a monomial with that vector
(`mul_eq_ok_iff_exps` and its companions). So every law of monomials is one of vectors of natural
numbers.

The join of two vectors never leaves the range of a word, and neither does the meet. The sum may,
but not if the meet is zero, since then it is the join. This is why coprime monomials can always be
multiplied.
-/

namespace PolyIdeal.Monomial

variable {n : ℕ} {a b c : Monomial}

/-! ## Operations by their vectors -/

/-- A product is told by its vector, and it fits if some monomial has that vector. -/
theorem mul_eq_ok_iff_exps (ha : a.arity = n) (hb : b.arity = n) (hc : c.arity = n) :
    a.mul b = .ok c ↔ c.exps n = a.exps n + b.exps n := by
  constructor
  · exact exps_mul ha
  · intro h
    have hfits : a.productFits b = true := by
      apply (allZip_iff _ ha hb).mpr
      intro i hi
      have hsum : (c.exponent i).toNat = (a.exponent i).toNat + (b.exponent i).toNat :=
        DFunLike.congr_fun h ⟨i, hi⟩
      rw [← hsum]
      exact decide_eq_true (c.exponent i).toNat_lt
    have hmul := mul_eq_ok_iff.mpr ⟨ha.trans hb.symm, hfits, rfl⟩
    have hsame : zipWith (· + ·) a b = c := by
      apply eq_of_exps_eq ((arity_mul hmul).trans ha) hc
      rw [exps_mul ha hmul, h]
    rw [hmul, hsame]

/-- A quotient is told by its vector: together with the divisor's it is the dividend's. -/
theorem div_eq_ok_iff_exps (ha : a.arity = n) (hb : b.arity = n) (hc : c.arity = n) :
    a.div b = .ok c ↔ c.exps n + b.exps n = a.exps n := by
  constructor
  · exact exps_div_add ha
  · intro h
    have hdvd : b.divides a = true := (divides_iff hb ha).mpr (h ▸ le_add_self)
    have hdiv := div_eq_ok_iff.mpr ⟨hdvd, rfl⟩
    have hsame : zipWith (· - ·) a b = c := by
      apply eq_of_exps_eq ((arity_div hdiv).trans ha) hc
      exact add_right_cancel ((exps_div_add ha hdiv).trans h.symm)
    rw [hdiv, hsame]

/-- Monomials of one arity have a least common multiple, and its vector is the join. -/
theorem exists_lcm (ha : a.arity = n) (hb : b.arity = n) :
    ∃ l, a.lcm b = .ok l ∧ l.arity = n ∧ l.exps n = a.exps n ⊔ b.exps n := by
  have h : a.lcm b = .ok (zipWith max a b) := lcm_eq_ok_iff.mpr ⟨ha.trans hb.symm, rfl⟩
  exact ⟨_, h, (arity_lcm h).trans ha, exps_lcm ha h⟩

theorem toNat_min (x y : UInt32) : (min x y).toNat = min x.toNat y.toNat := by
  have hmin : min x y = if x ≤ y then x else y := rfl
  rw [hmin, Nat.min_def]
  simp only [UInt32.le_iff_toNat_le]
  split <;> rfl

/-- Monomials of one arity have a greatest common divisor, and its vector is the meet. -/
theorem exists_gcd (ha : a.arity = n) (hb : b.arity = n) :
    ∃ g, a.gcd b = .ok g ∧ g.arity = n ∧ g.exps n = a.exps n ⊓ b.exps n := by
  have h : a.gcd b = .ok (zipWith min a b) := by
    unfold gcd
    rw [bind_of_eq_ok (checkArity_eq_ok_iff.mpr (ha.trans hb.symm))]
    rfl
  refine ⟨_, h, by rw [arity_zipWith, ha, hb, min_self], ?_⟩
  ext i
  rw [Finsupp.inf_apply, exps_apply, exps_apply, exps_apply,
    exponent_zipWith _ (ha.symm ▸ i.isLt) (hb.symm ▸ i.isLt), toNat_min]

/-- Sharing no variable is having vectors that meet in zero. -/
theorem isCoprime_iff (ha : a.arity = n) (hb : b.arity = n) :
    a.isCoprime b = true ↔ a.exps n ⊓ b.exps n = 0 := by
  refine ⟨inf_exps_eq_zero ha hb, fun h => ?_⟩
  rw [isCoprime, Bool.and_eq_true, beq_iff_eq, allZip_iff _ ha hb]
  refine ⟨ha.trans hb.symm, fun i hi => ?_⟩
  have hmin : min (a.exponent i).toNat (b.exponent i).toNat = 0 := DFunLike.congr_fun h ⟨i, hi⟩
  rw [Bool.or_eq_true, beq_iff_eq, beq_iff_eq, ← UInt32.toNat_inj, ← UInt32.toNat_inj]
  exact Nat.min_eq_zero_iff.mp hmin

/-! ## Vectors -/

/-- What is counted twice in a sum is the meet. -/
theorem sup_add_inf_vector (v w : Fin n →₀ ℕ) : v ⊔ w + v ⊓ w = v + w := by
  ext i
  exact max_add_min (v i) (w i)

/-- Only vectors that meet in zero have their sum for a join. -/
theorem sup_eq_add_iff (v w : Fin n →₀ ℕ) : v ⊔ w = v + w ↔ v ⊓ w = 0 := by
  rw [← sup_add_inf_vector, left_eq_add]

/-! ## The laws -/

/-- `l` is a common multiple that divides all others. -/
structure IsLeastMultiple (a b l : Monomial) : Prop where
  left : a.divides l = true
  right : b.divides l = true
  least : ∀ c : Monomial, a.divides c = true → b.divides c = true → l.divides c = true

/-- `g` is a common divisor that all others divide. -/
structure IsGreatestDivisor (a b g : Monomial) : Prop where
  left : g.divides a = true
  right : g.divides b = true
  greatest : ∀ c : Monomial, c.divides a = true → c.divides b = true → c.divides g = true

/-- The laws that tie the operations on monomials in `n` variables together. -/
structure IsArithmetic (n : ℕ) : Prop where
  refl : ∀ a : Monomial, a.arity = n → a.divides a = true
  antisymm : ∀ a b : Monomial, a.arity = n → b.arity = n → a.divides b = true →
    b.divides a = true → a = b
  trans : ∀ a b c : Monomial, a.arity = n → b.arity = n → c.arity = n → a.divides b = true →
    b.divides c = true → a.divides c = true
  /-- A product fits exactly if each of its exponents fits a word, and else it overflows. -/
  mul_iff : ∀ a b : Monomial, a.arity = n → b.arity = n → OverflowOnly (a.mul b) ∧
    ((∃ c, a.mul b = .ok c) ↔
      ∀ i < n, (a.exponent i).toNat + (b.exponent i).toNat < UInt32.size)
  /-- Dividing succeeds exactly by divisors, -/
  div_iff : ∀ a b : Monomial, a.arity = n → b.arity = n →
    ((∃ q, a.div b = .ok q) ↔ b.divides a = true)
  /-- the quotient can be multiplied back, -/
  mul_div : ∀ a b q : Monomial, a.arity = n → b.arity = n → a.div b = .ok q → b.mul q = .ok a
  /-- and a product that fits can be divided by a factor. -/
  div_mul : ∀ a b c : Monomial, a.arity = n → b.arity = n → a.mul b = .ok c → c.div a = .ok b
  /-- Least common multiples and greatest common divisors always exist. -/
  lcm : ∀ a b : Monomial, a.arity = n → b.arity = n →
    ∃ l, a.lcm b = .ok l ∧ l.arity = n ∧ IsLeastMultiple a b l
  gcd : ∀ a b : Monomial, a.arity = n → b.arity = n →
    ∃ g, a.gcd b = .ok g ∧ g.arity = n ∧ IsGreatestDivisor a b g
  /-- Their exponents add up to the given ones. -/
  lcm_add_gcd : ∀ a b l g : Monomial, a.arity = n → b.arity = n → a.lcm b = .ok l →
    a.gcd b = .ok g → ∀ i < n, (l.exponent i).toNat + (g.exponent i).toNat =
      (a.exponent i).toNat + (b.exponent i).toNat
  /-- The product criterion asks for one as the greatest common divisor, -/
  coprime_iff_gcd : ∀ a b : Monomial, a.arity = n → b.arity = n →
    (productCriterion a b = true ↔ a.gcd b = .ok (.one n))
  /-- or for a product that fits and is the least common multiple. -/
  coprime_iff_mul : ∀ a b : Monomial, a.arity = n → b.arity = n →
    (productCriterion a b = true ↔ ∃ c, a.mul b = .ok c ∧ a.lcm b = .ok c)

theorem isLeastMultiple_of_exps {l : Monomial} (ha : a.arity = n) (hb : b.arity = n)
    (hl : l.arity = n) (h : l.exps n = a.exps n ⊔ b.exps n) : IsLeastMultiple a b l where
  left := (divides_iff ha hl).mpr (h ▸ le_sup_left)
  right := (divides_iff hb hl).mpr (h ▸ le_sup_right)
  least c hac hbc := by
    have hc : c.arity = n := (arity_eq_of_divides hac).symm.trans ha
    rw [divides_iff hl hc, h]
    exact sup_le ((divides_iff ha hc).mp hac) ((divides_iff hb hc).mp hbc)

theorem isGreatestDivisor_of_exps {g : Monomial} (ha : a.arity = n) (hb : b.arity = n)
    (hg : g.arity = n) (h : g.exps n = a.exps n ⊓ b.exps n) : IsGreatestDivisor a b g where
  left := (divides_iff hg ha).mpr (h ▸ inf_le_left)
  right := (divides_iff hg hb).mpr (h ▸ inf_le_right)
  greatest c hca hcb := by
    have hc : c.arity = n := (arity_eq_of_divides hca).trans ha
    rw [divides_iff hc hg, h]
    exact le_inf ((divides_iff hc ha).mp hca) ((divides_iff hc hb).mp hcb)

/-- The words of a product that fits are sums that fit. -/
theorem exists_mul_iff (ha : a.arity = n) (hb : b.arity = n) : (∃ c, a.mul b = .ok c) ↔
    ∀ i < n, (a.exponent i).toNat + (b.exponent i).toNat < UInt32.size := by
  have hfits : a.productFits b = true ↔
      ∀ i < n, (a.exponent i).toNat + (b.exponent i).toNat < UInt32.size := by
    rw [productFits, allZip_iff _ ha hb]
    simp only [decide_eq_true_eq]
  rw [← hfits]
  constructor
  · rintro ⟨c, hc⟩
    exact (mul_eq_ok_iff.mp hc).2.1
  · intro h
    exact ⟨_, mul_eq_ok_iff.mpr ⟨ha.trans hb.symm, h, rfl⟩⟩

/-- The product criterion asks whether the meet is the vector of one. -/
theorem productCriterion_iff_gcd (ha : a.arity = n) (hb : b.arity = n) :
    productCriterion a b = true ↔ a.gcd b = .ok (.one n) := by
  obtain ⟨g, hg, harity, hexps⟩ := exists_gcd ha hb
  rw [productCriterion, isCoprime_iff ha hb, ← hexps, hg, Except.ok.injEq]
  constructor
  · intro hzero
    exact eq_of_exps_eq harity (arity_one n) (hzero.trans exps_one.symm)
  · rintro rfl
    exact exps_one

/-- The product criterion asks whether the join is the sum. The join is in range, so the sum is
too. -/
theorem productCriterion_iff_mul (ha : a.arity = n) (hb : b.arity = n) :
    productCriterion a b = true ↔ ∃ c, a.mul b = .ok c ∧ a.lcm b = .ok c := by
  obtain ⟨l, hl, harity, hexps⟩ := exists_lcm ha hb
  rw [productCriterion, isCoprime_iff ha hb, ← sup_eq_add_iff, ← hexps,
    ← mul_eq_ok_iff_exps ha hb harity]
  constructor
  · intro hmul
    exact ⟨l, hmul, hl⟩
  · rintro ⟨c, hmul, hlcm⟩
    rw [hmul, ← hlcm, hl]

/-- Monomials obey the laws in any number of variables, up to the largest exponents. -/
theorem isArithmetic (n : ℕ) : IsArithmetic n where
  refl a _ := divides_self a
  antisymm a b ha hb hab hba :=
    eq_of_exps_eq ha hb (le_antisymm ((divides_iff ha hb).mp hab) ((divides_iff hb ha).mp hba))
  trans a b c ha hb hc hab hbc :=
    (divides_iff ha hc).mpr (((divides_iff ha hb).mp hab).trans ((divides_iff hb hc).mp hbc))
  mul_iff a b ha hb := ⟨overflowOnly_mul (ha.trans hb.symm), exists_mul_iff ha hb⟩
  div_iff a b _ _ := by
    constructor
    · rintro ⟨q, hq⟩
      exact (div_eq_ok_iff.mp hq).1
    · intro h
      exact ⟨_, div_eq_ok_iff.mpr ⟨h, rfl⟩⟩
  mul_div a b q ha hb h := by
    rw [mul_eq_ok_iff_exps hb ((arity_div h).trans ha) ha, add_comm]
    exact (exps_div_add ha h).symm
  div_mul a b c ha hb h := by
    rw [div_eq_ok_iff_exps ((arity_mul h).trans ha) ha hb, add_comm]
    exact (exps_mul ha h).symm
  lcm a b ha hb := by
    obtain ⟨l, hl, harity, hexps⟩ := exists_lcm ha hb
    exact ⟨l, hl, harity, isLeastMultiple_of_exps ha hb harity hexps⟩
  gcd a b ha hb := by
    obtain ⟨g, hg, harity, hexps⟩ := exists_gcd ha hb
    exact ⟨g, hg, harity, isGreatestDivisor_of_exps ha hb harity hexps⟩
  lcm_add_gcd a b l g ha hb hl hg i hi := by
    obtain ⟨g', hg', -, hexps⟩ := exists_gcd ha hb
    obtain rfl := Except.ok.inj (hg'.symm.trans hg)
    have hsum : l.exps n + g'.exps n = a.exps n + b.exps n := by
      rw [exps_lcm ha hl, hexps, sup_add_inf_vector]
    exact DFunLike.congr_fun hsum ⟨i, hi⟩
  coprime_iff_gcd _ _ := productCriterion_iff_gcd
  coprime_iff_mul _ _ := productCriterion_iff_mul

/-- Coprime monomials with the largest exponents that there are. -/
example : (⟨[4294967295, 0]⟩ : Monomial).mul ⟨[0, 4294967295]⟩ =
    .ok ⟨[4294967295, 4294967295]⟩ := by rfl

end PolyIdeal.Monomial
