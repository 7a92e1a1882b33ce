import Mathlib.Algebra.BigOperators.Fin
import Mathlib.Data.Finsupp.Order
import Mathlib.Data.Finsupp.Weight
import Mathlib.Data.List.GetD
import Mathlib.Order.Lattice.Nat
import PolyIdeal.Monomial.Basic
import PolyIdeal.Proofs.Fault.Outcome

/-!
# Monomials as exponent vectors

A monomial of arity `n` is a list of `n` words. `Monomial.exps n` reads it as a vector of natural
numbers, the index type of polynomials in `n` variables. On vectors the operations are those of
an ordered monoid: the product is the sum, divisibility is `≤`, the least common multiple is `⊔`.

Statements are about two monomials of one arity. The list functions stop at the shorter list, so
nothing of this holds without that.
-/

namespace PolyIdeal
namespace Monomial

variable {n : ℕ} {a b c : Monomial}

/-! ## Exponents by index -/

theorem exponent_eq_get {i : ℕ} (h : i < a.arity) :
    a.exponent i = a.exponents.get ⟨i, h⟩ :=
  List.getD_eq_getElem _ _ h

/-- A monomial is told by its exponents. -/
theorem ext_exponent (h : a.arity = b.arity) (he : ∀ i < a.arity, a.exponent i = b.exponent i) :
    a = b := by
  cases a with | mk xs => cases b with | mk ys =>
  congr 1
  refine List.ext_getElem h fun i hx hy => ?_
  have := he i hx
  rwa [exponent_eq_get hx, exponent_eq_get hy] at this

@[simp] theorem arity_zipWith (f : UInt32 → UInt32 → UInt32) (a b : Monomial) :
    (zipWith f a b).arity = min a.arity b.arity := List.length_zipWith

/-- Exponents are combined variable by variable. -/
theorem exponent_zipWith (f : UInt32 → UInt32 → UInt32) {i : ℕ} (ha : i < a.arity)
    (hb : i < b.arity) : (zipWith f a b).exponent i = f (a.exponent i) (b.exponent i) := by
  have h : i < (zipWith f a b).arity := by rw [arity_zipWith]; omega
  rw [exponent_eq_get h, exponent_eq_get ha, exponent_eq_get hb]
  exact List.getElem_zipWith

/-- A relation of two monomials of one arity is the relation of their exponents. -/
theorem allZip_iff (r : UInt32 → UInt32 → Bool) (ha : a.arity = n) (hb : b.arity = n) :
    a.allZip r b = true ↔ ∀ i < n, r (a.exponent i) (b.exponent i) = true := by
  have hlen : (a.exponents.zip b.exponents).length = n := by
    rw [List.length_zip]
    exact (congrArg₂ min ha hb).trans (min_self n)
  rw [allZip, List.all_eq_true]
  constructor
  · intro h i hi
    rw [exponent_eq_get (ha ▸ hi), exponent_eq_get (hb ▸ hi)]
    have hmem := List.getElem_mem (l := a.exponents.zip b.exponents) (n := i) (by omega)
    rw [List.getElem_zip] at hmem
    exact h _ hmem
  · intro h x hx
    obtain ⟨i, hi, rfl⟩ := List.mem_iff_getElem.mp hx
    have := h i (by omega)
    rw [exponent_eq_get (by omega), exponent_eq_get (by omega)] at this
    rwa [List.getElem_zip]

/-! ## The vector of a monomial -/

/-- The exponents of the first `n` variables as words. -/
def words (n : ℕ) (m : Monomial) : Fin n → Fin UInt32.size := fun i => (m.exponent i).toFin

/-- The natural numbers that words stand for. -/
noncomputable def ofWords (w : Fin n → Fin UInt32.size) : Fin n →₀ ℕ :=
  Finsupp.equivFunOnFinite.symm fun i => (w i).val

/-- The exponents of the first `n` variables as natural numbers. -/
noncomputable def exps (n : ℕ) (m : Monomial) : Fin n →₀ ℕ := ofWords (m.words n)

@[simp] theorem exps_apply (m : Monomial) (i : Fin n) : m.exps n i = (m.exponent i).toNat := rfl

/-- Monomials of one arity with the same vector are the same. -/
theorem eq_of_exps_eq (ha : a.arity = n) (hb : b.arity = n) (h : a.exps n = b.exps n) :
    a = b := by
  refine ext_exponent (ha.trans hb.symm) fun i hi => UInt32.toNat_inj.mp ?_
  exact DFunLike.congr_fun h ⟨i, ha ▸ hi⟩

theorem foldr_degree (xs : List UInt32) :
    xs.foldr (fun e d => e.toNat + d) 0 = (xs.map UInt32.toNat).sum := by
  induction xs with
  | nil => rfl
  | cons x xs ih => rw [List.foldr_cons, ih, List.map_cons, List.sum_cons]

/-- The degree of a monomial is that of its vector. -/
theorem degree_exps (ha : a.arity = n) : (a.exps n).degree = a.degree := by
  subst ha
  have hget : ∀ i : Fin a.arity, a.exps a.arity i = (a.exponents.get i).toNat :=
    fun i => congrArg UInt32.toNat (exponent_eq_get i.isLt)
  rw [Finsupp.degree_eq_sum, degree, foldr_degree, Fintype.sum_congr _ _ hget]
  exact Fin.sum_univ_fun_getElem a.exponents UInt32.toNat

/-! ## Operations -/

/-- A monomial divides those with larger exponents. -/
theorem divides_iff (ha : a.arity = n) (hb : b.arity = n) :
    a.divides b = true ↔ a.exps n ≤ b.exps n := by
  have har : (a.arity == b.arity) = true := by simp [ha, hb]
  rw [divides, har, Bool.true_and, allZip_iff _ ha hb]
  simp only [decide_eq_true_eq, UInt32.le_iff_toNat_le]
  exact ⟨fun h i => h i i.isLt, fun h i hi => h ⟨i, hi⟩⟩

/-- Monomials in different numbers of variables do not divide each other. -/
theorem arity_eq_of_divides (h : a.divides b = true) : a.arity = b.arity := by
  simp only [divides, Bool.and_eq_true, beq_iff_eq] at h
  exact h.1

theorem divides_self (m : Monomial) : m.divides m = true :=
  (divides_iff rfl rfl).mpr le_rfl

/-- Sharing no variable means that the vectors meet in zero. -/
theorem inf_exps_eq_zero (ha : a.arity = n) (hb : b.arity = n) (h : a.isCoprime b = true) :
    a.exps n ⊓ b.exps n = 0 := by
  rw [isCoprime, Bool.and_eq_true, allZip_iff _ ha hb] at h
  ext i
  have := h.2 i i.isLt
  simp only [Bool.or_eq_true, beq_iff_eq] at this
  rw [Finsupp.inf_apply, exps_apply, exps_apply]
  rcases this with hi | hi <;> rw [hi] <;> simp

/-- A product, opened: the exponents are added, and every sum is in range. -/
theorem mul_eq_ok_iff : a.mul b = .ok c ↔
    a.arity = b.arity ∧ a.productFits b = true ∧ zipWith (· + ·) a b = c := by
  unfold mul
  rw [bind_eq_ok_iff]
  constructor
  · rintro ⟨⟨⟩, harity, h⟩
    split at h <;> simp_all
  · rintro ⟨harity, hfits, hc⟩
    exact ⟨(), checkArity_eq_ok_iff.mpr harity, by simp [hfits, hc]⟩

/-- A product has the arity of its factors. -/
theorem arity_mul (h : a.mul b = .ok c) : c.arity = a.arity := by
  obtain ⟨harity, -, rfl⟩ := mul_eq_ok_iff.mp h
  rw [arity_zipWith, ← harity, min_self]

/-- A product that fits is the sum of vectors: no exponent wraps around. -/
theorem exps_mul (ha : a.arity = n) (h : a.mul b = .ok c) : c.exps n = a.exps n + b.exps n := by
  obtain ⟨harity, hfits, rfl⟩ := mul_eq_ok_iff.mp h
  have hb : b.arity = n := harity ▸ ha
  rw [productFits, allZip_iff _ ha hb] at hfits
  ext i
  have hi := hfits i i.isLt
  rw [decide_eq_true_eq] at hi
  rw [Finsupp.add_apply, exps_apply, exps_apply, exps_apply,
    exponent_zipWith _ (ha.symm ▸ i.isLt) (hb.symm ▸ i.isLt), UInt32.toNat_add]
  exact Nat.mod_eq_of_lt hi

/-- Multiplying by a monomial can be undone. -/
theorem eq_of_mul_eq {d : Monomial} (ha : a.arity = n) (hb : b.arity = n) (had : a.mul c = .ok d)
    (hbd : b.mul c = .ok d) : a = b := by
  refine eq_of_exps_eq ha hb (add_right_cancel (b := c.exps n) ?_)
  rw [← exps_mul ha had, ← exps_mul hb hbd]

/-- Factors of one arity multiply, unless an exponent overflows. -/
theorem overflowOnly_mul (h : a.arity = b.arity) : OverflowOnly (a.mul b) := by
  unfold mul
  rw [bind_of_eq_ok (checkArity_eq_ok_iff.mpr h)]
  split
  · exact .of_eq_ok rfl
  · exact .error

/-- A quotient, opened: it is exact, and the exponents are subtracted. -/
theorem div_eq_ok_iff : a.div b = .ok c ↔ b.divides a = true ∧ zipWith (· - ·) a b = c := by
  unfold div
  rw [bind_eq_ok_iff]
  constructor
  · rintro ⟨_, _, h⟩
    split at h <;> simp_all
  · rintro ⟨h, hc⟩
    exact ⟨(), checkArity_eq_ok_iff.mpr (arity_eq_of_divides h).symm, by simp [h, hc]⟩

theorem arity_div (h : a.div b = .ok c) : c.arity = a.arity := by
  obtain ⟨hdvd, rfl⟩ := div_eq_ok_iff.mp h
  rw [arity_zipWith, arity_eq_of_divides hdvd, min_self]

/-- The quotient times the divisor is the dividend. -/
theorem exps_div_add (ha : a.arity = n) (h : a.div b = .ok c) :
    c.exps n + b.exps n = a.exps n := by
  obtain ⟨hdvd, rfl⟩ := div_eq_ok_iff.mp h
  have hb : b.arity = n := (arity_eq_of_divides hdvd).trans ha
  have hle := (divides_iff hb ha).mp hdvd
  ext i
  have hi := hle i
  simp only [exps_apply] at hi
  rw [Finsupp.add_apply, exps_apply, exps_apply, exps_apply,
    exponent_zipWith _ (ha.symm ▸ i.isLt) (hb.symm ▸ i.isLt),
    UInt32.toNat_sub_of_le _ _ (UInt32.le_iff_toNat_le.mpr hi)]
  exact Nat.sub_add_cancel hi

/-- A quotient can be multiplied back: no exponent leaves the range, since those of the dividend
do not. -/
theorem mul_of_div (h : a.div b = .ok c) : c.mul b = .ok a := by
  have hca := arity_div h
  have hba : b.arity = a.arity := arity_eq_of_divides (div_eq_ok_iff.mp h).1
  have hsum : ∀ i < a.arity,
      (c.exponent i).toNat + (b.exponent i).toNat = (a.exponent i).toNat :=
    fun i hi => DFunLike.congr_fun (exps_div_add rfl h) ⟨i, hi⟩
  refine mul_eq_ok_iff.mpr ⟨hca.trans hba.symm, ?_, ?_⟩
  · refine (allZip_iff _ hca hba).mpr fun i hi => decide_eq_true ?_
    rw [hsum i hi]
    exact (a.exponent i).toNat_lt
  · have harity : (zipWith (· + ·) c b).arity = a.arity := by
      rw [arity_zipWith, hca, hba, min_self]
    refine ext_exponent harity fun i hi => UInt32.toNat_inj.mp ?_
    rw [harity] at hi
    rw [exponent_zipWith _ (hca.symm ▸ hi) (hba.symm ▸ hi), UInt32.toNat_add, hsum i hi]
    exact Nat.mod_eq_of_lt (a.exponent i).toNat_lt

/-- A least common multiple, opened: it always exists for one arity. -/
theorem lcm_eq_ok_iff : a.lcm b = .ok c ↔ a.arity = b.arity ∧ zipWith max a b = c := by
  unfold lcm
  rw [bind_eq_ok_iff]
  constructor
  · rintro ⟨⟨⟩, harity, h⟩
    exact ⟨checkArity_eq_ok_iff.mp harity, pure_eq_ok_iff.mp h⟩
  · rintro ⟨harity, hc⟩
    exact ⟨(), checkArity_eq_ok_iff.mpr harity, pure_eq_ok_iff.mpr hc⟩

theorem arity_lcm (h : a.lcm b = .ok c) : c.arity = a.arity := by
  obtain ⟨harity, rfl⟩ := lcm_eq_ok_iff.mp h
  rw [arity_zipWith, ← harity, min_self]

theorem toNat_max (x y : UInt32) : (max x y).toNat = max x.toNat y.toNat := by
  have hmax : max x y = if x ≤ y then y else x := rfl
  rw [hmax, Nat.max_def]
  simp only [UInt32.le_iff_toNat_le]
  split <;> rfl

/-- The least common multiple is the join of vectors. -/
theorem exps_lcm (ha : a.arity = n) (h : a.lcm b = .ok c) :
    c.exps n = a.exps n ⊔ b.exps n := by
  obtain ⟨harity, rfl⟩ := lcm_eq_ok_iff.mp h
  have hb : b.arity = n := harity ▸ ha
  ext i
  rw [Finsupp.sup_apply, exps_apply, exps_apply, exps_apply,
    exponent_zipWith _ (ha.symm ▸ i.isLt) (hb.symm ▸ i.isLt), toNat_max]

/-- The order of the two does not matter. -/
theorem lcm_swap (h : a.lcm b = .ok c) : b.lcm a = .ok c := by
  obtain ⟨harity, -⟩ := lcm_eq_ok_iff.mp h
  have hswap : b.lcm a = .ok (zipWith max b a) := lcm_eq_ok_iff.mpr ⟨harity.symm, rfl⟩
  have hsame : zipWith max b a = c := by
    refine eq_of_exps_eq ((arity_lcm hswap).trans harity.symm) (arity_lcm h) ?_
    rw [exps_lcm harity.symm hswap, exps_lcm rfl h, sup_comm]
  rw [hswap, hsame]

/-! ## The constant monomial and divisors -/

@[simp] theorem arity_one (n : ℕ) : (one n).arity = n := List.length_replicate

@[simp] theorem exps_one : (one n).exps n = 0 := by
  ext i
  rw [exps_apply, exponent, one]
  simp

/-- The monomial 1 divides all others. -/
theorem one_divides (ha : a.arity = n) : (one n).divides a = true := by
  rw [divides_iff (arity_one n) ha, exps_one]
  exact zero_le

/-- Factors divide their product. -/
theorem divides_of_mul (h : a.mul b = .ok c) : a.divides c = true := by
  rw [divides_iff rfl (arity_mul h), exps_mul rfl h]
  exact le_self_add

/-- Divisors have no larger degree. -/
theorem degree_le_of_divides (h : a.divides b = true) : a.degree ≤ b.degree := by
  have harity : b.arity = a.arity := (arity_eq_of_divides h).symm
  rw [← degree_exps rfl, ← degree_exps harity]
  exact Finsupp.degree_mono ((divides_iff rfl harity).mp h)

/-! ## Degrees -/

/-- Degrees add up in products. -/
theorem degree_mul (h : a.mul b = .ok c) : c.degree = a.degree + b.degree := by
  have hb : b.arity = a.arity := (mul_eq_ok_iff.mp h).1.symm
  rw [← degree_exps (arity_mul h), ← degree_exps rfl, ← degree_exps hb, exps_mul rfl h, map_add]

theorem degree_div_add (h : a.div b = .ok c) : c.degree + b.degree = a.degree :=
  (degree_mul (mul_of_div h)).symm

/-- A least common multiple is no larger than the product. -/
theorem degree_lcm_le (h : a.lcm b = .ok c) : c.degree ≤ a.degree + b.degree := by
  have hb : b.arity = a.arity := (lcm_eq_ok_iff.mp h).1.symm
  rw [← degree_exps (arity_lcm h), ← degree_exps rfl, ← degree_exps hb, exps_lcm rfl h, ← map_add]
  exact Finsupp.degree_mono (sup_le le_self_add le_add_self)

/-- No exponent is larger than the degree. -/
theorem exponent_le_degree {i : ℕ} (hi : i < a.arity) : (a.exponent i).toNat ≤ a.degree := by
  rw [← degree_exps rfl]
  exact Finsupp.le_degree ⟨i, hi⟩ (a.exps a.arity)

/-- A product fits if its degree does. -/
theorem exists_mul (harity : a.arity = b.arity) (h : a.degree + b.degree < UInt32.size) :
    ∃ c, a.mul b = .ok c := by
  refine ⟨_, mul_eq_ok_iff.mpr ⟨harity, (allZip_iff _ rfl harity.symm).mpr fun i hi => ?_, rfl⟩⟩
  have hai := exponent_le_degree hi
  have hbi := exponent_le_degree (harity ▸ hi)
  exact decide_eq_true (by omega)

/-- A quotient cannot leave the range of exponents. -/
theorem inRange_div (a b : Monomial) : InRange (a.div b) := by
  refine (inRange_checkArity _ _).bind fun _ _ => ?_
  split
  · exact .of_eq_ok rfl
  · exact .of_eq_error rfl Fault.noConfusion

/-- A least common multiple cannot leave the range of exponents. -/
theorem inRange_lcm (a b : Monomial) : InRange (a.lcm b) :=
  (inRange_checkArity _ _).bind fun _ _ => .of_eq_ok rfl

end Monomial
end PolyIdeal
