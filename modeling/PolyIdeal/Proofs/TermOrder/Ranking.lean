import Mathlib.Data.Finsupp.MonomialOrder.DegLex
import Mathlib.Data.Set.Card
import PolyIdeal.TermOrder.Comparison
import PolyIdeal.Proofs.Monomial.Exponents

/-!
# The comparison of monomials is a monomial order

For each arity `n`, a term order ranks exponent vectors in a linear order that respects sums, has
zero at its bottom and admits no infinite descent: `TermOrder.monomialOrder`. Two of the three
are in Mathlib; the graded reverse order is built here.

`cmp_eq_compare` says that the comparison the algorithms run is the comparison of ranks. All laws
of `TermOrder.cmp` on monomials of one arity follow from it, and later files reason with ranks
only.
-/

namespace PolyIdeal

/-! ## The graded reverse order of exponent vectors -/

/-- Exponent vectors ranked by degree, a tie going to the vector that is smaller at the last
difference. -/
def GradedReverse (n : ℕ) : Type := Fin n →₀ ℕ

namespace GradedReverse

variable {n : ℕ}

noncomputable instance : AddCommMonoid (GradedReverse n) :=
  inferInstanceAs (AddCommMonoid (Fin n →₀ ℕ))

/-- A vector as an element of the graded reverse order. -/
noncomputable def ofVector : (Fin n →₀ ℕ) ≃+ GradedReverse n := AddEquiv.refl _

/-- The degree, then the vector with its colexicographic rank turned around. -/
noncomputable def key (a : GradedReverse n) : ℕ ×ₗ (Colex (Fin n →₀ ℕ))ᵒᵈ :=
  toLex ((ofVector.symm a).degree, OrderDual.toDual (toColex (ofVector.symm a)))

/-- A vector is told by its key. -/
theorem key_injective : Function.Injective (key (n := n)) := fun a b h => by
  have hcol : OrderDual.ofDual (ofLex (key a)).2 = OrderDual.ofDual (ofLex (key b)).2 := by rw [h]
  exact hcol

noncomputable instance : LinearOrder (GradedReverse n) := LinearOrder.lift' key key_injective

/-- Ranks of graded reverse order: the degree decides, then the last exponent that differs, and the
smaller one wins. -/
theorem ofVector_lt_iff {a b : Fin n →₀ ℕ} : ofVector a < ofVector b ↔
    a.degree < b.degree ∨ a.degree = b.degree ∧ toColex b < toColex a := by
  have hkey : ofVector a < ofVector b ↔ key (ofVector a) < key (ofVector b) := Iff.rfl
  rw [hkey, key, key, Prod.Lex.toLex_lt_toLex]
  rfl

/-- Adding a vector to both sides changes neither the difference of degrees nor the last place
where the two differ. -/
theorem ofVector_add_lt {a b : Fin n →₀ ℕ} (h : ofVector a < ofVector b) (c : Fin n →₀ ℕ) :
    ofVector (a + c) < ofVector (b + c) := by
  rw [ofVector_lt_iff, map_add, map_add]
  rcases ofVector_lt_iff.mp h with hdeg | ⟨hdeg, hcol⟩
  · exact .inl (Nat.add_lt_add_right hdeg _)
  · refine .inr ⟨by rw [hdeg], ?_⟩
    show toColex b + toColex c < toColex a + toColex c
    exact add_lt_add_left hcol _

instance : IsOrderedAddMonoid (GradedReverse n) where
  add_le_add_left a b h c := by
    rcases h.eq_or_lt with rfl | hlt
    · exact le_rfl
    · exact (ofVector_add_lt hlt c).le

/-- No vector below `b` has a larger degree than `b`, so there are finitely many. -/
theorem finite_Iio (b : GradedReverse n) : (Set.Iio b).Finite := by
  have hfin : (ofVector '' {a : Fin n →₀ ℕ | a.degree ≤ (ofVector.symm b).degree}).Finite :=
    (Finsupp.finite_of_degree_le _).image _
  refine hfin.subset fun a ha => ⟨ofVector.symm a, ?_, ofVector.apply_symm_apply a⟩
  have hlt : ofVector (ofVector.symm a) < ofVector (ofVector.symm b) := by
    rwa [ofVector.apply_symm_apply, ofVector.apply_symm_apply]
  rcases ofVector_lt_iff.mp hlt with hdeg | ⟨hdeg, -⟩
  · exact hdeg.le
  · exact hdeg.le

/-- The number of vectors below descends strictly. -/
instance : WellFoundedLT (GradedReverse n) := by
  have hmono : StrictMono fun a : GradedReverse n => (Set.Iio a).ncard := fun a b h =>
    Set.ncard_lt_ncard (Set.Iio_ssubset_Iio h) (finite_Iio b)
  exact hmono.wellFoundedLT

/-- Larger exponents have a larger rank. -/
theorem monotone_ofVector : Monotone (ofVector (n := n)) := by
  intro a b h
  rcases h.eq_or_lt with rfl | hlt
  · exact le_rfl
  · refine (ofVector_lt_iff.mpr (.inl ?_)).le
    obtain ⟨c, rfl⟩ := exists_add_of_le h
    have hc : c.degree ≠ 0 := by
      rw [Ne, Finsupp.degree_eq_zero_iff]
      rintro rfl
      simp at hlt
    rw [map_add]
    omega

end GradedReverse

namespace TermOrder

variable {n : ℕ} {a b : Monomial}

/-! ## Ranks -/

/-- The monomial order on exponent vectors of length `n`. -/
noncomputable def monomialOrder (o : TermOrder) (n : ℕ) : MonomialOrder (Fin n) :=
  match o with
  | lex => .lex
  | grlex => .degLex
  | grevlex =>
      { syn := GradedReverse n
        toSyn := GradedReverse.ofVector
        toSyn_monotone := GradedReverse.monotone_ofVector }

/-- The place of a monomial in the linear order. -/
noncomputable def rank (o : TermOrder) (n : ℕ) (m : Monomial) : (o.monomialOrder n).syn :=
  (o.monomialOrder n).toSyn (m.exps n)

/-! ## Where two lists differ -/

theorem cmpLex_swap : ∀ xs ys : List UInt32, (cmpLex xs ys).swap = cmpLex ys xs
  | [], [] | [], _ :: _ | _ :: _, [] => rfl
  | x :: xs, y :: ys => by
    rw [cmpLex, cmpLex, Ordering.swap_then, cmpLex_swap xs ys, ← Std.OrientedCmp.eq_swap]

/-- The comparison from the end, seen from the other side. -/
theorem cmpReverse_swap : ∀ xs ys : List UInt32, (cmpReverse xs ys).swap = cmpReverse ys xs
  | [], [] | [], _ :: _ | _ :: _, [] => rfl
  | x :: xs, y :: ys => by
    rw [cmpReverse, cmpReverse, Ordering.swap_then, cmpReverse_swap xs ys,
      ← Std.OrientedCmp.eq_swap]

/-- Comparing the other way around turns the result around. -/
theorem cmp_swap (o : TermOrder) (a b : Monomial) : (o.cmp a b).swap = o.cmp b a := by
  cases o with
  | lex => exact cmpLex_swap _ _
  | grlex => rw [cmp, cmp, Ordering.swap_then, cmpLex_swap, ← Std.OrientedCmp.eq_swap]
  | grevlex => rw [cmp, cmp, Ordering.swap_then, cmpReverse_swap, ← Std.OrientedCmp.eq_swap]

/-- The first difference decides. -/
theorem cmpLex_eq_lt_iff : ∀ {xs ys : List UInt32}, xs.length = ys.length →
    (cmpLex xs ys = .lt ↔ ∃ i < xs.length, (∀ j < i, xs.getD j 0 = ys.getD j 0) ∧
      xs.getD i 0 < ys.getD i 0)
  | [], [], _ => by simp [cmpLex]
  | x :: xs, y :: ys, h => by
    have ih := @cmpLex_eq_lt_iff xs ys (by simpa using h)
    rw [cmpLex, Ordering.then_eq_lt, Std.compare_eq_lt, Std.compare_eq_iff_eq, ih]
    constructor
    · rintro (hlt | ⟨rfl, i, hi, heq, hlt⟩)
      · exact ⟨0, by simp, by simp, by simpa using hlt⟩
      · refine ⟨i + 1, by simpa using hi, fun j hj => ?_, by simpa using hlt⟩
        cases j with
        | zero => rfl
        | succ j => simpa using heq j (by omega)
    · rintro ⟨i, hi, heq, hlt⟩
      cases i with
      | zero => exact .inl (by simpa using hlt)
      | succ i =>
        refine .inr ⟨by simpa using heq 0 (by omega), i, by simpa using hi, fun j hj => ?_,
          by simpa using hlt⟩
        simpa using heq (j + 1) (by omega)

/-- Only equal lists compare equal. -/
theorem eq_of_cmpReverse_eq : ∀ {xs ys : List UInt32}, xs.length = ys.length →
    cmpReverse xs ys = .eq → xs = ys
  | [], [], _, _ => rfl
  | x :: xs, y :: ys, hlen, h => by
    rw [cmpReverse, Ordering.then_eq_eq, Std.compare_eq_iff_eq] at h
    rw [eq_of_cmpReverse_eq (by simpa using hlen) h.1, h.2]

theorem cmpReverse_self (xs : List UInt32) : cmpReverse xs xs = .eq := by
  induction xs with
  | nil => rfl
  | cons x xs ih => rw [cmpReverse, ih, Ordering.then_eq_eq, Std.compare_eq_iff_eq]; simp

/-- The last difference decides, the other way around. -/
theorem cmpReverse_eq_lt_iff : ∀ {xs ys : List UInt32}, xs.length = ys.length →
    (cmpReverse xs ys = .lt ↔ ∃ i < xs.length,
      (∀ j, i < j → j < xs.length → xs.getD j 0 = ys.getD j 0) ∧ ys.getD i 0 < xs.getD i 0)
  | [], [], _ => by simp [cmpReverse]
  | x :: xs, y :: ys, h => by
    have hlen : xs.length = ys.length := by simpa using h
    have ih := cmpReverse_eq_lt_iff hlen
    rw [cmpReverse, Ordering.then_eq_lt, Std.compare_eq_lt, ih]
    constructor
    · rintro (⟨i, hi, heq, hlt⟩ | ⟨htail, hlt⟩)
      · refine ⟨i + 1, by simpa using hi, fun j hij hj => ?_, by simpa using hlt⟩
        obtain ⟨j, rfl⟩ : ∃ k, j = k + 1 := ⟨j - 1, by omega⟩
        simpa using heq j (by omega) (by simpa using hj)
      · obtain rfl := eq_of_cmpReverse_eq hlen htail
        refine ⟨0, by simp, fun j hj _ => ?_, by simpa using hlt⟩
        obtain ⟨j, rfl⟩ : ∃ k, j = k + 1 := ⟨j - 1, by omega⟩
        rfl
    · rintro ⟨i, hi, heq, hlt⟩
      cases i with
      | succ i =>
        refine .inl ⟨i, by simpa using hi, fun j hij hj => ?_, by simpa using hlt⟩
        simpa using heq (j + 1) (by omega) (by simpa using hj)
      | zero =>
        have htail : xs = ys := by
          refine List.ext_getElem hlen fun j hx hy => ?_
          simpa [hx, hy] using heq (j + 1) (by omega) (by simpa using hx)
        refine .inr ⟨?_, by simpa using hlt⟩
        rw [htail, cmpReverse_self]

/-! ## The comparison is the comparison of ranks -/

/-- The larger exponent at the first difference is the lexicographic order of vectors. -/
theorem cmpLex_exponents_iff (ha : a.arity = n) (hb : b.arity = n) :
    cmpLex a.exponents b.exponents = .lt ↔ toLex (a.exps n) < toLex (b.exps n) := by
  rw [cmpLex_eq_lt_iff (ha.trans hb.symm), Finsupp.Lex.lt_iff]
  constructor
  · rintro ⟨i, hi, heq, hlt⟩
    refine ⟨⟨i, ha ▸ hi⟩, fun j hj => ?_, UInt32.lt_iff_toNat_lt.mp hlt⟩
    exact congrArg UInt32.toNat (heq j hj)
  · rintro ⟨i, heq, hlt⟩
    refine ⟨i, ha.symm ▸ i.isLt, fun j hj => ?_, UInt32.lt_iff_toNat_lt.mpr hlt⟩
    exact UInt32.toNat_inj.mp (heq ⟨j, by omega⟩ hj)

/-- The smaller exponent at the last difference is the colexicographic order turned around. -/
theorem cmpReverse_exponents_iff (ha : a.arity = n) (hb : b.arity = n) :
    cmpReverse a.exponents b.exponents = .lt ↔ toColex (b.exps n) < toColex (a.exps n) := by
  rw [cmpReverse_eq_lt_iff (ha.trans hb.symm), Finsupp.Colex.lt_iff]
  constructor
  · rintro ⟨i, hi, heq, hlt⟩
    refine ⟨⟨i, ha ▸ hi⟩, fun j hj => ?_, UInt32.lt_iff_toNat_lt.mp hlt⟩
    exact congrArg UInt32.toNat (heq j hj (ha.symm ▸ j.isLt)).symm
  · rintro ⟨i, heq, hlt⟩
    refine ⟨i, ha.symm ▸ i.isLt, fun j hij hj => ?_, UInt32.lt_iff_toNat_lt.mpr hlt⟩
    exact (UInt32.toNat_inj.mp (heq ⟨j, ha ▸ hj⟩ hij)).symm

theorem cmp_eq_lt_iff (o : TermOrder) (ha : a.arity = n) (hb : b.arity = n) :
    o.cmp a b = .lt ↔ o.rank n a < o.rank n b := by
  cases o with
  | lex => exact cmpLex_exponents_iff ha hb
  | grlex =>
    rw [cmp, Ordering.then_eq_lt, Nat.compare_eq_lt, Nat.compare_eq_eq, cmpLex_exponents_iff ha hb,
      ← Monomial.degree_exps ha, ← Monomial.degree_exps hb]
    exact Finsupp.DegLex.lt_iff.symm
  | grevlex =>
    rw [cmp, Ordering.then_eq_lt, Nat.compare_eq_lt, Nat.compare_eq_eq,
      cmpReverse_exponents_iff ha hb, ← Monomial.degree_exps ha, ← Monomial.degree_exps hb]
    exact GradedReverse.ofVector_lt_iff.symm

/-- On monomials of one arity the comparison is that of ranks in a linear order. -/
theorem cmp_eq_compare (o : TermOrder) (ha : a.arity = n) (hb : b.arity = n) :
    o.cmp a b = Ord.compare (o.rank n a) (o.rank n b) := by
  have hab := cmp_eq_lt_iff o ha hb
  have hba := cmp_eq_lt_iff o hb ha
  rw [← cmp_swap o a b] at hba
  cases h : o.cmp a b with
  | lt => exact (compare_lt_iff_lt.mpr (hab.mp h)).symm
  | gt => exact (compare_gt_iff_gt.mpr (hba.mp (by rw [h]; rfl))).symm
  | eq =>
    refine (compare_eq_iff_eq.mpr (le_antisymm ?_ ?_)).symm
    · exact not_lt.mp fun hlt => by rw [h] at hba; exact absurd (hba.mpr hlt) (by decide)
    · exact not_lt.mp fun hlt => by rw [h] at hab; exact absurd (hab.mpr hlt) (by decide)

/-- The larger monomial has the larger rank. -/
theorem cmp_eq_gt_iff (o : TermOrder) (ha : a.arity = n) (hb : b.arity = n) :
    o.cmp a b = .gt ↔ o.rank n b < o.rank n a := by
  rw [cmp_eq_compare o ha hb, compare_gt_iff_gt]

/-- Monomials of one arity are told apart by their ranks. -/
theorem rank_injective (o : TermOrder) (ha : a.arity = n) (hb : b.arity = n)
    (h : o.rank n a = o.rank n b) : a = b :=
  Monomial.eq_of_exps_eq ha hb ((o.monomialOrder n).toSyn.injective h)

/-- Monomials of one arity that compare equal are the same. -/
theorem cmp_eq_eq_iff (o : TermOrder) (ha : a.arity = n) (hb : b.arity = n) :
    o.cmp a b = .eq ↔ a = b := by
  rw [cmp_eq_compare o ha hb, compare_eq_iff_eq]
  exact ⟨rank_injective o ha hb, congrArg _⟩

/-! ## Ranks of products and quotients -/

/-- Ranks add up in products. -/
theorem rank_mul (o : TermOrder) {c : Monomial} (ha : a.arity = n) (h : a.mul b = .ok c) :
    o.rank n c = o.rank n a + o.rank n b := by
  rw [rank, rank, rank, Monomial.exps_mul ha h, map_add]

theorem rank_div_add (o : TermOrder) {c : Monomial} (ha : a.arity = n) (h : a.div b = .ok c) :
    o.rank n c + o.rank n b = o.rank n a := by
  rw [rank, rank, rank, ← Monomial.exps_div_add ha h, map_add]

end TermOrder
end PolyIdeal
