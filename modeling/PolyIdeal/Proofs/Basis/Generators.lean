import PolyIdeal.Basis.Groebner
import PolyIdeal.Proofs.Division.Totality
import PolyIdeal.Proofs.Polynomial.NormalForm

/-!
# The generators of a basis

`b.Fits n o` says that every generator has the shape of the basis and none is zero. Building a basis
from a list establishes it, and inserting keeps it.

A completion inserts remainders. No term of a remainder is divisible by a leading monomial of the
basis it was divided by, whereas a polynomial that the basis already contains shares its leading
monomial with a generator. So a remainder is never taken for a duplicate, whatever the
coefficients are: `insert_remainder`.
-/

namespace PolyIdeal

variable {K : Type} {n : ℕ} {o : TermOrder}

/-! ## Pairs of a list -/

theorem mem_laterPairs_iff {α : Type} {xs : List α} {x y : α} :
    (x, y) ∈ laterPairs xs ↔ ∃ i j : ℕ, i < j ∧ xs[i]? = some x ∧ xs[j]? = some y := by
  induction xs with
  | nil => simp [laterPairs]
  | cons z zs ih =>
    have hhead : (x, y) ∈ zs.map (z, ·) ↔ z = x ∧ y ∈ zs := by
      simp only [List.mem_map, Prod.mk.injEq]
      exact ⟨fun ⟨w, hw, hz, hy⟩ => ⟨hz, hy ▸ hw⟩, fun ⟨hz, hy⟩ => ⟨y, hy, hz, rfl⟩⟩
    rw [laterPairs, List.mem_append, ih, hhead]
    constructor
    · rintro (⟨rfl, hy⟩ | ⟨i, j, hij, hx, hy⟩)
      · obtain ⟨j, hj⟩ := List.mem_iff_getElem?.mp hy
        exact ⟨0, j + 1, Nat.succ_pos j, rfl, hj⟩
      · exact ⟨i + 1, j + 1, Nat.succ_lt_succ hij, hx, hy⟩
    · rintro ⟨i, _ | j, hij, hx, hy⟩
      · exact absurd hij (Nat.not_lt_zero i)
      · cases i with
        | zero => exact .inl ⟨Option.some.inj hx, List.mem_of_getElem? hy⟩
        | succ i => exact .inr ⟨i, j, Nat.lt_of_succ_lt_succ hij, hx, hy⟩

theorem length_laterPairs {α : Type} (xs : List α) :
    (laterPairs xs).length = xs.length * (xs.length - 1) / 2 := by
  induction xs with
  | nil => simp [laterPairs]
  | cons x xs ih =>
    rw [laterPairs, List.length_append, List.length_map, ih, List.length_cons, Nat.triangle_succ,
      Nat.add_comm]

namespace Polynomial

variable [Scalar K] {p q : Polynomial K}

/-- Polynomials that agree approximately have the same monomials. -/
theorem support_eq_of_approxEq (h : p.approxEq q = true) : p.support = q.support := by
  simp only [approxEq, sameSupport, Bool.and_eq_true, beq_iff_eq] at h
  exact h.1.2

end Polynomial

namespace Basis

variable {b c : Basis K} {p f g r : Polynomial K}

/-- Nonzero generators in `n` variables, ranked by `o`. -/
structure Fits (n : ℕ) (o : TermOrder) (b : Basis K) : Prop where
  arity_eq : b.arity = n
  order_eq : b.order = o
  generators : ∀ g ∈ b.generators, g.Fits n o
  nonzero : ∀ g ∈ b.generators, g.isZero = false

instance (n : ℕ) (o : TermOrder) (b : Basis K) : Decidable (b.Fits n o) :=
  decidable_of_iff (b.arity = n ∧ b.order = o ∧ (∀ g ∈ b.generators, g.Fits n o) ∧
      ∀ g ∈ b.generators, g.isZero = false)
    ⟨fun h => ⟨h.1, h.2.1, h.2.2.1, h.2.2.2⟩,
      fun h => ⟨h.arity_eq, h.order_eq, h.generators, h.nonzero⟩⟩

theorem checkFits_eq_ok_iff : b.checkFits p = .ok () ↔ b.arity = p.arity ∧ b.order = p.order := by
  unfold checkFits
  rw [bind_eq_ok_iff]
  constructor
  · rintro ⟨⟨⟩, harity, h⟩
    refine ⟨checkArity_eq_ok_iff.mp harity, ?_⟩
    split at h
    · assumption
    · cases h
  · rintro ⟨harity, horder⟩
    exact ⟨(), checkArity_eq_ok_iff.mpr harity, if_pos horder⟩

theorem size_append (b : Basis K) (r : Polynomial K) :
    ({ b with generators := b.generators ++ [r] } : Basis K).size = b.size + 1 :=
  List.length_append

theorem fits_empty (n : ℕ) (o : TermOrder) : (empty n o : Basis K).Fits n o :=
  ⟨rfl, rfl, fun _ hg => absurd hg List.not_mem_nil, fun _ hg => absurd hg List.not_mem_nil⟩

/-- One more generator of the right shape. -/
theorem Fits.append (hb : b.Fits n o) (hp : p.Fits n o) (hp0 : p.isZero = false) :
    ({ b with generators := b.generators ++ [p] } : Basis K).Fits n o :=
  ⟨hb.arity_eq, hb.order_eq,
    List.forall_mem_append.mpr ⟨hb.generators, List.forall_mem_singleton.mpr hp⟩,
    List.forall_mem_append.mpr ⟨hb.nonzero, List.forall_mem_singleton.mpr hp0⟩⟩

variable [Scalar K]

/-! ## Inserting -/

/-- Inserting either leaves the basis alone or appends. -/
theorem insert_eq_ok_iff {added : Bool} : b.insert p = .ok (c, added) ↔
    b.checkFits p = .ok () ∧
      ((p.isZero || b.contains p) = true ∧ b = c ∧ added = false ∨
        (p.isZero || b.contains p) = false ∧
          { b with generators := b.generators ++ [p] } = c ∧ added = true) := by
  unfold insert
  rw [bind_eq_ok_iff]
  cases hskip : p.isZero || b.contains p with
  | true =>
    simp only [if_true, pure_eq_ok_iff, Prod.mk.injEq, true_and, Bool.true_eq_false,
      false_and, or_false]
    constructor
    · rintro ⟨⟨⟩, hfit, hc, hadd⟩
      exact ⟨hfit, hc, hadd.symm⟩
    · rintro ⟨hfit, hc, hadd⟩
      exact ⟨(), hfit, hc, hadd.symm⟩
  | false =>
    simp only [Bool.false_eq_true, if_false, pure_eq_ok_iff, Prod.mk.injEq, false_and, false_or,
      true_and]
    constructor
    · rintro ⟨⟨⟩, hfit, hc, hadd⟩
      exact ⟨hfit, hc, hadd.symm⟩
    · rintro ⟨hfit, hc, hadd⟩
      exact ⟨(), hfit, hc, hadd.symm⟩

theorem Fits.insert {added : Bool} (hb : b.Fits n o) (hp : p.Fits n o)
    (h : b.insert p = .ok (c, added)) : c.Fits n o := by
  obtain ⟨-, ⟨-, rfl, -⟩ | ⟨hskip, rfl, -⟩⟩ := insert_eq_ok_iff.mp h
  · exact hb
  · exact hb.append hp (Bool.or_eq_false_iff.mp hskip).1

/-- A polynomial of the shape of the basis can be inserted. -/
theorem Fits.exists_insert (hb : b.Fits n o) (hp : p.Fits n o) : ∃ res, b.insert p = .ok res := by
  have hfit : b.checkFits p = .ok () := checkFits_eq_ok_iff.mpr
    ⟨hb.arity_eq.trans hp.arity_eq.symm, hb.order_eq.trans hp.order_eq.symm⟩
  unfold Basis.insert
  rw [bind_of_eq_ok hfit]
  split
  · exact ⟨_, rfl⟩
  · exact ⟨_, rfl⟩

/-- A polynomial that counts as present shares its leading monomial with a generator. -/
theorem exists_leadDivides_of_contains {t : Term K} (ht : p.leadingTerm = .ok t)
    (h : b.contains p = true) : ∃ g ∈ b.generators, g.leadDivides t.monomial = true := by
  obtain ⟨g, hg, happrox⟩ := List.any_eq_true.mp h
  obtain ⟨ts, hts⟩ := Polynomial.leadingTerm_eq_ok_iff.mp ht
  have hsupport : g.terms.map Term.monomial = t.monomial :: ts.map Term.monomial := by
    rw [← List.map_cons, ← hts]
    exact Polynomial.support_eq_of_approxEq happrox
  obtain ⟨u, us, hus, hu, -⟩ := List.map_eq_cons_iff.mp hsupport
  refine ⟨g, hg, Polynomial.leadDivides_eq_true_iff.mpr ⟨u, us, hus, ?_⟩⟩
  rw [hu]
  exact Monomial.divides_self _

/-- A remainder that is not zero is not among the generators it was divided by. -/
theorem contains_remainder (h : b.remainder p = .ok r) (hr : r.isZero = false) :
    b.contains r = false := by
  obtain ⟨t, ts, hts⟩ := Polynomial.isZero_eq_false_iff.mp hr
  refine Bool.eq_false_iff.mpr fun hc => ?_
  obtain ⟨g, hg, hdvd⟩ :=
    exists_leadDivides_of_contains (Polynomial.leadingTerm_eq_ok_iff.mpr ⟨ts, hts⟩) hc
  have hnot := Polynomial.leadDivides_of_mem_remainder h (hts ▸ List.mem_cons_self) hg
  rw [hdvd] at hnot
  cases hnot

/-- Inserting a remainder that is not zero appends it. -/
theorem insert_remainder {added : Bool} (h : b.remainder p = .ok r) (hr : r.isZero = false)
    (hi : b.insert r = .ok (c, added)) :
    c = { b with generators := b.generators ++ [r] } ∧ added = true := by
  obtain ⟨-, ⟨hskip, -, -⟩ | ⟨-, hc, hadd⟩⟩ := insert_eq_ok_iff.mp hi
  · rw [hr, contains_remainder h hr] at hskip
    cases hskip
  · exact ⟨hc.symm, hadd⟩

/-! ## Bases of lists -/

/-- What an empty basis has and inserting one of the polynomials keeps, the basis of the list has.
-/
theorem ofList_invariant {P : Basis K → Prop} {ps : List (Polynomial K)}
    (hempty : ∀ n o, P (empty n o))
    (hinsert : ∀ b c added, ∀ p ∈ ps, P b → b.insert p = .ok (c, added) → P c)
    (h : ofList ps = .ok b) : P b := by
  cases ps with
  | nil => exact Except.ok.inj h ▸ hempty 0 default
  | cons p ps =>
    refine foldlM_invariant (fun b c q hq hb hc => ?_) (hempty p.arity p.order) h
    obtain ⟨⟨c', added⟩, hi, hc⟩ := bind_eq_ok_iff.mp hc
    exact pure_eq_ok_iff.mp hc ▸ hinsert b c' added q hq hb hi

/-- For a basis in a given order, inserting keeps it if it does for each polynomial brought into
it. -/
theorem ofListIn_invariant {P : Basis K → Prop} {ps : List (Polynomial K)}
    (hempty : ∀ n o, P (empty n o))
    (hinsert : ∀ b c q added, ∀ p ∈ ps, P b → p.reorder o = .ok q → b.insert q = .ok (c, added) →
      P c)
    (h : ofListIn o ps = .ok b) : P b := by
  cases ps with
  | nil => exact Except.ok.inj h ▸ hempty 0 default
  | cons p ps =>
    refine foldlM_invariant (fun b c q hq hb hc => ?_) (hempty p.arity o) h
    obtain ⟨q', hq', hc⟩ := bind_eq_ok_iff.mp hc
    obtain ⟨⟨c', added⟩, hi, hc⟩ := bind_eq_ok_iff.mp hc
    exact pure_eq_ok_iff.mp hc ▸ hinsert b c' q' added q hq hb hq' hi

theorem fits_ofListIn {ps : List (Polynomial K)} (harity : ∀ p ∈ ps, p.arity = n)
    (ha : ∀ p ∈ ps, OfArity n p.terms) (hne : ps ≠ []) (h : ofListIn o ps = .ok b) :
    b.Fits n o := by
  cases ps with
  | nil => exact absurd rfl hne
  | cons p ps =>
    refine foldlM_invariant (P := Fits n o) (fun b c q hq hb hc => ?_) ?_ h
    · obtain ⟨q', hq', hc⟩ := bind_eq_ok_iff.mp hc
      obtain ⟨⟨c', added⟩, hi, hc⟩ := bind_eq_ok_iff.mp hc
      rw [← pure_eq_ok_iff.mp hc]
      exact hb.insert (Polynomial.fits_reorder (harity q hq) (ha q hq) hq') hi
    · rw [harity p List.mem_cons_self]
      exact fits_empty n o

/-! ## Pairs that reduce to zero -/

theorem pairRemainder_eq_ok_iff : b.pairRemainder f g = .ok r ↔
    ∃ s, f.sPolynomial g = .ok s ∧ b.remainder s = .ok r := by
  rw [pairRemainder, bind_eq_ok_iff]

/-- The S-polynomial of `f` and `g` leaves nothing over. -/
def ReducesPair (b : Basis K) (f g : Polynomial K) : Prop :=
  ∃ r, b.pairRemainder f g = .ok r ∧ r.isZero = true

/-- The check for a Gröbner basis goes through all pairs of positions. -/
theorem isGroebner_eq_ok_true_iff : b.isGroebner = .ok true ↔
    ∀ {i j : ℕ} {f g : Polynomial K}, i < j → b.generators[i]? = some f →
      b.generators[j]? = some g → b.ReducesPair f g := by
  have hpair : ∀ x : Polynomial K × Polynomial K,
      (do return (← b.pairRemainder x.1 x.2).isZero : Except Fault Bool) = .ok true ↔
        b.ReducesPair x.1 x.2 := fun x => by
    simp only [bind_eq_ok_iff, pure_eq_ok_iff, ReducesPair]
  unfold isGroebner
  rw [allM_eq_ok_true_iff]
  simp only [hpair]
  constructor
  · intro h i j f g hij hf hg
    exact h (f, g) (mem_laterPairs_iff.mpr ⟨i, j, hij, hf, hg⟩)
  · rintro h ⟨f, g⟩ hx
    obtain ⟨i, j, hij, hf, hg⟩ := mem_laterPairs_iff.mp hx
    exact h hij hf hg

theorem Fits.pairRemainder (hb : b.Fits n o) (hf : f.Fits n o) (hg : g.Fits n o)
    (h : b.pairRemainder f g = .ok r) : r.Fits n o := by
  obtain ⟨s, hs, hr⟩ := pairRemainder_eq_ok_iff.mp h
  exact (hf.sPolynomial hg hs).remainder hb.generators hr

/-- What is left of an S-polynomial can be inserted, and is never refused as a duplicate. -/
theorem Fits.insert_pairRemainder (hb : b.Fits n o) (hf : f.Fits n o) (hg : g.Fits n o)
    (h : b.pairRemainder f g = .ok r) (hr : r.isZero = false) :
    b.insert r = .ok ({ b with generators := b.generators ++ [r] }, true) := by
  obtain ⟨⟨c, added⟩, hinsert⟩ := hb.exists_insert (hb.pairRemainder hf hg h)
  obtain ⟨s, -, hrem⟩ := pairRemainder_eq_ok_iff.mp h
  obtain ⟨rfl, rfl⟩ := insert_remainder hrem hr hinsert
  exact hinsert

/-- The S-polynomial of two generators can be divided, unless an exponent overflows. -/
theorem Fits.overflowOnly_pairRemainder (hb : b.Fits n o) (hf : f ∈ b.generators)
    (hg : g ∈ b.generators) : OverflowOnly (b.pairRemainder f g) := by
  have hffits := hb.generators f hf
  have hgfits := hb.generators g hg
  refine OverflowOnly.bind (Polynomial.overflowOnly_sPolynomial hffits hgfits (hb.nonzero f hf)
    (hb.nonzero g hg)) fun s hs => ?_
  exact Polynomial.overflowOnly_remainder (hffits.sPolynomial hgfits hs) hb.generators

/-- A pair that reduces to zero keeps doing so when generators are added at the end. -/
theorem ReducesPair.append (hf : f.Fits n o) (hg : g.Fits n o)
    {E : List (Polynomial K)} (hE : ∀ q ∈ E, q.Fits n o) (h : b.ReducesPair f g) :
    ({ b with generators := b.generators ++ E } : Basis K).ReducesPair f g := by
  obtain ⟨r, hr, hz⟩ := h
  obtain ⟨s, hs, hrem⟩ := pairRemainder_eq_ok_iff.mp hr
  have hsfits := hf.sPolynomial hg hs
  refine ⟨r, pairRemainder_eq_ok_iff.mpr ⟨s, hs, ?_⟩, hz⟩
  exact Polynomial.remainder_append hrem hz fun q hq => hsfits.checkCompatible (hE q hq)

end Basis
end PolyIdeal
