import Mathlib
import PolyIdeal.Proofs.Ordered.Cutting
import PolyIdeal.Proofs.Polynomial.Agreement
import PolyIdeal.Proofs.Polynomial.Overflow

/-!
# Sums of three polynomials with a threshold

Addition is commutative: the two sums cut the same numbers. It is associative only up to the
threshold. A partial sum below the threshold is cut, and what is cut off in one grouping need not be
cut off in the other one. Either way less than the threshold is lost at each monomial, so that two
groupings differ by less than twice the threshold. But they need not agree approximately, since this
asks for the same monomials in both and for a difference below the threshold itself.

Which coefficients regroup is a question about three numbers, each of them zero or at least as large
as the threshold (`Regroups`). In particular all do if no partial sum is cut.
-/

namespace PolyIdeal

open Scalar

variable {K : Type} [OrderedScalar K] {n : ℕ} {o : TermOrder}

/-! ## Three numbers -/

namespace Scalar

variable {ε x y z a b : K}

/-- `x + y` is cut, `z` is added, and the sum is cut. -/
def cutSum (ε x y z : K) : K := cut ε (cut ε (x + y) + z)

/-- Both are zero or neither is, and they differ by less than the threshold. -/
def Agrees (ε a b : K) : Prop := (a = 0 ↔ b = 0) ∧ |a - b| < ε

/-- The condition under which `x + y + z` may be regrouped. -/
@[mk_iff] structure Regroups (ε x y z : K) : Prop where
  /-- If the first sum alone is cut, the number that is left vanishes or the whole is not cut, -/
  left : |x + y| < ε → ε ≤ |y + z| → z = 0 ∨ ε ≤ |x + y + z|
  /-- and the same for the second sum. -/
  right : ε ≤ |x + y| → |y + z| < ε → x = 0 ∨ ε ≤ |x + y + z|
  /-- If both are cut, the numbers that are left are close. -/
  both : |x + y| < ε → |y + z| < ε → |x - z| < ε

theorem Agrees.symm (h : Agrees ε a b) : Agrees ε b a := ⟨h.1.symm, by rw [abs_sub_comm]; exact h.2⟩

theorem agrees_comm : Agrees ε a b ↔ Agrees ε b a := ⟨.symm, .symm⟩

theorem agrees_refl (hε : 0 < ε) (a : K) : Agrees ε a a := by
  refine ⟨Iff.rfl, ?_⟩
  rw [sub_self, abs_zero]
  exact hε

theorem cutSum_of_le (h : ε ≤ |x + y|) : cutSum ε x y z = cut ε (x + y + z) := by
  rw [cutSum, cut_of_le h]

theorem cutSum_of_lt (h : |x + y| < ε) (hz : cut ε z = z) : cutSum ε x y z = z := by
  rw [cutSum, cut_of_lt h, zero_add, hz]

/-- Less than the threshold is lost. -/
theorem abs_cutSum_sub_lt (hε : 0 < ε) (hz : cut ε z = z) :
    |cutSum ε x y z - (x + y + z)| < ε := by
  rcases le_or_gt ε |x + y| with h | h
  · rw [cutSum_of_le h]
    exact abs_cut_sub_lt hε _
  · rw [cutSum_of_lt h hz, sub_add_cancel_right, abs_neg]
    exact h

/-- The last number agrees with the whole sum if it is zero or the whole sum stays. -/
theorem agrees_cut_iff (hε : 0 < ε) (h : |x + y| < ε) :
    Agrees ε z (cut ε (x + y + z)) ↔ z = 0 ∨ ε ≤ |x + y + z| := by
  constructor
  · rintro ⟨hzero, -⟩
    refine or_iff_not_imp_left.mpr fun hz => not_lt.mp fun hlt => hz ?_
    exact hzero.mpr (cut_of_lt hlt)
  · rintro (rfl | hle)
    · rw [add_zero, cut_of_lt h]
      exact agrees_refl hε 0
    · have hwhole : x + y + z ≠ 0 := fun hzero => by
        rw [hzero, abs_zero] at hle
        exact hε.not_ge hle
      have hz : z ≠ 0 := by
        rintro rfl
        rw [add_zero] at hle
        exact h.not_ge hle
      rw [cut_of_le hle]
      refine ⟨iff_of_false hz hwhole, ?_⟩
      rwa [sub_add_cancel_right, abs_neg]

/-- Two numbers that are stored agree if they differ by less than the threshold. -/
theorem agrees_iff (ha : cut ε a = a) (hb : cut ε b = b) : Agrees ε a b ↔ |a - b| < ε := by
  refine ⟨fun h => h.2, fun h => ⟨⟨?_, ?_⟩, h⟩⟩
  · rintro rfl
    rw [zero_sub, abs_neg] at h
    rw [← hb, cut_of_lt h]
  · rintro rfl
    rw [sub_zero] at h
    rw [← ha, cut_of_lt h]

/-- The two groupings of three numbers agree if and only if these regroup. -/
theorem agrees_cutSum_iff (hε : 0 < ε) (hx : cut ε x = x) (hz : cut ε z = z) :
    Agrees ε (cutSum ε x y z) (cutSum ε z y x) ↔ Regroups ε x y z := by
  have hcomm : |z + y| = |y + z| := by rw [add_comm]
  have hwhole : z + y + x = x + y + z := by ring
  rw [regroups_iff]
  rcases le_or_gt ε |x + y| with hxy | hxy
  · rcases le_or_gt ε |y + z| with hyz | hyz
    · have hagree : Agrees ε (cutSum ε x y z) (cutSum ε z y x) := by
        rw [cutSum_of_le hxy, cutSum_of_le (hcomm ▸ hyz), hwhole]
        exact agrees_refl hε _
      simp [hagree, hxy.not_gt, hyz.not_gt]
    · have hagree : Agrees ε (cutSum ε x y z) (cutSum ε z y x) ↔ x = 0 ∨ ε ≤ |x + y + z| := by
        rw [cutSum_of_le hxy, cutSum_of_lt (hcomm ▸ hyz) hx, agrees_comm, ← hwhole]
        exact agrees_cut_iff hε (hcomm ▸ hyz)
      simp [hagree, hxy, hxy.not_gt, hyz]
  · rcases le_or_gt ε |y + z| with hyz | hyz
    · have hagree : Agrees ε (cutSum ε x y z) (cutSum ε z y x) ↔ z = 0 ∨ ε ≤ |x + y + z| := by
        rw [cutSum_of_lt hxy hz, cutSum_of_le (hcomm ▸ hyz), hwhole]
        exact agrees_cut_iff hε hxy
      simp [hagree, hxy, hxy.not_ge, hyz, hyz.not_gt]
    · have hagree : Agrees ε (cutSum ε x y z) (cutSum ε z y x) ↔ |x - z| < ε := by
        rw [cutSum_of_lt hxy hz, cutSum_of_lt (hcomm ▸ hyz) hx, agrees_comm]
        exact agrees_iff hx hz
      simp [hagree, hxy, hxy.not_ge, hyz, hyz.not_ge]

end Scalar

namespace Polynomial

variable {ε : K} {a b c p q r l : Polynomial K}

/-! ## Approximate agreement -/

namespace Stored

/-- A coefficient that can be looked up is not zero. -/
theorem coeffAt_ne_zero (hp : p.Stored n o ε) (hε : 0 < ε) {m : Monomial} {c : K}
    (h : coeffAt p.terms m = some c) : c ≠ 0 :=
  hp.ne_zero hε ⟨m, c⟩ ((mem_iff_coeffAt hp.fits.ofArity hp.fits.descending).mpr h)

/-- At a monomial of the program, agreement can be told from the coefficients of algebra. -/
theorem rel_coeffAt_iff (hp : p.Stored n o ε) (hq : q.Stored n o ε) (hε : 0 < ε) {m : Monomial}
    (hm : m.arity = n) : Option.Rel (fun a b => Scalar.negligible ε (a - b) = true)
      (coeffAt p.terms m) (coeffAt q.terms m) ↔
        Agrees ε (p.coeffOf n (m.exps n)) (q.coeffOf n (m.exps n)) := by
  unfold coeffOf
  rw [coeff_exactMv hp.fits.ofArity hp.fits.descending hm,
    coeff_exactMv hq.fits.ofArity hq.fits.descending hm]
  cases hc : coeffAt p.terms m with
  | none =>
    cases hd : coeffAt q.terms m with
    | none => exact iff_of_true .none (agrees_refl hε 0)
    | some d =>
      have hd0 := hq.coeffAt_ne_zero hε hd
      exact iff_of_false (fun h => by cases h) fun h => hd0 (h.1.mp rfl)
  | some c =>
    have hc0 := hp.coeffAt_ne_zero hε hc
    cases hd : coeffAt q.terms m with
    | none => exact iff_of_false (fun h => by cases h) fun h => hc0 (h.1.mpr rfl)
    | some d =>
      have hd0 := hq.coeffAt_ne_zero hε hd
      rw [Option.rel_some_some, negligible_iff_lt]
      exact ⟨fun h => ⟨iff_of_false hc0 hd0, h⟩, fun h => h.2⟩

/-- Polynomials agree approximately if and only if their coefficients agree. -/
theorem approxEq_iff (hp : p.Stored n o ε) (hq : q.Stored n o ε) (hε : 0 < ε) :
    p.approxEq q = true ↔ ∀ e, Agrees ε (p.coeffOf n e) (q.coeffOf n e) := by
  rw [hp.fits.approxEq_iff hq.fits, hp.epsilon_eq]
  constructor
  · intro h e
    rcases exists_exps_or_coeff_eq_zero K e with ⟨m, hm, rfl⟩ | hzero
    · exact (hp.rel_coeffAt_iff hq hε hm).mp (h m)
    · unfold coeffOf
      rw [hzero p.terms hp.fits.ofArity, hzero q.terms hq.fits.ofArity]
      exact agrees_refl hε 0
  · intro h m
    by_cases hm : m.arity = n
    · exact (hp.rel_coeffAt_iff hq hε hm).mpr (h _)
    · have hnone : ∀ {f : Polynomial K}, f.Fits n o → coeffAt f.terms m = none := fun hf =>
        coeffAt_eq_none_iff.mpr fun t ht heq => hm (heq ▸ hf.ofArity t ht)
      rw [hnone hp.fits, hnone hq.fits]
      exact .none

/-! ## Sums of two -/

theorem coeffOf_add (hp : p.Stored n o ε) (hq : q.Fits n o) (h : p.add q = .ok r)
    (e : Fin n →₀ ℕ) : r.coeffOf n e = cut ε (p.coeffOf n e + q.coeffOf n e) := by
  rw [hp.coeffOf_addScaled hq h, one_mul]

/-- The operands of a sum that exists may be exchanged. -/
theorem add_swap (hp : p.Stored n o ε) (hq : q.Stored n o ε) (hε : 0 < ε) (h : p.add q = .ok r) :
    q.add p = .ok r := by
  obtain ⟨r', hr'⟩ := exists_addScaled_swap hp.fits hq.fits h 1
  have hsame : r' = r := by
    refine (hq.addScaled hp.fits hr').eq_of_coeffOf_eq (hp.addScaled hq.fits h) hε fun e => ?_
    rw [hq.coeffOf_add hp.fits hr', hp.coeffOf_add hq.fits h, add_comm]
  exact hsame ▸ hr'

/-- Sums with exchanged operands are the same, failures included. -/
theorem add_eq_swap (hp : p.Stored n o ε) (hq : q.Stored n o ε) (hε : 0 < ε) :
    q.add p = p.add q := by
  rcases (overflowOnly_addScaled (s := 1) hq.fits hp.fits).cases with h' | ⟨r', h'⟩
  · rcases (overflowOnly_addScaled (s := 1) hp.fits hq.fits).cases with h | ⟨r, h⟩
    · exact h'.trans h.symm
    · exact (hp.add_swap hq hε h).trans h.symm
  · exact h'.trans (hq.add_swap hp hε h').symm

end Stored

/-! ## Groupings -/

/-- The sum `(a + b) + c`. -/
def groupLeft (a b c : Polynomial K) : Except Fault (Polynomial K) := do (← a.add b).add c

/-- The sum `a + (b + c)`. -/
def groupRight (a b c : Polynomial K) : Except Fault (Polynomial K) := do a.add (← b.add c)

theorem stored_groupLeft (ha : a.Stored n o ε) (hb : b.Fits n o) (hc : c.Fits n o)
    (hl : groupLeft a b c = .ok l) : l.Stored n o ε := by
  obtain ⟨s, hs, hl⟩ := bind_eq_ok_iff.mp hl
  exact (ha.addScaled hb hs).addScaled hc hl

theorem coeffOf_groupLeft (ha : a.Stored n o ε) (hb : b.Fits n o) (hc : c.Fits n o)
    (hl : groupLeft a b c = .ok l) (e : Fin n →₀ ℕ) :
    l.coeffOf n e = cutSum ε (a.coeffOf n e) (b.coeffOf n e) (c.coeffOf n e) := by
  obtain ⟨s, hs, hl⟩ := bind_eq_ok_iff.mp hl
  rw [(ha.addScaled hb hs).coeffOf_add hc hl, ha.coeffOf_add hb hs, cutSum]

/-- The right grouping is the left one of the operands in reverse order. -/
theorem groupRight_eq (ha : a.Stored n o ε) (hb : b.Stored n o ε) (hc : c.Stored n o ε)
    (hε : 0 < ε) : groupRight a b c = groupLeft c b a := by
  unfold groupRight groupLeft
  rw [hc.add_eq_swap hb hε]
  cases hs : c.add b with
  | error e => rfl
  | ok s => exact (hc.addScaled hb.fits hs).add_eq_swap ha hε

/-- Both groupings have a result if the order can rank all monomials. -/
theorem exists_groupLeft (ha : a.Fits n o) (hb : b.Fits n o) (hc : c.Fits n o)
    (har : Rankable o a.terms) (hbr : Rankable o b.terms) (hcr : Rankable o c.terms) :
    ∃ l, groupLeft a b c = .ok l := by
  obtain ⟨s, hs⟩ := (yields_iff.mp (yields_addScaled (s := 1) ha hb)).2.1 ⟨har, hbr⟩
  obtain ⟨l, hl⟩ := (yields_iff.mp (yields_addScaled (s := 1) (ha.addScaled hb hs) hc)).2.1
    ⟨rankable_addScaled har hbr hs, hcr⟩
  exact ⟨l, bind_eq_ok_iff.mpr ⟨s, hs, hl⟩⟩

/-- How a sum of `a`, `b` and `c` depends on the order and on the grouping. -/
structure SumLaws (n : ℕ) (ε : K) (a b c : Polynomial K) : Prop where
  /-- Two operands may be exchanged, -/
  commutes : b.add a = a.add b
  /-- and the sums agree approximately. -/
  approxEq_swap : ∀ r r', a.add b = .ok r → b.add a = .ok r' → r.approxEq r' = true
  /-- Both groupings have a result if the order can rank all monomials. -/
  total : Rankable a.order a.terms → Rankable a.order b.terms → Rankable a.order c.terms →
    ∃ l r, groupLeft a b c = .ok l ∧ groupRight a b c = .ok r
  /-- Each grouping loses less than the threshold at a monomial. -/
  close : ∀ l r, groupLeft a b c = .ok l → groupRight a b c = .ok r → ∀ e : Fin n →₀ ℕ,
    |l.coeffOf n e - (a.coeffOf n e + b.coeffOf n e + c.coeffOf n e)| < ε ∧
      |r.coeffOf n e - (a.coeffOf n e + b.coeffOf n e + c.coeffOf n e)| < ε
  /-- The groupings agree approximately exactly if the coefficients regroup at every monomial. -/
  approxEq_iff : ∀ l r, groupLeft a b c = .ok l → groupRight a b c = .ok r →
    (l.approxEq r = true ↔
      ∀ e : Fin n →₀ ℕ, Regroups ε (a.coeffOf n e) (b.coeffOf n e) (c.coeffOf n e))
  /-- They are equal if the partial sums lose nothing. -/
  eq_of_cut : ∀ l r, groupLeft a b c = .ok l → groupRight a b c = .ok r →
    (∀ e : Fin n →₀ ℕ, cut ε (a.coeffOf n e + b.coeffOf n e) = a.coeffOf n e + b.coeffOf n e ∧
      cut ε (b.coeffOf n e + c.coeffOf n e) = b.coeffOf n e + c.coeffOf n e) → l = r

/-- Addition of polynomials of one shape and one positive threshold, with significant
coefficients. -/
theorem Stored.sumLaws (ha : a.Stored n o ε) (hb : b.Stored n o ε) (hc : c.Stored n o ε)
    (hε : 0 < ε) : SumLaws n ε a b c := by
  have hcomm := ha.add_eq_swap hb hε
  have hright := groupRight_eq ha hb hc hε
  have hswap : ∀ e : Fin n →₀ ℕ, c.coeffOf n e + b.coeffOf n e + a.coeffOf n e =
      a.coeffOf n e + b.coeffOf n e + c.coeffOf n e := fun e => by ring
  constructor
  case commutes => exact hcomm
  case approxEq_swap =>
    intro r r' hr hr'
    obtain rfl := Except.ok.inj (hr.symm.trans (hcomm.symm.trans hr'))
    have hrs := ha.addScaled hb.fits hr
    exact (hrs.approxEq_iff hrs hε).mpr fun e => agrees_refl hε _
  case total =>
    rw [ha.fits.order_eq, hright]
    intro har hbr hcr
    obtain ⟨l, hl⟩ := exists_groupLeft ha.fits hb.fits hc.fits har hbr hcr
    obtain ⟨r, hr⟩ := exists_groupLeft hc.fits hb.fits ha.fits hcr hbr har
    exact ⟨l, r, hl, hr⟩
  case close =>
    intro l r hl hr e
    rw [hright] at hr
    rw [coeffOf_groupLeft ha hb.fits hc.fits hl, coeffOf_groupLeft hc hb.fits ha.fits hr]
    refine ⟨abs_cutSum_sub_lt hε (hc.cut_coeffOf e), ?_⟩
    rw [← hswap]
    exact abs_cutSum_sub_lt hε (ha.cut_coeffOf e)
  case approxEq_iff =>
    intro l r hl hr
    rw [hright] at hr
    rw [(stored_groupLeft ha hb.fits hc.fits hl).approxEq_iff
      (stored_groupLeft hc hb.fits ha.fits hr) hε]
    refine forall_congr' fun e => ?_
    rw [coeffOf_groupLeft ha hb.fits hc.fits hl, coeffOf_groupLeft hc hb.fits ha.fits hr]
    exact agrees_cutSum_iff hε (ha.cut_coeffOf e) (hc.cut_coeffOf e)
  case eq_of_cut =>
    intro l r hl hr hcut
    rw [hright] at hr
    refine (stored_groupLeft ha hb.fits hc.fits hl).eq_of_coeffOf_eq
      (stored_groupLeft hc hb.fits ha.fits hr) hε fun e => ?_
    obtain ⟨hab, hbc⟩ := hcut e
    rw [coeffOf_groupLeft ha hb.fits hc.fits hl, coeffOf_groupLeft hc hb.fits ha.fits hr, cutSum,
      cutSum, hab, add_comm (c.coeffOf n e), hbc, add_comm _ (a.coeffOf n e), add_assoc]

/-- A multiple of the variable, with the threshold one. -/
def multipleOfX (c : ℚ) : Polynomial ℚ := ⟨1, .lex, 1, [⟨⟨[1]⟩, c⟩]⟩

theorem stored_multipleOfX {c : ℚ} (hc : 1 ≤ |c|) : (multipleOfX c).Stored 1 .lex 1 :=
  ⟨⟨rfl, rfl, List.forall_mem_singleton.mpr rfl, List.pairwise_singleton _ _⟩, rfl,
    List.forall_mem_singleton.mpr (significant_iff_le.mpr hc)⟩

/-- The partial sums of `3 x`, `-13/5 x` and `5/2 x` are both cut. The groupings are `5/2 x` and
`3 x`, which agree approximately. -/
theorem sumLaws_multiplesOfX : ∃ a b c l r : Polynomial ℚ,
    a.Stored 1 .lex 1 ∧ b.Stored 1 .lex 1 ∧ c.Stored 1 .lex 1 ∧ SumLaws 1 1 a b c ∧
      groupLeft a b c = .ok l ∧ groupRight a b c = .ok r ∧
        l.terms.map Term.coeff = [5 / 2] ∧ r.terms.map Term.coeff = [3] ∧
          ∀ e : Fin 1 →₀ ℕ, Regroups 1 (a.coeffOf 1 e) (b.coeffOf 1 e) (c.coeffOf 1 e) := by
  have ha : (multipleOfX 3).Stored 1 .lex 1 := stored_multipleOfX (by decide +kernel)
  have hb : (multipleOfX (-13 / 5)).Stored 1 .lex 1 := stored_multipleOfX (by decide +kernel)
  have hc : (multipleOfX (5 / 2)).Stored 1 .lex 1 := stored_multipleOfX (by decide +kernel)
  have hlaws := Stored.sumLaws ha hb hc one_pos
  have hrun : (do
      let l ← groupLeft (multipleOfX 3) (multipleOfX (-13 / 5)) (multipleOfX (5 / 2))
      let r ← groupRight (multipleOfX 3) (multipleOfX (-13 / 5)) (multipleOfX (5 / 2))
      return (l.terms.map Term.coeff, r.terms.map Term.coeff, l.approxEq r)) =
        .ok ([5 / 2], [3], true) := by decide +kernel
  obtain ⟨l, hl, hrun⟩ := bind_eq_ok_iff.mp hrun
  obtain ⟨r, hr, hrun⟩ := bind_eq_ok_iff.mp hrun
  simp only [pure_eq_ok_iff, Prod.mk.injEq] at hrun
  obtain ⟨hleft, hright, happrox⟩ := hrun
  exact ⟨_, _, _, l, r, ha, hb, hc, hlaws, hl, hr, hleft, hright,
    (hlaws.approxEq_iff l r hl hr).mp happrox⟩

/-- Groupings need not agree. Of `2 x`, `-5/2 x` and `x` the first two are cut, which leaves `x`.
The last two make `-3/2 x`, and together with `2 x` this is `1/2 x`, which is cut. -/
theorem not_approxEq_regrouped : ¬ ∀ (n : ℕ) (o : TermOrder) (ε : ℚ) (a b c l r : Polynomial ℚ),
    0 < ε → a.Stored n o ε → b.Stored n o ε → c.Stored n o ε →
      groupLeft a b c = .ok l → groupRight a b c = .ok r → l.approxEq r = true := by
  intro hall
  have hrun : (do
      let l ← groupLeft (multipleOfX 2) (multipleOfX (-5 / 2)) (multipleOfX 1)
      let r ← groupRight (multipleOfX 2) (multipleOfX (-5 / 2)) (multipleOfX 1)
      return l.approxEq r) = .ok false := by decide +kernel
  obtain ⟨l, hl, hrun⟩ := bind_eq_ok_iff.mp hrun
  obtain ⟨r, hr, hrun⟩ := bind_eq_ok_iff.mp hrun
  have happrox := hall 1 .lex 1 _ _ _ l r one_pos (stored_multipleOfX (by decide +kernel))
    (stored_multipleOfX (by decide +kernel)) (stored_multipleOfX (by decide +kernel)) hl hr
  rw [pure_eq_ok_iff.mp hrun] at happrox
  cases happrox

end Polynomial
end PolyIdeal
