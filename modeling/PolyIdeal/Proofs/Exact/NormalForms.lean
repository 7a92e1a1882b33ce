import Mathlib
import PolyIdeal.Proofs.Exact.GroebnerBases

/-!
# Remainders as normal forms

A basis is a Gröbner basis exactly when division by it finds normal forms: two polynomials leave
the same remainder just in case they are congruent modulo the ideal. The check looks at finitely
many S-polynomials; each of them is congruent to zero, so one that leaves a remainder refutes the
property, and Buchberger's criterion gives the converse. Normal forms do not depend on the Gröbner
basis, let alone on the order of its generators, although each division does.

All this is up to exponents past 32 bits, where the check or a division gives no answer. The
congruence of two polynomials does not bound the exponents on the way to their common remainder:
`remainder_ne_steepBasis`.
-/

namespace PolyIdeal

open Groebner

variable {K : Type} [ExactScalar K] {n : ℕ} {o : TermOrder} {p q r s : Polynomial K}
  {b c d : Basis K}

namespace Basis

/-- Two divisions by the basis that give a remainder give the same one exactly when the dividends
are congruent modulo the ideal. The remainders are compared in all but their thresholds, which
they take from the dividends. -/
def NormalForms (n : ℕ) (o : TermOrder) (b : Basis K) : Prop :=
  ∀ p q r s : Polynomial K, p.Proper n o → q.Proper n o → b.remainder p = .ok r →
    b.remainder q = .ok s →
      ({ r with epsilon := s.epsilon } = s ↔ p.toMv n - q.toMv n ∈ idealOf n b.generators)

theorem Fits.overflowOnly_isGroebner (hb : b.Fits n o) : OverflowOnly b.isGroebner := by
  unfold isGroebner
  refine OverflowOnly.allM fun ⟨f, g⟩ hx => ?_
  obtain ⟨i, j, -, hf, hg⟩ := mem_laterPairs_iff.mp hx
  refine (hb.overflowOnly_pairRemainder (List.mem_of_getElem? hf)
    (List.mem_of_getElem? hg)).bind fun r _ => ?_
  exact .of_eq_ok rfl

/-- A failed check has met a pair that leaves a remainder. -/
theorem exists_pairRemainder_of_isGroebner (h : b.isGroebner = .ok false) :
    ∃ f ∈ b.generators, ∃ g ∈ b.generators, ∃ r, b.pairRemainder f g = .ok r ∧
      r.isZero = false := by
  obtain ⟨⟨f, g⟩, hx, hfalse⟩ := exists_of_allM_eq_ok_false h
  obtain ⟨i, j, -, hf, hg⟩ := mem_laterPairs_iff.mp hx
  obtain ⟨r, hr, hz⟩ := bind_eq_ok_iff.mp hfalse
  exact ⟨f, List.mem_of_getElem? hf, g, List.mem_of_getElem? hg, r, hr, pure_eq_ok_iff.mp hz⟩

namespace Proper

theorem remainder (hb : b.Proper n o) (hp : p.Proper n o) (h : b.remainder p = .ok r) :
    r.Proper n o := Polynomial.Proper.remainder hp hb.generators h

/-- Passing the check makes remainders normal forms. -/
theorem normalForms (hb : b.Proper n o) (h : b.isGroebner = .ok true) : b.NormalForms n o := by
  intro p q r s hp hq hr hs
  have hG := hb.isGroebner_of_eq_ok h
  rw [(hb.remainder hp hr).eq_iff_terms_eq (hb.remainder hq hs).toFits]
  exact Polynomial.terms_remainder_eq_iff hp hq hb.proper hb.proper hG hG hr hs

/-- When the check fails, the S-polynomial of some pair is congruent to zero and leaves another
remainder. -/
theorem not_normalForms (hb : b.Proper n o) (h : b.isGroebner = .ok false) :
    ¬ b.NormalForms n o := by
  intro hnormal
  obtain ⟨f, hf, g, hg, r, hpair, hz⟩ := exists_pairRemainder_of_isGroebner h
  obtain ⟨S, hS, hr⟩ := pairRemainder_eq_ok_iff.mp hpair
  have hfits := hb.generators f hf
  have hSproper := Polynomial.Proper.sPolynomial hfits (hb.generators g hg) hS
  have hSmem := Polynomial.sPolynomial_mem (hb.proper f hf) (hb.proper g hg) (hb.nonzero f hf)
    (hb.nonzero g hg) (toMv_mem_idealOf hf) (toMv_mem_idealOf hg) hS
  -- zero in the shape of `f`
  have hzero : f.cleared.Proper n o :=
    ⟨⟨hfits.arity_eq, hfits.order_eq, ofArity_nil, .nil⟩, fun _ ht => absurd ht List.not_mem_nil⟩
  have hremainder : b.remainder f.cleared = .ok f.cleared :=
    Polynomial.remainder_of_isZero (p := f.cleared) rfl fun d hd =>
      hzero.checkCompatible (hb.generators d hd)
  have hmem : S.toMv n - f.cleared.toMv n ∈ idealOf n b.generators := by
    rw [Polynomial.toMv_of_isZero (p := f.cleared) rfl, sub_zero]
    exact hSmem
  have heq := (hnormal S f.cleared r f.cleared hSproper hzero hr hremainder).mpr hmem
  have hterms : r.terms = [] :=
    ((hb.remainder hSproper hr).eq_iff_terms_eq hzero.toFits).mp heq
  rw [Polynomial.isZero, hterms] at hz
  cases hz

/-- The generators of a basis that passes the check leave the same remainders in all orders. -/
theorem remainder_eq_of_perm (hb : b.Proper n o) (h : b.isGroebner = .ok true)
    (hc : c.generators.Perm b.generators) (hd : d.generators.Perm b.generators)
    (hp : p.Proper n o) (hr : c.remainder p = .ok r) (hs : d.remainder p = .ok s) : r = s := by
  have hG := hb.isGroebner_of_eq_ok h
  -- neither list is known to pass the check itself, which may run into an overflow on it
  have hpermuted : ∀ e : Basis K, e.generators.Perm b.generators →
      (∀ g ∈ e.generators, g.Proper n o) ∧
        IsGroebner (o.monomialOrder n) (idealOf n b.generators) (values n e.generators) := by
    intro e he
    have hvalues : values n e.generators = values n b.generators := by
      simp only [values, he.mem_iff]
    rw [hvalues]
    exact ⟨fun g hg => hb.proper g (he.mem_iff.mp hg), hG⟩
  obtain ⟨hcproper, hGc⟩ := hpermuted c hc
  obtain ⟨hdproper, hGd⟩ := hpermuted d hd
  have hterms : r.terms = s.terms :=
    (Polynomial.terms_remainder_eq_iff hp hp hcproper hdproper hGc hGd hr hs).mpr (by
      rw [sub_self]
      exact Ideal.zero_mem _)
  have hrfits := hp.toFits.remainder (fun g hg => (hcproper g hg).toFits) hr
  have hsfits := hp.toFits.remainder (fun g hg => (hdproper g hg).toFits) hs
  have heq := (hrfits.eq_iff_terms_eq hsfits).mpr hterms
  have hepsilon : s.epsilon = r.epsilon :=
    (Polynomial.epsilon_remainder hs).trans (Polynomial.epsilon_remainder hr).symm
  rwa [hepsilon] at heq

end Proper

/-- The check and every division give an answer unless an exponent overflows. An answer of the
check says whether remainders are normal forms; if they are, the order of the generators does not
change them. -/
theorem isGroebner_iff_normalForms (hb : b.Proper n o) :
    OverflowOnly b.isGroebner ∧ (∀ p : Polynomial K, p.Proper n o → OverflowOnly (b.remainder p)) ∧
      ∀ decided, b.isGroebner = .ok decided →
        (decided = true ↔ b.NormalForms n o) ∧
          (decided = true → ∀ (c d : Basis K) (p r s : Polynomial K),
            c.generators.Perm b.generators → d.generators.Perm b.generators → p.Proper n o →
              c.remainder p = .ok r → d.remainder p = .ok s → r = s) := by
  refine ⟨hb.toFits.overflowOnly_isGroebner,
    fun p hp => Polynomial.overflowOnly_remainder hp.toFits hb.generators, fun decided h => ?_⟩
  cases decided with
  | true =>
    refine ⟨⟨fun _ => hb.normalForms h, fun _ => rfl⟩, fun _ c d p r s hc hd hp hr hs => ?_⟩
    exact hb.remainder_eq_of_perm h hc hd hp hr hs
  | false =>
    exact ⟨⟨fun hfalse => absurd hfalse Bool.noConfusion,
      fun hnormal => absurd hnormal (hb.not_normalForms h)⟩, fun hfalse => absurd hfalse
        Bool.noConfusion⟩

/-- The reduced Gröbner basis `x - y ^ 2` and `y ^ 3 - 1` of the conics. -/
def reducedConics : Basis (Exact ℚ) :=
  ⟨2, .lex, [⟨2, .lex, 1, [⟨⟨[1, 0]⟩, 1⟩, ⟨⟨[0, 2]⟩, -1⟩]⟩,
    ⟨2, .lex, 1, [⟨⟨[0, 3]⟩, 1⟩, ⟨⟨[0, 0]⟩, -1⟩]⟩]⟩

/-- The product `x * y`. -/
def conicsProduct : Polynomial (Exact ℚ) := ⟨2, .lex, 1, [⟨⟨[1, 1]⟩, 1⟩]⟩

/-- The product leaves one remainder in both orders of the generators, by different divisions. -/
theorem normalForms_reducedConics : reducedConics.Proper 2 .lex ∧
    reducedConics.isGroebner = .ok true ∧ reducedConics.NormalForms 2 .lex ∧
      ∃ r, reducedConics.remainder conicsProduct = .ok r ∧ r.support = [⟨[0, 0]⟩] ∧
        ({ reducedConics with generators := reducedConics.generators.reverse } :
          Basis (Exact ℚ)).remainder conicsProduct = .ok r := by
  have hproper : reducedConics.Proper 2 .lex := by
    refine ⟨by decide, by decide⟩
  have hcheck : reducedConics.isGroebner = .ok true := by decide +kernel
  have hrun : (reducedConics.remainder conicsProduct).map Polynomial.support =
      .ok [⟨[0, 0]⟩] := by decide +kernel
  have hrun' : (({ reducedConics with generators := reducedConics.generators.reverse } :
      Basis (Exact ℚ)).remainder conicsProduct).map Polynomial.support = .ok [⟨[0, 0]⟩] := by
    decide +kernel
  obtain ⟨r, hr, hsupport⟩ := map_eq_ok_iff.mp hrun
  obtain ⟨s, hs, -⟩ := map_eq_ok_iff.mp hrun'
  obtain ⟨hiff, hperm⟩ := (isGroebner_iff_normalForms hproper).2.2 true hcheck
  refine ⟨hproper, hcheck, hiff.mp rfl, r, hr, hsupport, ?_⟩
  rw [hperm rfl _ _ conicsProduct r s (List.Perm.refl _) (List.reverse_perm _) (by decide) hr hs]
  exact hs

/-- The steep forms as a basis. -/
def steepBasis : Basis (Exact ℚ) := ⟨3, .lex, steepForms⟩

/-- The steep forms pass the check, and their multiple is congruent to zero. Zero leaves zero, but
dividing the multiple gives no remainder; so congruence and equality of remainders part. -/
theorem remainder_ne_steepBasis : steepBasis.Proper 3 .lex ∧
    steepBasis.isGroebner = .ok true ∧
      steepMultiple.toMv 3 - steepMultiple.cleared.toMv 3 ∈ idealOf 3 steepBasis.generators ∧
        steepBasis.remainder steepMultiple.cleared = .ok steepMultiple.cleared ∧
          steepBasis.remainder steepMultiple = .error .exponentOverflow ∧
            ¬ (steepBasis.isGroebner = .ok true ↔
              ∀ p q : Polynomial (Exact ℚ), p.Proper 3 .lex → q.Proper 3 .lex →
                (steepBasis.remainder p = steepBasis.remainder q ↔
                  p.toMv 3 - q.toMv 3 ∈ idealOf 3 steepBasis.generators)) := by
  have hproper : steepBasis.Proper 3 .lex := ⟨by decide, by decide⟩
  have hcheck : steepBasis.isGroebner = .ok true := by decide +kernel
  have hcongruent : steepMultiple.toMv 3 - steepMultiple.cleared.toMv 3 ∈
      idealOf 3 steepBasis.generators := by
    rw [Polynomial.toMv_of_isZero (p := steepMultiple.cleared) rfl, sub_zero]
    exact steepMultiple_mem
  have hzero : steepBasis.remainder steepMultiple.cleared = .ok steepMultiple.cleared :=
    Polynomial.remainder_of_isZero (p := steepMultiple.cleared) rfl (by decide)
  have hoverflow : steepBasis.remainder steepMultiple = .error .exponentOverflow := by
    have hrun : (steepBasis.remainder steepMultiple).map Polynomial.support =
        .error .exponentOverflow := by decide +kernel
    cases hr : steepBasis.remainder steepMultiple with
    | ok r =>
      rw [hr] at hrun
      cases hrun
    | error e =>
      rw [hr] at hrun
      exact congrArg _ (Except.error.inj hrun)
  refine ⟨hproper, hcheck, hcongruent, hzero, hoverflow, fun hiff => ?_⟩
  -- congruent, but one of the two divisions overflows
  have hsame := (hiff.mp hcheck steepMultiple steepMultiple.cleared (by decide) (by decide)).mpr
    hcongruent
  rw [hzero, hoverflow] at hsame
  cases hsame

end Basis
end PolyIdeal
