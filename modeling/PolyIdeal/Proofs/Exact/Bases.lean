import Mathlib
import PolyIdeal.Proofs.Basis.Generators
import PolyIdeal.Proofs.Exact.Division

/-!
# Bases over exact scalars

Gathering polynomials into a basis loses nothing of their ideal: what is left out is zero or equal
to a generator. Appending the remainder of an S-polynomial adds nothing to the ideal. A basis is a
Gröbner basis as soon as every two of its generators have an lcm representation.
-/

namespace PolyIdeal

open Groebner

variable {K : Type} [ExactScalar K] {n : ℕ} {o : TermOrder} {p q f g r : Polynomial K}
  {D E ps : List (Polynomial K)}

/-! ## Ideals of lists -/

theorem idealOf_append (D E : List (Polynomial K)) :
    idealOf n (D ++ E) = idealOf n D ⊔ idealOf n E := by
  rw [idealOf, values_append, Ideal.span_union]
  rfl

theorem idealOf_cons (p : Polynomial K) (ps : List (Polynomial K)) :
    idealOf n (p :: ps) = idealOf n [p] ⊔ idealOf n ps := idealOf_append [p] ps

theorem idealOf_nil : idealOf n ([] : List (Polynomial K)) = ⊥ :=
  Ideal.span_eq_bot.mpr fun _ ⟨_, hp, _⟩ => absurd hp List.not_mem_nil

/-- The order of a list does not matter to its ideal. -/
theorem idealOf_perm (h : ps.Perm D) : idealOf n ps = idealOf n D := by
  have hvalues : values n ps = values n D := by
    simp only [values, h.mem_iff]
  rw [idealOf, hvalues]
  rfl

/-- A polynomial whose value is in an ideal adds nothing to it. -/
theorem sup_idealOf_singleton {I : Ideal (MvPolynomial (Fin n) K)} (h : p.toMv n ∈ I) :
    I ⊔ idealOf n [p] = I := by
  refine sup_eq_left.mpr (Ideal.span_le.mpr ?_)
  rintro _ ⟨q, hq, rfl⟩
  rw [List.mem_singleton.mp hq]
  exact h

theorem idealOf_singleton_congr (h : p.toMv n = q.toMv n) : idealOf n [p] = idealOf n [q] := by
  have hvalues : values n [p] = values n [q] := by
    simp only [values, List.mem_singleton, exists_eq_left, h]
  rw [idealOf, hvalues]
  rfl

/-- Over exact scalars polynomials that agree approximately have the same terms. -/
theorem Polynomial.terms_eq_of_approxEq (h : p.approxEq q = true) : p.terms = q.terms := by
  simp only [approxEq, sameSupport, support, Bool.and_eq_true, beq_iff_eq, List.all_eq_true,
    Scalar.negligible_iff] at h
  obtain ⟨⟨-, hsupport⟩, hcoeff⟩ := h
  have hlen : p.terms.length = q.terms.length := by
    simpa using congrArg List.length hsupport
  refine List.ext_getElem hlen fun i hp hq => ?_
  have hmonomial : p.terms[i].monomial = q.terms[i].monomial := by
    have hget := List.getElem_of_eq hsupport (by simpa using hp)
    rwa [List.getElem_map, List.getElem_map] at hget
  have hzip : (p.terms[i], q.terms[i]) ∈ p.terms.zip q.terms :=
    List.mem_iff_getElem.mpr ⟨i, by rw [List.length_zip]; omega, List.getElem_zip⟩
  have hsub := sub_eq_zero.mp (hcoeff _ hzip)
  exact (Term.mk.injEq _ _ _ _).mpr ⟨hmonomial, hsub⟩

namespace Basis

variable {b c : Basis K}

/-- Nonzero generators without zero coefficients. -/
structure Proper (n : ℕ) (o : TermOrder) (b : Basis K) : Prop extends b.Fits n o where
  proper : ∀ g ∈ b.generators, g.Proper n o

/-! ## Inserting -/

/-- What is left out when inserting adds nothing to the ideal. -/
theorem idealOf_insert {added : Bool} (h : b.insert p = .ok (c, added)) :
    idealOf n c.generators = idealOf n b.generators ⊔ idealOf n [p] := by
  obtain ⟨-, ⟨hskip, rfl, -⟩ | ⟨-, rfl, -⟩⟩ := insert_eq_ok_iff.mp h
  · refine (sup_idealOf_singleton ?_).symm
    rcases Bool.or_eq_true_iff.mp hskip with hz | hc
    · rw [Polynomial.toMv_of_isZero hz]
      exact Ideal.zero_mem _
    · obtain ⟨g, hg, happrox⟩ := List.any_eq_true.mp hc
      have hval : p.toMv n = g.toMv n := by
        rw [Polynomial.toMv, Polynomial.toMv, Polynomial.terms_eq_of_approxEq happrox]
      rw [hval]
      exact toMv_mem_idealOf hg
  · exact idealOf_append _ _

theorem Proper.insert {added : Bool} (hb : b.Proper n o) (hp : p.Proper n o)
    (h : b.insert p = .ok (c, added)) : c.Proper n o := by
  refine ⟨hb.toFits.insert hp.toFits h, ?_⟩
  obtain ⟨-, ⟨-, rfl, -⟩ | ⟨-, rfl, -⟩⟩ := insert_eq_ok_iff.mp h
  · exact hb.proper
  · exact List.forall_mem_append.mpr ⟨hb.proper, List.forall_mem_singleton.mpr hp⟩

/-- Inserting one polynomial after the other, each prepared in a way that keeps its value. -/
theorem foldlM_insert {prep : Polynomial K → Except Fault (Polynomial K)}
    (hprep : ∀ p ∈ ps, ∀ q, prep p = .ok q → q.Proper n o ∧ q.toMv n = p.toMv n)
    (hb : b.Proper n o)
    (h : ps.foldlM (fun b p => do return (← b.insert (← prep p)).1) b = .ok c) :
    c.Proper n o ∧ idealOf n c.generators = idealOf n b.generators ⊔ idealOf n ps := by
  induction ps generalizing b with
  | nil =>
    cases h
    exact ⟨hb, by rw [idealOf_nil, sup_bot_eq]⟩
  | cons p ps ih =>
    rw [List.foldlM_cons, bind_eq_ok_iff] at h
    obtain ⟨d, hd, hc⟩ := h
    obtain ⟨q, hq, hd⟩ := bind_eq_ok_iff.mp hd
    obtain ⟨⟨d', added⟩, hinsert, hd⟩ := bind_eq_ok_iff.mp hd
    obtain rfl : d' = d := pure_eq_ok_iff.mp hd
    obtain ⟨hqproper, hval⟩ := hprep p List.mem_cons_self q hq
    obtain ⟨hcproper, hideal⟩ := ih (fun p hp => hprep p (List.mem_cons_of_mem _ hp))
      (hb.insert hqproper hinsert) hc
    refine ⟨hcproper, ?_⟩
    rw [hideal, idealOf_insert hinsert, idealOf_singleton_congr hval, sup_assoc, ← idealOf_cons]

theorem proper_empty (n : ℕ) (o : TermOrder) : (empty n o : Basis K).Proper n o :=
  ⟨fits_empty n o, fun _ hg => absurd hg List.not_mem_nil⟩

/-- The basis of a list of polynomials of one shape generates their ideal. -/
theorem idealOf_ofList (hps : ∀ p ∈ ps, p.Proper n o) (hne : ps ≠ []) (h : ofList ps = .ok b) :
    b.Proper n o ∧ idealOf n b.generators = idealOf n ps := by
  cases ps with
  | nil => exact absurd rfl hne
  | cons p ps =>
    have hp := hps p List.mem_cons_self
    have hempty : (empty p.arity p.order : Basis K).Proper n o := by
      rw [hp.arity_eq, hp.order_eq]
      exact proper_empty n o
    have hprep : ∀ q ∈ p :: ps, ∀ r, (.ok q : Except Fault (Polynomial K)) = .ok r →
        r.Proper n o ∧ r.toMv n = q.toMv n := fun q hq r hr => by
      obtain rfl := Except.ok.inj hr
      exact ⟨hps q hq, rfl⟩
    have hfold := foldlM_insert hprep hempty h
    rwa [empty, idealOf_nil, bot_sup_eq] at hfold

/-- The basis of a list of polynomials of one arity, brought into one order, generates their
ideal. -/
theorem idealOf_ofListIn (harity : ∀ p ∈ ps, p.arity = n) (ha : ∀ p ∈ ps, OfArity n p.terms)
    (hne : ps ≠ []) (h : ofListIn o ps = .ok b) :
    b.Proper n o ∧ idealOf n b.generators = idealOf n ps := by
  cases ps with
  | nil => exact absurd rfl hne
  | cons p ps =>
    have hempty : (empty p.arity o : Basis K).Proper n o := by
      rw [harity p List.mem_cons_self]
      exact proper_empty n o
    have hprep : ∀ q ∈ p :: ps, ∀ r, q.reorder o = .ok r → r.Proper n o ∧ r.toMv n = q.toMv n :=
      fun q hq r hr => ⟨Polynomial.proper_reorder (harity q hq) (ha q hq) hr,
        Polynomial.toMv_reorder hr⟩
    have hfold := foldlM_insert hprep hempty h
    rwa [empty, idealOf_nil, bot_sup_eq] at hfold

/-- Bringing the polynomials into the order has succeeded for each of them. -/
theorem exists_reorder_of_ofListIn (h : ofListIn o ps = .ok b) (hp : p ∈ ps) :
    ∃ q, p.reorder o = .ok q := by
  cases ps with
  | nil => exact absurd hp List.not_mem_nil
  | cons p' ps =>
    obtain ⟨_, _, hstep⟩ := exists_of_foldlM_eq_ok h hp
    obtain ⟨q, hq, -⟩ := bind_eq_ok_iff.mp hstep
    exact ⟨q, hq⟩

/-! ## Pairs of generators -/

/-- The remainder of an S-polynomial of two generators is in their ideal. -/
theorem Proper.pairRemainder_mem (hb : b.Proper n o) (hf : f ∈ b.generators)
    (hg : g ∈ b.generators) (h : b.pairRemainder f g = .ok r) :
    r.Proper n o ∧ r.toMv n ∈ idealOf n b.generators := by
  obtain ⟨S, hS, hr⟩ := pairRemainder_eq_ok_iff.mp h
  have hSproper := Polynomial.Proper.sPolynomial (hb.generators f hf) (hb.generators g hg) hS
  have hSmem := Polynomial.sPolynomial_mem (hb.proper f hf) (hb.proper g hg) (hb.nonzero f hf)
    (hb.nonzero g hg) (toMv_mem_idealOf hf) (toMv_mem_idealOf hg) hS
  refine ⟨hSproper.remainder hb.generators hr, ?_⟩
  exact (Polynomial.remainder_mem hSproper.toFits hb.proper (fun d hd => toMv_mem_idealOf hd)
    hr).mp hSmem

/-- Appending such a remainder keeps the ideal. -/
theorem Proper.append (hb : b.Proper n o) (hr : r.Proper n o) (hr0 : r.isZero = false)
    (hmem : r.toMv n ∈ idealOf n b.generators) :
    ({ b with generators := b.generators ++ [r] } : Basis K).Proper n o ∧
      idealOf n (b.generators ++ [r]) = idealOf n b.generators :=
  ⟨⟨hb.toFits.append hr.toFits hr0,
      List.forall_mem_append.mpr ⟨hb.proper, List.forall_mem_singleton.mpr hr⟩⟩,
    (idealOf_append _ _).trans (sup_idealOf_singleton hmem)⟩

/-- Dividing the S-polynomial of two generators gives them an lcm representation, once the
remainder is among the generators. -/
theorem Proper.lcmRep_of_pairRemainder (hb : b.Proper n o) (hf : f ∈ b.generators)
    (hg : g ∈ b.generators) (h : b.pairRemainder f g = .ok r) (hE : r.isZero = true ∨ r ∈ E)
    (hDE : values n b.generators ⊆ values n E) :
    LcmRep (o.monomialOrder n) (values n E) (f.toMv n) (g.toMv n) := by
  obtain ⟨S, hS, hr⟩ := pairRemainder_eq_ok_iff.mp h
  exact Polynomial.lcmRep_of_remainder (hb.proper f hf) (hb.proper g hg) (hb.nonzero f hf)
    (hb.nonzero g hg) hb.proper hS hr hE hDE

/-- A basis is a Gröbner basis when every two generators have an lcm representation. -/
theorem Proper.isGroebner (hb : b.Proper n o)
    (h : ∀ {i j : ℕ} {f g : Polynomial K}, i < j → b.generators[i]? = some f →
      b.generators[j]? = some g →
        LcmRep (o.monomialOrder n) (values n b.generators) (f.toMv n) (g.toMv n)) :
    IsGroebner (o.monomialOrder n) (idealOf n b.generators) (values n b.generators) := by
  refine isGroebner_of_lcmRep ?_ ?_
  · rintro _ ⟨g, hg, rfl⟩
    exact (hb.proper g hg).toMv_ne_zero (hb.nonzero g hg)
  · rintro _ ⟨f, hf, rfl⟩ _ ⟨g, hg, rfl⟩
    obtain ⟨i, hi⟩ := List.mem_iff_getElem?.mp hf
    obtain ⟨j, hj⟩ := List.mem_iff_getElem?.mp hg
    rcases Nat.lt_trichotomy i j with hij | rfl | hij
    · exact h hij hi hj
    · obtain rfl : f = g := Option.some.inj (hi.symm.trans hj)
      exact .refl _
    · exact (h hij hj hi).symm

/-- A basis that passes the check is a Gröbner basis. -/
theorem Proper.isGroebner_of_eq_ok (hb : b.Proper n o) (h : b.isGroebner = .ok true) :
    IsGroebner (o.monomialOrder n) (idealOf n b.generators) (values n b.generators) := by
  refine hb.isGroebner fun hij hf hg => ?_
  obtain ⟨r, hr, hz⟩ := isGroebner_eq_ok_true_iff.mp h hij hf hg
  exact hb.lcmRep_of_pairRemainder (List.mem_of_getElem? hf) (List.mem_of_getElem? hg) hr (.inl hz)
    subset_rfl

end Basis
end PolyIdeal
