import Mathlib
import PolyIdeal.ReducedBasis
import PolyIdeal.Proofs.Exact.Completion
import PolyIdeal.Proofs.Exact.Reduction

/-!
# Gröbner bases of lists over exact scalars

The entry points compute Gröbner bases. Whatever the strategy and the criteria, and with or without
reduction, the result generates the ideal of the inputs, and the members of this ideal reduce to
zero modulo it: `solves_of_eq_ok`. A reduced result is a function of the ideal and the order alone:
`reducedGroebnerBasis_congr`.

A division can still run into an exponent past 32 bits, even though the completion did not. That
this happens to a member of the ideal is shown by `steepForms`.
-/

namespace PolyIdeal

open Groebner

variable {K : Type} [ExactScalar K] {n : ℕ} {o : TermOrder} {p q : Polynomial K}
  {ps qs gs : List (Polynomial K)} {b : Basis K} {settings : Settings}

/-! ## Reducing to zero -/

/-- Division of `p` by the basis leaves nothing over, or an exponent overflows on the way. -/
def Basis.ReducesToZero (b : Basis K) (p : Polynomial K) : Prop :=
  b.remainder p = .error .exponentOverflow ∨ ∃ r, b.remainder p = .ok r ∧ r.isZero = true

/-- The basis generates the ideal of `ps`, whose members reduce to zero modulo it. -/
structure Basis.Solves (n : ℕ) (o : TermOrder) (ps : List (Polynomial K)) (b : Basis K) :
    Prop where
  ideal_eq : idealOf n b.generators = idealOf n ps
  members : ∀ p : Polynomial K, p.Proper n o → p.toMv n ∈ idealOf n ps → b.ReducesToZero p
  sPolynomials : ∀ f ∈ b.generators, ∀ g ∈ b.generators, OverflowOnly (f.sPolynomial g) ∧
    ∀ S, f.sPolynomial g = .ok S → b.ReducesToZero S

theorem GroebnerList.reducesToZero {I : Ideal (MvPolynomial (Fin n) K)}
    (hb : GroebnerList n o I b.generators) (hp : p.Proper n o) (hpI : p.toMv n ∈ I) :
    b.ReducesToZero p := by
  have hfits : ∀ g ∈ b.generators, g.Fits n o := fun g hg => (hb.proper g hg).toFits
  refine (Polynomial.overflowOnly_remainder hp.toFits hfits).cases.imp_right fun ⟨r, hr⟩ => ?_
  exact ⟨r, hr, Polynomial.isZero_remainder hp hb.proper hb.groebner hpI hr⟩

theorem GroebnerList.solves (hb : GroebnerList n o (idealOf n ps) b.generators) :
    b.Solves n o ps where
  ideal_eq := hb.groebner.span_eq
  members _ hp hpI := hb.reducesToZero hp hpI
  sPolynomials f hf g hg := by
    have hf0 := hb.nonzero f hf
    have hg0 := hb.nonzero g hg
    refine ⟨Polynomial.overflowOnly_sPolynomial (hb.proper f hf).toFits (hb.proper g hg).toFits
      hf0 hg0, fun S hS => hb.reducesToZero ?_ ?_⟩
    · exact Polynomial.Proper.sPolynomial (hb.proper f hf).toFits (hb.proper g hg).toFits hS
    · exact Polynomial.sPolynomial_mem (hb.proper f hf) (hb.proper g hg) hf0 hg0 (hb.mem hf)
        (hb.mem hg) hS

/-! ## Completed bases of lists -/

theorem groebnerList_nil : GroebnerList n o (⊥ : Ideal (MvPolynomial (Fin n) K)) [] where
  proper _ hg := absurd hg List.not_mem_nil
  nonzero _ hg := absurd hg List.not_mem_nil
  groebner := ⟨fun _ ⟨_, hg, _⟩ => absurd hg List.not_mem_nil, fun _ hp hp0 => absurd hp hp0⟩

/-- The zero ideal has no nonzero members. -/
theorem GroebnerList.eq_nil (hgs : GroebnerList n o ⊥ gs) : gs = [] := by
  refine List.eq_nil_iff_forall_not_mem.mpr fun g hg => ?_
  exact (hgs.proper g hg).toMv_ne_zero (hgs.nonzero g hg) (hgs.mem hg)

theorem Basis.Proper.groebnerList_complete {c : Completion K} (hb : b.Proper n o)
    (h : b.complete settings = .ok c) :
    GroebnerList n o (idealOf n b.generators) c.basis.generators := by
  obtain ⟨hc, hgroebner⟩ := hb.complete h
  exact ⟨hc.proper, hc.nonzero, hgroebner⟩

/-- Completion adds nothing to a basis without generators. -/
theorem Basis.generators_complete_empty {m : ℕ} {c : Completion K}
    (h : (Basis.empty m o : Basis K).complete settings = .ok c) : c.basis.generators = [] := by
  have hc := (proper_empty m o).groebnerList_complete h
  rw [show (Basis.empty m o : Basis K).generators = [] from rfl, idealOf_nil] at hc
  exact hc.eq_nil

/-- A list of polynomials of one shape, gathered and completed. -/
theorem Basis.groebnerList_ofList {c : Completion K} (hps : ∀ p ∈ ps, p.Proper n o)
    (hb : Basis.ofList ps = .ok b) (h : b.complete settings = .ok c) :
    GroebnerList n o (idealOf n ps) c.basis.generators := by
  by_cases hne : ps = []
  · subst hne
    obtain rfl := Except.ok.inj hb
    rw [idealOf_nil, generators_complete_empty h]
    exact groebnerList_nil
  · obtain ⟨hproper, hideal⟩ := idealOf_ofList hps hne hb
    rw [← hideal]
    exact hproper.groebnerList_complete h

section EntryPoints

variable (harity : ∀ p ∈ ps, p.arity = n) (hofArity : ∀ p ∈ ps, OfArity n p.terms)
include harity hofArity

/-- A list of polynomials of one arity, brought into one order, gathered and completed. -/
theorem groebnerList_completedBasis (h : completedBasis ps settings = .ok b) :
    GroebnerList n settings.order (idealOf n ps) b.generators ∧
      (b.isEmpty = false → b.arity = n ∧ b.order = settings.order) := by
  obtain ⟨start, hstart, h⟩ := bind_eq_ok_iff.mp h
  obtain ⟨c, hc, h⟩ := bind_eq_ok_iff.mp h
  obtain rfl := pure_eq_ok_iff.mp h
  by_cases hne : ps = []
  · subst hne
    obtain rfl := Except.ok.inj hstart
    have hnil := Basis.generators_complete_empty hc
    rw [idealOf_nil, Basis.isEmpty, hnil]
    exact ⟨groebnerList_nil, Bool.noConfusion⟩
  · obtain ⟨hproper, hideal⟩ := Basis.idealOf_ofListIn harity hofArity hne hstart
    have hcproper := (hproper.complete hc).1
    rw [← hideal]
    exact ⟨hproper.groebnerList_complete hc, fun _ => ⟨hcproper.arity_eq, hcproper.order_eq⟩⟩

theorem groebnerList_groebnerBasis (h : groebnerBasis ps settings = .ok b) :
    GroebnerList n settings.order (idealOf n ps) b.generators := by
  obtain ⟨c, hc, h⟩ := bind_eq_ok_iff.mp h
  obtain ⟨hgroebner, hshape⟩ := groebnerList_completedBasis harity hofArity hc
  split at h
  next hreduce =>
    have hempty : c.isEmpty = false := by
      simpa using (Bool.and_eq_true_iff.mp hreduce).2
    exact (hgroebner.reduce (hshape hempty).2 h).2.2.toGroebnerList
  next =>
    obtain rfl := pure_eq_ok_iff.mp h
    exact hgroebner

/-- A reduced result is a reduced Gröbner basis. -/
theorem reduced_reducedGroebnerBasis (h : reducedGroebnerBasis ps settings = .ok b) :
    b.arity = n ∧ b.order = settings.order ∧
      Reduced n settings.order (idealOf n ps) b.generators := by
  obtain ⟨c, hc, h⟩ := bind_eq_ok_iff.mp h
  obtain ⟨hgroebner, hshape⟩ := groebnerList_completedBasis harity hofArity hc
  split at h
  next => cases h
  next hempty =>
    obtain ⟨harity', horder'⟩ := hshape (Bool.eq_false_iff.mpr hempty)
    obtain ⟨hbarity, hborder, hreduced⟩ := hgroebner.reduce horder' h
    exact ⟨hbarity.trans harity', hborder.trans horder', hreduced⟩

end EntryPoints

/-! ## What the entry points compute -/

/-- When the entry points succeed, they have computed a Gröbner basis of the ideal of their
inputs. -/
theorem solves_of_eq_ok (harity : ∀ p ∈ ps, p.arity = n)
    (hofArity : ∀ p ∈ ps, OfArity n p.terms) (settings : Settings) :
    (∀ b c, (∀ p ∈ ps, p.Proper n o) → Basis.ofList ps = .ok b → b.complete settings = .ok c →
      c.basis.Solves n o ps ∧ ∀ p ∈ ps, c.basis.ReducesToZero p) ∧
    ∀ b, groebnerBasis ps settings = .ok b → b.Solves n settings.order ps ∧
      ∀ p ∈ ps, ∃ q, p.reorder settings.order = .ok q ∧ b.ReducesToZero q := by
  constructor
  · intro b c hps hb h
    have hc := Basis.groebnerList_ofList hps hb h
    exact ⟨hc.solves, fun p hp => hc.reducesToZero (hps p hp) (toMv_mem_idealOf hp)⟩
  · intro b h
    have hb := groebnerList_groebnerBasis harity hofArity h
    refine ⟨hb.solves, fun p hp => ?_⟩
    obtain ⟨c, hc, -⟩ := bind_eq_ok_iff.mp h
    obtain ⟨start, hstart, -⟩ := bind_eq_ok_iff.mp hc
    obtain ⟨q, hq⟩ := Basis.exists_reorder_of_ofListIn hstart hp
    refine ⟨q, hq, hb.reducesToZero ?_ ?_⟩
    · exact Polynomial.proper_reorder (harity p hp) (hofArity p hp) hq
    · rw [Polynomial.toMv_reorder hq]
      exact toMv_mem_idealOf hp

/-- The hyperbola `x y - 1` and the parabola `y ^ 2 - x`. -/
def conics : List (Polynomial (Exact ℚ)) :=
  [⟨2, .lex, 1, [⟨⟨[1, 1]⟩, 1⟩, ⟨⟨[0, 0]⟩, -1⟩]⟩,
    ⟨2, .lex, 1, [⟨⟨[1, 0]⟩, -1⟩, ⟨⟨[0, 2]⟩, 1⟩]⟩]

theorem proper_conics : ∀ p ∈ conics, p.Proper 2 .lex := by decide

/-- On the conics both entry points succeed. Completion finds a third generator, and of the three
reduction keeps two. -/
theorem solves_conics :
    (∃ b c, Basis.ofList conics = .ok b ∧ b.complete {} = .ok c ∧ c.basis.size = 3 ∧
      c.basis.Solves 2 .lex conics ∧ ∀ p ∈ conics, c.basis.ReducesToZero p) ∧
    ∃ b, groebnerBasis conics {} = .ok b ∧ b.size = 2 ∧ b.Solves 2 .lex conics ∧
      ∀ p ∈ conics, ∃ q, p.reorder .lex = .ok q ∧ b.ReducesToZero q := by
  obtain ⟨hcomplete, hbasis⟩ := solves_of_eq_ok (o := .lex)
    (fun p hp => (proper_conics p hp).arity_eq) (fun p hp => (proper_conics p hp).ofArity) {}
  have hrun : (Basis.ofList conics >>= (·.complete {})).map (·.basis.size) = .ok 3 := by
    decide +kernel
  have hrun' : (groebnerBasis conics {}).map (·.size) = .ok 2 := by decide +kernel
  constructor
  · obtain ⟨c, hc, hsize⟩ := map_eq_ok_iff.mp hrun
    obtain ⟨b, hb, hc⟩ := bind_eq_ok_iff.mp hc
    exact ⟨b, c, hb, hc, hsize, hcomplete b c proper_conics hb hc⟩
  · obtain ⟨b, hb, hsize⟩ := map_eq_ok_iff.mp hrun'
    exact ⟨b, hb, hsize, hbasis b hb⟩

/-- The forms `x - y ^ 2 ^ 31` and `z - 1`. -/
def steepForms : List (Polynomial (Exact ℚ)) :=
  [⟨3, .lex, 1, [⟨⟨[1, 0, 0]⟩, 1⟩, ⟨⟨[0, 2147483648, 0]⟩, -1⟩]⟩,
    ⟨3, .lex, 1, [⟨⟨[0, 0, 1]⟩, 1⟩, ⟨⟨[0, 0, 0]⟩, -1⟩]⟩]

/-- The multiple `x ^ 2 z - x ^ 2` of the second form. -/
def steepMultiple : Polynomial (Exact ℚ) :=
  ⟨3, .lex, 1, [⟨⟨[2, 0, 1]⟩, 1⟩, ⟨⟨[2, 0, 0]⟩, -1⟩]⟩

/-- The multiple is one by construction. -/
theorem steepMultiple_mem : steepMultiple.toMv 3 ∈ idealOf 3 steepForms := by
  have hfits : (steepForms[1]).Fits 3 .lex := by decide
  have hmul : (steepForms[1]).mulTerm ⟨[2, 0, 0]⟩ 1 = .ok steepMultiple := by
    with_unfolding_all rfl
  rw [Polynomial.toMv_mulTerm hfits hmul]
  exact Ideal.mul_mem_left _ _ (toMv_mem_idealOf (List.getElem_mem _))

/-- The steep forms have coprime leading monomials and are a Gröbner basis. But dividing the
multiple by the first form twice gives `y` the exponent `2 ^ 32`. -/
theorem remainder_steepMultiple : ∃ b, groebnerBasis steepForms {} = .ok b ∧
    steepMultiple.Proper 3 .lex ∧ steepMultiple.toMv 3 ∈ idealOf 3 steepForms ∧
      b.remainder steepMultiple = .error .exponentOverflow := by
  have hrun : (groebnerBasis steepForms {}).map
      (fun b => (b.remainder steepMultiple).map Polynomial.support) =
        .ok (.error .exponentOverflow) := by
    decide +kernel
  obtain ⟨b, hb, hremainder⟩ := map_eq_ok_iff.mp hrun
  refine ⟨b, hb, by decide, steepMultiple_mem, ?_⟩
  cases hb : b.remainder steepMultiple with
  | ok r =>
    rw [hb] at hremainder
    cases hremainder
  | error e =>
    rw [hb] at hremainder
    exact congrArg _ (Except.error.inj hremainder)

/-! ## Canonical form -/

/-- Lists that generate one ideal have one reduced Gröbner basis, whatever the other settings. -/
theorem reducedGroebnerBasis_congr {c : Basis K} {settings' : Settings}
    (hps : ∀ p ∈ ps, p.arity = n ∧ OfArity n p.terms)
    (hqs : ∀ q ∈ qs, q.arity = n ∧ OfArity n q.terms) (hideal : idealOf n ps = idealOf n qs)
    (horder : settings.order = settings'.order) (hb : reducedGroebnerBasis ps settings = .ok b)
    (hc : reducedGroebnerBasis qs settings' = .ok c) :
    b.arity = c.arity ∧ b.order = c.order ∧
      b.generators.map (fun g => (g.arity, g.order, g.terms)) =
        c.generators.map fun g => (g.arity, g.order, g.terms) := by
  obtain ⟨hbarity, hborder, hbreduced⟩ := reduced_reducedGroebnerBasis
    (fun p hp => (hps p hp).1) (fun p hp => (hps p hp).2) hb
  obtain ⟨hcarity, hcorder, hcreduced⟩ := reduced_reducedGroebnerBasis
    (fun q hq => (hqs q hq).1) (fun q hq => (hqs q hq).2) hc
  rw [← horder] at hcorder hcreduced
  rw [← hideal] at hcreduced
  refine ⟨hbarity.trans hcarity.symm, hborder.trans hcorder.symm, ?_⟩
  have hshape : ∀ {gs : List (Polynomial K)}, (∀ g ∈ gs, g.Proper n settings.order) →
      gs.map (fun g => (g.arity, g.order, g.terms)) =
        (gs.map Polynomial.terms).map fun ts => (n, settings.order, ts) := fun hgs => by
    rw [List.map_map]
    exact List.map_congr_left fun g hg => by
      rw [Function.comp_apply, (hgs g hg).arity_eq, (hgs g hg).order_eq]
  rw [hshape hbreduced.proper, hshape hcreduced.proper, hbreduced.unique hcreduced]

/-- The conics in either order, completed in two ways, have one reduced basis of two generators. -/
theorem reducedGroebnerBasis_conics : ∃ b c, reducedGroebnerBasis conics {} = .ok b ∧
    reducedGroebnerBasis conics.reverse { strategy := .sweep, useChain := false } = .ok c ∧
      b.size = 2 ∧ c.size = 2 ∧
        b.generators.map (fun g => (g.arity, g.order, g.terms)) =
          c.generators.map fun g => (g.arity, g.order, g.terms) := by
  let settings : Settings := { strategy := .sweep, useChain := false }
  have hrun : (reducedGroebnerBasis conics {}).map (·.size) = .ok 2 := by decide +kernel
  have hrun' : (reducedGroebnerBasis conics.reverse settings).map (·.size) = .ok 2 := by
    decide +kernel
  obtain ⟨b, hb, hbsize⟩ := map_eq_ok_iff.mp hrun
  obtain ⟨c, hc, hcsize⟩ := map_eq_ok_iff.mp hrun'
  have hshape : ∀ p ∈ conics, p.arity = 2 ∧ OfArity 2 p.terms := fun p hp =>
    ⟨(proper_conics p hp).arity_eq, (proper_conics p hp).ofArity⟩
  have hideal : idealOf 2 conics = idealOf 2 conics.reverse :=
    idealOf_perm (List.reverse_perm conics).symm
  have horder : ({} : Settings).order = settings.order := rfl
  exact ⟨b, c, hb, hc, hbsize, hcsize, (reducedGroebnerBasis_congr hshape
    (fun p hp => hshape p (List.mem_reverse.mp hp)) hideal horder hb hc).2.2⟩

end PolyIdeal
