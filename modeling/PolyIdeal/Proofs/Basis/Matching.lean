import Mathlib
import PolyIdeal.Proofs.Basis.Generators
import PolyIdeal.Proofs.Ordered.Arithmetic
import PolyIdeal.Proofs.Polynomial.Agreement

/-!
# Comparing bases generator by generator

Two bases hold approximately equal generators, in whatever order, if the generators can be paired
off such that those of a pair agree. The comparison asks for less: equally many generators, and for
each one of the right basis a partner in the left. Agreement is not transitive, so two generators
that do not agree may have the same partner, and a generator of the left basis may have none.

Let all generators have one threshold and exact coefficients, so that agreement is at least
symmetric. Bases of one size can be paired off if and only if any number of generators of the right
basis have at least as many partners between them: this is the marriage theorem. The comparison is
one of sets exactly if its acceptance, in either direction, comes with that many partners. It does
if no basis has two generators with one support, as after minimizing or reducing.
-/

namespace PolyIdeal

variable {K : Type} [OrderedScalar K] {ε : K}

/-- With one threshold, agreement can be read in either direction. -/
theorem Polynomial.approxEq_comm {p q : Polynomial K} (h : p.epsilon = q.epsilon) :
    p.approxEq q = q.approxEq p := by
  have hswap : ∀ {p q : Polynomial K}, p.epsilon = q.epsilon → p.approxEq q = true →
      q.approxEq p = true := by
    intro p q h hpq
    obtain ⟨horder, hterms⟩ := approxEq_iff_forall₂.mp hpq
    refine approxEq_iff_forall₂.mpr ⟨horder.symm, List.Forall₂.flip (hterms.imp ?_)⟩
    rintro t u ⟨hmonomial, hcoeff⟩
    rw [Scalar.negligible_iff_lt, abs_sub_comm] at hcoeff
    exact ⟨hmonomial.symm, Scalar.negligible_iff_lt.mpr (h ▸ hcoeff)⟩
  exact Bool.eq_iff_iff.mpr ⟨hswap h, hswap h.symm⟩

namespace Basis

variable {b c : Basis K}

/-! ## Partners -/

/-- The positions of the generators of `b` that agree with generator `j` of `c`. -/
def partners (b c : Basis K) (j : Fin c.generators.length) : Finset (Fin b.generators.length) :=
  {i | (b.generators.get i).approxEq (c.generators.get j) = true}

theorem mem_partners_iff {i : Fin b.generators.length} {j : Fin c.generators.length} :
    i ∈ b.partners c j ↔ (b.generators.get i).approxEq (c.generators.get j) = true := by
  simp [partners]

theorem contains_iff_partners_nonempty {j : Fin c.generators.length} :
    b.contains (c.generators.get j) = true ↔ (b.partners c j).Nonempty := by
  rw [contains, List.any_eq_true]
  constructor
  · rintro ⟨g, hg, happrox⟩
    obtain ⟨i, rfl⟩ := List.get_of_mem hg
    exact ⟨i, mem_partners_iff.mpr happrox⟩
  · rintro ⟨i, hi⟩
    exact ⟨_, List.get_mem _ i, mem_partners_iff.mp hi⟩

/-- What the comparison accepts. -/
theorem approxEq_iff_partners :
    b.approxEq c = true ↔ b.size = c.size ∧ ∀ j, (b.partners c j).Nonempty := by
  rw [approxEq, Bool.and_eq_true, beq_iff_eq, List.all_eq_true, List.forall_mem_iff_get]
  exact and_congr_right fun _ => forall_congr' fun _ => contains_iff_partners_nonempty

/-! ## Pairing off -/

/-- The generators can be paired off such that those of a pair agree. -/
def Matched (b c : Basis K) : Prop :=
  ∃ e : Fin c.generators.length ≃ Fin b.generators.length,
    ∀ j, (b.generators.get (e j)).approxEq (c.generators.get j) = true

/-- Any number of generators of `c` have at least as many partners in `b`. -/
def HasPartners (b c : Basis K) : Prop :=
  ∀ S : Finset (Fin c.generators.length), S.card ≤ (S.biUnion (b.partners c)).card

/-- An injective choice of partners in a basis of the same size is a pairing. -/
theorem matched_of_injective {f : Fin c.generators.length → Fin b.generators.length}
    (hsize : b.size = c.size) (hf : Function.Injective f) (hpartner : ∀ j, f j ∈ b.partners c j) :
    b.Matched c := by
  have hbijective : Function.Bijective f := (Fintype.bijective_iff_injective_and_card f).mpr
    ⟨hf, by rw [Fintype.card_fin, Fintype.card_fin]; exact hsize.symm⟩
  exact ⟨.ofBijective f hbijective, fun j => mem_partners_iff.mp (hpartner j)⟩

theorem matched_iff_hasPartners : b.Matched c ↔ b.size = c.size ∧ b.HasPartners c := by
  unfold HasPartners
  rw [Finset.all_card_le_biUnion_card_iff_exists_injective]
  constructor
  · rintro ⟨e, he⟩
    refine ⟨?_, e, e.injective, fun j => mem_partners_iff.mpr (he j)⟩
    simpa [size] using (Fintype.card_congr e).symm
  · rintro ⟨hsize, f, hf, hpartner⟩
    exact matched_of_injective hsize hf hpartner

/-- Bases that can be paired off are accepted. -/
theorem Matched.approxEq (h : b.Matched c) : b.approxEq c = true := by
  have hsize := (matched_iff_hasPartners.mp h).1
  obtain ⟨e, he⟩ := h
  exact approxEq_iff_partners.mpr ⟨hsize, fun j => ⟨e j, mem_partners_iff.mpr (he j)⟩⟩

theorem Matched.symm (hb : ∀ g ∈ b.generators, g.epsilon = ε)
    (hc : ∀ g ∈ c.generators, g.epsilon = ε) (h : b.Matched c) : c.Matched b := by
  obtain ⟨e, he⟩ := h
  refine ⟨e.symm, fun i => ?_⟩
  have hsame : (c.generators.get (e.symm i)).epsilon = (b.generators.get i).epsilon :=
    (hc _ (List.get_mem _ _)).trans (hb _ (List.get_mem _ _)).symm
  have hpair := he (e.symm i)
  rwa [e.apply_symm_apply, ← Polynomial.approxEq_comm hsame] at hpair

/-- Generators with supports of their own have partners of their own. -/
theorem matched_of_nodup (hc : (c.generators.map Polynomial.support).Nodup)
    (h : b.approxEq c = true) : b.Matched c := by
  obtain ⟨hsize, hpartners⟩ := approxEq_iff_partners.mp h
  choose f hf using hpartners
  refine matched_of_injective hsize (fun j j' hjj' => ?_) hf
  have hsupport : ∀ j, (b.generators.get (f j)).support = (c.generators.get j).support := fun j =>
    Polynomial.support_eq_of_approxEq (mem_partners_iff.mp (hf j))
  have hsame : (c.generators.get j).support = (c.generators.get j').support := by
    rw [← hsupport j, ← hsupport j', hjj']
  exact (List.Nodup.of_map _ hc).injective_get
    (List.inj_on_of_nodup_map hc (List.get_mem _ j) (List.get_mem _ j') hsame)

/-! ## When the comparison is one of sets -/

/-- The comparison does not depend on the side, and what it accepts can be paired off. -/
def ComparedAsSets (b c : Basis K) : Prop :=
  b.approxEq c = c.approxEq b ∧ (b.approxEq c = true → b.Matched c)

/-- How the comparison of two bases is related to pairing off their generators. -/
structure Comparison (b c : Basis K) : Prop where
  /-- It looks for one partner of each generator. -/
  approxEq_iff : b.approxEq c = true ↔ b.size = c.size ∧ ∀ j, (b.partners c j).Nonempty
  /-- Pairing off takes as many partners as there are generators, for any number of them. -/
  matched_iff : b.Matched c ↔ b.size = c.size ∧ b.HasPartners c
  /-- What can be paired off is accepted in both directions. -/
  of_matched : b.Matched c → b.approxEq c = true ∧ c.approxEq b = true
  /-- Bases are compared as sets exactly if acceptance, in either direction, means that there are
  enough partners. -/
  comparedAsSets_iff : b.ComparedAsSets c ↔
    (b.approxEq c = true ∨ c.approxEq b = true → b.HasPartners c)
  /-- They are if no basis has two generators with one support. -/
  of_nodup : (b.generators.map Polynomial.support).Nodup →
    (c.generators.map Polynomial.support).Nodup → b.ComparedAsSets c

/-- The comparison of two bases, all of whose generators have one threshold. -/
theorem comparison (hb : ∀ g ∈ b.generators, g.epsilon = ε)
    (hc : ∀ g ∈ c.generators, g.epsilon = ε) : Comparison b c := by
  have hboth : b.Matched c → b.approxEq c = true ∧ c.approxEq b = true := fun h =>
    ⟨h.approxEq, (h.symm hb hc).approxEq⟩
  -- acceptance in either direction is all that has to be looked at
  have hsets : b.ComparedAsSets c ↔
      (b.approxEq c = true ∨ c.approxEq b = true → b.Matched c) := by
    constructor
    · rintro ⟨hsame, hmatched⟩ (h | h)
      · exact hmatched h
      · exact hmatched (hsame.trans h)
    · intro h
      refine ⟨Bool.eq_iff_iff.mpr ⟨fun hbc => (hboth (h (.inl hbc))).2,
        fun hcb => (hboth (h (.inr hcb))).1⟩, fun hbc => h (.inl hbc)⟩
  constructor
  case approxEq_iff => exact approxEq_iff_partners
  case matched_iff => exact matched_iff_hasPartners
  case of_matched => exact hboth
  case comparedAsSets_iff =>
    rw [hsets]
    refine forall_congr' fun h => ?_
    have hsize : b.size = c.size := h.elim (fun h => (approxEq_iff_partners.mp h).1)
      fun h => (approxEq_iff_partners.mp h).1.symm
    rw [matched_iff_hasPartners, and_iff_right hsize]
  case of_nodup =>
    intro hbnodup hcnodup
    refine hsets.mpr fun h => h.elim (matched_of_nodup hcnodup) fun h => ?_
    exact (matched_of_nodup hbnodup h).symm hc hb

/-- A generator `a * x` for each coefficient `a`. -/
def multiplesOfX (cs : List ℚ) : Basis ℚ := ⟨1, .lex, cs.map fun a => .ofTerm ⟨[1]⟩ a .lex⟩

/-- Between `x` and `5x` on the one side and `0.99994 x` and `1.00006 x` on the other, insertion
drops nothing. Both of the latter agree with `x`, and nothing agrees with `5x`. The comparison
accepts in one direction and refuses in the other. -/
theorem not_comparedAsSets_multiplesOfX :
    ofList (multiplesOfX [1, 5]).generators = .ok (multiplesOfX [1, 5]) ∧
    ofList (multiplesOfX [99994 / 100000, 100006 / 100000]).generators =
      .ok (multiplesOfX [99994 / 100000, 100006 / 100000]) ∧
    (∀ g ∈ (multiplesOfX [1, 5]).generators, g.epsilon = 1 / 10000) ∧
    (∀ g ∈ (multiplesOfX [99994 / 100000, 100006 / 100000]).generators, g.epsilon = 1 / 10000) ∧
    (multiplesOfX [1, 5]).approxEq (multiplesOfX [99994 / 100000, 100006 / 100000]) = true ∧
    (multiplesOfX [99994 / 100000, 100006 / 100000]).approxEq (multiplesOfX [1, 5]) = false ∧
    ¬ (multiplesOfX [1, 5]).Matched (multiplesOfX [99994 / 100000, 100006 / 100000]) ∧
    ¬ (multiplesOfX [1, 5]).ComparedAsSets
      (multiplesOfX [99994 / 100000, 100006 / 100000]) := by
  have hb : ∀ g ∈ (multiplesOfX [1, 5]).generators, g.epsilon = 1 / 10000 := by decide +kernel
  have hc : ∀ g ∈ (multiplesOfX [99994 / 100000, 100006 / 100000]).generators,
      g.epsilon = 1 / 10000 := by decide +kernel
  have haccepted : (multiplesOfX [1, 5]).approxEq
      (multiplesOfX [99994 / 100000, 100006 / 100000]) = true := by decide +kernel
  have hrefused : (multiplesOfX [99994 / 100000, 100006 / 100000]).approxEq
      (multiplesOfX [1, 5]) = false := by decide +kernel
  have hcomparison := comparison hb hc
  have hunmatched : ¬ (multiplesOfX [1, 5]).Matched
      (multiplesOfX [99994 / 100000, 100006 / 100000]) := fun hmatched => by
    have hback := (hcomparison.of_matched hmatched).2
    rw [hrefused] at hback
    cases hback
  exact ⟨by cbv, by cbv, hb, hc, haccepted, hrefused, hunmatched,
    fun hsets => hunmatched (hsets.2 haccepted)⟩

/-- Acceptance in both directions is not enough either: here the first two generators on the right
have only one partner between them. -/
example :
    (multiplesOfX [1, 199994 / 100000, 200006 / 100000]).approxEq
      (multiplesOfX [99991 / 100000, 100009 / 100000, 2]) = true ∧
    (multiplesOfX [99991 / 100000, 100009 / 100000, 2]).approxEq
      (multiplesOfX [1, 199994 / 100000, 200006 / 100000]) = true ∧
    (({0, 1} : Finset (Fin 3)).biUnion
      ((multiplesOfX [1, 199994 / 100000, 200006 / 100000]).partners
        (multiplesOfX [99991 / 100000, 100009 / 100000, 2]))).card = 1 := by decide +kernel

end Basis
end PolyIdeal
