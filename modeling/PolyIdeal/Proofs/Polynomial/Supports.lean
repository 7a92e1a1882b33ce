import PolyIdeal.Polynomial.Agreement
import PolyIdeal.Proofs.Polynomial.Reordering

/-!
# Comparing supports

Supports are compared place by place. In a polynomial that has been obtained no monomial occurs
twice and the order settles the places, so for polynomials of one order equal lists and equal sets
come to the same. Polynomials of two orders list the same monomials alike only if the orders rank
those monomials alike. Where they do not, the comparison refuses polynomials that have the same
monomials, for instance a polynomial and what a change of the order has made of it. It never
accepts different ones.
-/

namespace PolyIdeal

/-- Two orders rank the monomials of a list alike. -/
def TermOrder.RankAlike (o o' : TermOrder) (ms : List Monomial) : Prop :=
  ∀ a ∈ ms, ∀ b ∈ ms, o.cmp a b = o'.cmp a b

namespace Polynomial

variable {K : Type} {n n' : ℕ} {o o' : TermOrder} {p q : Polynomial K}

/-- The same monomials occur in both. -/
def SameMonomials (p q : Polynomial K) : Prop := ∀ m, m ∈ p.support ↔ m ∈ q.support

theorem sameSupport_iff_support_eq : p.sameSupport q = true ↔ p.support = q.support := by
  rw [sameSupport, beq_iff_eq]

theorem Fits.pairwise_support (hp : p.Fits n o) :
    p.support.Pairwise fun a b => o.cmp a b = .gt :=
  List.pairwise_map.mpr hp.descending

/-- A list that descends in two orders is ranked alike by both. -/
theorem rankAlike_of_pairwise {ms : List Monomial} (h : ms.Pairwise fun a b => o.cmp a b = .gt)
    (h' : ms.Pairwise fun a b => o'.cmp a b = .gt) : o.RankAlike o' ms := by
  have hboth : ms.Pairwise fun a b => o.cmp a b = o'.cmp a b :=
    (h.and h').imp fun ⟨hgt, hgt'⟩ => hgt.trans hgt'.symm
  have hself : ∀ a ∈ ms, o.cmp a a = o'.cmp a a := fun a _ => by
    rw [(TermOrder.cmp_eq_eq_iff o rfl rfl).mpr rfl, (TermOrder.cmp_eq_eq_iff o' rfl rfl).mpr rfl]
  have : Std.Symm fun a b => o.cmp a b = o'.cmp a b :=
    ⟨fun a b hab => by rw [← TermOrder.cmp_swap, hab, TermOrder.cmp_swap]⟩
  exact hboth.forall_of_forall hself

/-- The comparison accepts polynomials with the same monomials that their orders rank alike. -/
theorem Fits.sameSupport_iff (hp : p.Fits n o) (hq : q.Fits n' o') :
    p.sameSupport q = true ↔ p.SameMonomials q ∧ o.RankAlike o' p.support := by
  rw [sameSupport_iff_support_eq]
  constructor
  · intro h
    exact ⟨fun m => by rw [h], rankAlike_of_pairwise hp.pairwise_support (h ▸ hq.pairwise_support)⟩
  · rintro ⟨hsame, halike⟩
    have hperm : p.support.Perm q.support :=
      (List.perm_ext_iff_of_nodup hp.nodup_support hq.nodup_support).mpr hsame
    have hdesc : q.support.Pairwise fun a b => o.cmp a b = .gt :=
      hq.pairwise_support.imp_of_mem fun {a b} ha hb hgt =>
        (halike a ((hsame a).mpr ha) b ((hsame b).mpr hb)).trans hgt
    refine hperm.eq_of_pairwise (fun a b _ _ hab hba => ?_) hp.pairwise_support hdesc
    rw [← TermOrder.cmp_swap, hab] at hba
    cases hba

/-! ## After a change of the order -/

variable [Scalar K] {r : Polynomial K}

/-- A change of the order that drops nothing keeps the monomials. -/
theorem sameMonomials_reorder (hp : p.Fits n o) (h : p.reorder o' = .ok r) (hs : p.Significant) :
    p.SameMonomials r := fun _ =>
  (((hp.reorders o').perm_iff r h).mpr hs |>.map Term.monomial).mem_iff.symm

/-- A change of the order that keeps the monomials drops nothing. -/
theorem significant_of_sameMonomials (hp : p.Fits n o) (h : p.reorder o' = .ok r)
    (hsame : p.SameMonomials r) : p.Significant := fun t ht => by
  obtain ⟨u, hu, hut⟩ := List.mem_map.mp ((hsame t.monomial).mp (List.mem_map_of_mem ht))
  have hkept := ((hp.reorders o').perm r h).subset hu
  have hmem : u ∈ p.terms := (keepSignificant_sublist _ _).subset hkept
  rw [← List.inj_on_of_nodup_map hp.nodup_support hmem ht hut]
  exact (List.mem_filter.mp hkept).2

/-! ## Results -/

/-- What comparing the supports of two polynomials comes to. -/
structure ComparesSupports (p q : Polynomial K) : Prop where
  /-- Accepted are those with the same monomials that both orders rank alike. -/
  accepts_iff : p.sameSupport q = true ↔
    p.SameMonomials q ∧ p.order.RankAlike q.order p.support
  /-- So the answer is right unless the monomials are the same and ranked differently. -/
  right_iff : (p.sameSupport q = true ↔ p.SameMonomials q) ↔
    (p.SameMonomials q → p.order.RankAlike q.order p.support)
  /-- It is right for polynomials of one order, -/
  of_order_eq : p.order = q.order → (p.sameSupport q = true ↔ p.SameMonomials q)
  /-- and once the right one has been brought into the order of the left one, if that drops no
  terms. -/
  of_reorder : ∀ r, q.reorder p.order = .ok r → q.Significant →
    (p.sameSupport r = true ↔ p.SameMonomials q)
  /-- A polynomial is told to have the monomials of what a change of its order leads to exactly if
  no term is dropped and the two orders rank its monomials alike. -/
  reordered_iff : ∀ o r, p.reorder o = .ok r →
    (p.sameSupport r = true ↔ p.Significant ∧ p.order.RankAlike o p.support)

/-- The comparison of two polynomials that have been obtained, of any orders. -/
theorem comparesSupports_of_obtained (hp : p.Obtained true) (hq : q.Obtained true) :
    p.ComparesSupports q := by
  have hpfits := hp.fits
  have hqfits := hq.fits
  have hsame : ∀ {k : ℕ} {r : Polynomial K}, r.Fits k p.order →
      (p.sameSupport r = true ↔ p.SameMonomials r) := fun hr => by
    rw [hpfits.sameSupport_iff hr]
    exact and_iff_left fun _ _ _ _ => rfl
  constructor
  case accepts_iff => exact hpfits.sameSupport_iff hqfits
  case right_iff =>
    rw [hpfits.sameSupport_iff hqfits]
    exact ⟨fun h hm => (h.mpr hm).2, fun h => ⟨And.left, fun hm => ⟨hm, h hm⟩⟩⟩
  case of_order_eq => exact fun ho => hsame (ho ▸ hqfits)
  case of_reorder =>
    intro r hr hs
    have hqr := sameMonomials_reorder hqfits hr hs
    rw [hsame (fits_reorder rfl hqfits.ofArity hr)]
    exact forall_congr' fun m => by rw [hqr m]
  case reordered_iff =>
    intro o r hr
    rw [hpfits.sameSupport_iff (fits_reorder rfl hpfits.ofArity hr)]
    exact and_congr_left fun _ =>
      ⟨significant_of_sameMonomials hpfits hr, sameMonomials_reorder hpfits hr⟩

/-- The sum of `x` and `y²` leads with `x` in the lexicographic order and with `y²` in a graded one.
Nothing but the order differs between the two, and they are told to differ in their monomials. -/
theorem not_sameSupport_reorder : ∃ p q : Polynomial Rat, p.Obtained true ∧ q.Obtained true ∧
    p.reorder .grlex = .ok q ∧ p.support = [⟨[1, 0]⟩, ⟨[0, 2]⟩] ∧
      q.support = [⟨[0, 2]⟩, ⟨[1, 0]⟩] ∧ p.SameMonomials q ∧ p.sameSupport q = false ∧
        ¬ (p.sameSupport q = true ↔ p.SameMonomials q) := by
  have hrun : (do
      let p ← ofTerms [⟨⟨[1, 0]⟩, (1 : Rat)⟩, ⟨⟨[0, 2]⟩, 1⟩] 2 .lex
      let q ← p.reorder .grlex
      return (p.order, q.order, p.support, q.support)) =
        (.ok (.lex, .grlex, [⟨[1, 0]⟩, ⟨[0, 2]⟩], [⟨[0, 2]⟩, ⟨[1, 0]⟩]) : Except Fault _) := by
    decide +kernel
  obtain ⟨p, hp, hrun⟩ := bind_eq_ok_iff.mp hrun
  obtain ⟨q, hq, hrun⟩ := bind_eq_ok_iff.mp hrun
  simp only [pure_eq_ok_iff, Prod.mk.injEq] at hrun
  obtain ⟨hpo, hqo, hps, hqs⟩ := hrun
  have hobtained : p.Obtained true := .ofTerms hp
  have hcompares := comparesSupports_of_obtained hobtained (hobtained.reorder hq)
  have hsame : p.SameMonomials q := fun m => by
    rw [hps, hqs]
    exact (List.Perm.swap _ _ _).mem_iff
  have hunlike : ¬ p.order.RankAlike q.order p.support := by
    rw [hpo, hqo, hps]
    exact fun halike => absurd (halike ⟨[1, 0]⟩ (by simp) ⟨[0, 2]⟩ (by simp)) (by decide)
  refine ⟨p, q, hobtained, hobtained.reorder hq, hq, hps, hqs, hsame, ?_, fun hright => ?_⟩
  · exact Bool.eq_false_iff.mpr fun haccepted => hunlike (hcompares.accepts_iff.mp haccepted).2
  · exact hunlike (hcompares.right_iff.mp hright hsame)

end Polynomial

end PolyIdeal
