import PolyIdeal.Proofs.Basis.Minimizing
import PolyIdeal.Proofs.Basis.Sorting
import PolyIdeal.Proofs.Division.Quotients

/-!
# One sweep of reductions is enough

Reducing replaces the generators of a minimal basis one after the other by their monic remainders
modulo all others, of which the earlier ones are replaced already. A remainder has no term that the
leading monomial of another generator divides, and replacing another one later does not change that,
because leading monomials stay. So after one sweep no term of any generator is divisible by the
leading monomial of another: `Interreducing` is what holds between two replacements.

Nothing is left to do for a second reduction. Its divisions find no divisor, and they put the terms
back by comparisons that have succeeded before; so they cannot overflow either.
-/

namespace PolyIdeal

variable {K : Type} {n : ℕ} {o : TermOrder}

namespace Polynomial

variable {f g p q r : Polynomial K} {D : List (Polynomial K)}

/-! ## Terms that cannot be cancelled -/

/-- No term of either polynomial is divisible by the leading monomial of the other. -/
def TermsApart (f g : Polynomial K) : Prop :=
  (∀ m ∈ f.support, g.leadDivides m = false) ∧ ∀ m ∈ g.support, f.leadDivides m = false

theorem TermsApart.symm (h : f.TermsApart g) : g.TermsApart f := ⟨h.2, h.1⟩

/-- Each monomial compares with all later ones. -/
def Ranked (o : TermOrder) (p : Polynomial K) : Prop :=
  p.support.Pairwise fun k m => o.compare k m = .ok .gt

theorem leadDivides_congr (h : p.leadingMonomial = q.leadingMonomial) (m : Monomial) :
    p.leadDivides m = q.leadDivides m := by
  cases hp : p.leadDivides m with
  | true =>
    obtain ⟨t, ts, hts, hdvd⟩ := leadDivides_eq_true_iff.mp hp
    have hq := h.symm.trans (leadingMonomial_eq_ok_iff.mpr ⟨t, ts, hts, rfl⟩)
    rw [leadDivides_of_leadingMonomial hq, hdvd]
  | false =>
    symm
    apply leadDivides_eq_false_iff.mpr
    intro lead hlead
    exact leadDivides_eq_false_iff.mp hp lead (h.trans hlead)

variable [Scalar K]

/-- Making a polynomial monic may only leave monomials out. -/
theorem support_monic (h : p.monic = .ok q) : q.support.Sublist p.support := by
  obtain ⟨t, ts, hts, rfl⟩ := monic_eq_ok_iff.mp h
  have htail := (keepSignificant_sublist p.epsilon
    (ts.map fun u => (⟨u.monomial, u.coeff / t.coeff⟩ : Term K))).map Term.monomial
  rw [List.map_map] at htail
  unfold support
  rw [hts]
  exact htail.cons_cons t.monomial

theorem leadingCoeff_monic (h : p.monic = .ok q) : q.leadingCoeff = .ok 1 := by
  obtain ⟨t, ts, -, rfl⟩ := monic_eq_ok_iff.mp h
  rfl

/-- The monomials of a remainder were compared when they were pushed, each with the one in front of
it; so all of them can be ranked. -/
theorem ranked_remainder (hp : p.Fits n o) (hD : ∀ d ∈ D, d.Fits n o)
    (h : p.remainder D = .ok r) : r.Ranked o := by
  have hdesc := (hp.remainder hD h).descending
  obtain ⟨d, hd, rfl⟩ := remainder_eq_ok_iff.mp h
  have hchain := PartialDivision.isChain_remainder rfl hp.order_eq (divide_eq_ok_iff.mp hd).2
  let bothRank (u t : Term K) : Prop := o.canRank u.monomial = true ∧ o.canRank t.monomial = true
  have : IsTrans (Term K) bothRank := ⟨fun _ _ _ hab hbc => ⟨hab.1, hbc.2⟩⟩
  have hranks : d.remainder.terms.Pairwise bothRank :=
    (hchain.imp fun u t hut => (TermOrder.compare_eq_ok_iff.mp hut).1).pairwise
  apply List.pairwise_map.mpr
  exact (hranks.and hdesc).imp fun hut => TermOrder.compare_eq_ok_iff.mpr hut

/-- What no divisor can reduce is left as it is. -/
theorem remainder_of_irreducible (hp : p.Fits n o) (hD : ∀ d ∈ D, d.Fits n o) (hrank : p.Ranked o)
    (hirreducible : ∀ m ∈ p.support, ∀ d ∈ D, d.leadDivides m = false) :
    p.remainder D = .ok p := by
  apply remainder_eq_ok_iff.mpr
  refine ⟨_, divide_of_irreducible hp hD ?_ (List.pairwise_map.mp hrank).isChain, rfl⟩
  intro t ht
  exact firstDivisor?_eq_none_iff.mpr (hirreducible t.monomial (List.mem_map_of_mem ht))

end Polynomial

open PolyIdeal.Polynomial

namespace Basis

variable [Scalar K] {b c : Basis K} {done todo gs : List (Polynomial K)} {g g' r : Polynomial K}

/-! ## The sweep -/

/-- What holds between two replacements: the generators `done` are reduced modulo all others, those
in `todo` are not replaced yet. -/
structure Interreducing (n : ℕ) (o : TermOrder) (done todo : List (Polynomial K)) : Prop where
  fits : ∀ g ∈ done ++ todo, g.Fits n o
  nonzero : ∀ g ∈ done ++ todo, g.isZero = false
  apart : (done ++ todo).Pairwise LeadsApart
  monic : ∀ g ∈ done, ∃ r : Polynomial K, r.monic = .ok g
  ranked : ∀ g ∈ done, g.Ranked o
  reduced : done.Pairwise TermsApart
  /-- No term of a generator that is done is divisible by a leading monomial still to come. -/
  irreducible : ∀ f ∈ done, ∀ g ∈ todo, ∀ m ∈ f.support, g.leadDivides m = false

/-- Replacing a generator keeps what holds of those before it, and of the new one. -/
theorem Interreducing.step (hs : Interreducing n o done (g :: todo))
    (hr : g.remainder (done ++ todo) = .ok r) (hg' : r.monic = .ok g') :
    Interreducing n o (done ++ [g']) todo := by
  obtain ⟨hdone, hrest⟩ := List.forall_mem_append.mp hs.fits
  obtain ⟨hg, htodo⟩ := List.forall_mem_cons.mp hrest
  obtain ⟨hdonez, hrestz⟩ := List.forall_mem_append.mp hs.nonzero
  obtain ⟨hgz, htodoz⟩ := List.forall_mem_cons.mp hrestz
  have hothers := List.forall_mem_append.mpr ⟨hdone, htodo⟩
  have hlead := leadingMonomial_reduced hs.apart hgz hr hg'
  -- no other generator divides a term of the new one
  have hnew : ∀ d ∈ done ++ todo, ∀ m ∈ g'.support, d.leadDivides m = false := by
    intro d hd m hm
    obtain ⟨t, ht, rfl⟩ := List.mem_map.mp ((support_monic hg').subset hm)
    exact leadDivides_of_mem_remainder hr ht hd
  obtain ⟨hnewdone, hnewtodo⟩ := List.forall_mem_append.mp hnew
  constructor
  case fits =>
    have hfits : g'.Fits n o := (hg.remainder hothers hr).monic hg'
    exact List.forall_mem_append.mpr
      ⟨List.forall_mem_append.mpr ⟨hdone, List.forall_mem_singleton.mpr hfits⟩, htodo⟩
  case nonzero =>
    exact List.forall_mem_append.mpr ⟨List.forall_mem_append.mpr
      ⟨hdonez, List.forall_mem_singleton.mpr (isZero_monic hg')⟩, htodoz⟩
  case apart => exact pairwise_leadsApart_replace hlead hs.apart
  case monic =>
    exact List.forall_mem_append.mpr ⟨hs.monic, List.forall_mem_singleton.mpr ⟨r, hg'⟩⟩
  case ranked =>
    have hrank : g'.Ranked o :=
      List.Pairwise.sublist (support_monic hg') (ranked_remainder hg hothers hr)
    exact List.forall_mem_append.mpr ⟨hs.ranked, List.forall_mem_singleton.mpr hrank⟩
  case reduced =>
    refine List.pairwise_append.mpr ⟨hs.reduced, List.pairwise_singleton _ _, ?_⟩
    intro f hf h hh
    obtain rfl := List.mem_singleton.mp hh
    -- the new generator leads with the same monomial as the one it replaces
    refine ⟨fun m hm => ?_, hnewdone f hf⟩
    rw [leadDivides_congr hlead]
    exact hs.irreducible f hf g List.mem_cons_self m hm
  case irreducible =>
    refine List.forall_mem_append.mpr ⟨fun f hf h hh => ?_, List.forall_mem_singleton.mpr hnewtodo⟩
    exact hs.irreducible f hf h (List.mem_cons_of_mem g hh)

/-- One sweep reduces all generators of a minimal basis modulo each other. -/
theorem interreducing_reduceEach (hfits : ∀ g ∈ todo, g.Fits n o)
    (hnonzero : ∀ g ∈ todo, g.isZero = false) (hapart : todo.Pairwise LeadsApart)
    (h : reduceEach [] todo = .ok gs) : Interreducing n o gs [] := by
  refine reduceEach_invariant (P := Interreducing n o)
    (fun done g todo r g' hs hr hg' => hs.step hr hg') ?_ h
  constructor
  case fits => exact hfits
  case nonzero => exact hnonzero
  case apart => exact hapart
  case monic => exact List.forall_mem_nil _
  case ranked => exact List.forall_mem_nil _
  case reduced => exact List.Pairwise.nil
  case irreducible => exact List.forall_mem_nil _

/-- The order of the generators does not matter once all are reduced. -/
theorem Interreducing.perm {hs : List (Polynomial K)} (h : Interreducing n o gs [])
    (hperm : gs.Perm hs) : Interreducing n o hs [] where
  fits g hg := h.fits g ((hperm.append_right []).symm.subset hg)
  nonzero g hg := h.nonzero g ((hperm.append_right []).symm.subset hg)
  apart := ((hperm.append_right []).pairwise_iff LeadsApart.symm).mp h.apart
  monic g hg := h.monic g (hperm.symm.subset hg)
  ranked g hg := h.ranked g (hperm.symm.subset hg)
  reduced := (hperm.pairwise_iff TermsApart.symm).mp h.reduced
  irreducible g hg := h.irreducible g (hperm.symm.subset hg)

/-- Monic generators whose terms are apart reduce to themselves. -/
theorem reduceEach_eq_self (hfits : ∀ g ∈ done ++ todo, g.Fits n o)
    (hranked : ∀ g ∈ todo, g.Ranked o) (hmonic : ∀ g ∈ todo, g.monic = .ok g)
    (hreduced : (done ++ todo).Pairwise TermsApart) :
    reduceEach done todo = .ok (done ++ todo) := by
  induction todo generalizing done with
  | nil =>
    rw [List.append_nil]
    rfl
  | cons g todo ih =>
    obtain ⟨hrank, hranked⟩ := List.forall_mem_cons.mp hranked
    obtain ⟨hone, hmonic⟩ := List.forall_mem_cons.mp hmonic
    have happend : done ++ g :: todo = done ++ [g] ++ todo := List.append_cons done g todo
    have hothers := (List.pairwise_cons.mp
      ((List.pairwise_middle TermsApart.symm).mp hreduced)).1
    have hcycled : ∀ f ∈ g :: (done ++ todo), f.Fits n o :=
      fun f hf => hfits f (List.perm_middle.symm.subset hf)
    obtain ⟨hg, hrest⟩ := List.forall_mem_cons.mp hcycled
    have hr : g.remainder (done ++ todo) = .ok g := by
      apply remainder_of_irreducible hg hrest hrank
      intro m hm d hd
      exact (hothers d hd).1 m hm
    rw [reduceEach, bind_of_eq_ok hr, bind_of_eq_ok hone]
    rw [happend] at hfits hreduced ⊢
    exact ih hfits hranked hmonic hreduced

/-! ## Reducing -/

/-- What `reduce` makes of the basis `b`. -/
structure IsReduction (b c : Basis K) : Prop where
  arity_eq : c.arity = b.arity
  order_eq : c.order = b.order
  /-- The leading monomials descend strictly. -/
  descending : c.generators.Pairwise (LeadsOver b.order)
  /-- They are the ones that minimizing leaves. -/
  leads : ∃ d, b.minimize = .ok d ∧
    (c.generators.map Polynomial.leadingMonomial).Perm (d.generators.map Polynomial.leadingMonomial)
  monic : ∀ g ∈ c.generators, g.leadingCoeff = .ok 1
  /-- No term of a generator is divisible by the leading monomial of another. -/
  reduced : c.generators.Pairwise TermsApart
  /-- Reducing again changes nothing. -/
  again : (∀ x : K, x / 1 = x) → c.reduce = .ok c

/-- Interreduced generators in descending order are their own reduction. -/
theorem reduce_eq_self (hone : ∀ x : K, x / 1 = x) (horder : b.order = o)
    (hne : b.isEmpty = false) (hall : Interreducing n o b.generators [])
    (hranks : canRankLeads o b.generators = true) (hdesc : b.generators.Pairwise (LeadsOver o)) :
    b.reduce = .ok b := by
  have hfits : ∀ g ∈ b.generators, g.Fits n o := fun g hg =>
    hall.fits g (List.mem_append_left _ hg)
  have hnonzero : ∀ g ∈ b.generators, g.isZero = false := fun g hg =>
    hall.nonzero g (List.mem_append_left _ hg)
  have hapart : b.generators.Pairwise LeadsApart := by
    rw [← List.append_nil b.generators]
    exact hall.apart
  have hmonic : ∀ g ∈ b.generators, g.monic = .ok g := by
    intro g hg
    obtain ⟨r, hr⟩ := hall.monic g hg
    exact monic_monic hone hr
  apply reduce_eq_ok_iff.mpr
  refine ⟨b, b.generators, b.generators, minimize_eq_self hne hmonic hapart,
    reduceEach_eq_self hfits hall.ranked hmonic hall.reduced, ?_, rfl⟩
  rw [horder]
  exact sortByLead_eq_self hfits hnonzero hranks hdesc

/-- A basis with generators can be reduced, unless an exponent overflows, and the result is reduced
as far as coefficients that obey no law allow. -/
theorem Fits.isReduction_reduce (hb : b.Fits n o) (hne : b.isEmpty = false) :
    OverflowOnly b.reduce ∧ ∀ c, b.reduce = .ok c → IsReduction b c := by
  refine ⟨hb.overflowOnly_reduce hne, fun c hc => ?_⟩
  obtain ⟨d, gs, hs, hd, hgs, hhs, rfl⟩ := reduce_eq_ok_iff.mp hc
  obtain ⟨hdfits, hdapart, -⟩ := hb.minimize hd
  have hsweep := interreducing_reduceEach hdfits.generators hdfits.nonzero hdapart hgs
  have hleads : gs.map Polynomial.leadingMonomial =
      ([] ++ d.generators).map Polynomial.leadingMonomial :=
    map_leadingMonomial_reduceEach hdfits.nonzero hdapart hgs
  -- sorting changes only the order of the generators
  have hperm := perm_of_sortByLead hhs
  have hsorted : Interreducing n o hs [] := hsweep.perm hperm.symm
  rw [hdfits.order_eq] at hhs
  obtain ⟨hfits, -⟩ := List.forall_mem_append.mp hsweep.fits
  obtain ⟨hnonzero, -⟩ := List.forall_mem_append.mp hsweep.nonzero
  have hapart : gs.Pairwise LeadsApart := (List.pairwise_append.mp hsweep.apart).1
  have hdesc := pairwise_leadsOver_of_sortByLead hfits hnonzero hapart hhs
  have hranks : canRankLeads o hs = true := by
    rw [canRankLeads_perm hperm]
    exact (sortByLead_eq_ok_iff.mp hhs).1
  constructor
  case arity_eq => exact hdfits.arity_eq.trans hb.arity_eq.symm
  case order_eq => exact hdfits.order_eq.trans hb.order_eq.symm
  case descending =>
    rw [hb.order_eq]
    exact hdesc
  case leads =>
    refine ⟨d, hd, ?_⟩
    rw [List.nil_append] at hleads
    rw [← hleads]
    exact hperm.map Polynomial.leadingMonomial
  case monic =>
    intro g hg
    obtain ⟨r, hr⟩ := hsorted.monic g hg
    exact leadingCoeff_monic hr
  case reduced => exact hsorted.reduced
  case again =>
    intro hone
    have hlength : hs.length = d.generators.length := by
      simpa [hperm.length_eq] using congrArg List.length hleads
    have hsne : hs.isEmpty = false := by
      rw [List.isEmpty_eq_false_iff, ne_eq, ← List.length_eq_zero_iff, hlength,
        List.length_eq_zero_iff]
      exact List.isEmpty_eq_false_iff.mp (hb.isEmpty_minimize hd)
    exact reduce_eq_self hone hdfits.order_eq hsne hsorted hranks hdesc

/-- The generators `y² + x`, `2x² + 4xy + 2y`, `3xy + 3y` and `xy`. The last one is redundant, and
the middle term of the second one is divisible by the leading monomial of the third. -/
def tangle : Basis ℚ := ⟨2, .grlex,
  [⟨2, .grlex, 1 / 100, [⟨⟨[0, 2]⟩, 1⟩, ⟨⟨[1, 0]⟩, 1⟩]⟩,
    ⟨2, .grlex, 1 / 100, [⟨⟨[2, 0]⟩, 2⟩, ⟨⟨[1, 1]⟩, 4⟩, ⟨⟨[0, 1]⟩, 2⟩]⟩,
    ⟨2, .grlex, 1 / 100, [⟨⟨[1, 1]⟩, 3⟩, ⟨⟨[0, 1]⟩, 3⟩]⟩,
    ⟨2, .grlex, 1 / 100, [⟨⟨[1, 1]⟩, 1⟩]⟩]⟩

/-- The reduction of the tangle is `x² - y`, `xy + y` and `y² + x`. -/
theorem isReduction_reduce_tangle : tangle.Fits 2 .grlex ∧ tangle.isEmpty = false ∧
    ∃ c, tangle.reduce = .ok c ∧ IsReduction tangle c ∧ c.generators.map Polynomial.support =
      [[⟨[2, 0]⟩, ⟨[0, 1]⟩], [⟨[1, 1]⟩, ⟨[0, 1]⟩], [⟨[0, 2]⟩, ⟨[1, 0]⟩]] := by
  have hfits : tangle.Fits 2 .grlex := by decide
  have hrun : tangle.reduce.map (fun c => c.generators.map Polynomial.support) =
      .ok [[⟨[2, 0]⟩, ⟨[0, 1]⟩], [⟨[1, 1]⟩, ⟨[0, 1]⟩], [⟨[0, 2]⟩, ⟨[1, 0]⟩]] := by decide +kernel
  obtain ⟨c, hc, hsupport⟩ := map_eq_ok_iff.mp hrun
  exact ⟨hfits, rfl, c, hc, (hfits.isReduction_reduce rfl).2 c hc, hsupport⟩

end Basis
end PolyIdeal
