import Mathlib.Data.List.Lex
import PolyIdeal.Basis.Fingerprint
import PolyIdeal.Proofs.Basis.Generators
import PolyIdeal.Proofs.Polynomial.Overflow
import PolyIdeal.Proofs.StableSort
import PolyIdeal.Scalar.Rational

/-!
# What a fingerprint tells

A fingerprint lists the supports of the generators in ascending order. Supports are compared like
words over an alphabet that the term order ranks, a word coming after its proper beginnings. On
monomials of one arity ranks are told apart by the order, so this is the lexicographic order of
lists of ranks, a linear order in which only equal supports have the same place. Hence the sort
forgets in which order the generators stood, and nothing else: two fingerprints are equal exactly
if every support occurs as often in the one basis as in the other.

The coefficients do not matter, and need not even be of one kind.
-/

namespace PolyIdeal

variable {K L : Type} {n : ℕ} {o : TermOrder}

/-! ## Ranking supports -/

/-- The place of a support in the order of words. -/
noncomputable def TermOrder.word (o : TermOrder) (n : ℕ) (s : List Monomial) :
    List (o.monomialOrder n).syn := s.map (o.rank n)

namespace TermOrder

variable {s t : List Monomial}

/-- The comparison of supports is that of words. -/
theorem cmpSupports_eq_lt_iff (hs : ∀ m ∈ s, m.arity = n) (ht : ∀ m ∈ t, m.arity = n) :
    o.cmpSupports s t = .lt ↔ o.word n s < o.word n t := by
  unfold word
  induction s generalizing t with
  | nil =>
    cases t with
    | nil => exact iff_of_false nofun (List.not_lt_nil _)
    | cons y t => exact iff_of_true rfl (List.nil_lt_cons _ _)
  | cons x s ih =>
    cases t with
    | nil => exact iff_of_false nofun (List.not_lt_nil _)
    | cons y t =>
      obtain ⟨hx, hs⟩ := List.forall_mem_cons.mp hs
      obtain ⟨hy, ht⟩ := List.forall_mem_cons.mp ht
      have hsame : o.cmp x y = .eq ↔ o.rank n x = o.rank n y := by
        rw [cmp_eq_compare o hx hy, compare_eq_iff_eq]
      rw [cmpSupports, Ordering.then_eq_lt, ih hs ht, cmp_eq_lt_iff o hx hy, hsame, List.map_cons,
        List.map_cons, List.cons_lt_cons_iff]

/-- Supports in the same place are the same. -/
theorem word_injective (hs : ∀ m ∈ s, m.arity = n) (ht : ∀ m ∈ t, m.arity = n)
    (h : o.word n s = o.word n t) : s = t := by
  unfold word at h
  rw [← List.forall₂_eq_eq_eq, List.forall₂_map_left_iff, List.forall₂_map_right_iff] at h
  rw [← List.forall₂_eq_eq_eq]
  refine List.forall₂_iff_zip.mpr ⟨h.length_eq, fun {x y} hxy => ?_⟩
  obtain ⟨hx, hy⟩ := List.of_mem_zip hxy
  exact rank_injective o (hs x hx) (ht y hy) ((List.forall₂_iff_zip.mp h).2 hxy)

end TermOrder

namespace Basis

variable {b : Basis K} {c : Basis L} {f : Fingerprint}

/-! ## Taking a fingerprint -/

/-- The supports of the generators, each as often as it occurs. -/
def supports (b : Basis K) : Multiset (List Monomial) := ↑(b.generators.map Polynomial.support)

theorem fingerprint_eq_ok_iff : b.fingerprint = .ok f ↔ canRankLeads b.order b.generators = true ∧
    ⟨StableSort.sort (fun s t => b.order.cmpSupports s t == .lt)
      (b.generators.map Polynomial.support)⟩ = f := by
  unfold fingerprint
  cases canRankLeads b.order b.generators with
  | true => simp
  | false => simp

/-- A fingerprint holds the supports. -/
theorem supports_eq_of_fingerprint (h : b.fingerprint = .ok f) :
    (f.supports : Multiset (List Monomial)) = b.supports := by
  obtain ⟨-, rfl⟩ := fingerprint_eq_ok_iff.mp h
  exact Multiset.coe_eq_coe.mpr (StableSort.perm_sort _ _)

theorem length_supports (h : b.fingerprint = .ok f) : f.supports.length = b.size := by
  have hcard := congrArg Multiset.card (supports_eq_of_fingerprint h)
  rwa [supports, Multiset.coe_card, Multiset.coe_card, List.length_map] at hcard

/-- Taking a fingerprint fails if a monomial cannot be ranked, and only then. -/
theorem overflowOnly_fingerprint (b : Basis K) : OverflowOnly b.fingerprint := by
  unfold fingerprint
  split
  · exact .of_eq_ok rfl
  · exact .error

/-- Fingerprints exist if the order can rank the monomials. -/
theorem exists_fingerprint (h : ∀ g ∈ b.generators, Rankable b.order g.terms) :
    ∃ f, b.fingerprint = .ok f := by
  refine ⟨_, fingerprint_eq_ok_iff.mpr ⟨?_, rfl⟩⟩
  unfold canRankLeads
  rw [Bool.or_eq_true, List.all_eq_true]
  refine .inr fun g hg => ?_
  rw [Option.all_eq_true]
  intro m hm
  obtain ⟨t, ht, rfl⟩ := List.mem_map.mp (List.mem_of_mem_head? hm)
  exact h g hg t ht

/-- Whether leading monomials can be ranked is told by the supports, in any order. -/
theorem canRankLeads_of_supports {gs : List (Polynomial K)} {hs : List (Polynomial L)}
    (h : (gs.map Polynomial.support).Perm (hs.map Polynomial.support)) :
    canRankLeads o gs = canRankLeads o hs := by
  have hlength : gs.length = hs.length := by simpa using h.length_eq
  have hall := h.all_eq (f := fun s : List Monomial => s.head?.all o.canRank)
  rw [List.all_map, List.all_map] at hall
  unfold canRankLeads
  rw [hlength]
  exact congrArg _ hall

/-! ## Comparing fingerprints -/

theorem Fits.arity_of_mem_support (hb : b.Fits n o) {s : List Monomial}
    (hs : s ∈ b.generators.map Polynomial.support) : ∀ m ∈ s, m.arity = n := by
  obtain ⟨g, hg, rfl⟩ := List.mem_map.mp hs
  intro m hm
  obtain ⟨t, ht, rfl⟩ := List.mem_map.mp hm
  exact (hb.generators g hg).ofArity t ht

/-- Bases with the same supports have the same fingerprint, or neither has one. -/
theorem Fits.fingerprint_congr (hb : b.Fits n o) (hc : c.Fits n o)
    (h : b.supports = c.supports) : b.fingerprint = c.fingerprint := by
  have hperm := Multiset.coe_eq_coe.mp h
  -- in ascending order smaller words come first
  have hprecedes : ∀ s ∈ b.generators.map Polynomial.support,
      ∀ t ∈ b.generators.map Polynomial.support, (o.cmpSupports s t == .lt) = true ↔
        OrderDual.toDual (o.word n t) < OrderDual.toDual (o.word n s) := fun s hs t ht => by
    rw [beq_iff_eq, OrderDual.toDual_lt_toDual]
    exact TermOrder.cmpSupports_eq_lt_iff (hb.arity_of_mem_support hs) (hb.arity_of_mem_support ht)
  have hinj : ∀ s ∈ b.generators.map Polynomial.support,
      ∀ t ∈ b.generators.map Polynomial.support,
        OrderDual.toDual (o.word n s) = OrderDual.toDual (o.word n t) → s = t := fun s hs t ht h =>
    TermOrder.word_injective (hb.arity_of_mem_support hs) (hb.arity_of_mem_support ht)
      (OrderDual.toDual.injective h)
  have hsort := StableSort.sort_eq_of_perm hprecedes hinj hperm
  unfold fingerprint
  rw [hb.order_eq, hc.order_eq, canRankLeads_of_supports hperm, hsort]

/-- What the fingerprints of two bases tell about them. -/
structure TellsSupports (b : Basis K) (c : Basis L) : Prop where
  /-- Both exist if no degree is out of range, -/
  total : (∀ g ∈ b.generators, Rankable b.order g.terms) →
    (∀ g ∈ c.generators, Rankable c.order g.terms) →
      ∃ f f', b.fingerprint = .ok f ∧ c.fingerprint = .ok f'
  /-- and they are equal exactly if the supports are, each as often as it occurs. -/
  eq_iff : ∀ f f', b.fingerprint = .ok f → c.fingerprint = .ok f' →
    (f = f' ↔ b.supports = c.supports)
  /-- With the same supports also overflows are the same. -/
  congr : b.supports = c.supports → b.fingerprint = c.fingerprint

/-- Fingerprints of bases of one shape tell the supports of the generators, and nothing about their
order or their coefficients. -/
theorem Fits.tellsSupports (hb : b.Fits n o) (hc : c.Fits n o) : TellsSupports b c where
  total hbr hcr := by
    obtain ⟨f, hf⟩ := exists_fingerprint hbr
    obtain ⟨f', hf'⟩ := exists_fingerprint hcr
    exact ⟨f, f', hf, hf'⟩
  eq_iff f f' hf hf' := by
    constructor
    · rintro rfl
      exact (supports_eq_of_fingerprint hf).symm.trans (supports_eq_of_fingerprint hf')
    · intro h
      have hsame := hb.fingerprint_congr hc h
      rw [hf, hf'] at hsame
      exact Except.ok.inj hsame
  congr := hb.fingerprint_congr hc

/-- The generators `x² - y`, `x y` and `x² + 3 y`. -/
def parabolasAndAxes : Basis ℚ := ⟨2, .grevlex,
  [⟨2, .grevlex, 1 / 100, [⟨⟨[2, 0]⟩, 1⟩, ⟨⟨[0, 1]⟩, -1⟩]⟩,
    ⟨2, .grevlex, 1 / 100, [⟨⟨[1, 1]⟩, 1⟩]⟩,
    ⟨2, .grevlex, 1 / 100, [⟨⟨[2, 0]⟩, 1⟩, ⟨⟨[0, 1]⟩, 3⟩]⟩]⟩

/-- The generators `5 x y`, `2 x² + y` and `x² - y`: the same supports in another order. -/
def axesAndParabolas : Basis ℚ := ⟨2, .grevlex,
  [⟨2, .grevlex, 1 / 10, [⟨⟨[1, 1]⟩, 5⟩]⟩,
    ⟨2, .grevlex, 1 / 10, [⟨⟨[2, 0]⟩, 2⟩, ⟨⟨[0, 1]⟩, 1⟩]⟩,
    ⟨2, .grevlex, 1 / 10, [⟨⟨[2, 0]⟩, 1⟩, ⟨⟨[0, 1]⟩, -1⟩]⟩]⟩

/-- Of two bases with the supports of a parabola twice and of the axes once both have the same
fingerprint. -/
theorem tellsSupports_parabolas : parabolasAndAxes.Fits 2 .grevlex ∧
    axesAndParabolas.Fits 2 .grevlex ∧ TellsSupports parabolasAndAxes axesAndParabolas ∧
      parabolasAndAxes.supports = axesAndParabolas.supports ∧
        ∃ f, parabolasAndAxes.fingerprint = .ok f ∧ axesAndParabolas.fingerprint = .ok f := by
  have hb : parabolasAndAxes.Fits 2 .grevlex := by decide
  have hc : axesAndParabolas.Fits 2 .grevlex := by decide
  have hbr : ∀ g ∈ parabolasAndAxes.generators, Rankable .grevlex g.terms := by decide
  have hcr : ∀ g ∈ axesAndParabolas.generators, Rankable .grevlex g.terms := by decide
  have hsupports : parabolasAndAxes.supports = axesAndParabolas.supports := by decide
  have htells := hb.tellsSupports hc
  obtain ⟨f, f', hf, hf'⟩ := htells.total hbr hcr
  obtain rfl := (htells.eq_iff f f' hf hf').mpr hsupports
  exact ⟨hb, hc, htells, hsupports, f, hf, hf'⟩

end Basis
end PolyIdeal
