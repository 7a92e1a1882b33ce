import PolyIdeal.Polynomial.Merging
import PolyIdeal.Proofs.TermOrder.Ranking

/-!
# Descending lists of terms

A term list is well formed when all monomials have one arity (`OfArity`) and each term leads the
ones behind it (`Descending`). No law of the coefficients is used: what a coefficient is decides
only whether a term is dropped, and dropping terms does no harm to either property.

Three ways of making lists are treated: leaving terms out, shifting every monomial by one factor
(`Shifted`), and merging. `merge_induction` follows the recursion of the merge once and for all.
-/

namespace PolyIdeal

variable {K : Type} {n : ℕ} {o : TermOrder} {ts us : List (Term K)}

/-- All monomials have `n` variables. -/
def OfArity (n : ℕ) (ts : List (Term K)) : Prop := ∀ t ∈ ts, t.monomial.arity = n

/-- Each term leads all later ones. -/
def Descending (o : TermOrder) (ts : List (Term K)) : Prop :=
  ts.Pairwise fun t u => o.cmp t.monomial u.monomial = .gt

instance (n : ℕ) (ts : List (Term K)) : Decidable (OfArity n ts) :=
  inferInstanceAs (Decidable (∀ t ∈ ts, t.monomial.arity = n))

instance (o : TermOrder) (ts : List (Term K)) : Decidable (Descending o ts) :=
  inferInstanceAs (Decidable (ts.Pairwise fun t u => o.cmp t.monomial u.monomial = .gt))

/-- All monomials rank below `B`. -/
def Below (o : TermOrder) (n : ℕ) (B : (o.monomialOrder n).syn) (ts : List (Term K)) : Prop :=
  ∀ t ∈ ts, o.rank n t.monomial < B

theorem ofArity_nil : OfArity n ([] : List (Term K)) := fun _ ht => absurd ht List.not_mem_nil

theorem OfArity.head {t : Term K} (h : OfArity n (t :: ts)) : t.monomial.arity = n :=
  h t List.mem_cons_self

theorem OfArity.tail {t : Term K} (h : OfArity n (t :: ts)) : OfArity n ts :=
  fun u hu => h u (List.mem_cons_of_mem _ hu)

theorem Descending.tail {t : Term K} (h : Descending o (t :: ts)) : Descending o ts :=
  (List.pairwise_cons.mp h).2

/-- In a descending list the head bounds the tail. -/
theorem Descending.below_tail {t : Term K} (h : Descending o (t :: ts))
    (ha : OfArity n (t :: ts)) : Below o n (o.rank n t.monomial) ts := fun u hu =>
  (TermOrder.cmp_eq_gt_iff o ha.head (ha.tail u hu)).mp ((List.pairwise_cons.mp h).1 u hu)

/-- The first of descending terms has the largest rank. -/
theorem Descending.rank_le_head {t : Term K} (h : Descending o (t :: ts))
    (ha : OfArity n (t :: ts)) : ∀ u ∈ t :: ts, o.rank n u.monomial ≤ o.rank n t.monomial :=
  List.forall_mem_cons.mpr ⟨le_rfl, fun u hu => (h.below_tail ha u hu).le⟩

/-- A term may be put in front of terms that are below it. -/
theorem descending_cons {t : Term K} (ha : OfArity n (t :: ts))
    (hb : Below o n (o.rank n t.monomial) ts) (h : Descending o ts) : Descending o (t :: ts) :=
  List.pairwise_cons.mpr
    ⟨fun u hu => (TermOrder.cmp_eq_gt_iff o ha.head (ha.tail u hu)).mpr (hb u hu), h⟩

/-- What is below a bound is below larger ones. -/
theorem Below.mono {B C : (o.monomialOrder n).syn} (h : Below o n B ts) (hBC : B ≤ C) :
    Below o n C ts := fun t ht => (h t ht).trans_le hBC

/-- A whole descending list is bounded by what bounds its head. -/
theorem below_cons {t : Term K} {B : (o.monomialOrder n).syn} (ha : OfArity n (t :: ts))
    (hd : Descending o (t :: ts)) (ht : o.rank n t.monomial < B) : Below o n B (t :: ts) :=
  List.forall_mem_cons.mpr ⟨ht, (hd.below_tail ha).mono ht.le⟩

/-- No monomial occurs twice in a descending list. -/
theorem Descending.nodup_monomials (ha : OfArity n ts) (h : Descending o ts) :
    (ts.map Term.monomial).Nodup := by
  refine List.pairwise_map.mpr (h.imp_of_mem fun {t u} ht hu hgt hsame => ?_)
  have hlt := (TermOrder.cmp_eq_gt_iff o (ha t ht) (ha u hu)).mp hgt
  rw [hsame] at hlt
  exact lt_irrefl _ hlt

/-! ## Leaving terms out -/

theorem OfArity.sublist (h : OfArity n ts) (hs : us.Sublist ts) : OfArity n us :=
  fun t ht => h t (hs.subset ht)

/-- Some of the terms descend if all do. -/
theorem Descending.sublist (h : Descending o ts) (hs : us.Sublist ts) : Descending o us :=
  List.Pairwise.sublist hs h

/-! ## Shifting -/

/-- What is related to a list entry by entry has nothing unrelated. -/
theorem exists_of_mem_forall₂ {α β : Type} {R : α → β → Prop} {xs : List α} {ys : List β} {y : β}
    (h : List.Forall₂ R xs ys) (hy : y ∈ ys) : ∃ x ∈ xs, R x y := by
  induction h with
  | nil => exact absurd hy List.not_mem_nil
  | cons hhead _ ih =>
    rcases List.mem_cons.mp hy with rfl | hy
    · exact ⟨_, List.mem_cons_self, hhead⟩
    · obtain ⟨x, hx, hxy⟩ := ih hy
      exact ⟨x, List.mem_cons_of_mem _ hx, hxy⟩

/-- `us` is `ts` with every monomial multiplied by `m` and `f` applied to the coefficients. -/
def Shifted (m : Monomial) (f : K → K) (ts us : List (Term K)) : Prop :=
  List.Forall₂ (fun t u => t.monomial.mul m = .ok u.monomial ∧ u.coeff = f t.coeff) ts us

/-- Shifting term by term succeeds when every product of monomials fits. -/
theorem mapM_shift_eq_ok_iff {m : Monomial} {f : K → K} :
    (ts.mapM fun t => do return (⟨← t.monomial.mul m, f t.coeff⟩ : Term K)) = .ok us ↔
      Shifted m f ts us := by
  rw [mapM_eq_ok_iff, Shifted]
  refine iff_of_eq (congrArg (fun R => List.Forall₂ R ts us) ?_)
  funext t u
  rw [eq_iff_iff, bind_eq_ok_iff]
  constructor
  · rintro ⟨x, hx, hu⟩
    rw [← pure_eq_ok_iff.mp hu]
    exact ⟨hx, rfl⟩
  · rintro ⟨hx, hu⟩
    exact ⟨_, hx, by rw [← hu]; rfl⟩

/-- Multiplying terms by a monomial of their arity fails only if an exponent overflows. -/
theorem overflowOnly_mapM_shift {m : Monomial} {f : K → K} (ha : OfArity n ts)
    (hm : m.arity = n) :
    OverflowOnly (ts.mapM fun t => do return (⟨← t.monomial.mul m, f t.coeff⟩ : Term K)) :=
  .mapM fun t ht => (Monomial.overflowOnly_mul ((ha t ht).trans hm.symm)).bind
    fun _ _ => .of_eq_ok rfl

namespace Shifted

variable {m : Monomial} {f : K → K}

/-- Each product comes from a term. -/
theorem exists_of_mem (h : Shifted m f ts us) {u : Term K} (hu : u ∈ us) :
    ∃ t ∈ ts, t.monomial.mul m = .ok u.monomial ∧ u.coeff = f t.coeff :=
  exists_of_mem_forall₂ h hu

theorem ofArity (h : Shifted m f ts us) (ha : OfArity n ts) : OfArity n us := fun _ hu => by
  obtain ⟨t, ht, hmul, -⟩ := h.exists_of_mem hu
  rw [Monomial.arity_mul hmul, ha t ht]

/-- A bound moves by the rank of the factor. -/
theorem below (h : Shifted m f ts us) (ha : OfArity n ts) {B : (o.monomialOrder n).syn}
    (hb : Below o n B ts) : Below o n (B + o.rank n m) us := fun _ hu => by
  obtain ⟨t, ht, hmul, -⟩ := h.exists_of_mem hu
  rw [TermOrder.rank_mul o (ha t ht) hmul]
  exact add_lt_add_left (hb t ht) _

/-- A term order respects products, so shifted terms stay in place. -/
theorem descending (h : Shifted m f ts us) (ha : OfArity n ts) (hd : Descending o ts) :
    Descending o us := by
  induction h with
  | nil => exact .nil
  | @cons t u ts us hhead htail ih =>
    have htail : Shifted m f ts us := htail
    have hu : u.monomial.arity = n := by rw [Monomial.arity_mul hhead.1, ha.head]
    refine descending_cons (n := n) ?_ ?_ (ih ha.tail hd.tail)
    · exact List.forall_mem_cons.mpr ⟨hu, htail.ofArity ha.tail⟩
    · rw [TermOrder.rank_mul o ha.head hhead.1]
      exact htail.below ha.tail (hd.below_tail ha)

end Shifted

namespace Polynomial

/-! ## Merging -/

section Merging

variable [Scalar K] {ε : K}

/-- A merge of two lists that are not empty: the larger term goes first, and only terms of the left
list are kept without a test. -/
theorem merge_cons_cons (a b : Term K) (as bs : List (Term K)) :
    merge o ε (a :: as) (b :: bs) =
      match o.cmp a.monomial b.monomial with
      | .gt => a :: merge o ε as (b :: bs)
      | .lt => consSignificant ε b (merge o ε (a :: as) bs)
      | .eq => consSignificant ε ⟨a.monomial, a.coeff + b.coeff⟩ (merge o ε as bs) := rfl

/-- The recursion of the merge: one list may be used up; else the larger of the two heads is
taken out, or both if they are equal. -/
theorem merge_induction {motive : List (Term K) → List (Term K) → List (Term K) → Prop}
    (rest_right : ∀ bs, motive [] bs (keepSignificant ε bs))
    (rest_left : ∀ a as, motive (a :: as) [] (a :: as))
    (left : ∀ a as b bs, o.cmp a.monomial b.monomial = .gt →
      motive as (b :: bs) (merge o ε as (b :: bs)) →
      motive (a :: as) (b :: bs) (a :: merge o ε as (b :: bs)))
    (right : ∀ a as b bs, o.cmp a.monomial b.monomial = .lt →
      motive (a :: as) bs (merge o ε (a :: as) bs) →
      motive (a :: as) (b :: bs) (consSignificant ε b (merge o ε (a :: as) bs)))
    (both : ∀ a as b bs, o.cmp a.monomial b.monomial = .eq →
      motive as bs (merge o ε as bs) →
      motive (a :: as) (b :: bs)
        (consSignificant ε ⟨a.monomial, a.coeff + b.coeff⟩ (merge o ε as bs))) :
    ∀ as bs, motive as bs (merge o ε as bs) := by
  intro as
  induction as with
  | nil => exact rest_right
  | cons a as ihas =>
    intro bs
    induction bs with
    | nil => exact rest_left a as
    | cons b bs ihbs =>
      rw [merge_cons_cons]
      cases h : o.cmp a.monomial b.monomial with
      | gt => exact left a as b bs h (ihas (b :: bs))
      | lt => exact right a as b bs h ihbs
      | eq => exact both a as b bs h (ihas bs)

theorem mem_of_mem_consSignificant {t u : Term K} (h : u ∈ consSignificant ε t ts) :
    u = t ∨ u ∈ ts := by
  unfold consSignificant at h
  split at h
  · exact List.mem_cons.mp h
  · exact .inr h

/-- Dropping terms leaves the others in place. -/
theorem keepSignificant_sublist (ε : K) (ts : List (Term K)) :
    (keepSignificant ε ts).Sublist ts := List.filter_sublist

/-- A merge has no monomial that is in neither list. -/
theorem exists_of_mem_merge (as bs : List (Term K)) :
    ∀ t ∈ merge o ε as bs, ∃ u, (u ∈ as ∨ u ∈ bs) ∧ u.monomial = t.monomial := by
  induction as, bs using merge_induction (o := o) (ε := ε) with
  | rest_right bs => exact fun t ht => ⟨t, .inr ((keepSignificant_sublist ε bs).subset ht), rfl⟩
  | rest_left a as => exact fun t ht => ⟨t, .inl ht, rfl⟩
  | left a as b bs _ ih =>
    intro t ht
    rcases List.mem_cons.mp ht with rfl | ht
    · exact ⟨t, .inl List.mem_cons_self, rfl⟩
    · obtain ⟨u, hu, h⟩ := ih t ht
      exact ⟨u, hu.imp_left (List.mem_cons_of_mem _), h⟩
  | right a as b bs _ ih =>
    intro t ht
    rcases mem_of_mem_consSignificant ht with rfl | ht
    · exact ⟨t, .inr List.mem_cons_self, rfl⟩
    · obtain ⟨u, hu, h⟩ := ih t ht
      exact ⟨u, hu.imp_right (List.mem_cons_of_mem _), h⟩
  | both a as b bs _ ih =>
    intro t ht
    rcases mem_of_mem_consSignificant ht with rfl | ht
    · exact ⟨a, .inl List.mem_cons_self, rfl⟩
    · obtain ⟨u, hu, h⟩ := ih t ht
      exact ⟨u, hu.imp (List.mem_cons_of_mem _) (List.mem_cons_of_mem _), h⟩

/-- A merge has only monomials of its operands, so it has their arity. -/
theorem ofArity_merge {as bs : List (Term K)} (ha : OfArity n as) (hb : OfArity n bs) :
    OfArity n (merge o ε as bs) := fun t ht => by
  obtain ⟨u, hu, h⟩ := exists_of_mem_merge as bs t ht
  rw [← h]
  exact hu.elim (ha u) (hb u)

/-- A merge stays below what bounds both of its operands. -/
theorem below_merge {as bs : List (Term K)} {B : (o.monomialOrder n).syn} (ha : Below o n B as)
    (hb : Below o n B bs) : Below o n B (merge o ε as bs) := fun t ht => by
  obtain ⟨u, hu, h⟩ := exists_of_mem_merge as bs t ht
  rw [← h]
  exact hu.elim (ha u) (hb u)

theorem descending_consSignificant {t : Term K} (ha : OfArity n (t :: ts))
    (hb : Below o n (o.rank n t.monomial) ts) (h : Descending o ts) :
    Descending o (consSignificant ε t ts) := by
  unfold consSignificant
  split
  · exact descending_cons ha hb h
  · exact h

/-- Merging descending lists gives a descending list. -/
theorem descending_merge (as bs : List (Term K)) : OfArity n as → OfArity n bs →
    Descending o as → Descending o bs → Descending o (merge o ε as bs) := by
  induction as, bs using merge_induction (o := o) (ε := ε) with
  | rest_right bs => exact fun _ _ _ hb => hb.sublist (keepSignificant_sublist ε bs)
  | rest_left a as => exact fun _ _ ha _ => ha
  | left a as b bs hcmp ih =>
    intro haa hab hda hdb
    have hlt := (TermOrder.cmp_eq_gt_iff o haa.head hab.head).mp hcmp
    refine descending_cons (n := n) ?_ ?_ (ih haa.tail hab hda.tail hdb)
    · exact List.forall_mem_cons.mpr ⟨haa.head, ofArity_merge haa.tail hab⟩
    · exact below_merge (hda.below_tail haa) (below_cons hab hdb hlt)
  | right a as b bs hcmp ih =>
    intro haa hab hda hdb
    have hlt := (TermOrder.cmp_eq_lt_iff o haa.head hab.head).mp hcmp
    refine descending_consSignificant (n := n) ?_ ?_ (ih haa hab.tail hda hdb.tail)
    · exact List.forall_mem_cons.mpr ⟨hab.head, ofArity_merge haa hab.tail⟩
    · exact below_merge (below_cons haa hda hlt) (hdb.below_tail hab)
  | both a as b bs hcmp ih =>
    intro haa hab hda hdb
    have heq := (TermOrder.cmp_eq_eq_iff o haa.head hab.head).mp hcmp
    refine descending_consSignificant (n := n) ?_ ?_ (ih haa.tail hab.tail hda.tail hdb.tail)
    · exact List.forall_mem_cons.mpr ⟨haa.head, ofArity_merge haa.tail hab.tail⟩
    · exact below_merge (hda.below_tail haa) (heq ▸ hdb.below_tail hab)

end Merging

end Polynomial
end PolyIdeal
