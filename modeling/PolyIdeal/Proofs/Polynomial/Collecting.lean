import PolyIdeal.Proofs.Polynomial.Coefficients
import PolyIdeal.Proofs.Polynomial.Overflow
import PolyIdeal.Scalar.Rational

/-!
# Collecting like terms

A polynomial can be built from terms in any order and with repetitions. What it has to hold at a
monomial is the sum of the coefficients given for it, and since no law of addition is assumed, the
sum is the one from left to right: `leftSum? (coeffsAt ts m)`.

Terms are only added to a neighbour. The sort puts the terms of one monomial next to each other, for
every order, and it is stable, so they are added in input order. Small sums are dropped once they
are complete, not while they are formed. If addition is commutative and associative, the order of
the input does not matter.
-/

namespace PolyIdeal

variable {K : Type} {n : ℕ} {o : TermOrder} {ε : K} {ts us : List (Term K)} {m : Monomial}

/-! ## The coefficients of a monomial and their sum -/

/-- The coefficients that a list of terms has at a monomial, in the order of the list. -/
def coeffsAt (ts : List (Term K)) (m : Monomial) : List K :=
  (ts.filter fun t => t.monomial = m).map Term.coeff

/-- The sum from left to right, if there is anything to add. -/
def leftSum? [Scalar K] : List K → Option K
  | [] => none
  | c :: cs => some (cs.foldl (· + ·) c)

theorem coeffsAt_cons (t : Term K) (ts : List (Term K)) (m : Monomial) :
    coeffsAt (t :: ts) m = if t.monomial = m then t.coeff :: coeffsAt ts m else coeffsAt ts m := by
  unfold coeffsAt
  rw [List.filter_cons]
  by_cases h : t.monomial = m
  · rw [if_pos h, if_pos (decide_eq_true h), List.map_cons]
  · rw [if_neg h, if_neg (mt of_decide_eq_true h)]

theorem coeffsAt_eq_nil_of_below (h : Below o n (o.rank n m) ts) : coeffsAt ts m = [] := by
  unfold coeffsAt
  rw [List.map_eq_nil_iff, List.filter_eq_nil_iff]
  intro t ht htm
  exact lt_irrefl _ (of_decide_eq_true htm ▸ h t ht)

theorem coeffsAt_perm (h : ts.Perm us) (m : Monomial) : (coeffsAt ts m).Perm (coeffsAt us m) :=
  (h.filter _).map Term.coeff

variable [Scalar K]

/-- Without repetitions there is nothing to add up. -/
theorem leftSum?_coeffsAt (h : (ts.map Term.monomial).Nodup) (m : Monomial) :
    leftSum? (coeffsAt ts m) = coeffAt ts m := by
  induction ts with
  | nil => rfl
  | cons t ts ih =>
    obtain ⟨hnot, hts⟩ := List.nodup_cons.mp h
    rw [coeffsAt_cons, coeffAt_cons]
    split
    next htm =>
      have hnone : coeffsAt ts m = [] := by
        unfold coeffsAt
        rw [List.map_eq_nil_iff, List.filter_eq_nil_iff]
        intro u hu hum
        exact hnot (htm.trans (of_decide_eq_true hum).symm ▸ List.mem_map_of_mem hu)
      rw [hnone]
      rfl
    next => exact ih hts

/-- Where addition is commutative and associative, the order of the summands does not matter. -/
theorem leftSum?_perm (hcomm : ∀ a b : K, a + b = b + a)
    (hassoc : ∀ a b c : K, a + b + c = a + (b + c)) {cs ds : List K} (h : cs.Perm ds) :
    leftSum? cs = leftSum? ds := by
  have hswap : ∀ a b c : K, a + b + c = a + c + b := fun a b c => by
    rw [hassoc, hcomm b c, ← hassoc]
  induction h with
  | nil => rfl
  | cons c hcs _ =>
    exact congrArg some (hcs.foldl_eq' (fun a _ b _ s => hswap s a b) c)
  | swap c d cs =>
    rw [leftSum?, leftSum?, List.foldl_cons, List.foldl_cons, hcomm]
  | trans _ _ ih ih' => exact ih.trans ih'

namespace Polynomial

/-! ## Sorting and combining -/

omit [Scalar K] in
/-- The sort leaves the terms of one monomial in input order. -/
theorem coeffsAt_sortDescending (ha : OfArity n ts) (m : Monomial) :
    coeffsAt (sortDescending o ts) m = coeffsAt ts m := by
  refine congrArg (List.map Term.coeff) (StableSort.filter_sort fun t ht u hu htm hum => ?_)
  have hsame : t.monomial = u.monomial :=
    (of_decide_eq_true htm).trans (of_decide_eq_true hum).symm
  rw [(TermOrder.cmp_eq_eq_iff o (ha t ht) (ha u hu)).mpr hsame]
  rfl

/-- In a sorted list the terms of a monomial are next to each other, and combining neighbours adds
them up from left to right. -/
theorem coeffAt_combineRun (t : Term K) (ts : List (Term K)) (ha : OfArity n (t :: ts))
    (hs : (t :: ts).Pairwise fun t u => o.rank n u.monomial ≤ o.rank n t.monomial)
    (m : Monomial) : coeffAt (combineRun t ts) m = leftSum? (coeffsAt (t :: ts) m) := by
  induction ts generalizing t with
  | nil =>
    rw [combineRun, coeffAt_cons, coeffsAt_cons]
    split
    next => rfl
    next => rfl
  | cons u ts ih =>
    obtain ⟨hfirst, hrest⟩ := List.pairwise_cons.mp hs
    rw [combineRun]
    split
    case isTrue heq =>
      -- the run goes on, and `u` is added to it
      rw [ih ⟨t.monomial, t.coeff + u.coeff⟩ (List.forall_mem_cons.mpr ⟨ha.head, ha.tail.tail⟩)
        (List.pairwise_cons.mpr ⟨fun v hv => hfirst v (.tail _ hv), hrest.tail⟩)]
      rw [coeffsAt_cons, coeffsAt_cons t, coeffsAt_cons u, heq]
      split
      next => rfl
      next => rfl
    case isFalse hne =>
      rw [coeffAt_cons, coeffsAt_cons t, ih u ha.tail hrest]
      split
      next htm =>
        -- `u` is the largest of what follows, and it is not `t`
        have hut : o.rank n u.monomial < o.rank n t.monomial :=
          lt_of_le_of_ne (hfirst u List.mem_cons_self)
            fun h => hne (TermOrder.rank_injective o ha.tail.head ha.head h)
        have hbelow : Below o n (o.rank n t.monomial) (u :: ts) :=
          List.forall_mem_cons.mpr
            ⟨hut, fun v hv => ((List.pairwise_cons.mp hrest).1 v hv).trans_lt hut⟩
        rw [coeffsAt_eq_nil_of_below (htm ▸ hbelow)]
        rfl
      next => rfl

theorem coeffAt_combineLike (ha : OfArity n ts)
    (hs : ts.Pairwise fun t u => o.rank n u.monomial ≤ o.rank n t.monomial) (m : Monomial) :
    coeffAt (combineLike ts) m = leftSum? (coeffsAt ts m) := by
  cases ts with
  | nil => rfl
  | cons t ts => exact coeffAt_combineRun t ts ha hs m

/-- Normal terms have the complete sums that are significant. -/
theorem coeffAt_normalTerms (ha : OfArity n ts) (h : normalTerms o ε ts = .ok us) (m : Monomial) :
    coeffAt us m = (leftSum? (coeffsAt ts m)).filter (Scalar.significant ε) := by
  have hs : OfArity n (sortDescending o ts) :=
    fun t ht => ha t ((sortDescending_perm o ts).subset ht)
  have hsorted := pairwise_sortDescending (o := o) ha
  rw [normalTerms_eq_ok h, coeffAt_keepSignificant (ofArity_combineLike hs)
    (descending_combineLike hs hsorted), coeffAt_combineLike hs hsorted,
    coeffsAt_sortDescending ha]

/-! ## Results -/

/-- Sorting two terms or more computes the rank of each, and nothing else can fail. -/
theorem exists_normalTerms_iff : (∃ us, normalTerms o ε ts = .ok us) ↔
    ts.length < 2 ∨ Rankable o ts := by
  have hroom : (ts.length < 2 || ts.all fun t => o.canRank t.monomial) = true ↔
      ts.length < 2 ∨ Rankable o ts := by
    rw [Bool.or_eq_true, decide_eq_true_iff, List.all_eq_true]
    rfl
  unfold normalTerms
  rw [← hroom]
  split
  next h => exact iff_of_true ⟨_, rfl⟩ h
  next h => exact iff_of_false (fun ⟨_, hus⟩ => by cases hus) h

/-- Normal terms do not depend on the order of the input as long as the sums do not, nor does the
failure. -/
theorem normalTerms_perm (ha : OfArity n ts) (h : us.Perm ts)
    (hsums : ∀ m, leftSum? (coeffsAt us m) = leftSum? (coeffsAt ts m)) :
    normalTerms o ε us = normalTerms o ε ts := by
  have hau : OfArity n us := fun u hu => ha u (h.subset hu)
  have hexists : (∃ vs, normalTerms o ε us = .ok vs) ↔ ∃ vs, normalTerms o ε ts = .ok vs := by
    rw [exists_normalTerms_iff, exists_normalTerms_iff, h.length_eq]
    exact or_congr_right ⟨fun hr t ht => hr t (h.symm.subset ht), fun hr u hu => hr u (h.subset hu)⟩
  rcases (yields_iff.mp (yields_normalTerms (o := o) (ε := ε) ha)).1.cases with hts | ⟨vs, hvs⟩
  · rcases (yields_iff.mp (yields_normalTerms (o := o) (ε := ε) hau)).1.cases with hus | hus
    · rw [hus, hts]
    · obtain ⟨vs, hvs⟩ := hexists.mp hus
      rw [hts] at hvs
      cases hvs
  · obtain ⟨ws, hws⟩ := hexists.mpr ⟨vs, hvs⟩
    obtain ⟨hav, hdv⟩ := descending_normalTerms ha hvs
    obtain ⟨haw, hdw⟩ := descending_normalTerms hau hws
    rw [hws, hvs, eq_of_coeffAt_eq haw hdw hav hdv fun m => ?_]
    rw [coeffAt_normalTerms hau hws, coeffAt_normalTerms ha hvs, hsums]

/-- What the polynomial that is built from a list of terms in `n` variables holds. -/
structure Collects (ts : List (Term K)) (n : ℕ) (o : TermOrder) : Prop where
  /-- Nothing but an exponent past 32 bits can keep it from being built, -/
  overflow : OverflowOnly (ofTerms ts n o)
  /-- and that takes two terms, one of them with a degree that the order cannot compute. -/
  exists_iff : (∃ p, ofTerms ts n o = .ok p) ↔ ts.length < 2 ∨ Rankable o ts
  /-- It has the arity, the order and the default threshold, and descending terms. -/
  fits : ∀ p, ofTerms ts n o = .ok p → p.Fits n o ∧ p.epsilon = Scalar.defaultEpsilon
  /-- A monomial is there if it occurs and the sum of all its coefficients, from left to right in
  the order of the list, is significant; and this sum is its coefficient. -/
  mem_iff : ∀ p, ofTerms ts n o = .ok p → ∀ m c, ⟨m, c⟩ ∈ p.terms ↔
    leftSum? (coeffsAt ts m) = some c ∧ Scalar.significant Scalar.defaultEpsilon c = true
  /-- A rearrangement of the list comes to the same if it leaves each of the sums as it is, -/
  perm_of_sums : ∀ us, us.Perm ts →
    (∀ m, leftSum? (coeffsAt us m) = leftSum? (coeffsAt ts m)) → ofTerms us n o = ofTerms ts n o
  /-- so with exact addition every rearrangement does. -/
  perm : (∀ a b : K, a + b = b + a) → (∀ a b c : K, a + b + c = a + (b + c)) →
    ∀ us, us.Perm ts → ofTerms us n o = ofTerms ts n o

/-- Terms of one arity, in any order and with any repetitions, are collected by monomial. -/
theorem collects_ofTerms (ha : OfArity n ts) (o : TermOrder) : Collects ts n o := by
  have hperm : ∀ us, us.Perm ts → (∀ m, leftSum? (coeffsAt us m) = leftSum? (coeffsAt ts m)) →
      ofTerms us n o = ofTerms ts n o := by
    intro us hperm hsums
    have hau : OfArity n us := fun u hu => ha u (hperm.subset hu)
    rw [ofTerms_of_ofArity ha, ofTerms_of_ofArity hau, normalTerms_perm ha hperm hsums]
  constructor
  case overflow => exact (yields_iff.mp (yields_ofTerms ha)).1
  case exists_iff =>
    rw [ofTerms_of_ofArity ha, ← exists_normalTerms_iff (ε := Scalar.defaultEpsilon)]
    simp only [bind_eq_ok_iff, pure_eq_ok_iff]
    constructor
    · rintro ⟨_, us, hus, -⟩
      exact ⟨us, hus⟩
    · rintro ⟨us, hus⟩
      exact ⟨_, us, hus, rfl⟩
  case fits =>
    intro p hp
    refine ⟨fits_ofTerms hp, ?_⟩
    obtain ⟨-, us, -, rfl⟩ := ofTerms_eq_ok_iff.mp hp
    rfl
  case mem_iff =>
    intro p hp m c
    have hfits := fits_ofTerms hp
    obtain ⟨-, us, hus, rfl⟩ := ofTerms_eq_ok_iff.mp hp
    rw [mem_iff_coeffAt hfits.ofArity hfits.descending, coeffAt_normalTerms ha hus,
      Option.filter_eq_some_iff]
  case perm_of_sums => exact hperm
  case perm =>
    exact fun hcomm hassoc us h =>
      hperm us h fun m => leftSum?_perm hcomm hassoc (coeffsAt_perm h m)

/-- Two multiples of `x` that cancel, and between and behind them two halves of `y`. The first sum
is complete when it is dropped; reversing the list changes nothing. -/
theorem collects_crossingTerms : ∃ ts : List (Term Rat), OfArity 2 ts ∧
    ts.map Term.monomial = [⟨[1, 0]⟩, ⟨[0, 1]⟩, ⟨[1, 0]⟩, ⟨[0, 1]⟩] ∧
      Collects ts 2 .grevlex ∧ ∃ p, ofTerms ts 2 .grevlex = .ok p ∧ p.support = [⟨[0, 1]⟩] ∧
        ⟨⟨[0, 1]⟩, 1⟩ ∈ p.terms ∧ ofTerms ts.reverse 2 .grevlex = .ok p := by
  let ts : List (Term Rat) :=
    [⟨⟨[1, 0]⟩, 3⟩, ⟨⟨[0, 1]⟩, 1 / 2⟩, ⟨⟨[1, 0]⟩, -3⟩, ⟨⟨[0, 1]⟩, 1 / 2⟩]
  have ha : OfArity 2 ts := by decide
  have hrank : Rankable .grevlex ts := by decide
  have hsum : leftSum? (coeffsAt ts ⟨[0, 1]⟩) = some 1 := by decide +kernel
  have hcollects := collects_ofTerms ha .grevlex
  obtain ⟨p, hp⟩ := hcollects.exists_iff.mpr (.inr hrank)
  have hsupport : (ofTerms ts 2 .grevlex).map support = .ok [⟨[0, 1]⟩] := by decide +kernel
  rw [hp] at hsupport
  refine ⟨ts, ha, rfl, hcollects, p, hp, Except.ok.inj hsupport, ?_, ?_⟩
  · exact (hcollects.mem_iff p hp _ _).mpr ⟨hsum, by decide +kernel⟩
  · rw [← hp]
    exact hcollects.perm Rat.add_comm Rat.add_assoc _ (List.reverse_perm ts)

end Polynomial
end PolyIdeal
