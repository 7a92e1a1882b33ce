import PolyIdeal.Proofs.Division.Totality

/-!
# A division descends

The loop of a division goes on for as long as something is left. What makes it end is not the
number of terms, which a round can increase, nor their degrees, which a lexicographic order does
not bound: each round takes off a leading term and brings in smaller ones only. So the terms that
are taken off descend (`popped`), and no infinite sequence of rounds exists (`Follows`), whatever
the coefficients are.

There are `Monomial.count n` monomials in `n` variables, and a descending list of terms is no
longer than that. Hence a division that is given more rounds does not use them.
-/

namespace PolyIdeal

variable {K : Type} {n : ℕ} {o : TermOrder} {p : Polynomial K} {D : List (Polynomial K)}

/-! ## How long a descending list can be -/

/-- Each term of a descending list takes one of the monomials up to the first one. -/
theorem length_le_card_reach {t : Term K} {ts : List (Term K)} (ha : OfArity n (t :: ts))
    (hd : Descending o (t :: ts)) :
    (t :: ts).length ≤ (o.reach n (o.rank n t.monomial)).card := by
  induction ts generalizing t with
  | nil => exact TermOrder.card_reach_pos o n t.monomial
  | cons u ts ih =>
    have htail := ih ha.tail hd.tail
    have hlt := TermOrder.card_reach_lt (hd.below_tail ha u List.mem_cons_self)
    rw [List.length_cons]
    omega

theorem length_le_count {ts : List (Term K)} (ha : OfArity n ts) (hd : Descending o ts) :
    ts.length ≤ Monomial.count n := by
  cases ts with
  | nil => exact Nat.zero_le _
  | cons t ts => exact (length_le_card_reach ha hd).trans (Monomial.card_le_count _)

namespace PartialDivision

variable [Scalar K] {s s' : PartialDivision K}

/-- The state in which the division of `p` by `D` begins. -/
def start (p : Polynomial K) (D : List (Polynomial K)) : PartialDivision K :=
  ⟨p.terms, p.trivialDivision D⟩

/-- One round leads from `s` to `s'`. -/
def Follows (p : Polynomial K) (D : List (Polynomial K)) (s' s : PartialDivision K) : Prop :=
  ∃ t rest known, s = ⟨t :: rest, known⟩ ∧ advance p D t rest known = .ok s'

/-- The leading terms that the given number of rounds take off, in this order. A round that fails
has taken its term off, and is the last one. -/
def popped (p : Polynomial K) (D : List (Polynomial K)) :
    (rounds : ℕ) → PartialDivision K → List (Term K)
  | 0, _ => []
  | _ + 1, ⟨[], _⟩ => []
  | rounds + 1, ⟨t :: rest, known⟩ =>
      t :: match advance p D t rest known with
        | .ok s => popped p D rounds s
        | .error _ => []

/-- More rounds change nothing unless the rounds had run out. -/
theorem run_of_le {rounds rounds' : ℕ} (hle : rounds ≤ rounds')
    (h : run p D rounds s ≠ .error .boundExhausted) : run p D rounds' s = run p D rounds s := by
  induction rounds generalizing rounds' s with
  | zero =>
    obtain ⟨_ | ⟨t, rest⟩, known⟩ := s
    · rw [run_nil, run_nil]
    · exact absurd rfl h
  | succ rounds ih =>
    obtain ⟨_ | ⟨t, rest⟩, known⟩ := s
    · rw [run_nil, run_nil]
    · obtain ⟨rounds', rfl⟩ : ∃ k, rounds' = k + 1 := ⟨rounds' - 1, by omega⟩
      rw [run] at h
      rw [run, run]
      cases hround : advance p D t rest known with
      | error e => rfl
      | ok s' =>
        rw [bind_of_eq_ok hround] at h
        exact ih (Nat.le_of_succ_le_succ hle) h

section Rounds

variable (hp : p.Fits n o) (hD : ∀ d ∈ D, d.Fits n o)
include hp hD

/-- A round leaves a coherent state, in which everything ranks below the term it took off. -/
theorem Follows.coherent (hs : Coherent n o D s) (h : Follows p D s' s) : Coherent n o D s' ∧
    ∃ t ∈ s.rest.head?, Below o n (o.rank n t.monomial) s'.rest := by
  obtain ⟨t, rest, known, rfl, hround⟩ := h
  have hround := advance_eq_ok_iff.mp hround
  exact ⟨hs.round hp hD hround, t, rfl,
    (hround.below_rest hp hD hs.rest_ofArity hs.rest_descending).2.2⟩

/-- No infinite sequence of rounds starts below a bound. The induction is on the bound, in the
well-order of monomials; how many words there are does not matter. -/
theorem acc_of_below {B : (o.monomialOrder n).syn} (hs : Coherent n o D s)
    (hB : Below o n B s.rest) : Acc (Follows p D) s := by
  induction B using WellFounded.induction (wellFounded_lt (α := (o.monomialOrder n).syn))
    generalizing s with
  | _ B ih =>
    refine Acc.intro s fun s' hs' => ?_
    obtain ⟨hcoherent, t, ht, hbelow⟩ := hs'.coherent hp hD hs
    exact ih _ (hB t (List.mem_of_head? ht)) hcoherent hbelow

theorem Coherent.acc (hs : Coherent n o D s) : Acc (Follows p D) s := by
  refine Acc.intro s fun s' hs' => ?_
  obtain ⟨hcoherent, t, -, hbelow⟩ := hs'.coherent hp hD hs
  exact acc_of_below hp hD hcoherent hbelow

/-- The terms that are taken off descend, and rank below what everything that is left ranks
below. -/
theorem Coherent.descending_popped (hs : Coherent n o D s) (rounds : ℕ) :
    OfArity n (popped p D rounds s) ∧
      Descending o (popped p D rounds s) ∧
        ∀ B, Below o n B s.rest → Below o n B (popped p D rounds s) := by
  induction rounds generalizing s with
  | zero => exact ⟨ofArity_nil, .nil, fun _ _ _ ht => absurd ht List.not_mem_nil⟩
  | succ rounds ih =>
    obtain ⟨_ | ⟨t, rest⟩, known⟩ := s
    · exact ⟨ofArity_nil, .nil, fun _ _ _ ht => absurd ht List.not_mem_nil⟩
    have ht : t.monomial.arity = n := hs.rest_ofArity.head
    rw [popped]
    split
    next s' hround =>
      have hround := advance_eq_ok_iff.mp hround
      obtain ⟨-, -, hbelow⟩ := hround.below_rest hp hD hs.rest_ofArity hs.rest_descending
      obtain ⟨harity, hdesc, hbound⟩ := ih (hs.round hp hD hround)
      have hall : OfArity n (t :: popped p D rounds s') :=
        List.forall_mem_cons.mpr ⟨ht, harity⟩
      have hcons := descending_cons hall (hbound _ hbelow) hdesc
      exact ⟨hall, hcons, fun B hB => below_cons hall hcons (hB t List.mem_cons_self)⟩
    next =>
      refine ⟨List.forall_mem_singleton.mpr ht, List.pairwise_singleton _ _, fun B hB => ?_⟩
      exact List.forall_mem_singleton.mpr (hB t List.mem_cons_self)

end Rounds

end PartialDivision

open PartialDivision

namespace Polynomial

variable [Scalar K]

/-- Dividing polynomials of one shape ends, with any coefficients and any thresholds. No infinite
sequence of rounds exists. In any number of rounds, also if the last one fails, the terms that are
taken off descend strictly, so that there are no more of them than monomials. The rounds that a
division is given therefore never run out: with more of them it has the same outcome, which is a
result unless an exponent overflows. -/
theorem divide_descends (hp : p.Fits n o) (hD : ∀ d ∈ D, d.Fits n o) :
    Acc (Follows p D) (start p D) ∧
      (∀ rounds, Descending o (popped p D rounds (start p D)) ∧
        (popped p D rounds (start p D)).length ≤ Monomial.count n) ∧
      (∀ rounds, Monomial.count n ≤ rounds → run p D rounds (start p D) = p.divide D) ∧
      OverflowOnly (p.divide D) := by
  have hs : Coherent n o D (start p D) := coherent_trivialDivision hp
  have hrun : OverflowOnly (run p D (Monomial.count n) (start p D)) :=
    overflowOnly_run hp hD hs fun _ _ => Monomial.card_le_count _
  refine ⟨hs.acc hp hD, fun rounds => ?_, fun rounds hle => ?_, overflowOnly_divide hp hD⟩
  · obtain ⟨harity, hdesc, -⟩ := hs.descending_popped hp hD rounds
    exact ⟨hdesc, length_le_count harity hdesc⟩
  · have hbound : run p D (Monomial.count n) (start p D) ≠ .error .boundExhausted := fun h =>
      absurd (hrun _ h) (by decide)
    rw [run_of_le hle hbound, divide_eq_run fun d hd => hp.checkCompatible (hD d hd),
      hp.arity_eq, start]

/-- Over floating-point numbers `x² + 1` is divided by a polynomial whose leading coefficient is
zero, `0 x + y² - y`. The quotient is infinite, and seven terms are taken off in place of two. -/
theorem divide_descends_zeroLead : ∃ f g : Polynomial Float, f.Fits 2 .lex ∧ g.Fits 2 .lex ∧
    g.leadingCoeff.map (· == 0) = .ok true ∧ Acc (Follows f [g]) (start f [g]) ∧
      (popped f [g] 10 (start f [g])).length = 7 ∧
      Descending .lex (popped f [g] 10 (start f [g])) ∧ OverflowOnly (f.divide [g]) := by
  let f : Polynomial Float := ⟨2, .lex, 1e-4, [⟨⟨[2, 0]⟩, 1⟩, ⟨⟨[0, 0]⟩, 1⟩]⟩
  let g : Polynomial Float := ⟨2, .lex, 0, [⟨⟨[1, 0]⟩, 0⟩, ⟨⟨[0, 2]⟩, 1⟩, ⟨⟨[0, 1]⟩, -1⟩]⟩
  have hf : f.Fits 2 .lex := by decide
  have hg : g.Fits 2 .lex := by decide
  obtain ⟨hacc, hpopped, -, hdivide⟩ := divide_descends hf (List.forall_mem_singleton.mpr hg)
  exact ⟨f, g, hf, hg, by decide +kernel, hacc, by decide +kernel, (hpopped 10).1, hdivide⟩

end Polynomial
end PolyIdeal
