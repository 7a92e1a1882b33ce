import PolyIdeal.Proofs.Basis.Generators

/-!
# Gathering polynomials into a basis

`Basis.ofListIn` brings polynomials into an order and inserts them one after the other. Whatever
they are, this fails in two ways only: a monomial cannot be ranked, or a polynomial does not have
the arity of the first one. What is gathered is without generators exactly if every polynomial is
zero once it has been brought into the order.
-/

namespace PolyIdeal

variable {K : Type} [Scalar K] {n : ℕ} {o : TermOrder} {p q : Polynomial K} {e : Fault}

namespace Polynomial

/-- Sorting the terms anew ranks them, which is all that can go wrong. -/
theorem overflowOnly_reorder (p : Polynomial K) (o : TermOrder) : OverflowOnly (p.reorder o) := by
  unfold reorder normalTerms
  split
  · exact .of_eq_ok rfl
  · exact .error

/-- Bringing `p` into the order leaves nothing of it. -/
def VanishesIn (o : TermOrder) (p : Polynomial K) : Prop :=
  ∃ q, p.reorder o = .ok q ∧ q.isZero = true

end Polynomial

namespace Basis

variable {b c : Basis K} {ps : List (Polynomial K)}

omit [Scalar K] in
/-- All polynomials have as many variables as the first one. -/
def SameArity (ps : List (Polynomial K)) : Prop := ∀ p ∈ ps.head?, ∀ q ∈ ps, q.arity = p.arity

/-! ## One polynomial -/

/-- Brings a polynomial into the order and inserts it. -/
def gather (o : TermOrder) (b : Basis K) (p : Polynomial K) : Except Fault (Basis K) := do
  return (← b.insert (← p.reorder o)).1

omit [Scalar K] in
theorem checkFits_of_order_eq (h : b.order = p.order) :
    b.checkFits p = checkArity b.arity p.arity := by
  unfold checkFits
  rw [if_pos h]
  cases checkArity b.arity p.arity <;> rfl

/-- One polynomial taken in: its arity was that of the basis, and a basis without generators stays
one only if the polynomial vanishes in the new order. -/
theorem gather_eq_ok (h : b.gather o p = .ok c) : p.arity = b.arity ∧ c.arity = b.arity ∧
    c.order = b.order ∧ (c.isEmpty = true ↔ b.isEmpty = true ∧ p.VanishesIn o) := by
  obtain ⟨q, hq, h⟩ := bind_eq_ok_iff.mp h
  obtain ⟨⟨c', added⟩, hinsert, h⟩ := bind_eq_ok_iff.mp h
  obtain rfl : c' = c := pure_eq_ok_iff.mp h
  obtain ⟨hfit, hcases⟩ := insert_eq_ok_iff.mp hinsert
  have harity := (checkFits_eq_ok_iff.mp hfit).1
  have hqa : q.arity = p.arity := by
    obtain ⟨us, -, rfl⟩ := Polynomial.reorder_eq_ok_iff.mp hq
    rfl
  have hvanish : p.VanishesIn o ↔ q.isZero = true :=
    ⟨fun ⟨q', hq', hz⟩ => Except.ok.inj (hq.symm.trans hq') ▸ hz, fun hz => ⟨q, hq, hz⟩⟩
  refine ⟨hqa.symm.trans harity.symm, ?_⟩
  rw [hvanish]
  rcases hcases with ⟨hskip, rfl, -⟩ | ⟨hskip, rfl, -⟩
  · refine ⟨rfl, rfl, fun hempty => ⟨hempty, ?_⟩, And.left⟩
    -- nothing is present in a basis without generators
    have hcontains : b.contains q = false := by
      rw [contains, List.isEmpty_iff.mp hempty]
      rfl
    rwa [hcontains, Bool.or_false] at hskip
  · refine ⟨rfl, rfl, fun hempty => ?_, fun ⟨_, hz⟩ => ?_⟩
    · simp [isEmpty] at hempty
    · rw [hz, Bool.true_or] at hskip
      cases hskip

/-- One polynomial refused: an exponent overflows, or its arity is another one. -/
theorem gather_eq_error (horder : b.order = o) (h : b.gather o p = .error e) :
    e = .exponentOverflow ∨ p.arity ≠ b.arity ∧ e = .arityMismatch b.arity p.arity := by
  unfold gather at h
  rcases (p.overflowOnly_reorder o).cases with hq | ⟨q, hq⟩
  · rw [hq] at h
    exact .inl (Except.error.inj h).symm
  · rw [bind_of_eq_ok hq] at h
    obtain ⟨us, -, rfl⟩ := Polynomial.reorder_eq_ok_iff.mp hq
    unfold insert at h
    rw [checkFits_of_order_eq horder, checkArity] at h
    split at h
    next =>
      rw [bind_of_eq_ok rfl] at h
      split at h <;> cases h
    next hne => exact .inr ⟨Ne.symm hne, (Except.error.inj h).symm⟩

/-! ## All polynomials -/

/-- All polynomials taken in, one after the other. -/
theorem foldlM_gather_eq_ok (h : ps.foldlM (gather o) b = .ok c) :
    (∀ p ∈ ps, p.arity = b.arity) ∧
      (c.isEmpty = true ↔ b.isEmpty = true ∧ ∀ p ∈ ps, p.VanishesIn o) := by
  induction ps generalizing b with
  | nil =>
    cases h
    simp
  | cons p ps ih =>
    rw [List.foldlM_cons, bind_eq_ok_iff] at h
    obtain ⟨d, hd, hc⟩ := h
    obtain ⟨harity, hsame, -, hempty⟩ := gather_eq_ok hd
    obtain ⟨hall, hrest⟩ := ih hc
    rw [hsame] at hall
    rw [List.forall_mem_cons, List.forall_mem_cons, hrest, hempty]
    exact ⟨⟨harity, hall⟩, and_assoc⟩

/-- The polynomials are not all taken in: an exponent overflows, or one of them has another
arity. -/
theorem foldlM_gather_eq_error (horder : b.order = o) (h : ps.foldlM (gather o) b = .error e) :
    e = .exponentOverflow ∨
      ∃ p ∈ ps, p.arity ≠ b.arity ∧ e = .arityMismatch b.arity p.arity := by
  induction ps generalizing b with
  | nil => cases h
  | cons p ps ih =>
    rw [List.foldlM_cons] at h
    cases hd : b.gather o p with
    | error e' =>
      rw [hd] at h
      obtain rfl : e' = e := Except.error.inj h
      exact (gather_eq_error horder hd).imp_right fun hmixed => ⟨p, List.mem_cons_self, hmixed⟩
    | ok d =>
      rw [bind_of_eq_ok hd] at h
      obtain ⟨-, hsame, horder', -⟩ := gather_eq_ok hd
      obtain hover | ⟨q, hq, hmixed⟩ := ih (horder'.trans horder) h
      · exact .inl hover
      · rw [hsame] at hmixed
        exact .inr ⟨q, List.mem_cons_of_mem _ hq, hmixed⟩

/-- A list that becomes a basis has one arity, and a basis without generators comes from polynomials
that all vanish. -/
theorem ofListIn_eq_ok (h : ofListIn o ps = .ok b) :
    SameArity ps ∧ (b.isEmpty = true ↔ ∀ p ∈ ps, p.VanishesIn o) := by
  cases ps with
  | nil =>
    cases h
    exact ⟨fun p hp q hq => absurd hq List.not_mem_nil,
      fun _ p hp => absurd hp List.not_mem_nil, fun _ => rfl⟩
  | cons p ps =>
    obtain ⟨harity, hempty⟩ := foldlM_gather_eq_ok h
    refine ⟨fun p' hp' => ?_, hempty.trans ⟨And.right, fun hall => ⟨rfl, hall⟩⟩⟩
    obtain rfl := Option.some.inj hp'
    exact harity

/-- The faults with which a list can be refused; the arity that is expected is that of the first
polynomial. -/
theorem ofListIn_eq_error (h : ofListIn o ps = .error e) : e = .exponentOverflow ∨
    ∃ p q, ps.head? = some p ∧ q ∈ ps ∧ q.arity ≠ p.arity ∧
      e = .arityMismatch p.arity q.arity := by
  cases ps with
  | nil => cases h
  | cons p ps =>
    refine (foldlM_gather_eq_error (b := empty p.arity o) rfl h).imp_right ?_
    rintro ⟨q, hq, hmixed⟩
    exact ⟨p, q, rfl, hq, hmixed⟩

/-- What is gathered from polynomials with monomials of their own arity has a shape. -/
theorem exists_fits_ofListIn (hps : ∀ p ∈ ps, OfArity p.arity p.terms)
    (h : ofListIn o ps = .ok b) : ∃ n o', b.Fits n o' := by
  have hsame := (ofListIn_eq_ok h).1
  cases ps with
  | nil =>
    cases h
    exact ⟨_, _, fits_empty _ _⟩
  | cons p ps =>
    have harity := hsame p rfl
    exact ⟨_, _, fits_ofListIn harity (fun q hq => harity q hq ▸ hps q hq)
      (List.cons_ne_nil p ps) h⟩

end Basis
end PolyIdeal
