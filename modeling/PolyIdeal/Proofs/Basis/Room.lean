import PolyIdeal.Completion.Run
import PolyIdeal.Proofs.Basis.Generators

/-!
# Room for further generators

A completion appends remainders, and the leading monomial of a remainder is divisible by none of
those already there. Each new generator therefore takes its own leading monomial, at least, out of
the finitely many that no leading monomial divides yet. `Basis.room` counts them. It plays the
part of Dickson's lemma, and it knows nothing about coefficients.

A basis without generators has no pairs, so it never grows and its room is none.
-/

namespace PolyIdeal

variable {K : Type} {n : ℕ} {o : TermOrder} {gs : List (Polynomial K)} {r : Polynomial K}

open Classical in
/-- The vectors of words that no leading monomial of `gs` divides. -/
noncomputable def uncovered (n : ℕ) (gs : List (Polynomial K)) :
    Finset (Fin n → Fin UInt32.size) :=
  Finset.univ.filter fun w =>
    ∀ g ∈ gs, ∀ m, g.leadingMonomial = .ok m → ¬ m.exps n ≤ Monomial.ofWords w

theorem mem_uncovered {w : Fin n → Fin UInt32.size} : w ∈ uncovered n gs ↔
    ∀ g ∈ gs, ∀ m, g.leadingMonomial = .ok m → ¬ m.exps n ≤ Monomial.ofWords w := by
  simp [uncovered]

/-- A generator with a leading monomial that no other one divides leaves fewer uncovered. -/
theorem card_uncovered_append_lt {m : Monomial} (hgs : ∀ g ∈ gs, g.Fits n o)
    (hm : r.leadingMonomial = .ok m) (hma : m.arity = n)
    (hnew : ∀ g ∈ gs, g.leadDivides m = false) :
    (uncovered n (gs ++ [r])).card < (uncovered n gs).card := by
  apply Finset.card_lt_card
  refine ⟨fun w hw => ?_, fun hsub => ?_⟩
  · exact mem_uncovered.mpr fun g hg => mem_uncovered.mp hw g (List.mem_append_left _ hg)
  · -- the new leading monomial itself was uncovered and is not any more
    have hbefore : m.words n ∈ uncovered n gs := by
      refine mem_uncovered.mpr fun g hg k hk hle => Bool.eq_false_iff.mp (hnew g hg) ?_
      obtain ⟨u, us, hus, rfl⟩ := Polynomial.leadingMonomial_eq_ok_iff.mp hk
      have hua := (hgs g hg).ofArity u (hus ▸ List.mem_cons_self)
      exact Polynomial.leadDivides_eq_true_iff.mpr
        ⟨u, us, hus, (Monomial.divides_iff hua hma).mpr hle⟩
    exact mem_uncovered.mp (hsub hbefore) r (List.mem_append_right _ List.mem_cons_self) m hm le_rfl

namespace Basis

variable {b : Basis K}

/-- The number of leading monomials that a further generator can still have. -/
noncomputable def room (b : Basis K) : ℕ :=
  if b.isEmpty then 0 else (uncovered b.arity b.generators).card

/-- The bound on the generators leaves space for all the room there is. -/
theorem size_add_room_le (b : Basis K) : b.size + b.room ≤ b.sizeBound := by
  unfold room sizeBound
  split
  next h =>
    have hsize : b.size = 0 := List.length_eq_zero_iff.mpr (List.isEmpty_iff.mp h)
    omega
  next => exact Nat.add_le_add_left (Monomial.card_le_count _) _

theorem Fits.room_eq (hb : b.Fits n o) (hne : b.generators ≠ []) :
    b.room = (uncovered n b.generators).card := by
  unfold room isEmpty
  rw [if_neg (fun hempty => hne (List.isEmpty_iff.mp hempty)), hb.arity_eq]

/-- Appending a remainder takes up room. -/
theorem Fits.room_append_lt [Scalar K] {p : Polynomial K} (hb : b.Fits n o)
    (hne : b.generators ≠ []) (h : b.remainder p = .ok r) (hr : r.Fits n o)
    (hz : r.isZero = false) :
    ({ b with generators := b.generators ++ [r] } : Basis K).room < b.room := by
  obtain ⟨t, ts, hts⟩ := Polynomial.isZero_eq_false_iff.mp hz
  have ht := Polynomial.leadingMonomial_eq_ok_iff.mpr ⟨t, ts, hts, rfl⟩
  have hnew : ∀ g ∈ b.generators, g.leadDivides t.monomial = false := fun g hg =>
    Polynomial.leadDivides_of_mem_remainder h (hts ▸ List.mem_cons_self) hg
  have hlt := card_uncovered_append_lt hb.generators ht (hr.ofArity t (hts ▸ List.mem_cons_self))
    hnew
  have hne' : b.generators ++ [r] ≠ [] :=
    List.append_ne_nil_of_right_ne_nil _ (List.cons_ne_nil _ _)
  rw [hb.room_eq hne, (hb.append hr hz).room_eq hne']
  exact hlt

end Basis
end PolyIdeal
