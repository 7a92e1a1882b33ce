import PolyIdeal.Proofs.Polynomial.Coefficients
import PolyIdeal.Proofs.Polynomial.Obtained
import PolyIdeal.Proofs.Polynomial.Overflow

/-!
# Retrieving a coefficient

A monomial of the arity of a polynomial is found if and only if it occurs, and then its coefficient
is returned. The arity is not checked. A monomial of another arity never occurs, but the search
compares it all the same, on the variables that it shares with the polynomial, and it can compare
equal to a term. Then the coefficient of that term is returned in place of none.

When this happens is settled by the comparison alone, as long as it is steady along the list. It is
in all cases but one: the graded reverse order compares from the last shared variable on, and with
a shorter monomial it passes over the variables that have decided before.
-/

namespace PolyIdeal

/-! ## Comparing monomials of different arity -/

namespace TermOrder

variable {o : TermOrder} {a b c : Monomial}

/-- Where the middle list ends, no other difference is looked for. -/
theorem cmpLex_trans : ∀ {xs ys zs : List UInt32}, cmpLex xs ys = .gt → cmpLex ys zs = .gt →
    cmpLex xs zs = .gt
  | [], _, _, hxy, _ => by cases hxy
  | _ :: _, [], _, hxy, _ => by cases hxy
  | _ :: _, _ :: _, [], _, hyz => by cases hyz
  | x :: xs, y :: ys, z :: zs, hxy, hyz => by
    rw [cmpLex, Ordering.then_eq_gt, Std.compare_eq_gt, Std.compare_eq_iff_eq] at hxy hyz ⊢
    rcases hxy with hxy | ⟨rfl, hxy⟩
    · rcases hyz with hyz | ⟨rfl, -⟩
      · exact .inl (UInt32.lt_trans hyz hxy)
      · exact .inl hxy
    · rcases hyz with hyz | ⟨rfl, hyz⟩
      · exact .inl hyz
      · exact .inr ⟨rfl, cmpLex_trans hxy hyz⟩

theorem cmpLex_append : ∀ {xs ys : List UInt32}, xs.length = ys.length → ∀ x y : UInt32,
    cmpLex (xs ++ [x]) (ys ++ [y]) = (cmpLex xs ys).then (Ord.compare x y)
  | [], [], _, _, _ => Ordering.then_eq
  | a :: as, b :: bs, h, x, y => by
    rw [List.cons_append, List.cons_append, cmpLex, cmpLex,
      cmpLex_append (by simpa using h), Ordering.then_assoc]

/-- The last difference of what both lists have is the first one from behind. -/
theorem cmpReverse_eq_cmpLex : ∀ xs ys : List UInt32, cmpReverse xs ys =
    cmpLex (ys.take xs.length).reverse (xs.take ys.length).reverse
  | [], [] | [], _ :: _ | _ :: _, [] => rfl
  | x :: xs, y :: ys => by
    rw [cmpReverse, cmpReverse_eq_cmpLex xs ys, List.length_cons, List.length_cons,
      List.take_succ_cons, List.take_succ_cons, List.reverse_cons, List.reverse_cons,
      cmpLex_append (by simp [Nat.min_comm])]

theorem cmpReverse_trans {xs ys zs : List UInt32} (h : min xs.length zs.length = ys.length)
    (hxy : cmpReverse xs ys = .gt) (hyz : cmpReverse ys zs = .gt) : cmpReverse xs zs = .gt := by
  rw [cmpReverse_eq_cmpLex] at hxy hyz ⊢
  rw [List.take_of_length_le (by omega)] at hxy
  rw [List.take_of_length_le (l := ys) (by omega)] at hyz
  have hx : xs.take zs.length = xs.take ys.length := by
    rw [List.take_eq_take_iff]
    omega
  have hz : zs.take xs.length = zs.take ys.length := by
    rw [List.take_eq_take_iff]
    omega
  rw [hx, hz]
  exact cmpLex_trans hyz hxy

/-- A comparison of degrees and then of exponents is transitive if that of the exponents is. -/
theorem degree_then_trans {x y z : ℕ} {r s t : Ordering}
    (hrst : r = .gt → s = .gt → t = .gt) (hxy : (Ord.compare x y).then r = .gt)
    (hyz : (Ord.compare y z).then s = .gt) : (Ord.compare x z).then t = .gt := by
  rw [Ordering.then_eq_gt, Nat.compare_eq_gt, Nat.compare_eq_eq] at hxy hyz ⊢
  rcases hxy with hxy | ⟨rfl, hr⟩
  · exact .inl (by omega)
  · rcases hyz with hyz | ⟨rfl, hs⟩
    · exact .inl hyz
    · exact .inr ⟨rfl, hrst hr hs⟩

/-- Comparisons are transitive across arities, unless the graded reverse order passes over
variables that it has looked at before. -/
theorem cmp_trans (h : o ≠ .grevlex ∨ min a.arity c.arity = b.arity) (hab : o.cmp a b = .gt)
    (hbc : o.cmp b c = .gt) : o.cmp a c = .gt := by
  cases o with
  | lex => exact cmpLex_trans hab hbc
  | grlex => exact degree_then_trans cmpLex_trans hab hbc
  | grevlex =>
    have hmin := h.resolve_left (fun hne => hne rfl)
    exact degree_then_trans (cmpReverse_trans hmin) hab hbc

end TermOrder

namespace Polynomial

variable {K : Type} {n : ℕ} {o : TermOrder} {p : Polynomial K} {ts : List (Term K)}
  {m : Monomial} {r : Option K}

/-- Along a descending list the comparison is steady, except in the graded reverse order with a
shorter monomial. -/
theorem Steady.of_foreign (ha : OfArity n ts) (hd : Descending o ts)
    (h : o ≠ .grevlex ∨ n ≤ m.arity) : Steady o ts m := by
  refine hd.imp_of_mem fun {t u} ht hu htu => ?_
  have hta := ha t ht
  have hua := ha u hu
  refine ⟨fun hgt => ?_, fun hlt => ?_⟩
  · exact TermOrder.cmp_trans (h.imp_right fun hle => by omega) hgt htu
  · rw [← TermOrder.cmp_swap, Ordering.swap_eq_lt] at hlt ⊢
    exact TermOrder.cmp_trans (h.imp_right fun hle => by omega) htu hlt

/-! ## Results -/

/-- The coefficient is the one at the index that the search reports, if it reports one. -/
theorem coeff?_eq_ok_iff : p.coeff? m = .ok r ↔
    (∃ i, locate p.order p.terms m = .ok (.found i) ∧ p.terms[i]?.map Term.coeff = r) ∨
      ∃ i, locate p.order p.terms m = .ok (.absent i) ∧ none = r := by
  unfold coeff?
  rw [bind_eq_ok_iff]
  constructor
  · rintro ⟨s, hs, h⟩
    cases s with
    | found i => exact .inl ⟨i, hs, pure_eq_ok_iff.mp h⟩
    | absent i => exact .inr ⟨i, hs, pure_eq_ok_iff.mp h⟩
  · rintro (⟨i, hs, rfl⟩ | ⟨i, hs, rfl⟩)
    · exact ⟨_, hs, rfl⟩
    · exact ⟨_, hs, rfl⟩

theorem yields_coeff? : Yields (Rankable p.order p.terms ∧ p.order.canRank m = true)
    (fun _ => True) (p.coeff? m) := by
  unfold coeff?
  refine yields_slot.bind fun s _ _ => ?_
  cases s with
  | found i => exact .of_eq_ok rfl trivial
  | absent i => exact .of_eq_ok rfl trivial

/-- What is returned for a monomial is the coefficient of a term that it compares equal to. -/
theorem exists_of_coeff?_eq_some {c : K} (h : p.coeff? m = .ok (some c)) :
    ∃ t ∈ p.terms, t.coeff = c ∧ p.order.cmp m t.monomial = .eq := by
  obtain ⟨i, hs, h⟩ | ⟨i, -, h⟩ := coeff?_eq_ok_iff.mp h
  · obtain ⟨t, ht, hcmp⟩ := cmp_eq_of_found hs
    rw [ht, Option.map_some, Option.some_inj] at h
    exact ⟨t, List.mem_of_getElem? ht, h, hcmp⟩
  · cases h

/-- Where the comparison is steady, nothing is returned exactly for a monomial that compares equal
to no term. -/
theorem coeff?_eq_none_iff (hs : Steady p.order p.terms m) (h : p.coeff? m = .ok r) :
    r = none ↔ ∀ t ∈ p.terms, p.order.cmp m t.monomial ≠ .eq := by
  obtain ⟨i, hi, rfl⟩ | ⟨i, hi, rfl⟩ := coeff?_eq_ok_iff.mp h
  · obtain ⟨t, ht, hcmp⟩ := cmp_eq_of_found hi
    rw [ht]
    exact iff_of_false (Option.some_ne_none _) fun hne => hne t (List.mem_of_getElem? ht) hcmp
  · exact iff_of_true rfl (splits_of_locate hs hi).cmp_ne_eq

/-- The graded reverse order puts `x²` in front of `x y`. The square of the variable in one compares
equal to the first and smaller than the second, so the search goes on behind both. -/
example : TermOrder.cmp .grevlex ⟨[2]⟩ ⟨[2, 0]⟩ = .eq ∧
    locate .grevlex [(⟨⟨[2, 0]⟩, 1⟩ : Term Rat), ⟨⟨[1, 1]⟩, 1⟩] ⟨[2]⟩ = .ok (.absent 2) := by
  decide +kernel

/-- For a monomial of its arity the coefficient is the one that the polynomial has. -/
theorem coeff?_eq_coeffAt (hp : p.Fits n o) (hm : m.arity = n) (h : p.coeff? m = .ok r) :
    r = coeffAt p.terms m := by
  obtain ⟨i, hi, rfl⟩ | ⟨i, hi, rfl⟩ := coeff?_eq_ok_iff.mp h
  · rw [hp.order_eq] at hi
    obtain ⟨t, ht, rfl⟩ := holds_of_locate hp.ofArity hp.descending hm hi
    rw [ht, coeffAt_of_mem hp.ofArity hp.descending (List.mem_of_getElem? ht)]
    rfl
  · rw [hp.order_eq] at hi
    exact (coeffAt_eq_none_iff.mpr (holds_of_locate hp.ofArity hp.descending hm hi).not_mem).symm

/-- What looking up a monomial comes to. -/
structure Retrieves (p : Polynomial K) (m : Monomial) : Prop where
  /-- Nothing but an exponent past 32 bits can go wrong, -/
  overflow : OverflowOnly (p.coeff? m)
  /-- and nothing goes wrong if the order can rank the monomial and those of the polynomial. -/
  exists_of_rankable : Rankable p.order p.terms → p.order.canRank m = true →
    ∃ r, p.coeff? m = .ok r
  /-- A monomial of the arity of the polynomial gets a coefficient exactly if this is that of one
  of the terms, -/
  some_iff : m.arity = p.arity → ∀ r, p.coeff? m = .ok r → ∀ c, r = some c ↔ ⟨m, c⟩ ∈ p.terms
  /-- and none exactly if it does not occur. -/
  none_iff : m.arity = p.arity → ∀ r, p.coeff? m = .ok r → (r = none ↔ m ∉ p.support)
  /-- A monomial of another arity does not occur. -/
  foreign : m.arity ≠ p.arity → m ∉ p.support
  /-- If it gets a coefficient nevertheless, it compares equal to the term that has it. -/
  foreign_some : ∀ c, p.coeff? m = .ok (some c) →
    ∃ t ∈ p.terms, t.coeff = c ∧ p.order.cmp m t.monomial = .eq
  /-- It gets none exactly if it compares equal to no term, except that in the graded reverse order
  a shorter monomial can miss a term that it compares equal to. -/
  foreign_none_iff : p.order ≠ .grevlex ∨ p.arity ≤ m.arity → ∀ r, p.coeff? m = .ok r →
    (r = none ↔ ∀ t ∈ p.terms, p.order.cmp m t.monomial ≠ .eq)
  /-- So the answer is the right one for the arity of the polynomial, and else if it is none. -/
  right_iff : ∀ r, p.coeff? m = .ok r →
    ((∀ c, r = some c ↔ ⟨m, c⟩ ∈ p.terms) ↔ m.arity = p.arity ∨ r = none)

/-- Whatever has been obtained is searched correctly for monomials of its arity. For others the
comparison decides, which looks at the shared variables only. -/
theorem retrieves_of_obtained [Scalar K] (hp : p.Obtained true) (m : Monomial) : p.Retrieves m := by
  have hfits := hp.fits
  obtain ⟨hoverflow, hroom, -⟩ := yields_iff.mp (yields_coeff? (p := p) (m := m))
  have hsome : m.arity = p.arity → ∀ r, p.coeff? m = .ok r →
      ∀ c, r = some c ↔ ⟨m, c⟩ ∈ p.terms := by
    intro hm r hr c
    rw [coeff?_eq_coeffAt hfits hm hr, mem_iff_coeffAt hfits.ofArity hfits.descending]
  have hforeign : m.arity ≠ p.arity → m ∉ p.support := by
    intro hm hmem
    obtain ⟨t, ht, rfl⟩ := List.mem_map.mp hmem
    exact hm (hfits.ofArity t ht)
  constructor
  case overflow => exact hoverflow
  case exists_of_rankable => exact fun hterms hm => hroom ⟨hterms, hm⟩
  case some_iff => exact hsome
  case none_iff =>
    intro hm r hr
    rw [coeff?_eq_coeffAt hfits hm hr, coeffAt_eq_none_iff, support, List.mem_map]
    exact ⟨fun hne ⟨t, ht, htm⟩ => hne t ht htm, fun hne t ht htm => hne ⟨t, ht, htm⟩⟩
  case foreign => exact hforeign
  case foreign_some => exact fun c h => exists_of_coeff?_eq_some h
  case foreign_none_iff =>
    exact fun hor r hr => coeff?_eq_none_iff (.of_foreign hfits.ofArity hfits.descending hor) hr
  case right_iff =>
    intro r hr
    by_cases hm : m.arity = p.arity
    · exact iff_of_true (hsome hm r hr) (.inl hm)
    · have hnot : ∀ c, ⟨m, c⟩ ∉ p.terms := fun c hc =>
        hforeign hm (List.mem_map_of_mem (f := Term.monomial) hc)
      rw [or_iff_right hm, Option.eq_none_iff_forall_ne_some]
      exact forall_congr' fun c => iff_false_right (hnot c)

/-- The polynomial `x` in two variables, asked for the monomial `x` in one, returns the coefficient
of its term. Asked for the square, it returns none. -/
theorem not_retrieves_shorterMonomial : ∃ p : Polynomial Rat, p.Obtained true ∧
    p.arity = 2 ∧ p.support = [⟨[1, 0]⟩] ∧ p.coeff? ⟨[1]⟩ = .ok (some 1) ∧
      ¬ (∀ c, some 1 = some c ↔ ⟨⟨[1]⟩, c⟩ ∈ p.terms) ∧ p.coeff? ⟨[2]⟩ = .ok none := by
  let p : Polynomial Rat := ofTerm ⟨[1, 0]⟩ 1 .lex
  have hp : p.Obtained true := .ofTerm ..
  have hx := retrieves_of_obtained hp ⟨[1]⟩
  have hfound : p.coeff? ⟨[1]⟩ = .ok (some 1) := by decide +kernel
  refine ⟨p, hp, rfl, by decide +kernel, hfound, fun hright => ?_, by decide +kernel⟩
  rcases (hx.right_iff _ hfound).mp hright with harity | hnone
  · exact absurd harity (by decide)
  · cases hnone

end Polynomial
end PolyIdeal
