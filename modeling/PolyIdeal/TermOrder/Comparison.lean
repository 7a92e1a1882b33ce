import PolyIdeal.Monomial.Basic

/-!
# Comparing monomials

`TermOrder.cmp` is the order itself: total, on degrees of any size, so that statements about
sortedness need no side condition. `TermOrder.compare` is what the algorithms run. A graded
order has to compute the two degrees, and it fails when one of them does not fit a word; apart
from that the two agree.

Only the variables that both monomials have are looked at; callers compare monomials of one
arity.
-/

namespace PolyIdeal.TermOrder

/-- The first difference decides, and the larger exponent wins. -/
def cmpLex : List UInt32 → List UInt32 → Ordering
  | x :: xs, y :: ys => (Ord.compare x y).then (cmpLex xs ys)
  | _, _ => .eq

/-- The last difference decides, and the smaller exponent wins. -/
def cmpReverse : List UInt32 → List UInt32 → Ordering
  | x :: xs, y :: ys => (cmpReverse xs ys).then (Ord.compare y x)
  | _, _ => .eq

/-- The rank of `a` against `b` on degrees of any size. -/
def cmp (o : TermOrder) (a b : Monomial) : Ordering :=
  match o with
  | lex => cmpLex a.exponents b.exponents
  | grlex => (Ord.compare a.degree b.degree).then (cmpLex a.exponents b.exponents)
  | grevlex => (Ord.compare a.degree b.degree).then (cmpReverse a.exponents b.exponents)

/-- Whether the order can rank `m`: a graded one needs its degree to fit a word. -/
def canRank (o : TermOrder) (m : Monomial) : Bool := !o.isGraded || m.isMeasurable

/-- The rank of `a` against `b`, provided the order can rank both. -/
def compare (o : TermOrder) (a b : Monomial) : Except Fault Ordering :=
  if o.canRank a && o.canRank b then .ok (o.cmp a b) else .error .exponentOverflow

/-- On monomials it can rank the comparison is the order. -/
theorem compare_eq_ok {o : TermOrder} {a b : Monomial} (ha : o.canRank a = true)
    (hb : o.canRank b = true) : o.compare a b = .ok (o.cmp a b) := by
  simp [compare, ha, hb]

/-- A comparison succeeds on monomials that can be ranked, and tells the order. -/
theorem compare_eq_ok_iff {o : TermOrder} {a b : Monomial} {r : Ordering} :
    o.compare a b = .ok r ↔ (o.canRank a = true ∧ o.canRank b = true) ∧ o.cmp a b = r := by
  unfold compare
  rw [← Bool.and_eq_true]
  split
  next h => simp [h]
  next h => simp [h]

theorem cmp_eq_of_compare {o : TermOrder} {a b : Monomial} {r : Ordering}
    (h : o.compare a b = .ok r) : o.cmp a b = r :=
  (compare_eq_ok_iff.mp h).2

end PolyIdeal.TermOrder
