import PolyIdeal.Fault

/-!
# Critical pairs

Two generators are named by their positions. A `Pair` is any two positions, as they stand; `Pair.of`
takes two different ones and puts the smaller one first. A critical pair is an unordered pair of
distinct generators. It is stored with the smaller position first, which the type records, so that
two critical pairs are equal exactly when they name the same two generators.
-/

namespace PolyIdeal

/-- Two positions as they stand: they may be equal, and either may be the larger one. -/
structure Pair where
  first : Nat
  second : Nat
deriving DecidableEq

namespace Pair

/-- The pair of two different positions, given in either order, with the smaller one first. -/
def of (a b : Nat) : Except Fault Pair :=
  if a = b then .error .equalPair else .ok ⟨min a b, max a b⟩

/-- Pairs are ranked by the second position, then by the first one. -/
def cmp : Pair → Pair → Ordering := compareLex (compareOn second) (compareOn first)

instance : Ord Pair := ⟨cmp⟩

instance : Std.TransOrd Pair := inferInstanceAs (Std.TransCmp (compareLex _ _))

/-- Only a pair compares equal to itself. -/
theorem eq_of_cmp_eq {p q : Pair} (h : cmp p q = .eq) : p = q := by
  obtain ⟨h₁, h₂⟩ := compareLex_eq_eq.mp h
  have hsecond : p.second = q.second := Nat.compare_eq_eq.mp h₁
  have hfirst : p.first = q.first := Nat.compare_eq_eq.mp h₂
  cases p
  cases q
  simp only at hsecond hfirst
  subst hsecond hfirst
  rfl

instance : Std.LawfulEqOrd Pair where
  eq_of_compare := eq_of_cmp_eq

end Pair

/-- Two distinct positions, the smaller one first. -/
structure CriticalPair where
  low : Nat
  high : Nat
  low_lt_high : low < high
deriving DecidableEq

namespace CriticalPair

/-- The pair of two positions, given in either order. -/
def of (a b : Nat) : Except Fault CriticalPair :=
  if h : a < b then .ok ⟨a, b, h⟩
  else if h : b < a then .ok ⟨b, a, h⟩
  else .error .equalPair

/-- The two positions of a critical pair. -/
def toPair (p : CriticalPair) : Pair := ⟨p.low, p.high⟩

theorem eq_of_toPair_eq {p q : CriticalPair} (h : p.toPair = q.toPair) : p = q := by
  cases p
  cases q
  cases h
  rfl

/-- Critical pairs are ranked by the larger position, then by the smaller one. -/
def cmp : CriticalPair → CriticalPair → Ordering := compareOn toPair

instance : Ord CriticalPair := ⟨cmp⟩

instance : Std.TransOrd CriticalPair := inferInstanceAs (Std.TransCmp (compareOn toPair))

instance : Std.LawfulEqOrd CriticalPair where
  eq_of_compare h := eq_of_toPair_eq (Pair.eq_of_cmp_eq h)

/-- The pairs that generator number `n` forms with the ones before it. -/
def withEarlier (n : Nat) : List CriticalPair :=
  List.ofFn fun k : Fin n => ⟨k, n, k.isLt⟩

/-- All pairs of `n` generators, by the larger position, then by the smaller one. -/
def all (n : Nat) : List CriticalPair := (List.range n).flatMap withEarlier

end CriticalPair

/-- Every entry of a list with every later one, in order. -/
def laterPairs {α : Type} : List α → List (α × α)
  | [] => []
  | x :: xs => xs.map (x, ·) ++ laterPairs xs

end PolyIdeal
