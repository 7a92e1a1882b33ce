/-!
# Shortest decimals

A binary floating-point number stands for all reals that round to it. Among the decimals in that
interval those with the fewest digits are the shortest ways to write the number so that it reads
back, and of those the nearest to the number is chosen.

A positive number is given as `m * 2 ^ q`. All comparisons are between natural numbers: value,
interval and decimal grid are brought to one common denominator first. On a grid of width
`10 ^ e` only the two neighbours of the value have to be tried, since the interval contains the
value: if it contains any point of the grid, it contains one of these two.
-/

namespace PolyIdeal.Decimal

/-- Two to the power `n`. -/
def twoTo (n : Nat) : Nat := Nat.pow 2 n

/-- Ten to the power `n`. -/
def tenTo (n : Nat) : Nat := Nat.pow 10 n

/-- `digits * 10 ^ exponent`. -/
structure Scaled where
  digits : Nat
  exponent : Int
deriving DecidableEq

/-- A positive binary number `mantissa * 2 ^ exponent`, with the widths of the gaps to its
neighbours: the one below is half as wide when `narrowBelow` is set. -/
structure Binary where
  mantissa : Nat
  exponent : Int
  narrowBelow : Bool

/-- A positive value with the interval that rounds to it, as numerators over one denominator. -/
structure Target where
  value : Nat
  lower : Nat
  upper : Nat
  denominator : Nat
  /-- Whether the ends belong to the interval. -/
  closed : Bool

namespace Binary

/-- The interval of the reals nearest to `b`. Ties go to even mantissas, so the ends belong to an
even one. The unit of the numerators is a quarter of the spacing. -/
def target (b : Binary) : Target :=
  let scale := twoTo b.exponent.toNat
  { value := 4 * b.mantissa * scale
    lower := (4 * b.mantissa - if b.narrowBelow then 1 else 2) * scale
    upper := (4 * b.mantissa + 2) * scale
    denominator := 4 * twoTo (-b.exponent).toNat
    closed := b.mantissa % 2 == 0 }

end Binary

namespace Target

/-- Whether `d * step / unit` lies in the interval, with `step` and `unit` a common scaling. -/
def holds (t : Target) (step unit d : Nat) : Bool :=
  let x := d * step
  if t.closed then t.lower * unit ≤ x && x ≤ t.upper * unit
  else t.lower * unit < x && x < t.upper * unit

/-- The better of the two neighbours of the value on the grid of width `10 ^ e`, if one lies in
the interval: the nearer of two, and the upper one when they are equally near. -/
def onGrid (t : Target) (e : Int) : Option Scaled :=
  -- `d * 10 ^ e` against `v / denominator`: compare `d * step` with `v * unit`
  let step := tenTo e.toNat * t.denominator
  let unit := tenTo (-e).toNat
  let value := t.value * unit
  let below := value / step
  let above := below + 1
  match t.holds step unit below, t.holds step unit above with
  | true, true =>
      if value - below * step < above * step - value then some ⟨below, e⟩ else some ⟨above, e⟩
  | true, false => some ⟨below, e⟩
  | false, true => some ⟨above, e⟩
  | false, false => none

/-- The exponent `k` with `10 ^ (k - 1) ≤ value < 10 ^ k`, searched downward from `k`. -/
def magnitude (t : Target) : (rounds : Nat) → (k : Int) → Int
  | 0, k => k
  | rounds + 1, k =>
      if tenTo (k - 1).toNat * t.denominator ≤ t.value * tenTo (1 - k).toNat then k
      else magnitude t rounds (k - 1)

/-- The first grid, from `digits` digits on, that has a point in the interval. -/
def firstGrid (t : Target) (k : Int) : (rounds digits : Nat) → Option Scaled
  | 0, _ => none
  | rounds + 1, digits =>
      match t.onGrid (k - digits) with
      | some s => some s
      | none => firstGrid t k rounds (digits + 1)

end Target

/-- A decimal without trailing zeros, in at most the given number of steps. -/
def trim : (steps : Nat) → Scaled → Scaled
  | 0, s => s
  | steps + 1, s =>
      if s.digits % 10 == 0 && s.digits != 0 then trim steps ⟨s.digits / 10, s.exponent + 1⟩
      else s

/-- The most digits that a number of up to 53 binary digits needs in order to read back. -/
def maxDigits : Nat := 17

/-- A decimal magnitude above that of every number of 64 bits. -/
def highestMagnitude : Nat := 310

/-- The number of magnitudes from the highest down to that of the smallest number of 64 bits. -/
def magnitudes : Nat := 640

/-- The shortest decimal that reads back as `b`, and of those the nearest to `b`. -/
def shortest (b : Binary) : Scaled :=
  let t := b.target
  let k := t.magnitude magnitudes highestMagnitude
  match t.firstGrid k maxDigits 1 with
  | some s => trim maxDigits s
  | none => ⟨0, 0⟩

end PolyIdeal.Decimal
