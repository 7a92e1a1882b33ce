import PolyIdeal.Decimal.Positional

/-!
# Text of binary floating-point numbers

A bit pattern of an interchange format is read as `mantissa * 2 ^ exponent`, and the shortest
decimal that reads back is written in positional notation. The sign bit is left to the caller.
-/

namespace PolyIdeal.Decimal

/-- A binary interchange format, by the widths of its two fields. -/
structure BinaryFormat where
  fractionBits : Nat
  exponentBits : Nat
deriving DecidableEq

namespace BinaryFormat

/-- The format of 64 bits. -/
def double : BinaryFormat := ⟨52, 11⟩

/-- The format of 32 bits. -/
def single : BinaryFormat := ⟨23, 8⟩

/-- The exponent field that marks infinities and values that are not numbers. -/
def specialExponent (f : BinaryFormat) : Nat := twoTo f.exponentBits - 1

/-- The exponent of the last place of the smallest numbers. -/
def minExponent (f : BinaryFormat) : Int :=
  2 - (twoTo (f.exponentBits - 1) + f.fractionBits : Nat)

/-- The positive number with these two fields. The numbers without an implicit leading bit have
the exponent field zero; below a power of two the spacing halves, except at the smallest number
that has the leading bit. -/
def decode (f : BinaryFormat) (exponent fraction : Nat) : Binary :=
  if exponent = 0 then ⟨fraction, f.minExponent, false⟩
  else
    ⟨twoTo f.fractionBits + fraction, f.minExponent + exponent - 1,
      fraction == 0 && exponent != 1⟩

/-- The text of the magnitude that a bit pattern stands for. -/
def magnitudeText (f : BinaryFormat) (bits : Nat) : String :=
  let fraction := bits % twoTo f.fractionBits
  let exponent := bits / twoTo f.fractionBits % twoTo f.exponentBits
  if exponent = f.specialExponent then
    if fraction = 0 then "inf" else "NaN"
  else if exponent = 0 && fraction = 0 then "0"
  else (shortest (f.decode exponent fraction)).positional

end BinaryFormat

end PolyIdeal.Decimal
