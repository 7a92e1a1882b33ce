import PolyIdeal.Decimal.Shortest

/-!
# Positional notation

Coefficients are written without an exponent, however large or small they are: zeros are added
on either side until the point can be placed. A whole number has no point, and a number below one
has a single zero in front of it.
-/

namespace PolyIdeal.Decimal

/-- A run of zeros. -/
def zeros (n : Nat) : String := String.ofList (List.replicate n '0')

namespace Scaled

/-- The decimal digits of the number, without sign or point. -/
def digitText (s : Scaled) : String := toString s.digits

/-- The number in positional notation. -/
def positional (s : Scaled) : String :=
  let ds := s.digitText.toList
  match s.exponent with
  | .ofNat e => s.digitText ++ zeros e
  | .negSucc e =>
      let places := e + 1
      if places < ds.length then
        String.ofList (ds.take (ds.length - places)) ++ "." ++
          String.ofList (ds.drop (ds.length - places))
      else
        "0." ++ zeros (places - ds.length) ++ s.digitText

end Scaled

end PolyIdeal.Decimal
