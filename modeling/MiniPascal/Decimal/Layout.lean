import MiniPascal.Decimal.Shortest

/-!
The text of a real number. Numbers from `0.0001` up to below `10 ^ 16` are written out with at least
one digit after the point; all others have an exponent, without a sign of plus and without padding.
-/

namespace MiniPascal.Decimal

/-- The smallest and the first too large exponent of the leading digit that is written out. -/
def positional : Int × Int := (-4, 16)

def zeros (n : Nat) : String := String.ofList (List.replicate n '0')

/-- `digits` written out with the point after `point` of them, which may lie outside. -/
def writeOut (digits : List Char) (point : Int) : String :=
  if point ≤ 0 then "0." ++ zeros (-point).toNat ++ String.ofList digits
  else if digits.length ≤ point.toNat then
    String.ofList digits ++ zeros (point.toNat - digits.length) ++ ".0"
  else
    String.ofList (digits.take point.toNat) ++ "." ++ String.ofList (digits.drop point.toNat)

/-- `digits` with an exponent: one digit before the point, and no point for one digit alone. -/
def writeScaled (digits : List Char) (exponent : Int) : String :=
  let rest := digits.drop 1
  let point := if rest.isEmpty then "" else "."
  String.ofList (digits.take 1) ++ point ++ String.ofList rest ++ "e" ++ toString exponent

/-- The text of a positive decimal. -/
def text (d : Decimal) : String :=
  let digits := Nat.toDigits 10 d.digits
  let leading := d.exponent + digits.length - 1
  if positional.1 ≤ leading ∧ leading < positional.2 then writeOut digits (leading + 1)
  else writeScaled digits leading

/-- The text of a real: the shortest digits that read back as the same double. -/
def realText (x : Float) : String :=
  if x.isNaN then "NaN"
  else
    let sign := if x.toBits < 0x8000000000000000 then "" else "-"
    if x.isInf then sign ++ "inf"
    else
      let b := Binary.ofBits x.toBits
      if b.mantissa = 0 then sign ++ "0.0" else sign ++ b.shortest.text

end MiniPascal.Decimal
