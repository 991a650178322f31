/-!
Decimal numbers `digits * 10 ^ exponent` and the double nearest to one.
-/

namespace MiniPascal

structure Decimal where
  digits : Nat
  exponent : Int
  deriving DecidableEq, Repr

namespace Decimal

/-- The number that a row of decimal digits spells. -/
def ofDigits (cs : List Char) : Nat :=
  cs.foldl (fun n c => 10 * n + (c.toNat - '0'.toNat)) 0

def infinity : Float := Float.ofBits 0x7FF0000000000000

/-- The double nearest to `d`, a tie going to the even one. From `10 ^ 310` on that is infinity and
below `10 ^ (-400)` it is zero, so the power of ten that rounding works with stays small whatever
the exponent is. -/
def toFloat (d : Decimal) : Float :=
  if d.digits = 0 then 0
  else if 310 ≤ d.exponent then infinity
  else if d.exponent + d.digits.log2 + 1 < -400 then 0
  else if 0 ≤ d.exponent then Float.ofScientific d.digits false d.exponent.toNat
  else Float.ofScientific d.digits true (-d.exponent).toNat

end Decimal

end MiniPascal
