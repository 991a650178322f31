import MiniPascal.Decimal.Basic

/-!
The shortest decimal that reads back as a given double: of all decimals that round to it, one with
the fewest digits, and of those the nearest.
-/

namespace MiniPascal.Decimal

/-- A positive double `mantissa * 2 ^ exponent`, as its bits hold it. -/
structure Binary where
  mantissa : Nat
  exponent : Int
  deriving DecidableEq, Repr

/-- The leading bit of a mantissa of full length, which is not stored: there are 52 below it. -/
def Binary.hidden : Nat := 0x10000000000000

/-- The magnitude in the bits of a finite double. -/
def Binary.ofBits (bits : UInt64) : Binary :=
  let fraction : Nat := bits.toNat % Binary.hidden
  let biased : Nat := bits.toNat / Binary.hidden % 2048
  if biased = 0 then ⟨fraction, -1074⟩ else ⟨fraction + Binary.hidden, (biased : Int) - 1075⟩

/-- Quarter steps from the value down to the middle between it and the double below. That double
lies half as far away when the value is a power of two. -/
def Binary.stepDown (b : Binary) : Nat :=
  if b.mantissa = Binary.hidden ∧ -1074 < b.exponent then 1 else 2

/-- The decimal grid `10 ^ k` in quarter steps of `b`, as a fraction: `n` quarter steps are
`n * num / den` grid steps. -/
structure Grid where
  num : Nat
  den : Nat

def Binary.grid (b : Binary) (k : Int) : Grid where
  num := Nat.pow 2 (b.exponent - 2).toNat * Nat.pow 10 (-k).toNat
  den := Nat.pow 2 (2 - b.exponent).toNat * Nat.pow 10 k.toNat

/-- Whether `d * 10 ^ k` rounds to `b`. The two ends of the interval do when the mantissa is even. -/
def Binary.holds (b : Binary) (k : Int) (d : Nat) : Bool :=
  let g := b.grid k
  let low := (4 * b.mantissa - b.stepDown) * g.num
  let high := (4 * b.mantissa + 2) * g.num
  if b.mantissa % 2 = 0 then low ≤ d * g.den && d * g.den ≤ high
  else low < d * g.den && d * g.den < high

/-- The exponent of the leading decimal digit of `b`. The estimate from the binary logarithm is
right or one too small. -/
def Binary.leading (b : Binary) : Int :=
  let estimate := ((b.mantissa.log2 : Int) + b.exponent) * 30103 / 100000
  let g := b.grid (estimate + 1)
  if g.den ≤ 4 * b.mantissa * g.num then estimate + 1 else estimate

/-- The point of the grid `10 ^ k` that stands for `b`, if one of the two around it does. Of two the
nearer one is taken, and the upper one when both are equally near. -/
def Binary.onGrid? (b : Binary) (k : Int) : Option Nat :=
  let g := b.grid k
  let value := 4 * b.mantissa * g.num
  let down := value / g.den
  match b.holds k down, b.holds k (down + 1) with
  | true, true => if 2 * (value % g.den) < g.den then some down else some (down + 1)
  | true, false => some down
  | false, true => some (down + 1)
  | false, false => none

/-- The first of the grids from coarse to fine that has a point for `b`. -/
def Binary.firstOnGrid (b : Binary) (leading : Int) : Nat → Decimal
  | 0 => ⟨0, 0⟩
  | fuel + 1 =>
    let k := leading - (17 - (fuel + 1) : Int)
    match b.onGrid? k with
    | some d => ⟨d, k⟩
    | none => b.firstOnGrid leading fuel

/-- The same number without zeros at the end of its digits. -/
def trim (d : Decimal) : Nat → Decimal
  | 0 => d
  | fuel + 1 =>
    if d.digits % 10 = 0 ∧ d.digits ≠ 0 then trim ⟨d.digits / 10, d.exponent + 1⟩ fuel else d

/-- The shortest decimal for a positive double. Seventeen digits are always enough. -/
def Binary.shortest (b : Binary) : Decimal :=
  (b.firstOnGrid b.leading 17).trim 17

end MiniPascal.Decimal
