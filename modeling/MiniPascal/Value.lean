import MiniPascal.Tree.Basic

/-!
Scalar values and the operations on them that can be carried out before a program runs. An operation
answers only when its result is safe to write down: integers are checked, nothing is divided by
zero, and reals stay finite.
-/

namespace MiniPascal

inductive Value where
  | int (value : Int64)
  | real (value : Float)
  | char (value : Char)
  | bool (value : Bool)
  deriving DecidableEq, Repr

namespace Value

/-- The value of a scalar literal. -/
def ofExpr? : Expr → Option Value
  | .int _ v => some (int v)
  | .real _ v => some (real v)
  | .char _ v => some (char v)
  | .bool _ v => some (bool v)
  | _ => none

/-- The literal of a value. -/
def toExpr (p : Position) : Value → Expr
  | int v => .int p v
  | real v => .real p v
  | char v => .char p v
  | bool v => .bool p v

/-- A number as a real, an integer being rounded to the nearest one. -/
def toReal? : Value → Option Float
  | int v => some (Float.ofInt v.toInt)
  | real v => some v
  | _ => none

def finite? (x : Float) : Option Value := if x.isFinite then some (real x) else none

def compareReals? (a b : Float) : Option Ordering :=
  if a < b then some .lt else if a == b then some .eq else if b < a then some .gt else none

/-- The order of two values of one kind, or of two numbers. Nothing compares with NaN. -/
def compare? : Value → Value → Option Ordering
  | int a, int b => some (compare a.toInt b.toInt)
  | char a, char b => some (compare a.toNat b.toNat)
  | bool a, bool b => some (compare a.toNat b.toNat)
  | a, b => do compareReals? (← a.toReal?) (← b.toReal?)

/-- Whether an order satisfies a comparison. -/
def holds (op : BinaryOp) (o : Ordering) : Bool :=
  match op with
  | .equal => o.isEq
  | .notEqual => o.isNe
  | .less => o.isLT
  | .lessEqual => o.isLE
  | .greater => o.isGT
  | .greaterEqual => o.isGE
  | _ => false

/-- Arithmetic stays among the integers when both operands are integers. -/
def arithmetic? (onInts : Int64 → Int64 → Option Int64) (onReals : Float → Float → Float) :
    Value → Value → Option Value
  | int a, int b => int <$> onInts a b
  | a, b => do finite? (onReals (← a.toReal?) (← b.toReal?))

def divide? (a b : Value) : Option Value := do
  let x ← a.toReal?
  let y ← b.toReal?
  if y == 0 then none else finite? (x / y)

def binary? (op : BinaryOp) (a b : Value) : Option Value :=
  match op with
  | .add => arithmetic? Integer.add? (· + ·) a b
  | .sub => arithmetic? Integer.sub? (· - ·) a b
  | .mul => arithmetic? Integer.mul? (· * ·) a b
  | .divide => divide? a b
  | .div =>
    match a, b with
    | int x, int y => int <$> Integer.div? x y
    | _, _ => none
  | .mod =>
    match a, b with
    | int x, int y => int <$> Integer.mod? x y
    | _, _ => none
  | .and =>
    match a, b with
    | bool x, bool y => some (bool (x && y))
    | _, _ => none
  | .or =>
    match a, b with
    | bool x, bool y => some (bool (x || y))
    | _, _ => none
  | .equal | .notEqual | .less | .lessEqual | .greater | .greaterEqual =>
    (fun o => bool (holds op o)) <$> compare? a b

def unary? : UnaryOp → Value → Option Value
  | .plus, int v => some (int v)
  | .plus, real v => some (real v)
  | .minus, int v => int <$> Integer.neg? v
  | .minus, real v => some (real (-v))
  | .not, bool v => some (bool !v)
  | _, _ => none

end Value

end MiniPascal
