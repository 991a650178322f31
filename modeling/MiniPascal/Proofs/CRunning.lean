import MiniPascal.C.Tree
import MiniPascal.Proofs.Running

/-!
# The value of a C expression

The rules of C, as far as such programs need them. An `int` is taken to be a word of 64 bits, and
what C leaves undefined is a failure.
-/

namespace MiniPascal.C

open Run (Failure Outcome)

inductive Value where
  | int (value : Int64)
  | double (value : Float)
  | char (value : Char)
  | string (text : String)
  deriving DecidableEq, Repr

namespace Value

def ofBool (b : Bool) : Value := .int (if b then 1 else 0)

def promoted : Value → Value
  | char c => int (Int64.ofInt c.toNat)
  | v => v

def toDouble? (v : Value) : Option Float :=
  match v.promoted with
  | int v => some (Float.ofInt v.toInt)
  | double x => some x
  | _ => none

def truth (v : Value) : Outcome Bool :=
  match v.promoted with
  | int v => .ok (v != 0)
  | double x => .ok (x != 0)
  | _ => .error .mistyped

/-- Conversion to a type. One that would lose something has no meaning here. -/
def convert : Ty → Value → Outcome Value
  | .int, v =>
    match v.promoted with
    | int v => .ok (int v)
    | _ => .error .mistyped
  | .double, v =>
    match v.toDouble? with
    | some x => .ok (double x)
    | none => .error .mistyped
  | .char, char c => .ok (char c)
  | .string, string s => .ok (string s)
  | _, _ => .error .mistyped

def word : Option Int64 → Outcome Value
  | some v => .ok (int v)
  | none => .error .overflow

/-- An operation after the usual conversions: on integers, or on `double`. -/
def usual (onInts : Int64 → Int64 → Outcome Value) (onDoubles : Float → Float → Outcome Value)
    (a b : Value) : Outcome Value :=
  match a.promoted, b.promoted with
  | int x, int y => onInts x y
  | _, _ =>
    match a.toDouble?, b.toDouble? with
    | some x, some y => onDoubles x y
    | _, _ => .error .mistyped

/-- Division by zero of integers is undefined. -/
def quotient (onInts : Int64 → Int64 → Option Int64) (a b : Int64) : Outcome Value :=
  if b = 0 then .error .divisionByZero else word (onInts a b)

end Value

def BinaryOp.holds : BinaryOp → Ordering → Bool
  | equal, o => o == .eq
  | notEqual, o => o != .eq
  | less, o => o == .lt
  | lessEqual, o => o != .gt
  | greater, o => o == .gt
  | greaterEqual, o => o != .lt
  | _, _ => false

/-- Two `double` that have no order, one of them being NaN, are different and nothing else. -/
def BinaryOp.doublesHold (op : BinaryOp) (a b : Float) : Bool :=
  match MiniPascal.Value.compareReals? a b with
  | some o => op.holds o
  | none => op == notEqual

def BinaryOp.decided (op : BinaryOp) (a : Value) : Outcome (Option Value) :=
  match op with
  | and => do return if ← a.truth then none else some (.ofBool false)
  | or => do return if ← a.truth then some (.ofBool true) else none
  | _ => .ok none

def BinaryOp.apply (op : BinaryOp) (a b : Value) : Outcome Value :=
  match op with
  | add => a.usual (fun x y => Value.word (Integer.add? x y)) (fun x y => .ok (.double (x + y))) b
  | sub => a.usual (fun x y => Value.word (Integer.sub? x y)) (fun x y => .ok (.double (x - y))) b
  | mul => a.usual (fun x y => Value.word (Integer.mul? x y)) (fun x y => .ok (.double (x * y))) b
  | div => a.usual (Value.quotient Integer.div?) (fun x y => .ok (.double (x / y))) b
  | mod => a.usual (Value.quotient Integer.mod?) (fun _ _ => .error .mistyped) b
  | and => do return .ofBool ((← a.truth) && (← b.truth))
  | or => do return .ofBool ((← a.truth) || (← b.truth))
  | equal | notEqual | less | lessEqual | greater | greaterEqual =>
    a.usual (fun x y => .ok (.ofBool (op.holds (compare x.toInt y.toInt))))
      (fun x y => .ok (.ofBool (op.doublesHold x y))) b

/-- The value of a binary operation: the right operand counts only if the left one leaves it open. -/
def BinaryOp.combine (op : BinaryOp) (a : Value) (b : Outcome Value) : Outcome Value := do
  match ← op.decided a with
  | some v => .ok v
  | none => do op.apply a (← b)

def UnaryOp.apply (op : UnaryOp) (a : Value) : Outcome Value :=
  match op with
  | not => do return .ofBool !(← a.truth)
  | minus =>
    match a.promoted with
    | .int v => Value.word (Integer.neg? v)
    | .double x => .ok (.double (-x))
    | _ => .error .mistyped

/-- An object in memory, or a pointer to one. It holds its elements by their offsets; a scalar has
no dimensions and one element. -/
structure Object where
  isPointer : Bool
  dims : List Int
  contents : List Int → Value

structure Place where
  var : Var
  offsets : List Int
  deriving DecidableEq, Repr

inductive Actual where
  | value (value : Value)
  | address (place : Place)
  deriving DecidableEq, Repr

/-- A function: what it takes, with whether that is a pointer, and what it returns. -/
structure Function where
  prototype : List (Ty × Bool)
  result : List Actual → Outcome Value

/-- The objects by their names, apart from one another those that hold results, and the functions. -/
structure Store where
  object : String → Bool → Option Object
  function : String → Option Function

def Store.objectOf (τ : Store) (v : Var) : Outcome Object :=
  match τ.object v.name v.isResult with
  | some o => if o.isPointer = v.byReference then .ok o else .error .mistyped
  | none => .error .mistyped

def within : List Int → List Int → Bool
  | n :: ns, i :: is => 0 ≤ i && i < n && within ns is
  | _, _ => true

def Store.located (τ : Store) (v : Var) (offsets : List Int) : Outcome Place := do
  let o ← τ.objectOf v
  if o.dims.length < offsets.length then .error .mistyped
  else if within o.dims offsets then .ok ⟨v, offsets⟩
  else .error .range

def Store.load (τ : Store) (p : Place) : Outcome Value := do
  let o ← τ.objectOf p.var
  if p.offsets.length = o.dims.length then .ok (o.contents p.offsets) else .error .mistyped

def offset (lower : Int64) (v : Value) : Outcome Int :=
  match v.promoted with
  | .int i => .ok (i.toInt - lower.toInt)
  | _ => .error .mistyped

namespace Expr

section

variable (τ : Store)

mutual

def eval : Expr → Outcome Value
  | int v => .ok (.int v)
  | real v => .ok (.double v)
  | char v => .ok (.char v)
  | string v => .ok (.string v)
  | var v => do τ.load (← τ.located v [])
  | element v subscripts => do τ.load (← τ.located v (← evalOffsets subscripts))
  | call name arguments =>
    match τ.function name with
    | some f => do f.result (← evalActuals arguments f.prototype)
    | none => .error .mistyped
  | binary op left right => do op.combine (← eval left) (eval right)
  | unary op operand => do op.apply (← eval operand)
  | cast type operand => do (← eval operand).convert type

/-- The place whose address an expression has. -/
def evalAddress : Expr → Outcome Place
  | var v => τ.located v []
  | element v subscripts => do τ.located v (← evalOffsets subscripts)
  | _ => .error .mistyped

def evalOffsets : List (Expr × Int64) → Outcome (List Int)
  | [] => .ok []
  | (e, lower) :: rest => do
    let i ← offset lower (← eval e)
    let is ← evalOffsets rest
    return i :: is

/-- What arguments pass. Whether an address is passed has to agree with the prototype. -/
def evalActuals : List (Expr × Bool) → List (Ty × Bool) → Outcome (List Actual)
  | [], [] => .ok []
  | (e, byReference) :: rest, (type, isPointer) :: types => do
    if byReference ≠ isPointer then .error .mistyped
    let a ←
      if byReference then Actual.address <$> evalAddress e
      else Actual.value <$> ((← eval e).convert type)
    let as ← evalActuals rest types
    return a :: as
  | _, _ => .error .mistyped

end

end

end Expr

end MiniPascal.C
