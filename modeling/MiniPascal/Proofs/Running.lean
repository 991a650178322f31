import MiniPascal.Typing
import MiniPascal.Value

/-!
# The value of an expression while a program runs

Integers are words whose operations fail where the result is no word, and reals are machine reals
whose operations never fail. A call is a function of what is passed to it. Statements are not
covered.
-/

namespace MiniPascal.Run

open Scope

inductive Failure where
  | overflow | divisionByZero
  /-- An index outside the bounds. -/
  | range
  /-- Something was applied to what it is not made for. -/
  | mistyped
  deriving DecidableEq, Repr

abbrev Outcome := Except Failure

inductive Datum where
  | scalar (value : Value)
  | string (text : String)
  deriving DecidableEq, Repr

def Datum.base : Datum → Ty.Base
  | scalar (.int _) => .int
  | scalar (.real _) => .real
  | scalar (.char _) => .char
  | scalar (.bool _) => .bool
  | string _ => .string

def word : Option Int64 → Outcome Value
  | some v => .ok (.int v)
  | none => .error .overflow

/-- Whether a comparison of reals holds. Nothing compares with NaN, so everything differs from it. -/
def realHolds (op : BinaryOp) (a b : Float) : Bool :=
  match Value.compareReals? a b with
  | some o => Value.holds op o
  | none => op == .notEqual

def arithmetic (onInts : Int64 → Int64 → Option Int64) (onReals : Float → Float → Float) :
    Value → Value → Outcome Value
  | .int a, .int b => word (onInts a b)
  | a, b =>
    match a.toReal?, b.toReal? with
    | some x, some y => .ok (.real (onReals x y))
    | _, _ => .error .mistyped

def quotient (onInts : Int64 → Int64 → Option Int64) : Value → Value → Outcome Value
  | .int a, .int b => if b = 0 then .error .divisionByZero else word (onInts a b)
  | _, _ => .error .mistyped

def comparison (op : BinaryOp) : Value → Value → Outcome Value
  | .int a, .int b => .ok (.bool (Value.holds op (compare a.toInt b.toInt)))
  | .char a, .char b => .ok (.bool (Value.holds op (compare a.toNat b.toNat)))
  | .bool a, .bool b => .ok (.bool (Value.holds op (compare a.toNat b.toNat)))
  | a, b =>
    match a.toReal?, b.toReal? with
    | some x, some y => .ok (.bool (realHolds op x y))
    | _, _ => .error .mistyped

def logical (op : Bool → Bool → Bool) : Value → Value → Outcome Value
  | .bool a, .bool b => .ok (.bool (op a b))
  | _, _ => .error .mistyped

def realQuotient (a b : Value) : Outcome Value :=
  match a.toReal?, b.toReal? with
  | some x, some y => .ok (.real (x / y))
  | _, _ => .error .mistyped

def binaryValue (op : BinaryOp) (a b : Value) : Outcome Value :=
  match op with
  | .add => arithmetic Integer.add? (· + ·) a b
  | .sub => arithmetic Integer.sub? (· - ·) a b
  | .mul => arithmetic Integer.mul? (· * ·) a b
  | .divide => realQuotient a b
  | .div => quotient Integer.div? a b
  | .mod => quotient Integer.mod? a b
  | .and => logical (· && ·) a b
  | .or => logical (· || ·) a b
  | .equal | .notEqual | .less | .lessEqual | .greater | .greaterEqual => comparison op a b

def unaryValue : UnaryOp → Value → Outcome Value
  | .plus, .int v => .ok (.int v)
  | .plus, .real v => .ok (.real v)
  | .minus, .int v => word (Integer.neg? v)
  | .minus, .real v => .ok (.real (-v))
  | .not, .bool v => .ok (.bool !v)
  | _, _ => .error .mistyped

def binary (op : BinaryOp) : Datum → Datum → Outcome Datum
  | .scalar a, .scalar b => Datum.scalar <$> binaryValue op a b
  | _, _ => .error .mistyped

def unary (op : UnaryOp) : Datum → Outcome Datum
  | .scalar a => Datum.scalar <$> unaryValue op a
  | .string _ => .error .mistyped

/-- What a left operand alone decides. -/
def decided : BinaryOp → Datum → Option Datum
  | .and, .scalar (.bool false) => some (.scalar (.bool false))
  | .or, .scalar (.bool true) => some (.scalar (.bool true))
  | _, _ => none

/-- The value of a binary operation: the right operand counts only if the left one leaves it open. -/
def combine (op : BinaryOp) (a : Datum) (b : Outcome Datum) : Outcome Datum :=
  match decided op a with
  | some d => .ok d
  | none => do binary op a (← b)

/-- What is stored where a type is declared: an integer becomes a real there. -/
def stored (target : Ty.Base) : Datum → Datum
  | .scalar (.int v) =>
    if target = .real then .scalar (.real (Float.ofInt v.toInt)) else .scalar (.int v)
  | d => d

/-- A variable or one of its elements. -/
structure Place where
  item : Item
  indices : List Int
  deriving DecidableEq, Repr

def within : List Period → List Int → Bool
  | p :: ps, i :: is => p.lower.toInt ≤ i && i ≤ p.upper.toInt && within ps is
  | _, _ => true

/-- The place behind indices, of which there are no more than dimensions. -/
def located (item : Item) (indices : List Int) : Outcome Place :=
  if item.type.dims.length < indices.length then .error .mistyped
  else if within item.type.dims indices then .ok ⟨item, indices⟩
  else .error .range

inductive Actual where
  | value (datum : Datum)
  | place (place : Place)
  deriving DecidableEq, Repr

/-- What variables and constants hold, element by element, and what calls return. -/
structure Store where
  contents : Item → List Int → Datum
  result : Item → List Actual → Outcome Datum

def Store.load (σ : Store) (p : Place) : Outcome Datum :=
  if p.indices.length = p.item.type.dims.length then .ok (σ.contents p.item p.indices)
  else .error .mistyped

def index : Datum → Outcome Int
  | .scalar (.int v) => .ok v.toInt
  | _ => .error .mistyped

/-- What a bare name refers to. -/
def named (t : Table) (block : Nat) (name : String) : Outcome Item :=
  match t.resolve block name with
  | .ok item => .ok item
  | .error _ => .error .mistyped

def namedPlace (t : Table) (block : Nat) (name : String) : Outcome Place := do
  let item ← named t block name
  if item.kind = .routine then .error .mistyped else located item []

def elementPlace (t : Table) (block : Nat) (name : String) (indices : Outcome (List Int)) :
    Outcome Place :=
  match t.findPlace? block name with
  | some item => do located item (← indices)
  | none => .error .mistyped

/-- The routine that a call means, by the types of its arguments. -/
def called (t : Table) (block : Nat) (name : String) (arguments : List Expr) : Outcome Item :=
  if (Builtin.visible? t block name).isSome then .error .mistyped
  else
    match t.findRoutine block name (Typing.argumentsOf t block arguments).value with
    | .ok item => .ok item
    | .error _ => .error .mistyped

section

variable (t : Table) (block : Nat) (σ : Store)

mutual

def eval : Expr → Outcome Datum
  | .int _ v => .ok (.scalar (.int v))
  | .real _ v => .ok (.scalar (.real v))
  | .char _ v => .ok (.scalar (.char v))
  | .bool _ v => .ok (.scalar (.bool v))
  | .string _ v => .ok (.string v)
  | .name _ name => do
    let item ← named t block name
    if item.kind = .routine then σ.result item [] else σ.load (← located item [])
  | .element _ name indices => do σ.load (← elementPlace t block name (evalIndices indices))
  | .call _ name arguments => do
    let item ← called t block name arguments
    σ.result item (← evalActuals arguments item.params)
  | .binary _ op left right => do combine op (← eval left) (eval right)
  | .unary _ op operand => do unary op (← eval operand)

def evalPlace : Expr → Outcome Place
  | .name _ name => namedPlace t block name
  | .element _ name indices => elementPlace t block name (evalIndices indices)
  | _ => .error .mistyped

def evalIndices : List Expr → Outcome (List Int)
  | [] => .ok []
  | e :: es => do
    let i ← index (← eval e)
    let is ← evalIndices es
    return i :: is

def evalActuals : List Expr → List Param → Outcome (List Actual)
  | [], [] => .ok []
  | e :: es, p :: ps => do
    let a ←
      if p.byReference then Actual.place <$> evalPlace e
      else (fun d => Actual.value (stored p.type.base d)) <$> eval e
    let as ← evalActuals es ps
    return a :: as
  | _, _ => .error .mistyped

end

end

end MiniPascal.Run
