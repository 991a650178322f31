import MiniPascal.Problem

/-!
The type of an expression in a block. What has no type gets the error type together with a message,
and an operation on that type adds no message of its own.
-/

namespace MiniPascal

/-- The procedures for input and output that every program knows. They take any number of arguments,
and a declaration of the same name hides them. -/
inductive Builtin where
  | write | writeln | read | readln
  deriving DecidableEq, Repr

namespace Builtin

def text : Builtin → String
  | write => "write"
  | writeln => "writeln"
  | read => "read"
  | readln => "readln"

def ofName? (name : String) : Option Builtin :=
  [write, writeln, read, readln].find? fun b => b.text == name

def isOutput (b : Builtin) : Bool := b == write || b == writeln

def endsLine (b : Builtin) : Bool := b == writeln

/-- The built-in procedure that a name means in a block. -/
def visible? (t : Scope.Table) (block : Nat) (name : String) : Option Builtin :=
  if t.contains block name then none else ofName? name

end Builtin

namespace Typing

open Scope Checked

def binary (op : BinaryOp) (a b : Ty) (p : Position) : Checked Ty :=
  if a.isError || b.isError then pure .error
  else
    match Ty.binary? op a b with
    | some t => pure t
    | none => do
      complain (.binaryOperands op a b) p
      return .error

def unary (op : UnaryOp) (a : Ty) (p : Position) : Checked Ty :=
  if a.isError then pure .error
  else
    match Ty.unary? op a with
    | some t => pure t
    | none => do
      complain (.unaryOperand op a) p
      return .error

/-- Whether a type can be that of an index. -/
def index (t : Ty) (p : Position) : Checked Bool :=
  if t.isError then pure false
  else if t.isA .int then pure true
  else do
    complain (.indexType t) p
    return false

/-- The type of an element of `t` behind `count` indices, which are sound or not. -/
def element (t : Ty) (name : String) (count : Nat) (sound : Bool) (p : Position) : Checked Ty :=
  match t.indexed? count with
  | some result => pure (if sound then result else .error)
  | none => do
    complain (.indexCount name t.dims.length count) p
    return .error

/-- The type of something that has to be a variable or a constant, and is none. -/
def notPlace (t : Table) (block : Nat) (name : String) (p : Position) : Checked Ty := do
  complain (if t.contains block name then .notVariable name else .undeclared name) p
  return .error

/-- Whether an expression is a variable, so that a reference to it can be passed. -/
def isVariable (t : Table) (block : Nat) : Expr → Bool
  | .element _ name _ =>
    match t.findPlace? block name with
    | some item => item.isVariable
    | none => false
  | .name _ name =>
    match t.resolve block name with
    | .ok item => item.isVariable
    | .error _ => false
  | _ => false

/-- Whether an expression may be the value of a constant: a literal, a signed number or the name of
a constant. -/
def isConstant (t : Table) (block : Nat) : Expr → Bool
  | .unary _ .plus operand | .unary _ .minus operand =>
    match operand with
    | .int .. | .real .. => true
    | _ => false
  | .name _ name =>
    match t.resolve block name with
    | .ok item => item.kind == .const
    | .error _ => false
  | .string .. => true
  | e => e.isScalarLiteral

mutual

/-- The type of an expression in a block. -/
def typeOf (t : Table) (block : Nat) : Expr → Checked Ty
  | .int .. => pure .int
  | .real .. => pure .real
  | .char .. => pure .char
  | .bool .. => pure .bool
  | .string .. => pure .string
  | .name p name =>
    match t.resolve block name with
    | .ok item => pure item.type
    | .error e => do
      complain (.ofLookup name [] e) p
      return .error
  | .element p name indices =>
    match t.findPlace? block name with
    | some item => do
      let sound ← indicesSound t block indices
      element item.type name indices.length sound p
    | none => notPlace t block name p
  | .call p name arguments => do
    let args ← argumentsOf t block arguments
    if (Builtin.visible? t block name).isSome then return .void
    else if args.any fun a => a.type.isError then return .error
    else
      match t.findRoutine block name args with
      | .ok item => return item.type
      | .error e =>
        complain (.ofLookup name args e) p
        return .error
  | .binary p op left right => do
    let a ← typeOf t block left
    let b ← typeOf t block right
    binary op a b p
  | .unary p op operand => do
    let a ← typeOf t block operand
    unary op a p

/-- Whether all of some indices are integers. -/
def indicesSound (t : Table) (block : Nat) : List Expr → Checked Bool
  | [] => pure true
  | e :: es => do
    let type ← typeOf t block e
    let sound ← index type e.position
    let rest ← indicesSound t block es
    return sound && rest

/-- What the arguments of a call pass. -/
def argumentsOf (t : Table) (block : Nat) : List Expr → Checked (List Argument)
  | [] => pure []
  | e :: es => do
    let type ← typeOf t block e
    let rest ← argumentsOf t block es
    return ⟨type, isVariable t block e⟩ :: rest

end

end Typing

end MiniPascal
