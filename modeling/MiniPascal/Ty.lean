import MiniPascal.Tree.Basic

/-!
Types of expressions, the common type of two operands, and what may be assigned to what.
-/

namespace MiniPascal

namespace Ty

inductive Base where
  | int | real | bool | char | string
  /-- What a procedure returns. -/
  | void
  /-- The type of what has none, after a message about it. -/
  | error
  deriving DecidableEq, Repr

def Base.text : Base → String
  | int => "integer"
  | real => "real"
  | bool => "boolean"
  | char => "char"
  | string => "string"
  | void => "void"
  | error => "<error>"

end Ty

/-- A scalar type, or with dimensions the type of an array of it. -/
structure Ty where
  base : Ty.Base
  dims : List Period := []
  deriving DecidableEq, Repr

namespace Ty

def int : Ty := ⟨.int, []⟩
def real : Ty := ⟨.real, []⟩
def bool : Ty := ⟨.bool, []⟩
def char : Ty := ⟨.char, []⟩
def string : Ty := ⟨.string, []⟩
def void : Ty := ⟨.void, []⟩
def error : Ty := ⟨.error, []⟩

def Base.ofScalar : ScalarType → Base
  | .integer => .int
  | .real => .real
  | .boolean => .bool
  | .char => .char

def ofScalar (t : ScalarType) : Ty := ⟨.ofScalar t, []⟩

def isError (t : Ty) : Bool := t.base == .error

def isScalar (t : Ty) : Bool := t.dims.isEmpty

/-- Whether a type is the given scalar type. -/
def isA (t : Ty) (base : Base) : Bool := t.isScalar && t.base == base

def isNumeric (t : Ty) : Bool := t.isScalar && (t.base == .int || t.base == .real)

/-- The type that is left after `n` indices. -/
def indexed? (t : Ty) (n : Nat) : Option Ty :=
  if n ≤ t.dims.length then some { t with dims := t.dims.drop n } else none

def text (t : Ty) : String :=
  if t.dims.isEmpty then t.base.text
  else "array[" ++ ", ".intercalate (t.dims.map Period.text) ++ "] of " ++ t.base.text

/-- The common type of two operands: that of both, or `real` when one number is a real. Arrays and
`void` have none in common with anything. -/
def join (a b : Ty) : Ty :=
  if a.isScalar && b.isScalar then
    match a.base, b.base with
    | .error, _ | _, .error | .void, _ | _, .void => error
    | .int, .real | .real, .int => real
    | x, y => if x = y then ⟨x, []⟩ else error
  else error

/-- Whether a value of type `value` may be stored where `target` is declared. An integer may become
a real, and nothing else changes its type. -/
def assignable (target value : Ty) : Bool :=
  target.isScalar && !target.isError && target.base != .void && join target value == target

/-- The type of a binary operation on operands that have types. Strings cannot be compared. -/
def binary? (op : BinaryOp) (a b : Ty) : Option Ty :=
  let common := join a b
  match op with
  | .add | .sub | .mul => if common.isNumeric then some common else none
  | .divide => if common.isNumeric then some real else none
  | .div | .mod => if a.isA .int && b.isA .int then some int else none
  | .and | .or => if a.isA .bool && b.isA .bool then some bool else none
  | .equal | .notEqual | .less | .lessEqual | .greater | .greaterEqual =>
    if !common.isError && !common.isA .string then some bool else none

def unary? (op : UnaryOp) (a : Ty) : Option Ty :=
  match op with
  | .plus | .minus => if a.isNumeric then some a else none
  | .not => if a.isA .bool then some a else none

end Ty

end MiniPascal
