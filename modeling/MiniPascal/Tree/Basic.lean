import MiniPascal.Integer
import MiniPascal.Position

/-!
Programs as trees. Every node keeps the place where it starts, which is all that later messages
need of the text.
-/

namespace MiniPascal

/-- The types that a declaration can name. -/
inductive ScalarType where
  | integer | real | boolean | char
  deriving DecidableEq, Repr

def ScalarType.text : ScalarType → String
  | integer => "integer"
  | real => "real"
  | boolean => "boolean"
  | char => "char"

/-- One dimension of an array, from `lower` to `upper`. -/
structure Period where
  lower : Int64
  upper : Int64
  deriving DecidableEq, Repr

/-- The number of elements along a dimension, when it is a word. -/
def Period.size? (p : Period) : Option Int64 := do
  Integer.add? (← Integer.sub? p.upper p.lower) 1

def Period.text (p : Period) : String :=
  Integer.text p.lower ++ ".." ++ Integer.text p.upper

inductive BinaryOp where
  | equal | notEqual | less | lessEqual | greater | greaterEqual
  | add | sub | or
  | mul | divide | div | mod | and
  deriving DecidableEq, Repr

namespace BinaryOp

/-- Every operator, from the loosest to the tightest. -/
def all : List BinaryOp :=
  [equal, notEqual, less, lessEqual, greater, greaterEqual, add, sub, or, mul, divide, div, mod, and]

def text : BinaryOp → String
  | equal => "=" | notEqual => "<>" | less => "<" | lessEqual => "<=" | greater => ">"
  | greaterEqual => ">=" | add => "+" | sub => "-" | or => "or" | mul => "*" | divide => "/"
  | div => "div" | mod => "mod" | and => "and"

def isComparison : BinaryOp → Bool
  | equal | notEqual | less | lessEqual | greater | greaterEqual => true
  | _ => false

/-- How tightly an operator binds. -/
def precedence : BinaryOp → Nat
  | equal | notEqual | less | lessEqual | greater | greaterEqual => 1
  | add | sub | or => 2
  | mul | divide | div | mod | and => 3

end BinaryOp

inductive UnaryOp where
  | plus | minus | not
  deriving DecidableEq, Repr

/-- An operator before its operand, with the blank that a word needs. -/
def UnaryOp.text : UnaryOp → String
  | plus => "+"
  | minus => "-"
  | not => "not "

def UnaryOp.all : List UnaryOp := [plus, minus, not]

/-- Expressions. A bare name may turn out to be a variable, a constant or a call without arguments,
so it is a case of its own. -/
inductive Expr where
  | int (position : Position) (value : Int64)
  | real (position : Position) (value : Float)
  | char (position : Position) (value : Char)
  | bool (position : Position) (value : Bool)
  | string (position : Position) (value : String)
  | element (position : Position) (name : String) (indices : List Expr)
  | name (position : Position) (name : String)
  | call (position : Position) (name : String) (arguments : List Expr)
  | binary (position : Position) (op : BinaryOp) (left right : Expr)
  | unary (position : Position) (op : UnaryOp) (operand : Expr)
  deriving Repr, Inhabited

namespace Expr

def position : Expr → Position
  | int p _ | real p _ | char p _ | bool p _ | string p _ | element p _ _ | name p _ | call p _ _
  | binary p _ _ _ | unary p _ _ => p

/-- Literals of a single value: all but strings. -/
def isScalarLiteral : Expr → Bool
  | int .. | real .. | char .. | bool .. => true
  | _ => false

/-- Expressions that can denote a place in memory. -/
def isPlace : Expr → Bool
  | element .. | name .. => true
  | _ => false

end Expr

inductive Direction where
  | up | down
  deriving DecidableEq, Repr

/-- Statements. The empty statement is a compound one without parts. -/
inductive Statement where
  | assign (position : Position) (name : String) (indices : List Expr) (value : Expr)
  | call (position : Position) (name : String) (arguments : List Expr)
  | compound (position : Position) (parts : List Statement)
  | branch (position : Position) (condition : Expr) (onTrue : Statement)
      (onFalse : Option Statement)
  | count (position : Position) (counter : String) (first last : Expr) (direction : Direction)
      (body : Statement)
  | loop (position : Position) (condition : Expr) (body : Statement)
  | exit (position : Position)
  deriving Repr, Inhabited

structure ConstDecl where
  name : String
  value : Expr
  position : Position
  deriving Repr

/-- Variables of one type; without periods they are scalars, else arrays. -/
structure VarDecl where
  names : List String
  type : ScalarType
  periods : List Period
  position : Position
  deriving Repr

/-- Parameters of one type. -/
structure ParamGroup where
  byReference : Bool
  names : List String
  type : ScalarType
  position : Position
  deriving Repr

/-- The head of a procedure, or of a function if it returns something. -/
structure Heading where
  name : String
  groups : List ParamGroup
  returns : Option ScalarType
  position : Position
  deriving Repr

structure Body where
  consts : List ConstDecl
  vars : List VarDecl
  statements : List Statement
  /-- Where the statements begin. -/
  position : Position
  deriving Repr

structure Subprogram where
  heading : Heading
  body : Body
  deriving Repr

structure Program where
  name : String
  parameters : List String
  position : Position
  subprograms : List Subprogram
  body : Body
  deriving Repr

end MiniPascal
