import MiniPascal.Integer

/-!
C programs as trees, as far as they are needed here. Nothing in such a tree has to be looked up:
each use of a variable says whether it is a pointer, each subscript has its lower bound, and each
argument says how it is passed.
-/

namespace MiniPascal.C

inductive Ty where
  | int | double | char | string | void
  deriving DecidableEq, Repr

namespace Ty

def text : Ty → String
  | int => "int"
  | double => "double"
  | char => "char"
  | string => "const char *"
  | void => "void"

/-- The conversion with which a value of the type is printed. -/
def printed : Ty → String
  | int => "%d"
  | double => "%f"
  | char => "%c"
  | string => "%s"
  | void => ""

/-- The conversion with which a value of the type is read. -/
def scanned : Ty → String
  | double => "%lf"
  | t => t.printed

end Ty

/-- A use of a variable. A parameter by reference is a pointer, and the variable that holds the
result of a function keeps its name as it is. -/
structure Var where
  name : String
  byReference : Bool := false
  isResult : Bool := false
  deriving DecidableEq, Repr

inductive BinaryOp where
  | equal | notEqual | less | lessEqual | greater | greaterEqual
  | add | sub | or | mul | div | mod | and
  deriving DecidableEq, Repr

def BinaryOp.text : BinaryOp → String
  | equal => "==" | notEqual => "!=" | less => "<" | lessEqual => "<=" | greater => ">"
  | greaterEqual => ">=" | add => "+" | sub => "-" | or => "||" | mul => "*" | div => "/"
  | mod => "%" | and => "&&"

inductive UnaryOp where
  | minus | not
  deriving DecidableEq, Repr

def UnaryOp.text : UnaryOp → String
  | minus => "-"
  | not => "!"

/-- Expressions. A subscript is an index with the lower bound to subtract from it, and an argument
is a value with whether its address is passed. -/
inductive Expr where
  | int (value : Int64)
  | real (value : Float)
  | char (value : Char)
  | string (value : String)
  | var (var : Var)
  | element (var : Var) (subscripts : List (Expr × Int64))
  | call (name : String) (arguments : List (Expr × Bool))
  | binary (op : BinaryOp) (left right : Expr)
  | unary (op : UnaryOp) (operand : Expr)
  | cast (type : Ty) (operand : Expr)
  deriving Repr, Inhabited

inductive Statement where
  | assign (target value : Expr)
  | call (name : String) (arguments : List (Expr × Bool))
  | compound (parts : List Statement)
  | branch (condition : Expr) (onTrue : Statement) (onFalse : Option Statement)
  | count (counter : Var) (first last : Expr) (down : Bool) (body : Statement)
  | loop (condition : Expr) (body : Statement)
  | print (format : String) (arguments : List Expr)
  | scan (format : String) (arguments : List Expr)
  | leave (result : Option Var)
  | exit
  deriving Repr, Inhabited

structure Constant where
  name : String
  type : Ty
  value : Expr
  deriving Repr

structure Scalar where
  name : String
  type : Ty
  deriving DecidableEq, Repr

structure ArrayDecl where
  name : String
  type : Ty
  dims : List Int64
  deriving DecidableEq, Repr

structure Declarations where
  constants : List Constant := []
  scalars : List Scalar := []
  arrays : List ArrayDecl := []
  deriving Repr

def Declarations.isEmpty (d : Declarations) : Bool :=
  d.constants.isEmpty && d.scalars.isEmpty && d.arrays.isEmpty

structure Param where
  name : String
  type : Ty
  byReference : Bool
  deriving DecidableEq, Repr

structure Block where
  declarations : Declarations := {}
  statements : List Statement := []
  deriving Repr

/-- The variable that holds the result of a function, and its type. -/
structure Result where
  name : String
  type : Ty
  deriving DecidableEq, Repr

/-- A function, or a procedure if it has no result. -/
structure Routine where
  name : String
  result : Option Result
  params : List Param
  body : Block
  deriving Repr

structure Program where
  name : String
  globals : Declarations
  routines : List Routine
  main : Block
  usesExit : Bool
  deriving Repr

end MiniPascal.C
