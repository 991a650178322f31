import MiniPascal.C.Names
import MiniPascal.C.Tree
import MiniPascal.Tree.Fold

/-!
Expressions in C. Names are resolved as the checker resolves them, so an expression that the checker
accepts has a form in C.
-/

namespace MiniPascal.C

/-- Why a part of a program has no form in C. -/
inductive LoweringFault where
  /-- No block is known for a head. -/
  | noBlock (name : String)
  | unresolved (name : String)
  | untyped
  | bounds (period : Period)
  | builtinValue (name : String)
  | subscripts (name : String) (count : Nat)
  deriving DecidableEq, Repr

structure LoweringError where
  fault : LoweringFault
  position : Position
  deriving DecidableEq, Repr

namespace LoweringError

def message (e : LoweringError) : String :=
  let place := e.position.text
  match e.fault with
  | .noBlock name => "no scope was registered for '" ++ name ++ "' at " ++ place
  | .unresolved name => "'" ++ name ++ "' at " ++ place ++ " could not be resolved during lowering"
  | .untyped => "an untyped value at " ++ place ++ " has no C representation"
  | .bounds period => "bounds " ++ period.text ++ " at " ++ place ++ " has no C representation"
  | .builtinValue name =>
    "'" ++ name ++ "' used as a value at " ++ place ++ " has no C representation"
  | .subscripts name count =>
    "'" ++ name ++ "' with " ++ toString count ++ " subscript(s) at " ++ place
      ++ " has no C representation"

end LoweringError

abbrev Lower := Except LoweringError

/-- What the form of an expression depends on. -/
structure Env where
  table : Scope.Table
  names : Names
  /-- Whether constant expressions are folded. -/
  folding : Bool
  block : Nat
  subprogram : Option Heading := none

namespace Env

/-- The function around, whose result can be read and set. -/
def function (env : Env) : Option Heading := env.subprogram.bind Analysis.functionOf

def typeOf (env : Env) (e : MiniPascal.Expr) : MiniPascal.Ty :=
  (Typing.typeOf env.table env.block e).value

def arguments (env : Env) (es : List MiniPascal.Expr) : List Scope.Argument :=
  (Typing.argumentsOf env.table env.block es).value

def builtin? (env : Env) (name : String) : Option Builtin :=
  Builtin.visible? env.table env.block name

end Env

def fail {α : Type} (fault : LoweringFault) (p : Position) : Lower α := .error ⟨fault, p⟩

/-- The type in C; a boolean is an `int`. -/
def Ty.ofBase (base : MiniPascal.Ty.Base) (p : Position) : Lower Ty :=
  match base with
  | .int | .bool => .ok .int
  | .real => .ok .double
  | .char => .ok .char
  | .string => .ok .string
  | .void => .ok .void
  | .error => fail .untyped p

def Ty.ofScalar : ScalarType → Ty
  | .integer | .boolean => .int
  | .real => .double
  | .char => .char

def BinaryOp.ofSource : MiniPascal.BinaryOp → BinaryOp
  | .equal => .equal
  | .notEqual => .notEqual
  | .less => .less
  | .lessEqual => .lessEqual
  | .greater => .greater
  | .greaterEqual => .greaterEqual
  | .add => .add
  | .sub => .sub
  | .or => .or
  | .mul => .mul
  | .divide | .div => .div
  | .mod => .mod
  | .and => .and

/-- The name of the routine whose head stands at a place. -/
def routineName (env : Env) (name : String) (p : Position) : Lower String :=
  match env.names.routines.lookup p with
  | some routine => .ok routine
  | none => fail (.unresolved name) p

/-- The variable for the result of a function. -/
def resultVar (env : Env) (h : Heading) : Lower Var :=
  match env.names.results.lookup h.position with
  | some name => .ok { name, isResult := true }
  | none => fail (.unresolved h.name) h.position

def itemVar (item : Scope.Item) : Var := { name := item.name, byReference := item.byReference }

/-- The variable that a place means. Only the function around has a result to mean. -/
def placeVar (env : Env) (p : Position) (item : Scope.Item) (name : String) : Lower Var :=
  if item.kind = .result then
    match env.function with
    | some h => resultVar env h
    | none => fail (.unresolved name) p
  else .ok (itemVar item)

/-- An index of a dimension. The lower bound of a known index is taken off right away, unless the
difference is no word. -/
def subscript (folding : Bool) (index : Expr) (period : Period) : Expr × Int64 :=
  match folding, index with
  | true, .int v =>
    match Integer.sub? v period.lower with
    | some offset => (.int offset, 0)
    | none => (.int v, period.lower)
  | _, index => (index, period.lower)

/-- A variable, or an element of an array behind the given indices. -/
def place (env : Env) (p : Position) (name : String) (count : Nat) (indices : Lower (List Expr)) :
    Lower Expr := do
  match env.table.findPlace? env.block name with
  | none => fail (.unresolved name) p
  | some item =>
    let v ← placeVar env p item name
    if count = 0 then return .var v
    else if item.type.dims.length < count then fail (.subscripts name count) p
    else return .element v ((← indices).zipWith (subscript env.folding) item.type.dims)

/-- A call of the routine that accepts arguments of the given types. -/
def callOf (env : Env) (p : Position) (name : String) (args : List Scope.Argument)
    (values : Lower (List Expr)) : Lower (String × List (Expr × Bool)) :=
  match env.table.findRoutine env.block name args with
  | .error _ => fail (.unresolved name) p
  | .ok item => do
    let passed := (← values).zipWith (fun e param => (e, param.byReference)) item.params
    return (← routineName env name item.position, passed)

/-- Division of two integers is real division, so one operand has to become a real. -/
def widens (env : Env) (op : MiniPascal.BinaryOp) (left right : MiniPascal.Expr) : Bool :=
  op == .divide && (env.typeOf left).isA .int && (env.typeOf right).isA .int

mutual

/-- An expression in C, as it is written. -/
def convert (env : Env) : MiniPascal.Expr → Lower Expr
  | .int _ v => .ok (.int v)
  | .real _ v => .ok (.real v)
  | .char _ v => .ok (.char v)
  | .bool _ v => .ok (.int (if v then 1 else 0))
  | .string _ v => .ok (.string v)
  | .element p name indices => place env p name indices.length (convertAll env indices)
  | .name p name =>
    match env.table.resolve env.block name with
    | .error _ => fail (.unresolved name) p
    | .ok item =>
      if item.kind = .routine then do return .call (← routineName env name item.position) []
      else place env p name 0 (.ok [])
  | .call p name arguments =>
    if (env.builtin? name).isSome then fail (.builtinValue name) p
    else do
      let (routine, passed) ←
        callOf env p name (env.arguments arguments) (convertAll env arguments)
      return .call routine passed
  | .binary _ op left right => do
    let l ← convert env left
    let r ← convert env right
    return .binary (.ofSource op) (if widens env op left right then .cast .double l else l) r
  | .unary _ op operand => do
    let e ← convert env operand
    match op with
    | .plus => return e
    | .minus => return .unary .minus e
    | .not => return .unary .not e

def convertAll (env : Env) : List MiniPascal.Expr → Lower (List Expr)
  | [] => .ok []
  | e :: es => do
    let e ← convert env e
    let es ← convertAll env es
    return e :: es

end

/-- An expression as it is lowered: folded, if expressions are. -/
def Env.prepared (env : Env) (e : MiniPascal.Expr) : MiniPascal.Expr :=
  if env.folding then e.fold.1 else e

def lowerExpr (env : Env) (e : MiniPascal.Expr) : Lower Expr := convert env (env.prepared e)

def lowerExprs (env : Env) (es : List MiniPascal.Expr) : Lower (List Expr) :=
  convertAll env (es.map env.prepared)

end MiniPascal.C
