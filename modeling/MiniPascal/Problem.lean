import MiniPascal.Scope.Lookup
import MiniPascal.Token.Basic

/-!
What can be wrong with a program that follows the grammar.
-/

namespace MiniPascal

inductive Problem where
  | undeclared (name : String)
  | notAccepted (name : String) (arguments : String)
  | notCallable (name : String)
  | duplicate (name : String)
  | notVariable (name : String)
  | indexType (found : Ty)
  | indexCount (name : String) (dims given : Nat)
  | binaryOperands (op : BinaryOp) (left right : Ty)
  | unaryOperand (op : UnaryOp) (operand : Ty)
  | notLiteral (constant : String)
  | constantTarget (name : String)
  | wholeArray (name : String)
  | notAssignable (value : Ty) (name : String) (target : Ty)
  | conditionType (statement : Keyword) (found : Ty)
  | loopVariable (name : String) (found : Ty)
  | boundType (found : Ty)
  | notWritable (found : Ty)
  | notReadable (found : Ty)
  deriving DecidableEq, Repr

namespace Problem

/-- The kinds of problems that messages name. -/
inductive Kind where
  | name | parameter | type | call | declaration
  deriving DecidableEq, Repr

def Kind.text : Kind → String
  | name => "name"
  | parameter => "parameter"
  | type => "type"
  | call => "call"
  | declaration => "declaration"

def kind : Problem → Kind
  | undeclared _ => .name
  | notAccepted _ _ => .parameter
  | notCallable _ => .call
  | duplicate _ => .declaration
  | _ => .type

/-- A name between quotes. -/
def cite (name : String) : String := "'" ++ name ++ "'"

def message : Problem → String
  | undeclared name => cite name ++ " is not declared"
  | notAccepted name arguments =>
    "no declaration of " ++ cite name ++ " accepts (" ++ arguments ++ ")"
  | notCallable name => cite name ++ " is not a procedure or function"
  | duplicate name => cite name ++ " is already declared in this scope"
  | notVariable name => cite name ++ " is not a variable"
  | indexType found => "array index must be integer, found " ++ found.text
  | indexCount name dims given =>
    cite name ++ " has " ++ toString dims ++ " dimension(s) but " ++ toString given
      ++ " index(es) were given"
  | binaryOperands op left right =>
    "operator " ++ cite op.text ++ " cannot be applied to " ++ left.text ++ " and " ++ right.text
  | unaryOperand op operand =>
    "operator " ++ cite op.text.trimAscii.toString ++ " cannot be applied to " ++ operand.text
  | notLiteral constant => "constant " ++ cite constant ++ " must be a literal value"
  | constantTarget name => "cannot assign to constant " ++ cite name
  | wholeArray name => "cannot assign to whole array " ++ cite name
  | notAssignable value name target =>
    "cannot assign " ++ value.text ++ " to " ++ cite name ++ " of type " ++ target.text
  | conditionType statement found =>
    "condition of " ++ cite statement.text ++ " must be boolean, found " ++ found.text
  | loopVariable name found =>
    "loop variable " ++ cite name ++ " must be an integer variable, found " ++ found.text
  | boundType found => "'for' bound must be integer, found " ++ found.text
  | notWritable found => "cannot write a value of type " ++ found.text
  | notReadable found => "cannot read into a value of type " ++ found.text

/-- The problem of a call that no routine answers. -/
def ofLookup (name : String) (args : List Scope.Argument) : Scope.LookupError → Problem
  | .notFound => undeclared name
  | .notCallable => notCallable name
  | .mismatch => notAccepted name (", ".intercalate (args.map Scope.Argument.text))

end Problem

/-- A problem and its place. -/
structure SemanticError where
  problem : Problem
  position : Position
  deriving DecidableEq, Repr

def SemanticError.message (e : SemanticError) : String := e.problem.message

/-- A result together with the problems that were met on the way to it, in order. -/
structure Checked (α : Type) where
  value : α
  errors : List SemanticError := []

instance : Monad Checked where
  pure a := ⟨a, []⟩
  bind x f :=
    let y := f x.value
    ⟨y.value, x.errors ++ y.errors⟩

namespace Checked

def complain (problem : Problem) (position : Position) : Checked Unit := ⟨(), [⟨problem, position⟩]⟩

end Checked

end MiniPascal
