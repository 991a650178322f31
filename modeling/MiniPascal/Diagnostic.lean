import MiniPascal.Grammar.Input
import MiniPascal.Problem
import MiniPascal.Text.Lines

/-!
Messages about a source text, each with the line it is about and a mark under the place.
-/

namespace MiniPascal

namespace Diagnostic

inductive Kind where
  | grammar
  | meaning (kind : Problem.Kind)
  deriving DecidableEq, Repr

def Kind.text : Kind → String
  | grammar => "syntax"
  | meaning kind => kind.text

end Diagnostic

structure Diagnostic where
  kind : Diagnostic.Kind
  message : String
  position : Position
  deriving DecidableEq, Repr

namespace Diagnostic

def ofSyntaxError (e : SyntaxError) : Diagnostic := ⟨.grammar, e.message, e.position⟩

def ofSemanticError (e : SemanticError) : Diagnostic :=
  ⟨.meaning e.problem.kind, e.message, e.position⟩

/-- In the order of their places; those of one place stay in the order in which they were met. -/
def sort (ds : List Diagnostic) : List Diagnostic :=
  ds.mergeSort fun a b => a.position.le b.position

def text (d : Diagnostic) : String :=
  d.position.text ++ ": " ++ d.kind.text ++ " error: " ++ d.message

/-- Bold red on a terminal. -/
def bold (text : String) : String := "\x1b[38;5;9m\x1b[1m" ++ text ++ "\x1b[0m"

/-- Blanks as wide as the text before a column; tabs stay tabs. -/
def padding (line : String) (column : Nat) : String :=
  String.ofList ((line.toList.take (column - 1)).map fun c => if c = '\t' then '\t' else ' ')

/-- The line of a text that a place is on, if there is one. -/
def lineAt? (source : String) (p : Position) : Option String :=
  if p.line = 0 then none else (Text.lines source)[p.line - 1]?

/-- The message with its line. Where colors are shown, `style` sets off the mark and the word before
the message. -/
def render (d : Diagnostic) (file source : String) (color : Bool)
    (style : String → String := bold) : String :=
  let styled (text : String) : String := if color then style text else text
  let head := file ++ ":" ++ d.position.text ++ ": " ++ d.kind.text ++ " "
    ++ styled "error" ++ ": " ++ d.message ++ "\n"
  match lineAt? source d.position with
  | some line =>
    head ++ "    " ++ line ++ "\n    " ++ padding line d.position.column
      ++ styled "^" ++ "\n"
  | none => head

end Diagnostic

end MiniPascal
