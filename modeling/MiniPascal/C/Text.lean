import MiniPascal.C.Literal
import MiniPascal.C.Tree
import MiniPascal.Decimal.Layout

/-!
The text of a C program. Every operation stands in parentheses, every line is indented by its depth,
and the order is fixed: includes, declarations, prototypes, routines, `main`.
-/

namespace MiniPascal.C

def Var.text (v : Var) : String :=
  if v.isResult then v.name
  else if v.byReference then "*" ++ identifier v.name
  else identifier v.name

/-- The lower bound taken off an index. -/
def lowerText (lower : Int64) : String :=
  if lower = 0 then ""
  else if 0 < lower.toInt then " - " ++ toString lower.toInt
  else " + " ++ toString (-lower.toInt)

namespace Expr

/-- An expression whose text is known, where its address is needed. A pointer is its own address,
and what is no place in memory is passed as it is. -/
def address (text : String) : Expr → String
  | var v => if v.byReference && !v.isResult then identifier v.name else "&" ++ text
  | element _ _ => "&" ++ text
  | _ => text

mutual

def text : Expr → String
  | int v => Integer.text v
  | real v => Decimal.realText v
  | char v => charLiteral v
  | string v => stringLiteral v
  | var v => v.text
  | element v subscripts => v.text ++ subscriptsText subscripts
  | call name arguments => identifier name ++ "(" ++ argumentsText arguments ++ ")"
  | binary op l r => "(" ++ l.text ++ " " ++ op.text ++ " " ++ r.text ++ ")"
  | unary op e => "(" ++ op.text ++ e.text ++ ")"
  | cast type e => "(" ++ type.text ++ ")" ++ e.text

def subscriptsText : List (Expr × Int64) → String
  | [] => ""
  | (e, lower) :: rest => "[" ++ e.text ++ lowerText lower ++ "]" ++ subscriptsText rest

def argumentsText : List (Expr × Bool) → String
  | [] => ""
  | [(e, byReference)] => if byReference then e.address e.text else e.text
  | (e, byReference) :: next :: rest =>
    (if byReference then e.address e.text else e.text) ++ ", " ++ argumentsText (next :: rest)

end

end Expr

/-- A line of the text and how deep it is indented. -/
structure Line where
  depth : Nat
  text : String
  deriving DecidableEq, Repr

namespace Line

def indentation (depth : Nat) : String := String.ofList (List.replicate (4 * depth) ' ')

def blank : Line := ⟨0, ""⟩

def render (l : Line) : String := indentation l.depth ++ l.text ++ "\n"

end Line

/-- The values after a format. -/
def formatted (values : List String) : String := String.join (values.map fun v => ", " ++ v)

/-- The head of a counting loop. -/
def countHead (counter : Var) (first last : Expr) (down : Bool) : String :=
  let name := counter.text
  let compare := if down then " >= " else " <= "
  let step := if down then "--" else "++"
  let stepped := if counter.byReference then "(" ++ name ++ ")" ++ step else name ++ step
  "for (" ++ name ++ " = " ++ first.text ++ "; " ++ name ++ compare ++ last.text ++ "; "
    ++ stepped ++ ") \x7b"

namespace Statement

mutual

def lines (depth : Nat) : Statement → List Line
  | assign target value => [⟨depth, target.text ++ " = " ++ value.text ++ ";"⟩]
  | call name arguments =>
    [⟨depth, identifier name ++ "(" ++ Expr.argumentsText arguments ++ ");"⟩]
  | compound parts => listLines depth parts
  | branch condition onTrue none =>
    ⟨depth, "if (" ++ condition.text ++ ") \x7b"⟩ :: lines (depth + 1) onTrue ++ [⟨depth, "\x7d"⟩]
  | branch condition onTrue (some onFalse) =>
    ⟨depth, "if (" ++ condition.text ++ ") \x7b"⟩ :: lines (depth + 1) onTrue
      ++ ⟨depth, "\x7d else \x7b"⟩ :: lines (depth + 1) onFalse ++ [⟨depth, "\x7d"⟩]
  | count counter first last down body =>
    ⟨depth, countHead counter first last down⟩ :: lines (depth + 1) body ++ [⟨depth, "\x7d"⟩]
  | loop condition body =>
    ⟨depth, "while (" ++ condition.text ++ ") \x7b"⟩ :: lines (depth + 1) body
      ++ [⟨depth, "\x7d"⟩]
  | print format arguments =>
    [⟨depth, "printf(" ++ stringLiteral format ++ formatted (arguments.map Expr.text) ++ ");"⟩]
  | scan format arguments =>
    [⟨depth, "scanf(" ++ stringLiteral format
      ++ formatted (arguments.map fun e => e.address e.text) ++ ");"⟩]
  | leave none => [⟨depth, "return;"⟩]
  | leave (some v) => [⟨depth, "return " ++ v.text ++ ";"⟩]
  | exit => [⟨depth, "exit(0);"⟩]

def listLines (depth : Nat) : List Statement → List Line
  | [] => []
  | s :: ss => s.lines depth ++ listLines depth ss

end

end Statement

def Constant.line (depth : Nat) (c : Constant) : Line :=
  let start := if c.type = .string then "const char *" else "const " ++ c.type.text ++ " "
  ⟨depth, start ++ identifier c.name ++ " = " ++ c.value.text ++ ";"⟩

def Scalar.line (depth : Nat) (s : Scalar) : Line :=
  ⟨depth, s.type.text ++ " " ++ identifier s.name ++ ";"⟩

def ArrayDecl.line (depth : Nat) (a : ArrayDecl) : Line :=
  let dims := String.join (a.dims.map fun d => "[" ++ Integer.text d ++ "]")
  ⟨depth, a.type.text ++ " " ++ identifier a.name ++ dims ++ ";"⟩

def Declarations.lines (depth : Nat) (d : Declarations) : List Line :=
  d.constants.map (Constant.line depth) ++ d.scalars.map (Scalar.line depth)
    ++ d.arrays.map (ArrayDecl.line depth)

def Block.lines (depth : Nat) (b : Block) : List Line :=
  b.declarations.lines depth ++ Statement.listLines depth b.statements

def Param.text (p : Param) : String :=
  p.type.text ++ " " ++ (if p.byReference then "*" else "") ++ identifier p.name

namespace Routine

def signature (r : Routine) : String :=
  let type := match r.result with
    | some result => result.type
    | none => .void
  let params := if r.params.isEmpty then "void" else ", ".intercalate (r.params.map Param.text)
  type.text ++ " " ++ identifier r.name ++ "(" ++ params ++ ")"

/-- A function declares its result first and returns it last. -/
def bodyLines (r : Routine) : List Line :=
  match r.result with
  | some result =>
    ⟨1, result.type.text ++ " " ++ result.name ++ ";"⟩ :: r.body.lines 1
      ++ [⟨1, "return " ++ result.name ++ ";"⟩]
  | none => r.body.lines 1

def lines (r : Routine) : List Line :=
  ⟨0, r.signature ++ " \x7b"⟩ :: r.bodyLines ++ [⟨0, "\x7d"⟩, .blank]

end Routine

namespace Program

def includeLines (p : Program) : List Line :=
  ⟨0, "#include <stdio.h>"⟩
    :: (if p.usesExit then [⟨0, "#include <stdlib.h>"⟩] else []) ++ [.blank]

def globalLines (p : Program) : List Line :=
  if p.globals.isEmpty then [] else p.globals.lines 0 ++ [.blank]

def routineLines (p : Program) : List Line :=
  if p.routines.isEmpty then []
  else
    p.routines.map (fun r => ⟨0, r.signature ++ ";"⟩) ++ .blank :: p.routines.flatMap Routine.lines

def mainLines (p : Program) : List Line :=
  ⟨0, "int main() \x7b"⟩ :: p.main.lines 1 ++ [⟨1, "return 0;"⟩, ⟨0, "\x7d"⟩]

def lines (p : Program) : List Line :=
  p.includeLines ++ p.globalLines ++ p.routineLines ++ p.mainLines

def text (p : Program) : String := String.join (p.lines.map Line.render)

end Program

end MiniPascal.C
