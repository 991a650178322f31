import MiniPascal.C.OfProgram
import MiniPascal.C.Text
import MiniPascal.Diagnostic
import MiniPascal.Grammar.Program
import MiniPascal.Token.Scan

/-!
The compiler. A text that is no list of tokens stops it at once; faults of grammar stop it before
the checking, and problems of meaning before anything is written.
-/

namespace MiniPascal

/-- Why there is no C program. -/
inductive CompileError where
  | lexical (error : LexError)
  | diagnostics (list : List Diagnostic)
  /-- A program that was found to be sound has no form in C. -/
  | internal (error : C.LoweringError)

def CompileError.message : CompileError → String
  | lexical e => e.message
  | diagnostics ds => "compilation failed with " ++ toString ds.length ++ " error(s)"
  | internal e => "internal compiler error: " ++ e.message

/-- Constants are folded from the first level of optimization on. -/
def foldsAt (level : Nat) : Bool := 1 ≤ level

/-- The C program of a program without faults of grammar. -/
def compileProgram (p : Program) (level : Nat) : Except CompileError String :=
  let analysis := analyze p
  if analysis.isClean then
    match C.lower p analysis.table (foldsAt level) with
    | .ok target => .ok target.text
    | .error e => .error (.internal e)
  else .error (.diagnostics (Diagnostic.sort (analysis.errors.map Diagnostic.ofSemanticError)))

/-- The C program of a source text. -/
def compile (source : String) (level : Nat) : Except CompileError String :=
  match parse (scan source) with
  | .error e => .error (.lexical e)
  | .ok (program, []) => compileProgram program level
  | .ok (_, errors) =>
    .error (.diagnostics (Diagnostic.sort (errors.map Diagnostic.ofSyntaxError)))

end MiniPascal
