import MiniPascal.C.OfExpr

/-!
Statements in C.
-/

namespace MiniPascal.C

/-- What an assignment sets: the result of the function around, if it has the name, else a place. -/
def target (env : Env) (p : Position) (name : String) (indices : List MiniPascal.Expr) :
    Lower Expr :=
  let place := place env p name indices.length (lowerExprs env indices)
  match env.function, indices with
  | some h, [] => if h.name = name then do return .var (← resultVar env h) else place
  | _, _ => place

def counterVar (env : Env) (p : Position) (name : String) : Lower Var :=
  match env.table.findData? env.block name with
  | some item => .ok (itemVar item)
  | none => fail (.unresolved name) p

/-- A text inside a format: a percent sign is written twice. -/
def formatText (text : String) : String :=
  String.ofList (text.toList.flatMap fun c => if c = '%' then ['%', '%'] else [c])

/-- The format of output or input and the values for its conversions. A string that is written
becomes part of the format. -/
def format (env : Env) (b : Builtin) : List MiniPascal.Expr → Lower (String × List Expr)
  | [] => .ok (if b.endsLine then "\n" else "", [])
  | e :: es => do
    match b.isOutput, e with
    | true, .string _ text =>
      let (rest, values) ← format env b es
      return (formatText text ++ rest, values)
    | _, _ =>
      let type ← Ty.ofBase (env.typeOf e).base e.position
      let value ← lowerExpr env e
      let (rest, values) ← format env b es
      return ((if b.isOutput then type.printed else type.scanned) ++ rest, value :: values)

def builtinCall (env : Env) (b : Builtin) (arguments : List MiniPascal.Expr) : Lower Statement := do
  let (text, values) ← format env b arguments
  return if b.isOutput then .print text values else .scan text values

/-- Leaving early: a routine returns, with its result if it has one, and the program exits. -/
def leaving (env : Env) : Lower Statement :=
  match env.subprogram with
  | none => .ok .exit
  | some h =>
    if h.returns.isSome then do return .leave (some (← resultVar env h)) else .ok (.leave none)

mutual

def lowerStatement (env : Env) : MiniPascal.Statement → Lower Statement
  | .assign p name indices value => do
    return .assign (← target env p name indices) (← lowerExpr env value)
  | .call p name arguments =>
    match env.builtin? name with
    | some b => builtinCall env b arguments
    | none => do
      let (routine, passed) ←
        callOf env p name (env.arguments arguments) (lowerExprs env arguments)
      return .call routine passed
  | .compound _ parts => do return .compound (← lowerStatements env parts)
  | .branch _ condition onTrue none => do
    return .branch (← lowerExpr env condition) (← lowerStatement env onTrue) none
  | .branch _ condition onTrue (some onFalse) => do
    return .branch (← lowerExpr env condition) (← lowerStatement env onTrue)
      (some (← lowerStatement env onFalse))
  | .count p counter first last direction body => do
    return .count (← counterVar env p counter) (← lowerExpr env first) (← lowerExpr env last)
      (direction == .down) (← lowerStatement env body)
  | .loop _ condition body => do
    return .loop (← lowerExpr env condition) (← lowerStatement env body)
  | .exit _ => leaving env

def lowerStatements (env : Env) : List MiniPascal.Statement → Lower (List Statement)
  | [] => .ok []
  | s :: ss => do return (← lowerStatement env s) :: (← lowerStatements env ss)

end

mutual

/-- Whether a statement ends the program, as it stands in the program itself and not in a routine.
This is noted on the way through the statements. -/
def endsProgram : MiniPascal.Statement → Bool
  | .exit _ => true
  | .compound _ parts => anyEndsProgram parts
  | .branch _ _ onTrue none => endsProgram onTrue
  | .branch _ _ onTrue (some onFalse) => endsProgram onTrue || endsProgram onFalse
  | .count _ _ _ _ _ body => endsProgram body
  | .loop _ _ body => endsProgram body
  | .assign .. | .call .. => false

def anyEndsProgram : List MiniPascal.Statement → Bool
  | [] => false
  | s :: ss => endsProgram s || anyEndsProgram ss

end

end MiniPascal.C
