import MiniPascal.Compiler

/-!
What the compiler tells about its work while it goes on.
-/

namespace MiniPascal.Trace

inductive Event where
  | scanned (tokens : Nat)
  | fault (error : SyntaxError)
  | resumed (position : Position)
  | parsed (program : String) (errors : Nat)
  | rejected (errors : Nat)
  | checking (subprogram : String)
  | builtin (builtin : Builtin) (position : Position)
  | checked (blocks errors : Nat)
  | lowering (subprograms : Nat)
  | loweringSubprogram (name : String)
  | generated (bytes : Nat)
  deriving DecidableEq, Repr

inductive Level where
  | trace | debug | info
  deriving DecidableEq, Repr

def Level.text : Level → String
  | trace => "TRACE"
  | debug => "DEBUG"
  | info => "INFO"

namespace Event

def level : Event → Level
  | builtin _ _ => .trace
  | rejected _ | checked _ _ | lowering _ => .info
  | _ => .debug

def message : Event → String
  | scanned n => "lexed " ++ toString n ++ " token(s)"
  | fault e => "syntax error at " ++ e.position.text ++ ": " ++ e.message
  | resumed p => "resynchronized at " ++ p.text
  | parsed program n =>
    "parsed program '" ++ program ++ "' with " ++ toString n ++ " syntax error(s)"
  | rejected n => "parsing reported " ++ toString n ++ " error(s)"
  | checking name => "analyzing subprogram '" ++ name ++ "'"
  | builtin b p => "checking built-in '" ++ b.text ++ "' at " ++ p.text
  | checked blocks n =>
    "semantic analysis finished: " ++ toString blocks ++ " scope(s), " ++ toString n ++ " error(s)"
  | lowering n => "lowering " ++ toString n ++ " subprogram(s)"
  | loweringSubprogram name => "lowering subprogram '" ++ name ++ "'"
  | generated n => "generated " ++ toString n ++ " bytes of C"

def text (e : Event) : String := e.level.text ++ " " ++ e.message

def ofNote : Note → Event
  | .fault e => fault e
  | .resumed p => resumed p

end Event

mutual

/-- The calls of built-in procedures in a statement. -/
def builtins (t : Scope.Table) (block : Nat) : Statement → List Event
  | .call p name _ =>
    match Builtin.visible? t block name with
    | some b => [.builtin b p]
    | none => []
  | .compound _ parts => allBuiltins t block parts
  | .branch _ _ onTrue none => builtins t block onTrue
  | .branch _ _ onTrue (some onFalse) => builtins t block onTrue ++ builtins t block onFalse
  | .count _ _ _ _ _ body => builtins t block body
  | .loop _ _ body => builtins t block body
  | _ => []

def allBuiltins (t : Scope.Table) (block : Nat) : List Statement → List Event
  | [] => []
  | s :: ss => builtins t block s ++ allBuiltins t block ss

end

/-- The checking of a program. The block of each subprogram follows those of the ones before it. -/
def ofAnalysis (p : Program) (a : Analysis) : List Event :=
  let subprograms := p.subprograms.zipIdx.flatMap fun (s, i) =>
    .checking s.heading.name :: allBuiltins a.table (i + 1) s.body.statements
  subprograms ++ allBuiltins a.table 0 p.body.statements
    ++ [.checked a.table.blocks.length a.errors.length]

/-- The subprograms that are lowered, up to the first that cannot be. -/
def loweredSubprograms (env : C.Env) (known : C.Constants) : List Subprogram → List Event
  | [] => []
  | s :: ss =>
    .loweringSubprogram s.heading.name ::
      match C.lowerSubprogram env known s with
      | .ok (_, known) => loweredSubprograms env known ss
      | .error _ => []

/-- The lowering of a program, up to the first part that has no form in C. -/
def ofLowering (p : Program) (t : Scope.Table) (folding : Bool) : List Event :=
  match C.outermost p t folding with
  | .error _ => []
  | .ok env =>
    .lowering p.subprograms.length ::
      match C.lowerDeclarations env [] p.body with
      | .ok (_, known) => loweredSubprograms env known p.subprograms
      | .error _ => []

def ofProgram (p : Program) (level : Nat) : List Event :=
  let a := analyze p
  let lowering :=
    if a.isClean then
      ofLowering p a.table (foldsAt level) ++
        match C.lower p a.table (foldsAt level) with
        | .ok target => [.generated target.text.utf8ByteSize]
        | .error _ => []
    else []
  ofAnalysis p a ++ lowering

/-- All that is told in the compilation of a source text. -/
def ofSource (source : String) (level : Nat) : List Event :=
  let tokens := scan source
  let reading := readProgram tokens
  let rest := match reading.program with
    | .error _ => []
    | .ok program =>
      .parsed program.name reading.errors.length ::
        if reading.errors.isEmpty then ofProgram program level
        else [.rejected reading.errors.length]
  .scanned tokens.length :: reading.notes.map Event.ofNote ++ rest

end MiniPascal.Trace
