import MiniPascal.C.OfStatement

/-!
Programs in C. Declarations of the program become global when there are routines that may use them,
and else those of `main`.
-/

namespace MiniPascal.C

/-- The values of constants by the places of their declarations, the latest first. -/
abbrev Constants := List (Position × Expr)

/-- The value of a constant. The name of another constant stands for that one's value. -/
def constantValue (env : Env) (known : Constants) (e : MiniPascal.Expr) : Lower Expr :=
  match e with
  | .name p name =>
    match env.table.resolve env.block name with
    | .ok item =>
      if item.kind = .const then
        match known.lookup item.position with
        | some value => .ok value
        | none => fail (.unresolved name) p
      else lowerExpr env e
    | .error _ => lowerExpr env e
  | _ => lowerExpr env e

def lowerConsts (env : Env) (known : Constants) : List ConstDecl → Lower (List Constant × Constants)
  | [] => .ok ([], known)
  | d :: ds => do
    let value ← constantValue env known d.value
    let type ← Ty.ofBase (env.typeOf d.value).base d.position
    let (constants, known) ← lowerConsts env ((d.position, value) :: known) ds
    return (⟨d.name, type, value⟩ :: constants, known)

/-- The sizes of the dimensions of an array. -/
def sizes (p : Position) : List Period → Lower (List Int64)
  | [] => .ok []
  | period :: rest =>
    match period.size? with
    | some n => do return n :: (← sizes p rest)
    | none => fail (.bounds period) p

def scalars (d : VarDecl) : List Scalar :=
  if d.periods.isEmpty then d.names.map fun name => ⟨name, .ofScalar d.type⟩ else []

def arrays : List VarDecl → Lower (List ArrayDecl)
  | [] => .ok []
  | d :: ds =>
    if d.periods.isEmpty ∨ d.names.isEmpty then arrays ds
    else do
      let dims ← sizes d.position d.periods
      return d.names.map (fun name => ⟨name, .ofScalar d.type, dims⟩) ++ (← arrays ds)

def lowerDeclarations (env : Env) (known : Constants) (body : Body) :
    Lower (Declarations × Constants) := do
  let (constants, known) ← lowerConsts env known body.consts
  let arrays ← arrays body.vars
  return (⟨constants, body.vars.flatMap scalars, arrays⟩, known)

def blockFor (t : Scope.Table) (name : String) (p : Position) : Lower Nat :=
  match t.blockAt? p with
  | some block => .ok block
  | none => fail (.noBlock name) p

def params (h : Heading) : List Param :=
  h.groups.flatMap fun g => g.names.map fun name => ⟨name, .ofScalar g.type, g.byReference⟩

/-- The result of a function; a procedure has none. -/
def result (env : Env) (h : Heading) : Lower (Option Result) :=
  match h.returns with
  | some type => do return some ⟨(← resultVar env h).name, .ofScalar type⟩
  | none => .ok none

def lowerSubprogram (outer : Env) (known : Constants) (s : Subprogram) :
    Lower (Routine × Constants) := do
  let h := s.heading
  let env := { outer with block := ← blockFor outer.table h.name h.position, subprogram := some h }
  let name ← routineName env h.name h.position
  let (declarations, known) ← lowerDeclarations env known s.body
  let statements ← lowerStatements env s.body.statements
  return (⟨name, ← result env h, params h, ⟨declarations, statements⟩⟩, known)

def lowerSubprograms (outer : Env) (known : Constants) : List Subprogram → Lower (List Routine)
  | [] => .ok []
  | s :: ss => do
    let (routine, known) ← lowerSubprogram outer known s
    return routine :: (← lowerSubprograms outer known ss)

/-- Where the program itself is lowered. -/
def outermost (p : MiniPascal.Program) (t : Scope.Table) (folding : Bool) : Lower Env := do
  return { table := t, names := .ofProgram p t.names, folding, block := ← blockFor t p.name p.position }

/-- A program in C, given the names that it declares. -/
def lower (p : MiniPascal.Program) (t : Scope.Table) (folding : Bool) : Lower Program := do
  let env ← outermost p t folding
  let (declarations, known) ← lowerDeclarations env [] p.body
  let routines ← lowerSubprograms env known p.subprograms
  let statements ← lowerStatements env p.body.statements
  let usesExit := anyEndsProgram p.body.statements
  if routines.isEmpty then return ⟨p.name, {}, [], ⟨declarations, statements⟩, usesExit⟩
  else return ⟨p.name, declarations, routines, ⟨{}, statements⟩, usesExit⟩

end MiniPascal.C
