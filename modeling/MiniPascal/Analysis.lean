import MiniPascal.Check

/-!
The declarations of a program and all that is wrong with it. Declarations fill the table block by
block. The heads of all subprograms are declared before any body is looked at, so subprograms may
call each other in any order.
-/

namespace MiniPascal

/-- A table of declarations and the problems met so far. -/
structure Analysis where
  table : Scope.Table := {}
  errors : List SemanticError := []

namespace Analysis

open Scope

def isClean (a : Analysis) : Bool := a.errors.isEmpty

def report (a : Analysis) (errors : List SemanticError) : Analysis :=
  { a with errors := a.errors ++ errors }

/-- Adds an item to a block; the first of two equal declarations stays. -/
def declare (block : Nat) (a : Analysis) (item : Item) : Analysis :=
  match a.table.insert? block item with
  | some table => { a with table }
  | none => a.report [⟨.duplicate item.name, item.position⟩]

/-- The type of a constant: that of its value, which has to be a literal or another constant. -/
def constType (t : Table) (block : Nat) (d : ConstDecl) : Checked Ty :=
  if Typing.isConstant t block d.value then Typing.typeOf t block d.value
  else do
    Checked.complain (.notLiteral d.name) d.value.position
    return .error

def declareConst (block : Nat) (a : Analysis) (d : ConstDecl) : Analysis :=
  let type := constType a.table block d
  declare block (a.report type.errors)
    { name := d.name, type := type.value, kind := .const, position := d.position }

def varItems (d : VarDecl) : List Item :=
  d.names.map fun name =>
    { name, type := ⟨.ofScalar d.type, d.periods⟩, kind := .var, position := d.position }

def paramItems (g : ParamGroup) : List Item :=
  g.names.map fun name =>
    { name, type := .ofScalar g.type, kind := .var, byReference := g.byReference,
      position := g.position }

/-- The parameters of a head, one for each name. -/
def params (h : Heading) : List Param :=
  h.groups.flatMap fun g => g.names.map fun _ => ⟨.ofScalar g.type, g.byReference⟩

def routineItem (h : Heading) : Item :=
  { name := h.name, type := (h.returns.map Ty.ofScalar).getD .void, kind := .routine,
    params := params h, position := h.position }

/-- The place for what a function returns; a procedure has none. -/
def resultItems (h : Heading) : List Item :=
  h.returns.toList.map fun type =>
    { name := h.name, type := .ofScalar type, kind := .result, position := h.position }

def declareConsts (block : Nat) (ds : List ConstDecl) (a : Analysis) : Analysis :=
  ds.foldl (declareConst block) a

def declareAll (block : Nat) (items : List Item) (a : Analysis) : Analysis :=
  items.foldl (declare block) a

/-- The function whose result the statements of a subprogram may set. -/
def functionOf (h : Heading) : Option Heading := if h.returns.isSome then some h else none

/-- Fills the block of a subprogram and checks its statements. -/
def subprogram (root : Nat) (a : Analysis) (s : Subprogram) : Analysis :=
  let (table, block) := a.table.createBlock s.heading.name (some root) s.heading.position
  let a := { a with table }
    |> declareAll block (s.heading.groups.flatMap paramItems)
    |> declareAll block (resultItems s.heading)
    |> declareConsts block s.body.consts
    |> declareAll block (s.body.vars.flatMap varItems)
  a.report (Check.statements ⟨a.table, block, functionOf s.heading⟩ s.body.statements).errors

/-- The declarations of the outermost block. -/
def outermost (p : Program) : Analysis × Nat :=
  let (table, root) := Table.createBlock {} p.name none p.position
  let a := { table }
    |> declareConsts root p.body.consts
    |> declareAll root (p.body.vars.flatMap varItems)
    |> declareAll root (p.subprograms.map fun s => routineItem s.heading)
  (a, root)

end Analysis

/-- Checks a program and collects its declarations. -/
def analyze (p : Program) : Analysis :=
  let (a, root) := Analysis.outermost p
  let a := p.subprograms.foldl (Analysis.subprogram root) a
  a.report (Check.statements ⟨a.table, root, none⟩ p.body.statements).errors

end MiniPascal
