import MiniPascal.Tree.Text
import MiniPascal.Typing

/-!
The checking of statements against the names that are declared. It leaves those as they are.
-/

namespace MiniPascal.Check

open Scope Checked Typing

/-- Where statements stand: their block, and the function whose result they may set. -/
structure Context where
  table : Table
  block : Nat
  function : Option Heading := none

/-- The function around, if it has the given name. -/
def Context.functionNamed? (c : Context) (name : String) : Option ScalarType := do
  let heading ← c.function
  if heading.name = name then heading.returns else none

/-- The type of what an assignment sets. -/
def targetType (c : Context) (p : Position) (name : String) (indices : List Expr) : Checked Ty :=
  match c.functionNamed? name, indices with
  | some type, [] => pure (.ofScalar type)
  | _, _ =>
    match c.table.findData? c.block name with
    | some item =>
      if item.kind = .const then do
        complain (.constantTarget name) p
        return .error
      else do
        let sound ← indicesSound c.table c.block indices
        element item.type name indices.length sound p
    | none => notPlace c.table c.block name p

def assignment (c : Context) (p : Position) (name : String) (indices : List Expr) (value : Expr) :
    Checked Unit := do
  let target ← targetType c p name indices
  let type ← typeOf c.table c.block value
  if target.isError || type.isError then return
  else if !target.isScalar then complain (.wholeArray name) p
  else if !Ty.assignable target type then complain (.notAssignable type name target) p

/-- Output takes scalars and strings. -/
def written (type : Ty) (e : Expr) : Checked Unit :=
  if !type.isError && (!type.isScalar || type.base = .void) then
    complain (.notWritable type) e.position
  else pure ()

/-- Input takes variables of a scalar type. -/
def read (c : Context) (b : Builtin) (type : Ty) (e : Expr) : Checked Unit :=
  if type.isError then pure ()
  else if !isVariable c.table c.block e then complain (.notAccepted b.text e.text) e.position
  else if !type.isScalar then complain (.notReadable type) e.position
  else pure ()

def builtinArguments (c : Context) (b : Builtin) : List Expr → Checked Unit
  | [] => pure ()
  | e :: es => do
    let type ← typeOf c.table c.block e
    if b.isOutput then written type e else read c b type e
    builtinArguments c b es

def call (c : Context) (p : Position) (name : String) (arguments : List Expr) : Checked Unit :=
  match Builtin.visible? c.table c.block name with
  | some b => builtinArguments c b arguments
  | none => do
    let args ← argumentsOf c.table c.block arguments
    if args.any fun a => a.type.isError then return
    else
      match c.table.findRoutine c.block name args with
      | .ok _ => return
      | .error e => complain (.ofLookup name args e) p

def condition (c : Context) (statement : Keyword) (e : Expr) : Checked Unit := do
  let type ← typeOf c.table c.block e
  if !type.isError && !type.isA .bool then complain (.conditionType statement type) e.position

def bound (c : Context) (e : Expr) : Checked Unit := do
  let type ← typeOf c.table c.block e
  if !type.isError && !type.isA .int then complain (.boundType type) e.position

def counter (c : Context) (p : Position) (name : String) : Checked Unit :=
  match c.table.findData? c.block name with
  | some item =>
    if item.kind = .var ∧ item.type.isA .int then pure ()
    else complain (.loopVariable name item.type) p
  | none => complain (.undeclared name) p

mutual

def statement (c : Context) : Statement → Checked Unit
  | .assign p name indices value => assignment c p name indices value
  | .call p name arguments => call c p name arguments
  | .compound _ parts => statements c parts
  | .branch _ e onTrue onFalse => do
    condition c .ifKw e
    statement c onTrue
    match onFalse with
    | some s => statement c s
    | none => pure ()
  | .count p name first last _ body => do
    counter c p name
    bound c first
    bound c last
    statement c body
  | .loop _ e body => do
    condition c .whileKw e
    statement c body
  | .exit _ => pure ()

def statements (c : Context) : List Statement → Checked Unit
  | [] => pure ()
  | s :: ss => do
    statement c s
    statements c ss

end

end MiniPascal.Check
