import MiniPascal.Grammar.Expr

/-!
Declarations of constants, variables and parameters. A declaration that cannot be read is noted and
skipped up to its semicolon, so one fault costs one declaration.
-/

namespace MiniPascal

namespace Parse

def scalarType : Parse ScalarType := do
  match ← kind with
  | .keyword .integerKw => let _ ← advance; return .integer
  | .keyword .realKw => let _ ← advance; return .real
  | .keyword .booleanKw => let _ ← advance; return .boolean
  | .keyword .charKw => let _ ← advance; return .char
  | _ => expected "type name"

def bound : Parse Int64 := do
  let negative ← accept (.mark .minus)
  let t ← expect .integer "integer bound"
  let value := match t.payload with
    | some (.integer v) => v
    | _ => 0
  return if negative then -value else value

/-- The bounds of one dimension, which are in order and count their elements in a word. -/
def period : Parse Period := do
  let p ← position
  let lower ← bound
  let _ ← expect (.mark .dotDot) "'..' in array bounds"
  let upper ← bound
  if upper < lower then throw (.phrase ⟨.boundsReversed lower upper, p⟩)
  else if (Period.size? ⟨lower, upper⟩).isNone then
    throw (.phrase ⟨.boundsTooLarge lower upper, p⟩)
  else return ⟨lower, upper⟩

/-- The element type and the dimensions of a type. -/
def type : Parse (ScalarType × List Period) := do
  if ← accept (.keyword .arrayKw) then
    let _ ← expect (.mark .openBracket) "'[' after 'array'"
    let periods ← separated (.mark .comma) period period
    let _ ← expect (.mark .closeBracket) "']' after array bounds"
    let _ ← expect (.keyword .ofKw) "'of' after array bounds"
    return (← scalarType, periods)
  else return (← scalarType, [])

def constDecl : Parse ConstDecl := do
  let (name, p) ← identifier "constant name"
  let _ ← expect (.mark .equal) "'=' in constant declaration"
  let value ← operand
  let _ ← expect (.mark .semicolon) "';' after constant"
  return ⟨name, value, p⟩

def varDecl : Parse VarDecl := do
  let p ← position
  let names ← names "variable name"
  let _ ← expect (.mark .colon) "':' after variable names"
  let (type, periods) ← type
  let _ ← expect (.mark .semicolon) "';' after variable declaration"
  return ⟨names, type, periods, p⟩

def paramGroup : Parse ParamGroup := do
  let p ← position
  let byReference ← accept (.keyword .varKw)
  let names ← names "parameter name"
  let _ ← expect (.mark .colon) "':' after parameter names"
  return ⟨byReference, names, ← scalarType, p⟩

/-- The parameters in parentheses, of which there may be none. -/
def paramGroups : Parse (List ParamGroup) := do
  if ← accept (.mark .openParen) then
    let groups ←
      if (← kind) = .mark .closeParen then pure []
      else separated (.mark .semicolon) paramGroup paramGroup
    let _ ← expect (.mark .closeParen) "')' after parameters"
    return groups
  else return []

/-- A function names the type that it returns, a procedure has none. -/
def returnType (isFunction : Bool) : Parse (Option ScalarType) := do
  if isFunction then
    let _ ← expect (.mark .colon) "':' before return type"
    return some (← scalarType)
  else return none

def heading : Parse Heading := do
  let p ← position
  let isFunction ← match ← kind with
    | .keyword .functionKw => pure true
    | .keyword .procedureKw => pure false
    | _ => expected "'procedure' or 'function'"
  let _ ← advance
  let (name, _) ← identifier "subprogram name"
  let groups ← paramGroups
  let returns ← returnType isFunction
  let _ ← expect (.mark .semicolon) "';' after subprogram head"
  return ⟨name, groups, returns, p⟩

end Parse

namespace Recover

/-- Declarations as long as there are names. Each takes a token, so the number of tokens left is
enough as a bound. -/
def declarations {α : Type} (decl : Parse α) (stops : List Token.Kind) : Nat → Recover (List α)
  | 0 => return []
  | n + 1 => do
    if (← kind) = .identifier then
      match ← orSkip decl stops with
      | some d => return d :: (← declarations decl stops n)
      | none => declarations decl stops n
    else return []

/-- The declarations after a keyword, or none without it. -/
def declarationsAfter {α : Type} (keyword : Keyword) (decl : Parse α) (stops : List Token.Kind) :
    Recover (List α) := do
  if ← accept (.keyword keyword) then
    if (← kind) ≠ .identifier then
      recordExpected ("identifier after '" ++ keyword.text ++ "'")
    declarations decl stops (← get).input.tokens.length
  else return []

def constSection : Recover (List ConstDecl) :=
  declarationsAfter .constKw Parse.constDecl
    [.mark .semicolon, .keyword .varKw, .keyword .procedureKw, .keyword .functionKw,
     .keyword .beginKw]

def varSection : Recover (List VarDecl) :=
  declarationsAfter .varKw Parse.varDecl
    [.mark .semicolon, .keyword .procedureKw, .keyword .functionKw, .keyword .beginKw]

end Recover

end MiniPascal
