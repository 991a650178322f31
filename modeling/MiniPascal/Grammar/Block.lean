import MiniPascal.Grammar.Section

/-!
Statements. A statement that cannot be read is noted and skipped up to the next semicolon, `end` or
token that clearly begins a statement.
-/

namespace MiniPascal

/-- Whether the current token clearly begins a statement. A name does only before an assignment
mark or an opening bracket. -/
def Input.beginsStatement (i : Input) : Bool :=
  match i.kind with
  | .keyword .beginKw | .keyword .ifKw | .keyword .forKw | .keyword .whileKw | .keyword .exitKw =>
    true
  | .identifier =>
    i.nextKind == .mark .assign || i.nextKind == .mark .openBracket
      || i.nextKind == .mark .openParen
  | _ => false

namespace Recover

/-- The kinds at which the skipping of a statement pauses. -/
def statementStops : List Token.Kind :=
  [.mark .semicolon, .keyword .endKw, .keyword .beginKw, .keyword .ifKw, .keyword .forKw,
   .keyword .whileKw, .keyword .exitKw, .identifier]

/-- Skips to the next semicolon and past it, or to `end` or a token that begins a statement. A name
that begins none is a pause. Each pause but the last takes a token, so one more than the number of
tokens left is enough as a bound. -/
def skipStatementWithin : Nat → Recover Unit
  | 0 => return
  | n + 1 => do
    skipTo statementStops
    let i := (← get).input
    if i.kind = .mark .semicolon then advance
    else if i.kind = .identifier ∧ ¬ i.beginsStatement then
      advance
      skipStatementWithin n

def skipStatement : Recover Unit := do skipStatementWithin ((← get).input.tokens.length + 1)

/-- What has to follow a statement that was read: a semicolon, or the end of the sequence. -/
def afterStatement : Recover Unit := do
  if ← accept (.mark .semicolon) then return
  else
    let i := (← get).input
    if i.kind = .keyword .endKw ∨ i.kind = .endOfText then return
    else
      recordExpected "';' after statement"
      if !i.beginsStatement then skipStatement

/-- What follows a statement that could not be read. At least one token is skipped, so that reading
gets on, but never an `end`. -/
def afterFault (e : Fault) (before : Nat) : Recover Unit := do
  record e
  skipStatement
  let i := (← get).input
  if i.tokens.length = before ∧ i.kind ≠ .keyword .endKw then advance

/-- Statements up to `end` or the end of the text. Each takes a token, so one more than the number
of tokens left is enough as a bound. -/
def statementsWithin (statement : Phrase Statement) : Nat → Recover (List Statement)
  | 0 => return []
  | n + 1 => do
    match ← kind with
    | .keyword .endKw | .endOfText => return []
    | .mark .semicolon =>
      advance
      statementsWithin statement n
    | _ =>
      let before := (← get).input.tokens.length
      match ← attempt statement with
      | .ok s =>
        afterStatement
        return s :: (← statementsWithin statement n)
      | .error e =>
        afterFault e before
        statementsWithin statement n

def statements (statement : Phrase Statement) : Recover (List Statement) := do
  statementsWithin statement ((← get).input.tokens.length + 1)

end Recover

namespace Parse

/-- An assignment or a call: what follows the name decides. -/
def assignmentOrCall : Parse Statement := do
  let (name, p) ← identifier "identifier"
  match ← kind with
  | .mark .openBracket =>
    let indices ← indexList expression
    let _ ← expect (.mark .assign) "':=' in assignment"
    return .assign p name indices (← expression)
  | .mark .assign =>
    let _ ← advance
    return .assign p name [] (← expression)
  | .mark .openParen => return .call p name (← argumentList expression)
  | .mark .equal | .mark .colon => expected "':=' in assignment"
  | _ => return .call p name []

def direction : Parse Direction := do
  match ← kind with
  | .keyword .toKw => let _ ← advance; return .up
  | .keyword .downtoKw => let _ ← advance; return .down
  | _ => expected "'to' or 'downto'"

end Parse

namespace Phrase

def kind : Phrase Token.Kind := return (← get).input.kind

def position : Phrase Position := return (← get).input.position

/-- A statement nested at most as deep as the bound. Every level of nesting takes a token. -/
def statementWithin : Nat → Phrase Statement
  | 0 => (Parse.expected "statement" : Parse Statement)
  | n + 1 => do
    let p ← position
    match ← kind with
    | .identifier => Parse.assignmentOrCall
    | .keyword .beginKw =>
      let _ ← Parse.advance
      let parts ← Recover.statements (statementWithin n)
      let _ ← Parse.expect (.keyword .endKw) "'end' to close 'begin'"
      return .compound p parts
    | .keyword .ifKw =>
      let _ ← Parse.advance
      let condition ← Parse.expression
      let _ ← Parse.expect (.keyword .thenKw) "'then' after condition"
      let onTrue ← statementWithin n
      if ← Parse.accept (.keyword .elseKw) then
        return .branch p condition onTrue (some (← statementWithin n))
      else return .branch p condition onTrue none
    | .keyword .forKw =>
      let _ ← Parse.advance
      let (counter, _) ← Parse.identifier "loop variable"
      let _ ← Parse.expect (.mark .assign) "':=' after loop variable"
      let first ← Parse.expression
      let direction ← Parse.direction
      let last ← Parse.expression
      let _ ← Parse.expect (.keyword .doKw) "'do' after loop bounds"
      return .count p counter first last direction (← statementWithin n)
    | .keyword .whileKw =>
      let _ ← Parse.advance
      let condition ← Parse.expression
      let _ ← Parse.expect (.keyword .doKw) "'do' after condition"
      return .loop p condition (← statementWithin n)
    | .keyword .exitKw =>
      let _ ← Parse.advance
      return .exit p
    | .mark .semicolon | .keyword .endKw | .keyword .elseKw => return .compound p []
    | _ => (Parse.expected "statement" : Parse Statement)

def statement : Phrase Statement := do
  statementWithin ((← get).input.tokens.length + 1)

end Phrase

end MiniPascal
