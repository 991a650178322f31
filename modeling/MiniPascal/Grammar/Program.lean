import MiniPascal.Grammar.Block

/-!
Whole programs. Reading notes every fault and still gives a tree; only input that is no token leaves
it without one.
-/

namespace MiniPascal

namespace Recover

/-- The statements between `begin` and `end`, and where they begin. -/
def block : Recover (List Statement × Position) := do
  let p ← position
  let _ ← demand (.keyword .beginKw) "'begin'"
  let parts ← statements Phrase.statement
  let _ ← demand (.keyword .endKw) "'end'"
  return (parts, p)

/-- The parts of a subprogram after its head. -/
def subprogramBody : Recover Body := do
  let consts ← constSection
  let vars ← varSection
  let (parts, p) ← block
  return ⟨consts, vars, parts, p⟩

/-- A subprogram and the semicolon after it. One with a head that cannot be read is dropped after
its body was read. -/
def subprogram : Recover (Option Subprogram) := do
  let heading ← orSkip Parse.heading
    [.mark .semicolon, .keyword .constKw, .keyword .varKw, .keyword .beginKw]
  let body ← subprogramBody
  let _ ← demand (.mark .semicolon) "';' after subprogram"
  return heading.map fun heading => ⟨heading, body⟩

/-- Subprograms as long as there are heads. Each takes a token, so the number of tokens left is
enough as a bound. -/
def subprogramsWithin : Nat → Recover (List Subprogram)
  | 0 => return []
  | n + 1 => do
    match ← kind with
    | .keyword .procedureKw | .keyword .functionKw =>
      match ← subprogram with
      | some s => return s :: (← subprogramsWithin n)
      | none => subprogramsWithin n
    | _ => return []

end Recover

namespace Parse

/-- The name, the parameters and the place of a program. -/
def programHead : Parse (String × List String × Position) := do
  let p ← position
  let _ ← expect (.keyword .programKw) "'program'"
  let (name, _) ← identifier "program name"
  let parameters ←
    if ← accept (.mark .openParen) then
      let parameters ← names "identifier"
      let _ ← expect (.mark .closeParen) "')' after program parameters"
      pure parameters
    else pure []
  let _ ← expect (.mark .semicolon) "';' after program head"
  return (name, parameters, p)

end Parse

namespace Recover

/-- A head that cannot be read leaves a program without a name at the place of the fault. -/
def programHead : Recover (String × List String × Position) := do
  match ← attempt Parse.programHead with
  | .ok head => return head
  | .error e =>
    let p ← position
    record e
    skipTo [.mark .semicolon, .keyword .constKw, .keyword .varKw, .keyword .procedureKw,
      .keyword .functionKw, .keyword .beginKw]
    let _ ← accept (.mark .semicolon)
    return ("", [], p)

def program : Recover Program := do
  let (name, parameters, p) ← programHead
  let consts ← constSection
  let vars ← varSection
  let subprograms ← subprogramsWithin (← get).input.tokens.length
  let (parts, q) ← block
  if ← demand (.mark .dot) "'.' after program body" then
    if (← kind) ≠ .endOfText then recordExpected "end of file after '.'"
  return ⟨name, parameters, p, subprograms, ⟨consts, vars, parts, q⟩⟩

end Recover

/-- How the reading of a program went. -/
structure Reading where
  program : Except LexError Program
  notes : List Note

def Reading.errors (r : Reading) : List SyntaxError := r.notes.filterMap Note.error?

/-- Reads a program from any list of tokens. -/
def readProgram (tokens : List Token) : Reading :=
  match Recover.program ⟨.ofTokens tokens, []⟩ with
  | .ok program s => ⟨.ok program, s.notes⟩
  | .error e s => ⟨.error e, s.notes⟩

/-- The tree of a list of tokens and the faults in it. -/
def parse (tokens : List Token) : Except LexError (Program × List SyntaxError) :=
  let reading := readProgram tokens
  return (← reading.program, reading.errors)

end MiniPascal
