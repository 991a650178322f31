import MiniPascal.Grammar.Input

/-!
Readers of phrases. A reader that fails leaves the input where it failed, because that is where
recovery starts.
-/

namespace MiniPascal

/-- A reader of one phrase. -/
abbrev Parse := EStateM Fault Input

namespace Parse

def kind : Parse Token.Kind := return (← get).kind

def position : Parse Position := return (← get).position

def advance : Parse Token := modifyGet fun i => (i.current, i.advance)

def expected {α : Type} (what : String) : Parse α := do throw ((← get).unexpected what)

/-- Takes the current token if it is of the given kind. -/
def accept (k : Token.Kind) : Parse Bool := do
  if (← kind) = k then
    let _ ← advance
    return true
  else return false

def expect (k : Token.Kind) (what : String) : Parse Token := do
  if (← kind) = k then advance else expected what

/-- A name, which stands for its lower case, and its place. -/
def identifier (what : String) : Parse (String × Position) := do
  let t ← expect .identifier what
  match t.payload with
  | some (.text name) => return (name, t.position)
  | _ => return (t.text.map Char.toLower, t.position)

/-- As many further items as there are separators. Each takes a token, so the number of tokens left
is enough as a bound. -/
def more {α : Type} (separator : Token.Kind) (item : Parse α) : Nat → Parse (List α)
  | 0 => return []
  | n + 1 => do
    if ← accept separator then
      let a ← item
      return a :: (← more separator item n)
    else return []

/-- Items with separators between them, at least one. -/
def separated {α : Type} (separator : Token.Kind) (first item : Parse α) : Parse (List α) := do
  let a ← first
  return a :: (← more separator item (← get).tokens.length)

def names (what : String) : Parse (List String) :=
  separated (.mark .comma) (Prod.fst <$> identifier what)
    (Prod.fst <$> identifier "identifier after ','")

end Parse

/-- What a reader that recovers has met: a fault, or the place where it went on after one. -/
inductive Note where
  | fault (error : SyntaxError)
  | resumed (position : Position)
  deriving DecidableEq, Repr

def Note.error? : Note → Option SyntaxError
  | fault e => some e
  | resumed _ => none

/-- The input with all that was noted so far. -/
structure Session where
  input : Input
  notes : List Note := []
  deriving DecidableEq, Repr

/-- A reader that recovers from faults in its parts, and still can fail itself. -/
abbrev Phrase := EStateM Fault Session

/-- A reader that recovers from all faults except input that is no token. -/
abbrev Recover := EStateM LexError Session

instance : MonadLift Parse Phrase where
  monadLift p := fun s =>
    match p s.input with
    | .ok a i => .ok a { s with input := i }
    | .error e i => .error e { s with input := i }

instance : MonadLift Recover Phrase where
  monadLift p := fun s =>
    match p s with
    | .ok a s' => .ok a s'
    | .error e s' => .error (.lexical e) s'

namespace Recover

def kind : Recover Token.Kind := return (← get).input.kind

def position : Recover Position := return (← get).input.position

def advance : Recover Unit := modify fun s => { s with input := s.input.advance }

def note (n : Note) : Recover Unit := modify fun s => { s with notes := s.notes ++ [n] }

def record : Fault → Recover Unit
  | .lexical e => throw e
  | .phrase e => note (.fault e)

/-- Notes that the current token stands where something else has to. -/
def recordExpected (what : String) : Recover Unit := do
  record ((← get).input.unexpected what)

/-- The result of a reader, or the fault that it ended with. -/
def attempt {α : Type} (p : Phrase α) : Recover (Except Fault α) := fun s =>
  match p s with
  | .ok a s' => .ok (.ok a) s'
  | .error e s' => .ok (.error e) s'

def accept (k : Token.Kind) : Recover Bool := do
  if (← kind) = k then
    advance
    return true
  else return false

/-- Takes a token of the given kind, or notes that it is missing. -/
def demand (k : Token.Kind) (what : String) : Recover Bool := do
  if ← accept k then return true
  else
    recordExpected what
    return false

/-- Notes the place where reading goes on, unless it cannot. -/
def resume : Recover Unit := do
  let i := (← get).input
  if i.kind = .invalid then throw (.ofToken i.current)
  else note (.resumed i.position)

/-- Skips to the first of the given kinds. -/
def skipTo (stops : List Token.Kind) : Recover Unit := do
  modify fun s => { s with input := s.input.skipTo stops }
  resume

/-- Runs a reader; after a fault, skips to the first of the given kinds and past a semicolon. -/
def orSkip {α : Type} (p : Phrase α) (stops : List Token.Kind) : Recover (Option α) := do
  match ← attempt p with
  | .ok a => return some a
  | .error e =>
    record e
    skipTo stops
    let _ ← accept (.mark .semicolon)
    return none

end Recover

end MiniPascal
