import MiniPascal.Token.Basic
import MiniPascal.Tree.Basic

/-!
What a reader of tokens has before it, and the ways in which reading goes wrong.
-/

namespace MiniPascal

/-- The tokens that are left, and the token that ends the text. Reading never gets past the latter. -/
structure Input where
  tokens : List Token
  last : Token
  deriving DecidableEq, Repr

namespace Input

/-- A list of tokens up to the first one that ends a text. A list without such a token ends with its
last token's place. -/
def ofTokens (tokens : List Token) : Input where
  tokens := tokens.takeWhile fun t => !t.kind.isLast
  last :=
    match tokens.find? fun t => t.kind.isLast with
    | some t => t
    | none => ⟨.endOfText, "", (tokens.getLast?.map Token.position).getD .start, none⟩

def current (i : Input) : Token := i.tokens.headD i.last

def kind (i : Input) : Token.Kind := i.current.kind

def position (i : Input) : Position := i.current.position

/-- The kind of the token after the current one. -/
def nextKind (i : Input) : Token.Kind := (i.tokens.tail.headD i.last).kind

def advance (i : Input) : Input := { i with tokens := i.tokens.tail }

/-- The first of the given kinds, or the end of the text. -/
def skipTo (i : Input) (stops : List Token.Kind) : Input :=
  { i with tokens := i.tokens.dropWhile fun t => !stops.contains t.kind }

end Input

/-- A phrase that does not follow the grammar. -/
inductive SyntaxFault where
  | expected (what : String) (found : Token)
  | malformedNumber (text : String)
  | boundsReversed (lower upper : Int64)
  | boundsTooLarge (lower upper : Int64)
  deriving DecidableEq, Repr

structure SyntaxError where
  fault : SyntaxFault
  position : Position
  deriving DecidableEq, Repr

namespace SyntaxError

def message (e : SyntaxError) : String :=
  match e.fault with
  | .expected what found => "Expected " ++ what ++ ", found " ++ found.phrase
  | .malformedNumber text => "Malformed number '" ++ text ++ "'"
  | .boundsReversed lower upper =>
    "Array lower bound " ++ Integer.text lower ++ " exceeds upper bound " ++ Integer.text upper
  | .boundsTooLarge lower upper =>
    "Array bounds " ++ Integer.text lower ++ ".." ++ Integer.text upper ++ " are too large"

def text (e : SyntaxError) : String :=
  "Syntax error at " ++ e.position.phrase ++ ": " ++ e.message

end SyntaxError

/-- Why a phrase could not be read. Input that is no token stops all reading; a phrase that does not
follow the grammar can be skipped. -/
inductive Fault where
  | lexical (error : LexError)
  | phrase (error : SyntaxError)
  deriving DecidableEq, Repr

/-- The fault of finding the current token where something else has to stand. -/
def Input.unexpected (i : Input) (what : String) : Fault :=
  if i.kind = .invalid then .lexical (.ofToken i.current)
  else .phrase ⟨.expected what i.current, i.position⟩

end MiniPascal
