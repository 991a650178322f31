import MiniPascal.Position

/-!
The tokens of a source text: reserved words, marks, names and literals, and the two tokens that end
a text, one for its end and one for input that is no token.
-/

namespace MiniPascal

inductive Keyword where
  | programKw | constKw | varKw | procedureKw | functionKw | beginKw | endKw
  | ifKw | thenKw | elseKw | forKw | toKw | downtoKw | doKw | whileKw | exitKw
  | arrayKw | ofKw | integerKw | realKw | booleanKw | charKw
  | notKw | andKw | orKw | divKw | modKw | trueKw | falseKw
  deriving DecidableEq, Repr

namespace Keyword

def text : Keyword → String
  | programKw => "program" | constKw => "const" | varKw => "var"
  | procedureKw => "procedure" | functionKw => "function" | beginKw => "begin" | endKw => "end"
  | ifKw => "if" | thenKw => "then" | elseKw => "else" | forKw => "for" | toKw => "to"
  | downtoKw => "downto" | doKw => "do" | whileKw => "while" | exitKw => "exit"
  | arrayKw => "array" | ofKw => "of" | integerKw => "integer" | realKw => "real"
  | booleanKw => "boolean" | charKw => "char"
  | notKw => "not" | andKw => "and" | orKw => "or" | divKw => "div" | modKw => "mod"
  | trueKw => "true" | falseKw => "false"

def all : List Keyword :=
  [programKw, constKw, varKw, procedureKw, functionKw, beginKw, endKw, ifKw, thenKw, elseKw, forKw,
   toKw, downtoKw, doKw, whileKw, exitKw, arrayKw, ofKw, integerKw, realKw, booleanKw, charKw,
   notKw, andKw, orKw, divKw, modKw, trueKw, falseKw]

/-- The keyword of a name in lower case. -/
def ofName? (name : String) : Option Keyword := all.find? fun k => k.text == name

end Keyword

/-- Operators and separators that are not words. -/
inductive Mark where
  | plus | minus | star | slash
  | equal | notEqual | less | lessEqual | greater | greaterEqual
  | assign | openParen | closeParen | openBracket | closeBracket
  | dot | dotDot | comma | colon | semicolon
  deriving DecidableEq, Repr

def Mark.text : Mark → String
  | plus => "+" | minus => "-" | star => "*" | slash => "/"
  | equal => "=" | notEqual => "<>" | less => "<" | lessEqual => "<=" | greater => ">"
  | greaterEqual => ">=" | assign => ":=" | openParen => "(" | closeParen => ")"
  | openBracket => "[" | closeBracket => "]" | dot => "." | dotDot => ".." | comma => ","
  | colon => ":" | semicolon => ";"

/-- Why some input is no token. -/
inductive LexFault where
  | unexpectedCharacter | unterminatedString | unterminatedComment | malformedNumber
  deriving DecidableEq, Repr

def LexFault.message : LexFault → String
  | unexpectedCharacter => "unexpected character"
  | unterminatedString => "unterminated string literal"
  | unterminatedComment => "unterminated comment"
  | malformedNumber => "malformed number"

/-- The faults by number; a number without a fault means an unexpected character. -/
def LexFault.ofNumber (n : Nat) : LexFault :=
  [unexpectedCharacter, unterminatedString, unterminatedComment, malformedNumber].getD n
    unexpectedCharacter

namespace Token

inductive Kind where
  | keyword (word : Keyword)
  | mark (mark : Mark)
  | identifier | integer | real | quoted
  | invalid | endOfText
  deriving DecidableEq, Repr

/-- What a token stands for beyond its kind. -/
inductive Payload where
  | integer (value : Int64)
  | real (value : Float)
  | text (value : String)
  | fault (fault : LexFault)
  deriving DecidableEq, Repr

end Token

structure Token where
  kind : Token.Kind
  text : String
  position : Position
  payload : Option Token.Payload := none
  deriving DecidableEq, Repr

namespace Token

/-- The two kinds that end a text. -/
def Kind.isLast (k : Kind) : Bool := k == .invalid || k == .endOfText

/-- How a token is named in "found ..." messages. -/
def phrase (t : Token) : String :=
  match t.kind with
  | .keyword k => "'" ++ k.text ++ "'"
  | .mark m => "'" ++ m.text ++ "'"
  | .identifier => "identifier '" ++ t.text ++ "'"
  | .integer | .real => "number '" ++ t.text ++ "'"
  | .quoted => "string " ++ t.text
  | .invalid => "invalid input"
  | .endOfText => "end of file"

end Token

/-- Input that is no token, with what was read of it. -/
structure LexError where
  fault : LexFault
  text : String
  position : Position
  deriving DecidableEq, Repr

namespace LexError

def ofToken (t : Token) : LexError :=
  match t.payload with
  | some (.fault f) => ⟨f, t.text, t.position⟩
  | _ => ⟨.unexpectedCharacter, t.text, t.position⟩

def cause (e : LexError) : String :=
  if e.text.isEmpty then e.fault.message else e.fault.message ++ ": " ++ e.text

def message (e : LexError) : String :=
  "Lexical error at " ++ e.position.phrase ++ ": " ++ e.cause

end LexError

end MiniPascal
