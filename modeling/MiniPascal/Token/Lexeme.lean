import MiniPascal.Token.Basic
import MiniPascal.Decimal.Basic
import MiniPascal.Integer

/-!
The spelling of single tokens: numerals, quoted text, words and marks. Each reader takes the longest
spelling at the head of a text and hands back the rest.
-/

namespace MiniPascal

/-- The character around quoted text. -/
def quote : Char := '\x27'

/-- An unsigned number as it is spelled. Without digits after the point there is no point. -/
structure Numeral where
  whole : List Char
  fraction : List Char
  scale : Option (List Char × List Char)
  deriving DecidableEq, Repr

namespace Numeral

/-- A point belongs to the number only when a digit follows it. -/
def readFraction : List Char → List Char × List Char
  | '.' :: d :: rest =>
    if d.isDigit then ((d :: rest).takeWhile Char.isDigit, (d :: rest).dropWhile Char.isDigit)
    else ([], '.' :: d :: rest)
  | cs => ([], cs)

def readSign : List Char → List Char × List Char
  | '+' :: rest => (['+'], rest)
  | '-' :: rest => (['-'], rest)
  | cs => ([], cs)

/-- The sign and the digits after an exponent letter. -/
def readScale : List Char → Option (List Char × List Char) × List Char
  | [] => (none, [])
  | c :: rest =>
    if c = 'e' ∨ c = 'E' then
      let (sign, rest) := readSign rest
      (some (sign, rest.takeWhile Char.isDigit), rest.dropWhile Char.isDigit)
    else (none, c :: rest)

def read (cs : List Char) : Numeral × List Char :=
  let (fraction, rest) := readFraction (cs.dropWhile Char.isDigit)
  let (scale, rest) := readScale rest
  (⟨cs.takeWhile Char.isDigit, fraction, scale⟩, rest)

/-- The spelling, with a small letter before the exponent. -/
def text (n : Numeral) : List Char :=
  let point := if n.fraction.isEmpty then [] else '.' :: n.fraction
  let scale := match n.scale with
    | some (sign, digits) => 'e' :: (sign ++ digits)
    | none => []
  n.whole ++ point ++ scale

def isReal (n : Numeral) : Bool := !n.fraction.isEmpty || n.scale.isSome

/-- The power of ten that the exponent names. -/
def exponent (n : Numeral) : Int :=
  match n.scale with
  | some (sign, digits) =>
    if sign = ['-'] then -(Decimal.ofDigits digits : Int) else Decimal.ofDigits digits
  | none => 0

def toReal (n : Numeral) : Float :=
  Decimal.toFloat ⟨Decimal.ofDigits (n.whole ++ n.fraction), n.exponent - n.fraction.length⟩

/-- An exponent letter without digits after it, or an integer of more than 63 bits, is malformed. -/
def value? (n : Numeral) : Option Token.Payload :=
  if n.isReal then
    match n.scale with
    | some (_, []) => none
    | _ => some (.real n.toReal)
  else (Integer.ofInt? (Decimal.ofDigits n.whole)).map .integer

end Numeral

/-- Quoted text after its opening quote: what it stands for, how it is spelled, and the text after
its closing quote. A quote inside is written twice, and a line feed leaves it unclosed. -/
structure Quoted where
  value : List Char
  text : List Char
  rest? : Option (List Char)
  deriving DecidableEq, Repr

def Quoted.read : List Char → Quoted
  | [] => ⟨[], [], none⟩
  | c :: cs =>
    if c = '\n' then ⟨[], [], none⟩
    else if c = quote then
      match cs with
      | d :: ds =>
        if d = quote then
          let q := Quoted.read ds
          ⟨quote :: q.value, quote :: quote :: q.text, q.rest?⟩
        else ⟨[], [quote], some (d :: ds)⟩
      | [] => ⟨[], [quote], some []⟩
    else
      let q := Quoted.read cs
      ⟨c :: q.value, c :: q.text, q.rest?⟩

def isNameStart (c : Char) : Bool := c.isAlpha || c == '_'

def isNameChar (c : Char) : Bool := c.isAlphanum || c == '_'

/-- The longest mark that starts with the given character. -/
def Mark.read? : Char → List Char → Option (Mark × List Char)
  | '+', cs => some (plus, cs)
  | '-', cs => some (minus, cs)
  | '*', cs => some (star, cs)
  | '/', cs => some (slash, cs)
  | '=', cs => some (equal, cs)
  | '(', cs => some (openParen, cs)
  | ')', cs => some (closeParen, cs)
  | '[', cs => some (openBracket, cs)
  | ']', cs => some (closeBracket, cs)
  | ',', cs => some (comma, cs)
  | ';', cs => some (semicolon, cs)
  | '<', '=' :: cs => some (lessEqual, cs)
  | '<', '>' :: cs => some (notEqual, cs)
  | '<', cs => some (less, cs)
  | '>', '=' :: cs => some (greaterEqual, cs)
  | '>', cs => some (greater, cs)
  | ':', '=' :: cs => some (assign, cs)
  | ':', cs => some (colon, cs)
  | '.', '.' :: cs => some (dotDot, cs)
  | '.', cs => some (dot, cs)
  | _, _ => none

/-- A token without its place, and the text after it. -/
structure Lexeme where
  kind : Token.Kind
  text : List Char
  payload : Option Token.Payload
  rest : List Char

namespace Lexeme

def invalid (fault : LexFault) (text rest : List Char) : Lexeme :=
  ⟨.invalid, text, some (.fault fault), rest⟩

def readQuoted (cs : List Char) : Lexeme :=
  let q := Quoted.read cs
  match q.rest? with
  | some rest => ⟨.quoted, quote :: q.text, some (.text (String.ofList q.value)), rest⟩
  | none => invalid .unterminatedString (quote :: q.text) []

def readNumber (cs : List Char) : Lexeme :=
  let (n, rest) := Numeral.read cs
  match n.value? with
  | some (.real x) => ⟨.real, n.text, some (.real x), rest⟩
  | some value => ⟨.integer, n.text, some value, rest⟩
  | none => invalid .malformedNumber n.text rest

/-- Words are keywords or names whatever their case; a name stands for its lower case. -/
def readWord (cs : List Char) : Lexeme :=
  let word := cs.takeWhile isNameChar
  let rest := cs.dropWhile isNameChar
  let name := String.ofList (word.map Char.toLower)
  match Keyword.ofName? name with
  | some k => ⟨.keyword k, word, none, rest⟩
  | none => ⟨.identifier, word, some (.text name), rest⟩

/-- The token that starts with `c`, when the text goes on with `cs`. -/
def read (c : Char) (cs : List Char) : Lexeme :=
  if c = quote then readQuoted cs
  else if c.isDigit then readNumber (c :: cs)
  else if isNameStart c then readWord (c :: cs)
  else
    match Mark.read? c cs with
    | some (m, rest) => ⟨.mark m, m.text.toList, none, rest⟩
    | none => invalid .unexpectedCharacter [c] cs

end Lexeme

end MiniPascal
