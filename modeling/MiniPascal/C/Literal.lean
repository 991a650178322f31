/-!
Names, characters and text as C writes them. Text becomes printable ASCII: what is not printable is
written as octal escapes of three digits, byte by byte.
-/

namespace MiniPascal.C

/-- The words that a name cannot be: keywords, and the library names that programs here use. -/
def reserved : List String :=
  ["auto", "break", "case", "char", "const", "continue", "default", "do", "double", "else", "enum",
   "extern", "float", "for", "goto", "if", "inline", "int", "long", "register", "restrict",
   "return", "short", "signed", "sizeof", "static", "struct", "switch", "typedef", "union",
   "unsigned", "void", "volatile", "while", "main", "printf", "scanf", "exit"]

/-- A name that is no reserved word. -/
def identifier (name : String) : String := if reserved.contains name then name ++ "_" else name

def octalDigit (n : Nat) : Char := Char.ofNat ('0'.toNat + n % 8)

/-- A byte as a backslash and three octal digits. -/
def octal (n : Nat) : List Char :=
  ['\\', octalDigit (n / 64), octalDigit (n / 8), octalDigit n]

def isControl (c : Char) : Bool := c.toNat < 32 || c.toNat == 127

/-- A character of a text between double quotes. -/
def escape (c : Char) : List Char :=
  if c = '"' then ['\\', '"']
  else if c = '\\' then ['\\', '\\']
  else if c = '\n' then ['\\', 'n']
  else if c = '\t' then ['\\', 't']
  else if c = '\r' then ['\\', 'r']
  else if isControl c then octal c.toNat
  else if c.toNat < 128 then [c]
  else (String.utf8EncodeChar c).flatMap fun byte => octal byte.toNat

def stringLiteral (text : String) : String :=
  "\"" ++ String.ofList (text.toList.flatMap escape) ++ "\""

/-- A character between single quotes. -/
def escapeQuoted (c : Char) : List Char :=
  if c = '\x27' then ['\\', '\x27']
  else if c = '\\' then ['\\', '\\']
  else if c = '\n' then ['\\', 'n']
  else if c = '\t' then ['\\', 't']
  else if isControl c then octal c.toNat
  else [c]

def charLiteral (c : Char) : String := "'" ++ String.ofList (escapeQuoted c) ++ "'"

end MiniPascal.C
