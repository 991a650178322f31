/-!
Places in a source text. Lines and columns count from one, a column counts characters, and only a
line feed begins a new line.
-/

namespace MiniPascal

structure Position where
  line : Nat
  column : Nat
  deriving DecidableEq, Repr, Inhabited

namespace Position

def start : Position := ⟨1, 1⟩

/-- The place right after `c`, where `c` itself stands at `p`. -/
def next (p : Position) (c : Char) : Position :=
  if c = '\n' then ⟨p.line + 1, 1⟩ else ⟨p.line, p.column + 1⟩

/-- The place after `n` characters that stay on the line of `p`. -/
def right (p : Position) (n : Nat) : Position := ⟨p.line, p.column + n⟩

/-- Reading order: by line, then by column. -/
def le (p q : Position) : Bool :=
  p.line < q.line || (p.line == q.line && p.column ≤ q.column)

def text (p : Position) : String := toString p.line ++ ":" ++ toString p.column

def phrase (p : Position) : String :=
  "line " ++ toString p.line ++ ", column " ++ toString p.column

end Position

end MiniPascal
