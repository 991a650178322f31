import MiniPascal.Position
import MiniPascal.Text.Blank

/-!
The gaps between tokens: white space, comments in braces or in parentheses with stars, and comments
that run from two slashes to the end of the line. Comments do not nest.
-/

namespace MiniPascal.Gap

/-- Where a reader of a gap stands. A comment that has to be closed remembers where it opened. -/
inductive Mode where
  | between
  | braces (opened : Position)
  | stars (opened : Position)
  | line
  deriving DecidableEq, Repr

/-- The end of a gap: a place with the text from there on, or a comment that is never closed. -/
inductive Ending where
  | reached (place : Position) (rest : List Char)
  | unclosed (opened : Position)
  deriving DecidableEq, Repr

/-- Skips the longest gap at the head of a text that stands at the given place. -/
def skip : Mode → Position → List Char → Ending
  | .between, p, [] => .reached p []
  | .between, p, c :: cs =>
    if Text.isBlank c then skip .between (p.next c) cs
    else if c = '\x7b' then skip (.braces p) (p.next c) cs
    else
      match cs with
      | d :: ds =>
        if c = '(' ∧ d = '*' then skip (.stars p) ((p.next c).next d) ds
        else if c = '/' ∧ d = '/' then skip .line ((p.next c).next d) ds
        else .reached p (c :: d :: ds)
      | [] => .reached p [c]
  | .braces opened, _, [] => .unclosed opened
  | .braces opened, p, c :: cs =>
    if c = '\x7d' then skip .between (p.next c) cs else skip (.braces opened) (p.next c) cs
  | .stars opened, _, [] => .unclosed opened
  | .stars opened, p, c :: cs =>
    match cs with
    | d :: ds =>
      if c = '*' ∧ d = ')' then skip .between ((p.next c).next d) ds
      else skip (.stars opened) (p.next c) (d :: ds)
    | [] => .unclosed opened
  | .line, p, [] => .reached p []
  | .line, p, c :: cs =>
    if c = '\n' then skip .between (p.next c) cs else skip .line (p.next c) cs

end MiniPascal.Gap
