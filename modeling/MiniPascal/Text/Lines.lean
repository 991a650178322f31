/-!
The lines of a text. A line feed ends a line, and a carriage return right before it belongs to that
ending. Nothing follows the last ending unless there is text after it.
-/

namespace MiniPascal.Text

/-- The text up to each line feed, and the text after the last one. -/
def segments : List Char → List (List Char)
  | [] => [[]]
  | c :: cs =>
    if c = '\n' then [] :: segments cs
    else
      match segments cs with
      | s :: ss => (c :: s) :: ss
      | [] => [[c]]

/-- A line without the carriage return at its end. -/
def dropReturn (line : List Char) : List Char :=
  if line.getLast? = some '\r' then line.dropLast else line

/-- The lines of a text. The last one has no line feed, so its carriage return stays. -/
def linesOf : List (List Char) → List (List Char)
  | [] => []
  | [last] => if last.isEmpty then [] else [last]
  | line :: rest => dropReturn line :: linesOf rest

def lines (text : String) : List String := (linesOf (segments text.toList)).map String.ofList

end MiniPascal.Text
