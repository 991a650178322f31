/-!
Paths as text. Slashes divide them into components; a component of one dot stays where it is, one of
two dots goes up.
-/

namespace MiniPascal.Path

/-- The parts between slashes, at least one. -/
def parts : List Char → List (List Char)
  | [] => [[]]
  | c :: cs =>
    if c = '/' then [] :: parts cs
    else
      match parts cs with
      | p :: ps => (c :: p) :: ps
      | [] => [[c]]

def isAbsolute (path : String) : Bool := path.toList.head? == some '/'

/-- The components of a path. Empty parts are none. -/
def components (path : String) : List String :=
  ((parts path.toList).filter fun p => !p.isEmpty).map String.ofList

/-- Whether a slash ends the path, so that it can only mean a directory. -/
def endsInSlash (path : String) : Bool := path.toList.getLast? == some '/'

/-- A path in reverse without what names no file at its end: slashes, and single dots after one. -/
def dropTail : List Char → List Char
  | '/' :: rest => dropTail rest
  | '.' :: '/' :: rest => dropTail rest
  | path => path

/-- The name of a file without its extension, both in reverse: all before the last dot, unless there
is nothing before it. -/
def stem (name : List Char) : List Char :=
  match name.dropWhile (· != '.') with
  | '.' :: before => if before.isEmpty then name else before
  | _ => name

/-- The path with another extension, or itself if it names no file. Without its extension a path that
ends in a name such as `..x` leads to the directory above, which has none to change. -/
def withExtension (path extension : String) : String :=
  let reversed := dropTail path.toList.reverse
  let name := reversed.takeWhile (· != '/')
  let directory := reversed.dropWhile (· != '/')
  if name = [] ∨ name = ['.'] ∨ name = ['.', '.'] then path
  else if stem name = ['.'] ∧ reversed = path.toList.reverse then
    String.ofList (['.', '.'] ++ directory).reverse
  else String.ofList (stem name ++ directory).reverse ++ "." ++ extension

end MiniPascal.Path
