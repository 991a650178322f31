import MiniPascal.Command.Path

/-!
Files below a directory, and what reading and writing them does.
-/

namespace MiniPascal

/-- Why a file cannot be read or written. -/
inductive FileError where
  | notFound | notDirectory | isDirectory | notText
  | other (message : String)
  deriving DecidableEq, Repr

def FileError.message : FileError → String
  | notFound => "No such file or directory (os error 2)"
  | notDirectory => "Not a directory (os error 20)"
  | isDirectory => "Is a directory (os error 21)"
  | notText => "stream did not contain valid UTF-8"
  | other message => message

/-- Access to files from wherever they are. -/
structure FileAccess (m : Type → Type) where
  read : String → m (Except FileError String)
  write : String → String → m (Except FileError Unit)

/-- A file with its bytes, or a directory. -/
inductive Entry where
  | file (bytes : ByteArray)
  | directory

/-- The entries by their components, outermost first. The directory of all is not an entry. -/
structure FileTree where
  entries : List (List String × Entry) := []

namespace FileTree

def find? (t : FileTree) (location : List String) : Option Entry :=
  if location.isEmpty then some .directory else t.entries.lookup location

def put (t : FileTree) (location : List String) (entry : Entry) : FileTree :=
  if (t.entries.lookup location).isSome then
    ⟨t.entries.map fun e => if e.1 = location then (location, entry) else e⟩
  else ⟨t.entries ++ [(location, entry)]⟩

/-- Where a path leads. Of what lies outside the tree only the directories above it are known. -/
inductive Place where
  | inside (location : List String)
  | above
  | unknown
  deriving DecidableEq, Repr

/-- The place that a component leads to from a directory. -/
def Place.step : Place → String → Place
  | p, "." => p
  | inside location, ".." => if location.isEmpty then above else inside location.dropLast
  | inside location, c => inside (location ++ [c])
  | above, ".." => above
  | _, _ => unknown

def entryAt? (t : FileTree) : Place → Option Entry
  | .inside location => t.find? location
  | .above => some .directory
  | .unknown => none

/-- Where components lead from a place. Each step needs a directory to start from. -/
def walk (t : FileTree) : Place → List String → Except FileError Place
  | p, [] => .ok p
  | p, c :: cs =>
    match t.entryAt? p with
    | none => .error .notFound
    | some (.file _) => .error .notDirectory
    | some .directory => t.walk (p.step c) cs

def locate (t : FileTree) (path : String) : Except FileError Place :=
  t.walk (if Path.isAbsolute path then .above else .inside []) (Path.components path)

def read (t : FileTree) (path : String) : Except FileError String := do
  match t.entryAt? (← t.locate path) with
  | none => throw .notFound
  | some .directory => throw .isDirectory
  | some (.file bytes) =>
    if Path.endsInSlash path then throw .notDirectory
    else
      match String.fromUTF8? bytes with
      | some text => return text
      | none => throw .notText

/-- Makes a file at a place or replaces what is in it. What is written outside the tree is out of
sight. -/
def putAt (t : FileTree) (p : Place) (entry : Entry) : FileTree :=
  match p with
  | .inside location => t.put location entry
  | _ => t

def write (t : FileTree) (path text : String) : Except FileError FileTree := do
  let p ← t.locate path
  match t.entryAt? p with
  | some .directory => throw .isDirectory
  | some (.file _) =>
    if Path.endsInSlash path then throw .notDirectory else return t.putAt p (.file text.toUTF8)
  | none =>
    if Path.endsInSlash path then throw .isDirectory else return t.putAt p (.file text.toUTF8)

/-- Access to the files of a tree. -/
def access : FileAccess (StateM FileTree) where
  read path := return (← get).read path
  write path text := do
    match (← get).write path text with
    | .ok t =>
      set t
      return .ok ()
    | .error e => return .error e

end FileTree

end MiniPascal
