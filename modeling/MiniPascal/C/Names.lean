import MiniPascal.Analysis

/-!
Names that a C program needs beyond those that are declared. Routines of one name are told apart by
numbers, and a function has a variable for its result. Such a name is lengthened until it differs
from all others.
-/

namespace MiniPascal.C

/-- `name`, lengthened until it is not taken. Of one more names than are taken one is free. -/
def freshWithin (taken : List String) : Nat → String → String
  | 0, name => name
  | n + 1, name => if taken.contains name then freshWithin taken n (name ++ "_") else name

def fresh (taken : List String) (name : String) : String := freshWithin taken taken.length name

/-- Names by the places of the heads that they belong to, the latest first. -/
abbrev NameMap := List (Position × String)

/-- The names of routines so far, and all names that are taken. -/
structure Naming where
  names : NameMap := []
  taken : List String

/-- Gives a head a name made from `base`. -/
def Naming.generate (n : Naming) (h : Heading) (base : String) : Naming :=
  let name := fresh n.taken base
  ⟨(h.position, name) :: n.names, name :: n.taken⟩

/-- The names of routines. A name of several subprograms gets the number of each among them. -/
def Naming.routines (all : List String) : List String → List Heading → Naming → Naming
  | _, [], n => n
  | earlier, h :: hs, n =>
    let n :=
      if 1 < all.count h.name then
        n.generate h (h.name ++ "_" ++ toString (earlier.count h.name + 1))
      else { n with names := (h.position, h.name) :: n.names }
    Naming.routines all (h.name :: earlier) hs n

/-- The names of the variables for results. -/
def Naming.results (hs : List Heading) (n : Naming) : Naming :=
  (hs.filter fun h => h.returns.isSome).foldl (fun n h => n.generate h ("ret_" ++ h.name)) n

/-- The names that are not declared as such. -/
structure Names where
  routines : NameMap
  results : NameMap

def Names.ofProgram (p : MiniPascal.Program) (declared : List String) : Names :=
  let hs := p.subprograms.map Subprogram.heading
  let routines := Naming.routines (hs.map Heading.name) [] hs ⟨[], declared⟩
  let results := Naming.results hs ⟨[], routines.taken⟩
  ⟨routines.names, results.names⟩

end MiniPascal.C
