import MiniPascal.Scope.Table

/-!
Looking names up. A search goes from a block outward and ends at the first block with an item that
fits, so inner declarations hide outer ones of the same use.
-/

namespace MiniPascal.Scope

/-- Why no routine answers a call. -/
inductive LookupError where
  | notFound | mismatch | notCallable
  deriving DecidableEq, Repr

namespace Table

/-- The block and those around it, from the inside out. -/
def ancestors (t : Table) (id : Nat) : List Nat :=
  match (t.blocks[id]?).bind Block.parent with
  | some parent => if _h : parent < id then id :: t.ancestors parent else [id]
  | none => [id]
termination_by id

/-- The first item of a name that satisfies a condition, from a block outward. -/
def find? (t : Table) (id : Nat) (name : String) (fits : Item → Bool) : Option Item :=
  (t.ancestors id).findSome? fun block => (t.named block name).find? fits

def contains (t : Table) (id : Nat) (name : String) : Bool :=
  (t.find? id name fun _ => true).isSome

def findData? (t : Table) (id : Nat) (name : String) : Option Item := t.find? id name Item.isData

def findResult? (t : Table) (id : Nat) (name : String) : Option Item :=
  t.find? id name fun i => i.kind == .result

/-- A variable, a constant or the result of the function around. -/
def findPlace? (t : Table) (id : Nat) (name : String) : Option Item :=
  (t.findData? id name).or (t.findResult? id name)

/-- The routine that a call means: the first one from the inside out that accepts the arguments. -/
def findRoutine (t : Table) (id : Nat) (name : String) (args : List Argument) :
    Except LookupError Item :=
  match t.find? id name fun i => i.kind == .routine && i.accepts args with
  | some item => .ok item
  | none =>
    if (t.find? id name fun i => i.kind == .routine).isSome then .error .mismatch
    else if t.contains id name then .error .notCallable
    else .error .notFound

/-- What a bare name means: data, else a call without arguments, else the result of the function
around. -/
def resolve (t : Table) (id : Nat) (name : String) : Except LookupError Item :=
  match t.findData? id name with
  | some item => .ok item
  | none =>
    match t.findRoutine id name [] with
    | .ok item => .ok item
    | .error e =>
      match t.findResult? id name with
      | some item => .ok item
      | none => .error e

end Table

end MiniPascal.Scope
