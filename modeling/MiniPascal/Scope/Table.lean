import MiniPascal.Ty

/-!
The names that a program declares. Blocks are numbered in the order of their creation, and each but
the outermost lies in an earlier one. A block may hold several items of one name as long as their
parameters differ.
-/

namespace MiniPascal.Scope

/-- What a call has to pass. -/
structure Param where
  type : Ty
  byReference : Bool
  deriving DecidableEq, Repr

/-- What a call passes. -/
structure Argument where
  type : Ty
  isVariable : Bool
  deriving DecidableEq, Repr

def Argument.text (a : Argument) : String :=
  if a.isVariable then "var " ++ a.type.text else a.type.text

/-- Whether an argument fits: a reference needs a variable of the same type, a value one that may be
assigned. -/
def Param.accepts (p : Param) (a : Argument) : Bool :=
  if p.byReference then a.isVariable && a.type == p.type else Ty.assignable p.type a.type

namespace Item

inductive Kind where
  | var | const | routine
  /-- The place where a function puts what it returns. -/
  | result
  deriving DecidableEq, Repr

end Item

/-- A declared name. A routine has the type that it returns. -/
structure Item where
  name : String
  type : Ty
  kind : Item.Kind
  params : List Param := []
  byReference : Bool := false
  position : Position
  deriving DecidableEq, Repr

namespace Item

def isVariable (i : Item) : Bool := i.kind == .var || i.kind == .result

def isFunction (i : Item) : Bool := i.kind == .routine || i.kind == .result

/-- Whether the item holds data: variables and constants do. -/
def isData (i : Item) : Bool := i.kind == .var || i.kind == .const

def accepts (i : Item) (args : List Argument) : Bool :=
  i.params.length == args.length && (i.params.zip args).all fun (p, a) => p.accepts a

end Item

structure Block where
  name : String
  parent : Option Nat
  items : List Item := []
  deriving DecidableEq, Repr

/-- The items of one name, in the order of their declaration. -/
def Block.named (b : Block) (name : String) : List Item := b.items.filter fun i => i.name == name

/-- The blocks, and for the place of each head the number of its block, the latest first. -/
structure Table where
  blocks : List Block := []
  keys : List (Position × Nat) := []
  deriving DecidableEq, Repr

namespace Table

/-- Adds an empty block and answers its number. A key that was used before now means this block. -/
def createBlock (t : Table) (name : String) (parent : Option Nat) (key : Position) : Table × Nat :=
  let id := t.blocks.length
  (⟨t.blocks ++ [⟨name, parent, []⟩], (key, id) :: t.keys⟩, id)

/-- The block whose head stands at the given place. -/
def blockAt? (t : Table) (key : Position) : Option Nat := t.keys.lookup key

/-- The items of one name in one block. -/
def named (t : Table) (id : Nat) (name : String) : List Item :=
  match t.blocks[id]? with
  | some b => b.named name
  | none => []

/-- Adds an item to a block, unless the block has one of the same name and parameters. -/
def insert? (t : Table) (id : Nat) (item : Item) : Option Table :=
  if (t.named id item.name).any fun i => i.params == item.params then none
  else some { t with blocks := t.blocks.modify id fun b => { b with items := b.items ++ [item] } }

/-- The distinct names of each block, one block after the other. -/
def names (t : Table) : List String :=
  t.blocks.flatMap fun b => (b.items.map Item.name).eraseDups

end Table

end MiniPascal.Scope
