import MiniPascal.Decimal.Basic

/-!
The arguments of the command. They are read from left to right, and the first that is wrong, or asks
for help, ends the reading.
-/

namespace MiniPascal.Command

structure Options where
  inputs : List String := []
  output : Option String := none
  level : Option Nat := none
  version : Bool := false
  deriving DecidableEq, Repr

/-- What the arguments ask for. -/
inductive Request where
  | run (options : Options)
  | help
  | rejected
  deriving DecidableEq, Repr

/-- The two options that take a value. -/
inductive Setting where
  | output | level
  deriving DecidableEq, Repr

/-- A level of optimization from 0 to 3. A sign and zeros before the digits are allowed. -/
def level? (text : String) : Option Nat :=
  let (negative, digits) := match text.toList with
    | '-' :: cs => (true, cs)
    | '+' :: cs => (false, cs)
    | cs => (false, cs)
  let n := Decimal.ofDigits digits
  if digits.isEmpty || !digits.all Char.isDigit then none
  else if (negative && n != 0) || 3 < n then none
  else some n

namespace Options

/-- Each option is given at most once and never without a value. -/
def set? (o : Options) (setting : Setting) (value : String) : Option Options :=
  match setting with
  | .output => if o.output.isSome || value.isEmpty then none else some { o with output := value }
  | .level =>
    if o.level.isSome then none
    else
      match level? value with
      | some n => some { o with level := n }
      | none => none

def setVersion? (o : Options) : Option Options :=
  if o.version then none else some { o with version := true }

def addInput? (o : Options) (path : String) : Option Options :=
  if path.isEmpty then none else some { o with inputs := o.inputs ++ [path] }

end Options

/-- How an argument leaves the options: changed, waiting for the value of one of them in the next
argument, or at the end of the reading. -/
inductive Progress where
  | changed (options : Options)
  | waiting (options : Options) (setting : Setting)
  | finished (request : Request)

def Progress.ofOption : Option Options → Progress
  | some o => changed o
  | none => finished .rejected

/-- Short options behind one dash. The text after one that takes a value is that value. -/
def short (o : Options) : List Char → Progress
  | [] => .changed o
  | c :: cs =>
    let valued (setting : Setting) : Progress :=
      match cs with
      | [] => .waiting o setting
      | '=' :: value => .ofOption (o.set? setting (String.ofList value))
      | value => .ofOption (o.set? setting (String.ofList value))
    if c = 'o' then valued .output
    else if c = 'O' then valued .level
    else if c = 'h' then .finished .help
    else if c = 'v' then
      match o.setVersion? with
      | some o => short o cs
      | none => .finished .rejected
    else .finished .rejected

/-- A long option behind two dashes, with a value after an equals sign. -/
def long (o : Options) (text : List Char) : Progress :=
  let name := String.ofList (text.takeWhile (· != '='))
  let value? := (text.dropWhile (· != '=')).tail?.map String.ofList
  let valued (setting : Setting) : Progress :=
    match value? with
    | some value => .ofOption (o.set? setting value)
    | none => .waiting o setting
  if name = "output" then valued .output
  else if name = "opt-level" then valued .level
  else if value?.isSome then .finished .rejected
  else if name = "help" then .finished .help
  else if name = "version" then .ofOption o.setVersion?
  else .finished .rejected

/-- One argument that is no value of an option. -/
def argument (o : Options) (text : String) : Progress :=
  match text.toList with
  | '-' :: '-' :: cs => long o cs
  | '-' :: c :: cs => short o (c :: cs)
  | _ => .ofOption (o.addInput? text)

/-- Whether an argument can be the value of the option before it. A lone dash can. -/
def isValue (text : String) : Bool :=
  match text.toList with
  | '-' :: _ :: _ => false
  | _ => true

/-- Inputs only, after two dashes. -/
def inputs (o : Options) : List String → Request
  | [] => .run o
  | path :: rest =>
    match o.addInput? path with
    | some o => inputs o rest
    | none => .rejected

def requestFrom (o : Options) : List String → Request
  | [] => .run o
  | "--" :: rest => inputs o rest
  | text :: rest =>
    match argument o text with
    | .changed o => requestFrom o rest
    | .finished request => request
    | .waiting o setting =>
      match rest with
      | [] => .rejected
      | value :: rest =>
        if isValue value then
          match o.set? setting value with
          | some o => requestFrom o rest
          | none => .rejected
        else .rejected

def request (args : List String) : Request := requestFrom {} args

end MiniPascal.Command
