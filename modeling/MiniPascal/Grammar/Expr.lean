import MiniPascal.Grammar.Parse

/-!
Expressions. Binary operators bind in three tiers and group to the left; an operator before an
operand applies to that operand alone.
-/

namespace MiniPascal.Parse

def binaryOp? : Token.Kind → Option BinaryOp
  | .mark .equal => some .equal
  | .mark .notEqual => some .notEqual
  | .mark .less => some .less
  | .mark .lessEqual => some .lessEqual
  | .mark .greater => some .greater
  | .mark .greaterEqual => some .greaterEqual
  | .mark .plus => some .add
  | .mark .minus => some .sub
  | .keyword .orKw => some .or
  | .mark .star => some .mul
  | .mark .slash => some .divide
  | .keyword .divKw => some .div
  | .keyword .modKw => some .mod
  | .keyword .andKw => some .and
  | _ => none

/-- Extends `left` by the operators of one tier. Each takes a token, so the number of tokens left is
enough as a bound. -/
def chain (tier : Nat) (operand : Parse Expr) : Nat → Expr → Parse Expr
  | 0, left => return left
  | n + 1, left => do
    match binaryOp? (← kind) with
    | none => return left
    | some op =>
      if op.precedence = tier then
        let _ ← advance
        let right ← operand
        chain tier operand n (.binary left.position op left right)
      else return left

def tier (tier : Nat) (operand : Parse Expr) : Parse Expr := do
  let left ← operand
  chain tier operand (← get).tokens.length left

/-- An expression over the given operands. -/
def expressionOver (operand : Parse Expr) : Parse Expr := tier 1 (tier 2 (tier 3 operand))

def number : Parse Expr := do
  let t ← advance
  match t.payload with
  | some (.integer v) => return .int t.position v
  | some (.real v) => return .real t.position v
  | _ => throw (.phrase ⟨.malformedNumber t.text, t.position⟩)

/-- Quoted text is a character when it is one of ASCII, which a byte can hold, and else a string. -/
def quotedValue (p : Position) (text : String) : Expr :=
  match text.toList with
  | [c] => if c.toNat < 128 then .char p c else .string p text
  | _ => .string p text

def quoted : Parse Expr := do
  let t ← advance
  match t.payload with
  | some (.text v) => return quotedValue t.position v
  | _ => return quotedValue t.position ""

def argumentList (expr : Parse Expr) : Parse (List Expr) := do
  let _ ← expect (.mark .openParen) "'('"
  if ← accept (.mark .closeParen) then return []
  else
    let args ← separated (.mark .comma) expr expr
    let _ ← expect (.mark .closeParen) "')' after arguments"
    return args

def indexList (expr : Parse Expr) : Parse (List Expr) := do
  let _ ← expect (.mark .openBracket) "'['"
  let indices ← separated (.mark .comma) expr expr
  let _ ← expect (.mark .closeBracket) "']' after indices"
  return indices

/-- A name with what may follow it in an expression. -/
def named (expr : Parse Expr) : Parse Expr := do
  let (name, p) ← identifier "identifier"
  match ← kind with
  | .mark .openParen => return .call p name (← argumentList expr)
  | .mark .openBracket => return .element p name (← indexList expr)
  | _ => return .name p name

/-- An operand nested at most as deep as the bound. Every level of nesting takes a token. -/
def operandWithin : Nat → Parse Expr
  | 0 => expected "expression"
  | n + 1 => do
    match ← kind with
    | .integer | .real => number
    | .quoted => quoted
    | .keyword .trueKw => return .bool (← advance).position true
    | .keyword .falseKw => return .bool (← advance).position false
    | .mark .openParen =>
      let _ ← advance
      let e ← expressionOver (operandWithin n)
      let _ ← expect (.mark .closeParen) "')' after expression"
      return e
    | .mark .plus => return .unary (← advance).position .plus (← operandWithin n)
    | .mark .minus => return .unary (← advance).position .minus (← operandWithin n)
    | .keyword .notKw => return .unary (← advance).position .not (← operandWithin n)
    | .identifier => named (expressionOver (operandWithin n))
    | _ => expected "expression"

def operand : Parse Expr := do operandWithin ((← get).tokens.length + 1)

def expression : Parse Expr := do expressionOver (operandWithin ((← get).tokens.length + 1))

end MiniPascal.Parse
