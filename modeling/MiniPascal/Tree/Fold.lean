import MiniPascal.Value

/-!
Folding: every operation on literals that has a value is replaced by that value. What has none, such
as a division by zero, stays as it is written.
-/

namespace MiniPascal.Expr

mutual

/-- The folded expression, and whether it is a constant. -/
def fold : Expr → Expr × Bool
  | int p v => (int p v, true)
  | real p v => (real p v, true)
  | char p v => (char p v, true)
  | bool p v => (bool p v, true)
  | string p v => (string p v, false)
  | name p n => (name p n, false)
  | element p n indices => (element p n (foldAll indices), false)
  | call p n arguments => (call p n (foldAll arguments), false)
  | binary p op left right =>
    let (l, leftConstant) := left.fold
    let (r, rightConstant) := right.fold
    let result := do
      guard (leftConstant && rightConstant)
      Value.binary? op (← Value.ofExpr? l) (← Value.ofExpr? r)
    match result with
    | some v => (v.toExpr p, true)
    | none => (binary p op l r, false)
  | unary p op operand =>
    let (e, constant) := operand.fold
    let result := do
      guard constant
      Value.unary? op (← Value.ofExpr? e)
    match result with
    | some v => (v.toExpr p, true)
    | none => (unary p op e, false)

def foldAll : List Expr → List Expr
  | [] => []
  | e :: es => e.fold.1 :: foldAll es

end

end MiniPascal.Expr
