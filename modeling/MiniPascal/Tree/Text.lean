import MiniPascal.Decimal.Layout
import MiniPascal.Tree.Basic

/-!
The text of an expression, with parentheses around every operation.
-/

namespace MiniPascal.Expr

mutual

def text : Expr → String
  | int _ v => Integer.text v
  | real _ v => Decimal.realText v
  | char _ v => "'" ++ String.singleton v ++ "'"
  | bool _ v => if v then "true" else "false"
  | string _ v => "'" ++ v ++ "'"
  | element _ n [] => n
  | element _ n (i :: is) => n ++ "[" ++ listText (i :: is) ++ "]"
  | name _ n => n
  | call _ n args => n ++ "(" ++ listText args ++ ")"
  | binary _ op l r => "(" ++ l.text ++ " " ++ op.text ++ " " ++ r.text ++ ")"
  | unary _ op e => "(" ++ op.text ++ e.text ++ ")"

def listText : List Expr → String
  | [] => ""
  | [e] => e.text
  | e :: f :: es => e.text ++ ", " ++ listText (f :: es)

end

end MiniPascal.Expr
