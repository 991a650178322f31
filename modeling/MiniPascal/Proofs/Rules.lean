import MiniPascal.Grammar.Program

/-!
# The grammar

Each rule is a relation between tokens and the tree that they are a text of. Which `else` a
conditional statement takes is a property of trees, `ElsesNearest`.
-/

namespace MiniPascal

/-- A token as the scanner makes it: a name or a literal carries its value. -/
def Token.carries (t : Token) : Bool :=
  match t.kind with
  | .identifier | .quoted => (t.payload matches some (.text _))
  | .integer => (t.payload matches some (.integer _))
  | .real => (t.payload matches some (.real _))
  | _ => true

def Token.Names (t : Token) (name : String) : Prop :=
  t.kind = .identifier ∧ t.payload = some (.text name)

/-- The token is a number without a fraction. -/
def Token.Counts (t : Token) (value : Int64) : Prop :=
  t.kind = .integer ∧ t.payload = some (.integer value)

def BinaryOp.kind : BinaryOp → Token.Kind
  | equal => .mark .equal
  | notEqual => .mark .notEqual
  | less => .mark .less
  | lessEqual => .mark .lessEqual
  | greater => .mark .greater
  | greaterEqual => .mark .greaterEqual
  | add => .mark .plus
  | sub => .mark .minus
  | or => .keyword .orKw
  | mul => .mark .star
  | divide => .mark .slash
  | div => .keyword .divKw
  | mod => .keyword .modKw
  | and => .keyword .andKw

/-- The binary operators by level: comparisons bind loosest, then sums, then products. -/
def BinaryOp.ofLevel : Nat → List BinaryOp
  | 1 => [equal, notEqual, less, lessEqual, greater, greaterEqual]
  | 2 => [add, sub, or]
  | 3 => [mul, divide, div, mod, and]
  | _ => []

def UnaryOp.kind : UnaryOp → Token.Kind
  | plus => .mark .plus
  | minus => .mark .minus
  | not => .keyword .notKw

def ScalarType.kind : ScalarType → Token.Kind
  | integer => .keyword .integerKw
  | real => .keyword .realKw
  | boolean => .keyword .booleanKw
  | char => .keyword .charKw

def Direction.kind : Direction → Token.Kind
  | up => .keyword .toKw
  | down => .keyword .downtoKw

/-- Items with separators between them, at least one. -/
inductive Separated {α : Type} (separator : Token.Kind) (item : List Token → α → Prop) :
    List Token → List α → Prop
  | one {ts a} : item ts a → Separated separator item ts [a]
  | more {ts t us a as} : item ts a → t.kind = separator → Separated separator item us as →
      Separated separator item (ts ++ t :: us) (a :: as)

/-- Items one after another, of which there may be none. -/
inductive Repeated {α : Type} (item : List Token → α → Prop) : List Token → List α → Prop
  | nil : Repeated item [] []
  | cons {ts us a as} : item ts a → Repeated item us as → Repeated item (ts ++ us) (a :: as)

section Expressions

/-- Operands with the operators of one level between them, which group to the left. -/
inductive TierText (tier : Nat) (operand : List Token → Expr → Prop) : List Token → Expr → Prop
  | operand {ts e} : operand ts e → TierText tier operand ts e
  | binary {ts t us left op right} : TierText tier operand ts left → t.kind = op.kind →
      op ∈ BinaryOp.ofLevel tier → operand us right →
      TierText tier operand (ts ++ t :: us) (.binary left.position op left right)

/-- Arguments in parentheses, of which there may be none. -/
inductive ArgumentsText (expr : List Token → Expr → Prop) : List Token → List Expr → Prop
  | none {t u} : t.kind = .mark .openParen → u.kind = .mark .closeParen →
      ArgumentsText expr [t, u] []
  | some {t ts u es} : t.kind = .mark .openParen → Separated (.mark .comma) expr ts es →
      u.kind = .mark .closeParen → ArgumentsText expr (t :: (ts ++ [u])) es

inductive IndicesText (expr : List Token → Expr → Prop) : List Token → List Expr → Prop
  | intro {t ts u es} : t.kind = .mark .openBracket → Separated (.mark .comma) expr ts es →
      u.kind = .mark .closeBracket → IndicesText expr (t :: (ts ++ [u])) es

/-- What an operator can apply to: a literal, a name with what may follow it, an expression in
parentheses, or such an operand behind a prefix operator. -/
inductive OperandText : List Token → Expr → Prop
  | int {t v} : t.Counts v → OperandText [t] (.int t.position v)
  | real {t v} : t.kind = .real → t.payload = some (.real v) → OperandText [t] (.real t.position v)
  | quoted {t v} : t.kind = .quoted → t.payload = some (.text v) →
      OperandText [t] (Parse.quotedValue t.position v)
  | true {t} : t.kind = .keyword .trueKw → OperandText [t] (.bool t.position true)
  | false {t} : t.kind = .keyword .falseKw → OperandText [t] (.bool t.position false)
  | parens {t ts u e} : t.kind = .mark .openParen →
      TierText 1 (TierText 2 (TierText 3 OperandText)) ts e → u.kind = .mark .closeParen →
      OperandText (t :: (ts ++ [u])) e
  | unary {t ts op e} : t.kind = op.kind → OperandText ts e →
      OperandText (t :: ts) (.unary t.position op e)
  | name {t n} : t.Names n → OperandText [t] (.name t.position n)
  | call {t ts n es} : t.Names n →
      ArgumentsText (TierText 1 (TierText 2 (TierText 3 OperandText))) ts es →
      OperandText (t :: ts) (.call t.position n es)
  | element {t ts n es} : t.Names n →
      IndicesText (TierText 1 (TierText 2 (TierText 3 OperandText))) ts es →
      OperandText (t :: ts) (.element t.position n es)

/-- Expressions: comparisons of sums of products of operands. -/
abbrev ExprText : List Token → Expr → Prop := TierText 1 (TierText 2 (TierText 3 OperandText))

end Expressions

section Statements

/-- The statements of a sequence that stay in its tree: those that have a text. -/
def kept (ts : List Token) (s : Statement) : List Statement := if ts = [] then [] else [s]

/-- Statements with semicolons between them, and the place of the token after them. -/
inductive SequenceText (statement : List Token → Position → Statement → Prop) :
    List Token → Position → List Statement → Prop
  | one {ts next s} : statement ts next s → SequenceText statement ts next (kept ts s)
  | more {ts t us next s ss} : statement ts t.position s → t.kind = .mark .semicolon →
      SequenceText statement us next ss →
      SequenceText statement (ts ++ t :: us) next (kept ts s ++ ss)

/-- A statement and the place of the token after it, where the empty statement stands. -/
inductive StatementText : List Token → Position → Statement → Prop
  | empty {next} : StatementText [] next (.compound next [])
  | assign {t u ts next n e} : t.Names n → u.kind = .mark .assign → ExprText ts e →
      StatementText (t :: u :: ts) next (.assign t.position n [] e)
  | assignElement {t ts u us next n es e} : t.Names n → IndicesText ExprText ts es →
      u.kind = .mark .assign → ExprText us e →
      StatementText (t :: (ts ++ u :: us)) next (.assign t.position n es e)
  | call {t next n} : t.Names n → StatementText [t] next (.call t.position n [])
  | callWith {t ts next n es} : t.Names n → ArgumentsText ExprText ts es →
      StatementText (t :: ts) next (.call t.position n es)
  | compound {t ts u next ss} : t.kind = .keyword .beginKw →
      SequenceText StatementText ts u.position ss → u.kind = .keyword .endKw →
      StatementText (t :: (ts ++ [u])) next (.compound t.position ss)
  | ifThen {t ts u us next c s} : t.kind = .keyword .ifKw → ExprText ts c →
      u.kind = .keyword .thenKw → StatementText us next s →
      StatementText (t :: (ts ++ u :: us)) next (.branch t.position c s none)
  | ifThenElse {t ts u us v vs next c s s'} : t.kind = .keyword .ifKw → ExprText ts c →
      u.kind = .keyword .thenKw → StatementText us v.position s → v.kind = .keyword .elseKw →
      StatementText vs next s' →
      StatementText (t :: (ts ++ u :: (us ++ v :: vs))) next (.branch t.position c s (some s'))
  | count {t x a ts d us o vs next n first last direction s} : t.kind = .keyword .forKw →
      x.Names n → a.kind = .mark .assign → ExprText ts first →
      d.kind = Direction.kind direction → ExprText us last → o.kind = .keyword .doKw →
      StatementText vs next s →
      StatementText (t :: x :: a :: (ts ++ d :: (us ++ o :: vs))) next
        (.count t.position n first last direction s)
  | loop {t ts u us next c s} : t.kind = .keyword .whileKw → ExprText ts c →
      u.kind = .keyword .doKw → StatementText us next s →
      StatementText (t :: (ts ++ u :: us)) next (.loop t.position c s)
  | exit {t next} : t.kind = .keyword .exitKw → StatementText [t] next (.exit t.position)

/-- Whether an `else` after the statement could belong to a condition within it. -/
def Statement.isOpen : Statement → Bool
  | .branch _ _ _ none => true
  | .branch _ _ _ (some s) | .count _ _ _ _ _ s | .loop _ _ s => s.isOpen
  | _ => false

/-- Every `else` belongs to the last condition before it that has none. -/
inductive Statement.ElsesNearest : Statement → Prop
  | assign {p n es e} : ElsesNearest (.assign p n es e)
  | call {p n es} : ElsesNearest (.call p n es)
  | compound {p ss} : (∀ s ∈ ss, ElsesNearest s) → ElsesNearest (.compound p ss)
  | ifThen {p c s} : ElsesNearest s → ElsesNearest (.branch p c s none)
  | ifThenElse {p c s s'} : ElsesNearest s → s.isOpen = false → ElsesNearest s' →
      ElsesNearest (.branch p c s (some s'))
  | count {p n first last d s} : ElsesNearest s → ElsesNearest (.count p n first last d s)
  | loop {p c s} : ElsesNearest s → ElsesNearest (.loop p c s)
  | exit {p} : ElsesNearest (.exit p)

end Statements

section Declarations

inductive NameText : List Token → String → Prop
  | intro {t n} : t.Names n → NameText [t] n

abbrev NamesText : List Token → List String → Prop := Separated (.mark .comma) NameText

inductive BoundText : List Token → Int64 → Prop
  | plain {t v} : t.Counts v → BoundText [t] v
  | negative {t u v} : t.kind = .mark .minus → u.Counts v → BoundText [t, u] (-v)

/-- Bounds are in order, and the number of the elements between them is a word. -/
inductive PeriodText : List Token → Period → Prop
  | intro {ts t us lower upper} : BoundText ts lower → t.kind = .mark .dotDot →
      BoundText us upper → lower ≤ upper → upper.toInt - lower.toInt < Int64.maxValue.toInt →
      PeriodText (ts ++ t :: us) ⟨lower, upper⟩

inductive TypeText : List Token → ScalarType → List Period → Prop
  | scalar {t type} : t.kind = ScalarType.kind type → TypeText [t] type []
  | array {t u ts v w x periods type} : t.kind = .keyword .arrayKw →
      u.kind = .mark .openBracket → Separated (.mark .comma) PeriodText ts periods →
      v.kind = .mark .closeBracket → w.kind = .keyword .ofKw → x.kind = ScalarType.kind type →
      TypeText (t :: u :: (ts ++ [v, w, x])) type periods

/-- The value of a constant is an operand, so an operator in it stands before its operand. -/
inductive ConstText : List Token → ConstDecl → Prop
  | intro {t u ts v n e} : t.Names n → u.kind = .mark .equal → OperandText ts e →
      v.kind = .mark .semicolon → ConstText (t :: u :: (ts ++ [v])) ⟨n, e, t.position⟩

/-- Variables stand at the place of the first of them. -/
inductive VarText : List Token → VarDecl → Prop
  | intro {t ts u us v names type periods} : NamesText (t :: ts) names → u.kind = .mark .colon →
      TypeText us type periods → v.kind = .mark .semicolon →
      VarText (t :: (ts ++ u :: (us ++ [v]))) ⟨names, type, periods, t.position⟩

inductive ParamText : List Token → ParamGroup → Prop
  | byValue {t ts u v names type} : NamesText (t :: ts) names → u.kind = .mark .colon →
      v.kind = ScalarType.kind type →
      ParamText (t :: (ts ++ [u, v])) ⟨false, names, type, t.position⟩
  | byReference {t ts u v names type} : t.kind = .keyword .varKw → NamesText ts names →
      u.kind = .mark .colon → v.kind = ScalarType.kind type →
      ParamText (t :: (ts ++ [u, v])) ⟨true, names, type, t.position⟩

inductive ParamsText : List Token → List ParamGroup → Prop
  | none : ParamsText [] []
  | empty {t u} : t.kind = .mark .openParen → u.kind = .mark .closeParen → ParamsText [t, u] []
  | some {t ts u groups} : t.kind = .mark .openParen →
      Separated (.mark .semicolon) ParamText ts groups → u.kind = .mark .closeParen →
      ParamsText (t :: (ts ++ [u])) groups

inductive HeadingText : List Token → Heading → Prop
  | procedure {t u ts v n groups} : t.kind = .keyword .procedureKw → u.Names n →
      ParamsText ts groups → v.kind = .mark .semicolon →
      HeadingText (t :: u :: (ts ++ [v])) ⟨n, groups, none, t.position⟩
  | function {t u ts v w x n groups type} : t.kind = .keyword .functionKw → u.Names n →
      ParamsText ts groups → v.kind = .mark .colon → w.kind = ScalarType.kind type →
      x.kind = .mark .semicolon →
      HeadingText (t :: u :: (ts ++ [v, w, x])) ⟨n, groups, some type, t.position⟩

/-- Declarations after their keyword, at least one, or neither. -/
inductive SectionText {α : Type} (keyword : Keyword) (decl : List Token → α → Prop) :
    List Token → List α → Prop
  | none : SectionText keyword decl [] []
  | some {t ts d ds} : t.kind = .keyword keyword → Repeated decl ts (d :: ds) →
      SectionText keyword decl (t :: ts) (d :: ds)

end Declarations

section Programs

inductive BlockText : List Token → List Statement → Position → Prop
  | intro {t ts u parts} : t.kind = .keyword .beginKw →
      SequenceText StatementText ts u.position parts → u.kind = .keyword .endKw →
      BlockText (t :: (ts ++ [u])) parts t.position

inductive BodyText : List Token → Body → Prop
  | intro {cs vs bs consts vars parts p} : SectionText .constKw ConstText cs consts →
      SectionText .varKw VarText vs vars → BlockText bs parts p →
      BodyText (cs ++ (vs ++ bs)) ⟨consts, vars, parts, p⟩

inductive SubprogramText : List Token → Subprogram → Prop
  | intro {hs bs t heading body} : HeadingText hs heading → BodyText bs body →
      t.kind = .mark .semicolon → SubprogramText (hs ++ (bs ++ [t])) ⟨heading, body⟩

inductive ProgramHeadText : List Token → String → List String → Position → Prop
  | plain {t u v n} : t.kind = .keyword .programKw → u.Names n → v.kind = .mark .semicolon →
      ProgramHeadText [t, u, v] n [] t.position
  | listed {t u v ts w x n names} : t.kind = .keyword .programKw → u.Names n →
      v.kind = .mark .openParen → NamesText ts names → w.kind = .mark .closeParen →
      x.kind = .mark .semicolon →
      ProgramHeadText (t :: u :: v :: (ts ++ [w, x])) n names t.position

inductive ProgramText : List Token → Program → Prop
  | intro {hs cs vs ss bs t name names p consts vars subprograms parts q} :
      ProgramHeadText hs name names p → SectionText .constKw ConstText cs consts →
      SectionText .varKw VarText vs vars → Repeated SubprogramText ss subprograms →
      BlockText bs parts q → t.kind = .mark .dot →
      ProgramText (hs ++ (cs ++ (vs ++ (ss ++ (bs ++ [t])))))
        ⟨name, names, p, subprograms, consts, vars, parts, q⟩

def Body.ElsesNearest (b : Body) : Prop := ∀ s ∈ b.statements, s.ElsesNearest

def Program.ElsesNearest (p : Program) : Prop :=
  (∀ s ∈ p.subprograms, s.body.ElsesNearest) ∧ p.body.ElsesNearest

end Programs

end MiniPascal
