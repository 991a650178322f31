import MiniPascal.Proofs.PlainLowering
import MiniPascal.Proofs.PrintedExpressions
import MiniPascal.Proofs.UnsignedLiterals

/-!
# What stands behind a minus

The text of an expression in C begins with a minus only if the expression is a negative literal.
Folding folds a minus before it, except before the least integer.
-/

namespace MiniPascal

open List

theorem Integer.neg?_eq_none {v : Int64} : neg? v = none ↔ v = Int64.minValue := by
  have hlow := Int64.le_toInt v
  have hhigh := Int64.toInt_le v
  have hmin : Int64.minValue.toInt = -2 ^ 63 := rfl
  have hmax : Int64.maxValue.toInt = 2 ^ 63 - 1 := rfl
  rw [neg?, ofInt?, ite_eq_right_iff, ← Int64.toInt_inj]
  constructor
  · intro h
    by_contra hne
    exact absurd (h ⟨by omega, by omega⟩) (Option.some_ne_none _)
  · intro h hrange
    omega

namespace Expr

mutual

def negated : Expr → List Expr
  | element _ _ indices => negatedAll indices
  | call _ _ arguments => negatedAll arguments
  | binary _ _ left right => left.negated ++ right.negated
  | unary _ .minus operand => operand :: operand.negated
  | unary _ .plus operand | unary _ .not operand => operand.negated
  | int .. | real .. | char .. | bool .. | string .. | name .. => []

def negatedAll : List Expr → List Expr
  | [] => []
  | e :: es => e.negated ++ negatedAll es

end

/-- A minus stands before an operand whose value is the least integer. -/
def NegatesLeast (e : Expr) : Prop := ∃ x ∈ e.negated, ∃ p, x.fold.1 = int p Int64.minValue

def isLeast : Expr → Bool
  | int _ v => v == Int64.minValue
  | _ => false

variable {e : Expr}

theorem isLeast_iff : e.isLeast = true ↔ ∃ p, e = int p Int64.minValue := by
  cases e <;> simp [isLeast]

instance (e : Expr) : Decidable e.NegatesLeast :=
  decidable_of_iff (∃ x ∈ e.negated, x.fold.1.isLeast = true) <| by
    simp only [isLeast_iff, NegatesLeast]

/-- A negative literal, which may have plus signs before it. -/
def IsNegative : Expr → Prop
  | int _ v => v.toInt < 0
  | real _ v => ¬ClearSign v
  | unary _ .plus e => e.IsNegative
  | _ => False

theorem negatedAll_eq (es : List Expr) : negatedAll es = es.flatMap negated := by
  induction es with
  | nil => rfl
  | cons e es ih => rw [negatedAll, flatMap_cons, ih]

theorem negated_toExpr (v : Value) (p : Position) : (v.toExpr p).negated = [] := by
  cases v <;> rfl

theorem Plain.of_mem_negated (h : e.Plain) : ∀ x ∈ e.negated, x.Plain := by
  induction h with
  | int | real | char | bool | string | name => exact forall_mem_nil _
  | element _ _ ih | call _ _ ih =>
    rw [negated, negatedAll_eq]
    exact forall_mem_flatMap.mpr ih
  | binary _ _ ihl ihr => exact forall_mem_append.mpr ⟨ihl, ihr⟩
  | @unary p op x hx ih =>
    cases op with
    | minus => exact forall_mem_cons.mpr ⟨hx, ih⟩
    | plus | not => exact ih

theorem Nonnegative.not_isNegative (h : e.Nonnegative) : ¬e.IsNegative := by
  induction h with
  | int hv => exact Int.not_lt.mpr hv
  | real hv => exact not_not_intro hv
  | @unary p op x _ ih =>
    cases op with
    | plus => exact ih
    | minus | not => exact not_false
  | char | bool | string | name | element | call | binary => exact not_false

theorem Nonnegative.of_mem_negated (h : e.Nonnegative) : ∀ x ∈ e.negated, x.Nonnegative := by
  induction h with
  | int | real | char | bool | string | name => exact forall_mem_nil _
  | element _ ih | call _ ih =>
    rw [negated, negatedAll_eq]
    exact forall_mem_flatMap.mpr ih
  | binary _ _ ihl ihr => exact forall_mem_append.mpr ⟨ihl, ihr⟩
  | @unary p op x hx ih =>
    cases op with
    | minus => exact forall_mem_cons.mpr ⟨hx, ih⟩
    | plus | not => exact ih

/-! ## Folding -/

theorem fold_constant {a : Value} (h : Value.ofExpr? e.fold.1 = some a) : e.fold.2 = true := by
  cases e with
  | int | real | char | bool => rfl
  | string | name | element | call => cases h
  | binary p op l r =>
    rw [fold] at h ⊢
    dsimp only at h ⊢
    split
    · rfl
    · next hnone =>
      rw [hnone] at h
      cases h
  | unary p op x =>
    rw [fold] at h ⊢
    dsimp only at h ⊢
    split
    · rfl
    · next hnone =>
      rw [hnone] at h
      cases h

/-- The value of an operation on an operand, if folding finds one. -/
def folded? (op : UnaryOp) (e : Expr) : Option Value :=
  (Value.ofExpr? e.fold.1).bind (Value.unary? op)

theorem fold_unary (p : Position) (op : UnaryOp) (e : Expr) :
    (unary p op e).fold.1 = (folded? op e).elim (unary p op e.fold.1) (Value.toExpr p) := by
  have hvalue : (do
      guard (e.fold.2 = true)
      Value.unary? op (← Value.ofExpr? e.fold.1)) = folded? op e := by
    unfold folded?
    cases ha : Value.ofExpr? e.fold.1 with
    | none => cases e.fold.2 <;> rfl
    | some a =>
      rw [fold_constant ha]
      rfl
  rw [fold]
  dsimp only
  rw [hvalue]
  cases folded? op e <;> rfl

theorem literal_of_isNegative : ∀ e : Expr, e.fold.1.IsNegative →
    (∃ p v, e.fold.1 = int p v) ∨ ∃ p v, e.fold.1 = real p v
  | int p v, _ => .inl ⟨p, v, rfl⟩
  | real p v, _ => .inr ⟨p, v, rfl⟩
  | binary p op l r, h => by
    rcases fold_binary_cases p op l r with ⟨_, _, v, _, _, _, hv⟩ | hkept
    · rw [hv] at h ⊢
      cases v with
      | int v => exact .inl ⟨p, v, rfl⟩
      | real v => exact .inr ⟨p, v, rfl⟩
      | char | bool => exact h.elim
    · rw [hkept] at h
      exact h.elim
  | unary p op x, h => by
    rw [fold_unary] at h ⊢
    cases hv : folded? op x with
    | some v =>
      rw [hv] at h
      cases v with
      | int v => exact .inl ⟨p, v, rfl⟩
      | real v => exact .inr ⟨p, v, rfl⟩
      | char | bool => exact h.elim
    | none =>
      rw [hv] at h
      cases op with
      | plus =>
        rw [folded?] at hv
        rcases literal_of_isNegative x h with ⟨q, v, hx⟩ | ⟨q, v, hx⟩ <;>
          (rw [hx] at hv; cases hv)
      | minus | not => exact h.elim

/-- A negative literal whose opposite is no literal is the least integer. -/
theorem eq_least (hkept : folded? .minus e = none) (h : e.fold.1.IsNegative) :
    ∃ p, e.fold.1 = int p Int64.minValue := by
  rw [folded?] at hkept
  rcases literal_of_isNegative e h with ⟨p, v, hv⟩ | ⟨p, v, hv⟩
  · rw [hv] at hkept
    have hnone : Value.int <$> Integer.neg? v = none := hkept
    rw [Option.map_eq_map, Option.map_eq_none_iff, Integer.neg?_eq_none] at hnone
    exact ⟨p, hnone ▸ hv⟩
  · rw [hv] at hkept
    cases hkept

theorem folded?_least {p : Position} (h : e.fold.1 = int p Int64.minValue) :
    folded? .minus e = none := by
  rw [folded?, h]
  rfl

mutual

/-- Behind the minus signs that are left there are the folded operands of those that could not be
folded. -/
theorem mem_negated_fold {x : Expr} : ∀ e : Expr,
    x ∈ e.fold.1.negated ↔ ∃ y ∈ e.negated, folded? .minus y = none ∧ y.fold.1 = x
  | int .. | real .. | char .. | bool .. | string .. | name .. => by simp [fold, negated]
  | element p n indices => by
    rw [fold, negated, negated]
    exact mem_negatedAll_fold indices
  | call p n arguments => by
    rw [fold, negated, negated]
    exact mem_negatedAll_fold arguments
  | binary p op l r => by
    have hl := mem_negated_fold (x := x) l
    have hr := mem_negated_fold (x := x) r
    rw [negated]
    simp only [mem_append, or_and_right, exists_or, ← hl, ← hr]
    rcases fold_binary_cases p op l r with ⟨a, b, v, ha, hb, _, hv⟩ | hkept
    · rw [hv, ha, hb, negated_toExpr, negated_toExpr, negated_toExpr]
      simp
    · rw [hkept, negated, mem_append]
  | unary p op y => by
    have hy := mem_negated_fold (x := x) y
    rw [fold_unary]
    cases hv : folded? op y with
    | some v =>
      -- the operand is a literal, so no minus was left within it
      obtain ⟨a, ha, hav⟩ := Option.bind_eq_some_iff.mp hv
      rw [Value.eq_toExpr_of_ofExpr? ha, negated_toExpr] at hy
      rw [Option.elim_some, negated_toExpr]
      cases op with
      | minus => simpa [negated, hv] using hy
      | plus | not => simpa [negated] using hy
    | none =>
      cases op with
      | minus => simp [negated, hv, hy, eq_comm]
      | plus | not => simpa [negated] using hy

theorem mem_negatedAll_fold {x : Expr} : ∀ es : List Expr,
    x ∈ negatedAll (foldAll es) ↔ ∃ y ∈ negatedAll es, folded? .minus y = none ∧ y.fold.1 = x
  | [] => by simp [foldAll, negatedAll]
  | e :: es => by
    rw [foldAll, negatedAll, negatedAll]
    simp only [mem_append, or_and_right, exists_or, mem_negated_fold e,
      mem_negatedAll_fold es]

end

theorem negatesLeast_of_isNegative {x : Expr} (hx : x ∈ e.fold.1.negated) (h : x.IsNegative) :
    e.NegatesLeast := by
  obtain ⟨y, hy, hkept, rfl⟩ := (mem_negated_fold e).mp hx
  exact ⟨y, hy, eq_least hkept h⟩

theorem NegatesLeast.mem_negated (h : e.NegatesLeast) :
    ∃ p, int p Int64.minValue ∈ e.fold.1.negated := by
  obtain ⟨y, hy, p, hp⟩ := h
  exact ⟨p, (mem_negated_fold e).mpr ⟨y, hy, folded?_least hp, hp⟩⟩

end Expr

namespace C

namespace Expr

mutual

def negated : Expr → List Expr
  | element _ subscripts => negatedSubscripts subscripts
  | call _ arguments => negatedArguments arguments
  | binary _ left right => left.negated ++ right.negated
  | unary .minus operand => operand :: operand.negated
  | unary .not operand | cast _ operand => operand.negated
  | int _ | real _ | char _ | string _ | var _ => []

def negatedSubscripts : List (Expr × Int64) → List Expr
  | [] => []
  | (e, _) :: rest => e.negated ++ negatedSubscripts rest

def negatedArguments : List (Expr × Bool) → List Expr
  | [] => []
  | (e, _) :: rest => e.negated ++ negatedArguments rest

end

def LeadsMinus (e : Expr) : Prop := e.text.toList.head? = some '-'

instance (e : Expr) : Decidable e.LeadsMinus := inferInstanceAs (Decidable (_ = _))

def IsNegative : Expr → Prop
  | int v => v.toInt < 0
  | real v => ¬ClearSign v
  | _ => False

theorem negatedSubscripts_eq (subscripts : List (Expr × Int64)) :
    negatedSubscripts subscripts = (subscripts.map Prod.fst).flatMap negated :=
  flatMap_fst rfl (fun _ _ => rfl) subscripts

theorem negatedArguments_eq (arguments : List (Expr × Bool)) :
    negatedArguments arguments = (arguments.map Prod.fst).flatMap negated :=
  flatMap_fst rfl (fun _ _ => rfl) arguments

/-! ## Texts that begin with a minus -/

variable {cs : List Char}

theorem head_spelled {name : String} (h : Spelled name) (hcs : cs.head? ≠ some '-') :
    (name.toList ++ cs).head? ≠ some '-' := by
  cases hname : name.toList with
  | nil => exact hcs
  | cons c rest =>
    intro hc
    obtain rfl : c = '-' := Option.some.inj hc
    exact absurd (h '-' (hname ▸ mem_cons_self)) (by decide)

theorem spelled_identifier {name : String} (h : Spelled name) : Spelled (identifier name) := by
  unfold identifier
  split
  · exact spelled_append h (by decide)
  · exact h

theorem head_var {v : Var} (h : Spelled v.name) (hcs : cs.head? ≠ some '-') :
    (v.text.toList ++ cs).head? ≠ some '-' := by
  unfold Var.text
  split
  · exact head_spelled h hcs
  split
  · simp
  · exact head_spelled (spelled_identifier h) hcs

theorem head_digits (h : Starts Char.isDigit cs) : cs.head? ≠ some '-' := by
  obtain ⟨c, hc, hdigit⟩ := h
  rintro hminus
  rw [Option.mem_def, hminus] at hc
  cases hc
  cases hdigit

theorem head_realText {x : Float} (h : ClearSign x) :
    (Decimal.realText x).toList.head? ≠ some '-' := by
  have hsign : (if x.toBits < 0x8000000000000000 then "" else "-") = "" := if_pos h
  unfold Decimal.realText
  dsimp only
  rw [hsign]
  split
  · decide
  split
  · decide
  split
  · decide
  · rw [String.empty_append]
    exact head_digits (isNumeral_decimal _).starts

theorem LeadsMinus.isNegative {e : Expr} (plain : e.Plain) (h : e.LeadsMinus) : e.IsNegative := by
  unfold LeadsMinus at h
  cases plain with
  | @int v =>
    by_contra hpos
    have hpos : ¬v.toInt < 0 := hpos
    rw [Expr.text, toList_integer_text, decide_eq_false hpos] at h
    exact head_digits (isNumeral_toDigits _).starts h
  | real => exact fun hclear => head_realText hclear (by rwa [Expr.text] at h)
  | char => simp [Expr.text, charLiteral] at h
  | string => simp [Expr.text, stringLiteral] at h
  | var hv =>
    rw [Expr.text, ← append_nil (String.toList _)] at h
    exact (head_var hv (by simp) h).elim
  | @element v subscripts hv =>
    rw [Expr.text, String.toList_append] at h
    refine (head_var hv ?_ h).elim
    cases subscripts <;> simp [Expr.subscriptsText]
  | call hname =>
    rw [Expr.text, String.toList_append, String.toList_append, String.toList_append,
      append_assoc, append_assoc] at h
    exact (head_spelled (spelled_identifier hname) (by simp) h).elim
  | binary | unary | cast => simp [Expr.text] at h

theorem leadsMinus_least : (int Int64.minValue).LeadsMinus := by
  rw [LeadsMinus, Expr.text, toList_integer_text]
  rfl

end Expr

end C

end MiniPascal
