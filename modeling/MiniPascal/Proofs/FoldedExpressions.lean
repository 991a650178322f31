import MiniPascal.Proofs.FoldedRuns

/-!
# Folded expressions

The checker cannot tell a folded expression from the one that was written, and one pass of folding
is enough.
-/

namespace MiniPascal

open List

/-! ## What the checker sees -/

namespace Typing

open Scope

/-- An expression and its folded form have the same type, the same problems in order and at the same
places, and one place, and both are variables or neither is. So the routine that accepts some
arguments accepts their folded forms, or none does for the same reason. -/
theorem folding_invisible (t : Table) (block : Nat) (e : Expr) :
    (typeOf t block e.fold.1).value = (typeOf t block e).value ∧
    (typeOf t block e.fold.1).errors = (typeOf t block e).errors ∧
    isVariable t block e.fold.1 = isVariable t block e ∧
    e.fold.1.position = e.position ∧
    ∀ (name : String) (es : List Expr),
      let folded := argumentsOf t block (es.map fun e => e.fold.1)
      let written := argumentsOf t block es
      folded.value = written.value ∧ folded.errors = written.errors ∧
      t.findRoutine block name folded.value = t.findRoutine block name written.value := by
  have htype := typeOf_fold t block e
  refine ⟨by rw [htype], by rw [htype], isVariable_fold t block e, Expr.position_fold e, ?_⟩
  intro name es folded written
  have harguments : folded = written := by
    have hfolded := argumentsOf_foldAll t block es
    rwa [Expr.foldAll_eq_map] at hfolded
  rw [harguments]
  exact ⟨rfl, rfl, rfl⟩

end Typing

/-! ## What is left to fold -/

namespace Expr

/-- The value of an operation on scalar literals, if the expression is one and has a value. -/
def operation? : Expr → Option Value
  | binary _ op left right => do Value.binary? op (← Value.ofExpr? left) (← Value.ofExpr? right)
  | unary _ op operand => do Value.unary? op (← Value.ofExpr? operand)
  | _ => none

/-- No operation in the expression, however deep, can be computed ahead. -/
def Normal (e : Expr) : Prop := ∀ s ∈ e.subexprs, s.operation? = none

instance (e : Expr) : Decidable e.Normal :=
  inferInstanceAs (Decidable (∀ s ∈ e.subexprs, s.operation? = none))

variable {e : Expr}

theorem ofExpr?_eq_none (h : e.isScalarLiteral = false) : Value.ofExpr? e = none := by
  cases e <;> first | rfl | cases h

theorem fold_flag (e : Expr) : e.fold.2 = e.fold.1.isScalarLiteral := by
  cases e with
  | int | real | char | bool | string | name | element | call => rfl
  | binary | unary =>
    rw [fold]
    dsimp only
    split
    · next v _ => cases v <;> rfl
    · rfl

/-- An operation on scalar literals computed ahead, and any other expression as it is. -/
def reduced (e : Expr) : Expr :=
  match e.operation? with
  | some v => v.toExpr e.position
  | none => e

theorem reduced_of_some {v : Value} (h : e.operation? = some v) :
    e.reduced = v.toExpr e.position := by
  rw [reduced, h]

theorem reduced_of_none (h : e.operation? = none) : e.reduced = e := by
  rw [reduced, h]

theorem fold_eq_reduced (e : Expr) : e.fold.1 = e.foldParts.reduced := by
  cases e with
  | int | real | char | bool | string | name | element | call => rfl
  | binary p op l r =>
    -- The guard before the operation is met whenever both operands are scalar literals.
    have hguard : (do
        guard (l.fold.2 && r.fold.2)
        Value.binary? op (← Value.ofExpr? l.fold.1) (← Value.ofExpr? r.fold.1)) =
          (binary p op l r).foldParts.operation? := by
      rw [fold_flag, fold_flag, foldParts, operation?]
      by_cases hl : l.fold.1.isScalarLiteral = true
      · by_cases hr : r.fold.1.isScalarLiteral = true
        · rw [hl, hr]
          rfl
        · rw [Bool.not_eq_true] at hr
          rw [hr, ofExpr?_eq_none hr]
          cases Value.ofExpr? l.fold.1 <;> simp
      · rw [Bool.not_eq_true] at hl
        rw [hl, ofExpr?_eq_none hl]
        rfl
    rw [fold]
    dsimp only
    rw [hguard, reduced]
    cases (binary p op l r).foldParts.operation? <;> rfl
  | unary p op e =>
    have hguard : (do
        guard e.fold.2
        Value.unary? op (← Value.ofExpr? e.fold.1)) = (unary p op e).foldParts.operation? := by
      rw [fold_flag, foldParts, operation?]
      by_cases he : e.fold.1.isScalarLiteral = true
      · rw [he]
        rfl
      · rw [Bool.not_eq_true] at he
        rw [he, ofExpr?_eq_none he]
        rfl
    rw [fold]
    dsimp only
    rw [hguard, reduced]
    cases (unary p op e).foldParts.operation? <;> rfl

theorem normal_toExpr (p : Position) (v : Value) : (v.toExpr p).Normal := by
  intro s hs
  cases v <;> cases mem_singleton.mp hs <;> rfl

/-- What is computed at the top leaves nothing to fold if nothing is left to fold in the parts. -/
theorem normal_reduced (h : ∀ s ∈ e.subexprs, s = e ∨ s.operation? = none) : e.reduced.Normal := by
  cases hvalue : e.operation? with
  | some v =>
    rw [reduced_of_some hvalue]
    exact normal_toExpr e.position v
  | none =>
    rw [reduced_of_none hvalue]
    intro s hs
    rcases h s hs with rfl | hnone
    · exact hvalue
    · exact hnone

mutual

theorem normal_fold : ∀ e : Expr, e.fold.1.Normal
  | int .. | real .. | char .. | bool .. | string .. | name .. => by
    intro s hs
    cases mem_singleton.mp hs
    rfl
  | element p n indices => forall_mem_cons.mpr ⟨rfl, normal_foldAll indices⟩
  | call p n arguments => forall_mem_cons.mpr ⟨rfl, normal_foldAll arguments⟩
  | binary p op l r => by
    rw [fold_eq_reduced]
    refine normal_reduced fun s hs => ?_
    rw [foldParts, subexprs, mem_cons, mem_append] at hs
    rcases hs with hs | hs | hs
    · exact .inl hs
    · exact .inr (normal_fold l s hs)
    · exact .inr (normal_fold r s hs)
  | unary p op e => by
    rw [fold_eq_reduced]
    refine normal_reduced fun s hs => ?_
    rw [foldParts, subexprs, mem_cons] at hs
    exact hs.imp_right fun hs => normal_fold e s hs

theorem normal_foldAll : ∀ es : List Expr, ∀ s ∈ subexprsAll (foldAll es), s.operation? = none
  | [], s, hs => by cases hs
  | e :: es, s, hs => by
    rcases mem_append.mp hs with hs | hs
    · exact normal_fold e s hs
    · exact normal_foldAll es s hs

end

mutual

theorem fold_of_normal : ∀ e : Expr, e.Normal → e.fold.1 = e
  | int .., _ | real .., _ | char .., _ | bool .., _ | string .., _ | name .., _ => rfl
  | element p n indices, h => by
    rw [fold, foldAll_of_normal indices fun s hs => h s (mem_cons_of_mem _ hs)]
  | call p n arguments, h => by
    rw [fold, foldAll_of_normal arguments fun s hs => h s (mem_cons_of_mem _ hs)]
  | binary p op l r, h => by
    have hl := fold_of_normal l fun s hs =>
      h s (mem_cons_of_mem _ (mem_append_left _ hs))
    have hr := fold_of_normal r fun s hs =>
      h s (mem_cons_of_mem _ (mem_append_right _ hs))
    rw [fold_eq_reduced, foldParts, hl, hr, reduced_of_none (h _ (mem_subexprs_self _))]
  | unary p op e, h => by
    have he := fold_of_normal e fun s hs => h s (mem_cons_of_mem _ hs)
    rw [fold_eq_reduced, foldParts, he, reduced_of_none (h _ (mem_subexprs_self _))]

theorem foldAll_of_normal : ∀ es : List Expr, (∀ s ∈ subexprsAll es, s.operation? = none) →
    foldAll es = es
  | [], _ => rfl
  | e :: es, h => by
    rw [foldAll, fold_of_normal e fun s hs => h s (mem_append_left _ hs),
      foldAll_of_normal es fun s hs => h s (mem_append_right _ hs)]

end

/-- Folding is done in one pass: the flag says that a scalar literal is left, folding once more
changes neither the expression nor the flag, and no operation on scalar literals that has a value is
left anywhere in the expression. -/
theorem fold_normalizes (e : Expr) :
    (e.fold.2 = true ↔ e.fold.1.isScalarLiteral = true) ∧ e.fold.1.fold = e.fold ∧
    e.fold.1.Normal := by
  have hnormal := normal_fold e
  have hagain : e.fold.1.fold.1 = e.fold.1 := fold_of_normal _ hnormal
  refine ⟨by rw [fold_flag], Prod.ext hagain ?_, hnormal⟩
  rw [fold_flag, fold_flag, hagain]

/-- A division by zero has no value, so `7 div 0` is left as it is. -/
example : (binary .start .div (int .start 7) (int .start 0)).Normal := by decide

end Expr

end MiniPascal
