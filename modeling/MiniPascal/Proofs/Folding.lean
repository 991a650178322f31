import Mathlib.Data.Option.Basic
import MiniPascal.Proofs.Checking
import MiniPascal.Tree.Fold

/-!
# Folding and types

An operation is folded only when its operands are literals on which it has a value. The value is
then of the type of the operation.
-/

namespace MiniPascal

namespace Value

def type : Value → Ty
  | int _ => .int
  | real _ => .real
  | char _ => .char
  | bool _ => .bool

variable {a b v : Value} {x : Float}

theorem finite?_type (h : finite? x = some v) : v.type = .real := by
  unfold finite? at h
  split at h
  · cases h
    rfl
  · cases h

theorem toReal?_type (h : a.toReal? = some x) : a.type = .int ∨ a.type = .real := by
  cases a with
  | int v => exact .inl rfl
  | real v => exact .inr rfl
  | char v | bool v => cases h

theorem arithmetic?_type {f : Int64 → Int64 → Option Int64} {g : Float → Float → Float}
    (h : arithmetic? f g a b = some v) :
    (∃ x y, a = int x ∧ b = int y ∧ v.type = .int) ∨
    ((a.type = .real ∨ b.type = .real) ∧ (a.type = .int ∨ a.type = .real) ∧
      (b.type = .int ∨ b.type = .real) ∧ v.type = .real) := by
  unfold arithmetic? at h
  split at h
  · next x y =>
    obtain ⟨z, _, rfl⟩ := Option.map_eq_some_iff.mp h
    exact .inl ⟨x, y, rfl, rfl, rfl⟩
  · next hne =>
    simp only [Option.bind_eq_bind, Option.bind_eq_some_iff] at h
    obtain ⟨x, hx, y, hy, h⟩ := h
    have ha := toReal?_type hx
    have hb := toReal?_type hy
    refine .inr ⟨?_, ha, hb, finite?_type h⟩
    cases a with
    | real x => exact .inl rfl
    | int x =>
      cases b with
      | real y => exact .inr rfl
      | int y => exact (hne x y rfl rfl).elim
      | char y | bool y => cases hy
    | char x | bool x => cases hx

theorem compare?_type {o : Ordering} (h : compare? a b = some o) :
    a.type = b.type ∨ ((a.type = .int ∨ a.type = .real) ∧ (b.type = .int ∨ b.type = .real)) := by
  unfold compare? at h
  split at h
  · exact .inl rfl
  · exact .inl rfl
  · exact .inl rfl
  · simp only [Option.bind_eq_bind, Option.bind_eq_some_iff] at h
    obtain ⟨x, hx, y, hy, _⟩ := h
    exact .inr ⟨toReal?_type hx, toReal?_type hy⟩

theorem type_isError (v : Value) : v.type.isError = false := by
  cases v <;> rfl

theorem binary?_type {op : BinaryOp} (h : binary? op a b = some v) :
    Ty.binary? op a.type b.type = some v.type := by
  cases op with
  | add | sub | mul =>
    rcases arithmetic?_type h with ⟨x, y, rfl, rfl, hv⟩ | ⟨hr, ha, hb, hv⟩
    · rw [hv]; rfl
    · rcases ha with ha | ha <;> rcases hb with hb | hb <;> rw [ha, hb] at hr ⊢ <;> rw [hv] <;>
        first | rfl | exact absurd hr (by decide)
  | divide =>
    simp only [binary?, divide?, Option.bind_eq_bind, Option.bind_eq_some_iff] at h
    obtain ⟨x, hx, y, hy, h⟩ := h
    split at h
    · cases h
    · rcases toReal?_type hx with ha | ha <;> rcases toReal?_type hy with hb | hb <;>
        rw [ha, hb, finite?_type h] <;> rfl
  | div | mod =>
    simp only [binary?] at h
    split at h
    · obtain ⟨z, _, rfl⟩ := Option.map_eq_some_iff.mp h
      rfl
    · cases h
  | and | or =>
    simp only [binary?] at h
    split at h
    · cases h
      rfl
    · cases h
  | equal | notEqual | less | lessEqual | greater | greaterEqual =>
    obtain ⟨o, ho, rfl⟩ := Option.map_eq_some_iff.mp h
    rcases compare?_type ho with hab | ⟨ha, hb⟩
    · rw [hab]
      cases b <;> rfl
    · rcases ha with ha | ha <;> rcases hb with hb | hb <;> rw [ha, hb] <;> rfl

theorem unary?_type {op : UnaryOp} (h : unary? op a = some v) :
    Ty.unary? op a.type = some v.type := by
  unfold unary? at h
  split at h
  · cases h; rfl
  · cases h; rfl
  · obtain ⟨z, _, rfl⟩ := Option.map_eq_some_iff.mp h
    rfl
  · cases h; rfl
  · cases h; rfl
  · cases h

theorem eq_toExpr_of_ofExpr? {e : Expr} (h : ofExpr? e = some v) : e = v.toExpr e.position := by
  cases e <;> simp only [ofExpr?, Option.some.injEq, reduceCtorEq] at h <;> subst h <;> rfl

@[simp] theorem position_toExpr (p : Position) (v : Value) : (v.toExpr p).position = p := by
  cases v <;> rfl

end Value

namespace Expr

/-- A binary operation is folded when its operands have become literals on which it has a value;
else it is kept, over its folded operands. -/
theorem fold_binary_cases (p : Position) (op : BinaryOp) (l r : Expr) :
    (∃ a b v, l.fold.1 = a.toExpr l.fold.1.position ∧ r.fold.1 = b.toExpr r.fold.1.position ∧
      Value.binary? op a b = some v ∧ (binary p op l r).fold.1 = v.toExpr p) ∨
    (binary p op l r).fold.1 = binary p op l.fold.1 r.fold.1 := by
  rw [fold]
  dsimp only
  split
  · next v hv =>
    obtain ⟨_, _, hv⟩ := Option.bind_eq_some_iff.mp hv
    obtain ⟨a, ha, hv⟩ := Option.bind_eq_some_iff.mp hv
    obtain ⟨b, hb, hv⟩ := Option.bind_eq_some_iff.mp hv
    exact .inl ⟨a, b, v, Value.eq_toExpr_of_ofExpr? ha, Value.eq_toExpr_of_ofExpr? hb, hv, rfl⟩
  · exact .inr rfl

theorem fold_unary_cases (p : Position) (op : UnaryOp) (e : Expr) :
    (∃ a v, e.fold.1 = a.toExpr e.fold.1.position ∧ Value.unary? op a = some v ∧
      (unary p op e).fold.1 = v.toExpr p) ∨ (unary p op e).fold.1 = unary p op e.fold.1 := by
  rw [fold]
  dsimp only
  split
  · next v hv =>
    obtain ⟨_, _, hv⟩ := Option.bind_eq_some_iff.mp hv
    obtain ⟨a, ha, hv⟩ := Option.bind_eq_some_iff.mp hv
    exact .inl ⟨a, v, Value.eq_toExpr_of_ofExpr? ha, hv, rfl⟩
  · exact .inr rfl

theorem fold_unary_literal {op : UnaryOp} {a v : Value} (h : Value.unary? op a = some v)
    (p q : Position) : (unary p op (a.toExpr q)).fold = (v.toExpr p, true) := by
  have hoperand : (a.toExpr q).fold = (a.toExpr q, true) := by cases a <;> rfl
  have hresult : (do
      guard (true = true)
      Value.unary? op (← Value.ofExpr? (a.toExpr q))) = some v := by
    have hvalue : Value.ofExpr? (a.toExpr q) = some a := by cases a <;> rfl
    rw [hvalue]
    exact h
  rw [fold, hoperand]
  dsimp only
  rw [hresult]

@[simp] theorem position_fold (e : Expr) : e.fold.1.position = e.position := by
  cases e with
  | int | real | char | bool | string | name | element | call => rfl
  | binary p op l r =>
    rcases fold_binary_cases p op l r with ⟨_, _, _, _, _, _, h⟩ | h <;> rw [h]
    · exact Value.position_toExpr p _
    · rfl
  | unary p op e =>
    rcases fold_unary_cases p op e with ⟨_, _, _, _, h⟩ | h <;> rw [h]
    · exact Value.position_toExpr p _
    · rfl

theorem foldAll_eq_map (es : List Expr) : foldAll es = es.map fun e => e.fold.1 := by
  induction es with
  | nil => rfl
  | cons e es ih => rw [foldAll, ih, List.map_cons]

@[simp] theorem length_foldAll (es : List Expr) : (foldAll es).length = es.length := by
  rw [foldAll_eq_map, List.length_map]

end Expr

namespace Typing

open Scope

variable (t : Table) (block : Nat)

theorem typeOf_toExpr (p : Position) (v : Value) : typeOf t block (v.toExpr p) = pure v.type := by
  cases v <;> rfl

theorem binary_of_type {op : BinaryOp} {a b c : Ty} (ha : a.isError = false)
    (hb : b.isError = false) (h : Ty.binary? op a b = some c) (p : Position) :
    binary op a b p = pure c := by
  simp [binary, ha, hb, h]

theorem unary_of_type {op : UnaryOp} {a c : Ty} (ha : a.isError = false)
    (h : Ty.unary? op a = some c) (p : Position) : unary op a p = pure c := by
  simp [unary, ha, h]

theorem isVariable_fold (e : Expr) : isVariable t block e.fold.1 = isVariable t block e := by
  cases e with
  | int | real | char | bool | string | name | element | call => rfl
  | binary p op l r =>
    rcases Expr.fold_binary_cases p op l r with ⟨_, _, v, _, _, _, h⟩ | h <;> rw [h]
    · cases v <;> rfl
    · rfl
  | unary p op e =>
    rcases Expr.fold_unary_cases p op e with ⟨_, v, _, _, h⟩ | h <;> rw [h]
    · cases v <;> rfl
    · rfl

mutual

theorem typeOf_fold : ∀ e : Expr, typeOf t block e.fold.1 = typeOf t block e
  | .int .. | .real .. | .char .. | .bool .. | .string .. | .name .. => rfl
  | .element p name indices => by
    simp only [Expr.fold, typeOf, indicesSound_foldAll indices, Expr.length_foldAll]
  | .call p name arguments => by
    simp only [Expr.fold, typeOf, argumentsOf_foldAll arguments]
  | .binary p op l r => by
    have hl := typeOf_fold l
    have hr := typeOf_fold r
    rcases Expr.fold_binary_cases p op l r with ⟨a, b, v, ha, hb, hv, h⟩ | h <;> rw [h]
    · rw [ha, typeOf_toExpr] at hl
      rw [hb, typeOf_toExpr] at hr
      rw [typeOf_toExpr, typeOf, ← hl, ← hr]
      exact (binary_of_type a.type_isError b.type_isError (Value.binary?_type hv) p).symm
    · rw [typeOf, typeOf, hl, hr]
  | .unary p op e => by
    have he := typeOf_fold e
    rcases Expr.fold_unary_cases p op e with ⟨a, v, ha, hv, h⟩ | h <;> rw [h]
    · rw [ha, typeOf_toExpr] at he
      rw [typeOf_toExpr, typeOf, ← he]
      exact (unary_of_type a.type_isError (Value.unary?_type hv) p).symm
    · rw [typeOf, typeOf, he]

theorem indicesSound_foldAll :
    ∀ es : List Expr, indicesSound t block (Expr.foldAll es) = indicesSound t block es
  | [] => rfl
  | e :: es => by
    rw [Expr.foldAll, indicesSound, indicesSound, typeOf_fold e, indicesSound_foldAll es,
      Expr.position_fold]

theorem argumentsOf_foldAll :
    ∀ es : List Expr, argumentsOf t block (Expr.foldAll es) = argumentsOf t block es
  | [] => rfl
  | e :: es => by
    rw [Expr.foldAll, argumentsOf, argumentsOf, typeOf_fold e, argumentsOf_foldAll es,
      isVariable_fold]

end

end Typing

end MiniPascal
