import MiniPascal.Check
import MiniPascal.Proofs.Lookup

/-!
# Later blocks do not matter

What a name means in a block depends on this block and those around it. Where every name means the
same, the same statements pass.
-/

namespace MiniPascal

open List

namespace Scope.Table

variable {t t' : Table} {id : Nat}

theorem mem_ancestors_le {block : Nat} (h : block ∈ t.ancestors id) : block ≤ id := by
  fun_induction ancestors t id with
  | case1 id parent _ hlt ih =>
    rcases mem_cons.mp h with rfl | h
    · exact Nat.le_refl _
    · exact Nat.le_trans (ih h) (Nat.le_of_lt hlt)
  | case2 | case3 => exact Nat.le_of_eq (mem_singleton.mp h)

theorem mem_tail_ancestors_lt {block : Nat} (h : block ∈ (t.ancestors id).tail) : block < id := by
  rw [ancestors] at h
  split at h
  · split at h
    · next hlt => exact Nat.lt_of_le_of_lt (mem_ancestors_le h) hlt
    · cases h
  · cases h

theorem findSome?_congr {blocks : List Nat} {f g : Nat → Option Item}
    (h : ∀ b ∈ blocks, f b = g b) : blocks.findSome? f = blocks.findSome? g := by
  induction blocks with
  | nil => rfl
  | cons b bs ih =>
    obtain ⟨hb, hbs⟩ := forall_mem_cons.mp h
    simp only [findSome?_cons, hb, ih hbs]

/-- Every name means the same from a block of one table as from a block of another. -/
def Alike (t : Table) (block : Nat) (t' : Table) (block' : Nat) : Prop :=
  ∀ name fits, t.find? block name fits = t'.find? block' name fits

/-- Two tables in which every name means the same from a block. -/
def SameFrom (t t' : Table) (block : Nat) : Prop := Alike t block t' block

section

variable (h : t.blocks <+: t'.blocks) (hid : id < t.blocks.length)

include h hid

theorem getElem?_of_prefix : t'.blocks[id]? = t.blocks[id]? := by
  obtain ⟨more, h⟩ := h
  rw [← h, getElem?_append_left hid]

theorem ancestors_of_prefix : t'.ancestors id = t.ancestors id := by
  fun_induction ancestors t id with
  | case1 id parent hp hlt ih =>
    rw [ancestors, getElem?_of_prefix h hid, hp]
    simp only [hlt, dite_true, ih (Nat.lt_trans hlt hid)]
  | case2 id parent hp hlt =>
    rw [ancestors, getElem?_of_prefix h hid, hp]
    simp only [hlt, dite_false]
  | case3 id hp => rw [ancestors, getElem?_of_prefix h hid, hp]

theorem named_of_prefix (name : String) : t'.named id name = t.named id name := by
  rw [named, named, getElem?_of_prefix h hid]

theorem sameFrom_of_prefix : SameFrom t' t id := by
  intro name fits
  rw [find?, find?, ancestors_of_prefix h hid]
  refine findSome?_congr fun b hb => congrArg (List.find? fits) ?_
  exact named_of_prefix h (Nat.lt_of_le_of_lt (mem_ancestors_le hb) hid) name

end

namespace Alike

variable {block block' : Nat} (same : Alike t block t' block')
include same

theorem contains : t.contains block = t'.contains block' := by
  funext name
  rw [Table.contains, Table.contains, same]

theorem findData? : t.findData? block = t'.findData? block' := by
  funext name
  exact same name _

theorem findPlace? : t.findPlace? block = t'.findPlace? block' := by
  funext name
  rw [Table.findPlace?, Table.findPlace?, same.findData?, findResult?, findResult?, same]

theorem findRoutine : t.findRoutine block = t'.findRoutine block' := by
  funext name args
  simp only [Table.findRoutine, same name, same.contains]

theorem resolve : t.resolve block = t'.resolve block' := by
  funext name
  simp only [Table.resolve, same.findData?, same.findRoutine, findResult?, same name]

end Alike

end Scope.Table

section

open Scope

variable {t t' : Table} {block block' : Nat}

theorem Builtin.visible?_congr (same : Table.Alike t block t' block') :
    visible? t block = visible? t' block' := by
  funext name
  simp only [visible?, same.contains]

namespace Typing

theorem isVariable_congr (same : Table.Alike t block t' block') :
    isVariable t block = isVariable t' block' := by
  funext e
  cases e <;> simp only [isVariable, same.findPlace?, same.resolve]

theorem notPlace_congr (same : Table.Alike t block t' block') :
    notPlace t block = notPlace t' block' := by
  funext name p
  simp only [notPlace, same.contains]

mutual

theorem typeOf_congr (same : Table.Alike t block t' block') :
    ∀ e : Expr, typeOf t block e = typeOf t' block' e
  | .int .. | .real .. | .char .. | .bool .. | .string .. => rfl
  | .name .. => by simp only [typeOf, same.resolve]
  | .element _ _ indices => by
    simp only [typeOf, same.findPlace?, indicesSound_congr same indices, notPlace_congr same]
  | .call _ _ arguments => by
    simp only [typeOf, argumentsOf_congr same arguments, same.findRoutine,
      Builtin.visible?_congr same]
  | .binary _ _ l r => by simp only [typeOf, typeOf_congr same l, typeOf_congr same r]
  | .unary _ _ e => by simp only [typeOf, typeOf_congr same e]

theorem indicesSound_congr (same : Table.Alike t block t' block') :
    ∀ es : List Expr, indicesSound t block es = indicesSound t' block' es
  | [] => rfl
  | e :: es => by simp only [indicesSound, typeOf_congr same e, indicesSound_congr same es]

theorem argumentsOf_congr (same : Table.Alike t block t' block') :
    ∀ es : List Expr, argumentsOf t block es = argumentsOf t' block' es
  | [] => rfl
  | e :: es => by
    simp only [argumentsOf, typeOf_congr same e, argumentsOf_congr same es, isVariable_congr same]

end

end Typing

namespace Check

open Typing

variable {function : Option Heading}

theorem targetType_congr (same : Table.Alike t block t' block')
    (p : Position) (name : String) (indices : List Expr) :
    targetType ⟨t, block, function⟩ p name indices =
      targetType ⟨t', block', function⟩ p name indices := by
  simp only [targetType, Context.functionNamed?, same.findData?, indicesSound_congr same,
    notPlace_congr same]

theorem builtinArguments_congr (same : Table.Alike t block t' block')
    (b : Builtin) (es : List Expr) :
    builtinArguments ⟨t, block, function⟩ b es = builtinArguments ⟨t', block', function⟩ b es := by
  induction es with
  | nil => rfl
  | cons e es ih =>
    simp only [builtinArguments, read, typeOf_congr same, isVariable_congr same, ih]

mutual

theorem statement_congr (same : Table.Alike t block t' block') : ∀ s : Statement,
    statement ⟨t, block, function⟩ s = statement ⟨t', block', function⟩ s
  | .assign .. => by
    simp only [statement, assignment, targetType_congr same, typeOf_congr same]
  | .call .. => by
    simp only [statement, call, Builtin.visible?_congr same, builtinArguments_congr same,
      argumentsOf_congr same, same.findRoutine]
  | .compound _ parts => by simp only [statement, statements_congr same parts]
  | .branch _ _ onTrue none => by
    simp only [statement, condition, typeOf_congr same, statement_congr same onTrue]
  | .branch _ _ onTrue (some onFalse) => by
    simp only [statement, condition, typeOf_congr same, statement_congr same onTrue,
      statement_congr same onFalse]
  | .count _ _ _ _ _ body => by
    simp only [statement, counter, bound, same.findData?, typeOf_congr same,
      statement_congr same body]
  | .loop _ _ body => by
    simp only [statement, condition, typeOf_congr same, statement_congr same body]
  | .exit _ => rfl

theorem statements_congr (same : Table.Alike t block t' block') : ∀ ss : List Statement,
    statements ⟨t, block, function⟩ ss = statements ⟨t', block', function⟩ ss
  | [] => rfl
  | s :: ss => by simp only [statements, statement_congr same s, statements_congr same ss]

end

end Check

end

end MiniPascal
