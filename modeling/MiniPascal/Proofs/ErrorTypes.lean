import MiniPascal.Proofs.Blocks

/-!
# The error type and the messages

An expression has the error type exactly when a message says why, unless it calls a built-in
procedure, which has no type of its own.
-/

namespace MiniPascal

open List Scope

namespace Typing

variable {t : Table} {block : Nat}

mutual

/-- No call of the expression means a built-in procedure. -/
def avoidsBuiltins (t : Table) (block : Nat) : Expr → Bool
  | .element _ _ es => allAvoidBuiltins t block es
  | .call _ name es => !(Builtin.visible? t block name).isSome && allAvoidBuiltins t block es
  | .binary _ _ l r => avoidsBuiltins t block l && avoidsBuiltins t block r
  | .unary _ _ e => avoidsBuiltins t block e
  | _ => true

def allAvoidBuiltins (t : Table) (block : Nat) : List Expr → Bool
  | [] => true
  | e :: es => avoidsBuiltins t block e && allAvoidBuiltins t block es

end

/-- Where there is a message, the result is bad. -/
def Marks {α : Type} (bad : α → Prop) (x : Checked α) : Prop := x.errors ≠ [] → bad x.value

theorem Marks.pure {α : Type} {bad : α → Prop} (a : α) : Marks bad (Pure.pure a) :=
  fun h => (h rfl).elim

theorem Marks.bind {α β : Type} {bad : α → Prop} {bad' : β → Prop} {x : Checked α}
    {f : α → Checked β} (hx : Marks bad x) (hbad : ∀ a, bad a → bad' (f a).value)
    (hf : ∀ a, Marks bad' (f a)) : Marks bad' (x >>= f) := by
  intro h
  by_cases hnone : x.errors = []
  · refine hf x.value fun hrest => h ?_
    exact append_eq_nil_iff.mpr ⟨hnone, hrest⟩
  · exact hbad x.value (hx hnone)

theorem marks_binary (op : BinaryOp) (a b : Ty) (p : Position) :
    Marks (· = .error) (binary op a b p) := by
  unfold binary
  split
  · exact .pure _
  · split
    · exact .pure _
    · exact fun _ => rfl

theorem marks_unary (op : UnaryOp) (a : Ty) (p : Position) :
    Marks (· = .error) (unary op a p) := by
  unfold unary
  split
  · exact .pure _
  · split
    · exact .pure _
    · exact fun _ => rfl

theorem marks_index (a : Ty) (p : Position) : Marks (· = false) (index a p) := by
  unfold index
  split
  · exact .pure _
  · split
    · exact .pure _
    · exact fun _ => rfl

theorem marks_element (a : Ty) (name : String) (count : Nat) (sound : Bool) (p : Position) :
    Marks (· = .error) (element a name count sound p) := by
  unfold element
  split
  · exact .pure _
  · exact fun _ => rfl

theorem element_unsound (a : Ty) (name : String) (count : Nat) (p : Position) :
    (element a name count false p).value = .error := by
  unfold element
  split <;> rfl

mutual

theorem marks_typeOf : ∀ e : Expr, avoidsBuiltins t block e = true →
    Marks (· = .error) (typeOf t block e)
  | .int .., _ | .real .., _ | .char .., _ | .bool .., _ | .string .., _ => .pure _
  | .name _ n, _ => by
    rw [typeOf]
    split
    · exact .pure _
    · exact fun _ => rfl
  | .element p n indices, hcalls => by
    rw [typeOf]
    split
    · refine (marks_indicesSound indices hcalls).bind ?_ fun sound => marks_element _ n _ sound p
      rintro _ rfl
      exact element_unsound _ n _ p
    · exact fun _ => rfl
  | .call p n arguments, hcalls => by
    obtain ⟨hn, hcalls⟩ := Bool.and_eq_true_iff.mp hcalls
    rw [Bool.not_eq_true'] at hn
    rw [typeOf, hn]
    refine (marks_argumentsOf arguments hcalls).bind (fun args hargs => ?_) fun args => ?_
    · rw [if_neg Bool.false_ne_true, if_pos hargs]
      rfl
    · rw [if_neg Bool.false_ne_true]
      split
      · exact .pure _
      · split
        · exact .pure _
        · exact fun _ => rfl
  | .binary p op l r, hcalls => by
    obtain ⟨hl, hr⟩ := Bool.and_eq_true_iff.mp hcalls
    rw [typeOf]
    refine (marks_typeOf l hl).bind (fun a ha => ?_) fun a =>
      (marks_typeOf r hr).bind (fun b hb => ?_) fun b => marks_binary op a b p
    · subst ha
      rfl
    · subst hb
      simp [binary, Ty.isError, Ty.error]
  | .unary p op e, hcalls => by
    rw [typeOf]
    refine (marks_typeOf e hcalls).bind ?_ fun a => marks_unary op a p
    rintro _ rfl
    rfl

theorem marks_indicesSound : ∀ es : List Expr, allAvoidBuiltins t block es = true →
    Marks (· = false) (indicesSound t block es)
  | [], _ => .pure _
  | e :: es, hcalls => by
    obtain ⟨he, hes⟩ := Bool.and_eq_true_iff.mp hcalls
    rw [indicesSound]
    refine (marks_typeOf e he).bind ?_ fun a => (marks_index a e.position).bind ?_ fun sound =>
      (marks_indicesSound es hes).bind ?_ fun rest => .pure _
    · rintro _ rfl
      rfl
    · rintro _ rfl
      rfl
    · rintro _ rfl
      exact Bool.and_false sound

theorem marks_argumentsOf : ∀ es : List Expr, allAvoidBuiltins t block es = true →
    Marks (fun args => (args.any fun a => a.type.isError) = true) (argumentsOf t block es)
  | [], _ => .pure _
  | e :: es, hcalls => by
    obtain ⟨he, hes⟩ := Bool.and_eq_true_iff.mp hcalls
    rw [argumentsOf]
    refine (marks_typeOf e he).bind ?_ fun a => (marks_argumentsOf es hes).bind ?_ fun rest =>
      .pure _
    · rintro _ rfl
      rfl
    · intro rest hrest
      simp only [Checked.pure_value, any_cons, hrest, Bool.or_true]

end

end Typing

/-- In a table without the error type, an expression that calls no built-in procedure has it exactly
when there is a message about it. And no program has it in its table without a message. -/
theorem error_never_silent :
    (∀ (t : Table) (block : Nat) (e : Expr), t.Typed → Typing.avoidsBuiltins t block e = true →
      ((Typing.typeOf t block e).value = .error ↔ (Typing.typeOf t block e).errors ≠ [])) ∧
    ∀ p : Program, (∃ b ∈ (analyze p).table.blocks, ∃ i ∈ b.items, i.type.isError = true) →
      (analyze p).errors ≠ [] := by
  constructor
  · intro t block e ht hcalls
    refine ⟨fun hvalue herrors => ?_, Typing.marks_typeOf e hcalls⟩
    have hproper :=
      Typing.typeOf_not_error (ht.declared block) e (Checked.eq_pure_of_errors herrors)
    rw [hvalue] at hproper
    cases hproper
  · rintro p ⟨b, hb, i, hi, herror⟩ herrors
    obtain ⟨hchecked, htable⟩ := Analysis.analyze_clean herrors
    rw [htable] at hb
    rw [Analysis.finished_typed hchecked b hb i hi] at herror
    cases herror

/-- One constant, whose value is the name of nothing. -/
def unfounded : Program where
  name := "p"
  parameters := []
  position := ⟨1, 1⟩
  subprograms := []
  body := ⟨[⟨"c", .name ⟨2, 11⟩ "d", ⟨2, 7⟩⟩], [], [], ⟨3, 1⟩⟩

/-- A function hides a built-in procedure, and one of the operands has no declaration. -/
theorem unfounded_not_silent :
    let t : Table := { blocks := [⟨"p", none, [⟨"writeln", .int, .routine, [⟨.int, false⟩], false,
      ⟨1, 1⟩⟩]⟩] }
    let e : Expr := .binary ⟨2, 1⟩ .add (.call ⟨2, 1⟩ "writeln" [.int ⟨2, 9⟩ 1]) (.name ⟨2, 14⟩ "d")
    t.Typed ∧ Typing.avoidsBuiltins t 0 e = true ∧
      (Typing.typeOf t 0 e).errors = [⟨.undeclared "d", ⟨2, 14⟩⟩] ∧
      (Typing.typeOf t 0 e).value = .error ∧
      (∃ b ∈ (analyze unfounded).table.blocks, ∃ i ∈ b.items, i.type.isError = true) ∧
      (analyze unfounded).errors ≠ [] := by
  intro t e
  have htyped : t.Typed := by
    unfold Table.Typed
    decide
  have havoids : Typing.avoidsBuiltins t 0 e = true := by decide +kernel
  have herrors : (Typing.typeOf t 0 e).errors = [⟨.undeclared "d", ⟨2, 14⟩⟩] := by decide +kernel
  have hitem : ∃ b ∈ (analyze unfounded).table.blocks, ∃ i ∈ b.items, i.type.isError = true := by
    decide +kernel
  refine ⟨htyped, havoids, herrors, ?_, hitem, error_never_silent.2 unfounded hitem⟩
  exact (error_never_silent.1 t 0 e htyped havoids).mpr (by simp [herrors])

end MiniPascal
