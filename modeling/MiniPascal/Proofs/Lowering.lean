import MiniPascal.C.OfStatement
import MiniPascal.Proofs.Folding
import MiniPascal.Proofs.WellTyped

/-!
# What is checked can be lowered

Lowering does not fail on statements without problems, as long as the names that are visible can be
written in C (`Env.Ready`).
-/

namespace MiniPascal

theorem Except.bind_eq_ok {ε α β : Type} {x : Except ε α} {f : α → Except ε β} {b : β} :
    x >>= f = .ok b ↔ ∃ a, x = .ok a ∧ f a = .ok b := by
  cases x with
  | error e => exact ⟨nofun, nofun⟩
  | ok a => exact ⟨fun h => ⟨a, rfl, h⟩, fun ⟨_, ha, h⟩ => by cases ha; exact h⟩

theorem Except.bind₂_eq_ok {ε α β γ : Type} {x : Except ε α} {y : α → Except ε β}
    {f : α → β → Except ε γ} {c : γ} :
    (x >>= fun a => y a >>= f a) = .ok c ↔ ∃ a, x = .ok a ∧ ∃ b, y a = .ok b ∧ f a b = .ok c := by
  simp only [Except.bind_eq_ok]

end MiniPascal

namespace MiniPascal.C

open Scope Typing List

namespace Lower

/-- A part of a program that has a form in C. -/
def Succeeds {α : Type} (x : Lower α) : Prop := ∃ a, x = .ok a

theorem succeeds_pure {α : Type} (a : α) : Succeeds (pure a : Lower α) := ⟨a, rfl⟩

theorem Succeeds.bind {α β : Type} {x : Lower α} {f : α → Lower β} (hx : Succeeds x)
    (hf : ∀ a, Succeeds (f a)) : Succeeds (x >>= f) := by
  obtain ⟨a, rfl⟩ := hx
  exact hf a

theorem Succeeds.map {α β : Type} {x : Lower α} {f : α → β} (hx : Succeeds x) :
    Succeeds (x >>= fun a => pure (f a)) :=
  hx.bind fun _ => succeeds_pure _

end Lower

open Lower

/-- Every routine and every result that is visible from a block has a name in C. -/
structure Env.Named (env : Env) : Prop where
  routine : ∀ item, env.table.Visible env.block item → item.kind = .routine →
    (env.names.routines.lookup item.position).isSome
  result : ∀ item, env.table.Visible env.block item → item.kind = .result → env.function.isSome
  resultName : ∀ h, env.function = some h → (env.names.results.lookup h.position).isSome

/-- Every name that is visible from a block has what its form in C needs. -/
structure Env.Ready (env : Env) : Prop extends env.Named where
  declared : Declared env.table env.block

variable {env : Env} {indices arguments : List MiniPascal.Expr} {name : String} {item : Item}

variable {es : List MiniPascal.Expr} {p : Position} {e : MiniPascal.Expr} {T : MiniPascal.Ty}
  {args : List Argument} {h : Heading} {b : Builtin}

theorem convertAll_succeeds (h : ∀ e ∈ es, Succeeds (convert env e)) :
    Succeeds (convertAll env es) := by
  induction es with
  | nil => exact succeeds_pure _
  | cons e es ih =>
    obtain ⟨he, hes⟩ := forall_mem_cons.mp h
    exact he.bind fun _ => (ih hes).map

section

variable (named : env.Named)

include named

theorem routineName_succeeds (hv : env.table.Visible env.block item) (hk : item.kind = .routine)
    (name : String) : Succeeds (routineName env name item.position) := by
  obtain ⟨routine, h⟩ := Option.isSome_iff_exists.mp (named.routine item hv hk)
  exact ⟨routine, by rw [routineName, h]⟩

theorem resultVar_succeeds (hf : env.function = some h) : Succeeds (resultVar env h) := by
  obtain ⟨name, hn⟩ := Option.isSome_iff_exists.mp (named.resultName h hf)
  exact ⟨_, by rw [resultVar, hn]⟩

theorem placeVar_succeeds (hv : env.table.Visible env.block item) (p : Position) (name : String) :
    Succeeds (placeVar env p item name) := by
  unfold placeVar
  split
  · next hk =>
    obtain ⟨h, hf⟩ := Option.isSome_iff_exists.mp (named.result item hv hk)
    rw [hf]
    exact resultVar_succeeds named hf
  · exact succeeds_pure _

theorem place_succeeds (hn : env.table.findPlace? env.block name = some item) (p : Position)
    {count : Nat} (hc : count ≤ item.type.dims.length) {indices : Lower (List Expr)}
    (hi : Succeeds indices) : Succeeds (place env p name count indices) := by
  rw [place, hn]
  refine (placeVar_succeeds named (Table.findPlace?_visible hn) p name).bind fun v => ?_
  rw [if_neg (Nat.not_lt.mpr hc)]
  split
  · exact succeeds_pure _
  · exact hi.map

theorem callOf_succeeds (hn : env.table.findRoutine env.block name args = .ok item) (p : Position)
    {values : Lower (List Expr)} (hv : Succeeds values) :
    Succeeds (callOf env p name args values) := by
  obtain ⟨hk, _, _, hvis⟩ := Table.findRoutine_ok hn
  rw [callOf, hn]
  exact hv.bind fun _ => (routineName_succeeds named hvis hk name).map

theorem convert_succeeds (h : WellTyped env.table env.block e) : Succeeds (convert env e) := by
  induction h with
  | int | real | char | bool | string =>
    exact succeeds_pure _
  | name p hn =>
    rw [convert, hn]
    rcases Table.resolve_ok hn with ⟨hk, hr⟩ | ⟨hk, hp⟩
    · simp only [hk, if_true]
      exact (routineName_succeeds named (Table.resolve_visible hn) hk _).map
    · simp only [hk, if_false]
      exact place_succeeds named hp p (Nat.zero_le _) (succeeds_pure [])
  | element p hn _ _ hd _ ih =>
    exact place_succeeds named hn p hd (convertAll_succeeds ih)
  | call p hb _ _ hn _ ih =>
    rw [convert, Env.builtin?, hb, if_neg (by decide), Env.arguments, value_argumentsOf]
    exact (callOf_succeeds named hn p (convertAll_succeeds ih)).map
  | binary p _ _ _ _ _ ihl ihr =>
    exact ihl.bind fun _ => ihr.map
  | @unary p op _ _ _ _ _ _ ih =>
    exact ih.bind fun _ => by cases op <;> exact succeeds_pure _

end

/-- An expression without problems, which is no call of a procedure. -/
def Env.Typed (env : Env) (e : MiniPascal.Expr) : Prop :=
  ∃ T, Typing.typeOf env.table env.block e = pure T ∧
    (T.base = .void → isVariable env.table env.block e = true)

namespace Env.Typed

variable {e : MiniPascal.Expr}

theorem wellTyped (ready : env.Ready) (h : env.Typed e) : WellTyped env.table env.block e := by
  obtain ⟨T, hT, hv⟩ := h
  exact wellTyped_of_typeOf e hT (typeOf_not_error ready.declared e hT) hv

theorem prepared (h : env.Typed e) : env.Typed (env.prepared e) := by
  obtain ⟨T, hT, hv⟩ := h
  unfold Env.prepared
  split
  · refine ⟨T, (Typing.typeOf_fold env.table env.block e).trans hT, fun hb => ?_⟩
    exact (isVariable_fold env.table env.block e).trans (hv hb)
  · exact ⟨T, hT, hv⟩

end Env.Typed

theorem typed_of_arguments (h : argumentsOf env.table env.block es = pure args)
    (hacc : item.accepts args = true) : ∀ e ∈ es, env.Typed e := by
  obtain ⟨rfl, htypes⟩ := argumentsOf_eq_pure h
  intro e he
  exact ⟨_, htypes e he, accepted_not_void hacc (mem_map_of_mem he)⟩

def Env.context (env : Env) : Check.Context := ⟨env.table, env.block, env.function⟩

theorem returns_of_function (hf : env.function = some h) : h.returns.isSome := by
  obtain ⟨f, _, hf⟩ := Option.bind_eq_some_iff.mp hf
  unfold Analysis.functionOf at hf
  split at hf
  · next hreturns =>
    cases hf
    exact hreturns
  · cases hf

theorem ofBase_succeeds {base : MiniPascal.Ty.Base} (h : base ≠ .error) (p : Position) :
    Succeeds (Ty.ofBase base p) := by
  cases base with
  | error => exact (h rfl).elim
  | _ => exact succeeds_pure _

theorem builtinArguments_eq_pure {c : Check.Context}
    (h : Check.builtinArguments c b (e :: es) = pure ()) :
    ∃ T, Typing.typeOf c.table c.block e = pure T ∧
      (if b.isOutput then Check.written T e else Check.read c b T e) = pure () ∧
      Check.builtinArguments c b es = pure () := by
  obtain ⟨T, hT, h⟩ := Checked.bind_eq_pure.mp h
  refine ⟨T, hT, ?_⟩
  split at h
  · next hb =>
    obtain ⟨_, hone, h⟩ := Checked.bind_eq_pure.mp h
    exact ⟨(if_pos hb).trans hone, h⟩
  · next hb =>
    obtain ⟨_, hone, h⟩ := Checked.bind_eq_pure.mp h
    exact ⟨(if_neg hb).trans hone, h⟩

theorem counterVar_succeeds (h : Check.counter env.context p name = pure ()) :
    Succeeds (counterVar env p name) := by
  unfold Check.counter at h
  unfold counterVar
  split at h
  · next item hd =>
    rw [show env.table.findData? env.block name = some item from hd]
    exact succeeds_pure _
  · cases h

section

variable (ready : env.Ready)

include ready

theorem lowerExpr_succeeds (h : env.Typed e) : Succeeds (lowerExpr env e) :=
  convert_succeeds ready.toNamed (h.prepared.wellTyped ready)

theorem lowerExprs_succeeds (h : ∀ e ∈ es, env.Typed e) : Succeeds (lowerExprs env es) := by
  refine convertAll_succeeds fun e he => ?_
  obtain ⟨source, hs, rfl⟩ := mem_map.mp he
  exact lowerExpr_succeeds ready (h source hs)

theorem typed_of_indices {sound : Bool} (h : indicesSound env.table env.block es = pure sound) :
    ∀ e ∈ es, env.Typed e := by
  obtain rfl := indicesSound_true ready.declared es h
  intro e he
  exact ⟨.int, (wellTyped_of_indicesSound es h e he).2,
    fun hvoid => (MiniPascal.Ty.Proper.int.not_void hvoid).elim⟩

/-- A target without problems is the result of the function around, or a variable behind sound
indices. -/
theorem targetType_eq_pure (h : Check.targetType env.context p name indices = pure T) :
    (∃ f type, env.function = some f ∧ f.name = name ∧ f.returns = some type ∧ indices = [] ∧
      T = .ofScalar type) ∨
    ∃ item, env.table.findData? env.block name = some item ∧ item.kind = .var ∧
      indicesSound env.table env.block indices = pure true ∧
      indices.length ≤ item.type.dims.length ∧
      T = ⟨item.type.base, item.type.dims.drop indices.length⟩ ∧
      ∀ f, env.function = some f → f.name = name → indices ≠ [] := by
  have hnamed : env.context.functionNamed? name =
      env.function.bind fun f => if f.name = name then f.returns else none := rfl
  unfold Check.targetType at h
  rw [hnamed] at h
  split at h
  · next type hf =>
    obtain ⟨f, hf, hreturns⟩ := Option.bind_eq_some_iff.mp hf
    rw [Option.ite_none_right_eq_some] at hreturns
    exact .inl ⟨f, type, hf, hreturns.1, hreturns.2, rfl, (Checked.pure_inj.mp h).symm⟩
  · next es _ _ hother =>
    have hfunction : ∀ f, env.function = some f → f.name = name → es ≠ [] := by
      intro f hf hname
      obtain ⟨type, htype⟩ := Option.isSome_iff_exists.mp (returns_of_function hf)
      refine hother type ?_
      rw [hf, Option.bind_some, if_pos hname, htype]
    split at h
    · next item hfound =>
      have hfound : env.table.findData? env.block name = some item := hfound
      split at h
      · cases h
      · next hconst =>
        obtain ⟨sound, hs, h⟩ := Checked.bind_eq_pure.mp h
        obtain rfl := indicesSound_true ready.declared _ hs
        have hkind : item.kind = .var := by
          have hdata := (Table.findData?_some hfound).1
          simpa [Item.isData, hconst] using hdata
        unfold element at h
        split at h
        · next hi =>
          obtain ⟨hlen, rfl⟩ := Ty.indexed?_eq_some.mp hi
          exact .inr ⟨item, hfound, hkind, hs, hlen, (Checked.pure_inj.mp h).symm, hfunction⟩
        · cases h
    · cases h

theorem targetType_not_error (h : Check.targetType env.context p name indices = pure T) :
    T.isError = false := by
  rcases targetType_eq_pure ready h with ⟨_, type, _, _, _, _, rfl⟩ | ⟨item, hd, _, _, _, rfl, _⟩
  · cases type <;> rfl
  · exact ready.declared item (Table.findData?_some hd).2.2

theorem target_succeeds (h : Check.targetType env.context p name indices = pure T) :
    Succeeds (target env p name indices) := by
  rcases targetType_eq_pure ready h with ⟨f, _, hf, hname, _, rfl, _⟩ |
      ⟨item, hd, _, hs, hlen, _, hother⟩
  · unfold target
    simp only [hf, hname, if_true]
    exact (resultVar_succeeds ready.toNamed hf).map
  · have hp := place_succeeds ready.toNamed (Table.findPlace?_of_findData? hd) p hlen
      (lowerExprs_succeeds ready (typed_of_indices ready hs))
    unfold target
    cases hf : env.function with
    | none => exact hp
    | some f =>
      cases indices with
      | cons => exact hp
      | nil =>
        dsimp only
        rw [if_neg fun hname => hother f hf hname rfl]
        exact hp

theorem typed_of_builtin (h : Check.builtinArguments env.context b es = pure ()) :
    ∀ e ∈ es, env.Typed e := by
  induction es with
  | nil => exact forall_mem_nil _
  | cons e es ih =>
    obtain ⟨T, hT, hone, hrest⟩ := builtinArguments_eq_pure h
    have hne := typeOf_not_error ready.declared e hT
    refine forall_mem_cons.mpr ⟨⟨T, hT, fun hv => ?_⟩, ih hrest⟩
    split at hone
    · simp [Check.written, hne, hv] at hone
    · unfold Check.read at hone
      rw [hne, if_neg (by decide)] at hone
      split at hone
      · cases hone
      · next hvar => simpa [Env.context] using hvar

theorem format_succeeds (b : Builtin) (h : ∀ e ∈ es, env.Typed e) : Succeeds (format env b es) := by
  induction es with
  | nil => exact succeeds_pure _
  | cons e es ih =>
    obtain ⟨he, hes⟩ := forall_mem_cons.mp h
    have hbase : (env.typeOf e).base ≠ .error := by
      obtain ⟨T, hT, _⟩ := he
      rw [Env.typeOf, hT]
      simpa [Ty.isError] using typeOf_not_error ready.declared e hT
    unfold format
    split
    · exact (ih hes).map
    · exact (ofBase_succeeds hbase _).bind fun _ =>
        (lowerExpr_succeeds ready he).bind fun _ => (ih hes).map

theorem typeOf_of_isA {base : MiniPascal.Ty.Base} {problem : MiniPascal.Ty → Checked Unit}
    (hp : ∀ T, problem T ≠ pure ())
    (h : (do
      let T ← Typing.typeOf env.table env.block e
      if !T.isError && !T.isA base then problem T) = pure ()) :
    Typing.typeOf env.table env.block e = pure ⟨base, []⟩ := by
  obtain ⟨T, hT, h⟩ := Checked.bind_eq_pure.mp h
  rw [typeOf_not_error ready.declared e hT] at h
  split at h
  · exact (hp T h).elim
  · next hA =>
    obtain rfl := Ty.isA_iff.mp (by simpa using hA)
    exact hT

theorem typed_of_condition {keyword : Keyword}
    (h : Check.condition env.context keyword e = pure ()) : env.Typed e :=
  ⟨_, typeOf_of_isA ready (fun _ => Checked.complain_ne_pure _ _ _) h, nofun⟩

theorem typed_of_bound (h : Check.bound env.context e = pure ()) : env.Typed e :=
  ⟨_, typeOf_of_isA ready (fun _ => Checked.complain_ne_pure _ _ _) h, nofun⟩

theorem leaving_succeeds : Succeeds (leaving env) := by
  unfold leaving
  split
  · exact succeeds_pure _
  · next h hs =>
    split
    · next hr =>
      have hf : env.function = some h := by simp [Env.function, hs, Analysis.functionOf, hr]
      exact (resultVar_succeeds ready.toNamed hf).map
    · exact succeeds_pure _

theorem assignment_eq_pure {value : MiniPascal.Expr}
    (h : Check.assignment env.context p name indices value = pure ()) :
    ∃ A B, Check.targetType env.context p name indices = pure A ∧
      Typing.typeOf env.table env.block value = pure B ∧ Ty.assignable A B = true := by
  obtain ⟨A, hA, B, hB, h⟩ := Checked.bind₂_eq_pure.mp h
  refine ⟨A, B, hA, hB, ?_⟩
  rw [targetType_not_error ready hA, typeOf_not_error ready.declared value hB] at h
  split at h
  · contradiction
  · split at h
    · cases h
    · split at h
      · cases h
      · next hassignable => simpa using hassignable

theorem typed_of_assignment {value : MiniPascal.Expr}
    (h : Check.assignment env.context p name indices value = pure ()) :
    (∃ T, Check.targetType env.context p name indices = pure T) ∧ env.Typed value := by
  obtain ⟨A, B, hA, hB, hassignable⟩ := assignment_eq_pure ready h
  exact ⟨⟨A, hA⟩, B, hB, fun hvoid => ((Ty.assignable_proper hassignable).2.not_void hvoid).elim⟩

theorem assignment_succeeds {value : MiniPascal.Expr}
    (h : Check.assignment env.context p name indices value = pure ()) :
    Succeeds (lowerStatement env (.assign p name indices value)) := by
  obtain ⟨⟨_, ht⟩, hvalue⟩ := typed_of_assignment ready h
  exact (target_succeeds ready ht).bind fun _ => (lowerExpr_succeeds ready hvalue).map

theorem typed_of_call (h : Check.call env.context p name arguments = pure ()) :
    (∀ e ∈ arguments, env.Typed e) ∧ (env.builtin? name = none →
      ∃ item, env.table.findRoutine env.block name (env.arguments arguments) = .ok item) := by
  unfold Check.call at h
  split at h
  · next b hb =>
    have hb : env.builtin? name = some b := hb
    exact ⟨typed_of_builtin ready h, fun hnone => by rw [hb] at hnone; cases hnone⟩
  · obtain ⟨args, hargs, h⟩ := Checked.bind_eq_pure.mp h
    have hargs : argumentsOf env.table env.block arguments = pure args := hargs
    split at h
    · next herr =>
      obtain ⟨a, ha, he⟩ := any_eq_true.mp herr
      rw [argumentsOf_not_error ready.declared _ hargs a ha] at he
      cases he
    · split at h
      · next item hn =>
        refine ⟨typed_of_arguments hargs (Table.findRoutine_ok hn).2.1, fun _ => ⟨item, ?_⟩⟩
        rw [Env.arguments, hargs]
        exact hn
      · cases h

theorem call_succeeds (h : Check.call env.context p name arguments = pure ()) :
    Succeeds (lowerStatement env (.call p name arguments)) := by
  obtain ⟨htyped, hcall⟩ := typed_of_call ready h
  rw [lowerStatement]
  cases hb : env.builtin? name with
  | some b => exact (format_succeeds ready b htyped).map
  | none =>
    obtain ⟨item, hitem⟩ := hcall hb
    exact (callOf_succeeds ready.toNamed hitem p (lowerExprs_succeeds ready htyped)).map

end

mutual

theorem lowerStatement_succeeds (ready : env.Ready) : ∀ (s : MiniPascal.Statement),
    Check.statement env.context s = pure () → Succeeds (lowerStatement env s)
  | .assign _ _ _ _, h => by
    exact assignment_succeeds ready h
  | .call _ _ _, h => by
    exact call_succeeds ready h
  | .compound _ parts, h => by
    exact (lowerStatements_succeeds ready parts h).map
  | .branch _ e onTrue none, h => by
    obtain ⟨_, he, _, ht, _⟩ := Checked.bind₂_eq_pure.mp h
    exact (lowerExpr_succeeds ready (typed_of_condition ready he)).bind fun _ =>
      (lowerStatement_succeeds ready onTrue ht).map
  | .branch _ e onTrue (some onFalse), h => by
    obtain ⟨_, he, _, ht, hf⟩ := Checked.bind₂_eq_pure.mp h
    exact (lowerExpr_succeeds ready (typed_of_condition ready he)).bind fun _ =>
      (lowerStatement_succeeds ready onTrue ht).bind fun _ =>
        (lowerStatement_succeeds ready onFalse hf).map
  | .count _ _ first last _ body, h => by
    obtain ⟨_, hc, _, hf, h⟩ := Checked.bind₂_eq_pure.mp h
    obtain ⟨_, hl, hb⟩ := Checked.bind_eq_pure.mp h
    exact (counterVar_succeeds hc).bind fun _ =>
      (lowerExpr_succeeds ready (typed_of_bound ready hf)).bind fun _ =>
        (lowerExpr_succeeds ready (typed_of_bound ready hl)).bind fun _ =>
          (lowerStatement_succeeds ready body hb).map
  | .loop _ e body, h => by
    obtain ⟨_, he, hb⟩ := Checked.bind_eq_pure.mp h
    exact (lowerExpr_succeeds ready (typed_of_condition ready he)).bind fun _ =>
      (lowerStatement_succeeds ready body hb).map
  | .exit _, _ => by
    exact leaving_succeeds ready

theorem lowerStatements_succeeds (ready : env.Ready) : ∀ (ss : List MiniPascal.Statement),
    Check.statements env.context ss = pure () → Succeeds (lowerStatements env ss)
  | [], _ => by
    exact succeeds_pure []
  | s :: ss, h => by
    obtain ⟨_, hs, hss⟩ := Checked.bind_eq_pure.mp h
    exact (lowerStatement_succeeds ready s hs).bind fun _ =>
      (lowerStatements_succeeds ready ss hss).map

end

end MiniPascal.C
