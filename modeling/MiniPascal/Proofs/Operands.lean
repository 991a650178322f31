import MiniPascal.Proofs.Calls

/-!
# The operands of statements

What a statement evaluates, sets and calls has its forms in C, one for each, in the same order.
-/

namespace MiniPascal

open Scope Analysis
open List

def Expr.isString : Expr → Bool
  | string .. => true
  | _ => false

/-- What a declaration makes sure of: a variable holds values, and references and parameters are of
scalars. -/
structure Scope.Item.Lawful (i : Item) : Prop where
  holds : i.isVariable = true → i.type.base ≠ .void
  reference : i.byReference = true → i.type.dims = []
  params : ∀ param ∈ i.params, param.type.Proper

namespace Analysis

theorem ofScalar_proper (type : ScalarType) : (Ty.ofScalar type).Proper := by
  cases type <;> exact ⟨rfl, nofun, nofun⟩

variable {i : Item} {t : Table} {ds : List ConstDecl}

theorem byReference_of_mem_constItems {block : Nat} (hi : i ∈ constItems t block ds) :
    i.byReference = false := by
  induction ds generalizing t with
  | nil => cases hi
  | cons d ds ih =>
    rcases mem_cons.mp hi with rfl | hi
    · rfl
    · exact ih hi

theorem lawful_of_mem_constItems {block : Nat} (hi : i ∈ constItems t block ds) : i.Lawful := by
  have hk := kind_of_mem_constItems hi
  refine ⟨fun h => ?_, fun h => ?_, fun param h => ?_⟩
  · simp [Item.isVariable, hk] at h
  · rw [byReference_of_mem_constItems hi] at h
    cases h
  · rw [params_of_mem_constItems hi] at h
    cases h

theorem lawful_of_mem_varItems {vars : List VarDecl} (hi : i ∈ vars.flatMap varItems) :
    i.Lawful := by
  obtain ⟨d, _, hi⟩ := mem_flatMap.mp hi
  obtain ⟨_, _, rfl⟩ := mem_map.mp hi
  exact ⟨fun _ => (ofScalar_proper d.type).not_void, nofun, forall_mem_nil _⟩

theorem lawful_routineItem (h : Heading) : (routineItem h).Lawful := by
  refine ⟨nofun, nofun, fun param hparam => ?_⟩
  obtain ⟨g, _, hparam⟩ := mem_flatMap.mp hparam
  obtain ⟨_, _, rfl⟩ := mem_map.mp hparam
  exact ofScalar_proper g.type

theorem lawful_of_mem_rootItems {p : Program} (hi : i ∈ rootItems p) : i.Lawful := by
  rcases mem_rootItems.mp hi with hi | hi | ⟨s, _, rfl⟩
  · exact lawful_of_mem_constItems hi
  · exact lawful_of_mem_varItems hi
  · exact lawful_routineItem s.heading

theorem lawful_of_mem_subprogramItems {root : Nat} {s : Subprogram}
    (hi : i ∈ subprogramItems root t s) : i.Lawful := by
  rcases mem_subprogramItems.mp hi with hi | hi | hi | hi
  · obtain ⟨g, _, hi⟩ := mem_flatMap.mp hi
    obtain ⟨_, _, rfl⟩ := mem_map.mp hi
    exact ⟨fun _ => (ofScalar_proper g.type).not_void, fun _ => rfl, forall_mem_nil _⟩
  · obtain ⟨type, _, rfl⟩ := mem_map.mp hi
    exact ⟨fun _ => (ofScalar_proper type).not_void, nofun, forall_mem_nil _⟩
  · exact lawful_of_mem_constItems hi
  · exact lawful_of_mem_varItems hi

end Analysis

namespace C

open Typing

/-- What a statement works on: a value, the target of an assignment, the counter of a loop, a
variable that is read, or a routine that is called as a step. -/
inductive Operand where
  | value (e : MiniPascal.Expr)
  | target (position : Position) (name : String) (indices : List MiniPascal.Expr)
  | counter (position : Position) (name : String)
  | input (e : MiniPascal.Expr)
  | step (position : Position) (name : String) (arguments : List MiniPascal.Expr)

inductive Form where
  | value (c : Expr)
  | target (c : Expr)
  | counter (v : Var)
  | input (c : Expr)
  | step (name : String) (arguments : List (Expr × Bool))

def Form.exprs : Form → List Expr
  | value c | target c | input c => [c]
  | counter v => [.var v]
  | step _ arguments => arguments.map Prod.fst

namespace Env

variable (env : Env)

/-- The arguments of a built-in procedure. A string that is written is no value in C. -/
def builtinOperands (b : Builtin) (arguments : List MiniPascal.Expr) : List Operand :=
  if b.isOutput then (arguments.filter fun e => !e.isString).map .value
  else arguments.map .input

mutual

def operands : MiniPascal.Statement → List Operand
  | .assign p name indices value => [.target p name indices, .value value]
  | .call p name arguments =>
    match env.builtin? name with
    | some b => builtinOperands b arguments
    | none => [.step p name arguments]
  | .compound _ parts => operandsAll parts
  | .branch _ condition onTrue none => .value condition :: operands onTrue
  | .branch _ condition onTrue (some onFalse) =>
    .value condition :: (operands onTrue ++ operands onFalse)
  | .count p counter first last _ body =>
    .counter p counter :: .value first :: .value last :: operands body
  | .loop _ condition body => .value condition :: operands body
  | .exit _ => []

def operandsAll : List MiniPascal.Statement → List Operand
  | [] => []
  | s :: ss => operands s ++ operandsAll ss

end

/-- An expression without problems that has the type of a value. -/
def Valued (e : MiniPascal.Expr) : Prop :=
  ∃ T, Typing.typeOf env.table env.block e = pure T ∧ T.Proper

/-- What is visible is as declarations make it. -/
def Lawful : Prop := ∀ item, env.table.Visible env.block item → item.Lawful

end Env

namespace Statement

mutual

def forms : Statement → List Form
  | assign target value => [.target target, .value value]
  | call name arguments => [.step name arguments]
  | compound parts => formsAll parts
  | branch condition onTrue none => .value condition :: onTrue.forms
  | branch condition onTrue (some onFalse) => .value condition :: (onTrue.forms ++ onFalse.forms)
  | count counter first last _ body => .counter counter :: .value first :: .value last :: body.forms
  | loop condition body => .value condition :: body.forms
  | print _ arguments => arguments.map .value
  | scan _ arguments => arguments.map .input
  | leave _ | exit => []

def formsAll : List Statement → List Form
  | [] => []
  | s :: ss => s.forms ++ formsAll ss

end

end Statement

/-- The form that lowering gives to an operand without problems. -/
inductive Formed (env : Env) : Operand → Form → Prop where
  | value {e : MiniPascal.Expr} {c : Expr} (valued : env.Valued e)
      (lowered : lowerExpr env e = .ok c) : Formed env (.value e) (.value c)
  | target {p : Position} {name : String} {indices : List MiniPascal.Expr} {T : MiniPascal.Ty}
      {c : Expr} (typed : Check.targetType env.context p name indices = pure T) (proper : T.Proper)
      (lowered : target env p name indices = .ok c) :
      Formed env (.target p name indices) (.target c)
  | counter {p : Position} {name : String} {item : Item}
      (found : env.table.findData? env.block name = some item) (kind : item.kind = .var)
      (type : item.type = .int) : Formed env (.counter p name) (.counter (itemVar item))
  | input {e : MiniPascal.Expr} {c : Expr} (valued : env.Valued e)
      (place : isVariable env.table env.block e = true) (lowered : lowerExpr env e = .ok c) :
      Formed env (.input e) (.input c)
  | step {p : Position} {name routine : String} {arguments : List MiniPascal.Expr}
      {passed : List (Expr × Bool)} (valued : ∀ e ∈ arguments, env.Valued e)
      (lowered : callOf env p name (env.arguments arguments) (lowerExprs env arguments) =
        .ok (routine, passed)) :
      Formed env (.step p name arguments) (.step routine passed)

/-- What an assignment without problems sets, its type and its form: the result of the function
around, or a variable behind integers. -/
inductive Targeted (env : Env) (p : Position) (name : String) :
    List MiniPascal.Expr → MiniPascal.Ty → Expr → Prop where
  | result {h : Heading} {type : ScalarType} {v : Var} (around : env.function = some h)
      (named : h.name = name) (returns : h.returns = some type) (var : resultVar env h = .ok v) :
      Targeted env p name [] (.ofScalar type) (.var v)
  | data {item : Item} {indices : List MiniPascal.Expr} {c : Expr}
      (found : env.table.findData? env.block name = some item) (kind : item.kind = .var)
      (sound : indicesSound env.table env.block indices = pure true)
      (length : indices.length ≤ item.type.dims.length)
      (lowered : place env p name indices.length (lowerExprs env indices) = .ok c) :
      Targeted env p name indices ⟨item.type.base, item.type.dims.drop indices.length⟩ c

section

variable {env : Env} {es : List MiniPascal.Expr} {e : MiniPascal.Expr} {T : MiniPascal.Ty}
  {p : Position} {b : Builtin} {r : String × List Expr} {c : Statement}

theorem Env.Valued.wellTyped (h : env.Valued e) : WellTyped env.table env.block e := by
  obtain ⟨T, hT, hp⟩ := h
  exact wellTyped_of_proper hT hp

theorem typeOf_prepared (e : MiniPascal.Expr) :
    Typing.typeOf env.table env.block (env.prepared e) = Typing.typeOf env.table env.block e := by
  unfold Env.prepared
  split
  · exact Typing.typeOf_fold env.table env.block e
  · rfl

theorem Env.Valued.prepared {e : MiniPascal.Expr} (h : env.Valued e) :
    env.Valued (env.prepared e) := by
  obtain ⟨T, hT, hp⟩ := h
  exact ⟨T, (typeOf_prepared e).trans hT, hp⟩

theorem valued_of_indices (h : indicesSound env.table env.block es = pure true) :
    ∀ e ∈ es, env.Valued e :=
  fun e he => ⟨.int, (wellTyped_of_indicesSound es h e he).2, .int⟩

variable {name : String} {indices : List MiniPascal.Expr}

theorem valued_of_arguments (lawful : env.Lawful)
    (h : ∀ e ∈ es, ∃ T, Typing.typeOf env.table env.block e = pure T) {item : Item}
    (hn : env.table.findRoutine env.block name (env.arguments es) = .ok item) :
    ∀ e ∈ es, env.Valued e := by
  obtain ⟨_, haccepts, _, hv⟩ := Table.findRoutine_ok hn
  intro e he
  obtain ⟨param, hmem, T, hT, hpasses⟩ := exists_left_of_mem (passes_of_accepts haccepts h).flip he
  refine ⟨T, hT, ?_⟩
  split at hpasses
  · exact hpasses.2 ▸ (lawful item hv).params param hmem
  · exact (MiniPascal.Ty.assignable_proper hpasses).2

theorem item_of_variable (hT : Typing.typeOf env.table env.block e = pure T)
    (herror : T.isError = false) (h : isVariable env.table env.block e = true) :
    ∃ item, env.table.Visible env.block item ∧ item.isVariable = true ∧
      T.base = item.type.base := by
  cases e with
  | name p n =>
    rw [isVariable] at h
    rw [Typing.typeOf] at hT
    cases hn : env.table.resolve env.block n with
    | error f =>
      rw [hn] at h
      cases h
    | ok item =>
      rw [hn] at h hT
      exact ⟨item, Table.resolve_visible hn, h, by rw [← Checked.pure_inj.mp hT]⟩
  | element p n indices =>
    rw [isVariable] at h
    rw [Typing.typeOf] at hT
    cases hn : env.table.findPlace? env.block n with
    | none =>
      rw [hn] at h
      cases h
    | some item =>
      rw [hn] at h hT
      obtain ⟨sound, _, hT⟩ := Checked.bind_eq_pure.mp hT
      obtain ⟨_, rfl⟩ := MiniPascal.Ty.indexed?_eq_some.mp (element_eq_pure hT herror).2
      exact ⟨item, Table.findPlace?_visible hn, h, rfl⟩
  | int | real | char | bool | string | call | binary | unary => cases h

theorem forms_of_step {routine : String} {passed : List (Expr × Bool)}
    (h : callOf env p name (env.arguments es) (lowerExprs env es) = .ok (routine, passed)) :
    Forall₂ (fun e a => lowerExpr env e = .ok a.1) es passed := by
  obtain ⟨cs, item, hcs, hcall⟩ := callOf_eq_ok (length_map _) h
  have hforms := forall₂_map_left_iff.mp (convertAll_eq_ok.mp hcs)
  rw [← hcall.fst, forall₂_map_right_iff] at hforms
  exact hforms

theorem counter_formed {v : Var} (h : Check.counter env.context p name = pure ())
    (hv : counterVar env p name = .ok v) : Formed env (.counter p name) (.counter v) := by
  unfold Check.counter at h
  unfold counterVar at hv
  split at h
  · next item hfound =>
    have hfound : env.table.findData? env.block name = some item := hfound
    rw [hfound] at hv
    cases hv
    split at h
    · next hkind => exact .counter hfound hkind.1 (MiniPascal.Ty.isA_iff.mp hkind.2)
    · cases h
  · cases h

theorem format_cons (h : format env b (e :: es) = .ok r) : ∃ rest, format env b es = .ok rest ∧
      ((b.isOutput = true ∧ e.isString = true ∧ r.2 = rest.2) ∨
        ((b.isOutput = true → e.isString = false) ∧
          ∃ c, lowerExpr env e = .ok c ∧ r.2 = c :: rest.2)) := by
  unfold format at h
  split at h
  · next hout =>
    obtain ⟨rest, hrest, h⟩ := Except.bind_eq_ok.mp h
    cases h
    exact ⟨rest, hrest, .inl ⟨hout, rfl, rfl⟩⟩
  · next hnot =>
    obtain ⟨type, _, c, hc, h⟩ := Except.bind₂_eq_ok.mp h
    obtain ⟨rest, hrest, h⟩ := Except.bind_eq_ok.mp h
    cases h
    refine ⟨rest, hrest, .inr ⟨fun hout => ?_, c, hc, rfl⟩⟩
    unfold MiniPascal.Expr.isString
    split
    · exact (hnot _ _ hout rfl).elim
    · rfl

theorem builtinArguments_of_call (h : Check.call env.context p name es = pure ())
    (hb : env.builtin? name = some b) : Check.builtinArguments env.context b es = pure () := by
  unfold Check.call at h
  rwa [show Builtin.visible? env.context.table env.context.block name = some b from hb] at h

section

variable (ready : env.Ready)

include ready

theorem valued_of_written (hT : Typing.typeOf env.table env.block e = pure T)
    (h : Check.written T e = pure ()) : env.Valued e := by
  have herror := typeOf_not_error ready.declared e hT
  unfold Check.written at h
  split at h
  · cases h
  · next hwritable =>
    simp only [herror, MiniPascal.Ty.isScalar, Bool.not_false, Bool.true_and, Bool.or_eq_true,
      Bool.not_eq_true', decide_eq_true_eq, not_or, Bool.not_eq_false,
      List.isEmpty_iff] at hwritable
    refine ⟨T, hT, hwritable.1, hwritable.2, ?_⟩
    simpa [MiniPascal.Ty.isError] using herror

theorem valued_of_read (lawful : env.Lawful) (hT : Typing.typeOf env.table env.block e = pure T)
    (h : Check.read env.context b T e = pure ()) :
    env.Valued e ∧ isVariable env.table env.block e = true := by
  have herror := typeOf_not_error ready.declared e hT
  unfold Check.read at h
  rw [herror, if_neg Bool.false_ne_true] at h
  split at h
  · cases h
  · next hvariable =>
    have hvariable : isVariable env.table env.block e = true := by
      simpa [Env.context] using hvariable
    split at h
    · cases h
    · next hscalar =>
      obtain ⟨item, hv, hitem, hbase⟩ := item_of_variable hT herror hvariable
      refine ⟨⟨T, hT, ?_, ?_, ?_⟩, hvariable⟩
      · simpa [MiniPascal.Ty.isScalar] using hscalar
      · exact hbase ▸ (lawful item hv).holds hitem
      · simpa [MiniPascal.Ty.isError] using herror

theorem valued_of_condition {keyword : Keyword}
    (h : Check.condition env.context keyword e = pure ()) : env.Valued e :=
  ⟨.bool, typeOf_of_isA ready (fun _ => Checked.complain_ne_pure _ _ _) h, rfl, nofun, nofun⟩

theorem valued_of_bound (h : Check.bound env.context e = pure ()) : env.Valued e :=
  ⟨.int, typeOf_of_isA ready (fun _ => Checked.complain_ne_pure _ _ _) h, .int⟩

theorem targeted {c : Expr} (h : Check.targetType env.context p name indices = pure T)
    (hc : target env p name indices = .ok c) : Targeted env p name indices T c := by
  unfold target at hc
  rcases targetType_eq_pure ready h with
    ⟨f, type, hf, hname, hreturns, rfl, rfl⟩ | ⟨item, hfound, hkind, hs, hlen, rfl, hother⟩
  · rw [hf] at hc
    dsimp only at hc
    rw [if_pos hname] at hc
    obtain ⟨v, hv, hc⟩ := Except.bind_eq_ok.mp hc
    cases hc
    exact .result hf hname hreturns hv
  · refine .data hfound hkind hs hlen ?_
    split at hc
    · next f hf => rwa [if_neg fun hname => hother f hf hname rfl] at hc
    · exact hc

theorem assignment_formed {value : MiniPascal.Expr} {c d : Expr}
    (h : Check.assignment env.context p name indices value = pure ())
    (hc : target env p name indices = .ok c) (hd : lowerExpr env value = .ok d) :
    Forall₂ (Formed env) [.target p name indices, .value value] [.target c, .value d] := by
  obtain ⟨A, B, hA, hB, hassignable⟩ := assignment_eq_pure ready h
  obtain ⟨pA, pB⟩ := MiniPascal.Ty.assignable_proper hassignable
  exact .cons (.target hA pA hc) (.cons (.value ⟨B, hB, pB⟩ hd) .nil)

theorem output_formed (hb : b.isOutput = true)
    (h : Check.builtinArguments env.context b es = pure ()) (hr : format env b es = .ok r) :
    Forall₂ (Formed env) ((es.filter fun e => !e.isString).map .value) (r.2.map .value) := by
  induction es generalizing r with
  | nil =>
    cases hr
    exact .nil
  | cons e es ih =>
    obtain ⟨T, hT, hone, hargs⟩ := builtinArguments_eq_pure h
    rw [if_pos hb] at hone
    obtain ⟨rest, hrest, ⟨_, hstring, hvalues⟩ | ⟨hstring, c, hc, hvalues⟩⟩ := format_cons hr
    · rw [hvalues, filter_cons_of_neg (by simp [hstring])]
      exact ih hargs hrest
    · rw [hvalues, filter_cons_of_pos (by simp [hstring hb])]
      exact .cons (.value (valued_of_written ready hT hone) hc) (ih hargs hrest)

theorem input_formed (lawful : env.Lawful) (hb : b.isOutput = false)
    (h : Check.builtinArguments env.context b es = pure ()) (hr : format env b es = .ok r) :
    Forall₂ (Formed env) (es.map .input) (r.2.map .input) := by
  induction es generalizing r with
  | nil =>
    cases hr
    exact .nil
  | cons e es ih =>
    obtain ⟨T, hT, hone, hargs⟩ := builtinArguments_eq_pure h
    rw [if_neg (Bool.eq_false_iff.mp hb)] at hone
    obtain ⟨valued, hvariable⟩ := valued_of_read ready lawful hT hone
    obtain ⟨rest, hrest, ⟨hout, _, _⟩ | ⟨_, c, hc, hvalues⟩⟩ := format_cons hr
    · cases hb.symm.trans hout
    · rw [hvalues]
      exact .cons (.input valued hvariable hc) (ih hargs hrest)

theorem valued_of_call (lawful : env.Lawful) (h : Check.call env.context p name es = pure ())
    (hb : env.builtin? name = none) : ∀ e ∈ es, env.Valued e := by
  obtain ⟨htyped, hroutine⟩ := typed_of_call ready h
  obtain ⟨item, hitem⟩ := hroutine hb
  exact valued_of_arguments lawful (fun e he => (htyped e he).imp fun _ hT => hT.1) hitem

end

structure Lowered (env : Env) (s : MiniPascal.Statement) (c : Statement) : Prop where
  checked : Check.statement env.context s = pure ()
  lowered : lowerStatement env s = .ok c

section

variable {R : MiniPascal.Statement → Statement → Prop}

theorem forall₂_checked {ss : List MiniPascal.Statement} {cs : List Statement}
    (h : Forall₂ (fun s c => lowerStatement env s = .ok c ∧
      (Check.statement env.context s = pure () → R s c)) ss cs)
    (hchecked : Check.statements env.context ss = pure ()) :
    Forall₂ (fun s c => Lowered env s c ∧ R s c) ss cs := by
  induction h with
  | nil => exact .nil
  | cons hc _ ih =>
    obtain ⟨_, hs, hss⟩ := Checked.bind_eq_pure.mp hchecked
    exact .cons ⟨⟨hs, hc.1⟩, hc.2 hs⟩ (ih hss)

variable (step : ∀ s c, Lowered env s c →
  LoweredBy env (fun s c => Lowered env s c ∧ R s c) s c → R s c)
include step

theorem checked_step (s : MiniPascal.Statement) (c : Statement) (hc : lowerStatement env s = .ok c)
    (h : LoweredBy env (fun s c => lowerStatement env s = .ok c ∧
      (Check.statement env.context s = pure () → R s c)) s c)
    (hchecked : Check.statement env.context s = pure ()) : R s c := by
  refine step s c ⟨hchecked, hc⟩ ?_
  cases h with
  | assign htarget hvalue => exact .assign htarget hvalue
  | print found output hr => exact .print found output hr
  | scan found input hr => exact .scan found input hr
  | call other hpassed => exact .call other hpassed
  | compound parts => exact .compound (forall₂_checked parts hchecked)
  | ifThen condition hs =>
    obtain ⟨_, _, _, hyes, _⟩ := Checked.bind₂_eq_pure.mp hchecked
    exact .ifThen condition ⟨⟨hyes, hs.1⟩, hs.2 hyes⟩
  | ifThenElse condition hs ht =>
    obtain ⟨_, _, _, hyes, hno⟩ := Checked.bind₂_eq_pure.mp hchecked
    exact .ifThenElse condition ⟨⟨hyes, hs.1⟩, hs.2 hyes⟩ ⟨⟨hno, ht.1⟩, ht.2 hno⟩
  | count counter first last hs =>
    obtain ⟨_, _, _, _, hchecked⟩ := Checked.bind₂_eq_pure.mp hchecked
    obtain ⟨_, _, hbody⟩ := Checked.bind_eq_pure.mp hchecked
    exact .count counter first last ⟨⟨hbody, hs.1⟩, hs.2 hbody⟩
  | loop condition hs =>
    obtain ⟨_, _, hbody⟩ := Checked.bind_eq_pure.mp hchecked
    exact .loop condition ⟨⟨hbody, hs.1⟩, hs.2 hbody⟩
  | exit hleaving => exact .exit hleaving
  | leave hleaving => exact .leave hleaving

/-- What all ways of lowering checked statements keep holds of all of them. -/
theorem lowered_induct (ss : List MiniPascal.Statement) (cs : List Statement)
    (hchecked : Check.statements env.context ss = pure ()) (h : lowerStatements env ss = .ok cs) :
    Forall₂ (fun s c => Lowered env s c ∧ R s c) ss cs :=
  forall₂_checked (lowerStatements_induct (checked_step step) ss cs h) hchecked

end

theorem formsAll_formed {ss : List MiniPascal.Statement} {cs : List Statement}
    (h : Forall₂ (fun s c => Lowered env s c ∧ Forall₂ (Formed env) (env.operands s) c.forms)
      ss cs) : Forall₂ (Formed env) (env.operandsAll ss) (Statement.formsAll cs) := by
  induction h with
  | nil => exact .nil
  | cons hc _ ih => exact rel_append hc.2 ih

/-- The operands of a statement without problems have forms in C, which are those of its form. -/
theorem statement_formed (ready : env.Ready) (lawful : env.Lawful) (s : MiniPascal.Statement)
    (c : Statement) (hs : Lowered env s c)
    (h : LoweredBy env (fun s c => Lowered env s c ∧ Forall₂ (Formed env) (env.operands s) c.forms)
      s c) : Forall₂ (Formed env) (env.operands s) c.forms := by
  have hchecked := hs.checked
  cases h with
  | assign htarget hvalue => exact assignment_formed ready hchecked htarget hvalue
  | print found output hr =>
    rw [Env.operands, found]
    dsimp only
    rw [Env.builtinOperands, if_pos output]
    exact output_formed ready output (builtinArguments_of_call hchecked found) hr
  | scan found input hr =>
    rw [Env.operands, found]
    dsimp only
    rw [Env.builtinOperands, if_neg (Bool.eq_false_iff.mp input)]
    exact input_formed ready lawful input (builtinArguments_of_call hchecked found) hr
  | call other hpassed =>
    rw [Env.operands, other]
    exact .cons (.step (valued_of_call ready lawful hchecked other) hpassed) .nil
  | compound parts => exact formsAll_formed parts
  | ifThen condition onTrue =>
    obtain ⟨_, he, _⟩ := Checked.bind_eq_pure.mp hchecked
    exact .cons (.value (valued_of_condition ready he) condition) onTrue.2
  | ifThenElse condition onTrue onFalse =>
    obtain ⟨_, he, _⟩ := Checked.bind_eq_pure.mp hchecked
    exact .cons (.value (valued_of_condition ready he) condition) (rel_append onTrue.2 onFalse.2)
  | count counter first last body =>
    obtain ⟨_, hcounter, _, hf, hchecked⟩ := Checked.bind₂_eq_pure.mp hchecked
    obtain ⟨_, hl, _⟩ := Checked.bind_eq_pure.mp hchecked
    exact .cons (counter_formed hcounter counter) (.cons (.value (valued_of_bound ready hf) first)
      (.cons (.value (valued_of_bound ready hl) last) body.2))
  | loop condition body =>
    obtain ⟨_, he, _⟩ := Checked.bind_eq_pure.mp hchecked
    exact .cons (.value (valued_of_condition ready he) condition) body.2
  | exit | leave => exact .nil

theorem statements_formed (ready : env.Ready) (lawful : env.Lawful)
    (ss : List MiniPascal.Statement) (cs : List Statement)
    (h : Check.statements env.context ss = pure ()) (hc : lowerStatements env ss = .ok cs) :
    Forall₂ (Formed env) (env.operandsAll ss) (Statement.formsAll cs) :=
  formsAll_formed (lowered_induct (statement_formed ready lawful) ss cs h hc)

end

def Part.operands (a : Part) : List Operand := a.env.operandsAll a.statements

section

variable {p : MiniPascal.Program} {folding : Bool} {q : Program} {a : Part}
  {b : List Declaration × List Statement}

theorem PartOf.ready (accepted : Accepted p) (h : PartOf p folding q a b) : a.env.Ready := by
  cases h with
  | main _ => exact ready_ofProgram accepted.checked
  | routine split _ => exact ready_inside accepted.checked split

theorem lawful_ofProgram (p : MiniPascal.Program) (folding : Bool) :
    (Env.ofProgram p folding).Lawful := fun _ hv =>
  lawful_of_mem_rootItems (visible_root (finished_root p) hv)

theorem lawful_inside (folding : Bool) {before after : List Subprogram} {s : Subprogram}
    (hs : p.subprograms = before ++ s :: after) : (Env.inside p folding before s).Lawful := by
  intro item hv
  rcases visible_subprogram (finished_root p) (getElem?_finished hs) hv with hi | hi
  · exact lawful_of_mem_subprogramItems hi
  · exact lawful_of_mem_rootItems hi

theorem PartOf.lawful (h : PartOf p folding q a b) : a.env.Lawful := by
  cases h with
  | main _ => exact lawful_ofProgram p folding
  | routine split _ => exact lawful_inside folding split

theorem PartOf.ownResults (h : PartOf p folding q a b) : a.env.OwnResults := by
  cases h with
  | main _ => exact ownResults_ofProgram p folding
  | routine split _ => exact ownResults_inside folding split

theorem PartOf.formed (accepted : Accepted p) (h : PartOf p folding q a b) :
    Forall₂ (Formed a.env) a.operands (Statement.formsAll b.2) := by
  have ready := h.ready accepted
  have lawful := h.lawful
  cases h with
  | main lowered => exact statements_formed ready lawful _ _ accepted.checked.statements lowered
  | routine split of =>
    exact statements_formed ready lawful _ _ (statements_checked accepted.checked split)
      of.statements

end

end C

end MiniPascal
