import MiniPascal.Proofs.Scopes

/-!
# Calls and the routines that they name

Every call in a lowered source names the one routine that comes from the subprogram which it was
resolved to.
-/

namespace MiniPascal.C

open Scope Analysis Typing
open List

/-- An argument without problems that fits a parameter: a variable of the same type if a reference
is passed, else a value that can be assigned. -/
def Passes (env : Env) (e : MiniPascal.Expr) (param : Scope.Param) : Prop :=
  ∃ T, Typing.typeOf env.table env.block e = pure T ∧
    if param.byReference then isVariable env.table env.block e = true ∧ T = param.type
    else MiniPascal.Ty.assignable param.type T = true

/-- A use in C that fits what is mentioned: a call has to fit the routine of the subprogram that the
call was resolved to. -/
inductive Linked (p : MiniPascal.Program) (folding : Bool) (q : Program) (env : Env) :
    Mention → Use → Prop where
  | place (item : Item) (v : Var) : Linked p folding q env (.place item) (.var v)
  | call {s : Subprogram} {r : Routine} {arguments : List MiniPascal.Expr}
      {passed : List (Expr × Bool)} {asValue : Bool}
      (selected : env.table.findRoutine env.block s.heading.name (env.arguments arguments) =
        .ok (routineItem s.heading))
      (position : (s, r) ∈ p.subprograms.zip q.routines) (lowered : LoweredFrom p folding s r)
      (only : (q.routines.filter fun r' => r'.name == r.name) = [r])
      (values : convertAll env arguments = .ok (passed.map Prod.fst))
      (flags : passed.map Prod.snd = r.params.map Param.byReference)
      (types : Forall₂ (Passes env) arguments (Analysis.params s.heading))
      (function : asValue = true → r.result.isSome = true) :
      Linked p folding q env (.call (routineItem s.heading) arguments asValue)
        (.call r.name passed asValue)

def Expr.CallFree (e : Expr) : Prop := ∀ u ∈ e.uses, ∃ v, u = .var v

def Program.constants (q : Program) : List Constant :=
  q.globals.constants ++ q.main.declarations.constants ++
    q.routines.flatMap fun r => r.body.declarations.constants

/-- All calls fit the routines that they name. -/
structure CallsLinked (p : MiniPascal.Program) (folding : Bool) (q : Program) : Prop where
  statements : Forall₂ (fun a b => Forall₂ (Linked p folding q a.env) a.mentions
    (Statement.usesAll b.2)) (Part.ofProgram p folding) q.parts
  constants : ∀ c ∈ q.constants, c.value.CallFree

/-! What is mentioned in statements without problems. -/

/-- A mention without problems: the arguments of a call have types, and what is used as a value has
one. -/
def Sound (env : Env) : Mention → Prop
  | .place _ => True
  | .call item arguments asValue =>
    (∀ e ∈ arguments, ∃ T, Typing.typeOf env.table env.block e = pure T) ∧
      (asValue = true → item.type.base ≠ .void)

section

variable {env : Env}

theorem sound_places (items : List Item) : ∀ m ∈ items.map Mention.place, Sound env m := by
  intro m hm
  obtain ⟨item, _, rfl⟩ := mem_map.mp hm
  trivial

theorem mentionsAll_eq (es : List MiniPascal.Expr) :
    env.mentionsAll es = es.flatMap env.mentions := by
  induction es with
  | nil => rfl
  | cons e es ih => rw [Env.mentionsAll, flatMap_cons, ih]

variable {e : MiniPascal.Expr} {p : Position}

theorem mentions_sound (h : WellTyped env.table env.block e)
    (hv : ∀ T, Typing.typeOf env.table env.block e = pure T → T.base = .void →
      isVariable env.table env.block e = true) : ∀ m ∈ env.mentions e, Sound env m := by
  induction h with
  | int | real | char | bool | string => exact nofun
  | @name p n item hn =>
    intro m hm
    have hT : Typing.typeOf env.table env.block (.name p n) = pure item.type := by
      rw [Typing.typeOf, hn]
    have hvar := hv _ hT
    rw [isVariable, hn] at hvar
    rw [Env.mentions, hn, mem_singleton] at hm
    split at hm
    · next hk =>
      rw [hm]
      refine ⟨forall_mem_nil _, fun _ hvoid => ?_⟩
      have hnot := hvar hvoid
      simp only [Item.isVariable, hk] at hnot
      cases hnot
    · rw [hm]
      trivial
  | @element p n indices item hn hi ht hd te ih =>
    intro m hm
    rw [Env.mentions, mentionsAll_eq] at hm
    rcases mem_append.mp hm with hm | hm
    · exact sound_places _ m hm
    · obtain ⟨e, he, hm⟩ := mem_flatMap.mp hm
      refine ih e he (fun T hT hvoid => ?_) m hm
      cases (ht e he).symm.trans hT
      exact (MiniPascal.Ty.Proper.int.not_void hvoid).elim
  | @call p n arguments item hb ha ta hn te ih =>
    intro m hm
    rw [Env.mentions, Env.arguments, value_argumentsOf, hn, mentionsAll_eq] at hm
    rcases mem_cons.mp hm with rfl | hm
    · refine ⟨fun e he => ⟨_, ta e he⟩, fun _ hvoid => ?_⟩
      cases hv _ te hvoid
    · obtain ⟨e, he, hm⟩ := mem_flatMap.mp hm
      refine ih e he (fun T hT hvoid => ?_) m hm
      cases (ta e he).symm.trans hT
      exact accepted_not_void (Table.findRoutine_ok hn).2.1 (mem_map_of_mem he) hvoid
  | @binary p op l r A B T hl hr tl tr hT ihl ihr =>
    intro m hm
    obtain ⟨hA, hB, _⟩ := MiniPascal.Ty.binary?_proper hT
    rcases mem_append.mp hm with hm | hm
    · refine ihl (fun T hT hvoid => ?_) m hm
      cases tl.symm.trans hT
      exact (hA.not_void hvoid).elim
    · refine ihr (fun T hT hvoid => ?_) m hm
      cases tr.symm.trans hT
      exact (hB.not_void hvoid).elim
  | @unary p op e A T he te hT ih =>
    obtain ⟨hA, _⟩ := MiniPascal.Ty.unary?_proper hT
    refine ih fun T hT hvoid => ?_
    cases te.symm.trans hT
    exact (hA.not_void hvoid).elim

theorem Env.Typed.sound (ready : env.Ready) (h : env.Typed e) :
    ∀ m ∈ env.mentions (env.prepared e), Sound env m := by
  refine mentions_sound (h.prepared.wellTyped ready) fun T hT hvoid => ?_
  obtain ⟨T', hT', hv⟩ := h.prepared
  cases hT'.symm.trans hT
  exact hv hvoid

theorem sound_of_typed (ready : env.Ready) {es : List MiniPascal.Expr}
    (h : ∀ e ∈ es, env.Typed e) : ∀ m ∈ env.mentionsAll (es.map env.prepared), Sound env m := by
  intro m hm
  rw [mentionsAll_eq] at hm
  obtain ⟨e, he, hm⟩ := mem_flatMap.mp hm
  obtain ⟨source, hs, rfl⟩ := mem_map.mp he
  exact (h source hs).sound ready m hm

theorem target_sound (ready : env.Ready) {name : String} {indices : List MiniPascal.Expr}
    {T : MiniPascal.Ty} (h : Check.targetType env.context p name indices = pure T) :
    ∀ m ∈ env.targetMentions name indices, Sound env m := by
  have hindices : ∀ e ∈ indices, env.Typed e := by
    rcases targetType_eq_pure ready h with ⟨_, _, _, _, _, rfl, _⟩ | ⟨_, _, _, hsound, _⟩
    · exact forall_mem_nil _
    · exact typed_of_indices ready hsound
  have hplace : ∀ m ∈ env.placeMentions name ++ env.mentionsAll (indices.map env.prepared),
      Sound env m :=
    forall_mem_append.mpr ⟨sound_places _, sound_of_typed ready hindices⟩
  unfold Env.targetMentions
  split
  · split
    · exact sound_places _
    · exact hplace
  · exact hplace

theorem call_sound (ready : env.Ready) {name : String} {arguments : List MiniPascal.Expr}
    (h : Check.call env.context p name arguments = pure ()) :
    ∀ m ∈ env.statementMentions (.call p name arguments), Sound env m := by
  obtain ⟨htyped, _⟩ := typed_of_call ready h
  have hvalues := sound_of_typed ready htyped
  rw [Env.statementMentions]
  split
  · exact hvalues
  · split
    · refine forall_mem_cons.mpr
        ⟨⟨fun e he => ?_, fun h => absurd h Bool.false_ne_true⟩, hvalues⟩
      obtain ⟨source, hs, rfl⟩ := mem_map.mp he
      obtain ⟨T, hT, _⟩ := (htyped source hs).prepared
      exact ⟨T, hT⟩
    · exact forall_mem_nil _

mutual

theorem statement_sound (ready : env.Ready) : ∀ s : MiniPascal.Statement,
    Check.statement env.context s = pure () → ∀ m ∈ env.statementMentions s, Sound env m
  | .assign _ _ _ _, h => by
    obtain ⟨⟨_, htarget⟩, hvalue⟩ := typed_of_assignment ready h
    exact forall_mem_append.mpr ⟨target_sound ready htarget, hvalue.sound ready⟩
  | .call _ _ _, h => by
    exact call_sound ready h
  | .compound _ parts, h => by
    exact statements_sound ready parts h
  | .branch _ e onTrue none, h => by
    obtain ⟨_, he, _, ht, _⟩ := Checked.bind₂_eq_pure.mp h
    exact forall_mem_append.mpr
      ⟨(typed_of_condition ready he).sound ready, statement_sound ready onTrue ht⟩
  | .branch _ e onTrue (some onFalse), h => by
    obtain ⟨_, he, _, ht, hf⟩ := Checked.bind₂_eq_pure.mp h
    exact forall_mem_append.mpr ⟨(typed_of_condition ready he).sound ready,
      forall_mem_append.mpr
        ⟨statement_sound ready onTrue ht, statement_sound ready onFalse hf⟩⟩
  | .count _ _ first last _ body, h => by
    obtain ⟨_, _, _, hf, h⟩ := Checked.bind₂_eq_pure.mp h
    obtain ⟨_, hl, hb⟩ := Checked.bind_eq_pure.mp h
    exact forall_mem_append.mpr ⟨sound_places _, forall_mem_append.mpr
      ⟨(typed_of_bound ready hf).sound ready, forall_mem_append.mpr
        ⟨(typed_of_bound ready hl).sound ready, statement_sound ready body hb⟩⟩⟩
  | .loop _ e body, h => by
    obtain ⟨_, he, hb⟩ := Checked.bind_eq_pure.mp h
    exact forall_mem_append.mpr
      ⟨(typed_of_condition ready he).sound ready, statement_sound ready body hb⟩
  | .exit _, _ => by
    exact sound_places _

theorem statements_sound (ready : env.Ready) : ∀ ss : List MiniPascal.Statement,
    Check.statements env.context ss = pure () → ∀ m ∈ env.statementsMentions ss, Sound env m
  | [], _ => forall_mem_nil _
  | s :: ss, h => by
    obtain ⟨_, hs, hss⟩ := Checked.bind_eq_pure.mp h
    exact forall_mem_append.mpr ⟨statement_sound ready s hs, statements_sound ready ss hss⟩

end

end

/-! What is passed to a routine. -/

section

variable {values : List Expr} {params : List Scope.Param}

theorem map_snd_passed (h : values.length = params.length) :
    (values.zipWith (fun e param => (e, param.byReference)) params).map Prod.snd =
      params.map Scope.Param.byReference := by
  induction values generalizing params with
  | nil =>
    rw [length_eq_zero_iff.mp h.symm]
    rfl
  | cons e es ih =>
    cases params with
    | nil => cases h
    | cons param params =>
      rw [zipWith_cons_cons, map_cons, map_cons, ih (Nat.succ.inj h)]

end

theorem byReference_params (h : Heading) :
    (C.params h).map Param.byReference = (Analysis.params h).map Scope.Param.byReference := by
  simp [C.params, Analysis.params, map_flatMap, Function.comp_def]

theorem filter_name_eq {routines : List Routine} (h : (routines.map Routine.name).Nodup)
    {r : Routine} (hr : r ∈ routines) : (routines.filter fun r' => r'.name == r.name) = [r] := by
  have hone : (routines.filter fun r' => r'.name == r.name).length = 1 := by
    rw [← countP_eq_length_filter]
    have hcount := count_eq_one_of_mem h (mem_map_of_mem hr)
    rwa [count_eq_countP, countP_map] at hcount
  obtain ⟨r', hr'⟩ := length_eq_one_iff.mp hone
  have hmem : r ∈ routines.filter fun r' => r'.name == r.name :=
    mem_filter.mpr ⟨hr, beq_self_eq_true _⟩
  rw [hr', mem_singleton] at hmem
  rw [hr', hmem]

theorem passes_of_accepts {env : Env} {item : Item} {arguments : List MiniPascal.Expr}
    (haccepts : item.accepts (env.arguments arguments) = true)
    (htyped : ∀ e ∈ arguments, ∃ T, Typing.typeOf env.table env.block e = pure T) :
    Forall₂ (Passes env) arguments item.params := by
  rw [Env.arguments, value_argumentsOf] at haccepts
  obtain ⟨hlength, hall⟩ := Item.accepts_iff.mp haccepts
  have hparams : Forall₂ (fun param a => param.accepts a = true) item.params
      (arguments.map (argument env.table env.block)) :=
    forall₂_iff_zip.mpr ⟨hlength, fun hmem => hall _ hmem⟩
  have harguments := forall₂_map_left_iff.mp hparams.flip
  refine ((forall₂_and_left _ _).mpr ⟨htyped, harguments⟩).imp fun e param => ?_
  rintro ⟨⟨T, hT⟩, haccepts⟩
  refine ⟨T, hT, ?_⟩
  rw [Scope.Param.accepts, argument, hT, Checked.pure_value] at haccepts
  split
  · next href =>
    rw [if_pos href, Bool.and_eq_true, beq_iff_eq] at haccepts
    exact haccepts
  · next href =>
    rw [if_neg href] at haccepts
    exact haccepts

section

variable {p : MiniPascal.Program} {folding : Bool} {q : Program}
  {b : List Declaration × List Statement} {a : Part}

theorem PartOf.sound (accepted : Accepted p) (h : PartOf p folding q a b) :
    ∀ m ∈ a.mentions, Sound a.env m := by
  cases h with
  | main _ =>
    exact statements_sound (ready_ofProgram accepted.checked) _ accepted.checked.statements
  | routine split _ =>
    exact statements_sound (ready_inside accepted.checked split) _
      (statements_checked accepted.checked split)

theorem PartOf.names_eq (h : PartOf p folding q a b) :
    a.env.names = Names.ofProgram p (finished p).names := by
  cases h <;> rfl

theorem PartOf.routine_eq (h : PartOf p folding q a b) {item : Item}
    (hv : a.env.table.Visible a.env.block item) (hk : item.kind = .routine) :
    ∃ s ∈ p.subprograms, item = routineItem s.heading := by
  cases h with
  | main _ => exact (kind_of_mem_rootItems (visible_root (finished_root p) hv)).2 hk
  | routine split _ =>
    rcases visible_subprogram (finished_root p) (getElem?_finished split) hv with hi | hi
    · exact ((kind_of_mem_subprogramItems hi).1 hk).elim
    · exact (kind_of_mem_rootItems hi).2 hk

theorem RoutineOf.result_isSome {env : Env} {s : Subprogram} {r : Routine} (h : RoutineOf env s r)
    (hvoid : (routineItem s.heading).type.base ≠ .void) : r.result.isSome = true := by
  have hresult := h.result
  unfold C.result at hresult
  split at hresult
  · obtain ⟨v, _, hresult⟩ := Except.bind_eq_ok.mp hresult
    rw [← Except.ok.inj hresult]
    rfl
  · next hnone =>
    rw [routineItem, hnone] at hvoid
    exact (hvoid rfl).elim

theorem Assembled.linked (accepted : Accepted p) (h : Assembled p folding q)
    (hpart : PartOf p folding q a b) {m : Mention} {u : Use} (he : Emits a.env m u)
    (hsound : Sound a.env m) : Linked p folding q a.env m u := by
  cases he with
  | data _ | result _ _ _ => exact .place _ _
  | @call item arguments values routine asValue found named converted =>
    obtain ⟨hk, haccepts, _, hv⟩ := Table.findRoutine_ok found
    obtain ⟨s, hs, rfl⟩ := hpart.routine_eq hv hk
    obtain ⟨r, hzip, hlowered, hlookup, _⟩ := h.routine_of accepted hs
    rw [hpart.names_eq] at named
    obtain rfl := Option.some.inj (named.symm.trans hlookup)
    have hlength : values.length = (routineItem s.heading).params.length := by
      rw [(Item.accepts_iff.mp haccepts).1, length_convertAll converted, Env.arguments,
        value_argumentsOf, length_map]
    refine .call found hzip hlowered ?_ ?_ ?_ (passes_of_accepts haccepts hsound.1) ?_
    · exact filter_name_eq (h.named accepted).2.1 (of_mem_zip hzip).2
    · rw [map_fst_passed hlength]
      exact converted
    · obtain ⟨_, _, _, hof⟩ := hlowered
      rw [map_snd_passed hlength, hof.params, byReference_params]
      rfl
    · obtain ⟨_, _, _, hof⟩ := hlowered
      exact fun hvalue => hof.result_isSome (hsound.2 hvalue)

end

/-! What constants are initialized with. -/

section

variable {env : Env} {t : Table} {known known' : Constants}

theorem callFree_of_emits {c : Expr} (h : Forall₂ (Emits env) [] c.uses) : c.CallFree := by
  intro u hu
  rw [forall₂_nil_left_iff.mp h] at hu
  cases hu

theorem mentions_literal (v : MiniPascal.Value) (p : Position) :
    env.mentions (v.toExpr p) = [] := by
  cases v <;> rfl

theorem mentions_prepared_literal (v : MiniPascal.Value) (p : Position) :
    env.mentions (env.prepared (v.toExpr p)) = [] := by
  have hfold : (v.toExpr p).fold.1 = v.toExpr p := by cases v <;> rfl
  rw [Env.prepared, hfold, ite_self, mentions_literal]

theorem mentions_prepared_signed (op : MiniPascal.UnaryOp) (v : MiniPascal.Value) (p q : Position) :
    env.mentions (env.prepared (.unary p op (v.toExpr q))) = [] := by
  have hfold : (v.toExpr q).fold.1 = v.toExpr q := by cases v <;> rfl
  unfold Env.prepared
  split
  · rcases MiniPascal.Expr.fold_unary_cases p op (v.toExpr q) with ⟨_, w, _, _, h⟩ | h
    · rw [h, mentions_literal]
    · rw [h, hfold, Env.mentions, mentions_literal]
  · rw [Env.mentions, mentions_literal]

variable {e : MiniPascal.Expr} {items : List Item}

theorem mentions_initializer {block : Nat} (h : isConstant t block e = true)
    (hname : ∀ p n, e ≠ .name p n) : env.mentions (env.prepared e) = [] := by
  cases e with
  | int p v => exact mentions_prepared_literal (.int v) p
  | real p v => exact mentions_prepared_literal (.real v) p
  | char p v => exact mentions_prepared_literal (.char v) p
  | bool p v => exact mentions_prepared_literal (.bool v) p
  | string p v => exact mentions_prepared_string p v
  | name p n => exact (hname p n rfl).elim
  | unary p op x =>
    cases op with
    | not => cases h
    | plus | minus =>
      cases x with
      | int q v => exact mentions_prepared_signed _ (.int v) p q
      | real q v => exact mentions_prepared_signed _ (.real v) p q
      | char | bool | string | name | element | call | binary | unary => cases h
  | element | call | binary => cases h

/-- A name that was a constant where it was declared never comes to mean a routine. -/
theorem resolve_not_routine (completed : Completed env t items) {n : String} {item item' : Item}
    (hn : t.resolve env.block n = .ok item) (hk : item.kind = .const)
    (hn' : env.table.resolve env.block n = .ok item') : item'.kind ≠ .routine := by
  have hfound : (env.table.findData? env.block n).isSome = true := by
    rw [completed.same.findData?]
    refine Table.findData?_extend_isSome completed.block items ?_
    rw [Table.findData?_of_resolve hn hk]
    rfl
  obtain ⟨i, hi⟩ := Option.isSome_iff_exists.mp hfound
  cases (Table.resolve_of_findData? hi).symm.trans hn'
  intro hroutine
  have hdata := (Table.findData?_some hi).1
  rw [Item.isData, hroutine] at hdata
  cases hdata

/-- Constants on record whose values call nothing. -/
def Constants.CallFree (known : Constants) : Prop := ∀ entry ∈ known, entry.2.CallFree

theorem constantValue_callFree (own : env.OwnResults) (completed : Completed env t items)
    (hconst : isConstant t env.block e = true) (hknown : known.CallFree) {c : Expr}
    (h : constantValue env known e = .ok c) : c.CallFree := by
  by_cases hname : ∃ p n, e = .name p n
  · obtain ⟨p, n, rfl⟩ := hname
    rw [isConstant] at hconst
    rw [constantValue] at h
    cases hn : t.resolve env.block n with
    | error f =>
      rw [hn] at hconst
      cases hconst
    | ok item =>
      rw [hn] at hconst
      cases hn' : env.table.resolve env.block n with
      | error f =>
        rw [hn'] at h
        rw [lowerExpr, Env.prepared, MiniPascal.Expr.fold, ite_self, convert, hn'] at h
        cases h
      | ok item' =>
        rw [hn'] at h
        dsimp only at h
        split at h
        · split at h
          · next value hvalue =>
            cases h
            exact hknown (item'.position, c) (mem_of_lookup hvalue)
          · cases h
        · have hk := resolve_not_routine completed hn (beq_iff_eq.mp hconst) hn'
          rw [lowerExpr, Env.prepared, MiniPascal.Expr.fold, ite_self] at h
          have hemits := convert_emits own.emitting _ c h
          rw [Env.mentions, hn'] at hemits
          dsimp only at hemits
          rw [if_neg hk] at hemits
          intro u hu
          obtain ⟨m, hm, hmu⟩ := exists_left_of_mem hemits hu
          rw [mem_singleton.mp hm] at hmu
          cases hmu with
          | data _ | result _ _ _ => exact ⟨_, rfl⟩
  · have hname : ∀ p n, e ≠ .name p n := fun p n he => hname ⟨p, n, he⟩
    rw [constantValue_eq hname] at h
    have hemits := convert_emits own.emitting _ c h
    rw [mentions_initializer hconst hname] at hemits
    exact callFree_of_emits hemits

theorem lowerConsts_callFree (own : env.OwnResults) {ds : List ConstDecl} {later : List Item}
    {cs : List Constant} (completed : Completed env t (constItems t env.block ds ++ later))
    (htyped : ConstsTyped t env.block ds) (hknown : known.CallFree)
    (h : lowerConsts env known ds = .ok (cs, known')) :
    (∀ c ∈ cs, c.value.CallFree) ∧ known'.CallFree := by
  induction ds generalizing t known cs with
  | nil =>
    cases h
    exact ⟨forall_mem_nil _, hknown⟩
  | cons d ds ih =>
    obtain ⟨value, type, rest, hvalue, _, hrest, rfl⟩ := lowerConsts_cons.mp h
    have hfree := constantValue_callFree own completed (constType_eq_pure htyped.1).1 hknown hvalue
    obtain ⟨hcs, hknown'⟩ := ih completed.tail htyped.2
      (forall_mem_cons.mpr ⟨hfree, hknown⟩) hrest
    exact ⟨forall_mem_cons.mpr ⟨hfree, hcs⟩, hknown'⟩

end

section

variable {p : MiniPascal.Program} {folding : Bool} {q : Program}

theorem lowerSubprograms_callFree (accepted : Accepted p) {before after : List Subprogram}
    (hs : p.subprograms = before ++ after) {known : Constants} (hknown : known.CallFree)
    {rs : List Routine} (h : lowerSubprograms (Env.ofProgram p folding) known after = .ok rs) :
    ∀ r ∈ rs, ∀ c ∈ r.body.declarations.constants, c.value.CallFree := by
  induction after generalizing before known rs with
  | nil =>
    cases h
    exact forall_mem_nil _
  | cons s after ih =>
    obtain ⟨r, known', rest, hr, hrest, rfl⟩ := lowerSubprograms_cons.mp h
    have hsubs : SubprogramsChecked 0 (rootTable p) (before ++ s :: after) :=
      hs ▸ accepted.checked.subprograms
    obtain ⟨hfree, hknown'⟩ := lowerConsts_callFree (ownResults_inside folding hs)
      (completed_subprogram folding hs) hsubs.split.consts hknown
      (lowerDeclarations_consts (lowerSubprogram_ok accepted hs hr).2)
    have hs' : p.subprograms = (before ++ [s]) ++ after := by rw [hs, append_assoc]; rfl
    exact forall_mem_cons.mpr ⟨hfree, ih hs' hknown' hrest⟩

theorem Assembled.constants_callFree (accepted : Accepted p) (h : Assembled p folding q) :
    ∀ c ∈ q.constants, c.value.CallFree := by
  obtain ⟨known, hdeclarations, hroutines⟩ := h.lowered
  obtain ⟨hfree, hknown⟩ := lowerConsts_callFree (ownResults_ofProgram p folding)
    (completed_outermost p folding) accepted.checked.consts (forall_mem_nil _)
    (lowerDeclarations_consts hdeclarations)
  have hall : p.subprograms = [] ++ p.subprograms := rfl
  have hroutines := lowerSubprograms_callFree accepted hall hknown hroutines
  have houtside := forall_mem_append.mpr (h.forall_outside hfree)
  refine forall_mem_append.mpr ⟨houtside, fun c hc => ?_⟩
  obtain ⟨r, hr, hc⟩ := mem_flatMap.mp hc
  exact hroutines r hr c hc

end

/-- Every call in a lowered source names the one routine that comes from the subprogram which it was
resolved to, and passes what that routine expects. -/
theorem calls_linked {source : String} {p : MiniPascal.Program}
    (hparse : parse (scan source) = .ok (p, [])) (hclean : (analyze p).isClean = true)
    {level : Nat} {q : Program} (hlower : lower p (analyze p).table (foldsAt level) = .ok q) :
    CallsLinked p (foldsAt level) q := by
  obtain ⟨accepted, assembled⟩ := assembled_of_source hparse hclean hlower
  refine ⟨(assembled.parts accepted).imp fun a b hpart => ?_,
    assembled.constants_callFree accepted⟩
  exact forall₂_imp_of_mem hpart.emits fun m hm u _ hemits =>
    assembled.linked accepted hpart hemits (hpart.sound accepted m hm)

/-- Routines that share a name, one of which takes references, and calls inside of arguments,
indices and conditions. -/
def nested : String := "program p; const n = 2; m = n; var a: array[1..3] of integer;
  function f(x: integer; var y: integer): integer; begin y := x; f := x + y end;
  function f(x: real): real; begin f := x / 2 end;
  procedure g; begin if f(2.5) > f(1) then a[f(1, a[2])] := f(n, a[f(1, a[1])]) end;
  begin g; a[1] := f(3, a[3]) end."

set_option maxRecDepth 2000 in
theorem nested_calls_linked : ∃ (p : MiniPascal.Program) (q : Program),
    parse (scan nested) = .ok (p, []) ∧ (analyze p).isClean = true ∧
      lower p (analyze p).table (foldsAt 0) = .ok q ∧
      q.routines.map Routine.name = ["f_1", "f_2", "g"] ∧ CallsLinked p (foldsAt 0) q :=
  exists_lowered_and rfl (by decide +kernel) fun hp hclean hlower => calls_linked hp hclean hlower

end MiniPascal.C
