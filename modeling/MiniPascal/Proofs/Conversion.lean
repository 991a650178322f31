import MiniPascal.Proofs.Agreement
import MiniPascal.Proofs.Blocks

/-!
# What lowering makes of expressions and statements

The ways in which the form of an expression or statement is made from the forms of its parts.
-/

namespace MiniPascal.C

open Scope
open List

/-- What a name and indices in C make up: a variable, or an element of an array. -/
inductive PlaceOf (env : Env) (p : Position) (name : String) : List Expr → Expr → Prop
  | var {item : Item} {v : Var} (found : env.table.findPlace? env.block name = some item)
      (var : placeVar env p item name = .ok v) : PlaceOf env p name [] (.var v)
  | element {item : Item} {v : Var} {cs : List Expr}
      (found : env.table.findPlace? env.block name = some item)
      (var : placeVar env p item name = .ok v) (indices : cs ≠ [])
      (length : cs.length ≤ item.type.dims.length) :
      PlaceOf env p name cs (.element v (cs.zipWith (subscript env.folding) item.type.dims))

/-- The routine that is called with arguments in C, and how it gets them. -/
structure CallOf (env : Env) (name : String) (args : List Argument) (cs : List Expr) (item : Item)
    (routine : String) (passed : List (Expr × Bool)) : Prop where
  found : env.table.findRoutine env.block name args = .ok item
  routine : env.names.routines.lookup item.position = some routine
  length : cs.length = item.params.length
  passed : passed = cs.zipWith (fun e param => (e, param.byReference)) item.params

/-- The ways to convert an expression whose parts are related to their forms. -/
inductive ConvertedBy (env : Env) (R : MiniPascal.Expr → Expr → Prop) : MiniPascal.Expr → Expr → Prop
  | int {p v} : ConvertedBy env R (.int p v) (.int v)
  | real {p v} : ConvertedBy env R (.real p v) (.real v)
  | char {p v} : ConvertedBy env R (.char p v) (.char v)
  | bool {p v} : ConvertedBy env R (.bool p v) (.int (if v then 1 else 0))
  | string {p v} : ConvertedBy env R (.string p v) (.string v)
  | element {p name es cs c} (parts : Forall₂ R es cs) (place : PlaceOf env p name cs c) :
      ConvertedBy env R (.element p name es) c
  | routine {p name item routine} (found : env.table.resolve env.block name = .ok item)
      (kind : item.kind = .routine) (named : env.names.routines.lookup item.position = some routine) :
      ConvertedBy env R (.name p name) (.call routine [])
  | name {p name item c} (found : env.table.resolve env.block name = .ok item)
      (kind : item.kind ≠ .routine) (place : PlaceOf env p name [] c) :
      ConvertedBy env R (.name p name) c
  | call {p name es cs item routine passed} (other : env.builtin? name = none)
      (parts : Forall₂ R es cs) (call : CallOf env name (env.arguments es) cs item routine passed) :
      ConvertedBy env R (.call p name es) (.call routine passed)
  | binary {p op l r x y} (left : R l x) (right : R r y) (narrow : widens env op l r = false) :
      ConvertedBy env R (.binary p op l r) (.binary (.ofSource op) x y)
  | widened {p op l r x y} (left : R l x) (right : R r y) (wide : widens env op l r = true) :
      ConvertedBy env R (.binary p op l r) (.binary (.ofSource op) (.cast .double x) y)
  | plus {p e c} (operand : R e c) : ConvertedBy env R (.unary p .plus e) c
  | minus {p e c} (operand : R e c) : ConvertedBy env R (.unary p .minus e) (.unary .minus c)
  | not {p e c} (operand : R e c) : ConvertedBy env R (.unary p .not e) (.unary .not c)

section

variable {env : Env} {p : Position} {name : String} {es : List MiniPascal.Expr} {cs : List Expr}
  {c : Expr} {routine : String} {passed : List (Expr × Bool)}

theorem convertAll_eq_ok :
    convertAll env es = .ok cs ↔ Forall₂ (fun e c => convert env e = .ok c) es cs := by
  induction es generalizing cs with
  | nil =>
    rw [forall₂_nil_left_iff, convertAll, Except.ok.injEq]
    exact eq_comm
  | cons e es ih =>
    rw [convertAll, Except.bind_eq_ok]
    constructor
    · rintro ⟨c, hc, h⟩
      obtain ⟨rest, hrest, h⟩ := Except.bind_eq_ok.mp h
      cases h
      exact .cons hc (ih.mp hrest)
    · intro h
      cases h with
      | cons hc hrest => exact ⟨_, hc, Except.bind_eq_ok.mpr ⟨_, ih.mpr hrest, rfl⟩⟩

theorem length_convertAll (h : convertAll env es = .ok cs) : cs.length = es.length :=
  (convertAll_eq_ok.mp h).length_eq.symm

/-- Taking the lower bounds off changes integers only. -/
theorem flatMap_subscripts {α : Type} {F : Expr → List α} (hint : ∀ v, F (.int v) = [])
    (folding : Bool) {dims : List Period} (h : cs.length ≤ dims.length) :
    ((cs.zipWith (subscript folding) dims).map Prod.fst).flatMap F = cs.flatMap F := by
  have hone : ∀ c period, F (subscript folding c period).1 = F c := by
    intro c period
    unfold subscript
    split
    · split
      · rw [hint, hint]
      · rfl
    · rfl
  induction cs generalizing dims with
  | nil => rfl
  | cons c cs ih =>
    cases dims with
    | nil => exact absurd h (by simp)
    | cons period dims =>
      rw [zipWith_cons_cons, map_cons, flatMap_cons, hone, ih (Nat.le_of_succ_le_succ h),
        flatMap_cons]

theorem map_fst_passed {params : List Scope.Param} (h : cs.length = params.length) :
    (cs.zipWith (fun e param => (e, param.byReference)) params).map Prod.fst = cs := by
  induction cs generalizing params with
  | nil => rfl
  | cons e es ih =>
    cases params with
    | nil => cases h
    | cons param params =>
      rw [zipWith_cons_cons, map_cons, ih (Nat.succ.inj h)]

theorem CallOf.fst {args : List Argument} {item : Item}
    (h : CallOf env name args cs item routine passed) : passed.map Prod.fst = cs := by
  rw [h.passed, map_fst_passed h.length]

theorem place_eq_ok (h : place env p name es.length (convertAll env es) = .ok c) :
    ∃ cs, convertAll env es = .ok cs ∧ PlaceOf env p name cs c := by
  unfold place at h
  split at h
  · cases h
  · next item found =>
    obtain ⟨v, hv, h⟩ := Except.bind_eq_ok.mp h
    split at h
    · next hnone =>
      cases h
      rw [length_eq_zero_iff.mp hnone]
      exact ⟨[], rfl, .var found hv⟩
    split at h
    · cases h
    · next hsome hlength =>
      obtain ⟨cs, hcs, h⟩ := Except.bind_eq_ok.mp h
      cases h
      rw [← length_convertAll hcs] at hsome hlength
      exact ⟨cs, hcs, .element found hv (fun hnil => hsome (hnil ▸ rfl)) (Nat.le_of_not_lt hlength)⟩

theorem place_lowered (h : place env p name es.length (lowerExprs env es) = .ok c) :
    ∃ cs, lowerExprs env es = .ok cs ∧ PlaceOf env p name cs c := by
  rw [← length_map env.prepared] at h
  exact place_eq_ok h

theorem routineName_eq_ok {q : Position} (h : routineName env name q = .ok routine) :
    env.names.routines.lookup q = some routine := by
  unfold routineName at h
  split at h
  · next hn =>
    cases h
    exact hn
  · cases h

theorem callOf_eq_ok {es' : List MiniPascal.Expr} (hlength : es'.length = es.length)
    (h : callOf env p name (env.arguments es) (convertAll env es') = .ok (routine, passed)) :
    ∃ cs item, convertAll env es' = .ok cs ∧
      CallOf env name (env.arguments es) cs item routine passed := by
  unfold callOf at h
  split at h
  · cases h
  · next item found =>
    obtain ⟨cs, hcs, _, hroutine, h⟩ := Except.bind₂_eq_ok.mp h
    cases h
    refine ⟨cs, item, hcs, found, routineName_eq_ok hroutine, ?_, rfl⟩
    rw [(Item.accepts_iff.mp (Table.findRoutine_ok found).2.1).1, length_convertAll hcs, hlength,
      Env.arguments, Typing.value_argumentsOf, length_map]

variable {R : MiniPascal.Expr → Expr → Prop}

mutual

/-- What all ways of converting keep holds of every expression and its form. -/
theorem convert_induct
    (step : ∀ e c, ConvertedBy env (fun e c => convert env e = .ok c ∧ R e c) e c → R e c) :
    ∀ (e : MiniPascal.Expr) (c : Expr), convert env e = .ok c → R e c
  | .int .., c, h => by
    cases h
    exact step _ _ .int
  | .real .., c, h => by
    cases h
    exact step _ _ .real
  | .char .., c, h => by
    cases h
    exact step _ _ .char
  | .bool .., c, h => by
    cases h
    exact step _ _ .bool
  | .string .., c, h => by
    cases h
    exact step _ _ .string
  | .element p name es, c, h => by
    obtain ⟨cs, hcs, hplace⟩ := place_eq_ok h
    exact step _ _ (.element (convertAll_induct step es cs hcs) hplace)
  | .name p name, c, h => by
    rw [convert] at h
    split at h
    · cases h
    · next item found =>
      split at h
      · next hk =>
        obtain ⟨routine, hroutine, h⟩ := Except.bind_eq_ok.mp h
        cases h
        exact step _ _ (.routine found hk (routineName_eq_ok hroutine))
      · next hk =>
        have h : place env p name ([] : List MiniPascal.Expr).length (convertAll env []) = .ok c := h
        obtain ⟨cs, hcs, hplace⟩ := place_eq_ok h
        cases hcs
        exact step _ _ (.name found hk hplace)
  | .call p name es, c, h => by
    rw [convert] at h
    split at h
    · cases h
    · next hb =>
      obtain ⟨⟨routine, passed⟩, hpassed, h⟩ := Except.bind_eq_ok.mp h
      cases h
      obtain ⟨cs, item, hcs, hcall⟩ := callOf_eq_ok rfl hpassed
      exact step _ _ (.call (Option.not_isSome_iff_eq_none.mp hb)
        (convertAll_induct step es cs hcs) hcall)
  | .binary p op l r, c, h => by
    obtain ⟨x, hx, y, hy, h⟩ := Except.bind₂_eq_ok.mp h
    cases h
    have hl := And.intro hx (convert_induct step l x hx)
    have hr := And.intro hy (convert_induct step r y hy)
    cases hw : widens env op l r with
    | true => exact step _ _ (.widened hl hr hw)
    | false => exact step _ _ (.binary hl hr hw)
  | .unary p op e, c, h => by
    obtain ⟨x, hx, h⟩ := Except.bind_eq_ok.mp h
    have he := And.intro hx (convert_induct step e x hx)
    cases op with
    | plus =>
      cases h
      exact step _ _ (.plus he)
    | minus =>
      cases h
      exact step _ _ (.minus he)
    | not =>
      cases h
      exact step _ _ (.not he)

theorem convertAll_induct
    (step : ∀ e c, ConvertedBy env (fun e c => convert env e = .ok c ∧ R e c) e c → R e c) :
    ∀ (es : List MiniPascal.Expr) (cs : List Expr), convertAll env es = .ok cs →
      Forall₂ (fun e c => convert env e = .ok c ∧ R e c) es cs
  | [], cs, h => by
    cases h
    exact .nil
  | e :: es, cs, h => by
    obtain ⟨c, hc, rest, hrest, h⟩ := Except.bind₂_eq_ok.mp h
    cases h
    exact .cons ⟨hc, convert_induct step e c hc⟩ (convertAll_induct step es rest hrest)

end

end

inductive TargetOf (env : Env) (p : Position) (name : String) : List MiniPascal.Expr → Expr → Prop
  | result {h v} (around : env.function = some h) (named : h.name = name)
      (var : resultVar env h = .ok v) : TargetOf env p name [] (.var v)
  | place {es cs c} (other : ∀ h, env.function = some h → h.name = name → es ≠ [])
      (lowered : lowerExprs env es = .ok cs) (place : PlaceOf env p name cs c) :
      TargetOf env p name es c

/-- The ways to lower a statement whose parts are related to their forms. -/
inductive LoweredBy (env : Env) (R : MiniPascal.Statement → Statement → Prop) :
    MiniPascal.Statement → Statement → Prop
  | assign {p name es e c d} (target : target env p name es = .ok c)
      (value : lowerExpr env e = .ok d) : LoweredBy env R (.assign p name es e) (.assign c d)
  | print {p name es b r} (found : env.builtin? name = some b) (output : b.isOutput = true)
      (format : format env b es = .ok r) : LoweredBy env R (.call p name es) (.print r.1 r.2)
  | scan {p name es b r} (found : env.builtin? name = some b) (input : b.isOutput = false)
      (format : format env b es = .ok r) : LoweredBy env R (.call p name es) (.scan r.1 r.2)
  | call {p name es routine passed} (other : env.builtin? name = none)
      (call : callOf env p name (env.arguments es) (lowerExprs env es) = .ok (routine, passed)) :
      LoweredBy env R (.call p name es) (.call routine passed)
  | compound {p ss cs} (parts : Forall₂ R ss cs) : LoweredBy env R (.compound p ss) (.compound cs)
  | ifThen {p e s c s'} (condition : lowerExpr env e = .ok c) (onTrue : R s s') :
      LoweredBy env R (.branch p e s none) (.branch c s' none)
  | ifThenElse {p e s t c s' t'} (condition : lowerExpr env e = .ok c) (onTrue : R s s')
      (onFalse : R t t') : LoweredBy env R (.branch p e s (some t)) (.branch c s' (some t'))
  | count {p name e f direction s v c d s'} (counter : counterVar env p name = .ok v)
      (first : lowerExpr env e = .ok c) (last : lowerExpr env f = .ok d) (body : R s s') :
      LoweredBy env R (.count p name e f direction s) (.count v c d (direction == .down) s')
  | loop {p e s c s'} (condition : lowerExpr env e = .ok c) (body : R s s') :
      LoweredBy env R (.loop p e s) (.loop c s')
  | exit {p} (leaving : leaving env = .ok .exit) : LoweredBy env R (.exit p) .exit
  | leave {p v} (leaving : leaving env = .ok (.leave v)) : LoweredBy env R (.exit p) (.leave v)

section

variable {env : Env} {p : Position} {name : String} {es : List MiniPascal.Expr} {c : Expr}

theorem target_eq_ok (h : target env p name es = .ok c) : TargetOf env p name es c := by
  have hplace : place env p name es.length (lowerExprs env es) = .ok c →
      (∀ h, env.function = some h → h.name = name → es ≠ []) → TargetOf env p name es c := by
    intro h other
    obtain ⟨cs, hcs, hplace⟩ := place_lowered h
    exact .place other hcs hplace
  unfold target at h
  split at h
  · next f hf =>
    split at h
    · next hname =>
      obtain ⟨v, hv, h⟩ := Except.bind_eq_ok.mp h
      cases h
      exact .result hf hname hv
    · next hname =>
      refine hplace h fun g hg hname' => ?_
      cases hf.symm.trans hg
      exact absurd hname' hname
  · next hnot => exact hplace h fun g hg _ hnil => hnot g hg hnil

theorem leaving_cases {c : Statement} (h : leaving env = .ok c) : c = .exit ∨ ∃ v, c = .leave v := by
  unfold leaving at h
  split at h
  · cases h
    exact .inl rfl
  · split at h
    · obtain ⟨v, _, h⟩ := Except.bind_eq_ok.mp h
      cases h
      exact .inr ⟨_, rfl⟩
    · cases h
      exact .inr ⟨_, rfl⟩

variable {R : MiniPascal.Statement → Statement → Prop}

mutual

/-- What all ways of lowering keep holds of every statement and its form. -/
theorem lowerStatement_induct
    (step : ∀ s c, lowerStatement env s = .ok c →
      LoweredBy env (fun s c => lowerStatement env s = .ok c ∧ R s c) s c → R s c) :
    ∀ (s : MiniPascal.Statement) (c : Statement), lowerStatement env s = .ok c → R s c
  | .assign .., c, h => by
    obtain ⟨target, htarget, value, hvalue, hc⟩ := Except.bind₂_eq_ok.mp h
    cases hc
    exact step _ _ h (.assign htarget hvalue)
  | .call p name es, c, h => by
    refine step _ _ h ?_
    rw [lowerStatement] at h
    split at h
    · next b hb =>
      obtain ⟨r, hr, hc⟩ := Except.bind_eq_ok.mp h
      cases hc
      cases hout : b.isOutput with
      | true => exact .print hb hout hr
      | false => exact .scan hb hout hr
    · next hb =>
      obtain ⟨⟨routine, passed⟩, hpassed, hc⟩ := Except.bind_eq_ok.mp h
      cases hc
      exact .call hb hpassed
  | .compound _ parts, c, h => by
    obtain ⟨cs, hcs, hc⟩ := Except.bind_eq_ok.mp h
    cases hc
    exact step _ _ h (.compound (lowerStatements_induct step parts cs hcs))
  | .branch _ _ onTrue none, c, h => by
    obtain ⟨d, hd, yes, hyes, hc⟩ := Except.bind₂_eq_ok.mp h
    cases hc
    exact step _ _ h (.ifThen hd ⟨hyes, lowerStatement_induct step onTrue yes hyes⟩)
  | .branch _ _ onTrue (some onFalse), c, h => by
    obtain ⟨d, hd, yes, hyes, hc⟩ := Except.bind₂_eq_ok.mp h
    obtain ⟨no, hno, hc⟩ := Except.bind_eq_ok.mp hc
    cases hc
    exact step _ _ h (.ifThenElse hd ⟨hyes, lowerStatement_induct step onTrue yes hyes⟩
      ⟨hno, lowerStatement_induct step onFalse no hno⟩)
  | .count _ _ _ _ _ body, c, h => by
    obtain ⟨v, hv, first, hfirst, hc⟩ := Except.bind₂_eq_ok.mp h
    obtain ⟨last, hlast, b, hb, hc⟩ := Except.bind₂_eq_ok.mp hc
    cases hc
    exact step _ _ h (.count hv hfirst hlast ⟨hb, lowerStatement_induct step body b hb⟩)
  | .loop _ _ body, c, h => by
    obtain ⟨d, hd, b, hb, hc⟩ := Except.bind₂_eq_ok.mp h
    cases hc
    exact step _ _ h (.loop hd ⟨hb, lowerStatement_induct step body b hb⟩)
  | .exit _, c, h => by
    rcases leaving_cases h with rfl | ⟨v, rfl⟩
    · exact step _ _ h (.exit h)
    · exact step _ _ h (.leave h)

theorem lowerStatements_induct
    (step : ∀ s c, lowerStatement env s = .ok c →
      LoweredBy env (fun s c => lowerStatement env s = .ok c ∧ R s c) s c → R s c) :
    ∀ (ss : List MiniPascal.Statement) (cs : List Statement), lowerStatements env ss = .ok cs →
      Forall₂ (fun s c => lowerStatement env s = .ok c ∧ R s c) ss cs
  | [], cs, h => by
    cases h
    exact .nil
  | s :: ss, cs, h => by
    obtain ⟨c, hc, rest, hrest, h⟩ := Except.bind₂_eq_ok.mp h
    cases h
    exact .cons ⟨hc, lowerStatement_induct step s c hc⟩ (lowerStatements_induct step ss rest hrest)

end

theorem exists_loweredBy {s : MiniPascal.Statement} {c : Statement}
    (h : lowerStatement env s = .ok c) : ∃ R, LoweredBy env R s c :=
  lowerStatement_induct (R := fun s c => ∃ R, LoweredBy env R s c) (fun _ _ _ h => ⟨_, h⟩) s c h

end

end MiniPascal.C
