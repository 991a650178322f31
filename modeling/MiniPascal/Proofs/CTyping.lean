import MiniPascal.Proofs.Operands
import MiniPascal.Proofs.Scoping

/-!
# Types of C expressions

By the rules of C everything that a lowered program evaluates or sets has the type in C of the type
that the checker gave to it. A character constant counts as a `char` here.
-/

namespace MiniPascal

open Scope Analysis Typing
open List

namespace Expr

mutual

def subexprs : Expr → List Expr
  | .element p n indices => .element p n indices :: subexprsAll indices
  | .call p n arguments => .call p n arguments :: subexprsAll arguments
  | .binary p op left right => .binary p op left right :: (left.subexprs ++ right.subexprs)
  | .unary p op operand => .unary p op operand :: operand.subexprs
  | e => [e]

def subexprsAll : List Expr → List Expr
  | [] => []
  | e :: es => e.subexprs ++ subexprsAll es

end

end Expr

namespace C

namespace Ty

def isArithmetic : Ty → Bool
  | int | double | char => true
  | string | void => false

def isInteger : Ty → Bool
  | int | char => true
  | double | string | void => false

/-- The usual arithmetic conversions, after integer promotion. -/
def common? (a b : Ty) : Option Ty :=
  if a.isArithmetic && b.isArithmetic then some (if a = double ∨ b = double then double else int)
  else none

end Ty

def BinaryOp.type? (op : BinaryOp) (a b : Ty) : Option Ty :=
  match op with
  | add | sub | mul | div => Ty.common? a b
  | mod => if a.isInteger && b.isInteger then some .int else none
  | equal | notEqual | less | lessEqual | greater | greaterEqual | and | or =>
    if a.isArithmetic && b.isArithmetic then some .int else none

def UnaryOp.type? (op : UnaryOp) (a : Ty) : Option Ty :=
  match op with
  | minus => Ty.common? a .int
  | not => if a.isArithmetic then some .int else none

/-- The types of names: of a variable or of the elements of an array, with the number of its
dimensions, and of what a routine returns. -/
structure Types where
  var : Var → Option (Ty × Nat)
  call : String → Option Ty

namespace Expr

mutual

def type? (Γ : Types) : Expr → Option Ty
  | int _ => some .int
  | real _ => some .double
  | char _ => some .char
  | string _ => some .string
  | var v => (Γ.var v).bind fun (T, count) => if count = 0 then some T else none
  | element v subscripts => (Γ.var v).bind fun (T, count) =>
      if subscripts.length = count ∧ subscriptsTyped Γ subscripts then some T else none
  | call name arguments => if argumentsTyped Γ arguments then Γ.call name else none
  | binary op left right => do op.type? (← left.type? Γ) (← right.type? Γ)
  | unary op operand => do op.type? (← operand.type? Γ)
  | cast T operand => do
    if (← operand.type? Γ).isArithmetic && T.isArithmetic then some T else none

def subscriptsTyped (Γ : Types) : List (Expr × Int64) → Bool
  | [] => true
  | (e, _) :: rest => (e.type? Γ).any Ty.isInteger && subscriptsTyped Γ rest

def argumentsTyped (Γ : Types) : List (Expr × Bool) → Bool
  | [] => true
  | (e, _) :: rest => (e.type? Γ).isSome && argumentsTyped Γ rest

end

end Expr

def Routine.type (r : Routine) : Ty := (r.result.map Result.type).getD .void

/-- The item of the table that a use of a variable stands for. -/
def Env.itemFor? (env : Env) (v : Var) : Option Item :=
  if v.isResult then env.function.bind fun h => env.table.findResult? env.block h.name
  else env.table.findData? env.block v.name

/-- The types of names where statements stand: those of their items, and of the routines of the
program in C. -/
def Env.types (env : Env) (q : Program) : Types where
  var v := do
    let item ← env.itemFor? v
    let T ← (Ty.ofBase item.type.base item.position).toOption
    return (T, item.type.dims.length)
  call name := (q.routines.find? fun r => r.name == name).map Routine.type

/-- An expression whose type in C is that of a type of the source. -/
def HasType (Γ : Types) (c : Expr) (T : MiniPascal.Ty) (p : Position) : Prop :=
  ∃ C, Ty.ofBase T.base p = .ok C ∧ c.type? Γ = some C

/-- The form of an expression has its type, and so have the forms of all expressions in it. -/
structure TypeKept (Γ : Types) (env : Env) (e : MiniPascal.Expr) (c : Expr) : Prop where
  lowered : lowerExpr env e = .ok c
  type : HasType Γ c (env.typeOf e) e.position
  inner : ∀ x ∈ (env.prepared e).subexprs, ∃ d, convert env x = .ok d ∧
    HasType Γ d (env.typeOf x) x.position

/-- The form of an operand has the type of the operand. -/
inductive FormTyped (Γ : Types) (env : Env) : Operand → Form → Prop where
  | value {e : MiniPascal.Expr} {c : Expr} (kept : TypeKept Γ env e c) :
      FormTyped Γ env (.value e) (.value c)
  | target {p : Position} {name : String} {indices : List MiniPascal.Expr} {T : MiniPascal.Ty}
      {c : Expr} (typed : Check.targetType env.context p name indices = pure T)
      (lowered : target env p name indices = .ok c) (type : HasType Γ c T p)
      (inner : ∀ e ∈ indices, ∃ d, TypeKept Γ env e d) :
      FormTyped Γ env (.target p name indices) (.target c)
  | counter {p : Position} {name : String} {item : Item} {v : Var}
      (found : env.table.findData? env.block name = some item)
      (lowered : counterVar env p name = .ok v) (type : HasType Γ (.var v) item.type p) :
      FormTyped Γ env (.counter p name) (.counter v)
  | input {e : MiniPascal.Expr} {c : Expr} (kept : TypeKept Γ env e c) :
      FormTyped Γ env (.input e) (.input c)
  | step {p : Position} {name routine : String} {arguments : List MiniPascal.Expr}
      {passed : List (Expr × Bool)}
      (kept : Forall₂ (fun e a => TypeKept Γ env e a.1) arguments passed) :
      FormTyped Γ env (.step p name arguments) (.step routine passed)

/-! ## Operators -/

variable {p : Position}

theorem ofBase_position {base : MiniPascal.Ty.Base} {C : Ty} (h : Ty.ofBase base p = .ok C)
    (q : Position) : Ty.ofBase base q = .ok C := by
  cases base with
  | error => cases h
  | int | real | bool | char | string | void => exact h

theorem isArithmetic_ofBase {T : MiniPascal.Ty} (hT : T.Proper) (hs : T.base ≠ .string) {C : Ty}
    (h : Ty.ofBase T.base p = .ok C) : C.isArithmetic = true := by
  generalize hbase : T.base = base at h hs
  cases base with
  | string => exact (hs rfl).elim
  | void => exact (hT.not_void hbase).elim
  | error => exact (hT.not_error hbase).elim
  | int | real | bool | char =>
    cases h
    rfl

/-- An operator has in C the type in C of the type that the checker gives to it. Of two integers that
are divided as reals the first one is a `double` by then. -/
theorem binaryOp_type? {op : MiniPascal.BinaryOp} {A B T : MiniPascal.Ty}
    (h : MiniPascal.Ty.binary? op A B = some T) {a b : Ty} {q : Position}
    (ha : Ty.ofBase A.base p = .ok a) (hb : Ty.ofBase B.base q = .ok b) :
    ∃ C, Ty.ofBase T.base p = .ok C ∧
      (BinaryOp.ofSource op).type? (if widening op A B then .double else a) b = some C := by
  cases op with
  | add | sub | mul | divide =>
    simp only [MiniPascal.Ty.binary?, Option.ite_none_right_eq_some, Option.some.injEq] at h
    obtain ⟨hn, rfl⟩ := h
    obtain ⟨hA, hB⟩ := MiniPascal.Ty.join_isNumeric hn
    rcases MiniPascal.Ty.isNumeric_iff.mp hA with rfl | rfl <;>
      rcases MiniPascal.Ty.isNumeric_iff.mp hB with rfl | rfl <;>
      (cases ha; cases hb; exact ⟨_, rfl, rfl⟩)
  | div | mod | and | or =>
    simp only [MiniPascal.Ty.binary?, Option.ite_none_right_eq_some, Option.some.injEq,
      Bool.and_eq_true, MiniPascal.Ty.isA_iff] at h
    obtain ⟨⟨rfl, rfl⟩, rfl⟩ := h
    cases ha
    cases hb
    exact ⟨_, rfl, rfl⟩
  | equal | notEqual | less | lessEqual | greater | greaterEqual =>
    obtain ⟨hA, hB, _⟩ := MiniPascal.Ty.binary?_proper h
    obtain ⟨sA, sB⟩ := Run.operands_not_string h
    simp only [MiniPascal.Ty.binary?, Option.ite_none_right_eq_some, Option.some.injEq] at h
    refine ⟨.int, h.2 ▸ rfl, ?_⟩
    change (if a.isArithmetic && b.isArithmetic then some Ty.int else none) = some .int
    rw [isArithmetic_ofBase hA sA ha, isArithmetic_ofBase hB sB hb]
    rfl

theorem unaryOp_type? {op : MiniPascal.UnaryOp} {A T : MiniPascal.Ty}
    (h : MiniPascal.Ty.unary? op A = some T) {Γ : Types} {c : Expr} (hc : HasType Γ c A p) :
    HasType Γ (Expr.prefixed op c) T p := by
  obtain ⟨a, ha, hc⟩ := hc
  obtain ⟨_, rfl⟩ := MiniPascal.Ty.unary?_proper h
  refine ⟨a, ha, ?_⟩
  cases op with
  | plus => exact hc
  | minus =>
    simp only [MiniPascal.Ty.unary?, Option.ite_none_right_eq_some] at h
    rw [Expr.prefixed, Expr.type?, hc]
    rcases MiniPascal.Ty.isNumeric_iff.mp h.1 with rfl | rfl <;> cases ha <;> rfl
  | not =>
    simp only [MiniPascal.Ty.unary?, Option.ite_none_right_eq_some, MiniPascal.Ty.isA_iff] at h
    rw [Expr.prefixed, Expr.type?, hc]
    rw [h.1] at ha
    cases ha
    rfl

/-! ## Expressions -/

section

variable {env : Env} {q : Program} {e : MiniPascal.Expr} {c : Expr} {p : Position}
  {T : MiniPascal.Ty} {Γ : Types} {v : Var} {cs : List Expr}

theorem type?_subscript (h : c.type? Γ = some .int) (folding : Bool) (period : Period) :
    (subscript folding c period).1.type? Γ = some .int := by
  unfold subscript
  split
  · split <;> rfl
  · exact h

theorem subscriptsTyped_zipWith (h : ∀ c ∈ cs, c.type? Γ = some .int) (folding : Bool)
    (dims : List Period) : Expr.subscriptsTyped Γ (cs.zipWith (subscript folding) dims) = true := by
  induction cs generalizing dims with
  | nil => rfl
  | cons c cs ih =>
    cases dims with
    | nil => rfl
    | cons period dims =>
      obtain ⟨hc, hcs⟩ := forall_mem_cons.mp h
      rw [zipWith_cons_cons, Expr.subscriptsTyped, type?_subscript hc, ih hcs]
      rfl

theorem argumentsTyped_zipWith (h : ∀ c ∈ cs, (c.type? Γ).isSome = true)
    (params : List Scope.Param) :
    Expr.argumentsTyped Γ (cs.zipWith (fun c param => (c, param.byReference)) params) = true := by
  induction cs generalizing params with
  | nil => rfl
  | cons c cs ih =>
    cases params with
    | nil => rfl
    | cons param params =>
      obtain ⟨hc, hcs⟩ := forall_mem_cons.mp h
      rw [zipWith_cons_cons, Expr.argumentsTyped, hc, ih hcs]
      rfl

/-- What the types of names rest on: results belong to the function around, which has one, and what a
routine returns in C is what its item says. -/
structure Env.Typable (env : Env) (q : Program) : Prop where
  own : env.OwnResults
  result : ∀ h, env.function = some h →
    ∃ item ∈ resultItems h, env.table.findResult? env.block h.name = some item
  call : ∀ item, env.table.Visible env.block item → item.kind = .routine → ∀ routine,
    env.names.routines.lookup item.position = some routine →
      ∃ C, Ty.ofBase item.type.base item.position = .ok C ∧ (env.types q).call routine = some C

theorem itemFor?_result {h : Heading} (hf : env.function = some h) (hv : resultVar env h = .ok v) :
    env.itemFor? v = env.table.findResult? env.block h.name := by
  rw [Env.itemFor?, (isResult_of_resultVar hv).1, hf]
  rfl

variable {name : String} {item : Item}

theorem itemFor?_placeVar (own : env.OwnResults)
    (hn : env.table.findPlace? env.block name = some item) (hv : placeVar env p item name = .ok v) :
    env.itemFor? v = some item := by
  have hemits := placeVar_emits own hn hv
  cases hemits with
  | data found => exact found
  | @result h _ _ around ownItem named =>
    obtain ⟨type, _, rfl⟩ := mem_map.mp ownItem
    rw [itemFor?_result around named]
    rcases Table.findPlace?_some hn with ⟨_, hdata⟩ | ⟨_, hresult, _⟩
    · cases hdata
    · have hname : h.name = name := (Table.findResult?_some hresult).2.1
      exact (congrArg (env.table.findResult? env.block) hname).trans hresult

theorem types_var (hitem : env.itemFor? v = some item) {C : Ty}
    (hC : Ty.ofBase item.type.base p = .ok C) :
    (env.types q).var v = some (C, item.type.dims.length) := by
  simp [Env.types, hitem, ofBase_position hC item.position, Except.toOption]

theorem place_hasType (own : env.OwnResults)
    (hn : env.table.findPlace? env.block name = some item) {es : List MiniPascal.Expr}
    (hlen : es.length = item.type.dims.length)
    (hes : ∀ e ∈ es, ∀ c, convert env e = .ok c → c.type? (env.types q) = some .int)
    (h : place env p name es.length (convertAll env es) = .ok c) {C : Ty} {pos : Position}
    (hC : Ty.ofBase item.type.base pos = .ok C) : c.type? (env.types q) = some C := by
  rw [place, hn] at h
  obtain ⟨v, hv, h⟩ := Except.bind_eq_ok.mp h
  have htype : (env.types q).var v = some (C, es.length) :=
    hlen ▸ types_var (itemFor?_placeVar own hn hv) hC
  split at h
  · next hcount =>
    cases h
    rw [Expr.type?, htype, hcount]
    rfl
  · rw [if_neg (Nat.not_lt.mpr (Nat.le_of_eq hlen))] at h
    obtain ⟨cs, hcs, h⟩ := Except.bind_eq_ok.mp h
    cases h
    have hints : ∀ c ∈ cs, c.type? (env.types q) = some .int := by
      intro c hc
      obtain ⟨e, he, hec⟩ := exists_left_of_mem (convertAll_eq_ok.mp hcs) hc
      exact hes e he c hec
    have hcount : (cs.zipWith (subscript env.folding) item.type.dims).length = es.length := by
      rw [length_zipWith, length_convertAll hcs, hlen, Nat.min_self]
    rw [Expr.type?, htype, Option.bind_some, hcount, subscriptsTyped_zipWith hints]
    exact if_pos ⟨rfl, rfl⟩

theorem convert_hasType (typable : env.Typable q) (lawful : env.Lawful)
    (he : WellTyped env.table env.block e) (hT : Typing.typeOf env.table env.block e = pure T)
    (hp : T.Proper) (hc : convert env e = .ok c) : HasType (env.types q) c T e.position := by
  induction he generalizing T c with
  | int p v | real p v | char p v | bool p v | string p v =>
    cases hc
    rw [← Checked.pure_inj.mp hT]
    exact ⟨_, rfl, rfl⟩
  | @name p n item hn =>
    have htype : item.type = T := by
      rw [Typing.typeOf, hn] at hT
      exact Checked.pure_inj.mp hT
    subst htype
    obtain ⟨C, hC⟩ := ofBase_succeeds hp.not_error p
    refine ⟨C, hC, ?_⟩
    rw [convert, hn] at hc
    dsimp only at hc
    rcases Table.resolve_ok hn with ⟨hk, _⟩ | ⟨hk, hplace⟩
    · rw [if_pos hk] at hc
      obtain ⟨routine, hroutine, hc⟩ := Except.bind_eq_ok.mp hc
      cases hc
      obtain ⟨C', hC', hcall⟩ := typable.call item (Table.resolve_visible hn) hk routine
        (routineName_eq_ok hroutine)
      rw [← Except.ok.inj ((ofBase_position hC' p).symm.trans hC)]
      exact hcall
    · rw [if_neg hk] at hc
      have hlen : ([] : List MiniPascal.Expr).length = item.type.dims.length := by rw [hp.dims]; rfl
      exact place_hasType typable.own hplace hlen (forall_mem_nil _) hc hC
  | @element p n indices item hn hi ht hd te ih =>
    cases te.symm.trans hT
    obtain ⟨C, hC⟩ := ofBase_succeeds hp.not_error p
    have hlen : indices.length = item.type.dims.length :=
      Nat.le_antisymm hd (drop_eq_nil_iff.mp hp.dims)
    refine ⟨C, hC, place_hasType typable.own hn hlen (fun e he c hc => ?_) hc hC⟩
    obtain ⟨I, hI, htype⟩ := ih e he (ht e he) .int hc
    cases hI
    exact htype
  | @call p n arguments item hb ha ta hn te ih =>
    cases te.symm.trans hT
    have hfound : env.table.findRoutine env.block n (env.arguments arguments) = .ok item := by
      rw [Env.arguments, value_argumentsOf, hn]
    have hvalued := valued_of_arguments lawful (fun e he => ⟨_, ta e he⟩) hfound
    obtain ⟨hk, _, _, hv⟩ := Table.findRoutine_ok hn
    rw [convert, Env.builtin?, hb, if_neg Bool.false_ne_true, callOf, hfound] at hc
    obtain ⟨⟨routine, passed⟩, hcall, hc⟩ := Except.bind_eq_ok.mp hc
    obtain ⟨cs, hcs, name, hname, hcall⟩ := Except.bind₂_eq_ok.mp hcall
    cases hcall
    cases hc
    obtain ⟨C, hC, hcall⟩ := typable.call item hv hk routine (routineName_eq_ok hname)
    have htyped : ∀ c ∈ cs, (c.type? (env.types q)).isSome = true := by
      intro c hc
      obtain ⟨e, he, hec⟩ := exists_left_of_mem (convertAll_eq_ok.mp hcs) hc
      obtain ⟨T, hT, hp⟩ := hvalued e he
      obtain ⟨C, _, htype⟩ := ih e he hT hp hec
      rw [htype]
      rfl
    refine ⟨C, ofBase_position hC p, ?_⟩
    rw [Expr.type?, argumentsTyped_zipWith htyped, if_pos rfl, hcall]
  | @binary p op l r A B T' hl hr tl tr hop ihl ihr =>
    obtain ⟨hA, hB, _⟩ := MiniPascal.Ty.binary?_proper hop
    rw [Typing.typeOf, tl, tr] at hT
    obtain rfl : T' = T := Option.some.inj (hop.symm.trans (binary_eq_pure hT hp.isError))
    have hwide : widening op (env.typeOf l) (env.typeOf r) = widening op A B := by
      rw [Env.typeOf, Env.typeOf, tl, tr]
      rfl
    rw [convert_binary, hwide] at hc
    obtain ⟨x, hx, y, hy, hc⟩ := Except.bind₂_eq_ok.mp hc
    cases hc
    obtain ⟨a, ha, hxa⟩ := ihl tl hA hx
    obtain ⟨b, hb, hyb⟩ := ihr tr hB hy
    obtain ⟨C, hC, htype⟩ := binaryOp_type? hop ha hb
    refine ⟨C, ofBase_position hC p, ?_⟩
    have hleft : (if widening op A B then Expr.cast .double x else x).type? (env.types q) =
        some (if widening op A B then .double else a) := by
      split
      · rw [Expr.type?, hxa]
        change (if a.isArithmetic && Ty.double.isArithmetic then _ else _) = _
        rw [isArithmetic_ofBase hA (Run.operands_not_string hop).1 ha]
        rfl
      · exact hxa
    rw [Expr.type?, hleft, hyb]
    exact htype
  | @unary p op x A T' hx tx hop ih =>
    obtain ⟨hA, _⟩ := MiniPascal.Ty.unary?_proper hop
    rw [Typing.typeOf, tx] at hT
    obtain rfl : T' = T := Option.some.inj (hop.symm.trans (unary_eq_pure hT hp.isError))
    rw [convert_unary] at hc
    obtain ⟨d, hd, hc⟩ := Except.bind_eq_ok.mp hc
    cases hc
    obtain ⟨C, hC, htype⟩ := unaryOp_type? hop (ih tx hA hd)
    exact ⟨C, ofBase_position hC p, htype⟩

theorem subexprsAll_eq (es : List MiniPascal.Expr) :
    MiniPascal.Expr.subexprsAll es = es.flatMap MiniPascal.Expr.subexprs := by
  induction es with
  | nil => rfl
  | cons e es ih => rw [MiniPascal.Expr.subexprsAll, flatMap_cons, ih]

theorem valued_subexprs (lawful : env.Lawful) (he : WellTyped env.table env.block e)
    (h : env.Valued e) : ∀ x ∈ e.subexprs, env.Valued x := by
  induction he with
  | int | real | char | bool | string | name => exact forall_mem_singleton.mpr h
  | element p hn hi ht hd te ih =>
    refine forall_mem_cons.mpr ⟨h, fun x hx => ?_⟩
    rw [subexprsAll_eq] at hx
    obtain ⟨e, he, hx⟩ := mem_flatMap.mp hx
    exact ih e he ⟨.int, ht e he, .int⟩ x hx
  | @call p n arguments item hb ha ta hn te ih =>
    refine forall_mem_cons.mpr ⟨h, fun x hx => ?_⟩
    have hfound : env.table.findRoutine env.block n (env.arguments arguments) = .ok item := by
      rw [Env.arguments, value_argumentsOf, hn]
    rw [subexprsAll_eq] at hx
    obtain ⟨e, he, hx⟩ := mem_flatMap.mp hx
    exact ih e he (valued_of_arguments lawful (fun e he => ⟨_, ta e he⟩) hfound e he) x hx
  | binary p hl hr tl tr hop ihl ihr =>
    obtain ⟨hA, hB, _⟩ := MiniPascal.Ty.binary?_proper hop
    exact forall_mem_cons.mpr
      ⟨h, forall_mem_append.mpr ⟨ihl ⟨_, tl, hA⟩, ihr ⟨_, tr, hB⟩⟩⟩
  | unary p hx tx hop ih =>
    exact forall_mem_cons.mpr ⟨h, ih ⟨_, tx, (MiniPascal.Ty.unary?_proper hop).1⟩⟩

theorem typeOf_eq (h : Typing.typeOf env.table env.block e = pure T) : env.typeOf e = T := by
  rw [Env.typeOf, h]
  rfl

theorem Env.Valued.hasType (typable : env.Typable q) (lawful : env.Lawful) (h : env.Valued e)
    (hc : convert env e = .ok c) : HasType (env.types q) c (env.typeOf e) e.position := by
  obtain ⟨T, hT, hp⟩ := h
  rw [typeOf_eq hT]
  exact convert_hasType typable lawful (wellTyped_of_proper hT hp) hT hp hc

theorem position_prepared (e : MiniPascal.Expr) : (env.prepared e).position = e.position := by
  unfold Env.prepared
  split
  · exact MiniPascal.Expr.position_fold e
  · rfl

theorem Env.Valued.kept (named : env.Named) (typable : env.Typable q) (lawful : env.Lawful)
    (h : env.Valued e) (hc : lowerExpr env e = .ok c) : TypeKept (env.types q) env e c := by
  refine ⟨hc, ?_, fun x hx => ?_⟩
  · have htype := h.prepared.hasType typable lawful hc
    rwa [Env.typeOf, typeOf_prepared, position_prepared] at htype
  · have hvalued := valued_subexprs lawful h.prepared.wellTyped h.prepared x hx
    obtain ⟨d, hd⟩ := convert_succeeds named hvalued.wellTyped
    exact ⟨d, hd, hvalued.hasType typable lawful hd⟩

theorem target_hasType (ready : env.Ready) (typable : env.Typable q) (lawful : env.Lawful)
    {indices : List MiniPascal.Expr}
    (typed : Check.targetType env.context p name indices = pure T) (proper : T.Proper)
    (lowered : target env p name indices = .ok c) : HasType (env.types q) c T p := by
  obtain ⟨C, hC⟩ := ofBase_succeeds proper.not_error p
  refine ⟨C, hC, ?_⟩
  cases targeted ready typed lowered with
  | @result h type v around named returns var =>
    obtain ⟨item, hitem, hfound⟩ := typable.result h around
    obtain ⟨type', htype, rfl⟩ := mem_map.mp hitem
    cases returns.symm.trans (Option.mem_toList.mp htype)
    rw [Expr.type?, types_var ((itemFor?_result around var).trans hfound) hC]
    rfl
  | @data item _ _ found kind sound length lowered =>
    have hplace := Table.findPlace?_of_findData? found
    have hlen : (indices.map env.prepared).length = item.type.dims.length := by
      rw [length_map]
      exact Nat.le_antisymm length (drop_eq_nil_iff.mp proper.dims)
    rw [← length_map env.prepared] at lowered
    refine place_hasType typable.own hplace hlen (fun e he d hd => ?_) lowered hC
    obtain ⟨source, hs, rfl⟩ := mem_map.mp he
    have hint : Typing.typeOf env.table env.block (env.prepared source) = pure .int :=
      (typeOf_prepared source).trans (wellTyped_of_indicesSound indices sound source hs).2
    obtain ⟨I, hI, htype⟩ := convert_hasType typable lawful
      (wellTyped_of_proper hint .int) hint .int hd
    cases hI
    exact htype

theorem Formed.typed (ready : env.Ready) (typable : env.Typable q) (lawful : env.Lawful)
    {o : Operand} {f : Form} (h : Formed env o f) : FormTyped (env.types q) env o f := by
  cases h with
  | value valued lowered => exact .value (valued.kept ready.toNamed typable lawful lowered)
  | @target p name indices T c typed proper lowered =>
    refine .target typed lowered (target_hasType ready typable lawful typed proper lowered) ?_
    intro e he
    have hvalued : env.Valued e := by
      cases targeted ready typed lowered with
      | result _ _ _ _ => cases he
      | data _ _ sound _ _ => exact valued_of_indices sound e he
    obtain ⟨d, hd⟩ := convert_succeeds ready.toNamed hvalued.prepared.wellTyped
    exact ⟨d, hvalued.kept ready.toNamed typable lawful hd⟩
  | @counter p name item found kind type =>
    have hname := (Table.findData?_some found).2.1
    have hvar : counterVar env p name = .ok (itemVar item) := by rw [counterVar, found]
    have hitem : env.itemFor? (itemVar item) = some item := by
      rw [← found, ← hname]
      rfl
    refine .counter found hvar ⟨.int, by rw [type]; rfl, ?_⟩
    have htype : Ty.ofBase item.type.base p = .ok .int := by rw [type]; rfl
    rw [Expr.type?, types_var hitem htype, type]
    rfl
  | input valued place lowered => exact .input (valued.kept ready.toNamed typable lawful lowered)
  | step valued lowered =>
    exact .step (forall₂_imp_of_mem (forms_of_step lowered) fun e he a _ hlowered =>
      (valued e he).kept ready.toNamed typable lawful hlowered)

end

/-! ## Programs -/

/-- Everything that a program evaluates or sets has in C the type in C of its type. -/
def TypesKept (p : MiniPascal.Program) (folding : Bool) (q : Program) : Prop :=
  Forall₂ (fun a b => Forall₂ (FormTyped (a.env.types q) a.env) a.operands
    (Statement.formsAll b.2)) (Part.ofProgram p folding) q.parts

section

variable {p : MiniPascal.Program} {folding : Bool} {q : Program}

theorem RoutineOf.ofBase_type {env : Env} {s : Subprogram} {r : Routine} (h : RoutineOf env s r)
    (p : Position) : Ty.ofBase (routineItem s.heading).type.base p = .ok r.type := by
  have hresult := h.result
  unfold C.result at hresult
  split at hresult
  · next type htype =>
    obtain ⟨v, _, hresult⟩ := Except.bind_eq_ok.mp hresult
    rw [routineItem, Routine.type, ← Except.ok.inj hresult, htype]
    cases type <;> rfl
  · next hnone =>
    rw [routineItem, Routine.type, ← Except.ok.inj hresult, hnone]
    rfl

theorem findResult?_inside {before after : List Subprogram} {s : Subprogram}
    (hs : p.subprograms = before ++ s :: after) {h : Heading}
    (hf : (Env.inside p folding before s).function = some h) :
    ∃ item ∈ resultItems h, (finished p).findResult? (tableAfter p before).blocks.length h.name =
      some item := by
  obtain rfl := function_inside hf
  obtain ⟨type, htype⟩ := Option.isSome_iff_exists.mp (returns_of_function hf)
  have hfits : ∃ i ∈ (finished p).named (tableAfter p before).blocks.length s.heading.name,
      (i.kind == .result) = true := by
    have hresult : ∃ i ∈ resultItems s.heading, i.name = s.heading.name ∧ i.kind = .result := by
      rw [resultItems, htype]
      exact ⟨_, mem_singleton_self _, rfl, rfl⟩
    obtain ⟨i, hi, hname, hkind⟩ := hresult
    rw [named_inside hs]
    refine ⟨i, mem_filter.mpr ⟨?_, beq_iff_eq.mpr hname⟩, beq_iff_eq.mpr hkind⟩
    exact mem_append_left _ (mem_append_left _ (mem_append_right _ hi))
  obtain ⟨item, hitem⟩ := Option.isSome_iff_exists.mp (find?_isSome.mpr hfits)
  have hmem := mem_of_find?_eq_some hitem
  rw [named_inside hs] at hmem
  have hkind : item.kind = .result := by simpa using List.find?_some hitem
  refine ⟨item, mem_resultItems (mem_filter.mp hmem).1 hkind, ?_⟩
  rw [Table.findResult?, Table.find?_eq, hitem]
  rfl

theorem PartOf.typable (accepted : Accepted p) (h : Assembled p folding q) {a : Part}
    {b : List Declaration × List Statement} (hpart : PartOf p folding q a b) : a.env.Typable q where
  own := hpart.ownResults
  result := by
    cases hpart with
    | main _ => exact nofun
    | routine split _ => exact fun h hf => findResult?_inside split hf
  call := by
    intro item hv hk routine hname
    obtain ⟨s, hs, rfl⟩ := hpart.routine_eq hv hk
    obtain ⟨r, hzip, ⟨_, _, _, hof⟩, hlookup, _⟩ := h.routine_of accepted hs
    rw [hpart.names_eq] at hname
    cases hname.symm.trans hlookup
    refine ⟨r.type, hof.ofBase_type _, ?_⟩
    have honly := filter_name_eq (h.named accepted).2.1 (of_mem_zip hzip).2
    rw [Env.types]
    dsimp only
    rw [← head?_filter, honly]
    rfl

end

/-- In a lowered source the form in C of everything that is evaluated or set has the type in C of the
type that the checker gives to it. -/
theorem types_kept {source : String} {p : MiniPascal.Program}
    (hparse : parse (scan source) = .ok (p, [])) (hclean : (analyze p).isClean = true)
    {level : Nat} {q : Program} (hlower : lower p (analyze p).table (foldsAt level) = .ok q) :
    TypesKept p (foldsAt level) q := by
  obtain ⟨accepted, assembled⟩ := assembled_of_source hparse hclean hlower
  refine (assembled.parts accepted).imp fun a b hpart => ?_
  exact (hpart.formed accepted).imp fun o f hformed =>
    hformed.typed (hpart.ready accepted) (hpart.typable accepted assembled) hpart.lawful

/-- Integers that are divided as reals, under other operators, in arguments and behind signs, with
comparisons of each type. -/
def mixed : String := "program p; const c = 'x'; var a: array[1..3] of real; i: integer; b: boolean;
  function f(var x: integer; y: real): real; begin x := x + 1; f := x / 2 + y end;
  begin
    for i := 1 to 3 do a[i] := f(i, i / i) / 2;
    b := not (a[1] > i) or (c = 'x') and (b <> (i = 2));
    read(a[i]); writeln('r', -i / 2, b, 7 / 2, a[i mod 3 + 1], c)
  end."

set_option maxRecDepth 2000 in
theorem mixed_types_kept : ∃ (p : MiniPascal.Program) (q : Program),
    parse (scan mixed) = .ok (p, []) ∧ (analyze p).isClean = true ∧
      lower p (analyze p).table (foldsAt 1) = .ok q ∧
      q.parts.map (fun b => (Statement.formsAll b.2).length) = [14, 4] ∧
      TypesKept p (foldsAt 1) q :=
  exists_lowered_and rfl (by decide +kernel) fun hp hclean hlower => types_kept hp hclean hlower

end C

end MiniPascal
