import MiniPascal.Proofs.FoldedRuns
import MiniPascal.Proofs.Preservation
import MiniPascal.Proofs.ResultVariables
import MiniPascal.Proofs.Writes
import Mathlib.Data.List.Pairwise

/-!
# Elements of arrays

A dimension of an array has two bounds in the source and a size in C, where it starts at zero. The
offset of a subscript is the distance of its index from the lower bound.
-/

namespace MiniPascal

open Scope Analysis Typing
open List

/-! ## Elements in the source -/

namespace Expr

mutual

/-- The elements of arrays in an expression, at any depth: names with indices behind them. -/
def elements : Expr → List (String × List Expr)
  | element _ n indices => if indices.isEmpty then [] else (n, indices) :: elementsAll indices
  | call _ _ arguments => elementsAll arguments
  | binary _ _ left right => left.elements ++ right.elements
  | unary _ _ operand => operand.elements
  | int .. | real .. | char .. | bool .. | string .. | name .. => []

def elementsAll : List Expr → List (String × List Expr)
  | [] => []
  | e :: es => e.elements ++ elementsAll es

end

/-- The element that a name with indices is, and those in the indices. -/
def elementsBehind (n : String) (indices : List Expr) : List (String × List Expr) :=
  if indices.isEmpty then [] else (n, indices) :: elementsAll indices

theorem elements_toExpr (p : Position) (v : Value) : (v.toExpr p).elements = [] := by
  cases v <;> rfl

mutual

theorem elements_fold : ∀ e : Expr, e.fold.1.elements = e.elements.map fun x => (x.1, foldAll x.2)
  | int .. | real .. | char .. | bool .. | string .. | name .. => rfl
  | element p n indices => by
    cases indices with
    | nil => rfl
    | cons e es => exact congrArg ((n, foldAll (e :: es)) :: ·) (elementsAll_foldAll (e :: es))
  | call p n arguments => elementsAll_foldAll arguments
  | binary p op l r => by
    have hl := elements_fold l
    have hr := elements_fold r
    rw [elements, map_append, ← hl, ← hr]
    rcases fold_binary_cases p op l r with ⟨a, b, v, ha, hb, _, heq⟩ | heq
    · rw [heq, ha, hb, elements_toExpr, elements_toExpr, elements_toExpr]
      rfl
    · rw [heq, elements]
  | unary p op e => by
    have he := elements_fold e
    rw [elements, ← he]
    rcases fold_unary_cases p op e with ⟨a, v, ha, _, heq⟩ | heq
    · rw [heq, ha, elements_toExpr, elements_toExpr]
    · rw [heq, elements]

theorem elementsAll_foldAll : ∀ es : List Expr,
    elementsAll (foldAll es) = (elementsAll es).map fun x => (x.1, foldAll x.2)
  | [] => rfl
  | e :: es => by
    rw [foldAll, elementsAll, elementsAll, map_append, elements_fold e,
      elementsAll_foldAll es]

end

end Expr

/-! ## Constants are scalars -/

namespace Analysis

/-- What is visible as a constant is a scalar. -/
def ConstsScalar (t : Table) (block : Nat) : Prop :=
  ∀ i, t.Visible block i → i.kind = .const → i.type.dims = []

section

variable {t : Table} {block : Nat}

theorem dims_of_isConstant (h : ConstsScalar t block) {e : Expr} {T : Ty}
    (hconst : isConstant t block e = true) (hT : Typing.typeOf t block e = pure T) :
    T.dims = [] := by
  cases e with
  | int | real | char | bool | string => rw [← Checked.pure_inj.mp hT]; rfl
  | name p n =>
    rw [isConstant] at hconst
    rw [Typing.typeOf] at hT
    cases hn : t.resolve block n with
    | error f => rw [hn] at hconst; cases hconst
    | ok item =>
      rw [hn] at hconst hT
      rw [← Checked.pure_inj.mp hT]
      exact h item (Table.resolve_visible hn) (beq_iff_eq.mp hconst)
  | unary p op x =>
    cases op with
    | not => cases hconst
    | plus | minus =>
      cases x with
      | int | real =>
        rw [← Checked.pure_inj.mp hT]
        rfl
      | char | bool | string | name | element | call | binary | unary => cases hconst
  | element | call | binary => cases hconst

theorem dims_of_mem_constItems {ds : List ConstDecl} (h : ConstsScalar t block)
    (htyped : ConstsTyped t block ds) : ∀ i ∈ constItems t block ds, i.type.dims = [] := by
  induction ds generalizing t with
  | nil => exact forall_mem_nil _
  | cons d ds ih =>
    obtain ⟨hd, htyped⟩ := htyped
    obtain ⟨hconst, htypeOf⟩ := constType_eq_pure hd
    have hdims : (constItem t block d).type.dims = [] := dims_of_isConstant h hconst htypeOf
    refine forall_mem_cons.mpr ⟨hdims, ih (fun i hv hk => ?_) htyped⟩
    rcases Table.visible_extend hv with hv | hi
    · exact h i hv hk
    · exact mem_singleton.mp hi ▸ hdims

end

section

variable {p : Program} {i : Item}

theorem dims_routineItem (h : Heading) : (routineItem h).type.dims = [] := by
  rw [routineItem]
  cases h.returns <;> rfl

theorem mem_varItems_of_root (checked : ProgramChecked p) (hi : i ∈ rootItems p)
    (hdims : i.type.dims ≠ []) : i ∈ p.body.vars.flatMap varItems := by
  have hnone : ConstsScalar (started p) 0 := by
    intro i hv
    cases visible_root rfl hv
  rcases mem_rootItems.mp hi with hi | hi | ⟨s, _, rfl⟩
  · exact (hdims (dims_of_mem_constItems hnone checked.consts i hi)).elim
  · exact hi
  · exact (hdims (dims_routineItem s.heading)).elim

theorem mem_varItems_of_subprogram (checked : ProgramChecked p) {before after : List Subprogram}
    {s : Subprogram} (hs : p.subprograms = before ++ s :: after)
    (hi : i ∈ subprogramItems 0 (tableAfter p before) s) (hdims : i.type.dims ≠ []) :
    i ∈ s.body.vars.flatMap varItems := by
  have hsubs : SubprogramsChecked 0 (rootTable p) (before ++ s :: after) :=
    hs ▸ checked.subprograms
  have hscalar : ConstsScalar (opened 0 (tableAfter p before) s.heading)
      (tableAfter p before).blocks.length := by
    intro i hv hk
    by_contra hdims
    have hvar := mem_varItems_of_root checked (C.mem_rootItems_of_opened hv hk) hdims
    rw [kind_of_mem_varItems hvar] at hk
    cases hk
  rcases mem_subprogramItems.mp hi with hi | hi | hi | hi
  · exact (hdims (C.dims_paramItems hi)).elim
  · obtain ⟨type, _, rfl⟩ := mem_map.mp hi
    exact (hdims rfl).elim
  · exact (hdims (dims_of_mem_constItems hscalar hsubs.split.consts i hi)).elim
  · exact hi

end

end Analysis

theorem Period.toInt_size {period : Period} {n : Int64} (h : period.size? = some n) :
    n.toInt = period.upper.toInt - period.lower.toInt + 1 := by
  obtain ⟨d, hd, hn⟩ := Option.bind_eq_some_iff.mp h
  rw [Integer.toInt_of_ofInt? hn, Integer.toInt_of_ofInt? hd]
  rfl

/-- The declarations of variables of a program and of its subprograms. -/
def Program.varDecls (p : Program) : List VarDecl :=
  p.body.vars ++ p.subprograms.flatMap fun s => s.body.vars

namespace C

/-! ## What is said of elements -/

namespace Expr

mutual

/-- The variables that an expression uses without subscripts, at any depth. -/
def wholes : Expr → List Var
  | int _ | real _ | char _ | string _ => []
  | var v => [v]
  | element _ subscripts => subscriptWholes subscripts
  | call _ arguments => argumentWholes arguments
  | binary _ left right => left.wholes ++ right.wholes
  | unary _ operand => operand.wholes
  | cast _ operand => operand.wholes

def subscriptWholes : List (Expr × Int64) → List Var
  | [] => []
  | (e, _) :: rest => e.wholes ++ subscriptWholes rest

def argumentWholes : List (Expr × Bool) → List Var
  | [] => []
  | (e, _) :: rest => e.wholes ++ argumentWholes rest

end

theorem subscriptWholes_eq (subscripts : List (Expr × Int64)) :
    subscriptWholes subscripts = (subscripts.map Prod.fst).flatMap wholes :=
  flatMap_fst rfl (fun _ _ => rfl) subscripts

theorem argumentWholes_eq (arguments : List (Expr × Bool)) :
    argumentWholes arguments = (arguments.map Prod.fst).flatMap wholes :=
  flatMap_fst rfl (fun _ _ => rfl) arguments

end Expr

def Operand.elements : Operand → List (String × List MiniPascal.Expr)
  | value e | input e => e.elements
  | target _ name indices => MiniPascal.Expr.elementsBehind name indices
  | counter _ _ => []
  | step _ _ arguments => MiniPascal.Expr.elementsAll arguments

def Form.elements (f : Form) : List (Var × List (Expr × Int64)) := f.exprs.flatMap Expr.elements

def Statement.returned : Statement → List Var
  | leave result => result.toList
  | _ => []

/-- The variables that statements use without subscripts, at any depth. -/
def Statement.wholes (ss : List Statement) : List Var :=
  (formsAll ss).flatMap (fun f => f.exprs.flatMap Expr.wholes) ++ (nestedAll ss).flatMap returned

/-- The subscript that stands for an index in one dimension: the index with the lower bound, or a
literal from which the lower bound is subtracted. -/
inductive Rebased (period : Period) : Expr → Expr × Int64 → Prop where
  | kept (index : Expr) : Rebased period index (index, period.lower)
  | literal {v o : Int64} (ahead : o.toInt = v.toInt - period.lower.toInt) :
      Rebased period (.int v) (.int o, 0)

/-- An index of the source in a dimension between bounds, with its subscript in C in a dimension of
a declared size. -/
structure DimensionKept (env : Env) (source : MiniPascal.Expr × Period)
    (target : (Expr × Int64) × Int64) : Prop where
  size : target.2.toInt = source.2.upper.toInt - source.2.lower.toInt + 1
  positive : 1 ≤ target.2.toInt
  rebased : ∃ index, lowerExpr env source.1 = .ok index ∧ Rebased source.2 index target.1
  offset : ∀ {σ τ}, σ.Typed env.table env.block → Corresponds env σ τ →
    Expr.evalOffset τ target.1 = (· - source.2.lower.toInt) <$>
      (do Run.index (← Run.eval env.table env.block σ source.1) : Run.Outcome Int)
  within : ∀ v : Int, 0 ≤ v - source.2.lower.toInt ∧ v - source.2.lower.toInt < target.2.toInt ↔
    source.2.lower.toInt ≤ v ∧ v ≤ source.2.upper.toInt

/-- An element in C of a declared array that is the element of the source: all dimensions have their
subscripts, and each of them is kept. -/
structure ElementAt (p : MiniPascal.Program) (env : Env) (scopes : List (List Declaration))
    (item : Item) (d : ArrayDecl) (source : String × List MiniPascal.Expr)
    (target : Var × List (Expr × Int64)) : Prop where
  found : env.table.findPlace? env.block source.1 = some item
  declared : ∃ v ∈ p.varDecls, source.1 ∈ v.names ∧ item.type.dims = v.periods
  means : target.1.Means scopes (.array d)
  complete : target.2.length = d.dims.length
  indices : source.2.length = d.dims.length
  bounds : item.type.dims.length = d.dims.length
  dimensions : Forall₂ (DimensionKept env) (source.2.zip item.type.dims) (target.2.zip d.dims)

/-- All elements of a program are elements of declared arrays in C, and arrays are used in no other
way. -/
structure AccessesKept (p : MiniPascal.Program) (folding : Bool) (q : Program) : Prop where
  elements : Forall₂ (fun a b => Forall₂ (fun o f => Forall₂ (fun x y =>
      ∃ item d, ElementAt p a.env [b.1, q.scope] item d x y) o.elements f.elements)
    a.operands (Statement.formsAll b.2)) (Part.ofProgram p folding) q.parts
  wholes : ∀ b ∈ q.parts, ∀ v ∈ Statement.wholes b.2,
    ∃ d, v.Means [b.1, q.scope] d ∧ ∀ x, d ≠ .array x
  stores : ∀ a ∈ Part.ofProgram p folding, ∀ σ, Corresponds a.env σ (a.env.storeOf σ)

/-! ## Elements of expressions -/

/-- An element in C that stands for one of an item: its subscripts are those of the indices. -/
structure ElementOf (env : Env) (item : Item) (source : String × List MiniPascal.Expr)
    (target : Var × List (Expr × Int64)) : Prop where
  found : env.table.findPlace? env.block source.1 = some item
  emits : Emits env (.place item) (.var target.1)
  array : item.type.dims ≠ []
  length : source.2.length = item.type.dims.length
  ints : ∀ e ∈ source.2, Typing.typeOf env.table env.block e = pure .int
  subscripts : ∃ cs, convertAll env source.2 = .ok cs ∧
    target.2 = cs.zipWith (subscript env.folding) item.type.dims

/-- Expressions in C whose elements stand for given ones, and that use else only scalars. -/
structure Accessed (env : Env) (sources : List (String × List MiniPascal.Expr))
    (cs : List Expr) : Prop where
  elements : Forall₂ (fun x y => ∃ item, ElementOf env item x y) sources
    (cs.flatMap Expr.elements)
  wholes : ∀ v ∈ cs.flatMap Expr.wholes, ∃ item, StandsFor env item (.var v)

section

variable {e : MiniPascal.Expr} {cs : List Expr} {c : Expr} {es : List MiniPascal.Expr}
  {p : Position}

variable {env : Env}

namespace Accessed

variable {xs ys : List (String × List MiniPascal.Expr)} {cs ds : List Expr} {c : Expr}

theorem nil : Accessed env [] [] := ⟨.nil, forall_mem_nil _⟩

theorem append (hc : Accessed env xs cs) (hd : Accessed env ys ds) :
    Accessed env (xs ++ ys) (cs ++ ds) where
  elements := by
    rw [flatMap_append]
    exact rel_append hc.elements hd.elements
  wholes := by
    rw [flatMap_append]
    exact forall_mem_append.mpr ⟨hc.wholes, hd.wholes⟩

theorem of_parts (h : Accessed env xs cs) (helements : c.elements = cs.flatMap Expr.elements)
    (hwholes : c.wholes = cs.flatMap Expr.wholes) : Accessed env xs [c] where
  elements := by
    rw [flatMap_singleton, helements]
    exact h.elements
  wholes := by
    rw [flatMap_singleton, hwholes]
    exact h.wholes

theorem all (h : Forall₂ (fun e c => Accessed env e.elements [c]) es cs) :
    Accessed env (MiniPascal.Expr.elementsAll es) cs := by
  induction h with
  | nil => exact nil
  | cons hc _ ih => exact hc.append ih

end Accessed

/-- A place behind as many integers as it has dimensions is a scalar or an element. -/
theorem place_accessed (own : env.OwnResults) {name : String} {item : Item}
    (hn : env.table.findPlace? env.block name = some item)
    (hlen : es.length = item.type.dims.length)
    (hints : ∀ e ∈ es, Typing.typeOf env.table env.block e = pure .int)
    (hes : ∀ cs, convertAll env es = .ok cs → Accessed env (MiniPascal.Expr.elementsAll es) cs)
    (h : place env p name es.length (convertAll env es) = .ok c) :
    Accessed env (MiniPascal.Expr.elementsBehind name es) [c] := by
  rw [place, hn] at h
  obtain ⟨v, hv, h⟩ := Except.bind_eq_ok.mp h
  have hemits := placeVar_emits own hn hv
  cases es with
  | nil =>
    cases h
    refine ⟨.nil, forall_mem_singleton.mpr ⟨item, .whole hemits ?_⟩⟩
    exact length_eq_zero_iff.mp hlen.symm
  | cons e es =>
    have hsome : (e :: es).length ≠ 0 := Nat.succ_ne_zero _
    rw [if_neg hsome, if_neg (Nat.not_lt.mpr (Nat.le_of_eq hlen))] at h
    obtain ⟨cs, hcs, h⟩ := Except.bind_eq_ok.mp h
    cases h
    have hcount : cs.length ≤ item.type.dims.length := by
      rw [length_convertAll hcs]
      exact Nat.le_of_eq hlen
    have harray : item.type.dims ≠ [] := fun hdims => by
      rw [hdims] at hlen
      cases hlen
    obtain ⟨hinner, hscalars⟩ := hes cs hcs
    constructor
    · rw [flatMap_singleton, Expr.elements, Expr.subscriptElements_eq,
        flatMap_subscripts (fun _ => rfl) _ hcount]
      exact .cons ⟨item, hn, hemits, harray, hlen, hints, cs, hcs, rfl⟩ hinner
    · rw [flatMap_singleton, Expr.wholes, Expr.subscriptWholes_eq,
        flatMap_subscripts (fun _ => rfl) _ hcount]
      exact hscalars

theorem convert_accessed (own : env.OwnResults) (lawful : env.Lawful)
    (he : WellTyped env.table env.block e) (valued : env.Valued e) (hc : convert env e = .ok c) :
    Accessed env e.elements [c] := by
  induction he generalizing c with
  | int | real | char | bool | string =>
    cases hc
    exact Accessed.nil.of_parts rfl rfl
  | @name p n item hn =>
    rw [convert, hn] at hc
    dsimp only at hc
    rcases Table.resolve_ok hn with ⟨hk, _⟩ | ⟨hk, hplace⟩
    · rw [if_pos hk] at hc
      obtain ⟨routine, _, hc⟩ := Except.bind_eq_ok.mp hc
      cases hc
      exact Accessed.nil.of_parts rfl rfl
    · rw [if_neg hk] at hc
      obtain ⟨T, hT, hp⟩ := valued
      rw [Typing.typeOf, hn] at hT
      rw [← Checked.pure_inj.mp hT] at hp
      have hlen : ([] : List MiniPascal.Expr).length = item.type.dims.length := by rw [hp.dims]; rfl
      refine place_accessed own hplace hlen (forall_mem_nil _) (fun cs hcs => ?_) hc
      cases hcs
      exact .nil
  | @element p n indices item hn hi ht hd te ih =>
    obtain ⟨T, hT, hp⟩ := valued
    cases te.symm.trans hT
    have hlen : indices.length = item.type.dims.length :=
      Nat.le_antisymm hd (drop_eq_nil_iff.mp hp.dims)
    refine place_accessed own hn hlen ht (fun cs hcs => .all ?_) hc
    exact forall₂_imp_of_mem (convertAll_eq_ok.mp hcs) fun e he c _ hec =>
      ih e he ⟨.int, ht e he, .int⟩ hec
  | @call p n arguments item hb ha ta hn te ih =>
    have hfound : env.table.findRoutine env.block n (env.arguments arguments) = .ok item := by
      rw [Env.arguments, value_argumentsOf, hn]
    have hvalued := valued_of_arguments lawful (fun e he => ⟨_, ta e he⟩) hfound
    rw [convert, Env.builtin?, hb, if_neg Bool.false_ne_true] at hc
    obtain ⟨⟨routine, passed⟩, hcall, hc⟩ := Except.bind_eq_ok.mp hc
    obtain ⟨cs, _, hcs, hcall⟩ := callOf_eq_ok rfl hcall
    cases hc
    refine Accessed.of_parts (.all ?_)
      (by rw [Expr.elements, Expr.argumentElements_eq, hcall.fst])
      (by rw [Expr.wholes, Expr.argumentWholes_eq, hcall.fst])
    exact forall₂_imp_of_mem (convertAll_eq_ok.mp hcs) fun e he c _ hec =>
      ih e he (hvalued e he) hec
  | @binary p op l r A B T' hl hr tl tr hop ihl ihr =>
    obtain ⟨hA, hB, _⟩ := MiniPascal.Ty.binary?_proper hop
    obtain ⟨x, hx, y, hy, hc⟩ := Except.bind₂_eq_ok.mp hc
    cases hc
    have hboth := (ihl ⟨_, tl, hA⟩ hx).append (ihr ⟨_, tr, hB⟩ hy)
    refine hboth.of_parts ?_ ?_
    · rw [Expr.elements]
      split <;> simp [Expr.elements]
    · rw [Expr.wholes]
      split <;> simp [Expr.wholes]
  | @unary p op x A T' hx tx hop ih =>
    rw [convert_unary] at hc
    obtain ⟨d, hd, hc⟩ := Except.bind_eq_ok.mp hc
    cases hc
    have hoperand := ih ⟨_, tx, (MiniPascal.Ty.unary?_proper hop).1⟩ hd
    cases op <;>
      exact hoperand.of_parts (flatMap_singleton _ _).symm (flatMap_singleton _ _).symm

/-- An element with its indices as they are when they are lowered. -/
def Env.preparedElement (env : Env) (x : String × List MiniPascal.Expr) :
    String × List MiniPascal.Expr := (x.1, x.2.map env.prepared)

theorem elements_prepared (e : MiniPascal.Expr) :
    (env.prepared e).elements = e.elements.map env.preparedElement := by
  cases hfolding : env.folding with
  | true =>
    have hprepared : env.prepared = fun e => e.fold.1 :=
      funext fun e => by rw [Env.prepared, hfolding, if_pos rfl]
    rw [hprepared, MiniPascal.Expr.elements_fold]
    refine map_congr_left fun x _ => ?_
    rw [Env.preparedElement, hprepared, MiniPascal.Expr.foldAll_eq_map]
  | false =>
    have hprepared : env.prepared = id :=
      funext fun e => by rw [Env.prepared, hfolding, if_neg Bool.false_ne_true, id]
    have hid : env.preparedElement = id := funext fun x => by
      rw [Env.preparedElement, hprepared, map_id, id]
    rw [hprepared, hid, map_id, id]

theorem elementsAll_prepared (es : List MiniPascal.Expr) :
    MiniPascal.Expr.elementsAll (es.map env.prepared) =
      (MiniPascal.Expr.elementsAll es).map env.preparedElement := by
  induction es with
  | nil => rfl
  | cons e es ih =>
    rw [map_cons, MiniPascal.Expr.elementsAll, MiniPascal.Expr.elementsAll, map_append,
      elements_prepared, ih]

theorem elementsBehind_prepared (name : String) (indices : List MiniPascal.Expr) :
    MiniPascal.Expr.elementsBehind name (indices.map env.prepared) =
      (MiniPascal.Expr.elementsBehind name indices).map env.preparedElement := by
  cases indices with
  | nil => rfl
  | cons e es => exact congrArg (_ :: ·) (elementsAll_prepared (e :: es))

theorem Env.Valued.accessed (own : env.OwnResults) (lawful : env.Lawful) (valued : env.Valued e)
    (lowered : lowerExpr env e = .ok c) : Accessed env (env.prepared e).elements [c] :=
  convert_accessed own lawful valued.prepared.wellTyped valued.prepared lowered

theorem target_accessed (ready : env.Ready) (own : env.OwnResults) (lawful : env.Lawful)
    {name : String} {indices : List MiniPascal.Expr} {T : MiniPascal.Ty}
    (typed : Check.targetType env.context p name indices = pure T) (proper : T.Proper)
    (lowered : target env p name indices = .ok c) :
    Accessed env (MiniPascal.Expr.elementsBehind name (indices.map env.prepared)) [c] := by
  cases targeted ready typed lowered with
  | result around _ returns var =>
    exact ⟨.nil, forall_mem_singleton.mpr ⟨_, .whole (.result around
      (mem_map_of_mem (Option.mem_toList.mpr returns)) var) rfl⟩⟩
  | @data item _ _ found kind sound length lowered =>
    have hplace := Table.findPlace?_of_findData? found
    have hlen : (indices.map env.prepared).length = item.type.dims.length := by
      rw [length_map]
      exact Nat.le_antisymm length (drop_eq_nil_iff.mp proper.dims)
    have hvalued := valued_of_indices sound
    rw [← length_map env.prepared] at lowered
    refine place_accessed own hplace hlen (fun e he => ?_) (fun cs hcs => .all ?_) lowered
    · obtain ⟨source, hs, rfl⟩ := mem_map.mp he
      exact (typeOf_prepared source).trans (wellTyped_of_indicesSound indices sound source hs).2
    · have hforms := forall₂_map_left_iff.mp (convertAll_eq_ok.mp hcs)
      rw [forall₂_map_left_iff]
      exact forall₂_imp_of_mem hforms fun e he c _ hc => (hvalued e he).accessed own lawful hc

theorem Formed.accessed (ready : env.Ready) (own : env.OwnResults) (lawful : env.Lawful)
    {o : Operand} {f : Form} (h : Formed env o f) :
    Accessed env (o.elements.map env.preparedElement) f.exprs := by
  cases h with
  | value valued lowered | input valued _ lowered =>
    rw [Operand.elements, ← elements_prepared]
    exact valued.accessed own lawful lowered
  | target typed proper lowered =>
    rw [Operand.elements, ← elementsBehind_prepared]
    exact target_accessed ready own lawful typed proper lowered
  | @counter p name item found kind type =>
    rw [← (Table.findData?_some found).2.1] at found
    refine ⟨.nil, forall_mem_singleton.mpr ⟨item, .whole (.data found) ?_⟩⟩
    rw [type]
    rfl
  | step valued lowered =>
    rw [Operand.elements, ← elementsAll_prepared]
    refine .all ?_
    rw [Form.exprs, forall₂_map_left_iff, forall₂_map_right_iff]
    exact forall₂_imp_of_mem (forms_of_step lowered) fun e he a _ hlowered =>
      (valued e he).accessed own lawful hlowered

/-! ## Dimensions -/

theorem rebased_subscript (folding : Bool) (index : Expr) (period : Period) :
    Rebased period index (subscript folding index period) := by
  rcases subscript_cases folding index period with h | ⟨v, o, rfl, ho, h⟩ <;> rw [h]
  · exact .kept index
  · exact .literal ho

theorem eval_prepared (σ : Run.Store) (e : MiniPascal.Expr) :
    Run.eval env.table env.block σ (env.prepared e) = Run.eval env.table env.block σ e := by
  unfold Env.prepared
  split
  · exact Run.eval_fold env.table env.block σ e
  · rfl

/-- An index in a dimension is kept where the declared size is that of the bounds. -/
theorem dimension_kept (named : env.Named) {index : Expr} (lowered : lowerExpr env e = .ok index)
    (hint : Typing.typeOf env.table env.block (env.prepared e) = pure .int) {period : Period}
    (ranged : period.Ranged) {n : Int64} (hsize : period.size? = some n) :
    DimensionKept env (e, period) (subscript env.folding index period, n) := by
  have hn := Period.toInt_size hsize
  have hordered := Int64.le_iff_toInt_le.mp ranged.ordered
  refine ⟨hn, ?_, ⟨index, lowered, rebased_subscript _ _ _⟩, fun typed corresponds => ?_, ?_⟩
  · dsimp only
    omega
  · have hw := wellTyped_of_proper hint .int
    obtain ⟨c, hc, preserved⟩ := convert_preserved named typed corresponds hw
    cases hc.symm.trans lowered
    have hindex : IndexPreserved env _ _ (env.prepared e) index :=
      ⟨preserved.value hint .int, fun d hd => Run.eval_base typed hw hint .int hd⟩
    rw [evalOffset_map hindex, eval_prepared]
  · intro v
    dsimp only
    omega

abbrev Sizes : List Period → List Int64 → Prop := Forall₂ fun period n => period.size? = some n

theorem dimensions_kept (named : env.Named)
    (lowered : Forall₂ (fun e c => lowerExpr env e = .ok c) es cs)
    (hints : ∀ e ∈ es, Typing.typeOf env.table env.block (env.prepared e) = pure .int)
    (ranged : ∀ period ∈ dims, period.Ranged) {ns : List Int64} (hsizes : Sizes dims ns) :
    Forall₂ (DimensionKept env) (es.zip dims)
      ((cs.zipWith (subscript env.folding) dims).zip ns) := by
  induction lowered generalizing dims ns with
  | nil => exact .nil
  | cons hc _ ih =>
    obtain ⟨hint, hints⟩ := forall_mem_cons.mp hints
    cases hsizes with
    | nil => exact .nil
    | cons hsize hsizes =>
      obtain ⟨hperiod, ranged⟩ := forall_mem_cons.mp ranged
      exact .cons (dimension_kept named hc hint hperiod hsize) (ih hints ranged hsizes)

end

/-! ## Declared arrays -/

/-- Every array of a scope has the sizes of bounds with which its name is declared. -/
def Sized (vars : List VarDecl) (scope : List Declaration) : Prop :=
  ∀ d, Declaration.array d ∈ scope → ∃ v ∈ vars, d.name ∈ v.names ∧ Sizes v.periods d.dims

section

variable {vars : List VarDecl}

theorem sizes_eq_ok {p : Position} {periods : List Period} {ns : List Int64}
    (h : sizes p periods = .ok ns) : Sizes periods ns := by
  induction periods generalizing ns with
  | nil =>
    cases h
    exact .nil
  | cons period rest ih =>
    rw [sizes] at h
    cases hn : period.size? with
    | none =>
      rw [hn] at h
      cases h
    | some n =>
      rw [hn] at h
      obtain ⟨ns, hns, h⟩ := Except.bind_eq_ok.mp h
      cases h
      exact .cons hn (ih hns)

theorem sized_arrays {as : List ArrayDecl} (h : arrays vars = .ok as) {d : ArrayDecl}
    (hd : d ∈ as) : ∃ v ∈ vars, d.name ∈ v.names ∧ Sizes v.periods d.dims := by
  induction vars generalizing as with
  | nil =>
    cases h
    cases hd
  | cons v vars ih =>
    rw [arrays] at h
    split at h
    · obtain ⟨w, hw, hsizes⟩ := ih h hd
      exact ⟨w, mem_cons_of_mem _ hw, hsizes⟩
    · obtain ⟨dims, hdims, rest, hrest, h⟩ := Except.bind₂_eq_ok.mp h
      cases h
      rcases mem_append.mp hd with hd | hd
      · obtain ⟨n, hn, rfl⟩ := mem_map.mp hd
        exact ⟨v, mem_cons_self, hn, sizes_eq_ok hdims⟩
      · obtain ⟨w, hw, hsizes⟩ := ih hrest hd
        exact ⟨w, mem_cons_of_mem _ hw, hsizes⟩

theorem Sized.of_subset {scope scope' : List Declaration} (h : Sized vars scope)
    (hsubset : ∀ d, Declaration.array d ∈ scope' → Declaration.array d ∈ scope) :
    Sized vars scope' := fun d hd => h d (hsubset d hd)

theorem sized_scope {ds : Declarations} (h : arrays vars = .ok ds.arrays) : Sized vars ds.scope :=
  fun d hd => sized_arrays h (by simpa [Declarations.scope] using hd)

theorem sized_routine {r : Routine} (h : arrays vars = .ok r.body.declarations.arrays) :
    Sized vars r.scope :=
  (sized_scope h).of_subset fun d hd => by simpa [Routine.scope] using hd

theorem Sized.dims_eq {scope : List Declaration} (h : Sized vars scope)
    (hnodup : (vars.flatMap VarDecl.names).Nodup) {item : Item} (hi : item ∈ vars.flatMap varItems)
    {d : ArrayDecl} (hd : .array d ∈ scope) (hname : d.name = item.name) :
    Sizes item.type.dims d.dims := by
  obtain ⟨v, hv, hi⟩ := mem_flatMap.mp hi
  obtain ⟨n, hn, rfl⟩ := mem_map.mp hi
  obtain ⟨w, hw, hmem, hsizes⟩ := h d hd
  have heq : v = w := by
    by_contra hne
    have hsymm : Std.Symm (Function.onFun List.Disjoint VarDecl.names) :=
      ⟨fun _ _ h _ hb ha => h ha hb⟩
    have hname : d.name = n := hname
    exact (nodup_flatMap.mp hnodup).2.forall hv hw hne hn (hname ▸ hmem)
  exact heq ▸ hsizes

end

section

variable {p : MiniPascal.Program} {folding : Bool} {q : Program}

theorem Assembled.sized (h : Assembled p folding q) :
    Sized p.body.vars q.main.declarations.scope ∧ Sized p.body.vars q.scope := by
  obtain ⟨known, hdeclarations, _⟩ := h.lowered
  have houtside := sized_scope (lowerDeclarations_arrays hdeclarations)
  have hempty : Sized p.body.vars ({} : Declarations).scope := fun d hd => by cases hd
  have hfile : Sized p.body.vars q.globals.scope → Sized p.body.vars q.scope :=
    fun hglobals => hglobals.of_subset fun d hd => by simpa [Program.scope] using hd
  rw [Program.outside] at houtside
  by_cases hne : q.routines = []
  · rw [if_pos (List.isEmpty_iff.mpr hne)] at houtside
    exact ⟨houtside, hfile (h.globals hne ▸ hempty)⟩
  · rw [if_neg fun he => hne (List.isEmpty_iff.mp he)] at houtside
    exact ⟨h.locals hne ▸ hempty, hfile houtside⟩

theorem means_array {v : Var} {inner outer : List Declaration} {d : ArrayDecl}
    (h : v.Means [inner, outer] (.array d)) (hdata : v.isResult = false) :
    d.name = v.name ∧ (.array d ∈ inner ∨
      .array d ∈ outer ∧ v.name ∉ inner.filterMap Declaration.dataName?) := by
  have hfound : ∀ {scope : List Declaration},
      scope.filter (Declaration.answers v) = [.array d] → .array d ∈ scope ∧ d.name = v.name := by
    intro scope honly
    have hmem : .array d ∈ scope.filter (Declaration.answers v) := honly ▸ mem_singleton_self _
    obtain ⟨hmem, hanswers⟩ := mem_filter.mp hmem
    rw [Declaration.answers, hdata] at hanswers
    exact ⟨hmem, Option.some.inj (beq_iff_eq.mp hanswers)⟩
  obtain ⟨_, h⟩ := h
  cases h with
  | here only =>
    obtain ⟨hmem, hname⟩ := hfound only
    exact ⟨hname, .inl hmem⟩
  | outside none means =>
    cases means with
    | here only =>
      obtain ⟨hmem, hname⟩ := hfound only
      refine ⟨hname, .inr ⟨hmem, fun hinner => ?_⟩⟩
      obtain ⟨e, he, hname⟩ := mem_filterMap.mp hinner
      refine filter_eq_nil_iff.mp none e he ?_
      rw [Declaration.answers, hdata]
      exact beq_iff_eq.mpr hname
    | outside _ means => cases means

/-- The array that a variable with dimensions means has their sizes. -/
def DimsKept (q : Program) (a : Part) (b : List Declaration × List Statement) : Prop :=
  ∀ {item v d}, Emits a.env (.place item) (.var v) → item.type.dims ≠ [] →
    v.Means [b.1, q.scope] (.array d) → Sizes item.type.dims d.dims

theorem vars_nodup {b : Body} (h : b.dataNames.Nodup) : (b.vars.flatMap VarDecl.names).Nodup :=
  (nodup_append'.mp h).2.1

section

variable (accepted : Accepted p) (h : Assembled p folding q) (hnodup : p.body.dataNames.Nodup)
include accepted h hnodup

theorem Assembled.dims_main : DimsKept q ⟨Env.ofProgram p folding, [], p.body.statements⟩
    (q.main.declarations.scope, q.main.statements) := by
  intro item v d hemits hdims hmeans
  cases hemits with
  | data found =>
    have hi := mem_varItems_of_root accepted.checked
      (visible_root (finished_root p) (Table.findData?_some found).2.2) hdims
    obtain ⟨hname, hd | ⟨hd, _⟩⟩ := means_array hmeans rfl
    · exact h.sized.1.dims_eq (vars_nodup hnodup) hi hd hname
    · exact h.sized.2.dims_eq (vars_nodup hnodup) hi hd hname
  | result around => cases around

theorem Assembled.dims_routine {before after : List Subprogram} {s : Subprogram} {r : Routine}
    (hs : p.subprograms = before ++ s :: after)
    (hof : RoutineOf (Env.inside p folding before s) s r)
    (harrays : arrays s.body.vars = .ok r.body.declarations.arrays) :
    DimsKept q ⟨Env.inside p folding before s, s.dataNames, s.body.statements⟩
      (r.scope, r.body.statements) := by
  intro item v d hemits hdims hmeans
  cases hemits with
  | @data item found =>
    obtain ⟨hname, hd⟩ := means_array hmeans rfl
    have hunique := dataNames_nodup_subprogram accepted hs
    -- A name is declared in the routine exactly if the subprogram declares it.
    rw [hof.data_perm.mem_iff] at hd
    rcases findData?_inside hs found with ⟨hi, hown⟩ | ⟨hi, _, hown⟩
    · rcases hd with hd | ⟨_, hnot⟩
      · exact (sized_routine harrays).dims_eq (vars_nodup (nodup_append'.mp hunique).2.1)
          (mem_varItems_of_subprogram accepted.checked hs hi hdims) hd hname
      · exact (hnot hown).elim
    · rcases hd with hd | ⟨hd, _⟩
      · refine (hown ?_).elim
        rw [← hof.data_perm.mem_iff]
        exact mem_filterMap.mpr ⟨_, hd, congrArg some hname⟩
      · exact h.sized.2.dims_eq (vars_nodup hnodup)
          (mem_varItems_of_root accepted.checked hi hdims) hd hname
  | result around own =>
    obtain ⟨type, _, rfl⟩ := mem_map.mp own
    exact (hdims rfl).elim

theorem Assembled.parts_sized : Forall₂ (fun a b => PartOf p folding q a b ∧ DimsKept q a b)
    (Part.ofProgram p folding) q.parts := by
  refine .cons ⟨.main h.statements, h.dims_main accepted hnodup⟩ ?_
  obtain ⟨known, _, hlowered⟩ := h.lowered
  have hfrom := lowerSubprograms_from hlowered
  rw [forall₂_map_left_iff, forall₂_map_right_iff]
  refine forall₂_iff_zip.mpr ⟨h.routines.length_eq, fun {s r} hzip => ?_⟩
  obtain ⟨before, after, hs, hof⟩ := (forall₂_iff_zip.mp h.routines).2 hzip
  have harrays := ((forall₂_iff_zip.mp hfrom).2 hzip).arrays
  rw [envOf_eq accepted hs]
  exact ⟨.routine hs hof, h.dims_routine accepted hnodup hs hof harrays⟩

end

theorem ranged_varDecls (accepted : Accepted p) :
    ∀ v ∈ p.varDecls, ∀ period ∈ v.periods, period.Ranged := by
  refine forall_mem_append.mpr ⟨accepted.ranged.1.arrays, fun v hv => ?_⟩
  obtain ⟨s, hs, hv⟩ := mem_flatMap.mp hv
  exact (accepted.ranged.2 s hs).arrays v hv

variable {item : Item}

theorem declared_of_varItems {vars : List VarDecl} (hvars : ∀ v ∈ vars, v ∈ p.varDecls)
    (hi : item ∈ vars.flatMap varItems) :
    item.kind = .var ∧ ∃ v ∈ p.varDecls, item.name ∈ v.names ∧ item.type.dims = v.periods := by
  obtain ⟨v, hv, hi⟩ := mem_flatMap.mp hi
  obtain ⟨n, hn, rfl⟩ := mem_map.mp hi
  exact ⟨rfl, v, hvars v hv, hn, rfl⟩

variable {b : List Declaration × List Statement} {a : Part}

theorem PartOf.declared (accepted : Accepted p) (h : PartOf p folding q a b)
    (hv : a.env.table.Visible a.env.block item) (hdims : item.type.dims ≠ []) :
    item.kind = .var ∧ ∃ v ∈ p.varDecls, item.name ∈ v.names ∧ item.type.dims = v.periods := by
  have hroot : item ∈ rootItems p → _ := fun hi =>
    declared_of_varItems (fun _ => mem_append_left _)
      (mem_varItems_of_root accepted.checked hi hdims)
  cases h with
  | main _ => exact hroot (visible_root (finished_root p) hv)
  | @routine before after s r split of =>
    have hs : s ∈ p.subprograms := split ▸ mem_append_right _ mem_cons_self
    rcases visible_subprogram (finished_root p) (getElem?_finished split) hv with hi | hi
    · exact declared_of_varItems
        (fun v hv => mem_append_right _ (mem_flatMap.mpr ⟨s, hs, hv⟩))
        (mem_varItems_of_subprogram accepted.checked split hi hdims)
    · exact hroot hi

theorem PartOf.returned (h : PartOf p folding q a b) {v : Var}
    (hv : v ∈ (Statement.nestedAll b.2).flatMap Statement.returned) :
    ∃ item, StandsFor a.env item (.var v) := by
  obtain ⟨x, hx, hv⟩ := mem_flatMap.mp hv
  have hleaves : a.env.Leaves x := by
    cases h with
    | main lowered => exact (lowerStatements_own lowered).2 x hx
    | routine _ of => exact (lowerStatements_own of.statements).2 x hx
  cases x with
  | leave result =>
    obtain rfl := Option.mem_toList.mp hv
    obtain ⟨f, hf, hresult⟩ := hleaves
    obtain ⟨item, hitem, _⟩ := resultMentions_eq hf
    refine ⟨item, .whole (.result hf hitem hresult) ?_⟩
    obtain ⟨type, _, rfl⟩ := mem_map.mp hitem
    rfl
  | assign | call | compound | branch | count | loop | print | scan | exit => cases hv

theorem PartOf.faithful (accepted : Accepted p) (assembled : Assembled p folding q)
    (h : PartOf p folding q a b) : a.env.Faithful where
  toNamed := (h.ready accepted).toNamed
  distinct := by
    intro x y hx hy kx ky heq
    obtain ⟨s, hs, rfl⟩ := h.routine_eq hx kx
    obtain ⟨s', hs', rfl⟩ := h.routine_eq hy ky
    obtain ⟨r, hr, _, hname, _⟩ := assembled.routine_of accepted hs
    obtain ⟨r', hr', _, hname', _⟩ := assembled.routine_of accepted hs'
    have hsame : r.name = r'.name := by
      rw [h.names_eq] at heq
      exact Option.some.inj (hname.symm.trans (heq.trans hname'))
    have hnodup : ((p.subprograms.zip q.routines).map fun x => x.2.name).Nodup := by
      have hzip := map_snd_zip (Nat.le_of_eq assembled.routines.length_eq.symm)
      have hnames := (assembled.named accepted).2.1
      rw [← hzip, map_map] at hnames
      exact hnames
    cases inj_on_of_nodup_map hnodup hr hr' hsame
    rfl
  resultOf := by
    intro item f hv hk hf
    obtain ⟨f', hf', hitem⟩ := h.ownResults item hv hk
    cases hf.symm.trans hf'
    obtain ⟨type, _, rfl⟩ := mem_map.mp hitem
    rfl

/-- An element in C of an item is one of the array that is declared for it. -/
theorem PartOf.elementAt (accepted : Accepted p) (assembled : Assembled p folding q)
    (hnodup : p.body.dataNames.Nodup) (h : PartOf p folding q a b) (hsizes : DimsKept q a b)
    {x : String × List MiniPascal.Expr} {y : Var × List (Expr × Int64)}
    (of : ElementOf a.env item (a.env.preparedElement x) y) :
    ∃ d, ElementAt p a.env [b.1, q.scope] item d x y := by
  have hv := Table.findPlace?_visible of.found
  obtain ⟨hkind, v, hvars, hname, hperiods⟩ := h.declared accepted hv of.array
  have hranged : ∀ period ∈ item.type.dims, period.Ranged :=
    hperiods ▸ ranged_varDecls accepted v hvars
  obtain ⟨d, hmeans, hholds⟩ := assembled.means accepted hnodup h of.emits
  cases d with
  | constant => cases hkind.symm.trans hholds
  | scalar | param | result => exact (of.array hholds).elim
  | routine | main => cases hholds
  | array d =>
    have hdims := hsizes of.emits of.array hmeans
    obtain ⟨cs, hcs, hsubscripts⟩ := of.subscripts
    have hlowered := forall₂_map_left_iff.mp (convertAll_eq_ok.mp hcs)
    have hlength : x.2.length = item.type.dims.length :=
      (length_map a.env.prepared).symm.trans of.length
    refine ⟨d, of.found, ⟨v, hvars, ?_, hperiods⟩, hmeans, ?_, hlength.trans hdims.length_eq,
      hdims.length_eq, ?_⟩
    · exact Table.findPlace?_name of.found ▸ hname
    · rw [hsubscripts, length_zipWith, ← hlowered.length_eq, hlength, Nat.min_self,
        hdims.length_eq]
    · rw [hsubscripts]
      refine dimensions_kept (h.ready accepted).toNamed hlowered (fun e he => ?_) hranged hdims
      exact of.ints _ (mem_map_of_mem he)

theorem PartOf.wholes (accepted : Accepted p) {a : Part} {b : List Declaration × List Statement}
    (h : PartOf p folding q a b) :
    ∀ v ∈ Statement.wholes b.2, ∃ item, StandsFor a.env item (.var v) := by
  intro v hv
  rcases mem_append.mp hv with hv | hv
  · obtain ⟨f, hf, hv⟩ := mem_flatMap.mp hv
    obtain ⟨o, _, hformed⟩ := exists_left_of_mem (h.formed accepted) hf
    exact (hformed.accessed (h.ready accepted) h.ownResults h.lawful).wholes v hv
  · exact h.returned hv

end

/-- In a lowered source every element is one of a declared array, with a subscript for each of its
dimensions whose offset is within the size exactly when the index is within the bounds, and arrays
are used only for their elements. -/
theorem accesses_kept {source : String} {p : MiniPascal.Program}
    (hparse : parse (scan source) = .ok (p, [])) (hclean : (analyze p).isClean = true)
    {level : Nat} {q : Program} (hlower : lower p (analyze p).table (foldsAt level) = .ok q) :
    AccessesKept p (foldsAt level) q := by
  have hnodup := dataNames_nodup (List.isEmpty_iff.mp hclean)
  obtain ⟨accepted, assembled⟩ := assembled_of_source hparse hclean hlower
  refine ⟨?_, ?_, ?_⟩
  · refine (assembled.parts_sized accepted hnodup).imp fun a b ⟨hpart, hsizes⟩ => ?_
    refine (hpart.formed accepted).imp fun o f hformed => ?_
    have haccessed := hformed.accessed (hpart.ready accepted) hpart.ownResults hpart.lawful
    refine (List.forall₂_map_left_iff.mp haccessed.elements).imp fun x y ⟨item, hof⟩ => ?_
    exact ⟨item, hpart.elementAt accepted assembled hnodup hsizes hof⟩
  · intro b hb v hv
    obtain ⟨a, _, hpart⟩ := exists_left_of_mem (assembled.parts accepted) hb
    obtain ⟨item, hstands⟩ := hpart.wholes accepted v hv
    cases hstands with
    | whole emits scalar =>
      obtain ⟨d, hmeans, hholds⟩ := assembled.means accepted hnodup hpart emits
      refine ⟨d, hmeans, ?_⟩
      rintro x rfl
      exact hholds scalar
  · intro a ha σ
    obtain ⟨b, _, hpart⟩ := exists_left_of_mem (assembled.parts accepted).flip ha
    exact corresponds_storeOf (hpart.faithful accepted assembled) σ

/-- Two dimensions from below zero and of one element, bounds at the end of the words, elements in
indices and in arguments, and literals from which a bound can and cannot be subtracted. -/
def rebasing : String := "program p; const n = 2; var a: array[-2..3, 5..5] of integer; i: integer;
  c: array[-9223372036854775807..-9223372036854775806] of real;
  function f(n: integer): integer; var b: array[0..4] of integer;
    begin b[n] := a[n - 2, 5]; f := b[b[0] + 1]; c[1] := n; exit end;
  begin a[-n + 1, 5] := f(a[i, f(5)]); read(a[f(a[3, 5]), 5], c[-9223372036854775806]) end."

set_option maxRecDepth 2000 in
theorem rebasing_accesses_kept : ∃ (p : MiniPascal.Program) (q : Program),
    parse (scan rebasing) = .ok (p, []) ∧ (analyze p).isClean = true ∧
      lower p (analyze p).table (foldsAt 1) = .ok q ∧
      q.parts.map (fun b => ((Statement.formsAll b.2).flatMap Form.elements).map fun x =>
          (x.1.name, x.2.map fun s => (s.1.text, s.2))) =
        [[("a", [("((-n) + 1)", -2), ("0", 0)]), ("a", [("i", -2), ("f(5)", 5)]),
            ("a", [("f(a[5][0])", -2), ("0", 0)]), ("a", [("5", 0), ("0", 0)]), ("c", [("1", 0)])],
          [("b", [("n", 0)]), ("a", [("(n - 2)", -2), ("0", 0)]), ("b", [("(b[0] + 1)", 0)]),
            ("b", [("0", 0)]), ("c", [("1", -9223372036854775807)])]] ∧
      AccessesKept p (foldsAt 1) q :=
  exists_lowered_and rfl (by decide +kernel) fun hp hclean hlower => accesses_kept hp hclean hlower

end C

end MiniPascal
