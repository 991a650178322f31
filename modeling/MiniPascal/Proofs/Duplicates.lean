import Mathlib.Data.List.Forall2
import MiniPascal.Grammar.Program
import MiniPascal.Proofs.Modularity
import MiniPascal.Token.Scan

/-!
# Repeated declarations

A declaration that has the name and the parameters of an earlier one of its block is reported at its
place and left out.
-/

namespace MiniPascal

open List Scope

def SemanticError.isDuplicate (e : SemanticError) : Bool :=
  match e.problem with
  | .duplicate _ => true
  | _ => false

/-! ## Checks report nothing of the kind -/

/-- No message is about a repeated declaration. -/
def Checked.Fresh {α : Type} (x : Checked α) : Prop :=
  x.errors.filter SemanticError.isDuplicate = []

theorem Checked.Fresh.bind {α β : Type} {x : Checked α} {f : α → Checked β} (hx : x.Fresh)
    (hf : ∀ a, (f a).Fresh) : (x >>= f).Fresh := by
  change (x.errors ++ (f x.value).errors).filter SemanticError.isDuplicate = []
  rw [filter_append, hx, hf x.value, append_nil]

theorem fresh_ofLookup (name : String) (args : List Argument) (e : LookupError) (p : Position) :
    (Checked.complain (.ofLookup name args e) p).Fresh := by
  cases e <;> rfl

namespace Typing

variable {t : Table} {block : Nat}

theorem fresh_binary (op : BinaryOp) (a b : Ty) (p : Position) : (binary op a b p).Fresh := by
  unfold binary
  split
  · rfl
  · split <;> rfl

theorem fresh_unary (op : UnaryOp) (a : Ty) (p : Position) : (unary op a p).Fresh := by
  unfold unary
  split
  · rfl
  · split <;> rfl

theorem fresh_index (a : Ty) (p : Position) : (index a p).Fresh := by
  unfold index
  split
  · rfl
  · split <;> rfl

theorem fresh_element (a : Ty) (name : String) (count : Nat) (sound : Bool) (p : Position) :
    (element a name count sound p).Fresh := by
  unfold element
  split <;> rfl

theorem fresh_notPlace (name : String) (p : Position) : (notPlace t block name p).Fresh := by
  unfold notPlace
  split <;> rfl

mutual

theorem fresh_typeOf : ∀ e : Expr, (typeOf t block e).Fresh
  | .int .. | .real .. | .char .. | .bool .. | .string .. => rfl
  | .name p n => by
    rw [typeOf]
    split
    · rfl
    · exact (fresh_ofLookup n [] _ p).bind fun _ => rfl
  | .element p n indices => by
    rw [typeOf]
    split
    · exact (fresh_indicesSound indices).bind fun sound => fresh_element _ n _ sound p
    · exact fresh_notPlace n p
  | .call p n arguments => by
    rw [typeOf]
    refine (fresh_argumentsOf arguments).bind fun args => ?_
    split
    · rfl
    · split
      · rfl
      · split
        · rfl
        · exact (fresh_ofLookup n args _ p).bind fun _ => rfl
  | .binary p op l r => by
    rw [typeOf]
    exact (fresh_typeOf l).bind fun a => (fresh_typeOf r).bind fun b => fresh_binary op a b p
  | .unary p op e => by
    rw [typeOf]
    exact (fresh_typeOf e).bind fun a => fresh_unary op a p

theorem fresh_indicesSound : ∀ es : List Expr, (indicesSound t block es).Fresh
  | [] => rfl
  | e :: es => by
    rw [indicesSound]
    exact (fresh_typeOf e).bind fun a => (fresh_index a e.position).bind fun _ =>
      (fresh_indicesSound es).bind fun _ => rfl

theorem fresh_argumentsOf : ∀ es : List Expr, (argumentsOf t block es).Fresh
  | [] => rfl
  | e :: es => by
    rw [argumentsOf]
    exact (fresh_typeOf e).bind fun _ => (fresh_argumentsOf es).bind fun _ => rfl

end

end Typing

namespace Check

open Typing

variable (c : Context)

theorem fresh_targetType (p : Position) (name : String) (indices : List Expr) :
    (targetType c p name indices).Fresh := by
  unfold targetType
  split
  · rfl
  · split
    · split
      · rfl
      · exact (fresh_indicesSound _).bind fun sound => fresh_element _ name _ sound p
    · exact fresh_notPlace name p

theorem fresh_assignment (p : Position) (name : String) (indices : List Expr) (value : Expr) :
    (assignment c p name indices value).Fresh := by
  refine (fresh_targetType c p name indices).bind fun _ => (fresh_typeOf value).bind fun _ => ?_
  split
  · rfl
  · split
    · rfl
    · split <;> rfl

theorem fresh_written (type : Ty) (e : Expr) : (written type e).Fresh := by
  unfold written
  split <;> rfl

theorem fresh_read (b : Builtin) (type : Ty) (e : Expr) : (read c b type e).Fresh := by
  unfold read
  split
  · rfl
  · split
    · rfl
    · split <;> rfl

theorem fresh_builtinArguments (b : Builtin) (es : List Expr) :
    (builtinArguments c b es).Fresh := by
  induction es with
  | nil => rfl
  | cons e es ih =>
    refine (fresh_typeOf e).bind fun type => ?_
    dsimp only
    split
    · exact (fresh_written type e).bind fun _ => ih
    · exact (fresh_read c b type e).bind fun _ => ih

theorem fresh_call (p : Position) (name : String) (arguments : List Expr) :
    (call c p name arguments).Fresh := by
  unfold call
  split
  · exact fresh_builtinArguments c _ arguments
  · refine (fresh_argumentsOf arguments).bind fun args => ?_
    split
    · rfl
    · split
      · rfl
      · exact fresh_ofLookup name args _ p

theorem fresh_condition (kw : Keyword) (e : Expr) : (condition c kw e).Fresh := by
  refine (fresh_typeOf e).bind fun _ => ?_
  split <;> rfl

theorem fresh_bound (e : Expr) : (bound c e).Fresh := by
  refine (fresh_typeOf e).bind fun _ => ?_
  split <;> rfl

theorem fresh_counter (p : Position) (name : String) : (counter c p name).Fresh := by
  unfold counter
  split
  · split <;> rfl
  · rfl

mutual

theorem fresh_statement : ∀ s : Statement, (statement c s).Fresh
  | .assign p name indices value => fresh_assignment c p name indices value
  | .call p name arguments => fresh_call c p name arguments
  | .compound _ parts => fresh_statements parts
  | .branch _ e onTrue (some onFalse) =>
    (fresh_condition c _ e).bind fun _ => (fresh_statement onTrue).bind fun _ =>
      fresh_statement onFalse
  | .branch _ e onTrue none =>
    (fresh_condition c _ e).bind fun _ => (fresh_statement onTrue).bind fun _ => rfl
  | .count p name first last _ body =>
    (fresh_counter c p name).bind fun _ => (fresh_bound c first).bind fun _ =>
      (fresh_bound c last).bind fun _ => fresh_statement body
  | .loop _ e body => (fresh_condition c _ e).bind fun _ => fresh_statement body
  | .exit _ => rfl

theorem fresh_statements : ∀ ss : List Statement, (statements c ss).Fresh
  | [] => rfl
  | s :: ss => (fresh_statement s).bind fun _ => fresh_statements ss

end

end Check

/-! ## Declarations -/

/-- A name that a program declares. -/
inductive Decl where
  | const (d : ConstDecl)
  | var (d : VarDecl) (name : String)
  | param (g : ParamGroup) (name : String)
  /-- The place for what a function returns. -/
  | result (h : Heading) (type : ScalarType)
  | routine (h : Heading)

namespace Decl

def name : Decl → String
  | const d => d.name
  | var _ name | param _ name => name
  | result h _ | routine h => h.name

def position : Decl → Position
  | const d => d.position
  | var d _ => d.position
  | param g _ => g.position
  | result h _ | routine h => h.position

/-- The types of the parameters, and whether they are passed by reference. Only routines have any,
one for each name in the groups of the head. -/
def signature : Decl → List (ScalarType × Bool)
  | routine h => h.groups.flatMap fun g => g.names.map fun _ => (g.type, g.byReference)
  | _ => []

/-- The two cannot both be declared in a block. -/
def clashes (d e : Decl) : Bool := d.name == e.name && d.signature == e.signature

def duplicate (d : Decl) : SemanticError := ⟨.duplicate d.name, d.position⟩

def kind : Decl → Scope.Item.Kind
  | const _ => .const
  | var .. | param .. => .var
  | result .. => .result
  | routine _ => .routine

/-- The type that is declared. A constant has that of its value. -/
def type? : Decl → Option Ty
  | const _ => none
  | var d _ => some ⟨.ofScalar d.type, d.periods⟩
  | param g _ => some (.ofScalar g.type)
  | result _ type => some (.ofScalar type)
  | routine h => some ((h.returns.map Ty.ofScalar).getD .void)

def isReference : Decl → Bool
  | param g _ => g.byReference
  | _ => false

/-- The declarations that do, or do not, clash with an earlier one. -/
def repeating (again : Bool) (earlier : List Decl) : List Decl → List Decl
  | [] => []
  | d :: ds =>
    (if earlier.any d.clashes = again then [d] else []) ++ repeating again (earlier ++ [d]) ds

end Decl

def VarDecl.decls (d : VarDecl) : List Decl := d.names.map (.var d)

def ParamGroup.decls (g : ParamGroup) : List Decl := g.names.map (.param g)

/-- The declarations of a subprogram, in the order in which they fill its block. -/
def Subprogram.decls (s : Subprogram) : List Decl :=
  s.heading.groups.flatMap ParamGroup.decls ++ s.heading.returns.toList.map (.result s.heading) ++
    s.body.consts.map .const ++ s.body.vars.flatMap VarDecl.decls

/-- The declarations of each block, the outermost first. -/
def Program.decls (p : Program) : List (List Decl) :=
  (p.body.consts.map .const ++ p.body.vars.flatMap VarDecl.decls ++
    p.subprograms.map fun s => .routine s.heading) :: p.subprograms.map Subprogram.decls

/-- The table has the item for the declaration. -/
structure Scope.Item.Records (i : Item) (d : Decl) : Prop where
  name : i.name = d.name
  params : i.params = d.signature.map fun s => ⟨.ofScalar s.1, s.2⟩
  position : i.position = d.position
  kind : i.kind = d.kind
  type : ∀ t ∈ d.type?, i.type = t
  byReference : i.byReference = d.isReference

namespace Decl

variable {d e : Decl} {ds : List Decl}

theorem repeating_append (again : Bool) (earlier ds ds' : List Decl) :
    repeating again earlier (ds ++ ds') =
      repeating again earlier ds ++ repeating again (earlier ++ ds) ds' := by
  induction ds generalizing earlier with
  | nil => simp [repeating]
  | cons d ds ih => simp [repeating, ih]

theorem repeating_concat (again : Bool) (ds : List Decl) (d : Decl) :
    repeating again [] (ds ++ [d]) =
      repeating again [] ds ++ if ds.any d.clashes = again then [d] else [] := by
  simp [repeating_append, repeating]

theorem clashes_trans {d' : Decl} (h : d.clashes e = true) (h' : e.clashes d' = true) :
    d.clashes d' = true := by
  simp_all [clashes]

/-- The first declarations clash with whatever clashes with any. -/
theorem any_clashes_repeating (earlier ds : List Decl) (d : Decl) :
    (earlier.any d.clashes || (repeating false earlier ds).any d.clashes) =
      (earlier ++ ds).any d.clashes := by
  induction ds generalizing earlier with
  | nil => simp [repeating]
  | cons e ds ih =>
    have hrest := ih (earlier ++ [e])
    simp only [append_assoc, singleton_append] at hrest
    rw [← hrest, repeating]
    cases he : earlier.any e.clashes with
    | false => simp [Bool.or_assoc]
    | true =>
      -- what clashes with a later one clashes with the earlier one as well
      have hearlier : d.clashes e = true → earlier.any d.clashes = true := by
        intro hd
        obtain ⟨i, hi, hei⟩ := any_eq_true.mp he
        exact any_eq_true.mpr ⟨i, hi, clashes_trans hd hei⟩
      cases hd : d.clashes e with
      | false => simp [hd]
      | true => simp [hearlier hd]

end Decl

namespace Scope

variable {i j : Item} {d e : Decl}

/-- A table of types and flags tells as much as the parameters of items do. -/
theorem params_inj :
    Function.Injective fun s : ScalarType × Bool => Param.mk (.ofScalar s.1) s.2 := by
  rintro ⟨t, b⟩ ⟨t', b'⟩ h
  cases t <;> cases t' <;> cases h <;> rfl

theorem Item.Records.clashes (hi : i.Records d) (hj : j.Records e) :
    (j.name == i.name && j.params == i.params) = d.clashes e := by
  rw [Decl.clashes, hi.name, hj.name, hi.params, hj.params, BEq.comm (a := d.name),
    BEq.comm (a := d.signature)]
  congr 1
  rw [Bool.eq_iff_iff, beq_iff_eq, beq_iff_eq, map_inj_right fun _ _ h => params_inj h]

theorem any_clashes {items : List Item} {ds : List Decl} (h : Forall₂ Item.Records items ds)
    (hi : i.Records d) : items.any (fun j => j.name == i.name && j.params == i.params) =
      ds.any d.clashes := by
  induction h with
  | nil => rfl
  | cons hj _ ih => rw [any_cons, any_cons, hi.clashes hj, ih]

end Scope

/-! ## Filling a block -/

namespace Analysis

variable {a : Analysis} {n : Nat} {ds ds' : List Decl}

/-- A block holds the first ones of some declarations, and the others are reported. -/
structure Filled (n : Nat) (ds : List Decl) (a : Analysis) : Prop where
  items : ∃ b, a.table.blocks[n]? = some b ∧
    Forall₂ Item.Records b.items (Decl.repeating false [] ds)
  errors : a.errors.filter SemanticError.isDuplicate =
    (Decl.repeating true [] ds).map Decl.duplicate

theorem Filled.report (h : Filled n ds a) {α : Type} {x : Checked α} (hx : x.Fresh) :
    Filled n ds (a.report x.errors) := by
  refine ⟨h.items, ?_⟩
  rw [Analysis.report, filter_append, hx, append_nil, h.errors]

theorem Filled.declare (h : Filled n ds a) {item : Item} {d : Decl} (hitem : item.Records d) :
    Filled n (ds ++ [d]) (declare n a item) := by
  obtain ⟨b, hblock, hb⟩ := h.items
  have hrepeats : b.repeats item = ds.any d.clashes := by
    rw [← nil_append ds, ← Decl.any_clashes_repeating, any_nil, Bool.false_or,
      ← any_clashes hb hitem, Block.repeats, Block.named, any_filter]
  have herror : (⟨.duplicate item.name, item.position⟩ : SemanticError) = d.duplicate := by
    rw [hitem.name, hitem.position, Decl.duplicate]
  rw [declare_eq hblock, hrepeats, herror]
  split
  · next hagain =>
    refine ⟨⟨b, hblock, ?_⟩, ?_⟩
    · simpa [Decl.repeating_concat, hagain] using hb
    · simp [Decl.repeating_concat, Analysis.report, h.errors, hagain]
      rfl
  · next hfirst =>
    refine ⟨⟨{ b with items := b.items ++ [item] }, ?_, ?_⟩, ?_⟩
    · simp [Table.getElem?_extend, hblock]
    · simpa [Decl.repeating_concat, hfirst] using rel_append hb (.cons hitem .nil)
    · simp [Decl.repeating_concat, h.errors, hfirst]

theorem Filled.declareAll (h : Filled n ds a) {items : List Item}
    (hitems : Forall₂ Item.Records items ds') : Filled n (ds ++ ds') (declareAll n items a) := by
  unfold Analysis.declareAll
  induction hitems generalizing ds a with
  | nil => simpa using h
  | cons hitem _ ih => simpa using ih (h.declare hitem)

theorem fresh_constType (t : Table) (block : Nat) (d : ConstDecl) :
    (constType t block d).Fresh := by
  unfold constType
  split
  · exact Typing.fresh_typeOf d.value
  · rfl

theorem Filled.declareConsts (h : Filled n ds a) (cs : List ConstDecl) :
    Filled n (ds ++ cs.map .const) (declareConsts n cs a) := by
  unfold Analysis.declareConsts
  induction cs generalizing ds a with
  | nil => simpa using h
  | cons c cs ih =>
    have hone : Filled n (ds ++ [.const c]) (declareConst n a c) :=
      (h.report (fresh_constType a.table n c)).declare ⟨rfl, rfl, rfl, rfl, nofun, rfl⟩
    simpa using ih hone

theorem records_map {α : Type} {f : α → Item} {g : α → Decl} (h : ∀ a, (f a).Records (g a))
    (as : List α) : Forall₂ Item.Records (as.map f) (as.map g) :=
  forall₂_map_left_iff.mpr (forall₂_map_right_iff.mpr (forall₂_same.mpr fun a _ => h a))

theorem records_flatMap {α : Type} {f : α → List Item} {g : α → List Decl}
    (h : ∀ a, Forall₂ Item.Records (f a) (g a)) (as : List α) :
    Forall₂ Item.Records (as.flatMap f) (as.flatMap g) := by
  refine rel_flatMap (forall₂_same.mpr fun a _ => Eq.refl a) ?_
  rintro a _ rfl
  exact h a

theorem records_vars (vars : List VarDecl) :
    Forall₂ Item.Records (vars.flatMap varItems) (vars.flatMap VarDecl.decls) := by
  refine records_flatMap (fun d => records_map (fun name => ?_) d.names) vars
  exact ⟨rfl, rfl, rfl, rfl, fun _ => Option.some.inj, rfl⟩

theorem records_params (groups : List ParamGroup) :
    Forall₂ Item.Records (groups.flatMap paramItems) (groups.flatMap ParamGroup.decls) := by
  refine records_flatMap (fun g => records_map (fun name => ?_) g.names) groups
  exact ⟨rfl, rfl, rfl, rfl, fun _ => Option.some.inj, rfl⟩

theorem records_result (h : Heading) :
    Forall₂ Item.Records (resultItems h) (h.returns.toList.map (.result h)) := by
  refine records_map (fun type => ?_) h.returns.toList
  exact ⟨rfl, rfl, rfl, rfl, fun _ => Option.some.inj, rfl⟩

theorem records_routine (h : Heading) : (routineItem h).Records (.routine h) := by
  refine ⟨rfl, ?_, rfl, rfl, fun _ => Option.some.inj, rfl⟩
  simp [routineItem, params, Decl.signature, map_flatMap]

theorem filled_alone (root : Block) (s : Subprogram) : Filled 1 s.decls (alone root s) := by
  have hstart : Filled 1 [] { table := ((lone root).table.createBlock s.heading.name (some 0)
      s.heading.position).1 } := ⟨⟨_, rfl, .nil⟩, rfl⟩
  have hfilled := (((hstart.declareAll (records_params s.heading.groups)).declareAll
    (records_result s.heading)).declareConsts s.body.consts).declareAll (records_vars s.body.vars)
  exact hfilled.report (Check.fresh_statements _ s.body.statements)

end Analysis

open Analysis in
/-- Exactly the declarations with the name and the parameters of an earlier one in their block are
reported, each at its place, and each block holds exactly the others. -/
theorem duplicates_reported (p : Program) :
    (analyze p).errors.filter SemanticError.isDuplicate =
        p.decls.flatMap (fun ds => (Decl.repeating true [] ds).map Decl.duplicate) ∧
      Forall₂ (fun b ds => Forall₂ Item.Records b.items (Decl.repeating false [] ds))
        (analyze p).table.blocks p.decls := by
  obtain ⟨root, hroot, hmodular⟩ := exists_modular p
  obtain ⟨herrors, hblocks⟩ := analyze_eq hroot hmodular.declarations
  have hstart : Filled 0 [] { table := (Table.createBlock {} p.name none p.position).1 } :=
    ⟨⟨_, rfl, .nil⟩, rfl⟩
  have houtermost : Filled 0 _ (outermost p).1 := ((hstart.declareConsts p.body.consts).declareAll
    (records_vars p.body.vars)).declareAll
      (records_map (fun s : Subprogram => records_routine s.heading) p.subprograms)
  obtain ⟨b, hfirst, hitems⟩ := houtermost.items
  obtain rfl : root = b := by simpa [hmodular.declarations] using hfirst
  have hown : ∀ s, Forall₂ Item.Records (ownBlock root s).items
      (Decl.repeating false [] s.decls) := by
    intro s
    obtain ⟨own, hsecond, hitems⟩ := (filled_alone root s).items
    obtain rfl : ownBlock root s = own := by simpa [(alone_blocks hroot s).1] using hsecond
    exact hitems
  constructor
  · rw [herrors, filter_append, filter_append, houtermost.errors, Check.fresh_statements,
      append_nil, filter_flatMap, Program.decls, flatMap_cons, flatMap_map]
    simp only [(filled_alone root _).errors, nil_append]
  · rw [hblocks]
    refine .cons hitems ?_
    exact forall₂_map_left_iff.mpr (forall₂_map_right_iff.mpr (forall₂_same.mpr fun s _ => hown s))

/-- Overloads, a name twice in one list, variables and constants of one name, a procedure with the
name of a variable, and a parameter with the name of its function. -/
def overloads : String := "program p; const c = 1; var a, b, a: integer; c: real;
  procedure f(x: integer); begin end;
  procedure f(x: real); begin end;
  procedure f(var x: integer); begin end;
  procedure f(x, y: integer); begin end;
  procedure f(z: integer); begin end;
  procedure b; begin end;
  function g(g: integer): real; const d = 2; var h, d: char; begin end;
  begin end."

/-- What is declared once more, and the names in each block. -/
def overloadsRepeated : List SemanticError :=
  [⟨.duplicate "a", ⟨1, 29⟩⟩, ⟨.duplicate "c", ⟨1, 47⟩⟩, ⟨.duplicate "f", ⟨6, 3⟩⟩,
   ⟨.duplicate "b", ⟨7, 3⟩⟩, ⟨.duplicate "g", ⟨8, 3⟩⟩, ⟨.duplicate "d", ⟨8, 50⟩⟩]

def overloadsKept : List (List String) :=
  [["c", "a", "b", "f", "f", "f", "f", "g"], ["x"], ["x"], ["x"], ["x", "y"], ["z"], [],
   ["g", "d", "h"]]

set_option maxRecDepth 2000 in
theorem overloads_reported : ∃ p, parse (scan overloads) = .ok (p, []) ∧
    (analyze p).errors.filter SemanticError.isDuplicate = overloadsRepeated ∧
    (analyze p).table.blocks.map (fun b => b.items.map Item.name) = overloadsKept ∧
    Forall₂ (fun b ds => Forall₂ Item.Records b.items (Decl.repeating false [] ds))
      (analyze p).table.blocks p.decls := by
  have hview : ((parse (scan overloads)).toOption.map fun r => (r.2,
      r.1.decls.flatMap (fun ds => (Decl.repeating true [] ds).map Decl.duplicate),
      (analyze r.1).table.blocks.map fun b => b.items.map Item.name)) =
      some ([], overloadsRepeated, overloadsKept) := by
    have hchars : overloads = String.ofList _ := rfl
    rw [hchars, scan_ofList]
    decide +kernel
  cases h : parse (scan overloads) with
  | error e =>
    rw [h] at hview
    cases hview
  | ok r =>
    obtain ⟨p, errors⟩ := r
    rw [h] at hview
    have hview := Option.some.inj hview
    simp only [Prod.mk.injEq] at hview
    obtain ⟨rfl, hrepeated, hkept⟩ := hview
    obtain ⟨herrors, hblocks⟩ := duplicates_reported p
    exact ⟨p, rfl, herrors.trans hrepeated, hkept, hblocks⟩

end MiniPascal
