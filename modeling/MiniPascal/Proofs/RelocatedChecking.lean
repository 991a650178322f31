import MiniPascal.Analysis
import MiniPascal.Proofs.Relocation

/-!
# Checking a text of another layout

The problems of a relocated program are the same ones at other places (`analyze_moved`), since the
checker compares names and types only.
-/

namespace MiniPascal

open List

namespace Scope

variable (f : Position → Position)

@[simps]
def Item.moved (i : Item) : Item := { i with position := f i.position }

@[simps]
def Block.moved (b : Block) : Block := { b with items := b.items.map (Item.moved f) }

@[simps]
def Table.moved (t : Table) : Table :=
  ⟨t.blocks.map (Block.moved f), t.keys.map (Prod.map f id)⟩

namespace Table

variable (t : Table) (id : Nat) (name : String)

@[simp]
theorem named_moved : (t.moved f).named id name = (t.named id name).map (Item.moved f) := by
  unfold named
  rw [moved_blocks, getElem?_map]
  cases t.blocks[id]? with
  | none => rfl
  | some b => exact filter_map

@[simp]
theorem ancestors_moved : (t.moved f).ancestors id = t.ancestors id := by
  induction id using Nat.strongRecOn with
  | ind id ih =>
    have hparent : ((t.moved f).blocks[id]?).bind Block.parent =
        (t.blocks[id]?).bind Block.parent := by
      rw [moved_blocks, getElem?_map]
      cases t.blocks[id]? <;> rfl
    rw [ancestors, ancestors, hparent]
    split
    · next parent _ =>
      split
      · next hlt => rw [ih parent hlt]
      · rfl
    · rfl

theorem find?_moved {fits : Item → Bool} (hfits : ∀ i, fits (i.moved f) = fits i) :
    (t.moved f).find? id name fits = (t.find? id name fits).map (Item.moved f) := by
  have hfits : fits ∘ Item.moved f = fits := funext hfits
  simp only [find?, ancestors_moved, named_moved, find?_map, hfits]
  induction t.ancestors id with
  | nil => rfl
  | cons block blocks ih =>
    rw [findSome?_cons, findSome?_cons]
    cases (t.named block name).find? fits with
    | some item => rfl
    | none => exact ih

@[simp]
theorem contains_moved : (t.moved f).contains id name = t.contains id name := by
  simp [contains, find?_moved]

@[simp]
theorem findData?_moved :
    (t.moved f).findData? id name = (t.findData? id name).map (Item.moved f) :=
  find?_moved f t id name fun _ => rfl

theorem findResult?_moved :
    (t.moved f).findResult? id name = (t.findResult? id name).map (Item.moved f) :=
  find?_moved f t id name fun _ => rfl

@[simp]
theorem findPlace?_moved :
    (t.moved f).findPlace? id name = (t.findPlace? id name).map (Item.moved f) := by
  simp [findPlace?, findResult?_moved, Option.map_or]

@[simp]
theorem findRoutine_moved (args : List Argument) :
    (t.moved f).findRoutine id name args = (t.findRoutine id name args).map (Item.moved f) := by
  unfold findRoutine
  rw [find?_moved f t id name fun _ => rfl, find?_moved f t id name fun _ => rfl, contains_moved,
    Option.isSome_map]
  cases t.find? id name fun i => i.kind == .routine && i.accepts args with
  | some item => rfl
  | none =>
    dsimp only [Option.map_none]
    split
    · rfl
    · split <;> rfl

@[simp]
theorem resolve_moved : (t.moved f).resolve id name = (t.resolve id name).map (Item.moved f) := by
  rw [resolve, resolve, findData?_moved, findRoutine_moved, findResult?_moved]
  cases t.findData? id name with
  | some item => rfl
  | none =>
    cases t.findRoutine id name [] with
    | ok item => rfl
    | error e => cases t.findResult? id name <;> rfl

theorem insert?_moved (item : Item) :
    (t.moved f).insert? id (item.moved f) = (t.insert? id item).map (Table.moved f) := by
  have hblocks :
      (t.moved f).blocks.modify id (fun b => { b with items := b.items ++ [item.moved f] }) =
      (t.blocks.modify id fun b => { b with items := b.items ++ [item] }).map (Block.moved f) := by
    refine ext_getElem? fun n => ?_
    simp only [moved_blocks, getElem?_map, getElem?_modify]
    cases t.blocks[n]? with
    | none => rfl
    | some b => by_cases h : id = n <;> simp [h, Block.moved]
  rw [insert?, insert?, hblocks, Item.moved_name, named_moved, any_map]
  change (if (t.named id item.name).any (fun i => i.params == item.params) then _ else _) = _
  split <;> rfl

theorem createBlock_moved (parent : Option Nat) (key : Position) :
    (t.moved f).createBlock name parent (f key) =
      Prod.map (Table.moved f) (fun k => k) (t.createBlock name parent key) := by
  simp [createBlock, moved, Block.moved]

end Table

end Scope

open Scope

variable (f : Position → Position)

@[simps]
def SemanticError.moved (e : SemanticError) : SemanticError := { e with position := f e.position }

namespace Checked

variable {α β : Type}

@[simps]
def moved (x : Checked α) : Checked α := ⟨x.value, x.errors.map (SemanticError.moved f)⟩

@[simp]
theorem moved_bind (x : Checked α) (g : α → Checked β) :
    (x >>= g).moved f = x.moved f >>= fun a => (g a).moved f := by
  change Checked.mk _ (List.map _ (x.errors ++ (g x.value).errors)) = _
  rw [map_append]
  rfl

@[simp]
theorem moved_pure (a : α) : (pure a : Checked α).moved f = pure a := rfl

@[simp]
theorem moved_complain (problem : Problem) (p : Position) :
    (complain problem p).moved f = complain problem (f p) := rfl

@[simp]
theorem moved_ite (c : Prop) [Decidable c] (x y : Checked α) :
    (if c then x else y).moved f = if c then x.moved f else y.moved f := apply_ite ..

end Checked

namespace Expr

attribute [simp] position_moved

mutual

@[simp]
theorem text_moved : ∀ e : Expr, (e.moved f).text = e.text
  | .int .. | .real .. | .char .. | .bool .. | .string .. | .name .. => rfl
  | .element _ _ [] => rfl
  | .element p n (i :: is) => by
    rw [moved, allMoved, text, text, ← allMoved, listText_moved]
  | .call p n args => by rw [moved, text, text, listText_moved]
  | .binary p op l r => by rw [moved, text, text, text_moved l, text_moved r]
  | .unary p op e => by rw [moved, text, text, text_moved e]

theorem listText_moved : ∀ es : List Expr, listText (allMoved f es) = listText es
  | [] => rfl
  | [e] => by rw [allMoved, allMoved, listText, listText, text_moved e]
  | e :: e' :: es => by
    rw [allMoved, allMoved, listText, listText, ← allMoved, text_moved e, listText_moved (e' :: es)]

end

@[simp]
theorem length_allMoved (es : List Expr) : (allMoved f es).length = es.length := by
  rw [allMoved_eq_map, length_map]

end Expr

namespace Typing

open Checked

variable (t : Table) (block : Nat)

@[simp]
theorem binary_moved (op : BinaryOp) (a b : Ty) (p : Position) :
    (binary op a b p).moved f = binary op a b (f p) := by
  unfold binary
  split
  · rfl
  · split <;> rfl

@[simp]
theorem unary_moved (op : UnaryOp) (a : Ty) (p : Position) :
    (unary op a p).moved f = unary op a (f p) := by
  unfold unary
  split
  · rfl
  · split <;> rfl

@[simp]
theorem index_moved (type : Ty) (p : Position) : (index type p).moved f = index type (f p) := by
  simp [index]

@[simp]
theorem element_moved (type : Ty) (name : String) (count : Nat) (sound : Bool) (p : Position) :
    (element type name count sound p).moved f = element type name count sound (f p) := by
  unfold element
  split <;> rfl

@[simp]
theorem notPlace_moved (name : String) (p : Position) :
    (notPlace t block name p).moved f = notPlace (t.moved f) block name (f p) := by
  simp [notPlace]

@[simp]
theorem visible?_moved (name : String) :
    Builtin.visible? (t.moved f) block name = Builtin.visible? t block name := by
  simp [Builtin.visible?]

@[simp]
theorem isVariable_moved (e : Expr) :
    isVariable (t.moved f) block (e.moved f) = isVariable t block e := by
  cases e with
  | element p n indices =>
    rw [Expr.moved, isVariable, isVariable, Table.findPlace?_moved]
    cases t.findPlace? block n <;> rfl
  | name p n =>
    rw [Expr.moved, isVariable, isVariable, Table.resolve_moved]
    cases t.resolve block n <;> rfl
  | _ => rfl

theorem isConstant_moved (e : Expr) :
    isConstant (t.moved f) block (e.moved f) = isConstant t block e := by
  cases e with
  | name p n =>
    rw [Expr.moved, isConstant, isConstant, Table.resolve_moved]
    cases t.resolve block n <;> rfl
  | unary p op operand => cases op <;> cases operand <;> rfl
  | _ => rfl

mutual

@[simp]
theorem typeOf_moved : ∀ e : Expr, typeOf (t.moved f) block (e.moved f) = (typeOf t block e).moved f
  | .int .. | .real .. | .char .. | .bool .. | .string .. => by
    simp only [Expr.moved, typeOf, moved_pure]
  | .name p n => by
    rw [Expr.moved, typeOf, typeOf, Table.resolve_moved]
    cases t.resolve block n <;> rfl
  | .element p n indices => by
    rw [Expr.moved, typeOf, typeOf, Table.findPlace?_moved]
    cases t.findPlace? block n <;> simp [indicesSound_moved indices]
  | .call p n arguments => by
    rw [Expr.moved, typeOf, typeOf]
    simp only [moved_bind, argumentsOf_moved arguments, visible?_moved, Table.findRoutine_moved,
      moved_ite, moved_pure]
    refine congrArg _ (funext fun args => ?_)
    cases t.findRoutine block n args <;> rfl
  | .binary p op left right => by
    simp [Expr.moved, typeOf, typeOf_moved left, typeOf_moved right]
  | .unary p op operand => by simp [Expr.moved, typeOf, typeOf_moved operand]

theorem indicesSound_moved : ∀ es : List Expr,
    indicesSound (t.moved f) block (Expr.allMoved f es) = (indicesSound t block es).moved f
  | [] => by simp only [Expr.allMoved, indicesSound, moved_pure]
  | e :: es => by simp [Expr.allMoved, indicesSound, typeOf_moved e, indicesSound_moved es]

theorem argumentsOf_moved : ∀ es : List Expr,
    argumentsOf (t.moved f) block (Expr.allMoved f es) = (argumentsOf t block es).moved f
  | [] => by simp only [Expr.allMoved, argumentsOf, moved_pure]
  | e :: es => by simp [Expr.allMoved, argumentsOf, typeOf_moved e, argumentsOf_moved es]

end

attribute [simp] indicesSound_moved argumentsOf_moved

end Typing

namespace Check

open Checked Typing

@[simps]
def Context.moved (c : Context) : Context :=
  ⟨c.table.moved f, c.block, c.function.map (Heading.moved f)⟩

variable (c : Context)

@[simp]
theorem functionNamed?_moved (name : String) :
    (c.moved f).functionNamed? name = c.functionNamed? name := by
  obtain ⟨table, block, function⟩ := c
  cases function <;> rfl

@[simp]
theorem targetType_moved (p : Position) (name : String) (indices : List Expr) :
    targetType (c.moved f) (f p) name (Expr.allMoved f indices) =
      (targetType c p name indices).moved f := by
  have hindices := indicesSound_moved f c.table c.block indices
  unfold targetType
  rw [functionNamed?_moved, Context.moved_table, Context.moved_block, Table.findData?_moved]
  cases c.functionNamed? name <;> cases indices <;> cases c.table.findData? c.block name <;>
    simp_all [Expr.allMoved]

@[simp]
theorem assignment_moved (p : Position) (name : String) (indices : List Expr) (value : Expr) :
    assignment (c.moved f) (f p) name (Expr.allMoved f indices) (value.moved f) =
      (assignment c p name indices value).moved f := by
  simp [assignment]

@[simp]
theorem written_moved (type : Ty) (e : Expr) :
    (written type e).moved f = written type (e.moved f) := by
  simp [written]

@[simp]
theorem read_moved (b : Builtin) (type : Ty) (e : Expr) :
    (read c b type e).moved f = read (c.moved f) b type (e.moved f) := by
  simp [read]

@[simp]
theorem builtinArguments_moved (b : Builtin) (es : List Expr) :
    builtinArguments (c.moved f) b (Expr.allMoved f es) = (builtinArguments c b es).moved f := by
  induction es with
  | nil => rfl
  | cons e es ih => simp [Expr.allMoved, builtinArguments, ih]

@[simp]
theorem call_moved (p : Position) (name : String) (arguments : List Expr) :
    call (c.moved f) (f p) name (Expr.allMoved f arguments) =
      (call c p name arguments).moved f := by
  unfold call
  rw [Context.moved_table, Context.moved_block, visible?_moved]
  cases Builtin.visible? c.table c.block name with
  | some b => exact builtinArguments_moved f c b arguments
  | none =>
    simp only [moved_bind, argumentsOf_moved, Table.findRoutine_moved, moved_ite, moved_pure]
    refine congrArg _ (funext fun args => ?_)
    cases c.table.findRoutine c.block name args <;> rfl

@[simp]
theorem condition_moved (statement : Keyword) (e : Expr) :
    condition (c.moved f) statement (e.moved f) = (condition c statement e).moved f := by
  simp [condition]

@[simp]
theorem bound_moved (e : Expr) : bound (c.moved f) (e.moved f) = (bound c e).moved f := by
  simp [bound]

@[simp]
theorem counter_moved (p : Position) (name : String) :
    counter (c.moved f) (f p) name = (counter c p name).moved f := by
  unfold counter
  rw [Context.moved_table, Context.moved_block, Table.findData?_moved]
  cases c.table.findData? c.block name <;> simp

mutual

theorem statement_moved : ∀ s : Statement,
    statement (c.moved f) (s.moved f) = (statement c s).moved f
  | .assign p name indices value => by simp only [Statement.moved, statement, assignment_moved]
  | .call p name arguments => by simp only [Statement.moved, statement, call_moved]
  | .compound p parts => by simp only [Statement.moved, statement, statements_moved parts]
  | .branch p e onTrue none => by simp [Statement.moved, statement, statement_moved onTrue]
  | .branch p e onTrue (some onFalse) => by
    simp [Statement.moved, statement, statement_moved onTrue, statement_moved onFalse]
  | .count p name first last direction body => by
    simp [Statement.moved, statement, statement_moved body]
  | .loop p e body => by simp [Statement.moved, statement, statement_moved body]
  | .exit p => by simp only [Statement.moved, statement, moved_pure]

theorem statements_moved : ∀ ss : List Statement,
    statements (c.moved f) (Statement.allMoved f ss) = (statements c ss).moved f
  | [] => by simp only [Statement.allMoved, statements, moved_pure]
  | s :: ss => by
    simp only [Statement.allMoved, statements, statement_moved s, statements_moved ss, moved_bind]

end

end Check

namespace Analysis

@[simps]
def moved (a : Analysis) : Analysis :=
  ⟨a.table.moved f, a.errors.map (SemanticError.moved f)⟩

variable (a : Analysis) (block : Nat)

theorem report_moved (errors : List SemanticError) :
    (a.moved f).report (errors.map (SemanticError.moved f)) = (a.report errors).moved f := by
  simp [report, moved]

theorem declare_moved (item : Item) :
    (a.moved f).declare block (item.moved f) = (a.declare block item).moved f := by
  unfold declare
  rw [moved_table, Table.insert?_moved]
  cases a.table.insert? block item with
  | some table => rfl
  | none => exact report_moved f a [⟨.duplicate item.name, item.position⟩]

theorem foldl_moved {σ ι : Type} {step : σ → ι → σ} {g : σ → σ} {m : ι → ι}
    (h : ∀ a i, step (g a) (m i) = g (step a i)) (is : List ι) (a : σ) :
    (is.map m).foldl step (g a) = g (is.foldl step a) := by
  rw [foldl_map]
  exact foldl_hom g h

theorem declareAll_moved (items : List Item) :
    declareAll block (items.map (Item.moved f)) (a.moved f) = (declareAll block items a).moved f :=
  foldl_moved (declare_moved f · block) items a

theorem constType_moved (t : Table) (d : ConstDecl) :
    constType (t.moved f) block (d.moved f) = (constType t block d).moved f := by
  simp [constType, ConstDecl.moved, Typing.isConstant_moved]

theorem declareConst_moved (d : ConstDecl) :
    declareConst block (a.moved f) (d.moved f) = (declareConst block a d).moved f := by
  unfold declareConst
  rw [← declare_moved, ← report_moved, moved_table, constType_moved]
  rfl

theorem declareConsts_moved (ds : List ConstDecl) :
    declareConsts block (ds.map (ConstDecl.moved f)) (a.moved f) =
      (declareConsts block ds a).moved f :=
  foldl_moved (declareConst_moved f · block) ds a

theorem varItems_moved (ds : List VarDecl) :
    (ds.map (VarDecl.moved f)).flatMap varItems = (ds.flatMap varItems).map (Item.moved f) := by
  simp [flatMap_map, map_flatMap, varItems, VarDecl.moved, Item.moved, Function.comp_def]

theorem paramItems_moved (gs : List ParamGroup) : (gs.map (ParamGroup.moved f)).flatMap paramItems =
      (gs.flatMap paramItems).map (Item.moved f) := by
  simp [flatMap_map, map_flatMap, paramItems, ParamGroup.moved, Item.moved,
    Function.comp_def]

theorem routineItem_moved (h : Heading) : routineItem (h.moved f) = (routineItem h).moved f := by
  simp [routineItem, params, flatMap_map, Item.moved]

theorem resultItems_moved (h : Heading) :
    resultItems (h.moved f) = (resultItems h).map (Item.moved f) := by
  simp [resultItems, Item.moved, Function.comp_def]

theorem functionOf_moved (h : Heading) :
    functionOf (h.moved f) = (functionOf h).map (Heading.moved f) := by
  rw [functionOf, functionOf, Heading.moved_returns]
  split <;> rfl

theorem report_statements_moved (function : Option Heading) (ss : List Statement) :
    (a.moved f).report (Check.statements ⟨a.table.moved f, block,
      function.map (Heading.moved f)⟩ (Statement.allMoved f ss)).errors =
      (a.report (Check.statements ⟨a.table, block, function⟩ ss).errors).moved f := by
  have hstatements := Check.statements_moved f ⟨a.table, block, function⟩ ss
  rw [← report_moved]
  exact congrArg (fun x => (a.moved f).report x.errors) hstatements

theorem start_moved (t : Table) (errors : List SemanticError) :
    (⟨t.moved f, errors.map (SemanticError.moved f)⟩ : Analysis) = moved f ⟨t, errors⟩ := rfl

theorem subprogram_moved (root : Nat) (s : Subprogram) :
    subprogram root (a.moved f) (s.moved f) = (subprogram root a s).moved f := by
  have hcreate := Table.createBlock_moved f a.table s.heading.name (some root) s.heading.position
  simp only [subprogram, Subprogram.moved_heading, Subprogram.moved_body, Body.moved_consts,
    Body.moved_vars, Body.moved_statements, Heading.moved_name, Heading.moved_position,
    Heading.moved_groups, moved_table, hcreate, Prod.map_fst, Prod.map_snd, moved_errors,
    start_moved, resultItems_moved, paramItems_moved, varItems_moved, declareAll_moved,
    declareConsts_moved, functionOf_moved]
  exact report_statements_moved f _ _ _ _

theorem outermost_moved (p : Program) :
    outermost (p.moved f) = Prod.map (Analysis.moved f) (fun k => k) (outermost p) := by
  have hcreate : Table.createBlock {} p.name none (f p.position) = _ :=
    Table.createBlock_moved f {} p.name none p.position
  have hroutines : (p.moved f).subprograms.map (fun s => routineItem s.heading) =
      (p.subprograms.map fun s => routineItem s.heading).map (Item.moved f) := by
    simp [routineItem_moved]
  have hstart : ∀ t, (⟨Table.moved f t, []⟩ : Analysis) = _ := fun t => start_moved f t []
  simp only [outermost, hroutines, Program.moved_name, Program.moved_position, Program.moved_body,
    Body.moved_consts, Body.moved_vars, hcreate, Prod.map_fst, Prod.map_snd, hstart,
    varItems_moved, declareAll_moved, declareConsts_moved, Prod.map_apply]

end Analysis

theorem analyze_moved (p : Program) : analyze (p.moved f) = (analyze p).moved f := by
  have hsubprograms := Analysis.foldl_moved (Analysis.subprogram_moved f · (Analysis.outermost p).2)
  simp only [analyze, Analysis.outermost_moved, Prod.map_fst, Prod.map_snd,
    Program.moved_subprograms, hsubprograms]
  exact Analysis.report_statements_moved f _ _ none _

end MiniPascal
