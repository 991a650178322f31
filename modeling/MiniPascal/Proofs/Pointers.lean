import MiniPascal.Proofs.PrintedExpressions
import MiniPascal.Proofs.Writes

/-!
# Pointers

A variable of a lowered program is marked as a pointer exactly if the routine around has a parameter
by reference of its name, and the text dereferences it exactly where its value is used.
-/

namespace MiniPascal.C

open Scope Analysis
open List

def Routine.pointers (r : Routine) : List String :=
  (r.params.filter Param.byReference).map Param.name

namespace Tree

mutual

/-- The operands of `*` as a unary operator, at any depth. -/
def dereferenced : Tree → List Tree
  | name _ | int _ | real _ | char _ | string _ => []
  | subscript array index => array.dereferenced ++ index.dereferenced
  | call function arguments => function.dereferenced ++ dereferencedAll arguments
  | member _ object _ => object.dereferenced
  | suffix _ operand => operand.dereferenced
  | unary op operand => (if op = .star then [operand] else []) ++ operand.dereferenced
  | cast _ operand => operand.dereferenced
  | binary _ left right => left.dereferenced ++ right.dereferenced

def dereferencedAll : List Tree → List Tree
  | [] => []
  | t :: ts => t.dereferenced ++ dereferencedAll ts

end

end Tree

namespace Expr

/-- The pointers that are left of those of an expression, where its address is needed. -/
def passedPointers (pointers : List Var) : Expr → List Var
  | var _ => []
  | _ => pointers

mutual

/-- The pointers whose values an expression uses, at any depth. -/
def pointers : Expr → List Var
  | int _ | real _ | char _ | string _ => []
  | var v => if v.isPointer then [v] else []
  | element v subscripts => (if v.isPointer then [v] else []) ++ subscriptPointers subscripts
  | call _ arguments => argumentPointers arguments
  | binary _ left right => left.pointers ++ right.pointers
  | unary _ operand => operand.pointers
  | cast _ operand => operand.pointers

def subscriptPointers : List (Expr × Int64) → List Var
  | [] => []
  | (e, _) :: rest => e.pointers ++ subscriptPointers rest

def argumentPointers : List (Expr × Bool) → List Var
  | [] => []
  | (e, byReference) :: rest =>
    (if byReference then e.passedPointers e.pointers else e.pointers) ++ argumentPointers rest

end

end Expr

namespace Form

/-- The trees that are written for a form. -/
def trees : Form → List Tree
  | value c | target c => [c.tree]
  | counter v => [v.tree]
  | input c => [c.addressTree c.tree]
  | step _ arguments => Expr.argumentTrees arguments

def pointers : Form → List Var
  | value c | target c => c.pointers
  | counter v => if v.isPointer then [v] else []
  | input c => c.passedPointers c.pointers
  | step _ arguments => Expr.argumentPointers arguments

end Form

/-- The uses of names in a block, in its constants and in its statements. -/
def Block.uses (b : Block) : List Use :=
  Expr.usesAll (b.declarations.constants.map Constant.value) ++ Statement.usesAll b.statements

/-- What a block evaluates and sets, in its constants and in its statements. -/
def Block.forms (b : Block) : List Form :=
  b.declarations.constants.map (fun c => .value c.value) ++ Statement.formsAll b.statements

/-- A block in which the variables of the given names are pointers, and no others. -/
structure Block.Disciplined (pointers : List String) (b : Block) : Prop where
  flags : ∀ v, Use.var v ∈ b.uses → (v.byReference = true ↔ v.name ∈ pointers)
  results : ∀ v, Use.var v ∈ b.uses → v.isResult = true → v.byReference = false
  written : ∀ v, Use.var v ∈ b.uses →
    if v.name ∈ pointers then
      v.text = "*" ++ identifier v.name ∧ (Expr.var v).address v.text = identifier v.name
    else v.text = v.written ∧ (Expr.var v).address v.text = "&" ++ v.written
  subscripted : ∀ f ∈ b.forms, ∀ c ∈ f.exprs, ∀ x ∈ c.elements, x.1.byReference = false
  dereferenced : ∀ f ∈ b.forms, (∀ v ∈ f.pointers, v.name ∈ pointers) ∧
    Tree.dereferencedAll f.trees = f.pointers.map fun v => .name (identifier v.name)

/-- Exactly the parameters by reference are pointers, each in its own routine. -/
structure PointersKept (q : Program) : Prop where
  globals : Block.Disciplined [] ⟨q.globals, []⟩
  main : Block.Disciplined [] q.main
  routines : ∀ r ∈ q.routines, Block.Disciplined r.pointers r.body

/-! ## What is dereferenced -/

theorem Var.dereferenced_tree (v : Var) :
    v.tree.dereferenced = (if v.isPointer then [v] else []).map fun v => .name v.written := by
  unfold Var.tree
  split
  · rfl
  · rfl

theorem dereferenced_signed {t : Tree} (h : t.dereferenced = []) (negative : Bool) :
    (signed negative t).dereferenced = [] := by
  unfold signed
  split
  · rw [Tree.dereferenced, h]
    rfl
  · exact h

theorem dereferenced_offset (t : Tree) (lower : Int64) :
    (offsetTree t lower).dereferenced = t.dereferenced := by
  unfold offsetTree
  split
  · rfl
  · split <;> simp [Tree.dereferenced]

theorem dereferenced_address {e : Expr} {t : Tree}
    (h : t.dereferenced = e.pointers.map fun v => .name v.written) :
    (e.addressTree t).dereferenced =
      (e.passedPointers e.pointers).map fun v => .name v.written := by
  have hamp : (Tree.unary .amp t).dereferenced = t.dereferenced := by simp [Tree.dereferenced]
  cases e with
  | var v =>
    rw [Expr.addressTree, Expr.passedPointers]
    split
    · rfl
    · next hpointer =>
      rw [hamp, h, Expr.pointers, if_neg hpointer]
  | element v subscripts => exact hamp.trans h
  | int | real | char | string | call | binary | unary | cast => exact h

mutual

/-- The tree of an expression dereferences the pointers whose values it uses, each where it is
used. -/
theorem dereferenced_tree : ∀ e : Expr,
    e.tree.dereferenced = e.pointers.map fun v => .name v.written
  | .int v => dereferenced_signed rfl _
  | .real v => dereferenced_signed rfl _
  | .char _ | .string _ => rfl
  | .var v => v.dereferenced_tree
  | .element v subscripts => by
    rw [Expr.tree, Expr.pointers, dereferenced_subscripts, v.dereferenced_tree, map_append]
  | .call name arguments => by
    rw [Expr.tree, Expr.pointers, Tree.dereferenced, dereferenced_arguments]
    rfl
  | .binary op l r => by
    rw [Expr.tree, Expr.pointers, Tree.dereferenced, dereferenced_tree l, dereferenced_tree r,
      map_append]
  | .unary op e => by
    have hop : op.punct ≠ .star := by cases op <;> decide
    rw [Expr.tree, Expr.pointers, Tree.dereferenced, if_neg hop, dereferenced_tree e]
    rfl
  | .cast type e => by
    rw [Expr.tree, Expr.pointers, Tree.dereferenced, dereferenced_tree e]

theorem dereferenced_subscripts : ∀ (subscripts : List (Expr × Int64)) (array : Tree),
    (Expr.subscriptsTree array subscripts).dereferenced = array.dereferenced ++
      (Expr.subscriptPointers subscripts).map fun v => .name v.written
  | [], array => by simp [Expr.subscriptsTree, Expr.subscriptPointers]
  | (e, lower) :: rest, array => by
    rw [Expr.subscriptsTree, Expr.subscriptPointers, dereferenced_subscripts rest,
      Tree.dereferenced, dereferenced_offset, dereferenced_tree e, map_append,
      append_assoc]

theorem dereferenced_arguments : ∀ arguments : List (Expr × Bool),
    Tree.dereferencedAll (Expr.argumentTrees arguments) =
      (Expr.argumentPointers arguments).map fun v => .name v.written
  | [] => rfl
  | (e, byReference) :: rest => by
    rw [Expr.argumentTrees, Expr.argumentPointers, Tree.dereferencedAll,
      dereferenced_arguments rest, map_append]
    split
    · rw [dereferenced_address (dereferenced_tree e)]
    · rw [dereferenced_tree e]

end

theorem Form.dereferenced_trees (f : Form) : Tree.dereferencedAll f.trees =
    f.pointers.map fun v => .name v.written := by
  cases f with
  | value c | target c => simp [trees, pointers, Tree.dereferencedAll, dereferenced_tree]
  | counter v => simp [trees, pointers, Tree.dereferencedAll, Var.dereferenced_tree]
  | input c =>
    simp [trees, pointers, Tree.dereferencedAll, dereferenced_address (dereferenced_tree c)]
  | step name arguments => exact dereferenced_arguments arguments

theorem passedPointers_subset {pointers : List Var} (e : Expr) :
    e.passedPointers pointers ⊆ pointers := by
  cases e with
  | var v => exact nil_subset _
  | int | real | char | string | element | call | binary | unary | cast => exact fun _ hv => hv

theorem Var.eq_of_mem {v w : Var} (h : v ∈ if w.isPointer then [w] else []) :
    v.isPointer = true ∧ v = w := by
  split at h
  · next hpointer =>
    obtain rfl := mem_singleton.mp h
    exact ⟨hpointer, rfl⟩
  · cases h

mutual

theorem mem_pointers {v : Var} : ∀ e : Expr, v ∈ e.pointers →
    v.isPointer = true ∧ Use.var v ∈ e.uses
  | .int _, h | .real _, h | .char _, h | .string _, h => by cases h
  | .var w, h => by
    obtain ⟨hpointer, rfl⟩ := Var.eq_of_mem h
    exact ⟨hpointer, mem_singleton_self _⟩
  | .element w subscripts, h => by
    rcases mem_append.mp h with h | h
    · obtain ⟨hpointer, rfl⟩ := Var.eq_of_mem h
      exact ⟨hpointer, mem_cons_self⟩
    · exact (mem_subscriptPointers subscripts h).imp_right (mem_cons_of_mem _)
  | .call name arguments, h =>
    (mem_argumentPointers arguments h).imp_right (mem_cons_of_mem _)
  | .binary _ l r, h => by
    rcases mem_append.mp h with h | h
    · exact (mem_pointers l h).imp_right (mem_append_left _)
    · exact (mem_pointers r h).imp_right (mem_append_right _)
  | .unary _ e, h => mem_pointers e h
  | .cast _ e, h => mem_pointers e h

theorem mem_subscriptPointers {v : Var} : ∀ subscripts : List (Expr × Int64),
    v ∈ Expr.subscriptPointers subscripts →
      v.isPointer = true ∧ Use.var v ∈ Expr.subscriptUses subscripts
  | [], h => by cases h
  | (e, _) :: rest, h => by
    rcases mem_append.mp h with h | h
    · exact (mem_pointers e h).imp_right (mem_append_left _)
    · exact (mem_subscriptPointers rest h).imp_right (mem_append_right _)

theorem mem_argumentPointers {v : Var} : ∀ arguments : List (Expr × Bool),
    v ∈ Expr.argumentPointers arguments →
      v.isPointer = true ∧ Use.var v ∈ Expr.argumentUses arguments
  | [], h => by cases h
  | (e, byReference) :: rest, h => by
    rcases mem_append.mp h with h | h
    · have hmem : v ∈ e.pointers := by
        split at h
        · exact passedPointers_subset e h
        · exact h
      exact (mem_pointers e hmem).imp_right (mem_append_left _)
    · exact (mem_argumentPointers rest h).imp_right (mem_append_right _)

end

theorem Form.mem_pointers {v : Var} {f : Form} (h : v ∈ f.pointers) :
    v.isPointer = true ∧ Use.var v ∈ Expr.usesAll f.exprs := by
  have hone : ∀ c : Expr, Expr.usesAll [c] = c.uses := fun c => by simp [Expr.usesAll]
  cases f with
  | value c | target c =>
    rw [exprs, hone]
    exact C.mem_pointers c h
  | counter w =>
    rw [exprs, hone]
    exact C.mem_pointers (.var w) h
  | input c =>
    rw [exprs, hone]
    exact C.mem_pointers c (passedPointers_subset c h)
  | step name arguments =>
    rw [exprs, ← argumentUses_eq]
    exact mem_argumentPointers arguments h

/-! ## What is subscripted -/

/-- No pointer is subscripted in an expression. -/
def Expr.PlainArrays (c : Expr) : Prop := ∀ x ∈ c.elements, x.1.byReference = false

section

variable {env : Env}

theorem plainArrays_flatMap {cs : List Expr} (h : ∀ c ∈ cs, c.PlainArrays) :
    ∀ x ∈ cs.flatMap Expr.elements, x.1.byReference = false := by
  intro x hx
  obtain ⟨c, hc, hx⟩ := mem_flatMap.mp hx
  exact h c hc x hx

/-- Only arrays have subscripts, and references to arrays are never passed. -/
theorem place_plainArrays (lawful : env.Lawful) {p : Position} {name : String} {cs : List Expr}
    (hcs : ∀ c ∈ cs, c.PlainArrays) {c : Expr} (h : PlaceOf env p name cs c) :
    c.PlainArrays := by
  cases h with
  | var => exact forall_mem_nil _
  | @element item v _ found hv hsome hlength =>
    rw [Expr.PlainArrays, Expr.elements, Expr.subscriptElements_eq,
      flatMap_subscripts (fun _ => rfl) _ hlength]
    refine forall_mem_cons.mpr ⟨?_, plainArrays_flatMap hcs⟩
    unfold placeVar at hv
    split at hv
    · split at hv
      · exact (isResult_of_resultVar hv).2
      · cases hv
    · cases hv
      by_contra hreference
      have hscalar := (lawful item (Table.findPlace?_visible found)).reference
        (Bool.not_eq_false _ ▸ hreference)
      rw [hscalar] at hlength
      exact hsome (length_eq_zero_iff.mp (Nat.le_zero.mp hlength))

theorem convert_plainArrays (lawful : env.Lawful) : ∀ (e : MiniPascal.Expr) (c : Expr),
    convert env e = .ok c → c.PlainArrays := by
  refine convert_induct fun e c h => ?_
  cases h with
  | int | real | char | bool | string | routine => exact forall_mem_nil _
  | element parts hplace => exact place_plainArrays lawful (forall_right parts) hplace
  | name _ _ hplace => exact place_plainArrays lawful (forall_mem_nil _) hplace
  | call _ parts hcall =>
    rw [Expr.PlainArrays, Expr.elements, Expr.argumentElements_eq, hcall.fst]
    exact plainArrays_flatMap (forall_right parts)
  | binary hl hr | widened hl hr => exact forall_mem_append.mpr ⟨hl.2, hr.2⟩
  | plus he | minus he | not he => exact he.2

end

/-! ## What expressions are made of -/

/-- An expression whose variables stand for items, and in which no pointer is subscripted. -/
structure Env.Fits (env : Env) (c : Expr) : Prop where
  emitted : ∀ u ∈ c.uses, ∃ m, Emits env m u
  arrays : c.PlainArrays

/-- The values on record for the constants that can be named fit. -/
def Constants.Fit (known : Constants) (env : Env) : Prop :=
  ∀ item, env.table.Visible env.block item → item.kind = .const →
    ∀ c, known.lookup item.position = some c → env.Fits c

/-- A block whose constants and statements are made of expressions that fit. -/
structure Env.FitsBlock (env : Env) (b : Block) : Prop where
  uses : ∀ u ∈ b.uses, ∃ m, Emits env m u
  forms : ∀ f ∈ b.forms, ∀ c ∈ f.exprs, env.Fits c

section

variable {env : Env} {known known' : Constants} {c : Expr} {e : MiniPascal.Expr}

theorem literal_fits (h : c.isLiteral = true) : env.Fits c := by
  have hempty : c.uses = [] ∧ c.elements = [] := by
    unfold Expr.isLiteral at h
    split at h <;> first | exact ⟨rfl, rfl⟩ | cases h
  refine ⟨?_, ?_⟩
  · rw [hempty.1]
    exact forall_mem_nil _
  · rw [Expr.PlainArrays, hempty.2]
    exact forall_mem_nil _

section

variable (own : env.OwnResults) (lawful : env.Lawful)

include own lawful

theorem convert_fits (h : convert env e = .ok c) : env.Fits c := by
  refine ⟨fun u hu => ?_, convert_plainArrays lawful e c h⟩
  obtain ⟨m, _, hemits⟩ := exists_left_of_mem (convert_emits own.emitting e c h) hu
  exact ⟨m, hemits⟩

theorem target_fits {p : Position} {name : String} {indices : List MiniPascal.Expr}
    (h : target env p name indices = .ok c) : env.Fits c := by
  constructor
  · intro u hu
    obtain ⟨m, _, hemits⟩ := exists_left_of_mem (target_emits own.emitting h) hu
    exact ⟨m, hemits⟩
  · cases target_eq_ok h with
    | result => exact forall_mem_nil _
    | place _ lowered hplace =>
      refine place_plainArrays lawful (fun c hc => ?_) hplace
      obtain ⟨e, _, he⟩ := exists_left_of_mem (convertAll_eq_ok.mp lowered) hc
      exact convert_plainArrays lawful e c he

theorem Formed.fits {o : Operand} {f : Form} (h : Formed env o f) : ∀ c ∈ f.exprs, env.Fits c := by
  cases h with
  | value _ lowered => exact forall_mem_singleton.mpr (convert_fits own lawful lowered)
  | target _ _ lowered => exact forall_mem_singleton.mpr (target_fits own lawful lowered)
  | @counter p name item found kind type =>
    rw [← (Table.findData?_some found).2.1] at found
    refine forall_mem_singleton.mpr ⟨?_, forall_mem_nil _⟩
    exact forall_mem_singleton.mpr ⟨_, .data found⟩
  | input _ _ lowered => exact forall_mem_singleton.mpr (convert_fits own lawful lowered)
  | step _ lowered =>
    intro c hc
    obtain ⟨a, ha, rfl⟩ := mem_map.mp hc
    obtain ⟨e, _, he⟩ := exists_left_of_mem (forms_of_step lowered) ha
    exact convert_fits own lawful he

theorem constantValue_fits (hknown : known.Fit env) (h : constantValue env known e = .ok c) :
    env.Fits c := by
  rcases constantValue_cases h with ⟨_, _, item, _, hn, hk, hlookup⟩ | hlowered
  · exact hknown item (Table.resolve_visible hn) hk c hlookup
  · exact convert_fits own lawful hlowered

theorem lowerConsts_fit {ds : List ConstDecl} {cs : List Constant} (hknown : known.Fit env)
    (h : lowerConsts env known ds = .ok (cs, known')) : ∀ c ∈ cs, env.Fits c.value := by
  induction ds generalizing known cs with
  | nil =>
    cases h
    exact forall_mem_nil _
  | cons d ds ih =>
    obtain ⟨value, type, rest, hvalue, _, hrest, rfl⟩ := lowerConsts_cons.mp h
    have hfits := constantValue_fits own lawful hknown hvalue
    refine forall_mem_cons.mpr ⟨hfits, ih (fun item hv hk c hc => ?_) hrest⟩
    by_cases hd : item.position = d.position
    · rw [hd, lookup_cons, beq_self_eq_true] at hc
      cases hc
      exact hfits
    · rw [lookup_cons_of_ne hd] at hc
      exact hknown item hv hk c hc

end

theorem Emits.byReference_of_isResult {m : Mention} {v : Var} (h : Emits env m (.var v))
    (hresult : v.isResult = true) : v.byReference = false := by
  cases h with
  | data _ => cases hresult
  | result _ _ named => exact (isResult_of_resultVar named).2

theorem Var.text_of_flag {v : Var} (hresult : v.isResult = true → v.byReference = false) :
    if v.byReference then
      v.text = "*" ++ identifier v.name ∧ (Expr.var v).address v.text = identifier v.name
    else v.text = v.written ∧ (Expr.var v).address v.text = "&" ++ v.written := by
  obtain ⟨name, byReference, isResult⟩ := v
  cases byReference <;> cases isResult <;> simp_all [Var.text, Var.written, Expr.address]

theorem Env.FitsBlock.disciplined {pointers : List String} {b : Block} (h : env.FitsBlock b)
    (hflags : ∀ m v, Emits env m (.var v) → (v.byReference = true ↔ v.name ∈ pointers)) :
    b.Disciplined pointers where
  flags := by
    intro v hv
    obtain ⟨m, hemits⟩ := h.uses _ hv
    exact hflags m v hemits
  results := by
    intro v hv
    obtain ⟨m, hemits⟩ := h.uses _ hv
    exact hemits.byReference_of_isResult
  written := by
    intro v hv
    obtain ⟨m, hemits⟩ := h.uses _ hv
    have htext := Var.text_of_flag hemits.byReference_of_isResult
    simpa only [hflags m v hemits] using htext
  subscripted := fun f hf c hc => (h.forms f hf c hc).arrays
  dereferenced := by
    intro f hf
    have hpointers : ∀ v ∈ f.pointers, v.byReference = true ∧ v.isResult = false := by
      intro v hv
      simpa [Var.isPointer] using (Form.mem_pointers hv).1
    constructor
    · intro v hv
      obtain ⟨c, hc, hu⟩ := mem_flatMap.mp (Form.mem_pointers hv).2
      obtain ⟨m, hemits⟩ := (h.forms f hf c hc).emitted _ hu
      exact (hflags m v hemits).mp (hpointers v hv).1
    · rw [f.dereferenced_trees]
      refine map_congr_left fun v hv => ?_
      rw [Var.written, (hpointers v hv).2]
      rfl

end

/-! ## Which variables are pointers -/

section

variable {p : MiniPascal.Program} {folding : Bool} {q : Program} {item : Item}

theorem byReference_of_mem_varItems {vars : List VarDecl} (hi : item ∈ vars.flatMap varItems) :
    item.byReference = false := by
  obtain ⟨d, _, hi⟩ := mem_flatMap.mp hi
  obtain ⟨_, _, rfl⟩ := mem_map.mp hi
  rfl

theorem byReference_of_mem_rootItems (hi : item ∈ rootItems p) : item.byReference = false := by
  rcases mem_rootItems.mp hi with hi | hi | ⟨s, _, rfl⟩
  · exact byReference_of_mem_constItems hi
  · exact byReference_of_mem_varItems hi
  · rfl

variable {s : Subprogram} {r : Routine} {env : Env} {t : Table} {known : Constants} {σ : Run.Store}
  {m : Mention} {before after : List Subprogram}

theorem mem_paramItems_of_byReference (hi : item ∈ subprogramItems 0 t s)
    (h : item.byReference = true) : item ∈ s.heading.groups.flatMap paramItems := by
  rcases mem_subprogramItems.mp hi with hi | hi | hi | hi
  · exact hi
  · obtain ⟨type, _, rfl⟩ := mem_map.mp hi
    cases h
  · cases (byReference_of_mem_constItems hi).symm.trans h
  · cases (byReference_of_mem_varItems hi).symm.trans h

theorem RoutineOf.pointers_eq (h : RoutineOf env s r) : r.pointers =
      ((s.heading.groups.flatMap paramItems).filter Item.byReference).map Item.name := by
  rw [Routine.pointers, h.params]
  simp [C.params, paramItems, filter_flatMap, map_flatMap, filter_map,
    Function.comp_def]

theorem RoutineOf.pointers_subset (h : RoutineOf env s r) : r.pointers ⊆ s.heading.paramNames := by
  rw [h.pointers_eq, ← map_name_paramItems]
  exact map_subset _ (filter_subset_self _)

theorem RoutineOf.byReference_iff (h : RoutineOf env s r) (hnodup : s.dataNames.Nodup)
    (hi : item ∈ subprogramItems 0 t s) (hdata : item.isData = true) :
    item.byReference = true ↔ item.name ∈ r.pointers := by
  constructor
  · intro href
    rw [h.pointers_eq]
    exact mem_map_of_mem (mem_filter.mpr ⟨mem_paramItems_of_byReference hi href, href⟩)
  · intro hname
    have hparam := mem_paramItems hnodup hi hdata (h.pointers_subset hname)
    rw [h.pointers_eq] at hname
    obtain ⟨other, hother, heq⟩ := mem_map.mp hname
    obtain ⟨hother, href⟩ := mem_filter.mp hother
    have hunique : ((s.heading.groups.flatMap paramItems).map Item.name).Nodup := by
      rw [map_name_paramItems]
      exact (nodup_append'.mp hnodup).1
    rwa [inj_on_of_nodup_map hunique hother hparam heq] at href

theorem Assembled.flags_inside (accepted : Accepted p) (h : Assembled p folding q)
    (hs : p.subprograms = before ++ s :: after)
    (hr : RoutineOf (Env.inside p folding before s) s r) {v : Var}
    (he : Emits (Env.inside p folding before s) m (.var v)) :
    v.byReference = true ↔ v.name ∈ r.pointers := by
  have houtside : ∀ name, name ∉ s.dataNames → name ∉ r.pointers := fun name hname hmem =>
    hname (mem_append_left _ (hr.pointers_subset hmem))
  cases he with
  | @data item found =>
    rcases findData?_inside hs found with ⟨hi, _⟩ | ⟨hi, _, hown⟩
    · exact hr.byReference_iff (dataNames_nodup_subprogram accepted hs) hi
        (Table.findData?_some found).1
    · exact iff_of_false (Bool.eq_false_iff.mp (byReference_of_mem_rootItems hi))
        (houtside _ hown)
  | result around own named =>
    obtain rfl := function_inside around
    obtain ⟨type, htype, rfl⟩ := mem_map.mp own
    have hlookup := hr.result_lookup (hr.result_eq (Option.mem_toList.mp htype) named)
    have hnew := ((h.named accepted).2.2 _ _ hlookup).2.1
    exact iff_of_false (Bool.eq_false_iff.mp (isResult_of_resultVar named).2)
      (houtside _ fun hmem => hnew (dataNames_subset hs hmem))

theorem flags_outside {v : Var} (he : Emits (Env.ofProgram p folding) m (.var v)) :
    v.byReference = true ↔ v.name ∈ ([] : List String) := by
  refine iff_of_false ?_ not_mem_nil
  cases he with
  | data found =>
    have hi := visible_root (finished_root p) (Table.findData?_some found).2.2
    exact Bool.eq_false_iff.mp (byReference_of_mem_rootItems hi)
  | result around => cases around

/-! ## What blocks are made of -/

theorem fitsBlock {b : Block} (hconstants : ∀ c ∈ b.declarations.constants, env.Fits c.value)
    (huses : ∀ u ∈ Statement.usesAll b.statements, ∃ m, Emits env m u)
    (hforms : ∀ f ∈ Statement.formsAll b.statements, ∀ c ∈ f.exprs, env.Fits c) :
    env.FitsBlock b := by
  constructor
  · refine forall_mem_append.mpr ⟨fun u hu => ?_, huses⟩
    obtain ⟨value, hvalue, hu⟩ := mem_flatMap.mp hu
    obtain ⟨c, hc, rfl⟩ := mem_map.mp hvalue
    exact (hconstants c hc).emitted u hu
  · refine forall_mem_append.mpr ⟨fun f hf => ?_, hforms⟩
    obtain ⟨c, hc, rfl⟩ := mem_map.mp hf
    exact forall_mem_singleton.mpr (hconstants c hc)

theorem PartOf.fitsBlock (accepted : Accepted p) {a : Part} {scope : List Declaration} {b : Block}
    (h : PartOf p folding q a (scope, b.statements))
    (hconstants : ∀ c ∈ b.declarations.constants, a.env.Fits c.value) : a.env.FitsBlock b := by
  refine C.fitsBlock hconstants (fun u hu => ?_) (fun f hf => ?_)
  · obtain ⟨m, _, hemits⟩ := exists_left_of_mem h.emits hu
    exact ⟨m, hemits⟩
  · obtain ⟨o, _, hformed⟩ := exists_left_of_mem (h.formed accepted) hf
    exact hformed.fits h.ownResults h.lawful

theorem mem_constItems (hi : item ∈ subprogramItems 0 t s) (hk : item.kind = .const) :
    item ∈ constItems (opened 0 t s.heading) t.blocks.length s.body.consts := by
  rcases mem_subprogramItems.mp hi with hi | hi | hi | hi
  · cases (kind_of_mem_paramItems hi).symm.trans hk
  · obtain ⟨type, _, rfl⟩ := mem_map.mp hi
    cases hk
  · exact hi
  · cases (kind_of_mem_varItems hi).symm.trans hk

theorem fit_inside (hs : p.subprograms = before ++ s :: after)
    (recorded : ∀ i ∈ rootItems p, i.kind = .const → known.Records σ i)
    (fresh : Fresh known (s.body.consts.map ConstDecl.position)) :
    known.Fit (Env.inside p folding before s) := by
  intro item hv hk c hc
  rcases visible_subprogram (finished_root p) (getElem?_finished hs) hv with hi | hi
  · have hposition : item.position ∈ s.body.consts.map ConstDecl.position := by
      rw [← map_position_constItems]
      exact mem_map_of_mem (mem_constItems hi hk)
    cases (fresh.absent _ hposition).symm.trans hc
  · obtain ⟨_, c', hc', hdenotes⟩ := recorded item hi hk
    cases hc'.symm.trans hc
    exact literal_fits hdenotes.isLiteral

theorem lowerSubprograms_fit (accepted : Accepted p) (hs : p.subprograms = before ++ after)
    (recorded : ∀ i ∈ rootItems p, i.kind = .const → known.Records σ i)
    (fresh : Fresh known (after.flatMap Subprogram.places)) {rs : List Routine}
    (h : lowerSubprograms (Env.ofProgram p folding) known after = .ok rs) :
    ∀ r ∈ rs, ∃ before s after, p.subprograms = before ++ s :: after ∧
      RoutineOf (Env.inside p folding before s) s r ∧
      ∀ c ∈ r.body.declarations.constants, (Env.inside p folding before s).Fits c.value := by
  induction after generalizing before known rs with
  | nil =>
    cases h
    exact forall_mem_nil _
  | cons s after ih =>
    obtain ⟨r, known', rest, hr, hrest, rfl⟩ := lowerSubprograms_cons.mp h
    obtain ⟨hof, hdeclarations⟩ := lowerSubprogram_ok accepted hs hr
    have hconsts := lowerDeclarations_consts hdeclarations
    have hplaces := fresh.sublist (sublist_cons_self _ _)
    have hfresh := hplaces.sublist (sublist_append_left _ _)
    have hfits := lowerConsts_fit (ownResults_inside folding hs) (lawful_inside folding hs)
      (fit_inside hs recorded hfresh) hconsts
    have hs' : p.subprograms = (before ++ [s]) ++ after := by rw [hs, append_assoc]; rfl
    refine forall_mem_cons.mpr ⟨⟨before, s, after, hs, hof, hfits⟩, ?_⟩
    exact ih hs' (fun i hi hk => (recorded i hi hk).lowerConsts hfresh hconsts)
      (hplaces.lowerConsts hconsts) hrest

theorem Assembled.routines_fit (accepted : Accepted p) (h : Assembled p folding q) :
    ∀ r ∈ q.routines, ∃ before s after, p.subprograms = before ++ s :: after ∧
      RoutineOf (Env.inside p folding before s) s r ∧
      ∀ c ∈ r.body.declarations.constants, (Env.inside p folding before s).Fits c.value := by
  obtain ⟨known, hdeclarations, hroutines⟩ := h.lowered
  have hconsts := lowerDeclarations_consts hdeclarations
  have fresh : Fresh [] (p.body.consts.map ConstDecl.position ++
      p.subprograms.flatMap Subprogram.places) :=
    ⟨(nodup_cons.mp accepted.places).2, fun _ _ => rfl⟩
  -- That the constants of the program are literals holds in every store.
  obtain ⟨cs, known', σ, hcs, _, recorded⟩ := outermost_kept folding accepted
    (fresh.sublist (sublist_append_left _ _))
    ⟨fun _ _ => .string "", fun _ _ => .error .mistyped⟩
  cases hcs.symm.trans hconsts
  have hall : p.subprograms = [] ++ p.subprograms := rfl
  exact lowerSubprograms_fit accepted hall recorded (fresh.lowerConsts hconsts) hroutines

theorem Assembled.outside_fit (h : Assembled p folding q) :
    ∀ c ∈ q.outside.constants, (Env.ofProgram p folding).Fits c.value := by
  obtain ⟨known, hdeclarations, _⟩ := h.lowered
  have hempty : Constants.Fit [] (Env.ofProgram p folding) := by
    intro item _ _ c hc
    cases hc
  exact lowerConsts_fit (ownResults_ofProgram p folding) (lawful_ofProgram p folding) hempty
    (lowerDeclarations_consts hdeclarations)

end

/-- In a lowered source exactly the parameters by reference are pointers, inside of their routines,
and each is dereferenced where its value is used. -/
theorem pointers_kept {source : String} {p : MiniPascal.Program}
    (hparse : parse (scan source) = .ok (p, [])) (hclean : (analyze p).isClean = true)
    {level : Nat} {q : Program} (hlower : lower p (analyze p).table (foldsAt level) = .ok q) :
    PointersKept q := by
  obtain ⟨accepted, assembled⟩ := assembled_of_source hparse hclean hlower
  obtain ⟨hglobals, hmain⟩ := assembled.forall_outside assembled.outside_fit
  refine ⟨?_, ?_, fun r hr => ?_⟩
  · exact (fitsBlock hglobals (List.forall_mem_nil _) (List.forall_mem_nil _)).disciplined
      fun _ _ => flags_outside
  · have hpart : PartOf p (foldsAt level) q _ _ := .main assembled.statements
    exact (hpart.fitsBlock accepted hmain).disciplined fun _ _ => flags_outside
  · obtain ⟨before, s, after, hs, hof, hconstants⟩ := assembled.routines_fit accepted r hr
    have hpart : PartOf p (foldsAt level) q _ _ := .routine hs hof
    exact (hpart.fitsBlock accepted hconstants).disciplined fun _ _ =>
      assembled.flags_inside accepted hs hof

/-- Pointers that count, are read, are passed on and are used for their values, one of them with the
name of a variable of the program, and a constant that names a variable. -/
def pointing : String := "program p; const n = 3; var x: integer; a: array[1..3] of real;
  function f(var x: integer; y: integer): integer; const c = n; var n: integer;
    begin for x := 1 to y do n := x + c; f := f(x, n) + f(y, x) end;
  procedure g(var r: real; x: integer);
    begin read(r, a[x]); g(r, f(x, x)); g(a[x], 1); r := -r / x end;
  begin x := n; g(a[x], f(x, x)) end."

set_option maxRecDepth 2000 in
theorem pointing_pointers_kept : ∃ (p : MiniPascal.Program) (q : Program),
    parse (scan pointing) = .ok (p, []) ∧ (analyze p).isClean = true ∧
      lower p (analyze p).table (foldsAt 1) = .ok q ∧
      q.routines.map (fun r => (r.pointers, r.body.forms.map fun f => f.pointers.map Var.name)) =
        [(["x"], [[], ["x"], [], [], [], ["x"], [], ["x"]]),
          (["r"], [[], [], [], [], ["r"], ["r"]])] ∧
      PointersKept q :=
  exists_lowered_and rfl (by decide +kernel) fun hp hclean hlower => pointers_kept hp hclean hlower

end MiniPascal.C
