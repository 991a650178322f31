import Mathlib.Data.Option.Basic
import MiniPascal.C.OfProgram
import MiniPascal.Proofs.RelocatedChecking

/-!
# Lowering a text of another layout

Under a change that keeps different places apart, a relocated program has the same C program, or
fails in the same way at another place (`lower_moved`).
-/

namespace MiniPascal

section Folding

variable (f : Position → Position)

@[simp]
theorem Value.ofExpr?_moved (e : Expr) : ofExpr? (e.moved f) = ofExpr? e := by
  cases e <;> rfl

theorem Value.toExpr_moved (v : Value) (p : Position) : v.toExpr (f p) = (v.toExpr p).moved f := by
  cases v <;> rfl

namespace Expr

mutual

@[simp]
theorem fold_moved : ∀ e : Expr, (e.moved f).fold = (e.fold.1.moved f, e.fold.2)
  | .int .. | .real .. | .char .. | .bool .. | .string .. | .name .. => by simp only [moved, fold]
  | .element p n indices => by simp only [moved, fold, foldAll_moved indices]
  | .call p n arguments => by simp only [moved, fold, foldAll_moved arguments]
  | .binary p op left right => by
    simp only [moved, fold, fold_moved left, fold_moved right, Value.ofExpr?_moved,
      Value.toExpr_moved]
    split <;> rfl
  | .unary p op operand => by
    simp only [moved, fold, fold_moved operand, Value.ofExpr?_moved, Value.toExpr_moved]
    split <;> rfl

theorem foldAll_moved : ∀ es : List Expr, foldAll (allMoved f es) = allMoved f (foldAll es)
  | [] => rfl
  | e :: es => by simp only [allMoved, foldAll, fold_moved e, foldAll_moved es]

end

end Expr

end Folding

namespace C

open Scope

def LoweringError.moved (f : Position → Position) (e : LoweringError) : LoweringError :=
  { e with position := f e.position }

namespace Lower

variable {α β : Type} (f : Position → Position)

def moved (x : Lower α) : Lower α := x.mapError (LoweringError.moved f)

@[simp]
theorem moved_bind (x : Lower α) (g : α → Lower β) :
    moved f (x >>= g) = moved f x >>= fun a => moved f (g a) := by
  cases x <;> rfl

@[simp]
theorem moved_map (x : Lower α) (g : α → β) : moved f (g <$> x) = g <$> moved f x := by
  cases x <;> rfl

@[simp]
theorem moved_ok (a : α) : moved f (.ok a) = .ok a := rfl

@[simp]
theorem moved_pure (a : α) : moved f (pure a) = pure a := rfl

@[simp]
theorem moved_fail (fault : LoweringFault) (p : Position) :
    moved f (fail fault p : Lower α) = fail fault (f p) := rfl

@[simp]
theorem moved_ite (c : Prop) [Decidable c] (x y : Lower α) :
    moved f (if c then x else y) = if c then moved f x else moved f y := apply_ite ..

end Lower

@[simp]
theorem lookup_moved {α : Type} {f : Position → Position} (hf : Function.Injective f)
    (m : List (Position × α)) (p : Position) :
    (m.map (Prod.map f id)).lookup (f p) = m.lookup p := by
  induction m with
  | nil => rfl
  | cons entry m ih =>
    obtain ⟨q, a⟩ := entry
    simp only [List.map_cons, Prod.map_apply, List.lookup_cons, ih, id_eq, beq_eq_decide,
      hf.eq_iff]

namespace Naming

variable (f : Position → Position)

def moved (n : Naming) : Naming := { n with names := n.names.map (Prod.map f id) }

theorem routines_moved (all : List String) (earlier : List String) (hs : List Heading)
    (n : Naming) : routines all earlier (hs.map (Heading.moved f)) (n.moved f) =
      (routines all earlier hs n).moved f := by
  induction hs generalizing earlier n with
  | nil => rfl
  | cons h hs ih =>
    rw [List.map_cons, routines, routines, show (h.moved f).name = h.name from rfl, ← ih]
    split <;> rfl

theorem results_moved (hs : List Heading) (n : Naming) :
    results (hs.map (Heading.moved f)) (n.moved f) = (results hs n).moved f := by
  unfold results
  rw [List.filter_map]
  exact Analysis.foldl_moved (g := moved f) (m := Heading.moved f) (fun _ _ => rfl) _ n

end Naming

@[simps]
def Names.moved (f : Position → Position) (n : Names) : Names :=
  ⟨n.routines.map (Prod.map f id), n.results.map (Prod.map f id)⟩

theorem Names.ofProgram_moved (f : Position → Position) (p : MiniPascal.Program)
    (declared : List String) :
    Names.ofProgram (p.moved f) declared = (Names.ofProgram p declared).moved f := by
  have hheadings : (p.moved f).subprograms.map Subprogram.heading =
      (p.subprograms.map Subprogram.heading).map (Heading.moved f) := by
    simp [Function.comp_def]
  have hnames : ∀ hs : List Heading, (hs.map (Heading.moved f)).map Heading.name =
      hs.map Heading.name := fun _ => List.map_map
  have hroutines : ∀ all hs,
      Naming.routines all [] (List.map (Heading.moved f) hs) ⟨[], declared⟩ = _ :=
    fun all hs => Naming.routines_moved f all [] hs ⟨[], declared⟩
  simp only [ofProgram, hheadings, hnames, hroutines]
  exact congrArg (Names.mk _ ·.names) (Naming.results_moved f _ ⟨[], _⟩)

@[simps]
def Env.moved (f : Position → Position) (env : Env) : Env :=
  { env with
    table := env.table.moved f
    names := env.names.moved f
    subprogram := env.subprogram.map (Heading.moved f) }

section Expressions

variable {f : Position → Position} (hf : Function.Injective f) (env : Env)

@[simp]
theorem function_moved (f : Position → Position) :
    (env.moved f).function = env.function.map (Heading.moved f) := by
  simp only [Env.function, Env.moved_subprogram]
  cases env.subprogram with
  | none => rfl
  | some h => exact Analysis.functionOf_moved f h

@[simp]
theorem typeOf_moved (f : Position → Position) (e : MiniPascal.Expr) :
    (env.moved f).typeOf (e.moved f) = env.typeOf e := by
  simp [Env.typeOf]

@[simp]
theorem arguments_moved (f : Position → Position) (es : List MiniPascal.Expr) :
    (env.moved f).arguments (MiniPascal.Expr.allMoved f es) = env.arguments es := by
  simp [Env.arguments]

@[simp]
theorem builtin?_moved (f : Position → Position) (name : String) :
    (env.moved f).builtin? name = env.builtin? name := by
  simp [Env.builtin?]

@[simp]
theorem ofBase_moved (f : Position → Position) (base : MiniPascal.Ty.Base) (p : Position) :
    Lower.moved f (Ty.ofBase base p) = Ty.ofBase base (f p) := by
  cases base <;> rfl

@[simp]
theorem widens_moved (f : Position → Position) (op : MiniPascal.BinaryOp)
    (left right : MiniPascal.Expr) :
    widens (env.moved f) op (left.moved f) (right.moved f) = widens env op left right := by
  simp [widens]

include hf

@[simp]
theorem routineName_moved (name : String) (p : Position) :
    Lower.moved f (routineName env name p) = routineName (env.moved f) name (f p) := by
  simp only [routineName, Env.moved_names, Names.moved_routines, lookup_moved hf]
  cases env.names.routines.lookup p <;> rfl

@[simp]
theorem resultVar_moved (h : Heading) :
    Lower.moved f (resultVar env h) = resultVar (env.moved f) (h.moved f) := by
  simp only [resultVar, Env.moved_names, Names.moved_results, Heading.moved_position,
    Heading.moved_name, lookup_moved hf]
  cases env.names.results.lookup h.position <;> rfl

@[simp]
theorem placeVar_moved (p : Position) (item : Item) (name : String) :
    Lower.moved f (placeVar env p item name) =
      placeVar (env.moved f) (f p) (item.moved f) name := by
  simp only [placeVar, function_moved, Item.moved_kind, Lower.moved_ite]
  cases env.function <;> simp [hf, itemVar]

@[simp]
theorem place_moved (p : Position) (name : String) (count : Nat) (indices : Lower (List Expr)) :
    Lower.moved f (place env p name count indices) =
      place (env.moved f) (f p) name count (Lower.moved f indices) := by
  simp only [place, Env.moved_table, Env.moved_block, Table.findPlace?_moved]
  cases env.table.findPlace? env.block name <;> simp [hf]

@[simp]
theorem callOf_moved (p : Position) (name : String) (args : List Argument)
    (values : Lower (List Expr)) : Lower.moved f (callOf env p name args values) =
      callOf (env.moved f) (f p) name args (Lower.moved f values) := by
  simp only [callOf, Env.moved_table, Env.moved_block, Table.findRoutine_moved]
  cases env.table.findRoutine env.block name args <;> simp [hf, Except.map]

end Expressions

mutual

theorem convert_moved {f : Position → Position} (hf : Function.Injective f) (env : Env) :
    ∀ e : MiniPascal.Expr, Lower.moved f (convert env e) = convert (env.moved f) (e.moved f)
  | .int .. | .real .. | .char .. | .bool .. | .string .. => by
    simp only [MiniPascal.Expr.moved, convert, Lower.moved_ok]
  | .name p n => by
    simp only [MiniPascal.Expr.moved, convert, Env.moved_table, Env.moved_block,
      Table.resolve_moved]
    cases env.table.resolve env.block n <;> simp [hf, Except.map]
  | .element p n indices => by
    simp [hf, MiniPascal.Expr.moved, convert, convertAll_moved hf env indices]
  | .call p n arguments => by
    simp [hf, MiniPascal.Expr.moved, convert, convertAll_moved hf env arguments]
  | .binary p op left right => by
    simp [MiniPascal.Expr.moved, convert, convert_moved hf env left, convert_moved hf env right]
  | .unary p op operand => by
    simp only [MiniPascal.Expr.moved, convert, Lower.moved_bind, convert_moved hf env operand]
    cases op <;> rfl

theorem convertAll_moved {f : Position → Position} (hf : Function.Injective f) (env : Env) :
    ∀ es : List MiniPascal.Expr,
    Lower.moved f (convertAll env es) = convertAll (env.moved f) (MiniPascal.Expr.allMoved f es)
  | [] => rfl
  | e :: es => by
    simp [MiniPascal.Expr.allMoved, convertAll, convert_moved hf env e, convertAll_moved hf env es]

end

section Statements

variable {f : Position → Position} (hf : Function.Injective f) (env : Env)

theorem prepared_moved (f : Position → Position) (e : MiniPascal.Expr) :
    (env.prepared e).moved f = (env.moved f).prepared (e.moved f) := by
  rw [Env.prepared, Env.prepared, MiniPascal.Expr.fold_moved, Env.moved_folding]
  split <;> rfl

@[simp]
theorem counterVar_moved (f : Position → Position) (p : Position) (name : String) :
    Lower.moved f (counterVar env p name) = counterVar (env.moved f) (f p) name := by
  simp only [counterVar, Env.moved_table, Env.moved_block, Table.findData?_moved]
  cases env.table.findData? env.block name <;> rfl

theorem format_value {env : Env} {b : Builtin} {e : MiniPascal.Expr} {es : List MiniPascal.Expr}
    (h : b.isOutput = true → ∀ p text, e ≠ .string p text) : format env b (e :: es) = (do
      let type ← Ty.ofBase (env.typeOf e).base e.position
      let value ← lowerExpr env e
      let (rest, values) ← format env b es
      return ((if b.isOutput then type.printed else type.scanned) ++ rest, value :: values)) := by
  rw [format]
  exact fun p text hout he => h hout p text he

include hf

@[simp]
theorem lowerExpr_moved (e : MiniPascal.Expr) :
    Lower.moved f (lowerExpr env e) = lowerExpr (env.moved f) (e.moved f) := by
  rw [lowerExpr, lowerExpr, convert_moved hf, prepared_moved]

@[simp]
theorem lowerExprs_moved (es : List MiniPascal.Expr) : Lower.moved f (lowerExprs env es) =
      lowerExprs (env.moved f) (MiniPascal.Expr.allMoved f es) := by
  simp [lowerExprs, convertAll_moved hf, MiniPascal.Expr.allMoved_eq_map, Function.comp_def,
    prepared_moved]

@[simp]
theorem target_moved (p : Position) (name : String) (indices : List MiniPascal.Expr) :
    Lower.moved f (target env p name indices) =
      target (env.moved f) (f p) name (MiniPascal.Expr.allMoved f indices) := by
  simp only [target, function_moved]
  cases env.function <;> cases indices <;> simp [hf, MiniPascal.Expr.allMoved]

@[simp]
theorem format_moved (b : Builtin) (es : List MiniPascal.Expr) :
    Lower.moved f (format env b es) = format (env.moved f) b (MiniPascal.Expr.allMoved f es) := by
  induction es with
  | nil => rfl
  | cons e es ih =>
    by_cases htext : b.isOutput = true ∧ ∃ p text, e = .string p text
    · obtain ⟨hout, p, text, rfl⟩ := htext
      simp [MiniPascal.Expr.allMoved, MiniPascal.Expr.moved, format, hout, ih]
    · have hmoved : b.isOutput = true → ∀ p text, e.moved f ≠ .string p text := by
        intro hout p text he
        cases e with
        | string q v => exact htext ⟨hout, q, v, rfl⟩
        | _ => cases he
      rw [format_value fun hout p text he => htext ⟨hout, p, text, he⟩, MiniPascal.Expr.allMoved,
        format_value hmoved]
      simp [hf, ih]

@[simp]
theorem leaving_moved : Lower.moved f (leaving env) = leaving (env.moved f) := by
  simp only [leaving, Env.moved_subprogram]
  cases env.subprogram <;> simp [hf]

end Statements

mutual

theorem lowerStatement_moved {f : Position → Position} (hf : Function.Injective f) (env : Env) :
    ∀ s : MiniPascal.Statement,
    Lower.moved f (lowerStatement env s) = lowerStatement (env.moved f) (s.moved f)
  | .assign p name indices value => by simp [hf, MiniPascal.Statement.moved, lowerStatement]
  | .call p name arguments => by
    simp only [MiniPascal.Statement.moved, lowerStatement, builtin?_moved]
    cases env.builtin? name <;> simp [hf, builtinCall]
  | .compound p parts => by
    simp [MiniPascal.Statement.moved, lowerStatement, lowerStatements_moved hf env parts]
  | .branch p condition onTrue none => by
    simp [hf, MiniPascal.Statement.moved, lowerStatement, lowerStatement_moved hf env onTrue]
  | .branch p condition onTrue (some onFalse) => by
    simp [hf, MiniPascal.Statement.moved, lowerStatement, lowerStatement_moved hf env onTrue,
      lowerStatement_moved hf env onFalse]
  | .count p counter first last direction body => by
    simp [hf, MiniPascal.Statement.moved, lowerStatement, lowerStatement_moved hf env body]
  | .loop p condition body => by
    simp [hf, MiniPascal.Statement.moved, lowerStatement, lowerStatement_moved hf env body]
  | .exit p => by simp [hf, MiniPascal.Statement.moved, lowerStatement]

theorem lowerStatements_moved {f : Position → Position} (hf : Function.Injective f) (env : Env) :
    ∀ ss : List MiniPascal.Statement, Lower.moved f (lowerStatements env ss) =
      lowerStatements (env.moved f) (MiniPascal.Statement.allMoved f ss)
  | [] => rfl
  | s :: ss => by
    simp [MiniPascal.Statement.allMoved, lowerStatements, lowerStatement_moved hf env s,
      lowerStatements_moved hf env ss]

end

mutual

theorem endsProgram_moved (f : Position → Position) :
    ∀ s : MiniPascal.Statement, endsProgram (s.moved f) = endsProgram s
  | .assign .. | .call .. | .exit _ => rfl
  | .compound _ parts => anyEndsProgram_moved f parts
  | .branch _ _ onTrue none => endsProgram_moved f onTrue
  | .branch _ _ onTrue (some onFalse) =>
    congrArg₂ or (endsProgram_moved f onTrue) (endsProgram_moved f onFalse)
  | .count _ _ _ _ _ body | .loop _ _ body => endsProgram_moved f body

theorem anyEndsProgram_moved (f : Position → Position) : ∀ ss : List MiniPascal.Statement,
    anyEndsProgram (MiniPascal.Statement.allMoved f ss) = anyEndsProgram ss
  | [] => rfl
  | s :: ss => congrArg₂ or (endsProgram_moved f s) (anyEndsProgram_moved f ss)

end

section Programs

variable {f : Position → Position} (hf : Function.Injective f) (env : Env)

def Constants.moved (f : Position → Position) (known : Constants) : Constants :=
  known.map (Prod.map f id)

@[simp]
theorem sizes_moved (f : Position → Position) (p : Position) (periods : List Period) :
    Lower.moved f (sizes p periods) = sizes (f p) periods := by
  induction periods with
  | nil => rfl
  | cons period rest ih =>
    simp only [sizes]
    cases period.size? <;> simp [ih]

@[simp]
theorem arrays_moved (f : Position → Position) (ds : List VarDecl) :
    Lower.moved f (arrays ds) = arrays (ds.map (VarDecl.moved f)) := by
  induction ds with
  | nil => rfl
  | cons d ds ih => simp [arrays, ih]

theorem scalars_moved (f : Position → Position) (ds : List VarDecl) :
    (ds.map (VarDecl.moved f)).flatMap scalars = ds.flatMap scalars := List.flatMap_map _ _ _

theorem params_moved (f : Position → Position) (h : Heading) : params (h.moved f) = params h :=
  List.flatMap_map _ _ _

include hf

variable (known : Constants)

theorem constantValue_moved (e : MiniPascal.Expr) :
    Lower.moved f (constantValue env known e) =
      constantValue (env.moved f) (known.moved f) (e.moved f) := by
  cases e with
  | name p n =>
    have hname := lowerExpr_moved hf env (.name p n)
    simp only [constantValue, MiniPascal.Expr.moved, Env.moved_table, Env.moved_block,
      Table.resolve_moved] at hname ⊢
    cases env.table.resolve env.block n with
    | error e => exact hname
    | ok item =>
      simp only [Except.map, Lower.moved_ite, hname, Item.moved_kind, Item.moved_position,
        Constants.moved, lookup_moved hf]
      cases known.lookup item.position <;> rfl
  | _ => exact lowerExpr_moved hf env _

@[simp]
theorem lowerConsts_moved (ds : List ConstDecl) :
    lowerConsts (env.moved f) (known.moved f) (ds.map (ConstDecl.moved f)) =
      Lower.moved f (Prod.map id (Constants.moved f) <$> lowerConsts env known ds) := by
  induction ds generalizing known with
  | nil => rfl
  | cons d ds ih =>
    have hknown : ∀ value, ((f d.position, value) :: known.moved f : Constants) =
      Constants.moved f ((d.position, value) :: known) := fun _ => rfl
    simp [lowerConsts, constantValue_moved hf, hknown, ih]

@[simp]
theorem lowerDeclarations_moved (body : Body) :
    lowerDeclarations (env.moved f) (known.moved f) (body.moved f) =
      Lower.moved f (Prod.map id (Constants.moved f) <$> lowerDeclarations env known body) := by
  simp [hf, lowerDeclarations, scalars_moved]

theorem blockFor_moved (t : Table) (name : String) (p : Position) :
    Lower.moved f (blockFor t name p) = blockFor (t.moved f) name (f p) := by
  simp only [blockFor, Table.blockAt?, Table.moved_keys, lookup_moved hf]
  cases t.keys.lookup p <;> rfl

@[simp]
theorem result_moved (h : Heading) :
    Lower.moved f (result env h) = result (env.moved f) (h.moved f) := by
  simp only [result, Heading.moved_returns]
  cases h.returns <;> simp [hf]

@[simp]
theorem lowerSubprogram_moved (s : Subprogram) :
    lowerSubprogram (env.moved f) (known.moved f) (s.moved f) =
      Lower.moved f (Prod.map id (Constants.moved f) <$> lowerSubprogram env known s) := by
  have hinner : ∀ block,
      ({ env.moved f with block, subprogram := some (s.heading.moved f) } : Env) =
        Env.moved f { env with block, subprogram := some s.heading } := fun _ => rfl
  simp only [lowerSubprogram, Subprogram.moved_heading, hinner]
  simp [hf, lowerStatements_moved hf, blockFor_moved hf, params_moved]

theorem lowerSubprograms_moved (ss : List Subprogram) :
    lowerSubprograms (env.moved f) (known.moved f) (ss.map (Subprogram.moved f)) =
      Lower.moved f (lowerSubprograms env known ss) := by
  induction ss generalizing known with
  | nil => rfl
  | cons s ss ih => simp [hf, lowerSubprograms, ih]

theorem lower_moved (p : MiniPascal.Program) (t : Table) (folding : Bool) :
    lower (p.moved f) (t.moved f) folding = Lower.moved f (lower p t folding) := by
  have hnames : (t.moved f).names = t.names := by
    simp [Table.names, List.flatMap_map, Function.comp_def]
  have henv : outermost (p.moved f) (t.moved f) folding =
      Lower.moved f (Env.moved f <$> outermost p t folding) := by
    simp [outermost, hnames, Names.ofProgram_moved, blockFor_moved hf, Env.moved]
  have hdeclarations : ∀ env, lowerDeclarations (Env.moved f env) [] (p.body.moved f) = _ :=
    fun env => lowerDeclarations_moved hf env [] p.body
  simp [lower, henv, hdeclarations, hf, lowerSubprograms_moved, lowerStatements_moved,
    anyEndsProgram_moved]

end Programs

end C

end MiniPascal
