import MiniPascal.Compiler
import MiniPascal.Proofs.Agreement

/-!
# The levels of optimization agree

A program is lowered at every level or at none, and what comes out differs in constant expressions
only.
-/

namespace MiniPascal.C

open List (Forall₂)

namespace Statement

mutual

/-- The same statement over expressions that agree. -/
inductive Agrees : Statement → Statement → Prop where
  | assign {target target' value value' : Expr} (ht : target.Agrees target')
      (hv : value.Agrees value') : Agrees (assign target value) (assign target' value')
  | call (name : String) {as bs : List (Expr × Bool)} (ha : Forall₂ Expr.ArgumentAgrees as bs) :
      Agrees (call name as) (call name bs)
  | compound {ss ts : List Statement} (hs : AllAgree ss ts) : Agrees (compound ss) (compound ts)
  | branch {c c' : Expr} {s s' : Statement} (hc : c.Agrees c') (hs : Agrees s s') :
      Agrees (branch c s none) (branch c' s' none)
  | choice {c c' : Expr} {s s' t t' : Statement} (hc : c.Agrees c') (hs : Agrees s s')
      (ht : Agrees t t') : Agrees (branch c s (some t)) (branch c' s' (some t'))
  | count (counter : Var) {first first' last last' : Expr} (down : Bool) {s s' : Statement}
      (hf : first.Agrees first') (hl : last.Agrees last') (hs : Agrees s s') :
      Agrees (count counter first last down s) (count counter first' last' down s')
  | loop {c c' : Expr} {s s' : Statement} (hc : c.Agrees c') (hs : Agrees s s') :
      Agrees (loop c s) (loop c' s')
  | print (format : String) {as bs : List Expr} (ha : Forall₂ Expr.Agrees as bs) :
      Agrees (print format as) (print format bs)
  | scan (format : String) {as bs : List Expr} (ha : Forall₂ Expr.Agrees as bs) :
      Agrees (scan format as) (scan format bs)
  | leave (result : Option Var) : Agrees (leave result) (leave result)
  | exit : Agrees exit exit

inductive AllAgree : List Statement → List Statement → Prop where
  | nil : AllAgree [] []
  | cons {s t : Statement} {ss ts : List Statement} (h : Agrees s t) (hs : AllAgree ss ts) :
      AllAgree (s :: ss) (t :: ts)

end

end Statement

structure Constant.Agrees (c d : Constant) : Prop where
  name : c.name = d.name
  type : c.type = d.type
  value : c.value.Agrees d.value

structure Declarations.Agrees (d e : Declarations) : Prop where
  constants : Forall₂ Constant.Agrees d.constants e.constants
  scalars : d.scalars = e.scalars
  arrays : d.arrays = e.arrays

structure Block.Agrees (b c : Block) : Prop where
  declarations : b.declarations.Agrees c.declarations
  statements : Statement.AllAgree b.statements c.statements

structure Routine.Agrees (r s : Routine) : Prop where
  name : r.name = s.name
  result : r.result = s.result
  params : r.params = s.params
  body : r.body.Agrees s.body

structure Program.Agrees (p q : Program) : Prop where
  name : p.name = q.name
  globals : p.globals.Agrees q.globals
  routines : Forall₂ Routine.Agrees p.routines q.routines
  main : p.main.Agrees q.main
  usesExit : p.usesExit = q.usesExit

section

variable {env : Env}

theorem Env.folded_function (env : Env) : env.folded.function = env.function := rfl

theorem Env.folded_subprogram (env : Env) : env.folded.subprogram = env.subprogram := rfl

/-- A format and the values for its conversions. -/
def FormatAgrees (c d : String × List Expr) : Prop := c.1 = d.1 ∧ Forall₂ Expr.Agrees c.2 d.2

theorem leaving_agrees : Lower.Agree Statement.Agrees (leaving env) (leaving env.folded) := by
  unfold leaving
  rw [Env.folded_subprogram]
  cases env.subprogram with
  | none => exact .exit
  | some h =>
    dsimp only
    split
    · refine .bind_same (resultVar env h) fun v => ?_
      exact .leave _
    · exact .leave _

section

variable (hf : env.folding = false)

include hf

theorem lowerExpr_agrees (e : MiniPascal.Expr) :
    Lower.Agree Expr.Agrees (lowerExpr env e) (lowerExpr env.folded e) := by
  have h := convert_agrees hf e
  simpa only [lowerExpr, Env.prepared, hf, Env.folded, Bool.false_eq_true, if_false, if_true] using h

theorem lowerExprs_agrees (es : List MiniPascal.Expr) :
    Lower.Agree (Forall₂ Expr.Agrees) (lowerExprs env es) (lowerExprs env.folded es) := by
  have h := convertAll_agrees hf es
  have hmap : es.map env.prepared = es := by
    rw [show env.prepared = id from funext fun e => by simp [Env.prepared, hf], List.map_id]
  have hfold : es.map env.folded.prepared = MiniPascal.Expr.foldAll es := by
    rw [MiniPascal.Expr.foldAll_eq_map]
    rfl
  rw [lowerExprs, lowerExprs, hmap, hfold]
  exact h

theorem target_agrees (p : Position) (name : String) (indices : List MiniPascal.Expr) :
    Lower.Agree Expr.Agrees (target env p name indices) (target env.folded p name indices) := by
  have hplace := place_agrees p name indices.length hf (lowerExprs_agrees hf indices)
  unfold target
  rw [Env.folded_function]
  cases env.function with
  | none => exact hplace
  | some h =>
    cases indices with
    | cons i is => exact hplace
    | nil =>
      dsimp only
      split
      · exact .bind_same (resultVar env h) fun v => Expr.Agrees.var v
      · exact hplace

theorem format_agrees (b : Builtin) (es : List MiniPascal.Expr) :
    Lower.Agree FormatAgrees (format env b es) (format env.folded b es) := by
  induction es with
  | nil => exact ⟨rfl, .nil⟩
  | cons e es ih =>
    unfold format
    split
    · refine .bind ih ?_
      rintro ⟨rest, as⟩ ⟨_, bs⟩ ⟨rfl, hab⟩
      exact ⟨rfl, hab⟩
    · next e _ _ _ =>
      change Lower.Agree _ (Ty.ofBase (env.typeOf e).base e.position >>= _)
        (Ty.ofBase (env.typeOf e).base e.position >>= _)
      refine .bind_same (Ty.ofBase (env.typeOf e).base e.position) fun type => ?_
      refine .bind (lowerExpr_agrees hf e) fun c d hcd => .bind ih ?_
      rintro ⟨rest, as⟩ ⟨_, bs⟩ ⟨rfl, hab⟩
      exact ⟨rfl, .cons hcd hab⟩

theorem builtinCall_agrees (b : Builtin) (es : List MiniPascal.Expr) :
    Lower.Agree Statement.Agrees (builtinCall env b es) (builtinCall env.folded b es) := by
  refine .bind (format_agrees hf b es) ?_
  rintro ⟨text, as⟩ ⟨_, bs⟩ ⟨rfl, hab⟩
  dsimp only
  split
  · exact .print text hab
  · exact .scan text hab

end

mutual

theorem lowerStatement_agrees (hf : env.folding = false) : ∀ s : MiniPascal.Statement,
    Lower.Agree Statement.Agrees (lowerStatement env s) (lowerStatement env.folded s)
  | .assign p name indices value => by
    rw [lowerStatement, lowerStatement]
    exact .bind (target_agrees hf p name indices) fun _ _ ht =>
      .bind (lowerExpr_agrees hf value) fun _ _ hv => .assign ht hv
  | .call p name arguments => by
    rw [lowerStatement, lowerStatement, Env.folded_builtin?]
    cases env.builtin? name with
    | some b => exact builtinCall_agrees hf b arguments
    | none =>
      refine .bind (callOf_agrees p name _ (lowerExprs_agrees hf arguments)) ?_
      rintro ⟨routine, as⟩ ⟨_, bs⟩ ⟨rfl, hab⟩
      exact .call routine hab
  | .compound p parts => by
    rw [lowerStatement, lowerStatement]
    exact .bind (lowerStatements_agrees hf parts) fun _ _ h => .compound h
  | .branch p condition onTrue none => by
    rw [lowerStatement, lowerStatement]
    exact .bind (lowerExpr_agrees hf condition) fun _ _ hc =>
      .bind (lowerStatement_agrees hf onTrue) fun _ _ ht => .branch hc ht
  | .branch p condition onTrue (some onFalse) => by
    rw [lowerStatement, lowerStatement]
    exact .bind (lowerExpr_agrees hf condition) fun _ _ hc =>
      .bind (lowerStatement_agrees hf onTrue) fun _ _ ht =>
      .bind (lowerStatement_agrees hf onFalse) fun _ _ he => .choice hc ht he
  | .count p counter first last direction body => by
    rw [lowerStatement, lowerStatement]
    refine .bind_same (counterVar env p counter) fun v => ?_
    exact .bind (lowerExpr_agrees hf first) fun _ _ h₁ =>
      .bind (lowerExpr_agrees hf last) fun _ _ h₂ =>
      .bind (lowerStatement_agrees hf body) fun _ _ hb => .count v _ h₁ h₂ hb
  | .loop p condition body => by
    rw [lowerStatement, lowerStatement]
    exact .bind (lowerExpr_agrees hf condition) fun _ _ hc =>
      .bind (lowerStatement_agrees hf body) fun _ _ hb => .loop hc hb
  | .exit p => by
    rw [lowerStatement, lowerStatement]
    exact leaving_agrees

theorem lowerStatements_agrees (hf : env.folding = false) : ∀ ss : List MiniPascal.Statement,
    Lower.Agree Statement.AllAgree (lowerStatements env ss) (lowerStatements env.folded ss)
  | [] => Statement.AllAgree.nil
  | s :: ss => by
    rw [lowerStatements, lowerStatements]
    exact .bind (lowerStatement_agrees hf s) fun _ _ h =>
      .bind (lowerStatements_agrees hf ss) fun _ _ hs => .cons h hs

end

/-- Constants that are known at the same places with values that agree. -/
def KnownAgree : Constants → Constants → Prop :=
  Forall₂ fun c d => c.1 = d.1 ∧ c.2.Agrees d.2

variable {known known' : Constants}

theorem KnownAgree.lookup (h : KnownAgree known known') (p : Position) :
    Option.Rel Expr.Agrees (known.lookup p) (known'.lookup p) := by
  induction h with
  | nil => exact .none
  | @cons c d known known' hcd _ ih =>
    obtain ⟨q, e⟩ := c
    obtain ⟨_, f⟩ := d
    obtain ⟨rfl, hef⟩ := hcd
    rw [List.lookup_cons, List.lookup_cons]
    cases p == q with
    | true => exact .some hef
    | false => exact ih

variable (hf : env.folding = false)

include hf

theorem constantValue_agrees (hk : KnownAgree known known') (e : MiniPascal.Expr) :
    Lower.Agree Expr.Agrees (constantValue env known e) (constantValue env.folded known' e) := by
  unfold constantValue
  split
  · next p name =>
    rw [Env.folded_table, Env.folded_block]
    cases env.table.resolve env.block name with
    | error _ => exact lowerExpr_agrees hf _
    | ok item =>
      dsimp only
      split
      · have h := hk.lookup item.position
        generalize known.lookup item.position = x at h ⊢
        generalize known'.lookup item.position = y at h ⊢
        cases h with
        | none => rfl
        | some h => exact h
      · exact lowerExpr_agrees hf _
  · exact lowerExpr_agrees hf _

theorem lowerConsts_agrees (hk : KnownAgree known known') (ds : List ConstDecl) :
    Lower.Agree (fun c d => Forall₂ Constant.Agrees c.1 d.1 ∧ KnownAgree c.2 d.2)
      (lowerConsts env known ds) (lowerConsts env.folded known' ds) := by
  induction ds generalizing known known' with
  | nil => exact ⟨.nil, hk⟩
  | cons d ds ih =>
    rw [lowerConsts, lowerConsts]
    refine .bind (constantValue_agrees hf hk d.value) fun v w hvw => ?_
    refine .bind_same (Ty.ofBase (env.typeOf d.value).base d.position) fun type => ?_
    refine .bind (ih (.cons ⟨rfl, hvw⟩ hk)) ?_
    rintro ⟨cs, known₁⟩ ⟨cs', known₂⟩ ⟨hcs, hk'⟩
    exact ⟨.cons ⟨rfl, rfl, hvw⟩ hcs, hk'⟩

theorem lowerDeclarations_agrees (hk : KnownAgree known known') (body : Body) :
    Lower.Agree (fun c d => c.1.Agrees d.1 ∧ KnownAgree c.2 d.2)
      (lowerDeclarations env known body) (lowerDeclarations env.folded known' body) := by
  refine .bind (lowerConsts_agrees hf hk body.consts) ?_
  rintro ⟨cs, known₁⟩ ⟨cs', known₂⟩ ⟨hcs, hk'⟩
  refine .bind_same (arrays body.vars) fun as => ?_
  exact ⟨⟨hcs, rfl, rfl⟩, hk'⟩

theorem lowerSubprogram_agrees (hk : KnownAgree known known') (s : Subprogram) :
    Lower.Agree (fun c d => c.1.Agrees d.1 ∧ KnownAgree c.2 d.2)
      (lowerSubprogram env known s) (lowerSubprogram env.folded known' s) := by
  refine .bind_same (blockFor env.table s.heading.name s.heading.position) fun block => ?_
  let inner : Env := { env with block := block, subprogram := some s.heading }
  have hf : inner.folding = false := hf
  refine .bind_same (routineName inner s.heading.name s.heading.position) fun name => ?_
  refine .bind (lowerDeclarations_agrees hf hk s.body) ?_
  rintro ⟨ds, known₁⟩ ⟨ds', known₂⟩ ⟨hds, hk'⟩
  refine .bind (lowerStatements_agrees hf s.body.statements) fun ss ts hss => ?_
  refine .bind_same (result inner s.heading) fun r => ?_
  exact ⟨⟨rfl, rfl, rfl, ⟨hds, hss⟩⟩, hk'⟩

theorem lowerSubprograms_agrees (hk : KnownAgree known known') (ss : List Subprogram) :
    Lower.Agree (Forall₂ Routine.Agrees) (lowerSubprograms env known ss)
      (lowerSubprograms env.folded known' ss) := by
  induction ss generalizing known known' with
  | nil => exact List.Forall₂.nil
  | cons s ss ih =>
    rw [lowerSubprograms, lowerSubprograms]
    refine .bind (lowerSubprogram_agrees hf hk s) ?_
    rintro ⟨r, known₁⟩ ⟨r', known₂⟩ ⟨hr, hk'⟩
    exact .bind (ih hk') fun _ _ hrs => .cons hr hrs

end

theorem declarations_agree_empty : Declarations.Agrees {} {} := ⟨.nil, rfl, rfl⟩

/-- At a level that folds and at the level that does not, a program is lowered to programs that
agree, or it is lowered at neither, for the same reason. -/
theorem lower_levels_agree (p : MiniPascal.Program) (t : Scope.Table) (level : Nat) :
    Lower.Agree Program.Agrees (lower p t (foldsAt 0)) (lower p t (foldsAt (level + 1))) := by
  refine .bind (R := fun env env' => env.folding = false ∧ env' = env.folded) ?_ ?_
  · refine .bind_same (blockFor t p.name p.position) fun block => ?_
    exact ⟨rfl, rfl⟩
  rintro env _ ⟨hf, rfl⟩
  refine .bind (lowerDeclarations_agrees hf .nil p.body) ?_
  rintro ⟨ds, known⟩ ⟨ds', known'⟩ ⟨hds, hk⟩
  refine .bind (lowerSubprograms_agrees hf hk p.subprograms) fun rs rs' hrs => ?_
  refine .bind (lowerStatements_agrees hf p.body.statements) fun ss ts hss => ?_
  cases hrs with
  | nil => exact ⟨rfl, declarations_agree_empty, .nil, ⟨hds, hss⟩, rfl⟩
  | cons h hs =>
    exact ⟨rfl, hds, .cons h hs, ⟨declarations_agree_empty, hss⟩, rfl⟩

end MiniPascal.C
