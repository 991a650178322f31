import MiniPascal.Proofs.Operands
import MiniPascal.Proofs.SpelledNames

/-!
# Lowering keeps names plain

A name in C is made of names of the source, numbers and underscores, and folding makes no
characters.
-/

namespace MiniPascal

open Scope List

/-! ## Folding -/

theorem Ty.binary?_ne_char (op : BinaryOp) (a b : Ty) : binary? op a b ≠ some char := by
  intro h
  unfold binary? at h
  generalize join a b = common at h
  dsimp only at h
  split at h <;> split at h <;> cases h
  all_goals next hnumeric => cases hnumeric

theorem Ty.unary?_ne_char (op : UnaryOp) (a : Ty) : unary? op a ≠ some char := by
  intro h
  unfold unary? at h
  split at h <;> split at h <;> cases h
  · next hnumeric => cases hnumeric
  · next hnumeric => cases hnumeric
  · next hbool => cases hbool

theorem Value.plain_toExpr {v : Value} (h : v.type ≠ .char) (p : Position) :
    (v.toExpr p).Plain := by
  cases v with
  | int => exact .int
  | real => exact .real
  | char => exact absurd rfl h
  | bool => exact .bool

theorem Expr.Plain.fold {e : Expr} (h : e.Plain) : e.fold.1.Plain := by
  induction h with
  | int => exact .int
  | real => exact .real
  | char hc => exact .char hc
  | bool => exact .bool
  | string => exact .string
  | name hn => exact .name hn
  | element hn _ ih =>
    rw [Expr.fold, foldAll_eq_map]
    exact .element hn (forall_mem_map.mpr ih)
  | call hn _ ih =>
    rw [Expr.fold, foldAll_eq_map]
    exact .call hn (forall_mem_map.mpr ih)
  | @binary p op left right _ _ hleft hright =>
    rcases fold_binary_cases p op left right with ⟨a, b, v, _, _, hv, h⟩ | h <;> rw [h]
    · exact Value.plain_toExpr (fun hchar => Ty.binary?_ne_char op a.type b.type
        (hchar ▸ Value.binary?_type hv)) p
    · exact .binary hleft hright
  | @unary p op e _ he =>
    rcases fold_unary_cases p op e with ⟨a, v, _, hv, h⟩ | h <;> rw [h]
    · exact Value.plain_toExpr (fun hchar => Ty.unary?_ne_char op a.type
        (hchar ▸ Value.unary?_type hv)) p
    · exact .unary he

namespace C

/-! ## Plain programs in C -/

inductive Expr.Plain : Expr → Prop
  | int {v} : Plain (.int v)
  | real {v} : Plain (.real v)
  | char {c : Char} : c.toNat < 128 → Plain (.char c)
  | string {v} : Plain (.string v)
  | var {v : Var} : Spelled v.name → Plain (.var v)
  | element {v : Var} {subscripts} : Spelled v.name → (∀ x ∈ subscripts, Plain x.1) →
      Plain (.element v subscripts)
  | call {name arguments} : Spelled name → (∀ x ∈ arguments, Plain x.1) →
      Plain (.call name arguments)
  | binary {op left right} : Plain left → Plain right → Plain (.binary op left right)
  | unary {op e} : Plain e → Plain (.unary op e)
  | cast {type e} : Plain e → Plain (.cast type e)

inductive Statement.Plain : Statement → Prop
  | assign {target value} : target.Plain → value.Plain → Plain (.assign target value)
  | call {name arguments} : Spelled name → (∀ x ∈ arguments, x.1.Plain) →
      Plain (.call name arguments)
  | compound {parts} : (∀ s ∈ parts, Plain s) → Plain (.compound parts)
  | ifThen {c s} : c.Plain → Plain s → Plain (.branch c s none)
  | ifThenElse {c s s'} : c.Plain → Plain s → Plain s' → Plain (.branch c s (some s'))
  | count {v : Var} {first last down body} : Spelled v.name → first.Plain → last.Plain →
      Plain body → Plain (.count v first last down body)
  | loop {c body} : c.Plain → Plain body → Plain (.loop c body)
  | print {format arguments} : (∀ e ∈ arguments, e.Plain) → Plain (.print format arguments)
  | scan {format arguments} : (∀ e ∈ arguments, e.Plain) → Plain (.scan format arguments)
  | leave {result : Option Var} : (∀ v ∈ result, Spelled v.name) → Plain (.leave result)
  | exit : Plain .exit

structure Declarations.Plain (d : Declarations) : Prop where
  constants : ∀ c ∈ d.constants, Spelled c.name ∧ c.value.Plain
  scalars : ∀ s ∈ d.scalars, Spelled s.name
  arrays : ∀ a ∈ d.arrays, Spelled a.name

structure Block.Plain (b : Block) : Prop where
  declarations : b.declarations.Plain
  statements : ∀ s ∈ b.statements, s.Plain

structure Routine.Plain (r : Routine) : Prop where
  name : Spelled r.name
  result : ∀ v ∈ r.result, Spelled v.name
  params : ∀ p ∈ r.params, Spelled p.name
  body : r.body.Plain

structure Program.Plain (q : Program) : Prop where
  globals : q.globals.Plain
  routines : ∀ r ∈ q.routines, r.Plain
  main : q.main.Plain

/-! ## Generated names -/

theorem spelled_append {a b : String} (ha : Spelled a) (hb : Spelled b) : Spelled (a ++ b) := by
  intro c hc
  rw [String.toList_append] at hc
  rcases mem_append.mp hc with hc | hc
  · exact ha c hc
  · exact hb c hc

variable {name : String}

theorem spelled_fresh (h : Spelled name) (taken : List String) : Spelled (fresh taken name) := by
  obtain ⟨k, hk⟩ := fresh_eq taken name
  rw [hk]
  refine spelled_append h fun c hc => ?_
  rw [String.toList_ofList] at hc
  rw [eq_of_mem_replicate hc]
  rfl

theorem spelled_number (k : Nat) : Spelled (toString k) := by
  intro c hc
  have hdigit : c.isDigit = true :=
    Nat.isDigit_of_mem_toDigits (by omega) (by omega) (Nat.toList_repr ▸ hc)
  simp [isNameChar, Char.isAlphanum, hdigit]

def NameMap.Spelled (m : NameMap) : Prop := ∀ entry ∈ m, MiniPascal.Spelled entry.2

variable {p : MiniPascal.Program} {hs : List Heading} {n : Naming}

theorem spelled_routines {all earlier : List String} (hn : n.names.Spelled)
    (h : ∀ h ∈ hs, Spelled h.name) : (Naming.routines all earlier hs n).names.Spelled := by
  induction hs generalizing earlier n with
  | nil => exact hn
  | cons head hs ih =>
    obtain ⟨hhead, hrest⟩ := forall_mem_cons.mp h
    rw [Naming.routines]
    split
    · refine ih (forall_mem_cons.mpr ⟨spelled_fresh ?_ _, hn⟩) hrest
      exact spelled_append (spelled_append hhead (by decide)) (spelled_number _)
    · exact ih (forall_mem_cons.mpr ⟨hhead, hn⟩) hrest

theorem spelled_results (hn : n.names.Spelled) (h : ∀ h ∈ hs, Spelled h.name) :
    (Naming.results hs n).names.Spelled := by
  have hfunctions : ∀ h ∈ hs.filter fun h => h.returns.isSome, Spelled h.name :=
    fun head hhead => h head (mem_filter.mp hhead).1
  unfold Naming.results
  generalize hs.filter (fun h => h.returns.isSome) = functions at hfunctions ⊢
  induction functions generalizing n with
  | nil => exact hn
  | cons head functions ih =>
    obtain ⟨hhead, hrest⟩ := forall_mem_cons.mp hfunctions
    refine ih (forall_mem_cons.mpr ⟨spelled_fresh ?_ _, hn⟩) hrest
    exact spelled_append (by decide) hhead

theorem spelled_lookup {m : NameMap} (h : m.Spelled) {p : Position}
    (hname : m.lookup p = some name) : Spelled name := h _ (mem_of_lookup hname)

structure Names.Spelled (n : Names) : Prop where
  routines : n.routines.Spelled
  results : n.results.Spelled

theorem names_spelled (h : p.Plain) (declared : List String) :
    (Names.ofProgram p declared).Spelled := by
  have hheads : ∀ h ∈ p.subprograms.map Subprogram.heading, Spelled h.name :=
    forall_mem_map.mpr fun s hs => (h.subprograms s hs).1.name
  exact ⟨spelled_routines (forall_mem_nil _) hheads,
    spelled_results (forall_mem_nil _) hheads⟩

/-! ## Expressions -/

/-- What a lowering gives, if it succeeds, has the property. -/
def Gives {α : Type} (x : Lower α) (P : α → Prop) : Prop := ∀ a, x = .ok a → P a

section

variable {α β : Type} {P : α → Prop} {Q : β → Prop}

theorem Gives.pure {a : α} (h : P a) : Gives (pure a : Lower α) P := by
  rintro _ ⟨⟩
  exact h

theorem gives_fail (fault : LoweringFault) (p : Position) : Gives (fail fault p : Lower α) P :=
  nofun

theorem Gives.bind {x : Lower α} {f : α → Lower β} (hx : Gives x P)
    (hf : ∀ a, P a → Gives (f a) Q) : Gives (x >>= f) Q := by
  intro b hb
  obtain ⟨a, ha, hb⟩ := Except.bind_eq_ok.mp hb
  exact hf a (hx a ha) b hb

end

variable {env : Env}

theorem subscript_plain {e : Expr} (h : e.Plain) (folding : Bool) (period : Period) :
    (subscript folding e period).1.Plain := by
  unfold subscript
  split
  · split <;> exact .int
  · exact h

theorem prepared_plain {e : MiniPascal.Expr} (h : e.Plain) : (env.prepared e).Plain := by
  unfold Env.prepared
  split
  · exact h.fold
  · exact h

theorem gives_counterVar {p : Position} (h : Spelled name) :
    Gives (counterVar env p name) fun v => Spelled v.name := by
  unfold counterVar
  split
  · next item hfound =>
    exact .pure (show Spelled item.name from (Table.findData?_some hfound).2.1 ▸ h)
  · exact gives_fail _ _

def Constants.Plain (known : Constants) : Prop := ∀ entry ∈ known, entry.2.Plain

section

variable (names : env.names.Spelled)
include names

theorem gives_routineName (name : String) (p : Position) :
    Gives (routineName env name p) Spelled := fun _ h =>
  spelled_lookup names.routines (routineName_eq_ok h)

theorem gives_resultVar (h : Heading) : Gives (resultVar env h) fun v => Spelled v.name := by
  unfold resultVar
  split
  · next hlookup => exact .pure (spelled_lookup names.results hlookup)
  · exact gives_fail _ _

variable {p : Position} {name : String}

theorem gives_placeVar {item : Item} (hfound : env.table.findPlace? env.block name = some item)
    (hn : Spelled name) : Gives (placeVar env p item name) fun v => Spelled v.name := by
  unfold placeVar
  split
  · split
    · exact gives_resultVar names _
    · exact gives_fail _ _
  · exact .pure (show Spelled item.name from Table.findPlace?_name hfound ▸ hn)

theorem gives_place {count : Nat} {indices : Lower (List Expr)} (hn : Spelled name)
    (hindices : Gives indices fun es => ∀ e ∈ es, e.Plain) :
    Gives (place env p name count indices) Expr.Plain := by
  unfold place
  split
  · exact gives_fail _ _
  · next item hfound =>
    refine (gives_placeVar names hfound hn).bind fun v hv => ?_
    split
    · exact .pure (.var hv)
    split
    · exact gives_fail _ _
    · exact hindices.bind fun es hes => .pure (.element hv
        (forall_mem_zipWith fun e he period => subscript_plain (hes e he) _ period))

theorem gives_callOf {args : List Scope.Argument} {values : Lower (List Expr)}
    (hvalues : Gives values fun es => ∀ e ∈ es, e.Plain) :
    Gives (callOf env p name args values) fun r => Spelled r.1 ∧ ∀ x ∈ r.2, x.1.Plain := by
  unfold callOf
  split
  · exact gives_fail _ _
  · exact hvalues.bind fun es hes => (gives_routineName names _ _).bind fun r hr =>
      .pure ⟨hr, forall_mem_zipWith fun e he _ => hes e he⟩

end

mutual

theorem gives_convert (names : env.names.Spelled) : ∀ e : MiniPascal.Expr, e.Plain →
    Gives (convert env e) Expr.Plain
  | .int .., _ => .pure .int
  | .real .., _ => .pure .real
  | .char _ _, .char hc => .pure (.char hc)
  | .bool .., _ => .pure .int
  | .string .., _ => .pure .string
  | .element _ _ indices, .element hn hes => by
    exact gives_place names hn (gives_convertAll names indices hes)
  | .name _ _, .name hn => by
    rw [convert]
    split
    · exact gives_fail _ _
    split
    · exact (gives_routineName names _ _).bind fun r hr => .pure (.call hr (forall_mem_nil _))
    · exact gives_place names hn (.pure (forall_mem_nil _))
  | .call _ _ arguments, .call _ hes => by
    rw [convert]
    split
    · exact gives_fail _ _
    · exact (gives_callOf names (gives_convertAll names arguments hes)).bind fun r hr =>
        .pure (.call hr.1 hr.2)
  | .binary _ op left right, .binary hleft hright => by
    refine (gives_convert names left hleft).bind fun l hl =>
      (gives_convert names right hright).bind fun r hr => .pure (.binary ?_ hr)
    split
    · exact .cast hl
    · exact hl
  | .unary _ op operand, .unary he => by
    refine (gives_convert names operand he).bind fun c hc => ?_
    cases op with
    | plus => exact .pure hc
    | minus | not => exact .pure (.unary hc)

theorem gives_convertAll (names : env.names.Spelled) : ∀ es : List MiniPascal.Expr,
    (∀ e ∈ es, e.Plain) → Gives (convertAll env es) fun cs => ∀ c ∈ cs, c.Plain
  | [], _ => .pure (forall_mem_nil _)
  | e :: es, h => by
    obtain ⟨he, hes⟩ := forall_mem_cons.mp h
    exact (gives_convert names e he).bind fun c hc => (gives_convertAll names es hes).bind
      fun cs hcs => .pure (forall_mem_cons.mpr ⟨hc, hcs⟩)

end

section

variable (names : env.names.Spelled)
include names

theorem gives_lowerExpr {e : MiniPascal.Expr} (h : e.Plain) :
    Gives (lowerExpr env e) Expr.Plain := gives_convert names _ (prepared_plain h)

variable {es : List MiniPascal.Expr} {b : Builtin}

theorem gives_lowerExprs (h : ∀ e ∈ es, e.Plain) :
    Gives (lowerExprs env es) fun cs => ∀ c ∈ cs, c.Plain :=
  gives_convertAll names _ (forall_mem_map.mpr fun e he => prepared_plain (h e he))

/-! ## Statements -/

theorem gives_target {p : Position} {name : String} {indices : List MiniPascal.Expr}
    (hn : Spelled name) (hes : ∀ e ∈ indices, e.Plain) :
    Gives (target env p name indices) Expr.Plain := by
  have hplace : Gives (place env p name indices.length (lowerExprs env indices)) Expr.Plain :=
    gives_place names hn (gives_lowerExprs names hes)
  unfold target
  split
  · split
    · exact (gives_resultVar names _).bind fun v hv => .pure (.var hv)
    · exact hplace
  · exact hplace

theorem gives_format (h : ∀ e ∈ es, e.Plain) :
    Gives (format env b es) fun r => ∀ c ∈ r.2, c.Plain := by
  induction es with
  | nil => exact .pure (forall_mem_nil _)
  | cons e es ih =>
    obtain ⟨he, hes⟩ := forall_mem_cons.mp h
    intro r hr
    obtain ⟨rest, hrest, ⟨_, _, heq⟩ | ⟨_, c, hc, heq⟩⟩ := format_cons hr
    · exact heq ▸ ih hes rest hrest
    · exact heq ▸ forall_mem_cons.mpr ⟨gives_lowerExpr names he c hc, ih hes rest hrest⟩

theorem gives_builtinCall (h : ∀ e ∈ es, e.Plain) :
    Gives (builtinCall env b es) Statement.Plain := by
  refine (gives_format names h).bind fun r hr => .pure ?_
  split
  · exact .print hr
  · exact .scan hr

theorem gives_leaving : Gives (leaving env) Statement.Plain := by
  unfold leaving
  split
  · exact .pure .exit
  split
  · exact (gives_resultVar names _).bind fun v hv => .pure (.leave fun _ h => by cases h; exact hv)
  · exact .pure (.leave fun _ h => absurd h (Option.not_mem_none _))

end

mutual

theorem gives_lowerStatement (names : env.names.Spelled) : ∀ s : MiniPascal.Statement, s.Plain →
    Gives (lowerStatement env s) Statement.Plain
  | .assign _ _ _ _, .assign hn hes he => by
    exact (gives_target names hn hes).bind fun t ht => (gives_lowerExpr names he).bind fun c hc =>
      .pure (.assign ht hc)
  | .call _ _ _, .call _ hes => by
    rw [lowerStatement]
    split
    · exact gives_builtinCall names hes
    · exact (gives_callOf names (gives_lowerExprs names hes)).bind fun r hr =>
        .pure (.call hr.1 hr.2)
  | .compound _ parts, .compound hparts => by
    exact (gives_lowerStatements names parts hparts).bind fun ss hss => .pure (.compound hss)
  | .branch _ _ onTrue none, .ifThen hc hs => by
    exact (gives_lowerExpr names hc).bind fun c hc => (gives_lowerStatement names onTrue hs).bind
      fun s hs => .pure (.ifThen hc hs)
  | .branch _ _ onTrue (some onFalse), .ifThenElse hc hs hs' => by
    exact (gives_lowerExpr names hc).bind fun c hc => (gives_lowerStatement names onTrue hs).bind
      fun s hs => (gives_lowerStatement names onFalse hs').bind
        fun s' hs' => .pure (.ifThenElse hc hs hs')
  | .count _ _ _ _ _ body, .count hn hfirst hlast hs => by
    exact (gives_counterVar hn).bind fun v hv => (gives_lowerExpr names hfirst).bind
      fun first hfirst => (gives_lowerExpr names hlast).bind fun last hlast =>
        (gives_lowerStatement names body hs).bind fun s hs => .pure (.count hv hfirst hlast hs)
  | .loop _ _ body, .loop hc hs => by
    exact (gives_lowerExpr names hc).bind fun c hc => (gives_lowerStatement names body hs).bind
      fun s hs => .pure (.loop hc hs)
  | .exit _, _ => by
    exact gives_leaving names

theorem gives_lowerStatements (names : env.names.Spelled) : ∀ ss : List MiniPascal.Statement,
    (∀ s ∈ ss, s.Plain) → Gives (lowerStatements env ss) fun cs => ∀ c ∈ cs, c.Plain
  | [], _ => .pure (forall_mem_nil _)
  | s :: ss, h => by
    obtain ⟨hs, hss⟩ := forall_mem_cons.mp h
    exact (gives_lowerStatement names s hs).bind fun c hc =>
      (gives_lowerStatements names ss hss).bind fun cs hcs =>
        .pure (forall_mem_cons.mpr ⟨hc, hcs⟩)

end

section

variable (names : env.names.Spelled)
include names

/-! ## Programs -/

variable {known : Constants}

theorem gives_lowerDeclarations (hknown : known.Plain) {b : Body} (h : b.Plain) :
    Gives (lowerDeclarations env known b) fun r => r.1.Plain ∧ r.2.Plain := by
  rintro ⟨d, known'⟩ hd
  obtain ⟨hcs, hafter⟩ := lowerConsts_values hknown (lowerDeclarations_consts hd)
    fun c hc => gives_lowerExpr names (h.consts c hc).2
  have hconstants : ∀ c ∈ d.constants, Spelled c.name ∧ c.value.Plain := by
    intro c hc
    obtain ⟨decl, hdecl, hname, hplain, _⟩ := exists_left_of_mem hcs hc
    exact ⟨hname ▸ (h.consts decl hdecl).1, hplain⟩
  have hof := lowerDeclarations_ok hd
  have hnames : ∀ keep : VarDecl → Bool, ∀ n ∈ (b.vars.filter keep).flatMap VarDecl.names,
      Spelled n := by
    intro keep n hn
    obtain ⟨v, hv, hn⟩ := mem_flatMap.mp hn
    exact h.vars v (mem_filter.mp hv).1 n hn
  have hscalars := hof.scalars ▸ hnames fun v => v.periods.isEmpty
  have harrays := hof.arrays ▸ hnames fun v => !v.periods.isEmpty
  exact ⟨⟨hconstants, forall_mem_map.mp hscalars, forall_mem_map.mp harrays⟩, hafter⟩

theorem gives_result {h : Heading} : Gives (result env h) fun r => ∀ v ∈ r, Spelled v.name := by
  unfold result
  split
  · exact (gives_resultVar names h).bind fun v hv => .pure fun _ hr => by cases hr; exact hv
  · exact .pure fun _ h => absurd h (Option.not_mem_none _)

end

theorem spelled_params {h : Heading} (hplain : h.Plain) : ∀ p ∈ params h, Spelled p.name := by
  intro p hp
  obtain ⟨g, hg, hp⟩ := mem_flatMap.mp hp
  obtain ⟨name, hname, rfl⟩ := mem_map.mp hp
  exact hplain.params g hg name hname

section

variable {outer : Env} (names : outer.names.Spelled)
include names

theorem gives_lowerSubprogram {known : Constants} (hknown : known.Plain) {s : Subprogram}
    (h : s.heading.Plain ∧ s.body.Plain) :
    Gives (lowerSubprogram outer known s) fun r => r.1.Plain ∧ r.2.Plain := by
  rintro ⟨r, known'⟩ hr
  obtain ⟨block, _, hr⟩ := Except.bind_eq_ok.mp hr
  -- inside a subprogram names are looked up elsewhere, but they are named as outside
  have hinner : ({ outer with block, subprogram := some s.heading } : Env).names.Spelled := names
  obtain ⟨name, hname, ⟨declarations, _⟩, hdeclarations, hr⟩ := Except.bind₂_eq_ok.mp hr
  obtain ⟨statements, hstatements, result, hresult, hr⟩ := Except.bind₂_eq_ok.mp hr
  cases hr
  obtain ⟨hplain, hafter⟩ := gives_lowerDeclarations hinner hknown h.2 _ hdeclarations
  have hbody := gives_lowerStatements hinner _ h.2.statements _ hstatements
  exact ⟨⟨gives_routineName hinner _ _ _ hname, gives_result hinner _ hresult, spelled_params h.1,
    hplain, hbody⟩, hafter⟩

theorem gives_lowerSubprograms {known : Constants} (hknown : known.Plain) {ss : List Subprogram}
    (h : ∀ s ∈ ss, s.heading.Plain ∧ s.body.Plain) :
    Gives (lowerSubprograms outer known ss) fun rs => ∀ r ∈ rs, r.Plain := by
  induction ss generalizing known with
  | nil => exact .pure (forall_mem_nil _)
  | cons s ss ih =>
    obtain ⟨hs, hss⟩ := forall_mem_cons.mp h
    exact (gives_lowerSubprogram names hknown hs).bind fun r hr => (ih hr.2 hss).bind
      fun rs hrs => .pure (forall_mem_cons.mpr ⟨hr.1, hrs⟩)

end

theorem gives_lower (h : p.Plain) (t : Table) (folding : Bool) :
    Gives (lower p t folding) Program.Plain := by
  have hnone : ({} : Declarations).Plain :=
    ⟨forall_mem_nil _, forall_mem_nil _, forall_mem_nil _⟩
  have houtermost : Gives (outermost p t folding) fun env => env.names.Spelled := by
    intro env henv
    obtain ⟨block, _, henv⟩ := Except.bind_eq_ok.mp henv
    cases henv
    exact names_spelled h _
  refine houtermost.bind fun env names => ?_
  refine (gives_lowerDeclarations names (forall_mem_nil _) h.body).bind fun d hd => ?_
  refine (gives_lowerSubprograms names hd.2 h.subprograms).bind fun rs hrs => ?_
  refine (gives_lowerStatements names _ h.body.statements).bind fun ss hss => ?_
  split
  · exact .pure ⟨hnone, forall_mem_nil _, hd.1, hss⟩
  · exact .pure ⟨hd.1, hrs, hnone, hss⟩

end C

end MiniPascal
