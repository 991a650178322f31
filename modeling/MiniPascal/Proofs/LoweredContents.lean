import MiniPascal.Proofs.Operands
import MiniPascal.Proofs.UnsignedLiterals

/-!
# What lowering brings about

What is collected from expressions in C, such as their reals, is known of programs if it is known of
the forms of expressions.
-/

namespace MiniPascal

open Scope Analysis
open List

def Program.bodies (p : Program) : List Body := p.body :: p.subprograms.map Subprogram.body

namespace C

/-- What is collected from expressions, if variables, integers and strings have nothing of it, and
elements what their subscripts have. -/
structure Collects {α : Type} (F : Expr → List α) : Prop where
  int : ∀ v, F (.int v) = []
  string : ∀ s, F (.string s) = []
  var : ∀ v, F (.var v) = []
  element : ∀ v subscripts, F (.element v subscripts) = (subscripts.map Prod.fst).flatMap F

theorem Collects.place {α : Type} {F : Expr → List α} (collects : Collects F) {env : Env}
    {p : Position} {name : String} {cs : List Expr} {c : Expr} (h : PlaceOf env p name cs c) :
    F c = cs.flatMap F := by
  cases h with
  | var => exact collects.var _
  | element _ _ _ hlength => rw [collects.element, flatMap_subscripts collects.int _ hlength]

/-! ## Operands -/

def Operand.exprs : Operand → List MiniPascal.Expr
  | value e | input e => [e]
  | target _ _ indices => indices
  | counter .. => []
  | step _ _ arguments => arguments

section

variable {env : Env} {e : MiniPascal.Expr}

theorem mem_builtinOperands (hstring : e.isString = false) (b : Builtin)
    (es : List MiniPascal.Expr) :
    e ∈ (Env.builtinOperands b es).flatMap Operand.exprs ↔ e ∈ es := by
  unfold Env.builtinOperands
  split <;> simp [Operand.exprs, hstring]

mutual

theorem mem_operands (hstring : e.isString = false) : ∀ s : MiniPascal.Statement,
    e ∈ (env.operands s).flatMap Operand.exprs ↔ e ∈ s.exprs
  | .call p name arguments => by
    rw [Env.operands, MiniPascal.Statement.exprs]
    split
    · exact mem_builtinOperands hstring _ _
    · rw [flatMap_singleton, Operand.exprs]
  | .compound _ parts => mem_operandsAll hstring parts
  | .branch _ _ onTrue none => by
    simp only [Env.operands, MiniPascal.Statement.exprs, flatMap_cons, Operand.exprs, cons_append,
      nil_append, mem_cons, mem_operands hstring onTrue]
  | .branch _ _ onTrue (some onFalse) => by
    simp only [Env.operands, MiniPascal.Statement.exprs, flatMap_cons, flatMap_append,
      Operand.exprs, cons_append, nil_append, mem_cons, mem_append, mem_operands hstring onTrue,
      mem_operands hstring onFalse]
  | .count _ _ _ _ _ body | .loop _ _ body => by
    simp only [Env.operands, MiniPascal.Statement.exprs, flatMap_cons, Operand.exprs, cons_append,
      nil_append, mem_cons, mem_operands hstring body]
  | .assign .. | .exit _ => by simp [Env.operands, Operand.exprs, MiniPascal.Statement.exprs]

theorem mem_operandsAll (hstring : e.isString = false) : ∀ ss : List MiniPascal.Statement,
    e ∈ (env.operandsAll ss).flatMap Operand.exprs ↔ e ∈ MiniPascal.Statement.exprsAll ss
  | [] => Iff.rfl
  | s :: ss => by
    simp only [Env.operandsAll, MiniPascal.Statement.exprsAll, flatMap_append, mem_append,
      mem_operands hstring s, mem_operandsAll hstring ss]

end

variable {α : Type} {F : Expr → List α} {P : α → Prop} {G : MiniPascal.Expr → Prop}

theorem Formed.contents {o : Operand} {f : Form} (h : Formed env o f)
    (collects : Collects F)
    (hlowered : ∀ e ∈ o.exprs, ∀ c, lowerExpr env e = .ok c → ((∃ x ∈ F c, P x) ↔ G e)) :
    (∃ c ∈ f.exprs, ∃ x ∈ F c, P x) ↔ ∃ e ∈ o.exprs, G e := by
  -- expressions and forms that belong together one by one
  have hall : ∀ {es : List MiniPascal.Expr} {cs : List Expr},
      Forall₂ (fun e c => lowerExpr env e = .ok c) es cs →
      (∀ e ∈ es, ∀ c, lowerExpr env e = .ok c → ((∃ x ∈ F c, P x) ↔ G e)) →
      ((∃ c ∈ cs, ∃ x ∈ F c, P x) ↔ ∃ e ∈ es, G e) := by
    intro es cs hforms
    induction hforms with
    | nil => simp
    | cons hc _ ih =>
      intro hes
      obtain ⟨he, hes⟩ := forall_mem_cons.mp hes
      simp only [exists_mem_cons_iff, ih hes, he _ hc]
  cases h with
  | value _ lowered | input _ _ lowered => exact hall (.cons lowered .nil) hlowered
  | counter => simp [Form.exprs, Operand.exprs, collects.var]
  | step _ lowered =>
    exact hall (forall₂_map_right_iff.mpr (forms_of_step lowered)) hlowered
  | target _ _ lowered =>
    cases target_eq_ok lowered with
    | result => simp [Form.exprs, Operand.exprs, collects.var]
    | place _ hcs hplace =>
      refine Iff.trans ?_ (hall (forall₂_map_left_iff.mp (convertAll_eq_ok.mp hcs)) hlowered)
      simp only [Form.exprs, mem_singleton, exists_eq_left, collects.place hplace, mem_flatMap]
      exact ⟨fun ⟨d, ⟨x, hx, hd⟩, h⟩ => ⟨x, hx, d, hd, h⟩,
        fun ⟨x, hx, d, hd, h⟩ => ⟨d, ⟨x, hx, hd⟩, h⟩⟩

end

/-! ## Programs -/

def Program.exprs (q : Program) : List Expr :=
  q.constants.map Constant.value ++
    q.parts.flatMap fun b => (Statement.formsAll b.2).flatMap Form.exprs

/-- The surroundings in which parts of a program are lowered. -/
structure Env.Within (p : MiniPascal.Program) (folding : Bool) (env : Env) : Prop where
  names : env.names = Names.ofProgram p (finished p).names
  folding : env.folding = folding

/-- Lowering an expression of a program brings something about if it has another property, which
neither names nor strings have. -/
structure Brings {α : Type} (p : MiniPascal.Program) (folding : Bool) (F : Expr → List α)
    (P : α → Prop) (G : MiniPascal.Expr → Prop) : Prop where
  lowered : ∀ {env : Env}, env.Within p folding → ∀ e ∈ p.exprs, ∀ c, lowerExpr env e = .ok c →
    ((∃ x ∈ F c, P x) ↔ G e)
  name : ∀ position n, ¬G (.name position n)
  string : ∀ position s, ¬G (.string position s)

section

variable {p : MiniPascal.Program} {folding : Bool} {q : Program}

theorem exists_part (folding : Bool) {e : MiniPascal.Expr} (he : e ∈ p.exprs) :
    (∃ b ∈ p.bodies, ∃ d ∈ b.consts, d.value = e) ∨
      ∃ a ∈ Part.ofProgram p folding, e ∈ MiniPascal.Statement.exprsAll a.statements := by
  rcases mem_append.mp he with he | he
  · rcases mem_append.mp he with he | he
    · exact .inl ⟨_, mem_cons_self, mem_map.mp he⟩
    · exact .inr ⟨_, mem_cons_self, he⟩
  · obtain ⟨s, hs, he⟩ := mem_flatMap.mp he
    rcases mem_append.mp he with he | he
    · exact .inl ⟨_, mem_cons_of_mem _ (mem_map_of_mem hs), mem_map.mp he⟩
    · exact .inr ⟨_, mem_cons_of_mem _ (mem_map_of_mem hs), he⟩

theorem mem_exprs_of_part {a : Part} (ha : a ∈ Part.ofProgram p folding) {e : MiniPascal.Expr}
    (he : e ∈ MiniPascal.Statement.exprsAll a.statements) : e ∈ p.exprs := by
  rcases mem_cons.mp ha with rfl | ha
  · exact mem_append_left _ (mem_append_right _ he)
  · obtain ⟨s, hs, rfl⟩ := mem_map.mp ha
    exact mem_append_right _ (mem_flatMap.mpr ⟨s, hs, mem_append_right _ he⟩)

theorem PartOf.within {a : Part} {b : List Declaration × List Statement}
    (h : PartOf p folding q a b) : a.env.Within p folding :=
  ⟨h.names_eq, by cases h <;> rfl⟩

/-- A constant whose value has a property, and is lowered from what it is declared as, unless that
is a name. -/
structure Constant.Lowered (p : MiniPascal.Program) (folding : Bool) (H : Expr → Prop)
    (d : ConstDecl) (c : Constant) : Prop where
  holds : H c.value
  lowered : (∀ position n, d.value ≠ .name position n) →
    ∃ env : Env, env.Within p folding ∧ lowerExpr env d.value = .ok c.value

variable {env : Env} {known known' : Constants} {H : Expr → Prop}

theorem lowerConsts_lowered (within : env.Within p folding) (hknown : ∀ entry ∈ known, H entry.2)
    {ds : List ConstDecl} {cs : List Constant} (h : lowerConsts env known ds = .ok (cs, known'))
    (hvalues : ∀ d ∈ ds, ∀ c, lowerExpr env d.value = .ok c → H c) :
    Forall₂ (Constant.Lowered p folding H) ds cs ∧ ∀ entry ∈ known', H entry.2 := by
  obtain ⟨hcs, hafter⟩ := lowerConsts_values hknown h hvalues
  exact ⟨hcs.imp fun d c ⟨_, hholds, hlowered⟩ =>
    ⟨hholds, fun hname => ⟨env, within, hlowered hname⟩⟩, hafter⟩

theorem lowerSubprograms_lowered (within : env.Within p folding)
    (hknown : ∀ entry ∈ known, H entry.2) {ss : List Subprogram} {rs : List Routine}
    (h : lowerSubprograms env known ss = .ok rs)
    (hvalues : ∀ {env : Env}, env.Within p folding → ∀ s ∈ ss, ∀ d ∈ s.body.consts, ∀ c,
      lowerExpr env d.value = .ok c → H c) :
    Forall₂ (fun s r => Forall₂ (Constant.Lowered p folding H) s.body.consts
      r.body.declarations.constants) ss rs := by
  induction ss generalizing known rs with
  | nil =>
    cases h
    exact .nil
  | cons s ss ih =>
    obtain ⟨r, known', rest, hr, hrest, rfl⟩ := lowerSubprograms_cons.mp h
    obtain ⟨block, _, _, hdeclarations⟩ := lowerSubprogram_eq_ok hr
    have hinner : Env.Within p folding { env with block, subprogram := some s.heading } :=
      ⟨within.names, within.folding⟩
    obtain ⟨hcs, hafter⟩ := lowerConsts_lowered hinner hknown
      (lowerDeclarations_consts hdeclarations) (hvalues hinner s mem_cons_self)
    exact .cons hcs (ih hafter hrest fun hw s hs => hvalues hw s (mem_cons_of_mem _ hs))

/-- The constants of a program have what all forms of its expressions have, and every declared one
is among them. -/
theorem Assembled.constants (h : Assembled p folding q)
    (hvalues : ∀ {env : Env}, env.Within p folding → ∀ e ∈ p.exprs, ∀ c, lowerExpr env e = .ok c →
      H c) :
    (∀ c ∈ q.constants, H c.value) ∧
      ∀ b ∈ p.bodies, ∀ d ∈ b.consts, ∃ c ∈ q.constants, Constant.Lowered p folding H d c := by
  obtain ⟨known, hdeclarations, hroutines⟩ := h.lowered
  have within : (Env.ofProgram p folding).Within p folding := ⟨rfl, rfl⟩
  obtain ⟨houtside, hknown⟩ := lowerConsts_lowered within (forall_mem_nil _)
    (lowerDeclarations_consts hdeclarations) fun d hd =>
      hvalues within _ (mem_append_left _ (mem_append_left _ (mem_map_of_mem hd)))
  have hinside := lowerSubprograms_lowered within hknown hroutines fun hw s hs d hd =>
    hvalues hw _ (mem_append_right _ (mem_flatMap.mpr
      ⟨s, hs, mem_append_left _ (mem_map_of_mem hd)⟩))
  constructor
  · refine forall_mem_append.mpr ⟨forall_mem_append.mpr (h.forall_outside fun c hc => ?_),
      forall_mem_flatMap.mpr fun r hr c hc => ?_⟩
    · obtain ⟨_, _, hc⟩ := exists_left_of_mem houtside hc
      exact hc.holds
    · obtain ⟨s, _, hr⟩ := exists_left_of_mem hinside hr
      obtain ⟨_, _, hc⟩ := exists_left_of_mem hr hc
      exact hc.holds
  · refine forall_mem_cons.mpr ⟨fun d hd => ?_, forall_mem_map.mpr fun s hs d hd => ?_⟩
    · obtain ⟨c, hc, hd⟩ := exists_left_of_mem houtside.flip hd
      refine ⟨c, mem_append_left _ (mem_append.mpr ?_), hd⟩
      unfold Program.outside at hc
      split at hc
      · exact .inr hc
      · exact .inl hc
    · obtain ⟨r, hr, hs⟩ := exists_left_of_mem hinside.flip hs
      obtain ⟨c, hc, hd⟩ := exists_left_of_mem hs.flip hd
      exact ⟨c, mem_append_right _ (mem_flatMap.mpr ⟨r, hr, hc⟩), hd⟩

variable {α : Type} {F : Expr → List α} {P : α → Prop} {G : MiniPascal.Expr → Prop}

theorem Brings.not_isString (brings : Brings p folding F P G) {e : MiniPascal.Expr} (h : G e) :
    e.isString = false := by
  cases e with
  | string position s => exact absurd h (brings.string position s)
  | int | real | char | bool | element | name | call | binary | unary => rfl

/-- The forms of an operand have it if one of its expressions brings it about. -/
theorem PartOf.contents (collects : Collects F)
    (brings : Brings p folding F P G) {a : Part} {b : List Declaration × List Statement}
    (ha : a ∈ Part.ofProgram p folding) (h : PartOf p folding q a b) {o : Operand} {f : Form}
    (ho : o ∈ a.operands) (hformed : Formed a.env o f) :
    (∃ c ∈ f.exprs, ∃ x ∈ F c, P x) ↔ ∃ e ∈ o.exprs, G e := by
  refine hformed.contents collects fun e he c hc => ?_
  cases hstring : e.isString with
  | true =>
    cases e with
    | string position s =>
      have hc : c = .string s := by
        unfold lowerExpr Env.prepared at hc
        split at hc <;> cases hc <;> rfl
      simp [hc, collects.string, brings.string]
    | int | real | char | bool | element | name | call | binary | unary => cases hstring
  | false =>
    have hmem := (mem_operandsAll hstring _).mp (mem_flatMap.mpr ⟨o, ho, he⟩)
    exact brings.lowered h.within e (mem_exprs_of_part ha hmem) c hc

theorem Assembled.contents (accepted : Accepted p) (h : Assembled p folding q)
    (collects : Collects F) (brings : Brings p folding F P G) :
    (∃ c ∈ q.exprs, ∃ x ∈ F c, P x) ↔ ∃ e ∈ p.exprs, G e := by
  obtain ⟨hconstants, hdeclared⟩ := h.constants
    (H := fun c => (∃ x ∈ F c, P x) → ∃ e ∈ p.exprs, G e)
    fun hw e he c hc hx => ⟨e, he, (brings.lowered hw e he c hc).mp hx⟩
  have hparts := h.parts accepted
  constructor
  · rintro ⟨c, hc, hx⟩
    rcases mem_append.mp hc with hc | hc
    · obtain ⟨k, hk, rfl⟩ := mem_map.mp hc
      exact hconstants k hk hx
    · obtain ⟨b, hb, hc⟩ := mem_flatMap.mp hc
      obtain ⟨f, hf, hc⟩ := mem_flatMap.mp hc
      obtain ⟨a, ha, hpart⟩ := exists_left_of_mem hparts hb
      obtain ⟨o, ho, hformed⟩ := exists_left_of_mem (hpart.formed accepted) hf
      obtain ⟨e, he, hG⟩ :=
        (hpart.contents collects brings ha ho hformed).mp ⟨c, hc, hx⟩
      have hmem := (mem_operandsAll (brings.not_isString hG) _).mp (mem_flatMap.mpr ⟨o, ho, he⟩)
      exact ⟨e, mem_exprs_of_part ha hmem, hG⟩
  · rintro ⟨e, he, hG⟩
    rcases exists_part folding he with ⟨b, hb, d, hd, rfl⟩ | ⟨a, ha, he⟩
    · obtain ⟨c, hc, hd⟩ := hdeclared b hb d hd
      obtain ⟨env, hw, hlowered⟩ := hd.lowered fun position n hname =>
        brings.name position n (hname ▸ hG)
      exact ⟨_, mem_append_left _ (mem_map_of_mem hc), (brings.lowered hw _ he _ hlowered).mpr hG⟩
    · obtain ⟨b, hb, hpart⟩ := exists_left_of_mem hparts.flip ha
      have hmem : e ∈ a.operands.flatMap Operand.exprs :=
        (mem_operandsAll (brings.not_isString hG) a.statements).mpr he
      obtain ⟨o, ho, he⟩ := mem_flatMap.mp hmem
      obtain ⟨f, hf, hformed⟩ := exists_left_of_mem (hpart.formed accepted).flip ho
      obtain ⟨c, hc, hx⟩ :=
        (hpart.contents collects brings ha ho hformed).mpr ⟨e, he, hG⟩
      exact ⟨c, mem_append_right _ (mem_flatMap.mpr ⟨b, hb, mem_flatMap.mpr ⟨f, hf, hc⟩⟩), hx⟩

end

end C

end MiniPascal
