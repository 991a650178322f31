import MiniPascal.Proofs.FatalFaults
import MiniPascal.Proofs.Relocation

/-!
# Trees are made of tokens

Whatever a reader puts into a tree it has read off a token, also after faults. And from the same
tokens at other places it makes the same tree with the places changed (`follows_program`).
-/

namespace MiniPascal

open List

section Trees

variable (T : Token → Prop)

def Placed (p : Position) : Prop := ∃ t, T t ∧ t.position = p

/-- What one of the tokens names, and its place. -/
def NamedAt (name : String) (p : Position) : Prop := ∃ t, T t ∧ t.Names name ∧ t.position = p

def Named (name : String) : Prop := ∃ p, NamedAt T name p

/-- The number of one of the tokens, or its opposite. -/
def Bounding (w : Int64) : Prop := ∃ t v, T t ∧ t.Counts v ∧ (w = v ∨ w = -v)

/-- Expressions with all that they hold from the tokens. -/
inductive Expr.Drawn : Expr → Prop
  | int {t v} : T t → t.Counts v → Drawn (.int t.position v)
  | real {t v} : T t → t.kind = .real → t.payload = some (.real v) → Drawn (.real t.position v)
  | char {t text c} : T t → t.kind = .quoted → t.payload = some (.text text) →
      text.toList = [c] → c.toNat < 128 → Drawn (.char t.position c)
  | string {t text} : T t → t.kind = .quoted → t.payload = some (.text text) →
      (∀ c, text.toList = [c] → 128 ≤ c.toNat) → Drawn (.string t.position text)
  | bool {p v} : Placed T p → Drawn (.bool p v)
  | element {p n es} : NamedAt T n p → es ≠ [] → (∀ e ∈ es, Drawn e) → Drawn (.element p n es)
  | name {p n} : NamedAt T n p → Drawn (.name p n)
  | call {p n es} : NamedAt T n p → (∀ e ∈ es, Drawn e) → Drawn (.call p n es)
  | binary {op left right} : Drawn left → Drawn right →
      Drawn (.binary left.position op left right)
  | unary {p op e} : Placed T p → Drawn e → Drawn (.unary p op e)

inductive Statement.Drawn : Statement → Prop
  | assign {p n es e} : NamedAt T n p → (∀ e ∈ es, Expr.Drawn T e) → e.Drawn T →
      Drawn (.assign p n es e)
  | call {p n es} : NamedAt T n p → (∀ e ∈ es, Expr.Drawn T e) → Drawn (.call p n es)
  | compound {p ss} : Placed T p → (∀ s ∈ ss, Drawn s) → Drawn (.compound p ss)
  | ifThen {p c s} : Placed T p → c.Drawn T → Drawn s → Drawn (.branch p c s none)
  | ifThenElse {p c s s'} : Placed T p → c.Drawn T → Drawn s → Drawn s' →
      Drawn (.branch p c s (some s'))
  | count {p n first last d s} : Placed T p → Named T n → first.Drawn T → last.Drawn T →
      Drawn s → Drawn (.count p n first last d s)
  | loop {p c s} : Placed T p → c.Drawn T → Drawn s → Drawn (.loop p c s)
  | exit {p} : Placed T p → Drawn (.exit p)

/-- Names in a list of them, of which there is at least one. -/
def NamedAll (names : List String) : Prop := names ≠ [] ∧ ∀ n ∈ names, Named T n

/-- Bounds that are in order and count their elements in a word. -/
structure Period.Ranged (period : Period) : Prop where
  ordered : period.lower ≤ period.upper
  countable : period.size?.isSome

structure Period.Drawn (d : Period) : Prop where
  lower : Bounding T d.lower
  upper : Bounding T d.upper
  ranged : d.Ranged

structure ConstDecl.Drawn (d : ConstDecl) : Prop where
  name : NamedAt T d.name d.position
  value : d.value.Drawn T

structure VarDecl.Drawn (d : VarDecl) : Prop where
  names : NamedAll T d.names
  periods : ∀ period ∈ d.periods, period.Drawn T
  position : Placed T d.position

structure ParamGroup.Drawn (g : ParamGroup) : Prop where
  names : NamedAll T g.names
  position : Placed T g.position

structure Heading.Drawn (h : Heading) : Prop where
  name : Named T h.name
  groups : ∀ g ∈ h.groups, g.Drawn T
  position : Placed T h.position

structure Body.Drawn (b : Body) : Prop where
  consts : ∀ d ∈ b.consts, d.Drawn T
  vars : ∀ d ∈ b.vars, d.Drawn T
  statements : ∀ s ∈ b.statements, s.Drawn T
  position : Placed T b.position

structure Subprogram.Drawn (s : Subprogram) : Prop where
  heading : s.heading.Drawn T
  body : s.body.Drawn T

/-- All of a program but its own name, which is empty when its head could not be read. -/
structure Program.Drawn (p : Program) : Prop where
  parameters : ∀ n ∈ p.parameters, Named T n
  position : Placed T p.position
  subprograms : ∀ s ∈ p.subprograms, s.Drawn T
  body : p.body.Drawn T

end Trees

section Readers

variable (f : Position → Position) (T : Token → Prop)

abbrev Parse.Follows {α : Type} (R : α → α → Prop) (x' x : Parse α) : Prop :=
  MiniPascal.Follows (Fault.Moved f) (Input.Moved f T) R x' x

abbrev Phrase.Follows {α : Type} (R : α → α → Prop) (x' x : Phrase α) : Prop :=
  MiniPascal.Follows (Fault.Moved f) (Session.Moved f T) R x' x

/-- Input that is no token is the same fault on both sides. -/
abbrev Recover.Follows {α : Type} (R : α → α → Prop) (x' x : Recover α) : Prop :=
  MiniPascal.Follows (fun _ _ => True) (Session.Moved f T) R x' x

/-- The reader makes the same of both texts up to a change by `m`, and that has the property `P`. -/
abbrev Parse.Makes {α : Type} (m : α → α) (P : α → Prop) (x : Parse α) : Prop :=
  Parse.Follows f T (fun a' a => a' = m a ∧ P a) x x

abbrev Phrase.Makes {α : Type} (m : α → α) (P : α → Prop) (x : Phrase α) : Prop :=
  Phrase.Follows f T (fun a' a => a' = m a ∧ P a) x x

abbrev Recover.Makes {α : Type} (m : α → α) (P : α → Prop) (x : Recover α) : Prop :=
  Recover.Follows f T (fun a' a => a' = m a ∧ P a) x x

/-- The reader makes the same of both texts. -/
abbrev Parse.Keeps {α : Type} (x : Parse α) : Prop := Parse.Follows f T Eq x x

abbrev Phrase.Keeps {α : Type} (x : Phrase α) : Prop := Phrase.Follows f T Eq x x

abbrev Recover.Keeps {α : Type} (x : Recover α) : Prop := Recover.Follows f T Eq x x

end Readers

namespace Parse

variable {f : Position → Position} {T : Token → Prop} {α : Type} {R : α → α → Prop} {m : α → α}
  {P : α → Prop}

theorem follows_kind : Parse.Keeps f T kind := .get fun _ _ h => .pure h.kind

theorem follows_position : Makes f T f (Placed T) position :=
  .get fun _ i h => .pure ⟨h.current.position, i.current, h.current.mem, rfl⟩

theorem follows_advance : Parse.Follows f T (Token.Moved f T) advance advance :=
  fun _ _ h => ⟨h.current, h.advance⟩

theorem follows_expected (what : String) : Parse.Follows f T R (expected what) (expected what) :=
  .get fun _ _ h => .throw (h.unexpected what)

theorem follows_accept (k : Token.Kind) : Parse.Keeps f T (accept k) :=
  .bind_same follows_kind fun _ => .ite (.bind follows_advance fun _ _ _ => .pure rfl) (.pure rfl)

theorem follows_expect (k : Token.Kind) (what : String) :
    Parse.Follows f T (fun t' t => Token.Moved f T t' t ∧ t.kind = k) (expect k what)
      (expect k what) := by
  intro i' i h
  unfold expect
  rw [kind_bind, kind_bind, h.kind]
  by_cases hk : i.kind = k
  · rw [if_pos hk]
    exact ⟨⟨h.current, hk⟩, h.advance⟩
  · rw [if_neg hk]
    exact ⟨h.unexpected what, h⟩

theorem follows_more {item : Parse α} (separator : Token.Kind) (h : Makes f T m P item) :
    ∀ n, Makes f T (List.map m) (fun as => ∀ a ∈ as, P a) (more separator item n)
  | 0 => .pure ⟨rfl, forall_mem_nil _⟩
  | n + 1 => .bind_same (follows_accept separator) fun _ =>
    .ite (.bind_map h fun _ ha => .bind_map (follows_more separator h n) fun _ has =>
      .pure ⟨rfl, forall_mem_cons.mpr ⟨ha, has⟩⟩) (.pure ⟨rfl, forall_mem_nil _⟩)

theorem follows_separated {first item : Parse α} (separator : Token.Kind)
    (hfirst : Makes f T m P first) (h : Makes f T m P item) :
    Makes f T (List.map m) (fun as => as ≠ [] ∧ ∀ a ∈ as, P a)
      (separated separator first item) := by
  refine .bind_map hfirst fun a ha => .get fun i' i hi => ?_
  rw [hi.length]
  exact .bind_map (follows_more separator h _) fun _ has =>
    .pure ⟨rfl, cons_ne_nil _ _, forall_mem_cons.mpr ⟨ha, has⟩⟩

theorem follows_list {first item : Parse α} (separator : Token.Kind)
    (hfirst : Makes f T id P first) (h : Makes f T id P item) :
    Makes f T id (fun as => as ≠ [] ∧ ∀ a ∈ as, P a) (separated separator first item) :=
  (follows_separated separator hfirst h).mono fun _ as h => ⟨h.1.trans (map_id as), h.2⟩

section Expressions

variable {operand : Parse Expr} (h : Makes f T (Expr.moved f) (Expr.Drawn T) operand)
include h

theorem follows_chain (tier : Nat) : ∀ n left, left.Drawn T →
    Parse.Follows f T (fun e' e => e' = e.moved f ∧ e.Drawn T)
      (chain tier operand n (left.moved f)) (chain tier operand n left)
  | 0, _, hleft => .pure ⟨rfl, hleft⟩
  | n + 1, left, hleft => by
    refine .bind_same follows_kind fun k => ?_
    split
    · exact .pure ⟨rfl, hleft⟩
    · refine .ite (.bind follows_advance fun _ _ _ => .bind_map h fun right hright => ?_)
        (.pure ⟨rfl, hleft⟩)
      rw [Expr.position_moved]
      exact follows_chain tier n _ (.binary hleft hright)

theorem follows_tier (tier : Nat) :
    Makes f T (Expr.moved f) (Expr.Drawn T) (Parse.tier tier operand) := by
  refine .bind_map h fun left hleft => .get fun i' i hi => ?_
  rw [hi.length]
  exact follows_chain h tier _ left hleft

theorem follows_expressionOver :
    Makes f T (Expr.moved f) (Expr.Drawn T) (expressionOver operand) :=
  follows_tier (follows_tier (follows_tier h 3) 2) 1

theorem follows_argumentList :
    Makes f T (Expr.allMoved f) (fun es => ∀ e ∈ es, e.Drawn T) (argumentList operand) := by
  refine .bind (follows_expect _ _) fun _ _ _ => .bind_same (follows_accept _) fun _ => ?_
  refine .ite (.pure ⟨rfl, forall_mem_nil _⟩) (.bind_map (follows_separated _ h h) fun es hes => ?_)
  exact .bind (follows_expect _ _) fun _ _ _ => .pure ⟨(Expr.allMoved_eq_map f es).symm, hes.2⟩

theorem follows_indexList : Makes f T (Expr.allMoved f)
    (fun es => es ≠ [] ∧ ∀ e ∈ es, e.Drawn T) (indexList operand) := by
  refine .bind (follows_expect _ _) fun _ _ _ =>
    .bind_map (follows_separated _ h h) fun es hes => ?_
  exact .bind (follows_expect _ _) fun _ _ _ => .pure ⟨(Expr.allMoved_eq_map f es).symm, hes⟩

end Expressions

theorem moved_quotedValue (p : Position) (text : String) :
    quotedValue (f p) text = (quotedValue p text).moved f := by
  unfold quotedValue
  split
  · split <;> rfl
  · rfl

theorem drawn_quotedValue {t : Token} {text : String} (ht : T t) (hk : t.kind = .quoted)
    (hp : t.payload = some (.text text)) : (quotedValue t.position text).Drawn T := by
  unfold quotedValue
  split
  · next c hc =>
    split
    · next hascii => exact .char ht hk hp hc hascii
    · next hother =>
      refine .string ht hk hp fun d hd => ?_
      cases hc.symm.trans hd
      exact Nat.le_of_not_lt hother
  · next hother => exact .string ht hk hp fun c hc => absurd hc (hother c)

section Named

variable (hT : ∀ t, T t → t.carries = true)
include hT

theorem follows_identifier (what : String) :
    Makes f T (Prod.map id f) (fun r => NamedAt T r.1 r.2) (identifier what) := by
  refine .bind (follows_expect .identifier what) fun t' t ⟨ht, hk⟩ => ?_
  obtain ⟨name, hname⟩ := Token.exists_text (hT t ht.mem) (.inl hk)
  rw [ht.payload, hname]
  exact .pure ⟨congrArg (name, ·) ht.position, t, ht.mem, ⟨hk, hname⟩, rfl⟩

theorem follows_names (what : String) : Makes f T id (NamedAll T) (names what) := by
  have hname : ∀ what, Makes f T id (Named T) (Prod.fst <$> identifier what) :=
    fun what => (follows_identifier hT what).map fun _ _ h => ⟨by rw [h.1]; rfl, _, h.2⟩
  exact follows_list _ (hname _) (hname _)

theorem follows_named {operand : Parse Expr}
    (h : Makes f T (Expr.moved f) (Expr.Drawn T) operand) :
    Makes f T (Expr.moved f) (Expr.Drawn T) (named operand) := by
  refine .bind_map (follows_identifier hT _) fun ⟨name, p⟩ hname =>
    .bind_same follows_kind fun k => ?_
  split
  · exact .bind_map (follows_argumentList h) fun _ hes => .pure ⟨rfl, .call hname hes⟩
  · exact .bind_map (follows_indexList h) fun _ hes => .pure ⟨rfl, .element hname hes.1 hes.2⟩
  · exact .pure ⟨rfl, .name hname⟩

omit hT in
theorem paired_advance {i' i : Input} (hi : Input.Moved f T i' i) {g' g : Token → Parse α}
    (h : Parse.Follows f T R (g' i'.current) (g i.current)) :
    Paired (Fault.Moved f) (Input.Moved f T) R ((advance >>= g') i') ((advance >>= g) i) :=
  h hi.advance

theorem paired_number {i' i : Input} (hi : Input.Moved f T i' i)
    (hk : i.kind = .integer ∨ i.kind = .real) :
    Paired (Fault.Moved f) (Input.Moved f T) (fun e' e => e' = Expr.moved f e ∧ e.Drawn T)
      (number i') (number i) := by
  have ht := hi.current
  refine paired_advance hi ?_
  rw [ht.payload, ht.position]
  rcases hk with hk | hk
  · obtain ⟨v, hv⟩ := Token.exists_integer (hT _ ht.mem) hk
    rw [hv]
    exact .pure ⟨rfl, .int ht.mem ⟨hk, hv⟩⟩
  · obtain ⟨v, hv⟩ := Token.exists_real (hT _ ht.mem) hk
    rw [hv]
    exact .pure ⟨rfl, .real ht.mem hk hv⟩

theorem paired_quoted {i' i : Input} (hi : Input.Moved f T i' i) (hk : i.kind = .quoted) :
    Paired (Fault.Moved f) (Input.Moved f T) (fun e' e => e' = Expr.moved f e ∧ e.Drawn T)
      (quoted i') (quoted i) := by
  have ht := hi.current
  obtain ⟨v, hv⟩ := Token.exists_text (hT _ ht.mem) (.inr hk)
  refine paired_advance hi ?_
  rw [ht.payload, ht.position, hv]
  exact .pure ⟨moved_quotedValue _ _, drawn_quotedValue ht.mem hk hv⟩

theorem follows_operandWithin :
    ∀ n, Makes f T (Expr.moved f) (Expr.Drawn T) (operandWithin n)
  | 0 => follows_expected _
  | n + 1 => by
    have ih := follows_operandWithin n
    have hunary : ∀ op, Makes f T (Expr.moved f) (Expr.Drawn T)
        (do return .unary (← advance).position op (← operandWithin n)) := by
      intro op
      refine .bind follows_advance fun t' t ht => .bind_map ih fun e he => ?_
      rw [ht.position]
      exact .pure ⟨rfl, .unary ⟨t, ht.mem, rfl⟩ he⟩
    have hbool : ∀ v, Makes f T (Expr.moved f) (Expr.Drawn T)
        (do return .bool (← advance).position v) := by
      intro v
      refine .bind follows_advance fun t' t ht => ?_
      rw [ht.position]
      exact .pure ⟨rfl, .bool ⟨t, ht.mem, rfl⟩⟩
    have hparens : Makes f T (Expr.moved f) (Expr.Drawn T) (do
        let _ ← advance
        let e ← expressionOver (operandWithin n)
        let _ ← expect (.mark .closeParen) "')' after expression"
        return e) :=
      .bind follows_advance fun _ _ _ => .bind_map (follows_expressionOver ih) fun _ he =>
        .bind (follows_expect _ _) fun _ _ _ => .pure ⟨rfl, he⟩
    intro i' i hi
    rw [operandWithin, kind_bind, kind_bind, hi.kind]
    generalize hk : i.kind = k
    split
    · exact paired_number hT hi (.inl hk)
    · exact paired_number hT hi (.inr hk)
    · exact paired_quoted hT hi hk
    · exact hbool true hi
    · exact hbool false hi
    · exact hparens hi
    · exact hunary .plus hi
    · exact hunary .minus hi
    · exact hunary .not hi
    · exact follows_named hT (follows_expressionOver ih) hi
    · exact follows_expected _ hi

theorem follows_operand : Makes f T (Expr.moved f) (Expr.Drawn T) operand := by
  refine .get fun i' i hi => ?_
  rw [hi.length]
  exact follows_operandWithin hT _

theorem follows_expression : Makes f T (Expr.moved f) (Expr.Drawn T) expression := by
  refine .get fun i' i hi => ?_
  rw [hi.length]
  exact follows_expressionOver (follows_operandWithin hT _)

section Declarations

omit hT in
theorem follows_scalarType : Parse.Keeps f T scalarType := by
  refine .bind_same follows_kind fun k => ?_
  split
  all_goals first
    | exact .bind follows_advance fun _ _ _ => .pure rfl
    | exact follows_expected _

theorem follows_bound : Makes f T id (Bounding T) bound := by
  refine .bind_same (follows_accept _) fun negative =>
    .bind (follows_expect _ _) fun t' t ⟨ht, hk⟩ => ?_
  obtain ⟨v, hv⟩ := Token.exists_integer (hT t ht.mem) hk
  rw [ht.payload, hv]
  refine .pure ⟨rfl, t, v, ht.mem, ⟨hk, hv⟩, ?_⟩
  cases negative
  · exact .inl rfl
  · exact .inr rfl

theorem follows_period : Makes f T id (Period.Drawn T) period := by
  refine .bind_map follows_position fun p _ => .bind_map (follows_bound hT) fun lower hlower => ?_
  refine .bind (follows_expect _ _) fun _ _ _ => .bind_map (follows_bound hT) fun upper hupper => ?_
  dsimp only [id]
  split
  · exact .throw rfl
  · next hordered =>
    split
    · exact .throw rfl
    · next hsize =>
      exact .pure ⟨rfl, hlower, hupper, Int64.not_lt.mp hordered,
        by simpa [Option.isSome_iff_ne_none] using hsize⟩

theorem follows_type : Makes f T id (fun r => ∀ period ∈ r.2, period.Drawn T) type := by
  have hscalar : ∀ {periods : List Period}, (∀ period ∈ periods, period.Drawn T) →
      Makes f T id (fun r => ∀ period ∈ r.2, period.Drawn T)
        (do return (← scalarType, periods)) :=
    fun h => .bind_same follows_scalarType fun _ => .pure ⟨rfl, h⟩
  refine .bind_same (follows_accept _) fun _ => .ite ?_ (hscalar (forall_mem_nil _))
  refine .bind (follows_expect _ _) fun _ _ _ =>
    .bind_map (follows_list _ (follows_period hT) (follows_period hT)) fun _ hperiods => ?_
  exact .bind (follows_expect _ _) fun _ _ _ => .bind (follows_expect _ _) fun _ _ _ =>
    hscalar hperiods.2

theorem follows_constDecl :
    Makes f T (ConstDecl.moved f) (ConstDecl.Drawn T) constDecl := by
  refine .bind_map (follows_identifier hT _) fun ⟨name, p⟩ hname => ?_
  refine .bind (follows_expect _ _) fun _ _ _ =>
    .bind_map (follows_operand hT) fun value hvalue => ?_
  exact .bind (follows_expect _ _) fun _ _ _ => .pure ⟨rfl, hname, hvalue⟩

theorem follows_varDecl : Makes f T (VarDecl.moved f) (VarDecl.Drawn T) varDecl := by
  refine .bind_map follows_position fun p hp =>
    .bind_map (follows_names hT _) fun names hnames => ?_
  refine .bind (follows_expect _ _) fun _ _ _ =>
    .bind_map (follows_type hT) fun ⟨type, periods⟩ hperiods => ?_
  exact .bind (follows_expect _ _) fun _ _ _ => .pure ⟨rfl, hnames, hperiods, hp⟩

theorem follows_paramGroup :
    Makes f T (ParamGroup.moved f) (ParamGroup.Drawn T) paramGroup := by
  refine .bind_map follows_position fun p hp => .bind_same (follows_accept _) fun _ => ?_
  refine .bind_map (follows_names hT _) fun names hnames => ?_
  exact .bind (follows_expect _ _) fun _ _ _ => .bind_same follows_scalarType fun _ =>
    .pure ⟨rfl, hnames, hp⟩

theorem follows_paramGroups : Makes f T (List.map (ParamGroup.moved f))
    (fun gs => ∀ g ∈ gs, g.Drawn T) paramGroups := by
  have hclose : ∀ groups : List ParamGroup, (∀ g ∈ groups, g.Drawn T) →
      Parse.Follows f T (fun gs' gs => gs' = gs.map (ParamGroup.moved f) ∧ ∀ g ∈ gs, g.Drawn T) (do
        let _ ← expect (.mark .closeParen) "')' after parameters"
        return groups.map (ParamGroup.moved f)) (do
        let _ ← expect (.mark .closeParen) "')' after parameters"
        return groups) :=
    fun _ h => .bind (follows_expect _ _) fun _ _ _ => .pure ⟨rfl, h⟩
  have hgroup := follows_paramGroup (f := f) hT
  refine .bind_same (follows_accept _) fun _ => .ite ?_ (.pure ⟨rfl, forall_mem_nil _⟩)
  refine .bind_same follows_kind fun _ => .ite (hclose [] (forall_mem_nil _)) ?_
  exact .bind_map (follows_separated _ hgroup hgroup) fun gs hgs => hclose gs hgs.2

omit hT in
theorem follows_returnType (isFunction : Bool) : Parse.Keeps f T (returnType isFunction) :=
  .ite (.bind (follows_expect _ _) fun _ _ _ => .bind_same follows_scalarType fun _ => .pure rfl)
    (.pure rfl)

theorem follows_headingAt {p : Position} (hp : Placed T p) (isFunction : Bool) :
    Parse.Follows f T (fun h' h => h' = Heading.moved f h ∧ h.Drawn T) (headingAt (f p) isFunction)
      (headingAt p isFunction) := by
  refine .bind follows_advance fun _ _ _ => .bind_map (follows_identifier hT _) fun np hname => ?_
  refine .bind_map (follows_paramGroups hT) fun groups hgroups => ?_
  refine .bind_same (follows_returnType isFunction) fun returns => ?_
  exact .bind (follows_expect _ _) fun _ _ _ => .pure ⟨rfl, ⟨_, hname⟩, hgroups, hp⟩

theorem follows_heading : Makes f T (Heading.moved f) (Heading.Drawn T) heading := by
  refine .bind_map follows_position fun p hp => .bind_same follows_kind fun k => ?_
  split
  · exact follows_headingAt hT hp true
  · exact follows_headingAt hT hp false
  · exact .bind_same (follows_expected _) (follows_headingAt hT hp)

theorem follows_assignmentOrCall :
    Makes f T (Statement.moved f) (Statement.Drawn T) assignmentOrCall := by
  have hexpr := follows_expression (f := f) hT
  refine .bind_map (follows_identifier hT _) fun ⟨name, p⟩ hname =>
    .bind_same follows_kind fun k => ?_
  split
  · refine .bind_map (follows_indexList hexpr) fun indices hes => ?_
    exact .bind (follows_expect _ _) fun _ _ _ => .bind_map hexpr fun _ he =>
      .pure ⟨rfl, .assign hname hes.2 he⟩
  · exact .bind follows_advance fun _ _ _ => .bind_map hexpr fun _ he =>
      .pure ⟨rfl, .assign hname (forall_mem_nil _) he⟩
  · exact .bind_map (follows_argumentList hexpr) fun _ hes => .pure ⟨rfl, .call hname hes⟩
  · exact follows_expected _
  · exact follows_expected _
  · exact .pure ⟨rfl, .call hname (forall_mem_nil _)⟩

omit hT in
theorem follows_direction : Parse.Keeps f T direction := by
  refine .bind_same follows_kind fun k => ?_
  split
  · exact .bind follows_advance fun _ _ _ => .pure rfl
  · exact .bind follows_advance fun _ _ _ => .pure rfl
  · exact follows_expected _

theorem follows_programHead : Makes f T (Prod.map id (Prod.map id f))
    (fun r => Named T r.1 ∧ (∀ n ∈ r.2.1, Named T n) ∧ Placed T r.2.2) programHead := by
  refine .bind_map follows_position fun p hp => .bind (follows_expect _ _) fun _ _ _ => ?_
  refine .bind_map (follows_identifier hT _) fun ⟨name, _⟩ hname => ?_
  have hend : ∀ parameters : List String, (∀ n ∈ parameters, Named T n) →
      Parse.Follows f T (fun r' r => r' = Prod.map id (Prod.map id f) r ∧
        Named T r.1 ∧ (∀ n ∈ r.2.1, Named T n) ∧ Placed T r.2.2) (do
        let _ ← expect (.mark .semicolon) "';' after program head"
        return (name, parameters, f p)) (do
        let _ ← expect (.mark .semicolon) "';' after program head"
        return (name, parameters, p)) :=
    fun _ h => .bind (follows_expect _ _) fun _ _ _ => .pure ⟨rfl, ⟨_, hname⟩, h, hp⟩
  refine .bind_same (follows_accept _) fun _ => .ite ?_ (hend [] (forall_mem_nil _))
  exact .bind_map (follows_names hT _) fun parameters h => .bind (follows_expect _ _) fun _ _ _ =>
    hend parameters h.2

end Declarations

end Named

end Parse

namespace Recover

variable {f : Position → Position} {T : Token → Prop} {α : Type} {R : α → α → Prop} {m : α → α}
  {P : α → Prop}

theorem follows_kind : Recover.Keeps f T kind := .get fun _ _ h => .pure h.input.kind

theorem follows_position : Makes f T f (Placed T) position :=
  .get fun _ s h => .pure ⟨h.input.current.position, s.input.current, h.input.current.mem, rfl⟩

theorem follows_advance : Recover.Keeps f T advance :=
  .modify fun _ _ h => ⟨h.input.advance, h.notes⟩

theorem follows_note {n' n : Note} (hn : Note.Moved f n' n) :
    Recover.Follows f T Eq (note n') (note n) :=
  .modify fun _ _ h => ⟨h.input, rel_append h.notes (.cons hn .nil)⟩

theorem follows_record {e' e : Fault} (he : Fault.Moved f e' e) :
    Recover.Follows f T Eq (record e') (record e) := by
  cases e' <;> cases e
  · exact .throw trivial
  · exact he.elim
  · exact he.elim
  · exact follows_note he

theorem follows_recordExpected (what : String) : Recover.Keeps f T (recordExpected what) :=
  .get fun _ _ h => follows_record (h.input.unexpected what)

/-- Results or faults of attempts that went the same way. -/
def AttemptMoved (f : Position → Position) (R : α → α → Prop) :
    Except Fault α → Except Fault α → Prop
  | .ok a', .ok a => R a' a
  | .error e', .error e => Fault.Moved f e' e
  | _, _ => False

theorem follows_attempt {p' p : Phrase α} (h : Phrase.Follows f T R p' p) :
    Recover.Follows f T (AttemptMoved f R) (attempt p') (attempt p) := by
  intro s' s hs
  have hps := h hs
  unfold attempt
  cases hp' : p' s' <;> cases hp : p s <;> rw [hp', hp] at hps
  · exact hps
  · exact hps.elim
  · exact hps.elim
  · exact hps

theorem follows_accept (k : Token.Kind) : Recover.Keeps f T (accept k) :=
  .bind_same follows_kind fun _ => .ite (.bind_same follows_advance fun _ => .pure rfl) (.pure rfl)

theorem follows_demand (k : Token.Kind) (what : String) : Recover.Keeps f T (demand k what) :=
  .bind_same (follows_accept k) fun _ =>
    .ite (.pure rfl) (.bind_same (follows_recordExpected what) fun _ => .pure rfl)

theorem follows_resume : Recover.Keeps f T resume := by
  refine .get fun s' s hs => ?_
  dsimp only
  rw [hs.input.kind]
  exact .ite (.throw trivial) (follows_note trivial)

theorem follows_skipTo (stops : List Token.Kind) : Recover.Keeps f T (skipTo stops) :=
  .bind_same (.modify fun _ _ h => ⟨h.input.skipTo stops, h.notes⟩) fun _ => follows_resume

theorem follows_orSkip {p : Phrase α} (h : Phrase.Makes f T m P p) (stops : List Token.Kind) :
    Makes f T (Option.map m) (fun r => ∀ a ∈ r, P a) (orSkip p stops) := by
  refine .bind (follows_attempt h) fun a' a ha => ?_
  cases a' <;> cases a
  · refine .bind_same (follows_record ha) fun _ => .bind_same (follows_skipTo stops) fun _ => ?_
    exact .bind_same (follows_accept _) fun _ => .pure ⟨rfl, by simp⟩
  · exact ha.elim
  · exact ha.elim
  · exact .pure ⟨congrArg some ha.1, by simpa using ha.2⟩

end Recover

namespace Phrase

variable {f : Position → Position} {T : Token → Prop} {α : Type} {R : α → α → Prop}

theorem follows_parse {x' x : Parse α} (h : Parse.Follows f T R x' x) :
    Phrase.Follows f T R (liftM x') (liftM x) := by
  intro s' s hs
  have hx := h hs.input
  have hlift : ∀ (x : Parse α) (s : Session),
      (liftM x : Phrase α) s = (monadLift x : Phrase α) s := fun _ _ => rfl
  rw [hlift, hlift, Parse.lift_apply, Parse.lift_apply]
  cases hx' : x' s'.input <;> cases hxs : x s.input <;> rw [hx', hxs] at hx
  · exact ⟨hx.1, hx.2, hs.notes⟩
  · exact hx.elim
  · exact hx.elim
  · exact ⟨hx.1, hx.2, hs.notes⟩

theorem follows_recover {x' x : Recover α} (h : Recover.Follows f T R x' x) :
    Phrase.Follows f T R (liftM x') (liftM x) := by
  intro s' s hs
  have hx := h hs
  have hlift : ∀ (x : Recover α) (s : Session),
      (liftM x : Phrase α) s = (monadLift x : Phrase α) s := fun _ _ => rfl
  rw [hlift, hlift, Recover.lift_apply, Recover.lift_apply]
  cases hx' : x' s' <;> cases hxs : x s <;> rw [hx', hxs] at hx
  · exact hx
  · exact hx.elim
  · exact hx.elim
  · exact hx

theorem follows_kind : Phrase.Keeps f T kind := .get fun _ _ h => .pure h.input.kind

theorem follows_position : Makes f T f (Placed T) position :=
  .get fun _ s h => .pure ⟨h.input.current.position, s.input.current, h.input.current.mem, rfl⟩

end Phrase

namespace Recover

variable {f : Position → Position} {T : Token → Prop} {α : Type} {m : α → α} {P : α → Prop}

theorem follows_declarations {decl : Parse α} (h : Parse.Makes f T m P decl)
    (stops : List Token.Kind) :
    ∀ n, Makes f T (List.map m) (fun ds => ∀ d ∈ ds, P d) (declarations decl stops n)
  | 0 => .pure ⟨rfl, forall_mem_nil _⟩
  | n + 1 => by
    have ih := follows_declarations h stops n
    refine .bind_same follows_kind fun _ => .ite ?_ (.pure ⟨rfl, forall_mem_nil _⟩)
    refine .bind_map (follows_orSkip (Phrase.follows_parse h) stops) fun d hd => ?_
    cases d with
    | some d =>
      exact .bind_map ih fun _ hds => .pure ⟨rfl, forall_mem_cons.mpr ⟨hd d rfl, hds⟩⟩
    | none => exact ih

theorem follows_declarationsAfter (keyword : Keyword) {decl : Parse α}
    (h : Parse.Makes f T m P decl) (stops : List Token.Kind) :
    Makes f T (List.map m) (fun ds => ∀ d ∈ ds, P d)
      (declarationsAfter keyword decl stops) := by
  have hrest : Makes f T (List.map m) (fun ds => ∀ d ∈ ds, P d)
      (do declarations decl stops (← get).input.tokens.length) := by
    refine .get fun s' s hs => ?_
    rw [hs.input.length]
    exact follows_declarations h stops _
  refine .bind_same (follows_accept _) fun _ => .ite ?_ (.pure ⟨rfl, forall_mem_nil _⟩)
  refine .bind_same follows_kind fun _ => .ite ?_ hrest
  exact .bind_same (follows_recordExpected _) fun _ => hrest

theorem follows_skipStatementWithin : ∀ n, Recover.Keeps f T (skipStatementWithin n)
  | 0 => .pure rfl
  | n + 1 => by
    refine .bind_same (follows_skipTo _) fun _ => .get fun s' s hs => ?_
    dsimp only
    rw [hs.input.kind, hs.input.beginsStatement]
    refine .ite follows_advance (.ite ?_ (.pure rfl))
    exact .bind_same follows_advance fun _ => follows_skipStatementWithin n

theorem follows_skipStatement : Recover.Keeps f T skipStatement := by
  refine .get fun s' s hs => ?_
  rw [hs.input.length]
  exact follows_skipStatementWithin _

theorem follows_afterStatement : Recover.Keeps f T afterStatement := by
  refine .bind_same (follows_accept _) fun _ => .ite (.pure rfl) (.get fun s' s hs => ?_)
  dsimp only
  rw [hs.input.kind, hs.input.beginsStatement]
  refine .ite (.pure rfl) (.bind_same (follows_recordExpected _) fun _ => ?_)
  exact .ite follows_skipStatement (.pure rfl)

theorem follows_afterFault {e' e : Fault} (he : Fault.Moved f e' e) (before : Nat) :
    Recover.Follows f T Eq (afterFault e' before) (afterFault e before) := by
  refine .bind_same (follows_record he) fun _ => .bind_same follows_skipStatement fun _ => ?_
  refine .get fun s' s hs => ?_
  dsimp only
  rw [hs.input.length, hs.input.kind]
  exact .ite follows_advance (.pure rfl)

theorem follows_statementsWithin {statement : Phrase Statement}
    (h : Phrase.Makes f T (Statement.moved f) (Statement.Drawn T) statement) : ∀ n,
    Makes f T (Statement.allMoved f) (fun ss => ∀ s ∈ ss, s.Drawn T)
      (statementsWithin statement n)
  | 0 => .pure ⟨rfl, forall_mem_nil _⟩
  | n + 1 => by
    have ih := follows_statementsWithin h n
    refine .bind_same follows_kind fun _ => ?_
    split
    · exact .pure ⟨rfl, forall_mem_nil _⟩
    · exact .pure ⟨rfl, forall_mem_nil _⟩
    · exact .bind_same follows_advance fun _ => ih
    · refine .get fun s' s hs => ?_
      rw [hs.input.length]
      refine .bind (follows_attempt h) fun a' a ha => ?_
      cases a' <;> cases a
      · exact .bind_same (follows_afterFault ha _) fun _ => ih
      · exact ha.elim
      · exact ha.elim
      · refine .bind_same follows_afterStatement fun _ => .bind_map ih fun ss hss => .pure ?_
        exact ⟨congrArg (· :: Statement.allMoved f ss) ha.1, forall_mem_cons.mpr ⟨ha.2, hss⟩⟩

theorem follows_statements {statement : Phrase Statement}
    (h : Phrase.Makes f T (Statement.moved f) (Statement.Drawn T) statement) :
    Makes f T (Statement.allMoved f) (fun ss => ∀ s ∈ ss, s.Drawn T)
      (statements statement) := by
  refine .get fun s' s hs => ?_
  rw [hs.input.length]
  exact follows_statementsWithin h _

end Recover

section Programs

variable {f : Position → Position} {T : Token → Prop} (hT : ∀ t, T t → t.carries = true)
include hT

namespace Phrase

theorem follows_statementWithin :
    ∀ n, Makes f T (Statement.moved f) (Statement.Drawn T) (statementWithin n)
  | 0 => follows_parse (Parse.follows_expected _)
  | n + 1 => by
    have ih := follows_statementWithin n
    have hexpr := follows_parse (Parse.follows_expression (f := f) hT)
    have hword := follows_parse (Parse.follows_advance (f := f) (T := T))
    have hexpect : ∀ k what, Phrase.Follows f T _ (liftM (Parse.expect k what))
        (liftM (Parse.expect k what)) := fun k what => follows_parse (Parse.follows_expect k what)
    refine .bind_map follows_position fun p hp => .bind_same follows_kind fun k => ?_
    split
    · exact follows_parse (Parse.follows_assignmentOrCall hT)
    · refine .bind hword fun _ _ _ => ?_
      refine .bind_map (follows_recover (Recover.follows_statements ih)) fun parts hss => ?_
      exact .bind (hexpect _ _) fun _ _ _ => .pure ⟨rfl, .compound hp hss⟩
    · refine .bind hword fun _ _ _ => .bind_map hexpr fun condition hc => ?_
      refine .bind (hexpect _ _) fun _ _ _ => .bind_map ih fun onTrue hs => ?_
      refine .bind_same (follows_parse (Parse.follows_accept _)) fun _ =>
        .ite ?_ (.pure ⟨rfl, .ifThen hp hc hs⟩)
      exact .bind_map ih fun _ hs' => .pure ⟨rfl, .ifThenElse hp hc hs hs'⟩
    · refine .bind hword fun _ _ _ => ?_
      refine .bind_map (follows_parse (Parse.follows_identifier hT _)) fun ⟨counter, _⟩ hn => ?_
      refine .bind (hexpect _ _) fun _ _ _ => .bind_map hexpr fun first hfirst => ?_
      refine .bind_same (follows_parse Parse.follows_direction) fun direction => ?_
      refine .bind_map hexpr fun last hlast => .bind (hexpect _ _) fun _ _ _ => ?_
      exact .bind_map ih fun _ hs => .pure ⟨rfl, .count hp ⟨_, hn⟩ hfirst hlast hs⟩
    · refine .bind hword fun _ _ _ => .bind_map hexpr fun condition hc => ?_
      exact .bind (hexpect _ _) fun _ _ _ => .bind_map ih fun _ hs => .pure ⟨rfl, .loop hp hc hs⟩
    · exact .bind hword fun _ _ _ => .pure ⟨rfl, .exit hp⟩
    · exact .pure ⟨rfl, .compound hp (forall_mem_nil _)⟩
    · exact .pure ⟨rfl, .compound hp (forall_mem_nil _)⟩
    · exact .pure ⟨rfl, .compound hp (forall_mem_nil _)⟩
    · exact follows_parse (Parse.follows_expected _)

theorem follows_statement :
    Makes f T (Statement.moved f) (Statement.Drawn T) statement := by
  refine .get fun s' s hs => ?_
  rw [hs.input.length]
  exact follows_statementWithin hT _

end Phrase

namespace Recover

theorem follows_constSection : Makes f T (List.map (ConstDecl.moved f))
    (fun ds => ∀ d ∈ ds, d.Drawn T) constSection :=
  follows_declarationsAfter _ (Parse.follows_constDecl hT) _

theorem follows_varSection : Makes f T (List.map (VarDecl.moved f))
    (fun ds => ∀ d ∈ ds, d.Drawn T) varSection :=
  follows_declarationsAfter _ (Parse.follows_varDecl hT) _

theorem follows_block : Makes f T (Prod.map (Statement.allMoved f) f)
    (fun r => (∀ s ∈ r.1, s.Drawn T) ∧ Placed T r.2) block := by
  refine .bind_map follows_position fun p hp => .bind_same (follows_demand _ _) fun _ => ?_
  refine .bind_map (follows_statements (Phrase.follows_statement hT)) fun parts hss => ?_
  exact .bind_same (follows_demand _ _) fun _ => .pure ⟨rfl, hss, hp⟩

theorem follows_subprogramBody :
    Makes f T (Body.moved f) (Body.Drawn T) subprogramBody := by
  refine .bind_map (follows_constSection hT) fun consts hconsts => ?_
  refine .bind_map (follows_varSection hT) fun vars hvars => ?_
  exact .bind_map (follows_block hT) fun ⟨parts, p⟩ h => .pure ⟨rfl, hconsts, hvars, h.1, h.2⟩

theorem follows_subprogram : Makes f T (Option.map (Subprogram.moved f))
    (fun r => ∀ s ∈ r, s.Drawn T) subprogram := by
  have hheading := Phrase.follows_parse (Parse.follows_heading (f := f) hT)
  refine .bind_map (follows_orSkip hheading _) fun heading hh => ?_
  refine .bind_map (follows_subprogramBody hT) fun body hbody =>
    .bind_same (follows_demand _ _) fun _ => ?_
  cases heading with
  | none => exact .pure ⟨rfl, by simp⟩
  | some h => exact .pure ⟨rfl, by simpa using ⟨hh h rfl, hbody⟩⟩

theorem follows_subprogramsWithin : ∀ n, Makes f T (List.map (Subprogram.moved f))
    (fun ss => ∀ s ∈ ss, s.Drawn T) (subprogramsWithin n)
  | 0 => .pure ⟨rfl, forall_mem_nil _⟩
  | n + 1 => by
    have ih := follows_subprogramsWithin n
    refine .bind_same follows_kind fun _ => ?_
    split
    case h_3 => exact .pure ⟨rfl, forall_mem_nil _⟩
    all_goals
      refine .bind_map (follows_subprogram hT) fun s hs => ?_
      cases s with
      | some s =>
        exact .bind_map ih fun _ hss => .pure ⟨rfl, forall_mem_cons.mpr ⟨hs s rfl, hss⟩⟩
      | none => exact ih

theorem follows_programHead : Makes f T (Prod.map id (Prod.map id f))
    (fun r => (∀ n ∈ r.2.1, Named T n) ∧ Placed T r.2.2) programHead := by
  have hhead := Phrase.follows_parse (Parse.follows_programHead (f := f) hT)
  refine .bind (follows_attempt hhead) fun a' a ha => ?_
  cases a' <;> cases a
  · refine .bind_map follows_position fun p hp => .bind_same (follows_record ha) fun _ => ?_
    exact .bind_same (follows_skipTo _) fun _ => .bind_same (follows_accept _) fun _ =>
      .pure ⟨rfl, forall_mem_nil _, hp⟩
  · exact ha.elim
  · exact ha.elim
  · exact .pure ⟨ha.1, ha.2.2⟩

theorem follows_program : Makes f T (Program.moved f) (Program.Drawn T) program := by
  refine .bind_map (follows_programHead hT) fun ⟨name, parameters, p⟩ hhead => ?_
  refine .bind_map (follows_constSection hT) fun consts hconsts => ?_
  refine .bind_map (follows_varSection hT) fun vars hvars => .get fun s' s hs => ?_
  rw [hs.input.length]
  refine .bind_map (follows_subprogramsWithin hT _) fun subprograms hsubprograms => ?_
  refine .bind_map (follows_block hT) fun ⟨parts, q⟩ hblock =>
    .bind_same (follows_demand _ _) fun _ => ?_
  have hprogram : Program.Drawn T ⟨name, parameters, p, subprograms, consts, vars, parts, q⟩ :=
    ⟨hhead.1, hhead.2, hsubprograms, hconsts, hvars, hblock.1, hblock.2⟩
  refine .ite (.bind_same follows_kind fun _ => .ite ?_ (.pure ⟨rfl, hprogram⟩))
    (.pure ⟨rfl, hprogram⟩)
  exact .bind_same (follows_recordExpected _) fun _ => .pure ⟨rfl, hprogram⟩

end Recover

end Programs

section Sources

variable {T : Token → Prop} {α : Type} {P : α → Prop}

/-- All tokens that can be taken have the property, and so has the one that ends the text. -/
def Input.All (T : Token → Prop) (i : Input) : Prop := (∀ t ∈ i.tokens, T t) ∧ T i.last

theorem Input.All.of_le {i j : Input} (h : j.All T) (hle : i ≤ j) : i.All T :=
  ⟨fun t ht => h.1 t (hle.1.subset ht), hle.2 ▸ h.2⟩

theorem Input.All.moved {i : Input} (h : i.All T) {f : Position → Position}
    (hf : ∀ t, T t → f t.position = t.position) : Input.Moved f T i i :=
  ⟨forall₂_same.mpr fun t ht => ⟨rfl, rfl, (hf t (h.1 t ht)).symm, h.1 t ht⟩,
    rfl, rfl, (hf _ h.2).symm, h.2⟩

/-- From tokens with the property `T` a reader makes only what has the property `P`. -/
def Draws (T : Token → Prop) (x : Parse α) (P : α → Prop) : Prop :=
  ∀ ⦃i a i'⦄, i.All T → x i = .ok a i' → P a

theorem Parse.Makes.draws {m : α → α} {x : Parse α} (hx : Parse.Makes id T m P x) :
    Draws T x P := by
  intro i a i' hi h
  have hout := hx (hi.moved fun _ _ => rfl)
  rw [h] at hout
  exact hout.1.2

theorem Draws.of_parse {x : Parse α} (hx : Draws T x P) {i i' : Input} {a : α} (hi : i.All T)
    (h : x i = .ok a i') : P a := hx hi h

theorem Parse.draws_expression (hT : ∀ t, T t → t.carries = true) :
    Draws T expression (Expr.Drawn T) :=
  Parse.Makes.draws (follows_expression hT)

theorem Parse.draws_programHead (hT : ∀ t, T t → t.carries = true) : Draws T programHead fun r =>
    Named T r.1 ∧ (∀ n ∈ r.2.1, Named T n) ∧ Placed T r.2.2 :=
  Parse.Makes.draws (follows_programHead hT)

theorem ofTokens_scan_all (source : String) :
    (Input.ofTokens (scan source)).All (· ∈ scan source) := by
  obtain ⟨ts, last, hscan, hlast, hts⟩ := scan_ended source
  rw [hscan, Input.ofTokens_ended hts hlast]
  exact ⟨fun t ht => mem_append_left _ ht, mem_append_right _ mem_cons_self⟩

theorem parse_drawn {source : String} {p : Program} {errors : List SyntaxError}
    (h : parse (scan source) = .ok (p, errors)) : p.Drawn (· ∈ scan source) := by
  obtain ⟨s, hs, -⟩ := program_of_parse h
  have hstart : Session.Moved id (· ∈ scan source) ⟨.ofTokens (scan source), []⟩
      ⟨.ofTokens (scan source), []⟩ := ⟨(ofTokens_scan_all source).moved fun _ _ => rfl, .nil⟩
  have hout := Recover.follows_program (scan_carries source) hstart
  rw [hs] at hout
  exact hout.1.2

end Sources

end MiniPascal
