import MiniPascal.Proofs.ReadTokens
import Mathlib.Data.List.Forall2
import Mathlib.Tactic.Simps.Basic

/-!
# Texts of another layout

Two texts may have the same tokens at different places and in different spellings. A reader follows
another one if both do the same to such texts.
-/

namespace MiniPascal

open List

section Trees

variable (f : Position → Position)

mutual

/-- The same tree with every place changed. -/
def Expr.moved : Expr → Expr
  | .int p v => .int (f p) v
  | .real p v => .real (f p) v
  | .char p v => .char (f p) v
  | .bool p v => .bool (f p) v
  | .string p v => .string (f p) v
  | .element p n indices => .element (f p) n (allMoved indices)
  | .name p n => .name (f p) n
  | .call p n arguments => .call (f p) n (allMoved arguments)
  | .binary p op left right => .binary (f p) op left.moved right.moved
  | .unary p op operand => .unary (f p) op operand.moved

def Expr.allMoved : List Expr → List Expr
  | [] => []
  | e :: es => e.moved :: allMoved es

end

mutual

def Statement.moved : Statement → Statement
  | .assign p name indices value => .assign (f p) name (Expr.allMoved f indices) (value.moved f)
  | .call p name arguments => .call (f p) name (Expr.allMoved f arguments)
  | .compound p parts => .compound (f p) (allMoved parts)
  | .branch p condition onTrue none => .branch (f p) (condition.moved f) onTrue.moved none
  | .branch p condition onTrue (some onFalse) =>
    .branch (f p) (condition.moved f) onTrue.moved (some onFalse.moved)
  | .count p counter first last direction body =>
    .count (f p) counter (first.moved f) (last.moved f) direction body.moved
  | .loop p condition body => .loop (f p) (condition.moved f) body.moved
  | .exit p => .exit (f p)

def Statement.allMoved : List Statement → List Statement
  | [] => []
  | s :: ss => s.moved :: allMoved ss

end

def ConstDecl.moved (d : ConstDecl) : ConstDecl := ⟨d.name, d.value.moved f, f d.position⟩

def VarDecl.moved (d : VarDecl) : VarDecl := { d with position := f d.position }

def ParamGroup.moved (g : ParamGroup) : ParamGroup := { g with position := f g.position }

def Heading.moved (h : Heading) : Heading :=
  { h with groups := h.groups.map (ParamGroup.moved f), position := f h.position }

def Body.moved (b : Body) : Body :=
  ⟨b.consts.map (ConstDecl.moved f), b.vars.map (VarDecl.moved f),
    Statement.allMoved f b.statements, f b.position⟩

def Subprogram.moved (s : Subprogram) : Subprogram := ⟨s.heading.moved f, s.body.moved f⟩

def Program.moved (p : Program) : Program :=
  { p with
    position := f p.position
    subprograms := p.subprograms.map (Subprogram.moved f)
    body := p.body.moved f }

attribute [simps] ConstDecl.moved VarDecl.moved ParamGroup.moved Heading.moved Body.moved
  Subprogram.moved Program.moved

theorem Expr.allMoved_eq_map (es : List Expr) : allMoved f es = es.map (Expr.moved f) := by
  induction es with
  | nil => rfl
  | cons e es ih => rw [allMoved, ih, map_cons]

theorem Expr.position_moved (e : Expr) : (e.moved f).position = f e.position := by
  cases e <;> rfl

end Trees

section Inputs

variable (f : Position → Position) (T : Token → Prop)

/-- One of the tokens `T` and the same token at another place: its kind and its value are what it is,
its spelling is not. -/
structure Token.Moved (t' t : Token) : Prop where
  kind : t'.kind = t.kind
  payload : t'.payload = t.payload
  position : t'.position = f t.position
  mem : T t

structure Input.Moved (i' i : Input) : Prop where
  tokens : List.Forall₂ (Token.Moved f T) i'.tokens i.tokens
  last : Token.Moved f T i'.last i.last

/-- Faults of grammar at the same token, or input that is no token on both sides. -/
def Fault.Moved : Fault → Fault → Prop
  | .lexical _, .lexical _ => True
  | .phrase e', .phrase e => e'.position = f e.position
  | _, _ => False

def Note.Moved : Note → Note → Prop
  | .fault e', .fault e => e'.position = f e.position
  | .resumed _, .resumed _ => True
  | _, _ => False

structure Session.Moved (s' s : Session) : Prop where
  input : Input.Moved f T s'.input s.input
  notes : List.Forall₂ (Note.Moved f) s'.notes s.notes

variable {f T} {i' i : Input}

theorem dropWhile_moved {ts' ts : List Token} (h : List.Forall₂ (Token.Moved f T) ts' ts)
    (skipped : Token.Kind → Bool) :
    List.Forall₂ (Token.Moved f T) (ts'.dropWhile fun t => skipped t.kind)
      (ts.dropWhile fun t => skipped t.kind) := by
  induction h with
  | nil => exact .nil
  | cons ht hts ih =>
    rw [dropWhile_cons, dropWhile_cons, ht.kind]
    split
    · exact ih
    · exact .cons ht hts

variable (h : Input.Moved f T i' i)

include h

theorem Input.Moved.current : Token.Moved f T i'.current i.current := by
  obtain ⟨ts', last'⟩ := i'
  obtain ⟨ts, last⟩ := i
  obtain ⟨htokens, hlast⟩ := h
  cases htokens with
  | nil => exact hlast
  | cons ht _ => exact ht

theorem Input.Moved.kind : i'.kind = i.kind := h.current.kind

theorem Input.Moved.length : i'.tokens.length = i.tokens.length :=
  h.tokens.length_eq

theorem Input.Moved.advance : Input.Moved f T i'.advance i.advance := by
  obtain ⟨ts', last'⟩ := i'
  obtain ⟨ts, last⟩ := i
  obtain ⟨htokens, hlast⟩ := h
  cases htokens with
  | nil => exact ⟨.nil, hlast⟩
  | cons _ hts => exact ⟨hts, hlast⟩

theorem Input.Moved.nextKind : i'.nextKind = i.nextKind :=
  h.advance.kind

theorem Input.Moved.beginsStatement : i'.beginsStatement = i.beginsStatement := by
  unfold Input.beginsStatement
  rw [h.kind, h.nextKind]

theorem Input.Moved.skipTo (stops : List Token.Kind) :
    Input.Moved f T (i'.skipTo stops) (i.skipTo stops) :=
  ⟨dropWhile_moved h.tokens fun k => !stops.contains k, h.last⟩

theorem Input.Moved.unexpected (what : String) :
    Fault.Moved f (i'.unexpected what) (i.unexpected what) := by
  unfold Input.unexpected
  rw [h.kind]
  split
  · trivial
  · exact h.current.position

end Inputs

/-- Two readers both succeed with related results, or both fail with related faults, and the states
that they leave are related. -/
def Paired {ε σ α : Type} (E : ε → ε → Prop) (S : σ → σ → Prop) (R : α → α → Prop) :
    EStateM.Result ε σ α → EStateM.Result ε σ α → Prop
  | .ok a' t', .ok a t => R a' a ∧ S t' t
  | .error e' t', .error e t => E e' e ∧ S t' t
  | _, _ => False

/-- Two readers that do the same in related states. -/
def Follows {ε σ α : Type} (E : ε → ε → Prop) (S : σ → σ → Prop) (R : α → α → Prop)
    (x' x : EStateM ε σ α) : Prop := ∀ ⦃s' s⦄, S s' s → Paired E S R (x' s') (x s)

namespace Follows

variable {ε σ α β : Type} {E : ε → ε → Prop} {S : σ → σ → Prop} {R : α → α → Prop}
  {R₂ : β → β → Prop} {m : α → α} {P : α → Prop} {x' x y' y : EStateM ε σ α}
  {g' g : α → EStateM ε σ β}

theorem pure {a' a : α} (h : R a' a) : Follows E S R (pure a') (pure a) := fun _ _ hs => ⟨h, hs⟩

theorem throw {e' e : ε} (h : E e' e) : Follows E S R (throw e' : EStateM ε σ α) (throw e) :=
  fun _ _ hs => ⟨h, hs⟩

theorem bind (hx : Follows E S R x' x) (hg : ∀ ⦃a' a⦄, R a' a → Follows E S R₂ (g' a') (g a)) :
    Follows E S R₂ (x' >>= g') (x >>= g) := by
  intro s' s hs
  have hxs := hx hs
  change Paired E S R₂ (EStateM.bind x' g' s') (EStateM.bind x g s)
  unfold EStateM.bind
  cases hx' : x' s' <;> cases hx : x s <;> rw [hx', hx] at hxs
  · exact hg hxs.1 hxs.2
  · exact hxs.elim
  · exact hxs.elim
  · exact hxs

theorem bind_same (hx : Follows E S Eq x' x) (hg : ∀ a, Follows E S R₂ (g' a) (g a)) :
    Follows E S R₂ (x' >>= g') (x >>= g) :=
  hx.bind fun a _ h => h ▸ hg a

theorem bind_map (hx : Follows E S (fun a' a => a' = m a ∧ P a) x' x)
    (hg : ∀ a, P a → Follows E S R₂ (g' (m a)) (g a)) : Follows E S R₂ (x' >>= g') (x >>= g) :=
  hx.bind fun _ a h => h.1.symm ▸ hg a h.2

theorem get {g' g : σ → EStateM ε σ β} (hg : ∀ ⦃s' s⦄, S s' s → Follows E S R₂ (g' s') (g s)) :
    Follows E S R₂ (MonadState.get >>= g') (MonadState.get >>= g) :=
  fun _ _ hs => hg hs hs

theorem modify {h' h : σ → σ} (hh : ∀ ⦃s' s⦄, S s' s → S (h' s') (h s)) :
    Follows E S Eq (modify h' : EStateM ε σ PUnit) (modify h) :=
  fun _ _ hs => ⟨rfl, hh hs⟩

theorem map {k' k : α → β} (hx : Follows E S R x' x) (hk : ∀ ⦃a' a⦄, R a' a → R₂ (k' a') (k a)) :
    Follows E S R₂ (k' <$> x') (k <$> x) := by
  rw [← bind_pure_comp, ← bind_pure_comp]
  exact hx.bind fun _ _ h => .pure (hk h)

theorem mono {Q : α → α → Prop} (hx : Follows E S R x' x) (h : ∀ ⦃a' a⦄, R a' a → Q a' a) :
    Follows E S Q x' x := by
  intro s' s hs
  have hxs := hx hs
  cases hx' : x' s' <;> cases hx : x s <;> rw [hx', hx] at hxs
  · exact ⟨h hxs.1, hxs.2⟩
  · exact hxs
  · exact hxs
  · exact hxs

theorem ite {c : Prop} [Decidable c] (hx : Follows E S R x' x) (hy : Follows E S R y' y) :
    Follows E S R (if c then x' else y') (if c then x else y) := by
  split
  · exact hx
  · exact hy

end Follows

end MiniPascal
