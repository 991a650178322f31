import MiniPascal.Proofs.Lists
import MiniPascal.Proofs.Operators

/-!
# When two C expressions agree

Two expressions agree when they have the same value and address in every store, and when the calls
and array elements inside them agree in turn.
-/

namespace MiniPascal.C

open Run (Datum Outcome)
open List

namespace Expr

mutual

def calls : Expr → List (String × List (Expr × Bool))
  | int _ | real _ | char _ | string _ | var _ => []
  | element _ subscripts => subscriptCalls subscripts
  | call name arguments => (name, arguments) :: argumentCalls arguments
  | binary _ left right => left.calls ++ right.calls
  | unary _ operand => operand.calls
  | cast _ operand => operand.calls

def subscriptCalls : List (Expr × Int64) → List (String × List (Expr × Bool))
  | [] => []
  | (e, _) :: rest => e.calls ++ subscriptCalls rest

def argumentCalls : List (Expr × Bool) → List (String × List (Expr × Bool))
  | [] => []
  | (e, _) :: rest => e.calls ++ argumentCalls rest

end

mutual

def elements : Expr → List (Var × List (Expr × Int64))
  | int _ | real _ | char _ | string _ | var _ => []
  | element v subscripts => (v, subscripts) :: subscriptElements subscripts
  | call _ arguments => argumentElements arguments
  | binary _ left right => left.elements ++ right.elements
  | unary _ operand => operand.elements
  | cast _ operand => operand.elements

def subscriptElements : List (Expr × Int64) → List (Var × List (Expr × Int64))
  | [] => []
  | (e, _) :: rest => e.elements ++ subscriptElements rest

def argumentElements : List (Expr × Bool) → List (Var × List (Expr × Int64))
  | [] => []
  | (e, _) :: rest => e.elements ++ argumentElements rest

end

theorem flatMap_fst {α β : Type} {F : Expr → List α} {G : List (Expr × β) → List α}
    (hnil : G [] = []) (hcons : ∀ x xs, G (x :: xs) = F x.1 ++ G xs) (xs : List (Expr × β)) :
    G xs = (xs.map Prod.fst).flatMap F := by
  induction xs with
  | nil => exact hnil
  | cons x xs ih => rw [hcons, ih, map_cons, flatMap_cons]

theorem subscriptElements_eq (subscripts : List (Expr × Int64)) :
    subscriptElements subscripts = (subscripts.map Prod.fst).flatMap elements :=
  flatMap_fst rfl (fun _ _ => rfl) subscripts

theorem argumentElements_eq (arguments : List (Expr × Bool)) :
    argumentElements arguments = (arguments.map Prod.fst).flatMap elements :=
  flatMap_fst rfl (fun _ _ => rfl) arguments

def evalOffset (τ : Store) (s : Expr × Int64) : Outcome Int := do offset s.2 (← s.1.eval τ)

/-- The same in every store, as a value and as a place. -/
structure Alike (e f : Expr) : Prop where
  value : ∀ τ, e.eval τ = f.eval τ
  address : ∀ τ, e.evalAddress τ = f.evalAddress τ

def ArgumentAlike (a b : Expr × Bool) : Prop := a.2 = b.2 ∧ Alike a.1 b.1

def SubscriptAlike (s t : Expr × Int64) : Prop := ∀ τ, evalOffset τ s = evalOffset τ t

def CallAlike (c d : String × List (Expr × Bool)) : Prop :=
  c.1 = d.1 ∧ Forall₂ ArgumentAlike c.2 d.2

def ElementAlike (c d : Var × List (Expr × Int64)) : Prop :=
  c.1 = d.1 ∧ Forall₂ SubscriptAlike c.2 d.2

structure Agrees (e f : Expr) : Prop extends Alike e f where
  calls : Forall₂ CallAlike e.calls f.calls
  elements : Forall₂ ElementAlike e.elements f.elements

theorem evalOffsets_congr {ss ts : List (Expr × Int64)} (h : Forall₂ SubscriptAlike ss ts)
    (τ : Store) : evalOffsets τ ss = evalOffsets τ ts := by
  induction h with
  | nil => rfl
  | @cons s t ss ts hst _ ih =>
    obtain ⟨e, l⟩ := s
    obtain ⟨f, m⟩ := t
    have hst : (do offset l (← e.eval τ)) = (do offset m (← f.eval τ)) := hst τ
    simp only [evalOffsets, ih, ← bind_assoc, hst]

theorem evalActuals_congr {as bs : List (Expr × Bool)} (h : Forall₂ ArgumentAlike as bs)
    (τ : Store) (types : List (Ty × Bool)) : evalActuals τ as types = evalActuals τ bs types := by
  induction h generalizing types with
  | nil => rfl
  | @cons a b as bs hab _ ih =>
    obtain ⟨e, r⟩ := a
    obtain ⟨f, q⟩ := b
    obtain ⟨rfl, hef⟩ : r = q ∧ Alike e f := hab
    cases types with
    | nil => rfl
    | cons type types => simp only [evalActuals, hef.value, hef.address, ih]

/-- Subscripts agree by their offsets, whatever their index and lower bound are. -/
structure SubscriptAgrees (s t : Expr × Int64) : Prop where
  offset : SubscriptAlike s t
  calls : Forall₂ CallAlike s.1.calls t.1.calls
  elements : Forall₂ ElementAlike s.1.elements t.1.elements

def ArgumentAgrees (a b : Expr × Bool) : Prop := a.2 = b.2 ∧ Agrees a.1 b.1

def literal : MiniPascal.Value → Expr
  | .int v => .int v
  | .real v => .real v
  | .char v => .char v
  | .bool v => .int (if v then 1 else 0)

@[simp] theorem eval_literal (τ : Store) (v : MiniPascal.Value) :
    (literal v).eval τ = .ok (.ofValue v) := by
  cases v <;> rfl

@[simp] theorem evalAddress_literal (τ : Store) (v : MiniPascal.Value) :
    (literal v).evalAddress τ = .error .mistyped := by
  cases v <;> rfl

@[simp] theorem calls_literal (v : MiniPascal.Value) : (literal v).calls = [] := by
  cases v <;> rfl

@[simp] theorem elements_literal (v : MiniPascal.Value) : (literal v).elements = [] := by
  cases v <;> rfl

/-- An operand behind a prefix operator; a plus changes nothing. -/
def prefixed (op : MiniPascal.UnaryOp) (e : Expr) : Expr :=
  match op with
  | .plus => e
  | .minus => .unary .minus e
  | .not => .unary .not e

theorem eval_prefixed (τ : Store) (op : MiniPascal.UnaryOp) (e : Expr) :
    (prefixed op e).eval τ = (do prefixValue op (← e.eval τ)) := by
  cases op with
  | plus => exact (bind_pure (e.eval τ)).symm
  | minus | not => rfl

namespace Agrees

variable {e f : Expr} {v : MiniPascal.Value}

theorem of_alike (h : Alike e f) (hc : e.calls = []) (hc' : f.calls = []) (he : e.elements = [])
    (he' : f.elements = []) : Agrees e f where
  toAlike := h
  calls := by rw [hc, hc']; exact .nil
  elements := by rw [he, he']; exact .nil

theorem literal (v : MiniPascal.Value) : Agrees (literal v) (literal v) :=
  of_alike ⟨fun _ => rfl, fun _ => rfl⟩ (by simp) (by simp) (by simp) (by simp)

theorem string (s : String) : Agrees (.string s) (.string s) :=
  of_alike ⟨fun _ => rfl, fun _ => rfl⟩ rfl rfl rfl rfl

theorem var (v : Var) : Agrees (.var v) (.var v) :=
  of_alike ⟨fun _ => rfl, fun _ => rfl⟩ rfl rfl rfl rfl

theorem binary (op : BinaryOp) {l l' r r' : Expr} (hl : Agrees l l') (hr : Agrees r r') :
    Agrees (.binary op l r) (.binary op l' r') where
  value τ := by simp only [eval, hl.value, hr.value]
  address τ := rfl
  calls := rel_append hl.calls hr.calls
  elements := rel_append hl.elements hr.elements

theorem unary (op : UnaryOp) (h : Agrees e f) : Agrees (.unary op e) (.unary op f) where
  value τ := by simp only [eval, h.value]
  address τ := rfl
  calls := h.calls
  elements := h.elements

theorem cast (type : Ty) (h : Agrees e f) : Agrees (.cast type e) (.cast type f) where
  value τ := by simp only [eval, h.value]
  address τ := rfl
  calls := h.calls
  elements := h.elements

theorem inSubscripts {ss ts : List (Expr × Int64)} (h : Forall₂ SubscriptAgrees ss ts) :
    Forall₂ CallAlike (subscriptCalls ss) (subscriptCalls ts) ∧
    Forall₂ ElementAlike (subscriptElements ss) (subscriptElements ts) := by
  induction h with
  | nil => exact ⟨.nil, .nil⟩
  | cons h _ ih => exact ⟨rel_append h.calls ih.1, rel_append h.elements ih.2⟩

theorem inArguments {as bs : List (Expr × Bool)} (h : Forall₂ ArgumentAgrees as bs) :
    Forall₂ CallAlike (argumentCalls as) (argumentCalls bs) ∧
    Forall₂ ElementAlike (argumentElements as) (argumentElements bs) := by
  induction h with
  | nil => exact ⟨.nil, .nil⟩
  | cons h _ ih => exact ⟨rel_append h.2.calls ih.1, rel_append h.2.elements ih.2⟩

theorem element (v : Var) {ss ts : List (Expr × Int64)} (h : Forall₂ SubscriptAgrees ss ts) :
    Agrees (.element v ss) (.element v ts) := by
  have halike : Forall₂ SubscriptAlike ss ts := h.imp fun _ _ h => h.offset
  obtain ⟨hcalls, helements⟩ := inSubscripts h
  constructor
  · constructor <;> intro τ
    · simp only [eval, evalOffsets_congr halike]
    · simp only [evalAddress, evalOffsets_congr halike]
  · exact hcalls
  · exact .cons ⟨rfl, halike⟩ helements

theorem call (name : String) {as bs : List (Expr × Bool)} (h : Forall₂ ArgumentAgrees as bs) :
    Agrees (.call name as) (.call name bs) := by
  have halike : Forall₂ ArgumentAlike as bs := h.imp fun _ _ h => ⟨h.1, h.2.toAlike⟩
  obtain ⟨hcalls, helements⟩ := inArguments h
  constructor
  · constructor <;> intro τ
    · simp only [eval, evalActuals_congr halike]
    · rfl
  · exact .cons ⟨rfl, halike⟩ hcalls
  · exact helements

theorem of_literal (h : Agrees e (Expr.literal v)) :
    (∀ τ, e.eval τ = .ok (.ofValue v)) ∧ e.calls = [] ∧ e.elements = [] := by
  refine ⟨fun τ => ?_, ?_, ?_⟩
  · rw [h.value, eval_literal]
  · have := h.calls
    rw [calls_literal, forall₂_nil_right_iff] at this
    exact this
  · have := h.elements
    rw [elements_literal, forall₂_nil_right_iff] at this
    exact this

theorem binary_literal {op : MiniPascal.BinaryOp} {l r : Expr} {a b : MiniPascal.Value}
    (hl : Agrees l (Expr.literal a)) (hr : Agrees r (Expr.literal b))
    (h : MiniPascal.Value.binary? op a b = some v) :
    Agrees (.binary (.ofSource op) (if widening op a.type b.type then .cast .double l else l) r)
      (Expr.literal v) := by
  obtain ⟨vl, cl, el⟩ := of_literal hl
  obtain ⟨vr, cr, er⟩ := of_literal hr
  have hleft : ∀ τ, (if widening op a.type b.type then Expr.cast .double l else l).eval τ
      = widened (widening op a.type b.type) (.ofValue a) := by
    intro τ
    unfold widened
    split
    · simp only [eval, vl]
      rfl
    · exact vl τ
  have hmap := combine_map (b := .ok (.scalar b)) (MiniPascal.Value.binary?_type h)
    (Run.base_scalar a) (fun d hd => by cases hd; exact Run.base_scalar b)
  rw [Run.combine_of_binary? h] at hmap
  refine of_alike ⟨fun τ => ?_, fun τ => ?_⟩ ?_ (by simp) ?_ (by simp)
  · rw [eval_literal, eval, hleft, vr]
    exact hmap
  · rw [evalAddress_literal]
    rfl
  · split <;> simp only [Expr.calls, cl, cr, append_nil]
  · split <;> simp only [Expr.elements, el, er, append_nil]

theorem unary_literal {op : MiniPascal.UnaryOp} {a : MiniPascal.Value}
    (he : Agrees e (Expr.literal a)) (h : MiniPascal.Value.unary? op a = some v) :
    Agrees (prefixed op e) (Expr.literal v) := by
  obtain ⟨ve, ce, ee⟩ := of_literal he
  have hmap := unary_map (MiniPascal.Value.unary?_type h) (Run.base_scalar a)
  rw [show Run.unary op (.scalar a) = .ok (.scalar v) by
    simp only [Run.unary, Run.unaryValue_of_unary? h]; rfl] at hmap
  have hvalue : ∀ τ, (prefixed op e).eval τ = (Expr.literal v).eval τ := by
    intro τ
    rw [eval_prefixed, ve, eval_literal]
    exact hmap
  cases op with
  | plus =>
    refine of_alike ⟨hvalue, fun τ => ?_⟩ ce (by simp) ee (by simp)
    rw [prefixed, he.address, evalAddress_literal, evalAddress_literal]
  | minus | not =>
    refine of_alike ⟨hvalue, fun τ => ?_⟩ ce (by simp) ee (by simp)
    rw [evalAddress_literal]
    rfl

theorem prefixed (op : MiniPascal.UnaryOp) (h : Agrees e f) :
    Agrees (Expr.prefixed op e) (Expr.prefixed op f) := by
  cases op with
  | plus => exact h
  | minus | not => exact unary _ h

end Agrees

end Expr

/-- Both succeed with results in a relation, or both fail for the same reason. -/
def Lower.Agree {α β : Type} (R : α → β → Prop) : Lower α → Lower β → Prop
  | .ok a, .ok b => R a b
  | .error e, .error f => e = f
  | _, _ => False

namespace Lower.Agree

variable {α β γ δ : Type} {R : α → β → Prop} {S : γ → δ → Prop}

theorem bind {x : Lower α} {y : Lower β} {f : α → Lower γ} {g : β → Lower δ} (h : Agree R x y)
    (hfg : ∀ a b, R a b → Agree S (f a) (g b)) : Agree S (x >>= f) (y >>= g) := by
  cases x with
  | error e =>
    cases y with
    | error e' => exact h
    | ok b => exact h.elim
  | ok a =>
    cases y with
    | error e' => exact h.elim
    | ok b => exact hfg a b h

theorem of_ok {x : Lower α} {b : β} (h : Agree R x (.ok b)) : ∃ a, x = .ok a ∧ R a b := by
  cases x with
  | error e => exact h.elim
  | ok a => exact ⟨a, rfl, h⟩

theorem bind_same (x : Lower α) {f : α → Lower γ} {g : α → Lower δ}
    (h : ∀ a, Agree S (f a) (g a)) : Agree S (x >>= f) (x >>= g) := by
  cases x with
  | error e => rfl
  | ok a => exact h a

end Lower.Agree

def Env.folded (env : Env) : Env := { env with folding := true }

@[simp] theorem Env.folded_table (env : Env) : env.folded.table = env.table := rfl

@[simp] theorem Env.folded_block (env : Env) : env.folded.block = env.block := rfl

@[simp] theorem Env.folded_builtin? (env : Env) (name : String) :
    env.folded.builtin? name = env.builtin? name := rfl

section

variable {env : Env}

theorem subscript_cases (folding : Bool) (e : Expr) (period : Period) :
    subscript folding e period = (e, period.lower) ∨
    ∃ v o, e = .int v ∧ o.toInt = v.toInt - period.lower.toInt ∧
      subscript folding e period = (.int o, 0) := by
  unfold subscript
  split
  · next v =>
    split
    · next o ho => exact .inr ⟨v, o, rfl, Integer.toInt_of_ofInt? ho, rfl⟩
    · exact .inl rfl
  · exact .inl rfl

theorem evalOffset_subscript (τ : Store) (folding : Bool) (e : Expr) (period : Period) :
    Expr.evalOffset τ (subscript folding e period) = Expr.evalOffset τ (e, period.lower) := by
  rcases subscript_cases folding e period with h | ⟨v, o, rfl, ho, h⟩ <;> rw [h]
  change Except.ok (o.toInt - (0 : Int64).toInt) = Except.ok (v.toInt - period.lower.toInt)
  rw [ho, Int64.toInt_zero, Int.sub_zero]

theorem subscript_agrees {e f : Expr} (h : e.Agrees f) (period : Period) :
    Expr.SubscriptAgrees (subscript false e period) (subscript true f period) := by
  constructor
  · intro τ
    rw [evalOffset_subscript, evalOffset_subscript]
    simp only [Expr.evalOffset, h.value]
  · rcases subscript_cases true f period with hf | ⟨v, o, rfl, _, hf⟩ <;> rw [hf] <;> exact h.calls
  · rcases subscript_cases true f period with hf | ⟨v, o, rfl, _, hf⟩ <;> rw [hf] <;> exact h.elements

theorem place_agrees (p : Position) (name : String) (count : Nat)
    {is js : Lower (List Expr)} (hf : env.folding = false)
    (h : Lower.Agree (Forall₂ Expr.Agrees) is js) :
    Lower.Agree Expr.Agrees (place env p name count is) (place env.folded p name count js) := by
  rw [place, place, Env.folded_table, Env.folded_block]
  cases env.table.findPlace? env.block name with
  | none => rfl
  | some item =>
    refine .bind_same (placeVar env p item name) fun v => ?_
    split
    · exact Expr.Agrees.var v
    · split
      · rfl
      · refine .bind h fun as bs hab => ?_
        rw [hf]
        refine Expr.Agrees.element v (forall₂_zipWith hab ?_ item.type.dims)
        exact fun _ _ period hab => subscript_agrees hab period

theorem callOf_agrees (p : Position) (name : String) (args : List Scope.Argument)
    {xs ys : Lower (List Expr)} (h : Lower.Agree (Forall₂ Expr.Agrees) xs ys) :
    Lower.Agree (fun c d => c.1 = d.1 ∧ Forall₂ Expr.ArgumentAgrees c.2 d.2)
      (callOf env p name args xs) (callOf env.folded p name args ys) := by
  rw [callOf, callOf, Env.folded_table, Env.folded_block]
  cases env.table.findRoutine env.block name args with
  | error _ => rfl
  | ok item =>
    refine .bind h fun as bs hab => ?_
    refine .bind_same (routineName env name item.position) fun routine => ?_
    exact ⟨rfl, forall₂_zipWith hab (fun _ _ _ hab => ⟨rfl, hab⟩) _⟩

theorem convert_toExpr (env : Env) (p : Position) (v : MiniPascal.Value) :
    convert env (v.toExpr p) = .ok (Expr.literal v) := by
  cases v <;> rfl

theorem convert_unary (env : Env) (p : Position) (op : MiniPascal.UnaryOp) (e : MiniPascal.Expr) :
    convert env (.unary p op e) = do return Expr.prefixed op (← convert env e) := by
  cases op <;> rfl

theorem convert_binary (env : Env) (p : Position) (op : MiniPascal.BinaryOp)
    (l r : MiniPascal.Expr) : convert env (.binary p op l r) = (do
      let c ← convert env l
      let d ← convert env r
      return .binary (.ofSource op)
        (if widening op (env.typeOf l) (env.typeOf r) then .cast .double c else c) d) := rfl

theorem typeOf_folded (env : Env) (e : MiniPascal.Expr) :
    env.folded.typeOf e.fold.1 = env.typeOf e := by
  simp only [Env.typeOf, Env.folded, Typing.typeOf_fold]

mutual

/-- An expression and its folded form have forms in C that agree, or have none for one reason. -/
theorem convert_agrees (hf : env.folding = false) : ∀ e : MiniPascal.Expr,
    Lower.Agree Expr.Agrees (convert env e) (convert env.folded e.fold.1)
  | .int _ v => Expr.Agrees.literal (.int v)
  | .real _ v => Expr.Agrees.literal (.real v)
  | .char _ v => Expr.Agrees.literal (.char v)
  | .bool _ v => Expr.Agrees.literal (.bool v)
  | .string _ v => Expr.Agrees.string v
  | .element p name indices => by
    rw [MiniPascal.Expr.fold, convert, convert, MiniPascal.Expr.length_foldAll]
    exact place_agrees p name indices.length hf (convertAll_agrees hf indices)
  | .name p name => by
    rw [MiniPascal.Expr.fold, convert, convert, Env.folded_table, Env.folded_block]
    cases env.table.resolve env.block name with
    | error _ => rfl
    | ok item =>
      dsimp only
      split
      · refine .bind_same (routineName env name item.position) fun routine => ?_
        exact Expr.Agrees.call routine .nil
      · exact place_agrees p name 0 hf (show Forall₂ _ [] [] from .nil)
  | .call p name arguments => by
    have hargs : env.folded.arguments (MiniPascal.Expr.foldAll arguments) =
        env.arguments arguments := by
      simp only [Env.arguments, Env.folded, Typing.argumentsOf_foldAll]
    rw [MiniPascal.Expr.fold, convert, convert, hargs, Env.folded_builtin?]
    split
    · rfl
    · refine .bind (callOf_agrees p name _ (convertAll_agrees hf arguments)) ?_
      rintro ⟨routine, as⟩ ⟨_, bs⟩ ⟨rfl, hab⟩
      exact Expr.Agrees.call routine hab
  | .binary p op l r => by
    have hl := convert_agrees hf l
    have hr := convert_agrees hf r
    rw [convert_binary]
    rcases MiniPascal.Expr.fold_binary_cases p op l r with ⟨a, b, v, ha, hb, hv, h⟩ | h <;> rw [h]
    -- Folded to a value, the operation agrees with the literal because its operands do.
    · have tl : env.typeOf l = a.type := by
        rw [← typeOf_folded, ha, Env.typeOf, Typing.typeOf_toExpr]; rfl
      have tr : env.typeOf r = b.type := by
        rw [← typeOf_folded, hb, Env.typeOf, Typing.typeOf_toExpr]; rfl
      rw [ha, convert_toExpr] at hl
      rw [hb, convert_toExpr] at hr
      rw [convert_toExpr, tl, tr]
      obtain ⟨c, hc, hl⟩ := Lower.Agree.of_ok hl
      obtain ⟨d, hd, hr⟩ := Lower.Agree.of_ok hr
      rw [hc, hd]
      exact Expr.Agrees.binary_literal hl hr hv
    · rw [convert_binary, typeOf_folded, typeOf_folded]
      refine .bind hl fun c c' hc => .bind hr fun d d' hd => ?_
      refine Expr.Agrees.binary _ ?_ hd
      split
      · exact hc.cast .double
      · exact hc
  | .unary p op e => by
    have he := convert_agrees hf e
    rw [convert_unary]
    rcases MiniPascal.Expr.fold_unary_cases p op e with ⟨a, v, ha, hv, h⟩ | h <;> rw [h]
    · rw [ha, convert_toExpr] at he
      obtain ⟨c, hc, he⟩ := Lower.Agree.of_ok he
      rw [convert_toExpr, hc]
      exact Expr.Agrees.unary_literal he hv
    · rw [convert_unary]
      exact .bind he fun c c' hc => hc.prefixed op

theorem convertAll_agrees (hf : env.folding = false) : ∀ es : List MiniPascal.Expr,
    Lower.Agree (Forall₂ Expr.Agrees) (convertAll env es)
      (convertAll env.folded (MiniPascal.Expr.foldAll es))
  | [] => List.Forall₂.nil
  | e :: es => by
    rw [MiniPascal.Expr.foldAll, convertAll, convertAll]
    exact .bind (convert_agrees hf e) fun c c' hc =>
      .bind (convertAll_agrees hf es) fun cs cs' hcs => .cons hc hcs

end

end

end MiniPascal.C
