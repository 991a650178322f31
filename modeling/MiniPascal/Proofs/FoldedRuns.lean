import MiniPascal.Proofs.CTyping
import MiniPascal.Proofs.Rounding

/-!
# Runs of folded expressions

An expression runs in a world: variables hold something in every state, and a call returns
something, may fail, and leaves the world in another state. Folding changes neither the outcome nor
the state nor the calls.
-/

namespace MiniPascal

open List

/-! ## Finite reals -/

section Reals

open Float.Model Float.Model.UnpackedFloat

/-- A number whose exponent is below the one of infinities. -/
def Bounded : UnpackedFloat → Prop
  | .infinity _ | .notANumber => False
  | .zero _ => True
  | .finite _ _ e _ => (e + 1075).toNat + 1 < 2048

theorem Bounded.isFinite {u : UnpackedFloat} (h : Bounded u) : u.isFinite = true := by
  cases u with
  | infinity | notANumber => exact h.elim
  | zero | finite => rfl

theorem Bounded.neg {u : UnpackedFloat} (h : Bounded u) : Bounded u.neg := by
  cases u <;> exact h

theorem bounded_unpack {b : BitVec 64} (h : @unpackExponent .binary64 b ≠ -1#11) :
    Bounded (UnpackedFloat.unpack .binary64 b) := by
  unfold UnpackedFloat.unpack
  rw [if_neg h]
  by_cases hzero : @unpackExponent .binary64 b = 0#11
  · rw [if_pos hzero]
    by_cases hm : @unpackMantissa .binary64 b = 0#52
    · rw [dif_pos hm]
      trivial
    · rw [dif_neg hm, hzero]
      change ((0 - (1023 + 52) + 1 : Int) + 1075).toNat + 1 < 2048
      decide
  · rw [if_neg hzero]
    have hne : (@unpackExponent .binary64 b).toNat ≠ 2047 := fun he => h (BitVec.eq_of_toNat_eq he)
    have hlt : (@unpackExponent .binary64 b).toNat < 2048 := (@unpackExponent .binary64 b).isLt
    change ((@unpackExponent .binary64 b).toNat - (1023 + 52) + 1075 : Int).toNat + 1 < 2048
    omega

theorem unpackExponent_pack {u : UnpackedFloat} (h : Bounded u) :
    @unpackExponent .binary64 (UnpackedFloat.pack .binary64 u) ≠ -1#11 := by
  cases u with
  | infinity | notANumber => exact h.elim
  | zero =>
    unfold UnpackedFloat.pack packedZero
    rw [unpackExponent_packComponents]
    decide
  | finite s m e hm =>
    have hlt : (e + 1075).toNat + 1 < 2048 := h
    have hbiased : (e + (Format.binary64.exponentBias : Int) +
        (Format.binary64.mantissaBitsWithoutImplicit : Int)).toNat = (e + 1075).toNat :=
      congrArg Int.toNat (Int.add_assoc e 1023 52)
    unfold UnpackedFloat.pack
    dsimp only
    rw [hbiased, if_neg (Nat.not_le.mpr hlt)]
    by_cases hnormal : m.log2 + 1 = Format.binary64.mantissaBits
    · rw [if_pos hnormal, unpackExponent_packComponents]
      intro heq
      have hmod : (e + 1075).toNat % 2048 = 2047 := congrArg BitVec.toNat heq
      omega
    · rw [if_neg hnormal, unpackExponent_packComponents]
      decide

theorem isFinite_neg {x : Float} (h : x.isFinite = true) : (-x).isFinite = true :=
  (bounded_unpack (unpackExponent_pack (bounded_unpack (Decimal.unpackExponent_ne h)).neg)).isFinite

end Reals

/-! ## What folding replaces -/

namespace Value

/-- No real that is infinite or no number. -/
def Finite : Value → Prop
  | real x => x.isFinite = true
  | _ => True

theorem finite_of_finite? {x : Float} {v : Value} (h : finite? x = some v) : v.Finite := by
  unfold finite? at h
  split at h
  · next hx =>
    cases h
    exact hx
  · cases h

theorem finite_of_binary? {op : BinaryOp} {a b v : Value} (h : binary? op a b = some v) :
    v.Finite := by
  have harithmetic : ∀ {f g}, arithmetic? f g a b = some v → v.Finite := by
    intro f g h
    unfold arithmetic? at h
    split at h
    · obtain ⟨z, _, rfl⟩ := Option.map_eq_some_iff.mp h
      trivial
    · simp only [Option.bind_eq_bind, Option.bind_eq_some_iff] at h
      obtain ⟨x, _, y, _, h⟩ := h
      exact finite_of_finite? h
  cases op with
  | add | sub | mul => exact harithmetic h
  | divide =>
    simp only [binary?, divide?, Option.bind_eq_bind, Option.bind_eq_some_iff] at h
    obtain ⟨x, _, y, _, h⟩ := h
    split at h
    · cases h
    · exact finite_of_finite? h
  | div | mod =>
    simp only [binary?] at h
    split at h
    · obtain ⟨z, _, rfl⟩ := Option.map_eq_some_iff.mp h
      trivial
    · cases h
  | and | or =>
    simp only [binary?] at h
    split at h
    · cases h
      trivial
    · cases h
  | equal | notEqual | less | lessEqual | greater | greaterEqual =>
    obtain ⟨o, _, rfl⟩ := Option.map_eq_some_iff.mp h
    trivial

theorem Finite.unary? {op : UnaryOp} {a v : Value} (ha : a.Finite)
    (h : Value.unary? op a = some v) : v.Finite := by
  unfold Value.unary? at h
  split at h
  · cases h
    trivial
  · cases h
    exact ha
  · obtain ⟨z, _, rfl⟩ := Option.map_eq_some_iff.mp h
    trivial
  · cases h
    exact isFinite_neg ha
  · cases h
    trivial
  · cases h

@[simp] theorem ofExpr?_toExpr (p : Position) (v : Value) : ofExpr? (v.toExpr p) = some v := by
  cases v <;> rfl

end Value

namespace Expr

/-- The value that folding finds for an expression. -/
def constant? (e : Expr) : Option Value := Value.ofExpr? e.fold.1

/-- The expression over its folded parts, its own operation kept. -/
def foldParts : Expr → Expr
  | element p n indices => element p n (foldAll indices)
  | call p n arguments => call p n (foldAll arguments)
  | binary p op left right => binary p op left.fold.1 right.fold.1
  | unary p op operand => unary p op operand.fold.1
  | e => e

/-- A real literal, which may have signs before it. -/
def isSignedReal : Expr → Bool
  | real .. => true
  | unary _ .plus e => e.isSignedReal
  | unary _ .minus e => e.isSignedReal
  | _ => false

section

variable {p : Position} {l r e s : Expr} {v : Value}

theorem fold_of_constant? (h : e.constant? = some v) : e.fold.1 = v.toExpr e.position := by
  have heq := Value.eq_toExpr_of_ofExpr? h
  rwa [position_fold] at heq

theorem constant?_binary {op : BinaryOp} (h : (binary p op l r).constant? = some v) :
    ∃ a b, l.constant? = some a ∧ r.constant? = some b ∧ Value.binary? op a b = some v := by
  unfold constant? at h
  rcases fold_binary_cases p op l r with ⟨a, b, w, ha, hb, hw, heq⟩ | heq
  · rw [heq, Value.ofExpr?_toExpr] at h
    cases h
    refine ⟨a, b, ?_, ?_, hw⟩
    · rw [constant?, ha, Value.ofExpr?_toExpr]
    · rw [constant?, hb, Value.ofExpr?_toExpr]
  · rw [heq] at h
    cases h

theorem constant?_unary {op : UnaryOp} (h : (unary p op e).constant? = some v) :
    ∃ a, e.constant? = some a ∧ Value.unary? op a = some v := by
  unfold constant? at h
  rcases fold_unary_cases p op e with ⟨a, w, ha, hw, heq⟩ | heq
  · rw [heq, Value.ofExpr?_toExpr] at h
    cases h
    exact ⟨a, by rw [constant?, ha, Value.ofExpr?_toExpr], hw⟩
  · rw [heq] at h
    cases h

theorem fold_eq_foldParts (h : e.constant? = none) : e.fold.1 = e.foldParts := by
  cases e with
  | int | real | char | bool => cases h
  | string | name | element | call => rfl
  | binary p op l r =>
    rcases fold_binary_cases p op l r with ⟨_, _, v, _, _, _, heq⟩ | heq
    · rw [constant?, heq, Value.ofExpr?_toExpr] at h
      cases h
    · exact heq
  | unary p op e =>
    rcases fold_unary_cases p op e with ⟨_, v, _, _, heq⟩ | heq
    · rw [constant?, heq, Value.ofExpr?_toExpr] at h
      cases h
    · exact heq

/-- Only signs before a literal make a value that is not finite. -/
theorem finite_of_constant? : ∀ {e : Expr} {v : Value}, e.constant? = some v →
    e.isSignedReal = false → v.Finite
  | int .., _, h, _ | char .., _, h, _ | bool .., _, h, _ => by
    cases h
    trivial
  | real .., _, _, hsigned => by cases hsigned
  | string .., _, h, _ | name .., _, h, _ | element .., _, h, _ | call .., _, h, _ => by cases h
  | binary .., _, h, _ => by
    obtain ⟨_, _, _, _, hv⟩ := constant?_binary h
    exact Value.finite_of_binary? hv
  | unary _ op e, v, h, hsigned => by
    obtain ⟨a, ha, hv⟩ := constant?_unary h
    cases op with
    | plus | minus => exact (finite_of_constant? ha hsigned).unary? hv
    | not =>
      cases a with
      | bool =>
        cases hv
        trivial
      | int | real | char => cases hv

theorem mem_subexprs_self (e : Expr) : e ∈ e.subexprs := by
  cases e <;> exact mem_cons_self

theorem constant?_of_mem_subexprs : ∀ {e : Expr}, e.constant?.isSome → s ∈ e.subexprs →
    s.constant?.isSome
  | int .., h, hs | real .., h, hs | char .., h, hs | bool .., h, hs => by
    cases mem_singleton.mp hs
    exact h
  | string .., h, _ | name .., h, _ | element .., h, _ | call .., h, _ => by cases h
  | binary .., h, hs => by
    obtain ⟨v, hv⟩ := Option.isSome_iff_exists.mp h
    obtain ⟨a, b, ha, hb, _⟩ := constant?_binary hv
    rw [subexprs, mem_cons, mem_append] at hs
    rcases hs with rfl | hs | hs
    · exact h
    · exact constant?_of_mem_subexprs (Option.isSome_of_eq_some ha) hs
    · exact constant?_of_mem_subexprs (Option.isSome_of_eq_some hb) hs
  | unary .., h, hs => by
    obtain ⟨v, hv⟩ := Option.isSome_iff_exists.mp h
    obtain ⟨a, ha, _⟩ := constant?_unary hv
    rw [subexprs, mem_cons] at hs
    rcases hs with rfl | hs
    · exact h
    · exact constant?_of_mem_subexprs (Option.isSome_of_eq_some ha) hs

theorem constant?_eq_none (hs : s ∈ e.subexprs) (h : s.constant? = none) : e.constant? = none := by
  cases hv : e.constant? with
  | none => rfl
  | some v =>
    have hsome := constant?_of_mem_subexprs (Option.isSome_of_eq_some hv) hs
    rw [h] at hsome
    cases hsome

mutual

theorem mem_subexprs_fold (h : s.constant? = none) : ∀ e : Expr, s ∈ e.subexprs →
    s.fold.1 ∈ e.fold.1.subexprs
  | int .., hs | real .., hs | char .., hs | bool .., hs | string .., hs | name .., hs => by
    cases mem_singleton.mp hs
    exact mem_subexprs_self _
  | element p n indices, hs => by
    rcases mem_cons.mp hs with rfl | hs
    · exact mem_subexprs_self _
    · exact mem_cons_of_mem _ (mem_subexprsAll_foldAll h indices hs)
  | call p n arguments, hs => by
    rcases mem_cons.mp hs with rfl | hs
    · exact mem_subexprs_self _
    · exact mem_cons_of_mem _ (mem_subexprsAll_foldAll h arguments hs)
  | binary p op l r, hs => by
    rw [fold_eq_foldParts (constant?_eq_none hs h)]
    rw [subexprs, mem_cons, mem_append] at hs
    rcases hs with rfl | hs | hs
    · rw [fold_eq_foldParts h]
      exact mem_subexprs_self _
    · exact mem_cons_of_mem _ (mem_append_left _ (mem_subexprs_fold h l hs))
    · exact mem_cons_of_mem _ (mem_append_right _ (mem_subexprs_fold h r hs))
  | unary p op e, hs => by
    rw [fold_eq_foldParts (constant?_eq_none hs h)]
    rcases mem_cons.mp hs with rfl | hs
    · rw [fold_eq_foldParts h]
      exact mem_subexprs_self _
    · exact mem_cons_of_mem _ (mem_subexprs_fold h e hs)

theorem mem_subexprsAll_foldAll (h : s.constant? = none) : ∀ es : List Expr,
    s ∈ subexprsAll es → s.fold.1 ∈ subexprsAll (foldAll es)
  | e :: es, hs => by
    rcases mem_append.mp hs with hs | hs
    · exact mem_append_left _ (mem_subexprs_fold h e hs)
    · exact mem_append_right _ (mem_subexprsAll_foldAll h es hs)

end

end

end Expr

/-! ## Runs -/

namespace Run

open Scope

structure Call where
  routine : Item
  actuals : List Actual
  deriving DecidableEq, Repr

/-- What variables and constants hold in a state, element by element, and what a call returns and
does to the state. -/
structure World (S : Type) where
  contents : S → Item → List Int → Outcome Datum
  perform : Call → S → Outcome Datum × S

/-- A state and the calls that led to it. -/
structure History (S : Type) where
  state : S
  calls : List Call

/-- What has an outcome and leads to another history, also where it fails. -/
abbrev Action (S : Type) := ExceptT Failure (StateM (History S))

section

variable {S α : Type}

def Action.of (outcome : Outcome α) : Action S α := ExceptT.mk (pure outcome)

def World.load (w : World S) (p : Place) : Action S Datum :=
  if p.indices.length = p.item.type.dims.length then
    ExceptT.mk fun h => (w.contents h.state p.item p.indices, h)
  else throw .mistyped

def World.call (w : World S) (c : Call) : Action S Datum :=
  ExceptT.mk fun h =>
    let (outcome, state) := w.perform c h.state
    (outcome, ⟨state, h.calls ++ [c]⟩)

/-- A binary operation runs its right operand only if the left one leaves the value open. -/
def combined (op : BinaryOp) (a : Datum) (b : Action S Datum) : Action S Datum :=
  match decided op a with
  | some d => pure d
  | none => do Action.of (binary op a (← b))

def elementFound (t : Table) (block : Nat) (name : String) (indices : Action S (List Int)) :
    Action S Place :=
  match t.findPlace? block name with
  | some item => do Action.of (located item (← indices))
  | none => throw .mistyped

variable (t : Table) (block : Nat) (w : World S)

mutual

/-- The run of an expression, its parts from left to right. -/
def run : Expr → Action S Datum
  | .int _ v => pure (.scalar (.int v))
  | .real _ v => pure (.scalar (.real v))
  | .char _ v => pure (.scalar (.char v))
  | .bool _ v => pure (.scalar (.bool v))
  | .string _ v => pure (.string v)
  | .name _ name => do
    let item ← Action.of (named t block name)
    if item.kind = .routine then w.call ⟨item, []⟩ else w.load (← Action.of (located item []))
  | .element _ name indices => do w.load (← elementFound t block name (runIndices indices))
  | .call _ name arguments => do
    let item ← Action.of (called t block name arguments)
    w.call ⟨item, ← runActuals arguments item.params⟩
  | .binary _ op left right => do combined op (← run left) (run right)
  | .unary _ op operand => do Action.of (unary op (← run operand))

def runPlace : Expr → Action S Place
  | .name _ name => Action.of (namedPlace t block name)
  | .element _ name indices => elementFound t block name (runIndices indices)
  | _ => throw .mistyped

def runIndices : List Expr → Action S (List Int)
  | [] => pure []
  | e :: es => do
    let i ← Action.of (index (← run e))
    let is ← runIndices es
    return i :: is

def runActuals : List Expr → List Param → Action S (List Actual)
  | [], [] => pure []
  | e :: es, p :: ps => do
    let a ←
      if p.byReference then Actual.place <$> runPlace e
      else (fun d => Actual.value (stored p.type.base d)) <$> run e
    let as ← runActuals es ps
    return a :: as
  | _, _ => throw .mistyped

end

@[simp] theorem run_toExpr (p : Position) (v : Value) :
    run t block w (v.toExpr p) = pure (.scalar v) := by
  cases v <;> rfl

theorem runPlace_toExpr (p : Position) (v : Value) :
    runPlace t block w (v.toExpr p) = throw .mistyped := by
  cases v <;> rfl

theorem combined_of_binary? {op : BinaryOp} {a b v : Value} (h : Value.binary? op a b = some v) :
    combined op (.scalar a) (pure (.scalar b)) = (pure (.scalar v) : Action S Datum) := by
  have hvalue := combine_of_binary? h
  unfold combine at hvalue
  unfold combined
  split
  · next d hd =>
    rw [hd] at hvalue
    cases hvalue
    rfl
  · next hd =>
    rw [hd] at hvalue
    change Action.of (binary op (.scalar a) (.scalar b)) = _
    rw [show binary op (.scalar a) (.scalar b) = .ok (.scalar v) from hvalue]
    rfl

theorem called_foldAll (name : String) (es : List Expr) :
    called t block name (Expr.foldAll es) = called t block name es := by
  rw [called, called, Typing.argumentsOf_foldAll]

mutual

theorem run_fold : ∀ e : Expr, run t block w e.fold.1 = run t block w e
  | .int .. | .real .. | .char .. | .bool .. | .string .. | .name .. => rfl
  | .element p name indices => by
    rw [Expr.fold, run, run, runIndices_foldAll indices]
  | .call p name arguments => by
    rw [Expr.fold, run, run, called_foldAll]
    simp only [runActuals_foldAll arguments]
  | .binary p op l r => by
    have hl := run_fold l
    have hr := run_fold r
    rcases Expr.fold_binary_cases p op l r with ⟨a, b, v, ha, hb, hv, h⟩ | h
    · rw [ha, run_toExpr] at hl
      rw [hb, run_toExpr] at hr
      rw [h, run_toExpr, run, ← hl, ← hr, pure_bind, combined_of_binary? hv]
    · rw [h, run, run, hl, hr]
  | .unary p op e => by
    have he := run_fold e
    rcases Expr.fold_unary_cases p op e with ⟨a, v, ha, hv, h⟩ | h
    · rw [ha, run_toExpr] at he
      rw [h, run_toExpr, run, ← he, pure_bind, unary, unaryValue_of_unary? hv]
      rfl
    · rw [h, run, run, he]

theorem runPlace_fold : ∀ e : Expr, runPlace t block w e.fold.1 = runPlace t block w e
  | .int .. | .real .. | .char .. | .bool .. | .string .. | .name .. | .call .. => rfl
  | .element p name indices => by
    rw [Expr.fold, runPlace, runPlace, runIndices_foldAll indices]
  | .binary p op l r => by
    rcases Expr.fold_binary_cases p op l r with ⟨_, _, v, _, _, _, h⟩ | h <;> rw [h]
    · exact runPlace_toExpr t block w p v
    · rfl
  | .unary p op e => by
    rcases Expr.fold_unary_cases p op e with ⟨_, v, _, _, h⟩ | h <;> rw [h]
    · exact runPlace_toExpr t block w p v
    · rfl

theorem runIndices_foldAll :
    ∀ es : List Expr, runIndices t block w (Expr.foldAll es) = runIndices t block w es
  | [] => rfl
  | e :: es => by rw [Expr.foldAll, runIndices, runIndices, run_fold e, runIndices_foldAll es]

theorem runActuals_foldAll : ∀ (es : List Expr) (ps : List Param),
    runActuals t block w (Expr.foldAll es) ps = runActuals t block w es ps
  | [], _ => rfl
  | _ :: _, [] => rfl
  | e :: es, p :: ps => by
    rw [Expr.foldAll, runActuals, runActuals, run_fold e, runPlace_fold e, runActuals_foldAll es ps]

end

/-! ## Runs without effects -/

/-- An action has this outcome, whatever happened before. -/
def Answers (x : Action S α) (outcome : Outcome α) : Prop := ∀ h, (x.run.run h).1 = outcome

section Answers

variable {β : Type} {x : Action S α} {o : Outcome α}

theorem answers_of (o : Outcome α) : Answers (Action.of o : Action S α) o := fun _ => rfl

theorem answers_throw (f : Failure) : Answers (throw f : Action S α) (.error f) := fun _ => rfl

theorem Answers.bind {f : α → Action S β} {g : α → Outcome β} (hx : Answers x o)
    (hf : ∀ a, Answers (f a) (g a)) : Answers (x >>= f) (o >>= g) := by
  intro h
  have hfirst := hx h
  rw [ExceptT.run_bind, StateT.run_bind]
  cases hrun : x.run.run h with
  | mk first rest =>
    rw [hrun] at hfirst
    cases (hfirst : first = o)
    cases first with
    | ok a => exact hf a rest
    | error e => rfl

theorem Answers.map {f : α → β} (hx : Answers x o) : Answers (f <$> x) (f <$> o) := by
  have hbind := hx.bind fun a => answers_of (S := S) (.ok (f a))
  rw [map_eq_pure_bind, map_eq_pure_bind]
  exact hbind

end Answers

/-- The world in which a call changes nothing. -/
def Store.world (σ : Store) : World Unit where
  contents _ item indices := .ok (σ.contents item indices)
  perform c _ := (σ.result c.routine c.actuals, ())

variable (σ : Store)

theorem answers_load (p : Place) : Answers (σ.world.load p) (σ.load p) := by
  unfold World.load Store.load
  split
  · exact fun _ => rfl
  · exact answers_throw _

theorem answers_call (c : Call) : Answers (σ.world.call c) (σ.result c.routine c.actuals) :=
  fun _ => rfl

theorem answers_elementFound {name : String} {x : Action S (List Int)} {o : Outcome (List Int)}
    (h : Answers x o) : Answers (elementFound t block name x) (elementPlace t block name o) := by
  unfold elementFound elementPlace
  cases t.findPlace? block name with
  | some item => exact h.bind fun _ => answers_of _
  | none => exact answers_throw _

theorem answers_combined {op : BinaryOp} {a : Datum} {x : Action S Datum} {o : Outcome Datum}
    (h : Answers x o) : Answers (combined op a x) (combine op a o) := by
  unfold combined combine
  cases decided op a with
  | some d => exact fun _ => rfl
  | none => exact h.bind fun _ => answers_of _

mutual

/-- In a world in which calls change nothing, an expression has the value that it has in a store. -/
theorem run_answers_eval : ∀ e : Expr, Answers (run t block σ.world e) (eval t block σ e)
  | .int .. | .real .. | .char .. | .bool .. | .string .. => fun _ => rfl
  | .name _ name => by
    rw [run, eval]
    refine (answers_of _).bind fun item => ?_
    split
    · exact answers_call σ _
    · exact (answers_of _).bind fun place => answers_load σ place
  | .element _ name indices => by
    rw [run, eval]
    exact (answers_elementFound t block (runIndices_answers indices)).bind fun place =>
      answers_load σ place
  | .call _ name arguments => by
    rw [run, eval]
    exact (answers_of _).bind fun item =>
      (runActuals_answers arguments item.params).bind fun actuals => answers_call σ ⟨item, actuals⟩
  | .binary _ op left right => by
    rw [run, eval]
    exact (run_answers_eval left).bind fun a => answers_combined (run_answers_eval right)
  | .unary _ op operand => by
    rw [run, eval]
    exact (run_answers_eval operand).bind fun a => answers_of _

theorem runPlace_answers : ∀ e : Expr, Answers (runPlace t block σ.world e) (evalPlace t block σ e)
  | .name .. => answers_of _
  | .element _ _ indices => answers_elementFound t block (runIndices_answers indices)
  | .int .. | .real .. | .char .. | .bool .. | .string .. | .call .. | .binary .. | .unary .. =>
    answers_throw _

theorem runIndices_answers :
    ∀ es : List Expr, Answers (runIndices t block σ.world es) (evalIndices t block σ es)
  | [] => fun _ => rfl
  | e :: es => by
    rw [runIndices, evalIndices]
    exact (run_answers_eval e).bind fun d => (answers_of _).bind fun i =>
      (runIndices_answers es).bind fun is => answers_of (.ok (i :: is))

theorem runActuals_answers : ∀ (es : List Expr) (ps : List Param),
    Answers (runActuals t block σ.world es ps) (evalActuals t block σ es ps)
  | [], [] => fun _ => rfl
  | [], _ :: _ | _ :: _, [] => answers_throw _
  | e :: es, p :: ps => by
    rw [runActuals, evalActuals]
    have hrest : ∀ a, Answers (do
        let as ← runActuals t block σ.world es ps
        return a :: as) (do
        let as ← evalActuals t block σ es ps
        return a :: as) :=
      fun a => (runActuals_answers es ps).bind fun as => answers_of (.ok (a :: as))
    by_cases hp : p.byReference = true
    · rw [if_pos hp, if_pos hp]
      exact (runPlace_answers e).map.bind hrest
    · rw [if_neg hp, if_neg hp]
      exact (run_answers_eval e).map.bind hrest

end

theorem eval_fold (e : Expr) : eval t block σ e.fold.1 = eval t block σ e := by
  have hfolded := run_answers_eval t block σ e.fold.1 ⟨(), []⟩
  rw [run_fold] at hfolded
  exact hfolded.symm.trans (run_answers_eval t block σ e ⟨(), []⟩)

/-! ## What is never replaced -/

/-- A failure, or a real that is infinite or no number. -/
def Faulty : Outcome Datum → Prop
  | .ok (.scalar v) => ¬v.Finite
  | .ok (.string _) => False
  | .error _ => True

theorem constant?_eq_none_of_faulty {e : Expr} (hsigned : e.isSignedReal = false) {h : History S}
    (hfaulty : Faulty ((run t block w e).run.run h).1) : e.constant? = none := by
  cases hv : e.constant? with
  | none => rfl
  | some v =>
    rw [← run_fold, Expr.fold_of_constant? hv, run_toExpr] at hfaulty
    exact (hfaulty (Expr.finite_of_constant? hv hsigned)).elim

/-- A folded expression runs as the expression does, in every world and in every store. A part that
fails somewhere, or gives a real that is not finite, keeps its operation and its place, unless it is
a real literal with signs before it. -/
theorem fold_preserves_runs (e : Expr) :
    run t block w e.fold.1 = run t block w e ∧
    (∀ σ : Store, eval t block σ e.fold.1 = eval t block σ e) ∧
    ∀ s ∈ e.subexprs, s.isSignedReal = false →
      ∀ h, Faulty ((run t block w s).run.run h).1 →
        s.fold.1 = s.foldParts ∧ s.fold.1 ∈ e.fold.1.subexprs := by
  refine ⟨run_fold t block w e, fun σ => eval_fold t block σ e, fun s hs hsigned h hfaulty => ?_⟩
  have hnone := constant?_eq_none_of_faulty t block w hsigned hfaulty
  exact ⟨Expr.fold_eq_foldParts hnone, Expr.mem_subexprs_fold hnone e hs⟩

/-- Of `f(1 + 2) + 7 div 0` the sum is computed ahead. The function is called all the same before
the division fails, and the division is still there. -/
theorem fold_preserves_division :
    ∃ (t : Table) (w : World Nat) (e s : Expr) (c : Call) (p : Position),
      s ∈ e.subexprs ∧ e.fold.1 = .binary p .add (.call p "f" [.int p 3]) s ∧
      (run t 0 w e.fold.1).run.run ⟨0, []⟩ = (.error .divisionByZero, ⟨1, [c]⟩) ∧
      run t 0 w e.fold.1 = run t 0 w e ∧ s.fold.1 = s.foldParts ∧ s.fold.1 ∈ e.fold.1.subexprs := by
  let p := Position.start
  let f : Item := ⟨"f", .int, .routine, [⟨.int, false⟩], false, p⟩
  let t : Table := ⟨[⟨"program", none, [f]⟩], []⟩
  let w : World Nat := ⟨fun _ _ _ => .error .mistyped, fun _ n => (.ok (.scalar (.int 0)), n + 1)⟩
  let s : Expr := .binary p .div (.int p 7) (.int p 0)
  let e : Expr := .binary p .add (.call p "f" [.binary p .add (.int p 1) (.int p 2)]) s
  have hs : s ∈ e.subexprs :=
    List.mem_cons_of_mem _ (List.mem_append_right _ (Expr.mem_subexprs_self s))
  have hcalled : called t 0 "f" [.int p 3] = .ok f := by decide +kernel
  obtain ⟨hrun, _, hkept⟩ := fold_preserves_runs t 0 w e
  obtain ⟨hparts, hmem⟩ := hkept s hs rfl ⟨0, []⟩ trivial
  refine ⟨t, w, e, s, ⟨f, [.value (.scalar (.int 3))]⟩, p, hs, rfl, ?_, hrun, hparts, hmem⟩
  change (run t 0 w (.binary p .add (.call p "f" [.int p 3]) s)).run.run ⟨0, []⟩ = _
  rw [run, run, hcalled]
  rfl

/-- A minus before an infinite literal is folded into it: the value is not finite, and yet the
operation is replaced by a literal. -/
theorem fold_replaces_infinite :
    ∃ (e : Expr) (p : Position) (x : Float), e ∈ e.subexprs ∧
      e.foldParts = .unary p .minus (.real p x) ∧ e.fold.1 = .real p (-x) ∧
      ∀ (t : Table) (block : Nat) (w : World Unit) (h : History Unit),
        Faulty ((run t block w e).run.run h).1 := by
  refine ⟨.unary .start .minus (.real .start Decimal.infinity), .start, Decimal.infinity,
    Expr.mem_subexprs_self _, rfl, rfl, ?_⟩
  intro t block w h
  have hinfinite : (-Decimal.infinity).isFinite ≠ true := by decide
  exact hinfinite

end

end Run

end MiniPascal
