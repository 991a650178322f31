import MiniPascal.Proofs.FoldedRuns
import MiniPascal.Proofs.LoweredContents
import MiniPascal.Proofs.PrintedExpressions

/-!
# Reals as constants of C

Folding makes no real that is not finite, but it keeps those that there are. So all reals are
written as constants if all literals are finite.
-/

namespace MiniPascal

open List

/-- A token other than a number that is too large to be finite. -/
def Token.isFinite (t : Token) : Bool :=
  match t.payload with
  | some (.real x) => x.isFinite
  | _ => true

namespace Expr

mutual

def reals : Expr → List Float
  | real _ x => [x]
  | element _ _ es | call _ _ es => realsAll es
  | binary _ _ left right => left.reals ++ right.reals
  | unary _ _ operand => operand.reals
  | int .. | char .. | bool .. | string .. | name .. => []

def realsAll : List Expr → List Float
  | [] => []
  | e :: es => e.reals ++ realsAll es

end

def Finite (e : Expr) : Prop := ∀ x ∈ e.reals, x.isFinite = true

theorem finite_toExpr {v : Value} (h : v.Finite) (p : Position) : (v.toExpr p).Finite := by
  cases v with
  | real x => exact forall_mem_singleton.mpr h
  | int | char | bool => exact forall_mem_nil _

theorem Finite.constant? : ∀ {e : Expr} {v : Value}, e.Finite → e.constant? = some v → v.Finite
  | int .., _, _, h | char .., _, _, h | bool .., _, _, h => by
    cases h
    trivial
  | real .., _, hfinite, h => by
    cases h
    exact hfinite _ mem_cons_self
  | string .., _, _, h | name .., _, _, h | element .., _, _, h | call .., _, _, h => by cases h
  | binary .., _, _, h => by
    obtain ⟨_, _, _, _, hv⟩ := constant?_binary h
    exact Value.finite_of_binary? hv
  | unary _ op e, _, hfinite, h => by
    obtain ⟨a, ha, hv⟩ := constant?_unary h
    have ha : a.Finite := Finite.constant? (e := e) hfinite ha
    exact ha.unary? hv

theorem Finite.of_foldParts {e : Expr} (h : e.Finite) (hparts : e.foldParts.Finite) :
    e.fold.1.Finite := by
  cases hc : e.constant? with
  | some v =>
    rw [fold_of_constant? hc]
    exact finite_toExpr (h.constant? hc) _
  | none => rwa [fold_eq_foldParts hc]

mutual

theorem Finite.fold : ∀ {e : Expr}, e.Finite → e.fold.1.Finite
  | int .., h | real .., h | char .., h | bool .., h | string .., h | name .., h => h
  | element _ _ es, h | call _ _ es, h => h.of_foldParts (finite_foldAll es h)
  | binary _ _ left right, h => by
    obtain ⟨hleft, hright⟩ := forall_mem_append.mp h
    exact Finite.of_foldParts h (forall_mem_append.mpr
      ⟨Finite.fold (e := left) hleft, Finite.fold (e := right) hright⟩)
  | unary _ _ operand, h => Finite.of_foldParts h (Finite.fold (e := operand) h)

theorem finite_foldAll : ∀ es : List Expr, (∀ x ∈ realsAll es, x.isFinite = true) →
    ∀ x ∈ realsAll (foldAll es), x.isFinite = true
  | [], h => h
  | e :: es, h => by
    obtain ⟨he, hes⟩ := forall_mem_append.mp h
    exact forall_mem_append.mpr ⟨Finite.fold (e := e) he, finite_foldAll es hes⟩

end

theorem Drawn.finite {T : Token → Prop} {e : Expr} (h : e.Drawn T)
    (hT : ∀ t, T t → t.isFinite = true) : e.Finite := by
  have hall : ∀ {es : List Expr}, (∀ e ∈ es, e.Finite) → ∀ x ∈ realsAll es, x.isFinite = true := by
    intro es hes
    induction es with
    | nil => exact forall_mem_nil _
    | cons e es ih =>
      obtain ⟨he, hes⟩ := forall_mem_cons.mp hes
      exact forall_mem_append.mpr ⟨he, ih hes⟩
  induction h with
  | real ht _ hpayload =>
    have hfinite := hT _ ht
    rw [Token.isFinite, hpayload] at hfinite
    exact forall_mem_singleton.mpr hfinite
  | int | char | string | bool | name => exact forall_mem_nil _
  | element _ _ _ ih | call _ _ ih => exact hall ih
  | binary _ _ hleft hright => exact forall_mem_append.mpr ⟨hleft, hright⟩
  | unary _ _ ih => exact ih

end Expr

namespace C

namespace Expr

mutual

def reals : Expr → List Float
  | real x => [x]
  | element _ subscripts => subscriptReals subscripts
  | call _ arguments => argumentReals arguments
  | binary _ l r => l.reals ++ r.reals
  | unary _ e | cast _ e => e.reals
  | int _ | char _ | string _ | var _ => []

def subscriptReals : List (Expr × Int64) → List Float
  | [] => []
  | (e, _) :: rest => e.reals ++ subscriptReals rest

def argumentReals : List (Expr × Bool) → List Float
  | [] => []
  | (e, _) :: rest => e.reals ++ argumentReals rest

end

theorem argumentReals_eq (arguments : List (Expr × Bool)) :
    argumentReals arguments = (arguments.map Prod.fst).flatMap reals :=
  flatMap_fst rfl (fun _ _ => rfl) arguments

theorem collects_reals : Collects reals where
  int _ := rfl
  string _ := rfl
  var _ := rfl
  element _ subscripts := flatMap_fst rfl (fun _ _ => rfl) subscripts

end Expr

theorem flatMap_reals {Q : MiniPascal.Expr → Expr → Prop} {es : List MiniPascal.Expr}
    {cs : List Expr} (h : Forall₂ (fun e c => Q e c ∧ c.reals = e.reals) es cs) :
    cs.flatMap Expr.reals = MiniPascal.Expr.realsAll es := by
  induction h with
  | nil => rfl
  | cons hc _ ih => rw [flatMap_cons, hc.2, ih, MiniPascal.Expr.realsAll]

theorem convert_reals {env : Env} : ∀ (e : MiniPascal.Expr) (c : Expr), convert env e = .ok c →
    c.reals = e.reals := by
  refine convert_induct fun e c h => ?_
  cases h with
  | int | real | char | bool | string | routine => rfl
  | element parts hplace =>
    rw [Expr.collects_reals.place hplace, flatMap_reals parts, MiniPascal.Expr.reals]
  | name _ _ hplace => exact Expr.collects_reals.place hplace
  | call _ parts hcall =>
    rw [Expr.reals, Expr.argumentReals_eq, hcall.fst, flatMap_reals parts, MiniPascal.Expr.reals]
  | binary hl hr | widened hl hr => exact congrArg₂ (· ++ ·) hl.2 hr.2
  | plus he | minus he | not he => exact he.2

def Program.reals (q : Program) : List Float := q.exprs.flatMap Expr.reals

/-- A program has a real if an expression of its source has it, which may be folded before. -/
theorem Assembled.mem_reals {p : MiniPascal.Program} {folding : Bool} {q : Program}
    (accepted : Accepted p) (h : Assembled p folding q) {x : Float} :
    x ∈ q.reals ↔ ∃ e ∈ p.exprs, x ∈ (if folding then e.fold.1 else e).reals := by
  have brings : Brings p folding Expr.reals (x = ·)
      fun e => x ∈ (if folding then e.fold.1 else e).reals := by
    refine ⟨fun within e he c hc => ?_, fun _ _ => ?_, fun _ _ => ?_⟩
    · rw [exists_eq_right', convert_reals _ c hc, Env.prepared, within.folding]
    · split <;> exact not_mem_nil
    · split <;> exact not_mem_nil
  have hcontents := h.contents accepted Expr.collects_reals brings
  simp only [exists_eq_right'] at hcontents
  rw [Program.reals, mem_flatMap, hcontents]

/-- The text of a real is a floating constant of C, behind a minus if the real is negative. -/
def IsFloating (x : Float) : Prop :=
  ∃ cs v, number? cs = some (.real v) ∧
    (Expr.real x).text.toList = (if isNegative x then ['-'] else []) ++ cs

theorem realText_of_not_finite {x : Float} (h : x.isFinite = false) :
    Decimal.realText x ∈ ["NaN", "inf", "-inf"] := by
  simp only [isFinite_eq, Bool.and_eq_false_iff, Bool.not_eq_false'] at h
  unfold Decimal.realText
  by_cases hnan : x.isNaN = true
  · rw [if_pos hnan]
    decide
  · rw [if_neg hnan]
    dsimp only
    rw [if_pos (h.resolve_left hnan)]
    split <;> decide

theorem isFloating_iff {x : Float} : IsFloating x ↔ x.isFinite = true := by
  constructor
  · rintro ⟨cs, v, hv, htext⟩
    by_contra hfinite
    have hword := realText_of_not_finite (Bool.eq_false_iff.mpr hfinite)
    have hnone : ∀ w ∈ ["NaN", "inf", "-inf"],
        number? w.toList = none ∧ number? w.toList.tail = none := by decide
    have hcs : cs = (Decimal.realText x).toList ∨ cs = (Decimal.realText x).toList.tail := by
      rw [Expr.text] at htext
      rw [htext]
      split
      · exact .inr rfl
      · exact .inl rfl
    rcases hcs with rfl | rfl
    · rw [(hnone _ hword).1] at hv
      cases hv
    · rw [(hnone _ hword).2] at hv
      cases hv
  · intro h
    simp only [isFinite_eq, Bool.and_eq_true, Bool.not_eq_true'] at h
    exact ⟨_, _, (isNumeral_decimal (Decimal.magnitude x)).reads, toList_realText h⟩

/-- A lowered source has finite reals only if and only if its expressions have, folded if the level
says so; they have if all numbers of the source are finite. The finite reals are the ones whose
texts are floating constants. -/
theorem reals_finite_iff {source : String} {p : MiniPascal.Program}
    (hparse : parse (scan source) = .ok (p, [])) (hclean : (analyze p).isClean = true)
    {level : Nat} {q : Program} (hlower : lower p (analyze p).table (foldsAt level) = .ok q) :
    ((∀ x ∈ q.reals, x.isFinite = true) ↔
        ∀ e ∈ p.exprs, (if foldsAt level then e.fold.1 else e).Finite) ∧
      ((∀ t ∈ scan source, t.isFinite = true) → ∀ x ∈ q.reals, x.isFinite = true) ∧
      ∀ x ∈ q.reals, IsFloating x ↔ x.isFinite = true := by
  obtain ⟨accepted, assembled⟩ := assembled_of_source hparse hclean hlower
  have hmem : ∀ {x}, x ∈ q.reals ↔ _ := assembled.mem_reals accepted
  have hiff : (∀ x ∈ q.reals, x.isFinite = true) ↔
      ∀ e ∈ p.exprs, (if foldsAt level then e.fold.1 else e).Finite := by
    constructor
    · intro h e he x hx
      exact h x (hmem.mpr ⟨e, he, hx⟩)
    · intro h x hx
      obtain ⟨e, he, hx⟩ := hmem.mp hx
      exact h e he x hx
  refine ⟨hiff, fun htokens => hiff.mpr fun e he => ?_, fun _ _ => isFloating_iff⟩
  have hfinite := (exprs_drawn hparse e he).finite htokens
  split
  · exact hfinite.fold
  · exact hfinite

/-- Reals in constants, subscripts and arguments, and products that are too large to be folded. -/
def products : String := "program p; const a = -2.5; b = a; var x: real; k: array[1..3] of real;
  function f(y: real; n: integer): real; const c = 1e-7; begin f := y * c end;
  begin x := 1e308 * 1e3 - (-(0.5 * 4.0)); k[2] := f(1.0 / 3, 1 + 1); write(-x, b, 1e22) end."

def productsReals : List String :=
  ["-2.5", "-2.5", "1e-7", "1e308", "1000.0", "-2.0", "0.3333333333333333", "1e22"]

set_option maxRecDepth 2000 in
theorem products_reals_finite : ∃ (p : MiniPascal.Program) (q : Program),
    parse (scan products) = .ok (p, []) ∧ (analyze p).isClean = true ∧
      lower p (analyze p).table (foldsAt 1) = .ok q ∧
      q.reals.map (fun x => (Expr.real x).text) = productsReals ∧
      ∀ x ∈ q.reals, x.isFinite = true ∧ IsFloating x := by
  have htokens : ∀ t ∈ scan products, t.isFinite = true := by
    have hchars : products = String.ofList _ := rfl
    rw [hchars, scan_ofList]
    decide +kernel
  refine exists_lowered_and rfl (by decide +kernel) fun hp hclean hlower x hx => ?_
  obtain ⟨_, hfinite, hfloating⟩ := reals_finite_iff hp hclean hlower
  exact ⟨hfinite htokens x hx, (hfloating x hx).mpr (hfinite htokens x hx)⟩

/-- A number that is too large for a double. -/
def endless : String := "program p; var x: real; begin x := 1e999 end."

def endlessText : String :=
  "#include <stdio.h>\n\nint main() \x7b\n    double x;\n    x = inf;\n    return 0;\n\x7d\n"

theorem endless_not_floating : ∃ (p : MiniPascal.Program) (q : Program),
    parse (scan endless) = .ok (p, []) ∧ (analyze p).isClean = true ∧
      lower p (analyze p).table (foldsAt 0) = .ok q ∧
      q.text = endlessText ∧ ∃ x ∈ q.reals, x.isFinite = false ∧ ¬IsFloating x := by
  obtain ⟨p, q, hp, hclean, hlower, htext, x, hx, hfinite⟩ := exists_lowered endless (foldsAt 0)
    (fun _ q => q.text = endlessText ∧ ∃ x ∈ q.reals, x.isFinite = false) rfl (by decide +kernel)
  refine ⟨p, q, hp, hclean, hlower, htext, x, hx, hfinite, fun h => ?_⟩
  rw [isFloating_iff.mp h] at hfinite
  cases hfinite

end C

end MiniPascal
