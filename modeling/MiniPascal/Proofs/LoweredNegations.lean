import MiniPascal.Proofs.LoweredContents
import MiniPascal.Proofs.Negations

/-!
# Where lowering puts a minus before a minus

A lowered program has a minus before a text that begins with one if and only if some operand of a
minus is folded to the least integer.
-/

namespace MiniPascal.C

open Scope Analysis
open List

section

variable {env : Env}

theorem collects_negated : Collects Expr.negated where
  int _ := rfl
  string _ := rfl
  var _ := rfl
  element _ subscripts := Expr.negatedSubscripts_eq subscripts

variable {c : Expr}

/-- Expressions and their forms. -/
def Converted (env : Env) : List MiniPascal.Expr → List Expr → Prop :=
  Forall₂ fun x d => convert env x = .ok d

theorem Converted.flatMap {Q : MiniPascal.Expr → Expr → Prop} {es : List MiniPascal.Expr}
    {cs : List Expr} (h : Forall₂ (fun e c => Q e c ∧ Converted env e.negated c.negated) es cs) :
    Converted env (MiniPascal.Expr.negatedAll es) (cs.flatMap Expr.negated) := by
  induction h with
  | nil => exact .nil
  | cons hc _ ih => exact rel_append hc.2 ih

theorem convert_negated : ∀ (e : MiniPascal.Expr) (c : Expr), convert env e = .ok c →
    Converted env e.negated c.negated := by
  refine convert_induct fun e c h => ?_
  cases h with
  | int | real | char | bool | string | routine => exact .nil
  | element parts hplace =>
    rw [collects_negated.place hplace]
    exact .flatMap parts
  | name _ _ hplace =>
    rw [collects_negated.place hplace]
    exact .nil
  | call _ parts hcall =>
    rw [Expr.negated, Expr.negatedArguments_eq, hcall.fst]
    exact .flatMap parts
  | binary hl hr | widened hl hr => exact rel_append hl.2 hr.2
  | minus he => exact .cons he.1 he.2
  | plus he | not he => exact he.2

theorem isNegative_of_convert : ∀ (x : MiniPascal.Expr) (d : Expr), convert env x = .ok d →
    d.IsNegative → x.IsNegative := by
  refine convert_induct fun x d h hneg => ?_
  cases h with
  | int | real | char | string | routine | call | binary | widened | minus | not => exact hneg
  | @bool _ v => cases v <;> exact absurd (show Int64.toInt _ < 0 from hneg) (by decide)
  | element _ hplace | name _ _ hplace => cases hplace <;> exact hneg.elim
  | plus he => exact he.2 hneg

/-- A form has a minus before a minus if folding meets the least integer behind one. -/
theorem lowerExpr_leadsMinus (names : env.names.Spelled) {e : MiniPascal.Expr} (plain : e.Plain)
    (nonnegative : e.Nonnegative) (h : lowerExpr env e = .ok c) :
    (∃ d ∈ c.negated, d.LeadsMinus) ↔ env.folding = true ∧ e.NegatesLeast := by
  have hpairs := convert_negated _ _ h
  constructor
  · rintro ⟨d, hd, hleads⟩
    obtain ⟨x, hx, hxd⟩ := exists_left_of_mem hpairs hd
    have hplain : d.Plain :=
      gives_convert names x ((prepared_plain plain).of_mem_negated x hx) d hxd
    have hnegative := isNegative_of_convert x d hxd (hleads.isNegative hplain)
    unfold Env.prepared at hx
    split at hx
    · next hfolding => exact ⟨hfolding, MiniPascal.Expr.negatesLeast_of_isNegative hx hnegative⟩
    · exact absurd hnegative (nonnegative.of_mem_negated x hx).not_isNegative
  · rintro ⟨hfolding, hleast⟩
    obtain ⟨p, hp⟩ := hleast.mem_negated
    rw [Env.prepared, if_pos hfolding] at hpairs
    obtain ⟨d, hd, hpd⟩ := exists_left_of_mem hpairs.flip hp
    cases hpd
    exact ⟨_, hd, Expr.leadsMinus_least⟩

end

def Program.negated (q : Program) : List Expr := q.exprs.flatMap Expr.negated

/-- A program in C has a minus before a minus exactly if folding meets the least integer behind a
minus. -/
theorem Assembled.leadsMinus {p : MiniPascal.Program} {folding : Bool} {q : Program}
    (accepted : Accepted p) (h : Assembled p folding q) (plain : p.Plain)
    (hplain : ∀ e ∈ p.exprs, e.Plain) (hnonnegative : ∀ e ∈ p.exprs, e.Nonnegative) :
    (∃ d ∈ q.negated, d.LeadsMinus) ↔ folding = true ∧ ∃ e ∈ p.exprs, e.NegatesLeast := by
  have brings : Brings p folding Expr.negated Expr.LeadsMinus
      fun e => folding = true ∧ e.NegatesLeast := by
    refine ⟨fun within e he c hc => ?_, ?_, ?_⟩
    · have names : Names.Spelled _ := within.names ▸ names_spelled plain (finished p).names
      rw [← within.folding]
      exact lowerExpr_leadsMinus names (hplain e he) (hnonnegative e he) hc
    · rintro _ _ ⟨_, x, hx, _⟩
      cases hx
    · rintro _ _ ⟨_, x, hx, _⟩
      cases hx
  have hcontents := h.contents accepted collects_negated brings
  constructor
  · rintro ⟨d, hd, hleads⟩
    obtain ⟨c, hc, hd⟩ := mem_flatMap.mp hd
    obtain ⟨e, he, hfolding, hleast⟩ := hcontents.mp ⟨c, hc, d, hd, hleads⟩
    exact ⟨hfolding, e, he, hleast⟩
  · rintro ⟨hfolding, e, he, hleast⟩
    obtain ⟨c, hc, d, hd, hleads⟩ := hcontents.mpr ⟨e, he, hfolding, hleast⟩
    exact ⟨d, mem_flatMap.mpr ⟨c, hc, hd⟩, hleads⟩

end MiniPascal.C
