import MiniPascal.Proofs.Operands

/-!
# Statements inside of statements

A checked statement and its form in C have the same shape.
-/

namespace MiniPascal

open List (Forall₂)

namespace Statement

mutual

/-- A statement and all statements in it. -/
def nested : Statement → List Statement
  | compound p parts => compound p parts :: nestedAll parts
  | branch p c onTrue none => branch p c onTrue none :: onTrue.nested
  | branch p c onTrue (some onFalse) =>
    branch p c onTrue (some onFalse) :: (onTrue.nested ++ onFalse.nested)
  | count p n first last d body => count p n first last d body :: body.nested
  | loop p c body => loop p c body :: body.nested
  | s => [s]

def nestedAll : List Statement → List Statement
  | [] => []
  | s :: ss => s.nested ++ nestedAll ss

end

end Statement

namespace C

namespace Statement

mutual

def nested : Statement → List Statement
  | compound parts => compound parts :: nestedAll parts
  | branch c onTrue none => branch c onTrue none :: onTrue.nested
  | branch c onTrue (some onFalse) =>
    branch c onTrue (some onFalse) :: (onTrue.nested ++ onFalse.nested)
  | count v first last down body => count v first last down body :: body.nested
  | loop c body => loop c body :: body.nested
  | s => [s]

def nestedAll : List Statement → List Statement
  | [] => []
  | s :: ss => s.nested ++ nestedAll ss

end

end Statement

section

variable {env : Env}

variable {Q : MiniPascal.Statement → Statement → Prop}

theorem nestedAll_lowered {ss : List MiniPascal.Statement} {cs : List Statement}
    (h : Forall₂ (fun s c => Q s c ∧ Forall₂ Q s.nested c.nested) ss cs) :
    Forall₂ Q (MiniPascal.Statement.nestedAll ss) (Statement.nestedAll cs) := by
  induction h with
  | nil => exact .nil
  | cons hc _ ih => exact List.rel_append hc.2 ih

theorem nested_lowered (s : MiniPascal.Statement) (c : Statement) (hs : Q s c)
    (h : LoweredBy env (fun s c => Q s c ∧ Forall₂ Q s.nested c.nested) s c) :
    Forall₂ Q s.nested c.nested := by
  cases h with
  | assign | print | scan | call | exit | leave => exact .cons hs .nil
  | compound parts => exact .cons hs (nestedAll_lowered parts)
  | ifThen _ body | count _ _ _ body | loop _ body => exact .cons hs body.2
  | ifThenElse _ onTrue onFalse => exact .cons hs (List.rel_append onTrue.2 onFalse.2)

theorem PartOf.nested {p : MiniPascal.Program} {folding : Bool} {q : Program} {a : Part}
    {b : List Declaration × List Statement} (accepted : Accepted p) (h : PartOf p folding q a b) :
    Forall₂ (Lowered a.env) (MiniPascal.Statement.nestedAll a.statements)
      (Statement.nestedAll b.2) := by
  cases h with
  | main lowered =>
    exact nestedAll_lowered (lowered_induct nested_lowered _ _ accepted.checked.statements lowered)
  | routine split of =>
    exact nestedAll_lowered (lowered_induct nested_lowered _ _
      (statements_checked accepted.checked split) of.statements)

end

end C

end MiniPascal
