import MiniPascal.Proofs.Assembly

/-!
# Scopes of a program in C

A program in C has a scope at file level, one for each routine and one in `main`.
-/

namespace MiniPascal

open Analysis
open List

/-- The names of subprograms that no other subprogram has. -/
def Program.plainNames (p : Program) : List String :=
  (C.Names.headed p).filter fun name => (C.Names.headed p).count name ≤ 1

/-- The names of the program that are kept at file level. -/
def Program.outerNames (p : Program) : List String := p.body.dataNames ++ p.plainNames

namespace C

inductive Declaration where
  | constant (c : Constant)
  | scalar (v : Scalar)
  | array (a : ArrayDecl)
  | param (v : Param)
  | result (v : Result)
  | routine (r : Routine)
  | main

/-- The identifier that a declaration writes. The variable for a result is written as it is. -/
def Declaration.identifier : Declaration → String
  | constant c => C.identifier c.name
  | scalar v => C.identifier v.name
  | array a => C.identifier a.name
  | param v => C.identifier v.name
  | result v => v.name
  | routine r => C.identifier r.name
  | main => "main"

def Declarations.scope (d : Declarations) : List Declaration :=
  d.constants.map .constant ++ (d.scalars.map .scalar ++ d.arrays.map .array)

def Routine.scope (r : Routine) : List Declaration :=
  r.params.map .param ++ r.body.declarations.scope ++ r.result.toList.map .result

def Program.scope (q : Program) : List Declaration :=
  q.globals.scope ++ q.routines.map .routine ++ [.main]

theorem identifiers_declarations (d : Declarations) :
    d.scope.map Declaration.identifier = d.names.map identifier := by
  simp [Declarations.scope, Declarations.names, Function.comp_def, Declaration.identifier]

theorem routines_perm {all taken : List String} {ss : List Subprogram} {rs : List Routine}
    (h : Forall₂ (fun s r => RoutineNamed all taken s.heading r.name) ss rs) :
    ∃ new, (rs.map Routine.name).Perm
        ((ss.map fun s => s.heading.name).filter (fun n => all.count n ≤ 1) ++ new) ∧
      ∀ n ∈ new, n ∉ taken ∧ Settled n := by
  induction h with
  | nil => exact ⟨[], .nil, nofun⟩
  | @cons s r ss rs hr _ ih =>
    obtain ⟨new, hperm, hnew⟩ := ih
    rw [map_cons, map_cons, filter_cons]
    generalize hname : r.name = name at hr
    cases hr with
    | plain once =>
      rw [decide_eq_true once]
      exact ⟨new, hperm.cons _, hnew⟩
    | numbered several settled fresh =>
      rw [decide_eq_false (by omega)]
      refine ⟨name :: new, (hperm.cons _).trans perm_middle.symm, ?_⟩
      intro n hn
      rcases mem_cons.mp hn with rfl | hn
      · exact ⟨fresh, settled⟩
      · exact hnew n hn

section

variable {p : MiniPascal.Program} {folding : Bool} {q : Program}

theorem outerNames_subset : p.outerNames ⊆ (finished p).names := by
  intro name hname
  rcases mem_append.mp hname with hname | hname
  · obtain ⟨i, hi, _, rfl⟩ := mem_dataNames_root.mp hname
    exact name_of_mem_rootItems hi
  · exact headed_subset (mem_filter.mp hname).1

variable {s : Subprogram}

theorem dataNames_subset {before after : List Subprogram}
    (hs : p.subprograms = before ++ s :: after) : s.dataNames ⊆ (finished p).names := by
  intro name hname
  obtain ⟨i, hi, _, rfl⟩ := (mem_dataNames_subprogram (t := tableAfter p before)).mp hname
  exact name_of_mem_subprogramItems hs hi

theorem Assembled.file_perm (accepted : Accepted p) (h : Assembled p folding q)
    (hne : q.routines ≠ []) : ∃ new, (q.scope.map Declaration.identifier).Perm
        ((p.outerNames ++ new).map identifier ++ ["main"]) ∧
      (q.routines.map Routine.name).Perm (p.plainNames ++ new) ∧
      ∀ n ∈ new, n ∉ (finished p).names ∧ Settled n := by
  obtain ⟨new, hperm, hnew⟩ := routines_perm (h.named accepted).1
  have hglobals : q.globals.names.Perm p.body.dataNames := by
    have houtside := h.outside.names_perm
    rwa [Program.outside, if_neg fun he => hne (List.isEmpty_iff.mp he)] at houtside
  have hidentifiers : q.scope.map Declaration.identifier =
      (q.globals.names ++ q.routines.map Routine.name).map identifier ++ ["main"] := by
    rw [Program.scope, map_append, map_append, identifiers_declarations, map_append,
      map_map, map_map]
    rfl
  refine ⟨new, ?_, hperm, hnew⟩
  rw [hidentifiers, MiniPascal.Program.outerNames, append_assoc p.body.dataNames]
  exact ((hglobals.append hperm).map identifier).append_right _

theorem Assembled.main_perm (h : Assembled p folding q) (hnone : q.routines = []) :
    (q.main.declarations.scope.map Declaration.identifier).Perm (p.outerNames.map identifier) := by
  have hsubprograms : p.subprograms = [] := forall₂_nil_right_iff.mp (hnone ▸ h.routines)
  have houter : p.outerNames = p.body.dataNames := by
    simp [MiniPascal.Program.outerNames, MiniPascal.Program.plainNames, hsubprograms]
  have houtside := h.outside.names_perm
  rw [Program.outside, if_pos (List.isEmpty_iff.mpr hnone), ← houter] at houtside
  rw [identifiers_declarations]
  exact houtside.map identifier

theorem RoutineOf.scope_perm {env : Env} {r : Routine} (h : RoutineOf env s r) :
    (r.scope.map Declaration.identifier).Perm
      (s.dataNames.map identifier ++ r.result.toList.map Result.name) := by
  have hparams :
      r.params.map (fun v => identifier v.name) = s.heading.paramNames.map identifier := by
    rw [h.params, C.params, Heading.paramNames, map_flatMap, map_flatMap]
    simp [Function.comp_def]
  have hidentifiers : r.scope.map Declaration.identifier =
      (s.heading.paramNames ++ r.body.declarations.names).map identifier ++
        r.result.toList.map Result.name := by
    rw [map_append, ← hparams, Routine.scope, map_append, map_append,
      identifiers_declarations, map_map, map_map]
    rfl
  rw [hidentifiers]
  exact ((h.declarations.names_perm.append_left _).map identifier).append_right _

/-- Statements of a program, where they stand, and the names of the data that is declared there. -/
structure Part where
  env : Env
  own : List String
  statements : List MiniPascal.Statement

def Part.mentions (a : Part) : List Mention := a.env.statementsMentions a.statements

/-- Where a subprogram is lowered: in the block that is known for its head. -/
def Env.of (p : MiniPascal.Program) (folding : Bool) (s : Subprogram) : Env :=
  (Env.ofProgram p folding).within (((finished p).blockAt? s.heading.position).getD 0) s.heading

/-- The statements of the program itself, and those of each subprogram. -/
def Part.ofProgram (p : MiniPascal.Program) (folding : Bool) : List Part :=
  ⟨Env.ofProgram p folding, [], p.body.statements⟩ ::
    p.subprograms.map fun s => ⟨Env.of p folding s, s.dataNames, s.body.statements⟩

/-- The statements of `main` and of each routine, with the scopes that they stand in. -/
def Program.parts (q : Program) : List (List Declaration × List Statement) :=
  (q.main.declarations.scope, q.main.statements) ::
    q.routines.map fun r => (r.scope, r.body.statements)

inductive PartOf (p : MiniPascal.Program) (folding : Bool) (q : Program) :
    Part → List Declaration × List Statement → Prop where
  | main
      (lowered :
        lowerStatements (Env.ofProgram p folding) p.body.statements = .ok q.main.statements) :
      PartOf p folding q ⟨Env.ofProgram p folding, [], p.body.statements⟩
        (q.main.declarations.scope, q.main.statements)
  | routine {before after : List Subprogram} {s : Subprogram} {r : Routine}
      (split : p.subprograms = before ++ s :: after)
      (of : RoutineOf (Env.inside p folding before s) s r) :
      PartOf p folding q ⟨Env.inside p folding before s, s.dataNames, s.body.statements⟩
        (r.scope, r.body.statements)

theorem envOf_eq (accepted : Accepted p) {before after : List Subprogram}
    (hs : p.subprograms = before ++ s :: after) :
    Env.of p folding s = Env.inside p folding before s := by
  have hblock : blockFor (finished p) s.heading.name s.heading.position =
      .ok (tableAfter p before).blocks.length := blockFor_heading accepted.heads hs
  unfold blockFor at hblock
  split at hblock
  · next hkey =>
    cases hblock
    rw [Env.of, hkey]
    rfl
  · cases hblock

theorem Assembled.parts (accepted : Accepted p) (h : Assembled p folding q) :
    Forall₂ (PartOf p folding q) (Part.ofProgram p folding) q.parts := by
  refine .cons (.main h.statements) ?_
  rw [forall₂_map_left_iff, forall₂_map_right_iff]
  refine h.routines.imp fun s r => ?_
  rintro ⟨before, after, hs, hr⟩
  rw [envOf_eq accepted hs]
  exact .routine hs hr

theorem PartOf.emits {a : Part} {b : List Declaration × List Statement}
    (h : PartOf p folding q a b) : Forall₂ (Emits a.env) a.mentions (Statement.usesAll b.2) := by
  cases h with
  | main lowered => exact lowerStatements_emits (ownResults_ofProgram p folding).emitting _ _ lowered
  | routine split of =>
    exact lowerStatements_emits (ownResults_inside folding split).emitting _ _ of.statements

end

end C

end MiniPascal
