import MiniPascal.Proofs.Conversion

/-!
# What names mean and how they are used

A statement mentions items of the table. One use in C belongs to each mention, in the same order.
-/

namespace MiniPascal.C

open Scope Analysis
open List

/-- An item that a program mentions: as a place, or as a routine that is called for its value or as
a step. -/
inductive Mention where
  | place (item : Item)
  | call (item : Item) (arguments : List MiniPascal.Expr) (asValue : Bool)

/-- The use of a name in C: of a variable, or of a routine that is called. -/
inductive Use where
  | var (v : Var)
  | call (name : String) (arguments : List (Expr × Bool)) (asValue : Bool)

namespace Expr

mutual

def uses : Expr → List Use
  | int _ | real _ | char _ | string _ => []
  | var v => [.var v]
  | element v subscripts => .var v :: subscriptUses subscripts
  | call name arguments => .call name arguments true :: argumentUses arguments
  | binary _ left right => left.uses ++ right.uses
  | unary _ operand => operand.uses
  | cast _ operand => operand.uses

def subscriptUses : List (Expr × Int64) → List Use
  | [] => []
  | (e, _) :: rest => e.uses ++ subscriptUses rest

def argumentUses : List (Expr × Bool) → List Use
  | [] => []
  | (e, _) :: rest => e.uses ++ argumentUses rest

end

def usesAll (es : List Expr) : List Use := es.flatMap uses

end Expr

namespace Statement

mutual

def uses : Statement → List Use
  | assign target value => target.uses ++ value.uses
  | call name arguments => .call name arguments false :: Expr.argumentUses arguments
  | compound parts => usesAll parts
  | branch condition onTrue none => condition.uses ++ onTrue.uses
  | branch condition onTrue (some onFalse) => condition.uses ++ (onTrue.uses ++ onFalse.uses)
  | count counter first last _ body => .var counter :: (first.uses ++ (last.uses ++ body.uses))
  | loop condition body => condition.uses ++ body.uses
  | print _ arguments | scan _ arguments => Expr.usesAll arguments
  | leave result => result.toList.map .var
  | exit => []

def usesAll : List Statement → List Use
  | [] => []
  | s :: ss => s.uses ++ usesAll ss

end

end Statement

namespace Env

variable (env : Env)

def placeMentions (name : String) : List Mention :=
  (env.table.findPlace? env.block name).toList.map .place

def resultMentions : List Mention := (env.function.toList.flatMap resultItems).map .place

mutual

def mentions : MiniPascal.Expr → List Mention
  | .int .. | .real .. | .char .. | .bool .. | .string .. => []
  | .element _ name indices => env.placeMentions name ++ mentionsAll indices
  | .name _ name =>
    match env.table.resolve env.block name with
    | .ok item => [if item.kind = .routine then .call item [] true else .place item]
    | .error _ => []
  | .call _ name arguments =>
    match env.table.findRoutine env.block name (env.arguments arguments) with
    | .ok item => .call item arguments true :: mentionsAll arguments
    | .error _ => []
  | .binary _ _ left right => mentions left ++ mentions right
  | .unary _ _ operand => mentions operand

def mentionsAll : List MiniPascal.Expr → List Mention
  | [] => []
  | e :: es => mentions e ++ mentionsAll es

end

/-- What an assignment sets: the result of the function around, if it has the name, else a place. -/
def targetMentions (name : String) (indices : List MiniPascal.Expr) : List Mention :=
  let place := env.placeMentions name ++ env.mentionsAll (indices.map env.prepared)
  match env.function, indices with
  | some h, [] => if h.name = name then env.resultMentions else place
  | _, _ => place

mutual

def statementMentions : MiniPascal.Statement → List Mention
  | .assign _ name indices value =>
    env.targetMentions name indices ++ env.mentions (env.prepared value)
  | .call _ name arguments =>
    let values := env.mentionsAll (arguments.map env.prepared)
    match env.builtin? name with
    | some _ => values
    | none =>
      match env.table.findRoutine env.block name (env.arguments arguments) with
      | .ok item => .call item (arguments.map env.prepared) false :: values
      | .error _ => []
  | .compound _ parts => statementsMentions parts
  | .branch _ condition onTrue none =>
    env.mentions (env.prepared condition) ++ statementMentions onTrue
  | .branch _ condition onTrue (some onFalse) =>
    env.mentions (env.prepared condition) ++ (statementMentions onTrue ++ statementMentions onFalse)
  | .count _ counter first last _ body =>
    (env.table.findData? env.block counter).toList.map .place ++
      (env.mentions (env.prepared first) ++
        (env.mentions (env.prepared last) ++ statementMentions body))
  | .loop _ condition body => env.mentions (env.prepared condition) ++ statementMentions body
  | .exit _ => env.resultMentions

def statementsMentions : List MiniPascal.Statement → List Mention
  | [] => []
  | s :: ss => statementMentions s ++ statementsMentions ss

end

end Env

/-- The use that lowering makes of a mention. -/
inductive Emits (env : Env) : Mention → Use → Prop where
  | data {item : Item} (found : env.table.findData? env.block item.name = some item) :
      Emits env (.place item) (.var (itemVar item))
  | result {h : Heading} {item : Item} {v : Var} (around : env.function = some h)
      (own : item ∈ resultItems h) (named : resultVar env h = .ok v) :
      Emits env (.place item) (.var v)
  | call {item : Item} {arguments : List MiniPascal.Expr} {values : List Expr} {routine : String}
      (asValue : Bool)
      (found : env.table.findRoutine env.block item.name (env.arguments arguments) = .ok item)
      (named : env.names.routines.lookup item.position = some routine)
      (converted : convertAll env arguments = .ok values) :
      Emits env (.call item arguments asValue)
        (.call routine (values.zipWith (fun e param => (e, param.byReference)) item.params) asValue)

/-- A relation of mentions to uses that holds wherever a name is lowered. -/
structure Emitting (env : Env) (R : Mention → Use → Prop) : Prop where
  place : ∀ {p name item v}, env.table.findPlace? env.block name = some item →
    placeVar env p item name = .ok v → R (.place item) (.var v)
  counter : ∀ {item : Item}, env.table.findData? env.block item.name = some item →
    R (.place item) (.var (itemVar item))
  result : ∀ {h item v}, env.function = some h → item ∈ resultItems h →
    resultVar env h = .ok v → R (.place item) (.var v)
  call : ∀ {item : Item} {es cs routine} (asValue : Bool),
    env.table.findRoutine env.block item.name (env.arguments es) = .ok item →
    env.names.routines.lookup item.position = some routine → convertAll env es = .ok cs →
    R (.call item es asValue)
      (.call routine (cs.zipWith (fun e param => (e, param.byReference)) item.params) asValue)

/-- The results that are visible from a block are those of the function around. -/
def Env.OwnResults (env : Env) : Prop :=
  ∀ item, env.table.Visible env.block item → item.kind = .result →
    ∃ h, env.function = some h ∧ item ∈ resultItems h

section

variable {env : Env}

theorem argumentUses_eq (arguments : List (Expr × Bool)) :
    Expr.argumentUses arguments = Expr.usesAll (arguments.map Prod.fst) :=
  Expr.flatMap_fst rfl (fun _ _ => rfl) arguments

theorem subscriptUses_eq (subscripts : List (Expr × Int64)) :
    Expr.subscriptUses subscripts = Expr.usesAll (subscripts.map Prod.fst) :=
  Expr.flatMap_fst rfl (fun _ _ => rfl) subscripts

variable {name : String} {es : List MiniPascal.Expr} {p : Position} {v : Var} {h : Heading}

theorem resultMentions_eq (hf : env.function = some h) :
    ∃ item ∈ resultItems h, env.resultMentions = [.place item] := by
  obtain ⟨type, htype⟩ := Option.isSome_iff_exists.mp (returns_of_function hf)
  have hitems : resultItems h =
      [{ name := h.name, type := .ofScalar type, kind := .result, position := h.position }] := by
    rw [resultItems, htype]
    rfl
  refine ⟨_, hitems ▸ mem_cons_self, ?_⟩
  rw [Env.resultMentions, hf, Option.toList_some, flatMap_cons, flatMap_nil, hitems]
  rfl

theorem placeVar_emits (own : env.OwnResults) {item : Item}
    (hfound : env.table.findPlace? env.block name = some item)
    (hv : placeVar env p item name = .ok v) : Emits env (.place item) (.var v) := by
  unfold placeVar at hv
  split at hv
  · next hk =>
    obtain ⟨h, hf, hitem⟩ := own item (Table.findPlace?_visible hfound) hk
    rw [hf] at hv
    exact .result hf hitem hv
  · next hk =>
    cases hv
    rcases Table.findPlace?_some hfound with ⟨hdata, _⟩ | ⟨_, _, hresult⟩
    · rw [← (Table.findData?_some hdata).2.1] at hdata
      exact .data hdata
    · exact (hk hresult).elim

theorem Env.OwnResults.emitting (own : env.OwnResults) : Emitting env (Emits env) :=
  ⟨placeVar_emits own, .data, .result, .call⟩

variable {R : Mention → Use → Prop}

theorem isResult_of_resultVar (hv : resultVar env h = .ok v) :
    v.isResult = true ∧ v.byReference = false := by
  unfold resultVar at hv
  split at hv
  · cases hv
    exact ⟨rfl, rfl⟩
  · cases hv

theorem mentionsAll_emits {cs : List Expr}
    (h : Forall₂ (fun e c => convert env e = .ok c ∧ Forall₂ R (env.mentions e) c.uses)
      es cs) :
    convertAll env es = .ok cs ∧ Forall₂ R (env.mentionsAll es) (Expr.usesAll cs) := by
  refine ⟨convertAll_eq_ok.mpr (h.imp fun _ _ h => h.1), ?_⟩
  induction h with
  | nil => exact .nil
  | cons hc _ ih => exact rel_append hc.2 ih

theorem arguments_prepared (es : List MiniPascal.Expr) :
    env.arguments (es.map env.prepared) = env.arguments es := by
  unfold Env.arguments Env.prepared
  split
  · rw [← Expr.foldAll_eq_map, Typing.argumentsOf_foldAll]
  · rw [map_id']

theorem mentions_prepared_string (p : Position) (text : String) :
    env.mentions (env.prepared (.string p text)) = [] := by
  unfold Env.prepared
  split <;> rfl

theorem statementsMentions_emits {ss : List MiniPascal.Statement} {cs : List Statement}
    (h : Forall₂ (fun s c => lowerStatement env s = .ok c ∧
      Forall₂ R (env.statementMentions s) c.uses) ss cs) :
    Forall₂ R (env.statementsMentions ss) (Statement.usesAll cs) := by
  induction h with
  | nil => exact .nil
  | cons hc _ ih => exact rel_append hc.2 ih

variable (emitting : Emitting env R)
include emitting

theorem resultVar_emits (hf : env.function = some h) (hv : resultVar env h = .ok v) :
    Forall₂ R env.resultMentions [.var v] := by
  obtain ⟨item, hitem, heq⟩ := resultMentions_eq hf
  rw [heq]
  exact .cons (emitting.result hf hitem hv) .nil

theorem place_emits {cs : List Expr} {c : Expr}
    (h : PlaceOf env p name cs c) {ms : List Mention}
    (hcs : Forall₂ R ms (Expr.usesAll cs)) :
    Forall₂ R (env.placeMentions name ++ ms) c.uses := by
  have hplace : ∀ {item}, env.table.findPlace? env.block name = some item →
      env.placeMentions name = [.place item] := by
    intro item found
    rw [Env.placeMentions, found]
    rfl
  cases h with
  | var found hv =>
    rw [hplace found]
    exact .cons (emitting.place found hv) hcs
  | element found hv _ hlength =>
    rw [hplace found, Expr.uses, subscriptUses_eq, Expr.usesAll,
      flatMap_subscripts (fun _ => rfl) _ hlength]
    exact .cons (emitting.place found hv) hcs

theorem call_emits (asValue : Bool) {cs : List Expr} {item : Item} {routine : String}
    {passed : List (Expr × Bool)} (h : CallOf env name (env.arguments es) cs item routine passed)
    (hcs : convertAll env es = .ok cs)
    (hes : Forall₂ R (env.mentionsAll es) (Expr.usesAll cs)) :
    Forall₂ R (.call item es asValue :: env.mentionsAll es)
      (.call routine passed asValue :: Expr.argumentUses passed) := by
  rw [argumentUses_eq, h.fst]
  obtain ⟨found, named, _, rfl⟩ := h
  rw [← (Table.findRoutine_ok found).2.2.1] at found
  exact .cons (emitting.call asValue found named hcs) hes

/-- The uses in the form of an expression are those of its mentions. -/
theorem convert_emits : ∀ (e : MiniPascal.Expr) (c : Expr),
    convert env e = .ok c → Forall₂ R (env.mentions e) c.uses := by
  refine convert_induct fun e c h => ?_
  cases h with
  | int | real | char | bool | string => exact .nil
  | element parts hplace => exact place_emits emitting hplace (mentionsAll_emits parts).2
  | routine found kind named =>
    obtain ⟨_, hroutine⟩ | ⟨hk, _⟩ := Table.resolve_ok found
    · rw [← (Table.findRoutine_ok hroutine).2.2.1] at hroutine
      have hnone : convertAll env [] = .ok [] := rfl
      rw [Env.mentions, found]
      dsimp only
      rw [if_pos kind]
      exact .cons (emitting.call true hroutine named hnone) .nil
    · exact absurd kind hk
  | name found kind hplace =>
    obtain ⟨hk, _⟩ | ⟨_, hfound⟩ := Table.resolve_ok found
    · exact absurd hk kind
    · have hemits := place_emits emitting hplace .nil
      rw [Env.placeMentions, hfound] at hemits
      rw [Env.mentions, found]
      dsimp only
      rw [if_neg kind]
      exact hemits
  | call other parts hcall =>
    obtain ⟨hcs, hes⟩ := mentionsAll_emits parts
    rw [Env.mentions, hcall.found]
    exact call_emits emitting true hcall hcs hes
  | binary hl hr | widened hl hr => exact rel_append hl.2 hr.2
  | plus he | minus he | not he => exact he.2

theorem convertAll_emits {cs : List Expr} (h : convertAll env es = .ok cs) :
    Forall₂ R (env.mentionsAll es) (Expr.usesAll cs) :=
  (mentionsAll_emits ((convertAll_eq_ok.mp h).imp fun e c hc => ⟨hc, convert_emits emitting e c hc⟩)).2

theorem target_emits {c : Expr} (h : target env p name es = .ok c) :
    Forall₂ R (env.targetMentions name es) c.uses := by
  unfold Env.targetMentions
  cases target_eq_ok h with
  | result around named hv =>
    rw [around]
    dsimp only
    rw [if_pos named]
    exact resultVar_emits emitting around hv
  | place other lowered hplace =>
    have hemits := place_emits emitting hplace (convertAll_emits emitting lowered)
    split
    · next f hf => rwa [if_neg fun hname => other f hf hname rfl]
    · exact hemits

theorem format_emits {b : Builtin} {r : String × List Expr}
    (h : format env b es = .ok r) :
    Forall₂ R (env.mentionsAll (es.map env.prepared)) (Expr.usesAll r.2) := by
  induction es generalizing r with
  | nil =>
    cases h
    exact .nil
  | cons e es ih =>
    rw [map_cons, Env.mentionsAll]
    unfold format at h
    split at h
    · obtain ⟨rest, hrest, h⟩ := Except.bind_eq_ok.mp h
      cases h
      rw [mentions_prepared_string]
      exact ih (r := rest) hrest
    · obtain ⟨type, _, value, hvalue, h⟩ := Except.bind₂_eq_ok.mp h
      obtain ⟨rest, hrest, h⟩ := Except.bind_eq_ok.mp h
      cases h
      rw [Expr.usesAll, flatMap_cons]
      exact rel_append (convert_emits emitting _ value hvalue) (ih hrest)

theorem leaving_emits {c : Statement} (h : leaving env = .ok c) :
    Forall₂ R env.resultMentions c.uses := by
  unfold leaving at h
  cases hs : env.subprogram with
  | none =>
    rw [hs] at h
    cases h
    rw [Env.resultMentions, Env.function, hs]
    exact .nil
  | some f =>
    rw [hs] at h
    dsimp only at h
    split at h
    · next hr =>
      obtain ⟨v, hv, h⟩ := Except.bind_eq_ok.mp h
      cases h
      have hf : env.function = some f := by simp [Env.function, hs, functionOf, hr]
      exact resultVar_emits emitting hf hv
    · next hr =>
      cases h
      rw [Env.resultMentions, Env.function, hs, Option.bind_some, functionOf, if_neg hr]
      exact .nil

theorem counterVar_emits (h : counterVar env p name = .ok v) :
    Forall₂ R ((env.table.findData? env.block name).toList.map .place) [.var v] := by
  unfold counterVar at h
  cases hfound : env.table.findData? env.block name with
  | none =>
    rw [hfound] at h
    cases h
  | some item =>
    rw [hfound] at h
    cases h
    rw [← (Table.findData?_some hfound).2.1] at hfound
    exact .cons (emitting.counter hfound) .nil

theorem statement_emits (s : MiniPascal.Statement) (c : Statement)
    (_ : lowerStatement env s = .ok c) (h : LoweredBy env (fun s c => lowerStatement env s = .ok c ∧
      Forall₂ R (env.statementMentions s) c.uses) s c) :
    Forall₂ R (env.statementMentions s) c.uses := by
  cases h with
  | assign target value =>
    exact rel_append (target_emits emitting target) (convert_emits emitting _ _ value)
  | print found _ hformat | scan found _ hformat =>
    rw [Env.statementMentions, found]
    exact format_emits emitting hformat
  | call other hcall =>
    obtain ⟨cs, item, lowered, hcall⟩ := callOf_eq_ok (length_map _) hcall
    rw [Env.statementMentions, other, hcall.found]
    rw [← arguments_prepared] at hcall
    exact call_emits emitting false hcall lowered (convertAll_emits emitting lowered)
  | compound parts => exact statementsMentions_emits parts
  | ifThen condition hs => exact rel_append (convert_emits emitting _ _ condition) hs.2
  | ifThenElse condition hs ht =>
    exact rel_append (convert_emits emitting _ _ condition) (rel_append hs.2 ht.2)
  | count counter first last hs =>
    exact rel_append (counterVar_emits emitting counter) (rel_append (convert_emits emitting _ _ first)
      (rel_append (convert_emits emitting _ _ last) hs.2))
  | loop condition hs => exact rel_append (convert_emits emitting _ _ condition) hs.2
  | exit hleaving | leave hleaving => exact leaving_emits emitting hleaving

theorem lowerStatements_emits (ss : List MiniPascal.Statement)
    (cs : List Statement) (h : lowerStatements env ss = .ok cs) :
    Forall₂ R (env.statementsMentions ss) (Statement.usesAll cs) :=
  statementsMentions_emits (lowerStatements_induct (statement_emits emitting) ss cs h)

end

section

variable {p : MiniPascal.Program} {before after : List Subprogram} {s : Subprogram} {i : Item}

theorem mem_resultItems {t : Table} (hi : i ∈ subprogramItems 0 t s) (hk : i.kind = .result) :
    i ∈ resultItems s.heading := by
  rcases mem_subprogramItems.mp hi with hi | hi | hi | hi
  · cases (kind_of_mem_paramItems hi).symm.trans hk
  · exact hi
  · cases (kind_of_mem_constItems hi).symm.trans hk
  · cases (kind_of_mem_varItems hi).symm.trans hk

theorem ownResults_ofProgram (p : MiniPascal.Program) (folding : Bool) :
    (Env.ofProgram p folding).OwnResults := fun _ hv hk =>
  ((kind_of_mem_rootItems (visible_root (finished_root p) hv)).1 hk).elim

theorem ownResults_inside (folding : Bool) (hs : p.subprograms = before ++ s :: after) :
    (Env.inside p folding before s).OwnResults := by
  intro item hv hk
  rcases visible_subprogram (finished_root p) (getElem?_finished hs) hv with hi | hi
  · refine ⟨s.heading, ?_, mem_resultItems hi hk⟩
    simp [Env.function, Env.within, functionOf, (kind_of_mem_subprogramItems hi).2 hk]
  · exact ((kind_of_mem_rootItems hi).1 hk).elim

end

end MiniPascal.C
