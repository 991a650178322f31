import MiniPascal.Proofs.Declarations

/-!
# Subprograms are analyzed apart

The problems of a subprogram and the contents of its block depend on nothing but the subprogram and
the outermost block.
-/

namespace MiniPascal

open List

namespace Scope

variable {t t' : Table} {root own : Block} {n : Nat}

/-- What the block has declared has the name and the parameters of the item. -/
def Block.repeats (b : Block) (item : Item) : Bool :=
  (b.named item.name).any fun i => i.params == item.params

namespace Table

/-- The first block lies in none, and in it every name means what it means in `root`. -/
structure Around (root : Block) (t : Table) : Prop where
  exists_first : ∃ b, t.blocks[0]? = some b ∧ b.parent = none ∧ b.named = root.named

namespace Around

variable (h : Around root t)
include h

theorem length_pos : 0 < t.blocks.length := by
  obtain ⟨b, hb, _⟩ := h
  exact (List.getElem?_eq_some_iff.mp hb).1

theorem grown (hp : t.blocks <+: t'.blocks) : Around root t' := by
  obtain ⟨b, hb, hrest⟩ := h.exists_first
  have hsame := getElem?_of_prefix hp h.length_pos
  exact ⟨b, hsame.trans hb, hrest⟩

theorem ancestors_first : t.ancestors 0 = [0] := by
  obtain ⟨b, hb, hparent, _⟩ := h
  rw [ancestors, hb, Option.bind_some, hparent]

theorem named_first (name : String) : t.named 0 name = root.named name := by
  obtain ⟨b, hb, _, hnamed⟩ := h
  rw [named, hb, ← hnamed]

theorem find?_first (name : String) (fits : Item → Bool) :
    t.find? 0 name fits = (root.named name).find? fits := by
  rw [find?, h.ancestors_first, findSome?_singleton, h.named_first]

theorem find?_inside (hn : 0 < n) (hown : t.blocks[n]? = some own) (hparent : own.parent = some 0)
    (name : String) (fits : Item → Bool) :
    t.find? n name fits = ((own.named name).find? fits).or ((root.named name).find? fits) := by
  have haround : (t.ancestors n).tail = [0] := by
    rw [ancestors, hown, Option.bind_some, hparent]
    simp only [hn, dite_true, tail_cons, h.ancestors_first]
  rw [find?_eq, findAround?, haround, findSome?_singleton, h.named_first, named, hown]

end Around

theorem Around.alike_first (h : Around root t) (h' : Around root t') : Alike t 0 t' 0 :=
  fun name fits => (h.find?_first name fits).trans (h'.find?_first name fits).symm

theorem Around.alike_inside {n' : Nat} (h : Around root t) (h' : Around root t') (hn : 0 < n)
    (hn' : 0 < n') (hown : t.blocks[n]? = some own) (hown' : t'.blocks[n']? = some own)
    (hparent : own.parent = some 0) : Alike t n t' n' := by
  intro name fits
  rw [h.find?_inside hn hown hparent, h'.find?_inside hn' hown' hparent]

end Table

end Scope

theorem Typing.isConstant_congr {t t' : Scope.Table} {block block' : Nat}
    (same : Scope.Table.Alike t block t' block') : isConstant t block = isConstant t' block' := by
  funext e
  cases e with
  | unary p op operand => cases op <;> rfl
  | name p name => simp only [isConstant, same.resolve]
  | int | real | char | bool | string | element | call | binary => rfl

namespace Analysis

open Scope Scope.Table

theorem constType_congr {t t' : Table} {block block' : Nat} (same : Alike t block t' block')
    (d : ConstDecl) : constType t block d = constType t' block' d := by
  rw [constType, constType, Typing.isConstant_congr same, Typing.typeOf_congr same]

/-! ## Filling a block -/

/-- An analysis with one more block, of a head at the given place, and further problems. -/
def within (a : Analysis) (key : Position) (own : Block) (errors : List SemanticError) : Analysis :=
  ⟨⟨a.table.blocks ++ [own], (key, a.table.blocks.length) :: a.table.keys⟩, a.errors ++ errors⟩

variable {root : Block}

/-- What a step does to the last block, and which problems it meets, depends on this block and on
what names mean in the outermost one. -/
def Local (root : Block) (step : Nat → Analysis → Analysis) : Prop :=
  ∀ own errors, own.parent = some 0 → ∃ own' errors', own'.parent = some 0 ∧
    ∀ (a : Analysis) key, a.table.Around root →
      step a.table.blocks.length (a.within key own errors) = a.within key own' errors'

namespace Local

variable {step next : Nat → Analysis → Analysis}

theorem comp (h : Local root step) (hnext : Local root next) :
    Local root fun n a => next n (step n a) := by
  intro own errors hparent
  obtain ⟨own', errors', hparent', h'⟩ := h own errors hparent
  obtain ⟨own'', errors'', hparent'', h''⟩ := hnext own' errors' hparent'
  refine ⟨own'', errors'', hparent'', fun a key ha => ?_⟩
  dsimp only
  rw [h' a key ha, h'' a key ha]

theorem foldl {α : Type} {step : Nat → Analysis → α → Analysis} {xs : List α}
    (h : ∀ x, Local root fun n a => step n a x) : Local root fun n a => xs.foldl (step n) a := by
  induction xs with
  | nil => exact fun own errors hparent => ⟨own, errors, hparent, fun _ _ _ => rfl⟩
  | cons x xs ih => exact (h x).comp ih

end Local

theorem report_within (a : Analysis) (key : Position) (own : Block)
    (errors more : List SemanticError) :
    (a.within key own errors).report more = a.within key own (errors ++ more) := by
  rw [report, within, within, append_assoc]

variable {a : Analysis} {p : Program} {b : Block}

theorem declare_eq {n : Nat} (h : a.table.blocks[n]? = some b) (item : Item) :
    declare n a item = if b.repeats item then a.report [⟨.duplicate item.name, item.position⟩]
      else { a with table := a.table.extend n [item] } := by
  have hnamed : a.table.named n item.name = b.named item.name := by rw [named, h]
  rw [declare, insert?, hnamed, ← Block.repeats]
  cases b.repeats item <;> rfl

theorem local_declare (item : Item) : Local root fun n a => declare n a item := by
  intro own errors hparent
  have hown : ∀ (a : Analysis) key,
      (a.within key own errors).table.blocks[a.table.blocks.length]? = some own :=
    fun _ _ => getElem?_concat_length
  by_cases hrepeats : own.repeats item = true
  · refine ⟨own, errors ++ [⟨.duplicate item.name, item.position⟩], hparent, fun a key _ => ?_⟩
    dsimp only
    rw [declare_eq (hown a key), if_pos hrepeats]
    exact report_within a key own errors _
  · refine ⟨{ own with items := own.items ++ [item] }, errors, hparent, fun a key _ => ?_⟩
    dsimp only
    rw [declare_eq (hown a key), if_neg hrepeats]
    have hlast :=
      extend_last a.table.blocks own ((key, a.table.blocks.length) :: a.table.keys) [item]
    exact congrArg (Analysis.mk · _) hlast

theorem alike_within {a' : Analysis} (ha : a.table.Around root) (ha' : a'.table.Around root)
    {own : Block} (hparent : own.parent = some 0) (key key' : Position)
    (errors errors' : List SemanticError) :
    Alike (a.within key own errors).table a.table.blocks.length
      (a'.within key' own errors').table a'.table.blocks.length :=
  (ha.grown (prefix_append _ _)).alike_inside (ha'.grown (prefix_append _ _))
    ha.length_pos ha'.length_pos getElem?_concat_length getElem?_concat_length hparent

def lone (root : Block) : Analysis := { table := ⟨[root], []⟩ }

theorem around_lone (hroot : b.parent = none) (hnamed : b.named = root.named) :
    (lone b).table.Around root :=
  ⟨b, rfl, hroot, hnamed⟩

/-- The analysis of a subprogram against the outermost block alone. -/
def alone (root : Block) (s : Subprogram) : Analysis := subprogram 0 (lone root) s

/-- The block of a subprogram that was analyzed alone. -/
def ownBlock (root : Block) (s : Subprogram) : Block := (alone root s).table.blocks.getLastD root

section

variable (hroot : root.parent = none)

include hroot

theorem local_declareConst (d : ConstDecl) : Local root fun n a => declareConst n a d := by
  intro own errors hparent
  -- the type of the constant is the same in all analyses, so take it from the least one
  generalize htype : constType ((lone root).within default own []).table 1 d = type
  have hdeclare : Local root fun n a => declare n a
      { name := d.name, type := type.value, kind := .const, position := d.position } :=
    local_declare _
  obtain ⟨own', errors', hparent', h⟩ := hdeclare own (errors ++ type.errors) hparent
  refine ⟨own', errors', hparent', fun a key ha => ?_⟩
  have halike := alike_within ha (around_lone hroot rfl) hparent key default errors []
  have hsame : constType (a.within key own errors).table a.table.blocks.length d = type :=
    (constType_congr halike d).trans htype
  dsimp only
  rw [declareConst, hsame, report_within]
  exact h a key ha

theorem local_statements (function : Option Heading) (ss : List Statement) :
    Local root fun n a => a.report (Check.statements ⟨a.table, n, function⟩ ss).errors := by
  intro own errors hparent
  refine ⟨own, errors ++
    (Check.statements ⟨((lone root).within default own []).table, 1, function⟩ ss).errors, hparent,
    fun a key ha => ?_⟩
  dsimp only
  rw [report_within, Check.statements_congr
    (alike_within ha (around_lone hroot rfl) hparent key default errors [])]
  rfl

/-! ## Subprograms -/

/-- A subprogram adds a block and problems that do not depend on the analysis it adds them to. -/
theorem subprogram_local (s : Subprogram) :
    ∃ own errors, own.parent = some 0 ∧ ∀ a : Analysis, a.table.Around root →
      subprogram 0 a s = a.within s.heading.position own errors := by
  have hdeclareAll : ∀ items, Local root fun n a => declareAll n items a :=
    fun items => .foldl local_declare
  have hconsts : Local root fun n a => declareConsts n s.body.consts a :=
    .foldl (local_declareConst hroot)
  have hfill : Local root fun n a => _ :=
    ((((hdeclareAll (s.heading.groups.flatMap paramItems)).comp
      (hdeclareAll (resultItems s.heading))).comp hconsts).comp
      (hdeclareAll (s.body.vars.flatMap varItems))).comp
      (local_statements hroot (functionOf s.heading) s.body.statements)
  obtain ⟨own, errors, hparent, h⟩ := hfill ⟨s.heading.name, some 0, []⟩ [] rfl
  refine ⟨own, errors, hparent, fun a ha => ?_⟩
  rw [← h a s.heading.position ha]
  simp only [subprogram, within, createBlock, declareConsts, append_nil]

theorem alone_blocks (s : Subprogram) :
    (alone root s).table.blocks = [root, ownBlock root s] ∧ (ownBlock root s).parent = some 0 := by
  obtain ⟨own, errors, hparent, h⟩ := subprogram_local hroot s
  have hblocks : (alone root s).table.blocks = [root, own] := by
    rw [alone, h _ (around_lone hroot rfl)]
    rfl
  rw [ownBlock, hblocks]
  exact ⟨rfl, hparent⟩

theorem subprogram_eq (ha : a.table.Around root) (s : Subprogram) :
    (subprogram 0 a s).errors = a.errors ++ (alone root s).errors ∧
      (subprogram 0 a s).table.blocks = a.table.blocks ++ [ownBlock root s] := by
  obtain ⟨own, errors, _, h⟩ := subprogram_local hroot s
  rw [ownBlock, alone, h a ha, h _ (around_lone hroot rfl)]
  exact ⟨rfl, rfl⟩

theorem foldl_subprogram (ha : a.table.Around root) (ss : List Subprogram) :
    (ss.foldl (subprogram 0) a).errors = a.errors ++ ss.flatMap (fun s => (alone root s).errors) ∧
      (ss.foldl (subprogram 0) a).table.blocks = a.table.blocks ++ ss.map (ownBlock root) := by
  induction ss generalizing a with
  | nil => simp
  | cons s ss ih =>
    obtain ⟨herrors, hblocks⟩ := subprogram_eq hroot ha s
    have hnext : (subprogram 0 a s).table.Around root :=
      ha.grown (hblocks ▸ prefix_append _ _)
    obtain ⟨herrors', hblocks'⟩ := ih hnext
    rw [foldl_cons, herrors', hblocks', herrors, hblocks]
    simp

end

/-! ## The outermost block -/

def Single (name : String) (t : Table) : Prop := ∃ items, t.blocks = [⟨name, none, items⟩]

variable {name : String} {a : Analysis}

theorem Single.declare (h : Single name a.table) (item : Item) :
    Single name (declare 0 a item).table := by
  unfold Analysis.declare
  split
  · next t ht =>
    obtain ⟨items, hitems⟩ := h
    obtain ⟨-, rfl⟩ := insert?_eq_some ht
    exact ⟨items ++ [item], by simp [extend, hitems]⟩
  · exact h

theorem Single.declareAll (h : Single name a.table) (items : List Item) :
    Single name (declareAll 0 items a).table := by
  induction items generalizing a with
  | nil => exact h
  | cons item items ih => exact ih (h.declare item)

theorem Single.declareConsts (h : Single name a.table) (ds : List ConstDecl) :
    Single name (declareConsts 0 ds a).table := by
  induction ds generalizing a with
  | nil => exact h
  | cons d ds ih =>
    have hreported : Single name (a.report (constType a.table 0 d).errors).table := h
    exact ih (hreported.declare _)

theorem outermost_single (p : Program) : Single p.name (outermost p).1.table :=
  Single.declareAll (Single.declareAll (Single.declareConsts ⟨[], rfl⟩ _) _) _

theorem outermost_congr {ss : List Subprogram}
    (h : ss.map Subprogram.heading = p.subprograms.map Subprogram.heading) :
    outermost { p with subprograms := ss } = outermost p := by
  have hitems : ss.map (fun s => routineItem s.heading) =
      p.subprograms.map fun s => routineItem s.heading := by
    simpa only [map_map, Function.comp_def] using congrArg (List.map routineItem) h
  unfold outermost
  rw [hitems]

/-! ## Whole programs -/

/-- The analysis of a program up to its first `k` subprograms. -/
def stage (p : Program) (k : Nat) : Analysis :=
  (p.subprograms.take k).foldl (subprogram (outermost p).2) (outermost p).1

theorem analyze_eq_stage (p : Program) :
    analyze p = (stage p p.subprograms.length).report (Check.statements
      ⟨(stage p p.subprograms.length).table, 0, none⟩ p.body.statements).errors := by
  rw [stage, take_length]
  rfl

/-- The problems that the analysis of subprogram `k` adds. -/
def problemsOf (p : Program) (k : Nat) : List SemanticError :=
  (stage p (k + 1)).errors.drop (stage p k).errors.length

/-- The problems that the statements of the program itself add. -/
def ownProblems (p : Program) : List SemanticError :=
  (analyze p).errors.drop (stage p p.subprograms.length).errors.length

/-- The analysis of a program is made of independent analyses of its parts, where `root` is the
outermost block. -/
structure Modular (p : Program) (root : Block) : Prop where
  declarations : (outermost p).1.table.blocks = [root]
  errors : (analyze p).errors = (outermost p).1.errors ++
    (List.range p.subprograms.length).flatMap (problemsOf p) ++ ownProblems p
  blocks : (analyze p).table.blocks = root :: p.subprograms.map (ownBlock root)
  subprogram : ∀ k s, p.subprograms[k]? = some s → problemsOf p k = (alone root s).errors
  statements : ownProblems p =
    (Check.statements ⟨⟨[root], []⟩, 0, none⟩ p.body.statements).errors

theorem Modular.block (h : Modular p root) {k : Nat} {s : Subprogram}
    (hs : p.subprograms[k]? = some s) :
    (analyze p).table.blocks[k + 1]? = some (ownBlock root s) := by
  rw [h.blocks, getElem?_cons_succ, getElem?_map, hs]
  rfl

theorem Modular.around (h : Modular p root) (hroot : root.parent = none) {outer : Block}
    (hnamed : root.named = outer.named) : (analyze p).table.Around outer :=
  ⟨root, by rw [h.blocks]; rfl, hroot, hnamed⟩

section

variable {p : Program} (hroot : root.parent = none)
  (hdeclared : (outermost p).1.table.blocks = [root])
include hroot hdeclared

theorem around_outermost : (outermost p).1.table.Around root :=
  ⟨root, by rw [hdeclared]; rfl, hroot, rfl⟩

theorem stage_eq (k : Nat) : (stage p k).errors = (outermost p).1.errors ++
        (p.subprograms.take k).flatMap (fun s => (alone root s).errors) ∧
      (stage p k).table.blocks = root :: (p.subprograms.take k).map (ownBlock root) := by
  have h := foldl_subprogram hroot (around_outermost hroot hdeclared) (p.subprograms.take k)
  rwa [hdeclared] at h

theorem problemsOf_eq (k : Nat) :
    problemsOf p k = (p.subprograms[k]?).toList.flatMap fun s => (alone root s).errors := by
  rw [problemsOf, (stage_eq hroot hdeclared (k + 1)).1, (stage_eq hroot hdeclared k).1,
    take_add_one, flatMap_append, ← append_assoc, drop_left]

theorem stage_errors (k : Nat) :
    (stage p k).errors = (outermost p).1.errors ++ (List.range k).flatMap (problemsOf p) := by
  induction k with
  | zero => simp [stage]
  | succ k ih =>
    rw [range_succ, flatMap_append, ← append_assoc, ← ih, flatMap_singleton,
      problemsOf_eq hroot hdeclared, (stage_eq hroot hdeclared (k + 1)).1,
      (stage_eq hroot hdeclared k).1, take_add_one, flatMap_append, append_assoc]

theorem analyze_eq : (analyze p).errors = (outermost p).1.errors ++
        p.subprograms.flatMap (fun s => (alone root s).errors) ++
        (Check.statements ⟨⟨[root], []⟩, 0, none⟩ p.body.statements).errors ∧
      (analyze p).table.blocks = root :: p.subprograms.map (ownBlock root) := by
  obtain ⟨herrors, hblocks⟩ := stage_eq hroot hdeclared p.subprograms.length
  rw [take_length] at herrors hblocks
  have hstage : (stage p p.subprograms.length).table.Around root :=
    ⟨root, by rw [hblocks]; rfl, hroot, rfl⟩
  rw [analyze_eq_stage, Check.statements_congr (hstage.alike_first (around_lone hroot rfl)), report,
    herrors]
  exact ⟨rfl, hblocks⟩

theorem ownProblems_eq : ownProblems p =
    (Check.statements ⟨⟨[root], []⟩, 0, none⟩ p.body.statements).errors := by
  have hstage := (stage_eq hroot hdeclared p.subprograms.length).1
  rw [take_length] at hstage
  rw [ownProblems, (analyze_eq hroot hdeclared).1, hstage, drop_left]

theorem modular_of_declared : Modular p root where
  declarations := hdeclared
  errors := by
    have hstage := (stage_eq hroot hdeclared p.subprograms.length).1
    rw [take_length] at hstage
    rw [(analyze_eq hroot hdeclared).1, ← hstage, stage_errors hroot hdeclared,
      ownProblems_eq hroot hdeclared]
  blocks := (analyze_eq hroot hdeclared).2
  subprogram := by
    intro k s hs
    rw [problemsOf_eq hroot hdeclared, hs]
    simp
  statements := ownProblems_eq hroot hdeclared

end

theorem exists_modular (p : Program) : ∃ root, root.parent = none ∧ Modular p root := by
  obtain ⟨items, hsingle⟩ := outermost_single p
  exact ⟨_, rfl, modular_of_declared rfl hsingle⟩

end Analysis

open Analysis in
/-- Analysis is modular, and other bodies of other subprograms change neither the outermost block
nor the problems and the block of a subprogram, nor the problems of the statements of the
program. -/
theorem analysis_modular (p : Program) : ∃ root, Modular p root ∧
    ∀ ss : List Subprogram, ss.map Subprogram.heading = p.subprograms.map Subprogram.heading →
      let q := { p with subprograms := ss }
      Modular q root ∧ (outermost q).1.errors = (outermost p).1.errors ∧
        ownProblems q = ownProblems p ∧
        (analyze q).table.blocks[0]? = (analyze p).table.blocks[0]? ∧
        ∀ k, ss[k]? = p.subprograms[k]? → problemsOf q k = problemsOf p k ∧
          (analyze q).table.blocks[k + 1]? = (analyze p).table.blocks[k + 1]? := by
  obtain ⟨root, hroot, hp⟩ := exists_modular p
  refine ⟨root, hp, fun ss hheads => ?_⟩
  have houter := outermost_congr hheads
  have hq : Modular { p with subprograms := ss } root :=
    modular_of_declared hroot (houter ▸ hp.declarations)
  refine ⟨hq, by rw [houter], hq.statements.trans hp.statements.symm, ?_, fun k hk => ⟨?_, ?_⟩⟩
  · rw [hq.blocks, hp.blocks]
    rfl
  · rw [problemsOf_eq hroot hq.declarations, problemsOf_eq hroot hp.declarations, hk]
  · rw [hq.blocks, hp.blocks, List.getElem?_cons_succ, List.getElem?_cons_succ, List.getElem?_map,
      List.getElem?_map, hk]

/-- A procedure with the given body stands before a function that sets `y`, which the program does
not declare. -/
def framed (body : Body) : Program where
  name := "p"
  parameters := []
  position := ⟨1, 1⟩
  subprograms :=
    [⟨⟨"f", [], none, ⟨2, 1⟩⟩, body⟩,
     ⟨⟨"g", [], some .real, ⟨3, 1⟩⟩,
      ⟨[], [], [.assign ⟨3, 27⟩ "y" [] (.name ⟨3, 32⟩ "x")], ⟨3, 21⟩⟩⟩]
  body := ⟨[], [⟨["x"], .integer, [], ⟨1, 16⟩⟩], [.assign ⟨4, 7⟩ "x" [] (.bool ⟨4, 12⟩ true)],
    ⟨4, 1⟩⟩

def plainBody : Body := ⟨[], [], [], ⟨2, 14⟩⟩

/-- Declares `y`, hides `x` and sets it to something else. -/
def noisyBody : Body :=
  ⟨[⟨"y", .int ⟨2, 24⟩ 1, ⟨2, 20⟩⟩], [⟨["x", "x"], .char, [], ⟨2, 31⟩⟩],
    [.assign ⟨2, 52⟩ "x" [] (.name ⟨2, 57⟩ "y")], ⟨2, 46⟩⟩

open Analysis in
theorem framed_modular :
    (framed noisyBody).subprograms.map Subprogram.heading =
        (framed plainBody).subprograms.map Subprogram.heading ∧
      (problemsOf (framed noisyBody) 0).length = 2 ∧ problemsOf (framed plainBody) 0 = [] ∧
      problemsOf (framed noisyBody) 1 = problemsOf (framed plainBody) 1 ∧
      problemsOf (framed plainBody) 1 = [⟨.undeclared "y", ⟨3, 27⟩⟩] ∧
      ownProblems (framed noisyBody) = ownProblems (framed plainBody) := by
  obtain ⟨root, _, hreplaced⟩ := analysis_modular (framed plainBody)
  obtain ⟨_, _, hown, _, hothers⟩ := hreplaced (framed noisyBody).subprograms rfl
  exact ⟨rfl, by decide +kernel, by decide +kernel, (hothers 1 rfl).1, by decide +kernel, hown⟩

end MiniPascal
