import Mathlib.Data.List.Perm.Basic
import MiniPascal.Proofs.Modularity
import MiniPascal.Proofs.TableRuns

/-!
# The order of subprograms does not matter

The heads of all subprograms are declared before any body is looked at. If they have different
names, their order does not matter.
-/

namespace MiniPascal

open Scope Scope.Table List

namespace Scope

theorem Block.repeats_push {b : Block} {item other : Item} (h : other.name ≠ item.name) :
    (b.push item).repeats other = b.repeats other := by
  rw [repeats, repeats, named_push, if_neg h]

/-- Every expression has the same type in a block of one table as in a block of another, and every
name in it means the same. -/
structure Table.SameMeaning (t : Table) (block : Nat) (t' : Table) (block' : Nat) : Prop where
  types : ∀ e, Typing.typeOf t block e = Typing.typeOf t' block' e
  names : ∀ name, t.resolve block name = t'.resolve block' name
  places : ∀ name, t.findPlace? block name = t'.findPlace? block' name
  routines : ∀ name args, t.findRoutine block name args = t'.findRoutine block' name args
  builtins : ∀ name, Builtin.visible? t block name = Builtin.visible? t' block' name

theorem Table.Alike.sameMeaning {t t' : Table} {block block' : Nat} (h : Alike t block t' block') :
    SameMeaning t block t' block' where
  types := Typing.typeOf_congr h
  names := congrFun h.resolve
  places := congrFun h.findPlace?
  routines name := congrFun (congrFun h.findRoutine name)
  builtins := congrFun (Builtin.visible?_congr h)

end Scope

namespace Analysis

variable {a : Analysis} {b root root' : Block}

theorem declare_single (h : a.table.blocks = [b]) (item : Item) :
    (declare 0 a item).table.blocks = [if b.repeats item then b else b.push item] ∧
      (declare 0 a item).errors = a.errors ++
        if b.repeats item then [⟨.duplicate item.name, item.position⟩] else [] := by
  have hfirst : a.table.blocks[0]? = some b := by
    rw [h]
    rfl
  rw [declare_eq hfirst]
  by_cases hrepeats : b.repeats item = true
  · rw [if_pos hrepeats, if_pos hrepeats, if_pos hrepeats]
    exact ⟨h, rfl⟩
  · rw [if_neg hrepeats, if_neg hrepeats, if_neg hrepeats, append_nil]
    refine ⟨?_, rfl⟩
    dsimp only [extend]
    rw [h]
    rfl

theorem declareAll_of_nodup {items : List Item} (h : a.table.blocks = [b])
    (hnames : (items.map Item.name).Nodup) : (declareAll 0 items a).table.blocks =
        [{ b with items := b.items ++ items.filter fun i => !b.repeats i }] ∧
      (declareAll 0 items a).errors = a.errors ++
        (items.filter b.repeats).map fun i => ⟨.duplicate i.name, i.position⟩ := by
  unfold declareAll
  induction items generalizing a b with
  | nil => simpa using h
  | cons item items ih =>
    obtain ⟨hitem, hnames⟩ := nodup_cons.mp hnames
    obtain ⟨hblock, hreported⟩ := declare_single h item
    obtain ⟨hblocks, herrors⟩ := ih hblock hnames
    rw [foldl_cons, hblocks, herrors, hreported]
    by_cases hrepeats : b.repeats item = true
    · simp [hrepeats]
    · -- the item is declared, but the others cannot repeat it: they have other names
      have hothers : ∀ i ∈ items, (b.push item).repeats i = b.repeats i := fun i hi =>
        Block.repeats_push fun hname => hitem (hname ▸ mem_map_of_mem hi)
      rw [if_neg hrepeats, if_neg hrepeats, filter_congr hothers,
        filter_congr fun i hi => congrArg (!·) (hothers i hi)]
      simp [hrepeats, Block.push]

theorem filter_name_perm {items items' : List Item} (h : items'.Perm items)
    (hnames : (items.map Item.name).Nodup) (name : String) :
    (items'.filter fun i => i.name == name) = items.filter fun i => i.name == name := by
  have hperm := h.filter fun i => i.name == name
  have hsub : ((items.filter fun i => i.name == name).map Item.name).Nodup :=
    hnames.sublist (filter_sublist.map _)
  have hall : ∀ i ∈ items.filter fun i => i.name == name, i.name = name :=
    fun i hi => beq_iff_eq.mp (mem_filter.mp hi).2
  generalize items.filter (fun i => i.name == name) = named at hperm hsub hall ⊢
  -- at most one item has the name
  match named with
  | [] => exact perm_nil.mp hperm
  | [i] => exact perm_singleton.mp hperm
  | i :: j :: _ =>
    have hij := (hall i (by simp)).trans (hall j (by simp)).symm
    simp [hij] at hsub

/-- The declarations of the program itself, before any head. -/
def beforeHeads (p : Program) : Analysis :=
  { table := (createBlock {} p.name none p.position).1 }
    |> declareConsts 0 p.body.consts
    |> declareAll 0 (p.body.vars.flatMap varItems)

theorem outermost_eq_heads (p : Program) : (outermost p).1 =
    declareAll 0 (p.subprograms.map fun s => routineItem s.heading) (beforeHeads p) := rfl

section

variable {p : Program} {ss : List Subprogram}
  (hnames : (p.subprograms.map fun s => s.heading.name).Nodup) (hperm : ss.Perm p.subprograms)
include hnames hperm

/-- In another order the same heads are refused, and names mean the same in the outermost block. -/
theorem outermost_perm : ∃ root root' : Block, root.parent = none ∧ root'.parent = none ∧
      (outermost p).1.table.blocks = [root] ∧
      (outermost { p with subprograms := ss }).1.table.blocks = [root'] ∧
      root'.named = root.named ∧
      (outermost { p with subprograms := ss }).1.errors.Perm (outermost p).1.errors := by
  obtain ⟨items, hblocks⟩ : Single p.name (beforeHeads p).table :=
    Single.declareAll (Single.declareConsts ⟨[], rfl⟩ _) _
  have hheads : ((p.subprograms.map fun s => routineItem s.heading).map Item.name).Nodup := by
    rw [map_map]
    exact hnames
  have hheads' : ((ss.map fun s => routineItem s.heading).map Item.name).Nodup :=
    ((hperm.map _).map _).nodup_iff.mpr hheads
  obtain ⟨hroot, herrors⟩ := declareAll_of_nodup hblocks hheads
  obtain ⟨hroot', herrors'⟩ := declareAll_of_nodup hblocks hheads'
  refine ⟨_, _, rfl, rfl, hroot, hroot', ?_, ?_⟩
  · funext name
    have haccepted := (hperm.map fun s => routineItem s.heading).filter
      fun i => !(Block.mk p.name none items).repeats i
    have hsame := filter_name_perm haccepted (hheads.sublist (filter_sublist.map _)) name
    simp only [Block.named, filter_append, hsame]
  · rw [outermost_eq_heads, outermost_eq_heads, herrors]
    refine List.Perm.trans (.of_eq herrors') (List.Perm.append_left _ ?_)
    exact ((hperm.map _).filter _).map _

end

theorem alone_congr (hroot : root.parent = none) (hroot' : root'.parent = none)
    (hnamed : root'.named = root.named) (s : Subprogram) :
    (alone root' s).errors = (alone root s).errors ∧ ownBlock root' s = ownBlock root s := by
  obtain ⟨own, errors, _, h⟩ := subprogram_local hroot s
  rw [ownBlock, ownBlock, alone, alone, h _ (around_lone hroot' hnamed),
    h _ (around_lone hroot rfl)]
  exact ⟨rfl, rfl⟩

end Analysis

open Analysis in
/-- Subprograms of different names may stand in any order. -/
theorem subprogram_order_irrelevant {p : Program} {ss : List Subprogram}
    (hnames : (p.subprograms.map fun s => s.heading.name).Nodup) (hperm : ss.Perm p.subprograms) :
    let q := { p with subprograms := ss }
    (analyze q).errors.Perm (analyze p).errors ∧ (analyze q).isClean = (analyze p).isClean ∧
      ownProblems q = ownProblems p ∧ SameMeaning (analyze q).table 0 (analyze p).table 0 ∧
      ∀ k k' s, p.subprograms[k]? = some s → ss[k']? = some s →
        problemsOf q k' = problemsOf p k ∧
        (analyze q).table.blocks[k' + 1]? = (analyze p).table.blocks[k + 1]? ∧
        SameMeaning (analyze q).table (k' + 1) (analyze p).table (k + 1) := by
  intro q
  obtain ⟨root, root', hroot, hroot', hdeclared, hdeclared', hnamed, herrors⟩ :=
    outermost_perm hnames hperm
  have hp := modular_of_declared hroot hdeclared
  have hq := modular_of_declared (p := q) hroot' hdeclared'
  have halone := alone_congr hroot hroot' hnamed
  have haround := hp.around hroot rfl
  have haround' := hq.around hroot' hnamed
  have hstatements : (Check.statements ⟨⟨[root'], []⟩, 0, none⟩ p.body.statements).errors =
      (Check.statements ⟨⟨[root], []⟩, 0, none⟩ p.body.statements).errors :=
    congrArg Checked.errors (Check.statements_congr
      ((around_lone hroot' hnamed).alike_first (around_lone hroot rfl)) _)
  have hall : (analyze q).errors.Perm (analyze p).errors := by
    rw [(analyze_eq hroot hdeclared).1, (analyze_eq (p := q) hroot' hdeclared').1,
      funext fun s => (halone s).1, hstatements]
    exact (herrors.append (hperm.flatMap_right _)).append_right _
  refine ⟨hall, ?_, ?_, (haround'.alike_first haround).sameMeaning, ?_⟩
  · exact hall.isEmpty_eq
  · exact hq.statements.trans (hstatements.trans hp.statements.symm)
  · intro k k' s hs hs'
    have hblock := hp.block hs
    have hblock' := (halone s).2 ▸ hq.block hs'
    refine ⟨?_, hblock'.trans hblock.symm, ?_⟩
    · rw [hq.subprogram k' s hs', hp.subprogram k s hs, (halone s).1]
    · exact (haround'.alike_inside haround (Nat.succ_pos _) (Nat.succ_pos _) hblock' hblock
        (alone_blocks hroot s).2).sameMeaning

/-- The function calls `callee` and returns what it returns. -/
def relay (name callee : String) (line : Nat) : Subprogram :=
  ⟨⟨name, [], some .integer, ⟨line, 1⟩⟩,
    ⟨[], [], [.assign ⟨line, 9⟩ name [] (.call ⟨line, 14⟩ callee [])], ⟨line, 3⟩⟩⟩

/-- Two functions call each other, the second calls backward. A third has the name of a variable. -/
def entwined : Program where
  name := "p"
  parameters := []
  position := ⟨1, 1⟩
  subprograms := [relay "f" "g" 2, relay "g" "f" 3, relay "x" "h" 4]
  body := ⟨[], [⟨["x"], .integer, [], ⟨1, 16⟩⟩], [.assign ⟨5, 7⟩ "x" [] (.call ⟨5, 12⟩ "f" [])],
    ⟨5, 1⟩⟩

open Analysis in
theorem entwined_order_irrelevant :
    (entwined.subprograms.map fun s => s.heading.name).Nodup ∧
      entwined.subprograms.reverse.Perm entwined.subprograms ∧
      (analyze { entwined with subprograms := entwined.subprograms.reverse }).errors.Perm
        (analyze entwined).errors ∧
      (analyze entwined).errors = [⟨.duplicate "x", ⟨4, 1⟩⟩, ⟨.undeclared "h", ⟨4, 14⟩⟩] ∧
      SameMeaning (analyze { entwined with subprograms := entwined.subprograms.reverse }).table 3
        (analyze entwined).table 1 := by
  have hnames : (entwined.subprograms.map fun s => s.heading.name).Nodup := by decide
  have hperm := List.reverse_perm entwined.subprograms
  obtain ⟨herrors, _, _, _, hparts⟩ := subprogram_order_irrelevant hnames hperm
  exact ⟨hnames, hperm, herrors, by decide +kernel, (hparts 0 2 _ rfl rfl).2.2⟩

end MiniPascal
