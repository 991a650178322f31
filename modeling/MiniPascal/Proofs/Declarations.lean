import MiniPascal.Analysis
import MiniPascal.Proofs.Stability
import MiniPascal.Proofs.WellTyped

/-!
# Declarations without problems

As long as nothing is declared twice, declaring only adds. So the table of a program without
problems can be written down.
-/

namespace MiniPascal

open List

namespace Scope.Table

variable {t t' : Table} {block : Nat}

/-- A table with further items in a block. -/
def extend (t : Table) (block : Nat) (items : List Item) : Table :=
  { t with blocks := t.blocks.modify block fun b => { b with items := b.items ++ items } }

@[simp] theorem extend_nil : t.extend block [] = t := by
  have hid : (fun b : Block => { b with items := b.items ++ [] }) = id := by
    funext b
    simp
  rw [extend, hid, modify_id]

theorem extend_extend (xs ys : List Item) :
    (t.extend block xs).extend block ys = t.extend block (xs ++ ys) := by
  simp only [extend, modify_modify_eq]
  congr 2
  funext b
  simp

theorem getElem?_extend (items : List Item) (id : Nat) : (t.extend block items).blocks[id]? =
      (t.blocks[id]?).map fun b => if block = id then { b with items := b.items ++ items } else b :=
  getElem?_modify _ _ _ _

theorem ancestors_extend (items : List Item) (id : Nat) :
    (t.extend block items).ancestors id = t.ancestors id := by
  have hparent : ∀ id : Nat, ((t.extend block items).blocks[id]?).bind Block.parent =
      (t.blocks[id]?).bind Block.parent := by
    intro id
    rw [getElem?_extend]
    cases t.blocks[id]? with
    | none => rfl
    | some b =>
      split <;> rfl
  fun_induction ancestors t id with
  | case1 id parent hp hlt ih =>
    rw [ancestors, hparent, hp]
    simp only [hlt, dite_true, ih]
  | case2 id parent hp hlt =>
    rw [ancestors, hparent, hp]
    simp only [hlt, dite_false]
  | case3 id hp => rw [ancestors, hparent, hp]

variable {items : List Item}

theorem visible_extend {id : Nat} {i : Item} (h : (t.extend block items).Visible id i) :
    t.Visible id i ∨ i ∈ items := by
  obtain ⟨k, hk, b, hb, hi⟩ := h
  rw [ancestors_extend] at hk
  rw [getElem?_extend] at hb
  obtain ⟨b, hown, rfl⟩ := Option.map_eq_some_iff.mp hb
  split at hi
  · rcases mem_append.mp hi with hi | hi
    · exact .inl ⟨k, hk, b, hown, hi⟩
    · exact .inr hi
  · exact .inl ⟨k, hk, b, hown, hi⟩

@[simp] theorem length_extend (items : List Item) :
    (t.extend block items).blocks.length = t.blocks.length :=
  length_modify _ _ _

theorem named_extend_of_ne {id : Nat} (h : id ≠ block) (items : List Item) (name : String) :
    (t.extend block items).named id name = t.named id name := by
  simp [named, getElem?_extend, h.symm]

/-- What a search finds around a block. -/
def findAround? (t : Table) (block : Nat) (name : String) (fits : Item → Bool) : Option Item :=
  (t.ancestors block).tail.findSome? fun b => (t.named b name).find? fits

theorem ancestors_eq_cons (t : Table) (block : Nat) :
    t.ancestors block = block :: (t.ancestors block).tail := by
  rw [ancestors]
  split
  · split <;> rfl
  · rfl

theorem mem_ancestors_self (t : Table) (block : Nat) : block ∈ t.ancestors block := by
  rw [ancestors_eq_cons]
  exact mem_cons_self

theorem find?_eq (t : Table) (block : Nat) (name : String) (fits : Item → Bool) :
    t.find? block name fits =
      ((t.named block name).find? fits).or (t.findAround? block name fits) := by
  rw [find?, ancestors_eq_cons, findSome?_cons, findAround?]
  cases (t.named block name).find? fits <;> rfl

theorem findAround?_extend (items : List Item) (name : String) (fits : Item → Bool) :
    (t.extend block items).findAround? block name fits = t.findAround? block name fits := by
  unfold findAround?
  rw [ancestors_extend]
  refine findSome?_congr fun b hb => ?_
  rw [named_extend_of_ne (Nat.ne_of_lt (mem_tail_ancestors_lt hb))]

variable {name : String} {item : Item}

section

variable (hblock : block < t.blocks.length)

include hblock

theorem named_extend (items : List Item) (name : String) :
    (t.extend block items).named block name =
      t.named block name ++ items.filter fun i => i.name == name := by
  simp [named, getElem?_extend, getElem?_eq_getElem hblock, Block.named]

theorem find?_extend (items : List Item) (name : String) (fits : Item → Bool) :
    (t.extend block items).find? block name fits =
      ((t.named block name).find? fits).or (((items.filter fun i => i.name == name).find? fits).or
          (t.findAround? block name fits)) := by
  rw [find?_eq, named_extend hblock, find?_append, findAround?_extend, Option.or_assoc]

theorem findData?_extend_isSome (items : List Item) (h : (t.findData? block name).isSome = true) :
    ((t.extend block items).findData? block name).isSome = true := by
  rw [findData?, find?_eq] at h
  rw [findData?, find?_extend hblock]
  simp only [Option.isSome_or, Bool.or_eq_true] at h ⊢
  rcases h with h | h
  · exact .inl h
  · exact .inr (.inr h)

theorem findData?_extend_of_fresh (h : ∀ i ∈ items, i.name ≠ name) :
    (t.extend block items).findData? block name = t.findData? block name := by
  have hnone : (items.filter fun i => i.name == name) = [] :=
    filter_eq_nil_iff.mpr fun i hi => by simpa using h i hi
  rw [findData?, findData?, find?_extend hblock, hnone, find?_eq t]
  rfl

theorem findData?_extend_of_outermost (houter : t.ancestors block = [block])
    (h : t.findData? block name = some item) :
    (t.extend block items).findData? block name = some item := by
  have hnone : t.findAround? block name Item.isData = none := by
    rw [findAround?, houter]
    rfl
  rw [findData?, find?_eq, hnone, Option.or_none] at h
  rw [findData?, find?_extend hblock, h]
  rfl

theorem findData?_extend_of_hidden (hown : ∀ i ∈ t.named block name, i.isData = false)
    (h : ∃ i ∈ items, i.name = name ∧ i.isData = true) :
    ∃ j ∈ items, (t.extend block items).findData? block name = some j := by
  obtain ⟨i, hi, hname, hdata⟩ := h
  have hnone : (t.named block name).find? Item.isData = none :=
    find?_eq_none.mpr fun j hj => by simp [hown j hj]
  have hsome : ((items.filter fun i => i.name == name).find? Item.isData).isSome :=
    find?_isSome.mpr ⟨i, mem_filter.mpr ⟨hi, beq_iff_eq.mpr hname⟩, hdata⟩
  obtain ⟨j, hj⟩ := Option.isSome_iff_exists.mp hsome
  refine ⟨j, (mem_filter.mp (mem_of_find?_eq_some hj)).1, ?_⟩
  rw [findData?, find?_extend hblock, hnone, hj]
  rfl

end

theorem insert?_eq_some (h : t.insert? block item = some t') :
    (∀ i ∈ t.named block item.name, i.params ≠ item.params) ∧ t' = t.extend block [item] := by
  unfold insert? at h
  split at h
  · cases h
  · next hany =>
    cases h
    exact ⟨by simpa using hany, rfl⟩

/-- No two items of a block have the same name and parameters. -/
def Distinct (t : Table) (block : Nat) : Prop :=
  ∀ b, t.blocks[block]? = some b → b.items.Pairwise fun i j => i.name = j.name → i.params ≠ j.params

theorem Distinct.insert? (hd : t.Distinct block) (h : t.insert? block item = some t') :
    t'.Distinct block := by
  obtain ⟨hfresh, rfl⟩ := insert?_eq_some h
  intro b hb
  rw [getElem?_extend] at hb
  obtain ⟨b, hown, rfl⟩ := Option.map_eq_some_iff.mp hb
  rw [if_pos rfl]
  refine pairwise_append.mpr ⟨hd b hown, pairwise_singleton _ _, fun i hi j hj hname => ?_⟩
  obtain rfl := mem_singleton.mp hj
  refine hfresh i ?_
  rw [named, hown]
  exact mem_filter.mpr ⟨hi, beq_iff_eq.mpr hname⟩

def Typed (t : Table) : Prop := ∀ b ∈ t.blocks, ∀ i ∈ b.items, i.type.isError = false

theorem Typed.declared (h : t.Typed) (block : Nat) : Typing.Declared t block := by
  rintro item ⟨_, _, b, hb, hi⟩
  exact h b (mem_of_getElem? hb) item hi

theorem Typed.extend (h : t.Typed) {items : List Item}
    (hi : ∀ i ∈ items, i.type.isError = false) : (t.extend block items).Typed := by
  intro b hb i hib
  obtain ⟨k, hk, rfl⟩ := mem_iff_getElem.mp hb
  simp only [Table.extend, length_modify] at hk
  simp only [Table.extend, getElem_modify] at hib
  split at hib
  · rcases mem_append.mp hib with hib | hib
    · exact h _ (getElem_mem hk) i hib
    · exact hi i hib
  · exact h _ (getElem_mem hk) i hib

end Scope.Table

namespace Analysis

open Scope

variable {a : Analysis} {block root : Nat} {t : Table}

theorem declare_clean {item : Item} (h : (declare block a item).errors = []) :
    a.errors = [] ∧ (declare block a item).table = a.table.extend block [item] := by
  unfold declare at h ⊢
  split at h
  · next table ht =>
    obtain ⟨_, rfl⟩ := Table.insert?_eq_some ht
    exact ⟨h, rfl⟩
  · simp [report] at h

theorem declare_distinct {item : Item} (hd : a.table.Distinct block) :
    (declare block a item).table.Distinct block := by
  unfold declare
  split
  · next table ht => exact hd.insert? ht
  · exact hd

theorem declareAll_distinct (items : List Item) (hd : a.table.Distinct block) :
    (declareAll block items a).table.Distinct block := by
  induction items generalizing a with
  | nil => exact hd
  | cons item items ih => exact ih (declare_distinct hd)

theorem declareConsts_distinct (ds : List ConstDecl) (hd : a.table.Distinct block) :
    (declareConsts block ds a).table.Distinct block := by
  induction ds generalizing a with
  | nil => exact hd
  | cons d ds ih => exact ih (declare_distinct hd)

theorem declareAll_clean {items : List Item} (h : (declareAll block items a).errors = []) :
    a.errors = [] ∧ (declareAll block items a).table = a.table.extend block items := by
  unfold declareAll at h ⊢
  induction items generalizing a with
  | nil => exact ⟨h, Table.extend_nil.symm⟩
  | cons item items ih =>
    obtain ⟨herr, htable⟩ := ih h
    obtain ⟨herr, hone⟩ := declare_clean herr
    refine ⟨herr, ?_⟩
    rw [foldl_cons, htable, hone, Table.extend_extend]
    rfl

def constItem (t : Table) (block : Nat) (d : ConstDecl) : Item :=
  { name := d.name, type := (constType t block d).value, kind := .const, position := d.position }

/-- The items of constants, each declared after those before it. -/
def constItems (t : Table) (block : Nat) : List ConstDecl → List Item
  | [] => []
  | d :: ds => constItem t block d :: constItems (t.extend block [constItem t block d]) block ds

/-- The values of all constants have types, each where it stands. -/
def ConstsTyped (t : Table) (block : Nat) : List ConstDecl → Prop
  | [] => True
  | d :: ds => constType t block d = pure (constItem t block d).type ∧
      ConstsTyped (t.extend block [constItem t block d]) block ds

variable {ds : List ConstDecl} {i : Item} {s : Subprogram} {p : Program} {d : ConstDecl}

theorem declareConst_clean (h : (declareConst block a d).errors = []) :
    a.errors = [] ∧ constType a.table block d = pure (constItem a.table block d).type ∧
      (declareConst block a d).table = a.table.extend block [constItem a.table block d] := by
  obtain ⟨herr, htable⟩ := declare_clean h
  obtain ⟨herr, htype⟩ := append_eq_nil_iff.mp herr
  exact ⟨herr, Checked.eq_pure_of_errors htype, htable⟩

theorem declareConsts_clean (h : (declareConsts block ds a).errors = []) :
    a.errors = [] ∧ ConstsTyped a.table block ds ∧
      (declareConsts block ds a).table = a.table.extend block (constItems a.table block ds) := by
  unfold declareConsts at h ⊢
  induction ds generalizing a with
  | nil => exact ⟨h, trivial, Table.extend_nil.symm⟩
  | cons d ds ih =>
    obtain ⟨herr, htyped, htable⟩ := ih h
    obtain ⟨herr, htype, hone⟩ := declareConst_clean herr
    rw [hone] at htyped htable
    refine ⟨herr, ⟨htype, htyped⟩, ?_⟩
    rw [foldl_cons, htable, Table.extend_extend]
    rfl

theorem kind_of_mem_constItems (h : i ∈ constItems t block ds) : i.kind = .const := by
  induction ds generalizing t with
  | nil => cases h
  | cons d ds ih =>
    rcases mem_cons.mp h with rfl | h
    · rfl
    · exact ih h

theorem params_of_mem_constItems (h : i ∈ constItems t block ds) : i.params = [] := by
  induction ds generalizing t with
  | nil => cases h
  | cons d ds ih =>
    rcases mem_cons.mp h with rfl | h
    · rfl
    · exact ih h

@[simp] theorem map_name_constItems (t : Table) (block : Nat) (ds : List ConstDecl) :
    (constItems t block ds).map Item.name = ds.map ConstDecl.name := by
  induction ds generalizing t with
  | nil => rfl
  | cons d ds ih => exact congrArg (d.name :: ·) (ih _)

@[simp] theorem map_position_constItems (t : Table) (block : Nat) (ds : List ConstDecl) :
    (constItems t block ds).map Item.position = ds.map ConstDecl.position := by
  induction ds generalizing t with
  | nil => rfl
  | cons d ds ih => exact congrArg (d.position :: ·) (ih _)

theorem constType_eq_pure {type : Ty} (h : constType t block d = pure type) :
    Typing.isConstant t block d.value = true ∧ Typing.typeOf t block d.value = pure type := by
  unfold constType at h
  split at h
  · next hconst => exact ⟨hconst, h⟩
  · cases h

theorem type_of_mem_constItems (ht : t.Typed) (h : ConstsTyped t block ds)
    (hi : i ∈ constItems t block ds) : i.type.isError = false := by
  induction ds generalizing t with
  | nil => cases hi
  | cons d ds ih =>
    obtain ⟨hd, hds⟩ := h
    have htype : (constItem t block d).type.isError = false :=
      Typing.typeOf_not_error (ht.declared block) _ (constType_eq_pure hd).2
    rcases mem_cons.mp hi with rfl | hi
    · exact htype
    · exact ih (ht.extend (forall_mem_singleton.mpr htype)) hds hi

def headItems (h : Heading) : List Item := h.groups.flatMap paramItems ++ resultItems h

/-- A table with a new block for a subprogram, which holds what its head declares. -/
def opened (root : Nat) (t : Table) (h : Heading) : Table :=
  ⟨t.blocks ++ [⟨h.name, some root, headItems h⟩], (h.position, t.blocks.length) :: t.keys⟩

def subprogramItems (root : Nat) (t : Table) (s : Subprogram) : List Item :=
  headItems s.heading ++ constItems (opened root t s.heading) t.blocks.length s.body.consts ++
    s.body.vars.flatMap varItems

theorem mem_subprogramItems : i ∈ subprogramItems root t s ↔
      i ∈ s.heading.groups.flatMap paramItems ∨ i ∈ resultItems s.heading ∨
        i ∈ constItems (opened root t s.heading) t.blocks.length s.body.consts ∨
        i ∈ s.body.vars.flatMap varItems := by
  simp only [subprogramItems, headItems, mem_append, or_assoc]

/-- A table with the block of a subprogram and all that it declares. -/
def withSubprogram (root : Nat) (t : Table) (s : Subprogram) : Table :=
  ⟨t.blocks ++ [⟨s.heading.name, some root, subprogramItems root t s⟩],
    (s.heading.position, t.blocks.length) :: t.keys⟩

/-- A subprogram without problems, after those that the table knows. -/
structure SubprogramChecked (root : Nat) (t : Table) (s : Subprogram) : Prop where
  names : ((subprogramItems root t s).map Item.name).Nodup
  consts : ConstsTyped (opened root t s.heading) t.blocks.length s.body.consts
  statements : Check.statements ⟨withSubprogram root t s, t.blocks.length, functionOf s.heading⟩
    s.body.statements = pure ()

theorem extend_last (blocks : List Block) (b : Block) (keys : List (Position × Nat))
    (items : List Item) : Table.extend ⟨blocks ++ [b], keys⟩ blocks.length items =
      ⟨blocks ++ [{ b with items := b.items ++ items }], keys⟩ := by
  rw [Table.extend, modify_eq_take_drop]
  simp

theorem params_of_mem_subprogramItems (hi : i ∈ subprogramItems root t s) : i.params = [] := by
  rcases mem_subprogramItems.mp hi with hi | hi | hi | hi
  · obtain ⟨g, _, hi⟩ := mem_flatMap.mp hi
    obtain ⟨_, _, rfl⟩ := mem_map.mp hi
    rfl
  · obtain ⟨type, _, rfl⟩ := mem_map.mp hi
    rfl
  · exact params_of_mem_constItems hi
  · obtain ⟨d, _, hi⟩ := mem_flatMap.mp hi
    obtain ⟨_, _, rfl⟩ := mem_map.mp hi
    rfl

theorem subprogram_distinct (root : Nat) (a : Analysis) (s : Subprogram) :
    (subprogram root a s).table.Distinct a.table.blocks.length := by
  have hempty : (a.table.createBlock s.heading.name (some root) s.heading.position).1.Distinct
      a.table.blocks.length := by
    intro b hb
    rw [Table.createBlock, getElem?_concat_length] at hb
    cases hb
    exact .nil
  exact declareAll_distinct _ (declareConsts_distinct _ (declareAll_distinct _
    (declareAll_distinct (a := { a with table := _ }) _ hempty)))

theorem names_withSubprogram (h : (withSubprogram root t s).Distinct t.blocks.length) :
    ((subprogramItems root t s).map Item.name).Nodup := by
  have hitems := h _ getElem?_concat_length
  refine pairwise_map.mpr (hitems.imp_of_mem fun hi hj hij hname => ?_)
  exact hij hname ((params_of_mem_subprogramItems hi).trans (params_of_mem_subprogramItems hj).symm)

theorem subprogram_clean (h : (subprogram root a s).errors = []) :
    a.errors = [] ∧ SubprogramChecked root a.table s ∧
      (subprogram root a s).table = withSubprogram root a.table s := by
  have hdistinct := subprogram_distinct root a s
  unfold subprogram at h hdistinct ⊢
  dsimp only [Table.createBlock, report] at h hdistinct ⊢
  obtain ⟨herr, hstatements⟩ := append_eq_nil_iff.mp h
  obtain ⟨herr, hvars⟩ := declareAll_clean herr
  obtain ⟨herr, htyped, hconsts⟩ := declareConsts_clean herr
  obtain ⟨herr, hresult⟩ := declareAll_clean herr
  obtain ⟨herr, hparams⟩ := declareAll_clean herr
  -- The steps fill the new block from left to right.
  rw [hparams, Table.extend_extend, extend_last, nil_append] at hresult
  rw [hresult] at hconsts htyped
  rw [hconsts, Table.extend_extend, extend_last, ← append_assoc] at hvars
  rw [hvars] at hstatements hdistinct ⊢
  exact ⟨herr, ⟨names_withSubprogram hdistinct, htyped, Checked.eq_pure_of_errors hstatements⟩, rfl⟩

def SubprogramsChecked (root : Nat) (t : Table) : List Subprogram → Prop
  | [] => True
  | s :: ss => SubprogramChecked root t s ∧ SubprogramsChecked root (withSubprogram root t s) ss

theorem subprograms_clean {ss : List Subprogram} (h : (ss.foldl (subprogram root) a).errors = []) :
    a.errors = [] ∧ SubprogramsChecked root a.table ss ∧
      (ss.foldl (subprogram root) a).table = ss.foldl (withSubprogram root) a.table := by
  induction ss generalizing a with
  | nil => exact ⟨h, trivial, rfl⟩
  | cons s ss ih =>
    obtain ⟨herr, hchecked, htable⟩ := ih h
    obtain ⟨herr, hone, htable'⟩ := subprogram_clean herr
    rw [htable'] at hchecked htable
    exact ⟨herr, ⟨hone, hchecked⟩, htable⟩

def started (p : Program) : Table := ⟨[⟨p.name, none, []⟩], [(p.position, 0)]⟩

def rootItems (p : Program) : List Item :=
  constItems (started p) 0 p.body.consts ++ p.body.vars.flatMap varItems ++
    p.subprograms.map fun s => routineItem s.heading

theorem mem_rootItems : i ∈ rootItems p ↔ i ∈ constItems (started p) 0 p.body.consts ∨
      i ∈ p.body.vars.flatMap varItems ∨ ∃ s ∈ p.subprograms, routineItem s.heading = i := by
  simp only [rootItems, mem_append, mem_map, or_assoc]

def rootTable (p : Program) : Table := ⟨[⟨p.name, none, rootItems p⟩], [(p.position, 0)]⟩

def finished (p : Program) : Table := p.subprograms.foldl (withSubprogram 0) (rootTable p)

structure ProgramChecked (p : Program) : Prop where
  consts : ConstsTyped (started p) 0 p.body.consts
  subprograms : SubprogramsChecked 0 (rootTable p) p.subprograms
  statements : Check.statements ⟨finished p, 0, none⟩ p.body.statements = pure ()

theorem outermost_clean (h : (outermost p).1.errors = []) :
    ConstsTyped (started p) 0 p.body.consts ∧ (outermost p).1.table = rootTable p := by
  unfold outermost at h ⊢
  dsimp only [Table.createBlock] at h ⊢
  obtain ⟨herr, hroutines⟩ := declareAll_clean h
  obtain ⟨herr, hvars⟩ := declareAll_clean herr
  obtain ⟨_, htyped, hconsts⟩ := declareConsts_clean herr
  refine ⟨htyped, ?_⟩
  rw [hconsts] at hvars
  rw [hroutines, hvars, Table.extend_extend, Table.extend_extend, ← append_assoc]
  rfl

theorem analyze_clean (h : (analyze p).errors = []) :
    ProgramChecked p ∧ (analyze p).table = finished p := by
  unfold analyze at h ⊢
  dsimp only [report] at h ⊢
  obtain ⟨herr, hstatements⟩ := append_eq_nil_iff.mp h
  obtain ⟨herr, hsubs, htable⟩ := subprograms_clean herr
  obtain ⟨hconsts, hroot⟩ := outermost_clean herr
  rw [hroot] at hsubs htable
  rw [htable] at hstatements ⊢
  exact ⟨⟨hconsts, hsubs, Checked.eq_pure_of_errors hstatements⟩, rfl⟩

end Analysis

end MiniPascal
