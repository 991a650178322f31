import Mathlib.Algebra.BigOperators.Group.List.Lemmas
import Mathlib.Data.Nat.Find
import MiniPascal.Proofs.Declarations

/-!
# Runs of a table

A table is built by creating blocks and inserting items, in any order. The items of a block can be
kept in slots, a list for each name. A slot is opened before it is searched for an equal
declaration, and still no slot is ever empty.
-/

namespace MiniPascal.Scope

open List

inductive Op where
  | create (name : String) (parent : Option Nat) (key : Position)
  | insert (block : Nat) (item : Item)

def Op.key? : Op → Option Position
  | create _ _ key => some key
  | insert .. => none

/-- The operations name only blocks that were created before, when there are `n` at first. -/
def Legal : Nat → List Op → Prop
  | _, [] => True
  | n, .create _ parent _ :: ops => (∀ outer ∈ parent, outer < n) ∧ Legal (n + 1) ops
  | n, .insert block _ :: ops => block < n ∧ Legal n ops

/-- The places under which blocks were created, in the order of the blocks. -/
def created (ops : List Op) : List Position := ops.filterMap Op.key?

/-- The block is the last one that was created under the place. -/
def LastUnder (ops : List Op) (key : Position) (id : Nat) : Prop :=
  (created ops)[id]? = some key ∧ ∀ later, (created ops)[later]? = some key → later ≤ id

/-! ## Slots -/

abbrev Slots := List (String × List Item)

namespace Slots

def named (s : Slots) (name : String) : List Item := (s.lookup name).getD []

def opened (s : Slots) (name : String) : Slots :=
  if (s.lookup name).isSome then s else s ++ [(name, [])]

def push (s : Slots) (item : Item) : Slots :=
  s.map fun (name, items) => (name, if name = item.name then items ++ [item] else items)

/-- Puts an item into the slot of its name and answers whether it did. An item that is refused
leaves the slot behind that was opened for it. -/
def put (s : Slots) (item : Item) : Slots × Bool :=
  let s := s.opened item.name
  if (s.named item.name).any fun i => i.params == item.params then (s, false)
  else (s.push item, true)

def size (s : Slots) : Nat := (s.flatMap Prod.snd).length

/-- The slots of each block after an operation, and whether it was done. -/
def perform (ss : List Slots) : Op → List Slots × Bool
  | .create .. => (ss ++ [[]], true)
  | .insert block item =>
    match ss[block]? with
    | some s => (ss.set block (s.put item).1, (s.put item).2)
    | none => (ss, true)

def run (ss : List Slots) (ops : List Op) : List Slots :=
  ops.foldl (fun ss op => (perform ss op).1) ss

theorem lookup_map_mk {names : List String} {items : String → List Item} (name : String) :
    (names.map fun n => (n, items n)).lookup name =
      if name ∈ names then some (items name) else none := by
  induction names with
  | nil => rfl
  | cons n names ih =>
    rw [map_cons, lookup_cons, ih]
    by_cases h : name = n
    · simp [h]
    · simp [h, beq_eq_false_iff_ne.mpr h]

end Slots

namespace Block

variable {b : Block} {name : String} {item : Item}

/-- The names of a block, in the order of their first declarations. -/
def names (b : Block) : List String := (b.items.map Item.name).eraseDups

def slots (b : Block) : Slots := b.names.map fun name => (name, b.named name)

def push (b : Block) (item : Item) : Block := { b with items := b.items ++ [item] }

theorem mem_names : name ∈ b.names ↔ b.named name ≠ [] := by
  simp [names, named, filter_eq_nil_iff]

variable (b)

theorem names_push (item : Item) :
    (b.push item).names = if item.name ∈ b.names then b.names else b.names ++ [item.name] := by
  have hlast : [item.name].removeAll (b.items.map Item.name) =
      if item.name ∈ b.names then [] else [item.name] := by
    by_cases h : item.name ∈ b.names <;> simp_all [names, List.removeAll]
  rw [names, push, map_append, map_singleton, eraseDups_append, hlast, ← names]
  split <;> simp [eraseDups_cons]

theorem named_push (item : Item) (name : String) : (b.push item).named name =
      if name = item.name then b.named name ++ [item] else b.named name := by
  by_cases h : name = item.name
  · simp [named, push, h]
  · simp [named, push, h, Ne.symm h]

theorem named_slots (name : String) : b.slots.named name = b.named name := by
  rw [Slots.named, slots, Slots.lookup_map_mk]
  split
  · rfl
  · next h => exact (not_not.mp (mt mem_names.mpr h)).symm

theorem opened_slots (item : Item) :
    b.slots.opened item.name = (b.push item).names.map fun name => (name, b.named name) := by
  rw [Slots.opened, slots, Slots.lookup_map_mk, names_push]
  split
  · next h => simp_all
  · next h =>
    have hnone : item.name ∉ b.names := by simpa using h
    simp [not_not.mp (mt mem_names.mpr hnone)]

theorem push_opened_slots (item : Item) :
    (b.slots.opened item.name).push item = (b.push item).slots := by
  rw [opened_slots, Slots.push, slots, map_map]
  exact map_congr_left fun name _ => by simp [named_push]

theorem put_slots (item : Item) : b.slots.put item =
      if (b.named item.name).any fun i => i.params == item.params then (b.slots, false)
      else ((b.push item).slots, true) := by
  have hmem : item.name ∈ (b.push item).names := by
    rw [names_push]
    split
    · assumption
    · simp
  have hnamed : (b.slots.opened item.name).named item.name = b.named item.name := by
    rw [opened_slots, Slots.named, Slots.lookup_map_mk, if_pos hmem]
    rfl
  rw [Slots.put, hnamed, push_opened_slots]
  split
  · next hany =>
    have hold : item.name ∈ b.names := by
      rw [mem_names]
      intro hnil
      simp [hnil] at hany
    rw [opened_slots, names_push, if_pos hold, slots]
  · rfl

theorem names_nodup : b.names.Nodup := by
  unfold names
  induction b.items.map Item.name using List.reverseRecOn with
  | nil => exact .nil
  | append_singleton names name ih =>
    rw [eraseDups_append]
    by_cases h : name ∈ names
    · simpa [List.removeAll, h] using ih
    · simp [List.removeAll, h, nodup_append, ih]
      grind

theorem size_slots : b.slots.size = b.items.length := by
  have hperm : b.names.Perm (b.items.map Item.name).dedup := by
    refine (perm_ext_iff_of_nodup b.names_nodup (nodup_dedup _)).mpr fun name => ?_
    rw [names, mem_eraseDups, mem_dedup]
  have hcount : ∀ name, (b.named name).length = (b.items.map Item.name).count name := by
    intro name
    rw [named, ← countP_eq_length_filter, List.count, countP_map]
    rfl
  rw [Slots.size, slots, length_flatMap, map_map, (hperm.map _).sum_eq]
  simp only [Function.comp_def, hcount]
  rw [sum_map_count_dedup_eq_length, length_map]

theorem isEmpty_slots : b.slots.isEmpty = true ↔ b.slots.size = 0 := by
  have hnames : b.names = [] ↔ b.items = [] := by
    simp only [eq_nil_iff_forall_not_mem, names, mem_eraseDups, mem_map]
    grind
  rw [size_slots, length_eq_zero_iff, List.isEmpty_iff, slots, map_eq_nil_iff, hnames]

theorem slots_ne_nil : ∀ slot ∈ b.slots, slot.2 ≠ [] := by
  intro slot hslot
  obtain ⟨name, hname, rfl⟩ := mem_map.mp hslot
  exact mem_names.mp hname

end Block

/-! ## Operations on a table -/

namespace Table

variable {t : Table} {ops : List Op} {op : Op}

/-- The table after an operation, and whether it was done: a duplicate is refused. -/
def perform (t : Table) : Op → Table × Bool
  | .create name parent key => ((t.createBlock name parent key).1, true)
  | .insert block item =>
    match t.insert? block item with
    | some t' => (t', true)
    | none => (t, false)

def run (t : Table) (ops : List Op) : Table := ops.foldl (fun t op => (t.perform op).1) t

def slots (t : Table) : List Slots := t.blocks.map Block.slots

theorem perform_insert (t : Table) (block : Nat) (item : Item) : t.perform (.insert block item) =
      if (t.named block item.name).any fun i => i.params == item.params then (t, false)
      else (t.extend block [item], true) := by
  unfold perform insert?
  by_cases hany : ((t.named block item.name).any fun i => i.params == item.params) = true
  · simp only [hany, if_true]
  · simp only [hany]
    rfl

variable {key : Position} {b : Block}

theorem slots_extend {block : Nat} (hb : t.blocks[block]? = some b) (item : Item) :
    (t.extend block [item]).slots = t.slots.set block (b.push item).slots := by
  rw [slots, extend, modify_eq_set_getElem?, hb, slots, ← map_set]
  rfl

theorem perform_slots (t : Table) (op : Op) :
    Slots.perform t.slots op = ((t.perform op).1.slots, (t.perform op).2) := by
  cases op with
  | create name parent key =>
    simp [Slots.perform, perform, createBlock, slots, Block.slots, Block.names]
  | insert block item =>
    rw [perform_insert, Slots.perform, named, slots, getElem?_map]
    cases hb : t.blocks[block]? with
    | none =>
      have hout : t.extend block [item] = t := by
        rw [extend, modify_eq_set_getElem?, hb]
        rfl
      simp [hout, slots]
    | some b =>
      dsimp only [Option.map_some]
      rw [Block.put_slots]
      split
      · have hsame : (t.blocks.map Block.slots).set block b.slots = t.blocks.map Block.slots := by
          obtain ⟨_, rfl⟩ := List.getElem?_eq_some_iff.mp hb
          rw [← map_set, set_getElem_self]
        rw [hsame]
        rfl
      · exact congrArg (·, true) (slots_extend hb item).symm

theorem run_slots (t : Table) (ops : List Op) : Slots.run t.slots ops = (t.run ops).slots := by
  induction ops generalizing t with
  | nil => rfl
  | cons op ops ih =>
    rw [Slots.run, foldl_cons, perform_slots]
    exact ih (t.perform op).1

/-! ## What every run keeps -/

/-- The blocks from one outward: each lies in the next, and the last in none. -/
inductive Outward (t : Table) : Nat → List Nat → Prop
  | root {id : Nat} {b : Block} : t.blocks[id]? = some b → b.parent = none → Outward t id [id]
  | inside {id parent : Nat} {b : Block} {chain : List Nat} : t.blocks[id]? = some b →
      b.parent = some parent → Outward t parent chain → Outward t id (id :: chain)

structure Kept (t : Table) (ops : List Op) : Prop where
  count : t.blocks.length = (created ops).length
  parents : ∀ (id : Nat) (b : Block), t.blocks[id]? = some b → ∀ parent ∈ b.parent, parent < id
  distinct : ∀ block, t.Distinct block
  keys : ∀ key id, t.blockAt? key = some id ↔ LastUnder ops key id

theorem kept_empty : Kept {} [] where
  count := rfl
  parents := nofun
  distinct := nofun
  keys key id := by simp [blockAt?, LastUnder, created]

theorem getElem?_createBlock {name : String} {parent : Option Nat} {id : Nat}
    (h : (t.createBlock name parent key).1.blocks[id]? = some b) :
    t.blocks[id]? = some b ∨ id = t.blocks.length ∧ b = ⟨name, parent, []⟩ := by
  rw [createBlock, getElem?_append] at h
  split at h
  · exact .inl h
  · rw [getElem?_singleton] at h
    split at h
    · cases h
      exact .inr ⟨by omega, rfl⟩
    · cases h

theorem exists_lastUnder (h : key ∈ created ops) : ∃ id, LastUnder ops key id := by
  obtain ⟨n, hn⟩ := mem_iff_getElem?.mp h
  have hbound : ∀ m, (created ops)[m]? = some key → m ≤ (created ops).length :=
    fun m hm => Nat.le_of_lt (List.getElem?_eq_some_iff.mp hm).1
  exact ⟨Nat.findGreatest (fun m => (created ops)[m]? = some key) (created ops).length,
    Nat.findGreatest_spec (P := fun m => (created ops)[m]? = some key) (hbound n hn) hn,
    fun m hm => Nat.le_findGreatest (hbound m hm) hm⟩

/-- A new block is the last one under its place, and all other places keep their blocks. -/
theorem lastUnder_create (h : t.blocks.length = (created ops).length) (name : String)
    (parent : Option Nat) (key place : Position) (id : Nat) :
    LastUnder (ops ++ [.create name parent key]) place id ↔
      if place = key then id = t.blocks.length else LastUnder ops place id := by
  have hcreated : created (ops ++ [.create name parent key]) = created ops ++ [key] := by
    simp [created, Op.key?]
  have hlast : ∀ n, (created ops ++ [key])[n]? = some place ↔
      (created ops)[n]? = some place ∨ n = t.blocks.length ∧ key = place := by
    intro n
    rw [getElem?_append, h]
    split
    · grind
    · rw [getElem?_singleton]
      grind
  unfold LastUnder
  rw [hcreated]
  split
  · grind
  · grind

theorem Kept.create (h : t.Kept ops) (name : String) {parent : Option Nat} (key : Position)
    (hparent : ∀ outer ∈ parent, outer < t.blocks.length) :
    (t.perform (.create name parent key)).1.Kept (ops ++ [.create name parent key]) := by
  constructor
  · simp [perform, createBlock, created, Op.key?, h.count]
  · intro id b hb outer houter
    rcases getElem?_createBlock hb with hb | ⟨rfl, rfl⟩
    · exact h.parents id b hb outer houter
    · exact hparent outer houter
  · intro block b hb
    rcases getElem?_createBlock hb with hb | ⟨rfl, rfl⟩
    · exact h.distinct block b hb
    · exact .nil
  · intro place id
    rw [lastUnder_create h.count, ← h.keys, perform, createBlock, blockAt?, lookup_cons]
    by_cases hplace : place = key
    · simp [hplace, eq_comm]
    · simp [hplace, beq_eq_false_iff_ne.mpr hplace, blockAt?]

theorem Kept.insert (h : t.Kept ops) (block : Nat) (item : Item) :
    (t.perform (.insert block item)).1.Kept (ops ++ [.insert block item]) := by
  have hcreated : created (ops ++ [.insert block item]) = created ops := by
    simp [created, Op.key?]
  have hkeys : ∀ key id, t.blockAt? key = some id ↔
      LastUnder (ops ++ [.insert block item]) key id := by
    simpa only [LastUnder, hcreated] using h.keys
  rw [perform]
  cases ht : t.insert? block item with
  | none => exact ⟨hcreated ▸ h.count, h.parents, h.distinct, hkeys⟩
  | some t' =>
    obtain ⟨-, rfl⟩ := insert?_eq_some ht
    have hother : ∀ {id : Nat} {b : Block}, (t.extend block [item]).blocks[id]? = some b →
        ∃ own, t.blocks[id]? = some own ∧ b.parent = own.parent ∧ (id ≠ block → b = own) := by
      intro id b hb
      rw [getElem?_extend] at hb
      obtain ⟨own, hown, rfl⟩ := Option.map_eq_some_iff.mp hb
      refine ⟨own, hown, ?_, fun hid => if_neg (Ne.symm hid)⟩
      split <;> rfl
    refine ⟨?_, ?_, ?_, hkeys⟩
    · rw [length_extend, hcreated, h.count]
    · intro id b hb
      obtain ⟨own, hown, hparent, _⟩ := hother hb
      rw [hparent]
      exact h.parents id own hown
    · intro id b hb
      by_cases hid : id = block
      · subst hid
        exact (h.distinct id).insert? ht b hb
      · obtain ⟨own, hown, _, hsame⟩ := hother hb
        rw [hsame hid]
        exact h.distinct id own hown

theorem Kept.run {more : List Op} (h : t.Kept ops) (hlegal : Legal t.blocks.length more) :
    (t.run more).Kept (ops ++ more) := by
  induction more generalizing t ops with
  | nil => rwa [append_nil]
  | cons op more ih =>
    rw [append_cons]
    cases op with
    | create name parent key =>
      refine ih (h.create name key hlegal.1) ?_
      simpa [perform, createBlock] using hlegal.2
    | insert block item =>
      refine ih (h.insert block item) ?_
      have hlength : (t.perform (.insert block item)).1.blocks.length = t.blocks.length := by
        rw [perform_insert]
        split
        · rfl
        · exact length_extend _
      rw [hlength]
      exact hlegal.2

theorem Kept.outward (h : t.Kept ops) {id : Nat} (hid : id < t.blocks.length) :
    t.Outward id (t.ancestors id) := by
  induction id using Nat.strongRecOn with
  | ind id ih =>
    have hb := getElem?_eq_getElem hid
    rw [ancestors, hb, Option.bind_some]
    split
    · next parent hparent =>
      have hlt := h.parents id _ hb parent hparent
      rw [dif_pos hlt]
      exact .inside hb hparent (ih parent hlt (Nat.lt_trans hlt hid))
    · next hparent => exact .root hb hparent

theorem ancestors_descend (t : Table) (id : Nat) : (t.ancestors id).Pairwise (· > ·) := by
  fun_induction ancestors t id with
  | case1 id parent _ hlt ih =>
    exact pairwise_cons.mpr
      ⟨fun outer houter => Nat.lt_of_le_of_lt (mem_ancestors_le houter) hlt, ih⟩
  | case2 | case3 => exact pairwise_singleton _ _

/-- What holds of a table after a run. -/
structure Sound (t : Table) (ops : List Op) : Prop where
  parents : ∀ (id : Nat) (b : Block), t.blocks[id]? = some b → ∀ parent ∈ b.parent, parent < id
  ancestors : ∀ id < t.blocks.length, t.Outward id (t.ancestors id) ∧ (t.ancestors id).Nodup
  distinct : ∀ b ∈ t.blocks,
    b.items.Pairwise fun i j => (i.name, i.params) ≠ (j.name, j.params)
  /-- The same operations on slots lead to the slots of the table. -/
  slots : Slots.run [] ops = t.slots
  filled : ∀ b ∈ t.blocks, ∀ slot ∈ b.slots, slot.2 ≠ []
  lengths : ∀ b ∈ t.blocks, b.slots.size = b.items.length ∧
    (b.slots.isEmpty = true ↔ b.slots.size = 0) ∧ ∀ name, b.slots.named name = b.named name
  keys : ∀ key id, t.blockAt? key = some id ↔ LastUnder ops key id
  known : ∀ key, key ∈ created ops ↔ ∃ id < t.blocks.length, t.blockAt? key = some id
  duplicates : ∀ block item, (t.perform (.insert block item)).2 = false ↔
    ∃ i ∈ t.named block item.name, i.params = item.params
  /-- A duplicate changes nothing, not even a slot. -/
  unchanged : ∀ block item, (t.perform (.insert block item)).2 = false →
    (t.perform (.insert block item)).1 = t ∧
      Slots.perform t.slots (.insert block item) = (t.slots, false)

end Table

/-- Every run of operations from the empty table leads to a sound one. -/
theorem run_sound {ops : List Op} (h : Legal 0 ops) : (Table.run {} ops).Sound ops := by
  have hkept : (Table.run {} ops).Kept ops := Table.kept_empty.run h
  generalize ht : Table.run {} ops = t at hkept ⊢
  constructor
  · exact hkept.parents
  · exact fun id hid => ⟨hkept.outward hid, (t.ancestors_descend id).imp Nat.ne_of_gt⟩
  · intro b hb
    obtain ⟨id, hid⟩ := List.mem_iff_getElem?.mp hb
    exact (hkept.distinct id b hid).imp fun hij heq => by
      obtain ⟨hname, hparams⟩ := Prod.mk.inj heq
      exact hij hname hparams
  · exact ht ▸ Table.run_slots {} ops
  · exact fun b _ => b.slots_ne_nil
  · exact fun b _ => ⟨b.size_slots, b.isEmpty_slots, b.named_slots⟩
  · exact hkept.keys
  · intro key
    constructor
    · intro hkey
      obtain ⟨id, hid⟩ := Table.exists_lastUnder hkey
      refine ⟨id, ?_, (hkept.keys key id).mpr hid⟩
      rw [hkept.count]
      exact (List.getElem?_eq_some_iff.mp hid.1).1
    · rintro ⟨id, _, hid⟩
      exact List.mem_of_getElem? ((hkept.keys key id).mp hid).1
  · intro block item
    rw [Table.perform_insert]
    split <;> simp_all
  · intro block item hrefused
    have hsame : (t.perform (.insert block item)).1 = t := by
      rw [Table.perform_insert] at hrefused ⊢
      split
      · rfl
      · simp_all
    rw [Table.perform_slots, hrefused, hsame]
    exact ⟨rfl, rfl⟩

/-- Two blocks under one place, three items of one name of which the second is a duplicate. -/
def crowdedOps : List Op :=
  let x : Item := { name := "x", type := .int, kind := .var, position := ⟨1, 3⟩ }
  [.create "p" none ⟨1, 1⟩, .insert 0 x, .create "f" (some 0) ⟨2, 1⟩,
   .insert 0 { x with kind := .routine }, .insert 0 { x with params := [⟨.int, false⟩] },
   .create "g" (some 1) ⟨2, 1⟩, .insert 2 x]

theorem crowdedOps_sound :
    Legal 0 crowdedOps ∧ (Table.run {} crowdedOps).Sound crowdedOps ∧
      (Table.run {} crowdedOps).slots.map Slots.size = [2, 0, 1] ∧
      (Table.run {} crowdedOps).blockAt? ⟨2, 1⟩ = some 2 := by
  have hlegal : Legal 0 crowdedOps := by simp [Legal, crowdedOps]
  exact ⟨hlegal, run_sound hlegal, by decide +kernel, by decide +kernel⟩

end MiniPascal.Scope
