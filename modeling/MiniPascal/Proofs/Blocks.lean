import MiniPascal.C.OfProgram
import MiniPascal.Proofs.Declarations
import MiniPascal.Proofs.Lowering

/-!
# The blocks of a program

Later stages find the block of a subprogram by the place of its head, and all that is visible from
there can be lowered.
-/

namespace MiniPascal

open List

namespace Analysis

open Scope

variable {root : Nat} {t : Table} {ss before after : List Subprogram} {s : Subprogram}

theorem blocks_prefix_foldl (root : Nat) (t : Table) (ss : List Subprogram) :
    t.blocks <+: (ss.foldl (withSubprogram root) t).blocks := by
  induction ss generalizing t with
  | nil => exact prefix_rfl
  | cons s ss ih => exact (prefix_append _ _).trans (ih (withSubprogram root t s))

theorem blockAt?_foldl {place : Position} (h : ∀ s ∈ ss, s.heading.position ≠ place) :
    (ss.foldl (withSubprogram root) t).blockAt? place = t.blockAt? place := by
  induction ss generalizing t with
  | nil => rfl
  | cons s ss ih =>
    obtain ⟨hs, hss⟩ := forall_mem_cons.mp h
    have hne : (place == s.heading.position) = false := beq_eq_false_iff_ne.mpr (Ne.symm hs)
    rw [foldl_cons, ih hss]
    simp only [Table.blockAt?, withSubprogram, lookup_cons, hne]

theorem blockAt?_heading (h : ∀ r ∈ ss, r.heading.position ≠ s.heading.position) :
    ((s :: ss).foldl (withSubprogram root) t).blockAt? s.heading.position =
      some t.blocks.length := by
  rw [foldl_cons, blockAt?_foldl h]
  exact lookup_cons_self

theorem SubprogramsChecked.split (h : SubprogramsChecked root t (before ++ s :: after)) :
    SubprogramChecked root (before.foldl (withSubprogram root) t) s := by
  induction before generalizing t with
  | nil => exact h.1
  | cons b before ih => exact ih h.2

theorem SubprogramsChecked.left (h : SubprogramsChecked root t (before ++ after)) :
    SubprogramsChecked root t before := by
  induction before generalizing t with
  | nil => trivial
  | cons b before ih => exact ⟨h.1, ih h.2⟩

theorem isError_ofScalar (type : ScalarType) : (Ty.ofScalar type).isError = false := by
  cases type <;> rfl

variable {i : Item} {p : Program} {vars : List VarDecl}

theorem type_of_mem_headItems {h : Heading} (hi : i ∈ headItems h) : i.type.isError = false := by
  rcases mem_append.mp hi with hi | hi
  · obtain ⟨g, _, hi⟩ := mem_flatMap.mp hi
    obtain ⟨_, _, rfl⟩ := mem_map.mp hi
    exact isError_ofScalar g.type
  · obtain ⟨type, _, rfl⟩ := mem_map.mp hi
    exact isError_ofScalar type

theorem type_of_mem_varItems (hi : i ∈ vars.flatMap varItems) : i.type.isError = false := by
  obtain ⟨d, _, hi⟩ := mem_flatMap.mp hi
  obtain ⟨_, _, rfl⟩ := mem_map.mp hi
  exact isError_ofScalar d.type

theorem typed_append_block (ht : t.Typed) {b : Block} {keys : List (Position × Nat)}
    (hb : ∀ i ∈ b.items, i.type.isError = false) : (Table.mk (t.blocks ++ [b]) keys).Typed := by
  intro b' hb'
  rcases mem_append.mp hb' with hb' | hb'
  · exact ht b' hb'
  · exact mem_singleton.mp hb' ▸ hb

theorem opened_typed (ht : t.Typed) (h : Heading) : (opened root t h).Typed :=
  typed_append_block ht fun _ hi => type_of_mem_headItems hi

theorem withSubprogram_typed (ht : t.Typed) (hs : SubprogramChecked root t s) :
    (withSubprogram root t s).Typed := by
  refine typed_append_block ht fun i hi => ?_
  rcases mem_append.mp hi with hi | hi
  · rcases mem_append.mp hi with hi | hi
    · exact type_of_mem_headItems hi
    · exact type_of_mem_constItems (opened_typed ht s.heading) hs.consts hi
  · exact type_of_mem_varItems hi

theorem foldl_typed (ht : t.Typed) (hss : SubprogramsChecked root t ss) :
    (ss.foldl (withSubprogram root) t).Typed := by
  induction ss generalizing t with
  | nil => exact ht
  | cons s ss ih => exact ih (withSubprogram_typed ht hss.1) hss.2

theorem started_typed (p : Program) : (started p).Typed := by
  intro b hb i hi
  rw [mem_singleton.mp hb] at hi
  cases hi

theorem rootTable_typed (h : ProgramChecked p) : (rootTable p).Typed := by
  intro b hb i hi
  rw [mem_singleton.mp hb] at hi
  rcases mem_append.mp hi with hi | hi
  · rcases mem_append.mp hi with hi | hi
    · exact type_of_mem_constItems (started_typed p) h.consts hi
    · exact type_of_mem_varItems hi
  · obtain ⟨s, _, rfl⟩ := mem_map.mp hi
    unfold routineItem
    cases s.heading.returns with
    | none => rfl
    | some type => exact isError_ofScalar type

theorem finished_typed (h : ProgramChecked p) : (finished p).Typed :=
  foldl_typed (rootTable_typed h) h.subprograms

theorem mem_ancestors_cases {block b : Nat} (h : b ∈ t.ancestors block) :
    b = block ∨ ∃ parent, (t.blocks[block]?).bind Block.parent = some parent ∧
      b ∈ t.ancestors parent := by
  rw [Table.ancestors] at h
  split at h
  · next parent hp =>
    split at h
    · rcases mem_cons.mp h with h | h
      · exact .inl h
      · exact .inr ⟨parent, hp, h⟩
    · exact .inl (mem_singleton.mp h)
  · exact .inl (mem_singleton.mp h)

theorem finished_root (p : Program) : (finished p).blocks[0]? = some ⟨p.name, none, rootItems p⟩ :=
  Table.getElem?_of_prefix (blocks_prefix_foldl 0 (rootTable p) p.subprograms) Nat.zero_lt_one

theorem visible_root {name : String} {items : List Item}
    (hroot : t.blocks[0]? = some ⟨name, none, items⟩) (h : t.Visible 0 i) : i ∈ items := by
  obtain ⟨block, hblock, b, hb, hi⟩ := h
  obtain rfl : block = 0 := by
    rcases mem_ancestors_cases hblock with h | ⟨parent, hp, _⟩
    · exact h
    · rw [hroot] at hp
      cases hp
  rw [hroot] at hb
  cases hb
  exact hi

/-- The table of a program when some subprograms are declared. -/
abbrev tableAfter (p : Program) (before : List Subprogram) : Table :=
  before.foldl (withSubprogram 0) (rootTable p)

theorem finished_split (h : p.subprograms = before ++ s :: after) :
    finished p = (s :: after).foldl (withSubprogram 0) (tableAfter p before) := by
  rw [finished, h, foldl_append]

theorem blocks_withSubprogram (root : Nat) (t : Table) (s : Subprogram) (ss : List Subprogram) :
    (withSubprogram root t s).blocks <+: ((s :: ss).foldl (withSubprogram root) t).blocks :=
  blocks_prefix_foldl root (withSubprogram root t s) ss

theorem length_withSubprogram (root : Nat) (t : Table) (s : Subprogram) :
    (withSubprogram root t s).blocks.length = t.blocks.length + 1 := by
  simp [withSubprogram]

/-- In the end the block of a subprogram holds what it held when the subprogram was checked. -/
theorem getElem?_finished (h : p.subprograms = before ++ s :: after) :
    (finished p).blocks[(tableAfter p before).blocks.length]? =
      some ⟨s.heading.name, some 0, subprogramItems 0 (tableAfter p before) s⟩ := by
  rw [finished_split h, Table.getElem?_of_prefix (blocks_withSubprogram 0 _ s after)
    (by rw [length_withSubprogram]; exact Nat.lt_succ_self _)]
  exact getElem?_concat_length

theorem sameFrom_finished (h : p.subprograms = before ++ s :: after) :
    Table.SameFrom (finished p) (withSubprogram 0 (tableAfter p before) s)
      (tableAfter p before).blocks.length := by
  rw [finished_split h]
  exact Table.sameFrom_of_prefix (blocks_withSubprogram 0 _ s after)
    (by rw [length_withSubprogram]; exact Nat.lt_succ_self _)

theorem visible_subprogram {n : Nat} {name outer : String} {items outside : List Item}
    (hroot : t.blocks[0]? = some ⟨outer, none, outside⟩)
    (hn : t.blocks[n]? = some ⟨name, some 0, items⟩) (h : t.Visible n i) :
    i ∈ items ∨ i ∈ outside := by
  obtain ⟨block, hblock, b, hb, hi⟩ := h
  rcases mem_ancestors_cases hblock with rfl | ⟨parent, hp, hblock⟩
  · rw [hn] at hb
    cases hb
    exact .inl hi
  · rw [hn] at hp
    cases hp
    exact .inr (visible_root hroot ⟨block, hblock, b, hb, hi⟩)

@[simp] theorem map_name_varItems (vars : List VarDecl) :
    (vars.flatMap varItems).map Item.name = vars.flatMap VarDecl.names := by
  simp [map_flatMap, varItems, Function.comp_def]

theorem kind_of_mem_varItems (hi : i ∈ vars.flatMap varItems) : i.kind = .var := by
  obtain ⟨d, _, hi⟩ := mem_flatMap.mp hi
  obtain ⟨_, _, rfl⟩ := mem_map.mp hi
  rfl

theorem kind_of_mem_paramItems {groups : List ParamGroup} (hi : i ∈ groups.flatMap paramItems) :
    i.kind = .var := by
  obtain ⟨g, _, hi⟩ := mem_flatMap.mp hi
  obtain ⟨_, _, rfl⟩ := mem_map.mp hi
  rfl

theorem kind_of_mem_rootItems (hi : i ∈ rootItems p) :
    i.kind ≠ .result ∧ (i.kind = .routine → ∃ s ∈ p.subprograms, i = routineItem s.heading) := by
  rcases mem_rootItems.mp hi with hi | hi | ⟨s, hs, rfl⟩
  · simp [kind_of_mem_constItems hi]
  · simp [kind_of_mem_varItems hi]
  · exact ⟨nofun, fun _ => ⟨s, hs, rfl⟩⟩

theorem kind_of_mem_subprogramItems (hi : i ∈ subprogramItems root t s) :
    i.kind ≠ .routine ∧ (i.kind = .result → s.heading.returns.isSome) := by
  rcases mem_subprogramItems.mp hi with hi | hi | hi | hi
  · simp [kind_of_mem_paramItems hi]
  · obtain ⟨type, htype, rfl⟩ := mem_map.mp hi
    exact ⟨nofun, fun _ => Option.isSome_iff_exists.mpr ⟨type, Option.mem_toList.mp htype⟩⟩
  · simp [kind_of_mem_constItems hi]
  · simp [kind_of_mem_varItems hi]

end Analysis

namespace C

open Scope Analysis

def NameMap.places (names : NameMap) : List Position := names.map Prod.fst

theorem NameMap.lookup_isSome {names : NameMap} {place : Position} (h : place ∈ names.places) :
    (names.lookup place).isSome := by
  obtain ⟨entry, hmem, rfl⟩ := mem_map.mp h
  exact lookup_isSome_iff.mpr ⟨entry, hmem, beq_self_eq_true _⟩

theorem places_routines (all earlier : List String) (hs : List Heading) (n : Naming) :
    (Naming.routines all earlier hs n).names.places =
      (hs.map Heading.position).reverse ++ n.names.places := by
  induction hs generalizing earlier n with
  | nil => rfl
  | cons h hs ih =>
    rw [Naming.routines, ih, map_cons, reverse_cons, append_assoc]
    split <;> rfl

theorem places_results (hs : List Heading) (n : Naming) : (Naming.results hs n).names.places =
      ((hs.filter fun h => h.returns.isSome).map Heading.position).reverse ++ n.names.places := by
  unfold Naming.results
  induction hs.filter fun h => h.returns.isSome generalizing n with
  | nil => rfl
  | cons h hs ih =>
    rw [foldl_cons, ih, map_cons, reverse_cons, append_assoc]
    rfl

variable {p : MiniPascal.Program} {s : Subprogram}

theorem routine_named {declared : List String} (hs : s ∈ p.subprograms) :
    ((Names.ofProgram p declared).routines.lookup s.heading.position).isSome := by
  refine NameMap.lookup_isSome ?_
  rw [Names.ofProgram, places_routines]
  refine mem_append_left _ (mem_reverse.mpr ?_)
  exact mem_map_of_mem (mem_map_of_mem hs)

theorem result_named {declared : List String} (hs : s ∈ p.subprograms)
    (hr : s.heading.returns.isSome) :
    ((Names.ofProgram p declared).results.lookup s.heading.position).isSome := by
  refine NameMap.lookup_isSome ?_
  rw [Names.ofProgram, places_results]
  refine mem_append_left _ (mem_reverse.mpr ?_)
  exact mem_map_of_mem (mem_filter.mpr ⟨mem_map_of_mem hs, hr⟩)

/-- Where the program itself is lowered. -/
def Env.ofProgram (p : MiniPascal.Program) (folding : Bool) : Env :=
  { table := finished p, names := .ofProgram p (finished p).names, folding, block := 0 }

def Env.within (env : Env) (block : Nat) (h : Heading) : Env :=
  { env with block, subprogram := some h }

/-- Where a subprogram is lowered that comes after others. -/
abbrev Env.inside (p : MiniPascal.Program) (folding : Bool) (before : List Subprogram)
    (s : Subprogram) : Env :=
  (Env.ofProgram p folding).within (tableAfter p before).blocks.length s.heading

variable {p : MiniPascal.Program} {folding : Bool} {before after : List Subprogram} {s : Subprogram}

theorem outermost_eq (h : ∀ s ∈ p.subprograms, s.heading.position ≠ p.position) :
    outermost p (finished p) folding = .ok (Env.ofProgram p folding) := by
  have hblock : (finished p).blockAt? p.position = some 0 :=
    (blockAt?_foldl h).trans lookup_cons_self
  rw [outermost, blockFor, hblock]
  rfl

theorem blockFor_heading (hheads : (p.subprograms.map fun s => s.heading.position).Nodup)
    (hs : p.subprograms = before ++ s :: after) :
    blockFor (finished p) s.heading.name s.heading.position =
      .ok (tableAfter p before).blocks.length := by
  have hlater : ∀ r ∈ after, r.heading.position ≠ s.heading.position := by
    intro r hr heq
    rw [hs, map_append, map_cons] at hheads
    have hnot := (nodup_cons.mp (nodup_append.mp hheads).2.1).1
    exact hnot (mem_map.mpr ⟨r, hr, heq⟩)
  rw [blockFor, finished_split hs, blockAt?_heading hlater]

variable (h : ProgramChecked p)

include h

theorem ready_ofProgram : (Env.ofProgram p folding).Ready where
  declared := (finished_typed h).declared 0
  routine := by
    intro item hv hk
    obtain ⟨s, hs, rfl⟩ := (kind_of_mem_rootItems (visible_root (finished_root p) hv)).2 hk
    exact routine_named hs
  result := fun item hv hk => ((kind_of_mem_rootItems (visible_root (finished_root p) hv)).1 hk).elim
  resultName := nofun

theorem ready_inside (hs : p.subprograms = before ++ s :: after) :
    (Env.inside p folding before s).Ready := by
  have hmem : s ∈ p.subprograms := hs ▸ mem_append_right _ mem_cons_self
  have hblock := getElem?_finished hs
  refine ⟨⟨?_, ?_, ?_⟩, (finished_typed h).declared _⟩
  · intro item hv hk
    rcases visible_subprogram (finished_root p) hblock hv with hi | hi
    · exact ((kind_of_mem_subprogramItems hi).1 hk).elim
    · obtain ⟨r, hr, rfl⟩ := (kind_of_mem_rootItems hi).2 hk
      exact routine_named hr
  · intro item hv hk
    rcases visible_subprogram (finished_root p) hblock hv with hi | hi
    · simp [Env.function, Env.within, functionOf, (kind_of_mem_subprogramItems hi).2 hk]
    · exact ((kind_of_mem_rootItems hi).1 hk).elim
  · intro f hf
    simp only [Env.function, Env.within, Option.bind_some, functionOf,
      Option.ite_none_right_eq_some, Option.some.injEq] at hf
    obtain ⟨hr, rfl⟩ := hf
    exact result_named hmem hr

theorem statements_checked (hs : p.subprograms = before ++ s :: after) :
    Check.statements (Env.inside p folding before s).context s.body.statements = pure () := by
  have hchecked := (hs ▸ h.subprograms : SubprogramsChecked 0 _ (before ++ s :: after)).split
  exact (Check.statements_congr (sameFrom_finished hs) s.body.statements).trans hchecked.statements

/-- The statements of a program without problems, and those of its subprograms, have forms in C. -/
theorem statements_succeed
    (hplaces : (p.position :: p.subprograms.map fun s => s.heading.position).Nodup)
    (folding : Bool) : outermost p (finished p) folding = .ok (Env.ofProgram p folding) ∧
      Lower.Succeeds (lowerStatements (Env.ofProgram p folding) p.body.statements) ∧
      ∀ s ∈ p.subprograms, ∃ block,
        blockFor (finished p) s.heading.name s.heading.position = .ok block ∧ Lower.Succeeds
            (lowerStatements ((Env.ofProgram p folding).within block s.heading)
              s.body.statements) := by
  obtain ⟨hroot, hheads⟩ := nodup_cons.mp hplaces
  refine ⟨outermost_eq fun s hs heq => hroot (heq ▸ mem_map_of_mem hs),
    lowerStatements_succeeds (ready_ofProgram h) _ h.statements, ?_⟩
  intro s hs
  obtain ⟨before, after, hsplit⟩ := append_of_mem hs
  exact ⟨_, blockFor_heading hheads hsplit,
    lowerStatements_succeeds (ready_inside h hsplit) _ (statements_checked h hsplit)⟩

end C

end MiniPascal
