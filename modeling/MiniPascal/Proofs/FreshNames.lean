import MiniPascal.Proofs.Assembly

/-!
# Made-up names

A name is made up for each subprogram that shares its name with another one, and for each result.
These names differ from each other and from all that is declared.
-/

namespace MiniPascal

open Scope
open List

/-! ## Declared names -/

namespace Scope.Table

variable {t : Table} {name : String}

theorem mem_names_iff : name ∈ t.names ↔ ∃ b ∈ t.blocks, ∃ i ∈ b.items, i.name = name := by
  unfold names
  rw [mem_flatMap]
  simp only [mem_eraseDups, mem_map]

theorem names_extend (block : Nat) (items : List Item) :
    t.names ⊆ (t.extend block items).names := by
  intro name hname
  obtain ⟨b, hb, i, hi, rfl⟩ := mem_names_iff.mp hname
  obtain ⟨id, hid⟩ := mem_iff_getElem?.mp hb
  have hafter : (t.extend block items).blocks[id]? = _ := getElem?_extend items id
  rw [hid, Option.map_some] at hafter
  refine mem_names_iff.mpr ⟨_, mem_of_getElem? hafter, i, ?_, rfl⟩
  split
  · exact mem_append_left _ hi
  · exact hi

theorem mem_names_extend {block : Nat} (hblock : block < t.blocks.length) {items : List Item}
    {i : Item} (hi : i ∈ items) : i.name ∈ (t.extend block items).names := by
  have hafter : (t.extend block items).blocks[block]? = _ := getElem?_extend items block
  rw [getElem?_eq_getElem hblock, Option.map_some, if_pos rfl] at hafter
  exact mem_names (mem_of_getElem? hafter) (mem_append_right _ hi)

theorem mem_names_of_named {block : Nat} {i : Item} (h : i ∈ t.named block name) :
    name ∈ t.names := by
  unfold named at h
  split at h
  · next b hb =>
    obtain ⟨hi, hname⟩ := mem_filter.mp h
    exact beq_iff_eq.mp hname ▸ mem_names (mem_of_getElem? hb) hi
  · cases h

@[simp] theorem names_createBlock (name : String) (parent : Option Nat) (key : Position) :
    (t.createBlock name parent key).1.names = t.names := by
  simp [createBlock, names]

end Scope.Table

namespace Analysis

variable {a : Analysis} {block : Nat}

theorem names_declare (item : Item) : a.table.names ⊆ (declare block a item).table.names := by
  unfold declare
  split
  · next ht =>
    obtain ⟨_, rfl⟩ := Table.insert?_eq_some ht
    exact Table.names_extend block _
  · exact List.Subset.refl _

theorem mem_names_declare (hblock : block < a.table.blocks.length) (item : Item) :
    item.name ∈ (declare block a item).table.names := by
  unfold declare
  split
  · next ht =>
    obtain ⟨_, rfl⟩ := Table.insert?_eq_some ht
    exact Table.mem_names_extend hblock mem_cons_self
  · next ht =>
    unfold Table.insert? at ht
    split at ht
    · next hany =>
      obtain ⟨i, hi, _⟩ := any_eq_true.mp hany
      exact Table.mem_names_of_named hi
    · cases ht

theorem length_declare (item : Item) :
    (declare block a item).table.blocks.length = a.table.blocks.length := by
  unfold declare
  split
  · next ht =>
    obtain ⟨_, rfl⟩ := Table.insert?_eq_some ht
    exact Table.length_extend _
  · rfl

theorem names_foldl {α : Type} {step : Analysis → α → Analysis}
    (hstep : ∀ a x, a.table.names ⊆ (step a x).table.names) (xs : List α) (a : Analysis) :
    a.table.names ⊆ (xs.foldl step a).table.names := by
  induction xs generalizing a with
  | nil => exact List.Subset.refl _
  | cons x xs ih => exact List.Subset.trans (hstep a x) (ih (step a x))

theorem names_declareAll (items : List Item) :
    a.table.names ⊆ (declareAll block items a).table.names :=
  names_foldl (fun _ => names_declare) items a

theorem names_declareConsts (ds : List ConstDecl) :
    a.table.names ⊆ (declareConsts block ds a).table.names := by
  have hstep : ∀ (a : Analysis) (d : ConstDecl),
      a.table.names ⊆ (declareConst block a d).table.names := fun a d =>
    names_declare (a := a.report (constType a.table block d).errors) _
  exact names_foldl hstep ds a

theorem length_foldl {α : Type} {step : Analysis → α → Analysis}
    (hstep : ∀ a x, (step a x).table.blocks.length = a.table.blocks.length) (xs : List α)
    (a : Analysis) : (xs.foldl step a).table.blocks.length = a.table.blocks.length := by
  induction xs generalizing a with
  | nil => rfl
  | cons x xs ih => exact (ih (step a x)).trans (hstep a x)

theorem length_declareConsts (ds : List ConstDecl) :
    (declareConsts block ds a).table.blocks.length = a.table.blocks.length := by
  have hstep : ∀ (a : Analysis) (d : ConstDecl),
      (declareConst block a d).table.blocks.length = a.table.blocks.length := fun _ _ =>
    length_declare _
  exact length_foldl hstep ds a

theorem length_declareAll (items : List Item) :
    (declareAll block items a).table.blocks.length = a.table.blocks.length :=
  length_foldl (fun _ => length_declare) items a

theorem mem_names_declareAll {items : List Item} (hblock : block < a.table.blocks.length)
    {item : Item} (hitem : item ∈ items) : item.name ∈ (declareAll block items a).table.names := by
  induction items generalizing a with
  | nil => cases hitem
  | cons first items ih =>
    rcases mem_cons.mp hitem with rfl | hitem
    · exact names_declareAll items (mem_names_declare hblock item)
    · exact ih ((length_declare first).symm ▸ hblock) hitem

theorem names_subset_subprogram (root : Nat) (s : Subprogram) :
    a.table.names ⊆ (subprogram root a s).table.names := by
  let created := a.table.createBlock s.heading.name (some root) s.heading.position
  have hcreated : created.1.names = a.table.names := Table.names_createBlock _ _ _
  rw [← hcreated]
  exact List.Subset.trans (names_declareAll (a := { a with table := created.1 }) _)
    (List.Subset.trans (names_declareAll _)
      (List.Subset.trans (names_declareConsts _) (names_declareAll _)))

end Analysis

namespace C

open Analysis

theorem headed_subset_names (p : MiniPascal.Program) :
    Names.headed p ⊆ (analyze p).table.names := by
  intro name hname
  obtain ⟨s, hs, rfl⟩ := mem_map.mp hname
  have hroot : ∀ a : Analysis, a.table.blocks.length = 1 → s.heading.name ∈
      (declareAll 0 (p.subprograms.map fun s => routineItem s.heading) a).table.names := by
    intro a ha
    have hitem : routineItem s.heading ∈ p.subprograms.map fun s => routineItem s.heading :=
      mem_map_of_mem hs
    exact mem_names_declareAll (ha ▸ Nat.one_pos) hitem
  refine names_foldl (fun _ s => names_subset_subprogram _ s) p.subprograms _ (hroot _ ?_)
  rw [length_declareAll, length_declareConsts]
  rfl

/-! ## Names that are made up -/

theorem fresh_first (taken : List String) (name : String) :
    ∃ k, fresh taken name = lengthened name k ∧ (∀ j < k, lengthened name j ∈ taken) ∧
      lengthened name k ∉ taken := by
  obtain ⟨k, heq, hshorter, _⟩ := freshWithin_eq taken taken.length name
  have hnew := fresh_not_mem taken name
  rw [fresh, heq] at hnew
  exact ⟨k, heq, hshorter, hnew⟩

namespace Naming

/-- The names that were made up, of all names of heads. -/
def madeUp (all : List String) (hs : List Heading) (names : List String) : List String :=
  ((hs.zip names).filter fun x => 1 < all.count x.1.name).map Prod.snd

theorem madeUp_cons (all : List String) (h : Heading) (hs : List Heading) (name : String)
    (names : List String) : madeUp all (h :: hs) (name :: names) =
      if 1 < all.count h.name then name :: madeUp all hs names else madeUp all hs names := by
  unfold madeUp
  rw [zip_cons_cons, filter_cons]
  by_cases hshared : 1 < all.count h.name
  · simp [hshared]
  · simp [hshared]

/-- New names are taken in addition: they differ from each other and from those before. -/
structure New (taken new taken' : List String) : Prop where
  eq : taken' = new.reverse ++ taken
  nodup : new.Nodup
  notTaken : ∀ name ∈ new, name ∉ taken

theorem New.nil (taken : List String) : New taken [] taken :=
  ⟨rfl, nodup_nil, forall_mem_nil _⟩

theorem New.cons {taken new taken' : List String} {name : String} (hname : name ∉ taken)
    (h : New (name :: taken) new taken') : New taken (name :: new) taken' := by
  have hnew : ∀ m ∈ new, m ≠ name ∧ m ∉ taken := fun m hm =>
    not_or.mp (mem_cons.not.mp (h.notTaken m hm))
  refine ⟨?_, nodup_cons.mpr ⟨fun hmem => (hnew name hmem).1 rfl, h.nodup⟩,
    forall_mem_cons.mpr ⟨hname, fun m hm => (hnew m hm).2⟩⟩
  rw [h.eq, reverse_cons, append_assoc]
  rfl

theorem routines_new (all earlier : List String) (hs : List Heading) (n : Naming) :
    ∃ names : List String, names.length = hs.length ∧
      (routines all earlier hs n).names = ((hs.map Heading.position).zip names).reverse ++ n.names ∧
      New n.taken (madeUp all hs names) (routines all earlier hs n).taken ∧
      ∀ x ∈ hs.zip names, all.count x.1.name ≤ 1 → x.2 = x.1.name := by
  induction hs generalizing earlier n with
  | nil => exact ⟨[], rfl, rfl, .nil _, fun x hx => by cases hx⟩
  | cons h hs ih =>
    obtain ⟨name, n', hstep, hnext, _, htaken⟩ := routines_cons all earlier h hs n
    obtain ⟨names, hlength, hnames, hnew, hplain⟩ := ih (h.name :: earlier) n'
    rw [hstep]
    refine ⟨name :: names, congrArg (· + 1) hlength, ?_, ?_,
      forall_mem_cons.mpr ⟨fun honce => ?_, hplain⟩⟩
    · rw [map_cons, zip_cons_cons, reverse_cons, append_assoc, hnames, hnext]
      rfl
    · rw [madeUp_cons]
      rcases htaken with ⟨honce, _, htaken⟩ | ⟨hshared, hfree, htaken⟩
      · rw [if_neg (Nat.not_lt.mpr honce), ← htaken]
        exact hnew
      · rw [if_pos hshared]
        exact .cons hfree (htaken ▸ hnew)
    · rcases htaken with ⟨_, hown, _⟩ | ⟨hshared, _⟩
      · exact hown
      · exact absurd honce (Nat.not_le.mpr hshared)

theorem results_new (hs : List Heading) (n : Naming) :
    ∃ names : List String, names.length = (hs.filter fun h => h.returns.isSome).length ∧
      (results hs n).names =
        (((hs.filter fun h => h.returns.isSome).map Heading.position).zip names).reverse ++
          n.names ∧ New n.taken names (results hs n).taken := by
  unfold results
  generalize hs.filter (fun h => h.returns.isSome) = functions
  induction functions generalizing n with
  | nil => exact ⟨[], rfl, rfl, .nil _⟩
  | cons f fs ih =>
    obtain ⟨names, hlength, hnames, hnew⟩ := ih (n.generate f ("ret_" ++ f.name))
    refine ⟨fresh n.taken ("ret_" ++ f.name) :: names, congrArg (· + 1) hlength, ?_,
      hnew.cons (fresh_not_mem _ _)⟩
    rw [map_cons, zip_cons_cons, reverse_cons, append_assoc]
    exact hnames

end Naming

section

variable (p : MiniPascal.Program) (declared : List String)

abbrev Names.heads : List Heading := p.subprograms.map Subprogram.heading

abbrev Names.functions : List Heading := (heads p).filter fun h => h.returns.isSome

/-- The names of a program: `called` has one for each head and `results` one for each function.
Those that are made up differ from each other and from what is declared. -/
structure Names.Made (called results : List String) : Prop where
  lengths : called.length = (heads p).length ∧ results.length = (functions p).length
  routines : (Names.ofProgram p declared).routines =
    (((heads p).map Heading.position).zip called).reverse
  ofResults : (Names.ofProgram p declared).results =
    (((functions p).map Heading.position).zip results).reverse
  plain : ∀ x ∈ (heads p).zip called, (headed p).count x.1.name ≤ 1 → x.2 = x.1.name
  nodup : (Naming.madeUp (headed p) (heads p) called ++ results).Nodup
  undeclared : ∀ name ∈ Naming.madeUp (headed p) (heads p) called ++ results, name ∉ declared

theorem Names.made : ∃ called results, Names.Made p declared called results := by
  have hheads : (heads p).map Heading.name = headed p := map_map
  obtain ⟨called, hcalled, hroutines, hnew, hplain⟩ :=
    Naming.routines_new (headed p) [] (heads p) ⟨[], declared⟩
  let taken := (Naming.routines (headed p) [] (heads p) ⟨[], declared⟩).taken
  obtain ⟨results, hlength, hresults, hnew'⟩ := Naming.results_new (heads p) ⟨[], taken⟩
  have htaken : ∀ name ∈ results, name ∉ taken := hnew'.notTaken
  have heq : taken = (Naming.madeUp (headed p) (heads p) called).reverse ++ declared := hnew.eq
  refine ⟨called, results, ⟨hcalled, hlength⟩, ?_, ?_, hplain, ?_, ?_⟩
  · rw [Names.ofProgram, hheads]
    exact hroutines.trans (append_nil _)
  · rw [Names.ofProgram, hheads]
    exact hresults.trans (append_nil _)
  · refine nodup_append.mpr ⟨hnew.nodup, hnew'.nodup, ?_⟩
    rintro name hname _ hresult rfl
    exact htaken name hresult (heq ▸ mem_append_left _ (mem_reverse.mpr hname))
  · intro name hname hdeclared
    rcases mem_append.mp hname with hname | hname
    · exact hnew.notTaken name hname hdeclared
    · exact htaken name hname (heq ▸ mem_append_right _ hdeclared)

variable {p declared}

theorem Names.Made.of_routine {called results : List String}
    (h : Names.Made p declared called results)
    (hdeclared : headed p ⊆ declared) {place : Position} {name : String}
    (hname : (Names.ofProgram p declared).routines.lookup place = some name) :
    name ∈ declared ∨ name ∈ Naming.madeUp (headed p) (heads p) called := by
  have hmem := mem_of_lookup hname
  rw [h.routines, mem_reverse, zip_map_left] at hmem
  obtain ⟨⟨head, other⟩, hzip, heq⟩ := mem_map.mp hmem
  obtain rfl : other = name := congrArg Prod.snd heq
  by_cases hshared : 1 < (headed p).count head.name
  · exact .inr (mem_map.mpr ⟨(head, other), mem_filter.mpr ⟨hzip, decide_eq_true hshared⟩,
      rfl⟩)
  · have hplain : other = head.name := h.plain _ hzip (Nat.not_lt.mp hshared)
    obtain ⟨s, hs, rfl⟩ := mem_map.mp (of_mem_zip hzip).1
    exact .inl (hplain ▸ hdeclared (mem_map_of_mem hs))

/-- A variable for a result is called like nothing that is declared, and like no routine. -/
theorem Names.Made.of_result {called results : List String}
    (h : Names.Made p declared called results)
    (hdeclared : headed p ⊆ declared) {place : Position} {name : String}
    (hname : (Names.ofProgram p declared).results.lookup place = some name) : name ∉ declared ∧
      ∀ place, (Names.ofProgram p declared).routines.lookup place ≠ some name := by
  have hmem := mem_of_lookup hname
  rw [h.ofResults, mem_reverse] at hmem
  have hresult : name ∈ results := (of_mem_zip hmem).2
  have hnew := h.undeclared name (mem_append_right _ hresult)
  refine ⟨hnew, fun place hroutine => ?_⟩
  rcases h.of_routine hdeclared hroutine with hmem | hmem
  · exact hnew hmem
  · exact (nodup_append.mp h.nodup).2.2 name hmem name hresult rfl

end

/-! ## Names of routines -/

section

variable {p : MiniPascal.Program} {t : Table} {folding : Bool} {q : Program}

theorem lower_lookups (h : lower p t folding = .ok q) : Forall₂ (fun s r =>
    (Names.ofProgram p t.names).routines.lookup s.heading.position = some r.name ∧
      ∀ v, r.result = some v →
        (Names.ofProgram p t.names).results.lookup s.heading.position = some v.name)
    p.subprograms q.routines := by
  obtain ⟨env, henv, together⟩ := lower_putTogether h
  obtain ⟨block, _, henv⟩ := Except.bind_eq_ok.mp henv
  cases henv
  obtain ⟨known, _, hroutines⟩ := together.lowered
  exact (lowerSubprograms_from hroutines).imp fun s r ⟨⟨_, hof⟩, _⟩ =>
    ⟨hof.name, fun v hv => hof.result_lookup hv⟩

theorem routines_nodup_iff (hdeclared : Names.headed p ⊆ t.names) (h : lower p t folding = .ok q) :
    (q.routines.map Routine.name).Nodup ↔
      (p.subprograms.map fun s => s.heading.position).Nodup := by
  have hlookups := (lower_lookups h).imp fun _ _ hr => hr.1
  constructor
  · intro hnodup
    -- Heads at one place are looked up alike.
    let name (place : Position) := (Names.ofProgram p t.names).routines.lookup place
    have hnames : p.subprograms.map (fun s => name s.heading.position) =
        q.routines.map fun r => some r.name := by
      rw [← forall₂_eq_eq_eq, forall₂_map_left_iff, forall₂_map_right_iff]
      exact hlookups
    have hsome : (q.routines.map fun r => some r.name).Nodup := by
      have hmap := hnodup.map (Option.some_injective String)
      rwa [map_map] at hmap
    refine List.Nodup.of_map name ?_
    rw [map_map]
    exact hnames ▸ hsome
  · intro hplaces
    obtain ⟨names, hnamed, hnodup, _⟩ := Names.names_ofProgram hdeclared hplaces
    rwa [eq_map_of_lookups (hnamed.imp fun _ _ hn => hn.1) hlookups] at hnodup

end

/-- Lengthening a name ends at a free one. The names that are made up for a program differ from each
other and from all that are declared. No variable for a result is called like something declared or
like a routine, and routines are called differently just when their heads stand at different places,
as they do in whatever is read from a source. -/
theorem made_up_names_fresh (p : MiniPascal.Program) :
    (∀ taken name, ∃ k, fresh taken name = lengthened name k ∧
      (∀ j < k, lengthened name j ∈ taken) ∧ lengthened name k ∉ taken) ∧
    (∃ called results, Names.Made p (analyze p).table.names called results) ∧
    (∀ folding q, lower p (analyze p).table folding = .ok q →
      ((q.routines.map Routine.name).Nodup ↔
        (p.subprograms.map fun s => s.heading.position).Nodup) ∧
      ∀ r ∈ q.routines, ∀ v, r.result = some v →
        v.name ∉ (analyze p).table.names ∧ v.name ∉ q.routines.map Routine.name) ∧
    ∀ source errors, parse (scan source) = .ok (p, errors) →
      (p.subprograms.map fun s => s.heading.position).Nodup := by
  obtain ⟨called, results, made⟩ := Names.made p (analyze p).table.names
  refine ⟨fresh_first, ⟨called, results, made⟩, fun folding q h =>
    ⟨routines_nodup_iff (headed_subset_names p) h, fun r hr v hv => ?_⟩,
    fun source errors h => heads_nodup_of_parse h⟩
  have hlookups := lower_lookups h
  obtain ⟨s, _, _, hresult⟩ := exists_left_of_mem hlookups hr
  obtain ⟨hdeclared, hroutine⟩ := made.of_result (headed_subset_names p) (hresult v hv)
  refine ⟨hdeclared, fun hmem => ?_⟩
  obtain ⟨r', hr', hname⟩ := List.mem_map.mp hmem
  obtain ⟨s', _, hlookup, _⟩ := exists_left_of_mem hlookups hr'
  exact hroutine _ (hname ▸ hlookup)

/-- Variables that are called like the names that are made up for routines and results. -/
def lookalikes : String := "program p; var show_1, show_1_, ret_f: integer;
  procedure show(a: integer); var ret_f_: integer; begin end;
  procedure show(a: real); begin end;
  function f: integer; begin f := 1 end;
  begin end."

set_option maxRecDepth 2000 in
theorem lookalikes_named_apart : ∃ (p : MiniPascal.Program) (q : Program),
    parse (scan lookalikes) = .ok (p, []) ∧ lower p (analyze p).table false = .ok q ∧
      q.routines.map (fun r => (r.name, r.result.map Result.name)) =
        [("show_1__", none), ("show_2", none), ("f", some "ret_f__")] ∧
      (q.routines.map Routine.name).Nodup ∧
      ∀ r ∈ q.routines, ∀ v, r.result = some v →
        v.name ∉ (analyze p).table.names ∧ v.name ∉ q.routines.map Routine.name := by
  obtain ⟨p, q, hp, _, hlower, hnames⟩ := exists_lowered lookalikes false (fun _ q =>
    q.routines.map (fun r => (r.name, r.result.map Result.name)) =
      [("show_1__", none), ("show_2", none), ("f", some "ret_f__")]) rfl (by decide +kernel)
  obtain ⟨_, _, hroutines, hplaces⟩ := made_up_names_fresh p
  obtain ⟨hiff, hresults⟩ := hroutines false q hlower
  exact ⟨p, q, hp, hlower, hnames, hiff.mpr (hplaces _ _ hp), hresults⟩

/-- Two procedures whose heads stand at one place are called the same. -/
theorem routines_alike_at_one_place : ∃ (p : MiniPascal.Program) (q : Program),
    (analyze p).isClean = true ∧ lower p (analyze p).table false = .ok q ∧
      q.routines.map Routine.name = ["b", "b"] := by
  let head (name : String) : Heading := ⟨name, [], none, ⟨1, 12⟩⟩
  let body : Body := ⟨[], [], [], ⟨1, 60⟩⟩
  let p : MiniPascal.Program := ⟨"p", [], .start, [⟨head "a", body⟩, ⟨head "b", body⟩], body⟩
  have htest : ((lower p (analyze p).table false).toOption.any fun q =>
      q.routines.map Routine.name == ["b", "b"]) = true := by decide +kernel
  obtain ⟨q, hlower, hnames⟩ := of_lowered htest
  exact ⟨p, q, by decide +kernel, hlower, beq_iff_eq.mp hnames⟩

end C

end MiniPascal
