import MiniPascal.Proofs.Scopes

/-!
# Names that keep their meaning in C

In C a name means the innermost declaration of its identifier, of whatever sort. Every use means the
declaration of its item exactly if each item is clear where it is mentioned, which the names of the
program decide.
-/

namespace MiniPascal

open Scope Analysis
open List

/-- The innermost block around that holds an item. -/
def Scope.Table.home (t : Table) (block : Nat) (item : Item) : Option Nat :=
  (t.ancestors block).find? fun b => (t.named b item.name).contains item

namespace C

def Mention.item : Mention → Item
  | place item => item
  | call item _ _ => item

def Use.identifier : Use → String
  | var v => if v.isResult then v.name else C.identifier v.name
  | call name _ _ => C.identifier name

def declarationsOf (scope : List Declaration) (n : String) : List Declaration :=
  scope.filter fun d => d.identifier == n

/-- The declaration that answers inside of scopes, the innermost one first: the only one in the
first scope that has any. The level is the number of scopes around that one. -/
inductive Answered (answers : Declaration → Bool) :
    List (List Declaration) → Nat → Declaration → Prop where
  | here {scope : List Declaration} {outer : List (List Declaration)} {d : Declaration}
      (only : scope.filter answers = [d]) : Answered answers (scope :: outer) outer.length d
  | outside {scope : List Declaration} {outer : List (List Declaration)} {level : Nat}
      {d : Declaration} (none : scope.filter answers = [])
      (answered : Answered answers outer level d) : Answered answers (scope :: outer) level d

def Denotes (n : String) : List (List Declaration) → Nat → Declaration → Prop :=
  Answered fun d => d.identifier == n

/-- The level at which the items of a block are declared. Those of the program are at file level if
there are routines. -/
def Program.level (q : Program) (block : Nat) : Nat :=
  if block = 0 ∧ q.routines ≠ [] then 0 else 1

def Declaration.Declares (p : MiniPascal.Program) (q : Program) (item : Item) : Declaration → Prop
  | constant c => item.kind = .const ∧ c.name = item.name
  | scalar v => item.kind = .var ∧ item.type.dims = [] ∧ v.name = item.name
  | array a => item.kind = .var ∧ item.type.dims ≠ [] ∧ a.name = item.name
  | param v => item.kind = .var ∧ v.name = item.name ∧ v.byReference = item.byReference
  | result _ => item.kind = .result
  | routine r => ∃ s, (s, r) ∈ p.subprograms.zip q.routines ∧ item = routineItem s.heading
  | main => False

/-- A use in C that denotes the declaration of the item that is mentioned. -/
def Refers (p : MiniPascal.Program) (q : Program) (env : Env) (inner : List Declaration)
    (m : Mention) (u : Use) : Prop :=
  ∃ block d, env.table.home env.block m.item = some block ∧
    Denotes u.identifier [inner, q.scope] (q.level block) d ∧ d.Declares p q m.item

/-- All uses in C denote the declarations of the items that they stand for. -/
def NamesKept (p : MiniPascal.Program) (folding : Bool) (q : Program) : Prop :=
  Forall₂ (fun a b => Forall₂ (Refers p q a.env b.1) a.mentions (Statement.usesAll b.2))
    (Part.ofProgram p folding) q.parts

end C

/-- Whether a name of the program is the only one of its form at file level, and no data that is
declared inside has that form. -/
def Program.reaches (p : Program) (own : List String) (name : String) : Bool :=
  C.occurrences own name == 0 && C.occurrences p.outerNames name == 1

/-- Whether C finds what is mentioned where the given data is declared. Results and routines that
share their names have names of their own. -/
def Program.clear (p : Program) (own : List String) : C.Mention → Bool
  | .place item =>
    item.kind == .result ||
      if own.contains item.name then C.occurrences own item.name == 1 else p.reaches own item.name
  | .call item _ _ => 1 < (C.Names.headed p).count item.name || p.reaches own item.name

/-- Whether C would take a name for another one somewhere. -/
def Program.obscures (p : Program) (folding : Bool) : Bool :=
  (C.Part.ofProgram p folding).any fun a => a.mentions.any fun m => !p.clear a.own m

namespace C

theorem length_declarationsOf (scope : List Declaration) (n : String) :
    (declarationsOf scope n).length = (scope.map Declaration.identifier).count n := by
  rw [declarationsOf, ← countP_eq_length_filter, count_eq_countP, countP_map]
  rfl

section

variable {inner file : List Declaration} {n : String} {d : Declaration}

theorem denotes_inner : Denotes n [inner, file] 1 d ↔ declarationsOf inner n = [d] := by
  constructor
  · intro h
    cases h with
    | here only => exact only
    | outside _ h =>
      cases h with
      | outside _ h => cases h
  · exact .here

theorem denotes_file :
    Denotes n [inner, file] 0 d ↔ declarationsOf inner n = [] ∧ declarationsOf file n = [d] := by
  constructor
  · intro h
    cases h with
    | outside none h =>
      cases h with
      | here only => exact ⟨none, only⟩
      | outside _ h => cases h
  · rintro ⟨hnone, honly⟩
    exact .outside hnone (.here honly)

theorem exists_only {scope : List Declaration} {P : Declaration → Prop}
    (h : ∃ d ∈ scope, d.identifier = n ∧ P d) : (∃ d, declarationsOf scope n = [d] ∧ P d) ↔
      (scope.map Declaration.identifier).count n = 1 := by
  rw [← length_declarationsOf]
  constructor
  · rintro ⟨d, honly, _⟩
    rw [honly]
    rfl
  · intro hone
    obtain ⟨e, he⟩ := length_eq_one_iff.mp hone
    obtain ⟨d, hd, hn, hP⟩ := h
    have hmem : d ∈ declarationsOf scope n := mem_filter.mpr ⟨hd, beq_iff_eq.mpr hn⟩
    rw [he, mem_singleton] at hmem
    exact ⟨e, he, hmem ▸ hP⟩

end

section

variable {p : MiniPascal.Program} {folding : Bool} {q : Program}

section

variable {env : Env} {inner : List Declaration} {m : Mention} {u : Use} {block : Nat}

theorem refers_inner (hhome : env.table.home env.block m.item = some block)
    (hlevel : q.level block = 1)
    (hd : ∃ d ∈ inner, d.identifier = u.identifier ∧ d.Declares p q m.item) :
    Refers p q env inner m u ↔ (inner.map Declaration.identifier).count u.identifier = 1 := by
  rw [← exists_only hd]
  constructor
  · rintro ⟨b, d, hb, hdenotes, hdeclares⟩
    obtain rfl := Option.some.inj (hhome.symm.trans hb)
    rw [hlevel, denotes_inner] at hdenotes
    exact ⟨d, hdenotes, hdeclares⟩
  · rintro ⟨d, honly, hdeclares⟩
    refine ⟨block, d, hhome, ?_, hdeclares⟩
    rw [hlevel, denotes_inner]
    exact honly

theorem refers_file (hhome : env.table.home env.block m.item = some block)
    (hlevel : q.level block = 0)
    (hd : ∃ d ∈ q.scope, d.identifier = u.identifier ∧ d.Declares p q m.item) :
    Refers p q env inner m u ↔ (inner.map Declaration.identifier).count u.identifier = 0 ∧
      (q.scope.map Declaration.identifier).count u.identifier = 1 := by
  rw [← exists_only hd, ← length_declarationsOf, length_eq_zero_iff]
  constructor
  · rintro ⟨b, d, hb, hdenotes, hdeclares⟩
    obtain rfl := Option.some.inj (hhome.symm.trans hb)
    rw [hlevel, denotes_file] at hdenotes
    exact ⟨hdenotes.1, d, hdenotes.2, hdeclares⟩
  · rintro ⟨hnone, d, honly, hdeclares⟩
    refine ⟨block, d, hhome, ?_, hdeclares⟩
    rw [hlevel, denotes_file]
    exact ⟨hnone, honly⟩

end

variable {item : Item}

theorem DeclarationsOf.declares {b : Body} {d : Declarations} (h : DeclarationsOf b d) {t : Table}
    {block : Nat} (hi : item ∈ constItems t block b.consts ++ b.vars.flatMap varItems) :
    ∃ e ∈ d.scope, e.identifier = identifier item.name ∧ e.Declares p q item := by
  rcases mem_append.mp hi with hi | hi
  · have hname : item.name ∈ d.constants.map Constant.name := by
      rw [h.constants, ← map_name_constItems t block]
      exact mem_map_of_mem hi
    obtain ⟨c, hc, hname⟩ := mem_map.mp hname
    refine ⟨.constant c, mem_append_left _ (mem_map_of_mem hc), ?_, ?_⟩
    · rw [Declaration.identifier, hname]
    · exact ⟨kind_of_mem_constItems hi, hname⟩
  · obtain ⟨v, hv, hi⟩ := mem_flatMap.mp hi
    obtain ⟨n, hn, rfl⟩ := mem_map.mp hi
    by_cases hp : v.periods = []
    · have hname : n ∈ d.scalars.map Scalar.name := by
        rw [h.scalars]
        exact mem_flatMap.mpr ⟨v, mem_filter.mpr ⟨hv, List.isEmpty_iff.mpr hp⟩, hn⟩
      obtain ⟨e, he, rfl⟩ := mem_map.mp hname
      refine ⟨.scalar e, ?_, rfl, rfl, hp, rfl⟩
      exact mem_append_right _ (mem_append_left _ (mem_map_of_mem he))
    · have hname : n ∈ d.arrays.map ArrayDecl.name := by
        rw [h.arrays]
        refine mem_flatMap.mpr ⟨v, mem_filter.mpr ⟨hv, ?_⟩, hn⟩
        simpa using hp
      obtain ⟨e, he, rfl⟩ := mem_map.mp hname
      refine ⟨.array e, ?_, rfl, rfl, hp, rfl⟩
      exact mem_append_right _ (mem_append_right _ (mem_map_of_mem he))

theorem mem_data_of_rootItems (hi : item ∈ rootItems p) (hdata : item.isData = true) :
    item ∈ constItems (started p) 0 p.body.consts ++ p.body.vars.flatMap varItems := by
  rcases mem_append.mp hi with hi | hi
  · exact hi
  · obtain ⟨s, _, rfl⟩ := mem_map.mp hi
    cases hdata

theorem RoutineOf.declares {env : Env} {s : Subprogram} {r : Routine} (h : RoutineOf env s r)
    {t : Table} {item : Item} (hi : item ∈ subprogramItems 0 t s) (hdata : item.isData = true) :
    ∃ e ∈ r.scope, e.identifier = identifier item.name ∧ e.Declares p q item := by
  rcases mem_subprogramItems.mp hi with hi | hi | hi
  · obtain ⟨g, hg, hi⟩ := mem_flatMap.mp hi
    obtain ⟨n, hn, rfl⟩ := mem_map.mp hi
    have hparam : (⟨n, .ofScalar g.type, g.byReference⟩ : Param) ∈ r.params := by
      rw [h.params]
      exact mem_flatMap.mpr ⟨g, hg, mem_map_of_mem hn⟩
    refine ⟨.param ⟨n, .ofScalar g.type, g.byReference⟩, ?_, rfl, rfl, rfl, rfl⟩
    exact mem_append_left _ (mem_append_left _ (mem_map_of_mem hparam))
  · obtain ⟨type, _, rfl⟩ := mem_map.mp hi
    cases hdata
  · obtain ⟨e, he, hdeclares⟩ := h.declarations.declares (mem_append.mpr hi)
    exact ⟨e, mem_append_left _ (mem_append_right _ he), hdeclares⟩

/-! Where items are found. -/

theorem ancestors_root (p : MiniPascal.Program) : (finished p).ancestors 0 = [0] := by
  rw [Table.ancestors, finished_root p]
  rfl

theorem named_root (p : MiniPascal.Program) (name : String) :
    (finished p).named 0 name = (rootItems p).filter fun i => i.name == name := by
  rw [Table.named, finished_root p]
  rfl

section

variable {before after : List Subprogram} {s : Subprogram}
  (hs : p.subprograms = before ++ s :: after)

theorem length_tableAfter_pos (p : MiniPascal.Program) (before : List Subprogram) :
    0 < (tableAfter p before).blocks.length :=
  Nat.lt_of_lt_of_le Nat.zero_lt_one (blocks_prefix_foldl 0 (rootTable p) before).length_le

include hs

theorem ancestors_inside : (finished p).ancestors (tableAfter p before).blocks.length =
    [(tableAfter p before).blocks.length, 0] := by
  rw [Table.ancestors, getElem?_finished hs]
  simp [length_tableAfter_pos, ancestors_root]

theorem named_inside (name : String) : (finished p).named (tableAfter p before).blocks.length name =
      (subprogramItems 0 (tableAfter p before) s).filter fun i => i.name == name := by
  rw [Table.named, getElem?_finished hs]
  rfl

variable {item : Item}

theorem home_inside (hi : item ∈ subprogramItems 0 (tableAfter p before) s) :
    (finished p).home (tableAfter p before).blocks.length item =
      some (tableAfter p before).blocks.length := by
  have hnamed : item ∈ (finished p).named (tableAfter p before).blocks.length item.name := by
    rw [named_inside hs]
    exact mem_filter.mpr ⟨hi, beq_self_eq_true _⟩
  rw [Table.home, ancestors_inside hs, find?_cons, contains_iff_mem.mpr hnamed]

theorem home_outside (hi : item ∈ rootItems p)
    (hnot : item ∉ subprogramItems 0 (tableAfter p before) s) :
    (finished p).home (tableAfter p before).blocks.length item = some 0 := by
  have hnamed : item ∈ (finished p).named 0 item.name := by
    rw [named_root]
    exact mem_filter.mpr ⟨hi, beq_self_eq_true _⟩
  have hother : item ∉ (finished p).named (tableAfter p before).blocks.length item.name := by
    rw [named_inside hs]
    exact fun hmem => hnot (mem_filter.mp hmem).1
  have hcontains :
      ((finished p).named (tableAfter p before).blocks.length item.name).contains item = false := by
    rw [contains_eq_mem]
    exact decide_eq_false hother
  rw [Table.home, ancestors_inside hs, find?_cons, hcontains, find?_cons,
    contains_iff_mem.mpr hnamed]

theorem findData?_inside {name : String}
    (h : (finished p).findData? (tableAfter p before).blocks.length name = some item) :
    (item ∈ subprogramItems 0 (tableAfter p before) s ∧ name ∈ s.dataNames) ∨
      (item ∈ rootItems p ∧ item ∉ subprogramItems 0 (tableAfter p before) s ∧
        name ∉ s.dataNames) := by
  obtain ⟨hdata, hname, _⟩ := Table.findData?_some h
  rw [Table.findData?, Table.find?, ancestors_inside hs, findSome?_cons] at h
  cases hown : ((finished p).named (tableAfter p before).blocks.length name).find? Item.isData with
  | some i =>
    rw [hown] at h
    cases h
    rw [named_inside hs] at hown
    have hi := (mem_filter.mp (mem_of_find?_eq_some hown)).1
    exact .inl ⟨hi, mem_dataNames_subprogram.mpr ⟨item, hi, hdata, hname⟩⟩
  | none =>
    rw [hown] at h
    have hnone : ∀ i ∈ subprogramItems 0 (tableAfter p before) s, i.isData = true →
        i.name ≠ name := by
      intro i hi hd hn
      rw [named_inside hs] at hown
      exact find?_eq_none.mp hown i (mem_filter.mpr ⟨hi, beq_iff_eq.mpr hn⟩) hd
    have hroot : ((finished p).named 0 name).find? Item.isData = some item := by
      simpa using h
    rw [named_root] at hroot
    refine .inr ⟨(mem_filter.mp (mem_of_find?_eq_some hroot)).1, ?_, ?_⟩
    · exact fun hi => hnone item hi hdata hname
    · intro hmem
      obtain ⟨i, hi, hd, hn⟩ := (mem_dataNames_subprogram (t := tableAfter p before)).mp hmem
      exact hnone i hi hd hn

end

theorem home_root (hi : item ∈ rootItems p) : (finished p).home 0 item = some 0 := by
  have hnamed : item ∈ (finished p).named 0 item.name := by
    rw [named_root]
    exact mem_filter.mpr ⟨hi, beq_self_eq_true _⟩
  rw [Table.home, ancestors_root, find?_cons, contains_iff_mem.mpr hnamed]

/-! How often identifiers are declared. -/

/-- A declared name is met at file level as often as among the names that are kept there. -/
theorem Assembled.count_file (accepted : Accepted p) (h : Assembled p folding q)
    (hne : q.routines ≠ []) {n : String} (hn : n ∈ (finished p).names) :
    (q.scope.map Declaration.identifier).count (identifier n) = occurrences p.outerNames n := by
  obtain ⟨new, hperm, _, hnew⟩ := h.file_perm accepted hne
  have hmain : List.count (identifier n) ["main"] = 0 :=
    count_eq_zero_of_not_mem fun hmem => identifier_ne_main n (mem_singleton.mp hmem)
  rw [hperm.count_eq, map_append, count_append, count_append, hmain,
    count_settled (fun m hm => (hnew m hm).2) fun hmem => (hnew n hmem).1 hn]
  rfl

variable {s : Subprogram} {r : Routine}

theorem Assembled.count_numbered (accepted : Accepted p) (h : Assembled p folding q)
    (hr : r ∈ q.routines) (hsettled : Settled r.name) (hdeclared : r.name ∉ (finished p).names) :
    (q.scope.map Declaration.identifier).count (identifier r.name) = 1 := by
  obtain ⟨new, hperm, hroutines, hnew⟩ := h.file_perm accepted (ne_nil_of_mem hr)
  have hmain : List.count (identifier r.name) ["main"] = 0 :=
    count_eq_zero_of_not_mem fun hmem => identifier_ne_main _ (mem_singleton.mp hmem)
  have houter : (p.outerNames.map identifier).count (identifier r.name) = 0 := by
    apply count_eq_zero_of_not_mem
    intro hmem
    obtain ⟨m, hm, heq⟩ := mem_map.mp hmem
    rw [hsettled.identifier_eq] at heq
    exact hdeclared (hsettled.eq_of_identifier heq ▸ outerNames_subset hm)
  have hnodup := hroutines.nodup_iff.mp (h.named accepted).2.1
  have hmem : r.name ∈ new := by
    rcases mem_append.mp (hroutines.mem_iff.mp (mem_map_of_mem hr)) with hplain | hmem
    · exact (hdeclared (headed_subset (mem_filter.mp hplain).1)).elim
    · exact hmem
  have hsame : new.map identifier = new := by
    rw [map_congr_left fun n hn => (hnew n hn).2.identifier_eq, map_id']
  have hone : (new.map identifier).count (identifier r.name) = 1 := by
    rw [hsame, hsettled.identifier_eq]
    exact count_eq_one_of_mem (nodup_append'.mp hnodup).2.1 hmem
  rw [hperm.count_eq, map_append, count_append, count_append, hmain, houter, hone]

/-- A scope that declares the given names, and perhaps a result besides. -/
structure Declaring (p : MiniPascal.Program) (q : Program) (own : List String)
    (inner : List Declaration) : Prop where
  declared : ∀ n ∈ (finished p).names,
    (inner.map Declaration.identifier).count (identifier n) = occurrences own n
  numbered : ∀ r ∈ q.routines, Settled r.name → r.name ∉ (finished p).names →
    (inner.map Declaration.identifier).count (identifier r.name) = 0

theorem declaring_nil : Declaring p q [] [] := ⟨fun _ _ => rfl, fun _ _ _ _ => rfl⟩

section

variable (accepted : Accepted p) (h : Assembled p folding q)
include accepted h

theorem Assembled.declaring {before after : List Subprogram}
    (hs : p.subprograms = before ++ s :: after)
    (hr : RoutineOf (Env.inside p folding before s) s r) : Declaring p q s.dataNames r.scope := by
  have hresults : ∀ n ∈ r.result.toList.map Result.name,
      Settled n ∧ n ∉ (finished p).names ∧ n ∉ q.routines.map Routine.name := by
    intro n hn
    obtain ⟨v, hv, rfl⟩ := mem_map.mp hn
    exact (h.named accepted).2.2 _ _ (hr.result_lookup (Option.mem_toList.mp hv))
  constructor
  · intro n hn
    have hresult : (r.result.toList.map Result.name).count (identifier n) = 0 := by
      apply count_eq_zero_of_not_mem
      intro hmem
      obtain ⟨hsettled, hnew, _⟩ := hresults _ hmem
      exact hnew (hsettled.eq_of_identifier rfl ▸ hn)
    rw [hr.scope_perm.count_eq, count_append, hresult]
    rfl
  · intro routine hroutine hsettled hdeclared
    have hresult : (r.result.toList.map Result.name).count (identifier routine.name) = 0 := by
      apply count_eq_zero_of_not_mem
      rw [hsettled.identifier_eq]
      exact fun hmem => (hresults _ hmem).2.2 (mem_map_of_mem hroutine)
    have hdata : (s.dataNames.map identifier).count (identifier routine.name) = 0 := by
      apply count_eq_zero_of_not_mem
      intro hmem
      obtain ⟨m, hm, heq⟩ := mem_map.mp hmem
      rw [hsettled.identifier_eq] at heq
      exact hdeclared (hsettled.eq_of_identifier heq ▸ dataNames_subset hs hm)
    rw [hr.scope_perm.count_eq, count_append, hresult, hdata]

variable {env : Env} {own : List String} {inner : List Declaration} {item : Item}

theorem Assembled.refers_data (hne : q.routines ≠ []) (hinner : Declaring p q own inner)
    (hi : item ∈ rootItems p) (hdata : item.isData = true)
    (hhome : env.table.home env.block item = some 0) :
    Refers p q env inner (.place item) (.var (itemVar item)) ↔ p.reaches own item.name = true := by
  have hdeclared := name_of_mem_rootItems hi
  have hlevel : q.level 0 = 0 := if_pos ⟨rfl, hne⟩
  have houtside : q.outside = q.globals := if_neg fun he => hne (List.isEmpty_iff.mp he)
  obtain ⟨d, hd, hdeclares⟩ := h.outside.declares (p := p) (q := q) (mem_data_of_rootItems hi hdata)
  rw [houtside] at hd
  have hmem : d ∈ q.scope := mem_append_left _ (mem_append_left _ hd)
  have hidentifier : (Use.var (itemVar item)).identifier = identifier item.name := rfl
  have hrefers : Refers p q env inner (.place item) (.var (itemVar item)) ↔ _ :=
    refers_file hhome hlevel ⟨d, hmem, hdeclares⟩
  rw [hrefers, hidentifier, hinner.declared _ hdeclared, h.count_file accepted hne hdeclared]
  simp [MiniPascal.Program.reaches]

theorem Assembled.refers_call (hinner : Declaring p q own inner) (hs : s ∈ p.subprograms)
    (hhome : env.table.home env.block (routineItem s.heading) = some 0)
    {arguments : List MiniPascal.Expr} {routine : String} {passed : List (Expr × Bool)}
    {asValue : Bool}
    (hname : (Names.ofProgram p (finished p).names).routines.lookup s.heading.position =
      some routine) : Refers p q env inner (.call (routineItem s.heading) arguments asValue)
        (.call routine passed asValue) ↔
      p.clear own (.call (routineItem s.heading) arguments asValue) = true := by
  obtain ⟨r, hzip, _, hlookup, hnamed⟩ := h.routine_of accepted hs
  obtain rfl := Option.some.inj (hname.symm.trans hlookup)
  have hr : r ∈ q.routines := (of_mem_zip hzip).2
  have hlevel : q.level 0 = 0 := if_pos ⟨rfl, ne_nil_of_mem hr⟩
  have hmem : Declaration.routine r ∈ q.scope :=
    mem_append_left _ (mem_append_right _ (mem_map_of_mem hr))
  have hidentifier : (Use.call r.name passed asValue).identifier = identifier r.name := rfl
  have hitem : (routineItem s.heading).name = s.heading.name := rfl
  have hrefers : Refers p q env inner (.call (routineItem s.heading) arguments asValue)
      (.call r.name passed asValue) ↔ _ := refers_file hhome hlevel ⟨_, hmem, rfl, s, hzip, rfl⟩
  rw [hrefers, hidentifier, MiniPascal.Program.clear, hitem]
  generalize hrname : r.name = name at hnamed
  cases hnamed with
  | plain once =>
    have hdeclared : s.heading.name ∈ (finished p).names := headed_subset (mem_map_of_mem hs)
    rw [hinner.declared _ hdeclared, h.count_file accepted (ne_nil_of_mem hr) hdeclared]
    simp [MiniPascal.Program.reaches, Nat.not_lt.mpr once]
  | numbered several settled new =>
    subst hrname
    rw [hinner.numbered r hr settled new, h.count_numbered accepted hr settled new]
    simp [several]

end

theorem Assembled.refers_main (h : Assembled p folding q) (hnone : q.routines = [])
    (hi : item ∈ rootItems p) (hdata : item.isData = true) :
    Refers p q (Env.ofProgram p folding) q.main.declarations.scope (.place item)
      (.var (itemVar item)) ↔ p.reaches [] item.name = true := by
  have hlevel : q.level 0 = 1 := if_neg fun hn => hn.2 hnone
  have houtside : q.outside = q.main.declarations := if_pos (List.isEmpty_iff.mpr hnone)
  have hd := h.outside.declares (p := p) (q := q) (mem_data_of_rootItems hi hdata)
  rw [houtside] at hd
  have hrefers : Refers p q (Env.ofProgram p folding) q.main.declarations.scope (.place item)
      (.var (itemVar item)) ↔ _ := refers_inner (home_root hi) hlevel hd
  have hidentifier : (Use.var (itemVar item)).identifier = identifier item.name := rfl
  rw [hrefers, hidentifier, (h.main_perm hnone).count_eq]
  simp [MiniPascal.Program.reaches, occurrences]

theorem kind_ne_result (hdata : item.isData = true) : (item.kind == .result) = false := by
  rw [beq_eq_false_iff_ne]
  intro hk
  rw [Item.isData, hk] at hdata
  cases hdata

theorem clear_place (hdata : item.isData = true) (own : List String) :
    p.clear own (.place item) = if own.contains item.name then occurrences own item.name == 1
      else p.reaches own item.name := by
  rw [MiniPascal.Program.clear, kind_ne_result hdata, Bool.false_or]

theorem level_inside (q : Program) (p : MiniPascal.Program) (before : List Subprogram) :
    q.level (tableAfter p before).blocks.length = 1 :=
  if_neg fun hn => Nat.ne_of_gt (length_tableAfter_pos p before) hn.1

theorem function_inside {before : List Subprogram} {f : Heading}
    (h : (Env.inside p folding before s).function = some f) : f = s.heading := by
  simp only [Env.function, Env.within, Option.bind_some, functionOf,
    Option.ite_none_right_eq_some, Option.some.injEq] at h
  exact h.2.symm

theorem Assembled.refers_result (accepted : Accepted p) (h : Assembled p folding q)
    {before after : List Subprogram} (hs : p.subprograms = before ++ s :: after)
    (hr : RoutineOf (Env.inside p folding before s) s r) (hi : item ∈ resultItems s.heading)
    {v : Var} (hv : resultVar (Env.inside p folding before s) s.heading = .ok v) :
    Refers p q (Env.inside p folding before s) r.scope (.place item) (.var v) := by
  obtain ⟨type, htype, rfl⟩ := mem_map.mp hi
  have hresult := hr.result_eq (Option.mem_toList.mp htype) hv
  obtain ⟨hsettled, hnew, _⟩ := (h.named accepted).2.2 _ _ (hr.result_lookup hresult)
  have hidentifier : (Use.var v).identifier = v.name := if_pos (isResult_of_resultVar hv).1
  have hmem : Declaration.result ⟨v.name, .ofScalar type⟩ ∈ r.scope :=
    mem_append_right _ (by simp [hresult])
  have hitems : resultItems s.heading ⊆ subprogramItems 0 (tableAfter p before) s := fun i hi =>
    mem_append_left _ (mem_append_left _ (mem_append_right _ hi))
  have hdata : (s.dataNames.map identifier).count v.name = 0 := by
    apply count_eq_zero_of_not_mem
    intro hm
    obtain ⟨m, hm, heq⟩ := mem_map.mp hm
    exact hnew (hsettled.eq_of_identifier heq ▸ dataNames_subset hs hm)
  have hrefers : Refers p q (Env.inside p folding before s) r.scope (.place _) (.var v) ↔ _ :=
    refers_inner (home_inside hs (hitems hi)) (level_inside q p before)
      ⟨_, hmem, hidentifier.symm, rfl⟩
  rw [hrefers, hidentifier, hr.scope_perm.count_eq, count_append, hdata, hresult]
  simp

theorem Assembled.refers_iff (accepted : Accepted p) (h : Assembled p folding q) {a : Part}
    {b : List Declaration × List Statement} (hpart : PartOf p folding q a b) {m : Mention} {u : Use}
    (he : Emits a.env m u) : Refers p q a.env b.1 m u ↔ p.clear a.own m = true := by
  cases hpart with
  | main lowered =>
    have hempty : q.routines ≠ [] → q.main.declarations.scope = [] := by
      intro hne
      rw [h.locals hne]
      rfl
    cases he with
    | data found =>
      obtain ⟨hdata, _, hv⟩ := Table.findData?_some found
      have hi := visible_root (finished_root p) hv
      rw [clear_place hdata]
      by_cases hne : q.routines = []
      · exact h.refers_main hne hi hdata
      · rw [hempty hne]
        exact h.refers_data accepted hne declaring_nil hi hdata (home_root hi)
    | result around => cases around
    | call asValue found named _ =>
      obtain ⟨hk, _, _, hv⟩ := Table.findRoutine_ok found
      have hi := visible_root (finished_root p) hv
      obtain ⟨s, hs, rfl⟩ := (kind_of_mem_rootItems hi).2 hk
      obtain ⟨r, hzip, _⟩ := h.routine_of accepted hs
      rw [hempty (ne_nil_of_mem (of_mem_zip hzip).2)]
      exact h.refers_call accepted declaring_nil hs (home_root hi) named
  | @routine before after s r split of =>
    have hne : q.routines ≠ [] := by
      obtain ⟨r, hzip, _⟩ := h.routine_of accepted (s := s)
        (split ▸ mem_append_right _ mem_cons_self)
      exact ne_nil_of_mem (of_mem_zip hzip).2
    have hinner := h.declaring accepted split of
    cases he with
    | @data item found =>
      obtain ⟨hdata, _, _⟩ := Table.findData?_some found
      rw [clear_place hdata]
      rcases findData?_inside split found with ⟨hi, hown⟩ | ⟨hi, hnot, hown⟩
      · rw [if_pos (contains_iff_mem.mpr hown)]
        have hrefers : Refers p q (Env.inside p folding before s) r.scope (.place item)
            (.var (itemVar item)) ↔ _ :=
          refers_inner (home_inside split hi) (level_inside q p before) (of.declares hi hdata)
        have hidentifier : (Use.var (itemVar item)).identifier = identifier item.name := rfl
        rw [hrefers, hidentifier, hinner.declared _ (name_of_mem_subprogramItems split hi)]
        exact beq_iff_eq.symm
      · rw [if_neg fun hc => hown (contains_iff_mem.mp hc)]
        exact h.refers_data accepted hne hinner hi hdata (home_outside split hi hnot)
    | @result f item v around own named =>
      obtain rfl := function_inside around
      have hk : item.kind = .result := by
        obtain ⟨_, _, rfl⟩ := mem_map.mp own
        rfl
      rw [MiniPascal.Program.clear, hk]
      simp [h.refers_result accepted split of own named]
    | call asValue found named _ =>
      obtain ⟨hk, _, _, hv⟩ := Table.findRoutine_ok found
      rcases visible_subprogram (finished_root p) (getElem?_finished split) hv with hi | hi
      · exact ((kind_of_mem_subprogramItems hi).1 hk).elim
      · obtain ⟨s', hs', rfl⟩ := (kind_of_mem_rootItems hi).2 hk
        have hnot : routineItem s'.heading ∉ subprogramItems 0 (tableAfter p before) s :=
          fun hmem => (kind_of_mem_subprogramItems hmem).1 rfl
        exact h.refers_call accepted hinner hs' (home_outside split hi hnot) named

end

theorem Assembled.namesKept_iff {p : MiniPascal.Program} {folding : Bool} {q : Program}
    (accepted : Accepted p) (h : Assembled p folding q) :
    NamesKept p folding q ↔ p.obscures folding = false := by
  have hparts : NamesKept p folding q ↔ ∀ a ∈ Part.ofProgram p folding,
      ∀ m ∈ a.mentions, p.clear a.own m = true :=
    forall₂_iff_of_forall₂ (h.parts accepted) fun _ _ hpart =>
      forall₂_iff_of_forall₂ hpart.emits fun _ _ => h.refers_iff accepted hpart
  rw [hparts]
  simp [MiniPascal.Program.obscures]

/-- In a lowered source every use of a variable or routine denotes the declaration of the item that
it was resolved to, exactly if no name is obscured. -/
theorem names_kept_iff {source : String} {p : MiniPascal.Program}
    (hparse : parse (scan source) = .ok (p, [])) (hclean : (analyze p).isClean = true)
    {level : Nat} {q : Program} (hlower : lower p (analyze p).table (foldsAt level) = .ok q) :
    NamesKept p (foldsAt level) q ↔ p.obscures (foldsAt level) = false := by
  obtain ⟨accepted, assembled⟩ := assembled_of_source hparse hclean hlower
  exact assembled.namesKept_iff accepted

/-- A variable hides one of the program, routines share a name with each other and with a variable
of one of them, and a reserved word is the name of a parameter. -/
def shadowed : String := "program p; var x: integer; a: array[1..3] of real;
  procedure g(x: integer); begin a[x] := x end;
  procedure g(x: real); var g: real; begin g := x end;
  function f(int: integer): integer; var x: real;
    begin x := a[int]; if int > 1 then f := f(int - 1) + 1; exit end;
  begin for x := 1 to 3 do begin g(x); g(a[x]) end; writeln(f(x)) end."

set_option maxRecDepth 2000 in
theorem shadowed_names_kept : ∃ (p : MiniPascal.Program) (q : Program),
    parse (scan shadowed) = .ok (p, []) ∧ (analyze p).isClean = true ∧
      lower p (analyze p).table (foldsAt 1) = .ok q ∧
      q.parts.map (fun b => (Statement.usesAll b.2).length) = [8, 3, 2, 8] ∧
      NamesKept p (foldsAt 1) q := by
  obtain ⟨p, q, hp, hclean, hlower, hclear, huses⟩ := exists_lowered shadowed (foldsAt 1)
    (fun p q => p.obscures (foldsAt 1) = false ∧
      q.parts.map (fun b => (Statement.usesAll b.2).length) = [8, 3, 2, 8]) rfl (by decide +kernel)
  exact ⟨p, q, hp, hclean, hlower, huses, (names_kept_iff hp hclean hlower).mpr hclear⟩

/-- A procedure sets a variable of its own and one of the program, which are written alike. -/
def capturing : String := "program p; var int_: integer;
  procedure q; var int: integer; begin int := 1; int_ := 2 end;
  begin q end."

/-- An accepted source in which a use means another variable than the one it was resolved to: both
assignments of the procedure set its own variable. -/
theorem alike_name_captured : ∃ (p : MiniPascal.Program) (q : Program),
    parse (scan capturing) = .ok (p, []) ∧ (analyze p).isClean = true ∧
      lower p (analyze p).table (foldsAt 0) = .ok q ∧
      q.scope.map Declaration.identifier = ["int_", "q", "main"] ∧
      q.parts.map (fun b => (b.1.map Declaration.identifier,
        (Statement.usesAll b.2).map Use.identifier)) = [([], ["q"]), (["int_"], ["int_", "int_"])] ∧
      ¬ NamesKept p (foldsAt 0) q := by
  obtain ⟨p, q, hp, hclean, hlower, hobscures, hscope, huses⟩ := exists_lowered capturing
    (foldsAt 0) (fun p q => p.obscures (foldsAt 0) = true ∧
      q.scope.map Declaration.identifier = ["int_", "q", "main"] ∧
      q.parts.map (fun b => (b.1.map Declaration.identifier,
        (Statement.usesAll b.2).map Use.identifier)) = [([], ["q"]), (["int_"], ["int_", "int_"])])
    rfl (by decide +kernel)
  refine ⟨p, q, hp, hclean, hlower, hscope, huses, fun hkept => ?_⟩
  obtain ⟨accepted, assembled⟩ := assembled_of_source hp hclean hlower
  rw [(assembled.namesKept_iff accepted).mp hkept] at hobscures
  cases hobscures

end C

end MiniPascal
