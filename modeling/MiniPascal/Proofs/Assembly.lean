import MiniPascal.Proofs.CheckedConstants
import MiniPascal.Proofs.GeneratedNames
import MiniPascal.Proofs.References

/-!
# What a program in C is made of

Lowering makes the declarations and statements of a program, and one routine for each subprogram.
-/

namespace MiniPascal

open Scope Analysis
open List

/-- The constants and variables that a body declares. -/
def Body.dataNames (b : Body) : List String :=
  b.consts.map ConstDecl.name ++ b.vars.flatMap VarDecl.names

def Heading.paramNames (h : Heading) : List String := h.groups.flatMap ParamGroup.names

def Subprogram.dataNames (s : Subprogram) : List String := s.heading.paramNames ++ s.body.dataNames

namespace Scope.Table

theorem mem_names {t : Table} {b : Block} (hb : b ∈ t.blocks) {i : Item} (hi : i ∈ b.items) :
    i.name ∈ t.names :=
  mem_flatMap.mpr ⟨b, hb, mem_eraseDups.mpr (mem_map_of_mem hi)⟩

end Scope.Table

namespace Analysis

variable {p : Program} {before after : List Subprogram} {s : Subprogram} {i : Item}

theorem name_of_mem_rootItems (hi : i ∈ rootItems p) : i.name ∈ (finished p).names :=
  Table.mem_names (mem_of_getElem? (finished_root p)) hi

theorem name_of_mem_subprogramItems (hs : p.subprograms = before ++ s :: after)
    (hi : i ∈ subprogramItems 0 (tableAfter p before) s) : i.name ∈ (finished p).names :=
  Table.mem_names (mem_of_getElem? (getElem?_finished hs)) hi

@[simp] theorem map_name_paramItems (h : Heading) :
    (h.groups.flatMap paramItems).map Item.name = h.paramNames := by
  simp [Heading.paramNames, map_flatMap, paramItems, Function.comp_def]

theorem mem_dataNames_root {n : String} :
    n ∈ p.body.dataNames ↔ ∃ i ∈ rootItems p, i.isData = true ∧ i.name = n := by
  have hnames : p.body.dataNames = (constItems (started p) 0 p.body.consts ++
      p.body.vars.flatMap varItems).map Item.name := by
    rw [map_append, map_name_constItems, map_name_varItems]
    rfl
  rw [hnames, mem_map]
  constructor
  · rintro ⟨i, hi, rfl⟩
    refine ⟨i, mem_append_left _ hi, ?_, rfl⟩
    rcases mem_append.mp hi with hi | hi
    · simp [Item.isData, kind_of_mem_constItems hi]
    · simp [Item.isData, kind_of_mem_varItems hi]
  · rintro ⟨i, hi, hdata, rfl⟩
    rcases mem_append.mp hi with hi | hi
    · exact ⟨i, hi, rfl⟩
    · obtain ⟨s, _, rfl⟩ := mem_map.mp hi
      cases hdata

theorem mem_dataNames_subprogram {t : Table} {n : String} :
    n ∈ s.dataNames ↔ ∃ i ∈ subprogramItems 0 t s, i.isData = true ∧ i.name = n := by
  have hnames : s.dataNames = (s.heading.groups.flatMap paramItems ++
      (constItems (opened 0 t s.heading) t.blocks.length s.body.consts ++
        s.body.vars.flatMap varItems)).map Item.name := by
    rw [map_append, map_append, map_name_constItems, map_name_varItems,
      map_name_paramItems]
    rfl
  rw [hnames, mem_map]
  constructor
  · rintro ⟨i, hi, rfl⟩
    rw [mem_append, mem_append] at hi
    refine ⟨i, mem_subprogramItems.mpr (hi.imp_right Or.inr), ?_, rfl⟩
    rcases hi with hi | hi | hi
    · simp [Item.isData, kind_of_mem_paramItems hi]
    · simp [Item.isData, kind_of_mem_constItems hi]
    · simp [Item.isData, kind_of_mem_varItems hi]
  · rintro ⟨i, hi, hdata, rfl⟩
    rcases mem_subprogramItems.mp hi with hi | hi | hi
    · exact ⟨i, mem_append_left _ hi, rfl⟩
    · obtain ⟨type, _, rfl⟩ := mem_map.mp hi
      cases hdata
    · exact ⟨i, mem_append_right _ (mem_append.mpr hi), rfl⟩

/-- In the outermost block only routines of different parameters share a name. -/
theorem rootItems_distinct (h : (analyze p).errors = []) :
    (rootItems p).Pairwise fun i j => i.name = j.name → i.params ≠ j.params := by
  have hempty : (started p).Distinct 0 := by
    intro b hb
    cases hb
    exact .nil
  have hdistinct : (outermost p).1.table.Distinct 0 :=
    declareAll_distinct _ (declareAll_distinct _ (declareConsts_distinct
      (a := { table := started p }) _ hempty))
  obtain ⟨herr, _⟩ := append_eq_nil_iff.mp h
  obtain ⟨herr, _, _⟩ := subprograms_clean herr
  rw [(outermost_clean herr).2] at hdistinct
  exact hdistinct _ rfl

theorem dataNames_nodup (h : (analyze p).errors = []) : p.body.dataNames.Nodup := by
  have hdistinct := (pairwise_append.mp (rootItems_distinct h)).1
  have hparams : ∀ i ∈ constItems (started p) 0 p.body.consts ++ p.body.vars.flatMap varItems,
      i.params = [] := by
    intro i hi
    rcases mem_append.mp hi with hi | hi
    · exact params_of_mem_constItems hi
    · obtain ⟨d, _, hi⟩ := mem_flatMap.mp hi
      obtain ⟨_, _, rfl⟩ := mem_map.mp hi
      rfl
  have hnames : ((constItems (started p) 0 p.body.consts ++
      p.body.vars.flatMap varItems).map Item.name).Nodup :=
    pairwise_map.mpr (hdistinct.imp_of_mem fun hi hj hij hname =>
      hij hname ((hparams _ hi).trans (hparams _ hj).symm))
  rwa [map_append, map_name_constItems, map_name_varItems] at hnames

theorem dataNames_nodup_subprogram (accepted : Accepted p)
    (hs : p.subprograms = before ++ s :: after) : s.dataNames.Nodup := by
  have hsubs : SubprogramsChecked 0 (rootTable p) (before ++ s :: after) :=
    hs ▸ accepted.checked.subprograms
  have hnames := C.names_subprogram hsubs.split
  rw [headItems, map_append, map_name_paramItems, map_name_varItems,
    append_assoc] at hnames
  refine List.Sublist.nodup ?_ hnames
  exact (List.Sublist.refl _).append (sublist_append_right _ _)

end Analysis

namespace C

/-- The names that are declared, before they are written. -/
def Declarations.names (d : Declarations) : List String :=
  d.constants.map Constant.name ++ (d.scalars.map Scalar.name ++ d.arrays.map ArrayDecl.name)

variable {d : Declarations} {env : Env} {b : Body}

variable {known known' : Constants} {ds : List ConstDecl} {cs : List Constant}

/-- What is on record and what the forms of the initializers have, all values have. -/
theorem lowerConsts_values {H : Expr → Prop} (hknown : ∀ entry ∈ known, H entry.2)
    (h : lowerConsts env known ds = .ok (cs, known'))
    (hvalues : ∀ d ∈ ds, ∀ c, lowerExpr env d.value = .ok c → H c) :
    Forall₂ (fun d c => c.name = d.name ∧ H c.value ∧
      ((∀ p n, d.value ≠ .name p n) → lowerExpr env d.value = .ok c.value)) ds cs ∧
    ∀ entry ∈ known', H entry.2 := by
  induction ds generalizing known cs with
  | nil =>
    cases h
    exact ⟨.nil, hknown⟩
  | cons d ds ih =>
    obtain ⟨hd, hds⟩ := forall_mem_cons.mp hvalues
    obtain ⟨value, type, rest, hvalue, _, hrest, rfl⟩ := lowerConsts_cons.mp h
    have hholds : H value := by
      rcases constantValue_cases hvalue with ⟨_, _, _, _, _, _, hlookup⟩ | hlowered
      · exact hknown _ (mem_of_lookup hlookup)
      · exact hd value hlowered
    obtain ⟨hcs, hafter⟩ := ih (forall_mem_cons.mpr ⟨hholds, hknown⟩) hrest hds
    exact ⟨.cons ⟨rfl, hholds, fun hname => (constantValue_eq hname).symm.trans hvalue⟩ hcs, hafter⟩

theorem map_name_lowerConsts (h : lowerConsts env known ds = .ok (cs, known')) :
    cs.map Constant.name = ds.map ConstDecl.name := by
  induction ds generalizing known cs with
  | nil =>
    cases h
    rfl
  | cons d ds ih =>
    obtain ⟨value, type, rest, _, _, hrest, rfl⟩ := lowerConsts_cons.mp h
    rw [map_cons, map_cons, ih hrest]

theorem map_name_scalars (vars : List VarDecl) : (vars.flatMap scalars).map Scalar.name =
    (vars.filter fun d => d.periods.isEmpty).flatMap VarDecl.names := by
  induction vars with
  | nil => rfl
  | cons d ds ih =>
    rw [flatMap_cons, map_append, ih, filter_cons]
    by_cases hp : d.periods.isEmpty
    · simp [scalars, hp, Function.comp_def]
    · simp [scalars, hp]

theorem map_name_arrays {vars : List VarDecl} {as : List ArrayDecl} (h : arrays vars = .ok as) :
    as.map ArrayDecl.name = (vars.filter fun d => !d.periods.isEmpty).flatMap VarDecl.names := by
  induction vars generalizing as with
  | nil =>
    cases h
    rfl
  | cons d ds ih =>
    rw [arrays] at h
    rw [filter_cons]
    by_cases hp : d.periods.isEmpty
    · rw [if_pos (.inl hp)] at h
      rw [ih h, hp]
      rfl
    · by_cases hn : d.names.isEmpty
      · rw [if_pos (.inr hn)] at h
        simp [ih h, hp, List.isEmpty_iff.mp hn]
      · rw [if_neg (not_or.mpr ⟨hp, hn⟩)] at h
        obtain ⟨dims, _, rest, hrest, h⟩ := Except.bind₂_eq_ok.mp h
        cases h
        simp [ih hrest, hp, Function.comp_def]

/-- Declarations that come from a body, by the names of each sort. -/
structure DeclarationsOf (b : Body) (d : Declarations) : Prop where
  constants : d.constants.map Constant.name = b.consts.map ConstDecl.name
  scalars : d.scalars.map Scalar.name =
    (b.vars.filter fun v => v.periods.isEmpty).flatMap VarDecl.names
  arrays : d.arrays.map ArrayDecl.name =
    (b.vars.filter fun v => !v.periods.isEmpty).flatMap VarDecl.names

theorem DeclarationsOf.names_perm (h : DeclarationsOf b d) : d.names.Perm b.dataNames := by
  rw [Declarations.names, h.constants, h.scalars, h.arrays, ← flatMap_append]
  exact ((filter_append_perm _ b.vars).flatMap_right VarDecl.names).append_left _

section

variable (h : lowerDeclarations env known b = .ok (d, known'))

include h

theorem lowerDeclarations_consts : lowerConsts env known b.consts = .ok (d.constants, known') := by
  obtain ⟨_, hconsts, arrays, _, h⟩ := Except.bind₂_eq_ok.mp h
  cases h
  exact hconsts

theorem lowerDeclarations_arrays : arrays b.vars = .ok d.arrays := by
  obtain ⟨_, _, arrays, harrays, h⟩ := Except.bind₂_eq_ok.mp h
  cases h
  exact harrays

theorem lowerDeclarations_ok : DeclarationsOf b d := by
  obtain ⟨⟨constants, _⟩, hconsts, h⟩ := Except.bind_eq_ok.mp h
  obtain ⟨arrays, harrays, h⟩ := Except.bind_eq_ok.mp h
  cases h
  exact ⟨map_name_lowerConsts hconsts, map_name_scalars b.vars, map_name_arrays harrays⟩

end

structure RoutineOf (env : Env) (s : Subprogram) (r : Routine) : Prop where
  name : env.names.routines.lookup s.heading.position = some r.name
  result : result env s.heading = .ok r.result
  params : r.params = params s.heading
  declarations : DeclarationsOf s.body r.body.declarations
  statements : lowerStatements env s.body.statements = .ok r.body.statements

/-- A routine that comes from a subprogram of the program, where that one stands. -/
def LoweredFrom (p : MiniPascal.Program) (folding : Bool) (s : Subprogram) (r : Routine) : Prop :=
  ∃ before after, p.subprograms = before ++ s :: after ∧
    RoutineOf (Env.inside p folding before s) s r

structure Assembled (p : MiniPascal.Program) (folding : Bool) (q : Program) : Prop where
  routines : Forall₂ (LoweredFrom p folding) p.subprograms q.routines
  outside : DeclarationsOf p.body q.outside
  statements : lowerStatements (Env.ofProgram p folding) p.body.statements = .ok q.main.statements
  lowered : ∃ known,
    lowerDeclarations (Env.ofProgram p folding) [] p.body = .ok (q.outside, known) ∧
      lowerSubprograms (Env.ofProgram p folding) known p.subprograms = .ok q.routines
  globals : q.routines = [] → q.globals = {}
  locals : q.routines ≠ [] → q.main.declarations = {}

section

variable {p : MiniPascal.Program} {folding : Bool} {s : Subprogram} {before after : List Subprogram}
  {q : Program} {r : Routine} {rs : List Routine} {outer env : Env} {t : Table}

/-- The constants outside of the routines are those at file level and those of `main`. -/
theorem forall_outside (hglobals : q.routines = [] → q.globals = {})
    (hlocals : q.routines ≠ [] → q.main.declarations = {}) {P : Constant → Prop}
    (hP : ∀ c ∈ q.outside.constants, P c) :
    (∀ c ∈ q.globals.constants, P c) ∧ ∀ c ∈ q.main.declarations.constants, P c := by
  rw [Program.outside] at hP
  by_cases hne : q.routines = []
  · rw [if_pos (List.isEmpty_iff.mpr hne)] at hP
    rw [hglobals hne]
    exact ⟨forall_mem_nil _, hP⟩
  · rw [if_neg fun he => hne (List.isEmpty_iff.mp he)] at hP
    rw [hlocals hne]
    exact ⟨hP, forall_mem_nil _⟩

theorem Assembled.forall_outside {q : Program} (h : Assembled p folding q) {P : Constant → Prop}
    (hP : ∀ c ∈ q.outside.constants, P c) :
    (∀ c ∈ q.globals.constants, P c) ∧ ∀ c ∈ q.main.declarations.constants, P c :=
  C.forall_outside h.globals h.locals hP

theorem lowerSubprogram_eq_ok (h : lowerSubprogram outer known s = .ok (r, known')) :
    ∃ block, blockFor outer.table s.heading.name s.heading.position = .ok block ∧
      RoutineOf { outer with block, subprogram := some s.heading } s r ∧
      lowerDeclarations { outer with block, subprogram := some s.heading } known s.body =
        .ok (r.body.declarations, known') := by
  obtain ⟨block, hblock, name, hname, h⟩ := Except.bind₂_eq_ok.mp h
  obtain ⟨⟨declarations, _⟩, hdeclarations, h⟩ := Except.bind_eq_ok.mp h
  obtain ⟨statements, hstatements, result, hresult, h⟩ := Except.bind₂_eq_ok.mp h
  cases h
  exact ⟨block, hblock, ⟨routineName_eq_ok hname, hresult, rfl, lowerDeclarations_ok hdeclarations,
    hstatements⟩, hdeclarations⟩

/-- A routine that comes from a subprogram, whatever the table says. -/
structure RoutineFrom (outer : Env) (s : Subprogram) (r : Routine) : Prop where
  lowered : ∃ block, RoutineOf { outer with block, subprogram := some s.heading } s r
  arrays : arrays s.body.vars = .ok r.body.declarations.arrays

theorem lowerSubprograms_from {ss : List Subprogram}
    (h : lowerSubprograms outer known ss = .ok rs) : Forall₂ (RoutineFrom outer) ss rs := by
  induction ss generalizing known rs with
  | nil =>
    cases h
    exact .nil
  | cons s ss ih =>
    obtain ⟨r, known', rest, hr, hrest, rfl⟩ := lowerSubprograms_cons.mp h
    obtain ⟨block, _, hof, hdeclarations⟩ := lowerSubprogram_eq_ok hr
    exact .cons ⟨⟨block, hof⟩, lowerDeclarations_arrays hdeclarations⟩ (ih hrest)

/-- What a program in C is put together from, whatever the table says. -/
structure PutTogether (env : Env) (p : MiniPascal.Program) (q : Program) : Prop where
  statements : lowerStatements env p.body.statements = .ok q.main.statements
  lowered : ∃ known, lowerDeclarations env [] p.body = .ok (q.outside, known) ∧
    lowerSubprograms env known p.subprograms = .ok q.routines
  usesExit : q.usesExit = anyEndsProgram p.body.statements
  globals : q.routines = [] → q.globals = {}
  locals : q.routines ≠ [] → q.main.declarations = {}

theorem lower_putTogether (h : lower p t folding = .ok q) :
    ∃ env, outermost p t folding = .ok env ∧ PutTogether env p q := by
  obtain ⟨env, henv, ⟨declarations, known⟩, hdeclarations, h⟩ := Except.bind₂_eq_ok.mp h
  obtain ⟨routines, hroutines, statements, hstatements, h⟩ := Except.bind₂_eq_ok.mp h
  refine ⟨env, henv, ?_⟩
  cases routines with
  | nil =>
    cases h
    exact ⟨hstatements, ⟨known, hdeclarations, hroutines⟩, rfl, fun _ => rfl,
      fun hne => (hne rfl).elim⟩
  | cons r rs =>
    cases h
    exact ⟨hstatements, ⟨known, hdeclarations, hroutines⟩, rfl,
      fun hnil => absurd hnil (cons_ne_nil r rs), fun _ => rfl⟩

theorem of_lowered {test : Program → Bool} (h : (lower p t folding).toOption.any test = true) :
    ∃ q, lower p t folding = .ok q ∧ test q = true := by
  cases hlower : lower p t folding with
  | error e =>
    rw [hlower] at h
    cases h
  | ok q =>
    rw [hlower] at h
    exact ⟨q, rfl, h⟩

/-- A source that is accepted and lowered, and what is found by running both. -/
theorem exists_lowered (source : String) (folding : Bool) {cs : List Char}
    (facts : MiniPascal.Program → Program → Prop) [∀ p q, Decidable (facts p q)]
    (hsource : source = String.ofList cs) (h : ((parse (scanFrom .start cs)).toOption.any fun r =>
      r.2.isEmpty && (analyze r.1).isClean &&
        (lower r.1 (analyze r.1).table folding).toOption.any fun q => facts r.1 q) = true) :
    ∃ p q, parse (scan source) = .ok (p, []) ∧ (analyze p).isClean = true ∧
      lower p (analyze p).table folding = .ok q ∧ facts p q := by
  obtain ⟨p, hp, hclean, hlowered⟩ := of_acceptedWith source
    (fun p => (lower p (analyze p).table folding).toOption.any fun q => facts p q)
    (acceptedWith_of_chars hsource h)
  obtain ⟨q, hlower, hfacts⟩ := of_lowered hlowered
  exact ⟨p, q, hp, hclean, hlower, of_decide_eq_true hfacts⟩

theorem exists_lowered_and {source : String} {cs : List Char}
    {facts P : MiniPascal.Program → Program → Prop} [∀ p q, Decidable (facts p q)]
    (hsource : source = String.ofList cs) (h : ((parse (scanFrom .start cs)).toOption.any fun r =>
      r.2.isEmpty && (analyze r.1).isClean &&
        (lower r.1 (analyze r.1).table folding).toOption.any fun q => facts r.1 q) = true)
    (hP : ∀ {p q}, parse (scan source) = .ok (p, []) → (analyze p).isClean = true →
      lower p (analyze p).table folding = .ok q → P p q) :
    ∃ p q, parse (scan source) = .ok (p, []) ∧ (analyze p).isClean = true ∧
      lower p (analyze p).table folding = .ok q ∧ facts p q ∧ P p q := by
  obtain ⟨p, q, hp, hclean, hlower, hfacts⟩ := exists_lowered source folding facts hsource h
  exact ⟨p, q, hp, hclean, hlower, hfacts, hP hp hclean hlower⟩

theorem headed_subset : Names.headed p ⊆ (finished p).names := by
  intro name hname
  obtain ⟨s, hs, rfl⟩ := mem_map.mp hname
  exact name_of_mem_rootItems (i := routineItem s.heading)
    (mem_append_right _ (mem_map_of_mem hs))

theorem RoutineOf.result_eq (h : RoutineOf env s r) {type : ScalarType}
    (hreturns : s.heading.returns = some type) {v : Var} (hv : resultVar env s.heading = .ok v) :
    r.result = some ⟨v.name, .ofScalar type⟩ := by
  have hresult := h.result
  rw [C.result, hreturns] at hresult
  rw [hv] at hresult
  exact (Except.ok.inj hresult).symm

theorem RoutineOf.result_lookup (h : RoutineOf env s r) {v : Result} (hv : r.result = some v) :
    env.names.results.lookup s.heading.position = some v.name := by
  have hresult := h.result
  rw [hv] at hresult
  unfold C.result at hresult
  split at hresult
  · obtain ⟨var, hvar, hresult⟩ := Except.bind_eq_ok.mp hresult
    cases hresult
    unfold resultVar at hvar
    split at hvar
    · next hlookup =>
      cases hvar
      exact hlookup
    · cases hvar
  · cases hresult

variable (accepted : Accepted p)

include accepted

theorem lowerSubprogram_ok (hs : p.subprograms = before ++ s :: after)
    (h : lowerSubprogram (Env.ofProgram p folding) known s = .ok (r, known')) :
    RoutineOf (Env.inside p folding before s) s r ∧
      lowerDeclarations (Env.inside p folding before s) known s.body =
        .ok (r.body.declarations, known') := by
  have hblock : blockFor (Env.ofProgram p folding).table s.heading.name s.heading.position =
      .ok (tableAfter p before).blocks.length := blockFor_heading accepted.heads hs
  obtain ⟨block, hfound, hof⟩ := lowerSubprogram_eq_ok h
  cases hblock.symm.trans hfound
  exact hof

theorem lowerSubprograms_ok (hs : p.subprograms = before ++ after)
    (h : lowerSubprograms (Env.ofProgram p folding) known after = .ok rs) :
    Forall₂ (LoweredFrom p folding) after rs := by
  induction after generalizing before known rs with
  | nil =>
    cases h
    exact .nil
  | cons s after ih =>
    obtain ⟨r, known', rest, hr, hrest, rfl⟩ := lowerSubprograms_cons.mp h
    have hs' : p.subprograms = (before ++ [s]) ++ after := by rw [hs, append_assoc]; rfl
    exact .cons ⟨before, after, hs, (lowerSubprogram_ok accepted hs hr).1⟩ (ih hs' hrest)

theorem lower_assembled (h : lower p (finished p) folding = .ok q) : Assembled p folding q := by
  have henv : outermost p (finished p) folding = .ok (Env.ofProgram p folding) :=
    outermost_eq fun s hs heq =>
      (nodup_cons.mp accepted.headings).1 (heq ▸ mem_map_of_mem hs)
  obtain ⟨env, hfound, together⟩ := lower_putTogether h
  cases henv.symm.trans hfound
  obtain ⟨known, hdeclarations, hroutines⟩ := together.lowered
  have hall : p.subprograms = [] ++ p.subprograms := rfl
  exact ⟨lowerSubprograms_ok accepted hall hroutines, lowerDeclarations_ok hdeclarations,
    together.statements, together.lowered, together.globals, together.locals⟩

/-- Routines are called differently, each as its subprogram asks for, and no variable for a result
is called like a routine or a declared name. -/
theorem Assembled.named (h : Assembled p folding q) :
    Forall₂ (fun s r => RoutineNamed (Names.headed p) (finished p).names s.heading r.name)
      p.subprograms q.routines ∧ (q.routines.map Routine.name).Nodup ∧
    ∀ place name, (Names.ofProgram p (finished p).names).results.lookup place = some name →
      Settled name ∧ name ∉ (finished p).names ∧ name ∉ q.routines.map Routine.name := by
  obtain ⟨names, hnamed, hnodup, hresults⟩ := Names.names_ofProgram headed_subset accepted.heads
  have hlookup : Forall₂ (fun s r => (Names.ofProgram p (finished p).names).routines.lookup
      s.heading.position = some r.name) p.subprograms q.routines :=
    h.routines.imp fun _ _ ⟨_, _, _, hr⟩ => hr.name
  obtain rfl := eq_map_of_lookups (hnamed.imp fun _ _ hn => hn.1) hlookup
  rw [forall₂_map_right_iff] at hnamed
  exact ⟨hnamed.imp fun _ _ hn => hn.2, hnodup, hresults⟩

theorem Assembled.routine_of (h : Assembled p folding q) (hs : s ∈ p.subprograms) :
    ∃ r, (s, r) ∈ p.subprograms.zip q.routines ∧ LoweredFrom p folding s r ∧
      (Names.ofProgram p (finished p).names).routines.lookup s.heading.position = some r.name ∧
      RoutineNamed (Names.headed p) (finished p).names s.heading r.name := by
  obtain ⟨r, hzip, hr⟩ := exists_pair_of_mem h.routines hs
  refine ⟨r, hzip, hr, ?_, (forall₂_iff_zip.mp (h.named accepted).1).2 hzip⟩
  obtain ⟨_, _, _, hof⟩ := hr
  exact hof.name

end

theorem assembled_of_source {source : String} {p : MiniPascal.Program} {folding : Bool}
    {q : Program} (hparse : parse (scan source) = .ok (p, [])) (hclean : (analyze p).isClean = true)
    (hlower : lower p (analyze p).table folding = .ok q) : Accepted p ∧ Assembled p folding q := by
  obtain ⟨accepted, htable⟩ := accepted_of_source hparse hclean
  rw [htable] at hlower
  exact ⟨accepted, lower_assembled accepted hlower⟩

end C

end MiniPascal
