import MiniPascal.Proofs.CheckedLowering
import MiniPascal.Proofs.Constants

/-!
# The constants of checked sources

A source that was accepted is lowered to a program in C that keeps all constants, exactly if no
subprogram captures an initializer.
-/

namespace MiniPascal

open Scope Analysis List

def Subprogram.captures (s : Subprogram) : Bool :=
  capturesAny (s.body.vars.flatMap VarDecl.names) s.body.consts

def Program.captures (p : Program) : Bool := p.subprograms.any Subprogram.captures

namespace C

/-- Routines that keep the constants of subprograms, which are declared one after the other. -/
def RoutinesKept (final : Table) (σ : Run.Store) : Table → List Subprogram → List Routine → Prop
  | _, [], [] => True
  | t, s :: ss, r :: rs =>
    (∃ σ', Kept final t.blocks.length (opened 0 t s.heading) σ s.body.consts
      r.body.declarations.constants σ') ∧ RoutinesKept final σ (withSubprogram 0 t s) ss rs
  | _, _, _ => False

/-- What a program declares outside of its routines. -/
def Program.outside (q : Program) : Declarations :=
  if q.routines.isEmpty then q.main.declarations else q.globals

def KeepsConstants (final : Table) (σ : Run.Store) (p : MiniPascal.Program) (q : Program) : Prop :=
  ∃ σ', Kept final 0 (started p) σ p.body.consts q.outside.constants σ' ∧
    RoutinesKept final σ' (rootTable p) p.subprograms q.routines

section

variable {p : MiniPascal.Program} {folding : Bool} {before after : List Subprogram} {s : Subprogram}
  {known : Constants} {σ : Run.Store}

theorem completed_outermost (p : MiniPascal.Program) (folding : Bool) :
    Completed (Env.ofProgram p folding) (started p)
      (constItems (started p) 0 p.body.consts ++ (p.body.vars.flatMap varItems ++
        p.subprograms.map fun s => routineItem s.heading)) where
  block := Nat.zero_lt_one
  same := by
    rw [← append_assoc]
    exact Table.sameFrom_of_prefix (blocks_prefix_foldl 0 (rootTable p) p.subprograms)
      Nat.zero_lt_one
  visible := by
    intro i hi
    rw [← append_assoc] at hi
    exact ⟨0, Table.mem_ancestors_self _ _, _, finished_root p, hi⟩

theorem withSubprogram_eq (t : Table) (s : Subprogram) :
    withSubprogram 0 t s = (opened 0 t s.heading).extend t.blocks.length
      (constItems (opened 0 t s.heading) t.blocks.length s.body.consts ++
        s.body.vars.flatMap varItems) := by
  rw [opened, extend_last, withSubprogram, subprogramItems, append_assoc]
  rfl

theorem completed_subprogram (folding : Bool) (hs : p.subprograms = before ++ s :: after) :
    Completed (Env.inside p folding before s) (opened 0 (tableAfter p before) s.heading)
      (constItems (opened 0 (tableAfter p before) s.heading) (tableAfter p before).blocks.length
        s.body.consts ++ s.body.vars.flatMap varItems) where
  block := by simp [Env.inside, Env.within, opened]
  same := by
    have hsame := sameFrom_finished hs
    rw [withSubprogram_eq] at hsame
    exact hsame
  visible := by
    intro i hi
    refine ⟨_, Table.mem_ancestors_self _ _, _, getElem?_finished hs, ?_⟩
    rw [subprogramItems, append_assoc]
    exact mem_append_right _ hi

variable {rs : List Routine} {h : Heading} {t : Table}

/-- From the block of a subprogram the constants of the program are visible, until it declares its
own. -/
theorem mem_rootItems_of_opened {i : Item}
    (hv : (opened 0 (tableAfter p before) h).Visible (tableAfter p before).blocks.length i)
    (hk : i.kind = .const) : i ∈ rootItems p := by
  have hgrows := blocks_prefix_foldl 0 (rootTable p) before
  have hroot : (opened 0 (tableAfter p before) h).blocks[0]? = some ⟨p.name, none, rootItems p⟩ :=
    Table.getElem?_of_prefix (t := rootTable p) (hgrows.trans (prefix_append _ _))
      Nat.zero_lt_one
  rcases visible_subprogram hroot getElem?_concat_length hv with hi | hi
  · rcases mem_append.mp hi with hi | hi
    · obtain ⟨g, _, hi⟩ := mem_flatMap.mp hi
      obtain ⟨_, _, rfl⟩ := mem_map.mp hi
      cases hk
    · obtain ⟨type, _, rfl⟩ := mem_map.mp hi
      cases hk
  · exact hi

theorem recorded_opened (recorded : ∀ i ∈ rootItems p, i.kind = .const → known.Records σ i)
    (before : List Subprogram) (h : Heading) :
    Recorded known σ (opened 0 (tableAfter p before) h) (tableAfter p before).blocks.length :=
  fun i hv hk => recorded i (mem_rootItems_of_opened hv hk) hk

theorem sizes_succeeds (q : Position) {periods : List Period}
    (h : ∀ period ∈ periods, period.Ranged) : Lower.Succeeds (sizes q periods) := by
  induction periods with
  | nil => exact ⟨[], rfl⟩
  | cons period rest ih =>
    obtain ⟨hp, hrest⟩ := forall_mem_cons.mp h
    obtain ⟨n, hn⟩ := Option.isSome_iff_exists.mp hp.countable
    rw [sizes, hn]
    exact (ih hrest).map

theorem arrays_succeeds {vars : List VarDecl}
    (h : ∀ d ∈ vars, ∀ period ∈ d.periods, period.Ranged) : Lower.Succeeds (arrays vars) := by
  induction vars with
  | nil => exact ⟨[], rfl⟩
  | cons d ds ih =>
    obtain ⟨hd, hds⟩ := forall_mem_cons.mp h
    rw [arrays]
    split
    · exact ih hds
    · exact .bind (sizes_succeeds d.position hd) fun _ => (ih hds).map

theorem routineName_of_mem (hs : s ∈ p.subprograms) (env : Env)
    (hnames : env.names = .ofProgram p (finished p).names) :
    Lower.Succeeds (routineName env s.heading.name s.heading.position) := by
  have hsome : (env.names.routines.lookup s.heading.position).isSome := by
    rw [hnames]
    exact routine_named hs
  obtain ⟨name, hname⟩ := Option.isSome_iff_exists.mp hsome
  exact ⟨name, by rw [routineName, hname]⟩

theorem result_succeeds {env : Env} (named : env.Named) (henv : env.subprogram = some h) :
    Lower.Succeeds (result env h) := by
  unfold result
  cases hr : h.returns with
  | none => exact ⟨none, rfl⟩
  | some type =>
    have hf : env.function = some h := by simp [Env.function, henv, functionOf, hr]
    exact (resultVar_succeeds named hf).map

theorem lowerSubprogram_eq (folding : Bool) (accepted : Accepted p)
    (hs : p.subprograms = before ++ s :: after) :
    ∃ routine : List Constant → Routine, (∀ cs, (routine cs).body.declarations.constants = cs) ∧
      ∀ known, lowerSubprogram (Env.ofProgram p folding) known s = (fun r => (routine r.1, r.2)) <$>
          lowerConsts (Env.inside p folding before s) known s.body.consts := by
  have hmem : s ∈ p.subprograms := hs ▸ mem_append_right _ mem_cons_self
  have ready : (Env.inside p folding before s).Ready := ready_inside accepted.checked hs
  obtain ⟨name, hname⟩ := routineName_of_mem hmem (Env.inside p folding before s) rfl
  obtain ⟨arrays, harrays⟩ := arrays_succeeds (accepted.ranged.2 s hmem).arrays
  obtain ⟨statements, hstatements⟩ :=
    lowerStatements_succeeds ready _ (statements_checked accepted.checked hs)
  obtain ⟨result, hresult⟩ := result_succeeds ready.toNamed rfl
  refine ⟨fun cs => ⟨name, result, params s.heading,
    ⟨⟨cs, s.body.vars.flatMap scalars, arrays⟩, statements⟩⟩, fun _ => rfl, fun known => ?_⟩
  -- All steps but one have a result that is known by now.
  have hblock : blockFor (Env.ofProgram p folding).table s.heading.name s.heading.position =
      .ok (tableAfter p before).blocks.length := blockFor_heading accepted.heads hs
  rw [lowerSubprogram, hblock]
  change (routineName (Env.inside p folding before s) s.heading.name s.heading.position >>= _) = _
  rw [hname]
  change (lowerDeclarations (Env.inside p folding before s) known s.body >>= _) = _
  rw [lowerDeclarations, harrays]
  cases lowerConsts (Env.inside p folding before s) known s.body.consts with
  | error e => rfl
  | ok r =>
    change (lowerStatements (Env.inside p folding before s) s.body.statements >>= _) = _
    rw [hstatements]
    change (C.result (Env.inside p folding before s) s.heading >>= _) = _
    rw [hresult]
    rfl

theorem lower_eq (folding : Bool) (accepted : Accepted p) :
    ∃ assemble : List Constant → List Routine → Program,
      (∀ cs rs, (assemble cs rs).outside.constants = cs ∧ (assemble cs rs).routines = rs) ∧
      lower p (finished p) folding = do
        let r ← lowerConsts (Env.ofProgram p folding) [] p.body.consts
        let routines ← lowerSubprograms (Env.ofProgram p folding) r.2 p.subprograms
        return assemble r.1 routines := by
  obtain ⟨henv, ⟨statements, hstatements⟩, _⟩ :=
    statements_succeed accepted.checked accepted.headings folding
  obtain ⟨arrays, harrays⟩ := arrays_succeeds accepted.ranged.1.arrays
  let declarations (cs : List Constant) : Declarations :=
    ⟨cs, p.body.vars.flatMap scalars, arrays⟩
  refine ⟨fun cs rs =>
    if rs.isEmpty then
      ⟨p.name, {}, [], ⟨declarations cs, statements⟩, anyEndsProgram p.body.statements⟩
    else ⟨p.name, declarations cs, rs, ⟨{}, statements⟩, anyEndsProgram p.body.statements⟩, ?_, ?_⟩
  · rintro cs (_ | ⟨r, rs⟩) <;> exact ⟨rfl, rfl⟩
  · rw [lower, henv]
    change (lowerDeclarations (Env.ofProgram p folding) [] p.body >>= _) = _
    rw [lowerDeclarations, harrays]
    cases lowerConsts (Env.ofProgram p folding) [] p.body.consts with
    | error e => rfl
    | ok r =>
      change (lowerSubprograms (Env.ofProgram p folding) r.2 p.subprograms >>= _) =
        (lowerSubprograms (Env.ofProgram p folding) r.2 p.subprograms >>= _)
      cases lowerSubprograms (Env.ofProgram p folding) r.2 p.subprograms with
      | error e => rfl
      | ok rs =>
        rw [hstatements]
        cases rs <;> rfl

theorem lowerSubprograms_cons {outer : Env} : lowerSubprograms outer known (s :: after) = .ok rs ↔
      ∃ r known' rest, lowerSubprogram outer known s = .ok (r, known') ∧
        lowerSubprograms outer known' after = .ok rest ∧ rs = r :: rest := by
  constructor
  · intro h
    obtain ⟨⟨r, known'⟩, hr, h⟩ := Except.bind_eq_ok.mp h
    obtain ⟨rest, hrest, h⟩ := Except.bind_eq_ok.mp h
    cases h
    exact ⟨r, known', rest, hr, hrest, rfl⟩
  · rintro ⟨r, known', rest, hr, hrest, rfl⟩
    exact Except.bind_eq_ok.mpr ⟨(r, known'), hr, Except.bind_eq_ok.mpr ⟨rest, hrest, rfl⟩⟩

theorem lowerSubprograms_kept (folding : Bool) (accepted : Accepted p)
    (hs : p.subprograms = before ++ after)
    (recorded : ∀ i ∈ rootItems p, i.kind = .const → known.Records σ i)
    (fresh : Fresh known (after.flatMap Subprogram.places))
    (huncaptured : ∀ s ∈ after, s.captures = false) :
    ∃ rs, lowerSubprograms (Env.ofProgram p folding) known after = .ok rs ∧
      RoutinesKept (finished p) σ (tableAfter p before) after rs := by
  induction after generalizing before known with
  | nil => exact ⟨[], rfl, trivial⟩
  | cons s after ih =>
    have hmem : s ∈ p.subprograms := hs ▸ mem_append_right _ mem_cons_self
    have hsubs : SubprogramsChecked 0 (rootTable p) (before ++ s :: after) :=
      hs ▸ accepted.checked.subprograms
    have htyped := foldl_typed (rootTable_typed accepted.checked) hsubs.left
    have hplaces := fresh.sublist (sublist_cons_self _ _)
    obtain ⟨hcaptured, huncaptured⟩ := forall_mem_cons.mp huncaptured
    rw [Subprogram.captures, ← map_name_varItems] at hcaptured
    have completed := completed_subprogram folding hs
    obtain ⟨cs, known', σ', hcs, kept, _⟩ := lowerConsts_kept completed
      (opened_typed htyped s.heading) hsubs.split.consts (accepted.ranged.2 s hmem).consts
      (hplaces.sublist (sublist_append_left _ _))
      (unchanged_of_not_captured completed hcaptured) (recorded_opened recorded before s.heading)
    obtain ⟨routine, hroutine, hlower⟩ := lowerSubprogram_eq folding accepted hs
    -- What the subprogram puts on record stands at other places than the constants of the program.
    have recorded' : ∀ i ∈ rootItems p, i.kind = .const → Constants.Records known' σ i :=
      fun i hi hk =>
        (recorded i hi hk).lowerConsts (hplaces.sublist (sublist_append_left _ _)) hcs
    have hs' : p.subprograms = (before ++ [s]) ++ after := by rw [hs, append_assoc]; rfl
    obtain ⟨rs, hrs, hkept⟩ := ih hs' recorded' (hplaces.lowerConsts hcs) huncaptured
    refine ⟨routine cs :: rs, lowerSubprograms_cons.mpr ⟨routine cs, known', rs, ?_, hrs, rfl⟩,
      ⟨σ', ?_⟩, ?_⟩
    · rw [hlower, hcs]
      rfl
    · rw [hroutine]
      exact kept
    · rw [tableAfter, foldl_append] at hkept
      exact hkept

theorem names_subprogram (hs : SubprogramChecked 0 t s) : ((headItems s.heading).map Item.name ++
      (s.body.consts.map ConstDecl.name ++
        (s.body.vars.flatMap varItems).map Item.name)).Nodup := by
  have hnames := hs.names
  rwa [subprogramItems, append_assoc, map_append, map_append,
    map_name_constItems] at hnames

theorem named_opened (hs : SubprogramChecked 0 t s) {n : String}
    (hn : n ∈ s.body.consts.map ConstDecl.name ++ (s.body.vars.flatMap varItems).map Item.name) :
    (opened 0 t s.heading).named t.blocks.length n = [] := by
  obtain ⟨_, _, hdisjoint⟩ := nodup_append.mp (names_subprogram hs)
  have hblock : (opened 0 t s.heading).blocks[t.blocks.length]? =
      some ⟨s.heading.name, some 0, headItems s.heading⟩ := getElem?_concat_length
  rw [Table.named, hblock]
  refine filter_eq_nil_iff.mpr fun i hi hname => ?_
  exact hdisjoint i.name (mem_map_of_mem hi) n hn (beq_iff_eq.mp hname)

theorem not_captured_of_kept (accepted : Accepted p) (hs : p.subprograms = before ++ after)
    (fresh : Fresh known (after.flatMap Subprogram.places))
    (hrs : lowerSubprograms (Env.ofProgram p folding) known after = .ok rs)
    (kept : RoutinesKept (finished p) σ (tableAfter p before) after rs) :
    ∀ s ∈ after, s.captures = false := by
  induction after generalizing before known rs with
  | nil => exact forall_mem_nil _
  | cons s after ih =>
    have hmem : s ∈ p.subprograms := hs ▸ mem_append_right _ mem_cons_self
    have hsubs : SubprogramsChecked 0 (rootTable p) (before ++ s :: after) :=
      hs ▸ accepted.checked.subprograms
    have hplaces := fresh.sublist (sublist_cons_self _ _)
    obtain ⟨routine, hroutine, hlower⟩ := lowerSubprogram_eq folding accepted hs
    obtain ⟨r, known', rest, hr, hrest, rfl⟩ := lowerSubprograms_cons.mp hrs
    obtain ⟨⟨σ', hkept⟩, kept⟩ := kept
    rw [hlower] at hr
    obtain ⟨⟨cs, known'⟩, hcs, hr⟩ := Except.bind_eq_ok.mp hr
    cases hr
    rw [hroutine] at hkept
    have hs' : p.subprograms = (before ++ [s]) ++ after := by rw [hs, append_assoc]; rfl
    refine forall_mem_cons.mpr ⟨?_, ih hs' (hplaces.lowerConsts hcs) hrest ?_⟩
    · by_contra hcaptured
      rw [Bool.not_eq_false, Subprogram.captures, ← map_name_varItems] at hcaptured
      refine not_kept_of_captured (completed_subprogram folding hs) ?_ ?_ ?_
        (hplaces.sublist (sublist_append_left _ _)) hcaptured hcs hkept
      · exact fun i hi => kind_of_mem_varItems hi
      · exact (nodup_append.mp (names_subprogram hsubs.split)).2.1
      · exact fun n hn => named_opened hsubs.split hn
    · rw [tableAfter, foldl_append]
      exact kept

theorem outermost_kept (folding : Bool) (accepted : Accepted p)
    (fresh : Fresh [] (p.body.consts.map ConstDecl.position)) (σ : Run.Store) :
    ∃ cs known σ', lowerConsts (Env.ofProgram p folding) [] p.body.consts = .ok (cs, known) ∧
      Kept (finished p) 0 (started p) σ p.body.consts cs σ' ∧
      ∀ i ∈ rootItems p, i.kind = .const → known.Records σ' i := by
  have completed := completed_outermost p folding
  have hempty : Recorded [] σ (started p) 0 := by
    intro i hv
    cases visible_root rfl hv
  have houter : (started p).ancestors 0 = [0] := by simp [Table.ancestors, started]
  obtain ⟨cs, known, σ', hcs, kept, recorded⟩ := lowerConsts_kept completed (started_typed p)
    accepted.checked.consts accepted.ranged.1.consts fresh
    (unchanged_outermost completed houter) hempty
  refine ⟨cs, known, σ', hcs, kept, fun i hi hk => recorded i ?_ hk⟩
  have hconst : i ∈ constItems (started p) 0 p.body.consts := by
    rcases mem_append.mp hi with hi | hi
    · rcases mem_append.mp hi with hi | hi
      · exact hi
      · rw [kind_of_mem_varItems hi] at hk
        cases hk
    · obtain ⟨s, _, rfl⟩ := mem_map.mp hi
      cases hk
  exact ⟨0, Table.mem_ancestors_self _ _, _, rfl, hconst⟩

/-- The constants of an accepted source are lowered and kept exactly if none is captured. -/
theorem lower_keeps_constants_iff {source : String} {p : MiniPascal.Program}
    (hparse : parse (scan source) = .ok (p, [])) (hclean : (analyze p).isClean = true)
    (level : Nat) (σ : Run.Store) :
    (∃ target, lower p (analyze p).table (foldsAt level) = .ok target ∧
      KeepsConstants (analyze p).table σ p target) ↔ p.captures = false := by
  obtain ⟨accepted, htable⟩ := accepted_of_source hparse hclean
  rw [htable]
  have fresh : Fresh [] (p.body.consts.map ConstDecl.position ++
      p.subprograms.flatMap Subprogram.places) :=
    ⟨(List.nodup_cons.mp accepted.places).2, fun _ _ => rfl⟩
  obtain ⟨assemble, hassemble, hlower⟩ := lower_eq (foldsAt level) accepted
  obtain ⟨cs, known, σ', hcs, kept, recorded⟩ := outermost_kept (foldsAt level) accepted
    (fresh.sublist (List.sublist_append_left _ _)) σ
  have hlower : lower p (finished p) (foldsAt level) =
      lowerSubprograms (Env.ofProgram p (foldsAt level)) known p.subprograms >>= fun rs =>
        pure (assemble cs rs) := by
    rw [hlower, hcs]
    rfl
  have hall : p.subprograms = [] ++ p.subprograms := rfl
  rw [hlower, Program.captures, List.any_eq_false]
  constructor
  · rintro ⟨target, htarget, σ', _, hroutines⟩
    obtain ⟨rs, hrs, htarget⟩ := Except.bind_eq_ok.mp htarget
    cases htarget
    rw [(hassemble cs rs).2] at hroutines
    have huncaptured := not_captured_of_kept accepted hall (fresh.lowerConsts hcs) hrs
      hroutines
    exact fun s hs => Bool.eq_false_iff.mp (huncaptured s hs)
  · intro huncaptured
    obtain ⟨rs, hrs, hroutines⟩ := lowerSubprograms_kept (foldsAt level) accepted hall recorded
      (fresh.lowerConsts hcs) fun s hs => Bool.eq_false_iff.mpr (huncaptured s hs)
    refine ⟨assemble cs rs, Except.bind_eq_ok.mpr ⟨rs, hrs, rfl⟩, σ', ?_, ?_⟩
    · rw [(hassemble cs rs).1]
      exact kept
    · rw [(hassemble cs rs).2]
      exact hroutines

/-- Constants that name others, in the program and in a function that hides one of them first. -/
def hiddenFirst : String := "program p; const n = 3; m = n; r = -2.5;
  function f: integer; const n = -7; k = n; l = m; var v: integer; begin f := k + l end;
  begin writeln(f, m, r) end."

set_option maxRecDepth 2000 in
theorem sample_constants_kept : ∃ p : MiniPascal.Program,
    parse (scan hiddenFirst) = .ok (p, []) ∧ (analyze p).isClean = true ∧ p.captures = false ∧
      ∀ σ, ∃ target, lower p (analyze p).table (foldsAt 1) = .ok target ∧
        KeepsConstants (analyze p).table σ p target := by
  obtain ⟨p, hp, hclean, htest⟩ :=
    of_acceptedWith hiddenFirst (fun p => p.captures == false)
      (acceptedWith_of_chars rfl (by decide +kernel))
  have hcaptures := beq_iff_eq.mp htest
  exact ⟨p, hp, hclean, hcaptures, fun σ =>
    (lower_keeps_constants_iff hp hclean 1 σ).mpr hcaptures⟩

/-- A constant of the program is named in a procedure that hides it afterwards. -/
def hiddenLater : String :=
  "program p; const b = 1; procedure q; const a = b; b = 2; begin end; begin end."

/-- A source that is accepted, but in which a name is looked up in vain when its constant is
lowered. -/
theorem captured_constant_unresolved : ∃ p : MiniPascal.Program,
    parse (scan hiddenLater) = .ok (p, []) ∧ (analyze p).isClean = true ∧
      ∀ level, lower p (analyze p).table (foldsAt level) = .error ⟨.unresolved "b", ⟨1, 48⟩⟩ := by
  obtain ⟨p, hp, hclean, htest⟩ := of_acceptedWith hiddenLater
    (fun p => [true, false].all fun folding =>
      (fun _ => ()) <$> lower p (analyze p).table folding = .error ⟨.unresolved "b", ⟨1, 48⟩⟩)
    (acceptedWith_of_chars rfl (by decide +kernel))
  refine ⟨p, hp, hclean, fun level => ?_⟩
  have hlevel := of_decide_eq_true
    (List.all_eq_true.mp htest (foldsAt level) (by cases foldsAt level <;> decide))
  cases hlower : lower p (analyze p).table (foldsAt level) with
  | ok target =>
    rw [hlower] at hlevel
    cases hlevel
  | error e =>
    rw [hlower] at hlevel
    cases hlevel
    rfl

end

end C

end MiniPascal
