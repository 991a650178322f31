import MiniPascal.Proofs.Nesting
import MiniPascal.Proofs.PlainLowering

/-!
# Results of functions and leaving early

What is lowered inside of a function has no other variable for a result than that of this function.
So a function is left with its own result, a procedure without any, and only `main` ends the
program.
-/

namespace MiniPascal.C

open Scope Analysis
open List

namespace Env

variable (env : Env)

/-- A variable is no result, or it is that of the function around. -/
def Own (v : Var) : Prop := v.isResult = true → ∃ h, env.function = some h ∧ resultVar env h = .ok v

def OwnExpr (e : Expr) : Prop := ∀ v, Use.var v ∈ e.uses → env.Own v

/-- How a statement may leave where it stands: a function with its result, a procedure without one,
and the program by its end. -/
def Leaves : Statement → Prop
  | .leave (some v) => ∃ h, env.function = some h ∧ resultVar env h = .ok v
  | .leave none => ∃ h, env.subprogram = some h ∧ h.returns = none
  | .exit => env.subprogram = none
  | _ => True

end Env

/-! ## Statements -/

section

variable {env : Env}

theorem emitting_own : Emitting env fun _ u => ∀ v, u = .var v → env.Own v where
  place {p name item v} _ hv w heq := by
    cases heq
    intro hresult
    unfold placeVar at hv
    split at hv
    · split at hv
      · next h hf => exact ⟨h, hf, hv⟩
      · cases hv
    · cases hv
      cases hresult
  counter _ w heq := by
    cases heq
    exact fun hresult => absurd hresult Bool.false_ne_true
  result hf _ hv w heq := by
    cases heq
    exact fun _ => ⟨_, hf, hv⟩
  call _ _ _ _ w heq := by cases heq

theorem lowerExpr_own {e : MiniPascal.Expr} {c : Expr} (h : lowerExpr env e = .ok c) :
    env.OwnExpr c := by
  intro v hv
  obtain ⟨_, _, hown⟩ := exists_left_of_mem (convert_emits emitting_own _ c h) hv
  exact hown v rfl

variable {ss : List MiniPascal.Statement} {cs : List Statement}

/-- Leaving is the end of the program outside of subprograms, and inside it depends on the head. -/
theorem leaves_of_leaving {c : Statement} (h : leaving env = .ok c) : env.Leaves c := by
  unfold leaving at h
  split at h
  · next hs =>
    cases h
    exact hs
  · next f hs =>
    split at h
    · next hreturns =>
      obtain ⟨v, hv, h⟩ := Except.bind_eq_ok.mp h
      cases h
      exact ⟨f, by simp [Env.function, hs, functionOf, hreturns], hv⟩
    · next hreturns =>
      cases h
      exact ⟨f, hs, Option.not_isSome_iff_eq_none.mp hreturns⟩

theorem lowerStatements_own (h : lowerStatements env ss = .ok cs) :
    (∀ v, Use.var v ∈ Statement.usesAll cs → env.Own v) ∧
      ∀ x ∈ Statement.nestedAll cs, env.Leaves x := by
  constructor
  · intro v hv
    obtain ⟨_, _, hown⟩ := exists_left_of_mem (lowerStatements_emits emitting_own ss cs h) hv
    exact hown v rfl
  · intro x hx
    have hnested := nestedAll_lowered (lowerStatements_induct nested_lowered ss cs h)
    obtain ⟨s, _, hs⟩ := exists_left_of_mem hnested hx
    obtain ⟨_, hs⟩ := exists_loweredBy hs
    cases hs with
    | assign | print | scan | call | compound | ifThen | ifThenElse | count | loop => trivial
    | exit hleaving | leave hleaving => exact leaves_of_leaving hleaving

end

/-! ## Constants -/

/-- The constant that the value of a constant is the name of. -/
def takenOver? (t : Table) (block : Nat) (d : ConstDecl) : Option Item :=
  match d.value with
  | .name _ name =>
    match t.resolve block name with
    | .ok item => if item.kind = .const then some item else none
    | .error _ => none
  | _ => none

variable {t : Table} {d : ConstDecl} {block : Nat} {item : Item}

theorem takenOver?_eq_some : takenOver? t block d = some item ↔ ∃ p name, d.value = .name p name ∧
      t.resolve block name = .ok item ∧ item.kind = .const := by
  constructor
  · intro h
    unfold takenOver? at h
    split at h
    · next p name hvalue =>
      split at h
      · next hresolve =>
        split at h
        · next hkind =>
          cases h
          exact ⟨p, name, hvalue, hresolve, hkind⟩
        · cases h
      · cases h
    · cases h
  · rintro ⟨p, name, hvalue, hresolve, hkind⟩
    unfold takenOver?
    rw [hvalue]
    dsimp only
    rw [hresolve]
    exact if_pos hkind

/-- The constants whose values the constants of a subprogram take over. -/
def takenOver (t : Table) (s : Subprogram) : List Item :=
  match t.blockAt? s.heading.position with
  | some block => s.body.consts.filterMap (takenOver? t block)
  | none => []

/-- No subprogram takes over a constant at one of the given places, nor at the place of a constant
of a subprogram before it. -/
def Confined (t : Table) : List Position → List Subprogram → Prop
  | _, [] => True
  | places, s :: ss => (∀ item ∈ takenOver t s, item.position ∉ places) ∧
      Confined t (places ++ s.body.consts.map ConstDecl.position) ss

def NoResults (e : Expr) : Prop := ∀ v, Use.var v ∈ e.uses → v.isResult = false

theorem blockAt?_of_blockFor {name : String} {p : Position} (h : blockFor t name p = .ok block) :
    t.blockAt? p = some block := by
  unfold blockFor at h
  split at h
  · next hblock =>
    cases h
    exact hblock
  · cases h

theorem mem_takenOver {s : Subprogram} (hblock : t.blockAt? s.heading.position = some block)
    (hd : d ∈ s.body.consts) (h : takenOver? t block d = some item) : item ∈ takenOver t s := by
  rw [takenOver, hblock]
  exact mem_filterMap.mpr ⟨d, hd, h⟩

section

variable {env : Env} {known : Constants} {places : List Position} {e : Expr}

theorem NoResults.own (h : NoResults e) : env.OwnExpr e := fun v hv hresult =>
  absurd ((h v hv).symm.trans hresult) Bool.false_ne_true

theorem noResults_of_own (hf : env.function = none) (h : env.OwnExpr e) : NoResults e := by
  intro v hv
  refine Bool.eq_false_iff.mpr fun hresult => ?_
  obtain ⟨_, hsome, _⟩ := h v hv hresult
  rw [hf] at hsome
  cases hsome

variable {ds : List ConstDecl}

/-- What constants take over is their own or stands at certain places. If it does not stand there,
their values are their own. -/
theorem gives_own_lowerConsts (hknown : ∀ entry ∈ known, env.OwnExpr entry.2 ∨ entry.1 ∈ places)
    (htaken : ∀ d ∈ ds, ∀ item, takenOver? env.table env.block d = some item →
      item.position ∉ places) :
    Gives (lowerConsts env known ds) fun r => (∀ c ∈ r.1, env.OwnExpr c.value) ∧
      ∀ entry ∈ r.2, env.OwnExpr entry.2 ∨ entry.1 ∈ places := by
  induction ds generalizing known with
  | nil => exact .pure ⟨forall_mem_nil _, hknown⟩
  | cons d ds ih =>
    rintro ⟨cs, known'⟩ hcs
    obtain ⟨hd, hds⟩ := forall_mem_cons.mp htaken
    obtain ⟨value, type, rest, hvalue, _, hrest, rfl⟩ := lowerConsts_cons.mp hcs
    have hown : env.OwnExpr value := by
      rcases constantValue_cases hvalue with ⟨p, n, item, hname, hn, hk, hlookup⟩ | hlowered
      · have htakes := takenOver?_eq_some.mpr ⟨p, n, hname, hn, hk⟩
        exact (hknown _ (mem_of_lookup hlookup)).resolve_right (hd item htakes)
      · exact lowerExpr_own hlowered
    obtain ⟨hconstants, hafter⟩ := ih (forall_mem_cons.mpr ⟨.inl hown, hknown⟩) hds _ hrest
    exact ⟨forall_mem_cons.mpr ⟨hown, hconstants⟩, hafter⟩

theorem lowerConsts_places : Gives (lowerConsts env known ds) fun r =>
    ∀ entry ∈ r.2, entry ∈ known ∨ entry.1 ∈ ds.map ConstDecl.position := by
  induction ds generalizing known with
  | nil => exact .pure fun _ => .inl
  | cons d ds ih =>
    rintro ⟨cs, known'⟩ hcs
    obtain ⟨value, type, rest, _, _, hrest, rfl⟩ := lowerConsts_cons.mp hcs
    intro entry hentry
    rcases ih _ hrest entry hentry with hentry | hentry
    · rcases mem_cons.mp hentry with rfl | hentry
      · exact .inr mem_cons_self
      · exact .inl hentry
    · exact .inr (mem_cons_of_mem _ hentry)

end

/-! ## Programs -/

def Routine.Owns (r : Routine) (v : Var) : Prop :=
  ∃ result, r.result = some result ∧ v = { name := result.name, isResult := true }

section

variable {outer : Env} {s : Subprogram} {r : Routine} {block : Nat}

theorem owns_of_resultVar {env : Env} (hof : RoutineOf env s r)
    (hs : env.subprogram = some s.heading)
    {h : Heading} (hf : env.function = some h) {v : Var} (hv : resultVar env h = .ok v) :
    r.Owns v := by
  have hfunction : functionOf s.heading = some h := by rw [← hf, Env.function, hs]; rfl
  unfold functionOf at hfunction
  split at hfunction
  · next hreturns =>
    cases hfunction
    obtain ⟨type, htype⟩ := Option.isSome_iff_exists.mp hreturns
    refine ⟨_, hof.result_eq htype hv, ?_⟩
    unfold resultVar at hv
    split at hv
    · cases hv
      rfl
    · cases hv
  · cases hfunction

theorem result_eq_none {env : Env} (hof : RoutineOf env s r) (hreturns : s.heading.returns = none) :
    r.result = none := by
  have hresult := hof.result
  rw [result, hreturns] at hresult
  exact (Except.ok.inj hresult).symm

/-- The statements of a routine leave it with its own result or, where it has none, without one.
They use no other result and do not end the program. -/
structure Routine.Keeps (r : Routine) : Prop where
  leavesWith : ∀ v, Statement.leave (some v) ∈ Statement.nestedAll r.body.statements → r.Owns v
  leavesPlain : Statement.leave none ∈ Statement.nestedAll r.body.statements → r.result = none
  noExit : Statement.exit ∉ Statement.nestedAll r.body.statements
  uses : ∀ v, Use.var v ∈ Statement.usesAll r.body.statements → v.isResult = true → r.Owns v

theorem RoutineFrom.keeps (h : RoutineFrom outer s r) : r.Keeps := by
  obtain ⟨block, hof⟩ := h.lowered
  obtain ⟨huses, hleaves⟩ := lowerStatements_own hof.statements
  constructor
  · intro v hv
    obtain ⟨h, hf, hresult⟩ := hleaves _ hv
    exact owns_of_resultVar hof rfl hf hresult
  · intro hv
    obtain ⟨h, hs, hreturns⟩ := hleaves _ hv
    cases hs
    exact result_eq_none hof hreturns
  · intro hv
    cases hleaves _ hv
  · intro v hv hresult
    obtain ⟨h, hf, hv⟩ := huses v hv hresult
    exact owns_of_resultVar hof rfl hf hv

/-- If no subprogram takes over what another one has declared, the values of constants use no other
result than that of their routine. -/
theorem lowerSubprograms_constants {known : Constants} {places : List Position}
    {ss : List Subprogram} {rs : List Routine}
    (hknown : ∀ entry ∈ known, NoResults entry.2 ∨ entry.1 ∈ places)
    (hconfined : Confined outer.table places ss) (h : lowerSubprograms outer known ss = .ok rs) :
    ∀ r ∈ rs, ∀ c ∈ r.body.declarations.constants,
      ∀ v, Use.var v ∈ c.value.uses → v.isResult = true → r.Owns v := by
  induction ss generalizing known places rs with
  | nil =>
    cases h
    exact forall_mem_nil _
  | cons s ss ih =>
    obtain ⟨hone, hrest⟩ := hconfined
    obtain ⟨r, known', rest, hr, hlower, rfl⟩ := lowerSubprograms_cons.mp h
    obtain ⟨block, hblock, hof, hdeclarations⟩ := lowerSubprogram_eq_ok hr
    have hconsts := lowerDeclarations_consts hdeclarations
    have htaken : ∀ d ∈ s.body.consts, ∀ item, takenOver? outer.table block d = some item →
        item.position ∉ places := fun d hd item hitem =>
      hone item (mem_takenOver (blockAt?_of_blockFor hblock) hd hitem)
    obtain ⟨hown, _⟩ := gives_own_lowerConsts
      (fun entry hentry => (hknown entry hentry).imp_left NoResults.own) htaken _ hconsts
    refine forall_mem_cons.mpr ⟨fun c hc v hv hresult => ?_, ih ?_ hrest hlower⟩
    · obtain ⟨h, hf, hv⟩ := hown c hc v hv hresult
      exact owns_of_resultVar hof rfl hf hv
    · intro entry hentry
      rcases lowerConsts_places _ hconsts entry hentry with hentry | hentry
      · exact (hknown entry hentry).imp_right (mem_append_left _)
      · exact .inr (mem_append_right _ hentry)

end

mutual

theorem endsProgram_iff : ∀ s : MiniPascal.Statement,
    endsProgram s = true ↔ ∃ p, .exit p ∈ s.nested
  | .assign .. | .call .. => by simp [endsProgram, MiniPascal.Statement.nested]
  | .exit p => by simp [endsProgram, MiniPascal.Statement.nested]
  | .compound _ parts => by
    simp [endsProgram, MiniPascal.Statement.nested, anyEndsProgram_iff parts]
  | .branch _ _ onTrue none => by
    simp [endsProgram, MiniPascal.Statement.nested, endsProgram_iff onTrue]
  | .branch _ _ onTrue (some onFalse) => by
    simp [endsProgram, MiniPascal.Statement.nested, endsProgram_iff onTrue, endsProgram_iff onFalse,
      exists_or]
  | .count _ _ _ _ _ body | .loop _ _ body => by
    simp [endsProgram, MiniPascal.Statement.nested, endsProgram_iff body]

theorem anyEndsProgram_iff : ∀ ss : List MiniPascal.Statement,
    anyEndsProgram ss = true ↔ ∃ p, .exit p ∈ MiniPascal.Statement.nestedAll ss
  | [] => by simp [anyEndsProgram, MiniPascal.Statement.nestedAll]
  | s :: ss => by
    simp [anyEndsProgram, MiniPascal.Statement.nestedAll, endsProgram_iff s, anyEndsProgram_iff ss,
      exists_or]

end

/-- Outside of subprograms, what ends the program is noted exactly if it is written. -/
theorem anyEndsProgram_lowered {env : Env} (houtside : env.subprogram = none)
    {ss : List MiniPascal.Statement} {cs : List Statement} (h : lowerStatements env ss = .ok cs) :
    anyEndsProgram ss = true ↔ Statement.exit ∈ Statement.nestedAll cs := by
  have hnested := nestedAll_lowered (lowerStatements_induct nested_lowered ss cs h)
  rw [anyEndsProgram_iff]
  constructor
  · rintro ⟨p, hp⟩
    obtain ⟨c, hc, hlowered⟩ := exists_left_of_mem hnested.flip hp
    have hexit : c = .exit := by
      rw [lowerStatement, leaving, houtside] at hlowered
      exact (Except.ok.inj hlowered).symm
    exact hexit ▸ hc
  · intro hexit
    obtain ⟨s, hs, hlowered⟩ := exists_left_of_mem hnested hexit
    obtain ⟨_, hby⟩ := exists_loweredBy hlowered
    cases hby with
    | exit => exact ⟨_, hs⟩

/-! ## Accepted programs -/

section

variable {p : MiniPascal.Program} {before after : List Subprogram} {s : Subprogram} {item : Item}

theorem position_of_takenOver (accepted : Accepted p) (hs : p.subprograms = before ++ s :: after)
    (h : item ∈ takenOver (finished p) s) : item.position ∈ p.body.consts.map ConstDecl.position ∨
      item.position ∈ s.body.consts.map ConstDecl.position := by
  have hblock := blockAt?_of_blockFor (blockFor_heading accepted.heads hs)
  rw [takenOver, hblock] at h
  obtain ⟨d, _, h⟩ := mem_filterMap.mp h
  obtain ⟨_, name, _, hresolve, hkind⟩ := takenOver?_eq_some.mp h
  have hplace : (finished p).findPlace? (tableAfter p before).blocks.length name = some item := by
    rcases Table.resolve_ok hresolve with ⟨hroutine, _⟩ | ⟨_, hplace⟩
    · cases hkind.symm.trans hroutine
    · exact hplace
  rcases visible_subprogram (finished_root p) (getElem?_finished hs)
    (Table.findPlace?_visible hplace) with hi | hi
  · right
    rcases mem_subprogramItems.mp hi with hi | hi | hi | hi
    · cases (kind_of_mem_paramItems hi).symm.trans hkind
    · obtain ⟨type, _, rfl⟩ := mem_map.mp hi
      cases hkind
    · exact map_position_constItems _ _ _ ▸ mem_map_of_mem hi
    · cases (kind_of_mem_varItems hi).symm.trans hkind
  · left
    rcases mem_rootItems.mp hi with hi | hi | ⟨s, _, rfl⟩
    · exact map_position_constItems _ _ _ ▸ mem_map_of_mem hi
    · cases (kind_of_mem_varItems hi).symm.trans hkind
    · cases hkind

/-- In an accepted program no subprogram takes over a constant of another one. -/
theorem confined_of_accepted (accepted : Accepted p) (hs : p.subprograms = before ++ after) :
    Confined (finished p) (before.flatMap fun s => s.body.consts.map ConstDecl.position) after := by
  induction after generalizing before with
  | nil => trivial
  | cons s after ih =>
    refine ⟨fun item hitem hbefore => ?_, ?_⟩
    · have hplaces := accepted.places
      rw [MiniPascal.Program.places, hs, flatMap_append, flatMap_cons] at hplaces
      obtain ⟨_, hrest, hroot⟩ := nodup_append.mp (nodup_cons.mp hplaces).2
      obtain ⟨_, _, hlater⟩ := nodup_append.mp hrest
      have hearlier : item.position ∈ before.flatMap Subprogram.places := by
        obtain ⟨r, hr, hmem⟩ := mem_flatMap.mp hbefore
        exact mem_flatMap.mpr ⟨r, hr, mem_cons_of_mem _ hmem⟩
      rcases position_of_takenOver accepted hs hitem with hmem | hmem
      · exact hroot _ hmem _ (mem_append_left _ hearlier) rfl
      · exact hlater _ hearlier _ (mem_append_left _ (mem_cons_of_mem _ hmem)) rfl
    · have hs' : p.subprograms = (before ++ [s]) ++ after := by rw [hs, append_assoc]; rfl
      have hrest := ih hs'
      rwa [flatMap_append, flatMap_singleton] at hrest

end

/-- A routine is left with its own result or, if it has none, without one, and it uses no other
result in its statements. Only `main` ends the program, and there are no results outside of
routines. The values of constants use no other result either, if no subprogram takes over a constant
of another one, as is so in an accepted source. -/
theorem results_own {p : MiniPascal.Program} {t : Table} {folding : Bool} {q : Program}
    (h : lower p t folding = .ok q) :
    (∀ r ∈ q.routines, r.Keeps) ∧
    (∀ result, Statement.leave result ∉ Statement.nestedAll q.main.statements) ∧
    (q.usesExit = true ↔ Statement.exit ∈ Statement.nestedAll q.main.statements) ∧
    (∀ v, Use.var v ∈ Statement.usesAll q.main.statements → v.isResult = false) ∧
    (∀ c ∈ q.globals.constants ++ q.main.declarations.constants, NoResults c.value) ∧
    (Confined t [] p.subprograms → ∀ r ∈ q.routines, ∀ c ∈ r.body.declarations.constants,
      ∀ v, Use.var v ∈ c.value.uses → v.isResult = true → r.Owns v) ∧
    ∀ source, parse (scan source) = .ok (p, []) → (analyze p).isClean = true →
      Confined (analyze p).table [] p.subprograms := by
  obtain ⟨env, henv, together⟩ := lower_putTogether h
  obtain ⟨block, _, henv⟩ := Except.bind_eq_ok.mp henv
  cases henv
  obtain ⟨known, hdeclarations, hroutines⟩ := together.lowered
  obtain ⟨huses, hleaves⟩ := lowerStatements_own together.statements
  obtain ⟨hconstants, hknown⟩ := gives_own_lowerConsts (List.forall_mem_nil _)
    (fun _ _ _ _ => List.not_mem_nil) _ (lowerDeclarations_consts hdeclarations)
  refine ⟨?_, ?_, ?_, ?_, ?_, ?_, ?_⟩
  · intro r hr
    obtain ⟨s, _, hfrom⟩ := exists_left_of_mem (lowerSubprograms_from hroutines) hr
    exact hfrom.keeps
  · intro result hmem
    cases result with
    | none =>
      obtain ⟨_, hs, _⟩ := hleaves _ hmem
      cases hs
    | some v =>
      obtain ⟨_, hf, _⟩ := hleaves _ hmem
      cases hf
  · rw [together.usesExit, anyEndsProgram_lowered rfl together.statements]
  · intro v hv
    refine Bool.eq_false_iff.mpr fun hresult => ?_
    obtain ⟨_, hf, _⟩ := huses v hv hresult
    cases hf
  · exact List.forall_mem_append.mpr (forall_outside together.globals together.locals
      fun c hc => noResults_of_own rfl (hconstants c hc))
  · intro hconfined
    refine lowerSubprograms_constants (fun entry hentry => .inl ?_) hconfined hroutines
    exact noResults_of_own rfl ((hknown entry hentry).resolve_right List.not_mem_nil)
  · intro source hparse hclean
    obtain ⟨accepted, htable⟩ := accepted_of_source hparse hclean
    have hall : p.subprograms = [] ++ p.subprograms := rfl
    exact htable ▸ confined_of_accepted accepted hall

/-- Two functions of one name, a procedure and the program, all of which are left early, and a
constant that is taken over from the program. -/
def leftEarly : String := "program p; const k = 2;
  function f(n: integer): integer; const c = k; begin if n > c then exit; f := n end;
  function f(x: real): real; begin f := x; exit end;
  procedure g; begin exit end;
  begin while true do exit end."

set_option maxRecDepth 2000 in
theorem leftEarly_results_own : ∃ (p : MiniPascal.Program) (q : Program),
    parse (scan leftEarly) = .ok (p, []) ∧ (analyze p).isClean = true ∧
      lower p (analyze p).table false = .ok q ∧
      q.routines.map (fun r => r.result.map Result.name) = [some "ret_f", some "ret_f_", none] ∧
      (∀ r ∈ q.routines, r.Keeps) ∧
      Statement.exit ∈ Statement.nestedAll q.main.statements ∧
      Confined (analyze p).table [] p.subprograms ∧
      ∀ r ∈ q.routines, ∀ c ∈ r.body.declarations.constants,
        ∀ v, Use.var v ∈ c.value.uses → v.isResult = true → r.Owns v := by
  obtain ⟨p, q, hp, hclean, hlower, hexits, hnames⟩ := exists_lowered leftEarly false
    (fun _ q => q.usesExit = true ∧ q.routines.map (fun r => r.result.map Result.name) =
      [some "ret_f", some "ret_f_", none]) rfl (by decide +kernel)
  obtain ⟨hkeeps, _, hexit, _, _, hconstants, hconfined⟩ := results_own hlower
  have hconfined := hconfined _ hp hclean
  exact ⟨p, q, hp, hclean, hlower, hnames, hkeeps, hexit.mp hexits, hconfined,
    hconstants hconfined⟩

def Expr.isResult : Expr → Bool
  | var v => v.isResult
  | _ => false

theorem Expr.uses_of_isResult {e : Expr} (h : e.isResult = true) :
    ∃ v, Use.var v ∈ e.uses ∧ v.isResult = true := by
  cases e with
  | var v => exact ⟨v, mem_cons_self, h⟩
  | int | real | char | string | element | call | binary | unary | cast => cases h

/-- A constant of a function stands at the place of a constant of the program. A procedure that
takes over the latter gets the result of the function. -/
theorem foreign_result_taken_over : ∃ (p : MiniPascal.Program) (q : Program),
    lower p (analyze p).table false = .ok q ∧ ∃ r ∈ q.routines, r.result = none ∧
      ∃ c ∈ r.body.declarations.constants, ∃ v, Use.var v ∈ c.value.uses ∧ v.isResult = true := by
  let body (consts : List ConstDecl) : Body := ⟨consts, [], [], ⟨1, 111⟩⟩
  let f : Subprogram := ⟨⟨"f", [⟨false, ["n"], .integer, ⟨1, 36⟩⟩], some .integer, ⟨1, 25⟩⟩,
    body [⟨"c", .name ⟨1, 68⟩ "f", ⟨1, 18⟩⟩]⟩
  let g : Subprogram := ⟨⟨"g", [], none, ⟨1, 82⟩⟩, body [⟨"d", .name ⟨1, 105⟩ "k", ⟨1, 101⟩⟩]⟩
  let p : MiniPascal.Program := ⟨"p", [], .start, [f, g], body [⟨"k", .int ⟨1, 22⟩ 1, ⟨1, 18⟩⟩]⟩
  have htest : ((lower p (analyze p).table false).toOption.any fun q => q.routines.any fun r =>
      r.result.isNone && r.body.declarations.constants.any fun c => c.value.isResult) = true := by
    decide +kernel
  obtain ⟨q, hlower, hany⟩ := of_lowered htest
  obtain ⟨r, hr, hany⟩ := List.any_eq_true.mp hany
  rw [Bool.and_eq_true] at hany
  obtain ⟨c, hc, hresult⟩ := List.any_eq_true.mp hany.2
  exact ⟨p, q, hlower, r, hr, Option.isNone_iff_eq_none.mp hany.1, c, hc,
    Expr.uses_of_isResult hresult⟩

end MiniPascal.C
