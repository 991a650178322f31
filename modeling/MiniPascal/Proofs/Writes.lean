import MiniPascal.Proofs.Operands
import MiniPascal.Proofs.Scoping

/-!
# What a program in C writes

All that statements in C write is declared: variables, parameters, the result of the function
around, or elements of arrays. The names that are meant here are those of the program in C, before
they are written as identifiers.
-/

namespace MiniPascal.C

open Scope Analysis Typing
open List

/-- The places that a form writes. What a step writes is left to its call. -/
def Form.written : Form → List Expr
  | target c | input c => [c]
  | counter v => [.var v]
  | value _ | step _ _ => []

def Use.references : Use → List Expr
  | var _ => []
  | call _ arguments _ => (arguments.filter Prod.snd).map Prod.fst

def Statement.writes (ss : List Statement) : List Expr :=
  (formsAll ss).flatMap Form.written ++ (usesAll ss).flatMap Use.references

namespace Declaration

def dataName? : Declaration → Option String
  | constant c => some c.name
  | scalar v => some v.name
  | array a => some a.name
  | param v => some v.name
  | result _ | routine _ | main => none

def resultName? : Declaration → Option String
  | result v => some v.name
  | _ => none

/-- Whether a variable has the name of a declaration, as a result or else as data. -/
def answers (v : Var) (d : Declaration) : Bool :=
  (if v.isResult then d.resultName? else d.dataName?) == some v.name

/-- The sort of declaration that is generated from an item. -/
def Holds (item : Item) : Declaration → Prop
  | constant _ => item.kind = .const
  | scalar _ | param _ | result _ => item.type.dims = []
  | array _ => item.type.dims ≠ []
  | routine _ | main => False

end Declaration

/-- What a variable means inside of scopes, on any level. -/
def Var.Means (v : Var) (scopes : List (List Declaration)) (d : Declaration) : Prop :=
  ∃ level, Answered (Declaration.answers v) scopes level d

/-- A place that can be written: a declared variable, a parameter, the result of the function
around, or an element of a declared array. -/
inductive Writable (scopes : List (List Declaration)) : Expr → Prop where
  | scalar {v : Var} {d : Scalar} (means : v.Means scopes (.scalar d)) : Writable scopes (.var v)
  | param {v : Var} {d : Param} (means : v.Means scopes (.param d)) : Writable scopes (.var v)
  | result {v : Var} {d : Result} (means : v.Means scopes (.result d)) : Writable scopes (.var v)
  | element {v : Var} {d : ArrayDecl} {subscripts : List (Expr × Int64)}
      (means : v.Means scopes (.array d)) : Writable scopes (.element v subscripts)

/-- An expression whose text as an address is more than its text: the address is taken, or the
pointer to it is left as it is. -/
def Expr.Addressable (e : Expr) : Prop :=
  e.address e.text = "&" ++ e.text ∨ e.text = "*" ++ e.address e.text

/-- Everything that a program in C writes can be written and has an address. -/
structure WritesDeclared (q : Program) : Prop where
  places : ∀ b ∈ q.parts, ∀ w ∈ Statement.writes b.2, Writable [b.1, q.scope] w ∧ w.Addressable
  constants : ∀ c ∈ q.constants, c.value.uses.flatMap Use.references = []

/-! ## The places of variables -/

/-- A place in C for all of a variable that is a scalar, or for an element of one that is an
array. -/
inductive StandsFor (env : Env) (item : Item) : Expr → Prop where
  | whole {v : Var} (emits : Emits env (.place item) (.var v)) (scalar : item.type.dims = []) :
      StandsFor env item (.var v)
  | element {v : Var} {subscripts : List (Expr × Int64)} (emits : Emits env (.place item) (.var v))
      (array : item.type.dims ≠ []) : StandsFor env item (.element v subscripts)

def Env.Reaches (env : Env) (c : Expr) : Prop :=
  ∃ item, item.isVariable = true ∧ StandsFor env item c

section

variable {env : Env} {c : Expr} {p : Position}

theorem place_standsFor (own : env.OwnResults) {name : String} {item : Item}
    (hn : env.table.findPlace? env.block name = some item) {count : Nat}
    (hcount : count = item.type.dims.length) {indices : Lower (List Expr)}
    (h : place env p name count indices = .ok c) : StandsFor env item c := by
  rw [place, hn] at h
  obtain ⟨v, hv, h⟩ := Except.bind_eq_ok.mp h
  have hemits := placeVar_emits own hn hv
  by_cases hzero : count = 0
  · rw [if_pos hzero] at h
    cases h
    exact .whole hemits (length_eq_zero_iff.mp (hcount.symm.trans hzero))
  · rw [if_neg hzero, if_neg (Nat.not_lt.mpr (Nat.le_of_eq hcount))] at h
    obtain ⟨cs, _, h⟩ := Except.bind_eq_ok.mp h
    cases h
    exact .element hemits fun hdims => hzero (hcount.trans (congrArg List.length hdims))

theorem variable_reaches (own : env.OwnResults) {e : MiniPascal.Expr} (valued : env.Valued e)
    (hvariable : isVariable env.table env.block e = true) (hc : convert env e = .ok c) :
    env.Reaches c := by
  obtain ⟨T, hT, hp⟩ := valued
  cases wellTyped_of_proper hT hp with
  | @name p n item hn =>
    rw [isVariable, hn] at hvariable
    rw [Typing.typeOf, hn] at hT
    rw [← Checked.pure_inj.mp hT] at hp
    refine ⟨item, hvariable, ?_⟩
    rcases Table.resolve_ok hn with ⟨hk, _⟩ | ⟨hk, hplace⟩
    · simp [Item.isVariable, hk] at hvariable
    · rw [convert, hn] at hc
      dsimp only at hc
      rw [if_neg hk] at hc
      exact place_standsFor own hplace (by rw [hp.dims]; rfl) hc
  | @element p n indices item hn hi ht hd te =>
    rw [isVariable, hn] at hvariable
    cases te.symm.trans hT
    exact ⟨item, hvariable, place_standsFor own hn
      (Nat.le_antisymm hd (drop_eq_nil_iff.mp hp.dims)) hc⟩
  | int | real | char | bool | string | call | binary | unary => cases hvariable

theorem isVariable_prepared (e : MiniPascal.Expr) :
    isVariable env.table env.block (env.prepared e) = isVariable env.table env.block e := by
  unfold Env.prepared
  split
  · exact isVariable_fold env.table env.block e
  · rfl

theorem target_reaches (ready : env.Ready) (own : env.OwnResults) {name : String}
    {indices : List MiniPascal.Expr} {T : MiniPascal.Ty}
    (typed : Check.targetType env.context p name indices = pure T) (proper : T.Proper)
    (lowered : target env p name indices = .ok c) : env.Reaches c := by
  cases targeted ready typed lowered with
  | result around _ returns var =>
    exact ⟨_, rfl, .whole (.result around
      (mem_map_of_mem (Option.mem_toList.mpr returns)) var) rfl⟩
  | @data item _ _ found kind _ length lowered =>
    have hplace := Table.findPlace?_of_findData? found
    refine ⟨item, by simp [Item.isVariable, kind], place_standsFor own hplace ?_ lowered⟩
    exact Nat.le_antisymm length (drop_eq_nil_iff.mp proper.dims)

theorem Formed.written_reach (ready : env.Ready) (own : env.OwnResults) {o : Operand} {f : Form}
    (h : Formed env o f) : ∀ w ∈ f.written, env.Reaches w := by
  cases h with
  | value _ _ | step _ _ => exact forall_mem_nil _
  | target typed proper lowered =>
    exact forall_mem_singleton.mpr (target_reaches ready own typed proper lowered)
  | @counter p name item found kind type =>
    refine forall_mem_singleton.mpr ⟨item, by simp [Item.isVariable, kind], .whole ?_ ?_⟩
    · rw [← (Table.findData?_some found).2.1] at found
      exact .data found
    · rw [type]
      rfl
  | input valued place lowered =>
    exact forall_mem_singleton.mpr
      (variable_reaches own valued.prepared ((isVariable_prepared _).trans place) lowered)

theorem Emits.references_reach (own : env.OwnResults) (lawful : env.Lawful) {m : Mention} {u : Use}
    (h : Emits env m u) (hsound : Sound env m) : ∀ w ∈ u.references, env.Reaches w := by
  cases h with
  | data _ | result _ _ _ => exact forall_mem_nil _
  | @call item arguments values routine asValue found named converted =>
    intro w hw
    have hpasses := passes_of_accepts (Table.findRoutine_ok found).2.1 hsound.1
    rw [Use.references, ← map_uncurry_zip_eq_zipWith] at hw
    obtain ⟨_, hpassed, rfl⟩ := mem_map.mp hw
    obtain ⟨hpassed, hreference⟩ := mem_filter.mp hpassed
    obtain ⟨⟨c, param⟩, hzip, rfl⟩ := mem_map.mp hpassed
    obtain ⟨e, he, hc, T, hT, hpass⟩ :=
      exists_source (convertAll_eq_ok.mp converted) hpasses hzip
    have hreference : param.byReference = true := hreference
    rw [if_pos hreference] at hpass
    exact variable_reaches own (valued_of_arguments lawful hsound.1 found e he) hpass.1 hc

end

/-! ## What variables mean -/

section

variable {scope : List Declaration} {v : Var}

theorem filter_answers_eq_nil (hdata : v.isResult = false)
    (h : v.name ∉ scope.filterMap Declaration.dataName?) :
    scope.filter (Declaration.answers v) = [] := by
  refine filter_eq_nil_iff.mpr fun d hd hanswers => h (mem_filterMap.mpr ⟨d, hd, ?_⟩)
  rw [Declaration.answers, hdata] at hanswers
  exact beq_iff_eq.mp hanswers

theorem filter_answers_eq (hdata : v.isResult = false)
    (hnodup : (scope.filterMap Declaration.dataName?).Nodup) {d : Declaration} (hd : d ∈ scope)
    (hname : d.dataName? = some v.name) : scope.filter (Declaration.answers v) = [d] := by
  have hmem : d ∈ scope.filter (Declaration.answers v) := by
    refine mem_filter.mpr ⟨hd, ?_⟩
    rw [Declaration.answers, hdata]
    exact beq_iff_eq.mpr hname
  have hcount : (scope.filter (Declaration.answers v)).length =
      (scope.filterMap Declaration.dataName?).count v.name := by
    rw [← countP_eq_length_filter, count_eq_countP, countP_filterMap]
    refine countP_congr fun d _ => ?_
    rw [Declaration.answers, hdata]
    cases d.dataName? <;> simp
  have hone : (scope.filter (Declaration.answers v)).length = 1 := by
    have hpos := length_pos_of_mem hmem
    have hle := nodup_iff_count_le_one.mp hnodup v.name
    omega
  obtain ⟨e, he⟩ := length_eq_one_iff.mp hone
  rw [he, mem_singleton] at hmem
  rw [he, hmem]

end

section

variable {p : MiniPascal.Program} {folding : Bool} {q : Program} {item : Item}

theorem data_of_declares {d : Declaration} (h : d.Declares p q item) (hdata : item.isData = true)
    (hparam : ∀ v, d = .param v → item.type.dims = []) :
    d.dataName? = some item.name ∧ d.Holds item := by
  cases d with
  | constant c => exact ⟨congrArg some h.2, h.1⟩
  | scalar v | array a => exact ⟨congrArg some h.2.2, h.2.1⟩
  | param v => exact ⟨congrArg some h.2.1, hparam v rfl⟩
  | result v =>
    rw [Item.isData, show item.kind = .result from h] at hdata
    cases hdata
  | routine r =>
    obtain ⟨s, _, rfl⟩ := h
    cases hdata
  | main => cases h

theorem filterMap_dataName?_scope (d : Declarations) :
    d.scope.filterMap Declaration.dataName? = d.names := by
  simp [Declarations.scope, Declarations.names, filterMap_append, filterMap_map,
    Function.comp_def, Declaration.dataName?]

theorem filterMap_dataName?_routine (r : Routine) : r.scope.filterMap Declaration.dataName? =
    r.params.map Param.name ++ r.body.declarations.names := by
  simp [Routine.scope, filterMap_dataName?_scope, filterMap_append, filterMap_map,
    Function.comp_def, Declaration.dataName?]

theorem map_name_params (h : Heading) : (C.params h).map Param.name = h.paramNames := by
  simp [C.params, Heading.paramNames, map_flatMap, Function.comp_def]

variable {b : List Declaration × List Statement} {scopes : List (List Declaration)} {s : Subprogram}
  {env : Env} {r : Routine}

theorem RoutineOf.data_perm (h : RoutineOf env s r) :
    (r.scope.filterMap Declaration.dataName?).Perm s.dataNames := by
  rw [filterMap_dataName?_routine, h.params, map_name_params]
  exact h.declarations.names_perm.append_left _

theorem mem_paramItems {t : Table} (hnodup : s.dataNames.Nodup)
    (hi : item ∈ subprogramItems 0 t s) (hdata : item.isData = true)
    (hname : item.name ∈ s.heading.paramNames) : item ∈ s.heading.groups.flatMap paramItems := by
  rcases mem_subprogramItems.mp hi with hi | hi | hi
  · exact hi
  · obtain ⟨type, _, rfl⟩ := mem_map.mp hi
    cases hdata
  · have hbody := mem_map_of_mem (f := Item.name) (mem_append.mpr hi)
    rw [map_append, map_name_constItems, map_name_varItems] at hbody
    exact ((nodup_append'.mp hnodup).2.2 hname hbody).elim

theorem dims_paramItems {h : Heading} (hi : item ∈ h.groups.flatMap paramItems) :
    item.type.dims = [] := by
  obtain ⟨g, _, hi⟩ := mem_flatMap.mp hi
  obtain ⟨_, _, rfl⟩ := mem_map.mp hi
  rfl

section

variable (h : Assembled p folding q) (hnodup : p.body.dataNames.Nodup)
include h hnodup

theorem Assembled.answers_outside (hi : item ∈ rootItems p) (hdata : item.isData = true) :
    ∃ d, q.outside.scope.filter (Declaration.answers (itemVar item)) = [d] ∧ d.Holds item := by
  obtain ⟨d, hd, _, hdeclares⟩ :=
    h.outside.declares (p := p) (q := q) (mem_data_of_rootItems hi hdata)
  have hparam : ∀ v, d = .param v → item.type.dims = [] := by
    rintro v rfl
    simp [Declarations.scope] at hd
  obtain ⟨hname, hholds⟩ := data_of_declares hdeclares hdata hparam
  refine ⟨d, filter_answers_eq rfl ?_ hd hname, hholds⟩
  rw [filterMap_dataName?_scope]
  exact h.outside.names_perm.nodup_iff.mpr hnodup

theorem Assembled.means_file (hne : q.routines ≠ []) (hi : item ∈ rootItems p)
    (hdata : item.isData = true) : ∃ d, (itemVar item).Means [q.scope] d ∧ d.Holds item := by
  have houtside : q.outside = q.globals := if_neg fun he => hne (List.isEmpty_iff.mp he)
  obtain ⟨d, honly, hholds⟩ := h.answers_outside hnodup hi hdata
  refine ⟨d, ⟨_, .here ?_⟩, hholds⟩
  rw [Program.scope, filter_append, filter_append, ← houtside, honly]
  simp [Declaration.answers, Declaration.dataName?, itemVar]

theorem Assembled.means_main (hi : item ∈ rootItems p) (hdata : item.isData = true) :
    ∃ d, (itemVar item).Means [q.main.declarations.scope, q.scope] d ∧ d.Holds item := by
  by_cases hne : q.routines = []
  · have houtside : q.outside = q.main.declarations := if_pos (List.isEmpty_iff.mpr hne)
    obtain ⟨d, honly, hholds⟩ := h.answers_outside hnodup hi hdata
    exact ⟨d, ⟨_, .here (houtside ▸ honly)⟩, hholds⟩
  · obtain ⟨d, ⟨_, hmeans⟩, hholds⟩ := h.means_file hnodup hne hi hdata
    refine ⟨d, ⟨_, .outside ?_ hmeans⟩, hholds⟩
    rw [h.locals hne]
    rfl

end

theorem RoutineOf.means_result (h : RoutineOf env s r) (hi : item ∈ resultItems s.heading)
    {v : Var} (hv : resultVar env s.heading = .ok v) (outer : List (List Declaration)) :
    ∃ d, v.Means (r.scope :: outer) d ∧ d.Holds item := by
  obtain ⟨type, htype, rfl⟩ := mem_map.mp hi
  refine ⟨.result ⟨v.name, .ofScalar type⟩, ⟨_, .here ?_⟩, rfl⟩
  simp [Routine.scope, Declarations.scope, filter_append, filter_map, Function.comp_def,
    Declaration.answers, Declaration.resultName?, (isResult_of_resultVar hv).1,
    h.result_eq (Option.mem_toList.mp htype) hv]

theorem Assembled.means (accepted : Accepted p) (h : Assembled p folding q)
    (hnodup : p.body.dataNames.Nodup) {a : Part} (hpart : PartOf p folding q a b) {v : Var}
    (he : Emits a.env (.place item) (.var v)) : ∃ d, v.Means [b.1, q.scope] d ∧ d.Holds item := by
  cases hpart with
  | main _ =>
    cases he with
    | data found =>
      obtain ⟨hdata, _, hv⟩ := Table.findData?_some found
      exact h.means_main hnodup (visible_root (finished_root p) hv) hdata
    | result around => cases around
  | @routine before after s r split of =>
    cases he with
    | @data item found =>
      obtain ⟨hdata, _, _⟩ := Table.findData?_some found
      have hunique := dataNames_nodup_subprogram accepted split
      rcases findData?_inside split found with ⟨hi, _⟩ | ⟨hi, _, hown⟩
      · obtain ⟨d, hd, _, hdeclares⟩ := of.declares (p := p) (q := q) hi hdata
        have hparam : ∀ x, d = .param x → item.type.dims = [] := by
          rintro x rfl
          have hx : x ∈ r.params := by simpa [Routine.scope, Declarations.scope] using hd
          have hname : x.name ∈ s.heading.paramNames := by
            rw [← map_name_params, ← of.params]
            exact mem_map_of_mem hx
          rw [hdeclares.2.1] at hname
          exact dims_paramItems (mem_paramItems hunique hi hdata hname)
        obtain ⟨hname, hholds⟩ := data_of_declares hdeclares hdata hparam
        exact ⟨d, ⟨_, .here (filter_answers_eq rfl (of.data_perm.nodup_iff.mpr hunique) hd hname)⟩,
          hholds⟩
      · have hne : q.routines ≠ [] := by
          obtain ⟨r, hzip, _⟩ := h.routine_of accepted (s := s)
            (split ▸ mem_append_right _ mem_cons_self)
          exact ne_nil_of_mem (of_mem_zip hzip).2
        obtain ⟨d, ⟨_, hmeans⟩, hholds⟩ := h.means_file hnodup hne hi hdata
        refine ⟨d, ⟨_, .outside (filter_answers_eq_nil rfl ?_) hmeans⟩, hholds⟩
        rw [of.data_perm.mem_iff]
        exact hown
    | result around own named =>
      obtain rfl := function_inside around
      exact of.means_result own named _

theorem writable_of_standsFor {c : Expr} (hvariable : item.isVariable = true)
    (h : StandsFor env item c)
    (hmeans : ∀ v, Emits env (.place item) (.var v) → ∃ d, v.Means scopes d ∧ d.Holds item) :
    Writable scopes c := by
  have hconst : item.kind ≠ .const := by
    intro hk
    rw [Item.isVariable, hk] at hvariable
    cases hvariable
  cases h with
  | whole emits scalar =>
    obtain ⟨d, hd, hholds⟩ := hmeans _ emits
    cases d with
    | constant c => exact (hconst hholds).elim
    | scalar x => exact .scalar hd
    | array a => exact (hholds scalar).elim
    | param x => exact .param hd
    | result x => exact .result hd
    | routine r | main => cases hholds
  | element emits array =>
    obtain ⟨d, hd, hholds⟩ := hmeans _ emits
    cases d with
    | constant c => exact (hconst hholds).elim
    | array a => exact .element hd
    | scalar x | param x | result x => exact (array hholds).elim
    | routine r | main => cases hholds

theorem Writable.addressable {w : Expr} (h : Writable scopes w) : w.Addressable := by
  have hvar : ∀ v : Var, (Expr.var v).Addressable := by
    rintro ⟨name, byReference, isResult⟩
    cases byReference <;> cases isResult <;>
      simp [Expr.Addressable, Expr.address, Expr.text, Var.text]
  cases h with
  | scalar _ | param _ | result _ => exact hvar _
  | element _ => exact .inl rfl

/-- What the statements of a part write reaches variables of the program. -/
theorem PartOf.writes_reach (accepted : Accepted p) {a : Part} (h : PartOf p folding q a b) :
    ∀ w ∈ Statement.writes b.2, a.env.Reaches w := by
  intro w hw
  rcases mem_append.mp hw with hw | hw
  · obtain ⟨f, hf, hw⟩ := mem_flatMap.mp hw
    obtain ⟨o, _, hformed⟩ := exists_left_of_mem (h.formed accepted) hf
    exact hformed.written_reach (h.ready accepted) h.ownResults w hw
  · obtain ⟨u, hu, hw⟩ := mem_flatMap.mp hw
    obtain ⟨m, hm, hemits⟩ := exists_left_of_mem h.emits hu
    exact hemits.references_reach h.ownResults h.lawful (h.sound accepted m hm) w hw

end

/-- In a lowered source all that is written is a declared variable, a parameter, the result of the
function around or an element of a declared array, and has an address. -/
theorem writes_declared {source : String} {p : MiniPascal.Program}
    (hparse : parse (scan source) = .ok (p, [])) (hclean : (analyze p).isClean = true)
    {level : Nat} {q : Program} (hlower : lower p (analyze p).table (foldsAt level) = .ok q) :
    WritesDeclared q := by
  have hnodup := dataNames_nodup (List.isEmpty_iff.mp hclean)
  obtain ⟨accepted, assembled⟩ := assembled_of_source hparse hclean hlower
  constructor
  · intro b hb w hw
    obtain ⟨a, _, hpart⟩ := exists_left_of_mem (assembled.parts accepted) hb
    obtain ⟨item, hvariable, hstands⟩ := hpart.writes_reach accepted w hw
    have hwritable := writable_of_standsFor hvariable hstands fun v =>
      assembled.means accepted hnodup hpart
    exact ⟨hwritable, hwritable.addressable⟩
  · intro c hc
    refine List.flatMap_eq_nil_iff.mpr fun u hu => ?_
    obtain ⟨v, rfl⟩ := assembled.constants_callFree accepted c hc u hu
    rfl

/-- Loops over a reference and over a variable, elements and results that are read and passed on,
and a reference that is passed inside of an index. -/
def writing : String := "program p; const n = 3; var a: array[1..3] of integer; i: integer;
  function f(var x: integer; n: integer): integer; var i: integer;
    begin for x := 1 to n do read(i, f); n := f(x, i); f := f(n, a[f(i, x)]) end;
  procedure g(var y: integer); begin read(a[y], y); y := f(y, n) end;
  begin for i := n downto 1 do g(a[i]); a[f(i, 1)] := f(a[2], n) end."

set_option maxRecDepth 2000 in
theorem writing_writes_declared : ∃ (p : MiniPascal.Program) (q : Program),
    parse (scan writing) = .ok (p, []) ∧ (analyze p).isClean = true ∧
      lower p (analyze p).table (foldsAt 1) = .ok q ∧
      q.parts.map (fun b => (Statement.writes b.2).map fun w => w.address w.text) =
        [["&i", "&a[f(&i, 1) - 1]", "&a[i - 1]", "&i", "&a[1]"],
          ["x", "&i", "&ret_f", "&n", "&ret_f", "x", "&n", "&i"], ["&a[*y - 1]", "y", "y", "y"]] ∧
      WritesDeclared q :=
  exists_lowered_and rfl (by decide +kernel) fun hp hclean hlower =>
    writes_declared hp hclean hlower

end MiniPascal.C
