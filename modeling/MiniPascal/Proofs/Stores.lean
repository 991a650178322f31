import Mathlib.Data.List.Forall2
import MiniPascal.Proofs.Lowering
import MiniPascal.Proofs.Operators

/-!
# Corresponding stores

A store of the source and one of C correspond when each variable that can be named holds in C the
form of what it holds in the source, and each routine returns the form of what it returns.
-/

namespace MiniPascal.Run

open Scope

/-- Everything that can be named holds values of its type, at every index within its bounds. -/
structure Store.Filled (σ : Store) (t : Table) (block : Nat) : Prop where
  contents : ∀ {name item}, t.findPlace? block name = some item →
    Ty.Proper ⟨item.type.base, []⟩ → ∀ indices, indices.length = item.type.dims.length →
      within item.type.dims indices = true → (σ.contents item indices).base = item.type.base

/-- A store in which everything that can be named has the type that it was declared with. -/
structure Store.Typed (σ : Store) (t : Table) (block : Nat) : Prop extends σ.Filled t block where
  result : ∀ {name args item}, t.findRoutine block name args = .ok item → item.type.Proper →
    ∀ actuals d, σ.result item actuals = .ok d → d.base = item.type.base

end MiniPascal.Run

namespace MiniPascal.C

open Scope
open Run (Datum Outcome)
open List
open C.Value (ofDatum)

def size (p : Period) : Int := p.upper.toInt - p.lower.toInt + 1

def offsets (dims : List Period) (indices : List Int) : List Int :=
  dims.zipWith (fun p i => i - p.lower.toInt) indices

def indices (dims : List Period) (offsets : List Int) : List Int :=
  dims.zipWith (fun p o => o + p.lower.toInt) offsets

variable {dims : List Period} {is : List Int}

theorem length_offsets (h : is.length ≤ dims.length) : (offsets dims is).length = is.length := by
  simp [offsets, h]

theorem indices_offsets (h : is.length ≤ dims.length) : indices dims (offsets dims is) = is := by
  induction dims generalizing is with
  | nil =>
    cases is with
    | nil => rfl
    | cons i is => cases h
  | cons p dims ih =>
    cases is with
    | nil => rfl
    | cons i is =>
      change (i - p.lower.toInt + p.lower.toInt) :: indices dims (offsets dims is) = i :: is
      rw [ih (Nat.le_of_succ_le_succ h), Int.sub_add_cancel]

theorem within_offsets (dims : List Period) (is : List Int) :
    within (dims.map size) (offsets dims is) = Run.within dims is := by
  induction dims generalizing is with
  | nil => cases is <;> rfl
  | cons p dims ih =>
    cases is with
    | nil => rfl
    | cons i is =>
      have hone : (decide (0 ≤ i - p.lower.toInt) && decide (i - p.lower.toInt < size p)) =
          (decide (p.lower.toInt ≤ i) && decide (i ≤ p.upper.toInt)) := by
        unfold size
        congr 1 <;> exact decide_eq_decide.mpr (by omega)
      rw [Run.within, ← ih, ← hone]
      rfl

/-- A value back in the source, where its type tells a boolean from a number. -/
def Value.toDatum : MiniPascal.Ty.Base → Value → Datum
  | .bool, .int v => .scalar (.bool (v != 0))
  | _, .int v => .scalar (.int v)
  | _, .double x => .scalar (.real x)
  | _, .char c => .scalar (.char c)
  | _, .string s => .string s

theorem toDatum_ofDatum (d : Datum) : (ofDatum d).toDatum d.base = d := by
  cases d with
  | string s => rfl
  | scalar v =>
    cases v with
    | int x | real x | char x => rfl
    | bool b => cases b <;> rfl

/-- Names in C tell apart what the names of the source tell apart. -/
structure Env.Faithful (env : Env) : Prop extends env.Named where
  distinct : ∀ {a b}, env.table.Visible env.block a → env.table.Visible env.block b →
    a.kind = .routine → b.kind = .routine →
      env.names.routines.lookup a.position = env.names.routines.lookup b.position → a = b
  resultOf : ∀ {item h}, env.table.Visible env.block item → item.kind = .result →
    env.function = some h → item.name = h.name

def Env.varOf (env : Env) (item : Item) : Option Var :=
  if item.kind = .result then do
    let h ← env.function
    let name ← env.names.results.lookup h.position
    return { name, isResult := true }
  else some (itemVar item)

def Env.itemOf? (env : Env) (name : String) (isResult : Bool) : Option Item :=
  if isResult then do env.table.findPlace? env.block (← env.function).name
  else env.table.findPlace? env.block name

def Env.placeOf (env : Env) (p : Run.Place) : Place :=
  ⟨(env.varOf p.item).getD (itemVar p.item), offsets p.item.type.dims p.indices⟩

def Env.actualOf (env : Env) : Run.Actual → Actual
  | .value d => .value (ofDatum d)
  | .place p => .address (env.placeOf p)

def taken (p : Scope.Param) : Ty × Bool :=
  ((Ty.ofBase p.type.base .start).toOption.getD .void, p.byReference)

/-- What a routine can get for a parameter: a value of its type, or a place that can be named. -/
def Env.Passes (env : Env) (p : Scope.Param) : Run.Actual → Prop
  | .value d => p.byReference = false ∧ d.base = p.type.base
  | .place q => p.byReference = true ∧
      env.table.findPlace? env.block q.item.name = some q.item ∧
      q.indices.length ≤ q.item.type.dims.length

structure Holds (σ : Run.Store) (item : Item) (v : Var) (o : Object) : Prop where
  isPointer : o.isPointer = v.byReference
  dims : o.dims = item.type.dims.map size
  contents : ∀ is, is.length = item.type.dims.length → Run.within item.type.dims is = true →
    o.contents (offsets item.type.dims is) = ofDatum (σ.contents item is)

structure Performs (env : Env) (σ : Run.Store) (item : Item) (f : Function) : Prop where
  prototype : f.prototype = item.params.map taken
  result : ∀ actuals, Forall₂ env.Passes item.params actuals →
    f.result (actuals.map env.actualOf) = ofDatum <$> σ.result item actuals

/-- A store of C that corresponds to one of the source, as far as names reach. -/
structure Corresponds (env : Env) (σ : Run.Store) (τ : Store) : Prop where
  place : ∀ {name item v}, env.table.findPlace? env.block name = some item →
    env.varOf item = some v → ∃ o, τ.object v.name v.isResult = some o ∧ Holds σ item v o
  routine : ∀ {name args item routine}, env.table.findRoutine env.block name args = .ok item →
    env.names.routines.lookup item.position = some routine →
      ∃ f, τ.function routine = some f ∧ Performs env σ item f

section Places

variable {env : Env} {σ : Run.Store} {τ : Store} {name : String} {item : Item} {v : Var} {o : Object}

theorem varOf_some (named : env.Named) (h : env.table.findPlace? env.block name = some item) :
    ∃ v, env.varOf item = some v := by
  unfold Env.varOf
  split
  · next hk =>
    obtain ⟨f, hf⟩ := Option.isSome_iff_exists.mp (named.result item (Table.findPlace?_visible h) hk)
    obtain ⟨r, hr⟩ := Option.isSome_iff_exists.mp (named.resultName f hf)
    exact ⟨{ name := r, isResult := true }, by rw [hf]; simp [hr]⟩
  · exact ⟨_, rfl⟩

theorem placeVar_eq (h : env.varOf item = some v) (p : Position) (name : String) :
    placeVar env p item name = .ok v := by
  unfold Env.varOf at h
  unfold placeVar
  split at h
  · next hk =>
    obtain ⟨f, hf, h⟩ := Option.bind_eq_some_iff.mp h
    obtain ⟨r, hr, h⟩ := Option.bind_eq_some_iff.mp h
    cases h
    rw [if_pos hk, hf]
    simp only [resultVar, hr]
  · next hk =>
    cases h
    rw [if_neg hk]

theorem placeOf_eq (h : env.varOf item = some v) (is : List Int) :
    env.placeOf ⟨item, is⟩ = ⟨v, offsets item.type.dims is⟩ := by
  simp [Env.placeOf, h]

theorem objectOf_eq (ho : τ.object v.name v.isResult = some o) (holds : Holds σ item v o) :
    τ.objectOf v = .ok o := by
  rw [Store.objectOf, ho]
  simp only [holds.isPointer, if_true]

theorem located_map (hv : env.varOf item = some v) (ho : τ.object v.name v.isResult = some o)
    (holds : Holds σ item v o) (hlen : is.length ≤ item.type.dims.length) :
    τ.located v (offsets item.type.dims is) = env.placeOf <$> Run.located item is := by
  have hdims : ¬ o.dims.length < (offsets item.type.dims is).length := by
    rw [holds.dims, length_map, length_offsets hlen]
    exact Nat.not_lt.mpr hlen
  rw [Store.located, objectOf_eq ho holds, Run.located, if_neg (Nat.not_lt.mpr hlen)]
  change (if o.dims.length < (offsets item.type.dims is).length then _ else _) = _
  rw [if_neg hdims, holds.dims, within_offsets]
  split
  · exact congrArg Except.ok (placeOf_eq hv is).symm
  · rfl

theorem load_map (hv : env.varOf item = some v) (ho : τ.object v.name v.isResult = some o)
    (holds : Holds σ item v o) (hlen : is.length ≤ item.type.dims.length)
    (hwithin : Run.within item.type.dims is = true) :
    τ.load (env.placeOf ⟨item, is⟩) = ofDatum <$> σ.load ⟨item, is⟩ := by
  rw [placeOf_eq hv, Store.load, objectOf_eq ho holds, Run.Store.load]
  change (if (offsets item.type.dims is).length = o.dims.length then _ else _) = _
  rw [length_offsets hlen, holds.dims, length_map]
  split
  · next heq => exact congrArg Except.ok (holds.contents is heq hwithin)
  · rfl

theorem itemOf?_eq (faithful : env.Faithful) (h : env.table.findPlace? env.block name = some item)
    (hv : env.varOf item = some v) : env.itemOf? v.name v.isResult = some item ∧
      v.byReference = (!v.isResult && item.byReference) := by
  unfold Env.varOf at hv
  unfold Env.itemOf?
  split at hv
  · next hk =>
    obtain ⟨f, hf, hv⟩ := Option.bind_eq_some_iff.mp hv
    obtain ⟨r, hr, hv⟩ := Option.bind_eq_some_iff.mp hv
    cases hv
    have hn := faithful.resultOf (Table.findPlace?_visible h) hk hf
    rw [Table.findPlace?_name h] at hn
    refine ⟨?_, rfl⟩
    rw [if_pos rfl, hf, ← h, hn]
    rfl
  · cases hv
    refine ⟨?_, rfl⟩
    change env.table.findPlace? env.block item.name = some item
    rw [Table.findPlace?_name h, h]

end Places

/-- What is passed in C, back in the source. -/
def Env.sourceOf (env : Env) (p : Scope.Param) : Actual → Outcome Run.Actual
  | .value v => .ok (.value (v.toDatum p.type.base))
  | .address q =>
    match env.itemOf? q.var.name q.var.isResult with
    | some item => .ok (.place ⟨item, indices item.type.dims q.offsets⟩)
    | none => .error .mistyped

def Env.sources (env : Env) : List Scope.Param → List Actual → Outcome (List Run.Actual)
  | [], [] => .ok []
  | p :: ps, a :: as => do
    let a ← env.sourceOf p a
    let as ← env.sources ps as
    return a :: as
  | _, _ => .error .mistyped

def Env.visibleItems (env : Env) : List Item :=
  (env.table.ancestors env.block).flatMap fun b => (env.table.blocks[b]?).elim [] Block.items

def Env.routineOf? (env : Env) (name : String) : Option Item :=
  env.visibleItems.find? fun i =>
    i.kind == .routine && env.names.routines.lookup i.position == some name

def Env.storeOf (env : Env) (σ : Run.Store) : Store where
  object name isResult := (env.itemOf? name isResult).map fun item =>
    { isPointer := !isResult && item.byReference
      dims := item.type.dims.map size
      contents := fun os => ofDatum (σ.contents item (indices item.type.dims os)) }
  function name := (env.routineOf? name).map fun item =>
    { prototype := item.params.map taken
      result := fun as => do ofDatum <$> σ.result item (← env.sources item.params as) }

section StoreOf

variable {env : Env}

theorem mem_visibleItems {item : Item} :
    item ∈ env.visibleItems ↔ env.table.Visible env.block item := by
  simp only [Env.visibleItems, mem_flatMap, Table.Visible]
  refine exists_congr fun b => and_congr_right fun _ => ?_
  cases env.table.blocks[b]? <;> simp

variable (faithful : env.Faithful)

include faithful

theorem sourceOf_actualOf {p : Scope.Param} {a : Run.Actual} (h : env.Passes p a) :
    env.sourceOf p (env.actualOf a) = .ok a := by
  cases a with
  | value d =>
    obtain ⟨_, hd⟩ := h
    rw [Env.actualOf, Env.sourceOf, ← hd, toDatum_ofDatum]
  | place q =>
    obtain ⟨_, hq, hlen⟩ := h
    obtain ⟨v, hv⟩ := varOf_some faithful.toNamed hq
    rw [Env.actualOf, placeOf_eq hv, Env.sourceOf]
    simp only [(itemOf?_eq faithful hq hv).1, indices_offsets hlen]

theorem sources_map {ps : List Scope.Param} {as : List Run.Actual} (h : Forall₂ env.Passes ps as) :
    env.sources ps (as.map env.actualOf) = .ok as := by
  induction h with
  | nil => rfl
  | cons ha _ ih =>
    rw [map_cons, Env.sources, sourceOf_actualOf faithful ha, ih]
    rfl

theorem routineOf?_eq {item : Item} {routine : String} (hv : env.table.Visible env.block item)
    (hk : item.kind = .routine) (hr : env.names.routines.lookup item.position = some routine) :
    env.routineOf? routine = some item := by
  have hsome : (env.routineOf? routine).isSome := by
    rw [Env.routineOf?, find?_isSome]
    exact ⟨item, mem_visibleItems.mpr hv, by simp [hk, hr]⟩
  obtain ⟨i, hi⟩ := Option.isSome_iff_exists.mp hsome
  have hvis := mem_visibleItems.mp (mem_of_find?_eq_some hi)
  have hfound := List.find?_some hi
  simp only [Bool.and_eq_true, beq_iff_eq] at hfound
  rw [hi, faithful.distinct hvis hv hfound.1 hk (hfound.2.trans hr.symm)]

theorem corresponds_storeOf (σ : Run.Store) : Corresponds env σ (env.storeOf σ) where
  place h hv := by
    obtain ⟨hitem, hptr⟩ := itemOf?_eq faithful h hv
    refine ⟨_, congrArg (Option.map _) hitem, hptr.symm, rfl, fun is hlen _ => ?_⟩
    change ofDatum (σ.contents _ (indices _ (offsets _ is))) = _
    rw [indices_offsets (Nat.le_of_eq hlen)]
  routine h hr := by
    obtain ⟨hk, _, _, hv⟩ := Table.findRoutine_ok h
    have hitem := routineOf?_eq faithful hv hk hr
    refine ⟨_, congrArg (Option.map _) hitem, rfl, fun as has => ?_⟩
    change (do ofDatum <$> σ.result _ (← env.sources _ (as.map env.actualOf))) = _
    rw [sources_map faithful has]
    rfl

end StoreOf

end MiniPascal.C
