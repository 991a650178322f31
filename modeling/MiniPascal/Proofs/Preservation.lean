import MiniPascal.Proofs.Agreement
import MiniPascal.Proofs.Stores

/-!
# Lowering keeps the value

The form in C of an expression evaluates, in a store that corresponds, to the form of its value, and
fails in the same way. Beside the value, the induction carries the place of a variable, which is
what a call by reference passes.
-/

namespace MiniPascal.Run

open Scope Typing List

variable {q : Place} {is : List Int} {n : String} {d : Datum} {item : Item} {name : String}

theorem located_eq_ok (h : located item is = .ok q) :
    is.length ≤ item.type.dims.length ∧ within item.type.dims is = true ∧ q = ⟨item, is⟩ := by
  unfold located at h
  split at h
  · cases h
  · next hlen =>
    split at h
    · next hw =>
      cases h
      exact ⟨Nat.not_lt.mp hlen, hw, rfl⟩
    · cases h

variable {t : Table} {block : Nat} {σ : Store}

theorem namedPlace_eq_ok (h : namedPlace t block name = .ok q) :
    ∃ item, t.findPlace? block name = some item ∧ located item [] = .ok q := by
  obtain ⟨item, hitem, h⟩ := Except.bind_eq_ok.mp h
  unfold named at hitem
  split at hitem
  · next i hi =>
    cases hitem
    rcases Table.resolve_ok hi with ⟨hk, _⟩ | ⟨hk, hp⟩
    · rw [if_pos hk] at h
      cases h
    · rw [if_neg hk] at h
      exact ⟨item, hp, h⟩
  · cases hitem

theorem elementPlace_eq_ok {is : Outcome (List Int)} (h : elementPlace t block name is = .ok q) :
    ∃ item l, t.findPlace? block name = some item ∧ is = .ok l ∧ located item l = .ok q := by
  unfold elementPlace at h
  split at h
  · next item hitem =>
    obtain ⟨l, hl, h⟩ := Except.bind_eq_ok.mp h
    exact ⟨item, l, hitem, hl, h⟩
  · cases h

theorem evalPlace_named {e : Expr} (h : evalPlace t block σ e = .ok q) :
    t.findPlace? block q.item.name = some q.item ∧ q.indices.length ≤ q.item.type.dims.length := by
  have hplace : ∃ name item l, t.findPlace? block name = some item ∧ located item l = .ok q := by
    cases e with
    | name p n =>
      obtain ⟨item, hp, h⟩ := namedPlace_eq_ok h
      exact ⟨n, item, [], hp, h⟩
    | element p n indices =>
      obtain ⟨item, l, hp, _, h⟩ := elementPlace_eq_ok h
      exact ⟨n, item, l, hp, h⟩
    | int | real | char | bool | string | call | binary | unary => cases h
  obtain ⟨name, item, l, hp, h⟩ := hplace
  obtain ⟨hlen, _, rfl⟩ := located_eq_ok h
  exact ⟨by rw [Table.findPlace?_name hp, hp], hlen⟩

theorem load_base (typed : σ.Typed t block) (hp : t.findPlace? block name = some item)
    (hT : Ty.Proper ⟨item.type.base, []⟩) (hq : located item is = .ok q) (hd : σ.load q = .ok d) :
    d.base = item.type.base := by
  obtain ⟨_, hw, rfl⟩ := located_eq_ok hq
  unfold Store.load at hd
  split at hd
  · next hlen =>
    cases hd
    exact typed.contents hp hT is hlen hw
  · cases hd

theorem typeOf_name {p : Position} (h : t.resolve block n = .ok item) :
    typeOf t block (.name p n) = pure item.type := by
  rw [typeOf, h]

theorem called_eq {arguments : List Expr} (hb : (Builtin.visible? t block n).isSome = false)
    (hn : t.findRoutine block n (arguments.map (argument t block)) = .ok item) :
    called t block n arguments = .ok item := by
  rw [called, hb, value_argumentsOf, hn]
  rfl

theorem length_evalIndices {es : List Expr} {l : List Int} (h : evalIndices t block σ es = .ok l) :
    l.length = es.length := by
  induction es generalizing l with
  | nil =>
    cases h
    rfl
  | cons e es ih =>
    obtain ⟨d, _, i, _, h⟩ := Except.bind₂_eq_ok.mp h
    obtain ⟨is, his, h⟩ := Except.bind_eq_ok.mp h
    cases h
    rw [length_cons, ih his, length_cons]

def evalActual (t : Table) (block : Nat) (σ : Store) (e : Expr) (p : Param) : Outcome Actual :=
  if p.byReference then Actual.place <$> evalPlace t block σ e
  else (fun d => Actual.value (stored p.type.base d)) <$> eval t block σ e

theorem evalActuals_cons (e : Expr) (es : List Expr) (p : Param) (ps : List Param) :
    evalActuals t block σ (e :: es) (p :: ps) = (do
      let a ← evalActual t block σ e p
      let as ← evalActuals t block σ es ps
      return a :: as) := by
  rw [evalActuals, evalActual]
  split <;> rfl

theorem eval_base (typed : σ.Typed t block) {e : Expr} (he : WellTyped t block e) {T : Ty}
    (hT : typeOf t block e = pure T) (hp : T.Proper) (hd : eval t block σ e = .ok d) :
    d.base = T.base := by
  induction he generalizing T d with
  | int p v | real p v | char p v | bool p v | string p v =>
    rw [← Checked.pure_inj.mp hT]
    cases hd
    rfl
  | @name p n item hn =>
    cases (typeOf_name hn).symm.trans hT
    rw [eval, named, hn] at hd
    change (if item.kind = .routine then _ else _) = _ at hd
    rcases Table.resolve_ok hn with ⟨hk, hr⟩ | ⟨hk, hplace⟩
    · rw [if_pos hk] at hd
      exact typed.result hr hp [] d hd
    · rw [if_neg hk] at hd
      obtain ⟨q, hq, hd⟩ := Except.bind_eq_ok.mp hd
      exact load_base typed hplace ⟨rfl, hp.not_void, hp.not_error⟩ hq hd
  | @element p n indices item hn _ _ _ te _ =>
    cases te.symm.trans hT
    obtain ⟨q, hq, hd⟩ := Except.bind_eq_ok.mp hd
    obtain ⟨i, l, hi, _, hq⟩ := elementPlace_eq_ok hq
    obtain rfl := Option.some.inj (hn.symm.trans hi)
    exact load_base typed hn ⟨rfl, hp.not_void, hp.not_error⟩ hq hd
  | @call p n arguments item hb _ _ hn te _ =>
    cases te.symm.trans hT
    obtain ⟨i, hi, hd⟩ := Except.bind_eq_ok.mp hd
    obtain rfl := Except.ok.inj ((called_eq hb hn).symm.trans hi)
    obtain ⟨as, _, hd⟩ := Except.bind_eq_ok.mp hd
    exact typed.result hn hp as d hd
  | binary p _ _ tl tr hop ihl ihr =>
    obtain ⟨hA, hB, _⟩ := Ty.binary?_proper hop
    rw [typeOf, tl, tr] at hT
    -- The rule and the checker give the operation the same type.
    obtain rfl : _ = T := Option.some.inj (hop.symm.trans (binary_eq_pure hT hp.isError))
    obtain ⟨a, ha, hd⟩ := Except.bind_eq_ok.mp hd
    exact combine_base hop (ihl tl hA ha) (fun d hd => ihr tr hB hd) hd
  | unary p _ te hop ih =>
    obtain ⟨hA, _⟩ := Ty.unary?_proper hop
    rw [typeOf, te] at hT
    obtain rfl : _ = T := Option.some.inj (hop.symm.trans (unary_eq_pure hT hp.isError))
    obtain ⟨a, ha, hd⟩ := Except.bind_eq_ok.mp hd
    exact unary_base hop (ih te hA ha) hd

end MiniPascal.Run

namespace MiniPascal.C

open List

def Expr.evalActual (τ : Store) (e : Expr) (param : Ty × Bool) : Run.Outcome Actual :=
  if param.2 then Actual.address <$> e.evalAddress τ
  else do Actual.value <$> (← e.eval τ).convert param.1

theorem Expr.evalActuals_cons (τ : Store) (e : Expr) (rest : List (Expr × Bool)) (param : Ty × Bool)
    (params : List (Ty × Bool)) : evalActuals τ ((e, param.2) :: rest) (param :: params) = (do
      let a ← e.evalActual τ param
      let as ← evalActuals τ rest params
      return a :: as) := by
  rw [evalActuals, if_neg (not_not.mpr rfl), evalActual]
  split
  · rfl
  · rw [bind_assoc]

open Scope Typing
open Run (Datum Outcome)
open C.Value (ofDatum)

section

variable {env : Env} {σ : Run.Store} {τ : Store}

/-- The form in C of an expression has its value and, if it is a variable, its place. -/
structure Preserved (env : Env) (σ : Run.Store) (τ : Store) (e : MiniPascal.Expr) (c : Expr) :
    Prop where
  value : ∀ {T}, Typing.typeOf env.table env.block e = pure T → T.Proper →
    c.eval τ = ofDatum <$> Run.eval env.table env.block σ e
  address : isVariable env.table env.block e = true →
    c.evalAddress τ = env.placeOf <$> Run.evalPlace env.table env.block σ e

variable {es : List MiniPascal.Expr} {cs : List Expr} {e : MiniPascal.Expr} {c : Expr}
  {p : Scope.Param}

theorem Preserved.of_value (hvariable : isVariable env.table env.block e = false)
    (value : ∀ {T}, Typing.typeOf env.table env.block e = pure T → T.Proper →
      c.eval τ = ofDatum <$> Run.eval env.table env.block σ e) : Preserved env σ τ e c :=
  ⟨value, fun h => (Bool.false_ne_true (hvariable.symm.trans h)).elim⟩

def IndexPreserved (env : Env) (σ : Run.Store) (τ : Store) (e : MiniPascal.Expr) (c : Expr) : Prop :=
  c.eval τ = ofDatum <$> Run.eval env.table env.block σ e ∧
    ∀ d, Run.eval env.table env.block σ e = .ok d → d.base = .int

theorem evalOffset_map (h : IndexPreserved env σ τ e c) (folding : Bool) (period : Period) :
    Expr.evalOffset τ (subscript folding c period) = (· - period.lower.toInt) <$>
        (do Run.index (← Run.eval env.table env.block σ e) : Outcome Int) := by
  obtain ⟨hc, hint⟩ := h
  rw [evalOffset_subscript, Expr.evalOffset, hc]
  cases he : Run.eval env.table env.block σ e with
  | error f => rfl
  | ok d =>
    have hd := hint d he
    cases d with
    | string s => cases hd
    | scalar v =>
      cases v with
      | int i => rfl
      | real x | char x | bool x => cases hd

theorem evalOffsets_cons (s : Expr × Int64) (rest : List (Expr × Int64)) :
    Expr.evalOffsets τ (s :: rest) = (do
      let i ← Expr.evalOffset τ s
      let is ← Expr.evalOffsets τ rest
      return i :: is) := by
  obtain ⟨e, l⟩ := s
  simp only [Expr.evalOffsets, Expr.evalOffset, bind_assoc]

theorem evalOffsets_map (h : Forall₂ (IndexPreserved env σ τ) es cs) {dims : List Period}
    (hlen : es.length ≤ dims.length) (folding : Bool) :
    Expr.evalOffsets τ (cs.zipWith (subscript folding) dims) =
      offsets dims <$> Run.evalIndices env.table env.block σ es := by
  induction h generalizing dims with
  | nil => cases dims <;> rfl
  | @cons e c es cs hec _ ih =>
    cases dims with
    | nil => cases hlen
    | cons p dims =>
      rw [zipWith_cons_cons, evalOffsets_cons, evalOffset_map hec,
        ih (Nat.le_of_succ_le_succ hlen), Run.evalIndices, ← bind_assoc]
      generalize (do Run.index (← Run.eval env.table env.block σ e) : Outcome Int) = x
      generalize Run.evalIndices env.table env.block σ es = xs
      cases x with
      | error f => rfl
      | ok i => cases xs <;> rfl

variable {item : Item} {name : String}

theorem located_preserved (corresponds : Corresponds env σ τ) {v : Var}
    (hp : env.table.findPlace? env.block name = some item) (hv : env.varOf item = some v)
    {is : Outcome (List Int)} (hlen : ∀ l, is = .ok l → l.length ≤ item.type.dims.length) :
    (do τ.located v (← offsets item.type.dims <$> is)) =
        env.placeOf <$> (do Run.located item (← is)) ∧
      (do τ.load (← τ.located v (← offsets item.type.dims <$> is))) =
        ofDatum <$> (do σ.load (← Run.located item (← is))) := by
  obtain ⟨o, ho, holds⟩ := corresponds.place hp hv
  cases is with
  | error f => exact ⟨rfl, rfl⟩
  | ok l =>
    have hloc := located_map hv ho holds (hlen l rfl)
    refine ⟨hloc, ?_⟩
    change (do τ.load (← τ.located v (offsets item.type.dims l))) =
      ofDatum <$> (do σ.load (← Run.located item l))
    rw [hloc]
    cases hq : Run.located item l with
    | error f => rfl
    | ok q =>
      obtain ⟨hlen, hw, rfl⟩ := Run.located_eq_ok hq
      exact load_map hv ho holds hlen hw

theorem place_eq {v : Var} (hp : env.table.findPlace? env.block name = some item)
    (hv : env.varOf item = some v) (p : Position) {count : Nat}
    (hcount : count ≤ item.type.dims.length) (cs : List Expr) : place env p name count (.ok cs) =
      .ok (if count = 0 then .var v else
        .element v (cs.zipWith (subscript env.folding) item.type.dims)) := by
  rw [place, hp]
  simp only [placeVar_eq hv]
  change (if count = 0 then _ else if item.type.dims.length < count then _ else _) = _
  rw [if_neg (Nat.not_lt.mpr hcount)]
  split <;> rfl

theorem place_preserved (named : env.Named) (corresponds : Corresponds env σ τ)
    (hp : env.table.findPlace? env.block name = some item)
    (h : Forall₂ (IndexPreserved env σ τ) es cs) (hlen : es.length ≤ item.type.dims.length)
    (p : Position) : ∃ c, place env p name es.length (.ok cs) = .ok c ∧
      c.evalAddress τ = env.placeOf <$>
        (do Run.located item (← Run.evalIndices env.table env.block σ es)) ∧ c.eval τ = ofDatum <$>
        (do σ.load (← Run.located item (← Run.evalIndices env.table env.block σ es))) := by
  obtain ⟨v, hv⟩ := varOf_some named hp
  have hshort : ∀ l, Run.evalIndices env.table env.block σ es = .ok l →
      l.length ≤ item.type.dims.length := fun l hl => (Run.length_evalIndices hl).symm ▸ hlen
  have hboth := located_preserved corresponds hp hv hshort
  rw [← evalOffsets_map h hlen env.folding] at hboth
  refine ⟨_, place_eq hp hv p hlen cs, ?_⟩
  cases h with
  | nil => exact hboth
  | cons _ _ => exact hboth

theorem convertAll_preserved (h : ∀ e ∈ es, ∃ c, convert env e = .ok c ∧ Preserved env σ τ e c) :
    ∃ cs, convertAll env es = .ok cs ∧ Forall₂ (Preserved env σ τ) es cs := by
  induction es with
  | nil => exact ⟨[], rfl, .nil⟩
  | cons e es ih =>
    obtain ⟨⟨c, hc, hec⟩, hes⟩ := forall_mem_cons.mp h
    obtain ⟨cs, hcs, hescs⟩ := ih hes
    refine ⟨c :: cs, ?_, .cons hec hescs⟩
    rw [convertAll, hc, hcs]
    rfl

theorem convert_stored {T : MiniPascal.Ty} {d : Datum}
    (h : MiniPascal.Ty.assignable p.type T = true) (hd : d.base = T.base) :
    (ofDatum d).convert (taken p).1 = .ok (ofDatum (Run.stored p.type.base d)) ∧
      (Run.stored p.type.base d).base = p.type.base := by
  obtain ⟨hp, hT⟩ := MiniPascal.Ty.assignable_proper h
  rw [hp.eq, hT.eq, ← hd] at h
  rw [taken]
  generalize p.type.base = b at h ⊢
  cases d with
  | string s => cases b <;> first | (cases h; done) | exact ⟨rfl, rfl⟩
  | scalar v =>
    cases v with
    | int x | real x | char x | bool x =>
      cases b <;> first | (cases h; done) | exact ⟨rfl, rfl⟩

section

variable (typed : σ.Typed env.table env.block)

include typed

theorem argument_preserved (hacc : p.accepts (argument env.table env.block e) = true)
    (he : WellTyped env.table env.block e)
    (te : Typing.typeOf env.table env.block e = pure (Typing.typeOf env.table env.block e).value)
    (h : Preserved env σ τ e c) :
    c.evalActual τ (taken p) = env.actualOf <$> Run.evalActual env.table env.block σ e p ∧
      ∀ a, Run.evalActual env.table env.block σ e p = .ok a → env.Passes p a := by
  unfold Expr.evalActual Run.evalActual
  unfold Param.accepts at hacc
  split at hacc
  · next href =>
    simp only [Bool.and_eq_true] at hacc
    simp only [taken, href, if_true, h.address hacc.1]
    cases hq : Run.evalPlace env.table env.block σ e with
    | error f => exact ⟨rfl, nofun⟩
    | ok q =>
      refine ⟨rfl, fun a ha => ?_⟩
      cases ha
      exact ⟨href, Run.evalPlace_named hq⟩
  · next href =>
    obtain ⟨_, hT⟩ := MiniPascal.Ty.assignable_proper hacc
    rw [if_neg href, if_neg (show ¬ (taken p).2 = true from href), h.value te hT]
    cases hd : Run.eval env.table env.block σ e with
    | error f => exact ⟨rfl, nofun⟩
    | ok d =>
      obtain ⟨hconvert, hbase⟩ := convert_stored hacc (Run.eval_base typed he te hT hd)
      refine ⟨?_, fun a ha => ?_⟩
      · change Actual.value <$> (ofDatum d).convert (taken p).1 = _
        rw [hconvert]
        rfl
      · cases ha
        exact ⟨Bool.eq_false_iff.mpr href, hbase⟩

theorem evalActuals_map {ps : List Scope.Param}
    (hacc : Forall₂ (fun p e => Param.accepts p (argument env.table env.block e) = true) ps es)
    (he : ∀ e ∈ es, WellTyped env.table env.block e)
    (te : ∀ e ∈ es, Typing.typeOf env.table env.block e =
      pure (Typing.typeOf env.table env.block e).value) (h : Forall₂ (Preserved env σ τ) es cs) :
    Expr.evalActuals τ (cs.zipWith (fun c p => (c, p.byReference)) ps) (ps.map taken) =
        List.map env.actualOf <$> Run.evalActuals env.table env.block σ es ps ∧
      ∀ as, Run.evalActuals env.table env.block σ es ps = .ok as → Forall₂ env.Passes ps as := by
  induction hacc generalizing cs with
  | nil =>
    cases h
    refine ⟨rfl, fun as has => ?_⟩
    cases has
    exact .nil
  | @cons p e ps es hpe _ ih =>
    cases h with
    | @cons _ c _ cs hec hescs =>
      obtain ⟨hw, hws⟩ := forall_mem_cons.mp he
      obtain ⟨hte, htes⟩ := forall_mem_cons.mp te
      obtain ⟨hone, hpasses⟩ := argument_preserved typed hpe hw hte hec
      obtain ⟨hrest, hall⟩ := ih hws htes hescs
      rw [zipWith_cons_cons, map_cons, Run.evalActuals_cons]
      constructor
      · refine (Expr.evalActuals_cons τ c _ (taken p) _).trans ?_
        rw [hone, hrest]
        cases Run.evalActual env.table env.block σ e p with
        | error f => rfl
        | ok a => cases Run.evalActuals env.table env.block σ es ps <;> rfl
      · intro as has
        obtain ⟨a, ha, as, htail, has⟩ := Except.bind₂_eq_ok.mp has
        cases has
        exact .cons (hpasses a ha) (hall as htail)

theorem indices_preserved (h : Forall₂ (Preserved env σ τ) es cs)
    (he : ∀ e ∈ es, WellTyped env.table env.block e)
    (te : ∀ e ∈ es, Typing.typeOf env.table env.block e = pure .int) :
    Forall₂ (IndexPreserved env σ τ) es cs := by
  induction h with
  | nil => exact .nil
  | cons hec _ ih =>
    obtain ⟨hw, hws⟩ := forall_mem_cons.mp he
    obtain ⟨hte, htes⟩ := forall_mem_cons.mp te
    exact .cons ⟨hec.value hte .int, fun d hd => Run.eval_base typed hw hte .int hd⟩ (ih hws htes)

theorem call_preserved (corresponds : Corresponds env σ τ) {n routine : String}
    (hn : env.table.findRoutine env.block n (es.map (argument env.table env.block)) = .ok item)
    (hr : env.names.routines.lookup item.position = some routine)
    (he : ∀ e ∈ es, WellTyped env.table env.block e)
    (te : ∀ e ∈ es, Typing.typeOf env.table env.block e =
      pure (Typing.typeOf env.table env.block e).value) (h : Forall₂ (Preserved env σ τ) es cs) :
    (Expr.call routine (cs.zipWith (fun c p => (c, p.byReference)) item.params)).eval τ =
      ofDatum <$> (do σ.result item (← Run.evalActuals env.table env.block σ es item.params)) := by
  obtain ⟨f, hf, performs⟩ := corresponds.routine hn hr
  obtain ⟨hlen, hacc⟩ := Item.accepts_iff.mp (Table.findRoutine_ok hn).2.1
  have hacc := forall₂_map_right_iff.mp
    (forall₂_iff_zip.mpr ⟨hlen, fun {p a} hpa => hacc (p, a) hpa⟩)
  obtain ⟨hactuals, hpasses⟩ := evalActuals_map typed hacc he te h
  rw [Expr.eval, hf]
  simp only [performs.prototype, hactuals]
  cases has : Run.evalActuals env.table env.block σ es item.params with
  | error e => rfl
  | ok as => exact performs.result as (hpasses as has)

end

theorem eval_widened (wide : Bool) (c : Expr) :
    (if wide then Expr.cast .double c else c).eval τ = (do widened wide (← c.eval τ)) := by
  cases wide with
  | true => rfl
  | false => exact (bind_pure (c.eval τ)).symm

/-- A well-typed expression has a form in C that has its value and its place. -/
theorem convert_preserved (named : env.Named) (typed : σ.Typed env.table env.block)
    (corresponds : Corresponds env σ τ) (he : WellTyped env.table env.block e) :
    ∃ c, convert env e = .ok c ∧ Preserved env σ τ e c := by
  induction he with
  | int p v | real p v | char p v | bool p v | string p v =>
    exact ⟨_, rfl, .of_value rfl fun _ _ => rfl⟩
  | @name p n item hn =>
    -- A bare name is a call without arguments or a place.
    rcases Table.resolve_ok hn with ⟨hk, hr⟩ | ⟨hk, hp⟩
    · obtain ⟨routine, hroutine⟩ := Option.isSome_iff_exists.mp
        (named.routine item (Table.resolve_visible hn) hk)
      refine ⟨.call routine [], ?_, fun _ _ => ?_, fun h => ?_⟩
      · rw [convert, hn]
        simp only [hk, if_true, routineName, hroutine]
        rfl
      · have hcall : env.table.findRoutine env.block n
            (List.map (argument env.table env.block) []) = .ok item := hr
        refine (call_preserved typed corresponds hcall hroutine (forall_mem_nil _)
          (forall_mem_nil _) .nil).trans ?_
        have hparams : item.params = [] :=
          length_eq_zero_iff.mp (Item.accepts_iff.mp (Table.findRoutine_ok hr).2.1).1
        rw [Run.eval, Run.named, hn, hparams]
        exact congrArg (ofDatum <$> ·) (if_pos hk).symm
      · rw [isVariable, hn] at h
        simp [Item.isVariable, hk] at h
    · obtain ⟨c, hc, haddress, hvalue⟩ :=
        place_preserved named corresponds hp .nil (Nat.zero_le _) p
      refine ⟨c, ?_, fun _ _ => hvalue.trans ?_, fun _ => haddress.trans ?_⟩
      · rw [convert, hn]
        exact (if_neg hk).trans hc
      · rw [Run.eval, Run.named, hn]
        exact congrArg (ofDatum <$> ·) (if_neg hk).symm
      · rw [Run.evalPlace, Run.namedPlace, Run.named, hn]
        exact congrArg (env.placeOf <$> ·) (if_neg hk).symm
  | @element p n indices item hn hi ht hd te ih =>
    obtain ⟨cs, hcs, hall⟩ := convertAll_preserved ih
    obtain ⟨c, hc, haddress, hvalue⟩ :=
      place_preserved named corresponds hn (indices_preserved typed hall hi ht) hd p
    refine ⟨c, ?_, fun _ _ => ?_, fun _ => ?_⟩
    · rw [convert, hcs, hc]
    · rw [Run.eval, Run.elementPlace, hn]
      simp only [bind_assoc]
      exact hvalue
    · rw [Run.evalPlace, Run.elementPlace, hn]
      exact haddress
  | @call p n arguments item hb ha ta hn te ih =>
    obtain ⟨cs, hcs, hall⟩ := convertAll_preserved ih
    obtain ⟨hk, _, _, hvis⟩ := Table.findRoutine_ok hn
    obtain ⟨routine, hroutine⟩ := Option.isSome_iff_exists.mp (named.routine item hvis hk)
    refine ⟨_, ?_, .of_value rfl fun _ _ =>
      (call_preserved typed corresponds hn hroutine ha ta hall).trans ?_⟩
    · rw [convert, Env.builtin?, hb, if_neg Bool.false_ne_true, Env.arguments, value_argumentsOf,
        callOf, hn, hcs]
      simp only [routineName, hroutine]
      rfl
    · rw [Run.eval, Run.called_eq hb hn]
      rfl
  | @binary p op l r A B T hl hr tl tr hop ihl ihr =>
    obtain ⟨c, hc, hcl⟩ := ihl
    obtain ⟨d, hd, hdr⟩ := ihr
    obtain ⟨hA, hB, _⟩ := MiniPascal.Ty.binary?_proper hop
    have hwide : widening op (env.typeOf l) (env.typeOf r) = widening op A B := by
      rw [Env.typeOf, Env.typeOf, tl, tr]
      rfl
    refine ⟨_, by rw [convert_binary, hc, hd]; rfl, .of_value rfl fun _ _ => ?_⟩
    rw [Expr.eval, eval_widened, hcl.value tl hA, hdr.value tr hB, hwide, Run.eval]
    cases ha : Run.eval env.table env.block σ l with
    | error f => rfl
    | ok a =>
      exact combine_map hop (Run.eval_base typed hl tl hA ha)
        fun b hb => Run.eval_base typed hr tr hB hb
  | @unary p op e A T he te hop ih =>
    obtain ⟨c, hc, hce⟩ := ih
    obtain ⟨hA, _⟩ := MiniPascal.Ty.unary?_proper hop
    refine ⟨Expr.prefixed op c, by rw [convert_unary, hc]; rfl, .of_value rfl fun _ _ => ?_⟩
    rw [Expr.eval_prefixed, hce.value te hA, Run.eval]
    cases ha : Run.eval env.table env.block σ e with
    | error f => rfl
    | ok a => exact unary_map hop (Run.eval_base typed he te hA ha)

/-- Lowering preserves the value of an expression: in every store that corresponds, its form in C
has the value that it has in the source, or fails as it does. There is such a store if names in C
tell apart what those of the source do. -/
theorem convert_preserves_value (named : env.Named) (typed : σ.Typed env.table env.block)
    {e : MiniPascal.Expr} {T : MiniPascal.Ty}
    (he : Typing.typeOf env.table env.block e = pure T) (hT : T.Proper) :
    (∃ c, convert env e = .ok c ∧ ∀ τ, Corresponds env σ τ →
      c.eval τ = ofDatum <$> Run.eval env.table env.block σ e) ∧
    (env.Faithful → Corresponds env σ (env.storeOf σ)) := by
  have hw := wellTyped_of_proper he hT
  obtain ⟨c, hc⟩ := convert_succeeds named hw
  refine ⟨⟨c, hc, fun τ corresponds => ?_⟩, fun faithful => corresponds_storeOf faithful σ⟩
  obtain ⟨d, hd, preserved⟩ := convert_preserved named typed corresponds hw
  rw [hc] at hd
  cases hd
  exact preserved.value he hT

end

/-- Inside a function `f` of a real and a reference to an integer, with `i` for the reference. An
array `a` around it starts at two. -/
def functionEnv : Env where
  table := ⟨[⟨"p", none,
      [{ name := "a", type := ⟨.int, [⟨2, 4⟩]⟩, kind := .var, position := ⟨1, 5⟩ },
        { name := "f", type := .int, kind := .routine, params := [⟨.real, false⟩, ⟨.int, true⟩],
          position := ⟨2, 1⟩ }]⟩,
    ⟨"f", some 0,
      [{ name := "i", type := .int, kind := .var, byReference := true, position := ⟨2, 9⟩ },
        { name := "f", type := .int, kind := .result, position := ⟨2, 1⟩ }]⟩], []⟩
  names := ⟨[(⟨2, 1⟩, "f_1")], [(⟨2, 1⟩, "ret_f")]⟩
  folding := true
  block := 1
  subprogram := some { name := "f", groups := [], returns := some .integer, position := ⟨2, 1⟩ }

def indicesOf : Run.Actual → List Int
  | .value _ => []
  | .place q => q.indices

/-- Every element holds two more than its index, and `f` answers the index of what it refers to. -/
def functionStore : Run.Store where
  contents _ is := .scalar (.int (.ofInt (2 + is.headD 0)))
  result _ actuals := .ok (.scalar (.int (.ofInt ((actuals.flatMap indicesOf).headD 0))))

/-- The expression `a[i + 1] * 10 + f(a[2], a[i]) - f`. -/
def functionExpr : MiniPascal.Expr :=
  let p := Position.start
  let element (index : MiniPascal.Expr) : MiniPascal.Expr := .element p "a" [index]
  .binary p .sub
    (.binary p .add
      (.binary p .mul (element (.binary p .add (.name p "i") (.int p 1))) (.int p 10))
      (.call p "f" [element (.int p 2), element (.name p "i")]))
    (.name p "f")

theorem functionEnv_faithful : functionEnv.Faithful := by
  have hroutine : ∀ a ∈ functionEnv.visibleItems, a.kind = .routine →
      (functionEnv.names.routines.lookup a.position).isSome ∧
        ∀ b ∈ functionEnv.visibleItems, b.kind = .routine → a = b := by decide +kernel
  have hresult : ∀ a ∈ functionEnv.visibleItems, a.kind = .result → a.name = "f" := by
    decide +kernel
  refine ⟨⟨?_, fun _ _ _ => rfl, ?_⟩, ?_, ?_⟩
  · exact fun item hv hk => (hroutine item (mem_visibleItems.mpr hv) hk).1
  · rintro h ⟨⟩
    rfl
  · exact fun ha hb ka kb _ => (hroutine _ (mem_visibleItems.mpr ha) ka).2 _
      (mem_visibleItems.mpr hb) kb
  · rintro item h hv hk ⟨⟩
    exact hresult item (mem_visibleItems.mpr hv) hk

theorem functionStore_typed : functionStore.Typed functionEnv.table functionEnv.block := by
  have hint : ∀ item ∈ functionEnv.visibleItems, item.type.base = .int := by decide +kernel
  refine ⟨⟨?_⟩, ?_⟩
  · intro name item hp _ is _ _
    exact (hint item (mem_visibleItems.mpr (Table.findPlace?_visible hp))).symm
  · intro name args item hr _ actuals d hd
    rw [hint item (mem_visibleItems.mpr (Table.findRoutine_ok hr).2.2.2)]
    cases hd
    rfl

/-- The element is found at offset one, the real parameter gets a converted integer, and the bare
name means the result. -/
theorem functionExpr_preserves_value : ∃ c, convert functionEnv functionExpr = .ok c ∧
    c.eval (functionEnv.storeOf functionStore) = .ok (.int 50) := by
  have hclean : (Typing.typeOf functionEnv.table functionEnv.block functionExpr).errors = [] := by
    decide +kernel
  have htype : (Typing.typeOf functionEnv.table functionEnv.block functionExpr).value = .int := by
    decide +kernel
  have hvalue : Run.eval functionEnv.table functionEnv.block functionStore functionExpr =
      .ok (.scalar (.int 50)) := by decide +kernel
  obtain ⟨⟨c, hc, heval⟩, hstore⟩ := convert_preserves_value functionEnv_faithful.toNamed
    functionStore_typed (Checked.eq_pure_of_errors hclean) (htype ▸ .int)
  refine ⟨c, hc, (heval _ (hstore functionEnv_faithful)).trans ?_⟩
  rw [hvalue]
  rfl

end MiniPascal.C
