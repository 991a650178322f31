import MiniPascal.Proofs.Preservation

/-!
# Well-typed expressions do not go wrong

An expression without problems evaluates to a value of its type, or it fails for a reason that types
do not exclude. A routine has to answer only what suits its parameters.
-/

namespace MiniPascal.Run

open Scope Typing
open List

/-- An outcome that is as promised, or a failure that is not one of types. -/
def Safe {α : Type} (P : α → Prop) : Outcome α → Prop
  | .ok a => P a
  | .error f => f ≠ .mistyped

section

variable {α β : Type} {P : α → Prop} {Q : β → Prop} {x : Outcome α}

theorem Safe.bind (h : Safe P x) {f : α → Outcome β} (hf : ∀ a, P a → Safe Q (f a)) :
    Safe Q (x >>= f) := by
  cases x with
  | error e => exact h
  | ok a => exact hf a h

theorem Safe.map (h : Safe P x) {f : α → β} (hf : ∀ a, P a → Q (f a)) : Safe Q (f <$> x) := by
  cases x with
  | error e => exact h
  | ok a => exact hf a h

theorem Safe.mono (h : Safe P x) {Q : α → Prop} (hf : ∀ a, P a → Q a) : Safe Q x := by
  cases x with
  | error e => exact h
  | ok a => exact hf a h

theorem Safe.of_ok (h : Safe P x) {a : α} (hx : x = .ok a) : P a := by
  subst hx
  exact h

end

/-! ## Operators -/

theorem word_safe (x : Option Int64) : Safe (fun v => v.type = .int) (word x) := by
  cases x with
  | some v => exact rfl
  | none => exact nofun

theorem arithmetic_safe (f : Int64 → Int64 → Option Int64) (g : Float → Float → Float) {a b : Value}
    (h : (Ty.join a.type b.type).isNumeric = true) :
    Safe (fun v => v.type = Ty.join a.type b.type) (arithmetic f g a b) := by
  cases a with
  | int x =>
    cases b with
    | int y => exact word_safe (f x y)
    | real y => exact rfl
    | char y | bool y => cases h
  | real x =>
    cases b with
    | int y | real y => exact rfl
    | char y | bool y => cases h
  | char x | bool x => cases b <;> cases h

theorem quotient_safe (f : Int64 → Int64 → Option Int64) (x y : Int64) :
    Safe (fun v => v.type = .int) (quotient f (.int x) (.int y)) := by
  change Safe _ (if y = 0 then .error .divisionByZero else word (f x y))
  split
  · exact nofun
  · exact word_safe (f x y)

variable {es : List Expr} {e : Expr} {op : BinaryOp} {T : Ty} {n : String} {a : Datum}

theorem binaryValue_safe {a b : Value} (h : Ty.binary? op a.type b.type = some T) :
    Safe (fun v => v.type = T) (binaryValue op a b) := by
  cases op with
  | add | sub | mul =>
    simp only [Ty.binary?, Option.ite_none_right_eq_some, Option.some.injEq] at h
    obtain ⟨hn, rfl⟩ := h
    exact arithmetic_safe _ _ hn
  | div | mod =>
    cases a with
    | int x =>
      cases b with
      | int y =>
        cases h
        exact quotient_safe _ x y
      | real y | char y | bool y => cases h
    | real x | char x | bool x => cases b <;> cases h
  | divide | and | or | equal | notEqual | less | lessEqual | greater | greaterEqual =>
    cases a <;> cases b <;> first | (cases h; done) | (cases h; exact rfl)

theorem combine_safe {A B : Ty} {b : Outcome Datum} (h : Ty.binary? op A B = some T)
    (ha : a.base = A.base) (hb : Safe (fun d => d.base = B.base) b) :
    Safe (fun d => d.base = T.base) (combine op a b) := by
  obtain ⟨hA, hB, _⟩ := Ty.binary?_proper h
  obtain ⟨sA, sB⟩ := operands_not_string h
  cases hd : decided op a with
  | some d =>
    have hvalue : combine op a b = .ok d := by rw [combine, hd]
    rw [hvalue]
    exact combine_base h ha (fun _ hright => hb.of_ok hright) hvalue
  | none =>
    have hopen : combine op a b = (do binary op a (← b)) := by rw [combine, hd]
    rw [hopen]
    refine hb.bind fun d hbase => ?_
    obtain ⟨v, rfl, rfl⟩ := scalar_of_base ha hA sA
    obtain ⟨w, rfl, rfl⟩ := scalar_of_base hbase hB sB
    refine (binaryValue_safe h).map fun z hz => ?_
    rw [base_scalar, hz]

theorem unary_safe {op : UnaryOp} {A : Ty} (h : Ty.unary? op A = some T) (ha : a.base = A.base) :
    Safe (fun d => d.base = T.base) (unary op a) := by
  obtain ⟨hA, rfl⟩ := Ty.unary?_proper h
  have hs : T.base ≠ .string := by
    rw [hA.eq] at h
    rintro hstring
    rw [hstring] at h
    cases op <;> cases h
  obtain ⟨v, rfl, rfl⟩ := scalar_of_base ha hA hs
  cases op with
  | plus => cases v <;> first | (cases h; done) | exact rfl
  | minus =>
    cases v with
    | int x => exact (word_safe (Integer.neg? x)).map fun v hv => by rw [base_scalar, hv]; rfl
    | real x => exact rfl
    | char x | bool x => cases h
  | not => cases v <;> first | (cases h; done) | exact rfl

/-! ## Sound stores -/

/-- The type of a variable or, behind indices, of what is left of it. -/
def Place.type (q : Place) : Ty := ⟨q.item.type.base, q.item.type.dims.drop q.indices.length⟩

/-- A place that can be named: its indices are no more than the dimensions, and within them. -/
structure Place.Valid (t : Table) (block : Nat) (q : Place) : Prop where
  named : t.findPlace? block q.item.name = some q.item
  length : q.indices.length ≤ q.item.type.dims.length
  within : Run.within q.item.type.dims q.indices = true

/-- What suits a parameter: a value of its type or, by reference, a variable of its type. -/
def Fits (t : Table) (block : Nat) (p : Param) : Actual → Prop
  | .value d => p.byReference = false ∧ d.base = p.type.base
  | .place q => p.byReference = true ∧ q.Valid t block ∧ q.item.isVariable = true ∧ q.type = p.type

/-- Everything that can be named holds values of its type, and everything that can be called answers
what suits its parameters with a value of the type that it returns, unless it fails itself. What it
does with anything else is left open. -/
structure Store.Sound (σ : Store) (t : Table) (block : Nat) : Prop extends σ.Filled t block where
  result : ∀ {name args item}, t.findRoutine block name args = .ok item → item.type.Proper →
    ∀ actuals, Forall₂ (Fits t block) item.params actuals →
      Safe (fun d => d.base = item.type.base) (σ.result item actuals)

variable {t : Table} {block : Nat} {σ : Store}

theorem index_safe {d : Datum} (h : d.base = .int) : Safe (fun _ => True) (index d) := by
  cases d with
  | string s => cases h
  | scalar v =>
    cases v with
    | int x => exact trivial
    | real x | char x | bool x => cases h

theorem evalIndices_safe (h : ∀ e ∈ es, Safe (fun d => d.base = .int) (eval t block σ e)) :
    Safe (fun l => l.length = es.length) (evalIndices t block σ es) := by
  induction es with
  | nil => exact rfl
  | cons e es ih =>
    obtain ⟨he, hes⟩ := forall_mem_cons.mp h
    refine he.bind fun d hd => (index_safe hd).bind fun i _ => (ih hes).bind fun l hl => ?_
    exact congrArg Nat.succ hl

variable {item : Item}

theorem located_safe {name : String} (hn : t.findPlace? block name = some item) {l : List Int}
    (hlen : l.length ≤ item.type.dims.length) : Safe (fun q => q.Valid t block ∧ q.item = item ∧
      q.type = ⟨item.type.base, item.type.dims.drop l.length⟩) (located item l) := by
  unfold located
  rw [if_neg (Nat.not_lt.mpr hlen)]
  split
  · next hw => exact ⟨⟨by rw [Table.findPlace?_name hn, hn], hlen, hw⟩, rfl, rfl⟩
  · exact nofun

theorem load_safe (sound : σ.Sound t block) {q : Place} (hq : q.Valid t block)
    (hT : q.type.Proper) : Safe (fun d => d.base = q.type.base) (σ.load q) := by
  have hlen : q.indices.length = q.item.type.dims.length :=
    Nat.le_antisymm hq.length (drop_eq_nil_iff.mp hT.dims)
  unfold Store.load
  rw [if_pos hlen]
  exact sound.contents hq.named ⟨rfl, hT.not_void, hT.not_error⟩ _ hlen hq.within

/-! ## Expressions -/

/-- An expression that has a value of its type and, if it is a variable, a place of its type, unless
it fails. -/
structure ExprSafe (t : Table) (block : Nat) (σ : Store) (e : Expr) : Prop where
  value : ∀ {T}, typeOf t block e = pure T → T.Proper →
    Safe (fun d => d.base = T.base) (eval t block σ e)
  place : ∀ {T}, typeOf t block e = pure T → isVariable t block e = true →
    Safe (fun q => q.Valid t block ∧ q.item.isVariable = true ∧ q.type = T) (evalPlace t block σ e)

theorem ExprSafe.of_value (hvariable : isVariable t block e = false)
    (value : ∀ {T}, typeOf t block e = pure T → T.Proper →
      Safe (fun d => d.base = T.base) (eval t block σ e)) : ExprSafe t block σ e :=
  ⟨value, fun _ h => (Bool.false_ne_true (hvariable.symm.trans h)).elim⟩

theorem ExprSafe.of_place (sound : σ.Sound t block) {x : Outcome Place}
    (hx : Safe (fun q => q.Valid t block ∧ q.item = item ∧ q.type = T) x)
    (te : typeOf t block e = pure T) (hvariable : isVariable t block e = item.isVariable)
    (heval : eval t block σ e = x >>= σ.load) (hplace : evalPlace t block σ e = x) :
    ExprSafe t block σ e := by
  constructor
  · intro T' hT hp
    cases te.symm.trans hT
    rw [heval]
    refine hx.bind fun q ⟨hvalid, _, htype⟩ => ?_
    exact htype ▸ load_safe sound hvalid (htype ▸ hp)
  · intro T' hT hv
    cases te.symm.trans hT
    rw [hplace]
    refine hx.mono fun q ⟨hvalid, hitem, htype⟩ => ?_
    exact ⟨hvalid, hitem ▸ hvariable ▸ hv, htype⟩

theorem evalActual_safe {p : Param} (hacc : p.accepts (argument t block e) = true)
    (te : typeOf t block e = pure (typeOf t block e).value) (he : ExprSafe t block σ e) :
    Safe (Fits t block p) (evalActual t block σ e p) := by
  unfold Param.accepts at hacc
  unfold evalActual
  split at hacc
  · next href =>
    simp only [Bool.and_eq_true, beq_iff_eq] at hacc
    obtain ⟨hvariable, htype⟩ := hacc
    rw [if_pos href]
    refine (he.place te hvariable).map fun q ⟨hvalid, hitem, hT⟩ => ?_
    exact ⟨href, hvalid, hitem, hT.trans htype⟩
  · next href =>
    rw [if_neg href]
    refine (he.value te (Ty.assignable_proper hacc).2).map fun d hd => ?_
    exact ⟨Bool.eq_false_iff.mpr href, (C.convert_stored hacc hd).2⟩

theorem evalActuals_safe {ps : List Param}
    (hacc : Forall₂ (fun p e => Param.accepts p (argument t block e) = true) ps es)
    (te : ∀ e ∈ es, typeOf t block e = pure (typeOf t block e).value)
    (h : ∀ e ∈ es, ExprSafe t block σ e) :
    Safe (Forall₂ (Fits t block) ps) (evalActuals t block σ es ps) := by
  induction hacc with
  | nil => exact .nil
  | cons hpe _ ih =>
    obtain ⟨hte, htes⟩ := forall_mem_cons.mp te
    obtain ⟨he, hes⟩ := forall_mem_cons.mp h
    rw [evalActuals_cons]
    refine (evalActual_safe hpe hte he).bind fun a ha => (ih htes hes).bind fun as has => ?_
    exact .cons ha has

theorem call_safe (sound : σ.Sound t block)
    (hn : t.findRoutine block n (es.map (argument t block)) = .ok item) (hT : item.type.Proper)
    (te : ∀ e ∈ es, typeOf t block e = pure (typeOf t block e).value)
    (h : ∀ e ∈ es, ExprSafe t block σ e) : Safe (fun d => d.base = item.type.base)
      (do σ.result item (← evalActuals t block σ es item.params)) := by
  obtain ⟨hlen, hacc⟩ := Item.accepts_iff.mp (Table.findRoutine_ok hn).2.1
  have hacc := forall₂_map_right_iff.mp
    (forall₂_iff_zip.mpr ⟨hlen, fun {p a} hpa => hacc (p, a) hpa⟩)
  exact (evalActuals_safe hacc te h).bind fun as has => sound.result hn hT as has

theorem elementPlace_safe (hn : t.findPlace? block n = some item)
    (hlen : es.length ≤ item.type.dims.length)
    (h : ∀ e ∈ es, Safe (fun d => d.base = .int) (eval t block σ e)) :
    Safe (fun q => q.Valid t block ∧ q.item = item ∧
        q.type = ⟨item.type.base, item.type.dims.drop es.length⟩)
      (elementPlace t block n (evalIndices t block σ es)) := by
  rw [elementPlace, hn]
  refine (evalIndices_safe h).bind fun l hl => ?_
  rw [← hl] at hlen ⊢
  exact located_safe hn hlen

theorem exprSafe_of_wellTyped (sound : σ.Sound t block) (he : WellTyped t block e) :
    ExprSafe t block σ e := by
  induction he with
  | int p v | real p v | char p v | bool p v | string p v =>
    refine .of_value rfl fun hT _ => ?_
    rw [← Checked.pure_inj.mp hT]
    exact rfl
  | @name p n item hn =>
    have hnamed : named t block n = .ok item := by rw [named, hn]
    rcases Table.resolve_ok hn with ⟨hk, hr⟩ | ⟨hk, hplace⟩
    -- A routine without arguments is called. It is no variable.
    · refine .of_value (by simp [isVariable, hn, Item.isVariable, hk]) fun hT hp => ?_
      cases (typeOf_name hn).symm.trans hT
      have hparams : item.params = [] :=
        length_eq_zero_iff.mp (Item.accepts_iff.mp (Table.findRoutine_ok hr).2.1).1
      rw [eval, hnamed]
      change Safe _ (if item.kind = .routine then _ else _)
      rw [if_pos hk]
      exact sound.result hr hp [] (hparams ▸ .nil)
    · refine .of_place sound (located_safe hplace (l := []) (Nat.zero_le _))
        (typeOf_name hn) ?_ ?_ ?_
      · rw [isVariable, hn]
      · rw [eval, hnamed]
        exact if_neg hk
      · rw [evalPlace, namedPlace, hnamed]
        exact if_neg hk
  | @element p n indices item hn hi ht hd te ih =>
    have hindices : ∀ e ∈ indices, Safe (fun d => d.base = .int) (eval t block σ e) :=
      fun e he => (ih e he).value (ht e he) .int
    refine .of_place sound (elementPlace_safe hn hd hindices) te ?_ rfl rfl
    rw [isVariable, hn]
  | @call p n arguments item hb ha ta hn te ih =>
    refine .of_value rfl fun hT hp => ?_
    cases te.symm.trans hT
    rw [eval, called_eq hb hn]
    exact call_safe sound hn hp ta ih
  | binary p hl hr tl tr hop ihl ihr =>
    refine .of_value rfl fun hT hp => ?_
    obtain ⟨hA, hB, _⟩ := Ty.binary?_proper hop
    rw [typeOf, tl, tr] at hT
    obtain rfl := Option.some.inj (hop.symm.trans (binary_eq_pure hT hp.isError))
    exact (ihl.value tl hA).bind fun a ha => combine_safe hop ha (ihr.value tr hB)
  | unary p he te hop ih =>
    refine .of_value rfl fun hT hp => ?_
    obtain ⟨hA, _⟩ := Ty.unary?_proper hop
    rw [typeOf, te] at hT
    obtain rfl := Option.some.inj (hop.symm.trans (unary_eq_pure hT hp.isError))
    exact (ih.value te hA).bind fun a ha => unary_safe hop ha

/-- Well-typed expressions do not go wrong: in every sound store, an expression that the checker has
no problems with and gives the type of a value evaluates to a value of that type, or fails by an
overflow, a division by zero or an index out of its bounds. -/
theorem eval_never_mistyped (sound : σ.Sound t block) {e : Expr} {T : Ty}
    (he : typeOf t block e = pure T) (hT : T.Proper) :
    (∃ d, eval t block σ e = .ok d ∧ d.base = T.base) ∨ eval t block σ e = .error .overflow ∨
      eval t block σ e = .error .divisionByZero ∨ eval t block σ e = .error .range := by
  have hsafe := (exprSafe_of_wellTyped sound (wellTyped_of_proper he hT)).value he hT
  cases hv : eval t block σ e with
  | ok d => exact .inl ⟨d, rfl, hsafe.of_ok hv⟩
  | error f =>
    rw [hv] at hsafe
    cases f with
    | overflow => exact .inr (.inl rfl)
    | divisionByZero => exact .inr (.inr (.inl rfl))
    | range => exact .inr (.inr (.inr rfl))
    | mistyped => exact (hsafe rfl).elim

/-- A store whose only routine goes wrong on all but a real and a reference to an integer. -/
def strictStore : Store where
  contents := C.functionStore.contents
  result _
    | [.value (.scalar (.real _)), .place q] =>
      if q.type = .int then .ok (.scalar (.int (.ofInt (q.indices.headD 0)))) else .error .mistyped
    | _ => .error .mistyped

theorem strictStore_sound : strictStore.Sound C.functionEnv.table C.functionEnv.block := by
  have hroutine : ∀ item ∈ C.functionEnv.visibleItems, item.kind = .routine →
      item.type = .int ∧ item.params = [⟨.real, false⟩, ⟨.int, true⟩] := by decide +kernel
  refine ⟨⟨C.functionStore_typed.contents⟩, fun {name args item} hn _ actuals hfits => ?_⟩
  obtain ⟨hk, _, _, hv⟩ := Table.findRoutine_ok hn
  obtain ⟨htype, hparams⟩ := hroutine item (C.mem_visibleItems.mpr hv) hk
  rw [hparams] at hfits
  cases hfits with
  | @cons _ first _ rest hfirst hrest =>
  cases hrest with
  | @cons _ second _ _ hsecond hnil =>
  cases hnil
  cases first with
  | place q => cases hfirst.1
  | value d =>
    cases second with
    | value d => cases hsecond.1
    | place q =>
      obtain ⟨x, rfl, hx⟩ := scalar_of_base (A := .real) hfirst.2 ⟨rfl, nofun, nofun⟩ nofun
      cases x with
      | real x =>
        change Safe _ (if q.type = .int then _ else _)
        rw [if_pos hsecond.2.2.2, htype]
        exact rfl
      | int x | char x | bool x => cases hx

theorem functionExpr_never_mistyped :
    strictStore.Sound C.functionEnv.table C.functionEnv.block ∧
      typeOf C.functionEnv.table C.functionEnv.block C.functionExpr = pure .int ∧
      ∃ d, eval C.functionEnv.table C.functionEnv.block strictStore C.functionExpr = .ok d ∧
        d.base = .int := by
  have hclean : (typeOf C.functionEnv.table C.functionEnv.block C.functionExpr).errors = [] := by
    decide +kernel
  have htype : (typeOf C.functionEnv.table C.functionEnv.block C.functionExpr).value = .int := by
    decide +kernel
  have hvalue : eval C.functionEnv.table C.functionEnv.block strictStore C.functionExpr =
      .ok (.scalar (.int 50)) := by decide +kernel
  have hint := htype ▸ Checked.eq_pure_of_errors hclean
  refine ⟨strictStore_sound, hint, ?_⟩
  rcases eval_never_mistyped strictStore_sound hint .int with h | h | h | h
  · exact h
  all_goals
    rw [hvalue] at h
    cases h

end MiniPascal.Run
