import MiniPascal.Proofs.Checking
import MiniPascal.Proofs.Lookup

/-!
# Well-typed expressions

The expressions without problems are described by rules, one for each way to form an expression.
-/

namespace MiniPascal.Typing

open Scope List

variable {t : Table} {block : Nat}

def argument (t : Table) (block : Nat) (e : Expr) : Argument :=
  ⟨(typeOf t block e).value, isVariable t block e⟩

/-- An expression without problems that stands for a value or a variable. A call of a built-in
procedure stands for neither. -/
inductive WellTyped (t : Table) (block : Nat) : Expr → Prop where
  | int (p : Position) (v : Int64) : WellTyped t block (.int p v)
  | real (p : Position) (v : Float) : WellTyped t block (.real p v)
  | char (p : Position) (v : Char) : WellTyped t block (.char p v)
  | bool (p : Position) (v : Bool) : WellTyped t block (.bool p v)
  | string (p : Position) (v : String) : WellTyped t block (.string p v)
  | name (p : Position) {n : String} {item : Item} (hn : t.resolve block n = .ok item) :
      WellTyped t block (.name p n)
  | element (p : Position) {n : String} {indices : List Expr} {item : Item}
      (hn : t.findPlace? block n = some item)
      (hi : ∀ e ∈ indices, WellTyped t block e)
      (ht : ∀ e ∈ indices, typeOf t block e = pure .int)
      (hd : indices.length ≤ item.type.dims.length)
      (te : typeOf t block (.element p n indices) =
        pure ⟨item.type.base, item.type.dims.drop indices.length⟩) :
      WellTyped t block (.element p n indices)
  | call (p : Position) {n : String} {arguments : List Expr} {item : Item}
      (hb : (Builtin.visible? t block n).isSome = false)
      (ha : ∀ e ∈ arguments, WellTyped t block e)
      (ta : ∀ e ∈ arguments, typeOf t block e = pure (typeOf t block e).value)
      (hn : t.findRoutine block n (arguments.map (argument t block)) = .ok item)
      (te : typeOf t block (.call p n arguments) = pure item.type) :
      WellTyped t block (.call p n arguments)
  | binary (p : Position) {op : BinaryOp} {l r : Expr} {A B T : Ty} (hl : WellTyped t block l)
      (hr : WellTyped t block r) (tl : typeOf t block l = pure A) (tr : typeOf t block r = pure B)
      (hT : Ty.binary? op A B = some T) : WellTyped t block (.binary p op l r)
  | unary (p : Position) {op : UnaryOp} {e : Expr} {A T : Ty} (he : WellTyped t block e)
      (te : typeOf t block e = pure A) (hT : Ty.unary? op A = some T) :
      WellTyped t block (.unary p op e)

variable {p : Position} {args : List Argument}

theorem binary_eq_pure {op : BinaryOp} {a b T : Ty} (h : binary op a b p = pure T)
    (hT : T.isError = false) : Ty.binary? op a b = some T := by
  unfold binary at h
  split at h
  · rw [← Checked.pure_inj.mp h] at hT
    cases hT
  · split at h
    · next c hc => rw [hc, Checked.pure_inj.mp h]
    · cases h

theorem unary_eq_pure {op : UnaryOp} {a T : Ty} (h : unary op a p = pure T)
    (hT : T.isError = false) : Ty.unary? op a = some T := by
  unfold unary at h
  split at h
  · rw [← Checked.pure_inj.mp h] at hT
    cases hT
  · split at h
    · next c hc => rw [hc, Checked.pure_inj.mp h]
    · cases h

theorem element_eq_pure {a T : Ty} {n : String} {count : Nat} {sound : Bool}
    (h : element a n count sound p = pure T) (hT : T.isError = false) :
    sound = true ∧ a.indexed? count = some T := by
  unfold element at h
  split at h
  · next c hc =>
    have h := Checked.pure_inj.mp h
    split at h
    · next hs => exact ⟨hs, h ▸ hc⟩
    · rw [← h] at hT
      cases hT
  · cases h

theorem index_eq_pure {a : Ty} (h : index a p = pure true) : a = .int := by
  unfold index at h
  split at h
  · cases Checked.pure_inj.mp h
  · split at h
    · next ha => exact Ty.isA_iff.mp ha
    · cases h

theorem value_argumentsOf (es : List Expr) :
    (argumentsOf t block es).value = es.map (argument t block) := by
  induction es with
  | nil => rfl
  | cons e es ih =>
    rw [map_cons, ← ih, argumentsOf]
    rfl

theorem argumentsOf_eq_pure {es : List Expr} (h : argumentsOf t block es = pure args) :
    args = es.map (argument t block) ∧
      ∀ e ∈ es, typeOf t block e = pure (typeOf t block e).value := by
  induction es generalizing args with
  | nil => exact ⟨(Checked.pure_inj.mp h).symm, nofun⟩
  | cons e es ih =>
    obtain ⟨T, hT, rest, hrest, h⟩ := Checked.bind₂_eq_pure.mp h
    obtain ⟨rfl, htypes⟩ := ih hrest
    constructor
    · rw [← Checked.pure_inj.mp h, map_cons, argument, hT, Checked.pure_value]
    · intro x hx
      rcases mem_cons.mp hx with rfl | hx
      · rw [hT, Checked.pure_value]
      · exact htypes x hx

/-- What a parameter accepts is a value or a variable, never the result of a procedure. -/
theorem accepted_not_void {item : Item} (h : item.accepts args = true) {a : Argument}
    (ha : a ∈ args) : a.type.base = .void → a.isVariable = true := by
  intro hv
  obtain ⟨hlen, hall⟩ := Item.accepts_iff.mp h
  obtain ⟨i, hi, rfl⟩ := mem_iff_getElem.mp ha
  have hmem : (item.params[i], args[i]) ∈ item.params.zip args := by
    rw [mem_iff_getElem]
    exact ⟨i, by simp; omega, by simp⟩
  have hacc := hall _ hmem
  unfold Param.accepts at hacc
  split at hacc
  · simp only [Bool.and_eq_true] at hacc
    exact hacc.1
  · exact ((Ty.assignable_proper hacc).2.not_void hv).elim

mutual

theorem wellTyped_of_typeOf : ∀ (e : Expr) {T : Ty}, typeOf t block e = pure T →
    T.isError = false → (T.base = .void → isVariable t block e = true) → WellTyped t block e
  | .int p v, _, _, _, _ => .int p v
  | .real p v, _, _, _, _ => .real p v
  | .char p v, _, _, _, _ => .char p v
  | .bool p v, _, _, _, _ => .bool p v
  | .string p v, _, _, _, _ => .string p v
  | .name p n, T, h, _, _ => by
    rw [typeOf] at h
    split at h
    · next item hn => exact .name p hn
    · cases h
  | .element p n indices, T, te, hT, _ => by
    have h := te
    rw [typeOf] at h
    split at h
    · next item hn =>
      obtain ⟨sound, hs, h⟩ := Checked.bind_eq_pure.mp h
      obtain ⟨rfl, hT⟩ := element_eq_pure h hT
      obtain ⟨hd, rfl⟩ := Ty.indexed?_eq_some.mp hT
      have hi := wellTyped_of_indicesSound indices hs
      exact .element p hn (fun e he => (hi e he).1) (fun e he => (hi e he).2) hd te
    · cases h
  | .call p n arguments, T, te, hT, hv => by
    have h := te
    obtain ⟨args, hargs, h⟩ := Checked.bind_eq_pure.mp h
    split at h
    -- A built-in is no value, and a call with an argument of no type has none itself.
    · have hT := Checked.pure_inj.mp h
      cases hv (hT ▸ rfl)
    · next hb =>
      split at h
      · rw [← Checked.pure_inj.mp h] at hT
        cases hT
      · next herr =>
        split at h
        · next item hn =>
          obtain ⟨_, hacc, _⟩ := Table.findRoutine_ok hn
          have herr : ∀ a ∈ args, a.type.isError = false := by simpa using herr
          have hall := wellTyped_of_argumentsOf arguments hargs fun a ha =>
            ⟨herr a ha, accepted_not_void hacc ha⟩
          obtain ⟨rfl, htypes⟩ := argumentsOf_eq_pure hargs
          cases h
          exact .call p (Bool.eq_false_iff.mpr hb) hall htypes hn te
        · cases h
  | .binary p op l r, T, h, hT, _ => by
    obtain ⟨A, tl, B, tr, h⟩ := Checked.bind₂_eq_pure.mp h
    have hop := binary_eq_pure h hT
    obtain ⟨hA, hB, _⟩ := Ty.binary?_proper hop
    exact .binary p (wellTyped_of_typeOf l tl hA.isError fun hv => (hA.not_void hv).elim)
      (wellTyped_of_typeOf r tr hB.isError fun hv => (hB.not_void hv).elim) tl tr hop
  | .unary p op e, T, h, hT, _ => by
    obtain ⟨A, te, h⟩ := Checked.bind_eq_pure.mp h
    have hop := unary_eq_pure h hT
    obtain ⟨hA, _⟩ := Ty.unary?_proper hop
    exact .unary p (wellTyped_of_typeOf e te hA.isError fun hv => (hA.not_void hv).elim) te hop

theorem wellTyped_of_indicesSound : ∀ (es : List Expr), indicesSound t block es = pure true →
    ∀ e ∈ es, WellTyped t block e ∧ typeOf t block e = pure .int
  | [], _ => forall_mem_nil _
  | e :: es, h => by
    obtain ⟨T, te, sound, hs, h⟩ := Checked.bind₂_eq_pure.mp h
    obtain ⟨rest, hrest, h⟩ := Checked.bind_eq_pure.mp h
    have hboth := Checked.pure_inj.mp h
    simp only [Bool.and_eq_true] at hboth
    obtain ⟨rfl, rfl⟩ := hboth
    obtain rfl := index_eq_pure hs
    exact forall_mem_cons.mpr
      ⟨⟨wellTyped_of_typeOf e te rfl nofun, te⟩, wellTyped_of_indicesSound es hrest⟩

theorem wellTyped_of_argumentsOf : ∀ (es : List Expr) {args : List Argument},
    argumentsOf t block es = pure args →
    (∀ a ∈ args, a.type.isError = false ∧ (a.type.base = .void → a.isVariable = true)) →
    ∀ e ∈ es, WellTyped t block e
  | [], _, _, _ => forall_mem_nil _
  | e :: es, args, h, hall => by
    obtain ⟨T, te, rest, hrest, h⟩ := Checked.bind₂_eq_pure.mp h
    cases h
    obtain ⟨⟨hT, hv⟩, hall⟩ := forall_mem_cons.mp hall
    exact forall_mem_cons.mpr
      ⟨wellTyped_of_typeOf e te hT hv, wellTyped_of_argumentsOf es hrest hall⟩

end

/-- No visible name has the error type, which is so as long as no declaration was refused. -/
def Declared (t : Table) (block : Nat) : Prop :=
  ∀ item, t.Visible block item → item.type.isError = false

mutual

/-- Where every name has a type, so has every expression without problems. -/
theorem typeOf_not_error (ht : Declared t block) : ∀ (e : Expr) {T : Ty},
    typeOf t block e = pure T → T.isError = false
  | .int .., _, h | .real .., _, h | .char .., _, h | .bool .., _, h | .string .., _, h => by
    exact Checked.pure_inj.mp h ▸ rfl
  | .name _ n, T, h => by
    rw [typeOf] at h
    split at h
    · next item hn => exact Checked.pure_inj.mp h ▸ ht item (Table.resolve_visible hn)
    · cases h
  | .element _ n indices, T, h => by
    rw [typeOf] at h
    split at h
    · next item hn =>
      obtain ⟨sound, hs, h⟩ := Checked.bind_eq_pure.mp h
      obtain rfl := indicesSound_true ht indices hs
      unfold element at h
      split at h
      · next c hc =>
        obtain ⟨_, rfl⟩ := Ty.indexed?_eq_some.mp hc
        exact Checked.pure_inj.mp h ▸ ht item (Table.findPlace?_visible hn)
      · cases h
    · cases h
  | .call _ n arguments, T, h => by
    obtain ⟨args, hargs, h⟩ := Checked.bind_eq_pure.mp h
    split at h
    · exact Checked.pure_inj.mp h ▸ rfl
    · split at h
      · next herr =>
        obtain ⟨a, ha, he⟩ := any_eq_true.mp herr
        rw [argumentsOf_not_error ht arguments hargs a ha] at he
        cases he
      · split at h
        · next item hn => exact Checked.pure_inj.mp h ▸ ht item (Table.findRoutine_ok hn).2.2.2
        · cases h
  | .binary _ op l r, T, h => by
    obtain ⟨A, hA, B, hB, h⟩ := Checked.bind₂_eq_pure.mp h
    rw [binary, typeOf_not_error ht l hA, typeOf_not_error ht r hB] at h
    simp only [Bool.or_self, Bool.false_eq_true, if_false] at h
    split at h
    · next c hc => exact Checked.pure_inj.mp h ▸ (Ty.binary?_proper hc).2.2.isError
    · cases h
  | .unary _ op e, T, h => by
    obtain ⟨A, hA, h⟩ := Checked.bind_eq_pure.mp h
    have hne := typeOf_not_error ht e hA
    rw [unary, hne] at h
    simp only [Bool.false_eq_true, if_false] at h
    split at h
    · next c hc => exact Checked.pure_inj.mp h ▸ (Ty.unary?_proper hc).2 ▸ hne
    · cases h

theorem indicesSound_true (ht : Declared t block) : ∀ (es : List Expr) {sound : Bool},
    indicesSound t block es = pure sound → sound = true
  | [], _, h => (Checked.pure_inj.mp h).symm
  | e :: es, sound, h => by
    obtain ⟨T, hT, first, hf, h⟩ := Checked.bind₂_eq_pure.mp h
    obtain ⟨rest, hr, h⟩ := Checked.bind_eq_pure.mp h
    obtain rfl := indicesSound_true ht es hr
    rw [index, typeOf_not_error ht e hT] at hf
    simp only [Bool.false_eq_true, if_false] at hf
    split at hf
    · cases hf
      exact (Checked.pure_inj.mp h).symm
    · cases hf

theorem argumentsOf_not_error (ht : Declared t block) : ∀ (es : List Expr) {args : List Argument},
    argumentsOf t block es = pure args → ∀ a ∈ args, a.type.isError = false
  | [], _, h => Checked.pure_inj.mp h ▸ forall_mem_nil _
  | e :: es, args, h => by
    obtain ⟨T, hT, rest, hr, h⟩ := Checked.bind₂_eq_pure.mp h
    cases h
    exact forall_mem_cons.mpr
      ⟨typeOf_not_error ht e hT, argumentsOf_not_error ht es hr⟩

end

theorem wellTyped_of_proper {e : Expr} {T : Ty} (h : typeOf t block e = pure T) (hT : T.Proper) :
    WellTyped t block e :=
  wellTyped_of_typeOf e h hT.isError fun hv => (hT.not_void hv).elim

end MiniPascal.Typing
