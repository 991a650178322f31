import MiniPascal.Proofs.Rounds

/-!
# Readers within a statement

Before a semicolon or an `end` every reader of a part of an assignment or a call stops, whatever
comes after it.
-/

namespace MiniPascal

open List

theorem Parse.lift_of_error {α : Type} {x : Parse α} {i i' : Input} {e : Fault}
    (h : x i = .error e i') (notes : List Note) :
    (liftM x : Phrase α) ⟨i, notes⟩ = .error e ⟨i', notes⟩ := by
  change (monadLift x : Phrase α) ⟨i, notes⟩ = _
  rw [Parse.lift_apply, h]

/-- The kinds of tokens that stand behind the statements of a sequence. -/
def Token.Kind.Closes (k : Token.Kind) : Prop := k = .mark .semicolon ∨ k = .keyword .endKw

instance (k : Token.Kind) : Decidable k.Closes := inferInstanceAs (Decidable (_ ∨ _))

/-- Both readers stay within the tokens `us` if something behind them closes a statement. They do
the same, whatever that is and whatever comes then, or the first one fails at one of the tokens or
right behind them. -/
def Confined {α : Type} (us : List Token) (x y : Parse α) : Prop :=
  (∀ u ∈ us, u.kind ≠ .invalid) → ∀ ⦃t t'⦄, t.kind.Closes → t'.kind.Closes →
    ∀ rest rest' last last',
      (∃ a vs, vs <:+ us ∧ x ⟨us ++ t :: rest, last⟩ = .ok a ⟨vs ++ t :: rest, last⟩ ∧
        y ⟨us ++ t' :: rest', last'⟩ = .ok a ⟨vs ++ t' :: rest', last'⟩) ∨
      ∃ e vs, vs <:+ us ∧ x ⟨us ++ t :: rest, last⟩ = .error (.phrase e) ⟨vs ++ t :: rest, last⟩ ∧
        e.position ∈ (us ++ [t]).map Token.position

namespace Confined

variable {α β : Type} {us : List Token} {x y : Parse α} {f g : α → Parse β}

theorem pure (a : α) : Confined us (pure a) (pure a) := fun _ _ _ _ _ _ _ _ _ =>
  .inl ⟨a, us, suffix_rfl, rfl, rfl⟩

theorem bind (hx : Confined us x y) (hf : ∀ a vs, vs <:+ us → Confined vs (f a) (g a)) :
    Confined us (x >>= f) (y >>= g) := by
  intro hus t t' ht ht' rest rest' last last'
  rcases hx hus ht ht' rest rest' last last' with ⟨a, vs, hvs, hxa, hya⟩ | ⟨e, vs, hvs, hxe, hpos⟩
  · rw [bind_of_ok hxa, bind_of_ok hya]
    have hvalid : ∀ v ∈ vs, v.kind ≠ .invalid := fun v hv => hus v (hvs.subset hv)
    rcases hf a vs hvs hvalid ht ht' rest rest' last last' with
      ⟨b, ws, hws, hfb, hgb⟩ | ⟨e, ws, hws, hfe, hpos⟩
    · exact .inl ⟨b, ws, hws.trans hvs, hfb, hgb⟩
    · refine .inr ⟨e, ws, hws.trans hvs, hfe, ?_⟩
      rw [map_append, mem_append] at hpos ⊢
      exact hpos.imp_left fun h => (hvs.map Token.position).subset h
  · rw [bind_of_error hxe]
    exact .inr ⟨e, vs, hvs, rfl, hpos⟩

/-- Bounds by the number of tokens left are greater than what is confined can need. -/
theorem get {f g : Input → Parse β}
    (h : ∀ i j, us.length < i.tokens.length → us.length < j.tokens.length →
      Confined us (f i) (g j)) : Confined us (MonadState.get >>= f) (MonadState.get >>= g) := by
  intro hus t t' ht ht' rest rest' last last'
  have hlt : ∀ (t : Token) rest, us.length < (us ++ t :: rest).length := by
    intro t rest
    rw [length_append, length_cons]
    omega
  exact h ⟨us ++ t :: rest, last⟩ ⟨us ++ t' :: rest', last'⟩ (hlt t rest) (hlt t' rest') hus ht ht'
    rest rest' last last'

theorem kind {f g : Token.Kind → Parse β}
    (hcons : ∀ u vs, us = u :: vs → Confined us (f u.kind) (g u.kind))
    (hnil : us = [] → ∀ k k', k.Closes → k'.Closes → Confined [] (f k) (g k')) :
    Confined us (Parse.kind >>= f) (Parse.kind >>= g) := by
  intro hus t t' ht ht' rest rest' last last'
  cases us with
  | nil => exact hnil rfl t.kind t'.kind ht ht' hus ht ht' rest rest' last last'
  | cons u vs => exact hcons u vs rfl hus ht ht' rest rest' last last'

theorem advance {u : Token} {vs : List Token} {f g : Token → Parse β}
    (h : Confined vs (f u) (g u)) :
    Confined (u :: vs) (Parse.advance >>= f) (Parse.advance >>= g) := by
  intro hus t t' ht ht' rest rest' last last'
  have hvalid : ∀ v ∈ vs, v.kind ≠ .invalid := fun v hv => hus v (mem_cons_of_mem u hv)
  rcases h hvalid ht ht' rest rest' last last' with ⟨b, ws, hws, hf, hg⟩ | ⟨e, ws, hws, hf, hpos⟩
  · exact .inl ⟨b, ws, hws.trans (suffix_cons u vs), hf, hg⟩
  · exact .inr ⟨e, ws, hws.trans (suffix_cons u vs), hf, mem_cons_of_mem _ hpos⟩

theorem expected (what : String) : Confined us (Parse.expected what : Parse α) y := by
  intro hus t t' ht _ rest _ last _
  have hcurrent : (Input.mk (us ++ t :: rest) last).current ∈ us ++ [t] := by
    cases us with
    | nil => exact mem_cons_self
    | cons u vs => exact mem_cons_self
  have hvalid : (Input.mk (us ++ t :: rest) last).kind ≠ .invalid := by
    unfold Input.kind
    rcases mem_append.mp hcurrent with hmem | hmem
    · exact hus _ hmem
    · rw [mem_singleton.mp hmem]
      rcases ht with ht | ht <;> rw [ht] <;> nofun
  refine .inr ⟨⟨.expected what (Input.mk (us ++ t :: rest) last).current,
    (Input.mk (us ++ t :: rest) last).position⟩, us, suffix_rfl, ?_, ?_⟩
  · change EStateM.Result.error ((Input.mk (us ++ t :: rest) last).unexpected what) _ = _
    unfold Input.unexpected
    rw [if_neg hvalid]
  · exact mem_map_of_mem hcurrent

theorem accept {k : Token.Kind} {f g : Bool → Parse β} (hk : ¬ k.Closes)
    (htrue : ∀ u vs, us = u :: vs → Confined vs (f true) (g true))
    (hfalse : Confined us (f false) (g false)) :
    Confined us (Parse.accept k >>= f) (Parse.accept k >>= g) := by
  unfold Parse.accept
  rw [bind_assoc, bind_assoc]
  refine kind (fun u vs hus => ?_) fun hus k₁ k₂ hk₁ hk₂ => ?_
  · split
    · subst hus
      rw [bind_assoc, bind_assoc]
      exact advance (htrue u vs rfl)
    · exact hfalse
  · subst hus
    rw [if_neg (by rintro rfl; exact hk hk₁), if_neg (by rintro rfl; exact hk hk₂)]
    exact hfalse

theorem expect {k : Token.Kind} {what : String} {f g : Token → Parse β} (hk : ¬ k.Closes)
    (h : ∀ u vs, us = u :: vs → u.kind = k → Confined vs (f u) (g u)) :
    Confined us (Parse.expect k what >>= f) (Parse.expect k what >>= g) := by
  unfold Parse.expect
  rw [bind_assoc, bind_assoc]
  refine kind (fun u vs hus => ?_) fun _ k₁ k₂ hk₁ _ => ?_
  · split
    · next hu =>
      subst hus
      exact advance (h u vs rfl hu)
    · exact expected what
  · rw [if_neg (by rintro rfl; exact hk hk₁)]
    exact expected what

theorem identifier {what : String} {f g : String × Position → Parse β}
    (h : ∀ u vs r, us = u :: vs → Confined vs (f r) (g r)) :
    Confined us (Parse.identifier what >>= f) (Parse.identifier what >>= g) := by
  unfold Parse.identifier
  rw [bind_assoc, bind_assoc]
  refine expect (by decide) fun u vs hus _ => ?_
  cases u.payload with
  | none => exact h u vs _ hus
  | some v => cases v <;> exact h u vs _ hus

/-- What is read to its end once is read to its end wherever a statement may be closed. -/
theorem elsewhere {t : Token} {rest : List Token} {last : Token} {a : α} (h : Confined us x x)
    (hus : ∀ u ∈ us, u.kind ≠ .invalid) (ht : t.kind.Closes)
    (hok : x ⟨us ++ t :: rest, last⟩ = .ok a ⟨t :: rest, last⟩) ⦃t' : Token⦄
    (ht' : t'.kind.Closes) (rest' : List Token) (last' : Token) :
    x ⟨us ++ t' :: rest', last'⟩ = .ok a ⟨t' :: rest', last'⟩ := by
  rcases h hus ht ht' rest rest' last last' with ⟨b, vs, -, hb, hb'⟩ | ⟨e, vs, -, he, -⟩
  · rw [hok] at hb
    injection hb with hab hinput
    injection hinput with htokens
    obtain rfl : vs = [] := append_left_eq_self.mp htokens.symm
    rw [hb', hab]
    rfl
  · rw [hok] at he
    cases he

end Confined

namespace Parse

section Lists

section Separated

variable {α : Type} {n : Nat} {x y : Parse α} (h : ∀ us, us.length ≤ n → Confined us x y)
include h

variable {separator : Token.Kind} {us : List Token}

theorem confined_more (hsep : ¬ separator.Closes) {p q : Nat} (hn : us.length ≤ n)
    (hp : us.length < p) (hq : us.length < q) :
    Confined us (more separator x p) (more separator y q) := by
  induction p generalizing us q with
  | zero => omega
  | succ p ih =>
    obtain ⟨q, rfl⟩ := Nat.exists_eq_add_one_of_ne_zero (Nat.ne_zero_of_lt hq)
    refine .accept hsep (fun u vs hus => ?_) (.pure _)
    subst hus
    rw [length_cons] at hn hp hq
    rw [if_pos rfl, if_pos rfl]
    refine (h vs (by omega)).bind fun a ws hws => ?_
    have hlength := hws.length_le
    exact (ih (by omega) (by omega) (by omega)).bind fun _ _ _ => .pure _

theorem confined_separated (hsep : ¬ separator.Closes) (hn : us.length ≤ n)
    {first first' : Parse α} (hfirst : Confined us first first') :
    Confined us (separated separator first x) (separated separator first' y) := by
  refine hfirst.bind fun a vs hvs => .get fun i j hi hj => ?_
  have hlength := hvs.length_le
  exact (confined_more h hsep (by omega) hi hj).bind fun _ _ _ => .pure _

end Separated

variable {n : Nat} {x y : Parse Expr} (h : ∀ us, us.length ≤ n → Confined us x y)
include h

variable {us : List Token}

theorem confined_chain (tier : Nat) {p q : Nat} (hn : us.length ≤ n) (hp : us.length < p)
    (hq : us.length < q) (left : Expr) :
    Confined us (chain tier x p left) (chain tier y q left) := by
  induction p generalizing us q left with
  | zero => omega
  | succ p ih =>
    obtain ⟨q, rfl⟩ := Nat.exists_eq_add_one_of_ne_zero (Nat.ne_zero_of_lt hq)
    refine .kind (fun u vs hus => ?_) fun hus k k' hk hk' => ?_
    · subst hus
      rw [length_cons] at hn hp hq
      cases binaryOp? u.kind with
      | none => exact .pure _
      | some op =>
        dsimp only
        split
        · refine .advance ((h vs (by omega)).bind fun right ws hws => ?_)
          have hlength := hws.length_le
          exact ih (by omega) (by omega) (by omega) _
        · exact .pure _
    · rcases hk with rfl | rfl <;> rcases hk' with rfl | rfl <;> exact .pure _

theorem confined_tier (tier : Nat) (hn : us.length ≤ n) :
    Confined us (Parse.tier tier x) (Parse.tier tier y) := by
  refine (h us hn).bind fun left vs hvs => .get fun i j hi hj => ?_
  have hlength := hvs.length_le
  exact confined_chain h tier (by omega) hi hj left

theorem confined_expressionOver (hn : us.length ≤ n) :
    Confined us (expressionOver x) (expressionOver y) :=
  confined_tier (fun _ h₁ => confined_tier (fun _ h₂ => confined_tier h 3 h₂) 2 h₁) 1 hn

theorem confined_argumentList (hn : us.length ≤ n) :
    Confined us (argumentList x) (argumentList y) := by
  refine .expect (by decide) fun u vs hus _ => ?_
  subst hus
  rw [length_cons] at hn
  refine .accept (by decide) (fun _ _ _ => .pure _) ?_
  refine (confined_separated h (by decide) (by omega) (h vs (by omega))).bind fun args ws hws => ?_
  exact .expect (by decide) fun _ _ _ _ => .pure _

theorem confined_indexList (hn : us.length ≤ n) : Confined us (indexList x) (indexList y) := by
  refine .expect (by decide) fun u vs hus _ => ?_
  subst hus
  rw [length_cons] at hn
  refine (confined_separated h (by decide) (by omega) (h vs (by omega))).bind fun args ws hws => ?_
  exact .expect (by decide) fun _ _ _ _ => .pure _

/-- The name is taken first, so the expressions behind it have one token less. -/
theorem confined_named (hn : us.length ≤ n + 1) : Confined us (named x) (named y) := by
  refine .identifier fun u vs r hus => ?_
  subst hus
  rw [length_cons] at hn
  refine .kind (fun v ws hvs => ?_) fun hvs k k' hk hk' => ?_
  · generalize v.kind = k
    split
    · exact (confined_argumentList h (by omega)).bind fun _ _ _ => .pure _
    · exact (confined_indexList h (by omega)).bind fun _ _ _ => .pure _
    · exact .pure _
  · rcases hk with rfl | rfl <;> rcases hk' with rfl | rfl <;> exact .pure _

end Lists

section Operands

theorem number_cons (u : Token) (ts : List Token) (last : Token) :
    (∃ e, ∀ ts last, number ⟨u :: ts, last⟩ = .ok e ⟨ts, last⟩) ∨ number ⟨u :: ts, last⟩ =
        .error (.phrase ⟨.malformedNumber u.text, u.position⟩) ⟨ts, last⟩ := by
  unfold number
  cases hpayload : u.payload with
  | none => exact .inr (by rw [advance_cons, hpayload]; rfl)
  | some v =>
    cases v with
    | integer v =>
      exact .inl ⟨.int u.position v, fun ts last => by rw [advance_cons, hpayload]; rfl⟩
    | real v =>
      exact .inl ⟨.real u.position v, fun ts last => by rw [advance_cons, hpayload]; rfl⟩
    | text v | fault v => exact .inr (by rw [advance_cons, hpayload]; rfl)

theorem confined_number (u : Token) (vs : List Token) : Confined (u :: vs) number number := by
  intro _ t t' _ _ rest rest' last last'
  have hsuffix := suffix_cons u vs
  rcases number_cons u (vs ++ t :: rest) last with ⟨e, he⟩ | he
  · exact .inl ⟨e, vs, hsuffix, he _ _, he _ _⟩
  · exact .inr ⟨_, vs, hsuffix, he, mem_cons_self⟩

theorem confined_quoted (u : Token) (vs : List Token) : Confined (u :: vs) quoted quoted := by
  refine .advance ?_
  cases u.payload with
  | none => exact .pure _
  | some v => cases v <;> exact .pure _

theorem confined_operandWithin {p q : Nat} {us : List Token} (hp : us.length < p)
    (hq : us.length < q) : Confined us (operandWithin p) (operandWithin q) := by
  induction p generalizing us q with
  | zero => omega
  | succ p ih =>
    obtain ⟨q, rfl⟩ := Nat.exists_eq_add_one_of_ne_zero (Nat.ne_zero_of_lt hq)
    refine .kind (fun u vs hus => ?_) fun hus k k' hk hk' => ?_
    · subst hus
      rw [length_cons] at hp hq
      have hnested : ∀ ws, ws.length ≤ vs.length →
          Confined ws (operandWithin p) (operandWithin q) := fun ws hws =>
        ih (by omega) (by omega)
      have hunary : ∀ op, Confined (u :: vs)
          (do return Expr.unary (← advance).position op (← operandWithin p) : Parse Expr)
          (do return Expr.unary (← advance).position op (← operandWithin q) : Parse Expr) :=
        fun op => .advance ((hnested vs (Nat.le_refl _)).bind fun _ _ _ => .pure _)
      generalize u.kind = k
      split
      · exact confined_number u vs
      · exact confined_number u vs
      · exact confined_quoted u vs
      · exact .advance (.pure _)
      · exact .advance (.pure _)
      · refine .advance ((confined_expressionOver hnested (Nat.le_refl _)).bind fun e ws _ => ?_)
        exact .expect (by decide) fun _ _ _ _ => .pure _
      · exact hunary .plus
      · exact hunary .minus
      · exact hunary .not
      · exact confined_named (fun ws hws => confined_expressionOver hnested hws) (Nat.le_refl _)
      · exact .expected _
    · rcases hk with rfl | rfl <;> exact .expected _

theorem confined_operand (us : List Token) : Confined us operand operand :=
  .get fun _ _ hi hj => confined_operandWithin (by omega) (by omega)

theorem confined_expression (us : List Token) : Confined us expression expression :=
  .get fun _ _ hi hj => confined_expressionOver (n := us.length)
    (fun vs hvs => confined_operandWithin (by omega) (by omega)) (Nat.le_refl _)

theorem confined_assignmentOrCall (us : List Token) :
    Confined us assignmentOrCall assignmentOrCall := by
  have hexpr : ∀ vs : List Token, vs.length ≤ us.length → Confined vs expression expression :=
    fun vs _ => confined_expression vs
  refine .identifier fun u vs r hus => .kind (fun v ws hvs => ?_) fun _ k k' hk hk' => ?_
  · subst hus
    rw [length_cons] at hexpr
    generalize v.kind = k
    split
    · refine (confined_indexList hexpr (by omega)).bind fun _ _ _ => ?_
      exact .expect (by decide) fun _ zs _ _ => (confined_expression zs).bind fun _ _ _ => .pure _
    · subst hvs
      exact .advance ((confined_expression ws).bind fun _ _ _ => .pure _)
    · exact (confined_argumentList hexpr (by omega)).bind fun _ _ _ => .pure _
    · exact .expected _
    · exact .expected _
    · exact .pure _
  · rcases hk with rfl | rfl <;> rcases hk' with rfl | rfl <;> exact .pure _

end Operands

end Parse

end MiniPascal
