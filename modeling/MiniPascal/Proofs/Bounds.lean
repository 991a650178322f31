import MiniPascal.Proofs.Climbing
import MiniPascal.Proofs.CleanReading
import Mathlib.Logic.Function.Iterate

/-!
# Bounds are never met

The readers that call themselves carry the number of tokens left as a bound, and none ever gets to
it.
-/

namespace MiniPascal

/-- Fewer than `n` tokens are left, and then one that ends the text. -/
def Input.Short (n : Nat) (i : Input) : Prop := i.last.kind.isLast = true ∧ i.tokens.length < n

def Session.Short (n : Nat) (s : Session) : Prop := s.input.Short n

variable {n : Nat} {k : Token.Kind}

theorem Input.Short.of_le {i j : Input} (h : i.Short n) (hle : j ≤ i) : j.Short n :=
  ⟨hle.2.symm ▸ h.1, Nat.lt_of_le_of_lt hle.1.length_le h.2⟩

theorem Session.Short.of_le {n : Nat} {s u : Session} (h : s.Short n) (hle : u ≤ s) : u.Short n :=
  Input.Short.of_le h hle.1

theorem Input.Short.exists_cons {ts : List Token} {last : Token}
    (h : (Input.mk ts last).Short (n + 1)) (hk : (Input.mk ts last).kind = k)
    (hlast : k.isLast = false) :
    ∃ t us, ts = t :: us ∧ t.kind = k ∧ (Input.mk us last).Short n := by
  obtain ⟨t, us, rfl⟩ := Parse.exists_cons_of_kind h.1 (hk ▸ hlast)
  exact ⟨t, us, rfl, hk, h.1, Nat.lt_of_succ_lt_succ h.2⟩

theorem Input.Short.kind_ne {i : Input} (h : i.Short 1) (hk : k.isLast = false) : i.kind ≠ k := by
  obtain ⟨ts, last⟩ := i
  obtain rfl : ts = [] := List.length_eq_zero_iff.mp (Nat.lt_one_iff.mp h.2)
  rintro rfl
  exact absurd (h.1.symm.trans hk) nofun

/-- The two readers do the same in all states of a kind. -/
def AgreeOn {ε σ α : Type} (P : σ → Prop) (x y : EStateM ε σ α) : Prop := ∀ s, P s → x s = y s

namespace AgreeOn

variable {ε σ α β : Type} {P : σ → Prop} {x y : EStateM ε σ α}

theorem refl (x : EStateM ε σ α) : AgreeOn P x x := fun _ _ => rfl

theorem ite {c : Prop} [Decidable c] {x' y' : EStateM ε σ α} (h : AgreeOn P x y)
    (h' : AgreeOn P x' y') : AgreeOn P (if c then x else x') (if c then y else y') := by
  split
  · exact h
  · exact h'

theorem get {f g : σ → EStateM ε σ β} (h : ∀ s, AgreeOn P (f s) (g s)) :
    AgreeOn P (MonadState.get >>= f) (MonadState.get >>= g) := fun s hs => h s s hs

/-- Reading only gets on, so that what holds of all that may be left holds after the first step. -/
theorem bind [Preorder σ] (hP : ∀ {s s'}, P s → s' ≤ s → P s') {f g : α → EStateM ε σ β}
    (hy : Advances y) (hxy : AgreeOn P x y) (hf : ∀ a, AgreeOn P (f a) (g a)) :
    AgreeOn P (x >>= f) (y >>= g) := by
  intro s hs
  refine Parse.bind_congr (hxy s hs) fun a u hu => ?_
  exact hf a u (hP hs (hy.of_ok hu))

end AgreeOn

/-- If a reader is what its bound makes of `m` calls whenever at most `m` tokens are left, then any
greater number of calls comes to the same. -/
theorem settles {ρ σ τ : Type} (input : σ → Input) (run : ρ → σ → τ) (within : Nat → σ → τ)
    {call : ρ → ρ} (h : ∀ m r s, (input s).Short (m + 1) → run (call^[m + 1] r) s = within m s)
    {s : σ} (hs : (input s).Short n) (r : ρ) :
    run (call^[n] r) s = within (input s).tokens.length s := by
  obtain ⟨k, rfl⟩ : ∃ k, n = (input s).tokens.length + 1 + k := Nat.exists_eq_add_of_le hs.2
  rw [Function.iterate_add_apply]
  exact h _ _ s ⟨hs.1, Nat.lt_succ_self _⟩

namespace Parse

/-! ## Lists and chains of operators -/

section Lists

variable {n : Nat} {α β : Type}

theorem agree_bind {x y : Parse α} {f g : α → Parse β} (hy : Advances y)
    (hxy : AgreeOn (Input.Short n) x y) (hf : ∀ a, AgreeOn (Input.Short n) (f a) (g a)) :
    AgreeOn (Input.Short n) (x >>= f) (y >>= g) :=
  .bind Input.Short.of_le hy hxy hf

theorem agree_rest {x : Parse α} {f g : α → Parse β} (hx : Advances x)
    (hf : ∀ a, AgreeOn (Input.Short n) (f a) (g a)) : AgreeOn (Input.Short n) (x >>= f) (x >>= g) :=
  agree_bind hx (.refl x) hf

/-- Reads a further item if there is a separator, and the rest of the items then. -/
def moreOver (separator : Token.Kind) (item : Parse α) (rest : Parse (List α)) :
    Parse (List α) := do
  if ← accept separator then
    let a ← item
    return a :: (← rest)
  else return []

variable {separator : Token.Kind} {item : Parse α} (hsep : separator.isLast = false)
  (hitem : Advances item)
include hsep

theorem moreOver_short {i : Input} (hi : i.Short 1) (rest : Parse (List α)) :
    moreOver separator item rest i = .ok [] i := by
  unfold moreOver
  rw [bind_of_ok (accept_of_ne (hi.kind_ne hsep))]
  rfl

include hitem

theorem agree_moreOver {x y : Parse (List α)} (hy : Advances y) (h : AgreeOn (Input.Short n) x y) :
    AgreeOn (Input.Short (n + 1)) (moreOver separator item x) (moreOver separator item y) := by
  rintro ⟨ts, last⟩ hi
  unfold moreOver
  by_cases hk : (Input.mk ts last).kind = separator
  · obtain ⟨t, us, rfl, ht, hus⟩ := hi.exists_cons hk hsep
    rw [bind_of_ok (accept_cons ht), bind_of_ok (accept_cons ht), if_pos rfl, if_pos rfl]
    exact agree_rest hitem (fun a => agree_bind hy h fun _ => .refl _) _ hus
  · rw [bind_of_ok (accept_of_ne hk), bind_of_ok (accept_of_ne hk)]
    rfl

theorem more_iterate (m : Nat) (rest : Parse (List α)) :
    AgreeOn (Input.Short (m + 1)) ((moreOver separator item)^[m + 1] rest)
      (more separator item m) := by
  induction m with
  | zero => exact fun i hi => moreOver_short hsep hi rest
  | succ m ih =>
    rw [Function.iterate_succ_apply']
    exact agree_moreOver hsep hitem (advances_more separator hitem m) ih

end Lists

section Chains

variable {n : Nat}

/-- Takes an operator of the tier and its right operand, and goes on with what they make. -/
def chainOver (tier : Nat) (operand : Parse Expr) (rest : Expr → Parse Expr) (left : Expr) :
    Parse Expr := do
  match binaryOp? (← kind) with
  | none => return left
  | some op =>
    if op.precedence = tier then
      let _ ← advance
      let right ← operand
      rest (.binary left.position op left right)
    else return left

variable {operand : Parse Expr} (hoperand : Advances operand) (tier : Nat)

theorem chainOver_of_ne {i : Input}
    (h : ¬∃ op : BinaryOp, i.kind = op.kind ∧ op.precedence = tier) (rest : Expr → Parse Expr)
    (left : Expr) : chainOver tier operand rest left i = .ok left i := by
  unfold chainOver
  rw [kind_bind]
  cases hop : binaryOp? i.kind with
  | none => rfl
  | some op =>
    dsimp only
    rw [if_neg fun hprec => h ⟨op, binaryOp?_eq_some_iff.mp hop, hprec⟩]
    rfl

theorem chainOver_cons {op : BinaryOp} {t last : Token} {ts : List Token} (ht : t.kind = op.kind)
    (rest : Expr → Parse Expr) (left : Expr) :
    chainOver op.precedence operand rest left ⟨t :: ts, last⟩ =
      (operand >>= fun right => rest (.binary left.position op left right)) ⟨ts, last⟩ := by
  have hop : binaryOp? (Input.mk (t :: ts) last).kind = some op := binaryOp?_eq_some_iff.mpr ht
  unfold chainOver
  rw [kind_bind, hop]
  dsimp only
  rw [if_pos rfl, advance_cons]

include hoperand

theorem agree_chainOver {x y : Expr → Parse Expr}
    (h : ∀ left, AgreeOn (Input.Short n) (x left) (y left)) (left : Expr) :
    AgreeOn (Input.Short (n + 1)) (chainOver tier operand x left)
      (chainOver tier operand y left) := by
  rintro ⟨ts, last⟩ hi
  by_cases hop : ∃ op : BinaryOp, (Input.mk ts last).kind = op.kind ∧ op.precedence = tier
  · obtain ⟨op, hop, rfl⟩ := hop
    obtain ⟨t, us, rfl, ht, hus⟩ := hi.exists_cons hop (kind_ne_isLast op)
    rw [chainOver_cons ht, chainOver_cons ht]
    exact agree_rest hoperand (fun _ => h _) _ hus
  · rw [chainOver_of_ne tier hop, chainOver_of_ne tier hop]

theorem chain_iterate (m : Nat) (rest : Expr → Parse Expr) (left : Expr) :
    AgreeOn (Input.Short (m + 1)) ((chainOver tier operand)^[m + 1] rest left)
      (chain tier operand m left) := by
  induction m generalizing left with
  | zero =>
    intro i hi
    refine chainOver_of_ne tier ?_ rest left
    rintro ⟨op, hop, -⟩
    exact hi.kind_ne (kind_ne_isLast op) hop
  | succ m ih =>
    rw [Function.iterate_succ_apply']
    exact agree_chainOver hoperand tier ih left

end Chains

/-! ## Operands -/

section Operands

variable {n : Nat} {x y : Parse Expr} (hy : Tidy y) (h : AgreeOn (Input.Short n) x y)
include hy h

theorem agree_more (separator : Token.Kind) :
    ∀ m, AgreeOn (Input.Short n) (more separator x m) (more separator y m)
  | 0 => .refl _
  | m + 1 => agree_rest (advances_accept separator) fun _ =>
      .ite (agree_bind (advances hy) h fun _ =>
        agree_bind (advances (tidy_more separator hy m)) (agree_more separator m) fun _ => .refl _)
      (.refl _)

theorem agree_separated (separator : Token.Kind) :
    AgreeOn (Input.Short n) (separated separator x x) (separated separator y y) :=
  agree_bind (advances hy) h fun _ => .get fun _ =>
    agree_bind (advances (tidy_more separator hy _)) (agree_more hy h separator _) fun _ => .refl _

theorem agree_chain (tier : Nat) :
    ∀ m left, AgreeOn (Input.Short n) (chain tier x m left) (chain tier y m left)
  | 0, _ => .refl _
  | m + 1, left => agree_rest advances_kind fun k => by
    split
    · exact .refl _
    · exact .ite (agree_rest advances_advance fun _ => agree_bind (advances hy) h fun _ =>
        agree_chain tier m _) (.refl _)

theorem agree_tier (tier : Nat) : AgreeOn (Input.Short n) (Parse.tier tier x) (Parse.tier tier y) :=
  agree_bind (advances hy) h fun _ => .get fun _ => agree_chain hy h tier _ _

theorem agree_expressionOver : AgreeOn (Input.Short n) (expressionOver x) (expressionOver y) :=
  agree_tier (tidy_tier (tidy_tier hy 3) 2) (agree_tier (tidy_tier hy 3) (agree_tier hy h 3) 2) 1

theorem agree_argumentList : AgreeOn (Input.Short n) (argumentList x) (argumentList y) :=
  agree_rest (advances_expect _ _) fun _ => agree_rest (advances_accept _) fun _ =>
    .ite (.refl _) (agree_bind (advances (tidy_separated _ hy hy)) (agree_separated hy h _)
      fun _ => .refl _)

theorem agree_indexList : AgreeOn (Input.Short n) (indexList x) (indexList y) :=
  agree_rest (advances_expect _ _) fun _ =>
    agree_bind (advances (tidy_separated _ hy hy)) (agree_separated hy h _) fun _ => .refl _

omit hy h in
theorem exists_identifier_cons {t : Token} (ht : t.kind = .identifier) (what : String)
    (ts : List Token) (last : Token) : ∃ r, identifier what ⟨t :: ts, last⟩ = .ok r ⟨ts, last⟩ := by
  unfold identifier
  rw [bind_of_ok (expect_cons ht what)]
  cases t.payload with
  | none => exact ⟨_, rfl⟩
  | some v => cases v <;> exact ⟨_, rfl⟩

theorem agree_named {i : Input} (hi : i.Short (n + 1)) (hk : i.kind = .identifier) :
    named x i = named y i := by
  obtain ⟨ts, last⟩ := i
  obtain ⟨t, us, rfl, ht, hus⟩ := hi.exists_cons hk rfl
  obtain ⟨r, hr⟩ := exists_identifier_cons ht "identifier" us last
  unfold named
  rw [bind_of_ok hr, bind_of_ok hr]
  refine agree_rest advances_kind (fun k => ?_) _ hus
  split
  · exact agree_bind (advances (tidy_argumentList hy)) (agree_argumentList hy h) fun _ => .refl _
  · exact agree_bind (advances (tidy_indexList hy)) (agree_indexList hy h) fun _ => .refl _
  · exact .refl _

omit hy h in
def operandOver (nested : Parse Expr) : Parse Expr := do
  match ← kind with
  | .integer | .real => number
  | .quoted => quoted
  | .keyword .trueKw => return .bool (← advance).position true
  | .keyword .falseKw => return .bool (← advance).position false
  | .mark .openParen =>
    let _ ← advance
    let e ← expressionOver nested
    let _ ← expect (.mark .closeParen) "')' after expression"
    return e
  | .mark .plus => return .unary (← advance).position .plus (← nested)
  | .mark .minus => return .unary (← advance).position .minus (← nested)
  | .keyword .notKw => return .unary (← advance).position .not (← nested)
  | .identifier => named (expressionOver nested)
  | _ => expected "expression"

omit hy h in
theorem agree_advance {α : Type} {i : Input} {f g : Token → Parse α} (hi : i.Short (n + 1))
    (hk : i.kind.isLast = false) (hf : ∀ t, AgreeOn (Input.Short n) (f t) (g t)) :
    (advance >>= f) i = (advance >>= g) i := by
  obtain ⟨ts, last⟩ := i
  obtain ⟨t, us, rfl, -, hus⟩ := hi.exists_cons rfl hk
  exact hf t _ hus

theorem agree_operandOver : AgreeOn (Input.Short (n + 1)) (operandOver x) (operandOver y) := by
  intro i hi
  have hunary : ∀ op, i.kind.isLast = false →
      (do return Expr.unary (← advance).position op (← x) : Parse Expr) i =
        (do return Expr.unary (← advance).position op (← y) : Parse Expr) i := fun op hk =>
    agree_advance hi hk fun _ => agree_bind (advances hy) h fun _ => .refl _
  unfold operandOver
  rw [kind_bind, kind_bind]
  generalize hkind : i.kind = k
  split
  case h_6 =>
    exact agree_advance hi (hkind ▸ rfl) fun _ =>
      agree_bind (advances (tidy_expressionOver hy)) (agree_expressionOver hy h) fun _ => .refl _
  case h_7 => exact hunary .plus (hkind ▸ rfl)
  case h_8 => exact hunary .minus (hkind ▸ rfl)
  case h_9 => exact hunary .not (hkind ▸ rfl)
  case h_10 =>
    exact agree_named (tidy_expressionOver hy) (agree_expressionOver hy h) hi hkind
  all_goals rfl

omit hy h in
theorem operand_iterate (m : Nat) (nested : Parse Expr) :
    AgreeOn (Input.Short m) (operandOver^[m] nested) (operandWithin m) := by
  induction m with
  | zero => exact fun i hi => absurd hi.2 (Nat.not_lt_zero _)
  | succ m ih =>
    rw [Function.iterate_succ_apply']
    exact agree_operandOver (tidy_operandWithin m) ih

end Operands

end Parse

/-! ## Statements -/

section Statements

variable {n : Nat}

theorem Session.agree_bind {ε α β : Type} {x y : EStateM ε Session α}
    {f g : α → EStateM ε Session β} (hy : Advances y) (hxy : AgreeOn (Session.Short n) x y)
    (hf : ∀ a, AgreeOn (Session.Short n) (f a) (g a)) :
    AgreeOn (Session.Short n) (x >>= f) (y >>= g) :=
  .bind Session.Short.of_le hy hxy hf

theorem Session.agree_rest {ε α β : Type} {x : EStateM ε Session α} {f g : α → EStateM ε Session β}
    (hx : Advances x) (hf : ∀ a, AgreeOn (Session.Short n) (f a) (g a)) :
    AgreeOn (Session.Short n) (x >>= f) (x >>= g) :=
  Session.agree_bind hx (.refl x) hf

theorem Recover.agree_lift {P : Session → Prop} {α : Type} {x y : Recover α} (h : AgreeOn P x y) :
    AgreeOn P (liftM x : Phrase α) (liftM y) := by
  intro s hs
  change (monadLift x : Phrase α) s = (monadLift y : Phrase α) s
  rw [Recover.lift_apply, Recover.lift_apply, h s hs]

namespace Recover

open Session (agree_bind agree_rest)

variable {x y : Phrase Statement} (hy : Tidy y) (h : AgreeOn (Session.Short n) x y)
include hy h

omit hy in
theorem agree_attempt : AgreeOn (Session.Short n) (attempt x) (attempt y) := by
  intro s hs
  unfold attempt
  rw [h s hs]

theorem agree_statementsWithin :
    ∀ m, AgreeOn (Session.Short n) (statementsWithin x m) (statementsWithin y m)
  | 0 => .refl _
  | m + 1 => by
    have ih := agree_statementsWithin m
    refine agree_rest advances_kind fun k => ?_
    split
    · exact .refl _
    · exact .refl _
    · exact agree_rest advances_advance fun _ => ih
    · refine .get fun _ => agree_bind (advances_attempt (Phrase.advances hy)) (agree_attempt h) fun r => ?_
      split
      · exact agree_rest advances_afterStatement fun _ =>
          agree_bind (advances (tidy_statementsWithin hy m)) ih fun _ => .refl _
      · exact agree_rest (advances_afterFault _ _) fun _ => ih

theorem agree_statements : AgreeOn (Session.Short n) (statements x) (statements y) :=
  .get fun _ => agree_statementsWithin hy h _

end Recover

namespace Phrase

open Session (agree_bind agree_rest)

def statementOver (nested : Phrase Statement) : Phrase Statement := do
  let p ← position
  match ← kind with
  | .identifier => Parse.assignmentOrCall
  | .keyword .beginKw =>
    let _ ← Parse.advance
    let parts ← Recover.statements nested
    let _ ← Parse.expect (.keyword .endKw) "'end' to close 'begin'"
    return .compound p parts
  | .keyword .ifKw =>
    let _ ← Parse.advance
    let condition ← Parse.expression
    let _ ← Parse.expect (.keyword .thenKw) "'then' after condition"
    let onTrue ← nested
    if ← Parse.accept (.keyword .elseKw) then
      return .branch p condition onTrue (some (← nested))
    else return .branch p condition onTrue none
  | .keyword .forKw =>
    let _ ← Parse.advance
    let (counter, _) ← Parse.identifier "loop variable"
    let _ ← Parse.expect (.mark .assign) "':=' after loop variable"
    let first ← Parse.expression
    let direction ← Parse.direction
    let last ← Parse.expression
    let _ ← Parse.expect (.keyword .doKw) "'do' after loop bounds"
    return .count p counter first last direction (← nested)
  | .keyword .whileKw =>
    let _ ← Parse.advance
    let condition ← Parse.expression
    let _ ← Parse.expect (.keyword .doKw) "'do' after condition"
    return .loop p condition (← nested)
  | .keyword .exitKw =>
    let _ ← Parse.advance
    return .exit p
  | .mark .semicolon | .keyword .endKw | .keyword .elseKw => return .compound p []
  | _ => (Parse.expected "statement" : Parse Statement)

theorem agree_advance {α : Type} {s : Session} {f g : Token → Phrase α} (hs : s.Short (n + 1))
    (hk : s.input.kind.isLast = false) (hf : ∀ t, AgreeOn (Session.Short n) (f t) (g t)) :
    ((liftM Parse.advance : Phrase Token) >>= f) s = (liftM Parse.advance >>= g) s := by
  obtain ⟨⟨ts, last⟩, notes⟩ := s
  obtain ⟨t, us, rfl, -, hus⟩ := Input.Short.exists_cons hs rfl hk
  exact hf t ⟨⟨us, last⟩, notes⟩ hus

theorem agree_statementOver {x y : Phrase Statement} (hy : Tidy y)
    (h : AgreeOn (Session.Short n) x y) :
    AgreeOn (Session.Short (n + 1)) (statementOver x) (statementOver y) := by
  intro s hs
  have hexpr := Parse.advances_lift Parse.advances_expression
  have hexpect : ∀ k what, Advances (monadLift (Parse.expect k what) : Phrase Token) :=
    fun k what => Parse.advances_lift (Parse.advances_expect k what)
  unfold statementOver
  rw [position_kind_bind, position_kind_bind]
  generalize hkind : s.input.kind = k
  split
  case h_2 =>
    refine agree_advance hs (hkind ▸ rfl) fun _ => ?_
    exact agree_bind (advances (tidy_lift (Recover.tidy_statements hy)))
      (Recover.agree_lift (Recover.agree_statements hy h)) fun _ => .refl _
  case h_3 =>
    refine agree_advance hs (hkind ▸ rfl) fun _ => agree_rest hexpr fun _ =>
      agree_rest (hexpect _ _) fun _ => agree_bind (advances hy) h fun _ =>
        agree_rest (Parse.advances_lift (Parse.advances_accept _)) fun _ => .ite ?_ (.refl _)
    exact agree_bind (advances hy) h fun _ => .refl _
  case h_4 =>
    exact agree_advance hs (hkind ▸ rfl) fun _ =>
      agree_rest (Parse.advances_lift (Parse.advances_identifier _)) fun _ =>
        agree_rest (hexpect _ _) fun _ => agree_rest hexpr fun _ =>
          agree_rest (advances (tidy_lift Parse.tidy_direction)) fun _ =>
            agree_rest hexpr fun _ => agree_rest (hexpect _ _) fun _ =>
              agree_bind (advances hy) h fun _ => .refl _
  case h_5 =>
    exact agree_advance hs (hkind ▸ rfl) fun _ => agree_rest hexpr fun _ =>
      agree_rest (hexpect _ _) fun _ => agree_bind (advances hy) h fun _ => .refl _
  all_goals rfl

theorem statement_iterate (m : Nat) (nested : Phrase Statement) :
    AgreeOn (Session.Short m) (statementOver^[m] nested) (statementWithin m) := by
  induction m with
  | zero => exact fun s hs => absurd hs.2 (Nat.not_lt_zero _)
  | succ m ih =>
    rw [Function.iterate_succ_apply']
    exact agree_statementOver (tidy_statementWithin m) ih

end Phrase

end Statements

end MiniPascal
