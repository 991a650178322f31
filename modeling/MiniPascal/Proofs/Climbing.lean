import MiniPascal.Proofs.ReadExpressions

/-!
# Operators by precedence

Expressions are read by a tower of tiers, one for each precedence. The tower is the same reader as
one loop over all operators, and the proof peels one tier off the loop (`extend_eq_chain`).
-/

namespace MiniPascal

open List

theorem BinaryOp.precedence_lt (op : BinaryOp) : op.precedence < 4 := by cases op <;> decide

theorem Advances.rest_of_ok {α : Type} {x : Parse α} {a : α} {ts : List Token} {last : Token}
    {i : Input} (hx : Advances x) (h : x ⟨ts, last⟩ = .ok a i) :
    ∃ rest, i = ⟨rest, last⟩ ∧ rest.length ≤ ts.length := by
  obtain ⟨hsuffix, hend⟩ := hx.of_ok h
  exact ⟨i.tokens, by cases i; cases hend; rfl, hsuffix.length_le⟩

namespace Parse

/-- Extends `left` by the operators that bind at least as tight as `least`. Each takes a token, so
the number of tokens left is enough as a bound. -/
def extend (operand : Parse Expr) : Nat → Nat → Expr → Parse Expr
  | 0, _, left => return left
  | n + 1, least, left => do
    match binaryOp? (← kind) with
    | none => return left
    | some op =>
      if op.precedence < least then return left
      else
        let _ ← advance
        let right ← extend operand n (op.precedence + 1) (← operand)
        extend operand n least (.binary left.position op left right)

/-- An expression of operators that bind at least as tight as `least`. -/
def climb (operand : Parse Expr) (least : Nat) : Parse Expr := do
  let left ← operand
  extend operand (← get).tokens.length least left

section Climbing

variable {operand : Parse Expr} {t last : Token} {ts : List Token} {i : Input} {op : BinaryOp}
  {least n m : Nat}

theorem bind_congr {ε σ α β : Type} {x y : EStateM ε σ α} {f g : α → EStateM ε σ β} {s s' : σ}
    (hxy : x s = y s') (h : ∀ a u, y s' = .ok a u → f a u = g a u) :
    (x >>= f) s = (y >>= g) s' := by
  change EStateM.bind x f s = EStateM.bind y g s'
  unfold EStateM.bind
  rw [hxy]
  cases hy : y s' with
  | ok a u => exact h a u hy
  | error e u => rfl

theorem stops_or_binary (least : Nat) (k : Token.Kind) :
    Stops least [] k ∨ ∃ op : BinaryOp, k = op.kind ∧ least ≤ op.precedence := by
  by_cases h : ∃ op : BinaryOp, k = op.kind ∧ least ≤ op.precedence
  · exact .inr h
  · refine .inl (stops_of_below (fun op hop => ?_) fun us t h => absurd h (by simp))
    exact Nat.lt_of_not_le fun hle => h ⟨op, hop, hle⟩

/-- No operator binds as tight as an operand, so that only a last name could go on. -/
theorem stops_four (ts : List Token) (h : ∀ us t, ts = us ++ [t] → t.kind ≠ .identifier)
    {k : Token.Kind} : Stops 4 ts k :=
  stops_of_below (fun op _ => op.precedence_lt) fun us t hts ht => absurd ht (h us t hts)

theorem kind_ne_isLast (op : BinaryOp) : op.kind.isLast = false := by cases op <;> rfl

theorem exists_cons_of_kind (hlast : last.kind.isLast = true)
    (hk : (Input.mk ts last).kind.isLast = false) : ∃ t rest, ts = t :: rest := by
  cases ts with
  | nil => exact absurd (hlast.symm.trans hk) nofun
  | cons t rest => exact ⟨t, rest, rfl⟩

theorem exists_cons_of_binary (hlast : last.kind.isLast = true)
    (hop : (Input.mk ts last).kind = op.kind) : ∃ t rest, ts = t :: rest ∧ t.kind = op.kind := by
  obtain ⟨t, rest, rfl⟩ := exists_cons_of_kind hlast (hop ▸ kind_ne_isLast op)
  exact ⟨t, rest, rfl, hop⟩

theorem extend_of_stops (h : Stops least ts i.kind) (n : Nat) (left : Expr) :
    extend operand n least left i = .ok left i := by
  cases n with
  | zero => rfl
  | succ n =>
    unfold extend
    rw [kind_bind]
    cases hop : binaryOp? i.kind with
    | none => rfl
    | some op =>
      dsimp only
      rw [if_pos (h.below op (binaryOp?_eq_some_iff.mp hop))]
      rfl

theorem extend_cons (ht : t.kind = op.kind) (hle : least ≤ op.precedence) (n : Nat) (left : Expr) :
    extend operand (n + 1) least left ⟨t :: ts, last⟩ =
      (operand >>= fun e => extend operand n (op.precedence + 1) e >>= fun right =>
        extend operand n least (.binary left.position op left right)) ⟨ts, last⟩ := by
  have hop : binaryOp? (Input.mk (t :: ts) last).kind = some op := binaryOp?_eq_some_iff.mpr ht
  conv => lhs; unfold extend
  rw [kind_bind, hop]
  dsimp only
  rw [if_neg (Nat.not_lt.mpr hle), advance_cons]

theorem stops_last (hlast : last.kind.isLast = true) (least : Nat) :
    Stops least [] (Input.mk [] last).kind := by
  rcases stops_or_binary least last.kind with hstop | ⟨op, hop, -⟩
  · exact hstop
  · rw [hop, kind_ne_isLast] at hlast
    cases hlast

variable (h : Advances operand)
include h

theorem advances_extend : ∀ n least left, Advances (extend operand n least left)
  | 0, _, _ => .pure _
  | n + 1, least, left => .bind advances_kind fun k => by
    split
    · exact .pure _
    · refine .ite (.pure _) (.bind advances_advance fun _ => .bind h fun _ => ?_)
      exact .bind (advances_extend n _ _) fun _ => advances_extend n _ _

theorem advances_climb (least : Nat) : Advances (climb operand least) :=
  .bind h fun _ => .bind .get fun _ => advances_extend h _ _ _

theorem stops_of_extend {left e : Expr} (hlast : last.kind.isLast = true) (hn : ts.length ≤ n)
    (hok : extend operand n least left ⟨ts, last⟩ = .ok e i) : Stops least [] i.kind := by
  induction n generalizing ts left with
  | zero =>
    obtain rfl := length_eq_zero_iff.mp (Nat.le_zero.mp hn)
    cases hok
    exact stops_last hlast least
  | succ n ih =>
    rcases stops_or_binary least (Input.mk ts last).kind with hstop | ⟨op, hop, hle⟩
    · rw [extend_of_stops hstop] at hok
      cases hok
      exact hstop
    · obtain ⟨t, rest, rfl, ht⟩ := exists_cons_of_binary hlast hop
      rw [extend_cons ht hle] at hok
      obtain ⟨x, i₁, hx, hok⟩ := bind_eq_ok hok
      obtain ⟨us, rfl, hus⟩ := h.rest_of_ok hx
      obtain ⟨right, i₂, hright, hok⟩ := bind_eq_ok hok
      obtain ⟨vs, rfl, hvs⟩ := (advances_extend h _ _ _).rest_of_ok hright
      rw [length_cons] at hn
      exact ih (by omega) hok

theorem stops_of_climb {e : Expr} (hlast : last.kind.isLast = true)
    (hok : climb operand least ⟨ts, last⟩ = .ok e i) : Stops least [] i.kind := by
  obtain ⟨left, i₁, hleft, hok⟩ := bind_eq_ok hok
  obtain ⟨us, rfl, -⟩ := h.rest_of_ok hleft
  exact stops_of_extend h hlast (Nat.le_refl us.length) hok

theorem extend_bound (hlast : last.kind.isLast = true) (hn : ts.length ≤ n) (hm : ts.length ≤ m)
    (least : Nat) (left : Expr) :
    extend operand n least left ⟨ts, last⟩ = extend operand m least left ⟨ts, last⟩ := by
  induction n generalizing ts m least left with
  | zero =>
    obtain rfl := length_eq_zero_iff.mp (Nat.le_zero.mp hn)
    exact (extend_of_stops (stops_last hlast least) m left).symm
  | succ n ih =>
    rcases stops_or_binary least (Input.mk ts last).kind with hstop | ⟨op, hop, hle⟩
    · rw [extend_of_stops hstop, extend_of_stops hstop]
    · obtain ⟨t, rest, rfl, ht⟩ := exists_cons_of_binary hlast hop
      obtain ⟨m, rfl⟩ := Nat.exists_eq_add_one_of_ne_zero (Nat.ne_zero_of_lt hm)
      rw [length_cons] at hn hm
      rw [extend_cons ht hle, extend_cons ht hle]
      refine bind_congr rfl fun x i₁ hx => ?_
      obtain ⟨us, rfl, hus⟩ := h.rest_of_ok hx
      refine bind_congr (ih (by omega) (by omega) _ _) fun right i₂ hright => ?_
      obtain ⟨vs, rfl, hvs⟩ := (advances_extend h _ _ _).rest_of_ok hright
      exact ih (by omega) (by omega) _ _

variable {other : Parse Expr}

/-- The loop of a tier depends neither on its bound, if that is large enough, nor on what its
operands do elsewhere than in a text. -/
theorem chain_congr (hother : ∀ us, operand ⟨us, last⟩ = other ⟨us, last⟩)
    (hlast : last.kind.isLast = true) (hn : ts.length ≤ n) (hm : ts.length ≤ m) (tier : Nat)
    (left : Expr) : chain tier operand n left ⟨ts, last⟩ = chain tier other m left ⟨ts, last⟩ := by
  induction n generalizing ts m left with
  | zero =>
    obtain rfl := length_eq_zero_iff.mp (Nat.le_zero.mp hn)
    exact (chain_of_stops (stops_last hlast tier) m left).symm
  | succ n ih =>
    by_cases hop : ∃ op : BinaryOp, (Input.mk ts last).kind = op.kind ∧ op.precedence = tier
    · obtain ⟨op, hop, rfl⟩ := hop
      obtain ⟨t, rest, rfl, ht⟩ := exists_cons_of_binary hlast hop
      obtain ⟨m, rfl⟩ := Nat.exists_eq_add_one_of_ne_zero (Nat.ne_zero_of_lt hm)
      rw [length_cons] at hn hm
      rw [chain_cons ht, chain_cons ht]
      refine bind_congr (hother rest) fun right i₁ hright => ?_
      obtain ⟨us, rfl, hus⟩ := h.rest_of_ok ((hother rest).trans hright)
      exact ih (by omega) (by omega) _
    · rw [chain_of_ne hop, chain_of_ne hop]

theorem tier_congr (hother : ∀ us, operand ⟨us, last⟩ = other ⟨us, last⟩)
    (hlast : last.kind.isLast = true) (tier : Nat) (ts : List Token) :
    Parse.tier tier operand ⟨ts, last⟩ = Parse.tier tier other ⟨ts, last⟩ := by
  refine bind_congr (hother ts) fun left i₁ hleft => ?_
  obtain ⟨us, rfl, -⟩ := h.rest_of_ok ((hother ts).trans hleft)
  exact chain_congr h hother hlast (Nat.le_refl _) (Nat.le_refl _) tier left

theorem climb_bound (hlast : last.kind.isLast = true) (hn : ts.length ≤ n) (least : Nat) :
    (operand >>= extend operand n least) ⟨ts, last⟩ = climb operand least ⟨ts, last⟩ := by
  refine bind_congr rfl fun x i₁ hx => ?_
  obtain ⟨us, rfl, hus⟩ := h.rest_of_ok hx
  exact extend_bound h hlast (Nat.le_trans hus hn) (Nat.le_refl _) least x

/-- To extend by the operators of a level and of those above is to extend by those above first, and
then, from operand to operand, by the operators of the level. -/
theorem extend_eq_chain (hlast : last.kind.isLast = true) (hn : ts.length ≤ n) (least : Nat)
    (left : Expr) :
    extend operand n least left ⟨ts, last⟩ = (extend operand n (least + 1) left >>= fun left => do
      chain least (climb operand (least + 1)) (← get).tokens.length left) ⟨ts, last⟩ := by
  induction n generalizing ts left with
  | zero =>
    obtain rfl := length_eq_zero_iff.mp (Nat.le_zero.mp hn)
    rfl
  | succ n ih =>
    rcases stops_or_binary (least + 1) (Input.mk ts last).kind with hstop | ⟨op, hop, hle⟩
    · rw [bind_of_ok (extend_of_stops hstop _ _), get_bind]
      rcases stops_or_binary least (Input.mk ts last).kind with hstop' | ⟨op, hop, hle⟩
      · rw [extend_of_stops hstop', chain_of_stops hstop']
      -- An operator of this very level: both go on with a right operand of the next one.
      · obtain rfl : least = op.precedence :=
          Nat.le_antisymm hle (Nat.le_of_lt_succ (hstop.below op hop))
        obtain ⟨t, rest, rfl, ht⟩ := exists_cons_of_binary hlast hop
        rw [length_cons] at hn ⊢
        rw [extend_cons ht hle, chain_cons ht, ← bind_assoc]
        have hrest : rest.length ≤ n := Nat.le_of_succ_le_succ hn
        refine bind_congr (climb_bound h hlast hrest _) fun right i₁ hright => ?_
        obtain ⟨us, rfl, hus⟩ := (advances_climb h _).rest_of_ok hright
        have hstop := stops_of_climb h hlast hright
        rw [ih (Nat.le_trans hus hrest), bind_of_ok (extend_of_stops hstop _ _), get_bind]
        exact chain_congr (advances_climb h _) (fun _ => rfl) hlast (Nat.le_refl _) hus _ _
    -- A tighter operator belongs to the left operand on both sides.
    · obtain ⟨t, rest, rfl, ht⟩ := exists_cons_of_binary hlast hop
      rw [length_cons] at hn
      rw [extend_cons ht (Nat.le_of_succ_le hle)]
      refine Eq.trans ?_ (bind_congr (extend_cons ht hle n left).symm fun _ _ _ => rfl)
      rw [bind_assoc]
      refine bind_congr rfl fun x i₁ hx => ?_
      obtain ⟨us, rfl, hus⟩ := h.rest_of_ok hx
      rw [bind_assoc]
      refine bind_congr rfl fun right i₂ hright => ?_
      obtain ⟨vs, rfl, hvs⟩ := (advances_extend h _ _ _).rest_of_ok hright
      exact ih (by omega) _

theorem climb_eq_tier (hlast : last.kind.isLast = true) (least : Nat) (ts : List Token) :
    climb operand least ⟨ts, last⟩ = Parse.tier least (climb operand (least + 1)) ⟨ts, last⟩ := by
  unfold Parse.tier
  conv => rhs; unfold climb
  rw [bind_assoc]
  refine bind_congr rfl fun left i₁ hleft => ?_
  obtain ⟨us, rfl, -⟩ := h.rest_of_ok hleft
  exact extend_eq_chain h hlast (Nat.le_refl _) least left

omit h in
theorem climb_four : climb operand 4 = operand := by
  funext i
  have hpure : ∀ n left i, extend operand n 4 left i = .ok left i := fun n left i =>
    extend_of_stops (stops_four [] (by simp)) n left
  change EStateM.bind operand _ i = operand i
  unfold EStateM.bind
  cases operand i with
  | ok left j => exact hpure _ left j
  | error => rfl

/-- The tower of tiers is one loop over all operators. -/
theorem expressionOver_eq_climb (hlast : last.kind.isLast = true) (ts : List Token) :
    expressionOver operand ⟨ts, last⟩ = climb operand 1 ⟨ts, last⟩ := by
  have hthree : ∀ us, Parse.tier 3 operand ⟨us, last⟩ = climb operand 3 ⟨us, last⟩ := by
    intro us
    rw [climb_eq_tier h hlast, climb_four]
  have htwo : ∀ us,
      Parse.tier 2 (Parse.tier 3 operand) ⟨us, last⟩ = climb operand 2 ⟨us, last⟩ := by
    intro us
    rw [climb_eq_tier h hlast, tier_congr (advances_tier h 3) hthree hlast]
  unfold expressionOver
  rw [climb_eq_tier h hlast, tier_congr (advances_tier (advances_tier h 3) 2) htwo hlast]

end Climbing

end Parse

end MiniPascal
