import MiniPascal.Proofs.ReadTokens

/-!
# Expressions are read by their rules

The loop over the operators of a tier extends its left operand from left to right, which is what the
rule says with a recursion on the left.
-/

namespace MiniPascal

/-- The reader's precedences are the levels of the rules. -/
theorem BinaryOp.mem_ofLevel {op : BinaryOp} {level : Nat} :
    op ∈ ofLevel level ↔ op.precedence = level := by
  rcases level with _ | _ | _ | _ | level <;> cases op <;> simp [ofLevel, precedence]

namespace Parse

open List

section Tiers

variable {ts : List Token} {k : Token.Kind} {op : BinaryOp}

theorem binaryOp?_eq_some_iff : binaryOp? k = some op ↔ k = op.kind := by
  constructor
  · intro h
    unfold binaryOp? at h
    split at h <;> cases h <;> rfl
  · rintro rfl
    cases op <;> rfl

/-- What may follow a text of a level: no operator of this level or a tighter one, and after a name
no opening parenthesis or bracket. -/
def Stops (level : Nat) (ts : List Token) (k : Token.Kind) : Prop :=
  (∀ j op, op ∈ BinaryOp.ofLevel j → k = op.kind → j < level) ∧
    ∀ us t, ts = us ++ [t] → t.kind = .identifier → k ≠ .mark .openParen ∧ k ≠ .mark .openBracket

theorem Stops.below {level : Nat} (h : Stops level ts k) (op : BinaryOp) (hop : k = op.kind) :
    op.precedence < level :=
  h.1 _ op (BinaryOp.mem_ofLevel.mpr rfl) hop

theorem stops_of_below {level : Nat} (hbelow : ∀ op : BinaryOp, k = op.kind → op.precedence < level)
    (hname : ∀ us t, ts = us ++ [t] → t.kind = .identifier →
      k ≠ .mark .openParen ∧ k ≠ .mark .openBracket) : Stops level ts k :=
  ⟨fun _ op hmem hop => BinaryOp.mem_ofLevel.mp hmem ▸ hbelow op hop, hname⟩

theorem Stops.of_append {tier : Nat} {us vs : List Token} (h : Stops tier (us ++ vs) k) :
    Stops tier vs k := by
  refine ⟨h.1, ?_⟩
  rintro ws t rfl
  exact h.2 (us ++ ws) t (append_assoc us ws [t]).symm

theorem Stops.mono {m n : Nat} (h : Stops m ts k) (hmn : m ≤ n) : Stops n ts k :=
  ⟨fun j op hmem hop => Nat.lt_of_lt_of_le (h.1 j op hmem hop) hmn, h.2⟩

theorem stops_binary {tier : Nat} (h : op.precedence < tier) (ts : List Token) :
    Stops tier ts op.kind := by
  apply stops_of_below
  · intro op' hop
    have hsome : some op = some op' := by
      rw [← binaryOp?_eq_some_iff.mpr rfl, binaryOp?_eq_some_iff.mpr hop]
    cases hsome
    exact h
  · intro us t _ _
    cases op <;> exact ⟨nofun, nofun⟩

variable {tier n : Nat} {operand : Parse Expr} {rule : List Token → Expr → Prop}
  {t last : Token} {rest : List Token}

theorem reads_chain (h : Reads operand rule) (m : Nat) (left : Expr) :
    Reads (chain tier operand m left) fun vs e =>
      ∀ us, TierText tier rule us left → TierText tier rule (us ++ vs) e := by
  have hnil : ∀ left us, TierText tier rule us left → TierText tier rule (us ++ []) left := by
    intro left us hus
    rw [append_nil]
    exact hus
  induction m generalizing left with
  | zero => exact .pure (hnil left)
  | succ m ih =>
    refine reads_kind fun t => ?_
    split
    · exact Reads.pure (hnil left) t
    next op hop =>
    have ht : t.kind = op.kind := binaryOp?_eq_some_iff.mp hop
    split
    · next hprec =>
      refine readsAt_advance ht (by cases op <;> nofun) fun _ => ?_
      refine h.bind fun us right hright => (ih _).mono fun vs e he ws hws => ?_
      have hbinary := he (ws ++ t :: us) (.binary hws ht (BinaryOp.mem_ofLevel.mpr hprec) hright)
      rw [append_assoc] at hbinary
      exact hbinary
    · exact Reads.pure (hnil left) t

theorem reads_tier (h : Reads operand rule) :
    Reads (Parse.tier tier operand) (TierText tier rule) :=
  h.bind fun us _ hleft => .get fun _ => (reads_chain h _ _).mono fun _ _ he =>
    he us (.operand hleft)

/-- The operators after the first operand of a tier, with their right operands, as the loop meets
them. -/
inductive Links (tier : Nat) (rule : List Token → Expr → Prop) :
    Expr → List Token → Expr → Prop
  | nil {e} : Links tier rule e [] e
  | cons {t us vs op left right e} : t.kind = op.kind → op.precedence = tier → rule us right →
      Links tier rule (.binary left.position op left right) vs e →
      Links tier rule left (t :: (us ++ vs)) e

theorem Links.concat {left e right : Expr} {us : List Token} {t : Token}
    (h : Links tier rule left us e) (ht : t.kind = op.kind) (hprec : op.precedence = tier)
    (hright : rule ts right) :
    Links tier rule left (us ++ t :: ts) (.binary e.position op e right) := by
  induction h with
  | @nil left =>
    have hlast : Links tier rule left (t :: (ts ++ [])) _ := .cons ht hprec hright .nil
    rw [append_nil] at hlast
    exact hlast
  | cons hu hprec' hrule _ ih =>
    rw [cons_append, append_assoc]
    exact .cons hu hprec' hrule ih

/-- Grouping to the left is the same as extending the first operand from left to right. -/
theorem exists_links {e : Expr} (h : TierText tier rule ts e) :
    ∃ us vs left, ts = us ++ vs ∧ rule us left ∧ Links tier rule left vs e := by
  induction h with
  | @operand ts e he => exact ⟨ts, [], e, (append_nil ts).symm, he, .nil⟩
  | @binary ts t us left op right _ ht hprec hright ih =>
    obtain ⟨ws, vs, first, rfl, hfirst, hlinks⟩ := ih
    exact ⟨ws, vs ++ t :: us, first, append_assoc _ _ _, hfirst,
      hlinks.concat ht (BinaryOp.mem_ofLevel.mp hprec) hright⟩

/-- What follows the first operand is the next operator, or what follows the whole text. -/
theorem Links.stops {us : List Token} {left e : Expr} (h : Links tier rule left ts e)
    (hstop : Stops tier (us ++ ts) (Input.mk rest last).kind) :
    Stops (tier + 1) us (Input.mk (ts ++ rest) last).kind := by
  cases h with
  | nil =>
    rw [append_nil] at hstop
    exact hstop.mono (Nat.le_succ tier)
  | cons hu hprec _ _ =>
    rw [cons_append, kind_cons, hu]
    exact stops_binary (by omega) us

theorem chain_of_ne {i : Input} (h : ¬∃ op : BinaryOp, i.kind = op.kind ∧ op.precedence = tier)
    (n : Nat) (left : Expr) : chain tier operand n left i = .ok left i := by
  cases n with
  | zero => rfl
  | succ n =>
    unfold chain
    rw [kind_bind]
    cases hop : binaryOp? i.kind with
    | none => rfl
    | some op =>
      dsimp only
      rw [if_neg fun hprec => h ⟨op, binaryOp?_eq_some_iff.mp hop, hprec⟩]
      rfl

theorem chain_of_stops {i : Input} (h : Stops tier ts i.kind) (m : Nat) (left : Expr) :
    chain tier operand m left i = .ok left i :=
  chain_of_ne (fun ⟨op, hop, hprec⟩ => absurd hprec (Nat.ne_of_lt (h.below op hop))) m left

theorem chain_cons (ht : t.kind = op.kind) (n : Nat) (left : Expr) :
    chain op.precedence operand (n + 1) left ⟨t :: ts, last⟩ = (operand >>= fun right =>
        chain op.precedence operand n (.binary left.position op left right)) ⟨ts, last⟩ := by
  have hop : binaryOp? (Input.mk (t :: ts) last).kind = some op := binaryOp?_eq_some_iff.mpr ht
  conv => lhs; unfold chain
  rw [kind_bind, hop]
  dsimp only
  rw [if_pos rfl, advance_cons]

theorem chain_of_links (h : Takes n operand rule (Stops (tier + 1))) {left e : Expr}
    (hlinks : Links tier rule left ts e) (hn : ts.length ≤ n)
    (hstop : Stops tier ts (Input.mk rest last).kind) {m : Nat} (hm : ts.length ≤ m) :
    chain tier operand m left ⟨ts ++ rest, last⟩ = .ok e ⟨rest, last⟩ := by
  induction hlinks generalizing m with
  | nil => exact chain_of_stops hstop m _
  | @cons t us vs op left right e ht hprec hright hlinks ih =>
    rw [length_cons, length_append] at hn hm
    obtain ⟨m, rfl⟩ : ∃ m', m = m' + 1 := ⟨m - 1, by omega⟩
    have hstop : Stops tier ([t] ++ (us ++ vs)) (Input.mk rest last).kind := hstop
    have hnext := hlinks.stops hstop.of_append
    subst hprec
    rw [cons_append, append_assoc, chain_cons ht,
      bind_of_ok (h (vs ++ rest) last (by omega) hright hnext)]
    exact ih (by omega) hstop.of_append.of_append (by omega)

theorem takes_tier (h : Takes n operand rule (Stops (tier + 1))) :
    Takes n (Parse.tier tier operand) (TierText tier rule) (Stops tier) := by
  intro ts e rest last hn he hstop
  obtain ⟨us, vs, left, rfl, hleft, hlinks⟩ := exists_links he
  rw [length_append] at hn
  have hnext := hlinks.stops hstop
  have hm : vs.length ≤ (vs ++ rest).length := by
    rw [length_append]
    omega
  unfold Parse.tier
  rw [append_assoc, bind_of_ok (h (vs ++ rest) last (by omega) hleft hnext), get_bind]
  exact chain_of_links h hlinks (by omega) hstop.of_append hm

end Tiers

section Operands

variable {n : Nat} {expr : Parse Expr} {rule : List Token → Expr → Prop}

theorem reads_commas (h : Reads expr rule) :
    Reads (separated (.mark .comma) expr expr) (Separated (.mark .comma) rule) :=
  reads_separated nofun h h

theorem reads_argumentList (h : Reads expr rule) :
    Reads (argumentList expr) (ArgumentsText rule) := by
  refine reads_expect nofun fun t ht _ => ?_
  refine reads_accept nofun (fun u hu => .pure (.none ht hu)) ?_
  refine (reads_commas h).bind fun us es hes => ?_
  exact reads_expect nofun fun u hu _ => .pure (.some ht hes hu)

theorem reads_indexList (h : Reads expr rule) : Reads (indexList expr) (IndicesText rule) := by
  refine reads_expect nofun fun t ht _ => (reads_commas h).bind fun us es hes => ?_
  exact reads_expect nofun fun u hu _ => .pure (.intro ht hes hu)

theorem reads_expressionOver {operand : Parse Expr} (h : Reads operand rule) :
    Reads (expressionOver operand) (TierText 1 (TierText 2 (TierText 3 rule))) :=
  reads_tier (reads_tier (reads_tier h))

theorem reads_named (h : Reads expr ExprText) : Reads (named expr) OperandText := by
  refine reads_identifier fun t n hn => reads_kind fun u => ?_
  split
  · exact (reads_argumentList h).map (fun us es hes => .call hn hes) u
  · exact (reads_indexList h).map (fun us es hes => .element hn hes) u
  · exact Reads.pure (.name hn) u

theorem reads_operandWithin (n : Nat) : Reads (operandWithin n) OperandText := by
  induction n with
  | zero => exact .expected _
  | succ n ih =>
    have hexpr := reads_expressionOver ih
    have hunary : ∀ {t : Token} (op : UnaryOp), t.kind = op.kind →
        ReadsAt t (do return .unary (← advance).position op (← operandWithin n)) OperandText := by
      intro t op ht
      refine readsAt_advance ht (by cases op <;> nofun) fun _ => ?_
      exact ih.map fun us e he => .unary ht he
    refine reads_kind fun t => ?_
    split
    case h_1 ht =>
      refine readsAt_advance ht nofun fun hcarries => ?_
      obtain ⟨v, hv⟩ := Token.exists_integer hcarries ht
      rw [hv]
      exact .pure (.int ⟨ht, hv⟩)
    case h_2 ht =>
      refine readsAt_advance ht nofun fun hcarries => ?_
      obtain ⟨v, hv⟩ := Token.exists_real hcarries ht
      rw [hv]
      exact .pure (.real ht hv)
    case h_3 ht =>
      refine readsAt_advance ht nofun fun hcarries => ?_
      obtain ⟨v, hv⟩ := Token.exists_text hcarries (.inr ht)
      rw [hv]
      exact .pure (.quoted ht hv)
    case h_4 ht => exact readsAt_advance ht nofun fun _ => .pure (.true ht)
    case h_5 ht => exact readsAt_advance ht nofun fun _ => .pure (.false ht)
    case h_6 ht =>
      refine readsAt_advance ht nofun fun _ => hexpr.bind fun us e he => ?_
      exact reads_expect nofun fun u hu _ => .pure (.parens ht he hu)
    case h_7 ht => exact hunary .plus ht
    case h_8 ht => exact hunary .minus ht
    case h_9 ht => exact hunary .not ht
    case h_10 => exact reads_named hexpr t
    case h_11 => exact Reads.expected _ t

theorem reads_operand : Reads operand OperandText := .get fun _ => reads_operandWithin _

theorem reads_expression : Reads expression ExprText :=
  .get fun _ => reads_expressionOver (reads_operandWithin _)

variable {ts : List Token} {e : Expr} {es : List Expr}

theorem starts_tier {tier : Nat} {P : Token.Kind → Prop} (h : ∀ ts e, rule ts e → Starts ts P)
    (he : TierText tier rule ts e) : Starts ts P := by
  induction he with
  | operand he => exact h _ _ he
  | binary _ _ _ _ ih => exact ih.append _

theorem starts_operand (h : OperandText ts e) : Starts ts (· ≠ .mark .closeParen) := by
  cases h with
  | int ht | name ht | call ht | element ht => exact ⟨_, _, rfl, by rw [ht.1]; nofun⟩
  | real ht | quoted ht | true ht | false ht | parens ht =>
    exact ⟨_, _, rfl, by rw [ht]; nofun⟩
  | @unary _ _ op _ ht => exact ⟨_, _, rfl, by rw [ht]; cases op <;> nofun⟩

theorem starts_expr (h : ExprText ts e) : Starts ts (· ≠ .mark .closeParen) :=
  starts_tier (fun _ _ => starts_tier fun _ _ => starts_tier fun _ _ => starts_operand) h

/-- No operator, and nothing that could go on after a name. -/
def endsExpr (k : Token.Kind) : Bool :=
  (binaryOp? k).isNone && k != .mark .openParen && k != .mark .openBracket

theorem stops_of_ends {k : Token.Kind} (h : endsExpr k = true) (tier : Nat) (ts : List Token) :
    Stops tier ts k := by
  simp only [endsExpr, Bool.and_eq_true, bne_iff_ne, Option.isNone_iff_eq_none] at h
  refine stops_of_below (fun op hk => ?_) fun _ _ _ _ => ⟨h.1.2, h.2⟩
  rw [binaryOp?_eq_some_iff.mpr hk] at h
  cases h.1.1

theorem takes_commas (h : Takes n expr rule (Stops 1)) :
    Takes n (separated (.mark .comma) expr expr) (Separated (.mark .comma) rule) fun _ k =>
      (∀ ts, Stops 1 ts k) ∧ k ≠ .mark .comma :=
  takes_separated h h (stops_of_ends (by rfl) 1)

theorem takes_argumentList (h : Takes n expr rule (Stops 1))
    (hstart : ∀ ts e, rule ts e → Starts ts (· ≠ .mark .closeParen)) :
    Takes n (argumentList expr) (ArgumentsText rule) fun _ _ => True := by
  intro ts es rest last hn hes _
  unfold argumentList
  cases hes with
  | none ht hu =>
    rw [cons_append, bind_of_ok (expect_cons ht _), cons_append,
      bind_of_ok (accept_cons hu)]
    rfl
  | @some t ts u es ht hes hu =>
    rw [length_cons, length_append] at hn
    have hne := (starts_separated hstart hes).kind (u :: rest) last
    have hend : (∀ ts, Stops 1 ts u.kind) ∧ u.kind ≠ .mark .comma := by
      rw [hu]
      exact ⟨stops_of_ends (by rfl) 1, nofun⟩
    rw [cons_append, bind_of_ok (expect_cons ht _), append_assoc, singleton_append,
      bind_of_ok (accept_of_ne hne), if_neg Bool.false_ne_true,
      bind_of_ok (takes_commas h (u :: rest) last (by omega) hes hend),
      bind_of_ok (expect_cons hu _)]
    rfl

theorem takes_indexList (h : Takes n expr rule (Stops 1)) :
    Takes n (indexList expr) (IndicesText rule) fun _ _ => True := by
  intro ts es rest last hn hes _
  unfold indexList
  cases hes with
  | @intro t ts u es ht hes hu =>
    rw [length_cons, length_append] at hn
    have hend : (∀ ts, Stops 1 ts u.kind) ∧ u.kind ≠ .mark .comma := by
      rw [hu]
      exact ⟨stops_of_ends (by rfl) 1, nofun⟩
    rw [cons_append, bind_of_ok (expect_cons ht _), append_assoc, singleton_append,
      bind_of_ok (takes_commas h (u :: rest) last (by omega) hes hend),
      bind_of_ok (expect_cons hu _)]
    rfl

theorem starts_arguments (h : ArgumentsText rule ts es) : Starts ts (· = .mark .openParen) := by
  cases h with
  | none ht | some ht => exact ⟨_, _, rfl, ht⟩

theorem starts_indices (h : IndicesText rule ts es) : Starts ts (· = .mark .openBracket) := by
  cases h with
  | intro ht => exact ⟨_, _, rfl, ht⟩

theorem takes_expressionOver {operand : Parse Expr} (h : Takes n operand rule (Stops 4)) :
    Takes n (expressionOver operand) (TierText 1 (TierText 2 (TierText 3 rule))) (Stops 1) :=
  takes_tier (takes_tier (takes_tier h))

theorem takes_operandWithin (n : Nat) : Takes n (operandWithin n) OperandText (Stops 4) := by
  induction n with
  | zero =>
    intro ts e rest last hn he _
    obtain ⟨t, us, rfl, -⟩ := starts_operand he
    exact absurd hn (Nat.not_succ_le_zero _)
  | succ n ih =>
    have hexpr := takes_expressionOver ih
    intro ts e rest last hn he hstop
    unfold operandWithin
    cases he with
    | int ht =>
      rw [kind_bind, singleton_append, kind_cons, ht.1]
      dsimp only [number]
      rw [advance_cons, ht.2]
      rfl
    | real ht hv =>
      rw [kind_bind, singleton_append, kind_cons, ht]
      dsimp only [number]
      rw [advance_cons, hv]
      rfl
    | quoted ht hv =>
      rw [kind_bind, singleton_append, kind_cons, ht]
      dsimp only [quoted]
      rw [advance_cons, hv]
      rfl
    | true ht | false ht =>
      rw [kind_bind, singleton_append, kind_cons, ht]
      rfl
    | @parens t ts u e ht he hu =>
      rw [length_cons, length_append] at hn
      have hend : Stops 1 ts u.kind := by
        rw [hu]
        exact stops_of_ends (by rfl) 1 ts
      rw [kind_bind, cons_append, kind_cons, ht]
      dsimp only
      rw [advance_cons, append_assoc, singleton_append,
        bind_of_ok (hexpr (u :: rest) last (by omega) he hend), bind_of_ok (expect_cons hu _)]
      rfl
    | @unary t ts op e ht he =>
      have hstop : Stops 4 ([t] ++ ts) _ := hstop
      have hread := ih rest last (Nat.le_of_succ_le_succ hn) he hstop.of_append
      rw [kind_bind, cons_append, kind_cons, ht]
      cases op <;> dsimp only [UnaryOp.kind] <;> rw [advance_cons, bind_of_ok hread] <;> rfl
    | @name t n ht =>
      obtain ⟨hparen, hbracket⟩ := hstop.2 [] t rfl ht.1
      rw [kind_bind, singleton_append, kind_cons, ht.1]
      dsimp only [named]
      rw [bind_of_ok (identifier_cons ht _), kind_bind]
      refine congrFun (?_ : _ = (Pure.pure (Expr.name t.position n) : Parse Expr)) _
      split
      · next hk => exact absurd hk hparen
      · next hk => exact absurd hk hbracket
      · rfl
    | @call t ts n es ht hes =>
      have hread := takes_argumentList hexpr (fun _ _ => starts_expr) rest last
        (Nat.le_of_succ_le_succ hn) hes trivial
      rw [kind_bind, cons_append, kind_cons, ht.1]
      dsimp only [named]
      rw [bind_of_ok (identifier_cons ht _), kind_bind, (starts_arguments hes).kind rest last]
      dsimp only
      rw [bind_of_ok hread]
      rfl
    | @element t ts n es ht hes =>
      have hread := takes_indexList hexpr rest last (Nat.le_of_succ_le_succ hn) hes trivial
      rw [kind_bind, cons_append, kind_cons, ht.1]
      dsimp only [named]
      rw [bind_of_ok (identifier_cons ht _), kind_bind, (starts_indices hes).kind rest last]
      dsimp only
      rw [bind_of_ok hread]
      rfl

theorem takes_operand (n : Nat) : Takes n operand OperandText (Stops 4) := by
  intro ts e rest last _ he hstop
  refine takes_operandWithin _ rest last ?_ he hstop
  rw [length_append]
  omega

theorem takes_expression (n : Nat) : Takes n expression ExprText (Stops 1) := by
  intro ts e rest last _ he hstop
  refine takes_expressionOver (takes_operandWithin _) rest last ?_ he hstop
  rw [length_append]
  omega

end Operands

end Parse

end MiniPascal
