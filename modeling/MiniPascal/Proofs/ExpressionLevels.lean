import MiniPascal.Proofs.Climbing
import MiniPascal.Token.Scan
import MiniPascal.Tree.Text

/-!
# Expressions by levels

Expressions have four levels: comparisons, sums, products and, tightest, single operands. Before any
tokens the reader of expressions takes exactly a text of the lowest level that cannot go on.
-/

namespace MiniPascal

open List

/-- The name that an identifier stands for. One without a value stands for its lower case. -/
def Token.denoted (t : Token) : String :=
  match t.payload with
  | some (.text name) => name
  | _ => t.text.map Char.toLower

/-- The text between the quotes. -/
def Token.quotation (t : Token) : String :=
  match t.payload with
  | some (.text v) => v
  | _ => ""

/-- Texts by level, the operands being level 4. -/
inductive LevelText (operand : List Token → Expr → Prop) : Nat → List Token → Expr → Prop
  | operand {ts e} : operand ts e → LevelText operand 4 ts e
  | tighter {k ts e} : LevelText operand (k + 1) ts e → LevelText operand k ts e
  | binary {k ts t us left op right} : LevelText operand k ts left → t.kind = op.kind →
      op ∈ BinaryOp.ofLevel k → LevelText operand (k + 1) us right →
      LevelText operand k (ts ++ t :: us) (.binary left.position op left right)

/-- Single operands over any tokens: a number is known by its value, and names and quoted text may
lack theirs. -/
inductive PrefixText : List Token → Expr → Prop
  | int {t v} : t.kind = .integer ∨ t.kind = .real → t.payload = some (.integer v) →
      PrefixText [t] (.int t.position v)
  | real {t v} : t.kind = .integer ∨ t.kind = .real → t.payload = some (.real v) →
      PrefixText [t] (.real t.position v)
  | quoted {t} : t.kind = .quoted → PrefixText [t] (Parse.quotedValue t.position t.quotation)
  | true {t} : t.kind = .keyword .trueKw → PrefixText [t] (.bool t.position true)
  | false {t} : t.kind = .keyword .falseKw → PrefixText [t] (.bool t.position false)
  | parens {t ts u e} : t.kind = .mark .openParen → LevelText PrefixText 1 ts e →
      u.kind = .mark .closeParen → PrefixText (t :: (ts ++ [u])) e
  | unary {t ts op e} : t.kind = op.kind → PrefixText ts e →
      PrefixText (t :: ts) (.unary t.position op e)
  | name {t} : t.kind = .identifier → PrefixText [t] (.name t.position t.denoted)
  | call {t ts es} : t.kind = .identifier → ArgumentsText (LevelText PrefixText 1) ts es →
      PrefixText (t :: ts) (.call t.position t.denoted es)
  | element {t ts es} : t.kind = .identifier → IndicesText (LevelText PrefixText 1) ts es →
      PrefixText (t :: ts) (.element t.position t.denoted es)

abbrev ExprAt (level : Nat) : List Token → Expr → Prop := LevelText PrefixText level

section Levels

variable {rule : List Token → Expr → Prop} {ts : List Token} {e : Expr} {j k : Nat}

theorem LevelText.loosen (h : LevelText rule k ts e) (hjk : j ≤ k) : LevelText rule j ts e := by
  induction hjk with
  | refl => exact h
  | step _ ih => exact ih h.tighter

theorem LevelText.tier (h : LevelText rule k ts e) (hk : k < 4) :
    TierText k (LevelText rule (k + 1)) ts e := by
  induction h with
  | operand _ => exact absurd hk (Nat.lt_irrefl 4)
  | tighter h _ => exact .operand h
  | binary _ ht hprec hright ih _ => exact .binary (ih hk) ht hprec hright

theorem TierText.mono {other : List Token → Expr → Prop} (h : TierText k rule ts e)
    (himp : ∀ ts e, rule ts e → other ts e) : TierText k other ts e := by
  induction h with
  | operand he => exact .operand (himp _ _ he)
  | binary _ ht hprec hright ih => exact .binary ih ht hprec (himp _ _ hright)

theorem LevelText.of_four (h : LevelText rule 4 ts e) : rule ts e := by
  have hno : ∀ {j ts e}, LevelText rule j ts e → j ≤ 4 := by
    intro j ts e h
    induction h with
    | operand => exact Nat.le_refl 4
    | tighter _ ih => exact Nat.le_of_succ_le ih
    | binary _ _ _ _ ih => exact ih
  cases h with
  | operand he => exact he
  | tighter h => exact absurd (hno h) (by decide)
  | binary _ _ hop _ => exact absurd hop not_mem_nil

theorem LevelText.tiers (h : LevelText rule 1 ts e) :
    TierText 1 (TierText 2 (TierText 3 rule)) ts e := by
  refine (h.tier (by decide)).mono fun _ _ h => ?_
  refine (h.tier (by decide)).mono fun _ _ h => ?_
  exact (h.tier (by decide)).mono fun _ _ h => h.of_four

theorem starts_level {P : Token.Kind → Prop} (hrule : ∀ ts e, rule ts e → Starts ts P)
    (h : LevelText rule k ts e) : Starts ts P := by
  induction h with
  | operand he => exact hrule _ _ he
  | tighter _ ih => exact ih
  | binary _ _ _ _ ih _ => exact ih.append _

theorem starts_prefix (h : PrefixText ts e) : Starts ts (· ≠ .mark .closeParen) := by
  cases h with
  | int ht | real ht => exact ⟨_, _, rfl, by rcases ht with ht | ht <;> rw [ht] <;> nofun⟩
  | quoted ht | true ht | false ht | parens ht | name ht | call ht | element ht =>
    exact ⟨_, _, rfl, by rw [ht]; nofun⟩
  | @unary _ _ op _ ht => exact ⟨_, _, rfl, by rw [ht]; cases op <;> nofun⟩

end Levels

namespace Parse

section Found

/-- Before any tokens and any end, the reader takes only texts of the rule, which may ask something
of the token that follows. -/
def Finds {α : Type} (x : Parse α) (rule : List Token → α → Token.Kind → Prop) : Prop :=
  ∀ ⦃ts last a i⦄, last.kind.isLast = true → x ⟨ts, last⟩ = .ok a i →
    ∃ us rest, ts = us ++ rest ∧ i = ⟨rest, last⟩ ∧ rule us a i.kind

/-- The same before a token of the given kind. -/
def FindsAt {α : Type} (k : Token.Kind) (x : Parse α) (rule : List Token → α → Token.Kind → Prop) :
    Prop :=
  ∀ ⦃ts last a i⦄, last.kind.isLast = true → (Input.mk ts last).kind = k →
    x ⟨ts, last⟩ = .ok a i → ∃ us rest, ts = us ++ rest ∧ i = ⟨rest, last⟩ ∧ rule us a i.kind

variable {α : Type} {t last : Token} {ts : List Token} {i : Input} {k : Token.Kind} {n : Nat}
  {rule : List Token → α → Token.Kind → Prop} {what : String} {x : Parse α}

theorem Finds.at (h : Finds x rule) (k : Token.Kind) : FindsAt k x rule :=
  fun _ _ _ _ hlast _ hok => h hlast hok

theorem Finds.pure {a : α} {rule : List Token → α → Token.Kind → Prop} (h : ∀ k, rule [] a k) :
    Finds (pure a) rule := by
  intro ts last b i hlast hok
  cases hok
  exact ⟨[], ts, rfl, rfl, h _⟩

theorem Finds.map {β : Type} {g : α → β} {first : List Token → α → Token.Kind → Prop}
    {rule : List Token → β → Token.Kind → Prop} (hx : Finds x first)
    (h : ∀ us a k, first us a k → rule us (g a) k) : Finds (do return g (← x)) rule := by
  intro ts last b i hlast hok
  obtain ⟨a, i₁, hread, hok⟩ := bind_eq_ok hok
  obtain ⟨us, rest, rfl, rfl, ha⟩ := hx hlast hread
  cases hok
  exact ⟨us, rest, rfl, rfl, h us a _ ha⟩

theorem finds_kind {f : Token.Kind → Parse α} (h : ∀ k, FindsAt k (f k) rule) :
    Finds (kind >>= f) rule :=
  fun _ _ _ _ hlast hok => h _ hlast rfl hok

theorem findsAt_advance {f : Token → Parse α} (hk : k.isLast = false)
    (h : ∀ t, t.kind = k → Finds (f t) fun us a k' => rule (t :: us) a k') :
    FindsAt k (advance >>= f) rule := by
  intro ts last a i hlast hkind hok
  obtain ⟨t, rest, rfl⟩ := exists_cons_of_kind hlast (hkind ▸ hk)
  obtain ⟨us, rest, rfl, rfl, hrule⟩ := h t hkind hlast hok
  exact ⟨t :: us, rest, rfl, rfl, hrule⟩

theorem expect_eq_ok (hlast : last.kind.isLast = true) (hk : k.isLast = false)
    (h : expect k what ⟨ts, last⟩ = .ok t i) :
    ∃ rest, ts = t :: rest ∧ t.kind = k ∧ i = ⟨rest, last⟩ := by
  unfold expect at h
  rw [kind_bind] at h
  split at h
  · next ht =>
    obtain ⟨u, rest, rfl⟩ := exists_cons_of_kind hlast (ht ▸ hk)
    cases h
    exact ⟨rest, rfl, ht, rfl⟩
  · cases h

theorem accept_eq_ok {b : Bool} (hlast : last.kind.isLast = true) (hk : k.isLast = false)
    (h : accept k ⟨ts, last⟩ = .ok b i) :
    (b = true ∧ ∃ t rest, ts = t :: rest ∧ t.kind = k ∧ i = ⟨rest, last⟩) ∨
      (b = false ∧ i = ⟨ts, last⟩) := by
  unfold accept at h
  rw [kind_bind] at h
  split at h
  · next ht =>
    obtain ⟨u, rest, rfl⟩ := exists_cons_of_kind hlast (ht ▸ hk)
    cases h
    exact .inl ⟨rfl, u, rest, rfl, ht, rfl⟩
  · cases h
    exact .inr ⟨rfl, rfl⟩

theorem identifier_token (ht : t.kind = .identifier) (what : String) :
    identifier what ⟨t :: ts, last⟩ = .ok (t.denoted, t.position) ⟨ts, last⟩ := by
  unfold identifier Token.denoted
  rw [bind_of_ok (expect_cons ht what)]
  cases t.payload with
  | none => rfl
  | some value => cases value <;> rfl

theorem finds_identifier {f : String × Position → Parse α} (h : ∀ t, t.kind = .identifier →
      Finds (f (t.denoted, t.position)) fun us a k => rule (t :: us) a k) :
    Finds (identifier what >>= f) rule := by
  intro ts last a i hlast hok
  obtain ⟨name, i₁, hname, hok⟩ := bind_eq_ok hok
  obtain ⟨t, i₂, hexpect, -⟩ := bind_eq_ok hname
  obtain ⟨rest, rfl, ht, -⟩ := expect_eq_ok hlast rfl hexpect
  rw [identifier_token ht] at hname
  cases hname
  obtain ⟨us, rest, rfl, rfl, hrule⟩ := h t ht hlast hok
  exact ⟨t :: us, rest, rfl, rfl, hrule⟩

theorem finds_more {separator : Token.Kind} {item : Parse α} {rule : List Token → α → Prop}
    (hs : separator.isLast = false) (hitem : Finds item fun us a _ => rule us a) (n : Nat) :
    Finds (more separator item n) fun us as _ =>
      ∀ vs a, rule vs a → Separated separator rule (vs ++ us) (a :: as) := by
  have hone : ∀ vs a, rule vs a → Separated separator rule (vs ++ []) [a] := by
    intro vs a ha
    rw [append_nil]
    exact .one ha
  induction n with
  | zero =>
    intro ts last as i hlast hok
    cases hok
    exact ⟨[], ts, rfl, rfl, hone⟩
  | succ n ih =>
    intro ts last as i hlast hok
    obtain ⟨b, i₁, hb, hok⟩ := bind_eq_ok hok
    rcases accept_eq_ok hlast hs hb with ⟨rfl, t, rest, rfl, ht, rfl⟩ | ⟨rfl, rfl⟩
    · obtain ⟨a, i₂, hread, hok⟩ := bind_eq_ok hok
      obtain ⟨us, rest, rfl, rfl, ha⟩ := hitem hlast hread
      obtain ⟨as, i₃, hmore, hok⟩ := bind_eq_ok hok
      obtain ⟨vs, rest, rfl, rfl, has⟩ := ih hlast hmore
      cases hok
      exact ⟨t :: (us ++ vs), rest, by simp, rfl, fun ws b hb => .more hb ht (has us a ha)⟩
    · cases hok
      exact ⟨[], ts, rfl, rfl, hone⟩

variable {expr : Parse Expr} {rule : List Token → Expr → Prop}

theorem finds_commas (h : Finds expr fun us e _ => rule us e) :
    Finds (separated (.mark .comma) expr expr) fun us es _ =>
      Separated (.mark .comma) rule us es := by
  intro ts last es i hlast hok
  obtain ⟨e, i₁, hread, hok⟩ := bind_eq_ok hok
  obtain ⟨us, rest, rfl, rfl, he⟩ := h hlast hread
  obtain ⟨es, i₂, hmore, hok⟩ := bind_eq_ok (f := fun es => pure (e :: es)) hok
  obtain ⟨vs, rest, rfl, rfl, hes⟩ := finds_more rfl h _ hlast hmore
  cases hok
  exact ⟨us ++ vs, rest, (append_assoc us vs rest).symm, rfl, hes us e he⟩

theorem finds_argumentList (h : Finds expr fun us e _ => rule us e) :
    Finds (argumentList expr) fun us es _ => ArgumentsText rule us es := by
  intro ts last es i hlast hok
  obtain ⟨t, i₁, hopen, hok⟩ := bind_eq_ok hok
  obtain ⟨rest, rfl, ht, rfl⟩ := expect_eq_ok hlast rfl hopen
  obtain ⟨b, i₂, hb, hok⟩ := bind_eq_ok hok
  rcases accept_eq_ok hlast rfl hb with ⟨rfl, u, rest, rfl, hu, rfl⟩ | ⟨rfl, rfl⟩
  · cases hok
    exact ⟨[t, u], rest, rfl, rfl, .none ht hu⟩
  · obtain ⟨es, i₃, hread, hok⟩ := bind_eq_ok hok
    obtain ⟨us, rest, rfl, rfl, hes⟩ := finds_commas h hlast hread
    obtain ⟨u, i₄, hclose, hok⟩ := bind_eq_ok hok
    obtain ⟨rest, rfl, hu, rfl⟩ := expect_eq_ok hlast rfl hclose
    cases hok
    exact ⟨t :: (us ++ [u]), rest, by simp, rfl, .some ht hes hu⟩

theorem finds_indexList (h : Finds expr fun us e _ => rule us e) :
    Finds (indexList expr) fun us es _ => IndicesText rule us es := by
  intro ts last es i hlast hok
  obtain ⟨t, i₁, hopen, hok⟩ := bind_eq_ok hok
  obtain ⟨rest, rfl, ht, rfl⟩ := expect_eq_ok hlast rfl hopen
  obtain ⟨es, i₃, hread, hok⟩ := bind_eq_ok hok
  obtain ⟨us, rest, rfl, rfl, hes⟩ := finds_commas h hlast hread
  obtain ⟨u, i₄, hclose, hok⟩ := bind_eq_ok hok
  obtain ⟨rest, rfl, hu, rfl⟩ := expect_eq_ok hlast rfl hclose
  cases hok
  exact ⟨t :: (us ++ [u]), rest, by simp, rfl, .intro ht hes hu⟩

theorem Stops.append_left {tier : Nat} {vs : List Token} (h : Stops tier vs k) (hne : vs ≠ [])
    (us : List Token) : Stops tier (us ++ vs) k := by
  refine ⟨h.1, fun ws t hsplit ht => ?_⟩
  obtain ⟨vs, u, rfl⟩ := (eq_nil_or_concat vs).resolve_left hne
  rw [concat_eq_append] at h hsplit
  rw [← append_assoc] at hsplit
  obtain ⟨-, hut⟩ := append_inj' hsplit rfl
  cases hut
  exact h.2 vs t rfl ht

/-- The loop takes a text of its level after one that it was given, and ends where the two together
cannot go on. The given text may be of any level that the next operator does not belong to. -/
theorem finds_extend (h : Finds expr fun us e k => rule us e ∧ Stops 4 us k)
    (hne : ∀ ts e, rule ts e → ts ≠ []) {n level least : Nat} {us : List Token} {left e : Expr}
    (hlast : last.kind.isLast = true) (hn : ts.length ≤ n) (hlevel : least ≤ level)
    (hleft : LevelText rule level us left) (hstop : Stops (level + 1) us (Input.mk ts last).kind)
    (hok : extend expr n least left ⟨ts, last⟩ = .ok e i) :
    ∃ vs rest, ts = vs ++ rest ∧ i = ⟨rest, last⟩ ∧ LevelText rule least (us ++ vs) e ∧
      Stops least (us ++ vs) i.kind := by
  induction n generalizing ts level least us left e i with
  | zero =>
    obtain rfl := length_eq_zero_iff.mp (Nat.le_zero.mp hn)
    cases hok
    refine ⟨[], [], rfl, rfl, ?_⟩
    rw [append_nil]
    exact ⟨hleft.loosen hlevel, (stops_last hlast least).1, hstop.2⟩
  | succ n ih =>
    rcases stops_or_binary least (Input.mk ts last).kind with hend | ⟨op, hop, hle⟩
    · rw [extend_of_stops hend] at hok
      cases hok
      refine ⟨[], ts, rfl, rfl, ?_⟩
      rw [append_nil]
      exact ⟨hleft.loosen hlevel, hend.1, hstop.2⟩
    · have hbelow : op.precedence ≤ level := Nat.le_of_lt_succ (hstop.below op hop)
      obtain ⟨t, rest, rfl, ht⟩ := exists_cons_of_binary hlast hop
      rw [extend_cons ht hle] at hok
      rw [length_cons] at hn
      obtain ⟨x, i₁, hx, hok⟩ := bind_eq_ok hok
      obtain ⟨vs, rest, rfl, rfl, hvs, hstop₁⟩ := h hlast hx
      obtain ⟨right, i₂, hright, hok⟩ := bind_eq_ok hok
      rw [length_append] at hn
      obtain ⟨ws, rest, rfl, rfl, hws, hstop₂⟩ := ih (by omega) op.precedence_lt (.operand hvs)
        (hstop₁.mono (by decide)) hright
      have hbinary := LevelText.binary (hleft.loosen hbelow) ht
        (BinaryOp.mem_ofLevel.mpr rfl) hws
      have hnonempty : vs ++ ws ≠ [] := append_ne_nil_of_left_ne_nil (hne vs x hvs) ws
      have hstop₃ := hstop₂.append_left hnonempty (us ++ [t])
      rw [append_assoc, singleton_append] at hstop₃
      rw [length_append] at hn
      obtain ⟨xs, rest, rfl, rfl, hxs, hstop₄⟩ := ih (by omega) hle hbinary hstop₃ hok
      rw [append_assoc, cons_append] at hxs hstop₄
      exact ⟨t :: (vs ++ ws ++ xs), rest, by simp, rfl, hxs, hstop₄⟩

theorem finds_climb (h : Finds expr fun us e k => rule us e ∧ Stops 4 us k)
    (hne : ∀ ts e, rule ts e → ts ≠ []) {least : Nat} (hleast : least ≤ 4) :
    Finds (climb expr least) fun us e k => LevelText rule least us e ∧ Stops least us k := by
  intro ts last e i hlast hok
  obtain ⟨left, i₁, hread, hok⟩ := bind_eq_ok hok
  obtain ⟨us, rest, rfl, rfl, hleft, hstop⟩ := h hlast hread
  obtain ⟨vs, rest, rfl, rfl, he, hstop⟩ := finds_extend h hne hlast (Nat.le_refl _) hleast
    (.operand hleft) (hstop.mono (by decide)) hok
  exact ⟨us ++ vs, rest, (append_assoc us vs rest).symm, rfl, he, hstop⟩

end Found

section Prefixes

variable {t last : Token} {ts : List Token} {i : Input} {k : Token.Kind} {n : Nat} {e : Expr}

theorem prefix_ne_nil (h : PrefixText ts e) : ts ≠ [] := by
  obtain ⟨t, us, rfl, -⟩ := starts_prefix h
  exact cons_ne_nil t us

theorem stops_single (ht : t.kind ≠ .identifier) : Stops 4 [t] k := by
  refine stops_four [t] fun us u hsplit => ?_
  cases us with
  | nil =>
    cases hsplit
    exact ht
  | cons v us => simp at hsplit

theorem stops_closed (hu : t.kind ≠ .identifier) (us : List Token) : Stops 4 (us ++ [t]) k :=
  (stops_single hu).append_left (cons_ne_nil t []) us

variable {rule : List Token → Expr → Prop} {es : List Expr} {u : Token}

theorem stops_arguments (h : ArgumentsText rule ts es) : Stops 4 (u :: ts) k := by
  cases h with
  | @none t v _ hv => exact stops_closed (by rw [hv]; nofun) [u, t]
  | @some t ts v _ _ _ hv => exact stops_closed (by rw [hv]; nofun) (u :: t :: ts)

theorem stops_indices (h : IndicesText rule ts es) : Stops 4 (u :: ts) k := by
  cases h with
  | @intro t ts v _ _ _ hv => exact stops_closed (by rw [hv]; nofun) (u :: t :: ts)

/-- The texts of single operands, as far as they go. -/
def WholePrefix (ts : List Token) (e : Expr) (k : Token.Kind) : Prop :=
  PrefixText ts e ∧ Stops 4 ts k

theorem finds_named {expr : Parse Expr} (h : Finds expr fun us e _ => ExprAt 1 us e) :
    Finds (named expr) WholePrefix := by
  refine finds_identifier fun t ht => finds_kind fun k => ?_
  split
  · exact ((finds_argumentList h).map fun us es k hes => ⟨.call ht hes, stops_arguments hes⟩).at _
  · exact ((finds_indexList h).map fun us es k hes => ⟨.element ht hes, stops_indices hes⟩).at _
  · next hparen hbracket =>
    intro ts last e i hlast hk hok
    cases hok
    refine ⟨[], ts, rfl, rfl, .name ht,
      stops_of_below (fun op _ => op.precedence_lt) fun _ _ _ _ => ?_⟩
    rw [hk]
    exact ⟨hparen, hbracket⟩

theorem findsAt_number (hk : k = .integer ∨ k = .real) : FindsAt k number WholePrefix := by
  refine findsAt_advance (by rcases hk with rfl | rfl <;> rfl) fun t ht => ?_
  have hname : t.kind ≠ .identifier := by
    rw [ht]
    rcases hk with rfl | rfl <;> nofun
  rw [← ht] at hk
  split
  · next v hv => exact .pure fun k => ⟨.int hk hv, stops_single hname⟩
  · next v hv => exact .pure fun k => ⟨.real hk hv, stops_single hname⟩
  · intro ts last e i hlast hok
    cases hok

theorem quoted_token : quoted ⟨t :: ts, last⟩ =
    .ok (quotedValue t.position t.quotation) ⟨ts, last⟩ := by
  unfold quoted Token.quotation
  rw [advance_cons]
  cases t.payload with
  | none => rfl
  | some value => cases value <;> rfl

theorem finds_operandWithin (n : Nat) : Finds (operandWithin n) WholePrefix := by
  induction n with
  | zero => exact fun _ _ _ _ _ hok => nomatch hok
  | succ n ih =>
    have hexpr : Finds (expressionOver (operandWithin n)) fun us e _ => ExprAt 1 us e := by
      intro ts last e i hlast hok
      rw [expressionOver_eq_climb (advances_operandWithin n) hlast] at hok
      obtain ⟨us, rest, hsplit, hi, he, -⟩ :=
        finds_climb ih (fun _ _ => prefix_ne_nil) (by decide) hlast hok
      exact ⟨us, rest, hsplit, hi, he⟩
    have hunary : ∀ op : UnaryOp, FindsAt op.kind
        (do return .unary (← advance).position op (← operandWithin n)) WholePrefix := by
      intro op
      refine findsAt_advance (by cases op <;> rfl) fun t ht => ih.map fun us e k he => ?_
      exact ⟨.unary ht he.1, he.2.append_left (prefix_ne_nil he.1) [t]⟩
    have hsingle : ∀ {t : Token} {k : Token.Kind}, t.kind = k → k ≠ .identifier →
        ∀ k', Stops 4 [t] k' := by
      rintro t k rfl hk k'
      exact stops_single hk
    refine finds_kind fun k => ?_
    split
    · exact findsAt_number (.inl rfl)
    · exact findsAt_number (.inr rfl)
    · intro ts last e i hlast hk hok
      obtain ⟨t, rest, rfl⟩ := exists_cons_of_kind hlast (by rw [hk]; rfl)
      rw [quoted_token] at hok
      cases hok
      exact ⟨[t], rest, rfl, rfl, .quoted hk, hsingle hk nofun _⟩
    · exact findsAt_advance rfl fun t ht => .pure fun k => ⟨.true ht, hsingle ht nofun k⟩
    · exact findsAt_advance rfl fun t ht => .pure fun k => ⟨.false ht, hsingle ht nofun k⟩
    · refine findsAt_advance rfl fun t ht => ?_
      intro ts last e i hlast hok
      obtain ⟨e, i₁, hread, hok⟩ := bind_eq_ok hok
      obtain ⟨us, rest, rfl, rfl, he⟩ := hexpr hlast hread
      obtain ⟨u, i₂, hclose, hok⟩ := bind_eq_ok hok
      obtain ⟨rest, rfl, hu, rfl⟩ := expect_eq_ok hlast rfl hclose
      cases hok
      refine ⟨us ++ [u], rest, by simp, rfl, .parens ht he hu, ?_⟩
      exact stops_closed (by rw [hu]; nofun) (t :: us)
    · exact hunary .plus
    · exact hunary .minus
    · exact hunary .not
    · exact (finds_named hexpr).at _
    · exact fun _ _ _ _ _ _ hok => nomatch hok

theorem takes_prefixed (n : Nat) : Takes n (operandWithin n) PrefixText (Stops 4) := by
  induction n with
  | zero =>
    intro ts e rest last hn he _
    exact absurd (length_eq_zero_iff.mp (Nat.le_zero.mp hn)) (prefix_ne_nil he)
  | succ n ih =>
    have hexpr : Takes n (expressionOver (operandWithin n)) (ExprAt 1) (Stops 1) :=
      fun ts e rest last hn he hstop => takes_expressionOver ih rest last hn he.tiers hstop
    intro ts e rest last hn he hstop
    unfold operandWithin
    cases he with
    | int ht hv | real ht hv =>
      rw [kind_bind, singleton_append, kind_cons]
      rcases ht with ht | ht <;> rw [ht] <;> dsimp only [number] <;> rw [advance_cons, hv] <;> rfl
    | quoted ht =>
      rw [kind_bind, singleton_append, kind_cons, ht]
      exact quoted_token
    | true ht | false ht =>
      rw [kind_bind, singleton_append, kind_cons, ht]
      rfl
    | @parens t ts u e ht he hu =>
      rw [length_cons, length_append] at hn
      have hend : Stops 1 ts u.kind := by
        rw [hu]
        exact stops_of_ends (by rfl) 1 ts
      rw [kind_bind, cons_append, kind_cons, ht]
      dsimp only
      rw [advance_cons, append_assoc, singleton_append,
        bind_of_ok (hexpr (u :: rest) last (by omega) he hend), bind_of_ok (expect_cons hu _)]
      rfl
    | @unary t ts op e ht he =>
      have hstop : Stops 4 ([t] ++ ts) _ := hstop
      have hread := ih rest last (Nat.le_of_succ_le_succ hn) he hstop.of_append
      rw [kind_bind, cons_append, kind_cons, ht]
      cases op <;> dsimp only [UnaryOp.kind] <;> rw [advance_cons, bind_of_ok hread] <;> rfl
    | @name t ht =>
      obtain ⟨hparen, hbracket⟩ := hstop.2 [] t rfl ht
      rw [kind_bind, singleton_append, kind_cons, ht]
      dsimp only [named]
      rw [bind_of_ok (identifier_token ht _), kind_bind]
      refine congrFun (?_ : _ = (Pure.pure (Expr.name t.position t.denoted) : Parse Expr)) _
      split
      · next hk => exact absurd hk hparen
      · next hk => exact absurd hk hbracket
      · rfl
    | @call t ts es ht hes =>
      have hread := takes_argumentList hexpr (fun _ _ => starts_level fun _ _ => starts_prefix)
        rest last (Nat.le_of_succ_le_succ hn) hes trivial
      rw [kind_bind, cons_append, kind_cons, ht]
      dsimp only [named]
      rw [bind_of_ok (identifier_token ht _), kind_bind, (starts_arguments hes).kind rest last]
      dsimp only
      rw [bind_of_ok hread]
      rfl
    | @element t ts es ht hes =>
      have hread := takes_indexList hexpr rest last (Nat.le_of_succ_le_succ hn) hes trivial
      rw [kind_bind, cons_append, kind_cons, ht]
      dsimp only [named]
      rw [bind_of_ok (identifier_token ht _), kind_bind, (starts_indices hes).kind rest last]
      dsimp only
      rw [bind_of_ok hread]
      rfl

/-- An expression is read exactly if some first part of the tokens is a text of the lowest level
that cannot go on. -/
theorem expression_eq_ok_iff (hlast : last.kind.isLast = true) : expression ⟨ts, last⟩ = .ok e i ↔
      ∃ us rest, ts = us ++ rest ∧ i = ⟨rest, last⟩ ∧ ExprAt 1 us e ∧ Stops 1 us i.kind := by
  have hread : expression ⟨ts, last⟩ = expressionOver (operandWithin (ts.length + 1)) ⟨ts, last⟩ :=
    rfl
  rw [hread]
  constructor
  · intro hok
    rw [expressionOver_eq_climb (advances_operandWithin _) hlast] at hok
    exact finds_climb (finds_operandWithin _) (fun _ _ => prefix_ne_nil) (by decide) hlast hok
  · rintro ⟨us, rest, rfl, rfl, he, hstop⟩
    refine takes_expressionOver (takes_prefixed _) rest last ?_ he.tiers hstop
    rw [length_append]
    omega

end Prefixes

end Parse

section Positions

variable {ts : List Token} {e : Expr} {P : Token → Prop}

theorem LevelText.forall_mem {rule : List Token → Expr → Prop} {k n : Nat}
    (hrule : ∀ {ts e}, ts.length ≤ n → rule ts e → ∀ t ∈ ts, P t)
    (hbinary : ∀ {t : Token} {op : BinaryOp}, t.kind = op.kind → P t) (hn : ts.length ≤ n)
    (h : LevelText rule k ts e) : ∀ t ∈ ts, P t := by
  induction h with
  | operand he => exact hrule hn he
  | tighter _ ih => exact ih hn
  | binary _ ht _ _ ihleft ihright =>
    rw [length_append, length_cons] at hn
    intro t hmem
    rcases mem_append.mp hmem with hmem | hmem
    · exact ihleft (by omega) t hmem
    · rcases mem_cons.mp hmem with rfl | hmem
      · exact hbinary ht
      · exact ihright (by omega) t hmem

theorem Separated.forall_mem {α : Type} {separator : Token.Kind} {rule : List Token → α → Prop}
    {n : Nat} {as : List α} (hrule : ∀ {ts a}, ts.length ≤ n → rule ts a → ∀ t ∈ ts, P t)
    (hsep : ∀ {t : Token}, t.kind = separator → P t) (hn : ts.length ≤ n)
    (h : Separated separator rule ts as) : ∀ t ∈ ts, P t := by
  induction h with
  | one ha => exact hrule hn ha
  | more ha ht _ ih =>
    rw [length_append, length_cons] at hn
    intro t hmem
    rcases mem_append.mp hmem with hmem | hmem
    · exact hrule (by omega) ha t hmem
    · rcases mem_cons.mp hmem with rfl | hmem
      · exact hsep ht
      · exact ih (by omega) t hmem

theorem prefix_unended (n : Nat) (hn : ts.length ≤ n) (h : PrefixText ts e) :
    ∀ t ∈ ts, t.kind.isLast = false := by
  induction n generalizing ts e with
  | zero => exact absurd (length_eq_zero_iff.mp (Nat.le_zero.mp hn)) (Parse.prefix_ne_nil h)
  | succ n ih =>
    have hlevel : ∀ {ts e}, ts.length ≤ n → ExprAt 1 ts e → ∀ t ∈ ts, t.kind.isLast = false :=
      fun hn h => h.forall_mem ih (fun ht => ht ▸ Parse.kind_ne_isLast _) hn
    have hcommas : ∀ {ts es}, ts.length ≤ n → Separated (.mark .comma) (ExprAt 1) ts es →
        ∀ t ∈ ts, t.kind.isLast = false :=
      fun hn h => h.forall_mem hlevel (fun ht => ht ▸ rfl) hn
    have henclosed : ∀ {t u : Token} {ts : List Token}, t.kind.isLast = false →
        u.kind.isLast = false → (∀ t ∈ ts, t.kind.isLast = false) →
        ∀ v ∈ t :: (ts ++ [u]), v.kind.isLast = false :=
      fun ht hu hts => forall_mem_cons.mpr
        ⟨ht, forall_mem_append.mpr ⟨hts, forall_mem_singleton.mpr hu⟩⟩
    cases h with
    | int ht | real ht =>
      exact forall_mem_singleton.mpr (by rcases ht with ht | ht <;> rw [ht] <;> rfl)
    | quoted ht | true ht | false ht | name ht =>
      exact forall_mem_singleton.mpr (by rw [ht]; rfl)
    | parens ht he hu =>
      rw [length_cons, length_append] at hn
      exact henclosed (by rw [ht]; rfl) (by rw [hu]; rfl) (hlevel (by omega) he)
    | @unary _ _ op _ ht he =>
      refine forall_mem_cons.mpr ⟨by rw [ht]; cases op <;> rfl, ?_⟩
      exact ih (Nat.le_of_succ_le_succ hn) he
    | call ht hes =>
      refine forall_mem_cons.mpr ⟨by rw [ht]; rfl, ?_⟩
      cases hes with
      | @none t u ht hu =>
        have hnil : ∀ v ∈ t :: ([] ++ [u]), v.kind.isLast = false :=
          henclosed (by rw [ht]; rfl) (by rw [hu]; rfl) (forall_mem_nil _)
        exact hnil
      | some ht hes hu =>
        rw [length_cons, length_cons, length_append] at hn
        exact henclosed (by rw [ht]; rfl) (by rw [hu]; rfl) (hcommas (by omega) hes)
    | element ht hes =>
      refine forall_mem_cons.mpr ⟨by rw [ht]; rfl, ?_⟩
      cases hes with
      | intro ht hes hu =>
        rw [length_cons, length_cons, length_append] at hn
        exact henclosed (by rw [ht]; rfl) (by rw [hu]; rfl) (hcommas (by omega) hes)

theorem expr_unended {level : Nat} (h : ExprAt level ts e) : ∀ t ∈ ts, t.kind.isLast = false :=
  h.forall_mem (fun hn => prefix_unended ts.length hn) (fun ht => ht ▸ Parse.kind_ne_isLast _)
    (Nat.le_refl _)

/-- What a reader has before it at a place in a list of tokens: those up to the first that ends a
text. -/
def Input.startingAt (tokens : List Token) (i : Nat) : Input where
  tokens := (tokens.drop i).takeWhile fun t => !t.kind.isLast
  last := ((tokens.drop i).find? fun t => t.kind.isLast).getD
    ⟨.endOfText, "", (tokens.getLast?.map Token.position).getD .start, none⟩

theorem Input.isLast_startingAt (tokens : List Token) (i : Nat) :
    (Input.startingAt tokens i).last.kind.isLast = true := by
  unfold startingAt
  cases hfind : (tokens.drop i).find? fun t => t.kind.isLast with
  | none => rfl
  | some t =>
    have ht := List.find?_some hfind
    exact ht

theorem Input.startingAt_eq_append {tokens : List Token} {i j : Nat} (hij : i ≤ j)
    (hmid : ∀ t ∈ tokens.extract i j, t.kind.isLast = false) : Input.startingAt tokens i =
      ⟨tokens.extract i j ++ (Input.startingAt tokens j).tokens,
        (Input.startingAt tokens j).last⟩ := by
  have hsplit : tokens.drop i = tokens.extract i j ++ tokens.drop j := by
    have hdrop : tokens.drop j = (tokens.drop i).drop (j - i) := by
      rw [drop_drop, Nat.add_sub_cancel' hij]
    rw [hdrop]
    exact (take_append_drop (j - i) (tokens.drop i)).symm
  have htake : (tokens.drop i).takeWhile (fun t => !t.kind.isLast) =
      tokens.extract i j ++ (tokens.drop j).takeWhile fun t => !t.kind.isLast := by
    rw [hsplit, takeWhile_append_of_pos]
    intro t ht
    rw [hmid t ht]
    rfl
  have hfind : (tokens.drop i).find? (fun t => t.kind.isLast) =
      (tokens.drop j).find? fun t => t.kind.isLast := by
    rw [hsplit, find?_append, find?_eq_none.mpr, Option.none_or]
    intro t ht
    rw [hmid t ht]
    exact Bool.false_ne_true
  unfold startingAt
  rw [htake, hfind]

/-- Before any tokens, expressions are read by one loop over the operators and their precedences,
and what it reads is exactly a text of the lowest level that cannot go on: no operator follows it,
and neither does an opening parenthesis or bracket after a name at its end. -/
theorem expression_reads_levels (tokens : List Token) (i : Nat) (e : Expr) (s : Input) :
    (Parse.expression (.startingAt tokens i) =
      Parse.climb (Parse.operandWithin ((Input.startingAt tokens i).tokens.length + 1)) 1
        (.startingAt tokens i)) ∧
    (Parse.expression (.startingAt tokens i) = .ok e s ↔
      ∃ j, i ≤ j ∧ j ≤ tokens.length ∧ s = .startingAt tokens j ∧
        ExprAt 1 (tokens.extract i j) e ∧ Parse.Stops 1 (tokens.extract i j) s.kind) := by
  have hlast := Input.isLast_startingAt tokens i
  constructor
  · exact Parse.expressionOver_eq_climb (Parse.advances_operandWithin _) hlast _
  rw [Parse.expression_eq_ok_iff hlast]
  constructor
  · rintro ⟨us, rest, hsplit, rfl, he, hstop⟩
    have hstands : us ++ rest <+: tokens.drop i := hsplit ▸ List.takeWhile_prefix _
    have hus : tokens.extract i (i + us.length) = us := by
      obtain ⟨after, hafter⟩ := hstands
      rw [List.extract, Nat.add_sub_cancel_left, ← hafter, List.append_assoc, List.take_left]
    have hmid : ∀ t ∈ tokens.extract i (i + us.length), t.kind.isLast = false := by
      rw [hus]
      exact expr_unended he
    have hjoin := Input.startingAt_eq_append (Nat.le_add_right i us.length) hmid
    rw [hus] at hjoin
    have hrest : rest = (Input.startingAt tokens (i + us.length)).tokens := by
      rw [hjoin] at hsplit
      exact (List.append_cancel_left hsplit).symm
    have hpos : 0 < us.length := by
      obtain ⟨t, vs, rfl, -⟩ := starts_level (fun _ _ => starts_prefix) he
      exact Nat.succ_pos vs.length
    have hbound := hstands.length_le
    rw [List.length_append, List.length_drop] at hbound
    refine ⟨i + us.length, Nat.le_add_right _ _, by omega, ?_, hus.symm ▸ he, hus.symm ▸ hstop⟩
    rw [hrest, hjoin]
  · rintro ⟨j, hij, hj, rfl, he, hstop⟩
    have hjoin := Input.startingAt_eq_append hij (expr_unended he)
    refine ⟨tokens.extract i j, (Input.startingAt tokens j).tokens, ?_, ?_, he, hstop⟩
    · rw [hjoin]
    · rw [hjoin]

end Positions

/-- Whether a reader succeeds with something that passes a test. -/
def Parse.yields {α : Type} (x : Parse α) (i : Input) (test : α → Input → Bool) : Bool :=
  match x i with
  | .ok a s => test a s
  | .error _ _ => false

theorem Parse.exists_of_yields {α : Type} {x : Parse α} {i : Input} {test : α → Input → Bool}
    (h : x.yields i test = true) : ∃ a s, x i = .ok a s ∧ test a s = true := by
  unfold yields at h
  cases hx : x i with
  | ok a s => exact ⟨a, s, rfl, by rwa [hx] at h⟩
  | error => rw [hx] at h; cases h

/-- Operators of all levels, also in a row, and signs, words and brackets around operands. -/
def layered : String := "a - b - c * -d < e or not f and g[i + 1, 2] = h(x)"

/-- The same with parentheses around every operation. -/
def layeredText : String :=
  "((((a - b) - (c * (-d))) < (e or ((not f) and g[(i + 1), 2]))) = h(x))"

theorem layered_reads_levels : ∃ e j, Parse.expression (.startingAt (scan layered) 0) =
      .ok e (.startingAt (scan layered) j) ∧ e.text = layeredText ∧
    (Input.startingAt (scan layered) j).kind = .endOfText ∧
    ExprAt 1 ((scan layered).extract 0 j) e := by
  have hyields : Parse.expression.yields (.startingAt (scan layered) 0) (fun e s =>
      e.text == layeredText && s.kind == .endOfText) = true := by
    have hchars : layered = String.ofList _ := rfl
    rw [hchars, scan_ofList]
    decide +kernel
  obtain ⟨e, s, hread, htest⟩ := Parse.exists_of_yields hyields
  rw [Bool.and_eq_true, beq_iff_eq, beq_iff_eq] at htest
  obtain ⟨j, -, -, rfl, he, -⟩ := (expression_reads_levels (scan layered) 0 e s).2.mp hread
  exact ⟨e, j, hread, htest.1, htest.2, he⟩

end MiniPascal
