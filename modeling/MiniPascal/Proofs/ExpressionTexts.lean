import MiniPascal.Proofs.PrintedExpressions
import MiniPascal.Proofs.WellFormedTrees

/-!
# The text of an expression is read back

An expression is written with parentheses around every operation, and its text is read back. Reals
and quotes between quotes are the exceptions.
-/

namespace MiniPascal

open List

namespace Expr

mutual

/-- The expression has no real number and no quote in a character or a string. -/
def plainLiterals : Expr → Bool
  | real .. => false
  | char _ c => c != quote
  | string _ s => !s.toList.contains quote
  | element _ _ es | call _ _ es => allPlainLiterals es
  | binary _ _ l r => l.plainLiterals && r.plainLiterals
  | unary _ _ e => e.plainLiterals
  | int .. | bool .. | name .. => true

def allPlainLiterals : List Expr → Bool
  | [] => true
  | e :: es => e.plainLiterals && allPlainLiterals es

end

def placeless (e : Expr) : Expr := e.moved fun _ => .start

theorem placeless_element (p : Position) (n : String) (es : List Expr) :
    (element p n es).placeless = element .start n (es.map placeless) := by
  rw [placeless, moved, allMoved_eq_map]
  rfl

theorem placeless_call (p : Position) (n : String) (es : List Expr) :
    (call p n es).placeless = call .start n (es.map placeless) := by
  rw [placeless, moved, allMoved_eq_map]
  rfl

end Expr

/-! ## Scanning a text piece by piece -/

/-- Before the given rest, a text is scanned as tokens that satisfy a rule. -/
def Scans (text rest : List Char) (rule : List Token → Prop) : Prop :=
  ∀ p, ∃ ts q, rule ts ∧ scanFrom p (text ++ rest) = ts ++ scanFrom q rest

def IsOne (kind : Token.Kind) (ts : List Token) : Prop := ∃ t, ts = [t] ∧ t.kind = kind

namespace Scans

variable {text text' rest : List Char} {rule rule' : List Token → Prop}

theorem mono (h : Scans text rest rule) (himp : ∀ ts, rule ts → rule' ts) :
    Scans text rest rule' := by
  intro p
  obtain ⟨ts, q, hts, hscan⟩ := h p
  exact ⟨ts, q, himp ts hts, hscan⟩

theorem append {rule'' : List Token → Prop} (h : Scans text (text' ++ rest) rule)
    (h' : Scans text' rest rule') (himp : ∀ us vs, rule us → rule' vs → rule'' (us ++ vs)) :
    Scans (text ++ text') rest rule'' := by
  intro p
  obtain ⟨us, q, hus, hscan⟩ := h p
  obtain ⟨vs, r, hvs, hscan'⟩ := h' q
  refine ⟨us ++ vs, r, himp us vs hus hvs, ?_⟩
  rw [append_assoc, hscan, hscan', append_assoc]

theorem blank (h : Scans text rest rule) : Scans (' ' :: text) rest rule := by
  intro p
  obtain ⟨ts, q, hts, hscan⟩ := h (p.after [' '])
  refine ⟨ts, q, hts, ?_⟩
  rw [← hscan, ← scanFrom_gap (.blank rfl .nil) p]
  rfl

theorem token {kind : Token.Kind} {word : String} {payload : Option Token.Payload}
    (h : Spells kind word payload word.toList) (hrest : kind.StopsAt rest)
    (hrule : ∀ p, rule [⟨kind, word, p, payload⟩]) : Scans word.toList rest rule := by
  intro p
  exact ⟨_, _, hrule p, scanFrom_spelling h hrest p⟩

theorem mark {m : Mark} (hrest : (Token.Kind.mark m).StopsAt rest) :
    Scans m.text.toList rest (IsOne (.mark m)) :=
  token .mark hrest fun _ => ⟨_, rfl, rfl⟩

theorem between {m m' : Mark}
    (hopen : (Token.Kind.mark m).StopsAt (text ++ m'.text.toList ++ rest))
    (h : Scans text (m'.text.toList ++ rest) rule) (hclose : (Token.Kind.mark m').StopsAt rest)
    (hrule : ∀ t us u, t.kind = .mark m → rule us → u.kind = .mark m' →
      rule' (t :: (us ++ [u]))) :
    Scans (m.text.toList ++ (text ++ m'.text.toList)) rest rule' := by
  have hrest : Scans (text ++ m'.text.toList) rest fun ts =>
      ∃ us vs, ts = us ++ vs ∧ rule us ∧ IsOne (.mark m') vs :=
    h.append (mark hclose) fun us vs hus hvs => ⟨us, vs, rfl, hus, hvs⟩
  refine (mark hopen).append hrest ?_
  rintro _ _ ⟨t, rfl, ht⟩ ⟨us, _, rfl, hus, u, rfl, hu⟩
  exact hrule t us u ht hus hu

end Scans

/-! ## Operands -/

/-- What follows an operand in the text of an expression. -/
def Closes (rest : List Char) : Prop := ∀ c ∈ rest.head?, [' ', ')', ',', ']'].contains c = true

theorem Closes.stopsAt {rest : List Char} (h : Closes rest) (kind : Token.Kind) :
    kind.StopsAt rest := by
  intro c hc
  have hmem : c = ' ' ∨ c = ')' ∨ c = ',' ∨ c = ']' := by simpa using h c hc
  rcases hmem with rfl | rfl | rfl | rfl <;> cases kind <;> rfl

theorem closes_cons {c : Char} (h : [' ', ')', ',', ']'].contains c = true) (rest : List Char) :
    Closes (c :: rest) := by
  rintro _ ⟨⟩
  exact h

/-- The tokens are a text of the expression, wherever it stands. -/
def Denotes (e : Expr) (ts : List Token) : Prop :=
  ∃ e', OperandText ts e' ∧ e'.placeless = e.placeless

/-- The tokens are texts of the expressions, with commas between them. -/
def DenotesAll (es : List Expr) (ts : List Token) : Prop :=
  ∃ es', Separated (.mark .comma) ExprText ts es' ∧ es'.map Expr.placeless = es.map Expr.placeless

theorem Keyword.spells (k : Keyword) : Spells (.keyword k) k.text none k.text.toList := by
  have h : Spells (.keyword k) (String.ofList k.text.toList) none k.text.toList :=
    .keyword (by cases k <;> rfl)
  rwa [String.ofList_toList] at h

theorem BinaryOp.spells (op : BinaryOp) : Spells op.kind op.text none op.text.toList := by
  cases op with
  | or | div | mod | and => exact Keyword.spells _
  | _ => exact .mark

theorem exprText_binary {us vs : List Token} {t : Token} {op : BinaryOp} {l r : Expr}
    (hl : OperandText us l) (ht : t.kind = op.kind) (hr : OperandText vs r) :
    ExprText (us ++ t :: vs) (.binary l.position op l r) := by
  have hlevel : op ∈ BinaryOp.ofLevel 1 ∨ op ∈ BinaryOp.ofLevel 2 ∨ op ∈ BinaryOp.ofLevel 3 := by
    cases op <;> decide
  rcases hlevel with h | h | h
  · exact .binary (.operand (.operand (.operand hl))) ht h (.operand (.operand hr))
  · exact .operand (.binary (.operand (.operand hl)) ht h (.operand hr))
  · exact .operand (.operand (.binary (.operand hl) ht h hr))

theorem exprText_operand {ts : List Token} {e : Expr} (h : OperandText ts e) : ExprText ts e :=
  .operand (.operand (.operand h))

theorem NamedAt.spells {source name : String} {p : Position}
    (h : NamedAt (· ∈ scan source) name p) :
    Spells .identifier name (some (.text name)) name.toList := by
  obtain ⟨t, ht, hname, -⟩ := h
  have hspells := spells_of_mem ht (by rw [hname.1]; rfl)
  rw [hname.1, hname.2] at hspells
  generalize t.text = text at hspells
  generalize text.toList = spelling at hspells
  cases hspells with
  | @identifier c cs _ hc hcs hname hkeyword =>
    have hlower : Spells .identifier (String.ofList (c.toLower :: cs.map Char.toLower))
        (some (.text name)) (c.toLower :: cs.map Char.toLower) := by
      refine .identifier (by simpa using hc) ?_ (by simpa [Function.comp_def] using hname) hkeyword
      intro d hd
      obtain ⟨c', hc', rfl⟩ := mem_map.mp hd
      simpa using hcs c' hc'
    rw [← map_cons, ← hname] at hlower
    rwa [hname, String.toList_ofList, ← hname]

theorem spells_integer {v : Int64} (h : 0 ≤ v.toInt) :
    Spells .integer (Integer.text v) (some (.integer v)) (Integer.text v).toList := by
  have htext : (Integer.text v).toList = Nat.toDigits 10 v.toInt.natAbs := by
    rw [C.toList_integer_text, if_neg (by simpa using h), nil_append]
  have hvalue : v.toInt = decimalValue (Nat.toDigits 10 v.toInt.natAbs) := by
    rw [← Decimal.ofDigits_eq_decimalValue, Decimal.ofDigits_toDigits]
    omega
  have hspells : Spells .integer (String.ofList (Nat.toDigits 10 v.toInt.natAbs))
      (some (.integer v)) (Nat.toDigits 10 v.toInt.natAbs) := by
    refine .integer Nat.toDigits_ne_nil ?_ ?_ hvalue
    · exact all_eq_true.mp (C.all_isDigit_toDigits _)
    · have := v.toInt_lt
      omega
  rwa [← htext, String.ofList_toList] at hspells

theorem spells_quoted {content : String} (hline : '\n' ∉ content.toList)
    (hquote : quote ∉ content.toList) :
    Spells .quoted ("'" ++ content ++ "'") (some (.text content))
      ("'" ++ content ++ "'").toList := by
  have hdoubled : doubled content.toList = content.toList := by
    rw [doubled, flatMap_congr (g := fun c => [c])]
    · simp
    · intro c hc
      rw [if_neg]
      rintro rfl
      exact hquote hc
  have htext : ("'" ++ content ++ "'").toList = quoted content.toList := by
    rw [quoted, hdoubled]
    simp [quote]
  have hspells := Spells.quoted hline
  rwa [← htext, String.ofList_toList, String.ofList_toList] at hspells

/-! ## Expressions -/

/-- The text of the expression is scanned as tokens of an operand, and nothing in its beginning
goes on with a mark before it. -/
structure ReadsBack (e : Expr) : Prop where
  opens : ∀ (m : Mark) (rest : List Char), (Token.Kind.mark m).StopsAt (e.text.toList ++ rest)
  scans : ∀ rest, Closes rest → Scans e.text.toList rest (Denotes e)

theorem stopsAt_of_isNameChar {c : Char} (hc : isNameChar c = true) (m : Mark) (rest : List Char) :
    (Token.Kind.mark m).StopsAt (c :: rest) := by
  rintro _ ⟨⟩
  refine Bool.eq_false_iff.mpr fun hgoes => ?_
  have hmem : c ∈ ['=', '>', '.', '*', '/'] := contains_iff_mem.mp hgoes
  simp only [mem_cons, not_mem_nil, or_false] at hmem
  rcases hmem with rfl | rfl | rfl | rfl | rfl <;> cases hc

theorem isNameChar_of_isDigit {c : Char} (h : c.isDigit = true) : isNameChar c = true := by
  simp [isNameChar, Char.isAlphanum, h]

/-- Only a mark goes on with a mark before it. -/
theorem Spells.stopsAt {kind : Token.Kind} {text : String} {payload : Option Token.Payload}
    {spelling : List Char} (h : Spells kind text payload spelling) (hk : ∀ m, kind ≠ .mark m)
    (m : Mark) (rest : List Char) : (Token.Kind.mark m).StopsAt (spelling ++ rest) := by
  cases h with
  | keyword hword =>
    obtain ⟨c, cs, rfl, hc, -⟩ := Keyword.word_of_text hword
    exact stopsAt_of_isNameChar (isNameChar_of_isNameStart hc) m _
  | mark => exact (hk _ rfl).elim
  | identifier hc => exact stopsAt_of_isNameChar (isNameChar_of_isNameStart hc) m _
  | @integer digits _ hne hdigits =>
    obtain ⟨c, cs, rfl⟩ := exists_cons_of_ne_nil hne
    exact stopsAt_of_isNameChar (isNameChar_of_isDigit (hdigits c mem_cons_self)) m _
  | @real n letter hn =>
    obtain ⟨c, cs, hspelling, hc⟩ := hn.exists_cons letter
    rw [hspelling]
    exact stopsAt_of_isNameChar (isNameChar_of_isDigit hc) m _
  | quoted =>
    rintro _ ⟨⟩
    rfl

theorem readsBack_token {e : Expr} {kind : Token.Kind} {payload : Option Token.Payload}
    (h : Spells kind e.text payload e.text.toList) (hk : ∀ m, kind ≠ .mark m)
    (hrule : ∀ p, Denotes e [⟨kind, e.text, p, payload⟩]) : ReadsBack e where
  opens := h.stopsAt hk
  scans _ hrest := .token h (hrest.stopsAt kind) hrule

section Lists

variable {es : List Expr} (h : ∀ e ∈ es, ReadsBack e)
include h

theorem scans_list {rest : List Char} (hne : es ≠ []) (hrest : Closes rest) :
    Scans (Expr.listText es).toList rest (DenotesAll es) := by
  induction es with
  | nil => exact (hne rfl).elim
  | cons e es ih =>
    obtain ⟨he, hes⟩ := forall_mem_cons.mp h
    cases es with
    | nil =>
      refine (he.scans rest hrest).mono ?_
      rintro ts ⟨e', he', hsame⟩
      exact ⟨[e'], .one (exprText_operand he'), by simp [hsame]⟩
    | cons f es =>
      have htext : (Expr.listText (e :: f :: es)).toList = e.text.toList ++
          (Mark.comma.text.toList ++ (' ' :: (Expr.listText (f :: es)).toList)) := by
        simp [Expr.listText, Mark.text]
      have htail := (ih hes (cons_ne_nil f es)).blank
      have hcomma : Scans (Mark.comma.text.toList ++ (' ' :: (Expr.listText (f :: es)).toList)) rest
          fun ts => ∃ t us, ts = t :: us ∧ t.kind = .mark .comma ∧ DenotesAll (f :: es) us := by
        refine (Scans.mark ((closes_cons rfl _).stopsAt _)).append htail ?_
        rintro _ us ⟨t, rfl, ht⟩ hus
        exact ⟨t, us, rfl, ht, hus⟩
      rw [htext]
      refine (he.scans _ (closes_cons rfl _)).append hcomma ?_
      rintro us _ ⟨e', he', hsame⟩ ⟨t, vs, rfl, ht, es', hes', hsames⟩
      exact ⟨e' :: es', .more (exprText_operand he') ht hes', by simp [hsame, hsames]⟩

theorem stopsAt_list (hne : es ≠ []) (m : Mark) (rest : List Char) :
    (Token.Kind.mark m).StopsAt ((Expr.listText es).toList ++ rest) := by
  obtain ⟨e, es, rfl⟩ := exists_cons_of_ne_nil hne
  have he := h e mem_cons_self
  cases es with
  | nil => exact he.opens m rest
  | cons f es =>
    simp only [Expr.listText, String.toList_append, append_assoc]
    exact he.opens m _

end Lists

section Operands

variable {source : String} {p : Position} {n : String} {es : List Expr}

theorem readsBack_named {e : Expr} {text : List Char} {m m' : Mark} {rule : List Token → Prop}
    (hname : NamedAt (· ∈ scan source) n p)
    (htext : e.text.toList = n.toList ++ (m.text.toList ++ (text ++ m'.text.toList)))
    (hm : ∀ rest, Token.Kind.identifier.StopsAt (m.text.toList ++ rest))
    (hm' : ∀ rest, Closes (m'.text.toList ++ rest))
    (hopen : ∀ rest, (Token.Kind.mark m).StopsAt (text ++ m'.text.toList ++ rest))
    (hscans : ∀ rest, Closes rest → Scans text rest rule)
    (hrule : ∀ t u us v, t.Names n → u.kind = .mark m → rule us → v.kind = .mark m' →
      Denotes e (t :: u :: (us ++ [v]))) : ReadsBack e where
  opens k rest := by
    rw [htext, append_assoc]
    exact hname.spells.stopsAt nofun k _
  scans rest hrest := by
    rw [htext]
    have hbetween : Scans (m.text.toList ++ (text ++ m'.text.toList)) rest fun ts =>
        ∃ u us v, ts = u :: (us ++ [v]) ∧ u.kind = .mark m ∧ rule us ∧ v.kind = .mark m' :=
      .between (hopen rest) (hscans _ (hm' rest)) (hrest.stopsAt _)
        fun u us v hu hus hv => ⟨u, us, v, rfl, hu, hus, hv⟩
    have hword : Scans n.toList (m.text.toList ++ (text ++ m'.text.toList) ++ rest) fun ts =>
        ∃ t : Token, ts = [t] ∧ t.Names n := by
      refine .token hname.spells ?_ fun q => ⟨_, rfl, rfl, rfl⟩
      rw [append_assoc]
      exact hm _
    refine hword.append hbetween ?_
    rintro _ _ ⟨t, rfl, ht⟩ ⟨u, us, v, rfl, hu, hus, hv⟩
    exact hrule t u us v ht hu hus hv

theorem readsBack_element (hname : NamedAt (· ∈ scan source) n p) (hne : es ≠ [])
    (h : ∀ e ∈ es, ReadsBack e) : ReadsBack (.element p n es) := by
  have htext : (Expr.element p n es).text.toList = n.toList ++ (Mark.openBracket.text.toList ++
      ((Expr.listText es).toList ++ Mark.closeBracket.text.toList)) := by
    obtain ⟨e, es, rfl⟩ := exists_cons_of_ne_nil hne
    simp [Expr.text, Mark.text]
  refine readsBack_named hname htext (fun rest => ?_) (closes_cons rfl) (fun rest => ?_)
    (fun rest => scans_list h hne) ?_
  · rintro _ ⟨⟩
    rfl
  · rw [append_assoc]
    exact stopsAt_list h hne _ _
  · rintro t u us v ht hu ⟨es', hes', hsame⟩ hv
    refine ⟨_, .element ht (.intro hu hes' hv), ?_⟩
    rw [Expr.placeless_element, Expr.placeless_element, hsame]

theorem readsBack_call (hname : NamedAt (· ∈ scan source) n p) (h : ∀ e ∈ es, ReadsBack e) :
    ReadsBack (.call p n es) := by
  have htext : (Expr.call p n es).text.toList = n.toList ++ (Mark.openParen.text.toList ++
      ((Expr.listText es).toList ++ Mark.closeParen.text.toList)) := by
    simp [Expr.text, Mark.text]
  have hstops : ∀ rest, Token.Kind.identifier.StopsAt (Mark.openParen.text.toList ++ rest) := by
    rintro rest _ ⟨⟩
    rfl
  have hcloses : ∀ rest, Closes (Mark.closeParen.text.toList ++ rest) := closes_cons rfl
  by_cases hes : es = []
  · subst hes
    have hnothing : ∀ rest, Closes rest → Scans [] rest (· = []) :=
      fun rest _ p => ⟨[], p, rfl, rfl⟩
    refine readsBack_named hname htext hstops hcloses (fun rest => (hcloses rest).stopsAt _)
      hnothing ?_
    rintro t u _ v ht hu rfl hv
    exact ⟨_, .call ht (.none hu hv), rfl⟩
  · refine readsBack_named hname htext hstops hcloses (fun rest => ?_)
      (fun rest => scans_list h hes) ?_
    · rw [append_assoc]
      exact stopsAt_list h hes _ _
    · rintro t u us v ht hu ⟨es', hes', hsame⟩ hv
      refine ⟨_, .call ht (.some hu hes' hv), ?_⟩
      rw [Expr.placeless_call, Expr.placeless_call, hsame]

theorem readsBack_parens {e : Expr} {text : List Char}
    (htext : e.text.toList = Mark.openParen.text.toList ++ (text ++ Mark.closeParen.text.toList))
    (hopen : ∀ rest, (Token.Kind.mark .openParen).StopsAt (text ++ rest))
    (hscans : ∀ rest, Closes rest → Scans text rest fun ts =>
      ∃ e', ExprText ts e' ∧ e'.placeless = e.placeless) : ReadsBack e where
  opens m rest := by
    rw [htext]
    rintro _ ⟨⟩
    rfl
  scans rest hrest := by
    rw [htext]
    refine .between ?_ (hscans _ (closes_cons rfl rest)) (hrest.stopsAt _) ?_
    · rw [append_assoc]
      exact hopen _
    · rintro t us u ht ⟨e', he', hsame⟩ hu
      exact ⟨e', .parens ht he' hu, hsame⟩

theorem readsBack_binary {op : BinaryOp} {l r : Expr} (hl : ReadsBack l) (hr : ReadsBack r) :
    ReadsBack (.binary p op l r) := by
  have htext : (Expr.binary p op l r).text.toList = Mark.openParen.text.toList ++
      (l.text.toList ++ ((' ' :: op.text.toList) ++ (' ' :: r.text.toList)) ++
        Mark.closeParen.text.toList) := by
    simp [Expr.text, Mark.text]
  refine readsBack_parens htext ?_ fun rest hrest => ?_
  · intro rest
    rw [append_assoc]
    exact hl.opens _ _
  · have hop : Scans (' ' :: op.text.toList) ((' ' :: r.text.toList) ++ rest) (IsOne op.kind) :=
      (Scans.token op.spells ((closes_cons rfl _).stopsAt _) fun _ => ⟨_, rfl, rfl⟩).blank
    have hright : Scans ((' ' :: op.text.toList) ++ (' ' :: r.text.toList)) rest fun ts =>
        ∃ t us, ts = t :: us ∧ t.kind = op.kind ∧ Denotes r us := by
      refine hop.append (hr.scans rest hrest).blank ?_
      rintro _ us ⟨t, rfl, ht⟩ hus
      exact ⟨t, us, rfl, ht, hus⟩
    refine (hl.scans _ (closes_cons rfl _)).append hright ?_
    rintro us _ ⟨l', hl', hsame⟩ ⟨t, vs, rfl, ht, r', hr', hsame'⟩
    refine ⟨_, exprText_binary hl' ht hr', ?_⟩
    exact congrArg₂ (Expr.binary .start op) hsame hsame'

theorem readsBack_unary {op : UnaryOp} {e : Expr} (h : ReadsBack e) :
    ReadsBack (.unary p op e) := by
  have happend : ∀ us vs, IsOne op.kind us → Denotes e vs →
      ∃ e', ExprText (us ++ vs) e' ∧ e'.placeless = (Expr.unary p op e).placeless := by
    rintro _ vs ⟨t, rfl, ht⟩ ⟨e', he', hsame⟩
    exact ⟨_, exprText_operand (.unary ht he'), congrArg (Expr.unary .start op) hsame⟩
  have htext : (Expr.unary p op e).text.toList = Mark.openParen.text.toList ++
      (op.text.toList ++ e.text.toList ++ Mark.closeParen.text.toList) := by
    simp [Expr.text, Mark.text]
  refine readsBack_parens htext ?_ fun rest hrest => ?_
  · intro rest
    cases op <;> rintro _ ⟨⟩ <;> rfl
  · cases op with
    | plus => exact (Scans.mark (m := .plus) (h.opens _ rest)).append (h.scans rest hrest) happend
    | minus => exact (Scans.mark (m := .minus) (h.opens _ rest)).append (h.scans rest hrest) happend
    | not =>
      have hnot : Scans Keyword.notKw.text.toList (' ' :: e.text.toList ++ rest)
          (IsOne (.keyword .notKw)) :=
        .token (Keyword.spells .notKw) ((closes_cons rfl _).stopsAt _) fun _ => ⟨_, rfl, rfl⟩
      exact hnot.append (h.scans rest hrest).blank happend

theorem readsBack_quoted {e : Expr} {content : String} (htext : e.text = "'" ++ content ++ "'")
    (hline : '\n' ∉ content.toList) (hquote : quote ∉ content.toList)
    (hvalue : ∀ p, (Parse.quotedValue p content).placeless = e.placeless) : ReadsBack e := by
  have hspells := spells_quoted hline hquote
  rw [← htext] at hspells
  exact readsBack_token hspells nofun fun p => ⟨_, .quoted rfl rfl, hvalue p⟩

theorem readsBack_of_drawn {e : Expr} (h : e.Drawn (· ∈ scan source))
    (hplain : e.plainLiterals = true) : ReadsBack e := by
  have hall : ∀ {es : List Expr}, Expr.allPlainLiterals es = true →
      ∀ e ∈ es, e.plainLiterals = true := by
    intro es h
    induction es with
    | nil => exact forall_mem_nil _
    | cons e es ih =>
      obtain ⟨he, hes⟩ := Bool.and_eq_true_iff.mp h
      exact forall_mem_cons.mpr ⟨he, ih hes⟩
  induction h with
  | @int t v ht hcounts =>
    exact readsBack_token (spells_integer (hcounts.nonneg ht)) nofun
      fun p => ⟨_, .int ⟨rfl, rfl⟩, rfl⟩
  | real => cases hplain
  | @char t text c ht hk hp hc hascii =>
    have hquote : c ≠ quote := by simpa [Expr.plainLiterals] using hplain
    have htext : (Expr.char t.position c).text = "'" ++ text ++ "'" := by
      have hsingle : text = String.singleton c := by
        rw [← String.toList_inj, hc, String.toList_singleton]
      rw [hsingle]
      rfl
    refine readsBack_quoted htext (line_not_mem_of_quoted ht hk hp)
      (by simpa [hc] using hquote.symm) fun p => ?_
    rw [Parse.quotedValue, hc]
    dsimp only
    rw [if_pos hascii]
    rfl
  | @string t text ht hk hp hother =>
    have htext : (Expr.string t.position text).text = "'" ++ text ++ "'" := rfl
    refine readsBack_quoted htext (line_not_mem_of_quoted ht hk hp)
      (by simpa [Expr.plainLiterals] using hplain) fun p => ?_
    unfold Parse.quotedValue
    split
    · next c hc => rw [if_neg (Nat.not_lt.mpr (hother c hc))]; rfl
    · rfl
  | @bool p v =>
    cases v with
    | true => exact readsBack_token (Keyword.spells .trueKw) nofun fun _ => ⟨_, .true rfl, rfl⟩
    | false =>
      exact readsBack_token (Keyword.spells .falseKw) nofun fun _ => ⟨_, .false rfl, rfl⟩
  | element hname hne _ ih =>
    exact readsBack_element hname hne fun e he => ih e he (hall hplain e he)
  | name hname =>
    exact readsBack_token hname.spells nofun fun p => ⟨_, .name ⟨rfl, rfl⟩, rfl⟩
  | call hname _ ih => exact readsBack_call hname fun e he => ih e he (hall hplain e he)
  | binary _ _ hleft hright =>
    obtain ⟨hl, hr⟩ := Bool.and_eq_true_iff.mp hplain
    exact readsBack_binary (hleft hl) (hright hr)
  | unary _ _ ih => exact readsBack_unary (ih hplain)

end Operands

/-- An expression that was read is read again from its text, to the end of the text and up to the
places of its parts, if it has no real number and no quote in a literal. -/
theorem expression_text_reread {source : String} {i rest : Input} {e : Expr}
    (hi : i ≤ .ofTokens (scan source)) (h : Parse.expression i = .ok e rest)
    (hplain : e.plainLiterals = true) :
    ∃ e' last, Parse.expression (.ofTokens (scan e.text)) = .ok e' ⟨[], last⟩ ∧
      last.kind = .endOfText ∧ e'.placeless = e.placeless := by
  have hdraws : Draws (· ∈ scan source) Parse.expression _ :=
    Parse.draws_expression (scan_carries source)
  have hdrawn := hdraws.of_parse ((ofTokens_scan_all source).of_le hi) h
  obtain ⟨ts, q, ⟨e', he', hsame⟩, hscan⟩ :=
    (readsBack_of_drawn hdrawn hplain).scans [] nofun .start
  rw [append_nil, scanFrom_lastGap .nil] at hscan
  -- the tokens of the text before its end are those of the operand
  obtain ⟨us, last, hus, hlast, hinner⟩ := scan_ended e.text
  obtain ⟨rfl, hend⟩ := append_inj' (hus.symm.trans hscan) rfl
  obtain rfl := (List.cons.inj hend).1
  have htaken := Parse.takes_expression us.length [] ⟨.endOfText, "", q.after [], none⟩
    (le_refl _) (exprText_operand he') (Parse.stops_of_ends rfl 1 us)
  rw [append_nil] at htaken
  rw [hus, Input.ofTokens_ended hinner hlast]
  exact ⟨e', _, htaken, rfl, hsame⟩

/-- Operators of all tiers, prefix operators, calls, elements and literals. -/
def crowdedSource : String := "a or not b[i, -2] = f() * (g('x', 'it', 7 div c) - - 1) < true"

theorem crowdedSource_reread : ∃ e rest, Parse.expression (.ofTokens (scan crowdedSource)) =
    .ok e rest ∧ e.plainLiterals = true ∧
    e.text = "(((a or (not b[i, (-2)])) = (f() * (g('x', 'it', (7 div c)) - (-1)))) < true)" ∧
    ∃ e' last, Parse.expression (.ofTokens (scan e.text)) = .ok e' ⟨[], last⟩ ∧
      last.kind = .endOfText ∧ e'.placeless = e.placeless := by
  have hview : (match Parse.expression (.ofTokens (scan crowdedSource)) with
      | .ok e _ => some (e.plainLiterals, e.text)
      | .error _ _ => none) = some (true,
        "(((a or (not b[i, (-2)])) = (f() * (g('x', 'it', (7 div c)) - (-1)))) < true)") := by
    decide +kernel
  cases h : Parse.expression (.ofTokens (scan crowdedSource)) with
  | error e i =>
    rw [h] at hview
    cases hview
  | ok e rest =>
    rw [h] at hview
    obtain ⟨hplain, htext⟩ := Prod.mk.inj (Option.some.inj hview)
    exact ⟨e, rest, rfl, hplain, htext, expression_text_reread (le_refl _) h hplain⟩

end MiniPascal
