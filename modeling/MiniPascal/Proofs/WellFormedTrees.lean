import MiniPascal.Proofs.Places
import MiniPascal.Proofs.Respelling

/-!
# Trees are well-formed

What the scanner makes sure of its tokens holds of all trees that are read from a source, also after
faults.
-/

namespace MiniPascal

section Trees

/-- A word of small letters, digits and underscores that does not begin with a digit and is no
keyword. -/
structure IsIdentifier (name : String) : Prop where
  word : ∃ c cs, name.toList = c :: cs ∧ (c.isLower = true ∨ c = '_') ∧
    ∀ d ∈ cs, d.isLower = true ∨ d.isDigit = true ∨ d = '_'
  notKeyword : ∀ k : Keyword, k.text ≠ name

def IsIdentifierList (names : List String) : Prop :=
  names ≠ [] ∧ ∀ name ∈ names, IsIdentifier name

inductive Expr.WellFormed : Expr → Prop
  | int {p v} : 0 ≤ v.toInt → v.toInt ≤ 2 ^ 63 - 1 → WellFormed (.int p v)
  | real {p v} : WellFormed (.real p v)
  | char {p} {c : Char} : c.toNat < 128 → c ≠ '\n' → WellFormed (.char p c)
  | bool {p v} : WellFormed (.bool p v)
  | string {p} {s : String} : '\n' ∉ s.toList → (¬ ∃ c, s.toList = [c] ∧ c.toNat < 128) →
      WellFormed (.string p s)
  | element {p n es} : IsIdentifier n → es ≠ [] → (∀ e ∈ es, WellFormed e) →
      WellFormed (.element p n es)
  | name {p n} : IsIdentifier n → WellFormed (.name p n)
  | call {p n es} : IsIdentifier n → (∀ e ∈ es, WellFormed e) → WellFormed (.call p n es)
  | binary {p op left right} : WellFormed left → WellFormed right →
      WellFormed (.binary p op left right)
  | unary {p op e} : WellFormed e → WellFormed (.unary p op e)

inductive Statement.WellFormed : Statement → Prop
  | assign {p n es e} : IsIdentifier n → (∀ e ∈ es, Expr.WellFormed e) → e.WellFormed →
      WellFormed (.assign p n es e)
  | call {p n es} : IsIdentifier n → (∀ e ∈ es, Expr.WellFormed e) → WellFormed (.call p n es)
  | compound {p ss} : (∀ s ∈ ss, WellFormed s) → WellFormed (.compound p ss)
  | ifThen {p c s} : c.WellFormed → WellFormed s → WellFormed (.branch p c s none)
  | ifThenElse {p c s s'} : c.WellFormed → WellFormed s → WellFormed s' →
      WellFormed (.branch p c s (some s'))
  | count {p n first last d s} : IsIdentifier n → first.WellFormed → last.WellFormed →
      WellFormed s → WellFormed (.count p n first last d s)
  | loop {p c s} : c.WellFormed → WellFormed s → WellFormed (.loop p c s)
  | exit {p} : WellFormed (.exit p)

/-- Bounds in order, of which the lower one has an opposite, and with a number of elements that is a
word. -/
structure Period.WellFormed (d : Period) : Prop where
  ordered : d.lower ≤ d.upper
  above : Int64.minValue < d.lower
  counted : d.upper.toInt - d.lower.toInt + 1 ≤ Int64.maxValue.toInt

structure ConstDecl.WellFormed (d : ConstDecl) : Prop where
  name : IsIdentifier d.name
  value : d.value.WellFormed

structure VarDecl.WellFormed (d : VarDecl) : Prop where
  names : IsIdentifierList d.names
  periods : ∀ period ∈ d.periods, period.WellFormed

structure Heading.WellFormed (h : Heading) : Prop where
  name : IsIdentifier h.name
  groups : ∀ g ∈ h.groups, IsIdentifierList g.names

structure Body.WellFormed (b : Body) : Prop where
  consts : ∀ d ∈ b.consts, d.WellFormed
  vars : ∀ d ∈ b.vars, d.WellFormed
  statements : ∀ s ∈ b.statements, s.WellFormed

/-- All of a program but its own name. -/
structure Program.WellFormed (p : Program) : Prop where
  parameters : ∀ name ∈ p.parameters, IsIdentifier name
  headings : ∀ s ∈ p.subprograms, s.heading.WellFormed
  bodies : ∀ s ∈ p.subprograms, s.body.WellFormed
  body : p.body.WellFormed

end Trees

section Tokens

variable {source : String} {t : Token}

theorem spells_of_mem (ht : t ∈ scan source) (hk : t.kind.isLast = false) :
    Spells t.kind t.text t.payload t.text.toList := scanFrom_spelled _ _ t ht hk

theorem isLower_toLower {c : Char} (h : isNameStart c = true) :
    c.toLower.isLower = true ∨ c.toLower = '_' :=
  forall_ascii (P := fun c => isNameStart c = true → c.toLower.isLower = true ∨ c.toLower = '_')
    (by decide +kernel) (lt_of_isNameChar (isNameChar_of_isNameStart h)) h

theorem isLower_or_isDigit_toLower {c : Char} (h : isNameChar c = true) :
    c.toLower.isLower = true ∨ c.toLower.isDigit = true ∨ c.toLower = '_' :=
  forall_ascii (P := fun c => isNameChar c = true →
    c.toLower.isLower = true ∨ c.toLower.isDigit = true ∨ c.toLower = '_')
    (by decide +kernel) (lt_of_isNameChar h) h

theorem Token.Names.isIdentifier {name : String} (h : t.Names name) (ht : t ∈ scan source) :
    IsIdentifier name := by
  have hspells := spells_of_mem ht (by rw [h.1]; rfl)
  rw [h.1, h.2] at hspells
  generalize t.text = text at hspells
  generalize text.toList = spelling at hspells
  cases hspells with
  | @identifier c cs _ hc hcs hname hkeyword =>
    refine ⟨⟨c.toLower, cs.map Char.toLower, by rw [hname]; simp, isLower_toLower hc, ?_⟩, hkeyword⟩
    intro d hd
    obtain ⟨e, he, rfl⟩ := List.mem_map.mp hd
    exact isLower_or_isDigit_toLower (hcs e he)

theorem Token.Counts.nonneg {v : Int64} (h : t.Counts v) (ht : t ∈ scan source) : 0 ≤ v.toInt :=
  scanFrom_unsigned _ _ t ht v h.2

theorem line_not_mem_of_quoted {text : String} (ht : t ∈ scan source) (hk : t.kind = .quoted)
    (hp : t.payload = some (.text text)) : '\n' ∉ text.toList := by
  have hspells := spells_of_mem ht (by rw [hk]; rfl)
  rw [hk, hp] at hspells
  generalize t.text = spelled at hspells
  generalize spelled.toList = spelling at hspells
  cases hspells with
  | quoted hcontent => rwa [String.toList_ofList]

end Tokens

/-! ## Bounds -/

section Bounds

/-- The opposite of a number without a sign is no other number modulo words. -/
theorem Integer.neg?_eq {v : Int64} (h : 0 ≤ v.toInt) : neg? v = some (-v) := by
  obtain ⟨w, hw⟩ := neg?_of_nonneg h
  have hvalue := toInt_of_ofInt? hw
  rw [hw, ← w.ofInt_toInt, hvalue, Int64.ofInt_neg, v.ofInt_toInt]

variable {i i' : Input}

theorem Parse.accept_ok {k : Token.Kind} {found : Bool} (h : accept k i = .ok found i') :
    found = decide (i.kind = k) ∧ i' = if i.kind = k then i.advance else i := by
  obtain ⟨_, i₁, hkind, h⟩ := bind_eq_ok h
  cases hkind
  split at h
  · next hk =>
    cases h
    simp [hk]
  · next hk =>
    cases h
    simp [hk]

theorem Parse.separated_ne_nil {α : Type} {separator : Token.Kind} {first item : Parse α}
    {as : List α} (h : separated separator first item i = .ok as i') : as ≠ [] := by
  obtain ⟨a, i₁, _, h⟩ := bind_eq_ok h
  obtain ⟨_, i₂, _, h⟩ := bind_eq_ok h
  obtain ⟨rest, i₃, _, h⟩ := bind_eq_ok h
  cases h
  exact List.cons_ne_nil a rest

theorem Parse.bound_ok {source : String} {w : Int64} (hi : i ≤ .ofTokens (scan source))
    (h : bound i = .ok w i') :
    ∃ t ∈ scan source, ∃ v, t.Counts v ∧
      if i.kind = .mark .minus then Integer.neg? v = some w else w = v := by
  obtain ⟨negative, i₁, haccept, h⟩ := bind_eq_ok h
  obtain ⟨t, i₂, hexpect, h⟩ := bind_eq_ok h
  obtain ⟨hk, rfl, -⟩ := expect_ok hexpect
  obtain ⟨rfl, -⟩ := accept_ok haccept
  have ht : i₁.current ∈ scan source := by
    have hle := le_trans ((advances_accept _).of_ok haccept) hi
    exact (((ofTokens_scan_all source).of_le hle).moved (f := id) fun _ _ => rfl).current.mem
  obtain ⟨v, hv⟩ := Token.exists_integer (scan_carries source _ ht) hk
  rw [hv] at h
  cases h
  refine ⟨_, ht, v, ⟨hk, hv⟩, ?_⟩
  split
  · next hminus =>
    simp [Integer.neg?_eq (Token.Counts.nonneg ⟨hk, hv⟩ ht), hminus]
  · next hminus => simp [hminus]

theorem Parse.type_ok {type : ScalarType} {periods : List Period}
    (h : Parse.type i = .ok (type, periods) i') : periods ≠ [] ↔ i.kind = .keyword .arrayKw := by
  obtain ⟨isArray, i₁, haccept, h⟩ := bind_eq_ok h
  obtain ⟨rfl, -⟩ := accept_ok haccept
  split at h
  · next hk =>
    obtain ⟨_, i₂, _, h⟩ := bind_eq_ok h
    obtain ⟨listed, i₃, hlisted, h⟩ := bind_eq_ok h
    obtain ⟨_, i₄, _, h⟩ := bind_eq_ok h
    obtain ⟨_, i₅, _, h⟩ := bind_eq_ok h
    obtain ⟨_, i₆, _, h⟩ := bind_eq_ok h
    cases h
    exact iff_of_true (separated_ne_nil hlisted) (of_decide_eq_true hk)
  · next hk =>
    obtain ⟨_, i₂, _, h⟩ := bind_eq_ok h
    cases h
    exact iff_of_false (fun hne => hne rfl) fun harray => hk (decide_eq_true harray)

end Bounds

/-! ## Trees -/

section Drawn

variable {source : String}

theorem NamedAt.isIdentifier {name : String} {p : Position}
    (h : NamedAt (· ∈ scan source) name p) : IsIdentifier name := by
  obtain ⟨t, ht, hname, -⟩ := h
  exact hname.isIdentifier ht

theorem Named.isIdentifier {name : String} (h : Named (· ∈ scan source) name) :
    IsIdentifier name := by
  obtain ⟨p, h⟩ := h
  exact h.isIdentifier

theorem NamedAll.isIdentifierList {names : List String} (h : NamedAll (· ∈ scan source) names) :
    IsIdentifierList names := ⟨h.1, fun name hname => (h.2 name hname).isIdentifier⟩

theorem Bounding.minValue_lt {w : Int64} (h : Bounding (· ∈ scan source) w) :
    Int64.minValue < w := by
  obtain ⟨t, v, ht, hcounts, hw⟩ := h
  have hv := hcounts.nonneg ht
  have hlt := v.toInt_lt
  have hmin : Int64.minValue.toInt = -2 ^ 63 := rfl
  rw [Int64.lt_iff_toInt_lt]
  rcases hw with rfl | rfl
  · omega
  · have hneg := Integer.toInt_of_ofInt? (Integer.neg?_eq hv)
    omega

theorem Expr.Drawn.wellFormed {e : Expr} (h : e.Drawn (· ∈ scan source)) : e.WellFormed := by
  induction h with
  | @int t v ht hcounts => exact .int (hcounts.nonneg ht) (Int.le_of_lt_add_one v.toInt_lt)
  | real => exact .real
  | @char t text c ht hk hp hc hascii =>
    refine .char hascii ?_
    rintro rfl
    apply line_not_mem_of_quoted ht hk hp
    rw [hc]
    exact List.mem_cons_self
  | string ht hk hp hother =>
    refine .string (line_not_mem_of_quoted ht hk hp) ?_
    rintro ⟨c, hc, hascii⟩
    exact absurd (hother c hc) (Nat.not_le_of_lt hascii)
  | bool => exact .bool
  | element hname hne _ ih => exact .element hname.isIdentifier hne ih
  | name hname => exact .name hname.isIdentifier
  | call hname _ ih => exact .call hname.isIdentifier ih
  | binary _ _ hleft hright => exact .binary hleft hright
  | unary _ _ ih => exact .unary ih

theorem Statement.Drawn.wellFormed {s : Statement} (h : s.Drawn (· ∈ scan source)) :
    s.WellFormed := by
  have hexprs : ∀ {es : List Expr}, (∀ e ∈ es, e.Drawn (· ∈ scan source)) →
      ∀ e ∈ es, e.WellFormed := fun h e he => (h e he).wellFormed
  induction h with
  | assign hname hes he => exact .assign hname.isIdentifier (hexprs hes) he.wellFormed
  | call hname hes => exact .call hname.isIdentifier (hexprs hes)
  | compound _ _ ih => exact .compound ih
  | ifThen _ hc _ ih => exact .ifThen hc.wellFormed ih
  | ifThenElse _ hc _ _ ih ih' => exact .ifThenElse hc.wellFormed ih ih'
  | count _ hname hfirst hlast _ ih =>
    exact .count hname.isIdentifier hfirst.wellFormed hlast.wellFormed ih
  | loop _ hc _ ih => exact .loop hc.wellFormed ih
  | exit => exact .exit

theorem Period.Drawn.wellFormed {d : Period} (h : d.Drawn (· ∈ scan source)) : d.WellFormed where
  ordered := h.ranged.ordered
  above := h.lower.minValue_lt
  counted := by
    have hsize := (Period.isSome_size? h.ranged.ordered).mp h.ranged.countable
    omega

theorem Body.Drawn.wellFormed {b : Body} (h : b.Drawn (· ∈ scan source)) : b.WellFormed where
  consts d hd := ⟨(h.consts d hd).name.isIdentifier, (h.consts d hd).value.wellFormed⟩
  vars d hd := ⟨(h.vars d hd).names.isIdentifierList,
    fun period hperiod => ((h.vars d hd).periods period hperiod).wellFormed⟩
  statements s hs := (h.statements s hs).wellFormed

theorem Program.Drawn.wellFormed {p : Program} (h : p.Drawn (· ∈ scan source)) : p.WellFormed where
  parameters name hname := (h.parameters name hname).isIdentifier
  headings s hs := ⟨(h.subprograms s hs).heading.name.isIdentifier,
    fun g hg => ((h.subprograms s hs).heading.groups g hg).names.isIdentifierList⟩
  bodies s hs := (h.subprograms s hs).body.wellFormed
  body := h.body.wellFormed

end Drawn

/-! ## Heads of programs -/

section Heads

theorem Parse.identifier_state {what : String} {r : String × Position} {i i' : Input}
    (h : identifier what i = .ok r i') : i' = i.advance := by
  obtain ⟨t, i₁, hexpect, h⟩ := bind_eq_ok h
  obtain ⟨-, -, rfl⟩ := expect_ok hexpect
  generalize t.payload = payload at h
  split at h <;> cases h <;> rfl

theorem Parse.programHead_parameters {i i' : Input} {name : String} {parameters : List String}
    {place : Position} (h : programHead i = .ok (name, parameters, place) i') :
    parameters ≠ [] ↔ i.advance.advance.kind = .mark .openParen := by
  obtain ⟨_, i₁, hplace, h⟩ := bind_eq_ok h
  cases hplace
  obtain ⟨_, i₂, hword, h⟩ := bind_eq_ok h
  obtain ⟨-, -, rfl⟩ := expect_ok hword
  obtain ⟨⟨title, _⟩, i₃, htitle, h⟩ := bind_eq_ok h
  obtain rfl := identifier_state htitle
  obtain ⟨_, i₄, haccept, h⟩ := bind_eq_ok h
  obtain ⟨rfl, -⟩ := accept_ok haccept
  split at h
  · next hk =>
    obtain ⟨listed, i₅, hlisted, h⟩ := bind_eq_ok h
    obtain ⟨_, i₆, _, h⟩ := bind_eq_ok h
    obtain ⟨_, i₇, hpure, h⟩ := bind_eq_ok h
    cases hpure
    obtain ⟨_, i₈, _, h⟩ := bind_eq_ok h
    cases h
    exact iff_of_true (separated_ne_nil hlisted) (of_decide_eq_true hk)
  · next hk =>
    obtain ⟨_, i₅, hpure, h⟩ := bind_eq_ok h
    cases hpure
    obtain ⟨_, i₆, _, h⟩ := bind_eq_ok h
    cases h
    exact iff_of_false (fun hne => hne rfl) fun hparen => hk (decide_eq_true hparen)

namespace Recover

variable {s s' : Session}

theorem programHead_cases {name : String} {parameters : List String} {place : Position}
    (h : programHead s = .ok (name, parameters, place) s') :
    (∃ i, Parse.programHead s.input = .ok (name, parameters, place) i) ∨
      ∃ e i, Parse.programHead s.input = .error e i ∧ name = "" ∧ parameters = [] := by
  obtain ⟨result, s₁, hattempt, h⟩ := bind_eq_ok h
  rcases attempt_ok hattempt with ⟨head, rfl, hread⟩ | ⟨e, rfl, hread⟩
  · cases h
    exact .inl ⟨_, hread⟩
  · obtain ⟨_, s₂, hp, h⟩ := bind_eq_ok h
    obtain ⟨_, s₃, hnoted, h⟩ := bind_eq_ok h
    obtain ⟨_, s₄, hskip, h⟩ := bind_eq_ok h
    obtain ⟨_, s₅, haccept, h⟩ := bind_eq_ok h
    cases h
    exact .inr ⟨e, _, hread, rfl, rfl⟩

theorem programHead_of_program {p : Program} (h : program s = .ok p s') :
    ∃ place s₁, programHead s = .ok (p.name, p.parameters, place) s₁ := by
  obtain ⟨_, h, -⟩ := program_eq_ok h
  obtain ⟨⟨name, parameters, place⟩, s₁, hhead, h⟩ := bind_eq_ok h
  obtain ⟨consts, s₂, hconsts, h⟩ := bind_eq_ok h
  obtain ⟨vars, s₃, hvars, h⟩ := bind_eq_ok h
  obtain ⟨_, s₄, hget, h⟩ := bind_eq_ok h
  obtain ⟨subprograms, s₅, hsubs, h⟩ := bind_eq_ok h
  obtain ⟨⟨parts, q⟩, s₆, hblock, h⟩ := bind_eq_ok h
  cases h
  exact ⟨place, s₁, hhead⟩

end Recover

end Heads

/-- Every tree that is read from a source is well-formed, with or without faults. Its name is an
identifier or, if its head could not be read, empty; parameters and dimensions are listed just where
the text lists them. A bound behind a sign is the exact opposite of the number that was written. -/
theorem parse_wellFormed {source : String} {p : Program} {errors : List SyntaxError}
    (h : parse (scan source) = .ok (p, errors)) :
    p.WellFormed ∧
      ((∃ place i, Parse.programHead (.ofTokens (scan source)) =
            .ok (p.name, p.parameters, place) i ∧ IsIdentifier p.name ∧
          (p.parameters ≠ [] ↔
            (Input.ofTokens (scan source)).advance.advance.kind = .mark .openParen)) ∨
        ∃ e i, Parse.programHead (.ofTokens (scan source)) = .error e i ∧
          p.name = "" ∧ p.parameters = []) ∧
      (∀ i i' type periods, Parse.type i = .ok (type, periods) i' →
        (periods ≠ [] ↔ i.kind = .keyword .arrayKw)) ∧
      ∀ i i' w, i ≤ Input.ofTokens (scan source) → Parse.bound i = .ok w i' →
        ∃ t ∈ scan source, ∃ v, t.Counts v ∧
          if i.kind = .mark .minus then Integer.neg? v = some w else w = v := by
  refine ⟨(parse_drawn h).wellFormed, ?_, fun i i' type periods => Parse.type_ok,
    fun i i' w => Parse.bound_ok⟩
  obtain ⟨s, hs, -⟩ := program_of_parse h
  obtain ⟨place, s₁, hhead⟩ := Recover.programHead_of_program hs
  rcases Recover.programHead_cases hhead with ⟨i, hread⟩ | ⟨e, i, hread, hname, hparameters⟩
  · have hdraws : Draws (· ∈ scan source) Parse.programHead _ :=
      Parse.draws_programHead (scan_carries source)
    have hnamed := (hdraws.of_parse (ofTokens_scan_all source) hread).1
    exact .inl ⟨place, i, hread, hnamed.isIdentifier, Parse.programHead_parameters hread⟩
  · exact .inr ⟨e, i, hread, hname, hparameters⟩

/-- A head without a name, a number among names, an element without an index, and no full stop. -/
def brokenSource : String :=
  "program; var x, 1: integer; a: array [-2..3] of char;
  begin a[] := 'b'; a[0] := ''''; y := 'it''s' end"

theorem brokenSource_wellFormed : ∃ p errors, parse (scan brokenSource) = .ok (p, errors) ∧
    errors.length = 4 ∧ p.name = "" ∧ p.body.vars.map VarDecl.periods = [[⟨-2, 3⟩]] ∧
    p.body.statements.length = 2 ∧ p.WellFormed := by
  have hview : ((parse (scan brokenSource)).toOption.map fun r => (r.2.length, r.1.name,
      r.1.body.vars.map VarDecl.periods, r.1.body.statements.length)) =
      some (4, "", [[⟨-2, 3⟩]], 2) := by
    have hchars : brokenSource = String.ofList _ := rfl
    rw [hchars, scan_ofList]
    decide +kernel
  cases h : parse (scan brokenSource) with
  | error e =>
    rw [h] at hview
    cases hview
  | ok r =>
    obtain ⟨p, errors⟩ := r
    rw [h] at hview
    have hview := Option.some.inj hview
    simp only [Prod.mk.injEq] at hview
    obtain ⟨hcount, hname, hperiods, hstatements⟩ := hview
    exact ⟨p, errors, rfl, hcount, hname, hperiods, hstatements, (parse_wellFormed h).1⟩

end MiniPascal
