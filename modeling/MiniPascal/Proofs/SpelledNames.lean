import MiniPascal.Proofs.LosslessScan
import MiniPascal.Proofs.TokenTrees

/-!
# How names are spelled

A name of a source is a word of letters, digits and underscores, and a single character is one of
ASCII.
-/

namespace MiniPascal

open List

def Spelled (name : String) : Prop := ∀ c ∈ name.toList, isNameChar c = true

instance (name : String) : Decidable (Spelled name) :=
  List.decidableBAll (fun c => isNameChar c = true) name.toList

inductive Expr.Plain : Expr → Prop
  | int {p v} : Plain (.int p v)
  | real {p v} : Plain (.real p v)
  | char {p} {c : Char} : c.toNat < 128 → Plain (.char p c)
  | bool {p v} : Plain (.bool p v)
  | string {p v} : Plain (.string p v)
  | element {p n es} : Spelled n → (∀ e ∈ es, Plain e) → Plain (.element p n es)
  | name {p n} : Spelled n → Plain (.name p n)
  | call {p n es} : Spelled n → (∀ e ∈ es, Plain e) → Plain (.call p n es)
  | binary {p op left right} : Plain left → Plain right → Plain (.binary p op left right)
  | unary {p op e} : Plain e → Plain (.unary p op e)

inductive Statement.Plain : Statement → Prop
  | assign {p n es e} : Spelled n → (∀ e ∈ es, Expr.Plain e) → e.Plain → Plain (.assign p n es e)
  | call {p n es} : Spelled n → (∀ e ∈ es, Expr.Plain e) → Plain (.call p n es)
  | compound {p ss} : (∀ s ∈ ss, Plain s) → Plain (.compound p ss)
  | ifThen {p c s} : c.Plain → Plain s → Plain (.branch p c s none)
  | ifThenElse {p c s s'} : c.Plain → Plain s → Plain s' → Plain (.branch p c s (some s'))
  | count {p n first last d s} : Spelled n → first.Plain → last.Plain → Plain s →
      Plain (.count p n first last d s)
  | loop {p c s} : c.Plain → Plain s → Plain (.loop p c s)
  | exit {p} : Plain (.exit p)

structure Heading.Plain (h : Heading) : Prop where
  name : Spelled h.name
  params : ∀ g ∈ h.groups, ∀ n ∈ g.names, Spelled n

structure Body.Plain (b : Body) : Prop where
  consts : ∀ d ∈ b.consts, Spelled d.name ∧ d.value.Plain
  vars : ∀ d ∈ b.vars, ∀ n ∈ d.names, Spelled n
  statements : ∀ s ∈ b.statements, s.Plain

structure Program.Plain (p : Program) : Prop where
  subprograms : ∀ s ∈ p.subprograms, s.heading.Plain ∧ s.body.Plain
  body : p.body.Plain

/-- If the token is a name, the name is spelled. -/
def Token.Spelled (t : Token) : Prop := ∀ name, t.Names name → MiniPascal.Spelled name

variable {c : Char} {source : String} {p : Program}

theorem forall_ascii {P : Char → Prop} (h : ∀ n < 128, P (Char.ofNat n)) (hc : c.toNat < 128) :
    P c := by
  simpa only [Char.ofNat_toNat] using h c.toNat hc

theorem lt_of_isNameChar (h : isNameChar c = true) : c.toNat < 128 := by
  have hupper : c.isUpper = true → c.toNat ≤ 'Z'.toNat := fun h =>
    UInt32.le_iff_toNat_le.mp (of_decide_eq_true h).2
  have hlower : c.isLower = true → c.toNat ≤ 'z'.toNat := fun h =>
    UInt32.le_iff_toNat_le.mp (of_decide_eq_true (Bool.and_eq_true_iff.mp h).2)
  have hdigit : c.isDigit = true → c.toNat ≤ '9'.toNat := fun h => (Char.isDigit_iff_toNat.mp h).2
  have hcases : (((c.isUpper || c.isLower) || c.isDigit) || c == '_') = true := h
  simp only [Bool.or_eq_true, beq_iff_eq] at hcases
  rcases hcases with ((h | h) | h) | rfl
  · exact Nat.lt_of_le_of_lt (hupper h) (by decide)
  · exact Nat.lt_of_le_of_lt (hlower h) (by decide)
  · exact Nat.lt_of_le_of_lt (hdigit h) (by decide)
  · decide

theorem isNameChar_toLower (h : isNameChar c = true) : isNameChar c.toLower = true :=
  forall_ascii (P := fun c => isNameChar c = true → isNameChar c.toLower = true)
    (by decide +kernel) (lt_of_isNameChar h) h

theorem Spells.spelled {text name : String} {spelling : List Char}
    (h : Spells .identifier text (some (.text name)) spelling) : Spelled name := by
  cases h with
  | identifier hc hcs hname =>
    subst hname
    intro c hmem
    rw [String.toList_ofList] at hmem
    obtain ⟨d, hd, rfl⟩ := mem_map.mp hmem
    rcases mem_cons.mp hd with rfl | hd
    · exact isNameChar_toLower (isNameChar_of_isNameStart hc)
    · exact isNameChar_toLower (hcs d hd)

theorem Lexeme.read_spelled (c : Char) (cs : List Char) (text : String) (p : Position) :
    (Token.mk (read c cs).kind text p (read c cs).payload).Spelled := by
  rintro name ⟨hkind, hpayload⟩
  dsimp only at hkind hpayload
  have htakes : (read c cs).Takes (c :: cs) := read_takes (by rw [hkind]; nofun)
  obtain ⟨spelling, _, hspells, _⟩ := htakes
  rw [hkind, hpayload] at hspells
  exact hspells.spelled

theorem scan_spelled (source : String) : ∀ t ∈ scan source, t.Spelled := by
  unfold scan
  fun_induction scanFrom .start source.toList with
  | case1 | case2 => exact forall_mem_singleton.mpr fun _ h => Token.Kind.noConfusion h.1
  | case3 => exact forall_mem_singleton.mpr (Lexeme.read_spelled _ _ _ _)
  | case4 p cs q c rest _ l t _ ih =>
    exact forall_mem_cons.mpr ⟨Lexeme.read_spelled _ _ _ _, ih⟩

theorem exists_programText (h : parse (scan source) = .ok (p, [])) :
    ∃ ts, (∀ t ∈ ts, t ∈ scan source) ∧ ProgramText ts p := by
  obtain ⟨ts, last, hscan, hlast, hts⟩ := scan_ended source
  have hinput := Input.ofTokens_ended hts hlast
  rw [hscan] at h
  have hend : last.kind = .endOfText := by
    by_contra hother
    have hbad : last.kind = .invalid := by simpa [Token.Kind.isLast, hother] using hlast
    -- Before input that is no token, reading fails or leaves a fault.
    rcases program_before_invalid hts hbad with ⟨_, s, hs⟩ | ⟨u, us, q, notes, what, _, _, hs⟩
    · rw [parse_of_error (hinput ▸ hs)] at h
      cases h
    · rw [parse_of_ok (hinput ▸ hs), filterMap_append] at h
      simp [Note.error?] at h
  have hended : Ended ts last := ⟨hend, fun t ht =>
    scan_carries source t (hscan ▸ mem_append_left _ ht)⟩
  obtain ⟨s, hok, hclean⟩ := parse_eq_ok_iff.mp h
  rw [hinput] at hok
  obtain ⟨us, rest, rfl, _, htext, _⟩ := Recover.cleanAt_program _ hended rfl hok hclean
  refine ⟨us, fun t ht => ?_, htext⟩
  rw [hscan, append_assoc]
  exact mem_append_left _ ht

section Drawn

variable {source : String}

theorem Named.spelled {name : String} (h : Named (· ∈ scan source) name) : Spelled name := by
  obtain ⟨_, t, ht, hname, -⟩ := h
  exact scan_spelled source t ht name hname

theorem Expr.Drawn.plain {e : Expr} (h : e.Drawn (· ∈ scan source)) : e.Plain := by
  induction h with
  | int => exact .int
  | real => exact .real
  | char _ _ _ _ hascii => exact .char hascii
  | string => exact .string
  | bool => exact .bool
  | element hname _ _ ih => exact .element (Named.spelled ⟨_, hname⟩) ih
  | name hname => exact .name (Named.spelled ⟨_, hname⟩)
  | call hname _ ih => exact .call (Named.spelled ⟨_, hname⟩) ih
  | binary _ _ hleft hright => exact .binary hleft hright
  | unary _ _ ih => exact .unary ih

theorem Statement.Drawn.plain {s : Statement} (h : s.Drawn (· ∈ scan source)) : s.Plain := by
  have hexprs : ∀ {es : List Expr}, (∀ e ∈ es, e.Drawn (· ∈ scan source)) → ∀ e ∈ es, e.Plain :=
    fun h e he => (h e he).plain
  induction h with
  | assign hname hes he => exact .assign (Named.spelled ⟨_, hname⟩) (hexprs hes) he.plain
  | call hname hes => exact .call (Named.spelled ⟨_, hname⟩) (hexprs hes)
  | compound _ _ ih => exact .compound ih
  | ifThen _ hc _ ih => exact .ifThen hc.plain ih
  | ifThenElse _ hc _ _ ih ih' => exact .ifThenElse hc.plain ih ih'
  | count _ hname hfirst hlast _ ih => exact .count hname.spelled hfirst.plain hlast.plain ih
  | loop _ hc _ ih => exact .loop hc.plain ih
  | exit => exact .exit

theorem Body.Drawn.plain {b : Body} (h : b.Drawn (· ∈ scan source)) : b.Plain where
  consts d hd := ⟨Named.spelled ⟨_, (h.consts d hd).name⟩, (h.consts d hd).value.plain⟩
  vars d hd name hname := ((h.vars d hd).names.2 name hname).spelled
  statements s hs := (h.statements s hs).plain

theorem Heading.Drawn.plain {h : Heading} (hdrawn : h.Drawn (· ∈ scan source)) : h.Plain where
  name := hdrawn.name.spelled
  params g hg name hname := ((hdrawn.groups g hg).names.2 name hname).spelled

end Drawn

theorem plain_of_source (h : parse (scan source) = .ok (p, [])) : p.Plain where
  subprograms s hs :=
    ⟨((parse_drawn h).subprograms s hs).heading.plain, ((parse_drawn h).subprograms s hs).body.plain⟩
  body := (parse_drawn h).body.plain

end MiniPascal
