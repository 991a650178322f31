import MiniPascal.Proofs.FatalFaults
import MiniPascal.Proofs.TokenOrder
import Mathlib.Data.List.Induction
import Mathlib.Data.Nat.Digits.Defs

/-!
# Scanning loses nothing

A text that scans to its end is made of the spellings of its tokens with gaps before, between and
behind them.
-/

namespace MiniPascal

open List

/-! ## Places -/

/-- The place behind a text: one line more for each line feed in it, and one column more for each
character after the last of them. -/
def Position.behind (text : List Char) : Position :=
  ⟨1 + text.count '\n', 1 + (text.reverse.takeWhile (· ≠ '\n')).length⟩

namespace Position

@[simp] theorem behind_nil : behind [] = start := rfl

theorem next_behind (text : List Char) (c : Char) :
    (behind text).next c = behind (text ++ [c]) := by
  by_cases hc : c = '\n'
  · subst hc
    simp [behind, next, Nat.add_assoc]
  · simp [behind, next, hc, count_append, Nat.add_comm]

theorem behind_append_line {text line : List Char} (h : '\n' ∉ line) :
    behind (text ++ line) = (behind text).right line.length := by
  have hcount : line.count '\n' = 0 := count_eq_zero.mpr h
  have hall : ∀ c ∈ line.reverse, (decide (c ≠ '\n')) = true := by
    intro c hc
    simp only [ne_eq, decide_not, Bool.not_eq_eq_eq_not, Bool.not_true, decide_eq_false_iff_not]
    rintro rfl
    exact h (mem_reverse.mp hc)
  simp only [behind, right, count_append, hcount, reverse_append,
    takeWhile_append_of_pos hall, length_append, length_reverse]
  congr 1
  omega

end Position

/-! ## Gaps -/

/-- White space and comments. At the end of a text the last comment may run up to there, else it
has to be closed: by its bracket, or by the end of the line. -/
inductive IsGap (atEnd : Bool) : List Char → Prop
  | nil : IsGap atEnd []
  | blank {c : Char} {gap : List Char} : Text.isBlank c = true → IsGap atEnd gap →
      IsGap atEnd (c :: gap)
  | braces {body gap : List Char} : '\x7d' ∉ body → IsGap atEnd gap →
      IsGap atEnd ('\x7b' :: (body ++ '\x7d' :: gap))
  | stars {body gap : List Char} : ¬ ['*', ')'] <:+: body → IsGap atEnd gap →
      IsGap atEnd ('(' :: '*' :: (body ++ '*' :: ')' :: gap))
  | line {body gap : List Char} : '\n' ∉ body → IsGap atEnd gap →
      IsGap atEnd ('/' :: '/' :: (body ++ '\n' :: gap))
  | lastLine {body : List Char} : atEnd = true → '\n' ∉ body → IsGap atEnd ('/' :: '/' :: body)

namespace Gap

/-- What a reader still takes of a gap, by where it stands. -/
def Mode.Takes (atEnd : Bool) (gap : List Char) : Mode → Prop
  | .between => IsGap atEnd gap
  | .braces _ => ∃ body gap', gap = body ++ '\x7d' :: gap' ∧ '\x7d' ∉ body ∧ IsGap atEnd gap'
  | .stars _ =>
    ∃ body gap', gap = body ++ '*' :: ')' :: gap' ∧ ¬ ['*', ')'] <:+: body ∧ IsGap atEnd gap'
  | .line => (∃ body gap', gap = body ++ '\n' :: gap' ∧ '\n' ∉ body ∧ IsGap atEnd gap') ∨
      atEnd = true ∧ '\n' ∉ gap

theorem not_infix_cons {c d : Char} {body gap rest ds : List Char}
    (hopen : ¬ (c = '*' ∧ d = ')')) (hds : d :: ds = body ++ '*' :: ')' :: gap ++ rest)
    (hbody : ¬ ['*', ')'] <:+: body) : ¬ ['*', ')'] <:+: c :: body := by
  intro h
  rcases infix_cons_iff.mp h with hprefix | hinfix
  · obtain ⟨hc, hprefix⟩ := cons_prefix_cons.mp hprefix
    cases body with
    | nil => cases hprefix.length_le
    | cons e body =>
      obtain ⟨he, -⟩ := cons_prefix_cons.mp hprefix
      exact hopen ⟨hc.symm, (List.cons.inj hds).1.trans he.symm⟩
  · exact hbody hinfix

theorem skip_reached {m : Mode} {p q : Position} {cs rest : List Char}
    (h : skip m p cs = .reached q rest) {before : List Char} (hp : p = .behind before) :
    ∃ gap, cs = gap ++ rest ∧ q = .behind (before ++ gap) ∧ m.Takes rest.isEmpty gap := by
  have hnext : ∀ {p : Position} {before : List Char} (c : Char), p = .behind before →
      p.next c = .behind (before ++ [c]) := by
    rintro p before c rfl
    exact Position.next_behind before c
  fun_induction skip m p cs generalizing before with
  | case1 | case6 | case7 =>
    cases h
    exact ⟨[], by simp, by simp [hp], .nil⟩
  | case2 p c cs hblank ih =>
    obtain ⟨gap, rfl, rfl, htakes⟩ := ih h (hnext c hp)
    exact ⟨c :: gap, rfl, by simp, .blank hblank htakes⟩
  | case3 p cs _ ih =>
    obtain ⟨_, rfl, rfl, body, gap, rfl, hbody, hgap⟩ := ih h (hnext _ hp)
    exact ⟨'\x7b' :: (body ++ '\x7d' :: gap), rfl, by simp, .braces hbody hgap⟩
  | case4 p c d ds _ _ hopen ih =>
    obtain ⟨_, rfl, rfl, body, gap, rfl, hbody, hgap⟩ := ih h (hnext _ (hnext _ hp))
    obtain ⟨rfl, rfl⟩ := hopen
    exact ⟨'(' :: '*' :: (body ++ '*' :: ')' :: gap), rfl, by simp, .stars hbody hgap⟩
  | case5 p c d ds _ _ _ hopen ih =>
    obtain ⟨gap, rfl, rfl, htakes⟩ := ih h (hnext _ (hnext _ hp))
    obtain ⟨rfl, rfl⟩ := hopen
    refine ⟨'/' :: '/' :: gap, rfl, by simp, ?_⟩
    rcases htakes with ⟨body, gap, rfl, hbody, hgap⟩ | ⟨hend, hbody⟩
    · exact .line hbody hgap
    · exact .lastLine hend hbody
  | case8 | case11 | case14 => cases h
  | case9 opened p cs ih =>
    obtain ⟨gap, rfl, rfl, hgap⟩ := ih h (hnext _ hp)
    exact ⟨'\x7d' :: gap, rfl, by simp, [], gap, rfl, not_mem_nil, hgap⟩
  | case10 opened p c cs hc ih =>
    obtain ⟨_, rfl, rfl, body, gap, rfl, hbody, hgap⟩ := ih h (hnext c hp)
    refine ⟨c :: (body ++ '\x7d' :: gap), rfl, by simp, c :: body, gap, rfl, ?_, hgap⟩
    simp [Ne.symm hc, hbody]
  | case12 opened p c d ds hclose ih =>
    obtain ⟨gap, rfl, rfl, hgap⟩ := ih h (hnext _ (hnext _ hp))
    obtain ⟨rfl, rfl⟩ := hclose
    exact ⟨'*' :: ')' :: gap, rfl, by simp, [], gap, rfl, by simp, hgap⟩
  | case13 opened p c d ds hopen ih =>
    obtain ⟨_, hds, rfl, body, gap, rfl, hbody, hgap⟩ := ih h (hnext c hp)
    refine ⟨c :: (body ++ '*' :: ')' :: gap), congrArg (c :: ·) hds, by simp, c :: body, gap, rfl,
      not_infix_cons hopen hds hbody, hgap⟩
  | case15 =>
    cases h
    exact ⟨[], rfl, by simp [hp], .inr ⟨rfl, not_mem_nil⟩⟩
  | case16 p cs ih =>
    obtain ⟨gap, rfl, rfl, hgap⟩ := ih h (hnext _ hp)
    exact ⟨'\n' :: gap, rfl, by simp, .inl ⟨[], gap, rfl, not_mem_nil, hgap⟩⟩
  | case17 p c cs hc ih =>
    obtain ⟨gap, rfl, rfl, htakes⟩ := ih h (hnext c hp)
    refine ⟨c :: gap, rfl, by simp, ?_⟩
    rcases htakes with ⟨body, gap, rfl, hbody, hgap⟩ | ⟨hend, hbody⟩
    · exact .inl ⟨c :: body, gap, rfl, by simp [Ne.symm hc, hbody], hgap⟩
    · exact .inr ⟨hend, by simp [Ne.symm hc, hbody]⟩

end Gap

/-! ## Spellings -/

/-- The number that digits denote: each of them counts ten times as much as the one behind it. -/
def decimalValue (digits : List Char) : Nat :=
  Nat.ofDigits 10 (digits.reverse.map fun c => c.toNat - '0'.toNat)

/-- The parts of a number: digits, which are needed before a point and behind an exponent letter. -/
structure Numeral.Formed (n : Numeral) : Prop where
  whole_ne_nil : n.whole ≠ []
  whole : ∀ c ∈ n.whole, c.isDigit = true
  fraction : ∀ c ∈ n.fraction, c.isDigit = true
  scale : ∀ sign digits, n.scale = some (sign, digits) →
    sign ∈ [[], ['+'], ['-']] ∧ digits ≠ [] ∧ ∀ c ∈ digits, c.isDigit = true

/-- The exponent of a number with the given letter before it. -/
def Numeral.scaled (letter : Char) : Option (List Char × List Char) → List Char
  | some (sign, digits) => letter :: (sign ++ digits)
  | none => []

def Numeral.spelling (letter : Char) (n : Numeral) : List Char :=
  n.whole ++ (if n.fraction.isEmpty then [] else '.' :: n.fraction) ++ scaled letter n.scale

def doubled (content : List Char) : List Char :=
  content.flatMap fun c => if c = quote then [quote, quote] else [c]

def quoted (content : List Char) : List Char := quote :: (doubled content ++ [quote])

/-- How tokens are spelled. The text of a token is its spelling, with a small exponent letter. -/
inductive Spells : Token.Kind → String → Option Token.Payload → List Char → Prop
  | keyword {k : Keyword} {word : List Char} : word.map Char.toLower = k.text.toList →
      Spells (.keyword k) (String.ofList word) none word
  | mark {m : Mark} : Spells (.mark m) m.text none m.text.toList
  | identifier {c : Char} {cs : List Char} {name : String} : isNameStart c = true →
      (∀ d ∈ cs, isNameChar d = true) → name = String.ofList ((c :: cs).map Char.toLower) →
      (∀ k : Keyword, k.text ≠ name) →
      Spells .identifier (String.ofList (c :: cs)) (some (.text name)) (c :: cs)
  | integer {digits : List Char} {value : Int64} : digits ≠ [] → (∀ c ∈ digits, c.isDigit = true) →
      decimalValue digits < 9223372036854775808 → value.toInt = decimalValue digits →
      Spells .integer (String.ofList digits) (some (.integer value)) digits
  | real {n : Numeral} {letter : Char} : n.Formed → n.isReal = true →
      letter = 'e' ∨ letter = 'E' →
      Spells .real (String.ofList (n.spelling 'e')) (some (.real n.toReal)) (n.spelling letter)
  | quoted {content : List Char} : '\n' ∉ content →
      Spells .quoted (String.ofList (quoted content)) (some (.text (String.ofList content)))
        (quoted content)

theorem Keyword.mem_all (k : Keyword) : k ∈ all := by
  cases k <;> decide

theorem Keyword.text_of_ofName? {name : String} {k : Keyword} (h : ofName? name = some k) :
    k.text = name := by
  have hfound := List.find?_some h
  exact beq_iff_eq.mp hfound

theorem Keyword.text_ne_of_ofName? {name : String} (h : ofName? name = none) (k : Keyword) :
    k.text ≠ name := by
  intro heq
  have hnot := find?_eq_none.mp h k k.mem_all
  exact hnot (beq_iff_eq.mpr heq)

theorem Decimal.ofDigits_eq_decimalValue (digits : List Char) :
    ofDigits digits = decimalValue digits := by
  induction digits using List.reverseRecOn with
  | nil => rfl
  | append_singleton digits c ih =>
    rw [ofDigits, foldl_append, ← ofDigits, ih]
    simp [decimalValue, Nat.ofDigits_cons, Nat.add_comm]

theorem Numeral.readFraction_eq (cs : List Char) :
    cs = (if (readFraction cs).1.isEmpty then [] else '.' :: (readFraction cs).1) ++
      (readFraction cs).2 ∧ ∀ c ∈ (readFraction cs).1, c.isDigit = true := by
  fun_cases readFraction cs with
  | case1 d rest hd =>
    rw [takeWhile_cons_of_pos hd]
    refine ⟨?_, ?_⟩
    · simp [dropWhile_cons_of_pos hd]
    · rw [← takeWhile_cons_of_pos hd]
      exact fun c hc => (mem_takeWhile_imp hc)
  | case2 | case3 => simp

theorem Numeral.readSign_eq (cs : List Char) :
    cs = (readSign cs).1 ++ (readSign cs).2 ∧ (readSign cs).1 ∈ [[], ['+'], ['-']] := by
  fun_cases readSign cs <;> simp

theorem Numeral.readScale_eq (cs : List Char) : ∃ letter, (letter = 'e' ∨ letter = 'E') ∧
    cs = scaled letter (readScale cs).1 ++ (readScale cs).2 ∧
    ∀ sign digits, (readScale cs).1 = some (sign, digits) →
      sign ∈ [[], ['+'], ['-']] ∧ ∀ c ∈ digits, c.isDigit = true := by
  fun_cases readScale cs with
  | case1 => exact ⟨'e', .inl rfl, rfl, fun _ _ h => by cases h⟩
  | case2 c rest hc sign after hsign =>
    obtain ⟨hrest, hmem⟩ := readSign_eq rest
    rw [hsign] at hrest hmem
    refine ⟨c, hc, ?_, ?_⟩
    · simp [scaled, hrest, takeWhile_append_dropWhile]
    · rintro _ _ ⟨⟩
      exact ⟨hmem, fun c hc => mem_takeWhile_imp hc⟩
  | case3 c rest _ => exact ⟨'e', .inl rfl, rfl, fun _ _ h => by cases h⟩

variable {c : Char} {n : Numeral}

theorem Numeral.read_eq (hc : c.isDigit = true) (cs : List Char) :
    ∃ letter, (letter = 'e' ∨ letter = 'E') ∧
      c :: cs = (read (c :: cs)).1.spelling letter ++ (read (c :: cs)).2 ∧
      ((∀ sign, (read (c :: cs)).1.scale ≠ some (sign, [])) → (read (c :: cs)).1.Formed) := by
  have hfraction := readFraction_eq ((c :: cs).dropWhile Char.isDigit)
  obtain ⟨letter, hletter, hscale, hdigits⟩ :=
    readScale_eq (readFraction ((c :: cs).dropWhile Char.isDigit)).2
  refine ⟨letter, hletter, ?_, fun hne => ⟨?_, ?_, hfraction.2, ?_⟩⟩
  · rw [spelling, append_assoc, append_assoc]
    refine (takeWhile_append_dropWhile (p := Char.isDigit)).symm.trans ?_
    exact congrArg (_ ++ ·) (hfraction.1.trans (congrArg (_ ++ ·) hscale))
  · simp [read, takeWhile_cons_of_pos hc]
  · intro d hd
    exact mem_takeWhile_imp hd
  · intro sign digits h
    obtain ⟨hsign, hall⟩ := hdigits sign digits h
    refine ⟨hsign, ?_, hall⟩
    rintro rfl
    exact hne sign h

theorem Numeral.text_eq (n : Numeral) : n.text = n.spelling 'e' := by
  obtain ⟨whole, fraction, _ | ⟨sign, digits⟩⟩ := n <;> rfl

theorem Numeral.length_spelling (n : Numeral) (letter : Char) :
    (n.spelling letter).length = n.text.length := by
  rw [text_eq]
  obtain ⟨whole, fraction, _ | ⟨sign, digits⟩⟩ := n <;> simp [spelling, scaled]

theorem Numeral.value?_eq_real {x : Float} (h : n.value? = some (.real x)) :
    n.isReal = true ∧ x = n.toReal ∧ ∀ sign, n.scale ≠ some (sign, []) := by
  unfold value? at h
  split at h
  · next hreal =>
    split at h
    · cases h
    · next hscale =>
      cases h
      exact ⟨hreal, rfl, hscale⟩
  · simp at h

theorem Numeral.value?_eq_other {v : Token.Payload} (h : n.value? = some v)
    (hv : ∀ x, v ≠ .real x) :
    n.fraction = [] ∧ n.scale = none ∧ decimalValue n.whole < 9223372036854775808 ∧
      ∃ w : Int64, v = .integer w ∧ w.toInt = decimalValue n.whole := by
  unfold value? at h
  split at h
  · split at h
    · cases h
    · cases h
      exact (hv _ rfl).elim
  · next hreal =>
    obtain ⟨w, hw, rfl⟩ := Option.map_eq_some_iff.mp h
    have hvalue := Integer.toInt_of_ofInt? hw
    rw [Decimal.ofDigits_eq_decimalValue] at hvalue
    have hlt := Int64.toInt_lt w
    simp [isReal] at hreal
    refine ⟨hreal.1, hreal.2, ?_, w, rfl, hvalue⟩
    omega

theorem Quoted.read_eq {cs rest : List Char} (h : (read cs).rest? = some rest) :
    '\n' ∉ (read cs).value ∧ cs = (read cs).text ++ rest ∧
      (read cs).text = doubled (read cs).value ++ [quote] := by
  fun_induction read cs generalizing rest with
  | case1 | case2 => cases h
  | case3 ds q hline =>
    rename_i ih
    obtain ⟨hvalue, htext, hdoubled⟩ := ih h
    refine ⟨not_mem_cons_of_ne_of_not_mem (Ne.symm hline) hvalue, ?_, ?_⟩
    · exact congrArg (quote :: quote :: ·) htext
    · exact congrArg (quote :: quote :: ·) hdoubled
  | case4 d ds hd =>
    cases h
    simp [doubled]
  | case5 =>
    cases h
    simp [doubled]
  | case6 c cs hline hquote q =>
    rename_i ih
    obtain ⟨hvalue, htext, hdoubled⟩ := ih h
    refine ⟨not_mem_cons_of_ne_of_not_mem (Ne.symm hline) hvalue, ?_, ?_⟩
    · exact congrArg (c :: ·) htext
    · refine (congrArg (c :: ·) hdoubled).trans ?_
      simp [doubled, hquote, q]

theorem Mark.read?_eq {cs rest : List Char} {m : Mark} (h : read? c cs = some (m, rest)) :
    c :: cs = m.text.toList ++ rest := by
  unfold read? at h
  split at h <;> first | (cases h; rfl) | cases h

theorem isNameChar_of_isNameStart (hc : isNameStart c = true) : isNameChar c = true := by
  simp only [isNameStart, isNameChar, Char.isAlphanum, Bool.or_eq_true] at hc ⊢
  tauto

/-! ## Tokens -/

namespace Lexeme

/-- A lexeme takes a spelling of its token off the text. -/
def Takes (text : List Char) (l : Lexeme) : Prop :=
  ∃ spelling, text = spelling ++ l.rest ∧
    Spells l.kind (String.ofList l.text) l.payload spelling ∧ spelling.length = l.text.length

variable {cs : List Char} {c : Char}

theorem readQuoted_takes (h : (readQuoted cs).kind ≠ .invalid) :
    (readQuoted cs).Takes (quote :: cs) := by
  unfold readQuoted at h ⊢
  dsimp only at h ⊢
  cases hrest : (Quoted.read cs).rest? with
  | none =>
    rw [hrest] at h
    exact (h rfl).elim
  | some rest =>
    obtain ⟨hvalue, htext, hdoubled⟩ := Quoted.read_eq hrest
    have hquoted : quote :: (Quoted.read cs).text = quoted (Quoted.read cs).value :=
      congrArg (quote :: ·) hdoubled
    refine ⟨quote :: (Quoted.read cs).text, congrArg (quote :: ·) htext, ?_, rfl⟩
    rw [hquoted]
    exact .quoted hvalue

theorem readNumber_takes (hc : c.isDigit = true) (h : (readNumber (c :: cs)).kind ≠ .invalid) :
    (readNumber (c :: cs)).Takes (c :: cs) := by
  obtain ⟨letter, hletter, htext, hformed⟩ := Numeral.read_eq hc cs
  unfold readNumber at h ⊢
  revert htext hformed h
  generalize Numeral.read (c :: cs) = r
  obtain ⟨n, rest⟩ := r
  intro h htext hformed
  dsimp only at h htext hformed ⊢
  split
  · next x hx =>
    obtain ⟨hreal, rfl, hscale⟩ := Numeral.value?_eq_real hx
    refine ⟨n.spelling letter, htext, ?_, n.length_spelling letter⟩
    exact .real (hformed hscale) hreal hletter
  · next v hother hv =>
    obtain ⟨hfraction, hscale, hlt, w, rfl, hvalue⟩ :=
      Numeral.value?_eq_other hv hother
    have hn : n.Formed := hformed (by simp [hscale])
    have hspelling : ∀ letter, n.spelling letter = n.whole := by
      intro letter
      simp [Numeral.spelling, hfraction, hscale, Numeral.scaled]
    rw [hspelling] at htext
    rw [n.text_eq, hspelling]
    exact ⟨n.whole, htext, .integer hn.whole_ne_nil hn.whole hlt hvalue, rfl⟩
  · next hnone =>
    rw [hnone] at h
    exact (h rfl).elim

theorem readWord_takes (cs : List Char) (hc : isNameStart c = true) :
    (readWord (c :: cs)).Takes (c :: cs) := by
  have hsplit := takeWhile_append_dropWhile (p := isNameChar) (l := c :: cs)
  have hword : (c :: cs).takeWhile isNameChar = c :: cs.takeWhile isNameChar :=
    takeWhile_cons_of_pos (isNameChar_of_isNameStart hc)
  unfold readWord
  dsimp only
  split
  · next k hk =>
    refine ⟨_, hsplit.symm, .keyword ?_, rfl⟩
    rw [Keyword.text_of_ofName? hk, String.toList_ofList]
  · next hnone =>
    refine ⟨_, hsplit.symm, ?_, rfl⟩
    rw [hword] at hnone ⊢
    exact .identifier hc (fun d hd => mem_takeWhile_imp hd) rfl
      (Keyword.text_ne_of_ofName? hnone)

theorem read_takes (h : (read c cs).kind ≠ .invalid) : (read c cs).Takes (c :: cs) := by
  unfold read at h ⊢
  by_cases hquote : c = quote
  · rw [if_pos hquote] at h ⊢
    rw [hquote]
    exact readQuoted_takes h
  rw [if_neg hquote] at h ⊢
  by_cases hdigit : c.isDigit = true
  · rw [if_pos hdigit] at h ⊢
    exact readNumber_takes hdigit h
  rw [if_neg hdigit] at h ⊢
  by_cases hname : isNameStart c = true
  · rw [if_pos hname]
    exact readWord_takes cs hname
  rw [if_neg hname] at h ⊢
  cases hmark : Mark.read? c cs with
  | none =>
    rw [hmark] at h
    exact (h rfl).elim
  | some r =>
    obtain ⟨m, rest⟩ := r
    refine ⟨m.text.toList, Mark.read?_eq hmark, ?_, rfl⟩
    rw [String.ofList_toList]
    exact .mark

end Lexeme

theorem line_not_mem_of_isDigit {cs : List Char} (h : ∀ c ∈ cs, c.isDigit = true) : '\n' ∉ cs := by
  intro hmem
  cases h _ hmem

theorem Spells.line_not_mem {kind : Token.Kind} {text : String} {payload : Option Token.Payload}
    {spelling : List Char} (h : Spells kind text payload spelling) : '\n' ∉ spelling := by
  cases h with
  | @keyword k word hword =>
    intro hmem
    have hlower := mem_map_of_mem (f := Char.toLower) hmem
    rw [hword] at hlower
    revert hlower
    cases k <;> decide
  | @mark m => cases m <;> decide
  | @identifier c cs name hc hcs _ _ =>
    intro hmem
    rcases mem_cons.mp hmem with rfl | hmem
    · cases hc
    · cases hcs _ hmem
  | integer _ hdigits _ _ => exact line_not_mem_of_isDigit hdigits
  | @real n letter hn _ hletter =>
    have hwhole := line_not_mem_of_isDigit hn.whole
    have hfraction := line_not_mem_of_isDigit hn.fraction
    have hscale : '\n' ∉ Numeral.scaled letter n.scale := by
      cases h : n.scale with
      | none => exact not_mem_nil
      | some s =>
        obtain ⟨hsign, _, hdigits⟩ := hn.scale s.1 s.2 h
        have hline := line_not_mem_of_isDigit hdigits
        simp only [mem_cons, not_mem_nil, or_false] at hsign
        rcases hletter with rfl | rfl <;> rcases hsign with hsign | hsign | hsign <;>
          simp [Numeral.scaled, hsign, hline]
    simp [Numeral.spelling, hwhole, hfraction, hscale]
  | @quoted content hcontent =>
    have hdoubled : '\n' ∉ doubled content := by
      intro hmem
      obtain ⟨c, hc, hmem⟩ := mem_flatMap.mp hmem
      split at hmem
      · simp [quote] at hmem
      · rw [mem_singleton] at hmem
        exact hcontent (hmem ▸ hc)
    simp [MiniPascal.quoted, hdoubled, quote]

/-- A token with its spelling and the gap before it. -/
structure Piece where
  gap : List Char
  spelling : List Char
  token : Token

def Piece.text (p : Piece) : List Char := p.gap ++ p.spelling

/-- A text, behind another one, that is made of pieces and a last gap. -/
structure Laid (before text : List Char) (pieces : List Piece) (gap : List Char) : Prop where
  text_eq : text = pieces.flatMap Piece.text ++ gap
  gaps : ∀ p ∈ pieces, IsGap false p.gap
  lastGap : IsGap true gap
  spelled : ∀ p ∈ pieces, Spells p.token.kind p.token.text p.token.payload p.spelling
  places : ∀ earlier p later, pieces = earlier ++ p :: later →
    p.token.position = .behind (before ++ earlier.flatMap Piece.text ++ p.gap)

theorem Laid.cons {before rest gap : List Char} {pieces : List Piece} {p : Piece}
    (h : Laid (before ++ p.text) rest pieces gap) (hgap : IsGap false p.gap)
    (hspells : Spells p.token.kind p.token.text p.token.payload p.spelling)
    (hplace : p.token.position = .behind (before ++ p.gap)) :
    Laid before (p.text ++ rest) (p :: pieces) gap where
  text_eq := by
    rw [h.text_eq, flatMap_cons, append_assoc]
  gaps := forall_mem_cons.mpr ⟨hgap, h.gaps⟩
  lastGap := h.lastGap
  spelled := forall_mem_cons.mpr ⟨hspells, h.spelled⟩
  places := by
    intro earlier q later heq
    cases earlier with
    | nil =>
      cases heq
      simpa using hplace
    | cons r earlier =>
      cases heq
      simpa using h.places earlier q later rfl

theorem scanFrom_laid (p : Position) (cs : List Char) : ∀ before, p = .behind before →
    (∀ t ∈ scanFrom p cs, t.kind ≠ .invalid) → ∃ pieces gap, Laid before cs pieces gap ∧
      scanFrom p cs =
        pieces.map Piece.token ++ [⟨.endOfText, "", .behind (before ++ cs), none⟩] := by
  fun_induction scanFrom p cs with
  | case1 =>
    intro before _ hvalid
    exact (hvalid _ mem_cons_self rfl).elim
  | case2 p cs q hgap =>
    intro before hp _
    obtain ⟨gap, rfl, rfl, htakes⟩ := Gap.skip_reached hgap hp
    refine ⟨[], gap, ⟨by simp, forall_mem_nil _, htakes, forall_mem_nil _, ?_⟩, by simp⟩
    intro earlier q later heq
    simp at heq
  | case3 p cs q c rest hgap l t hinvalid =>
    intro before _ hvalid
    exact (hvalid _ mem_cons_self hinvalid).elim
  | case4 p cs q c rest hgap l t hvalid ih =>
    intro before hp hall
    obtain ⟨gap, rfl, rfl, htakes⟩ := Gap.skip_reached hgap hp
    have hgap : IsGap false gap := htakes
    obtain ⟨spelling, htext, hspells, hlength⟩ := Lexeme.read_takes hvalid
    have hplace : (Position.behind (before ++ gap)).right l.text.length =
        .behind (before ++ gap ++ spelling) := by
      rw [Position.behind_append_line hspells.line_not_mem, hlength]
    obtain ⟨pieces, lastGap, hlaid, hscan⟩ :=
      ih (before ++ gap ++ spelling) hplace (forall_mem_cons.mp hall).2
    have hcons :
        Laid before (gap ++ spelling ++ l.rest) (⟨gap, spelling, t⟩ :: pieces) lastGap := by
      refine Laid.cons (p := ⟨gap, spelling, t⟩) ?_ hgap hspells rfl
      rwa [Piece.text, ← append_assoc]
    rw [htext, ← append_assoc]
    refine ⟨_, _, hcons, ?_⟩
    rw [hscan]
    simp [l]

/-- Of the tokens of a source the last one, and no other, ends it. If it is the end of the text, the
source is made of the spellings of the other tokens and of gaps, and each token stands behind all
that comes before it and has what its spelling denotes. -/
theorem scan_lossless (source : String) : ∃ ts last, scan source = ts ++ [last] ∧
    last.kind.isLast = true ∧ (∀ t ∈ ts, t.kind.isLast = false) ∧
    (last.kind = .endOfText →
      (∃ pieces gap, Laid [] source.toList pieces gap ∧ ts = pieces.map Piece.token) ∧
      last = ⟨.endOfText, "", .behind source.toList, none⟩ ∧
      (scan source).Pairwise fun t u => t.position.Before u.position) := by
  obtain ⟨ts, last, hscan, hlast, hts⟩ := scan_ended source
  refine ⟨ts, last, hscan, hlast, hts, fun hend => ?_⟩
  have hvalid : ∀ t ∈ scan source, t.kind ≠ .invalid := by
    rw [hscan]
    intro t ht hkind
    rcases List.mem_append.mp ht with ht | ht
    · have hinner := hts t ht
      rw [hkind] at hinner
      cases hinner
    · rw [List.mem_singleton.mp ht] at hkind
      cases hkind.symm.trans hend
  obtain ⟨pieces, gap, hlaid, htokens⟩ := scanFrom_laid _ _ [] Position.behind_nil.symm hvalid
  obtain ⟨rfl, hsingle⟩ := List.append_inj' (hscan.symm.trans htokens) rfl
  cases hsingle
  exact ⟨⟨pieces, gap, hlaid, rfl⟩, rfl, (scanFrom_ordered _ _).2⟩

/-- A capital exponent letter, a quote inside of quotes, and a comment of each form. -/
def mixedText : String := "Begin (* a *) x:=1.5E+3\x7bb\x7d'it''s' // c"

theorem mixedText_lossless :
    (scan mixedText).map Token.text = ["Begin", "x", ":=", "1.5e+3", "'it''s'", ""] ∧
    ∃ pieces gap, Laid [] mixedText.toList pieces gap ∧
      (scan mixedText).dropLast = pieces.map Piece.token := by
  refine ⟨by decide +kernel, ?_⟩
  obtain ⟨ts, last, hscan, -, -, hlossless⟩ := scan_lossless mixedText
  have hkind : ((scan mixedText).getLast?.map Token.kind) = some .endOfText := by decide +kernel
  rw [hscan, List.getLast?_concat] at hkind
  obtain ⟨⟨pieces, gap, hlaid, rfl⟩, -, -⟩ := hlossless (Option.some.inj hkind)
  exact ⟨pieces, gap, hlaid, by rw [hscan, List.dropLast_concat]⟩

end MiniPascal
