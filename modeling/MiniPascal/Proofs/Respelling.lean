import MiniPascal.Proofs.CTokens
import MiniPascal.Proofs.LetterCase

/-!
# Spellings are read back

A spelling of a token is read as that token as long as the next character cannot go on with it.
-/

namespace MiniPascal

open List

/-- Whether a character may go on with a token of the kind, or make a comment of it. -/
def Token.Kind.goesOn : Token.Kind → Char → Bool
  | .keyword _, c | .identifier, c => isNameChar c
  | .integer, c | .real, c => c.isDigit || ['.', 'e', 'E'].contains c
  | .quoted, c => c == quote
  | .mark _, c => ['=', '>', '.', '*', '/'].contains c
  | .invalid, _ | .endOfText, _ => false

/-- A text that does not go on with a token of the kind. -/
def Token.Kind.StopsAt (kind : Token.Kind) (rest : List Char) : Prop :=
  ∀ c ∈ rest.head?, kind.goesOn c = false

section Gaps

def Position.after (p : Position) (text : List Char) : Position := text.foldl next p

@[simp] theorem Position.after_nil (p : Position) : p.after [] = p := rfl

@[simp] theorem Position.after_cons (p : Position) (c : Char) (text : List Char) :
    p.after (c :: text) = (p.next c).after text := rfl

@[simp] theorem Position.after_append (p : Position) (text text' : List Char) :
    p.after (text ++ text') = (p.after text).after text' := foldl_append

namespace Gap

theorem skip_braces {body : List Char} (h : '\x7d' ∉ body) (opened p : Position)
    (rest : List Char) : skip (.braces opened) p (body ++ '\x7d' :: rest) =
      skip .between (p.after (body ++ ['\x7d'])) rest := by
  induction body generalizing p with
  | nil => rfl
  | cons c body ih =>
    have hc := ne_of_not_mem_cons h
    have hbody := not_mem_of_not_mem_cons h
    simpa [skip, Ne.symm hc] using ih hbody (p.next c)

theorem skip_line {body : List Char} (h : '\n' ∉ body) (p : Position) (rest : List Char) :
    skip .line p (body ++ '\n' :: rest) = skip .between (p.after (body ++ ['\n'])) rest := by
  induction body generalizing p with
  | nil => rfl
  | cons c body ih =>
    have hc := ne_of_not_mem_cons h
    have hbody := not_mem_of_not_mem_cons h
    simpa [skip, Ne.symm hc] using ih hbody (p.next c)

theorem skip_stars {body : List Char} (h : ¬ ['*', ')'] <:+: body) (opened p : Position)
    (rest : List Char) : skip (.stars opened) p (body ++ '*' :: ')' :: rest) =
      skip .between (p.after (body ++ ['*', ')'])) rest := by
  induction body generalizing p with
  | nil => rfl
  | cons c body ih =>
    have hbody : ¬ ['*', ')'] <:+: body := mt infix_cons h
    cases body with
    | nil => simp [skip]
    | cons d body =>
      have hopen : ¬ (c = '*' ∧ d = ')') := by
        rintro ⟨rfl, rfl⟩
        exact h (prefix_append ['*', ')'] body).isInfix
      simpa [skip, hopen] using ih hbody (p.next c)

theorem skip_openStars (p : Position) (cs : List Char) :
    skip .between p ('(' :: '*' :: cs) = skip (.stars p) (p.after ['(', '*']) cs := rfl

theorem skip_openLine (p : Position) (cs : List Char) :
    skip .between p ('/' :: '/' :: cs) = skip .line (p.after ['/', '/']) cs := rfl

theorem skip_gap {gap : List Char} (h : IsGap false gap) (p : Position) (rest : List Char) :
    skip .between p (gap ++ rest) = skip .between (p.after gap) rest := by
  induction h generalizing p with
  | nil => rfl
  | blank hblank _ ih => exact (skip_blank hblank p _).trans (ih _)
  | @braces body gap hbody _ ih =>
    simpa [skip_brace, skip_braces hbody] using ih (p.after ('\x7b' :: (body ++ ['\x7d'])))
  | @stars body gap hbody _ ih =>
    simpa [skip_openStars, skip_stars hbody] using
      ih (p.after ('(' :: '*' :: (body ++ ['*', ')'])))
  | @line body gap hbody _ ih =>
    simpa [skip_openLine, skip_line hbody] using ih (p.after ('/' :: '/' :: (body ++ ['\n'])))
  | lastLine hend => cases hend

theorem skip_token {c : Char} {cs : List Char} (hblank : Text.isBlank c = false)
    (hbrace : c ≠ '\x7b') (hstars : c = '(' → cs.head? ≠ some '*')
    (hline : c = '/' → cs.head? ≠ some '/') (p : Position) :
    skip .between p (c :: cs) = .reached p (c :: cs) := by
  cases cs with
  | nil => simp [skip, hblank, hbrace]
  | cons d ds =>
    have hstars : ¬ (c = '(' ∧ d = '*') := fun h => hstars h.1 (congrArg some h.2)
    have hline : ¬ (c = '/' ∧ d = '/') := fun h => hline h.1 (congrArg some h.2)
    simp [skip, hblank, hbrace, hstars, hline]

end Gap

theorem scanFrom_gap {gap : List Char} (h : IsGap false gap) (p : Position) (rest : List Char) :
    scanFrom p (gap ++ rest) = scanFrom (p.after gap) rest := by
  rw [scanFrom_eq, scanFrom_eq, Gap.skip_gap h]

theorem scanFrom_lastGap {gap : List Char} (h : IsGap false gap) (p : Position) :
    scanFrom p gap = [⟨.endOfText, "", p.after gap, none⟩] := by
  rw [← append_nil gap, scanFrom_gap h, append_nil, scanFrom_eq]
  rfl

end Gaps

section Lexemes

/-- A text that begins with a token, without a gap before it. -/
def Lexeme.Heads (l : Lexeme) (text : List Char) : Prop :=
  ∃ c cs, text = c :: cs ∧ read c cs = l ∧ ∀ p, Gap.skip .between p text = .reached p text

variable {c : Char} {k : Keyword}

theorem Lexeme.heads_of_read {cs : List Char} {l : Lexeme}
    (hc : isNameStart c = true ∨ c.isDigit = true ∨ c = quote) (h : read c cs = l) :
    l.Heads (c :: cs) := by
  have hascii : c.toNat < 128 := by
    rcases hc with hc | hc | rfl
    · exact lt_of_isNameChar (isNameChar_of_isNameStart hc)
    · exact lt_of_isNameChar (by simp [isNameChar, Char.isAlphanum, hc])
    · decide
  obtain ⟨hblank, hbrace, hparen, hslash⟩ := forall_ascii
    (P := fun c => isNameStart c = true ∨ c.isDigit = true ∨ c = quote →
      Text.isBlank c = false ∧ c ≠ '\x7b' ∧ c ≠ '(' ∧ c ≠ '/') (by decide +kernel) hascii hc
  exact ⟨c, cs, rfl, h,
    Gap.skip_token hblank hbrace (fun h => absurd h hparen) (fun h => absurd h hslash)⟩

theorem isNameStart_ne (h : isNameStart c = true) : c ≠ quote ∧ c.isDigit = false :=
  forall_ascii (P := fun c => isNameStart c = true → c ≠ quote ∧ c.isDigit = false)
    (by decide +kernel) (lt_of_isNameChar (isNameChar_of_isNameStart h)) h

theorem isDigit_ne_quote (h : c.isDigit = true) : c ≠ quote := by
  rintro rfl
  cases h

theorem Keyword.ofName?_text (k : Keyword) : ofName? k.text = some k := by
  cases k <;> rfl

theorem Keyword.ofName?_eq_none {name : String} (h : ∀ k : Keyword, k.text ≠ name) :
    ofName? name = none := by
  refine find?_eq_none.mpr fun k _ => ?_
  simpa using h k

theorem Lexeme.read_word {cs rest : List Char} (hc : isNameStart c = true)
    (hcs : ∀ d ∈ cs, isNameChar d = true) (hrest : ∀ d ∈ rest.head?, isNameChar d = false) :
    read c (cs ++ rest) = readWord (c :: cs ++ rest) ∧
      (c :: cs ++ rest).takeWhile isNameChar = c :: cs ∧
      (c :: cs ++ rest).dropWhile isNameChar = rest := by
  obtain ⟨hquote, hdigit⟩ := isNameStart_ne hc
  refine ⟨by simp [read, hquote, hdigit, hc], C.takeWhile_append ?_ hrest⟩
  exact all_eq_true.mpr (forall_mem_cons.mpr ⟨isNameChar_of_isNameStart hc, hcs⟩)

theorem Lexeme.heads_name {cs rest : List Char} (hc : isNameStart c = true)
    (hcs : ∀ d ∈ cs, isNameChar d = true) (hrest : ∀ d ∈ rest.head?, isNameChar d = false)
    (hname : ∀ k : Keyword, k.text ≠ String.ofList (lowerCase (c :: cs))) :
    (⟨.identifier, c :: cs, some (.text (String.ofList (lowerCase (c :: cs)))), rest⟩ :
      Lexeme).Heads (c :: cs ++ rest) := by
  obtain ⟨hread, htake, hdrop⟩ := read_word hc hcs hrest
  have hnone := Keyword.ofName?_eq_none hname
  rw [lowerCase] at hnone
  refine heads_of_read (.inl hc) (hread.trans ?_)
  simp only [readWord, htake, hdrop, hnone]
  rfl

theorem Keyword.word_of_text {word : List Char} (h : word.map Char.toLower = k.text.toList) :
    ∃ c cs, word = c :: cs ∧ isNameStart c = true ∧ ∀ d ∈ cs, isNameChar d = true := by
  have hall : ∃ c cs, k.text.toList = c :: cs ∧ isNameStart c = true ∧
      cs.all isNameChar = true := by
    cases k <;> exact ⟨_, _, rfl, rfl, rfl⟩
  obtain ⟨c', cs', htext, hc', hcs'⟩ := hall
  obtain ⟨c, cs, rfl, rfl, rfl⟩ := map_eq_cons_iff.mp (h.trans htext)
  rw [isNameStart_toLower] at hc'
  refine ⟨c, cs, rfl, hc', fun d hd => ?_⟩
  have hlower := all_eq_true.mp hcs' d.toLower (mem_map_of_mem hd)
  rwa [isNameChar_toLower_eq] at hlower

theorem Lexeme.heads_keyword {word rest : List Char} (hword : word.map Char.toLower = k.text.toList)
    (hrest : ∀ d ∈ rest.head?, isNameChar d = false) :
    (⟨.keyword k, word, none, rest⟩ : Lexeme).Heads (word ++ rest) := by
  obtain ⟨c, cs, rfl, hc, hcs⟩ := Keyword.word_of_text hword
  obtain ⟨hread, htake, hdrop⟩ := read_word hc hcs hrest
  have hname : Keyword.ofName? (String.ofList ((c :: cs).map Char.toLower)) = some k := by
    rw [hword, String.ofList_toList, Keyword.ofName?_text]
  refine heads_of_read (.inl hc) (hread.trans ?_)
  simp only [readWord, htake, hdrop, hname]

section Numbers

open Numeral

variable {letter : Char} {rest : List Char}

theorem Numeral.readFraction_append {fraction tail : List Char}
    (hfraction : ∀ c ∈ fraction, c.isDigit = true)
    (htail : ∀ c ∈ tail.head?, c.isDigit = false ∧ c ≠ '.') :
    readFraction ((if fraction.isEmpty then [] else '.' :: fraction) ++ tail) =
      (fraction, tail) := by
  cases fraction with
  | nil =>
    refine readFraction.eq_2 tail fun d rest h => ?_
    rw [h] at htail
    exact (htail '.' rfl).2 rfl
  | cons d ds =>
    obtain ⟨htake, hdrop⟩ := C.takeWhile_append (all_eq_true.mpr hfraction) fun c hc =>
      (htail c hc).1
    have hd : d.isDigit = true := hfraction d mem_cons_self
    simp only [isEmpty_cons, Bool.false_eq_true, if_false, cons_append]
    rw [cons_append] at htake hdrop
    rw [readFraction, if_pos hd, htake, hdrop]

theorem Numeral.readSign_append {sign digits rest : List Char} (hsign : sign ∈ [[], ['+'], ['-']])
    (hne : digits ≠ []) (hdigits : ∀ c ∈ digits, c.isDigit = true) :
    readSign (sign ++ (digits ++ rest)) = (sign, digits ++ rest) := by
  obtain ⟨d, ds, rfl⟩ := exists_cons_of_ne_nil hne
  have hd : d.isDigit = true := hdigits d mem_cons_self
  simp only [mem_cons, not_mem_nil, or_false] at hsign
  rcases hsign with rfl | rfl | rfl
  · refine readSign.eq_3 _ (fun rest h => ?_) (fun rest h => ?_)
    · cases h
      cases hd
    · cases h
      cases hd
  · rfl
  · rfl

theorem stopsAt_number (h : Token.Kind.real.StopsAt rest) :
    ∀ c ∈ rest.head?, (c.isDigit = false ∧ c ≠ '.') ∧ ¬ (c = 'e' ∨ c = 'E') := by
  intro c hc
  have hstop := h c hc
  simp only [Token.Kind.goesOn, Bool.or_eq_false_iff] at hstop
  refine ⟨⟨hstop.1, ?_⟩, ?_⟩
  · rintro rfl
    cases hstop.2
  · rintro (rfl | rfl) <;> cases hstop.2

variable {n : Numeral}

theorem Numeral.Formed.exists_cons (hn : n.Formed) (letter : Char) :
    ∃ c cs, n.spelling letter = c :: cs ∧ c.isDigit = true := by
  obtain ⟨c, cs, hwhole⟩ := exists_cons_of_ne_nil hn.whole_ne_nil
  refine ⟨c, _, by rw [spelling, hwhole]; rfl, hn.whole c ?_⟩
  rw [hwhole]
  exact mem_cons_self

section

variable (hn : n.Formed) (hletter : letter = 'e' ∨ letter = 'E')
  (hrest : Token.Kind.real.StopsAt rest)

include hn hletter hrest

theorem Numeral.readScale_append :
    readScale (scaled letter n.scale ++ rest) = (n.scale, rest) := by
  cases hscale : n.scale with
  | none =>
    cases rest with
    | nil => rfl
    | cons c rest => simp [scaled, readScale, (stopsAt_number hrest c rfl).2]
  | some s =>
    obtain ⟨hsign, hne, hdigits⟩ := hn.scale s.1 s.2 hscale
    obtain ⟨htake, hdrop⟩ := C.takeWhile_append (all_eq_true.mpr hdigits) fun c hc =>
      (stopsAt_number hrest c hc).1.1
    simp [scaled, readScale, hletter, readSign_append hsign hne hdigits, htake, hdrop]

theorem Numeral.read_spelling : read (n.spelling letter ++ rest) = (n, rest) := by
  have hscaled : ∀ c ∈ (scaled letter n.scale ++ rest).head?, c.isDigit = false ∧ c ≠ '.' := by
    intro c hc
    cases hscale : n.scale with
    | none =>
      rw [hscale] at hc
      exact (stopsAt_number hrest c hc).1
    | some s =>
      rw [hscale] at hc
      cases hc
      rcases hletter with rfl | rfl <;> decide
  have hpoint : ∀ c ∈ ((if n.fraction.isEmpty then [] else '.' :: n.fraction) ++
      (scaled letter n.scale ++ rest)).head?, c.isDigit = false := by
    intro c hc
    split at hc
    · exact (hscaled c hc).1
    · cases hc
      rfl
  obtain ⟨htake, hdrop⟩ := C.takeWhile_append (all_eq_true.mpr hn.whole) hpoint
  simp only [spelling, append_assoc, read, htake, hdrop,
    readFraction_append hn.fraction hscaled, readScale_append hn hletter hrest]

theorem Lexeme.heads_number {l : Lexeme}
    (h : ∀ cs, Numeral.read cs = (n, rest) → readNumber cs = l) :
    l.Heads (n.spelling letter ++ rest) := by
  have hread := Numeral.read_spelling hn hletter hrest
  obtain ⟨c, cs, hspelling, hc⟩ := hn.exists_cons letter
  rw [hspelling, cons_append] at hread ⊢
  refine heads_of_read (.inr (.inl hc)) ?_
  rw [read, if_neg (isDigit_ne_quote hc), if_pos hc, h _ hread]

theorem Lexeme.heads_real (hreal : n.isReal = true) :
    (⟨.real, n.spelling 'e', some (.real n.toReal), rest⟩ : Lexeme).Heads
      (n.spelling letter ++ rest) := by
  have hvalue : n.value? = some (.real n.toReal) := by
    rw [value?, if_pos hreal]
    split
    · next sign hscale => exact ((hn.scale sign [] hscale).2.1 rfl).elim
    · rfl
  refine heads_number hn hletter hrest fun cs hread => ?_
  simp only [readNumber, hread, hvalue, n.text_eq]

end

theorem Integer.ofInt?_toInt (w : Int64) : ofInt? w.toInt = some w := by
  rw [ofInt?, if_pos ⟨w.minValue_le_toInt, Int.le_of_lt_add_one w.toInt_lt⟩, Int64.ofInt_toInt]

theorem Lexeme.heads_integer {digits : List Char} {value : Int64} (hne : digits ≠ [])
    (hdigits : ∀ c ∈ digits, c.isDigit = true) (hvalue : value.toInt = decimalValue digits)
    (hrest : Token.Kind.real.StopsAt rest) :
    (⟨.integer, digits, some (.integer value), rest⟩ : Lexeme).Heads (digits ++ rest) := by
  have hn : Numeral.Formed ⟨digits, [], none⟩ := ⟨hne, hdigits, by simp, by simp⟩
  have hspelling : Numeral.spelling 'e' ⟨digits, [], none⟩ = digits := by simp [spelling, scaled]
  have hword : Numeral.value? ⟨digits, [], none⟩ = some (.integer value) := by
    have hof := Integer.ofInt?_toInt value
    rw [hvalue, ← Decimal.ofDigits_eq_decimalValue] at hof
    simp [value?, isReal, hof]
  have hheads := heads_number (l := ⟨.integer, digits, some (.integer value), rest⟩) hn (.inl rfl)
    hrest fun cs hread => by simp only [readNumber, hread, hword, text_eq, hspelling]
  rwa [hspelling] at hheads

end Numbers

section Quotes

variable {content rest : List Char}

@[simp] theorem doubled_cons (c : Char) (content : List Char) :
    doubled (c :: content) = (if c = quote then [quote, quote] else [c]) ++ doubled content :=
  flatMap_cons

/-- Between quotes every quote that is written twice is one again. -/
theorem Quoted.read_doubled (hcontent : '\n' ∉ content) (hrest : Token.Kind.quoted.StopsAt rest) :
    Quoted.read (doubled content ++ quote :: rest) =
      ⟨content, doubled content ++ [quote], some rest⟩ := by
  induction content with
  | nil =>
    cases rest with
    | nil => rfl
    | cons c rest =>
      have hc : c ≠ quote := ne_of_beq_false (hrest c rfl)
      have hquote : quote ≠ '\n' := by decide
      simp [doubled, Quoted.read, hc, hquote]
  | cons c content ih =>
    have hc := ne_of_not_mem_cons hcontent
    have hread := ih (not_mem_of_not_mem_cons hcontent)
    by_cases hquote : c = quote
    · subst hquote
      simp [Quoted.read, hread, Ne.symm hc]
    · have hne : ∀ cs, Quoted.read (c :: cs) =
          ⟨c :: (Quoted.read cs).value, c :: (Quoted.read cs).text, (Quoted.read cs).rest?⟩ := by
        intro cs
        rw [Quoted.read.eq_def]
        simp [Ne.symm hc, hquote]
      simp [hquote, hne, hread]

theorem Lexeme.heads_quoted (hcontent : '\n' ∉ content) (hrest : Token.Kind.quoted.StopsAt rest) :
    (⟨.quoted, quoted content, some (.text (String.ofList content)), rest⟩ : Lexeme).Heads
      (quoted content ++ rest) := by
  have hread := Quoted.read_doubled hcontent hrest
  have htext : quoted content ++ rest = quote :: (doubled content ++ quote :: rest) := by
    simp [quoted]
  rw [htext]
  refine heads_of_read (.inr (.inr rfl)) ?_
  rw [read, if_pos rfl]
  simp only [readQuoted, hread]
  rfl

end Quotes

section Marks

variable {m : Mark} {rest : List Char}

theorem Mark.ne_of_stopsAt (h : (Token.Kind.mark m).StopsAt rest) {c : Char}
    (hc : ['=', '>', '.', '*', '/'].contains c = true) : rest.head? ≠ some c := by
  intro hhead
  have hstop : ['=', '>', '.', '*', '/'].contains c = false := h c hhead
  cases hc.symm.trans hstop

theorem Mark.read?_text (h : (Token.Kind.mark m).StopsAt rest) :
    ∃ c cs, m.text.toList = c :: cs ∧ read? c (cs ++ rest) = some (m, rest) ∧
      Text.isBlank c = false ∧ c ≠ '\x7b' ∧ c ≠ quote ∧ c.isDigit = false ∧
      isNameStart c = false ∧ (c = '(' ∨ c = '/' → cs = []) := by
  have hne : ∀ {c}, ['=', '>', '.', '*', '/'].contains c = true → ∀ cs, rest ≠ c :: cs := by
    rintro c hc cs rfl
    exact ne_of_stopsAt h hc rfl
  cases m with
  | less => exact ⟨_, _, rfl, read?.eq_14 _ (hne rfl) (hne rfl), by decide⟩
  | greater => exact ⟨_, _, rfl, read?.eq_16 _ (hne rfl), by decide⟩
  | colon => exact ⟨_, _, rfl, read?.eq_18 _ (hne rfl), by decide⟩
  | dot => exact ⟨_, _, rfl, read?.eq_20 _ (hne rfl), by decide⟩
  | _ => exact ⟨_, _, rfl, rfl, by decide⟩

theorem Lexeme.heads_mark (h : (Token.Kind.mark m).StopsAt rest) :
    (⟨.mark m, m.text.toList, none, rest⟩ : Lexeme).Heads (m.text.toList ++ rest) := by
  obtain ⟨c, cs, htext, hread, hblank, hbrace, hquote, hdigit, hname, hopens⟩ := Mark.read?_text h
  refine ⟨c, cs ++ rest, by rw [htext]; rfl, ?_, fun p => ?_⟩
  · simp [read, hquote, hdigit, hname, hread]
  · rw [htext]
    refine Gap.skip_token hblank hbrace (fun hc => ?_) (fun hc => ?_) p
    · rw [hopens (.inl hc)]
      exact Mark.ne_of_stopsAt h rfl
    · rw [hopens (.inr hc)]
      exact Mark.ne_of_stopsAt h rfl

end Marks

/-- A spelling is read as its token, with what the token stands for. -/
theorem Spells.heads {kind : Token.Kind} {text : String} {payload : Option Token.Payload}
    {spelling rest : List Char} (h : Spells kind text payload spelling)
    (hrest : kind.StopsAt rest) :
    (⟨kind, text.toList, payload, rest⟩ : Lexeme).Heads (spelling ++ rest) := by
  cases h with
  | keyword hword =>
    rw [String.toList_ofList]
    exact Lexeme.heads_keyword hword hrest
  | mark => exact Lexeme.heads_mark hrest
  | identifier hc hcs hname hkeyword =>
    subst hname
    rw [String.toList_ofList]
    exact Lexeme.heads_name hc hcs hrest hkeyword
  | integer hne hdigits _ hvalue =>
    rw [String.toList_ofList]
    exact Lexeme.heads_integer hne hdigits hvalue hrest
  | real hn hreal hletter =>
    rw [String.toList_ofList]
    exact Lexeme.heads_real hn hletter hrest hreal
  | quoted hcontent =>
    rw [String.toList_ofList]
    exact Lexeme.heads_quoted hcontent hrest

end Lexemes

section Scanning

theorem scanFrom_of_heads {l : Lexeme} {text : List Char} (h : l.Heads text)
    (hvalid : l.kind ≠ .invalid) (p : Position) : scanFrom p text =
      ⟨l.kind, String.ofList l.text, p, l.payload⟩ :: scanFrom (p.right l.text.length) l.rest := by
  obtain ⟨c, cs, rfl, rfl, hskip⟩ := h
  rw [scanFrom_eq, hskip, Gap.Ending.tokens]
  exact if_neg hvalid

variable {payload : Option Token.Payload} {text : String}

theorem Spells.kind_ne_invalid {kind : Token.Kind} {spelling : List Char}
    (h : Spells kind text payload spelling) : kind ≠ .invalid := by
  rintro rfl
  cases h

theorem Spells.of_text {kind : Token.Kind} {spelling : List Char}
    (h : Spells kind text payload spelling) : Spells kind text payload text.toList := by
  cases h with
  | keyword hword =>
    rw [String.toList_ofList]
    exact .keyword hword
  | mark => exact .mark
  | identifier hc hcs hname hkeyword =>
    rw [String.toList_ofList]
    exact .identifier hc hcs hname hkeyword
  | integer hne hdigits hlt hvalue =>
    rw [String.toList_ofList]
    exact .integer hne hdigits hlt hvalue
  | real hn hreal _ =>
    rw [String.toList_ofList]
    exact .real hn hreal (.inl rfl)
  | quoted hcontent =>
    rw [String.toList_ofList]
    exact .quoted hcontent

theorem scanFrom_spelling {kind : Token.Kind} {rest : List Char}
    (h : Spells kind text payload text.toList) (hrest : kind.StopsAt rest) (p : Position) :
    scanFrom p (text.toList ++ rest) =
      ⟨kind, text, p, payload⟩ :: scanFrom (p.right text.toList.length) rest := by
  rw [scanFrom_of_heads (h.heads hrest) h.kind_ne_invalid]
  simp

theorem scanFrom_spelled (p : Position) (cs : List Char) :
    ∀ t ∈ scanFrom p cs, t.kind.isLast = false → Spells t.kind t.text t.payload t.text.toList := by
  fun_induction scanFrom p cs with
  | case1 | case2 => simp [Token.Kind.isLast]
  | case3 p cs q c rest hgap l t hinvalid => simp [t, hinvalid, Token.Kind.isLast]
  | case4 p cs q c rest hgap l t hvalid ih =>
    refine forall_mem_cons.mpr ⟨fun _ => ?_, ih⟩
    obtain ⟨spelling, -, hspells, -⟩ := Lexeme.read_takes hvalid
    exact hspells.of_text

end Scanning

section Literals

theorem quotedValue_ofList (p : Position) (s : List Char) :
    (∃ c, s = [c] ∧ c.toNat < 128 ∧ Parse.quotedValue p (String.ofList s) = .char p c) ∨
      (¬ ∃ c, s = [c] ∧ c.toNat < 128) ∧
        Parse.quotedValue p (String.ofList s) = .string p (String.ofList s) := by
  unfold Parse.quotedValue
  rw [String.toList_ofList]
  split
  · next c =>
    by_cases hc : c.toNat < 128
    · exact .inl ⟨c, rfl, hc, if_pos hc⟩
    · refine .inr ⟨?_, if_neg hc⟩
      rintro ⟨d, ⟨⟩, hd⟩
      exact hc hd
  · next hs => exact .inr ⟨fun ⟨c, hc, _⟩ => hs c hc, rfl⟩

/-- A text without a line feed, written between quotes with its own quotes doubled, is read back:
the token has the text as its value and what was written as its spelling, the scanner goes on right
behind it, and the literal is a character just if the text is one character of ASCII. -/
theorem quoted_decoded {s rest : List Char} (hs : '\n' ∉ s) (hrest : rest.head? ≠ some quote)
    (p : Position) :
    let t : Token := ⟨.quoted, String.ofList (quoted s), p, some (.text (String.ofList s))⟩
    scanFrom p (quoted s ++ rest) = t :: scanFrom (p.right (quoted s).length) rest ∧
      ∀ ts last, ∃ e, Parse.quoted ⟨t :: ts, last⟩ = .ok e ⟨ts, last⟩ ∧
        ((∃ q c, e = .char q c) ↔ ∃ c, s = [c] ∧ c.toNat < 128) ∧
        (e = .string p (String.ofList s) ∨ ∃ c, s = [c] ∧ e = .char p c) := by
  intro t
  have hstops : Token.Kind.quoted.StopsAt rest := by
    intro c hc
    refine beq_false_of_ne ?_
    rintro rfl
    exact hrest hc
  refine ⟨?_, fun ts last => ⟨Parse.quotedValue p (String.ofList s), rfl, ?_⟩⟩
  · exact scanFrom_of_heads (Lexeme.heads_quoted hs hstops) Token.Kind.noConfusion p
  · rcases quotedValue_ofList p s with ⟨c, hc, hascii, hvalue⟩ | ⟨hother, hvalue⟩
    · rw [hvalue]
      exact ⟨⟨fun _ => ⟨c, hc, hascii⟩, fun _ => ⟨p, c, rfl⟩⟩, .inr ⟨c, hc, rfl⟩⟩
    · rw [hvalue]
      refine ⟨⟨?_, fun hc => absurd hc hother⟩, .inl rfl⟩
      rintro ⟨q, c, ⟨⟩⟩

/-- A single quote, which is written as four of them. -/
theorem four_quotes_decoded :
    '\n' ∉ [quote] ∧ [';'].head? ≠ some quote ∧
      scanFrom .start [quote, quote, quote, quote, ';'] =
        ⟨.quoted, "''''", .start, some (.text "'")⟩ :: scanFrom ⟨1, 5⟩ [';'] ∧
      ∀ ts last, ∃ e, Parse.quoted
          ⟨⟨.quoted, "''''", .start, some (.text "'")⟩ :: ts, last⟩ = .ok e ⟨ts, last⟩ ∧
        ∃ q c, e = .char q c := by
  have hs : '\n' ∉ [quote] := by decide
  have hrest : [';'].head? ≠ some quote := by decide
  obtain ⟨hscan, hread⟩ := quoted_decoded hs hrest .start
  refine ⟨hs, hrest, hscan, fun ts last => ?_⟩
  obtain ⟨e, hok, hchar, -⟩ := hread ts last
  exact ⟨e, hok, hchar.mpr ⟨quote, rfl, by decide⟩⟩

end Literals

section Separators

/-- White space, and whatever else of a gap behind it. -/
def IsSeparator (gap : List Char) : Prop :=
  ∃ c rest, gap = c :: rest ∧ Text.isBlank c = true ∧ IsGap false rest

/-- Texts with a separator behind each. -/
inductive Respaced : List String → List Char → Prop
  | nil : Respaced [] []
  | cons {t : String} {ts : List String} {gap text : List Char} : IsSeparator gap →
      Respaced ts text → Respaced (t :: ts) (t.toList ++ gap ++ text)

theorem Token.Kind.lt_of_goesOn {kind : Token.Kind} {c : Char} (h : kind.goesOn c = true) :
    c.toNat < 128 := by
  cases kind with
  | keyword | identifier => exact lt_of_isNameChar h
  | integer | real =>
    rcases Bool.or_eq_true_iff.mp h with h | h
    · exact Nat.lt_of_le_of_lt (Char.isDigit_iff_toNat.mp h).2 (by decide)
    · simp only [contains_cons, contains_nil, Bool.or_eq_true, beq_iff_eq] at h
      rcases h with rfl | rfl | rfl | h <;> first | decide | cases h
  | quoted =>
    rw [beq_iff_eq.mp h]
    decide
  | mark =>
    simp only [goesOn, contains_cons, contains_nil, Bool.or_eq_true, beq_iff_eq] at h
    rcases h with rfl | rfl | rfl | rfl | rfl | h <;> first | decide | cases h
  | invalid | endOfText => cases h

theorem goesOn_of_isBlank {c : Char} (h : Text.isBlank c = true) (kind : Token.Kind) :
    kind.goesOn c = false := by
  rw [Bool.eq_false_iff]
  intro hc
  have hmem := forall_ascii (P := fun c => Text.isBlank c = true →
    c ∈ ['\t', '\n', '\x0b', '\x0c', '\r', ' ']) (by decide +kernel) (Token.Kind.lt_of_goesOn hc) h
  simp only [mem_cons, not_mem_nil, or_false] at hmem
  rcases hmem with rfl | rfl | rfl | rfl | rfl | rfl <;> cases kind <;> cases hc

variable {text gap : List Char}

theorem IsSeparator.stopsAt (h : IsSeparator gap) (kind : Token.Kind) (rest : List Char) :
    kind.StopsAt (gap ++ rest) := by
  obtain ⟨c, gap, rfl, hc, -⟩ := h
  rintro _ ⟨⟩
  exact goesOn_of_isBlank hc kind

theorem IsSeparator.isGap (h : IsSeparator gap) : IsGap false gap := by
  obtain ⟨c, gap, rfl, hc, hgap⟩ := h
  exact .blank hc hgap

def Token.content (t : Token) : Token.Kind × String × Option Token.Payload :=
  (t.kind, t.text, t.payload)

theorem scanFrom_respaced {ts : List Token}
    (hspelled : ∀ t ∈ ts, Spells t.kind t.text t.payload t.text.toList)
    (h : Respaced (ts.map Token.text) text) (p : Position) (rest : List Char) :
    ∃ us q, scanFrom p (text ++ rest) = us ++ scanFrom q rest ∧
      us.map Token.content = ts.map Token.content := by
  induction ts generalizing text p with
  | nil =>
    cases h
    exact ⟨[], p, rfl, rfl⟩
  | cons t ts ih =>
    cases h with
    | @cons _ _ gap text hgap htext =>
    obtain ⟨ht, hts⟩ := forall_mem_cons.mp hspelled
    obtain ⟨us, q, hscan, hcontent⟩ :=
      ih hts htext ((p.right t.text.toList.length).after gap)
    refine ⟨⟨t.kind, t.text, p, t.payload⟩ :: us, q, ?_, ?_⟩
    · rw [append_assoc, append_assoc, scanFrom_spelling ht (hgap.stopsAt _ _),
        scanFrom_gap hgap.isGap, hscan]
      rfl
    · rw [map_cons, map_cons, hcontent]
      rfl

theorem Respaced.concat {ts : List String} (h : Respaced (ts ++ [""]) text) :
    ∃ text' gap, text = text' ++ gap ∧ Respaced ts text' ∧ IsSeparator gap := by
  induction ts generalizing text with
  | nil =>
    cases h with
    | @cons _ _ gap _ hgap hnil =>
    cases hnil
    exact ⟨[], gap, by simp, .nil, hgap⟩
  | cons t ts ih =>
    cases h with
    | cons hgap htext =>
    obtain ⟨text', gap', rfl, htext, hgap'⟩ := ih htext
    exact ⟨_, gap', by simp, .cons hgap htext, hgap'⟩

/-- The texts of the tokens of a source, with separators between them, are read as the same tokens
with the same values. -/
theorem scan_respaced {source : String} (hvalid : ∀ t ∈ scan source, t.kind ≠ .invalid)
    {text : List Char} (h : Respaced ((scan source).map Token.text) text ∨
      Respaced ((scan source).dropLast.map Token.text) text) :
    (scan (String.ofList text)).map Token.content = (scan source).map Token.content := by
  obtain ⟨pieces, lastGap, hlaid, hscan⟩ := scanFrom_laid _ _ [] Position.behind_nil.symm hvalid
  have hspelled : ∀ t ∈ pieces.map Piece.token, Spells t.kind t.text t.payload t.text.toList := by
    intro t ht
    obtain ⟨piece, hpiece, rfl⟩ := List.mem_map.mp ht
    exact (hlaid.spelled piece hpiece).of_text
  rw [scan, hscan, List.dropLast_concat, List.map_append] at h
  -- What stands behind the last text but that of the end is a gap or nothing.
  have hsplit : ∃ text' gap, text = text' ++ gap ∧
      Respaced ((pieces.map Piece.token).map Token.text) text' ∧ IsGap false gap := by
    rcases h with h | h
    · obtain ⟨text', gap, htext, hrespaced, hgap⟩ := h.concat
      exact ⟨text', gap, htext, hrespaced, hgap.isGap⟩
    · exact ⟨text, [], by simp, h, .nil⟩
  obtain ⟨text, gap, rfl, hrespaced, hgap⟩ := hsplit
  obtain ⟨us, q, hagain, hcontent⟩ := scanFrom_respaced hspelled hrespaced .start gap
  rw [scan, scan, hscan, String.toList_ofList, hagain, scanFrom_lastGap hgap, List.map_append,
    List.map_append, hcontent]
  rfl

/-- An exponent letter, quotes in a text, and a separator of each form. -/
theorem dense_text_respaced :
    (∀ t ∈ scan "x:=1.5E+3..'it''s'", t.kind ≠ .invalid) ∧
      (scan "x\t:= 1.5e+3 \x7bc\x7d.. //d\n'it''s' (*e*)").map Token.content =
        (scan "x:=1.5E+3..'it''s'").map Token.content := by
  have hvalid : ∀ t ∈ scan "x:=1.5E+3..'it''s'", t.kind ≠ .invalid := by decide +kernel
  have htexts : (scan "x:=1.5E+3..'it''s'").dropLast.map Token.text =
      ["x", ":=", "1.5e+3", "..", "'it''s'"] := by decide +kernel
  have hrespaced := Respaced.cons (t := "x") ⟨'\t', [], rfl, by decide, .nil⟩ <|
    .cons (t := ":=") ⟨' ', [], rfl, by decide, .nil⟩ <|
    .cons (t := "1.5e+3") ⟨' ', _, rfl, by decide, @IsGap.braces _ ['c'] _ (by decide) .nil⟩ <|
    .cons (t := "..") ⟨' ', _, rfl, by decide, @IsGap.line _ ['d'] _ (by decide) .nil⟩ <|
    .cons (t := "'it''s'") ⟨' ', _, rfl, by decide, @IsGap.stars _ ['e'] _ (by decide) .nil⟩ .nil
  rw [← htexts] at hrespaced
  exact ⟨hvalid, scan_respaced hvalid (.inr hrespaced)⟩

end Separators

end MiniPascal
