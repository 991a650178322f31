import Mathlib.Tactic.MkIffOfInductiveProp
import MiniPascal.Proofs.LayoutIndependence
import MiniPascal.Proofs.SpelledNames

/-!
# The case of letters does not matter

A source without quotes is compiled as the source in lower case is.
-/

namespace MiniPascal

open List

section Characters

/-- A fact about the case of characters has to be looked at for the capitals only. -/
theorem forall_cased {P : Char → Prop} (hcapital : ∀ n < 26, P (Char.ofNat ('A'.toNat + n)))
    (hother : ∀ c : Char, c.toLower = c → P c) (c : Char) : P c := by
  by_cases hc : c.val ≥ 'A'.val ∧ c.val ≤ 'Z'.val
  · have hfrom : 'A'.toNat ≤ c.toNat := UInt32.le_iff_toNat_le.mp hc.1
    have hto : c.toNat ≤ 'A'.toNat + 25 := UInt32.le_iff_toNat_le.mp hc.2
    have hnth := hcapital (c.toNat - 'A'.toNat) (by omega)
    rwa [Nat.add_sub_cancel' hfrom, Char.ofNat_toNat] at hnth
  · exact hother c (dif_neg hc)

/-- Nothing that the scanner asks about a character depends on its case. -/
@[mk_iff]
structure CaseBlind (c : Char) : Prop where
  twice : c.toLower.toLower = c.toLower
  blank : Text.isBlank c.toLower = Text.isBlank c
  digit : c.toLower.isDigit = c.isDigit
  alpha : c.toLower.isAlpha = c.isAlpha
  nameStart : isNameStart c.toLower = isNameStart c
  nameChar : isNameChar c.toLower = isNameChar c
  other : c.isAlpha = false → c.toLower = c
  scale : (c.toLower = 'e' ∨ c.toLower = 'E') ↔ (c = 'e' ∨ c = 'E')

instance (c : Char) : Decidable (CaseBlind c) := decidable_of_iff _ (caseBlind_iff c).symm

theorem caseBlind : ∀ c : Char, CaseBlind c :=
  forall_cased (by decide +kernel) fun c h => by constructor <;> simp only [h, implies_true]

@[simp] theorem toLower_toLower (c : Char) : c.toLower.toLower = c.toLower := (caseBlind c).twice

@[simp] theorem isBlank_toLower (c : Char) : Text.isBlank c.toLower = Text.isBlank c :=
  (caseBlind c).blank

@[simp] theorem isDigit_toLower (c : Char) : c.toLower.isDigit = c.isDigit := (caseBlind c).digit

@[simp] theorem isNameStart_toLower (c : Char) : isNameStart c.toLower = isNameStart c :=
  (caseBlind c).nameStart

@[simp] theorem isNameChar_toLower_eq (c : Char) : isNameChar c.toLower = isNameChar c :=
  (caseBlind c).nameChar

theorem toLower_eq_iff {c d : Char} (hd : d.isAlpha = false) : c.toLower = d ↔ c = d := by
  constructor
  · rintro rfl
    rw [(caseBlind c).alpha] at hd
    exact ((caseBlind c).other hd).symm
  · rintro rfl
    exact (caseBlind c).other hd

theorem toLower_of_isDigit {c : Char} (h : c.isDigit = true) : c.toLower = c := by
  refine dif_neg fun hcapital => ?_
  have hle : 'A'.toNat ≤ c.toNat := UInt32.le_iff_toNat_le.mp hcapital.1
  exact absurd (Nat.le_trans hle (Char.isDigit_iff_toNat.mp h).2) (by decide)

end Characters

def lowerCase (cs : List Char) : List Char := cs.map Char.toLower

@[simp] theorem lowerCase_nil : lowerCase [] = [] := rfl

@[simp] theorem lowerCase_cons (c : Char) (cs : List Char) :
    lowerCase (c :: cs) = c.toLower :: lowerCase cs := rfl

@[simp] theorem lowerCase_lowerCase (cs : List Char) : lowerCase (lowerCase cs) = lowerCase cs := by
  simp [lowerCase, Function.comp_def]

theorem lowerCase_append (cs ds : List Char) :
    lowerCase (cs ++ ds) = lowerCase cs ++ lowerCase ds := map_append

@[simp] theorem length_lowerCase (cs : List Char) : (lowerCase cs).length = cs.length :=
  length_map _

theorem lowerCase_ne_cons {c : Char} {cs : List Char} (hc : c.isAlpha = false)
    (h : ∀ rest, cs ≠ c :: rest) (rest : List Char) : lowerCase cs ≠ c :: rest := by
  intro heq
  obtain ⟨d, ds, rfl, hd, -⟩ := map_eq_cons_iff.mp heq
  exact h ds (by rw [(toLower_eq_iff hc).mp hd])

section Gaps

theorem Position.next_toLower (p : Position) (c : Char) : p.next c.toLower = p.next c := by
  simp only [next, toLower_eq_iff (d := '\n') rfl]

/-- The same ending of a gap, with the text behind it in lower case. -/
def Gap.Ending.lowered : Gap.Ending → Gap.Ending
  | .reached place rest => .reached place (lowerCase rest)
  | .unclosed opened => .unclosed opened

namespace Gap

theorem skip_blank {c : Char} (h : Text.isBlank c = true) (p : Position) (cs : List Char) :
    skip .between p (c :: cs) = skip .between (p.next c) cs := by
  cases cs <;> simp [skip, h]

theorem skip_brace (p : Position) (cs : List Char) :
    skip .between p ('\x7b' :: cs) = skip (.braces p) (p.next '\x7b') cs := by
  cases cs <;> rfl

theorem skip_lowerCase (m : Mode) (p : Position) (cs : List Char) :
    skip m p (lowerCase cs) = (skip m p cs).lowered := by
  fun_induction skip m p cs with
  | case2 p c cs hblank ih =>
    rw [lowerCase_cons, skip_blank ((isBlank_toLower c).trans hblank), Position.next_toLower, ih]
  | case3 p cs hblank ih => exact (skip_brace p (lowerCase cs)).trans ih
  | case6 p c hblank hbrace d ds hstars hline =>
    simp [skip, Ending.lowered, toLower_eq_iff, hblank, hbrace, hstars, hline]
  | _ => simp_all [skip, Ending.lowered, Position.next_toLower, toLower_eq_iff]

end Gap

end Gaps

section Lexemes

theorem takeWhile_lowerCase {p : Char → Bool} (hp : ∀ c : Char, p c.toLower = p c)
    (cs : List Char) : (lowerCase cs).takeWhile p = lowerCase (cs.takeWhile p) ∧
      (lowerCase cs).dropWhile p = lowerCase (cs.dropWhile p) := by
  have hcomp : p ∘ Char.toLower = p := funext hp
  simp only [lowerCase, takeWhile_map, dropWhile_map, hcomp, and_self]

theorem lowerCase_of_isDigit {cs : List Char} (h : ∀ c ∈ cs, c.isDigit = true) :
    lowerCase cs = cs :=
  (map_congr_left fun c hc => toLower_of_isDigit (h c hc)).trans (map_id cs)

namespace Numeral

variable (cs : List Char)

theorem digits_lowerCase :
    (lowerCase cs).takeWhile Char.isDigit = cs.takeWhile Char.isDigit ∧
      (lowerCase cs).dropWhile Char.isDigit = lowerCase (cs.dropWhile Char.isDigit) := by
  obtain ⟨htake, hdrop⟩ := takeWhile_lowerCase isDigit_toLower cs
  refine ⟨htake.trans (lowerCase_of_isDigit fun c hc => ?_), hdrop⟩
  exact mem_takeWhile_imp hc

theorem readFraction_lowerCase :
    readFraction (lowerCase cs) = ((readFraction cs).1, lowerCase (readFraction cs).2) := by
  fun_cases readFraction cs with
  | case1 d rest hd =>
    have hdigits := digits_lowerCase (d :: rest)
    rw [lowerCase_cons] at hdigits
    simp [readFraction, hd, hdigits]
  | case2 d rest hd => simp [readFraction, hd]
  | case3 cs hcs =>
    refine readFraction.eq_2 _ fun d rest h => ?_
    obtain ⟨c, cs, rfl, hc, hrest⟩ := map_eq_cons_iff.mp h
    obtain ⟨d, rest, rfl, -, -⟩ := map_eq_cons_iff.mp hrest
    exact hcs d rest (by rw [(toLower_eq_iff rfl).mp hc])

theorem readSign_lowerCase :
    readSign (lowerCase cs) = ((readSign cs).1, lowerCase (readSign cs).2) := by
  fun_cases readSign cs with
  | case1 rest => rfl
  | case2 rest => rfl
  | case3 cs hplus hminus =>
    exact readSign.eq_3 _ (lowerCase_ne_cons rfl hplus) (lowerCase_ne_cons rfl hminus)

theorem readScale_lowerCase :
    readScale (lowerCase cs) = ((readScale cs).1, lowerCase (readScale cs).2) := by
  cases cs with
  | nil => rfl
  | cons c rest =>
    by_cases hc : c = 'e' ∨ c = 'E'
    · have hc' := (caseBlind c).scale.mpr hc
      obtain ⟨htake, hdrop⟩ := digits_lowerCase (readSign rest).2
      simp [readScale, hc, hc', readSign_lowerCase, htake, hdrop]
    · have hc' := mt (caseBlind c).scale.mp hc
      simp [readScale, hc, hc']

theorem read_lowerCase (cs : List Char) :
    read (lowerCase cs) = ((read cs).1, lowerCase (read cs).2) := by
  obtain ⟨htake, hdrop⟩ := digits_lowerCase cs
  simp [read, htake, hdrop, readFraction_lowerCase, readScale_lowerCase]

theorem lowerCase_text (cs : List Char) : lowerCase (read cs).1.text = (read cs).1.text := by
  have hwhole : lowerCase (read cs).1.whole = (read cs).1.whole :=
    lowerCase_of_isDigit fun c hc => mem_takeWhile_imp hc
  have hfraction : lowerCase (read cs).1.fraction = (read cs).1.fraction :=
    lowerCase_of_isDigit (readFraction_eq (cs.dropWhile Char.isDigit)).2
  obtain ⟨-, -, -, hparts⟩ := readScale_eq (readFraction (cs.dropWhile Char.isDigit)).2
  have hscale : lowerCase (scaled 'e' (read cs).1.scale) = scaled 'e' (read cs).1.scale := by
    cases h : (read cs).1.scale with
    | none => rfl
    | some s =>
      obtain ⟨hsign, hdigits⟩ := hparts s.1 s.2 h
      have hsign : lowerCase s.1 = s.1 := by
        simp only [mem_cons, not_mem_nil, or_false] at hsign
        rcases hsign with h | h | h <;> rw [h] <;> rfl
      simp [scaled, lowerCase_append, hsign, lowerCase_of_isDigit hdigits]
  rw [text_eq, spelling, lowerCase_append, lowerCase_append, hwhole, hscale]
  congr 2
  split
  · rfl
  · simp [hfraction]

end Numeral

theorem Mark.read?_of_isAlpha {c : Char} (h : c.isAlpha = true) (cs : List Char) :
    read? c cs = none := by
  fun_cases read? c cs with
  | case21 => rfl
  | _ => exact absurd h (by decide)

theorem Mark.read?_lowerCase (c : Char) (cs : List Char) :
    read? c.toLower (lowerCase cs) = (read? c cs).map fun r => (r.1, lowerCase r.2) := by
  cases hc : c.isAlpha with
  | true => rw [read?_of_isAlpha hc, read?_of_isAlpha ((caseBlind c).alpha.trans hc), Option.map_none]
  | false =>
    rw [(caseBlind c).other hc]
    fun_cases read? c cs with
    | case14 cs hequal hgreater =>
      exact read?.eq_14 _ (lowerCase_ne_cons rfl hequal) (lowerCase_ne_cons rfl hgreater)
    | case16 cs hequal => exact read?.eq_16 _ (lowerCase_ne_cons rfl hequal)
    | case18 cs hequal => exact read?.eq_18 _ (lowerCase_ne_cons rfl hequal)
    | case20 cs hdot => exact read?.eq_20 _ (lowerCase_ne_cons rfl hdot)
    | case21 => apply read?.eq_21 <;> (intros; contradiction)
    | _ => rfl

namespace Lexeme

def lowered (l : Lexeme) : Lexeme :=
  ⟨l.kind, lowerCase l.text, l.payload, lowerCase l.rest⟩

theorem readNumber_lowerCase (cs : List Char) :
    readNumber (lowerCase cs) = (readNumber cs).lowered := by
  have htext := Numeral.lowerCase_text cs
  simp only [readNumber, Numeral.read_lowerCase]
  split <;> simp [lowered, invalid, htext]

theorem readWord_lowerCase (cs : List Char) : readWord (lowerCase cs) = (readWord cs).lowered := by
  obtain ⟨htake, hdrop⟩ := takeWhile_lowerCase isNameChar_toLower_eq cs
  have hname := lowerCase_lowerCase (cs.takeWhile isNameChar)
  simp only [readWord, htake, hdrop]
  unfold lowerCase at hname ⊢
  rw [hname]
  split <;> simp [lowered, lowerCase]

theorem read_lowerCase {c : Char} (hc : c ≠ quote) (cs : List Char) :
    read c.toLower (lowerCase cs) = (read c cs).lowered := by
  have hquote : c.toLower ≠ quote := mt (toLower_eq_iff rfl).mp hc
  simp only [read, if_neg hc, if_neg hquote, isDigit_toLower, isNameStart_toLower,
    Mark.read?_lowerCase, ← lowerCase_cons, readNumber_lowerCase, readWord_lowerCase]
  split
  · rfl
  split
  · rfl
  cases h : Mark.read? c cs with
  | none => rfl
  | some r =>
    have htext : lowerCase r.1.text.toList = r.1.text.toList := by cases r.1 <;> rfl
    exact congrArg (fun text => Lexeme.mk (.mark r.1) text none (lowerCase r.2)) htext.symm

end Lexeme

end Lexemes

section Scanning

def Gap.Ending.tokens : Gap.Ending → List Token
  | .unclosed opened => [⟨.invalid, "", opened, some (.fault .unterminatedComment)⟩]
  | .reached q [] => [⟨.endOfText, "", q, none⟩]
  | .reached q (c :: rest) =>
    let l := Lexeme.read c rest
    let t : Token := ⟨l.kind, String.ofList l.text, q, l.payload⟩
    if l.kind = .invalid then [t] else t :: scanFrom (q.right l.text.length) l.rest

theorem scanFrom_eq (p : Position) (cs : List Char) :
    scanFrom p cs = (Gap.skip .between p cs).tokens := by
  rw [scanFrom]
  split <;> simp_all [Gap.Ending.tokens]

theorem Gap.mem_of_mem_rest {m : Mode} {p q : Position} {cs rest : List Char}
    (h : skip m p cs = .reached q rest) {c : Char} (hc : c ∈ rest) : c ∈ cs := by
  fun_induction skip m p cs <;> grind

theorem Gap.head_ne {m : Mode} {p q : Position} {c d : Char} {cs rest : List Char}
    (h : skip m p cs = .reached q (c :: rest)) (hd : d ∉ cs) : c ≠ d :=
  ne_of_mem_of_not_mem (mem_of_mem_rest h mem_cons_self) hd

def Token.lowered (t : Token) : Token := { t with text := t.text.toLower }

theorem toList_toLower (s : String) : s.toLower.toList = lowerCase s.toList := String.toList_map

theorem ofList_lowerCase (cs : List Char) :
    String.ofList (lowerCase cs) = (String.ofList cs).toLower := by
  apply String.toList_injective
  rw [toList_toLower, String.toList_ofList, String.toList_ofList]

theorem lowerCase_empty : "".toLower = "" := (ofList_lowerCase []).symm

theorem scanFrom_lowerCase (p : Position) (cs : List Char) (h : quote ∉ cs) :
    scanFrom p (lowerCase cs) = (scanFrom p cs).map Token.lowered := by
  fun_induction scanFrom p cs with
  | case1 p cs opened hgap =>
    rw [scanFrom_eq, Gap.skip_lowerCase, hgap]
    simp [Gap.Ending.lowered, Gap.Ending.tokens, Token.lowered, lowerCase_empty]
  | case2 p cs q hgap =>
    rw [scanFrom_eq, Gap.skip_lowerCase, hgap]
    simp [Gap.Ending.lowered, Gap.Ending.tokens, Token.lowered, lowerCase_empty]
  | case3 p cs q c rest hgap l t hinvalid =>
    have hc : c ≠ quote := Gap.head_ne hgap h
    rw [scanFrom_eq, Gap.skip_lowerCase, hgap]
    simp only [Gap.Ending.lowered, Gap.Ending.tokens, lowerCase_cons, Lexeme.read_lowerCase hc,
      Lexeme.lowered, ofList_lowerCase]
    rw [if_pos hinvalid]
    rfl
  | case4 p cs q c rest hgap l t hvalid ih =>
    have hc : c ≠ quote := Gap.head_ne hgap h
    have hrest : quote ∉ l.rest := by
      obtain ⟨spelling, htext, -⟩ := Lexeme.read_takes hvalid
      intro hmem
      apply h
      apply Gap.mem_of_mem_rest hgap
      rw [htext]
      exact mem_append_right spelling hmem
    rw [scanFrom_eq, Gap.skip_lowerCase, hgap]
    simp only [Gap.Ending.lowered, Gap.Ending.tokens, lowerCase_cons, Lexeme.read_lowerCase hc,
      Lexeme.lowered, ofList_lowerCase, length_lowerCase]
    rw [if_neg hvalid, ih hrest]
    rfl

theorem scan_toLower {source : String} (h : quote ∉ source.toList) :
    scan source.toLower = (scan source).map Token.lowered := by
  unfold scan
  rw [toList_toLower, scanFrom_lowerCase _ _ h]

end Scanning

section Compiling

theorem scan_last (source : String) : ∃ t ∈ scan source, t.kind.isLast = true := by
  obtain ⟨ts, last, hscan, hend, -⟩ := scan_ended source
  rw [hscan]
  exact ⟨last, mem_append_right ts (mem_singleton_self last), hend⟩

/-- Not only C programs are the same, but failures too, up to their texts. -/
theorem compile_toLower {source : String} (h : quote ∉ source.toList) (level : Nat) :
    (compile source.toLower level).mapError CompileError.outline =
      (compile source level).mapError CompileError.outline := by
  have hid : KeepsOrder id := fun _ _ hbefore => hbefore
  rw [compile_eq_compileTokens, compile_eq_compileTokens]
  refine compileTokens_moved hid ?_ (scan_last _) level
  rw [scan_toLower h, forall₂_map_left_iff, forall₂_same]
  intro t ht
  exact ⟨rfl, rfl, rfl, scan_carries source t ht⟩

theorem mapError_outline_eq_ok {x : Except CompileError String} {c : String} :
    x.mapError CompileError.outline = .ok c ↔ x = .ok c := by
  cases x <;> simp [Except.mapError]

/-- A source without quotes and the same source in lower case have tokens of the same kinds with the
same values at the same places, since these differ in the case of their texts only. So both are
compiled to the same C program, or neither is. -/
theorem case_insensitive {source : String} (h : quote ∉ source.toList) :
    scan source.toLower = (scan source).map (fun t => { t with text := t.text.toLower }) ∧
      ∀ level c, compile source.toLower level = .ok c ↔ compile source level = .ok c := by
  refine ⟨scan_toLower h, fun level c => ?_⟩
  rw [← mapError_outline_eq_ok, compile_toLower h level, mapError_outline_eq_ok]

/-- Capitals in a keyword, in a name, before an exponent and in a comment. -/
theorem capitals_read_alike :
    scan "program p; var x: real; begin x := 2.5e-1 \x7bfi\x7d end." =
        (scan "PROGRAM P; Var X: real; BEGIN x := 2.5E-1 \x7bFi\x7d END.").map
          (fun t => { t with text := t.text.toLower }) ∧
      ∀ level c,
        compile "program p; var x: real; begin x := 2.5e-1 \x7bfi\x7d end." level = .ok c ↔
          compile "PROGRAM P; Var X: real; BEGIN x := 2.5E-1 \x7bFi\x7d END." level = .ok c := by
  have hlower : "PROGRAM P; Var X: real; BEGIN x := 2.5E-1 \x7bFi\x7d END.".toLower =
      "program p; var x: real; begin x := 2.5e-1 \x7bfi\x7d end." := by
    decide +kernel
  rw [← hlower]
  exact case_insensitive (by decide +kernel)

end Compiling

end MiniPascal
