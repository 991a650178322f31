import MiniPascal.Token.Gap
import MiniPascal.Token.Lexeme

/-!
A source text as its tokens. The last one, and no other, tells how the text ends: at its end, or at
input that is no token.
-/

namespace MiniPascal

theorem Gap.length_rest_le {m : Mode} {p q : Position} {cs rest : List Char}
    (h : skip m p cs = .reached q rest) : rest.length ≤ cs.length := by
  fun_induction skip m p cs <;> grind

theorem Numeral.length_readFraction_le (cs : List Char) :
    (readFraction cs).2.length ≤ cs.length := by
  fun_cases readFraction cs with
  | case1 d rest _ =>
    have := ((d :: rest).dropWhile_sublist Char.isDigit).length_le
    simp only [List.length_cons] at this ⊢
    omega
  | case2 => simp
  | case3 => simp

theorem Numeral.length_readSign_le (cs : List Char) : (readSign cs).2.length ≤ cs.length := by
  fun_cases readSign cs <;> simp

theorem Numeral.length_readScale_le (cs : List Char) : (readScale cs).2.length ≤ cs.length := by
  fun_cases readScale cs with
  | case1 => simp
  | case2 c rest _ sign after h =>
    have h₁ := length_readSign_le rest
    have h₂ := (after.dropWhile_sublist Char.isDigit).length_le
    rw [h] at h₁
    simp only [List.length_cons] at h₁ h₂ ⊢
    omega
  | case3 => simp

theorem Numeral.length_read_lt {c : Char} {cs : List Char} (hc : c.isDigit) :
    (read (c :: cs)).2.length < (c :: cs).length := by
  have h₀ : ((c :: cs).dropWhile Char.isDigit).length ≤ cs.length := by
    rw [List.dropWhile_cons_of_pos hc]
    exact (cs.dropWhile_sublist Char.isDigit).length_le
  have h₁ := length_readFraction_le ((c :: cs).dropWhile Char.isDigit)
  have h₂ := length_readScale_le (readFraction ((c :: cs).dropWhile Char.isDigit)).2
  simp only [read, List.length_cons]
  omega

theorem Quoted.length_rest_le {cs rest : List Char} (h : (read cs).rest? = some rest) :
    rest.length ≤ cs.length := by
  fun_induction read cs <;> grind

theorem Mark.length_read_le {c : Char} {cs rest : List Char} {m : Mark}
    (h : read? c cs = some (m, rest)) : rest.length ≤ cs.length := by
  unfold read? at h
  split at h <;> grind

/-- Every token takes at least the character it starts with. -/
theorem Lexeme.length_rest_le (c : Char) (cs : List Char) :
    (read c cs).rest.length ≤ cs.length := by
  unfold read
  split
  · unfold readQuoted
    dsimp only
    split
    · next rest h => exact Quoted.length_rest_le h
    · simp [invalid]
  split
  · next hc =>
    have : (Numeral.read (c :: cs)).2.length ≤ cs.length :=
      Nat.le_of_lt_succ (Numeral.length_read_lt hc)
    unfold readNumber
    dsimp only
    split <;> simp only [invalid] <;> omega
  split
  · next hc =>
    have hc : isNameChar c := by
      simp only [isNameStart, isNameChar, Char.isAlphanum, Bool.or_eq_true] at hc ⊢
      grind
    have := (cs.dropWhile_sublist isNameChar).length_le
    unfold readWord
    rw [List.dropWhile_cons_of_pos hc]
    dsimp only
    split <;> exact this
  split
  · next m rest h => exact Mark.length_read_le h
  · simp [invalid]

/-- The tokens of a text that stands at the given place. -/
def scanFrom (p : Position) (cs : List Char) : List Token :=
  match _gap : Gap.skip .between p cs with
  | .unclosed opened => [⟨.invalid, "", opened, some (.fault .unterminatedComment)⟩]
  | .reached q [] => [⟨.endOfText, "", q, none⟩]
  | .reached q (c :: rest) =>
    let l := Lexeme.read c rest
    let t : Token := ⟨l.kind, String.ofList l.text, q, l.payload⟩
    if l.kind = .invalid then [t] else t :: scanFrom (q.right l.text.length) l.rest
termination_by cs.length
decreasing_by
  have h₁ := Gap.length_rest_le _gap
  have h₂ := Lexeme.length_rest_le c rest
  simp only [List.length_cons] at h₁
  omega

def scan (source : String) : List Token := scanFrom .start source.toList

theorem scan_ofList (cs : List Char) : scan (String.ofList cs) = scanFrom .start cs := by
  rw [scan, String.toList_ofList]

/-- The error that ended the scanning of a text, if one did. -/
def scanError? (tokens : List Token) : Option LexError :=
  match tokens.getLast? with
  | some t => if t.kind = .invalid then some (.ofToken t) else none
  | none => none

end MiniPascal
