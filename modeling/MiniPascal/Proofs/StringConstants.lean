import Mathlib.Logic.Function.Defs
import MiniPascal.Proofs.PrintableOutput

/-!
# Texts as string constants

A text is written as a string constant of C, whatever its characters are, and C reads the encoding
of the text from it.
-/

namespace MiniPascal.C

open List

/-- The bytes of the string constant that a text is, from its first character to its last. -/
def stringBytes? (text : String) : Option (List UInt8) :=
  match text.toList with
  | [] => none
  | c :: cs => do
    guard (c = '"')
    let (bytes, rest) ← readQuoted '"' cs
    guard rest.isEmpty
    return bytes

-- An escape of one digit takes the digits behind it, up to the third.
example : stringBytes? "\"\\1234\\7x\"" = some [83, 52, 7, 120] := by decide +kernel

/-- Between the quotes of a constant, every further quote is escaped. -/
def QuotesEscaped (cs : List Char) : Prop :=
  ∀ i, cs[i]? = some '"' → (Zone.quoted '"').after (cs.take i) = .escaped '"'

namespace QuotesEscaped

variable {cs ds : List Char}

theorem of_not_mem (h : '"' ∉ cs) : QuotesEscaped cs :=
  fun _ hi => absurd (mem_of_getElem? hi) h

theorem append (hcs : QuotesEscaped cs) (hclosed : (Zone.quoted '"').after cs = .quoted '"')
    (hds : QuotesEscaped ds) : QuotesEscaped (cs ++ ds) := by
  intro i hi
  by_cases hlt : i < cs.length
  · rw [getElem?_append_left hlt] at hi
    rw [take_append_of_le_length (Nat.le_of_lt hlt)]
    exact hcs i hi
  · have hle := Nat.le_of_not_lt hlt
    rw [getElem?_append_right hle] at hi
    rw [take_append, take_of_length_le hle, Zone.after_append, hclosed]
    exact hds _ hi

end QuotesEscaped

theorem quote_not_mem_octal (n : Nat) : '"' ∉ octal n := by
  have hdigit : ∀ m, '"' ≠ octalDigit m := by
    intro m heq
    have hoctal := (octalDigit_spec m).1
    rw [← heq] at hoctal
    cases hoctal
  simp [octal, hdigit]

theorem eq_of_quote_mem_escape {c : Char} (h : '"' ∈ escape c) : c = '"' := by
  unfold escape at h
  split_ifs at h with hquote hescape hline htab hreturn hcontrol
  · exact hquote
  · exact absurd h (by decide)
  · exact absurd h (by decide)
  · exact absurd h (by decide)
  · exact absurd h (by decide)
  · exact absurd h (quote_not_mem_octal _)
  · exact (mem_singleton.mp h).symm
  · obtain ⟨byte, _, h⟩ := mem_flatMap.mp h
    exact absurd h (quote_not_mem_octal _)

theorem escape_quotesEscaped (c : Char) : QuotesEscaped (escape c) := by
  by_cases hc : c = '"'
  · subst hc
    intro i hi
    match i with
    | 0 => cases hi
    | 1 => rfl
    | _ + 2 => cases hi
  · exact .of_not_mem fun h => hc (eq_of_quote_mem_escape h)

theorem escapes_quotesEscaped (cs : List Char) : QuotesEscaped (cs.flatMap escape) := by
  induction cs with
  | nil => exact .of_not_mem not_mem_nil
  | cons c cs ih => exact (escape_quotesEscaped c).append (escape_stays c).closed ih

theorem toList_stringLiteral (text : String) :
    (stringLiteral text).toList = '"' :: (text.toList.flatMap escape ++ ['"']) := by
  simp [stringLiteral]

theorem data_toUTF8 (text : String) :
    text.toUTF8.data.toList = text.toList.flatMap String.utf8EncodeChar := by
  rw [String.toUTF8_eq_toByteArray, ← String.utf8Encode_toList]
  exact toList_data_toByteArray

theorem stringBytes?_stringLiteral (text : String) :
    stringBytes? (stringLiteral text) = some text.toUTF8.data.toList := by
  rw [stringBytes?, toList_stringLiteral, data_toUTF8]
  dsimp only
  rw [readQuoted_text]
  rfl

theorem toUTF8_injective {s t : String} (h : s.toUTF8.data.toList = t.toUTF8.data.toList) : s = t :=
  String.toByteArray_inj.mp (ByteArray.ext (Array.toList_inj.mp h))

/-- A text is written as a string constant of printable characters whose inner quotes are escaped,
and whose bytes are the encoding of the text. So different texts are written differently. -/
theorem stringLiteral_encodes :
    (∀ text, (∀ c ∈ (stringLiteral text).toList, IsPrintable c) ∧
      (∃ body, (stringLiteral text).toList = '"' :: (body ++ ['"']) ∧ QuotesEscaped body) ∧
      stringBytes? (stringLiteral text) = some text.toUTF8.data.toList) ∧
    Function.Injective stringLiteral := by
  refine ⟨fun text => ⟨(neat_stringLiteral text).printable,
    ⟨_, toList_stringLiteral text, escapes_quotesEscaped _⟩, stringBytes?_stringLiteral text⟩,
    fun s t h => ?_⟩
  have hs := stringBytes?_stringLiteral s
  rw [h, stringBytes?_stringLiteral t] at hs
  exact toUTF8_injective (Option.some.inj hs).symm

end MiniPascal.C
