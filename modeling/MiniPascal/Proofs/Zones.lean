import MiniPascal.Proofs.PrintedConstants
import MiniPascal.Proofs.SpelledNames

/-!
# Code, comments and constants

Each character of a C text stands in a zone: in code, in a comment, or in a string or a character
constant. Trigraphs and lines joined by a backslash are left out.
-/

namespace MiniPascal.C

open List

inductive Zone where
  | code
  /-- Behind a slash that may begin a comment. -/
  | slash
  | lineComment
  | blockComment
  /-- Behind a star that may end a comment. -/
  | star
  /-- In a constant that ends with the quote. -/
  | quoted (quote : Char)
  /-- Behind a backslash in such a constant. -/
  | escaped (quote : Char)
  deriving DecidableEq, Repr

namespace Zone

def next : Zone → Char → Zone
  | code, c => if c = '"' ∨ c = '\x27' then quoted c else if c = '/' then slash else code
  | slash, c =>
    if c = '/' then lineComment
    else if c = '*' then blockComment
    else if c = '"' ∨ c = '\x27' then quoted c
    else code
  | lineComment, c => if c = '\n' then code else lineComment
  | blockComment, c => if c = '*' then star else blockComment
  | star, c => if c = '/' then code else if c = '*' then star else blockComment
  | quoted q, c => if c = q then code else if c = '\\' then escaped q else quoted q
  | escaped q, _ => quoted q

/-- The zone behind a text that begins in a zone. -/
def after (z : Zone) (cs : List Char) : Zone := cs.foldl next z

theorem after_append (z : Zone) (cs ds : List Char) :
    z.after (cs ++ ds) = (z.after cs).after ds := foldl_append

end Zone

/-- Printable characters of ASCII, with the blank. -/
def IsPrintable (c : Char) : Prop := 0x20 ≤ c.toNat ∧ c.toNat ≤ 0x7e

instance (c : Char) : Decidable (IsPrintable c) := inferInstanceAs (Decidable (_ ∧ _))

/-- A printable text that leads from a zone back to it. -/
structure Stays (z : Zone) (cs : List Char) : Prop where
  printable : ∀ c ∈ cs, IsPrintable c
  closed : z.after cs = z

instance (z : Zone) (cs : List Char) : Decidable (Stays z cs) :=
  have := List.decidableBAll IsPrintable cs
  decidable_of_iff ((∀ c ∈ cs, IsPrintable c) ∧ z.after cs = z)
    ⟨fun h => ⟨h.1, h.2⟩, fun h => ⟨h.printable, h.closed⟩⟩

namespace Stays

variable {z : Zone} {cs ds : List Char}

theorem nil : Stays z [] := ⟨forall_mem_nil _, rfl⟩

theorem append (hcs : Stays z cs) (hds : Stays z ds) : Stays z (cs ++ ds) :=
  ⟨forall_mem_append.mpr ⟨hcs.printable, hds.printable⟩, by
    rw [Zone.after_append, hcs.closed, hds.closed]⟩

theorem flatMap {α : Type} {f : α → List Char} {as : List α} (h : ∀ a ∈ as, Stays z (f a)) :
    Stays z (as.flatMap f) := by
  induction as with
  | nil => exact nil
  | cons a as ih =>
    obtain ⟨ha, has⟩ := forall_mem_cons.mp h
    exact ha.append (ih has)

theorem of_forall (h : ∀ c ∈ cs, Stays z [c]) : Stays z cs := by
  have hflat := flatMap h
  rwa [flatMap_singleton'] at hflat

end Stays

/-- A printable text without open constants and comments. -/
def Neat (text : String) : Prop := Stays .code text.toList

instance (text : String) : Decidable (Neat text) := inferInstanceAs (Decidable (Stays _ _))

theorem Neat.append {s t : String} (hs : Neat s) (ht : Neat t) : Neat (s ++ t) := by
  rw [Neat, String.toList_append]
  exact Stays.append hs ht

theorem neat_of_spelled {name : String} (h : Spelled name) : Neat name := by
  refine .of_forall fun c hc => ?_
  have hchar := h c hc
  exact forall_ascii (P := fun c => isNameChar c = true → Stays .code [c]) (by decide +kernel)
    (lt_of_isNameChar hchar) hchar

theorem forall_octal {P : List Char → Prop}
    (h : ∀ i < 8, ∀ j < 8, ∀ k < 8, P ['\\', Char.ofNat ('0'.toNat + i),
      Char.ofNat ('0'.toNat + j), Char.ofNat ('0'.toNat + k)]) (n : Nat) : P (octal n) := by
  have hlt : ∀ m, m % 8 < 8 := fun m => Nat.mod_lt m (by decide)
  exact h _ (hlt _) _ (hlt _) _ (hlt _)

theorem octal_stays : ∀ n, Stays (.quoted '"') (octal n) := forall_octal (by decide +kernel)

theorem escape_of_not_ascii {c : Char} (hc : ¬c.toNat < 128) :
    escape c = (String.utf8EncodeChar c).flatMap fun byte => octal byte.toNat := by
  have hne : ∀ d : Char, d.toNat < 128 → c ≠ d := by
    rintro d hd rfl
    exact hc hd
  have hcontrol : isControl c = false := by
    simp only [isControl, Bool.or_eq_false_iff, decide_eq_false_iff_not, beq_eq_false_iff_ne]
    omega
  unfold escape
  rw [if_neg (hne _ (by decide)), if_neg (hne _ (by decide)), if_neg (hne _ (by decide)),
    if_neg (hne _ (by decide)), if_neg (hne _ (by decide)), hcontrol,
    if_neg Bool.false_ne_true, if_neg hc]

theorem escape_stays (c : Char) : Stays (.quoted '"') (escape c) := by
  by_cases hc : c.toNat < 128
  · exact forall_ascii (P := fun c => Stays (.quoted '"') (escape c)) (by decide +kernel) hc
  · rw [escape_of_not_ascii hc]
    exact .flatMap fun byte _ => octal_stays _

theorem neat_quoted {q : Char} (hq : q = '"' ∨ q = '\x27') {cs : List Char}
    (h : Stays (.quoted q) cs) : Neat (String.ofList (q :: (cs ++ [q]))) := by
  have hprintable : IsPrintable q := by rcases hq with rfl | rfl <;> decide
  rw [Neat, String.toList_ofList]
  constructor
  · exact forall_mem_cons.mpr ⟨hprintable, forall_mem_append.mpr
      ⟨h.printable, forall_mem_singleton.mpr hprintable⟩⟩
  · have hopen : Zone.code.after [q] = .quoted q := if_pos hq
    have hclose : (Zone.quoted q).after [q] = .code := if_pos rfl
    rw [← singleton_append, Zone.after_append, hopen, Zone.after_append, h.closed, hclose]

theorem neat_stringLiteral (text : String) : Neat (stringLiteral text) := by
  have heq : stringLiteral text = String.ofList ('"' :: (text.toList.flatMap escape ++ ['"'])) := by
    apply String.toList_inj.mp
    simp [stringLiteral]
  rw [heq]
  exact neat_quoted (.inl rfl) (.flatMap fun c _ => escape_stays c)

theorem neat_charLiteral {c : Char} (hc : c.toNat < 128) : Neat (charLiteral c) := by
  have heq : charLiteral c = String.ofList ('\x27' :: (escapeQuoted c ++ ['\x27'])) := by
    apply String.toList_inj.mp
    simp [charLiteral]
  rw [heq]
  exact neat_quoted (.inr rfl) (forall_ascii (P := fun c => Stays (.quoted '\x27') (escapeQuoted c))
    (by decide +kernel) hc)

end MiniPascal.C
