import MiniPascal.Proofs.PrintableOutput

/-!
# Where minus signs meet in a text

Two minus signs meet only where a minus stands before an operand whose text begins with one, and in
strings.
-/

namespace MiniPascal.C

open List

def Zone.inString : Zone → Bool
  | quoted c | escaped c => c == '"'
  | code | slash | lineComment | blockComment | star => false

/-- Minus signs side by side stand in strings. -/
def Separate (text : String) : Prop := ∀ before after,
  text.toList = before ++ '-' :: '-' :: after → (Zone.code.after before).inString = true

/-- A text that can be put together with others without bringing minus signs together. -/
structure Spaced (text : String) : Prop where
  neat : Neat text
  separate : Separate text
  last : text.toList.getLast? ≠ some '-'

/-- Two minus signs in a text of two parts are both in the first or both in the second one, unless
the parts meet between them. -/
theorem split_append {cs ds before after : List Char} (h : cs ++ ds = before ++ '-' :: '-' :: after)
    (hmeet : cs.getLast? ≠ some '-' ∨ ds.head? ≠ some '-') :
    (∃ rest, cs = before ++ '-' :: '-' :: rest) ∨
      ∃ rest, before = cs ++ rest ∧ ds = rest ++ '-' :: '-' :: after := by
  rcases append_eq_append_iff.mp h with ⟨rest, hbefore, hds⟩ | ⟨rest, hcs, hrest⟩
  · exact .inr ⟨rest, hbefore, hds⟩
  · match rest, hrest with
    | [], hrest => exact .inr ⟨[], by simpa using hcs.symm, hrest.symm⟩
    | [c], hrest =>
      obtain ⟨rfl, rfl⟩ := List.cons.inj hrest
      rcases hmeet with hmeet | hmeet
      · exact absurd (by rw [hcs, getLast?_concat]) hmeet
      · exact absurd rfl hmeet
    | c :: d :: rest, hrest =>
      obtain ⟨rfl, rfl, _⟩ := hrest
      exact .inl ⟨rest, hcs⟩

theorem Separate.append {s t : String} (hs : Separate s) (hneat : Neat s) (ht : Separate t)
    (hmeet : s.toList.getLast? ≠ some '-' ∨ t.toList.head? ≠ some '-') : Separate (s ++ t) := by
  intro before after hsplit
  rw [String.toList_append] at hsplit
  rcases split_append hsplit hmeet with ⟨rest, hrest⟩ | ⟨rest, rfl, hrest⟩
  · exact hs before rest hrest
  · rw [Zone.after_append, hneat.closed]
    exact ht rest after hrest

theorem separate_of_count {text : String} (h : text.toList.count '-' ≤ 1) : Separate text := by
  intro before after hsplit
  rw [hsplit, count_append, count_cons_self, count_cons_self] at h
  omega

namespace Spaced

theorem of_not_mem {text : String} (neat : Neat text) (h : '-' ∉ text.toList) : Spaced text :=
  ⟨neat, separate_of_count (by rw [count_eq_zero.mpr h]; decide),
    fun hlast => h (mem_of_getLast? hlast)⟩

theorem append {s t : String} (hs : Spaced s) (ht : Spaced t) : Spaced (s ++ t) := by
  refine ⟨hs.neat.append ht.neat, hs.separate.append hs.neat ht.separate (.inl hs.last), ?_⟩
  rw [String.toList_append, List.getLast?_append]
  cases hlast : t.toList.getLast? with
  | none => exact hs.last
  | some c =>
    rw [Option.some_or, ← hlast]
    exact ht.last

theorem minus {t : String} (ht : Spaced t) (starts : Starts (· != '-') t.toList) :
    Spaced ("-" ++ t) := by
  obtain ⟨c, hc, hne⟩ := starts
  have hhead : t.toList.head? ≠ some '-' := by
    rw [Option.mem_def.mp hc]
    exact fun heq => bne_iff_ne.mp hne (Option.some.inj heq)
  have hneat : Neat "-" := by decide
  refine ⟨hneat.append ht.neat, Separate.append (separate_of_count (by decide)) hneat ht.separate
    (.inr hhead), ?_⟩
  rw [String.toList_append,
    getLast?_append_of_ne_nil _ (ne_nil_of_mem (mem_of_mem_head? hc))]
  exact ht.last

end Spaced

theorem Fixed.spaced {text : String} (h : Fixed text) : Spaced text :=
  ⟨h.neat, separate_of_count h.minus, h.last⟩

theorem spaced_of_spelled {name : String} (h : Spelled name) : Spaced name :=
  .of_not_mem (neat_of_spelled h) fun hmem => absurd (h _ hmem) (by decide)

/-! A string is left only by its closing quote. -/

/-- All characters of a text in a string are in the string. -/
def InString (cs : List Char) : Prop := ∀ before after,
  cs = before ++ after → ((Zone.quoted '"').after before).inString = true

instance (cs : List Char) : Decidable (InString cs) :=
  decidable_of_iff
    (∀ i < cs.length + 1, ((Zone.quoted '"').after (cs.take i)).inString = true) <| by
    constructor
    · rintro h before after rfl
      have hbefore := h before.length (by rw [length_append]; omega)
      rwa [take_left] at hbefore
    · intro h i _
      exact h _ _ (take_append_drop i cs).symm

theorem InString.append {cs ds : List Char} (hcs : InString cs)
    (hclosed : (Zone.quoted '"').after cs = .quoted '"') (hds : InString ds) :
    InString (cs ++ ds) := by
  intro before after hsplit
  rcases append_eq_append_iff.mp hsplit with ⟨rest, rfl, hrest⟩ | ⟨rest, hrest, _⟩
  · rw [Zone.after_append, hclosed]
    exact hds _ _ hrest
  · exact hcs _ _ hrest

theorem inString_flatMap {α : Type} {f : α → List Char} {as : List α}
    (h : ∀ a ∈ as, InString (f a) ∧ Stays (.quoted '"') (f a)) : InString (as.flatMap f) := by
  induction as with
  | nil => exact (by decide : InString [])
  | cons a as ih =>
    obtain ⟨ha, has⟩ := forall_mem_cons.mp h
    exact ha.1.append ha.2.closed (ih has)

theorem octal_inString : ∀ n, InString (octal n) := forall_octal (by decide +kernel)

theorem escape_inString (c : Char) : InString (escape c) := by
  by_cases hc : c.toNat < 128
  · exact forall_ascii (P := fun c => InString (escape c)) (by decide +kernel) hc
  · rw [escape_of_not_ascii hc]
    exact inString_flatMap fun byte _ => ⟨octal_inString _, octal_stays _⟩

theorem separate_quoted {cs : List Char} (h : InString cs) :
    Separate (String.ofList ('"' :: (cs ++ ['"']))) := by
  intro before after hsplit
  rw [String.toList_ofList] at hsplit
  cases before with
  | nil => exact absurd (List.cons.inj hsplit).1 (by decide)
  | cons c before =>
    obtain ⟨rfl, hrest⟩ := List.cons.inj hsplit
    rcases append_eq_append_iff.mp hrest with ⟨rest, _, hend⟩ | ⟨rest, hcs, _⟩
    · have hlength := congrArg List.length hend
      simp only [length_append, length_cons, length_nil] at hlength
      omega
    · exact h before rest hcs

theorem spaced_stringLiteral (text : String) : Spaced (stringLiteral text) := by
  have heq : stringLiteral text = String.ofList ('"' :: (text.toList.flatMap escape ++ ['"'])) := by
    apply String.toList_inj.mp
    simp [stringLiteral]
  refine ⟨neat_stringLiteral text, ?_, ?_⟩
  · rw [heq]
    exact separate_quoted (inString_flatMap fun c _ => ⟨escape_inString c, escape_stays c⟩)
  · rw [heq, String.toList_ofList, ← cons_append, getLast?_concat]
    decide

theorem spaced_charLiteral {c : Char} (hc : c.toNat < 128) : Spaced (charLiteral c) := by
  have hall := forall_ascii (P := fun c => (charLiteral c).toList.count '-' ≤ 1 ∧
    (charLiteral c).toList.getLast? ≠ some '-') (by decide +kernel) hc
  exact ⟨neat_charLiteral hc, separate_of_count hall.1, hall.2⟩

/-- A minus can stand before the text of the operand. -/
def Expr.TakesMinus (e : Expr) : Prop := ¬e.LeadsMinus

theorem spaced_minus {e : Expr} (he : Spaced e.text) (takes : e.TakesMinus) :
    Spaced (Expr.unary .minus e).text := by
  have heq : (Expr.unary .minus e).text = "(" ++ ("-" ++ (e.text ++ ")")) := by
    rw [Expr.text]
    rfl
  have hclosed : Spaced (e.text ++ ")") := he.append (Fixed.spaced (by decide))
  rw [heq]
  refine Spaced.append (Fixed.spaced (by decide)) (hclosed.minus ?_)
  rw [String.toList_append]
  cases htext : e.text.toList with
  | nil => exact ⟨')', rfl, rfl⟩
  | cons c rest =>
    refine ⟨c, rfl, bne_iff_ne.mpr ?_⟩
    rintro rfl
    exact takes (congrArg List.head? htext)

/-- Where each operand takes its minus, minus signs meet only in strings. -/
theorem Woven.spaced {text : String} (h : Woven Expr.TakesMinus text) : Spaced text := by
  induction h with
  | fixed h => exact h.spaced
  | name h => exact spaced_of_spelled h
  | string => exact spaced_stringLiteral _
  | char h => exact spaced_charLiteral h
  | sign _ starts ih => exact ih.minus starts
  | negation _ operand ih => exact spaced_minus ih operand
  | append _ _ ihs iht => exact ihs.append iht

end MiniPascal.C
