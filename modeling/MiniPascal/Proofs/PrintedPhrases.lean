import MiniPascal.Proofs.PrintedConstants

/-!
# Printed phrases

How a text that C reads as an expression is put together from the texts of its parts. No token of
one part runs into the next one, unless an operator stands before an operand that makes a longer
punctuator of it.
-/

namespace MiniPascal.C

open List

def Parses (text : String) (t : Tree) : Prop := ∃ ts, tokens text = some ts ∧ Derives 13 ts t

/-- The characters make the tokens, before everything that meets a condition. -/
def Spells (before : List Char → Prop) (cs : List Char) (ts : List Token) : Prop :=
  ∀ rest, before rest → tokensFrom (cs ++ rest) = (tokensFrom rest).map (ts ++ ·)

/-- The characters are read as an expression of a level. -/
def Prints (n : Nat) (cs : List Char) (t : Tree) : Prop :=
  ∃ ts, Spells Closes cs ts ∧ Derives n ts t

theorem Prints.parses_iff {text : String} {t u : Tree} (h : Prints 13 text.toList t) :
    Parses text u ↔ u = t := by
  obtain ⟨ts, hspells, hderives⟩ := h
  have htokens : tokens text = some ts := by
    have h := hspells [] nofun
    rwa [append_nil, tokensFrom_nil, Option.map_some, append_nil] at h
  constructor
  · rintro ⟨us, hus, hu⟩
    cases htokens.symm.trans hus
    exact hderives.unique hu
  · rintro rfl
    exact ⟨ts, htokens, hderives⟩

theorem closes_cons {c : Char} {cs : List Char} (h : c ∈ closers) : Closes (c :: cs) := by
  intro d hd
  cases hd
  exact h

namespace Spells

variable {P Q : List Char → Prop} {cs ds : List Char} {ts us : List Token}

theorem of_imp (h : Spells P cs ts) (hPQ : ∀ rest, Q rest → P rest) : Spells Q cs ts :=
  fun rest hrest => h rest (hPQ rest hrest)

theorem append (h : Spells P cs ts) (h' : Spells Q ds us) (hds : ∀ rest, Q rest → P (ds ++ rest)) :
    Spells Q (cs ++ ds) (ts ++ us) := by
  intro rest hrest
  rw [append_assoc, h _ (hds rest hrest), h' rest hrest, Option.map_map]
  simp only [Function.comp_def, append_assoc]

theorem nil : Spells P [] [] := fun rest _ => by simp

theorem blank (h : Spells P cs ts) : Spells P (' ' :: cs) ts := by
  intro rest hrest
  rw [cons_append, tokensFrom_blank, h rest hrest]

theorem word {s : String} (h : isWord s.toList = true) : Spells Closes s.toList [.word s] := by
  intro rest hrest
  rw [tokensFrom_word h hrest, String.ofList_toList]
  rfl

theorem number {v : Number} (h : IsNumeral cs v) : Spells Closes cs [.number cs] := by
  intro rest hrest
  obtain ⟨c, hc, hdigit⟩ := h.starts
  cases cs with
  | nil => cases hc
  | cons d ds =>
    cases hc
    exact tokensFrom_number hdigit h.connected hrest

theorem punct {s : List Char} {p : Punct} (hs : (s, .punct p) ∈ Mark.table)
    (hdot : s.head? ≠ some '.') :
    Spells (fun rest => ∀ c ∈ rest.head?, c ∉ Mark.extensions s) s [.punct p] :=
  fun _ hrest => tokensFrom_punct hs hdot hrest

theorem bracket {c : Char} {p : Punct} (hc : ([c], .punct p) ∈ Mark.table) (hdot : c ≠ '.')
    (hext : Mark.extensions [c] = []) : Spells (fun _ => True) [c] [.punct p] :=
  (punct hc (by simpa using hdot)).of_imp fun rest _ d _ => by simp [hext]

theorem openParen : Spells (fun _ => True) ['('] [.punct .openParen] :=
  bracket (by decide +kernel) (by decide) (by decide +kernel)

theorem closeParen : Spells (fun _ => True) [')'] [.punct .closeParen] :=
  bracket (by decide +kernel) (by decide) (by decide +kernel)

theorem openBracket : Spells (fun _ => True) ['['] [.punct .openBracket] :=
  bracket (by decide +kernel) (by decide) (by decide +kernel)

theorem closeBracket : Spells (fun _ => True) [']'] [.punct .closeBracket] :=
  bracket (by decide +kernel) (by decide) (by decide +kernel)

theorem comma : Spells (fun _ => True) [','] [.punct .comma] :=
  bracket (by decide +kernel) (by decide) (by decide +kernel)

theorem parens (h : Spells Closes cs ts) : Spells (fun _ => True) ('(' :: (cs ++ [')']))
      (.punct .openParen :: (ts ++ [.punct .closeParen])) :=
  openParen.append (h.append closeParen fun _ _ => closes_cons (by decide)) fun _ _ => trivial

theorem brackets (h : Spells Closes cs ts) : Spells (fun _ => True) ('[' :: (cs ++ [']']))
      (.punct .openBracket :: (ts ++ [.punct .closeBracket])) :=
  openBracket.append (h.append closeBracket fun _ _ => closes_cons (by decide)) fun _ _ => trivial

theorem type (type : Ty) : Spells Closes type.text.toList type.tokens := by
  have hstar : Spells Closes ['*'] [.punct .star] :=
    (punct (by decide +kernel) (by decide)).of_imp fun rest hrest c hc => by
      have hall : closers.all (fun d => !(Mark.extensions ['*']).contains d) = true := by
        decide +kernel
      simpa using all_eq_true.mp hall c (hrest c hc)
  cases type with
  | int | double | char | void => exact word (by decide)
  | string =>
    exact (word (s := "const") (by decide)).append
      ((word (s := "char") (by decide)).append hstar.blank fun _ _ => closes_cons (by decide)).blank
      fun _ _ => closes_cons (by decide)

end Spells

theorem Derives.raise {n m : Nat} {ts : List Token} {t : Tree} (h : Derives n ts t) (hnm : n ≤ m)
    (hm : m ≤ 13) : Derives m ts t := by
  induction hnm with
  | refl => exact h
  | step _ ih => exact .base (.raise hm (ih (Nat.le_of_succ_le hm)))

def IsName (s : String) : Prop := isWord s.toList = true ∧ s ∉ keywords

instance (s : String) : Decidable (IsName s) := inferInstanceAs (Decidable (_ ∧ _))

namespace Prints

variable {n m : Nat} {cs ds : List Char} {t u : Tree}

theorem raise (h : Prints n cs t) (hnm : n ≤ m) (hm : m ≤ 13) : Prints m cs t := by
  obtain ⟨ts, hspells, hderives⟩ := h
  exact ⟨ts, hspells, hderives.raise hnm hm⟩

theorem name {s : String} (h : IsName s) : Prints 0 s.toList (.name s) :=
  ⟨_, .word h.1, .base (.name h.2)⟩

theorem number {v : Number} (h : IsNumeral cs v) (hv : v.Reads t) : Prints 0 cs t :=
  ⟨_, .number h, .base (.number h.reads hv)⟩

theorem char (c : Char) : Prints 0 (charLiteral c).toList (.char (String.utf8EncodeChar c)) := by
  refine ⟨[_], ?_, .base .char⟩
  intro rest _
  obtain ⟨byte, bytes, hbytes⟩ := exists_cons_of_ne_nil (String.utf8EncodeChar_ne_nil (c := c))
  have h := readQuoted_char c rest
  rw [hbytes] at h ⊢
  simpa [charLiteral] using tokensFrom_char h

theorem string (s : String) :
    Prints 0 (stringLiteral s).toList (.string (s.toList.flatMap String.utf8EncodeChar)) := by
  refine ⟨[_], ?_, .base .string⟩
  intro rest _
  simpa [stringLiteral] using tokensFrom_string (readQuoted_text s.toList rest)

theorem group (h : Prints 13 cs t) : Prints 0 ('(' :: (cs ++ [')'])) t := by
  obtain ⟨ts, hspells, hderives⟩ := h
  exact ⟨_, hspells.parens.of_imp fun _ _ => trivial, .base (.group hderives)⟩

theorem subscript (h : Prints 0 cs t) (h' : Prints 13 ds u) :
    Prints 0 (cs ++ '[' :: (ds ++ [']'])) (.subscript t u) := by
  obtain ⟨ts, hspells, hderives⟩ := h
  obtain ⟨us, hspells', hderives'⟩ := h'
  refine ⟨_, hspells.append (hspells'.brackets.of_imp fun _ _ => trivial) ?_,
    .further hderives (.subscript hderives')⟩
  exact fun _ _ => closes_cons (by decide)

/-- The characters are read as arguments between commas. -/
def Arguments (cs : List Char) (args : List Tree) : Prop :=
  ∃ ts, Spells Closes cs ts ∧ C.Arguments ts args

theorem call {args : List Tree} (h : Prints 0 cs t) (h' : Arguments ds args) :
    Prints 0 (cs ++ '(' :: (ds ++ [')'])) (.call t args) := by
  obtain ⟨ts, hspells, hderives⟩ := h
  obtain ⟨us, hspells', hargs⟩ := h'
  refine ⟨_, hspells.append (hspells'.parens.of_imp fun _ _ => trivial) ?_,
    .further hderives (.call hargs)⟩
  exact fun _ _ => closes_cons (by decide)

theorem cons {args : List Tree} (h : Prints 12 cs t) (h' : Arguments ds (u :: args)) :
    Arguments (cs ++ ',' :: ' ' :: ds) (t :: u :: args) := by
  obtain ⟨ts, hspells, hderives⟩ := h
  obtain ⟨us, hspells', hargs⟩ := h'
  refine ⟨_, hspells.append (Spells.comma.append hspells'.blank fun _ _ => trivial) ?_,
    .more hderives hargs⟩
  exact fun _ _ => closes_cons (by decide)

theorem cast (type : Ty) (h : Prints 2 cs t) :
    Prints 2 ('(' :: (type.text.toList ++ ')' :: cs)) (.cast type t) := by
  obtain ⟨ts, hspells, hderives⟩ := h
  refine ⟨_, ?_, .base (.cast hderives)⟩
  simpa using (Spells.type type).parens.append hspells fun _ _ => trivial

theorem unary {s : List Char} {op : Punct} (hs : (s, .punct op) ∈ Mark.table)
    (hdot : s.head? ≠ some '.') (hop : op.operandLevel? = some 2)
    (hcs : Starts (fun c => !(Mark.extensions s).contains c) cs) (h : Prints 2 cs t) :
    Prints 1 (s ++ cs) (.unary op t) := by
  obtain ⟨ts, hspells, hderives⟩ := h
  refine ⟨_, (Spells.punct hs hdot).append hspells ?_, .base (.unary hop hderives)⟩
  intro rest _ c hc
  obtain ⟨d, hd, hfirst⟩ := hcs.append rest
  cases hd.symm.trans hc
  simpa using hfirst

theorem binary {s : List Char} {op : Punct} (hs : (s, .punct op) ∈ Mark.table)
    (hdot : s.head? ≠ some '.') (hblank : ' ' ∉ Mark.extensions s)
    (hop : op.level? = some (n + 1)) (h : Prints (n + 1) cs t) (h' : Prints n ds u) :
    Prints (n + 1) (cs ++ ' ' :: (s ++ ' ' :: ds)) (.binary op t u) := by
  obtain ⟨ts, hspells, hderives⟩ := h
  obtain ⟨us, hspells', hderives'⟩ := h'
  have hright : Spells Closes (s ++ ' ' :: ds) (.punct op :: us) := by
    refine (Spells.punct hs hdot).append hspells'.blank ?_
    intro rest _ c hc
    cases hc
    exact hblank
  refine ⟨_, hspells.append hright.blank ?_, .further hderives (.binary hop hderives')⟩
  exact fun _ _ => closes_cons (by decide)

end Prints

end MiniPascal.C
