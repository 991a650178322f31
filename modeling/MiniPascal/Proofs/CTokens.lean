import Mathlib.Data.List.Nodup
import MiniPascal.C.Literal

/-!
# Texts as tokens of C

A text is cut from its left end, and each token is the longest one that stands there. Wide
constants, universal character names, trigraphs and lines joined by a backslash are left out.
-/

namespace MiniPascal.C

open List

inductive Punct where
  | openBracket | closeBracket | openParen | closeParen | openBrace | closeBrace
  | dot | arrow | increment | decrement | amp | star | plus | minus | tilde | bang
  | slash | percent | shiftLeft | shiftRight | less | greater | lessEqual | greaterEqual
  | equalEqual | bangEqual | caret | bar | ampAmp | barBar | question | colon | semicolon | ellipsis
  | equal | starEqual | slashEqual | percentEqual | plusEqual | minusEqual | shiftLeftEqual
  | shiftRightEqual | ampEqual | caretEqual | barEqual | comma | hash | hashHash
  deriving DecidableEq, Repr

/-- What a mark begins. -/
inductive Mark where
  | punct (p : Punct)
  | blockComment
  | lineComment
  deriving DecidableEq, Repr

namespace Mark

/-- All marks with their spellings, no one before a longer one. Six punctuators have two. -/
def table : List (List Char × Mark) :=
  [("%:%:", punct .hashHash), ("...", punct .ellipsis), ("<<=", punct .shiftLeftEqual),
   (">>=", punct .shiftRightEqual), ("->", punct .arrow), ("++", punct .increment),
   ("--", punct .decrement), ("<<", punct .shiftLeft), (">>", punct .shiftRight),
   ("<=", punct .lessEqual), (">=", punct .greaterEqual), ("==", punct .equalEqual),
   ("!=", punct .bangEqual), ("&&", punct .ampAmp), ("||", punct .barBar),
   ("*=", punct .starEqual), ("/=", punct .slashEqual), ("%=", punct .percentEqual),
   ("+=", punct .plusEqual), ("-=", punct .minusEqual), ("&=", punct .ampEqual),
   ("^=", punct .caretEqual), ("|=", punct .barEqual), ("##", punct .hashHash),
   ("<:", punct .openBracket), (":>", punct .closeBracket), ("<%", punct .openBrace),
   ("%>", punct .closeBrace), ("%:", punct .hash), ("/*", blockComment), ("//", lineComment),
   ("[", punct .openBracket), ("]", punct .closeBracket), ("(", punct .openParen),
   (")", punct .closeParen), ("\x7b", punct .openBrace), ("\x7d", punct .closeBrace),
   (".", punct .dot), ("&", punct .amp), ("*", punct .star), ("+", punct .plus),
   ("-", punct .minus), ("~", punct .tilde), ("!", punct .bang), ("/", punct .slash),
   ("%", punct .percent), ("<", punct .less), (">", punct .greater), ("^", punct .caret),
   ("|", punct .bar), ("?", punct .question), (":", punct .colon), (";", punct .semicolon),
   ("=", punct .equal), (",", punct .comma), ("#", punct .hash)].map
    fun entry => (entry.1.toList, entry.2)

/-- The longest mark at the head of a text. -/
def read? (cs : List Char) : Option (Mark × List Char) :=
  (table.find? fun entry => entry.1.isPrefixOf cs).map
    fun entry => (entry.2, cs.drop entry.1.length)

/-- The characters that make a longer mark out of a spelling. -/
def extensions (s : List Char) : List Char :=
  table.filterMap fun entry => if s.isPrefixOf entry.1 then entry.1[s.length]? else none

theorem table_ne_nil : ∀ entry ∈ table, entry.1 ≠ [] := by decide +kernel

theorem table_sorted : table.Pairwise fun a b => b.1.length ≤ a.1.length := by decide +kernel

theorem table_nodup : (table.map Prod.fst).Nodup := by decide +kernel

theorem read?_append {s rest : List Char} {m : Mark} (hmem : (s, m) ∈ table)
    (hrest : ∀ c ∈ rest.head?, c ∉ extensions s) : read? (s ++ rest) = some (m, rest) := by
  have hself : (s.isPrefixOf (s ++ rest)) = true :=
    List.isPrefixOf_iff_prefix.mpr (prefix_append s rest)
  -- no entry of the table that is longer stands here
  have hlongest : ∀ entry ∈ table, entry.1.isPrefixOf (s ++ rest) = true →
      entry.1.length ≤ s.length := by
    intro entry hentry hstands
    by_contra hlong
    obtain ⟨more, hmore⟩ :=
      prefix_of_prefix_length_le (prefix_append s rest)
        (List.isPrefixOf_iff_prefix.mp hstands) (by omega)
    cases more with
    | nil => simp [← hmore] at hlong
    | cons c more =>
      obtain ⟨tail, htail⟩ := List.isPrefixOf_iff_prefix.mp hstands
      rw [← hmore, append_assoc, append_cancel_left_eq] at htail
      refine hrest c (by simp [← htail]) ?_
      refine mem_filterMap.mpr ⟨entry, hentry, ?_⟩
      rw [if_pos (List.isPrefixOf_iff_prefix.mpr ⟨c :: more, hmore⟩), ← hmore]
      simp
  cases hfind : table.find? fun entry => entry.1.isPrefixOf (s ++ rest) with
  | none => exact absurd hself (by simpa using find?_eq_none.mp hfind _ hmem)
  | some entry =>
    obtain ⟨hstands, before, after, htable, hbefore⟩ := find?_eq_some_iff_append.mp hfind
    have hentry : entry ∈ table := mem_of_find?_eq_some hfind
    have hle := hlongest entry hentry hstands
    have hge : s.length ≤ entry.1.length := by
      rcases mem_append.mp (htable ▸ hmem) with hin | hin
      · simpa [hself] using hbefore _ hin
      rcases mem_cons.mp hin with rfl | hin
      · exact Nat.le_refl _
      · have hsorted := htable ▸ table_sorted
        exact (pairwise_cons.mp (pairwise_append.mp hsorted).2.1).1 _ hin
    have hs : entry.1 = s := by
      refine (prefix_of_prefix_length_le (List.isPrefixOf_iff_prefix.mp hstands)
        (prefix_append s rest) hle).eq_of_length (by omega)
    have hm : entry = (s, m) := inj_on_of_nodup_map table_nodup hentry hmem hs
    simp [read?, hfind, hm]

end Mark

variable {c : Char} {bytes : List UInt8} {cs : List Char} {byte : UInt8} {rest : List Char}

theorem Mark.length_read?_le {m : Mark} (h : read? (c :: cs) = some (m, rest)) :
    rest.length ≤ cs.length := by
  obtain ⟨entry, hfind, h⟩ := Option.map_eq_some_iff.mp h
  have := length_pos_iff.mpr (table_ne_nil entry (mem_of_find?_eq_some hfind))
  cases h
  rw [length_drop, length_cons]
  omega

def nondigits : List Char := "_abcdefghijklmnopqrstuvwxyzABCDEFGHIJKLMNOPQRSTUVWXYZ".toList

def isNondigit (c : Char) : Bool := nondigits.contains c

def isWordChar (c : Char) : Bool := isNondigit c || c.isDigit

theorem isNondigit_of_isDigit (h : c.isDigit = true) : isNondigit c = false := by
  have hall : nondigits.all (fun d => !d.isDigit) = true := by decide
  refine Bool.eq_false_iff.mpr fun hc => ?_
  have hc := all_eq_true.mp hall c (contains_iff_mem.mp hc)
  rw [h] at hc
  cases hc

def blanks : List Char := [' ', '\t', '\n', '\x0b', '\x0c']

def isBlank (c : Char) : Bool := blanks.contains c

theorem isBlank_of_isWordChar (h : isWordChar c = true) : isBlank c = false := by
  have hall : blanks.all (fun d => !isWordChar d) = true := by decide
  rw [Bool.eq_false_iff]
  intro hblank
  have hnot := all_eq_true.mp hall c (contains_iff_mem.mp hblank)
  simp [h] at hnot

def isQuote (c : Char) : Bool := c == '\x27' || c == '"'

/-- Whether a number goes on with a character: a sign does only behind the letter of an exponent. -/
def inNumber (previous c : Char) : Bool :=
  isWordChar c || c == '.' || ((c == '+' || c == '-') && "eEpP".toList.contains previous)

/-- The number that a text goes on with, and the rest. -/
def readNumber (previous : Char) : List Char → List Char × List Char
  | [] => ([], [])
  | c :: cs =>
    if inNumber previous c then
      let (s, rest) := readNumber c cs
      (c :: s, rest)
    else ([], c :: cs)

theorem length_readNumber_le (previous : Char) (cs : List Char) :
    (readNumber previous cs).2.length ≤ cs.length := by
  fun_induction readNumber previous cs <;> grind

def isOctal (c : Char) : Bool := c.isDigit && c.toNat < 56

/-- The byte that a letter behind a backslash stands for. -/
def simpleEscape? : Char → Option UInt8
  | '\x27' => some 39
  | '"' => some 34
  | '?' => some 63
  | '\\' => some 92
  | 'a' => some 7
  | 'b' => some 8
  | 'f' => some 12
  | 'n' => some 10
  | 'r' => some 13
  | 't' => some 9
  | 'v' => some 11
  | _ => none

/-- The byte that stands behind a backslash, and the rest. Up to three octal digits name one. -/
def readEscape : List Char → Option (UInt8 × List Char)
  | [] => none
  | c :: cs =>
    if isOctal c then
      let more := (cs.take 2).takeWhile isOctal
      let n := (c :: more).foldl (fun n d => 8 * n + (d.toNat - '0'.toNat)) 0
      if n < 256 then some (UInt8.ofNat n, cs.drop more.length) else none
    else (simpleEscape? c).map fun byte => (byte, cs)

theorem length_readEscape_lt (h : readEscape cs = some (byte, rest)) : rest.length < cs.length := by
  fun_cases readEscape cs <;> grind [readEscape, Option.map_eq_some_iff]

/-- The bytes up to the closing quote, and the text behind it. A line cannot end before it. -/
def readQuoted (quote : Char) (cs : List Char) : Option (List UInt8 × List Char) :=
  match cs with
  | [] => none
  | c :: cs =>
    if c = quote then some ([], cs)
    else if c = '\n' then none
    else if c = '\\' then
      match _escape : readEscape cs with
      | none => none
      | some (byte, rest) => (readQuoted quote rest).map fun q => (byte :: q.1, q.2)
    else (readQuoted quote cs).map fun q => (String.utf8EncodeChar c ++ q.1, q.2)
termination_by cs.length
decreasing_by
  · have := length_readEscape_lt _escape
    simp only [length_cons]
    omega
  · simp

theorem length_readQuoted_le {quote : Char} (h : readQuoted quote cs = some (bytes, rest)) :
    rest.length ≤ cs.length := by
  fun_induction readQuoted quote cs generalizing bytes with
  | case1 | case3 | case4 => cases h
  | case2 cs =>
    cases h
    exact Nat.le_succ _
  | case5 cs byte after hescape _ _ ih =>
    obtain ⟨q, hq, h⟩ := Option.map_eq_some_iff.mp h
    cases h
    have := length_readEscape_lt hescape
    have := ih hq
    simp only [length_cons]
    omega
  | case6 c cs _ _ _ ih =>
    obtain ⟨q, hq, h⟩ := Option.map_eq_some_iff.mp h
    cases h
    exact Nat.le_succ_of_le (ih hq)

/-- The text behind a comment between `/*` and `*/`. -/
def skipBlock : List Char → Option (List Char)
  | '*' :: '/' :: cs => some cs
  | _ :: cs => skipBlock cs
  | [] => none

theorem length_skipBlock_le (h : skipBlock cs = some rest) : rest.length ≤ cs.length := by
  fun_induction skipBlock cs <;> grind

inductive Token where
  | word (name : String)
  | number (spelling : List Char)
  | char (bytes : List UInt8)
  | string (bytes : List UInt8)
  | punct (p : Punct)
  deriving DecidableEq, Repr

namespace Token

/-- A word. The letter before the quote of a wide constant is none. -/
def readWord (c : Char) (cs : List Char) : Option (List Token × List Char) :=
  let name := c :: cs.takeWhile isWordChar
  let rest := cs.dropWhile isWordChar
  if name = ['L'] ∧ rest.head?.any isQuote then none else some ([word (String.ofList name)], rest)

def readMark (cs : List Char) : Option (List Token × List Char) :=
  match Mark.read? cs with
  | none => none
  | some (.punct p, rest) => some ([punct p], rest)
  | some (.blockComment, rest) => (skipBlock rest).map fun rest => ([], rest)
  | some (.lineComment, rest) => some ([], rest.dropWhile (· ≠ '\n'))

variable {ts : List Token}

theorem length_readMark_le {cs rest : List Char} (h : readMark (c :: cs) = some (ts, rest)) :
    rest.length ≤ cs.length := by
  unfold readMark at h
  split at h
  · cases h
  · next hmark =>
    cases h
    exact Mark.length_read?_le hmark
  · next after hmark =>
    obtain ⟨behind, hskip, h⟩ := Option.map_eq_some_iff.mp h
    cases h
    exact Nat.le_trans (length_skipBlock_le hskip) (Mark.length_read?_le hmark)
  · next after hmark =>
    cases h
    exact Nat.le_trans (after.dropWhile_sublist _).length_le (Mark.length_read?_le hmark)

/-- What a text that is not empty begins with: one token, or none for a blank or a comment. -/
def read (c : Char) (cs : List Char) : Option (List Token × List Char) :=
  if isBlank c then some ([], cs)
  else if isNondigit c then readWord c cs
  else if c.isDigit || (c == '.' && cs.head?.any Char.isDigit) then
    let (s, rest) := readNumber c cs
    some ([number (c :: s)], rest)
  else if c = '\x27' then
    match readQuoted c cs with
    | some (byte :: bytes, rest) => some ([char (byte :: bytes)], rest)
    | _ => none
  else if c = '"' then (readQuoted c cs).map fun q => ([string q.1], q.2)
  else readMark (c :: cs)

theorem length_read_le {cs rest : List Char} (h : read c cs = some (ts, rest)) :
    rest.length ≤ cs.length := by
  unfold read at h
  split at h
  · cases h
    exact Nat.le_refl _
  split at h
  · unfold readWord at h
    dsimp only at h
    split at h
    · cases h
    · cases h
      exact (cs.dropWhile_sublist _).length_le
  split at h
  · cases h
    exact length_readNumber_le c cs
  split at h
  · split at h
    · next hquoted =>
      cases h
      exact length_readQuoted_le hquoted
    · cases h
  split at h
  · obtain ⟨q, hquoted, h⟩ := Option.map_eq_some_iff.mp h
    cases h
    exact length_readQuoted_le hquoted
  · exact length_readMark_le h

end Token

/-- The tokens of a text, if it has any. -/
def tokensFrom (cs : List Char) : Option (List Token) :=
  match cs with
  | [] => some []
  | c :: cs =>
    match _read : Token.read c cs with
    | none => none
    | some (ts, rest) => (tokensFrom rest).map (ts ++ ·)
termination_by cs.length
decreasing_by exact Nat.lt_succ_of_le (Token.length_read_le _read)

def tokens (text : String) : Option (List Token) := tokensFrom text.toList

theorem tokensFrom_nil : tokensFrom [] = some [] := by
  rw [tokensFrom]

theorem tokensFrom_cons {ts : List Token} (h : Token.read c cs = some (ts, rest)) :
    tokensFrom (c :: cs) = (tokensFrom rest).map (ts ++ ·) := by
  rw [tokensFrom]
  split
  · next hnone => cases h.symm.trans hnone
  · next hsome =>
    cases h.symm.trans hsome
    rfl

theorem tokensFrom_token {t : Token} (h : Token.read c cs = some ([t], rest)) :
    tokensFrom (c :: cs) = (tokensFrom rest).map (t :: ·) := tokensFrom_cons h

theorem tokensFrom_blank (rest : List Char) : tokensFrom (' ' :: rest) = tokensFrom rest := by
  have h : Token.read ' ' rest = some ([], rest) := rfl
  rw [tokensFrom_cons h]
  simp

def isWord : List Char → Bool
  | [] => false
  | c :: cs => isNondigit c && cs.all isWordChar

def closers : List Char := [' ', '(', ')', '[', ']', ',']

/-- What follows ends every word, number or constant before it. -/
def Closes (rest : List Char) : Prop := ∀ c ∈ rest.head?, c ∈ closers

theorem Closes.ends_word (h : Closes rest) :
    ∀ c ∈ rest.head?, isWordChar c = false ∧ isQuote c = false := by
  have hall : closers.all (fun c => !isWordChar c && !isQuote c) = true := by decide
  intro c hc
  simpa using all_eq_true.mp hall c (h c hc)

theorem Closes.ends_number (h : Closes rest) (previous : Char) :
    ∀ c ∈ rest.head?, inNumber previous c = false := by
  have hall : closers.all (fun c => !isWordChar c && c != '.' && c != '+' && c != '-') = true := by
    decide
  intro c hc
  have hc := all_eq_true.mp hall c (h c hc)
  simp only [Bool.and_eq_true, bne_iff_ne, Bool.not_eq_true'] at hc
  simp [inNumber, hc]

theorem takeWhile_append {p : Char → Bool} (hcs : cs.all p = true)
    (hrest : ∀ c ∈ rest.head?, p c = false) :
    (cs ++ rest).takeWhile p = cs ∧ (cs ++ rest).dropWhile p = rest := by
  rw [all_eq_true] at hcs
  rw [takeWhile_append_of_pos hcs, dropWhile_append_of_pos hcs]
  cases rest with
  | nil => simp
  | cons c rest =>
    have hc : p c = false := hrest c rfl
    simp [hc]

theorem tokensFrom_word {s : List Char} (hs : isWord s = true) (hrest : Closes rest) :
    tokensFrom (s ++ rest) = (tokensFrom rest).map (.word (String.ofList s) :: ·) := by
  cases s with
  | nil => cases hs
  | cons c cs =>
    obtain ⟨hc, hcs⟩ := (Bool.and_eq_true _ _).mp hs
    obtain ⟨htake, hdrop⟩ := takeWhile_append hcs fun d hd => (hrest.ends_word d hd).1
    have hquote : rest.head?.any isQuote = false := by
      cases rest with
      | nil => rfl
      | cons d rest => exact (hrest.ends_word d rfl).2
    have hblank : isBlank c = false := isBlank_of_isWordChar (by simp [isWordChar, hc])
    refine tokensFrom_token ?_
    simp [Token.read, Token.readWord, hblank, hc, htake, hdrop, hquote]

theorem Mark.table_marks : table.all (fun entry => entry.1.all fun c =>
    !isBlank c && !isWordChar c && !isQuote c) = true := by
  decide +kernel

theorem tokensFrom_punct {s : List Char} {p : Punct} (hs : (s, .punct p) ∈ Mark.table)
    (hdot : s.head? ≠ some '.') (hrest : ∀ c ∈ rest.head?, c ∉ Mark.extensions s) :
    tokensFrom (s ++ rest) = (tokensFrom rest).map (.punct p :: ·) := by
  have hstart := all_eq_true.mp Mark.table_marks _ hs
  have hread := Mark.read?_append hs hrest
  cases s with
  | nil => exact absurd rfl (Mark.table_ne_nil _ hs)
  | cons c cs =>
    have hpoint : c ≠ '.' := by simpa using hdot
    simp only [all_cons, Bool.and_eq_true, Bool.not_eq_true', isWordChar, isQuote,
      Bool.or_eq_false_iff, beq_eq_false_iff_ne] at hstart
    refine tokensFrom_token ?_
    rw [cons_append] at hread
    simp [Token.read, Token.readMark, hstart, hpoint, hread]

theorem readNumber_append {previous : Char}
    (hcs : List.IsChain (fun a b => inNumber a b = true) (previous :: cs)) (hrest : Closes rest) :
    readNumber previous (cs ++ rest) = (cs, rest) := by
  induction cs generalizing previous with
  | nil =>
    cases rest with
    | nil => rfl
    | cons c rest => simp [readNumber, hrest.ends_number previous c rfl]
  | cons c cs ih =>
    rw [isChain_cons_cons] at hcs
    simp [readNumber, hcs.1, ih hcs.2]

theorem tokensFrom_number (hc : c.isDigit = true)
    (hcs : List.IsChain (fun a b => inNumber a b = true) (c :: cs)) (hrest : Closes rest) :
    tokensFrom (c :: cs ++ rest) = (tokensFrom rest).map (.number (c :: cs) :: ·) := by
  have hblank : isBlank c = false := isBlank_of_isWordChar (by simp [isWordChar, hc])
  have hword : isNondigit c = false := isNondigit_of_isDigit hc
  refine tokensFrom_token ?_
  simp [Token.read, hblank, hword, hc, readNumber_append hcs hrest]

theorem tokensFrom_char (h : readQuoted '\x27' cs = some (byte :: bytes, rest)) :
    tokensFrom ('\x27' :: cs) = (tokensFrom rest).map (.char (byte :: bytes) :: ·) := by
  have hword : isNondigit '\x27' = false := by decide
  refine tokensFrom_token ?_
  simp [Token.read, h, isBlank, blanks, hword]

theorem tokensFrom_string (h : readQuoted '"' cs = some (bytes, rest)) :
    tokensFrom ('"' :: cs) = (tokensFrom rest).map (.string bytes :: ·) := by
  have hword : isNondigit '"' = false := by decide
  refine tokensFrom_token ?_
  simp [Token.read, h, isBlank, blanks, hword]

end MiniPascal.C
