import MiniPascal.C.Text
import MiniPascal.Proofs.Identifiers
import MiniPascal.Proofs.PrintedPhrases

/-!
# Printed expressions are read back

The text of an expression is cut into tokens and read by the grammar of C in one way only, and that
is the tree of the expression.
-/

namespace MiniPascal.C

open List

/-! ## The tree of an expression -/

def BinaryOp.punct : BinaryOp → Punct
  | equal => .equalEqual
  | notEqual => .bangEqual
  | less => .less
  | lessEqual => .lessEqual
  | greater => .greater
  | greaterEqual => .greaterEqual
  | add => .plus
  | sub => .minus
  | or => .barBar
  | mul => .star
  | div => .slash
  | mod => .percent
  | and => .ampAmp

def UnaryOp.punct : UnaryOp → Punct
  | minus => .minus
  | not => .bang

/-- A constant, which has no sign in C, with a minus before it if it is negative. -/
def signed (negative : Bool) (t : Tree) : Tree := if negative then .unary .minus t else t

def isNegative (x : Float) : Bool := !decide (x.toBits < 0x8000000000000000)

namespace Var

def isPointer (v : Var) : Bool := v.byReference && !v.isResult

def written (v : Var) : String := if v.isResult then v.name else identifier v.name

def tree (v : Var) : Tree :=
  if v.isPointer then .unary .star (.name v.written) else .name v.written

end Var

/-- An index with its lower bound taken off: for a negative bound, its opposite is added. -/
def offsetTree (index : Tree) (lower : Int64) : Tree :=
  if lower = 0 then index
  else if 0 < lower.toInt then .binary .minus index (.int lower.toInt.natAbs)
  else .binary .plus index (.int lower.toInt.natAbs)

namespace Expr

/-- The address of an expression that has one: a pointer is its own. -/
def addressTree (t : Tree) : Expr → Tree
  | var v => if v.isPointer then .name v.written else .unary .amp t
  | element _ _ => .unary .amp t
  | _ => t

mutual

def tree : Expr → Tree
  | int v => signed (v.toInt < 0) (.int v.toInt.natAbs)
  | real x => signed (isNegative x) (.real (Decimal.size x))
  | char c => .char (String.utf8EncodeChar c)
  | string s => .string (s.toList.flatMap String.utf8EncodeChar)
  | var v => v.tree
  | element v subscripts => subscriptsTree v.tree subscripts
  | call name arguments => .call (.name (identifier name)) (argumentTrees arguments)
  | binary op l r => .binary op.punct l.tree r.tree
  | unary op e => .unary op.punct e.tree
  | cast type e => .cast type e.tree

def subscriptsTree (array : Tree) : List (Expr × Int64) → Tree
  | [] => array
  | (e, lower) :: rest => subscriptsTree (.subscript array (offsetTree e.tree lower)) rest

def argumentTrees : List (Expr × Bool) → List Tree
  | [] => []
  | (e, byReference) :: rest =>
    (if byReference then e.addressTree e.tree else e.tree) :: argumentTrees rest

end

end Expr

/-- The keywords that are not reserved, and so would be written as they are. -/
def unreserved : List String := keywords.filter fun w => !reserved.contains w

def Nameable (name : String) : Prop := isWord name.toList = true ∧ name ∉ unreserved

def Var.Nameable (v : Var) : Prop := if v.isResult then IsName v.name else C.Nameable v.name

namespace Expr

mutual

/-- The expressions whose texts C reads as what they are. -/
def Printable : Expr → Prop
  | int _ | char _ | string _ => True
  | real x => x.isNaN = false ∧ x.isInf = false
  | var v => v.Nameable
  | element v subscripts =>
    v.Nameable ∧ (v.isPointer = true → subscripts.isEmpty = true) ∧ PrintableSubscripts subscripts
  | call name arguments => Nameable name ∧ PrintableArguments arguments
  | binary _ l r => l.Printable ∧ r.Printable
  | unary op e => e.Printable ∧ (op = .minus → e.text.toList.head? ≠ some '-')
  | cast _ e => e.Printable

def PrintableSubscripts : List (Expr × Int64) → Prop
  | [] => True
  | (e, _) :: rest => e.Printable ∧ PrintableSubscripts rest

def PrintableArguments : List (Expr × Bool) → Prop
  | [] => True
  | (e, _) :: rest => e.Printable ∧ PrintableArguments rest

end

end Expr

/-! ## Every expression is printed as its tree -/

theorem isName_identifier {name : String} (h : Nameable name) : IsName (identifier name) := by
  obtain ⟨hword, hunreserved⟩ := h
  by_cases hmem : name ∈ reserved
  · have hwords : ∀ w ∈ reserved, isWord (w.toList ++ ['_']) = true := by decide +kernel
    have hlast : ∀ w ∈ keywords, w.toList.getLast? ≠ some '_' := by decide +kernel
    rw [identifier_of_mem hmem, IsName, String.toList_append]
    refine ⟨hwords name hmem, fun hkeyword => hlast _ hkeyword ?_⟩
    rw [String.toList_append]
    exact getLast?_concat
  · rw [identifier_of_not_mem hmem]
    refine ⟨hword, fun hkeyword => hunreserved (mem_filter.mpr ⟨hkeyword, ?_⟩)⟩
    simpa using hmem

theorem Var.isName_written {v : Var} (h : v.Nameable) : IsName v.written := by
  unfold Var.Nameable at h
  unfold Var.written
  split
  · next hresult => rwa [if_pos hresult] at h
  · next hresult =>
    rw [if_neg hresult] at h
    exact isName_identifier h

variable {cs : List Char} {v : Number} {t : Tree} {c : Char}

theorem not_contains_extensions (hc : isWordChar c = true) (s : List Char) :
    (!(Mark.extensions s).contains c) = true := by
  rw [Bool.not_eq_true', Bool.eq_false_iff]
  intro hmem
  obtain ⟨entry, hentry, h⟩ := mem_filterMap.mp (contains_iff_mem.mp hmem)
  split at h
  · have hmarks := all_eq_true.mp Mark.table_marks entry hentry
    have hnot := all_eq_true.mp hmarks c (mem_of_getElem? h)
    simp [hc] at hnot
  · cases h

theorem prints_signed (h : IsNumeral cs v) (hv : v.Reads t) (negative : Bool) :
    Prints 1 ((if negative then ['-'] else []) ++ cs) (signed negative t) := by
  have hnumber : ∀ n ≤ 13, Prints n cs t := fun n hn =>
    (Prints.number h hv).raise (Nat.zero_le n) hn
  cases negative with
  | false => exact hnumber 1 (by decide)
  | true =>
    refine Prints.unary (s := ['-']) (by decide +kernel) (by decide) rfl ?_ (hnumber 2 (by decide))
    exact h.starts.of_imp fun c hc => not_contains_extensions (by simp [isWordChar, hc]) _

theorem toList_integer_text (v : Int64) : (Integer.text v).toList =
    (if decide (v.toInt < 0) then ['-'] else []) ++ Nat.toDigits 10 v.toInt.natAbs := by
  rw [Integer.text, toList_toString_int]
  simp

theorem isFinite_eq (x : Float) : x.isFinite = (!x.isNaN && !x.isInf) := by
  change x.toModel.unpack.isFinite = (!x.toModel.unpack.isNaN && !x.toModel.unpack.isInf)
  cases x.toModel.unpack <;> rfl

theorem toList_realText {x : Float} (h : x.isNaN = false ∧ x.isInf = false) :
    (Decimal.realText x).toList =
      (if isNegative x then ['-'] else []) ++ (Decimal.magnitude x).text.toList := by
  have hzero : Decimal.text ⟨0, 0⟩ = "0.0" := by decide +kernel
  have htext : Decimal.realText x =
      (if x.toBits < 0x8000000000000000 then "" else "-") ++ (Decimal.magnitude x).text := by
    simp only [Decimal.realText, Decimal.magnitude, h, Bool.false_eq_true, if_false]
    split <;> simp [*]
  rw [htext, String.toList_append]
  by_cases hsign : x.toBits < 0x8000000000000000 <;> simp [isNegative, hsign]

theorem Var.text_eq (v : Var) : v.text = if v.isPointer then "*" ++ v.written else v.written := by
  unfold Var.text Var.written Var.isPointer
  cases v.isResult <;> cases v.byReference <;> rfl

theorem IsName.starts {s : String} (h : IsName s) : Starts isWordChar s.toList := by
  have hword := h.1
  cases hs : s.toList with
  | nil =>
    rw [hs] at hword
    cases hword
  | cons c cs =>
    rw [hs] at hword
    exact ⟨c, rfl, by simp [isWordChar, ((Bool.and_eq_true _ _).mp hword).1]⟩

theorem prints_var {v : Var} (h : v.Nameable) : Prints 1 v.text.toList v.tree := by
  have hname := v.isName_written h
  have hprints : ∀ n ≤ 13, Prints n v.written.toList (.name v.written) :=
    fun n hn => (Prints.name hname).raise (Nat.zero_le n) hn
  rw [v.text_eq, Var.tree]
  split
  · rw [String.toList_append]
    refine Prints.unary (s := ['*']) (by decide +kernel) (by decide) rfl ?_ (hprints 2 (by decide))
    exact hname.starts.of_imp fun c hc => not_contains_extensions hc _
  · exact hprints 1 (by decide)

/-- The marks that the text of an expression can begin with. -/
def firstMarks : List Char := ['-', '*', '(', '\x27', '"']

def isFirst (c : Char) : Bool := isWordChar c || firstMarks.contains c

theorem isFirst_of_isWordChar (h : isWordChar c = true) : isFirst c = true := by
  simp [isFirst, h]

theorem Var.starts {v : Var} (h : v.Nameable) : Starts isFirst v.text.toList := by
  rw [v.text_eq]
  split
  · exact ⟨'*', by simp, by decide⟩
  · exact (v.isName_written h).starts.of_imp fun _ => isFirst_of_isWordChar

theorem IsNumeral.starts_signed (h : IsNumeral cs v) (negative : Bool) :
    Starts isFirst ((if negative then ['-'] else []) ++ cs) := by
  cases negative with
  | false => exact h.starts.of_imp fun c hc => isFirst_of_isWordChar (by simp [isWordChar, hc])
  | true => exact ⟨'-', rfl, by decide⟩

theorem Expr.starts {e : Expr} (h : e.Printable) : Starts isFirst e.text.toList := by
  cases e with
  | int v =>
    rw [Expr.text, toList_integer_text]
    exact (isNumeral_toDigits _).starts_signed _
  | real x =>
    rw [Expr.text, toList_realText h]
    exact (isNumeral_decimal _).starts_signed _
  | char c => exact ⟨'\x27', by simp [Expr.text, charLiteral], by decide⟩
  | string s => exact ⟨'"', by simp [Expr.text, stringLiteral], by decide⟩
  | var v => exact v.starts h
  | element v subscripts =>
    rw [Expr.text, String.toList_append]
    exact (v.starts h.1).append _
  | call name arguments =>
    simp only [Expr.text, String.toList_append, append_assoc]
    exact ((isName_identifier h.1).starts.of_imp fun _ => isFirst_of_isWordChar).append _
  | binary | unary | cast => exact ⟨'(', by simp [Expr.text], by decide⟩

theorem BinaryOp.mem_table (op : BinaryOp) :
    (op.text.toList, .punct op.punct) ∈ Mark.table ∧ op.text.toList.head? ≠ some '.' ∧
      ' ' ∉ Mark.extensions op.text.toList := by
  cases op <;> decide +kernel

theorem BinaryOp.exists_level (op : BinaryOp) :
    ∃ n, op.punct.level? = some (n + 1) ∧ 2 ≤ n ∧ n < 12 := by
  cases op <;> exact ⟨_, rfl, by decide, by decide⟩

theorem prints_operation (op : BinaryOp) {ds : List Char} {u : Tree} (h : Prints 2 cs t)
    (h' : Prints 2 ds u) :
    Prints 12 (cs ++ ' ' :: (op.text.toList ++ ' ' :: ds)) (.binary op.punct t u) := by
  obtain ⟨hmem, hdot, hblank⟩ := op.mem_table
  obtain ⟨n, hlevel, hlow, hhigh⟩ := op.exists_level
  exact (Prints.binary hmem hdot hblank hlevel (h.raise (by omega) (by omega))
    (h'.raise hlow (by omega))).raise (by omega) (by omega)

theorem not_contains_extensions_of_isFirst {s : List Char} (hc : isFirst c = true)
    (hs : c ∈ firstMarks → (!(Mark.extensions s).contains c) = true) :
    (!(Mark.extensions s).contains c) = true := by
  rcases (Bool.or_eq_true _ _).mp hc with hword | hmark
  · exact not_contains_extensions hword s
  · exact hs (contains_iff_mem.mp hmark)

theorem prints_operator {op : UnaryOp} (h : Prints 2 cs t) (hfirst : Starts isFirst cs)
    (hminus : op = .minus → cs.head? ≠ some '-') :
    Prints 1 (op.text.toList ++ cs) (.unary op.punct t) := by
  obtain ⟨c, hc, hfirst⟩ := hfirst
  cases op with
  | minus =>
    have hothers : firstMarks.all (fun d => d == '-' || !(Mark.extensions ['-']).contains d) =
        true := by
      decide +kernel
    have hne : (c == '-') = false := beq_false_of_ne fun heq => hminus rfl (heq ▸ hc)
    refine Prints.unary (s := ['-']) (by decide +kernel) (by decide) rfl ⟨c, hc, ?_⟩ h
    refine not_contains_extensions_of_isFirst hfirst fun hmem => ?_
    have hmark := all_eq_true.mp hothers c hmem
    rwa [hne, Bool.false_or] at hmark
  | not =>
    have hothers : firstMarks.all (fun d => !(Mark.extensions ['!']).contains d) = true := by
      decide +kernel
    refine Prints.unary (s := ['!']) (by decide +kernel) (by decide) rfl ⟨c, hc, ?_⟩ h
    exact not_contains_extensions_of_isFirst hfirst (all_eq_true.mp hothers c)

theorem prints_offset (h : Prints 2 cs t) (lower : Int64) :
    Prints 13 (cs ++ (lowerText lower).toList) (offsetTree t lower) := by
  have hbound := (Prints.number (isNumeral_toDigits lower.toInt.natAbs) .int).raise (m := 2)
    (by decide) (by decide)
  unfold lowerText offsetTree
  split
  · simpa using h.raise (m := 13) (by decide) (by decide)
  split
  · next hpos =>
    rw [String.toList_append, toList_toString_int, if_neg (by omega)]
    exact (prints_operation .sub h hbound).raise (by decide) (by decide)
  · next hneg =>
    rw [String.toList_append, toList_toString_int, if_neg (by omega), Int.natAbs_neg]
    exact (prints_operation .add h hbound).raise (by decide) (by decide)

theorem prints_ampersand (h : Prints 2 cs t) (hfirst : Starts isFirst cs) :
    Prints 2 ('&' :: cs) (.unary .amp t) := by
  have hothers : firstMarks.all (fun d => !(Mark.extensions ['&']).contains d) = true := by
    decide +kernel
  refine (Prints.unary (s := ['&']) (by decide +kernel) (by decide) rfl ?_ h).raise (by decide)
    (by decide)
  exact hfirst.of_imp fun c hc =>
    not_contains_extensions_of_isFirst hc (all_eq_true.mp hothers c)

theorem prints_address {e : Expr} (h : e.Printable) (hprints : Prints 2 e.text.toList e.tree) :
    Prints 2 (e.address e.text).toList (e.addressTree e.tree) := by
  have hplace := prints_ampersand hprints (Expr.starts h)
  cases e with
  | var v =>
    rw [Expr.address, Expr.addressTree]
    by_cases hpointer : v.isPointer = true
    · have hwritten : v.written = identifier v.name :=
        if_neg (by simpa using ((Bool.and_eq_true _ _).mp hpointer).2)
      rw [if_pos hpointer, if_pos (show (v.byReference && !v.isResult) = true from hpointer),
        ← hwritten]
      exact (Prints.name (v.isName_written h)).raise (by decide) (by decide)
    · rw [if_neg hpointer, if_neg (show ¬(v.byReference && !v.isResult) = true from hpointer),
        String.toList_append]
      exact hplace
  | element v subscripts => simpa [Expr.address, Expr.addressTree] using hplace
  | int | real | char | string | call | binary | unary | cast => exact hprints

theorem prints_argument {e : Expr} (byReference : Bool) (h : e.Printable)
    (hprints : Prints 2 e.text.toList e.tree) :
    Prints 12 (if byReference then e.address e.text else e.text).toList
      (if byReference then e.addressTree e.tree else e.tree) := by
  cases byReference with
  | false => exact hprints.raise (by decide) (by decide)
  | true => exact (prints_address h hprints).raise (by decide) (by decide)

mutual

theorem Expr.prints : ∀ e : Expr, e.Printable → Prints 2 e.text.toList e.tree
  | .int v, _ => by
    rw [Expr.text, Expr.tree, toList_integer_text]
    exact (prints_signed (isNumeral_toDigits _) .int _).raise (by decide) (by decide)
  | .real x, h => by
    have hfinite : x.isFinite = true := by rw [isFinite_eq, h.1, h.2]; rfl
    have hreads := Number.Reads.real (Decimal.roundsTo_magnitude hfinite)
    rw [Expr.text, Expr.tree, toList_realText h]
    exact (prints_signed (isNumeral_decimal _) hreads _).raise (by decide) (by decide)
  | .char c, _ => (Prints.char c).raise (by decide) (by decide)
  | .string s, _ => (Prints.string s).raise (by decide) (by decide)
  | .var v, h => (prints_var h).raise (by decide) (by decide)
  | .element v subscripts, h => by
    rw [Expr.text, Expr.tree, String.toList_append]
    by_cases hpointer : v.isPointer = true
    · rw [List.isEmpty_iff.mp (h.2.1 hpointer)]
      simpa [Expr.subscriptsText, Expr.subscriptsTree] using
        (prints_var h.1).raise (m := 2) (by decide) (by decide)
    · have hname : Prints 0 v.text.toList v.tree := by
        rw [v.text_eq, Var.tree, if_neg hpointer, if_neg hpointer]
        exact .name (v.isName_written h.1)
      exact (Expr.prints_subscripts subscripts h.2.2 hname).raise (by decide) (by decide)
  | .call name arguments, h => by
    have hcall := (Prints.name (isName_identifier h.1)).call (Expr.prints_arguments arguments h.2)
    rw [Expr.tree]
    simpa [Expr.text] using hcall.raise (m := 2) (by decide) (by decide)
  | .binary op l r, h => by
    have hgroup := (prints_operation op (Expr.prints l h.1) (Expr.prints r h.2)).raise
      (m := 13) (by decide) (by decide)
    rw [Expr.tree]
    simpa [Expr.text] using hgroup.group.raise (m := 2) (by decide) (by decide)
  | .unary op e, h => by
    have hgroup := (prints_operator (Expr.prints e h.1) (Expr.starts h.1) h.2).raise
      (m := 13) (by decide) (by decide)
    rw [Expr.tree]
    simpa [Expr.text] using hgroup.group.raise (m := 2) (by decide) (by decide)
  | .cast type e, h => by
    rw [Expr.tree]
    simpa [Expr.text] using (Expr.prints e h).cast type

theorem Expr.prints_subscripts : ∀ (subscripts : List (Expr × Int64)) {cs : List Char} {t : Tree},
    Expr.PrintableSubscripts subscripts → Prints 0 cs t →
      Prints 0 (cs ++ (Expr.subscriptsText subscripts).toList) (Expr.subscriptsTree t subscripts)
  | [], cs, t, _, hprints => by simpa [Expr.subscriptsText, Expr.subscriptsTree] using hprints
  | (e, lower) :: rest, cs, t, h, hprints => by
    have hindex := hprints.subscript (prints_offset (Expr.prints e h.1) lower)
    rw [Expr.subscriptsTree]
    simpa [Expr.subscriptsText] using Expr.prints_subscripts rest h.2 hindex

theorem Expr.prints_arguments : ∀ arguments : List (Expr × Bool),
    Expr.PrintableArguments arguments →
      Prints.Arguments (Expr.argumentsText arguments).toList (Expr.argumentTrees arguments)
  | [], _ => ⟨[], .nil, .none⟩
  | [(e, byReference)], h => by
    obtain ⟨ts, hspells, hderives⟩ := prints_argument byReference h.1 (Expr.prints e h.1)
    exact ⟨ts, hspells, .last hderives⟩
  | (e, byReference) :: next :: rest, h => by
    have hfirst := prints_argument byReference h.1 (Expr.prints e h.1)
    have hrest := Expr.prints_arguments (next :: rest) h.2
    simpa [Expr.argumentsText, Expr.argumentTrees] using hfirst.cons hrest

end

/-- C reads the text of an expression in one way, and that is the expression. -/
theorem printed_text_parses_iff (e : Expr) (h : e.Printable) (t : Tree) :
    Parses e.text t ↔ t = e.tree :=
  ((e.prints h).raise (by decide) (by decide)).parses_iff

theorem size_tenth : Decimal.size 0.1 = 3602879701896397 / 36028797018963968 := by
  have hbinary : Decimal.binary 0.1 = ⟨7205759403792794, -56⟩ := by decide +kernel
  rw [Decimal.size_eq (by decide +kernel), hbinary, Decimal.Binary.value]
  norm_num

theorem printed_call_parses :
    Parses "f(&a[(i - -1) + 3], p, (double)*p, (!int_), 0.1)" =
      (· = .call (.name "f")
        [.unary .amp (.subscript (.name "a") (.binary .plus
          (.binary .minus (.name "i") (.unary .minus (.int 1))) (.int 3))),
         .name "p", .cast .double (.unary .star (.name "p")), .unary .bang (.name "int_"),
         .real (3602879701896397 / 36028797018963968)]) := by
  funext t
  have h := printed_text_parses_iff
    (.call "f"
      [(.element ⟨"a", false, false⟩
          [(.binary .sub (.var ⟨"i", false, false⟩) (.int (-1)), -3)], true),
       (.var ⟨"p", true, false⟩, true), (.cast .double (.var ⟨"p", true, false⟩), false),
       (.unary .not (.var ⟨"int", false, false⟩), false), (.real 0.1, false)])
    (by
      simp only [Expr.Printable, Expr.PrintableArguments, Expr.PrintableSubscripts, Var.Nameable,
        Nameable]
      decide +kernel) t
  rw [← size_tenth]
  exact propext h

end MiniPascal.C
