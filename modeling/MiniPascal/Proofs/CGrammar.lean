import MiniPascal.C.Tree
import MiniPascal.Proofs.CTokens
import MiniPascal.Proofs.Rounding

/-!
# Expressions of C

There is one level for each precedence: postfix expressions are on level 0, unary ones on 1, casts
on 2, the binary operators from `*` to `||` on 3 to 12, and the comma is on 13. Assignments, the
conditional operator and `sizeof` are left out. The grammar is unambiguous: what can follow an
expression of a level tells where it ends.
-/

namespace MiniPascal

open List

namespace C

def keywords : List String :=
  ["auto", "break", "case", "char", "const", "continue", "default", "do", "double", "else", "enum",
   "extern", "float", "for", "goto", "if", "inline", "int", "long", "register", "restrict",
   "return", "short", "signed", "sizeof", "static", "struct", "switch", "typedef", "union",
   "unsigned", "void", "volatile", "while", "_Bool", "_Complex", "_Imaginary"]

/-- What C reads an expression as. Operators are the punctuators that are written for them, and a
real is the double that its digits round to. -/
inductive Tree where
  | name (name : String)
  | int (value : Nat)
  | real (value : ℚ)
  | char (bytes : List UInt8)
  | string (bytes : List UInt8)
  | subscript (array index : Tree)
  | call (function : Tree) (arguments : List Tree)
  | member (op : Punct) (object : Tree) (name : String)
  | suffix (op : Punct) (operand : Tree)
  | unary (op : Punct) (operand : Tree)
  | cast (type : Ty) (operand : Tree)
  | binary (op : Punct) (left right : Tree)

def digits? (cs : List Char) : Option Nat :=
  if cs ≠ [] ∧ cs.all Char.isDigit then some (Decimal.ofDigits cs) else none

def scale? : List Char → Option Int
  | [] => some 0
  | c :: cs =>
    if c = 'e' ∨ c = 'E' then
      match cs with
      | '-' :: ds => (digits? ds).map fun (n : Nat) => -(n : Int)
      | '+' :: ds => (digits? ds).map fun (n : Nat) => (n : Int)
      | ds => (digits? ds).map fun (n : Nat) => (n : Int)
    else none

inductive Number where
  | int (value : Nat)
  | real (value : ℚ)

/-- The number that is spelled: an integer, or a real if it has a point or an exponent. Integers
are decimal here, and no number has a suffix. -/
def number? (s : List Char) : Option Number :=
  let whole := s.takeWhile Char.isDigit
  match s.dropWhile Char.isDigit with
  | [] => if whole = ['0'] ∨ whole.head? ≠ some '0' then (digits? whole).map .int else none
  | '.' :: cs =>
    let fraction := cs.takeWhile Char.isDigit
    match digits? (whole ++ fraction), scale? (cs.dropWhile Char.isDigit) with
    | some n, some k => some (.real (Decimal.value ⟨n, k - fraction.length⟩))
    | _, _ => none
  | cs =>
    match digits? whole, scale? cs with
    | some n, some k => some (.real (Decimal.value ⟨n, k⟩))
    | _, _ => none

inductive Number.Reads : Number → Tree → Prop where
  | int {n : Nat} : Reads (.int n) (.int n)
  | real {q : ℚ} {x : Float} (h : Decimal.RoundsTo q x) : Reads (.real q) (.real (Decimal.size x))

theorem Number.Reads.unique {v : Number} {t u : Tree} (h : v.Reads t) (h' : v.Reads u) : u = t := by
  cases h with
  | int =>
    cases h'
    rfl
  | real h =>
    cases h' with
    | real h' => rw [h'.size_unique h]

def Ty.tokens : Ty → List Token
  | int => [.word "int"]
  | double => [.word "double"]
  | char => [.word "char"]
  | string => [.word "const", .word "char", .punct .star]
  | void => [.word "void"]

namespace Punct

def level? : Punct → Option Nat
  | star | slash | percent => some 3
  | plus | minus => some 4
  | shiftLeft | shiftRight => some 5
  | less | greater | lessEqual | greaterEqual => some 6
  | equalEqual | bangEqual => some 7
  | amp => some 8
  | caret => some 9
  | bar => some 10
  | ampAmp => some 11
  | barBar => some 12
  | comma => some 13
  | _ => none

/-- The level of the operand of a unary operator. -/
def operandLevel? : Punct → Option Nat
  | increment | decrement => some 1
  | amp | star | plus | minus | tilde | bang => some 2
  | _ => none

theorem operandLevel?_le {op : Punct} {n : Nat} (h : op.operandLevel? = some n) :
    1 ≤ n ∧ n ≤ 2 := by
  cases op <;> cases h <;> decide

end Punct

mutual

/-- The expressions of a level that are no shorter one of the same level with a step behind it. -/
inductive Base : Nat → List Token → Tree → Prop where
  | name {s : String} (h : s ∉ keywords) : Base 0 [.word s] (.name s)
  | number {s : List Char} {v : Number} {t : Tree} (h : number? s = some v) (hv : v.Reads t) :
      Base 0 [.number s] t
  | char {bytes : List UInt8} : Base 0 [.char bytes] (.char bytes)
  | string {bytes : List UInt8} : Base 0 [.string bytes] (.string bytes)
  | group {ts : List Token} {t : Tree} (h : Derives 13 ts t) :
      Base 0 (.punct .openParen :: (ts ++ [.punct .closeParen])) t
  | unary {op : Punct} {n : Nat} {ts : List Token} {t : Tree} (hop : op.operandLevel? = some n)
      (h : Derives n ts t) : Base 1 (.punct op :: ts) (.unary op t)
  | cast {type : Ty} {ts : List Token} {t : Tree} (h : Derives 2 ts t) :
      Base 2 (.punct .openParen :: (type.tokens ++ .punct .closeParen :: ts)) (.cast type t)
  | raise {n : Nat} {ts : List Token} {t : Tree} (hn : n < 13) (h : Derives n ts t) :
      Base (n + 1) ts t

inductive Derives : Nat → List Token → Tree → Prop where
  | base {n : Nat} {ts : List Token} {t : Tree} (h : Base n ts t) : Derives n ts t
  | further {n : Nat} {ts us : List Token} {t u : Tree} (h : Derives n ts t)
      (hstep : Step n t us u) : Derives n (ts ++ us) u

/-- The tokens that make a new expression of a level behind one of the same level. -/
inductive Step : Nat → Tree → List Token → Tree → Prop where
  | subscript {f t : Tree} {ts : List Token} (h : Derives 13 ts t) :
      Step 0 f (.punct .openBracket :: (ts ++ [.punct .closeBracket])) (.subscript f t)
  | call {f : Tree} {ts : List Token} {args : List Tree} (h : Arguments ts args) :
      Step 0 f (.punct .openParen :: (ts ++ [.punct .closeParen])) (.call f args)
  | member {f : Tree} {op : Punct} {s : String} (hop : op = .dot ∨ op = .arrow)
      (hs : s ∉ keywords) : Step 0 f [.punct op, .word s] (.member op f s)
  | suffix {f : Tree} {op : Punct} (hop : op = .increment ∨ op = .decrement) :
      Step 0 f [.punct op] (.suffix op f)
  | binary {n : Nat} {l r : Tree} {op : Punct} {ts : List Token} (hop : op.level? = some (n + 1))
      (h : Derives n ts r) : Step (n + 1) l (.punct op :: ts) (.binary op l r)

/-- Arguments between commas. The comma between them is no operator. -/
inductive Arguments : List Token → List Tree → Prop where
  | none : Arguments [] []
  | last {ts : List Token} {t : Tree} (h : Derives 12 ts t) : Arguments ts [t]
  | more {ts us : List Token} {t u : Tree} {args : List Tree} (h : Derives 12 ts t)
      (hmore : Arguments us (u :: args)) :
      Arguments (ts ++ .punct .comma :: us) (t :: u :: args)

end

inductive Steps (n : Nat) : Tree → List Token → Tree → Prop where
  | nil {t : Tree} : Steps n t [] t
  | cons {t u v : Tree} {us vs : List Token} (h : Step n t us u) (hmore : Steps n u vs v) :
      Steps n t (us ++ vs) v

/-- The level of the steps that a token begins, behind an expression. -/
def Token.rank? : Token → Option Nat
  | .punct .openBracket | .punct .openParen | .punct .dot | .punct .arrow
  | .punct .increment | .punct .decrement => some 0
  | .punct p => p.level?
  | _ => none

/-- What follows begins no step of a level below `n`. -/
def From (n : Nat) (rest : List Token) : Prop :=
  ∀ t ∈ rest.head?, ∀ k, t.rank? = some k → n ≤ k

namespace From

theorem nil (n : Nat) : From n [] := nofun

theorem of_none {n : Nat} {t : Token} {ts : List Token} (h : t.rank? = none) :
    From n (t :: ts) := by
  intro u hu k hk
  cases hu
  cases h.symm.trans hk

theorem of_le {m n : Nat} {rest : List Token} (h : From n rest) (hmn : m ≤ n) : From m rest :=
  fun t ht k hk => Nat.le_trans hmn (h t ht k hk)

theorem comma {ts : List Token} : From 13 (.punct .comma :: ts) := by
  intro u hu k hk
  cases hu
  cases hk
  exact Nat.le_refl 13

theorem three {rest : List Token} (h : From 1 rest) : From 3 rest := by
  intro t ht k hk
  have hall : ∀ p : Punct, ∀ k, (Token.punct p).rank? = some k → 1 ≤ k → 3 ≤ k := by
    intro p
    cases p <;> simp [Token.rank?, Punct.level?]
  have hone := h t ht k hk
  cases t with
  | punct p => exact hall p k hk hone
  | word | number | char | string => cases hk

end From

variable {n : Nat} {t : Tree} {us ts : List Token}

theorem Token.rank?_of_level? {p : Punct} (h : p.level? = some n) :
    (Token.punct p).rank? = some n := by
  cases p <;> first | exact h | cases h

variable {u : Tree} {rest : List Token}

theorem Step.exists_rank (h : Step n t us u) :
    ∃ tok rest, us = tok :: rest ∧ tok.rank? = some n := by
  cases h with
  | subscript | call => exact ⟨_, _, rfl, rfl⟩
  | member hop | suffix hop => rcases hop with rfl | rfl <;> exact ⟨_, _, rfl, rfl⟩
  | binary hop => exact ⟨_, _, rfl, Token.rank?_of_level? hop⟩

theorem Step.from (h : Step n t us u) : From n (us ++ rest) := by
  obtain ⟨tok, more, rfl, hrank⟩ := h.exists_rank
  intro v hv k hk
  cases hv
  cases hrank.symm.trans hk
  exact Nat.le_refl n

theorem Steps.from {n : Nat} {t u : Tree} {us rest : List Token} (h : Steps n t us u)
    (hrest : From n rest) : From n (us ++ rest) := by
  cases h with
  | nil => exact hrest
  | cons hstep =>
    rw [append_assoc]
    exact hstep.from

theorem Steps.eq_nil (h : Steps n t us u) (hrest : From (n + 1) (us ++ rest)) :
    us = [] ∧ u = t := by
  cases h with
  | nil => exact ⟨rfl, rfl⟩
  | cons hstep =>
    obtain ⟨tok, more, rfl, hrank⟩ := hstep.exists_rank
    exact absurd (hrest tok rfl n hrank) (Nat.not_succ_le_self n)

/-- Of two expressions at one place, the second goes on behind the first. If no step of their level
follows the first, both are the same. -/
theorem Steps.eq_of_append {r r' : List Token} (h : ∃ vs, us = ts ++ vs ∧ Steps n t vs u)
    (heq : ts ++ r = us ++ r') (hr : From (n + 1) r) : us = ts ∧ u = t ∧ r' = r := by
  obtain ⟨vs, rfl, hsteps⟩ := h
  rw [append_assoc, append_cancel_left_eq] at heq
  obtain ⟨rfl, rfl⟩ := hsteps.eq_nil (heq ▸ hr)
  exact ⟨append_nil ts, rfl, heq.symm⟩

theorem Steps.snoc {v : Tree} {vs : List Token} (h : Steps n t us u) (hstep : Step n u vs v) :
    Steps n t (us ++ vs) v := by
  induction h with
  | nil =>
    rw [nil_append, ← append_nil vs]
    exact .cons hstep .nil
  | cons hfirst _ ih =>
    rw [append_assoc]
    exact .cons hfirst (ih hstep)

/-- Whether an expression of a level can begin with a token. -/
def Token.Opens (n : Nat) : Token → Prop
  | .word s => s ∉ keywords
  | .punct p => p = .openParen ∨ (0 < n ∧ p.operandLevel?.isSome = true)
  | _ => True

theorem Token.Opens.succ {tok : Token} (h : tok.Opens n) : tok.Opens (n + 1) := by
  cases tok with
  | punct p => exact h.imp_right fun h => ⟨Nat.succ_pos n, h.2⟩
  | word | number | char | string => exact h

mutual

theorem Base.exists_opens {n : Nat} {ts : List Token} {t : Tree} :
    Base n ts t → ∃ tok rest, ts = tok :: rest ∧ tok.Opens n
  | .name h => ⟨_, _, rfl, h⟩
  | .number .. => ⟨_, _, rfl, trivial⟩
  | .char => ⟨_, _, rfl, trivial⟩
  | .string => ⟨_, _, rfl, trivial⟩
  | .group _ => ⟨_, _, rfl, .inl rfl⟩
  | .unary hop _ => ⟨_, _, rfl, .inr ⟨Nat.one_pos, by rw [hop]; rfl⟩⟩
  | .cast _ => ⟨_, _, rfl, .inl rfl⟩
  | .raise _ h => by
    obtain ⟨tok, rest, hts, hopens⟩ := Derives.exists_opens h
    exact ⟨tok, rest, hts, hopens.succ⟩

theorem Derives.exists_opens {n : Nat} {ts : List Token} {t : Tree} :
    Derives n ts t → ∃ tok rest, ts = tok :: rest ∧ tok.Opens n
  | .base h => Base.exists_opens h
  | .further h _ => by
    obtain ⟨tok, rest, rfl, hopens⟩ := Derives.exists_opens h
    exact ⟨tok, _, rfl, hopens⟩

end

mutual

theorem Base.exists_opens_of_paren {n : Nat} {ts rest : List Token} {t : Tree} :
    Base n ts t → n ≤ 1 → ts = .punct .openParen :: rest →
      ∃ tok more m, rest = tok :: more ∧ tok.Opens m
  | .group h, _, hts => by
    obtain ⟨tok, more, rfl, hopens⟩ := h.exists_opens
    cases hts
    exact ⟨tok, _, 13, rfl, hopens⟩
  | .unary hop _, _, hts => by
    cases hts
    cases hop
  | .raise _ h, hn, hts => Derives.exists_opens_of_paren h (Nat.le_of_succ_le hn) hts

theorem Derives.exists_opens_of_paren {n : Nat} {ts rest : List Token} {t : Tree} :
    Derives n ts t → n ≤ 1 → ts = .punct .openParen :: rest →
      ∃ tok more m, rest = tok :: more ∧ tok.Opens m
  | .base h, hn, hts => Base.exists_opens_of_paren h hn hts
  | .further h _, hn, hts => by
    obtain ⟨first, others, hfirst, _⟩ := h.exists_opens
    rw [hfirst, cons_append, List.cons.injEq] at hts
    obtain ⟨tok, more, m, rfl, hopens⟩ :=
      Derives.exists_opens_of_paren h hn (by rw [hfirst, hts.1])
    exact ⟨tok, _, m, hts.2.symm, hopens⟩

end

theorem Ty.exists_keyword (type : Ty) : ∃ s rest, type.tokens = .word s :: rest ∧ s ∈ keywords := by
  cases type <;> exact ⟨_, _, rfl, by decide⟩

theorem Derives.ne_cast {r : List Token} {type : Ty} (h : Derives 1 ts t) :
    ts ++ r ≠ .punct .openParen :: (type.tokens ++ rest) := by
  intro heq
  obtain ⟨first, others, hts, _⟩ := h.exists_opens
  rw [hts, cons_append, List.cons.injEq] at heq
  obtain ⟨tok, more, m, rfl, hopens⟩ :=
    h.exists_opens_of_paren (Nat.le_refl 1) (by rw [hts, heq.1])
  obtain ⟨s, _, htype, hs⟩ := type.exists_keyword
  rw [htype, cons_append, cons_append, List.cons.injEq] at heq
  obtain ⟨_, rfl, _⟩ := heq
  exact hopens hs

theorem Derives.ne_closeParen {r : List Token} (h : Derives n ts t) :
    ts ++ r ≠ .punct .closeParen :: rest := by
  intro heq
  obtain ⟨tok, more, rfl, hopens⟩ := h.exists_opens
  cases heq
  rcases hopens with hparen | ⟨_, hop⟩
  · cases hparen
  · cases hop

theorem Derives.ne_unary {r : List Token} {op : Punct} (h : Derives 0 ts t)
    (hop : op.operandLevel? = some n) : ts ++ r ≠ .punct op :: rest := by
  intro heq
  obtain ⟨tok, more, rfl, hopens⟩ := h.exists_opens
  cases heq
  rcases hopens with rfl | ⟨hpos, _⟩
  · cases hop
  · exact absurd hpos (Nat.lt_irrefl 0)

theorem Ty.tokens_append_inj {type type' : Ty} {rest' : List Token}
    (h : type.tokens ++ .punct .closeParen :: rest = type'.tokens ++ .punct .closeParen :: rest') :
    type = type' ∧ rest = rest' := by
  cases type <;> cases type' <;> simp_all [Ty.tokens]

theorem Derives.exists_steps {n : Nat} {ts : List Token} {t : Tree} :
    Derives n ts t → ∃ us u vs, ts = us ++ vs ∧ Base n us u ∧ Steps n u vs t
  | .base h => ⟨_, _, [], (append_nil _).symm, h, .nil⟩
  | .further h hstep => by
    obtain ⟨us, u, vs, hts, hbase, hsteps⟩ := Derives.exists_steps h
    exact ⟨us, u, _, by rw [hts, append_assoc], hbase, hsteps.snoc hstep⟩

mutual

/-- The first tokens tell which rule gave a base, so two bases at one place come from the same. -/
theorem Base.unique {n : Nat} {ts us r r' : List Token} {t u : Tree} :
    Base n ts t → Base n us u → ts ++ r = us ++ r' → From n r → From n r' → us = ts ∧ u = t
  | .name _, h', heq, _, _ => by
    cases h' <;> cases heq
    exact ⟨rfl, rfl⟩
  | .number h hv, h', heq, _, _ => by
    cases h' with
    | number h' hv' =>
      cases heq
      cases h.symm.trans h'
      exact ⟨rfl, hv.unique hv'⟩
    | name | char | string | group => cases heq
  | .char, h', heq, _, _ => by
    cases h' <;> cases heq
    exact ⟨rfl, rfl⟩
  | .string, h', heq, _, _ => by
    cases h' <;> cases heq
    exact ⟨rfl, rfl⟩
  | .group h, h', heq, _, _ => by
    cases h' with
    | group h' =>
      simp only [cons_append, append_assoc, nil_append, List.cons.injEq,
        true_and] at heq
      obtain ⟨rfl, rfl, _⟩ :=
        Steps.eq_of_append (Derives.factors h h' heq (.of_none rfl) (.of_none rfl)) heq
          (.of_none rfl)
      exact ⟨rfl, rfl⟩
    | name | number | char | string => cases heq
  | .unary hop h, h', heq, hr, hr' => by
    cases h' with
    | unary hop' h' =>
      simp only [cons_append, List.cons.injEq, Token.punct.injEq] at heq
      obtain ⟨rfl, hrest⟩ := heq
      cases hop.symm.trans hop'
      have hn := Punct.operandLevel?_le hop
      obtain ⟨rfl, rfl, _⟩ :=
        Steps.eq_of_append
          (Derives.factors h h' hrest (hr.three.of_le (by omega)) (hr'.three.of_le (by omega)))
          hrest (hr.three.of_le (by omega))
      exact ⟨rfl, rfl⟩
    | raise _ h' => exact absurd heq.symm (h'.ne_unary hop)
  | .cast h, h', heq, hr, hr' => by
    cases h' with
    | cast h' =>
      simp only [cons_append, append_assoc, List.cons.injEq, true_and] at heq
      obtain ⟨rfl, hrest⟩ := Ty.tokens_append_inj heq
      obtain ⟨rfl, rfl, _⟩ :=
        Steps.eq_of_append (Derives.factors h h' hrest hr (hr'.of_le (by omega)).three) hrest
          (hr.of_le (by omega)).three
      exact ⟨rfl, rfl⟩
    | raise _ h' =>
      rw [cons_append, append_assoc] at heq
      exact absurd heq.symm h'.ne_cast
  | .raise hn h, h', heq, hr, hr' => by
    cases h' with
    | raise _ h' =>
      obtain ⟨rfl, rfl, _⟩ :=
        Steps.eq_of_append (Derives.factors h h' heq (hr.of_le (Nat.le_succ _)) hr') heq hr
      exact ⟨rfl, rfl⟩
    | unary hop' => exact absurd heq (h.ne_unary hop')
    | cast =>
      rw [cons_append, append_assoc] at heq
      exact absurd heq h.ne_cast
termination_by structural h => h

/-- Of two readings at one place, the second is the first with steps behind it. The first begins
with the base of the second, and each of its steps is the next one there. -/
theorem Derives.factors {n : Nat} {ts us r r' : List Token} {t u : Tree} :
    Derives n ts t → Derives n us u → ts ++ r = us ++ r' → From n r → From (n + 1) r' →
      ∃ vs, us = ts ++ vs ∧ Steps n t vs u
  | .base h, h', heq, hr, hr' => by
    obtain ⟨us₀, u₀, vs, rfl, hbase, hsteps⟩ := h'.exists_steps
    rw [append_assoc] at heq
    obtain ⟨rfl, rfl⟩ := Base.unique h hbase heq hr (hsteps.from (hr'.of_le (Nat.le_succ n)))
    exact ⟨vs, rfl, hsteps⟩
  | .further h hstep, h', heq, hr, hr' => by
    rw [append_assoc] at heq
    obtain ⟨vs, rfl, hsteps⟩ := Derives.factors h h' heq hstep.from hr'
    rw [append_assoc, append_cancel_left_eq] at heq
    cases hsteps with
    | nil =>
      -- a step begins where no step can
      obtain ⟨tok, rest, rfl, hrank⟩ := hstep.exists_rank
      cases heq
      exact absurd (hr' tok rfl n hrank) (Nat.not_succ_le_self n)
    | cons hfirst hmore =>
      rw [append_assoc] at heq
      obtain ⟨rfl, rfl⟩ :=
        Step.unique hstep hfirst heq hr (hmore.from (hr'.of_le (Nat.le_succ n)))
      exact ⟨_, (append_assoc ..).symm, hmore⟩
termination_by structural h => h

theorem Step.unique {n : Nat} {t u v : Tree} {us vs r r' : List Token} :
    Step n t us u → Step n t vs v → us ++ r = vs ++ r' → From n r → From n r' → vs = us ∧ v = u
  | .subscript h, h', heq, _, _ => by
    cases h' with
    | subscript h' =>
      simp only [cons_append, append_assoc, nil_append, List.cons.injEq,
        true_and] at heq
      obtain ⟨rfl, rfl, _⟩ :=
        Steps.eq_of_append (Derives.factors h h' heq (.of_none rfl) (.of_none rfl)) heq
          (.of_none rfl)
      exact ⟨rfl, rfl⟩
    | call => cases heq
    | member hop | suffix hop => rcases hop with rfl | rfl <;> cases heq
  | .call h, h', heq, _, _ => by
    cases h' with
    | call h' =>
      simp only [cons_append, append_assoc, nil_append, List.cons.injEq,
        true_and] at heq
      obtain ⟨rfl, rfl⟩ := Arguments.unique h h' heq
      exact ⟨rfl, rfl⟩
    | subscript => cases heq
    | member hop | suffix hop => rcases hop with rfl | rfl <;> cases heq
  | .member hop _, h', heq, _, _ => by
    cases h' with
    | member =>
      cases heq
      exact ⟨rfl, rfl⟩
    | subscript | call => rcases hop with rfl | rfl <;> cases heq
    | suffix hop' =>
      cases heq
      rcases hop with rfl | rfl <;> simp at hop'
  | .suffix hop, h', heq, _, _ => by
    cases h' with
    | suffix =>
      cases heq
      exact ⟨rfl, rfl⟩
    | subscript | call => rcases hop with rfl | rfl <;> cases heq
    | member hop' =>
      cases heq
      rcases hop with rfl | rfl <;> simp at hop'
  | .binary _ h, h', heq, hr, hr' => by
    cases h' with
    | binary _ h' =>
      simp only [cons_append, List.cons.injEq, Token.punct.injEq] at heq
      obtain ⟨rfl, heq⟩ := heq
      obtain ⟨rfl, rfl, _⟩ :=
        Steps.eq_of_append (Derives.factors h h' heq (hr.of_le (Nat.le_succ _)) hr') heq hr
      exact ⟨rfl, rfl⟩
termination_by structural h => h

theorem Arguments.unique {ts us r r' : List Token} {as bs : List Tree} :
    Arguments ts as → Arguments us bs →
      ts ++ .punct .closeParen :: r = us ++ .punct .closeParen :: r' → us = ts ∧ bs = as
  | .none, h', heq => by
    cases h' with
    | none => exact ⟨rfl, rfl⟩
    | last h' => exact absurd heq.symm h'.ne_closeParen
    | more h' =>
      rw [append_assoc] at heq
      exact absurd heq.symm h'.ne_closeParen
  | .last h, h', heq => by
    cases h' with
    | none => exact absurd heq h.ne_closeParen
    | last h' =>
      obtain ⟨rfl, rfl, _⟩ :=
        Steps.eq_of_append (Derives.factors h h' heq (.of_none rfl) (.of_none rfl)) heq
          (.of_none rfl)
      exact ⟨rfl, rfl⟩
    | more h' =>
      rw [append_assoc] at heq
      obtain ⟨rfl, rfl, hrest⟩ :=
        Steps.eq_of_append (Derives.factors h h' heq (.of_none rfl) .comma) heq (.of_none rfl)
      cases hrest
  | .more h hmore, h', heq => by
    cases h' with
    | none =>
      rw [append_assoc] at heq
      exact absurd heq h.ne_closeParen
    | last h' =>
      rw [append_assoc] at heq
      obtain ⟨rfl, rfl, hrest⟩ :=
        Steps.eq_of_append
          (Derives.factors h h' heq (From.comma.of_le (by omega)) (.of_none rfl)) heq .comma
      cases hrest
    | more h' hmore' =>
      rw [append_assoc, append_assoc] at heq
      obtain ⟨rfl, rfl, hrest⟩ :=
        Steps.eq_of_append
          (Derives.factors h h' heq (From.comma.of_le (by omega)) .comma) heq .comma
      rw [cons_append, cons_append, List.cons.injEq] at hrest
      obtain ⟨rfl, hargs⟩ := Arguments.unique hmore hmore' hrest.2.symm
      exact ⟨rfl, by rw [hargs]⟩
termination_by structural h => h

end

/-- A text is read as one expression of a level at most. -/
theorem Derives.unique (h : Derives n ts t) (h' : Derives n ts u) : u = t := by
  have heq : ts ++ [] = ts ++ [] := rfl
  exact (Steps.eq_of_append (h.factors h' heq (.nil n) (.nil _)) heq (.nil _)).2.1

end C

end MiniPascal
