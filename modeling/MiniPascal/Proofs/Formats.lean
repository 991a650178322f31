import MiniPascal.Proofs.CTyping
import MiniPascal.Proofs.Nesting

/-!
# Formats of input and output

The format of a call of a built-in procedure is read as what the call asks for: the texts of its
strings, and one conversion for each other argument, which fits its type in C.
-/

namespace MiniPascal

open Scope Analysis Typing
open List

namespace C

/-! ## Reading a format -/

/-- A conversion: what stands between its percent sign and the letter that ends it, and that
letter. -/
structure Conversion where
  flags : List Char := []
  width : List Char := []
  precision : Option (List Char) := none
  length : List Char := []
  letter : Char
  deriving DecidableEq, Repr

inductive Directive where
  | literal (c : Char)
  | conversion (c : Conversion)
  deriving DecidableEq, Repr

namespace Conversion

/-- The signs in front of a width. Input knows only the one that drops what was read. -/
def isFlag (output : Bool) (c : Char) : Bool :=
  if output then ['-', '+', ' ', '#', '0'].contains c else c == '*'

/-- The digits of a width. Output may take it from the arguments. -/
def isWidth (output : Bool) (c : Char) : Bool := c.isDigit || (output && c == '*')

def isLength (c : Char) : Bool := ['h', 'l', 'j', 'z', 't', 'L'].contains c

def lengths : List (List Char) :=
  [[], ['h'], ['h', 'h'], ['l'], ['l', 'l'], ['j'], ['z'], ['t'], ['L']]

/-- The letters that end a conversion. Sets of characters, which input also knows, are left out. -/
def letters : List Char :=
  ['d', 'i', 'o', 'u', 'x', 'X', 'f', 'F', 'e', 'E', 'g', 'G', 'a', 'A', 'c', 's', 'p', 'n']

/-- The precision behind a point, in output only. -/
def readPrecision (output : Bool) : List Char → Option (List Char) × List Char
  | [] => (none, [])
  | c :: cs =>
    if output && c == '.' then (some (cs.takeWhile (isWidth true)), cs.dropWhile (isWidth true))
    else (none, c :: cs)

def read (output : Bool) (cs : List Char) : Option (Conversion × List Char) :=
  let flags := cs.takeWhile (isFlag output)
  let cs := cs.dropWhile (isFlag output)
  let width := cs.takeWhile (isWidth output)
  let (precision, cs) := readPrecision output (cs.dropWhile (isWidth output))
  let length := cs.takeWhile isLength
  match cs.dropWhile isLength with
  | [] => none
  | letter :: rest =>
    if lengths.contains length && letters.contains letter then
      some (⟨flags, width, precision, length, letter⟩, rest)
    else none

theorem length_readPrecision_le (output : Bool) (cs : List Char) :
    (readPrecision output cs).2.length ≤ cs.length := by
  unfold readPrecision
  split
  · exact Nat.le_refl _
  · split
    · exact Nat.le_succ_of_le (dropWhile_sublist _).length_le
    · exact Nat.le_refl _

theorem length_read_lt {output : Bool} {cs rest : List Char} {c : Conversion}
    (h : read output cs = some (c, rest)) : rest.length < cs.length := by
  unfold read at h
  dsimp only at h
  split at h
  · cases h
  · next letter tail htail =>
    split at h
    · cases h
      have hlength := (dropWhile_sublist (l := (readPrecision output
        ((cs.dropWhile (isFlag output)).dropWhile (isWidth output))).2) isLength).length_le
      have hprecision := length_readPrecision_le output
        ((cs.dropWhile (isFlag output)).dropWhile (isWidth output))
      have hwidth := (dropWhile_sublist (l := cs.dropWhile (isFlag output))
        (isWidth output)).length_le
      have hflags := (dropWhile_sublist (l := cs) (isFlag output)).length_le
      rw [htail, length_cons] at hlength
      omega
    · cases h

end Conversion

/-- The directives of a format, if each percent sign begins one. -/
def directives (output : Bool) (cs : List Char) : Option (List Directive) :=
  match cs with
  | [] => some []
  | c :: cs =>
    if c ≠ '%' then (directives output cs).map (.literal c :: ·)
    else if cs.head? = some '%' then (directives output cs.tail).map (.literal '%' :: ·)
    else
      match _read : Conversion.read output cs with
      | none => none
      | some (conversion, rest) => (directives output rest).map (.conversion conversion :: ·)
termination_by cs.length
decreasing_by
  · simp
  · simp only [length_tail, length_cons]
    omega
  · exact Nat.lt_succ_of_lt (Conversion.length_read_lt _read)

-- A percent sign that is not written twice takes the letters behind it.
example : directives true "5% off".toList =
    some [.literal '5', .conversion ⟨[' '], [], none, [], 'o'⟩, .literal 'f', .literal 'f'] := by
  decide +kernel

theorem directives_nil (output : Bool) : directives output [] = some [] := by
  rw [directives]

variable {output : Bool} {c : Conversion}

theorem directives_literal {c : Char} (h : c ≠ '%') (rest : List Char) :
    directives output (c :: rest) = (directives output rest).map (.literal c :: ·) := by
  rw [directives, if_pos h]

theorem directives_percent (output : Bool) (rest : List Char) :
    directives output ('%' :: '%' :: rest) = (directives output rest).map (.literal '%' :: ·) := by
  have hhead : ('%' :: rest).head? = some '%' := rfl
  rw [directives, if_neg (not_not_intro rfl), if_pos hhead]
  rfl

theorem directives_conversion {cs rest : List Char} (hhead : cs.head? ≠ some '%')
    (h : Conversion.read output cs = some (c, rest)) :
    directives output ('%' :: cs) = (directives output rest).map (.conversion c :: ·) := by
  rw [directives, if_neg (not_not_intro rfl), if_neg hhead]
  split
  · next hnone => cases h.symm.trans hnone
  · next hsome =>
    cases h.symm.trans hsome
    rfl

theorem directives_formatText (output : Bool) (text : String) (rest : List Char) :
    directives output ((formatText text).toList ++ rest) =
      (directives output rest).map (text.toList.map .literal ++ ·) := by
  rw [formatText, String.toList_ofList]
  induction text.toList with
  | nil => simp
  | cons c cs ih =>
    rw [flatMap_cons, append_assoc]
    split
    · next hc =>
      subst hc
      rw [cons_append, singleton_append, directives_percent, ih, Option.map_map]
      rfl
    · next hc =>
      rw [singleton_append, directives_literal hc, ih, Option.map_map]
      rfl

/-- The conversion for values of a type. There are no values of the empty type. -/
def Ty.conversion? (output : Bool) : Ty → Option Conversion
  | int => some { letter := 'd' }
  | double => some { length := if output then [] else ['l'], letter := 'f' }
  | char => some { letter := 'c' }
  | string => some { letter := 's' }
  | void => none

def Conversion.spelling (c : Conversion) : List Char := c.length ++ [c.letter]

theorem spelling_type {T : Ty} (h : T.conversion? output = some c) :
    (if output then T.printed else T.scanned).toList = '%' :: c.spelling := by
  cases T with
  | void => cases h
  | int | char | string | double =>
    cases h
    cases output <;> decide

theorem directives_type {T : Ty} (h : T.conversion? output = some c) (rest : List Char) :
    directives output ((if output then T.printed else T.scanned).toList ++ rest) =
      (directives output rest).map (.conversion c :: ·) := by
  rw [spelling_type h, cons_append]
  cases T with
  | void => cases h
  | int | char | string | double =>
    cases h
    cases output <;> exact directives_conversion (by simp [Conversion.spelling]) rfl

/-! ## Calls of built-in procedures -/

/-- Output or input in C: its format and the values for the conversions. -/
structure Transfer where
  output : Bool
  format : String
  values : List Expr

namespace Statement

def transfer? : Statement → Option Transfer
  | print format values => some ⟨true, format, values⟩
  | scan format values => some ⟨false, format, values⟩
  | _ => none

def transfers (ss : List Statement) : List Transfer := (nestedAll ss).filterMap transfer?

end Statement

namespace Env

variable (env : Env)

/-- The built-in procedure that a statement calls, and its arguments. -/
def transfer? : MiniPascal.Statement → Option (Builtin × List MiniPascal.Expr)
  | .call _ name arguments => (env.builtin? name).map fun b => (b, arguments)
  | _ => none

/-- All calls of built-in procedures in statements, at any depth. -/
def transfers (ss : List MiniPascal.Statement) : List (Builtin × List MiniPascal.Expr) :=
  (MiniPascal.Statement.nestedAll ss).filterMap env.transfer?

end Env

/-- What an argument adds to the directives and to the values: a string that is written adds its
text, and anything else one conversion for the type in C that it has, and its value. -/
inductive Contributes (Γ : Types) (env : Env) (output : Bool) :
    MiniPascal.Expr → List Directive × List Expr → Prop where
  | text {p : Position} {text : String} (written : output = true) :
      Contributes Γ env output (.string p text) (text.toList.map .literal, [])
  | value {e : MiniPascal.Expr} {c : Expr} {T : Ty} {conversion : Conversion}
      (other : output = true → e.isString = false) (lowered : lowerExpr env e = .ok c)
      (source : Ty.ofBase (env.typeOf e).base e.position = .ok T) (type : c.type? Γ = some T)
      (fits : T.conversion? output = some conversion) :
      Contributes Γ env output e ([.conversion conversion], [c])

/-- Output or input that does what a call asks for. -/
structure FormatKept (Γ : Types) (env : Env) (call : Builtin × List MiniPascal.Expr)
    (t : Transfer) : Prop where
  output : t.output = true ↔ call.1 = .write ∨ call.1 = .writeln
  pieces : ∃ parts, Forall₂ (Contributes Γ env t.output) call.2 parts ∧
    directives t.output t.format.toList =
      some (parts.flatMap Prod.fst ++ if call.1 = .writeln then [.literal '\n'] else []) ∧
    t.values = parts.flatMap Prod.snd
  input : t.output = false → ∀ ds, directives t.output t.format.toList = some ds →
    ∀ c, Directive.literal c ∉ ds

section

variable {env : Env} {e : MiniPascal.Expr} {b : Builtin} {q : Program} {es : List MiniPascal.Expr}
  {c : Statement} {Γ : Types}

theorem formatted_value {c : Expr} (valued : env.Valued e) (kept : TypeKept Γ env e c)
    (other : output = true → e.isString = false) {T : Ty}
    (hT : Ty.ofBase (env.typeOf e).base e.position = .ok T) :
    ∃ conversion, T.conversion? output = some conversion ∧
      Contributes Γ env output e ([.conversion conversion], [c]) := by
  obtain ⟨S, hS, hproper⟩ := valued
  obtain ⟨U, hU, htype⟩ := kept.type
  cases hT.symm.trans hU
  have hsome : ∃ conversion, T.conversion? output = some conversion := by
    cases T with
    | void =>
      rw [typeOf_eq hS] at hT
      generalize hbase : S.base = base at hT
      cases base <;> cases hT
      exact (hproper.not_void hbase).elim
    | int | double | char | string => exact ⟨_, rfl⟩
  obtain ⟨conversion, hc⟩ := hsome
  exact ⟨conversion, hc, .value other kept.lowered hT htype hc⟩

theorem valued_of_checked (ready : env.Ready) (lawful : env.Lawful) {T : MiniPascal.Ty}
    (hT : Typing.typeOf env.table env.block e = pure T)
    (h : (if b.isOutput then Check.written T e else Check.read env.context b T e) = pure ()) :
    env.Valued e := by
  split at h
  · exact valued_of_written ready hT h
  · exact (valued_of_read ready lawful hT h).1

theorem format_pieces (ready : env.Ready) (lawful : env.Lawful) (typable : env.Typable q)
    (h : Check.builtinArguments env.context b es = pure ()) {r : String × List Expr}
    (hr : format env b es = .ok r) :
    ∃ parts, Forall₂ (Contributes (env.types q) env b.isOutput) es parts ∧
      directives b.isOutput r.1.toList =
        some (parts.flatMap Prod.fst ++ if b = .writeln then [.literal '\n'] else []) ∧
      r.2 = parts.flatMap Prod.snd := by
  induction es generalizing r with
  | nil =>
    cases hr
    refine ⟨[], .nil, ?_, rfl⟩
    cases b with
    | writeln => exact (directives_literal (by decide) []).trans (by rw [directives_nil]; rfl)
    | write | read | readln => exact directives_nil _
  | cons e es ih =>
    obtain ⟨T, hT, hone, hargs⟩ := builtinArguments_eq_pure h
    unfold format at hr
    split at hr
    · next p text hout =>
      obtain ⟨rest, hrest, hr⟩ := Except.bind_eq_ok.mp hr
      cases hr
      obtain ⟨parts, hparts, hread, hvalues⟩ := ih hargs hrest
      refine ⟨_, .cons (.text hout) hparts, ?_, hvalues⟩
      rw [String.toList_append, directives_formatText, hread, flatMap_cons, append_assoc]
      rfl
    · next e _ _ hother =>
      obtain ⟨C, hC, c, hc, hr⟩ := Except.bind₂_eq_ok.mp hr
      obtain ⟨rest, hrest, hr⟩ := Except.bind_eq_ok.mp hr
      cases hr
      obtain ⟨parts, hparts, hread, hvalues⟩ := ih hargs hrest
      have hvalued := valued_of_checked ready lawful hT hone
      have hstring : b.isOutput = true → e.isString = false := by
        intro hout
        cases e with
        | string p text => exact (hother p text hout rfl).elim
        | _ => rfl
      obtain ⟨conversion, hconversion, hcontributes⟩ := formatted_value hvalued
        (hvalued.kept ready.toNamed typable lawful hc) hstring hC
      refine ⟨_, .cons hcontributes hparts, ?_, congrArg (c :: ·) hvalues⟩
      rw [String.toList_append, directives_type hconversion, hread]
      rfl

theorem Contributes.not_literal {part : List Directive × List Expr}
    (h : Contributes Γ env false e part) (c : Char) : Directive.literal c ∉ part.1 := by
  cases h with
  | text written => cases written
  | value => simp

theorem format_kept {r : String × List Expr} (ready : env.Ready) (lawful : env.Lawful)
    (typable : env.Typable q) (h : Check.builtinArguments env.context b es = pure ())
    (hr : format env b es = .ok r) :
    FormatKept (env.types q) env (b, es) ⟨b.isOutput, r.1, r.2⟩ := by
  have hpieces := format_pieces ready lawful typable h hr
  refine ⟨?_, hpieces, ?_⟩
  · cases b <;> simp [Builtin.isOutput]
  · rintro hinput ds hds c hmem
    obtain ⟨parts, hparts, hread, _⟩ := hpieces
    have hending : b ≠ .writeln := by
      rintro rfl
      cases hinput
    cases hds.symm.trans hread
    rw [if_neg hending, append_nil] at hmem
    obtain ⟨part, hpart, hmem⟩ := mem_flatMap.mp hmem
    obtain ⟨e, _, hcontributes⟩ := exists_left_of_mem hparts hpart
    rw [show b.isOutput = false from hinput] at hcontributes
    exact hcontributes.not_literal c hmem

theorem transfer_kept (ready : env.Ready) (lawful : env.Lawful) (typable : env.Typable q)
    {s : MiniPascal.Statement} (h : Lowered env s c) :
    Option.Rel (FormatKept (env.types q) env) (env.transfer? s) c.transfer? := by
  obtain ⟨R, hc⟩ := exists_loweredBy h.lowered
  cases hc with
  | print found output hr =>
    have hkept := format_kept ready lawful typable (builtinArguments_of_call h.checked found) hr
    rw [output] at hkept
    rw [Env.transfer?, found]
    exact .some hkept
  | scan found input hr =>
    have hkept := format_kept ready lawful typable (builtinArguments_of_call h.checked found) hr
    rw [input] at hkept
    rw [Env.transfer?, found]
    exact .some hkept
  | call other =>
    rw [Env.transfer?, other]
    exact .none
  | assign | compound | ifThen | ifThenElse | count | loop | exit | leave => exact .none

end

/-- The formats of all calls of built-in procedures do what the calls ask for. -/
def FormatsKept (p : MiniPascal.Program) (folding : Bool) (q : Program) : Prop :=
  Forall₂ (fun a b => Forall₂ (FormatKept (a.env.types q) a.env) (a.env.transfers a.statements)
    (Statement.transfers b.2)) (Part.ofProgram p folding) q.parts

/-- In a lowered source every call of a built-in procedure has one output or input as its form, in
the same order. Its format is read as the texts of the strings and one conversion for each other
argument, of the type of the value that stands for it, and a format of input holds no text. -/
theorem formats_kept {source : String} {p : MiniPascal.Program}
    (hparse : parse (scan source) = .ok (p, [])) (hclean : (analyze p).isClean = true)
    {level : Nat} {q : Program} (hlower : lower p (analyze p).table (foldsAt level) = .ok q) :
    FormatsKept p (foldsAt level) q := by
  obtain ⟨accepted, assembled⟩ := assembled_of_source hparse hclean hlower
  refine (assembled.parts accepted).imp fun a b hpart => ?_
  refine List.rel_filterMap (R := Lowered a.env) (fun s c h => ?_) (hpart.nested accepted)
  exact transfer_kept (hpart.ready accepted) hpart.lawful (hpart.typable accepted assembled) h

/-- Percent signs, alone and before letters, beside values of all types, in a routine and in `main`,
and a name that hides a built-in procedure. -/
def percents : String := "program p; const s = '100%d'; var i: integer; r: real; c: char;
  procedure read(x: real);
    begin if x > 0 then write('%d', i, ' %%s', x) else for i := 1 to 2 do readln(c, r, i) end;
  begin read(r); readln; writeln; writeln('5% off', s, '', i < 1, 'n', -r, c) end."

set_option maxRecDepth 2000 in
theorem percents_formats_kept : ∃ (p : MiniPascal.Program) (q : Program),
    parse (scan percents) = .ok (p, []) ∧ (analyze p).isClean = true ∧
      lower p (analyze p).table (foldsAt 1) = .ok q ∧
      q.parts.map (fun b => (Statement.transfers b.2).map fun t => (t.output, t.format)) =
        [[(false, ""), (true, "\n"), (true, "5%% off%s%d%c%f%c\n")],
          [(true, "%%d%d %%%%s%f"), (false, "%c%lf%d")]] ∧
      FormatsKept p (foldsAt 1) q :=
  exists_lowered_and rfl (by decide +kernel) fun hp hclean hlower => formats_kept hp hclean hlower

end C

end MiniPascal
