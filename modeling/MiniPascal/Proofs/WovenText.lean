import MiniPascal.Proofs.CountingLoops
import MiniPascal.Proofs.Negations
import MiniPascal.Proofs.Zones

/-!
# What lines are put together from

Every line is woven from pieces that are the same in all programs, from names, and from numbers and
constants.
-/

namespace MiniPascal.C

open List

/-- A piece of text in which another character follows the one minus that it may have. -/
structure Fixed (text : String) : Prop where
  neat : Neat text
  minus : text.toList.count '-' ≤ 1
  last : text.toList.getLast? ≠ some '-'

instance (text : String) : Decidable (Fixed text) :=
  decidable_of_iff (Neat text ∧ text.toList.count '-' ≤ 1 ∧ text.toList.getLast? ≠ some '-')
    ⟨fun h => ⟨h.1, h.2.1, h.2.2⟩, fun h => ⟨h.neat, h.minus, h.last⟩⟩

/-- Texts put together from pieces. The operands of their minus signs have the property. -/
inductive Woven (P : Expr → Prop) : String → Prop where
  | fixed {text : String} (h : Fixed text) : Woven P text
  | name {name : String} (h : Spelled name) : Woven P name
  | string (text : String) : Woven P (stringLiteral text)
  | char {c : Char} (h : c.toNat < 128) : Woven P (charLiteral c)
  /-- The sign of a number. -/
  | sign {text : String} (h : Woven P text) (starts : Starts (· != '-') text.toList) :
      Woven P ("-" ++ text)
  | negation {e : Expr} (h : Woven P e.text) (operand : P e) : Woven P (Expr.unary .minus e).text
  | append {s t : String} (hs : Woven P s) (ht : Woven P t) : Woven P (s ++ t)

section

variable {P : Expr → Prop}

/-! ## Names and numbers -/

namespace Woven

theorem join {ss : List String} (h : ∀ s ∈ ss, Woven P s) : Woven P (String.join ss) := by
  induction ss with
  | nil => exact .fixed (by decide)
  | cons s ss ih =>
    obtain ⟨hs, hss⟩ := forall_mem_cons.mp h
    rw [String.join_cons]
    exact hs.append (ih hss)

theorem intercalate {ss : List String} (h : ∀ s ∈ ss, Woven P s) :
    Woven P (", ".intercalate ss) := by
  induction ss with
  | nil => exact .fixed (by decide)
  | cons s ss ih =>
    obtain ⟨hs, hss⟩ := forall_mem_cons.mp h
    cases ss with
    | nil =>
      exact hs
    | cons t ss =>
      rw [String.intercalate_cons_cons]
      exact (hs.append (.fixed (by decide))).append (ih hss)

/-- Behind the sign of a number there is a digit or a letter. -/
theorem signed {text : String} (h : Woven P text) (starts : Starts (· != '-') text.toList)
    {c : Prop} [Decidable c] : Woven P ((if c then "" else "-") ++ text) := by
  split
  · rwa [String.empty_append]
  · exact h.sign starts

end Woven

theorem woven_identifier {name : String} (h : Spelled name) : Woven P (identifier name) :=
  .name (Expr.spelled_identifier h)

theorem woven_digits {cs : List Char} (h : cs.all Char.isDigit = true) :
    Woven P (String.ofList cs) := by
  refine .name fun c hc => ?_
  rw [String.toList_ofList] at hc
  simp [isNameChar, Char.isAlphanum, all_eq_true.mp h c hc]

theorem starts_digit {cs : List Char} (h : Starts Char.isDigit cs) : Starts (· != '-') cs := by
  refine h.of_imp fun c hc => ?_
  rw [bne_iff_ne]
  rintro rfl
  cases hc

theorem woven_int (n : Int) : Woven P (toString n) := by
  have htext : toString n = (if ¬n < 0 then "" else "-") ++
      String.ofList (Nat.toDigits 10 n.natAbs) := by
    apply String.toList_inj.mp
    rw [toList_toString_int, String.toList_append, String.toList_ofList]
    by_cases hn : n < 0 <;> simp [hn]
  rw [htext]
  refine (woven_digits (all_isDigit_toDigits _)).signed ?_
  rw [String.toList_ofList]
  exact starts_digit (isNumeral_toDigits _).starts

theorem woven_decimal (d : Decimal) : Woven P d.text := by
  have hall := all_isDigit_toDigits d.digits
  have htake : ∀ n, Woven P (String.ofList ((Nat.toDigits 10 d.digits).take n)) := fun n =>
    woven_digits (all_eq_true.mpr fun c hc =>
      all_eq_true.mp hall c (mem_of_mem_take hc))
  have hdrop : ∀ n, Woven P (String.ofList ((Nat.toDigits 10 d.digits).drop n)) := fun n =>
    woven_digits (all_eq_true.mpr fun c hc =>
      all_eq_true.mp hall c (mem_of_mem_drop hc))
  have hzeros : ∀ n, Woven P (Decimal.zeros n) := fun n => woven_digits (by simp)
  unfold Decimal.text
  dsimp only
  split
  · unfold Decimal.writeOut
    split
    · exact (Woven.append (.fixed (by decide)) (hzeros _)).append (woven_digits hall)
    split
    · exact ((woven_digits hall).append (hzeros _)).append (.fixed (by decide))
    · exact ((htake _).append (.fixed (by decide))).append (hdrop _)
  · unfold Decimal.writeScaled
    refine Woven.append (.append (.append (.append (htake _) ?_) (hdrop _)) (.fixed (by decide)))
      (woven_int _)
    split <;> exact .fixed (by decide)

theorem woven_real (x : Float) : Woven P (Decimal.realText x) := by
  unfold Decimal.realText
  dsimp only
  split
  · exact .fixed (by decide)
  split
  · exact (Woven.fixed (by decide)).signed ⟨'i', rfl, rfl⟩
  split
  · exact (Woven.fixed (by decide)).signed ⟨'0', rfl, rfl⟩
  · exact (woven_decimal _).signed (starts_digit (isNumeral_decimal _).starts)

/-! ## Expressions -/

theorem woven_type (type : Ty) : Woven P type.text := by
  cases type <;> exact .fixed (by decide)

theorem woven_var {v : Var} (h : Spelled v.name) : Woven P v.text := by
  unfold Var.text
  split
  · exact .name h
  split
  · exact .append (.fixed (by decide)) (woven_identifier h)
  · exact woven_identifier h

theorem woven_operator (op : BinaryOp) : Woven P (" " ++ op.text ++ " ") := by
  cases op <;> exact .fixed (by decide)

theorem woven_lowerText (lower : Int64) : Woven P (lowerText lower) := by
  unfold lowerText
  split
  · exact .fixed (by decide)
  split
  · exact .append (.fixed (by decide)) (woven_int _)
  · exact .append (.fixed (by decide)) (woven_int _)

theorem woven_address {e : Expr} (h : e.Plain) {text : String} (htext : Woven P text) :
    Woven P (e.address text) := by
  cases h with
  | var hv =>
    rw [Expr.address]
    split
    · exact woven_identifier hv
    · exact .append (.fixed (by decide)) htext
  | element => exact .append (.fixed (by decide)) htext
  | int | real | char | string | call | binary | unary | cast => exact htext

theorem woven_subscripts {subscripts : List (Expr × Int64)}
    (h : ∀ x ∈ subscripts, Woven P x.1.text) : Woven P (Expr.subscriptsText subscripts) := by
  induction subscripts with
  | nil =>
    exact .fixed (by decide)
  | cons x rest ih =>
    obtain ⟨hx, hrest⟩ := forall_mem_cons.mp h
    exact (((Woven.append (.fixed (by decide)) hx).append (woven_lowerText _)).append
      (.fixed (by decide))).append (ih hrest)

theorem woven_arguments {arguments : List (Expr × Bool)}
    (h : ∀ x ∈ arguments, x.1.Plain ∧ Woven P x.1.text) :
    Woven P (Expr.argumentsText arguments) := by
  have hone : ∀ x ∈ arguments, Woven P (if x.2 then x.1.address x.1.text else x.1.text) := by
    intro x hx
    split
    · exact woven_address (h x hx).1 (h x hx).2
    · exact (h x hx).2
  clear h
  induction arguments with
  | nil =>
    exact .fixed (by decide)
  | cons x rest ih =>
    obtain ⟨hx, hrest⟩ := forall_mem_cons.mp hone
    cases rest with
    | nil =>
      exact hx
    | cons y rest =>
      exact (hx.append (.fixed (by decide))).append (ih hrest)

/-- The operands of all minus signs have the property. -/
def Expr.Negates (P : Expr → Prop) (e : Expr) : Prop := ∀ d ∈ e.negated, P d

theorem woven_expr {e : Expr} (h : e.Plain) (negates : e.Negates P) : Woven P e.text := by
  induction h with
  | int =>
    exact woven_int _
  | real =>
    exact woven_real _
  | char hc =>
    exact .char hc
  | string =>
    exact .string _
  | var hv =>
    exact woven_var hv
  | element hv _ ih =>
    rw [Expr.Negates, Expr.negated, Expr.negatedSubscripts_eq] at negates
    exact (woven_var hv).append (woven_subscripts fun x hx => ih x hx fun d hd =>
      negates d (mem_flatMap.mpr ⟨_, mem_map_of_mem hx, hd⟩))
  | call hname harguments ih =>
    rw [Expr.Negates, Expr.negated, Expr.negatedArguments_eq] at negates
    exact (((woven_identifier hname).append (.fixed (by decide))).append
      (woven_arguments fun x hx => ⟨harguments x hx, ih x hx fun d hd =>
        negates d (mem_flatMap.mpr ⟨_, mem_map_of_mem hx, hd⟩)⟩)).append
      (.fixed (by decide))
  | @binary op left right _ _ ihleft ihright =>
    have heq : (Expr.binary op left right).text =
        "(" ++ left.text ++ (" " ++ op.text ++ " ") ++ right.text ++ ")" := by
      rw [Expr.text]
      simp only [String.append_assoc]
    rw [Expr.Negates, Expr.negated] at negates
    obtain ⟨hleft, hright⟩ := forall_mem_append.mp negates
    rw [heq]
    exact (((Woven.append (.fixed (by decide)) (ihleft hleft)).append (woven_operator op)).append
      (ihright hright)).append (.fixed (by decide))
  | @unary op e _ ih =>
    cases op with
    | minus =>
      rw [Expr.Negates, Expr.negated] at negates
      obtain ⟨hoperand, hrest⟩ := forall_mem_cons.mp negates
      exact .negation (ih hrest) hoperand
    | not =>
      rw [Expr.Negates, Expr.negated] at negates
      exact ((Woven.append (.fixed (by decide)) (.fixed (by decide))).append (ih negates)).append
        (.fixed (by decide))
  | cast _ ih =>
    rw [Expr.Negates, Expr.negated] at negates
    exact ((Woven.append (.fixed (by decide)) (woven_type _)).append (.fixed (by decide))).append
      (ih negates)

end

/-! ## Heads of loops -/

/-- The head of a loop as far as its step. -/
def CountingLoop.beforeStep (k : CountingLoop) : String :=
  "for (" ++ k.counter.text ++ " = " ++ k.first.text ++ "; " ++ k.counter.text ++
    (if k.down then " >= " else " <= ") ++ k.last.text ++ "; " ++
    (if k.counter.byReference then "(" ++ k.counter.text ++ ")" else k.counter.text)

theorem CountingLoop.countHead_eq (k : CountingLoop) : countHead k.counter k.first k.last k.down =
      k.beforeStep ++ (if k.down then "--" else "++") ++ ") \x7b" := by
  unfold countHead beforeStep
  cases k.counter.byReference <;> simp [String.append_assoc]

/-- A line that is the head of a loop that counts down. -/
structure CountingLoop.StepsDown (P : Expr → Prop) (k : CountingLoop) (text : String) : Prop where
  down : k.down = true
  head : text = countHead k.counter k.first k.last k.down
  woven : Woven P k.beforeStep

theorem CountingLoop.StepsDown.text_eq {P : Expr → Prop} {k : CountingLoop} {text : String}
    (h : k.StepsDown P text) : text = k.beforeStep ++ "--) \x7b" := by
  rw [h.head, k.countHead_eq, h.down, String.append_assoc]
  rfl

/-- All lines are woven, those that end with the step of one of the loops as far as the step. -/
def WovenLines (P : Expr → Prop) (ks : List CountingLoop) (ls : List Line) : Prop :=
  ∀ l ∈ ls, Woven P l.text ∨ ∃ k ∈ ks, k.StepsDown P l.text

section

variable {P : Expr → Prop}

namespace WovenLines

variable {ks ks' : List CountingLoop} {ls ls' : List Line} {depth : Nat} {text : String}

theorem append (hls : WovenLines P ks ls) (hls' : WovenLines P ks ls') :
    WovenLines P ks (ls ++ ls') := forall_mem_append.mpr ⟨hls, hls'⟩

theorem cons (htext : Woven P text) (hls : WovenLines P ks ls) :
    WovenLines P ks (⟨depth, text⟩ :: ls) := forall_mem_cons.mpr ⟨.inl htext, hls⟩

theorem singleton (htext : Woven P text) : WovenLines P ks [⟨depth, text⟩] :=
  forall_mem_singleton.mpr (.inl htext)

theorem braced (hls : WovenLines P ks ls) (htext : Woven P text) :
    WovenLines P ks (⟨depth, text⟩ :: ls ++ [⟨depth, "\x7d"⟩]) :=
  (cons htext hls).append (singleton (.fixed (by decide)))

theorem map {α : Type} {f : α → Line} {as : List α} (h : ∀ a ∈ as, Woven P (f a).text) :
    WovenLines P ks (as.map f) := forall_mem_map.mpr fun a ha => .inl (h a ha)

theorem mono (hls : WovenLines P ks ls) (hsub : ks ⊆ ks') : WovenLines P ks' ls :=
  fun l hl => (hls l hl).imp_right fun ⟨k, hk, h⟩ => ⟨k, hsub hk, h⟩

end WovenLines

variable {ss : List Statement} {k : CountingLoop} {s : Statement} {r : Routine}

theorem woven_beforeStep (hcounter : Spelled k.counter.name) (hfirst : Woven P k.first.text)
    (hlast : Woven P k.last.text) : Woven P k.beforeStep := by
  have hname : Woven P k.counter.text := woven_var hcounter
  refine Woven.append (.append (.append (.append (.append (.append (.append (.append (.append
    (.fixed (by decide)) hname) (.fixed (by decide))) hfirst) (.fixed (by decide))) hname) ?_)
    hlast) (.fixed (by decide))) ?_
  · cases k.down <;> exact .fixed (by decide)
  · split
    · exact (Woven.append (.fixed (by decide)) hname).append (.fixed (by decide))
    · exact hname

theorem wovenLines_head (h : Woven P k.beforeStep) (depth : Nat) :
    WovenLines P [k] [⟨depth, countHead k.counter k.first k.last k.down⟩] := by
  refine forall_mem_singleton.mpr ?_
  cases hdown : k.down with
  | false =>
    refine .inl ?_
    rw [← hdown, k.countHead_eq, hdown]
    exact (h.append (.fixed (by decide))).append (.fixed (by decide))
  | true => exact .inr ⟨k, mem_singleton_self k, hdown, by rw [hdown], h⟩

/-! ## Statements -/

theorem woven_formatted {values : List String} (h : ∀ v ∈ values, Woven P v) :
    Woven P (formatted values) :=
  .join (forall_mem_map.mpr fun v hv => .append (.fixed (by decide)) (h v hv))

/-- The minus signs of all expressions of a form have operands with the property. -/
def Form.Negates (P : Expr → Prop) (f : Form) : Prop := ∀ c ∈ f.exprs, c.Negates P

theorem wovenLines_listLines {depth : Nat} (h : ∀ s ∈ ss, WovenLines P s.counts (s.lines depth)) :
    WovenLines P (Statement.countsAll ss) (Statement.listLines depth ss) := by
  induction ss with
  | nil =>
    exact forall_mem_nil _
  | cons s ss ih =>
    obtain ⟨hs, hss⟩ := forall_mem_cons.mp h
    rw [Statement.listLines, Statement.countsAll]
    exact (hs.mono (subset_append_left _ _)).append
      ((ih hss).mono (subset_append_right _ _))

theorem mem_formsAll (hs : s ∈ ss) {f : Form} (hf : f ∈ s.forms) : f ∈ Statement.formsAll ss := by
  induction ss with
  | nil => cases hs
  | cons t ss ih =>
    rcases mem_cons.mp hs with rfl | hs
    · exact mem_append_left _ hf
    · exact mem_append_right _ (ih hs)

theorem wovenLines_statement (h : s.Plain) (negates : ∀ f ∈ s.forms, f.Negates P) (depth : Nat) :
    WovenLines P s.counts (s.lines depth) := by
  induction h generalizing depth with
  | assign htarget hvalue =>
    rw [Statement.forms] at negates
    simp only [forall_mem_cons, Form.Negates, Form.exprs] at negates
    exact .singleton ((((woven_expr htarget negates.1.1).append (.fixed (by decide))).append
      (woven_expr hvalue negates.2.1.1)).append (.fixed (by decide)))
  | call hname harguments =>
    rw [Statement.forms, forall_mem_singleton] at negates
    have htexts := woven_arguments fun x hx => ⟨harguments x hx,
      woven_expr (harguments x hx) (negates _ (mem_map_of_mem hx))⟩
    exact .singleton ((((woven_identifier hname).append (.fixed (by decide))).append htexts).append
      (.fixed (by decide)))
  | compound _ ih =>
    rw [Statement.lines, Statement.counts]
    exact wovenLines_listLines fun s hs =>
      ih s hs (fun f hf => negates f (mem_formsAll hs hf)) depth
  | ifThen hc _ ih =>
    obtain ⟨hcondition, hbody⟩ := forall_mem_cons.mp negates
    have hc := woven_expr hc (forall_mem_singleton.mp hcondition)
    rw [Statement.lines, Statement.counts]
    exact (ih hbody _).braced
      ((Woven.append (.fixed (by decide)) hc).append (.fixed (by decide)))
  | ifThenElse hc _ _ ih ih' =>
    obtain ⟨hcondition, hbodies⟩ := forall_mem_cons.mp negates
    obtain ⟨hbody, hbody'⟩ := forall_mem_append.mp hbodies
    have hc := woven_expr hc (forall_mem_singleton.mp hcondition)
    have hhead := (Woven.append (s := "if (") (.fixed (by decide)) hc).append (t := ") \x7b")
      (.fixed (by decide))
    rw [Statement.lines, append_assoc, Statement.counts]
    exact (WovenLines.cons hhead ((ih hbody _).mono (subset_append_left _ _))).append
      (((ih' hbody' _).mono (subset_append_right _ _)).braced (.fixed (by decide)))
  | @count v first last down body hv hfirst hlast _ ih =>
    obtain ⟨_, negates⟩ := forall_mem_cons.mp negates
    obtain ⟨hfirst', negates⟩ := forall_mem_cons.mp negates
    obtain ⟨hlast', hbody⟩ := forall_mem_cons.mp negates
    let k : CountingLoop := ⟨v, first, last, down, body⟩
    have hhead : Woven P k.beforeStep := woven_beforeStep hv
      (woven_expr hfirst (forall_mem_singleton.mp hfirst'))
      (woven_expr hlast (forall_mem_singleton.mp hlast'))
    rw [Statement.lines, Statement.counts]
    exact (((wovenLines_head hhead depth).mono
      (cons_subset_cons _ (nil_subset _))).append
      ((ih hbody _).mono (subset_cons_self _ _))).append (.singleton (.fixed (by decide)))
  | loop hc _ ih =>
    obtain ⟨hcondition, hbody⟩ := forall_mem_cons.mp negates
    have hc := woven_expr hc (forall_mem_singleton.mp hcondition)
    rw [Statement.lines, Statement.counts]
    exact (ih hbody _).braced
      ((Woven.append (.fixed (by decide)) hc).append (.fixed (by decide)))
  | print harguments =>
    rw [Statement.forms, forall_mem_map] at negates
    rw [Statement.lines]
    have hvalues := woven_formatted (forall_mem_map.mpr fun e he =>
      woven_expr (harguments e he) (forall_mem_singleton.mp (negates e he)))
    exact .singleton (((Woven.append (.fixed (by decide)) (.string _)).append hvalues).append
      (.fixed (by decide)))
  | scan harguments =>
    rw [Statement.forms, forall_mem_map] at negates
    have haddresses := woven_formatted (forall_mem_map.mpr fun e he =>
      woven_address (harguments e he)
        (woven_expr (harguments e he) (forall_mem_singleton.mp (negates e he))))
    exact .singleton (((Woven.append (.fixed (by decide)) (.string _)).append haddresses).append
      (.fixed (by decide)))
  | @leave result hresult =>
    cases result with
    | none =>
      exact .singleton (.fixed (by decide))
    | some v =>
      exact .singleton ((Woven.append (.fixed (by decide)) (woven_var (hresult v rfl))).append
        (.fixed (by decide)))
  | exit =>
    exact .singleton (.fixed (by decide))

/-! ## Programs -/

theorem wovenLines_declarations {ks : List CountingLoop} {d : Declarations} (h : d.Plain)
    (negates : ∀ c ∈ d.constants, c.value.Negates P) (depth : Nat) :
    WovenLines P ks (d.lines depth) := by
  refine ((WovenLines.map fun c hc => ?_).append (.map fun s hs => ?_)).append
    (.map fun a ha => ?_)
  · obtain ⟨hname, hvalue⟩ := h.constants c hc
    refine (((Woven.append ?_ (woven_identifier hname)).append (.fixed (by decide))).append
      (woven_expr hvalue (negates c hc))).append (.fixed (by decide))
    split
    · exact .fixed (by decide)
    · exact (Woven.append (.fixed (by decide)) (woven_type _)).append (.fixed (by decide))
  · exact (((woven_type _).append (.fixed (by decide))).append
      (woven_identifier (h.scalars s hs))).append (.fixed (by decide))
  · refine ((((woven_type _).append (.fixed (by decide))).append
      (woven_identifier (h.arrays a ha))).append (.join ?_)).append (.fixed (by decide))
    exact forall_mem_map.mpr fun n _ =>
      (Woven.append (.fixed (by decide)) (woven_int _)).append (.fixed (by decide))

theorem wovenLines_block {b : Block} (h : b.Plain)
    (constants : ∀ c ∈ b.declarations.constants, c.value.Negates P)
    (negates : ∀ f ∈ Statement.formsAll b.statements, f.Negates P) (depth : Nat) :
    WovenLines P (Statement.countsAll b.statements) (b.lines depth) :=
  (wovenLines_declarations h.declarations constants depth).append
    (wovenLines_listLines fun s hs => wovenLines_statement (h.statements s hs)
      (fun f hf => negates f (mem_formsAll hs hf)) depth)

theorem woven_signature (h : r.Plain) : Woven P r.signature := by
  have hparam : ∀ p ∈ r.params, Woven P p.text := by
    intro p hp
    have hname : Woven P (identifier p.name) := woven_identifier (h.params p hp)
    refine (((woven_type _).append (.fixed (by decide))).append ?_).append hname
    split <;> exact .fixed (by decide)
  have hparams : Woven P (if r.params.isEmpty then "void"
      else ", ".intercalate (r.params.map Param.text)) := by
    split
    · exact .fixed (by decide)
    · exact .intercalate (forall_mem_map.mpr hparam)
  exact (((((woven_type _).append (.fixed (by decide))).append (woven_identifier h.name)).append
    (.fixed (by decide))).append hparams).append (.fixed (by decide))

theorem wovenLines_routine (h : r.Plain)
    (constants : ∀ c ∈ r.body.declarations.constants, c.value.Negates P)
    (negates : ∀ f ∈ Statement.formsAll r.body.statements, f.Negates P) :
    WovenLines P (Statement.countsAll r.body.statements) r.lines := by
  have hblock := wovenLines_block h.body constants negates 1
  have hbody : WovenLines P (Statement.countsAll r.body.statements) r.bodyLines := by
    unfold Routine.bodyLines
    split
    · next result hresult =>
      have hname : Woven P result.name := .name (h.result result hresult)
      refine (WovenLines.cons ?_ hblock).append (.singleton ?_)
      · exact (((woven_type _).append (.fixed (by decide))).append hname).append
          (.fixed (by decide))
      · exact (Woven.append (.fixed (by decide)) hname).append (.fixed (by decide))
    · exact hblock
  exact (WovenLines.cons ((woven_signature h).append (.fixed (by decide))) hbody).append
    (.cons (.fixed (by decide)) (.singleton (.fixed (by decide))))

def Program.counts (q : Program) : List CountingLoop :=
  q.parts.flatMap fun b => Statement.countsAll b.2

theorem wovenLines_program {q : Program} (h : q.Plain)
    (constants : ∀ c ∈ q.constants, c.value.Negates P)
    (negates : ∀ b ∈ q.parts, ∀ f ∈ Statement.formsAll b.2, f.Negates P) :
    WovenLines P q.counts q.lines := by
  obtain ⟨houtside, hinside⟩ := forall_mem_append.mp constants
  obtain ⟨hglobals, hmain⟩ := forall_mem_append.mp houtside
  have hcounts : ∀ b ∈ q.parts, Statement.countsAll b.2 ⊆ q.counts := fun b hb k hk =>
    mem_flatMap.mpr ⟨b, hb, hk⟩
  have hincludes : WovenLines P q.counts q.includeLines := by
    refine (WovenLines.cons (.fixed (by decide)) ?_).append (.singleton (.fixed (by decide)))
    split
    · exact .singleton (.fixed (by decide))
    · exact forall_mem_nil _
  have hglobalLines : WovenLines P q.counts q.globalLines := by
    unfold Program.globalLines
    split
    · exact forall_mem_nil _
    · exact (wovenLines_declarations h.globals hglobals 0).append (.singleton (.fixed (by decide)))
  have hroutines : WovenLines P q.counts q.routineLines := by
    unfold Program.routineLines
    split
    · exact forall_mem_nil _
    · refine (WovenLines.map fun r hr => ?_).append
        (.cons (.fixed (by decide)) (forall_mem_flatMap.mpr fun r hr => ?_))
      · exact (woven_signature (h.routines r hr)).append (.fixed (by decide))
      have hr' : (r.scope, r.body.statements) ∈ q.parts :=
        mem_cons_of_mem _ (mem_map_of_mem hr)
      exact (wovenLines_routine (h.routines r hr) (fun c hc => hinside c
        (mem_flatMap.mpr ⟨r, hr, hc⟩)) (negates _ hr')).mono (hcounts _ hr')
  have hmainLines : WovenLines P q.counts q.mainLines := by
    have hblock := wovenLines_block h.main hmain (negates _ mem_cons_self) 1
    exact (WovenLines.cons (.fixed (by decide))
      (hblock.mono (hcounts _ mem_cons_self))).append
      (.cons (.fixed (by decide)) (.singleton (.fixed (by decide))))
  exact ((hincludes.append hglobalLines).append hroutines).append hmainLines

end

end MiniPascal.C
