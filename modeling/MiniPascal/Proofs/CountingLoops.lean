import MiniPascal.Proofs.CExecution
import MiniPascal.Proofs.Levels
import MiniPascal.Proofs.Operands
import MiniPascal.Proofs.Preservation

/-!
# How often counting loops run

A counting loop of the source evaluates its bounds when it is entered, and its form in C evaluates
the last one before every round. The two agree on the runs in which that changes no decision, and on
no others.
-/

namespace MiniPascal

open List

structure CountingLoop where
  position : Position
  counter : String
  first : Expr
  last : Expr
  direction : Direction
  body : Statement

def CountingLoop.statement (k : CountingLoop) : Statement :=
  .count k.position k.counter k.first k.last k.direction k.body

namespace Statement

mutual

def counts : Statement → List CountingLoop
  | assign .. | call .. | exit _ => []
  | compound _ parts => countsAll parts
  | branch _ _ onTrue none => onTrue.counts
  | branch _ _ onTrue (some onFalse) => onTrue.counts ++ onFalse.counts
  | count position counter first last direction body =>
    ⟨position, counter, first, last, direction, body⟩ :: body.counts
  | loop _ _ body => body.counts

def countsAll : List Statement → List CountingLoop
  | [] => []
  | s :: ss => s.counts ++ countsAll ss

end

end Statement

namespace C

open Scope Analysis Typing
open C.Value (ofDatum)

namespace Statement

mutual

def counts : Statement → List CountingLoop
  | compound parts => countsAll parts
  | branch _ onTrue none => onTrue.counts
  | branch _ onTrue (some onFalse) => onTrue.counts ++ onFalse.counts
  | count counter first last down body => ⟨counter, first, last, down, body⟩ :: body.counts
  | loop _ body => body.counts
  | assign .. | call .. | print .. | scan .. | leave _ | exit => []

def countsAll : List Statement → List CountingLoop
  | [] => []
  | s :: ss => s.counts ++ countsAll ss

end

end Statement

/-! ## Loops of the source -/

structure CountingLoop.Lowered (env : Env) (k : MiniPascal.CountingLoop) (l : CountingLoop) :
    Prop where
  checked : Check.statement env.context k.statement = pure ()
  lowered : lowerStatement env k.statement = .ok l.statement

section Lowering

variable {env : Env} {σ : Run.Store} {τ : Store}

theorem lowerExpr_preserved (named : env.Named) (typed : σ.Typed env.table env.block)
    (corresponds : Corresponds env σ τ) {e : MiniPascal.Expr} (valued : env.Valued e) {c : Expr}
    (h : lowerExpr env e = .ok c) : c.eval τ = ofDatum <$> Run.eval env.table env.block σ e := by
  obtain ⟨T, hT, hp⟩ := valued
  let unfolded : Env := { env with folding := false }
  have hnamed : unfolded.Named := ⟨named.routine, named.result, named.resultName⟩
  have hcorresponds : Corresponds unfolded σ τ := by
    refine ⟨corresponds.place, fun h hr => ?_⟩
    obtain ⟨f, hf, performs⟩ := corresponds.routine h hr
    exact ⟨f, hf, performs.prototype, performs.result⟩
  obtain ⟨d, hd, preserved⟩ := convert_preserved hnamed typed hcorresponds
    (wellTyped_of_proper hT hp)
  have hd : lowerExpr unfolded e = .ok d := hd
  refine Eq.trans ?_ (preserved.value hT hp)
  cases hfolding : env.folding with
  | false =>
    have henv : unfolded = env := by
      cases env
      cases hfolding
      rfl
    rw [henv, h] at hd
    cases hd
    rfl
  | true =>
    have henv : unfolded.folded = env := by
      cases env
      cases hfolding
      rfl
    have hagree : Lower.Agree Expr.Agrees (lowerExpr unfolded e) (lowerExpr unfolded.folded e) :=
      lowerExpr_agrees rfl e
    rw [henv, hd, h] at hagree
    exact (hagree.value τ).symm

theorem shows_of_eval (named : env.Named) (typed : σ.Typed env.table env.block)
    (corresponds : Corresponds env σ τ) {e : MiniPascal.Expr} {c : Expr}
    (formed : Formed env (.value e) (.value c)) {n : Int64}
    (hn : Run.eval env.table env.block σ e = .ok (.scalar (.int n))) : τ.Shows c n.toInt := by
  cases formed with
  | value valued lowered =>
    refine ⟨n, ?_, rfl⟩
    rw [lowerExpr_preserved named typed corresponds valued lowered, hn]
    rfl

theorem shows_counter (typed : σ.Typed env.table env.block) (corresponds : Corresponds env σ τ)
    {p : Position} {name : String} {v : Var}
    (formed : Formed env (.counter p name) (.counter v)) : ∃ x, τ.Shows (.var v) x := by
  cases formed with
  | @counter _ _ item found kind type =>
    have hplace := Table.findPlace?_of_findData? found
    have hv : env.varOf item = some (itemVar item) := by
      rw [Env.varOf, if_neg (by simp [kind])]
    obtain ⟨o, ho, holds⟩ := corresponds.place hplace hv
    have hdims : item.type.dims = [] := by rw [type]; rfl
    have hbase : (σ.contents item []).base = .int := by
      have hproper : MiniPascal.Ty.Proper ⟨item.type.base, []⟩ := by
        rw [type]
        exact .int
      rw [typed.contents hplace hproper [] (by rw [hdims]; rfl) (by rw [hdims]; rfl), type]
      rfl
    have hcontents := holds.contents [] (by rw [hdims]; rfl) (by rw [hdims]; rfl)
    rw [hdims] at hcontents
    cases hd : σ.contents item [] with
    | string _ =>
      rw [hd] at hbase
      cases hbase
    | scalar value =>
      rw [hd] at hbase hcontents
      cases value with
      | int x =>
        exact ⟨_, Store.shows_var ho ⟨holds.isPointer, by rw [holds.dims, hdims]; rfl⟩ hcontents⟩
      | real | char | bool => cases hbase

theorem countsAll_lowered {ss : List MiniPascal.Statement} {cs : List Statement}
    (h : Forall₂ (fun s c => C.Lowered env s c ∧
      Forall₂ (CountingLoop.Lowered env) s.counts c.counts) ss cs) :
    Forall₂ (CountingLoop.Lowered env) (MiniPascal.Statement.countsAll ss)
      (Statement.countsAll cs) := by
  induction h with
  | nil => exact .nil
  | cons hc _ ih => exact rel_append hc.2 ih

theorem statement_loops (s : MiniPascal.Statement) (c : Statement) (hs : C.Lowered env s c)
    (h : LoweredBy env (fun s c => C.Lowered env s c ∧
      Forall₂ (CountingLoop.Lowered env) s.counts c.counts) s c) :
    Forall₂ (CountingLoop.Lowered env) s.counts c.counts := by
  cases h with
  | assign | print | scan | call | exit | leave => exact .nil
  | compound parts => exact countsAll_lowered parts
  | ifThen _ body | loop _ body => exact body.2
  | ifThenElse _ onTrue onFalse => exact rel_append onTrue.2 onFalse.2
  | count _ _ _ body => exact .cons ⟨hs.checked, hs.lowered⟩ body.2

theorem statements_loops (ss : List MiniPascal.Statement) (cs : List Statement)
    (h : Check.statements env.context ss = pure ()) (hc : lowerStatements env ss = .ok cs) :
    Forall₂ (CountingLoop.Lowered env) (MiniPascal.Statement.countsAll ss)
      (Statement.countsAll cs) :=
  countsAll_lowered (lowered_induct statement_loops ss cs h hc)

theorem CountingLoop.Lowered.parts (ready : env.Ready) {k : MiniPascal.CountingLoop}
    {l : CountingLoop} (h : CountingLoop.Lowered env k l) :
    Formed env (.counter k.position k.counter) (.counter l.counter) ∧
      Formed env (.value k.first) (.value l.first) ∧ Formed env (.value k.last) (.value l.last) ∧
      l.down = (k.direction == .down) ∧ lowerStatement env k.body = .ok l.body := by
  obtain ⟨hchecked, hc⟩ := h
  obtain ⟨_, hcounter, _, hf, hchecked⟩ := Checked.bind₂_eq_pure.mp hchecked
  obtain ⟨_, hl, _⟩ := Checked.bind_eq_pure.mp hchecked
  rw [MiniPascal.CountingLoop.statement, lowerStatement, CountingLoop.statement] at hc
  obtain ⟨v, hv, c, hfirst, hc⟩ := Except.bind₂_eq_ok.mp hc
  obtain ⟨d, hlast, body, hbody, hc⟩ := Except.bind₂_eq_ok.mp hc
  injection Except.ok.inj hc with hcounter' hfirst' hlast' hdown heq
  subst hcounter' hfirst' hlast' heq
  exact ⟨counter_formed hcounter hv, .value (valued_of_bound ready hf) hfirst,
    .value (valued_of_bound ready hl) hlast, hdown.symm, hbody⟩

end Lowering

/-! ## Loops of the text -/

def CountingLoop.stepText (l : CountingLoop) : String :=
  (if l.counter.byReference then "(" ++ l.counter.text ++ ")" else l.counter.text) ++
    (if l.down then "--" else "++")

/-- The head of a loop is the text of what it does before all rounds, before each and after each. -/
theorem CountingLoop.head_eq (l : CountingLoop) : ∃ start test : String,
    l.start.lines 0 = [⟨0, start ++ ";"⟩] ∧ l.test.text = "(" ++ test ++ ")" ∧
      countHead l.counter l.first l.last l.down =
        "for (" ++ start ++ "; " ++ test ++ "; " ++ l.stepText ++ ") \x7b" := by
  refine ⟨l.counter.text ++ " = " ++ l.first.text,
    l.counter.text ++ (if l.down then " >= " else " <= ") ++ l.last.text, rfl, ?_, ?_⟩
  · rw [CountingLoop.test, Expr.text, Expr.text]
    cases l.down <;> simp [BinaryOp.text, String.append_assoc]
  · unfold countHead CountingLoop.stepText
    cases l.down <;> cases l.counter.byReference <;> simp [String.append_assoc]

namespace Statement

mutual

theorem lines_infix : ∀ (t : Statement) (depth : Nat), ∀ l ∈ t.counts,
    ∃ d, l.statement.lines d <:+: t.lines depth
  | compound parts, depth, l, h => listLines_infix parts depth l h
  | branch _ onTrue none, depth, l, h => by
    obtain ⟨d, hd⟩ := lines_infix onTrue (depth + 1) l h
    exact ⟨d, hd.trans ⟨[_], [_], rfl⟩⟩
  | branch c onTrue (some onFalse), depth, l, h => by
    rw [lines]
    rcases mem_append.mp h with h | h
    · obtain ⟨d, hd⟩ := lines_infix onTrue (depth + 1) l h
      exact ⟨d, hd.trans ⟨[_], _, by simp only [append_assoc]; rfl⟩⟩
    · obtain ⟨d, hd⟩ := lines_infix onFalse (depth + 1) l h
      exact ⟨d, hd.trans ⟨_ :: lines (depth + 1) onTrue ++ [_], [_], by
        simp only [append_assoc, cons_append, nil_append]; rfl⟩⟩
  | count counter first last down body, depth, l, h => by
    rcases mem_cons.mp h with rfl | h
    · exact ⟨depth, infix_refl _⟩
    · obtain ⟨d, hd⟩ := lines_infix body (depth + 1) l h
      exact ⟨d, hd.trans ⟨[_], [_], rfl⟩⟩
  | loop _ body, depth, l, h => by
    obtain ⟨d, hd⟩ := lines_infix body (depth + 1) l h
    exact ⟨d, hd.trans ⟨[_], [_], rfl⟩⟩
  | assign .., _, _, h | call .., _, _, h | print .., _, _, h | scan .., _, _, h | leave _, _, _, h
  | exit, _, _, h => nomatch h

theorem listLines_infix : ∀ (ts : List Statement) (depth : Nat), ∀ l ∈ countsAll ts,
    ∃ d, l.statement.lines d <:+: listLines depth ts
  | [], _, _, h => nomatch h
  | t :: ts, depth, l, h => by
    rcases mem_append.mp h with h | h
    · obtain ⟨d, hd⟩ := lines_infix t depth l h
      exact ⟨d, hd.trans (prefix_append _ _).isInfix⟩
    · obtain ⟨d, hd⟩ := listLines_infix ts depth l h
      exact ⟨d, hd.trans (suffix_append _ _).isInfix⟩

end

end Statement

theorem Block.lines_infix (b : Block) (depth : Nat) :
    Statement.listLines depth b.statements <:+: b.lines depth :=
  (suffix_append _ _).isInfix

theorem Routine.lines_infix (r : Routine) : r.body.lines 1 <:+: r.lines := by
  have hbody : r.body.lines 1 <:+: r.bodyLines := by
    unfold Routine.bodyLines
    split
    · exact ⟨[_], [_], rfl⟩
    · exact infix_refl _
  exact hbody.trans ⟨[_], _, rfl⟩

theorem Program.lines_infix (q : Program) {b : List Declaration × List Statement}
    (hb : b ∈ q.parts) : Statement.listLines 1 b.2 <:+: q.lines := by
  rcases mem_cons.mp hb with rfl | hb
  · have hmain : q.main.lines 1 <:+: q.mainLines := ⟨[_], _, rfl⟩
    exact (q.main.lines_infix 1).trans (hmain.trans (suffix_append _ _).isInfix)
  · obtain ⟨r, hr, rfl⟩ := mem_map.mp hb
    have hroutines : r.lines <:+: q.routineLines := by
      unfold Program.routineLines
      rw [if_neg fun hempty => ne_nil_of_mem hr (List.isEmpty_iff.mp hempty)]
      have hflat : r.lines <:+: q.routines.flatMap Routine.lines := by
        exact infix_of_mem_flatten (mem_map_of_mem hr)
      exact hflat.trans ((suffix_cons _ _).trans (suffix_append _ _)).isInfix
    have hlines : q.routineLines <:+: q.lines := ⟨q.includeLines ++ q.globalLines, q.mainLines, rfl⟩
    exact (r.body.lines_infix 1).trans (r.lines_infix.trans (hroutines.trans hlines))

/-! ## Loops of a program -/

/-- A loop in C that comes from one of the source, which is in the text of its program and counts as
that one does, as far as the bound that it finds before each round decides as the one on entry. -/
structure CountsAs (q : Program) (env : Env) (k : MiniPascal.CountingLoop) (l : CountingLoop) :
    Prop where
  counter : ∃ item, env.table.findData? env.block k.counter = some item ∧ l.counter = itemVar item
  down : l.down = (k.direction == .down)
  body : lowerStatement env k.body = .ok l.body
  head : ∃ start test : String, l.start.lines 0 = [⟨0, start ++ ";"⟩] ∧
    l.test.text = "(" ++ test ++ ")" ∧ countHead l.counter l.first l.last l.down =
      "for (" ++ start ++ "; " ++ test ++ "; " ++ l.stepText ++ ") \x7b"
  emitted : ∃ depth, l.statement.lines depth <:+: q.lines
  follows : ∀ (M : Machine) (s : M.State) (σ : Run.Store), σ.Typed env.table env.block →
    Corresponds env σ (M.store s) → M.KeepsCounter l → ∀ a b : Int64,
      Run.eval env.table env.block σ k.first = .ok (.scalar (.int a)) →
      Run.eval env.table env.block σ k.last = .ok (.scalar (.int b)) →
        M.Follows l s a.toInt b.toInt

section

variable {p : MiniPascal.Program} {folding : Bool} {q : Program} {a : Part}
  {b : List Declaration × List Statement}

theorem PartOf.loops (accepted : Accepted p) (h : PartOf p folding q a b) :
    Forall₂ (CountingLoop.Lowered a.env) (MiniPascal.Statement.countsAll a.statements)
      (Statement.countsAll b.2) := by
  cases h with
  | main lowered => exact statements_loops _ _ accepted.checked.statements lowered
  | routine split of =>
    exact statements_loops _ _ (statements_checked accepted.checked split) of.statements

theorem PartOf.countsAs (accepted : Accepted p) (h : PartOf p folding q a b) (hb : b ∈ q.parts)
    {k : MiniPascal.CountingLoop} {l : CountingLoop} (lowered : CountingLoop.Lowered a.env k l)
    (hl : l ∈ Statement.countsAll b.2) : CountsAs q a.env k l := by
  have ready := h.ready accepted
  obtain ⟨hcounter, hfirst, hlast, hdown, hbody⟩ := lowered.parts ready
  refine ⟨?_, hdown, hbody, l.head_eq, ?_, ?_⟩
  · generalize l.counter = v at hcounter
    cases hcounter with
    | counter found _ _ => exact ⟨_, found, rfl⟩
  · obtain ⟨d, hd⟩ := Statement.listLines_infix b.2 1 l hl
    exact ⟨d, hd.trans (q.lines_infix hb)⟩
  · intro M s σ typed corresponds keeps a b ha hb
    obtain ⟨x, hx⟩ := shows_counter typed corresponds hcounter
    exact M.follows keeps hx (shows_of_eval ready.toNamed typed corresponds hfirst ha)
      (shows_of_eval ready.toNamed typed corresponds hlast hb)

end

/-- Every counting loop of a checked source is a `for` in C, in the same place. A run of it, in
which only the loop writes its counter, counts from the first bound on entry to the last one exactly
if each bound that is found before a round decides as the one on entry, and so it does if no round
changes the bound. -/
theorem counting_loops_follow {source : String} {p : MiniPascal.Program}
    (hparse : parse (scan source) = .ok (p, [])) (hclean : (analyze p).isClean = true)
    {level : Nat} {q : Program} (hlower : lower p (analyze p).table (foldsAt level) = .ok q) :
    compile source level = .ok q.text ∧
      Forall₂ (fun a b => Forall₂ (CountsAs q a.env)
          (MiniPascal.Statement.countsAll a.statements) (Statement.countsAll b.2))
        (Part.ofProgram p (foldsAt level)) q.parts := by
  have hcompile : compile source level = .ok q.text := by
    rw [compile, hparse]
    simp only [compileProgram, hclean, if_true, hlower]
  obtain ⟨accepted, assembled⟩ := assembled_of_source hparse hclean hlower
  refine ⟨hcompile, forall₂_imp_of_mem (assembled.parts accepted) fun a _ b hb hpart => ?_⟩
  exact forall₂_imp_of_mem (hpart.loops accepted) fun k _ l hl lowered =>
    hpart.countsAs accepted hb lowered hl

/-! ## Sources with one loop -/

section OneLoop

variable {env : Env}

theorem faithful_of_variables (named : env.Named)
    (h : ∀ item ∈ env.visibleItems, item.kind = .var ∧ item.type = .int) : env.Faithful where
  toNamed := named
  distinct ha _ hkind := by
    rw [(h _ (mem_visibleItems.mpr ha)).1] at hkind
    cases hkind
  resultOf hv hkind := by
    rw [(h _ (mem_visibleItems.mpr hv)).1] at hkind
    cases hkind

theorem typed_of_variables {σ : Run.Store}
    (h : ∀ item ∈ env.visibleItems, item.kind = .var ∧ item.type = .int)
    (hσ : ∀ item, (σ.contents item []).base = .int) : σ.Typed env.table env.block where
  contents hp _ indices hlength _ := by
    obtain ⟨_, htype⟩ := h _ (mem_visibleItems.mpr (Table.findPlace?_visible hp))
    rw [htype] at hlength ⊢
    rw [length_eq_zero_iff.mp hlength, hσ]
    rfl
  result hr := by
    obtain ⟨hkind, _, _, hv⟩ := Table.findRoutine_ok hr
    rw [(h _ (mem_visibleItems.mpr hv)).1] at hkind
    cases hkind

end OneLoop

/-- A variable `n` of the value two, and all others zero. -/
def twoInN : Run.Store where
  contents item _ := .scalar (.int (if item.name = "n" then 2 else 0))
  result _ _ := .error .mistyped

/-- Whether a program has integer variables only and one loop, whose bounds have the values `a` and
`b` where `n` is two, and whose form passes a test. -/
def hasOneLoop (a b : Int64) (test : CountingLoop → Bool) (p : MiniPascal.Program) : Bool :=
  let env := Env.ofProgram p (foldsAt 0)
  let value (e : MiniPascal.Expr) := Run.eval env.table env.block twoInN e
  env.visibleItems.all (fun item => item.kind == .var && item.type == .int) &&
    (match MiniPascal.Statement.countsAll p.body.statements with
      | [k] => decide (value k.first = .ok (.scalar (.int a)) ∧
          value k.last = .ok (.scalar (.int b)))
      | _ => false) &&
    (lower p (analyze p).table (foldsAt 0)).toOption.any fun q =>
      match Statement.countsAll q.main.statements with
      | [l] => test l
      | _ => false

/-- A checked source with one loop, which is entered in a state where its bounds have the values `a`
and `b`. -/
structure Entered (source : String) (p : MiniPascal.Program) (q : Program)
    (k : MiniPascal.CountingLoop) (l : CountingLoop) (s : Store) (a b : Int64) : Prop where
  parsed : parse (scan source) = .ok (p, [])
  clean : (analyze p).isClean = true
  lowered : lower p (analyze p).table (foldsAt 0) = .ok q
  loops : MiniPascal.Statement.countsAll p.body.statements = [k]
  forms : Statement.countsAll q.main.statements = [l]
  typed : twoInN.Typed (Env.ofProgram p (foldsAt 0)).table (Env.ofProgram p (foldsAt 0)).block
  corresponds : Corresponds (Env.ofProgram p (foldsAt 0)) twoInN s
  first : Run.eval (Env.ofProgram p (foldsAt 0)).table (Env.ofProgram p (foldsAt 0)).block twoInN
    k.first = .ok (.scalar (.int a))
  last : Run.eval (Env.ofProgram p (foldsAt 0)).table (Env.ofProgram p (foldsAt 0)).block twoInN
    k.last = .ok (.scalar (.int b))

theorem exists_entered (source : String) (a b : Int64) (test : CountingLoop → Bool)
    (h : acceptedWith source (hasOneLoop a b test) = true) :
    ∃ p q k l s, Entered source p q k l s a b ∧ test l = true := by
  obtain ⟨p, hp, hclean, htest⟩ := of_acceptedWith source _ h
  simp only [hasOneLoop, Bool.and_eq_true] at htest
  obtain ⟨⟨hitems, hloop⟩, hform⟩ := htest
  obtain ⟨q, hq, hform⟩ := of_lowered hform
  obtain ⟨accepted, _⟩ := accepted_of_source hp hclean
  have hitems : ∀ item ∈ (Env.ofProgram p (foldsAt 0)).visibleItems,
      item.kind = .var ∧ item.type = .int := by
    intro item hitem
    have hitem := all_eq_true.mp hitems item hitem
    rw [Bool.and_eq_true, beq_iff_eq, beq_iff_eq] at hitem
    exact hitem
  split at hloop
  · next k hk =>
    split at hform
    · next l hl =>
      obtain ⟨hfirst, hlast⟩ := of_decide_eq_true hloop
      have ready : (Env.ofProgram p (foldsAt 0)).Ready := ready_ofProgram accepted.checked
      have faithful := faithful_of_variables ready.toNamed hitems
      exact ⟨p, q, k, l, _, ⟨hp, hclean, hq, hk, hl, typed_of_variables hitems fun _ => rfl,
        corresponds_storeOf faithful twoInN, hfirst, hlast⟩, hform⟩
    · cases hform
  · cases hloop

section Entered

variable {source : String} {p : MiniPascal.Program} {q : Program} {k : MiniPascal.CountingLoop}
  {l : CountingLoop} {s : Store} {a b : Int64}

theorem Entered.shows (h : Entered source p q k l s a b) :
    (∃ x, s.Shows (.var l.counter) x) ∧ s.Shows l.first a.toInt ∧ s.Shows l.last b.toInt := by
  obtain ⟨accepted, assembled⟩ := assembled_of_source h.parsed h.clean h.lowered
  have hpart : PartOf p (foldsAt 0) q _ _ := .main assembled.statements
  have hloops := hpart.loops accepted
  rw [h.loops, h.forms] at hloops
  have ready := hpart.ready accepted
  obtain ⟨hcounter, hfirst, hlast, _⟩ := (forall₂_cons.mp hloops).1.parts ready
  exact ⟨shows_counter h.typed h.corresponds hcounter,
    shows_of_eval ready.toNamed h.typed h.corresponds hfirst h.first,
    shows_of_eval ready.toNamed h.typed h.corresponds hlast h.last⟩

end Entered

def Expr.int? : Expr → Option Int64
  | int x => some x
  | _ => none

def Expr.var? : Expr → Option Var
  | var v => some v
  | _ => none

def Statement.assigned? : Statement → Option (Expr × Expr)
  | assign target value => some (target, value)
  | _ => none

def Statement.setsTo (v : Var) (x : Int64) (t : Statement) : Bool :=
  t.assigned?.any fun a => a.1.var? = some v && a.2.int? = some x

variable {x : Int64} {v : Var}

theorem Expr.eq_int {e : Expr} (h : e.int? = some x) : e = .int x := by
  cases e <;> cases h
  rfl

theorem Expr.eq_var {e : Expr} (h : e.var? = some v) : e = .var v := by
  cases e <;> cases h
  rfl

theorem Statement.eq_assign_of_setsTo {t : Statement} (h : t.setsTo v x = true) :
    t = .assign (.var v) (.int x) := by
  cases t with
  | assign target value =>
    have h : (decide (target.var? = some v) && decide (value.int? = some x)) = true := h
    rw [Bool.and_eq_true, decide_eq_true_iff, decide_eq_true_iff] at h
    rw [Expr.eq_var h.1, Expr.eq_int h.2]
  | _ => cases h

/-- A loop whose body changes its first bound, which is not evaluated again. -/
def countdown : String :=
  "program p; var i, n: integer; begin n := 2; for i := n downto 1 do n := 0 end."

/-- A body that sets another variable gets down to a bound that is a literal and not the least
word, as the counter has to pass it. -/
theorem plain_progresses {i : Var} {f : Expr} {y : Int64} (hne : i.name ≠ v.name)
    (hx : Int64.minValue.toInt < x.toInt) :
    Machine.plain.Progresses ⟨i, f, .int x, true, .assign (.var v) (.int y)⟩ x.toInt
      fun τ => ∃ n, Store.Shows τ (.var i) n where
  round := by
    rintro τ _ _ ⟨w, hw, rfl⟩ hgoes
    have hword : (Integer.ofInt? (reached true w.toInt 1)).isSome := by
      have hgoes : x.toInt ≤ w.toInt := hgoes
      have hle := w.toInt_le
      rw [reached, if_pos rfl, Integer.ofInt?, if_pos ⟨by omega, by omega⟩]
      rfl
    obtain ⟨z, hround⟩ := plain_round rfl hne ⟨w, hw, rfl⟩ rfl hword
    exact ⟨_, hround, _, (plain_keepsCounter rfl hne).round hround ⟨w, hw, rfl⟩⟩
  ended := fun {τ} _ => ⟨τ, rfl⟩

theorem countdown_follows : ∃ p q k l s tests s',
    Entered countdown p q k l s 2 1 ∧ compile countdown 0 = .ok q.text ∧
      CountsAs q (Env.ofProgram p (foldsAt 0)) k l ∧ Machine.plain.Runs l s tests s' ∧
      counted tests = [2, 1] := by
  obtain ⟨p, q, k, ⟨i, f, last, down, body⟩, s, entered, htest⟩ := exists_entered countdown 2 1
    (fun l => l.counter.name = "i" && l.last.int? = some 1 && l.down &&
      l.body.setsTo { name := "n" } 0)
    (acceptedWith_of_chars rfl (by decide +kernel))
  simp only [Bool.and_eq_true, decide_eq_true_iff] at htest
  obtain ⟨⟨⟨hi, hlast⟩, rfl⟩, hbody⟩ := htest
  obtain rfl := Expr.eq_int hlast
  obtain rfl := Statement.eq_assign_of_setsTo hbody
  have hne : i.name ≠ "n" := by
    rw [hi]
    decide
  obtain ⟨hcompile, hparts⟩ := counting_loops_follow entered.parsed entered.clean entered.lowered
  have hloops := (List.forall₂_cons.mp hparts).1
  rw [entered.loops, entered.forms] at hloops
  have counts := (List.forall₂_cons.mp hloops).1
  have kept : Machine.plain.KeepsBound
      ⟨i, f, .int 1, true, .assign (.var { name := "n" }) (.int 0)⟩ :=
    ⟨fun _ h => h, fun _ h => h⟩
  have follows := counts.follows Machine.plain s twoInN entered.typed entered.corresponds
    (plain_keepsCounter rfl hne) 2 1 entered.first entered.last
  obtain ⟨⟨x, hx⟩, ⟨y, hy, _⟩, _⟩ := entered.shows
  obtain ⟨tests, s', hruns⟩ := follows.completes kept (plain_does hy)
    ⟨_, Store.shows_set hx y⟩ (plain_progresses hne (by decide))
  exact ⟨p, q, k, _, s, tests, s', entered, hcompile, counts, hruns, follows.kept kept hruns⟩

/-- A loop whose body changes its last bound. -/
def resetBound : String :=
  "program p; var i, n: integer; begin n := 2; for i := 1 to n do n := 0 end."

/-- The bound is two on entry and zero after the first round, which is the last. -/
theorem reset_bound_cuts_count : ∃ p q k l s tests s',
    Entered resetBound p q k l s 1 2 ∧ Machine.plain.KeepsCounter l ∧
      Machine.plain.Runs l s tests s' ∧ counted tests = [1] ∧ span l.down 1 2 = [1, 2] := by
  obtain ⟨p, q, k, ⟨i, f, last, down, body⟩, s, entered, htest⟩ := exists_entered resetBound 1 2
    (fun l => l.counter.name = "i" && l.last.var? = some { name := "n" } && !l.down &&
      l.body.setsTo { name := "n" } 0)
    (acceptedWith_of_chars rfl (by decide +kernel))
  simp only [Bool.and_eq_true, decide_eq_true_iff, Bool.not_eq_true'] at htest
  obtain ⟨⟨⟨hi, hlast⟩, rfl⟩, hbody⟩ := htest
  obtain rfl := Expr.eq_var hlast
  obtain rfl := Statement.eq_assign_of_setsTo hbody
  have hne : i.name ≠ "n" := by
    rw [hi]
    decide
  obtain ⟨⟨x, hx⟩, ⟨y, hy, hone⟩, hn⟩ := entered.shows
  have keeps : Machine.plain.KeepsCounter
      ⟨i, f, .var { name := "n" }, false, .assign (.var { name := "n" }) (.int 0)⟩ :=
    plain_keepsCounter rfl hne
  -- The counter is set to one, where the bound is still two.
  have hi := Store.shows_set hx y
  rw [hone] at hi
  have hn := Store.shows_set_of_ne hne.symm (.int y) hn
  have hgoes : GoesOn false (Int64.toInt 1) (Int64.toInt 2) := by decide
  have hword : (Integer.ofInt? (reached false (Int64.toInt 1) 1)).isSome := by decide
  obtain ⟨z, hround⟩ := plain_round rfl hne hi rfl hword
  -- After the round the counter is two and the bound is zero.
  have hi' := keeps.round hround hi
  have hn' := Store.shows_set_of_ne hne.symm z (Store.shows_set hn 0)
  have hpast : ¬GoesOn false (reached false (Int64.toInt 1) 1) (Int64.toInt 0) := by decide
  exact ⟨p, q, k, _, s, _, _, entered, keeps,
    ⟨_, plain_does hy, hround.rounds hi hn hgoes (.past hi' hn' hpast rfl)⟩, rfl, rfl⟩

end C

end MiniPascal
