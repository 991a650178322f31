import MiniPascal.Proofs.LoweredNegations
import MiniPascal.Proofs.SpacedText

/-!
# Minus signs in the text

Outside strings a program has pairs of minus signs only as the steps of its loops, unless the least
integer stands behind a minus: what C then reads is a decrement.
-/

namespace MiniPascal.C

open List

theorem spaced_indentation (depth : Nat) : Spaced (Line.indentation depth) :=
  .of_not_mem (neat_indentation depth) fun hmem => absurd (eq_blank_of_mem_indentation hmem)
    (by decide)

/-- The step is the one place outside strings where the head of a loop has two minus signs. -/
theorem CountingLoop.StepsDown.split {k : CountingLoop} {l : Line}
    (h : k.StepsDown Expr.TakesMinus l.text) {before after : List Char}
    (hsplit : l.body.toList = before ++ '-' :: '-' :: after) :
    (Zone.code.after before).inString = true ∨
      before = (Line.indentation l.depth ++ k.beforeStep).toList := by
  have hhead := (spaced_indentation l.depth).append h.woven.spaced
  rw [Line.body, h.text_eq, ← String.append_assoc, String.toList_append] at hsplit
  rcases split_append hsplit (.inl hhead.last) with ⟨rest, hrest⟩ | ⟨rest, rfl, hrest⟩
  · exact .inl (hhead.separate before rest hrest)
  · have hstep : "--) \x7b".toList = ['-', '-', ')', ' ', '\x7b'] := rfl
    rw [hstep] at hrest
    cases rest with
    | nil => exact .inr (append_nil _)
    | cons c rest =>
      -- there would be a third minus
      have hcount : (c :: rest ++ '-' :: '-' :: after).count '-' = 2 := by
        rw [← hrest]
        decide
      obtain ⟨rfl, _⟩ := List.cons.inj hrest
      rw [cons_append, count_cons_self, count_append, count_cons_self,
        count_cons_self] at hcount
      omega

theorem WovenLines.split {ks : List CountingLoop} {ls : List Line}
    (h : WovenLines Expr.TakesMinus ks ls) {before after : List Char}
    (hsplit : (ls.flatMap fun l => l.render.toList) = before ++ '-' :: '-' :: after) :
    (Zone.code.after before).inString = true ∨ ∃ earlier l later, ls = earlier ++ l :: later ∧
      ∃ k ∈ ks, k.StepsDown Expr.TakesMinus l.text ∧
        before = (earlier.flatMap fun l => l.render.toList) ++
          (Line.indentation l.depth ++ k.beforeStep).toList := by
  induction ls generalizing before with
  | nil => simp at hsplit
  | cons l ls ih =>
    obtain ⟨hl, hls⟩ := forall_mem_cons.mp h
    have hbody := neat_body (h.neat l mem_cons_self)
    rw [flatMap_cons, Line.toList_render] at hsplit
    rcases split_append hsplit (.inl (by simp)) with ⟨rest, hrest⟩ | ⟨rest, rfl, hrest⟩
    · -- no minus is in the end of the line
      rcases split_append hrest (.inr (by decide)) with ⟨rest, hrest⟩ | ⟨rest, _, hrest⟩
      · rcases hl with hwoven | ⟨k, hk, hsteps⟩
        · exact .inl (((spaced_indentation _).append hwoven.spaced).separate before rest hrest)
        · exact (hsteps.split hrest).imp_right fun heq =>
            ⟨[], l, ls, rfl, k, hk, hsteps, heq⟩
      · have hmem : '-' ∈ ['\n'] := hrest ▸ mem_append_right _ mem_cons_self
        exact absurd hmem (by decide)
    · have hzone : Zone.code.after (l.body.toList ++ ['\n']) = .code := by
        rw [Zone.after_append, hbody.closed]
        rfl
      rcases ih hls hrest with hstring | ⟨earlier, m, later, rfl, k, hk, hsteps, rfl⟩
      · rw [Zone.after_append, hzone]
        exact .inl hstring
      · refine .inr ⟨l :: earlier, m, later, rfl, k, hk, hsteps, ?_⟩
        rw [flatMap_cons, Line.toList_render, append_assoc (_ ++ _)]

/-- Behind this text there is the step of a loop that counts down. -/
def Program.StepAt (q : Program) (before : List Char) : Prop :=
  ∃ k ∈ q.counts, k.down = true ∧ ∃ earlier depth later,
    q.lines = earlier ++ ⟨depth, countHead k.counter k.first k.last k.down⟩ :: later ∧
    before = (earlier.flatMap fun l => l.render.toList) ++
      (Line.indentation depth ++ k.beforeStep).toList

/-- No minus stands before an operand whose text begins with one, and outside strings two minus
signs meet only in the steps of loops that count down. -/
structure SignsApart (q : Program) : Prop where
  operands : ∀ d ∈ q.negated, ¬d.LeadsMinus
  text : ∀ before after, q.text.toList = before ++ '-' :: '-' :: after →
    (Zone.code.after before).inString = true ∨ q.StepAt before

theorem signsApart_of_operands {q : Program} (h : q.Plain)
    (operands : ∀ d ∈ q.negated, ¬d.LeadsMinus) : SignsApart q := by
  refine ⟨operands, fun before after hsplit => ?_⟩
  have hexprs : ∀ c ∈ q.exprs, c.Negates Expr.TakesMinus := fun c hc d hd =>
    operands d (mem_flatMap.mpr ⟨c, hc, hd⟩)
  obtain ⟨hvalues, hparts⟩ := forall_mem_append.mp hexprs
  have hlines := wovenLines_program h (forall_mem_map.mp hvalues) fun b hb f hf c hc =>
    hparts c (mem_flatMap.mpr ⟨b, hb, mem_flatMap.mpr ⟨f, hf, hc⟩⟩)
  rw [toList_text] at hsplit
  refine (hlines.split hsplit).imp_right ?_
  rintro ⟨earlier, l, later, heq, k, hk, hsteps, hbefore⟩
  exact ⟨k, hk, hsteps.down, earlier, l.depth, later, hsteps.head ▸ heq, hbefore⟩

theorem plain_exprs_of_source {source : String} {p : MiniPascal.Program}
    (h : parse (scan source) = .ok (p, [])) : ∀ e ∈ p.exprs, e.Plain :=
  fun e he => (exprs_drawn h e he).plain

/-- In a lowered source the minus signs are apart, unless it is folded and the operand of one of its
minus signs folds to the least integer, which cannot be negated. -/
theorem signsApart_iff {source : String} {p : MiniPascal.Program}
    (hparse : parse (scan source) = .ok (p, [])) (hclean : (analyze p).isClean = true)
    {level : Nat} {q : Program} (hlower : lower p (analyze p).table (foldsAt level) = .ok q) :
    SignsApart q ↔ ¬(foldsAt level = true ∧ ∃ e ∈ p.exprs, e.NegatesLeast) := by
  obtain ⟨accepted, assembled⟩ := assembled_of_source hparse hclean hlower
  have hplain := gives_lower (plain_of_source hparse) _ _ q hlower
  have hleads := assembled.leadsMinus accepted (plain_of_source hparse)
    (plain_exprs_of_source hparse) (nonnegative_of_source hparse)
  rw [← hleads]
  constructor
  · rintro h ⟨d, hd, hd'⟩
    exact h.operands d hd hd'
  · intro h
    exact signsApart_of_operands hplain fun d hd hd' => h ⟨d, hd, hd'⟩

/-- Loops that count down, one of them by reference, minus signs in strings, before minus signs and
behind them. -/
def signs : String := "program p; const least = -5; s = 'a--b'; var i, n: integer; x: real;
  a: array[-3..3] of integer;
  procedure q(var k: integer);
    begin for k := 3 downto -2 do write('--', -k - (-n)) end;
  begin q(i); for i := n downto 1 do a[i] := -(-n) - (-7); x := -(-2.5) - least; write(s, '-') end."

set_option maxRecDepth 2000 in
theorem signs_signsApart : ∃ (p : MiniPascal.Program) (q : Program),
    parse (scan signs) = .ok (p, []) ∧ (analyze p).isClean = true ∧
      lower p (analyze p).table (foldsAt 1) = .ok q ∧
      q.negated.map Expr.text = ["(-n)", "n", "*k", "n"] ∧
      q.counts.map (fun k => (k.beforeStep, k.down)) =
        [("for (i = n; i >= 1; i", true), ("for (*k = 3; *k >= -2; (*k)", true)] ∧
      (¬∃ e ∈ p.exprs, e.NegatesLeast) ∧ SignsApart q := by
  obtain ⟨p, q, hp, hclean, hlower, hnegated, hcounts, hleast⟩ := exists_lowered signs (foldsAt 1)
    (fun p q => q.negated.map Expr.text = ["(-n)", "n", "*k", "n"] ∧
      q.counts.map (fun k => (k.beforeStep, k.down)) =
        [("for (i = n; i >= 1; i", true), ("for (*k = 3; *k >= -2; (*k)", true)] ∧
      ¬∃ e ∈ p.exprs, e.NegatesLeast) rfl (by decide +kernel)
  exact ⟨p, q, hp, hclean, hlower, hnegated, hcounts, hleast,
    (signsApart_iff hp hclean hlower).mpr fun h => hleast h.2⟩

/-- The least integer, which only folding can bring about, behind a minus. -/
def negatedLeast : String :=
  "program p; var x: integer; begin x := -(-9223372036854775807 - 1) end."

/-- Its text in C, before and behind the decrement of a constant. -/
def negatedLeastText : String × String :=
  ("#include <stdio.h>\n\nint main() \x7b\n    int x;\n    x = (",
    "9223372036854775808);\n    return 0;\n\x7d\n")

theorem negated_least_decrements : ∃ (p : MiniPascal.Program) (q : Program),
    parse (scan negatedLeast) = .ok (p, []) ∧ (analyze p).isClean = true ∧
      lower p (analyze p).table (foldsAt 1) = .ok q ∧ (∃ d ∈ q.negated, d.LeadsMinus) ∧
      q.text = negatedLeastText.1 ++ "--" ++ negatedLeastText.2 ∧
      (Zone.code.after negatedLeastText.1.toList).inString = false ∧
      ¬q.StepAt negatedLeastText.1.toList ∧ ¬SignsApart q := by
  obtain ⟨p, q, hp, hclean, hlower, hleads, htext, hcounts⟩ := exists_lowered negatedLeast
    (foldsAt 1) (fun _ q => (∃ d ∈ q.negated, d.LeadsMinus) ∧
      q.text = negatedLeastText.1 ++ "--" ++ negatedLeastText.2 ∧ q.counts = [])
    rfl (by decide +kernel)
  refine ⟨p, q, hp, hclean, hlower, hleads, htext, by decide +kernel, ?_, ?_⟩
  · rintro ⟨k, hk, _⟩
    rw [hcounts] at hk
    cases hk
  · obtain ⟨d, hd, hd'⟩ := hleads
    exact fun h => h.operands d hd hd'

end MiniPascal.C
