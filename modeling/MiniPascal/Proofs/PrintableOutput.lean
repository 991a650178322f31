import MiniPascal.Proofs.WovenText

/-!
# What is written is printable

Every text that a line is woven from is of printable ASCII characters and leads from code back to
code.
-/

namespace MiniPascal

open List

namespace C

theorem Woven.neat {P : Expr → Prop} {text : String} (h : Woven P text) : Neat text := by
  induction h with
  | fixed h => exact h.neat
  | name h => exact neat_of_spelled h
  | string => exact neat_stringLiteral _
  | char h => exact neat_charLiteral h
  | sign _ _ ih => exact .append (by decide) ih
  | negation _ _ ih =>
    exact ((Neat.append (by decide) (by decide)).append ih).append (by decide)
  | append _ _ ihs iht => exact ihs.append iht

def NeatLines (ls : List Line) : Prop := ∀ l ∈ ls, Neat l.text

theorem WovenLines.neat {P : Expr → Prop} {ks : List CountingLoop} {ls : List Line}
    (h : WovenLines P ks ls) : NeatLines ls := by
  intro l hl
  rcases h l hl with hwoven | ⟨k, _, hsteps⟩
  · exact hwoven.neat
  · rw [hsteps.text_eq]
    exact hsteps.woven.neat.append (by decide)

theorem neatLines_program {q : Program} (h : q.Plain) : NeatLines q.lines :=
  (wovenLines_program (P := fun _ => True) h (fun _ _ _ _ => trivial)
    fun _ _ _ _ _ _ _ _ => trivial).neat

def Line.body (l : Line) : String := indentation l.depth ++ l.text

theorem Line.toList_render (l : Line) : l.render.toList = l.body.toList ++ ['\n'] := by
  rw [render, body, String.toList_append]
  rfl

theorem eq_blank_of_mem_indentation {depth : Nat} {c : Char}
    (h : c ∈ (Line.indentation depth).toList) : c = ' ' := by
  rw [Line.indentation, String.toList_ofList] at h
  exact eq_of_mem_replicate h

theorem neat_indentation (depth : Nat) : Neat (Line.indentation depth) := by
  refine .of_forall fun c hc => ?_
  rw [eq_blank_of_mem_indentation hc]
  decide

theorem neat_body {l : Line} (h : Neat l.text) : Neat l.body := (neat_indentation _).append h

theorem Neat.newline_not_mem {text : String} (h : Neat text) : '\n' ∉ text.toList :=
  fun hmem => absurd (h.printable _ hmem) (by decide)

theorem toList_text (q : Program) : q.text.toList = q.lines.flatMap fun l => l.render.toList := by
  rw [Program.text, String.toList_join, flatMap_map]

theorem newline_ends_line {ls : List Line} (h : NeatLines ls) {before after : List Char}
    (hsplit : (ls.flatMap fun l => l.render.toList) = before ++ '\n' :: after) :
    Zone.code.after before = .code ∧ ∃ earlier l later, ls = earlier ++ l :: later ∧
      before = (earlier.flatMap fun l => l.render.toList) ++ l.body.toList := by
  induction ls generalizing before with
  | nil => simp at hsplit
  | cons l ls ih =>
    obtain ⟨hl, hls⟩ := forall_mem_cons.mp h
    have hbody := neat_body hl
    rw [flatMap_cons, Line.toList_render, append_assoc, singleton_append] at hsplit
    rcases append_eq_append_iff.mp hsplit with ⟨rest, rfl, hrest⟩ | ⟨rest, hrest, htail⟩
    · cases rest with
      | nil =>
        rw [append_nil]
        exact ⟨hbody.closed, [], l, ls, rfl, rfl⟩
      | cons c rest =>
        -- the newline is behind a later line
        obtain ⟨rfl, hlater⟩ := List.cons.inj hrest
        obtain ⟨hzone, earlier, m, later, rfl, rfl⟩ := ih hls hlater
        refine ⟨?_, l :: earlier, m, later, rfl, ?_⟩
        · rw [Zone.after_append, hbody.closed]
          exact hzone
        · rw [flatMap_cons, Line.toList_render]
          simp
    · cases rest with
      | nil =>
        rw [append_nil] at hrest
        exact ⟨hrest ▸ hbody.closed, [], l, ls, rfl, hrest.symm⟩
      | cons c rest =>
        obtain ⟨rfl, _⟩ := List.cons.inj htail
        exact absurd (hrest ▸ mem_append_right _ mem_cons_self) hbody.newline_not_mem

theorem printable_of_mem_text {q : Program} (h : q.Plain) :
    ∀ c ∈ q.text.toList, c = '\n' ∨ IsPrintable c := by
  intro c hc
  rw [toList_text] at hc
  obtain ⟨l, hl, hc⟩ := mem_flatMap.mp hc
  rw [Line.toList_render] at hc
  rcases mem_append.mp hc with hc | hc
  · exact .inr ((neat_body (neatLines_program h l hl)).printable c hc)
  · exact .inl (mem_singleton.mp hc)

end C

theorem compile_eq_ok {source : String} {level : Nat} {c : String}
    (h : compile source level = .ok c) : ∃ p q, parse (scan source) = .ok (p, []) ∧
      C.lower p (analyze p).table (foldsAt level) = .ok q ∧ c = q.text := by
  unfold compile at h
  split at h
  · cases h
  · next p hp =>
    unfold compileProgram at h
    dsimp only at h
    split at h
    · split at h
      · next q hq =>
        cases h
        exact ⟨p, q, hp, hq, rfl⟩
      · cases h
    · cases h
  · cases h

open C in
/-- What the compiler writes is of printable characters and newlines. Every newline ends a line, and
none stands in a constant or a comment. -/
theorem compile_printable {source : String} {level : Nat} {c : String}
    (h : compile source level = .ok c) :
    (∀ ch ∈ c.toList, ch = '\n' ∨ (0x20 ≤ ch.toNat ∧ ch.toNat ≤ 0x7e)) ∧
      ∃ p q, parse (scan source) = .ok (p, []) ∧
        lower p (analyze p).table (foldsAt level) = .ok q ∧ c = q.text ∧
        (∀ l ∈ q.lines, '\n' ∉ l.text.toList) ∧
        ∀ before after, c.toList = before ++ '\n' :: after →
          Zone.code.after before = .code ∧ ∃ earlier l later, q.lines = earlier ++ l :: later ∧
            before = (earlier.flatMap fun l => l.render.toList) ++ l.body.toList := by
  obtain ⟨p, q, hp, hq, rfl⟩ := compile_eq_ok h
  have hplain := gives_lower (plain_of_source hp) _ _ q hq
  have hlines := neatLines_program hplain
  refine ⟨printable_of_mem_text hplain, p, q, hp, hq, rfl,
    fun l hl => (hlines l hl).newline_not_mem, fun before after hsplit => ?_⟩
  rw [toList_text] at hsplit
  exact newline_ends_line hlines hsplit

/-- Text with quotes, a backslash, a tab, a letter beyond ASCII and the start of a comment. -/
def quotedSource : String := "program p; const c = '''';
  begin write('\u00e9\t\"\\%/*', c, 7 / -2); writeln('') end."

open C in
theorem quotedSource_printable : ∃ c, compile quotedSource 0 = .ok c ∧ c.toList.count '\n' = 8 ∧
    (∀ ch ∈ c.toList, ch = '\n' ∨ (0x20 ≤ ch.toNat ∧ ch.toNat ≤ 0x7e)) ∧
    ∀ before after, c.toList = before ++ '\n' :: after → Zone.code.after before = .code := by
  have hcount : ((compile quotedSource 0).toOption.map fun c => c.toList.count '\n') = some 8 := by
    have hchars : quotedSource = String.ofList _ := rfl
    rw [hchars, compile, scan_ofList]
    decide +kernel
  cases hc : compile quotedSource 0 with
  | error e =>
    rw [hc] at hcount
    cases hcount
  | ok c =>
    rw [hc] at hcount
    obtain ⟨hprintable, p, q, _, _, _, _, hends⟩ := compile_printable hc
    exact ⟨c, rfl, Option.some.inj hcount, hprintable, fun before after hsplit =>
      (hends before after hsplit).1⟩

end MiniPascal
