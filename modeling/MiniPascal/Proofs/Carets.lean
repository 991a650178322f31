import MiniPascal.Proofs.LayoutIndependence
import MiniPascal.Proofs.LosslessScan

/-!
# Messages point at tokens

A message is shown with a line of the source and a mark below, at the place of a token.
-/

namespace MiniPascal

open List

/-! ## Lines -/

/-- A line of a text, which stands behind `start` and before `rest`. It ends at a line feed, with or
without a carriage return before it, or where the text ends. -/
structure IsLine (text start line rest : List Char) : Prop where
  text_eq : text = start ++ line ++ rest
  starts : start = [] ∨ start.getLast? = some '\n'
  unbroken : '\n' ∉ line
  ends : rest = [] ∨ (∃ after, rest = '\r' :: '\n' :: after) ∨
    (∃ after, rest = '\n' :: after) ∧ line.getLast? ≠ some '\r'

namespace Text

variable {line cs : List Char}

theorem segments_ne_nil (cs : List Char) : segments cs ≠ [] := by
  fun_cases segments cs <;> simp_all

theorem segments_unbroken (h : '\n' ∉ line) : segments line = [line] := by
  induction line with
  | nil => rfl
  | cons c line ih =>
    obtain ⟨hc, hline⟩ := not_or.mp (mt mem_cons.mpr h)
    rw [segments, if_neg (Ne.symm hc), ih hline]

theorem segments_append (h : '\n' ∉ line) (cs : List Char) :
    segments (line ++ '\n' :: cs) = line :: segments cs := by
  induction line with
  | nil => rfl
  | cons c line ih =>
    obtain ⟨hc, hline⟩ := not_or.mp (mt mem_cons.mpr h)
    rw [cons_append, segments, if_neg (Ne.symm hc), ih hline]

theorem linesOf_append (h : '\n' ∉ line) (cs : List Char) :
    linesOf (segments (line ++ '\n' :: cs)) = dropReturn line :: linesOf (segments cs) := by
  rw [segments_append h]
  obtain ⟨s, ss, hs⟩ := exists_cons_of_ne_nil (segments_ne_nil cs)
  rw [hs, linesOf]
  simp

end Text

namespace IsLine

variable {text start line rest : List Char}

theorem head_lines (h : IsLine text [] line rest) (hne : line ≠ []) :
    (Text.linesOf (Text.segments text))[0]? = some line := by
  rw [h.text_eq, nil_append]
  rcases h.ends with rfl | ⟨after, rfl⟩ | ⟨⟨after, rfl⟩, hlast⟩
  · rw [append_nil, Text.segments_unbroken h.unbroken, Text.linesOf, if_neg (by simpa using hne)]
    rfl
  · have hunbroken : '\n' ∉ line ++ ['\r'] := by simp [h.unbroken]
    rw [append_cons, Text.linesOf_append hunbroken, Text.dropReturn, if_pos getLast?_concat,
      dropLast_concat]
    rfl
  · rw [Text.linesOf_append h.unbroken, Text.dropReturn, if_neg hlast]
    rfl

/-- The lines before a line are as many as the line feeds before it. -/
theorem getElem?_lines (h : IsLine text start line rest) (hne : line ≠ []) :
    (Text.linesOf (Text.segments text))[start.count '\n']? = some line := by
  induction hn : start.length using Nat.strong_induction_on generalizing text start with
  | _ n ih =>
    rcases h.starts with rfl | hstart
    · exact h.head_lines hne
    · obtain ⟨first, start', rfl, hfirst⟩ := eq_append_cons_of_mem (mem_of_getLast? hstart)
      have htail : IsLine (start' ++ line ++ rest) start' line rest := by
        refine ⟨rfl, ?_, h.unbroken, h.ends⟩
        cases start' with
        | nil => exact .inl rfl
        | cons c cs => exact .inr (by simpa using hstart)
      have hlater := ih start'.length (by rw [← hn]; simp; omega) htail rfl
      have htext : text = first ++ '\n' :: (start' ++ line ++ rest) := by
        rw [h.text_eq]
        simp
      rw [htext, Text.linesOf_append hfirst]
      simpa [count_eq_zero.mpr hfirst] using hlater

end IsLine

theorem exists_last_line (before : List Char) : ∃ start left, before = start ++ left ∧
    (start = [] ∨ start.getLast? = some '\n') ∧ '\n' ∉ left := by
  induction before using List.reverseRecOn with
  | nil => exact ⟨[], [], rfl, .inl rfl, not_mem_nil⟩
  | append_singleton before c ih =>
    by_cases hc : c = '\n'
    · exact ⟨before ++ [c], [], (append_nil _).symm, .inr (hc ▸ getLast?_concat), not_mem_nil⟩
    · obtain ⟨start, left, rfl, hstart, hleft⟩ := ih
      exact ⟨start, left ++ [c], append_assoc .., hstart, by simp [hleft, Ne.symm hc]⟩

theorem exists_isLine (before after : List Char) {c : Char} (hline : c ≠ '\n')
    (hreturn : c ≠ '\r') : ∃ start left right rest, before = start ++ left ∧
      IsLine (before ++ c :: after) start (left ++ c :: right) rest := by
  obtain ⟨start, left, rfl, hstart, hleft⟩ := exists_last_line before
  have hunbroken : ∀ {right}, '\n' ∉ right → '\n' ∉ left ++ c :: right := by
    intro right hright
    simp [hleft, hright, Ne.symm hline]
  by_cases hmem : '\n' ∈ after
  · obtain ⟨right, later, rfl, hright⟩ := eq_append_cons_of_mem hmem
    by_cases hlast : right.getLast? = some '\r'
    · obtain ⟨right, rfl⟩ := getLast?_eq_some_iff.mp hlast
      exact ⟨start, left, right, '\r' :: '\n' :: later, rfl, by simp, hstart,
        hunbroken fun h => hright (mem_append_left _ h), .inr (.inl ⟨_, rfl⟩)⟩
    · refine ⟨start, left, right, '\n' :: later, rfl, by simp, hstart, hunbroken hright,
        .inr (.inr ⟨⟨_, rfl⟩, ?_⟩)⟩
      cases right with
      | nil => simpa using hreturn
      | cons d right => simpa using hlast
  · exact ⟨start, left, after, [], rfl, by simp, hstart, hunbroken hmem, .inl rfl⟩

theorem Position.behind_line {start left : List Char}
    (hstart : start = [] ∨ start.getLast? = some '\n') (hleft : '\n' ∉ left) :
    behind (start ++ left) = ⟨start.count '\n' + 1, left.length + 1⟩ := by
  have hcolumn : (behind start).column = 1 := by
    rcases hstart with rfl | hstart
    · rfl
    · obtain ⟨start, rfl⟩ := getLast?_eq_some_iff.mp hstart
      rw [← next_behind]
      rfl
  rw [behind_append_line hleft, right, hcolumn, Nat.add_comm 1]
  exact congrArg (Position.mk · _) (Nat.add_comm ..)

/-! ## Tokens -/

theorem Gap.skip_stops {m : Mode} {p q : Position} {cs rest : List Char} {c : Char}
    (h : skip m p cs = .reached q (c :: rest)) : Text.isBlank c = false := by
  fun_induction skip m p cs <;> grind

theorem Spells.head_eq {kind : Token.Kind} {text : String} {payload : Option Token.Payload}
    {spelling : List Char} (h : Spells kind text payload spelling) :
    text.toList.head? = spelling.head? := by
  cases h with
  | mark => rfl
  | @real n letter formed _ _ =>
    obtain ⟨d, ds, hwhole⟩ := exists_cons_of_ne_nil formed.whole_ne_nil
    rw [String.toList_ofList, Numeral.spelling, Numeral.spelling, hwhole]
    rfl
  | keyword | identifier | integer | quoted => rw [String.toList_ofList]

theorem scanFrom_starts {t : Token} (hinner : t.kind.isLast = false) (p : Position)
    (cs : List Char) : ∀ before, p = .behind before → t ∈ scanFrom p cs →
      ∃ gap c rest, cs = gap ++ c :: rest ∧ t.position = .behind (before ++ gap) ∧
        t.text.toList.head? = some c ∧ Text.isBlank c = false := by
  fun_induction scanFrom p cs with
  | case1 | case2 =>
    intro before _ ht
    cases mem_singleton.mp ht
    cases hinner
  | case3 p cs q c rest hgap l u hinvalid =>
    intro before _ ht
    rw [mem_singleton.mp ht, show u.kind = .invalid from hinvalid] at hinner
    cases hinner
  | case4 p cs q c rest hgap l u hvalid ih =>
    intro before hp ht
    obtain ⟨gap, rfl, rfl, -⟩ := Gap.skip_reached hgap hp
    obtain ⟨spelling, htext, hspells, hlength⟩ := Lexeme.read_takes hvalid
    rcases mem_cons.mp ht with rfl | ht
    · refine ⟨gap, c, rest, rfl, rfl, hspells.head_eq.trans ?_, Gap.skip_stops hgap⟩
      cases spelling with
      | nil => exact absurd (length_eq_zero_iff.mp hlength.symm) (Lexeme.text_ne_nil c rest)
      | cons d spelling => rw [head?_cons, (cons.inj htext).1]
    · have hplace : (Position.behind (before ++ gap)).right l.text.length =
          .behind (before ++ gap ++ spelling) := by
        rw [Position.behind_append_line hspells.line_not_mem, hlength]
      obtain ⟨gap', d, rest', hrest, hposition, hfirst, hblank⟩ := ih _ hplace ht
      refine ⟨gap ++ spelling ++ gap', d, rest', ?_, by simpa using hposition, hfirst, hblank⟩
      rw [htext, show (Lexeme.read c rest).rest = _ from hrest]
      simp

/-! ## Places of messages -/

section

variable {T : Token → Prop} {i : Input} {p : Program} {s : Session} {ts : List Token} {last : Token}

/-- Moving all other places changes nothing in what is read, nor in what checking finds. -/
theorem fixed_of_program (hT : ∀ t, T t → t.carries = true) (hi : i.All T)
    (hread : Recover.program ⟨i, []⟩ = .ok p s) {f : Position → Position}
    (hf : ∀ t, T t → f t.position = t.position) :
    ∀ q ∈ (s.notes.filterMap Note.error?).map SyntaxError.position ++
      (analyze p).errors.map SemanticError.position, q = f q := by
  have hstart : Session.Moved f T ⟨i, []⟩ ⟨i, []⟩ := ⟨hi.moved hf, .nil⟩
  have hprogram := Recover.follows_program hT hstart
  rw [hread] at hprogram
  obtain ⟨⟨hp, _⟩, hs⟩ := hprogram
  refine forall_mem_append.mpr ⟨forall_mem_map.mpr fun e he => ?_, forall_mem_map.mpr fun e he => ?_⟩
  · obtain ⟨n, hn, herror⟩ := mem_filterMap.mp he
    have hnote := forall₂_same.mp hs.notes n hn
    cases n with
    | resumed => cases herror
    | fault e' =>
      cases herror
      exact hnote
  · have herrors : (analyze p).errors.map id = (analyze p).errors.map (SemanticError.moved f) := by
      rw [map_id, ← Analysis.moved_errors, ← analyze_moved, ← hp]
    exact congrArg SemanticError.position (map_inj_left.mp herrors e he)

theorem placed_of_program (hT : ∀ t, T t → t.carries = true) (hi : i.All T)
    (hread : Recover.program ⟨i, []⟩ = .ok p s) :
    ∀ q ∈ (s.notes.filterMap Note.error?).map SyntaxError.position ++
      (analyze p).errors.map SemanticError.position, Placed T q := by
  intro q hq
  by_contra hnone
  let f : Position → Position := fun p => if p = q then q.right 1 else p
  have hf : ∀ t, T t → f t.position = t.position := fun t ht =>
    if_neg fun heq => hnone ⟨t, ht, heq⟩
  have hfixed : q = q.right 1 := (fixed_of_program hT hi hread hf q hq).trans (if_pos rfl)
  exact absurd (congrArg Position.column hfixed) (Nat.ne_of_lt (Nat.lt_succ_self _))

/-- Reading does not get to input that is no token, so this might as well be the end of the text, at
the place of a token that is left. -/
theorem exists_stop (hinner : ∀ t ∈ ts, t.kind.isLast = false) (hlast : last.kind.isLast = true)
    (hcarries : last.carries = true) (hread : Recover.program ⟨⟨ts, last⟩, []⟩ = .ok p s) :
    ∃ stop s', stop.carries = true ∧ Recover.program ⟨⟨ts, stop⟩, []⟩ = .ok p s' ∧
      s'.notes = s.notes ∧ ∃ t ∈ ts ++ [last], t.kind ≠ .invalid ∧ t.position = stop.position := by
  by_cases hkind : last.kind = .invalid
  · have hleft := Recover.left_of_program_ok hkind hread
    obtain ⟨u, us, hcons⟩ := exists_cons_of_ne_nil hleft
    have hle := Recover.built_program.advances.of_ok (Recover.lift_of_ok hread)
    have hu : u ∈ ts := hle.1.1.subset (hcons ▸ mem_cons_self)
    rcases Recover.built_program.steady ⟨⟨ts, last⟩, []⟩ hlast
      (show Token.Kind.isLast (Token.mk .endOfText "" u.position none).kind = true from rfl)
      with ⟨hspent, -⟩ | ⟨r, -, hr, hr'⟩
    · change Outcome.left ((liftM Recover.program : Phrase Program) ⟨⟨ts, last⟩, []⟩) = [] at hspent
      rw [Recover.lift_of_ok hread] at hspent
      exact absurd hspent hleft
    · have hr := (Recover.lift_of_ok hread).symm.trans hr
      cases r with
      | error => cases hr
      | ok q w =>
        cases hr
        exact ⟨_, _, rfl, Recover.eq_ok_of_lift hr', rfl, u, mem_append_left _ hu,
          valid_of_inner hinner last [] u hu, rfl⟩
  · exact ⟨last, s, hcarries, hread, rfl, last, by simp, hkind, rfl⟩

/-- A token at the place of one that the source has. -/
def Token.Stands (source : String) (t : Token) : Prop :=
  t.carries = true ∧ ∃ u ∈ scan source, u.kind ≠ .invalid ∧ u.position = t.position

theorem placed_of_parse {source : String} {es : List SyntaxError}
    (h : parse (scan source) = .ok (p, es)) :
    ∀ q ∈ es.map SyntaxError.position ++ (analyze p).errors.map SemanticError.position,
      Placed (Token.Stands source) q := by
  obtain ⟨ts, last, hscan, hlast, hinner⟩ := scan_ended source
  obtain ⟨s, hread, rfl⟩ := program_of_parse h
  rw [hscan, Input.ofTokens_ended hinner hlast] at hread
  have hcarries := scan_carries source
  rw [hscan] at hcarries
  obtain ⟨hts, hc⟩ := forall_mem_append.mp hcarries
  obtain ⟨stop, s', hstop, hread', hnotes, hplace⟩ :=
    exists_stop hinner hlast (hc _ mem_cons_self) hread
  rw [← hnotes]
  refine placed_of_program (fun _ ht => ht.1) ⟨fun t ht => ⟨hts t ht, t, ?_⟩, hstop, ?_⟩ hread'
  · exact ⟨hscan ▸ mem_append_left _ ht, valid_of_inner hinner last [] t ht, rfl⟩
  · exact hscan ▸ hplace

end

variable {source file : String} {level : Nat} {ds : List Diagnostic} {d : Diagnostic}

theorem placed_of_diagnostic (h : compile source level = .error (.diagnostics ds))
    (hd : d ∈ ds) : Placed (Token.Stands source) d.position := by
  unfold compile at h
  split at h
  · cases h
  · next p hparse =>
    unfold compileProgram at h
    dsimp only at h
    split at h
    · split at h <;> cases h
    · cases h
      obtain ⟨e, he, rfl⟩ := mem_map.mp (mem_mergeSort.mp hd)
      exact placed_of_parse hparse _ (mem_append_right _ (mem_map_of_mem he))
  · next p es _ hparse =>
    cases h
    obtain ⟨e, he, rfl⟩ := mem_map.mp (mem_mergeSort.mp hd)
    exact placed_of_parse hparse _ (mem_append_left _ (mem_map_of_mem he))

/-- A message shown with a line of the text, and with a mark below the first character of a token.
Before the mark there are tabs where the line has tabs. -/
structure Diagnostic.Points (d : Diagnostic) (file source : String) (t : Token)
    (start shown blanks : List Char) : Prop where
  token : t ∈ scan source ∧ t.kind.isLast = false
  place : t.position = d.position
  isLine : ∃ rest, IsLine source.toList start shown rest
  number : d.position.line = start.count '\n' + 1
  first : ∃ c, shown[d.position.column - 1]? = some c ∧ t.text.toList.head? = some c
  column : d.position.column = blanks.length + 1
  padded : ∀ i < blanks.length, blanks[i]? = shown[i]?.map fun c => if c = '\t' then '\t' else ' '
  text : ∀ color style, d.render file source color style =
    file ++ ":" ++ d.position.text ++ ": " ++ d.kind.text ++ " " ++
      (if color then style "error" else "error") ++ ": " ++ d.message ++ "\n    " ++
      String.ofList shown ++ "\n    " ++ String.ofList blanks ++
      (if color then style "^" else "^") ++ "\n"

/-- Each message of the compiler that is not about the end of the text points at a token. -/
theorem diagnostic_points (h : compile source level = .error (.diagnostics ds)) (hd : d ∈ ds)
    (hend : ∀ t ∈ scan source, t.kind = .endOfText → t.position ≠ d.position) (file : String) :
    ∃ t start line blanks, d.Points file source t start line blanks := by
  obtain ⟨_, ⟨_, t, ht, hvalid, hplace⟩, hstands⟩ := placed_of_diagnostic h hd
  rw [hstands] at hplace
  have hinner : t.kind.isLast = false := by
    simp [Token.Kind.isLast, hvalid, mt (hend t ht) (not_not.mpr hplace)]
  obtain ⟨before, c, after, hsource, hbehind, hfirst, hblank⟩ :=
    scanFrom_starts hinner .start source.toList [] rfl ht
  have hline : c ≠ '\n' := by
    rintro rfl
    cases hblank
  have hreturn : c ≠ '\r' := by
    rintro rfl
    cases hblank
  obtain ⟨start, left, right, rest, rfl, isLine⟩ := exists_isLine before after hline hreturn
  have hposition : d.position = ⟨start.count '\n' + 1, left.length + 1⟩ := by
    rw [← hplace, hbehind, nil_append, Position.behind_line isLine.starts fun hmem =>
      isLine.unbroken (mem_append_left _ hmem)]
  rw [← hsource] at isLine
  refine ⟨t, start, left ++ c :: right, left.map fun c => if c = '\t' then '\t' else ' ',
    ⟨ht, hinner⟩, hplace, ⟨rest, isLine⟩, ?_, ⟨c, ?_, hfirst⟩, ?_, ?_, ?_⟩
  · rw [hposition]
  · rw [hposition]
    simp
  · rw [hposition, length_map]
  · intro i hi
    rw [length_map] at hi
    rw [getElem?_map, getElem?_append_left hi]
  · have hshown : Diagnostic.lineAt? source d.position = some (.ofList (left ++ c :: right)) := by
      rw [Diagnostic.lineAt?, hposition]
      simp [Text.lines, isLine.getElem?_lines (by simp)]
    have hpadding : Diagnostic.padding (.ofList (left ++ c :: right)) d.position.column =
        .ofList (left.map fun c => if c = '\t' then '\t' else ' ') := by
      rw [Diagnostic.padding, hposition, String.toList_ofList]
      simp
    intro color style
    rw [Diagnostic.render, hshown]
    dsimp only
    rw [hpadding]
    simp [String.append_assoc]

/-- A name in place of a point, behind tabs and a comment that ends on its line. The text ends in
input that is no token. -/
def unpointed : String := "program p;\r\n\x7b é\n\tü \x7d\tbegin\tend x #"

theorem unpointed_points : ∃ ds d, compile unpointed 0 = .error (.diagnostics ds) ∧ d ∈ ds ∧
    d.position = ⟨3, 16⟩ ∧
    ∃ t start line blanks, d.Points "a.pas" unpointed t start line blanks := by
  have hview : (parse (scan unpointed)).toOption.map (fun r => r.2.map SyntaxError.position) =
      some [⟨3, 16⟩] := by
    decide +kernel
  have hend : ∀ t ∈ scan unpointed, t.kind = .endOfText → t.position ≠ ⟨3, 16⟩ := by
    decide +kernel
  cases hparse : parse (scan unpointed) with
  | error e =>
    rw [hparse] at hview
    cases hview
  | ok r =>
    obtain ⟨p, es⟩ := r
    rw [hparse] at hview
    obtain ⟨e, rfl, he⟩ := map_eq_singleton_iff.mp (Option.some.inj hview)
    have hcompile : compile unpointed 0 = .error (.diagnostics [.ofSyntaxError e]) := by
      rw [compile, hparse]
      exact congrArg (Except.error ∘ CompileError.diagnostics) (mergeSort_singleton _)
    rw [← he] at hend ⊢
    exact ⟨_, _, hcompile, mem_cons_self, rfl,
      diagnostic_points hcompile mem_cons_self hend "a.pas"⟩

end MiniPascal
