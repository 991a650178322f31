import MiniPascal.Proofs.Lists
import MiniPascal.Proofs.RelocatedLowering
import MiniPascal.Proofs.TokenOrder
import MiniPascal.Proofs.TokenTrees

/-!
# Layout does not matter

Two sources whose tokens agree in kind and value are compiled alike (`compile_eq_of_meanings`). An
order preserving map between the places of the two need not exist, but there is one from the numbers
of the tokens to the places of either.
-/

namespace MiniPascal

open Position List

section Orders

def KeepsOrder (f : Position → Position) : Prop := ∀ p q, p.Before q → (f p).Before (f q)

variable {f : Position → Position} (hf : KeepsOrder f)

theorem Position.trichotomy (p q : Position) : p.Before q ∨ p = q ∨ q.Before p := by
  obtain ⟨line, column⟩ := p
  obtain ⟨line', column'⟩ := q
  unfold Before
  simp only [Position.mk.injEq]
  omega

theorem Position.Before.not_le {p q : Position} (h : p.Before q) : q.le p = false := by
  rw [Bool.eq_false_iff]
  intro hle
  exact (h.trans_le hle).ne rfl

include hf

theorem KeepsOrder.injective : Function.Injective f := by
  intro p q h
  rcases p.trichotomy q with hlt | heq | hlt
  · exact absurd h (hf p q hlt).ne
  · exact heq
  · exact absurd h.symm (hf q p hlt).ne

theorem KeepsOrder.le_eq (p q : Position) : (f p).le (f q) = p.le q := by
  rcases p.trichotomy q with hlt | rfl | hlt
  · rw [hlt.le, (hf p q hlt).le]
  · rw [Position.le_refl, Position.le_refl]
  · rw [hlt.not_le, (hf q p hlt).not_le]

end Orders

section Diagnostics

variable {f : Position → Position} (hf : KeepsOrder f)

/-- Messages of the same kind about the same token. -/
def Diagnostic.Moved (f : Position → Position) (d' d : Diagnostic) : Prop :=
  d'.kind = d.kind ∧ d'.position = f d.position

include hf

theorem Diagnostic.kinds_sort {ds' ds : List Diagnostic}
    (h : List.Forall₂ (Diagnostic.Moved f) ds' ds) :
    (Diagnostic.sort ds').map Diagnostic.kind = (Diagnostic.sort ds).map Diagnostic.kind := by
  obtain ⟨l, rfl, rfl, hl⟩ := exists_pairs h
  let before : Diagnostic × Diagnostic → Diagnostic × Diagnostic → Bool :=
    fun x y => x.2.position.le y.2.position
  have hsecond : (l.mergeSort before).map Prod.snd = Diagnostic.sort (l.map Prod.snd) :=
    map_mergeSort fun _ _ _ _ => rfl
  have hfirst : (l.mergeSort before).map Prod.fst = Diagnostic.sort (l.map Prod.fst) := by
    refine map_mergeSort fun x hx y hy => ?_
    rw [(hl x hx).2, (hl y hy).2, hf.le_eq]
  rw [← hfirst, ← hsecond, map_map, map_map]
  exact map_congr_left fun x hx => (hl x (mem_mergeSort.mp hx)).1

end Diagnostics

section Compiling

/-- The kind of a failure: for messages, their kinds in order. -/
inductive CompileError.Outline where
  | lexical
  | diagnostics (kinds : List Diagnostic.Kind)
  | internal
  deriving DecidableEq, Repr

def CompileError.outline : CompileError → Outline
  | lexical _ => .lexical
  | diagnostics ds => .diagnostics (ds.map Diagnostic.kind)
  | internal _ => .internal

def compileTokens (tokens : List Token) (level : Nat) : Except CompileError String :=
  match parse tokens with
  | .error e => .error (.lexical e)
  | .ok (program, []) => compileProgram program level
  | .ok (_, errors) =>
    .error (.diagnostics (Diagnostic.sort (errors.map Diagnostic.ofSyntaxError)))

theorem compile_eq_compileTokens (source : String) (level : Nat) :
    compile source level = compileTokens (scan source) level := rfl

variable {f : Position → Position} {T : Token → Prop} {ts' ts : List Token}

theorem exists_last_moved (h : List.Forall₂ (Token.Moved f T) ts' ts)
    (hlast : ∃ t ∈ ts', t.kind.isLast = true) :
    ∃ t' t, ts'.find? (fun t => t.kind.isLast) = some t' ∧
      ts.find? (fun t => t.kind.isLast) = some t ∧ Token.Moved f T t' t := by
  induction h with
  | nil =>
    obtain ⟨t, ht, -⟩ := hlast
    cases ht
  | @cons t' t ts' ts ht _ ih =>
    rw [find?_cons, find?_cons, ← ht.kind]
    cases hk : t'.kind.isLast with
    | true => exact ⟨t', t, rfl, rfl, ht⟩
    | false =>
      obtain ⟨u, hu, hlast⟩ := hlast
      rcases mem_cons.mp hu with rfl | hu
      · exact absurd (hlast.symm.trans hk) nofun
      · exact ih ⟨u, hu, hlast⟩

theorem ofTokens_moved (h : List.Forall₂ (Token.Moved f T) ts' ts)
    (hlast : ∃ t ∈ ts', t.kind.isLast = true) : Input.Moved f T (.ofTokens ts') (.ofTokens ts) := by
  constructor
  · clear hlast
    change List.Forall₂ _ (ts'.takeWhile _) (ts.takeWhile _)
    induction h with
    | nil => exact .nil
    | cons ht _ ih =>
      rw [takeWhile_cons, takeWhile_cons, ht.kind]
      split
      · exact .cons ht ih
      · exact .nil
  · obtain ⟨t', t, hfind', hfind, ht⟩ := exists_last_moved h hlast
    unfold Input.ofTokens
    rw [hfind', hfind]
    exact ht

theorem errors_moved {notes' notes : List Note} (h : List.Forall₂ (Note.Moved f) notes' notes) :
    List.Forall₂ (Diagnostic.Moved f) ((notes'.filterMap Note.error?).map Diagnostic.ofSyntaxError)
      ((notes.filterMap Note.error?).map Diagnostic.ofSyntaxError) := by
  induction h with
  | nil => exact .nil
  | @cons n' n _ _ hn _ ih =>
    cases n' <;> cases n
    · exact .cons ⟨rfl, hn⟩ ih
    · exact hn.elim
    · exact hn.elim
    · exact ih

theorem compileProgram_moved (hf : KeepsOrder f) (p : Program) (level : Nat) :
    (compileProgram (p.moved f) level).mapError CompileError.outline =
      (compileProgram p level).mapError CompileError.outline := by
  unfold compileProgram
  rw [analyze_moved]
  dsimp only
  have hclean : ((analyze p).moved f).isClean = (analyze p).isClean := isEmpty_map
  rw [hclean]
  split
  · rw [show ((analyze p).moved f).table = (analyze p).table.moved f from rfl,
      C.lower_moved hf.injective]
    cases C.lower p (analyze p).table (foldsAt level) <;> rfl
  · have hsame : List.Forall₂ (Diagnostic.Moved f)
        (((analyze p).moved f).errors.map Diagnostic.ofSemanticError)
        ((analyze p).errors.map Diagnostic.ofSemanticError) := by
      change List.Forall₂ _ (((analyze p).errors.map _).map _) _
      rw [map_map, forall₂_map_left_iff, forall₂_map_right_iff]
      exact forall₂_same.mpr fun _ _ => ⟨rfl, rfl⟩
    exact congrArg (Except.error ∘ CompileError.Outline.diagnostics)
      (Diagnostic.kinds_sort hf hsame)

theorem compileTokens_moved (hf : KeepsOrder f)
    (h : List.Forall₂ (Token.Moved f (·.carries = true)) ts' ts)
    (hlast : ∃ t ∈ ts', t.kind.isLast = true) (level : Nat) :
    (compileTokens ts' level).mapError CompileError.outline =
      (compileTokens ts level).mapError CompileError.outline := by
  have hstart : Session.Moved f _ ⟨.ofTokens ts', []⟩ ⟨.ofTokens ts, []⟩ :=
    ⟨ofTokens_moved h hlast, .nil⟩
  have hprogram := Recover.follows_program (fun _ ht => ht) hstart
  unfold compileTokens
  cases hread' : Recover.program ⟨.ofTokens ts', []⟩ with
  | error e' s' =>
    cases hread : Recover.program ⟨.ofTokens ts, []⟩ with
    | error e s =>
      rw [parse_of_error hread', parse_of_error hread]
      rfl
    | ok p s =>
      rw [hread', hread] at hprogram
      exact hprogram.elim
  | ok p' s' =>
    cases hread : Recover.program ⟨.ofTokens ts, []⟩ with
    | error e s =>
      rw [hread', hread] at hprogram
      exact hprogram.elim
    | ok p s =>
      rw [hread', hread] at hprogram
      obtain ⟨⟨rfl, _⟩, hs⟩ := hprogram
      have herrors := errors_moved hs.notes
      rw [parse_of_ok hread', parse_of_ok hread]
      have hlength := herrors.length_eq
      rw [length_map, length_map] at hlength
      cases hes : s.notes.filterMap Note.error? with
      | nil =>
        rw [hes, length_nil, length_eq_zero_iff] at hlength
        rw [hlength]
        exact compileProgram_moved hf p level
      | cons e es =>
        cases hes' : s'.notes.filterMap Note.error? with
        | nil =>
          rw [hes, hes'] at hlength
          cases hlength
        | cons e' es' =>
          rw [hes, hes'] at herrors
          exact congrArg (Except.error ∘ CompileError.Outline.diagnostics)
            (Diagnostic.kinds_sort hf herrors)

end Compiling

section Numbering

/-- What a token is, wherever it stands and however it is spelled. -/
def Token.meaning (t : Token) : Token.Kind × Option Token.Payload := (t.kind, t.payload)

def numbered (meanings : List (Token.Kind × Option Token.Payload)) : List Token :=
  meanings.mapIdx fun n m => ⟨m.1, "", ⟨0, n⟩, m.2⟩

/-- A line that no token stands below. -/
def lastLine (ts : List Token) : Nat := ts.foldr (fun t n => t.position.line + n) 0

variable {p : Position} {t : Token}

theorem line_le_lastLine {ts : List Token} (h : t ∈ ts) : t.position.line ≤ lastLine ts := by
  induction ts with
  | nil => cases h
  | cons u ts ih =>
    rcases mem_cons.mp h with rfl | h
    · exact Nat.le_add_right ..
    · exact Nat.le_trans (ih h) (Nat.le_add_left ..)

/-- The number of a token goes to its place. What is no number goes below all tokens. -/
def placed (ts : List Token) (p : Position) : Position :=
  match p.line, ts[p.column]? with
  | 0, some t => t.position
  | _, _ => ⟨lastLine ts + 1 + p.line, p.column⟩

variable {ts : List Token}

theorem placed_number (hline : p.line = 0) (ht : ts[p.column]? = some t) :
    placed ts p = t.position := by
  unfold placed
  rw [hline, ht]
  rfl

theorem placed_beyond (h : p.line = 0 → ts[p.column]? = none) :
    placed ts p = ⟨lastLine ts + 1 + p.line, p.column⟩ := by
  unfold placed
  split
  · next hline ht => exact absurd (ht.symm.trans (h hline)) nofun
  · rfl

theorem placed_keepsOrder (h : ts.Pairwise fun t u => t.position.Before u.position) :
    KeepsOrder (placed ts) := by
  intro p q hpq
  by_cases hp : p.line = 0 ∧ ∃ t, ts[p.column]? = some t
  · obtain ⟨hline, t, ht⟩ := hp
    rw [placed_number hline ht]
    by_cases hq : q.line = 0 ∧ ∃ u, ts[q.column]? = some u
    · obtain ⟨hline', u, hu⟩ := hq
      rw [placed_number hline' hu]
      obtain ⟨hn, rfl⟩ := List.getElem?_eq_some_iff.mp ht
      obtain ⟨hm, rfl⟩ := List.getElem?_eq_some_iff.mp hu
      refine pairwise_iff_getElem.mp h _ _ hn hm ?_
      unfold Before at hpq
      omega
    · have hbound := line_le_lastLine (mem_of_getElem? ht)
      rw [placed_beyond fun hline' => Option.eq_none_iff_forall_ne_some.mpr fun u hu =>
        hq ⟨hline', u, hu⟩]
      exact .inl (Nat.lt_of_le_of_lt hbound (by dsimp only; omega))
  · have hp : p.line = 0 → ts[p.column]? = none := fun hline =>
      Option.eq_none_iff_forall_ne_some.mpr fun t ht => hp ⟨hline, t, ht⟩
    unfold Before at hpq
    have hq : q.line = 0 → ts[q.column]? = none := by
      intro hline
      rw [List.getElem?_eq_none_iff] at hp ⊢
      have hlength := hp (by omega)
      omega
    rw [placed_beyond hp, placed_beyond hq]
    unfold Before
    dsimp only
    omega

theorem moved_numbered (hcarries : ∀ t ∈ ts, t.carries = true) :
    List.Forall₂ (Token.Moved (placed ts) (·.carries = true)) ts
      (numbered (ts.map Token.meaning)) := by
  unfold numbered
  refine forall₂_iff_get.mpr ⟨by simp, fun n hn hm => ?_⟩
  simp only [get_eq_getElem, getElem_mapIdx, getElem_map, Token.meaning]
  have hplace : placed ts ⟨0, n⟩ = ts[n].position :=
    placed_number rfl (getElem?_eq_getElem hn)
  exact ⟨rfl, rfl, hplace.symm, hcarries ts[n] (getElem_mem hn)⟩

end Numbering

/-- Two sources whose tokens agree in kind and value, at whatever places and in whatever spelling,
have the same C program at every level, or fail in the same way, with messages of the same kinds in
the same order. -/
theorem compile_eq_of_meanings {source source' : String}
    (h : (scan source).map Token.meaning = (scan source').map Token.meaning) (level : Nat) :
    (compile source level).mapError CompileError.outline =
      (compile source' level).mapError CompileError.outline := by
  have hnumbered : ∀ source, (compile source level).mapError CompileError.outline =
      (compileTokens (numbered ((scan source).map Token.meaning)) level).mapError
        CompileError.outline := by
    intro source
    have hlast : ∃ t ∈ scan source, t.kind.isLast = true := by
      obtain ⟨ts, last, hscan, hend, -⟩ := scan_ended source
      rw [hscan]
      exact ⟨last, List.mem_append_right ts (List.mem_singleton_self last), hend⟩
    rw [compile_eq_compileTokens]
    exact compileTokens_moved (placed_keepsOrder (scanFrom_ordered _ _).2)
      (moved_numbered (scan_carries source)) hlast level
  rw [hnumbered source, hnumbered source', h]

/-- Two layouts of one program, which uses two names that are not declared. -/
theorem spread_program_compiled_alike :
    (scan "program p; begin x := 1; y := 2 end.").map Token.meaning =
        (scan "PROGRAM P;\n(* two *) begin X\n:= 1; y:=2\nEnd .").map Token.meaning ∧
      (compile "program p; begin x := 1; y := 2 end." 1).mapError CompileError.outline =
        (compile "PROGRAM P;\n(* two *) begin X\n:= 1; y:=2\nEnd ." 1).mapError
          CompileError.outline := by
  have h : (scan "program p; begin x := 1; y := 2 end.").map Token.meaning =
      (scan "PROGRAM P;\n(* two *) begin X\n:= 1; y:=2\nEnd .").map Token.meaning := by
    decide +kernel
  exact ⟨h, compile_eq_of_meanings h 1⟩

end MiniPascal
