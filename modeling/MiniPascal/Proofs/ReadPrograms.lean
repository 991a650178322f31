import MiniPascal.Proofs.NearestElse
import MiniPascal.Proofs.ReadStatements
import MiniPascal.Token.Scan

/-!
# The grammar of programs

A list of tokens is read without faults exactly when it is the text of a program. Recovery never
loses a fault: every token that is skipped was noted first.
-/

namespace MiniPascal

open List

namespace Recover

section Reads

variable (t : Token)

theorem cleanAt_constSection :
    CleanAt t constSection fun us _ ds => SectionText .constKw ConstText us ds :=
  cleanAt_declarationsAfter Parse.reads_constDecl Parse.tidy_constDecl _ _ t

theorem cleanAt_varSection : CleanAt t varSection fun us _ ds => SectionText .varKw VarText us ds :=
  cleanAt_declarationsAfter Parse.reads_varDecl Parse.tidy_varDecl _ _ t

theorem cleanAt_block : CleanAt t block fun us _ a =>
    BlockText us a.1 a.2 ∧ ∀ s ∈ a.1, s.ElsesNearest := by
  have hend : ∀ p, Advances (do
      let parts ← statements Phrase.statement
      let _ ← demand (.keyword .endKw) "'end'"
      return (parts, p) : Recover (List Statement × Position)) := fun _ =>
    .bind (advances (tidy_statements Phrase.tidy_statement)) fun _ =>
      .bind (advances_demand _ _) fun _ => .pure _
  refine cleanAt_position (cleanAt_demand nofun (hend _) fun ht u => ?_)
  refine (cleanAt_statements Phrase.cleanAt_statement Phrase.tidy_statement u).bind
    (fun _ => .bind (advances_demand _ _) fun _ => .pure _) fun us v ss hss _ => ?_
  exact cleanAt_demand nofun (.pure _) fun hv _ => .pure ⟨.intro ht hss.text hv, hss.nearest⟩

theorem cleanAt_subprogramBody : CleanAt t subprogramBody fun us _ b =>
    BodyText us b ∧ b.ElsesNearest := by
  refine (cleanAt_constSection t).bind (fun _ => .bind advances_varSection fun _ =>
    .bind advances_block fun _ => .pure _) fun us u consts hconsts _ => ?_
  refine (cleanAt_varSection u).bind (fun _ => .bind advances_block fun _ => .pure _)
    fun vs v vars hvars _ => ?_
  exact (cleanAt_block v).map fun ws w a ha => ⟨.intro hconsts hvars ha.1, ha.2⟩

theorem cleanAt_subprogram : CleanAt t subprogram fun us _ r =>
    ∃ s, r = some s ∧ SubprogramText us s ∧ s.body.ElsesNearest := by
  refine (cleanAt_orSkip (Parse.reads_heading t).lift (Phrase.advances Parse.tidy_heading) _).bind
    (fun _ => .bind (advances tidy_subprogramBody) fun _ => .bind (advances_demand _ _) fun _ =>
      .pure _) ?_
  rintro us u _ ⟨heading, rfl, hheading⟩ -
  refine (cleanAt_subprogramBody u).bind (fun _ => .bind (advances_demand _ _) fun _ => .pure _)
    fun vs v b hb _ => ?_
  exact cleanAt_demand nofun (.pure _) fun hv _ => .pure ⟨_, rfl, .intro hheading hb.1 hv, hb.2⟩

theorem cleanAt_subprogramsWithin (n : Nat) : CleanAt t (subprogramsWithin n) fun us _ ss =>
    Repeated SubprogramText us ss ∧ ∀ s ∈ ss, s.body.ElsesNearest := by
  induction n generalizing t with
  | zero => exact .pure ⟨.nil, forall_mem_nil _⟩
  | succ n ih =>
    refine cleanAt_kind ?_
    split
    case h_3 => exact .pure ⟨.nil, forall_mem_nil _⟩
    all_goals
      refine (cleanAt_subprogram t).bind (fun r => ?_) ?_
      · cases r with
        | some s => exact .bind (advances_subprogramsWithin n) fun _ => .pure _
        | none => exact advances_subprogramsWithin n
      · rintro us u _ ⟨s, rfl, hs, hnear⟩ -
        exact (ih u).map fun vs v ss hss =>
          ⟨.cons hs hss.1, forall_mem_cons.mpr ⟨hnear, hss.2⟩⟩

theorem cleanAt_programHead : CleanAt t programHead fun us _ a =>
    ProgramHeadText us a.1 a.2.1 a.2.2 := by
  have hskip : ∀ stops p, Advances (do
      skipTo stops
      let _ ← accept (.mark .semicolon)
      return ("", [], p) : Recover (String × List String × Position)) := fun stops _ =>
    .bind (advances_skipTo stops) fun _ => .bind (advances_accept _) fun _ => .pure _
  refine (cleanAt_attempt (Parse.reads_programHead t).lift
    (Phrase.advances Parse.tidy_programHead)).bind (fun r => ?_) fun us u r hr _ => ?_
  · cases r with
    | ok head => exact .pure _
    | error e =>
      exact .bind advances_position fun _ => .bind (advances_record _) fun _ => hskip _ _
  · cases r with
    | ok head =>
      refine .pure ?_
      rw [append_nil]
      exact hr head rfl
    | error e => exact cleanAt_position ((notes_record e).bind fun _ => hskip _ _).cleanAt

theorem cleanAt_program : CleanAt t program fun us u p =>
    ProgramText us p ∧ p.ElsesNearest ∧ u.kind = .endOfText := by
  have hdot : ∀ p, Advances (do
      if ← demand (.mark .dot) "'.' after program body" then
        if (← kind) ≠ .endOfText then recordExpected "end of file after '.'"
      return p : Recover Program) := fun _ =>
    .bind (advances_demand _ _) fun _ => .ite (.bind advances_kind fun _ =>
      .ite (.bind (advances_recordExpected _) fun _ => .pure _) (.pure _)) (.pure _)
  refine (cleanAt_programHead t).bind (fun _ => .bind advances_constSection fun _ =>
    .bind advances_varSection fun _ => .bind .get fun _ =>
      .bind (advances_subprogramsWithin _) fun _ => .bind advances_block fun _ => hdot _) ?_
  rintro hs u ⟨name, names, p⟩ hhead -
  refine (cleanAt_constSection u).bind (fun _ => .bind advances_varSection fun _ =>
    .bind .get fun _ => .bind (advances_subprogramsWithin _) fun _ =>
      .bind advances_block fun _ => hdot _) fun cs v consts hconsts _ => ?_
  refine (cleanAt_varSection v).bind (fun _ => .bind .get fun _ =>
    .bind (advances_subprogramsWithin _) fun _ => .bind advances_block fun _ => hdot _)
    fun vs w vars hvars _ => .get fun _ _ _ => ?_
  refine (cleanAt_subprogramsWithin w _).bind (fun _ => .bind advances_block fun _ => hdot _)
    fun ss x subprograms hsubprograms _ => ?_
  refine (cleanAt_block x).bind (fun _ => hdot _) ?_
  rintro bs y ⟨parts, q⟩ hblock -
  refine cleanAt_demand nofun (.pure _) fun hy z => ?_
  rw [if_pos rfl]
  refine cleanAt_kind ?_
  split
  · exact ((notes_recordExpected _).bind fun _ => .pure _).cleanAt
  · next hz =>
    rw [ne_eq, Decidable.not_not] at hz
    exact .pure ⟨.intro hhead hconsts hvars hsubprograms.1 hblock.1 hy,
      ⟨hsubprograms.2, hblock.2⟩, hz⟩

end Reads

section Takes

variable {rest : List Token} {last : Token} {notes : List Note} {ts bs : List Token}
  {ss : List Subprogram} {s : Subprogram} {p : Position}

theorem kind_block {parts : List Statement} (h : BlockText bs parts p) :
    (Input.mk (bs ++ rest) last).kind = .keyword .beginKw := by
  cases h with
  | intro ht => exact ht

variable (rest last) in
theorem kind_section {α : Type} {keyword : Keyword} {declText : List Token → α → Prop}
    {ds : List α} (h : SectionText keyword declText ts ds) :
    (Input.mk (ts ++ rest) last).kind = .keyword keyword ∨
      (Input.mk (ts ++ rest) last).kind = (Input.mk rest last).kind := by
  cases h with
  | none => exact .inr rfl
  | some ht => exact .inl ht

theorem starts_subprogram (h : SubprogramText ts s) :
    Starts ts fun k => k = .keyword .procedureKw ∨ k = .keyword .functionKw := by
  obtain ⟨hheading, -, -⟩ := h
  cases hheading with
  | procedure ht => exact ⟨_, _, rfl, .inl ht⟩
  | function ht => exact ⟨_, _, rfl, .inr ht⟩

variable (rest last) in
theorem kind_subprograms (h : Repeated SubprogramText ts ss) :
    ((Input.mk (ts ++ rest) last).kind = .keyword .procedureKw ∨
        (Input.mk (ts ++ rest) last).kind = .keyword .functionKw) ∨
      (Input.mk (ts ++ rest) last).kind = (Input.mk rest last).kind := by
  cases h with
  | nil => exact .inr rfl
  | cons hs _ => exact .inl (((starts_subprogram hs).append _).kind rest last)

theorem starts_const {d : ConstDecl} (h : ConstText ts d) : Starts ts (· = .identifier) := by
  cases h with
  | intro ht => exact ⟨_, _, rfl, ht.1⟩

theorem starts_var {d : VarDecl} (h : VarText ts d) : Starts ts (· = .identifier) := by
  cases h with
  | @intro t ts u us v names type periods hnames =>
    exact ⟨t, _, rfl, (Parse.starts_names hnames).kind [] u⟩

variable (notes) in
theorem sections_of_text {cs vs : List Token} {consts : List ConstDecl} {vars : List VarDecl}
    (hconsts : SectionText .constKw ConstText cs consts)
    (hvars : SectionText .varKw VarText vs vars)
    (hend : (Input.mk rest last).kind ∉ [.identifier, .keyword .constKw, .keyword .varKw]) :
    constSection ⟨⟨cs ++ (vs ++ rest), last⟩, notes⟩ = .ok consts ⟨⟨vs ++ rest, last⟩, notes⟩ ∧
      varSection ⟨⟨vs ++ rest, last⟩, notes⟩ = .ok vars ⟨⟨rest, last⟩, notes⟩ := by
  simp only [mem_cons, not_mem_nil, or_false, not_or] at hend
  obtain ⟨hname, hconst, hvar⟩ := hend
  have hkind : (Input.mk (vs ++ rest) last).kind ≠ .identifier ∧
      (Input.mk (vs ++ rest) last).kind ≠ .keyword .constKw := by
    rcases kind_section rest last hvars with hk | hk <;> rw [hk]
    · exact ⟨nofun, nofun⟩
    · exact ⟨hname, hconst⟩
  exact ⟨declarationsAfter_of_text Parse.takes_constDecl (fun _ _ => starts_const) _ hconsts
      hkind.1 hkind.2,
    declarationsAfter_of_text Parse.takes_varDecl (fun _ _ => starts_var) _ hvars hname hvar⟩

theorem block_of_text {parts : List Statement} (h : BlockText bs parts p)
    (hnear : ∀ s ∈ parts, s.ElsesNearest) :
    block ⟨⟨bs ++ rest, last⟩, notes⟩ = .ok (parts, p) ⟨⟨rest, last⟩, notes⟩ := by
  cases h with
  | @intro t ts u parts ht hss hu =>
    have hread : statements Phrase.statement ⟨⟨ts ++ u :: rest, last⟩, notes⟩ = _ :=
      statements_of_text (Phrase.takesStatements (ts.length + 1)) hss (Nat.lt_succ_self _) hnear hu
    unfold block
    rw [position_bind, cons_append, bind_of_ok (demand_cons ht _), append_assoc,
      singleton_append, bind_of_ok hread, bind_of_ok (demand_cons hu _)]
    rfl

theorem subprogramBody_of_text {b : Body} (h : BodyText ts b) (hnear : b.ElsesNearest) :
    subprogramBody ⟨⟨ts ++ rest, last⟩, notes⟩ = .ok b ⟨⟨rest, last⟩, notes⟩ := by
  cases h with
  | @intro cs vs bs consts vars parts p hconsts hvars hblock =>
    have hkind : (Input.mk (bs ++ rest) last).kind ∉
        [.identifier, .keyword .constKw, .keyword .varKw] := by
      rw [kind_block hblock]
      decide
    obtain ⟨hread, hread'⟩ := sections_of_text notes hconsts hvars hkind
    unfold subprogramBody
    rw [append_assoc, append_assoc, bind_of_ok hread, bind_of_ok hread',
      bind_of_ok (block_of_text hblock hnear)]
    rfl

theorem subprogram_of_text (h : SubprogramText ts s) (hnear : s.body.ElsesNearest) :
    subprogram ⟨⟨ts ++ rest, last⟩, notes⟩ = .ok (some s) ⟨⟨rest, last⟩, notes⟩ := by
  cases h with
  | @intro hs bs t heading body hheading hbody ht =>
    have hread := Parse.lift_of_ok (Parse.takes_heading _ (bs ++ t :: rest) last (Nat.le_refl _)
      hheading trivial) notes
    unfold subprogram
    rw [append_assoc, append_assoc, singleton_append,
      bind_of_ok (orSkip_of_ok hread _), bind_of_ok (subprogramBody_of_text hbody hnear),
      bind_of_ok (demand_cons ht _)]
    rfl

theorem subprogramsWithin_of_text (h : Repeated SubprogramText ts ss)
    (hnear : ∀ s ∈ ss, s.body.ElsesNearest) (hend : (Input.mk rest last).kind = .keyword .beginKw)
    {n : Nat} (hn : ts.length ≤ n) :
    subprogramsWithin n ⟨⟨ts ++ rest, last⟩, notes⟩ = .ok ss ⟨⟨rest, last⟩, notes⟩ := by
  induction h generalizing n with
  | nil =>
    cases n with
    | zero => rfl
    | succ n =>
      unfold subprogramsWithin
      rw [kind_bind, nil_append, hend]
      rfl
  | @cons ts us s ss hs _ ih =>
    have hstart := starts_subprogram hs
    have hlength : ts.length ≠ 0 := by
      obtain ⟨t, ts, rfl, -⟩ := hstart
      nofun
    rw [length_append] at hn
    obtain ⟨n, rfl⟩ : ∃ m, n = m + 1 := ⟨n - 1, by omega⟩
    obtain ⟨hnear, hnears⟩ := forall_mem_cons.mp hnear
    have hread : subprogram ⟨⟨ts ++ (us ++ rest), last⟩, notes⟩ = _ := subprogram_of_text hs hnear
    unfold subprogramsWithin
    rw [kind_bind, append_assoc]
    rcases hstart.kind (us ++ rest) last with hk | hk
    all_goals
      rw [hk]
      dsimp only
      rw [bind_of_ok hread]
      dsimp only
      rw [bind_of_ok (ih hnears (by omega))]
      rfl

theorem program_of_text {p : Program} (h : ProgramText ts p) (hnear : p.ElsesNearest)
    (hlast : last.kind = .endOfText) : program ⟨⟨ts, last⟩, notes⟩ = .ok p ⟨⟨[], last⟩, notes⟩ := by
  cases h with
  | @intro hs cs vs ss bs t name names p consts vars subprograms parts q hhead hconsts hvars
      hsubprograms hblock ht =>
    have hbegin : (Input.mk (bs ++ [t]) last).kind = .keyword .beginKw := kind_block hblock
    have hkind : (Input.mk (ss ++ (bs ++ [t])) last).kind ∉
        [.identifier, .keyword .constKw, .keyword .varKw] := by
      rcases kind_subprograms (bs ++ [t]) last hsubprograms with (hk | hk) | hk
      · rw [hk]
        decide
      · rw [hk]
        decide
      · rw [hk, hbegin]
        decide
    have hread : programHead ⟨⟨hs ++ (cs ++ (vs ++ (ss ++ (bs ++ [t])))), last⟩, notes⟩ =
        .ok (name, names, p) ⟨⟨cs ++ (vs ++ (ss ++ (bs ++ [t]))), last⟩, notes⟩ := by
      have htaken := Parse.takes_programHead _ (cs ++ (vs ++ (ss ++ (bs ++ [t])))) last
        (Nat.le_refl _) (a := (name, names, p)) hhead trivial
      unfold programHead
      rw [bind_of_ok (attempt_of_ok (Parse.lift_of_ok htaken notes))]
      rfl
    obtain ⟨hread₁, hread₂⟩ := sections_of_text notes hconsts hvars hkind
    have hkind_last : (Input.mk [] last).kind = .endOfText := hlast
    have hlength : ss.length ≤ (ss ++ (bs ++ [t])).length := by
      rw [length_append]
      omega
    unfold program
    rw [bind_of_ok hread]
    dsimp only
    rw [bind_of_ok hread₁, bind_of_ok hread₂, get_bind,
      bind_of_ok (subprogramsWithin_of_text hsubprograms hnear.1 hbegin hlength),
      bind_of_ok (block_of_text hblock hnear.2)]
    rw [bind_of_ok (demand_cons ht _), if_pos rfl, kind_bind, if_neg (not_not_intro hkind_last)]
    rfl

end Takes

end Recover

theorem Session.clean_iff {s : Session} : s.Clean ↔ s.notes.filterMap Note.error? = [] := by
  rw [filterMap_eq_nil_iff]
  constructor
  · intro h n hn
    cases n with
    | fault e => exact absurd hn (h e)
    | resumed => rfl
  · intro h e he
    cases h _ he

theorem parse_eq_ok_iff {tokens : List Token} {p : Program} : parse tokens = .ok (p, []) ↔
      ∃ s, Recover.program ⟨.ofTokens tokens, []⟩ = .ok p s ∧ s.Clean := by
  unfold parse readProgram
  cases h : Recover.program ⟨.ofTokens tokens, []⟩ with
  | error e s =>
    constructor
    · intro hparse
      cases hparse
    · rintro ⟨s, hs, _⟩
      cases hs
  | ok q s =>
    change Except.ok (q, s.notes.filterMap Note.error?) = .ok (p, []) ↔ _
    rw [Except.ok.injEq, Prod.mk.injEq, ← Session.clean_iff]
    constructor
    · rintro ⟨rfl, hclean⟩
      exact ⟨s, rfl, hclean⟩
    · rintro ⟨s, ⟨⟩, hclean⟩
      exact ⟨rfl, hclean⟩

theorem Input.ofTokens_ended {ts : List Token} (hts : ∀ t ∈ ts, t.kind.isLast = false)
    {last : Token} (hlast : last.kind.isLast = true) : ofTokens (ts ++ [last]) = ⟨ts, last⟩ := by
  have hbefore : (ts ++ [last]).takeWhile (fun t => !t.kind.isLast) = ts := by
    rw [takeWhile_append_of_pos (fun t ht => by rw [hts t ht]; rfl)]
    simp [hlast]
  have hfind : (ts ++ [last]).find? (fun t => t.kind.isLast) = some last := by
    rw [find?_append, find?_eq_none.mpr fun t ht => by rw [hts t ht]; nofun]
    simp [hlast]
  unfold ofTokens
  rw [hbefore, hfind]

theorem Input.ofTokens_concat {ts : List Token} {last : Token} (hlast : last.kind = .endOfText)
    (hts : ∀ t ∈ ts, t.kind.isLast = false) : ofTokens (ts ++ [last]) = ⟨ts, last⟩ :=
  ofTokens_ended hts (by rw [hlast]; rfl)

theorem Numeral.value?_cases {n : Numeral} {v : Token.Payload} (h : n.value? = some v) :
    (∃ x, v = .real x) ∨ ∃ w, v = .integer w := by
  unfold value? at h
  split at h
  · split at h <;> cases h
    exact .inl ⟨_, rfl⟩
  · obtain ⟨w, -, rfl⟩ := Option.map_eq_some_iff.mp h
    exact .inr ⟨w, rfl⟩

theorem Lexeme.read_carries (c : Char) (cs : List Char) (text : String) (p : Position) :
    (Token.mk (read c cs).kind text p (read c cs).payload).carries = true := by
  unfold read
  split
  · unfold readQuoted
    dsimp only
    split <;> rfl
  split
  · unfold readNumber
    dsimp only
    split
    · rfl
    · next v hreal hv =>
      rcases Numeral.value?_cases hv with ⟨x, rfl⟩ | ⟨w, rfl⟩
      · exact absurd rfl (hreal x)
      · rfl
    · rfl
  split
  · unfold readWord
    dsimp only
    split <;> rfl
  split <;> rfl

theorem scan_carries (source : String) : ∀ t ∈ scan source, t.carries = true := by
  unfold scan
  fun_induction scanFrom .start source.toList with
  | case1 | case2 => exact forall_mem_singleton.mpr rfl
  | case3 => exact forall_mem_singleton.mpr (Lexeme.read_carries _ _ _ _)
  | case4 p cs q c rest _ l t _ ih =>
    exact forall_mem_cons.mpr ⟨Lexeme.read_carries _ _ _ _, ih⟩

/-- Whether tokens are read without faults. -/
def faultless (tokens : List Token) : Bool :=
  match parse tokens with
  | .ok (_, []) => true
  | _ => false

theorem faultless_iff (tokens : List Token) :
    faultless tokens = true ↔ ∃ p, parse tokens = .ok (p, []) := by
  unfold faultless
  split
  · next p h => exact ⟨fun _ => ⟨p, h⟩, fun _ => rfl⟩
  · next h => exact ⟨nofun, fun ⟨p, hp⟩ => absurd hp (h p)⟩

/-- Tokens are read without faults exactly when they are the text of a program; and what is read is
the tree of that text in which each `else` is at the nearest condition. -/
theorem parse_ok_iff_programText {ts : List Token} {last : Token} (hlast : last.kind = .endOfText)
    (hts : ∀ t ∈ ts, t.kind.isLast = false ∧ t.carries = true) :
    ((∃ p, parse (ts ++ [last]) = .ok (p, [])) ↔ ∃ p, ProgramText ts p) ∧
      ∀ p, parse (ts ++ [last]) = .ok (p, []) ↔ ProgramText ts p ∧ p.ElsesNearest := by
  have hinput := Input.ofTokens_concat hlast fun t ht => (hts t ht).1
  have hended : Ended ts last := ⟨hlast, fun t ht => (hts t ht).2⟩
  have htree : ∀ p, parse (ts ++ [last]) = .ok (p, []) ↔ ProgramText ts p ∧ p.ElsesNearest := by
    intro p
    rw [parse_eq_ok_iff, hinput]
    constructor
    · rintro ⟨s, hok, hclean⟩
      obtain ⟨us, rest, rfl, hs, htext, hnear, hkind⟩ :=
        Recover.cleanAt_program _ hended rfl hok hclean
      rw [hs] at hkind
      cases rest with
      | nil =>
        rw [List.append_nil]
        exact ⟨htext, hnear⟩
      | cons t rest =>
        have hother := (hts t (List.mem_append_right us List.mem_cons_self)).1
        rw [show t.kind = .endOfText from hkind] at hother
        cases hother
    · rintro ⟨htext, hnear⟩
      exact ⟨_, Recover.program_of_text htext hnear hlast, fun _ he => nomatch he⟩
  refine ⟨⟨?_, ?_⟩, htree⟩
  · rintro ⟨p, hp⟩
    exact ⟨p, ((htree p).mp hp).1⟩
  · rintro ⟨p, hp⟩
    obtain ⟨q, hq⟩ := exists_nearest_program hp
    exact ⟨q, (htree q).mpr hq⟩

/-- The second condition is within the first, and there is no statement between the semicolons. -/
def danglingSource : String :=
  "program p; var a: boolean; begin a := true; ; if a then if not a then p else exit end."

/-- An assignment lacks its value. -/
def unfinishedSource : String := "program p; var a: boolean; begin a := end."

theorem dangling_text_unfinished_none :
    (∃ p, ProgramText (scan danglingSource).dropLast p ∧ p.ElsesNearest) ∧
      ¬ ∃ p, ProgramText (scan unfinishedSource).dropLast p := by
  have hlast : (Token.mk .endOfText "" .start none).kind = .endOfText := rfl
  have hts : ∀ source, ((scan source).dropLast.all fun t => !t.kind.isLast) = true →
      ∀ t ∈ (scan source).dropLast, t.kind.isLast = false ∧ t.carries = true := by
    intro source h t ht
    have hother := List.all_eq_true.mp h t ht
    have hcarries := scan_carries source t ((List.dropLast_sublist _).subset ht)
    exact ⟨Bool.not_eq_true' _ ▸ hother, hcarries⟩
  have hdangling := parse_ok_iff_programText hlast (hts danglingSource (by decide +kernel))
  have hunfinished := parse_ok_iff_programText hlast (hts unfinishedSource (by decide +kernel))
  constructor
  · have hread :
        faultless ((scan danglingSource).dropLast ++ [⟨.endOfText, "", .start, none⟩]) := by
      decide +kernel
    obtain ⟨p, hp⟩ := (faultless_iff _).mp hread
    exact ⟨p, (hdangling.2 p).mp hp⟩
  · rw [← hunfinished.1, ← faultless_iff]
    decide +kernel

end MiniPascal
