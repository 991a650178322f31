import MiniPascal.Proofs.FaultOrder
import MiniPascal.Proofs.Isolation

/-!
# Recovery in sections of declarations

A section is read in segments, and gives the declarations of the valid ones and one fault for each
of the others, both in order.
-/

namespace MiniPascal

open List

/-! ## Readers within a declaration -/

theorem Confined.position {β : Type} {us : List Token} {f g : Position → Parse β}
    (hcons : ∀ u vs, us = u :: vs → Confined us (f u.position) (g u.position))
    (hnil : us = [] → ∀ p q, Confined [] (f p) (g q)) :
    Confined us (Parse.position >>= f) (Parse.position >>= g) := by
  intro hus t t' ht ht' rest rest' last last'
  cases us with
  | nil => exact hnil rfl t.position t'.position hus ht ht' rest rest' last last'
  | cons u vs => exact hcons u vs rfl hus ht ht' rest rest' last last'

namespace Parse

theorem confined_names (what : String) (us : List Token) :
    Confined us (names what) (names what) := by
  have hname : ∀ what us,
      Confined us (Prod.fst <$> identifier what) (Prod.fst <$> identifier what) := by
    intro what us
    exact .identifier fun _ _ _ _ => .pure _
  exact confined_separated (fun vs _ => hname _ vs) (by decide) (Nat.le_refl _) (hname what us)

variable (us : List Token)

theorem confined_scalarType : Confined us scalarType scalarType := by
  refine .kind (fun u vs hus => ?_) fun _ k k' hk hk' => ?_
  · subst hus
    generalize u.kind = k
    split
    case h_5 => exact .expected _
    all_goals exact .advance (.pure _)
  · rcases hk with rfl | rfl <;> exact .expected _

theorem confined_bound : Confined us bound bound := by
  refine .accept (by decide) (fun u vs _ => ?_) ?_
  all_goals exact .expect (by decide) fun _ _ _ _ => .pure _

theorem confined_bounds : Confined us bounds bounds := by
  refine (confined_bound us).bind fun lower vs _ => .expect (by decide) fun u ws _ _ => ?_
  exact (confined_bound ws).bind fun _ _ _ => .pure _

/-- Wrong bounds are found behind them and blamed on their first token. -/
theorem confined_periodOf (u : Token) (vs : List Token) :
    Confined (u :: vs) (bounds >>= periodOf u.position) (bounds >>= periodOf u.position) := by
  intro hus t t' ht ht' rest rest' last last'
  rcases confined_bounds (u :: vs) hus ht ht' rest rest' last last' with
    ⟨b, ws, hws, hx, hy⟩ | ⟨e, ws, hws, hx, hpos⟩
  · rw [bind_of_ok hx, bind_of_ok hy]
    unfold periodOf
    cases boundsFault? b.1 b.2 with
    | none => exact .inl ⟨_, ws, hws, rfl, rfl⟩
    | some e => exact .inr ⟨_, ws, hws, rfl, mem_cons_self⟩
  · rw [bind_of_error hx]
    exact .inr ⟨e, ws, hws, rfl, hpos⟩

theorem confined_period : Confined us period period := by
  rw [period_eq]
  refine .position (fun u vs hus => ?_) fun _ p q => ?_
  · subst hus
    exact confined_periodOf u vs
  -- Without a token there are no bounds, wherever they would stand.
  · unfold bounds bound
    simp only [bind_assoc]
    refine .accept (by decide) (fun u vs h => by cases h) ?_
    exact .expect (by decide) fun u vs h => by cases h

theorem confined_type : Confined us type type := by
  refine .accept (by decide) (fun t us _ => .expect (by decide) fun u vs _ _ => ?_) ?_
  · refine (confined_separated (fun us _ => confined_period us) (by decide) (Nat.le_refl _)
      (confined_period vs)).bind fun periods ws _ => ?_
    refine .expect (by decide) fun v vs _ _ => .expect (by decide) fun w ws _ _ => ?_
    exact (confined_scalarType ws).bind fun _ _ _ => .pure _
  · exact (confined_scalarType us).bind fun _ _ _ => .pure _

def constPhrase : Parse ConstDecl := do
  let (name, p) ← identifier "constant name"
  let _ ← expect (.mark .equal) "'=' in constant declaration"
  let value ← operand
  return ⟨name, value, p⟩

def varPhrase : Parse VarDecl := do
  let p ← position
  let names ← names "variable name"
  let _ ← expect (.mark .colon) "':' after variable names"
  let (type, periods) ← type
  return ⟨names, type, periods, p⟩

def terminated {α : Type} (what : String) (d : α) : Parse α := do
  let _ ← expect (.mark .semicolon) what
  return d

theorem constDecl_eq : constDecl = constPhrase >>= terminated "';' after constant" := by
  unfold constDecl constPhrase terminated
  simp only [bind_assoc, pure_bind]

theorem varDecl_eq : varDecl = varPhrase >>= terminated "';' after variable declaration" := by
  unfold varDecl varPhrase terminated
  simp only [bind_assoc, pure_bind]

theorem confined_constPhrase : Confined us constPhrase constPhrase := by
  refine .identifier fun u vs r _ => .expect (by decide) fun v ws _ _ => ?_
  exact (confined_operand ws).bind fun _ _ _ => .pure _

theorem confined_varPhrase (u : Token) (vs : List Token) :
    Confined (u :: vs) varPhrase varPhrase := by
  refine .position (fun v ws hus => ?_) fun h => by cases h
  refine (confined_names _ _).bind fun names ws _ => .expect (by decide) fun v vs _ _ => ?_
  exact (confined_type vs).bind fun _ _ _ => .pure _

end Parse

/-! ## Segments of a section -/

/-- The kinds of tokens at which recovery stops in a section of variables. -/
def varStops : List Token.Kind :=
  [.mark .semicolon, .keyword .procedureKw, .keyword .functionKw, .keyword .beginKw]

/-- The kinds of tokens at which recovery stops in a section of constants, behind which variables
may be declared. -/
def constStops : List Token.Kind :=
  [.mark .semicolon, .keyword .varKw, .keyword .procedureKw, .keyword .functionKw,
   .keyword .beginKw]

namespace Segment

/-- A segment as it stands in a section: a name comes first, a semicolon last, and between them
nothing at which recovery stops or the text ends. -/
structure Plain (stops : List Token.Kind) (g : Segment) : Prop where
  starts : Starts g.text (· = .identifier)
  closed : g.stop.kind = .mark .semicolon
  inner : ∀ u ∈ g.text, u.kind ∉ stops ∧ u.kind ≠ .endOfText ∧ u.kind ≠ .invalid

/-- The segment is read as a declaration, to its end and whatever comes then. -/
def Declares {α : Type} (g : Segment) (decl : Parse α) (d : α) : Prop :=
  ∀ rest last, decl ⟨g.tokens ++ rest, last⟩ = .ok d ⟨rest, last⟩

/-- A fault that is blamed on a token of the segment: one that was not expected, one that is no
number, or the first one of bounds that are wrong. -/
inductive Blamed (g : Segment) : SyntaxError → Prop
  | unexpected {t : Token} (what : String) : t ∈ g.tokens →
      g.Blamed ⟨.expected what t, t.position⟩
  | malformed {t : Token} {fault : SyntaxFault} : t ∈ g.text → t.numberFault? = some fault →
      g.Blamed ⟨fault, t.position⟩
  | period {us vs : List Token} {t : Token} {lower upper : Int64} {fault : SyntaxFault} :
      g.tokens = us ++ t :: vs →
      (∀ rest last, ∃ i, Parse.bounds ⟨t :: (vs ++ rest), last⟩ = .ok (lower, upper) i) →
      boundsFault? lower upper = some fault → g.Blamed ⟨fault, t.position⟩

instance (stops : List Token.Kind) (g : Segment) : Decidable (g.Plain stops) :=
  decidable_of_iff (g.text.head?.map Token.kind = some .identifier ∧
      g.stop.kind = .mark .semicolon ∧
      ∀ u ∈ g.text, u.kind ∉ stops ∧ u.kind ≠ .endOfText ∧ u.kind ≠ .invalid) <| by
    constructor
    · rintro ⟨hstarts, hclosed, hinner⟩
      obtain ⟨u, hu, hkind⟩ := Option.map_eq_some_iff.mp hstarts
      obtain ⟨vs, htext⟩ := head?_eq_some_iff.mp hu
      exact ⟨⟨u, vs, htext, hkind⟩, hclosed, hinner⟩
    · rintro ⟨⟨u, vs, htext, hkind⟩, hclosed, hinner⟩
      refine ⟨?_, hclosed, hinner⟩
      rw [htext, head?_cons, Option.map_some, hkind]

theorem Plain.text_ne {stops : List Token.Kind} {g : Segment} (hg : g.Plain stops) :
    ∃ u vs, g.text = u :: vs := by
  obtain ⟨u, vs, htext, -⟩ := hg.starts
  exact ⟨u, vs, htext⟩

theorem Plain.closes {stops : List Token.Kind} {g : Segment} (hg : g.Plain stops) :
    g.stop.kind.Closes := .inl hg.closed

theorem length_le_flatMap (gs : List Segment) : gs.length ≤ (gs.flatMap tokens).length := by
  induction gs with
  | nil => exact Nat.le_refl 0
  | cons g gs ih =>
    rw [flatMap_cons, length_append, length_cons]
    simp only [tokens, length_append, length_cons]
    omega

theorem tokens_append (g : Segment) (rest : List Token) :
    g.tokens ++ rest = g.text ++ g.stop :: rest := by
  simp [tokens]

end Segment

theorem Input.exists_of_between {us ts : List Token} {last : Token} {j : Input}
    (hj : j ≤ ⟨us ++ ts, last⟩) (hts : ⟨ts, last⟩ ≤ j) :
    ∃ vs, vs <:+ us ∧ j = ⟨vs ++ ts, last⟩ := by
  obtain ⟨tokens, last'⟩ := j
  obtain ⟨⟨ws, hws⟩, hlast⟩ := hj
  obtain ⟨⟨vs, hvs⟩, -⟩ := hts
  dsimp only at hws hvs hlast
  subst hvs hlast
  rw [← append_assoc] at hws
  exact ⟨vs, ⟨ws, append_cancel_right hws⟩, rfl⟩

section Blame

variable {g : Segment} {ws rest : List Token} {last : Token}

theorem Parse.bounds_elsewhere (hws : ws <:+ g.text) (hvalid : ∀ u ∈ g.text, u.kind ≠ .invalid)
    (hstop : g.stop.kind.Closes) {b : Int64 × Int64} {k : Input}
    (h : bounds ⟨ws ++ g.stop :: rest, last⟩ = .ok b k) (rest' : List Token) (last' : Token) :
    ∃ i, bounds ⟨ws ++ g.stop :: rest', last'⟩ = .ok b i := by
  have hvalid' : ∀ u ∈ ws, u.kind ≠ .invalid := fun u hu => hvalid u (hws.subset hu)
  rcases confined_bounds ws hvalid' hstop hstop rest rest' last last' with
    ⟨b', vs, -, hx, hy⟩ | ⟨e, vs, -, hx, -⟩
  · rw [h] at hx
    cases hx
    exact ⟨_, hy⟩
  · rw [h] at hx
    cases hx

/-- What is found between two places within the segment is blamed on a token of it. -/
theorem Finds.blamed {k : Input} {fault : SyntaxFault}
    (h : Finds ⟨ws ++ g.stop :: rest, last⟩ k fault) (hws : ws <:+ g.text)
    (hvalid : ∀ u ∈ g.text, u.kind ≠ .invalid) (hstop : g.stop.kind.Closes)
    (hk : ⟨g.stop :: rest, last⟩ ≤ k) :
    g.Blamed ⟨fault, (Input.mk (ws ++ g.stop :: rest) last).position⟩ := by
  obtain ⟨us, hus⟩ := hws
  -- The token that is blamed, which is the semicolon if nothing else is left.
  obtain ⟨t, vs, htail⟩ : ∃ t vs, ws ++ [g.stop] = t :: vs :=
    exists_cons_of_ne_nil (by simp)
  have hsplit : g.tokens = us ++ t :: vs := by
    rw [← htail, Segment.tokens, ← hus, append_assoc]
  have hinput : ∀ rest, ws ++ g.stop :: rest = t :: (vs ++ rest) := by
    intro rest
    rw [← cons_append, ← htail, append_assoc]
    rfl
  have hcurrent : (Input.mk (ws ++ g.stop :: rest) last).current = t := by
    rw [hinput]
    rfl
  rw [Input.position, hcurrent]
  cases h with
  | expected what =>
    rw [hcurrent]
    exact .unexpected what (by simp [hsplit])
  | examined hexamined hrun hfault =>
    cases hexamined with
    | number =>
      rw [hcurrent] at hfault
      refine .malformed ?_ hfault
      cases ws with
      | nil =>
        -- The semicolon would be the number, and taken.
        cases hrun
        exact absurd hk.1.length_le (by simp [Input.advance])
      | cons w ws =>
        cases htail
        simp [← hus]
    | bounds =>
      refine .period hsplit (fun rest' last' => ?_) hfault
      rw [← hinput]
      exact Parse.bounds_elsewhere ⟨us, hus⟩ hvalid hstop hrun rest' last'

end Blame

/-! ## One round for a segment -/

namespace Parse

theorem expect_of_ne {k : Token.Kind} {i : Input} (hk : i.kind ≠ k) (hvalid : i.kind ≠ .invalid)
    (what : String) :
    expect k what i = .error (.phrase ⟨.expected what i.current, i.position⟩) i := by
  unfold expect
  rw [kind_bind, if_neg hk]
  change EStateM.Result.error (i.unexpected what) i = _
  unfold Input.unexpected
  rw [if_neg hvalid]

/-- A phrase and its semicolon take all tokens up to the first semicolon, whatever comes behind it,
or they give up before it. -/
theorem terminated_or_error {α : Type} {phrase : Parse α} {us : List Token}
    (hphrase : Confined us phrase phrase) (hvalid : ∀ u ∈ us, u.kind ≠ .invalid)
    (hinner : ∀ u ∈ us, u.kind ≠ .mark .semicolon) {t : Token} (ht : t.kind = .mark .semicolon)
    (what : String) (rest : List Token) (last : Token) : (∃ d, ∀ rest last,
      (phrase >>= terminated what) ⟨us ++ t :: rest, last⟩ = .ok d ⟨rest, last⟩) ∨
    ∃ e vs, vs <:+ us ∧ (phrase >>= terminated what) ⟨us ++ t :: rest, last⟩ =
      .error (.phrase e) ⟨vs ++ t :: rest, last⟩ := by
  rcases hphrase hvalid (.inl ht) (.inl ht) rest rest last last with
    ⟨d, vs, hvs, hread, -⟩ | ⟨e, vs, hvs, hread, -⟩
  · cases vs with
    | nil =>
      refine .inl ⟨d, fun rest' last' => ?_⟩
      rw [bind_of_ok (hphrase.elsewhere hvalid (.inl ht) hread (.inl ht) rest' last')]
      unfold terminated
      rw [bind_of_ok (expect_cons ht what)]
      rfl
    | cons v vs =>
      have hv : v ∈ us := hvs.subset mem_cons_self
      have hne : (Input.mk (v :: (vs ++ t :: rest)) last).kind ≠ .mark .semicolon := hinner v hv
      refine .inr ⟨⟨.expected what v, v.position⟩, v :: vs, hvs, ?_⟩
      rw [bind_of_ok hread]
      exact bind_of_error (expect_of_ne hne (hvalid v hv) what) _
  · refine .inr ⟨e, vs, hvs, ?_⟩
    rw [bind_of_error hread]

end Parse

/-- A reader of declarations looks at one token after the other within a segment and takes the
semicolon last. -/
structure ReadsSegments {α : Type} (decl : Parse α) : Prop where
  tidy : Tidy decl
  ends : ∃ phrase what, decl = phrase >>= Parse.terminated what ∧
    ∀ u vs, Confined (u :: vs) phrase phrase

theorem Parse.readsSegments_constDecl : ReadsSegments constDecl where
  tidy := tidy_constDecl
  ends := ⟨constPhrase, _, constDecl_eq, fun u vs => confined_constPhrase (u :: vs)⟩

theorem Parse.readsSegments_varDecl : ReadsSegments varDecl where
  tidy := tidy_varDecl
  ends := ⟨varPhrase, _, varDecl_eq, confined_varPhrase⟩

section Rounds

variable {α : Type} {decl : Parse α} (hdecl : ReadsSegments decl) {stops : List Token.Kind}
  (hsemicolon : .mark .semicolon ∈ stops) {g : Segment} (hg : g.Plain stops) (rest : List Token)
  (last : Token)

include hdecl hsemicolon hg in
theorem Segment.declares_or_blamed : (∃ d, g.Declares decl d) ∨ ∃ e vs, g.Blamed e ∧ vs <:+ g.text ∧
      decl ⟨g.tokens ++ rest, last⟩ = .error (.phrase e) ⟨vs ++ g.stop :: rest, last⟩ := by
  obtain ⟨phrase, what, heq, hconfined⟩ := hdecl.ends
  obtain ⟨u, us, htext⟩ := hg.text_ne
  have hvalid : ∀ u ∈ g.text, u.kind ≠ .invalid := fun u hu => (hg.inner u hu).2.2
  have hinner : ∀ u ∈ g.text, u.kind ≠ .mark .semicolon := by
    intro u hu hkind
    exact (hg.inner u hu).1 (hkind ▸ hsemicolon)
  rcases Parse.terminated_or_error (htext ▸ hconfined u us) hvalid hinner hg.closed what rest last
    with ⟨d, hread⟩ | ⟨e, vs, hvs, hread⟩
  · refine .inl ⟨d, fun rest last => ?_⟩
    rw [g.tokens_append, heq, hread]
  · rw [← heq] at hread
    refine .inr ⟨e, vs, ?_, hvs, by rw [g.tokens_append, hread]⟩
    cases Parse.trail_of_error hdecl.tidy hread with
    | cons hj hk hfinds hrest =>
      have hleft : Input.mk (g.stop :: rest) last ≤ ⟨vs ++ g.stop :: rest, last⟩ :=
        ⟨⟨vs, rfl⟩, rfl⟩
      have hbehind := hleft.trans hrest.le
      obtain ⟨ws, hws, rfl⟩ := Input.exists_of_between hj (hbehind.trans hk)
      exact hfinds.blamed hws hvalid hg.closes hbehind

namespace Recover

theorem skipTo_stop {vs : List Token} {t : Token} (hvs : ∀ v ∈ vs, v.kind ∉ stops)
    (ht : t.kind ∈ stops) (hvalid : t.kind ≠ .invalid) (notes : List Note) :
    skipTo stops ⟨⟨vs ++ t :: rest, last⟩, notes⟩ =
      .ok () ⟨⟨t :: rest, last⟩, notes ++ [.resumed t.position]⟩ := by
  induction vs with
  | nil => exact skipTo_of_mem ht hvalid last notes
  | cons v vs ih =>
    rw [cons_append, skipTo_cons (hvs v mem_cons_self)]
    exact ih fun w hw => hvs w (mem_cons_of_mem v hw)

include hsemicolon hg in
theorem orSkip_past {i : Input} {e : SyntaxError} {vs : List Token} (hvs : vs <:+ g.text)
    (h : decl i = .error (.phrase e) ⟨vs ++ g.stop :: rest, last⟩) (notes : List Note) :
    orSkip decl stops ⟨i, notes⟩ =
      .ok none ⟨⟨rest, last⟩, notes ++ [.fault e] ++ [.resumed g.stop.position]⟩ := by
  have hplain : ∀ v ∈ vs, v.kind ∉ stops := fun v hv => (hg.inner v (hvs.subset hv)).1
  have hstop : g.stop.kind ∈ stops := hg.closed ▸ hsemicolon
  have hvalid : g.stop.kind ≠ .invalid := by
    rw [hg.closed]
    decide
  have hrecord : record (.phrase e) ⟨⟨vs ++ g.stop :: rest, last⟩, notes⟩ =
      .ok () ⟨⟨vs ++ g.stop :: rest, last⟩, notes ++ [.fault e]⟩ := rfl
  unfold orSkip
  rw [bind_of_ok (attempt_of_error (Parse.lift_of_error h notes))]
  dsimp only
  rw [bind_of_ok hrecord, bind_of_ok (skipTo_stop rest last hplain hstop hvalid _),
    bind_of_ok (accept_cons hg.closed)]
  rfl

end Recover

end Rounds

/-! ## Sections -/

/-- What is read of the segments of a section: for each one that is a declaration this declaration,
and for each other one a fault that is blamed on it. -/
inductive Recovered {α : Type} (decl : Parse α) :
    List Segment → List SyntaxError → List α → Prop
  | nil : Recovered decl [] [] []
  | valid {g : Segment} {gs : List Segment} {es : List SyntaxError} {d : α} {ds : List α} :
      g.Declares decl d → Recovered decl gs es ds → Recovered decl (g :: gs) es (d :: ds)
  | broken {g : Segment} {gs : List Segment} {e : SyntaxError} {es : List SyntaxError}
      {ds : List α} : (∀ d, ¬ g.Declares decl d) → g.Blamed e → Recovered decl gs es ds →
      Recovered decl (g :: gs) (e :: es) ds

section Sections

variable {α : Type} {decl : Parse α} (hdecl : ReadsSegments decl) {stops : List Token.Kind}
  (hsemicolon : .mark .semicolon ∈ stops) {gs : List Segment} (hgs : ∀ g ∈ gs, g.Plain stops)
  {rest : List Token} {last : Token} (hend : (Input.mk rest last).kind ≠ .identifier)

namespace Recover

include hdecl hsemicolon hgs hend in
theorem declarations_recovered {n : Nat} (hn : gs.length ≤ n) (notes : List Note) :
    ∃ ds more, declarations decl stops n ⟨⟨gs.flatMap Segment.tokens ++ rest, last⟩, notes⟩ =
        .ok ds ⟨⟨rest, last⟩, notes ++ more⟩ ∧
      Recovered decl gs (more.filterMap Note.error?) ds := by
  induction gs generalizing n notes with
  | nil =>
    refine ⟨[], [], ?_, .nil⟩
    rw [append_nil]
    exact declarations_of_ne decl stops hend n
  | cons g gs ih =>
    obtain ⟨n, rfl⟩ := Nat.exists_eq_add_one_of_ne_zero (Nat.ne_zero_of_lt hn)
    have hg := hgs g mem_cons_self
    have hrest := ih (fun g' hg' => hgs g' (mem_cons_of_mem g hg')) (Nat.le_of_succ_le_succ hn)
    have htokens : (g :: gs).flatMap Segment.tokens ++ rest =
        g.tokens ++ (gs.flatMap Segment.tokens ++ rest) := by
      rw [flatMap_cons, append_assoc]
    have hname : (Input.mk (g.tokens ++ (gs.flatMap Segment.tokens ++ rest)) last).kind =
        .identifier := (hg.starts.append [g.stop]).kind _ last
    rw [htokens]
    unfold declarations
    rw [kind_bind, if_pos hname]
    rcases g.declares_or_blamed hdecl hsemicolon hg (gs.flatMap Segment.tokens ++ rest) last with
      ⟨d, hread⟩ | ⟨e, vs, hblamed, hvs, hread⟩
    · obtain ⟨ds, more, hrun, hrecovered⟩ := hrest notes
      refine ⟨d :: ds, more, ?_, .valid hread hrecovered⟩
      rw [bind_of_ok (orSkip_of_ok (Parse.lift_of_ok (hread _ last) notes) stops)]
      dsimp only
      rw [bind_of_ok hrun]
      rfl
    · obtain ⟨ds, more, hrun, hrecovered⟩ :=
        hrest (notes ++ [.fault e] ++ [.resumed g.stop.position])
      have hbroken : ∀ d, ¬ g.Declares decl d := by
        intro d hd
        rw [hd] at hread
        cases hread
      refine ⟨ds, .fault e :: .resumed g.stop.position :: more, ?_, ?_⟩
      · rw [bind_of_ok (orSkip_past hsemicolon hg _ last hvs hread notes)]
        dsimp only
        rw [hrun]
        simp
      · exact .broken hbroken hblamed hrecovered

include hdecl hsemicolon hgs hend in
theorem declarationsAfter_recovered (hne : gs ≠ []) {keyword : Keyword} {k : Token}
    (hk : k.kind = .keyword keyword) (notes : List Note) :
    ∃ ds more, declarationsAfter keyword decl stops
        ⟨⟨k :: (gs.flatMap Segment.tokens ++ rest), last⟩, notes⟩ =
        .ok ds ⟨⟨rest, last⟩, notes ++ more⟩ ∧
      Recovered decl gs (more.filterMap Note.error?) ds := by
  have hname : (Input.mk (gs.flatMap Segment.tokens ++ rest) last).kind = .identifier := by
    obtain ⟨g, gs, rfl⟩ := exists_cons_of_ne_nil hne
    rw [flatMap_cons, append_assoc]
    exact ((hgs g mem_cons_self).starts.append [g.stop]).kind _ last
  have hn : gs.length ≤ (gs.flatMap Segment.tokens ++ rest).length := by
    rw [length_append]
    exact Nat.le_add_right_of_le (Segment.length_le_flatMap gs)
  obtain ⟨ds, more, hrun, hrecovered⟩ :=
    declarations_recovered hdecl hsemicolon hgs hend hn notes
  refine ⟨ds, more, ?_, hrecovered⟩
  unfold declarationsAfter
  rw [bind_of_ok (accept_cons hk), if_pos rfl, kind_bind, if_neg (not_not_intro hname)]
  exact hrun

end Recover

theorem Segment.declares_iff {rule : List Token → α → Prop} (hreads : Reads decl rule)
    (htakes : ∀ n, Takes n decl rule fun _ _ => True) {g : Segment}
    (hcarries : ∀ t ∈ g.tokens, t.carries = true) (d : α) :
    g.Declares decl d ↔ rule g.tokens d := by
  constructor
  · intro h
    have hended : Ended (g.tokens ++ []) ⟨.endOfText, "", ⟨1, 1⟩, none⟩ := by
      refine ⟨rfl, ?_⟩
      rwa [append_nil]
    obtain ⟨us, rest, hsplit, hleft, hrule⟩ := hreads _ hended rfl (h [] _)
    cases hleft
    rw [append_cancel_right hsplit]
    exact hrule
  · intro h rest last
    exact htakes _ rest last (Nat.le_refl _) h trivial

end Sections

/-- Segments behind the keyword of a section, up to a token that is no name, are read up to that
token. Each one that is a declaration is kept and each other one costs a fault, in order. What a
declaration is does not depend on what stands around it, and its rule says it of scanned tokens. -/
theorem sections_recovered {gs : List Segment} (hne : gs ≠ []) {rest : List Token} {last : Token}
    (hend : (Input.mk rest last).kind ≠ .identifier) (notes : List Note) :
    (∀ k : Token, k.kind = .keyword .constKw → (∀ g ∈ gs, g.Plain constStops) →
      ∃ ds more, Recover.constSection ⟨⟨k :: (gs.flatMap Segment.tokens ++ rest), last⟩, notes⟩ =
          .ok ds ⟨⟨rest, last⟩, notes ++ more⟩ ∧
        Recovered Parse.constDecl gs (more.filterMap Note.error?) ds ∧
        ∀ g ∈ gs, (∀ t ∈ g.tokens, t.carries = true) →
          ∀ d, g.Declares Parse.constDecl d ↔ ConstText g.tokens d) ∧
    ∀ k : Token, k.kind = .keyword .varKw → (∀ g ∈ gs, g.Plain varStops) →
      ∃ ds more, Recover.varSection ⟨⟨k :: (gs.flatMap Segment.tokens ++ rest), last⟩, notes⟩ =
          .ok ds ⟨⟨rest, last⟩, notes ++ more⟩ ∧
        Recovered Parse.varDecl gs (more.filterMap Note.error?) ds ∧
        ∀ g ∈ gs, (∀ t ∈ g.tokens, t.carries = true) →
          ∀ d, g.Declares Parse.varDecl d ↔ VarText g.tokens d := by
  constructor
  · intro k hk hgs
    obtain ⟨ds, more, hrun, hrecovered⟩ := Recover.declarationsAfter_recovered
      Parse.readsSegments_constDecl (by decide) hgs hend hne hk notes
    refine ⟨ds, more, hrun, hrecovered, fun g _ hcarries => ?_⟩
    exact Segment.declares_iff Parse.reads_constDecl Parse.takes_constDecl hcarries
  · intro k hk hgs
    obtain ⟨ds, more, hrun, hrecovered⟩ := Recover.declarationsAfter_recovered
      Parse.readsSegments_varDecl (by decide) hgs hend hne hk notes
    refine ⟨ds, more, hrun, hrecovered, fun g _ hcarries => ?_⟩
    exact Segment.declares_iff Parse.reads_varDecl Parse.takes_varDecl hcarries

/-- The segment that stands alone on a line, with its semicolon. -/
def Segment.onLine (line : Nat) (source : String) : Segment where
  text := (scan source).dropLast.map fun t => { t with position := ⟨line, t.position.column⟩ }
  stop := ⟨.mark .semicolon, ";", ⟨line, source.length + 1⟩, none⟩

/-- The second constant has no value, and the third one goes on behind its value. -/
def constSegments : List Segment := [.onLine 2 "a = 1", .onLine 3 "b =", .onLine 4 "c = -a + 2"]

/-- The bounds of the first dimension of `x` are the wrong way round. -/
def varSegments : List Segment :=
  [.onLine 6 "x : array [5 .. 1, 2 .. 3] of real", .onLine 7 "y, z : integer"]

theorem constSegments_varSegments_recovered :
    (∃ ds more, Recover.constSection ⟨⟨⟨.keyword .constKw, "const", ⟨1, 1⟩, none⟩ ::
          (constSegments.flatMap Segment.tokens ++ []), ⟨.endOfText, "", ⟨9, 1⟩, none⟩⟩, []⟩ =
        .ok ds ⟨⟨[], ⟨.endOfText, "", ⟨9, 1⟩, none⟩⟩, [] ++ more⟩ ∧
      Recovered Parse.constDecl constSegments (more.filterMap Note.error?) ds ∧
      ∀ g ∈ constSegments, (∀ t ∈ g.tokens, t.carries = true) →
        ∀ d, g.Declares Parse.constDecl d ↔ ConstText g.tokens d) ∧
    ∃ ds more, Recover.varSection ⟨⟨⟨.keyword .varKw, "var", ⟨5, 1⟩, none⟩ ::
          (varSegments.flatMap Segment.tokens ++ []), ⟨.endOfText, "", ⟨9, 1⟩, none⟩⟩, []⟩ =
        .ok ds ⟨⟨[], ⟨.endOfText, "", ⟨9, 1⟩, none⟩⟩, [] ++ more⟩ ∧
      Recovered Parse.varDecl varSegments (more.filterMap Note.error?) ds ∧
      ∀ g ∈ varSegments, (∀ t ∈ g.tokens, t.carries = true) →
        ∀ d, g.Declares Parse.varDecl d ↔ VarText g.tokens d := by
  have hend : (Input.mk [] ⟨.endOfText, "", ⟨9, 1⟩, none⟩).kind ≠ .identifier := by decide
  have hconst : ∀ g ∈ constSegments, g.Plain constStops := by decide +kernel
  have hvar : ∀ g ∈ varSegments, g.Plain varStops := by decide +kernel
  constructor
  · exact (sections_recovered (List.cons_ne_nil _ _) hend []).1 _ rfl hconst
  · exact (sections_recovered (List.cons_ne_nil _ _) hend []).2 _ rfl hvar

end MiniPascal
