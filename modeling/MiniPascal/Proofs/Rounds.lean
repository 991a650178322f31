import MiniPascal.Proofs.Bounds

/-!
# Rounds of recovery

The loops that recover from faults are taken apart into rounds. A round leaves the loop, or it goes
on and then has taken a token.
-/

namespace MiniPascal

theorem bind_of_error {ε σ α β : Type} {x : EStateM ε σ α} {s s' : σ} {e : ε}
    (h : x s = .error e s') (f : α → EStateM ε σ β) : (x >>= f) s = .error e s' := by
  change EStateM.bind x f s = .error e s'
  unfold EStateM.bind
  rw [h]

/-! ## Readers that take a token -/

namespace Parse

/-- The reader takes the current token if it is of the given kind, whatever its outcome. -/
def Eats {α : Type} (k : Token.Kind) (x : Parse α) : Prop :=
  ∀ t ts last, t.kind = k → ∃ y : Parse α, Advances y ∧ x ⟨t :: ts, last⟩ = y ⟨ts, last⟩

section Eats

variable {α β : Type} {k : Token.Kind}

theorem Eats.bind {x : Parse α} (h : Eats k x) {f : α → Parse β} (hf : ∀ a, Advances (f a)) :
    Eats k (x >>= f) := by
  intro t ts last ht
  obtain ⟨y, hy, heq⟩ := h t ts last ht
  exact ⟨y >>= f, hy.bind hf, bind_congr heq fun _ _ _ => rfl⟩

theorem eats_advance : Eats k advance := fun t _ _ _ => ⟨pure t, .pure t, rfl⟩

theorem eats_position {f : Position → Parse β} (h : ∀ p, Eats k (f p)) :
    Eats k (position >>= f) := fun t ts last ht => h t.position t ts last ht

theorem eats_kind {f : Token.Kind → Parse β} (h : Eats k (f k)) : Eats k (kind >>= f) := by
  rintro t ts last rfl
  exact h t ts last rfl

theorem eats_identifier (what : String) : Eats .identifier (identifier what) := by
  intro t ts last ht
  obtain ⟨r, hr⟩ := exists_identifier_cons ht what ts last
  exact ⟨pure r, .pure r, hr⟩

theorem eats_names (what : String) : Eats .identifier (names what) := by
  unfold names separated
  exact ((eats_identifier what).bind fun _ => .pure _).bind fun _ => .bind .get fun _ =>
    .bind (advances_more _ ((advances_identifier _).map _) _) fun _ => .pure _

theorem eats_constDecl : Eats .identifier constDecl :=
  (eats_identifier _).bind fun _ => .bind (advances_expect _ _) fun _ =>
    .bind (advances tidy_operand) fun _ => .bind (advances_expect _ _) fun _ => .pure _

theorem eats_varDecl : Eats .identifier varDecl :=
  eats_position fun _ => (eats_names _).bind fun _ => .bind (advances_expect _ _) fun _ =>
    .bind (advances tidy_type) fun _ => .bind (advances_expect _ _) fun _ => .pure _

theorem eats_heading (hk : k = .keyword .procedureKw ∨ k = .keyword .functionKw) :
    Eats k heading := by
  have hrest : ∀ isFunction (r : String × Position), Advances (do
      let groups ← paramGroups
      let returns ← returnType isFunction
      let _ ← expect (.mark .semicolon) "';' after subprogram head"
      return ⟨r.1, groups, returns, r.2⟩ : Parse Heading) := fun _ _ =>
    .bind (advances tidy_paramGroups) fun _ => .bind (advances (tidy_returnType _)) fun _ =>
      .bind (advances_expect _ _) fun _ => .pure _
  refine eats_position fun p => eats_kind ?_
  rcases hk with rfl | rfl
  · exact eats_advance.bind fun _ => .bind (advances_identifier _) fun r => hrest false (r.1, p)
  · exact eats_advance.bind fun _ => .bind (advances_identifier _) fun r => hrest true (r.1, p)

theorem eats_assignmentOrCall : Eats .identifier assignmentOrCall := by
  refine (eats_identifier _).bind fun _ => .bind advances_kind fun _ => ?_
  split
  · exact .bind (advances (tidy_indexList tidy_expression)) fun _ =>
      .bind (advances_expect _ _) fun _ => .bind advances_expression fun _ => .pure _
  · exact .bind advances_advance fun _ => .bind advances_expression fun _ => .pure _
  · exact .bind (advances (tidy_argumentList tidy_expression)) fun _ => .pure _
  · exact advances_expected _
  · exact advances_expected _
  · exact .pure _

end Eats

end Parse

/-! ## Loops -/

namespace Recover

section Loops

variable {β : Type}

/-- How a loop goes on after a round: it ends, or goes round again and adds to what that gives. -/
def again (done : β) (loop : Recover β) : Option (β → β) → Recover β
  | none => pure done
  | some add => add <$> loop

/-- The reader is the loop of such rounds, and every round that goes on takes a token. -/
structure Loops (round : Recover (Option (β → β))) (done : β) (loop : Recover β) : Prop where
  advances : Advances round
  gains : ∀ {s s' add}, s.input.last.kind.isLast = true → round s = .ok (some add) s' →
    s'.input.tokens.length < s.input.tokens.length
  unrolls : ∀ s, s.input.last.kind.isLast = true → loop s = (round >>= again done loop) s

variable {round : Recover (Option (β → β))} {done : β}

theorem again_congr {s : Session} {x y : Recover β}
    (h : ∀ add s', round s = .ok (some add) s' → x s' = y s') :
    (round >>= again done x) s = (round >>= again done y) s := by
  refine Parse.bind_congr rfl fun o u hu => ?_
  cases o with
  | none => rfl
  | some add =>
    change EStateM.map add x u = EStateM.map add y u
    unfold EStateM.map
    rw [h add u hu]

/-- A loop with a bound is the loop without one if the bound counts the tokens that are left. -/
theorem Loops.of_within {within : Nat → Recover β} {d : Nat} (hadvances : Advances round)
    (hgains : ∀ {s s' add}, s.input.last.kind.isLast = true → round s = .ok (some add) s' →
      s'.input.tokens.length < s.input.tokens.length)
    (hsucc : ∀ n, within (n + 1) = round >>= again done (within n))
    (hzero : ∀ s : Session, s.input.last.kind.isLast = true → s.input.tokens.length + d = 0 →
      within 0 s = (round >>= again done (within 0)) s) :
    Loops round done (do within ((← get).input.tokens.length + d)) := by
  have hlast : ∀ {s s' o}, s.input.last.kind.isLast = true → round s = .ok o s' →
      s'.input.last.kind.isLast = true := fun hs h => (hadvances.of_ok h).1.2 ▸ hs
  have hstep : ∀ n (s : Session), s.input.last.kind.isLast = true →
      s.input.tokens.length + d ≤ n → within n s = within (n + 1) s := by
    intro n
    induction n with
    | zero =>
      intro s hs hn
      rw [hsucc]
      exact hzero s hs (Nat.le_zero.mp hn)
    | succ n ih =>
      intro s hs hn
      rw [hsucc n, hsucc (n + 1)]
      refine again_congr fun add s' h => ih s' (hlast hs h) ?_
      have hlt := hgains hs h
      omega
  have hbound : ∀ {n} {s : Session}, s.input.last.kind.isLast = true →
      s.input.tokens.length + d ≤ n → within n s = within (s.input.tokens.length + d) s := by
    intro n s hs hn
    obtain ⟨k, rfl⟩ := Nat.exists_eq_add_of_le hn
    clear hn
    induction k with
    | zero => rfl
    | succ k ih => rw [← Nat.add_assoc, ← hstep _ s hs (Nat.le_add_right _ k), ih]
  refine ⟨hadvances, hgains, fun s hs => ?_⟩
  change within (s.input.tokens.length + d) s = _
  rw [hstep _ s hs (Nat.le_refl _), hsucc]
  refine again_congr fun add s' h => hbound (hlast hs h) ?_
  have hlt := hgains hs h
  omega

end Loops

section Rounds

/-- The reader takes the current token if it is of the given kind, whatever its outcome. -/
def Eats {ε α : Type} (k : Token.Kind) (x : EStateM ε Session α) : Prop :=
  ∀ t ts last notes, t.kind = k → ∃ y : EStateM ε Session α, Advances y ∧
    x ⟨⟨t :: ts, last⟩, notes⟩ = y ⟨⟨ts, last⟩, notes⟩

theorem Eats.length_lt {ε α : Type} {k : Token.Kind} {x : EStateM ε Session α} (h : Eats k x)
    (hk : k.isLast = false) {s s' : Session} {a : α} (hs : s.input.last.kind.isLast = true)
    (hkind : s.input.kind = k) (hok : x s = .ok a s') :
    s'.input.tokens.length < s.input.tokens.length := by
  obtain ⟨⟨ts, last⟩, notes⟩ := s
  obtain ⟨t, us, rfl⟩ := Parse.exists_cons_of_kind hs (hkind ▸ hk)
  obtain ⟨y, hy, heq⟩ := h t us last notes hkind
  rw [heq] at hok
  exact Nat.lt_succ_of_le (hy.of_ok hok).1.1.length_le

variable {α β : Type} {k : Token.Kind}

theorem Eats.bind {ε : Type} {x : EStateM ε Session α} (h : Eats k x)
    {f : α → EStateM ε Session β} (hf : ∀ a, Advances (f a)) : Eats k (x >>= f) := by
  intro t ts last notes ht
  obtain ⟨y, hy, heq⟩ := h t ts last notes ht
  refine ⟨y >>= f, hy.bind hf, ?_⟩
  exact Parse.bind_congr heq fun _ _ _ => rfl

theorem eats_lift {x : Parse α} (h : Parse.Eats k x) : Eats k (liftM x : Phrase α) := by
  intro t ts last notes ht
  obtain ⟨y, hy, heq⟩ := h t ts last ht
  refine ⟨liftM y, Parse.advances_lift hy, ?_⟩
  change (monadLift x : Phrase α) _ = (monadLift y : Phrase α) _
  rw [Parse.lift_apply, Parse.lift_apply]
  rw [heq]

variable {p : Phrase α} {decl : Parse α} {e : Fault} {s s' : Session}

theorem attempt_of_error (h : p s = .error e s') : attempt p s = .ok (.error e) s' := by
  unfold attempt
  rw [h]

theorem eats_attempt (h : Eats k p) : Eats k (attempt p) := by
  intro t ts last notes ht
  obtain ⟨y, hy, heq⟩ := h t ts last notes ht
  refine ⟨attempt y, advances_attempt hy, ?_⟩
  unfold attempt
  rw [heq]

theorem eats_orSkip (h : Eats k p) (stops : List Token.Kind) : Eats k (orSkip p stops) :=
  (eats_attempt h).bind fun r => by
    split
    · exact .pure _
    · exact .bind (advances_record _) fun _ => .bind (advances_skipTo stops) fun _ =>
        .bind (advances_accept _) fun _ => .pure _

/-! ### Declarations and subprograms -/

/-- A declaration, if there is a name to begin one. -/
def nextDeclaration (decl : Parse α) (stops : List Token.Kind) :
    Recover (Option (List α → List α)) := do
  if (← kind) = .identifier then
    match ← orSkip decl stops with
    | some d => return some (d :: ·)
    | none => return some id
  else return none

theorem declarations_succ (decl : Parse α) (stops : List Token.Kind) (n : Nat) :
    declarations decl stops (n + 1) =
      nextDeclaration decl stops >>= again [] (declarations decl stops n) := by
  unfold nextDeclaration
  rw [declarations, bind_assoc]
  refine bind_congr fun k => ?_
  split
  · rw [bind_assoc]
    refine bind_congr fun d => ?_
    cases d with
    | none | some d => simp [again]
  · simp [again]

theorem advances_nextDeclaration (h : Tidy decl) (stops : List Token.Kind) :
    Advances (nextDeclaration decl stops) :=
  .bind advances_kind fun _ => .ite
    (.bind (advances (tidy_orSkip h stops)) fun d => by split <;> exact .pure _)
    (.pure _)

theorem loops_declarations (h : Tidy decl) (heats : Eats .identifier (liftM decl : Phrase α))
    (stops : List Token.Kind) : Loops (nextDeclaration decl stops) []
      (do declarations decl stops (← get).input.tokens.length) := by
  refine .of_within (d := 0) (advances_nextDeclaration h stops) ?_ (declarations_succ decl stops) ?_
  · intro s s' add hs hok
    unfold nextDeclaration at hok
    rw [kind_bind] at hok
    by_cases hk : s.input.kind = .identifier
    · rw [if_pos hk] at hok
      obtain ⟨d, u, hd, hok⟩ := bind_eq_ok hok
      have hlt := (eats_orSkip heats stops).length_lt rfl hs hk hd
      cases d <;> cases hok <;> exact hlt
    · rw [if_neg hk] at hok
      cases hok
  · intro s hs hlength
    have hk : s.input.kind ≠ .identifier :=
      Input.Short.kind_ne ⟨hs, Nat.lt_succ_of_le (Nat.le_of_eq hlength)⟩ rfl
    unfold nextDeclaration
    rw [bind_assoc, kind_bind, if_neg hk]
    rfl

/-- A subprogram, if there is a word to begin one. -/
def nextSubprogram : Recover (Option (List Subprogram → List Subprogram)) := do
  match ← kind with
  | .keyword .procedureKw | .keyword .functionKw =>
    match ← subprogram with
    | some s => return some (s :: ·)
    | none => return some id
  | _ => return none

theorem subprogramsWithin_succ (n : Nat) :
    subprogramsWithin (n + 1) = nextSubprogram >>= again [] (subprogramsWithin n) := by
  unfold nextSubprogram
  rw [subprogramsWithin, bind_assoc]
  refine bind_congr fun k => ?_
  split
  case h_3 => simp [again]
  all_goals
    rw [bind_assoc]
    refine bind_congr fun s => ?_
    cases s <;> simp [again]

theorem eats_subprogram (hk : k = .keyword .procedureKw ∨ k = .keyword .functionKw) :
    Eats k subprogram :=
  (eats_orSkip (eats_lift (Parse.eats_heading hk)) _).bind fun _ =>
    .bind (advances tidy_subprogramBody) fun _ => .bind (advances_demand _ _) fun _ => .pure _

theorem advances_nextSubprogram : Advances nextSubprogram := by
  refine .bind advances_kind fun k => ?_
  split
  case h_3 => exact .pure _
  all_goals exact .bind (advances tidy_subprogram) fun s => by split <;> exact .pure _

theorem loops_subprograms :
    Loops nextSubprogram [] (do subprogramsWithin (← get).input.tokens.length) := by
  refine .of_within (d := 0) advances_nextSubprogram ?_ subprogramsWithin_succ ?_
  · intro s s' add hs hok
    have hlt : ∀ {k o u}, (k = .keyword .procedureKw ∨ k = .keyword .functionKw) →
        s.input.kind = k → subprogram s = .ok o u →
        u.input.tokens.length < s.input.tokens.length := fun hk hkind h =>
      (eats_subprogram hk).length_lt (by rcases hk with rfl | rfl <;> rfl) hs hkind h
    unfold nextSubprogram at hok
    rw [kind_bind] at hok
    generalize hkind : s.input.kind = k at hok
    split at hok
    case h_3 => cases hok
    all_goals
      obtain ⟨o, u, ho, hok⟩ := bind_eq_ok hok
      have hlength := hlt (by simp) hkind ho
      cases o <;> cases hok <;> exact hlength
  · intro s hs hlength
    have hk : ∀ {k : Token.Kind}, k.isLast = false → s.input.kind ≠ k :=
      Input.Short.kind_ne ⟨hs, Nat.lt_succ_of_le (Nat.le_of_eq hlength)⟩
    unfold nextSubprogram
    rw [bind_assoc, kind_bind]
    generalize hkind : s.input.kind = k
    split
    · exact absurd hkind (hk rfl)
    · exact absurd hkind (hk rfl)
    · rfl

/-! ### Skipping a statement -/

/-- Skips to a place where a statement may end or begin, and takes a semicolon or a name that begins
no statement. Only after such a name there is more to skip. -/
def nextPause : Recover (Option (Unit → Unit)) := do
  skipTo statementStops
  let i := (← get).input
  if i.kind = .mark .semicolon then
    advance
    return none
  else if i.kind = .identifier ∧ ¬ i.beginsStatement then
    advance
    return some id
  else return none

theorem skipStatementWithin_succ (n : Nat) :
    skipStatementWithin (n + 1) = nextPause >>= again () (skipStatementWithin n) := by
  unfold nextPause
  rw [skipStatementWithin, bind_assoc]
  refine bind_congr fun _ => ?_
  rw [bind_assoc]
  refine bind_congr fun s => ?_
  dsimp only
  split
  · simp [again]
  · split <;> simp [again]

theorem advances_nextPause : Advances nextPause :=
  .bind (advances_skipTo _) fun _ => .bind .get fun _ =>
    .ite (.bind advances_advance fun _ => .pure _)
      (.ite (.bind advances_advance fun _ => .pure _) (.pure _))

theorem eats_advance : Eats k advance := fun _ _ _ _ _ => ⟨pure (), .pure (), rfl⟩

theorem loops_skipStatement : Loops nextPause () skipStatement := by
  refine .of_within (d := 1) advances_nextPause ?_ skipStatementWithin_succ fun _ _ h => nomatch h
  intro s s' add hs hok
  obtain ⟨_, u, hskip, hok⟩ := bind_eq_ok hok
  have hle := (advances_skipTo _).of_ok hskip
  have hu : u.input.last.kind.isLast = true := hle.1.2.symm ▸ hs
  rw [get_bind] at hok
  split at hok
  · cases hok
  · split at hok
    · next hname =>
      have hlt := (eats_advance.bind fun _ => .pure _).length_lt rfl hu hname.1 hok
      exact Nat.lt_of_lt_of_le hlt hle.1.1.length_le
    · cases hok

theorem skipTo_cons {t : Token} {stops : List Token.Kind} (ht : t.kind ∉ stops) (ts : List Token)
    (last : Token) (notes : List Note) :
    skipTo stops ⟨⟨t :: ts, last⟩, notes⟩ = skipTo stops ⟨⟨ts, last⟩, notes⟩ := by
  have hdrop : (Input.mk (t :: ts) last).skipTo stops = (Input.mk ts last).skipTo stops := by
    simp [Input.skipTo, ht]
  change resume ⟨(Input.mk (t :: ts) last).skipTo stops, notes⟩ = _
  rw [hdrop]
  rfl

theorem eats_skipStatement (hk : k ∉ statementStops) : Eats k skipStatement := by
  rintro t ts last notes rfl
  refine ⟨skipStatementWithin ((t :: ts).length + 1), advances (tidy_skipStatementWithin _), ?_⟩
  exact Parse.bind_congr (skipTo_cons hk ts last notes) fun _ _ _ => rfl

/-! ### Sequences of statements -/

/-- The next statement of a sequence with what follows it, or a semicolon before it. -/
def nextStatement (statement : Phrase Statement) :
    Recover (Option (List Statement → List Statement)) := do
  match ← kind with
  | .keyword .endKw | .endOfText => return none
  | .mark .semicolon =>
    advance
    return some id
  | _ =>
    let before := (← get).input.tokens.length
    match ← attempt statement with
    | .ok s =>
      afterStatement
      return some (s :: ·)
    | .error e =>
      afterFault e before
      return some id

theorem statementsWithin_succ (statement : Phrase Statement) (n : Nat) :
    statementsWithin statement (n + 1) =
      nextStatement statement >>= again [] (statementsWithin statement n) := by
  unfold nextStatement
  rw [statementsWithin, bind_assoc]
  refine bind_congr fun k => ?_
  split
  case h_4 =>
    rename_i hend hlast hsemicolon
    -- The round looks at the kind as well, and nothing to split is left if that is the same match.
    try split
    all_goals first
      | exact (hend rfl).elim
      | exact (hlast rfl).elim
      | exact (hsemicolon rfl).elim
      | rw [bind_assoc]
        refine bind_congr fun s => ?_
        rw [bind_assoc]
        refine bind_congr fun r => ?_
        cases r <;> simp [again]
  all_goals simp [again]

theorem advances_nextStatement {statement : Phrase Statement} (h : Advances statement) :
    Advances (nextStatement statement) := by
  refine .bind advances_kind fun k => ?_
  split
  · exact .pure _
  · exact .pure _
  · exact .bind advances_advance fun _ => .pure _
  · refine .bind .get fun _ => .bind (advances_attempt h) fun r => ?_
    split
    · exact .bind advances_afterStatement fun _ => .pure _
    · exact .bind (advances_afterFault _ _) fun _ => .pure _

theorem length_lt_of_statement {a : Statement} (hs : s.input.last.kind.isLast = true)
    (hok : Phrase.statement s = .ok a s')
    (hempty : s.input.kind ≠ .mark .semicolon ∧ s.input.kind ≠ .keyword .endKw ∧
      s.input.kind ≠ .keyword .elseKw) : s'.input.tokens.length < s.input.tokens.length := by
  have hexpr := Parse.advances_lift Parse.advances_expression
  have hexpect : ∀ k what, Advances (monadLift (Parse.expect k what) : Phrase Token) :=
    fun k what => Parse.advances_lift (Parse.advances_expect k what)
  have hnested := Phrase.advances_statementWithin s.input.tokens.length
  have hparts := tidy_statements (Phrase.tidy_statementWithin s.input.tokens.length)
  have hword : ∀ {k : Token.Kind} {f : Token → Phrase Statement}, k.isLast = false →
      s.input.kind = k → (∀ t, Advances (f t)) → (liftM Parse.advance >>= f) s = .ok a s' →
      s'.input.tokens.length < s.input.tokens.length := fun hk hkind hf h =>
    ((eats_lift Parse.eats_advance).bind hf).length_lt hk hs hkind h
  change Phrase.statementWithin (s.input.tokens.length + 1) s = _ at hok
  unfold Phrase.statementWithin at hok
  rw [Phrase.position_kind_bind] at hok
  generalize hkind : s.input.kind = k at hok hempty
  split at hok
  · exact (eats_lift Parse.eats_assignmentOrCall).length_lt rfl hs hkind hok
  · exact hword rfl hkind (fun _ => .bind (Phrase.advances (Phrase.tidy_lift hparts)) fun _ =>
      .bind (hexpect _ _) fun _ => .pure _) hok
  · refine hword rfl hkind (fun _ => .bind hexpr fun _ => .bind (hexpect _ _) fun _ =>
      .bind hnested fun _ => .bind (Parse.advances_lift (Parse.advances_accept _)) fun _ =>
        .ite ?_ (.pure _)) hok
    exact .bind hnested fun _ => .pure _
  · exact hword rfl hkind (fun _ =>
      .bind (Parse.advances_lift (Parse.advances_identifier _)) fun _ =>
      .bind (hexpect _ _) fun _ => .bind hexpr fun _ =>
        .bind (Phrase.advances (Phrase.tidy_lift Parse.tidy_direction)) fun _ => .bind hexpr fun _ =>
          .bind (hexpect _ _) fun _ => .bind hnested fun _ => .pure _) hok
  · exact hword rfl hkind (fun _ => .bind hexpr fun _ => .bind (hexpect _ _) fun _ =>
      .bind hnested fun _ => .pure _) hok
  · exact hword rfl hkind (fun _ => .pure _) hok
  · exact absurd rfl hempty.1
  · exact absurd rfl hempty.2.1
  · exact absurd rfl hempty.2.2
  · cases hok

theorem afterStatement_of_other (hsemicolon : s.input.kind ≠ .mark .semicolon)
    (hend : s.input.kind ≠ .keyword .endKw) (hlast : s.input.kind.isLast = false)
    (hbegins : s.input.beginsStatement = false) :
    afterStatement s = skipStatement { s with notes := s.notes ++
      [.fault ⟨.expected "';' after statement" s.input.current, s.input.position⟩] } := by
  have hvalid : s.input.kind ≠ .invalid := by
    intro h
    rw [h] at hlast
    cases hlast
  have hmore : s.input.kind ≠ .endOfText := by
    intro h
    rw [h] at hlast
    cases hlast
  have hunexpected : s.input.unexpected "';' after statement" =
      .phrase ⟨.expected "';' after statement" s.input.current, s.input.position⟩ := if_neg hvalid
  unfold afterStatement recordExpected
  rw [bind_of_ok (accept_of_ne hsemicolon), if_neg Bool.false_ne_true, get_bind,
    if_neg (not_or.mpr ⟨hend, hmore⟩), bind_assoc, get_bind, hunexpected, hbegins]
  rfl

/-- Before an `else` that belongs to nothing, the empty statement takes no token, but skipping to
the next statement does. -/
theorem eats_afterStatement : Eats (.keyword .elseKw) afterStatement := by
  intro t ts last notes ht
  have hkind : (Input.mk (t :: ts) last).kind = .keyword .elseKw := ht
  have hskip : t.kind ∉ statementStops := by
    rw [ht]
    decide
  have hbegins : (Input.mk (t :: ts) last).beginsStatement = false := by
    unfold Input.beginsStatement
    rw [hkind]
  obtain ⟨y, hy, heq⟩ := eats_skipStatement hskip t ts last
    (notes ++ [.fault ⟨.expected "';' after statement" t, t.position⟩]) rfl
  refine ⟨note (.fault ⟨.expected "';' after statement" t, t.position⟩) >>= fun _ => y,
    .bind (advances_note _) fun _ => hy, ?_⟩
  rw [afterStatement_of_other (by rw [hkind]; nofun) (by rw [hkind]; nofun) (by rw [hkind]; rfl)
    hbegins]
  exact heq

theorem length_lt_of_afterFault {u : Session} (hs : s.input.last.kind.isLast = true)
    (hkind : s.input.kind ≠ .keyword .endKw) (hlast : s.input.kind.isLast = false) (hle : u ≤ s)
    (hok : afterFault e s.input.tokens.length u = .ok () s') :
    s'.input.tokens.length < s.input.tokens.length := by
  obtain ⟨_, v, hv, hok⟩ := bind_eq_ok hok
  obtain ⟨_, w, hw, hok⟩ := bind_eq_ok hok
  have hws : w ≤ s := le_trans ((advances_skipStatement).of_ok hw)
    (le_trans ((advances_record e).of_ok hv) hle)
  rw [get_bind] at hok
  by_cases hlength : w.input.tokens.length = s.input.tokens.length
  -- Nothing was skipped, so the current token is the first one, and it is taken.
  · have hinput : w.input = s.input := by
      have htokens := hws.1.1.eq_of_length hlength
      have hend := hws.1.2
      cases hi : w.input
      cases hj : s.input
      rw [hi, hj] at htokens hend
      cases htokens
      cases hend
      rfl
    rw [if_pos ⟨hlength, hinput ▸ hkind⟩] at hok
    exact hlength ▸ eats_advance.length_lt hlast (hinput ▸ hs) (hinput ▸ rfl) hok
  · rw [if_neg fun h => hlength h.1] at hok
    cases hok
    exact Nat.lt_of_le_of_ne hws.1.1.length_le hlength

theorem statement_of_name (s : Session) (h : s.input.kind = .identifier) :
    Phrase.statement s = (liftM Parse.assignmentOrCall : Phrase Statement) s := by
  change Phrase.statementWithin (s.input.tokens.length + 1) s = _
  unfold Phrase.statementWithin
  rw [Phrase.position_kind_bind, h]

theorem statement_of_empty (s : Session) (h : s.input.kind ∈
    [Token.Kind.mark .semicolon, .keyword .endKw, .keyword .elseKw]) :
    Phrase.statement s = .ok (.compound s.input.position []) s := by
  change Phrase.statementWithin (s.input.tokens.length + 1) s = _
  unfold Phrase.statementWithin
  rw [Phrase.position_kind_bind]
  simp only [List.mem_cons, List.not_mem_nil, or_false] at h
  rcases h with h | h | h <;> rw [h] <;> rfl

theorem statement_of_other (s : Session) (h : s.input.kind ∉
    [Token.Kind.identifier, .keyword .beginKw, .keyword .ifKw, .keyword .forKw, .keyword .whileKw,
      .keyword .exitKw, .mark .semicolon, .keyword .endKw, .keyword .elseKw]) :
    Phrase.statement s = .error (s.input.unexpected "statement") s := by
  change Phrase.statementWithin (s.input.tokens.length + 1) s = _
  unfold Phrase.statementWithin
  rw [Phrase.position_kind_bind]
  generalize s.input.kind = k at h
  split
  case h_10 => rfl
  all_goals exact absurd (by decide) h

/-- A round that reads a statement takes a token: the statement does, or the skipping after it. -/
theorem length_lt_of_attempt {add : List Statement → List Statement}
    (hs : s.input.last.kind.isLast = true) (hend : s.input.kind ≠ .keyword .endKw)
    (hlast : s.input.kind ≠ .endOfText) (hsemicolon : s.input.kind ≠ .mark .semicolon)
    (hok : (attempt Phrase.statement >>= fun
      | .ok a => do
        afterStatement
        return some (a :: ·)
      | .error e => do
        afterFault e s.input.tokens.length
        return some id) s = .ok (some add) s') :
    s'.input.tokens.length < s.input.tokens.length := by
  have hle := Phrase.advances_statement s
  cases hread : Phrase.statement s with
  | ok a u =>
    rw [bind_of_ok (attempt_of_ok hread)] at hok
    by_cases helse : s.input.kind = .keyword .elseKw
    · rw [statement_of_empty s (by rw [helse]; decide)] at hread
      cases hread
      exact (eats_afterStatement.bind fun _ => .pure _).length_lt rfl hs helse hok
    · have hlt := length_lt_of_statement hs hread ⟨hsemicolon, hend, helse⟩
      obtain ⟨_, v, hv, hok⟩ := bind_eq_ok hok
      cases hok
      exact Nat.lt_of_le_of_lt (advances_afterStatement.of_ok hv).1.1.length_le hlt
  | error e u =>
    rw [hread] at hle
    rw [bind_of_ok (attempt_of_error hread)] at hok
    obtain ⟨_, v, hv, hok⟩ := bind_eq_ok hok
    cases hok
    have hvalid : s.input.kind ≠ .invalid := by
      intro hinvalid
      rw [statement_of_other s (by rw [hinvalid]; decide), Input.unexpected, if_pos hinvalid]
        at hread
      cases hread
      cases hv
    exact length_lt_of_afterFault hs hend (by simp [Token.Kind.isLast, hvalid, hlast]) hle hv

theorem loops_statements :
    Loops (nextStatement Phrase.statement) [] (statements Phrase.statement) := by
  refine .of_within (d := 1) (advances_nextStatement Phrase.advances_statement) ?_
    (statementsWithin_succ _) fun _ _ h => nomatch h
  intro s s' add hs hok
  unfold nextStatement at hok
  rw [kind_bind] at hok
  generalize hkind : s.input.kind = k at hok
  split at hok
  · cases hok
  · cases hok
  · exact (eats_advance.bind fun _ => .pure _).length_lt rfl hs hkind hok
  · next hend hlast hsemicolon =>
    subst hkind
    exact length_lt_of_attempt hs hend hlast hsemicolon hok

end Rounds

end Recover

end MiniPascal
